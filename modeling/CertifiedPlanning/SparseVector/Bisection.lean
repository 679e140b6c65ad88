/-!
# Bisection

`bisect?` looks a key up in a list that is sorted by strictly ascending keys. On other lists it
still answers by the same rule: the list is halved, the upper half is kept unless its first key
is too large, and the last item left is compared.
-/

namespace CertifiedPlanning

/-- The item with the given key, found by halving. -/
def bisect? {α : Type} (keyOf : α → Nat) (key : Nat) (items : List α) : Option α :=
  if 2 ≤ items.length then
    let half := items.length / 2
    if (items.drop half).head?.any (fun middle => key < keyOf middle) then
      bisect? keyOf key (items.take (items.length - half))
    else
      bisect? keyOf key (items.drop half)
  else
    items.find? (fun item => keyOf item == key)
termination_by items.length
decreasing_by
  all_goals simp only [List.length_take, List.length_drop]; omega

/-- On strictly ascending keys halving finds what a scan finds. -/
theorem bisect?_eq_find? {α : Type} {keyOf : α → Nat} {key : Nat} {items : List α}
    (sorted : items.Pairwise (fun a b => keyOf a < keyOf b)) :
    bisect? keyOf key items = items.find? (fun item => keyOf item == key) := by
  fun_induction bisect? keyOf key items with
  | case1 items long half large ih =>
    rw [ih (sorted.sublist (List.take_sublist _ _))]
    -- what is cut off starts at the middle or later, where all keys exceed `key`
    have beyond : ∀ x ∈ items.drop (items.length - half), key < keyOf x := by
      have upper := sorted.sublist (List.drop_sublist half items)
      intro x hx
      rw [show items.length - half = half + (items.length - half - half) by omega,
        ← List.drop_drop] at hx
      have hx := List.mem_of_mem_drop hx
      cases hd : items.drop half with
      | nil => simp [hd] at hx
      | cons middle rest =>
        simp only [hd, List.head?_cons, Option.any_some, decide_eq_true_eq] at large
        rw [hd] at upper hx
        rcases List.mem_cons.1 hx with rfl | hx
        · exact large
        · exact Nat.lt_trans large ((List.pairwise_cons.1 upper).1 x hx)
    have missed : (items.drop (items.length - half)).find? (fun item => keyOf item == key)
        = none := List.find?_eq_none.2 fun x hx => by have := beyond x hx; simp; omega
    conv => rhs; rw [← List.take_append_drop (items.length - half) items]
    rw [List.find?_append, missed, Option.or_none]
  | case2 items long half small ih =>
    rw [ih (sorted.sublist (List.drop_sublist _ _))]
    -- what is cut off lies before the middle, where all keys are below `key`
    have below : ∀ x ∈ items.take half, keyOf x < key := by
      rw [← List.take_append_drop half items, List.pairwise_append] at sorted
      intro x hx
      cases hd : items.drop half with
      | nil => have := congrArg List.length hd; simp at this; omega
      | cons middle rest =>
        have := sorted.2.2 x hx middle (by simp [hd])
        simp [hd] at small
        omega
    have missed : (items.take half).find? (fun item => keyOf item == key) = none :=
      List.find?_eq_none.2 fun x hx => by have := below x hx; simp; omega
    conv => rhs; rw [← List.take_append_drop half items]
    rw [List.find?_append, missed, Option.none_or]
  | case3 items _ => rfl

/-- The key occurs in a sorted list of keys. -/
def bisectMem (key : Nat) (keys : List Nat) : Bool := (bisect? id key keys).isSome

end CertifiedPlanning
