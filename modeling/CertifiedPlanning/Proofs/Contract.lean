/-!
# Contracts of computations that may fail

Two readings of a postcondition. `Ensures` is silent about faults: what holds of the result, if
there is one. `Meets` also promises that there is a result. `Mirrors` relates two computations: the
second one fails as the first one does, and its result is that of the first one seen through a
function. All three pass through a sequence of computations one step at a time. `Obeys` leaves open
which of the first two is meant.
-/

namespace CertifiedPlanning

variable {ε α β : Type} {x : Except ε α} {f : α → Except ε β} {P P' : α → Prop} {Q : β → Prop}

/-- A sequence that succeeds succeeds in its first step. -/
theorem bind_eq_ok {b : β} (h : x >>= f = .ok b) : ∃ a, x = .ok a ∧ f a = .ok b := by
  cases x with
  | error e => cases h
  | ok a => exact ⟨a, rfl, h⟩

theorem map_eq_ok {g : α → β} {b : β} (h : g <$> x = .ok b) : ∃ a, x = .ok a ∧ g a = b := by
  cases x with
  | error e => cases h
  | ok a => exact ⟨a, rfl, Except.ok.inj h⟩

theorem eq_ok_of_toOption {a : α} (h : x.toOption = some a) : x = .ok a := by
  cases x with
  | error e => cases h
  | ok b => exact congrArg Except.ok (Option.some.inj h)

/-- A run that is carried on only while there is a result. -/
theorem toOption_bind_eq_some {g : α → Option β} {b : β} (h : x.toOption.bind g = some b) :
    ∃ a, x = .ok a ∧ g a = some b := by
  obtain ⟨a, result, rest⟩ := Option.bind_eq_some_iff.1 h
  exact ⟨a, eq_ok_of_toOption result, rest⟩

theorem toOption_map_eq_some {g : α → β} {b : β} (h : x.toOption.map g = some b) :
    ∃ a, x = .ok a ∧ g a = b := by
  obtain ⟨a, result, same⟩ := Option.map_eq_some_iff.1 h
  exact ⟨a, eq_ok_of_toOption result, same⟩

/-- Every result satisfies `P`. -/
def Ensures (x : Except ε α) (P : α → Prop) : Prop := ∀ a, x = .ok a → P a

/-- There is a result, and it satisfies `P`. -/
def Meets (x : Except ε α) (P : α → Prop) : Prop := ∃ a, x = .ok a ∧ P a

namespace Ensures

theorem ok {a : α} (h : P a) : Ensures (.ok a : Except ε α) P := by
  rintro _ ⟨⟩
  exact h

theorem pure {a : α} (h : P a) : Ensures (Pure.pure a : Except ε α) P := ok h

theorem error {e : ε} : Ensures (.error e : Except ε α) P := nofun

theorem throw {e : ε} : Ensures (throw e : Except ε α) P := nofun

theorem bind (hx : Ensures x P) (hf : ∀ a, P a → Ensures (f a) Q) : Ensures (x >>= f) Q := by
  cases x with
  | error e => exact error
  | ok a => exact hf a (hx a rfl)

theorem mono (hx : Ensures x P) (h : ∀ a, P a → P' a) : Ensures x P' :=
  fun a ha => h a (hx a ha)

theorem and (hx : Ensures x P) (hx' : Ensures x P') : Ensures x fun a => P a ∧ P' a :=
  fun a ha => ⟨hx a ha, hx' a ha⟩

theorem map {g : α → β} (hx : Ensures x P) (h : ∀ a, P a → Q (g a)) : Ensures (g <$> x) Q := by
  cases x with
  | error e => exact error
  | ok a => exact ok (h a (hx a rfl))

/-- Nothing is known about the result of the first step. -/
theorem bind_of_any (hf : ∀ a, Ensures (f a) Q) : Ensures (x >>= f) Q :=
  bind (P := fun _ => True) (fun _ _ => trivial) fun a _ => hf a

theorem foldlM {σ τ : Type} {step : σ → τ → Except ε σ} {I : σ → Prop} {items : List τ}
    {start : σ} (init : I start) (keep : ∀ s t, I s → Ensures (step s t) I) :
    Ensures (items.foldlM step start) I := by
  induction items generalizing start with
  | nil => exact pure init
  | cons t rest ih =>
    rw [List.foldlM_cons]
    exact bind (keep start t init) fun s hs => ih hs

/-- The invariant speaks of the items that are still to come. -/
theorem foldlM_rest {σ τ : Type} {step : σ → τ → Except ε σ} {I : List τ → σ → Prop}
    {items : List τ} {start : σ} (init : I items start)
    (keep : ∀ t rest s, I (t :: rest) s → Ensures (step s t) (I rest)) :
    Ensures (items.foldlM step start) (I []) := by
  induction items generalizing start with
  | nil => exact pure init
  | cons t rest ih =>
    rw [List.foldlM_cons]
    exact bind (keep t rest start init) fun s hs => ih hs

end Ensures

namespace Meets

theorem of_isOk (h : x.isOk = true) : Meets x fun _ => True := by
  cases x with
  | error e => cases h
  | ok a => exact ⟨a, rfl, trivial⟩

theorem ok {a : α} (h : P a) : Meets (.ok a : Except ε α) P := ⟨a, rfl, h⟩

theorem pure {a : α} (h : P a) : Meets (Pure.pure a : Except ε α) P := ⟨a, rfl, h⟩

theorem bind (hx : Meets x P) (hf : ∀ a, P a → Meets (f a) Q) : Meets (x >>= f) Q := by
  obtain ⟨a, rfl, ha⟩ := hx
  exact hf a ha

theorem mono (hx : Meets x P) (h : ∀ a, P a → P' a) : Meets x P' := by
  obtain ⟨a, hx, ha⟩ := hx
  exact ⟨a, hx, h a ha⟩

theorem ensures (hx : Meets x P) : Ensures x P := by
  obtain ⟨a, rfl, ha⟩ := hx
  exact .ok ha

theorem foldlM {σ τ : Type} {step : σ → τ → Except ε σ} {I : σ → Prop} {items : List τ}
    {start : σ} (init : I start) (keep : ∀ s, ∀ t ∈ items, I s → Meets (step s t) I) :
    Meets (items.foldlM step start) I := by
  induction items generalizing start with
  | nil => exact pure init
  | cons t rest ih =>
    rw [List.foldlM_cons]
    exact bind (keep start t List.mem_cons_self init) fun s hs =>
      ih hs fun s t ht => keep s t (List.mem_cons_of_mem _ ht)

/-- What is ensured anyway may be added. -/
theorem and_ensures (hx : Meets x P) (h : Ensures x P') : Meets x fun a => P a ∧ P' a := by
  obtain ⟨a, hx, ha⟩ := hx
  exact ⟨a, hx, ha, h a hx⟩

end Meets

/-- The result satisfies `P`; there may be none unless `total` says that there is one. -/
def Obeys (total : Bool) (x : Except ε α) (P : α → Prop) : Prop :=
  Ensures x P ∧ (total = true → Meets x P)

namespace Obeys

variable {total : Bool}

theorem ok {a : α} (h : P a) : Obeys total (.ok a : Except ε α) P := ⟨.ok h, fun _ => .ok h⟩

theorem pure {a : α} (h : P a) : Obeys total (Pure.pure a : Except ε α) P := ok h

theorem bind (hx : Obeys total x P) (hf : ∀ a, P a → Obeys total (f a) Q) :
    Obeys total (x >>= f) Q :=
  ⟨hx.1.bind fun a ha => (hf a ha).1, fun h => (hx.2 h).bind fun a ha => (hf a ha).2 h⟩

/-- The result of the first step is known. -/
theorem bind_ok {a : α} (hx : x = .ok a) (hf : Obeys total (f a) Q) : Obeys total (x >>= f) Q := by
  subst hx
  exact hf

theorem mono (hx : Obeys total x P) (h : ∀ a, P a → P' a) : Obeys total x P' :=
  ⟨hx.1.mono h, fun ht => (hx.2 ht).mono h⟩

theorem map {g : α → β} (hx : Obeys total x P) (h : ∀ a, P a → Q (g a)) :
    Obeys total (g <$> x) Q := by
  refine ⟨hx.1.map h, fun ht => ?_⟩
  obtain ⟨a, rfl, ha⟩ := hx.2 ht
  exact .ok (h a ha)

theorem of_meets (h : Meets x P) : Obeys total x P := by
  obtain ⟨a, rfl, ha⟩ := h
  exact ok ha

theorem of_ensures (h : Ensures x P) : Obeys false x P := ⟨h, nofun⟩

/-- What fails where failure is allowed may fail for every purpose. -/
theorem of_error {e : ε} (h : Obeys total (.error e : Except ε α) P) :
    Obeys total (.error e : Except ε β) Q := by
  refine ⟨.error, fun ht => ?_⟩
  obtain ⟨a, ha, -⟩ := h.2 ht
  cases ha

theorem meets (h : Obeys true x P) : Meets x P := h.2 rfl

/-- The invariant speaks of the items that are still to come. -/
theorem foldlM_rest {σ τ : Type} {step : σ → τ → Except ε σ} {I : List τ → σ → Prop}
    {items : List τ} {start : σ} (init : I items start)
    (keep : ∀ t rest s, I (t :: rest) s → Obeys total (step s t) (I rest)) :
    Obeys total (items.foldlM step start) (I []) := by
  induction items generalizing start with
  | nil => exact pure init
  | cons t rest ih =>
    rw [List.foldlM_cons]
    exact bind (keep t rest start init) fun s hs => ih hs

/-- What is ensured anyway may be added. -/
theorem and_ensures (h : Obeys total x P) (h' : Ensures x P') :
    Obeys total x fun a => P a ∧ P' a := by
  refine ⟨fun a ha => ⟨h.1 a ha, h' a ha⟩, fun ht => ?_⟩
  obtain ⟨a, ha, hp⟩ := h.2 ht
  exact ⟨a, ha, hp, h' a ha⟩

end Obeys

/-- The second computation does what the first one does, and its result is seen through `u`. -/
def Mirrors (u : α → β) (x : Except ε α) (y : Except ε β) : Prop := y = u <$> x

namespace Mirrors

variable {γ δ : Type} {u : α → β} {v : γ → δ} {y : Except ε β} {k : α → Except ε γ}

theorem ok {a : α} {b : β} (h : b = u a) : Mirrors u (.ok a : Except ε α) (.ok b) :=
  congrArg Except.ok h

theorem pure {a : α} {b : β} (h : b = u a) :
    Mirrors u (Pure.pure a : Except ε α) (Pure.pure b) := ok h

theorem error {e : ε} : Mirrors u (.error e : Except ε α) (.error e) := rfl

theorem throw {e : ε} : Mirrors u (throw e : Except ε α) (MonadExcept.throw e) := rfl

theorem bind {l : β → Except ε δ} (hx : Mirrors u x y) (h : ∀ a, Mirrors v (k a) (l (u a))) :
    Mirrors v (x >>= k) (y >>= l) := by
  subst hx
  cases x with
  | error e => exact error
  | ok a => exact h a

/-- What is ensured of the first result may be used for what follows. -/
theorem bind_ensures {l : β → Except ε δ} (hx : Mirrors u x y) (hp : Ensures x P)
    (h : ∀ a, P a → Mirrors v (k a) (l (u a))) : Mirrors v (x >>= k) (y >>= l) := by
  subst hx
  cases x with
  | error e => exact error
  | ok a => exact h a (hp a rfl)

theorem map {g : α → γ} {k : β → δ} (hx : Mirrors u x y) (h : ∀ a, k (u a) = v (g a)) :
    Mirrors v (g <$> x) (k <$> y) := by
  subst hx
  cases x with
  | error e => exact error
  | ok a => exact ok (h a)

theorem ite {c : Prop} [Decidable c] {x' : Except ε α} {y' : Except ε β} (h : Mirrors u x y)
    (h' : Mirrors u x' y') : Mirrors u (if c then x else x') (if c then y else y') := by
  split
  · exact h
  · exact h'

/-- Both computations begin alike. -/
theorem bind_same {l : α → Except ε δ} (h : ∀ a, Mirrors v (k a) (l a)) :
    Mirrors v (x >>= k) (x >>= l) := by
  cases x with
  | error e => exact error
  | ok a => exact h a

/-- The first computation goes on and adds what the second one does not see. -/
theorem bind_pure {g : α → γ} {w : γ → β} (h : Mirrors u x y) (same : ∀ a, w (g a) = u a) :
    Mirrors w (x >>= fun a => Pure.pure (g a)) y := by
  subst h
  cases x with
  | error e => exact error
  | ok a => exact ok (same a).symm

theorem foldlM {τ : Type} {step : α → τ → Except ε α} {step' : β → τ → Except ε β}
    (h : ∀ a t, Mirrors u (step a t) (step' (u a) t)) (items : List τ) (a : α) :
    Mirrors u (items.foldlM step a) (items.foldlM step' (u a)) := by
  induction items generalizing a with
  | nil => exact pure rfl
  | cons t rest ih =>
    rw [List.foldlM_cons, List.foldlM_cons]
    exact bind (h a t) ih

/-- A view of what is seen through a view. -/
theorem trans {z : Except ε γ} {w : β → γ} (h : Mirrors u x y) (h' : Mirrors w y z) :
    Mirrors (fun a => w (u a)) x z := by
  subst h
  subst h'
  cases x with
  | error e => exact error
  | ok a => exact ok rfl

/-- Two computations with the same mirror image succeed together, with results that look alike. -/
theorem transport {z : Except ε β} {x' : Except ε α} {a : α} (h : Mirrors u x z)
    (h' : Mirrors u x' z) (hx : x = .ok a) : ∃ a', x' = .ok a' ∧ u a' = u a := by
  subst hx
  cases x' with
  | error e => cases h.symm.trans h'
  | ok a' => exact ⟨a', rfl, (Except.ok.inj (h.symm.trans h')).symm⟩

end Mirrors

end CertifiedPlanning
