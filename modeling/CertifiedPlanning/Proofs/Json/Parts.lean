import Mathlib.Data.List.TakeWhile
import Mathlib.Order.Basic
import CertifiedPlanning.Json.Reader
import CertifiedPlanning.Json.Writer

/-!
# Reading back texts and numbers

A text that was written between quotes is read back, whatever characters it has
(`Json.text?_writtenText`). A number is read up to the end of its literal, unless what comes next
could be part of it (`Json.number?_append`), and a count that fits into 64 bits is read back
(`Json.nat?_ofNat`).
-/

namespace CertifiedPlanning

namespace Json

/-! ## Texts -/

/-- A control character without a letter of its own is written by its four digits. -/
theorem hexQuad?_control : ∀ k < 0x20,
    ("\\u" ++ String.ofList (List.replicate (4 - (hexDigits k).length) '0') ++ hexDigits k).toList =
        ['\\', 'u', '0', '0', (k / 16).digitChar, (k % 16).digitChar] ∧
      hexQuad? '0' '0' (k / 16).digitChar (k % 16).digitChar = some k ∧ k < 0xD800 := by
  decide +kernel

/-- A written character is read as that character. -/
theorem pieces?_writtenChar (acc : List Piece) (c : Char) (rest : List Char) :
    pieces? acc ((writtenChar c).toList ++ rest) = pieces? (.char c :: acc) rest := by
  unfold writtenChar
  split
  case h_8 =>
    split
    · rename_i control
      obtain ⟨written, read, small⟩ := hexQuad?_control c.toNat control
      have unit : Piece.ofUnit c.toNat = .char c := by
        rw [Piece.ofUnit, if_neg fun half => absurd half.1 (Nat.not_le.2 small), Char.ofNat_toNat]
      dsimp only
      rw [written]
      dsimp only [List.cons_append, List.nil_append]
      rw [pieces?, read]
      dsimp only
      rw [unit]
    · rename_i quote backslash _ _ _ _ _ plain
      have single : c.toString.toList = [c] := by simp
      rw [single, List.singleton_append, pieces?, if_neg plain]
      · exact quote
      · exact fun _ _ _ _ _ escape => absurd escape backslash
      · exact fun _ _ escape => absurd escape backslash
  all_goals rfl

theorem pieces?_writtenChars (acc : List Piece) (cs rest : List Char) :
    pieces? acc (cs.flatMap (fun c => (writtenChar c).toList) ++ '"' :: rest) =
      some ((cs.map .char).reverse ++ acc, rest) := by
  induction cs generalizing acc with
  | nil => rfl
  | cons c cs ih =>
    rw [List.flatMap_cons, List.append_assoc, pieces?_writtenChar, ih]
    simp

theorem joinPieces?_chars (after cs : List Char) :
    joinPieces? after (cs.map .char) = some (cs.reverse ++ after) := by
  induction cs generalizing after with
  | nil => rfl
  | cons c cs ih =>
    rw [List.map_cons, joinPieces?, ih]
    simp

theorem toList_writtenText (s : String) :
    (writtenText s).toList =
      '"' :: (s.toList.flatMap (fun c => (writtenChar c).toList) ++ ['"']) := by
  have fold : ∀ (cs : List Char) (acc : String),
      (cs.foldl (fun acc c => acc ++ writtenChar c) acc).toList =
        acc.toList ++ cs.flatMap fun c => (writtenChar c).toList := by
    intro cs
    induction cs with
    | nil => simp
    | cons c cs ih =>
      intro acc
      rw [List.foldl_cons, ih]
      simp
  rw [writtenText, String.foldl_eq_foldl_toList, String.toList_append, fold]
  rfl

/-- A written text is read back. -/
theorem text?_writtenText (s : String) (rest : List Char) :
    ∃ cs, (writtenText s).toList = '"' :: cs ∧ text? (cs ++ rest) = some (some s, rest) := by
  refine ⟨_, toList_writtenText s, ?_⟩
  have joined : (joinPieces? [] (s.toList.map Piece.char).reverse).map String.ofList = some s := by
    rw [← List.map_reverse, joinPieces?_chars]
    simp
  rw [List.append_assoc, List.singleton_append, text?, pieces?_writtenChars, List.append_nil]
  exact congrArg (fun s => some (s, rest)) joined

/-! ## Numbers -/

/-- A number that was read so far does not go on here. -/
def Ends (tail : List Char) : Prop :=
  ∀ c ∈ tail.head?, c.isDigit = false ∧ c ≠ '.' ∧ c ≠ 'e' ∧ c ≠ 'E'

theorem Ends.cons {c : Char} (h : c.isDigit = false ∧ c ≠ '.' ∧ c ≠ 'e' ∧ c ≠ 'E')
    (rest : List Char) : Ends (c :: rest) := by
  rintro _ ⟨⟩
  exact h

theorem takeWhile_digits_append {cs tail : List Char}
    (ends : cs.dropWhile (·.isDigit) = [] → Ends tail) :
    (cs ++ tail).takeWhile (·.isDigit) = cs.takeWhile (·.isDigit) ∧
      (cs ++ tail).dropWhile (·.isDigit) = cs.dropWhile (·.isDigit) ++ tail := by
  induction cs with
  | nil =>
    cases tail with
    | nil => exact ⟨rfl, rfl⟩
    | cons c tail =>
      have stop := (ends rfl c rfl).1
      simp [stop]
  | cons c cs ih =>
    cases digit : c.isDigit with
    | true =>
      rw [List.dropWhile_cons_of_pos digit] at ends
      obtain ⟨taken, dropped⟩ := ih ends
      simp [digit, taken, dropped]
    | false => simp [digit]

variable {cs rest tail part : List Char}

theorem digits?_append (h : digits? cs = some (part, rest)) (ends : rest = [] → Ends tail) :
    digits? (cs ++ tail) = some (part, rest ++ tail) := by
  unfold digits? at h ⊢
  dsimp only at h ⊢
  split at h
  · cases h
  · cases h
    obtain ⟨taken, dropped⟩ := takeWhile_digits_append ends
    rw [taken, dropped, if_neg ‹_›]

theorem wholePart?_append (h : wholePart? cs = some (part, rest)) (ends : rest = [] → Ends tail) :
    wholePart? (cs ++ tail) = some (part, rest ++ tail) := by
  unfold wholePart? at h ⊢
  obtain ⟨⟨digits, after⟩, hdigits, h⟩ := Option.bind_eq_some_iff.1 h
  dsimp only at h
  split at h
  · rename_i lead
    cases h
    rw [digits?_append hdigits ends]
    exact if_pos lead
  · cases h

theorem fractionPart?_append (h : fractionPart? cs = some (part, rest))
    (ends : rest = [] → Ends tail) :
    fractionPart? (cs ++ tail) = some (part, rest ++ tail) := by
  cases cs with
  | nil =>
    cases h
    cases tail with
    | nil => rfl
    | cons c tail =>
      have stop := (ends rfl c rfl).2.1
      unfold fractionPart?
      split <;> simp_all
  | cons c cs =>
    unfold fractionPart? at h
    split at h
    · rename_i after point
      cases point
      obtain ⟨⟨digits, after⟩, hdigits, h⟩ := Option.bind_eq_some_iff.1 h
      cases h
      rw [List.cons_append, fractionPart?, digits?_append hdigits ends]
      rfl
    · cases h
      rw [List.cons_append]
      unfold fractionPart?
      split <;> simp_all

theorem exponentPart?_append (h : exponentPart? cs = some (part, rest))
    (ends : rest = [] → Ends tail) :
    exponentPart? (cs ++ tail) = some (part, rest ++ tail) := by
  cases cs with
  | nil =>
    cases h
    cases tail with
    | nil => rfl
    | cons c tail =>
      obtain ⟨-, -, lower, upper⟩ := ends rfl c rfl
      simp [exponentPart?, lower, upper]
  | cons c cs =>
    rw [List.cons_append]
    unfold exponentPart? at h ⊢
    dsimp only at h ⊢
    split at h
    · rename_i letter
      rw [if_pos letter]
      split at h
      · rename_i digits after hdigits
        cases h
        -- the sign is the first character, if it is one, and there is a first character
        cases cs with
        | nil => cases hdigits
        | cons d cs =>
          have first : ∀ l : List Char,
              ((d :: l).takeWhile fun c => c == '+' || c == '-').take 1 =
                if d == '+' || d == '-' then [d] else [] := fun l => by
            rw [List.takeWhile_cons]
            split <;> rfl
          rw [List.cons_append]
          simp only [first] at hdigits ⊢
          split at hdigits
          · rename_i sign
            rw [if_pos sign]
            simp only [List.length_singleton, List.drop_succ_cons, List.drop_zero] at hdigits ⊢
            rw [digits?_append hdigits ends]
          · rename_i sign
            rw [if_neg sign]
            simp only [List.length_nil, List.drop_zero] at hdigits ⊢
            rw [← List.cons_append, digits?_append hdigits ends]
      · cases h
    · rename_i letter
      cases h
      rw [if_neg letter]
      rfl

/-- The sign of a number that is read. -/
def minusSign (cs : List Char) : List Char := if cs.head? == some '-' then ['-'] else []

theorem number?_eq (cs : List Char) : number? cs = do
    let (whole, rest) ← wholePart? (cs.drop (minusSign cs).length)
    let (fraction, rest) ← fractionPart? rest
    let (exponent, rest) ← exponentPart? rest
    return (.number (String.ofList (minusSign cs ++ whole ++ fraction ++ exponent)), rest) := rfl

/-- A number is read from its literal whatever comes after it, unless it goes on. -/
theorem number?_append {j : Json} (h : number? cs = some (j, rest)) (ends : rest = [] → Ends tail) :
    number? (cs ++ tail) = some (j, rest ++ tail) := by
  rw [number?_eq] at h ⊢
  obtain ⟨⟨whole, afterWhole⟩, hwhole, h⟩ := Option.bind_eq_some_iff.1 h
  obtain ⟨⟨fraction, afterFraction⟩, hfraction, h⟩ := Option.bind_eq_some_iff.1 h
  obtain ⟨⟨exponent, afterExponent⟩, hexponent, h⟩ := Option.bind_eq_some_iff.1 h
  cases h
  -- a part at which the text ends is followed by empty parts only
  have endsFraction : afterFraction = [] → Ends tail := fun empty => by
    subst empty
    cases hexponent
    exact ends rfl
  have endsWhole : afterWhole = [] → Ends tail := fun empty => by
    subst empty
    cases hfraction
    exact endsFraction rfl
  cases cs with
  | nil => cases hwhole
  | cons c cs =>
    have sign : minusSign (c :: cs ++ tail) = minusSign (c :: cs) := rfl
    have short : (minusSign (c :: cs)).length ≤ (c :: cs).length := by
      unfold minusSign
      split <;> simp
    rw [sign, List.drop_append_of_le_length short, wholePart?_append hwhole endsWhole]
    dsimp only [bind, Option.bind]
    rw [fractionPart?_append hfraction endsFraction]
    dsimp only
    rw [exponentPart?_append hexponent ends]
    rfl

/-- A number starts with a digit or a minus sign. -/
theorem exists_of_number? {j : Json} (h : number? cs = some (j, rest)) :
    ∃ c more, cs = c :: more ∧ (c = '-' ∨ c.isDigit = true) := by
  cases cs with
  | nil => cases h
  | cons c cs =>
    refine ⟨c, cs, rfl, or_iff_not_imp_left.2 fun positive => ?_⟩
    have sign : minusSign (c :: cs) = [] := by simp [minusSign, positive]
    rw [number?_eq, sign] at h
    obtain ⟨⟨whole, after⟩, hwhole, -⟩ := Option.bind_eq_some_iff.1 h
    obtain ⟨⟨digits, after⟩, hdigits, -⟩ := Option.bind_eq_some_iff.1 hwhole
    by_contra letter
    rw [Bool.not_eq_true] at letter
    simp [digits?, letter] at hdigits

/-! ## Counts -/

theorem head?_toDigits {n : ℕ} (h : (Nat.toDigits 10 n).head? = some '0') : n = 0 := by
  induction n using Nat.strongRecOn with
  | _ n ih =>
    rw [Nat.toDigits_eq_if (by decide)] at h
    split at h
    · rename_i small
      have digit : ∀ k < 10, Nat.digitChar k = '0' → k = 0 := by decide
      exact digit n small (by simpa using h)
    · rename_i large
      rw [List.head?_append, Option.or_of_isSome (by simp [Nat.toDigits_ne_nil])] at h
      have zero := ih (n / 10) (by omega) h
      omega

theorem isDigit_of_mem_toDigits {n : ℕ} {c : Char} (h : c ∈ Nat.toDigits 10 n) :
    c.isDigit = true := Nat.isDigit_of_mem_toDigits (by decide) le_rfl h

theorem takeWhile_toDigits (n : ℕ) :
    (Nat.toDigits 10 n).takeWhile (·.isDigit) = Nat.toDigits 10 n ∧
      (Nat.toDigits 10 n).dropWhile (·.isDigit) = [] :=
  ⟨List.takeWhile_eq_self_iff.2 fun _ hc => isDigit_of_mem_toDigits hc,
    List.dropWhile_eq_nil_iff.2 fun _ hc => isDigit_of_mem_toDigits hc⟩

theorem head?_toDigits_ne_minus (n : ℕ) :
    ((Nat.toDigits 10 n).head? == some '-') = false := by
  rw [beq_eq_false_iff_ne]
  intro minus
  have digit := isDigit_of_mem_toDigits (List.mem_of_head? minus)
  revert digit
  decide

/-- A count is written as a number. -/
theorem number?_toString (n : ℕ) :
    number? (toString n).toList = some (.number (toString n), []) := by
  obtain ⟨all, none⟩ := takeWhile_toDigits n
  have lead : (decide ((Nat.toDigits 10 n).length ≤ 1) || (Nat.toDigits 10 n).head? != some '0') =
      true := by
    by_cases zero : (Nat.toDigits 10 n).head? = some '0'
    · obtain rfl := head?_toDigits zero
      rfl
    · simp [zero]
  have digits : digits? (Nat.toDigits 10 n) = some (Nat.toDigits 10 n, []) := by
    rw [digits?, all, none, if_neg]
    simp [Nat.toDigits_ne_nil]
  have whole : wholePart? (Nat.toDigits 10 n) = some (Nat.toDigits 10 n, []) := by
    rw [wholePart?, digits]
    exact if_pos lead
  have sign : minusSign (Nat.toDigits 10 n) = [] := by
    simp [minusSign, head?_toDigits_ne_minus]
  rw [Nat.toString_eq_ofList_toDigits, String.toList_ofList, number?_eq, sign, List.length_nil,
    List.drop_zero, whole]
  simp [fractionPart?, exponentPart?]

/-- A count that fits into 64 bits is read back. -/
theorem nat?_ofNat {n : ℕ} (small : n < UInt64.size) : (ofNat n).nat? = some n := by
  obtain ⟨all, none⟩ := takeWhile_toDigits n
  have value : digitsValue (Nat.toDigits 10 n) = n := by
    rw [digitsValue, ← Nat.ofDigitChars_eq_foldl]
    exact Nat.ofDigitChars_ten_toDigits
  have literal : literalOf (toString n) = ⟨false, n, 0, true⟩ := by
    rw [Nat.toString_eq_ofList_toDigits, literalOf, String.toList_ofList]
    simp [head?_toDigits_ne_minus, all, none, value, signedValue]
    rfl
  rw [ofNat, nat?, literal]
  simp [small]

end Json

end CertifiedPlanning
