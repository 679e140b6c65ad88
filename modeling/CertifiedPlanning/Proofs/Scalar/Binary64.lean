import Mathlib
import CertifiedPlanning.Proofs.Scalar.Order

/-!
# Rounding of floating-point numbers

A floating-point number is a count of smallest steps with a sign (`steps`), an infinity or the
invalid number. Adding and subtracting finite numbers means to add and subtract the counts and to
round the result to 53 binary digits. Rounding keeps the order (`roundedPlace_mono`): within one
power of two because the nearest count is monotone, and across powers of two because both roundings
stop at the power in between. So differences are monotone, with the infinities as the ends of the
line.

`nearest` is the rounding in closed form. The packed definition shifts bit by bit and keeps a round
bit and a sticky bit; `roundWithAccuracy_eq` proves the two equal.
-/

namespace CertifiedPlanning

namespace Binary64

open Float.Model Float.Model.UnpackedFloat

/-! ## Rounding a count -/

/-- `m / 2 ^ k` rounded to the nearest count, to the even one of two. -/
def nearest (m k : ℕ) : ℕ :=
  if 2 * (m % 2 ^ k) < 2 ^ k then m / 2 ^ k
  else if 2 * (m % 2 ^ k) = 2 ^ k then m / 2 ^ k + m / 2 ^ k % 2
  else m / 2 ^ k + 1

theorem div_le_nearest (m k : ℕ) : m / 2 ^ k ≤ nearest m k := by
  unfold nearest
  split
  · exact le_rfl
  · split
    · exact Nat.le_add_right _ _
    · exact Nat.le_succ _

theorem nearest_le (m k : ℕ) : nearest m k ≤ m / 2 ^ k + 1 := by
  unfold nearest
  split
  · exact Nat.le_succ _
  · split <;> omega

theorem nearest_mono {m m' : ℕ} (h : m ≤ m') (k : ℕ) : nearest m k ≤ nearest m' k := by
  have quotients : m / 2 ^ k ≤ m' / 2 ^ k := Nat.div_le_div_right h
  rcases quotients.eq_or_lt with same | below
  · -- with one quotient the remainders decide
    have remainders : m % 2 ^ k ≤ m' % 2 ^ k := by
      have split := Nat.div_add_mod m (2 ^ k)
      have split' := Nat.div_add_mod m' (2 ^ k)
      rw [same] at split
      omega
    unfold nearest
    rw [same]
    split <;> split <;> (try split) <;> (try split) <;> omega
  · calc nearest m k ≤ m / 2 ^ k + 1 := nearest_le m k
      _ ≤ m' / 2 ^ k := below
      _ ≤ nearest m' k := div_le_nearest m' k

/-- A multiple of the step is not rounded. -/
theorem nearest_mul (m : ℕ) {j k : ℕ} (h : k ≤ j) : nearest (m * 2 ^ j) k = m * 2 ^ (j - k) := by
  have multiple : m * 2 ^ j = m * 2 ^ (j - k) * 2 ^ k := by
    rw [mul_assoc, ← pow_add, Nat.sub_add_cancel h]
  rw [nearest, multiple, Nat.mul_mod_left, mul_zero, if_pos (by positivity),
    Nat.mul_div_cancel _ (by positivity)]

/-- Scaling a count and the step together changes nothing. -/
theorem nearest_mul_add (m k j : ℕ) : nearest (m * 2 ^ j) (k + j) = nearest m k := by
  have quotient : m * 2 ^ j / 2 ^ (k + j) = m / 2 ^ k := by
    rw [pow_add, Nat.mul_div_mul_right _ _ (by positivity)]
  have remainder : m * 2 ^ j % 2 ^ (k + j) = m % 2 ^ k * 2 ^ j := by
    rw [pow_add, Nat.mul_mod_mul_right]
  have below : 2 * (m % 2 ^ k * 2 ^ j) < 2 ^ (k + j) ↔ 2 * (m % 2 ^ k) < 2 ^ k := by
    rw [pow_add, ← mul_assoc, Nat.mul_lt_mul_right (by positivity)]
  have tie : 2 * (m % 2 ^ k * 2 ^ j) = 2 ^ (k + j) ↔ 2 * (m % 2 ^ k) = 2 ^ k := by
    rw [pow_add, ← mul_assoc, Nat.mul_left_inj (by positivity)]
  simp only [nearest, quotient, remainder, below, tie]

/-! ## Shifting with a round bit and a sticky bit -/

/-- What is left of `m` after `k` shifts to the right. -/
def shifted (m k : ℕ) : ExtendedMantissa :=
  ⟨m / 2 ^ k, decide (2 ^ k ≤ 2 * (m % 2 ^ k)), decide (2 * (m % 2 ^ k) % 2 ^ k ≠ 0)⟩

theorem shiftRightOne_shifted (m k : ℕ) :
    (shifted m k).shiftRightOne = shifted m (k + 1) := by
  have low : m % 2 ^ k < 2 ^ k := Nat.mod_lt _ (by positivity)
  have double : 2 ^ (k + 1) = 2 * 2 ^ k := Nat.pow_succ'
  have split : m % 2 ^ (k + 1) = m % 2 ^ k + 2 ^ k * (m / 2 ^ k % 2) := by
    rw [pow_succ, Nat.mod_mul]
  have bit : m / 2 ^ k % 2 = 0 ∨ m / 2 ^ k % 2 = 1 := Nat.mod_two_eq_zero_or_one _
  have quotient : m / 2 ^ k / 2 = m / 2 ^ (k + 1) := by rw [Nat.div_div_eq_div_mul, pow_succ]
  have round : (m / 2 ^ k % 2 != 0) = decide (2 ^ (k + 1) ≤ 2 * (m % 2 ^ (k + 1))) := by
    rw [split]
    rcases bit with bit | bit <;> rw [bit] <;> simp <;> omega
  have sticky : (decide (2 ^ k ≤ 2 * (m % 2 ^ k)) || decide (2 * (m % 2 ^ k) % 2 ^ k ≠ 0)) =
      decide (2 * (m % 2 ^ (k + 1)) % 2 ^ (k + 1) ≠ 0) := by
    have rest : 2 * (m % 2 ^ (k + 1)) % 2 ^ (k + 1) = 2 * (m % 2 ^ k) := by
      rw [split, mul_add, ← mul_assoc, ← double, Nat.add_mul_mod_self_left,
        Nat.mod_eq_of_lt (by omega)]
    rw [rest]
    by_cases half : 2 ^ k ≤ 2 * (m % 2 ^ k)
    · have nonzero : 0 < 2 ^ k := by positivity
      simp [half]
      omega
    · rw [Nat.mod_eq_of_lt (not_le.1 half)]
      simp [half]
  simp only [ExtendedMantissa.shiftRightOne, shifted, quotient, round, sticky]

/-- Shifting bit by bit divides once. -/
theorem shiftRight_eq (m k : ℕ) :
    (⟨m, false, false⟩ : ExtendedMantissa) >>> k = shifted m k := by
  change Nat.repeat ExtendedMantissa.shiftRightOne k ⟨m, false, false⟩ = _
  induction k with
  | zero => simp [Nat.repeat, shifted, Nat.mod_one]
  | succ k ih => rw [Nat.repeat, ih, shiftRightOne_shifted]

/-- The two bits say on which side of the middle the number lay. -/
theorem roundedMantissa_shifted (m k : ℕ) : (shifted m k).roundedMantissa = nearest m k := by
  have low : m % 2 ^ k < 2 ^ k := Nat.mod_lt _ (by positivity)
  unfold nearest
  by_cases below : 2 * (m % 2 ^ k) < 2 ^ k
  · rw [if_pos below]
    have round : ¬2 ^ k ≤ 2 * (m % 2 ^ k) := Nat.not_le.2 below
    by_cases whole : 2 * (m % 2 ^ k) % 2 ^ k ≠ 0
    · rw [shifted, decide_eq_false round, decide_eq_true whole]
      rfl
    · rw [shifted, decide_eq_false round, decide_eq_false whole]
      rfl
  · rw [if_neg below]
    have above : 2 ^ k ≤ 2 * (m % 2 ^ k) := not_lt.1 below
    by_cases tie : 2 * (m % 2 ^ k) = 2 ^ k
    · have nothing : ¬2 * (m % 2 ^ k) % 2 ^ k ≠ 0 := by rw [tie, Nat.mod_self, not_not]
      rw [if_pos tie, shifted, decide_eq_true above, decide_eq_false nothing]
      rfl
    · have beyond : 2 * (m % 2 ^ k) % 2 ^ k ≠ 0 := by
        rw [Nat.mod_eq_sub_mod above, Nat.mod_eq_of_lt (by omega)]
        omega
      rw [if_neg tie, shifted, decide_eq_true above, decide_eq_true beyond]
      rfl

/-! ## Rounding to 53 binary digits -/

/-- The exponent of the last place that is kept. -/
def lastPlace (m : ℕ) (e : ℤ) : ℤ := max (m.log2 + 1 + e - 53) (-1074)

/-- A significand that rounding has carried to the next power of two gets one place more. -/
def carry (s : Sign) (m : ℕ) (e : ℤ) : UnpackedFloat :=
  if h : m = 0 then .zero s
  else if m = 2 ^ 53 then .finite s (2 ^ 52) (e + 1) (by positivity)
  else .finite s m e (Nat.pos_of_ne_zero h)

theorem shiftToTargetExponent_eq (m : ℕ) (e : ℤ) :
    shiftToTargetExponent .binary64 m e .exact =
      (shifted m (lastPlace m e - e).toNat, e + (lastPlace m e - e).toNat) := by
  have target : Format.binary64.targetExponent (totalExponent m e) = lastPlace m e := rfl
  simp only [shiftToTargetExponent, shiftToExponent, ExtendedMantissa.ofMantissaAndAccuracy,
    target, shiftRight_eq]

theorem nearest_lastPlace_le (m : ℕ) (e : ℤ) :
    nearest m (lastPlace m e - e).toNat ≤ 2 ^ 53 := by
  have digits : m < 2 ^ (m.log2 + 1) := Nat.lt_log2_self
  have places : m.log2 + 1 ≤ 53 + (lastPlace m e - e).toNat := by
    unfold lastPlace
    omega
  have quotient : m / 2 ^ (lastPlace m e - e).toNat < 2 ^ 53 := by
    rw [Nat.div_lt_iff_lt_mul (by positivity), ← pow_add]
    exact digits.trans_le (Nat.pow_le_pow_right (by omega) places)
  exact (nearest_le _ _).trans quotient

/-- The second shift only undoes a carry. -/
theorem carry_eq (s : Sign) {m : ℕ} {e : ℤ} (digits : m ≤ 2 ^ 53) (lowest : -1074 ≤ e) :
    carry s m e =
      if h : m / 2 ^ (lastPlace m e - e).toNat = 0 then .zero s
      else .finite s (m / 2 ^ (lastPlace m e - e).toNat) (e + (lastPlace m e - e).toNat)
        (Nat.pos_of_ne_zero h) := by
  by_cases top : m = 2 ^ 53
  · subst top
    have shift : (lastPlace (2 ^ 53) e - e).toNat = 1 := by
      rw [lastPlace, Nat.log2_two_pow]
      omega
    simp only [shift, carry]
    norm_num
  · have few : m.log2 < 53 := by
      rcases Nat.eq_zero_or_pos m with rfl | pos
      · norm_num
      · exact (Nat.log2_lt pos.ne').2 (lt_of_le_of_ne digits top)
    have shift : (lastPlace m e - e).toNat = 0 := by
      unfold lastPlace
      omega
    simp only [shift, pow_zero, Nat.div_one, Nat.cast_zero, add_zero, carry, if_neg top]

/-- Rounding keeps 53 digits, or as many as there are above the last place of all. -/
theorem roundWithAccuracy_eq (s : Sign) (m : ℕ) {e : ℤ} (h : e ≤ lastPlace m e) :
    roundWithAccuracy .binary64 s m e .exact =
      carry s (nearest m (lastPlace m e - e).toNat) (lastPlace m e) := by
  have shift : e + (lastPlace m e - e).toNat = lastPlace m e := by omega
  have lowest : -1074 ≤ lastPlace m e := le_max_right _ _
  rw [carry_eq s (nearest_lastPlace_le m e) lowest]
  simp only [roundWithAccuracy, shiftToTargetExponent_eq, roundedMantissa_shifted, shift]
  rfl

theorem log2_mul_two_pow {m : ℕ} (h : m ≠ 0) (k : ℕ) : (m * 2 ^ k).log2 = m.log2 + k := by
  rw [Nat.log2_eq_iff (by positivity), pow_add, add_right_comm, pow_add]
  obtain ⟨low, high⟩ := (Nat.log2_eq_iff h).1 rfl
  exact ⟨Nat.mul_le_mul_right _ low, Nat.mul_lt_mul_of_pos_right high (by positivity)⟩

/-- How many of the lowest places of a count get lost. -/
def lost (n : ℕ) : ℕ := n.log2 + 1 - 53

/-- The result of rounding a count of the smallest steps. -/
def rounded (s : Sign) (n : ℕ) : UnpackedFloat := carry s (nearest n (lost n)) (lost n - 1074)

/-- Rounding looks at the number alone, whatever exponent it is written with. -/
theorem round_eq (s : Sign) {m : ℕ} {e : ℤ} (hm : m ≠ 0) (lowest : -1074 ≤ e) :
    UnpackedFloat.round .binary64 s m e = rounded s (m * 2 ^ (e + 1074).toNat) := by
  have target : Format.binary64.targetExponent (totalExponent m e) = lastPlace m e := rfl
  have places : (lost (m * 2 ^ (e + 1074).toNat) : ℤ) = lastPlace m e + 1074 := by
    rw [lost, log2_mul_two_pow hm]
    unfold lastPlace
    omega
  simp only [UnpackedFloat.round, decreaseExponent, target, Nat.shiftLeft_eq]
  rcases le_total e (lastPlace m e) with up | down
  · -- the exponent is below the last place, so nothing is lowered
    have stay : (e - lastPlace m e).toNat = 0 := by omega
    rw [stay, pow_zero, mul_one, Nat.cast_zero, sub_zero, roundWithAccuracy_eq s m up, rounded,
      places, add_sub_cancel_right]
    have split : lost (m * 2 ^ (e + 1074).toNat) =
        (lastPlace m e - e).toNat + (e + 1074).toNat := by omega
    rw [split, nearest_mul_add]
  · have lower : e - (e - lastPlace m e).toNat = lastPlace m e := by omega
    have same : lastPlace (m * 2 ^ (e - lastPlace m e).toNat) (lastPlace m e) = lastPlace m e := by
      conv_lhs => unfold lastPlace
      rw [log2_mul_two_pow hm]
      unfold lastPlace at *
      omega
    have left : (e - lastPlace m e).toNat = (e + 1074).toNat - lost (m * 2 ^ (e + 1074).toNat) := by
      omega
    rw [lower, roundWithAccuracy_eq s _ same.ge, same, sub_self, Int.toNat_zero, rounded, places,
      add_sub_cancel_right, nearest_mul m (Nat.zero_le _), nearest_mul m (by omega), Nat.sub_zero,
      left]

/-! ## Packing -/

/-- The numbers that fit into 64 bits, apart from their sign. -/
structure Fits (m : ℕ) (e : ℤ) : Prop where
  digits : m < 2 ^ 53
  lowest : -1074 ≤ e
  leading : 2 ^ 52 ≤ m ∨ e = -1074
  highest : e ≤ 971

/-- The form of a floating-point number. -/
abbrev form (a : Float) : UnpackedFloat := a.toModel.unpack

/-- The floating-point number of a form. -/
abbrev ofForm (u : UnpackedFloat) : Float := ⟨Float.Model.pack u⟩

theorem ofForm_form (a : Float) : ofForm (form a) = a := by
  rw [← Float.toBits_inj, ← UInt64.toBitVec_inj]
  exact pack_unpack_of_valid a.toModel.valid

/-- Packing and unpacking. -/
def repacked (u : UnpackedFloat) : UnpackedFloat := form (ofForm u)

theorem toNat_one_append (v : BitVec 52) : (1#1 ++ v).toNat = 2 ^ 52 + v.toNat := by
  rw [BitVec.toNat_append, ← Nat.shiftLeft_add_eq_or_of_lt v.isLt, Nat.shiftLeft_eq]
  rfl

theorem form_finite {a : Float} {s : Sign} {m : ℕ} {e : ℤ} {pos : 0 < m}
    (h : form a = .finite s m e pos) : Fits m e := by
  have bias : ((Format.binary64.exponentBias : ℕ) : ℤ) = 1023 := rfl
  change UnpackedFloat.unpack .binary64 _ = _ at h
  generalize hb : a.toModel.toBits.toBitVec = bits at h
  have mantissa : (@unpackMantissa .binary64 bits).toNat < 2 ^ 52 := BitVec.isLt _
  have exponent : (@unpackExponent .binary64 bits).toNat < 2 ^ 11 := BitVec.isLt _
  unfold UnpackedFloat.unpack at h
  dsimp only at h
  split at h
  · split at h <;> cases h
  · rename_i bounded
    have top : (@unpackExponent .binary64 bits).toNat ≠ 2047 := fun all =>
      bounded (BitVec.eq_of_toNat_eq (by rw [all]; rfl))
    split at h
    · rename_i lowest
      split at h
      · cases h
      · cases h
        have zero : (@unpackExponent .binary64 bits).toNat = 0 := by rw [lowest]; rfl
        refine ⟨by omega, ?_, .inr ?_, ?_⟩ <;> rw [zero, bias] <;> norm_num
    · rename_i raised
      have bottom : (@unpackExponent .binary64 bits).toNat ≠ 0 := fun all =>
        raised (BitVec.eq_of_toNat_eq (by rw [all]; rfl))
      cases h
      refine ⟨?_, ?_, .inl ?_, ?_⟩
      · rw [toNat_one_append]
        omega
      · rw [bias]
        omega
      · rw [toNat_one_append]
        omega
      · rw [bias]
        omega

theorem unpack_normal (s : Sign) {E : BitVec 11} (M : BitVec 52) (bounded : E ≠ -1#11)
    (raised : E ≠ 0#11) :
    UnpackedFloat.unpack .binary64 (packComponents .binary64 s E M) =
      .finite s (2 ^ 52 + M.toNat) (E.toNat - 1075) (by positivity) := by
  have bias : ((Format.binary64.exponentBias : ℕ) : ℤ) = 1023 := rfl
  simp only [UnpackedFloat.unpack, unpackMantissa_packComponents, unpackExponent_packComponents,
    unpackSign_packComponents, Sign.ofBitVec_toBitVec, bias]
  rw [if_neg bounded, if_neg raised]
  simp only [toNat_one_append]
  norm_num

theorem unpack_subnormal (s : Sign) {M : BitVec 52} (pos : 0 < M.toNat) :
    UnpackedFloat.unpack .binary64 (packComponents .binary64 s 0#11 M) =
      .finite s M.toNat (-1074) pos := by
  have bias : ((Format.binary64.exponentBias : ℕ) : ℤ) = 1023 := rfl
  have nonzero : M ≠ 0#52 := fun zero => by simp [zero] at pos
  simp only [UnpackedFloat.unpack, unpackMantissa_packComponents, unpackExponent_packComponents,
    unpackSign_packComponents, Sign.ofBitVec_toBitVec, bias]
  rw [if_neg (by decide), if_pos trivial, dif_neg nonzero]
  rfl

/-- What fits survives packing. -/
theorem repacked_finite {s : Sign} {m : ℕ} {e : ℤ} (pos : 0 < m) (fits : Fits m e) :
    repacked (.finite s m e pos) = .finite s m e pos := by
  have bias : ((Format.binary64.exponentBias : ℕ) : ℤ) = 1023 := rfl
  have width : ((Format.binary64.mantissaBitsWithoutImplicit : ℕ) : ℤ) = 52 := rfl
  have exponents : 2 ^ Format.binary64.exponentBits = 2048 := rfl
  have digits : Format.binary64.mantissaBits = 53 := rfl
  obtain ⟨short, lowest, leading, highest⟩ := fits
  change UnpackedFloat.unpack .binary64 (UnpackedFloat.pack .binary64 _) = _
  simp only [UnpackedFloat.pack, bias, width, exponents, digits]
  rw [if_neg (by omega)]
  by_cases normal : 2 ^ 52 ≤ m
  · have log : m.log2 = 52 := (Nat.log2_eq_iff pos.ne').2 ⟨normal, short⟩
    have stored : (BitVec.ofNat 11 (e + 1023 + 52).toNat).toNat = (e + 1075).toNat := by
      rw [BitVec.toNat_ofNat]
      omega
    have significand : (BitVec.ofNat 52 m).toNat = m - 2 ^ 52 := by
      rw [BitVec.toNat_ofNat]
      omega
    have whole : 2 ^ 52 + (m - 2 ^ 52) = m := Nat.add_sub_cancel' normal
    have back : ((e + 1075).toNat : ℤ) - 1075 = e := by omega
    rw [if_pos (by rw [log])]
    refine (unpack_normal s _ (fun all => ?_) fun all => ?_).trans ?_
    · rw [all] at stored
      have stored : 2047 = (e + 1075).toNat := stored
      omega
    · rw [all] at stored
      have stored : 0 = (e + 1075).toNat := stored
      omega
    · simp only [stored, significand, whole, back]
  · have subnormal : e = -1074 := by omega
    have log : m.log2 < 52 := (Nat.log2_lt pos.ne').2 (not_le.1 normal)
    have significand : (BitVec.ofNat 52 m).toNat = m := by
      rw [BitVec.toNat_ofNat]
      omega
    rw [if_neg (by omega)]
    have pos' : 0 < (BitVec.ofNat 52 m).toNat := by rwa [significand]
    refine (unpack_subnormal s pos').trans ?_
    simp only [significand, subnormal]

theorem repacked_overflow {s : Sign} {m : ℕ} {e : ℤ} (pos : 0 < m) (high : 971 < e) :
    repacked (.finite s m e pos) = .infinity s := by
  have bias : ((Format.binary64.exponentBias : ℕ) : ℤ) = 1023 := rfl
  have width : ((Format.binary64.mantissaBitsWithoutImplicit : ℕ) : ℤ) = 52 := rfl
  have exponents : 2 ^ Format.binary64.exponentBits = 2048 := rfl
  change UnpackedFloat.unpack .binary64 (UnpackedFloat.pack .binary64 _) = _
  simp only [UnpackedFloat.pack, bias, width, exponents]
  rw [if_pos (by omega)]
  cases s <;> rfl

theorem repacked_infinity (s : Sign) : repacked (.infinity s) = .infinity s := by cases s <;> rfl

theorem repacked_zero (s : Sign) : repacked (.zero s) = .zero s := by cases s <;> rfl

theorem repacked_notANumber : repacked .notANumber = .notANumber := rfl

/-! ## Places of rounded numbers -/

open Line

/-- The opposite position. -/
def mirror (p : Position) : Position :=
  toLex (-(ofLex p).1, toLex (-(ofLex (ofLex p).2).1, -(ofLex (ofLex p).2).2))

theorem position_le_iff {a b c a' b' c' : ℤ} :
    (toLex (a, toLex (b, c)) : Position) ≤ toLex (a', toLex (b', c')) ↔
      a < a' ∨ a = a' ∧ (b < b' ∨ b = b' ∧ c ≤ c') := by
  rw [Prod.Lex.toLex_le_toLex, Prod.Lex.toLex_le_toLex]

theorem mirror_le {p q : Position} (h : p ≤ q) : mirror q ≤ mirror p := by
  obtain ⟨a, b, c⟩ := p
  obtain ⟨a', b', c'⟩ := q
  have h := position_le_iff.1 h
  refine position_le_iff.2 ?_
  change -a' < -a ∨ -a' = -a ∧ (-b' < -b ∨ -b' = -b ∧ -c' ≤ -c)
  omega

/-- Where a significand and an exponent lie on the line. -/
def rung (m : ℕ) (e : ℤ) : Position :=
  if m = 0 then toLex (0, toLex (0, 0))
  else if 971 < e then toLex (2, toLex (0, 0))
  else toLex (1, toLex (e, (m : ℤ)))

/-- A significand of at most 53 digits, or the next power of two, without idle leading places. -/
structure Near (m : ℕ) (e : ℤ) : Prop where
  digits : m ≤ 2 ^ 53
  lowest : -1074 ≤ e
  leading : 2 ^ 52 ≤ m ∨ e = -1074

/-- Where such a number lies once it is carried. -/
def carriedRung (m : ℕ) (e : ℤ) : Position :=
  if m = 2 ^ 53 then rung (2 ^ 52) (e + 1) else rung m e

theorem carriedRung_le {m m' : ℕ} {e e' : ℤ} (near : Near m e) (near' : Near m' e')
    (h : e < e' ∨ e = e' ∧ m ≤ m') : carriedRung m e ≤ carriedRung m' e' := by
  obtain ⟨digits, lowest, leading⟩ := near
  obtain ⟨digits', lowest', leading'⟩ := near'
  unfold carriedRung rung
  split <;> split <;> repeat' split
  all_goals (refine position_le_iff.2 ?_; omega)

/-- The place of a carried number is that of its significand and exponent. -/
theorem place_carry {m : ℕ} {e : ℤ} (near : Near m e) :
    place (repacked (carry .positive m e)) = some (carriedRung m e) ∧
      place (repacked (carry .negative m e)) = some (mirror (carriedRung m e)) := by
  obtain ⟨digits, lowest, leading⟩ := near
  -- one step up or not, a number that fits keeps its place and any other is infinite
  have main : ∀ {k : ℕ} {f : ℤ} (pos : 0 < k), k < 2 ^ 53 → -1074 ≤ f → (2 ^ 52 ≤ k ∨ f = -1074) →
      place (repacked (.finite .positive k f pos)) = some (rung k f) ∧
        place (repacked (.finite .negative k f pos)) = some (mirror (rung k f)) := by
    intro k f pos short low lead
    unfold rung
    rw [if_neg pos.ne']
    by_cases high : 971 < f
    · rw [repacked_overflow pos high, repacked_overflow pos high, if_pos high]
      exact ⟨rfl, rfl⟩
    · have fits : Fits k f := ⟨short, low, lead, not_lt.1 high⟩
      rw [repacked_finite pos fits, repacked_finite pos fits, if_neg high]
      exact ⟨rfl, rfl⟩
  unfold carry carriedRung
  by_cases zero : m = 0
  · rw [dif_pos zero, dif_pos zero, zero, if_neg (by norm_num), rung, if_pos rfl]
    exact ⟨rfl, rfl⟩
  · rw [dif_neg zero, dif_neg zero]
    by_cases top : m = 2 ^ 53
    · rw [if_pos top, if_pos top, if_pos top]
      exact main (by positivity) (by norm_num) (by omega) (.inl le_rfl)
    · rw [if_neg top, if_neg top, if_neg top]
      exact main (Nat.pos_of_ne_zero zero) (lt_of_le_of_ne digits top) lowest leading

theorem near_nearest (n : ℕ) : Near (nearest n (lost n)) (lost n - 1074) := by
  refine ⟨?_, by omega, ?_⟩
  · have digits : n < 2 ^ (n.log2 + 1) := Nat.lt_log2_self
    have quotient : n / 2 ^ lost n < 2 ^ 53 := by
      rw [Nat.div_lt_iff_lt_mul (by positivity), ← pow_add]
      exact digits.trans_le (Nat.pow_le_pow_right (by omega) (by unfold lost; omega))
    exact (nearest_le _ _).trans quotient
  · by_cases small : n.log2 + 1 ≤ 53
    · right
      unfold lost
      omega
    · left
      have nonzero : n ≠ 0 := fun zero => by simp [zero] at small
      refine le_trans ?_ (div_le_nearest _ _)
      rw [Nat.le_div_iff_mul_le (by positivity), ← pow_add]
      have exponent : 52 + lost n = n.log2 := by
        unfold lost
        omega
      rw [exponent]
      exact Nat.log2_self_le nonzero

/-- Where a count of smallest steps lies once it is rounded. -/
def roundedRung (n : ℕ) : Position := carriedRung (nearest n (lost n)) (lost n - 1074)

theorem lost_mono {n n' : ℕ} (h : n ≤ n') : lost n ≤ lost n' := by
  have logs : n.log2 ≤ n'.log2 := by
    rcases Nat.eq_zero_or_pos n with rfl | pos
    · simp
    · exact (Nat.le_log2 (by omega)).2 ((Nat.log2_self_le pos.ne').trans h)
  unfold lost
  omega

/-- Rounding keeps the order. -/
theorem roundedRung_mono {n n' : ℕ} (h : n ≤ n') : roundedRung n ≤ roundedRung n' := by
  refine carriedRung_le (near_nearest n) (near_nearest n') ?_
  rcases (lost_mono h).lt_or_eq with below | same
  · left
    omega
  · right
    rw [same]
    exact ⟨rfl, nearest_mono h _⟩

/-! ## Differences -/

/-- Number of smallest steps, with sign. -/
def steps : UnpackedFloat → ℤ
  | .finite s m e _ => s.apply (m * 2 ^ (e + 1074).toNat : ℕ)
  | _ => 0

/-- Where a number of smallest steps lies once it is rounded. -/
def roundedPlace : ℤ → Position
  | .ofNat n => roundedRung n
  | .negSucc n => mirror (roundedRung (n + 1))

theorem roundedPlace_natCast (n : ℕ) : roundedPlace n = roundedRung n := rfl

theorem roundedRung_zero : roundedRung 0 = toLex (0, toLex (0, 0)) := by
  simp [roundedRung, carriedRung, rung, nearest, lost]

theorem roundedPlace_neg (n : ℕ) : roundedPlace (-n) = mirror (roundedRung n) := by
  cases n with
  | zero =>
    change roundedRung 0 = _
    rw [roundedRung_zero]
    rfl
  | succ n => rfl

theorem roundedPlace_mono {z z' : ℤ} (h : z ≤ z') : roundedPlace z ≤ roundedPlace z' := by
  have zero : mirror (roundedRung 0) = roundedRung 0 := by rw [roundedRung_zero]; rfl
  cases z with
  | ofNat n =>
    cases z' with
    | ofNat n' => exact roundedRung_mono (Int.ofNat_le.1 h)
    | negSucc n' =>
      have nonneg : 0 ≤ Int.negSucc n' := (Int.natCast_nonneg n).trans h
      exact absurd nonneg (not_le.2 (Int.negSucc_lt_zero n'))
  | negSucc n =>
    cases z' with
    | ofNat n' =>
      calc mirror (roundedRung (n + 1)) ≤ mirror (roundedRung 0) :=
          mirror_le (roundedRung_mono (Nat.zero_le _))
        _ = roundedRung 0 := zero
        _ ≤ roundedRung n' := roundedRung_mono (Nat.zero_le _)
    | negSucc n' => exact mirror_le (roundedRung_mono (by omega))

/-- A number that fits is where rounding leaves it. -/
theorem roundedRung_of_fits {m : ℕ} {e : ℤ} (pos : 0 < m) (fits : Fits m e) :
    roundedRung (m * 2 ^ (e + 1074).toNat) = toLex (1, toLex (e, (m : ℤ))) := by
  obtain ⟨short, lowest, leading, highest⟩ := fits
  have log : m.log2 < 53 := (Nat.log2_lt pos.ne').2 short
  have leading : m.log2 = 52 ∨ e = -1074 := by
    refine leading.imp_left fun h => ?_
    exact (Nat.log2_eq_iff pos.ne').2 ⟨h, short⟩
  have all : lost (m * 2 ^ (e + 1074).toNat) = (e + 1074).toNat := by
    rw [lost, log2_mul_two_pow pos.ne']
    omega
  have place : ((e + 1074).toNat : ℤ) - 1074 = e := by omega
  rw [roundedRung, all, nearest_mul m le_rfl, Nat.sub_self, pow_zero, mul_one, place, carriedRung,
    if_neg short.ne, rung, if_neg pos.ne', if_neg (not_lt.2 highest)]

theorem place_of_fits (s : Sign) {m : ℕ} {e : ℤ} (pos : 0 < m) (fits : Fits m e) :
    place (.finite s m e pos) = some (roundedPlace (steps (.finite s m e pos))) := by
  have rung := roundedRung_of_fits pos fits
  cases s with
  | positive =>
    change _ = some (roundedRung _)
    rw [rung]
    rfl
  | negative =>
    change _ = some (roundedPlace (-_))
    rw [roundedPlace_neg, rung]
    rfl

theorem place_zero (s : Sign) : place (.zero s) = some (roundedPlace 0) := by
  change _ = some (roundedRung 0)
  rw [roundedRung_zero]
  rfl

/-- The number is neither infinite nor invalid. -/
def IsFinite (a : Float) : Prop := (form a).isFinite = true

/-- A finite number lies where its steps are. -/
theorem place_form {a : Float} (h : IsFinite a) :
    place (form a) = some (roundedPlace (steps (form a))) := by
  unfold IsFinite at h
  cases hf : form a with
  | notANumber => rw [hf] at h; cases h
  | infinity s => rw [hf] at h; cases h
  | zero s => exact place_zero s
  | finite s m e pos => exact place_of_fits s pos (form_finite hf)

/-- Rounding an exact sum or difference. -/
theorem place_normalize {z e : ℤ} (lowest : -1074 ≤ e) (s : Sign) :
    place (repacked (UnpackedFloat.normalize .binary64 z e s)) =
      some (roundedPlace (z * 2 ^ (e + 1074).toNat)) := by
  have rounds := fun n => place_carry (near_nearest n)
  rcases lt_trichotomy z 0 with negative | rfl | positive
  · obtain ⟨n, rfl⟩ : ∃ n : ℕ, z = -n := ⟨(-z).toNat, by omega⟩
    have steps : -(n : ℤ) * 2 ^ (e + 1074).toNat = -(n * 2 ^ (e + 1074).toNat : ℕ) := by
      push_cast
      ring
    have order : compare (-(n : ℤ)) 0 = .lt := compare_lt_iff_lt.2 negative
    rw [UnpackedFloat.normalize, order]
    dsimp only
    rw [neg_neg, Int.toNat_natCast, round_eq _ (by omega) lowest, steps, roundedPlace_neg]
    exact (rounds _).2
  · rw [zero_mul, UnpackedFloat.normalize]
    change place (repacked (.zero s)) = some (roundedRung 0)
    rw [repacked_zero, roundedRung_zero]
    rfl
  · obtain ⟨n, rfl⟩ : ∃ n : ℕ, z = n := ⟨z.toNat, by omega⟩
    have steps : (n : ℤ) * 2 ^ (e + 1074).toNat = (n * 2 ^ (e + 1074).toNat : ℕ) := by
      push_cast
      ring
    have order : compare (n : ℤ) 0 = .gt := compare_gt_iff_gt.2 positive
    rw [UnpackedFloat.normalize, order]
    dsimp only
    rw [Int.toNat_natCast, round_eq _ (by omega) lowest, steps, roundedPlace_natCast]
    exact (rounds _).1

theorem apply_natCast_mul (s : Sign) (m k : ℕ) :
    s.apply ((m * k : ℕ) : ℤ) = s.apply (m : ℤ) * k := by
  cases s
  · change -((m * k : ℕ) : ℤ) = -(m : ℤ) * k
    push_cast
    ring
  · change ((m * k : ℕ) : ℤ) = (m : ℤ) * k
    push_cast
    ring

theorem steps_neg (s : Sign) {m : ℕ} {e : ℤ} (pos : 0 < m) :
    steps (.finite (-s) m e pos) = -steps (.finite s m e pos) := by
  cases s
  · exact (neg_neg _).symm
  · rfl

/-- Two numbers written with the smaller of their exponents. -/
theorem steps_lowered (s : Sign) {m : ℕ} {e e' : ℤ} (pos : 0 < m) (lowest : -1074 ≤ e')
    (h : e' ≤ e) : steps (.finite s m e pos) =
      s.apply ((m <<< (e - e').toNat : ℕ) : ℤ) * 2 ^ (e' + 1074).toNat := by
  have split : (e + 1074).toNat = (e - e').toNat + (e' + 1074).toNat := by omega
  have lowered : m * 2 ^ (e + 1074).toNat = (m <<< (e - e').toNat) * 2 ^ (e' + 1074).toNat := by
    rw [split, pow_add, ← mul_assoc, Nat.shiftLeft_eq]
  rw [steps, lowered, apply_natCast_mul]
  push_cast
  rfl

/-- The difference of two finite numbers is the rounded difference of their steps. -/
theorem place_sub {a b : Float} (ha : IsFinite a) (hb : IsFinite b) :
    placeOf (a - b) = some (roundedPlace (steps (form a) - steps (form b))) := by
  change place (repacked (UnpackedFloat.sub .binary64 (form a) (form b))) = _
  unfold IsFinite at ha hb
  cases hfa : form a with
  | notANumber => rw [hfa] at ha; cases ha
  | infinity s => rw [hfa] at ha; cases ha
  | zero s =>
    cases hfb : form b with
    | notANumber => rw [hfb] at hb; cases hb
    | infinity t => rw [hfb] at hb; cases hb
    | zero t =>
      change _ = some (roundedPlace 0)
      rw [← place_zero .positive]
      cases s <;> cases t <;> rfl
    | finite t m e pos =>
      have fits := form_finite hfb
      change place (repacked (.finite (-t) m e pos)) = some (roundedPlace (0 - _))
      rw [repacked_finite pos fits, place_of_fits (-t) pos fits, steps_neg, zero_sub]
  | finite s m e pos =>
    have fits := form_finite hfa
    cases hfb : form b with
    | notANumber => rw [hfb] at hb; cases hb
    | infinity t => rw [hfb] at hb; cases hb
    | zero t =>
      change place (repacked (.finite s m e pos)) = some (roundedPlace (_ - 0))
      rw [repacked_finite pos fits, place_of_fits s pos fits, sub_zero]
    | finite t k f pos' =>
      have lowest : -1074 ≤ min e f := le_min fits.lowest (form_finite hfb).lowest
      rw [steps_lowered s pos lowest (min_le_left e f),
        steps_lowered t pos' lowest (min_le_right e f), ← sub_mul]
      exact place_normalize lowest .positive

/-! ## The order of differences -/

/-- The place of a number determines its steps. -/
theorem steps_eq_of_place {u v : UnpackedFloat} (h : place u = place v) : steps u = steps v := by
  rcases u with ⟨_ | _⟩ | _ | _ | ⟨_ | _, _, _, _⟩ <;>
    rcases v with ⟨_ | _⟩ | _ | _ | ⟨_ | _, _, _, _⟩ <;>
    simp_all [place, steps]

/-- The steps of finite numbers are ordered as the numbers are. -/
theorem steps_le {a b : Float} (ha : IsFinite a) (hb : IsFinite b) (h : a ≤ b) :
    steps (form a) ≤ steps (form b) := by
  obtain ⟨x, y, hx, hy, hxy⟩ := float_le_iff.1 h
  have hx : place (form a) = some x := hx
  have hy : place (form b) = some y := hy
  by_contra above
  have below := roundedPlace_mono (not_le.1 above).le
  rw [place_form ha] at hx
  rw [place_form hb] at hy
  rw [Option.some.inj hx, Option.some.inj hy] at below
  have same : place (form a) = place (form b) := by
    rw [place_form ha, place_form hb, hx, hy, le_antisymm hxy below]
  exact above (steps_eq_of_place same).le

theorem sub_le_sub_of_finite {a a' b b' : Float} (ha : IsFinite a) (ha' : IsFinite a')
    (hb : IsFinite b) (hb' : IsFinite b') (h : a' ≤ a) (k : b ≤ b') : a' - b' ≤ a - b := by
  refine float_le_iff.2 ⟨_, _, place_sub ha' hb', place_sub ha hb, roundedPlace_mono ?_⟩
  exact sub_le_sub (steps_le ha' ha h) (steps_le hb hb' k)

/-! ## Infinite differences -/

/-- The number is the infinity of the given sign. -/
def IsInfinity (s : Sign) (a : Float) : Prop := form a = .infinity s

theorem finite_or_infinity {a : Float} (h : Scalar.IsNumber a) :
    IsFinite a ∨ IsInfinity .positive a ∨ IsInfinity .negative a := by
  obtain ⟨x, hx⟩ := isNumber_iff.1 h
  have hx : place (form a) = some x := hx
  unfold IsFinite IsInfinity
  cases hf : form a with
  | notANumber => rw [hf] at hx; cases hx
  | infinity s => cases s <;> simp
  | zero s => exact .inl rfl
  | finite s m e pos => exact .inl rfl

/-- Every place lies between those of the infinities. -/
theorem place_bounds {u : UnpackedFloat} {x : Position} (h : place u = some x) :
    toLex (-2, toLex (0, 0)) ≤ x ∧ x ≤ toLex (2, toLex (0, 0)) := by
  rcases u with ⟨_ | _⟩ | _ | _ | ⟨_ | _, _, _, _⟩ <;> cases h <;>
    constructor <;> refine position_le_iff.2 ?_ <;> omega

theorem le_of_isInfinity_positive {a b : Float} (ha : Scalar.IsNumber a)
    (hb : IsInfinity .positive b) : a ≤ b := by
  obtain ⟨x, hx⟩ := isNumber_iff.1 ha
  refine float_le_iff.2 ⟨x, _, hx, congrArg place hb, (place_bounds hx).2⟩

theorem le_of_isInfinity_negative {a b : Float} (ha : IsInfinity .negative a)
    (hb : Scalar.IsNumber b) : a ≤ b := by
  obtain ⟨x, hx⟩ := isNumber_iff.1 hb
  refine float_le_iff.2 ⟨_, x, congrArg place ha, hx, (place_bounds hx).1⟩

theorem isInfinity_of_le {a b : Float} (ha : IsInfinity .positive a) (h : a ≤ b) :
    IsInfinity .positive b := by
  obtain ⟨x, y, hx, hy, hxy⟩ := float_le_iff.1 h
  obtain rfl : toLex (2, toLex (0, 0)) = x := Option.some.inj ((congrArg place ha).symm.trans hx)
  have hy : place (form b) = some y := hy
  unfold IsInfinity
  generalize form b = u at hy ⊢
  rcases u with ⟨_ | _⟩ | _ | _ | ⟨_ | _, _, _, _⟩ <;> cases hy
  case infinity.positive => rfl
  all_goals exact absurd (position_le_iff.1 hxy) (by omega)

theorem isInfinity_of_ge {a b : Float} (hb : IsInfinity .negative b) (h : a ≤ b) :
    IsInfinity .negative a := by
  obtain ⟨x, y, hx, hy, hxy⟩ := float_le_iff.1 h
  obtain rfl : toLex (-2, toLex (0, 0)) = y := Option.some.inj ((congrArg place hb).symm.trans hy)
  have hx : place (form a) = some x := hx
  unfold IsInfinity
  generalize form a = u at hx ⊢
  rcases u with ⟨_ | _⟩ | _ | _ | ⟨_ | _, _, _, _⟩ <;> cases hx
  case infinity.negative => rfl
  all_goals exact absurd (position_le_iff.1 hxy) (by omega)

theorem sub_infinity_left (s : Sign) (v : UnpackedFloat) :
    UnpackedFloat.sub .binary64 (.infinity s) v = .infinity s ∨
      UnpackedFloat.sub .binary64 (.infinity s) v = .notANumber := by
  rcases v with ⟨_ | _⟩ | _ | _ | _ <;> cases s <;> first | exact .inl rfl | exact .inr rfl

theorem sub_infinity_right (s : Sign) (u : UnpackedFloat) :
    UnpackedFloat.sub .binary64 u (.infinity (-s)) = .infinity s ∨
      UnpackedFloat.sub .binary64 u (.infinity (-s)) = .notANumber := by
  rcases u with ⟨_ | _⟩ | _ | _ | _ <;> cases s <;> first | exact .inl rfl | exact .inr rfl

/-- A difference with an infinity is infinite, unless it is invalid. -/
theorem sub_isInfinity {a b : Float} {s : Sign} (h : Scalar.IsNumber (a - b))
    (infinite : IsInfinity s a ∨ IsInfinity (-s) b) : IsInfinity s (a - b) := by
  have result : UnpackedFloat.sub .binary64 (form a) (form b) = .infinity s ∨
      UnpackedFloat.sub .binary64 (form a) (form b) = .notANumber := by
    rcases infinite with infinite | infinite
    · rw [infinite]
      exact sub_infinity_left s _
    · rw [infinite]
      exact sub_infinity_right s _
  obtain ⟨x, hx⟩ := isNumber_iff.1 h
  have hx : place (repacked (UnpackedFloat.sub .binary64 (form a) (form b))) = some x := hx
  change repacked (UnpackedFloat.sub .binary64 (form a) (form b)) = .infinity s
  rcases result with result | result <;> rw [result] at hx ⊢
  · exact repacked_infinity s
  · rw [repacked_notANumber] at hx
    cases hx

end Binary64

open Binary64 in
/-- Rounding keeps the order of differences. -/
instance : MonotoneDifference Float where
  sub_le_sub {a a' b b'} ha hb before after := by
    have highest : IsInfinity .positive a ∨ IsInfinity .negative b → a' - b' ≤ a - b :=
      fun infinite => le_of_isInfinity_positive after (sub_isInfinity before infinite)
    have lowest : IsInfinity .negative a' ∨ IsInfinity .positive b' → a' - b' ≤ a - b :=
      fun infinite => le_of_isInfinity_negative (sub_isInfinity after infinite) before
    rcases finite_or_infinity (OrderedScalar.isNumber_right ha) with fa | pa | na
    · rcases finite_or_infinity (OrderedScalar.isNumber_left ha) with fa' | pa' | na'
      · rcases finite_or_infinity (OrderedScalar.isNumber_left hb) with fb | pb | nb
        · rcases finite_or_infinity (OrderedScalar.isNumber_right hb) with fb' | pb' | nb'
          · exact sub_le_sub_of_finite fa fa' fb fb' ha hb
          · exact lowest (.inr pb')
          · exact highest (.inr (isInfinity_of_ge nb' hb))
        · exact lowest (.inr (isInfinity_of_le pb hb))
        · exact highest (.inr nb)
      · exact highest (.inl (isInfinity_of_le pa' ha))
      · exact lowest (.inl na')
    · exact highest (.inl pa)
    · exact lowest (.inl (isInfinity_of_ge na ha))

namespace Binary64

open Float.Model Line

theorem isNumber_iff_form {a : Float} : Scalar.IsNumber a ↔ form a ≠ .notANumber := by
  rw [isNumber_iff]
  change (∃ x, place (form a) = some x) ↔ _
  rcases form a with ⟨_ | _⟩ | _ | _ | ⟨_ | _, _, _, _⟩ <;> simp [place]

theorem form_sub (a b : Float) :
    form (a - b) = repacked (UnpackedFloat.sub .binary64 (form a) (form b)) := rfl

theorem sub_infinity_positive {u : UnpackedFloat} (finite : u.isFinite = true) :
    UnpackedFloat.sub .binary64 u (.infinity .positive) = .infinity .negative := by
  cases u with
  | notANumber => cases finite
  | infinity s => cases finite
  | zero s => rfl
  | finite s m e pos => rfl

theorem infinity_negative_sub {v : UnpackedFloat} (finite : v.isFinite = true) :
    UnpackedFloat.sub .binary64 (.infinity .negative) v = .infinity .negative := by
  cases v with
  | notANumber => cases finite
  | infinity s => cases finite
  | zero s => rfl
  | finite s m e pos => rfl

/-- Without a positive infinity on the left and a negative one on the right there is a difference.
-/
theorem isNumber_sub_of_low {a b : Float} (ha : IsFinite a ∨ IsInfinity .negative a)
    (hb : IsFinite b ∨ IsInfinity .positive b) : Scalar.IsNumber (a - b) := by
  have infinite : UnpackedFloat.sub .binary64 (form a) (form b) = .infinity .negative →
      Scalar.IsNumber (a - b) := fun result => by
    rw [isNumber_iff_form, form_sub, result, repacked_infinity]
    nofun
  rcases ha with fa | na
  · rcases hb with fb | pb
    · exact isNumber_iff.2 ⟨_, place_sub fa fb⟩
    · refine infinite ?_
      rw [pb]
      exact sub_infinity_positive fa
  · refine infinite ?_
    rw [na]
    rcases hb with fb | pb
    · exact infinity_negative_sub fb
    · rw [pb]
      rfl

end Binary64

open Binary64 in
/-- A capped difference has no positive infinity on the left and no negative one on the right. -/
instance : CappedDifference Float where
  isNumber_of_sub {a b} h := by
    rw [isNumber_iff_form, form_sub] at h
    refine ⟨isNumber_iff_form.2 fun invalid => h ?_, isNumber_iff_form.2 fun invalid => h ?_⟩
    · rw [invalid]
      exact repacked_notANumber
    · rw [invalid]
      cases form a <;> exact repacked_notANumber
  isNumber_sub {a a' b b' t} ha hb capped finite := by
    have difference := OrderedScalar.isNumber_left capped
    have bounded : ¬IsInfinity .positive (a - b) := fun infinite => by
      obtain ⟨x, y, hx, hy, hxy⟩ := Line.float_lt_iff.1 finite
      obtain rfl : _ = x :=
        Option.some.inj ((congrArg Line.place (isInfinity_of_le infinite capped)).symm.trans hx)
      exact absurd (place_bounds hy).2 (not_le.2 hxy)
    have left : IsFinite a' ∨ IsInfinity .negative a' := by
      rcases finite_or_infinity (OrderedScalar.isNumber_left ha) with fa' | pa' | na'
      · exact .inl fa'
      · have pa := isInfinity_of_le pa' ha
        exact absurd (sub_isInfinity difference (.inl pa)) bounded
      · exact .inr na'
    have right : IsFinite b' ∨ IsInfinity .positive b' := by
      rcases finite_or_infinity (OrderedScalar.isNumber_right hb) with fb' | pb' | nb'
      · exact .inl fb'
      · exact .inr pb'
      · have nb := isInfinity_of_ge nb' hb
        exact absurd (sub_isInfinity (s := .positive) difference (.inr nb)) bounded
    exact isNumber_sub_of_low left right

namespace Binary64

open Float.Model Float.Model.UnpackedFloat

/-- Only the two zeros equal zero. -/
theorem beq_zero_iff {a : Float} : (a == 0) = true ↔ ∃ s, form a = .zero s := by
  change (form a).beq (.zero .positive) = true ↔ _
  generalize form a = u
  rcases u with ⟨_ | _⟩ | _ | _ | ⟨_ | _, _, _, _⟩ <;>
    simp [UnpackedFloat.beq, UnpackedFloat.compare]

/-- Adding a zero changes no number but a zero. -/
theorem add_of_form_zero {a z : Float} {s : Sign} (hz : form z = .zero s)
    (ha : (a == 0) = false) : a + z = a := by
  have nonzero : ∀ t, form a ≠ .zero t := fun t ht => by
    rw [beq_zero_iff.2 ⟨t, ht⟩] at ha
    cases ha
  have sum : UnpackedFloat.add .binary64 (form a) (form z) = form a := by
    rw [hz]
    generalize form a = u at nonzero ⊢
    rcases u with _ | _ | t | _
    · rfl
    · rfl
    · exact absurd rfl (nonzero t)
    · rfl
  change ofForm (UnpackedFloat.add .binary64 (form a) (form z)) = a
  rw [sum, ofForm_form]

end Binary64

/-- The code of a number is its bits. -/
instance : CodedScalar Float where
  eq_of_code {a b} ha hb same := by
    have bits : (a + 0.0).toBits.toNat = (b + 0.0).toBits.toNat := same
    have ha' : a + 0.0 = a := Binary64.add_of_form_zero rfl ha
    have hb' : b + 0.0 = b := Binary64.add_of_form_zero rfl hb
    rw [ha', hb'] at bits
    exact Float.toBits_inj.1 (UInt64.toNat_inj.1 bits)
  one_ne_zero := by decide +kernel

end CertifiedPlanning
