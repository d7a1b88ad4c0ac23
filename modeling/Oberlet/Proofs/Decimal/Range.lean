import Mathlib.Algebra.Order.Field.Power
import Mathlib.Data.Nat.Log
import Mathlib.Data.Rat.Cast.Order
import Mathlib.Tactic.FieldSimp
import Mathlib.Tactic.Linarith
import Mathlib.Tactic.Positivity
import Mathlib.Tactic.Ring
import Oberlet.Decimal.Binary64

/-!
# The range of the real numbers

The bound `2 ^ 1024 - 2 ^ 970` is the middle between the greatest number, whose significand is odd,
and the next power of two; from there on rounding leads to infinity.
-/

namespace Oberlet

namespace Decimal

/-! ## Rounding a quotient -/

section

variable {num den k : ℕ}

theorem roundDiv_cases (num den : ℕ) :
    (roundDiv num den = num / den ∧
        (2 * (num % den) < den ∨ 2 * (num % den) = den ∧ num / den % 2 = 0)) ∨
      (roundDiv num den = num / den + 1 ∧
        (den < 2 * (num % den) ∨ 2 * (num % den) = den ∧ num / den % 2 = 1)) := by
  unfold roundDiv
  dsimp only
  simp only [beq_iff_eq]
  split_ifs <;> omega

/-- Half to even goes up from an odd number. -/
theorem lt_roundDiv_iff (hden : 0 < den) (hk : k % 2 = 1) :
    k < roundDiv num den ↔ (2 * k + 1) * den ≤ 2 * num := by
  have hnum := Nat.div_add_mod num den
  have hrest := Nat.mod_lt num hden
  have hcases := roundDiv_cases num den
  generalize num / den = quotient at *
  generalize num % den = rest at *
  generalize roundDiv num den = rounded at *
  have hmiddle : (2 * k + 1) * den = 2 * (den * k) + den := by ring
  rw [hmiddle]
  obtain hlt | rfl | hlt := Nat.lt_trichotomy quotient k
  · have := Nat.mul_le_mul_left den (Nat.succ_le_of_lt hlt)
    rw [Nat.succ_eq_add_one, Nat.mul_succ] at this
    omega
  · omega
  · have := Nat.mul_le_mul_left den (Nat.succ_le_of_lt hlt)
    rw [Nat.succ_eq_add_one, Nat.mul_succ] at this
    omega

theorem roundDiv_le (hden : 0 < den) (h : num ≤ k * den) : roundDiv num den ≤ k := by
  have hnum := Nat.div_add_mod num den
  have hcases := roundDiv_cases num den
  have hle : num / den ≤ k := Nat.div_le_of_le_mul (by rwa [Nat.mul_comm])
  obtain hlt | heq := Nat.lt_or_eq_of_le hle
  · omega
  · rw [heq, Nat.mul_comm den k] at hnum
    omega

theorem le_roundDiv (hden : 0 < den) (h : k * den ≤ num) : k ≤ roundDiv num den := by
  have hcases := roundDiv_cases num den
  have hle := (Nat.le_div_iff_mul_le hden).mpr h
  omega

end

end Decimal

namespace Binary64

open Decimal

/-! ## Quotients -/

/-- The least number that rounds to infinity. -/
def overflow : ℚ := 2 ^ 1024 - 2 ^ 970

section

variable {num den k : ℕ}

/-- The exponent of the greatest power of two that a quotient is not below. -/
def quotientLog2 (num den : ℕ) : ℤ :=
  let estimate : ℤ := (num.log2 : ℤ) - (den.log2 : ℤ)
  if (if 0 ≤ estimate then num < den * twoTo estimate.toNat
    else num * twoTo (-estimate).toNat < den) then estimate - 1 else estimate

/-- A quotient divided by a power of two, as a quotient. -/
def scaled (num den : ℕ) (q : ℤ) : ℕ × ℕ :=
  if 0 ≤ q then (num, den * twoTo q.toNat) else (num * twoTo (-q).toNat, den)

theorem scaled_pos (num : ℕ) (hden : 0 < den) (q : ℤ) : 0 < (scaled num den q).2 := by
  unfold scaled
  split
  · exact Nat.mul_pos hden (Nat.pow_pos (by decide))
  · exact hden

theorem cast_scaled (q : ℤ) :
    ((scaled num den q).1 : ℚ) / (scaled num den q).2 = (num : ℚ) / den / 2 ^ q := by
  have htwo (n : ℕ) : ((twoTo n : ℕ) : ℚ) = 2 ^ n := by
    change ((2 ^ n : ℕ) : ℚ) = 2 ^ n
    push_cast
    rfl
  unfold scaled
  split
  · rename_i hq
    obtain ⟨n, rfl⟩ := Int.eq_ofNat_of_zero_le hq
    simp [htwo, div_div]
  · rename_i hq
    obtain ⟨n, hn⟩ := Int.eq_ofNat_of_zero_le (show 0 ≤ -q by omega)
    obtain rfl : q = -n := by omega
    simp [htwo, mul_div_right_comm]

theorem scaled_lt_iff (hden : 0 < den) (q : ℤ) :
    (scaled num den q).1 < (scaled num den q).2 ↔ (num : ℚ) / den < 2 ^ q := by
  have hpos : (0 : ℚ) < (scaled num den q).2 := by exact_mod_cast scaled_pos num hden q
  rw [← div_lt_one (show (0 : ℚ) < 2 ^ q by positivity), ← cast_scaled, div_lt_one hpos,
    Nat.cast_lt]

theorem quotientLog2_eq (num den : ℕ) : quotientLog2 num den =
    if (scaled num den (num.log2 - den.log2)).1 < (scaled num den (num.log2 - den.log2)).2
    then (num.log2 : ℤ) - den.log2 - 1 else (num.log2 : ℤ) - den.log2 := by
  unfold quotientLog2 scaled
  dsimp only
  split <;> rfl

/-- The exponent is that of the leading digit. -/
theorem quotientLog2_bounds (hnum : 0 < num) (hden : 0 < den) :
    (2 : ℚ) ^ quotientLog2 num den ≤ (num : ℚ) / den ∧
      (num : ℚ) / den < 2 ^ (quotientLog2 num den + 1) := by
  have hden' : (0 : ℚ) < den := by exact_mod_cast hden
  have hnumLe : (2 : ℚ) ^ num.log2 ≤ num := by exact_mod_cast Nat.log2_self_le hnum.ne'
  have hnumLt : (num : ℚ) < 2 ^ (num.log2 + 1) := by exact_mod_cast Nat.lt_log2_self
  have hdenLe : (2 : ℚ) ^ den.log2 ≤ den := by exact_mod_cast Nat.log2_self_le hden.ne'
  have hdenLt : (den : ℚ) < 2 ^ (den.log2 + 1) := by exact_mod_cast Nat.lt_log2_self
  have hupper : (num : ℚ) / den < 2 ^ ((num.log2 : ℤ) - den.log2 + 1) := by
    rw [div_lt_iff₀ hden', show (num.log2 : ℤ) - den.log2 + 1 = (num.log2 + 1 : ℕ) - den.log2 by
      push_cast; ring, zpow_sub₀ two_ne_zero, zpow_natCast, zpow_natCast, div_mul_eq_mul_div,
      lt_div_iff₀ (by positivity)]
    exact mul_lt_mul hnumLt hdenLe (by positivity) (by positivity)
  have hlower : (2 : ℚ) ^ ((num.log2 : ℤ) - den.log2 - 1) ≤ (num : ℚ) / den := by
    rw [le_div_iff₀ hden', show (num.log2 : ℤ) - den.log2 - 1 = num.log2 - (den.log2 + 1 : ℕ) by
      push_cast; ring, zpow_sub₀ two_ne_zero, zpow_natCast, zpow_natCast, div_mul_eq_mul_div,
      div_le_iff₀ (by positivity)]
    exact mul_le_mul hnumLe hdenLt.le (by positivity) (by positivity)
  rw [quotientLog2_eq]
  split
  · rename_i hbelow
    rw [scaled_lt_iff hden] at hbelow
    exact ⟨hlower, by simpa using hbelow⟩
  · rename_i hbelow
    rw [scaled_lt_iff hden, not_lt] at hbelow
    exact ⟨hbelow, hupper⟩

/-- The exponent of the last binary place that a quotient is rounded to. -/
def lastPlace (num den : ℕ) : ℤ := max (quotientLog2 num den - 52) (-1074)

/-- A quotient as a multiple of its last place. -/
def roundedQuotient (num den : ℕ) : ℕ :=
  roundDiv (scaled num den (lastPlace num den)).1 (scaled num den (lastPlace num den)).2

theorem ofQuotient?_eq_none (num den : ℕ) : ofQuotient? num den = none ↔
    2047 * 2 ^ 52 ≤ (lastPlace num den + 1074).toNat * 2 ^ 52 + roundedQuotient num den := by
  have hrounded : roundedQuotient num den = if 0 ≤ lastPlace num den
      then roundDiv num (den * twoTo (lastPlace num den).toNat)
      else roundDiv (num * twoTo (-lastPlace num den).toNat) den := by
    unfold roundedQuotient scaled
    split <;> rfl
  rw [hrounded]
  change ite (_ < infinityBits) _ _ = none ↔ _
  rw [ite_eq_right_iff]
  simp only [reduceCtorEq, imp_false, not_lt]
  rfl

theorem roundedQuotient_le (hden : 0 < den) (h : (num : ℚ) / den / 2 ^ lastPlace num den ≤ k) :
    roundedQuotient num den ≤ k := by
  have hpos := scaled_pos num hden (lastPlace num den)
  refine roundDiv_le hpos ?_
  rw [← cast_scaled, div_le_iff₀ (by exact_mod_cast hpos)] at h
  exact_mod_cast h

theorem le_roundedQuotient (hden : 0 < den)
    (h : (k : ℚ) ≤ (num : ℚ) / den / 2 ^ lastPlace num den) : k ≤ roundedQuotient num den := by
  have hpos := scaled_pos num hden (lastPlace num den)
  refine le_roundDiv hpos ?_
  rw [← cast_scaled, le_div_iff₀ (by exact_mod_cast hpos)] at h
  exact_mod_cast h

theorem lt_roundedQuotient_iff (hden : 0 < den) (hk : k % 2 = 1) :
    k < roundedQuotient num den ↔
      (2 * k + 1 : ℚ) / 2 ≤ (num : ℚ) / den / 2 ^ lastPlace num den := by
  have hpos := scaled_pos num hden (lastPlace num den)
  have hpos' : (0 : ℚ) < (scaled num den (lastPlace num den)).2 := by exact_mod_cast hpos
  rw [roundedQuotient, lt_roundDiv_iff hpos hk, ← cast_scaled, div_le_div_iff₀ two_pos hpos',
    mul_comm (((scaled num den (lastPlace num den)).1 : ℕ) : ℚ)]
  exact_mod_cast Iff.rfl

/-- A quotient has no number exactly from the bound on. -/
theorem ofQuotient?_eq_none_iff (hnum : 0 < num) (hden : 0 < den) :
    ofQuotient? num den = none ↔ overflow ≤ (num : ℚ) / den := by
  obtain ⟨hlower, hupper⟩ := quotientLog2_bounds hnum hden
  have hplace : lastPlace num den = max (quotientLog2 num den - 52) (-1074) := rfl
  have hunit : (0 : ℚ) < 2 ^ lastPlace num den := by positivity
  have hthreshold : overflow = (2 ^ 54 - 1) * 2 ^ (970 : ℤ) := by
    rw [overflow, show (2 : ℚ) ^ 1024 = 2 ^ 54 * 2 ^ 970 from pow_add 2 54 970, sub_one_mul]
    rfl
  rw [ofQuotient?_eq_none]
  obtain hsmall | hlast | hlarge : quotientLog2 num den ≤ 1022 ∨ quotientLog2 num den = 1023 ∨
      1024 ≤ quotientLog2 num den := by omega
  · have hle : roundedQuotient num den ≤ 2 ^ 53 := by
      refine roundedQuotient_le hden ?_
      rw [div_le_iff₀ hunit]
      calc (num : ℚ) / den ≤ 2 ^ (quotientLog2 num den + 1) := hupper.le
        _ ≤ 2 ^ (53 + lastPlace num den) := zpow_le_zpow_right₀ one_le_two (by omega)
        _ = ((2 ^ 53 : ℕ) : ℚ) * 2 ^ lastPlace num den := by
          rw [zpow_add₀ two_ne_zero]
          norm_num
    have hbelow : (num : ℚ) / den < overflow := by
      calc (num : ℚ) / den < 2 ^ (quotientLog2 num den + 1) := hupper
        _ ≤ 2 ^ (53 + 970 : ℤ) := zpow_le_zpow_right₀ one_le_two (by omega)
        _ ≤ overflow := by
          rw [hthreshold, zpow_add₀ two_ne_zero]
          gcongr
          norm_num
    exact iff_of_false (by omega) (not_le.mpr hbelow)
  · have hlastPlace : lastPlace num den = 971 := by omega
    have hodd : (2 ^ 53 - 1) % 2 = 1 := by decide
    have hmiddle : overflow = (2 * (2 ^ 53 - 1 : ℕ) + 1 : ℚ) / 2 * 2 ^ lastPlace num den := by
      rw [hthreshold, hlastPlace, show (971 : ℤ) = 970 + 1 from rfl, zpow_add_one₀ two_ne_zero]
      generalize (2 : ℚ) ^ (970 : ℤ) = unit
      push_cast
      ring
    rw [hmiddle, ← le_div_iff₀ hunit, ← lt_roundedQuotient_iff hden hodd]
    omega
  · have hge : 2 ^ 52 ≤ roundedQuotient num den := by
      refine le_roundedQuotient hden ?_
      rw [le_div_iff₀ hunit]
      calc ((2 ^ 52 : ℕ) : ℚ) * 2 ^ lastPlace num den = 2 ^ (52 + lastPlace num den) := by
            rw [zpow_add₀ two_ne_zero]
            norm_num
        _ ≤ 2 ^ quotientLog2 num den := zpow_le_zpow_right₀ one_le_two (by omega)
        _ ≤ (num : ℚ) / den := hlower
    have habove : overflow ≤ (num : ℚ) / den := by
      calc overflow ≤ 2 ^ (54 + 970 : ℤ) := by
            rw [hthreshold, zpow_add₀ two_ne_zero]
            gcongr
            norm_num
        _ ≤ 2 ^ quotientLog2 num den := zpow_le_zpow_right₀ one_le_two (by omega)
        _ ≤ (num : ℚ) / den := hlower
    exact iff_of_true (by omega) habove

end

/-! ## Decimals -/

section

variable {m : ℕ} {e : ℤ}

theorem overflow_le : overflow ≤ 10 ^ (309 : ℤ) := by
  have hpowers : (2 : ℚ) ^ 1024 ≤ 10 ^ 309 := by
    rw [show (2 : ℚ) ^ 1024 = (2 ^ 256) ^ 4 from pow_mul 2 256 4,
      show (10 : ℚ) ^ 309 = (10 ^ 103) ^ 3 from pow_mul 10 103 3]
    norm_num
  exact (sub_le_self _ (by positivity)).trans hpowers

theorem one_lt_overflow : 1 < overflow := by
  rw [overflow, show (2 : ℚ) ^ 1024 = 2 ^ 970 * 2 ^ 54 from pow_add 2 970 54, ← mul_sub_one]
  exact one_lt_mul (one_le_pow₀ one_le_two) (by norm_num)

theorem digitCount_bounds (hm : m ≠ 0) :
    (10 : ℚ) ^ ((digitCount m : ℤ) - 1) ≤ m ∧ (m : ℚ) < 10 ^ (digitCount m : ℤ) := by
  have hcount : digitCount m = (Nat.toDigits 10 m).length := by simp [digitCount, hm]
  have hpos : 0 < digitCount m := hcount ▸ Nat.length_toDigits_pos
  constructor
  · obtain ⟨n, hn⟩ := Nat.exists_eq_add_one_of_ne_zero hpos.ne'
    have hle : 10 ^ n ≤ m := by
      obtain rfl | hn' := Nat.eq_zero_or_pos n
      · exact Nat.one_le_iff_ne_zero.mpr hm
      · refine not_lt.mp fun hlt => ?_
        have := (Nat.length_toDigits_le_iff (by decide) hn').mpr hlt
        omega
    rw [hn, Nat.cast_add_one, add_sub_cancel_right, zpow_natCast]
    exact_mod_cast hle
  · have hlt := (Nat.length_toDigits_le_iff (by decide) hpos).mp hcount.ge
    rw [zpow_natCast]
    exact_mod_cast hlt

theorem ofDecimal?_eq_none_iff : ofDecimal? m e = none ↔ overflow ≤ (m : ℚ) * 10 ^ e := by
  have htenPos (n : ℕ) : 0 < tenTo n := Nat.pow_pos (by decide)
  have hten (n : ℕ) : ((tenTo n : ℕ) : ℚ) = 10 ^ n := by
    change ((10 ^ n : ℕ) : ℚ) = 10 ^ n
    push_cast
    rfl
  have hpower : (0 : ℚ) < 10 ^ e := by positivity
  unfold ofDecimal?
  dsimp only
  obtain rfl | hm := eq_or_ne m 0
  · have := one_lt_overflow
    simp only [beq_self_eq_true, Bool.true_or, if_true, reduceCtorEq, Nat.cast_zero, zero_mul,
      false_iff, not_le]
    linarith
  · obtain ⟨hlower, hupper⟩ := digitCount_bounds hm
    simp only [beq_eq_false_iff_ne.mpr hm, Bool.false_or, decide_eq_true_eq]
    split
    · rename_i hsmall
      have hlt : (m : ℚ) * 10 ^ e < overflow := by
        calc (m : ℚ) * 10 ^ e < 10 ^ (digitCount m : ℤ) * 10 ^ e := by gcongr
          _ = 10 ^ ((digitCount m : ℤ) + e) := (zpow_add₀ (by norm_num) _ _).symm
          _ ≤ 10 ^ (0 : ℤ) := zpow_le_zpow_right₀ (by norm_num) (by omega)
          _ < overflow := one_lt_overflow
      simpa using hlt
    · split
      · rename_i hlarge
        have hle : overflow ≤ (m : ℚ) * 10 ^ e := by
          calc overflow ≤ 10 ^ (309 : ℤ) := overflow_le
            _ ≤ 10 ^ ((digitCount m : ℤ) - 1 + e) :=
              zpow_le_zpow_right₀ (by norm_num) (by omega)
            _ = 10 ^ ((digitCount m : ℤ) - 1) * 10 ^ e := zpow_add₀ (by norm_num) _ _
            _ ≤ (m : ℚ) * 10 ^ e := by gcongr
        simpa using hle
      · split
        · rename_i he
          obtain ⟨n, rfl⟩ := Int.eq_ofNat_of_zero_le he
          have hpos := Nat.mul_pos (Nat.pos_of_ne_zero hm) (htenPos n)
          rw [Int.toNat_natCast, ofQuotient?_eq_none_iff hpos one_pos]
          simp [hten]
        · rename_i he
          obtain ⟨n, hn⟩ := Int.eq_ofNat_of_zero_le (show 0 ≤ -e by omega)
          obtain rfl : e = -n := by omega
          rw [neg_neg, Int.toNat_natCast,
            ofQuotient?_eq_none_iff (Nat.pos_of_ne_zero hm) (htenPos n)]
          simp [hten, div_eq_mul_inv]

end

end Binary64

/-! ## Literals -/

namespace Decimal

/-- The number that the exponent of a real literal denotes, if there is one. -/
def exponentValue : List Char → ℤ
  | _ :: '-' :: digits => -(ofDigits digits : ℤ)
  | _ :: '+' :: digits => ofDigits digits
  | _ :: digits => ofDigits digits
  | [] => 0

/-- The number that a real literal denotes. -/
def realValue (text : List Char) : ℚ :=
  let whole := text.takeWhile Char.isDigit
  let behindPoint := (text.dropWhile Char.isDigit).drop 1
  let fraction := behindPoint.takeWhile Char.isDigit
  (ofDigits whole + ofDigits fraction / 10 ^ fraction.length) *
    10 ^ exponentValue (behindPoint.dropWhile Char.isDigit)

theorem ofDigits_append (front back : List Char) :
    ofDigits (front ++ back) = ofDigits front * 10 ^ back.length + ofDigits back := by
  have hfold (n : ℕ) : back.foldl (fun n c => 10 * n + (c.toNat - '0'.toNat)) n =
      n * 10 ^ back.length + ofDigits back := by
    unfold ofDigits
    induction back generalizing n with
    | nil => simp
    | cons c back ih =>
      rw [List.foldl_cons, ih, List.foldl_cons, ih (10 * 0 + _), List.length_cons]
      ring
  rw [ofDigits, List.foldl_append, hfold]
  rfl

end Decimal

/-- A literal has no number exactly from the bound on. -/
theorem Binary64.ofLiteral?_eq_none_iff {text : List Char} :
    ofLiteral? text = none ↔ overflow ≤ Decimal.realValue text := by
  have hof : ofLiteral? text = ofDecimal?
      (Decimal.ofDigits (text.takeWhile Char.isDigit ++
        ((text.dropWhile Char.isDigit).drop 1).takeWhile Char.isDigit))
      (Decimal.exponentValue (((text.dropWhile Char.isDigit).drop 1).dropWhile Char.isDigit) -
        (((text.dropWhile Char.isDigit).drop 1).takeWhile Char.isDigit).length) := by
    unfold ofLiteral? Decimal.exponentValue
    rfl
  rw [hof, ofDecimal?_eq_none_iff, Decimal.realValue, Decimal.ofDigits_append,
    zpow_sub₀ (by norm_num), zpow_natCast]
  push_cast
  rw [mul_div_assoc', mul_comm _ ((10 : ℚ) ^ Decimal.exponentValue _), mul_div_assoc, add_div,
    mul_div_cancel_right₀ _ (by positivity), mul_comm]

end Oberlet
