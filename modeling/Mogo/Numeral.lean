import Mogo.JsNumber

/-!
# Numerals and Doubles

What the reading of a number loses. A numeral stands for a rational, the double nearest to it
depends on that rational only, and the numeral a double is printed with reads back as the
double. Integers below `2 ^ 53` are doubles, so no two of them are read as one number; beyond
that bound neighbours collapse.

## Main results

* `binaryExponent_eq_log`, `decimalPoint_eq_log`: the two exponents are logarithms.
* `nearestDouble_congr`: equal fractions have one nearest double.
* `toDouble_mono`: rounding to a double keeps the order.
* `nearestDouble_of_close`: a rational close to a double is rounded to it.
* `shortestNumeral_reads`: the numeral found for a double reads back as it.
* `shortestNumeral_isSome`, `ofDecimal_ne_nan`: every double has one, so a decimal is read as a
  number.
* `ofFixed_injOn`, `ofFixed_isFinite`: integers below `2 ^ 53` are read without loss.
* `ofDecimal_isNumeral`: what is read is a number as it is printed, without trailing zeros.
-/

namespace Mogo

namespace JsNumber

/-! ### Exponents are logarithms -/

/-- The number of digits tells the size. -/
theorem length_decimal {m : ℕ} (h : m ≠ 0) : (decimal m).length = Nat.log 10 m + 1 := by
  have hle (k : ℕ) (hk : 0 < k) : (decimal m).length ≤ k ↔ m < 10 ^ k := by
    rw [decimal, Nat.toString_eq_repr, Nat.toList_repr]
    exact Nat.length_toDigits_le_iff (by omega) hk
  refine le_antisymm ((hle _ (by omega)).mpr (Nat.lt_pow_succ_log_self (by omega) m)) ?_
  by_contra hlt
  rcases Nat.eq_zero_or_pos (Nat.log 10 m) with h0 | hpos
  · have hne : 0 < (decimal m).length := by
      rw [decimal, Nat.toString_eq_repr, Nat.toList_repr]
      exact Nat.length_toDigits_pos
    omega
  · have hlog := (hle _ hpos).mp (by omega)
    exact absurd (Nat.pow_log_le_self 10 h) (by omega)

section DivPow

variable {b num den : ℕ}

/-- The value of a shifted fraction is that of the fraction, divided by the power. -/
theorem divPow_val (hb : b ≠ 0) (num den : ℕ) (e : ℤ) :
    ((divPow b num den e).1 : ℚ) / (divPow b num den e).2 = (num : ℚ) / den / (b : ℚ) ^ e := by
  have hb' : (b : ℚ) ≠ 0 := Nat.cast_ne_zero.mpr hb
  cases e with
  | ofNat k =>
      simp only [divPow, Int.ofNat_eq_natCast, zpow_natCast]
      push_cast
      rw [div_div]
  | negSucc k =>
      simp only [divPow, zpow_negSucc, div_inv_eq_mul]
      push_cast
      ring

/-- A shift by nothing leaves the fraction as it is. -/
theorem divPow_zero (b num den : ℕ) : divPow b num den 0 = (num, den) := by
  rw [show (0 : ℤ) = .ofNat 0 from rfl, divPow, pow_zero, Nat.mul_one]

/-- A shifted fraction is a fraction again: neither part of it is zero. -/
theorem divPow_ne_zero (hb : b ≠ 0) (hnum : num ≠ 0) (hden : den ≠ 0) (e : ℤ) :
    (divPow b num den e).1 ≠ 0 ∧ (divPow b num den e).2 ≠ 0 := by
  cases e with
  | ofNat k => exact ⟨hnum, Nat.mul_ne_zero hden (pow_ne_zero k hb)⟩
  | negSucc k => exact ⟨Nat.mul_ne_zero hnum (pow_ne_zero (k + 1) hb), hden⟩

/-- Expanding a fraction expands its shifts. -/
theorem divPow_mul (b num den g : ℕ) (e : ℤ) :
    divPow b (num * g) (den * g) e =
      ((divPow b num den e).1 * g, (divPow b num den e).2 * g) := by
  cases e with
  | ofNat k => simp only [divPow, Nat.mul_right_comm]
  | negSucc k => simp only [divPow, Nat.mul_right_comm]

/-- The difference of two logarithms, corrected by one comparison, is the logarithm of the
quotient. -/
theorem log_div (hb : 1 < b) (hnum : num ≠ 0) (hden : den ≠ 0) {e : ℤ}
    (he : e = (Nat.log b num : ℤ) - (Nat.log b den : ℤ)) :
    (if (divPow b num den e).1 < (divPow b num den e).2 then e - 1 else e) =
      Int.log b ((num : ℚ) / den) := by
  have hb0 : (0 : ℚ) < b := by exact_mod_cast (by omega : 0 < b)
  have hden0 : (0 : ℚ) < den := by exact_mod_cast Nat.pos_of_ne_zero hden
  have hq : (0 : ℚ) < num / den := by positivity
  have hsnd : (0 : ℚ) < (divPow b num den e).2 := by
    exact_mod_cast Nat.pos_of_ne_zero (divPow_ne_zero (by omega) hnum hden e).2
  have htest : (divPow b num den e).1 < (divPow b num den e).2 ↔
      Int.log b ((num : ℚ) / den) < e := by
    rw [← Int.lt_zpow_iff_log_lt hb hq, ← @Nat.cast_lt ℚ, ← div_lt_one hsnd,
      divPow_val (by omega), div_lt_one (zpow_pos hb0 e)]
  have hnumlo : (b : ℚ) ^ (Nat.log b num : ℤ) ≤ num := by
    rw [zpow_natCast]
    exact_mod_cast Nat.pow_log_le_self b hnum
  have hnumhi : (num : ℚ) < (b : ℚ) ^ ((Nat.log b num : ℤ) + 1) := by
    exact_mod_cast Nat.lt_pow_succ_log_self hb num
  have hdenlo : (b : ℚ) ^ (Nat.log b den : ℤ) ≤ den := by
    rw [zpow_natCast]
    exact_mod_cast Nat.pow_log_le_self b hden
  have hdenhi : (den : ℚ) < (b : ℚ) ^ ((Nat.log b den : ℤ) + 1) := by
    exact_mod_cast Nat.lt_pow_succ_log_self hb den
  have hlo : e - 1 ≤ Int.log b ((num : ℚ) / den) := by
    rw [← Int.zpow_le_iff_le_log hb hq, le_div_iff₀ hden0]
    calc (b : ℚ) ^ (e - 1) * den
        ≤ (b : ℚ) ^ (e - 1) * (b : ℚ) ^ ((Nat.log b den : ℤ) + 1) := by gcongr
      _ = (b : ℚ) ^ (Nat.log b num : ℤ) := by
          rw [← zpow_add₀ hb0.ne', he]
          congr 1
          omega
      _ ≤ num := hnumlo
  have hhi : Int.log b ((num : ℚ) / den) < e + 1 := by
    rw [← Int.lt_zpow_iff_log_lt hb hq, div_lt_iff₀ hden0]
    calc (num : ℚ) < (b : ℚ) ^ ((Nat.log b num : ℤ) + 1) := hnumhi
      _ = (b : ℚ) ^ (e + 1) * (b : ℚ) ^ (Nat.log b den : ℤ) := by
          rw [← zpow_add₀ hb0.ne', he]
          congr 1
          omega
      _ ≤ (b : ℚ) ^ (e + 1) * den := by gcongr
  split_ifs with hlt
  · have := htest.mp hlt
    omega
  · have := mt htest.mpr hlt
    omega

end DivPow

/-- The binary exponent of a fraction is the integer part of its binary logarithm. -/
theorem binaryExponent_eq_log {num den : ℕ} (hnum : num ≠ 0) (hden : den ≠ 0) :
    binaryExponent num den = Int.log 2 ((num : ℚ) / den) := by
  refine log_div (by omega) hnum hden ?_
  rw [Nat.log2_eq_log_two, Nat.log2_eq_log_two]

/-- The position of the decimal point is one more than the decimal logarithm. -/
theorem decimalPoint_eq_log {num den : ℕ} (hnum : num ≠ 0) (hden : den ≠ 0) :
    decimalPoint num den = Int.log 10 ((num : ℚ) / den) + 1 := by
  have he : ((decimal num).length : ℤ) - ((decimal den).length : ℤ) =
      (Nat.log 10 num : ℤ) - (Nat.log 10 den : ℤ) := by
    rw [length_decimal hnum, length_decimal hden]
    omega
  rw [← log_div (by omega) hnum hden he, decimalPoint]
  split_ifs <;> omega

/-! ### The nearest double -/

/-- Rounding depends on the value of a fraction: expanding the fraction makes no difference. -/
theorem roundHalfEven_mul (num den : ℕ) {g : ℕ} (hg : 0 < g) :
    roundHalfEven (num * g) (den * g) = roundHalfEven num den := by
  have h1 : 2 * (num % den * g) < den * g ↔ 2 * (num % den) < den := by
    rw [← Nat.mul_assoc, Nat.mul_lt_mul_right hg]
  have h2 : den * g < 2 * (num % den * g) ↔ den < 2 * (num % den) := by
    rw [← Nat.mul_assoc, Nat.mul_lt_mul_right hg]
  simp only [roundHalfEven, Nat.mul_div_mul_right _ _ hg, Nat.mul_mod_mul_right, h1, h2]

/-- An integer needs no rounding. -/
theorem roundHalfEven_one (k : ℕ) : roundHalfEven k 1 = k := by
  simp only [roundHalfEven, Nat.div_one, Nat.mod_one, Nat.mul_zero, Nat.zero_lt_one, if_true]

/-- **Rounding to integers keeps the order.** -/
theorem roundHalfEven_mono {a b c d : ℕ} (hb : 0 < b) (hd : 0 < d) (h : (a : ℚ) / b ≤ c / d) :
    roundHalfEven a b ≤ roundHalfEven c d := by
  have hcross : a * d ≤ c * b := by
    rw [div_le_div_iff₀ (by exact_mod_cast hb) (by exact_mod_cast hd)] at h
    exact_mod_cast h
  have hlo : c / d ≤ roundHalfEven c d := by
    simp only [roundHalfEven]
    split_ifs <;> omega
  have hhi : roundHalfEven a b ≤ a / b + 1 := by
    simp only [roundHalfEven]
    split_ifs <;> omega
  have hdiv : a / b ≤ c / d := by
    rw [Nat.le_div_iff_mul_le hd]
    refine Nat.le_of_mul_le_mul_right ?_ hb
    calc a / b * d * b = a / b * b * d := Nat.mul_right_comm _ _ _
      _ ≤ a * d := Nat.mul_le_mul_right d (Nat.div_mul_le_self a b)
      _ ≤ c * b := hcross
  rcases Nat.lt_or_eq_of_le hdiv with hlt | heq
  · omega
  -- Between the same two integers the remainders decide.
  have hrest : a % b * d ≤ c % d * b := by
    have ha := Nat.div_add_mod a b
    have hc := Nat.div_add_mod c d
    rw [← ha, ← hc, heq, Nat.add_mul, Nat.add_mul] at hcross
    have hcomm : b * (c / d) * d = d * (c / d) * b := by ring
    omega
  have hup (h2 : b ≤ 2 * (a % b)) : d ≤ 2 * (c % d) := by
    refine Nat.le_of_mul_le_mul_left ?_ hb
    calc b * d ≤ 2 * (a % b) * d := Nat.mul_le_mul_right d h2
      _ = 2 * (a % b * d) := Nat.mul_assoc _ _ _
      _ ≤ 2 * (c % d * b) := Nat.mul_le_mul_left 2 hrest
      _ = b * (2 * (c % d)) := by ring
  have hup' (h2 : b < 2 * (a % b)) : d < 2 * (c % d) := by
    refine Nat.lt_of_mul_lt_mul_left (a := b) ?_
    calc b * d < 2 * (a % b) * d := Nat.mul_lt_mul_of_pos_right h2 hd
      _ = 2 * (a % b * d) := Nat.mul_assoc _ _ _
      _ ≤ 2 * (c % d * b) := Nat.mul_le_mul_left 2 hrest
      _ = b * (2 * (c % d)) := by ring
  simp only [roundHalfEven, heq]
  split_ifs <;> omega

/-- A fraction within a half of an integer is rounded to it. -/
theorem roundHalfEven_eq {a b k : ℕ} (hb : 0 < b) (hlo : (k : ℚ) - 1 / 2 < a / b)
    (hhi : (a : ℚ) / b < k + 1 / 2) : roundHalfEven a b = k := by
  have hb' : (0 : ℚ) < b := by exact_mod_cast hb
  rw [lt_div_iff₀ hb'] at hlo
  rw [div_lt_iff₀ hb'] at hhi
  have hlo' : 2 * (k * b) < 2 * a + b := by
    have : (2 * (k * b) : ℚ) < 2 * a + b := by linarith
    exact_mod_cast this
  have hhi' : 2 * a < 2 * (k * b) + b := by
    have : (2 * a : ℚ) < 2 * (k * b) + b := by linarith
    exact_mod_cast this
  have hdiv := Nat.div_add_mod a b
  have hmod := Nat.mod_lt a hb
  have hle : a / b ≤ k := by
    by_contra hlt
    have hmul : b * (k + 1) ≤ b * (a / b) := Nat.mul_le_mul_left b (by omega)
    have hcomm : b * (k + 1) = k * b + b := by ring
    omega
  have hge : k ≤ a / b + 1 := by
    by_contra hlt
    have hmul : b * (a / b + 2) ≤ b * k := Nat.mul_le_mul_left b (by omega)
    have hcomm : b * (a / b + 2) = b * (a / b) + 2 * b := by ring
    have hcomm' : b * k = k * b := Nat.mul_comm b k
    omega
  rw [Nat.mul_comm k b] at hlo' hhi'
  rcases hle.eq_or_lt with heq | hlt
  · rw [← heq] at hhi'
    simp only [roundHalfEven]
    split_ifs <;> omega
  · obtain rfl : k = a / b + 1 := by omega
    rw [Nat.mul_add, Nat.mul_one] at hlo' hhi'
    simp only [roundHalfEven]
    split_ifs <;> omega

/-- The double nearest to a fraction depends on its value: expanding the fraction makes no
difference. -/
theorem nearestDouble_mul {num den g : ℕ} (hnum : num ≠ 0) (hden : den ≠ 0) (hg : g ≠ 0) :
    nearestDouble (num * g) (den * g) = nearestDouble num den := by
  have hg' : (g : ℚ) ≠ 0 := Nat.cast_ne_zero.mpr hg
  have he : binaryExponent (num * g) (den * g) = binaryExponent num den := by
    rw [binaryExponent_eq_log (Nat.mul_ne_zero hnum hg) (Nat.mul_ne_zero hden hg),
      binaryExponent_eq_log hnum hden]
    push_cast
    rw [mul_div_mul_right _ _ hg']
  simp only [nearestDouble, he, divPow_mul, roundHalfEven_mul _ _ (Nat.pos_of_ne_zero hg)]

/-- **Equal fractions have one nearest double.** -/
theorem nearestDouble_congr {a b c d : ℕ} (ha : a ≠ 0) (hb : b ≠ 0) (hc : c ≠ 0) (hd : d ≠ 0)
    (h : (a : ℚ) / b = c / d) : nearestDouble a b = nearestDouble c d := by
  have hcross : a * d = c * b := by
    rw [div_eq_div_iff (Nat.cast_ne_zero.mpr hb) (Nat.cast_ne_zero.mpr hd)] at h
    exact_mod_cast h
  calc nearestDouble a b = nearestDouble (a * d) (b * d) := (nearestDouble_mul ha hb hd).symm
    _ = nearestDouble (c * b) (d * b) := by rw [hcross, Nat.mul_comm b d]
    _ = nearestDouble c d := nearestDouble_mul hc hd hb

/-- An integer below `2 ^ 53` is a double. -/
theorem nearestDouble_nat {m : ℕ} (hm : m ≠ 0) (hlt : m < 2 ^ 53) :
    nearestDouble m 1 = (m * 2 ^ (52 - Nat.log 2 m), -((52 - Nat.log 2 m : ℕ) : ℤ)) := by
  have hlog : Nat.log 2 m < 53 := Nat.log_lt_of_lt_pow hm hlt
  have he : max (binaryExponent m 1 - 52) (-1074) = -((52 - Nat.log 2 m : ℕ) : ℤ) := by
    rw [binaryExponent_eq_log hm one_ne_zero, Nat.cast_one, div_one, Int.log_natCast]
    omega
  have hsmall : m * 2 ^ (52 - Nat.log 2 m) ≠ 2 ^ 53 := by
    refine ne_of_lt ?_
    calc m * 2 ^ (52 - Nat.log 2 m)
        < 2 ^ (Nat.log 2 m + 1) * 2 ^ (52 - Nat.log 2 m) := by
          gcongr
          exact Nat.lt_pow_succ_log_self (by omega) m
      _ = 2 ^ 53 := by
          rw [← pow_add]
          congr 1
          omega
  have hshift : divPow 2 m 1 (-((52 - Nat.log 2 m : ℕ) : ℤ)) =
      (m * 2 ^ (52 - Nat.log 2 m), 1) := by
    generalize 52 - Nat.log 2 m = j
    cases j with
    | zero => rw [Nat.cast_zero, neg_zero, divPow_zero, pow_zero, Nat.mul_one]
    | succ j => rfl
  simp only [nearestDouble, he, hshift, roundHalfEven_one, if_neg hsmall]

/-! ### Rounding to a double keeps the order -/

/-- The exponent of the doubles around a positive rational. -/
def ulpExponent (x : ℚ) : ℤ := max (Int.log 2 x - 52) (-1074)

section ToDouble

variable {x y : ℚ}

/-- The nearest double is found by rounding in units of the last place, and renormalised at a power
of two. -/
theorem nearestDouble_eq {num den : ℕ} (hnum : num ≠ 0) (hden : den ≠ 0) :
    ∃ a b : ℕ, 0 < b ∧ (a : ℚ) / b = (num : ℚ) / den / 2 ^ ulpExponent (num / den) ∧
      nearestDouble num den =
        if roundHalfEven a b = 2 ^ 53 then (2 ^ 52, ulpExponent (num / den) + 1)
        else (roundHalfEven a b, ulpExponent (num / den)) := by
  refine ⟨(divPow 2 num den (ulpExponent (num / den))).1,
    (divPow 2 num den (ulpExponent (num / den))).2,
    Nat.pos_of_ne_zero (divPow_ne_zero two_ne_zero hnum hden _).2, ?_, ?_⟩
  · rw [divPow_val two_ne_zero, Nat.cast_ofNat]
  · rw [nearestDouble, binaryExponent_eq_log hnum hden]
    rfl

/-- The magnitude of a double is its value. -/
theorem mkRat_divPow (m : ℕ) (e : ℤ) :
    mkRat (divPow 2 m 1 (-e)).1 (divPow 2 m 1 (-e)).2 = (m : ℚ) * 2 ^ e := by
  rw [Rat.mkRat_eq_div, Int.cast_natCast, divPow_val two_ne_zero, Nat.cast_one, div_one, zpow_neg,
    div_inv_eq_mul, Nat.cast_ofNat]

/-- The double nearest to a positive rational is a whole number of units of its last place. -/
theorem toDouble_of_pos (hx : 0 < x) :
    ∃ num den : ℕ, 0 < den ∧ (num : ℚ) / den = x / 2 ^ ulpExponent x ∧
      toDouble x = (roundHalfEven num den : ℚ) * 2 ^ ulpExponent x := by
  have hnum : x.num.natAbs ≠ 0 := Int.natAbs_ne_zero.mpr (Rat.num_pos.mpr hx).ne'
  have hval : (x.num.natAbs : ℚ) / x.den = x := by
    rw [Nat.cast_natAbs, abs_of_pos (Rat.num_pos.mpr hx), Rat.num_div_den]
  obtain ⟨a, b, hb, hquot, heq⟩ := nearestDouble_eq hnum x.den_nz
  rw [hval] at hquot heq
  refine ⟨a, b, hb, hquot, ?_⟩
  simp only [toDouble, mkRat_divPow, if_neg hx.not_gt, heq]
  split_ifs with hcarry
  · rw [hcarry, zpow_add_one₀ two_ne_zero]
    push_cast
    ring
  · rfl

/-- Integers below `2 ^ 53` are doubles. -/
theorem toDouble_natCast {m : ℕ} (hlt : m < 2 ^ 53) : toDouble m = m := by
  rcases eq_or_ne m 0 with rfl | hm
  · rfl
  · simp only [toDouble, Rat.num_natCast, Rat.den_natCast, Int.natAbs_natCast, mkRat_divPow,
      nearestDouble_nat hm hlt, if_neg (Nat.cast_nonneg m).not_gt]
    push_cast
    rw [zpow_neg, zpow_natCast, mul_assoc, mul_inv_cancel₀ (by positivity), mul_one]

/-- A positive rational has at most 53 binary digits before its last place. -/
theorem div_ulp_lt (x : ℚ) : x / 2 ^ ulpExponent x < 2 ^ 53 := by
  rw [div_lt_iff₀ (by positivity), ← zpow_natCast, ← zpow_add₀ two_ne_zero]
  refine (Int.lt_zpow_succ_log_self (b := 2) (by omega) x).trans_le ?_
  rw [Nat.cast_ofNat]
  refine zpow_le_zpow_right₀ one_le_two ?_
  have := le_max_left (Int.log 2 x - 52) (-1074)
  rw [← ulpExponent] at this
  omega

/-- It has no fewer, unless it is subnormal. -/
theorem le_div_ulp (hx : 0 < x) (hnormal : -1074 < ulpExponent x) :
    2 ^ 52 ≤ x / 2 ^ ulpExponent x := by
  rw [le_div_iff₀ (by positivity), ← zpow_natCast, ← zpow_add₀ two_ne_zero]
  have he : ((52 : ℕ) : ℤ) + ulpExponent x = Int.log 2 x := by
    rw [ulpExponent] at hnormal ⊢
    omega
  rw [he]
  exact_mod_cast Int.zpow_log_le_self (b := 2) (by omega) hx

/-- Rounding leaves 53 binary digits, or the power of two above them. -/
theorem roundHalfEven_le {a b : ℕ} (hb : 0 < b) (h : (a : ℚ) / b = x / 2 ^ ulpExponent x) :
    roundHalfEven a b ≤ 2 ^ 53 := by
  rw [← roundHalfEven_one (2 ^ 53)]
  refine roundHalfEven_mono hb one_pos ?_
  rw [h]
  push_cast
  rw [div_one]
  exact (div_ulp_lt x).le

/-- Rounding a normal rational leaves no fewer than 53 binary digits. -/
theorem le_roundHalfEven {a b : ℕ} (hb : 0 < b) (h : (a : ℚ) / b = x / 2 ^ ulpExponent x)
    (hx : 0 < x) (hnormal : -1074 < ulpExponent x) : 2 ^ 52 ≤ roundHalfEven a b := by
  rw [← roundHalfEven_one (2 ^ 52)]
  refine roundHalfEven_mono one_pos hb ?_
  rw [h]
  push_cast
  rw [div_one]
  exact le_div_ulp hx hnormal

/-- A larger rational has no smaller last place. -/
theorem ulpExponent_mono (hx : 0 < x) (h : x ≤ y) : ulpExponent x ≤ ulpExponent y :=
  max_le_max_right _ (Int.sub_le_sub_right (Int.log_mono_right hx h) 52)

/-- No double nearest to a positive rational is negative. -/
theorem toDouble_nonneg (hx : 0 ≤ x) : 0 ≤ toDouble x := by
  rcases hx.eq_or_lt with rfl | hx
  · exact le_of_eq rfl
  · obtain ⟨num, den, -, -, hval⟩ := toDouble_of_pos hx
    rw [hval]
    positivity

/-- **Rounding to a double keeps the order.** Two rationals with the same last place are rounded in
the same units. Else the power of two between them is a double, which neither passes. -/
theorem toDouble_mono (hx : 0 ≤ x) (h : x ≤ y) : toDouble x ≤ toDouble y := by
  rcases hx.eq_or_lt with rfl | hpos
  · exact toDouble_nonneg h
  obtain ⟨num, den, hden, hquot, hval⟩ := toDouble_of_pos hpos
  obtain ⟨num', den', hden', hquot', hval'⟩ := toDouble_of_pos (hpos.trans_le h)
  have hle := ulpExponent_mono hpos h
  rw [hval, hval']
  rcases hle.eq_or_lt with heq | hlt
  · have hround : roundHalfEven num den ≤ roundHalfEven num' den' := by
      refine roundHalfEven_mono hden hden' ?_
      rw [hquot, hquot', ← heq]
      gcongr
    rw [← heq]
    gcongr
  · have hupper := roundHalfEven_le hden hquot
    have hlower := le_roundHalfEven hden' hquot' (hpos.trans_le h)
      ((le_max_right _ _).trans_lt hlt)
    calc (roundHalfEven num den : ℚ) * 2 ^ ulpExponent x
        ≤ 2 ^ 53 * 2 ^ ulpExponent x := by
          gcongr
          exact_mod_cast hupper
      _ = 2 ^ 52 * 2 ^ (ulpExponent x + 1) := by
          rw [zpow_add_one₀ two_ne_zero]
          ring
      _ ≤ 2 ^ 52 * 2 ^ ulpExponent y := by
          gcongr
          · exact one_le_two
          · omega
      _ ≤ (roundHalfEven num' den' : ℚ) * 2 ^ ulpExponent y := by
          gcongr
          exact_mod_cast hlower

end ToDouble

/-! ### Rationals that are rounded to a double -/

/-- A significand and an exponent as rounding leaves them. -/
structure IsDouble (m : ℕ) (e : ℤ) : Prop where
  lt : m < 2 ^ 53
  exponent : -1074 ≤ e
  normal : 2 ^ 52 ≤ m ∨ e = -1074

/-- **What is rounded to** is a double: its significand has 53 digits at most, and no fewer unless
it is subnormal. -/
theorem nearestDouble_isDouble {num den : ℕ} (hnum : num ≠ 0) (hden : den ≠ 0) :
    IsDouble (nearestDouble num den).1 (nearestDouble num den).2 := by
  have hpos : (0 : ℚ) < num / den := by positivity
  have hexp : -1074 ≤ ulpExponent (num / den) := le_max_right _ _
  obtain ⟨a, b, hb, hquot, heq⟩ := nearestDouble_eq hnum hden
  have hupper := roundHalfEven_le hb hquot
  rw [heq]
  split_ifs with hcarry
  · exact ⟨by norm_num, by omega, Or.inl le_rfl⟩
  · refine ⟨by omega, hexp, ?_⟩
    rcases hexp.eq_or_lt with hsub | hnormal
    · exact Or.inr hsub.symm
    · exact Or.inl (le_roundHalfEven hb hquot hpos hnormal)

/-- A rational between two powers of two has the last place of the doubles between them. -/
theorem ulpExponent_eq {y : ℚ} {e : ℤ} (hy : 0 < y) (he : -1074 ≤ e) (hlt : y < 2 ^ 53 * 2 ^ e)
    (hle : 2 ^ 52 * 2 ^ e ≤ y ∨ e = -1074) : ulpExponent y = e := by
  have hlog : Int.log 2 y < 53 + e := by
    rw [← Int.lt_zpow_iff_log_lt one_lt_two hy, Nat.cast_ofNat, zpow_add₀ two_ne_zero]
    exact hlt
  rw [ulpExponent]
  rcases hle with hle | rfl
  · have hlog' : 52 + e ≤ Int.log 2 y := by
      rw [← Int.zpow_le_iff_le_log one_lt_two hy, Nat.cast_ofNat, zpow_add₀ two_ne_zero]
      exact hle
    omega
  · omega

/-- A rational within a half unit of the last place of a double, with the same last place, is
rounded to the double. -/
theorem nearestDouble_of_near {num den m : ℕ} {t : ℚ} {e : ℤ} (hnum : num ≠ 0) (hden : den ≠ 0)
    (hdouble : IsDouble m e) (ht : (num : ℚ) / den = t * 2 ^ e) (hplace : 2 ^ 52 ≤ t ∨ e = -1074)
    (hlo : (m : ℚ) - 1 / 2 < t) (hhi : t < m + 1 / 2) : nearestDouble num den = (m, e) := by
  have hpos : (0 : ℚ) < num / den := by positivity
  have hm53 : (m : ℚ) + 1 ≤ 2 ^ 53 := by exact_mod_cast hdouble.lt
  obtain ⟨a, b, hb, hquot, heq⟩ := nearestDouble_eq hnum hden
  rw [ht] at hpos hquot heq
  have hulp : ulpExponent (t * 2 ^ e) = e := by
    refine ulpExponent_eq hpos hdouble.exponent ?_ (hplace.imp_left fun h => ?_)
    · gcongr
      linarith
    · gcongr
  rw [hulp, mul_div_cancel_right₀ _ (by positivity)] at hquot
  have hround : roundHalfEven a b = m :=
    roundHalfEven_eq hb (by rw [hquot]; exact hlo) (by rw [hquot]; exact hhi)
  rw [heq, hround, hulp, if_neg (ne_of_lt hdouble.lt)]

/-- Just below a power of two the units are half as large: what is less than a quarter of the
larger unit away is rounded up to the power. -/
theorem nearestDouble_of_below {num den : ℕ} {t : ℚ} {e : ℤ} (hnum : num ≠ 0) (hden : den ≠ 0)
    (he : -1074 < e) (ht : (num : ℚ) / den = t * 2 ^ e) (hlo : 2 ^ 52 - 1 / 4 < t)
    (hhi : t < 2 ^ 52) : nearestDouble num den = (2 ^ 52, e) := by
  have hpos : (0 : ℚ) < num / den := by positivity
  obtain ⟨a, b, hb, hquot, heq⟩ := nearestDouble_eq hnum hden
  have hhalf : t * 2 ^ e = 2 * t * 2 ^ (e - 1) := by
    rw [zpow_sub_one₀ two_ne_zero]
    ring
  rw [ht, hhalf] at hpos hquot heq
  have hulp : ulpExponent (2 * t * 2 ^ (e - 1)) = e - 1 := by
    refine ulpExponent_eq hpos (by omega) ?_ (Or.inl ?_)
    · gcongr
      linarith
    · gcongr
      linarith
  rw [hulp, mul_div_cancel_right₀ _ (by positivity)] at hquot
  have hround : roundHalfEven a b = 2 ^ 53 := by
    refine roundHalfEven_eq hb ?_ ?_
    · rw [hquot]
      push_cast
      linarith
    · rw [hquot]
      push_cast
      linarith
  rw [heq, hround, hulp, if_pos rfl, sub_add_cancel]

/-- **A rational close to a double is rounded to it.** Closer than a half unit of the last place is
close enough, except just below a power of two, where the units are half as large. -/
theorem nearestDouble_of_close {num den m : ℕ} {e : ℤ} (hnum : num ≠ 0) (hden : den ≠ 0)
    (hdouble : IsDouble m e)
    (hclose : |(num : ℚ) / den - m * 2 ^ e| ≤ m * 2 ^ e / (2 * 10 ^ 16)) :
    nearestDouble num den = (m, e) := by
  have hunit : (0 : ℚ) < 2 ^ e := by positivity
  have hm53 : (m : ℚ) + 1 ≤ 2 ^ 53 := by exact_mod_cast hdouble.lt
  -- the rational in units of the last place of the double
  obtain ⟨t, ht⟩ : ∃ t : ℚ, (num : ℚ) / den = t * 2 ^ e := ⟨num / den / 2 ^ e, by field_simp⟩
  rw [ht, ← sub_mul, abs_mul, abs_of_pos hunit, mul_div_right_comm] at hclose
  obtain ⟨hlo, hhi⟩ := abs_le.mp (le_of_mul_le_mul_right hclose hunit)
  by_cases hplace : 2 ^ 52 ≤ t ∨ e = -1074
  · exact nearestDouble_of_near hnum hden hdouble ht hplace (by linarith) (by linarith)
  · rw [not_or, not_le] at hplace
    obtain ⟨hbelow, hsub⟩ := hplace
    have hnormal : 2 ^ 52 ≤ m := hdouble.normal.resolve_right hsub
    have hnormal' : (2 ^ 52 : ℚ) ≤ m := by exact_mod_cast hnormal
    obtain rfl : m = 2 ^ 52 := by
      refine le_antisymm (Nat.lt_add_one_iff.mp ?_) hnormal
      have : (m : ℚ) < 2 ^ 52 + 1 := by linarith
      exact_mod_cast this
    push_cast at hlo hhi
    have := hdouble.exponent
    exact nearestDouble_of_below hnum hden (by omega) ht (by linarith) hbelow

/-! ### The numeral of a double -/

/-- Cutting zeros off divides by a power of ten. -/
theorem stripZeros_spec (fuel : ℕ) {s : ℕ} (hs : s ≠ 0) :
    stripZeros fuel s ≠ 0 ∧ ∃ a, s = stripZeros fuel s * 10 ^ a := by
  induction fuel generalizing s with
  | zero => exact ⟨hs, 0, by rw [stripZeros, pow_zero, Nat.mul_one]⟩
  | succ fuel ih =>
      rw [stripZeros]
      split_ifs with h
      · obtain ⟨hne, a, ha⟩ := ih (s := s / 10) (by omega)
        refine ⟨hne, a + 1, ?_⟩
        rw [pow_succ, ← Nat.mul_assoc, ← ha]
        omega
      · exact ⟨hs, 0, by rw [pow_zero, Nat.mul_one]⟩

/-- Appending zeros lengthens a numeral. -/
theorem length_decimal_mul_pow {s : ℕ} (hs : s ≠ 0) (a : ℕ) :
    (decimal (s * 10 ^ a)).length = (decimal s).length + a := by
  rw [length_decimal (Nat.mul_ne_zero hs (pow_ne_zero a (by omega))), length_decimal hs]
  induction a with
  | zero => rw [pow_zero, Nat.mul_one, Nat.add_zero]
  | succ a ih =>
      rw [pow_succ, ← Nat.mul_assoc,
        Nat.log_mul_base (by omega) (Nat.mul_ne_zero hs (pow_ne_zero a (by omega)))]
      omega

/-- A fraction of the value of the numeral `s`, point at `n`, whose nearest double is
`m · 2 ^ e`. -/
def ReadsBack (s : ℕ) (n : ℤ) (m : ℕ) (e : ℤ) : Prop :=
  ∃ num den : ℕ, num ≠ 0 ∧ den ≠ 0 ∧
    (num : ℚ) / den = s * (10 : ℚ) ^ (n - (decimal s).length) ∧ nearestDouble num den = (m, e)

/-- A numeral reads back as one double only, whichever fraction of its value is taken. -/
theorem ReadsBack.unique {s : ℕ} {n : ℤ} {m m' : ℕ} {e e' : ℤ} (h : ReadsBack s n m e)
    (h' : ReadsBack s n m' e') : (m, e) = (m', e') := by
  obtain ⟨num, den, hnum, hden, hval, hread⟩ := h
  obtain ⟨num', den', hnum', hden', hval', hread'⟩ := h'
  rw [← hread, ← hread', nearestDouble_congr hnum hden hnum' hden' (hval.trans hval'.symm)]

/-- A numeral of a given length reads back as the double it was found for. -/
theorem numeralWithDigits_reads {m k s : ℕ} {e n : ℤ}
    (h : numeralWithDigits m e k = some (s, n)) : ReadsBack s n m e := by
  rw [numeralWithDigits, Option.map_eq_some_iff] at h
  obtain ⟨t, ht, hsn⟩ := h
  have hreads := List.find?_some ht
  rw [Bool.and_eq_true, decide_eq_true_eq, beq_iff_eq] at hreads
  obtain ⟨hs, hn⟩ := Prod.mk.inj hsn
  generalize decimalPoint (divPow 2 m 1 (-e)).1 (divPow 2 m 1 (-e)).2 = p at hreads hn
  obtain ⟨hne, a, ha⟩ := stripZeros_spec 20 hreads.1
  rw [hs] at hne ha
  have hlen : (decimal t).length = (decimal s).length + a := by
    rw [ha, length_decimal_mul_pow hne]
  obtain ⟨hy1, hy2⟩ := divPow_ne_zero (by omega : 10 ≠ 0) hreads.1 one_ne_zero (k - p)
  refine ⟨_, _, hy1, hy2, ?_, hreads.2⟩
  have hpoint : n - (decimal s).length = a + -((k : ℤ) - p) := by omega
  rw [divPow_val (by omega), hpoint, zpow_add₀ (by norm_num), zpow_neg, ha]
  push_cast
  rw [zpow_natCast, div_one]
  ring

/-- **The shortest numeral of a double reads back as it.** -/
theorem shortestNumeral_reads {m s : ℕ} {e n : ℤ} (h : shortestNumeral m e = some (s, n)) :
    ReadsBack s n m e := by
  obtain ⟨k, -, hk⟩ := List.exists_of_findSome?_eq_some h
  exact numeralWithDigits_reads hk

/-! ### Every double has a numeral -/

/-- One of the two integers around a fraction is within a half of it. -/
theorem exists_near (a : ℕ) {b : ℕ} (hb : 0 < b) :
    ∃ c ∈ (if 2 * (a % b) ≤ b then [a / b, a / b + 1] else [a / b + 1, a / b]),
      |(c : ℚ) - a / b| ≤ 1 / 2 := by
  have hb' : (0 : ℚ) < b := by exact_mod_cast hb
  have hval : (a : ℚ) / b = (a / b : ℕ) + (a % b : ℕ) / b := by
    have hsum : ((a / b : ℕ) : ℚ) * b + (a % b : ℕ) = a := by exact_mod_cast Nat.div_add_mod' a b
    rw [← hsum, add_div, mul_div_cancel_right₀ _ hb'.ne']
  split_ifs with hlow
  · refine ⟨a / b, List.mem_cons_self, ?_⟩
    have hrest : ((a % b : ℕ) : ℚ) / b ≤ 1 / 2 := by
      rw [div_le_div_iff₀ hb' two_pos]
      exact_mod_cast (by omega : a % b * 2 ≤ 1 * b)
    have hnonneg : (0 : ℚ) ≤ ((a % b : ℕ) : ℚ) / b := by positivity
    rw [hval, abs_le]
    exact ⟨by linarith, by linarith⟩
  · refine ⟨a / b + 1, List.mem_cons_self, ?_⟩
    have hmod := Nat.mod_lt a hb
    have hrest : (1 : ℚ) / 2 ≤ ((a % b : ℕ) : ℚ) / b := by
      rw [div_le_div_iff₀ two_pos hb']
      exact_mod_cast (by omega : 1 * b ≤ a % b * 2)
    have hone : ((a % b : ℕ) : ℚ) / b ≤ 1 := by
      rw [div_le_one hb']
      exact_mod_cast hmod.le
    rw [hval, abs_le]
    push_cast
    exact ⟨by linarith, by linarith⟩

/-- A number has seventeen digits before the seventeenth place. -/
theorem pow_le_div_pow {x : ℚ} {n : ℤ} (hx : 0 < x) (hn : n = Int.log 10 x + 1) :
    10 ^ 16 ≤ x / 10 ^ (n - 17) := by
  have hlog := Int.zpow_log_le_self (b := 10) (by norm_num) hx
  have hsum : ((16 : ℕ) : ℤ) + (n - 17) = Int.log 10 x := by omega
  rw [le_div_iff₀ (by positivity), ← zpow_natCast, ← zpow_add₀ (by norm_num), hsum]
  exact_mod_cast hlog

/-- **Seventeen digits always suffice**: the error of a half in the last of them is less than half a
unit in the last place of the double. -/
theorem numeralWithDigits_isSome {m : ℕ} {e : ℤ} (hm : m ≠ 0) (hdouble : IsDouble m e) :
    (numeralWithDigits m e 17).isSome := by
  obtain ⟨hx1, hx2⟩ := divPow_ne_zero two_ne_zero hm one_ne_zero (-e)
  have hx : ((divPow 2 m 1 (-e)).1 : ℚ) / (divPow 2 m 1 (-e)).2 = m * 2 ^ e := by
    rw [divPow_val two_ne_zero, Nat.cast_one, div_one, zpow_neg, div_inv_eq_mul, Nat.cast_ofNat]
  have hpos : (0 : ℚ) < m * 2 ^ e := by
    have : (0 : ℚ) < m := by exact_mod_cast Nat.pos_of_ne_zero hm
    positivity
  simp only [numeralWithDigits]
  have hn := decimalPoint_eq_log hx1 hx2
  rw [hx] at hn
  generalize decimalPoint (divPow 2 m 1 (-e)).1 (divPow 2 m 1 (-e)).2 = n at *
  obtain ⟨-, hf2⟩ := divPow_ne_zero (b := 10) (by norm_num) hx1 hx2 (n - 17)
  have hf := divPow_val (b := 10) (by norm_num) (divPow 2 m 1 (-e)).1 (divPow 2 m 1 (-e)).2 (n - 17)
  rw [hx, Nat.cast_ofNat] at hf
  obtain ⟨c, hc, hnear⟩ := exists_near (divPow 10 (divPow 2 m 1 (-e)).1 (divPow 2 m 1 (-e)).2
    (n - 17)).1 (Nat.pos_of_ne_zero hf2)
  rw [hf] at hnear
  have hunit : (0 : ℚ) < 10 ^ (n - 17) := by positivity
  have hlarge := pow_le_div_pow hpos hn
  obtain ⟨u, hu⟩ : ∃ u : ℚ, (m : ℚ) * 2 ^ e = u * 10 ^ (n - 17) :=
    ⟨m * 2 ^ e / 10 ^ (n - 17), by field_simp⟩
  rw [hu, mul_div_cancel_right₀ _ hunit.ne'] at hlarge
  rw [hu, mul_div_cancel_right₀ _ hunit.ne'] at hnear
  have hc0 : c ≠ 0 := by
    rintro rfl
    rw [abs_le] at hnear
    push_cast at hnear
    linarith
  obtain ⟨hy1, hy2⟩ := divPow_ne_zero (b := 10) (by norm_num) hc0 one_ne_zero (17 - n)
  have hy : ((divPow 10 c 1 (17 - n)).1 : ℚ) / (divPow 10 c 1 (17 - n)).2 = c * 10 ^ (n - 17) := by
    rw [divPow_val (by norm_num), Nat.cast_one, div_one, ← neg_sub n 17, zpow_neg, div_inv_eq_mul,
      Nat.cast_ofNat]
  have hreads := nearestDouble_of_close hy1 hy2 hdouble (by
    rw [hy, hu, ← sub_mul, abs_mul, abs_of_pos hunit, mul_div_right_comm]
    gcongr
    linarith)
  rw [Option.isSome_map, List.find?_isSome]
  refine ⟨c, hc, ?_⟩
  rw [Bool.and_eq_true, decide_eq_true_eq, beq_iff_eq]
  exact ⟨hc0, hreads⟩

/-- Every double has a numeral, one with seventeen digits if there is no shorter one. -/
theorem shortestNumeral_isSome {m : ℕ} {e : ℤ} (hm : m ≠ 0) (hdouble : IsDouble m e) :
    (shortestNumeral m e).isSome := by
  rw [shortestNumeral, List.findSome?_isSome_iff]
  exact ⟨17, by simp, numeralWithDigits_isSome hm hdouble⟩

/-- **A decimal is read as a number**, however long it is: no literal of digits is `NaN`. -/
theorem ofDecimal_ne_nan (neg : Bool) (m : ℕ) (e : ℤ) : ofDecimal neg m e ≠ nan := by
  simp only [ofDecimal]
  split_ifs with hzero hlarge hunder hover
  · simp
  · simp
  · simp
  · simp
  · obtain ⟨hx1, hx2⟩ := divPow_ne_zero (b := 10) (by norm_num) (not_or.mp hzero).1 one_ne_zero (-e)
    obtain ⟨r, hr⟩ := Option.isSome_iff_exists.mp
      (shortestNumeral_isSome hunder (nearestDouble_isDouble hx1 hx2))
    rw [hr]
    simp

/-! ### Integers are read without loss -/

/-- The number written as the decimal `i · 10 ^ (-scale)`. -/
def ofFixed (i : ℤ) (scale : ℕ) : JsNumber := ofDecimal (decide (i < 0)) i.natAbs (-scale)

/-- An integer below `2 ^ 53` is read as a number whose numeral reads back as the double of the
integer. -/
theorem ofFixed_eq {i : ℤ} (hi : i ≠ 0) (hlt : i.natAbs < 2 ^ 53) :
    ∃ s n, ofFixed i 0 = finite (decide (i < 0)) s n ∧
      ReadsBack s n (i.natAbs * 2 ^ (52 - Nat.log 2 i.natAbs))
        (-((52 - Nat.log 2 i.natAbs : ℕ) : ℤ)) := by
  have hm : i.natAbs ≠ 0 := Int.natAbs_ne_zero.mpr hi
  rw [ofFixed]
  generalize i.natAbs = m at hm hlt
  have hdouble := nearestDouble_isDouble hm one_ne_zero
  rw [nearestDouble_nat hm hlt] at hdouble
  have hne : m * 2 ^ (52 - Nat.log 2 m) ≠ 0 := Nat.mul_ne_zero hm (by positivity)
  obtain ⟨r, hr⟩ := Option.isSome_iff_exists.mp (shortestNumeral_isSome hne hdouble)
  refine ⟨r.1, r.2, ?_, shortestNumeral_reads hr⟩
  have hlen : (decimal m).length ≤ 17 := by
    rw [length_decimal hm]
    have := Nat.log_lt_of_lt_pow hm (show m < 10 ^ 17 by omega)
    omega
  have hx : divPow 10 m 1 (-(-((0 : ℕ) : ℤ))) = (m, 1) := rfl
  have hd := nearestDouble_nat hm hlt
  have hsmall : ¬ (0 ≤ -((52 - Nat.log 2 m : ℕ) : ℤ) ∧
      2 ^ 1024 ≤ m * 2 ^ (52 - Nat.log 2 m) * 2 ^ (-((52 - Nat.log 2 m : ℕ) : ℤ)).toNat) := by
    rintro ⟨h0, hle⟩
    have hj : 52 - Nat.log 2 m = 0 := by omega
    rw [hj] at hle
    simp only [Nat.cast_zero, neg_zero, Int.toNat_zero, pow_zero, Nat.mul_one] at hle
    exact absurd ((Nat.pow_le_pow_right (by omega) (by omega)).trans hle) (Nat.not_le.mpr hlt)
  rw [ofDecimal]
  simp only [hx, hd, hne, hsmall, hm, hr, if_false, false_or]
  rw [if_neg (by omega), if_neg (by omega)]

/-- An integer below `2 ^ 53` is read as a finite number. -/
theorem ofFixed_isFinite {i : ℤ} (hlt : i.natAbs < 2 ^ 53) : (ofFixed i 0).isFinite = true := by
  rcases eq_or_ne i 0 with rfl | hi
  · rfl
  · obtain ⟨s, n, h, -⟩ := ofFixed_eq hi hlt
    rw [h, isFinite]

/-- The sameness of `Map` and `Set`: the sign of zero makes no difference. -/
def SameValueZero : JsNumber → JsNumber → Prop
  | zero _, zero _ => True
  | m, n => m = n

/-- Every number is the same as itself, `NaN` too. -/
theorem SameValueZero.refl (m : JsNumber) : SameValueZero m m := by
  cases m <;> simp [SameValueZero]

/-- Same numbers are equal, unless they are zeros. -/
theorem SameValueZero.cases {m n : JsNumber} (h : SameValueZero m n) :
    m = n ∨ (∃ neg, m = zero neg) ∧ ∃ neg, n = zero neg := by
  match m, n with
  | zero neg, zero neg' => exact Or.inr ⟨⟨neg, rfl⟩, neg', rfl⟩
  | zero _, nan | zero _, infinity _ | zero _, finite _ _ _ => exact Or.inl h
  | nan, _ | infinity _, _ | finite _ _ _, _ => exact Or.inl h

/-- Of the integers below `2 ^ 53` only zero is read as zero. -/
theorem ofFixed_eq_zero {i : ℤ} (hlt : i.natAbs < 2 ^ 53) {neg : Bool}
    (h : ofFixed i 0 = zero neg) : i = 0 := by
  by_contra hi
  obtain ⟨s, n, hs, -⟩ := ofFixed_eq hi hlt
  rw [hs] at h
  exact absurd h (by simp)

/-- **No two integers below `2 ^ 53` are read as one number.** -/
theorem ofFixed_injOn {i j : ℤ} (hi : i.natAbs < 2 ^ 53) (hj : j.natAbs < 2 ^ 53)
    (h : SameValueZero (ofFixed i 0) (ofFixed j 0)) : i = j := by
  rcases h.cases with h | ⟨⟨neg, hz⟩, neg', hz'⟩
  · rcases eq_or_ne i 0 with rfl | hi0
    · exact (ofFixed_eq_zero hj h.symm).symm
    · rcases eq_or_ne j 0 with rfl | hj0
      · exact ofFixed_eq_zero hi h
      · obtain ⟨s, n, hs, hr⟩ := ofFixed_eq hi0 hi
        obtain ⟨s', n', hs', hr'⟩ := ofFixed_eq hj0 hj
        rw [hs, hs'] at h
        obtain ⟨hsign, rfl, rfl⟩ := finite.inj h
        obtain ⟨hm, he⟩ := Prod.mk.inj (hr.unique hr')
        have hshift : 52 - Nat.log 2 i.natAbs = 52 - Nat.log 2 j.natAbs := by omega
        rw [hshift] at hm
        have habs := Nat.eq_of_mul_eq_mul_right (by positivity) hm
        rw [decide_eq_decide] at hsign
        omega
  · rw [ofFixed_eq_zero hi hz, ofFixed_eq_zero hj hz']

/-- Beyond the bound neighbours collapse. -/
theorem ofFixed_collapse : ofFixed (2 ^ 53) 0 = ofFixed (2 ^ 53 + 1) 0 := by decide +kernel

/-! ### Every number read is printed by a numeral -/

/-- The digits of a printed number do not end in zero. -/
def IsNumeral : JsNumber → Prop
  | finite _ s _ => s % 10 ≠ 0
  | _ => True

/-- With budget enough, all zeros are cut off. -/
theorem stripZeros_mod (fuel : ℕ) {s : ℕ} (hs : s ≠ 0) (hlt : s < 10 ^ fuel) :
    stripZeros fuel s % 10 ≠ 0 := by
  induction fuel generalizing s with
  | zero => exact absurd hlt (by rw [pow_zero]; omega)
  | succ fuel ih =>
      rw [stripZeros]
      split_ifs with h
      · exact ih (by omega) (by rw [pow_succ] at hlt; omega)
      · omega

/-- The numeral found for a double does not end in zero. -/
theorem numeralWithDigits_mod {m k s : ℕ} {e n : ℤ} (hm : m ≠ 0) (hk : k ≤ 17)
    (h : numeralWithDigits m e k = some (s, n)) : s % 10 ≠ 0 := by
  rw [numeralWithDigits, Option.map_eq_some_iff] at h
  obtain ⟨t, ht, hsn⟩ := h
  have hreads := List.find?_some ht
  rw [Bool.and_eq_true, decide_eq_true_eq] at hreads
  obtain ⟨hs, -⟩ := Prod.mk.inj hsn
  obtain ⟨hx1, hx2⟩ := divPow_ne_zero (by omega : 2 ≠ 0) hm one_ne_zero (-e)
  have hmem := List.mem_of_find?_eq_some ht
  have hpoint := decimalPoint_eq_log hx1 hx2
  generalize (divPow 2 m 1 (-e)).1 = num at *
  generalize (divPow 2 m 1 (-e)).2 = den at *
  generalize decimalPoint num den = p at *
  have hf2 := (divPow_ne_zero (by omega : 10 ≠ 0) hx1 hx2 (p - k)).2
  have hval := divPow_val (by omega : 10 ≠ 0) num den (p - k)
  generalize divPow 10 num den (p - k) = f at *
  have hlo : f.1 / f.2 < 10 ^ k := by
    rw [Nat.div_lt_iff_lt_mul (Nat.pos_of_ne_zero hf2), ← @Nat.cast_lt ℚ]
    have hf2' : (0 : ℚ) < f.2 := by exact_mod_cast Nat.pos_of_ne_zero hf2
    have hq := Int.lt_zpow_succ_log_self (by omega : 1 < 10) ((num : ℚ) / den)
    rw [← hpoint] at hq
    push_cast at hq hval ⊢
    rw [← div_lt_iff₀ hf2', hval, div_lt_iff₀ (by positivity), ← zpow_natCast,
      ← zpow_add₀ (by norm_num)]
    rwa [show (k : ℤ) + (p - k) = p by omega]
  have htle : t ≤ 10 ^ k := by
    split_ifs at hmem <;> simp only [List.mem_cons, List.not_mem_nil, or_false] at hmem <;> omega
  have hpow : (10 : ℕ) ^ k ≤ 10 ^ 17 := Nat.pow_le_pow_right (by omega) hk
  rw [← hs]
  exact stripZeros_mod 20 hreads.1 (by omega)

/-- **A number that is read has a numeral of its own.** -/
theorem ofDecimal_isNumeral (neg : Bool) (m : ℕ) (e : ℤ) : (ofDecimal neg m e).IsNumeral := by
  rw [ofDecimal]
  dsimp only
  split_ifs with h1 h2 h3 h4
  · trivial
  · trivial
  · trivial
  · trivial
  · split
    next s n hsn =>
      obtain ⟨k, hk, hkn⟩ := List.exists_of_findSome?_eq_some hsn
      exact numeralWithDigits_mod h3 (by rw [List.mem_range'_1] at hk; omega) hkn
    next => trivial

end JsNumber

end Mogo
