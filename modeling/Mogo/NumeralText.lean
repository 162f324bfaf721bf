import Mogo.Numeral

/-!
# The Text of a Number

`String` prints a number in one of four layouts: as an integer, with a point between or before
its digits, or with an exponent. Each of them reads as the value of the numeral, so the text
tells numbers apart; only the two zeros are printed alike.

## Main results

* `decimalLiteral_printDigits`: a printed numeral reads as its value.
* `toJsString_injOn`: numbers that are printed alike are the same but for the sign of zero.
-/

namespace Mogo

namespace JsNumber

/-! ### Reading digits -/

/-- Reading digits from the left adds them to the value that was read before them. -/
theorem foldl_digitValue {l : List Char} (hl : ∀ c ∈ l, c.isDigit = true) (init : ℕ) :
    l.foldl (fun acc c => do pure ((← acc) * 10 + (← digitValue? 10 c))) (some init) =
      some (Nat.ofDigitChars 10 l init) := by
  induction l generalizing init with
  | nil => rw [List.foldl_nil, Nat.ofDigitChars_nil]
  | cons c l ih =>
      have hc := hl c List.mem_cons_self
      have hv : digitValue? 10 c = some (c.toNat - '0'.toNat) := by
        have hrange : '0' ≤ c ∧ c ≤ '9' := by
          rwa [Char.isDigit, Bool.and_eq_true, decide_eq_true_eq, decide_eq_true_eq] at hc
        have hlt : c.toNat - '0'.toNat < 10 := by
          have h9 : c.toNat ≤ 57 := hrange.2
          exact (by omega : c.toNat - 48 < 10)
        rw [digitValue?, if_pos hrange, Option.filter_some, if_pos (by simpa using hlt)]
      rw [List.foldl_cons, Nat.ofDigitChars_cons, ← ih fun c hc => hl c (List.mem_cons_of_mem _ hc),
        hv, Nat.mul_comm]
      rfl

/-- A text of digits has a value, the number its digits stand for. -/
theorem digitsValue?_eq {l : List Char} (hl : ∀ c ∈ l, c.isDigit = true) (hne : l ≠ []) :
    digitsValue? 10 l = some (Nat.ofDigitChars 10 l 0) := by
  rw [digitsValue?, if_neg (by rwa [List.isEmpty_iff]), foldl_digitValue hl]

/-- The characters of a decimal numeral are digits. -/
theorem isDigit_of_mem_decimal {s : ℕ} {c : Char} (h : c ∈ decimal s) : c.isDigit = true := by
  rw [decimal, Nat.toString_eq_repr, Nat.toList_repr] at h
  exact Nat.isDigit_of_mem_toDigits (by omega) (by omega) h

/-- The digits of a numeral give the number back. -/
theorem ofDigitChars_decimal (s : ℕ) : Nat.ofDigitChars 10 (decimal s) 0 = s := by
  rw [decimal, Nat.toString_eq_repr, Nat.toList_repr, Nat.ofDigitChars_ten_toDigits]

/-- A decimal numeral has at least one digit, that of zero too. -/
theorem decimal_ne_nil (s : ℕ) : decimal s ≠ [] := by
  rw [decimal, Nat.toString_eq_repr, Nat.toList_repr]
  exact Nat.toDigits_ne_nil

section Literals

variable {ds ws fs tail : List Char} {e : ℤ}

/-- What may follow the digits of a literal: nothing, or the letter of an exponent. -/
def IsTail (tail : List Char) : Prop := tail = [] ∨ ∃ r, tail = 'e' :: r

/-- The tail of a numeral does not begin with a digit. -/
theorem IsTail.takeWhile (h : IsTail tail) : tail.takeWhile Char.isDigit = [] := by
  rcases h with rfl | ⟨r, rfl⟩ <;> rfl

/-- Skipping digits leaves the tail of a numeral as it is. -/
theorem IsTail.dropWhile (h : IsTail tail) : tail.dropWhile Char.isDigit = tail := by
  rcases h with rfl | ⟨r, rfl⟩ <;> rfl

/-- A literal without a point stands for its digits and the exponent behind them. -/
theorem decimalLiteral_whole (hds : ∀ c ∈ ds, c.isDigit = true) (hne : ds ≠ [])
    (htail : IsTail tail) (he : exponentPart tail = some e) :
    decimalLiteral (ds ++ tail) = some (Nat.ofDigitChars 10 ds 0, e) := by
  have hval := digitsValue?_eq hds hne
  rcases htail with rfl | ⟨r, rfl⟩
  · have htake : ds.takeWhile Char.isDigit = ds := List.takeWhile_eq_self_iff.mpr hds
    have hdrop : ds.dropWhile Char.isDigit = [] := List.dropWhile_eq_nil_iff.mpr hds
    simp [decimalLiteral, htake, hdrop, hval, he]
  · simp [decimalLiteral, List.takeWhile_append_of_pos hds, List.dropWhile_append_of_pos hds, hval,
      he]

/-- A literal with a point stands for all its digits, the exponent less by those behind the
point. -/
theorem decimalLiteral_point (hws : ∀ c ∈ ws, c.isDigit = true)
    (hfs : ∀ c ∈ fs, c.isDigit = true) (hne : ws ≠ []) (htail : IsTail tail)
    (he : exponentPart tail = some e) :
    decimalLiteral (ws ++ '.' :: (fs ++ tail)) =
      some (Nat.ofDigitChars 10 (ws ++ fs) 0, e - fs.length) := by
  have hdot : ('.' :: (fs ++ tail)).takeWhile Char.isDigit = [] := rfl
  have hdot' : ('.' :: (fs ++ tail)).dropWhile Char.isDigit = '.' :: (fs ++ tail) := rfl
  have hall : ∀ c ∈ ws ++ fs, c.isDigit = true := by
    intro c hc
    exact (List.mem_append.mp hc).elim (hws c) (hfs c)
  have hval := digitsValue?_eq hall fun h => hne (List.append_eq_nil_iff.mp h).1
  rw [decimalLiteral]
  simp only [List.takeWhile_append_of_pos hws, List.dropWhile_append_of_pos hws, hdot, hdot',
    List.takeWhile_append_of_pos hfs, List.dropWhile_append_of_pos hfs, htail.takeWhile,
    htail.dropWhile, List.append_nil, hval, he]

/-- The exponent of a printed number, which always has a sign, is read as it was printed. -/
theorem exponentPart_print (k : ℤ) :
    exponentPart ('e' :: (if k < 0 then '-' else '+') :: decimal k.natAbs) = some k := by
  have hval : digitsValue? 10 (decimal k.natAbs) = some k.natAbs := by
    rw [digitsValue?_eq (fun c => isDigit_of_mem_decimal) (decimal_ne_nil _), ofDigitChars_decimal]
  split_ifs with hk
  · rw [exponentPart, hval]
    exact congrArg some (by omega : -(k.natAbs : ℤ) = k)
  · rw [exponentPart, hval]
    exact congrArg some (by omega : (k.natAbs : ℤ) = k)

/-- A run of zeros is a run of digits. -/
theorem isDigit_of_mem_replicate {k : ℕ} : ∀ c ∈ List.replicate k '0', c.isDigit = true := by
  intro c hc
  rw [List.eq_of_mem_replicate hc]
  rfl

/-- The digits before a point are not none. -/
theorem take_ne_nil (hne : ds ≠ []) {k : ℕ} (hk : 0 < k) : ds.take k ≠ [] := by
  rw [Ne, List.take_eq_nil_iff]
  rintro (h0 | h0)
  · omega
  · exact hne h0

/-- Zeros behind the digits of a literal multiply its value by ten each. -/
theorem decimalLiteral_zeros (hds : ∀ c ∈ ds, c.isDigit = true) (hne : ds ≠ []) (z : ℕ) :
    decimalLiteral (ds ++ List.replicate z '0') =
      some (Nat.ofDigitChars 10 ds 0 * 10 ^ z, 0) := by
  rw [← List.append_nil (ds ++ List.replicate z '0'),
    decimalLiteral_whole
      (fun c hc => (List.mem_append.mp hc).elim (hds c) (isDigit_of_mem_replicate c))
      (by simp [hne]) (Or.inl rfl) rfl, Nat.ofDigitChars_append, Nat.ofDigitChars_replicate_zero,
    Nat.mul_comm]

/-- Digits with a point between them, and perhaps an exponent. -/
theorem decimalLiteral_split (hds : ∀ c ∈ ds, c.isDigit = true) (hne : ds ≠ []) {k : ℕ}
    (hk : 0 < k) (htail : IsTail tail) (he : exponentPart tail = some e) :
    decimalLiteral (ds.take k ++ '.' :: (ds.drop k ++ tail)) =
      some (Nat.ofDigitChars 10 ds 0, e - (ds.length - k : ℕ)) := by
  rw [decimalLiteral_point (fun c hc => hds c (List.mem_of_mem_take hc))
    (fun c hc => hds c (List.mem_of_mem_drop hc)) (take_ne_nil hne hk) htail he,
    List.take_append_drop, List.length_drop]

/-- Digits behind a point, with zeros between. -/
theorem decimalLiteral_fraction (hds : ∀ c ∈ ds, c.isDigit = true) (z : ℕ) :
    decimalLiteral ('0' :: '.' :: (List.replicate z '0' ++ ds)) =
      some (Nat.ofDigitChars 10 ds 0, -((z + ds.length : ℕ) : ℤ)) := by
  have hfs : ∀ c ∈ List.replicate z '0' ++ ds, c.isDigit = true := fun c hc =>
    (List.mem_append.mp hc).elim (isDigit_of_mem_replicate c) (hds c)
  have hread := decimalLiteral_point (isDigit_of_mem_replicate (k := 1)) hfs
    (List.cons_ne_nil _ _) (Or.inl rfl) rfl
  rw [List.append_nil, zero_sub, ← List.append_assoc, Nat.ofDigitChars_append,
    List.replicate_append_replicate, Nat.ofDigitChars_replicate_zero, Nat.mul_zero,
    List.length_append, List.length_replicate] at hread
  exact hread

end Literals

/-- **A printed numeral reads as its value.** The cases are the four forms of the printed text. -/
theorem decimalLiteral_printDigits (s : ℕ) (n : ℤ) :
    ∃ m e, decimalLiteral (printDigits s n) = some (m, e) ∧
      (m : ℚ) * 10 ^ e = s * (10 : ℚ) ^ (n - (decimal s).length) := by
  have hds : ∀ c ∈ decimal s, c.isDigit = true := fun c => isDigit_of_mem_decimal
  have hne := decimal_ne_nil s
  have hval := ofDigitChars_decimal s
  rw [printDigits]
  generalize decimal s = ds at *
  dsimp only
  split
  next hwhole =>
    obtain ⟨z, hz⟩ : ∃ z : ℕ, n = ds.length + z := ⟨(n - ds.length).toNat, by omega⟩
    refine ⟨s * 10 ^ z, 0, ?_, ?_⟩
    · rw [show (n - (ds.length : ℤ)).toNat = z by omega, decimalLiteral_zeros hds hne, hval]
    · rw [zpow_zero, mul_one, hz, add_sub_cancel_left, zpow_natCast]
      push_cast
      rfl
  next hwhole =>
    split
    next hpoint =>
      have hread := decimalLiteral_split hds hne (k := n.toNat) (by omega) (Or.inl rfl) rfl
      rw [List.append_nil, hval] at hread
      refine ⟨_, _, hread, ?_⟩
      congr 2
      omega
    next hpoint =>
      split
      next hfraction =>
        refine ⟨_, _, decimalLiteral_fraction hds _, ?_⟩
        rw [hval]
        congr 2
        omega
      next hfraction =>
        have htail : IsTail ('e' :: (if n - 1 < 0 then '-' else '+') :: decimal (n - 1).natAbs) :=
          Or.inr ⟨_, rfl⟩
        have hexp := exponentPart_print (n - 1)
        split
        next hone =>
          refine ⟨s, n - 1, ?_, ?_⟩
          · rw [decimalLiteral_whole hds hne htail hexp, hval]
          · congr 2
            omega
        next hone =>
          have hread := decimalLiteral_split hds hne one_pos htail hexp
          rw [hval] at hread
          refine ⟨s, n - 1 - (ds.length - 1 : ℕ), ?_, ?_⟩
          · rw [List.append_assoc]
            exact hread
          · congr 2
            have : 0 < ds.length := List.length_pos_iff.mpr hne
            omega

/-- A printed numeral begins with a digit. -/
theorem printDigits_ne_cons (s : ℕ) (n : ℤ) {c : Char} (hc : c.isDigit = false) (r : List Char) :
    printDigits s n ≠ c :: r := by
  have hdigit : ∀ d ∈ (decimal s).head?, d.isDigit = true := fun d hd =>
    isDigit_of_mem_decimal (List.mem_of_mem_head? hd)
  obtain ⟨d, ds, hds⟩ := List.exists_cons_of_ne_nil (decimal_ne_nil s)
  have hd : d.isDigit = true := hdigit d (by rw [hds]; rfl)
  have hne : d ≠ c := by
    rintro rfl
    rw [hc] at hd
    exact Bool.false_ne_true hd
  rw [printDigits, hds]
  dsimp only
  split
  · exact fun h => hne (List.cons.inj h).1
  · split
    next h2 =>
      obtain ⟨k, hk⟩ : ∃ k, n.toNat = k + 1 := ⟨n.toNat - 1, by omega⟩
      rw [hk, List.take_succ_cons]
      exact fun h => hne (List.cons.inj h).1
    next =>
      split
      · intro h
        rw [← (List.cons.inj h).1] at hc
        exact absurd hc (by decide)
      · split
        · exact fun h => hne (List.cons.inj h).1
        · exact fun h => hne (List.cons.inj h).1

/-- A value has one numeral that does not end in zero. -/
theorem numeral_unique {s s' : ℕ} {a b : ℤ} (hs : s % 10 ≠ 0) (hs' : s' % 10 ≠ 0)
    (h : (s : ℚ) * (10 : ℚ) ^ a = s' * (10 : ℚ) ^ b) : s = s' ∧ a = b := by
  wlog hab : a ≤ b generalizing s s' a b
  · obtain ⟨h1, h2⟩ := this hs' hs h.symm (by omega)
    exact ⟨h1.symm, h2.symm⟩
  obtain ⟨d, rfl⟩ : ∃ d : ℕ, b = a + d := ⟨(b - a).toNat, by omega⟩
  rw [zpow_add₀ (by norm_num), mul_left_comm, mul_comm, zpow_natCast,
    mul_right_inj' (by positivity)] at h
  have hnat : s = s' * 10 ^ d := by exact_mod_cast h
  cases d with
  | zero => exact ⟨by rw [hnat, pow_zero, Nat.mul_one], by omega⟩
  | succ d =>
      rw [pow_succ, ← Nat.mul_assoc] at hnat
      omega

/-- Distinct numerals are printed differently. -/
theorem printDigits_injOn {s s' : ℕ} {n n' : ℤ} (hs : s % 10 ≠ 0) (hs' : s' % 10 ≠ 0)
    (h : printDigits s n = printDigits s' n') : s = s' ∧ n = n' := by
  obtain ⟨m, e, hread, hval⟩ := decimalLiteral_printDigits s n
  obtain ⟨m', e', hread', hval'⟩ := decimalLiteral_printDigits s' n'
  rw [h, hread'] at hread
  obtain ⟨rfl, rfl⟩ := Prod.mk.inj (Option.some.inj hread)
  obtain ⟨rfl, hpoint⟩ := numeral_unique hs hs' (hval.symm.trans hval')
  exact ⟨rfl, by omega⟩

/-- A number that is not zero is not printed as zero. -/
theorem printDigits_ne_zero {s : ℕ} (hs : s % 10 ≠ 0) (n : ℤ) : printDigits s n ≠ ['0'] := by
  intro h
  obtain ⟨m, e, hread, hval⟩ := decimalLiteral_printDigits s n
  have hzero : decimalLiteral ['0'] = some (0, 0) := by decide
  rw [h, hzero] at hread
  obtain ⟨rfl, rfl⟩ := Prod.mk.inj (Option.some.inj hread)
  rw [Nat.cast_zero, zero_mul, eq_comm, mul_eq_zero] at hval
  rcases hval with h0 | h0
  · rw [Nat.cast_eq_zero] at h0
    omega
  · exact absurd h0 (by positivity)

/-- The text of a finite number other than zero is a sign, if it is negative, and its digits. -/
theorem toList_toJsString_finite (neg : Bool) (s : ℕ) (n : ℤ) :
    (finite neg s n).toJsString.toList =
      if neg then '-' :: printDigits s n else printDigits s n := by
  rw [toJsString, String.toList_ofList]

/-- No other number is printed like a finite one. -/
theorem toJsString_finite_ne {neg : Bool} {s : ℕ} {n : ℤ} (hs : s % 10 ≠ 0) {m : JsNumber}
    (hm : ∀ neg' s' n', m ≠ finite neg' s' n') : (finite neg s n).toJsString ≠ m.toJsString := by
  intro h
  have hlist := congrArg String.toList h
  rw [toList_toJsString_finite] at hlist
  cases m with
  | nan =>
      cases neg with
      | true => exact absurd (List.cons.inj hlist).1 (by decide)
      | false => exact printDigits_ne_cons s n (by decide) _ hlist
  | infinity neg' =>
      cases neg with
      | true =>
          cases neg' with
          | true => exact printDigits_ne_cons s n (by decide) _ (List.cons.inj hlist).2
          | false => exact absurd (List.cons.inj hlist).1 (by decide)
      | false =>
          cases neg' with
          | true => exact printDigits_ne_cons s n (by decide) _ hlist
          | false => exact printDigits_ne_cons s n (by decide) _ hlist
  | zero neg' =>
      have hzero : (zero neg').toJsString.toList = ['0'] := by cases neg' <;> decide
      rw [hzero] at hlist
      cases neg with
      | true => exact absurd (List.cons.inj hlist).1 (by decide)
      | false => exact printDigits_ne_zero hs n hlist
  | finite neg' s' n' => exact hm neg' s' n' rfl

/-- The numbers that are not printed with digits of their own are told apart. -/
theorem toJsString_special {m n : JsNumber} (hm : ¬ ∃ neg s p, m = finite neg s p)
    (hn : ¬ ∃ neg s p, n = finite neg s p) (h : m.toJsString = n.toJsString) :
    SameValueZero m n := by
  match m, n with
  | finite neg s p, _ => exact absurd ⟨neg, s, p, rfl⟩ hm
  | _, finite neg s p => exact absurd ⟨neg, s, p, rfl⟩ hn
  | nan, nan => exact SameValueZero.refl nan
  | zero _, zero _ => trivial
  | infinity neg, infinity neg' =>
      cases neg <;> cases neg' <;> first | exact SameValueZero.refl _ | exact absurd h (by decide)
  | nan, infinity neg | infinity neg, nan | nan, zero neg | zero neg, nan =>
      cases neg <;> exact absurd h (by decide)
  | infinity neg, zero neg' | zero neg', infinity neg =>
      cases neg <;> cases neg' <;> exact absurd h (by decide)

/-- **`String` tells numbers apart.** Only the two zeros are printed alike. -/
theorem toJsString_injOn {m n : JsNumber} (hm : m.IsNumeral) (hn : n.IsNumeral)
    (h : m.toJsString = n.toJsString) : SameValueZero m n := by
  by_cases hmf : ∃ neg s p, m = finite neg s p
  · obtain ⟨neg, s, p, rfl⟩ := hmf
    by_cases hnf : ∃ neg s p, n = finite neg s p
    · obtain ⟨neg', s', p', rfl⟩ := hnf
      have hlist := congrArg String.toList h
      rw [toList_toJsString_finite, toList_toJsString_finite] at hlist
      have hboth : neg = neg' ∧ printDigits s p = printDigits s' p' := by
        cases neg <;> cases neg'
        · exact ⟨rfl, hlist⟩
        · exact absurd hlist (printDigits_ne_cons s p (by decide) _)
        · exact absurd hlist.symm (printDigits_ne_cons s' p' (by decide) _)
        · exact ⟨rfl, (List.cons.inj hlist).2⟩
      obtain ⟨rfl, rfl⟩ := printDigits_injOn hm hn hboth.2
      rw [hboth.1]
      exact SameValueZero.refl _
    · exact absurd h (toJsString_finite_ne hm fun _ _ _ he => hnf ⟨_, _, _, he⟩)
  · by_cases hnf : ∃ neg s p, n = finite neg s p
    · obtain ⟨neg, s, p, rfl⟩ := hnf
      exact absurd h.symm (toJsString_finite_ne hn fun _ _ _ he => hmf ⟨_, _, _, he⟩)
    · exact toJsString_special hmf hnf h

end JsNumber

end Mogo
