import Mathlib

/-!
# JavaScript Numbers

The migration script turns values into numbers with `Number(…)` and into text with `String(…)`.
A number is represented here by the decimal numeral that `Number::toString` of the language
definition prints for it: the shortest digit string that reads back as the same double. Two
doubles are one number exactly when their numerals agree, so nothing is lost, and printing needs
no arithmetic.

Reading a decimal text goes the other way: the exact decimal value is rounded to the nearest
double (53 bits, ties to even, subnormals down to `2 ^ (-1074)`, overflow to infinity), and the
shortest numeral of that double is looked up.
-/

namespace Mogo

/-- A double. `finite neg s n` is `± 0.d₁d₂… · 10 ^ n`, where `d₁d₂…` are the decimal digits of
the positive number `s`. -/
inductive JsNumber where
  | nan
  | infinity (negative : Bool)
  | zero (negative : Bool)
  | finite (negative : Bool) (digits : ℕ) (point : ℤ)
  deriving DecidableEq, Repr

namespace JsNumber

/-- `Number.isFinite` of a number: neither `NaN` nor infinite. -/
def isFinite : JsNumber → Bool
  | zero _ => true
  | finite _ _ _ => true
  | _ => false

/-- The decimal digits of a natural number, most significant first. -/
def decimal (n : ℕ) : List Char := (toString n).toList

/-- The digits of `Number::toString`, without the sign; `n` is the position of the decimal point
counted from the first digit. -/
def printDigits (s : ℕ) (n : ℤ) : List Char :=
  let ds := decimal s
  let k : ℤ := ds.length
  if k ≤ n ∧ n ≤ 21 then ds ++ List.replicate (n - k).toNat '0'
  else if 0 < n ∧ n ≤ 21 then ds.take n.toNat ++ '.' :: ds.drop n.toNat
  else if -6 < n ∧ n ≤ 0 then '0' :: '.' :: (List.replicate (-n).toNat '0' ++ ds)
  else
    let mantissa := if k = 1 then ds else ds.take 1 ++ '.' :: ds.drop 1
    mantissa ++ 'e' :: (if n - 1 < 0 then '-' else '+') :: decimal (n - 1).natAbs

/-- `String(n)` of a number, which is the same text for both zeros. -/
def toJsString : JsNumber → String
  | nan => "NaN"
  | infinity neg => if neg then "-Infinity" else "Infinity"
  | zero _ => "0"
  | finite neg s n => String.ofList (if neg then '-' :: printDigits s n else printDigits s n)

/-! ### Rounding to a double -/

/-- The integer nearest to `num / den`, ties to the even one. -/
def roundHalfEven (num den : ℕ) : ℕ :=
  let q := num / den
  let r := num % den
  if 2 * r < den then q else if den < 2 * r then q + 1 else if q % 2 = 0 then q else q + 1

/-- The fraction `num / den / b ^ e`. -/
def divPow (b num den : ℕ) : ℤ → ℕ × ℕ
  | .ofNat k => (num, den * b ^ k)
  | .negSucc k => (num * b ^ (k + 1), den)

/-- The exponent `e` with `2 ^ e ≤ num / den < 2 ^ (e + 1)`. -/
def binaryExponent (num den : ℕ) : ℤ :=
  let e : ℤ := (Nat.log2 num : ℤ) - (Nat.log2 den : ℤ)
  let f := divPow 2 num den e
  if f.1 < f.2 then e - 1 else e

/-- The double nearest to `num / den`, as `m · 2 ^ e` with `m < 2 ^ 53`. A fraction that rounds up
to a power of two takes the exponent of that power. -/
def nearestDouble (num den : ℕ) : ℕ × ℤ :=
  let e := max (binaryExponent num den - 52) (-1074)
  let f := divPow 2 num den e
  let m := roundHalfEven f.1 f.2
  if m = 2 ^ 53 then (2 ^ 52, e + 1) else (m, e)

/-- The double nearest to a rational: what an operation on doubles returns, when its exact result is
the rational and is not too large. -/
def toDouble (x : ℚ) : ℚ :=
  let d := nearestDouble x.num.natAbs x.den
  let f := divPow 2 d.1 1 (-d.2)
  let size := mkRat f.1 f.2
  if x < 0 then -size else size

/-- The position of the decimal point of `num / den`: `10 ^ (n - 1) ≤ num / den < 10 ^ n`. -/
def decimalPoint (num den : ℕ) : ℤ :=
  let n : ℤ := ((decimal num).length : ℤ) - ((decimal den).length : ℤ)
  let f := divPow 10 num den n
  if f.1 < f.2 then n else n + 1

/-- Cut trailing zeros off a digit string. -/
def stripZeros : (fuel : ℕ) → ℕ → ℕ
  | 0, s => s
  | fuel + 1, s => if s ≠ 0 ∧ s % 10 = 0 then stripZeros fuel (s / 10) else s

/-- The numeral with `k` digits that reads back as the double `m · 2 ^ e`, if there is one; the
nearer of the two neighbours is tried first. -/
def numeralWithDigits (m : ℕ) (e : ℤ) (k : ℕ) : Option (ℕ × ℤ) :=
  let x := divPow 2 m 1 (-e)
  let n := decimalPoint x.1 x.2
  let f := divPow 10 x.1 x.2 (n - k)
  let lo := f.1 / f.2
  let candidates := if 2 * (f.1 % f.2) ≤ f.2 then [lo, lo + 1] else [lo + 1, lo]
  let reads (s : ℕ) : Bool :=
    let y := divPow 10 s 1 (k - n)
    s ≠ 0 && nearestDouble y.1 y.2 == (m, e)
  (candidates.find? reads).map fun s =>
    (stripZeros 20 s, n + ((decimal s).length : ℤ) - k)

/-- The shortest numeral of the double `m · 2 ^ e`; seventeen digits always suffice. -/
def shortestNumeral (m : ℕ) (e : ℤ) : Option (ℕ × ℤ) :=
  (List.range' 1 17).findSome? (numeralWithDigits m e)

/-- The number written as the decimal `m · 10 ^ e`. -/
def ofDecimal (neg : Bool) (m : ℕ) (e : ℤ) : JsNumber :=
  let size : ℤ := ((decimal m).length : ℤ) + e
  if m = 0 ∨ size < -330 then zero neg
  else if 310 < size then infinity neg
  else
    let x := divPow 10 m 1 (-e)
    let d := nearestDouble x.1 x.2
    if d.1 = 0 then zero neg
    else if 0 ≤ d.2 ∧ 2 ^ 1024 ≤ d.1 * 2 ^ d.2.toNat then infinity neg
    else
      match shortestNumeral d.1 d.2 with
      | some (s, n) => finite neg s n
      | none => nan

/-! ### Reading text -/

/-- The value of a digit of a base up to sixteen. -/
def digitValue? (base : ℕ) (c : Char) : Option ℕ :=
  let v : Option ℕ :=
    if '0' ≤ c ∧ c ≤ '9' then some (c.toNat - '0'.toNat)
    else if 'a' ≤ c ∧ c ≤ 'f' then some (c.toNat - 'a'.toNat + 10)
    else if 'A' ≤ c ∧ c ≤ 'F' then some (c.toNat - 'A'.toNat + 10)
    else none
  v.filter (· < base)

/-- The value of a string of digits, `none` if it is empty or holds another character. -/
def digitsValue? (base : ℕ) (l : List Char) : Option ℕ :=
  if l.isEmpty then none
  else l.foldl (fun acc c => do pure ((← acc) * base + (← digitValue? base c))) (some 0)

/-- The exponent part of a decimal literal. -/
def exponentPart : List Char → Option ℤ
  | [] => some 0
  | 'e' :: r | 'E' :: r =>
    match r with
    | '+' :: ds => (digitsValue? 10 ds).map fun n => (n : ℤ)
    | '-' :: ds => (digitsValue? 10 ds).map fun n => -(n : ℤ)
    | ds => (digitsValue? 10 ds).map fun n => (n : ℤ)
  | _ => none

/-- An unsigned decimal literal `ddd.ddde±dd`, as significand and exponent of ten. -/
def decimalLiteral (l : List Char) : Option (ℕ × ℤ) :=
  let whole := l.takeWhile Char.isDigit
  let rest := l.dropWhile Char.isDigit
  let fraction := match rest with
    | '.' :: r => r.takeWhile Char.isDigit
    | _ => []
  let rest := match rest with
    | '.' :: r => r.dropWhile Char.isDigit
    | r => r
  match digitsValue? 10 (whole ++ fraction), exponentPart rest with
  | some m, some e => some (m, e - fraction.length)
  | _, _ => none

/-- An unsigned literal: `Infinity` or a decimal. -/
def unsignedLiteral (neg : Bool) (l : List Char) : JsNumber :=
  if l = "Infinity".toList then infinity neg
  else
    match decimalLiteral l with
    | some (m, e) => ofDecimal neg m e
    | none => nan

/-- `Number(text)` of a text without surrounding white space. -/
def ofTrimmed : List Char → JsNumber
  | [] => zero false
  | '0' :: 'x' :: r | '0' :: 'X' :: r => ((digitsValue? 16 r).map (ofDecimal false · 0)).getD nan
  | '0' :: 'o' :: r | '0' :: 'O' :: r => ((digitsValue? 8 r).map (ofDecimal false · 0)).getD nan
  | '0' :: 'b' :: r | '0' :: 'B' :: r => ((digitsValue? 2 r).map (ofDecimal false · 0)).getD nan
  | '+' :: r => unsignedLiteral false r
  | '-' :: r => unsignedLiteral true r
  | r => unsignedLiteral false r

example : ofTrimmed "0.1".toList = finite false 1 0 := by decide +kernel

example : ofTrimmed "0.99999999999999999".toList = finite false 1 1 := by decide +kernel

example : ofTrimmed "9007199254740993".toList = finite false 9007199254740992 16 := by
  decide +kernel

example : (ofTrimmed "-12.50e3".toList).toJsString = "-12500" := by decide +kernel

example : ofTrimmed "1 day".toList = nan := by decide +kernel

end JsNumber

end Mogo
