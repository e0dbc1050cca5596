/-!
# Binary floating-point values

A value is a sign, a whole mantissa and a power of two, or an infinity, or not a
number. A format says how many bits the mantissa and the exponent have; rounding
a fraction to a format picks the nearest value, and of two equally near ones the
one with the even mantissa.
-/

namespace SmallC

/-- A floating-point value; a finite one is `± mantissa * 2 ^ exponent`. -/
inductive Binary where
  | nan
  | infinite (negative : Bool)
  | finite (negative : Bool) (mantissa : Nat) (exponent : Int)
  deriving DecidableEq, Inhabited, Repr

namespace Binary

/-- A format of `precision` bits of mantissa and `width` bits of exponent. -/
structure Format where
  /-- The bits of the mantissa, the leading one included. -/
  precision : Nat
  /-- The bits of the exponent. -/
  width : Nat
  deriving DecidableEq, Repr

/-- Single precision. -/
def single : Format := ⟨24, 8⟩

/-- Double precision. -/
def double : Format := ⟨53, 11⟩

/-- How far the exponents reach on either side of zero. -/
def Format.bias (f : Format) : Nat := 1 <<< (f.width - 1) - 1

/-- The exponent of the smallest positive values. -/
def Format.leastExponent (f : Format) : Int := 2 - f.bias - f.precision

/-- The exponent of the greatest finite values. -/
def Format.greatestExponent (f : Format) : Int := f.bias + 1 - f.precision

/-- The quotient rounded to the nearest whole number, a half to the even one. -/
def roundQuotient (num den : Nat) : Nat :=
  let q := num / den
  let r := num % den
  if den < 2 * r ∨ (2 * r = den ∧ q % 2 = 1) then q + 1 else q

/-- The fraction `num / den * 2 ^ (-e)`, as a numerator and a denominator. -/
def scaled (num den : Nat) (e : Int) : Nat × Nat :=
  if 0 ≤ e then (num, den <<< e.toNat) else (num <<< (-e).toNat, den)

/-- The greatest `e` with `2 ^ e ≤ num / den`, both being positive. -/
def exponentOf (num den : Nat) : Int :=
  let guess : Int := (Nat.log2 num : Int) - (Nat.log2 den : Int)
  let (n, d) := scaled num den guess
  if d ≤ n then guess else guess - 1

/-- The value of the format that is nearest to `± num / den`. -/
def Format.round (f : Format) (negative : Bool) (num den : Nat) : Binary :=
  if num = 0 then .finite negative 0 0
  else
    let e := max (exponentOf num den - (f.precision - 1)) f.leastExponent
    let (n, d) := scaled num den e
    let m := roundQuotient n d
    let (m, e) := if m = 1 <<< f.precision then (1 <<< (f.precision - 1), e + 1) else (m, e)
    if m = 0 then .finite negative 0 0
    else if f.greatestExponent < e then .infinite negative
    else .finite negative m e

/-- The size of a finite value as a fraction. -/
def ratio (mantissa : Nat) (exponent : Int) : Nat × Nat :=
  if 0 ≤ exponent then (mantissa <<< exponent.toNat, 1) else (mantissa, 1 <<< (-exponent).toNat)

/-- The value of the format that is nearest to a value. -/
def Format.convert (f : Format) : Binary → Binary
  | .finite negative m e => let (num, den) := ratio m e; f.round negative num den
  | x => x

/-- The nearest whole value, a half going to the even one; the sign is kept. -/
def roundWhole : Binary → Binary
  | .finite negative m e =>
    let (num, den) := ratio m e
    .finite negative (roundQuotient num den) 0
  | x => x

/-- The whole number towards zero, cut off at the ends of the 64-bit range;
what is not a number counts as zero. -/
def truncated : Binary → Int
  | .nan => 0
  | .infinite negative => if negative then Int64.minValue.toInt else Int64.maxValue.toInt
  | .finite negative m e =>
    let (num, den) := ratio m e
    let n : Int := Int.ofNat (num / den)
    if negative then max (-n) Int64.minValue.toInt else min n Int64.maxValue.toInt

/-- An interchange encoding, given its parts. -/
def Format.encode (f : Format) (negative : Bool) (field fraction : Nat) : Nat :=
  (if negative then 1 <<< (f.width + f.precision - 1) else 0) +
    field <<< (f.precision - 1) + fraction

/-- The interchange encoding of a value that belongs to the format: the sign, the
exponent counted from the least one, and the mantissa without its leading bit. -/
def Format.toBits (f : Format) : Binary → Nat
  | .nan => f.encode false (1 <<< f.width - 1) (1 <<< (f.precision - 2))
  | .infinite negative => f.encode negative (1 <<< f.width - 1) 0
  | .finite negative m e =>
    if m < 1 <<< (f.precision - 1) then f.encode negative 0 m
    else f.encode negative (e - f.leastExponent + 1).toNat (m - 1 <<< (f.precision - 1))

/-- The value with a given interchange encoding. -/
def Format.ofBits (f : Format) (bits : Nat) : Binary :=
  let fraction := bits % 1 <<< (f.precision - 1)
  let field := (bits >>> (f.precision - 1)) % 1 <<< f.width
  let negative := bits.testBit (f.width + f.precision - 1)
  if field = 1 <<< f.width - 1 then
    if fraction = 0 then .infinite negative else .nan
  else if field = 0 then
    if fraction = 0 then .finite negative 0 0 else .finite negative fraction f.leastExponent
  else .finite negative (1 <<< (f.precision - 1) + fraction) (f.leastExponent + (field - 1))

end Binary

end SmallC
