import SmallC.Binary

/-!
# Decimals

The shortest decimal of a floating-point value is the one with the fewest digits
that rounds back to the value, and of those the nearest to it, or the greater one
of two equally near. It is written in positional notation, or, where a layout says
so, with a power of ten.
-/

namespace SmallC

/-- The number `digits * 10 ^ exponent`. -/
structure Decimal where
  /-- The digits, as one number. -/
  digits : Nat
  /-- The power of ten. -/
  exponent : Int
  deriving DecidableEq, Repr

namespace Decimal

/-- The fraction that a decimal is. -/
def ratio (d : Decimal) : Nat × Nat :=
  if 0 ≤ d.exponent then (d.digits * Nat.pow 10 d.exponent.toNat, 1)
  else (d.digits, Nat.pow 10 (-d.exponent).toNat)

/-- The decimal rounds to the value in the format. -/
def readsAs (f : Binary.Format) (x : Binary) (d : Decimal) : Bool :=
  let (num, den) := d.ratio
  f.round false num den == x

/-- The number of decimal digits of a whole number, at least one. -/
def digitCount (n : Nat) : Nat := (Nat.toDigits 10 n).length

/-- How many powers of ten, up to `fuel`, a fraction below one has to be
multiplied by to reach one. -/
def leadingZeros : Nat → Nat → Nat → Nat
  | 0, _, _ => 0
  | fuel + 1, num, den => if den ≤ num then 0 else leadingZeros fuel (num * 10) den + 1

/-- The least `k` with `num / den < 10 ^ k`, for a positive fraction. -/
def magnitude (num den : Nat) : Int :=
  if den ≤ num then digitCount (num / den) else 1 - leadingZeros (den.log2 + 1) num den

/-- The whole numbers on either side of `num / den * 10 ^ shift`, with the
denominator and the remainder of the division. -/
def neighbours (num den : Nat) (shift : Int) : Nat × Nat × Nat :=
  let n := num * Nat.pow 10 shift.toNat
  let d := den * Nat.pow 10 (-shift).toNat
  (n / d, d, n % d)

/-- The decimal without zeros at the end of its digits, of which it has at most
`fuel`. -/
def trimZeros : Nat → Decimal → Decimal
  | 0, d => d
  | fuel + 1, d =>
    if d.digits % 10 = 0 ∧ d.digits ≠ 0 then trimZeros fuel ⟨d.digits / 10, d.exponent + 1⟩ else d

/-- The decimal nearest to `num / den`, of magnitude `k`, among those with
`count` digits that read as `x`; of two equally near ones it is the greater. -/
def nearest? (f : Binary.Format) (x : Binary) (num den : Nat) (k : Int) (count : Nat) :
    Option Decimal :=
  let (low, d, r) := neighbours num den (count - k)
  let below : Decimal := ⟨low, k - count⟩
  let above : Decimal := ⟨low + 1, k - count⟩
  match readsAs f x below, readsAs f x above with
  | true, true => if 2 * r < d then some below else some above
  | true, false => some below
  | false, true => some above
  | false, false => none

/-- The digit counts from one to the most that any value of the format needs. -/
def digitCounts (f : Binary.Format) : List Nat :=
  (List.range (f.precision * 3 / 10 + 2)).map (· + 1)

/-- The shortest decimal of the positive value `m * 2 ^ e`. -/
def shortest (f : Binary.Format) (m : Nat) (e : Int) : Decimal :=
  let (num, den) := Binary.ratio m e
  let x := f.round false num den
  let k := magnitude num den
  match (digitCounts f).findSome? (nearest? f x num den k) with
  | some d => trimZeros (digitCount d.digits) d
  | none => ⟨0, 0⟩

/-- The decimal in positional notation, with a point only before a fraction. -/
def positional (d : Decimal) : List Char :=
  let ds := Nat.toDigits 10 d.digits
  if 0 ≤ d.exponent then ds ++ List.replicate d.exponent.toNat '0'
  else
    let places := (-d.exponent).toNat
    if places < ds.length then ds.take (ds.length - places) ++ '.' :: ds.drop (ds.length - places)
    else '0' :: '.' :: List.replicate (places - ds.length) '0' ++ ds

/-- The decimal with one digit before the point and a signed power of ten, which
has at least two digits. -/
def scientific (d : Decimal) : List Char :=
  let ds := Nat.toDigits 10 d.digits
  let power := d.exponent + ds.length - 1
  let size := Nat.toDigits 10 power.natAbs
  let fraction := if ds.length ≤ 1 then [] else '.' :: ds.drop 1
  ds.take 1 ++ fraction ++ ['e', if 0 ≤ power then '+' else '-'] ++
    (if size.length < 2 then '0' :: size else size)

end Decimal

namespace Binary

/-- A sign before a text. -/
def signed (negative : Bool) (cs : List Char) : String :=
  String.ofList (if negative then '-' :: cs else cs)

/-- The text of a value of the format: the shortest decimal in positional
notation. -/
def Format.text (f : Format) : Binary → String
  | .nan => "NaN"
  | .infinite negative => signed negative ['i', 'n', 'f']
  | .finite negative m e =>
    if m = 0 then signed negative ['0'] else signed negative (Decimal.shortest f m e).positional

/-- How many digits before the point a number keeps in positional notation when
it is serialized: thirteen in single precision and sixteen in double. -/
def Format.positionalDigits (f : Format) : Nat := if f.precision ≤ 24 then 13 else 16

/-- The serialized form of a value of the format, which always has a point or a
power of ten; what is not finite has none. -/
def Format.serialized (f : Format) : Binary → Option String
  | .nan => none
  | .infinite _ => none
  | .finite negative m e =>
    if m = 0 then some (signed negative ['0', '.', '0'])
    else
      let d := Decimal.shortest f m e
      let before := d.exponent + Decimal.digitCount d.digits
      if before ≤ f.positionalDigits then
        some (signed negative (d.positional ++ if 0 ≤ d.exponent then ['.', '0'] else []))
      else some (signed negative d.scientific)

end Binary

end SmallC
