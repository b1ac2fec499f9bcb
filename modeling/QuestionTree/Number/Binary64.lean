/-!
# Binary floating-point values

Scoring and growth are written for any numbers with the operations of `Arithmetic`. The numbers that
programs run on are values of sixty-four bits: a sign with a whole number of units `2 ^ exponent`,
an infinity, or not a number. The sections at the end give the value nearest to a quotient and round
a value to decimal places.
-/

namespace QuestionTree

/-! ### Arithmetic on masses, scores and gains

Scoring and growth use only the operations collected here, so one set of definitions runs on binary
floating point and can be read over an exact field as well. The tests `<` and `≤` are false as soon
as an operand is not a number, while `compare` ranks every value, those that are not numbers
included.
-/

/-- The operations that scores, masses and gains are computed with. -/
class Arithmetic (ν : Type) extends
    Zero ν, Add ν, Sub ν, Mul ν, Div ν, Neg ν, LT ν, LE ν, Ord ν where
  decidableLT : DecidableLT ν
  decidableLE : DecidableLE ν
  log2 : ν → ν

namespace Arithmetic

variable {ν : Type} [Arithmetic ν]

instance : DecidableLT ν := decidableLT

instance : DecidableLE ν := decidableLE

/-- The smaller of two values. A value that is not a number gives way to the other, and of two
equal values the second is taken. -/
def least (a b : ν) : ν :=
  if a < b then a else if b ≤ b then b else a

/-- The greater of two values. A value that is not a number gives way to the other, and of two
equal values the second is taken. -/
def greatest (a b : ν) : ν :=
  if b < a then a else if b ≤ b then b else a

/-- A positive value as it is, and zero for every other one. -/
def clampAtZero (a : ν) : ν :=
  if 0 < a then a else 0

/-- Adds the values from left to right. The sum of nothing is the negated zero, which is the
neutral element also where zeros carry a sign. -/
def total (values : List ν) : ν :=
  values.foldl (· + ·) (-0)

/-- A running sum together with the rounding error that the last addition left in it. -/
structure Compensated (ν : Type) where
  sum : ν
  excess : ν

def Compensated.add (c : Compensated ν) (value : ν) : Compensated ν :=
  let y := value - c.excess
  let t := c.sum + y
  ⟨t, (t - c.sum) - y⟩

/-- The sum of masses that may differ widely in magnitude: each addition takes back the rounding
error of the one before. -/
def compensatedSum (values : List ν) : ν :=
  (values.foldl Compensated.add ⟨0, 0⟩).sum

end Arithmetic

/-! ### The bits of a value

`rank` reads the bits as one signed number, which orders all values: negative before positive, zeros
apart, infinities outside the finite values and what is not a number outside them.
-/

/-- What the bits of a floating-point value say. -/
inductive Binary64 where
  | notANumber
  | infinite (negative : Bool)
  | finite (negative : Bool) (mantissa : Nat) (exponent : Int)
  deriving DecidableEq, Repr

namespace Binary64

def minExponent : Int := -1074

/-- The mantissa of the first value in each binade of normal values. -/
def leadingBit : Nat := Nat.pow 2 52

def fieldCount : Nat := Nat.pow 2 11

def signBit : Nat := leadingBit * fieldCount

def ofBits (bits : Nat) : Binary64 :=
  let negative := decide (signBit ≤ bits)
  let field : Nat := bits / leadingBit % fieldCount
  let fraction := bits % leadingBit
  if field = fieldCount - 1 then
    if fraction = 0 then infinite negative else notANumber
  else if field = 0 then finite negative fraction minExponent
  else finite negative (leadingBit + fraction) (minExponent + (field - 1 : Nat))

def ofFloat (x : Float) : Binary64 := ofBits x.toBits.toNat

def infinityBits : Nat := leadingBit * (fieldCount - 1)

def toFloat (bits : Nat) : Float := Float.ofBits (UInt64.ofNat bits)

/-- The place of a value in the total order: its bits without the sign, counted downwards from
minus one where the sign is set. -/
def rank (x : Float) : Int :=
  let bits := x.toBits.toNat
  if bits < signBit then bits else -1 - ((bits - signBit : Nat) : Int)

end Binary64

instance : Arithmetic Float where
  zero := 0.0
  compare x y := compare (Binary64.rank x) (Binary64.rank y)
  decidableLT := Float.decLt
  decidableLE := Float.decLe
  log2 := Float.log2

/-! ### The nearest value

A quotient is counted in units of the least positive value. The units are rounded to as many binary
digits as a mantissa has, a half going to the even mantissa; fewer digits are all kept. The bits of
the values ascend with the values, so a mantissa that is rounded up to the next power of two needs
no care.
-/

/-- The quotient rounded to the nearest whole number, a half to the even one. -/
def roundedQuotient (num den : Nat) : Nat :=
  let q := num / den
  let twice := 2 * (num % den)
  if twice < den then q
  else if den < twice then q + 1
  else if q % 2 = 0 then q else q + 1

namespace Binary64

/-- The bits of the value nearest to a number of units over a denominator, or of a greater one than
all finite values. -/
def nearestBits (units den : Nat) : Nat :=
  let shift := (units / den).log2 - leadingBit.log2
  shift * leadingBit + roundedQuotient units (den * Nat.pow 2 shift)

def unitsOf (n : Nat) : Nat := n * Nat.pow 2 (-minExponent).toNat

end Binary64

/-! ### Rounding to decimal places

A value is scaled by a power of ten, rounded to a whole number with a half going away from zero, and
scaled back. The power is a product of repeated squares, and that of a negative exponent is the
reciprocal of the positive one.
-/

/-- The product of the factors `base`, `base ^ 2`, `base ^ 4`, … that the binary digits of the
exponent select, taken into `product` from the lowest one upwards. -/
def powerBySquares (base product : Float) (exponent : Nat) : Float :=
  let product := if exponent % 2 = 1 then product * base else product
  if exponent < 2 then product
  else powerBySquares (base * base) product (exponent / 2)
termination_by exponent
decreasing_by omega

def wholePower (base : Float) (exponent : Int) : Float :=
  let power := powerBySquares base 1.0 exponent.natAbs
  if exponent < 0 then 1.0 / power else power

/-- The value rounded to a number of decimal places, or to tens, hundreds, … for a negative one. -/
def roundToPlaces (x : Float) (places : Int) : Float :=
  let scale := wholePower 10.0 places
  (x * scale).round / scale

end QuestionTree
