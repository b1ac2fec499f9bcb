import QuestionTree.Number.Binary64

/-!
# Decimal notation

A floating-point value is written with the fewest digits that read back. `Shortest` finds the digits
and a `NumberStyle` lays them out.
-/

namespace QuestionTree

/-! ### The fewest digits that read back

A positive value `mantissa * 2 ^ exponent` stands for the interval of reals that round to it. On the
decimal grid of each width from one digit upwards only the two neighbours of the value need a look:
if any point of the grid lies in the interval, one of them does. The first grid with a hit gives the
digits, the nearer of two hits wins, and a `Tie` says which of two equally near ones is taken.
-/

/-- The value `digits * 10 ^ exponent`. -/
structure Decimal where
  digits : Nat
  exponent : Int
  deriving DecidableEq, Repr

/-- Which of two equally near neighbours is taken. -/
inductive Tie where
  | even
  | up
  deriving DecidableEq, Repr

def digitCount (n : Nat) : Nat :=
  if n = 0 then 0 else digitCount (n / 10) + 1
decreasing_by omega

namespace Decimal

/-- The same value without zeros at the end of its digits. -/
def trim (d : Decimal) : Decimal :=
  if d.digits = 0 then d
  else if d.digits % 10 = 0 then trim ⟨d.digits / 10, d.exponent + 1⟩
  else d
termination_by d.digits
decreasing_by
  show d.digits / 10 < d.digits
  omega

end Decimal

namespace Shortest

/-- The interval of reals that round to one value, as three numerators over one denominator. -/
structure Interval where
  low : Nat
  mid : Nat
  high : Nat
  den : Nat
  closed : Bool
  deriving DecidableEq, Repr

/-- The interval of `mantissa * 2 ^ exponent`. Its ends lie half way to the neighbours, of which the
lower one is only half as far where a binade begins (`narrow`), and they belong to it exactly when
the mantissa is even. -/
def interval (mantissa : Nat) (exponent : Int) (narrow : Bool) : Interval :=
  let scale := Nat.pow 2 (exponent - 2).toNat
  { low := (4 * mantissa - (if narrow then 1 else 2)) * scale
    mid := 4 * mantissa * scale
    high := (4 * mantissa + 2) * scale
    den := Nat.pow 2 (2 - exponent).toNat
    closed := mantissa % 2 == 0 }

/-- The `k` with `10 ^ (k - 1) ≤ mid / den < 10 ^ k`. -/
def Interval.magnitude (i : Interval) : Int :=
  if i.den ≤ i.mid then digitCount (i.mid / i.den)
  else 1 - digitCount ((i.den + i.mid - 1) / i.mid - 1)

/-- The grid of the multiples of `10 ^ exponent`: a point `c` of it is compared with a numerator `x`
by comparing `c * unit` with `x * factor`. -/
structure Grid where
  unit : Nat
  factor : Nat
  deriving DecidableEq, Repr

/-- The grid of the multiples of `10 ^ exponent` over a denominator. -/
def Grid.ofExponent (den : Nat) (exponent : Int) : Grid :=
  ⟨den * Nat.pow 10 exponent.toNat, Nat.pow 10 (-exponent).toNat⟩

def Interval.contains (i : Interval) (g : Grid) (c : Nat) : Bool :=
  if i.closed then
    decide (i.low * g.factor ≤ c * g.unit) && decide (c * g.unit ≤ i.high * g.factor)
  else
    decide (i.low * g.factor < c * g.unit) && decide (c * g.unit < i.high * g.factor)

/-- The neighbour of the value on a grid that lies in the interval and is nearest to it. -/
def Interval.nearest? (i : Interval) (tie : Tie) (g : Grid) : Option Nat :=
  let below := i.mid * g.factor / g.unit
  let above := below + 1
  match i.contains g below, i.contains g above with
  | false, false => none
  | true, false => some below
  | false, true => some above
  | true, true =>
    let toBelow := i.mid * g.factor - below * g.unit
    let toAbove := above * g.unit - i.mid * g.factor
    if toBelow < toAbove then some below
    else if toAbove < toBelow then some above
    else match tie with
      | .up => some above
      | .even => if below % 2 = 0 then some below else some above

def maxDigits : Nat := 17

/-- The value of an interval whose denominator is a power of two, as a decimal. -/
def Interval.exact (i : Interval) : Decimal :=
  ⟨i.mid * Nat.pow 5 i.den.log2, -(i.den.log2 : Int)⟩

def Interval.shortest (i : Interval) (tie : Tie) : Decimal :=
  let k := i.magnitude
  let found := (List.range maxDigits).findSome? fun (n : Nat) =>
    let exponent : Int := k - (n + 1 : Nat)
    (i.nearest? tie (Grid.ofExponent i.den exponent)).map (Decimal.mk · exponent)
  (found.getD i.exact).trim

end Shortest

/-! ### Number texts

Two styles are in use: `plain`, for reading by people, never writes an exponent and leaves whole
numbers without a point; `json` keeps a decimal point in positional numbers, changes to an exponent
outside a range of magnitudes and has no numbers for the values that are not finite. `fixedText`
writes a given number of decimal places of the exact value.
-/

/-- How a floating-point value is written. -/
structure NumberStyle where
  tie : Tie
  /-- Whether a value of this decimal exponent is written without an exponent part. -/
  positional : Int → Bool
  /-- Whether a positional whole number ends in a point and a zero. -/
  keepsPoint : Bool
  notANumber : String
  infinite : Bool → String

namespace NumberStyle

def plain : NumberStyle where
  tie := .up
  positional _ := true
  keepsPoint := false
  notANumber := "NaN"
  infinite negative := if negative then "-inf" else "inf"

def json : NumberStyle where
  tie := .even
  positional e := decide (-5 ≤ e) && decide (e ≤ 15)
  keepsPoint := true
  notANumber := "null"
  infinite _ := "null"

def zeros (n : Nat) : String := String.ofList (List.replicate n '0')

def positionalText (style : NumberStyle) (digits : List Char) (exponent : Int) : String :=
  if 0 ≤ exponent then
    String.ofList digits ++ zeros exponent.toNat ++ (if style.keepsPoint then ".0" else "")
  else
    let places := (-exponent).toNat
    if places < digits.length then
      String.ofList (digits.take (digits.length - places)) ++ "." ++
        String.ofList (digits.drop (digits.length - places))
    else "0." ++ zeros (places - digits.length) ++ String.ofList digits

/-- One digit, the others behind a point, and the exponent with its sign. -/
def exponentText (digits : List Char) (exponent : Int) : String :=
  let fraction := digits.drop 1
  String.ofList (digits.take 1) ++
    (if fraction.isEmpty then "" else "." ++ String.ofList fraction) ++
    "e" ++ (if exponent < 0 then "-" else "+") ++ exponent.natAbs.repr

def decimal (style : NumberStyle) (d : Decimal) : String :=
  let digits := Nat.toDigits 10 d.digits
  let exponent := d.exponent + digits.length - 1
  if style.positional exponent then style.positionalText digits d.exponent
  else exponentText digits exponent

def magnitude (style : NumberStyle) (mantissa : Nat) (exponent : Int) : String :=
  if mantissa = 0 then if style.keepsPoint then "0.0" else "0"
  else
    let narrow := decide (mantissa = Binary64.leadingBit ∧ Binary64.minExponent < exponent)
    style.decimal ((Shortest.interval mantissa exponent narrow).shortest style.tie)

/-- The text of a value: the fewest digits that read back. -/
def render (style : NumberStyle) (x : Float) : String :=
  match Binary64.ofFloat x with
  | .notANumber => style.notANumber
  | .infinite negative => style.infinite negative
  | .finite negative mantissa exponent =>
    (if negative then "-" else "") ++ style.magnitude mantissa exponent

end NumberStyle

/-- The exact value rounded to a number of decimal places, a half to the even digit. The sign is
kept also where the digits are all zero. -/
def fixedText (places : Nat) (x : Float) : String :=
  match Binary64.ofFloat x with
  | .notANumber => NumberStyle.plain.notANumber
  | .infinite negative => NumberStyle.plain.infinite negative
  | .finite negative mantissa exponent =>
    let scaled := roundedQuotient (mantissa * Nat.pow 2 exponent.toNat * Nat.pow 10 places)
      (Nat.pow 2 (-exponent).toNat)
    let fraction := Nat.toDigits 10 (scaled % Nat.pow 10 places)
    (if negative then "-" else "") ++ (scaled / Nat.pow 10 places).repr ++
      (if places = 0 then ""
       else "." ++ NumberStyle.zeros (places - fraction.length) ++ String.ofList fraction)

def fixedList (values : List Float) : String :=
  String.intercalate ", " (values.map (fixedText 4))

end QuestionTree
