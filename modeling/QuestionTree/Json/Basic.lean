import QuestionTree.Number.Binary64
import QuestionTree.Number.Decimal

/-!
# Trees of configuration texts

A configuration text is read into a tree whose numbers and strings keep their spelling, so that each
reader of a value decides what a spelling means to it. A text that breaks off, or goes on in a way
no rule allows, still gives the tree up to that place: a list or an object that is not `closed` ends
there, and `cut` stands where a value was due. Whoever walks the tree in order therefore meets the
faults of a text in the order in which they were written.
-/

namespace QuestionTree

inductive Json where
  | null
  | bool (b : Bool)
  | num (spelling : String)
  | str (spelling : String)
  | arr (items : List Json) (closed : Bool)
  /-- An object with the spellings of its names, and whether its brace is closed. -/
  | obj (members : List (String × Json)) (closed : Bool)
  | cut
  deriving Inhabited

namespace Json

abbrev list (items : List Json) : Json := arr items true

abbrev object (members : List (String × Json)) : Json := obj members true

mutual

def whole : Json → Bool
  | cut => false
  | arr items closed => wholeItems items && closed
  | obj members closed => wholeMembers members && closed
  | _ => true

def wholeItems : List Json → Bool
  | [] => true
  | item :: items => item.whole && wholeItems items

def wholeMembers : List (String × Json) → Bool
  | [] => true
  | (_, value) :: members => value.whole && wholeMembers members

end

end Json

/-! ### Strings between quotes

`escape` spells a text between quotes and `unescape?` reads a spelling back. The quote, the
backslash and the control characters are escaped, five of those by a letter and the others by their
code. A spelling may escape any other character as well, by the code units of sixteen bits that make
it up; two units in the right order spell one character, and a unit of such a pair alone spells
none.
-/

namespace Quoted

def hexValue? (c : Char) : Option Nat :=
  if '0' ≤ c ∧ c ≤ '9' then some (c.toNat - '0'.toNat)
  else if 'a' ≤ c ∧ c ≤ 'f' then some (c.toNat - 'a'.toNat + 10)
  else if 'A' ≤ c ∧ c ≤ 'F' then some (c.toNat - 'A'.toNat + 10)
  else none

def unit? (a b c d : Char) : Option Nat := do
  let a ← hexValue? a
  let b ← hexValue? b
  let c ← hexValue? c
  let d ← hexValue? d
  return ((a * 16 + b) * 16 + c) * 16 + d

def letterEscapes : List (Char × Char) :=
  [('"', '"'), ('\\', '\\'), ('/', '/'), ('b', '\x08'), ('f', '\x0c'), ('n', '\n'), ('r', '\r'),
   ('t', '\t')]

def letterEscape? (c : Char) : Option Char := letterEscapes.lookup c

/-- Whether a character may not stand in a string as it is. -/
def isControl (c : Char) : Bool := decide (c.toNat < 0x20)

/-- Splits a text behind an opening quote into the spelling up to the closing quote and the rest. -/
def scan? : List Char → Option (List Char × List Char)
  | [] => none
  | '"' :: rest => some ([], rest)
  | '\\' :: 'u' :: a :: b :: c :: d :: rest =>
    if (unit? a b c d).isSome then
      (scan? rest).map fun (s, r) => ('\\' :: 'u' :: a :: b :: c :: d :: s, r)
    else none
  | '\\' :: c :: rest =>
    if (letterEscape? c).isSome then (scan? rest).map fun (s, r) => ('\\' :: c :: s, r)
    else none
  | c :: rest =>
    if isControl c then none else (scan? rest).map fun (s, r) => (c :: s, r)

def isLeading (u : Nat) : Bool := decide (0xD800 ≤ u) && decide (u < 0xDC00)

def isTrailing (u : Nat) : Bool := decide (0xDC00 ≤ u) && decide (u < 0xE000)

def pair (leading trailing : Nat) : Char :=
  Char.ofNat (0x10000 + (leading - 0xD800) * 0x400 + (trailing - 0xDC00))

def unescapeChars? : List Char → Option (List Char)
  | [] => some []
  | '\\' :: 'u' :: a :: b :: c :: d :: '\\' :: 'u' :: e :: f :: g :: h :: rest => do
    let first ← unit? a b c d
    if isLeading first then
      let second ← unit? e f g h
      if isTrailing second then return pair first second :: (← unescapeChars? rest) else none
    else if isTrailing first then none
    else
      return Char.ofNat first ::
        (← unescapeChars? ('\\' :: 'u' :: e :: f :: g :: h :: rest))
  | '\\' :: 'u' :: a :: b :: c :: d :: rest => do
    let first ← unit? a b c d
    if isLeading first || isTrailing first then none
    else return Char.ofNat first :: (← unescapeChars? rest)
  | '\\' :: c :: rest => do
    let first ← letterEscape? c
    return first :: (← unescapeChars? rest)
  | '\\' :: [] => none
  | c :: rest => do return c :: (← unescapeChars? rest)

def unescape? (spelling : String) : Option String :=
  (unescapeChars? spelling.toList).map String.ofList

def hexDigit (n : Nat) : Char := Nat.digitChar n

def escapeChar (c : Char) : List Char :=
  if c = '"' then ['\\', '"']
  else if c = '\\' then ['\\', '\\']
  else if c = '\n' then ['\\', 'n']
  else if c = '\t' then ['\\', 't']
  else if c = '\r' then ['\\', 'r']
  else if c = '\x08' then ['\\', 'b']
  else if c = '\x0c' then ['\\', 'f']
  else if isControl c then
    ['\\', 'u', '0', '0', hexDigit (c.toNat / 16), hexDigit (c.toNat % 16)]
  else [c]

def escape (s : String) : String := String.ofList (s.toList.flatMap escapeChar)

end Quoted

/-! ### Numbers

A number is a whole part without leading zeros, and optionally a minus before it, a fraction and an
exponent behind it. As a natural number only a whole part alone will do. As a floating-point value
every number is rounded to the nearest one; a number that would round to an infinity is refused.
-/

namespace Numeral

/-- The digits at the start of a text, and what follows them. -/
def digits (cs : List Char) : List Char × List Char :=
  (cs.takeWhile Char.isDigit, cs.dropWhile Char.isDigit)

def someDigits? (cs : List Char) : Option (List Char × List Char) :=
  match digits cs with
  | ([], _) => none
  | parts => some parts

def wholePart? : List Char → Option (List Char × List Char)
  | '0' :: rest => some (['0'], rest)
  | cs => someDigits? cs

def fractionPart? : List Char → Option (List Char × List Char)
  | '.' :: rest => (someDigits? rest).map fun (ds, r) => ('.' :: ds, r)
  | cs => some ([], cs)

def signedDigits? : List Char → Option (List Char × List Char)
  | '+' :: rest => (someDigits? rest).map fun (ds, r) => ('+' :: ds, r)
  | '-' :: rest => (someDigits? rest).map fun (ds, r) => ('-' :: ds, r)
  | cs => someDigits? cs

/-- The letter of the exponent with digits behind it, or nothing. -/
def exponentPart? : List Char → Option (List Char × List Char)
  | 'e' :: rest => (signedDigits? rest).map fun (ds, r) => ('e' :: ds, r)
  | 'E' :: rest => (signedDigits? rest).map fun (ds, r) => ('E' :: ds, r)
  | cs => some ([], cs)

def unsigned? (cs : List Char) : Option (List Char × List Char) := do
  let (whole, cs) ← wholePart? cs
  let (fraction, cs) ← fractionPart? cs
  let (exponent, cs) ← exponentPart? cs
  return (whole ++ fraction ++ exponent, cs)

/-- Splits a text that starts with a number into the number and the rest. -/
def scan? : List Char → Option (List Char × List Char)
  | '-' :: rest => (unsigned? rest).map fun (n, r) => ('-' :: n, r)
  | cs => unsigned? cs

def digitsValue (ds : List Char) : Nat :=
  ds.foldl (fun n d => n * 10 + (d.toNat - '0'.toNat)) 0

def nat? (spelling : String) : Option Nat :=
  let cs := spelling.toList
  if cs.all Char.isDigit && !cs.isEmpty then some (digitsValue cs) else none

def exponentValue : List Char → Int
  | '-' :: ds => -(digitsValue ds : Int)
  | '+' :: ds => digitsValue ds
  | ds => digitsValue ds

/-- The digits behind a point at the start of a text, and what follows them. -/
def fractionDigits : List Char → List Char × List Char
  | '.' :: rest => digits rest
  | cs => ([], cs)

/-- The exact value of an unsigned number as digits and a power of ten. -/
def exact (cs : List Char) : Decimal :=
  let (whole, cs) := digits cs
  let (fraction, cs) := fractionDigits cs
  ⟨digitsValue (whole ++ fraction), exponentValue (cs.drop 1) - fraction.length⟩

def overflowMagnitude : Int := 310

def underflowMagnitude : Int := -330

/-- The bits of the floating-point value nearest to a decimal, unless that is an infinity. -/
def nearestBits? (d : Decimal) : Option Nat :=
  let magnitude := digitCount d.digits + d.exponent
  if d.digits = 0 ∨ magnitude < underflowMagnitude then some 0
  else if overflowMagnitude < magnitude then none
  else
    let bits := Binary64.nearestBits (Binary64.unitsOf (d.digits * Nat.pow 10 d.exponent.toNat))
      (Nat.pow 10 (-d.exponent).toNat)
    if bits < Binary64.infinityBits then some bits else none

def float? (spelling : String) : Option Float :=
  match spelling.toList with
  | '-' :: cs => (nearestBits? (exact cs)).map fun bits =>
    Binary64.toFloat (Binary64.signBit + bits)
  | cs => (nearestBits? (exact cs)).map Binary64.toFloat

end Numeral

end QuestionTree
