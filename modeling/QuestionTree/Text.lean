/-!
# Texts

The layout of listings, and texts without blanks at either end.
-/

namespace QuestionTree

namespace Text

/-! ### Layout of listings

Numbers in listings are set flush right in a column of a given width, and lists are written with a
separator between their items.
-/

/-- The text set flush right in a column. A longer text is left as it is. -/
def flushRight (width : Nat) (s : String) : String :=
  String.ofList (s.toList.leftpad width ' ')

def blanks (n : Nat) : String := String.ofList (List.replicate n ' ')

def spaced (texts : List String) : String := String.intercalate " " texts

def enumeration (texts : List String) : String := String.join (texts.map (· ++ ", "))

def lines (texts : List String) : String := String.join (texts.map (· ++ "\n"))

/-! ### Blank characters

A blank is a character of the Unicode property White_Space.
-/

/-- The ranges of the property White_Space, first and last code point. -/
def blankRanges : List (Nat × Nat) :=
  [(0x9, 0xD), (0x20, 0x20), (0x85, 0x85), (0xA0, 0xA0), (0x1680, 0x1680), (0x2000, 0x200A),
   (0x2028, 0x2029), (0x202F, 0x202F), (0x205F, 0x205F), (0x3000, 0x3000)]

def isBlank (c : Char) : Bool :=
  blankRanges.any fun range => decide (range.1 ≤ c.toNat) && decide (c.toNat ≤ range.2)

/-- The characters from the first to the last one that is not blank. -/
def trimChars (cs : List Char) : List Char :=
  ((cs.dropWhile isBlank).reverse.dropWhile isBlank).reverse

def trim (s : String) : String := String.ofList (trimChars s.toList)

end Text

end QuestionTree
