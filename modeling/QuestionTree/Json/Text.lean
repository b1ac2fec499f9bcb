import QuestionTree.Error
import QuestionTree.Json.Basic
import QuestionTree.Number.Decimal

/-!
# Writing and reading configuration texts

This is the notation that saving and loading rely on, and three of its rules decide what survives.

* Lists and objects may stand in one another up to 127 levels, `Decoder.maxNesting`; what is deeper
  is refused when it is read, and written all the same. What stands under a name that is passed over
  does not count.
* A finite floating-point value is written with the fewest digits that are nearest to it and to no
  other value, and a number is read as the value nearest to it, so the value comes back.
* There is no number for the other values. They are written as `null`, which is refused where a
  number is due.
-/

namespace QuestionTree

/-! ### Writing

A tree is written without gaps, numbers and strings as they are spelled, and a natural number in
decimal digits.
-/

namespace Json

def ofString (s : String) : Json := str (Quoted.escape s)

def ofNat (n : Nat) : Json := num n.repr

def ofFloat (x : Float) : Json :=
  if x.isFinite then num (NumberStyle.json.render x) else null

def ofList {α : Type} (item : α → Json) (items : List α) : Json := list (items.map item)

def ofOption {α : Type} (value : α → Json) : Option α → Json
  | none => null
  | some a => value a

def ofFields (fields : List (String × Json)) : Json :=
  object (fields.map fun (name, value) => (Quoted.escape name, value))

mutual

def chars : Json → List Char
  | null => "null".toList
  | bool true => "true".toList
  | bool false => "false".toList
  | num spelling => spelling.toList
  | str spelling => '"' :: spelling.toList ++ ['"']
  | arr items closed => '[' :: itemChars items ++ (if closed then [']'] else [])
  | obj members closed => '{' :: memberChars members ++ (if closed then ['}'] else [])
  | cut => []

def itemChars : List Json → List Char
  | [] => []
  | [item] => item.chars
  | item :: items => item.chars ++ ',' :: itemChars items

def memberChars : List (String × Json) → List Char
  | [] => []
  | [(name, value)] => '"' :: name.toList ++ '"' :: ':' :: value.chars
  | (name, value) :: members =>
    '"' :: name.toList ++ '"' :: ':' :: value.chars ++ ',' :: memberChars members

end

def write (j : Json) : String := String.ofList j.chars

/-! ### Reading

`Document.ofText` reads one value and notes whether only blanks follow it. The readers return the
tree together with the rest of the text, and no rest where the text breaks off. The first argument
bounds the recursion: a bracket uses up two of it and every other character at most one, so twice
the length of the text is never reached.
-/

/-- Whether a character may stand between the parts of a text. -/
def isGap (c : Char) : Bool := c == ' ' || c == '\n' || c == '\t' || c == '\r'

/-- The text from the first character on that is not a gap. -/
def skipGap (cs : List Char) : List Char := cs.dropWhile isGap

mutual

def readValue : Nat → List Char → Json × Option (List Char)
  | 0, _ => (cut, none)
  | bound + 1, cs =>
    match skipGap cs with
    | 'n' :: 'u' :: 'l' :: 'l' :: rest => (null, some rest)
    | 't' :: 'r' :: 'u' :: 'e' :: rest => (bool true, some rest)
    | 'f' :: 'a' :: 'l' :: 's' :: 'e' :: rest => (bool false, some rest)
    | '"' :: rest =>
      match Quoted.scan? rest with
      | some (spelling, rest) => (str (String.ofList spelling), some rest)
      | none => (cut, none)
    | '[' :: rest =>
      match skipGap rest with
      | ']' :: rest => (arr [] true, some rest)
      | rest =>
        let (items, rest) := readItems bound rest
        (arr items rest.isSome, rest)
    | '{' :: rest =>
      match skipGap rest with
      | '}' :: rest => (obj [] true, some rest)
      | rest =>
        let (members, rest) := readMembers bound rest
        (obj members rest.isSome, rest)
    | cs =>
      match Numeral.scan? cs with
      | some (spelling, rest) => (num (String.ofList spelling), some rest)
      | none => (cut, none)

def readItems : Nat → List Char → List Json × Option (List Char)
  | 0, _ => ([], none)
  | bound + 1, cs =>
    match readValue bound cs with
    | (item, none) => ([item], none)
    | (item, some rest) =>
      match skipGap rest with
      | ',' :: rest =>
        let (items, rest) := readItems bound rest
        (item :: items, rest)
      | ']' :: rest => ([item], some rest)
      | _ => ([item], none)

def readMembers : Nat → List Char → List (String × Json) × Option (List Char)
  | 0, _ => ([], none)
  | bound + 1, cs =>
    match skipGap cs with
    | '"' :: rest =>
      match Quoted.scan? rest with
      | none => ([], none)
      | some (name, rest) =>
        let name := String.ofList name
        match skipGap rest with
        | ':' :: rest =>
          match readValue bound rest with
          | (value, none) => ([(name, value)], none)
          | (value, some rest) =>
            match skipGap rest with
            | ',' :: rest =>
              let (members, rest) := readMembers bound rest
              ((name, value) :: members, rest)
            | '}' :: rest => ([(name, value)], some rest)
            | _ => ([(name, value)], none)
        | _ => ([(name, cut)], none)
    | _ => ([], none)

end

/-- The tree of a whole text, and whether nothing but a gap follows the value. -/
structure Document where
  tree : Json
  ended : Bool

def Document.ofText (text : String) : Document :=
  let cs := text.toList
  match readValue (2 * cs.length + 2) cs with
  | (tree, some rest) => ⟨tree, (skipGap rest).isEmpty⟩
  | (tree, none) => ⟨tree, false⟩

end Json

/-! ### Places for texts

A text is saved to a place and loaded from it again. A place that is not open to texts takes none,
and a place that nothing was saved to has none to give.
-/

inductive Place where
  | vacant
  | holds (text : String)
  | barred
  deriving DecidableEq, Repr

namespace Place

def save (p : Place) (text : String) : Except Error Place :=
  match p with
  | barred => .error .unableToWrite
  | _ => .ok (holds text)

def load : Place → Except Error String
  | holds text => .ok text
  | _ => .error .unableToFetch

end Place

end QuestionTree
