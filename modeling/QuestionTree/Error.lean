import QuestionTree.Number.Decimal
import QuestionTree.Text

/-!
# What can go wrong

A `Refusal` says why a value cannot be built, wherever its parts come from. A `ReadError` is the
first fault met on reading a configuration text, in the order in which the text is written. An
`Error` is the outcome of an operation that was not carried out. Each has one text.
-/

namespace QuestionTree

/-! ### Differences between schemas -/

/-- One way in which a first and a second schema differ. -/
inductive Difference where
  | onlyInFirst (key : String)
  | onlyInSecond (key : String)
  | index (key : String) (first second : Nat)
  | values (key : String) (first second : List String)
  deriving DecidableEq, Repr

namespace Difference

def quoted (name : String) : String := "\"" ++ name ++ "\""

def braced (symbols : List String) : String := "\x7b" ++ Text.spaced symbols ++ "\x7d"

def text : Difference → String
  | onlyInFirst key => "key " ++ quoted key ++ " only in first map"
  | onlyInSecond key => "key " ++ quoted key ++ " only in second map"
  | index key first second =>
    "key " ++ quoted key ++ " has index " ++ first.repr ++ " and " ++ second.repr
  | values key first second =>
    "key " ++ quoted key ++ " has values " ++ braced first ++ " and " ++ braced second

def textOfAll (differences : List Difference) : String :=
  String.intercalate "; " (differences.map text)

end Difference

/-! ### Errors -/

/-- Why a value cannot be built from its parts. -/
inductive Refusal where
  | tooFewValues (key : String) (count : Nat)
  | repeatedKey (key : String)
  | repeatedValue (key value : String)
  | emptyValueSet (key : String)
  | unknownWord (word purpose choices : String)
  deriving DecidableEq, Repr

/-- The first fault of a configuration text. -/
inductive ReadError where
  /-- The text breaks off, or a value is not of the form that is due at its place. -/
  | malformed
  | missingField (name : String)
  | duplicateField (name : String)
  /-- A case is named that is not among the expected ones. -/
  | unknownVariant (name : String) (expected : List String)
  /-- A value is of the right form and is refused all the same. -/
  | refused (refusal : Refusal)
  deriving DecidableEq, Repr

/-- Why an operation was not carried out. -/
inductive Error where
  | refused (refusal : Refusal)
  | unsetSchema
  | mismatchedCounts (keys values : Nat)
  | unknownKey (key : String)
  | unknownValue (key value : String) (available : List String)
  | keyOutOfRange (index count : Nat)
  | valueOutOfRange (key : String) (index : Nat)
  | emptyTree
  | questionOutOfRange (index count : Nat)
  | schemaMismatch (differences : List Difference)
  | allocationFailed (count : Nat)
  | invalidShape (rows columns count : Nat)
  | duplicateExample (position : Nat)
  | unableToWrite
  | unableToFetch
  | unableToRead (cause : ReadError)
  | invalidParameter (name expected passed : String)
  deriving DecidableEq, Repr

instance : Coe Refusal Error := ⟨Error.refused⟩

open Difference (quoted)

def Refusal.message : Refusal → String
  | tooFewValues key count =>
    "Key " ++ quoted key ++ " has " ++ count.repr ++ " values, at least 2 are required."
  | repeatedKey key => "Key " ++ quoted key ++ " is defined more than once."
  | repeatedValue key value =>
    "Value " ++ quoted value ++ " is defined more than once for key " ++ quoted key ++ "."
  | emptyValueSet key => "Question on key " ++ quoted key ++ " has no values."
  | unknownWord word purpose choices =>
    "Invalid value " ++ word ++ " passed for " ++ purpose ++ ", expected one of " ++ choices ++ "."

def ReadError.marked (name : String) : String := "`" ++ name ++ "`"

/-- The expected cases: two are joined by a word, more are listed. -/
def ReadError.choices : List String → String
  | [] => "there are no variants"
  | [a] => "expected " ++ marked a
  | [a, b] => "expected " ++ marked a ++ " or " ++ marked b
  | names => "expected one of " ++ String.intercalate ", " (names.map marked)

def ReadError.message : ReadError → String
  | malformed => "text is not of the expected form"
  | missingField name => "missing field " ++ marked name
  | duplicateField name => "duplicate field " ++ marked name
  | unknownVariant name expected =>
    "unknown variant " ++ marked name ++ ", " ++ choices expected
  | refused refusal => refusal.message

def Error.message : Error → String
  | refused refusal => refusal.message
  | unsetSchema => "The property map is not set."
  | mismatchedCounts keys values =>
    "Got " ++ keys.repr ++ " keys but " ++ values.repr ++ " value lists."
  | unknownKey key => "Key " ++ quoted key ++ " is not defined in the property map."
  | unknownValue key value available =>
    "Value " ++ quoted value ++ " is not defined for key " ++ quoted key ++
      ", available values: " ++ Text.spaced available ++ "."
  | keyOutOfRange index count =>
    "Key index " ++ index.repr ++ " is out of range for a property map with " ++ count.repr ++
      " keys."
  | valueOutOfRange key index =>
    "Value index " ++ index.repr ++ " is out of range for key " ++ quoted key ++ "."
  | emptyTree => "The decision tree is empty."
  | questionOutOfRange index count =>
    "Question index " ++ index.repr ++ " is out of range for a question list of size " ++
      count.repr ++ "."
  | schemaMismatch differences =>
    "Differences in property maps of training plan and example list: " ++
      Difference.textOfAll differences
  | allocationFailed count =>
    "Unable to allocate observation matrix of " ++ count.repr ++ " values."
  | invalidShape rows columns count =>
    "Observation matrix of shape " ++ rows.repr ++ "x" ++ columns.repr ++ " cannot hold " ++
      count.repr ++ " values."
  | duplicateExample position =>
    "Example at position " ++ position.repr ++ " is already a member of the list."
  | unableToWrite => "Unable to write to file: the place cannot hold a text"
  | unableToFetch => "Unable to read from a file the place holds no text"
  | unableToRead cause => "Unable to read from a file " ++ cause.message
  | invalidParameter name expected passed =>
    "Invalid parameter value passed for " ++ name ++ ", expected " ++ expected ++ " but " ++
      passed ++ " provided."

/-! ### Ranges of parameters

A parameter outside its range is refused with its name, the range and the value that was passed.
What is not a number lies outside every range.
-/

namespace Parameter

def checkRange (value low high : Float) (name : String) : Except Error Unit :=
  if value.isNaN || decide (value < low) || decide (high < value) then
    .error (.invalidParameter name
      ("real value within rang " ++ NumberStyle.plain.render low ++ " and " ++
        NumberStyle.plain.render high)
      (NumberStyle.plain.render value))
  else .ok ()

def infinity : Float := 1.0 / 0.0

def checkPositive (value : Float) (name : String) : Except Error Unit :=
  checkRange value 0.0 infinity name

def checkCount (value least : Nat) (name : String) : Except Error Unit :=
  if value < least then
    .error (.invalidParameter name ("integer of at least " ++ least.repr) value.repr)
  else .ok ()

end Parameter

/-! ### Log lines

What an operation reports while it runs is a list of lines, and an operation that ends in an error
keeps the lines from before the error.
-/

/-- How much a log line matters. -/
inductive LogLevel where
  | error
  | warning
  | info
  | debug
  deriving DecidableEq, Repr

structure LogLine where
  level : LogLevel
  text : String
  deriving DecidableEq, Repr

namespace LogLine

def levelName : LogLevel → String
  | .error => "ERROR"
  | .warning => "WARN"
  | .info => "INFO"
  | .debug => "DEBUG"

def render (l : LogLine) : String := levelName l.level ++ " " ++ l.text

end LogLine

/-- A result and the lines reported on the way to it. -/
structure Logged (α : Type) where
  lines : List LogLine
  result : Except Error α

namespace Logged

variable {α β : Type}

def ofExcept (result : Except Error α) : Logged α := ⟨[], result⟩

def report (line : LogLine) : Logged Unit := ⟨[line], .ok ()⟩

def andThen (x : Logged α) (f : α → Logged β) : Logged β :=
  match x.result with
  | .ok a => ⟨x.lines ++ (f a).lines, (f a).result⟩
  | .error e => ⟨x.lines, .error e⟩

instance : Monad Logged where
  pure a := ⟨[], .ok a⟩
  bind := andThen

instance : MonadLift (Except Error) Logged := ⟨ofExcept⟩

def fail (e : Error) : Logged α := ⟨[], .error e⟩

end Logged

end QuestionTree
