import QuestionTree.Example
import QuestionTree.Json.Decoder
import QuestionTree.Json.Text

/-!
# Scorers

A scorer rates how alike the observations of some examples are; the lower the score, the more alike
they are. The gain of a split is what the score of the whole loses when it is split into two sides.
-/

namespace QuestionTree

structure SplitScore (ν : Type) where
  gain : ν
  left : ν
  right : ν

/-- A way to rate examples and their splits. -/
structure Scorer (ν : Type) where
  name : String
  score : List (Example ν) → ν
  /-- The rating of a split into two sides, given the score of the whole. -/
  split : List (Example ν) → List (Example ν) → ν → SplitScore ν

namespace SplitScore

variable {ν : Type} [Arithmetic ν]

/-- The whole less the sides, each weighted by its share of the mass. Without mass nothing is
gained. -/
def weightedGain (left right : List (Example ν)) (father leftScore rightScore : ν) : ν :=
  let leftMass := Example.totalMass left
  let rightMass := Example.totalMass right
  let total := leftMass + rightMass
  if total ≤ 0 then 0
  else father - leftMass / total * leftScore - rightMass / total * rightScore

end SplitScore

/-! ### Scoring by entropy

Each distinct box of observations is a symbol that occurs with the mass of its examples. The score
is the entropy of these symbols in bits. The terms are added in the order of the masses, so the sum
does not depend on the order in which the symbols are counted out.
-/

namespace Id3

variable {ν : Type} [Arithmetic ν]

def entropyTerm (count total : ν) : ν :=
  if count ≤ 0 ∨ total ≤ 0 then 0
  else
    let p := count / total;
    -p * Arithmetic.log2 p

/-- The masses counted so far with the mass of one more box. -/
def count (box : Box ν) (mass : ν) : List (Box ν × ν) → List (Box ν × ν)
  | [] => [(box, 0 + mass)]
  | (b, n) :: rest =>
    if b.same box then (b, n + mass) :: rest else (b, n) :: count box mass rest

def counts (examples : List (Example ν)) : List (Box ν × ν) :=
  examples.foldl (fun counted e => count e.box e.mass counted) []

/-- The entropy of masses, which may be given in any order. -/
def entropyOfMasses (masses : List ν) (total : ν) : ν :=
  Arithmetic.total
    ((masses.mergeSort fun a b => compare a b != .gt).map fun mass => entropyTerm mass total)

def entropy (examples : List (Example ν)) : ν :=
  let total := examples.foldl (fun total e => total + e.mass) 0
  if total ≤ 0 then 0 else entropyOfMasses ((counts examples).map Prod.snd) total

def scorer : Scorer ν where
  name := "ID3"
  score := entropy
  split left right father :=
    let leftScore := entropy left
    let rightScore := entropy right
    ⟨SplitScore.weightedGain left right father leftScore rightScore, leftScore, rightScore⟩

end Id3

/-! ### Scoring by squared deviations

The boxes are read as vectors, shorter ones filled up with zeros. The score is the sum of the
squared deviations from their mean, each weighted by the mass of its example: the sum of the squares
less the square of the sum over the mass.
-/

namespace Variance

variable {ν : Type} [Arithmetic ν]

/-- What the score is computed from. -/
structure Moments (ν : Type) where
  sums : List ν
  squares : ν
  mass : ν

/-- Adds the values of one vector to the sums and the squares. -/
def addValues (mass : ν) : List ν → List ν → ν → List ν × ν
  | s :: sums, v :: values, squares =>
    let (sums, squares) := addValues mass sums values (squares + mass * v * v)
    ((s + mass * v) :: sums, squares)
  | sums, _, squares => (sums, squares)

def Moments.add (m : Moments ν) (e : Example ν) : Moments ν :=
  let (sums, squares) := addValues e.mass m.sums e.box.data m.squares
  ⟨sums, squares, m.mass + e.mass⟩

def dimension (examples : List (Example ν)) : Nat :=
  (examples.map fun e => e.box.size).foldl max 0

def moments (examples : List (Example ν)) : Moments ν :=
  examples.foldl Moments.add ⟨List.replicate (dimension examples) 0, 0, 0⟩

/-- The sum of the squared deviations of some examples, zero if they have no mass. -/
def sumOfSquares (examples : List (Example ν)) : ν :=
  let m := moments examples
  if m.mass ≤ 0 then 0
  else
    let between := Arithmetic.total (m.sums.map fun s => s * s) / m.mass
    Arithmetic.clampAtZero (m.squares - between)

def scorer : Scorer ν where
  name := "Variance"
  score := sumOfSquares
  split left right father :=
    let leftScore := sumOfSquares left
    let rightScore := sumOfSquares right
    ⟨father - leftScore - rightScore, leftScore, rightScore⟩

end Variance

/-! ### The scorers by name

A scorer is chosen by its name. In a command the case of ASCII letters does not matter, in a
configuration text it does.
-/

/-- The scorers that can be chosen. -/
inductive ScorerKind where
  | id3
  | variance
  deriving DecidableEq, Repr

namespace ScorerKind

def all : List ScorerKind := [id3, variance]

def name : ScorerKind → String
  | id3 => "Id3"
  | variance => "Variance"

def ofName (text : String) : Except Refusal ScorerKind :=
  match all.find? (·.name.toLower == text.toLower) with
  | some kind => .ok kind
  | none => .error (.unknownWord text "ScorerKind" (Text.enumeration (all.map name)))

def scorer {ν : Type} [Arithmetic ν] : ScorerKind → Scorer ν
  | id3 => Id3.scorer
  | variance => Variance.scorer

def decoder : Decoder ScorerKind := Decoder.variant (all.map fun kind => (kind.name, .nothing kind))

def toJson (kind : ScorerKind) : Json := Json.ofString kind.name

end ScorerKind

end QuestionTree
