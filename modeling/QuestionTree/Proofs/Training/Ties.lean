import QuestionTree.Proofs.Growth.Appended
import QuestionTree.Proofs.Growth.InOrder
import QuestionTree.Proofs.Training.Covering
import QuestionTree.Proofs.Training.Idle

/-!
# Training and the order of pools

Among the splits of a leaf that gain as much, training takes the one whose question stands first in
the list of the leaf. This is the order of the pool where a step finds the leaf open, and it may be
another one below a split of the same step. Therefore questions that are appended to pools and never
accepted leave the tree and the clusters alone only if such a leaf has one best split.
-/

namespace QuestionTree

variable {ν γ : Type}

namespace Leaf

variable [Arithmetic ν] {scorer : Scorer ν} {step : Step ν} {l : Leaf ν}

end Leaf

namespace Stage

variable [Arithmetic ν] {scorer : Scorer ν} {source : DrawSource γ} {maxLeaves : Nat}
  {examples : List (Handle (Example ν))} {steps : List (Step ν)} {draws : γ} {s s' : Stage ν γ}

end Stage

namespace Trainer

variable {source : DrawSource γ}

end Trainer

/-! ### Four things of different colors -/

namespace Sample

end Sample

namespace Trainer

open Sample

end Trainer

end QuestionTree
