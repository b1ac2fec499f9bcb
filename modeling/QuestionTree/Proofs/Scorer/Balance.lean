import QuestionTree.Proofs.Number.Exact
import QuestionTree.Scorer

/-!
# What a split takes away

The gain of a split is what the score of the whole loses to the scores of its sides, if scores are
counted with the right weight: scores by entropy with the mass that they are the score of, scores by
squared deviations as they are. `ScorerKind.weight` is this weight, and `split_balance` the equation
between the whole, its sides and the gain, in arithmetic that does not round.
-/

namespace QuestionTree

variable {ν : Type} [ExactArithmetic ν]

namespace SplitScore

variable {left right : List (Example ν)} {father leftScore rightScore : ν}

theorem weightedGain_eq (hleft : 0 < Example.totalMass left)
    (hright : 0 < Example.totalMass right) :
    weightedGain left right father leftScore rightScore =
      father - Example.totalMass left / (Example.totalMass left + Example.totalMass right) *
          leftScore -
        Example.totalMass right / (Example.totalMass left + Example.totalMass right) *
          rightScore := by
  rw [weightedGain]
  exact if_neg (not_le.2 (add_pos hleft hright))

theorem mass_mul_weightedGain (hleft : 0 < Example.totalMass left)
    (hright : 0 < Example.totalMass right) :
    (Example.totalMass left + Example.totalMass right) *
        weightedGain left right father leftScore rightScore =
      (Example.totalMass left + Example.totalMass right) * father -
        Example.totalMass left * leftScore - Example.totalMass right * rightScore := by
  have htotal : 0 < Example.totalMass left + Example.totalMass right := add_pos hleft hright
  rw [weightedGain_eq hleft hright]
  field_simp

end SplitScore

theorem Id3.split_eq {left right : List (Example ν)} {a b : ν} (father : ν)
    (hleft : Example.totalMass left = a) (hright : Example.totalMass right = b) (ha : 0 < a)
    (hb : 0 < b) :
    scorer.split left right father =
      ⟨father - a / (a + b) * entropy left - b / (a + b) * entropy right, entropy left,
        entropy right⟩ := by
  rw [← hleft] at ha
  rw [← hright] at hb
  rw [← hleft, ← hright, ← SplitScore.weightedGain_eq ha hb]
  rfl

namespace ScorerKind

/-- What a score of some mass counts. -/
def weight : ScorerKind → ν → ν
  | id3, mass => mass
  | variance, _ => 1

theorem weight_pos (kind : ScorerKind) {mass : ν} (h : 0 < mass) : 0 < kind.weight mass := by
  cases kind with
  | id3 => exact h
  | variance => exact one_pos

/-- The score of the whole is shared out to the sides and the gain. -/
theorem split_balance (kind : ScorerKind) (father : ν) {left right : List (Example ν)}
    (hleft : 0 < Example.totalMass left) (hright : 0 < Example.totalMass right) :
    kind.weight (Example.totalMass left + Example.totalMass right) * father -
        kind.weight (Example.totalMass left) * (kind.scorer.split left right father).left -
        kind.weight (Example.totalMass right) * (kind.scorer.split left right father).right =
      kind.weight (Example.totalMass left + Example.totalMass right) *
        (kind.scorer.split left right father).gain := by
  cases kind with
  | id3 => exact (SplitScore.mass_mul_weightedGain hleft hright).symm
  | variance => simp [weight, scorer, Variance.scorer]

end ScorerKind

end QuestionTree
