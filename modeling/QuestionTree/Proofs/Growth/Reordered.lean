import QuestionTree.Proofs.Growth.Twin
import Mathlib.Data.List.Perm.Subperm

/-!
# Growth of reordered examples

A scorer is blind to the order of a list of examples if neither the mass nor the rating of any
examples of the list depends on it. The leaves of two runs on reorderings of the list then hold the
same examples up to their order: a question divides them alike, the trials of a search come out
alike, and so the runs go side by side.
-/

namespace QuestionTree

variable {ν γ : Type}

/-- Whether the mass of examples of a list and their rating do not depend on their order. -/
structure Scorer.OrderBlind [Arithmetic ν] (scorer : Scorer ν)
    (examples : List (Handle (Example ν))) : Prop where
  mass_eq : ∀ {xs ys : List (Handle (Example ν))}, xs.Subperm examples → xs.Perm ys →
    Example.totalMass (xs.map Handle.item) = Example.totalMass (ys.map Handle.item)
  score_eq : ∀ {xs ys : List (Handle (Example ν))}, xs.Subperm examples → xs.Perm ys →
    scorer.score (xs.map Handle.item) = scorer.score (ys.map Handle.item)
  split_eq : ∀ {yes no yes' no' : List (Handle (Example ν))}, (yes ++ no).Subperm examples →
    yes.Perm yes' → no.Perm no' → ∀ score,
      scorer.split (yes.map Handle.item) (no.map Handle.item) score =
        scorer.split (yes'.map Handle.item) (no'.map Handle.item) score

/-- Whether two leaves are the same up to the order of their examples, which are some of a list. -/
structure Leaf.Reordered (examples : List (Handle (Example ν))) (l l' : Leaf ν) : Prop where
  face_eq : l.face = l'.face
  perm : l.members.Perm l'.members
  known : l.members.Subperm examples

namespace Leaf.Reordered

variable {examples : List (Handle (Example ν))} {l l' : Leaf ν}

theorem relabel (h : l.Reordered examples l') : l.Matched (Reordered examples) l' := fun es =>
  ⟨congrArg (fun l => { l with entries := es }) h.face_eq, h.perm, h.known⟩

/-- Splits with the same face whose sides are reordered divide reordered leaves alike. -/
theorem twins {c c' : Candidate ν} (h : c.leaf.Reordered examples c'.leaf)
    (hface : c.face = c'.face) (hyes : c.yes.members.Perm c'.yes.members)
    (hyesKnown : c.yes.members.Subperm examples) (hno : c.no.members.Perm c'.no.members)
    (hnoKnown : c.no.members.Subperm examples) : c.Twins (Reordered examples) c' where
  leaf := h
  face_eq := hface
  yes i := ⟨(congrArg (fun c => (Growth.commitOf i c).yes.face) hface :), hyes, hyesKnown⟩
  no i := ⟨(congrArg (fun c => (Growth.commitOf i c).no.face) hface :), hno, hnoKnown⟩

variable [Arithmetic ν] {scorer : Scorer ν}

theorem attempt (h : l.Reordered examples l') (hblind : scorer.OrderBlind examples)
    (step : Step ν) (slot : Nat) (entry : Entry) :
    Option.Rel (Candidate.Twins (Reordered examples)) (l.attempt scorer step slot entry).candidate?
      (l'.attempt scorer step slot entry).candidate? := by
  have hscore : l.score = l'.score := (congrArg Leaf.score h.face_eq :)
  have hyes := h.perm.filter entry.question.item.affirms
  have hno := h.perm.filter fun e => !entry.question.item.affirms e
  have hboth := (List.filter_append_perm entry.question.item.affirms l.members).subperm.trans
    h.known
  rw [Leaf.attempt, Leaf.attempt, Leaf.divide_eq, Leaf.divide_eq, ← hscore]
  generalize l.members.filter entry.question.item.affirms = yes at hyes hboth ⊢
  generalize l'.members.filter entry.question.item.affirms = yes' at hyes ⊢
  generalize (l.members.filter fun e => !entry.question.item.affirms e) = no at hno hboth ⊢
  generalize (l'.members.filter fun e => !entry.question.item.affirms e) = no' at hno ⊢
  have hyesKnown : yes.Subperm examples := (List.sublist_append_left ..).subperm.trans hboth
  have hnoKnown : no.Subperm examples := (List.sublist_append_right ..).subperm.trans hboth
  dsimp only
  rw [← hblind.mass_eq hyesKnown hyes, ← hblind.mass_eq hnoKnown hno,
    ← hblind.split_eq hboth hyes hno]
  split
  · exact .none
  · split
    · exact .none
    · split
      · exact .none
      · split
        · refine .some (twins h ?_ hyes hyesKnown hno hnoKnown)
          simp only [Candidate.face, Side.face, h.face_eq]
        · exact .none

theorem mirrors (hblind : scorer.OrderBlind examples) :
    Leaf.Mirrors scorer (Reordered examples) where
  face_eq := Reordered.face_eq
  relabel := Reordered.relabel
  attempt h := h.attempt hblind

end Leaf.Reordered

end QuestionTree
