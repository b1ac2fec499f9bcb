import QuestionTree.Plan
import QuestionTree.Example
import QuestionTree.Proofs.Schema.Comparison

/-!
# Plans and lists of examples as they are built

A plan starts without steps and checks each step that is added; a list of examples starts empty and
checks each example. `Built` says that a plan or a list has come about in this way, so that what is
checked on the way is true of every step and of every example.
-/

namespace QuestionTree

namespace TrainingPlan

/-- Whether a plan has come about by setting its budget and adding steps. -/
inductive Built : TrainingPlan Float → Prop where
  | blank {schema : Schema} {p : TrainingPlan Float} (hschema : schema.Built)
      (h : TrainingPlan.blank schema = .ok p) : Built p
  /-- A plan with another budget, which is a word. -/
  | setMaxLeaves {p : TrainingPlan Float} (hp : Built p) (n : Nat) (hn : n < UInt64.size) :
      Built { p with maxLeaves := n }
  | addStep {p p' : TrainingPlan Float} {s : Step Float} (hp : Built p)
      (h : p.addStep s = .ok p') : Built p'

variable {p : TrainingPlan Float}

theorem eq_of_addStep {p' : TrainingPlan Float} {s : Step Float} (h : p.addStep s = .ok p') :
    s.check p.schema = .ok () ∧ p' = { p with steps := p.steps ++ [s] } := by
  obtain ⟨⟨⟩, hcheck, h⟩ := bind_eq_ok_iff.1 h
  exact ⟨hcheck, (Except.ok.inj h).symm⟩

theorem Built.schema_built (h : p.Built) : p.schema.Built := by
  induction h with
  | blank hschema h =>
    obtain ⟨⟨⟩, _, h⟩ := bind_eq_ok_iff.1 h
    cases h
    exact hschema
  | setMaxLeaves _ n hn ih => exact ih
  | addStep _ h ih =>
    rw [(eq_of_addStep h).2]
    exact ih

theorem Built.requireSet (h : p.Built) : p.schema.requireSet = .ok () := by
  induction h with
  | blank hschema h =>
    obtain ⟨⟨⟩, hset, h⟩ := bind_eq_ok_iff.1 h
    cases h
    exact hset
  | setMaxLeaves _ n hn ih => exact ih
  | addStep _ h ih =>
    rw [(eq_of_addStep h).2]
    exact ih

theorem Built.checked (h : p.Built) : ∀ s ∈ p.steps, s.check p.schema = .ok () := by
  induction h with
  | blank hschema h =>
    obtain ⟨⟨⟩, _, h⟩ := bind_eq_ok_iff.1 h
    cases h
    intro s hs
    cases hs
  | setMaxLeaves _ n hn ih => exact ih
  | addStep _ h ih =>
    obtain ⟨hcheck, heq⟩ := eq_of_addStep h
    rw [heq]
    intro s hs
    rcases List.mem_append.1 hs with hs | hs
    · exact ih s hs
    · rw [List.mem_singleton.1 hs]
      exact hcheck

theorem Built.maxLeaves_lt (h : p.Built) : p.maxLeaves < UInt64.size := by
  induction h with
  | blank hschema h =>
    obtain ⟨⟨⟩, _, h⟩ := bind_eq_ok_iff.1 h
    cases h
    have hbudget : unlimited < UInt64.size := by decide
    exact hbudget
  | setMaxLeaves _ n hn _ => exact hn
  | addStep _ h ih =>
    rw [(eq_of_addStep h).2]
    exact ih

theorem validate_of_check {s : Step Float} {schema : Schema} (h : s.check schema = .ok ())
    {q : Handle Question} (hq : q ∈ s.pool.members) : q.item.validate schema = .ok () := by
  obtain ⟨⟨⟩, _, h⟩ := bind_eq_ok_iff.1 h
  obtain ⟨⟨⟩, _, h⟩ := bind_eq_ok_iff.1 h
  obtain ⟨⟨⟩, _, h⟩ := bind_eq_ok_iff.1 h
  exact forM_eq_ok_iff.1 h q.item (List.mem_map_of_mem hq)

end TrainingPlan

namespace ExampleList

/-- Whether a list has come about by adding examples. -/
inductive Built : ExampleList Float → Prop where
  | blank {schema : Schema} {l : ExampleList Float} (hschema : schema.Built)
      (h : ExampleList.blank schema = .ok l) : Built l
  | add {l l' : ExampleList Float} {e : Handle (Example Float)} (hl : Built l)
      (h : l.add e = .ok l') : Built l'

theorem holds_iff {ν : Type} {l : ExampleList ν} {e : Handle (Example ν)} :
    l.holds e = true ↔ e.tag ∈ l.members.map Handle.tag := by
  simp only [holds, Handle.same, List.any_eq_true, List.mem_map, beq_iff_eq]

variable {l : ExampleList Float}

theorem eq_of_add {l' : ExampleList Float} {e : Handle (Example Float)} (h : l.add e = .ok l') :
    l.schema.requireSame e.item.record.schema = .ok () ∧
      Parameter.checkRange e.item.mass 0.0 maxMass "n_obs" = .ok () ∧
      l.holds e = false ∧ l' = { l with members := l.members ++ [e] } := by
  obtain ⟨⟨⟩, hsame, h⟩ := bind_eq_ok_iff.1 h
  obtain ⟨⟨⟩, hrange, h⟩ := bind_eq_ok_iff.1 h
  by_cases hholds : l.holds e = true
  · rw [if_pos hholds] at h
    cases h
  · rw [if_neg hholds] at h
    exact ⟨hsame, hrange, Bool.eq_false_iff.2 hholds, (Except.ok.inj h).symm⟩

theorem Built.schema_built (h : l.Built) : l.schema.Built := by
  induction h with
  | blank hschema h =>
    obtain ⟨⟨⟩, _, h⟩ := bind_eq_ok_iff.1 h
    cases h
    exact hschema
  | add _ h ih =>
    rw [(eq_of_add h).2.2.2]
    exact ih

theorem Built.nodup_tags (h : l.Built) : (l.members.map Handle.tag).Nodup := by
  induction h with
  | blank hschema h =>
    obtain ⟨⟨⟩, _, h⟩ := bind_eq_ok_iff.1 h
    cases h
    exact List.nodup_nil
  | @add l l' e _ h ih =>
    obtain ⟨_, _, hholds, heq⟩ := eq_of_add h
    rw [heq, List.map_append, List.map_cons, List.map_nil, List.nodup_append]
    refine ⟨ih, List.nodup_singleton _, fun tag htag tag' htag' hsame => ?_⟩
    rw [hsame, List.mem_singleton.1 htag', ← holds_iff, hholds] at htag
    cases htag

end ExampleList

end QuestionTree
