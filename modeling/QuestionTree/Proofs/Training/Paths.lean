import QuestionTree.Proofs.Training.Admission

/-!
# The questions along a path

A trained tree asks no question twice on a way to a leaf. Growth only keeps a question of one step
from being put again below the node that it split; the same question may be offered once more from
another slot, through another handle or by a later step. But below a node all examples have answered
its question alike, so a question that is the same predicate leaves one side without examples, and
no step admits such a split.

What two questions say is the key that they look at and the values that they accept. Whether the one
value stands alone or in a set is of no account.
-/

namespace QuestionTree

variable {ν γ : Type}

namespace Question

/-- Whether two questions look at the same key and accept the same values. -/
structure Agrees (q q' : Question) : Prop where
  key_eq : q.key = q'.key
  values_iff : ∀ v, v ∈ q.acceptance.values ↔ v ∈ q'.acceptance.values

theorem agrees_iff {q q' : Question} :
    q.Agrees q' ↔ q.key = q'.key ∧ q.acceptance.values ⊆ q'.acceptance.values ∧
      q'.acceptance.values ⊆ q.acceptance.values := by
  constructor
  · intro h
    exact ⟨h.key_eq, fun v => (h.values_iff v).1, fun v => (h.values_iff v).2⟩
  · rintro ⟨hkey, hleft, hright⟩
    exact ⟨hkey, fun _ => ⟨fun hv => hleft hv, fun hv => hright hv⟩⟩

instance (q q' : Question) : Decidable (q.Agrees q') := decidable_of_iff' _ agrees_iff

namespace Agrees

@[refl]
theorem refl (q : Question) : q.Agrees q := ⟨rfl, fun _ => Iff.rfl⟩

theorem evaluate_eq {q q' : Question} (h : q.Agrees q') (record : Record) :
    q.evaluate record = q'.evaluate record := by
  have haccepts : ∀ v, q.accepts v = q'.accepts v := by
    intro v
    rw [Bool.eq_iff_iff]
    simpa [accepts, Acceptance.accepts] using h.values_iff v
  simp only [evaluate, h.key_eq, haccepts]

theorem affirms_eq {q q' : Question} (h : q.Agrees q') (e : Handle (Example ν)) :
    q.affirms e = q'.affirms e := by
  simp only [affirms, h.evaluate_eq]

end Agrees

example : (⟨0, .single 1, "alone"⟩ : Question).Agrees ⟨0, .set [1], "in a set"⟩ := by decide

end Question

/-! ### Ways through a tree -/

namespace Node

variable {pool : QuestionPool} {record : Record} {n : Node (NodeInfo ν)} {place : List Bool}
  {id : Nat} {q : Handle Question}

/-- Whether the node at a place is an inner one that asks a question of the pool by its number. -/
def AsksAt (pool : QuestionPool) (n : Node (NodeInfo ν)) (place : List Bool) (id : Nat)
    (q : Handle Question) : Prop :=
  (∃ info yes no, n.at? place = some (internal id info yes no)) ∧ pool.require id = .ok q

/-- Whether no question of a node agrees with one above it. -/
def AsksOnce (pool : QuestionPool) (n : Node (NodeInfo ν)) : Prop :=
  ∀ place below id id' q q', below ≠ [] → n.AsksAt pool place id q →
    n.AsksAt pool (place ++ below) id' q' → ¬ q.item.Agrees q'.item

theorem asksAt_nil {info : NodeInfo ν} {yes no : Node (NodeInfo ν)}
    (hq : pool.require id = .ok q) : (internal id info yes no).AsksAt pool [] id q :=
  ⟨⟨info, yes, no, rfl⟩, hq⟩

theorem asksAt_cons {id' : Nat} {info : NodeInfo ν} {yes no : Node (NodeInfo ν)} (branch : Bool)
    (h : (if branch then yes else no).AsksAt pool place id q) :
    (internal id' info yes no).AsksAt pool (branch :: place) id q := by
  cases branch <;> exact h

theorem AsksOnce.child {info : NodeInfo ν} {yes no : Node (NodeInfo ν)}
    (h : (internal id info yes no).AsksOnce pool) (branch : Bool) :
    (if branch then yes else no).AsksOnce pool := by
  intro place below idAbove idBelow q q' hbelow habove hasked
  exact h (branch :: place) below idAbove idBelow q q' hbelow (asksAt_cons branch habove)
    (asksAt_cons branch hasked)

theorem exists_child_path {info : NodeInfo ν} {yes no : Node (NodeInfo ν)}
    (hq : pool.require id = .ok q) {path : Path ν}
    (hpath : (internal id info yes no).pathFrom pool record = .ok path) :
    ∃ (branch : Bool) (rest : Path ν),
      (if branch then yes else no).pathFrom pool record = .ok rest ∧
      path.steps = (q, q.item.evaluate record) :: rest.steps := by
  rw [pathFrom_internal hq] at hpath
  obtain ⟨rest, hrest, rfl⟩ := map_eq_ok_iff.1 hpath
  by_cases hanswer : q.item.evaluate record = .yes
  · rw [if_pos hanswer] at hrest
    exact ⟨true, rest, hrest, rfl⟩
  · rw [if_neg hanswer] at hrest
    exact ⟨false, rest, hrest, rfl⟩

theorem Asks.child {info : NodeInfo ν} {yes no : Node (NodeInfo ν)}
    (h : (internal id info yes no).Asks pool) (branch : Bool) :
    (if branch then yes else no).Asks pool := by
  cases branch with
  | true => exact h.2.1
  | false => exact h.2.2

theorem exists_asksAt_of_mem_steps (hasks : n.Asks pool) {path : Path ν}
    (hpath : n.pathFrom pool record = .ok path) {s : Handle Question × Answer}
    (hs : s ∈ path.steps) : ∃ place id, n.AsksAt pool place id s.1 := by
  induction n generalizing path with
  | leaf id info =>
    cases hpath
    exact absurd hs List.not_mem_nil
  | internal id info yes no ihYes ihNo =>
    obtain ⟨q, hq⟩ := exists_require hasks.1
    obtain ⟨branch, rest, hrest, hsteps⟩ := exists_child_path hq hpath
    rw [hsteps] at hs
    obtain rfl | hs := List.mem_cons.1 hs
    · exact ⟨[], id, asksAt_nil hq⟩
    · have hchild : ∃ place id, (if branch then yes else no).AsksAt pool place id s.1 := by
        cases branch with
        | true => exact ihYes hasks.2.1 hrest hs
        | false => exact ihNo hasks.2.2 hrest hs
      obtain ⟨place, id', hat⟩ := hchild
      exact ⟨branch :: place, id', asksAt_cons branch hat⟩

theorem AsksOnce.pairwise_steps (h : n.AsksOnce pool) (hasks : n.Asks pool) {path : Path ν}
    (hpath : n.pathFrom pool record = .ok path) :
    path.steps.Pairwise fun s s' => ¬ s.1.item.Agrees s'.1.item := by
  induction n generalizing path with
  | leaf id info =>
    cases hpath
    exact List.Pairwise.nil
  | internal id info yes no ihYes ihNo =>
    obtain ⟨q, hq⟩ := exists_require hasks.1
    obtain ⟨branch, rest, hrest, hsteps⟩ := exists_child_path hq hpath
    rw [hsteps]
    refine List.Pairwise.cons (fun s hs => ?_) ?_
    · obtain ⟨place, id', hat⟩ := exists_asksAt_of_mem_steps (hasks.child branch) hrest hs
      exact h [] (branch :: place) id id' q s.1 (List.cons_ne_nil branch place) (asksAt_nil hq)
        (asksAt_cons branch hat)
    · cases branch with
      | true => exact ihYes (h.child true) hasks.2.1 hrest
      | false => exact ihNo (h.child false) hasks.2.2 hrest

end Node

/-! ### Trained trees -/

namespace Outcome

/-- Whether a trained tree asks no question a second time below a node. -/
structure AsksOnce (o : Outcome ν) (examples : ExampleList ν) : Prop where
  /-- The questions of a node and of a node below it differ in their keys or in the values that they
  accept, and there is an example below both that answers them differently. -/
  told_apart : ∀ place below id info yes no id' info' yes' no', below ≠ [] →
    o.tree.nodeAt? place = some (.internal id info yes no) →
    o.tree.nodeAt? (place ++ below) = some (.internal id' info' yes' no') →
    ∃ q q', o.tree.pool.require id = .ok q ∧ o.tree.pool.require id' = .ok q' ∧
      ¬ q.item.Agrees q'.item ∧
      ∃ e ∈ o.passing examples (place ++ below), q.item.affirms e ≠ q'.item.affirms e
  /-- A node has another number than the nodes below it. -/
  id_ne : ∀ place below id info yes no id' info' yes' no', below ≠ [] →
    o.tree.nodeAt? place = some (.internal id info yes no) →
    o.tree.nodeAt? (place ++ below) = some (.internal id' info' yes' no') → id ≠ id'
  /-- No two questions on the way of a record agree. -/
  ways : ∀ record path, o.tree.findPath record = .ok path →
    path.steps.Pairwise fun s s' => ¬ s.1.item.Agrees s'.1.item

theorem passing_append_subset (o : Outcome ν) (examples : ExampleList ν)
    (place below : List Bool) : o.passing examples (place ++ below) ⊆ o.passing examples place := by
  intro e he
  obtain ⟨hmem, hpasses⟩ := List.mem_filter.1 he
  refine List.mem_filter.2 ⟨hmem, ?_⟩
  unfold DecisionTree.passes at hpasses ⊢
  split at hpasses
  · exact List.isPrefixOf_iff_prefix.2
      ((List.prefix_append place below).trans (List.isPrefixOf_iff_prefix.1 hpasses))
  · exact absurd hpasses Bool.false_ne_true

namespace Readmits

variable {o : Outcome Float} {scorer : Scorer Float} {examples : ExampleList Float}
  {step : Step Float} {q : Question} {place : List Bool} {v yes no : NodeInfo Float}

theorem affirms_eq (h : o.Readmits scorer examples step q place v yes no) {branch : Bool}
    {below : List Bool} {e : Handle (Example Float)}
    (he : e ∈ o.passing examples (place ++ branch :: below)) : q.affirms e = branch := by
  rw [List.append_cons] at he
  have hchild := o.passing_append_subset examples (place ++ [branch]) below he
  cases branch with
  | true =>
    rw [h.yes_passing] at hchild
    exact List.of_mem_filter hchild
  | false =>
    rw [h.no_passing] at hchild
    simpa using List.of_mem_filter hchild

theorem exists_answer (h : o.Readmits scorer examples step q place v yes no) (answer : Bool) :
    ∃ e ∈ o.passing examples place, q.affirms e = answer := by
  have hside : o.passing examples (place ++ answer :: []) ≠ [] := by
    cases answer with
    | true => exact h.yes_ne_nil
    | false => exact h.no_ne_nil
  obtain ⟨e, he⟩ := List.exists_mem_of_ne_nil _ hside
  exact ⟨e, o.passing_append_subset examples place [answer] he, h.affirms_eq he⟩

/-- An example below a node tells its question from that of a node farther down. -/
theorem exists_affirms_ne {step' : Step Float} {q' : Question} {below : List Bool}
    {v' yes' no' : NodeInfo Float} (h : o.Readmits scorer examples step q place v yes no)
    (hbelow : below ≠ [])
    (h' : o.Readmits scorer examples step' q' (place ++ below) v' yes' no') :
    ∃ e ∈ o.passing examples (place ++ below), q.affirms e ≠ q'.affirms e := by
  obtain ⟨branch, rest, rfl⟩ := List.exists_cons_of_ne_nil hbelow
  obtain ⟨e, he, hanswer⟩ := h'.exists_answer !branch
  refine ⟨e, he, ?_⟩
  rw [h.affirms_eq he, hanswer]
  exact (Bool.not_ne_self branch).symm

end Readmits

end Outcome

namespace Trainer

variable {t : Trainer Float} {source : DrawSource γ} {draws : γ} {examples : ExampleList Float}
  {o : Outcome Float}

/-- A trained tree asks no question a second time below a node. -/
theorem asksOnce_of_train (h : t.train source draws examples = .ok o) : o.AsksOnce examples := by
  have happart : ∀ place below id info yes no id' info' yes' no', below ≠ [] →
      o.tree.nodeAt? place = some (.internal id info yes no) →
      o.tree.nodeAt? (place ++ below) = some (.internal id' info' yes' no') →
      ∃ q q', o.tree.pool.require id = .ok q ∧ o.tree.pool.require id' = .ok q' ∧
        ¬ q.item.Agrees q'.item ∧
        ∃ e ∈ o.passing examples (place ++ below), q.item.affirms e ≠ q'.item.affirms e := by
    intro place below id info yes no id' info' yes' no' hbelow hu hv
    obtain ⟨_, _, q, _, _, hq, hadmits⟩ := readmits_of_train h hu
    obtain ⟨_, _, q', _, _, hq', hadmits'⟩ := readmits_of_train h hv
    obtain ⟨e, he, hne⟩ := hadmits.exists_affirms_ne hbelow hadmits'
    exact ⟨q, q', hq, hq', fun hagrees => hne (hagrees.affirms_eq e), e, he, hne⟩
  have hunlike : ∀ place below id id' q q', below ≠ [] → o.tree.pool.require id = .ok q →
      o.tree.pool.require id' = .ok q' →
      (∃ info yes no, o.tree.nodeAt? place = some (.internal id info yes no)) →
      (∃ info yes no, o.tree.nodeAt? (place ++ below) = some (.internal id' info yes no)) →
      ¬ q.item.Agrees q'.item := by
    rintro place below id id' q q' hbelow hq hq' ⟨_, _, _, hu⟩ ⟨_, _, _, hv⟩
    obtain ⟨p, p', hp, hp', hne, _⟩ := happart _ _ _ _ _ _ _ _ _ _ hbelow hu hv
    obtain rfl : q = p := Except.ok.inj (hq.symm.trans hp)
    obtain rfl : q' = p' := Except.ok.inj (hq'.symm.trans hp')
    exact hne
  refine ⟨happart, ?_, ?_⟩
  · rintro place below id info yes no _ info' yes' no' hbelow hu hv rfl
    obtain ⟨q, _, hq, _⟩ := happart _ _ _ _ _ _ _ _ _ _ hbelow hu hv
    exact hunlike place below id id q q hbelow hq hq ⟨_, _, _, hu⟩ ⟨_, _, _, hv⟩ (.refl q.item)
  · intro record path hpath
    obtain ⟨root, hmade⟩ := exists_made_of_train h
    rw [DecisionTree.findPath_eq_pathFrom hmade.root?_eq] at hpath
    refine Node.AsksOnce.pairwise_steps ?_ hmade.asks hpath
    rintro place below id id' q q' hbelow ⟨hu, hq⟩ ⟨hv, hq'⟩
    simp only [← DecisionTree.nodeAt?_eq hmade.root?_eq] at hu hv
    exact hunlike place below id id' q q' hbelow hq hq' hu hv

end Trainer

/-! ### Three things of different colors -/

namespace Sample

/-- One key with three values. -/
def shades : Schema := ⟨[⟨"color", ⟨["red", "green", "blue"]⟩⟩]⟩

/-- A red, a green and a blue thing that show a zero, a one and a five. -/
def shadedList : ExampleList Float :=
  ⟨shades, Handle.ofList 0
    [⟨⟨shades, [some 0]⟩, Box.single 0, 1⟩, ⟨⟨shades, [some 1]⟩, Box.single 1, 1⟩,
      ⟨⟨shades, [some 2]⟩, Box.single 5, 1⟩]⟩

/-- Asks whether a thing is blue. -/
def askBlue : Handle Question := ⟨7, ⟨0, .single 2, "blue"⟩⟩

/-- Asks whether the color of a thing is in the set that holds blue only. -/
def askBlueSet : Handle Question := ⟨8, ⟨0, .set [2], "blue, as a set"⟩⟩

/-- Asks whether a thing is red. -/
def askRed : Handle Question := ⟨9, ⟨0, .single 0, "red"⟩⟩

/-- Asks for the blue things in three steps, and for the red ones in between. -/
def shadedTrainer : Trainer Float :=
  ⟨⟨shades, 4, [.ofPool "blue" ⟨[askBlue]⟩, .ofPool "blue, as a set" ⟨[askBlueSet]⟩,
    .ofPool "red" ⟨[askRed]⟩, .ofPool "blue again" ⟨[askBlue]⟩]⟩, ScorerKind.variance.scorer, 0⟩

end Sample

namespace Trainer

open Sample in
/-- The training that is offered one question in three steps puts it once. -/
theorem asksOnce_of_shades : ∃ o, shadedTrainer.train firstPlaces () shadedList = .ok o ∧
    o.summary.splitCount = 2 ∧ o.AsksOnce shadedList := by
  have hcount : (shadedTrainer.train firstPlaces () shadedList).toOption.map
      (·.summary.splitCount) = some 2 := by
    decide +kernel
  obtain ⟨o, ho, hsplit⟩ := Outcome.exists_of_splitCount hcount
  exact ⟨o, ho, hsplit, asksOnce_of_train ho⟩

end Trainer

end QuestionTree
