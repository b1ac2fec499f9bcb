import QuestionTree.Proofs.DecisionTree.Loading
import QuestionTree.Proofs.DecisionTree.Visited
import QuestionTree.Proofs.Json.Levels

/-!
# Texts that keep a decision tree

A tree that passes its checks is read back from its text if the masses and the scores of its nodes
are finite and the text has no more levels of nesting than a reader enters. What is read back has
the same schema, the same questions in the same order and the same nodes, and so leads every record
the same way. Only the handles of the questions are new. Whatever is read of a text is such a tree,
and as its handles are those that a reader gives, it is read back as it is.
-/

namespace QuestionTree

open Json

/-! ### Levels of nesting of a dump -/

theorem NodeInfo.levels_toJson (i : NodeInfo Float) : i.toJson.levels = 1 := by
  simp [toJson]

/-- A node takes up two levels with its information, and so does every step down. -/
theorem Node.levels_toJson {ι : Type} {write : ι → Json} (hwrite : ∀ i, (write i).levels = 1)
    (n : Node ι) : (n.toJson write).levels = 2 * n.height + 2 := by
  induction n with
  | leaf id info => simp [toJson, hwrite, height_leaf]
  | internal id info yes no ihYes ihNo =>
    simp [toJson, hwrite, height_internal, ihYes, ihNo]
    omega

theorem Definition.levels_toJson_le (d : Definition) : d.toJson.levels ≤ 2 := by
  have hvalues : (Json.ofList Json.ofString d.values).levels ≤ 0 + 1 :=
    levels_ofList_le fun s _ => (levels_ofString s).le
  simp [toJson]
  omega

theorem Acceptance.levels_toJson_le (a : Acceptance) : a.toJson.levels ≤ 2 := by
  cases a with
  | single value => simp [toJson]
  | set values =>
    have hvalues : (Json.ofList Json.ofNat values).levels ≤ 0 + 1 :=
      levels_ofList_le fun v _ => (levels_ofNat v).le
    simp [toJson]
    omega

theorem Question.levels_toJson_le (q : Question) : q.toJson.levels ≤ 3 := by
  have hkind := q.acceptance.levels_toJson_le
  simp [toJson]
  omega

namespace DecisionTree

/-- The levels of a dump are those of its nodes, and so they bound the height of the tree. -/
theorem Dump.levels_le_iff (d : Dump) :
    d.toJson.levels ≤ Decoder.maxNesting ↔ d.tree.height ≤ maxHeight := by
  obtain ⟨schema, questions, ⟨root?⟩⟩ := d
  have hschema : schema.toJson.levels ≤ 2 + 1 :=
    levels_ofList_le fun definition _ => definition.levels_toJson_le
  have hquestions : (Json.ofList Question.toJson questions).levels ≤ 3 + 1 :=
    levels_ofList_le fun q _ => q.levels_toJson_le
  rw [Decoder.maxNesting, maxHeight]
  cases root? with
  | none =>
    have hheight : (⟨none⟩ : BinaryTree (NodeInfo Float)).height = 0 := rfl
    simp [toJson, BinaryTree.toJson, Json.ofOption, hheight]
    omega
  | some root =>
    have hheight : (⟨some root⟩ : BinaryTree (NodeInfo Float)).height = root.height := rfl
    simp [toJson, BinaryTree.toJson, Json.ofOption, hheight,
      Node.levels_toJson NodeInfo.levels_toJson]
    omega

end DecisionTree

/-! ### Ways with other handles -/

/-- The questions of a way with their answers, and the leaf at its end. -/
def Path.shown {ν : Type} (p : Path ν) : List (Question × Answer) × Node (NodeInfo ν) :=
  (p.steps.map fun s => (s.1.item, s.2), p.leaf)

namespace Node

variable {ν : Type} {pool pool' : QuestionPool}

theorem shown_step (q : Handle Question) (answer : Answer) (x : Except Error (Path ν)) :
    Path.shown <$> (fun rest : Path ν => { rest with steps := (q, answer) :: rest.steps }) <$> x =
      (fun way => ((q.item, answer) :: way.1, way.2)) <$> Path.shown <$> x := by
  cases x <;> rfl

theorem pathFrom_congr (h : pool.questions = pool'.questions) (n : Node (NodeInfo ν))
    (record : Record) :
    Path.shown <$> n.pathFrom pool record = Path.shown <$> n.pathFrom pool' record := by
  induction n with
  | leaf id info => rfl
  | internal id info yes no ihYes ihNo =>
    rcases QuestionPool.require_congr h id with ⟨q, q', hq, hq', hitem⟩ | ⟨e, he, he'⟩
    · rw [pathFrom_internal hq, pathFrom_internal hq', shown_step, shown_step, hitem]
      by_cases hanswer : q'.item.evaluate record = .yes
      · rw [if_pos hanswer, if_pos hanswer, ihYes]
      · rw [if_neg hanswer, if_neg hanswer, ihNo]
    · rw [pathFrom, pathFrom, he, he']
      rfl

theorem reachable_congr (h : pool.questions = pool'.questions) (n : Node (NodeInfo ν))
    (record : Record) : n.reachable pool record = n.reachable pool' record := by
  induction n with
  | leaf id info => rfl
  | internal id info yes no ihYes ihNo =>
    rcases QuestionPool.require_congr h id with ⟨q, q', hq, hq', hitem⟩ | ⟨e, he, he'⟩
    · simp only [reachable, hq, hq', bind, Except.bind, hitem, ihYes, ihNo]
    · rw [reachable, reachable, he, he']
      rfl

end Node

namespace DecisionTree

/-- Whether a tree has the schema, the questions and the nodes of another one and leads every record
the same way. -/
structure Resembles (t t' : DecisionTree Float) : Prop where
  schema_eq : t.schema = t'.schema
  questions_eq : t.pool.questions = t'.pool.questions
  tree_eq : t.tree = t'.tree
  find_eq : ∀ record, t.find record = t'.find record
  findAll_eq : ∀ record, t.findAll record = t'.findAll record
  findPath_eq : ∀ record, Path.shown <$> t.findPath record = Path.shown <$> t'.findPath record

theorem resembles_rehandled (t : DecisionTree Float) : t.rehandled.Resembles t := by
  have hquestions : t.rehandled.pool.questions = t.pool.questions :=
    QuestionPool.questions_ofQuestions 0 t.pool.questions
  have htree : t.rehandled.tree = t.tree := rfl
  refine ⟨rfl, hquestions, htree, t.find_rehandled, fun record => ?_, fun record => ?_⟩
  · rw [findAll, findAll, htree]
    cases t.tree.requireRoot with
    | error e => rfl
    | ok root =>
      show Node.explore t.rehandled.pool record [root] = Node.explore t.pool record [root]
      rw [Node.explore_singleton, Node.explore_singleton]
      exact root.reachable_congr hquestions record
  · rw [findPath, findPath, htree]
    cases t.tree.requireRoot with
    | error e => rfl
    | ok root => exact root.pathFrom_congr hquestions record

/-- Whether a tree has passed its checks, made of a schema and of questions that were made or read
and of nodes whose numbers are words. -/
structure Formed (t : DecisionTree Float) : Prop where
  schema_built : t.schema.Built
  questions_built : ∀ q ∈ t.pool.questions, q.Built
  checked : ofParts t.schema t.pool t.root? = .ok t
  id_lt : ∀ root ∈ t.root?, ∀ v ∈ root.preorder, v.id < UInt64.size
  order_lt : ∀ root ∈ t.root?, ∀ v ∈ root.preorder, v.info.order < UInt32.size

/-- Whether the masses and the scores of a tree are finite and a reader enters all the levels of
nesting of its dump. -/
structure Portable (t : DecisionTree Float) : Prop where
  size_finite : ∀ root ∈ t.root?, ∀ v ∈ root.preorder, v.info.size.isFinite = true
  score_finite : ∀ root ∈ t.root?, ∀ v ∈ root.preorder, v.info.score.isFinite = true
  levels_le : t.dump.toJson.levels ≤ Decoder.maxNesting

variable {t : DecisionTree Float}

theorem Formed.dump_wellFormed (h : t.Formed) : t.dump.WellFormed :=
  ⟨h.schema_built, fun q hq => (h.questions_built q hq).wellFormed, h.id_lt⟩

theorem Formed.storable (h : t.Formed) (hportable : t.Portable) : Storable t.tree := by
  refine ⟨t.dump.levels_le_iff.1 hportable.levels_le, fun root hroot v hv => ?_⟩
  exact ⟨h.order_lt root hroot v hv, hportable.size_finite root hroot v hv,
    hportable.score_finite root hroot v hv⟩

theorem eq_of_ofParts {schema : Schema} {pool : QuestionPool}
    {root? : Option (Node (NodeInfo Float))} (h : ofParts schema pool root? = .ok t) :
    t = ⟨schema, pool, ⟨root?⟩⟩ :=
  Except.ok.inj (h.symm.trans (ofParts_congr rfl h))

theorem height_le_of_loadable {tree : BinaryTree (NodeInfo Float)}
    (h : ∀ root ∈ tree.root?, root.Loadable NodeInfo.Storable 125) : tree.height ≤ maxHeight := by
  obtain ⟨root?⟩ := tree
  cases root? with
  | none => exact Nat.zero_le _
  | some root => exact (storable_iff_fits.2 (h root rfl).1).1

/-- A tree of parts that are read has been formed and can be written for any reader. -/
theorem Dump.Loaded.formed_portable {d : Dump} (h : d.Loaded)
    (ht : ofParts d.schema (.ofQuestions 0 d.questions) d.tree.root? = .ok t) :
    t.Formed ∧ t.Portable := by
  obtain rfl := eq_of_ofParts ht
  have hquestions := QuestionPool.questions_ofQuestions 0 d.questions
  constructor
  · refine ⟨h.schema, fun q hq => ?_, ht, fun root hroot => (h.nodes root hroot).2,
      fun root hroot v hv => ((h.nodes root hroot).1.2 v hv).order_lt⟩
    exact h.questions q (hquestions ▸ hq)
  · refine ⟨fun root hroot v hv => ((h.nodes root hroot).1.2 v hv).size_finite,
      fun root hroot v hv => ((h.nodes root hroot).1.2 v hv).score_finite, ?_⟩
    exact (levels_le_iff _).2 (height_le_of_loadable h.nodes)

/-- A tree that is formed and can be written for any reader is read back as a tree that resembles
it, and what is read of any text is such a tree and is read back as it is. -/
theorem lossless :
    (∀ t : DecisionTree Float, t.Formed → t.Portable →
      ∃ t', read t.write = .ok t' ∧ t'.Resembles t) ∧
    ∀ (text : String) (t : DecisionTree Float), read text = .ok t →
      t.Formed ∧ t.Portable ∧ read t.write = .ok t := by
  constructor
  · intro t hformed hportable
    exact ⟨t.rehandled, read_write hformed.checked hformed.dump_wellFormed
      (hformed.storable hportable), t.resembles_rehandled⟩
  · intro text t h
    obtain ⟨d, hloaded, hparts⟩ := exists_dump_of_read h
    obtain ⟨hformed, hportable⟩ := hloaded.formed_portable hparts
    have hhandles : t.rehandled = t := by
      rw [eq_of_ofParts hparts, rehandled, QuestionPool.questions_ofQuestions]
    refine ⟨hformed, hportable, ?_⟩
    rw [read_write hformed.checked hformed.dump_wellFormed (hformed.storable hportable), hhandles]

end DecisionTree

namespace Sample

/-- One question about colors, under a handle that no reader gives. -/
def redOrBlue : DecisionTree Float :=
  ⟨⟨[⟨"color", ⟨["red", "blue"]⟩⟩]⟩, .ofQuestions 7 [⟨0, .single 0, "is \"red\"?"⟩],
    ⟨some (.internal 0 ⟨0, 2, 1⟩ (.leaf 0 ⟨1, 1, 0.5⟩) (.leaf 1 ⟨2, 1, 0.25⟩))⟩⟩

theorem ofParts_redOrBlue : DecisionTree.ofParts redOrBlue.schema redOrBlue.pool redOrBlue.root? =
    .ok redOrBlue := by
  have hset : redOrBlue.schema.requireSet = .ok () := by decide +kernel
  have hquestions : DecisionTree.checkQuestions redOrBlue.schema redOrBlue.pool = .ok () := by
    decide +kernel
  have hnodes : DecisionTree.checkNodes redOrBlue.pool redOrBlue.root? = .ok () := by
    decide +kernel
  rw [DecisionTree.ofParts, hset, hquestions, hnodes]
  rfl

theorem formed_redOrBlue : redOrBlue.Formed := by
  have haddressable : redOrBlue.schema.Addressable := ⟨by decide, by decide⟩
  have hsingle : Question.single redOrBlue.schema "color" "red" "is \"red\"?" =
      .ok ⟨0, .single 0, "is \"red\"?"⟩ := by
    decide +kernel
  refine ⟨⟨[⟨"color", ["red", "blue"]⟩], by decide +kernel⟩, fun q hq => ?_,
    ofParts_redOrBlue, ?_, ?_⟩
  · rw [List.mem_singleton.1 hq]
    exact .single haddressable hsingle
  · rintro root ⟨rfl⟩
    decide +kernel
  · rintro root ⟨rfl⟩
    decide +kernel

theorem portable_redOrBlue : redOrBlue.Portable := by
  refine ⟨?_, ?_, by decide +kernel⟩
  · rintro root ⟨rfl⟩
    decide +kernel
  · rintro root ⟨rfl⟩
    decide +kernel

/-- A text with lists in place of objects and a set out of order. -/
def listed : String :=
  "[[[\"color\",[\"red\",\"blue\"]]],[[0,\x7b\"Set\":[1,0,1]\x7d]]," ++
  "[[0,[0,2,1],[[0,[1,1e0,0.5],null],[1,[2,1,0.25],null]]]]]"

end Sample

namespace DecisionTree

open Sample

theorem lossless_redOrBlue : (∃ t', read redOrBlue.write = .ok t' ∧ t'.Resembles redOrBlue) ∧
    ∃ t, read listed = .ok t ∧ t.Formed ∧ t.Portable ∧ read t.write = .ok t ∧
      t.pool.questions = [⟨0, .set [0, 1], ""⟩] := by
  have hcheck : (read listed).toOption.map (fun t => t.pool.questions) =
      some [⟨0, .set [0, 1], ""⟩] := by
    decide +kernel
  refine ⟨lossless.1 redOrBlue formed_redOrBlue portable_redOrBlue, ?_⟩
  cases h : read listed with
  | error e =>
    rw [h] at hcheck
    cases hcheck
  | ok t =>
    rw [h] at hcheck
    obtain ⟨hformed, hportable, hread⟩ := lossless.2 listed t h
    exact ⟨t, rfl, hformed, hportable, hread, Option.some.inj hcheck⟩

end DecisionTree

end QuestionTree
