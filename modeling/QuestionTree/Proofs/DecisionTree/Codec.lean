import QuestionTree.DecisionTree
import QuestionTree.Proofs.BinaryTree.Codec
import QuestionTree.Proofs.DecisionTree.Way
import QuestionTree.Proofs.Question.Codec
import QuestionTree.Proofs.Schema.Codec

/-!
# Decision trees that are written and read back

The schema and the questions of a tree are always read back. Its nodes are if their masses and
scores are finite, because other values are written as no number, and if the tree is not too high:
the root lies three levels deep and the levels of nesting are limited. What is read has new handles,
which no walk looks at, so it leads every record to the same leaf.
-/

namespace QuestionTree

open Json Decoder

namespace NodeInfo

/-- Whether the order is a word of thirty-two bits and mass and score are finite. -/
structure Storable (i : NodeInfo Float) : Prop where
  order_lt : i.order < UInt32.size
  size_finite : i.size.isFinite = true
  score_finite : i.score.isFinite = true

theorem spelled_toJson (i : NodeInfo Float) : i.toJson.Spelled := by
  refine spelled_ofFields ?_
  simp only [List.forall_mem_cons]
  exact ⟨spelled_ofNat i.order, spelled_ofFloat i.size, spelled_ofFloat i.score,
    List.forall_mem_nil _⟩

theorem decoder_toJson (room : Nat) (i : NodeInfo Float) :
    decoder (room + 1) i.toJson = do
      let order ← natBelow UInt32.size room (Json.ofNat i.order)
      let size ← Decoder.float room (Json.ofFloat i.size)
      let score ← Decoder.float room (Json.ofFloat i.score)
      return { order, size, score } := by
  rw [decoder, toJson, structured_ofFields]
  cases horder : natBelow UInt32.size room (Json.ofNat i.order) with
  | error e =>
    rw [readNamed_of_error rfl rfl (read_field_error horder)]
    rfl
  | ok order =>
    rw [readNamed_of_read rfl rfl (read_field horder)]
    cases hsize : Decoder.float room (Json.ofFloat i.size) with
    | error e =>
      rw [readNamed_of_error rfl rfl (read_field_error hsize)]
      rfl
    | ok size =>
      rw [readNamed_of_read rfl rfl (read_field hsize)]
      cases hscore : Decoder.float room (Json.ofFloat i.score) with
      | error e =>
        rw [readNamed_of_error rfl rfl (read_field_error hscore)]
        rfl
      | ok score =>
        rw [readNamed_of_read rfl rfl (read_field hscore)]
        rfl

theorem reads : Node.Reads decoder toJson Storable := by
  refine ⟨spelled_toJson, fun room i h => ?_, fun room i h => ?_, fun i => rfl⟩
  · rw [decoder_toJson, natBelow_ofNat, if_pos h.order_lt, float_ofFloat, if_pos h.size_finite,
      float_ofFloat, if_pos h.score_finite]
    rfl
  · rw [decoder_toJson, natBelow_ofNat]
    by_cases horder : i.order < UInt32.size
    · rw [if_pos horder, float_ofFloat]
      by_cases hsize : i.size.isFinite = true
      · have hscore : ¬ i.score.isFinite = true := fun hscore => h ⟨horder, hsize, hscore⟩
        rw [if_pos hsize, float_ofFloat, if_neg hscore]
        rfl
      · rw [if_neg hsize]
        rfl
    · rw [if_neg horder]
      rfl

end NodeInfo

namespace DecisionTree

/-- The height up to which the levels of nesting suffice for a tree. -/
def maxHeight : Nat := 61

/-- Whether the levels of nesting suffice for a tree and all its nodes can be stored. -/
def Storable (t : BinaryTree (NodeInfo Float)) : Prop :=
  t.height ≤ maxHeight ∧ ∀ root, t.root? = some root → ∀ v ∈ root.preorder, v.info.Storable

theorem storable_iff_fits {root : Node (NodeInfo Float)} :
    Storable ⟨some root⟩ ↔ root.Fits NodeInfo.Storable 125 := by
  have hheight : (⟨some root⟩ : BinaryTree (NodeInfo Float)).height = root.height := rfl
  rw [Storable, Node.Fits, hheight, maxHeight]
  constructor
  · rintro ⟨hle, hinfo⟩
    exact ⟨by omega, hinfo root rfl⟩
  · rintro ⟨hle, hinfo⟩
    refine ⟨by omega, fun root' heq => ?_⟩
    cases heq
    exact hinfo

namespace Dump

variable {d : Dump}

/-- Whether the parts are such as a tree is made of. -/
structure WellFormed (d : Dump) : Prop where
  schema : d.schema.Built
  questions : ∀ q ∈ d.questions, q.WellFormed
  id_lt : ∀ root, d.tree.root? = some root → ∀ v ∈ root.preorder, v.id < UInt64.size

theorem spelled_toJson (d : Dump) : d.toJson.Spelled := by
  refine spelled_ofFields ?_
  simp only [List.forall_mem_cons]
  exact ⟨d.schema.spelled_toJson, spelled_ofList fun q _ => q.spelled_toJson,
    BinaryTree.spelled_toJson NodeInfo.reads d.tree, List.forall_mem_nil _⟩

/-- The schema and the questions are read back, and then it depends on the nodes. -/
theorem WellFormed.decoder_toJson (h : d.WellFormed) : decoder maxNesting d.toJson = do
    let tree ← BinaryTree.decoder NodeInfo.decoder 126 (d.tree.toJson NodeInfo.toJson)
    return ⟨d.schema, d.questions, tree⟩ := by
  have hschema : Schema.decoder 126 d.schema.toJson = .ok d.schema := h.schema.decoder_toJson 123
  have hquestions : Decoder.list Question.decoder 126 (Json.ofList Question.toJson d.questions) =
      .ok d.questions := list_ofList fun q hq => (h.questions q hq).decoder_toJson 122
  have hroom : maxNesting = 126 + 1 := rfl
  rw [decoder, toJson, hroom, structured_ofFields, readNamed_of_read rfl rfl (read_field hschema),
    readNamed_of_read rfl rfl (read_field hquestions)]
  cases htree : BinaryTree.decoder NodeInfo.decoder 126 (d.tree.toJson NodeInfo.toJson) with
  | error e =>
    rw [readNamed_of_error rfl rfl (read_field_error htree)]
    rfl
  | ok tree =>
    rw [readNamed_of_read rfl rfl (read_field htree)]
    rfl

theorem load_write (d : Dump) : Dump.decoder.load d.toJson.write =
    match decoder maxNesting d.toJson with
    | .ok d => .ok d
    | .error cause => .error (.unableToRead cause) := by
  rw [Decoder.load, Decoder.ofText, Json.ofText_write d.spelled_toJson]
  cases decoder maxNesting d.toJson <;> rfl

/-- Dumped parts are read back if the tree can be stored, and refused otherwise. -/
theorem WellFormed.load_write (h : d.WellFormed) :
    (Storable d.tree → Dump.decoder.load d.toJson.write = .ok d) ∧
      (¬ Storable d.tree →
        Dump.decoder.load d.toJson.write = .error (.unableToRead .malformed)) := by
  rw [Dump.load_write, h.decoder_toJson]
  obtain ⟨schema, questions, ⟨root?⟩⟩ := d
  cases root? with
  | none =>
    rw [BinaryTree.decoder_empty]
    refine ⟨fun _ => rfl, fun hnot => absurd ⟨Nat.zero_le _, fun root heq => ?_⟩ hnot⟩
    cases heq
  | some root =>
    obtain ⟨hok, herror⟩ := BinaryTree.decoder_toJson NodeInfo.reads (h.id_lt root rfl) 125
    rw [storable_iff_fits]
    refine ⟨fun hfits => ?_, fun hfits => ?_⟩
    · rw [hok hfits]
      rfl
    · rw [herror hfits]
      rfl

end Dump

end DecisionTree

/-! ### Pools with the same questions -/

namespace QuestionPool

@[simp] theorem questions_ofQuestions (first : Nat) (questions : List Question) :
    (ofQuestions first questions).questions = questions := by
  rw [ofQuestions, QuestionPool.questions, Handle.ofList, List.map_map]
  exact List.zipIdx_map_fst first questions

variable {pool pool' : QuestionPool}

theorem require_congr (h : pool.questions = pool'.questions) (index : Nat) :
    (∃ q q', pool.require index = .ok q ∧ pool'.require index = .ok q' ∧ q.item = q'.item) ∨
      ∃ e, pool.require index = .error e ∧ pool'.require index = .error e := by
  have hsize : pool.size = pool'.size := by
    have hlength := congrArg List.length h
    rwa [QuestionPool.questions, QuestionPool.questions, List.length_map, List.length_map]
      at hlength
  have hitem : (pool.get? index).map Handle.item = (pool'.get? index).map Handle.item := by
    have hget := congrArg (·[index]?) h
    rwa [QuestionPool.questions, QuestionPool.questions, List.getElem?_map, List.getElem?_map]
      at hget
  rw [require, require, ← hsize]
  cases hq : pool.get? index with
  | none =>
    rw [hq] at hitem
    rw [Option.map_eq_none_iff.1 hitem.symm]
    exact .inr ⟨_, rfl, rfl⟩
  | some q =>
    rw [hq] at hitem
    obtain ⟨q', hq', hsame⟩ := Option.map_eq_some_iff.1 hitem.symm
    rw [hq']
    exact .inl ⟨q, q', rfl, rfl, hsame.symm⟩

end QuestionPool

theorem Node.walk_congr {ν : Type} {pool pool' : QuestionPool}
    (h : pool.questions = pool'.questions) (n : Node (NodeInfo ν)) (record : Record) :
    n.walk pool record = n.walk pool' record := by
  induction n with
  | leaf id info => rfl
  | internal id info yes no ihYes ihNo =>
    rcases QuestionPool.require_congr h id with ⟨q, q', hq, hq', hitem⟩ | ⟨e, he, he'⟩
    · rw [walk_internal hq, walk_internal hq', hitem, ihYes, ihNo]
    · rw [walk, walk, he, he']
      rfl

namespace DecisionTree

theorem checkNodes_congr {ν : Type} {pool pool' : QuestionPool}
    (h : pool.questions = pool'.questions) (root? : Option (Node (NodeInfo ν))) :
    checkNodes pool root? = checkNodes pool' root? := by
  cases root? with
  | none => rfl
  | some root =>
    rw [checkNodes, checkNodes]
    congr 1
    funext n
    rcases QuestionPool.require_congr h n.id with ⟨q, q', hq, hq', _⟩ | ⟨e, he, he'⟩
    · rw [hq, hq']
      rfl
    · rw [he, he']

theorem ofParts_congr {ν : Type} {schema : Schema} {pool pool' : QuestionPool}
    {root? : Option (Node (NodeInfo ν))} {t : DecisionTree ν}
    (h : pool.questions = pool'.questions) (ht : ofParts schema pool root? = .ok t) :
    ofParts schema pool' root? = .ok ⟨schema, pool', ⟨root?⟩⟩ := by
  obtain ⟨⟨⟩, hset, ht⟩ := bind_eq_ok_iff.1 ht
  obtain ⟨⟨⟩, hquestions, ht⟩ := bind_eq_ok_iff.1 ht
  obtain ⟨⟨⟩, hnodes, _⟩ := bind_eq_ok_iff.1 ht
  rw [checkQuestions, h] at hquestions
  rw [checkNodes_congr h] at hnodes
  rw [ofParts, hset, checkQuestions, hquestions, hnodes]
  rfl

/-! ### Trees that are read back -/

/-- Dumped parts are checked as the parts of a tree are. -/
theorem ofDump_eq (d : Dump) :
    ofDump d = ofParts d.schema (.ofQuestions 0 d.questions) d.tree.root? := by
  rw [ofDump, ofParts, ofParts]
  cases d.schema.requireSet with
  | error e => rfl
  | ok _ =>
    cases checkQuestions d.schema (.ofQuestions 0 d.questions) with
    | error e => rfl
    | ok _ => rfl

/-- The tree with a new handle for every question. -/
def rehandled {ν : Type} (t : DecisionTree ν) : DecisionTree ν :=
  { t with pool := .ofQuestions 0 t.pool.questions }

theorem find_rehandled {ν : Type} (t : DecisionTree ν) (record : Record) :
    t.rehandled.find record = t.find record := by
  have hquestions : t.rehandled.pool.questions = t.pool.questions :=
    QuestionPool.questions_ofQuestions 0 t.pool.questions
  have hroot : t.rehandled.tree = t.tree := rfl
  rw [find, find, hroot]
  cases t.tree.requireRoot with
  | error e => rfl
  | ok root => exact root.walk_congr hquestions record

variable {t : DecisionTree Float}

/-- A tree that passes its checks and can be stored is read back with new handles. -/
theorem read_write (hparts : ofParts t.schema t.pool t.root? = .ok t) (hdump : t.dump.WellFormed)
    (h : Storable t.tree) : read t.write = .ok t.rehandled := by
  rw [read, write, hdump.load_write.1 h]
  refine (ofDump_eq t.dump).trans ?_
  exact ofParts_congr (QuestionPool.questions_ofQuestions 0 t.pool.questions).symm hparts

theorem read_write_of_not_storable (hdump : t.dump.WellFormed) (h : ¬ Storable t.tree) :
    read t.write = .error (.unableToRead .malformed) := by
  rw [read, write, hdump.load_write.2 h]
  rfl

end DecisionTree

end QuestionTree
