import QuestionTree.Proofs.DecisionTree.Codec
import QuestionTree.Proofs.Question.Built

/-!
# What is read of a decision tree

A decision tree is read from many texts: fields stand in any order, or a list of their values takes
the place of an object, and fields of other names are passed over. Whatever the text is, the schema
that is read is one that was built, the questions are such as are read, and the nodes can be
stored: their numbers are words, their masses and scores are finite, as no number is read as an
infinity, and every step down has used up two levels of nesting.
-/

namespace QuestionTree

namespace NodeInfo

/-- Whether what was read of the information so far can be stored. -/
structure Draft.Storable (d : Draft) : Prop where
  order_lt : ∀ order ∈ d.order, order < UInt32.size
  size_finite : ∀ size ∈ d.size, size.isFinite = true
  score_finite : ∀ score ∈ d.score, score.isFinite = true

theorem fields_keep (room : Nat) {f : Decoder.Field Draft} (hf : f ∈ fields room) {d d' : Draft}
    {j : Json} (hd : d.Storable) (h : f.read d j = .ok d') : d'.Storable := by
  rcases List.mem_cons.1 hf with rfl | hf
  · obtain ⟨order, horder, rfl⟩ := Decoder.exists_of_field h
    have hlt := Decoder.only_natBelow _ room j order horder
    exact ⟨fun n hn => Option.mem_some.1 hn ▸ hlt, hd.size_finite, hd.score_finite⟩
  rcases List.mem_cons.1 hf with rfl | hf
  · obtain ⟨size, hsize, rfl⟩ := Decoder.exists_of_field h
    have hfinite := Decoder.only_float room j size hsize
    exact ⟨hd.order_lt, fun x hx => Option.mem_some.1 hx ▸ hfinite, hd.score_finite⟩
  · rw [List.mem_singleton.1 hf] at h
    obtain ⟨score, hscore, rfl⟩ := Decoder.exists_of_field h
    have hfinite := Decoder.only_float room j score hscore
    exact ⟨hd.order_lt, hd.size_finite, fun x hx => Option.mem_some.1 hx ▸ hfinite⟩

theorem only_decoder : decoder.Only Storable := by
  intro room j i h
  have hstart : ({} : Draft).Storable := ⟨by simp, by simp, by simp⟩
  obtain ⟨d, hd, h⟩ := Decoder.exists_draft_of_structured
    (fun room f hf _ _ _ => fields_keep room hf) hstart h
  obtain ⟨order, horder, h⟩ := bind_eq_ok_iff.1 h
  obtain ⟨size, hsize, h⟩ := bind_eq_ok_iff.1 h
  obtain ⟨score, hscore, h⟩ := bind_eq_ok_iff.1 h
  cases h
  exact ⟨hd.order_lt order (Decoder.required_eq_ok_iff.1 horder),
    hd.size_finite size (Decoder.required_eq_ok_iff.1 hsize),
    hd.score_finite score (Decoder.required_eq_ok_iff.1 hscore)⟩

end NodeInfo

namespace Node

variable {ι : Type} {read : Decoder ι} {good : ι → Prop} {room : Nat}

/-- Whether a node fits where some levels of nesting are left and its numbers are words. -/
def Loadable (good : ι → Prop) (room : Nat) (n : Node ι) : Prop :=
  n.Fits good room ∧ ∀ v ∈ n.preorder, v.id < UInt64.size

theorem loadable_leaf {id : Nat} {info : ι} (hid : id < UInt64.size) (hinfo : good info) :
    (leaf id info).Loadable good (room + 2) := by
  refine ⟨fits_leaf_iff.2 hinfo, ?_⟩
  rw [preorder_leaf, List.forall_mem_singleton]
  exact hid

theorem loadable_internal {id : Nat} {info : ι} {yes no : Node ι} (hid : id < UInt64.size)
    (hinfo : good info) (hyes : yes.Loadable good room) (hno : no.Loadable good room) :
    (internal id info yes no).Loadable good (room + 2) := by
  refine ⟨fits_internal_iff.2 ⟨hinfo, hyes.1, hno.1⟩, ?_⟩
  rw [preorder_internal, List.forall_mem_cons, List.forall_mem_append]
  exact ⟨hid, hyes.2, hno.2⟩

theorem exists_of_childrenDecoder {child : Json → Except ReadError (Node ι)} {j : Json}
    {yes no : Node ι} (h : childrenDecoder child room j = .ok (some (yes, no))) :
    ∃ first second, child first = .ok yes ∧ child second = .ok no := by
  unfold childrenDecoder at h
  split at h
  · cases h
  · rename_i first second others closed
    obtain ⟨yes', hyes, h⟩ := bind_eq_ok_iff.1 h
    obtain ⟨no', hno, h⟩ := bind_eq_ok_iff.1 h
    split at h
    · cases h
      exact ⟨first, second, hyes, hno⟩
    · cases h
  · obtain ⟨_, _, h⟩ := bind_eq_ok_iff.1 h
    cases h
  · cases h

/-- Whether what was read of a node so far can be stored, its children having the given room. -/
structure Draft.Loadable (good : ι → Prop) (room : Nat) (d : Draft ι) : Prop where
  id_lt : ∀ id ∈ d.id, id < UInt64.size
  info_good : ∀ info ∈ d.info, good info
  children_loadable : ∀ yes no, d.children = some (some (yes, no)) →
    yes.Loadable good room ∧ no.Loadable good room

theorem fields_keep {child : Json → Except ReadError (Node ι)} {below : Nat}
    (hinfo : ∀ j info, read below j = .ok info → good info)
    (hchild : ∀ j n, child j = .ok n → n.Loadable good room) {f : Decoder.Field (Draft ι)}
    (hf : f ∈ fields read child below) {d d' : Draft ι} {j : Json} (hd : d.Loadable good room)
    (h : f.read d j = .ok d') : d'.Loadable good room := by
  rcases List.mem_cons.1 hf with rfl | hf
  · obtain ⟨id, hid, rfl⟩ := Decoder.exists_of_field h
    have hlt := Decoder.only_natBelow _ below j id hid
    exact ⟨fun n hn => Option.mem_some.1 hn ▸ hlt, hd.info_good, hd.children_loadable⟩
  rcases List.mem_cons.1 hf with rfl | hf
  · obtain ⟨info, hread, rfl⟩ := Decoder.exists_of_field h
    exact ⟨hd.id_lt, fun i hi => Option.mem_some.1 hi ▸ hinfo j info hread, hd.children_loadable⟩
  · rw [List.mem_singleton.1 hf] at h
    obtain ⟨children, hchildren, rfl⟩ := Decoder.exists_of_field h
    refine ⟨hd.id_lt, hd.info_good, fun yes no hpair => ?_⟩
    obtain rfl := Option.some.inj hpair
    obtain ⟨first, second, hyes, hno⟩ := exists_of_childrenDecoder hchildren
    exact ⟨hchild first yes hyes, hchild second no hno⟩

theorem loadable_empty : ({} : Draft ι).Loadable good room := by
  refine ⟨by simp, by simp, fun yes no h => ?_⟩
  cases h

/-- A node that is read can be stored. -/
theorem only_decoder (hread : read.Only good) (hnone : ∀ j info, read 0 j ≠ .ok info)
    {j : Json} {n : Node ι} (h : decoder read room j = .ok n) : n.Loadable good room := by
  induction room using Nat.twoStepInduction generalizing j n with
  | zero => cases h
  | one =>
    -- no information is read where no level is left, so no node is finished
    have hkeep : ∀ f ∈ fields read (Decoder.fail 0) 0, ∀ (d : Draft ι) j d',
        d.Loadable (fun _ => False) 0 → f.read d j = .ok d' → d'.Loadable (fun _ => False) 0 :=
      fun f hf _ _ _ => fields_keep hnone (fun _ _ hn => by cases hn) hf
    obtain ⟨d, hd, h⟩ := Decoder.exists_draft_of_ofFields hkeep loadable_empty h
    obtain ⟨id, _, h⟩ := bind_eq_ok_iff.1 h
    obtain ⟨info, hinfo, _⟩ := bind_eq_ok_iff.1 h
    exact (hd.info_good info (Decoder.required_eq_ok_iff.1 hinfo)).elim
  | more room ih _ =>
    obtain ⟨d, hd, h⟩ := Decoder.exists_draft_of_ofFields
      (fun f hf _ _ _ => fields_keep (hread (room + 1)) (fun j n hn => ih hn) hf) loadable_empty h
    obtain ⟨id, hid, h⟩ := bind_eq_ok_iff.1 h
    obtain ⟨info, hinfo, h⟩ := bind_eq_ok_iff.1 h
    have hlt := hd.id_lt id (Decoder.required_eq_ok_iff.1 hid)
    have hgood := hd.info_good info (Decoder.required_eq_ok_iff.1 hinfo)
    split at h
    · rename_i yes no hchildren
      cases h
      obtain ⟨hyes, hno⟩ := hd.children_loadable yes no (Option.join_eq_some_iff.1 hchildren)
      exact loadable_internal hlt hgood hyes hno
    · cases h
      exact loadable_leaf hlt hgood

end Node

namespace BinaryTree

variable {ι : Type} {read : Decoder ι} {good : ι → Prop} {room : Nat}

theorem only_decoder (hread : read.Only good) (hnone : ∀ j info, read 0 j ≠ .ok info) {j : Json}
    {t : BinaryTree ι} (h : decoder read (room + 1) j = .ok t) :
    ∀ root ∈ t.root?, root.Loadable good room := by
  let kept (d : Draft ι) : Prop := ∀ root, d.root = some (some root) → root.Loadable good room
  have hkeep : ∀ f ∈ fields read room, ∀ d j d', kept d → f.read d j = .ok d' → kept d' := by
    intro f hf d j d' _ hd'
    rw [List.mem_singleton.1 hf] at hd'
    obtain ⟨root?, hroot?, rfl⟩ := Decoder.exists_of_field hd'
    intro root hroot
    obtain rfl := Option.some.inj hroot
    have hoption : ∀ j, (Node.decoder read).option room j = .ok (some root) →
        Node.decoder read room j = .ok root := by
      intro j hj
      unfold Decoder.option at hj
      split at hj
      · cases hj
      · obtain ⟨n, hn, hsome⟩ := map_eq_ok_iff.1 hj
        exact Option.some.inj hsome ▸ hn
    exact Node.only_decoder hread hnone (hoption j hroot?)
  obtain ⟨below, heq, h⟩ := Decoder.ofFields_of_structured h
  obtain rfl := Nat.succ.inj heq
  obtain ⟨d, hd, h⟩ := Decoder.exists_draft_of_ofFields hkeep
    (fun root hroot => by cases hroot) h
  obtain rfl := Except.ok.inj h
  intro root hroot
  exact hd root (Option.join_eq_some_iff.1 (Option.mem_def.1 hroot))

end BinaryTree

namespace DecisionTree

namespace Dump

/-- Whether dumped parts are such as are read: a schema that was built, questions, and nodes that
can be stored where they stand. -/
structure Loaded (d : Dump) : Prop where
  schema : d.schema.Built
  questions : ∀ q ∈ d.questions, q.Built
  nodes : ∀ root ∈ d.tree.root?, root.Loadable NodeInfo.Storable 125

/-- Whether what was read of the parts so far is such as is read. -/
structure Draft.Loaded (d : Draft) : Prop where
  schema : ∀ s ∈ d.properties, s.Built
  questions : ∀ qs ∈ d.questions, ∀ q ∈ qs, Question.Built q
  nodes : ∀ t ∈ d.tree, ∀ root ∈ t.root?, root.Loadable NodeInfo.Storable 125

theorem fields_keep {f : Decoder.Field Draft} (hf : f ∈ fields 126) {d d' : Draft} {j : Json}
    (hd : d.Loaded) (h : f.read d j = .ok d') : d'.Loaded := by
  rcases List.mem_cons.1 hf with rfl | hf
  · obtain ⟨schema, hschema, rfl⟩ := Decoder.exists_of_field h
    have hbuilt := Schema.only_decoder 126 j schema hschema
    exact ⟨fun s hs => Option.mem_some.1 hs ▸ hbuilt, hd.questions, hd.nodes⟩
  rcases List.mem_cons.1 hf with rfl | hf
  · obtain ⟨questions, hquestions, rfl⟩ := Decoder.exists_of_field h
    have hbuilt : Question.decoder.Only Question.Built := fun _ _ _ hq => .read hq
    have hall := Decoder.only_list hbuilt 126 j questions hquestions
    exact ⟨hd.schema, fun qs hqs => Option.mem_some.1 hqs ▸ hall, hd.nodes⟩
  · rw [List.mem_singleton.1 hf] at h
    obtain ⟨tree, htree, rfl⟩ := Decoder.exists_of_field h
    have hnone : ∀ j info, NodeInfo.decoder 0 j ≠ .ok info := fun _ _ h => by cases h
    have hnodes := BinaryTree.only_decoder NodeInfo.only_decoder hnone htree
    exact ⟨hd.schema, hd.questions, fun t ht => Option.mem_some.1 ht ▸ hnodes⟩

theorem loaded_of_decoder {j : Json} {d : Dump} (h : decoder Decoder.maxNesting j = .ok d) :
    d.Loaded := by
  obtain ⟨below, heq, h⟩ := Decoder.ofFields_of_structured h
  obtain rfl : 126 = below := Nat.succ.inj heq
  have hstart : ({} : Draft).Loaded := ⟨by simp, by simp, by simp⟩
  obtain ⟨draft, hdraft, h⟩ := Decoder.exists_draft_of_ofFields
    (fun f hf _ _ _ => fields_keep hf) hstart h
  obtain ⟨schema, hschema, h⟩ := bind_eq_ok_iff.1 h
  obtain ⟨questions, hquestions, h⟩ := bind_eq_ok_iff.1 h
  obtain ⟨tree, htree, h⟩ := bind_eq_ok_iff.1 h
  obtain rfl := Except.ok.inj h
  exact ⟨hdraft.schema schema (Decoder.required_eq_ok_iff.1 hschema),
    hdraft.questions questions (Decoder.required_eq_ok_iff.1 hquestions),
    hdraft.nodes tree (Decoder.required_eq_ok_iff.1 htree)⟩

end Dump

theorem exists_dump_of_read {text : String} {t : DecisionTree Float} (h : read text = .ok t) :
    ∃ d : Dump, d.Loaded ∧
      ofParts d.schema (.ofQuestions 0 d.questions) d.tree.root? = .ok t := by
  obtain ⟨d, hload, hparts⟩ := bind_eq_ok_iff.1 h
  obtain ⟨j, hdecoder⟩ := Decoder.exists_of_load hload
  exact ⟨d, Dump.loaded_of_decoder hdecoder, ofDump_eq d ▸ hparts⟩

end DecisionTree

end QuestionTree
