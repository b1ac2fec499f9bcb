import QuestionTree.Proofs.DecisionTree.Lossless
import QuestionTree.Proofs.Training.Storage

/-!
# Trees that answer

A decision tree is made of parts, read from a text or trained, and each of these ways checks that
its questions stay within its schema and that its inner nodes name questions. The walks of a record
look up nothing else, so they fail only where there is no node at all, whatever schema the record is
bound to. A text is checked in two goes, first without the nodes and then the nodes alone;
`dump_read` says that this refuses the same parts for the same reason as making a tree of them does.
-/

namespace QuestionTree

variable {ν : Type}

/-! ### Checks -/

namespace DecisionTree

/-- Whether the questions of a tree stay within its schema and its inner nodes name questions. -/
structure InRange (t : DecisionTree ν) : Prop where
  key_lt : ∀ q ∈ t.pool.questions, q.key < t.schema.size
  /-- Every accepted value is one of the vocabulary of the key. -/
  value_lt : ∀ q ∈ t.pool.questions, ∃ vocabulary,
    t.schema.vocabulary? q.key = some vocabulary ∧ ∀ v ∈ q.acceptance.values, v < vocabulary.size
  inner_lt : ∀ root ∈ t.root?, ∀ n ∈ root.preorder, n.isLeaf = false → n.id < t.pool.size

variable {schema : Schema} {pool : QuestionPool} {root? : Option (Node (NodeInfo ν))}
  {t : DecisionTree ν}

theorem checks_of_ofParts (h : ofParts schema pool root? = .ok t) :
    checkQuestions schema pool = .ok () ∧ checkNodes pool root? = .ok () ∧
      t = ⟨schema, pool, ⟨root?⟩⟩ := by
  obtain ⟨⟨⟩, _, h⟩ := bind_eq_ok_iff.1 h
  obtain ⟨⟨⟩, hquestions, h⟩ := bind_eq_ok_iff.1 h
  obtain ⟨⟨⟩, hnodes, h⟩ := bind_eq_ok_iff.1 h
  exact ⟨hquestions, hnodes, (Except.ok.inj h).symm⟩

theorem asks_of_ofParts (h : ofParts schema pool root? = .ok t) {root : Node (NodeInfo ν)}
    (hroot : t.root? = some root) : root.Asks t.pool := by
  obtain ⟨_, hnodes, rfl⟩ := checks_of_ofParts h
  obtain rfl : root? = some root := hroot
  exact checkNodes_eq_ok_iff.1 hnodes

theorem inRange_of_ofParts (h : ofParts schema pool root? = .ok t) : t.InRange := by
  have hasks : ∀ root, t.root? = some root → root.Asks t.pool := fun _ => asks_of_ofParts h
  obtain ⟨hquestions, _, rfl⟩ := checks_of_ofParts h
  have hvalid : ∀ q ∈ pool.questions, ∃ vocabulary, schema.vocabulary? q.key = some vocabulary ∧
      ∀ v ∈ q.acceptance.values, v < vocabulary.size := fun q hq =>
    Question.validate_eq_ok_iff.1 (forM_eq_ok_iff.1 hquestions q hq)
  refine ⟨fun q hq => ?_, hvalid, fun root hroot n hn hinner => ?_⟩
  · obtain ⟨vocabulary, hvocabulary, _⟩ := hvalid q hq
    obtain ⟨property, hproperty, _⟩ := Option.map_eq_some_iff.1 hvocabulary
    exact (List.getElem?_eq_some_iff.1 hproperty).1
  · exact (hasks root hroot).id_lt hn hinner

end DecisionTree

/-! ### Walks -/

namespace DecisionTree

/-- Whether the walks of a record find no tree where there is no node, and otherwise what they look
for. -/
inductive Answers (t : DecisionTree ν) (record : Record) : Prop
  | empty (hroot : t.root? = none) (find_eq : t.find record = .error .emptyTree)
      (findAll_eq : t.findAll record = .error .emptyTree)
      (findLeaves_eq : t.findLeaves record = .error .emptyTree)
      (findPath_eq : t.findPath record = .error .emptyTree)
      (classify_eq : t.classify record = .error .emptyTree)
  | rooted (root : Node (NodeInfo ν)) (hroot : t.root? = some root)
      (find_eq : ∃ leaf, t.find record = .ok leaf)
      (findAll_eq : ∃ visited, t.findAll record = .ok visited)
      (findLeaves_eq : ∃ leaves, t.findLeaves record = .ok leaves)
      (findPath_eq : ∃ path, t.findPath record = .ok path)
      (classify_eq : ∃ id, t.classify record = .ok id)

theorem answers_of_asks {t : DecisionTree ν}
    (h : ∀ root, t.root? = some root → root.Asks t.pool) (record : Record) :
    t.Answers record := by
  cases hroot : t.root? with
  | none =>
    have hrequire : t.tree.requireRoot = .error .emptyTree := by
      rw [root?] at hroot
      rw [BinaryTree.requireRoot, hroot]
    have hfind : t.find record = .error .emptyTree := by
      rw [find, hrequire]
      rfl
    have hfindAll : t.findAll record = .error .emptyTree := by
      rw [findAll, hrequire]
      rfl
    refine .empty hroot hfind hfindAll ?_ ?_ ?_
    · rw [findLeaves, hfindAll]
      rfl
    · rw [findPath, hrequire]
      rfl
    · rw [classify, hfind]
      rfl
  | some root =>
    obtain ⟨path, hpath, hwalk, _⟩ := Node.exists_path (h root hroot) record
    have hfind : t.find record = .ok path.leaf := (find_eq_walk hroot record).trans hwalk
    have hfindAll := findAll_eq_reachable hroot record
    rw [Node.reachable_eq (h root hroot)] at hfindAll
    have hfindLeaves := congrArg (Functor.map (List.filter Node.isLeaf)) hfindAll
    refine .rooted root hroot ⟨_, hfind⟩ ⟨_, hfindAll⟩ ⟨_, hfindLeaves⟩
      ⟨path, (findPath_eq_pathFrom hroot record).trans hpath⟩ ⟨path.leaf.id, ?_⟩
    · rw [classify, hfind]
      rfl

/-! ### Ways to a tree -/

/-- The trees that are made of parts, read from a text or trained. -/
inductive Obtained : DecisionTree Float → Prop
  | made {schema : Schema} {pool : QuestionPool} {root? : Option (Node (NodeInfo Float))}
      {t : DecisionTree Float} (h : ofParts schema pool root? = .ok t) : Obtained t
  | read {text : String} {t : DecisionTree Float} (h : DecisionTree.read text = .ok t) : Obtained t
  | trained {γ : Type} {trainer : Trainer Float} {source : DrawSource γ} {draws : γ}
      {examples : ExampleList Float} {o : Outcome Float}
      (h : trainer.train source draws examples = .ok o) : Obtained o.tree

/-- Every way to a tree makes it of its parts. -/
theorem Obtained.exists_ofParts {t : DecisionTree Float} (h : t.Obtained) :
    ∃ schema pool root?, ofParts schema pool root? = .ok t := by
  cases h with
  | made h => exact ⟨_, _, _, h⟩
  | read h =>
    obtain ⟨d, _, h⟩ := bind_eq_ok_iff.1 h
    exact ⟨_, _, _, (ofDump_eq d).symm.trans h⟩
  | trained h =>
    obtain ⟨⟨⟩, _, h⟩ := bind_eq_ok_iff.1 h
    obtain ⟨⟨t, leafCount⟩, htree, h⟩ := bind_eq_ok_iff.1 h
    obtain ⟨clusters, _, h⟩ := bind_eq_ok_iff.1 h
    obtain ⟨⟨root, leafCount⟩, _, htree⟩ := bind_eq_ok_iff.1 htree
    obtain ⟨t, hparts, htree⟩ := bind_eq_ok_iff.1 htree
    cases htree
    cases h
    exact ⟨_, _, _, hparts⟩

/-- A text that is well-formed is accepted exactly if the parts that it gives make a tree, and
otherwise it is refused for the same reason. The trees have the same parts. -/
theorem dump_read {text : String} {d : Dump} (hload : Dump.decoder.load text = .ok d)
    {pool : QuestionPool} (hpool : pool.questions = d.questions) :
    dump <$> read text = dump <$> ofParts d.schema pool d.tree.root? := by
  have hsame : (QuestionPool.ofQuestions 0 d.questions).questions = pool.questions := by
    rw [QuestionPool.questions_ofQuestions, hpool]
  have hread : read text = ofParts d.schema (.ofQuestions 0 d.questions) d.tree.root? := by
    rw [read, hload]
    exact ofDump_eq d
  rw [hread, ofParts, ofParts, checkQuestions, checkQuestions, hsame, checkNodes_congr hsame]
  cases d.schema.requireSet with
  | error e => rfl
  | ok _ =>
    cases pool.questions.forM (·.validate d.schema) with
    | error e => rfl
    | ok _ =>
      cases checkNodes pool d.tree.root? with
      | error e => rfl
      | ok _ =>
        have hdump (pool' : QuestionPool) (h : pool'.questions = pool.questions) :
            dump ⟨d.schema, pool', d.tree⟩ = ⟨d.schema, pool.questions, d.tree⟩ := by
          rw [dump, h]
        exact congrArg Except.ok ((hdump _ hsame).trans (hdump pool rfl).symm)

/-- A tree that is made, read or trained stays within its schema and its pool, and so the walks of a
record fail only where there is no node. A well-formed text is read exactly if a tree can be made of
its parts, and refused for the same reason. -/
theorem fails_only_where_empty :
    (∀ t : DecisionTree Float, t.Obtained → t.InRange ∧ ∀ record, t.Answers record) ∧
    ∀ (text : String) (d : Dump), Dump.decoder.load text = .ok d →
      ∀ pool : QuestionPool, pool.questions = d.questions →
        dump <$> read text = dump <$> ofParts d.schema pool d.tree.root? := by
  constructor
  · intro t h
    obtain ⟨schema, pool, root?, hparts⟩ := h.exists_ofParts
    exact ⟨inRange_of_ofParts hparts, answers_of_asks fun _ => asks_of_ofParts hparts⟩
  · intro text d hload pool hpool
    exact dump_read hload hpool

end DecisionTree

namespace Sample

/-- A round thing of which no color is known. -/
def round : Record := ⟨⟨[⟨"shape", ⟨["square", "round"]⟩⟩]⟩, [some 1]⟩

end Sample

namespace DecisionTree

open Sample

/-- A thing of another schema is led through a tree that was made, and through one that was read. -/
theorem answers_round : redOrBlue.InRange ∧ redOrBlue.Answers round ∧
    (∃ d, Dump.decoder.load listed = .ok d ∧
      dump <$> read listed = dump <$> ofParts d.schema (.ofQuestions 7 d.questions) d.tree.root?) ∧
    ∃ t, read listed = .ok t ∧ t.Answers round := by
  obtain ⟨hrange, hanswers⟩ := fails_only_where_empty.1 redOrBlue (.made ofParts_redOrBlue)
  refine ⟨hrange, hanswers round, ?_, ?_⟩
  · have hcheck : (Dump.decoder.load listed).toOption.isSome = true := by decide +kernel
    cases h : Dump.decoder.load listed with
    | error e =>
      rw [h] at hcheck
      cases hcheck
    | ok d =>
      have hpool := QuestionPool.questions_ofQuestions 7 d.questions
      exact ⟨d, rfl, fails_only_where_empty.2 listed d h _ hpool⟩
  · have hcheck : (read listed).toOption.isSome = true := by decide +kernel
    cases h : read listed with
    | error e =>
      rw [h] at hcheck
      cases hcheck
    | ok t => exact ⟨t, rfl, (fails_only_where_empty.1 t (.read h)).2 round⟩

end DecisionTree

end QuestionTree
