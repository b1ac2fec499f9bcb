import QuestionTree.Proofs.Example.Tracked
import QuestionTree.Proofs.Training.Partition

/-!
# Histories of lists of examples

Lists of examples are made, copied and added to in any order, and examples that are refused are
offered in between. Whatever was done, every list keeps its contract and answers each offer by it.
A list goes by the examples that it is offered itself, so that a copy and its original leave each
other alone.
-/

namespace QuestionTree

/-- The list after some examples were offered to it one after the other. -/
def TrackedList.takeAll (l : TrackedList) (offers : List Offer) : TrackedList :=
  offers.foldl (fun l o => l.after (add o)) l

/-- The lists that there are, in the order in which they came about. -/
abbrev Shelf := List TrackedList

namespace Shelf

/-- What is done to the lists. -/
inductive Move where
  | blank (schema : Handle Schema)
  | clone (i : Nat)
  | add (i : Nat) (o : Offer)
  | addNew (i : Nat) (o : Offer)

/-- The lists after a move, which may have failed. -/
def apply (s : Shelf) : Move → Shelf
  | .blank schema => s ++ (TrackedList.blank schema).toOption.toList
  | .clone i => s ++ s[i]?.toList
  | .add i o => s.modify i (·.after (TrackedList.add o))
  | .addNew i o => s.modify i (·.after (TrackedList.addNew o))

def applyAll (s : Shelf) (moves : List Move) : Shelf := moves.foldl apply s

/-- Whether a move can be made: schemas were built, and their handles tell the truth. -/
def Move.Possible (s : Shelf) : Move → Prop
  | .blank schema => schema.item.Built
  | .clone _ => True
  | .add i o | .addNew i o => ∀ l ∈ s[i]?, o.Fits l

/-- Whether moves can be made one after the other. -/
def Possible (s : Shelf) : List Move → Prop
  | [] => True
  | m :: moves => m.Possible s ∧ Possible (s.apply m) moves

/-- The example that a move offers to the list at a place. -/
def Move.offer? (j : Nat) : Move → Option Offer
  | .add i o | .addNew i o => if i = j then some o else none
  | .blank _ | .clone _ => none

variable {s : Shelf} {l : TrackedList} {m : Move} {j : Nat}

theorem apply_addNew (s : Shelf) (i : Nat) (o : Offer) :
    s.apply (.addNew i o) = s.apply (.add i o) := by
  simp only [apply, TrackedList.after_addNew]

/-! ### The contract -/

theorem contract_add {i : Nat} {o : Offer} (hs : ∀ l ∈ s, l.Contract) (ho : ∀ l ∈ s[i]?, o.Fits l) :
    ∀ l ∈ s.apply (.add i o), l.Contract := by
  intro l hl
  obtain ⟨j, hj⟩ := List.mem_iff_getElem?.1 hl
  rw [apply, List.getElem?_modify] at hj
  obtain ⟨before, hbefore, rfl⟩ := Option.map_eq_some_iff.1 hj
  have hcontract := hs before (List.mem_of_getElem? hbefore)
  split
  · rename_i hij
    subst hij
    exact hcontract.after_add (ho before hbefore)
  · exact hcontract

theorem contract_apply (hs : ∀ l ∈ s, l.Contract) (hm : m.Possible s) :
    ∀ l ∈ s.apply m, l.Contract := by
  cases m with
  | blank schema =>
    refine List.forall_mem_append.2 ⟨hs, fun l hl => ?_⟩
    cases hblank : TrackedList.blank schema with
    | error e =>
      rw [hblank] at hl
      cases hl
    | ok l' =>
      rw [hblank] at hl
      rw [List.mem_singleton.1 hl]
      exact TrackedList.contract_of_blank hm hblank
  | clone i =>
    refine List.forall_mem_append.2 ⟨hs, fun l hl => hs l ?_⟩
    exact List.mem_of_getElem? (Option.mem_toList.1 hl)
  | add i o => exact contract_add hs hm
  | addNew i o =>
    rw [apply_addNew]
    exact contract_add hs hm

theorem contract_applyAll {moves : List Move} (hs : ∀ l ∈ s, l.Contract) (h : s.Possible moves) :
    ∀ l ∈ s.applyAll moves, l.Contract := by
  induction moves generalizing s with
  | nil => exact hs
  | cons m moves ih => exact ih (contract_apply hs h.1) h.2

/-! ### Lists apart from each other -/

theorem getElem?_add {i : Nat} {o : Offer} (hl : s[j]? = some l) :
    (s.apply (.add i o))[j]? = some (l.takeAll ((Move.add i o).offer? j).toList) := by
  rw [apply, List.getElem?_modify, hl]
  show some (if i = j then l.after (TrackedList.add o) else l) =
    some (l.takeAll (if i = j then some o else none).toList)
  split <;> rfl

/-- A move does to a list no more than to offer it an example. -/
theorem getElem?_apply (hl : s[j]? = some l) (m : Move) :
    (s.apply m)[j]? = some (l.takeAll (m.offer? j).toList) := by
  cases m with
  | blank _ | clone _ =>
    rw [apply, List.getElem?_append_left (List.getElem?_eq_some_iff.1 hl).1, hl]
    rfl
  | add i o => exact getElem?_add hl
  | addNew i o =>
    rw [apply_addNew]
    exact getElem?_add hl

theorem getElem?_applyAll (hl : s[j]? = some l) (moves : List Move) :
    (s.applyAll moves)[j]? = some (l.takeAll (moves.filterMap (Move.offer? j))) := by
  induction moves generalizing s l with
  | nil => exact hl
  | cons m moves ih =>
    rw [applyAll, List.foldl_cons, ← applyAll, ih (getElem?_apply hl m), List.filterMap_cons]
    cases m.offer? j <;> rfl

/-! ### What a history leaves -/

/-- What is true of the lists that there are. -/
structure Kept (s : Shelf) : Prop where
  contract : ∀ l ∈ s, l.Contract
  responds : ∀ l ∈ s, ∀ o : Offer, o.Fits l → l.Responds o
  /-- A list goes by what it is offered itself, and stays as it is while it is offered nothing. -/
  apart : ∀ (j : Nat) (l : TrackedList), s[j]? = some l → ∀ moves : List Move,
    (s.applyAll moves)[j]? = some (l.takeAll (moves.filterMap (Move.offer? j))) ∧
      ((∀ m ∈ moves, m.offer? j = none) → (s.applyAll moves)[j]? = some l)
  /-- A copy is equal to its original, and from then on each goes by what it is offered itself. -/
  copied : ∀ (i : Nat) (l : TrackedList), s[i]? = some l → s.apply (.clone i) = s ++ [l] ∧
    ∀ moves : List Move, let later := (s.apply (.clone i)).applyAll moves
      later[i]? = some (l.takeAll (moves.filterMap (Move.offer? i))) ∧
        later[s.length]? = some (l.takeAll (moves.filterMap (Move.offer? s.length)))

theorem apply_clone {i : Nat} (hl : s[i]? = some l) : s.apply (.clone i) = s ++ [l] := by
  rw [apply, hl]
  rfl

theorem kept_of_contract (hs : ∀ l ∈ s, l.Contract) : s.Kept where
  contract := hs
  responds l hl _ := (hs l hl).responds
  apart j l hl moves := by
    have hmoves := getElem?_applyAll hl moves
    refine ⟨hmoves, fun hnone => ?_⟩
    rw [hmoves, List.filterMap_eq_nil_iff.2 hnone]
    rfl
  copied i l hl := by
    refine ⟨apply_clone hl, fun moves =>
      ⟨getElem?_applyAll ?_ moves, getElem?_applyAll ?_ moves⟩⟩
    · exact getElem?_apply hl (.clone i)
    · rw [apply_clone hl, List.getElem?_concat_length]

/-- Lists of examples keep their contract whatever is done to them, answer by it and leave each
other alone. -/
theorem kept_of_moves {moves : List Move} (h : Possible [] moves) : Kept (applyAll [] moves) :=
  kept_of_contract (contract_applyAll (List.forall_mem_nil _) h)

open Sample

instance (o : Offer) (l : TrackedList) : Decidable (o.Fits l) :=
  inferInstanceAs (Decidable (_ → _))

def red : Offer := ⟨⟨0, ⟨⟨Sample.schema, [some 0]⟩, Box.single 0, 1⟩⟩, 0, built_schema⟩

/-- A blue thing, whose record refers to a schema of its own that is equal. -/
def blue : Offer := ⟨⟨1, ⟨⟨Sample.schema, [some 1]⟩, Box.single 1, 1⟩⟩, 1, built_schema⟩

/-- A blue thing of a negative mass. -/
def negative : Offer := ⟨⟨2, ⟨⟨Sample.schema, [some 1]⟩, Box.single 1, -1⟩⟩, 0, built_schema⟩

/-- A list that is offered a red thing twice, and a copy made in between that takes a blue thing. -/
def redTwice : List Move :=
  [.blank ⟨0, Sample.schema⟩, .add 0 red, .clone 0, .add 0 red, .addNew 1 blue, .add 1 negative]

/-- The copy holds the blue thing, which the original may still take. -/
theorem kept_redTwice : Possible [] redTwice ∧
    (applyAll [] redTwice).map (fun l => l.members.map Handle.tag) = [[0], [0, 1]] ∧
    (applyAll [] redTwice).map (·.answer (TrackedList.add blue)) =
      [.ok (), .error (.duplicateExample 2)] ∧
    Kept (applyAll [] redTwice) := by
  have hpossible : Possible [] redTwice := by
    refine ⟨built_schema, ?_, trivial, ?_, ?_, ?_, trivial⟩
    all_goals
      rw [Move.Possible]
      decide +kernel
  exact ⟨hpossible, by decide +kernel, by decide +kernel, kept_of_moves hpossible⟩

end Shelf

end QuestionTree
