import Mathlib.Data.Finset.Dedup
import QuestionTree.Proofs.Example.Mass
import QuestionTree.Proofs.Training.Built

/-!
# Lists of examples that track their handles

A list of examples holds its members in their order, and beside them the set of their tags, by which
a member is found without a search. Adding an example compares the schemas, unless these are one and
the same, checks the mass and enters the tag into the set, where it is found out whether the tag was
there before. The example is appended last. The set is changed before the last failure is met, and
stays the set of the tags of the members all the same, since a tag that is refused was in it.
-/

namespace QuestionTree

/-- A list of examples with the set of the tags that it holds. -/
structure TrackedList where
  schema : Handle Schema
  members : List (Handle (Example Float))
  tags : Finset Nat

/-- An example that is offered to lists. Its record refers to a schema by a handle. -/
structure Offer where
  member : Handle (Example Float)
  schemaTag : Nat
  built : member.item.record.schema.Built

namespace Offer

def schema (o : Offer) : Handle Schema := ⟨o.schemaTag, o.member.item.record.schema⟩

def mass (o : Offer) : Float := o.member.item.mass

theorem schema_built (o : Offer) : o.schema.item.Built := o.built

/-- Whether the handles of the schemas tell the truth: one handle stands for one schema. -/
def Fits (o : Offer) (l : TrackedList) : Prop :=
  l.schema.same o.schema = true → l.schema.item = o.schema.item

end Offer

namespace TrackedList

/-- Operations on a list that change it in place and may fail. -/
abbrev InPlace := ExceptT Error (StateM TrackedList)

def blank (schema : Handle Schema) : Except Error TrackedList := do
  schema.item.requireSet
  return ⟨schema, [], ∅⟩

/-- Enters a tag into the set, and tells whether it was not there before. -/
def enter (tag : Nat) : InPlace Bool :=
  modifyGet fun l => (decide (tag ∉ l.tags), { l with tags := insert tag l.tags })

/-- Appends an example under the handle that it comes with. -/
def add (o : Offer) : InPlace Unit := do
  liftExcept (Schema.requireShared (← get).schema o.schema)
  liftExcept (Parameter.checkRange o.mass 0.0 ExampleList.maxMass "n_obs")
  unless ← enter o.member.tag do
    throw (.duplicateExample (← get).members.length)
  modify fun l => { l with members := l.members ++ [o.member] }

/-- Appends an example that gets its handle here, and returns the handle. -/
def addNew (o : Offer) : InPlace (Handle (Example Float)) := do
  add o
  return o.member

/-- What an operation on a list returns. -/
def answer {α : Type} (l : TrackedList) (x : InPlace α) : Except Error α := (x.run.run l).1

/-- The list that an operation leaves, also if it has failed. -/
def after {α : Type} (l : TrackedList) (x : InPlace α) : TrackedList := (x.run.run l).2

/-- The list without the set. -/
def plain (l : TrackedList) : ExampleList Float := ⟨l.schema.item, l.members⟩

/-- The list with one more member. -/
def append (l : TrackedList) (e : Handle (Example Float)) : TrackedList :=
  { l with members := l.members ++ [e], tags := insert e.tag l.tags }

variable {l : TrackedList} {o : Offer} {e : Error}

/-! ### What is kept and what is answered -/

/-- What is true of a list whatever was done to it. -/
structure Contract (l : TrackedList) : Prop where
  /-- Without the set, the list has come about by adding examples. -/
  built : l.plain.Built
  /-- No handle is held twice. -/
  nodup_tags : (l.members.map Handle.tag).Nodup
  /-- The set holds the tags of the members and no others. -/
  tags_eq : l.tags = (l.members.map Handle.tag).toFinset
  /-- Every mass is finite and not negative. -/
  counts : ∀ m ∈ l.members, ExampleList.Counts m.item.mass
  /-- Every record has the schema of the list. -/
  schema_eq : ∀ m ∈ l.members, m.item.record.schema = l.schema.item

/-- Whether an example may be added to a list. -/
structure Admits (l : TrackedList) (o : Offer) : Prop where
  schema_eq : l.schema.item = o.schema.item
  counts : ExampleList.Counts o.mass
  not_held : ∀ m ∈ l.members, m.tag ≠ o.member.tag

/-- Whether an error is the first one that is met with an example. -/
inductive Refuses (l : TrackedList) (o : Offer) : Error → Prop where
  | schema (h : l.schema.item ≠ o.schema.item) :
    Refuses l o (.schemaMismatch (l.schema.item.differences o.schema.item))
  | mass (hschema : l.schema.item = o.schema.item) (h : ¬ ExampleList.Counts o.mass) :
    Refuses l o (ExampleList.massRefusal o.mass)
  | handle (hschema : l.schema.item = o.schema.item) (hmass : ExampleList.Counts o.mass)
    (h : ∃ m ∈ l.members, m.tag = o.member.tag) :
    Refuses l o (.duplicateExample l.members.length)

/-- How a list answers when an example is added. -/
structure Responds (l : TrackedList) (o : Offer) : Prop where
  /-- The example is let in if the schemas are equal, the mass counts and the handle is not held. -/
  added_iff : l.answer (add o) = .ok () ↔ l.Admits o
  /-- Otherwise the first of these that fails is reported. -/
  refused_iff : ∀ e, l.answer (add o) = .error e ↔ l.Refuses o e
  /-- An example that is refused leaves the members and the set, and so the total mass. -/
  unchanged : ∀ e, l.answer (add o) = .error e → l.after (add o) = l
  changed : l.answer (add o) = .ok () → l.after (add o) = l.append o.member
  /-- An example that gets its handle here is added in the same way, and its handle is returned. -/
  addNew_eq : l.answer (addNew o) = (fun _ => o.member) <$> l.answer (add o) ∧
    l.after (addNew o) = l.after (add o)
  /-- A search through the members answers the same as the set. -/
  plain_eq : l.plain.add o.member = (fun _ => (l.after (add o)).plain) <$> l.answer (add o)

/-! ### Adding an example -/

theorem run_enter (tag : Nat) (l : TrackedList) :
    (enter tag).run.run l =
      (.ok (decide (tag ∉ l.tags)), { l with tags := insert tag l.tags }) := rfl

/-- The first check that fails ends the operation, and the set is changed before the last one. -/
theorem run_add (o : Offer) (l : TrackedList) :
    (add o).run.run l =
      match Schema.requireShared l.schema o.schema with
      | .error e => (.error e, l)
      | .ok _ =>
        match Parameter.checkRange o.mass 0.0 ExampleList.maxMass "n_obs" with
        | .error e => (.error e, l)
        | .ok _ =>
          if o.member.tag ∈ l.tags then
            (.error (.duplicateExample l.members.length),
              { l with tags := insert o.member.tag l.tags })
          else (.ok (), l.append o.member) := by
  show (liftExcept (Schema.requireShared l.schema o.schema) >>= fun _ =>
    liftExcept (Parameter.checkRange o.mass 0.0 ExampleList.maxMass "n_obs") >>= fun _ =>
      enter o.member.tag >>= fun _ => _ : InPlace Unit).run.run l = _
  rw [run_bind_liftExcept]
  cases Schema.requireShared l.schema o.schema with
  | error e => rfl
  | ok _ =>
    dsimp only
    rw [run_bind_liftExcept]
    cases Parameter.checkRange o.mass 0.0 ExampleList.maxMass "n_obs" with
    | error e => rfl
    | ok _ =>
      dsimp only
      rw [run_bind, run_enter]
      by_cases htag : o.member.tag ∈ l.tags
      · rw [if_pos htag, decide_eq_false (not_not.2 htag)]
        rfl
      · rw [if_neg htag, decide_eq_true htag]
        rfl

theorem run_addNew (o : Offer) (l : TrackedList) :
    (addNew o).run.run l = ((fun _ => o.member) <$> l.answer (add o), l.after (add o)) := by
  show (add o >>= fun _ => pure o.member).run.run l = _
  rw [run_bind, answer, after]
  obtain ⟨a | e, l'⟩ := (add o).run.run l <;> rfl

theorem after_addNew (o : Offer) (l : TrackedList) : l.after (addNew o) = l.after (add o) :=
  congrArg Prod.snd (run_addNew o l)

theorem Contract.schema_built (h : l.Contract) : l.schema.item.Built := h.built.schema_built

theorem Contract.mem_tags_iff (h : l.Contract) {tag : Nat} :
    tag ∈ l.tags ↔ tag ∈ l.members.map Handle.tag := by
  rw [h.tags_eq, List.mem_toFinset]

/-- Schemas that are one and the same need not be compared. -/
theorem Contract.requireShared (h : l.Contract) (hfits : o.Fits l) :
    Schema.requireShared l.schema o.schema =
      if l.schema.item = o.schema.item then .ok ()
      else .error (.schemaMismatch (l.schema.item.differences o.schema.item)) := by
  rw [Schema.requireShared_eq h.schema_built o.schema_built hfits,
    Schema.requireSame_eq h.schema_built o.schema_built]

theorem admits_or_refuses (l : TrackedList) (o : Offer) : l.Admits o ∨ ∃ e, l.Refuses o e := by
  by_cases hschema : l.schema.item = o.schema.item
  · by_cases hmass : ExampleList.Counts o.mass
    · by_cases hheld : ∃ m ∈ l.members, m.tag = o.member.tag
      · exact .inr ⟨_, .handle hschema hmass hheld⟩
      · exact .inl ⟨hschema, hmass, fun m hm htag => hheld ⟨m, hm, htag⟩⟩
    · exact .inr ⟨_, .mass hschema hmass⟩
  · exact .inr ⟨_, .schema hschema⟩

theorem Contract.run_add_of_admits (h : l.Contract) (hfits : o.Fits l) (ho : l.Admits o) :
    (add o).run.run l = (.ok (), l.append o.member) := by
  have htag : o.member.tag ∉ l.tags := by
    rw [h.mem_tags_iff, List.mem_map]
    rintro ⟨m, hm, htag⟩
    exact ho.not_held m hm htag
  rw [run_add, h.requireShared hfits, if_pos ho.schema_eq, ExampleList.checkRange_mass ho.counts,
    if_neg htag]

theorem Contract.run_add_of_refuses (h : l.Contract) (hfits : o.Fits l) (he : l.Refuses o e) :
    (add o).run.run l = (.error e, l) := by
  rw [run_add, h.requireShared hfits]
  cases he with
  | schema hschema => rw [if_neg hschema]
  | mass hschema hmass => rw [if_pos hschema, ExampleList.checkRange_mass_of_not hmass]
  | handle hschema hmass hheld =>
    have htag : o.member.tag ∈ l.tags := by
      obtain ⟨m, hm, htag⟩ := hheld
      rw [h.mem_tags_iff, ← htag]
      exact List.mem_map_of_mem hm
    -- what is entered was in the set
    rw [if_pos hschema, ExampleList.checkRange_mass hmass, if_pos htag,
      Finset.insert_eq_of_mem htag]

/-- A search through the members answers the same as the set. -/
theorem Contract.add_plain (h : l.Contract) (hfits : o.Fits l) :
    l.plain.add o.member = (fun _ => (l.after (add o)).plain) <$> l.answer (add o) := by
  have hholds : l.plain.holds o.member = true ↔ o.member.tag ∈ l.tags :=
    ExampleList.holds_iff.trans h.mem_tags_iff.symm
  rw [answer, after, run_add, Schema.requireShared_eq h.schema_built o.schema_built hfits]
  show (l.schema.item.requireSame o.schema.item >>= fun _ =>
    Parameter.checkRange o.mass 0.0 ExampleList.maxMass "n_obs" >>= fun _ => _) = _
  cases l.schema.item.requireSame o.schema.item with
  | error e => rfl
  | ok _ =>
    cases Parameter.checkRange o.mass 0.0 ExampleList.maxMass "n_obs" with
    | error e => rfl
    | ok _ =>
      by_cases htag : o.member.tag ∈ l.tags
      · dsimp only
        rw [if_pos htag]
        show (if l.plain.holds o.member = true then _ else _) = _
        rw [if_pos (hholds.2 htag)]
        rfl
      · dsimp only
        rw [if_neg htag]
        show (if l.plain.holds o.member = true then _ else _) = _
        rw [if_neg fun hheld => htag (hholds.1 hheld)]
        rfl

theorem Contract.admits_of_answer (h : l.Contract) (hfits : o.Fits l)
    (hok : l.answer (add o) = .ok ()) : l.Admits o := by
  rcases l.admits_or_refuses o with ho | ⟨e, he⟩
  · exact ho
  · rw [answer, h.run_add_of_refuses hfits he] at hok
    cases hok

theorem Contract.refuses_of_answer (h : l.Contract) (hfits : o.Fits l)
    (herror : l.answer (add o) = .error e) : l.Refuses o e := by
  rcases l.admits_or_refuses o with ho | ⟨e', he⟩
  · rw [answer, h.run_add_of_admits hfits ho] at herror
    cases herror
  · rw [answer, h.run_add_of_refuses hfits he] at herror
    cases herror
    exact he

theorem Contract.responds (h : l.Contract) (hfits : o.Fits l) : l.Responds o where
  added_iff :=
    ⟨h.admits_of_answer hfits, fun ho => congrArg Prod.fst (h.run_add_of_admits hfits ho)⟩
  refused_iff _ :=
    ⟨h.refuses_of_answer hfits, fun he => congrArg Prod.fst (h.run_add_of_refuses hfits he)⟩
  unchanged _ herror :=
    congrArg Prod.snd (h.run_add_of_refuses hfits (h.refuses_of_answer hfits herror))
  changed hok := congrArg Prod.snd (h.run_add_of_admits hfits (h.admits_of_answer hfits hok))
  addNew_eq := ⟨congrArg Prod.fst (run_addNew o l), after_addNew o l⟩
  plain_eq := h.add_plain hfits

/-! ### Keeping the contract -/

theorem contract_of_blank {schema : Handle Schema} (hschema : schema.item.Built)
    (h : blank schema = .ok l) : l.Contract := by
  obtain ⟨⟨⟩, hset, h⟩ := bind_eq_ok_iff.1 h
  cases h
  have hblank : ExampleList.blank schema.item = .ok (plain ⟨schema, [], ∅⟩) := by
    rw [ExampleList.blank, hset]
    rfl
  exact
    { built := .blank hschema hblank
      nodup_tags := List.nodup_nil
      tags_eq := rfl
      counts := List.forall_mem_nil _
      schema_eq := List.forall_mem_nil _ }

theorem Contract.append (h : l.Contract) (hfits : o.Fits l) (ho : l.Admits o) :
    (l.append o.member).Contract := by
  have hadd : l.plain.add o.member = .ok (l.append o.member).plain := by
    rw [h.add_plain hfits, answer, after, h.run_add_of_admits hfits ho]
    rfl
  have hbuilt : (l.append o.member).plain.Built := .add h.built hadd
  refine
    { built := hbuilt
      nodup_tags := hbuilt.nodup_tags
      tags_eq := ?_
      counts := List.forall_mem_append.2 ⟨h.counts, List.forall_mem_singleton.2 ho.counts⟩
      schema_eq :=
        List.forall_mem_append.2 ⟨h.schema_eq, List.forall_mem_singleton.2 ho.schema_eq.symm⟩ }
  rw [TrackedList.append, h.tags_eq, List.map_append, List.toFinset_append, Finset.insert_eq,
    Finset.union_comm]
  rfl

theorem Contract.after_add (h : l.Contract) (hfits : o.Fits l) : (l.after (add o)).Contract := by
  rcases l.admits_or_refuses o with ho | ⟨e, he⟩
  · rw [after, h.run_add_of_admits hfits ho]
    exact h.append hfits ho
  · rw [after, h.run_add_of_refuses hfits he]
    exact h

end TrackedList

end QuestionTree
