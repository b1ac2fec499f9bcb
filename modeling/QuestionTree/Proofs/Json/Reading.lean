import QuestionTree.Json.Decoder
import QuestionTree.Proofs.Failure

/-!
# What decoders read

What is read has the properties that the decoder sees to. A number is below the limit, the items of
a list and the content of a case have what their decoders see to, and what the empty draft has and
every field keeps, the finished draft of an object has, in whatever order its fields were read.
-/

namespace QuestionTree

namespace Decoder

variable {α β σ : Type} {P : α → Prop}

/-- Whether a decoder reads only values of a kind. -/
def Only (value : Decoder α) (P : α → Prop) : Prop := ∀ room j a, value room j = .ok a → P a

theorem only_natBelow (limit : Nat) : (natBelow limit).Only (· < limit) := by
  intro room j n h
  cases j with
  | num spelling =>
    rw [natBelow] at h
    split at h
    · split at h
      · cases h
        assumption
      · cases h
    · cases h
  | _ => cases h

theorem only_list {item : Decoder α} (hitem : item.Only P) :
    (list item).Only fun values => ∀ a ∈ values, P a := by
  intro room j values h
  cases room with
  | zero => cases j <;> cases h
  | succ room =>
    cases j with
    | arr items closed =>
      obtain ⟨values', hvalues, h⟩ := bind_eq_ok_iff.1 h
      cases closed with
      | false => cases h
      | true =>
        cases h
        exact forall_of_mapM (hitem room) hvalues
    | _ => cases h

theorem only_option {value : Decoder α} (hvalue : value.Only P) :
    (option value).Only fun value? => ∀ a ∈ value?, P a := by
  have hsome : ∀ {room j} {value? : Option α}, some <$> value room j = .ok value? →
      ∀ a ∈ value?, P a := by
    intro room j value? h a ha
    obtain ⟨b, hb, rfl⟩ := map_eq_ok_iff.1 h
    exact Option.mem_some.1 ha ▸ hvalue room j b hb
  intro room j value? h
  cases j with
  | null =>
    cases h
    intro a ha
    cases ha
  | _ => exact hsome h

theorem refine_eq_ok_iff {value : Decoder α} {build : α → Except Refusal β} {room : Nat} {j : Json}
    {b : β} : value.refine build room j = .ok b ↔ ∃ a, value room j = .ok a ∧ build a = .ok b := by
  rw [refine, bind_eq_ok_iff]
  refine exists_congr fun a => and_congr_right fun _ => ?_
  cases build a with
  | error refusal => constructor <;> (intro h; cases h)
  | ok b' => constructor <;> (intro h; cases h; rfl)

/-! ### Objects -/

theorem Field.read_withDefault (f : Field σ) : f.withDefault.read = f.read := rfl

theorem exists_of_field {name : String} {get : σ → Option α} {set : σ → Option α → σ}
    {value : Json → Except ReadError α} {d d' : σ} {j : Json}
    (h : (field name get set value).read d j = .ok d') :
    ∃ a, value j = .ok a ∧ d' = set d (some a) := by
  obtain ⟨a, ha, h⟩ := bind_eq_ok_iff.1 h
  exact ⟨a, ha, (Except.ok.inj h).symm⟩

theorem exists_of_withDefault {name : String} {get : σ → Option α} {set : σ → Option α → σ}
    {value : Json → Except ReadError α} {d d' : σ} {j : Json}
    (h : (field name get set value).withDefault.read d j = .ok d') :
    ∃ a, value j = .ok a ∧ d' = set d (some a) := by
  rw [Field.read_withDefault] at h
  exact exists_of_field h

section Structured

variable {P : σ → Prop} {fields : List (Field σ)} {draft draft' : σ}

theorem readMember_keeps {member : String × Json}
    (hfields : ∀ f ∈ fields, ∀ d j d', P d → f.read d j = .ok d' → P d') (hdraft : P draft)
    (h : readMember fields draft member = .ok draft') : P draft' := by
  rw [readMember] at h
  split at h
  · cases h
  · split at h
    · split at h
      · cases h
        exact hdraft
      · cases h
    · rename_i f hfind
      split at h
      · cases h
      · exact hfields f (List.mem_of_find?_eq_some hfind) draft member.2 draft' hdraft h

theorem readItems_keeps {items : List Json}
    (hfields : ∀ f ∈ fields, ∀ d j d', P d → f.read d j = .ok d' → P d') (hdraft : P draft)
    (h : readItems fields draft items = .ok draft') : P draft' := by
  induction fields generalizing draft items with
  | nil =>
    cases items with
    | nil =>
      cases h
      exact hdraft
    | cons item items => cases h
  | cons f fields ih =>
    have hrest : ∀ g ∈ fields, ∀ d j d', P d → g.read d j = .ok d' → P d' := fun g hg =>
      hfields g (List.mem_cons_of_mem f hg)
    cases items with
    | nil =>
      rw [readItems] at h
      split at h
      · exact ih hrest hdraft h
      · cases h
    | cons item items =>
      rw [readItems, bind_eq_ok_iff] at h
      obtain ⟨next, hnext, h⟩ := h
      exact ih hrest (hfields f (List.mem_cons_self ..) draft item next hdraft hnext) h

/-- The draft that is finished has what the first draft has and every field keeps. -/
theorem exists_draft_of_ofFields {finish : σ → Except ReadError α} {j : Json} {a : α}
    (hfields : ∀ f ∈ fields, ∀ d j d', P d → f.read d j = .ok d' → P d') (hdraft : P draft)
    (h : ofFields fields draft finish j = .ok a) : ∃ d, P d ∧ finish d = .ok a := by
  cases j with
  | obj members closed =>
    obtain ⟨d, hd, h⟩ := bind_eq_ok_iff.1 h
    cases closed with
    | false => cases h
    | true => exact ⟨d, foldlM_invariant (fun _ _ _ => readMember_keeps hfields) hdraft hd, h⟩
  | arr items closed =>
    obtain ⟨d, hd, h⟩ := bind_eq_ok_iff.1 h
    cases closed with
    | false => cases h
    | true => exact ⟨d, readItems_keeps hfields hdraft hd, h⟩
  | _ => cases h

theorem ofFields_of_structured {fields : Nat → List (Field σ)} {finish : σ → Except ReadError α}
    {room : Nat} {j : Json} {a : α} (h : structured fields draft finish room j = .ok a) :
    ∃ below, room = below + 1 ∧ ofFields (fields below) draft finish j = .ok a := by
  cases room with
  | zero => cases h
  | succ below => exact ⟨below, rfl, h⟩

theorem exists_draft_of_structured {fields : Nat → List (Field σ)} {finish : σ → Except ReadError α}
    {room : Nat} {j : Json} {a : α}
    (hfields : ∀ room, ∀ f ∈ fields room, ∀ d j d', P d → f.read d j = .ok d' → P d')
    (hdraft : P draft) (h : structured fields draft finish room j = .ok a) :
    ∃ d, P d ∧ finish d = .ok a := by
  obtain ⟨below, _, h⟩ := ofFields_of_structured h
  exact exists_draft_of_ofFields (hfields below) hdraft h

end Structured

theorem required_eq_ok_iff {name : String} {value : Option α} {a : α} :
    required name value = .ok a ↔ value = some a := by
  cases value with
  | none => constructor <;> (intro h; cases h)
  | some b => rw [required, Except.ok.injEq, Option.some.injEq]

/-! ### Cases -/

theorem mem_of_lookup {α β : Type} [BEq α] [LawfulBEq α] {l : List (α × β)} {a : α} {b : β}
    (h : l.lookup a = some b) : (a, b) ∈ l := by
  obtain ⟨before, after, heq, _⟩ := List.lookup_eq_some_iff.1 h
  exact heq ▸ List.mem_append_right _ List.mem_cons_self

theorem exists_case {cases : List (String × Content α)} {spelling : String} {content : Content α}
    (h : (match Quoted.unescape? spelling with
      | none => .error .malformed
      | some name =>
        match cases.lookup name with
        | some content => .ok content
        | none => .error (.unknownVariant name (cases.map (·.1)))) =
      (.ok content : Except ReadError (Content α))) : ∃ name, (name, content) ∈ cases := by
  split at h
  · cases h
  · rename_i name _
    split at h
    · rename_i hlookup
      cases h
      exact ⟨name, mem_of_lookup hlookup⟩
    · cases h

/-- The name of a case is the value, or its content is read by the decoder of the case. -/
theorem only_variant {cases : List (String × Content α)}
    (hnothing : ∀ name a, (name, .nothing a) ∈ cases → P a)
    (hvalue : ∀ name read, (name, .value read) ∈ cases → Only read P) :
    (variant cases).Only P := by
  intro room j a h
  cases j with
  | str spelling =>
    obtain ⟨content, hcontent, h⟩ := bind_eq_ok_iff.1 h
    obtain ⟨name, hmem⟩ := exists_case hcontent
    cases content with
    | nothing b =>
      cases h
      exact hnothing name a hmem
    | value read => cases h
  | obj members closed =>
    cases members with
    | nil => cases room <;> cases h
    | cons member others =>
      cases room with
      | zero => cases h
      | succ room =>
        obtain ⟨content, hcontent, h⟩ := bind_eq_ok_iff.1 h
        obtain ⟨name, hmem⟩ := exists_case hcontent
        -- whether the object ends after this member does not change what was read
        have hend : ∀ b, P b → (if others.isEmpty && closed then pure b
            else throw ReadError.malformed : Except ReadError α) = .ok a → P a := by
          intro b hb hend
          split at hend
          · cases hend
            exact hb
          · cases hend
        cases content with
        | nothing c =>
          dsimp only at h
          split at h
          · exact hend c (hnothing name c hmem) h
          · cases h
        | value read =>
          obtain ⟨b, hb, h⟩ := bind_eq_ok_iff.1 h
          exact hend b (hvalue name read hmem room member.2 b hb) h
  | _ => cases h

end Decoder

end QuestionTree
