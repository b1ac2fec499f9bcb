import QuestionTree.Json.Decoder
import QuestionTree.Proofs.Failure
import QuestionTree.Proofs.Json.Text

/-!
# Values that are written and read back

Each writer of a simple value spells it properly, and the decoder for it reads it back; a
floating-point value that is not finite is written as a word that no number is read from. A list is
read item by item and an object field by field, so the laws of the parts make up that of the whole.
-/

namespace QuestionTree

namespace Json

open Numeral

theorem scan?_repr (n : Nat) {rest : List Char} (hrest : Ends rest) :
    scan? (n.repr.toList ++ rest) = some (n.repr.toList, rest) := by
  have hvalid : (⟨Nat.toDigits 10 n, [], []⟩ : Parts).Valid := by
    refine ⟨Nat.toDigits_ne_nil, fun c => isDigit_of_mem_toDigits, ?_, ?_, .inl rfl⟩
    · by_cases hzero : n = 0
      · rw [hzero]
        exact .inl rfl
      · exact .inr (head?_toDigits hzero)
    · intro c hc
      cases hc
  have htext : (⟨Nat.toDigits 10 n, [], []⟩ : Parts).text = n.repr.toList := by
    rw [Nat.toList_repr]
    exact List.append_nil _
  obtain ⟨c, cs, hhead, hdigit⟩ := Parts.exists_head hvalid
  have hunsigned := Parts.unsigned?_text hvalid hrest
  rw [htext] at hhead hunsigned
  rw [hhead] at hunsigned ⊢
  rw [List.cons_append] at hunsigned ⊢
  rw [scan?]
  · exact hunsigned
  · intro rest' heq
    rw [(List.cons.inj heq).1] at hdigit
    cases hdigit

theorem spelled_ofNat (n : Nat) : (ofNat n).Spelled := by
  rw [ofNat, Spelled]
  refine ⟨?_, fun rest => scan?_repr n⟩
  cases hdigits : Nat.toDigits 10 n with
  | nil => exact absurd hdigits Nat.toDigits_ne_nil
  | cons c cs =>
    refine ⟨c, cs, by rw [Nat.toList_repr, hdigits], .inl (isDigit_of_mem_toDigits (n := n) ?_)⟩
    rw [hdigits]
    exact List.mem_cons_self

theorem spelled_ofFloat (x : Float) : (ofFloat x).Spelled := by
  rw [ofFloat]
  split
  · rename_i hfinite
    rw [Spelled]
    refine ⟨?_, fun rest => NumberStyle.scan?_render hfinite⟩
    obtain ⟨negative, p, _, htext, hvalid, _⟩ := NumberStyle.exists_parts hfinite
    obtain ⟨c, cs, hhead, hdigit⟩ := Parts.exists_head hvalid
    rw [htext, hhead]
    cases negative with
    | true => exact ⟨'-', c :: cs, rfl, .inr rfl⟩
    | false => exact ⟨c, cs, rfl, .inl hdigit⟩
  · rw [Spelled]
    trivial

theorem spelled_ofString (s : String) : (ofString s).Spelled := by
  rw [ofString, Spelled]
  exact Quoted.scan?_escape s

theorem spelled_list {items : List Json} (h : ∀ item ∈ items, item.Spelled) :
    (list items).Spelled := by
  rw [Spelled]
  refine ⟨?_, rfl⟩
  induction items with
  | nil =>
    rw [SpelledItems]
    trivial
  | cons item items ih =>
    obtain ⟨hitem, hitems⟩ := List.forall_mem_cons.1 h
    rw [SpelledItems]
    exact ⟨hitem, ih hitems⟩

theorem spelled_ofList {α : Type} {item : α → Json} {items : List α}
    (h : ∀ a ∈ items, (item a).Spelled) : (ofList item items).Spelled :=
  spelled_list (List.forall_mem_map.2 h)

theorem spelled_ofFields {fields : List (String × Json)}
    (h : ∀ f ∈ fields, f.2.Spelled) : (ofFields fields).Spelled := by
  rw [ofFields, Spelled]
  refine ⟨?_, rfl⟩
  induction fields with
  | nil =>
    rw [List.map_nil, SpelledMembers]
    trivial
  | cons f fields ih =>
    obtain ⟨hf, hfields⟩ := List.forall_mem_cons.1 h
    rw [List.map_cons, SpelledMembers]
    exact ⟨Quoted.scan?_escape f.1, hf, ih hfields⟩

end Json

namespace Decoder

open Json

variable {α σ : Type} {room : Nat}

theorem natBelow_ofNat (limit n : Nat) :
    natBelow limit room (ofNat n) = if n < limit then .ok n else .error .malformed := by
  have hall : (Nat.toDigits 10 n).all Char.isDigit = true :=
    List.all_eq_true.2 fun c => isDigit_of_mem_toDigits
  have hne : (Nat.toDigits 10 n).isEmpty = false :=
    Bool.eq_false_iff.2 fun hempty => Nat.toDigits_ne_nil (List.isEmpty_iff.1 hempty)
  have hnat : Numeral.nat? n.repr = some n := by
    rw [Numeral.nat?, Nat.toList_repr]
    rw [hall, hne, Numeral.digitsValue_toDigits]
    rfl
  rw [ofNat, natBelow, hnat]

theorem word_ofNat {n : Nat} (h : n < UInt64.size) : word room (ofNat n) = .ok n := by
  rw [word, natBelow_ofNat, if_pos h]

theorem string_ofString (s : String) : string room (ofString s) = .ok s := by
  rw [ofString, string, Quoted.unescape?_escape]

theorem float_ofFloat (x : Float) :
    float room (ofFloat x) = if x.isFinite then .ok x else .error .malformed := by
  rw [ofFloat]
  split
  · rename_i hfinite
    rw [float, NumberStyle.float?_render hfinite]
  · rfl

theorem list_ofList {item : Decoder α} {toJson : α → Json} {items : List α}
    (h : ∀ a ∈ items, item room (toJson a) = .ok a) :
    Decoder.list item (room + 1) (ofList toJson items) = .ok items := by
  have hitems : (items.map toJson).mapM (item room) = .ok items := by
    induction items with
    | nil => rfl
    | cons a items ih =>
      obtain ⟨ha, hitems⟩ := List.forall_mem_cons.1 h
      rw [List.map_cons, List.mapM_cons, ha, ih hitems]
      rfl
  rw [ofList, Decoder.list, hitems]
  rfl

/-- A value is read if the one that it is built from is read and admits of it. -/
theorem refine_of_ok {β : Type} {read : Decoder α} {build : α → Except Refusal β} {j : Json} {a : α}
    {b : β} (hread : read room j = .ok a) (hbuild : build a = .ok b) :
    Decoder.refine read build room j = .ok b := by
  simp only [Decoder.refine, hread, bind, Except.bind, hbuild]
  rfl

theorem variant_ofFields {cases : List (String × Content α)} {name : String} {read : Decoder α}
    {value : Json} (h : cases.lookup name = some (.value read)) :
    variant cases (room + 1) (Json.ofFields [(name, value)]) = read room value := by
  simp only [Json.ofFields, List.map_cons, List.map_nil, variant, Quoted.unescape?_escape, h, bind,
    Except.bind]
  cases read room value <;> rfl

/-! ### Objects -/

variable {fields : List (Field σ)} {draft draft' : σ} {f : Field σ} {name : String} {value : Json}
  {members : List (String × Json)}

/-- Takes the members of an object into a draft, one after the other. -/
def readNamed (fields : List (Field σ)) (draft : σ) (members : List (String × Json)) :
    Except ReadError σ :=
  (members.map fun (name, value) => (Quoted.escape name, value)).foldlM (readMember fields) draft

theorem ofFields_ofFields {finish : σ → Except ReadError α} :
    Decoder.ofFields fields draft finish (Json.ofFields members) =
      readNamed fields draft members >>= finish := rfl

theorem structured_ofFields {fields : Nat → List (Field σ)} {finish : σ → Except ReadError α} :
    structured fields draft finish (room + 1) (Json.ofFields members) =
      readNamed (fields room) draft members >>= finish := rfl

theorem read_field {get : σ → Option α} {set : σ → Option α → σ}
    {read : Json → Except ReadError α} {a : α} (h : read value = .ok a) :
    (field name get set read).read draft value = .ok (set draft (some a)) := by
  change (do return set draft (some (← read value))) = _
  rw [h]
  rfl

theorem read_withDefault {get : σ → Option α} {set : σ → Option α → σ}
    {read : Json → Except ReadError α} {a : α} (h : read value = .ok a) :
    (field name get set read).withDefault.read draft value = .ok (set draft (some a)) := by
  change (field name get set read).read draft value = _
  exact read_field h

theorem read_field_error {get : σ → Option α} {set : σ → Option α → σ}
    {read : Json → Except ReadError α} {e : ReadError} (h : read value = .error e) :
    (field name get set read).read draft value = .error e := by
  change (do return set draft (some (← read value))) = _
  rw [h]
  rfl

/-- A member that the draft does not hold yet is read by the field of its name. -/
theorem readNamed_cons (hfind : fields.find? (·.name == name) = some f)
    (hset : f.isSet draft = false) :
    readNamed fields draft ((name, value) :: members) =
      f.read draft value >>= fun draft => readNamed fields draft members := by
  have hmember : readMember fields draft (Quoted.escape name, value) = f.read draft value := by
    rw [readMember, Quoted.unescape?_escape]
    simp only [hfind, hset]
    rfl
  rw [readNamed, List.map_cons, List.foldlM_cons, hmember]
  rfl

theorem readNamed_of_read (hfind : fields.find? (·.name == name) = some f)
    (hset : f.isSet draft = false) (hread : f.read draft value = .ok draft') :
    readNamed fields draft ((name, value) :: members) = readNamed fields draft' members := by
  rw [readNamed_cons hfind hset, hread]
  rfl

theorem readNamed_of_error {e : ReadError} (hfind : fields.find? (·.name == name) = some f)
    (hset : f.isSet draft = false) (hread : f.read draft value = .error e) :
    readNamed fields draft ((name, value) :: members) = .error e := by
  rw [readNamed_cons hfind hset, hread]
  rfl

end Decoder

end QuestionTree
