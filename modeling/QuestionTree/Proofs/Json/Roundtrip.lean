import QuestionTree.Proofs.Json.Codec
import QuestionTree.Proofs.Json.Reading

/-!
# Texts that keep a value

`Decoder.Codes` says of one value that its writer spells it properly and that its decoder reads it
as it was written, wherever enough levels of nesting may still be entered. The laws follow the shape
of the decoders: those of a list, an option or an object come from those of its parts, so a value
needs no more than that its own parts are read back. A value that is coded within the levels that a
reader enters is loaded from the text that is written of it.
-/

namespace QuestionTree

namespace Decoder

open Json

variable {α β σ : Type}

/-- Whether a value is spelled properly, and read as it was written where some levels of nesting may
be entered. -/
structure Codes (read : Decoder α) (write : α → Json) (levels : Nat) (a : α) : Prop where
  spelled : (write a).Spelled
  reads : ∀ room, levels ≤ room → read room (write a) = .ok a

variable {read : Decoder α} {write : α → Json} {levels : Nat}

/-! ### Texts -/

/-- What is read off a tree is loaded from the text that is written of the tree. -/
theorem load_of_read {j : Json} {a : α} (hspelled : j.Spelled) (h : read maxNesting j = .ok a) :
    read.load j.write = .ok a := by
  rw [load, ofText, ofText_write hspelled]
  dsimp only
  rw [h]
  rfl

/-- A value that is coded is loaded from its text. -/
theorem Codes.load_write {a : α} (h : Codes read write levels a) (hlevels : levels ≤ maxNesting) :
    read.load (write a).write = .ok a :=
  load_of_read h.spelled (h.reads maxNesting hlevels)

theorem exists_of_load {text : String} {a : α} (h : read.load text = .ok a) :
    ∃ j, read maxNesting j = .ok a := by
  rw [load] at h
  split at h
  · rename_i b htext
    cases h
    obtain ⟨b, hread, hend⟩ := bind_eq_ok_iff.1 htext
    split at hend
    · cases hend
      exact ⟨_, hread⟩
    · cases hend
  · cases h

theorem Only.of_load {P : α → Prop} (honly : read.Only P) {text : String} {a : α}
    (h : read.load text = .ok a) : P a := by
  obtain ⟨j, hread⟩ := exists_of_load h
  exact honly maxNesting j a hread

/-! ### Simple values -/

theorem codes_string (s : String) : Codes string ofString 0 s :=
  ⟨spelled_ofString s, fun _ _ => string_ofString s⟩

theorem codes_word {n : Nat} (h : n < UInt64.size) : Codes word ofNat 0 n :=
  ⟨spelled_ofNat n, fun _ _ => word_ofNat h⟩

theorem only_float : float.Only fun x => x.isFinite = true := by
  intro room j x h
  cases j with
  | num spelling =>
    rw [float] at h
    split at h
    · rename_i hx
      cases h
      exact Numeral.isFinite_of_float? hx
    · cases h
  | _ => cases h

theorem codes_float {x : Float} (h : x.isFinite = true) : Codes float ofFloat 0 x := by
  refine ⟨spelled_ofFloat x, fun room _ => ?_⟩
  rw [float_ofFloat, if_pos h]

theorem codes_variant {cases : List (String × Content α)} {name : α → String} {a : α}
    (h : cases.lookup (name a) = some (.nothing a)) :
    Codes (variant cases) (fun a => ofString (name a)) 0 a := by
  refine ⟨spelled_ofString _, fun room _ => ?_⟩
  simp only [ofString, variant, Quoted.unescape?_escape, h, bind, Except.bind]
  rfl

/-! ### Lists, options and values that are built -/

theorem codes_list {items : List α} (h : ∀ a ∈ items, Codes read write levels a) :
    Codes (list read) (ofList write) (levels + 1) items := by
  refine ⟨spelled_ofList fun a ha => (h a ha).spelled, fun room hroom => ?_⟩
  cases room with
  | zero => exact absurd hroom (Nat.not_succ_le_zero levels)
  | succ room => exact list_ofList fun a ha => (h a ha).reads room (Nat.le_of_succ_le_succ hroom)

theorem option_of_ne_null {room : Nat} {j : Json} (h : j ≠ .null) :
    option read room j = some <$> read room j := by
  cases j with
  | null => exact absurd rfl h
  | _ => rfl

theorem codes_option {value? : Option α} (h : ∀ a ∈ value?, Codes read write levels a)
    (hsome : ∀ a, write a ≠ .null) : Codes (option read) (ofOption write) levels value? := by
  cases value? with
  | none => exact ⟨by rw [ofOption, Spelled]; trivial, fun _ _ => rfl⟩
  | some a =>
    have hcodes := h a rfl
    refine ⟨hcodes.spelled, fun room hroom => ?_⟩
    rw [ofOption, option_of_ne_null (hsome a), hcodes.reads room hroom]
    rfl

theorem codes_refine {build : α → Except Refusal β} {source : β → α} {b : β}
    (h : Codes read write levels (source b)) (hbuild : build (source b) = .ok b) :
    Codes (refine read build) (fun b => write (source b)) levels b :=
  ⟨h.spelled, fun room hroom => refine_of_ok (h.reads room hroom) hbuild⟩

/-! ### Objects -/

/-- An object whose members are read into the draft that it is finished from is coded one level
above them. -/
theorem codes_structured {fields : Nat → List (Field σ)} {draft : σ}
    {finish : σ → Except ReadError α} {members : List (String × Json)} {a : α}
    (hwrite : write a = Json.ofFields members) (hspelled : ∀ m ∈ members, m.2.Spelled)
    (hread : ∀ room, levels ≤ room → readNamed (fields room) draft members >>= finish = .ok a) :
    Codes (structured fields draft finish) write (levels + 1) a := by
  refine ⟨hwrite ▸ spelled_ofFields hspelled, fun room hroom => ?_⟩
  cases room with
  | zero => exact absurd hroom (Nat.not_succ_le_zero levels)
  | succ room =>
    rw [hwrite, structured_ofFields]
    exact hread room (Nat.le_of_succ_le_succ hroom)

/-! ### Dictionaries -/

/-- Writes the values of a dictionary under their names. -/
def ofEntries (write : α → Json) (entries : List (String × α)) : Json :=
  Json.ofFields (entries.map fun (name, a) => (name, write a))

/-- A dictionary with an entry, in place of an entry under the same name. -/
def putEntry (entries : List (String × α)) (name : String) (a : α) : List (String × α) :=
  entries.filter (·.1 != name) ++ [(name, a)]

theorem putEntry_of_notMem {entries : List (String × α)} {name : String} (a : α)
    (h : name ∉ entries.map Prod.fst) : putEntry entries name a = entries ++ [(name, a)] := by
  have hkept : entries.filter (·.1 != name) = entries := by
    refine List.filter_eq_self.2 fun entry hentry => ?_
    rw [bne_iff_ne]
    exact fun heq => h (heq ▸ List.mem_map_of_mem hentry)
  rw [putEntry, hkept]

theorem nodup_putEntry {entries : List (String × α)} (name : String) (a : α)
    (h : (entries.map Prod.fst).Nodup) : ((putEntry entries name a).map Prod.fst).Nodup := by
  have hsub : ((entries.filter (·.1 != name)).map Prod.fst).Nodup :=
    h.sublist (List.filter_sublist.map Prod.fst)
  rw [putEntry, List.map_append, List.map_singleton, List.nodup_append]
  refine ⟨hsub, List.nodup_singleton name, fun key hkey other hother => ?_⟩
  obtain ⟨entry, hentry, rfl⟩ := List.mem_map.1 hkey
  rw [List.mem_singleton.1 hother]
  exact bne_iff_ne.1 (List.mem_filter.1 hentry).2

/-- Takes one more member of an object into a dictionary. -/
def readEntry (read : Decoder α) (room : Nat) (entries : List (String × α))
    (member : String × Json) : Except ReadError (List (String × α)) := do
  let name ← string room (.str member.1)
  let a ← read room member.2
  return putEntry entries name a

theorem dictionary_obj (room : Nat) (members : List (String × Json)) (closed : Bool) :
    dictionary read (room + 1) (.obj members closed) = (do
      let entries ← members.foldlM (readEntry read room) []
      if closed then return entries else throw .malformed) := rfl

theorem readEntry_of_notMem {room : Nat} {entries : List (String × α)} {name : String} {a : α}
    (hname : name ∉ entries.map Prod.fst) (hread : read room (write a) = .ok a) :
    readEntry read room entries (Quoted.escape name, write a) = .ok (entries ++ [(name, a)]) := by
  refine bind_eq_ok_iff.2 ⟨name, string_ofString name, bind_eq_ok_iff.2 ⟨a, hread, ?_⟩⟩
  rw [putEntry_of_notMem a hname]
  rfl

theorem foldlM_readEntry {room : Nat} {entries rest : List (String × α)}
    (hread : ∀ entry ∈ rest, read room (write entry.2) = .ok entry.2)
    (hnodup : ((entries ++ rest).map Prod.fst).Nodup) :
    (rest.map fun (name, a) => (Quoted.escape name, write a)).foldlM (readEntry read room) entries =
      .ok (entries ++ rest) := by
  induction rest generalizing entries with
  | nil => exact congrArg Except.ok (List.append_nil entries).symm
  | cons entry rest ih =>
    obtain ⟨hentry, hrest⟩ := List.forall_mem_cons.1 hread
    have hname : entry.1 ∉ entries.map Prod.fst := by
      rw [List.map_append, List.map_cons, List.nodup_append] at hnodup
      exact fun hmem => hnodup.2.2 _ hmem _ List.mem_cons_self rfl
    rw [List.append_cons] at hnodup ⊢
    rw [List.map_cons, List.foldlM_cons, readEntry_of_notMem hname hentry]
    exact ih hrest hnodup

theorem codes_dictionary {entries : List (String × α)}
    (h : ∀ entry ∈ entries, Codes read write levels entry.2)
    (hnodup : (entries.map Prod.fst).Nodup) :
    Codes (dictionary read) (ofEntries write) (levels + 1) entries := by
  refine ⟨spelled_ofFields (List.forall_mem_map.2 fun entry hentry => (h entry hentry).spelled),
    fun room hroom => ?_⟩
  cases room with
  | zero => exact absurd hroom (Nat.not_succ_le_zero levels)
  | succ room =>
    have hentries : (entries.map fun (name, a) => (Quoted.escape name, write a)).foldlM
        (readEntry read room) [] = .ok ([] ++ entries) :=
      foldlM_readEntry (fun entry hentry =>
        (h entry hentry).reads room (Nat.le_of_succ_le_succ hroom)) hnodup
    rw [ofEntries, Json.ofFields, List.map_map, dictionary_obj]
    exact bind_eq_ok_iff.2 ⟨entries, hentries, rfl⟩

theorem only_dictionary : (dictionary read).Only fun entries => (entries.map Prod.fst).Nodup := by
  intro room j entries h
  cases room with
  | zero => cases j <;> cases h
  | succ room =>
    cases j with
    | obj members closed =>
      rw [dictionary_obj] at h
      obtain ⟨entries', hentries, h⟩ := bind_eq_ok_iff.1 h
      cases closed with
      | false => cases h
      | true =>
        cases h
        refine foldlM_invariant (P := fun entries => (entries.map Prod.fst).Nodup)
          (fun before member after hbefore hafter => ?_) List.nodup_nil hentries
        obtain ⟨name, _, hafter⟩ := bind_eq_ok_iff.1 hafter
        obtain ⟨a, _, hafter⟩ := bind_eq_ok_iff.1 hafter
        cases hafter
        exact nodup_putEntry name a hbefore
    | _ => cases h

end Decoder

end QuestionTree
