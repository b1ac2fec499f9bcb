import QuestionTree.Error
import Mathlib.Data.List.Forall2

/-!
# Operations that may fail

A sequence of operations succeeds exactly if each of them does. These facts take such a sequence
apart, so that the proofs about it need not unfold it. Operations that change a state in place leave
what was changed before a failure. The result of operations that also report is the one of the
operations without their reports.
-/

namespace QuestionTree

universe u v

variable {ε : Type u} {α β : Type v}

theorem bind_eq_ok_iff {x : Except ε α} {f : α → Except ε β} {b : β} :
    x >>= f = .ok b ↔ ∃ a, x = .ok a ∧ f a = .ok b := by
  cases x with
  | error e =>
    constructor
    · intro h
      cases h
    · rintro ⟨a, h, _⟩
      cases h
  | ok a =>
    constructor
    · intro h
      exact ⟨a, rfl, h⟩
    · rintro ⟨a, h, hf⟩
      cases h
      exact hf

theorem map_eq_ok_iff {x : Except ε α} {f : α → β} {b : β} :
    f <$> x = .ok b ↔ ∃ a, x = .ok a ∧ f a = b := by
  cases x with
  | error e =>
    constructor
    · intro h
      cases h
    · rintro ⟨a, h, _⟩
      cases h
  | ok a =>
    constructor
    · intro h
      exact ⟨a, rfl, Except.ok.inj h⟩
    · rintro ⟨a, h, rfl⟩
      cases h
      rfl

theorem forM_eq_ok_iff {α : Type v} {f : α → Except ε Unit} {l : List α} :
    l.forM f = .ok () ↔ ∀ a ∈ l, f a = .ok () := by
  induction l with
  | nil => exact ⟨fun _ a ha => absurd ha List.not_mem_nil, fun _ => rfl⟩
  | cons a l ih =>
    have hcons : (a :: l).forM f = f a >>= fun _ => l.forM f := rfl
    rw [hcons, bind_eq_ok_iff, List.forall_mem_cons]
    constructor
    · rintro ⟨⟨⟩, ha, hl⟩
      exact ⟨ha, ih.1 hl⟩
    · rintro ⟨ha, hl⟩
      exact ⟨(), ha, ih.2 hl⟩

theorem exists_ok_of_map_toOption {γ : Type*} {x : Except ε α} {f : α → γ} {c : γ}
    (h : x.toOption.map f = some c) : ∃ a, x = .ok a ∧ f a = c := by
  cases x with
  | error e => cases h
  | ok a => exact ⟨a, rfl, Option.some.inj h⟩

/-- What the first state has and every step keeps, the last state has. -/
theorem foldlM_invariant {ε σ α : Type} {f : σ → α → Except ε σ} {P : σ → Prop} {l : List α}
    {s s' : σ} (hstep : ∀ s a s', P s → f s a = .ok s' → P s') (hs : P s)
    (h : l.foldlM f s = .ok s') : P s' := by
  induction l generalizing s with
  | nil =>
    cases h
    exact hs
  | cons a l ih =>
    rw [List.foldlM_cons, bind_eq_ok_iff] at h
    obtain ⟨next, hnext, h⟩ := h
    exact ih (hstep s a next hs hnext) h

theorem forall_of_mapM {ε α β : Type} {f : α → Except ε β} {P : β → Prop} {l : List α}
    {values : List β} (hf : ∀ a b, f a = .ok b → P b) (h : l.mapM f = .ok values) :
    ∀ b ∈ values, P b := by
  induction l generalizing values with
  | nil =>
    cases h
    exact List.forall_mem_nil _
  | cons a l ih =>
    rw [List.mapM_cons, bind_eq_ok_iff] at h
    obtain ⟨b, hb, h⟩ := h
    obtain ⟨rest, hrest, h⟩ := bind_eq_ok_iff.1 h
    cases h
    exact List.forall_mem_cons.2 ⟨hf a b hb, ih hrest⟩

theorem mapM_eq_ok {f : α → Except ε β} {g : α → β} {l : List α} (h : ∀ a ∈ l, f a = .ok (g a)) :
    l.mapM f = .ok (l.map g) := by
  induction l with
  | nil => rfl
  | cons a l ih =>
    rw [List.mapM_cons, h a (List.mem_cons_self ..),
      ih fun b hb => h b (List.mem_cons_of_mem a hb)]
    rfl

theorem mapM_eq_ok_iff {f : α → Except ε β} {l : List α} {bs : List β} :
    l.mapM f = .ok bs ↔ List.Forall₂ (fun a b => f a = .ok b) l bs := by
  induction l generalizing bs with
  | nil =>
    rw [List.mapM_nil, List.forall₂_nil_left_iff]
    exact ⟨fun h => (Except.ok.inj h).symm, fun h => congrArg Except.ok h.symm⟩
  | cons a l ih =>
    rw [List.mapM_cons, List.forall₂_cons_left_iff, bind_eq_ok_iff]
    constructor
    · rintro ⟨b, hb, h⟩
      obtain ⟨rest, hrest, h⟩ := bind_eq_ok_iff.1 h
      cases h
      exact ⟨b, rest, hb, ih.1 hrest, rfl⟩
    · rintro ⟨b, rest, hb, hrest, rfl⟩
      exact ⟨b, hb, bind_eq_ok_iff.2 ⟨rest, ih.2 hrest, rfl⟩⟩

theorem ne_nil_of_mapM {f : α → Except ε β} {a : α} {l : List α} {bs : List β}
    (h : (a :: l).mapM f = .ok bs) : bs ≠ [] := by
  obtain ⟨b, rest, _, _, rfl⟩ := List.forall₂_cons_left_iff.1 (mapM_eq_ok_iff.1 h)
  exact List.cons_ne_nil b rest

theorem exists_mapM_eq_ok_iff {f : α → Except ε β} {l : List α} :
    (∃ bs, l.mapM f = .ok bs) ↔ ∀ a ∈ l, ∃ b, f a = .ok b := by
  induction l with
  | nil => exact ⟨fun _ a ha => absurd ha List.not_mem_nil, fun _ => ⟨[], rfl⟩⟩
  | cons a l ih =>
    rw [List.mapM_cons, List.forall_mem_cons, ← ih]
    constructor
    · rintro ⟨bs, h⟩
      obtain ⟨b, hb, h⟩ := bind_eq_ok_iff.1 h
      obtain ⟨rest, hrest, _⟩ := bind_eq_ok_iff.1 h
      exact ⟨⟨b, hb⟩, rest, hrest⟩
    · rintro ⟨⟨b, hb⟩, rest, hrest⟩
      exact ⟨b :: rest, bind_eq_ok_iff.2 ⟨b, hb, bind_eq_ok_iff.2 ⟨rest, hrest, rfl⟩⟩⟩

theorem forM_eq_map_mapM {f : α → Except ε β} {check : α → Except ε PUnit} {l : List α}
    (h : ∀ a, check a = (fun _ => PUnit.unit) <$> f a) :
    l.forM check = (fun _ => PUnit.unit) <$> l.mapM f := by
  induction l with
  | nil => rfl
  | cons a l ih =>
    have hcons : (a :: l).forM check = check a >>= fun _ => l.forM check := rfl
    rw [hcons, List.mapM_cons, h, ih]
    cases f a with
    | error e => rfl
    | ok b => cases l.mapM f <;> rfl

/-! ### Operations in place -/

theorem run_bind {ε σ α β : Type} (x : ExceptT ε (StateM σ) α) (f : α → ExceptT ε (StateM σ) β)
    (s : σ) :
    (x >>= f).run.run s =
      match x.run.run s with
      | (.ok a, s') => (f a).run.run s'
      | (.error e, s') => (.error e, s') := by
  show (x.run >>= ExceptT.bindCont f).run s = _
  rw [StateT.run_bind]
  obtain ⟨a | e, s'⟩ := x.run.run s <;> rfl

theorem run_bind_liftExcept {ε σ α β : Type} (x : Except ε α) (f : α → ExceptT ε (StateM σ) β)
    (s : σ) :
    (liftExcept x >>= f).run.run s =
      match x with
      | .ok a => (f a).run.run s
      | .error e => (.error e, s) := by
  rw [run_bind]
  cases x <;> rfl

/-! ### Results of operations that report -/

namespace Logged

variable {α β : Type}

@[simp] theorem result_pure (a : α) : (pure a : Logged α).result = .ok a := rfl

@[simp] theorem result_liftM (x : Except Error α) : (liftM x : Logged α).result = x := rfl

@[simp] theorem result_bind (x : Logged α) (f : α → Logged β) :
    (x >>= f).result = x.result >>= fun a => (f a).result := by
  show (x.andThen f).result = _
  rw [andThen]
  cases x.result <;> rfl

end Logged

end QuestionTree
