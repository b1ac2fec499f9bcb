import QuestionTree.Proofs.Queue
import Mathlib.Order.Basic

/-!
# The order of service

A queue is `Heaped` if no item ranks before one above it. Insertions and services keep a queue
heaped, and of a heaped queue none of the others ranks before the item that is served next. What is
below an item is given by `Queue.items`, so an operation that moves items about is judged by which
items it leaves below which, and not by the places where they stand.
-/

namespace QuestionTree

variable {α ν : Type} [Arithmetic ν] [Prioritized α ν]

/-- Priorities rank in one line if gains do. -/
instance [Std.TransOrd ν] : Std.TransOrd (Priority ν) :=
  have : Std.TransCmp fun a b : Priority ν => compareOn Priority.order b a := inferInstance
  inferInstanceAs (Std.TransCmp (compareLex (compareOn Priority.gain)
    fun a b : Priority ν => compareOn Priority.order b a))

namespace Queue

/-- Whether no item ranks before one above it. -/
def Heaped : Queue α → Prop
  | empty => True
  | item a left right =>
    (∀ b ∈ left.items, (rank b a).isLE) ∧ (∀ b ∈ right.items, (rank b a).isLE) ∧
      left.Heaped ∧ right.Heaped

omit [Arithmetic ν] [Prioritized α ν] in
theorem eq_empty_of_first? {q : Queue α} (h : q.first? = none) : q = empty := by
  cases q with
  | empty => rfl
  | item a left right => cases h

theorem heaped_of_last? {q q' : Queue α} {a : α} (hq : q.Heaped) (h : q.last? = some (a, q')) :
    q'.Heaped := by
  induction q generalizing a q' with
  | empty => simp [last?] at h
  | item b left right ihLeft ihRight =>
    obtain ⟨hleft, hright, hleftHeaped, hrightHeaped⟩ := hq
    simp only [last?] at h
    split at h
    · obtain ⟨⟨c, rest⟩, hrest, heq⟩ := Option.map_eq_some_iff.1 h
      cases heq
      refine ⟨fun d hd => hleft d ?_, hright, ihLeft hleftHeaped hrest, hrightHeaped⟩
      rw [items_of_last? hrest]
      exact Multiset.mem_cons_of_mem hd
    · split at h
      · rename_i c rest hrest
        cases h
        refine ⟨hleft, fun d hd => hright d ?_, hleftHeaped, ihRight hrightHeaped hrest⟩
        rw [items_of_last? hrest]
        exact Multiset.mem_cons_of_mem hd
      · cases h
        exact hleftHeaped

/-! ### Ranks -/

variable [Std.TransOrd ν]

theorem rank_self (a : α) : rank a a = .eq := Std.ReflOrd.compare_self

theorem rank_swap (a b : α) : rank a b = (rank b a).swap := Std.OrientedOrd.eq_swap

theorem isLE_trans {a b c : α} (hab : (rank a b).isLE) (hbc : (rank b c).isLE) :
    (rank a c).isLE :=
  Std.TransOrd.isLE_trans hab hbc

theorem isLE_of_ne_lt {a b : α} (h : rank a b ≠ .lt) : (rank b a).isLE := by
  rw [rank_swap]
  cases hrank : rank a b with
  | lt => exact absurd hrank h
  | eq => rfl
  | gt => rfl

theorem isLE_first {q : Queue α} {a b : α} (hq : q.Heaped) (ha : q.first? = some a)
    (hb : b ∈ q.items) : (rank b a).isLE := by
  cases q with
  | empty => cases ha
  | item c left right =>
    cases ha
    rw [items_item, Multiset.mem_cons, Multiset.mem_add] at hb
    rcases hb with rfl | hb | hb
    · rw [rank_self]
      rfl
    · exact hq.1 b hb
    · exact hq.2.1 b hb

/-! ### Insertions -/

/-- If at most one item of the queue below ranks before the one above it, an exchange puts the two
in order. -/
theorem heaped_exchange {q : Queue α} {a new : α} {rest : Multiset α} (hq : q.Heaped)
    (hitems : q.items = new ::ₘ rest) (hrest : ∀ b ∈ rest, (rank b a).isLE) :
    (exchange a q).2.Heaped ∧ (∀ b ∈ (exchange a q).2.items, (rank b (exchange a q).1).isLE) ∧
      (rank a (exchange a q).1).isLE := by
  cases q with
  | empty => exact absurd hitems.symm Multiset.cons_ne_zero
  | item b left right =>
    by_cases hlt : rank a b = .lt
    · have heq : exchange a (item b left right) = (b, item a left right) := by
        rw [exchange, if_pos (beq_iff_eq.2 hlt)]
      have hle : (rank a b).isLE := Ordering.isLE_of_eq_lt hlt
      -- the first item ranks before `a`, so it is the new one, and the others do not
      have hb : b ∉ rest := by
        intro hmem
        have hback := hrest b hmem
        rw [rank_swap, hlt] at hback
        cases hback
      rw [items_item] at hitems
      have hnew : b = new := by
        have hmem : b ∈ new ::ₘ rest := hitems ▸ Multiset.mem_cons_self b _
        exact (Multiset.mem_cons.1 hmem).resolve_right hb
      rw [hnew, Multiset.cons_inj_right] at hitems
      have hbelow : ∀ c ∈ left.items + right.items, (rank c a).isLE := hitems ▸ hrest
      rw [heq]
      refine ⟨⟨fun c hc => hbelow c (Multiset.mem_add.2 (.inl hc)),
        fun c hc => hbelow c (Multiset.mem_add.2 (.inr hc)), hq.2.2⟩, fun c hc => ?_, hle⟩
      rw [items_item, Multiset.mem_cons] at hc
      rcases hc with rfl | hc
      · exact hle
      · exact isLE_trans (hbelow c hc) hle
    · have heq : exchange a (item b left right) = (a, item b left right) := by
        rw [exchange, if_neg (by rwa [beq_iff_eq])]
      rw [heq]
      refine ⟨hq, fun c hc => ?_, Ordering.isLE_of_eq_eq (rank_self a)⟩
      exact isLE_trans (isLE_first hq rfl hc) (isLE_of_ne_lt hlt)

theorem heaped_insert {q : Queue α} (hq : q.Heaped) (a : α) : (q.insert a).Heaped := by
  induction q with
  | empty =>
    refine ⟨fun b hb => ?_, fun b hb => ?_, trivial, trivial⟩
    · exact absurd hb (Multiset.notMem_zero b)
    · exact absurd hb (Multiset.notMem_zero b)
  | item b left right ihLeft ihRight =>
    obtain ⟨hleft, hright, hleftHeaped, hrightHeaped⟩ := hq
    simp only [insert]
    split
    · obtain ⟨hheaped, hbelow, hle⟩ :=
        heaped_exchange (ihLeft hleftHeaped) (items_insert left a) hleft
      exact ⟨hbelow, fun c hc => isLE_trans (hright c hc) hle, hheaped, hrightHeaped⟩
    · obtain ⟨hheaped, hbelow, hle⟩ :=
        heaped_exchange (ihRight hrightHeaped) (items_insert right a) hright
      exact ⟨fun c hc => isLE_trans (hleft c hc) hle, hbelow, hleftHeaped, hheaped⟩

/-! ### Services -/

theorem isLE_of_leads {left right : Queue α} {b c : α} (hleft : left.Heaped)
    (hright : right.Heaped)
    (hb : (if leftLeads left right then left else right).first? = some b)
    (hc : c ∈ left.items + right.items) : (rank c b).isLE := by
  have hself : (rank b b).isLE := Ordering.isLE_of_eq_eq (rank_self b)
  have hside : ∀ {q : Queue α} {d : α}, q.Heaped → q.first? = some d → (rank d b).isLE →
      c ∈ q.items → (rank c b).isLE := fun hq hd hle hmem =>
    isLE_trans (isLE_first hq hd hmem) hle
  have hnone : ∀ {q : Queue α}, q.first? = none → c ∉ q.items := by
    intro q hq hmem
    rw [eq_empty_of_first? hq] at hmem
    exact Multiset.notMem_zero c hmem
  rw [Multiset.mem_add] at hc
  cases hleads : leftLeads left right with
  | true =>
    rw [hleads, if_pos rfl] at hb
    rw [leftLeads, hb] at hleads
    rcases hc with hc | hc
    · exact hside hleft hb hself hc
    · cases hd : right.first? with
      | none => exact absurd hc (hnone hd)
      | some d =>
        rw [hd] at hleads
        refine hside hright hd (isLE_of_ne_lt fun hlt => ?_) hc
        rw [beq_iff_eq.1 hleads] at hlt
        cases hlt
  | false =>
    rw [hleads, if_neg Bool.false_ne_true] at hb
    rw [leftLeads, hb] at hleads
    rcases hc with hc | hc
    · cases hd : left.first? with
      | none => exact absurd hc (hnone hd)
      | some d =>
        rw [hd] at hleads
        exact hside hleft hd (Ordering.isLE_iff_ne_gt.2 (beq_eq_false_iff_ne.1 hleads)) hc
    · exact hside hright hb hself hc

omit [Std.TransOrd ν] in
/-- If the side that leads has no item, neither has the other. -/
theorem eq_empty_of_leads {left right : Queue α}
    (h : (if leftLeads left right then left else right).first? = none) :
    left = empty ∧ right = empty := by
  cases hleads : leftLeads left right with
  | true =>
    rw [hleads, if_pos rfl] at h
    rw [leftLeads, h] at hleads
    cases hleads
  | false =>
    rw [hleads, if_neg Bool.false_ne_true] at h
    rw [leftLeads, h] at hleads
    refine ⟨?_, eq_empty_of_first? h⟩
    cases hb : left.first? with
    | none => exact eq_empty_of_first? hb
    | some b =>
      rw [hb] at hleads
      cases hleads

omit [Std.TransOrd ν] in
/-- What replaces the first item of a side does not bring that side before an item above it. -/
theorem isLE_replaceFirst {a b : α} {q lower upper : Queue α} (hq : q = item b lower upper)
    (hle : (rank a b).isLE) (hbelow : ∀ c ∈ q.items, (rank c b).isLE) :
    ∀ c ∈ (q.replaceFirst a).items, (rank c b).isLE := by
  intro c hc
  rw [items_replaceFirst q a hq, Multiset.mem_cons] at hc
  rcases hc with rfl | hc
  · exact hle
  · refine hbelow c ?_
    rw [hq, items_item]
    exact Multiset.mem_cons_of_mem hc

theorem heaped_replaceFirst {q : Queue α} (a : α) {b : α} {lower upper : Queue α}
    (h : q = item b lower upper) (hlower : lower.Heaped) (hupper : upper.Heaped) :
    (q.replaceFirst a).Heaped := by
  induction q generalizing b lower upper with
  | empty => cases h
  | item b left right ihLeft ihRight =>
    cases h
    simp only [replaceFirst]
    cases hfirst : (if leftLeads left right then left else right).first? with
    | none =>
      obtain ⟨rfl, rfl⟩ := eq_empty_of_leads hfirst
      exact ⟨fun c hc => absurd hc (Multiset.notMem_zero c),
        fun c hc => absurd hc (Multiset.notMem_zero c), trivial, trivial⟩
    | some c =>
      dsimp only
      have hleft : ∀ d ∈ left.items, (rank d c).isLE := fun d hd =>
        isLE_of_leads hlower hupper hfirst (Multiset.mem_add.2 (.inl hd))
      have hright : ∀ d ∈ right.items, (rank d c).isLE := fun d hd =>
        isLE_of_leads hlower hupper hfirst (Multiset.mem_add.2 (.inr hd))
      by_cases hlt : rank c a = .lt
      · have hle : (rank c a).isLE := Ordering.isLE_of_eq_lt hlt
        rw [if_pos (beq_iff_eq.2 hlt)]
        exact ⟨fun d hd => isLE_trans (hleft d hd) hle, fun d hd => isLE_trans (hright d hd) hle,
          hlower, hupper⟩
      · have hle : (rank a c).isLE := isLE_of_ne_lt hlt
        rw [if_neg (by rwa [beq_iff_eq])]
        -- the first item of the side that leads moves up, and the new one sinks on that side
        split
        · rename_i hleads
          rw [if_pos hleads] at hfirst
          cases left with
          | empty => cases hfirst
          | item d lower upper =>
            cases hfirst
            exact ⟨isLE_replaceFirst rfl hle hleft, hright,
              ihLeft rfl hlower.2.2.1 hlower.2.2.2, hupper⟩
        · rename_i hleads
          rw [if_neg hleads] at hfirst
          cases right with
          | empty => cases hfirst
          | item d lower upper =>
            cases hfirst
            exact ⟨hleft, isLE_replaceFirst rfl hle hright, hlower,
              ihRight rfl hupper.2.2.1 hupper.2.2.2⟩

/-- None of the others ranks before the item that is served next. -/
theorem served_of_next? {q q' : Queue α} {a : α} (hq : q.Heaped) (h : q.next? = some (a, q')) :
    q'.Heaped ∧ ∀ b ∈ q'.items, (rank b a).isLE := by
  cases q with
  | empty => simp [next?, first?] at h
  | item b left right =>
    have hitems := items_of_next? h
    obtain ⟨⟨c, rest⟩, hlast, heq⟩ := Option.bind_eq_some_iff.1 h
    cases heq
    refine ⟨?_, fun d hd => isLE_first hq rfl ?_⟩
    · have hrest := heaped_of_last? hq hlast
      cases rest with
      | empty => trivial
      | item d lower upper => exact heaped_replaceFirst c rfl hrest.2.2.1 hrest.2.2.2
    · rw [hitems]
      exact Multiset.mem_cons_of_mem hd

end Queue

end QuestionTree
