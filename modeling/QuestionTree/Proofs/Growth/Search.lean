import QuestionTree.Proofs.Growth.Candidate
import QuestionTree.Proofs.Number.Order
import QuestionTree.Proofs.Queue.Order

/-!
# The search of a leaf

To search a leaf is to try the questions at the slots that were drawn for it, from the lowest slot
to the highest. `Search.Finds` says which splits a search comes upon: those that are admitted at one
of its slots. The best one of a search gains at least as much as every other, and stands at the
lowest slot of those that gain as much; `offer_searched` says that a leaf is queued with the best
split of its search and stays open only if there is none. As all gains found are positive, it makes
no difference that leaves compare gains by numbers and the queue by their bits.
-/

namespace QuestionTree

variable {ν γ : Type}

/-- A leaf with the slots of the questions that were tried for it. -/
structure Search (ν : Type) where
  leaf : Leaf ν
  slots : List Nat

namespace DrawSource

theorem pairwise_ascendingOrder (ns : List Nat) : (ascendingOrder ns).Pairwise (· ≤ ·) := by
  have htrans : ∀ a b c : Nat, decide (a ≤ b) = true → decide (b ≤ c) = true →
      decide (a ≤ c) = true := by
    intro a b c hab hbc
    exact decide_eq_true ((of_decide_eq_true hab).trans (of_decide_eq_true hbc))
  have htotal : ∀ a b : Nat, (decide (a ≤ b) || decide (b ≤ a)) = true := by
    intro a b
    rw [Bool.or_eq_true, decide_eq_true_iff, decide_eq_true_iff]
    exact Nat.le_total a b
  exact (List.pairwise_mergeSort htrans htotal ns).imp of_decide_eq_true

theorem pairwise_sample (source : DrawSource γ) (size : Nat) (items : List Nat) (state : γ) :
    (source.sample size items state).1.Pairwise (· ≤ ·) := by
  rw [sample]
  split
  · exact pairwise_ascendingOrder _
  · exact pairwise_ascendingOrder _

end DrawSource

variable [Arithmetic ν]

/-- Whether a search comes upon a split. -/
structure Search.Finds (scorer : Scorer ν) (step : Step ν) (s : Search ν) (c : Candidate ν) :
    Prop where
  admitted : c.Admitted scorer step
  leaf_eq : c.leaf = s.leaf
  slot_mem : c.slot ∈ s.slots

/-- Whether a split is the best one that a search finds. -/
structure Search.Yields (scorer : Scorer ν) (step : Step ν) (s : Search ν) (c : Candidate ν) :
    Prop where
  found : s.Finds scorer step c
  /-- No split that is found gains more. -/
  greatest : ∀ d, s.Finds scorer step d → d.gain ≤ c.gain
  /-- No split that gains as much is found at a lower slot. -/
  first : ∀ d, s.Finds scorer step d → c.gain ≤ d.gain → c.slot ≤ d.slot

variable {scorer : Scorer ν} {source : DrawSource γ} {step : Step ν}

theorem Search.Finds.pos {s : Search ν} {c : Candidate ν} (h : s.Finds scorer step c) :
    0 < c.gain :=
  h.admitted.gains.2

theorem Candidate.Admitted.attempt_eq {c : Candidate ν} (h : c.Admitted scorer step) :
    c.leaf.attempt scorer step c.slot c.entry = .accepted c := by
  obtain ⟨leaf, slot, entry, gain, ⟨yesMass, yesScore, yesMembers⟩,
    ⟨noMass, noScore, noMembers⟩⟩ := c
  obtain ⟨_, _, hyes, hno, hyesMass, hnoMass, hrating, hreaches, hmassive, hloss, hgains⟩ := h
  dsimp only at *
  rw [hyesMass, hnoMass] at hreaches hmassive
  rw [hyes, hno] at hreaches hmassive hrating
  rw [Leaf.attempt, Leaf.divide_eq]
  dsimp only
  rw [if_neg hreaches, if_neg hmassive, hrating, if_neg hloss, if_pos hgains, hyesMass, hnoMass,
    hyes, hno]

namespace Leaf

theorem slot_of_attempt {l : Leaf ν} {slot : Nat} {entry : Entry} {c : Candidate ν}
    (h : l.attempt scorer step slot entry = .accepted c) : c.slot = slot := by
  rw [attempt, divide_eq] at h
  dsimp only at h
  repeat' split at h
  all_goals cases h
  rfl

/-- The splits that are accepted at the given slots, in the order of the slots. -/
def accepted (scorer : Scorer ν) (step : Step ν) (l : Leaf ν) (slots : List Nat) :
    List (Candidate ν) :=
  (l.trials scorer step slots).filterMap Trial.candidate?

theorem exists_of_mem_accepted {l : Leaf ν} {slots : List Nat} {c : Candidate ν}
    (h : c ∈ l.accepted scorer step slots) :
    ∃ slot ∈ slots, ∃ entry, l.entries[slot]? = some entry ∧
      l.attempt scorer step slot entry = .accepted c := by
  obtain ⟨trial, htrial, hcandidate⟩ := List.mem_filterMap.1 h
  exact mem_trials (Trial.eq_accepted hcandidate ▸ htrial)

theorem mem_accepted_iff {l : Leaf ν} {slots : List Nat} {c : Candidate ν}
    (hmass : ¬ l.mass < step.minObs + step.minObs) :
    c ∈ l.accepted scorer step slots ↔ Search.Finds scorer step ⟨l, slots⟩ c := by
  constructor
  · intro h
    obtain ⟨slot, hslot, entry, hentry, hattempt⟩ := exists_of_mem_accepted h
    obtain ⟨hadmitted, hleaf⟩ := admitted_of_attempt hmass hentry hattempt
    exact ⟨hadmitted, hleaf, slot_of_attempt hattempt ▸ hslot⟩
  · rintro ⟨hadmitted, rfl, hslot⟩
    refine List.mem_filterMap.2 ⟨.accepted c, List.mem_filterMap.2 ⟨c.slot, hslot, ?_⟩, rfl⟩
    rw [hadmitted.entry_at_slot, Option.map_some, hadmitted.attempt_eq]

theorem pairwise_accepted (scorer : Scorer ν) (step : Step ν) (l : Leaf ν) {slots : List Nat}
    (h : slots.Pairwise (· ≤ ·)) :
    (l.accepted scorer step slots).Pairwise fun c d => c.slot ≤ d.slot := by
  rw [accepted, trials, List.filterMap_filterMap, List.pairwise_filterMap]
  have hslot : ∀ {slot c}, ((l.entries[slot]?.map (l.attempt scorer step slot)).bind
      Trial.candidate?) = some c → c.slot = slot := by
    intro slot c hc
    obtain ⟨trial, htrial, hcandidate⟩ := Option.bind_eq_some_iff.1 hc
    obtain ⟨entry, _, rfl⟩ := Option.map_eq_some_iff.1 htrial
    exact slot_of_attempt (Trial.eq_accepted hcandidate)
  refine h.imp fun hle c hc d hd => ?_
  rw [hslot hc, hslot hd]
  exact hle

variable [PositiveOrder ν]

/-- Of splits with positive gains, the one that a search keeps ranks before no other, and before
none of those that come later if they rank equally. -/
theorem exists_foldl_better {b : Candidate ν} {cs : List (Candidate ν)}
    (hpos : ∀ c ∈ b :: cs, 0 < c.gain) (hslots : (b :: cs).Pairwise fun c d => c.slot ≤ d.slot) :
    ∃ c ∈ b :: cs, cs.foldl better (some b) = some c ∧ ∀ d ∈ b :: cs,
      (compare d.gain c.gain).isLE ∧ ((compare c.gain d.gain).isLE → c.slot ≤ d.slot) := by
  induction cs generalizing b with
  | nil =>
    refine ⟨b, List.mem_cons_self .., rfl, fun d hd => ?_⟩
    rw [List.mem_singleton.1 hd]
    exact ⟨Ordering.isLE_of_eq_eq Std.ReflOrd.compare_self, fun _ => Nat.le_refl _⟩
  | cons c cs ih =>
    have hb := hpos b (List.mem_cons_self ..)
    have hc := hpos c (List.mem_cons_of_mem b (List.mem_cons_self ..))
    by_cases hlt : b.gain < c.gain
    · have hcompare : compare b.gain c.gain = .lt := (PositiveOrder.lt_iff hb hc).1 hlt
      obtain ⟨d, hd, hbest, hbelow⟩ := ih (fun e he => hpos e (List.mem_cons_of_mem b he))
        hslots.of_cons
      refine ⟨d, List.mem_cons_of_mem b hd, ?_, fun e he => ?_⟩
      · rw [List.foldl_cons, better, if_pos hlt, hbest]
      · rcases List.mem_cons.1 he with rfl | he
        · have hnext := (hbelow c (List.mem_cons_self ..)).1
          have htop := Std.TransCmp.lt_of_lt_of_isLE hcompare hnext
          refine ⟨Ordering.isLE_of_eq_lt htop, fun hle => ?_⟩
          rw [Std.OrientedOrd.eq_swap, htop] at hle
          cases hle
        · exact hbelow e he
    · have hkeep : (compare c.gain b.gain).isLE := by
        rw [Std.OrientedOrd.eq_swap, Ordering.isLE_swap, Ordering.isGE_iff_ne_lt]
        exact fun hcompare => hlt ((PositiveOrder.lt_iff hb hc).2 hcompare)
      have hsub : (b :: cs).Sublist (b :: c :: cs) := (List.sublist_cons_self c cs).cons_cons b
      obtain ⟨d, hd, hbest, hbelow⟩ := ih (fun e he => hpos e (hsub.mem he)) (hslots.sublist hsub)
      obtain ⟨hbd, hfirst⟩ := hbelow b (List.mem_cons_self ..)
      refine ⟨d, hsub.mem hd, ?_, fun e he => ?_⟩
      · rw [List.foldl_cons, better, if_neg hlt, hbest]
      · rcases List.mem_cons.1 he with rfl | he
        · exact ⟨hbd, hfirst⟩
        · rcases List.mem_cons.1 he with rfl | he
          · refine ⟨Std.TransOrd.isLE_trans hkeep hbd, fun hle => ?_⟩
            have hslot := List.rel_of_pairwise_cons hslots (List.mem_cons_self ..)
            exact (hfirst (Std.TransOrd.isLE_trans hle hkeep)).trans hslot
          · exact hbelow e (List.mem_cons_of_mem b he)

/-- A search keeps the best split that it finds, and none only if it finds none. -/
theorem best_trials {l : Leaf ν} {slots : List Nat}
    (hmass : ¬ l.mass < step.minObs + step.minObs) (hslots : slots.Pairwise (· ≤ ·)) :
    (best (l.trials scorer step slots) = none ∧ ∀ c, ¬ Search.Finds scorer step ⟨l, slots⟩ c) ∨
      ∃ c, best (l.trials scorer step slots) = some c ∧
        Search.Yields scorer step ⟨l, slots⟩ c := by
  have hbest : best (l.trials scorer step slots) =
      (l.accepted scorer step slots).foldl better none := rfl
  have hmem : ∀ c, c ∈ l.accepted scorer step slots ↔ Search.Finds scorer step ⟨l, slots⟩ c :=
    fun _ => mem_accepted_iff hmass
  have hsorted := l.pairwise_accepted scorer step hslots
  rw [hbest]
  cases haccepted : l.accepted scorer step slots with
  | nil =>
    refine .inl ⟨rfl, fun c hc => ?_⟩
    have hnone := (hmem c).2 hc
    rw [haccepted] at hnone
    cases hnone
  | cons b cs =>
    rw [haccepted] at hmem hsorted
    obtain ⟨c, hc, hfold, hbelow⟩ := exists_foldl_better (fun c hc => ((hmem c).1 hc).pos) hsorted
    have hfound := (hmem c).1 hc
    refine .inr ⟨c, hfold, hfound, fun d hd => ?_, fun d hd hle => ?_⟩
    · exact (PositiveOrder.isLE_compare_iff hd.pos hfound.pos).1 (hbelow d ((hmem d).2 hd)).1
    · exact (hbelow d ((hmem d).2 hd)).2 ((PositiveOrder.isLE_compare_iff hfound.pos hd.pos).2 hle)

end Leaf

namespace Growth

/-- The slots that are tried when a leaf is offered; none if the leaf has not the mass for two
sides. -/
def drawn (source : DrawSource γ) (step : Step ν) (g : Growth ν γ) (l : Leaf ν) : List Nat :=
  if l.mass < step.minObs + step.minObs then []
  else (source.sample step.drawSize (List.range l.entries.length) g.draws).1

/-- The search that is made when a leaf is offered. -/
def searchOf (source : DrawSource γ) (step : Step ν) (g : Growth ν γ) (l : Leaf ν) : Search ν :=
  ⟨l, g.drawn source step l⟩

variable [PositiveOrder ν]

/-- A leaf that is offered is queued with the best split of its search, or stays open if there is
none. -/
theorem offer_searched (scorer : Scorer ν) (source : DrawSource γ) (step : Step ν)
    (g : Growth ν γ) (l : Leaf ν) :
    (∃ draws events, g.offer scorer source step l =
        { g with draws := draws, events := events, opened := g.opened ++ [l] } ∧
      ∀ c, ¬ (g.searchOf source step l).Finds scorer step c) ∨
    ∃ draws events c, g.offer scorer source step l =
        { g with draws := draws, events := events, queue := g.queue.insert c } ∧
      (g.searchOf source step l).Yields scorer step c := by
  rw [offer, searchOf, drawn]
  by_cases hmass : l.mass < step.minObs + step.minObs
  · rw [if_pos hmass, if_pos hmass]
    exact .inl ⟨_, _, rfl, fun c hc => List.not_mem_nil hc.slot_mem⟩
  · rw [if_neg hmass, if_neg hmass]
    dsimp only
    have hslots := source.pairwise_sample step.drawSize (List.range l.entries.length) g.draws
    rcases Leaf.best_trials hmass hslots with ⟨hbest, hnone⟩ | ⟨c, hbest, hyields⟩
    · rw [hbest]
      exact .inl ⟨_, _, rfl, hnone⟩
    · rw [hbest]
      exact .inr ⟨_, _, c, rfl, hyields⟩

end Growth

end QuestionTree
