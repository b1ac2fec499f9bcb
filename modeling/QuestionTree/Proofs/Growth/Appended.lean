import QuestionTree.Proofs.Growth.Renumbered
import QuestionTree.Proofs.Growth.Ties
import QuestionTree.Proofs.Growth.Twin

/-!
# Questions that are appended to pools

A question that is appended to the pool of a step and never accepted takes a number and a slot of
every list, but it makes no split. The run on the longer pools goes on beside the run on the given
ones: every question on offer in one has its counterpart in the other, and leaves are the same but
for the questions that are left to them, which are the counterparts and the appended ones, at a leaf
below a split of the step perhaps in another order. Where a step finds a leaf open, the counterparts
stand in their order before the appended questions, so the first of the best splits is the same. At
the children of a split only a leaf with a single best split is sure to be split alike.
-/

namespace QuestionTree

variable {ν γ : Type}

/-- The step with questions appended to its pool. -/
def Step.extend (step : Step ν) (more : List (Handle Question)) : Step ν :=
  { step with pool := ⟨step.pool.members ++ more⟩ }

/-- Whether a step is another one with questions of some kind appended to its pool. -/
def Step.ExtendedBy (P : Handle Question → Prop) (step step' : Step ν) : Prop :=
  ∃ more, (∀ q ∈ more, P q) ∧ step' = step.extend more

/-- The questions that a step puts on offer in two runs, after some put on offer before. -/
def Step.counterparts (step : Step ν) (count count' : Nat) : List (Entry × Entry) :=
  step.pool.members.zipIdx.map fun (q, place) => (⟨count + place, q⟩, ⟨count' + place, q⟩)

/-- The questions that a step puts on offer after its own ones if some are appended to its pool. -/
def Growth.appendedOf (g : Growth ν γ) (step : Step ν) (more : List (Handle Question)) :
    List Entry :=
  (more.zipIdx (g.offered.length + step.pool.members.length)).map fun (q, id) => ⟨id, q⟩

theorem Step.counterparts_fst (g : Growth ν γ) (step : Step ν) (count' : Nat) :
    (step.counterparts g.offered.length count').map Prod.fst = g.entriesOf step := by
  rw [counterparts, List.map_map, Growth.entriesOf,
    List.zipIdx_eq_map_add (i := g.offered.length), List.map_map]
  rfl

theorem Growth.entriesOf_extend (g : Growth ν γ) (step : Step ν) (more : List (Handle Question))
    (count : Nat) :
    g.entriesOf (step.extend more) =
      (step.counterparts count g.offered.length).map Prod.snd ++ g.appendedOf step more := by
  rw [entriesOf, Step.extend, List.zipIdx_append, List.map_append,
    List.zipIdx_eq_map_add (i := g.offered.length), List.map_map, Step.counterparts, List.map_map]
  rfl

theorem Step.question_eq_of_mem_counterparts {step : Step ν} {count count' : Nat}
    {p : Entry × Entry} (h : p ∈ step.counterparts count count') :
    p.1.question = p.2.question := by
  obtain ⟨_, _, rfl⟩ := List.mem_map.1 h
  rfl

/-- Whether a leaf is another one to which more questions are left. The pairs are those of the
questions of both, each with its counterpart. -/
structure Leaf.Widened (kept : List (Entry × Entry)) (more : List Entry) (l l' : Leaf ν) :
    Prop where
  bare_eq : l.bare = l'.bare
  left : l.entries.Perm (kept.map Prod.fst)
  right : l'.entries.Perm (kept.map Prod.snd ++ more)

/-- Whether the counterparts of the questions stand in their order before those that are left
besides. -/
def Leaf.InOrder (kept : List (Entry × Entry)) (more : List Entry) (l l' : Leaf ν) : Prop :=
  l.entries = kept.map Prod.fst ∧ l'.entries = kept.map Prod.snd ++ more

/-- Whether two splits are the same but for the questions left to their leaves. -/
structure Candidate.Widened (pairs : List (Entry × Entry)) (more : List Entry)
    (c c' : Candidate ν) : Prop where
  leaf : ∃ kept, kept ⊆ pairs ∧ (c.entry, c'.entry) ∈ kept ∧ c.leaf.Widened kept more c'.leaf
  entry_left : c.leaf.entries[c.slot]? = some c.entry
  entry_right : c'.leaf.entries[c'.slot]? = some c'.entry
  gain_eq : c.gain = c'.gain
  yes_eq : c.yes = c'.yes
  no_eq : c.no = c'.no

namespace Candidate

variable {pairs : List (Entry × Entry)} {more : List Entry} {c c' : Candidate ν}

/-- The split by a question at a slot of a leaf that divides the same examples alike. -/
def moved (c : Candidate ν) (l : Leaf ν) (slot : Nat) (entry : Entry) : Candidate ν :=
  { c with leaf := l, slot := slot, entry := entry }

theorem Widened.bare_eq (h : c.Widened pairs more c') : c.leaf.bare = c'.leaf.bare := by
  obtain ⟨_, _, _, hleaf⟩ := h.leaf
  exact hleaf.bare_eq

theorem Widened.priority_eq (h : c.Widened pairs more c') :
    Prioritized.priority c = Prioritized.priority c' := by
  have horder : c.leaf.order = c'.leaf.order := (congrArg Leaf.order h.bare_eq :)
  show (⟨c.gain, c.leaf.order⟩ : Priority ν) = ⟨c'.gain, c'.leaf.order⟩
  rw [h.gain_eq, horder]

theorem Widened.swapRemove (h : c.Widened pairs more c') :
    ∃ kept, kept ⊆ pairs ∧
      (QuestionTree.swapRemove c.slot c.leaf.entries).Perm (kept.map Prod.fst) ∧
      (QuestionTree.swapRemove c'.slot c'.leaf.entries).Perm (kept.map Prod.snd ++ more) := by
  obtain ⟨kept, hsub, hmem, hleaf⟩ := h.leaf
  have hkept := List.perm_cons_erase hmem
  refine ⟨kept.erase (c.entry, c'.entry), List.Subset.trans List.erase_subset hsub, ?_, ?_⟩
  · have hall := hleaf.left.trans (hkept.map Prod.fst)
    exact ((perm_swapRemove h.entry_left).symm.trans hall).cons_inv
  · have hall := hleaf.right.trans ((hkept.map Prod.snd).append_right more)
    exact ((perm_swapRemove h.entry_right).symm.trans hall).cons_inv

theorem Widened.commitOf (h : c.Widened pairs more c') (i : Nat) :
    (Growth.commitOf i c).Paired pairs (Growth.commitOf i c') ∧
      ∃ kept, kept ⊆ pairs ∧
        (Growth.commitOf i c).yes.Widened kept more (Growth.commitOf i c').yes ∧
        (Growth.commitOf i c).no.Widened kept more (Growth.commitOf i c').no := by
  have hdepth : c.leaf.depth = c'.leaf.depth := (congrArg Leaf.depth h.bare_eq :)
  have hyes : (Growth.commitOf i c).yes.bare = (Growth.commitOf i c').yes.bare := by
    simp only [Growth.commitOf, Leaf.bare, h.yes_eq, hdepth]
  have hno : (Growth.commitOf i c).no.bare = (Growth.commitOf i c').no.bare := by
    simp only [Growth.commitOf, Leaf.bare, h.no_eq, hdepth]
  obtain ⟨_, hsub, hmem, _⟩ := h.leaf
  obtain ⟨kept, hkept, hleft, hright⟩ := h.swapRemove
  exact ⟨⟨hsub hmem, h.bare_eq, hyes, hno⟩, kept, hkept, ⟨hyes, hleft, hright⟩,
    ⟨hno, hleft, hright⟩⟩

end Candidate

variable [Arithmetic ν] {scorer : Scorer ν} {source : DrawSource γ} {step : Step ν}

namespace Candidate

theorem Admitted.moved {c : Candidate ν} (h : c.Admitted scorer step) {l : Leaf ν} {slot : Nat}
    {entry : Entry} (hbare : c.leaf.bare = l.bare) (hquestion : c.entry.question = entry.question)
    (hentry : l.entries[slot]? = some entry) : (c.moved l slot entry).Admitted scorer step where
  leaf_mass := Leaf.mass_of_bare_eq hbare ▸ h.leaf_mass
  entry_at_slot := hentry
  yes_members := by
    rw [← show c.entry.question = (c.moved l slot entry).entry.question from hquestion]
    exact Leaf.members_of_bare_eq hbare ▸ h.yes_members
  no_members := by
    rw [← show c.entry.question = (c.moved l slot entry).entry.question from hquestion]
    exact Leaf.members_of_bare_eq hbare ▸ h.no_members
  yes_mass := h.yes_mass
  no_mass := h.no_mass
  rating := Leaf.score_of_bare_eq hbare ▸ h.rating
  reaches := h.reaches
  massive := h.massive
  no_loss := h.no_loss
  gains := h.gains

theorem Admitted.accepts {c : Candidate ν} (h : c.Admitted scorer step) :
    step.Accepts scorer c.leaf.mass c.leaf.score c.leaf.members c.entry.question.item := by
  obtain ⟨hyesReaches, hnoReaches⟩ := not_or.1 h.reaches
  obtain ⟨hyesMassive, hnoMassive⟩ := not_or.1 h.massive
  have hrating := h.rating
  rw [h.yes_mass, h.yes_members] at hyesReaches hyesMassive
  rw [h.no_mass, h.no_members] at hnoReaches hnoMassive
  rw [h.yes_members, h.no_members] at hrating
  refine ⟨h.leaf_mass, hyesReaches, hnoReaches, hyesMassive, hnoMassive, ?_, ?_⟩
  · rw [hrating]
    exact h.gains.1
  · rw [hrating]
    exact h.gains.2

theorem Admitted.eq_of_slot_eq {c d : Candidate ν} (hc : c.Admitted scorer step)
    (hd : d.Admitted scorer step) (hleaf : c.leaf = d.leaf) (hslot : c.slot = d.slot) : c = d := by
  have hentry : c.entry = d.entry := by
    have hsame := hc.entry_at_slot
    rw [hleaf, hslot, hd.entry_at_slot] at hsame
    exact (Option.some.inj hsame).symm
  have hattempt := hc.attempt_eq
  rw [hleaf, hslot, hentry, hd.attempt_eq] at hattempt
  injection hattempt with heq
  exact heq.symm

end Candidate

namespace Leaf

/-- Whether no two splits of a leaf gain most. -/
def Untied (scorer : Scorer ν) (step : Step ν) (l : Leaf ν) : Prop :=
  ∀ c d : Candidate ν, c.Leads scorer step → d.Admitted scorer step → c.leaf = l → d.leaf = l →
    c.gain ≤ d.gain → d = c

/-- Whether questions that are appended have no influence on the split of a leaf, in whatever order
its own questions stand. -/
structure Unmoved (scorer : Scorer ν) (step : Step ν) (more : List Entry) (l : Leaf ν) : Prop where
  refused : ∀ e ∈ more, ¬ step.Accepts scorer l.mass l.score l.members e.question.item
  untied : l.Untied scorer step

namespace Widened

variable {kept : List (Entry × Entry)} {more : List Entry} {l l' : Leaf ν}

omit [Arithmetic ν] in
/-- A question of one leaf has its counterpart in the other, at the same slot if nothing was
moved. -/
theorem exists_slot_right (h : l.Widened kept more l') {slot : Nat} {entry : Entry}
    (hentry : l.entries[slot]? = some entry) :
    ∃ p ∈ kept, p.1 = entry ∧ ∃ slot', l'.entries[slot']? = some p.2 ∧
      (InOrder kept more l l' → slot' = slot) := by
  by_cases horder : InOrder kept more l l'
  · rw [horder.1, List.getElem?_map] at hentry
    obtain ⟨p, hp, hfirst⟩ := Option.map_eq_some_iff.1 hentry
    have hlt := (List.getElem?_eq_some_iff.1 hp).1
    refine ⟨p, List.mem_of_getElem? hp, hfirst, slot, ?_, fun _ => rfl⟩
    rw [horder.2, List.getElem?_append_left (by rwa [List.length_map]), List.getElem?_map, hp]
    rfl
  · have hmem := h.left.mem_iff.1 (List.mem_of_getElem? hentry)
    obtain ⟨p, hp, hfirst⟩ := List.mem_map.1 hmem
    have hright := h.right.mem_iff.2 (List.mem_append_left more (List.mem_map_of_mem hp))
    obtain ⟨slot', hslot'⟩ := List.mem_iff_getElem?.1 hright
    exact ⟨p, hp, hfirst, slot', hslot', fun hnot => absurd hnot horder⟩

omit [Arithmetic ν] in
theorem exists_slot_left (h : l.Widened kept more l') {slot : Nat} {entry : Entry}
    (hentry : l'.entries[slot]? = some entry) (hkept : entry ∉ more) :
    ∃ p ∈ kept, p.2 = entry ∧ ∃ slot', l.entries[slot']? = some p.1 ∧
      (InOrder kept more l l' → slot' = slot) := by
  by_cases horder : InOrder kept more l l'
  · have hlt : slot < (kept.map Prod.snd).length := by
      by_contra hge
      rw [horder.2, List.getElem?_append_right (Nat.le_of_not_lt hge)] at hentry
      exact hkept (List.mem_of_getElem? hentry)
    rw [horder.2, List.getElem?_append_left hlt, List.getElem?_map] at hentry
    obtain ⟨p, hp, hsecond⟩ := Option.map_eq_some_iff.1 hentry
    refine ⟨p, List.mem_of_getElem? hp, hsecond, slot, ?_, fun _ => rfl⟩
    rw [horder.1, List.getElem?_map, hp]
    rfl
  · have hmem := h.right.mem_iff.1 (List.mem_of_getElem? hentry)
    obtain ⟨p, hp, hsecond⟩ := List.mem_map.1 ((List.mem_append.1 hmem).resolve_right hkept)
    have hleft := h.left.mem_iff.2 (List.mem_map_of_mem hp)
    obtain ⟨slot', hslot'⟩ := List.mem_iff_getElem?.1 hleft
    exact ⟨p, hp, hsecond, slot', hslot', fun hnot => absurd hnot horder⟩

/-- A split of one leaf is also one of the other. -/
theorem exists_right (h : l.Widened kept more l')
    (hquestions : ∀ p ∈ kept, p.1.question = p.2.question) {c : Candidate ν}
    (hc : c.Admitted scorer step) (hleaf : c.leaf = l) :
    ∃ slot entry, (c.moved l' slot entry).Admitted scorer step ∧
      (InOrder kept more l l' → slot = c.slot) := by
  subst hleaf
  obtain ⟨p, hp, hentry, slot, hslot, hmoved⟩ := h.exists_slot_right hc.entry_at_slot
  have hquestion := hquestions p hp
  rw [hentry] at hquestion
  exact ⟨slot, p.2, hc.moved h.bare_eq hquestion hslot, hmoved⟩

/-- As the appended questions are refused, a split of the other leaf is one by a counterpart. -/
theorem exists_left (h : l.Widened kept more l')
    (hquestions : ∀ p ∈ kept, p.1.question = p.2.question)
    (hrefused : ∀ e ∈ more, ¬ step.Accepts scorer l.mass l.score l.members e.question.item)
    {d : Candidate ν} (hd : d.Admitted scorer step) (hleaf : d.leaf = l') :
    ∃ slot entry, (entry, d.entry) ∈ kept ∧ (d.moved l slot entry).Admitted scorer step ∧
      (InOrder kept more l l' → slot = d.slot) := by
  subst hleaf
  have hbare : d.leaf.bare = l.bare := h.bare_eq.symm
  have hkept : d.entry ∉ more := by
    intro hmore
    have haccepts := hd.accepts
    rw [mass_of_bare_eq hbare, score_of_bare_eq hbare, members_of_bare_eq hbare] at haccepts
    exact hrefused d.entry hmore haccepts
  obtain ⟨p, hp, hentry, slot, hslot, hmoved⟩ := h.exists_slot_left hd.entry_at_slot hkept
  have hquestion := hquestions p hp
  rw [hentry] at hquestion
  have hpair : (p.1, d.entry) ∈ kept := hentry ▸ hp
  exact ⟨slot, p.1, hpair, hd.moved hbare hquestion.symm hslot, hmoved⟩

/-- The best splits of both leaves are the same if the questions stand in one order, or if a single
split gains most. -/
theorem leads (h : l.Widened kept more l')
    (hquestions : ∀ p ∈ kept, p.1.question = p.2.question)
    (hrefused : ∀ e ∈ more, ¬ step.Accepts scorer l.mass l.score l.members e.question.item)
    (hties : InOrder kept more l l' ∨ l.Untied scorer step) {c d : Candidate ν}
    (hc : c.Leads scorer step) (hcleaf : c.leaf = l) (hd : d.Leads scorer step)
    (hdleaf : d.leaf = l') {pairs : List (Entry × Entry)} (hsub : kept ⊆ pairs) :
    c.Widened pairs more d := by
  obtain ⟨slot, entry, hright, hrightSlot⟩ := h.exists_right hquestions hc.admitted hcleaf
  obtain ⟨slot', entry', hmem, hleft, hleftSlot⟩ :=
    h.exists_left hquestions hrefused hd.admitted hdleaf
  have hle : c.gain ≤ d.gain := hd.greatest (c.moved l' slot entry) hright hdleaf.symm
  have hback : d.gain ≤ c.gain := hc.greatest (d.moved l slot' entry') hleft hcleaf.symm
  have hsame : d.moved l slot' entry' = c := by
    rcases hties with horder | huntied
    · have hfirst : c.slot ≤ slot' := hc.first _ hleft hcleaf.symm hle
      have hfirst' : d.slot ≤ slot := hd.first _ hright hdleaf.symm hback
      have hslot : slot' = c.slot := by
        have hsd := hleftSlot horder
        have hsc := hrightSlot horder
        omega
      exact hleft.eq_of_slot_eq hc.admitted hcleaf.symm hslot
    · exact huntied c _ hc hleft hcleaf rfl hle
  have hentry : c.entry = entry' := (congrArg Candidate.entry hsame).symm
  refine ⟨⟨kept, hsub, hentry ▸ hmem, ?_⟩, hc.admitted.entry_at_slot, hd.admitted.entry_at_slot,
    (congrArg Candidate.gain hsame).symm, (congrArg Candidate.yes hsame).symm,
    (congrArg Candidate.no hsame).symm⟩
  rw [hcleaf, hdleaf]
  exact h

end Widened

end Leaf

namespace Growth

variable {pairs : List (Entry × Entry)} {more : List Entry} {g g' : Growth ν γ}

/-- Whether two runs stand side by side, with some more questions left to the leaves of one. -/
structure Widened (pairs : List (Entry × Entry)) (more : List Entry) (g g' : Growth ν γ) : Prop
    extends g.Beside pairs g' where
  opened : List.Forall₂ (fun l l' => l.bare = l'.bare) g.opened g'.opened
  queue : Queue.Related (Candidate.Widened pairs more) g.queue g'.queue

namespace Widened

omit [Arithmetic ν] in
theorem leafCount_eq (h : g.Widened pairs more g') : g.leafCount = g'.leafCount := by
  rw [leafCount, leafCount, h.opened.length_eq, h.queue.size_eq]

/-- Leaves that are the same but for the questions left to them are opened both, or queued with the
same split. -/
theorem offer [PositiveOrder ν] (h : g.Widened pairs more g') (hplain : ¬ 1 < step.drawSize)
    (source : DrawSource γ) {kept : List (Entry × Entry)} (hsub : kept ⊆ pairs)
    {l l' : Leaf ν} (hl : l.Widened kept more l')
    (hrefused : ∀ e ∈ more, ¬ step.Accepts scorer l.mass l.score l.members e.question.item)
    (hties : Leaf.InOrder kept more l l' ∨ l.Untied scorer step) :
    (g.offer scorer source step l).Widened pairs more (g'.offer scorer source step l') := by
  have hquestions : ∀ p ∈ kept, p.1.question = p.2.question := fun p hp =>
    h.question_eq p (hsub hp)
  rcases offer_leads hplain source g l with
    ⟨draws, events, heq, hnone⟩ | ⟨draws, events, c, heq, hleaf, hleads⟩ <;>
  rcases offer_leads hplain source g' l' with
    ⟨draws', events', heq', hnone'⟩ | ⟨draws', events', c', heq', hleaf', hleads'⟩ <;>
  rw [heq, heq']
  · refine ⟨⟨h.root_eq, h.offered_eq, h.offered, h.question_eq, h.commits⟩, ?_, h.queue⟩
    exact List.rel_append h.opened (.cons hl.bare_eq .nil)
  · obtain ⟨_, _, _, hadmitted, _⟩ :=
      hl.exists_left hquestions hrefused hleads'.admitted hleaf'
    exact absurd rfl (hnone _ hadmitted)
  · obtain ⟨_, _, hadmitted, _⟩ := hl.exists_right hquestions hleads.admitted hleaf
    exact absurd rfl (hnone' _ hadmitted)
  · refine ⟨⟨h.root_eq, h.offered_eq, h.offered, h.question_eq, h.commits⟩, h.opened, ?_⟩
    refine h.queue.insert (fun _ _ hc => hc.priority_eq) ?_
    exact hl.leads hquestions hrefused hties hleads hleaf hleads' hleaf' hsub

theorem exists_served (h : g.Widened pairs more g') {c : Candidate ν} {queue : Queue (Candidate ν)}
    (hnext : g.queue.next? = some (c, queue)) :
    ∃ c' queue', g'.queue.next? = some (c', queue') ∧ c.Widened pairs more c' ∧
      Queue.Related (Candidate.Widened pairs more) queue queue' := by
  have hserved := h.queue.next? fun _ _ hc => hc.priority_eq
  rw [hnext] at hserved
  generalize g'.queue.next? = served at hserved ⊢
  cases hserved with
  | some hboth => exact ⟨_, _, rfl, hboth⟩

theorem carryOut (h : g.Widened pairs more g') {c c' : Candidate ν}
    {queue queue' : Queue (Candidate ν)} (hc : c.Widened pairs more c')
    (hqueue : Queue.Related (Candidate.Widened pairs more) queue queue') :
    (g.carryOut c queue).Widened pairs more (g'.carryOut c' queue') := by
  refine ⟨⟨h.root_eq, h.offered_eq, h.offered, h.question_eq, ?_⟩, h.opened, hqueue⟩
  have hcommit : (commitOf g.commits.length c).Paired pairs (commitOf g'.commits.length c') := by
    rw [← h.commits.length_eq]
    exact (hc.commitOf _).1
  exact List.rel_append h.commits (.cons hcommit .nil)

theorem commit [PositiveOrder ν] (h : g.Widened pairs more g') (hplain : ¬ 1 < step.drawSize)
    (source : DrawSource γ) {c c' : Candidate ν} {queue queue' : Queue (Candidate ν)}
    (hc : c.Widened pairs more c')
    (hqueue : Queue.Related (Candidate.Widened pairs more) queue queue')
    (hyes : (commitOf g.commits.length c).yes.Unmoved scorer step more)
    (hno : (commitOf g.commits.length c).no.Unmoved scorer step more) :
    (((g.carryOut c queue).offer scorer source step (commitOf g.commits.length c).yes).offer
      scorer source step (commitOf g.commits.length c).no).Widened pairs more
    (((g'.carryOut c' queue').offer scorer source step (commitOf g'.commits.length c').yes).offer
      scorer source step (commitOf g'.commits.length c').no) := by
  obtain ⟨kept, hsub, hyesLeaf, hnoLeaf⟩ := (hc.commitOf g.commits.length).2
  have hout := h.carryOut hc hqueue
  rw [← h.commits.length_eq]
  have hfirst := hout.offer hplain source hsub hyesLeaf hyes.refused (.inr hyes.untied)
  exact hfirst.offer hplain source hsub hnoLeaf hno.refused (.inr hno.untied)

theorem leave (h : g.Widened pairs more g') (before before' : Growth ν γ) (step step' : Step ν) :
    (g.leave before step).Widened pairs [] (g'.leave before' step') := by
  refine ⟨⟨h.root_eq, h.offered_eq, h.offered, h.question_eq, h.commits⟩, ?_, ?_⟩
  · refine List.rel_append h.opened (List.rel_map ?_ (h.queue.byAge fun _ _ hc => hc.priority_eq))
    exact fun _ _ hc => hc.bare_eq
  · exact Queue.related_empty _

theorem takeOpen (h : g.Widened pairs [] g') (hempty : g.queue = .empty)
    (hempty' : g'.queue = .empty) (step : Step ν) (qs : List (Handle Question)) :
    (g.takeOpen step).Widened (pairs ++ step.counterparts g.offered.length g'.offered.length)
      (g'.appendedOf step qs) (g'.takeOpen (step.extend qs)) := by
  have hentries := g'.entriesOf_extend step qs g.offered.length
  refine ⟨⟨h.root_eq, ?_, ?_, ?_, ?_⟩, .nil, ?_⟩
  · rw [List.map_append, Step.counterparts_fst, ← h.offered_eq]
    rfl
  · rw [Growth.takeOpen, hentries, ← List.append_assoc, List.map_append]
    exact (h.offered.append_right _).trans (List.sublist_append_left ..)
  · intro p hp
    rcases List.mem_append.1 hp with hp | hp
    · exact h.question_eq p hp
    · exact Step.question_eq_of_mem_counterparts hp
  · exact h.commits.imp fun _ _ hc => hc.mono (List.subset_append_left ..)
  · show Queue.Related _ g.queue g'.queue
    rw [hempty, hempty']
    exact Queue.related_empty _

end Widened

end Growth

/-! ### Runs -/

namespace Stage

/-- Whether a question is refused whenever a leaf is searched in a run. -/
def Refuses (scorer : Scorer ν) (source : DrawSource γ) (maxLeaves : Nat) (start : Stage ν γ)
    (q : Handle Question) : Prop :=
  ∀ s s' step, Reaches scorer source maxLeaves start s →
    s.next? scorer source maxLeaves = some s' → s'.step? = some step →
    ∀ search ∈ s.searches scorer source,
      ¬ step.Accepts scorer search.leaf.mass search.leaf.score search.leaf.members q.item

/-- Whether no two splits gain most for a leaf that a run searches below a split of the same
step. -/
def Untied (scorer : Scorer ν) (source : DrawSource γ) (maxLeaves : Nat) (start : Stage ν γ) :
    Prop :=
  ∀ step before todo g g', Reaches scorer source maxLeaves start (splitting step before todo g) →
    (splitting step before todo g).next? scorer source maxLeaves =
      some (splitting step before todo g') →
    ∀ search ∈ (splitting step before todo g).searches scorer source,
      search.leaf.Untied scorer step

omit [Arithmetic ν] in
/-- Whether two moments are the same but for questions of some kind that are appended to pools. -/
inductive Beside (P : Handle Question → Prop) : Stage ν γ → Stage ν γ → Prop where
  | between {todo todo' : List (Step ν)} {g g' : Growth ν γ} (pairs : List (Entry × Entry))
    (htodo : List.Forall₂ (Step.ExtendedBy P) todo todo') (h : g.Widened pairs [] g')
    (hempty : g.queue = .empty) (hempty' : g'.queue = .empty) :
    Beside P (between todo g) (between todo' g')
  | opening {todo todo' : List (Step ν)} {before before' g g' : Growth ν γ}
    {waiting waiting' : List (Leaf ν)} (step : Step ν) (qs : List (Handle Question))
    (pairs kept : List (Entry × Entry)) (more : List Entry) (hsub : kept ⊆ pairs)
    (hmore : ∀ e ∈ more, P e.question) (htodo : List.Forall₂ (Step.ExtendedBy P) todo todo')
    (hwaiting : List.Forall₂ (fun l l' : Leaf ν => l.bare = l'.bare) waiting waiting')
    (h : g.Widened pairs more g') :
    Beside P (opening step (kept.map Prod.fst) before todo waiting g)
      (opening (step.extend qs) (kept.map Prod.snd ++ more) before' todo' waiting' g')
  | splitting {todo todo' : List (Step ν)} {before before' g g' : Growth ν γ} (step : Step ν)
    (qs : List (Handle Question)) (pairs : List (Entry × Entry)) (more : List Entry)
    (hmore : ∀ e ∈ more, P e.question) (htodo : List.Forall₂ (Step.ExtendedBy P) todo todo')
    (h : g.Widened pairs more g') :
    Beside P (splitting step before todo g) (splitting (step.extend qs) before' todo' g')
  | ended {g g' : Growth ν γ} (pairs : List (Entry × Entry)) (h : g.Beside pairs g') :
    Beside P (ended g) (ended g')

variable {maxLeaves : Nat} {P : Handle Question → Prop} {s s' t : Stage ν γ}

end Stage

namespace Growth

end Growth

end QuestionTree
