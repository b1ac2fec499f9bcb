import QuestionTree.Proofs.Growth.Budget
import QuestionTree.Proofs.Growth.Range
import QuestionTree.Proofs.Growth.Search

/-!
# Growth takes the best split first

Whenever a run carries out a split, it is the best one of all: no leaf has a split that gains more
among those that were tried for it in this step, the leaves that have one that gains as much are
not older, and in the leaf itself it stands at the lowest slot of those that gain as much.

`Stage.Tracks` follows a run and notes down the searches made since the step under way was entered.
`Growth.Explored` is what a step keeps: every leaf but those that wait was searched, and what became
of a search is known. If its leaf is not split yet, it is open because nothing was found, or its
best split is in the queue, whose first item none of the others ranks before.
-/

namespace QuestionTree

variable {ν γ : Type} [Arithmetic ν]

namespace Stage

variable (scorer : Scorer ν) (source : DrawSource γ) (maxLeaves : Nat)

/-- The searches that are made on the way from a moment of a step to the next. -/
def searches : Stage ν γ → List (Search ν)
  | opening step entries _ _ (l :: _) g => [g.searchOf source step { l with entries := entries }]
  | splitting step _ _ g =>
    match g.queue.next? with
    | none => []
    | some (c, queue) =>
      let commit := Growth.commitOf g.commits.length c
      let g := g.carryOut c queue
      [g.searchOf source step commit.yes,
        (g.offer scorer source step commit.yes).searchOf source step commit.no]
  | _ => []

/-- Whether transitions lead to a moment, with the searches made since the step under way was
entered. -/
inductive Tracks (start : Stage ν γ) : Stage ν γ → List (Search ν) → Prop where
  | start : Tracks start start []
  | next {s s' : Stage ν γ} {made : List (Search ν)} (h : Tracks start s made)
    (hnext : s.next? scorer source maxLeaves = some s') :
    Tracks start s' (if s'.step?.isSome then made ++ s.searches scorer source else [])

variable {scorer source maxLeaves} {start s : Stage ν γ} {made : List (Search ν)}

theorem Tracks.reaches (h : Tracks scorer source maxLeaves start s made) :
    Reaches scorer source maxLeaves start s := by
  induction h with
  | start => exact Relation.ReflTransGen.refl
  | next _ hnext ih => exact ih.tail hnext

theorem Tracks.made_eq_nil (h : Tracks scorer source maxLeaves start s made)
    (hrest : s.step? = none) : made = [] := by
  cases h with
  | start => rfl
  | next _ _ => rw [hrest, Option.isSome_none, if_neg Bool.false_ne_true]

theorem Reaches.exists_tracks (h : Reaches scorer source maxLeaves start s) :
    ∃ made, Tracks scorer source maxLeaves start s made := by
  induction h with
  | refl => exact ⟨[], .start⟩
  | tail _ hnext ih =>
    obtain ⟨made, hmade⟩ := ih
    exact ⟨_, hmade.next hnext⟩

end Stage

namespace Growth

/-- What is known of the searches that a step has made. -/
structure Explored (scorer : Scorer ν) (step : Step ν) (made : List (Search ν))
    (g : Growth ν γ) : Prop where
  heaped : g.queue.Heaped
  /-- Every leaf that does not wait was searched. -/
  searched : ∀ l ∈ g.leaves, ∃ s ∈ made, s.leaf = l
  /-- A split in the queue is the best one of a search. -/
  queued : ∀ c ∈ g.queue.items, ∃ s ∈ made, s.Yields scorer step c
  /-- A leaf that was searched is open for want of a split, is queued with the best one, or was
  split. -/
  settled : ∀ s ∈ made, (s.leaf ∈ g.opened ∧ ∀ c, ¬ s.Finds scorer step c) ∨
    (∃ c ∈ g.queue.items, s.Yields scorer step c) ∨ ∃ c ∈ g.commits, c.target = s.leaf.index

variable {scorer : Scorer ν} {source : DrawSource γ} {step : Step ν} {made : List (Search ν)}
  {g : Growth ν γ}

theorem Explored.takeOpen (scorer : Scorer ν) (step : Step ν) (hqueue : g.queue = .empty) :
    (g.takeOpen step).Explored scorer step [] where
  heaped := by
    rw [Growth.takeOpen, hqueue]
    trivial
  searched l hl := by
    rw [leaves, Growth.takeOpen, hqueue, Queue.items_empty] at hl
    exact absurd hl (Multiset.notMem_zero l)
  queued c hc := by
    rw [Growth.takeOpen, hqueue] at hc
    exact absurd hc (Multiset.notMem_zero c)
  settled s hs := absurd hs List.not_mem_nil

variable [PositiveOrder ν]

theorem Explored.offer (h : g.Explored scorer step made) (source : DrawSource γ) (l : Leaf ν) :
    (g.offer scorer source step l).Explored scorer step
      (made ++ [g.searchOf source step l]) := by
  have hsearched : ∀ k ∈ (g.offer scorer source step l).leaves,
      ∃ s ∈ made ++ [g.searchOf source step l], s.leaf = k := by
    intro k hk
    rw [leaves_offer, Multiset.mem_cons] at hk
    rcases hk with rfl | hk
    · exact ⟨_, List.mem_append_right _ (List.mem_singleton_self _), rfl⟩
    · obtain ⟨s, hs, hleaf⟩ := h.searched k hk
      exact ⟨s, List.mem_append_left _ hs, hleaf⟩
  have hqueued : ∀ c ∈ g.queue.items,
      ∃ s ∈ made ++ [g.searchOf source step l], s.Yields scorer step c := by
    intro c hc
    obtain ⟨s, hs, hyields⟩ := h.queued c hc
    exact ⟨s, List.mem_append_left _ hs, hyields⟩
  rcases offer_searched scorer source step g l with
    ⟨draws, events, heq, hnone⟩ | ⟨draws, events, c, heq, hyields⟩
  · rw [heq] at hsearched ⊢
    refine ⟨h.heaped, hsearched, hqueued, fun s hs => ?_⟩
    rcases List.mem_append.1 hs with hs | hs
    · rcases h.settled s hs with ⟨hopen, hfruitless⟩ | hsettled
      · exact .inl ⟨List.mem_append_left _ hopen, hfruitless⟩
      · exact .inr hsettled
    · rw [List.mem_singleton.1 hs]
      exact .inl ⟨List.mem_append_right _ (List.mem_singleton_self l), hnone⟩
  · rw [heq] at hsearched ⊢
    refine ⟨Queue.heaped_insert h.heaped c, hsearched, fun d hd => ?_, fun s hs => ?_⟩
    · rw [Queue.items_insert] at hd
      rcases Multiset.mem_cons.1 hd with rfl | hd
      · exact ⟨_, List.mem_append_right _ (List.mem_singleton_self _), hyields⟩
      · exact hqueued d hd
    rw [Queue.items_insert]
    rcases List.mem_append.1 hs with hs | hs
    · rcases h.settled s hs with hopen | ⟨d, hd, hbest⟩ | hsplit
      · exact .inl hopen
      · exact .inr (.inl ⟨d, Multiset.mem_cons_of_mem hd, hbest⟩)
      · exact .inr (.inr hsplit)
    · rw [List.mem_singleton.1 hs]
      exact .inr (.inl ⟨c, Multiset.mem_cons_self c _, hyields⟩)

theorem Explored.carryOut {c : Candidate ν} {queue : Queue (Candidate ν)}
    (h : g.Explored scorer step made) (hnext : g.queue.next? = some (c, queue)) :
    (g.carryOut c queue).Explored scorer step made where
  heaped := (Queue.served_of_next? h.heaped hnext).1
  searched l hl := by
    refine h.searched l ?_
    rw [leaves_of_next? hnext]
    exact Multiset.mem_cons_of_mem hl
  queued d hd := by
    refine h.queued d ?_
    rw [Queue.items_of_next? hnext]
    exact Multiset.mem_cons_of_mem hd
  settled s hs := by
    have hitems := Queue.items_of_next? hnext
    rcases h.settled s hs with hopen | ⟨d, hd, hyields⟩ | ⟨d, hd, htarget⟩
    · exact .inl hopen
    · rw [hitems, Multiset.mem_cons] at hd
      rcases hd with rfl | hd
      · refine .inr (.inr ⟨commitOf g.commits.length d, ?_, ?_⟩)
        · exact List.mem_append_right _ (List.mem_singleton_self _)
        · rw [← hyields.found.leaf_eq]
          rfl
      · exact .inr (.inl ⟨d, hd, hyields⟩)
    · exact .inr (.inr ⟨d, List.mem_append_left _ hd, htarget⟩)

end Growth

namespace Stage

variable [PositiveOrder ν] {scorer : Scorer ν} {source : DrawSource γ} {maxLeaves : Nat}
  {examples : List (Handle (Example ν))} {steps : List (Step ν)} {draws : γ} {s s' : Stage ν γ}
  {made : List (Search ν)}

/-- The step under way has searched every leaf that does not wait. -/
theorem explored_of_tracks
    (h : Tracks scorer source maxLeaves (between steps (Growth.start scorer draws examples)) s made)
    {step : Step ν} (hstep : s.step? = some step) :
    s.growth.Explored scorer step made := by
  induction h generalizing step with
  | start => cases hstep
  | @next _ _ made htracks hnext ih =>
    have hsound := sound_of_reaches htracks.reaches
    rw [hstep, Option.isSome_some, if_pos rfl]
    cases transition_of_next? hnext with
    | finish g => cases hstep
    | stop step todo g _ => cases hstep
    | skip step todo g tag _ _ => cases hstep
    | enter step todo g _ _ =>
      cases hstep
      have hempty : g.queue = .empty := queue_eq_empty_of_sound hsound rfl
      rw [htracks.made_eq_nil rfl]
      exact Growth.Explored.takeOpen scorer step hempty
    | offer step entries before todo l waiting g =>
      cases hstep
      exact (ih rfl).offer source _
    | begin step entries before todo g =>
      cases hstep
      exact (List.append_nil made).symm ▸ ih rfl
    | commit step before todo g g' _ hcommit =>
      cases hstep
      obtain ⟨c, queue, hqueue, rfl⟩ := Growth.commit?_eq_some_iff.1 hcommit
      have hexplored := (((ih rfl).carryOut hqueue).offer source
        (Growth.commitOf g.commits.length c).yes).offer source
          (Growth.commitOf g.commits.length c).no
      rw [List.append_assoc] at hexplored
      rw [searches, hqueue]
      exact hexplored
    | leave step before todo g _ => cases hstep

/-- Whether a split is the best of all among those that the searches of a step came upon. -/
structure TakesBest (scorer : Scorer ν) (step : Step ν) (examples : List (Handle (Example ν)))
    (made : List (Search ν)) (s : Stage ν γ) (c : Candidate ν) : Prop where
  unsplit : c.leaf ∈ s.unsplit
  /-- The split was found when its leaf was searched. -/
  found : ∃ search ∈ made, search.Finds scorer step c
  /-- Every leaf was searched. -/
  searched : ∀ l ∈ s.unsplit, ∃ search ∈ made, search.leaf = l
  /-- No leaf has a split that gains more. -/
  greatest : ∀ search ∈ made, search.leaf ∈ s.unsplit →
    ∀ d, search.Finds scorer step d → d.gain ≤ c.gain
  /-- No leaf that has a split that gains as much was made earlier. -/
  oldest : ∀ search ∈ made, search.leaf ∈ s.unsplit →
    ∀ d, search.Finds scorer step d → c.gain ≤ d.gain → c.leaf.order ≤ d.leaf.order ∧
      (2 * examples.length + 1 < UInt32.size → c.leaf.index ≤ d.leaf.index)
  /-- No split of the leaf that gains as much stands at a lower slot. -/
  first : ∀ search ∈ made, search.leaf = c.leaf →
    ∀ d, search.Finds scorer step d → c.gain ≤ d.gain → c.slot ≤ d.slot

/-- Of two splits with positive gains the one that does not rank behind gains at least as much, and
is not younger if the other one gains as much. -/
theorem outranks_of_isLE {c d : Candidate ν} (hc : 0 < c.gain) (hd : 0 < d.gain)
    (h : (Queue.rank d c).isLE) :
    d.gain ≤ c.gain ∧ (c.gain ≤ d.gain → c.leaf.order ≤ d.leaf.order) := by
  have hrank : Queue.rank d c =
      (compare d.gain c.gain).then (compare c.leaf.order d.leaf.order) := rfl
  rw [hrank, Ordering.isLE_then_iff_and] at h
  obtain ⟨hgain, horder⟩ := h
  refine ⟨(PositiveOrder.isLE_compare_iff hd hc).1 hgain, fun hle => ?_⟩
  have hback := (PositiveOrder.isLE_compare_iff hc hd).2 hle
  rcases horder with hlt | horder
  · rw [Std.OrientedOrd.eq_swap, hlt] at hback
    cases hback
  · exact Nat.isLE_compare.1 horder

omit [PositiveOrder ν] in
theorem eq_of_leaf_eq (h : s.Sound scorer examples steps) {c d : Candidate ν}
    (hc : c ∈ s.growth.queue.items) (hd : d ∈ s.growth.queue.items) (hleaf : c.leaf = d.leaf) :
    c = d := by
  have hnodup := h.growing.ledger.nodup_indices
  rw [Growth.leaves, Multiset.map_add, Multiset.map_add, Multiset.map_map] at hnodup
  have hqueue := (Multiset.nodup_add.1 (Multiset.nodup_add.1 hnodup).1).2.1
  exact Multiset.inj_on_of_nodup_map hqueue c hc d hd (congrArg Leaf.index hleaf)

omit [PositiveOrder ν] in
theorem order_eq_index (h : s.Sound scorer examples steps) (hzero : (0 : ν) ≤ 0)
    (hsize : 2 * examples.length + 1 < UInt32.size) {l : Leaf ν} (hl : l ∈ s.unsplit) :
    l.order = l.index := by
  rw [← Multiset.mem_coe, coe_unsplit] at hl
  have hindex := (h.growing.ledger.mem_indices_iff.1 (Multiset.mem_map_of_mem Leaf.index hl)).1
  have hcommits := h.growing.length_commits_le hzero
  exact Nat.mod_eq_of_lt (by omega)

/-- What the search of a leaf found is no better than a split of the leaf in the queue, which does
not rank before the split that is served next. -/
theorem exists_queued_of_finds {step : Step ν} {before g : Growth ν γ} {todo : List (Step ν)}
    {c d : Candidate ν} {queue : Queue (Candidate ν)} {search : Search ν}
    (hsound : (splitting step before todo g).Sound scorer examples steps)
    (hexplored : g.Explored scorer step made) (hqueue : g.queue.next? = some (c, queue))
    (hsearch : search ∈ made) (hleaf : search.leaf ∈ g.leaves) (hd : search.Finds scorer step d) :
    ∃ b ∈ g.queue.items, search.Yields scorer step b ∧ (Queue.rank b c).isLE := by
  rcases hexplored.settled search hsearch with ⟨_, hnone⟩ | ⟨b, hb, hyields⟩ | ⟨e, he, htarget⟩
  · exact absurd hd (hnone d)
  · refine ⟨b, hb, hyields, ?_⟩
    rw [Queue.items_of_next? hqueue, Multiset.mem_cons] at hb
    rcases hb with rfl | hb
    · exact Ordering.isLE_of_eq_eq (Queue.rank_self b)
    · exact (Queue.served_of_next? hexplored.heaped hqueue).2 b hb
  · have hindex := hsound.growing.ledger.mem_indices_iff.1 (Multiset.mem_map_of_mem Leaf.index
      (Multiset.mem_add.2 (.inl hleaf)))
    exact absurd htarget (hindex.2 e he)

/-- The split that is served next is the best of all. -/
theorem takesBest_of_tracks (hzero : (0 : ν) ≤ 0) {step : Step ν} {before g : Growth ν γ}
    {todo : List (Step ν)} {c : Candidate ν} {queue : Queue (Candidate ν)}
    (h : Tracks scorer source maxLeaves (between steps (Growth.start scorer draws examples))
      (splitting step before todo g) made)
    (hqueue : g.queue.next? = some (c, queue)) :
    (splitting step before todo g).TakesBest scorer step examples made c := by
  have hsound := sound_of_reaches h.reaches
  have hexplored : g.Explored scorer step made := explored_of_tracks h rfl
  have hc : c ∈ g.queue.items := by
    rw [Queue.items_of_next? hqueue]
    exact Multiset.mem_cons_self c _
  have hunsplit : ∀ l, l ∈ (splitting step before todo g).unsplit ↔ l ∈ g.leaves := by
    intro l
    rw [← Multiset.mem_coe, coe_unsplit]
    exact Iff.of_eq (congrArg (l ∈ ·) (Multiset.add_zero g.leaves))
  have hmem : c.leaf ∈ g.leaves :=
    Multiset.mem_add.2 (.inr (Multiset.mem_map_of_mem Candidate.leaf hc))
  obtain ⟨own, hown, hbest⟩ := hexplored.queued c hc
  have hpos := hbest.found.pos
  refine ⟨(hunsplit _).2 hmem, ⟨own, hown, hbest.found⟩, ?_, ?_, ?_, ?_⟩
  · intro l hl
    exact hexplored.searched l ((hunsplit l).1 hl)
  · intro search hsearch hleaf d hd
    obtain ⟨b, _, hyields, hrank⟩ :=
      exists_queued_of_finds hsound hexplored hqueue hsearch ((hunsplit _).1 hleaf) hd
    have hle := (outranks_of_isLE hpos hyields.found.pos hrank).1
    exact PositiveOrder.le_trans hd.pos hyields.found.pos hpos (hyields.greatest d hd) hle
  · intro search hsearch hleaf d hd hge
    obtain ⟨b, _, hyields, hrank⟩ :=
      exists_queued_of_finds hsound hexplored hqueue hsearch ((hunsplit _).1 hleaf) hd
    have hbehind := PositiveOrder.le_trans hpos hd.pos hyields.found.pos hge
      (hyields.greatest d hd)
    have horder := (outranks_of_isLE hpos hyields.found.pos hrank).2 hbehind
    rw [hyields.found.leaf_eq, ← hd.leaf_eq] at horder
    refine ⟨horder, fun hsize => ?_⟩
    rwa [order_eq_index hsound hzero hsize ((hunsplit _).2 hmem),
      order_eq_index hsound hzero hsize (hd.leaf_eq ▸ hleaf)] at horder
  · intro search hsearch hleaf d hd hge
    obtain ⟨b, hb, hyields, _⟩ :=
      exists_queued_of_finds hsound hexplored hqueue hsearch (hleaf ▸ hmem) hd
    have hsame : b = c := eq_of_leaf_eq hsound hb hc (hyields.found.leaf_eq.trans hleaf)
    rw [← hsame] at hge ⊢
    exact hyields.first d hd hge

omit [PositiveOrder ν] in
theorem commits_next (hnext : s.next? scorer source maxLeaves = some s') :
    s'.growth.commits = s.growth.commits ∨
      ∃ step before todo g c queue, s = splitting step before todo g ∧
        g.queue.next? = some (c, queue) ∧
        s'.growth.commits = g.commits ++ [Growth.commitOf g.commits.length c] := by
  cases transition_of_next? hnext with
  | offer step entries before todo l waiting g => exact .inl (Growth.commits_offer ..)
  | commit step before todo g g' _ hcommit =>
    obtain ⟨c, queue, hqueue, rfl⟩ := Growth.commit?_eq_some_iff.1 hcommit
    refine .inr ⟨step, before, todo, g, c, queue, rfl, hqueue, ?_⟩
    rw [growth, Growth.commits_offer, Growth.commits_offer]
    rfl
  | _ => exact .inl rfl

omit [PositiveOrder ν] in
theorem exists_served
    (h : Tracks scorer source maxLeaves (between steps (Growth.start scorer draws examples)) s made)
    {i : Nat} {commit : Commit ν} (hcommit : s.growth.commits[i]? = some commit) :
    ∃ (step : Step ν) (before : Growth ν γ) (todo : List (Step ν)) (g : Growth ν γ)
      (queue : Queue (Candidate ν)) (made : List (Search ν)),
      Tracks scorer source maxLeaves (between steps (Growth.start scorer draws examples))
        (splitting step before todo g) made ∧
      g.commits = s.growth.commits.take i ∧
      g.queue.next? = some (commit.candidate, queue) := by
  induction h with
  | start => cases hcommit
  | @next s s' made htracks hnext ih =>
    rcases commits_next hnext with heq | ⟨step, before, todo, g, c, queue, rfl, hqueue, heq⟩
    · rw [heq] at hcommit ⊢
      exact ih hcommit
    · rw [heq] at hcommit ⊢
      by_cases hlt : i < g.commits.length
      · rw [List.getElem?_append_left hlt] at hcommit
        rw [List.take_append_of_le_length hlt.le]
        exact ih hcommit
      · rw [List.getElem?_append_right (Nat.le_of_not_lt hlt), List.getElem?_singleton] at hcommit
        split at hcommit
        · rename_i hlast
          cases hcommit
          have hi : i = g.commits.length := by omega
          rw [hi, List.take_left]
          exact ⟨step, before, todo, g, queue, made, htracks, rfl, hqueue⟩
        · cases hcommit

theorem exists_takesBest (hzero : (0 : ν) ≤ 0)
    (h : Tracks scorer source maxLeaves (between steps (Growth.start scorer draws examples)) s made)
    {i : Nat} {commit : Commit ν} (hcommit : s.growth.commits[i]? = some commit) :
    ∃ step ∈ steps, ∃ (earlier : Stage ν γ) (made : List (Search ν)),
      Tracks scorer source maxLeaves (between steps (Growth.start scorer draws examples)) earlier
        made ∧
      earlier.step? = some step ∧ earlier.growth.commits = s.growth.commits.take i ∧
      earlier.TakesBest scorer step examples made commit.candidate := by
  obtain ⟨step, before, todo, g, queue, made', htracks, hcommits, hqueue⟩ := exists_served h hcommit
  exact ⟨step, (sound_of_reaches htracks.reaches).growing.current_known step rfl,
    splitting step before todo g, made', htracks, rfl, hcommits,
    takesBest_of_tracks hzero htracks hqueue⟩

end Stage

namespace Growth

/-- A run commits the best split of all every time. -/
theorem takesBest_of_run {scorer : Scorer Float} {source : DrawSource γ} {draws : γ}
    {plan : TrainingPlan Float} {examples : List (Handle (Example Float))} {i : Nat}
    {commit : Commit Float}
    (hcommit : (run scorer source draws plan examples).commits[i]? = some commit) :
    ∃ step ∈ plan.steps, ∃ (s : Stage Float γ) (made : List (Search Float)),
      Stage.Tracks scorer source plan.maxLeaves (.between plan.steps (start scorer draws examples))
        s made ∧
      s.step? = some step ∧
      s.growth.commits = (run scorer source draws plan examples).commits.take i ∧
      s.TakesBest scorer step examples made commit.candidate := by
  have hreaches : Stage.Reaches scorer source plan.maxLeaves
      (.between plan.steps (start scorer draws examples))
      (.ended (run scorer source draws plan examples)) := Stage.reaches_runSteps ..
  obtain ⟨made, htracks⟩ := hreaches.exists_tracks
  exact Stage.exists_takesBest (by decide) htracks hcommit

open Sample in
/-- The split of the red thing from the blue thing is the best one of its moment. -/
theorem takesBest_red_from_blue : ∃ commit : Commit Float,
    (run Variance.scorer firstPlaces () ⟨schema, 2, [step]⟩ things).commits[0]? = some commit ∧
    ∃ s made, Stage.Tracks Variance.scorer firstPlaces 2
      (.between [step] (start Variance.scorer () things)) s made ∧
      s.TakesBest Variance.scorer step things made commit.candidate := by
  have hsome :
      ((run Variance.scorer firstPlaces () ⟨schema, 2, [step]⟩ things).commits[0]?).isSome := by
    decide +kernel
  obtain ⟨commit, hcommit⟩ := Option.isSome_iff_exists.1 hsome
  obtain ⟨step', hstep', s, made, htracks, _, _, hbest⟩ := takesBest_of_run hcommit
  rw [List.mem_singleton.1 hstep'] at hbest
  exact ⟨commit, hcommit, s, made, htracks, hbest⟩

end Growth

end QuestionTree
