import QuestionTree.Proofs.Growth.Account
import QuestionTree.Proofs.Growth.Outline

/-!
# The order of work

Two runs of a step that draws nothing are followed side by side. They start from states that differ
in the order of the open leaves, and each has a heap of its own. When the open leaves have been
offered, both have the same outline, and while the words last that count the nodes every commit
leads from the same outline to the same outline. So the order in which leaves are offered, the
layout of a heap and the order in which it gives its splits away are not to be seen in the tree.
-/

namespace QuestionTree

variable {ν γ : Type}

/-- Whether two growing trees differ only in the order of their open leaves, and in what they
report. -/
structure Growth.Reorders (g g' : Growth ν γ) : Prop where
  root_eq : g.root = g'.root
  draws_eq : g.draws = g'.draws
  queue_eq : g.queue = g'.queue
  offered_eq : g.offered = g'.offered
  commits_eq : g.commits = g'.commits
  opened_perm : g.opened.Perm g'.opened

theorem Growth.Reorders.note {g g' : Growth ν γ} (h : g.Reorders g') (e e' : Event ν) :
    (g.note e).Reorders (g'.note e') :=
  ⟨h.root_eq, h.draws_eq, h.queue_eq, h.offered_eq, h.commits_eq, h.opened_perm⟩

/-- Whether two runs end in the same outline, as far as words count the nodes. -/
structure Outline.Agrees (o o' : Outline ν γ) : Prop where
  commit_eq : ∀ i, 2 * i < UInt32.size → o.commits[i]? = o'.commits[i]?
  eq_of_lt : 2 * o.commits.length < UInt32.size → o = o'

variable [Arithmetic ν] {scorer : Scorer ν} {source : DrawSource γ} {step : Step ν}

namespace HeapGrowth

variable {H H' : Heap (Candidate ν)}

/-! ### Commits side by side -/

theorem prefix_splitAll (hplain : ¬ 1 < step.drawSize) (maxLeaves : Nat) (s : HeapGrowth H γ) :
    s.outline.commits <+: (s.splitAll scorer source step maxLeaves).outline.commits := by
  induction s using splitAll.induct scorer source step maxLeaves with
  | case1 s hbudget s' hcommit ih =>
    obtain ⟨c, rest, _, houtline⟩ := outline_of_commit? hplain hcommit
    have hone : s.outline.commits <+: s'.outline.commits := by
      rw [houtline, Outline.commits_commit]
      exact List.prefix_append ..
    rw [splitAll, if_pos hbudget, hcommit]
    exact hone.trans ih
  | case2 s hbudget hcommit => rw [splitAll, if_pos hbudget, hcommit]
  | case3 s hbudget => rw [splitAll, if_neg hbudget]

/-- A commit that was made stays in its place. -/
theorem commit_splitAll (hplain : ¬ 1 < step.drawSize) (maxLeaves : Nat) (s : HeapGrowth H γ)
    {i : Nat} (hi : i < s.outline.commits.length) :
    (s.splitAll scorer source step maxLeaves).outline.commits[i]? = s.outline.commits[i]? := by
  obtain ⟨later, hlater⟩ : s.outline.commits <+:
      (s.splitAll scorer source step maxLeaves).outline.commits :=
    prefix_splitAll hplain maxLeaves s
  rw [← hlater, List.getElem?_append_left hi]

theorem leafCount_congr {s : HeapGrowth H γ} {s' : HeapGrowth H' γ}
    (hsame : s.outline = s'.outline) : s.leafCount = s'.leafCount := by
  rw [leafCount_eq, leafCount_eq, hsame]

theorem commit?_eq_none_congr (hplain : ¬ 1 < step.drawSize) {s : HeapGrowth H γ}
    {s' : HeapGrowth H' γ} (hsame : s.outline = s'.outline) :
    s.commit? scorer source step = none ↔ s'.commit? scorer source step = none := by
  rw [commit?_eq_none_iff hplain, commit?_eq_none_iff hplain, hsame]

/-- From one outline two heaps make the same commits. -/
theorem agrees_splitAll [Std.TransOrd ν] (hplain : ¬ 1 < step.drawSize) (maxLeaves : Nat)
    {s : HeapGrowth H γ} {s' : HeapGrowth H' γ} (hsame : s.outline = s'.outline)
    (hnumbered : s.outline.Numbered) :
    (s.splitAll scorer source step maxLeaves).outline.Agrees
      (s'.splitAll scorer source step maxLeaves).outline := by
  induction s using splitAll.induct scorer source step maxLeaves generalizing s' with
  | case1 s hbudget t hcommit ih =>
    have hbudget' : s'.leafCount < maxLeaves := leafCount_congr hsame ▸ hbudget
    obtain ⟨t', hcommit'⟩ : ∃ t', s'.commit? scorer source step = some t' := by
      rw [← Option.ne_none_iff_exists', ne_eq, ← commit?_eq_none_congr hplain hsame, hcommit]
      exact Option.some_ne_none t
    by_cases hwords : 2 * s.outline.commits.length < UInt32.size
    · obtain ⟨c, rest, hserves, heq⟩ := outline_of_commit? hplain hcommit
      obtain ⟨c', rest', hserves', heq'⟩ := outline_of_commit? hplain hcommit'
      obtain ⟨rfl, rfl⟩ := hserves.unique hnumbered hwords (hsame ▸ hserves')
      rw [splitAll, if_pos hbudget, hcommit, splitAll, if_pos hbudget', hcommit']
      exact ih (by rw [heq, heq', hsame]) (heq ▸ hnumbered.commit hserves)
    · -- No more is said of commits that are beyond the words, and the earlier ones stay.
      refine ⟨fun i hi => ?_, fun hlt => ?_⟩
      · have hearlier : i < s.outline.commits.length := by omega
        rw [commit_splitAll hplain maxLeaves s hearlier,
          commit_splitAll hplain maxLeaves s' (hsame ▸ hearlier), hsame]
      · have hprefix : s.outline.commits <+:
            (s.splitAll scorer source step maxLeaves).outline.commits :=
          prefix_splitAll hplain maxLeaves s
        have hlength := hprefix.length_le
        omega
  | case2 s hbudget hcommit =>
    have hcommit' := (commit?_eq_none_congr hplain hsame).1 hcommit
    rw [splitAll, if_pos hbudget, hcommit, splitAll, if_pos (leafCount_congr hsame ▸ hbudget),
      hcommit']
    exact ⟨fun i _ => congrArg (·.commits[i]?) hsame, fun _ => hsame⟩
  | case3 s hbudget =>
    rw [splitAll, if_neg hbudget, splitAll, if_neg (leafCount_congr hsame ▸ hbudget)]
    exact ⟨fun i _ => congrArg (·.commits[i]?) hsame, fun _ => hsame⟩

/-! ### Leaves side by side -/

/-- The outline in which a step takes the open leaves to offer them. -/
def taken (step : Step ν) (g : Growth ν γ) : Outline ν γ where
  root := g.root
  draws := g.draws
  offered := g.offered ++ g.entriesOf step
  commits := g.commits
  opened := 0
  waiting := 0

variable {g g' : Growth ν γ} {store : H.Store} {store' : H'.Store}

theorem outline_enter (hplain : ¬ 1 < step.drawSize) (hstore : H.drain store = [])
    (g : Growth ν γ) :
    (enter H store scorer source step g).outline =
      (g.opened.map fun l => { l with entries := g.entriesOf step }).foldl
        (Outline.offer scorer step) (taken step g) := by
  rw [enter, outline_foldl_offer hplain, outline, hstore]
  rfl

theorem outline_enter_congr (hplain : ¬ 1 < step.drawSize) (hstore : H.drain store = [])
    (hstore' : H'.drain store' = []) (h : g.Reorders g') :
    (enter H store scorer source step g).outline =
      (enter H' store' scorer source step g').outline := by
  have hentries : g.entriesOf step = g'.entriesOf step := by
    rw [Growth.entriesOf, Growth.entriesOf, h.offered_eq]
  have htaken : taken step g = taken step g' := by
    rw [taken, taken, hentries, h.root_eq, h.draws_eq, h.offered_eq, h.commits_eq]
  rw [outline_enter hplain hstore, outline_enter hplain hstore', hentries, htaken]
  exact (h.opened_perm.map _).foldl_eq _

theorem numbered_enter (hplain : ¬ 1 < step.drawSize) (hstore : H.drain store = [])
    (hnodup : (g.opened.map Leaf.index).Nodup)
    (hlt : ∀ l ∈ g.opened, l.index < 2 * g.commits.length + 1) :
    (enter H store scorer source step g).outline.Numbered := by
  have hindices : (enter H store scorer source step g).outline.indices =
      (g.opened.map Leaf.index : Multiset Nat) := by
    rw [outline_enter hplain hstore, Outline.indices_foldl_offer, List.map_map]
    exact add_zero _
  have hcommits : (enter H store scorer source step g).outline.commits = g.commits := by
    rw [outline_enter hplain hstore, Outline.commits_foldl_offer]
    rfl
  refine ⟨hindices ▸ hnodup, fun i hi => ?_⟩
  rw [hindices] at hi
  obtain ⟨l, hl, rfl⟩ := List.mem_map.1 (Multiset.mem_coe.1 hi)
  exact hcommits.symm ▸ hlt l hl

/-- From one outline the trees of two heaps differ only in the order of their open leaves. -/
theorem reorders_close {s : HeapGrowth H γ} {s' : HeapGrowth H' γ}
    (hsame : s.outline = s'.outline) : s.close.Reorders s'.close := by
  refine ⟨congrArg Outline.root hsame, congrArg Outline.draws hsame,
    s.queue_eq.trans s'.queue_eq.symm, congrArg Outline.offered hsame,
    congrArg Outline.commits hsame, Multiset.coe_eq_coe.1 ?_⟩
  have hopened : (s.growth.opened : Multiset (Leaf ν)) = s'.growth.opened :=
    congrArg Outline.opened hsame
  have hwaiting : (H.drain s.store : Multiset (Candidate ν)) = H'.drain s'.store :=
    congrArg Outline.waiting hsame
  rw [close, close, ← Multiset.coe_add, ← Multiset.coe_add, ← Multiset.map_coe, ← Multiset.map_coe,
    hopened, hwaiting]

end HeapGrowth

/-! ### A step side by side -/

namespace Stage

variable [Std.TransOrd ν] {maxLeaves : Nat} {examples : List (Handle (Example ν))}
  {steps todo : List (Step ν)} {draws : γ} {g g' : Growth ν γ}

/-- The order in which the leaves are open and the heap in which their splits wait do not matter to
a step that draws nothing. The bound is the range of the word of thirty-two bits that the nodes are
counted in: the children of a commit beyond it would get orders that were given out before. -/
theorem confluent_of_reaches
    (h : Reaches scorer source maxLeaves (between steps (Growth.start scorer draws examples))
      (between todo g))
    (hreorders : g.Reorders g') (hplain : step.isRandomized = false) (H H' : Heap (Candidate ν))
    {store : H.Store} {store' : H'.Store} (hstore : H.drain store = [])
    (hstore' : H'.drain store' = []) :
    let r := g.runSplitOn H store scorer source maxLeaves step
    let r' := g'.runSplitOn H' store' scorer source maxLeaves step
    (∀ i, 2 * i < UInt32.size → r.commits[i]? = r'.commits[i]?) ∧
      (2 * r.commits.length < UInt32.size → r.Reorders r' ∧
        nodesBelow r.root r.commits = nodesBelow r'.root r'.commits) ∧
      g.runSplitOn (Queue.heap _) (Queue.heap _).empty scorer source maxLeaves step =
        g.runSplit scorer source maxLeaves step := by
  have hsound := sound_of_reaches h
  have hempty : g.queue = .empty := queue_eq_empty_of_sound hsound rfl
  have hplain : ¬ 1 < step.drawSize := of_decide_eq_false hplain
  have hledger : Ledger examples g.root g.commits g.opened := by
    have hall : Ledger examples g.root g.commits (g.leaves + 0) := hsound.growing.ledger
    rwa [add_zero, Growth.leaves_of_empty hempty] at hall
  let s := HeapGrowth.enter H store scorer source step g
  let s' := HeapGrowth.enter H' store' scorer source step g'
  have hsame : s.outline = s'.outline :=
    HeapGrowth.outline_enter_congr hplain hstore hstore' hreorders
  have hnumbered : s.outline.Numbered :=
    HeapGrowth.numbered_enter hplain hstore hledger.nodup_indices fun l hl =>
      (hledger.mem_indices_iff.1 (Multiset.mem_map_of_mem Leaf.index hl)).1
  have hagrees : (s.splitAll scorer source step maxLeaves).outline.Agrees
      (s'.splitAll scorer source step maxLeaves).outline :=
    HeapGrowth.agrees_splitAll hplain maxLeaves hsame hnumbered
  refine ⟨hagrees.commit_eq, fun hwords => ?_, Growth.runSplitOn_heap _ _ _ _ hempty⟩
  have hclose := HeapGrowth.reorders_close (hagrees.eq_of_lt hwords)
  exact ⟨hclose.note _ _, congrArg₂ nodesBelow hclose.root_eq hclose.commits_eq⟩

end Stage

/-! ### Two pairs -/

namespace Sample

def suits : Schema := ⟨[⟨"suit", ⟨["clubs", "diamonds", "hearts", "spades"]⟩⟩]⟩

/-- Four cards in two pairs, of which one shows as much difference as the other. -/
def cards : List (Handle (Example Float)) :=
  Handle.ofList 0
    [⟨⟨suits, [some 0]⟩, Box.single 0, 1⟩, ⟨⟨suits, [some 1]⟩, Box.single 1, 1⟩,
      ⟨⟨suits, [some 2]⟩, Box.single 10, 1⟩, ⟨⟨suits, [some 3]⟩, Box.single 11, 1⟩]

/-- Takes the pairs apart from one another. -/
def askPair : Step Float :=
  .ofPool "pairs" (QuestionPool.ofQuestions 0 [⟨0, .set [0, 1], "minor"⟩])

/-- Takes each pair apart. -/
def askCard : Step Float :=
  .ofPool "cards" (QuestionPool.ofQuestions 0 [⟨0, .set [0, 2], "round"⟩])

/-- The tree whose leaves are the pairs. -/
def pairs : Growth Float Unit :=
  ((Growth.start Variance.scorer () cards).note (.stepEntered askPair)).runSplit Variance.scorer
    firstPlaces 3 askPair

end Sample

namespace Stage

open Sample

/-- With a budget for one of the pairs, it is the older one that the next step takes apart, also
when the younger one is offered first. -/
theorem confluent_pairs :
    let reversed := { pairs with opened := pairs.opened.reverse }
    let r := pairs.runSplitOn (Queue.heap _) (Queue.heap _).empty Variance.scorer firstPlaces 3
      askCard
    let r' := reversed.runSplitOn (Heap.line _) (Heap.line _).empty Variance.scorer firstPlaces 3
      askCard
    Reaches Variance.scorer firstPlaces 3
      (between [askPair, askCard] (Growth.start Variance.scorer () cards))
      (between [askCard] pairs) ∧
    pairs.Reorders reversed ∧ pairs.opened.map Leaf.index = [1, 2] ∧
    r.commits.map (·.candidate.leaf.index) = [0, 1] ∧ r.Reorders r' := by
  intro reversed r r'
  have hreaches : Reaches Variance.scorer firstPlaces 3
      (between [askPair, askCard] (Growth.start Variance.scorer () cards))
      (between [askCard] pairs) := reaches_runSplit [askCard] (by decide) rfl
  have hreorders : pairs.Reorders reversed :=
    ⟨rfl, rfl, rfl, rfl, rfl, pairs.opened.reverse_perm.symm⟩
  have hplain : askCard.isRandomized = false := rfl
  obtain ⟨_, hsame, hown⟩ := confluent_of_reaches hreaches hreorders hplain (Queue.heap _)
    (Heap.line _) (Queue.heap _).drain_empty (Heap.line _).drain_empty
  have hcommits : r.commits.map (·.candidate.leaf.index) = [0, 1] := by
    have hown : r = pairs.runSplit Variance.scorer firstPlaces 3 askCard := hown
    rw [hown]
    decide +kernel
  have hwords : 2 * r.commits.length < UInt32.size := by
    have hlength := congrArg List.length hcommits
    rw [List.length_map] at hlength
    rw [hlength]
    decide
  exact ⟨hreaches, hreorders, by decide +kernel, hcommits, (hsame hwords).1⟩

end Stage

end QuestionTree
