import QuestionTree.Proofs.Growth.Candidate
import QuestionTree.Proofs.Growth.Face
import QuestionTree.Proofs.Growth.Stage
import QuestionTree.Proofs.Queue.Related

/-!
# Runs side by side

Two runs go side by side if what tells their leaves apart does not matter to the search for splits.
`Leaf.Mirrors` says so of a relation between leaves: the best splits of related leaves divide them
alike, and so the children are related again. The runs then keep related leaves in the same places,
whether these are open or wait in the queue, draw the same and carry out the same splits. Between
two steps the questions left to a leaf are of no account, as the next step brings its own.
-/

namespace QuestionTree

variable {ν γ : Type} {R : Leaf ν → Leaf ν → Prop}

/-! ### Leaves and splits -/

/-- Whether two splits are the same but for the examples, and divide related leaves into related
ones. -/
structure Candidate.Twins (R : Leaf ν → Leaf ν → Prop) (c c' : Candidate ν) : Prop where
  leaf : R c.leaf c'.leaf
  face_eq : c.face = c'.face
  yes : ∀ i, R (Growth.commitOf i c).yes (Growth.commitOf i c').yes
  no : ∀ i, R (Growth.commitOf i c).no (Growth.commitOf i c').no

/-- Whether two leaves are related as soon as they are left the same questions. -/
def Leaf.Matched (R : Leaf ν → Leaf ν → Prop) (l l' : Leaf ν) : Prop :=
  ∀ es, R { l with entries := es } { l' with entries := es }

/-- Whether a relation between leaves is passed on to all that a search finds in them. -/
structure Leaf.Mirrors [Arithmetic ν] (scorer : Scorer ν) (R : Leaf ν → Leaf ν → Prop) :
    Prop where
  face_eq : ∀ {l l'}, R l l' → l.face = l'.face
  relabel : ∀ {l l'}, R l l' → l.Matched R l'
  /-- A question is accepted by related leaves with twin splits, or by neither. -/
  attempt : ∀ {l l'}, R l l' → ∀ step slot entry,
    Option.Rel (Candidate.Twins R) (l.attempt scorer step slot entry).candidate?
      (l'.attempt scorer step slot entry).candidate?

theorem Candidate.Twins.priority_eq {c c' : Candidate ν} (h : c.Twins R c') :
    Prioritized.priority c = Prioritized.priority c' := by
  have hgain : c.gain = c'.gain := (congrArg Candidate.gain h.face_eq :)
  have horder : c.leaf.order = c'.leaf.order := (congrArg (·.leaf.order) h.face_eq :)
  show (⟨c.gain, c.leaf.order⟩ : Priority ν) = ⟨c'.gain, c'.leaf.order⟩
  rw [hgain, horder]

theorem Candidate.Twins.face_commitOf {c c' : Candidate ν} (h : c.Twins R c') (i : Nat) :
    (Growth.commitOf i c).face = (Growth.commitOf i c').face :=
  (congrArg (fun c => (Growth.commitOf i c).face) h.face_eq :)

namespace Leaf

variable [Arithmetic ν]

theorem better_twins {b b' : Option (Candidate ν)} {c c' : Candidate ν}
    (hb : Option.Rel (Candidate.Twins R) b b') (hc : c.Twins R c') :
    Option.Rel (Candidate.Twins R) (better b c) (better b' c') := by
  have hgain : c.gain = c'.gain := (congrArg Candidate.gain hc.face_eq :)
  cases hb with
  | none => exact .some hc
  | @some b b' hb =>
    have hgain' : b.gain = b'.gain := (congrArg Candidate.gain hb.face_eq :)
    rw [better, better, hgain, hgain']
    split
    · exact .some hc
    · exact .some hb

/-- The searches of related leaves come upon twin splits, or upon none. -/
theorem Mirrors.search {scorer : Scorer ν} (hR : Mirrors scorer R) {l l' : Leaf ν} (hl : R l l')
    (step : Step ν) (slots : List Nat) :
    Option.Rel (Candidate.Twins R) (best (l.trials scorer step slots))
      (best (l'.trials scorer step slots)) := by
  have hentries : l.entries = l'.entries := (congrArg Leaf.entries (hR.face_eq hl) :)
  have haccepted : List.Forall₂ (Candidate.Twins R)
      ((l.trials scorer step slots).filterMap Trial.candidate?)
      ((l'.trials scorer step slots).filterMap Trial.candidate?) := by
    rw [trials, trials, List.filterMap_filterMap, List.filterMap_filterMap, hentries]
    refine List.rel_filterMap ?_ (List.forall₂_same.2 fun slot _ => rfl)
    rintro slot _ rfl
    dsimp only
    cases l'.entries[slot]? with
    | none => exact .none
    | some entry => exact hR.attempt hl step slot entry
  have hbetter : Relator.LiftFun (Option.Rel (Candidate.Twins R))
      (Relator.LiftFun (Candidate.Twins R) (Option.Rel (Candidate.Twins R))) better better :=
    fun _ _ hb _ _ hc => better_twins hb hc
  exact List.rel_foldl hbetter .none haccepted

end Leaf

namespace Growth

/-! ### Operations -/

/-- Whether two states go side by side in the middle of a step. -/
structure Twins (R : Leaf ν → Leaf ν → Prop) (g g' : Growth ν γ) : Prop extends
    g.SameFace g' where
  draws_eq : g.draws = g'.draws
  opened : List.Forall₂ R g.opened g'.opened
  queue : Queue.Related (Candidate.Twins R) g.queue g'.queue

/-- Whether two states go side by side between two steps. -/
structure Rests (R : Leaf ν → Leaf ν → Prop) (g g' : Growth ν γ) : Prop extends
    g.SameFace g' where
  draws_eq : g.draws = g'.draws
  opened : List.Forall₂ (Leaf.Matched R) g.opened g'.opened
  left_empty : g.queue = .empty
  right_empty : g'.queue = .empty

namespace Twins

variable {g g' : Growth ν γ}

theorem leafCount_eq (h : g.Twins R g') : g.leafCount = g'.leafCount := by
  rw [leafCount, leafCount, h.opened.length_eq, h.queue.size_eq]

variable [Arithmetic ν] {scorer : Scorer ν} {source : DrawSource γ} {step : Step ν}

theorem offer (h : g.Twins R g') (hR : Leaf.Mirrors scorer R) {l l' : Leaf ν} (hl : R l l') :
    (g.offer scorer source step l).Twins R (g'.offer scorer source step l') := by
  have hmass : l.mass = l'.mass := (congrArg Leaf.mass (hR.face_eq hl) :)
  have hentries : l.entries = l'.entries := (congrArg Leaf.entries (hR.face_eq hl) :)
  have hopened : List.Forall₂ R (g.opened ++ [l]) (g'.opened ++ [l']) :=
    List.rel_append h.opened (.cons hl .nil)
  simp only [Growth.offer, hmass, hentries, h.draws_eq]
  split
  · exact ⟨⟨h.root_eq, h.offered_eq, h.commits_eq⟩, rfl, hopened, h.queue⟩
  · have hsearch := hR.search hl step
      (source.sample step.drawSize (List.range l'.entries.length) g'.draws).1
    generalize Leaf.best (l.trials scorer step _) = found at hsearch ⊢
    generalize Leaf.best (l'.trials scorer step _) = found' at hsearch ⊢
    cases hsearch with
    | none => exact ⟨⟨h.root_eq, h.offered_eq, h.commits_eq⟩, rfl, hopened, h.queue⟩
    | some hc =>
      have hqueue := h.queue.insert (fun _ _ hc => hc.priority_eq) hc
      exact ⟨⟨h.root_eq, h.offered_eq, h.commits_eq⟩, rfl, h.opened, hqueue⟩

theorem carryOut (h : g.Twins R g') {c c' : Candidate ν} {queue queue' : Queue (Candidate ν)}
    (hc : c.Twins R c') (hqueue : Queue.Related (Candidate.Twins R) queue queue') :
    (g.carryOut c queue).Twins R (g'.carryOut c' queue') := by
  refine ⟨⟨h.root_eq, h.offered_eq, ?_⟩, h.draws_eq, h.opened, hqueue⟩
  show (g.commits ++ [_]).map Commit.face = (g'.commits ++ [_]).map Commit.face
  rw [List.map_append, List.map_append, h.commits_eq, h.length_commits_eq, List.map_singleton,
    List.map_singleton, hc.face_commitOf]

theorem commit? (h : g.Twins R g') (hR : Leaf.Mirrors scorer R) :
    Option.Rel (Twins R) (g.commit? scorer source step) (g'.commit? scorer source step) := by
  have hnext := h.queue.next? fun _ _ hc => hc.priority_eq
  rw [Growth.commit?, Growth.commit?]
  generalize g.queue.next? = served at hnext ⊢
  generalize g'.queue.next? = served' at hnext ⊢
  cases hnext with
  | none => exact .none
  | some hserved =>
    obtain ⟨hc, hqueue⟩ := hserved
    have hout := h.carryOut hc hqueue
    refine .some ((hout.offer hR ?_).offer hR ?_)
    · exact h.length_commits_eq ▸ hc.yes _
    · exact h.length_commits_eq ▸ hc.no _

theorem splitAll (h : g.Twins R g') (hR : Leaf.Mirrors scorer R) (maxLeaves : Nat) :
    (g.splitAll scorer source step maxLeaves).Twins R
      (g'.splitAll scorer source step maxLeaves) := by
  induction g using splitAll.induct scorer source step maxLeaves generalizing g' with
  | case1 g hbudget g₁ hcommit ih =>
    have hcommits : Option.Rel (Twins R) (g.commit? scorer source step)
        (g'.commit? scorer source step) := h.commit? hR
    rw [Growth.splitAll, Growth.splitAll, ← h.leafCount_eq, if_pos hbudget, if_pos hbudget]
    rw [hcommit] at hcommits ⊢
    generalize g'.commit? scorer source step = next at hcommits ⊢
    cases hcommits with
    | some h₁ => exact ih h₁
  | case2 g hbudget hcommit =>
    have hcommits : Option.Rel (Twins R) (g.commit? scorer source step)
        (g'.commit? scorer source step) := h.commit? hR
    rw [Growth.splitAll, Growth.splitAll, ← h.leafCount_eq, if_pos hbudget, if_pos hbudget]
    rw [hcommit] at hcommits ⊢
    generalize g'.commit? scorer source step = next at hcommits ⊢
    cases hcommits with
    | none => exact h
  | case3 g hbudget =>
    rw [Growth.splitAll, Growth.splitAll, ← h.leafCount_eq, if_neg hbudget, if_neg hbudget]
    exact h

theorem close (h : g.Twins R g') (hR : Leaf.Mirrors scorer R) : g.close.Rests R g'.close := by
  refine ⟨⟨h.root_eq, h.offered_eq, h.commits_eq⟩, h.draws_eq, List.rel_append ?_ ?_, rfl, rfl⟩
  · exact h.opened.imp fun _ _ hl => hR.relabel hl
  · refine List.rel_map ?_ (h.queue.byAge fun _ _ hc => hc.priority_eq)
    exact fun _ _ hc => hR.relabel hc.leaf

end Twins

/-! ### Steps -/

namespace Rests

variable {g g' : Growth ν γ}

theorem withEvents (h : g.Rests R g') (events events' : List (Event ν)) :
    ({ g with events := events } : Growth ν γ).Rests R { g' with events := events' } :=
  ⟨⟨h.root_eq, h.offered_eq, h.commits_eq⟩, h.draws_eq, h.opened, h.left_empty, h.right_empty⟩

theorem note (h : g.Rests R g') (e e' : Event ν) : (g.note e).Rests R (g'.note e') :=
  h.withEvents _ _

variable [Arithmetic ν] {scorer : Scorer ν} {source : DrawSource γ} {step : Step ν}

theorem foldl_offer (hR : Leaf.Mirrors scorer R) (entries : List Entry) {ls ls' : List (Leaf ν)}
    (hls : List.Forall₂ (Leaf.Matched R) ls ls') (h : g.Twins R g') :
    (ls.foldl (fun g l => g.offer scorer source step { l with entries := entries }) g).Twins R
      (ls'.foldl (fun g l => g.offer scorer source step { l with entries := entries }) g') := by
  induction hls generalizing g g' with
  | nil => exact h
  | cons hl _ ih => exact ih (h.offer hR (hl entries))

theorem enter (h : g.Rests R g') (hR : Leaf.Mirrors scorer R) :
    (g.enter scorer source step).Twins R (g'.enter scorer source step) := by
  have hentries : g.entriesOf step = g'.entriesOf step := by
    rw [entriesOf, entriesOf, h.offered_eq]
  have htaken : ({ g with opened := [], offered := g.offered ++ g.entriesOf step } :
      Growth ν γ).Twins R { g' with opened := [], offered := g'.offered ++ g.entriesOf step } := by
    refine ⟨⟨h.root_eq, congrArg (· ++ _) h.offered_eq, h.commits_eq⟩, h.draws_eq, .nil, ?_⟩
    show Queue.Related _ g.queue g'.queue
    rw [h.left_empty, h.right_empty]
    exact Queue.related_empty _
  have henter : g'.enter scorer source step =
      g'.opened.foldl (fun g l => g.offer scorer source step
        { l with entries := g'.entriesOf step })
        { g' with opened := [], offered := g'.offered ++ g'.entriesOf step } := rfl
  rw [henter, ← hentries]
  exact foldl_offer hR (g.entriesOf step) h.opened htaken

theorem runSplit (h : g.Rests R g') (hR : Leaf.Mirrors scorer R) (maxLeaves : Nat) :
    (g.runSplit scorer source maxLeaves step).Rests R
      (g'.runSplit scorer source maxLeaves step) := by
  have hwarned : ({ g with events := g.events ++ stepWarnings step g.root.mass } :
      Growth ν γ).Rests R { g' with events := g'.events ++ stepWarnings step g'.root.mass } :=
    h.withEvents _ _
  exact (((hwarned.enter hR).splitAll hR maxLeaves).close hR).note _ _

/-- A plan keeps two runs side by side. -/
theorem runSteps (h : g.Rests R g') (hR : Leaf.Mirrors scorer R) (maxLeaves : Nat)
    (todo : List (Step ν)) :
    (Growth.runSteps scorer source maxLeaves todo g).Rests R
      (Growth.runSteps scorer source maxLeaves todo g') := by
  induction todo generalizing g g' with
  | nil => exact h
  | cons step todo ih =>
    rw [Growth.runSteps, Growth.runSteps, h.opened.length_eq]
    split
    · exact h.note _ _
    · split
      · exact ih ((h.note _ _).note _ _)
      · exact ih ((h.note _ _).runSplit hR maxLeaves)

end Rests

end Growth

end QuestionTree
