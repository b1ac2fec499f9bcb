import QuestionTree.Proofs.Example.Box
import QuestionTree.Scorer

/-!
# Counting boxes

Examples are counted one after the other, each under the first counted box that is the same as its
own. Boxes that are filled are the same only if they are equal, so that no box is counted twice,
those counted are the ones that some example shows, and one more example is counted alike whatever
the order of what was counted.
-/

namespace QuestionTree

namespace Id3

variable {ν : Type} [Arithmetic ν] {box : Box ν} {mass : ν} {counted counted' : List (Box ν × ν)}
  {examples : List (Example ν)}

theorem counts_concat (examples : List (Example ν)) (e : Example ν) :
    counts (examples ++ [e]) = count e.box e.mass (counts examples) :=
  List.foldl_concat ..

theorem fst_of_mem_count {c : Box ν × ν} (h : c ∈ count box mass counted) :
    c.1 = box ∨ c.1 ∈ counted.map Prod.fst := by
  induction counted with
  | nil =>
    rw [count, List.mem_singleton] at h
    exact .inl (by rw [h])
  | cons d rest ih =>
    rw [count] at h
    split at h
    · rcases List.mem_cons.1 h with rfl | h
      · exact .inr (List.mem_cons_self ..)
      · exact .inr (List.mem_cons_of_mem _ (List.mem_map_of_mem h))
    · rcases List.mem_cons.1 h with rfl | h
      · exact .inr (List.mem_cons_self ..)
      · exact (ih h).imp_right (List.mem_cons_of_mem _)

theorem exists_of_mem_counts {c : Box ν × ν} (h : c ∈ counts examples) :
    ∃ e ∈ examples, e.box = c.1 := by
  induction examples using List.reverseRecOn generalizing c with
  | nil => cases h
  | append_singleton examples e ih =>
    rw [counts_concat] at h
    rcases fst_of_mem_count h with hnew | hold
    · exact ⟨e, List.mem_append_right _ (List.mem_singleton_self e), hnew.symm⟩
    · obtain ⟨d, hd, heq⟩ := List.mem_map.1 hold
      obtain ⟨e', he', hbox⟩ := ih hd
      exact ⟨e', List.mem_append_left _ he', hbox.trans heq⟩

theorem filled_of_mem_counts (hfilled : ∀ e ∈ examples, e.box.Filled) :
    ∀ c ∈ counts examples, c.1.Filled := by
  intro c hc
  obtain ⟨e, he, heq⟩ := exists_of_mem_counts hc
  exact heq ▸ hfilled e he

/-- Boxes that are not counted yet can be left out of the counting. -/
theorem count_append_perm {others : List (Box ν × ν)} (h : ∀ c ∈ others, ¬ c.1.same box) :
    (count box mass (counted ++ others)).Perm (count box mass counted ++ others) := by
  induction counted with
  | nil =>
    -- what is counted for the first time stands last in one list and first in the other
    show (count box mass others).Perm ((box, 0 + mass) :: others)
    induction others with
    | nil => exact .refl _
    | cons d others ih =>
      obtain ⟨hd, hothers⟩ := List.forall_mem_cons.1 h
      rw [count, if_neg hd]
      exact ((ih hothers).cons d).trans (.swap ..)
  | cons c rest ih =>
    rw [List.cons_append, count, count]
    split
    · exact .refl _
    · exact ih.cons c

section Filled

variable [Std.LawfulEqOrd ν]

theorem mem_count (hbox : box.Filled) (hfilled : ∀ c ∈ counted, c.1.Filled) {other : Box ν} :
    other ∈ (count box mass counted).map Prod.fst ↔
      other = box ∨ other ∈ counted.map Prod.fst := by
  induction counted with
  | nil => simp [count]
  | cons c rest ih =>
    obtain ⟨b, n⟩ := c
    obtain ⟨hb, hrest⟩ := List.forall_mem_cons.1 hfilled
    rw [count]
    split
    · rename_i hsame
      have hfirst : b = box := (Box.same_iff hb hbox).1 hsame
      rw [List.map_cons, List.map_cons, List.mem_cons, hfirst]
      exact ⟨.inr, Or.rec .inl id⟩
    · rw [List.map_cons, List.map_cons, List.mem_cons, List.mem_cons, ih hrest]
      exact or_left_comm

theorem nodup_count (hbox : box.Filled) (hfilled : ∀ c ∈ counted, c.1.Filled)
    (hnodup : (counted.map Prod.fst).Nodup) : ((count box mass counted).map Prod.fst).Nodup := by
  induction counted with
  | nil => exact List.nodup_singleton box
  | cons c rest ih =>
    obtain ⟨b, n⟩ := c
    obtain ⟨hb, hrest⟩ := List.forall_mem_cons.1 hfilled
    obtain ⟨hnew, hothers⟩ := List.nodup_cons.1 hnodup
    rw [count]
    split
    · exact hnodup
    · rename_i hother
      rw [List.map_cons, List.nodup_cons, mem_count hbox hrest, not_or]
      exact ⟨⟨fun heq => hother ((Box.same_iff hb hbox).2 heq), hnew⟩, ih hrest hothers⟩

theorem mem_counts (hfilled : ∀ e ∈ examples, e.box.Filled) :
    box ∈ (counts examples).map Prod.fst ↔ box ∈ examples.map Example.box := by
  induction examples using List.reverseRecOn with
  | nil => exact Iff.rfl
  | append_singleton examples e ih =>
    obtain ⟨hexamples, he⟩ := List.forall_mem_append.1 hfilled
    rw [counts_concat,
      mem_count (he e (List.mem_singleton_self e)) (filled_of_mem_counts hexamples), ih hexamples,
      List.map_append, List.mem_append, List.map_singleton, List.mem_singleton, or_comm]

theorem nodup_counts (hfilled : ∀ e ∈ examples, e.box.Filled) :
    ((counts examples).map Prod.fst).Nodup := by
  induction examples using List.reverseRecOn with
  | nil => exact List.nodup_nil
  | append_singleton examples e ih =>
    obtain ⟨hexamples, he⟩ := List.forall_mem_append.1 hfilled
    rw [counts_concat]
    exact nodup_count (he e (List.mem_singleton_self e)) (filled_of_mem_counts hexamples)
      (ih hexamples)

/-- One more example is counted alike in whatever order the boxes stand. -/
theorem count_perm (hperm : counted.Perm counted') (hbox : box.Filled)
    (hfilled : ∀ c ∈ counted, c.1.Filled) (hnodup : (counted.map Prod.fst).Nodup) :
    (count box mass counted).Perm (count box mass counted') := by
  induction hperm with
  | nil => exact .refl _
  | cons c hrest ih =>
    obtain ⟨_, hfilled⟩ := List.forall_mem_cons.1 hfilled
    rw [count, count]
    split
    · exact hrest.cons _
    · exact (ih hfilled (List.nodup_cons.1 hnodup).2).cons c
  | swap c d rest =>
    obtain ⟨hd, hfilled⟩ := List.forall_mem_cons.1 hfilled
    obtain ⟨hc, _⟩ := List.forall_mem_cons.1 hfilled
    have hne : d.1 ≠ c.1 := fun heq =>
      (List.nodup_cons.1 hnodup).1 (heq ▸ List.mem_cons_self ..)
    -- at most one of the two boxes is the counted one
    simp only [count]
    by_cases hsameD : d.1.same box = true
    · have hsameC : ¬ c.1.same box = true := fun hsameC =>
        hne (((Box.same_iff hd hbox).1 hsameD).trans ((Box.same_iff hc hbox).1 hsameC).symm)
      rw [if_pos hsameD, if_neg hsameC, if_pos hsameD]
      exact .swap ..
    · rw [if_neg hsameD, if_neg hsameD]
      split
      · exact .swap ..
      · exact .swap ..
  | trans hfirst _ ihFirst ihSecond =>
    refine (ihFirst hfilled hnodup).trans (ihSecond ?_ ?_)
    · exact fun c hc => hfilled c (hfirst.mem_iff.2 hc)
    · exact (hfirst.map Prod.fst).nodup_iff.1 hnodup

end Filled

end Id3

end QuestionTree
