import QuestionTree.Proofs.Example.Key
import QuestionTree.Proofs.Scorer.Counting

/-!
# Entropies do not depend on hashing

Boxes may be counted in a table: what is fed to a hash leads to a bucket, in which a box is then
searched. As made boxes that are the same feed the same, the buckets together hold what is counted
in a single list, in some order. The entropy takes the counted masses in the order of their ranks,
and as only equal values have the same rank, there is one way to put masses in order. So neither the
hash nor the number of buckets nor the order in which a table hands out its entries matters, and
what the boxes are matters only as far as they are the same or not.
-/

namespace QuestionTree

/-- The example with another box in place of its own. -/
def Example.renamed {ν : Type} (rename : Box ν → Box ν) (e : Example ν) : Example ν :=
  { e with box := rename e.box }

namespace Id3

variable {ν : Type} [Arithmetic ν]

/-- Counts examples in `n` buckets, to which hashes of their boxes lead. -/
def buckets (hash : Box ν → Nat) (n : Nat) (examples : List (Example ν)) :
    List (List (Box ν × ν)) :=
  examples.foldl (fun table e => table.modify (hash e.box % n) (count e.box e.mass))
    (List.replicate n [])

/-- The masses in the order of their ranks. -/
def inOrder (masses : List ν) : List ν := masses.mergeSort fun a b => compare a b != .gt

/-- The entropy that entries of a table come to, in the order in which it hands them out. -/
def entropyOfEntries (entries : List (Box ν × ν)) (examples : List (Example ν)) : ν :=
  let total := examples.foldl (fun total e => total + e.mass) 0
  if total ≤ 0 then 0 else entropyOfMasses (entries.map Prod.snd) total

variable {examples : List (Example ν)}

/-! ### Counting in buckets -/

/-- A table holds what is counted, and boxes stand where their hashes lead. -/
structure Hashed (hash : Box ν → Nat) (n : Nat) (examples : List (Example ν))
    (table : List (List (Box ν × ν))) : Prop where
  length_eq : table.length = n
  placed : ∀ (i : Nat) (bucket : List (Box ν × ν)), table[i]? = some bucket →
    ∀ c ∈ bucket, hash c.1 % n = i
  perm : table.flatten.Perm (counts examples)

theorem flatten_perm {α : Type} {table : List (List α)} {i : Nat} (hi : i < table.length) :
    table.flatten.Perm (table[i] ++ (table.eraseIdx i).flatten) :=
  (List.getElem_cons_eraseIdx_perm hi).symm.flatten

namespace Hashed

variable {hash : Box ν → Nat} {n : Nat} {table : List (List (Box ν × ν))} {e : Example ν}

theorem placed_modify (h : Hashed hash n examples table) {i : Nat} {bucket : List (Box ν × ν)}
    (hbucket : (table.modify (hash e.box % n) (count e.box e.mass))[i]? = some bucket) :
    ∀ c ∈ bucket, hash c.1 % n = i := by
  rw [List.getElem?_modify] at hbucket
  obtain ⟨before, hbefore, rfl⟩ := Option.map_eq_some_iff.1 hbucket
  intro c hc
  split at hc
  · rename_i hplace
    rcases fst_of_mem_count hc with hnew | hold
    · rw [hnew, hplace]
    · obtain ⟨d, hd, heq⟩ := List.mem_map.1 hold
      rw [← heq]
      exact h.placed i before hbefore d hd
  · exact h.placed i before hbefore c hc

variable [Std.LawfulEqOrd ν]

/-- A box is in no other bucket than the one to which its hash leads. -/
theorem not_same (h : Hashed hash n examples table) (hfilled : ∀ e ∈ examples, e.box.Filled)
    (hbox : e.box.Filled) : ∀ c ∈ (table.eraseIdx (hash e.box % n)).flatten, ¬ c.1.same e.box := by
  intro c hc hsame
  obtain ⟨bucket, hbucket, hcb⟩ := List.mem_flatten.1 hc
  obtain ⟨i, hi, hget⟩ := List.mem_eraseIdx_iff_getElem?.1 hbucket
  have hcounted : c ∈ counts examples :=
    h.perm.mem_iff.1 (List.mem_flatten.2 ⟨bucket, List.mem_of_getElem? hget, hcb⟩)
  have heq : c.1 = e.box := (Box.same_iff (filled_of_mem_counts hfilled c hcounted) hbox).1 hsame
  exact hi (heq ▸ (h.placed i bucket hget c hcb).symm)

theorem count (h : Hashed hash n examples table) (hn : 0 < n)
    (hfilled : ∀ e ∈ examples, e.box.Filled) (hbox : e.box.Filled) :
    Hashed hash n (examples ++ [e])
      (table.modify (hash e.box % n) (Id3.count e.box e.mass)) := by
  refine ⟨by rw [List.length_modify, h.length_eq], fun i bucket => h.placed_modify, ?_⟩
  have hi : hash e.box % n < table.length := (Nat.mod_lt _ hn).trans_eq h.length_eq.symm
  have hcounted : (Id3.count e.box e.mass (counts examples)).Perm (Id3.count e.box e.mass
      (table[hash e.box % n] ++ (table.eraseIdx (hash e.box % n)).flatten)) :=
    count_perm (h.perm.symm.trans (flatten_perm hi)) hbox (filled_of_mem_counts hfilled)
      (nodup_counts hfilled)
  have happend : (Id3.count e.box e.mass
      (table[hash e.box % n] ++ (table.eraseIdx (hash e.box % n)).flatten)).Perm
      (Id3.count e.box e.mass table[hash e.box % n] ++
        (table.eraseIdx (hash e.box % n)).flatten) :=
    count_append_perm (h.not_same hfilled hbox)
  have hi' : hash e.box % n <
      (table.modify (hash e.box % n) (Id3.count e.box e.mass)).length := by
    rwa [List.length_modify]
  have hmodified := flatten_perm hi'
  rw [List.getElem_modify_eq, List.eraseIdx_modify_of_eq] at hmodified
  rw [counts_concat]
  exact hmodified.trans (happend.symm.trans hcounted.symm)

end Hashed

/-- The buckets together hold what is counted in a single list. -/
theorem hashed_buckets [Std.LawfulEqOrd ν] {hash : Box ν → Nat} {n : Nat} (hn : 0 < n)
    (hfilled : ∀ e ∈ examples, e.box.Filled) :
    Hashed hash n examples (buckets hash n examples) := by
  induction examples using List.reverseRecOn with
  | nil =>
    refine ⟨List.length_replicate, fun i bucket hbucket c hc => ?_, ?_⟩
    · rw [List.eq_of_mem_replicate (List.mem_of_getElem? hbucket)] at hc
      cases hc
    · rw [buckets, List.foldl_nil, List.flatten_replicate_nil]
      exact .refl _
  | append_singleton examples e ih =>
    obtain ⟨hexamples, he⟩ := List.forall_mem_append.1 hfilled
    have hconcat : buckets hash n (examples ++ [e]) =
        (buckets hash n examples).modify (hash e.box % n) (count e.box e.mass) :=
      List.foldl_concat ..
    rw [hconcat]
    exact (ih hexamples).count hn hexamples (he e (List.mem_singleton_self e))

/-! ### Masses in order -/

section Order

theorem bne_gt_iff {a b : ν} : (compare a b != .gt) = true ↔ (compare a b).isLE := by
  rw [bne_iff_ne, Ordering.isLE_iff_ne_gt]

variable [Std.TransOrd ν]

theorem pairwise_inOrder (masses : List ν) :
    (inOrder masses).Pairwise fun a b => (compare a b).isLE := by
  refine List.Pairwise.imp bne_gt_iff.1 (List.pairwise_mergeSort (fun a b c hab hbc => ?_)
    (fun a b => ?_) masses)
  · exact bne_gt_iff.2 (Std.TransOrd.isLE_trans (bne_gt_iff.1 hab) (bne_gt_iff.1 hbc))
  · rw [Bool.or_eq_true, bne_gt_iff, bne_gt_iff]
    exact isLE_or_isLE a b

variable [Std.LawfulEqOrd ν] {masses others sorted : List ν}

theorem eq_inOrder (hperm : sorted.Perm masses)
    (hsorted : sorted.Pairwise fun a b => (compare a b).isLE) : sorted = inOrder masses := by
  refine List.Perm.eq_of_pairwise (fun a b _ _ hab hba => ?_) hsorted (pairwise_inOrder masses)
    (hperm.trans (List.mergeSort_perm masses _).symm)
  exact Std.LawfulEqOrd.eq_of_compare (Std.OrientedCmp.isLE_antisymm hab hba)

theorem inOrder_perm (h : masses.Perm others) : inOrder masses = inOrder others :=
  eq_inOrder ((List.mergeSort_perm masses _).trans h) (pairwise_inOrder masses)

theorem entropyOfMasses_perm (h : masses.Perm others) (total : ν) :
    entropyOfMasses masses total = entropyOfMasses others total := by
  show Arithmetic.total ((inOrder masses).map _) = Arithmetic.total ((inOrder others).map _)
  rw [inOrder_perm h]

end Order

/-! ### Other boxes -/

section Renaming

variable {rename : Box ν → Box ν}

theorem count_renamed {box : Box ν} {mass : ν} {counted : List (Box ν × ν)}
    (h : ∀ c ∈ counted, (rename c.1).same (rename box) = c.1.same box) :
    count (rename box) mass (counted.map (Prod.map rename id)) =
      (count box mass counted).map (Prod.map rename id) := by
  induction counted with
  | nil => rfl
  | cons c rest ih =>
    obtain ⟨hc, hrest⟩ := List.forall_mem_cons.1 h
    rw [List.map_cons, Prod.map, count, count, hc]
    split
    · rfl
    · rw [ih hrest]
      rfl

/-- Renamed examples are counted as before, under the new boxes. -/
theorem counts_renamed (h : ∀ e ∈ examples, ∀ d ∈ examples,
      (rename e.box).same (rename d.box) = e.box.same d.box) :
    counts (examples.map (Example.renamed rename)) =
      (counts examples).map (Prod.map rename id) := by
  induction examples using List.reverseRecOn with
  | nil => rfl
  | append_singleton examples e ih =>
    have hold : ∀ d ∈ examples, d ∈ examples ++ [e] := fun d => List.mem_append_left _
    have hnew : e ∈ examples ++ [e] := List.mem_append_right _ (List.mem_singleton_self e)
    rw [List.map_append, List.map_singleton, counts_concat, counts_concat,
      ih fun d hd d' hd' => h d (hold d hd) d' (hold d' hd')]
    refine count_renamed fun c hc => ?_
    obtain ⟨d, hd, heq⟩ := exists_of_mem_counts hc
    rw [← heq]
    exact h d (hold d hd) e hnew

theorem entropy_renamed (h : ∀ e ∈ examples, ∀ d ∈ examples,
      (rename e.box).same (rename d.box) = e.box.same d.box) :
    entropy (examples.map (Example.renamed rename)) = entropy examples := by
  have hmasses : ((counts examples).map (Prod.map rename id)).map Prod.snd =
      (counts examples).map Prod.snd := by
    rw [List.map_map]
    rfl
  rw [entropy, entropy, counts_renamed h, hmasses, List.foldl_map]
  rfl

end Renaming

/-- What the entropy of examples does not depend on. -/
structure HashBlind [Patterned ν] (examples : List (Example ν)) : Prop where
  /-- However boxes are hashed, into however many buckets, and in whatever order the entries are
  handed out: their masses are put into the same order, and come to the same entropy. -/
  tabled : ∀ (hash : Nat × Nat × List UInt64 → Nat) (n : Nat), 0 < n →
    ∀ entries : List (Box ν × ν),
      entries.Perm (buckets (fun box => hash box.fed) n examples).flatten →
      (∀ sorted : List ν, sorted.Perm (entries.map Prod.snd) →
        sorted.Pairwise (fun a b => (compare a b).isLE) →
        sorted = inOrder ((counts examples).map Prod.snd)) ∧
      entropyOfEntries entries examples = entropy examples
  /-- The examples may show any other boxes that are the same where theirs are the same. -/
  renamed : ∀ rename : Box ν → Box ν,
    (∀ e ∈ examples, ∀ d ∈ examples, (rename e.box).same (rename d.box) = e.box.same d.box) →
    entropy (examples.map (Example.renamed rename)) = entropy examples

/-- The entropy of examples that show made boxes does not depend on hashing. -/
theorem hashBlind_of_made [Patterned ν] (hmade : ∀ e ∈ examples, e.box.Made) :
    HashBlind examples := by
  refine ⟨fun hash n hn entries hentries => ?_, fun rename => entropy_renamed⟩
  have hhashed : Hashed (fun box => hash box.fed) n examples
      (buckets (fun box => hash box.fed) n examples) :=
    hashed_buckets hn fun e he => (hmade e he).filled
  have hmasses : (entries.map Prod.snd).Perm ((counts examples).map Prod.snd) :=
    (hentries.trans hhashed.perm).map Prod.snd
  refine ⟨fun sorted hperm hsorted => eq_inOrder (hperm.trans hmasses) hsorted, ?_⟩
  simp only [entropyOfEntries, entropy, entropyOfMasses_perm hmasses]

/-- A zero, a negated zero, a zero again and something that is not a number. -/
def zeros : List (Example Float) :=
  [⟨⟨⟨[]⟩, []⟩, Box.single 0, 1⟩, ⟨⟨⟨[]⟩, []⟩, Box.single (-0), 1⟩, ⟨⟨⟨[]⟩, []⟩, Box.single 0, 2⟩,
    ⟨⟨⟨[]⟩, []⟩, Box.single (0 / 0), 1⟩]

theorem hashBlind_zeros : (∀ e ∈ zeros, e.box.Made) ∧ HashBlind zeros := by
  have hmade : ∀ e ∈ zeros, e.box.Made := by
    simp [zeros, Box.Made.single]
  exact ⟨hmade, hashBlind_of_made hmade⟩

end Id3

end QuestionTree
