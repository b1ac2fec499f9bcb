import QuestionTree.Proofs.Number.Exact
import QuestionTree.Scorer

/-!
# Entropy in exact arithmetic

Counting out the boxes of some examples keeps their mass. In arithmetic that does not round the
order of the terms does not matter, so over the real numbers the entropy of examples is the sum of
`-p * log p` over the shares `p` of the boxes. Shares are between zero and one if no example has a
negative mass, which makes the entropy nonnegative.
-/

namespace QuestionTree

/-- The real numbers with the binary logarithm. -/
noncomputable instance : ExactArithmetic ℝ where
  log2 := Real.logb 2

theorem Box.same_single {ν : Type} [ExactArithmetic ν] (a b : ν) :
    (Box.single a).same (Box.single b) = decide (a = b) := by
  have hcompare : compare (Box.single a) (Box.single b) = (compare a b).then .eq := rfl
  rw [Box.same, hcompare, Ordering.then_eq, Bool.eq_iff_iff, beq_iff_eq, decide_eq_true_iff]
  exact compare_eq_iff_eq

namespace Id3

section Exact

variable {ν : Type} [ExactArithmetic ν]

theorem sum_count (box : Box ν) (mass : ν) (counted : List (Box ν × ν)) :
    ((count box mass counted).map Prod.snd).sum = (counted.map Prod.snd).sum + mass := by
  induction counted with
  | nil => simp [count]
  | cons c rest ih =>
    obtain ⟨b, n⟩ := c
    rw [count]
    split
    · rw [List.map_cons, List.map_cons, List.sum_cons, List.sum_cons, add_right_comm]
    · rw [List.map_cons, List.map_cons, List.sum_cons, List.sum_cons, ih, add_assoc]

theorem count_nonneg {box : Box ν} {mass : ν} {counted : List (Box ν × ν)} (hmass : 0 ≤ mass)
    (h : ∀ c ∈ counted, 0 ≤ c.2) : ∀ c ∈ count box mass counted, 0 ≤ c.2 := by
  induction counted with
  | nil =>
    intro c hc
    rw [List.mem_singleton.1 hc]
    exact add_nonneg (le_refl 0) hmass
  | cons d rest ih =>
    obtain ⟨b, n⟩ := d
    obtain ⟨hn, hrest⟩ := List.forall_mem_cons.1 h
    rw [count]
    split
    · exact List.forall_mem_cons.2 ⟨add_nonneg hn hmass, hrest⟩
    · exact List.forall_mem_cons.2 ⟨hn, ih hrest⟩

theorem sum_counts (examples : List (Example ν)) :
    ((counts examples).map Prod.snd).sum = (examples.map Example.mass).sum := by
  have hfold : ∀ counted : List (Box ν × ν),
      ((examples.foldl (fun counted e => count e.box e.mass counted) counted).map Prod.snd).sum =
        (counted.map Prod.snd).sum + (examples.map Example.mass).sum := by
    induction examples with
    | nil => exact fun counted => (add_zero _).symm
    | cons e examples ih =>
      intro counted
      rw [List.foldl_cons, ih, sum_count, List.map_cons, List.sum_cons, add_assoc]
  rw [counts, hfold, List.map_nil, List.sum_nil, zero_add]

theorem counts_nonneg {examples : List (Example ν)} (h : ∀ e ∈ examples, 0 ≤ e.mass) :
    ∀ c ∈ counts examples, 0 ≤ c.2 := by
  have hfold : ∀ counted : List (Box ν × ν), (∀ c ∈ counted, 0 ≤ c.2) →
      ∀ c ∈ examples.foldl (fun counted e => count e.box e.mass counted) counted, 0 ≤ c.2 := by
    induction examples with
    | nil => exact fun _ hcounted => hcounted
    | cons e examples ih =>
      obtain ⟨he, hrest⟩ := List.forall_mem_cons.1 h
      exact fun counted hcounted => ih hrest _ (count_nonneg he hcounted)
  exact hfold [] fun _ hc => absurd hc List.not_mem_nil

theorem foldl_mass (examples : List (Example ν)) :
    examples.foldl (fun total e => total + e.mass) 0 = (examples.map Example.mass).sum := by
  rw [← List.foldl_map, ExactArithmetic.foldl_add, zero_add]

/-- The entropy of examples that have some mass, with the terms in any order. -/
theorem entropy_eq {examples : List (Example ν)} (h : 0 < (examples.map Example.mass).sum) :
    entropy examples = ((counts examples).map fun c =>
      entropyTerm c.2 (examples.map Example.mass).sum).sum := by
  rw [entropy, foldl_mass, if_neg (not_le.2 h), entropyOfMasses, ExactArithmetic.total_eq,
    ((List.mergeSort_perm _ _).map _).sum_eq, List.map_map]
  rfl

theorem entropy_eq_zero {examples : List (Example ν)}
    (h : ¬ 0 < (examples.map Example.mass).sum) : entropy examples = 0 := by
  rw [entropy, foldl_mass, if_pos (not_lt.1 h)]

end Exact

theorem entropyTerm_eq {count total : ℝ} (hcount : 0 < count) (htotal : 0 < total) :
    entropyTerm count total = -(count / total * Real.logb 2 (count / total)) := by
  rw [entropyTerm, if_neg (not_or.2 ⟨not_le.2 hcount, not_le.2 htotal⟩)]
  exact neg_mul _ _

theorem entropyTerm_nonneg {count total : ℝ} (h : count ≤ total) : 0 ≤ entropyTerm count total := by
  by_cases hpos : 0 < count ∧ 0 < total
  · obtain ⟨hcount, htotal⟩ := hpos
    have hshare : count / total ≤ 1 := (div_le_one htotal).2 h
    have hlog : Real.logb 2 (count / total) ≤ 0 :=
      Real.logb_nonpos one_lt_two (div_pos hcount htotal).le hshare
    rw [entropyTerm_eq hcount htotal, neg_nonneg]
    exact mul_nonpos_of_nonneg_of_nonpos (div_pos hcount htotal).le hlog
  · have hnone : count ≤ 0 ∨ total ≤ 0 := by
      rw [not_and_or, not_lt, not_lt] at hpos
      exact hpos
    rw [entropyTerm, if_pos hnone]

theorem entropy_nonneg {examples : List (Example ℝ)} (h : ∀ e ∈ examples, 0 ≤ e.mass) :
    0 ≤ entropy examples := by
  by_cases hpos : 0 < (examples.map Example.mass).sum
  · rw [entropy_eq hpos]
    refine List.sum_nonneg fun term hterm => ?_
    obtain ⟨c, hc, rfl⟩ := List.mem_map.1 hterm
    refine entropyTerm_nonneg ?_
    rw [← sum_counts]
    refine List.single_le_sum (fun n hn => ?_) c.2 (List.mem_map_of_mem hc)
    obtain ⟨d, hd, rfl⟩ := List.mem_map.1 hn
    exact counts_nonneg h d hd
  · rw [entropy_eq_zero hpos]

theorem entropyTerm_of_halved {count total : ℝ} (n : Nat) (hcount : 0 < count)
    (h : total = 2 ^ n * count) : entropyTerm count total = n / 2 ^ n := by
  have hpow : (0 : ℝ) < 2 ^ n := pow_pos two_pos n
  have htotal : 0 < total := h ▸ mul_pos hpow hcount
  have hshare : count / total = (2 ^ n)⁻¹ := by
    rw [h, div_mul_cancel_right₀ hcount.ne']
  have hlog : Real.logb 2 (2 ^ n)⁻¹ = -n := by
    rw [Real.logb_inv, Real.logb_pow, Real.logb_self_eq_one one_lt_two, mul_one]
  rw [entropyTerm_eq hcount htotal, hshare, hlog, mul_neg, neg_neg, mul_comm, div_eq_mul_inv]

theorem entropy_singleton (e : Example ℝ) : entropy [e] = 0 := by
  by_cases hpos : 0 < e.mass
  · have hsum : ([e].map Example.mass).sum = e.mass := List.sum_singleton
    have hcounts : counts [e] = [(e.box, 0 + e.mass)] := rfl
    have hwhole : e.mass = 2 ^ 0 * e.mass := by rw [pow_zero, one_mul]
    rw [entropy_eq (hsum ▸ hpos), hsum, hcounts, List.map_singleton, List.sum_singleton, zero_add,
      entropyTerm_of_halved 0 hpos hwhole, Nat.cast_zero, zero_div]
  · refine entropy_eq_zero ?_
    rwa [List.map_singleton, List.sum_singleton]

theorem entropy_pair {d e : Example ℝ} (hbox : d.box.same e.box = false) (hmass : d.mass = e.mass)
    (hpos : 0 < d.mass) : entropy [d, e] = 1 := by
  have hsum : ([d, e].map Example.mass).sum = 2 ^ 1 * d.mass := by
    rw [List.map_cons, List.map_singleton, List.sum_cons, List.sum_singleton, ← hmass, pow_one,
      two_mul]
  have htotal : 0 < ([d, e].map Example.mass).sum := hsum ▸ mul_pos (pow_pos two_pos 1) hpos
  have hcounts : counts [d, e] = [(d.box, 0 + d.mass), (e.box, 0 + d.mass)] := by
    simp [counts, count, hbox, hmass]
  rw [entropy_eq htotal, hcounts, List.map_cons, List.map_singleton, List.sum_cons,
    List.sum_singleton, zero_add, entropyTerm_of_halved 1 hpos hsum]
  norm_num

end Id3

end QuestionTree
