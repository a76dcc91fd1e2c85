import Mathlib.Tactic

/-!
Lists of weighted items, read as functions from items to total weights.
`weight l a` adds up the weights that `l` gives to `a`; two lists with the same
weights stand for the same weighted set. Consolidation is the normal form:
sort by item, add up the runs of one item, drop the zeros. A consolidated list
is determined by its weights.
-/

namespace Feldera.Weighted

open List

variable {α β R : Type*}

section

variable [DecidableEq α] [DecidableEq β] [AddCommMonoid R]

/-- Total weight of `a` in `l`. -/
def weight (l : List (α × R)) (a : α) : R :=
  (l.map fun p => if p.1 = a then p.2 else 0).sum

@[simp] theorem weight_nil (a : α) : weight ([] : List (α × R)) a = 0 := rfl

@[simp] theorem weight_cons (p : α × R) (l : List (α × R)) (a : α) :
    weight (p :: l) a = (if p.1 = a then p.2 else 0) + weight l a := rfl

@[simp] theorem weight_append (l m : List (α × R)) (a : α) :
    weight (l ++ m) a = weight l a + weight m a := by
  simp [weight]

theorem weight_flatten (ls : List (List (α × R))) (a : α) :
    weight ls.flatten a = (ls.map fun l => weight l a).sum := by
  induction ls with
  | nil => rfl
  | cons l ls ih => simp [ih]

variable {l m : List (α × R)}

theorem weight_perm (h : l.Perm m) (a : α) : weight l a = weight m a := by
  exact (h.map _).sum_eq

theorem weight_filter (l : List (α × R)) (p : α → Bool) (a : α) :
    weight (l.filter fun x => p x.1) a = if p a then weight l a else 0 := by
  induction l with
  | nil => simp
  | cons x l ih =>
    by_cases hx : p x.1 = true
    · rw [filter_cons_of_pos (by simpa using hx), weight_cons, ih, weight_cons]
      by_cases hxa : x.1 = a
      · subst hxa
        simp [hx]
      · simp [hxa]
    · rw [filter_cons_of_neg (by simpa using hx), ih, weight_cons]
      by_cases hxa : x.1 = a
      · subst hxa
        simp [hx]
      · simp [hxa]

theorem weight_eq_zero_of_forall_ne {a : α} (h : ∀ p ∈ l, p.1 ≠ a) : weight l a = 0 := by
  induction l with
  | nil => rfl
  | cons p l ih =>
    have hp : p.1 ≠ a := h p (by simp)
    have hl : ∀ q ∈ l, q.1 ≠ a := fun q hq => h q (by simp [hq])
    simp [hp, ih hl]

theorem weight_filter_ne_zero [DecidableEq R] (l : List (α × R)) (a : α) :
    weight (l.filter fun p => decide (p.2 ≠ 0)) a = weight l a := by
  induction l with
  | nil => rfl
  | cons p l ih =>
    by_cases hp : p.2 = 0
    · rw [filter_cons_of_neg (by simp [hp]), ih, weight_cons, hp]
      simp
    · rw [filter_cons_of_pos (by simp [hp]), weight_cons, weight_cons, ih]

/-- Total weight of the items that satisfy `P`. -/
def gather (P : α → Bool) (l : List (α × R)) : R :=
  (l.map fun p => if P p.1 then p.2 else 0).sum

section

variable (P : α → Bool)
include P

omit [DecidableEq α] in
@[simp] theorem gather_nil : gather P ([] : List (α × R)) = 0 := rfl

omit [DecidableEq α] in
@[simp] theorem gather_cons (p : α × R) (l : List (α × R)) :
    gather P (p :: l) = (if P p.1 then p.2 else 0) + gather P l := rfl

omit [DecidableEq α] in
@[simp] theorem gather_append (l m : List (α × R)) :
    gather P (l ++ m) = gather P l + gather P m := by
  simp [gather]

omit [DecidableEq α] in
theorem gather_perm (h : l.Perm m) : gather P l = gather P m := by
  exact (h.map _).sum_eq

theorem gather_eq_sum {S : Finset α} (h : ∀ p ∈ l, p.1 ∈ S) :
    gather P l = ∑ a ∈ S, if P a then weight l a else 0 := by
  induction l with
  | nil => simp
  | cons p l ih =>
    obtain ⟨hp, hl⟩ := forall_mem_cons.mp h
    have hpoint : ∑ a ∈ S, (if P a then (if p.1 = a then p.2 else 0) else 0) =
        if P p.1 then p.2 else 0 := by
      rw [Finset.sum_eq_single_of_mem p.1 hp fun a _ hne => by simp [hne.symm]]
      simp
    rw [gather_cons, ih hl, ← hpoint, ← Finset.sum_add_distrib]
    refine Finset.sum_congr rfl fun a _ => ?_
    split
    · rfl
    · exact add_zero 0

theorem gather_congr (h : ∀ a, weight l a = weight m a) : gather P l = gather P m := by
  have hmem : ∀ n : List (α × R), (∀ p ∈ n, p ∈ l ++ m) →
      ∀ p ∈ n, p.1 ∈ ((l ++ m).map Prod.fst).toFinset := fun n hn p hp =>
    mem_toFinset.mpr (mem_map_of_mem (hn p hp))
  rw [gather_eq_sum P (hmem l fun p hp => mem_append_left m hp),
    gather_eq_sum P (hmem m fun p hp => mem_append_right l hp)]
  exact Finset.sum_congr rfl fun a _ => by rw [h a]

end

/-- Among distinct items one counts at most once. -/
theorem sum_ite_of_nodup {l : List α} (h : l.Nodup) (a : α) [Decidable (a ∈ l)] (w : R) :
    (l.map fun x => if x = a then w else 0).sum = if a ∈ l then w else 0 := by
  by_cases ha : a ∈ l
  · rw [if_pos ha, sum_map_eq_nsmul_single a _ fun x hx _ => if_neg hx, if_pos rfl,
      count_eq_one_of_mem h ha, one_smul]
  · rw [if_neg ha]
    refine sum_eq_zero fun c hc => ?_
    obtain ⟨x, hx, rfl⟩ := mem_map.mp hc
    exact if_neg fun heq : x = a => ha (heq ▸ hx)

end

theorem weight_neg [DecidableEq α] [AddCommGroup R] (l : List (α × R)) (a : α) :
    weight (l.map fun p => (p.1, -p.2)) a = -weight l a := by
  induction l with
  | nil => simp
  | cons p l ih =>
    by_cases hp : p.1 = a <;> simp [hp, ih, add_comm]

section

variable [LinearOrder α] [AddCommMonoid R]

/-- Puts `p` in front of `l`, adding its weight to a head with the same item. -/
def consRun (p : α × R) : List (α × R) → List (α × R)
  | [] => [p]
  | q :: m => if p.1 = q.1 then (p.1, p.2 + q.2) :: m else p :: q :: m

/-- Adds up neighbours that carry the same item. -/
def sumRuns (l : List (α × R)) : List (α × R) :=
  l.foldr consRun []

/-- Sort by item, add up the runs, drop the items whose weights cancel. -/
def consolidate [DecidableEq R] (l : List (α × R)) : List (α × R) :=
  (sumRuns (l.insertionSort fun p q => p.1 ≤ q.1)).filter fun p => decide (p.2 ≠ 0)

/-- The normal form: strictly increasing items with non-zero weights. -/
structure Consolidated (l : List (α × R)) : Prop where
  sorted : l.Pairwise fun p q => p.1 < q.1
  nonzero : ∀ p ∈ l, p.2 ≠ 0

theorem weight_consRun (p : α × R) (l : List (α × R)) (a : α) :
    weight (consRun p l) a = weight (p :: l) a := by
  cases l with
  | nil => rfl
  | cons q m =>
    unfold consRun
    by_cases hpq : p.1 = q.1
    · by_cases hqa : q.1 = a <;> simp [hpq, hqa, add_assoc]
    · simp [hpq]

theorem weight_sumRuns (l : List (α × R)) (a : α) : weight (sumRuns l) a = weight l a := by
  induction l with
  | nil => rfl
  | cons p l ih =>
    change weight (consRun p (sumRuns l)) a = _
    rw [weight_consRun, weight_cons, weight_cons, ih]

variable {l : List (α × R)} {p : α × R}

theorem fst_mem_of_mem_consRun {q : α × R} (hq : q ∈ consRun p l) : ∃ r ∈ p :: l, r.1 = q.1 := by
  cases l with
  | nil => exact ⟨q, hq, rfl⟩
  | cons r m =>
    simp only [consRun] at hq
    split at hq
    · rcases mem_cons.mp hq with rfl | hm
      · exact ⟨p, by simp, rfl⟩
      · exact ⟨q, by simp [hm], rfl⟩
    · exact ⟨q, hq, rfl⟩

theorem fst_mem_of_mem_sumRuns (hp : p ∈ sumRuns l) : ∃ q ∈ l, q.1 = p.1 := by
  induction l generalizing p with
  | nil => simp [sumRuns] at hp
  | cons x l ih =>
    obtain ⟨r, hr, hrp⟩ := fst_mem_of_mem_consRun (p := x) (l := sumRuns l) hp
    rcases mem_cons.mp hr with rfl | hr
    · exact ⟨r, by simp, hrp⟩
    · obtain ⟨y, hy, hyr⟩ := ih hr
      exact ⟨y, by simp [hy], hyr.trans hrp⟩

theorem consRun_sorted (hp : ∀ q ∈ l, p.1 ≤ q.1) (hl : l.Pairwise fun p q => p.1 < q.1) :
    (consRun p l).Pairwise fun p q => p.1 < q.1 := by
  cases l with
  | nil => simp [consRun]
  | cons q m =>
    obtain ⟨hq, hm⟩ := pairwise_cons.mp hl
    simp only [consRun]
    by_cases hpq : p.1 = q.1
    · rw [if_pos hpq]
      exact pairwise_cons.mpr ⟨fun r hr => by simpa [hpq] using hq r hr, hm⟩
    rw [if_neg hpq]
    have hlt : p.1 < q.1 := lt_of_le_of_ne (hp q (by simp)) hpq
    refine pairwise_cons.mpr ⟨?_, hl⟩
    intro r hr
    rcases mem_cons.mp hr with rfl | hr
    · exact hlt
    · exact hlt.trans (hq r hr)

theorem sumRuns_sorted (h : l.Pairwise fun p q => p.1 ≤ q.1) :
    (sumRuns l).Pairwise fun p q => p.1 < q.1 := by
  induction l with
  | nil => simp [sumRuns]
  | cons p l ih =>
    obtain ⟨hp, hl⟩ := pairwise_cons.mp h
    refine consRun_sorted ?_ (ih hl)
    intro q hq
    obtain ⟨y, hy, hyq⟩ := fst_mem_of_mem_sumRuns hq
    exact hyq ▸ hp y hy

section

variable [DecidableEq R] (l : List (α × R))

theorem weight_consolidate (a : α) : weight (consolidate l) a = weight l a := by
  unfold consolidate
  rw [weight_filter_ne_zero, weight_sumRuns]
  exact weight_perm (perm_insertionSort _ l) a

theorem consolidate_consolidated : Consolidated (consolidate l) where
  sorted := by
    have hsorted : (l.insertionSort fun p q => p.1 ≤ q.1).Pairwise
        fun p q => p.1 ≤ q.1 := by
      exact pairwise_insertionSort _ l
    exact (sumRuns_sorted hsorted).filter _
  nonzero := by
    intro p hp
    simpa using (mem_filter.mp hp).2

end

theorem Consolidated.nil : Consolidated ([] : List (α × R)) :=
  ⟨List.Pairwise.nil, by simp⟩

theorem Consolidated.tail (h : Consolidated (p :: l)) : Consolidated l :=
  ⟨(pairwise_cons.mp h.sorted).2, fun q hq => h.nonzero q (by simp [hq])⟩

theorem Consolidated.head_lt (h : Consolidated (p :: l)) : ∀ q ∈ l, p.1 < q.1 :=
  (pairwise_cons.mp h.sorted).1

theorem Consolidated.weight_head (h : Consolidated (p :: l)) : weight (p :: l) p.1 = p.2 := by
  have hl : weight l p.1 = 0 :=
    weight_eq_zero_of_forall_ne fun q hq => (h.head_lt q hq).ne'
  simp [hl]

theorem Consolidated.mem_iff (h : Consolidated l) (a : α) (w : R) :
    (a, w) ∈ l ↔ w ≠ 0 ∧ weight l a = w := by
  induction l with
  | nil => simp [eq_comm]
  | cons p l ih =>
    by_cases hpa : p.1 = a
    · have hnot : (a, w) ∉ l := fun hmem => (h.head_lt _ hmem).ne hpa
      have hwt : weight (p :: l) a = p.2 := hpa ▸ h.weight_head
      rw [hwt, mem_cons]
      constructor
      · rintro (rfl | hmem)
        · exact ⟨h.nonzero (a, w) (by simp), rfl⟩
        · exact absurd hmem hnot
      · rintro ⟨-, rfl⟩
        exact Or.inl (by rw [← hpa])
    · have hne : (a, w) ≠ p := by
        rintro rfl
        exact hpa rfl
      rw [mem_cons, or_iff_right hne, ih h.tail]
      simp [hpa]

theorem Consolidated.dropWhile (h : Consolidated l) (p : α × R → Bool) :
    Consolidated (l.dropWhile p) :=
  ⟨h.sorted.sublist (dropWhile_sublist p),
    fun q hq => h.nonzero q ((dropWhile_sublist p).subset hq)⟩

theorem weight_dropWhile_lt (l : List (α × R)) {a b : α} (h : a ≤ b) :
    weight (l.dropWhile fun p => decide (p.1 < a)) b = weight l b := by
  induction l with
  | nil => rfl
  | cons p l ih =>
    by_cases hp : p.1 < a
    · rw [dropWhile_cons_of_pos (by simpa using hp), ih, weight_cons,
        if_neg (hp.trans_le h).ne, zero_add]
    · rw [dropWhile_cons_of_neg (by simpa using hp)]

/-- Where an item is sought, it comes first with its weight, or it has none. -/
theorem Consolidated.seek (h : Consolidated l) (a : α) :
    (∃ w rest, (l.dropWhile fun p => decide (p.1 < a)) = (a, w) :: rest ∧ weight l a = w) ∨
      (l.dropWhile fun p => decide (p.1 < a)).head?.map Prod.fst ≠ some a ∧ weight l a = 0 := by
  rw [← weight_dropWhile_lt l le_rfl]
  have hrest := h.dropWhile fun p => decide (p.1 < a)
  cases hdrop : l.dropWhile fun p => decide (p.1 < a) with
  | nil => exact .inr ⟨nofun, rfl⟩
  | cons p rest =>
    rw [hdrop] at hrest
    have hp : a ≤ p.1 := by
      have hnot := List.head?_dropWhile_not (fun p : α × R => decide (p.1 < a)) l
      rw [hdrop] at hnot
      simpa using hnot
    rcases hp.eq_or_lt with rfl | hlt
    · exact .inl ⟨p.2, rest, rfl, hrest.weight_head⟩
    refine .inr ⟨fun heq => hlt.ne' (Option.some.inj heq), ?_⟩
    refine weight_eq_zero_of_forall_ne fun q hq => ?_
    rcases mem_cons.mp hq with rfl | hq
    · exact hlt.ne'
    · exact (hlt.trans (hrest.head_lt q hq)).ne'

theorem Consolidated.ext {m : List (α × R)} (hl : Consolidated l) (hm : Consolidated m)
    (h : ∀ a, weight l a = weight m a) : l = m := by
  apply List.Pairwise.eq_of_mem_iff hl.sorted hm.sorted
  rintro ⟨a, w⟩
  rw [hl.mem_iff, hm.mem_iff, h a]

theorem consolidate_eq_iff [DecidableEq R] (l m : List (α × R)) :
    consolidate l = consolidate m ↔ ∀ a, weight l a = weight m a := by
  constructor
  · intro h a
    rw [← weight_consolidate l, h, weight_consolidate]
  · intro h
    apply (consolidate_consolidated l).ext (consolidate_consolidated m)
    intro a
    rw [weight_consolidate, weight_consolidate, h]

theorem consolidate_of_consolidated [DecidableEq R] (h : Consolidated l) : consolidate l = l :=
  (consolidate_consolidated l).ext h (weight_consolidate l)

end

end Feldera.Weighted
