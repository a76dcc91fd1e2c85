import Feldera.Algebra.OrderedSum

/-!
The first items of a sum of ordered lists with positive masses. An item among the first `n` of the
sum is among the first `n` of every list that holds it, so the lists may be truncated before they
are added up.
-/

namespace Feldera.OrderedSum

open List

theorem Ordered.take (h : Ordered r l) (n : Nat) : Ordered r (l.take n) :=
  List.Pairwise.sublist (take_sublist n l) h

variable {α β M ι : Type*} [DecidableEq α] [AddCommMonoid M] [PartialOrder M]
  [IsOrderedAddMonoid M] {f : β → M} {r : α → α → Prop} [IsStrictTotalOrder α r]
  {idx : List ι} {ls : ι → List (α × β)} {total : List (α × β)}

variable {l : List (α × β)} {a : α}

omit [IsStrictTotalOrder α r] in
theorem mass_nonneg (hpos : ∀ p ∈ l, 0 < f p.2) (a : α) : 0 ≤ mass f l a := by
  refine sum_nonneg fun x hx => ?_
  obtain ⟨p, hp, rfl⟩ := mem_map.mp hx
  split
  · exact (hpos p hp).le
  · exact le_rfl

section

variable (h : Sums r f idx ls total) (hpos : ∀ i ∈ idx, ∀ p ∈ ls i, 0 < f p.2) {i : ι}
  (hi : i ∈ idx) {p : α × β} (hp : p ∈ ls i)
include h hpos hi hp

/-- Masses that are positive do not cancel. -/
theorem Sums.mass_pos : 0 < (idx.map fun i => mass f (ls i) p.1).sum := by
  have hle : mass f (ls i) p.1 ≤ (idx.map fun i => mass f (ls i) p.1).sum := by
    refine single_le_sum (fun x hx => ?_) _ (mem_map_of_mem hi)
    obtain ⟨j, hj, rfl⟩ := mem_map.mp hx
    exact mass_nonneg (hpos j hj) p.1
  refine lt_of_lt_of_le ?_ hle
  rw [(h.each i hi).mass_of_mem f hp]
  exact hpos i hi p hp

theorem Sums.exists_mem : ∃ q ∈ total, q.1 = p.1 := by
  apply exists_mem_of_mass_ne_zero f
  rw [h.mass_eq]
  exact (h.mass_pos hpos hi hp).ne'

end

/-- The first item of the sum is the least one. -/
theorem Sums.least_head {b : β} {rest : List (α × β)} (h : Sums r f idx ls ((a, b) :: rest))
    (hpos : ∀ i ∈ idx, ∀ p ∈ ls i, 0 < f p.2) : Least r idx ls a := by
  intro i hi p hp
  obtain ⟨q, hq, heq⟩ := h.exists_mem hpos hi (mem_of_mem_head? hp)
  rw [← heq]
  rcases mem_cons.mp hq with rfl | hq
  · exact .inl rfl
  · exact .inr ((pairwise_cons.mp h.ordered).1 q hq)

omit [PartialOrder M] [IsOrderedAddMonoid M] in
theorem mass_take_of_least (h : Ordered r l) (hleast : ∀ p ∈ l.head?, p.1 = a ∨ r a p.1)
    {k : Nat} (hk : 0 < k) : mass f (l.take k) a = mass f l a := by
  obtain ⟨k, rfl⟩ := Nat.exists_eq_succ_of_ne_zero hk.ne'
  cases l with
  | nil => rfl
  | cons p l =>
    have hafter : ∀ q ∈ l, r p.1 q.1 := (pairwise_cons.mp h).1
    rcases hleast p rfl with rfl | hlt
    · rw [h.mass_head f, take_succ_cons]
      exact (h.take (k + 1)).mass_head f
    -- the item comes before all of the list
    have hne : ∀ q ∈ p :: l, q.1 ≠ a := by
      intro q hq heq
      rcases mem_cons.mp hq with rfl | hq
      · exact irrefl_of r a (heq ▸ hlt)
      · exact irrefl_of r a (heq ▸ trans_of r hlt (hafter q hq))
    rw [mass_eq_zero f hne, mass_eq_zero f fun q hq => hne q (mem_of_mem_take hq)]

variable [DecidableRel r]

omit [DecidableEq α] in
/-- The least item is dropped before or after the list is truncated. -/
theorem filter_take_of_least [DecidableEq α] (h : Ordered r l)
    (hleast : ∀ p ∈ l.head?, p.1 = a ∨ r a p.1) {k : Nat} (hk : 0 < k) :
    ((l.filter fun p => decide (r a p.1)).take
        (if l.head?.map Prod.fst = some a then k - 1 else k)) =
      (l.take k).filter fun p => decide (r a p.1) := by
  obtain ⟨k, rfl⟩ := Nat.exists_eq_succ_of_ne_zero hk.ne'
  have hhead : (l.take (k + 1)).head? = l.head? := by rw [List.head?_take, if_neg k.succ_ne_zero]
  rw [filter_of_least h hleast, filter_of_least (h.take _) (hhead ▸ hleast), hhead]
  split
  · cases l <;> simp
  · rfl

theorem Sums.take (hf : Function.Injective f) {n : Nat} {k : ι → Nat} {total' : List (α × β)}
    (h : Sums r f idx ls total) (h' : Sums r f idx (fun i => (ls i).take (k i)) total')
    (hpos : ∀ i ∈ idx, ∀ p ∈ ls i, 0 < f p.2) (hk : ∀ i ∈ idx, n ≤ k i) :
    total'.take n = total.take n := by
  induction n generalizing ls k total total' with
  | zero => rfl
  | succ n ih =>
    cases total with
    | nil =>
      have hnil : ∀ i ∈ idx, (ls i).take (k i) = [] := by
        intro i hi
        rw [eq_nil_iff_forall_not_mem]
        intro p hp
        obtain ⟨q, hq, -⟩ := h.exists_mem hpos hi (mem_of_mem_take hp)
        cases hq
      rw [h'.eq_nil hnil]
    | cons q rest =>
      obtain ⟨a, b⟩ := q
      have hleast := h.least_head hpos
      have hmass : (idx.map fun i => mass f ((ls i).take (k i)) a).sum = f b := by
        have heach : ∀ i ∈ idx, mass f ((ls i).take (k i)) a = mass f (ls i) a := fun i hi =>
          mass_take_of_least (h.each i hi) (hleast i hi) (Nat.lt_of_lt_of_le n.succ_pos (hk i hi))
        rw [map_congr_left heach, ← h.mass_eq, h.ordered.mass_head f]
      have hleast' : Least r idx (fun i => (ls i).take (k i)) a := by
        intro i hi p hp
        rw [List.head?_take, if_neg (by have := hk i hi; omega)] at hp
        exact hleast i hi p hp
      obtain ⟨b', rest', rfl, hb⟩ := h'.head hleast' (hmass ▸ h.nonzero (a, b) mem_cons_self)
      obtain rfl : b' = b := hf (hb.trans hmass)
      rw [take_succ_cons, take_succ_cons]
      congr 1
      -- the first item is dropped from the lists that begin with it
      let k' i := if (ls i).head?.map Prod.fst = some a then k i - 1 else k i
      refine ih (k := k') h.step (h'.step.congr fun i hi => ?_) ?_ ?_
      · exact filter_take_of_least (h.each i hi) (hleast i hi)
          (Nat.lt_of_lt_of_le n.succ_pos (hk i hi))
      · exact fun i hi p hp => hpos i hi p (mem_of_mem_filter hp)
      · intro i hi
        have := hk i hi
        unfold k'
        split <;> omega

end Feldera.OrderedSum
