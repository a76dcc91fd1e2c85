import Mathlib.Tactic

/-!
Sums of ordered association lists. A list gives every item a mass, the sum over its
entries for that item; `Sums r f idx ls total` says that `total` is the ordered list
without empty entries whose masses are the sums of those of the lists `ls i`. The order
is an arbitrary strict total order, so that one set of rules serves both directions of
reading; the mass of an entry is given by `f`, so that it serves weights and nested lists.
-/

namespace Feldera.OrderedSum

open List

variable {α β M ι : Type*}

def Ordered (r : α → α → Prop) (l : List (α × β)) : Prop :=
  l.Pairwise fun p q => r p.1 q.1

/-- A predicate that stays true once it is true. -/
def Upward (r : α → α → Prop) (P : α → Bool) : Prop :=
  ∀ a b, r a b → P a = true → P b = true

section

variable {r : α → α → Prop}

variable {l : List (α × β)}

theorem Ordered.tail (h : Ordered r l) : Ordered r l.tail :=
  List.Pairwise.tail h

theorem Ordered.filter (h : Ordered r l) (P : α → Bool) : Ordered r (l.filter fun p => P p.1) :=
  List.Pairwise.filter _ h

theorem Ordered.reverse (h : Ordered r l) : Ordered (fun a b => r b a) l.reverse :=
  pairwise_reverse.mpr h

theorem Ordered.dropWhile_eq_filter (h : Ordered r l) {P : α → Bool} (hP : Upward r P) :
    (l.dropWhile fun p => !P p.1) = l.filter fun p => P p.1 := by
  induction l with
  | nil => rfl
  | cons p l ih =>
    obtain ⟨hp, hl⟩ := pairwise_cons.mp h
    cases hPp : P p.1 with
    | false =>
      rw [dropWhile_cons_of_pos (by simp [hPp]), filter_cons_of_neg (by simp [hPp]),
        ih hl]
    | true =>
      rw [dropWhile_cons_of_neg (by simp [hPp]), filter_cons_of_pos (by simp [hPp])]
      refine congrArg _ (filter_eq_self.mpr fun q hq => ?_).symm
      exact hP p.1 q.1 (hp q hq) hPp

variable [DecidableRel r] [IsStrictTotalOrder α r] (a : α)

theorem upward_of_lt : Upward r fun b => decide (r a b) := by
  intro b c hbc hab
  exact decide_eq_true (trans_of r (of_decide_eq_true hab) hbc)

theorem upward_of_le : Upward r fun b => !decide (r b a) := by
  intro b c hbc hab
  simp only [Bool.not_eq_true', decide_eq_false_iff_not] at hab ⊢
  exact fun hca => hab (trans_of r hbc hca)

theorem Ordered.tail_eq_filter {p : α × β} (h : Ordered r (p :: l)) :
    l = (p :: l).filter fun q => decide (r p.1 q.1) := by
  obtain ⟨hp, -⟩ := pairwise_cons.mp h
  rw [filter_cons_of_neg (by simpa using irrefl_of r p.1)]
  exact (filter_eq_self.mpr fun q hq => decide_eq_true (hp q hq)).symm

end

section

variable [DecidableEq α] [AddCommMonoid M] (f : β → M)

def mass (l : List (α × β)) (a : α) : M :=
  (l.map fun p => if p.1 = a then f p.2 else 0).sum

@[simp] theorem mass_nil (a : α) : mass f ([] : List (α × β)) a = 0 := rfl

@[simp] theorem mass_cons (p : α × β) (l : List (α × β)) (a : α) :
    mass f (p :: l) a = (if p.1 = a then f p.2 else 0) + mass f l a := rfl

variable {l : List (α × β)} {a : α}

theorem mass_eq_zero (h : ∀ p ∈ l, p.1 ≠ a) : mass f l a = 0 := by
  induction l with
  | nil => rfl
  | cons p l ih =>
    rw [mass_cons, if_neg (h p (by simp)), zero_add]
    exact ih fun q hq => h q (by simp [hq])

theorem exists_mem_of_mass_ne_zero (h : mass f l a ≠ 0) : ∃ p ∈ l, p.1 = a := by
  by_contra hnone
  push Not at hnone
  exact h (mass_eq_zero f hnone)

theorem mass_filter (l : List (α × β)) (P : α → Bool) (a : α) :
    mass f (l.filter fun p => P p.1) a = if P a then mass f l a else 0 := by
  induction l with
  | nil => simp
  | cons p l ih =>
    by_cases hpa : p.1 = a
    · subst hpa
      cases hP : P p.1 with
      | true => simp [hP, ih]
      | false => simp [hP, ih]
    · cases hP : P p.1 with
      | true => simp [hP, ih, hpa]
      | false => simp [hP, ih, hpa]

theorem mass_reverse (l : List (α × β)) (a : α) : mass f l.reverse a = mass f l a := by
  unfold mass
  rw [map_reverse, sum_reverse]

variable {r : α → α → Prop} {p : α × β}

theorem Ordered.mass_head [Std.Irrefl r] (h : Ordered r (p :: l)) :
    mass f (p :: l) p.1 = f p.2 := by
  obtain ⟨hp, -⟩ := pairwise_cons.mp h
  have hrest : mass f l p.1 = 0 := mass_eq_zero f fun q hq heq =>
    irrefl_of r p.1 (heq ▸ hp q hq)
  rw [mass_cons, if_pos rfl, hrest, add_zero]

theorem Ordered.mass_of_mem [Std.Irrefl r] (h : Ordered r l) (hp : p ∈ l) :
    mass f l p.1 = f p.2 := by
  induction l with
  | nil => exact absurd hp not_mem_nil
  | cons q l ih =>
    rcases mem_cons.mp hp with rfl | hp
    · exact h.mass_head f
    · have hne : q.1 ≠ p.1 := fun heq =>
        irrefl_of r p.1 (heq ▸ (pairwise_cons.mp h).1 p hp)
      rw [mass_cons, if_neg hne, zero_add]
      exact ih h.tail hp

end

section

variable [DecidableEq α] [AddCommMonoid M] {f : β → M} {r : α → α → Prop}
  {idx : List ι} {ls : ι → List (α × β)} {total : List (α × β)}

structure Sums (r : α → α → Prop) (f : β → M) (idx : List ι) (ls : ι → List (α × β))
    (total : List (α × β)) : Prop where
  each : ∀ i ∈ idx, Ordered r (ls i)
  ordered : Ordered r total
  nonzero : ∀ p ∈ total, f p.2 ≠ 0
  mass_eq : ∀ a, mass f total a = (idx.map fun i => mass f (ls i) a).sum

section

variable (h : Sums r f idx ls total)
include h

theorem Sums.congr {ls' : ι → List (α × β)} (heq : ∀ i ∈ idx, ls' i = ls i) :
    Sums r f idx ls' total where
  each i hi := heq i hi ▸ h.each i hi
  ordered := h.ordered
  nonzero := h.nonzero
  mass_eq a := by
    rw [h.mass_eq a]
    exact congrArg List.sum (map_congr_left fun i hi => by rw [heq i hi])

theorem Sums.reverse :
    Sums (fun a b => r b a) f idx (fun i => (ls i).reverse) total.reverse where
  each i hi := (h.each i hi).reverse
  ordered := h.ordered.reverse
  nonzero p hp := h.nonzero p (mem_reverse.mp hp)
  mass_eq a := by
    simp only [mass_reverse]
    exact h.mass_eq a

theorem Sums.filter (P : α → Bool) :
    Sums r f idx (fun i => (ls i).filter fun p => P p.1) (total.filter fun p => P p.1) where
  each i hi := (h.each i hi).filter P
  ordered := h.ordered.filter P
  nonzero p hp := h.nonzero p (mem_filter.mp hp).1
  mass_eq a := by
    simp only [mass_filter, h.mass_eq a]
    split
    · rfl
    · simp

theorem Sums.dropWhile {P : α → Bool} (hP : Upward r P) :
    Sums r f idx (fun i => (ls i).dropWhile fun p => !P p.1)
      (total.dropWhile fun p => !P p.1) := by
  rw [h.ordered.dropWhile_eq_filter hP]
  exact (h.filter P).congr fun i hi => (h.each i hi).dropWhile_eq_filter hP

theorem Sums.eq_nil [Std.Irrefl r] (hnil : ∀ i ∈ idx, ls i = []) : total = [] := by
  cases total with
  | nil => rfl
  | cons p total =>
    have hzero : (idx.map fun i => mass f (ls i) p.1).sum = 0 := by
      refine sum_eq_zero fun x hx => ?_
      obtain ⟨i, hi, rfl⟩ := mem_map.mp hx
      rw [hnil i hi, mass_nil]
    refine absurd ?_ (h.nonzero p (by simp))
    rw [← h.ordered.mass_head f, h.mass_eq, hzero]

end

/-- `k` comes first in all lists that hold it, and nothing comes before it. -/
def Least (r : α → α → Prop) (idx : List ι) (ls : ι → List (α × β)) (k : α) : Prop :=
  ∀ i ∈ idx, ∀ p ∈ (ls i).head?, p.1 = k ∨ r k p.1

variable [DecidableRel r] [IsStrictTotalOrder α r]

variable {k : α}

omit [DecidableRel r] in
theorem Least.not_lt (h : Sums r f idx ls total) (hk : Least r idx ls k) {i : ι} (hi : i ∈ idx)
    {p : α × β} (hp : p ∈ ls i) : p.1 = k ∨ r k p.1 := by
  have hordered := h.each i hi
  have hleast := hk i hi
  cases hls : ls i with
  | nil => simp [hls] at hp
  | cons q rest =>
    rw [hls] at hordered hleast hp
    obtain ⟨hq, -⟩ := pairwise_cons.mp hordered
    have hhead := hleast q rfl
    rcases mem_cons.mp hp with rfl | hmem
    · exact hhead
    · refine .inr ?_
      rcases hhead with heq | hlt
      · exact heq ▸ hq p hmem
      · exact trans_of r hlt (hq p hmem)

omit [DecidableRel r] in
theorem Sums.mass_of_lt {a : α} (h : Sums r f idx ls total) (hk : Least r idx ls k) (hak : r a k)
    : (idx.map fun i => mass f (ls i) a).sum = 0 := by
  refine sum_eq_zero fun x hx => ?_
  obtain ⟨i, hi, rfl⟩ := mem_map.mp hx
  refine mass_eq_zero f fun p hp heq => ?_
  rcases hk.not_lt h hi hp with hpk | hlt
  · rw [← heq, hpk] at hak
    exact irrefl_of r k hak
  · exact irrefl_of r k (trans_of r (heq ▸ hlt) hak)

omit [DecidableRel r] in
/-- If the least item has some mass, it is the head of the sum. -/
theorem Sums.head (h : Sums r f idx ls total) (hk : Least r idx ls k)
    (hne : (idx.map fun i => mass f (ls i) k).sum ≠ 0) :
    ∃ b rest, total = (k, b) :: rest ∧ f b = (idx.map fun i => mass f (ls i) k).sum := by
  have hmass := h.mass_eq k
  rw [← hmass] at hne
  obtain ⟨p, hp, hpk⟩ := exists_mem_of_mass_ne_zero f hne
  have hordered := h.ordered
  have hmassHead := h.mass_eq
  have hnonzero := h.nonzero
  cases htotal : total with
  | nil => simp [htotal] at hp
  | cons q rest =>
    rw [htotal] at hordered hmassHead hnonzero hp
    have hq : q.1 = k := by
      by_contra hqk
      have hlt : r q.1 k := by
        rcases mem_cons.mp hp with rfl | hmem
        · exact absurd hpk hqk
        · exact hpk ▸ (pairwise_cons.mp hordered).1 p hmem
      refine hnonzero q (by simp) ?_
      rw [← hordered.mass_head f, hmassHead, h.mass_of_lt hk hlt]
    obtain ⟨a, b⟩ := q
    obtain rfl : a = k := hq
    refine ⟨b, rest, rfl, ?_⟩
    rw [← hordered.mass_head f, hmassHead]

/-- The least item of the sum is dropped from it and from the lists. -/
theorem Sums.step {b : β} {rest : List (α × β)} (h : Sums r f idx ls ((k, b) :: rest)) :
    Sums r f idx (fun i => (ls i).filter fun p => decide (r k p.1)) rest := by
  have hfilter := h.filter fun a => decide (r k a)
  rwa [← h.ordered.tail_eq_filter] at hfilter

theorem Sums.skip (h : Sums r f idx ls total) (hk : Least r idx ls k)
    (hzero : (idx.map fun i => mass f (ls i) k).sum = 0) :
    Sums r f idx (fun i => (ls i).filter fun p => decide (r k p.1)) total where
  each i hi := (h.each i hi).filter fun a => decide (r k a)
  ordered := h.ordered
  nonzero := h.nonzero
  mass_eq a := by
    rw [← (h.filter fun a => decide (r k a)).mass_eq a,
      mass_filter f total (fun a => decide (r k a))]
    split
    · rfl
    · next hka =>
      rw [h.mass_eq]
      rcases trichotomous_of r k a with hlt | rfl | hlt
      · exact absurd (decide_eq_true hlt) hka
      · exact hzero
      · exact h.mass_of_lt hk hlt

omit [DecidableEq α] in
/-- A list whose head is the least item drops it, another one has nothing to drop. -/
theorem filter_of_least [DecidableEq α] {l : List (α × β)} (h : Ordered r l)
    (hk : ∀ p ∈ l.head?, p.1 = k ∨ r k p.1) :
    (l.filter fun p => decide (r k p.1)) =
      if l.head?.map Prod.fst = some k then l.tail else l := by
  cases l with
  | nil => rfl
  | cons p l =>
    have htail := h.tail_eq_filter
    obtain ⟨hp, -⟩ := pairwise_cons.mp h
    rcases hk p rfl with rfl | hlt
    · rw [← htail]
      simp
    have hne : p.1 ≠ k := fun heq => irrefl_of r k (heq ▸ hlt)
    rw [if_neg (by simpa using hne)]
    refine filter_eq_self.mpr fun q hq => decide_eq_true ?_
    rcases mem_cons.mp hq with rfl | hmem
    · exact hlt
    · exact trans_of r hlt (hp q hmem)

end

section

variable [AddCommMonoid M] {f : β → M} {r : α → α → Prop} {idx js : List ι}
  {ls : ι → List (α × β)} {total : List (α × β)}

def headMass (f : β → M) (l : List (α × β)) : M :=
  (l.head?.map fun p => f p.2).getD 0

def tails [DecidableEq ι] (js : List ι) (ls : ι → List (α × β)) (i : ι) : List (α × β) :=
  if i ∈ js then (ls i).tail else ls i

/-- `js` are the lists whose first item is the least; any lists, if all are empty. -/
def Leading [DecidableEq α] (r : α → α → Prop) (idx : List ι) (ls : ι → List (α × β))
    (js : List ι) : Prop :=
  (js ⊆ idx ∧ ∀ i ∈ idx, ls i = []) ∨
    ∃ k, Least r idx ls k ∧ js ≠ [] ∧
      js = idx.filter fun i => decide ((ls i).head?.map Prod.fst = some k)

section

variable [DecidableEq α] (h : Leading r idx ls js)
include h

theorem Leading.subset : js ⊆ idx := by
  rcases h with ⟨hsub, -⟩ | ⟨k, -, -, rfl⟩
  · exact hsub
  · exact filter_subset_self idx

theorem Leading.congr {ls' : ι → List (α × β)} (heq : ∀ i ∈ idx, ls' i = ls i) :
    Leading r idx ls' js := by
  rcases h with ⟨hsub, hnil⟩ | ⟨k, hleast, hne, hjs⟩
  · exact .inl ⟨hsub, fun i hi => (heq i hi).trans (hnil i hi)⟩
  · refine .inr ⟨k, fun i hi => heq i hi ▸ hleast i hi, hne, hjs.trans ?_⟩
    exact filter_congr fun i hi => by rw [heq i hi]

theorem Leading.length_lt [DecidableEq ι] (hne : ∃ i ∈ idx, ls i ≠ []) :
    (idx.map fun i => (tails js ls i).length).sum < (idx.map fun i => (ls i).length).sum := by
  rcases h with ⟨-, hnil⟩ | ⟨k, -, hjs, rfl⟩
  · obtain ⟨i, hi, hls⟩ := hne
    exact absurd (hnil i hi) hls
  obtain ⟨i, hi⟩ := exists_mem_of_ne_nil _ hjs
  obtain ⟨hidx, hhead⟩ := mem_filter.mp hi
  refine sum_lt_sum _ _ (fun j _ => ?_) ⟨i, hidx, ?_⟩
  · unfold tails
    split
    · simp
    · exact le_rfl
  · rw [tails, if_pos hi]
    cases hls : ls i with
    | nil => simp [hls] at hhead
    | cons p l => simp

end

theorem sum_map_eq_sum_filter {g h : ι → M} {P : ι → Bool} {l : List ι}
    (hpos : ∀ i ∈ l, P i = true → g i = h i) (hneg : ∀ i ∈ l, P i = false → g i = 0) :
    (l.map g).sum = ((l.filter P).map h).sum := by
  induction l with
  | nil => rfl
  | cons i l ih =>
    have hrest := ih (fun j hj => hpos j (by simp [hj])) fun j hj => hneg j (by simp [hj])
    cases hP : P i with
    | true =>
      rw [filter_cons_of_pos hP, map_cons, map_cons, sum_cons,
        sum_cons, hrest, hpos i (by simp) hP]
    | false =>
      rw [filter_cons_of_neg (by simp [hP]), map_cons, sum_cons, hrest,
        hneg i (by simp) hP, zero_add]

variable [DecidableEq α] [IsStrictTotalOrder α r] {k : α}

/-- The mass of the least item is that of the first entries. -/
theorem Least.sum_mass (h : Sums r f idx ls total) (hk : Least r idx ls k) :
    (idx.map fun i => mass f (ls i) k).sum =
      ((idx.filter fun i => decide ((ls i).head?.map Prod.fst = some k)).map fun i =>
        headMass f (ls i)).sum := by
  refine sum_map_eq_sum_filter (fun i hi hhead => ?_) fun i hi hhead => ?_
  · have hordered := h.each i hi
    cases hls : ls i with
    | nil => simp [hls] at hhead
    | cons p l =>
      rw [hls] at hordered
      obtain rfl : p.1 = k := by simpa [hls] using hhead
      exact hordered.mass_head f
  · refine mass_eq_zero f fun p hp heq => ?_
    have hordered := h.each i hi
    have hleast := hk i hi
    cases hls : ls i with
    | nil => simp [hls] at hp
    | cons q l =>
      rw [hls] at hordered hleast hp
      have hqk : q.1 ≠ k := by simpa [hls] using hhead
      have hlt : r k q.1 := (hleast q rfl).resolve_left hqk
      rcases mem_cons.mp hp with rfl | hmem
      · exact hqk heq
      · have hqp := (pairwise_cons.mp hordered).1 p hmem
        exact irrefl_of r k (trans_of r hlt (heq ▸ hqp))

variable [DecidableRel r] [DecidableEq ι]

variable (h : Sums r f idx ls total)
include h

theorem tails_eq_filter (hk : Least r idx ls k) {i : ι} (hi : i ∈ idx) :
    tails (idx.filter fun i => decide ((ls i).head?.map Prod.fst = some k)) ls i =
      (ls i).filter fun p => decide (r k p.1) := by
  rw [filter_of_least (h.each i hi) (hk i hi), tails]
  refine if_congr ?_ rfl rfl
  simp [hi]

theorem Sums.advance_zero (hlead : Leading r idx ls js)
    (hzero : (js.map fun i => headMass f (ls i)).sum = 0) : Sums r f idx (tails js ls) total := by
  rcases hlead with ⟨-, hnil⟩ | ⟨k, hleast, -, rfl⟩
  · refine h.congr fun i hi => ?_
    unfold tails
    split
    · rw [hnil i hi, tail_nil]
    · rfl
  · rw [← hleast.sum_mass h] at hzero
    exact (h.skip hleast hzero).congr fun i hi => tails_eq_filter h hleast hi

/-- If they do not cancel, they make up the first entry of the sum. -/
theorem Sums.advance_top (hlead : Leading r idx ls js)
    (hne : (js.map fun i => headMass f (ls i)).sum ≠ 0) :
    ∃ k b rest, total = (k, b) :: rest ∧ f b = (js.map fun i => headMass f (ls i)).sum ∧
      Least r idx ls k ∧
      (js = idx.filter fun i => decide ((ls i).head?.map Prod.fst = some k)) ∧
      Sums r f idx (tails js ls) rest := by
  rcases hlead with ⟨hsub, hnil⟩ | ⟨k, hleast, -, rfl⟩
  · refine absurd (sum_eq_zero fun x hx => ?_) hne
    obtain ⟨i, hi, rfl⟩ := mem_map.mp hx
    rw [hnil i (hsub hi)]
    rfl
  · rw [← hleast.sum_mass h] at hne ⊢
    obtain ⟨b, rest, rfl, hb⟩ := h.head hleast hne
    exact ⟨k, b, rest, rfl, hb, hleast, rfl,
      h.step.congr fun i hi => tails_eq_filter h hleast hi⟩

end

end Feldera.OrderedSum
