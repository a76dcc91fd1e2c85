import Feldera.Algebra.Weighted

/-!
Sorted association lists whose entries carry weighted lists of their own. A
layer maps items to contents; flattening a layer pairs each item with the
weighted items of its contents. Layers stack: the contents of a layer may be
layers. A flattening is *faithful* on a class of contents when weights tell
the contents apart, and a layer of faithful contents is faithful again.
-/

namespace Feldera.Weighted

open List

variable {α β γ R : Type*}

section

/-- Prefixes the weighted items `l` by `a`. -/
def under (a : α) (l : List (γ × R)) : List ((α × γ) × R) :=
  l.map fun q => ((a, q.1), q.2)

/-- Weighted pairs of a layer whose contents are read by `f`. -/
def flat (f : β → List (γ × R)) (l : List (α × β)) : List ((α × γ) × R) :=
  l.flatMap fun p => under p.1 (f p.2)

variable (f : β → List (γ × R))

@[simp] theorem flat_nil : flat f ([] : List (α × β)) = [] := rfl

@[simp] theorem flat_cons (p : α × β) (l : List (α × β)) :
    flat f (p :: l) = under p.1 (f p.2) ++ flat f l := rfl

@[simp] theorem flat_append (l m : List (α × β)) : flat f (l ++ m) = flat f l ++ flat f m := by
  simp [flat]

variable [DecidableEq α] [DecidableEq γ] [AddCommMonoid R]

theorem weight_under (a a' : α) (c : γ) (l : List (γ × R)) :
    weight (under a l) (a', c) = if a = a' then weight l c else 0 := by
  induction l with
  | nil => simp [under]
  | cons q l ih =>
    change weight (((a, q.1), q.2) :: under a l) (a', c) = _
    rw [weight_cons, ih]
    by_cases ha : a = a'
    · simp [ha]
    · simp [ha]

theorem weight_flat_eq_zero {f : β → List (γ × R)} {l : List (α × β)} {a : α}
    (h : ∀ p ∈ l, p.1 ≠ a) (c : γ) : weight (flat f l) (a, c) = 0 := by
  induction l with
  | nil => rfl
  | cons p l ih =>
    have hp : p.1 ≠ a := h p (by simp)
    rw [flat_cons, weight_append, weight_under, if_neg hp,
      ih fun q hq => h q (by simp [hq]), add_zero]

end

section

variable [DecidableEq α]

/-- What `f` reads below `a`: the contents of the entry for `a`, if there is one. -/
def below (f : β → List (γ × R)) (l : List (α × β)) (a : α) : List (γ × R) :=
  match l.find? fun p => decide (p.1 = a) with
  | some p => f p.2
  | none => []

theorem below_cases (f : β → List (γ × R)) (l : List (α × β)) (a : α) :
    below f l a = [] ∨ ∃ p ∈ l, p.1 = a ∧ below f l a = f p.2 := by
  unfold below
  cases hfind : l.find? fun p => decide (p.1 = a) with
  | none => exact Or.inl rfl
  | some p =>
    have hp := List.find?_some hfind
    exact Or.inr ⟨p, mem_of_find?_eq_some hfind, by simpa using hp, rfl⟩

/-- The weighted items that `l` pairs with `a`. -/
def restrict (l : List ((α × γ) × R)) (a : α) : List (γ × R) :=
  (l.filter fun x => decide (x.1.1 = a)).map fun x => (x.1.2, x.2)

theorem gather_restrict [AddCommMonoid R] (P : γ → Bool) (l : List ((α × γ) × R)) (a : α) :
    gather P (restrict l a) = gather (fun x => decide (x.1 = a) && P x.2) l := by
  induction l with
  | nil => rfl
  | cons x l ih =>
    by_cases hx : x.1.1 = a
    · have hcons : restrict (x :: l) a = (x.1.2, x.2) :: restrict l a := by
        simp [restrict, hx]
      rw [hcons, gather_cons, gather_cons, ih]
      simp [hx]
    · have hcons : restrict (x :: l) a = restrict l a := by
        simp [restrict, hx]
      rw [hcons, ih, gather_cons]
      simp [hx]

theorem weight_restrict [DecidableEq γ] [AddCommMonoid R] (l : List ((α × γ) × R))
    (a : α) (c : γ) : weight (restrict l a) c = weight l (a, c) := by
  have hgather := gather_restrict (fun x => decide (x = c)) l a
  simpa [gather, weight, Prod.ext_iff] using hgather

end

section

variable [LinearOrder α] [DecidableEq γ] [AddCommMonoid R]

structure IsLayer (P : β → Prop) (l : List (α × β)) : Prop where
  sorted : l.Pairwise fun p q => p.1 < q.1
  contents : ∀ p ∈ l, P p.2

theorem IsLayer.nil (P : β → Prop) : IsLayer P ([] : List (α × β)) :=
  ⟨List.Pairwise.nil, by simp⟩

variable {P : β → Prop} {l : List (α × β)} {p : α × β} {f : β → List (γ × R)}

theorem isLayer_cons : IsLayer P (p :: l) ↔ P p.2 ∧ (∀ q ∈ l, p.1 < q.1) ∧ IsLayer P l := by
  constructor
  · intro h
    obtain ⟨hp, hl⟩ := pairwise_cons.mp h.sorted
    exact ⟨h.contents p (by simp), hp, hl, fun q hq => h.contents q (by simp [hq])⟩
  rintro ⟨hp, hlt, hl⟩
  refine ⟨pairwise_cons.mpr ⟨hlt, hl.sorted⟩, ?_⟩
  intro q hq
  rcases mem_cons.mp hq with rfl | hq
  · exact hp
  · exact hl.contents q hq

theorem IsLayer.tail (h : IsLayer P (p :: l)) : IsLayer P l :=
  (isLayer_cons.mp h).2.2

theorem isLayer_concat : IsLayer P (l ++ [p]) ↔ IsLayer P l ∧ (∀ q ∈ l, q.1 < p.1) ∧ P p.2 := by
  constructor
  · intro h
    obtain ⟨hl, -, hlt⟩ := pairwise_append.mp h.sorted
    exact ⟨⟨hl, fun q hq => h.contents q (by simp [hq])⟩,
      fun q hq => hlt q hq p (by simp), h.contents p (by simp)⟩
  · rintro ⟨hl, hlt, hp⟩
    refine ⟨pairwise_append.mpr ⟨hl.sorted, by simp, ?_⟩, ?_⟩
    · intro q hq r hr
      rw [mem_singleton.mp hr]
      exact hlt q hq
    intro q hq
    rcases mem_append.mp hq with hq | hq
    · exact hl.contents q hq
    · rw [mem_singleton.mp hq]
      exact hp

theorem weight_flat_head (h : IsLayer P (p :: l)) (f : β → List (γ × R)) (c : γ) :
    weight (flat f (p :: l)) (p.1, c) = weight (f p.2) c := by
  have hlt := (isLayer_cons.mp h).2.1
  rw [flat_cons, weight_append, weight_under, if_pos rfl,
    weight_flat_eq_zero fun q hq => (hlt q hq).ne', add_zero]

theorem weight_flat_of_ne (f : β → List (γ × R)) {a : α} (hne : p.1 ≠ a) (l : List (α × β))
    (c : γ) : weight (flat f (p :: l)) (a, c) = weight (flat f l) (a, c) := by
  rw [flat_cons, weight_append, weight_under, if_neg hne, zero_add]

theorem weight_flat_of_mem (h : IsLayer P l) (f : β → List (γ × R)) (hp : p ∈ l) (c : γ) :
    weight (flat f l) (p.1, c) = weight (f p.2) c := by
  induction l with
  | nil => exact absurd hp not_mem_nil
  | cons q l ih =>
    rcases mem_cons.mp hp with rfl | hp
    · exact weight_flat_head h f c
    · rw [weight_flat_of_ne f ((isLayer_cons.mp h).2.1 p hp).ne, ih h.tail hp]

theorem weight_below (h : IsLayer P l) (f : β → List (γ × R)) (a : α) (c : γ) :
    weight (below f l a) c = weight (flat f l) (a, c) := by
  induction l with
  | nil => rfl
  | cons p l ih =>
    by_cases hpa : p.1 = a
    · subst hpa
      rw [weight_flat_head h]
      simp [below]
    · rw [weight_flat_of_ne f hpa, ← ih h.tail]
      simp [below, hpa]

/-- Weights tell apart the contents that satisfy `P`, and none of them is weightless. -/
structure Faithful (f : β → List (γ × R)) (P : β → Prop) : Prop where
  nonzero : ∀ b, P b → ∃ c, weight (f b) c ≠ 0
  ext : ∀ b b', P b → P b' → (∀ c, weight (f b) c = weight (f b') c) → b = b'

variable {m : List (α × β)}

/-- Heads of two layers of equal weights carry the same item. -/
private theorem Faithful.head_le (hf : Faithful f P) {q : α × β} (hl : IsLayer P (p :: l))
    (hm : IsLayer P (q :: m)) (h : ∀ x, weight (flat f (p :: l)) x = weight (flat f (q :: m)) x)
    : q.1 ≤ p.1 := by
  by_contra hlt
  rw [not_le] at hlt
  obtain ⟨c, hc⟩ := hf.nonzero p.2 (isLayer_cons.mp hl).1
  have hzero : weight (flat f (q :: m)) (p.1, c) = 0 := by
    apply weight_flat_eq_zero
    intro r hr
    rcases mem_cons.mp hr with rfl | hr
    · exact hlt.ne'
    · exact (hlt.trans ((isLayer_cons.mp hm).2.1 r hr)).ne'
  rw [← h, weight_flat_head hl] at hzero
  exact hc hzero

theorem Faithful.layer_ext (hf : Faithful f P) (hl : IsLayer P l) (hm : IsLayer P m)
    (h : ∀ x, weight (flat f l) x = weight (flat f m) x) : l = m := by
  induction l generalizing m with
  | nil =>
    cases m with
    | nil => rfl
    | cons q m =>
      obtain ⟨c, hc⟩ := hf.nonzero q.2 (isLayer_cons.mp hm).1
      rw [← weight_flat_head hm f c, ← h] at hc
      exact absurd rfl hc
  | cons p l ih =>
    cases m with
    | nil =>
      obtain ⟨c, hc⟩ := hf.nonzero p.2 (isLayer_cons.mp hl).1
      rw [← weight_flat_head hl f c, h] at hc
      exact absurd rfl hc
    | cons q m =>
      have hfst : p.1 = q.1 :=
        le_antisymm (hf.head_le hm hl fun x => (h x).symm) (hf.head_le hl hm h)
      have hsnd : p.2 = q.2 := by
        apply hf.ext _ _ (isLayer_cons.mp hl).1 (isLayer_cons.mp hm).1
        intro c
        rw [← weight_flat_head hl f c, h, hfst, weight_flat_head hm]
      have hpq : p = q := Prod.ext hfst hsnd
      subst hpq
      rw [ih hl.tail hm.tail]
      rintro ⟨a, c⟩
      by_cases hpa : p.1 = a
      · subst hpa
        rw [weight_flat_eq_zero fun r hr => ((isLayer_cons.mp hl).2.1 r hr).ne',
          weight_flat_eq_zero fun r hr => ((isLayer_cons.mp hm).2.1 r hr).ne']
      · rw [← weight_flat_of_ne f hpa, h, weight_flat_of_ne f hpa]

theorem Faithful.layer (hf : Faithful f P) :
    Faithful (flat (α := α) f) (fun l => l ≠ [] ∧ IsLayer P l) where
  nonzero := by
    rintro l ⟨hne, hl⟩
    cases l with
    | nil => exact absurd rfl hne
    | cons p l =>
      obtain ⟨c, hc⟩ := hf.nonzero p.2 (isLayer_cons.mp hl).1
      exact ⟨(p.1, c), by rwa [weight_flat_head hl]⟩
  ext := fun _ _ hl hm h => hf.layer_ext hl.2 hm.2 h

end

section

variable {δ : Type*} [LinearOrder α] [DecidableEq γ] [AddCommMonoid R]

/-- Items of `l` in order, each once. -/
def items (l : List ((α × γ) × R)) : List α :=
  (l.map fun x => x.1.1).dedup.insertionSort (· ≤ ·)

/-- The layer over the items of `l` whose contents `g` builds, without the empty ones. -/
def layerOf (g : List (γ × R) → List δ) (l : List ((α × γ) × R)) : List (α × List δ) :=
  ((items l).map fun a => (a, g (restrict l a))).filter fun p => !p.2.isEmpty

variable (l : List ((α × γ) × R))

omit [DecidableEq γ] [AddCommMonoid R] in
theorem items_sorted : (items l).Pairwise (· < ·) := by
  have hnodup : (items l).Nodup :=
    (perm_insertionSort _ _).nodup_iff.mpr (nodup_dedup _)
  have hle : (items l).Pairwise (· ≤ ·) := pairwise_insertionSort _ _
  exact (hle.and hnodup).imp fun h => lt_of_le_of_ne h.1 h.2

omit [DecidableEq γ] [AddCommMonoid R] in
theorem mem_items {l : List ((α × γ) × R)} {a : α} : a ∈ items l ↔ ∃ x ∈ l, x.1.1 = a := by
  simp [items]

variable {g : List (γ × R) → List δ}

omit [DecidableEq γ] [AddCommMonoid R] in
theorem layerOf_isLayer {P : List δ → Prop} (hg : ∀ l, g l ≠ [] → P (g l)) :
    IsLayer P (layerOf g l) where
  sorted := by
    apply List.Pairwise.filter
    rw [pairwise_map]
    exact items_sorted l
  contents := by
    intro p hp
    obtain ⟨hmem, hne⟩ := mem_filter.mp hp
    obtain ⟨a, -, rfl⟩ := mem_map.mp hmem
    exact hg _ (by simpa using hne)

variable (f : List δ → List (γ × R))

private theorem weight_flat_filter_nonempty (hnil : f [] = []) (l : List (α × List δ))
    (x : α × γ) : weight (flat f (l.filter fun p => !p.2.isEmpty)) x = weight (flat f l) x := by
  induction l with
  | nil => rfl
  | cons p l ih =>
    by_cases hp : p.2 = []
    · rw [filter_cons_of_neg (by simp [hp]), ih, flat_cons, hp, hnil]
      simp [under]
    · rw [filter_cons_of_pos (by simp [hp]), flat_cons, flat_cons, weight_append,
        weight_append, ih]

private theorem weight_flat_map (h : α → List δ) {as : List α} (has : as.Pairwise (· < ·))
    (a : α) (c : γ) :
    weight (flat f (as.map fun a => (a, h a))) (a, c) =
      if a ∈ as then weight (f (h a)) c else 0 := by
  by_cases ha : a ∈ as
  · have hlayer : IsLayer (fun _ => True) (as.map fun a => (a, h a)) :=
      ⟨by rwa [pairwise_map], by simp⟩
    have hmem : (a, h a) ∈ as.map fun a => (a, h a) := mem_map_of_mem ha
    rw [if_pos ha]
    exact weight_flat_of_mem hlayer f hmem c
  · rw [if_neg ha]
    apply weight_flat_eq_zero
    intro p hp
    obtain ⟨b, hb, rfl⟩ := mem_map.mp hp
    rintro rfl
    exact ha hb

theorem weight_flat_layerOf {f : List δ → List (γ × R)} (hnil : f [] = [])
    (hfg : ∀ l c, weight (f (g l)) c = weight l c) (x : α × γ) :
    weight (flat f (layerOf g l)) x = weight l x := by
  obtain ⟨a, c⟩ := x
  unfold layerOf
  rw [weight_flat_filter_nonempty f hnil,
    weight_flat_map f (fun a => g (restrict l a)) (items_sorted l)]
  by_cases ha : a ∈ items l
  · rw [if_pos ha, hfg, weight_restrict]
  · rw [if_neg ha, weight_eq_zero_of_forall_ne]
    intro y hy hya
    exact ha (mem_items.mpr ⟨y, hy, congrArg Prod.fst hya⟩)

end

theorem faithful_consolidated [LinearOrder α] [AddCommMonoid R] :
    Faithful (fun l : List (α × R) => l) (fun l => l ≠ [] ∧ Consolidated l) where
  nonzero := by
    rintro l ⟨hne, hl⟩
    cases l with
    | nil => exact absurd rfl hne
    | cons p l =>
      refine ⟨p.1, ?_⟩
      rw [hl.weight_head]
      exact hl.nonzero p (by simp)
  ext := fun _ _ hl hm h => hl.2.ext hm.2 h

end Feldera.Weighted
