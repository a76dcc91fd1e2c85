import Feldera.Trace.LayerMerge

/-!
Cursors for merging: they move forward only. A merger is generic in its cursors;
what it relies on is that a cursor behaves like a reader of some layers, its
*view* (`Lawful`). A cursor with filters skips the keys and values that do not
pass, and keys without a value that passes, whenever it moves; its view is what
passes of the rest of its batch.
-/

namespace Feldera.Trace

open Weighted LayerMerge List

variable {σ ι K V T R : Type*}

structure MergeCursor (σ K V T R : Type*) where
  getKey : σ → Option K
  getVal : σ → Option V
  mapTimes : σ → List (T × R)
  stepKey : σ → σ
  stepVal : σ → σ

/-- `Filter::include`: without a filter everything passes. -/
def includes {α : Type*} : Option (α → Bool) → α → Bool
  | none, _ => true
  | some filter, a => filter a

/-- The states that satisfy `ok` behave like readers of their views. -/
structure MergeCursor.Lawful (C : MergeCursor σ K V T R) (ok : σ → Prop)
    (view : σ → Layers K V T R) : Prop where
  getKey : ∀ s, ok s → C.getKey s = headKey (view s)
  getVal : ∀ s, ok s → C.getVal s = (headVal (view s)).map Prod.fst
  mapTimes : ∀ s, ok s → C.mapTimes s = ((headVal (view s)).map Prod.snd).getD []
  ok_stepKey : ∀ s, ok s → ok (C.stepKey s)
  ok_stepVal : ∀ s, ok s → ok (C.stepVal s)
  stepKey : ∀ s, ok s → view (C.stepKey s) = (view s).tail
  stepVal : ∀ s, ok s → view (C.stepVal s) = LayerMerge.stepVal (view s)

/-- A cursor without filters; its state is what is left of its batch. -/
def unfilteredMergeCursor : MergeCursor (Layers K V T R) K V T R where
  getKey := headKey
  getVal l := (headVal l).map Prod.fst
  mapTimes l := ((headVal l).map Prod.snd).getD []
  stepKey := List.tail
  stepVal := stepVal

section

variable (keyFilter : Option (K → Bool)) (valueFilter : Option (V → Bool))

def skipFilteredValues (vs : Vals V T R) : Vals V T R :=
  vs.dropWhile fun p => !includes valueFilter p.1

def skipFilteredKeys : Layers K V T R → Layers K V T R
  | [] => []
  | (k, vs) :: rest =>
    if includes keyFilter k && !(skipFilteredValues valueFilter vs).isEmpty then
      (k, skipFilteredValues valueFilter vs) :: rest
    else skipFilteredKeys rest

/-- A cursor that skips what does not pass. -/
def filteredMergeCursor : MergeCursor (Layers K V T R) K V T R where
  getKey := headKey
  getVal l := (headVal l).map Prod.fst
  mapTimes l := ((headVal l).map Prod.snd).getD []
  stepKey l := skipFilteredKeys keyFilter valueFilter l.tail
  stepVal
    | [] => []
    | (k, vs) :: rest => (k, skipFilteredValues valueFilter vs.tail) :: rest

def passingVals (vs : Vals V T R) : Vals V T R :=
  vs.filter fun p => includes valueFilter p.1

def passing (b : Layers K V T R) : Layers K V T R :=
  ((b.filter fun p => includes keyFilter p.1).map fun p =>
    (p.1, passingVals valueFilter p.2)).filter fun p => !p.2.isEmpty

/-- What passes of the rest of a batch whose first key the cursor stands on. -/
def passingRest : Layers K V T R → Layers K V T R
  | [] => []
  | (k, vs) :: rest => (k, passingVals valueFilter vs) :: passing keyFilter valueFilter rest

/-- The cursor stands on a value that passes, unless the values of its key are exhausted. -/
def Skipped : Layers K V T R → Prop
  | [] => True
  | (k, vs) :: _ => includes keyFilter k = true ∧ ∀ p ∈ vs.head?, includes valueFilter p.1 = true

variable (vs : Vals V T R)

theorem passingVals_skip :
    passingVals valueFilter (skipFilteredValues valueFilter vs) = passingVals valueFilter vs := by
  induction vs with
  | nil => rfl
  | cons p vs ih =>
    cases hp : includes valueFilter p.1 with
    | true => simp [skipFilteredValues, hp]
    | false =>
      have hskip : skipFilteredValues valueFilter (p :: vs) = skipFilteredValues valueFilter vs := by
        simp [skipFilteredValues, hp]
      rw [hskip, ih]
      simp [passingVals, hp]

theorem head_skip :
    ∀ p ∈ (skipFilteredValues valueFilter vs).head?, includes valueFilter p.1 = true := by
  induction vs with
  | nil => simp [skipFilteredValues]
  | cons p vs ih =>
    cases hp : includes valueFilter p.1 with
    | true => simp [skipFilteredValues, hp]
    | false => simpa [skipFilteredValues, hp] using ih

variable {vs : Vals V T R}

theorem head_passingVals (h : ∀ p ∈ vs.head?, includes valueFilter p.1 = true) :
    (passingVals valueFilter vs).head? = vs.head? := by
  cases vs with
  | nil => rfl
  | cons p vs =>
    have hp := h p rfl
    simp [passingVals, hp]

theorem passingVals_tail (h : ∀ p ∈ vs.head?, includes valueFilter p.1 = true) :
    passingVals valueFilter vs.tail = (passingVals valueFilter vs).tail := by
  cases vs with
  | nil => rfl
  | cons p vs =>
    have hp := h p rfl
    simp [passingVals, hp]

theorem isEmpty_skip :
    (skipFilteredValues valueFilter vs).isEmpty = (passingVals valueFilter vs).isEmpty := by
  have hhead := head_passingVals valueFilter (head_skip valueFilter vs)
  rw [passingVals_skip] at hhead
  cases hskip : skipFilteredValues valueFilter vs with
  | nil =>
    rw [hskip] at hhead
    rw [List.head?_eq_none_iff.mp hhead]
  | cons p us =>
    rw [hskip] at hhead
    cases hpass : passingVals valueFilter vs with
    | nil => simp [hpass] at hhead
    | cons q ws => rfl

theorem passing_cons (k : K) (vs : Vals V T R) (rest : Layers K V T R) :
    passing keyFilter valueFilter ((k, vs) :: rest) =
      if includes keyFilter k && !(passingVals valueFilter vs).isEmpty then
        (k, passingVals valueFilter vs) :: passing keyFilter valueFilter rest
      else passing keyFilter valueFilter rest := by
  unfold passing
  cases hk : includes keyFilter k with
  | false => simp [hk]
  | true =>
    cases hvs : (passingVals valueFilter vs).isEmpty with
    | false => simp [hk, hvs]
    | true => simp [hk, hvs]

theorem skipFilteredKeys_spec (b : Layers K V T R) :
    Skipped keyFilter valueFilter (skipFilteredKeys keyFilter valueFilter b) ∧
      passingRest keyFilter valueFilter (skipFilteredKeys keyFilter valueFilter b) =
        passing keyFilter valueFilter b := by
  induction b with
  | nil => exact ⟨trivial, rfl⟩
  | cons q rest ih =>
    obtain ⟨k, vs⟩ := q
    rw [passing_cons, skipFilteredKeys, isEmpty_skip]
    split
    · next hcond =>
      have hk : includes keyFilter k = true := (Bool.and_eq_true_iff.mp hcond).1
      refine ⟨⟨hk, head_skip valueFilter vs⟩, ?_⟩
      rw [passingRest, passingVals_skip]
    · exact ih

theorem filteredMergeCursor_lawful :
    (filteredMergeCursor keyFilter valueFilter).Lawful (Skipped keyFilter valueFilter)
      (passingRest (T := T) (R := R) keyFilter valueFilter) where
  getKey l _ := by
    cases l <;> rfl
  getVal l hl := by
    cases l with
    | nil => rfl
    | cons p rest =>
      change p.2.head?.map Prod.fst = (passingVals valueFilter p.2).head?.map Prod.fst
      rw [head_passingVals valueFilter hl.2]
  mapTimes l hl := by
    cases l with
    | nil => rfl
    | cons p rest =>
      change (p.2.head?.map Prod.snd).getD [] =
        ((passingVals valueFilter p.2).head?.map Prod.snd).getD []
      rw [head_passingVals valueFilter hl.2]
  ok_stepKey l _ := (skipFilteredKeys_spec keyFilter valueFilter l.tail).1
  ok_stepVal l hl := by
    cases l with
    | nil => trivial
    | cons p rest => exact ⟨hl.1, head_skip valueFilter p.2.tail⟩
  stepKey l _ := by
    rw [filteredMergeCursor, (skipFilteredKeys_spec keyFilter valueFilter l.tail).2]
    cases l <;> rfl
  stepVal l hl := by
    cases l with
    | nil => rfl
    | cons p rest =>
      change (p.1, passingVals valueFilter (skipFilteredValues valueFilter p.2.tail)) :: _ =
        (p.1, (passingVals valueFilter p.2).tail) :: _
      rw [passingVals_skip, passingVals_tail valueFilter hl.2]

end

theorem unfilteredMergeCursor_lawful :
    (unfilteredMergeCursor (K := K) (V := V) (T := T) (R := R)).Lawful (fun _ => True)
      (fun l => l) where
  getKey _ _ := rfl
  getVal _ _ := rfl
  mapTimes _ _ := rfl
  ok_stepKey _ _ := trivial
  ok_stepVal _ _ := trivial
  stepKey _ _ := rfl
  stepVal _ _ := rfl

section

variable (keyFilter : Option (K → Bool)) (valueFilter : Option (V → Bool))

/-- `merge_cursor`: batches are read without filtering when there is no filter. -/
def mergeCursor : MergeCursor (Layers K V T R) K V T R :=
  if keyFilter.isNone && valueFilter.isNone then unfilteredMergeCursor
  else filteredMergeCursor keyFilter valueFilter

def mergeCursorStart (b : Layers K V T R) : Layers K V T R :=
  if keyFilter.isNone && valueFilter.isNone then b else skipFilteredKeys keyFilter valueFilter b

theorem passing_none {b : Layers K V T R} (h : ∀ p ∈ b, p.2 ≠ []) : passing none none b = b := by
  have hvals : ∀ vs : Vals V T R, passingVals none vs = vs := by
    intro vs
    simp [passingVals, includes]
  have hkeys : (b.filter fun p => !p.2.isEmpty) = b := by
    rw [filter_eq_self]
    intro p hp
    simpa using h p hp
  simpa [passing, includes, hvals] using hkeys

/-- Whether an update passes the filters. -/
def passes (p : (K × V × T) × R) : Bool :=
  includes keyFilter p.1.1 && includes valueFilter p.1.2.1

variable (b : Layers K V T R)

theorem tuples_passing :
    (passing keyFilter valueFilter b).tuples =
      b.tuples.filter (passes keyFilter valueFilter) := by
  have hvals : ∀ vs : Vals V T R, (passingVals valueFilter vs).tuples =
      vs.tuples.filter fun p => includes valueFilter p.1.1 := by
    intro vs
    induction vs with
    | nil => rfl
    | cons p vs ih =>
      unfold Vals.tuples at ih ⊢
      rw [flat_cons, filter_append, ← ih]
      cases hp : includes valueFilter p.1 <;>
        simp [passingVals, hp, under, filter_map, Function.comp_def]
  induction b with
  | nil => rfl
  | cons q b ih =>
    obtain ⟨k, vs⟩ := q
    have hhead : (under k vs.tuples).filter (passes keyFilter valueFilter) =
        if includes keyFilter k then under k (passingVals valueFilter vs).tuples else [] := by
      rw [hvals]
      cases hk : includes keyFilter k <;>
        simp [under, filter_map, Function.comp_def, passes, hk]
    unfold Layers.tuples at ih ⊢
    rw [passing_cons, flat_cons, filter_append, hhead, ← ih]
    cases hk : includes keyFilter k with
    | false => simp
    | true =>
      cases hvs : passingVals valueFilter vs with
      | nil => simp [Vals.tuples, under]
      | cons p us => simp

theorem size_passing_le :
    size (passing keyFilter valueFilter b) ≤ size b := by
  induction b with
  | nil => exact le_rfl
  | cons q b ih =>
    obtain ⟨k, vs⟩ := q
    have hlen : (passingVals valueFilter vs).length ≤ vs.length := length_filter_le _ _
    rw [passing_cons]
    split
    · simp only [size_cons]
      omega
    · simp only [size_cons]
      omega

theorem size_passingRest_le (l : Layers K V T R) :
    size (passingRest keyFilter valueFilter l) ≤ size l := by
  cases l with
  | nil => exact le_rfl
  | cons q rest =>
    have hlen : (passingVals valueFilter q.2).length ≤ q.2.length := length_filter_le _ _
    have hrest := size_passing_le keyFilter valueFilter rest
    simp only [passingRest, size_cons]
    omega

/-- The merge cursor of a batch reads what passes the filters. -/
theorem mergeCursor_lawful :
    ∃ (ok : Layers K V T R → Prop) (view : Layers K V T R → Layers K V T R),
      (mergeCursor keyFilter valueFilter).Lawful ok view ∧
        (∀ l, LayerMerge.size (view l) ≤ LayerMerge.size l) ∧
        ∀ b, (∀ p ∈ b, p.2 ≠ []) → ok (mergeCursorStart keyFilter valueFilter b) ∧
          view (mergeCursorStart keyFilter valueFilter b) = passing keyFilter valueFilter b := by
  by_cases hnone : (keyFilter.isNone && valueFilter.isNone) = true
  · simp only [mergeCursor, mergeCursorStart, hnone, if_true]
    refine ⟨_, _, unfilteredMergeCursor_lawful, fun _ => le_rfl, fun b hb => ⟨trivial, ?_⟩⟩
    obtain ⟨hkey, hval⟩ : keyFilter = none ∧ valueFilter = none := by simpa using hnone
    rw [hkey, hval, passing_none hb]
  · simp only [mergeCursor, mergeCursorStart, hnone]
    exact ⟨_, _, filteredMergeCursor_lawful keyFilter valueFilter,
      size_passingRest_le keyFilter valueFilter,
      fun b _ => skipFilteredKeys_spec keyFilter valueFilter b⟩

end

section

variable [LinearOrder K] [LinearOrder V] [LinearOrder T] [AddCommMonoid R]
  (keyFilter : Option (K → Bool)) (valueFilter : Option (V → Bool))

theorem passing_isBatch {b : Layers K V T R} (h : IsBatch b) :
    IsBatch (passing keyFilter valueFilter b) where
  sorted := by
    apply List.Pairwise.filter
    rw [pairwise_map]
    exact h.sorted.filter _
  contents := by
    intro q hq
    obtain ⟨hmem, hne⟩ := mem_filter.mp hq
    obtain ⟨p, hp, rfl⟩ := mem_map.mp hmem
    have hvals := h.contents p (mem_filter.mp hp).1
    refine ⟨by simpa using hne, hvals.2.sorted.filter _, ?_⟩
    intro r hr
    exact hvals.2.contents r (mem_filter.mp hr).1

end

section

variable {α : Type*} [LinearOrder α]

/-- One more item: it replaces the minimum, joins it or is passed over. -/
def minStep (m : α × List ι) (p : ι × α) : α × List ι :=
  if p.2 < m.1 then (p.2, [p.1]) else if p.2 = m.1 then (m.1, m.2 ++ [p.1]) else m

/-- `find_min_indexes`: the indexes of the least items, in order. -/
def findMinIndexes : List (ι × α) → List ι
  | [] => []
  | p :: l => (l.foldl minStep (p.2, [p.1])).2

theorem foldl_minStep (l : List (ι × α)) (p : ι × α) :
    ∃ m, (l.foldl minStep (p.2, [p.1])) =
        (m, ((p :: l).filter fun q => decide (q.2 = m)).map Prod.fst) ∧
      (∀ q ∈ p :: l, m ≤ q.2) ∧ ∃ q ∈ p :: l, q.2 = m := by
  induction l using List.reverseRecOn with
  | nil => exact ⟨p.2, by simp, by simp, p, by simp, rfl⟩
  | append_singleton l r ih =>
    obtain ⟨m, hfold, hle, q, hq, hqm⟩ := ih
    have hcons : p :: (l ++ [r]) = (p :: l) ++ [r] := rfl
    have hmem : ∀ s ∈ (p :: l) ++ [r], s ∈ p :: l ∨ s = r := by
      intro s hs
      rcases mem_append.mp hs with hs | hs
      · exact Or.inl hs
      · exact Or.inr (mem_singleton.mp hs)
    rw [foldl_append, hfold, hcons]
    rcases lt_trichotomy r.2 m with hlt | heq | hgt
    · -- `r` is a new minimum: nothing before it is as small
      refine ⟨r.2, ?_, ?_, r, by simp, rfl⟩
      · have hnone : ((p :: l).filter fun s => decide (s.2 = r.2)) = [] := by
          rw [filter_eq_nil_iff]
          intro s hs
          simpa using (hlt.trans_le (hle s hs)).ne'
        rw [filter_append, hnone]
        simp [minStep, hlt]
      · intro s hs
        rcases hmem s hs with hs | rfl
        · exact hlt.le.trans (hle s hs)
        · exact le_rfl
    · refine ⟨m, ?_, ?_, q, mem_append_left _ hq, hqm⟩
      · rw [filter_append, map_append]
        simp [minStep, heq]
      · intro s hs
        rcases hmem s hs with hs | rfl
        · exact hle s hs
        · exact heq.ge
    · refine ⟨m, ?_, ?_, q, mem_append_left _ hq, hqm⟩
      · rw [filter_append, map_append]
        simp [minStep, not_lt.mpr hgt.le, hgt.ne']
      · intro s hs
        rcases hmem s hs with hs | rfl
        · exact hle s hs
        · exact hgt.le

/-- The indexes that are found are those of all items equal to the least one. -/
theorem findMinIndexes_spec {l : List (ι × α)} (hne : l ≠ []) :
    ∃ m, findMinIndexes l = (l.filter fun q => decide (q.2 = m)).map Prod.fst ∧
      (∀ q ∈ l, m ≤ q.2) ∧ ∃ q ∈ l, q.2 = m := by
  cases l with
  | nil => exact absurd rfl hne
  | cons p l =>
    obtain ⟨m, hfold, hmin⟩ := foldl_minStep l p
    exact ⟨m, by rw [findMinIndexes, hfold], hmin⟩

/-- The least items among the `g i` that exist, for `i` in `indexes`. -/
theorem findMinIndexes_filterMap {indexes : List ι} {g : ι → Option α}
    (hnodup : indexes.Nodup) (hsome : ∃ i ∈ indexes, (g i).isSome) :
    ∃ m, (findMinIndexes (indexes.filterMap fun i => (g i).map fun a => (i, a))).Nodup ∧
      (∀ i, i ∈ findMinIndexes (indexes.filterMap fun i => (g i).map fun a => (i, a)) ↔
        i ∈ indexes ∧ g i = some m) ∧
      (∀ i ∈ indexes, ∀ a ∈ g i, m ≤ a) ∧ ∃ i ∈ indexes, g i = some m := by
  have hmem : ∀ q, q ∈ (indexes.filterMap fun i => (g i).map fun a => (i, a)) ↔
      q.1 ∈ indexes ∧ g q.1 = some q.2 := by
    rintro ⟨i, a⟩
    simp only [mem_filterMap, Option.map_eq_some_iff, Prod.mk.injEq]
    constructor
    · rintro ⟨j, hj, b, hb, rfl, rfl⟩
      exact ⟨hj, hb⟩
    · rintro ⟨hi, ha⟩
      exact ⟨i, hi, a, ha, rfl, rfl⟩
  have hsub : ((indexes.filterMap fun i => (g i).map fun a => (i, a)).map Prod.fst).Sublist
      indexes := by
    clear hmem hsome hnodup
    induction indexes with
    | nil => exact List.Sublist.refl _
    | cons i indexes ih =>
      cases hg : g i with
      | none => simpa [filterMap_cons, hg] using ih.cons i
      | some a => simpa [filterMap_cons, hg] using ih.cons_cons i
  have hne : (indexes.filterMap fun i => (g i).map fun a => (i, a)) ≠ [] := by
    obtain ⟨i, hi, ha⟩ := hsome
    obtain ⟨a, ha⟩ := Option.isSome_iff_exists.mp ha
    exact ne_nil_of_mem ((hmem (i, a)).mpr ⟨hi, ha⟩)
  obtain ⟨m, hfind, hle, q, hq, hqm⟩ := findMinIndexes_spec hne
  refine ⟨m, ?_, ?_, ?_, q.1, ((hmem q).mp hq).1, hqm ▸ ((hmem q).mp hq).2⟩
  · rw [hfind]
    exact (hnodup.sublist hsub).sublist (filter_sublist.map _)
  · intro i
    rw [hfind]
    constructor
    · intro hi
      obtain ⟨r, hr, rfl⟩ := mem_map.mp hi
      obtain ⟨hrmem, hrm⟩ := mem_filter.mp hr
      obtain ⟨hri, hrg⟩ := (hmem r).mp hrmem
      exact ⟨hri, by rw [hrg, show r.2 = m by simpa using hrm]⟩
    · rintro ⟨hi, hg⟩
      exact mem_map.mpr ⟨(i, m), mem_filter.mpr ⟨(hmem (i, m)).mpr ⟨hi, hg⟩, by simp⟩, rfl⟩
  · intro i hi a ha
    exact hle (i, a) ((hmem (i, a)).mpr ⟨hi, ha⟩)

end

end Feldera.Trace
