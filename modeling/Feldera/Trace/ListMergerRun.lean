import Feldera.Trace.ListMerger

/-!
What the loops of `ListMerger` keep, and what its calls produce together.

A call starts and ends at rest: either between two keys, or inside a key of which values
have been written. The loops over values stay inside one key; the loops over keys go
from rest to rest. A call that returns with fuel left has exhausted its cursors.
-/

namespace Feldera.Trace.ListMerger

open Weighted Time LayerMerge List Option

variable {σ K V T R : Type*} {n : Nat} {C : MergeCursor σ K V T R} {cfg : Config T}
  {ok : σ → Prop} {view : σ → Layers K V T R} {total : K × V × T → R}
  {s s' : State n σ K V T R} {k : K} {i : Fin n} {minKeys remaining : List (Fin n)}

section

structure Remaining (view : σ → Layers K V T R) (s : State n σ K V T R)
    (remaining : List (Fin n)) : Prop where
  nodup : remaining.Nodup
  mem : ∀ i, i ∈ remaining ↔ (headKey (views view s i)).isSome

structure Spent (view : σ → Layers K V T R) (s s' : State n σ K V T R) : Prop where
  fuel_le : s'.fuel ≤ s.fuel
  left : workLeft view s' ≤ workLeft view s
  fuel_lt : s'.fuel < s.fuel → workLeft view s' < workLeft view s

theorem Spent.refl (s : State n σ K V T R) : Spent view s s :=
  ⟨le_rfl, le_rfl, fun hlt => absurd hlt (lt_irrefl _)⟩

theorem Spent.trans {s'' : State n σ K V T R} (h : Spent view s s') (h' : Spent view s' s'') :
    Spent view s s'' where
  fuel_le := h'.fuel_le.trans h.fuel_le
  left := h'.left.trans h.left
  fuel_lt := by
    intro hlt
    rcases lt_or_ge s''.fuel s'.fuel with hlt' | hge
    · exact (h'.fuel_lt hlt').trans_le h.left
    · exact h'.left.trans_lt (h.fuel_lt (hge.trans_lt hlt))

theorem Remaining.of_heads (h : Remaining view s remaining)
    (hheads : ∀ i, headKey (views view s' i) = headKey (views view s i)) :
    Remaining view s' remaining :=
  ⟨h.nodup, fun i => by rw [h.mem i, hheads]⟩

/-- Several remaining cursors are not one. -/
theorem Remaining.not_alone (h : Remaining view s remaining) (hlong : isLong remaining = true)
    (i : Fin n) : ¬Remaining view s [i] := by
  intro halone
  have hsub : remaining ⊆ [i] := fun j hj => (halone.mem j).mpr ((h.mem j).mp hj)
  have hle := (h.nodup.subperm hsub).length_le
  simp only [isLong, decide_eq_true_eq] at hlong
  simp only [length_cons, length_nil] at hle
  omega

theorem ne_nil_of_isLong (h : isLong minKeys = true) : minKeys ≠ [] := by
  rintro rfl
  simp [isLong] at h

theorem eq_nil_of_isLong (h : isLong (i :: minKeys) = false) : minKeys = [] := by
  simp only [isLong, length_cons, decide_eq_false_iff_not] at h
  exact length_eq_zero_iff.mp (by omega)

theorem Remaining.exhausted (h : Remaining view s []) (j : Fin n) :
    headKey (views view s j) = none := by
  rw [← not_isSome_iff_eq_none, ← h.mem j]
  exact not_mem_nil

theorem keyValid_eq (hC : C.Lawful ok view) (hok : ∀ i, ok (s.cursors i)) (i : Fin n) :
    keyValid C s i = (headKey (views view s i)).isSome := by
  rw [keyValid, hC.getKey _ (hok i)]
  rfl

theorem valValid_eq (hC : C.Lawful ok view) (hok : ∀ i, ok (s.cursors i)) (i : Fin n) :
    valValid C s i = (headVal (views view s i)).isSome := by
  rw [valValid, hC.getVal _ (hok i), isSome_map]
  rfl

variable [LinearOrder K]

theorem Remaining.finishKey (hC : C.Lawful ok view) {indexes : List (Fin n)}
    (h : Remaining view s remaining)
    (hidx : ∀ i, i ∈ indexes ↔ headKey (views view s i) = some k)
    (hok : ∀ i, ok (s'.cursors i)) (hviews : views view s' = nextKey (views view s) k) :
    Remaining view s'
      (remaining.filter fun j => !decide (j ∈ indexes) || keyValid C s' j) := by
  refine ⟨h.nodup.filter _, fun j => ?_⟩
  rw [mem_filter, keyValid_eq hC hok, h.mem j, hviews]
  by_cases hj : headKey (views view s j) = some k
  · simp [(hidx j).mpr hj, hj]
  · have hnot := fun hin => hj ((hidx j).mp hin)
    simp only [nextKey, if_neg hj, decide_eq_false hnot]
    simp

structure HasVals (view : σ → Layers K V T R) (k : K) (s : State n σ K V T R)
    (minKeys : List (Fin n)) : Prop where
  nodup : minKeys.Nodup
  mem : ∀ i, i ∈ minKeys ↔ valsAt k (views view s i) ≠ []

theorem valsAt_ne_nil_iff {l : Layers K V T R} :
    valsAt k l ≠ [] ↔ headKey l = some k ∧ (headVal l).isSome := by
  cases l with
  | nil => simp [valsAt, headKey]
  | cons p rest =>
    by_cases hp : p.1 = k
    · cases hvs : p.2 <;> simp [valsAt, headKey, headVal, hp, hvs]
    · simp [valsAt, headKey, hp]

theorem HasVals.least [LinearOrder V] (hmk : HasVals view k s [i]) : ∃ v, Least view k s v [i] := by
  obtain ⟨hkey, hval⟩ := valsAt_ne_nil_iff.mp ((hmk.mem i).mp (by simp))
  obtain ⟨q, hq⟩ := isSome_iff_exists.mp hval
  refine ⟨q.1, by simp, by simp, ?_, ?_⟩
  · rintro j hj
    rw [mem_singleton.mp hj]
    exact ⟨hkey, q.2, hq⟩
  · intro j hj p hp
    exact absurd ((hmk.mem j).mpr (ne_nil_of_mem hp)) hj

end

variable [LinearOrder K] [LinearOrder V] [LinearOrder T] [AddCommMonoid R] {rounds bound : Nat}

section

variable (cfg ok view total k) in
/-- Copying values of `k` from `s` led to `s'`; the call goes on with `Q`, or the fuel is
used up. -/
structure Copied (s s' : State n σ K V T R) (goesOn : Bool) (Q : Prop) : Prop where
  within : Within cfg ok view total k s s'
  goes_on : goesOn = true → Q
  stops : goesOn = false → s'.fuel ≤ 0

theorem Copied.after {s'' : State n σ K V T R} {goesOn : Bool} {Q : Prop}
    (h : Within cfg ok view total k s s') (h' : Copied cfg ok view total k s' s'' goesOn Q) :
    Copied cfg ok view total k s s'' goesOn Q :=
  ⟨h.trans h'.within, h'.goes_on, h'.stops⟩

variable (hC : C.Lawful ok view)
include hC

/-- The cursors that `find_min_indexes` picks stand on the least value. -/
theorem least_of_findMin (h : At cfg ok view total k s)
    (hmk : HasVals view k s minKeys) (hne : minKeys ≠ []) :
    ∃ v, Least view k s v (findMinIndexes
      (minKeys.filterMap fun i => (C.getVal (s.cursors i)).map fun v => (i, v))) := by
  have hval : ∀ i, C.getVal (s.cursors i) = (headVal (views view s i)).map Prod.fst :=
    fun i => hC.getVal _ (h.cursors i)
  have hsome : ∃ i ∈ minKeys, (C.getVal (s.cursors i)).isSome := by
    obtain ⟨i, hi⟩ := exists_mem_of_ne_nil _ hne
    refine ⟨i, hi, ?_⟩
    rw [hval, isSome_map]
    exact (valsAt_ne_nil_iff.mp ((hmk.mem i).mp hi)).2
  obtain ⟨v, hnodup, hmem, hle, i, hi, hiv⟩ := findMinIndexes_filterMap hmk.nodup hsome
  refine ⟨v, hnodup, ne_nil_of_mem ((hmem i).mpr ⟨hi, hiv⟩), ?_, ?_⟩
  · intro j hj
    obtain ⟨hjk, hjv⟩ := (hmem j).mp hj
    rw [hval] at hjv
    obtain ⟨q, hq, rfl⟩ := map_eq_some_iff.mp hjv
    exact ⟨(valsAt_ne_nil_iff.mp ((hmk.mem j).mp hjk)).1, q.2, hq⟩
  · intro j hj q hq
    have hjk : j ∈ minKeys := (hmk.mem j).mpr (ne_nil_of_mem hq)
    obtain ⟨hkey, hsome⟩ := valsAt_ne_nil_iff.mp ((hmk.mem j).mp hjk)
    obtain ⟨p, hp⟩ := isSome_iff_exists.mp hsome
    obtain ⟨vs, hvs⟩ := head_mem_valsAt hkey hp
    have hjv : C.getVal (s.cursors j) = some p.1 := by
      rw [hval, hp]
      rfl
    have hvp : v < p.1 := by
      refine lt_of_le_of_ne (hle j hjk p.1 hjv) ?_
      rintro rfl
      exact hj ((hmem j).mpr ⟨hjk, hjv⟩)
    have hlayer := (h.atKey.rest j).valsAt k
    rw [hvs] at hlayer hq
    rcases mem_cons.mp hq with rfl | hq
    · exact hvp
    · exact hvp.trans ((isLayer_cons.mp hlayer).2.1 q hq)

variable [DecidableEq R] (hunit : cfg.timed = false → Subsingleton T)
  (h : At cfg ok view total k s)
include hunit h

/-- After a step the cursors with values left are those that `sharedVals` keeps. -/
theorem HasVals.step {v : V} {minVals : List (Fin n)} (hmk : HasVals view k s minKeys)
    (hleast : Least view k s v minVals) :
    HasVals view k (stepVals C cfg s minVals) (minKeys.filter fun i =>
      !decide (i ∈ minVals) || valValid C (stepVals C cfg s minVals) i) := by
  obtain ⟨hwithin, hviews, -⟩ := stepVals_within hC hunit h hleast
  refine ⟨hmk.nodup.filter _, fun i => ?_⟩
  have hheads := hwithin.heads i
  rw [mem_filter, hmk.mem i, valValid_eq hC hwithin.state.cursors]
  by_cases hi : i ∈ minVals
  · have hkey := (hleast.at_val i hi).1
    obtain ⟨ts, hts⟩ := (hleast.at_val i hi).2
    simp [valsAt_ne_nil_iff, hheads, hkey, hts, hi]
  · rw [hviews, valsAt_handOver hleast.at_val]
    simp [hi]

theorem sharedVals_copied (hrounds : workLeft view s < rounds) (hmk : HasVals view k s minKeys)
    (hfuel : 0 < s.fuel)
    {r : State n σ K V T R × List (Fin n) × Bool} (hr : sharedVals C cfg rounds s minKeys = r) :
    Copied cfg ok view total k s r.1 r.2.2
      (HasVals view k r.1 r.2.1 ∧ isLong r.2.1 = false ∧ 0 < r.1.fuel) := by
  subst hr
  induction rounds generalizing s minKeys with
  | zero => omega
  | succ rounds ih =>
    unfold sharedVals
    by_cases hlong : isLong minKeys = true
    · obtain ⟨v, hleast⟩ := least_of_findMin hC h hmk (ne_nil_of_isLong hlong)
      have hmk' := HasVals.step hC hunit h hmk hleast
      obtain ⟨hwithin, -, hleft⟩ := stepVals_within hC hunit h hleast
      simp only [hlong, if_true]
      split
      · next hstop => exact ⟨hwithin, by simp, fun _ => hstop⟩
      · next hgo =>
        exact Copied.after hwithin
          (ih hwithin.state (by omega) hmk' (not_le.mp hgo))
    · simp only [hlong]
      exact ⟨h.within, fun _ => ⟨hmk, by simpa using hlong, hfuel⟩,
        by simp⟩

/-- One step of the only cursor with values left: either it is still the only one, or none
are left. -/
theorem HasVals.step_single (hmk : HasVals view k s [i]) :
    (valValid C (stepVals C cfg s [i]) i = true →
      HasVals view k (stepVals C cfg s [i]) [i]) ∧
    (valValid C (stepVals C cfg s [i]) i = false →
      ∀ j, valsAt k (views view (stepVals C cfg s [i]) j) = []) := by
  obtain ⟨v, hleast⟩ := hmk.least
  have hnext := HasVals.step hC hunit h hmk hleast
  constructor
  · intro hvalid
    simpa [hvalid] using hnext
  intro hvalid j
  by_contra hj
  have hmem := (hnext.mem j).mpr hj
  obtain ⟨hji, hkept⟩ := mem_filter.mp hmem
  obtain rfl := mem_singleton.mp hji
  simp [hvalid] at hkept

theorem ownVals_copied (hrounds : workLeft view s < rounds) (hmk : HasVals view k s [i]) :
    Copied cfg ok view total k s (ownVals C cfg rounds s i).1 (ownVals C cfg rounds s i).2
      (∀ j, valsAt k (views view (ownVals C cfg rounds s i).1 j) = []) := by
  induction rounds generalizing s with
  | zero => omega
  | succ rounds ih =>
    obtain ⟨v, hleast⟩ := hmk.least
    obtain ⟨hwithin, -, hleft⟩ := stepVals_within hC hunit h hleast
    obtain ⟨hmore, hdone⟩ := HasVals.step_single hC hunit h hmk
    simp only [ownVals]
    split
    · next hstop => exact ⟨hwithin, by simp, fun _ => hstop⟩
    split
    · next hvalid =>
      exact Copied.after hwithin (ih hwithin.state (by omega) (hmore hvalid))
    · next hvalid =>
      exact ⟨hwithin, fun _ => hdone (by simpa using hvalid), by simp⟩

theorem lastVals_copied (hrounds : workLeft view s < rounds) (hmk : HasVals view k s [i]) :
    Copied cfg ok view total k s (lastVals C cfg rounds s i).1 (lastVals C cfg rounds s i).2
        (∀ j, valsAt k (views view (lastVals C cfg rounds s i).1 j) = []) ∧
      ((lastVals C cfg rounds s i).2 = false →
        HasVals view k (lastVals C cfg rounds s i).1 [i]) := by
  induction rounds generalizing s with
  | zero => omega
  | succ rounds ih =>
    obtain ⟨v, hleast⟩ := hmk.least
    obtain ⟨hwithin, -, hleft⟩ := stepVals_within hC hunit h hleast
    obtain ⟨hmore, hdone⟩ := HasVals.step_single hC hunit h hmk
    simp only [lastVals]
    split
    · next hvalid =>
      exact ⟨⟨hwithin, fun _ => hdone (by simpa using hvalid), by simp⟩,
        by simp⟩
    · next hvalid =>
      have hmk' := hmore (by simpa using hvalid)
      split
      · next hstop =>
        exact ⟨⟨hwithin, by simp, fun _ => hstop⟩, fun _ => hmk'⟩
      · obtain ⟨hcopied, hstopped⟩ := ih hwithin.state (by omega) hmk'
        exact ⟨Copied.after hwithin hcopied, hstopped⟩

theorem keyVals_copied (hbound : workLeft view s < bound) (hmk : HasVals view k s minKeys)
    (hfuel : 0 < s.fuel) :
    Copied cfg ok view total k s (keyVals C cfg bound s minKeys).1
      (keyVals C cfg bound s minKeys).2
      (∀ j, valsAt k (views view (keyVals C cfg bound s minKeys).1 j) = []) := by
  have hshared := sharedVals_copied hC hunit h hbound hmk hfuel rfl
  unfold keyVals
  generalize sharedVals C cfg bound s minKeys = r at hshared ⊢
  obtain ⟨s', minKeys', goesOn⟩ := r
  cases goesOn with
  | false => exact ⟨hshared.within, nofun, hshared.stops⟩
  | true =>
    obtain ⟨hmk', hshort, -⟩ := hshared.goes_on rfl
    cases minKeys' with
    | nil =>
      refine ⟨hshared.within, fun _ j => ?_, nofun⟩
      by_contra hj
      simpa using (hmk'.mem j).mpr hj
    | cons i rest =>
      obtain rfl := eq_nil_of_isLong hshort
      exact Copied.after hshared.within
        (ownVals_copied hC hunit hshared.within.state (hshared.within.left.trans_lt hbound) hmk')

end

section

variable (cfg ok view total) in
/-- Where a call of `work` starts and ends. A cursor that is alone inside a key has values
left there. -/
inductive Resting (s : State n σ K V T R) : Prop
  | between (cursors : ∀ i, ok (s.cursors i))
      (between : Between cfg.move total (views view s) s.builder) (any : s.anyValues = false)
  | inside (k : K) (state : At cfg ok view total k s) (any : s.anyValues = true)
      (at_key : ∃ i, headKey (views view s i) = some k)
      (alone : ∀ i, Remaining view s [i] → HasVals view k s [i])

theorem Within.spent (h : Within cfg ok view total k s s') : Spent view s s' :=
  ⟨h.fuel_le, h.left, fun hlt => (h.fuel_lt hlt).2⟩

theorem Resting.at_min (h : Resting cfg ok view total s) (hi : headKey (views view s i) = some k)
    (hmin : ∀ j, ∀ k' ∈ headKey (views view s j), k ≤ k') :
    At cfg ok view total k s ∧
      (s.anyValues = false → ∀ j, headKey (views view s j) = some k →
        valsAt k (views view s j) ≠ []) ∧
      (Remaining view s [i] → HasVals view k s [i]) := by
  cases h with
  | between hok hbetween hany =>
    have hvals : ∀ j, headKey (views view s j) = some k → valsAt k (views view s j) ≠ [] := by
      intro j hj
      have hbatch := hbetween.rest j
      obtain ⟨vs, rest, hl⟩ := headKey_eq_some.mp hj
      rw [hl] at hbatch ⊢
      simpa [valsAt] using (isLayer_cons.mp hbatch).1.1
    refine ⟨⟨hok, hbetween.atKey hi hmin, by simp [hany, hbetween.vals]⟩, fun _ => hvals, ?_⟩
    intro halone
    refine ⟨by simp, fun j => ⟨fun hj => ?_, fun hj => ?_⟩⟩
    · rw [mem_singleton.mp hj]
      exact hvals i hi
    · exact (halone.mem j).mpr (by simp [(valsAt_ne_nil_iff.mp hj).1])
  | inside k' hstate hany hat halone =>
    obtain ⟨j, hj⟩ := hat
    obtain rfl : k' = k :=
      le_antisymm (hstate.atKey.key_le i k hi) (hmin j k' hj)
    exact ⟨hstate, fun hno => by simp [hany] at hno, halone i⟩

theorem Resting.cursors (h : Resting cfg ok view total s) : ∀ i, ok (s.cursors i) := by
  cases h with
  | between hok _ _ => exact hok
  | inside _ hstate _ _ _ => exact hstate.cursors

variable (cfg ok view total s s') in
structure Advanced : Prop where
  resting : Resting cfg ok view total s'
  spent : Spent view s s'

theorem Advanced.after {s'' : State n σ K V T R} (h : Spent view s s')
    (h' : Advanced cfg ok view total s' s'') : Advanced cfg ok view total s s'' :=
  ⟨h'.resting, h.trans h'.spent⟩

/-- A call that runs out of fuel below `k` rests inside `k`. -/
theorem Within.resting (h : Within cfg ok view total k s s') (hfuel : 0 < s.fuel)
    (hstop : s'.fuel ≤ 0) (hi : headKey (views view s i) = some k)
    (halone : ∀ j, Remaining view s' [j] → HasVals view k s' [j]) : Resting cfg ok view total s' :=
  .inside k h.state (h.fuel_lt (hstop.trans_lt hfuel)).1 ⟨i, (h.heads i).trans hi⟩ halone

variable {indexes : List (Fin n)} (hC : C.Lawful ok view)
include hC

/-- Once the values of `k` are copied, the key is written and its cursors go on. -/
theorem At.finishKey (h : At cfg ok view total k s)
    (hdone : ∀ j, valsAt k (views view s j) = [])
    (hidx : ∀ i, i ∈ indexes ↔ headKey (views view s i) = some k) (hi : i ∈ indexes) :
    Resting cfg ok view total (stepKeys C (pushKey C s i) indexes) ∧
      views view (stepKeys C (pushKey C s i) indexes) = nextKey (views view s) k ∧
      Spent view s (stepKeys C (pushKey C s i) indexes) ∧
      workLeft view (stepKeys C (pushKey C s i) indexes) < workLeft view s := by
  have hkey : C.getKey (s.cursors i) = some k := by
    rw [hC.getKey _ (h.cursors i)]
    exact (hidx i).mp hi
  have hpush : pushKey C s i =
      { s with builder := writeKey s.builder k, anyValues := false } := by
    unfold pushKey writeKey
    cases hany : s.anyValues with
    | true =>
      have hvals : s.builder.vals.isEmpty = false := by simpa using h.any.mp hany
      simp [hkey, hvals]
    | false =>
      have hvals : s.builder.vals.isEmpty = true := by
        have hnot := h.any.not.mp (by simp [hany])
        simpa using hnot
      simp [hvals, ← hany]
  have hviews : views view (stepKeys C (pushKey C s i) indexes) =
      nextKey (views view s) k := by
    rw [hpush]
    funext j
    unfold views stepKeys nextKey
    by_cases hj : j ∈ indexes
    · have hjk : headKey (view (s.cursors j)) = some k := (hidx j).mp hj
      simp only [if_pos hj, hjk, if_true]
      exact hC.stepKey _ (h.cursors j)
    · have hjk : headKey (view (s.cursors j)) ≠ some k := fun hjk => hj ((hidx j).mpr hjk)
      simp only [if_neg hj, if_neg hjk]
  have hleft : workLeft view (stepKeys C (pushKey C s i) indexes) < workLeft view s := by
    unfold workLeft
    rw [hviews]
    exact size_nextKey ((hidx i).mp hi)
  have hfuel : (stepKeys C (pushKey C s i) indexes).fuel = s.fuel := by
    rw [hpush]
    rfl
  refine ⟨.between ?_ ?_ ?_, hviews, ⟨hfuel.le, hleft.le, fun _ => hleft⟩, hleft⟩
  · intro j
    rw [hpush]
    unfold stepKeys
    by_cases hj : j ∈ indexes
    · simp only [if_pos hj]
      exact hC.ok_stepKey _ (h.cursors j)
    · simp only [if_neg hj]
      exact h.cursors j
  · rw [hviews, hpush]
    exact h.atKey.nextKey hdone
  · rw [hpush]
    rfl

theorem Resting.findMin (h : Resting cfg ok view total s)
    (hremaining : Remaining view s remaining) (hne : remaining ≠ []) :
    ∃ k, (findMinIndexes
        (remaining.filterMap fun i => (C.getKey (s.cursors i)).map fun k => (i, k))).Nodup ∧
      (∀ i, i ∈ findMinIndexes
          (remaining.filterMap fun i => (C.getKey (s.cursors i)).map fun k => (i, k)) ↔
        headKey (views view s i) = some k) ∧
      (∀ j, ∀ k' ∈ headKey (views view s j), k ≤ k') ∧
      ∃ i, headKey (views view s i) = some k := by
  have hkey : ∀ i, C.getKey (s.cursors i) = headKey (views view s i) :=
    fun i => hC.getKey _ (h.cursors i)
  have hsome : ∃ i ∈ remaining, (C.getKey (s.cursors i)).isSome := by
    obtain ⟨i, hi⟩ := exists_mem_of_ne_nil _ hne
    exact ⟨i, hi, by rw [hkey]; exact (hremaining.mem i).mp hi⟩
  obtain ⟨k, hnodup, hmem, hle, i, -, hi⟩ := findMinIndexes_filterMap hremaining.nodup hsome
  have hin : ∀ j k', headKey (views view s j) = some k' → j ∈ remaining :=
    fun j k' hj => (hremaining.mem j).mpr (by simp [hj])
  refine ⟨k, hnodup, fun j => ?_, fun j k' hj => ?_, i, by rw [← hkey]; exact hi⟩
  · rw [hmem j, hkey]
    exact ⟨fun hj => hj.2, fun hj => ⟨hin j k hj, hj⟩⟩
  · exact hle j (hin j k' hj) k' (by rw [hkey]; exact hj)

variable [DecidableEq R] (hunit : cfg.timed = false → Subsingleton T)
include hunit

variable (hbound : workLeft view s < bound)
include hbound

theorem keysLoop_advanced (hrounds : workLeft view s < rounds) (h : Resting cfg ok view total s)
    (hremaining : Remaining view s remaining) {r : State n σ K V T R × List (Fin n) × Bool}
    (hr : keysLoop C cfg bound rounds s remaining = r) :
    Advanced cfg ok view total s r.1 ∧
      (r.2.2 = true →
        Remaining view r.1 r.2.1 ∧ (isLong r.2.1 = true → r.1.fuel ≤ 0)) ∧
      (r.2.2 = false → r.1.fuel ≤ 0) := by
  subst hr
  induction rounds generalizing s remaining with
  | zero => omega
  | succ rounds ih =>
    unfold keysLoop
    by_cases hgo : isLong remaining && decide (0 < s.fuel)
    · obtain ⟨hlong, hfuel⟩ : isLong remaining = true ∧ 0 < s.fuel := by simpa using hgo
      obtain ⟨k, hnodup, hmem, hmin, i, hi⟩ := h.findMin hC hremaining (ne_nil_of_isLong hlong)
      obtain ⟨hstate, hfresh, -⟩ := h.at_min hi hmin
      simp only [hgo, if_true]
      generalize findMinIndexes
        (remaining.filterMap fun i => (C.getKey (s.cursors i)).map fun k => (i, k)) = orig
        at hnodup hmem ⊢
      have hvals : HasVals view k s
          (if s.anyValues then orig.filter (valValid C s) else orig) := by
        split
        · refine ⟨hnodup.filter _, fun j => ?_⟩
          rw [mem_filter, hmem, valValid_eq hC hstate.cursors, valsAt_ne_nil_iff]
        · next hany =>
          refine ⟨hnodup, fun j => (hmem j).trans ⟨hfresh (by simpa using hany) j, fun hj => ?_⟩⟩
          exact (valsAt_ne_nil_iff.mp hj).1
      have hcopied := keyVals_copied hC hunit hstate hbound hvals hfuel
      generalize keyVals C cfg bound s
        (if s.anyValues then orig.filter (valValid C s) else orig) = r at hcopied ⊢
      obtain ⟨s', goesOn⟩ := r
      have hremaining' : Remaining view s' remaining := hremaining.of_heads hcopied.within.heads
      cases goesOn with
      | false =>
        have hstop := hcopied.stops rfl
        refine ⟨⟨hcopied.within.resting hfuel hstop hi ?_, hcopied.within.spent⟩,
          by simp, fun _ => hstop⟩
        exact fun j hj => absurd hj (hremaining'.not_alone hlong j)
      | true =>
        have hmem' : ∀ j, j ∈ orig ↔ headKey (views view s' j) = some k := by
          intro j
          rw [hmem j, hcopied.within.heads j]
        obtain ⟨i', rest, rfl⟩ := exists_cons_of_ne_nil
          (ne_nil_of_mem ((hmem i).mpr hi))
        obtain ⟨hrest, hviews, hspent, hleft⟩ := hcopied.within.state.finishKey hC
          (hcopied.goes_on rfl) hmem' (mem_cons_self (a := i'))
        have hnext := Remaining.finishKey hC hremaining' hmem' hrest.cursors hviews
        have hlt := hleft.trans_le hcopied.within.left
        obtain ⟨hadv, hcont, hstop⟩ := ih (by omega) (by omega) hrest hnext
        exact ⟨Advanced.after (hcopied.within.spent.trans hspent) hadv, hcont, hstop⟩
    · simp only [hgo]
      refine ⟨⟨h, Spent.refl s⟩, fun _ => ⟨hremaining, fun hlong => ?_⟩,
        by simp⟩
      have hlong' : isLong remaining = true := hlong
      simpa [hlong'] using hgo

theorem lastKeys_advanced (hrounds : workLeft view s < rounds) (h : Resting cfg ok view total s)
    (halone : Remaining view s [i]) :
    Advanced cfg ok view total s (lastKeys C cfg bound rounds s i) ∧
      (0 < (lastKeys C cfg bound rounds s i).fuel →
        ∀ j, headKey (views view (lastKeys C cfg bound rounds s i) j) = none) := by
  induction rounds generalizing s with
  | zero => omega
  | succ rounds ih =>
    unfold lastKeys
    by_cases hfuel : 0 < s.fuel
    · obtain ⟨k, hi⟩ := isSome_iff_exists.mp ((halone.mem i).mp (by simp))
      have honly : ∀ j, headKey (views view s j) = some k ↔ j ∈ [i] := by
        intro j
        constructor
        · intro hj
          exact (halone.mem j).mpr (by simp [hj])
        · intro hj
          rw [mem_singleton.mp hj]
          exact hi
      have hmin : ∀ j, ∀ k' ∈ headKey (views view s j), k ≤ k' := by
        intro j k' hj
        obtain rfl := mem_singleton.mp ((halone.mem j).mpr (by simp [mem_def.mp hj]))
        exact le_of_eq (Option.some.inj (hi.symm.trans hj))
      obtain ⟨hstate, -, hvals⟩ := h.at_min hi hmin
      obtain ⟨hcopied, hstopped⟩ := lastVals_copied hC hunit hstate hbound (hvals halone)
      simp only [hfuel, if_true]
      generalize lastVals C cfg bound s i = r at hcopied hstopped ⊢
      obtain ⟨s', goesOn⟩ := r
      cases goesOn with
      | false =>
        have hstop := hcopied.stops rfl
        refine ⟨⟨hcopied.within.resting hfuel hstop hi ?_, hcopied.within.spent⟩,
          fun hleft => absurd hleft (not_lt.mpr hstop)⟩
        intro j hj
        have hij : i ∈ [j] := (hj.mem i).mpr (by simp [hcopied.within.heads i, hi])
        rw [← mem_singleton.mp hij]
        exact hstopped rfl
      | true =>
        have honly' : ∀ j, j ∈ [i] ↔ headKey (views view s' j) = some k := by
          intro j
          rw [hcopied.within.heads j, honly j]
        obtain ⟨hrest, hviews, hspent, hleft⟩ := hcopied.within.state.finishKey hC
          (hcopied.goes_on rfl) honly' (mem_cons_self (a := i))
        have hspent' := hcopied.within.spent.trans hspent
        have hnext := Remaining.finishKey hC (halone.of_heads hcopied.within.heads) honly' hrest.cursors
          hviews
        have hlt := hleft.trans_le hcopied.within.left
        by_cases hmore : keyValid C (stepKeys C (pushKey C s' i) [i]) i = true
        · obtain ⟨hadv, hend⟩ := ih (by omega) (by omega) hrest (by simpa [hmore] using hnext)
          simp only [hmore, if_true]
          exact ⟨Advanced.after hspent' hadv, hend⟩
        · simp only [hmore]
          exact ⟨⟨hrest, hspent'⟩, fun _ => Remaining.exhausted (by simpa [hmore] using hnext)⟩
    · rw [if_neg hfuel]
      exact ⟨⟨h, Spent.refl s⟩, fun hpos => absurd hpos hfuel⟩

/-- A call of `work` goes from rest to rest; if fuel is left, the cursors are exhausted. -/
theorem work_advanced (h : Resting cfg ok view total s) :
    Advanced cfg ok view total s (work C cfg bound s) ∧
      (0 < (work C cfg bound s).fuel →
        ∀ j, headKey (views view (work C cfg bound s) j) = none) := by
  have hremaining : Remaining view s ((List.finRange n).filter (keyValid C s)) :=
    ⟨(nodup_finRange n).filter _, fun i => by simp [keyValid_eq hC h.cursors]⟩
  unfold work
  by_cases hempty : ((List.finRange n).filter (keyValid C s)).isEmpty = true
  · simp only [hempty, if_true]
    rw [isEmpty_iff.mp hempty] at hremaining
    exact ⟨⟨h, Spent.refl s⟩, fun _ => hremaining.exhausted⟩
  have hloop := keysLoop_advanced hC hunit hbound hbound h hremaining rfl
  simp only [hempty]
  generalize keysLoop C cfg bound bound s ((List.finRange n).filter (keyValid C s)) = r
    at hloop ⊢
  obtain ⟨s', remaining, goesOn⟩ := r
  obtain ⟨hadv, hgo, hstop⟩ := hloop
  cases goesOn with
  | false => exact ⟨hadv, fun hpos => absurd (hstop rfl) (not_le.mpr hpos)⟩
  | true =>
    obtain ⟨hremaining', hshort⟩ := hgo rfl
    cases remaining with
    | nil => exact ⟨hadv, fun _ => hremaining'.exhausted⟩
    | cons i rest =>
      by_cases hlong : isLong (i :: rest) = true
      · -- out of fuel between two keys: the loop over the last cursor does nothing
        have hfuel : ¬0 < s'.fuel := not_lt.mpr (hshort hlong)
        have hskip : lastKeys C cfg bound bound s' i = s' := by
          cases bound with
          | zero => rfl
          | succ rounds => simp only [lastKeys, if_neg hfuel]
        change Advanced cfg ok view total s (lastKeys C cfg bound bound s' i) ∧
          (0 < (lastKeys C cfg bound bound s' i).fuel →
            ∀ j, headKey (views view (lastKeys C cfg bound bound s' i) j) = none)
        rw [hskip]
        exact ⟨hadv, fun hpos => absurd hpos hfuel⟩
      · obtain rfl := eq_nil_of_isLong (Bool.eq_false_of_not_eq_true hlong)
        have hlt := hadv.spent.left.trans_lt hbound
        obtain ⟨hadv', hend'⟩ := lastKeys_advanced hC hunit hlt hlt hadv.resting hremaining'
        exact ⟨Advanced.after hadv.spent hadv', hend'⟩

end

section

theorem Resting.refuel (h : Resting cfg ok view total s) (fuel : ℤ) :
    Resting cfg ok view total (s.refuel fuel) := by
  cases h with
  | between hok hbetween hany => exact .between hok hbetween hany
  | inside k hstate hany hat halone =>
    refine .inside k ⟨hstate.cursors, hstate.atKey, hstate.any⟩ hany hat fun i hi => ?_
    have hvals := halone i ⟨hi.nodup, hi.mem⟩
    exact ⟨hvals.nodup, hvals.mem⟩

/-- All calls go from rest to rest; each one that uses up its fuel has done some work. -/
theorem calls_resting [DecidableEq R] (hC : C.Lawful ok view)
    (hunit : cfg.timed = false → Subsingleton T) (hbound : workLeft view s < bound)
    (h : Resting cfg ok view total s) (fuels : List ℤ) :
    Resting cfg ok view total (calls C cfg bound s fuels) ∧
      workLeft view (calls C cfg bound s fuels) ≤ workLeft view s ∧
      (fuels ≠ [] → 0 < (calls C cfg bound s fuels).fuel →
        ∀ j, headKey (views view (calls C cfg bound s fuels) j) = none) ∧
      ((∀ fuel ∈ fuels, 0 < fuel) →
        (∀ m ≤ fuels.length, 0 < m → (calls C cfg bound s (fuels.take m)).fuel ≤ 0) →
        workLeft view (calls C cfg bound s fuels) + fuels.length ≤ workLeft view s) := by
  induction fuels using List.reverseRecOn with
  | nil => exact ⟨h, le_rfl, fun hne => absurd rfl hne, fun _ _ => le_rfl⟩
  | append_singleton fuels fuel ih =>
    obtain ⟨hrest, hleft, -, hcount⟩ := ih
    have hcalls : calls C cfg bound s (fuels ++ [fuel]) =
        work C cfg bound ((calls C cfg bound s fuels).refuel fuel) := by
      simp [calls]
    have hsame : workLeft view ((calls C cfg bound s fuels).refuel fuel) =
        workLeft view (calls C cfg bound s fuels) := rfl
    obtain ⟨hadv, hend⟩ := work_advanced hC hunit (hsame ▸ hleft.trans_lt hbound)
      (hrest.refuel fuel)
    have hspent := hadv.spent.left
    have hused := hadv.spent.fuel_lt
    rw [hsame] at hspent hused
    refine ⟨hcalls ▸ hadv.resting, hcalls ▸ hspent.trans hleft, fun _ => hcalls ▸ hend, ?_⟩
    intro hpos hstop
    have hbefore := hcount (fun f hf => hpos f (by simp [hf])) fun m hm hm0 => by
      have hm' := hstop m (by simp; omega) hm0
      rwa [take_append_of_le_length hm] at hm'
    have hlast := hstop (fuels.length + 1) (by simp) (by omega)
    rw [take_of_length_le (by simp), hcalls] at hlast
    have hlt := hused (hlast.trans_lt (hpos fuel (by simp)))
    rw [hcalls, length_append, length_singleton]
    omega

end

section

theorem Resting.finished (h : Resting cfg ok view total s)
    (hnone : ∀ i, headKey (views view s i) = none) :
    IsBatch s.builder.done ∧ ∀ x, s.builder.done.weight x = total x := by
  cases h with
  | inside k _ _ hat _ =>
    obtain ⟨i, hi⟩ := hat
    simp [hnone i] at hi
  | between _ hbetween _ =>
    exact hbetween.finished fun i => by simpa [headKey] using hnone i

variable [Timestamp T] (keyFilter : Option (K → Bool)) (valueFilter : Option (V → Bool))

/-- What merging `batches` has to produce: the updates that pass, with their times joined with
the frontier. -/
def mergedTuples (frontier : T) (batches : List (Batch K V T R)) : List ((K × V × T) × R) :=
  ((batches.flatMap fun b => b.layers.tuples).filter (passes keyFilter valueFilter)).map
    fun p => ((p.1.1, p.1.2.1, Timestamp.join p.1.2.2 frontier), p.2)

theorem move_ofFrontier (timed : Bool) (default frontier : T) :
    (Config.ofFrontier timed default frontier).move = fun t => Timestamp.join t frontier := by
  unfold Config.move Config.ofFrontier timeMapFunc
  split
  · next hmin =>
    funext t
    simp [hmin]
  · rfl

theorem weight_mergedTuples (frontier : T) (batches : List (Batch K V T R)) (x : K × V × T) :
    weight (mergedTuples keyFilter valueFilter frontier batches) x =
      ∑ i : Fin batches.length,
        (move (fun t => Timestamp.join t frontier)
          (passing keyFilter valueFilter (batches.get i).layers)).weight x := by
  have hlist : weight (mergedTuples keyFilter valueFilter frontier batches) x =
      (batches.map fun b => (move (fun t => Timestamp.join t frontier)
        (passing keyFilter valueFilter b.layers)).weight x).sum := by
    unfold mergedTuples
    induction batches with
    | nil => rfl
    | cons b batches ih =>
      rw [flatMap_cons, filter_append, map_append, weight_append, ih,
        map_cons, sum_cons, Layers.weight, tuples_move, tuples_passing]
  exact hlist.trans (Fin.sum_univ_fun_getElem batches _).symm

variable {batches : Fin n → Layers K V T R}

section

omit [Timestamp T]

variable {keyFilter valueFilter} {view : Layers K V T R → Layers K V T R}
  {ok : Layers K V T R → Prop}
  (hview : ∀ b, (∀ p ∈ b, p.2 ≠ []) → ok (mergeCursorStart keyFilter valueFilter b) ∧
    view (mergeCursorStart keyFilter valueFilter b) = passing keyFilter valueFilter b)
  (hbatches : ∀ i, IsBatch (batches i)) (fuel : ℤ)
include hview hbatches

variable (cfg) in
/-- A new merger is at rest, with everything that passes still to come. -/
theorem resting_new :
    Resting cfg ok view
      (fun x => ∑ i, (move cfg.move (passing keyFilter valueFilter (batches i))).weight x)
      ⟨fun i => mergeCursorStart keyFilter valueFilter (batches i), false, Builder.new, fuel⟩ := by
  have hstart := fun i => hview (batches i) fun p hp => ((hbatches i).contents p hp).1
  refine .between (fun i => (hstart i).1)
    ⟨fun i => ?_, rfl, rfl, IsLayer.nil _, fun i k _ q hq => absurd hq not_mem_nil,
      fun x => ?_⟩ rfl
  · rw [views, (hstart i).2]
    exact passing_isBatch keyFilter valueFilter (hbatches i)
  · simp only [views, (hstart _).2]
    exact zero_add _

theorem workLeft_new_le :
    workLeft view ⟨fun i => mergeCursorStart keyFilter valueFilter (batches i), false,
      (Builder.new : Builder K V T R), fuel⟩ ≤ ∑ i, size (batches i) := by
  refine Finset.sum_le_sum fun i _ => ?_
  rw [views, (hview (batches i) fun p hp => ((hbatches i).contents p hp).1).2]
  exact size_passing_le keyFilter valueFilter _

end

variable [DecidableEq R] {timed : Bool} {default : T}

/-- A single merge holds what passes of its inputs. -/
theorem merge_spec (htimed : timed = false → Subsingleton T)
    (hbatches : ∀ i, IsBatch (batches i)) {result : Layers K V T R}
    (hmerge : merge keyFilter valueFilter timed default batches = some result) :
    IsBatch result ∧ ∀ x, result.weight x =
      ∑ i, (move (fun t => Timestamp.join t default)
        (passing keyFilter valueFilter (batches i))).weight x := by
  obtain ⟨ok, view, hC, hsize, hview⟩ := mergeCursor_lawful (T := T) (R := R) keyFilter valueFilter
  obtain ⟨s, hs, hwork⟩ := bind_eq_some_iff.mp hmerge
  unfold new at hs
  split at hs
  · cases hs
    have hrest := resting_new (.ofFrontier timed default default) hview hbatches isizeMax
    have hbound : workLeft view (State.refuel ⟨fun i => mergeCursorStart keyFilter valueFilter
        (batches i), false, (Builder.new : Builder K V T R), 0⟩ isizeMax) <
        sizeLeft ⟨fun i => mergeCursorStart keyFilter valueFilter (batches i), false,
          (Builder.new : Builder K V T R), 0⟩ + 1 :=
      Nat.lt_succ_of_le (Finset.sum_le_sum fun i _ => hsize _)
    obtain ⟨hadv, hend⟩ := work_advanced hC htimed hbound hrest
    dsimp only at hwork
    split at hwork
    · next hfuel =>
      obtain ⟨hbatch, hweight⟩ := hadv.resting.finished (hend hfuel)
      cases hwork
      rw [move_ofFrontier] at hweight
      exact ⟨hbatch, hweight⟩
    · cases hwork
  · cases hs

theorem merge_eq_nil (hn : n ≤ 64) (hbatches : ∀ i, IsBatch (batches i))
    (hnil : ∀ i, passing keyFilter valueFilter (batches i) = []) :
    merge keyFilter valueFilter timed default batches = some [] := by
  obtain ⟨ok, view, hC, -, hview⟩ := mergeCursor_lawful (T := T) (R := R) keyFilter valueFilter
  have hstart := fun i => hview (batches i) fun p hp => ((hbatches i).contents p hp).1
  have hkey : ∀ i, (mergeCursor keyFilter valueFilter).getKey
      (mergeCursorStart keyFilter valueFilter (batches i)) = none := by
    intro i
    rw [hC.getKey _ (hstart i).1, (hstart i).2, hnil i]
    rfl
  unfold merge new
  rw [if_pos hn]
  simp [work, State.refuel, keyValid, hkey, isizeMax, Builder.new, Builder.done]

def start (batches : List (Batch K V T R)) :
    Option (State batches.length (Layers K V T R) K V T R) :=
  new fun i => mergeCursorStart keyFilter valueFilter (batches.get i).layers

/-- Calling `work` again and again builds the consolidated sum of what passes the filters,
with times joined with the frontier, as soon as a call leaves fuel. Calls with positive fuel
get there after at most as many calls as there are keys and values. -/
theorem calls_merge (batches : List (Batch K V T R)) (timed : Bool)
    (htimed : timed = false → Subsingleton T) (default frontier : T)
    {s : State batches.length (Layers K V T R) K V T R}
    (hstart : start keyFilter valueFilter batches = some s) {bound : Nat}
    (hbound : (batches.map fun b => size b.layers).sum < bound) (fuels : List ℤ) :
    (0 < (calls (mergeCursor keyFilter valueFilter) (.ofFrontier timed default frontier) bound
        s fuels).fuel →
      (calls (mergeCursor keyFilter valueFilter) (.ofFrontier timed default frontier) bound
          s fuels).builder.done =
        (Batch.ofTuples (mergedTuples keyFilter valueFilter frontier batches)).layers ∧
      ∀ p ∈ (calls (mergeCursor keyFilter valueFilter) (.ofFrontier timed default frontier)
          bound s fuels).builder.done,
        p.2 ≠ [] ∧ ∀ q ∈ p.2, ∃ t, weight
          (mergedTuples keyFilter valueFilter frontier batches) (p.1, q.1, t) ≠ 0) ∧
    ((∀ fuel ∈ fuels, 0 < fuel) →
      (batches.map fun b => size b.layers).sum < fuels.length →
      ∃ m ≤ fuels.length, 0 < (calls (mergeCursor keyFilter valueFilter)
        (.ofFrontier timed default frontier) bound s (fuels.take m)).fuel) := by
  obtain ⟨ok, view, hC, hsize, hview⟩ := mergeCursor_lawful (T := T) (R := R) keyFilter valueFilter
  have hbatches : ∀ i : Fin batches.length, IsBatch (batches.get i).layers :=
    fun i => (batches.get i).isBatch
  have hs : s = ⟨fun i => mergeCursorStart keyFilter valueFilter (batches.get i).layers,
      false, Builder.new, 0⟩ := by
    unfold start new at hstart
    split at hstart
    · exact (Option.some.inj hstart).symm
    · exact absurd hstart (by simp)
  have hrest := resting_new (.ofFrontier timed default frontier) hview hbatches 0
  rw [← hs, move_ofFrontier] at hrest
  have hleft : workLeft view s ≤ (batches.map fun b => size b.layers).sum := by
    rw [← Fin.sum_univ_fun_getElem, hs]
    exact workLeft_new_le hview hbatches 0
  have hfuel0 : s.fuel = 0 := by rw [hs]
  obtain ⟨hend, -, hexhausted, -⟩ :=
    calls_resting hC htimed (hleft.trans_lt hbound) hrest fuels
  refine ⟨fun hfuel => ?_, fun hpos hlen => ?_⟩
  · have hne : fuels ≠ [] := by
      rintro rfl
      simp [calls, hfuel0] at hfuel
    obtain ⟨hbatch, hweight⟩ := hend.finished (hexhausted hne hfuel)
    have htotal : ∀ x, weight (mergedTuples keyFilter valueFilter frontier batches) x =
        Layers.weight _ x := fun x =>
      (weight_mergedTuples keyFilter valueFilter frontier batches x).trans (hweight x).symm
    refine ⟨hbatch.ext (Layers.ofTuples_isBatch _) fun x => ?_, fun p hp => ?_⟩
    · rw [Batch.ofTuples, Layers.weight_ofTuples, htotal]
    · refine ⟨(hbatch.contents p hp).1, fun q hq => ?_⟩
      obtain ⟨t, ht⟩ := hbatch.exists_weight_ne_zero hp hq
      exact ⟨t, by rwa [htotal]⟩
  · by_contra hno
    push Not at hno
    have hcount := (calls_resting hC htimed (hleft.trans_lt hbound) hrest fuels).2.2.2 hpos
      fun m hm _ => hno m hm
    omega

/-- Two batches, a value filter and two interruptions: `(1, 5)` cancels, `(2, 9)` is dropped. -/
theorem calls_merge_two : ∃ s, start none (some fun v => decide (v < 9))
      [Batch.ofTuples [((1, 5, ()), (2 : ℤ)), ((2, 6, ()), 1), ((2, 9, ()), 1)],
        Batch.ofTuples [((1, 4, ()), 1), ((1, 5, ()), -2), ((2, 6, ()), 3), ((3, 7, ()), 1)]] =
      some s ∧
    (calls (mergeCursor none (some fun v : ℕ => decide (v < 9)))
      (.ofFrontier false () ()) 20 s [1, 1, 5]).builder.done =
      [((1 : ℕ), [(4, [((), 1)])]), (2, [(6, [((), 4)])]), (3, [(7, [((), 1)])])] := by
  refine ⟨_, rfl, ?_⟩
  refine ((calls_merge none (some fun v => decide (v < 9)) _ false (fun _ => inferInstance) () ()
    rfl (by decide) [1, 1, 5]).1 (by decide)).1.trans ?_
  decide

end

end Feldera.Trace.ListMerger
