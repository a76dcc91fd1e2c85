import Feldera.Trace.Batch

/-!
The k-way merge of batches, apart from any control flow. Several readers stand
somewhere in their batches; what a reader has left to read is again a list of
layers, whose first key may have lost some or all of its values. A builder
holds what has been written. Two kinds of moves make a merge: the readers whose
next value is the least one hand it over together, and when the values of the
least key are exhausted the key is written and its readers go on to their next key.
-/

namespace Feldera.Trace.LayerMerge

open Weighted List

variable {ι K V T R : Type*}

def stepVal : Layers K V T R → Layers K V T R
  | [] => []
  | (k, vs) :: rest => (k, vs.tail) :: rest

def valsAt [DecidableEq K] (k : K) : Layers K V T R → Vals V T R
  | [] => []
  | (k', vs) :: _ => if k' = k then vs else []

def headVal : Layers K V T R → Option (V × List (T × R))
  | [] => none
  | (_, vs) :: _ => vs.head?

def headKey (l : Layers K V T R) : Option K :=
  l.head?.map Prod.fst

theorem headKey_eq_some {l : Layers K V T R} {k : K} :
    headKey l = some k ↔ ∃ vs rest, l = (k, vs) :: rest := by
  cases l with
  | nil => simp [headKey]
  | cons p rest => simp [headKey, Prod.ext_iff, eq_comm]

variable (f : T → T)

def moveTimes (ts : List (T × R)) : List (T × R) :=
  ts.map fun p => (f p.1, p.2)

def moveVals (vs : Vals V T R) : Vals V T R :=
  vs.map fun p => (p.1, moveTimes f p.2)

def move (l : Layers K V T R) : Layers K V T R :=
  l.map fun p => (p.1, moveVals f p.2)

theorem tuples_move (l : Layers K V T R) :
    (move f l).tuples = l.tuples.map fun p => ((p.1.1, p.1.2.1, f p.1.2.2), p.2) := by
  simp [move, moveVals, moveTimes, Layers.tuples, Vals.tuples, flat, under, map_flatMap,
    flatMap_map, Function.comp_def]

section

variable [LinearOrder K] [LinearOrder V] [LinearOrder T] [AddCommMonoid R]

/-- What a reader of a batch may have left: values of the first key may be gone. -/
def IsRest : Layers K V T R → Prop
  | [] => True
  | (k, vs) :: rest => IsLayer IsTimes vs ∧ (∀ q ∈ rest, k < q.1) ∧ IsBatch rest

variable {l : Layers K V T R}

theorem IsBatch.isRest (h : IsBatch l) : IsRest l := by
  cases l with
  | nil => trivial
  | cons p rest =>
    obtain ⟨hp, hlt, hrest⟩ := isLayer_cons.mp h
    exact ⟨hp.2, hlt, hrest⟩

theorem IsRest.tail (h : IsRest l) : IsBatch l.tail := by
  cases l with
  | nil => exact IsLayer.nil _
  | cons p rest => exact h.2.2

theorem IsRest.stepVal (h : IsRest l) : IsRest (stepVal l) := by
  cases l with
  | nil => trivial
  | cons p rest =>
    refine ⟨?_, h.2⟩
    cases hvs : p.2 with
    | nil => exact IsLayer.nil _
    | cons q vs => exact (hvs ▸ h.1 : IsLayer IsTimes (q :: vs)).tail

variable [Fintype ι]

/-- The key `k` is in progress: `b` holds the finished keys and the values written so far
below `k`, and the readers `rem` have nothing left before `k` or, below `k`, before these
values. `total` is what is written in the end. -/
structure AtKey (f : T → T) (total : K × V × T → R) (k : K) (rem : ι → Layers K V T R)
    (b : Builder K V T R) : Prop where
  rest : ∀ i, IsRest (rem i)
  fresh : ∀ i, headKey (rem i) ≠ some k → IsBatch (rem i)
  key_le : ∀ i, ∀ k' ∈ headKey (rem i), k ≤ k'
  diffs : b.diffs = []
  isBatch : IsBatch b.keys
  keys_lt : ∀ q ∈ b.keys, q.1 < k
  vals : IsLayer IsTimes b.vals
  vals_lt : ∀ i, ∀ p ∈ b.vals, ∀ q ∈ valsAt k (rem i), p.1 < q.1
  conserved : ∀ k' x, b.keys.weight (k', x) + (if k = k' then b.vals.weight x else 0) +
    ∑ i, (move f (rem i)).weight (k', x) = total (k', x)

structure Between (f : T → T) (total : K × V × T → R) (rem : ι → Layers K V T R)
    (b : Builder K V T R) : Prop where
  rest : ∀ i, IsBatch (rem i)
  diffs : b.diffs = []
  vals : b.vals = []
  isBatch : IsBatch b.keys
  keys_lt : ∀ i, ∀ k ∈ headKey (rem i), ∀ q ∈ b.keys, q.1 < k
  conserved : ∀ x, b.keys.weight x + ∑ i, (move f (rem i)).weight x = total x

variable {rem : ι → Layers K V T R} {total : K × V × T → R} {b : Builder K V T R} {f : T → T}

/-- The least of the first keys is put in progress. -/
theorem Between.atKey (h : Between f total rem b) {k : K} {i : ι} (hi : headKey (rem i) = some k)
    (hmin : ∀ i, ∀ k' ∈ headKey (rem i), k ≤ k') :
    AtKey f total k rem b where
  rest i := IsBatch.isRest (h.rest i)
  fresh i _ := h.rest i
  key_le := hmin
  diffs := h.diffs
  isBatch := h.isBatch
  keys_lt := h.keys_lt i k hi
  vals := by
    rw [h.vals]
    exact IsLayer.nil _
  vals_lt := by simp [h.vals]
  conserved := by
    intro k' x
    rw [h.vals, Vals.weight_nil, ite_self, add_zero]
    exact h.conserved (k', x)

theorem Between.finished (h : Between f total rem b) (hrem : ∀ i, rem i = []) :
    IsBatch b.done ∧ ∀ x, b.done.weight x = total x := by
  refine ⟨h.isBatch, fun x => ?_⟩
  rw [← h.conserved x]
  simp [hrem, move, Builder.done]

end

section

variable {k : K} {l : Layers K V T R} {v : V} {idx : List ι} {rem : ι → Layers K V T R}

/-- The readers `idx` go on to their next value. -/
def handOver [DecidableEq ι] (rem : ι → Layers K V T R) (idx : List ι) (i : ι) :
    Layers K V T R :=
  if i ∈ idx then stepVal (rem i) else rem i

/-- Times and weights that the readers `idx` have for their next value. -/
def collected (f : T → T) (rem : ι → Layers K V T R) (idx : List ι) : List (T × R) :=
  idx.flatMap fun i => moveTimes f (((headVal (rem i)).map Prod.snd).getD [])

/-- Writes the value `v` with `td`, unless there is nothing to write. -/
def writeVal (b : Builder K V T R) (v : V) (td : List (T × R)) : Builder K V T R :=
  if td.isEmpty then b else { b with vals := b.vals ++ [(v, td)] }

/-- Writes the key `k`, unless no value has been written below it. -/
def writeKey (b : Builder K V T R) (k : K) : Builder K V T R :=
  if b.vals.isEmpty then b else b.pushKey k

variable (b : Builder K V T R)

@[simp] theorem writeVal_keys (v : V) (td : List (T × R)) : (writeVal b v td).keys = b.keys := by
  unfold writeVal
  split <;> rfl

@[simp] theorem writeVal_diffs (v : V) (td : List (T × R)) : (writeVal b v td).diffs = b.diffs := by
  unfold writeVal
  split <;> rfl

theorem head_mem_valsAt [LinearOrder K] {q : V × List (T × R)} (hkey : headKey l = some k)
    (hval : headVal l = some q) : ∃ vs, valsAt k l = q :: vs := by
  obtain ⟨vs, rest, rfl⟩ := headKey_eq_some.mp hkey
  obtain ⟨us, rfl⟩ := List.head?_eq_some_iff.mp hval
  exact ⟨us, if_pos rfl⟩

theorem headKey_handOver [DecidableEq ι] (rem : ι → Layers K V T R) (idx : List ι) (i : ι) :
    headKey (handOver rem idx i) = headKey (rem i) := by
  unfold handOver
  split
  · cases rem i <;> rfl
  · rfl

theorem valsAt_handOver [LinearOrder K] [DecidableEq ι]
    (hidx : ∀ i ∈ idx, headKey (rem i) = some k ∧ ∃ ts, headVal (rem i) = some (v, ts)) (i : ι)
    :
    valsAt k (handOver rem idx i) =
      if i ∈ idx then (valsAt k (rem i)).tail else valsAt k (rem i) := by
  unfold handOver
  by_cases hi : i ∈ idx
  · rw [if_pos hi, if_pos hi]
    obtain ⟨hkey, -⟩ := hidx i hi
    cases hl : rem i with
    | nil => rfl
    | cons p rest =>
      have hp : p.1 = k := by simpa [hl, headKey] using hkey
      simp [stepVal, valsAt, hp]
  · rw [if_neg hi, if_neg hi]

variable [AddCommMonoid R]

private theorem sum_map_ite (p : Prop) [Decidable p] (c : ι → R) (idx : List ι) :
    (idx.map fun i => if p then c i else 0).sum = if p then (idx.map c).sum else 0 := by
  by_cases hp : p <;> simp [hp]

/-- A sum over all readers, when the readers `idx` each lose a part. -/
theorem sum_eq_of_parts [Fintype ι] [DecidableEq ι] {g g' c : ι → R} (hnodup : idx.Nodup)
    (hin : ∀ i ∈ idx, g i = c i + g' i) (hout : ∀ i, i ∉ idx → g i = g' i) :
    ∑ i, g i = (idx.map c).sum + ∑ i, g' i := by
  have hpart : ∀ i, g i = (if i ∈ idx.toFinset then c i else 0) + g' i := by
    intro i
    by_cases hi : i ∈ idx
    · simp [hi, hin i hi]
    · simp [hi, hout i hi]
  rw [Finset.sum_congr rfl fun i _ => hpart i, Finset.sum_add_distrib,
    Finset.sum_ite_mem, Finset.univ_inter, sum_toFinset c hnodup]

variable [LinearOrder T] (f : T → T)

theorem weight_collected (rem : ι → Layers K V T R) (idx : List ι) (t : T) :
    weight (collected f rem idx) t =
      (idx.map fun i =>
        weight (moveTimes f (((headVal (rem i)).map Prod.snd).getD [])) t).sum := by
  induction idx with
  | nil => rfl
  | cons i idx ih =>
    rw [map_cons, sum_cons, ← ih, ← weight_append]
    rfl

variable [LinearOrder V]

theorem weight_writeVal (v v' : V) (td : List (T × R)) (t : T) :
    (writeVal b v td).vals.weight (v', t) =
      b.vals.weight (v', t) + if v = v' then weight td t else 0 := by
  unfold writeVal
  cases td with
  | nil => simp
  | cons p td => simp [Vals.weight_cons]

variable [LinearOrder K]

/-- The readers at `k` go on to their next key. -/
def nextKey (rem : ι → Layers K V T R) (k : K) (i : ι) : Layers K V T R :=
  if headKey (rem i) = some k then (rem i).tail else rem i

theorem weight_move_cons (k k' : K) (vs : Vals V T R) (rest : Layers K V T R) (x : V × T) :
    (move f ((k, vs) :: rest)).weight (k', x) =
      (if k = k' then (moveVals f vs).weight x else 0) + (move f rest).weight (k', x) :=
  Layers.weight_cons (k, moveVals f vs) (move f rest) k' x

theorem weight_move_cons_nil (k : K) (l : Layers K V T R) (x : K × V × T) :
    (move f ((k, []) :: l)).weight x = (move f l).weight x := by
  obtain ⟨k', y⟩ := x
  rw [weight_move_cons]
  simp [moveVals]

theorem weight_stepVal {ts : List (T × R)} (hkey : headKey l = some k)
    (hval : headVal l = some (v, ts)) (k' : K) (v' : V) (t : T) :
    (move f l).weight (k', v', t) =
      (if k = k' then if v = v' then weight (moveTimes f ts) t else 0 else 0) +
        (move f (stepVal l)).weight (k', v', t) := by
  obtain ⟨_, rest, rfl⟩ := headKey_eq_some.mp hkey
  obtain ⟨vs, rfl⟩ := List.head?_eq_some_iff.mp hval
  have hvals : (moveVals f ((v, ts) :: vs)).weight (v', t) =
      (if v = v' then weight (moveTimes f ts) t else 0) +
        (moveVals f vs).weight (v', t) :=
    Vals.weight_cons (v, moveTimes f ts) (moveVals f vs) v' t
  rw [stepVal, weight_move_cons, weight_move_cons, hvals]
  by_cases hk : k = k'
  · simp [hk, add_assoc]
  · simp [hk]

theorem IsRest.valsAt (h : IsRest l) (k : K) : IsLayer IsTimes (valsAt k l) := by
  cases l with
  | nil => exact IsLayer.nil _
  | cons p rest =>
    simp only [valsAt]
    split
    · exact h.1
    · exact IsLayer.nil _

variable [Fintype ι] {total : K × V × T → R} {b : Builder K V T R} {f : T → T}

/-- When the readers at `k` have no values left, the key is written and they go on. -/
theorem AtKey.nextKey (h : AtKey f total k rem b) (hdone : ∀ i, valsAt k (rem i) = []) :
    Between f total (nextKey rem k) (writeKey b k) := by
  have hnext : ∀ i, IsBatch (LayerMerge.nextKey rem k i) ∧
      (∀ k' ∈ headKey (LayerMerge.nextKey rem k i), k < k') ∧
      ∀ x, (move f (LayerMerge.nextKey rem k i)).weight x = (move f (rem i)).weight x := by
    intro i
    unfold LayerMerge.nextKey
    by_cases hi : headKey (rem i) = some k
    · rw [if_pos hi]
      obtain ⟨vs, rest, hl⟩ := headKey_eq_some.mp hi
      have hrest := h.rest i
      have hvs := hdone i
      rw [hl] at hrest hvs ⊢
      obtain rfl : vs = [] := (if_pos rfl).symm.trans hvs
      refine ⟨hrest.2.2, fun k' hk' => ?_, fun x => (weight_move_cons_nil f k rest x).symm⟩
      obtain ⟨q, hq, rfl⟩ := Option.map_eq_some_iff.mp hk'
      exact hrest.2.1 q (mem_of_mem_head? hq)
    · rw [if_neg hi]
      refine ⟨h.fresh i hi, ?_, fun _ => rfl⟩
      intro k' hk'
      refine lt_of_le_of_ne (h.key_le i k' hk') ?_
      rintro rfl
      exact hi hk'
  have hsum : ∀ x, ∑ i, (move f (LayerMerge.nextKey rem k i)).weight x =
      ∑ i, (move f (rem i)).weight x :=
    fun x => Finset.sum_congr rfl fun i _ => (hnext i).2.2 x
  cases hvals : b.vals with
  | nil =>
    have hwrite : writeKey b k = b := by
      simp [writeKey, hvals]
    rw [hwrite]
    refine ⟨fun i => (hnext i).1, h.diffs, hvals, h.isBatch, ?_, ?_⟩
    · intro i k' hk' q hq
      exact (h.keys_lt q hq).trans ((hnext i).2.1 k' hk')
    · rintro ⟨k', x⟩
      have hbefore := h.conserved k' x
      rw [hvals, Vals.weight_nil, ite_self, add_zero] at hbefore
      rw [hsum, hbefore]
  | cons p vs =>
    have hwrite : writeKey b k = ⟨b.keys ++ [(k, b.vals)], [], []⟩ := by
      simp [writeKey, hvals, Builder.pushKey, h.diffs]
    rw [hwrite]
    refine ⟨fun i => (hnext i).1, rfl, rfl, ?_, ?_, ?_⟩
    · exact isLayer_concat.mpr ⟨h.isBatch, h.keys_lt, by simp [hvals], h.vals⟩
    · intro i k' hk' q hq
      have hlt := (hnext i).2.1 k' hk'
      rcases mem_append.mp hq with hq | hq
      · exact (h.keys_lt q hq).trans hlt
      · rw [mem_singleton.mp hq]
        exact hlt
    · rintro ⟨k', x⟩
      rw [← h.conserved k' x, hsum, Layers.weight_append, Layers.weight_cons, Layers.weight_nil,
        add_zero]

variable [DecidableEq ι] [DecidableEq R]

/-- The readers `idx`, which are those at `k` whose next value is the least one, hand it
over. -/
theorem AtKey.handOver (h : AtKey f total k rem b) (hnodup : idx.Nodup)
    (hidx : ∀ i ∈ idx, headKey (rem i) = some k ∧ ∃ ts, headVal (rem i) = some (v, ts))
    (hmin : ∀ i, i ∉ idx → ∀ q ∈ valsAt k (rem i), v < q.1) :
    AtKey f total k (handOver rem idx) (writeVal b v (consolidate (collected f rem idx))) := by
  have hstep : ∀ i, valsAt k (LayerMerge.handOver rem idx i) ⊆ valsAt k (rem i) ∧
      ∀ q ∈ valsAt k (LayerMerge.handOver rem idx i), v < q.1 := by
    intro i
    rw [valsAt_handOver hidx]
    by_cases hi : i ∈ idx
    · rw [if_pos hi]
      obtain ⟨hkey, ts, hval⟩ := hidx i hi
      obtain ⟨vs, hvs⟩ := head_mem_valsAt hkey hval
      have hlayer := (h.rest i).valsAt k
      rw [hvs] at hlayer ⊢
      exact ⟨subset_cons_self _ _, (isLayer_cons.mp hlayer).2.1⟩
    · rw [if_neg hi]
      exact ⟨List.Subset.refl _, hmin i hi⟩
  have hconserved : ∀ k' v' t, ∑ i, (move f (rem i)).weight (k', v', t) =
      (if k = k' then
        if v = v' then Weighted.weight (consolidate (collected f rem idx)) t else 0 else 0) +
        ∑ i, (move f (LayerMerge.handOver rem idx i)).weight (k', v', t) := by
    intro k' v' t
    rw [weight_consolidate, weight_collected, ← sum_map_ite, ← sum_map_ite]
    refine sum_eq_of_parts hnodup ?_ ?_
    · intro i hi
      obtain ⟨hkey, ts, hval⟩ := hidx i hi
      rw [weight_stepVal f hkey hval]
      simp [LayerMerge.handOver, hi, hval]
    · intro i hi
      simp [LayerMerge.handOver, hi]
  refine ⟨?_, ?_, ?_, ?_, ?_, ?_, ?_, ?_, ?_⟩
  · intro i
    unfold LayerMerge.handOver
    split
    · exact (h.rest i).stepVal
    · exact h.rest i
  · intro i hi
    rw [headKey_handOver] at hi
    have hout : i ∉ idx := fun hmem => hi (hidx i hmem).1
    rw [LayerMerge.handOver, if_neg hout]
    exact h.fresh i hi
  · intro i
    rw [headKey_handOver]
    exact h.key_le i
  · rw [writeVal_diffs]
    exact h.diffs
  · rw [writeVal_keys]
    exact h.isBatch
  · rw [writeVal_keys]
    exact h.keys_lt
  · unfold writeVal
    split
    · exact h.vals
    · next hne =>
      refine isLayer_concat.mpr ⟨h.vals, ?_, ?_⟩
      · -- some reader hands over `v`, and what is written lies before its values
        intro p hp
        cases idx with
        | nil => exact absurd rfl hne
        | cons i idx =>
          obtain ⟨hkey, ts, hval⟩ := hidx i (by simp)
          obtain ⟨vs, hvs⟩ := head_mem_valsAt hkey hval
          exact h.vals_lt i p hp (v, ts) (by simp [hvs])
      · exact ⟨by simpa using hne, consolidate_consolidated _⟩
  · intro i p hp q hq
    unfold writeVal at hp
    split at hp
    · exact h.vals_lt i p hp q ((hstep i).1 hq)
    · rcases mem_append.mp hp with hp | hp
      · exact h.vals_lt i p hp q ((hstep i).1 hq)
      · rw [mem_singleton.mp hp]
        exact (hstep i).2 q hq
  · rintro k' ⟨v', t⟩
    have hbefore := h.conserved k' (v', t)
    rw [hconserved] at hbefore
    rw [writeVal_keys, weight_writeVal, ← hbefore]
    by_cases hk : k = k'
    · simp only [if_pos hk, add_assoc]
    · simp only [if_neg hk, zero_add, add_zero]

end

section

variable [LinearOrder K] [LinearOrder V] [LinearOrder T] [AddCommMonoid R] [Fintype ι]

def SameAt (k : K) (l l' : Layers K V T R) : Prop :=
  l' = l ∨ l = (k, []) :: l' ∨ (l' = (k, []) :: l ∧ headKey l ≠ some k)

variable {k : K} {l : Layers K V T R}

theorem lt_of_headKey_lt (h : IsBatch l) (hlt : ∀ k' ∈ headKey l, k < k') : ∀ q ∈ l, k < q.1 := by
  cases l with
  | nil => simp
  | cons p rest =>
    have hp := hlt p.1 rfl
    intro q hq
    rcases mem_cons.mp hq with rfl | hq
    · exact hp
    · exact hp.trans ((isLayer_cons.mp h).2.1 q hq)

omit [LinearOrder V] [LinearOrder T] [AddCommMonoid R] in
theorem valsAt_eq_nil_of_lt (hlt : ∀ k' ∈ headKey l, k < k') : valsAt k l = [] := by
  cases l with
  | nil => rfl
  | cons p rest => exact if_neg (hlt p.1 rfl).ne'

variable {total : K × V × T → R} {b : Builder K V T R} {f : T → T}

/-- A reader that stands on an exhausted `k` may as well stand behind it. -/
theorem AtKey.congr {rem rem' : ι → Layers K V T R} (h : AtKey f total k rem b)
    (hsame : ∀ i, SameAt k (rem i) (rem' i)) : AtKey f total k rem' b := by
  have hparts : ∀ i, IsRest (rem' i) ∧ (headKey (rem' i) ≠ some k → IsBatch (rem' i)) ∧
      (∀ k' ∈ headKey (rem' i), k ≤ k') ∧ valsAt k (rem' i) = valsAt k (rem i) ∧
      ∀ x, (move f (rem' i)).weight x = (move f (rem i)).weight x := by
    intro i
    rcases hsame i with hi | hi | ⟨hi, hne⟩
    · rw [hi]
      exact ⟨h.rest i, h.fresh i, h.key_le i, rfl, fun _ => rfl⟩
    · have hrest := h.rest i
      rw [hi] at hrest
      obtain ⟨-, hlt, hbatch⟩ := hrest
      have hhead : ∀ k' ∈ headKey (rem' i), k < k' := by
        intro k' hk'
        obtain ⟨q, hq, rfl⟩ := Option.map_eq_some_iff.mp hk'
        exact hlt q (mem_of_mem_head? hq)
      refine ⟨IsBatch.isRest hbatch, fun _ => hbatch, fun k' hk' => (hhead k' hk').le, ?_, ?_⟩
      · rw [valsAt_eq_nil_of_lt hhead, hi]
        simp [valsAt]
      · intro x
        rw [hi, weight_move_cons_nil]
    · have hbatch := h.fresh i hne
      have hhead : ∀ k' ∈ headKey (rem i), k < k' := by
        intro k' hk'
        refine lt_of_le_of_ne (h.key_le i k' hk') ?_
        rintro rfl
        exact hne hk'
      rw [hi]
      refine ⟨⟨IsLayer.nil _, lt_of_headKey_lt hbatch hhead, hbatch⟩,
        fun hne' => absurd rfl hne', ?_, ?_, weight_move_cons_nil f k _⟩
      · rintro k' ⟨⟩
        exact le_rfl
      · rw [valsAt_eq_nil_of_lt hhead]
        simp [valsAt]
  exact
    { rest := fun i => (hparts i).1
      fresh := fun i => (hparts i).2.1
      key_le := fun i => (hparts i).2.2.1
      diffs := h.diffs
      isBatch := h.isBatch
      keys_lt := h.keys_lt
      vals := h.vals
      vals_lt := fun i => by
        rw [(hparts i).2.2.2.1]
        exact h.vals_lt i
      conserved := fun k' x => by
        simp only [fun i => (hparts i).2.2.2.2 (k', x)]
        exact h.conserved k' x }

/-- A key of which nothing has been written is not in progress. -/
theorem AtKey.between {rem : ι → Layers K V T R} (h : AtKey f total k rem b)
    (hvals : b.vals = []) (hbatch : ∀ i, IsBatch (rem i)) : Between f total rem b where
  rest := hbatch
  diffs := h.diffs
  vals := hvals
  isBatch := h.isBatch
  keys_lt i k' hk' q hq := (h.keys_lt q hq).trans_le (h.key_le i k' hk')
  conserved := by
    rintro ⟨k', x⟩
    have hconserved := h.conserved k' x
    rw [hvals, Vals.weight_nil, ite_self, add_zero] at hconserved
    exact hconserved

end

section

def size (l : Layers K V T R) : Nat :=
  (l.map fun p => p.2.length + 1).sum

@[simp] theorem size_nil : size ([] : Layers K V T R) = 0 := rfl

@[simp] theorem size_cons (p : K × Vals V T R) (l : Layers K V T R) :
    size (p :: l) = p.2.length + 1 + size l := rfl

variable {l : Layers K V T R}

theorem size_stepVal (h : (headVal l).isSome) : size (stepVal l) + 1 = size l := by
  cases l with
  | nil => simp [headVal] at h
  | cons p rest =>
    cases hvs : p.2 with
    | nil => simp [headVal, hvs] at h
    | cons q vs =>
      simp only [size, stepVal, hvs, tail_cons, map_cons, sum_cons,
        length_cons]
      omega

theorem size_tail (h : (headKey l).isSome) : size l.tail < size l := by
  cases l with
  | nil => simp [headKey] at h
  | cons p rest =>
    simp only [size, tail_cons, map_cons, sum_cons]
    omega

variable [Fintype ι] [DecidableEq ι] {rem : ι → Layers K V T R}

theorem size_handOver {idx : List ι} (hne : idx ≠ [])
    (hidx : ∀ i ∈ idx, (headVal (rem i)).isSome) :
    ∑ i, size (handOver rem idx i) < ∑ i, size (rem i) := by
  obtain ⟨i, hi⟩ := exists_mem_of_ne_nil idx hne
  apply Finset.sum_lt_sum
  · intro j _
    unfold handOver
    split
    · next hj => exact (size_stepVal (hidx j hj)).le.trans' (Nat.le_succ _)
    · exact le_rfl
  · refine ⟨i, Finset.mem_univ i, ?_⟩
    rw [handOver, if_pos hi]
    have := size_stepVal (hidx i hi)
    omega

omit [DecidableEq ι] in
theorem size_nextKey [LinearOrder K] {k : K} {i : ι} (hi : headKey (rem i) = some k) :
    ∑ i, size (nextKey rem k i) < ∑ i, size (rem i) := by
  apply Finset.sum_lt_sum
  · intro j _
    unfold nextKey
    split
    · next hj => exact (size_tail (by simp [hj])).le
    · exact le_rfl
  · refine ⟨i, Finset.mem_univ i, ?_⟩
    rw [nextKey, if_pos hi]
    exact size_tail (by simp [hi])

end

end Feldera.Trace.LayerMerge
