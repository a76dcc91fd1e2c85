import Feldera.Algebra.Layered

/-!
Batches: keys over values over times and weights, each level sorted and free of
duplicates, no weight zero and nothing empty below a key or a value. Untimed
batches take `Unit` for their times. The layers are the data; `Batch` carries
the proof that they are well formed, so two batches that give every key, value
and time the same weight are equal.

`Builder` is the interface through which every operator writes a batch: weights
go below the next value, values below the next key, and what is still pending
when the batch is finished is dropped.
-/

namespace Feldera.Trace

open Weighted List

variable {K V T R : Type*}

instance lawful [LinearOrder K] : LawfulBEq K := inferInstance

instance lawfulFin {n : ℕ} : LawfulBEq (Fin n) := inferInstance

abbrev Vals (V T R : Type*) := List (V × List (T × R))

abbrev Layers (K V T R : Type*) := List (K × Vals V T R)

def Vals.tuples (vs : Vals V T R) : List ((V × T) × R) :=
  flat (fun ts => ts) vs

def Layers.tuples (b : Layers K V T R) : List ((K × V × T) × R) :=
  flat Vals.tuples b

section

variable [LinearOrder K] [LinearOrder V] [LinearOrder T] [AddCommMonoid R]

def Vals.weight (vs : Vals V T R) (x : V × T) : R :=
  Weighted.weight vs.tuples x

def Layers.weight (b : Layers K V T R) (x : K × V × T) : R :=
  Weighted.weight b.tuples x

@[simp] theorem Vals.weight_nil (x : V × T) : Vals.weight ([] : Vals V T R) x = 0 := rfl

theorem Vals.weight_cons (p : V × List (T × R)) (vs : Vals V T R) (v : V) (t : T) :
    Vals.weight (p :: vs) (v, t) =
      (if p.1 = v then Weighted.weight p.2 t else 0) + vs.weight (v, t) := by
  unfold Vals.weight
  rw [Vals.tuples, flat_cons, weight_append, weight_under]
  rfl

@[simp] theorem Vals.weight_append (us vs : Vals V T R) (x : V × T) :
    Vals.weight (us ++ vs) x = us.weight x + vs.weight x := by
  unfold Vals.weight
  rw [Vals.tuples, flat_append, Weighted.weight_append]
  rfl

@[simp] theorem Layers.weight_nil (x : K × V × T) :
    Layers.weight ([] : Layers K V T R) x = 0 := rfl

theorem Layers.weight_cons (p : K × Vals V T R) (b : Layers K V T R) (k : K) (x : V × T) :
    Layers.weight (p :: b) (k, x) =
      (if p.1 = k then p.2.weight x else 0) + b.weight (k, x) := by
  unfold Layers.weight
  rw [Layers.tuples, flat_cons, weight_append, weight_under]
  rfl

@[simp] theorem Layers.weight_append (b c : Layers K V T R) (x : K × V × T) :
    Layers.weight (b ++ c) x = b.weight x + c.weight x := by
  unfold Layers.weight
  rw [Layers.tuples, flat_append, Weighted.weight_append]
  rfl

def IsTimes (ts : List (T × R)) : Prop :=
  ts ≠ [] ∧ Consolidated ts

def IsVals (vs : Vals V T R) : Prop :=
  vs ≠ [] ∧ IsLayer IsTimes vs

def IsBatch (b : Layers K V T R) : Prop :=
  IsLayer IsVals b

structure Batch (K V T R : Type*) [LinearOrder K] [LinearOrder V] [LinearOrder T]
    [AddCommMonoid R] where
  layers : Layers K V T R
  isBatch : IsBatch layers

theorem faithful_times : Faithful (fun ts : List (T × R) => ts) IsTimes :=
  faithful_consolidated

theorem faithful_vals : Faithful (Vals.tuples (V := V) (T := T) (R := R)) IsVals :=
  faithful_times.layer

def Batch.weight (b : Batch K V T R) (x : K × V × T) : R :=
  b.layers.weight x

theorem IsBatch.ext {b c : Layers K V T R} (hb : IsBatch b) (hc : IsBatch c)
    (h : ∀ x, b.weight x = c.weight x) : b = c :=
  faithful_vals.layer_ext hb hc h

/-- Nothing that has no weight appears in a batch. -/
theorem IsBatch.exists_weight_ne_zero {b : Layers K V T R} (h : IsBatch b)
    {p : K × Vals V T R} (hp : p ∈ b) {q : V × List (T × R)} (hq : q ∈ p.2) :
    ∃ t, b.weight (p.1, q.1, t) ≠ 0 := by
  have hvals := (h.contents p hp).2
  obtain ⟨t, ht⟩ := faithful_times.nonzero q.2 (hvals.contents q hq)
  refine ⟨t, ?_⟩
  unfold Layers.weight Layers.tuples
  rw [weight_flat_of_mem h _ hp, Vals.tuples, weight_flat_of_mem hvals _ hq]
  exact ht

@[ext] theorem Batch.ext_weight {b c : Batch K V T R} (h : ∀ x, b.weight x = c.weight x) :
    b = c := by
  cases b with
  | mk b hb =>
    cases c with
    | mk c hc =>
      have hlayers : b = c := hb.ext hc h
      subst hlayers
      rfl

variable [DecidableEq R]

/-- `from_tuples`: sorts and consolidates the updates into layers. -/
def Layers.ofTuples (l : List ((K × V × T) × R)) : Layers K V T R :=
  layerOf (layerOf consolidate) l

variable (l : List ((K × V × T) × R))

theorem Layers.ofTuples_isBatch : IsBatch (Layers.ofTuples l) := by
  apply layerOf_isLayer
  intro m hm
  refine ⟨hm, layerOf_isLayer m ?_⟩
  intro n hn
  exact ⟨hn, consolidate_consolidated n⟩

theorem Layers.weight_ofTuples (x : K × V × T) :
    (Layers.ofTuples l).weight x = Weighted.weight l x := by
  refine weight_flat_layerOf l rfl ?_ x
  intro m y
  exact weight_flat_layerOf (f := fun ts => ts) m rfl weight_consolidate y

def Batch.ofTuples (l : List ((K × V × T) × R)) : Batch K V T R :=
  ⟨Layers.ofTuples l, Layers.ofTuples_isBatch l⟩

@[simp] theorem Batch.weight_ofTuples (x : K × V × T) :
    (Batch.ofTuples l).weight x = Weighted.weight l x :=
  Layers.weight_ofTuples l x

def Batch.add (b c : Batch K V T R) : Batch K V T R :=
  Batch.ofTuples (b.layers.tuples ++ c.layers.tuples)

@[simp] theorem Batch.weight_add (b c : Batch K V T R) (x : K × V × T) :
    (b.add c).weight x = b.weight x + c.weight x := by
  rw [Batch.add, weight_ofTuples, weight_append]
  rfl

end

section

/-- Values with weights, as they stand below a key of an untimed batch. -/
def Vals.untimed (l : List (V × R)) : Vals V Unit R :=
  l.map fun p => (p.1, [((), p.2)])

/-- The values and weights a cursor of an untimed batch sees. -/
def Vals.weights [AddCommMonoid R] (vs : Vals V Unit R) : List (V × R) :=
  vs.map fun p => (p.1, (p.2.map Prod.snd).sum)

/-- The values and weights below `k`; none when the batch does not hold `k`. -/
def Layers.valuesAt [DecidableEq K] [AddCommMonoid R] (b : Layers K V Unit R) (k : K) :
    List (V × R) :=
  below Vals.weights b k

variable [LinearOrder K] [LinearOrder V] [AddCommMonoid R]

theorem Vals.weight_untimed (l : List (V × R)) (v : V) :
    (Vals.untimed l).weight (v, ()) = Weighted.weight l v := by
  induction l with
  | nil => rfl
  | cons p l ih =>
    change Vals.weight ((p.1, [((), p.2)]) :: Vals.untimed l) (v, ()) = _
    rw [Vals.weight_cons, ih, Weighted.weight_cons]
    simp

theorem Vals.untimed_isVals {l : List (V × R)} (hne : l ≠ []) (hl : Consolidated l) :
    IsVals (Vals.untimed l) := by
  refine ⟨by simpa [Vals.untimed] using hne, ?_, ?_⟩
  · rw [Vals.untimed, pairwise_map]
    exact hl.sorted
  intro q hq
  obtain ⟨p, hp, rfl⟩ := mem_map.mp hq
  refine ⟨by simp, by simp, ?_⟩
  intro r hr
  rw [mem_singleton.mp hr]
  exact hl.nonzero p hp

private theorem weight_of_subsingleton [Subsingleton T] [DecidableEq T]
    (ts : List (T × R)) (t : T) : weight ts t = (ts.map Prod.snd).sum := by
  simp [weight, Subsingleton.elim _ t]

theorem Vals.weight_weights (vs : Vals V Unit R) (v : V) :
    Weighted.weight vs.weights v = vs.weight (v, ()) := by
  induction vs with
  | nil => rfl
  | cons p vs ih =>
    change Weighted.weight ((p.1, (p.2.map Prod.snd).sum) :: Vals.weights vs) v = _
    rw [Weighted.weight_cons, Vals.weight_cons, ih, weight_of_subsingleton]

theorem Vals.weights_consolidated {vs : Vals V Unit R} (h : IsVals vs) :
    Consolidated vs.weights := by
  refine ⟨?_, ?_⟩
  · rw [Vals.weights, pairwise_map]
    exact h.2.sorted
  · intro q hq
    obtain ⟨p, hp, rfl⟩ := mem_map.mp hq
    obtain ⟨c, hc⟩ := faithful_times.nonzero p.2 (h.2.contents p hp)
    rwa [weight_of_subsingleton] at hc

variable {b : Layers K V Unit R}

theorem IsBatch.weight_valuesAt (h : IsBatch b) (k : K) (v : V) :
    weight (b.valuesAt k) v = b.weight (k, v, ()) := by
  unfold Layers.valuesAt
  rw [weight_below h]
  induction b with
  | nil => rfl
  | cons p b ih =>
    rw [flat_cons, Weighted.weight_append, weight_under, Layers.weight_cons,
      Vals.weight_weights, ih h.tail]

theorem IsBatch.valuesAt_consolidated (h : IsBatch b) (k : K) : Consolidated (b.valuesAt k) := by
  rcases below_cases Vals.weights b k with hnil | ⟨p, hp, -, hval⟩
  · rw [Layers.valuesAt, hnil]
    exact Consolidated.nil
  · rw [Layers.valuesAt, hval]
    exact Vals.weights_consolidated (h.contents p hp)

end

/-- A batch under construction: finished keys, the values of the key that is
pushed next, and the weights of the value that is pushed next. -/
structure Builder (K V T R : Type*) where
  keys : Layers K V T R
  vals : Vals V T R
  diffs : List (T × R)

namespace Builder

def new : Builder K V T R := ⟨[], [], []⟩

variable (b : Builder K V T R)

def pushTimeDiff (t : T) (w : R) : Builder K V T R :=
  { b with diffs := b.diffs ++ [(t, w)] }

/-- `push_val`: the pending weights go below `v`. -/
def pushVal (v : V) : Builder K V T R :=
  { b with vals := b.vals ++ [(v, b.diffs)], diffs := [] }

/-- `push_key`: the pending values go below `k`. -/
def pushKey (k : K) : Builder K V T R :=
  { b with keys := b.keys ++ [(k, b.vals)], vals := [] }

/-- `done`: what no key was pushed for is dropped. -/
def done : Layers K V T R :=
  b.keys

def numTuples : Nat :=
  b.keys.tuples.length + b.vals.tuples.length + b.diffs.length

/-- `push_val_diff` for every pair of `l`, in untimed batches. -/
def pushValDiffs (b : Builder K V Unit R) (l : List (V × R)) : Builder K V Unit R :=
  l.foldl (fun b p => (b.pushTimeDiff () p.2).pushVal p.1) b

theorem pushValDiffs_eq (b : Builder K V Unit R) (l : List (V × R)) (hb : b.diffs = []) :
    b.pushValDiffs l =
      { b with vals := b.vals ++ Vals.untimed l } := by
  induction l generalizing b with
  | nil => simp [pushValDiffs, Vals.untimed]
  | cons p l ih =>
    have hstep : b.pushValDiffs (p :: l) =
        ((b.pushTimeDiff () p.2).pushVal p.1).pushValDiffs l := rfl
    rw [hstep, ih _ rfl]
    simp [pushVal, pushTimeDiff, hb, Vals.untimed]

end Builder

/-- `TupleBuilder`: takes whole updates in order. The key and the value of the last one are pushed
as soon as an update differs in them, and at the end. -/
structure TupleBuilder (K V T R : Type*) where
  builder : Builder K V T R
  kv : Option (K × V)

namespace TupleBuilder

def new : TupleBuilder K V T R := ⟨.new, none⟩

def numTuples (b : TupleBuilder K V T R) : Nat :=
  b.builder.numTuples

/-- `push_refs` and `push_vals`. -/
def pushRefs [DecidableEq K] [DecidableEq V] (b : TupleBuilder K V T R) (key : K) (val : V)
    (time : T) (weight : R) : TupleBuilder K V T R :=
  let builder := match b.kv with
    | none => b.builder
    | some (k, v) =>
      if k ≠ key then (b.builder.pushVal v).pushKey k
      else if v ≠ val then b.builder.pushVal v
      else b.builder
  ⟨builder.pushTimeDiff time weight, some (key, val)⟩

def done (b : TupleBuilder K V T R) : Layers K V T R :=
  match b.kv with
  | none => b.builder.done
  | some (k, v) => ((b.builder.pushVal v).pushKey k).done

def Tidy (b : TupleBuilder K V T R) : Prop :=
  b.kv = none → b.builder.vals = [] ∧ b.builder.diffs = []

theorem tidy_new : (new : TupleBuilder K V T R).Tidy := fun _ => ⟨rfl, rfl⟩

theorem tidy_pushRefs [DecidableEq K] [DecidableEq V] (b : TupleBuilder K V T R) (key : K)
    (val : V) (time : T) (weight : R) : (b.pushRefs key val time weight).Tidy := nofun

attribute [local simp] pushRefs done Builder.pushTimeDiff Builder.pushVal Builder.pushKey
  Builder.done Layers.weight_cons Vals.weight_cons

theorem weight_pushRefs [LinearOrder K] [LinearOrder V] [LinearOrder T] [AddCommMonoid R]
    {b : TupleBuilder K V T R} (h : b.Tidy) (key : K) (val : V) (time : T) (weight : R)
    (x : K × V × T) : (b.pushRefs key val time weight).done.weight x =
      b.done.weight x + if x = (key, val, time) then weight else 0 := by
  obtain ⟨k', v', t'⟩ := x
  have hkey : (k', v', t') = (key, val, time) ↔ key = k' ∧ val = v' ∧ time = t' := by
    simp only [Prod.mk.injEq, eq_comm]
  have hone : (if (k', v', t') = (key, val, time) then weight else 0) =
      if key = k' then (if val = v' then (if time = t' then weight else 0) else 0) else 0 := by
    simp only [hkey, ite_and]
  rw [hone]
  obtain ⟨builder, kv⟩ := b
  cases kv with
  | none =>
    obtain ⟨hvals, hdiffs⟩ := h rfl
    simp only at hvals hdiffs
    simp [hvals, hdiffs]
  | some kv =>
    obtain ⟨k, v⟩ := kv
    by_cases hk : k = key
    · by_cases hv : v = val
      · subst hk hv
        by_cases hk' : k = k'
        · by_cases hv' : v = v'
          · simp [hk', hv', add_assoc]
          · simp [hk', hv']
        · simp [hk']
      · subst hk
        by_cases hk' : k = k'
        · simp [hk', hv, add_assoc]
        · simp [hk', hv]
    · simp [hk, add_assoc]

section

variable [LinearOrder K] [LinearOrder V] [AddCommMonoid R]

/-- What has been pushed is sorted and consolidated. -/
structure Sound (b : TupleBuilder K V Unit R) : Prop where
  first : b.kv = none → b.builder = .new
  isBatch : IsBatch b.done

theorem sound_new : (new : TupleBuilder K V Unit R).Sound :=
  ⟨fun _ => rfl, IsLayer.nil _⟩

theorem isVals_singleton (v : V) {w : R} (hw : w ≠ 0) : IsVals [(v, [((), w)])] := by
  refine ⟨cons_ne_nil _ _, pairwise_singleton _ _, fun q hq => ?_⟩
  obtain rfl := mem_singleton.mp hq
  exact ⟨cons_ne_nil _ _, pairwise_singleton _ _, by simpa using hw⟩

theorem Sound.pushRefs {b : TupleBuilder K V Unit R} (h : b.Sound) {key : K} {val : V} {w : R}
    (hlt : ∀ kv ∈ b.kv, kv.1 < key ∨ kv.1 = key ∧ kv.2 < val) (hw : w ≠ 0) :
    (b.pushRefs key val () w).Sound := by
  refine ⟨nofun, ?_⟩
  obtain ⟨builder, kv⟩ := b
  cases kv with
  | none =>
    obtain rfl : builder = .new := h.first rfl
    exact isLayer_concat.mpr ⟨IsLayer.nil _, nofun, isVals_singleton val hw⟩
  | some kv =>
    obtain ⟨k, v⟩ := kv
    have hdone : IsBatch (builder.keys ++ [(k, builder.vals ++ [(v, builder.diffs)])]) := h.isBatch
    obtain ⟨hkeys, hbelow, hvals⟩ := isLayer_concat.mp hdone
    rcases hlt (k, v) rfl with hk | ⟨rfl, hv⟩
    · have hpush : (TupleBuilder.pushRefs ⟨builder, some (k, v)⟩ key val () w).done =
          builder.keys ++ [(k, builder.vals ++ [(v, builder.diffs)])] ++
            [(key, [(val, [((), w)])])] := by
        simp [TupleBuilder.pushRefs, hk.ne]
      rw [hpush]
      refine isLayer_concat.mpr ⟨hdone, fun q hq => ?_, isVals_singleton val hw⟩
      rcases mem_append.mp hq with hq | hq
      · exact (hbelow q hq).trans hk
      · obtain rfl := mem_singleton.mp hq
        exact hk
    · have hpush : (TupleBuilder.pushRefs ⟨builder, some (k, v)⟩ k val () w).done =
          builder.keys ++ [(k, builder.vals ++ [(v, builder.diffs)] ++ [(val, [((), w)])])] := by
        simp [TupleBuilder.pushRefs, hv.ne]
      rw [hpush]
      refine isLayer_concat.mpr ⟨hkeys, hbelow, by simp, ?_⟩
      obtain ⟨-, hlayer⟩ := hvals
      obtain ⟨-, hlast, -⟩ := isLayer_concat.mp hlayer
      refine isLayer_concat.mpr ⟨hlayer, fun q hq => ?_, ?_⟩
      · rcases mem_append.mp hq with hq | hq
        · exact (hlast q hq).trans hv
        · obtain rfl := mem_singleton.mp hq
          exact hv
      · exact (isVals_singleton val hw).2.contents _ mem_cons_self

end

end TupleBuilder

end Feldera.Trace
