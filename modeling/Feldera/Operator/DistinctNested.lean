import Feldera.Algebra.SortedUnion
import Feldera.Operator.DistinctTotal
import Feldera.Operator.NestedTrace

/-!
`DistinctIncremental`: `distinct` in a nested circuit. The output at a time is the difference, in
both directions of time, of `distinct` of the sums of all inputs that are not after it. In every
iteration the operator evaluates the records of the input and those that it has noted for this
time in `keys_of_interest`; each evaluation notes the record for the next time at which older
updates of it become visible.
-/

namespace Feldera.Operator.DistinctNested

open Time Trace NestedSum SortedUnion Circuit List TupleBuilder
open DistinctTotal (distinct)
open NestedTrace

variable {K V : Type*} [LinearOrder K] [LinearOrder V]

/-- `keys_of_interest`: the records noted for each time, in the order in which they came. -/
abbrev KeysOfInterest (K V : Type*) := List (Nested × K × V)

structure State (K V : Type*) [LinearOrder K] [LinearOrder V] where
  trace : TimedTrace K V Nested ℤ
  keysOfInterest : KeysOfInterest K V
  emptyInput : Bool
  emptyOutput : Bool

/-- `init_distinct_vals`: the times at the corners of a cube of edge 1 below a time. -/
def initDistinctVals : ℕ → Option Nested → List (Option Nested)
  | 0, ts => [ts]
  | scope + 1, ts =>
    initDistinctVals scope (ts.bind (Nested.checkedRecede scope)) ++ initDistinctVals scope ts

/-- `partial_derivative`: the difference of the values at the corners in every direction. -/
def partialDerivative : ℕ → List ℤ → ℤ
  | 0, vals => vals.headD 0
  | scope + 1, vals =>
    partialDerivative scope (vals.drop (2 ^ scope)) + -partialDerivative scope (vals.take (2 ^ scope))

/-- The value of `distinct` at a corner; there is none before the first time. -/
def distinctVal (times : List (Nested × ℤ)) : Option Nested → ℤ
  | none => distinct 0
  | some ts => distinct (through times ts)

/-- The output of a record whose updates are `times`. -/
def outputWeight (time : Nested) (times : List (Nested × ℤ)) : ℤ :=
  partialDerivative 2 ((initDistinctVals 2 (some time)).map (distinctVal times))

/-- The state of `eval`: what is noted, the chunk that is being built, and the chunks that were
yielded. -/
structure Output (K V : Type*) where
  keysOfInterest : KeysOfInterest K V
  builder : TupleBuilder K V Unit ℤ
  out : List (Layers K V Unit ℤ)

/-- `eval_keyval`. The trace has the record where it shows times for it. -/
def evalKeyval (time : Nested) (trace : TimedTrace K V Nested ℤ) (key : K) (val : V)
    (s : Output K V) : Output K V :=
  let times := trace.times key val
  if times.isEmpty then s
  else
    { s with
      builder :=
        if outputWeight time times ≠ 0 then
          s.builder.pushRefs key val () (outputWeight time times)
        else s.builder
      keysOfInterest := s.keysOfInterest ++
        ((timeOfInterest time times).map fun t => (t, key, val)).toList }

variable (chunkSize : ℕ)

/-- `maybe_yield`: a full chunk is yielded. -/
def maybeYield (s : Output K V) : Output K V :=
  if chunkSize ≤ s.builder.numTuples then
    { s with builder := .new, out := s.out ++ [s.builder.done] }
  else s

variable (time : Nested)

def evalVals (trace : TimedTrace K V Nested ℤ) (key : K) (vals : List (V × ℤ)) (s : Output K V) :
    Output K V :=
  vals.foldl (fun s p => maybeYield chunkSize (evalKeyval time trace key p.1 s)) s

def evalKeys (trace : TimedTrace K V Nested ℤ) (keys : Entries K V ℤ) (s : Output K V) :
    Output K V :=
  keys.foldl (fun s p =>
    if (trace.group p.1).isEmpty then s else evalVals chunkSize time trace p.1 p.2 s) s

/-- The records that are noted for a time, as a batch. -/
def interesting (keysOfInterest : KeysOfInterest K V) : Batch K V Unit ℤ :=
  Batch.ofTuples ((keysOfInterest.filter fun p => decide (p.1 = time)).map
    fun p => ((p.2.1, p.2.2, ()), 1))

/-- The keys and values that the cursors of the input and of `keys_of_interest` visit. -/
def visited (delta : List (Batch K V Unit ℤ)) (keysOfInterest : KeysOfInterest K V) :
    Entries K V ℤ :=
  unionWith (unionWith fun w _ => w) (Snapshot.total delta).entries
    (interesting time keysOfInterest).entries

/-- `eval` with the input that is flushed and the trace that includes it. -/
def eval (delta : List (Batch K V Unit ℤ)) (trace : TimedTrace K V Nested ℤ) (s : State K V) :
    State K V × List (Layers K V Unit ℤ) :=
  let result := evalKeys chunkSize time trace (visited time delta s.keysOfInterest)
    ⟨s.keysOfInterest.filter fun p => decide (p.1 ≠ time), .new, []⟩
  let out := result.out ++ [result.builder.done]
  (⟨trace, result.keysOfInterest, delta.all fun b => b.layers.isEmpty,
    out.all fun c => c.isEmpty⟩, out)

/-- The operator with its trace. In the steps of an iteration before the one that flushes it puts
out empty batches. -/
def operator : NestedOperator (State K V) (Input K V) (List (Layers K V Unit ℤ)) where
  clockStart s := { s with emptyInput := false, emptyOutput := false }
  eval time x s :=
    let result := eval chunkSize time x.delta (x.trace time s.trace) s
    (result.1, (x.inputs.dropLast.map fun _ => []) ++ result.2)
  fixedpoint time s := s.emptyInput && s.emptyOutput &&
    s.keysOfInterest.all fun p => !Nested.withinEpoch p.1 time

def start : State K V := ⟨[], [], false, false⟩

def outputAt (chunkSize : ℕ) (rows : List (List (Input K V))) (k : K) (v : V) (o i : ℕ) : ℤ :=
  match (operator chunkSize).outputAt start rows o i with
  | none => 0
  | some out => (out.map fun c => c.weight (k, v, ())).sum

section

variable {time : Nested} {trace : TimedTrace K V Nested ℤ} {chunkSize : ℕ} {s : Output K V}

def Output.weight (s : Output K V) (x : K × V × Unit) : ℤ :=
  (s.out.map fun c => c.weight x).sum + s.builder.done.weight x

theorem outputWeight_nil (time : Nested) : outputWeight time [] = 0 := by
  have hzero : ∀ ts, distinctVal [] ts = 0 := by
    intro ts
    cases ts with
    | none => rfl
    | some ts => rfl
  have hmap : (initDistinctVals 2 (some time)).map (distinctVal []) = [0, 0, 0, 0] := by
    simp [initDistinctVals, hzero]
  rw [outputWeight, hmap]
  rfl

/-- What evaluating some records does: it puts out their weights and notes their times of
interest. -/
structure Evaluates (time : Nested) (trace : TimedTrace K V Nested ℤ) (records : List (K × V))
    (s s' : Output K V) : Prop where
  tidy : s'.builder.Tidy
  weight : ∀ k v, s'.weight (k, v, ()) = s.weight (k, v, ()) +
    (records.map fun r => if r = (k, v) then outputWeight time (trace.times k v) else 0).sum
  noted : ∀ t k v, (t, k, v) ∈ s'.keysOfInterest ↔ (t, k, v) ∈ s.keysOfInterest ∨
    (k, v) ∈ records ∧ timeOfInterest time (trace.times k v) = some t

theorem Evaluates.nil (h : s.builder.Tidy) : Evaluates time trace [] s s :=
  ⟨h, by simp, by simp⟩

theorem Evaluates.append {records records' : List (K × V)} {s' s'' : Output K V}
    (h : Evaluates time trace records s s') (h' : Evaluates time trace records' s' s'') :
    Evaluates time trace (records ++ records') s s'' where
  tidy := h'.tidy
  weight k v := by rw [h'.weight, h.weight, map_append, sum_append, add_assoc]
  noted t k v := by
    rw [h'.noted, h.noted, mem_append, or_and_right, or_assoc]

theorem evaluates_keyval (h : s.builder.Tidy) (key : K) (val : V) :
    Evaluates time trace [(key, val)] s (evalKeyval time trace key val s) := by
  cases htimes : (trace.times key val).isEmpty with
  | true =>
    have hnil : trace.times key val = [] := isEmpty_iff.mp htimes
    have hkeep : evalKeyval time trace key val s = s := if_pos htimes
    rw [hkeep]
    refine ⟨h, fun k v => ?_, fun t k v => ?_⟩
    · by_cases hrecord : (key, val) = (k, v)
      · cases hrecord
        simp [hnil, outputWeight_nil]
      · simp [hrecord]
    · by_cases hrecord : (k, v) = (key, val)
      · cases hrecord
        simp [hnil, timeOfInterest]
      · simp [hrecord]
  | false =>
    have hnext : evalKeyval time trace key val s =
        { s with
          builder :=
            if outputWeight time (trace.times key val) ≠ 0 then
              s.builder.pushRefs key val () (outputWeight time (trace.times key val))
            else s.builder
          keysOfInterest := s.keysOfInterest ++
            ((timeOfInterest time (trace.times key val)).map fun t => (t, key, val)).toList } :=
      if_neg (by simp [htimes])
    rw [hnext]
    refine ⟨?_, fun k v => ?_, fun t k v => ?_⟩
    · dsimp only
      split
      · exact tidy_pushRefs _ _ _ _ _
      · exact h
    · simp only [Output.weight, map_cons, map_nil, sum_cons, sum_nil, add_zero]
      by_cases hrecord : (key, val) = (k, v)
      · cases hrecord
        rw [if_pos rfl, add_assoc]
        congr 1
        split
        · rw [weight_pushRefs h, if_pos rfl]
        · next hzero => rw [not_not.mp hzero, add_zero]
      · have hne : ((k, v, ()) : K × V × Unit) ≠ (key, val, ()) := by
          simpa [Prod.ext_iff, eq_comm] using hrecord
        rw [if_neg hrecord, add_zero]
        congr 1
        split
        · rw [weight_pushRefs h, if_neg hne, add_zero]
        · rfl
    · simp only [mem_append, Option.mem_toList, Option.map_eq_some_iff, mem_singleton,
        Prod.mk.injEq]
      refine or_congr_right ⟨?_, ?_⟩
      · rintro ⟨t, ht, rfl, rfl, rfl⟩
        exact ⟨⟨rfl, rfl⟩, ht⟩
      · rintro ⟨⟨rfl, rfl⟩, ht⟩
        exact ⟨t, ht, rfl, rfl, rfl⟩

theorem Evaluates.maybeYield {records : List (K × V)} {s' : Output K V}
    (h : Evaluates time trace records s s') (chunkSize : ℕ) :
    Evaluates time trace records s (maybeYield chunkSize s') := by
  unfold DistinctNested.maybeYield
  split
  · refine ⟨tidy_new, fun k v => ?_, h.noted⟩
    rw [← h.weight]
    simp [Output.weight, done, new, Builder.done, Builder.new]
  · exact h

variable (chunkSize : ℕ)

theorem evaluates_vals (h : s.builder.Tidy) (key : K) (vals : List (V × ℤ)) :
    Evaluates time trace (vals.map fun p => (key, p.1)) s
      (evalVals chunkSize time trace key vals s) := by
  induction vals generalizing s with
  | nil => exact .nil h
  | cons p vals ih =>
    have hfirst : Evaluates time trace [(key, p.1)] s _ :=
      (evaluates_keyval h key p.1).maybeYield chunkSize
    exact hfirst.append (ih hfirst.tidy)

def records (keys : Entries K V ℤ) : List (K × V) :=
  keys.flatMap fun p => p.2.map fun q => (p.1, q.1)

theorem evaluates_keys (h : s.builder.Tidy) (keys : Entries K V ℤ) :
    Evaluates time trace (records keys) s (evalKeys chunkSize time trace keys s) := by
  induction keys generalizing s with
  | nil => exact .nil h
  | cons p keys ih =>
    have hfirst : Evaluates time trace (p.2.map fun q => (p.1, q.1)) s
        (if (trace.group p.1).isEmpty then s else evalVals chunkSize time trace p.1 p.2 s) := by
      cases hgroup : (trace.group p.1).isEmpty with
      | true =>
        -- No value of the key has any times.
        have hnil : ∀ v, trace.times p.1 v = [] := fun v => by
          rw [TimedTrace.times, isEmpty_iff.mp hgroup]
          rfl
        refine ⟨h, fun k v => ?_, fun t k v => ?_⟩
        · rw [if_pos rfl, sum_eq_zero, add_zero]
          intro w hw
          obtain ⟨r, hr, rfl⟩ := mem_map.mp hw
          obtain ⟨q, -, rfl⟩ := mem_map.mp hr
          split
          · next heq =>
            cases heq
            rw [hnil, outputWeight_nil]
          · rfl
        · rw [if_pos rfl]
          refine (or_iff_left ?_).symm
          rintro ⟨hr, ht⟩
          obtain ⟨q, -, heq⟩ := mem_map.mp hr
          cases heq
          rw [hnil] at ht
          cases ht
      | false => exact evaluates_vals chunkSize h p.1 p.2
    exact hfirst.append (ih hfirst.tidy)

end

section

variable {time : Nested} {delta : List (Batch K V Unit ℤ)} {keysOfInterest : KeysOfInterest K V}
  {k : K} {v : V}
  {keys : Entries K V ℤ}

omit [LinearOrder K] [LinearOrder V] in
theorem mem_records : (k, v) ∈ records keys ↔ ∃ p ∈ keys, p.1 = k ∧ ∃ q ∈ p.2, q.1 = v := by
  unfold records
  rw [mem_flatMap]
  refine exists_congr fun p => and_congr_right fun _ => ?_
  simp only [mem_map, Prod.mk.injEq]
  constructor
  · rintro ⟨q, hq, hk, hv⟩
    exact ⟨hk, q, hq, hv⟩
  · rintro ⟨hk, q, hq, hv⟩
    exact ⟨q, hq, hk, hv⟩

theorem nodup_records (hkeys : keys.Pairwise fun p q => p.1 < q.1)
    (hvals : ∀ p ∈ keys, p.2.Pairwise fun q r => q.1 < r.1) : (records keys).Nodup := by
  refine nodup_flatMap.mpr ⟨fun p hp => ?_, hkeys.imp_of_mem fun {p q} _ _ hlt => ?_⟩
  · rw [List.Nodup, pairwise_map]
    exact (hvals p hp).imp fun hlt heq => hlt.ne (Prod.mk.inj heq).2
  · rintro ⟨a, b⟩ hp hq
    obtain ⟨_, _, heq⟩ := mem_map.mp hp
    obtain ⟨_, _, heq'⟩ := mem_map.mp hq
    exact hlt.ne ((Prod.mk.inj heq).1.trans (Prod.mk.inj heq').1.symm)

theorem mem_records_entries (b : Batch K V Unit ℤ) :
    (k, v) ∈ records b.entries ↔ b.weight (k, v, ()) ≠ 0 := by
  rw [mem_records]
  constructor
  · rintro ⟨p, hp, rfl, q, hq, rfl⟩
    obtain ⟨-, hcons⟩ := b.vals_consolidated hp
    obtain ⟨hne, hweight⟩ := (hcons.mem_iff q.1 q.2).mp hq
    rw [← b.weight_of_mem_entries hp, hweight]
    exact hne
  · intro hne
    by_cases hk : k ∈ b.entries.map Prod.fst
    · obtain ⟨p, hp, rfl⟩ := mem_map.mp hk
      obtain ⟨-, hcons⟩ := b.vals_consolidated hp
      rw [← b.weight_of_mem_entries hp] at hne
      exact ⟨p, hp, rfl, (v, Weighted.weight p.2 v), (hcons.mem_iff v _).mpr ⟨hne, rfl⟩, rfl⟩
    · exact absurd (b.weight_of_not_mem_keys hk v) hne

theorem weight_ones_ne_zero {α : Type*} [DecidableEq α] (l : List α) (a : α) :
    Weighted.weight (l.map fun x => (x, (1 : ℤ))) a ≠ 0 ↔ a ∈ l := by
  have hcount : Weighted.weight (l.map fun x => (x, (1 : ℤ))) a = l.count a := by
    induction l with
    | nil => rfl
    | cons x l ih =>
      rw [map_cons, Weighted.weight_cons, ih, count_cons]
      by_cases hx : x = a
      · simp [hx, add_comm]
      · simp [hx]
  rw [hcount, Ne, Nat.cast_eq_zero, count_eq_zero, not_not]

theorem weight_interesting :
    (interesting time keysOfInterest).weight (k, v, ()) ≠ 0 ↔ (time, k, v) ∈ keysOfInterest := by
  have hones : (keysOfInterest.filter fun p => decide (p.1 = time)).map
      (fun p => (((p.2.1, p.2.2, ()) : K × V × Unit), (1 : ℤ))) =
      ((keysOfInterest.filter fun p => decide (p.1 = time)).map
        fun p => (p.2.1, p.2.2, ())).map fun x => (x, 1) := by
    rw [map_map]
    rfl
  rw [interesting, Batch.weight_ofTuples, hones, weight_ones_ne_zero]
  simp only [mem_map, mem_filter, decide_eq_true_eq, Prod.mk.injEq, and_true]
  constructor
  · rintro ⟨⟨t, k', v'⟩, ⟨hmem, rfl⟩, rfl, rfl⟩
    exact hmem
  · intro hmem
    exact ⟨(time, k, v), ⟨hmem, rfl⟩, rfl, rfl⟩

theorem mem_visited : (k, v) ∈ records (visited time delta keysOfInterest) ↔
    Snapshot.weight delta (k, v, ()) ≠ 0 ∨ (time, k, v) ∈ keysOfInterest := by
  have hvals : ∀ vals vals' : List (V × ℤ),
      (∃ q ∈ unionWith (fun w _ => w) vals vals', q.1 = v) ↔
        (∃ q ∈ vals, q.1 = v) ∨ ∃ q ∈ vals', q.1 = v := by
    intro vals vals'
    have hunion := (unionWith_spec (fun w _ => w) vals vals').exists_iff v
      (Q := fun _ => True) (by simp)
    simpa using hunion
  have hkeys := (unionWith_spec (unionWith fun w _ => w) (Snapshot.total delta).entries
    (interesting time keysOfInterest).entries).exists_iff k
    (Q := fun vals : List (V × ℤ) => ∃ q ∈ vals, q.1 = v) hvals
  rw [mem_records, visited, hkeys, ← mem_records, ← mem_records, mem_records_entries,
    mem_records_entries, Snapshot.weight_total, weight_interesting]

theorem nodup_visited : (records (visited time delta keysOfInterest)).Nodup := by
  have hsorted : ∀ b : Batch K V Unit ℤ, ∀ p ∈ b.entries, p.2.Pairwise fun q r => q.1 < r.1 :=
    fun b p hp => (b.vals_consolidated hp).2.sorted
  refine nodup_records ((unionWith_spec _ _ _).sorted (Batch.entries_ordered _)
    (Batch.entries_ordered _)) ?_
  exact (unionWith_spec _ _ _).forall_mem (fun vals vals' h h' => (unionWith_spec _ _ _).sorted h h')
    (hsorted _) (hsorted _)

end

section

variable {chunkSize : ℕ} {x : Input K V} {s : State K V} {time : Nested} {k : K} {v : V}

def Visits (time : Nested) (x : Input K V) (s : State K V) (k : K) (v : V) : Prop :=
  Snapshot.weight x.inputs (k, v, ()) ≠ 0 ∨ (time, k, v) ∈ s.keysOfInterest

theorem mem_visited_iff :
    (k, v) ∈ records (visited time x.delta s.keysOfInterest) ↔ Visits time x s k v := by
  rw [mem_visited, x.weight_delta]
  rfl

def result (chunkSize : ℕ) (time : Nested) (x : Input K V) (s : State K V) : Output K V :=
  evalKeys chunkSize time (x.trace time s.trace) (visited time x.delta s.keysOfInterest)
    ⟨s.keysOfInterest.filter fun p => decide (p.1 ≠ time), .new, []⟩

theorem evaluates_result (chunkSize : ℕ) (time : Nested) (x : Input K V) (s : State K V) :
    Evaluates time (x.trace time s.trace) (records (visited time x.delta s.keysOfInterest))
      ⟨s.keysOfInterest.filter fun p => decide (p.1 ≠ time), .new, []⟩
      (result chunkSize time x s) :=
  evaluates_keys chunkSize tidy_new _

theorem eval_noted (t : Nested) : (t, k, v) ∈ ((operator chunkSize).eval time x s).1.keysOfInterest ↔
    t ≠ time ∧ (t, k, v) ∈ s.keysOfInterest ∨
      Visits time x s k v ∧ timeOfInterest time ((x.trace time s.trace).times k v) = some t := by
  refine ((evaluates_result chunkSize time x s).noted t k v).trans
    (or_congr ?_ (and_congr_left' mem_visited_iff))
  simp [and_comm]

theorem eval_weight : (((operator chunkSize).eval time x s).2.map fun c => c.weight (k, v, ())).sum =
    (result chunkSize time x s).weight (k, v, ()) := by
  have hempty : ((x.inputs.dropLast.map fun _ => ([] : Layers K V Unit ℤ)).map
      fun c => Layers.weight c (k, v, ())).sum = 0 := by
    rw [map_map]
    exact sum_eq_zero fun c hc => by
      obtain ⟨b, -, rfl⟩ := mem_map.mp hc
      rfl
  have hout : ((operator chunkSize).eval time x s).2 = (x.inputs.dropLast.map fun _ => []) ++
      ((result chunkSize time x s).out ++ [(result chunkSize time x s).builder.done]) := rfl
  rw [hout, map_append, sum_append, hempty, zero_add, map_append, sum_append]
  simp [Output.weight]

theorem eval_output [Decidable (Visits time x s k v)] :
    (((operator chunkSize).eval time x s).2.map fun c => c.weight (k, v, ())).sum =
      if Visits time x s k v then outputWeight time ((x.trace time s.trace).times k v) else 0 := by
  have hzero : Output.weight (⟨s.keysOfInterest.filter fun p => decide (p.1 ≠ time), .new, []⟩ :
      Output K V) (k, v, ()) = 0 := by
    simp [Output.weight, done, new, Builder.done, Builder.new]
  rw [eval_weight, (evaluates_result chunkSize time x s).weight k v, hzero, zero_add,
    Weighted.sum_ite_of_nodup nodup_visited (k, v)]
  exact if_congr mem_visited_iff rfl rfl

end

end Feldera.Operator.DistinctNested
