import Feldera.Operator.AggregateNested
import Feldera.Operator.DistinctNestedRun

/-!
What `AggregateIncremental` and `Upsert` maintain, in the root circuit and in nested ones, and what
background merges change. In a nested circuit a merge may make updates of different transactions
cancel, and then fewer keys are noted: `AggregateIncremental` may yield less than over a trace that is
never merged, but only values that the output already has, so `Upsert` puts out the same.
-/

namespace Feldera.Operator.Aggregate

open Time Trace NestedSum Circuit List
open NestedTrace (Merge timeOfInterest timeOfInterest_spec)

variable {K V Out : Type*} [LinearOrder K] [LinearOrder V] [LinearOrder Out]

section

def rootMerges : During K V Out Unit := ⟨Merge.atRoot, Merge.atRoot⟩

variable (agg : Aggregator V Out) (chunkSize : ℕ)

def rootStep (s : State K V Out Unit) (x : Input K V Out) :
    State K V Out Unit × List (List (K × Option Out)) × List (Layers K Out Unit ℤ) :=
  step agg chunkSize rootMerges () x s

def rootAfter (history : List (Input K V Out)) : State K V Out Unit :=
  history.foldl (fun s x => (rootStep agg chunkSize s x).1) start

def rootOutputs : State K V Out Unit → List (Input K V Out) → List (Layers K Out Unit ℤ)
  | _, [] => []
  | s, x :: xs => (rootStep agg chunkSize s x).2.2 ++ rootOutputs (rootStep agg chunkSize s x).1 xs

def rootInputs (history : List (Input K V Out)) (k : K) : List (V × ℤ) :=
  history.flatMap fun x => x.input.inputs.flatMap fun b => b.layers.valuesAt k

variable {agg chunkSize} {x : Input K V Out} {s : State K V Out Unit} {k : K} {out : Out}
  (history : List (Input K V Out))

theorem rootOutputs_concat (x : Input K V Out) (s : State K V Out Unit) :
    rootOutputs agg chunkSize s (history ++ [x]) =
      rootOutputs agg chunkSize s history ++ (rootStep agg chunkSize
        (history.foldl (fun s x => (rootStep agg chunkSize s x).1) s) x).2.2 := by
  induction history generalizing s with
  | nil => exact append_nil _
  | cons y history ih =>
    rw [cons_append, rootOutputs, ih, rootOutputs, append_assoc]
    rfl

omit [LinearOrder K] [LinearOrder V] in
theorem keeps_atRoot (m : List (Merge K V)) : Keeps () (m.map Merge.atRoot) :=
  fun _ _ _ _ => rfl

/-- In the root circuit nothing is in the future. -/
theorem timeOfInterest_root (times : List (Unit × ℤ)) : timeOfInterest () times = none := by
  cases htime : timeOfInterest () times with
  | none => rfl
  | some t =>
    obtain ⟨p, -, hlate, -⟩ := (timeOfInterest_spec () times).1 t htime
    exact absurd hlate (by simp [Timestamp.lessEqual])

structure Maintains (agg : Aggregator V Out) (history : List (Input K V Out))
    (s : State K V Out Unit) : Prop where
  input : ∀ k v, through (s.trace.times k v) () = Weighted.weight (rootInputs history k) v
  output : ∀ k out, through (s.output.times k out) () =
    indicator (agg.aggregate (rootInputs history k)) out
  noted : s.keysOfInterest = []

theorem maintains_nil : Maintains agg [] (start : State K V Out Unit) :=
  ⟨fun _ _ => rfl, fun k out => by simp [rootInputs, agg.empty, indicator, start, through,
    TimedTrace.times, TimedTrace.group, TimedTrace.tuples, Weighted.restrict], rfl⟩

theorem weight_rootInputs_concat (v : V) :
    Weighted.weight (rootInputs (history ++ [x]) k) v =
      Weighted.weight (rootInputs history k) v + Snapshot.weight x.input.inputs (k, v, ()) := by
  rw [rootInputs, flatMap_append, Weighted.weight_append, flatMap_singleton,
    sum_flatMap_weight x.input.inputs]
  exact congrArg _ (congrArg sum (map_congr_left fun b _ => b.isBatch.weight_valuesAt k v))

theorem through_rootTrace (k : K) (v : V) :
    through ((x.input.traceBy Merge.atRoot () s.trace).times k v) () =
      through (s.trace.times k v) () + Snapshot.weight x.input.inputs (k, v, ()) := by
  have hmerges := (keeps_atRoot x.input.merges).through (s.trace.append () x.input.delta) k v
  rw [foldl_map] at hmerges
  rw [NestedTrace.Input.traceBy, hmerges, TimedTrace.through_append, ← x.input.weight_delta]
  rfl

/-- A transaction puts out the change of the aggregates. -/
theorem Maintains.step {history : List (Input K V Out)} (h : Maintains agg history s) (k : K)
    (out : Out) : ((rootStep agg chunkSize s x).2.2.map fun c => c.weight (k, out, ())).sum =
      indicator (agg.aggregate (rootInputs (history ++ [x]) k)) out -
        indicator (agg.aggregate (rootInputs history k)) out := by
  classical
  have hkeeps : ∀ m : List (Merge K Out), Keeps () (m.map
      (rootMerges : During K V Out Unit).output) := keeps_atRoot
  refine (step_output hkeeps).trans ?_
  have hvalue : valueOf agg () (x.input.traceBy (rootMerges : During K V Out Unit).input ()
      s.trace) k =
      agg.aggregate (rootInputs (history ++ [x]) k) := by
    refine agg.congr fun v => ?_
    rw [weight_cursorGroup, weight_rootInputs_concat, ← h.input]
    exact through_rootTrace k v
  split
  · rw [hvalue, h.output]
  · next hvisits =>
    have hzero : ∀ v, Snapshot.weight x.input.inputs (k, v, ()) = 0 := fun v => by
      by_contra hne
      exact hvisits (.inl ⟨v, hne⟩)
    have hsame : agg.aggregate (rootInputs (history ++ [x]) k) =
        agg.aggregate (rootInputs history k) :=
      agg.congr fun v => by rw [weight_rootInputs_concat, hzero, add_zero]
    rw [hsame, sub_self]

variable (agg : Aggregator V Out) (chunkSize : ℕ) (history : List (Input K V Out))

theorem maintains_rootAfter : Maintains agg history (rootAfter agg chunkSize history) := by
  induction history using reverseRecOn with
  | nil => exact maintains_nil
  | append_singleton history x ih =>
    have hafter : rootAfter agg chunkSize (history ++ [x]) =
        (rootStep agg chunkSize (rootAfter agg chunkSize history) x).1 := by
      simp [rootAfter]
    rw [hafter]
    refine ⟨fun k v => ?_, fun k out => ?_, eq_nil_iff_forall_not_mem.mpr ?_⟩
    · rw [weight_rootInputs_concat, ← ih.input]
      exact through_rootTrace k v
    · have hupserts : ∀ chunks : List (List (K × Option Out)), through ((upserts ()
          (fun step => (x.merges step).map (rootMerges : During K V Out Unit).output) 0
          (rootAfter agg chunkSize history).output chunks).1.times k out) () =
            indicator (agg.aggregate (rootInputs history k)) out := fun chunks =>
        upserts_induction (P := fun trace => through (trace.times k out) () = _)
          (fun j trace htrace => ((keeps_atRoot (x.merges j)).through trace k out).trans htrace)
          chunks (ih.output k out) 0
      refine (TimedTrace.through_append () _ _ k out ()).trans ?_
      rw [hupserts, if_pos (show Timestamp.lessEqual () () = true from rfl)]
      refine (congrArg _ ((x.weight_delta _ (k, out, ())).trans (ih.step k out))).trans ?_
      exact add_sub_cancel _ _
    · rintro ⟨t, k⟩ hnoted
      rcases step_noted.mp hnoted with ⟨hne, -⟩ | ⟨-, htime⟩
      · exact hne rfl
      · rw [timeOfInterest_root] at htime
        cases htime

theorem sum_rootOutputs (k : K) (out : Out) :
    ((rootOutputs agg chunkSize start history).map fun c => c.weight (k, out, ())).sum =
      indicator (agg.aggregate (rootInputs history k)) out := by
  induction history using reverseRecOn with
  | nil => rw [rootInputs, flatMap_nil, agg.empty]; rfl
  | append_singleton history x ih =>
    have hstep : ((rootStep agg chunkSize (rootAfter agg chunkSize history) x).2.2.map
        fun c => c.weight (k, out, ())).sum = _ :=
      (maintains_rootAfter agg chunkSize history).step k out
    rw [rootOutputs_concat, map_append, sum_append, ih]
    exact (congrArg _ hstep).trans (add_sub_cancel _ _)

end

/-- The output is the indexed Z-set of the aggregates: in nested circuits at every time, and in the
root circuit after every transaction. -/
theorem outputs_maintain_aggregates (agg : Aggregator V Out) (chunkSize : ℕ) :
    (∀ rows : List (List (Input K V Out)), (operator agg chunkSize).Settled start rows →
      ∀ k out o i, ∑ row ∈ Finset.range (o + 1), ∑ col ∈ Finset.range (i + 1),
          outputAt agg chunkSize rows k out row col =
        if agg.aggregate (groupInputs rows k (o + 1) (i + 1)) = some out then 1 else 0) ∧
      ∀ (history : List (Input K V Out)) k out,
        ((rootOutputs agg chunkSize start history).map fun c => c.weight (k, out, ())).sum =
          if agg.aggregate (rootInputs history k) = some out then 1 else 0 :=
  ⟨fun _ hsettled k out o i => sum_outputs (quiet_of_settled hsettled) k out (o + 1) (i + 1),
    sum_rootOutputs agg chunkSize⟩

def greatest : Aggregator ℕ ℕ where
  aggregate l := (Weighted.consolidate l).getLast?.map Prod.fst
  congr h := by rw [(Weighted.consolidate_eq_iff _ _).mpr h]
  empty := rfl

/-- A value that comes in late in the first transaction and goes as late in the second one; the
third one has another value. -/
def lateValue (merges : List (Merge ℕ ℕ)) : List (List (Input ℕ ℕ ℕ)) :=
  let quiet : Input ℕ ℕ ℕ := ⟨⟨[], .none, []⟩, .none, fun _ => []⟩
  let change (v : ℕ) (w : ℤ) (merges : List (Merge ℕ ℕ)) : Input ℕ ℕ ℕ :=
    ⟨⟨[.ofTuples [((0, v, ()), w)]], .none, merges⟩, .none, fun _ => []⟩
  [[quiet, change 0 1 [], quiet], [quiet, change 0 (-1) [], quiet],
    [change 1 1 merges, quiet, quiet]]

theorem outputs_maintain_aggregates_lateValue :
    (operator greatest 1).Settled start (lateValue []) ∧
      (∑ row ∈ Finset.range 3, ∑ col ∈ Finset.range 2,
        outputAt greatest 1 (lateValue []) 0 1 row col) = 1 := by
  have hsettled : (operator greatest 1).Settled start (lateValue []) := by decide +kernel
  have hvalue : greatest.aggregate (groupInputs (lateValue []) 0 3 2) = some 1 := by decide +kernel
  refine ⟨hsettled, ?_⟩
  rw [(outputs_maintain_aggregates greatest 1).1 _ hsettled 0 1 2 1, if_pos hvalue]

section

theorem inputAt_unmerged (rows : List (List (NestedTrace.Input K V))) :
    NestedTrace.inputAt (rows.map (map NestedTrace.Input.unmerged)) =
      NestedTrace.inputAt rows := by
  funext k v o i
  unfold NestedTrace.inputAt
  rw [NestedOperator.row_map, getElem?_map]
  cases (NestedOperator.row rows o)[i]? with
  | none => rfl
  | some x => rfl

theorem aggregateSum_unmerged (agg : Aggregator V Out) (rows : List (List (Input K V Out))) :
    aggregateSum agg (rows.map (map Input.unmerged)) = aggregateSum agg rows := by
  have hinputs : inputs (rows.map (map Input.unmerged)) =
      (inputs rows).map (map NestedTrace.Input.unmerged) := by
    simp [inputs, Function.comp_def, Input.unmerged]
  funext k out o i
  unfold aggregateSum
  rw [agg.congr fun v => ?_]
  rw [weight_groupInputs, weight_groupInputs, hinputs, inputAt_unmerged]

/-- The merges of the traces of a nested circuit change nothing in what `DistinctIncremental` puts
out, nor in what `AggregateIncremental` and `Upsert` put out. -/
theorem outputs_eq_unmerged (chunkSize : ℕ) :
    (∀ (rows : List (List (NestedTrace.Input K V))) k v o i,
        DistinctNested.outputAt chunkSize rows k v o i =
          DistinctNested.outputAt chunkSize (rows.map (List.map NestedTrace.Input.unmerged))
            k v o i) ∧
      ∀ (agg : Aggregator V Out) (rows : List (List (Input K V Out))),
        (operator agg chunkSize).Settled start rows → ∀ k out o i,
          outputAt agg chunkSize rows k out o i =
            outputAt agg chunkSize (rows.map (List.map Input.unmerged)) k out o i := by
  constructor
  · intro rows k v o i
    have hrow := NestedOperator.row_map NestedTrace.Input.unmerged rows o
    cases hx : (NestedOperator.row rows o)[i]? with
    | none =>
      have hx' : (NestedOperator.row (rows.map (List.map NestedTrace.Input.unmerged)) o)[i]? =
          none := by
        rw [hrow, List.getElem?_map, hx]
        rfl
      rw [DistinctNested.outputAt, NestedOperator.outputAt, hx, DistinctNested.outputAt,
        NestedOperator.outputAt, hx']
      rfl
    | some x =>
      have hx' : (NestedOperator.row (rows.map (List.map NestedTrace.Input.unmerged)) o)[i]? =
          some x.unmerged := by
        rw [hrow, List.getElem?_map, hx]
        rfl
      rw [DistinctNested.outputAt_eq_mixed hx, DistinctNested.outputAt_eq_mixed hx',
        inputAt_unmerged]
  · intro agg rows hsettled k out o i
    have hquiet := quiet_of_settled hsettled
    have hunmerged : Quiet agg (rows.map (List.map Input.unmerged)) := by
      intro k out o i hi
      rw [NestedOperator.row_map, List.length_map] at hi
      rw [aggregateSum_unmerged]
      exact hquiet k out o i hi
    rw [outputAt_eq_mixed hquiet, outputAt_eq_mixed hunmerged, aggregateSum_unmerged]

/-- A merge in the third transaction that joins all times with the frontier that the second one has
set. -/
def mergeAll : Merge ℕ ℕ := ⟨fun _ => true, fun _ _ => 1, 0⟩

theorem outputs_eq_unmerged_lateValue :
    (operator greatest 1).Settled start (lateValue [mergeAll]) ∧
      ∀ k out o i, outputAt greatest 1 (lateValue [mergeAll]) k out o i =
        outputAt greatest 1 ((lateValue [mergeAll]).map (List.map Input.unmerged)) k out o i := by
  have hsettled : (operator greatest 1).Settled start (lateValue [mergeAll]) := by decide +kernel
  exact ⟨hsettled, (outputs_eq_unmerged 1).2 greatest _ hsettled⟩

/-- With the merge the updates of the first value cancel, and `AggregateIncremental` does not yield
the value of the key a second time. -/
theorem yields_less_when_merged :
    (operator greatest 1).Settled start (lateValue [mergeAll]) ∧
      (operator greatest 1).Settled start ((lateValue [mergeAll]).map (List.map Input.unmerged)) ∧
      (yieldsAt greatest 1 (lateValue [mergeAll]) 2 1).flatten = [] ∧
      (yieldsAt greatest 1 ((lateValue [mergeAll]).map (List.map Input.unmerged)) 2 1).flatten =
        [(0, some 1)] := by
  refine ⟨?_, ?_, ?_, ?_⟩
  · decide +kernel
  · decide +kernel
  · decide +kernel
  · decide +kernel

end

end Feldera.Operator.Aggregate
