import Feldera.Operator.GroupTransform

/-!
The circuit around `GroupTransform`, over any number of transactions. The operator reads the
accumulated changes, the delayed trace of its input and the delayed trace of its own output; what
it puts out is accumulated again and appended to the latter at the end of the transaction.
-/

namespace Feldera.Operator.GroupTransform

open Trace OrderedSum Weighted List
open Snapshot hiding weight

universe u

variable {K V O : Type u} [LinearOrder K] [LinearOrder V] [LinearOrder O]

/-- A transformer that works with any cursors; the number bounds the rounds of its loops. -/
abbrev Transforming (V O : Type u) [LinearOrder V] [LinearOrder O] :=
  ∀ {δ ι ο : Type u}, Cursor δ V Unit ℤ → Cursor ι V Unit ℤ → Cursor ο O Unit ℤ → Nat →
    GroupTransformer δ ι ο O

structure Transaction (K V O : Type u) [LinearOrder K] [LinearOrder V] [LinearOrder O] where
  inputs : List (Batch K V Unit ℤ)
  accumulated : Merging K V ℤ
  merging : Merging K V ℤ
  outputMerging : Merging K O ℤ
  outputAccumulated : Merging K O ℤ
  chunkSize : Nat

structure Traces (K V O : Type u) [LinearOrder K] [LinearOrder V] [LinearOrder O] where
  input : List (Batch K V Unit ℤ)
  output : List (Batch K O Unit ℤ)

variable (filter : KeyFilter K V ℤ) (outputFilter : KeyFilter K O ℤ) (T : Transforming V O)

namespace Transaction

variable (t : Transaction K V O)

/-- `Accumulator::eval`: the spine that is flushed. Batches without updates are not inserted. -/
def delta : List (Batch K V Unit ℤ) :=
  t.accumulated.merge (t.inputs.filter fun b => !b.layers.isEmpty)

variable (s : Traces K V O)

def snapshots : Traces K V O :=
  ⟨t.merging.merge s.input, t.outputMerging.merge s.output⟩

/-- More rounds than any loop over a group takes. -/
def limit : Nat :=
  2 * (volume (Snapshot.total t.delta).entries +
    volume (Snapshot.total (t.snapshots s).input).entries) +
    volume (Snapshot.total (t.snapshots s).output).entries + 1

/-- What the operator yields when it is flushed. -/
def chunks : List (Layers K O Unit ℤ) :=
  let D := Snapshot.cursor filter t.delta
  let I := Snapshot.cursor filter (t.snapshots s).input
  let X := Snapshot.cursor outputFilter (t.snapshots s).output
  eval D I X (T (groupCursor D) (groupCursor I) (groupCursor X) (t.limit s)) t.chunkSize (t.limit s)
    (Snapshot.start filter t.delta) (Snapshot.start filter (t.snapshots s).input)
    (Snapshot.start outputFilter (t.snapshots s).output)

/-- Everything that the operator yields: an empty batch in every step before the last one, which
flushes. -/
def outputs : List (Layers K O Unit ℤ) :=
  (t.inputs.dropLast.map fun _ => []) ++ t.chunks filter outputFilter T s

/-- The traces after the transaction. The chunks are appended as the batches they are. -/
def append : Traces K V O where
  input := (t.snapshots s).input ++ t.delta
  output := (t.snapshots s).output ++ t.outputAccumulated.merge
    (((t.outputs filter outputFilter T s).map fun c => Batch.ofTuples c.tuples).filter
      fun b => !b.layers.isEmpty)

end Transaction

variable (history : List (Transaction K V O))

def tracesAfter : Traces K V O :=
  history.foldl (fun s t => t.append filter outputFilter T s) ⟨[], []⟩

def outputsFrom (s : Traces K V O) : List (Transaction K V O) → List (Layers K O Unit ℤ)
  | [] => []
  | t :: history =>
    t.outputs filter outputFilter T s ++ outputsFrom (t.append filter outputFilter T s) history

def outputs : List (Layers K O Unit ℤ) :=
  outputsFrom filter outputFilter T ⟨[], []⟩ history

def group (k : K) : List (V × ℤ) :=
  valuesAt (Snapshot.total (history.flatMap (·.inputs))).entries k

variable (history : List (Transaction K V O)) (k : K)

theorem group_consolidated : Consolidated (group history k) :=
  Batch.valuesAt_consolidated _ k

theorem weight_group (v : V) :
    weight (group history k) v = (history.map fun t => Snapshot.weight t.inputs (k, v, ())).sum := by
  rw [group, Batch.weight_valuesAt, weight_total]
  unfold Snapshot.weight
  induction history with
  | nil => rfl
  | cons t history ih => simp [ih]

theorem weight_append (bs cs : List (Batch K V Unit ℤ)) (x : K × V × Unit) :
    Snapshot.weight (bs ++ cs) x = Snapshot.weight bs x + Snapshot.weight cs x := by
  simp [Snapshot.weight]

variable (t : Transaction K V O)

theorem Transaction.weight_delta (x : K × V × Unit) :
    Snapshot.weight t.delta x = Snapshot.weight t.inputs x :=
  (t.accumulated.weight_eq _ x).trans (weight_filter_nonempty t.inputs x)

theorem tracesAfter_concat :
    tracesAfter filter outputFilter T (history ++ [t]) =
      t.append filter outputFilter T (tracesAfter filter outputFilter T history) := by
  simp [tracesAfter]

theorem outputs_concat :
    outputs filter outputFilter T (history ++ [t]) = outputs filter outputFilter T history ++
      t.outputs filter outputFilter T (tracesAfter filter outputFilter T history) := by
  unfold outputs tracesAfter
  generalize (⟨[], []⟩ : Traces K V O) = s
  induction history generalizing s with
  | nil => simp [outputsFrom]
  | cons t' history ih => simp [outputsFrom, ih]

theorem weight_tracesAfter_input (v : V) :
    Snapshot.weight (tracesAfter filter outputFilter T history).input (k, v, ()) =
      weight (group history k) v := by
  rw [weight_group]
  induction history using reverseRecOn with
  | nil => rfl
  | append_singleton history t ih =>
    have hmerge : Snapshot.weight
        (t.snapshots (tracesAfter filter outputFilter T history)).input (k, v, ()) =
          Snapshot.weight (tracesAfter filter outputFilter T history).input (k, v, ()) :=
      t.merging.weight_eq _ _
    rw [tracesAfter_concat, Transaction.append, weight_append, hmerge, ih, t.weight_delta]
    simp

theorem valuesAt_length_le (b : Batch K V Unit ℤ) (k : K) :
    (valuesAt b.entries k).length ≤ volume b.entries := by
  by_cases hk : k ∈ b.entries.map Prod.fst
  · obtain ⟨r, hr, rfl⟩ := mem_map.mp hk
    rw [valuesAt_of_mem b.entries_ordered hr]
    exact vals_length_le_volume hr
  · rw [valuesAt_of_not_mem hk]
    exact Nat.zero_le _

theorem valuesAt_snapshot (k : K) :
    valuesAt (total (t.snapshots (tracesAfter filter outputFilter T history)).input).entries k =
        group history k := by
  refine Consolidated.ext (Batch.valuesAt_consolidated _ k) (group_consolidated history k)
    fun v => ?_
  rw [Batch.weight_valuesAt, weight_total, ← weight_tracesAfter_input filter outputFilter T]
  exact t.merging.weight_eq _ _

theorem valuesAt_total (k : K) :
    valuesAt ((total t.delta).add (total
      (t.snapshots (tracesAfter filter outputFilter T history)).input)).entries k =
        group (history ++ [t]) k := by
  refine Consolidated.ext (Batch.valuesAt_consolidated _ k) (group_consolidated _ k) fun v => ?_
  have hinput := congrArg (fun l => weight l v)
    (valuesAt_snapshot filter outputFilter T history t k)
  rw [Batch.weight_valuesAt] at hinput
  rw [Batch.weight_valuesAt, Batch.weight_add, hinput, weight_total, t.weight_delta,
    weight_group, weight_group]
  simp [add_comm]

section

variable {filter outputFilter} {T} {F : List (V × ℤ) → O → ℤ}

/-- The empty batches before the flush add nothing. -/
theorem Transaction.weight_outputs (s : Traces K V O) (x : K × O × Unit) :
    ((t.outputs filter outputFilter T s).map fun c => c.weight x).sum =
      ((t.chunks filter outputFilter T s).map fun c => c.weight x).sum := by
  have hempty : ((t.inputs.dropLast.map fun _ => ([] : Layers K O Unit ℤ)).map
      fun c => Layers.weight c x).sum = 0 := by
    rw [map_map]
    refine sum_eq_zero fun c hc => ?_
    obtain ⟨b, -, rfl⟩ := mem_map.mp hc
    rfl
  rw [Transaction.outputs, map_append, sum_append, hempty, zero_add]

variable (hT : ∀ {δ ι ο : Type u} (D : Cursor δ V Unit ℤ) (I : Cursor ι V Unit ℤ)
  (X : Cursor ο O Unit ℤ) (limit : Nat), (T D I X limit).Realizes D I X limit F)
include hT

/-- One transaction, if the trace of the output holds the output groups. -/
theorem chunks_spec
    (hold : ∀ k o, Snapshot.weight (tracesAfter filter outputFilter T history).output (k, o, ()) =
      F (group history k) o) :
    (∀ c ∈ t.chunks filter outputFilter T (tracesAfter filter outputFilter T history), IsBatch c) ∧
      ∀ k o, ((t.chunks filter outputFilter T
        (tracesAfter filter outputFilter T history)).map fun c => c.weight (k, o, ())).sum =
          F (group (history ++ [t]) k) o - F (group history k) o := by
  generalize hs : tracesAfter filter outputFilter T history = s at hold
  have hinput := valuesAt_snapshot filter outputFilter T history t
  have htotal := valuesAt_total filter outputFilter T history t
  rw [hs] at hinput htotal
  have houtput : ∀ k o, (total (t.snapshots s).output).weight (k, o, ()) =
      F (valuesAt (total (t.snapshots s).input).entries k) o := by
    intro k o
    rw [weight_total, hinput k, ← hold k o]
    exact t.outputMerging.weight_eq _ _
  have hlimit : ∀ r ∈ (total t.delta).entries,
      2 * (r.2.length + (valuesAt (total (t.snapshots s).input).entries r.1).length) +
        (valuesAt (total (t.snapshots s).output).entries r.1).length < t.limit s := by
    intro r hr
    have hdelta := vals_length_le_volume hr
    have hin := valuesAt_length_le (total (t.snapshots s).input) r.1
    have hout := valuesAt_length_le (total (t.snapshots s).output) r.1
    unfold Transaction.limit
    omega
  have hrounds : (total t.delta).entries.length < t.limit s := by
    have hdelta := length_le_volume (total t.delta).entries
    unfold Transaction.limit
    omega
  obtain ⟨hbatch, hweight⟩ := eval_spec (lawful filter t.delta)
    (lawful filter (t.snapshots s).input)
    (lawful outputFilter (t.snapshots s).output)
    (able filter (t.snapshots s).input) (able outputFilter (t.snapshots s).output)
    (hT _ _ _ (t.limit s)) t.chunkSize houtput hlimit (firm_start filter t.delta)
    (firm_start filter (t.snapshots s).input)
    (firm_start outputFilter (t.snapshots s).output) hrounds
  refine ⟨hbatch, fun k o => ?_⟩
  rw [← htotal k, ← hinput k]
  exact hweight k o

variable (hnil : ∀ o, F [] o = 0)
include hnil

variable (history : List (Transaction K V O)) (k : K) (o : O)

theorem weight_tracesAfter_output :
    Snapshot.weight (tracesAfter filter outputFilter T history).output (k, o, ()) =
      F (group history k) o := by
  induction history using reverseRecOn generalizing k o with
  | nil => exact (hnil o).symm
  | append_singleton history t ih =>
    obtain ⟨-, hweight⟩ := chunks_spec history t hT ih
    have hmerge : Snapshot.weight
        (t.snapshots (tracesAfter filter outputFilter T history)).output (k, o, ()) =
          Snapshot.weight (tracesAfter filter outputFilter T history).output (k, o, ()) :=
      t.outputMerging.weight_eq _ _
    have hbatches : ∀ cs : List (Layers K O Unit ℤ),
        Snapshot.weight (cs.map fun c => Batch.ofTuples c.tuples) (k, o, ()) =
          (cs.map fun c => c.weight (k, o, ())).sum := by
      intro cs
      unfold Snapshot.weight
      rw [map_map]
      refine congrArg List.sum (map_congr_left fun c _ => ?_)
      exact Batch.weight_ofTuples c.tuples (k, o, ())
    have happend : Snapshot.weight (t.outputAccumulated.merge
        (((t.outputs filter outputFilter T (tracesAfter filter outputFilter T history)).map
          fun c => Batch.ofTuples c.tuples).filter fun b => !b.layers.isEmpty)) (k, o, ()) =
            F (group (history ++ [t]) k) o - F (group history k) o := by
      refine (t.outputAccumulated.weight_eq _ _).trans ?_
      refine (weight_filter_nonempty _ _).trans ?_
      rw [hbatches, t.weight_outputs, hweight]
    rw [tracesAfter_concat, Transaction.append, weight_append, hmerge, ih, happend]
    exact add_sub_cancel _ _

/-- What the operator puts out in a transaction is what changes in the output groups, and the
chunks are the batches that the trace of the output gets. -/
theorem outputs_spec (t : Transaction K V O) :
    (∀ c ∈ t.outputs filter outputFilter T (tracesAfter filter outputFilter T history),
      IsBatch c) ∧
      ∀ k o, ((t.outputs filter outputFilter T
        (tracesAfter filter outputFilter T history)).map fun c => c.weight (k, o, ())).sum =
          F (group (history ++ [t]) k) o - F (group history k) o := by
  obtain ⟨hbatch, hweight⟩ := chunks_spec history t hT fun k o =>
    weight_tracesAfter_output hT hnil history k o
  refine ⟨fun c hc => ?_, fun k o => (t.weight_outputs _ _).trans (hweight k o)⟩
  rcases mem_append.mp hc with hc | hc
  · obtain ⟨b, -, rfl⟩ := mem_map.mp hc
    exact TupleBuilder.sound_new.isBatch
  · exact hbatch c hc

/-- All outputs of a history add up to the output groups of the sum of all inputs. -/
theorem sum_outputs :
    ((outputs filter outputFilter T history).map fun c => c.weight (k, o, ())).sum =
      F (group history k) o := by
  induction history using reverseRecOn with
  | nil => exact (hnil o).symm
  | append_singleton history t ih =>
    obtain ⟨-, hweight⟩ := outputs_spec hT hnil history t
    rw [outputs_concat, map_append, sum_append, ih, hweight]
    exact add_sub_cancel _ _

end

end Feldera.Operator.GroupTransform
