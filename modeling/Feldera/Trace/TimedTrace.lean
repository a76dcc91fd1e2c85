import Feldera.Time.Product
import Feldera.Trace.ListMergerRun

/-!
Traces of nested circuits: lists of batches whose updates carry the time at which they came in.
Operators read them at a key and a value, through the times and weights that `map_times` shows.

Background merges replace some of the batches by one batch and join the times in it with the
frontier; updates of different times may then cancel. What a trace holds through a time does not
change if the frontier is below that time.
-/

namespace Feldera.Trace

open Time Weighted Timestamp List

variable {K V T R : Type*} [LinearOrder K] [LinearOrder V] [LinearOrder T] [AddCommMonoid R]

abbrev TimedTrace (K V T R : Type*) [LinearOrder K] [LinearOrder V] [LinearOrder T]
    [AddCommMonoid R] := List (Batch K V T R)

/-- `from_arc_batch`: the updates of an untimed batch get a time. -/
def Batch.stamp (t : T) (b : Batch K V Unit R) : Batch K V T R where
  layers := b.layers.map fun p => (p.1, p.2.map fun q => (q.1, q.2.map fun r => (t, r.2)))
  isBatch := by
    refine ⟨by rw [pairwise_map]; exact b.isBatch.sorted, fun p hp => ?_⟩
    obtain ⟨p, hmem, rfl⟩ := mem_map.mp hp
    obtain ⟨hne, hvals⟩ := b.isBatch.contents p hmem
    refine ⟨by simpa using hne, by rw [pairwise_map]; exact hvals.sorted, fun q hq => ?_⟩
    obtain ⟨q, hmem, rfl⟩ := mem_map.mp hq
    obtain ⟨hnonempty, htimes⟩ := hvals.contents q hmem
    -- A sorted list of units has one element.
    have hone : q.2.map (fun r => (t, r.2)) = [(t, (q.2.head hnonempty).2)] := by
      match q.2, hnonempty, htimes with
      | [r], _, _ => rfl
      | r :: r' :: rest, _, htimes =>
        exact absurd (htimes.head_lt r' mem_cons_self) (lt_irrefl r.1)
    refine ⟨by simpa using hnonempty, ?_⟩
    rw [hone]
    exact ⟨pairwise_singleton _ _, fun r hr => by
      rw [mem_singleton.mp hr]
      exact htimes.nonzero _ (head_mem hnonempty)⟩

theorem Batch.tuples_stamp (t : T) (b : Batch K V Unit R) :
    (b.stamp t).layers.tuples = b.layers.tuples.map fun p => ((p.1.1, p.1.2.1, t), p.2) := by
  simp [Batch.stamp, Layers.tuples, Vals.tuples, flat, under, map_flatMap, flatMap_map,
    Function.comp_def]

namespace TimedTrace

def tuples (trace : TimedTrace K V T R) : List ((K × V × T) × R) :=
  trace.flatMap fun b => b.layers.tuples

def group (trace : TimedTrace K V T R) (k : K) : List ((V × T) × R) :=
  restrict trace.tuples k

def times (trace : TimedTrace K V T R) (k : K) (v : V) : List (T × R) :=
  restrict (trace.group k) v

/-- `AccumulateTraceAppend`: the batches of the input come in at the time of the clock. -/
def append (t : T) (delta : List (Batch K V Unit R)) (trace : TimedTrace K V T R) :
    TimedTrace K V T R :=
  trace ++ delta.map (Batch.stamp t)

@[simp] theorem tuples_append (trace trace' : TimedTrace K V T R) :
    tuples (trace ++ trace') = trace.tuples ++ trace'.tuples :=
  flatMap_append

end TimedTrace

/-- A background merge: the positions of the batches that are merged, the frontier that the merge
has when it reaches a key and a value, and the position of the new batch. -/
structure TimedMerge (K V T : Type*) where
  picks : ℕ → Bool
  frontier : K → V → T
  place : ℕ

section

variable [Timestamp T]

/-- The weights at the times that are not after `t`. -/
def through (times : List (T × R)) (t : T) : R :=
  gather (fun s => lessEqual s t) times

namespace TimedTrace

theorem through_times (trace : TimedTrace K V T R) (k : K) (v : V) (t : T) :
    through (trace.times k v) t = gather (fun x => decide (x.1 = k) && (decide (x.2.1 = v) &&
      lessEqual x.2.2 t)) trace.tuples := by
  rw [through, times, gather_restrict, group, gather_restrict]

theorem through_append (t : T) (delta : List (Batch K V Unit R)) (trace : TimedTrace K V T R)
    (k : K) (v : V) (s : T) : through ((trace.append t delta).times k v) s =
      through (trace.times k v) s +
        if lessEqual t s then (delta.map fun b => b.weight (k, v, ())).sum else 0 := by
  rw [through_times, append, tuples_append, gather_append, ← through_times]
  congr 1
  induction delta with
  | nil => simp [tuples]
  | cons b delta ih =>
    have hcons : tuples ((b :: delta).map (Batch.stamp t)) =
        (b.stamp t).layers.tuples ++ tuples (delta.map (Batch.stamp t)) := rfl
    have hbatch : gather (fun x => decide (x.1 = k) && (decide (x.2.1 = v) &&
        lessEqual x.2.2 s)) (b.stamp t).layers.tuples =
          if lessEqual t s then b.weight (k, v, ()) else 0 := by
      rw [b.tuples_stamp, Batch.weight, Layers.weight]
      induction b.layers.tuples with
      | nil => simp
      | cons p tuples ih =>
        rw [map_cons, gather_cons, ih, weight_cons]
        obtain ⟨⟨k', v', u⟩, w⟩ := p
        by_cases hk : k' = k
        · by_cases hv : v' = v
          · cases lessEqual t s with
            | true => simp [hk, hv]
            | false => simp [hk, hv]
          · simp [hk, hv]
        · simp [hk]
    rw [hcons, gather_append, ih, hbatch, map_cons, sum_cons]
    split
    · rfl
    · exact add_zero 0

end TimedTrace

namespace TimedMerge

variable [DecidableEq R] (merge : TimedMerge K V T)

section

variable (batches : TimedTrace K V T R)

def merged : Batch K V T R :=
  Batch.ofTuples (batches.tuples.map fun p =>
    ((p.1.1, p.1.2.1, join p.1.2.2 (merge.frontier p.1.1 p.1.2.1)), p.2))

def picked : TimedTrace K V T R :=
  (batches.zipIdx.filter fun p => merge.picks p.2).map Prod.fst

def kept : TimedTrace K V T R :=
  (batches.zipIdx.filter fun p => !merge.picks p.2).map Prod.fst

/-- The trace after the merge. A merged batch without updates is dropped. -/
def apply : TimedTrace K V T R :=
  let new := merge.merged (merge.picked batches)
  (merge.kept batches).take merge.place ++ (if new.layers.isEmpty then [] else [new]) ++
    (merge.kept batches).drop merge.place

end

variable (batches : TimedTrace K V T R)
include batches

omit [Timestamp T] [DecidableEq R] in
theorem perm_picked_kept : batches.Perm (merge.picked batches ++ merge.kept batches) := by
  have hperm := (filter_append_perm (fun p : Batch K V T R × ℕ => merge.picks p.2)
    batches.zipIdx).symm.map Prod.fst
  rwa [map_append, zipIdx_map_fst] at hperm

section

variable (k : K) (v : V) {t : T} (h : lessEqual (merge.frontier k v) t = true)
include h

theorem through_merged :
    gather (fun x => decide (x.1 = k) && (decide (x.2.1 = v) && lessEqual x.2.2 t))
        (merge.merged batches).layers.tuples =
      gather (fun x => decide (x.1 = k) && (decide (x.2.1 = v) && lessEqual x.2.2 t))
        batches.tuples := by
  refine (gather_congr _ fun x => Batch.weight_ofTuples _ x).trans ?_
  induction batches.tuples with
  | nil => rfl
  | cons p tuples ih =>
    obtain ⟨⟨k', v', s⟩, w⟩ := p
    rw [map_cons, gather_cons, gather_cons, ih]
    by_cases hk : k' = k
    · by_cases hv : v' = v
      · have hjoin : lessEqual (join s (merge.frontier k v)) t =
            lessEqual s t := by
          rw [Bool.eq_iff_iff, join_lessEqual_iff]
          exact and_iff_left h
        simp [hk, hv, hjoin]
      · simp [hv]
    · simp [hk]

/-- What a trace holds through a time after the frontier does not change. -/
theorem through_apply :
    through (TimedTrace.times (merge.apply batches) k v) t =
      through (batches.times k v) t := by
  have hnew : gather (fun x => decide (x.1 = k) && (decide (x.2.1 = v) &&
      lessEqual x.2.2 t)) (TimedTrace.tuples
        (if (merge.merged (merge.picked batches)).layers.isEmpty then []
          else [merge.merged (merge.picked batches)])) =
      gather (fun x => decide (x.1 = k) && (decide (x.2.1 = v) && lessEqual x.2.2 t))
        (TimedTrace.tuples (merge.picked batches)) := by
    rw [← through_merged merge (merge.picked batches) k v h]
    cases hempty : (merge.merged (merge.picked batches)).layers.isEmpty with
    | true =>
      rw [if_pos rfl, isEmpty_iff.mp hempty]
      rfl
    | false => simp [TimedTrace.tuples]
  have hperm : (batches.tuples).Perm
      (TimedTrace.tuples (merge.picked batches) ++ TimedTrace.tuples (merge.kept batches)) := by
    rw [← TimedTrace.tuples_append]
    exact (merge.perm_picked_kept batches).flatMap_right _
  have hkept := take_append_drop merge.place (merge.kept batches)
  rw [TimedTrace.through_times, TimedTrace.through_times, gather_perm _ hperm, gather_append,
    ← hnew, apply, TimedTrace.tuples_append, TimedTrace.tuples_append, gather_append,
    gather_append, add_comm (gather _ (TimedTrace.tuples (List.take _ _))), add_assoc,
    ← gather_append, ← TimedTrace.tuples_append, hkept]

end

end TimedMerge

end

end Feldera.Trace
