import Feldera.Trace.Snapshot
import Feldera.Trace.SpineConservation

/-!
Reading a spine. `SpineCursor` is a `CursorList` over the batches that the spine holds when it is
created. Which batches these are depends on the worker; what the cursor shows does not.
-/

namespace Feldera.Trace.Spine

open List Shared

variable {K V R : Type*} [LinearOrder K] [LinearOrder V] [AddCommMonoid R] [DecidableEq R]
  {cfg : Config K V Unit R} {s : State K V Unit R} {l : Ledger K V R}

/-- The batches of a spine are a snapshot with the sum of what was inserted. -/
theorem Represents.exists_snapshot (h : Represents cfg s l) (hheld : s.held = [])
    (hall : ∀ k v, l.accepts k v = true) :
    ∃ batches : List (Batch K V Unit R),
      batches.map Batch.layers = s.shared.getBatches.map Stored.layers ∧
        Snapshot.total batches = Snapshot.total l.inserted := by
  have hbatch : ∀ b ∈ s.shared.getBatches, IsBatch b.layers := by
    intro b hb
    obtain ⟨level, -, hmem⟩ := mem_flatMap.mp hb
    exact h.slots level b hmem
  refine ⟨s.shared.getBatches.attach.map fun b => ⟨b.1.layers, hbatch b.1 b.2⟩, by simp, ?_⟩
  ext ⟨k, v, -⟩
  have hweight := h.weight k v (hall k v)
  rw [hheld, total_nil, add_zero, ← total_getBatches] at hweight
  rw [Snapshot.weight_total, Snapshot.weight_total]
  exact Eq.trans (by simp [Snapshot.weight, Batch.weight, total]) hweight

/-- A cursor of an untimed spine without filters. Whatever callers and the worker have done, and in
whatever order, it gives the answers of a cursor over the sum of the inserted batches in every
proper run, and shows the same key, value and weight, unless a key was missing. -/
theorem cursor_reads_inserted (cfg : Config K V Unit R) (actions : List (Action K V Unit R))
    (hguard : Machine.Guarded (recordedStep cfg)
      (fun x a => Narrows x.2.ledger a ∧ Resumes x.1 a) start actions) {h : History K V R}
    (hrun : Machine.run (recordedStep cfg) start actions = .ok (s, h)) (hheld : s.held = [])
    (hall : ∀ k v, h.ledger.accepts k v = true) :
    ∃ batches : List (Batch K V Unit R),
      batches.map Batch.layers = s.shared.getBatches.map Stored.layers ∧
      ∀ (filter : KeyFilter K V R) (ops : List (Op K V)),
        let C := Snapshot.cursor filter batches
        let S := Snapshot.stance filter batches
        C.Proper S.able S.sure (Snapshot.start filter batches) ops →
        let spine := C.run S.sure (Snapshot.start filter batches) ops
        let single := (layerCursor fun _ => true).run (fun _ _ => True)
          (LayerCursor.new (Snapshot.total h.ledger.inserted).entries) ops
        spine.2.2 = single.2.2 ∧ (spine.2.1.missing = false →
          C.seen spine.1 = (layerCursor fun _ => true).seen single.1) := by
  have hend := conserved_of_run hguard hrun
  obtain ⟨batches, hbatches, htotal⟩ := hend.represents.exists_snapshot hheld hall
  refine ⟨batches, hbatches, ?_⟩
  intro filter ops C S hproper
  rw [← htotal]
  exact (Snapshot.lawful filter batches).agree (layerCursor_lawful fun _ _ => rfl)
    (LayerCursor.stance_total _) (Snapshot.firm_start filter batches) (LayerCursor.at_new _) ops
    hproper

theorem cursor_reads_inserted_two : ∃ s h, ∃ batches : List (Batch ℕ ℕ Unit ℤ),
    Machine.run (recordedStep pushConfig) start
      [.insert (Batch.ofTuples [((1, 5, ()), 1)]) .memory,
        .insert (Batch.ofTuples [((1, 5, ()), 2)]) .memory] = .ok (s, h) ∧
      batches.map Batch.layers = s.shared.getBatches.map Stored.layers ∧
      (Snapshot.cursor .none batches).seen (Snapshot.start .none batches) =
        some (1, some (5, 3)) := by
  have htrivial : True ∧ True := ⟨trivial, trivial⟩
  obtain ⟨batches, hbatches, hreads⟩ := cursor_reads_inserted pushConfig
    [.insert (Batch.ofTuples [((1, 5, ()), 1)]) .memory,
      .insert (Batch.ofTuples [((1, 5, ()), 2)]) .memory] ⟨htrivial, htrivial, trivial⟩ rfl rfl
    fun _ _ => rfl
  exact ⟨_, _, batches, rfl, hbatches, (hreads .none [] (Cursor.proper_nil _ _ _ _)).2 rfl⟩

end Feldera.Trace.Spine
