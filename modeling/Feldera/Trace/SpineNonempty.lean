import Feldera.Algebra.Machine
import Feldera.Trace.SpineSteps

/-!
The batches in the slots of a spine are not empty, as the slots and `add_batch` assume.
Merges that build nothing are caught by `add_batches`. A batch that `insert` writes to
storage goes through the filters on its way and is added without another look, so it
must have an entry that passes (`KeepsEntry`).
-/

namespace Feldera.Trace.Spine

open Weighted Time LayerMerge Shared List

variable {K V T R : Type*}

section

variable (s : Shared K V T R)

theorem Shared.mem_push (b x : Stored K V T R) (level : Fin maxLevels) :
    x ∈ ((s.push b).slots level).allBatches ↔
      x ∈ (s.slots level).allBatches ∨ level = sizeToLevel b.len ∧ x = b := by
  unfold push setSlot Slot.allBatches
  by_cases hlevel : level = sizeToLevel b.len
  · subst hlevel
    simp [or_comm, or_left_comm]
  · simp [hlevel]

variable {level : Fin maxLevels}

theorem Shared.mem_foldl_push {batches : List (Stored K V T R)} {x : Stored K V T R}
    (hx : x ∈ ((batches.foldl push s).slots level).allBatches) :
    x ∈ (s.slots level).allBatches ∨ x ∈ batches := by
  induction batches generalizing s with
  | nil => exact .inl hx
  | cons b batches ih =>
    rcases ih (s.push b) hx with hpush | hmem
    · rcases (s.mem_push b x level).mp hpush with hold | ⟨-, rfl⟩
      · exact .inl hold
      · exact .inr (by simp)
    · exact .inr (by simp [hmem])

theorem Slot.mem_tryStartMerge (slot : Slot K V T R) (level : Fin maxLevels)
    (x : Stored K V T R) : x ∈ (slot.tryStartMerge level).1.allBatches ↔ x ∈ slot.allBatches := by
  rcases slot.tryStartMerge_cases level with h | ⟨batches, rest, hnone, hloose, h⟩
  · rw [h]
  · simp [h, allBatches, hnone, hloose, or_comm]

structure Filled (s : State K V T R) : Prop where
  slots : ∀ level, ∀ b ∈ (s.shared.slots level).allBatches, b.isEmpty = false
  checkpoint : ∀ batches ∈ s.checkpoint, ∀ b ∈ batches, b.location = .storage

variable {b : Stored K V T R} {s : State K V T R}

theorem Shared.mem_takeLooseBatches {s : Shared K V T R}
    (hb : b ∈ (s.takeLooseBatches.2.slots level).allBatches) : b ∈ (s.slots level).allBatches := by
  simp only [takeLooseBatches, Slot.allBatches, nil_append] at hb
  exact mem_append_right _ hb

theorem Shared.mem_setSlot_loose {s : Shared K V T R} {target level : Fin maxLevels}
    (hb : b ∈ ((s.setSlot target { s.slots target with mergingBatches := none }).slots
      level).allBatches) : b ∈ (s.slots level).allBatches := by
  unfold setSlot at hb
  by_cases hlevel : level = target
  · subst hlevel
    simp only [Function.update_self, Slot.allBatches, Option.getD_none, append_nil] at hb
    exact mem_append_left _ hb
  · simpa [hlevel] using hb

theorem Filled.adding (h : Filled s) {shared : Shared K V T R}
    (hslots : ∀ level, ∀ b ∈ (shared.slots level).allBatches,
      b ∈ (s.shared.slots level).allBatches) (batches : List (Stored K V T R))
    (level : Fin maxLevels) :
    ∀ b ∈ ((shared.adding batches).slots level).allBatches, b.isEmpty = false := by
  intro b hb
  rcases mem_foldl_push _ hb with hold | hnew
  · exact h.slots level b (hslots level b hold)
  · simpa using (mem_filter.mp hnew).2

theorem filled_new [LinearOrder T] [Timestamp T] : Filled (State.new : State K V T R) :=
  ⟨fun level b hb => absurd hb (by simp [State.new, new, Slot.allBatches]), nofun⟩

theorem move_join_minimum [LinearOrder T] [Timestamp T] (l : Layers K V T R) :
    move (fun t => Timestamp.join t Timestamp.minimum) l = l := by
  simp [move, moveVals, moveTimes]

end

variable [LinearOrder K] [LinearOrder V] [LinearOrder T] [AddCommMonoid R] {cfg : Config K V T R}
  {keyFilter : Option (K → Bool)} {valueFilter : Option (V → Bool)}

section

theorem Stored.isEmpty_iff {b : Stored K V T R} (h : IsBatch b.layers) :
    b.isEmpty = true ↔ b.layers = [] := by
  obtain ⟨layers, location⟩ := b
  cases layers with
  | nil => cases location <;> simp [isEmpty, len, Layers.tuples, flat]
  | cons p rest =>
    obtain ⟨hne, hvals⟩ := h.contents p (by simp)
    obtain ⟨q, vs, hq⟩ := exists_cons_of_ne_nil hne
    have htimes : q.2 ≠ [] := (hvals.contents q (by simp [hq])).1
    cases location <;>
      simp [isEmpty, len, Layers.tuples, Vals.tuples, flat, under, hq, htimes]

def SomePasses (keyFilter : Option (K → Bool)) (valueFilter : Option (V → Bool))
    (l : Layers K V T R) : Prop :=
  ∃ p ∈ l.tuples, passes keyFilter valueFilter p = true

theorem passing_eq_nil_iff {l : Layers K V T R} (h : IsBatch l) :
    passing keyFilter valueFilter l = [] ↔ ¬ SomePasses keyFilter valueFilter l := by
  have hbatch := passing_isBatch keyFilter valueFilter h
  have htuples : (passing keyFilter valueFilter l).tuples = [] ↔
      ¬ SomePasses keyFilter valueFilter l := by
    rw [tuples_passing, filter_eq_nil_iff]
    simp [SomePasses]
  rw [← htuples]
  refine ⟨fun hnil => by rw [hnil]; rfl, fun hnil => ?_⟩
  have hlen : Stored.len ⟨passing keyFilter valueFilter l, .memory⟩ = 0 :=
    congrArg length hnil
  exact (Stored.isEmpty_iff (b := ⟨_, .memory⟩) hbatch).mp (decide_eq_true hlen)

end

variable [DecidableEq R] [Timestamp T] (htimed : cfg.timed = false → Subsingleton T)

include htimed in
theorem mergeOnce_spec {location : BatchLocation} {batches : List (Stored K V T R)}
    (hbatches : ∀ b ∈ batches, IsBatch b.layers) {result : Stored K V T R}
    (hmerge : mergeOnce cfg keyFilter valueFilter location batches = .ok result) :
    IsBatch result.layers ∧ ∀ x, result.layers.weight x =
      (batches.map fun b => (passing keyFilter valueFilter b.layers).weight x).sum := by
  unfold mergeOnce at hmerge
  split at hmerge
  · next layers hlayers =>
    cases hmerge
    obtain ⟨hbatch, hweight⟩ := ListMerger.merge_spec keyFilter valueFilter htimed
      (fun i => hbatches _ (get_mem batches i)) hlayers
    refine ⟨hbatch, fun x => ?_⟩
    rw [hweight, ← Fin.sum_univ_fun_getElem]
    exact Finset.sum_congr rfl fun i _ => by rw [move_join_minimum]; rfl
  · cases hmerge

include htimed in
variable (keyFilter valueFilter) in
/-- A batch that `insert` writes to storage is empty exactly if none of its entries passes. -/
theorem mergeOnce_single (location : BatchLocation) {b : Stored K V T R} (hb : IsBatch b.layers) :
    (∀ result, mergeOnce cfg keyFilter valueFilter location [b] = .ok result →
      (result.isEmpty = true ↔ ¬ SomePasses keyFilter valueFilter b.layers)) ∧
    (¬ SomePasses keyFilter valueFilter b.layers →
      mergeOnce cfg keyFilter valueFilter location [b] = .ok ⟨[], location⟩) := by
  refine ⟨fun result hmerge => ?_, fun hnone => ?_⟩
  · obtain ⟨hbatch, hweight⟩ := mergeOnce_spec htimed (by simpa using hb) hmerge
    have heq : result.layers = passing keyFilter valueFilter b.layers :=
      hbatch.ext (passing_isBatch keyFilter valueFilter hb) fun x => by simpa using hweight x
    rw [Stored.isEmpty_iff hbatch, heq, passing_eq_nil_iff hb]
  · unfold mergeOnce
    rw [ListMerger.merge_eq_nil keyFilter valueFilter (by simp) (by simpa using hb)
      (by simpa using (passing_eq_nil_iff hb).mpr hnone)]

section

variable {b : Stored K V T R} {s : State K V T R}

/-- A batch that an action writes to storage before it is added has an entry that passes. -/
def KeepsEntry (cfg : Config K V T R) (s : State K V T R) : Action K V T R → Prop
  | .insert batch location | .insertArc batch location =>
    isRewritten cfg ⟨batch.layers, location⟩ = true → batch.layers ≠ [] →
      SomePasses s.shared.keyFilter s.shared.valueFilter batch.layers
  | _ => True

variable {s' : State K V T R}

theorem Filled.insert (h : Filled s)
    (hkeeps : ∀ b', b.isEmpty = false → rewritten cfg s.shared b = .ok b' → b'.isEmpty = false)
    (hinsert : insert cfg s b = .ok s') : Filled s' := by
  rcases insert_eq_ok hinsert with ⟨-, rfl⟩ | ⟨hne, b', hb', rfl⟩
  · exact h
  · refine ⟨fun level x hx => ?_, h.checkpoint⟩
    rcases (s.shared.mem_push b' x level).mp hx with hold | ⟨-, rfl⟩
    · exact h.slots level x hold
    · exact hkeeps x hne hb'

include htimed

/-- What `insert` adds is empty exactly if the batch is rewritten and nothing passes. -/
theorem exists_rewritten_isEmpty (hb : IsBatch b.layers) (hne : b.isEmpty = false) :
    (∃ b', rewritten cfg s.shared b = .ok b' ∧ b'.isEmpty = true) ↔
      isRewritten cfg b = true ∧
        ¬ SomePasses s.shared.keyFilter s.shared.valueFilter b.layers := by
  unfold rewritten
  split
  · next hrewritten =>
    obtain ⟨hempty, hnone⟩ :=
      mergeOnce_single s.shared.keyFilter s.shared.valueFilter htimed .storage hb
    constructor
    · rintro ⟨b', hb', hb'empty⟩
      exact ⟨hrewritten, (hempty b' hb').mp hb'empty⟩
    · rintro ⟨-, hpasses⟩
      exact ⟨_, hnone hpasses, rfl⟩
  · next hrewritten => simp [hrewritten, hne]

/-- What `insert` adds is not empty if it meets the condition. -/
theorem rewritten_isEmpty {b' : Stored K V T R} (hb : IsBatch b.layers)
    (hkeeps : isRewritten cfg b = true → b.layers ≠ [] →
      SomePasses s.shared.keyFilter s.shared.valueFilter b.layers) (hne : b.isEmpty = false)
    (hb' : rewritten cfg s.shared b = .ok b') : b'.isEmpty = false := by
  rw [← Bool.not_eq_true]
  intro hempty
  obtain ⟨hrewritten, hnone⟩ := (exists_rewritten_isEmpty htimed hb hne).mp ⟨b', hb', hempty⟩
  refine hnone (hkeeps hrewritten fun hnil => ?_)
  rw [← Stored.isEmpty_iff hb, hne] at hnil
  cases hnil

/-- One action keeps the slots filled. -/
theorem Filled.step (h : Filled s) {a : Action K V T R} (hkeeps : KeepsEntry cfg s a)
    (hstep : Step cfg s a s') : Filled s' := by
  cases hstep with
  | insert hinsert =>
    exact h.insert (fun b' => rewritten_isEmpty htimed (Batch.isBatch _) hkeeps) hinsert
  | insertArc hinsert =>
    exact h.insert (fun b' => rewritten_isEmpty htimed (Batch.isBatch _) hkeeps) hinsert
  | retainKeys | retainValues | setFrontier | readShared => exact ⟨h.slots, h.checkpoint⟩
  | mergePaused | merge => exact ⟨h.slots, h.checkpoint⟩
  | holdLoose =>
    exact ⟨fun level b hb => h.slots level b (mem_takeLooseBatches hb), h.checkpoint⟩
  | resume => exact ⟨h.adding (fun _ _ hb => hb) s.held, h.checkpoint⟩
  | save =>
    refine ⟨fun level b hb => h.slots level b (mem_takeLooseBatches hb), ?_⟩
    rintro batches ⟨⟩ b hb
    rcases mem_append.mp hb with hb | hb <;>
      · obtain ⟨b', -, rfl⟩ := mem_map.mp hb
        rfl
  | restore hcheckpoint hinserts =>
    have hstorage := h.checkpoint _ (Option.mem_def.mpr hcheckpoint)
    rw [inserts_storage hstorage] at hinserts
    cases hinserts
    refine ⟨filled_new.adding (fun _ _ hb => hb) _, ?_⟩
    rintro batches ⟨⟩
    exact hstorage
  | mergeComplete => exact ⟨h.adding (fun _ _ hb => mem_setSlot_loose hb) _, h.checkpoint⟩
  | startMerges =>
    exact ⟨fun level b hb => h.slots level b ((Slot.mem_tryStartMerge _ level b).mp hb),
      h.checkpoint⟩

end

section

variable (keyFilter : Option (K → Bool)) (valueFilter : Option (V → Bool))

theorem mergeOnce_ne_assertion (location : BatchLocation) (batches : List (Stored K V T R)) :
    mergeOnce cfg keyFilter valueFilter location batches ≠ .error .assertion := by
  unfold mergeOnce
  split <;> simp

theorem mergeLoop_ne_assertion (batches : List (Stored K V T R)) :
    mergeLoop cfg keyFilter valueFilter batches ≠ .error .assertion := by
  fun_induction mergeLoop cfg keyFilter valueFilter batches with
  | case1 batches hlen e he =>
    intro heq
    cases heq
    exact mergeOnce_ne_assertion _ _ _ _ he
  | case2 batches hlen result hresult hempty ih => exact ih
  | case3 batches hlen result hresult hempty ih => exact ih
  | case4 batches hlen => simp

theorem Merge.merge_ne_assertion (m : Merge K V T R) (frontier : T) (fuel : ℤ)
    (ready : Readiness) : m.merge cfg frontier fuel ready ≠ .error .assertion := by
  unfold merge afterPush
  dsimp only
  split
  · simp
  · split <;> simp

theorem map_ne_error {α β : Type*} {x : Except Stop α} {f : α → β} {e : Stop}
    (h : x ≠ .error e) : x.map f ≠ .error e := by
  cases x with
  | error e' => simpa [Except.map] using h
  | ok a => simp [Except.map]

variable {s : State K V T R}

theorem insert_eq_assertion {b : Stored K V T R} :
    insert cfg s b = .error .assertion ↔ cfg.debugAssertions = true ∧ b.isEmpty = false ∧
      ∃ b', rewritten cfg s.shared b = .ok b' ∧ b'.isEmpty = true := by
  have hrewritten : rewritten cfg s.shared b ≠ .error .assertion := by
    unfold rewritten
    split
    · exact mergeOnce_ne_assertion _ _ _ _
    · simp
  unfold insert
  split
  · next hempty => simp [hempty]
  · next hempty =>
    cases hb : rewritten cfg s.shared b with
    | error e =>
      have hne : e ≠ .assertion := fun he => hrewritten (by rw [hb, he])
      simp [Except.bind, hne]
    | ok b' =>
      simp only [Except.bind, addBatch]
      cases hdebug : cfg.debugAssertions <;> cases hb' : b'.isEmpty <;>
        simp [Except.map, hempty, hb']

include htimed

/-- In terms of the batch: it is rewritten and nothing of it passes. -/
theorem insert_batch_eq_assertion (batch : Batch K V T R) (location : BatchLocation) :
    insert cfg s ⟨batch.layers, location⟩ = .error .assertion ↔
      cfg.debugAssertions = true ∧ ¬ KeepsEntry cfg s (.insert batch location) := by
  rw [insert_eq_assertion]
  refine and_congr_right fun _ => ?_
  have hempty := Stored.isEmpty_iff (b := ⟨batch.layers, location⟩) batch.isBatch
  simp only [KeepsEntry, Classical.not_imp]
  constructor
  · rintro ⟨hne, hsome⟩
    obtain ⟨hrewritten, hnone⟩ := (exists_rewritten_isEmpty htimed batch.isBatch hne).mp hsome
    exact ⟨hrewritten, fun hnil => by simp [hempty.mpr hnil] at hne, hnone⟩
  rintro ⟨hrewritten, hnil, hnone⟩
  have hne : Stored.isEmpty ⟨batch.layers, location⟩ = false := by
    rw [← Bool.not_eq_true, hempty]
    exact hnil
  exact ⟨hne, (exists_rewritten_isEmpty htimed batch.isBatch hne).mpr ⟨hrewritten, hnone⟩⟩

theorem step_eq_assertion (h : Filled s) (a : Action K V T R) :
    step cfg s a = .error .assertion ↔ cfg.debugAssertions = true ∧ ¬ KeepsEntry cfg s a := by
  have hother : step cfg s a ≠ .error .assertion → KeepsEntry cfg s a →
      (step cfg s a = .error .assertion ↔
        cfg.debugAssertions = true ∧ ¬ KeepsEntry cfg s a) :=
    fun hne hkeeps => ⟨fun heq => absurd heq hne, fun hnot => absurd hkeeps hnot.2⟩
  cases a with
  | insert batch location => exact insert_batch_eq_assertion htimed batch location
  | insertArc batch location => exact insert_batch_eq_assertion htimed batch location
  | retainKeys | retainValues | setFrontier | takeLoose | pauseNewMerges | readShared =>
    exact hother (by simp [Spine.step]) trivial
  | awaitIdle | save =>
    refine hother ?_ trivial
    simp only [Spine.step]
    split <;> simp
  | resume => exact hother (by simp [Spine.step, addBatches_eq, Except.map]) trivial
  | mergePaused =>
    exact hother (map_ne_error (map_ne_error (mergeLoop_ne_assertion _ _ _))) trivial
  | restore =>
    refine hother ?_ trivial
    simp only [Spine.step]
    split
    · simp
    · next batches hcheckpoint =>
      rw [inserts_storage (h.checkpoint batches hcheckpoint)]
      simp
  | merge level fuel ready =>
    refine hother ?_ trivial
    simp only [Spine.step]
    split
    · simp
    · split
      · simp
      · exact map_ne_error (Merge.merge_ne_assertion _ _ _ _)
  | mergeComplete level =>
    refine hother ?_ trivial
    simp only [Spine.step]
    split
    · simp
    split
    · refine map_ne_error ?_
      unfold Shared.mergeComplete
      split <;> simp [addBatches_eq]
    · simp
  | startMerges =>
    refine hother ?_ trivial
    simp only [Spine.step, startMerges]
    split <;> simp

end

section

theorem filled_invariant {cfg : Config K V T R} (htimed : cfg.timed = false → Subsingleton T) :
    Machine.Invariant (step cfg) (KeepsEntry cfg) Filled :=
  ⟨fun h hkeeps hstep => h.step htimed hkeeps (step_eq_ok hstep)⟩

/-- In every run whose inserts meet the condition: no assertion fails, every loose and every
merging batch of every slot is non-empty in the state that is reached, and there the next
action fails the assertion exactly if it does not meet the condition. -/
theorem run_filled (cfg : Config K V T R) (htimed : cfg.timed = false → Subsingleton T)
    (actions : List (Action K V T R))
    (hkeeps : Machine.Guarded (step cfg) (KeepsEntry cfg) State.new actions) :
    Machine.run (step cfg) State.new actions ≠ .error .assertion ∧
    ∀ s, Machine.run (step cfg) State.new actions = .ok s →
      (∀ level, (∀ b ∈ (s.shared.slots level).looseBatches, b.isEmpty = false) ∧
        ∀ merging ∈ (s.shared.slots level).mergingBatches, ∀ b ∈ merging,
          b.isEmpty = false) ∧
      ∀ a, step cfg s a = .error .assertion ↔
        cfg.debugAssertions = true ∧ ¬ KeepsEntry cfg s a := by
  refine ⟨Machine.run_ne_error (filled_invariant htimed) (fun h hguard heq => ?_) filled_new
    hkeeps, fun s hrun => ?_⟩
  · exact ((step_eq_assertion htimed h _).mp heq).2 hguard
  have h := Machine.run_invariant (filled_invariant htimed) filled_new hkeeps hrun
  refine ⟨fun level => ⟨fun b hb => h.slots level b (List.mem_append_left _ hb),
    fun merging hmerging b hb => h.slots level b (List.mem_append_right _ ?_)⟩,
    step_eq_assertion htimed h⟩
  rw [Option.mem_def.mp hmerging]
  exact hb

/-- A spine whose batches go to storage at once. -/
def storageConfig (debugAssertions : Bool) : Config ℕ ℕ Unit ℤ :=
  ⟨.listMerger, some 0, fun _ => 8, false, debugAssertions⟩

/-- A filter drops all of a batch while `insert` writes it to storage: the assertion fails, and
without debug assertions the slot holds an empty batch. -/
theorem insert_of_filtered_batch :
    Machine.run (step (storageConfig true)) State.new
      [.retainKeys fun k => decide (5 ≤ k),
        .insert (Batch.ofTuples [((1, 2, ()), 1)]) .memory] = .error .assertion ∧
    ∃ s, Machine.run (step (storageConfig false)) State.new
        [.retainKeys fun k => decide (5 ≤ k),
          .insert (Batch.ofTuples [((1, 2, ()), 1)]) .memory] = .ok s ∧
      (s.shared.slots 0).looseBatches = [⟨[], .storage⟩] :=
  ⟨rfl, _, rfl, rfl⟩

/-- The same with an entry that passes. -/
theorem run_filled_passing :
    Machine.run (step (storageConfig true)) State.new
      [.retainKeys fun k => decide (5 ≤ k),
        .insert (Batch.ofTuples [((1, 2, ()), 1), ((7, 2, ()), 1)]) .memory] ≠
      .error .assertion := by
  refine (run_filled (storageConfig true) (fun _ => inferInstance)
    [.retainKeys fun k => decide (5 ≤ k),
      .insert (Batch.ofTuples [((1, 2, ()), 1), ((7, 2, ()), 1)]) .memory] ?_).1
  exact ⟨trivial, fun _ _ => ⟨((7, 2, ()), 1), by decide, by decide⟩, trivial⟩

end

end Feldera.Trace.Spine
