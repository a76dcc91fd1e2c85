import Feldera.Algebra.Checked
import Feldera.Trace.Spine

/-!
What an action of the spine can do, as a relation: one constructor for each kind of action, in
terms of the operations on the slots. Facts about a step are proved by cases on it.
-/

namespace Feldera.Trace.Spine

open Weighted Time List

variable {K V T R : Type*}

def Shared.adding (s : Shared K V T R) (batches : List (Stored K V T R)) : Shared K V T R :=
  (batches.filter fun b => !b.isEmpty).foldl push s

theorem Shared.addBatches_eq (cfg : Config K V T R) (s : Shared K V T R)
    (batches : List (Stored K V T R)) : s.addBatches cfg batches = .ok (s.adding batches) := by
  induction batches generalizing s with
  | nil => rfl
  | cons b batches ih =>
    unfold addBatches
    cases hb : b.isEmpty with
    | true => simp [hb, ih, adding]
    | false => simp [hb, addBatch, Except.bind, ih, adding]

/-- A merge starts only in a slot that has none; the slot keeps its batches. -/
theorem Slot.tryStartMerge_cases (slot : Slot K V T R) (level : Fin maxLevels) :
    slot.tryStartMerge level = (slot, none) ∨
      ∃ batches rest, slot.mergingBatches = none ∧ slot.looseBatches = batches ++ rest ∧
        slot.tryStartMerge level = (⟨some batches, rest⟩, some batches) := by
  unfold tryStartMerge
  split
  · next hstart =>
    have hnone : slot.mergingBatches = none := by
      have := (Bool.and_eq_true _ _ ▸ hstart).1
      simpa using this
    exact .inr ⟨_, _, hnone, (take_append_drop _ _).symm, rfl⟩
  · exact .inl rfl

variable [LinearOrder K] [LinearOrder V] [LinearOrder T] [AddCommMonoid R] [DecidableEq R]
  [Timestamp T] {cfg : Config K V T R}
  {s s' : State K V T R} {b : Stored K V T R}

theorem insert_eq_ok (h : insert cfg s b = .ok s') :
    b.isEmpty = true ∧ s' = s ∨ b.isEmpty = false ∧
      ∃ b', rewritten cfg s.shared b = .ok b' ∧ s' = { s with shared := s.shared.push b' } := by
  unfold insert at h
  split at h
  · next hempty => exact .inl ⟨hempty, (Except.ok.inj h).symm⟩
  · next hempty =>
    refine .inr ⟨by simpa using hempty, ?_⟩
    obtain ⟨b', hb, h⟩ := Checked.bind_eq_ok.mp h
    unfold Shared.addBatch at h
    split at h
    · cases h
    · exact ⟨b', hb, (Except.ok.inj h).symm⟩

omit [LinearOrder K] [LinearOrder V] [LinearOrder T] [AddCommMonoid R] [DecidableEq R]
  [Timestamp T] in
theorem isRewritten_storage (h : b.location = .storage) : isRewritten cfg b = false := by
  simp [isRewritten, h]

/-- What `restore` inserts is on storage and added as it is. -/
theorem inserts_storage {batches : List (Stored K V T R)}
    (hstorage : ∀ b ∈ batches, b.location = .storage) (s : State K V T R) :
    batches.foldlM (insert cfg) s = .ok { s with shared := s.shared.adding batches } := by
  induction batches generalizing s with
  | nil => rfl
  | cons b batches ih =>
    have hinsert : insert cfg s b = .ok { s with shared := s.shared.adding [b] } := by
      unfold insert rewritten
      rw [isRewritten_storage (hstorage b (by simp))]
      cases hb : b.isEmpty with
      | true => simp [Shared.adding, hb]
      | false => simp [Except.bind, Except.map, Shared.addBatch, Shared.adding, hb]
    have hadding : (s.shared.adding [b]).adding batches = s.shared.adding (b :: batches) := by
      unfold Shared.adding
      rw [← foldl_append, ← filter_append, singleton_append]
    rw [foldlM_cons, hinsert]
    change foldlM (insert cfg) _ batches = _
    rw [ih fun x hx => hstorage x (by simp [hx])]
    dsimp only
    rw [hadding]

def Started (cfg : Config K V T R) (s : State K V T R)
    (mergers : Fin maxLevels → Option (Merge K V T R)) : Prop :=
  ∀ level,
    match ((s.shared.slots level).tryStartMerge level).2 with
    | some batches => ∃ m, mergers level = some m ∧
        Merge.new cfg batches s.worker.keyFilter s.worker.valueFilter = some m
    | none => mergers level = s.worker.mergers level

inductive Step (cfg : Config K V T R) (s : State K V T R) :
    Action K V T R → State K V T R → Prop
  | insert {batch : Batch K V T R} {location : BatchLocation} {s' : State K V T R}
      (hinsert : Spine.insert cfg s ⟨batch.layers, location⟩ = .ok s') :
      Step cfg s (.insert batch location) s'
  | insertArc {batch : Batch K V T R} {location : BatchLocation} {s' : State K V T R}
      (hinsert : Spine.insert cfg s ⟨batch.layers, location⟩ = .ok s') :
      Step cfg s (.insertArc batch location) s'
  | retainKeys (filter : K → Bool) :
      Step cfg s (.retainKeys filter)
        { s with
          shared := { s.shared with keyFilter := some filter }
          keyFilter := some filter }
  | retainValues (filter : V → Bool) :
      Step cfg s (.retainValues filter)
        { s with
          shared := { s.shared with valueFilter := some filter }
          valueFilter := some filter }
  | setFrontier (frontier : T) :
      Step cfg s (.setFrontier frontier)
        { s with shared := { s.shared with frontier := frontier } }
  | holdLoose {a : Action K V T R}
      (ha : a = .takeLoose ∨ a = .awaitIdle ∨ a = .pauseNewMerges) : Step cfg s a s.holdLoose
  | resume : Step cfg s .resume { s with shared := s.shared.adding s.held, held := [] }
  | mergePaused {batch : Stored K V T R}
      (hmerge : mergeBatches cfg s.keyFilter s.valueFilter s.held = .ok batch) :
      Step cfg s .mergePaused { s with held := [batch] }
  | save (hheld : s.held = []) :
      Step cfg s .save
        { s with
          shared := s.shared.takeLooseBatches.2
          held := s.shared.takeLooseBatches.1.map Stored.persisted
          checkpoint := some (s.shared.takeLooseBatches.1.map Stored.persisted ++
            s.shared.takeLooseBatches.2.getBatches.map Stored.persisted) }
  | restore {batches : List (Stored K V T R)} {s' : State K V T R}
      (hcheckpoint : s.checkpoint = some batches)
      (hinserts : batches.foldlM (Spine.insert cfg)
        { State.new with checkpoint := some batches } = .ok s') :
      Step cfg s .restore s'
  | readShared :
      Step cfg s .readShared
        { s with
          worker := { s.worker with
            keyFilter := s.shared.keyFilter
            valueFilter := s.shared.valueFilter
            frontier := s.shared.frontier } }
  | merge {level : Fin maxLevels} {avgSlot0MergeFuel fuel : ℤ} {ready : Readiness}
      {m m' : Merge K V T R} (hm : s.worker.mergers level = some m)
      (hmerge : m.merge cfg s.worker.frontier fuel ready = .ok m') :
      Step cfg s (.merge level avgSlot0MergeFuel ready)
        { s with worker := { s.worker with
            mergers := Function.update s.worker.mergers level (some m') } }
  | mergeComplete {level : Fin maxLevels} {m : Merge K V T R} {merging : List (Stored K V T R)}
      (hm : s.worker.mergers level = some m) (hdone : m.done = true)
      (hmerging : (s.shared.slots level).mergingBatches = some merging) :
      Step cfg s (.mergeComplete level)
        { s with
          shared := (s.shared.setSlot level
            { s.shared.slots level with mergingBatches := none }).adding
              [⟨m.state.builder.done, m.location⟩]
          worker := { s.worker with
            mergers := Function.update s.worker.mergers level none } }
  | startMerges {mergers : Fin maxLevels → Option (Merge K V T R)}
      (hmergers : Started cfg s mergers) :
      Step cfg s .startMerges
        { s with
          shared := { s.shared with
            slots := fun level => ((s.shared.slots level).tryStartMerge level).1 }
          worker := { s.worker with mergers := mergers } }

theorem startMerges_eq_ok (h : startMerges cfg s = .ok s') : Step cfg s .startMerges s' := by
  unfold startMerges at h
  dsimp only at h
  split at h
  · next hall =>
    cases h
    refine .startMerges fun level => ?_
    have hsome := all_eq_true.mp hall level (mem_finRange level)
    revert hsome
    cases ((s.shared.slots level).tryStartMerge level).2 with
    | none => simp
    | some batches =>
      dsimp only
      intro hsome
      obtain ⟨m, hm⟩ := Option.isSome_iff_exists.mp hsome
      obtain ⟨m', hm', rfl⟩ := Option.map_eq_some_iff.mp hm
      exact ⟨m', by simp [hm'], hm'⟩
  · cases h

/-- Every action that leads somewhere is one of these. -/
theorem step_eq_ok {a : Action K V T R} (h : step cfg s a = .ok s') : Step cfg s a s' := by
  cases a with
  | insert batch location => exact .insert h
  | insertArc batch location => exact .insertArc h
  | retainKeys filter =>
    cases h
    exact .retainKeys filter
  | retainValues filter =>
    cases h
    exact .retainValues filter
  | setFrontier frontier =>
    cases h
    exact .setFrontier frontier
  | takeLoose =>
    cases h
    exact .holdLoose (by simp)
  | awaitIdle =>
    simp only [step] at h
    split at h
    · cases h
    · cases h
      exact .holdLoose (by simp)
  | pauseNewMerges =>
    cases h
    exact .holdLoose (by simp)
  | resume =>
    simp only [step, Shared.addBatches_eq] at h
    cases h
    exact .resume
  | mergePaused =>
    simp only [step] at h
    obtain ⟨batch, hmerge, h⟩ := Checked.bind_eq_ok.mp h
    cases h
    exact .mergePaused hmerge
  | save =>
    simp only [step] at h
    split at h
    · next hheld =>
      cases h
      exact .save (isEmpty_iff.mp hheld)
    · cases h
  | restore =>
    simp only [step] at h
    split at h
    · cases h
    · next batches hcheckpoint => exact .restore hcheckpoint h
  | readShared =>
    cases h
    exact .readShared
  | merge level avgSlot0MergeFuel ready =>
    simp only [step] at h
    split at h
    · cases h
    · next m hm =>
      split at h
      · cases h
      obtain ⟨m', hmerge, h⟩ := Checked.bind_eq_ok.mp h
      cases h
      exact .merge hm hmerge
  | mergeComplete level =>
    simp only [step] at h
    split at h
    · cases h
    · next m hm =>
      split at h
      · next hdone =>
        unfold Shared.mergeComplete at h
        split at h
        · cases h
        · next merging hmerging =>
          rw [Shared.addBatches_eq] at h
          cases h
          exact .mergeComplete hm hdone hmerging
      · cases h
  | startMerges => exact startMerges_eq_ok h

end Feldera.Trace.Spine
