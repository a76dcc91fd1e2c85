import Feldera.Trace.PushMergerCalls

/-!
`Spine`: batches sorted into slots by their size, and a background worker that merges
the batches of a slot. The worker and the callers share the slots under a lock that is
dropped between steps, so an action below is what one of them does while it holds the
lock, together with what it does to its own data before it takes the lock again. The
actions of a call or of a round of the worker can be interleaved in any way with those
of the other side.

A batch in a slot is kept as its layers, since a merge may build layers that are not
well formed.
-/

namespace Feldera.Trace.Spine

open Weighted Time

inductive BatchLocation
  | memory
  | storage
deriving DecidableEq

structure Stored (K V T R : Type*) where
  layers : Layers K V T R
  location : BatchLocation

inductive MergerType
  | pushMerger
  | listMerger
deriving DecidableEq

structure Config (K V T R : Type*) where
  mergerType : MergerType
  minIndexStorageBytes : Option Nat
  approximateByteSize : Stored K V T R → Nat
  timed : Bool
  debugAssertions : Bool

inductive Stop
  | notEnabled
  | panic
  | assertion
deriving DecidableEq

def usizeMax : Nat := 2 ^ 64 - 1

abbrev maxLevels : Nat := 9

instance : NeZero maxLevels := inferInstance

variable {K V T R : Type*}

variable (b : Stored K V T R)

/-- `len`: a batch in memory counts its updates, one on storage its rows. -/
def Stored.len : Nat :=
  match b.location with
  | .memory => b.layers.tuples.length
  | .storage => (b.layers.map fun p => p.2.length).sum

def Stored.isEmpty : Bool :=
  decide (b.len = 0)

/-- `persisted`: a batch in memory is copied to storage. -/
def Stored.persisted : Stored K V T R :=
  { b with location := .storage }

def sizeToLevel (len : Nat) : Fin maxLevels :=
  if len ≤ 9999 then 0
  else if len ≤ 99999 then 1
  else if len ≤ 999999 then 2
  else if len ≤ 9999999 then 3
  else if len ≤ 99999999 then 4
  else if len ≤ 999999999 then 5
  else if len ≤ 9999999999 then 6
  else if len ≤ 99999999999 then 7
  else 8

/-- The loop of `pick_merge_destination` over sizes. -/
def reaches (min : Nat) : Nat → List Nat → Bool
  | _, [] => false
  | size, s :: sizes => decide (min ≤ size + s) || reaches min (size + s) sizes

def pickMergeDestination (cfg : Config K V T R) (batches : List (Stored K V T R))
    (dstHint : Option BatchLocation) : BatchLocation :=
  match dstHint with
  | some location => location
  | none =>
    let min := cfg.minIndexStorageBytes.getD usizeMax
    if min = 0 then .storage
    else if min = usizeMax then .memory
    else if reaches min 0 (batches.map cfg.approximateByteSize) then .storage
    else .memory

structure Slot (K V T R : Type*) where
  mergingBatches : Option (List (Stored K V T R))
  looseBatches : List (Stored K V T R)

/-- Minimum and maximum numbers of batches to merge at a level. -/
def mergeCounts (level : Fin maxLevels) : Nat × Nat :=
  if level.val < 2 then (8, 64) else if level.val < 6 then (3, 64) else (2, 64)

/-- `Slot::try_start_merge`: the slot and, if a merge starts, its inputs. -/
def Slot.tryStartMerge (slot : Slot K V T R) (level : Fin maxLevels) :
    Slot K V T R × Option (List (Stored K V T R)) :=
  if slot.mergingBatches.isNone && decide ((mergeCounts level).1 ≤ slot.looseBatches.length) then
    let n := min (mergeCounts level).2 slot.looseBatches.length
    let batches := slot.looseBatches.take n
    (⟨some batches, slot.looseBatches.drop n⟩, some batches)
  else (slot, none)

def Slot.allBatches (slot : Slot K V T R) : List (Stored K V T R) :=
  slot.looseBatches ++ slot.mergingBatches.getD []

structure Shared (K V T R : Type*) where
  keyFilter : Option (K → Bool)
  valueFilter : Option (V → Bool)
  frontier : T
  slots : Fin maxLevels → Slot K V T R

namespace Shared

def new [LinearOrder T] [Timestamp T] : Shared K V T R :=
  ⟨none, none, Timestamp.minimum, fun _ => ⟨none, []⟩⟩

variable (s : Shared K V T R)

def setSlot (level : Fin maxLevels) (slot : Slot K V T R) : Shared K V T R :=
  { s with slots := Function.update s.slots level slot }

/-- `add_batch` without its assertion. -/
def push (b : Stored K V T R) : Shared K V T R :=
  let level := sizeToLevel b.len
  s.setSlot level
    { s.slots level with looseBatches := (s.slots level).looseBatches ++ [b] }

/-- `add_batch`: asserts that the batch is not empty. -/
def addBatch (cfg : Config K V T R) (s : Shared K V T R) (b : Stored K V T R) :
    Except Stop (Shared K V T R) :=
  if cfg.debugAssertions && b.isEmpty then .error .assertion else .ok (s.push b)

/-- `add_batches`: skips what is empty. -/
def addBatches (cfg : Config K V T R) (s : Shared K V T R) :
    List (Stored K V T R) → Except Stop (Shared K V T R)
  | [] => .ok s
  | b :: batches =>
    if b.isEmpty then addBatches cfg s batches
    else (addBatch cfg s b).bind fun s' => addBatches cfg s' batches

def getBatches : List (Stored K V T R) :=
  (List.finRange maxLevels).flatMap fun level => (s.slots level).allBatches

/-- `take_loose_batches`: the batches, and what stays. -/
def takeLooseBatches : List (Stored K V T R) × Shared K V T R :=
  ((List.finRange maxLevels).flatMap fun level => (s.slots level).looseBatches,
    { s with slots := fun level => { s.slots level with looseBatches := [] } })

def isMerging : Bool :=
  (List.finRange maxLevels).any fun level => (s.slots level).mergingBatches.isSome

/-- `merge_complete`: a merge that is not there panics. -/
def mergeComplete (cfg : Config K V T R) (s : Shared K V T R) (level : Fin maxLevels)
    (newBatch : Stored K V T R) : Except Stop (Shared K V T R) :=
  match (s.slots level).mergingBatches with
  | none => .error .panic
  | some _ =>
    (s.setSlot level { s.slots level with mergingBatches := none }).addBatches cfg [newBatch]

end Shared

structure Merge (K V T R : Type*) where
  mergerType : MergerType
  keyFilter : Option (K → Bool)
  valueFilter : Option (V → Bool)
  location : BatchLocation
  n : Nat
  state : PushMerger.State n K V T R
  done : Bool

structure Readiness where
  keyReady : Nat → Nat → Bool
  valReady : Nat → Nat → Nat → Bool

/-- The data of the worker: what it read when its round began, and its merges. -/
structure Worker (K V T R : Type*) where
  keyFilter : Option (K → Bool)
  valueFilter : Option (V → Bool)
  frontier : T
  mergers : Fin maxLevels → Option (Merge K V T R)

def Worker.new [LinearOrder T] [Timestamp T] : Worker K V T R :=
  ⟨none, none, Timestamp.minimum, fun _ => none⟩

structure State (K V T R : Type*) where
  shared : Shared K V T R
  worker : Worker K V T R
  keyFilter : Option (K → Bool)
  valueFilter : Option (V → Bool)
  held : List (Stored K V T R)
  checkpoint : Option (List (Stored K V T R))

def State.new [LinearOrder T] [Timestamp T] : State K V T R :=
  ⟨.new, .new, none, none, [], none⟩

def State.holdLoose (s : State K V T R) : State K V T R :=
  let (loose, shared) := s.shared.takeLooseBatches
  { s with shared := shared, held := s.held ++ loose }

section

variable [LinearOrder K] [LinearOrder V] [LinearOrder T] [AddCommMonoid R] [DecidableEq R]

/-- `Merge::new`: more than 64 inputs are refused. -/
def Merge.new (cfg : Config K V T R) (batches : List (Stored K V T R))
    (keyFilter : Option (K → Bool)) (valueFilter : Option (V → Bool)) : Option (Merge K V T R) :=
  let cursor (i : Fin batches.length) : Layers K V T R :=
    match cfg.mergerType with
    | .listMerger => mergeCursorStart keyFilter valueFilter (batches.get i).layers
    | .pushMerger => (batches.get i).layers
  (ListMerger.new cursor).map fun state =>
    ⟨cfg.mergerType, keyFilter, valueFilter, pickMergeDestination cfg batches none,
      batches.length, state, false⟩

/-- A merge after a call of `PushMerger::merge`. -/
def Merge.afterPush (m : Merge K V T R) (state : PushMerger.State m.n K V T R) :
    PushMerger.Flow → Except Stop (Merge K V T R)
  | .panics => .error .panic
  | .pending => .ok { m with state := state, done := false }
  | _ => .ok { m with state := state, done := decide (0 < state.fuel) }

variable [Timestamp T]

def Merge.merge (cfg : Config K V T R) (m : Merge K V T R) (frontier : T) (fuel : ℤ)
    (ready : Readiness) : Except Stop (Merge K V T R) :=
  let bound := ListMerger.sizeLeft m.state + 1
  let mergerConfig := ListMerger.Config.ofFrontier cfg.timed Timestamp.minimum frontier
  match m.mergerType with
  | .listMerger =>
    let state := ListMerger.work (mergeCursor m.keyFilter m.valueFilter) mergerConfig bound
      (m.state.refuel fuel)
    .ok { m with state := state, done := decide (0 < state.fuel) }
  | .pushMerger =>
    let r := PushMerger.merge ⟨fuel, fun i => ready.keyReady i, fun i => ready.valReady i⟩
      m.keyFilter m.valueFilter mergerConfig bound m.state
    m.afterPush r.1 r.2

variable (cfg : Config K V T R)

def mergeOnce (keyFilter : Option (K → Bool)) (valueFilter : Option (V → Bool))
    (location : BatchLocation) (batches : List (Stored K V T R)) : Except Stop (Stored K V T R) :=
  match ListMerger.merge keyFilter valueFilter cfg.timed Timestamp.minimum
      fun i => (batches.get i).layers with
  | some layers => .ok ⟨layers, location⟩
  | none => .error .panic

/-- The loop of `merge_batches`: merges the last 64 batches until one is left. -/
def mergeLoop (cfg : Config K V T R) (keyFilter : Option (K → Bool))
    (valueFilter : Option (V → Bool)) (batches : List (Stored K V T R)) :
    Except Stop (List (Stored K V T R)) :=
  if 1 < batches.length then
    match mergeOnce cfg keyFilter valueFilter .memory (batches.drop (batches.length - 64)) with
    | .error e => .error e
    | .ok result =>
      if result.isEmpty then
        mergeLoop cfg keyFilter valueFilter (batches.take (batches.length - 64))
      else
        mergeLoop cfg keyFilter valueFilter (batches.take (batches.length - 64) ++ [result])
  else .ok batches
termination_by batches.length
decreasing_by all_goals simp; omega

def mergeBatches (keyFilter : Option (K → Bool)) (valueFilter : Option (V → Bool))
    (batches : List (Stored K V T R)) : Except Stop (Stored K V T R) :=
  (mergeLoop cfg keyFilter valueFilter (batches.filter fun b => !b.isEmpty)).map fun left =>
    left.getLast?.getD ⟨[], .memory⟩

/-- A batch in memory that its first merge would write to storage. -/
def isRewritten (batch : Stored K V T R) : Bool :=
  decide (batch.location = .memory) && decide (pickMergeDestination cfg [batch] none = .storage)

/-- What `insert` adds: such a batch is written to storage right away, through the filters. -/
def rewritten (s : Shared K V T R) (batch : Stored K V T R) : Except Stop (Stored K V T R) :=
  if isRewritten cfg batch then mergeOnce cfg s.keyFilter s.valueFilter .storage [batch]
  else .ok batch

variable (s : State K V T R)

/-- `Spine::insert` and `Spine::insert_arc`, which differ in who owns the batch only. -/
def insert (batch : Stored K V T R) : Except Stop (State K V T R) :=
  if batch.isEmpty then .ok s
  else
    (rewritten cfg s.shared batch).bind fun batch =>
      (s.shared.addBatch cfg batch).map fun shared => { s with shared := shared }

inductive Action (K V T R : Type*) [LinearOrder K] [LinearOrder V] [LinearOrder T]
    [AddCommMonoid R]
  | insert (batch : Batch K V T R) (location : BatchLocation)
  | insertArc (batch : Batch K V T R) (location : BatchLocation)
  | retainKeys (filter : K → Bool)
  | retainValues (filter : V → Bool)
  | setFrontier (frontier : T)
  /-- The first half of `AsyncMerger::pause`, before it waits. -/
  | takeLoose
  /-- The second half, once no merge is going on. -/
  | awaitIdle
  | pauseNewMerges
  | resume
  /-- `complete_merges` and `consolidate` between `pause` and `resume`. -/
  | mergePaused
  /-- `save` up to its `resume`. -/
  | save
  /-- `restore` of the last checkpoint by a new spine. -/
  | restore
  /-- The worker begins a round. -/
  | readShared
  | merge (level : Fin maxLevels) (avgSlot0MergeFuel : ℤ) (ready : Readiness)
  | mergeComplete (level : Fin maxLevels)
  | startMerges

/-- `AsyncMerger::run` starts a merge in every slot that is ready for one. -/
def startMerges : Except Stop (State K V T R) :=
  let started (level : Fin maxLevels) := (s.shared.slots level).tryStartMerge level
  let created (level : Fin maxLevels) : Option (Option (Merge K V T R)) :=
    match (started level).2 with
    | some batches => (Merge.new cfg batches s.worker.keyFilter s.worker.valueFilter).map some
    | none => some (s.worker.mergers level)
  if (List.finRange maxLevels).all fun level => (created level).isSome then
    .ok { s with
      shared := { s.shared with slots := fun level => (started level).1 }
      worker := { s.worker with mergers := fun level => (created level).join } }
  else .error .panic

def step : Action K V T R → Except Stop (State K V T R)
  | .insert batch location => insert cfg s ⟨batch.layers, location⟩
  | .insertArc batch location => insert cfg s ⟨batch.layers, location⟩
  | .retainKeys filter =>
    .ok { s with
      shared := { s.shared with keyFilter := some filter }
      keyFilter := some filter }
  | .retainValues filter =>
    .ok { s with
      shared := { s.shared with valueFilter := some filter }
      valueFilter := some filter }
  | .setFrontier frontier => .ok { s with shared := { s.shared with frontier := frontier } }
  | .takeLoose => .ok s.holdLoose
  | .awaitIdle => if s.shared.isMerging then .error .notEnabled else .ok s.holdLoose
  | .pauseNewMerges => .ok s.holdLoose
  | .resume =>
    (s.shared.addBatches cfg s.held).map fun shared => { s with shared := shared, held := [] }
  | .mergePaused =>
    (mergeBatches cfg s.keyFilter s.valueFilter s.held).map fun batch =>
      { s with held := [batch] }
  | .save =>
    -- `save` borrows the spine mutably, so no other caller is paused.
    if s.held.isEmpty then
      let (notMerging, shared) := s.shared.takeLooseBatches
      let notMerging := notMerging.map Stored.persisted
      .ok { s with
        shared := shared
        held := notMerging
        checkpoint := some (notMerging ++ shared.getBatches.map Stored.persisted) }
    else .error .notEnabled
  | .restore =>
    match s.checkpoint with
    | none => .error .notEnabled
    | some batches =>
      batches.foldlM (insert cfg) { State.new with checkpoint := some batches }
  | .readShared =>
    .ok { s with
      worker := { s.worker with
        keyFilter := s.shared.keyFilter
        valueFilter := s.shared.valueFilter
        frontier := s.shared.frontier } }
  | .merge level avgSlot0MergeFuel ready =>
    match s.worker.mergers level with
    | none => .error .notEnabled
    | some m =>
      if m.done then .error .notEnabled
      else
        let fuel := if level = 0 then ListMerger.isizeMax else avgSlot0MergeFuel
        (m.merge cfg s.worker.frontier fuel ready).map fun m =>
          { s with worker := { s.worker with
              mergers := Function.update s.worker.mergers level (some m) } }
  | .mergeComplete level =>
    match s.worker.mergers level with
    | none => .error .notEnabled
    | some m =>
      if m.done then
        (s.shared.mergeComplete cfg level ⟨m.state.builder.done, m.location⟩).map fun shared =>
          { s with
            shared := shared
            worker := { s.worker with
              mergers := Function.update s.worker.mergers level none } }
      else .error .notEnabled
  | .startMerges => startMerges cfg s

end

end Feldera.Trace.Spine
