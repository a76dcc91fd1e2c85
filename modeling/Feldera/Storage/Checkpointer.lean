import Feldera.Algebra.AssocList
import Feldera.Algebra.CrashTriple

/-!
`Checkpointer`: the list of checkpoints of a circuit, in memory and in the file
`checkpoints.feldera`, and the garbage collection of the files that no checkpoint needs any more.

Storage is the base directory of a backend. A write is atomic and durable once it is completed;
every operation can fail, and the process can be killed at every operation. A recursive deletion
that does not succeed may have deleted some of the files.
-/

namespace Feldera.Storage

open Crash

abbrev Uuid := Nat

inductive Reserved
  | checkpoints
  | steps
  | state
  | status
  | statusMut
  | adhocTemp
  | activationMarker
deriving DecidableEq

inductive Extension
  | mut
  | feldera
  | other (name : Nat)
deriving DecidableEq

/-- A name in the base directory. A checkpoint directory has the uuid as its name; other names
consist of a stem and an extension. -/
inductive Name
  | reserved (r : Reserved)
  | checkpointDir (uuid : Uuid)
  | other (stem : Nat) (extension : Option Extension)
deriving DecidableEq

/-- The names of the files that batches are stored in. -/
def Name.isBatch : Name → Bool
  | .other _ (some .feldera) => true
  | _ => false

theorem Name.exists_of_isBatch {n : Name} (h : n.isBatch = true) :
    ∃ stem, n = .other stem (some .feldera) := by
  unfold Name.isBatch at h
  split at h
  · exact ⟨_, rfl⟩
  · cases h

inductive Child
  | marker
  | dependencies
  | pspineBatches (id : Nat)
  | other (id : Nat)
deriving DecidableEq

structure Metadata where
  uuid : Uuid
  identifier : Option String
  fingerprint : Nat
  size : Option Nat
  processedRecords : Option Nat
  steps : Option Nat
deriving DecidableEq

/-- What a file holds: the list of checkpoints, the batches of a spine, a list of dependencies, or
something that the checkpointer does not look into. -/
inductive Content
  | checkpoints (list : List Metadata)
  | pspineBatches (files : List Name)
  | dependencies (files : List Name)
  | data (size : Nat)
deriving DecidableEq

inductive Entry
  | file (c : Content)
  | directory (files : List (Child × Content))
deriving DecidableEq

abbrev Directory := List (Name × Entry)

namespace Directory

variable (d : Directory)

variable (n : Name)

def find : Option Entry :=
  List.lookup n d

def put (e : Entry) : Directory :=
  (n, e) :: d.filter fun p => p.1 ≠ n

def erase : Directory :=
  d.filter fun p => p.1 ≠ n

def children : Option (List (Child × Content)) :=
  match d.find n with
  | some (.directory files) => some files
  | _ => none

def isFile : Bool :=
  match d.find n with
  | some (.file _) => true
  | _ => false

/-- A file in a subdirectory is written; the subdirectory is created if there is none. -/
def putChild (c : Child) (content : Content) : Directory :=
  d.put n (.directory ((c, content) :: ((d.children n).getD []).filter fun p => p.1 ≠ c))

/-- The first files of a subdirectory are deleted. -/
def dropChildren (count : Nat) : Directory :=
  match d.find n with
  | some (.directory files) => d.put n (.directory (files.drop count))
  | _ => d

variable {d : Directory} {n m : Name} {e : Entry}

theorem find_erase (d : Directory) (n m : Name) :
    (d.erase n).find m = if m = n then none else d.find m :=
  AssocList.lookup_filter_ne d n m

theorem find_put (d : Directory) (n m : Name) (e : Entry) :
    (d.put n e).find m = if m = n then some e else d.find m := by
  have hrest := find_erase d n m
  unfold erase find at hrest
  unfold put find
  rw [List.lookup_cons, hrest]
  by_cases hm : m = n
  · simp [hm]
  · simp [hm, beq_false_of_ne hm]

theorem find_putChild_of_ne (c : Child) (content : Content) (h : m ≠ n) :
    (d.putChild n c content).find m = d.find m := by
  rw [putChild, find_put, if_neg h]

theorem find_dropChildren_of_ne (count : Nat) (h : m ≠ n) :
    (d.dropChildren n count).find m = d.find m := by
  unfold dropChildren
  split
  · rw [find_put, if_neg h]
  · rfl

theorem find_dropChildren_eq_none (count : Nat) (h : d.find m = none) :
    (d.dropChildren n count).find m = none := by
  by_cases hm : m = n
  · unfold dropChildren
    rw [← hm, h]
    exact h
  · rw [find_dropChildren_of_ne count hm, h]

theorem mem_of_find (h : d.find n = some e) : (n, e) ∈ d :=
  AssocList.mem_of_lookup h

end Directory

inductive StorageError
  | notFound
  | json
  | io
  | incompatibleStorage
deriving DecidableEq

structure State where
  storage : Directory
  checkpointList : List Metadata
  warnings : List Name

def State.onStorage (s : State) (d : Directory) : State :=
  { s with storage := d }

abbrev Operation := Prog State StorageError

section

def storageOp {α : Type} (effect : Directory → Except StorageError α × Directory)
    (part : Nat → Directory → Directory) : Operation α :=
  .op .io (fun s => ((effect s.storage).1, s.onStorage (effect s.storage).2))
    fun n s => s.onStorage (part n s.storage)

def readOp {α : Type} (read : Directory → Except StorageError α) : Operation α :=
  storageOp (fun d => (read d, d)) fun _ d => d

variable (n : Name)

/-- `write` and `write_json` in the base directory. -/
def write (content : Content) : Operation Unit :=
  storageOp (fun d => (.ok (), d.put n (.file content))) fun _ d => d

/-- `write` and `write_json` in a checkpoint directory. -/
def writeChild (c : Child) (content : Content) : Operation Unit :=
  storageOp (fun d => (.ok (), d.putChild n c content)) fun _ d => d

def commitFile : Operation Unit :=
  readOp fun _ => .ok ()

def list : Operation Directory :=
  readOp fun d => .ok d

def listChildren : Operation (List (Child × Content)) :=
  readOp fun d =>
    match d.find n with
    | some (.directory files) => .ok files
    | some (.file _) => .error .io
    | none => .error .notFound

/-- `read_json` of a file in a subdirectory that lists the batches of a spine. -/
def readBatches (c : Child) : Operation (List Name) :=
  readOp fun d =>
    match ((d.children n).getD []).lookup c with
    | some (.pspineBatches files) => .ok files
    | some _ => .error .json
    | none => .error .notFound

def delete : Operation Unit :=
  storageOp
    (fun d =>
      match d.find n with
      | some (.file _) => (.ok (), d.erase n)
      | some (.directory _) => (.error .io, d)
      | none => (.error .notFound, d))
    fun _ d => d

/-- `delete_recursive`. What is not found need not be deleted. -/
def deleteRecursive : Operation Unit :=
  storageOp (fun d => (.ok (), d.erase n)) fun count d => d.dropChildren n count

def deleteIfExists : Operation Unit :=
  .handle (delete n) fun e => if e = .notFound then pure () else .fail e

def warn : Operation Unit :=
  .modify fun s => { s with warnings := n :: s.warnings }

end

section

/-- `gather_batches_for_checkpoint`: the batches that the spines of a checkpoint consist of. -/
def gatherSpines (n : Name) : List Child → Operation (List Name)
  | [] => pure []
  | c :: spines => do
    let files ← readBatches n c
    let rest ← gatherSpines n spines
    pure (files ++ rest)

/-- The files in a checkpoint directory that list batches. -/
def isSpine : Child → Bool
  | .pspineBatches _ => true
  | _ => false

def gatherBatches (uuid : Uuid) : Operation (List Name) :=
  if uuid = 0 then .crash
  else do
    let files ← listChildren (.checkpointDir uuid)
    gatherSpines (.checkpointDir uuid) ((files.map Prod.fst).filter isSpine)

-- how long a file with some contents is
variable (len : Content → Nat)

def measureCheckpointStorageUse (uuid : Uuid) : Operation Nat :=
  .handle
    (do
      let files ← listChildren (.checkpointDir uuid)
      pure (files.map fun p => len p.2).sum)
    fun e => if e = .notFound then pure 0 else .fail e

def Entry.size : Entry → Nat
  | .file c => len c
  | .directory _ => 0

/-- `measure_storage_use`: only the files in the base directory itself. -/
def measureStorageUse : Operation Nat := do
  let entries ← list
  pure (entries.map fun p => p.2.size len).sum

def updateCheckpointFile : Operation Unit := do
  let checkpoints ← .get State.checkpointList
  write (.reserved .checkpoints) (.checkpoints checkpoints)
  commitFile

def tryReadCheckpoints : Operation (List Metadata) :=
  readOp fun d =>
    match d.find (.reserved .checkpoints) with
    | some (.file (.checkpoints l)) => .ok l
    | some (.file _) => .error .json
    | some (.directory _) => .error .io
    | none => .ok []

def commit (fingerprint : Nat) (uuid : Uuid) (identifier : Option String)
    (steps processedRecords : Option Nat) : Operation Metadata := do
  writeChild (.checkpointDir uuid) .marker (.data 0)
  let batches ← gatherBatches uuid
  writeChild (.checkpointDir uuid) .dependencies (.dependencies batches)
  commitFile
  let used ← measureCheckpointStorageUse len uuid
  let md : Metadata := ⟨uuid, identifier, fingerprint, some used, processedRecords, steps⟩
  .modify fun s => { s with checkpointList := s.checkpointList ++ [md] }
  updateCheckpointFile
  pure md

/-- `remove_batch_file`: an error is logged. -/
def removeBatchFile (n : Name) : Operation Unit :=
  .handle (deleteIfExists n) fun _ => warn n

def removeCheckpointDir (c : Metadata) : Operation Unit :=
  if c.uuid = 0 then .crash else deleteRecursive (.checkpointDir c.uuid)

/-- `gc_checkpoint`, where `MIN_CHECKPOINT_THRESHOLD` is 2. -/
def gcCheckpoint : Operation (Option Metadata) := do
  let checkpoints ← .get State.checkpointList
  match checkpoints with
  | removed :: next :: third :: rest =>
    .modify fun s => { s with checkpointList := next :: third :: rest }
    updateCheckpointFile
    let potentiallyRemove ← gatherBatches removed.uuid
    let needToKeep ← gatherBatches next.uuid
    .each removeBatchFile (potentiallyRemove.filter fun n => n ∉ needToKeep)
    removeCheckpointDir removed
    pure (some removed)
  | _ => pure none

def Name.isFeldera : Name → Bool
  | .reserved .checkpoints => true
  | .reserved .statusMut => true
  | .reserved .activationMarker => true
  | .other _ (some .mut) => true
  | .other _ (some .feldera) => true
  | _ => false

def Entry.isDirectory : Entry → Bool
  | .file _ => false
  | .directory _ => true

/-- The batches of all listed checkpoints. It is a panic if they cannot be found. -/
def gatherAll : List Metadata → Operation (List Name)
  | [] => pure []
  | c :: l => do
    let batches ← .handle (gatherBatches c.uuid) fun _ => .crash
    let rest ← gatherAll l
    pure (.checkpointDir c.uuid :: batches ++ rest)

/-- What `gc_startup` does with an entry of the base directory. -/
def sweep (inUse : List Name) (p : Name × Entry) : Operation Unit :=
  if p.1 ∉ inUse ∧ (p.1.isFeldera || p.2.isDirectory) then
    .handle (deleteRecursive p.1) fun _ => warn p.1
  else pure ()

def reservedNames : List Name :=
  [.reserved .checkpoints, .reserved .steps, .reserved .state, .reserved .status,
    .reserved .statusMut, .reserved .adhocTemp, .reserved .activationMarker]

/-- `gc_startup`: everything in the base directory that no checkpoint refers to is removed. The
result is the size of the files that are left. -/
def gcStartup : Operation Nat := do
  let checkpoints ← .get State.checkpointList
  let batches ← gatherAll checkpoints
  let inUse := reservedNames ++ batches
  let entries ← list
  .each (sweep inUse) entries
  pure ((entries.filter fun p => !decide (p.1 ∉ inUse ∧ (p.1.isFeldera || p.2.isDirectory))).map
    fun p => p.2.size len).sum

/-- `init_storage`. The result becomes the usage counter of the backend. -/
def initStorage : Operation Nat := do
  let checkpoints ← .get State.checkpointList
  if checkpoints ≠ [] then gcStartup len else measureStorageUse len

def newCheckpointer (fingerprint : Nat) (fingerprintMustMatch : Bool) : Operation Unit := do
  let checkpoints ← tryReadCheckpoints
  .modify fun s => { s with checkpointList := checkpoints }
  let _ ← initStorage len
  if fingerprintMustMatch ∧ ∃ c ∈ checkpoints, c.fingerprint ≠ fingerprint then
    .fail .incompatibleStorage

end

end Feldera.Storage
