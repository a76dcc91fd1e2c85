import Mathlib.Tactic

/-!
`PosixBackend`: files below a base directory, written under a name that ends in `.mut`, renamed
once they are complete, and deleted when the last handle of an unmarked file is dropped. The
backend counts the bytes in use; a `Checkpointer` gives it the initial value.

Of a file there is only its size, and of a block only its length. No other process changes the
directory and the removal of a file that exists succeeds; writing, syncing and renaming can fail.
-/

namespace Feldera.Posix

/-- A component of a path: a stem, perhaps the extension `.feldera`, and any number of extensions
`.mut`. -/
structure Part where
  stem : Nat
  feldera : Bool
  muts : Nat
deriving DecidableEq

/-- `is_feldera_filename`: the last extension is one that the system uses itself. -/
def Part.isFelderaFilename (p : Part) : Bool :=
  p.muts ≠ 0 || p.feldera

def Part.withoutExtension (p : Part) : Part :=
  if p.muts = 0 then { p with feldera := false } else { p with muts := p.muts - 1 }

structure Path where
  directory : List Part
  leaf : Part
deriving DecidableEq

namespace Path

def parts (p : Path) : List Part :=
  p.directory ++ [p.leaf]

/-- `append_to_path` with `MUTABLE_EXTENSION`. -/
def appendMut (p : Path) : Path :=
  { p with leaf := { p.leaf with muts := p.leaf.muts + 1 } }

def withoutExtension (p : Path) : Path :=
  { p with leaf := p.leaf.withoutExtension }

@[simp] theorem withoutExtension_appendMut (p : Path) : p.appendMut.withoutExtension = p := by
  simp [appendMut, withoutExtension, Part.withoutExtension]

theorem appendMut_ne (p : Path) : p.appendMut ≠ p := by
  intro h
  have hmuts := congrArg (fun q => q.leaf.muts) h
  simp only [appendMut] at hmuts
  omega

/-- The path of a file in the directory `p`, at any depth. -/
def isAbove (p q : Path) : Bool :=
  p.parts.isPrefixOf q.directory

end Path

abbrev Inode := Nat

structure Disk where
  files : List (Path × Inode)
  directories : List (List Part)
  sizes : Inode → Nat
  nextInode : Inode
  /-- What `metadata().size()` is for a directory. -/
  directorySize : Nat

inductive ErrorKind
  | notFound
  | notADirectory
  | isADirectory
  | other
deriving DecidableEq

namespace Disk

variable (d : Disk)

variable (p : Path)

def find : Option Inode :=
  d.files.lookup p

def isDirectory : Bool :=
  p.parts ∈ d.directories

/-- `metadata().size()`, or zero if there is nothing. -/
def metadataSize : Nat :=
  match d.find p with
  | some i => d.sizes i
  | none => if d.isDirectory p then d.directorySize else 0

def total : Nat :=
  (d.files.map fun f => d.sizes f.2).sum

/-- A file is opened with `create` and `truncate`, after the directories above it were created. -/
def create : Except ErrorKind (Inode × Disk) :=
  if d.isDirectory p then
    .error .isADirectory
  else if d.files.any fun f => f.1.isAbove p then
    .error .notADirectory
  else
    match d.find p with
    | some i => .ok (i, { d with sizes := Function.update d.sizes i 0 })
    | none =>
      let missing := p.directory.inits.filter fun q => q ≠ [] && !d.directories.contains q
      .ok (d.nextInode,
        { d with
          files := (p, d.nextInode) :: d.files
          directories := d.directories ++ missing
          sizes := Function.update d.sizes d.nextInode 0
          nextInode := d.nextInode + 1 })

/-- Bytes are written to an open file, whether or not it still has a path. -/
def extend (i : Inode) (position written : Nat) : Disk :=
  if written = 0 then d
  else { d with sizes := Function.update d.sizes i (max (d.sizes i) (position + written)) }

def unlink : Disk :=
  { d with files := d.files.filter fun f => f.1 ≠ p }

/-- The file `i` gets the path `target`, in the place of one that has it. -/
def rename (source target : Path) (i : Inode) : Disk :=
  { d with files := (target, i) :: d.files.filter fun f => f.1 ≠ source && f.1 ≠ target }

def below : List (Path × Inode) :=
  d.files.filter fun f => p.isAbove f.1

/-- A directory is removed with all that is in it. -/
def removeDirAll : Disk :=
  { d with
    files := d.files.filter fun f => !p.isAbove f.1
    directories := d.directories.filter fun q => !p.parts.isPrefixOf q }

end Disk

structure DeleteOnDrop where
  path : Path
  keep : Bool
  size : Nat

/-- `PosixWriter`; of the buffers there are the lengths. `position` is that of the open file. -/
structure PosixWriter where
  inode : Inode
  position : Nat
  drop : DeleteOnDrop
  name : Path
  buffers : List Nat
  len : Nat

structure PosixReader where
  inode : Inode
  drop : DeleteOnDrop
  name : Path

inductive Handle
  | writer (w : PosixWriter)
  | reader (r : PosixReader)

namespace Handle

def inode : Handle → Inode
  | writer w => w.inode
  | reader r => r.inode

def drop : Handle → DeleteOnDrop
  | writer w => w.drop
  | reader r => r.drop

end Handle

/-- The backend with all writers and readers that were handed out. The place of a handle in the
list is its identity; a handle that was dropped leaves its place empty. -/
structure State where
  disk : Disk
  handles : List (Option Handle)
  usage : Int

namespace State

def handle (s : State) (i : Nat) : Option Handle :=
  s.handles[i]?.join

def setHandle (s : State) (i : Nat) (h : Option Handle) : State :=
  { s with handles := s.handles.set i h }

def addHandle (s : State) (h : Handle) : State :=
  { s with handles := s.handles ++ [some h] }

end State

/-- `Drop for DeleteOnDrop`. A removal fails only if there is no such file. -/
def DeleteOnDrop.dropped (x : DeleteOnDrop) (s : State) : State :=
  if x.keep then s
  else
    match s.disk.find x.path with
    | none => s
    | some _ => { s with disk := s.disk.unlink x.path, usage := s.usage - x.size }

namespace PosixWriter

variable (w : PosixWriter)

/-- `flush`. A fault is the number of bytes that are written before an error; it is zero if the
limit on the usage is exceeded. The buffers are only cleared if all of them were written. -/
def flush (fault : Option Nat) (s : State) : Except ErrorKind Unit × PosixWriter × State :=
  let written := match fault with
    | none => w.buffers.sum
    | some n => min n w.buffers.sum
  let size := w.drop.size + written
  let w' := { w with position := w.position + written, drop := { w.drop with size := size } }
  let s' := { s with
    disk := s.disk.extend w.inode w.position written, usage := s.usage + written }
  match fault with
  | none => (.ok (), { w' with buffers := [] }, s')
  | some _ => (.error .other, w', s')

def push (bytes : Nat) : PosixWriter :=
  { w with len := w.len + bytes, buffers := w.buffers ++ [bytes] }

/-- `write`. The length is that of all blocks ever written, so that after the first MiB every
block is flushed before the next one. -/
def write (bytes : Nat) (fault : Option Nat) (s : State) :
    Except ErrorKind Unit × PosixWriter × State :=
  if 1024 * 1024 ≤ w.len then
    match w.flush fault s with
    | (.ok (), w', s') => (.ok (), w'.push bytes, s')
    | (.error e, w', s') => (.error e, w', s')
  else
    (.ok (), w.push bytes, s)

inductive Fault
  | none
  | flush (written : Nat)
  | sync
  | rename
deriving DecidableEq

def Fault.inFlush : Fault → Option Nat
  | .flush written => some written
  | _ => Option.none

/-- The second half of `complete`: the old size is subtracted before the file is renamed, and the
writer is dropped if an error is returned. -/
def finalize (fault : Fault) (s : State) : Except ErrorKind PosixReader × State :=
  let finalizedPath := w.drop.path.withoutExtension
  if fault = .sync then
    (.error .other, w.drop.dropped s)
  else
    let s := { s with usage := s.usage - s.disk.metadataSize finalizedPath }
    match s.disk.find w.drop.path with
    | none => (.error .notFound, w.drop.dropped s)
    | some i =>
      if s.disk.isDirectory finalizedPath then
        (.error .isADirectory, w.drop.dropped s)
      else if fault = .rename then
        (.error .other, w.drop.dropped s)
      else
        (.ok ⟨w.inode, { w.drop with path := finalizedPath }, w.name⟩,
          { s with disk := s.disk.rename w.drop.path finalizedPath i })

def complete (fault : Fault) (s : State) : Except ErrorKind PosixReader × State :=
  if w.buffers = [] then
    w.finalize fault s
  else
    match w.flush fault.inFlush s with
    | (.ok (), w', s') => w'.finalize fault s'
    | (.error e, w', s') => (.error e, w'.drop.dropped s')

end PosixWriter

namespace State

variable (s : State)

variable (name : Path)

def createNamed : Except ErrorKind Nat × State :=
  match s.disk.create name.appendMut with
  | .error e => (.error e, s)
  | .ok (i, d) =>
    (.ok s.handles.length,
      { s with disk := d }.addHandle
        (.writer ⟨i, 0, ⟨name.appendMut, false, 0⟩, name, [], 0⟩))

/-- `open`: the file stays when the reader is dropped. -/
def openReader : Except ErrorKind Nat × State :=
  match s.disk.find name with
  | none => (.error (if s.disk.isDirectory name then .isADirectory else .notFound), s)
  | some i =>
    (.ok s.handles.length, s.addHandle (.reader ⟨i, ⟨name, true, s.disk.sizes i⟩, name⟩))

def delete : Except ErrorKind Unit × State :=
  match s.disk.find name with
  | none => (.error (if s.disk.isDirectory name then .isADirectory else .notFound), s)
  | some i =>
    (.ok (), { s with disk := s.disk.unlink name, usage := s.usage - s.disk.sizes i })

/-- `delete_recursive`. Nothing at the name is no error. In a directory the size of each file is
read and subtracted as the file is removed. -/
def deleteRecursive : Except ErrorKind Unit × State :=
  if (s.disk.find name).isSome then
    s.delete name
  else if s.disk.isDirectory name then
    let bytes := ((s.disk.below name).map fun f => s.disk.sizes f.2).sum
    (.ok (), { s with disk := s.disk.removeDirAll name, usage := s.usage - bytes })
  else
    (.ok (), s)

end State

/-- The calls of the users of a backend, on the handles that it gave to them. -/
inductive Call
  | createNamed (name : Path)
  | write (i bytes : Nat) (fault : Option Nat)
  | complete (i : Nat) (fault : PosixWriter.Fault)
  | markForCheckpoint (i : Nat)
  | drop (i : Nat)
  | openReader (name : Path)
  | delete (name : Path)
  | deleteRecursive (name : Path)

namespace PosixReader

def markForCheckpoint (r : PosixReader) : PosixReader :=
  { r with drop := { r.drop with keep := true } }

end PosixReader

namespace State

/-- A call on a handle that is not there, or is of the other kind, cannot be made. -/
def step (s : State) : Call → State
  | .createNamed name => (s.createNamed name).2
  | .write i bytes fault =>
    match s.handle i with
    | some (.writer w) =>
      let r := w.write bytes fault s
      r.2.2.setHandle i (some (.writer r.2.1))
    | _ => s
  | .complete i fault =>
    match s.handle i with
    | some (.writer w) =>
      match w.complete fault s with
      | (.ok r, s') => s'.setHandle i (some (.reader r))
      | (.error _, s') => s'.setHandle i none
    | _ => s
  | .markForCheckpoint i =>
    match s.handle i with
    | some (.reader r) => s.setHandle i (some (.reader r.markForCheckpoint))
    | _ => s
  | .drop i =>
    match s.handle i with
    | some h => (h.drop.dropped s).setHandle i none
    | none => s
  | .openReader name => (s.openReader name).2
  | .delete name => (s.delete name).2
  | .deleteRecursive name => (s.deleteRecursive name).2

def run (s : State) (calls : List Call) : State :=
  calls.foldl step s

end State

/-! ### Initialisation by the checkpointer -/

inductive StorageFileType
  | file (size : Nat)
  | directory
deriving DecidableEq

namespace Disk

/-- A directory is an entry of the base directory if there is none between them. -/
def directoryEntry : List Part → Option (Part × StorageFileType)
  | [p] => some (p, .directory)
  | _ => none

def list (d : Disk) : List (Part × StorageFileType) :=
  (d.files.filter fun f => f.1.directory = []).map (fun f => (f.1.leaf, .file (d.sizes f.2))) ++
    d.directories.filterMap directoryEntry

end Disk

namespace State

/-- `PosixBackend::new` on a directory that holds something. -/
def new (d : Disk) : State :=
  ⟨d, [], 0⟩

/-- One entry of the directory in `gc_startup`. -/
def gcEntry (inUse : List Part) (x : State × Nat) (entry : Part × StorageFileType) :
    State × Nat :=
  if !inUse.contains entry.1 && (entry.1.isFelderaFilename || entry.2 = .directory) then
    ((x.1.deleteRecursive ⟨[], entry.1⟩).2, x.2)
  else
    match entry.2 with
    | .file size => (x.1, x.2 + size)
    | .directory => x

/-- `gc_startup`, with the paths that are in use. -/
def gcStartup (s : State) (inUse : List Part) : State × Nat :=
  s.disk.list.foldl (gcEntry inUse) (s, 0)

/-- One entry of the directory in `measure_storage_use`. -/
def measureEntry (usage : Nat) (entry : Part × StorageFileType) : Nat :=
  match entry.2 with
  | .file size => usage + size
  | .directory => usage

def measureStorageUse (s : State) : Nat :=
  s.disk.list.foldl measureEntry 0

/-- `init_storage`: the paths in use are those of the listed checkpoints, if there are any. -/
def initStorage (s : State) (checkpoints : Option (List Part)) : State :=
  match checkpoints with
  | some inUse => { (s.gcStartup inUse).1 with usage := (s.gcStartup inUse).2 }
  | none => { s with usage := s.measureStorageUse }

end State

end Feldera.Posix
