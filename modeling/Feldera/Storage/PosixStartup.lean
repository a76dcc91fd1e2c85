import Feldera.Storage.PosixUsageRun

/-!
`init_storage` stores the number of bytes in the files of the base directory itself. From there
on the usage counter stays at the same distance from the total size of all files, so that it is
right exactly if no bytes were in subdirectories.
-/

namespace Feldera.Posix

open AssocList List Disk

theorem lookup_of_mem {α β : Type} [DecidableEq α] {l : List (α × β)} {a : α} {b : β}
    (hnodup : (l.map Prod.fst).Nodup) (h : (a, b) ∈ l) : l.lookup a = some b := by
  cases hl : l.lookup a with
  | none => simpa using lookup_eq_none_iff.mp hl (a, b) h
  | some b' =>
    have heq := inj_on_of_nodup_map hnodup (mem_of_lookup hl) h rfl
    rw [(Prod.mk.inj heq).2]

namespace Disk

variable {d : Disk}

structure WellFormed (d : Disk) : Prop extends d.Lawful where
  entries : (d.list.map Prod.fst).Nodup

def root (d : Disk) : Disk :=
  { d with files := d.files.filter fun f => f.1.directory = [] }

def subdirectoryBytes (d : Disk) : Nat :=
  ((d.files.filter fun f => !decide (f.1.directory = [])).map fun f => d.sizes f.2).sum

theorem total_eq_root_add (d : Disk) : d.total = d.root.total + d.subdirectoryBytes := by
  have h := sum_filter_add_sum_filter_not (fun f : Path × Inode => decide (f.1.directory = []))
    (fun f => d.sizes f.2) d.files
  rw [Nat.add_comm] at h
  exact h.symm

theorem find_root (d : Disk) (p : Part) : d.root.find ⟨[], p⟩ = d.find ⟨[], p⟩ := by
  unfold find root
  rw [lookup_filter_key (fun q : Path => decide (q.directory = []))]
  rfl

theorem root_unlink (d : Disk) (p : Path) : (d.unlink p).root = d.root.unlink p := by
  simp only [root, unlink, filter_filter, Bool.and_comm]

theorem total_root_unlink (hl : d.Lawful) (p : Part) :
    (d.unlink ⟨[], p⟩).root.total + d.fileSize ⟨[], p⟩ = d.root.total := by
  have h := total_unlink (d := d.root) (lawful_filter hl _ _) ⟨[], p⟩
  rw [fileSize, find_root] at h
  rw [root_unlink]
  exact h

theorem root_removeDirAll_files (d : Disk) (p : Part) :
    (d.removeDirAll ⟨[], p⟩).root.files = d.root.files := by
  simp only [root, removeDirAll, filter_filter]
  apply filter_congr
  intro f _
  by_cases hf : f.1.directory = [] <;> simp [hf, Path.isAbove, Path.parts]

theorem total_root_removeDirAll (d : Disk) (p : Part) :
    (d.removeDirAll ⟨[], p⟩).root.total = d.root.total := by
  unfold total
  rw [root_removeDirAll_files]
  rfl

end Disk

variable (entries : List (Part × StorageFileType))

def bytesOf : Nat :=
  entries.foldl State.measureEntry 0

theorem foldl_measureEntry (usage : Nat) :
    entries.foldl State.measureEntry usage = usage + bytesOf entries := by
  induction entries generalizing usage with
  | nil => rfl
  | cons e entries ih =>
    rw [bytesOf, foldl_cons, foldl_cons, ih, ih (State.measureEntry 0 e)]
    unfold State.measureEntry
    split <;> omega

theorem bytesOf_cons (e : Part × StorageFileType) (entries : List (Part × StorageFileType)) :
    bytesOf (e :: entries) = State.measureEntry 0 e + bytesOf entries := by
  rw [bytesOf, foldl_cons, foldl_measureEntry]

theorem bytesOf_append (l l' : List (Part × StorageFileType)) :
    bytesOf (l ++ l') = bytesOf l + bytesOf l' := by
  rw [bytesOf, foldl_append, foldl_measureEntry]
  rfl

theorem bytesOf_directories (l : List (List Part)) :
    bytesOf (l.filterMap directoryEntry) = 0 := by
  induction l with
  | nil => rfl
  | cons q l ih =>
    rw [filterMap_cons]
    split
    · exact ih
    · next e he =>
      rw [bytesOf_cons, ih]
      unfold directoryEntry at he
      split at he
      · cases he
        rfl
      · cases he

theorem bytesOf_files (sizes : Inode → Nat) (l : List (Path × Inode)) :
    bytesOf (l.map fun f => (f.1.leaf, .file (sizes f.2))) = (l.map fun f => sizes f.2).sum := by
  induction l with
  | nil => rfl
  | cons f l ih =>
    rw [map_cons, bytesOf_cons, ih, map_cons, sum_cons]
    simp [State.measureEntry]

theorem Disk.bytesOf_list (d : Disk) : bytesOf d.list = d.root.total := by
  rw [Disk.list, bytesOf_append, bytesOf_directories, bytesOf_files]
  rfl

namespace State

variable {s : State}

/-- The entry is still what it was when the directory was listed. -/
def Present (d : Disk) (e : Part × StorageFileType) : Prop :=
  match e.2 with
  | .file size => ∃ i, d.find ⟨[], e.1⟩ = some i ∧ d.sizes i = size
  | .directory => d.find ⟨[], e.1⟩ = none

variable {d : Disk} {e : Part × StorageFileType}

theorem present_list (hd : d.WellFormed) (he : e ∈ d.list) : Present d e := by
  have hfile : ∀ f ∈ d.files, f.1.directory = [] →
      (f.1.leaf, StorageFileType.file (d.sizes f.2)) ∈ d.list := fun f hf hroot =>
    mem_append_left _ (mem_map.mpr ⟨f, mem_filter.mpr ⟨hf, by simpa⟩, rfl⟩)
  rcases mem_append.mp he with hmem | hmem
  · obtain ⟨⟨⟨dir, leaf⟩, i⟩, hf, rfl⟩ := mem_map.mp hmem
    obtain ⟨hf, hroot⟩ := mem_filter.mp hf
    obtain rfl : dir = [] := by simpa using hroot
    exact ⟨i, lookup_of_mem hd.paths hf, rfl⟩
  · obtain ⟨q, -, hq⟩ := mem_filterMap.mp hmem
    unfold directoryEntry at hq
    split at hq
    · next p =>
      cases hq
      -- a file of the same name would be another entry
      cases hfind : d.find ⟨[], p⟩ with
      | none => exact hfind
      | some i =>
        have hother := hfile _ (mem_of_lookup hfind) rfl
        cases inj_on_of_nodup_map hd.entries hother he rfl
    · cases hq

theorem present_of_find {d' : Disk} (he : Present d e)
    (hfind : d'.find ⟨[], e.1⟩ = d.find ⟨[], e.1⟩) (hsizes : d'.sizes = d.sizes) :
    Present d' e := by
  unfold Present at he ⊢
  rw [hfind, hsizes]
  exact he

/-- What a recursive deletion of an entry of the base directory leaves. -/
theorem deleteRecursive_entry (s : State) (hl : s.disk.Lawful) (he : Present s.disk e) :
    (s.deleteRecursive ⟨[], e.1⟩).2.disk.Lawful ∧
      (s.deleteRecursive ⟨[], e.1⟩).2.handles = s.handles ∧
      (s.deleteRecursive ⟨[], e.1⟩).2.disk.sizes = s.disk.sizes ∧
      (∀ p, p ≠ e.1 → (s.deleteRecursive ⟨[], e.1⟩).2.disk.find ⟨[], p⟩ = s.disk.find ⟨[], p⟩) ∧
      (s.deleteRecursive ⟨[], e.1⟩).2.disk.root.total + measureEntry 0 e = s.disk.root.total := by
  obtain ⟨p, type⟩ := e
  unfold deleteRecursive
  cases type with
  | file size =>
    obtain ⟨i, hi, hsize⟩ := he
    have htotal := total_root_unlink hl p
    rw [fileSize, hi] at htotal
    simp only [hi, Option.isSome_some, if_true, delete]
    refine ⟨lawful_filter hl _ _, trivial, rfl, fun q hq => ?_, ?_⟩
    · rw [find_unlink, if_neg]
      intro heq
      exact hq (congrArg Path.leaf heq)
    · rw [← htotal, ← hsize]
      simp [measureEntry]
  | directory =>
    have hnone : s.disk.find ⟨[], p⟩ = none := he
    simp only [hnone, Option.isSome_none, Bool.false_eq_true, if_false]
    split
    · refine ⟨lawful_filter hl _ _, rfl, rfl, fun q _ => ?_, ?_⟩
      · rw [find_removeDirAll, if_neg (by simp [Path.isAbove, Path.parts])]
      · rw [total_root_removeDirAll]
        rfl
    · exact ⟨hl, rfl, rfl, fun _ _ => rfl, rfl⟩

/-- The loop of `gc_startup` counts the files of the base directory that it keeps. -/
theorem foldl_gcEntry (inUse : List Part) (entries : List (Part × StorageFileType))
    (usage : Nat) (hl : s.disk.Lawful) (hnodup : (entries.map Prod.fst).Nodup)
    (hpresent : ∀ e ∈ entries, Present s.disk e)
    (hsum : usage + bytesOf entries = s.disk.root.total) :
    (entries.foldl (gcEntry inUse) (s, usage)).1.disk.Lawful ∧
      (entries.foldl (gcEntry inUse) (s, usage)).1.handles = s.handles ∧
      (entries.foldl (gcEntry inUse) (s, usage)).2 =
        (entries.foldl (gcEntry inUse) (s, usage)).1.disk.root.total := by
  induction entries generalizing s usage with
  | nil => exact ⟨hl, rfl, hsum⟩
  | cons e entries ih =>
    rw [map_cons, nodup_cons] at hnodup
    rw [bytesOf_cons] at hsum
    have hrest : ∀ e' ∈ entries, Present s.disk e' := fun e' he' =>
      hpresent e' (mem_cons_of_mem _ he')
    rw [foldl_cons]
    unfold gcEntry
    split
    · obtain ⟨hl', hhandles, hsizes, hfind, htotal⟩ :=
        s.deleteRecursive_entry hl (hpresent e mem_cons_self)
      have hnext := ih (s := (s.deleteRecursive ⟨[], e.1⟩).2) usage hl' hnodup.2 ?_ (by omega)
      · rw [hhandles] at hnext
        exact hnext
      · intro e' he'
        have hne : e'.1 ≠ e.1 := fun h => hnodup.1 (h ▸ mem_map_of_mem he')
        exact present_of_find (hrest e' he') (hfind e'.1 hne) hsizes
    · obtain ⟨p, type⟩ := e
      cases type with
      | file size =>
        refine ih (s := s) (usage + size) hl hnodup.2 hrest ?_
        simp only [measureEntry] at hsum
        omega
      | directory =>
        refine ih (s := s) usage hl hnodup.2 hrest ?_
        simp only [measureEntry] at hsum
        omega

/-- After `init_storage` the bytes in subdirectories are missing from the counter. -/
theorem good_initStorage (hd : d.WellFormed) (checkpoints : Option (List Part)) :
    Good ((new d).initStorage checkpoints).disk.subdirectoryBytes
      ((new d).initStorage checkpoints) := by
  have hno : ∀ (s : State), s.handles = [] → ∀ i h, s.handle i ≠ some h := by
    intro s hs i h hi
    simp [handle, hs] at hi
  have hgood : ∀ s : State, s.disk.Lawful → s.handles = [] → s.usage = s.disk.root.total →
      s.Good s.disk.subdirectoryBytes := by
    intro s hl hs husage
    refine ⟨hl, ?_, fun i h hi => absurd hi (hno s hs i h),
      fun i j h h' _ hi => absurd hi (hno s hs i h)⟩
    have htotal := s.disk.total_eq_root_add
    omega
  cases checkpoints with
  | none =>
    apply hgood _ hd.toLawful rfl
    change ((d.list.foldl measureEntry 0 : Nat) : Int) = _
    rw [foldl_measureEntry, bytesOf_list, Nat.zero_add]
    rfl
  | some inUse =>
    obtain ⟨hl, hhandles, hsum⟩ := foldl_gcEntry (s := new d) inUse d.list 0 hd.toLawful
      hd.entries (fun e he => present_list hd he) (by rw [bytesOf_list, Nat.zero_add]; rfl)
    exact hgood _ hl hhandles (congrArg Int.ofNat hsum)

/-- In a run that follows the rules, on a directory that has no bytes in subdirectories when the
checkpointer has initialised it, the counter is the total size of all files. -/
theorem usage_eq_total {d : Disk} (hd : d.WellFormed) (checkpoints : Option (List Part))
    (hsub : ((new d).initStorage checkpoints).disk.subdirectoryBytes = 0) (calls : List Call)
    (ho : ((new d).initStorage checkpoints).Guarded calls) :
    (((new d).initStorage checkpoints).run calls).usage =
      (((new d).initStorage checkpoints).run calls).disk.total := by
  have hg := good_run (good_initStorage hd checkpoints) ho
  have hcount := hg.counted
  rw [hsub] at hcount
  omega

/-- A batch of seven bytes and a directory in which `bytes` bytes are in a file. -/
def batchAndDirectory (bytes : Nat) : Disk where
  files := [(⟨[], ⟨0, true, 0⟩⟩, 0), (⟨[⟨1, false, 0⟩], ⟨2, true, 0⟩⟩, 1)]
  directories := [[⟨1, false, 0⟩]]
  sizes i := if i = 0 then 7 else bytes
  nextInode := 2
  directorySize := 4096

theorem batchAndDirectory_wellFormed (bytes : Nat) : (batchAndDirectory bytes).WellFormed where
  paths := by simp [batchAndDirectory]
  inodes := by simp [batchAndDirectory]
  known := by simp [batchAndDirectory]
  entries := by simp [batchAndDirectory, Disk.list, directoryEntry]

/-- The batch is written again under the same name. -/
theorem usage_eq_total_rewritten :
    let s := (new (batchAndDirectory 0)).initStorage (some [⟨0, true, 0⟩, ⟨1, false, 0⟩])
    let t := s.run [.createNamed ⟨[], ⟨0, true, 0⟩⟩, .write 0 5 none, .complete 0 .none]
    t.usage = t.disk.total ∧ t.disk.total = 5 :=
  ⟨usage_eq_total (batchAndDirectory_wellFormed 0) _ (by decide) _ (by decide), by decide⟩

-- The reader of the first file deletes the second one, which has the same name.
example :
    let t := ((new (batchAndDirectory 0)).initStorage none).run
      [.createNamed ⟨[], ⟨3, true, 0⟩⟩, .write 0 5 none, .complete 0 .none,
        .createNamed ⟨[], ⟨3, true, 0⟩⟩, .write 1 3 none, .complete 1 .none, .drop 0]
    t.usage = 5 ∧ t.disk.total = 7 := by decide

-- An unfinished file is truncated while its bytes stay counted.
example :
    let t := ((new (batchAndDirectory 0)).initStorage none).run
      [.createNamed ⟨[], ⟨3, true, 0⟩⟩, .write 0 1048576 none, .write 0 1 none,
        .createNamed ⟨[], ⟨3, true, 0⟩⟩]
    t.usage = 1048583 ∧ t.disk.total = 7 := by decide

/-- A checkpoint directory is kept at startup and the bytes in it are not counted. -/
theorem initStorage_misses_subdirectory :
    (batchAndDirectory 9).WellFormed ∧
      let s := (new (batchAndDirectory 9)).initStorage (some [⟨0, true, 0⟩, ⟨1, false, 0⟩])
      s.usage = 7 ∧ s.disk.total = 16 :=
  ⟨batchAndDirectory_wellFormed 9, by decide, by decide⟩

end State

end Feldera.Posix
