import Feldera.Storage.PosixUsage

/-!
Runs of `PosixBackend` after `init_storage`: what writers do to the usage counter, the rules that
its users have to follow for it to stay right, and the value that it starts with.
-/

namespace Feldera.Posix

open Disk

namespace PosixWriter

structure Written (w w' : PosixWriter) (s s' : State) (bytes : Nat) : Prop where
  inode : w'.inode = w.inode
  position : w'.position = w.position + bytes
  drop : w'.drop = { w.drop with size := w.drop.size + bytes }
  name : w'.name = w.name
  state : s' = { s with
    disk := s.disk.extend w.inode w.position bytes, usage := s.usage + bytes }

variable (w : PosixWriter)

theorem flush_written (fault : Option Nat) (s : State) :
    ∃ bytes, w.Written (w.flush fault s).2.1 s (w.flush fault s).2.2 bytes := by
  cases fault with
  | none => exact ⟨w.buffers.sum, rfl, rfl, rfl, rfl, rfl⟩
  | some n => exact ⟨min n w.buffers.sum, rfl, rfl, rfl, rfl, rfl⟩

theorem write_written (bytes : Nat) (fault : Option Nat) (s : State) :
    ∃ n, w.Written (w.write bytes fault s).2.1 s (w.write bytes fault s).2.2 n := by
  unfold write
  split
  · obtain ⟨n, hw⟩ := w.flush_written fault s
    refine ⟨n, ?_⟩
    split
    · next w' s' heq =>
      rw [heq] at hw
      exact ⟨hw.inode, hw.position, hw.drop, hw.name, hw.state⟩
    · next e w' s' heq =>
      rw [heq] at hw
      exact hw
  · refine ⟨0, rfl, rfl, rfl, rfl, ?_⟩
    simp [Disk.extend]

end PosixWriter

namespace State

variable {s : State} {c : Nat}

@[simp] theorem setHandle_setHandle (s : State) (i : Nat) (x y : Option Handle) :
    (s.setHandle i x).setHandle i y = s.setHandle i y := by
  simp [setHandle]

theorem dropped_setHandle (x : DeleteOnDrop) (s : State) (i : Nat) (h : Option Handle) :
    x.dropped (s.setHandle i h) = (x.dropped s).setHandle i h := by
  have hdisk : (s.setHandle i h).disk = s.disk := rfl
  simp only [DeleteOnDrop.dropped, hdisk]
  split
  · rfl
  split <;> rfl

variable {i : Nat}

theorem good_written (hg : s.Good c) {w w' : PosixWriter} {s' : State} {bytes : Nat}
    (hi : s.handle i = some (.writer w)) (hlink : s.disk.find w.drop.path = some w.inode)
    (hw : w.Written w' s s' bytes) : (s'.setHandle i (some (.writer w'))).Good c := by
  have hsound := hg.sound i _ hi
  obtain ⟨hkeep, hposition, hpath⟩ := hsound.shape w rfl
  have hsize : s.disk.sizes w.inode = w.drop.size := (hsound.owns hkeep _ hlink).2
  have hcount := hg.counted
  have htotal := total_extend hg.lawful hlink bytes
  rw [hw.state, hposition, ← hsize]
  refine hg.replace _ _ (lawful_extend hg.lawful _ _ _) ?_ hi _ ?_ ?_
  · push_cast [htotal]
    omega
  · -- a handle that deletes its file has another one
    intro j h hji hj
    apply (hg.sound j h hj).change
    · rw [nextInode_extend]
    · intro hkeep' k hk
      rw [find_extend] at hk
      obtain ⟨rfl, -⟩ := (hg.sound j h hj).owns hkeep' k hk
      exact ⟨hk, sizes_extend_of_ne _ (hg.apart j i h _ hji hj hi hkeep' hkeep) _ _⟩
  · intro h' hh'
    cases hh'
    refine ⟨⟨?_, ?_, ?_⟩, fun _ => ⟨hkeep, hw.inode⟩⟩
    · rw [Handle.inode, hw.inode, nextInode_extend]
      exact hsound.known
    · intro v hv
      cases hv
      refine ⟨by rw [hw.drop]; exact hkeep, ?_, ?_⟩
      · rw [hw.position, hw.drop, hposition]
      · rw [hw.drop, hw.name]
        exact hpath
    · intro _ k hk
      have hdrop : (Handle.writer w').drop.path = w.drop.path := by
        rw [Handle.drop, hw.drop]
      rw [find_extend, hdrop, hlink] at hk
      cases hk
      refine ⟨hw.inode.symm, ?_⟩
      rw [sizes_extend_self, hsize, Handle.drop, hw.drop]

/-- What a call of `complete` leaves in the place of the writer. -/
def afterComplete (i : Nat) : Except ErrorKind PosixReader × State → State
  | (.ok r, s') => s'.setHandle i (some (.reader r))
  | (.error _, s') => s'.setHandle i none

/-- The file of the writer has its path, and no other handle will delete what gets the final
path. A rename that fails finds nothing at the final path. -/
structure Completable (s : State) (i : Nat) (w : PosixWriter) (fault : PosixWriter.Fault) :
    Prop where
  linked : s.disk.find w.drop.path = some w.inode
  noDirectory : s.disk.isDirectory w.drop.path.withoutExtension = false
  renames : fault = .rename → s.disk.find w.drop.path.withoutExtension = none
  free : ∀ j h, j ≠ i → s.handle j = some h → h.drop.keep = false →
    h.drop.path ≠ w.drop.path.withoutExtension

variable {fault : PosixWriter.Fault} {w : PosixWriter}

theorem good_finalize (hg : s.Good c) (hi : s.handle i = some (.writer w))
    (hc : s.Completable i w fault) : (afterComplete i (w.finalize fault s)).Good c := by
  have hmetadata := metadataSize_of_not_isDirectory hc.noDirectory
  unfold PosixWriter.finalize
  by_cases hsync : fault = .sync
  · simp only [hsync, if_true]
    exact good_dropped hg hi
  simp only [hsync, if_false, hc.linked, hc.noDirectory, Bool.false_eq_true]
  by_cases hrename : fault = .rename
  · have hzero : s.disk.metadataSize w.drop.path.withoutExtension = 0 := by
      simp [hmetadata, fileSize, hc.renames hrename]
    have husage : s.usage - ((0 : Nat) : Int) = s.usage := by omega
    simp only [hrename, if_true, hzero, husage]
    exact good_dropped hg hi
  simp only [hrename, if_false]
  have hsound := hg.sound i _ hi
  obtain ⟨hkeep, -, hpath⟩ := hsound.shape w rfl
  have hne : w.drop.path ≠ w.drop.path.withoutExtension := by
    rw [hpath, Path.withoutExtension_appendMut]
    exact w.name.appendMut_ne
  have hcount := hg.counted
  have htotal := total_rename hg.lawful hne hc.linked
  refine hg.replace (s.disk.rename w.drop.path w.drop.path.withoutExtension w.inode)
    (s.usage - s.disk.metadataSize w.drop.path.withoutExtension)
    (lawful_rename hg.lawful hc.linked) ?_
    hi _ ?_ ?_
  · omega
  · intro j h hji hj
    refine (hg.sound j h hj).change (le_refl s.disk.nextInode) ?_
    intro hkeep' k hk
    rw [find_rename, if_neg (hc.free j h hji hj hkeep')] at hk
    split at hk
    · cases hk
    · exact ⟨hk, rfl⟩
  · intro h' hh'
    cases hh'
    refine ⟨⟨hsound.known, by simp, ?_⟩, fun _ => ⟨hkeep, rfl⟩⟩
    intro _ k hk
    rw [Handle.drop, find_rename, if_pos rfl] at hk
    cases hk
    exact ⟨rfl, (hsound.owns hkeep _ hc.linked).2⟩

theorem afterComplete_setHandle (i : Nat) (w : PosixWriter) (fault : PosixWriter.Fault)
    (s : State) (h : Option Handle) :
    afterComplete i (w.finalize fault (s.setHandle i h)) =
      afterComplete i (w.finalize fault s) := by
  unfold PosixWriter.finalize
  have hdrop : ∀ t : State, (w.drop.dropped (t.setHandle i h)).setHandle i none =
      (w.drop.dropped t).setHandle i none := by
    intro t
    rw [dropped_setHandle, setHandle_setHandle]
  by_cases hsync : fault = .sync
  · simp only [hsync, if_true]
    exact hdrop s
  simp only [hsync, if_false]
  let t := { s with usage := s.usage - s.disk.metadataSize w.drop.path.withoutExtension }
  cases hfind : s.disk.find w.drop.path with
  | none =>
    simp only [setHandle, hfind]
    exact hdrop t
  | some k =>
    by_cases hdir : s.disk.isDirectory w.drop.path.withoutExtension
    · simp only [setHandle, hfind, hdir, if_true]
      exact hdrop t
    by_cases hrename : fault = .rename
    · simp only [setHandle, hfind, hdir, hrename, if_true, Bool.false_eq_true, if_false]
      exact hdrop t
    · simp only [setHandle, hfind, hdir, hrename, Bool.false_eq_true, if_false, afterComplete,
        List.set_set]

theorem good_complete (hg : s.Good c) (hi : s.handle i = some (.writer w))
    (hc : s.Completable i w fault) : (afterComplete i (w.complete fault s)).Good c := by
  unfold PosixWriter.complete
  split
  · exact good_finalize hg hi hc
  obtain ⟨bytes, hw⟩ := w.flush_written fault.inFlush s
  have hflushed := good_written hg hi hc.linked hw
  generalize hf : w.flush fault.inFlush s = f at hw hflushed
  obtain ⟨r, w', s'⟩ := f
  obtain rfl := hw.state
  have hi' : State.handle (setHandle _ i (some (.writer w'))) i = some (.writer w') :=
    handle_set_self hi _ _ _
  have hdrop : w'.drop.path = w.drop.path := by rw [hw.drop]
  cases r with
  | ok _ =>
    rw [← afterComplete_setHandle i w' fault _ (some (.writer w'))]
    refine good_finalize hflushed hi' ⟨?_, ?_, ?_, ?_⟩ <;> rw [hdrop]
    · rw [hw.inode]
      exact (find_extend _ _ _ _ _).trans hc.linked
    · exact (isDirectory_extend _ _ _ _ _).trans hc.noDirectory
    · exact fun hr => (find_extend _ _ _ _ _).trans (hc.renames hr)
    · intro j h hji hj
      exact hc.free j h hji ((handle_set_of_ne hji _ _ _).symm.trans hj)
  | error e =>
    have hgone := good_dropped hflushed hi'
    rw [Handle.drop, dropped_setHandle, setHandle_setHandle] at hgone
    exact hgone

/-! ### Runs -/

/-- The handle will delete whatever has the path when it is dropped. -/
def willDelete (s : State) (i : Nat) (p : Path) : Bool :=
  match s.handle i with
  | some h => !h.drop.keep && h.drop.path = p
  | none => false

theorem ne_of_willDelete_eq_false {p : Path} {h : Handle} (hfree : s.willDelete i p = false)
    (hi : s.handle i = some h) (hkeep : h.drop.keep = false) : h.drop.path ≠ p := by
  simpa [willDelete, hi, hkeep] using hfree

theorem lt_length_of_handle {h : Handle} (hi : s.handle i = some h) : i < s.handles.length := by
  by_contra hge
  rw [handle, List.getElem?_eq_none (by omega)] at hi
  cases hi

/-- The rules for the users of the backend. A file is created only where no unfinished file is and
where no handle will delete it. A writer is used only as long as its file is there. It is completed
only under a name that is no directory and that no other handle will delete, and the rename may
fail only if there is no file with that name. -/
def Orderly (s : State) : Call → Prop
  | .createNamed name =>
    s.disk.find name.appendMut = none ∧
      ∀ j < s.handles.length, s.willDelete j name.appendMut = false
  | .write i _ _ =>
    match s.handle i with
    | some (.writer w) => s.disk.find w.drop.path = some w.inode
    | _ => True
  | .complete i fault =>
    match s.handle i with
    | some (.writer w) =>
      s.disk.find w.drop.path = some w.inode ∧
        s.disk.isDirectory w.drop.path.withoutExtension = false ∧
        (fault = .rename → s.disk.find w.drop.path.withoutExtension = none) ∧
        ∀ j < s.handles.length, j ≠ i → s.willDelete j w.drop.path.withoutExtension = false
    | _ => True
  | _ => True

instance decidableOrderly (s : State) : (call : Call) → Decidable (s.Orderly call)
  | .createNamed _ => inferInstanceAs (Decidable (_ ∧ _))
  | .write i _ _ =>
    match h : s.handle i with
    | some (.writer w) =>
      decidable_of_iff (s.disk.find w.drop.path = some w.inode) (by simp [Orderly, h])
    | some (.reader _) => .isTrue (by simp [Orderly, h])
    | none => .isTrue (by simp [Orderly, h])
  | .complete i fault =>
    match h : s.handle i with
    | some (.writer w) =>
      decidable_of_iff
        (s.disk.find w.drop.path = some w.inode ∧
          s.disk.isDirectory w.drop.path.withoutExtension = false ∧
          (fault = .rename → s.disk.find w.drop.path.withoutExtension = none) ∧
          ∀ j < s.handles.length, j ≠ i → s.willDelete j w.drop.path.withoutExtension = false)
        (by simp [Orderly, h])
    | some (.reader _) => .isTrue (by simp [Orderly, h])
    | none => .isTrue (by simp [Orderly, h])
  | .markForCheckpoint _ => .isTrue trivial
  | .drop _ => .isTrue trivial
  | .openReader _ => .isTrue trivial
  | .delete _ => .isTrue trivial
  | .deleteRecursive _ => .isTrue trivial

def Guarded : State → List Call → Prop
  | _, [] => True
  | s, call :: calls => s.Orderly call ∧ (s.step call).Guarded calls

instance decidableGuarded : (s : State) → (calls : List Call) → Decidable (s.Guarded calls)
  | _, [] => .isTrue trivial
  | s, call :: calls =>
    have := decidableGuarded (s.step call) calls
    inferInstanceAs (Decidable (s.Orderly call ∧ (s.step call).Guarded calls))

theorem good_step (hg : s.Good c) {call : Call} (ho : s.Orderly call) : (s.step call).Good c := by
  cases call with
  | createNamed name =>
    refine good_createNamed hg name ho.1 fun i h hi hkeep => ?_
    exact ne_of_willDelete_eq_false (ho.2 i (lt_length_of_handle hi)) hi hkeep
  | write i bytes fault =>
    simp only [step]
    simp only [Orderly] at ho
    split
    · next w hi =>
      rw [hi] at ho
      obtain ⟨n, hw⟩ := w.write_written bytes fault s
      exact good_written hg hi ho hw
    · exact hg
  | complete i fault =>
    simp only [step]
    simp only [Orderly] at ho
    split
    · next w hi =>
      rw [hi] at ho
      obtain ⟨hlinked, hdir, hrename, hfree⟩ := ho
      refine good_complete hg hi ⟨hlinked, hdir, hrename, fun j h hji hj hkeep => ?_⟩
      exact ne_of_willDelete_eq_false (hfree j (lt_length_of_handle hj) hji) hj hkeep
    · exact hg
  | markForCheckpoint i =>
    simp only [step]
    split
    · next r hi => exact good_markForCheckpoint hg hi
    · exact hg
  | drop i =>
    simp only [step]
    split
    · next h hi => exact good_dropped hg hi
    · exact hg
  | openReader name => exact good_openReader hg name
  | delete name => exact good_delete hg name
  | deleteRecursive name => exact good_deleteRecursive hg name

theorem good_run {calls : List Call} (hg : s.Good c) (ho : s.Guarded calls) :
    (s.run calls).Good c := by
  induction calls generalizing s with
  | nil => exact hg
  | cons call calls ih => exact ih (good_step hg ho.1) ho.2

end State

end Feldera.Posix
