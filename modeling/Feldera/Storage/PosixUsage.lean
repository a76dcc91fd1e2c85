import Feldera.Storage.PosixDisk

/-!
The usage counter of `PosixBackend` against the files that are there.

Under a few rules for its users, no call changes the difference between the counter and the total
size of all files. `init_storage` lists the base directory only, so the difference starts as the
number of bytes in subdirectories: a process that is started on a directory with checkpoints counts
too little for as long as it runs.
-/

namespace Feldera.Posix

open AssocList List Disk

/-! ### Handles -/

namespace Handle

structure Sound (h : Handle) (d : Disk) : Prop where
  known : h.inode < d.nextInode
  shape : ∀ w, h = .writer w →
    w.drop.keep = false ∧ w.position = w.drop.size ∧ w.drop.path = w.name.appendMut
  owns : h.drop.keep = false → ∀ i, d.find h.drop.path = some i →
    i = h.inode ∧ d.sizes i = h.drop.size

variable {h : Handle} {d e : Disk}

theorem Sound.change (hs : h.Sound d) (hnext : d.nextInode ≤ e.nextInode)
    (hfind : h.drop.keep = false → ∀ i, e.find h.drop.path = some i →
      d.find h.drop.path = some i ∧ e.sizes i = d.sizes i) : h.Sound e where
  known := lt_of_lt_of_le hs.known hnext
  shape := hs.shape
  owns hk i hi := by
    obtain ⟨hold, hsize⟩ := hfind hk i hi
    obtain ⟨hinode, hold⟩ := hs.owns hk i hold
    exact ⟨hinode, hsize.trans hold⟩

theorem Sound.unlink (hs : h.Sound d) (p : Path) : h.Sound (d.unlink p) := by
  refine hs.change (e := d.unlink p) (le_refl _) ?_
  intro _ i hi
  rw [find_unlink] at hi
  split at hi
  · cases hi
  · exact ⟨hi, rfl⟩

theorem Sound.removeDirAll (hs : h.Sound d) (p : Path) : h.Sound (d.removeDirAll p) := by
  refine hs.change (e := d.removeDirAll p) (le_refl _) ?_
  intro _ i hi
  rw [find_removeDirAll] at hi
  split at hi
  · cases hi
  · exact ⟨hi, rfl⟩

end Handle

namespace State

variable {s : State} {c : Nat}

structure Good (c : Nat) (s : State) : Prop where
  lawful : s.disk.Lawful
  counted : s.usage + c = s.disk.total
  sound : ∀ i h, s.handle i = some h → h.Sound s.disk
  apart : ∀ i j h h', i ≠ j → s.handle i = some h → s.handle j = some h' →
    h.drop.keep = false → h'.drop.keep = false → h.inode ≠ h'.inode

variable {i : Nat} {h : Handle}

theorem handle_set_self (hi : s.handle i = some h) (x : Option Handle) (d : Disk) (u : Int) :
    State.handle ⟨d, s.handles.set i x, u⟩ i = x := by
  have hlt : i < s.handles.length := by
    by_contra hge
    rw [handle, getElem?_eq_none (by omega)] at hi
    cases hi
  simp [handle, getElem?_set_self hlt]

theorem handle_set_of_ne {i j : Nat} (h : j ≠ i) (x : Option Handle) (d : Disk) (u : Int) :
    State.handle ⟨d, s.handles.set i x, u⟩ j = s.handle j := by
  simp [handle, getElem?_set_ne (Ne.symm h)]

theorem handle_append {j : Nat} {x h : Handle} {d : Disk} {u : Int}
    (hj : State.handle ⟨d, s.handles ++ [some x], u⟩ j = some h) :
    s.handle j = some h ∨ j = s.handles.length ∧ h = x := by
  unfold handle at hj
  rcases lt_trichotomy j s.handles.length with hlt | rfl | hgt
  · rw [getElem?_append_left hlt] at hj
    exact .inl hj
  · rw [getElem?_append_right (le_refl _)] at hj
    simp at hj
    exact .inr ⟨rfl, hj.symm⟩
  · rw [getElem?_eq_none (by simp; omega)] at hj
    cases hj

section

variable (hg : s.Good c) (d : Disk) (u : Int) (hl : d.Lawful) (hcount : u + c = d.total)
include hg hl hcount

theorem Good.replace (hi : s.handle i = some h) (x : Option Handle)
    (hothers : ∀ j h', j ≠ i → s.handle j = some h' → h'.Sound d)
    (hsound : ∀ h', x = some h' → h'.Sound d ∧
      (h'.drop.keep = false → h.drop.keep = false ∧ h'.inode = h.inode)) :
    Good c ⟨d, s.handles.set i x, u⟩ where
  lawful := hl
  counted := hcount
  sound j h' hj := by
    by_cases hji : j = i
    · subst hji
      rw [handle_set_self hi] at hj
      exact (hsound h' hj).1
    · rw [handle_set_of_ne hji] at hj
      exact hothers j h' hji hj
  apart j k hj hk hjk hhj hhk hkeepj hkeepk := by
    by_cases hji : j = i
    · subst hji
      rw [handle_set_self hi] at hhj
      rw [handle_set_of_ne (Ne.symm hjk)] at hhk
      obtain ⟨hkeep, hinode⟩ := (hsound hj hhj).2 hkeepj
      rw [hinode]
      exact hg.apart j k h hk hjk hi hhk hkeep hkeepk
    · rw [handle_set_of_ne hji] at hhj
      by_cases hki : k = i
      · subst hki
        rw [handle_set_self hi] at hhk
        obtain ⟨hkeep, hinode⟩ := (hsound hk hhk).2 hkeepk
        rw [hinode]
        exact hg.apart j k hj h hjk hhj hi hkeepj hkeep
      · rw [handle_set_of_ne hki] at hhk
        exact hg.apart j k hj hk hjk hhj hhk hkeepj hkeepk

theorem Good.change (hothers : ∀ h : Handle, h.Sound s.disk → h.Sound d) :
    Good c ⟨d, s.handles, u⟩ :=
  ⟨hl, hcount, fun i h hi => hothers h (hg.sound i h hi), hg.apart⟩

end

/-- A handle is handed out, on a new file or on one that it will not delete. -/
theorem Good.add (hg : s.Good c) (d : Disk) (x : Handle) (hl : d.Lawful)
    (hcount : d.total = s.disk.total)
    (hothers : ∀ i h, s.handle i = some h → h.Sound d) (hx : x.Sound d)
    (hnew : x.drop.keep = false → s.disk.nextInode ≤ x.inode) :
    Good c ⟨d, s.handles ++ [some x], s.usage⟩ where
  lawful := hl
  counted := by rw [hcount]; exact hg.counted
  sound j h hj := by
    rcases handle_append hj with hj | ⟨-, rfl⟩
    · exact hothers j h hj
    · exact hx
  apart j k hj hk hjk hhj hhk hkeepj hkeepk := by
    rcases handle_append hhj with holdj | ⟨hlastj, rfl⟩ <;>
      rcases handle_append hhk with holdk | ⟨hlastk, rfl⟩
    · exact hg.apart j k hj hk hjk holdj holdk hkeepj hkeepk
    · exact ((hg.sound j hj holdj).known.trans_le (hnew hkeepk)).ne
    · exact ((hg.sound k hk holdk).known.trans_le (hnew hkeepj)).ne'
    · exact absurd (hlastj.trans hlastk.symm) hjk

/-! ### The calls -/

variable (hg : s.Good c)
include hg

theorem good_dropped (hi : s.handle i = some h) : ((h.drop.dropped s).setHandle i none).Good c := by
  have hnone : Good c ⟨s.disk, s.handles.set i none, s.usage⟩ :=
    hg.replace _ _ hg.lawful hg.counted hi none (fun j h' _ hj => hg.sound j h' hj) nofun
  unfold DeleteOnDrop.dropped
  split
  · exact hnone
  · next hkeep =>
    split
    · exact hnone
    · next j hj =>
      obtain ⟨rfl, hsize⟩ := (hg.sound i h hi).owns (by simpa using hkeep) j hj
      have htotal := total_unlink hg.lawful h.drop.path
      have hfile : s.disk.fileSize h.drop.path = h.drop.size := by
        simp [fileSize, hj, hsize]
      have hcount := hg.counted
      refine hg.replace (s.disk.unlink h.drop.path) (s.usage - h.drop.size)
        (lawful_filter hg.lawful _ _) ?_
        hi none ?_ nofun
      · omega
      · exact fun k h' _ hk => (hg.sound k h' hk).unlink _

variable (name : Path)

theorem good_delete : (s.delete name).2.Good c := by
  unfold delete
  split
  · exact hg
  · next i hi =>
    have htotal := total_unlink hg.lawful name
    have hfile : s.disk.fileSize name = s.disk.sizes i := by
      simp [fileSize, hi]
    have hcount := hg.counted
    refine hg.change _ _ (lawful_filter hg.lawful _ _) ?_ fun h hs => hs.unlink name
    omega

theorem good_deleteRecursive : (s.deleteRecursive name).2.Good c := by
  unfold deleteRecursive
  split
  · exact good_delete hg name
  split
  · have htotal := total_removeDirAll s.disk name
    have hcount := hg.counted
    refine hg.change _ _ (lawful_filter hg.lawful _ _) ?_ fun h hs => hs.removeDirAll name
    omega
  · exact hg

theorem good_openReader : (s.openReader name).2.Good c := by
  unfold openReader
  split
  · exact hg
  · next i hi =>
    refine hg.add s.disk _ hg.lawful rfl hg.sound ⟨?_, nofun, nofun⟩ nofun
    exact hg.lawful.known (name, i) (mem_of_lookup hi)

theorem good_markForCheckpoint {r : PosixReader} (hi : s.handle i = some (.reader r)) :
    (s.setHandle i (some (.reader r.markForCheckpoint))).Good c := by
  refine hg.replace s.disk s.usage hg.lawful hg.counted hi _
    (fun j h' _ hj => hg.sound j h' hj) ?_
  intro h' hh'
  cases hh'
  exact ⟨⟨(hg.sound i _ hi).known, nofun, nofun⟩, nofun⟩

/-- The path of the new writer has no file, and no handle that will delete one. -/
theorem good_createNamed (hfile : s.disk.find name.appendMut = none)
    (hfree : ∀ i h, s.handle i = some h → h.drop.keep = false → h.drop.path ≠ name.appendMut) :
    (s.createNamed name).2.Good c := by
  unfold createNamed create
  by_cases hdir : s.disk.isDirectory name.appendMut
  · simp only [hdir, if_true]
    exact hg
  by_cases habove : s.disk.files.any fun f => f.1.isAbove name.appendMut
  · simp only [hdir, habove, if_true, Bool.false_eq_true, if_false]
    exact hg
  simp only [hdir, habove, Bool.false_eq_true, if_false, hfile]
  have hnew : ∀ f ∈ s.disk.files, f.2 ≠ s.disk.nextInode := fun f hf =>
    (hg.lawful.known f hf).ne
  have hsizes : ∀ f ∈ s.disk.files,
      Function.update s.disk.sizes s.disk.nextInode 0 f.2 = s.disk.sizes f.2 := fun f hf =>
    Function.update_of_ne (hnew f hf) _ _
  refine hg.add _ _ ?_ ?_ ?_ ?_ (fun _ => le_refl _)
  · constructor
    · refine nodup_cons.mpr ⟨?_, hg.lawful.paths⟩
      intro hmem
      obtain ⟨f, hf, hp⟩ := mem_map.mp hmem
      rw [find, lookup_eq_none_iff] at hfile
      have := hfile f hf
      simp [hp] at this
    · refine nodup_cons.mpr ⟨?_, hg.lawful.inodes⟩
      intro hmem
      obtain ⟨f, hf, hp⟩ := mem_map.mp hmem
      exact hnew f hf hp
    · intro f hf
      rcases mem_cons.mp hf with rfl | hf
      · exact Nat.lt_succ_self _
      · exact Nat.lt_succ_of_lt (hg.lawful.known f hf)
  · simp only [Disk.total, map_cons, sum_cons, Function.update_self, Nat.zero_add]
    rw [map_congr_left hsizes]
  · intro i h hi
    apply (hg.sound i h hi).change (Nat.le_succ _)
    intro hkeep j hj
    rw [find, lookup_cons, beq_false_of_ne (hfree i h hi hkeep)] at hj
    exact ⟨hj, hsizes _ (mem_of_lookup hj)⟩
  · refine ⟨Nat.lt_succ_self _, ?_, ?_⟩
    · rintro w hw
      cases hw
      exact ⟨rfl, rfl, rfl⟩
    · intro _ j hj
      rw [Handle.drop, find, lookup_cons, beq_self_eq_true] at hj
      cases hj
      exact ⟨rfl, Function.update_self _ _ _⟩

end State

end Feldera.Posix
