import Feldera.Algebra.AssocList
import Feldera.Storage.PosixBackend

/-!
What the changes of the disk do to the paths and to the total size of all files: a file that is
removed takes its own size away, a renamed one the size of the file in whose place it comes, and
a written one brings what was written.
-/

namespace Feldera.Posix

open AssocList List Function

theorem sum_filter_add_sum_filter_not {α : Type} (q : α → Bool) (f : α → Nat) (l : List α) :
    ((l.filter fun a => !q a).map f).sum + ((l.filter q).map f).sum = (l.map f).sum := by
  have hperm := (filter_append_perm q l).map f
  have hsum := hperm.sum_eq
  rw [map_append, sum_append] at hsum
  omega

namespace Disk

variable {d : Disk}

structure Lawful (d : Disk) : Prop where
  paths : (d.files.map Prod.fst).Nodup
  inodes : (d.files.map Prod.snd).Nodup
  known : ∀ f ∈ d.files, f.2 < d.nextInode

def fileSize (d : Disk) (p : Path) : Nat :=
  ((d.find p).map d.sizes).getD 0

theorem metadataSize_of_not_isDirectory {p : Path} (h : d.isDirectory p = false) :
    d.metadataSize p = d.fileSize p := by
  unfold metadataSize fileSize
  cases d.find p <;> simp [h]

theorem find_unlink (d : Disk) (p q : Path) :
    (d.unlink p).find q = if q = p then none else d.find q := by
  unfold find unlink
  rw [lookup_filter_key (fun r => decide (r ≠ p))]
  by_cases h : q = p <;> simp [h]

theorem find_removeDirAll (d : Disk) (p q : Path) :
    (d.removeDirAll p).find q = if p.isAbove q then none else d.find q := by
  unfold find removeDirAll
  rw [lookup_filter_key (fun r => !p.isAbove r)]
  cases p.isAbove q <;> rfl

theorem find_rename (d : Disk) (source target q : Path) (i : Inode) :
    (d.rename source target i).find q =
      if q = target then some i else if q = source then none else d.find q := by
  unfold find rename
  rw [lookup_cons, lookup_filter_key (fun r => decide (r ≠ source) && decide (r ≠ target))]
  by_cases ht : q = target
  · simp [ht]
  rw [beq_false_of_ne ht]
  by_cases hs : q = source
  · subst hs
    simp [ht]
  · simp [ht, hs]

theorem lawful_filter (hl : d.Lawful) (q : Path × Inode → Bool) (dirs : List (List Part)) :
    ({ d with files := d.files.filter q, directories := dirs } : Disk).Lawful where
  paths := (hl.paths.sublist (filter_sublist.map _))
  inodes := (hl.inodes.sublist (filter_sublist.map _))
  known f hf := hl.known f (mem_of_mem_filter hf)

theorem total_unlink (hl : d.Lawful) (p : Path) : (d.unlink p).total + d.fileSize p = d.total := by
  have hp := hl.paths
  unfold total unlink fileSize find
  generalize d.files = l at hp
  induction l with
  | nil => rfl
  | cons f l ih =>
    obtain ⟨k, j⟩ := f
    rw [map_cons, nodup_cons] at hp
    have ih := ih hp.2
    rw [lookup_cons]
    by_cases hk : k = p
    · -- the other files have other paths, so that nothing else is removed
      subst hk
      have hrest : l.filter (fun f => decide (f.1 ≠ k)) = l := by
        rw [filter_eq_self]
        intro f hf
        have hne : f.1 ≠ k := fun h => hp.1 (mem_map.mpr ⟨f, hf, h⟩)
        simpa using hne
      rw [filter_cons_of_neg (by simp), hrest]
      simp only [beq_self_eq_true, Option.map_some, Option.getD_some, map_cons,
        sum_cons]
      omega
    · rw [filter_cons_of_pos (by simpa using hk), beq_false_of_ne (Ne.symm hk)]
      simp only [map_cons, sum_cons] at ih ⊢
      omega

theorem total_removeDirAll (d : Disk) (p : Path) :
    (d.removeDirAll p).total + ((d.below p).map fun f => d.sizes f.2).sum = d.total :=
  sum_filter_add_sum_filter_not (fun f : Path × Inode => p.isAbove f.1) (fun f => d.sizes f.2) _

variable {i : Inode} {source target : Path}

theorem total_rename (hl : d.Lawful) (hne : source ≠ target) (hi : d.find source = some i) :
    (d.rename source target i).total + d.fileSize target = d.total := by
  have hfilter : (d.rename source target i).total =
      d.sizes i + ((d.unlink source).unlink target).total := by
    simp only [total, rename, unlink, map_cons, sum_cons, filter_filter]
    simp only [Bool.and_comm]
  have hlawful : (d.unlink source).Lawful := lawful_filter hl _ _
  have htarget := total_unlink hlawful target
  have hsource := total_unlink hl source
  have hsize : (d.unlink source).fileSize target = d.fileSize target := by
    unfold fileSize
    rw [find_unlink, if_neg (Ne.symm hne)]
    rfl
  have hfile : d.fileSize source = d.sizes i := by
    simp [fileSize, hi]
  omega

theorem lawful_rename (hl : d.Lawful) (hi : d.find source = some i) :
    (d.rename source target i).Lawful where
  paths := by
    refine nodup_cons.mpr ⟨?_, hl.paths.sublist (filter_sublist.map _)⟩
    intro hmem
    obtain ⟨f, hf, rfl⟩ := mem_map.mp hmem
    simpa using of_mem_filter hf
  inodes := by
    refine nodup_cons.mpr ⟨?_, hl.inodes.sublist (filter_sublist.map _)⟩
    intro hmem
    obtain ⟨f, hf, hfi⟩ := mem_map.mp hmem
    -- the file itself had the old path, which is filtered out
    have hpath : f = (source, i) :=
      inj_on_of_nodup_map hl.inodes (mem_of_mem_filter hf) (mem_of_lookup hi) hfi
    have hkept := of_mem_filter hf
    simp [hpath] at hkept
  known f hf := by
    rcases mem_cons.mp hf with rfl | hf
    · exact hl.known (source, i) (mem_of_lookup hi)
    · exact hl.known f (mem_of_mem_filter hf)

theorem total_extend (hl : d.Lawful) {p : Path} (hi : d.find p = some i) (written : Nat) :
    (d.extend i (d.sizes i) written).total = d.total + written := by
  unfold extend
  split
  · omega
  · next hw =>
    rw [max_eq_right (Nat.le_add_right _ _)]
    have hmem := mem_of_lookup hi
    have hin := hl.inodes
    unfold total
    generalize d.files = l at hmem hin
    induction l with
    | nil => cases hmem
    | cons f l ih =>
      rw [map_cons, nodup_cons] at hin
      rcases mem_cons.mp hmem with rfl | hmem
      · have hrest : (l.map fun f => update d.sizes i (d.sizes i + written) f.2) =
            l.map fun f => d.sizes f.2 := by
          apply map_congr_left
          intro f hf
          have hne : f.2 ≠ i := fun h => hin.1 (mem_map.mpr ⟨f, hf, h⟩)
          exact update_of_ne hne _ _
        simp only [map_cons, sum_cons, hrest, update_self]
        omega
      · have hne : f.2 ≠ i := fun h => hin.1 (mem_map.mpr ⟨(p, i), hmem, h.symm⟩)
        have ih := ih hmem hin.2
        simp only [map_cons, sum_cons, update_of_ne hne] at ih ⊢
        omega

section

variable (d : Disk) (i : Inode) (position written : Nat)

@[simp] theorem find_extend (p : Path) : (d.extend i position written).find p = d.find p := by
  unfold extend
  split <;> rfl

@[simp] theorem isDirectory_extend (p : Path) :
    (d.extend i position written).isDirectory p = d.isDirectory p := by
  unfold extend
  split <;> rfl

@[simp] theorem nextInode_extend : (d.extend i position written).nextInode = d.nextInode := by
  unfold extend
  split <;> rfl

end

theorem sizes_extend_self (d : Disk) (i : Inode) (written : Nat) :
    (d.extend i (d.sizes i) written).sizes i = d.sizes i + written := by
  unfold extend
  split
  · omega
  · simp

theorem sizes_extend_of_ne (d : Disk) {i j : Inode} (h : j ≠ i) (position written : Nat) :
    (d.extend i position written).sizes j = d.sizes j := by
  unfold extend
  split
  · rfl
  · exact update_of_ne h _ _

theorem lawful_extend (hl : d.Lawful) (i : Inode) (position written : Nat) :
    (d.extend i position written).Lawful := by
  unfold extend
  split
  · exact hl
  · exact ⟨hl.paths, hl.inodes, hl.known⟩

end Disk

end Feldera.Posix
