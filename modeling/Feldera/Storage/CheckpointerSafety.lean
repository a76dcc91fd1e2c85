import Feldera.Storage.Checkpointer

/-!
What the functions of the checkpointer keep: every checkpoint of the stored list and of the list
in memory has its directory and its batches, and a batch that is missing in one checkpoint of a
list, but was in the one before, is missing in all later ones. So `gc_checkpoint` may compare the
checkpoint that it removes with its successor alone.
-/

namespace Feldera.Storage

open Crash List Directory Triple

namespace Directory

variable (d : Directory)

def stored : List Metadata :=
  match d.find (.reserved .checkpoints) with
  | some (.file (.checkpoints l)) => l
  | _ => []

def spineBatches (files : List (Child × Content)) (c : Child) : List Name :=
  match files.lookup c with
  | some (.pspineBatches names) => names
  | _ => []

def batchesOf (uuid : Uuid) : List Name :=
  let files := (d.children (.checkpointDir uuid)).getD []
  ((files.map Prod.fst).filter isSpine).flatMap (spineBatches files)

structure Intact (d : Directory) (uuid : Uuid) : Prop where
  proper : uuid ≠ 0
  directory : ∃ files, d.find (.checkpointDir uuid) = some (.directory files) ∧
    Child.marker ∈ files.map Prod.fst
  batches : ∀ f ∈ d.batchesOf uuid, d.isFile f = true ∧ f.isBatch = true

/-- The names that the checkpoints of a list need. -/
def Needs (l : List Metadata) (n : Name) : Prop :=
  ∃ c ∈ l, n = .checkpointDir c.uuid ∨ n ∈ d.batchesOf c.uuid

/-- Once a batch has left the checkpoints of a list it does not come back. -/
def Chain (l : List Metadata) : Prop :=
  ∀ pre a b post, l = pre ++ a :: b :: post → ∀ f ∈ d.batchesOf a.uuid, f ∉ d.batchesOf b.uuid →
    ∀ c ∈ post, f ∉ d.batchesOf c.uuid

structure Kept (d : Directory) (l : List Metadata) : Prop where
  intact : ∀ c ∈ l, d.Intact c.uuid
  nodup : (l.map Metadata.uuid).Nodup
  chain : d.Chain l

variable {d d' : Directory} {l : List Metadata} {uuid : Uuid}

theorem batchesOf_congr (h : d'.find (.checkpointDir uuid) = d.find (.checkpointDir uuid)) :
    d'.batchesOf uuid = d.batchesOf uuid := by
  unfold batchesOf children
  rw [h]

theorem Intact.congr (hi : d.Intact uuid)
    (hdir : d'.find (.checkpointDir uuid) = d.find (.checkpointDir uuid))
    (hfiles : ∀ f ∈ d.batchesOf uuid, d'.find f = d.find f) : d'.Intact uuid where
  proper := hi.proper
  directory := hdir ▸ hi.directory
  batches f hf := by
    rw [batchesOf_congr hdir] at hf
    unfold isFile
    rw [hfiles f hf]
    exact hi.batches f hf

theorem Kept.congr (h : d.Kept l) (hsame : ∀ n, d.Needs l n → d'.find n = d.find n) :
    d'.Kept l := by
  have hdir : ∀ c ∈ l, d'.find (.checkpointDir c.uuid) = d.find (.checkpointDir c.uuid) :=
    fun c hc => hsame _ ⟨c, hc, .inl rfl⟩
  refine ⟨fun c hc => (h.intact c hc).congr (hdir c hc) fun f hf => hsame f ⟨c, hc, .inr hf⟩,
    h.nodup, ?_⟩
  intro pre a b post hsplit f hfa hfb c hc
  have hmem : ∀ x ∈ [a, b] ++ post, x ∈ l := by
    intro x hx
    rw [hsplit]
    simp only [mem_append, mem_cons, not_mem_nil, or_false] at hx ⊢
    tauto
  rw [batchesOf_congr (hdir a (hmem a (by simp)))] at hfa
  rw [batchesOf_congr (hdir b (hmem b (by simp)))] at hfb
  rw [batchesOf_congr (hdir c (hmem c (by simp [hc])))]
  exact h.chain pre a b post hsplit f hfa hfb c hc

theorem Kept.tail {c : Metadata} (h : d.Kept (c :: l)) : d.Kept l where
  intact c' hc' := h.intact c' (mem_cons_of_mem _ hc')
  nodup := (nodup_cons.mp h.nodup).2
  chain pre a b post hsplit := h.chain (c :: pre) a b post (by rw [hsplit, cons_append])

/-- A needed name is a checkpoint directory or a batch. -/
theorem Kept.not_needs_reserved (h : d.Kept l) (r : Reserved) : ¬d.Needs l (.reserved r) := by
  rintro ⟨c, hc, hdir | hbatch⟩
  · cases hdir
  · exact nomatch ((h.intact c hc).batches _ hbatch).2

theorem Kept.not_needs_dir (h : d.Kept l) (hfresh : uuid ∉ l.map Metadata.uuid) :
    ¬d.Needs l (.checkpointDir uuid) := by
  rintro ⟨c, hc, hdir | hbatch⟩
  · exact hfresh (mem_map.mpr ⟨c, hc, (Name.checkpointDir.inj hdir).symm⟩)
  · exact nomatch ((h.intact c hc).batches _ hbatch).2

/-- A new checkpoint at the end of the list takes its batches from the last one, or they are in
none. -/
theorem Kept.push (h : d.Kept l) {md : Metadata} (hi : d.Intact md.uuid)
    (hfresh : md.uuid ∉ l.map Metadata.uuid)
    (hfiles : ∀ f ∈ d.batchesOf md.uuid, (∀ c ∈ l.getLast?, f ∈ d.batchesOf c.uuid) ∨
      ∀ c ∈ l, f ∉ d.batchesOf c.uuid) : d.Kept (l ++ [md]) where
  intact c hc := by
    rcases mem_append.mp hc with hc | hc
    · exact h.intact c hc
    · rw [mem_singleton.mp hc]
      exact hi
  nodup := by
    rw [map_append, nodup_append]
    exact ⟨h.nodup, nodup_singleton _, fun u hu v hv heq =>
      hfresh (mem_singleton.mp hv ▸ heq ▸ hu)⟩
  chain pre a b post hsplit f hfa hfb c hc := by
    rcases eq_nil_or_concat' post with rfl | ⟨post', last, rfl⟩
    · cases hc
    have hl : l = pre ++ a :: b :: post' ∧ md = last := by
      have heq : l ++ [md] = (pre ++ a :: b :: post') ++ [last] := by simpa using hsplit
      simpa using append_inj' heq rfl
    obtain ⟨hl, rfl⟩ := hl
    rcases mem_append.mp hc with hc | hc
    · exact h.chain pre a b post' hl f hfa hfb c hc
    rw [mem_singleton.mp hc]
    intro hfm
    rcases hfiles f hfm with hlast | hnone
    · -- the batch is in the last checkpoint, which is `b` or a later one
      rcases eq_nil_or_concat' post' with rfl | ⟨post'', last, rfl⟩
      · exact hfb (hlast b (by rw [hl]; simp))
      · refine h.chain pre a b _ hl f hfa hfb last (by simp) (hlast last ?_)
        rw [hl, show pre ++ a :: b :: (post'' ++ [last]) = (pre ++ a :: b :: post'') ++ [last] by
          simp, List.getLast?_concat]
        rfl
    · exact hnone a (by rw [hl]; simp) hfa

end Directory

/-- The list in memory becomes the stored one. -/
def State.saved (s : State) : State :=
  s.onStorage (s.storage.put (.reserved .checkpoints) (.file (.checkpoints s.checkpointList)))

structure State.Good (s : State) : Prop where
  stored : s.storage.Kept s.storage.stored
  memory : s.storage.Kept s.checkpointList
  two : 2 ≤ s.storage.stored.length → 2 ≤ s.checkpointList.length
  file : ∀ e ∈ s.storage.find (.reserved .checkpoints), ∃ l, e = .file (.checkpoints l)

namespace State.Good

variable {s : State} {uuid : Uuid}

variable (h : s.Good)
include h

variable {d : Directory}

theorem congr (hfile : d.find (.reserved .checkpoints) = s.storage.find (.reserved .checkpoints))
    (hsame : ∀ n, s.storage.Needs s.storage.stored n ∨ s.storage.Needs s.checkpointList n →
      d.find n = s.storage.find n) : (s.onStorage d).Good := by
  have hstored : d.stored = s.storage.stored := by
    rw [Directory.stored, Directory.stored, hfile]
  refine ⟨?_, h.memory.congr fun n hn => hsame n (.inr hn), ?_, hfile ▸ h.file⟩
  · change d.Kept d.stored
    rw [hstored]
    exact h.stored.congr fun n hn => hsame n (.inl hn)
  · change 2 ≤ d.stored.length → _
    rw [hstored]
    exact h.two

theorem putChild (hstored : uuid ∉ s.storage.stored.map Metadata.uuid)
    (hmemory : uuid ∉ s.checkpointList.map Metadata.uuid) (c : Child) (content : Content) :
    (s.onStorage (s.storage.putChild (.checkpointDir uuid) c content)).Good := by
  refine h.congr (find_putChild_of_ne c content nofun) fun n hn => ?_
  refine find_putChild_of_ne c content fun hname => ?_
  rw [hname] at hn
  rcases hn with hn | hn
  · exact h.stored.not_needs_dir hstored hn
  · exact h.memory.not_needs_dir hmemory hn

theorem create {stem : Nat} (hfresh : s.storage.find (.other stem (some .feldera)) = none)
    (content : Content) :
    (s.onStorage (s.storage.put (.other stem (some .feldera)) (.file content))).Good := by
  refine h.congr ?_ fun n hn => ?_
  · rw [find_put, if_neg nofun]
  rw [find_put, if_neg]
  intro hname
  have habsent : ∀ l, s.storage.Kept l → ¬s.storage.Needs l n := by
    rintro l hl ⟨c, hc, hdir | hbatch⟩
    · rw [hname] at hdir
      cases hdir
    · have hfile := ((hl.intact c hc).batches n hbatch).1
      rw [Directory.isFile, hname, hfresh] at hfile
      cases hfile
  rcases hn with hn | hn
  · exact habsent _ h.stored hn
  · exact habsent _ h.memory hn

/-- `update_checkpoint_file` makes the stored list the one in memory. -/
theorem update : s.saved.Good ∧ s.saved.storage.stored = s.checkpointList := by
  have hfind : s.saved.storage.find (.reserved .checkpoints) =
      some (.file (.checkpoints s.checkpointList)) := by
    rw [State.saved, State.onStorage, find_put, if_pos rfl]
  have hstored : s.saved.storage.stored = s.checkpointList := by
    rw [Directory.stored, hfind]
  have hkept : s.saved.storage.Kept s.checkpointList := by
    refine h.memory.congr fun n hn => ?_
    rw [State.saved, State.onStorage, find_put, if_neg]
    rintro rfl
    exact h.memory.not_needs_reserved _ hn
  refine ⟨⟨?_, hkept, ?_, ?_⟩, hstored⟩
  · rw [hstored]
    exact hkept
  · intro htwo
    exact hstored ▸ htwo
  · intro e he
    exact ⟨_, (Option.some.inj (hfind.symm.trans he)).symm⟩

/-- A name that neither list needs may be changed in any way that concerns it alone. -/
theorem change {n : Name} (hname : n ≠ .reserved .checkpoints)
    (hstored : ¬s.storage.Needs s.storage.stored n)
    (hmemory : ¬s.storage.Needs s.checkpointList n)
    (hd : ∀ m, m ≠ n → d.find m = s.storage.find m) : (s.onStorage d).Good := by
  refine h.congr (hd _ (Ne.symm hname)) fun m hm => hd m ?_
  rintro rfl
  rcases hm with hm | hm
  · exact hstored hm
  · exact hmemory hm

end State.Good

section

variable {E : StorageError → State → Prop} {C : State → Prop}

theorem readOp_triple {α : Type} (read : Directory → Except StorageError α) (s : State)
    (hE : ∀ e, E e s) (hC : C s) :
    Triple (fun s' => s' = s) (readOp read) (fun a s' => s' = s ∧ read s.storage = .ok a) E C := by
  refine op ?_ ?_ ?_ ?_
  · rintro _ a rfl ha
    exact ⟨rfl, ha⟩
  · rintro _ e rfl -
    exact hE e
  · rintro _ n rfl
    exact hE .io
  · rintro _ n rfl
    exact hC

theorem readOp_bind {α β : Type} {read : Directory → Except StorageError α} {s : State}
    {k : α → Operation β} {Q : β → State → Prop} (hE : ∀ e, E e s) (hC : C s)
    (h : ∀ a, read s.storage = .ok a → Triple (fun s' => s' = s) (k a) Q E C) :
    Triple (fun s' => s' = s) (readOp read >>= k) Q E C := by
  refine bind (readOp_triple read s hE hC) fun a => of_eq ?_
  rintro s ⟨rfl, ha⟩
  exact h a ha

variable (s : State)

theorem write_triple {effect : Directory → Directory} (hE : ∀ e, E e s) (hC : C s) :
    Triple (fun s' => s' = s) (storageOp (fun d => (.ok (), effect d)) fun _ d => d)
      (fun _ s' => s' = s.onStorage (effect s.storage)) E C := by
  refine op ?_ ?_ ?_ ?_
  · rintro _ a rfl -
    rfl
  · rintro _ e rfl herror
    cases herror
  · rintro _ n rfl
    exact hE .io
  · rintro _ n rfl
    exact hC

/-- A recursive deletion that does not succeed deletes some of the files. -/
theorem deleteRecursive_triple {Q : Unit → State → Prop} (n : Name)
    (hok : Q () (s.onStorage (s.storage.erase n)))
    (hE : ∀ e count, E e (s.onStorage (s.storage.dropChildren n count)))
    (hC : ∀ count, C (s.onStorage (s.storage.dropChildren n count))) :
    Triple (fun s' => s' = s) (deleteRecursive n) Q E C := by
  unfold deleteRecursive storageOp
  refine op ?_ ?_ ?_ ?_
  · rintro _ a rfl -
    exact hok
  · rintro _ e rfl herror
    cases herror
  · rintro _ count rfl
    exact hE .io count
  · rintro _ count rfl
    exact hC count

theorem gatherSpines_triple (hE : ∀ e, E e s) (hC : C s) (n : Name) (spines : List Child) :
    Triple (fun s' => s' = s) (gatherSpines n spines) (fun names s' => s' = s ∧
      names = spines.flatMap (spineBatches ((s.storage.children n).getD []))) E C := by
  induction spines with
  | nil => exact pure fun s' hs => ⟨hs, rfl⟩
  | cons c spines ih =>
    refine readOp_bind hE hC fun files hfiles => bind ih fun rest => pure ?_
    rintro s' ⟨rfl, rfl⟩
    refine ⟨rfl, ?_⟩
    rw [flatMap_cons]
    congr 1
    rw [spineBatches]
    split at hfiles
    · next heq =>
      rw [heq]
      exact (Except.ok.inj hfiles).symm
    · cases hfiles
    · cases hfiles

/-- What `gather_batches_for_checkpoint` finds. -/
theorem gatherBatches_triple (hE : ∀ e, E e s) (hC : C s) (uuid : Uuid) :
    Triple (fun s' => s' = s) (gatherBatches uuid)
      (fun names s' => s' = s ∧ uuid ≠ 0 ∧ names = s.storage.batchesOf uuid) E C := by
  unfold gatherBatches
  split
  · exact Triple.crash fun s' hs => hs ▸ hC
  · next hproper =>
    refine readOp_bind hE hC fun files hfiles => (gatherSpines_triple s hE hC _ _).post ?_
    rintro names s' ⟨rfl, rfl⟩
    refine ⟨rfl, hproper, ?_⟩
    have hchildren : s'.storage.children (.checkpointDir uuid) = some files := by
      unfold Directory.children
      split at hfiles
      · next heq =>
        rw [heq]
        exact congrArg some (Except.ok.inj hfiles)
      · cases hfiles
      · cases hfiles
    rw [batchesOf, hchildren]
    rfl

end

end Feldera.Storage
