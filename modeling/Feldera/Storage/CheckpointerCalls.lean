import Feldera.Storage.CheckpointerSafety

/-!
The calls `commit` and `gc_checkpoint` keep the invariant, in whatever way they end.
-/

namespace Feldera.Storage

open Crash Directory List Triple State

variable {s s₀ : State} {uuid : Uuid}

section

/-- The directory of a checkpoint that is not listed yet. Its batches are there, and they are in
the last checkpoint of the list or in none. -/
structure State.Fresh (s : State) (uuid : Uuid) : Prop where
  stored : uuid ∉ s.storage.stored.map Metadata.uuid
  memory : uuid ∉ s.checkpointList.map Metadata.uuid
  present : ∀ f ∈ s.storage.batchesOf uuid,
    s.storage.isFile f = true ∧ f.isBatch = true
  batches : ∀ f ∈ s.storage.batchesOf uuid,
    (∀ c ∈ s.checkpointList.getLast?, f ∈ s.storage.batchesOf c.uuid) ∨
      ∀ c ∈ s.checkpointList, f ∉ s.storage.batchesOf c.uuid

structure Committing (s₀ : State) (uuid : Uuid) (s : State) : Prop where
  good : s.Good
  list : s.checkpointList = s₀.checkpointList ∨
    ∃ md : Metadata, md.uuid = uuid ∧ s.checkpointList = s₀.checkpointList ++ [md]
  two : 2 ≤ s₀.storage.stored.length → 2 ≤ s.storage.stored.length
  frame : ∀ n, n ≠ .checkpointDir uuid → n ≠ .reserved .checkpoints →
    s.storage.find n = s₀.storage.find n

theorem Committing.start (h : s.Good) (uuid : Uuid) : Committing s uuid s :=
  ⟨h, .inl rfl, id, fun _ _ _ => rfl⟩

theorem batchesOf_putChild (d : Directory) (uuid : Uuid) {c : Child} (hc : isSpine c = false)
    (content : Content) :
    (d.putChild (.checkpointDir uuid) c content).batchesOf uuid = d.batchesOf uuid := by
  have hchildren : (d.putChild (.checkpointDir uuid) c content).children (.checkpointDir uuid) =
      some ((c, content) ::
        ((d.children (.checkpointDir uuid)).getD []).filter fun p => p.1 ≠ c) := by
    rw [children, putChild, find_put, if_pos rfl]
  rw [batchesOf, batchesOf, hchildren]
  generalize (d.children (.checkpointDir uuid)).getD [] = files
  have hne : ∀ c', isSpine c' = true → c' ≠ c := by
    rintro c' hc' rfl
    rw [hc] at hc'
    cases hc'
  have hnames : (((c, content) :: files.filter fun p => p.1 ≠ c).map Prod.fst).filter isSpine =
      (files.map Prod.fst).filter isSpine := by
    rw [map_cons, filter_cons_of_neg (by simp [hc]), filter_map, filter_map,
      filter_filter]
    refine congrArg _ (filter_congr fun p _ => ?_)
    cases hp : isSpine p.1 with
    | false => simp [hp]
    | true => simp [hp, hne p.1 hp]
  have hlookup : ∀ c', isSpine c' = true →
      ((c, content) :: files.filter fun p => p.1 ≠ c).lookup c' = files.lookup c' := by
    intro c' hc'
    rw [lookup_cons, beq_false_of_ne (hne c' hc')]
    exact (AssocList.lookup_filter_ne files c c').trans (if_neg (hne c' hc'))
  simp only [Option.getD_some]
  rw [hnames]
  refine flatMap_congr fun c' hc' => ?_
  rw [spineBatches, spineBatches, hlookup c' (mem_filter.mp hc').2]

theorem Committing.putChild (h : Committing s₀ uuid s) (hfresh : s.Fresh uuid)
    (c : Child) (hc : isSpine c = false) (content : Content) :
    Committing s₀ uuid (s.onStorage (s.storage.putChild (.checkpointDir uuid) c content)) ∧
      (s.onStorage (s.storage.putChild (.checkpointDir uuid) c content)).Fresh uuid := by
  have hfind : ∀ n, n ≠ .checkpointDir uuid →
      (s.storage.putChild (.checkpointDir uuid) c content).find n = s.storage.find n :=
    fun n hn => find_putChild_of_ne c content hn
  have hstored : (s.storage.putChild (.checkpointDir uuid) c content).stored =
      s.storage.stored := by
    unfold stored
    rw [hfind (.reserved .checkpoints) (by simp)]
  have hbatches := batchesOf_putChild s.storage uuid hc content
  have hlisted : ∀ c' ∈ s.checkpointList,
      (s.storage.putChild (.checkpointDir uuid) c content).batchesOf c'.uuid =
        s.storage.batchesOf c'.uuid := by
    intro c' hc'
    refine batchesOf_congr (hfind _ fun heq => hfresh.memory ?_)
    rw [← Name.checkpointDir.inj heq]
    exact mem_map_of_mem hc'
  refine ⟨⟨h.good.putChild hfresh.stored hfresh.memory c content, h.list, ?_, ?_⟩,
    ⟨?_, hfresh.memory, ?_, ?_⟩⟩
  · intro htwo
    rw [onStorage, hstored]
    exact h.two htwo
  · intro n hn hr
    exact (hfind n hn).trans (h.frame n hn hr)
  · rw [onStorage, hstored]
    exact hfresh.stored
  · intro f hf
    change f ∈ batchesOf _ uuid at hf
    rw [onStorage, hbatches] at hf
    obtain ⟨hfile, hname⟩ := hfresh.present f hf
    obtain ⟨stem, rfl⟩ := Name.exists_of_isBatch hname
    refine ⟨?_, rfl⟩
    change (s.storage.putChild (.checkpointDir uuid) c content).isFile _ = true
    rw [isFile, hfind (.other stem (some .feldera)) (by simp)]
    exact hfile
  · intro f hf
    change f ∈ batchesOf _ uuid at hf
    rw [onStorage, hbatches] at hf
    refine (hfresh.batches f hf).imp (fun hlast c' hc' => ?_) fun hnone c' hc' => ?_
    · rw [onStorage, hlisted c' (mem_of_getLast? hc')]
      exact hlast c' hc'
    · rw [onStorage, hlisted c' hc']
      exact hnone c' hc'

structure Marked (s₀ : State) (uuid : Uuid) (s : State) : Prop where
  committing : Committing s₀ uuid s
  fresh : s.Fresh uuid
  list : s.checkpointList = s₀.checkpointList
  marker : ∃ files, s.storage.find (.checkpointDir uuid) = some (.directory files) ∧
    Child.marker ∈ files.map Prod.fst

theorem Marked.start (hgood : s.Good) (hfresh : s.Fresh uuid) :
    Marked s uuid
      (s.onStorage (s.storage.putChild (.checkpointDir uuid) .marker (.data 0))) := by
  obtain ⟨hnext, hfresh'⟩ := (Committing.start hgood uuid).putChild hfresh .marker rfl (.data 0)
  refine ⟨hnext, hfresh', rfl, ?_⟩
  rw [onStorage, putChild, find_put, if_pos rfl]
  exact ⟨_, rfl, mem_map.mpr ⟨_, mem_cons_self, rfl⟩⟩

theorem Marked.dependencies (h : Marked s₀ uuid s) (names : List Name) :
    Marked s₀ uuid (s.onStorage
      (s.storage.putChild (.checkpointDir uuid) .dependencies (.dependencies names))) := by
  obtain ⟨hnext, hfresh⟩ := h.committing.putChild h.fresh .dependencies rfl
    (.dependencies names)
  refine ⟨hnext, hfresh, h.list, ?_⟩
  obtain ⟨files, hfind, hmarker⟩ := h.marker
  obtain ⟨p, hp, hname⟩ := mem_map.mp hmarker
  rw [onStorage, putChild, find_put, if_pos rfl, children,
    hfind]
  refine ⟨_, rfl, mem_map.mpr ⟨p, mem_cons_of_mem _ ?_, hname⟩⟩
  exact mem_filter.mpr ⟨hp, by simp [hname]⟩

theorem Marked.push (h : Marked s₀ uuid s) (hproper : uuid ≠ 0) (md : Metadata)
    (hmd : md.uuid = uuid) :
    Committing s₀ uuid { s with checkpointList := s.checkpointList ++ [md] } where
  good := by
    obtain ⟨hstored, hmemory, htwo, hfile⟩ := h.committing.good
    refine ⟨hstored, ?_, fun hlen => ?_, hfile⟩
    · subst hmd
      exact hmemory.push ⟨hproper, h.marker, h.fresh.present⟩ h.fresh.memory h.fresh.batches
    · have hle := htwo hlen
      rw [length_append]
      omega
  list := .inr ⟨md, hmd, by rw [h.list]⟩
  two := h.committing.two
  frame := h.committing.frame

theorem Committing.update (h : Committing s₀ uuid s) : Committing s₀ uuid s.saved where
  good := h.good.update.1
  list := h.list
  two := by
    intro htwo
    rw [h.good.update.2]
    exact h.good.two (h.two htwo)
  frame n hn hr := by
    rw [saved, onStorage, find_put, if_neg hr]
    exact h.frame n hn hr

variable {E : StorageError → State → Prop} {C : State → Prop}

theorem updateCheckpointFile_triple (hE : ∀ e, E e s ∧ E e s.saved) (hC : C s ∧ C s.saved) :
    Triple (fun s' => s' = s) updateCheckpointFile (fun _ s' => s' = s.saved) E C := by
  refine bind_get (bind (write_triple s (fun e => (hE e).1) hC.1) fun _ => ?_)
  refine (readOp_triple _ _ (fun e => (hE e).2) hC.2).post ?_
  rintro _ s' ⟨rfl, -⟩
  rfl

variable (len : Content → Nat)

theorem measureCheckpointStorageUse_triple (hE : ∀ e, E e s) (hC : C s) :
    Triple (fun s' => s' = s) (measureCheckpointStorageUse len uuid) (fun _ s' => s' = s) E C := by
  have hlist : Triple (fun s' => s' = s)
      (do
        let files ← listChildren (.checkpointDir uuid)
        pure (files.map fun p => len p.2).sum)
      (fun _ s' => s' = s) (fun _ s' => s' = s) C :=
    bind (readOp_triple _ s (fun _ => rfl) hC) fun _ => pure fun _ hs => hs.1
  refine handle hlist fun e => ?_
  split
  · exact pure fun s' hs => hs
  · exact fail fun s' hs => hs ▸ hE e

theorem commit_triple (fingerprint : Nat) (identifier : Option String)
    (steps processedRecords : Option Nat) (hgood : s.Good) (hfresh : s.Fresh uuid) :
    Triple (fun s' => s' = s) (commit len fingerprint uuid identifier steps processedRecords)
      (fun _ => Committing s uuid) (fun _ => Committing s uuid) (Committing s uuid) := by
  have hstart := Committing.start hgood uuid
  refine bind (Q := fun _ => Marked s uuid) ?_ fun _ => of_eq fun s₁ h₁ => ?_
  · refine (write_triple s (fun _ => hstart) hstart).post ?_
    rintro _ _ rfl
    exact Marked.start hgood hfresh
  refine bind (gatherBatches_triple s₁ (fun _ => h₁.committing) h₁.committing uuid)
    fun batches => of_eq ?_
  rintro s₁ ⟨rfl, hproper, -⟩
  have h₂ := h₁.dependencies batches
  refine bind (write_triple s₁ (fun _ => h₁.committing) h₁.committing) fun _ => ?_
  refine readOp_bind (fun _ => h₂.committing) h₂.committing fun _ _ => ?_
  refine bind (measureCheckpointStorageUse_triple len (fun _ => h₂.committing)
    h₂.committing) fun used => bind_modify ?_
  have h₃ := h₂.push hproper
    ⟨uuid, identifier, fingerprint, some used, processedRecords, steps⟩ rfl
  refine bind (updateCheckpointFile_triple (fun _ => ⟨h₃, h₃.update⟩)
    ⟨h₃, h₃.update⟩) fun _ => pure ?_
  rintro _ rfl
  exact h₃.update

end

section

structure Collecting (s₀ s : State) : Prop where
  good : s.Good
  list : s.checkpointList = s₀.checkpointList ∨
    2 ≤ s.checkpointList.length ∧ ∃ c, s₀.checkpointList = c :: s.checkpointList
  two : 2 ≤ s₀.storage.stored.length → 2 ≤ s.storage.stored.length
  frame : ∀ n, s₀.storage.Needs s.checkpointList n → s.storage.find n = s₀.storage.find n
  idle : s₀.checkpointList = [] → s.storage = s₀.storage

theorem Collecting.start (h : s.Good) : Collecting s s :=
  ⟨h, .inl rfl, id, fun _ _ => rfl, fun _ => rfl⟩

theorem State.Good.of_eq {s' : State} (h : s.Good) (hstorage : s'.storage = s.storage)
    (hlist : s'.checkpointList = s.checkpointList) : s'.Good := by
  obtain ⟨hstored, hmemory, htwo, hfile⟩ := h
  constructor
  · rw [hstorage]
    exact hstored
  · rw [hstorage, hlist]
    exact hmemory
  · rw [hstorage, hlist]
    exact htwo
  · rw [hstorage]
    exact hfile

theorem needs_congr {d d' : Directory} {l : List Metadata}
    (h : ∀ n, d.Needs l n → d'.find n = d.find n) (n : Name) : d'.Needs l n ↔ d.Needs l n := by
  have hbatches : ∀ c ∈ l, d'.batchesOf c.uuid = d.batchesOf c.uuid := fun c hc =>
    batchesOf_congr (h _ ⟨c, hc, .inl rfl⟩)
  constructor
  · rintro ⟨c, hc, hn⟩
    rw [hbatches c hc] at hn
    exact ⟨c, hc, hn⟩
  · rintro ⟨c, hc, hn⟩
    rw [← hbatches c hc] at hn
    exact ⟨c, hc, hn⟩

structure Shortened (s₀ s : State) : Prop where
  collecting : Collecting s₀ s
  stored : s.storage.stored = s.checkpointList
  pop : ∃ c, s₀.checkpointList = c :: s.checkpointList

/-- Something is done to a name that the list does not need. -/
theorem Shortened.change {t : State} (h : Shortened s₀ s) {n : Name}
    (hname : n ≠ .reserved .checkpoints) (hneeds : ¬s₀.storage.Needs s.checkpointList n)
    (hlist : t.checkpointList = s.checkpointList)
    (hfind : ∀ m, m ≠ n → t.storage.find m = s.storage.find m) : Shortened s₀ t := by
  have hneedt : ¬s.storage.Needs s.checkpointList n := fun hn =>
    hneeds ((needs_congr h.collecting.frame n).mp hn)
  have hstored : t.storage.stored = t.checkpointList := by
    rw [hlist, ← h.stored, Directory.stored, Directory.stored, hfind _ (Ne.symm hname)]
  refine ⟨⟨?_, ?_, ?_, ?_, ?_⟩, hstored, hlist ▸ h.pop⟩
  · exact (h.collecting.good.change hname (h.stored ▸ hneedt) hneedt hfind).of_eq rfl hlist
  · rw [hlist]
    exact h.collecting.list
  · rw [hstored, hlist, ← h.stored]
    exact h.collecting.two
  · intro m hm
    rw [hlist] at hm
    rw [hfind m fun heq => hneeds (heq ▸ hm)]
    exact h.collecting.frame m hm
  · intro hnil
    obtain ⟨c, hc⟩ := h.pop
    rw [hnil] at hc
    cases hc

abbrev OnlyChanges (n : Name) (s s' : State) : Prop :=
  s'.checkpointList = s.checkpointList ∧ ∀ m, m ≠ n → s'.storage.find m = s.storage.find m

theorem removeBatchFile_triple (n : Name) {E : StorageError → State → Prop} {C : State → Prop}
    (hC : C s) :
    Triple (fun s' => s' = s) (removeBatchFile n) (fun _ => OnlyChanges n s) E C := by
  have hdelete : Triple (fun s' => s' = s) (delete n) (fun _ => OnlyChanges n s)
      (fun _ s' => s' = s) C := by
    refine Triple.op ?_ ?_ ?_ ?_
    · rintro _ a rfl -
      refine ⟨rfl, fun m hm => ?_⟩
      dsimp only [onStorage]
      split
      · rw [find_erase, if_neg hm]
      · rfl
      · rfl
    · rintro s' e rfl herror
      dsimp only at herror ⊢
      split at herror
      · cases herror
      · rfl
      · rfl
    · rintro _ k rfl
      rfl
    · rintro _ k rfl
      exact hC
  have hexists : Triple (fun s' => s' = s) (deleteIfExists n) (fun _ => OnlyChanges n s)
      (fun _ s' => s' = s) C := by
    refine handle hdelete fun e => ?_
    split
    · refine pure ?_
      rintro _ rfl
      exact ⟨rfl, fun _ _ => rfl⟩
    · exact fail fun _ hs => hs
  refine handle hexists fun e => modify ?_
  rintro _ rfl
  exact ⟨rfl, fun _ _ => rfl⟩

variable {next removed : Metadata} {rest : List Metadata}

theorem Collecting.pop (hgood : s.Good) {third : Metadata}
    (hlist : s.checkpointList = removed :: next :: third :: rest) :
    Collecting s { s with checkpointList := next :: third :: rest } where
  good := by
    obtain ⟨hstored, hmemory, -, hfile⟩ := hgood
    rw [hlist] at hmemory
    exact ⟨hstored, hmemory.tail, fun _ => by simp, hfile⟩
  list := .inr ⟨by simp, removed, hlist⟩
  two := id
  frame _ _ := rfl
  idle hnil := nomatch hnil.symm.trans hlist

theorem Collecting.update (h : Collecting s₀ s)
    (hpop : ∃ c, s₀.checkpointList = c :: s.checkpointList) (htwo : 2 ≤ s.checkpointList.length)
    (hsame : s.storage = s₀.storage) : Shortened s₀ s.saved := by
  obtain ⟨hgood, hstored⟩ := h.good.update
  refine ⟨⟨hgood, h.list, ?_, ?_, ?_⟩, hstored, hpop⟩
  · intro _
    rw [hstored]
    exact htwo
  · intro n hn
    rw [saved, onStorage, find_put, if_neg, hsame]
    rintro rfl
    rw [← hsame] at hn
    exact h.good.memory.not_needs_reserved _ hn
  · intro hnil
    obtain ⟨c, hc⟩ := hpop
    rw [hnil] at hc
    cases hc

/-- The batches that `gc_checkpoint` deletes are in none of the checkpoints that are left. -/
theorem not_needs_of_chain {d : Directory} (h : d.Kept (removed :: next :: rest)) {f : Name}
    (hf : f ∈ d.batchesOf removed.uuid) (hnext : f ∉ d.batchesOf next.uuid) :
    f ≠ .reserved .checkpoints ∧ ¬d.Needs (next :: rest) f := by
  obtain ⟨stem, hname⟩ :=
    Name.exists_of_isBatch ((h.intact removed mem_cons_self).batches f hf).2
  refine ⟨by rw [hname]; exact nofun, ?_⟩
  rintro ⟨c, hc, hdir | hbatch⟩
  · rw [hname] at hdir
    cases hdir
  · rcases mem_cons.mp hc with rfl | hc
    · exact hnext hbatch
    · exact h.chain [] removed next rest rfl f hf hnext c hc hbatch

/-- The rest of `gc_checkpoint`, once the list is stored: files and the directory are deleted. -/
theorem collect_triple (hkept : s₀.storage.Kept (removed :: next :: rest))
    (hlist : s.checkpointList = next :: rest) (h : Shortened s₀ s) {names keep : List Name}
    (hnames : names = s₀.storage.batchesOf removed.uuid)
    (hkeep : keep = s₀.storage.batchesOf next.uuid) :
    Triple (fun s' => s' = s)
      (do
        Prog.each removeBatchFile (names.filter fun n => n ∉ keep)
        removeCheckpointDir removed
        pure (some removed))
      (fun _ => Collecting s₀) (fun _ => Collecting s₀) (Collecting s₀) := by
  refine bind (Q := fun _ s' => Shortened s₀ s' ∧ s'.checkpointList = next :: rest) ?_
    fun _ => ?_
  · refine (each (I := fun _ s' => Shortened s₀ s' ∧ s'.checkpointList = next :: rest)
      ?_).conseq ?_ (fun _ _ h => h) (fun _ _ h => h) fun _ h => h
    · rintro pre f post hsplit
      refine of_eq fun s' hs => ?_
      have hf : f ∈ names.filter fun n => n ∉ keep := by
        rw [hsplit]
        simp
      obtain ⟨hmem, hnot⟩ := mem_filter.mp hf
      subst hnames hkeep
      obtain ⟨hname, hneeds⟩ := not_needs_of_chain hkept hmem (by simpa using hnot)
      refine (removeBatchFile_triple f hs.1.collecting).post ?_
      rintro _ s'' ⟨hl, hfind⟩
      exact ⟨hs.1.change hname (hs.2 ▸ hneeds) hl hfind, hl.trans hs.2⟩
    · rintro _ rfl
      exact ⟨h, hlist⟩
  · refine bind (Q := fun _ => Collecting s₀) ?_ fun _ => pure fun _ hs => hs
    have hname : Name.checkpointDir removed.uuid ≠ .reserved .checkpoints := nofun
    have hneeds : ¬s₀.storage.Needs (next :: rest) (.checkpointDir removed.uuid) :=
      hkept.tail.not_needs_dir (nodup_cons.mp hkept.nodup).1
    unfold removeCheckpointDir
    split
    · exact crash fun s' hs => hs.1.collecting
    refine of_eq fun s' hs => ?_
    have hneeds' : ¬s₀.storage.Needs s'.checkpointList (.checkpointDir removed.uuid) := by
      rw [hs.2]
      exact hneeds
    have hchange : ∀ d : Directory,
        (∀ m, m ≠ .checkpointDir removed.uuid → d.find m = s'.storage.find m) →
          Collecting s₀ (s'.onStorage d) := fun d hd =>
      (hs.1.change (t := s'.onStorage d) hname hneeds' rfl hd).collecting
    have hpart : ∀ count, Collecting s₀ (s'.onStorage
        (s'.storage.dropChildren (.checkpointDir removed.uuid) count)) := fun count =>
      hchange _ fun m hm => find_dropChildren_of_ne count hm
    refine deleteRecursive_triple s' _ (hchange _ fun m hm => ?_) (fun _ => hpart) hpart
    rw [find_erase, if_neg hm]

theorem gcCheckpoint_triple (hgood : s.Good) :
    Triple (fun s' => s' = s) gcCheckpoint (fun _ => Collecting s) (fun _ => Collecting s)
      (Collecting s) := by
  refine bind_get ?_
  split
  · next removed next third rest hl =>
    have h₁ := Collecting.pop hgood hl
    refine bind_modify ?_
    have h₂ := h₁.update ⟨removed, hl⟩ (by simp) rfl
    refine bind (updateCheckpointFile_triple (fun _ => ⟨h₁, h₂.collecting⟩)
      ⟨h₁, h₂.collecting⟩) fun _ => ?_
    have hbatches : ∀ uuid, (s.storage.put (.reserved .checkpoints)
        (.file (.checkpoints (next :: third :: rest)))).batchesOf uuid =
          s.storage.batchesOf uuid := by
      intro uuid
      refine batchesOf_congr ?_
      rw [find_put, if_neg nofun]
    refine bind (gatherBatches_triple _ (fun _ => h₂.collecting) h₂.collecting _)
      fun names => of_eq ?_
    rintro s₂ ⟨rfl, -, hnames⟩
    refine bind (gatherBatches_triple _ (fun _ => h₂.collecting) h₂.collecting _)
      fun keep => of_eq ?_
    rintro s₂ ⟨rfl, -, hkeep⟩
    have hkept := hgood.memory
    rw [hl] at hkept
    exact collect_triple hkept rfl h₂ (hnames.trans (hbatches _)) (hkeep.trans (hbatches _))
  · refine pure ?_
    rintro _ rfl
    exact Collecting.start hgood

end

end Feldera.Storage
