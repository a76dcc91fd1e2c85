import Feldera.Storage.CheckpointerCalls
import Feldera.Storage.CheckpointerStartup

/-!
Whole lives of a storage directory: a process is started, takes over a checkpoint, writes batches
and checkpoint directories, commits checkpoints and collects old ones, fails or is killed at any
operation, and is started again.

A restart that takes over an older checkpoint than the last one can break the others: the
checkpoints that follow share batches with one that is not next to them in the list.
-/

namespace Feldera.Storage

open Crash System Directory List

structure Process where
  checkpointList : List Metadata
  fingerprint : Nat
  base : List Name

structure System where
  storage : Directory
  process : Option Process
  warnings : List Name

inductive Event
  | kill
  | create (stem bytes : Nat) (faults : List Fault)
  | save (uuid : Uuid) (id : Nat) (files : List Name) (faults : List Fault)
  | commit (uuid : Uuid) (identifier : Option String) (steps processedRecords : Option Nat)
      (faults : List Fault)
  | gc (faults : List Fault)
  | start (fingerprint : Nat) (mustMatch : Bool) (restore : Option Uuid) (faults : List Fault)

namespace System

/-- A call of the running process. A crash ends the process. -/
def call {α : Type} (sys : System) (p : Process) (m : Operation α) (faults : List Fault)
    (base : State → List Name) : System :=
  match m ⟨sys.storage, p.checkpointList, []⟩ faults with
  | (.crashed, s, _) => ⟨s.storage, none, s.warnings⟩
  | (_, s, _) => ⟨s.storage, some ⟨s.checkpointList, p.fingerprint, base s⟩, s.warnings⟩

/-- A checkpoint can be taken over if its marker is there. -/
def canRestore (d : Directory) (uuid : Uuid) : Bool :=
  match d.children (.checkpointDir uuid) with
  | some files => (files.map Prod.fst).contains .marker
  | none => false

/-- The batches that a new process starts with, or nothing if they cannot be opened. -/
def restored (d : Directory) : Option Uuid → Option (List Name)
  | none => some []
  | some uuid => if (d.batchesOf uuid).all d.isFile then some (d.batchesOf uuid) else none

variable (len : Content → Nat)

variable (sys : System)

def step : Event → System
  | .kill => { sys with process := none }
  | .create stem bytes faults =>
    match sys.process with
    | none => sys
    | some p =>
      sys.call p (write (.other stem (some .feldera)) (.data bytes)) faults fun _ => p.base
  | .save uuid id files faults =>
    match sys.process with
    | none => sys
    | some p =>
      sys.call p (writeChild (.checkpointDir uuid) (.pspineBatches id) (.pspineBatches files))
        faults fun _ => p.base
  | .commit uuid identifier steps processedRecords faults =>
    match sys.process with
    | none => sys
    | some p =>
      -- the checkpoint counts as committed once it is in the list in memory
      sys.call p (commit len p.fingerprint uuid identifier steps processedRecords) faults
        fun s => if s.checkpointList = p.checkpointList then p.base else s.storage.batchesOf uuid
  | .gc faults =>
    match sys.process with
    | none => sys
    | some p => sys.call p gcCheckpoint faults fun _ => p.base
  | .start fingerprint mustMatch restore faults =>
    match sys.process with
    | some _ => sys
    | none =>
      if restore.all (canRestore sys.storage) then
        match newCheckpointer len fingerprint mustMatch ⟨sys.storage, [], []⟩ faults with
        | (.done _, s, _) =>
          ⟨s.storage, (restored s.storage restore).map fun base =>
            ⟨s.checkpointList, fingerprint, base⟩, s.warnings⟩
        | (_, s, _) => ⟨s.storage, none, s.warnings⟩
      else sys

def run (events : List Event) : System :=
  events.foldl (step len) sys

/-- New names are new, and the batches of a new checkpoint are those of the checkpoint that was
committed or restored last, or they are new. -/
def Allowed : Event → Prop
  | .kill => True
  | .create stem _ _ => sys.storage.find (.other stem (some .feldera)) = none
  | .save uuid _ _ _ => uuid ∉ sys.storage.stored.map Metadata.uuid ∧
      ∀ p ∈ sys.process, uuid ∉ p.checkpointList.map Metadata.uuid
  | .commit uuid _ _ _ _ => uuid ∉ sys.storage.stored.map Metadata.uuid ∧
      ∀ p ∈ sys.process, uuid ∉ p.checkpointList.map Metadata.uuid ∧
        ∀ f ∈ sys.storage.batchesOf uuid, f.isBatch = true ∧
          (f ∈ p.base ∨ sys.storage.isFile f = true ∧
            ∀ c ∈ p.checkpointList, f ∉ sys.storage.batchesOf c.uuid)
  | .gc _ => True
  | .start _ _ restore _ =>
      ∀ uuid ∈ restore, ∀ f ∈ sys.storage.batchesOf uuid, f.isBatch = true

/-- A restart takes over the last checkpoint of the list, or none, or there is no list. -/
def Orderly : Event → Prop
  | .start _ _ restore _ =>
      ∀ uuid ∈ restore, sys.storage.stored = [] ∨ ∃ c ∈ sys.storage.stored.getLast?, c.uuid = uuid
  | _ => True

instance (sys : System) (e : Event) : Decidable (sys.Allowed e) :=
  match e with
  | .kill => inferInstanceAs (Decidable True)
  | .create _ _ _ => inferInstanceAs (Decidable (_ = _))
  | .save _ _ _ _ => inferInstanceAs (Decidable (_ ∧ _))
  | .commit _ _ _ _ _ => inferInstanceAs (Decidable (_ ∧ _))
  | .gc _ => inferInstanceAs (Decidable True)
  | .start _ _ restore _ => inferInstanceAs (Decidable (∀ uuid ∈ restore, _))

instance (sys : System) (e : Event) : Decidable (sys.Orderly e) :=
  match e with
  | .kill => inferInstanceAs (Decidable True)
  | .create _ _ _ => inferInstanceAs (Decidable True)
  | .save _ _ _ _ => inferInstanceAs (Decidable True)
  | .commit _ _ _ _ _ => inferInstanceAs (Decidable True)
  | .gc _ => inferInstanceAs (Decidable True)
  | .start _ _ restore _ => inferInstanceAs (Decidable (∀ uuid ∈ restore, _ ∨ _))

/-- Every event of a run satisfies `guard` when it happens. -/
def Guarded (guard : System → Event → Prop) : System → List Event → Prop
  | _, [] => True
  | sys, e :: events => guard sys e ∧ Guarded guard (sys.step len e) events

instance (guard : System → Event → Prop) [∀ sys e, Decidable (guard sys e)] :
    (sys : System) → (events : List Event) → Decidable (Guarded len guard sys events)
  | _, [] => inferInstanceAs (Decidable True)
  | sys, e :: events =>
    let _ := instDecidableGuarded guard (sys.step len e) events
    inferInstanceAs (Decidable (guard sys e ∧ Guarded len guard (sys.step len e) events))

end System

section

variable {sys : System} {len : Content → Nat}

structure Process.Sound (d : Directory) (p : Process) : Prop where
  good : State.Good ⟨d, p.checkpointList, []⟩
  present : ∀ f ∈ p.base, d.isFile f = true ∧ f.isBatch = true
  last : ∀ c ∈ p.checkpointList.getLast?, ∀ f ∈ p.base, f ∈ d.batchesOf c.uuid

structure System.Sound (sys : System) : Prop where
  stored : sys.storage.Kept sys.storage.stored
  file : ∀ e ∈ sys.storage.find (.reserved .checkpoints), ∃ l, e = .file (.checkpoints l)
  process : ∀ p ∈ sys.process, p.Sound sys.storage

structure System.Advances (sys sys' : System) : Prop where
  sound : sys'.Sound
  two : 2 ≤ sys.storage.stored.length → 2 ≤ sys'.storage.stored.length

theorem System.Advances.refl (h : sys.Sound) : sys.Advances sys :=
  ⟨h, id⟩

variable {faults : List Fault} {p : Process}

theorem System.call_advances {α : Type} {m : Operation α} {base : State → List Name}
    {R : State → Prop}
    (hm : Triple (fun s => s = ⟨sys.storage, p.checkpointList, []⟩) m (fun _ => R) (fun _ => R) R)
    (hgood : ∀ s, R s → s.Good)
    (htwo : ∀ s, R s → 2 ≤ sys.storage.stored.length → 2 ≤ s.storage.stored.length)
    (hpresent : ∀ s, R s → ∀ f ∈ base s, s.storage.isFile f = true ∧ f.isBatch = true)
    (hlast : ∀ s, R s → ∀ c ∈ s.checkpointList.getLast?, ∀ f ∈ base s,
      f ∈ s.storage.batchesOf c.uuid) : sys.Advances (sys.call p m faults base) := by
  have hrun := hm _ faults rfl
  have hsound : ∀ s, R s → ∀ process, (∀ p' ∈ process, p' =
      (⟨s.checkpointList, p.fingerprint, base s⟩ : Process)) →
        sys.Advances ⟨s.storage, process, s.warnings⟩ := by
    intro s hs process hprocess
    have h := hgood s hs
    refine ⟨⟨h.stored, h.file, fun p' hp' => ?_⟩, htwo s hs⟩
    rw [hprocess p' hp']
    exact ⟨h.of_eq rfl rfl, hpresent s hs, hlast s hs⟩
  unfold call
  rcases hend : m ⟨sys.storage, p.checkpointList, []⟩ faults with ⟨a | e | -, s, fs⟩
  all_goals rw [hend] at hrun
  · exact hsound s hrun _ fun p' hp' => (Option.some.inj hp').symm
  · exact hsound s hrun _ fun p' hp' => (Option.some.inj hp').symm
  · exact hsound s hrun _ nofun

theorem isFile_congr {d d' : Directory} {n : Name} (h : d'.find n = d.find n) :
    d'.isFile n = d.isFile n := by
  rw [isFile, isFile, h]

section

variable (hp : p.Sound sys.storage)
include hp

/-- A write that succeeds, or does nothing, and concerns neither the lists nor the batches that the
process has taken over. -/
theorem System.write_advances {effect : Directory → Directory}
    (hgood : (State.onStorage ⟨sys.storage, p.checkpointList, []⟩ (effect sys.storage)).Good)
    (hfile : (effect sys.storage).find (.reserved .checkpoints) =
      sys.storage.find (.reserved .checkpoints))
    (hbase : ∀ f ∈ p.base, (effect sys.storage).isFile f = true)
    (hdir : ∀ c ∈ p.checkpointList, (effect sys.storage).find (.checkpointDir c.uuid) =
      sys.storage.find (.checkpointDir c.uuid)) :
    sys.Advances (sys.call p (storageOp (fun d => (.ok (), effect d)) fun _ d => d) faults
      fun _ => p.base) := by
  have hstored : (effect sys.storage).stored = sys.storage.stored := by
    rw [stored, stored, hfile]
  refine call_advances (R := fun s => s = ⟨sys.storage, p.checkpointList, []⟩ ∨
    s = State.onStorage ⟨sys.storage, p.checkpointList, []⟩ (effect sys.storage)) ?_ ?_ ?_ ?_ ?_
  · exact (write_triple _ (fun _ => .inl rfl) (.inl rfl)).post fun _ s hs => .inr hs
  · rintro s (rfl | rfl)
    · exact hp.good
    · exact hgood
  · rintro s (rfl | rfl)
    · exact id
    · rw [State.onStorage, hstored]
      exact id
  · rintro s (rfl | rfl) f hf
    · exact hp.present f hf
    · exact ⟨hbase f hf, (hp.present f hf).2⟩
  · rintro s (rfl | rfl) c hc f hf
    · exact hp.last c hc f hf
    · rw [State.onStorage, batchesOf_congr (hdir c (mem_of_getLast? hc))]
      exact hp.last c hc f hf

theorem System.create_advances {stem : Nat}
    (hfresh : sys.storage.find (.other stem (some .feldera)) = none) (bytes : Nat)
    (faults : List Fault) :
    sys.Advances (sys.call p (write (.other stem (some .feldera)) (.data bytes)) faults
      fun _ => p.base) := by
  refine write_advances hp (hp.good.create hfresh (.data bytes)) ?_ ?_ ?_
  · rw [find_put, if_neg (by simp)]
  · intro f hf
    have hfile := (hp.present f hf).1
    rw [isFile, find_put]
    by_cases heq : f = .other stem (some .feldera)
    · rw [if_pos heq]
    · rw [if_neg heq]
      exact hfile
  · intro c _
    rw [find_put, if_neg (by simp)]

section

variable {uuid : Uuid} (hstored : uuid ∉ sys.storage.stored.map Metadata.uuid)
  (hmemory : uuid ∉ p.checkpointList.map Metadata.uuid) (faults : List Fault)
include hstored hmemory

theorem System.save_advances (id : Nat) (files : List Name) :
    sys.Advances (sys.call p (writeChild (.checkpointDir uuid) (.pspineBatches id)
      (.pspineBatches files)) faults fun _ => p.base) := by
  refine write_advances hp (hp.good.putChild hstored hmemory _ _) ?_ ?_ ?_
  · exact find_putChild_of_ne _ _ nofun
  · intro f hf
    obtain ⟨hfile, hname⟩ := hp.present f hf
    obtain ⟨stem, rfl⟩ := Name.exists_of_isBatch hname
    have hname' : Name.other stem (some .feldera) ≠ .checkpointDir uuid := nofun
    exact (isFile_congr (find_putChild_of_ne _ _ hname')).trans hfile
  · intro c hc
    refine find_putChild_of_ne _ _ fun heq => hmemory ?_
    rw [← Name.checkpointDir.inj heq]
    exact mem_map_of_mem hc

theorem System.commit_advances
    (hfiles : ∀ f ∈ sys.storage.batchesOf uuid, f.isBatch = true ∧ (f ∈ p.base ∨
      sys.storage.isFile f = true ∧ ∀ c ∈ p.checkpointList, f ∉ sys.storage.batchesOf c.uuid))
    (identifier : Option String) (steps processedRecords : Option Nat) :
    sys.Advances (sys.call p
      (commit len p.fingerprint uuid identifier steps processedRecords) faults
      fun s => if s.checkpointList = p.checkpointList then p.base
        else s.storage.batchesOf uuid) := by
  have hfresh : State.Fresh ⟨sys.storage, p.checkpointList, []⟩ uuid := by
    refine ⟨hstored, hmemory, fun f hf => ?_, fun f hf => ?_⟩
    · obtain ⟨hname, hbase | ⟨hfile, -⟩⟩ := hfiles f hf
      · exact hp.present f hbase
      · exact ⟨hfile, hname⟩
    · exact (hfiles f hf).2.imp (fun hbase c hc => hp.last c hc f hbase) And.right
  refine call_advances (commit_triple len p.fingerprint identifier steps processedRecords
    hp.good hfresh) (fun s hs => hs.good) (fun s hs => hs.two) ?_ ?_
  · intro s hs f hf
    split at hf
    · obtain ⟨hfile, hname⟩ := hp.present f hf
      obtain ⟨stem, rfl⟩ := Name.exists_of_isBatch hname
      have hsame := hs.frame (.other stem (some .feldera)) nofun nofun
      exact ⟨(isFile_congr hsame).trans hfile, rfl⟩
    · next hne =>
      rcases hs.list with heq | ⟨md, rfl, hlist⟩
      · exact absurd heq hne
      · exact (hs.good.memory.intact md (by rw [hlist]; simp)).batches f hf
  · intro s hs c hc f hf
    split at hf
    · next heq =>
      rw [heq] at hc
      have hne : Name.checkpointDir c.uuid ≠ .checkpointDir uuid := fun hname => hmemory (by
        rw [← Name.checkpointDir.inj hname]
        exact mem_map_of_mem (mem_of_getLast? hc))
      rw [batchesOf_congr (hs.frame _ hne nofun)]
      exact hp.last c hc f hf
    · next hne =>
      rcases hs.list with heq | ⟨md, rfl, hlist⟩
      · exact absurd heq hne
      · rw [hlist, getLast?_concat] at hc
        rw [← Option.some.inj hc]
        exact hf

end

theorem System.gc_advances (faults : List Fault) :
    sys.Advances (sys.call p gcCheckpoint faults fun _ => p.base) := by
  -- the last checkpoint stays the last one, with its batches
  have hlast : ∀ s, Collecting ⟨sys.storage, p.checkpointList, []⟩ s →
      ∀ c ∈ s.checkpointList.getLast?, c ∈ s.checkpointList ∧
        ∀ f ∈ p.base, f ∈ s.storage.batchesOf c.uuid := by
    intro s hs c hc
    have hmem := mem_of_getLast? hc
    refine ⟨hmem, fun f hf => ?_⟩
    have hsame : p.checkpointList.getLast? = some c := by
      rcases hs.list with heq | ⟨hlen, removed, hpop⟩
      · have heq : s.checkpointList = p.checkpointList := heq
        rw [← heq]
        exact hc
      · have hpop : p.checkpointList = removed :: s.checkpointList := hpop
        rw [hpop, getLast?_cons, show s.checkpointList.getLast? = some c from hc]
        rfl
    rw [batchesOf_congr (hs.frame _ ⟨c, hmem, .inl rfl⟩)]
    exact hp.last c hsame f hf
  refine call_advances (gcCheckpoint_triple hp.good) (fun s hs => hs.good)
    (fun s hs => hs.two) ?_ fun s hs c hc => (hlast s hs c hc).2
  intro s hs f hf
  cases hend : s.checkpointList.getLast? with
  | some c =>
    obtain ⟨hmem, hbatches⟩ := hlast s hs c hend
    exact (hs.good.memory.intact c hmem).batches f (hbatches f hf)
  | none =>
    have hnil : s.checkpointList = [] := getLast?_eq_none_iff.mp hend
    have hidle : p.checkpointList = [] := by
      rcases hs.list with heq | ⟨hlen, -⟩
      · exact heq.symm.trans hnil
      · rw [hnil] at hlen
        exact absurd hlen (by simp)
    rw [hs.idle hidle]
    exact hp.present f hf

end

/-- What a restart leaves behind. -/
theorem System.start_spec (hsys : sys.Sound) (hnone : sys.process = none) {fingerprint : Nat}
    {mustMatch : Bool} {restore : Option Uuid}
    (hallowed : sys.Allowed (.start fingerprint mustMatch restore faults))
    (horderly : sys.Orderly (.start fingerprint mustMatch restore faults)) :
    let sys' := sys.step len (.start fingerprint mustMatch restore faults)
    sys.Advances sys' ∧
      (∀ n, sys.storage.Needs sys.storage.stored n → sys'.storage.find n = sys.storage.find n) ∧
      (sys'.process ≠ none → sys.storage.stored ≠ [] →
        Swept sys.storage ⟨sys'.storage, [], sys'.warnings⟩) := by
  have hrun := newCheckpointer_triple (s := ⟨sys.storage, [], []⟩) len fingerprint mustMatch rfl _
    faults rfl
  have hstorage : ∀ s, Starting sys.storage s → ∀ process, (∀ p ∈ process, p.Sound s.storage) →
      sys.Advances ⟨s.storage, process, s.warnings⟩ := by
    intro s hs process hprocess
    refine ⟨⟨hs.kept hsys.stored, ?_, hprocess⟩, ?_⟩
    · rw [hs.reserved]
      exact hsys.file
    · rw [hs.stored_eq]
      exact id
  unfold step
  rw [hnone]
  dsimp only
  split
  · rcases hend : newCheckpointer len fingerprint mustMatch ⟨sys.storage, [], []⟩ faults with
      ⟨a | e | -, s, fs⟩
    all_goals rw [hend] at hrun
    · obtain ⟨hlist, hs, hswept, hsame⟩ := hrun
      refine ⟨hstorage s hs _ fun p hp => ?_, hs.needed, fun _ hne => hswept hne⟩
      obtain ⟨base, hbase, rfl⟩ := Option.map_eq_some_iff.mp hp
      have hgood : State.Good ⟨s.storage, s.checkpointList, []⟩ := by
        have hkept := hs.kept hsys.stored
        refine ⟨hkept, ?_, fun htwo => ?_, ?_⟩
        · rw [hlist, ← hs.stored_eq]
          exact hkept
        · rw [hlist, ← hs.stored_eq]
          exact htwo
        · rw [hs.reserved]
          exact hsys.file
      cases restore with
      | none =>
        obtain rfl : [] = base := Option.some.inj hbase
        exact ⟨hgood, nofun, fun _ _ => nofun⟩
      | some uuid =>
        simp only [restored] at hbase
        split at hbase
        · next hall =>
          obtain rfl : s.storage.batchesOf uuid = base := Option.some.inj hbase
          rcases horderly uuid rfl with hnil | ⟨c, hc, rfl⟩
          · refine ⟨hgood, fun f hf => ⟨all_eq_true.mp hall f hf, ?_⟩, fun c hc => ?_⟩
            · rw [hsame hnil] at hf
              exact hallowed uuid rfl f hf
            · rw [hlist, hnil] at hc
              cases hc
          · have hmem : c ∈ s.checkpointList := hlist ▸ mem_of_getLast? hc
            refine ⟨hgood, (hgood.memory.intact c hmem).batches, fun c' hc' f hf => ?_⟩
            rw [hlist] at hc'
            rwa [← Option.mem_unique hc hc']
        · cases hbase
    · exact ⟨hstorage s hrun none nofun, hrun.needed, fun h => absurd rfl h⟩
    · exact ⟨hstorage s hrun none nofun, hrun.needed, fun h => absurd rfl h⟩
  · refine ⟨Advances.refl hsys, fun _ _ => rfl, fun h => absurd hnone h⟩

theorem System.advances_of_process (hsys : sys.Sound) {f : Process → System}
    (h : ∀ p, p.Sound sys.storage → p ∈ sys.process → sys.Advances (f p)) :
    sys.Advances (match sys.process with | none => sys | some p => f p) := by
  cases hp : sys.process with
  | none => exact Advances.refl hsys
  | some p => exact h p (hsys.process p hp) hp

theorem System.step_advances (hsys : sys.Sound) {e : Event} (hallowed : sys.Allowed e)
    (horderly : sys.Orderly e) : sys.Advances (sys.step len e) := by
  cases e with
  | kill => exact ⟨⟨hsys.stored, hsys.file, nofun⟩, id⟩
  | create stem bytes faults =>
    exact advances_of_process hsys fun p hp _ =>
      create_advances hp hallowed bytes faults
  | save uuid id files faults =>
    exact advances_of_process hsys fun p hp hmem =>
      save_advances hp hallowed.1 (hallowed.2 p hmem) faults id files
  | commit uuid identifier steps processedRecords faults =>
    refine advances_of_process hsys fun p hp hmem => ?_
    obtain ⟨hmemory, hfiles⟩ := hallowed.2 p hmem
    exact commit_advances hp hallowed.1 hmemory faults hfiles identifier steps
      processedRecords
  | gc faults =>
    exact advances_of_process hsys fun p hp _ => gc_advances hp faults
  | start fingerprint mustMatch restore faults =>
    cases hp : sys.process with
    | none => exact (start_spec hsys hp hallowed horderly).1
    | some p => simpa only [step, hp] using Advances.refl hsys

/-- Every state of a run in which the events are allowed and the restarts orderly. -/
theorem System.run_sound (hsys : sys.Sound) {events : List Event}
    (h : Guarded len (fun sys e => sys.Allowed e ∧ sys.Orderly e) sys events) :
    (sys.run len events).Sound := by
  induction events generalizing sys with
  | nil => exact hsys
  | cons e events ih =>
    obtain ⟨⟨hallowed, horderly⟩, hrest⟩ := h
    exact ih (step_advances hsys hallowed horderly).sound hrest

theorem System.sound_initial {d : Directory} (h : d.find (.reserved .checkpoints) = none)
    (warnings : List Name) : Sound ⟨d, none, warnings⟩ := by
  have hstored : d.stored = [] := by
    rw [stored, h]
  refine ⟨?_, fun e he => ?_, by simp⟩
  · change d.Kept d.stored
    rw [hstored]
    exact ⟨by simp, nodup_nil, fun pre a b post hsplit => absurd hsplit (by simp)⟩
  · rw [show d.find _ = none from h] at he
    cases he

end

/-- In every run from a directory without checkpoints in which each restart takes over the last
checkpoint of the list, if any: the listed checkpoints have their directories and batches, there
are never fewer than two of them again, and a restart with a list removes exactly what none of
them needs, unless its deletion fails. -/
theorem listed_checkpoints_intact (len : Content → Nat) (d : Directory)
    (hempty : d.find (.reserved .checkpoints) = none) (events : List Event)
    (h : System.Guarded len (fun sys e => sys.Allowed e ∧ sys.Orderly e) ⟨d, none, []⟩ events) :
    let sys := System.run len ⟨d, none, []⟩ events
    (∀ c ∈ sys.storage.stored, sys.storage.Intact c.uuid) ∧
    (∀ e, sys.Allowed e → sys.Orderly e → 2 ≤ sys.storage.stored.length →
      2 ≤ (sys.step len e).storage.stored.length) ∧
    ∀ fingerprint mustMatch restore faults, sys.process = none →
      let e := Event.start fingerprint mustMatch restore faults
      let sys' := sys.step len e
      sys.Allowed e → sys.Orderly e → sys'.process ≠ none → sys.storage.stored ≠ [] →
        (∀ n, sys.storage.Needs sys.storage.stored n →
          sys'.storage.find n = sys.storage.find n) ∧
        ∀ n entry, sys.storage.find n = some entry → ¬sys.storage.Needs sys.storage.stored n →
          n.isBatch = true ∨ (∃ uuid, n = .checkpointDir uuid) ∧ entry.isDirectory = true →
            sys'.storage.find n = none ∨ n ∈ sys'.warnings := by
  intro sys
  have hsys : sys.Sound := System.run_sound (System.sound_initial hempty []) h
  refine ⟨hsys.stored.intact, fun e hallowed horderly =>
    (System.step_advances hsys hallowed horderly).two, ?_⟩
  intro fingerprint mustMatch restore faults hnone e sys' hallowed horderly hsome hne
  obtain ⟨-, hneeded, hswept⟩ :=
    @System.start_spec sys len faults hsys hnone fingerprint mustMatch restore hallowed horderly
  refine ⟨hneeded, fun n entry hfind hneeds hkind => hswept hsome hne n entry hfind ?_ hneeds ?_⟩
  · rintro r rfl
    rcases hkind with hbatch | ⟨⟨uuid, hdir⟩, -⟩
    · cases hbatch
    · cases hdir
  · rcases hkind with hbatch | ⟨-, hdir⟩
    · obtain ⟨stem, rfl⟩ := Name.exists_of_isBatch hbatch
      rfl
    · rw [hdir, Bool.or_true]

section

def batch (stem : Nat) : Name :=
  .other stem (some .feldera)

def twoCheckpoints : List Event :=
  [.start 0 true none [], .create 1 10 [], .save 1 0 [batch 1] [], .commit 1 none none none [],
    .create 2 10 [], .save 2 0 [batch 2] [], .commit 2 none none none [], .kill]

/-- A restart from one of them, and a third checkpoint of the batch that the process has taken
over; then the first checkpoint is collected. -/
def restartFrom (uuid : Uuid) : List Event :=
  twoCheckpoints ++ [.start 0 true (some uuid) [], .save 3 0 [batch uuid] [],
    .commit 3 none none none [], .gc []]

/-- After a restart from the first of two checkpoints, `gc_checkpoint` deletes a batch that the
third one depends on. -/
theorem gcCheckpoint_deletes_needed_batch :
    System.Guarded (fun _ => 1) System.Allowed ⟨[], none, []⟩ (restartFrom 1) ∧
      ((System.run (fun _ => 1) ⟨[], none, []⟩ (restartFrom 1)).storage.stored.map
        Metadata.uuid) = [2, 3] ∧
      batch 1 ∈ (System.run (fun _ => 1) ⟨[], none, []⟩ (restartFrom 1)).storage.batchesOf 3 ∧
      (System.run (fun _ => 1) ⟨[], none, []⟩ (restartFrom 1)).storage.find (batch 1) = none := by
  decide +kernel

/-- After a restart from the last one it does not. -/
theorem listed_checkpoints_intact_restartFrom :
    ((System.run (fun _ => 1) ⟨[], none, []⟩ (restartFrom 2)).storage.stored.map
        Metadata.uuid) = [2, 3] ∧
      ∀ c ∈ (System.run (fun _ => 1) ⟨[], none, []⟩ (restartFrom 2)).storage.stored,
        (System.run (fun _ => 1) ⟨[], none, []⟩ (restartFrom 2)).storage.Intact c.uuid :=
  ⟨by decide +kernel,
    (listed_checkpoints_intact (fun _ => 1) [] rfl (restartFrom 2) (by decide +kernel)).1⟩

end

end Feldera.Storage
