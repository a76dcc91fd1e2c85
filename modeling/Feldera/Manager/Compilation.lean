import Feldera.Manager.Lifecycle

/-!
The columns of the program over all interleavings of edits, compilations, compiler restarts
and platform upgrades. The checksum of the program info is the one column that a new program
keeps from the old one.
-/

namespace Feldera.Manager

open Checked List

variable {J : Type}

structure Row.Compiled (row : Row J) : Prop where
  source : row.program.binarySourceChecksum.isSome = true ↔ row.programStatus = .success
  integrity : row.program.binaryIntegrityChecksum.isSome = true ↔ row.programStatus = .success
  output : row.programStatus = .sqlCompiled ∨ row.programStatus = .compilingRust ∨
      row.programStatus = .success ∨ row.programStatus = .rustError →
    row.program.sqlCompilation.isSome = true ∧ row.program.programInfo.isSome = true
  noOutput : row.programStatus = .pending ∨ row.programStatus = .compilingSql →
    row.program.sqlCompilation = none ∧ row.program.programInfo = none

def Row.source (row : Row J) : String × String × String × J :=
  (row.descr.programCode, row.descr.udfRust, row.descr.udfToml, row.descr.programConfig)

theorem Row.compiled_new (tenant id : Nat) (platformVersion : String)
    (descr : PipelineDescr J) : (Row.new tenant id platformVersion descr).Compiled := by
  constructor <;> simp [Row.new]

theorem setProgramStatus_ne_panic {guard : Nat} {status : ProgramStatus} {new : ProgramFields J}
    (hgiven : new.given = status.takes) (message : String) :
    setProgramStatus rules guard status new row ≠ .error (.panic message) := by
  refine bind_ne_error (reject_ne_error nofun) fun _ =>
    bind_ne_error ?_ fun _ => bind_ne_error (reject_ne_error nofun) fun _ =>
    bind_ne_error (reject_ne_error ?_) fun _ =>
    bind_ne_error (rejectUnless_ne_error nofun) nofun
  · unfold validateProgramStatusTransition
    split <;> nofun
  · simp [hgiven]

variable [DecidableEq J] {rules : Rules J} {db db' : Db J} {row row' : Row J}
  {action : Option (Action J)}

section

omit [DecidableEq J] in
theorem Row.Compiled.programmed (h : row.Compiled) {status : ProgramStatus}
    {new : ProgramFields J}
    (hvalid : validateProgramStatusTransition (J := J) row.programStatus status = .ok ())
    (hgiven : new.given = status.takes) : (row.programmed status new).Compiled := by
  -- the output of the SQL compiler is kept from a status that has it
  have houtput : status = .compilingRust ∨ status = .success ∨ status = .rustError →
      row.program.sqlCompilation.isSome = true ∧ row.program.programInfo.isSome = true := by
    intro hstatus
    apply h.output
    revert hvalid
    rcases hstatus with rfl | rfl | rfl <;> cases row.programStatus <;>
      simp [validateProgramStatusTransition]
  cases status <;>
    simp only [ProgramFields.given, ProgramStatus.takes, cons.injEq, and_true] at hgiven <;>
    constructor <;> simp [Row.programmed, ProgramStatus.final, hgiven] <;> simp at houtput <;>
    exact houtput

theorem Row.Compiled.change (h : row.Compiled) (hchange : Change rules row action row') :
    row'.Compiled := by
  cases hchange with
  | programmed status new hstopped hvalid hgiven => exact h.programmed hvalid hgiven
  | renewed update platformVersion bump =>
    exact ⟨by simp [Row.renewProgram], by simp [Row.renewProgram], by simp [Row.renewProgram],
      fun _ => ⟨rfl, rfl⟩⟩
  | _ => exact ⟨h.source, h.integrity, h.output, h.noOutput⟩

/-- No accepted call makes a new program of one that was compiled. -/
def Db.KeepsCompiled (rules : Rules J) (db : Db J) (call : Call J) : Prop :=
  ∀ db', db.step rules call = .ok db' → ∀ row ∈ db.rows, ∀ row' ∈ db'.rows, row'.id = row.id →
    row.programStatus = .success → row'.programVersion = row.programVersion

/-- If the program of the row is not a new one, the checksum of its info fits its status. -/
theorem Change.infoChecksum (hchange : Change rules row action row')
    (hkept : row.programStatus = .success → row'.programVersion = row.programVersion)
    (h : row.program.infoIntegrityChecksum.isSome = true ↔ row.programStatus = .success) :
    row'.program.infoIntegrityChecksum.isSome = true ↔ row'.programStatus = .success := by
  cases hchange with
  | programmed status new hstopped hvalid hgiven =>
    cases status <;>
      simp only [ProgramFields.given, ProgramStatus.takes, cons.injEq, and_true] at hgiven <;>
      simp [Row.programmed, ProgramStatus.final, hgiven]
  | renewed update platformVersion bump =>
    have hnot : row.programStatus ≠ .success := fun hsuccess => by
      simpa [Row.renewProgram, Row.edited] using hkept hsuccess
    have hnone : ¬row.program.infoIntegrityChecksum.isSome = true := h.not.mpr hnot
    exact iff_of_false hnone (by rintro ⟨⟩)
  | _ => exact h

end

section

theorem updatePipeline_ne_panic {platformVersion : String} (message : String) :
    updatePipeline rules true {} platformVersion true row ≠ .error (.panic message) := by
  refine bind_ne_error (reject_ne_error (by simp)) fun _ =>
    bind_ne_error (reject_ne_error (by simp)) fun _ => ?_
  split
  · refine bind_ne_error (reject_ne_error (by simp)) fun _ => ?_
    split <;> rintro ⟨⟩
  · rintro ⟨⟩

/-- The output that the recovery of the Rust compiler expects is there. -/
theorem Recovery.apply_ne_panic (h : row.Compiled) (compiler : Recovery) (message : String) :
    compiler.apply rules row ≠ .error (.panic message) := by
  cases compiler with
  | sql platformVersion =>
    simp only [Recovery.apply]
    split
    · simp
    split
    · split
      · exact setProgramStatus_ne_panic rfl message
      · simp
    · split
      · exact updatePipeline_ne_panic message
      · simp
  | rust platformVersion =>
    simp only [Recovery.apply]
    split
    · simp
    split
    · split
      · rename_i hstatus
        obtain ⟨hsql, hinfo⟩ := h.output (.inr (.inl hstatus))
        split
        · rename_i hnone
          simp [hnone] at hsql
        · rename_i hnone _
          simp [hnone] at hinfo
        · exact setProgramStatus_ne_panic rfl message
      · simp
    · split
      · exact updatePipeline_ne_panic message
      · simp

end

section

/-- A later state of a row: a program of the same version has the same source. -/
structure Row.Follows (row row' : Row J) : Prop where
  version : row.programVersion ≤ row'.programVersion
  source : row'.programVersion = row.programVersion → row'.source = row.source

omit [DecidableEq J] in
theorem Row.Follows.trans {row'' : Row J} (h : row.Follows row') (h' : row'.Follows row'') :
    row.Follows row'' := by
  refine ⟨h.version.trans h'.version, fun heq => ?_⟩
  have hversion := h.version
  have hversion' := h'.version
  rw [h'.source (by omega), h.source (by omega)]

theorem changes_eq_false {α : Type} [DecidableEq α] {new : Option α} {current : α}
    (h : changes new current = false) : new.getD current = current := by
  cases new with
  | none => rfl
  | some value => simpa [changes] using h

theorem Change.follows (h : Change rules row action row') : row.Follows row' := by
  cases h with
  | edited update platformVersion bump hstopped hdesired hsame =>
    simp only [Row.programChanged, Bool.or_eq_false_iff] at hsame
    obtain ⟨⟨⟨⟨-, hcode⟩, hrust⟩, htoml⟩, hconfig⟩ := hsame
    refine ⟨le_rfl, fun _ => ?_⟩
    simp only [Row.source, Row.edited, PipelineDescr.edited, changes_eq_false hcode,
      changes_eq_false hrust, changes_eq_false htoml, changes_eq_false hconfig]
  | renewed update platformVersion bump =>
    refine ⟨Nat.le_succ _, fun heq => ?_⟩
    exact absurd heq (Nat.succ_ne_self _)
  | _ => exact ⟨le_rfl, fun _ => rfl⟩

theorem Db.Next.nextId_le {call : Call J} (h : Db.Next rules call db db') :
    db.nextId ≤ db'.nextId := by
  cases h with
  | created tenant platformVersion descr hrows hunique hid => omega
  | deleted tenant name current hfind hstopped hdesired hcleared hrows hid => omega
  | changed hrows hunique hid => omega

theorem Db.run_follows (hdb : db.Sound) (hrow : row ∈ db.rows) {calls : List (Call J)}
    (hrun : Machine.run (Db.tried rules) db calls = .ok db') :
    db'.Sound ∧ ∀ row' ∈ db'.rows, row'.id = row.id → row.Follows row' := by
  have hstart : ∀ row' ∈ db.rows, row'.id = row.id → row.Follows row' := by
    intro row' hrow' hid
    obtain rfl : row' = row := inj_on_of_nodup_map hdb.ids hrow' hrow hid
    exact ⟨le_rfl, fun _ => rfl⟩
  have hresult := Machine.run_invariant (I := fun d : Db J => d.Sound ∧ row.id < d.nextId ∧
    ∀ row' ∈ d.rows, row'.id = row.id → row.Follows row') ⟨?_⟩
    ⟨hdb, hdb.fresh row hrow, hstart⟩ (Machine.guarded_true _ calls) hrun
  · exact ⟨hresult.1, hresult.2.2⟩
  intro d call d' ⟨hd, hlt, hfollows⟩ _ htried
  unfold Db.tried at htried
  split at htried
  · rename_i hstep
    cases htried
    have hnext := Db.step_next hstep
    refine ⟨hd.next hnext, hlt.trans_le hnext.nextId_le, fun row' hrow' hid => ?_⟩
    obtain ⟨tenant, platformVersion, descr, rfl⟩ | ⟨old, hold, action, -, hperform⟩ :=
      hnext.row_origin hrow'
    · exact absurd hid hlt.ne'
    · have hchange := perform_change hperform
      exact (hfollows old hold (hchange.id_eq.symm.trans hid)).trans hchange.follows
  · cases htried
    exact ⟨hd, hlt, hfollows⟩

/-- A result is stored in a row of the program version it was compiled from. -/
theorem Db.program_version (hdb : db.Sound) {tenant id guard : Nat}
    {transition : ProgramTransition J}
    (h : db.step rules (.service tenant id (.program guard transition)) = .ok db')
    (hrow : row ∈ db.rows) (hid : row.id = id) : row.programVersion = guard := by
  simp only [Db.step] at h
  split at h
  · cases h
  rename_i hany
  obtain ⟨found, hfound, hidentified⟩ := any_eq_true.mp (not_not.mp hany)
  obtain rfl : found = row := inj_on_of_nodup_map hdb.ids hfound hrow
    ((of_decide_eq_true hidentified).2.trans hid.symm)
  obtain ⟨i, hi, rfl⟩ := mem_iff_getElem.mp hrow
  obtain ⟨hrows, -, -⟩ := Db.performAll_eq_ok.mp h
  have hperform := (forall₂_iff_get.mp hrows).2 i hi (hrows.length_eq ▸ hi)
  simp only [get_eq_getElem, hidentified, if_true] at hperform
  exact (setProgramStatus_eq_ok.mp hperform).1

end

end Feldera.Manager
