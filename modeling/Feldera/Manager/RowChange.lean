import Feldera.Manager.Database

/-!
What a transaction can do to a row. Each operation has one lemma that says exactly when it is
accepted and which row it writes; `Change` collects them, so that an invariant of the table is
proved against its constructors and no longer against the operations.
-/

namespace Feldera.Manager

open Checked

variable {J : Type} {rules : Rules J}

def Row.programmed (row : Row J) (status : ProgramStatus) (new : ProgramFields J) : Row J :=
  { row with
    programStatus := status
    program := status.final row.program new
    refreshVersion := if status.incrementsRefreshVersion then row.refreshVersion + 1
      else row.refreshVersion }

def Row.wanted (row : Row J) (initial : RuntimeDesiredStatus) (policy : BootstrapPolicy) :
    Row J :=
  { row with
    desiredStatus := .provisioned
    deploymentInitial := some initial
    bootstrapPolicy := some policy }

def Row.unwanted (row : Row J) : Row J :=
  { row with
    desiredStatus := .stopped
    deploymentInitial := if row.resourcesStatus = .stopped then none else row.deploymentInitial
    bootstrapPolicy := if row.resourcesStatus = .stopped then none else row.bootstrapPolicy }

def Row.provisioning (row : Row J) (id : Nat) (config : J) : Row J :=
  { row with
    storageStatus := .inUse
    resourcesStatus := .provisioning
    deployment := { id := some id, config := some config } }

def Row.provisioned (row : Row J) (location : String) (status : ExtendedRuntimeStatus J) :
    Row J :=
  { row with
    resourcesStatus := .provisioned
    deployment := {
      runtimeStatus := some status.runtimeStatus
      runtimeStatusDetails := some status.runtimeStatusDetails
      runtimeDesiredStatus := some status.runtimeDesiredStatus
      id := row.deployment.id
      config := row.deployment.config
      location := some location } }

def Row.stopping (row : Row J) (error suspendInfo : Option J) : Row J :=
  { row.unwanted with
    resourcesStatus := .stopping
    deploymentInitial := none
    deployment := { error := error, suspendInfo := suspendInfo } }

def Row.stopped (row : Row J) : Row J :=
  { row with
    resourcesStatus := .stopped
    deploymentInitial := none
    deployment := { error := row.deployment.error, suspendInfo := row.deployment.suspendInfo } }

/-- The start of the row, if there is one, is one its configuration allows. -/
def Row.StartAllowed (rules : Rules J) (row : Row J) : Prop :=
  row.deploymentInitial = some .standby →
    rules.standbyAllowed row.descr.runtimeConfig = true

section

variable {row row' : Row J}

theorem updatePipeline_eq_ok [DecidableEq J] {isCompilerUpdate : Bool} {update : PipelineUpdate J}
    {platformVersion : String} {bump : Bool}
    (h : updatePipeline rules isCompilerUpdate update platformVersion bump row = .ok row') :
    row.resourcesStatus = .stopped ∧
      (row.desiredStatus = .stopped ∨ isCompilerUpdate = true) ∧
      (isCompilerUpdate = true → update = {}) ∧
      (row' = row ∨
        (row.programChanged update platformVersion bump = true ∧
          row' = (row.edited update platformVersion true).renewProgram) ∨
        (row.coreChanged update platformVersion bump = true ∧
          row.programChanged update platformVersion bump = false ∧
          row' = row.edited update platformVersion bump)) := by
  simp only [updatePipeline, bind_eq_ok, reject_eq_ok, assertThat_eq_ok,
    exists_const] at h
  obtain ⟨hstopped, hcompiler, h⟩ := h
  rw [not_not] at hstopped
  have honly : isCompilerUpdate = true → update = {} := by
    intro hc
    simp only [hc, Bool.not_true, Bool.false_or, Bool.and_eq_true, decide_eq_true_eq]
      at hcompiler
    exact hcompiler.2
  refine ⟨hstopped.1, hstopped.2, honly, ?_⟩
  split at h
  · simp only [bind_eq_ok, reject_eq_ok, exists_const] at h
    obtain ⟨-, h⟩ := h
    split at h
    · exact .inr (.inl ⟨by assumption, (pure_eq_ok.mp h).symm⟩)
    · exact .inr (.inr ⟨by assumption, by simp_all, (pure_eq_ok.mp h).symm⟩)
  · exact .inl (pure_eq_ok.mp h).symm

variable {guard : Nat}

theorem setProgramStatus_eq_ok {status : ProgramStatus} {new : ProgramFields J} :
    setProgramStatus rules guard status new row = .ok row' ↔
      row.programVersion = guard ∧
      validateProgramStatusTransition (J := J) row.programStatus status = .ok () ∧
      row.resourcesStatus = .stopped ∧ new.given = status.takes ∧
      (∀ info, (status.final row.program new).programInfo = some info →
        rules.validateProgramInfo info = true) ∧
      row' = row.programmed status new := by
  simp only [setProgramStatus, bind_eq_ok, reject_eq_ok, assertThat_eq_ok,
    rejectUnless_eq_ok, pure_eq_ok, not_not, decide_eq_true_eq, Row.programmed,
    eq_comm (b := row'), Unique.exists_iff, ne_eq]

theorem desiredProvisioned_eq_ok {initial : RuntimeDesiredStatus} {policy : BootstrapPolicy} :
    setDeploymentResourcesDesiredStatus rules .provisioned (some initial) (some policy) row =
        .ok row' ↔
      (row.desiredStatus = .provisioned ∨ row.resourcesStatus = .stopped) ∧
      (row.deploymentInitial = none ∨
        (row.deploymentInitial = some initial ∧ row.bootstrapPolicy = some policy)) ∧
      (row.wanted initial policy).StartAllowed rules ∧ row' = row.wanted initial policy := by
  simp only [setDeploymentResourcesDesiredStatus, finalInitial, bind_eq_ok,
    reject_eq_ok, checkPrecondition_eq_ok, pure_eq_ok, Unique.exists_iff,
    validateResourcesDesiredStatusTransition_provisioned, Option.isSome_some, true_and,
    exists_eq_left', Row.wanted, Row.StartAllowed, eq_comm (b := row'), Prod.mk.injEq, ne_eq,
    not_and, not_not]
  cases row.deploymentInitial <;> simp

theorem desiredStopped_eq_ok :
    setDeploymentResourcesDesiredStatus rules .stopped none none row = .ok row' ↔
      row.unwanted.StartAllowed rules ∧ row' = row.unwanted := by
  simp only [setDeploymentResourcesDesiredStatus, finalInitial, bind_eq_ok,
    reject_eq_ok, checkPrecondition_eq_ok, pure_eq_ok, Unique.exists_iff,
    validateResourcesDesiredStatusTransition_stopped, Option.isNone_none, true_and,
    exists_eq_left', Row.unwanted, Row.StartAllowed, eq_comm (b := row'), ne_eq, not_and,
    not_not]
  by_cases hstopped : row.resourcesStatus = .stopped <;> simp [hstopped]

theorem setStorageStatus_eq_ok {status : StorageStatus} :
    setStorageStatus status row = .ok row' ↔
      validateStorageStatusTransition (J := J) row.resourcesStatus row.storageStatus status =
        .ok () ∧ row' = { row with storageStatus := status } := by
  simp only [setStorageStatus, bind_eq_ok, pure_eq_ok, Unique.exists_iff,
    eq_comm (b := row')]

theorem setDeploymentResourcesStatus_eq_ok {status : ResourcesStatus} {new : DeploymentFields J}
    :
    setDeploymentResourcesStatus rules guard status new row = .ok row' ↔
      row.version = guard ∧
      validateResourcesStatusTransition (J := J) row.storageStatus row.resourcesStatus status =
        .ok () ∧
      (needsProgram row.resourcesStatus status = true → row.programStatus = .success) ∧
      ∃ stopping, stoppingFields status row.deployment new = .ok stopping ∧
      ∃ provisioning, provisioningFields status row.deployment new = .ok provisioning ∧
      (∀ config, provisioning.2 = some config → rules.validateDeploymentConfig config = true) ∧
      ∃ provisioned, provisionedFields status new = .ok provisioned ∧
      row' = { row with
        resourcesStatus := status
        deploymentInitial := status.initialAfter row.deploymentInitial
        deployment := { provisioned with
          error := stopping.1
          suspendInfo := stopping.2
          id := provisioning.1
          config := provisioning.2 } } := by
  simp only [setDeploymentResourcesStatus, bind_eq_ok, reject_eq_ok,
    rejectUnless_eq_ok, pure_eq_ok, Unique.exists_iff, not_and, not_not, ne_eq,
    eq_comm (b := row')]

end

section

variable [DecidableEq J]

/-- The ways in which an action changes a row, with what the operation checked. -/
inductive Change (rules : Rules J) (row : Row J) : Option (Action J) → Row J → Prop
  | unchanged {action : Option (Action J)} : Change rules row action row
  | edited {action : Option (Action J)} (update : PipelineUpdate J) (platformVersion : String)
      (bump : Bool) (hstopped : row.resourcesStatus = .stopped)
      (hdesired : row.desiredStatus = .stopped)
      (hsame : row.programChanged update platformVersion bump = false) :
      Change rules row action (row.edited update platformVersion bump)
  | renewed {action : Option (Action J)} (update : PipelineUpdate J) (platformVersion : String)
      (bump : Bool) (hstopped : row.resourcesStatus = .stopped)
      (hdesired : row.desiredStatus = .stopped ∨ update = {})
      (hprogram : row.programChanged update platformVersion bump = true) :
      Change rules row action (row.edited update platformVersion true).renewProgram
  | programmed {action : Option (Action J)} (status : ProgramStatus) (new : ProgramFields J)
      (hstopped : row.resourcesStatus = .stopped)
      (hvalid : validateProgramStatusTransition (J := J) row.programStatus status = .ok ())
      (hgiven : new.given = status.takes) :
      Change rules row action (row.programmed status new)
  | wanted (initial : RuntimeDesiredStatus) (policy : BootstrapPolicy)
      (hfree : row.desiredStatus = .provisioned ∨ row.resourcesStatus = .stopped)
      (hallowed : (row.wanted initial policy).StartAllowed rules) :
      Change rules row (some (.user (.desiredProvisioned initial policy)))
        (row.wanted initial policy)
  | unwanted {action : Option (Action J)} : Change rules row action row.unwanted
  | provisioning {action : Option (Action J)} (id : Nat) (config : J)
      (hstopped : row.resourcesStatus = .stopped) (hstorage : row.storageStatus ≠ .clearing)
      (hprogram : row.programStatus = .success)
      (hconfig : rules.validateDeploymentConfig config = true) :
      Change rules row action (row.provisioning id config)
  | provisioned {action : Option (Action J)} (location : String)
      (status : ExtendedRuntimeStatus J) (hstorage : row.storageStatus = .inUse)
      (hstatus : row.resourcesStatus = .provisioning ∨ row.resourcesStatus = .provisioned)
      (hprogram : row.programStatus = .success) :
      Change rules row action (row.provisioned location status)
  | stopping {action : Option (Action J)} (error suspendInfo : Option J)
      (hstatus : row.resourcesStatus = .stopped ∨ row.resourcesStatus = .provisioning ∨
        row.resourcesStatus = .provisioned) (hstorage : row.storageStatus ≠ .clearing) :
      Change rules row action (row.stopping error suspendInfo)
  | stopped {action : Option (Action J)} (hstatus : row.resourcesStatus = .stopping) :
      Change rules row action row.stopped
  | clearing (hstopped : row.resourcesStatus = .stopped) :
      Change rules row (some (.user .clearingIfNotCleared))
        { row with storageStatus := .clearing }
  | cleared {action : Option (Action J)} (hstopped : row.resourcesStatus = .stopped)
      (hstorage : row.storageStatus = .clearing) :
      Change rules row action { row with storageStatus := .cleared }
  | platform {action : Option (Action J)} (platformVersion : String)
      (hstopped : row.resourcesStatus = .stopped) :
      Change rules row action { row with platformVersion := platformVersion }

variable {row row' : Row J} {action : Option (Action J)}

theorem updatePipeline_change {isCompilerUpdate : Bool} {update : PipelineUpdate J}
    {platformVersion : String} {bump : Bool}
    (h : updatePipeline rules isCompilerUpdate update platformVersion bump row = .ok row') :
    Change rules row action row' := by
  obtain ⟨hstopped, hdesired, hcompiler, rfl | ⟨hprogram, rfl⟩ | ⟨hcore, hprogram, rfl⟩⟩ :=
    updatePipeline_eq_ok h
  · exact .unchanged
  · exact .renewed update platformVersion bump hstopped
      (hdesired.imp_right hcompiler) hprogram
  refine .edited update platformVersion bump hstopped ?_ hprogram
  -- a compiler only bumps the platform version, which makes the program a new one
  refine hdesired.resolve_right fun hc => ?_
  obtain rfl := hcompiler hc
  simp [Row.coreChanged, changes, hprogram] at hcore

theorem setProgramStatus_change {guard : Nat} {status : ProgramStatus} {new : ProgramFields J}
    (h : setProgramStatus rules guard status new row = .ok row') :
    Change rules row action row' := by
  obtain ⟨-, hvalid, hstopped, hgiven, -, rfl⟩ := setProgramStatus_eq_ok.mp h
  exact .programmed status new hstopped hvalid hgiven

theorem UserOperation.apply_change {operation : UserOperation J}
    (h : operation.apply rules row = .ok row') :
    Change rules row (some (.user operation)) row' := by
  cases operation with
  | updatePipeline update platformVersion bump => exact updatePipeline_change h
  | desiredProvisioned initial policy =>
    obtain ⟨hfree, -, hallowed, rfl⟩ := desiredProvisioned_eq_ok.mp h
    exact .wanted initial policy hfree hallowed
  | desiredStopped =>
    obtain ⟨-, rfl⟩ := desiredStopped_eq_ok.mp h
    exact .unwanted
  | desiredStoppedIfNotProvisioned =>
    simp only [UserOperation.apply] at h
    split at h
    · obtain ⟨-, rfl⟩ := desiredStopped_eq_ok.mp h
      exact .unwanted
    · cases h
      exact .unchanged
  | clearingIfNotCleared =>
    simp only [UserOperation.apply] at h
    split at h
    · obtain ⟨hvalid, rfl⟩ := setStorageStatus_eq_ok.mp h
      exact .clearing (validateStorageStatusTransition_clearing.mp hvalid).1
    · cases h
      exact .unchanged
  | testingForceUpdatePlatformVersion platformVersion =>
    simp only [UserOperation.apply] at h
    split at h
    · cases h
    · cases h
      exact .platform platformVersion (by simp_all)

theorem ServiceOperation.apply_change {operation : ServiceOperation J}
    (h : operation.apply rules row = .ok row') :
    Change rules row (some (.service operation)) row' := by
  cases operation with
  | program guard transition => exact setProgramStatus_change h
  | toProvisioning guard id config =>
    simp only [ServiceOperation.apply, bind_eq_ok, setStorageStatus_eq_ok,
      validateStorageStatusTransition_inUse, setDeploymentResourcesStatus_eq_ok] at h
    obtain ⟨_, ⟨⟨hstopped, hstorage⟩, rfl⟩, -, -, hprogram, _, ⟨⟩, _, ⟨⟩, hconfig, _, ⟨⟩, rfl⟩ := h
    exact .provisioning id config hstopped hstorage (hprogram (by rw [hstopped]; rfl))
      (hconfig config rfl)
  | toProvisioned guard location status =>
    simp only [ServiceOperation.apply, setDeploymentResourcesStatus_eq_ok,
      validateResourcesStatusTransition_provisioned] at h
    obtain ⟨-, ⟨hstorage, hstatus⟩, hprogram, _, ⟨⟩, _, ⟨⟩, -, _, ⟨⟩, rfl⟩ := h
    refine .provisioned location status hstorage hstatus (hprogram ?_)
    obtain hstatus | hstatus := hstatus <;> rw [hstatus] <;> rfl
  | toStopping guard error suspendInfo =>
    simp only [ServiceOperation.apply, bind_eq_ok, desiredStopped_eq_ok,
      setDeploymentResourcesStatus_eq_ok, validateResourcesStatusTransition_stopping] at h
    obtain ⟨_, ⟨-, rfl⟩, -, hstatus, -, _, ⟨⟩, _, ⟨⟩, -, _, ⟨⟩, rfl⟩ := h
    obtain ⟨hstorage, hstopped⟩ | ⟨hstorage, hstatus⟩ := hstatus
    · exact .stopping error suspendInfo (.inl hstopped) hstorage
    · exact .stopping error suspendInfo (.inr hstatus)
        (fun hclear => absurd (hstorage.symm.trans hclear) (by simp))
  | toStopped guard =>
    simp only [ServiceOperation.apply, setDeploymentResourcesStatus_eq_ok,
      validateResourcesStatusTransition_stopped] at h
    obtain ⟨-, ⟨-, hstatus⟩, -, _, ⟨⟩, _, ⟨⟩, -, _, ⟨⟩, rfl⟩ := h
    exact .stopped hstatus
  | toCleared =>
    obtain ⟨hvalid, rfl⟩ := setStorageStatus_eq_ok.mp h
    obtain ⟨hstopped, hstorage⟩ := validateStorageStatusTransition_cleared.mp hvalid
    exact .cleared hstopped hstorage

theorem Recovery.apply_change {compiler : Recovery} (h : compiler.apply rules row = .ok row') :
    Change rules row (some (.recovery compiler)) row' := by
  have hsame : Except.ok row = (Except.ok row' : Except (DbError J) (Row J)) →
      Change rules row (some (.recovery compiler)) row' := by
    intro heq
    cases heq
    exact .unchanged
  cases compiler with
  | sql platformVersion =>
    simp only [Recovery.apply] at h
    split at h
    · exact hsame h
    split at h
    · split at h
      · exact setProgramStatus_change h
      · exact hsame h
    · split at h
      · exact updatePipeline_change h
      · exact hsame h
  | rust platformVersion =>
    simp only [Recovery.apply] at h
    split at h
    · exact hsame h
    split at h
    · split at h
      · split at h
        · cases h
        · cases h
        · exact setProgramStatus_change h
      · exact hsame h
    · split at h
      · exact updatePipeline_change h
      · exact hsame h

theorem perform_change (h : perform rules action row = .ok row') :
    Change rules row action row' := by
  cases action with
  | none =>
    cases h
    exact .unchanged
  | some action =>
    cases action with
    | user operation => exact UserOperation.apply_change h
    | service operation => exact ServiceOperation.apply_change h
    | recovery compiler => exact Recovery.apply_change h

end

end Feldera.Manager
