import Feldera.Manager.Types

/-!
The operations on one row of the `pipeline` table, and the transactions that are made of them.
An operation returns the row it writes; an error abandons the transaction it is part of.
-/

namespace Feldera.Manager

variable {J : Type} [DecidableEq J]

/-- The core fields of an edit; `none` leaves a field as it is. -/
structure PipelineUpdate (J : Type) where
  name : Option String := none
  description : Option String := none
  runtimeConfig : Option J := none
  programCode : Option String := none
  udfRust : Option String := none
  udfToml : Option String := none
  programConfig : Option J := none
  deriving DecidableEq, Repr

def changes {α : Type} [DecidableEq α] (new : Option α) (current : α) : Bool :=
  new.any (fun value => decide (value ≠ current))

section

variable (rules : Rules J)

/-- The stored form of a configuration, if one is given. -/
def validated (validate : J → Option J) (error : J → DbError J) :
    Option J → Except (DbError J) (Option J)
  | none => .ok none
  | some value => match validate value with
    | none => .error (error value)
    | some config => .ok (some config)

/-- The validations `update_pipeline` starts with, which also fill in the defaults of the
configurations. -/
def PipelineUpdate.validate (update : PipelineUpdate J) :
    Except (DbError J) (PipelineUpdate J) := do
  Checked.rejectUnless update.name rules.validateName .invalidName
  let runtimeConfig ← validated rules.validateRuntimeConfig .invalidRuntimeConfig
    update.runtimeConfig
  let programConfig ← validated rules.validateProgramConfig .invalidProgramConfig
    update.programConfig
  return { update with runtimeConfig := runtimeConfig, programConfig := programConfig }

variable (current : Row J)

variable (update : PipelineUpdate J)

/-- Whether a platform upgrade or an edit of the program makes the program a new one. -/
def Row.programChanged (platformVersion : String) (bump : Bool) : Bool :=
  (bump && decide (platformVersion ≠ current.platformVersion))
    || changes update.programCode current.descr.programCode
    || changes update.udfRust current.descr.udfRust
    || changes update.udfToml current.descr.udfToml
    || changes update.programConfig current.descr.programConfig

def Row.coreChanged (platformVersion : String) (bump : Bool) : Bool :=
  changes update.name current.descr.name
    || changes update.description current.descr.description
    || changes update.runtimeConfig current.descr.runtimeConfig
    || current.programChanged update platformVersion bump

/-- The changed fields that may only change while the storage is cleared. -/
def Row.notAllowed : List String :=
  (if changes update.name current.descr.name then ["`name`"] else [])
    ++ (if changes update.description current.descr.description then ["`description`"] else [])
    ++ match update.runtimeConfig with
      | none => []
      | some config =>
          let old := current.descr.runtimeConfig
          (if rules.get config "workers" ≠ rules.get old "workers" then
            ["`runtime_config.workers`"] else [])
          ++ (if rules.get config "fault_tolerance" ≠ rules.get old "fault_tolerance" then
            ["`runtime_config.fault_tolerance`"] else [])
          ++ (if (rules.get config "resources").map (rules.get · "storage_mb_max") ≠
              (rules.get old "resources").map (rules.get · "storage_mb_max") then
            ["`runtime_config.resources.storage_mb_max`"] else [])

def PipelineDescr.edited (descr : PipelineDescr J) (update : PipelineUpdate J) :
    PipelineDescr J where
  name := update.name.getD descr.name
  description := update.description.getD descr.description
  runtimeConfig := update.runtimeConfig.getD descr.runtimeConfig
  programCode := update.programCode.getD descr.programCode
  udfRust := update.udfRust.getD descr.udfRust
  udfToml := update.udfToml.getD descr.udfToml
  programConfig := update.programConfig.getD descr.programConfig

/-- The first `UPDATE` of an edit. -/
def Row.edited (current : Row J) (update : PipelineUpdate J) (platformVersion : String)
    (bump : Bool) : Row J :=
  { current with
    descr := current.descr.edited update
    platformVersion := if bump then platformVersion else current.platformVersion
    version := current.version + 1
    refreshVersion := current.refreshVersion + 1 }

/-- The second `UPDATE` of an edit, for a new program. It clears every column of the earlier
compilation but the checksum of its info. -/
def Row.renewProgram : Row J :=
  { current with
    programVersion := current.programVersion + 1
    programStatus := .pending
    program := { infoIntegrityChecksum := current.program.infoIntegrityChecksum } }

/-- `update_pipeline` on the row it has fetched, after the validation of its arguments. -/
def updatePipeline (isCompilerUpdate : Bool) (update : PipelineUpdate J)
    (platformVersion : String) (bump : Bool) (current : Row J) :
    Except (DbError J) (Row J) := do
  Checked.reject (¬ (current.resourcesStatus = .stopped ∧
    (current.desiredStatus = .stopped ∨ isCompilerUpdate))) .updateRestrictedToStopped
  assertThat (!isCompilerUpdate || (bump && decide (update = {})))
    "a compiler update only changes the platform version"
  if current.coreChanged update platformVersion bump then do
    Checked.reject (current.storageStatus ≠ .cleared ∧ current.notAllowed rules update ≠ [])
      (.editRestrictedToClearedStorage (current.notAllowed rules update))
    if current.programChanged update platformVersion bump then
      return (current.edited update platformVersion true).renewProgram
    else
      return current.edited update platformVersion bump
  else return current

end

section

variable (rules : Rules J)

/-- Which of its columns a caller of `set_program_status` gives. -/
def ProgramFields.given (fields : ProgramFields J) : List Bool :=
  [fields.sqlCompilation.isSome, fields.rustCompilation.isSome, fields.systemError.isSome,
    fields.programInfo.isSome, fields.binarySourceChecksum.isSome,
    fields.binaryIntegrityChecksum.isSome, fields.infoIntegrityChecksum.isSome]

/-- The columns that must be given with a new program status. -/
def ProgramStatus.takes : ProgramStatus → List Bool
  | .pending | .compilingSql | .compilingRust =>
      [false, false, false, false, false, false, false]
  | .sqlCompiled => [true, false, false, true, false, false, false]
  | .success => [false, true, false, false, true, true, true]
  | .sqlError => [true, false, false, false, false, false, false]
  | .rustError => [false, true, false, false, false, false, false]
  | .systemError => [false, false, true, false, false, false, false]

/-- The columns after a change of program status, from the current and the given ones. -/
def ProgramStatus.final (status : ProgramStatus) (current new : ProgramFields J) :
    ProgramFields J :=
  match status with
  | .pending | .compilingSql => {}
  | .sqlCompiled =>
      { sqlCompilation := new.sqlCompilation, programInfo := new.programInfo }
  | .compilingRust =>
      { sqlCompilation := current.sqlCompilation, programInfo := current.programInfo }
  | .success =>
      { sqlCompilation := current.sqlCompilation
        rustCompilation := new.rustCompilation
        programInfo := current.programInfo
        binarySourceChecksum := new.binarySourceChecksum
        binaryIntegrityChecksum := new.binaryIntegrityChecksum
        infoIntegrityChecksum := new.infoIntegrityChecksum }
  | .sqlError => { sqlCompilation := new.sqlCompilation }
  | .rustError =>
      { sqlCompilation := current.sqlCompilation
        rustCompilation := new.rustCompilation
        programInfo := current.programInfo }
  | .systemError =>
      { sqlCompilation := current.sqlCompilation
        rustCompilation := current.rustCompilation
        systemError := new.systemError
        programInfo := current.programInfo }

def ProgramStatus.incrementsRefreshVersion : ProgramStatus → Bool
  | .compilingSql | .compilingRust => false
  | _ => true

/-- Sets the program status of a row whose program is still the version the caller knows. -/
def setProgramStatus (programVersionGuard : Nat) (status : ProgramStatus)
    (new : ProgramFields J) (current : Row J) : Except (DbError J) (Row J) := do
  Checked.reject (current.programVersion ≠ programVersionGuard)
    (.outdatedProgramVersion programVersionGuard current.programVersion)
  validateProgramStatusTransition current.programStatus status
  Checked.reject (current.resourcesStatus ≠ .stopped) .programStatusUpdateRestrictedToStopped
  assertThat (decide (new.given = status.takes)) "program status update with wrong fields"
  let final := status.final current.program new
  Checked.rejectUnless final.programInfo rules.validateProgramInfo .invalidProgramInfo
  return { current with
    programStatus := status
    program := final
    refreshVersion := if status.incrementsRefreshVersion then current.refreshVersion + 1
      else current.refreshVersion }

end

section

variable (rules : Rules J)

/-- Standby needs a file backend with synchronisation configured. -/
def Rules.standbyAllowed (runtimeConfig : J) : Bool :=
  let backend := (rules.get runtimeConfig "storage").bind (rules.get · "backend")
  let isFileBackend := match backend.bind (rules.get · "name") with
    | none => false
    | some name => decide (rules.asStr name = some "file")
  let isSyncConfigured :=
    match (backend.bind (rules.get · "config")).bind (rules.get · "sync") with
    | none => false
    | some sync => !rules.isNull sync
  isFileBackend && isSyncConfigured

/-- What a start asks for, after a change of the desired status. A stop keeps it while the
pipeline is not stopped yet, the change of status that follows resets it. -/
def finalInitial (new : ResourcesDesiredStatus) (initial : Option RuntimeDesiredStatus)
    (policy : Option BootstrapPolicy) (current : Row J) :
    Except (DbError J) (Option RuntimeDesiredStatus × Option BootstrapPolicy) :=
  match new with
  | .stopped => do
      checkPrecondition initial.isNone
        "initial_runtime_desired_status should be None when becoming desired Stopped"
      return if current.resourcesStatus = .stopped then (none, none)
        else (current.deploymentInitial, current.bootstrapPolicy)
  | .provisioned => do
      checkPrecondition initial.isSome
        "initial_runtime_desired_status should be Some when becoming desired Provisioned"
      return (initial, policy)

def setDeploymentResourcesDesiredStatus (new : ResourcesDesiredStatus)
    (initial : Option RuntimeDesiredStatus) (policy : Option BootstrapPolicy)
    (current : Row J) : Except (DbError J) (Row J) := do
  validateResourcesDesiredStatusTransition current.resourcesStatus current.desiredStatus new
  let final ← finalInitial new initial policy current
  -- a row that already says how it starts cannot be asked to start in another way
  Checked.reject (current.deploymentInitial.isSome ∧ final.1.isSome ∧
    (current.deploymentInitial, current.bootstrapPolicy) ≠ final) .initialImmutableUnlessStopped
  Checked.reject (final.1 = some .standby ∧
    ¬ rules.standbyAllowed current.descr.runtimeConfig) .initialStandbyNotAllowed
  return { current with
    desiredStatus := new
    deploymentInitial := final.1
    bootstrapPolicy := final.2 }

def becoming (field verb : String) (status : ResourcesStatus) : String :=
  field ++ " should be " ++ verb ++ " when becoming " ++ status.display

variable (status : ResourcesStatus)

/-- The columns that say why a pipeline stopped, reset when it is provisioned again. -/
def stoppingFields (current new : DeploymentFields J) : Except (DbError J) (Option J × Option J) :=
  match status with
  | .stopped => do
      checkPrecondition new.error.isNone
        "new_deployment_error should be None when becoming Stopped"
      checkPrecondition new.suspendInfo.isNone
        "new_suspend_info should be None when becoming Stopped"
      return (current.error, current.suspendInfo)
  | .provisioning | .provisioned => do
      checkPrecondition new.error.isNone (becoming "new_deployment_error" "None" status)
      checkPrecondition new.suspendInfo.isNone (becoming "new_suspend_info" "None" status)
      return (none, none)
  | .stopping => return (new.error, new.suspendInfo)

/-- The columns generated before provisioning, reset when the pipeline is stopping. -/
def provisioningFields (current new : DeploymentFields J) :
    Except (DbError J) (Option Nat × Option J) :=
  match status with
  | .stopped | .stopping => do
      checkPrecondition new.id.isNone (becoming "new_deployment_id" "None" status)
      checkPrecondition new.config.isNone (becoming "new_deployment_config" "None" status)
      return (none, none)
  | .provisioning => do
      checkPrecondition new.id.isSome
        "new_deployment_id should be Some when becoming Provisioning"
      checkPrecondition new.config.isSome
        "new_deployment_config should be Some when becoming Provisioning"
      return (new.id, new.config)
  | .provisioned => do
      checkPrecondition new.id.isNone
        "new_deployment_id should be None when becoming Provisioned"
      checkPrecondition new.config.isNone
        "new_deployment_config should be None when becoming Provisioned"
      return (current.id, current.config)

/-- The columns learnt from the provisioned pipeline, reset when it is stopping. -/
def provisionedFields (new : DeploymentFields J) : Except (DbError J) (DeploymentFields J) :=
  match status with
  | .stopped | .provisioning | .stopping => do
      checkPrecondition new.location.isNone (becoming "new_deployment_location" "None" status)
      checkPrecondition new.runtimeStatus.isNone
        (becoming "new_deployment_runtime_status" "None" status)
      checkPrecondition new.runtimeDesiredStatus.isNone
        (becoming "new_deployment_runtime_desired_status" "None" status)
      return {}
  | .provisioned => do
      checkPrecondition new.location.isSome
        "new_deployment_location should be Some when becoming Provisioned"
      checkPrecondition new.runtimeStatus.isSome
        "new_deployment_runtime_status should be Some when becoming Provisioned"
      checkPrecondition new.runtimeDesiredStatus.isSome
        "new_deployment_runtime_desired_status should be Some when becoming Provisioned"
      return {
        location := new.location
        runtimeStatus := new.runtimeStatus
        runtimeStatusDetails := new.runtimeStatusDetails
        runtimeDesiredStatus := new.runtimeDesiredStatus }

/-- Due to early start a pipeline can be stopping without a compiled program. -/
def needsProgram (current new : ResourcesStatus) : Bool :=
  match current, new with
  | .stopped, .stopping | .stopping, .stopped => false
  | _, _ => true

/-- What a start asked for, after a change of the resources status. -/
def ResourcesStatus.initialAfter (current : Option RuntimeDesiredStatus) :
    Option RuntimeDesiredStatus :=
  match status with
  | .stopped | .stopping => none
  | .provisioning | .provisioned => current

def setDeploymentResourcesStatus (versionGuard : Nat) (status : ResourcesStatus)
    (new : DeploymentFields J) (current : Row J) : Except (DbError J) (Row J) := do
  Checked.reject (current.version ≠ versionGuard)
    (.outdatedPipelineVersion versionGuard current.version)
  validateResourcesStatusTransition current.storageStatus current.resourcesStatus status
  Checked.reject (needsProgram current.resourcesStatus status ∧ current.programStatus ≠ .success)
    (.transitionRequiresCompiledProgram current.resourcesStatus status)
  let stopping ← stoppingFields status current.deployment new
  let provisioning ← provisioningFields status current.deployment new
  Checked.rejectUnless provisioning.2 rules.validateDeploymentConfig .invalidDeploymentConfig
  let provisioned ← provisionedFields status new
  return { current with
    resourcesStatus := status
    deploymentInitial := status.initialAfter current.deploymentInitial
    deployment := { provisioned with
      error := stopping.1
      suspendInfo := stopping.2
      id := provisioning.1
      config := provisioning.2 } }

def setStorageStatus (new : StorageStatus) (current : Row J) : Except (DbError J) (Row J) := do
  validateStorageStatusTransition current.resourcesStatus current.storageStatus new
  return { current with storageStatus := new }

end

end Feldera.Manager
