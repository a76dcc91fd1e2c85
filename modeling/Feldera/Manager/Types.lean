import Feldera.Algebra.Checked

/-!
The columns of the pipeline manager's `pipeline` table, the errors of its operations and the
three tables of permitted status transitions. JSON values stay abstract: the manager only looks
up members of a configuration and hands whole values to validation functions, which `Rules`
collects. The timestamps beside the statuses are left out, no operation reads them.
-/

namespace Feldera.Manager

inductive ResourcesStatus
  | stopped | provisioning | provisioned | stopping
  deriving DecidableEq, Repr

inductive ResourcesDesiredStatus
  | stopped | provisioned
  deriving DecidableEq, Repr

inductive StorageStatus
  | cleared | inUse | clearing
  deriving DecidableEq, Repr

inductive ProgramStatus
  | pending | compilingSql | sqlCompiled | compilingRust
  | success | sqlError | rustError | systemError
  deriving DecidableEq, Repr

inductive RuntimeStatus
  | unavailable | standby | initializing | awaitingApproval | bootstrapping
  | replaying | paused | running | suspended
  deriving DecidableEq, Repr

inductive RuntimeDesiredStatus
  | unavailable | standby | paused | running | suspended
  deriving DecidableEq, Repr

inductive BootstrapPolicy
  | allow | reject | awaitApproval
  deriving DecidableEq, Repr

def ResourcesStatus.display : ResourcesStatus → String
  | .stopped => "stopped"
  | .provisioning => "provisioning"
  | .provisioned => "provisioned"
  | .stopping => "stopping"

/-- The errors of the operations modelled here; `panic` is a failed `assert!` or `expect`. -/
inductive DbError (J : Type)
  | invalidName (name : String)
  | invalidRuntimeConfig (value : J)
  | invalidProgramConfig (value : J)
  | invalidProgramInfo (value : J)
  | invalidDeploymentConfig (value : J)
  | editRestrictedToClearedStorage (notAllowed : List String)
  | duplicateName
  | unknownPipeline (id : Nat)
  | unknownPipelineName (name : String)
  | updateRestrictedToStopped
  | programStatusUpdateRestrictedToStopped
  | deleteRestrictedToFullyStopped
  | deleteRestrictedToClearedStorage
  | cannotRenameNonExistingPipeline
  | outdatedProgramVersion (outdated latest : Nat)
  | outdatedPipelineVersion (outdated latest : Nat)
  | transitionRequiresCompiledProgram (current new : ResourcesStatus)
  | invalidProgramStatusTransition (current new : ProgramStatus)
  | invalidResourcesStatusTransition (storage : StorageStatus) (current new : ResourcesStatus)
  | invalidStorageStatusTransition (current new : StorageStatus)
  | storageStatusImmutableUnlessStopped (resources : ResourcesStatus)
      (current new : StorageStatus)
  | illegalPipelineAction (status : ResourcesStatus) (current new : ResourcesDesiredStatus)
      (hint : String)
  | initialImmutableUnlessStopped
  | initialStandbyNotAllowed
  | preconditionViolation (info : String)
  | panic (message : String)
  deriving DecidableEq, Repr

/-- What the manager does with names and JSON values. The validations of the two
configurations return the value that is stored, with the current defaults filled in. -/
structure Rules (J : Type) where
  get : J → String → Option J
  isNull : J → Bool
  asStr : J → Option String
  validateName : String → Bool
  validateRuntimeConfig : J → Option J
  validateProgramConfig : J → Option J
  validateProgramInfo : J → Bool
  validateDeploymentConfig : J → Bool

structure ProgramFields (J : Type) where
  sqlCompilation : Option J := none
  rustCompilation : Option J := none
  systemError : Option String := none
  programInfo : Option J := none
  binarySourceChecksum : Option String := none
  binaryIntegrityChecksum : Option String := none
  infoIntegrityChecksum : Option String := none
  deriving DecidableEq, Repr

structure DeploymentFields (J : Type) where
  runtimeStatus : Option RuntimeStatus := none
  runtimeStatusDetails : Option J := none
  runtimeDesiredStatus : Option RuntimeDesiredStatus := none
  error : Option J := none
  id : Option Nat := none
  config : Option J := none
  location : Option String := none
  suspendInfo : Option J := none
  deriving DecidableEq, Repr

structure PipelineDescr (J : Type) where
  name : String
  description : String
  runtimeConfig : J
  programCode : String
  udfRust : String
  udfToml : String
  programConfig : J
  deriving DecidableEq, Repr

structure Row (J : Type) where
  tenant : Nat
  id : Nat
  descr : PipelineDescr J
  version : Nat
  platformVersion : String
  programVersion : Nat
  programStatus : ProgramStatus
  program : ProgramFields J
  refreshVersion : Nat
  storageStatus : StorageStatus
  resourcesStatus : ResourcesStatus
  desiredStatus : ResourcesDesiredStatus
  deploymentInitial : Option RuntimeDesiredStatus
  bootstrapPolicy : Option BootstrapPolicy
  deployment : DeploymentFields J
  deriving DecidableEq, Repr

variable {J : Type}

def validateResourcesStatusTransition (storage : StorageStatus)
    (current new : ResourcesStatus) : Except (DbError J) Unit :=
  match storage, current, new with
  | .cleared, .stopped, .provisioning | .inUse, .stopped, .provisioning
  | .cleared, .stopped, .stopping | .inUse, .stopped, .stopping
  | .inUse, .provisioning, .provisioned
  | .inUse, .provisioned, .provisioned
  | .inUse, .provisioning, .stopping
  | .inUse, .provisioned, .stopping
  | .cleared, .stopping, .stopped | .inUse, .stopping, .stopped => .ok ()
  | _, _, _ => .error (.invalidResourcesStatusTransition storage current new)

def validateResourcesDesiredStatusTransition (status : ResourcesStatus)
    (current new : ResourcesDesiredStatus) : Except (DbError J) Unit :=
  match new with
  | .stopped => .ok ()
  | .provisioned =>
      if current = .stopped ∧ status ≠ .stopped then
        .error (.illegalPipelineAction status current new
          ("Cannot restart the pipeline while it is stopping. Wait until it is stopped before "
            ++ "starting the pipeline again."))
      else .ok ()

def validateStorageStatusTransition (resources : ResourcesStatus)
    (current new : StorageStatus) : Except (DbError J) Unit :=
  if resources ≠ .stopped then
    .error (.storageStatusImmutableUnlessStopped resources current new)
  else match current, new with
    | .cleared, .inUse | .inUse, .inUse | .inUse, .clearing
    | .clearing, .clearing | .clearing, .cleared => .ok ()
    | _, _ => .error (.invalidStorageStatusTransition current new)

def validateProgramStatusTransition (current new : ProgramStatus) :
    Except (DbError J) Unit :=
  match current, new with
  | .pending, .compilingSql | .pending, .systemError
  | .compilingSql, .pending | .compilingSql, .sqlCompiled
  | .compilingSql, .sqlError | .compilingSql, .systemError
  | .sqlCompiled, .pending | .sqlCompiled, .compilingRust
  | .compilingRust, .pending | .compilingRust, .sqlCompiled
  | .compilingRust, .success | .compilingRust, .rustError
  | .compilingRust, .systemError
  | .success, .pending | .sqlError, .pending
  | .rustError, .pending | .systemError, .pending => .ok ()
  | _, _ => .error (.invalidProgramStatusTransition current new)

section

variable {storage : StorageStatus} {current : ResourcesStatus} {u : Unit}

attribute [local simp] validateResourcesStatusTransition validateStorageStatusTransition

@[simp] theorem validateResourcesStatusTransition_provisioned :
    validateResourcesStatusTransition (J := J) storage current .provisioned = .ok u ↔
      storage = .inUse ∧ (current = .provisioning ∨ current = .provisioned) := by
  cases storage <;> cases current <;> simp

@[simp] theorem validateResourcesStatusTransition_stopping :
    validateResourcesStatusTransition (J := J) storage current .stopping = .ok u ↔
      (storage ≠ .clearing ∧ current = .stopped) ∨
        (storage = .inUse ∧ (current = .provisioning ∨ current = .provisioned)) := by
  cases storage <;> cases current <;> simp

@[simp] theorem validateResourcesStatusTransition_stopped :
    validateResourcesStatusTransition (J := J) storage current .stopped = .ok u ↔
      storage ≠ .clearing ∧ current = .stopping := by
  cases storage <;> cases current <;> simp

@[simp] theorem validateStorageStatusTransition_inUse :
    validateStorageStatusTransition (J := J) current storage .inUse = .ok u ↔
      current = .stopped ∧ storage ≠ .clearing := by
  cases storage <;> cases current <;> simp

@[simp] theorem validateStorageStatusTransition_clearing :
    validateStorageStatusTransition (J := J) current storage .clearing = .ok u ↔
      current = .stopped ∧ storage ≠ .cleared := by
  cases storage <;> cases current <;> simp

@[simp] theorem validateStorageStatusTransition_cleared :
    validateStorageStatusTransition (J := J) current storage .cleared = .ok u ↔
      current = .stopped ∧ storage = .clearing := by
  cases storage <;> cases current <;> simp

@[simp] theorem validateResourcesDesiredStatusTransition_stopped
    {desired : ResourcesDesiredStatus} :
    validateResourcesDesiredStatusTransition (J := J) current desired .stopped = .ok () := rfl

@[simp] theorem validateResourcesDesiredStatusTransition_provisioned
    {desired : ResourcesDesiredStatus} :
    validateResourcesDesiredStatusTransition (J := J) current desired .provisioned = .ok u ↔
      desired = .provisioned ∨ current = .stopped := by
  cases desired <;> cases current <;> simp [validateResourcesDesiredStatusTransition]

end

def checkPrecondition (condition : Bool) (info : String) : Except (DbError J) Unit :=
  Checked.reject (condition = false) (.preconditionViolation info)

def assertThat (condition : Bool) (message : String) : Except (DbError J) Unit :=
  Checked.reject (condition = false) (.panic message)

@[simp] theorem checkPrecondition_eq_ok {condition : Bool} {info : String} {u : Unit} :
    checkPrecondition (J := J) condition info = .ok u ↔ condition = true := by
  simp [checkPrecondition]

@[simp] theorem assertThat_eq_ok {condition : Bool} {message : String} {u : Unit} :
    assertThat (J := J) condition message = .ok u ↔ condition = true := by
  simp [assertThat]

end Feldera.Manager
