import Feldera.Algebra.Machine
import Feldera.Manager.Pipeline

/-!
The manager's transactions on the `pipeline` table. A transaction is isolated and either
accepted as a whole or leaves the table as it was, so an interleaving of the users, the
compilers and the runner is a list of calls. The runner's and the compilers' calls carry the
version guard of an earlier read, whatever that was.
-/

namespace Feldera.Manager

/-- The results a compiler stores (`transit_program_status_to_*`). -/
inductive ProgramTransition (J : Type)
  | toCompilingSql
  | toSqlCompiled (sqlCompilation programInfo : J)
  | toCompilingRust
  | toSuccess (rustCompilation : J) (sourceChecksum integrityChecksum infoChecksum : String)
  | toSqlError (sqlCompilation : J)
  | toRustError (rustCompilation : J)
  | toSystemError (systemError : String)
  deriving DecidableEq, Repr

structure ExtendedRuntimeStatus (J : Type) where
  runtimeStatus : RuntimeStatus
  runtimeStatusDetails : J
  runtimeDesiredStatus : RuntimeDesiredStatus
  deriving DecidableEq, Repr

inductive UserOperation (J : Type)
  | updatePipeline (update : PipelineUpdate J) (platformVersion : String) (bump : Bool)
  | desiredProvisioned (initial : RuntimeDesiredStatus) (policy : BootstrapPolicy)
  | desiredStopped
  | desiredStoppedIfNotProvisioned
  | clearingIfNotCleared
  | testingForceUpdatePlatformVersion (platformVersion : String)
  deriving DecidableEq, Repr

inductive ServiceOperation (J : Type)
  | program (programVersionGuard : Nat) (transition : ProgramTransition J)
  | toProvisioning (versionGuard deploymentId : Nat) (config : J)
  | toProvisioned (versionGuard : Nat) (location : String) (status : ExtendedRuntimeStatus J)
  | toStopping (versionGuard : Nat) (error suspendInfo : Option J)
  | toStopped (versionGuard : Nat)
  | toCleared
  deriving DecidableEq, Repr

/-- What a compiler that starts does about each pipeline it is assigned
(`clear_ongoing_*_compilation_for_worker`). -/
inductive Recovery
  | sql (platformVersion : String)
  | rust (platformVersion : String)
  deriving DecidableEq, Repr

inductive Action (J : Type)
  | user (operation : UserOperation J)
  | service (operation : ServiceOperation J)
  | recovery (compiler : Recovery)
  deriving DecidableEq, Repr

variable {J : Type}

def ProgramTransition.status : ProgramTransition J → ProgramStatus
  | .toCompilingSql => .compilingSql
  | .toSqlCompiled _ _ => .sqlCompiled
  | .toCompilingRust => .compilingRust
  | .toSuccess _ _ _ _ => .success
  | .toSqlError _ => .sqlError
  | .toRustError _ => .rustError
  | .toSystemError _ => .systemError

def ProgramTransition.fields : ProgramTransition J → ProgramFields J
  | .toCompilingSql | .toCompilingRust => {}
  | .toSqlCompiled sql info => { sqlCompilation := some sql, programInfo := some info }
  | .toSuccess rust source integrity info =>
      { rustCompilation := some rust
        binarySourceChecksum := some source
        binaryIntegrityChecksum := some integrity
        infoIntegrityChecksum := some info }
  | .toSqlError sql => { sqlCompilation := some sql }
  | .toRustError rust => { rustCompilation := some rust }
  | .toSystemError e => { systemError := some e }

variable [DecidableEq J] (rules : Rules J)

/-- The checks of the arguments that precede any access to the table. -/
def UserOperation.validate : UserOperation J → Except (DbError J) (UserOperation J)
  | .updatePipeline update platformVersion bump => do
      return .updatePipeline (← update.validate rules) platformVersion bump
  | operation => return operation

def UserOperation.apply : UserOperation J → Row J → Except (DbError J) (Row J)
  | .updatePipeline update platformVersion bump, row =>
      Manager.updatePipeline rules false update platformVersion bump row
  | .desiredProvisioned initial policy, row =>
      setDeploymentResourcesDesiredStatus rules .provisioned (some initial) (some policy) row
  | .desiredStopped, row => setDeploymentResourcesDesiredStatus rules .stopped none none row
  | .desiredStoppedIfNotProvisioned, row =>
      if row.resourcesStatus ≠ .provisioned then
        setDeploymentResourcesDesiredStatus rules .stopped none none row
      else .ok row
  | .clearingIfNotCleared, row =>
      if row.storageStatus ≠ .cleared then setStorageStatus .clearing row else .ok row
  | .testingForceUpdatePlatformVersion platformVersion, row =>
      if row.resourcesStatus ≠ .stopped then .error .updateRestrictedToStopped
      else .ok { row with platformVersion := platformVersion }

def ServiceOperation.apply : ServiceOperation J → Row J → Except (DbError J) (Row J)
  | .program guard transition, row =>
      setProgramStatus rules guard transition.status transition.fields row
  | .toProvisioning guard deploymentId config, row => do
      let row ← setStorageStatus .inUse row
      setDeploymentResourcesStatus rules guard .provisioning
        { id := some deploymentId, config := some config } row
  | .toProvisioned guard location status, row =>
      setDeploymentResourcesStatus rules guard .provisioned
        { runtimeStatus := some status.runtimeStatus
          runtimeStatusDetails := some status.runtimeStatusDetails
          runtimeDesiredStatus := some status.runtimeDesiredStatus
          location := some location } row
  | .toStopping guard error suspendInfo, row => do
      let row ← setDeploymentResourcesDesiredStatus rules .stopped none none row
      setDeploymentResourcesStatus rules guard .stopping
        { error := error, suspendInfo := suspendInfo } row
  | .toStopped guard, row => setDeploymentResourcesStatus rules guard .stopped {} row
  | .toCleared, row => setStorageStatus .cleared row

/-- Resets a compilation the compiler was in the middle of, or asks for a new compilation of a
program that waits for one of an earlier platform version. -/
def Recovery.apply : Recovery → Row J → Except (DbError J) (Row J)
  | .sql platformVersion, row =>
      if row.resourcesStatus ≠ .stopped then .ok row
      else if row.platformVersion = platformVersion then
        if row.programStatus = .compilingSql then
          setProgramStatus rules row.programVersion .pending {} row
        else .ok row
      else if row.programStatus = .pending ∨ row.programStatus = .compilingSql then
        updatePipeline rules true {} platformVersion true row
      else .ok row
  | .rust platformVersion, row =>
      if row.resourcesStatus ≠ .stopped then .ok row
      else if row.platformVersion = platformVersion then
        if row.programStatus = .compilingRust then
          match row.program.sqlCompilation, row.program.programInfo with
          | none, _ => .error (.panic
              ("program_error.sql_compilation must be present if current status is "
                ++ "CompilingRust"))
          | _, none => .error (.panic
              "program_info must be present if current status is CompilingRust")
          | some sqlCompilation, some programInfo =>
              setProgramStatus rules row.programVersion .sqlCompiled
                { sqlCompilation := some sqlCompilation, programInfo := some programInfo } row
        else .ok row
      else if row.programStatus = .sqlCompiled ∨ row.programStatus = .compilingRust then
        updatePipeline rules true {} platformVersion true row
      else .ok row

def Action.apply : Action J → Row J → Except (DbError J) (Row J)
  | .user operation => operation.apply rules
  | .service operation => operation.apply rules
  | .recovery compiler => compiler.apply rules

def Row.new (tenant id : Nat) (platformVersion : String) (descr : PipelineDescr J) : Row J where
  tenant := tenant
  id := id
  descr := descr
  version := 1
  platformVersion := platformVersion
  programVersion := 1
  programStatus := .pending
  program := {}
  refreshVersion := 1
  storageStatus := .cleared
  resourcesStatus := .stopped
  desiredStatus := .stopped
  deploymentInitial := none
  bootstrapPolicy := none
  deployment := {}

/-- The table. `nextId` stands for the ids that are still to be generated: the generator never
gives an id twice. -/
structure Db (J : Type) where
  rows : List (Row J) := []
  nextId : Nat := 0
  deriving DecidableEq, Repr

inductive Call (J : Type)
  | newPipeline (tenant : Nat) (platformVersion : String) (descr : PipelineDescr J)
  | newOrUpdatePipeline (tenant : Nat) (originalName platformVersion : String) (bump : Bool)
      (descr : PipelineDescr J)
  | deletePipeline (tenant : Nat) (name : String)
  | user (tenant : Nat) (name : String) (operation : UserOperation J)
  | service (tenant id : Nat) (operation : ServiceOperation J)
  | clearOngoing (assigned : Nat → Bool) (recovery : Recovery)

def Db.namesUnique (rows : List (Row J)) : Bool :=
  decide (rows.map fun row => (row.tenant, row.descr.name)).Nodup

def Row.named (row : Row J) (tenant : Nat) (name : String) : Bool :=
  decide (row.tenant = tenant ∧ row.descr.name = name)

def Row.identified (row : Row J) (tenant id : Nat) : Bool :=
  decide (row.tenant = tenant ∧ row.id = id)

/-- What a transaction does to a row: its action, if it has one there. -/
def perform (action : Option (Action J)) (row : Row J) : Except (DbError J) (Row J) :=
  match action with
  | none => .ok row
  | some action => action.apply rules row

variable (db : Db J)

/-- Applies the action of every row the transaction concerns. -/
def Db.performAll (action : Row J → Option (Action J)) : Except (DbError J) (Db J) := do
  let rows ← db.rows.mapM fun row => perform rules (action row) row
  Checked.reject (¬ Db.namesUnique rows) .duplicateName
  return { db with rows := rows }

def Db.newPipeline (tenant : Nat) (platformVersion : String) (descr : PipelineDescr J) :
    Except (DbError J) (Db J) := do
  Checked.rejectUnless (some descr.name) rules.validateName .invalidName
  let runtimeConfig ← validated rules.validateRuntimeConfig .invalidRuntimeConfig
    (some descr.runtimeConfig)
  let programConfig ← validated rules.validateProgramConfig .invalidProgramConfig
    (some descr.programConfig)
  let stored := { descr with
    runtimeConfig := runtimeConfig.getD descr.runtimeConfig
    programConfig := programConfig.getD descr.programConfig }
  let rows := db.rows ++ [Row.new tenant db.nextId platformVersion stored]
  Checked.reject (¬ Db.namesUnique rows) .duplicateName
  return { rows := rows, nextId := db.nextId + 1 }

def Db.userOperation (tenant : Nat) (name : String) (operation : UserOperation J) :
    Except (DbError J) (Db J) := do
  let operation ← operation.validate rules
  Checked.reject (¬ db.rows.any (·.named tenant name)) (.unknownPipelineName name)
  db.performAll rules fun row =>
    if row.named tenant name then some (.user operation) else none

def Db.deletePipeline (tenant : Nat) (name : String) : Except (DbError J) (Db J) :=
  match db.rows.find? (·.named tenant name) with
  | none => .error (.unknownPipelineName name)
  | some current =>
      if current.resourcesStatus ≠ .stopped ∨ current.desiredStatus ≠ .stopped then
        .error .deleteRestrictedToFullyStopped
      else if current.storageStatus ≠ .cleared then .error .deleteRestrictedToClearedStorage
      else .ok { db with rows := db.rows.filter fun row => !row.named tenant name }

/-- The edit that sets every core field. -/
def PipelineDescr.asUpdate (descr : PipelineDescr J) : PipelineUpdate J where
  name := some descr.name
  description := some descr.description
  runtimeConfig := some descr.runtimeConfig
  programCode := some descr.programCode
  udfRust := some descr.udfRust
  udfToml := some descr.udfToml
  programConfig := some descr.programConfig

def Db.step : Call J → Except (DbError J) (Db J)
  | .newPipeline tenant platformVersion descr =>
      db.newPipeline rules tenant platformVersion descr
  | .newOrUpdatePipeline tenant originalName platformVersion bump descr =>
      if db.rows.any (·.named tenant originalName) then
        db.userOperation rules tenant originalName
          (.updatePipeline descr.asUpdate platformVersion bump)
      else if originalName ≠ descr.name then .error .cannotRenameNonExistingPipeline
      else db.newPipeline rules tenant platformVersion descr
  | .deletePipeline tenant name => db.deletePipeline tenant name
  | .user tenant name operation => db.userOperation rules tenant name operation
  | .service tenant id operation =>
      if ¬ db.rows.any (·.identified tenant id) then .error (.unknownPipeline id)
      else db.performAll rules fun row =>
        if row.identified tenant id then some (.service operation) else none
  | .clearOngoing assigned recovery =>
      db.performAll rules fun row =>
        if assigned row.id then some (.recovery recovery) else none

/-- The state after a transaction was tried: a rejected one changes nothing. -/
def Db.tried (call : Call J) : Except (DbError J) (Db J) :=
  match db.step rules call with
  | .ok next => .ok next
  | .error _ => .ok db

end Feldera.Manager
