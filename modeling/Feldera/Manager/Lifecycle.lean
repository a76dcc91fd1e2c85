import Feldera.Manager.Table

/-!
What the statuses of a pipeline say about its other columns. Starts and stops do not change
the version that guards the runner's writes, so a write may come from a decision that is long
outdated; the checks of the transitions keep the columns consistent all the same.
-/

namespace Feldera.Manager

variable {J : Type}

structure Row.Consistent (row : Row J) : Prop where
  deployed : row.resourcesStatus = .provisioning ∨ row.resourcesStatus = .provisioned →
    row.storageStatus = .inUse ∧ row.programStatus = .success ∧
      row.deployment.id.isSome = true ∧ row.deployment.config.isSome = true
  location : row.deployment.location.isSome = true ↔ row.resourcesStatus = .provisioned
  runtimeStatus : row.deployment.runtimeStatus.isSome = true ↔
    row.resourcesStatus = .provisioned
  runtimeStatusDetails : row.deployment.runtimeStatusDetails.isSome = true ↔
    row.resourcesStatus = .provisioned
  runtimeDesiredStatus : row.deployment.runtimeDesiredStatus.isSome = true ↔
    row.resourcesStatus = .provisioned
  stopping : row.resourcesStatus = .stopping → row.desiredStatus = .stopped
  started : row.desiredStatus = .provisioned → row.deploymentInitial.isSome = true

structure Row.SameProgram (row row' : Row J) : Prop where
  descr : row'.descr = row.descr
  version : row'.version = row.version
  platformVersion : row'.platformVersion = row.platformVersion
  programVersion : row'.programVersion = row.programVersion
  programStatus : row'.programStatus = row.programStatus
  program : row'.program = row.program
  refreshVersion : row'.refreshVersion = row.refreshVersion

theorem Row.consistent_new (tenant id : Nat) (platformVersion : String)
    (descr : PipelineDescr J) : (Row.new tenant id platformVersion descr).Consistent := by
  constructor <;> simp [Row.new]

variable {rules : Rules J} {row row' : Row J} {action : Option (Action J)}

theorem Row.Consistent.unwanted (h : row.Consistent) : row.unwanted.Consistent where
  deployed := h.deployed
  location := h.location
  runtimeStatus := h.runtimeStatus
  runtimeStatusDetails := h.runtimeStatusDetails
  runtimeDesiredStatus := h.runtimeDesiredStatus
  stopping _ := rfl
  started := nofun

variable [DecidableEq J]

attribute [local simp] Row.provisioning Row.provisioned Row.stopping Row.stopped

/-- No change of a row breaks the columns it does not write. -/
theorem Row.Consistent.change (h : row.Consistent) (hchange : Change rules row action row') :
    row'.Consistent := by
  obtain ⟨hdeployed, hlocation, hstatus, hdetails, hdesired, hstopping, hstarted⟩ := h
  cases hchange with
  | unchanged => exact ⟨hdeployed, hlocation, hstatus, hdetails, hdesired, hstopping, hstarted⟩
  | edited update platformVersion bump hstopped =>
    exact ⟨hdeployed, hlocation, hstatus, hdetails, hdesired, hstopping, hstarted⟩
  | renewed update platformVersion bump hstopped =>
    refine ⟨?_, hlocation, hstatus, hdetails, hdesired, hstopping, hstarted⟩
    simp [Row.edited, Row.renewProgram, hstopped]
  | programmed status new hstopped =>
    refine ⟨?_, hlocation, hstatus, hdetails, hdesired, hstopping, hstarted⟩
    simp [Row.programmed, hstopped]
  | wanted initial policy hfree =>
    refine ⟨hdeployed, hlocation, hstatus, hdetails, hdesired, fun hstop => ?_, fun _ => rfl⟩
    -- a stopping pipeline is neither wanted nor stopped
    obtain hwanted | hstopped := hfree
    · exact absurd ((hstopping hstop).symm.trans hwanted) (by simp)
    · exact absurd (hstop.symm.trans hstopped) (by simp)
  | unwanted =>
    exact Row.Consistent.unwanted
      ⟨hdeployed, hlocation, hstatus, hdetails, hdesired, hstopping, hstarted⟩
  | provisioning id config hstopped hstorage hprogram =>
    exact ⟨fun _ => ⟨rfl, hprogram, rfl, rfl⟩, by simp,
      by simp, by simp, by simp, by simp,
      hstarted⟩
  | provisioned location status hstorage hactual hprogram =>
    exact ⟨fun _ => ⟨hstorage, hprogram, (hdeployed hactual).2.2⟩, by simp,
      by simp, by simp, by simp, by simp,
      hstarted⟩
  | stopping error suspendInfo hactual =>
    exact ⟨by simp, by simp, by simp,
      by simp, by simp, fun _ => rfl, by simp [Row.unwanted]⟩
  | stopped hactual =>
    refine ⟨by simp, by simp, by simp,
      by simp, by simp, by simp, fun hwanted => ?_⟩
    exact absurd ((hstopping hactual).symm.trans hwanted) (by simp)
  | clearing hstopped =>
    exact ⟨by simp [hstopped], hlocation, hstatus, hdetails, hdesired, hstopping, hstarted⟩
  | cleared hstopped =>
    exact ⟨by simp [hstopped], hlocation, hstatus, hdetails, hdesired, hstopping, hstarted⟩
  | platform platformVersion hstopped =>
    exact ⟨hdeployed, hlocation, hstatus, hdetails, hdesired, hstopping, hstarted⟩

/-- What the compilers and the users write is only written to a stopped pipeline, which stays
stopped. -/
theorem Change.sameProgram (h : Change rules row action row')
    (hlive : row.resourcesStatus ≠ .stopped ∨ row'.resourcesStatus ≠ .stopped) :
    row.SameProgram row' := by
  cases h with
  | edited update platformVersion bump hstopped => exact absurd hstopped (or_self_iff.mp hlive)
  | renewed update platformVersion bump hstopped => exact absurd hstopped (or_self_iff.mp hlive)
  | programmed status new hstopped => exact absurd hstopped (or_self_iff.mp hlive)
  | platform platformVersion hstopped => exact absurd hstopped (or_self_iff.mp hlive)
  | _ => exact ⟨rfl, rfl, rfl, rfl, rfl, rfl, rfl⟩

/-- The columns fit the statuses in every reachable table, and the program of a pipeline that is
not stopped stays as it is. -/
theorem Db.lifecycle_consistent (rules : Rules J) (calls : List (Call J)) {db : Db J}
    (hrun : Machine.run (Db.tried rules) {} calls = .ok db) :
    (∀ row ∈ db.rows, row.Consistent) ∧
      ∀ call db', db.step rules call = .ok db' → ∀ row ∈ db.rows,
        (row.resourcesStatus ≠ .stopped → ∃ row' ∈ db'.rows, row'.id = row.id) ∧
        ∀ row' ∈ db'.rows, row'.id = row.id →
          row.resourcesStatus ≠ .stopped ∨ row'.resourcesStatus ≠ .stopped →
          row.SameProgram row' := by
  obtain ⟨hdb, hrows⟩ := Db.run_rows Row.consistent_new
    (fun _ _ _ _ hrow _ hchange => hrow.change hchange) (Machine.guarded_true _ calls) hrun
  refine ⟨hrows, fun call db' hstep row hrow => ⟨fun hlive => ?_, fun row' hrow' hid hlive => ?_⟩⟩
  · obtain ⟨row', hrow', action, -, hperform⟩ :=
      (Db.step_next hstep).row_survives hdb hrow (.inl hlive)
    exact ⟨row', hrow', (perform_change hperform).id_eq⟩
  · obtain ⟨action, -, hchange⟩ := (Db.step_next hstep).row_change hdb hrow hrow' hid
    exact hchange.sameProgram hlive

def plainRules : Rules Unit where
  get _ _ := none
  isNull _ := false
  asStr _ := none
  validateName _ := true
  validateRuntimeConfig := some
  validateProgramConfig := some
  validateProgramInfo _ := true
  validateDeploymentConfig _ := true

def compiledCalls : List (Call Unit) :=
  [.newPipeline 0 "1" ⟨"a", "", (), "", "", "", ()⟩,
    .service 0 0 (.program 1 .toCompilingSql),
    .service 0 0 (.program 1 (.toSqlCompiled () ())),
    .service 0 0 (.program 1 .toCompilingRust),
    .service 0 0 (.program 1 (.toSuccess () "" "" ""))]

def provisionedCalls : List (Call Unit) :=
  compiledCalls ++
    [.user 0 "a" (.desiredProvisioned .running .allow),
      .service 0 0 (.toProvisioning 1 7 ()),
      .service 0 0 (.toProvisioned 1 "host" ⟨.running, (), .running⟩)]

theorem Db.lifecycle_consistent_provisioned :
    ∃ db db', Machine.run (Db.tried plainRules) {} provisionedCalls = .ok db ∧
      db.step plainRules (.service 0 0 (.toStopping 1 none none)) = .ok db' ∧
      db.rows.map (·.resourcesStatus) = [.provisioned] ∧ (∀ row ∈ db.rows, row.Consistent) ∧
      ∀ row ∈ db.rows, ∀ row' ∈ db'.rows, row'.id = row.id → row.SameProgram row' := by
  obtain ⟨db, db', hrun, hstep, hstatus⟩ :
      ∃ db db', Machine.run (Db.tried plainRules) {} provisionedCalls = .ok db ∧
        db.step plainRules (.service 0 0 (.toStopping 1 none none)) = .ok db' ∧
        db.rows.map (·.resourcesStatus) = [.provisioned] :=
    ⟨_, _, rfl, rfl, by decide +kernel⟩
  obtain ⟨hrows, hsame⟩ := Db.lifecycle_consistent plainRules provisionedCalls hrun
  refine ⟨db, db', hrun, hstep, hstatus, hrows, fun row hrow row' hrow' hid => ?_⟩
  refine (hsame _ db' hstep row hrow).2 row' hrow' hid (.inl ?_)
  have hmem : row.resourcesStatus ∈ db.rows.map (·.resourcesStatus) := List.mem_map_of_mem hrow
  rw [hstatus, List.mem_singleton] at hmem
  rw [hmem]
  nofun

end Feldera.Manager
