import Feldera.Manager.Lifecycle

/-!
Tenants do not meet: every update selects rows by the tenant and the name or the id, so that a
call made for a tenant leaves the rows of the others as they are. Only the recovery of the
compilers runs for all tenants.
-/

namespace Feldera.Manager

open List Checked Db

variable {J : Type} {rules : Rules J} {db db' : Db J} {tenant t : Nat}

/-- The tenant that a call is made for. -/
def Call.tenantId : Call J → Option Nat
  | .newPipeline t _ _ | .newOrUpdatePipeline t _ _ _ _ | .deletePipeline t _ | .user t _ _
  | .service t _ _ => some t
  | .clearOngoing _ _ => none

def Db.rowsOf (db : Db J) (tenant : Nat) : List (Row J) := db.rows.filter (·.tenant = tenant)

theorem Db.newPipeline_rowsOf {platformVersion : String} {descr : PipelineDescr J}
    (ht : t ≠ tenant) (h : db.newPipeline rules t platformVersion descr = .ok db') :
    db'.rowsOf tenant = db.rowsOf tenant := by
  simp only [newPipeline, bind_eq_ok, reject_eq_ok, pure_eq_ok] at h
  obtain ⟨-, -, -, -, -, -, -, -, -, rfl⟩ := h
  simp [rowsOf, Row.new, ht]

variable [DecidableEq J]

theorem Db.performAll_rowsOf {p : Row J → Bool} {action : Action J}
    (h : db.performAll rules (fun row => if p row then some action else none) = .ok db')
    (hp : ∀ row, row.tenant = tenant → p row = false) :
    db'.rowsOf tenant = db.rowsOf tenant := by
  have hrows := (performAll_eq_ok.mp h).1
  unfold rowsOf
  generalize db.rows = rows, db'.rows = rows' at hrows
  induction hrows with
  | nil => rfl
  | @cons row row' _ _ hperform _ ih =>
    -- No change of a row writes its tenant.
    have htenant : row'.tenant = row.tenant := by
      have hchange := perform_change hperform
      generalize (if p row then some action else none) = action at hchange
      cases hchange <;> rfl
    rw [filter_cons, filter_cons, ih, htenant]
    split
    · next ht =>
      rw [hp row (of_decide_eq_true ht)] at hperform
      rw [Except.ok.inj hperform]
    · rfl

theorem Db.userOperation_rowsOf {name : String} {operation : UserOperation J} (ht : t ≠ tenant)
    (h : db.userOperation rules t name operation = .ok db') :
    db'.rowsOf tenant = db.rowsOf tenant := by
  obtain ⟨valid, -, h⟩ := userOperation_eq_ok h
  exact performAll_rowsOf h fun row hrow => by simp [Row.named, hrow, ht.symm]

theorem Db.step_rowsOf {call : Call J} (hcall : call.tenantId = some t) (ht : t ≠ tenant)
    (h : db.step rules call = .ok db') : db'.rowsOf tenant = db.rowsOf tenant := by
  cases call with
  | newPipeline =>
    cases hcall
    exact newPipeline_rowsOf ht h
  | newOrUpdatePipeline =>
    cases hcall
    simp only [step] at h
    split_ifs at h
    · exact userOperation_rowsOf ht h
    · exact newPipeline_rowsOf ht h
  | deletePipeline =>
    cases hcall
    simp only [step, deletePipeline] at h
    split at h
    · cases h
    split_ifs at h
    cases h
    simp only [rowsOf, filter_filter]
    refine filter_congr fun row _ => ?_
    by_cases hrow : row.tenant = tenant <;> simp [Row.named, hrow, ht.symm]
  | user =>
    cases hcall
    exact userOperation_rowsOf ht h
  | service =>
    cases hcall
    simp only [step] at h
    split_ifs at h
    exact performAll_rowsOf h fun row hrow => by simp [Row.identified, hrow, ht.symm]
  | clearOngoing => cases hcall

/-- Whatever is called for other tenants, accepted or not, leaves the pipelines of a tenant as
they are. -/
theorem Db.run_isolated (rules : Rules J) (tenant : Nat) (calls : List (Call J))
    (hcalls : ∀ call ∈ calls, ∃ t ≠ tenant, call.tenantId = some t)
    (hrun : Machine.run (Db.tried rules) db calls = .ok db') :
    db'.rowsOf tenant = db.rowsOf tenant := by
  induction calls generalizing db with
  | nil =>
    cases hrun
    rfl
  | cons call calls ih =>
    obtain ⟨next, htried, hrest⟩ := Machine.run_cons_eq_ok hrun
    obtain ⟨t, ht, hcall⟩ := hcalls call mem_cons_self
    rw [ih (fun c hc => hcalls c (mem_cons_of_mem _ hc)) hrest]
    unfold Db.tried at htried
    split at htried
    · next hstep =>
      cases htried
      exact step_rowsOf hcall ht hstep
    · cases htried
      rfl

/-- The other tenant has a pipeline of the same name, and tries the id of the first one. -/
def strangerCalls : List (Call Unit) :=
  [.newPipeline 1 "1" ⟨"a", "", (), "", "", "", ()⟩, .service 1 0 (.toStopping 1 none none),
    .service 1 0 (.program 1 .toCompilingSql), .service 1 1 (.program 1 .toCompilingSql)]

theorem Db.run_isolated_stranger :
    ∃ db db', Machine.run (Db.tried plainRules) {} compiledCalls = .ok db ∧
      Machine.run (Db.tried plainRules) db strangerCalls = .ok db' ∧
      db'.rows.map (·.programStatus) = [.success, .compilingSql] ∧
      db'.rowsOf 0 = db.rowsOf 0 := by
  refine ⟨_, _, rfl, rfl, by decide +kernel, run_isolated plainRules 0 strangerCalls ?_ rfl⟩
  simp [strangerCalls, Call.tenantId]

end Feldera.Manager
