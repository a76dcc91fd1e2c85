import Feldera.Manager.RowChange

/-!
Runs of transactions on the table. `Db.step_next` says what an accepted transaction does to
the rows: it adds a new one, deletes a stopped one with cleared storage, or changes rows by
actions. Facts about all rows of all reachable tables follow from facts about one change
(`Db.run_rows`).
-/

namespace Feldera.Manager

open List Checked Db

variable {J : Type} [DecidableEq J] (rules : Rules J)

def Call.Does (call : Call J) (row : Row J) : Option (Action J) → Prop
  | none => True
  | some (.user operation) =>
      (∃ tenant name given, call = .user tenant name given ∧ row.named tenant name = true ∧
        given.validate rules = .ok operation) ∨
      ∃ tenant name platformVersion bump descr update,
        call = .newOrUpdatePipeline tenant name platformVersion bump descr ∧
        row.named tenant name = true ∧
        operation = .updatePipeline update platformVersion bump
  | some (.service operation) =>
      ∃ tenant id, call = .service tenant id operation ∧ row.identified tenant id = true
  | some (.recovery compiler) => ∃ assigned, call = .clearOngoing assigned compiler

inductive Db.Next (call : Call J) (db db' : Db J) : Prop
  | created (tenant : Nat) (platformVersion : String) (descr : PipelineDescr J)
      (hrows : db'.rows = db.rows ++ [Row.new tenant db.nextId platformVersion descr])
      (hunique : Db.namesUnique db'.rows = true) (hid : db'.nextId = db.nextId + 1)
  | deleted (tenant : Nat) (name : String) (current : Row J)
      (hfind : db.rows.find? (·.named tenant name) = some current)
      (hstopped : current.resourcesStatus = .stopped)
      (hdesired : current.desiredStatus = .stopped)
      (hcleared : current.storageStatus = .cleared)
      (hrows : db'.rows = db.rows.filter fun row => !row.named tenant name)
      (hid : db'.nextId = db.nextId)
  | changed
      (hrows : List.Forall₂ (fun row row' => ∃ action, call.Does rules row action ∧
        perform rules action row = .ok row') db.rows db'.rows)
      (hunique : Db.namesUnique db'.rows = true) (hid : db'.nextId = db.nextId)

variable {rules} {db db' : Db J} {call : Call J} {action : Row J → Option (Action J)}

theorem Db.performAll_eq_ok :
    db.performAll rules action = .ok db' ↔
      List.Forall₂ (fun row row' => perform rules (action row) row = .ok row')
        db.rows db'.rows ∧ namesUnique db'.rows = true ∧ db'.nextId = db.nextId := by
  simp only [performAll, bind_eq_ok, mapM_eq_ok, reject_eq_ok,
    pure_eq_ok, Unique.exists_iff, not_not]
  constructor
  · rintro ⟨rows, hrows, hunique, rfl⟩
    exact ⟨hrows, hunique, rfl⟩
  · rintro ⟨hrows, hunique, hid⟩
    refine ⟨db'.rows, hrows, hunique, ?_⟩
    rw [← hid]

theorem Db.performAll_next (hdoes : ∀ row, call.Does rules row (action row))
    (h : db.performAll rules action = .ok db') : Db.Next rules call db db' := by
  obtain ⟨hrows, hunique, hid⟩ := performAll_eq_ok.mp h
  refine .changed (hrows.imp ?_) hunique hid
  intro row row' hperform
  exact ⟨action row, hdoes row, hperform⟩

variable {tenant : Nat} {platformVersion : String}

theorem Db.newPipeline_next {descr : PipelineDescr J}
    (h : db.newPipeline rules tenant platformVersion descr = .ok db') :
    Db.Next rules call db db' := by
  simp only [Db.newPipeline, bind_eq_ok, reject_eq_ok, pure_eq_ok,
    Unique.exists_iff, not_not] at h
  obtain ⟨-, runtimeConfig, -, programConfig, -, hunique, rfl⟩ := h
  exact .created tenant platformVersion _ rfl hunique rfl

theorem Db.userOperation_eq_ok {name : String} {given : UserOperation J}
    (h : db.userOperation rules tenant name given = .ok db') :
    ∃ operation, given.validate rules = .ok operation ∧
      db.performAll rules (fun row =>
        if row.named tenant name then some (.user operation) else none) = .ok db' := by
  simp only [userOperation, bind_eq_ok] at h
  obtain ⟨operation, hvalid, -, -, h⟩ := h
  exact ⟨operation, hvalid, h⟩

omit [DecidableEq J] in
theorem UserOperation.validate_updatePipeline {update : PipelineUpdate J} {bump : Bool}
    {operation : UserOperation J}
    (h : (UserOperation.updatePipeline update platformVersion bump).validate rules =
      .ok operation) : ∃ valid, operation = .updatePipeline valid platformVersion bump := by
  simp only [UserOperation.validate, bind_eq_ok, pure_eq_ok] at h
  obtain ⟨valid, -, rfl⟩ := h
  exact ⟨valid, rfl⟩

theorem Db.deletePipeline_next {name : String} (h : db.deletePipeline tenant name = .ok db') :
    Db.Next rules call db db' := by
  unfold Db.deletePipeline at h
  split at h
  · cases h
  rename_i current hfind
  split at h
  · cases h
  rename_i hstopped
  split at h
  · cases h
  · rename_i hcleared
    cases h
    simp only [not_or, not_not] at hstopped hcleared
    exact .deleted tenant name current hfind hstopped.1 hstopped.2 hcleared rfl rfl

theorem Db.step_next (h : db.step rules call = .ok db') : Db.Next rules call db db' := by
  cases call with
  | newPipeline tenant platformVersion descr => exact newPipeline_next h
  | newOrUpdatePipeline tenant originalName platformVersion bump descr =>
    simp only [step] at h
    split at h
    · obtain ⟨operation, hvalid, h⟩ := userOperation_eq_ok h
      obtain ⟨valid, rfl⟩ := UserOperation.validate_updatePipeline hvalid
      refine performAll_next ?_ h
      intro row
      split
      · rename_i hnamed
        exact .inr ⟨tenant, originalName, platformVersion, bump, descr, valid, rfl, hnamed, rfl⟩
      · trivial
    · split at h
      · cases h
      · exact newPipeline_next h
  | deletePipeline tenant name => exact deletePipeline_next h
  | user tenant name given =>
    obtain ⟨operation, hvalid, h⟩ := userOperation_eq_ok h
    refine performAll_next ?_ h
    intro row
    split
    · rename_i hnamed
      exact .inl ⟨tenant, name, given, rfl, hnamed, hvalid⟩
    · trivial
  | service tenant id operation =>
    simp only [step] at h
    split at h
    · cases h
    refine performAll_next ?_ h
    intro row
    split
    · rename_i hid
      exact ⟨tenant, id, rfl, hid⟩
    · trivial
  | clearOngoing assigned compiler =>
    refine performAll_next ?_ h
    intro row
    split
    · exact ⟨assigned, rfl⟩
    · trivial

structure Db.Sound (db : Db J) : Prop where
  names : (db.rows.map fun row => (row.tenant, row.descr.name)).Nodup
  ids : (db.rows.map (·.id)).Nodup
  fresh : ∀ row ∈ db.rows, row.id < db.nextId

variable {row row' : Row J}

theorem Change.id_eq {action : Option (Action J)} (h : Change rules row action row') :
    row'.id = row.id := by
  cases h <;> rfl

theorem Db.Next.ids_changed {rows rows' : List (Row J)}
    (h : List.Forall₂ (fun row row' => ∃ action, call.Does rules row action ∧
      perform rules action row = .ok row') rows rows') : rows'.map (·.id) = rows.map (·.id) := by
  induction h with
  | nil => rfl
  | cons hrow _ ih =>
    obtain ⟨action, -, hperform⟩ := hrow
    simp only [map_cons, ih, (perform_change hperform).id_eq]

section

variable (h : Db.Next rules call db db')
include h

theorem Db.Sound.next (hdb : db.Sound) : db'.Sound := by
  cases h with
  | created tenant platformVersion descr hrows hunique hid =>
    refine ⟨of_decide_eq_true hunique, ?_, ?_⟩
    · rw [hrows, map_append, nodup_append]
      refine ⟨hdb.ids, by simp, ?_⟩
      intro id hmem id' hid'
      obtain ⟨row, hrow, rfl⟩ := mem_map.mp hmem
      have hlt := hdb.fresh row hrow
      simp only [map_cons, map_nil, mem_singleton, Row.new] at hid'
      omega
    · intro row hrow
      rw [hrows, mem_append, mem_singleton] at hrow
      rw [hid]
      obtain hrow | rfl := hrow
      · exact Nat.lt_succ_of_lt (hdb.fresh row hrow)
      · exact Nat.lt_succ_self _
  | deleted tenant name current hfind hstopped hdesired hcleared hrows hid =>
    have hsub : db'.rows.Sublist db.rows := by
      rw [hrows]
      exact filter_sublist
    refine ⟨hdb.names.sublist (hsub.map _), hdb.ids.sublist (hsub.map _), ?_⟩
    intro row hrow
    rw [hid]
    exact hdb.fresh row (hsub.subset hrow)
  | changed hrows hunique hid =>
    have hids := Db.Next.ids_changed hrows
    refine ⟨of_decide_eq_true hunique, hids ▸ hdb.ids, ?_⟩
    intro row hrow
    have hmem : row.id ∈ db.rows.map (·.id) := hids ▸ mem_map_of_mem hrow
    obtain ⟨old, hold, heq⟩ := mem_map.mp hmem
    rw [hid, ← heq]
    exact hdb.fresh old hold

/-- A row after a transaction is a new one or a changed one. -/
theorem Db.Next.row_origin {row' : Row J} (hrow' : row' ∈ db'.rows) :
    (∃ tenant platformVersion descr, row' = Row.new tenant db.nextId platformVersion descr) ∨
      ∃ row ∈ db.rows, ∃ action, call.Does rules row action ∧
        perform rules action row = .ok row' := by
  cases h with
  | created tenant platformVersion descr hrows hunique hid =>
    rw [hrows, mem_append, mem_singleton] at hrow'
    obtain hrow' | rfl := hrow'
    · exact .inr ⟨row', hrow', none, trivial, rfl⟩
    · exact .inl ⟨tenant, platformVersion, descr, rfl⟩
  | deleted tenant name current hfind hstopped hdesired hcleared hrows hid =>
    rw [hrows] at hrow'
    exact .inr ⟨row', mem_of_mem_filter hrow', none, trivial, rfl⟩
  | changed hrows hunique hid =>
    obtain ⟨i, hi, rfl⟩ := mem_iff_getElem.mp hrow'
    have hlen := hrows.length_eq
    exact .inr ⟨db.rows[i], getElem_mem _, (forall₂_iff_get.mp hrows).2 i _ hi⟩

/-- A row that is not stopped is still there after a transaction, possibly changed. -/
theorem Db.Next.row_survives (hdb : db.Sound) {row : Row J} (hrow : row ∈ db.rows)
    (hlive : row.resourcesStatus ≠ .stopped ∨ row.desiredStatus ≠ .stopped ∨
      row.storageStatus ≠ .cleared) :
    ∃ row' ∈ db'.rows, ∃ action, call.Does rules row action ∧
      perform rules action row = .ok row' := by
  cases h with
  | created tenant platformVersion descr hrows hunique hid =>
    refine ⟨row, ?_, none, trivial, rfl⟩
    rw [hrows]
    exact mem_append_left _ hrow
  | deleted tenant name current hfind hstopped hdesired hcleared hrows hid =>
    refine ⟨row, ?_, none, trivial, rfl⟩
    rw [hrows, mem_filter]
    refine ⟨hrow, ?_⟩
    by_contra hnamed
    -- the deleted row is the only one of that name
    have hcurrent := List.find?_some hfind
    simp only [Row.named, Bool.not_eq_true', Bool.not_eq_false, decide_eq_true_eq]
      at hnamed hcurrent
    have heq : row = current := inj_on_of_nodup_map hdb.names hrow
      (mem_of_find?_eq_some hfind) (by simp [hnamed, hcurrent])
    simp [heq, hstopped, hdesired, hcleared] at hlive
  | changed hrows hunique hid =>
    obtain ⟨i, hi, rfl⟩ := mem_iff_getElem.mp hrow
    have hlen := hrows.length_eq
    exact ⟨db'.rows[i], getElem_mem _, (forall₂_iff_get.mp hrows).2 i hi _⟩

theorem Db.Next.row_change (hdb : db.Sound) (hrow : row ∈ db.rows) (hrow' : row' ∈ db'.rows)
    (hid : row'.id = row.id) :
    ∃ action, call.Does rules row action ∧ Change rules row action row' := by
  obtain ⟨tenant, platformVersion, descr, rfl⟩ | ⟨old, hold, action, hdoes, hperform⟩ :=
    h.row_origin hrow'
  · exact absurd hid (hdb.fresh row hrow).ne'
  · have hchange := perform_change hperform
    obtain rfl : old = row :=
      inj_on_of_nodup_map hdb.ids hold hrow (hchange.id_eq.symm.trans hid)
    exact ⟨action, hdoes, hchange⟩

end

/-- A property of rows that new rows have and that no permitted call takes from a row holds of
all rows in every run. -/
theorem Db.run_rows {guard : Db J → Call J → Prop} {P : Row J → Prop}
    (hnew : ∀ tenant id platformVersion descr, P (Row.new tenant id platformVersion descr))
    (hkeeps : ∀ {db db' call row row' action}, guard db call → db.step rules call = .ok db' →
      row ∈ db.rows → row' ∈ db'.rows → P row → call.Does rules row action →
      Change rules row action row' → P row')
    {calls : List (Call J)} (hguard : Machine.Guarded (tried rules) guard {} calls)
    (h : Machine.run (tried rules) {} calls = .ok db) : db.Sound ∧ ∀ row ∈ db.rows, P row := by
  refine Machine.run_invariant (I := fun db => db.Sound ∧ ∀ row ∈ db.rows, P row)
    ⟨?_⟩ ⟨⟨nodup_nil, nodup_nil, by simp⟩, by simp⟩ hguard h
  intro db call db' ⟨hdb, hrows⟩ hpermitted htried
  unfold tried at htried
  split at htried
  · rename_i hstep
    cases htried
    have hnext := step_next hstep
    refine ⟨hdb.next hnext, fun row' hrow' => ?_⟩
    obtain ⟨tenant, platformVersion, descr, rfl⟩ | ⟨row, hrow, action, hdoes, hperform⟩ :=
      hnext.row_origin hrow'
    · exact hnew _ _ _ _
    · exact hkeeps hpermitted hstep hrow hrow' (hrows row hrow) hdoes (perform_change hperform)
  · cases htried
    exact ⟨hdb, hrows⟩

end Feldera.Manager
