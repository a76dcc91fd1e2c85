import Feldera.Circuit.SchedulerPlan

/-!
Every step that returns `Ok` evaluates every node once and in order, and every committed transaction
flushes every node once and in order. Both follow from the counters, which every action keeps.
-/

namespace Feldera.Circuit.Scheduler

variable {plan : Plan} {pend : NodeId → ℕ} {s s' : Scheduler} {n : NodeId}

section

theorem finishTask_task (s : Scheduler) (n m : NodeId) :
    (s.finishTask n).task m = if m = n then { s.task n with
      isReady := if (s.task n).isAsync then false else (s.task n).isReady } else s.task m :=
  Function.update_apply _ _ _ _

theorem finishTask_same (s : Scheduler) (n m : NodeId) :
    ((s.finishTask n).task m).unsatisfiedDependencies = (s.task m).unsatisfiedDependencies ∧
      ((s.finishTask n).task m).scheduled = (s.task m).scheduled ∧
      ((s.finishTask n).task m).flushState = (s.task m).flushState ∧
      ((s.finishTask n).task m).numPredecessors = (s.task m).numPredecessors ∧
      ((s.finishTask n).task m).successors = (s.task m).successors ∧
      ((s.finishTask n).task m).isAsync = (s.task m).isAsync := by
  rw [finishTask_task]
  by_cases heq : m = n <;> simp [heq]

/-- The evaluation of a node has ended; the counters of its successors are behind. -/
theorem Evaluating.finishTask (h : Evaluating plan (fun _ => 0) s) (hn : n ∈ s.handles) :
    Evaluating plan (fun m => (plan.after n).count m) (s.finishTask n) := by
  obtain ⟨hstarted, hnot⟩ := (h.handles n).mp hn
  have hfinish : ∀ m, Evaluation.finish m ∈ s.evaluations ++ [.finish n] ↔
      .finish m ∈ s.evaluations ∨ m = n := by simp
  have hstart : ∀ m, Evaluation.start m ∈ s.evaluations ++ [.finish n] ↔
      .start m ∈ s.evaluations := by simp
  have hsame := finishTask_same s n
  refine ⟨fun m => ?_, fun m => ?_, h.nodupHandles.erase n, fun m => ?_,
    nodup_concat h.nodup hnot, fun m hm => ?_, fun m hm => h.inside m ((hstart m).mp hm),
    fun m hm => ?_, ?_⟩
  · rw [(hsame m).1, h.unsatisfied m]
    refine unmet_insert plan (decide_eq_false hnot) (fun q => ?_) m
    change decide (_ ∈ s.evaluations ++ [.finish n]) = (decide _ || _)
    rw [decide_eq_decide.mpr (hfinish q), Bool.decide_or]
    rfl
  · change m ∈ s.handles.erase n ↔ _ ∈ s.evaluations ++ [.finish n] ∧
      _ ∉ s.evaluations ++ [.finish n]
    rw [h.nodupHandles.mem_erase_iff, hstart, hfinish, h.handles m]
    tauto
  · rw [(hsame m).2.1, h.scheduled m]
    exact (hstart m).symm
  · refine (hstart m).mpr ?_
    rcases (hfinish m).mp hm with hm | rfl
    · exact h.started m hm
    · exact hstarted
  · rw [(hsame m).1]
    exact h.satisfied m ((hstart m).mp hm)
  · exact h.preceded.concat fun m heq => nomatch heq

structure FlushOnly (s s' : Scheduler) : Prop where
  frame : ∃ task phase flushes, s' =
    { s with task := task, transactionPhase := phase, flushes := flushes }
  task : ∀ m, ∃ flushState, s'.task m = { s.task m with flushState := flushState }

/-- That `n` is flushed changes what is to be subtracted for the other nodes. -/
theorem Flushed.complete {flushes : List Flush} {m : NodeId} {state : FlushState}
    (h : Flushed plan (fun _ => 0) flushes m state) (hne : m ≠ n)
    (hunmet : unmet plan.edges (isFlushed flushes) m =
      unmet plan.edges (isFlushed (flushes ++ [.complete n])) m + pend m) :
    Flushed plan pend (flushes ++ [.complete n]) m state := by
  cases state <;> simpa [Flushed, hne, hunmet] using h

/-- A node whose flush has been started says whether it is complete. -/
theorem Flushing.endFlush (h : Flushing plan (fun _ => 0) s) (hn : n ∈ plan.nodes)
    (progress : Option Position) (flushComplete : Bool) :
    ∃ s' complete, s.endFlush n progress flushComplete = .ok (s', complete) ∧
      FlushOnly s s' ∧
      Flushing plan (fun m => if complete then (plan.after n).count m else 0) s' := by
  have hsame : ∀ state, FlushOnly s (s.modify n fun task => { task with flushState := state }) :=
    fun state => ⟨⟨_, _, _, rfl⟩, fun m => by
      rw [modify_task]
      split
      · next heq => exact ⟨state, by rw [heq]⟩
      · exact ⟨_, rfl⟩⟩
  have hstate := h.state n
  unfold Scheduler.endFlush
  cases hs : (s.task n).flushState with
  | unflushedDependencies k =>
    exact ⟨s, false, rfl, ⟨⟨_, _, _, rfl⟩, fun m => ⟨_, rfl⟩⟩, by simpa using h⟩
  | completed progress =>
    exact ⟨s, false, rfl, ⟨⟨_, _, _, rfl⟩, fun m => ⟨_, rfl⟩⟩, by simpa using h⟩
  | started old =>
    rw [hs] at hstate
    obtain ⟨hcalled, hnot, hzero⟩ := hstate
    cases flushComplete with
    | false =>
      refine ⟨_, false, rfl, hsame _, ?_⟩
      simp only [Bool.false_eq_true, if_false]
      refine ⟨fun m => ?_, h.phase, h.nodup, h.called, h.inside, h.preceded⟩
      change Flushed plan _ s.flushes m ((s.modify n _).task m).flushState
      rw [modify_task]
      split
      · next heq =>
        subst heq
        exact ⟨hcalled, hnot, hzero⟩
      · exact h.state m
    | true =>
      have hphase := h.phase
      unfold InPhase at hphase
      split at hphase
      · simp [hphase] at hcalled
      · simp [hphase] at hcalled
      rotate_left
      · exact absurd (hphase n hn) hnot
      · next unflushed hp =>
        have hcomplete : ∀ m, Flush.complete m ∈ s.flushes ++ [.complete n] ↔
            .complete m ∈ s.flushes ∨ m = n := by simp
        have hcall : ∀ m, Flush.call m ∈ s.flushes ++ [.complete n] ↔ .call m ∈ s.flushes := by
          simp
        have hflushed : ∀ q, isFlushed (s.flushes ++ [.complete n]) q =
            (isFlushed s.flushes q || q == n) := by
          intro q
          unfold isFlushed
          rw [decide_eq_decide.mpr (hcomplete q), Bool.decide_or]
          rfl
        have hbefore : isFlushed s.flushes n = false := decide_eq_false hnot
        have hunmet := unmet_insert plan hbefore hflushed
        have hcount : plan.nodes.countP (fun m => !isFlushed s.flushes m) =
            plan.nodes.countP (fun m => !isFlushed (s.flushes ++ [.complete n]) m) + 1 := by
          refine countP_insert plan.nodup hn (by simp [hflushed]) fun m => ?_
          rw [hflushed]
          cases heq : m == n
          · simp
          · rw [beq_iff_eq.mp heq, hbefore]
            rfl
        obtain ⟨rest, rfl⟩ : ∃ rest, unflushed = rest + 1 :=
          ⟨_, (show unflushed = _ from hphase).trans hcount⟩
        rw [hp]
        refine ⟨_, true, rfl, ⟨⟨_, _, _, rfl⟩, fun m => ?_⟩, fun m => ?_, ?_,
          nodup_concat h.nodup hnot, fun m hm => ?_, fun m hm => h.inside m ((hcall m).mp hm), ?_⟩
        · exact (hsame (.completed progress)).task m
        · change Flushed plan (fun m => (plan.after n).count m)
            (s.flushes ++ [.complete n]) m
            ((s.modify n fun task => { task with flushState := .completed progress }).task
              m).flushState
          rw [modify_task]
          split
          · next heq =>
            subst heq
            exact ⟨(hcall m).mpr hcalled, (hcomplete m).mpr (.inr rfl),
              (hunmet m).symm.trans hzero⟩
          · next hne => exact (h.state m).complete hne (hunmet m)
        · change rest = plan.nodes.countP fun m => !isFlushed (s.flushes ++ [.complete n]) m
          omega
        · refine (hcall m).mpr ?_
          rcases (hcomplete m).mp hm with hm | rfl
          · exact h.called m hm
          · exact hcalled
        · exact h.preceded.concat fun m heq => nomatch heq

end

section

theorem Evaluating.spawnIfReady (h : Evaluating plan pend s) (hn : n ∈ plan.nodes)
    (hnot : .start n ∉ s.evaluations) : Evaluating plan pend (s.spawnIfReady n) := by
  unfold Scheduler.spawnIfReady
  split
  · next hready => exact h.spawnTask hn hready.1 hnot
  · exact h

theorem Flushing.spawnIfReady (h : Flushing plan pend s) (hn : n ∈ plan.nodes) :
    Flushing plan pend (s.spawnIfReady n) := by
  unfold Scheduler.spawnIfReady
  split
  · exact h.spawnTask hn
  · exact h

theorem Fits.spawnIfReady (h : Fits plan s) (n : NodeId) : Fits plan (s.spawnIfReady n) := by
  unfold Scheduler.spawnIfReady
  split
  · exact h.spawnTask n
  · exact h

/-- What `schedule_successors` and `process_notifications` do not change. -/
structure SpawnOnly (s s' : Scheduler) : Prop where
  nodes : s'.nodes = s.nodes
  control : s'.control = s.control
  phase : s'.transactionPhase = s.transactionPhase
  finished : isFinished s'.evaluations = isFinished s.evaluations
  notified : s'.notified = s.notified
  permit : s'.permit = s.permit
  notifying : s'.notifying = s.notifying
  ready : s'.ready = s.ready
  owed : s'.owed = s.owed

theorem SpawnOnly.refl (s : Scheduler) : SpawnOnly s s :=
  ⟨rfl, rfl, rfl, rfl, rfl, rfl, rfl, rfl, rfl⟩

theorem SpawnOnly.trans {s'' : Scheduler} (h : SpawnOnly s s') (h' : SpawnOnly s' s'') :
    SpawnOnly s s'' :=
  ⟨h'.nodes.trans h.nodes, h'.control.trans h.control, h'.phase.trans h.phase,
    h'.finished.trans h.finished, h'.notified.trans h.notified, h'.permit.trans h.permit,
    h'.notifying.trans h.notifying, h'.ready.trans h.ready, h'.owed.trans h.owed⟩

section

variable (s : Scheduler) (n : NodeId)

theorem spawnOnly_modify (f : Task → Task) :
    SpawnOnly s (s.modify n f) := ⟨rfl, rfl, rfl, rfl, rfl, rfl, rfl, rfl, rfl⟩

theorem spawnOnly_spawnTask : SpawnOnly s (s.spawnTask n) := by
  refine ⟨rfl, rfl, rfl, funext fun p => decide_eq_decide.mpr ?_, rfl, rfl, rfl, rfl, rfl⟩
  change _ ∈ s.evaluations ++ [.start n] ↔ _
  simp

theorem spawnOnly_spawnIfReady : SpawnOnly s (s.spawnIfReady n) := by
  unfold spawnIfReady
  split
  · exact spawnOnly_spawnTask s n
  · exact .refl s

end

variable {flushComplete : Bool} {rest : List NodeId}

theorem scheduleSuccessor_spec (hn : n ∈ plan.nodes) (hfits : Fits plan s)
    (hev : Evaluating plan (fun m => (n :: rest).count m) s)
    (hfl : Flushing plan (fun m => if flushComplete then (n :: rest).count m else 0) s) :
    ∃ s', scheduleSuccessor flushComplete n s = .ok s' ∧ SpawnOnly s s' ∧ Fits plan s' ∧
      Evaluating plan (fun m => rest.count m) s' ∧
      Flushing plan (fun m => if flushComplete then rest.count m else 0) s' := by
  have hself : (n :: rest).count n = rest.count n + 1 := List.count_cons_self
  have hother : ∀ m, m ≠ n → (n :: rest).count m = rest.count m := fun m hne =>
    List.count_cons_of_ne (Ne.symm hne)
  obtain ⟨u, hu⟩ : ∃ u, (s.task n).unsatisfiedDependencies = u + 1 := by
    have hcount := hev.unsatisfied n
    exact ⟨unmet plan.edges (isFinished s.evaluations) n + rest.count n, by omega⟩
  have hnot : .start n ∉ s.evaluations := by
    intro hstart
    have hzero := hev.satisfied n hstart
    omega
  -- the flush state of a successor can be brought up to date
  obtain ⟨state, hstate, hflushed⟩ : ∃ state,
      satisfyFlush flushComplete (s.task n).flushState = some state ∧
      Flushed plan (fun m => if flushComplete then rest.count m else 0) s.flushes n state := by
    have hn := hfl.state n
    cases flushComplete with
    | false => exact ⟨_, rfl, by simpa using hn⟩
    | true =>
      cases hs : (s.task n).flushState with
      | unflushedDependencies k =>
        rw [hs] at hn
        obtain ⟨hk, hcall, hcomplete⟩ := hn
        have hpred : k = unmet plan.edges (isFlushed s.flushes) n + rest.count n + 1 :=
          hk.trans (congrArg _ hself)
        refine ⟨.unflushedDependencies _, ?_, rfl, hcall, hcomplete⟩
        rw [hpred]
        rfl
      | started p =>
        rw [hs] at hn
        have hzero : unmet plan.edges (isFlushed s.flushes) n + (n :: rest).count n = 0 := hn.2.2
        omega
      | completed p =>
        rw [hs] at hn
        have hzero : unmet plan.edges (isFlushed s.flushes) n + (n :: rest).count n = 0 := hn.2.2
        omega
  let s₁ := s.modify n fun task => { task with
    unsatisfiedDependencies := u
    flushState := state }
  have htask : ∀ m, s₁.task m = if m = n then { s.task n with
      unsatisfiedDependencies := u
      flushState := state } else s.task m := fun m => modify_task s n m _
  have hresult : scheduleSuccessor flushComplete n s = .ok (s₁.spawnIfReady n) := by
    rw [scheduleSuccessor, hu, hstate]
  have hfits₁ : Fits plan s₁ := by
    refine hfits.of_same rfl fun m => ?_
    by_cases heq : m = n <;> simp [htask, heq]
  have hev₁ : Evaluating plan (fun m => rest.count m) s₁ := by
    refine ⟨fun m => ?_, hev.handles, hev.nodupHandles, fun m => ?_, hev.nodup, hev.started,
      hev.inside, fun m hm => ?_, hev.preceded⟩
    · have hcount := hev.unsatisfied m
      rw [htask m]
      split
      · next heq =>
        subst heq
        change u = unmet plan.edges (isFinished s.evaluations) m + _
        omega
      · next hne =>
        rw [hother m hne] at hcount
        exact hcount
    · rw [htask m]
      split
      · next heq => exact heq ▸ hev.scheduled n
      · exact hev.scheduled m
    · have hne : m ≠ n := fun heq => hnot (heq ▸ hm)
      rw [htask m, if_neg hne]
      exact hev.satisfied m hm
  have hfl₁ : Flushing plan (fun m => if flushComplete then rest.count m else 0) s₁ := by
    refine ⟨fun m => ?_, hfl.phase, hfl.nodup, hfl.called, hfl.inside, hfl.preceded⟩
    by_cases heq : m = n
    · rw [htask m, if_pos heq, heq]
      exact hflushed
    rw [htask m, if_neg heq]
    have hm := hfl.state m
    unfold Flushed at hm ⊢
    simp only [hother m heq] at hm
    exact hm
  exact ⟨_, hresult, (spawnOnly_modify s n _).trans (spawnOnly_spawnIfReady s₁ n),
    hfits₁.spawnIfReady n, hev₁.spawnIfReady hn hnot, hfl₁.spawnIfReady hn⟩

/-- `schedule_successors` does not panic and brings all counters up to date. -/
theorem scheduleSuccessors_spec (hrest : ∀ m ∈ rest, m ∈ plan.nodes) (hfits : Fits plan s)
    (hev : Evaluating plan (fun m => rest.count m) s)
    (hfl : Flushing plan (fun m => if flushComplete then rest.count m else 0) s) :
    ∃ s', scheduleSuccessors flushComplete rest s = .ok s' ∧ SpawnOnly s s' ∧ Fits plan s' ∧
      Evaluating plan (fun _ => 0) s' ∧ Flushing plan (fun _ => 0) s' := by
  induction rest generalizing s with
  | nil => exact ⟨s, rfl, .refl s, hfits, by simpa using hev, by simpa using hfl⟩
  | cons n rest ih =>
    obtain ⟨s₁, hnext, hspawn, hfits₁, hev₁, hfl₁⟩ :=
      scheduleSuccessor_spec (hrest n List.mem_cons_self) hfits hev hfl
    obtain ⟨s₂, hrun, hspawn', hfits₂, hev₂, hfl₂⟩ :=
      ih (fun m hm => hrest m (List.mem_cons_of_mem _ hm)) hfits₁ hev₁ hfl₁
    refine ⟨s₂, ?_, hspawn.trans hspawn', hfits₂, hev₂, hfl₂⟩
    rw [scheduleSuccessors, hnext]
    exact hrun

/-- `process_notifications` spawns tasks whose nodes can be evaluated. -/
theorem processNotifications_spec {nodes : List NodeId} (hnodes : ∀ m ∈ nodes, m ∈ plan.nodes)
    (hfits : Fits plan s) (hev : Evaluating plan pend s) (hfl : Flushing plan pend s) :
    SpawnOnly s (processNotifications nodes s) ∧ Fits plan (processNotifications nodes s) ∧
      Evaluating plan pend (processNotifications nodes s) ∧
      Flushing plan pend (processNotifications nodes s) := by
  induction nodes generalizing s with
  | nil => exact ⟨.refl s, hfits, hev, hfl⟩
  | cons n nodes ih =>
    have hstep : SpawnOnly s (s.processNotification n) ∧ Fits plan (s.processNotification n) ∧
        Evaluating plan pend (s.processNotification n) ∧
        Flushing plan pend (s.processNotification n) := by
      unfold processNotification
      dsimp only
      split
      · have hfits₁ : Fits plan (s.modify n fun task => { task with isReady := true }) := by
          refine hfits.of_same rfl fun m => ?_
          by_cases heq : m = n <;> simp [heq]
        have hev₁ : Evaluating plan pend (s.modify n fun task => { task with isReady := true }) := by
          refine hev.of_same rfl rfl fun m => ?_
          by_cases heq : m = n <;> simp [heq]
        have hfl₁ : Flushing plan pend (s.modify n fun task => { task with isReady := true }) := by
          refine hfl.of_same rfl rfl fun m => ?_
          by_cases heq : m = n <;> simp [heq]
        split
        · next hspawn =>
          have hn := hnodes n List.mem_cons_self
          have hnot : .start n ∉ s.evaluations := by simp [← hev.scheduled, hspawn.2]
          refine ⟨(spawnOnly_modify s n _).trans (spawnOnly_spawnTask _ n),
            hfits₁.spawnTask n, hev₁.spawnTask hn ?_ hnot, hfl₁.spawnTask hn⟩
          simpa using hspawn.1
        · exact ⟨spawnOnly_modify s n _, hfits₁, hev₁, hfl₁⟩
      · exact ⟨.refl s, hfits, hev, hfl⟩
    obtain ⟨hspawn, hfits₁, hev₁, hfl₁⟩ := hstep
    obtain ⟨hspawn', hrest⟩ := ih (fun m hm => hnodes m (List.mem_cons_of_mem _ hm)) hfits₁ hev₁ hfl₁
    exact ⟨hspawn.trans hspawn', hrest⟩

end

end Feldera.Circuit.Scheduler
