import Feldera.Circuit.SchedulerSafety

/-!
Runs of the scheduler. Between two actions the counters agree with what has been recorded, whatever
the order in which tasks end and notifications arrive.
-/

namespace Feldera.Circuit.Scheduler

open List

variable {plan : Plan} {s s' : Scheduler} {n : NodeId}

def EvaluatedOnce (nodes : List NodeId) (evaluations : List Evaluation) : Prop :=
  ∀ n ∈ nodes, evaluations.count (.start n) = 1 ∧ evaluations.count (.finish n) = 1

def FlushedOnce (nodes : List NodeId) (flushes : List Flush) : Prop :=
  ∀ n ∈ nodes, flushes.count (.call n) = 1 ∧ flushes.count (.complete n) = 1

structure Paused (plan : Plan) (s : Scheduler) : Prop where
  handles : s.handles = []
  nodup : s.evaluations.Nodup
  preceded : Preceded .start .finish plan.edges s.evaluations

def InControl (plan : Plan) (s : Scheduler) : Control → Prop
  | .looping completed => Evaluating plan (fun _ => 0) s ∧
      completed = plan.nodes.countP (isFinished s.evaluations) ∧ completed < plan.nodes.length
  | .outside => Paused plan s
  | .consensus result => Paused plan s ∧ (result = .ok () → EvaluatedOnce plan.nodes s.evaluations)

/-- If `step` has returned `Ok`, every node has been evaluated. -/
def Returned (plan : Plan) (s : Scheduler) : Prop :=
  s.control = .outside → s.result = .ok () → EvaluatedOnce plan.nodes s.evaluations

structure Sound (plan : Plan) (s : Scheduler) : Prop where
  fits : Fits plan s
  flushing : Flushing plan (fun _ => 0) s
  notified : ∀ n ∈ s.notified, n ∈ plan.nodes
  control : InControl plan s s.control

theorem Sound.evaluations (h : Sound plan s) :
    s.evaluations.Nodup ∧ Preceded .start .finish plan.edges s.evaluations := by
  have hcontrol := h.control
  unfold InControl at hcontrol
  split at hcontrol
  · exact ⟨hcontrol.1.nodup, hcontrol.1.preceded⟩
  · exact ⟨hcontrol.nodup, hcontrol.preceded⟩
  · exact ⟨hcontrol.1.nodup, hcontrol.1.preceded⟩

theorem Sound.of_same (h : Sound plan s) (hnodes : s'.nodes = s.nodes) (htask : s'.task = s.task)
    (hhandles : s'.handles = s.handles) (hevaluations : s'.evaluations = s.evaluations)
    (hflushes : s'.flushes = s.flushes) (hphase : s'.transactionPhase = s.transactionPhase)
    (hcontrol : s'.control = s.control) (hnotified : ∀ n ∈ s'.notified, n ∈ plan.nodes) :
    Sound plan s' := by
  refine ⟨h.fits.of_same hnodes fun m => ?_, h.flushing.of_same hflushes hphase fun m => ?_,
    hnotified, ?_⟩
  · rw [htask]
    exact ⟨rfl, rfl, rfl⟩
  · rw [htask]
  have hold := h.control
  rw [hcontrol]
  have hpaused : Paused plan s → Paused plan s' := fun hp =>
    ⟨hhandles.trans hp.handles, hevaluations ▸ hp.nodup, hevaluations ▸ hp.preceded⟩
  unfold InControl at hold ⊢
  split at hold
  · refine ⟨hold.1.of_same hevaluations hhandles fun m => ?_, ?_, hold.2.2⟩
    · rw [htask]
      exact ⟨rfl, rfl⟩
    · rw [hevaluations]
      exact hold.2.1
  · exact hpaused hold
  · rw [hevaluations]
    exact hold.imp_left hpaused

section

theorem spawnAll_spec {pend : NodeId → ℕ} {spawn : List NodeId} (hspawn : spawn.Nodup)
    (hready : ∀ m ∈ spawn, m ∈ plan.nodes ∧ (s.task m).unsatisfiedDependencies = 0 ∧
      .start m ∉ s.evaluations)
    (hfits : Fits plan s) (hev : Evaluating plan pend s) (hfl : Flushing plan pend s) :
    SpawnOnly s (spawn.foldl (fun s n => s.spawnTask n) s) ∧
      Fits plan (spawn.foldl (fun s n => s.spawnTask n) s) ∧
      Evaluating plan pend (spawn.foldl (fun s n => s.spawnTask n) s) ∧
      Flushing plan pend (spawn.foldl (fun s n => s.spawnTask n) s) := by
  induction spawn generalizing s with
  | nil => exact ⟨.refl s, hfits, hev, hfl⟩
  | cons n spawn ih =>
    obtain ⟨hnot, hspawn⟩ := nodup_cons.mp hspawn
    obtain ⟨hn, hzero, hstart⟩ := hready n mem_cons_self
    obtain ⟨hsame, hrest⟩ := ih hspawn
      (fun m hm => by
        obtain ⟨hm', hzero', hstart'⟩ := hready m (mem_cons_of_mem _ hm)
        refine ⟨hm', (spawnTask_same s n m).1.trans hzero', ?_⟩
        change _ ∉ s.evaluations ++ [.start n]
        simpa [ne_of_mem_of_not_mem hm hnot] using hstart')
      (hfits.spawnTask n) (hev.spawnTask hn hzero hstart) (hfl.spawnTask hn)
    exact ⟨(spawnOnly_spawnTask s n).trans hsame, hrest⟩

/-- At the beginning of a step nothing has been evaluated. -/
theorem Fits.resetTasks (h : Fits plan s) (hhandles : s.handles = []) :
    Evaluating plan (fun _ => 0) s.resetTasks := by
  refine ⟨h.numPredecessors, fun m => ?_, ?_, fun m => ?_, nodup_nil, nofun, nofun, nofun,
    preceded_nil⟩
  · change m ∈ s.handles ↔ _ ∈ ([] : List Evaluation) ∧ _
    simp [hhandles]
  · change s.handles.Nodup
    simp [hhandles]
  · change false = true ↔ _ ∈ ([] : List Evaluation)
    simp

theorem Sound.returnFromStep (hfits : Fits plan s) (hfl : Flushing plan (fun _ => 0) s)
    (hnotified : ∀ n ∈ s.notified, n ∈ plan.nodes) (hpaused : Paused plan s)
    {result : Except SchedulerError Unit}
    (hresult : result = .ok () → EvaluatedOnce plan.nodes s.evaluations) :
    Sound plan (s.returnFromStep result) ∧ Returned plan (s.returnFromStep result) := by
  unfold Scheduler.returnFromStep
  split
  · exact ⟨⟨hfits.of_same rfl fun m => ⟨rfl, rfl, rfl⟩, hfl.of_same rfl rfl fun m => rfl, hnotified,
      ⟨hpaused.handles, hpaused.nodup, hpaused.preceded⟩, hresult⟩, nofun⟩
  · exact ⟨⟨hfits.of_same rfl fun m => ⟨rfl, rfl, rfl⟩, hfl.of_same rfl rfl fun m => rfl, hnotified,
      ⟨hpaused.handles, hpaused.nodup, hpaused.preceded⟩⟩, fun _ => hresult⟩

theorem Sound.beginStep (h : Sound plan s) (hcontrol : s.control = .outside) {order : List NodeId}
    (horder : order.Perm s.nodes) :
    Sound plan (s.beginStep order) ∧ Returned plan (s.beginStep order) := by
  have hpaused := h.control
  rw [hcontrol] at hpaused
  unfold Scheduler.beginStep
  split
  rotate_left 2
  · exact ⟨h.of_same rfl rfl rfl rfl rfl rfl rfl h.notified, fun _ hresult => nomatch hresult⟩
  all_goals
    dsimp only
    split
    · next hempty =>
      have hnil : plan.nodes = [] := h.fits.nodes.symm.trans (isEmpty_iff.mp hempty)
      have hempty' : Paused plan { s with waiting := false, evaluations := [] } :=
        ⟨hpaused.handles, nodup_nil, preceded_nil⟩
      refine Sound.returnFromStep (s := { s with waiting := false, evaluations := [] })
        (h.fits.of_same rfl fun m => ⟨rfl, rfl, rfl⟩) (h.flushing.of_same rfl rfl fun m => rfl)
        h.notified hempty' fun _ => ?_
      rw [hnil]
      nofun
    · next hempty =>
      have hnodup : order.Nodup := horder.nodup_iff.mpr (h.fits.nodes ▸ plan.nodup)
      have hready : ∀ m ∈ order.filter (fun n =>
          decide ((s.resetTasks.task n).unsatisfiedDependencies = 0) &&
            (s.resetTasks.task n).isReady),
          m ∈ plan.nodes ∧ (s.resetTasks.task m).unsatisfiedDependencies = 0 ∧
            .start m ∉ s.resetTasks.evaluations := by
        intro m hm
        obtain ⟨hm, hready⟩ := mem_filter.mp hm
        rw [Bool.and_eq_true, decide_eq_true_eq] at hready
        exact ⟨h.fits.nodes ▸ horder.mem_iff.mp hm, hready.1, not_mem_nil⟩
      obtain ⟨hsame, hfits, hev, hfl⟩ := spawnAll_spec (hnodup.filter _) hready
        (h.fits.of_same rfl fun m => ⟨rfl, rfl, rfl⟩) (h.fits.resetTasks hpaused.handles)
        (h.flushing.of_same rfl rfl fun m => rfl)
      refine ⟨⟨hfits.of_same rfl fun m => ⟨rfl, rfl, rfl⟩, hfl.of_same rfl rfl fun m => rfl,
        fun m hm => h.notified m (hsame.notified ▸ hm),
        hev.of_same rfl rfl fun m => ⟨rfl, rfl⟩, ?_, ?_⟩, nofun⟩
      · refine Eq.trans ?_ (congrArg (plan.nodes.countP ·) hsame.finished).symm
        exact (countP_eq_zero.mpr fun m _ hm => absurd (of_decide_eq_true hm)
          not_mem_nil).symm
      · rw [← h.fits.nodes]
        exact length_pos_iff.mpr fun hnil => hempty (isEmpty_iff.mpr hnil)

end

section

variable {pend : NodeId → ℕ}

theorem FlushOnly.evaluating (h : FlushOnly s s') (hev : Evaluating plan pend s) :
    Evaluating plan pend s' := by
  obtain ⟨task, phase, flushes, hframe⟩ := h.frame
  refine hev.of_same (by rw [hframe]) (by rw [hframe]) fun m => ?_
  obtain ⟨state, hm⟩ := h.task m
  rw [hm]
  exact ⟨rfl, rfl⟩

theorem FlushOnly.fits (h : FlushOnly s s') (hfits : Fits plan s) : Fits plan s' := by
  obtain ⟨task, phase, flushes, hframe⟩ := h.frame
  refine hfits.of_same (by rw [hframe]) fun m => ?_
  obtain ⟨state, hm⟩ := h.task m
  rw [hm]
  exact ⟨rfl, rfl, rfl⟩

/-- If all nodes have been evaluated, no task is running, and no node waits for the last one. -/
theorem Evaluating.all_finished (h : Evaluating plan pend s)
    (hall : plan.nodes.countP (isFinished s.evaluations) = plan.nodes.length) :
    s.handles = [] ∧ EvaluatedOnce plan.nodes s.evaluations ∧
      ∀ m ∈ plan.nodes, pend m = 0 := by
  have hfinish : ∀ m ∈ plan.nodes, .finish m ∈ s.evaluations := fun m hm =>
    of_decide_eq_true (countP_eq_length.mp hall m hm)
  refine ⟨eq_nil_iff_forall_not_mem.mpr fun m hm => ?_, fun m hm => ?_, fun m hm => ?_⟩
  · obtain ⟨hstart, hnot⟩ := (h.handles m).mp hm
    exact hnot (hfinish m (h.inside m hstart))
  · exact ⟨count_eq_one_of_mem h.nodup (h.started m (hfinish m hm)),
      count_eq_one_of_mem h.nodup (hfinish m hm)⟩
  · have hzero := h.satisfied m (h.started m (hfinish m hm))
    have hcount := h.unsatisfied m
    omega

theorem Sound.abort (hfits : Fits plan s) (hfl : Flushing plan (fun _ => 0) s)
    (hnotified : ∀ n ∈ s.notified, n ∈ plan.nodes) (hnodup : s.evaluations.Nodup)
    (hpreceded : Preceded .start .finish plan.edges s.evaluations) (error : SchedulerError) :
    Sound plan (s.abort.returnFromStep (.error error)) ∧
      Returned plan (s.abort.returnFromStep (.error error)) :=
  have hpaused : Paused plan s.abort := ⟨rfl, hnodup, hpreceded⟩
  Sound.returnFromStep (s := s.abort) (hfits.of_same rfl fun _ => ⟨rfl, rfl, rfl⟩)
    (hfl.of_same rfl rfl fun _ => rfl) hnotified hpaused fun h => nomatch h

theorem Sound.joinNext (h : Sound plan s) {completed : ℕ} (hcontrol : s.control = .looping completed)
    (hn : n ∈ s.handles) (outcome : Outcome) :
    ∃ s', s.joinNext n outcome completed = .ok s' ∧ Sound plan s' ∧ Returned plan s' := by
  obtain ⟨hev, hcount, hlt⟩ : InControl plan s (.looping completed) := hcontrol ▸ h.control
  have hnode : n ∈ plan.nodes := hev.inside n ((hev.handles n).mp hn).1
  have hnot : Evaluation.finish n ∉ s.evaluations := ((hev.handles n).mp hn).2
  have hfits₁ : Fits plan (s.finishTask n) :=
    h.fits.of_same rfl fun m => (finishTask_same s n m).2.2.2
  have hfl₁ : Flushing plan (fun _ => 0) (s.finishTask n) :=
    h.flushing.of_same rfl rfl fun m => (finishTask_same s n m).2.2.1
  have hev₁ := hev.finishTask hn
  cases outcome with
  | cancelled =>
    exact ⟨_, rfl, Sound.abort (s := { s with handles := s.handles.erase n })
      (h.fits.of_same rfl fun m => ⟨rfl, rfl, rfl⟩) (h.flushing.of_same rfl rfl fun m => rfl)
      h.notified hev.nodup hev.preceded .tokioError⟩
  | failed error =>
    exact ⟨_, rfl, Sound.abort hfits₁ hfl₁ h.notified hev₁.nodup hev₁.preceded error⟩
  | progress progress flushComplete =>
    obtain ⟨s₂, complete, hend, honly, hfl₂⟩ := hfl₁.endFlush hnode progress flushComplete
    have hev₂ := honly.evaluating hev₁
    have hfits₂ := honly.fits hfits₁
    obtain ⟨task, phase, flushes, hframe⟩ := honly.frame
    have hnotified : ∀ m ∈ s₂.notified, m ∈ plan.nodes := by
      rw [hframe]
      exact h.notified
    have hfinished : plan.nodes.countP (isFinished s₂.evaluations) = completed + 1 := by
      rw [hcount, hframe]
      refine countP_insert plan.nodup hnode (decide_eq_false hnot) fun m => ?_
      change decide (_ ∈ s.evaluations ++ [.finish n]) = (decide (_ ∈ s.evaluations) || m == n)
      simp [Bool.beq_eq_decide_eq, Bool.decide_or]
    unfold Scheduler.joinNext
    dsimp only
    rw [hend]
    dsimp only
    split
    · next hlast =>
      rw [hfits₂.nodes] at hlast
      obtain ⟨hhandles, honce, hpend⟩ := hev₂.all_finished (hfinished.trans hlast)
      have hnone : ∀ m, (plan.after n).count m = 0 := by
        intro m
        by_cases hm : m ∈ plan.nodes
        · exact hpend m hm
        · exact count_eq_zero.mpr fun hafter =>
            hm (plan.within _ (Plan.mem_after.mp hafter)).2
      have hfl₃ : Flushing plan (fun _ => 0) s₂ := by simpa [hnone] using hfl₂
      exact ⟨_, rfl, Sound.returnFromStep hfits₂ hfl₃ hnotified 
        ⟨hhandles, hev₂.nodup, hev₂.preceded⟩ fun _ => honce⟩
    · next hmore =>
      have hafter : ∀ m ∈ plan.after n, m ∈ plan.nodes := fun m hm =>
        (plan.within _ (Plan.mem_after.mp hm)).2
      obtain ⟨s₃, hsched, hsame, hfits₃, hev₃, hfl₃⟩ :=
        scheduleSuccessors_spec hafter hfits₂ hev₂ hfl₂
      rw [hfits₂.successors, hsched]
      refine ⟨_, rfl, ⟨hfits₃.of_same rfl fun m => ⟨rfl, rfl, rfl⟩,
        hfl₃.of_same rfl rfl fun m => rfl, fun m hm => hnotified m (hsame.notified ▸ hm),
        hev₃.of_same rfl rfl fun m => ⟨rfl, rfl⟩, ?_, ?_⟩, nofun⟩
      · exact (hfinished.symm.trans (congrArg (plan.nodes.countP ·) hsame.finished).symm)
      · rw [hfits₂.nodes] at hmore
        omega

end

theorem Sound.wake (h : Sound plan s) {completed : ℕ} (hcontrol : s.control = .looping completed)
    {order : List NodeId} (horder : order.Perm s.notified) :
    Sound plan (processNotifications order { s with permit := false, notified := [] }) ∧
      Returned plan (processNotifications order { s with permit := false, notified := [] }) := by
  have hs : Sound plan { s with permit := false, notified := [] } :=
    h.of_same rfl rfl rfl rfl rfl rfl rfl nofun
  obtain ⟨hev, hcount, hlt⟩ :
      InControl plan { s with permit := false, notified := [] } (.looping completed) :=
    hcontrol ▸ hs.control
  obtain ⟨hsame, hfits, hev', hfl⟩ := processNotifications_spec
    (fun m hm => h.notified m (horder.mem_iff.mp hm)) hs.fits hev hs.flushing
  have hcontrol' := hsame.control.trans hcontrol
  refine ⟨⟨hfits, hfl, fun m hm => ?_, ?_⟩, fun hout => ?_⟩
  · rw [hsame.notified] at hm
    exact absurd hm not_mem_nil
  · rw [hcontrol']
    refine ⟨hev', ?_, hlt⟩
    rw [hsame.finished]
    exact hcount
  · exact nomatch hcontrol'.symm.trans hout

section

theorem Sound.startTransaction (h : Sound plan s) (hcontrol : s.control = .outside) :
    Sound plan s.startTransaction := by
  have hpaused : InControl plan s .outside := hcontrol ▸ h.control
  refine ⟨h.fits.of_same rfl fun m => ⟨rfl, rfl, rfl⟩,
    ⟨fun m => ⟨h.fits.numPredecessors m, not_mem_nil, not_mem_nil⟩, rfl, nodup_nil,
      nofun, nofun, preceded_nil⟩, h.notified, ?_⟩
  change InControl plan _ s.control
  rw [hcontrol]
  exact ⟨hpaused.handles, hpaused.nodup, hpaused.preceded⟩

theorem Sound.startCommitTransaction (h : Sound plan s) (hcontrol : s.control = .outside) :
    Sound plan s.startCommitTransaction := by
  have hpaused : InControl plan s .outside := hcontrol ▸ h.control
  unfold Scheduler.startCommitTransaction
  split
  · next hphase =>
    have hnone : s.flushes = [] := by
      have hp := h.flushing.phase
      rw [hphase] at hp
      exact hp
    refine ⟨h.fits.of_same rfl fun m => ⟨rfl, rfl, rfl⟩,
      ⟨h.flushing.state, ?_, h.flushing.nodup, h.flushing.called, h.flushing.inside,
        h.flushing.preceded⟩, h.notified, ?_⟩
    · change s.nodes.length = plan.nodes.countP fun m => !isFlushed s.flushes m
      rw [hnone, h.fits.nodes]
      exact (countP_eq_length.mpr fun m _ => rfl).symm
    · change InControl plan _ s.control
      rw [hcontrol]
      exact ⟨hpaused.handles, hpaused.nodup, hpaused.preceded⟩
  · exact h.of_same rfl rfl rfl rfl rfl rfl rfl h.notified

/-- A transaction is committed once all workers agree that nothing is left to be flushed. -/
theorem Sound.endStep (h : Sound plan s) {result : Except SchedulerError Unit}
    (hcontrol : s.control = .consensus result) (others : Option Bool) :
    Sound plan (s.endStep result others) ∧ Returned plan (s.endStep result others) := by
  obtain ⟨hpaused, honce⟩ : InControl plan s (.consensus result) := hcontrol ▸ h.control
  unfold Scheduler.endStep
  cases others with
  | none =>
    exact ⟨⟨h.fits.of_same rfl fun m => ⟨rfl, rfl, rfl⟩, h.flushing.of_same rfl rfl fun m => rfl,
      h.notified, ⟨hpaused.handles, hpaused.nodup, hpaused.preceded⟩⟩, fun _ hok => nomatch hok⟩
  | some vote =>
    refine ⟨⟨h.fits.of_same rfl fun m => ⟨rfl, rfl, rfl⟩,
      ⟨h.flushing.state, ?_, h.flushing.nodup, h.flushing.called, h.flushing.inside,
        h.flushing.preceded⟩, h.notified,
      ⟨hpaused.handles, hpaused.nodup, hpaused.preceded⟩⟩, fun _ => honce⟩
    dsimp only
    split
    · next hvote =>
      rw [Bool.and_eq_true, decide_eq_true_eq] at hvote
      have hp := h.flushing.phase
      rw [hvote.2] at hp
      intro m hm
      have hflushed := countP_eq_zero.mp (Eq.symm hp) m hm
      rw [Bool.not_eq_true, Bool.not_eq_false'] at hflushed
      exact of_decide_eq_true hflushed
    · exact h.flushing.phase

end

/-- `step` is running, or is called now. -/
def DuringStep (s : Scheduler) (a : Action) : Prop :=
  s.control ≠ .outside ∨ ∃ order, a = .step order

/-- Every action keeps the invariant, and the scheduler does not panic. -/
theorem Sound.next (h : Sound plan s) (a : Action) :
    s.next a = .error .disabled ∨
      ∃ s', s.next a = .ok s' ∧ Sound plan s' ∧ (DuringStep s a → Returned plan s') := by
  -- what others do does not end a step
  have hothers : ∀ s' : Scheduler, s'.control = s.control → (∀ order, a ≠ .step order) →
      DuringStep s a → Returned plan s' := by
    rintro s' hsame ha (hduring | ⟨order, heq⟩) houtside
    · exact absurd (hsame.symm.trans houtside) hduring
    · exact absurd heq (ha order)
  have hidle : s.control = .outside → (∀ order, a ≠ .step order) → ¬ DuringStep s a := by
    rintro houtside ha (hduring | ⟨order, heq⟩)
    · exact hduring houtside
    · exact ha order heq
  unfold Scheduler.next
  cases a with
  | startTransaction =>
    cases hc : s.control with
    | outside =>
      exact .inr ⟨_, rfl, h.startTransaction hc, fun hd => absurd hd (hidle hc nofun)⟩
    | _ => exact .inl rfl
  | startCommitTransaction =>
    cases hc : s.control with
    | outside =>
      exact .inr ⟨_, rfl, h.startCommitTransaction hc, fun hd => absurd hd (hidle hc nofun)⟩
    | _ => exact .inl rfl
  | step order =>
    cases hc : s.control with
    | outside =>
      dsimp only
      split
      · next horder =>
        exact .inr ⟨_, rfl, (h.beginStep hc horder).imp_right fun hreturned _ => hreturned⟩
      · exact .inl rfl
    | _ => exact .inl rfl
  | join node outcome =>
    cases hc : s.control with
    | looping completed =>
      dsimp only
      split
      · next hjoin =>
        obtain ⟨s', hok, hsound, hreturned⟩ := h.joinNext hc hjoin.1 outcome
        exact .inr ⟨s', hok, hsound, fun _ => hreturned⟩
      · exact .inl rfl
    | _ => exact .inl rfl
  | wake order =>
    dsimp only
    split
    · next completed hc =>
      split
      · next hwake =>
        exact .inr ⟨_, rfl, (h.wake hc hwake.2).imp_right fun hreturned _ => hreturned⟩
      · exact .inl rfl
    · exact .inl rfl
  | consensus others =>
    cases hc : s.control with
    | consensus result =>
      exact .inr ⟨_, rfl, (h.endStep hc others).imp_right fun hreturned _ => hreturned⟩
    | _ => exact .inl rfl
  | consume node =>
    dsimp only
    split
    · exact .inr ⟨_, rfl, h.of_same rfl rfl rfl rfl rfl rfl rfl h.notified,
        hothers _ rfl nofun⟩
    · exact .inl rfl
  | becomeReady node =>
    dsimp only
    split
    · exact .inr ⟨_, rfl, h.of_same rfl rfl rfl rfl rfl rfl rfl h.notified,
        hothers _ rfl nofun⟩
    · exact .inl rfl
  | callback node =>
    dsimp only
    split
    · next hnode =>
      refine .inr ⟨_, rfl, h.of_same rfl rfl rfl rfl rfl rfl rfl fun m hm => ?_,
        hothers _ rfl nofun⟩
      split at hm
      · exact h.notified m hm
      · rcases mem_append.mp hm with hm | hm
        · exact h.notified m hm
        · rw [mem_singleton.mp hm, ← h.fits.nodes]
          exact hnode.1
    · exact .inl rfl
  | notifyOne =>
    cases s.notifying with
    | zero => exact .inl rfl
    | succ notifying =>
      exact .inr ⟨_, rfl, h.of_same rfl rfl rfl rfl rfl rfl rfl h.notified, hothers _ rfl nofun⟩

theorem prepare_sound {circuit : CircuitGraph} {nodes : Option (List NodeId)} {ready : NodeId → Bool}
    {constraints : List (NodeId × NodeId)}
    (hconstraints : ownershipConstraints circuit.edges = .ok constraints)
    (h : prepare circuit nodes ready = .ok s) :
    s.nodes = (nodes.getD circuit.nodeIds).dedup ∧ ∃ plan : Plan, plan.nodes = s.nodes ∧
      plan.edges = dependencies circuit s.nodes constraints ∧ Sound plan s := by
  unfold prepare at h
  rw [hconstraints] at h
  simp only [bind, Except.bind] at h
  split at h
  · cases h
    refine ⟨rfl, ⟨_, dependencies circuit _ constraints, circuit.isAsyncNode, nodup_dedup _,
      fun e he => ?_⟩, rfl, rfl, ⟨rfl, fun n => ?_, fun n => rfl, fun n => rfl⟩,
      ⟨fun n => ⟨?_, not_mem_nil, not_mem_nil⟩, rfl, nodup_nil, nofun, nofun,
        preceded_nil⟩, fun n hn => (mem_filter.mp hn).1, rfl, nodup_nil, preceded_nil⟩
    · have hin := (mem_filter.mp he).2
      rw [Bool.and_eq_true, contains_iff_mem, contains_iff_mem] at hin
      exact hin
    · unfold unmet
      rw [countP_eq_length_filter]
      simp [newTask]
    · unfold unmet
      rw [countP_eq_length_filter]
      simp [isFlushed]
  · cases h

theorem sound_invariant (plan : Plan) :
    Machine.Invariant next (fun _ _ => True) (Sound plan) :=
  ⟨fun {s a s'} h _ hnext => by
    rcases h.next a with hdisabled | ⟨s₁, hok, hsound, -⟩
    · rw [hdisabled] at hnext
      cases hnext
    · obtain rfl := Except.ok.inj (hok.symm.trans hnext)
      exact hsound⟩

/-- In every run, no node is evaluated twice in a step or flushed twice in a transaction, and each
only after its predecessors. A step that returns `Ok` has evaluated all nodes, and a transaction
whose commit is complete has flushed all nodes. The scheduler does not panic. -/
theorem evaluates_and_flushes_in_order {circuit : CircuitGraph} {nodes : Option (List NodeId)}
    {ready : NodeId → Bool} {constraints : List (NodeId × NodeId)} {s₀ : Scheduler}
    (hconstraints : ownershipConstraints circuit.edges = .ok constraints)
    (hprepare : prepare circuit nodes ready = .ok s₀) (actions : List Action) :
    s₀.nodes = (nodes.getD circuit.nodeIds).dedup ∧
    Machine.run next s₀ actions ≠ .error .panic ∧
    ∀ s, Machine.run next s₀ actions = .ok s →
      (s.evaluations.Nodup ∧
        Preceded .start .finish (dependencies circuit s₀.nodes constraints) s.evaluations) ∧
      (s.flushes.Nodup ∧
        Preceded .call .complete (dependencies circuit s₀.nodes constraints) s.flushes) ∧
      (s.transactionPhase = .commitComplete → FlushedOnce s₀.nodes s.flushes) ∧
      ∀ a s', s.next a = .ok s' → DuringStep s a → s'.control = .outside → s'.result = .ok () →
        EvaluatedOnce s₀.nodes s'.evaluations := by
  obtain ⟨hnodes, plan, hplan, hedges, hsound₀⟩ := prepare_sound hconstraints hprepare
  refine ⟨hnodes, Machine.run_ne_error (sound_invariant plan) (fun {s a} h _ heq => ?_) hsound₀
    (Machine.guarded_true s₀ actions), fun s hrun => ?_⟩
  · rcases h.next a with hdisabled | ⟨s₁, hok, -, -⟩
    · exact nomatch hdisabled.symm.trans heq
    · exact nomatch hok.symm.trans heq
  have hsound := Machine.run_invariant (sound_invariant plan) hsound₀
    (Machine.guarded_true s₀ actions) hrun
  rw [← hedges, ← hplan]
  refine ⟨hsound.evaluations, ⟨hsound.flushing.nodup, hsound.flushing.preceded⟩,
    fun hphase n hn => ?_, fun a s' hnext hduring => ?_⟩
  · have hcomplete : ∀ n ∈ plan.nodes, .complete n ∈ s.flushes := by
      have hp := hsound.flushing.phase
      rw [hphase] at hp
      exact hp
    exact ⟨count_eq_one_of_mem hsound.flushing.nodup
        (hsound.flushing.called n (hcomplete n hn)),
      count_eq_one_of_mem hsound.flushing.nodup (hcomplete n hn)⟩
  · rcases hsound.next a with hdisabled | ⟨s₁, hok, -, hreturned⟩
    · exact nomatch hdisabled.symm.trans hnext
    · obtain rfl := Except.ok.inj (hok.symm.trans hnext)
      exact hreturned hduring

def fork : CircuitGraph where
  nodeIds := [0, 1, 2]
  edges := [⟨0, 1, [0], some 0, some 100⟩, ⟨0, 2, [0], some 0, some 0⟩]
  isAsyncNode n := n == 0

/-- A transaction of one step. Node 2 needs to be evaluated before node 1. -/
def forkActions : List Action :=
  [.startTransaction, .startCommitTransaction, .step [2, 1, 0], .becomeReady 0, .callback 0,
    .notifyOne, .wake [0], .consume 0, .join 0 (.progress none true),
    .join 2 (.progress none true), .join 1 (.progress none true)]

theorem fork_runs : ∃ s₀ s s', prepare fork none (fun _ => false) = .ok s₀ ∧
    Machine.run next s₀ forkActions = .ok s ∧ s.control = .consensus (.ok ()) ∧
    s.next (.consensus (some true)) = .ok s' ∧
    s'.result = .ok () ∧ s'.transactionPhase = .commitComplete := by
  exact ⟨_, _, _, rfl, rfl, rfl, rfl, rfl, rfl⟩

theorem evaluates_and_flushes_in_order_fork : ∃ s₀ s s',
    ownershipConstraints fork.edges = .ok [(2, 1)] ∧
    prepare fork none (fun _ => false) = .ok s₀ ∧
    Machine.run next s₀ forkActions = .ok s ∧
    s.next (.consensus (some true)) = .ok s' ∧ EvaluatedOnce s₀.nodes s'.evaluations := by
  obtain ⟨s₀, s, s', hprepare, hrun, hcontrol, hnext, hresult, -⟩ := fork_runs
  have hconstraints : ownershipConstraints fork.edges = .ok [(2, 1)] := by decide
  have hall := (evaluates_and_flushes_in_order hconstraints hprepare forkActions).2.2 s hrun
  refine ⟨s₀, s, s', hconstraints, hprepare, hrun, hnext, ?_⟩
  refine hall.2.2.2 _ s' hnext (.inl ?_) ?_ hresult
  · rw [hcontrol]
    nofun
  · simp only [next, hcontrol, Except.ok.injEq] at hnext
    rw [← hnext]
    rfl

end Feldera.Circuit.Scheduler
