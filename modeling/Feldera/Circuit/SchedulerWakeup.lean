import Feldera.Algebra.Checked
import Feldera.Circuit.SchedulerRun

/-!
Wake-ups. The scheduler must not wait for a notification while a node could be evaluated. It
remembers that an asynchronous node is ready in `is_ready`, which notifications set and which the end
of the node's task clears. A notification that is processed while the task is still running, on input
that it has already taken, is cleared with the old one; all others are kept until the node is
scheduled.
-/

namespace Feldera.Circuit.Scheduler

open List Function

variable {plan : Plan} {s s' : Scheduler} {n : NodeId} {pending : List NodeId}

/-- The scheduler waits, nothing will wake it up, and yet a node could be evaluated. -/
def Blocked (edges : List (NodeId × NodeId)) (s : Scheduler) : Prop :=
  (∃ completed, s.control = .looping completed) ∧ s.handles = [] ∧
    s.permit = false ∧ s.notifying = 0 ∧ s.owed = [] ∧
    ∃ n ∈ s.nodes, (s.task n).scheduled = false ∧
      (∀ p, (p, n) ∈ edges → .finish p ∈ s.evaluations) ∧
      ((s.task n).isAsync = true → s.ready n = true)

/-- A node that is ready will be noticed: its callback is still to come, it is one of `pending`, or
its task says so and has not taken its input. -/
def Remembered (pending : List NodeId) (s : Scheduler) : Prop :=
  ∀ n ∈ s.nodes, (s.task n).isAsync = true → s.ready n = true →
    n ∈ s.owed ∨ n ∈ pending ∨
      ((s.task n).isReady = true ∧ ¬ (n ∈ s.handles ∧ s.consumed n = true))

structure Alert (s : Scheduler) : Prop where
  remembered : Remembered s.notified s
  woken : s.notified ≠ [] → s.permit = true ∨ 0 < s.notifying
  synchronous : ∀ n, (s.task n).isAsync = false → (s.task n).isReady = true

/-- Every node but `except` that can be evaluated has been scheduled. -/
def PromptBut (except : NodeId → Prop) (s : Scheduler) : Prop :=
  ∀ n ∈ s.nodes, ¬ except n → (s.task n).unsatisfiedDependencies = 0 →
    (s.task n).isReady = true → (s.task n).scheduled = true

/-- Every node that can be evaluated has been scheduled. -/
def Prompt : Scheduler → Prop := PromptBut fun _ => False

/-- No ready node is forgotten when tasks become ready, are spawned, or end with their nodes not
ready. -/
theorem Remembered.mono (h : Remembered pending s) (hnodes : s'.nodes = s.nodes)
    (howed : s'.owed = s.owed)
    (htask : ∀ m, (s'.task m).isAsync = (s.task m).isAsync ∧
      ((s.task m).isReady = true → (s'.task m).isReady = true))
    (hready : ∀ m, s'.ready m = true → s.ready m = true)
    (htaken : ∀ m, m ∈ s'.handles ∧ s'.consumed m = true → m ∈ s.handles ∧ s.consumed m = true) :
    Remembered pending s' := by
  intro m hm hasync hr
  rw [hnodes] at hm
  rw [(htask m).1] at hasync
  rw [howed]
  exact (h m hm hasync (hready m hr)).imp_right (.imp_right (.imp (htask m).2 (mt (htaken m))))

structure Calm (s s' : Scheduler) : Prop where
  spawn : SpawnOnly s s'
  task : ∀ m, (s'.task m).isAsync = (s.task m).isAsync ∧
    ((s.task m).isReady = true → (s'.task m).isReady = true)
  taken : ∀ m, m ∈ s'.handles ∧ s'.consumed m = true → m ∈ s.handles ∧ s.consumed m = true

theorem Calm.refl (s : Scheduler) : Calm s s :=
  ⟨.refl s, fun _ => ⟨rfl, id⟩, fun _ => id⟩

theorem Calm.trans {s'' : Scheduler} (h : Calm s s') (h' : Calm s' s'') : Calm s s'' :=
  ⟨h.spawn.trans h'.spawn,
    fun m => ⟨(h'.task m).1.trans (h.task m).1, fun hm => (h'.task m).2 ((h.task m).2 hm)⟩,
    fun m hm => h.taken m (h'.taken m hm)⟩

theorem Calm.remembered (h : Calm s s') (hs : Remembered pending s) : Remembered pending s' :=
  hs.mono h.spawn.nodes h.spawn.owed h.task (fun m hm => by rwa [h.spawn.ready] at hm) h.taken

theorem Calm.synchronous (h : Calm s s')
    (hs : ∀ n, (s.task n).isAsync = false → (s.task n).isReady = true) :
    ∀ n, (s'.task n).isAsync = false → (s'.task n).isReady = true := fun n hn =>
  (h.task n).2 (hs n ((h.task n).1 ▸ hn))

theorem Calm.alert (h : Calm s s') (hs : Alert s) : Alert s' := by
  refine ⟨?_, ?_, h.synchronous hs.synchronous⟩
  · rw [h.spawn.notified]
    exact h.remembered hs.remembered
  · rw [h.spawn.notified, h.spawn.permit, h.spawn.notifying]
    exact hs.woken

section

theorem calm_modify {f : Task → Task} (hasync : (f (s.task n)).isAsync = (s.task n).isAsync)
    (hready : (s.task n).isReady = true → (f (s.task n)).isReady = true) :
    Calm s (s.modify n f) := by
  refine ⟨spawnOnly_modify s n f, fun m => ?_, fun m => id⟩
  rw [modify_task]
  split
  · next heq =>
    rw [heq]
    exact ⟨hasync, hready⟩
  · exact ⟨rfl, id⟩

theorem calm_spawnTask (s : Scheduler) (n : NodeId) : Calm s (s.spawnTask n) := by
  refine ⟨spawnOnly_spawnTask s n, fun m => ?_, fun m hm => ?_⟩
  · obtain ⟨-, hready, -, -, hasync⟩ := spawnTask_same s n m
    rw [hready]
    exact ⟨hasync, id⟩
  change m ∈ s.handles ++ [n] ∧ update s.consumed n false m = true at hm
  rw [update_apply] at hm
  split at hm
  · exact nomatch hm.2
  · next hne =>
    rw [mem_append, mem_singleton] at hm
    exact ⟨hm.1.resolve_right hne, hm.2⟩

variable {except : NodeId → Prop}

theorem PromptBut.spawnTask (h : PromptBut except s) :
    PromptBut (fun m => except m ∧ m ≠ n) (s.spawnTask n) := by
  intro m hm hexcept hzero hready
  obtain ⟨hzero', hready', -⟩ := spawnTask_same s n m
  rw [hzero'] at hzero
  rw [hready'] at hready
  rw [spawnTask_task]
  split
  · rfl
  · next hne => exact h m hm (fun he => hexcept ⟨he, hne⟩) hzero hready

theorem PromptBut.weaken {except except' : NodeId → Prop} (h : PromptBut except s)
    (hexcept : ∀ m, except m → except' m) : PromptBut except' s := fun m hm hnot =>
  h m hm fun he => hnot (hexcept m he)

theorem PromptBut.modify (h : PromptBut except s) (f : Task → Task) :
    PromptBut (fun m => except m ∨ m = n) (s.modify n f) := by
  intro m hm hexcept
  rw [modify_task, if_neg fun heq => hexcept (.inr heq)]
  exact h m hm fun he => hexcept (.inl he)

variable {flushComplete : Bool}

/-- A successor whose last predecessor has been evaluated is scheduled if it is ready. -/
theorem scheduleSuccessor_calm (h : scheduleSuccessor flushComplete n s = .ok s') :
    Calm s s' ∧ (Prompt s → Prompt s') := by
  unfold scheduleSuccessor at h
  split at h
  · next unsatisfied state hunsatisfied hstate =>
    cases h
    have hcalm : Calm s (s.modify n fun task => { task with
        unsatisfiedDependencies := unsatisfied
        flushState := state }) := calm_modify rfl id
    have hbut := fun hs : Prompt s => hs.modify (n := n) fun task => { task with
      unsatisfiedDependencies := unsatisfied
      flushState := state }
    unfold spawnIfReady
    split
    · exact ⟨hcalm.trans (calm_spawnTask _ n), fun hs => (hbut hs).spawnTask.weaken
        fun m hm => hm.1.elim id hm.2⟩
    · next hnot =>
      refine ⟨hcalm, fun hs m hm _ hzero hready => ?_⟩
      by_cases heq : m = n
      · subst heq
        exact absurd ⟨hzero, hready⟩ hnot
      · exact hbut hs m hm (fun hex => hex.elim id heq) hzero hready
  · cases h

theorem scheduleSuccessors_calm {rest : List NodeId}
    (h : scheduleSuccessors flushComplete rest s = .ok s') :
    Calm s s' ∧ (Prompt s → Prompt s') := by
  induction rest generalizing s with
  | nil =>
    obtain rfl := Except.ok.inj h
    exact ⟨.refl s, id⟩
  | cons n rest ih =>
    unfold scheduleSuccessors at h
    obtain ⟨s₁, hnext, h⟩ := Checked.bind_eq_ok.mp h
    obtain ⟨hcalm, hprompt⟩ := scheduleSuccessor_calm hnext
    obtain ⟨hcalm', hprompt'⟩ := ih h
    exact ⟨hcalm.trans hcalm', fun hs => hprompt' (hprompt hs)⟩

/-- A node that is ready is noticed, unless it is running on input that it has already taken. -/
theorem processNotification_calm (s : Scheduler) (n : NodeId) :
    Calm s (s.processNotification n) ∧ (Prompt s → Prompt (s.processNotification n)) ∧
      ((s.task n).isReady = true ∨ s.ready n = true →
        ((s.processNotification n).task n).isReady = true) := by
  unfold processNotification
  dsimp only
  split
  · have hcalm : Calm s (s.modify n fun task => { task with isReady := true }) :=
      calm_modify rfl fun _ => rfl
    have hbut := fun hs : Prompt s => hs.modify (n := n) fun task => { task with isReady := true }
    have hready : ((s.modify n fun task => { task with isReady := true }).task n).isReady =
        true := by
      rw [modify_task, if_pos rfl]
    split
    · exact ⟨hcalm.trans (calm_spawnTask _ n), fun hs => (hbut hs).spawnTask.weaken
        fun m hm => hm.1.elim id hm.2, fun _ => (spawnTask_same _ n n).2.1.trans hready⟩
    · next hnot =>
      refine ⟨hcalm, fun hs m hm _ hzero hisReady => ?_, fun _ => hready⟩
      by_cases heq : m = n
      · subst heq
        rw [modify_task, if_pos rfl] at hzero ⊢
        cases hscheduled : (s.task m).scheduled with
        | true => rfl
        | false => exact absurd ⟨hzero, hscheduled⟩ hnot
      · exact hbut hs m hm (fun hex => hex.elim id heq) hzero hisReady
  · next hnot =>
    refine ⟨.refl s, id, fun h => ?_⟩
    rcases h with hready | hready
    · exact hready
    · by_contra hfalse
      exact hnot ⟨Bool.eq_false_iff.mpr hfalse, hready⟩

theorem processNotifications_calm {order : List NodeId}
    (hs : Remembered order s)
    (hkeeps : ∀ n ∈ order, s.ready n = true → ¬ (n ∈ s.handles ∧ s.consumed n = true)) :
    Calm s (processNotifications order s) ∧ (Prompt s → Prompt (processNotifications order s)) ∧
      Remembered [] (processNotifications order s) := by
  induction order generalizing s with
  | nil => exact ⟨.refl s, id, hs⟩
  | cons n order ih =>
    obtain ⟨hcalm, hprompt, hready⟩ := processNotification_calm s n
    have hrest : Remembered order (s.processNotification n) := by
      intro m hm hasync hr
      refine (hcalm.remembered hs m hm hasync hr).imp_right (Or.elim · (fun hp => ?_) .inr)
      rcases mem_cons.mp hp with rfl | hp
      · have hr' : s.ready m = true := by rwa [hcalm.spawn.ready] at hr
        exact .inr ⟨hready (.inr hr'),
          fun ht => hkeeps m mem_cons_self hr' (hcalm.taken m ht)⟩
      · exact .inl hp
    obtain ⟨hcalm', hprompt', hdone⟩ := ih hrest fun m hm hr ht =>
      hkeeps m (mem_cons_of_mem _ hm) (by rwa [hcalm.spawn.ready] at hr) (hcalm.taken m ht)
    exact ⟨hcalm.trans hcalm', fun h => hprompt' (hprompt h), hdone⟩

/-- All nodes that can be evaluated at the beginning of a step are scheduled. -/
theorem spawnAll_calm (s : Scheduler) (spawn : List NodeId) :
    Calm s (spawn.foldl (fun s n => s.spawnTask n) s) ∧ ∀ {except : NodeId → Prop},
      PromptBut except s → PromptBut (fun m => except m ∧ m ∉ spawn)
        (spawn.foldl (fun s n => s.spawnTask n) s) := by
  induction spawn generalizing s with
  | nil => exact ⟨.refl s, fun h => h.weaken fun m hm => ⟨hm, not_mem_nil⟩⟩
  | cons n spawn ih =>
    obtain ⟨hcalm, hprompt⟩ := ih (s.spawnTask n)
    refine ⟨(calm_spawnTask s n).trans hcalm, fun h => (hprompt h.spawnTask).weaken fun m hm => ?_⟩
    exact ⟨hm.1.1, fun hin => (mem_cons.mp hin).elim hm.1.2 hm.2⟩

end

section

theorem Alert.returnFromStep (h : Alert s) (result : Except SchedulerError Unit) :
    Alert (s.returnFromStep result) := by
  unfold Scheduler.returnFromStep
  split
  · exact ⟨h.remembered, h.woken, h.synchronous⟩
  · exact ⟨h.remembered, h.woken, h.synchronous⟩

/-- The tasks that `abort` waits for take their input. -/
theorem Alert.abort (h : Alert s) : Alert s.abort := by
  refine ⟨h.remembered.mono rfl rfl (fun m => ⟨rfl, id⟩) (fun m hm => ?_)
    fun m hm => absurd hm.1 not_mem_nil, h.woken, h.synchronous⟩
  change (if _ then false else s.ready m) = true at hm
  split at hm
  · cases hm
  · exact hm

/-- If the node of a task that has ended is ready again, a callback says so. -/
theorem Alert.finishTask (h : Alert s) (hn : n ∈ s.handles)
    (hconsumed : (s.task n).isAsync = true → s.consumed n = true) : Alert (s.finishTask n) := by
  refine ⟨fun m hm hasync hr => ?_, h.woken, fun m hm => ?_⟩
  · rw [(finishTask_same s n m).2.2.2.2.2] at hasync
    refine (h.remembered m hm hasync hr).imp_right (.imp_right fun ⟨hready, hnot⟩ => ?_)
    have hne : m ≠ n := by
      rintro rfl
      exact hnot ⟨hn, hconsumed hasync⟩
    refine ⟨?_, fun ht => hnot ⟨mem_of_mem_erase ht.1, ht.2⟩⟩
    rw [finishTask_task, if_neg hne]
    exact hready
  · rw [(finishTask_same s n m).2.2.2.2.2] at hm
    rw [finishTask_task]
    split
    · next heq =>
      subst heq
      exact (if_neg (Bool.eq_false_iff.mp hm)).trans (h.synchronous m hm)
    · exact h.synchronous m hm

theorem Prompt.finishTask (h : Prompt s) : Prompt (s.finishTask n) := by
  intro m hm hno hzero hready
  obtain ⟨hzero', hscheduled, -⟩ := finishTask_same s n m
  rw [hscheduled]
  refine h m hm hno (hzero'.symm.trans hzero) ?_
  rw [finishTask_task] at hready
  split at hready
  · next heq =>
    split at hready
    · cases hready
    · rw [heq]
      exact hready
  · exact hready

theorem FlushOnly.alert (h : FlushOnly s s') (hs : Alert s) : Alert s' := by
  obtain ⟨task, phase, flushes, rfl⟩ := h.frame
  have hsame : ∀ m, (task m).isAsync = (s.task m).isAsync ∧
      (task m).isReady = (s.task m).isReady := by
    intro m
    obtain ⟨state, hm⟩ := h.task m
    change task m = _ at hm
    rw [hm]
    exact ⟨rfl, rfl⟩
  refine ⟨hs.remembered.mono rfl rfl (fun m => ⟨(hsame m).1, fun hr => (hsame m).2.trans hr⟩)
    (fun m => id) fun m => id, hs.woken, fun m hm => (hsame m).2.trans ?_⟩
  exact hs.synchronous m ((hsame m).1.symm.trans hm)

theorem FlushOnly.prompt (h : FlushOnly s s') (hs : Prompt s) : Prompt s' := by
  obtain ⟨task, phase, flushes, rfl⟩ := h.frame
  intro m hm hno hzero hready
  obtain ⟨state, htask⟩ := h.task m
  rw [htask] at hzero hready ⊢
  exact hs m hm hno hzero hready

structure Attentive (s : Scheduler) : Prop where
  alert : Alert s
  prompt : ∀ completed, s.control = .looping completed → Prompt s

theorem Alert.attentive_returnFromStep (h : Alert s) (result : Except SchedulerError Unit) :
    Attentive (s.returnFromStep result) := by
  refine ⟨h.returnFromStep result, fun completed hcontrol => ?_⟩
  unfold Scheduler.returnFromStep at hcontrol
  split at hcontrol <;> cases hcontrol

variable {order : List NodeId}

/-- A step begins with every node scheduled that is ready and has no predecessors. -/
theorem Attentive.beginStep (h : Attentive s) (hcontrol : s.control = .outside)
    (horder : order.Perm s.nodes) : Attentive (s.beginStep order) := by
  obtain ⟨hremembered, hwoken, hsynchronous⟩ := h.alert
  unfold Scheduler.beginStep
  split
  rotate_left 2
  · refine ⟨⟨hremembered, hwoken, hsynchronous⟩, fun completed hc => ?_⟩
    exact nomatch hcontrol.symm.trans hc
  all_goals
    dsimp only
    split
    · exact Alert.attentive_returnFromStep
        (s := { s with waiting := false, evaluations := [] }) ⟨hremembered, hwoken, hsynchronous⟩ _
    generalize hspawn : (order.filter fun n =>
      decide ((s.resetTasks.task n).unsatisfiedDependencies = 0) &&
        (s.resetTasks.task n).isReady) = spawn
    obtain ⟨hcalm, hprompt⟩ := spawnAll_calm s.resetTasks spawn
    have halert := hcalm.alert (s := s.resetTasks) ⟨hremembered, hwoken, hsynchronous⟩
    have hbut : PromptBut (· ∈ spawn) s.resetTasks := by
      intro m hm hnot hzero hready
      refine absurd ?_ hnot
      rw [← hspawn]
      exact mem_filter.mpr ⟨horder.mem_iff.mpr hm, by simp [hzero, hready]⟩
    exact ⟨⟨halert.remembered, halert.woken, halert.synchronous⟩,
      fun _ _ => (hprompt hbut).weaken fun m hm => hm.2 hm.1⟩

variable {completed : ℕ}

/-- A task that has ended leaves no successor behind that could be evaluated. -/
theorem Attentive.joinNext (h : Attentive s) (hs : Sound plan s)
    (hcontrol : s.control = .looping completed) (hn : n ∈ s.handles) {outcome : Outcome}
    (hconsumed : (s.task n).isAsync = true → s.consumed n = true ∨ outcome = .cancelled)
    (hjoin : s.joinNext n outcome completed = .ok s') : Attentive s' := by
  obtain ⟨hev, -⟩ : InControl plan s (.looping completed) := hcontrol ▸ hs.control
  have hnode : n ∈ plan.nodes := hev.inside n ((hev.handles n).mp hn).1
  have hprompt := (h.prompt completed hcontrol).finishTask (n := n)
  cases outcome with
  | cancelled =>
    cases hjoin
    have halert : Alert { s with handles := s.handles.erase n } :=
      ⟨h.alert.remembered.mono rfl rfl (fun m => ⟨rfl, id⟩) (fun m => id)
        fun m hm => ⟨mem_of_mem_erase hm.1, hm.2⟩, h.alert.woken, h.alert.synchronous⟩
    exact halert.abort.attentive_returnFromStep _
  | failed error =>
    cases hjoin
    have halert := h.alert.finishTask hn fun ha => (hconsumed ha).resolve_right nofun
    exact halert.abort.attentive_returnFromStep _
  | progress progress flushComplete =>
    have halert := h.alert.finishTask hn fun ha => (hconsumed ha).resolve_right nofun
    have hfl₁ : Flushing plan (fun _ => 0) (s.finishTask n) :=
      hs.flushing.of_same rfl rfl fun m => (finishTask_same s n m).2.2.1
    obtain ⟨s₂, complete, hend, honly, -⟩ := hfl₁.endFlush hnode progress flushComplete
    unfold Scheduler.joinNext at hjoin
    dsimp only at hjoin
    rw [hend] at hjoin
    dsimp only at hjoin
    split at hjoin
    · cases hjoin
      exact (honly.alert halert).attentive_returnFromStep _
    cases hsched : scheduleSuccessors complete (s₂.task n).successors s₂ with
    | error stop =>
      rw [hsched] at hjoin
      cases hjoin
    | ok s₃ =>
      rw [hsched] at hjoin
      cases hjoin
      obtain ⟨hcalm, hkept⟩ := scheduleSuccessors_calm hsched
      have halert₃ := hcalm.alert (honly.alert halert)
      exact ⟨⟨halert₃.remembered, halert₃.woken, halert₃.synchronous⟩,
        fun _ _ => hkept (honly.prompt hprompt)⟩

theorem Attentive.wake (h : Attentive s) (hcontrol : s.control = .looping completed)
    (horder : order.Perm s.notified)
    (hkeeps : ∀ n ∈ s.notified, s.ready n = true → ¬ (n ∈ s.handles ∧ s.consumed n = true)) :
    Attentive (processNotifications order { s with permit := false, notified := [] }) := by
  have hs : Remembered order { s with permit := false, notified := [] } := by
    intro m hm hasync hr
    exact (h.alert.remembered m hm hasync hr).imp_right (.imp_left horder.mem_iff.mpr)
  obtain ⟨hcalm, hprompt, hdone⟩ := processNotifications_calm hs fun m hm =>
    hkeeps m (horder.mem_iff.mp hm)
  refine ⟨⟨?_, fun hne => ?_, hcalm.synchronous h.alert.synchronous⟩, fun _ _ => ?_⟩
  · rw [hcalm.spawn.notified]
    exact hdone
  · rw [hcalm.spawn.notified] at hne
    exact absurd rfl hne
  · exact hprompt (h.prompt completed hcontrol)

end

/-- No notification is processed for a node that has become ready again while the scheduler still
counts its task as running. -/
def KeepsNotifications (s : Scheduler) : Action → Prop
  | .wake _ => ∀ n ∈ s.notified, s.ready n = true → ¬ (n ∈ s.handles ∧ s.consumed n = true)
  | _ => True

theorem mem_added {nodes : List NodeId} {m : NodeId} :
    m ∈ (if n ∈ nodes then nodes else nodes ++ [n]) ↔ m ∈ nodes ∨ m = n := by
  split
  · next hin => exact ⟨.inl, fun hm => hm.elim id fun heq => heq ▸ hin⟩
  · simp

/-- Every action that loses no notification keeps what is remembered. -/
theorem Attentive.next (h : Attentive s) (hs : Sound plan s) {a : Action}
    (hkeeps : KeepsNotifications s a) (hnext : s.next a = .ok s') : Attentive s' := by
  have hsame : ∀ s' : Scheduler, Alert s' → s'.nodes = s.nodes → s'.task = s.task →
      s'.control = s.control → Attentive s' := by
    intro s' halert hnodes htask hcontrol
    refine ⟨halert, fun completed hc m hm => ?_⟩
    rw [htask]
    exact h.prompt completed (hcontrol.symm.trans hc) m (hnodes ▸ hm)
  have hidle : ∀ s' : Scheduler, Alert s' → s.control = .outside → s'.control = s.control →
      Attentive s' := fun s' halert hout hcontrol =>
    ⟨halert, fun completed hc => nomatch hout.symm.trans (hcontrol.symm.trans hc)⟩
  obtain ⟨hremembered, hwoken, hsynchronous⟩ := h.alert
  cases a with dsimp only [Scheduler.next] at hnext
  | startTransaction =>
    split at hnext
    · next hout =>
      cases hnext
      exact hidle _ ⟨hremembered, hwoken, hsynchronous⟩ hout rfl
    · cases hnext
  | startCommitTransaction =>
    split at hnext
    · next hout =>
      cases hnext
      unfold startCommitTransaction
      split
      · exact hidle _ ⟨hremembered, hwoken, hsynchronous⟩ hout rfl
      · exact hidle _ ⟨hremembered, hwoken, hsynchronous⟩ hout rfl
    · cases hnext
  | step order =>
    split at hnext
    · next hout =>
      split at hnext
      · next horder =>
        cases hnext
        exact h.beginStep hout horder
      · cases hnext
    · cases hnext
  | join node outcome =>
    split at hnext
    · next completed hc =>
      split at hnext
      · next hjoin => exact h.joinNext hs hc hjoin.1 hjoin.2 hnext
      · cases hnext
    · cases hnext
  | wake order =>
    split at hnext
    · next completed hc =>
      split at hnext
      · next hwake =>
        cases hnext
        exact h.wake hc hwake.2 hkeeps
      · cases hnext
    · cases hnext
  | consensus others =>
    split at hnext
    · next result hc =>
      cases hnext
      cases others with
      | none => exact ⟨⟨hremembered, hwoken, hsynchronous⟩, nofun⟩
      | some vote => exact ⟨⟨hremembered, hwoken, hsynchronous⟩, nofun⟩
    · cases hnext
  | consume node =>
    split at hnext
    · cases hnext
      refine hsame _ ⟨fun m hm hasync hr => ?_, hwoken, hsynchronous⟩ rfl rfl rfl
      change update s.ready node false m = true at hr
      rw [update_apply] at hr
      split at hr
      · cases hr
      · next hne =>
        refine (hremembered m hm hasync hr).imp_right (.imp_right (.imp_right fun hnot ht => ?_))
        have htaken : update s.consumed node true m = true := ht.2
        rw [update_of_ne hne] at htaken
        exact hnot ⟨ht.1, htaken⟩
    · cases hnext
  | becomeReady node =>
    split at hnext
    · cases hnext
      refine hsame _ ⟨fun m hm hasync hr => ?_, hwoken, hsynchronous⟩ rfl rfl rfl
      change update s.ready node true m = true at hr
      by_cases heq : m = node
      · exact .inl (mem_added.mpr (.inr heq))
      · rw [update_of_ne heq] at hr
        exact (hremembered m hm hasync hr).imp_left fun ho => mem_added.mpr (.inl ho)
    · cases hnext
  | callback node =>
    split at hnext
    · cases hnext
      refine hsame _ ⟨fun m hm hasync hr => ?_, fun _ => .inr (Nat.succ_pos _),
        hsynchronous⟩ rfl rfl rfl
      by_cases heq : m = node
      · exact .inr (.inl (mem_added.mpr (.inr heq)))
      · exact (hremembered m hm hasync hr).imp (mem_erase_of_ne heq).mpr
          (.imp_left fun hp => mem_added.mpr (.inl hp))
    · cases hnext
  | notifyOne =>
    split at hnext
    · cases hnext
    · cases hnext
      exact hsame _ ⟨h.alert.remembered, fun _ => .inl rfl, hsynchronous⟩ rfl rfl rfl

theorem attentive_invariant (plan : Plan) :
    Machine.Invariant next KeepsNotifications fun s => Sound plan s ∧ Attentive s :=
  ⟨fun h hkeeps hnext =>
    ⟨(sound_invariant plan).keeps h.1 trivial hnext, h.2.next h.1 hkeeps hnext⟩⟩

theorem prepare_attentive {circuit : CircuitGraph} {nodes : Option (List NodeId)}
    {ready : NodeId → Bool} (h : prepare circuit nodes ready = .ok s) : Attentive s := by
  unfold prepare at h
  obtain ⟨constraints, hconstraints, h⟩ := Checked.bind_eq_ok.mp h
  split at h
  · cases h
    refine ⟨⟨fun m hm hasync hr => .inr (.inl ?_), fun hne => .inl ?_, fun m hm => ?_⟩, nofun⟩
    · exact mem_filter.mpr ⟨hm, by rw [Bool.and_eq_true]; exact ⟨hasync, hr⟩⟩
    · change (!List.isEmpty _) = true
      rw [Bool.not_eq_true', Bool.eq_false_iff]
      exact fun hempty => hne (isEmpty_iff.mp hempty)
    · change (!circuit.isAsyncNode m) = true
      rw [show circuit.isAsyncNode m = false from hm]
      rfl
  · cases h

theorem Attentive.not_blocked (h : Attentive s) (hs : Sound plan s) : ¬ Blocked plan.edges s := by
  rintro ⟨⟨completed, hcontrol⟩, -, hpermit, hnotifying, howed, n, hn, hscheduled, hevaluated,
    hready⟩
  obtain ⟨hev, -⟩ : InControl plan s (.looping completed) := hcontrol ▸ hs.control
  have hzero : (s.task n).unsatisfiedDependencies = 0 := by
    rw [hev.unsatisfied n]
    exact unmet_eq_zero.mpr fun p hp => decide_eq_true (hevaluated p hp)
  have hisReady : (s.task n).isReady = true := by
    cases hasync : (s.task n).isAsync with
    | false => exact h.alert.synchronous n hasync
    | true =>
      rcases h.alert.remembered n hn hasync (hready hasync) with ho | hp | hknown
      · rw [howed] at ho
        exact absurd ho not_mem_nil
      · rcases h.alert.woken (ne_nil_of_mem hp) with hp | hp
        · exact nomatch hpermit.symm.trans hp
        · omega
      · exact hknown.1
  exact nomatch hscheduled.symm.trans (h.prompt completed hcontrol n hn id hzero hisReady)

/-- In every run that loses no notification, the scheduler is never blocked. -/
theorem never_blocked {circuit : CircuitGraph} {nodes : Option (List NodeId)} {ready : NodeId → Bool}
    {constraints : List (NodeId × NodeId)} {s₀ : Scheduler}
    (hconstraints : ownershipConstraints circuit.edges = .ok constraints)
    (hprepare : prepare circuit nodes ready = .ok s₀) {actions : List Action}
    (hkeeps : Machine.Guarded next KeepsNotifications s₀ actions)
    (hrun : Machine.run next s₀ actions = .ok s) :
    ¬ Blocked (dependencies circuit s₀.nodes constraints) s := by
  obtain ⟨-, plan, -, hedges, hsound⟩ := prepare_sound hconstraints hprepare
  have hend := Machine.run_invariant (attentive_invariant plan)
    ⟨hsound, prepare_attentive hprepare⟩ hkeeps hrun
  rw [← hedges]
  exact hend.2.not_blocked hend.1

def lone : CircuitGraph := ⟨[0], [], fun _ => true⟩

/-- The node is ready again after it has taken its input, and the notification is processed before
the end of its task, which makes the scheduler forget it. -/
def lostNotification : List Action :=
  [.startTransaction, .step [0], .becomeReady 0, .callback 0, .notifyOne, .wake [0], .consume 0,
    .becomeReady 0, .callback 0, .notifyOne, .wake [0], .join 0 (.progress none false), .step [0]]

theorem blocked_after_lost_notification : ∃ s₀ s,
    ownershipConstraints lone.edges = .ok [] ∧ prepare lone none (fun _ => false) = .ok s₀ ∧
    Machine.run next s₀ lostNotification = .ok s ∧ s.notified = [] ∧
    Blocked (dependencies lone s₀.nodes []) s :=
  ⟨_, _, rfl, rfl, rfl, rfl, ⟨0, rfl⟩, rfl, rfl, rfl, rfl, 0, mem_singleton_self 0, rfl, nofun,
    fun _ => rfl⟩

/-- The same with the notification processed after the end of the task. -/
def keptNotification : List Action :=
  [.startTransaction, .step [0], .becomeReady 0, .callback 0, .notifyOne, .wake [0], .consume 0,
    .becomeReady 0, .callback 0, .notifyOne, .join 0 (.progress none false), .step [0], .wake [0]]

theorem never_blocked_kept : ∃ s₀ s, prepare lone none (fun _ => false) = .ok s₀ ∧
    Machine.run next s₀ keptNotification = .ok s ∧ s.handles = [0] ∧
    ¬ Blocked (dependencies lone s₀.nodes []) s := by
  refine ⟨_, _, rfl, rfl, rfl, never_blocked rfl rfl
    (show Machine.Guarded next KeepsNotifications _ keptNotification from ?_) rfl⟩
  exact ⟨trivial, trivial, trivial, trivial, trivial, fun n _ _ hn => absurd hn.1 not_mem_nil,
    trivial, trivial, trivial, trivial, trivial, trivial,
    fun n _ _ hn => absurd hn.1 not_mem_nil, trivial⟩

end Feldera.Circuit.Scheduler
