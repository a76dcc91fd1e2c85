import Feldera.Circuit.DynamicScheduler

/-!
The counters of the scheduler. `prepare` fixes the nodes and the dependencies between them. The
number of unsatisfied dependencies of a node is the number of its incoming edges whose source has
not been evaluated in the current step, and the number of its unflushed dependencies is that of
those whose source has not been flushed in the current transaction; both are read off the log of
what has happened so far.
-/

namespace Feldera.Circuit

open List

structure Plan where
  nodes : List NodeId
  edges : List (NodeId × NodeId)
  isAsync : NodeId → Bool
  nodup : nodes.Nodup
  within : ∀ e ∈ edges, e.1 ∈ nodes ∧ e.2 ∈ nodes

/-- The successors of a node, as often as there are edges to them. -/
def Plan.after (plan : Plan) (n : NodeId) : List NodeId :=
  (plan.edges.filter fun e => e.1 == n).map Prod.snd

theorem Plan.mem_after {plan : Plan} {n m : NodeId} : m ∈ plan.after n ↔ (n, m) ∈ plan.edges := by
  simp [Plan.after]

/-- The number of edges to `n` from nodes that are not `met`. -/
def unmet (edges : List (NodeId × NodeId)) (met : NodeId → Bool) (n : NodeId) : ℕ :=
  edges.countP fun e => e.2 == n && !met e.1

variable {edges : List (NodeId × NodeId)} {n : NodeId}

theorem unmet_eq_zero {met : NodeId → Bool} :
    unmet edges met n = 0 ↔ ∀ p, (p, n) ∈ edges → met p = true := by
  simp only [unmet, countP_eq_zero, Prod.forall, Bool.and_eq_true, beq_iff_eq, Bool.not_eq_true',
    not_and, Bool.not_eq_false]
  exact ⟨fun h p hp => h p n hp rfl, fun h p m hp heq => h p (heq ▸ hp)⟩

variable {met met' : NodeId → Bool}

theorem unmet_insert (plan : Plan) {p : NodeId} (hp : met p = false)
    (h : ∀ q, met' q = (met q || q == p)) (n : NodeId) :
    unmet plan.edges met n = unmet plan.edges met' n + (plan.after p).count n := by
  unfold unmet Plan.after
  induction plan.edges with
  | nil => rfl
  | cons e edges ih =>
    rw [countP_cons, countP_cons, ih]
    by_cases he : e.1 = p
    · have hmet : met e.1 = false := he ▸ hp
      have hmet' : met' e.1 = true := by simp [h, he]
      rw [filter_cons_of_pos (by simpa using he), map_cons, count_cons, hmet,
        hmet']
      simp
      omega
    · have hsame : met' e.1 = met e.1 := by simp [h, he]
      rw [filter_cons_of_neg (by simpa using he), hsame]
      omega

theorem countP_insert {l : List NodeId} (hl : l.Nodup) {P P' : NodeId → Bool} (hn : n ∈ l)
    (hP : P n = false) (h : ∀ m, P' m = (P m || m == n)) : l.countP P' = l.countP P + 1 := by
  have hrest : (l.erase n).countP P' = (l.erase n).countP P := by
    refine countP_congr fun m hm => ?_
    simp [h, (hl.mem_erase_iff.mp hm).1]
  have hperm := perm_cons_erase hn
  rw [hperm.countP_eq, hperm.countP_eq, countP_cons, countP_cons, hrest]
  simp [h, hP]

section

variable {ε : Type*} {first last : NodeId → ε} {edges : List (NodeId × NodeId)}
  {log : List ε}

/-- In a log, `first n` comes after `last p` for all predecessors `p` of `n`. -/
def Preceded (first last : NodeId → ε) (edges : List (NodeId × NodeId)) (log : List ε) : Prop :=
  ∀ before n after, log = before ++ first n :: after → ∀ p, (p, n) ∈ edges → last p ∈ before

theorem preceded_nil : Preceded first last edges [] := by
  intro before n after h
  exact absurd h (by simp)

theorem Preceded.concat (h : Preceded first last edges log) {x : ε}
    (hx : ∀ n, x = first n → ∀ p, (p, n) ∈ edges → last p ∈ log) :
    Preceded first last edges (log ++ [x]) := by
  intro before n after hsplit p hp
  rcases eq_nil_or_concat after with rfl | ⟨after, y, rfl⟩
  · obtain ⟨rfl, heq⟩ := append_inj' hsplit rfl
    exact hx n (by simpa using heq) p hp
  · rw [concat_eq_append, ← cons_append, ← append_assoc] at hsplit
    exact h before n after (append_inj' hsplit rfl).1 p hp

end

namespace Scheduler

def isFinished (evaluations : List Evaluation) (n : NodeId) : Bool :=
  decide (.finish n ∈ evaluations)

@[simp] theorem isFinished_start (evaluations : List Evaluation) (n : NodeId) :
    isFinished (evaluations ++ [.start n]) = isFinished evaluations := by
  funext p
  simp [isFinished]

def isFlushed (flushes : List Flush) (n : NodeId) : Bool := decide (.complete n ∈ flushes)

@[simp] theorem isFlushed_call (flushes : List Flush) (n : NodeId) :
    isFlushed (flushes ++ [.call n]) = isFlushed flushes := by
  funext p
  simp [isFlushed]

structure Fits (plan : Plan) (s : Scheduler) : Prop where
  nodes : s.nodes = plan.nodes
  numPredecessors : ∀ n, (s.task n).numPredecessors = unmet plan.edges (fun _ => false) n
  successors : ∀ n, (s.task n).successors = plan.after n
  isAsync : ∀ n, (s.task n).isAsync = plan.isAsync n

/-- The counters of a step; `pend n` is what is still to be subtracted from the counter of `n` for
nodes whose evaluation has ended. -/
structure Evaluating (plan : Plan) (pend : NodeId → ℕ) (s : Scheduler) : Prop where
  unsatisfied : ∀ n, (s.task n).unsatisfiedDependencies =
    unmet plan.edges (isFinished s.evaluations) n + pend n
  handles : ∀ n, n ∈ s.handles ↔ .start n ∈ s.evaluations ∧ .finish n ∉ s.evaluations
  nodupHandles : s.handles.Nodup
  scheduled : ∀ n, (s.task n).scheduled = true ↔ .start n ∈ s.evaluations
  nodup : s.evaluations.Nodup
  started : ∀ n, .finish n ∈ s.evaluations → .start n ∈ s.evaluations
  inside : ∀ n, .start n ∈ s.evaluations → n ∈ plan.nodes
  satisfied : ∀ n, .start n ∈ s.evaluations → (s.task n).unsatisfiedDependencies = 0
  preceded : Preceded .start .finish plan.edges s.evaluations

/-- What a flush state says about a node. -/
def Flushed (plan : Plan) (pend : NodeId → ℕ) (flushes : List Flush) (n : NodeId) :
    FlushState → Prop
  | .unflushedDependencies k =>
    k = unmet plan.edges (isFlushed flushes) n + pend n ∧ .call n ∉ flushes ∧ .complete n ∉ flushes
  | .started _ => .call n ∈ flushes ∧ .complete n ∉ flushes ∧
      unmet plan.edges (isFlushed flushes) n + pend n = 0
  | .completed _ => .call n ∈ flushes ∧ .complete n ∈ flushes ∧
      unmet plan.edges (isFlushed flushes) n + pend n = 0

/-- What the phase of a transaction says about the nodes. -/
def InPhase (plan : Plan) (flushes : List Flush) : TransactionPhase → Prop
  | .idle | .started => flushes = []
  | .committing unflushed => unflushed = plan.nodes.countP fun n => !isFlushed flushes n
  | .commitComplete => ∀ n ∈ plan.nodes, .complete n ∈ flushes

structure Flushing (plan : Plan) (pend : NodeId → ℕ) (s : Scheduler) : Prop where
  state : ∀ n, Flushed plan pend s.flushes n (s.task n).flushState
  phase : InPhase plan s.flushes s.transactionPhase
  nodup : s.flushes.Nodup
  called : ∀ n, .complete n ∈ s.flushes → .call n ∈ s.flushes
  inside : ∀ n, .call n ∈ s.flushes → n ∈ plan.nodes
  preceded : Preceded .call .complete plan.edges s.flushes

section

variable {plan : Plan} {pend : NodeId → ℕ} {s s' : Scheduler} {n m : NodeId}

section

variable (s : Scheduler) (n m : NodeId)

@[simp] theorem modify_task (f : Task → Task) :
    (s.modify n f).task m = if m = n then f (s.task n) else s.task m :=
  Function.update_apply _ _ _ _

theorem spawnTask_task :
    (s.spawnTask n).task m = if m = n then
      { s.task n with
        scheduled := true
        flushState := if s.flushes? n then .started none else (s.task n).flushState }
    else s.task m :=
  Function.update_apply _ _ _ _

theorem spawnTask_same :
    ((s.spawnTask n).task m).unsatisfiedDependencies = (s.task m).unsatisfiedDependencies ∧
      ((s.spawnTask n).task m).isReady = (s.task m).isReady ∧
      ((s.spawnTask n).task m).numPredecessors = (s.task m).numPredecessors ∧
      ((s.spawnTask n).task m).successors = (s.task m).successors ∧
      ((s.spawnTask n).task m).isAsync = (s.task m).isAsync := by
  rw [spawnTask_task]
  by_cases heq : m = n <;> simp [heq]

end

theorem Fits.of_same (h : Fits plan s) (hnodes : s'.nodes = s.nodes)
    (htask : ∀ m, (s'.task m).numPredecessors = (s.task m).numPredecessors ∧
      (s'.task m).successors = (s.task m).successors ∧
      (s'.task m).isAsync = (s.task m).isAsync) : Fits plan s' where
  nodes := hnodes.trans h.nodes
  numPredecessors m := (htask m).1.trans (h.numPredecessors m)
  successors m := (htask m).2.1.trans (h.successors m)
  isAsync m := (htask m).2.2.trans (h.isAsync m)

theorem Evaluating.of_same (h : Evaluating plan pend s)
    (hevaluations : s'.evaluations = s.evaluations) (hhandles : s'.handles = s.handles)
    (htask : ∀ m, (s'.task m).unsatisfiedDependencies = (s.task m).unsatisfiedDependencies ∧
      (s'.task m).scheduled = (s.task m).scheduled) : Evaluating plan pend s' := by
  constructor <;> simp only [hevaluations, hhandles, htask]
  exacts [h.unsatisfied, h.handles, h.nodupHandles, h.scheduled, h.nodup, h.started, h.inside,
    h.satisfied, h.preceded]

theorem Flushing.of_same (h : Flushing plan pend s) (hflushes : s'.flushes = s.flushes)
    (hphase : s'.transactionPhase = s.transactionPhase)
    (htask : ∀ m, (s'.task m).flushState = (s.task m).flushState) : Flushing plan pend s' := by
  constructor <;> simp only [hflushes, hphase, htask]
  exacts [h.state, h.phase, h.nodup, h.called, h.inside, h.preceded]

theorem Fits.spawnTask (h : Fits plan s) (n : NodeId) : Fits plan (s.spawnTask n) :=
  h.of_same rfl fun m => (spawnTask_same s n m).2.2

theorem nodup_concat {α : Type*} {l : List α} {a : α} (hl : l.Nodup) (ha : a ∉ l) :
    (l ++ [a]).Nodup :=
  nodup_append_comm.mp (nodup_cons.mpr ⟨ha, hl⟩)

/-- A node whose predecessors are evaluated is started. -/
theorem Evaluating.spawnTask (h : Evaluating plan pend s) (hn : n ∈ plan.nodes)
    (hzero : (s.task n).unsatisfiedDependencies = 0) (hnot : .start n ∉ s.evaluations) :
    Evaluating plan pend (s.spawnTask n) := by
  have hfinish : ∀ m, Evaluation.finish m ∈ s.evaluations ++ [.start n] ↔
      .finish m ∈ s.evaluations := by simp
  have hstart : ∀ m, Evaluation.start m ∈ s.evaluations ++ [.start n] ↔
      .start m ∈ s.evaluations ∨ m = n := by simp
  have hsame := spawnTask_same s n
  refine ⟨fun m => ?_, fun m => ?_, ?_, fun m => ?_, nodup_concat h.nodup hnot, fun m hm => ?_,
    fun m hm => ?_, fun m hm => ?_, ?_⟩
  · change _ = unmet plan.edges (isFinished (s.evaluations ++ [.start n])) m + _
    rw [(hsame m).1, h.unsatisfied m, isFinished_start]
  · change m ∈ s.handles ++ [n] ↔ _ ∈ s.evaluations ++ [.start n] ∧
      _ ∉ s.evaluations ++ [.start n]
    rw [hfinish, hstart, mem_append, h.handles m, mem_singleton, or_and_right]
    refine or_congr Iff.rfl (iff_self_and.mpr ?_)
    rintro rfl hf
    exact hnot (h.started m hf)
  · exact nodup_concat h.nodupHandles fun hn => hnot ((h.handles n).mp hn).1
  · rw [spawnTask_task]
    change _ ↔ _ ∈ s.evaluations ++ [.start n]
    rw [hstart]
    split
    · next heq => simp [heq]
    · next hne => simp [h.scheduled m, hne]
  · exact (hstart m).mpr (.inl (h.started m ((hfinish m).mp hm)))
  · rcases (hstart m).mp hm with hm | rfl
    · exact h.inside m hm
    · exact hn
  · rw [(hsame m).1]
    rcases (hstart m).mp hm with hm | rfl
    · exact h.satisfied m hm
    · exact hzero
  · refine h.preceded.concat fun m heq p hp => ?_
    obtain rfl : n = m := Evaluation.start.inj heq
    have hmet := Nat.eq_zero_of_add_eq_zero_right ((h.unsatisfied n).symm.trans hzero)
    exact of_decide_eq_true (unmet_eq_zero.mp hmet p hp)

theorem flushed_call {flushes : List Flush} {state : FlushState} (hne : m ≠ n) :
    Flushed plan pend (flushes ++ [.call n]) m state ↔ Flushed plan pend flushes m state := by
  cases state <;> simp [Flushed, hne]

/-- A node is flushed when it is started, if its predecessors are flushed. -/
theorem Flushing.spawnTask (h : Flushing plan pend s) (hn : n ∈ plan.nodes) :
    Flushing plan pend (s.spawnTask n) := by
  cases hflush : s.flushes? n with
  | false =>
    refine h.of_same (by simp [Scheduler.spawnTask, hflush]) rfl fun m => ?_
    rw [spawnTask_task]
    by_cases heq : m = n <;> simp [heq, hflush]
  | true =>
    have hflushes : (s.spawnTask n).flushes = s.flushes ++ [.call n] := by
      simp [Scheduler.spawnTask, hflush]
    obtain ⟨⟨u, hphase⟩, hzero⟩ : (∃ u, s.transactionPhase = .committing u) ∧
        (s.task n).flushState = .unflushedDependencies 0 := by
      unfold flushes? at hflush
      split at hflush
      · next u hphase => exact ⟨⟨u, hphase⟩, of_decide_eq_true hflush⟩
      · cases hflush
    obtain ⟨hcount, hnot, hnotComplete⟩ : 0 = unmet plan.edges (isFlushed s.flushes) n + pend n ∧
        .call n ∉ s.flushes ∧ .complete n ∉ s.flushes := by
      have hn := h.state n
      rwa [hzero] at hn
    refine ⟨fun m => ?_, ?_, ?_, ?_, ?_, ?_⟩
    · rw [spawnTask_task, hflushes]
      split
      · next heq =>
        subst heq
        simpa [Flushed, hflush, hnotComplete] using hcount.symm
      · next hne => exact (flushed_call hne).mpr (h.state m)
    · have hp := h.phase
      change InPhase plan (s.spawnTask n).flushes s.transactionPhase
      rw [hphase] at hp ⊢
      simpa [InPhase, hflushes] using hp
    · rw [hflushes]
      exact nodup_concat h.nodup hnot
    · simpa [hflushes] using fun m hm => .inl (h.called m hm)
    · simpa [hflushes, or_imp, forall_and, hn] using h.inside
    · rw [hflushes]
      refine h.preceded.concat fun m heq p hp => ?_
      obtain rfl : n = m := Flush.call.inj heq
      have hmet := Nat.eq_zero_of_add_eq_zero_right hcount.symm
      exact of_decide_eq_true (unmet_eq_zero.mp hmet p hp)

end

end Scheduler

end Feldera.Circuit
