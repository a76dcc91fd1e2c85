import Feldera.Algebra.Machine

/-!
The fault-tolerant Kafka output endpoint, called by the output thread through `OutputProbe`, which
reports the errors of the endpoint and carries on. A batch is written in one Kafka transaction. Steps
below `next_step` count as written: a batch of such a step is dropped.
-/

namespace Feldera.Adapters.KafkaOutput

variable {β : Type*}

structure OutputPosition where
  step : ℕ
  substep : ℕ

inductive State
  | new
  | connected
  | batchOpen (position : OutputPosition)
  | batchClosed (step : ℕ)

inductive Request (β : Type*)
  | begin
  | send (key : OutputPosition) (partition : ℕ) (payload : β)
  | commit

structure KafkaOutputEndpoint (β : Type*) where
  state : State
  nextStep : ℕ
  nPartitions : ℕ
  nextPartition : ℕ
  requests : List (Request β)

inductive Fault
  | unreachable
  deriving DecidableEq

namespace KafkaOutputEndpoint

variable (e : KafkaOutputEndpoint β)

/-- The endpoint after the call, where `ok` tells whether Kafka began the transaction. -/
def batchStart (step : ℕ) (ok : Bool) : Except Fault (KafkaOutputEndpoint β) :=
  let start : KafkaOutputEndpoint β :=
    if e.nextStep ≤ step then
      { e with
        state := if ok then .batchOpen ⟨step, 0⟩ else e.state
        requests := e.requests ++ [.begin] }
    else { e with state := .batchOpen ⟨step, 0⟩ }
  match e.state with
  | .new | .batchOpen _ => .error .unreachable
  | .connected => .ok start
  | .batchClosed closedStep => if step ≤ closedStep then .error .unreachable else .ok start

def pushBuffer (buffer : β) (ok : Bool) : Except Fault (KafkaOutputEndpoint β) :=
  match e.state with
  | .batchOpen ⟨step, substep⟩ =>
    let e' := { e with state := .batchOpen ⟨step, substep + 1⟩ }
    let next := if e.nPartitions ≤ e.nextPartition + 1 then 0 else e.nextPartition + 1
    .ok <| if e.nextStep ≤ step then
      { e' with
        requests := e.requests ++ [.send ⟨step, substep⟩ e.nextPartition buffer]
        nextPartition := if ok then next else e.nextPartition }
    else e'
  | _ => .error .unreachable

def batchEnd (ok : Bool) : Except Fault (KafkaOutputEndpoint β) :=
  match e.state with
  | .batchOpen position =>
    let e' := { e with state := .batchClosed position.step }
    .ok <| if e.nextStep ≤ position.step then
      { e' with
        requests := e.requests ++ [.commit]
        nextStep := if ok then position.step + 1 else e.nextStep }
    else e'
  | _ => .error .unreachable

end KafkaOutputEndpoint

/-- A batch of the output thread: the buffers that it is encoded as, and whether the calls of Kafka
succeed. -/
structure Batch (β : Type*) where
  step : ℕ
  begins : Bool
  buffers : List (β × Bool)
  commits : Bool

def pushBatchToEncoder (e : KafkaOutputEndpoint β) (b : Batch β) :
    Except Fault (KafkaOutputEndpoint β) := do
  let e ← e.batchStart b.step b.begins
  let e ← Machine.run (fun e p => e.pushBuffer p.1 p.2) e b.buffers
  e.batchEnd b.commits

variable {e : KafkaOutputEndpoint β} {b : Batch β}

theorem run_pushBuffer {step n : ℕ} (hopen : ∃ substep, e.state = .batchOpen ⟨step, substep⟩)
    (hnext : e.nextStep = n) (buffers : List (β × Bool)) :
    ∃ e', Machine.run (fun e p => e.pushBuffer p.1 p.2) e buffers = .ok e' ∧
      (∃ substep, e'.state = .batchOpen ⟨step, substep⟩) ∧ e'.nextStep = n := by
  refine Machine.run_total ?_ ⟨hopen, hnext⟩ (Machine.guarded_true _ _)
  rintro e ⟨buffer, ok⟩ ⟨⟨substep, hstate⟩, hnext⟩ -
  simp only [KafkaOutputEndpoint.pushBuffer, hstate]
  refine ⟨_, rfl, ⟨substep + 1, ?_⟩, ?_⟩
  · split <;> rfl
  · split <;> exact hnext

def Ready (e : KafkaOutputEndpoint β) (step : ℕ) : Prop :=
  e.state = .connected ∨ ∃ closedStep < step, e.state = .batchClosed closedStep

theorem pushBatch_ok (hready : Ready e b.step) (hbegins : e.nextStep ≤ b.step → b.begins = true) :
    ∃ e', pushBatchToEncoder e b = .ok e' ∧ e'.state = .batchClosed b.step ∧
      e'.nextStep = if e.nextStep ≤ b.step ∧ b.commits = true then b.step + 1 else e.nextStep := by
  have hstart : ∃ e₁, e.batchStart b.step b.begins = .ok e₁ ∧
      e₁.state = .batchOpen ⟨b.step, 0⟩ ∧ e₁.nextStep = e.nextStep := by
    unfold KafkaOutputEndpoint.batchStart
    rcases hready with hstate | ⟨closedStep, hlt, hstate⟩
    · simp only [hstate]
      refine ⟨_, rfl, ?_, ?_⟩ <;> split <;> simp_all
    · simp only [hstate, if_neg (not_le.mpr hlt)]
      refine ⟨_, rfl, ?_, ?_⟩ <;> split <;> simp_all
  obtain ⟨e₁, hstart, hopen, hnext₁⟩ := hstart
  obtain ⟨e₂, hpush, ⟨substep, hopen⟩, hnext₂⟩ := run_pushBuffer ⟨0, hopen⟩ hnext₁ b.buffers
  have hend : pushBatchToEncoder e b = e₂.batchEnd b.commits := by
    unfold pushBatchToEncoder
    rw [hstart]
    change (Machine.run _ e₁ _).bind _ = _
    rw [hpush]
    rfl
  simp only [hend, KafkaOutputEndpoint.batchEnd, hopen, hnext₂]
  refine ⟨_, rfl, ?_, ?_⟩
  · split <;> rfl
  · split <;> simp_all

/-- If Kafka begins every transaction, and commits none after it has failed to commit one, no
unreachable branch is reached and no step whose commit failed counts as written. -/
theorem failed_commit_not_written (e : KafkaOutputEndpoint β) (batches : List (Batch β))
    (hready : ∀ b ∈ batches, Ready e b.step)
    (hsteps : batches.Pairwise fun b b' => b.step < b'.step)
    (hbegins : ∀ b ∈ batches, e.nextStep ≤ b.step → b.begins = true)
    (hcommits : batches.Pairwise fun b b' =>
      e.nextStep ≤ b.step → b.commits = false → b'.commits = false) :
    ∃ e', Machine.run pushBatchToEncoder e batches = .ok e' ∧
      ((∀ b ∈ batches, b.commits = false) → e'.nextStep = e.nextStep) ∧
      ∀ b ∈ batches, e.nextStep ≤ b.step → b.commits = false → e'.nextStep ≤ b.step := by
  induction batches generalizing e with
  | nil => exact ⟨e, rfl, fun _ => rfl, nofun⟩
  | cons b batches ih =>
    obtain ⟨hlt, hsteps⟩ := List.pairwise_cons.mp hsteps
    obtain ⟨hfails, hcommits⟩ := List.pairwise_cons.mp hcommits
    obtain ⟨e₁, hpush, hclosed, hnext⟩ :=
      pushBatch_ok (hready b List.mem_cons_self) (hbegins b List.mem_cons_self)
    have hle : e.nextStep ≤ e₁.nextStep := by
      rw [hnext]
      split <;> omega
    have hge : ∀ b' ∈ batches, e.nextStep ≤ b'.step → e₁.nextStep ≤ b'.step := by
      intro b' hb' hb
      have hstep := hlt b' hb'
      rw [hnext]
      split <;> omega
    obtain ⟨e', hrun, hsame, hcount⟩ := ih e₁ (fun b' hb' => .inr ⟨b.step, hlt b' hb', hclosed⟩) hsteps
      (fun b' hb' hb => hbegins b' (List.mem_cons_of_mem _ hb') (hle.trans hb))
      (hcommits.imp fun h hb => h (hle.trans hb))
    have hfailed : b.commits = false → e₁.nextStep = e.nextStep := fun hb => by simp [hnext, hb]
    refine ⟨e', by rwa [Machine.run, hpush], fun hnone => ?_, fun b' hmem hb hcommit => ?_⟩
    · rw [hsame fun b' hb' => hnone b' (List.mem_cons_of_mem _ hb'),
        hfailed (hnone b List.mem_cons_self)]
    rcases List.mem_cons.mp hmem with rfl | hb'
    · -- no later commit succeeds either
      rw [hsame fun b' hb' => hfails b' hb' hb hcommit, hfailed hcommit]
      exact hb
    · exact hcount b' hb' (hge b' hb' hb) hcommit

def fresh : KafkaOutputEndpoint ℕ := ⟨.connected, 0, 1, 0, []⟩

theorem failed_commit_not_written_two :
    ∃ e', Machine.run pushBatchToEncoder fresh
        [⟨0, true, [(7, false), (8, true)], true⟩, ⟨1, true, [(9, true)], false⟩] = .ok e' ∧
      e'.nextStep ≤ 1 := by
  obtain ⟨e', hrun, -, hcount⟩ := failed_commit_not_written fresh
    [⟨0, true, [(7, false), (8, true)], true⟩, ⟨1, true, [(9, true)], false⟩]
    (fun _ _ => .inl rfl) (by decide) (by decide) (by decide)
  exact ⟨e', hrun, hcount ⟨1, true, [(9, true)], false⟩ (by simp) (Nat.zero_le _) rfl⟩

/-- A buffer after a transaction that did not begin reaches an unreachable branch. And step 0, whose
commit failed, counts as written after the commit of step 1. -/
theorem failed_begin_unreachable :
    (Machine.run pushBatchToEncoder fresh [⟨0, false, [(7, true)], true⟩]).map (·.nextStep) =
        .error .unreachable ∧
      (Machine.run pushBatchToEncoder fresh
        [⟨0, true, [], false⟩, ⟨1, true, [], true⟩]).map (·.nextStep) = .ok 2 := by
  exact ⟨rfl, rfl⟩

end Feldera.Adapters.KafkaOutput
