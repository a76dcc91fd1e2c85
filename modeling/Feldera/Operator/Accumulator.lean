import Feldera.Algebra.Machine

/-!
The accumulators that the workers run for one output stream. An accumulator collects the batches of a
transaction and releases them when it is flushed. Whether it collects anything depends on a count of
output connectors that all workers share and that every worker samples for itself, at its first batch
of the transaction that is not empty.
-/

namespace Feldera.Operator.Accumulate

open Finset Function

variable {B : Type*} [AddCommMonoid B] [DecidableEq B]

structure Accumulator (B : Type*) where
  state : List B
  flush : Bool
  enabledDuringCurrentTransaction : Option Bool

namespace Accumulator

variable (a : Accumulator B) (enableCount : ℕ) (batch : B)

/-- What `eval` does with a batch. The batch without entries is zero. -/
def collect : Accumulator B :=
  if batch = 0 then a
  else
    let enabled := a.enabledDuringCurrentTransaction.getD (decide (0 < enableCount))
    { a with
      enabledDuringCurrentTransaction := some enabled
      state := if enabled then a.state ++ [batch] else a.state }

def eval : Accumulator B × Option (List B) :=
  let a := a.collect enableCount batch
  if a.flush then (⟨[], false, none⟩, some a.state) else (a, none)

end Accumulator

/-- A worker, with the number of transactions that it has flushed, the sum of the batches of the next
one, and for those that it has flushed, the sum of the batches and of what it has released. -/
structure Worker (B : Type*) where
  accumulator : Accumulator B
  flushed : ℕ
  fed : B
  released : ℕ → B × B

structure System (B : Type*) where
  enableCount : ℕ
  workers : ℕ → Worker B

inductive Action (B : Type*)
  | attach
  | detach
  | flush (worker : ℕ)
  | eval (worker : ℕ) (batch : B)

def Worker.eval (enableCount : ℕ) (batch : B) (x : Worker B) : Worker B :=
  let fed := x.fed + batch
  match x.accumulator.eval enableCount batch with
  | (a, none) => { x with accumulator := a, fed := fed }
  | (a, some spine) =>
    ⟨a, x.flushed + 1, 0, Function.update x.released x.flushed (fed, spine.sum)⟩

def Worker.flush (x : Worker B) : Worker B :=
  { x with accumulator := { x.accumulator with flush := true } }

def next (s : System B) : Action B → Except Empty (System B)
  | .attach => .ok { s with enableCount := s.enableCount + 1 }
  | .detach => .ok { s with enableCount := s.enableCount - 1 }
  | .flush w => .ok { s with workers := Function.update s.workers w (s.workers w).flush }
  | .eval w batch =>
    .ok { s with workers := Function.update s.workers w ((s.workers w).eval s.enableCount batch) }

def new (enableCount : ℕ) : System B := ⟨enableCount, fun _ => ⟨⟨[], false, none⟩, 0, 0, 0⟩⟩

/-- A worker that samples the count for transaction `k` finds connectors exactly if `p k` holds. -/
def Samples (p : ℕ → Bool) (s : System B) : Action B → Prop
  | .eval w batch =>
    batch ≠ 0 → (s.workers w).accumulator.enabledDuringCurrentTransaction = none →
      decide (0 < s.enableCount) = p (s.workers w).flushed
  | _ => True

instance (p : ℕ → Bool) (s : System B) : DecidablePred (Samples p s)
  | .eval _ _ => inferInstanceAs (Decidable (_ → _ → _))
  | .attach | .detach | .flush _ => .isTrue trivial

structure Worker.Sound (p : ℕ → Bool) (x : Worker B) : Prop where
  state : x.accumulator.state.sum = if p x.flushed then x.fed else 0
  fed : x.accumulator.enabledDuringCurrentTransaction = none → x.fed = 0
  enabled : ∀ b ∈ x.accumulator.enabledDuringCurrentTransaction, b = p x.flushed
  released : ∀ k < x.flushed, (x.released k).2 = if p k then (x.released k).1 else 0

variable {p : ℕ → Bool} {x : Worker B} {count : ℕ} {batch : B}

namespace Worker.Sound

variable (hx : x.Sound p)
include hx

omit [DecidableEq B] in
theorem release : Worker.Sound p ⟨⟨[], false, none⟩, x.flushed + 1, 0,
    update x.released x.flushed (x.fed, x.accumulator.state.sum)⟩ := by
  refine ⟨(ite_self _).symm, fun _ => rfl, nofun, fun k hk => ?_⟩
  by_cases heq : k = x.flushed
  · subst heq
    simp only [update_self]
    exact hx.state
  · simp only [update_of_ne heq]
    exact hx.released k (lt_of_le_of_ne (Nat.le_of_lt_succ hk) heq)

variable (hsample : batch ≠ 0 → x.accumulator.enabledDuringCurrentTransaction = none →
  decide (0 < count) = p x.flushed)
include hsample

theorem collect : Worker.Sound p
    { x with accumulator := x.accumulator.collect count batch, fed := x.fed + batch } := by
  by_cases hbatch : batch = 0
  · have hsame : x.accumulator.collect count batch = x.accumulator := if_pos hbatch
    rw [hsame, hbatch, add_zero]
    exact hx
  have henabled : x.accumulator.enabledDuringCurrentTransaction.getD (decide (0 < count)) =
      p x.flushed := by
    cases hsome : x.accumulator.enabledDuringCurrentTransaction with
    | none => exact hsample hbatch hsome
    | some b => exact hx.enabled b hsome
  have hstate := hx.state
  simp only [Accumulator.collect, if_neg hbatch, henabled]
  refine ⟨?_, nofun, fun b hb => (Option.some.inj hb).symm, hx.released⟩
  cases hp : p x.flushed <;> simp [hp, hstate]

theorem eval : (x.eval count batch).Sound p := by
  have hcollect := hx.collect hsample
  unfold Worker.eval Accumulator.eval
  by_cases hflush : (x.accumulator.collect count batch).flush = true
  · simp only [hflush, if_true]
    exact hcollect.release
  · simp only [hflush]
    exact hcollect

end Worker.Sound

theorem sound_keeps : Machine.Invariant next (Samples (B := B) p)
    fun s => ∀ w, (s.workers w).Sound p where
  keeps {s a s'} hs hsample hstep w := by
    have hupdate : ∀ v x, x.Sound p → (update s.workers v x w).Sound p := by
      intro v x hx
      by_cases hw : w = v
      · subst hw
        rwa [update_self]
      · rw [update_of_ne hw]
        exact hs w
    cases a with
    | attach | detach =>
      cases hstep
      exact hs w
    | flush v =>
      cases hstep
      exact hupdate v _ ⟨(hs v).state, (hs v).fed, (hs v).enabled, (hs v).released⟩
    | eval v batch =>
      cases hstep
      exact hupdate v _ ((hs v).eval hsample)

/-- If all workers that sample the count for a transaction find connectors, or all find none, then what
they release for it is the sum of its batches or nothing. -/
theorem released_all_or_nothing (p : ℕ → Bool) (count : ℕ) (actions : List (Action B))
    (hsamples : Machine.Guarded next (Samples p) (new count) actions) (s : System B)
    (hrun : Machine.run next (new count) actions = .ok s) (n k : ℕ)
    (hflushed : ∀ w < n, k < (s.workers w).flushed) :
    ∑ w ∈ range n, ((s.workers w).released k).2 = ∑ w ∈ range n, ((s.workers w).released k).1 ∨
      ∑ w ∈ range n, ((s.workers w).released k).2 = 0 := by
  have hnew : ∀ w, ((new count : System B).workers w).Sound p := fun w =>
    ⟨(ite_self _).symm, fun _ => rfl, nofun, fun k hk => absurd hk (Nat.not_lt_zero k)⟩
  have hsound := Machine.run_invariant sound_keeps hnew hsamples hrun
  have hworker : ∀ w ∈ range n, ((s.workers w).released k).2 =
      if p k then ((s.workers w).released k).1 else 0 := fun w hw =>
    (hsound w).released k (hflushed w (mem_range.mp hw))
  rw [sum_congr rfl hworker]
  cases p k
  · exact .inr sum_const_zero
  · exact .inl rfl

/-- The connector is detached after the second batch. -/
theorem released_all_or_nothing_detach :
    let actions : List (Action ℤ) := [.eval 0 5, .eval 1 7, .detach, .flush 0, .eval 0 1, .flush 1,
      .eval 1 0]
    ∃ s, Machine.run next (new 1) actions = .ok s ∧
      (∑ w ∈ range 2, ((s.workers w).released 0).2 = ∑ w ∈ range 2, ((s.workers w).released 0).1 ∨
        ∑ w ∈ range 2, ((s.workers w).released 0).2 = 0) := by
  intro actions
  refine ⟨_, rfl, released_all_or_nothing (fun _ => true) 1 actions (by decide) _ rfl 2 0 ?_⟩
  decide

/-- A connector is attached after the first worker has sampled the count: its batch is missing. -/
theorem released_part :
    let actions : List (Action ℤ) := [.eval 0 5, .attach, .eval 1 7, .flush 0, .eval 0 0, .flush 1,
      .eval 1 0]
    ∃ s, Machine.run next (new 0) actions = .ok s ∧
      (∀ w < 2, (s.workers w).flushed = 1) ∧
      ∑ w ∈ range 2, ((s.workers w).released 0).1 = 12 ∧
      ∑ w ∈ range 2, ((s.workers w).released 0).2 = 7 := by
  refine ⟨_, rfl, ?_, ?_, ?_⟩ <;> decide

end Feldera.Operator.Accumulate
