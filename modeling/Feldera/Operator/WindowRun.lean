import Feldera.Operator.Window

/-!
Transactions of `dyn_window`. Every step reads bounds and hands the lower one to the trace, whose
background merges may drop the keys below it from then on. The trace that the operator reads is a
snapshot that `AccumulateDelayTrace` takes in the first step of the commit, and the operator
itself is flushed in that step or a later one.

The operator retracts what leaves the window by looking it up in the trace. So what matters is
that the trace still has those keys when the snapshot is taken; where it does, the outputs add up
to the contents of the current window.
-/

namespace Feldera.Operator.Window

open Trace OrderedSum List Snapshot

variable {K V : Type*} [LinearOrder K] [LinearOrder V]

/-- Background merges of a trace with a lower bound for its keys: they may drop what is below
the bound, or a part of it, and keep the sum of everything else. -/
structure Retaining (K V : Type*) [LinearOrder K] [LinearOrder V] where
  merge : Option K → List (Batch K V Unit ℤ) → List (Batch K V Unit ℤ)
  weight_eq : ∀ bound batches k v, (∀ l ∈ bound, l ≤ k) →
    Snapshot.weight (merge bound batches) (k, v, ()) = Snapshot.weight batches (k, v, ())

def Retaining.none : Retaining K V := ⟨fun _ batches => batches, fun _ _ _ _ _ => rfl⟩

/-- All batches are merged into one, and everything below the bound is dropped. -/
def Retaining.all : Retaining K V where
  merge bound batches := [(Snapshot.total batches).restrict fun k => decide (∀ l ∈ bound, l ≤ k)]
  weight_eq bound batches k v hk := by
    rw [Snapshot.weight, map_singleton, sum_singleton,
      Batch.weight_restrict (fun k => decide (∀ l ∈ bound, l ≤ k)) (Snapshot.total batches)
        (decide_eq_true hk), Snapshot.weight_total]

/-- A step: the bounds that it reads, and the merges that happen in the trace before it. -/
structure Step (K V : Type*) [LinearOrder K] [LinearOrder V] where
  bounds : K × K
  merging : Retaining K V

structure State (K V : Type*) [LinearOrder K] [LinearOrder V] where
  trace : List (Batch K V Unit ℤ)
  bound : Option K
  window : Option (K × K)

def State.initial : State K V := ⟨[], none, none⟩

/-- A step of the trace: `retain_keys` with the lower bound that was read. -/
def State.step (s : State K V) (st : Step K V) : State K V :=
  { s with trace := st.merging.merge s.bound s.trace, bound := some st.bounds.1 }

/-- A transaction: the batches of its steps, the steps before its commit, the merges before the
snapshot is taken, the steps of the commit before the operator is flushed, the step that
flushes it, and the steps until the commit is complete. -/
structure Transaction (K V : Type*) [LinearOrder K] [LinearOrder V] where
  inputs : List (Batch K V Unit ℤ)
  accumulated : Merging K V ℤ
  early : List (Step K V)
  snapshot : Retaining K V
  waiting : List (Step K V)
  last : Step K V
  late : List (Step K V)
  chunkSize : Nat

namespace Transaction

variable (t : Transaction K V) (s : State K V)

/-- `Accumulator::eval`: the spine that is flushed. Batches without updates are not inserted. -/
def delta : List (Batch K V Unit ℤ) :=
  t.accumulated.merge (t.inputs.filter fun b => !b.layers.isEmpty)

def lowers : List K :=
  (t.early ++ t.waiting ++ t.last :: t.late).map fun st => st.bounds.1

def beforeCommit : State K V :=
  t.early.foldl State.step s

/-- `AccumulateDelayTrace`: the snapshot. -/
def trace : List (Batch K V Unit ℤ) :=
  t.snapshot.merge (t.beforeCommit s).bound (t.beforeCommit s).trace

/-- Everything that the operator yields: an empty batch in every step in which it is not
flushed. -/
def outputs (filter : KeyFilter K V ℤ) (inclusive : Bool × Bool) : List (Layers K V Unit ℤ) :=
  ((t.early ++ t.waiting).map fun _ => []) ++
    eval (Snapshot.cursor filter (t.trace s)) t.chunkSize (Snapshot.cursor filter t.delta) inclusive
      (volume (Snapshot.total (t.trace s)).entries + volume (Snapshot.total t.delta).entries + 1)
      s.window t.last.bounds (Snapshot.start filter (t.trace s)) (Snapshot.start filter t.delta) ++
    t.late.map fun _ => []

/-- The state after the step in which the operator is flushed. The changes are appended to the
trace once they are accumulated, in that step or before it; merges that drop a part of them are
among those that may follow. -/
def flushed : State K V :=
  let s := (t.waiting ++ [t.last]).foldl State.step { t.beforeCommit s with trace := t.trace s }
  { s with trace := s.trace ++ t.delta, window := some t.last.bounds }

def after : State K V :=
  t.late.foldl State.step (t.flushed s)

end Transaction

def stateAfter (history : List (Transaction K V)) : State K V :=
  history.foldl (fun s t => t.after s) State.initial

def inputSum (history : List (Transaction K V)) (x : K × V × Unit) : ℤ :=
  (history.map fun t => Snapshot.weight t.inputs x).sum

/-- Everything that the operator yields in a history that starts in state `s`. -/
def outputs (filter : KeyFilter K V ℤ) (inclusive : Bool × Bool) :
    State K V → List (Transaction K V) → List (Layers K V Unit ℤ)
  | _, [] => []
  | s, t :: history => t.outputs s filter inclusive ++ outputs filter inclusive (t.after s) history

/-- The trace still has all keys of the last window when the snapshot is taken: no step since the
last flush has read a lower bound above that of the window. -/
def Transaction.Timely (t : Transaction K V) (s : State K V) : Prop :=
  ∀ w ∈ s.window, ∀ l ∈ (t.beforeCommit s).bound, l ≤ w.1

section

variable {s : State K V} {steps : List (Step K V)} {future : List K}

theorem foldl_step (h : (s.bound.toList ++ (steps.map fun st => st.bounds.1) ++ future).Pairwise
      (· ≤ ·)) :
    let s' := steps.foldl State.step s
    (s'.bound.toList ++ future).Pairwise (· ≤ ·) ∧
      ∀ k v, (∀ l ∈ s'.bound, l ≤ k) → (∀ l ∈ s.bound, l ≤ k) ∧
        weight s'.trace (k, v, ()) = weight s.trace (k, v, ()) := by
  induction steps generalizing s with
  | nil => exact ⟨by simpa using h, fun k v hk => ⟨hk, rfl⟩⟩
  | cons st steps ih =>
    rw [append_assoc, pairwise_append] at h
    obtain ⟨-, hrest, hcross⟩ := h
    have hnext : ((s.step st).bound.toList ++ (steps.map fun st => st.bounds.1) ++
        future).Pairwise (· ≤ ·) := by simpa [State.step] using hrest
    obtain ⟨hmono, hkeep⟩ := ih hnext
    refine ⟨hmono, fun k v hk => ?_⟩
    obtain ⟨hbound, hweight⟩ := hkeep k v hk
    have hle : ∀ l ∈ s.bound, l ≤ k := fun l hl =>
      (hcross l (by simpa using hl) st.bounds.1 (by simp)).trans (hbound _ rfl)
    exact ⟨hle, hweight.trans (st.merging.weight_eq _ _ k v hle)⟩

theorem foldl_step_window (steps : List (Step K V)) (s : State K V) :
    (steps.foldl State.step s).window = s.window := by
  induction steps generalizing s with
  | nil => rfl
  | cons st steps ih => exact ih (s.step st)

end

variable (t : Transaction K V)

theorem window_after (s : State K V) : (t.after s).window = some t.last.bounds :=
  foldl_step_window t.late (t.flushed s)

/-- The records of `w` within a window; none before the first one. -/
def contents (inclusive : Bool × Bool) (window : Option (K × K)) (k : K) (w : ℤ) : ℤ :=
  match window with
  | none => 0
  | some bounds => if within inclusive bounds k then w else 0

theorem le_of_within {inclusive : Bool × Bool} {bounds : K × K} {k : K}
    (h : within inclusive bounds k = true) : bounds.1 ≤ k := by
  obtain ⟨left, right⟩ := inclusive
  rw [within, Bool.and_eq_true] at h
  cases left with
  | true => simpa [beforeStart] using h.1
  | false =>
    have hlt : bounds.1 < k := by simpa [beforeStart] using h.1
    exact hlt.le

theorem Transaction.weight_delta (x : K × V × Unit) :
    weight t.delta x = weight t.inputs x :=
  (t.accumulated.weight_eq _ x).trans (weight_filter_nonempty t.inputs x)

section

variable (filter : KeyFilter K V ℤ) (inclusive : Bool × Bool) {s : State K V}

theorem Transaction.weight_outputs (t : Transaction K V)
    (hstart : ∀ w ∈ s.window, w.1 ≤ t.last.bounds.1) (k : K) (v : V) :
    ((t.outputs s filter inclusive).map fun c => c.weight (k, v, ())).sum =
      moved inclusive s.window t.last.bounds k (weight (t.trace s) (k, v, ())) +
        if within inclusive t.last.bounds k then weight t.inputs (k, v, ()) else 0 := by
  have hempty : ∀ steps : List (Step K V), ((steps.map fun _ => ([] : Layers K V Unit ℤ)).map
      fun c => Layers.weight c (k, v, ())).sum = 0 := by
    intro steps
    rw [map_map]
    refine sum_eq_zero fun c hc => ?_
    obtain ⟨st, -, rfl⟩ := mem_map.mp hc
    rfl
  have htrace : volume (total (t.trace s)).entries <
      volume (total (t.trace s)).entries + volume (total t.delta).entries + 1 := by
    omega
  have heval := eval_weight (lawful filter (t.trace s))
    (firm_start filter (t.trace s)) (lawful filter t.delta)
    (firm_start filter t.delta) t.chunkSize inclusive htrace (by omega) hstart k v
  rw [weight_total, weight_total, t.weight_delta] at heval
  rw [Transaction.outputs, map_append, sum_append, map_append, sum_append,
    hempty, hempty, heval, zero_add, add_zero]

/-- The invariant of a run: the trace has the sum of the inputs above its bound, the outputs add
up to the contents of the window, and the lower bounds that follow are not less than the bound and
the window. -/
structure Sound (s : State K V) (input output : K × V × Unit → ℤ) (future : List K) : Prop where
  monotone : (s.bound.toList ++ future).Pairwise (· ≤ ·)
  window : ∀ w ∈ s.window, ∀ l ∈ future, w.1 ≤ l
  first : s.window = none → ∀ x, input x = 0
  trace : ∀ k v, (∀ l ∈ s.bound, l ≤ k) → Snapshot.weight s.trace (k, v, ()) = input (k, v, ())
  output : ∀ k v, output (k, v, ()) = contents inclusive s.window k (input (k, v, ()))

theorem sound_initial {lowers : List K} (h : lowers.Pairwise (· ≤ ·)) :
    Sound inclusive (State.initial : State K V) 0 0 lowers where
  monotone := by simpa [State.initial] using h
  window := nofun
  first _ _ := rfl
  trace _ _ _ := rfl
  output _ _ := rfl

variable {inclusive} {input output : K × V × Unit → ℤ}

theorem Sound.transaction {future : List K} {t : Transaction K V}
    (h : Sound inclusive s input output (t.lowers ++ future)) (htimely : t.Timely s) :
    Sound inclusive (t.after s) (fun x => input x + weight t.inputs x)
      (fun x => output x + ((t.outputs s filter inclusive).map fun c => c.weight x).sum)
      future := by
  have hlowers : t.lowers ++ future = (t.early.map fun st => st.bounds.1) ++
      (((t.waiting ++ [t.last]).map fun st => st.bounds.1) ++
        ((t.late.map fun st => st.bounds.1) ++ future)) := by
    simp [Transaction.lowers]
  have hstart : ∀ w ∈ s.window, w.1 ≤ t.last.bounds.1 := fun w hw =>
    h.window w hw _ (by simp [Transaction.lowers])
  -- The steps before the snapshot, up to the flush, and after it.
  have hmono := h.monotone
  rw [hlowers, ← append_assoc] at hmono
  obtain ⟨hmono₁, hkeep₁⟩ := foldl_step hmono
  have hsnapshot : ∀ k v, (∀ l ∈ (t.beforeCommit s).bound, l ≤ k) →
      weight (t.trace s) (k, v, ()) = input (k, v, ()) := by
    intro k v hk
    obtain ⟨hle, hweight⟩ := hkeep₁ k v hk
    exact (t.snapshot.weight_eq _ _ k v hk).trans (hweight.trans (h.trace k v hle))
  rw [← append_assoc] at hmono₁
  obtain ⟨hmono₂, hkeep₂⟩ :=
    foldl_step (s := { t.beforeCommit s with trace := t.trace s }) hmono₁
  rw [← append_assoc] at hmono₂
  obtain ⟨hmono₃, hkeep₃⟩ := foldl_step (s := t.flushed s) hmono₂
  refine ⟨hmono₃, fun w hw l hl => ?_, fun hnone => ?_, fun k v hk => ?_, fun k v => ?_⟩
  · rw [window_after] at hw
    obtain rfl : t.last.bounds = w := Option.some.inj hw
    have hpair := (pairwise_append.mp h.monotone).2.1
    exact (pairwise_append.mp hpair).2.2 _ (by simp [Transaction.lowers]) l hl
  · rw [window_after] at hnone
    cases hnone
  · obtain ⟨hle₂, hweight₃⟩ := hkeep₃ k v hk
    obtain ⟨hle₁, hweight₂⟩ := hkeep₂ k v hle₂
    have happend : weight (t.flushed s).trace (k, v, ()) =
        weight ((t.waiting ++ [t.last]).foldl State.step
          { t.beforeCommit s with trace := t.trace s }).trace (k, v, ()) +
          weight t.delta (k, v, ()) := by
      unfold Transaction.flushed weight
      rw [map_append, sum_append]
    rw [Transaction.after, hweight₃, happend, hweight₂, hsnapshot k v hle₁, t.weight_delta]
  · rw [window_after, h.output k v, t.weight_outputs filter inclusive hstart]
    cases hw : s.window with
    | none =>
      rw [h.first hw (k, v, ())]
      simp [contents, moved]
    | some w =>
      by_cases hkey : w.1 ≤ k
      · have hbound : ∀ l ∈ (t.beforeCommit s).bound, l ≤ k := fun l hl =>
          (htimely w hw l hl).trans hkey
        rw [hsnapshot k v hbound]
        unfold contents moved
        dsimp only
        split <;> split <;> omega
      · -- Keys below the old window are in neither of the two.
        have hold : within inclusive w k = false := by
          by_contra hin
          exact hkey (le_of_within (by simpa using hin))
        have hnew : within inclusive t.last.bounds k = false := by
          by_contra hin
          exact hkey ((hstart w hw).trans (le_of_within (by simpa using hin)))
        simp [contents, moved, hold, hnew]

theorem Sound.run {history : List (Transaction K V)}
    (h : Sound inclusive s input output (history.flatMap Transaction.lowers))
    (htimely : ∀ before t after, history = before ++ t :: after →
      t.Timely (before.foldl (fun s t => t.after s) s)) :
    Sound inclusive (history.foldl (fun s t => t.after s) s) (fun x => input x + inputSum history x)
      (fun x => output x + ((outputs filter inclusive s history).map fun c => c.weight x).sum)
      [] := by
  induction history generalizing s input output with
  | nil => simpa [inputSum, outputs] using h
  | cons t history ih =>
    have hnext := h.transaction filter (htimely [] t history rfl)
    have hrest := ih hnext fun before t' after heq =>
      htimely (t :: before) t' after (by rw [heq, cons_append])
    simpa [inputSum, outputs, add_assoc] using hrest

end

/-- If the lower bound never decreases, and every snapshot of the trace is taken before a bound
above the last window is in force, then the outputs of a history add up to the records of the sum
of the inputs that lie within the current bounds. -/
theorem outputs_eq_within (filter : KeyFilter K V ℤ) (inclusive : Bool × Bool)
    (history : List (Transaction K V)) (t : Transaction K V)
    (hlower : ((history ++ [t]).flatMap Transaction.lowers).Pairwise (· ≤ ·))
    (htimely : ∀ before t' after, history ++ [t] = before ++ t' :: after →
      t'.Timely (stateAfter before)) (k : K) (v : V) :
    ((outputs filter inclusive .initial (history ++ [t])).map fun c => c.weight (k, v, ())).sum =
      if within inclusive t.last.bounds k then inputSum (history ++ [t]) (k, v, ()) else 0 := by
  have hsound := (sound_initial (V := V) inclusive hlower).run filter htimely
  have hwindow : ((history ++ [t]).foldl (fun s t => t.after s)
      (State.initial : State K V)).window = some t.last.bounds := by
    rw [foldl_append]
    exact window_after t _
  have houtput := hsound.output k v
  rw [hwindow] at houtput
  simpa [contents] using houtput

section

/-- Records with the keys up to 7 come in within the window from 0 to 10, each in a step of its
own, so that the trace gets as many batches as the merger waits for. -/
def filling : Transaction ℕ ℕ where
  inputs := (List.range 8).map fun k => Batch.ofTuples [((k, 0, ()), 1)]
  accumulated := .none
  early := List.replicate 7 ⟨(0, 10), .none⟩
  snapshot := .none
  waiting := []
  last := ⟨(0, 10), .none⟩
  late := []
  chunkSize := 3

/-- The window moves to 6. With a step before the commit the trace is told so before the snapshot
is taken. -/
def sliding (early : List (Step ℕ ℕ)) : Transaction ℕ ℕ where
  inputs := []
  accumulated := .none
  early := early
  snapshot := .all
  waiting := []
  last := ⟨(6, 10), .none⟩
  late := []
  chunkSize := 3

def passing : KeyFilter ℕ ℕ ℤ := ⟨fun _ _ => true, fun _ _ _ => rfl⟩

/-- A merge drops key 5 before the operator can retract it, and it stays in the output for ever. -/
theorem outputs_keep_dropped_record :
    (([filling, sliding [⟨(6, 10), .none⟩]]).flatMap Transaction.lowers).Pairwise (· ≤ ·) ∧
      within (true, true) (sliding [⟨(6, 10), .none⟩]).last.bounds 5 = false ∧
      ((outputs passing (true, true) .initial [filling, sliding [⟨(6, 10), .none⟩]]).map
        fun c => c.weight (5, 0, ())).sum = 1 := by
  decide +kernel

/-- Without that step the bound in force is still the one of the last window. -/
theorem outputs_eq_within_sliding :
    ((outputs passing (true, true) .initial ([filling] ++ [sliding []])).map
      fun c => c.weight (5, 0, ())).sum = 0 := by
  have hlower : (([filling] ++ [sliding []]).flatMap Transaction.lowers).Pairwise (· ≤ ·) := by
    decide
  have htimely : ∀ before t' after, [filling] ++ [sliding []] = before ++ t' :: after →
      t'.Timely (stateAfter before) := by
    intro before t' after hsplit w hw l hl
    match before, hsplit with
    | [], _ => cases hw
    | [_], hsplit =>
      obtain ⟨rfl, rfl, -⟩ : filling = _ ∧ sliding [] = t' ∧ _ := by simpa using hsplit
      obtain rfl : (0, 10) = w := Option.some.inj hw
      obtain rfl : 0 = l := Option.some.inj hl
      exact le_rfl
    | _ :: _ :: before, hsplit => simp at hsplit
  exact outputs_eq_within passing (true, true) [filling] (sliding []) hlower htimely 5 0

end

end Feldera.Operator.Window
