import Feldera.Operator.Integrator
import Feldera.Operator.UpsertHandle
import Feldera.Operator.UpsertLoop

/-!
Key-value tables (`add_input_map`). Every worker sorts its command vectors by
key, evaluates them against the trace of its own earlier output and adds the
result to the trace. `InputMap` is the table over all workers: the client's
calls of a step fill the mailboxes, the step empties them.

The table follows the commands in submission order for each key whose commands
the merge of the vectors does not reorder. It does not in general: the merge
compares whole commands, so of two staged batches the one with the smaller
command to a key is applied first.
-/

namespace Feldera.Operator.InputUpsert

open Weighted Trace KeyedMerge UpsertHandle List
  Feldera.Operator.UpsertLoop

variable {K V U : Type*}

/-- Commands to a key: set its value, remove it, or patch it. The constructors stand in
the order by which commands are compared. -/
inductive Update (V U : Type*) where
  | insert (v : V)
  | delete
  | update (u : U)
  deriving DecidableEq

/-- Position of a command in the derived order: by constructor, then by contents. -/
def Update.toSum : Update V U → V ⊕ₗ (Unit ⊕ₗ U)
  | .insert v => Sum.inlₗ v
  | .delete => Sum.inrₗ (Sum.inlₗ ())
  | .update u => Sum.inrₗ (Sum.inrₗ u)

theorem Update.toSum_injective : Function.Injective (Update.toSum (V := V) (U := U)) := by
  intro a b hab
  cases a <;> cases b <;> simp_all [Update.toSum]

instance [LinearOrder V] [LinearOrder U] : LinearOrder (Update V U) :=
  LinearOrder.lift' Update.toSum Update.toSum_injective

def applyUpdate (patch : V → U → V) (cur : Option V) : Update V U → Option V
  | .delete => none
  | .insert v => some v
  | .update u => cur.map fun v => patch v u

structure KeyState (V : Type*) where
  curVal : Option V
  keyUpdates : List (V × ℤ)

/-- Retracts what the trace holds for the key; the last value becomes the current one. -/
def retract (vals : List (V × ℤ)) : KeyState V :=
  vals.foldl
    (fun s p => if p.2 = 0 then s else ⟨some p.1, s.keyUpdates ++ [(p.1, -p.2)]⟩)
    ⟨none, []⟩

def KeyState.finish [LinearOrder V] (s : KeyState V) : List (V × ℤ) :=
  consolidate (s.keyUpdates ++ s.curVal.toList.map fun v => (v, 1))

section

variable [LinearOrder K] [LinearOrder V]

def handler (patch : V → U → V) (trace : Layers K V Unit ℤ) :
    Handler K (Update V U) V Empty (KeyState V) where
  start k := (retract (trace.valuesAt k), [])
  apply _ s c := ({ s with curVal := applyUpdate patch s.curVal c }, [])
  finish s := s.finish

variable [LinearOrder U]

def eval (patch : V → U → V) (trace : Layers K V Unit ℤ)
    (updates : List (List (K × Update V U))) : Layers K V Unit ℤ :=
  ((handler patch trace).eval updates).1

/-- `add_upsert_indexed` sorts each vector by key and drops the empty ones. -/
def sortVectors {C : Type*} (upserts : List (List (K × C))) : List (List (K × C)) :=
  (upserts.map sortByKey).filter fun l => !l.isEmpty

end

/-- Weight of `v` in a table whose entry for a key is `o`. -/
def unit [DecidableEq V] (o : Option V) (v : V) : ℤ :=
  if o = some v then 1 else 0

section

variable [LinearOrder K] [LinearOrder V]

/-- The trace holds the map `m`: every entry with weight one and nothing else. -/
def Holds (trace : Layers K V Unit ℤ) (m : K → Option V) : Prop :=
  ∀ k v, trace.weight (k, v, ()) = unit (m k) v

theorem unit_eq_weight (o : Option V) (v : V) :
    unit o v = Weighted.weight (o.toList.map fun v => (v, (1 : ℤ))) v := by
  cases o with
  | none => rfl
  | some x => simp [unit]

variable {m : K → Option V} {trace : Layers K V Unit ℤ}

theorem Holds.valuesAt (hb : IsBatch trace) (h : Holds trace m) (k : K) :
    trace.valuesAt k = (m k).toList.map fun v => (v, (1 : ℤ)) := by
  have hright : Consolidated ((m k).toList.map fun v => (v, (1 : ℤ))) := by
    cases m k with
    | none => exact Consolidated.nil
    | some x => exact ⟨by simp, by simp⟩
  apply (hb.valuesAt_consolidated k).ext hright
  intro v
  rw [hb.weight_valuesAt, h, unit_eq_weight]

theorem Holds.start (hb : IsBatch trace) (h : Holds trace m) (k : K) :
    retract (trace.valuesAt k) = ⟨m k, (m k).toList.map fun v => (v, (-1 : ℤ))⟩ := by
  rw [h.valuesAt hb]
  cases m k with
  | none => rfl
  | some x => simp [retract]

variable (patch : V → U → V)

theorem keyRun_eq (trace : Layers K V Unit ℤ) (k : K) (cs : List (Update V U)) :
    (handler patch trace).keyRun k cs =
      ({ retract (trace.valuesAt k) with
          curVal := cs.foldl (applyUpdate patch) (retract (trace.valuesAt k)).curVal }, []) := by
  induction cs using reverseRecOn with
  | nil => rfl
  | append_singleton cs c ih =>
    rw [Handler.keyRun_concat, ih, foldl_append]
    rfl

theorem weight_finish (old new : Option V) (v : V) :
    Weighted.weight
      (KeyState.finish ⟨new, old.toList.map fun v => (v, (-1 : ℤ))⟩) v =
        unit new v - unit old v := by
  have hneg : (old.toList.map fun v => (v, (-1 : ℤ))) =
      (old.toList.map fun v => (v, (1 : ℤ))).map fun p => (p.1, -p.2) := by
    simp
  rw [KeyState.finish, weight_consolidate, Weighted.weight_append, hneg, weight_neg,
    ← unit_eq_weight, ← unit_eq_weight]
  ring

variable [LinearOrder U]

/-- One evaluation, against a trace that holds `m`: each key moves from its entry in `m`
to what its commands, in merge order, make of it. -/
theorem eval_spec (hb : IsBatch trace) (hm : Holds trace m)
    {updates : List (List (K × Update V U))} (hs : ∀ l ∈ updates, SortedByKey l) :
    IsBatch (eval patch trace updates) ∧ ∀ k v, (eval patch trace updates).weight (k, v, ()) =
      unit ((commandsOf k (merged updates)).foldl (applyUpdate patch) (m k)) v -
        unit (m k) v := by
  have hfinish : ∀ x, Consolidated ((handler (K := K) (U := U) patch trace).finish x) :=
    fun x => consolidate_consolidated _
  obtain ⟨hbatch, hweight⟩ := Handler.eval_written hfinish hs
  refine ⟨hbatch, fun k v => ?_⟩
  rw [eval, hweight, keyRun_eq, hm.start hb]
  split
  · next hnil => simp [hnil]
  · exact weight_finish _ _ v

end

/-- The specification: commands applied one by one to a map. -/
def applyAll [DecidableEq K] (patch : V → U → V) (m : K → Option V)
    (cmds : List (K × Update V U)) : K → Option V :=
  cmds.foldl (fun m a => Function.update m a.1 (applyUpdate patch (m a.1) a.2)) m

theorem applyAll_eq [LinearOrder K] (patch : V → U → V) (m : K → Option V)
    (cmds : List (K × Update V U)) (k : K) :
    applyAll patch m cmds k = (commandsOf k cmds).foldl (applyUpdate patch) (m k) := by
  induction cmds generalizing m with
  | nil => rfl
  | cons a cmds ih =>
    have hcons : applyAll patch m (a :: cmds) =
        applyAll patch (Function.update m a.1 (applyUpdate patch (m a.1) a.2)) cmds := rfl
    rw [hcons, ih]
    by_cases ha : a.1 = k
    · subst ha
      rw [commandsOf_cons_of_eq rfl, Function.update_self]
      rfl
    · rw [commandsOf_cons_of_ne ha, Function.update_of_ne (Ne.symm ha)]

section

variable {n : Nat} [NeZero n] [LinearOrder K] [LinearOrder V] [LinearOrder U]
  (hash : K → Nat) (patch : V → U → V)

def updatesOf {C : Type*} (calls : List (Call K C)) (w : Fin n) : List (List (K × C)) :=
  sortVectors (mailboxes hash calls w).vectors

def delta (w : Fin n) (trace : Batch K V Unit ℤ) (calls : List (Call K (Update V U))) :
    Layers K V Unit ℤ :=
  eval patch trace.layers (updatesOf hash calls w)

def runningSum (n : Nat) [NeZero n] (hash : K → Nat) (patch : V → U → V)
    (steps : List (List (Call K (Update V U)))) (k : K) (v : V) : ℤ :=
  Integrator.runningSum (n := n) (delta hash patch) steps (k, v, ())

omit [LinearOrder V] [LinearOrder U] in
theorem updatesOf_sorted {C : Type*} (calls : List (Call K C)) (w : Fin n) :
    ∀ l ∈ updatesOf hash calls w, SortedByKey l := by
  intro l hl
  obtain ⟨m, -, rfl⟩ := mem_map.mp (mem_filter.mp hl).1
  exact sortByKey_sorted m

omit [LinearOrder V] [LinearOrder U] in
/-- The worker in charge of `k` takes the commands to `k` in submission order, and the other
workers take none. -/
theorem commandsOf_updatesOf {C : Type*} [LinearOrder C] {calls : List (Call K C)} {k : K}
    (h : InOrder k calls) (w : Fin n) :
    commandsOf k (merged (updatesOf hash calls w)) =
      if worker n hash k = w then commandsOf k (submitted calls) else [] := by
  have hvectors : (mailboxes hash calls w).vectors.map sortByKey =
      (direct calls :: staged calls).map fun l => sortByKey (stage hash l w) := by
    rw [mailboxes_eq, Mailbox.vectors, ← map_cons (f := fun l => stage hash l w), map_map]
    rfl
  have hflatten : (updatesOf hash calls w).flatten =
      ((direct calls :: staged calls).map fun l => sortByKey (stage hash l w)).flatten := by
    rw [← hvectors]
    exact flatten_filter_not_isEmpty
  have hkept : Kept k (updatesOf hash calls w) ∧ commandsOf k (updatesOf hash calls w).flatten =
      if worker n hash k = w then commandsOf k (submitted calls) else [] := by
    unfold updatesOf sortVectors at hflatten ⊢
    rw [hflatten, hvectors]
    by_cases hk : worker n hash k = w
    · have hf : ∀ l : List (K × C), commandsOf k (sortByKey (stage hash l w)) = commandsOf k l := by
        intro l
        rw [commandsOf_sortByKey, commandsOf_stage, if_pos hk]
      rw [if_pos hk, h.commandsOf_submitted, commandsOf_flatten_map hf]
      exact ⟨(h.kept.map hf).filter _, rfl⟩
    · have hf : ∀ m ∈ (direct calls :: staged calls).map fun l => sortByKey (stage hash l w),
          commandsOf k m = [] := by
        intro m hm
        obtain ⟨l, -, rfl⟩ := mem_map.mp hm
        rw [commandsOf_sortByKey, commandsOf_stage, if_neg hk]
      rw [if_neg hk]
      exact ⟨(kept_of_forall_nil hf).filter _, commandsOf_flatten_eq_nil hf⟩
  rw [commandsOf_merged (updatesOf_sorted hash calls w) hkept.1, hkept.2]

theorem step_holds {traces : Fin n → Batch K V Unit ℤ} {w : Fin n} {m : K → Option V}
    (hm : Holds (traces w).layers m) (calls : List (Call K (Update V U))) :
    Holds (Integrator.step (delta hash patch) traces calls w).layers fun k =>
      (commandsOf k (merged (updatesOf hash calls w))).foldl (applyUpdate patch) (m k) := by
  intro k v
  have hdelta := (eval_spec patch (traces w).isBatch hm (updatesOf_sorted hash calls w)).2 k v
  have hsum := Integrator.weight_step (delta hash patch) traces calls w (k, v, ())
  rw [Batch.weight, Batch.weight, hm, delta, hdelta] at hsum
  rw [hsum]
  ring

/-- Whatever the order of the commands, every worker's trace is a map with weights one;
and for a key whose commands stay in order it is the map of the specification. -/
theorem run_holds {k : K} {steps : List (List (Call K (Update V U)))}
    (h : ∀ calls ∈ steps, InOrder k calls) (w : Fin n) :
    ∃ m, Holds (Integrator.run (delta hash patch) steps w).layers m ∧
      m k = if worker n hash k = w then
        applyAll patch (fun _ => none) (steps.flatMap submitted) k else none := by
  induction steps using reverseRecOn with
  | nil =>
    exact ⟨fun _ => none, fun k v => Integrator.weight_empty w (k, v, ()), by simp [applyAll]⟩
  | append_singleton steps calls ih =>
    obtain ⟨m, hm, hmk⟩ := ih fun c hc => h c (by simp [hc])
    have hcalls : InOrder k calls := h calls (by simp)
    rw [Integrator.run_concat]
    refine ⟨_, step_holds hash patch hm calls, ?_⟩
    rw [commandsOf_updatesOf hash hcalls, hmk]
    by_cases hk : worker n hash k = w
    · simp only [if_pos hk, applyAll_eq]
      simp
    · simp [hk]

/-- The table follows the commands to every key that no step reorders. -/
theorem runningSum_eq_of_inOrder (k : K) (steps : List (List (Call K (Update V U))))
    (h : ∀ calls ∈ steps, InOrder k calls) (v : V) :
    runningSum n hash patch steps k v =
      if applyAll patch (fun _ => none) (steps.flatMap submitted) k = some v then 1 else 0 := by
  have hworker : ∀ w : Fin n,
      (Integrator.run (delta hash patch) steps w).weight (k, v, ()) =
        if worker n hash k = w then
          unit (applyAll patch (fun _ => none) (steps.flatMap submitted) k) v else 0 := by
    intro w
    obtain ⟨m, hm, hmk⟩ := run_holds hash patch h w
    rw [Batch.weight, hm, hmk]
    split
    · rfl
    · rfl
  rw [runningSum, Integrator.runningSum_eq]
  simp only [hworker, Finset.sum_ite_eq, Finset.mem_univ, if_true]
  rfl

/-- An insertion, then a patch in a step that also stages a batch. -/
theorem runningSum_push_then_staged :
    runningSum 1 (fun _ : ℕ => 0) (fun v u : ℕ => v + u)
      [[.append [(0, .insert 5)]], [.push 0 (.update 2), .appendStaged [(1, .insert 3)]]] 0 7 =
        1 := by
  rw [runningSum_eq_of_inOrder (n := 1) _ _ 0 _ (by decide) 7]
  decide

/-- A staged deletion and a staged insertion after it: the insertion is applied first and
is lost. -/
theorem staged_insert_after_delete_lost :
    runningSum 1 (fun _ : ℕ => 0) (fun v u : ℕ => v + u)
      [[.appendStaged [(0, .delete)], .appendStaged [(0, .insert 5)]]] 0 5 = 0 ∧
    applyAll (fun v u : ℕ => v + u) (fun _ : ℕ => none)
      (submitted [.appendStaged [(0, .delete)], .appendStaged [(0, .insert 5)]]) 0 = some 5 := by
  decide

/-- In every run, in whatever order the commands are merged, a key has at most one value, and that
has weight one. -/
theorem runningSum_functional (k : K) (steps : List (List (Call K (Update V U)))) :
    ∃ o, ∀ v, runningSum n hash patch steps k v = unit o v := by
  have hother : ∀ calls : List (Call K (Update V U)), ∀ w : Fin n, worker n hash k ≠ w →
      commandsOf k (merged (updatesOf hash calls w)) = [] := by
    intro calls w hw
    have hnil : ∀ l ∈ updatesOf hash calls w, commandsOf k l = [] := by
      intro l hl
      obtain ⟨m, hm, rfl⟩ := mem_map.mp (mem_filter.mp hl).1
      rw [mailboxes_eq, Mailbox.vectors, ← map_cons (f := fun l => stage hash l w)] at hm
      obtain ⟨l, -, rfl⟩ := mem_map.mp hm
      rw [commandsOf_sortByKey, commandsOf_stage, if_neg hw]
    rw [commandsOf_merged (updatesOf_sorted hash calls w) (kept_of_forall_nil hnil),
      commandsOf_flatten_eq_nil hnil]
  -- the trace of a worker is a map, which is empty at a key of another worker
  have hrun : ∀ w : Fin n, ∃ m, Holds (Integrator.run (delta hash patch) steps w).layers m ∧
      (worker n hash k ≠ w → m k = none) := by
    intro w
    induction steps using reverseRecOn with
    | nil => exact ⟨fun _ => none, fun k v => Integrator.weight_empty w (k, v, ()), fun _ => rfl⟩
    | append_singleton steps calls ih =>
      obtain ⟨m, hm, hmk⟩ := ih
      rw [Integrator.run_concat]
      refine ⟨_, step_holds hash patch hm calls, fun hw => ?_⟩
      rw [hother calls w hw, hmk hw, foldl_nil]
  choose m hm hmk using hrun
  refine ⟨m (worker n hash k) k, fun v => ?_⟩
  rw [runningSum, Integrator.runningSum_eq, Finset.sum_eq_single (worker n hash k)]
  · exact hm _ k v
  · intro w _ hw
    rw [Batch.weight, hm, hmk w hw.symm]
    rfl
  · simp

theorem runningSum_functional_staged :
    ∃ o, ∀ v, runningSum 1 (fun _ : ℕ => 0) (fun v u : ℕ => v + u)
      [[.appendStaged [(0, .delete)], .appendStaged [(0, .insert 5)]]] 0 v = unit o v :=
  runningSum_functional (n := 1) _ _ 0 _

end

end Feldera.Operator.InputUpsert
