import Feldera.Operator.InputUpsert

/-!
Key-value tables with a waterline (`InputUpsertWithWaterline`). A filter decides,
for the waterline in force, which values may still be touched. A key whose stored
value is rejected is skipped with all its commands; of the commands to other keys,
an insertion or a patch whose result is rejected is refused. Every refusal is
reported. The waterline is computed from the operator's own output and is in force
one step later.
-/

namespace Feldera.Operator.InputUpsertWaterline

open Weighted Trace KeyedMerge UpsertHandle List
  Feldera.Operator.UpsertLoop Feldera.Operator.InputUpsert

variable {K V U W E : Type*}

structure Config (K V U W E : Type*) where
  patchFunc : V → U → V
  initWaterline : W
  extractTs : K → V → W → W
  filterFunc : W → K → V → Bool
  reportFunc : W → K → V → ℤ → E

structure KeyState (V : Type*) where
  curVal : Option V
  keyUpdates : List (V × ℤ)
  skipKey : Bool

namespace Config

variable (c : Config K V U W E)

/-- Retracts what the trace holds for `k`, unless the filter rejects it. -/
def startKey (waterline : W) (k : K) (vals : List (V × ℤ)) : KeyState V × List E :=
  vals.foldl
    (fun r p =>
      if p.2 = 0 then r
      else if c.filterFunc waterline k p.1 then
        (⟨some p.1, r.1.keyUpdates ++ [(p.1, -p.2)], r.1.skipKey⟩, r.2)
      else
        ({ r.1 with skipKey := true }, r.2 ++ [c.reportFunc waterline k p.1 (-p.2)]))
    (⟨none, [], false⟩, [])

def applyCommand (waterline : W) (k : K) (s : KeyState V) (upd : Update V U) :
    KeyState V × List E :=
  if s.skipKey then (s, [])
  else
    match upd with
    | .delete => ({ s with curVal := none }, [])
    | .insert v =>
      if c.filterFunc waterline k v then ({ s with curVal := some v }, [])
      else (s, [c.reportFunc waterline k v 1])
    | .update u =>
      match s.curVal with
      | some v =>
        if c.filterFunc waterline k (c.patchFunc v u) then
          ({ s with curVal := some (c.patchFunc v u) }, [])
        else (s, [c.reportFunc waterline k (c.patchFunc v u) 1])
      | none => (s, [])

section

variable [LinearOrder K] [LinearOrder V]

def handler (waterline : W) (trace : Layers K V Unit ℤ) :
    Handler K (Update V U) V E (KeyState V) where
  start k := c.startKey waterline k (trace.valuesAt k)
  apply k s upd := c.applyCommand waterline k s upd
  finish s := InputUpsert.KeyState.finish ⟨s.curVal, s.keyUpdates⟩

/-- `InputUpsertWithWaterline::eval`: the output and the errors, each of weight one. -/
def eval [LinearOrder U] (waterline : W) (trace : Layers K V Unit ℤ)
    (updates : List (List (K × Update V U))) : Layers K V Unit ℤ × List E :=
  (c.handler waterline trace).eval updates

/-- `dyn_waterline`, one worker: the bound of all timestamps of a batch. -/
def localWaterline [SemilatticeSup W] (old : W) (batch : Layers K V Unit ℤ) : W :=
  ((batch.flatMap fun p => p.2.map fun q => (p.1, q.1)).foldl
    (fun r kv =>
      let ts := c.extractTs kv.1 kv.2 r.2
      (r.1 ⊔ ts, ts))
    (old, old)).1

end

section

variable (waterline : W)

/-- The stored value of a key is out of reach. -/
def locked (k : K) : Option V → Bool
  | some v => !c.filterFunc waterline k v
  | none => false

/-- A command to a key that is not locked and has the value `cur` is refused. -/
def refuses (k : K) (cur : Option V) : Update V U → Bool
  | .delete => false
  | .insert v => !c.filterFunc waterline k v
  | .update u => c.locked waterline k (cur.map fun v => c.patchFunc v u)

/-- The verdicts on the commands to one key: accepted or refused, one after the other. -/
def judgeKey (k : K) (isLocked : Bool) : Option V → List (Update V U) → List (Update V U × Bool)
  | _, [] => []
  | cur, upd :: upds =>
    if isLocked || c.refuses waterline k cur upd then
      (upd, false) :: judgeKey k isLocked cur upds
    else (upd, true) :: judgeKey k isLocked (applyUpdate c.patchFunc cur upd) upds

/-- The verdicts on the commands of a step, given the table `m₀` before it. `m` is the table
so far. -/
def judge [DecidableEq K] (m₀ : K → Option V) :
    (K → Option V) → List (K × Update V U) → List ((K × Update V U) × Bool)
  | _, [] => []
  | m, a :: cmds =>
    if c.locked waterline a.1 (m₀ a.1) || c.refuses waterline a.1 (m a.1) a.2 then
      (a, false) :: judge m₀ m cmds
    else
      (a, true) ::
        judge m₀ (Function.update m a.1 (applyUpdate c.patchFunc (m a.1) a.2)) cmds

def accepted [DecidableEq K] (m : K → Option V) (cmds : List (K × Update V U)) :
    List (K × Update V U) :=
  ((c.judge waterline m m cmds).filter Prod.snd).map Prod.fst

def refused [DecidableEq K] (m : K → Option V) (cmds : List (K × Update V U)) :
    List (K × Update V U) :=
  ((c.judge waterline m m cmds).filter fun j => !j.2).map Prod.fst

/-- The verdicts on the commands to `k` depend on these commands only. -/
theorem judge_key [LinearOrder K] (m₀ m : K → Option V) (cmds : List (K × Update V U)) (k : K) :
    ((c.judge waterline m₀ m cmds).filter fun j => decide (j.1.1 = k)).map
        (fun j => (j.1.2, j.2)) =
      c.judgeKey waterline k (c.locked waterline k (m₀ k)) (m k) (commandsOf k cmds) := by
  induction cmds generalizing m with
  | nil => rfl
  | cons a cmds ih =>
    by_cases ha : a.1 = k
    · subst ha
      rw [commandsOf_cons_of_eq rfl]
      by_cases href :
          (c.locked waterline a.1 (m₀ a.1) || c.refuses waterline a.1 (m a.1) a.2) = true
      · simp only [judge, judgeKey, if_pos href]
        rw [filter_cons_of_pos (by simp), map_cons, ih]
      · simp only [judge, judgeKey, if_neg href]
        rw [filter_cons_of_pos (by simp), map_cons, ih, Function.update_self]
    · rw [commandsOf_cons_of_ne ha]
      by_cases href :
          (c.locked waterline a.1 (m₀ a.1) || c.refuses waterline a.1 (m a.1) a.2) = true
      · simp only [judge, if_pos href]
        rw [filter_cons_of_neg (by simpa using ha), ih]
      · simp only [judge, if_neg href]
        rw [filter_cons_of_neg (by simpa using ha), ih,
          Function.update_of_ne (Ne.symm ha)]

def acceptedKey (k : K) (isLocked : Bool) (cur : Option V) (upds : List (Update V U)) :
    List (Update V U) :=
  ((c.judgeKey waterline k isLocked cur upds).filter Prod.snd).map Prod.fst

theorem commandsOf_accepted [LinearOrder K] (m : K → Option V) (cmds : List (K × Update V U))
    (k : K) :
    commandsOf k (c.accepted waterline m cmds) =
      c.acceptedKey waterline k (c.locked waterline k (m k)) (m k) (commandsOf k cmds) := by
  unfold accepted acceptedKey commandsOf
  have hkey := c.judge_key waterline m m cmds k
  unfold commandsOf at hkey
  rw [← hkey, filter_map, map_map, filter_map, map_map,
    filter_filter, filter_filter]
  congr 1
  apply filter_congr
  intro j _
  simp [Bool.and_comm]

variable (upds : List (Update V U))

theorem judgeKey_locked (k : K) (cur : Option V) :
    c.acceptedKey waterline k true cur upds = [] := by
  induction upds with
  | nil => rfl
  | cons upd upds ih => simpa [acceptedKey, judgeKey] using ih

variable {k : K} {upd : Update V U} {s : KeyState V}

theorem applyCommand_refused (hskip : s.skipKey = false)
    (href : c.refuses waterline k s.curVal upd = true) :
    ∃ v, c.filterFunc waterline k v = false ∧
      c.applyCommand waterline k s upd = (s, [c.reportFunc waterline k v 1]) := by
  cases upd with
  | delete => simp [refuses] at href
  | insert v =>
    have hv : c.filterFunc waterline k v = false := by
      simpa [refuses] using href
    exact ⟨v, hv, by simp [applyCommand, hskip, hv]⟩
  | update u =>
    cases hcur : s.curVal with
    | none => simp [refuses, hcur, locked] at href
    | some v =>
      have hv : c.filterFunc waterline k (c.patchFunc v u) = false := by
        simpa [refuses, hcur, locked] using href
      exact ⟨c.patchFunc v u, hv, by simp [applyCommand, hskip, hcur, hv]⟩

theorem applyCommand_accepted (hskip : s.skipKey = false)
    (href : c.refuses waterline k s.curVal upd = false) :
    c.applyCommand waterline k s upd =
      ({ s with curVal := applyUpdate c.patchFunc s.curVal upd }, []) := by
  cases upd with
  | delete => simp [applyCommand, hskip, applyUpdate]
  | insert v =>
    have hv : c.filterFunc waterline k v = true := by
      simpa [refuses] using href
    simp [applyCommand, hskip, hv, applyUpdate]
  | update u =>
    cases hcur : s.curVal with
    | none =>
      obtain ⟨cur, ku, skip⟩ := s
      obtain rfl : cur = none := hcur
      simp [applyCommand, applyUpdate]
    | some v =>
      have hv : c.filterFunc waterline k (c.patchFunc v u) = true := by
        simpa [refuses, hcur, locked] using href
      simp [applyCommand, hskip, hcur, hv, applyUpdate]

theorem not_locked_applyUpdate {cur : Option V} (href : c.refuses waterline k cur upd = false) :
    c.locked waterline k (applyUpdate c.patchFunc cur upd) = false := by
  cases upd with
  | delete => rfl
  | insert v => exact href
  | update u => exact href

/-- The commands to a key that is not locked, from any state of the key. -/
theorem foldl_applyCommand (k : K) (cur : Option V) (ku : List (V × ℤ)) (errs : List E) :
    ∃ errs', upds.foldl
        (fun r upd => ((c.applyCommand waterline k r.1 upd).1,
          r.2 ++ (c.applyCommand waterline k r.1 upd).2)) (⟨cur, ku, false⟩, errs) =
        (⟨(c.acceptedKey waterline k false cur upds).foldl (applyUpdate c.patchFunc) cur,
          ku, false⟩, errs ++ errs') ∧
      ∀ upd, (upd, false) ∈ c.judgeKey waterline k false cur upds →
        ∃ v w, c.filterFunc waterline k v = false ∧ c.reportFunc waterline k v w ∈ errs' := by
  induction upds generalizing cur errs with
  | nil => exact ⟨[], by simp [acceptedKey, judgeKey], by simp [judgeKey]⟩
  | cons upd upds ih =>
    cases href : c.refuses waterline k cur upd with
    | true =>
      have hjudge : c.judgeKey waterline k false cur (upd :: upds) =
          (upd, false) :: c.judgeKey waterline k false cur upds := by
        simp [judgeKey, href]
      obtain ⟨v, hv, happly⟩ := c.applyCommand_refused waterline
        (s := ⟨cur, ku, false⟩) rfl href
      obtain ⟨errs', hfold, herrs⟩ := ih cur (errs ++ [c.reportFunc waterline k v 1])
      refine ⟨c.reportFunc waterline k v 1 :: errs', ?_, ?_⟩
      · rw [foldl_cons, happly, hfold]
        simp [acceptedKey, hjudge]
      intro upd' hupd'
      rw [hjudge] at hupd'
      rcases mem_cons.mp hupd' with _ | hmem
      · exact ⟨v, 1, hv, by simp⟩
      · obtain ⟨v', w, hv', hmem'⟩ := herrs upd' hmem
        exact ⟨v', w, hv', by simp [hmem']⟩
    | false =>
      have hjudge : c.judgeKey waterline k false cur (upd :: upds) =
          (upd, true) ::
            c.judgeKey waterline k false (applyUpdate c.patchFunc cur upd) upds := by
        simp [judgeKey, href]
      have happly := c.applyCommand_accepted waterline (s := ⟨cur, ku, false⟩) rfl href
      obtain ⟨errs', hfold, herrs⟩ := ih (applyUpdate c.patchFunc cur upd) errs
      refine ⟨errs', ?_, ?_⟩
      · rw [foldl_cons, happly, append_nil, hfold]
        simp [acceptedKey, hjudge]
      · intro upd' hupd'
        rw [hjudge] at hupd'
        exact herrs upd' (by simpa using hupd')

theorem not_locked_foldl {cur : Option V} (hcur : c.locked waterline k cur = false) :
    c.locked waterline k
      ((c.acceptedKey waterline k false cur upds).foldl (applyUpdate c.patchFunc) cur) =
        false := by
  induction upds generalizing cur with
  | nil => exact hcur
  | cons upd upds ih =>
    cases href : c.refuses waterline k cur upd with
    | true => simpa [acceptedKey, judgeKey, href] using ih hcur
    | false =>
      simpa [acceptedKey, judgeKey, href] using ih (c.not_locked_applyUpdate waterline href)

theorem exists_of_locked {cur : Option V} (h : c.locked waterline k cur = true) :
    ∃ x, cur = some x ∧ c.filterFunc waterline k x = false := by
  cases cur with
  | none => simp [locked] at h
  | some x => exact ⟨x, rfl, by simpa [locked] using h⟩

theorem foldl_applyCommand_skip (k : K) (s : KeyState V) (hskip : s.skipKey = true) (errs : List E) :
    upds.foldl
      (fun r upd => ((c.applyCommand waterline k r.1 upd).1,
        r.2 ++ (c.applyCommand waterline k r.1 upd).2)) (s, errs) = (s, errs) := by
  induction upds with
  | nil => rfl
  | cons upd upds ih =>
    rw [foldl_cons]
    simpa [applyCommand, hskip] using ih

end

section

variable [LinearOrder K] [LinearOrder V] (waterline : W)

variable {m : K → Option V} {trace : Layers K V Unit ℤ} {k : K}

section

variable (hb : IsBatch trace) (hm : InputUpsert.Holds trace m)
include hb hm

theorem startKey_eq (k : K) :
    c.startKey waterline k (trace.valuesAt k) =
      match m k with
      | none => (⟨none, [], false⟩, [])
      | some v =>
        if c.filterFunc waterline k v then (⟨some v, [(v, -1)], false⟩, [])
        else (⟨none, [], true⟩, [c.reportFunc waterline k v (-1)]) := by
  rw [hm.valuesAt hb]
  cases m k with
  | none => rfl
  | some v => cases h : c.filterFunc waterline k v <;> simp [startKey, h]

/-- A key with a rejected value puts out nothing, and the value is reported. -/
theorem keyRun_locked {v : V} (hk : m k = some v) (hv : c.filterFunc waterline k v = false)
    (upds : List (Update V U)) :
    (c.handler waterline trace).keyRun k upds =
      (⟨none, [], true⟩, [c.reportFunc waterline k v (-1)]) := by
  have hstart := c.startKey_eq waterline hb hm k
  simp only [hk, hv] at hstart
  have hfold := c.foldl_applyCommand_skip waterline upds k ⟨none, [], true⟩
    rfl [c.reportFunc waterline k v (-1)]
  unfold Handler.keyRun
  simp only [handler, hstart]
  exact hfold

/-- A key with no rejected value moves along its accepted commands, and each refused
command is reported. -/
theorem keyRun_unlocked (hk : c.locked waterline k (m k) = false) (upds : List (Update V U)) :
    ((c.handler waterline trace).keyRun k upds).1 =
        ⟨(c.acceptedKey waterline k false (m k) upds).foldl (applyUpdate c.patchFunc) (m k),
          (m k).toList.map fun v => (v, (-1 : ℤ)), false⟩ ∧
      ∀ upd, (upd, false) ∈ c.judgeKey waterline k false (m k) upds →
        ∃ v w, c.filterFunc waterline k v = false ∧
          c.reportFunc waterline k v w ∈ ((c.handler waterline trace).keyRun k upds).2 := by
  have hstart : c.startKey waterline k (trace.valuesAt k) =
      (⟨m k, (m k).toList.map fun v => (v, (-1 : ℤ)), false⟩, []) := by
    rw [c.startKey_eq waterline hb hm k]
    cases hmk : m k with
    | none => rfl
    | some v =>
      have hv : c.filterFunc waterline k v = true := by
        simpa [hmk, locked] using hk
      simp [hv]
  obtain ⟨errs, hfold, herrs⟩ := c.foldl_applyCommand waterline upds k
    (m k) ((m k).toList.map fun v => (v, (-1 : ℤ))) []
  have hrun : (c.handler waterline trace).keyRun k upds =
      (⟨(c.acceptedKey waterline k false (m k) upds).foldl (applyUpdate c.patchFunc) (m k),
          (m k).toList.map fun v => (v, (-1 : ℤ)), false⟩, errs) := by
    unfold Handler.keyRun
    simp only [handler, hstart]
    simpa using hfold
  rw [hrun]
  exact ⟨rfl, herrs⟩

end

theorem finish_consolidated (trace : Layers K V Unit ℤ) (s : KeyState V) :
    Consolidated ((c.handler waterline trace).finish s) :=
  consolidate_consolidated _

variable [LinearOrder U] {updates : List (List (K × Update V U))}

section

variable (hb : IsBatch trace) (hm : InputUpsert.Holds trace m) (hs : ∀ l ∈ updates, SortedByKey l)
include hb hm hs

theorem eval_weight (k : K) (v : V) :
    (c.eval waterline trace updates).1.weight (k, v, ()) =
      unit ((c.acceptedKey waterline k (c.locked waterline k (m k)) (m k)
        (commandsOf k (merged updates))).foldl (applyUpdate c.patchFunc) (m k)) v -
          unit (m k) v := by
  rw [eval, (Handler.eval_written (c.finish_consolidated waterline trace) hs).2]
  split
  · next hnil => simp [hnil, acceptedKey, judgeKey]
  cases hlock : c.locked waterline k (m k) with
  | true =>
    obtain ⟨x, hmk, hx⟩ := c.exists_of_locked waterline hlock
    rw [c.keyRun_locked waterline hb hm hmk hx, judgeKey_locked]
    simp [handler, InputUpsert.KeyState.finish, weight_consolidate]
  | false =>
    rw [(c.keyRun_unlocked waterline hb hm hlock _).1]
    exact weight_finish _ _ v

/-- One evaluation: each refused command to a key is reported with a value of the key that
the filter rejects. -/
theorem eval_reports {upd : Update V U}
    (hupd : (upd, false) ∈ c.judgeKey waterline k (c.locked waterline k (m k)) (m k)
      (commandsOf k (merged updates))) :
    ∃ v w, c.filterFunc waterline k v = false ∧
      c.reportFunc waterline k v w ∈ (c.eval waterline trace updates).2 := by
  have hne : commandsOf k (merged updates) ≠ [] := by
    intro hnil
    simp [hnil, judgeKey] at hupd
  have herr : ∀ e, e ∈ ((c.handler waterline trace).keyRun k (commandsOf k (merged updates))).2 →
      e ∈ (c.eval waterline trace updates).2 := by
    intro e he
    exact (Handler.eval_errors (c.finish_consolidated waterline trace) hs e).mpr ⟨k, hne, he⟩
  cases hlock : c.locked waterline k (m k) with
  | true =>
    obtain ⟨x, hmk, hx⟩ := c.exists_of_locked waterline hlock
    refine ⟨x, -1, hx, herr _ ?_⟩
    rw [c.keyRun_locked waterline hb hm hmk hx]
    simp
  | false =>
    rw [hlock] at hupd
    obtain ⟨v, w, hv, hmem⟩ := (c.keyRun_unlocked waterline hb hm hlock _).2 upd hupd
    exact ⟨v, w, hv, herr _ hmem⟩

end

end

end Config

private theorem weight_ones [DecidableEq E] (l : List E) (e : E) :
    weight (l.map fun e => (e, (1 : ℤ))) e = l.count e := by
  induction l with
  | nil => rfl
  | cons a l ih =>
    rw [map_cons, weight_cons, ih, count_cons]
    by_cases ha : a = e
    · simp [ha, add_comm]
    · simp [ha]

theorem le_localWaterline [SemilatticeSup W] (c : Config K V U W E) (old : W)
    (batch : Layers K V Unit ℤ) : old ≤ c.localWaterline old batch := by
  have hfold : ∀ (kvs : List (K × V)) (r : W × W),
      r.1 ≤ (kvs.foldl (fun r kv => (r.1 ⊔ c.extractTs kv.1 kv.2 r.2,
        c.extractTs kv.1 kv.2 r.2)) r).1 := by
    intro kvs
    induction kvs with
    | nil => exact fun r => le_rfl
    | cons kv kvs ih =>
      intro r
      have hnext := ih (r.1 ⊔ c.extractTs kv.1 kv.2 r.2, c.extractTs kv.1 kv.2 r.2)
      exact le_sup_left.trans hnext
  exact hfold _ (old, old)

section

variable {n : Nat} [NeZero n] [LinearOrder K] [LinearOrder V] (hash : K → Nat) (c : Config K V U W E)

/-- The table between two steps: the workers' traces and waterlines, and the waterline that
is in force in the next step. -/
structure State (n : Nat) (K V W : Type*) [LinearOrder K] [LinearOrder V] where
  traces : Fin n → Batch K V Unit ℤ
  locals : Fin n → W
  waterline : W

def State.init (n : Nat) (c : Config K V U W E) : State n K V W :=
  ⟨Integrator.empty, fun _ => c.initWaterline, c.initWaterline⟩

def tableWeight (s : State n K V W) (k : K) (v : V) : ℤ :=
  ∑ w, (s.traces w).weight (k, v, ())

def lookup (s : State n K V W) (k : K) : Option V :=
  ((s.traces (worker n hash k)).layers.valuesAt k).head?.map Prod.fst

/-- The part of the map `m` that worker `w` keeps. -/
def part (m : K → Option V) (w : Fin n) (k : K) : Option V :=
  if worker n hash k = w then m k else none

/-- The traces hold the map `m`, spread over the workers. -/
def HoldsMap (traces : Fin n → Batch K V Unit ℤ) (m : K → Option V) : Prop :=
  ∀ w, InputUpsert.Holds (traces w).layers (part hash m w)

variable {m : K → Option V} {s : State n K V W}

theorem lookup_eq (h : HoldsMap hash s.traces m) : lookup hash s = m := by
  funext k
  rw [lookup, (h (worker n hash k)).valuesAt (s.traces _).isBatch]
  cases hk : m k <;> simp [part, hk]

theorem tableWeight_eq (h : HoldsMap hash s.traces m) (k : K) (v : V) :
    tableWeight s k v = unit (m k) v := by
  have hworker : ∀ w, (s.traces w).weight (k, v, ()) =
      if worker n hash k = w then unit (m k) v else 0 := by
    intro w
    rw [Batch.weight, h w k v, part]
    split
    · rfl
    · rfl
  simp only [tableWeight, hworker, Finset.sum_ite_eq, Finset.mem_univ, if_true]

variable [LinearOrder U]

def output (s : State n K V W) (cmds : List (K × Update V U)) (w : Fin n) :
    Layers K V Unit ℤ × List E :=
  c.eval s.waterline (s.traces w).layers (updatesOf hash [.append cmds] w)

def errorWeight [LinearOrder E] (s : State n K V W) (cmds : List (K × Update V U)) (e : E) : ℤ :=
  ∑ w, weight (consolidate ((output hash c s cmds w).2.map fun e => (e, (1 : ℤ)))) e

section

variable (h : HoldsMap hash s.traces m) (cmds : List (K × Update V U)) (w : Fin n)
include h

theorem weight_output (k : K) (v : V) :
    (output hash c s cmds w).1.weight (k, v, ()) =
      unit (part hash (applyAll c.patchFunc m (c.accepted s.waterline m cmds)) w k) v -
        unit (part hash m w k) v := by
  rw [output, c.eval_weight s.waterline (s.traces w).isBatch (h w) (updatesOf_sorted hash _ w),
    commandsOf_updatesOf hash (inOrder_append k cmds), submitted_append, part, part]
  by_cases hk : worker n hash k = w
  · simp only [if_pos hk, applyAll_eq, c.commandsOf_accepted]
  · simp [hk, Config.acceptedKey, Config.judgeKey]

/-- A worker puts out what the table without a waterline would for the accepted commands. -/
theorem output_eq_eval :
    (output hash c s cmds w).1 =
      InputUpsert.eval c.patchFunc (s.traces w).layers
        (updatesOf hash [.append (c.accepted s.waterline m cmds)] w) := by
  have hplain := eval_spec c.patchFunc (s.traces w).isBatch (h w)
    (updatesOf_sorted hash [.append (c.accepted s.waterline m cmds)] w)
  have hbatch : IsBatch (output hash c s cmds w).1 :=
    (Handler.eval_written (c.finish_consolidated s.waterline _)
      (updatesOf_sorted hash [.append cmds] w)).1
  apply hbatch.ext hplain.1
  rintro ⟨k, v, ⟨⟩⟩
  rw [weight_output hash c h, hplain.2, commandsOf_updatesOf hash (inOrder_append k _),
    submitted_append, part, part]
  by_cases hk : worker n hash k = w
  · simp only [if_pos hk, applyAll_eq]
  · simp [hk]

end

variable {cmds : List (K × Update V U)} {v : V} {k : K}

theorem filter_of_output_pos (h : HoldsMap hash s.traces m) {w : Fin n}
    (hpos : 0 < (output hash c s cmds w).1.weight (k, v, ())) :
    c.filterFunc s.waterline k v = true := by
  rw [weight_output hash c h, part, part] at hpos
  by_cases hk : worker n hash k = w
  · rw [if_pos hk, if_pos hk, applyAll_eq, c.commandsOf_accepted] at hpos
    cases hlock : c.locked s.waterline k (m k) with
    | true =>
      rw [hlock, c.judgeKey_locked] at hpos
      simp at hpos
    | false =>
      rw [hlock] at hpos
      have hpass := c.not_locked_foldl s.waterline (commandsOf k cmds) hlock
      generalize (c.acceptedKey s.waterline k false (m k) (commandsOf k cmds)).foldl
        (applyUpdate c.patchFunc) (m k) = o at hpos hpass
      have ho : o = some v := by
        by_contra hne
        rw [unit, if_neg hne, unit] at hpos
        split at hpos <;> omega
      simpa [ho, Config.locked] using hpass
  · simp [hk] at hpos

theorem refused_reported [LinearOrder E] (h : HoldsMap hash s.traces m) {a : K × Update V U}
    (ha : a ∈ c.refused s.waterline m cmds) :
    ∃ v i, c.filterFunc s.waterline a.1 v = false ∧
      1 ≤ errorWeight hash c s cmds (c.reportFunc s.waterline a.1 v i) := by
  obtain ⟨j, hj, hja⟩ := mem_map.mp ha
  obtain ⟨hmem, hfalse⟩ := mem_filter.mp hj
  have hjudge : (a.2, false) ∈ c.judgeKey s.waterline a.1
      (c.locked s.waterline a.1 (m a.1)) (m a.1) (commandsOf a.1 cmds) := by
    rw [← c.judge_key]
    refine mem_map.mpr ⟨j, mem_filter.mpr ⟨hmem, by simp [hja]⟩, ?_⟩
    rw [hja, show j.2 = false by simpa using hfalse]
  have hpart : part hash m (worker n hash a.1) a.1 = m a.1 := if_pos rfl
  have hcmds : commandsOf a.1 (merged (updatesOf hash [.append cmds] (worker n hash a.1))) =
      commandsOf a.1 cmds := by
    rw [commandsOf_updatesOf hash (inOrder_append a.1 cmds), if_pos rfl, submitted_append]
  rw [← hpart, ← hcmds] at hjudge
  obtain ⟨v, i, hv, herr⟩ := c.eval_reports s.waterline (s.traces _).isBatch (h _)
    (updatesOf_sorted hash [.append cmds] _) hjudge
  refine ⟨v, i, hv, ?_⟩
  have hcount : ∀ w, 0 ≤ weight
      (consolidate ((output hash c s cmds w).2.map fun e => (e, (1 : ℤ))))
        (c.reportFunc s.waterline a.1 v i) := by
    intro w
    rw [weight_consolidate, weight_ones]
    exact Int.natCast_nonneg _
  have hone : 1 ≤ weight
      (consolidate ((output hash c s cmds (worker n hash a.1)).2.map fun e => (e, (1 : ℤ))))
        (c.reportFunc s.waterline a.1 v i) := by
    rw [weight_consolidate, weight_ones]
    exact_mod_cast count_pos_iff.mpr herr
  exact hone.trans (Finset.single_le_sum (fun w _ => hcount w) (Finset.mem_univ _))

variable [SemilatticeSup W]

/-- The exchange of the workers' waterlines; a single worker has none. -/
def exchange (init : W) (locals : Fin n → W) : W :=
  if n = 1 then locals 0 else (List.ofFn locals).foldl (· ⊔ ·) init

def step (s : State n K V W) (cmds : List (K × Update V U)) : State n K V W :=
  let locals w := c.localWaterline (s.locals w) (output hash c s cmds w).1
  { traces := fun w => Batch.ofTuples
      ((s.traces w).layers.tuples ++ (output hash c s cmds w).1.tuples)
    locals := locals
    waterline := exchange c.initWaterline locals }

def run (s : State n K V W) (steps : List (List (K × Update V U))) : State n K V W :=
  steps.foldl (step hash c) s

theorem step_holdsMap (h : HoldsMap hash s.traces m) (cmds : List (K × Update V U)) :
    HoldsMap hash (step hash c s cmds).traces
      (applyAll c.patchFunc m (c.accepted s.waterline m cmds)) := by
  intro w k v
  have hsum : ((step hash c s cmds).traces w).weight (k, v, ()) =
      (s.traces w).layers.weight (k, v, ()) +
        (output hash c s cmds w).1.weight (k, v, ()) := by
    rw [step, Batch.weight_ofTuples, weight_append]
    rfl
  rw [h w, weight_output hash c h] at hsum
  rw [Batch.weight] at hsum
  rw [hsum]
  ring

theorem foldl_sup_le {init x : W} {l : List W} :
    l.foldl (· ⊔ ·) init ≤ x ↔ init ≤ x ∧ ∀ y ∈ l, y ≤ x := by
  induction l generalizing init with
  | nil => simp
  | cons a l ih => simp [ih, and_assoc]

theorem exchange_mono (init : W) {locals locals' : Fin n → W} (h : ∀ w, locals w ≤ locals' w) :
    exchange init locals ≤ exchange init locals' := by
  unfold exchange
  split
  · exact h 0
  obtain ⟨hinit, hall⟩ := foldl_sup_le.mp
    (le_refl ((List.ofFn locals').foldl (· ⊔ ·) init))
  refine foldl_sup_le.mpr ⟨hinit, fun y hy => ?_⟩
  obtain ⟨w, rfl⟩ := (mem_ofFn' locals y).mp hy
  exact (h w).trans (hall _ (by simp))

structure Reached (s : State n K V W) : Prop where
  holds : HoldsMap hash s.traces (lookup hash s)
  waterline : s.waterline ≤ exchange c.initWaterline s.locals

omit [LinearOrder U] in
theorem reached_init : Reached hash c (State.init n c) where
  holds := by
    have hnone : HoldsMap hash (State.init n c).traces fun _ => none := by
      intro w k v
      rw [part, ite_self]
      exact Integrator.weight_empty w (k, v, ())
    rwa [lookup_eq hash hnone]
  waterline := by
    change c.initWaterline ≤ exchange c.initWaterline fun _ => c.initWaterline
    unfold exchange
    split
    · exact le_rfl
    · exact (foldl_sup_le.mp le_rfl).1

section

variable (hs : Reached hash c s)
include hs

variable (cmds : List (K × Update V U))

theorem lookup_step :
    lookup hash (step hash c s cmds) =
      applyAll c.patchFunc (lookup hash s) (c.accepted s.waterline (lookup hash s) cmds) :=
  lookup_eq hash (step_holdsMap hash c hs.holds cmds)

theorem Reached.step :
    Reached hash c (step hash c s cmds) where
  holds := by
    rw [lookup_step hash c hs]
    exact step_holdsMap hash c hs.holds cmds
  waterline := le_rfl

theorem Reached.run (steps : List (List (K × Update V U))) :
    Reached hash c (run hash c s steps) := by
  induction steps generalizing s with
  | nil => exact hs
  | cons cmds steps ih => exact ih (hs.step hash c cmds)

theorem Reached.waterline_le : s.waterline ≤ (InputUpsertWaterline.step hash c s cmds).waterline :=
  hs.waterline.trans (exchange_mono _ fun _ => le_localWaterline c _ _)

/-- A value that the filter rejects stays: no command touches its key, and the waterline
only grows. -/
theorem lookup_run_of_rejected
    (hanti : ∀ w w' k v, w ≤ w' → c.filterFunc w' k v = true → c.filterFunc w k v = true)
    (hk : lookup hash s k = some v) (hv : c.filterFunc s.waterline k v = false)
    (later : List (List (K × Update V U))) : lookup hash (run hash c s later) k = some v := by
  induction later generalizing s with
  | nil => exact hk
  | cons cmds later ih =>
    refine ih (hs.step hash c cmds) ?_ ?_
    · have hlock : c.locked s.waterline k (lookup hash s k) = true := by
        simp [hk, Config.locked, hv]
      rw [lookup_step hash c hs, applyAll_eq, c.commandsOf_accepted, hlock, c.judgeKey_locked]
      exact hk
    · by_contra hpass
      have := hanti _ _ k v (hs.waterline_le hash c cmds) (by simpa using hpass)
      rw [hv] at this
      exact Bool.false_ne_true this

end

/-- The table with a waterline, in every state a run reaches: it is a map with weights one;
a value that the waterline in force rejects keeps its place for good; and whatever the next
commands are, only values that pass are inserted, every refused command to a key is
reflected by an error record about a rejected value of the key, and the output is that of
the table without a waterline on the accepted commands. -/
theorem waterline_table [LinearOrder E]
    (hanti : ∀ w w' k v, w ≤ w' → c.filterFunc w' k v = true → c.filterFunc w k v = true)
    (steps : List (List (K × Update V U))) (s : State n K V W)
    (hs : s = run hash c (State.init n c) steps) :
    (∀ k v, tableWeight s k v = if lookup hash s k = some v then 1 else 0) ∧
    (∀ k v, lookup hash s k = some v → c.filterFunc s.waterline k v = false →
      ∀ later v', tableWeight (run hash c s later) k v' = tableWeight s k v') ∧
    ∀ cmds,
      (∀ w k v, 0 < (output hash c s cmds w).1.weight (k, v, ()) →
        c.filterFunc s.waterline k v = true) ∧
      (∀ a ∈ c.refused s.waterline (lookup hash s) cmds,
        ∃ v i, c.filterFunc s.waterline a.1 v = false ∧
          1 ≤ errorWeight hash c s cmds (c.reportFunc s.waterline a.1 v i)) ∧
      ∀ w, (output hash c s cmds w).1 =
        InputUpsert.eval c.patchFunc (s.traces w).layers
          (updatesOf hash [.append (c.accepted s.waterline (lookup hash s) cmds)] w) := by
  have hreach : Reached hash c s := hs ▸ (reached_init hash c).run hash c steps
  refine ⟨tableWeight_eq hash hreach.holds, ?_, ?_⟩
  · intro k v hk hv later v'
    have hlater := (hreach.run hash c later).holds
    rw [tableWeight_eq hash hlater, tableWeight_eq hash hreach.holds, hk,
      lookup_run_of_rejected hash c hreach hanti hk hv]
  · intro cmds
    exact ⟨fun w k v => filter_of_output_pos hash c hreach.holds,
      fun a => refused_reported hash c hreach.holds,
      output_eq_eval hash c hreach.holds cmds⟩

/-- Values are their own timestamps and may lag behind the waterline by five. -/
def laggingConfig : Config ℕ ℕ ℕ ℕ ℕ where
  patchFunc v u := v + u
  initWaterline := 0
  extractTs _ v _ := v
  filterFunc w _ v := decide (w ≤ v + 5)
  reportFunc _ k _ _ := k

/-- With 20 in the table, the deletion of the older 10 is refused. -/
theorem waterline_table_lagging :
    tableWeight (run (fun _ => 0) laggingConfig
      (run (fun _ => 0) laggingConfig (State.init 1 laggingConfig)
        [[(0, .insert 10)], [(1, .insert 20)]]) [[(0, .delete)]]) 0 10 = 1 := by
  have h := waterline_table (n := 1) (fun _ => 0) laggingConfig
    (fun w w' _ v hle hpass => by
      simp only [laggingConfig, decide_eq_true_eq] at hpass ⊢
      omega)
    [[(0, .insert 10)], [(1, .insert 20)]] _ rfl
  rw [h.2.1 0 10 (by decide) (by decide), h.1]
  decide

end

end Feldera.Operator.InputUpsertWaterline
