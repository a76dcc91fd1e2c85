import Feldera.Operator.InputUpsert

/-!
Set tables (`add_input_set`). The command `true` inserts a key, `false` deletes
it. Every vector is sorted by key and reduced to the last command to each key;
the vectors are then merged into one list for `Upsert`, which expects a single
command to each key and compares every command with the trace on its own.

`Upsert` writes through a `TupleBuilder` into a Z-set builder that keeps keys
and weights in two vectors; two weights for one key put the vectors out of step.
The table is right for as long as, for each key, the number of vectors whose
last command changes the key's membership is one if the last submitted command
changes it and zero otherwise (`Settled`).
-/

namespace Feldera.Operator.SetUpsert

open Weighted Trace KeyedMerge UpsertHandle List

variable {K : Type*}

/-- Drops `a` when the next command has the same key. -/
def consLast [DecidableEq K] (a : K × Bool) : List (K × Bool) → List (K × Bool)
  | [] => [a]
  | b :: l => if a.1 = b.1 then b :: l else a :: b :: l

/-- `dedup_by_key_keep_last`: of neighbours with one key, the last stays. -/
def dedupByKeyKeepLast [DecidableEq K] (l : List (K × Bool)) : List (K × Bool) :=
  l.foldr consLast []

/-- `TupleBuilder` over a Z-set builder: the vectors of keys and weights, and the key of the
last weight, which is pushed when the next key comes. -/
structure TupleBuilder (K : Type*) where
  keys : List K
  diffs : List ℤ
  kv : Option K

namespace TupleBuilder

def new : TupleBuilder K := ⟨[], [], none⟩

def pushVals [DecidableEq K] (b : TupleBuilder K) (k : K) (w : ℤ) : TupleBuilder K :=
  match b.kv with
  | some k' =>
    if k' = k then { b with diffs := b.diffs ++ [w] }
    else ⟨b.keys ++ [k'], b.diffs ++ [w], some k⟩
  | none => ⟨b.keys, b.diffs ++ [w], some k⟩

/-- `done`: the batch reads the `i`-th key with the `i`-th weight. -/
def done (b : TupleBuilder K) : List (K × ℤ) :=
  (b.keys ++ b.kv.toList).zip b.diffs

end TupleBuilder

/-- A Z-set as a batch whose values are all `()`. -/
def zset (l : List (K × ℤ)) : Layers K Unit Unit ℤ :=
  l.map fun p => (p.1, [((), [((), p.2)])])

section

variable [LinearOrder K]

/-- Updates of one command: the insertion and the retraction of what the trace holds,
consolidated. -/
def keyUpdates (trace : Layers K Unit Unit ℤ) (a : K × Bool) : List (Unit × ℤ) :=
  consolidate ((if a.2 then [((), 1)] else []) ++
    ((trace.valuesAt a.1).filter fun p => decide (p.2 ≠ 0)).map fun p => (p.1, -p.2))

def eval (trace : Layers K Unit Unit ℤ) (updates : List (K × Bool)) : List (K × ℤ) :=
  (updates.foldl
    (fun b a => (keyUpdates trace a).foldl (fun b p => b.pushVals a.1 p.2) b)
    TupleBuilder.new).done

/-- `add_set_update` sorts and reduces each vector and merges them. -/
def addSetUpdate (upserts : List (List (K × Bool))) : List (K × Bool) :=
  merged (upserts.map fun l => dedupByKeyKeepLast (sortByKey l))

end

section

variable [LinearOrder K]

theorem consLast_cases (a : K × Bool) (l : List (K × Bool)) :
    ((∃ b ∈ l.head?, a.1 = b.1) ∧ consLast a l = l) ∨
      ((∀ b ∈ l.head?, a.1 ≠ b.1) ∧ consLast a l = a :: l) := by
  cases l with
  | nil => exact Or.inr ⟨by simp, rfl⟩
  | cons b m =>
    by_cases h : a.1 = b.1
    · exact Or.inl ⟨⟨b, rfl, h⟩, by simp [consLast, h]⟩
    · exact Or.inr ⟨by simpa using h, by simp [consLast, h]⟩

variable (l : List (K × Bool))

theorem dedup_sublist : (dedupByKeyKeepLast l).Sublist l := by
  induction l with
  | nil => exact List.Sublist.refl _
  | cons a l ih =>
    change (consLast a (dedupByKeyKeepLast l)).Sublist (a :: l)
    rcases consLast_cases a (dedupByKeyKeepLast l) with ⟨-, heq⟩ | ⟨-, heq⟩
    · rw [heq]
      exact ih.cons a
    · rw [heq]
      exact ih.cons_cons a

theorem head_key_dedup : (dedupByKeyKeepLast l).head?.map Prod.fst = l.head?.map Prod.fst := by
  cases l with
  | nil => rfl
  | cons a l =>
    change (consLast a (dedupByKeyKeepLast l)).head?.map Prod.fst = some a.1
    rcases consLast_cases a (dedupByKeyKeepLast l) with ⟨⟨b, hb, hab⟩, heq⟩ | ⟨-, heq⟩
    · rw [heq, Option.mem_def.mp hb, hab]
      rfl
    · rw [heq]
      rfl

/-- Each key keeps its last command. -/
theorem commandsOf_dedup {l : List (K × Bool)} (h : SortedByKey l) (k : K) :
    commandsOf k (dedupByKeyKeepLast l) = (commandsOf k l).getLast?.toList := by
  induction l with
  | nil => rfl
  | cons a l ih =>
    obtain ⟨ha, hl⟩ := pairwise_cons.mp h
    change commandsOf k (consLast a (dedupByKeyKeepLast l)) = _
    rcases consLast_cases a (dedupByKeyKeepLast l) with ⟨⟨b, hb, hab⟩, heq⟩ | ⟨hne, heq⟩
    · rw [heq, ih hl]
      by_cases hk : a.1 = k
      · have hmem : b.2 ∈ commandsOf k l := by
          rw [mem_commandsOf, ← hk, hab]
          exact (dedup_sublist l).subset (mem_of_mem_head? hb)
        rw [commandsOf_cons_of_eq hk]
        cases hc : commandsOf k l with
        | nil => simp [hc] at hmem
        | cons c cs => simp
      · rw [commandsOf_cons_of_ne hk]
    · rw [heq]
      by_cases hk : a.1 = k
      · -- the next command has another key, and the keys are sorted
        have hnil : commandsOf k l = [] := by
          rw [commandsOf_eq_nil]
          intro c hc hck
          cases l with
          | nil => simp at hc
          | cons d l =>
            have hdc : d.1 ≤ c.1 := by
              rcases mem_cons.mp hc with rfl | hc
              · exact le_rfl
              · exact (pairwise_cons.mp hl).1 c hc
            have had : a.1 = d.1 :=
              le_antisymm (ha d mem_cons_self) (by rw [hk, ← hck]; exact hdc)
            have hhead := head_key_dedup (d :: l)
            obtain ⟨e, he, hed⟩ := Option.map_eq_some_iff.mp hhead
            exact hne e he (had.trans hed.symm)
        rw [commandsOf_cons_of_eq hk, commandsOf_cons_of_eq hk, ih hl, hnil]
        rfl
      · rw [commandsOf_cons_of_ne hk, commandsOf_cons_of_ne hk, ih hl]

end

section

variable [LinearOrder K]

/-- Last commands to `k` of the vectors `ls` that change its membership. -/
def changes (present : Bool) (k : K) (ls : List (List (K × Bool))) : List Bool :=
  (ls.filterMap fun l => (commandsOf k l).getLast?).filter fun b => decide (b ≠ present)

/-- The merged commands are the vectors' last commands to each key. -/
theorem commandsOf_addSetUpdate (k : K) (ls : List (List (K × Bool))) :
    (commandsOf k (addSetUpdate ls)).Perm (ls.filterMap fun l => (commandsOf k l).getLast?) := by
  have hmap : commandsOf k (ls.map fun l => dedupByKeyKeepLast (sortByKey l)).flatten =
      ls.filterMap fun l => (commandsOf k l).getLast? := by
    induction ls with
    | nil => rfl
    | cons l ls ih =>
      rw [map_cons, flatten_cons, commandsOf_append, ih,
        commandsOf_dedup (sortByKey_sorted l), commandsOf_sortByKey, filterMap_cons]
      cases (commandsOf k l).getLast? <;> rfl
  rw [← hmap]
  exact ((merged_perm _).filter _).map _

theorem addSetUpdate_sorted (ls : List (List (K × Bool))) : SortedByKey (addSetUpdate ls) := by
  apply merged_sorted
  intro l hl
  obtain ⟨m, -, rfl⟩ := mem_map.mp hl
  exact (sortByKey_sorted m).sublist (dedup_sublist _)

end

section

variable [LinearOrder K]

theorem foldl_pushVals {l : List (K × ℤ)} (h : l.Pairwise fun a b => a.1 < b.1) :
    (l.foldl (fun b p => b.pushVals p.1 p.2) TupleBuilder.new).done = l := by
  have hmain : ∀ l : List (K × ℤ), (l.Pairwise fun a b => a.1 < b.1) →
      let b := l.foldl (fun b p => b.pushVals p.1 p.2) TupleBuilder.new
      b.keys ++ b.kv.toList = l.map Prod.fst ∧ b.diffs = l.map Prod.snd ∧
        (∀ k ∈ b.kv, ∃ p ∈ l, p.1 = k) := by
    intro l hl
    induction l using List.reverseRecOn with
    | nil => exact ⟨rfl, rfl, by simp [TupleBuilder.new]⟩
    | append_singleton l p ih =>
      obtain ⟨hl', -, hlt⟩ := pairwise_append.mp hl
      obtain ⟨hkeys, hdiffs, hmem⟩ := ih hl'
      simp only [foldl_append, foldl_cons, foldl_nil]
      generalize l.foldl (fun b p => b.pushVals p.1 p.2) TupleBuilder.new = b at *
      cases hkv : b.kv with
      | none =>
        rw [hkv] at hkeys
        simp [TupleBuilder.pushVals, hkv, hdiffs, ← hkeys]
      | some k' =>
        obtain ⟨q, hq, hqk⟩ := hmem k' hkv
        have hne : k' ≠ p.1 := hqk ▸ (hlt q hq p (by simp)).ne
        rw [hkv] at hkeys
        simp [TupleBuilder.pushVals, hkv, hne, hdiffs, ← hkeys]
  obtain ⟨hkeys, hdiffs, -⟩ := hmain l h
  rw [TupleBuilder.done, hkeys, hdiffs]
  exact (zip_of_prod rfl rfl).symm

end

section

variable [LinearOrder K]

/-- The trace holds the set `S`, every element with weight one. -/
def Holds (trace : Layers K Unit Unit ℤ) (S : K → Bool) : Prop :=
  ∀ k, trace.weight (k, (), ()) = if S k then 1 else 0

/-- The weight with which a command that changes a membership enters the output. -/
def sign (b : Bool) : ℤ := if b then 1 else -1

variable {S : K → Bool} {trace : Layers K Unit Unit ℤ}

theorem keyUpdates_eq (hb : IsBatch trace) (hS : Holds trace S) (a : K × Bool) :
    keyUpdates trace a = if a.2 = S a.1 then [] else [((), sign a.2)] := by
  have hvals : trace.valuesAt a.1 = if S a.1 then [((), (1 : ℤ))] else [] := by
    apply (hb.valuesAt_consolidated a.1).ext
    · split
      · exact ⟨by simp, by simp⟩
      · exact Consolidated.nil
    · intro v
      rw [hb.weight_valuesAt, hS]
      cases S a.1 <;> simp
  rw [keyUpdates, hvals]
  cases a.2 <;> cases S a.1 <;> decide

/-- The tuples that the commands `updates` push against the set `S`. -/
def pushes (S : K → Bool) (updates : List (K × Bool)) : List (K × ℤ) :=
  (updates.filter fun a => decide (a.2 ≠ S a.1)).map fun a => (a.1, sign a.2)

theorem eval_eq_pushes (hb : IsBatch trace) (hS : Holds trace S) (updates : List (K × Bool)) :
    eval trace updates =
      ((pushes S updates).foldl (fun b p => b.pushVals p.1 p.2) TupleBuilder.new).done := by
  unfold eval
  generalize TupleBuilder.new = b
  induction updates generalizing b with
  | nil => rfl
  | cons a updates ih =>
    rw [foldl_cons, ih, keyUpdates_eq hb hS]
    by_cases ha : a.2 = S a.1
    · have hpush : pushes S (a :: updates) = pushes S updates := by
        simp [pushes, ha]
      rw [if_pos ha, hpush]
      rfl
    · have hpush : pushes S (a :: updates) = (a.1, sign a.2) :: pushes S updates := by
        simp [pushes, ha]
      rw [if_neg ha, hpush]
      rfl

theorem commandsOf_pushes (S : K → Bool) (updates : List (K × Bool)) (k : K) :
    commandsOf k (pushes S updates) =
      ((commandsOf k updates).filter fun b => decide (b ≠ S k)).map sign := by
  have hfilter : (updates.filter fun a => decide (a.2 ≠ S a.1)).filter
      (fun a => decide (a.1 = k)) =
        (updates.filter fun a => decide (a.1 = k)).filter fun a => decide (a.2 ≠ S k) := by
    rw [filter_filter, filter_filter]
    apply filter_congr
    intro a _
    by_cases hk : a.1 = k
    · simp [hk]
    · simp [hk]
  unfold commandsOf pushes
  rw [filter_map, map_map, filter_map, map_map]
  simp only [Function.comp_def]
  rw [hfilter]

theorem weight_zset (l : List (K × ℤ)) (k : K) :
    (zset l).weight (k, (), ()) = (commandsOf k l).sum := by
  induction l with
  | nil => rfl
  | cons p l ih =>
    change Layers.weight ((p.1, [((), [((), p.2)])]) :: zset l) (k, (), ()) = _
    rw [Layers.weight_cons, ih, Vals.weight_cons]
    by_cases hk : p.1 = k
    · simp [commandsOf_cons_of_eq hk, hk]
    · simp [commandsOf_cons_of_ne hk, hk]

/-- One evaluation over vectors of which, for each key, at most one changes the key. -/
theorem eval_addSetUpdate (hb : IsBatch trace) (hS : Holds trace S) {ls : List (List (K × Bool))}
    (hone : ∀ k, (changes (S k) k ls).length ≤ 1) (k : K) :
    (zset (eval trace (addSetUpdate ls))).weight (k, (), ()) =
      ((changes (S k) k ls).map sign).sum := by
  have hperm : ∀ k, ((commandsOf k (addSetUpdate ls)).filter fun b => decide (b ≠ S k)).Perm
      (changes (S k) k ls) := fun k => (commandsOf_addSetUpdate k ls).filter _
  have hsorted : SortedByKey (pushes S (addSetUpdate ls)) := by
    unfold SortedByKey pushes
    rw [pairwise_map]
    exact (addSetUpdate_sorted ls).filter _
  have hstrict := hsorted.strict fun k => by
    rw [commandsOf_pushes, length_map, (hperm k).length_eq]
    exact hone k
  rw [eval_eq_pushes hb hS, foldl_pushVals hstrict, weight_zset, commandsOf_pushes]
  exact ((hperm k).map sign).sum_eq

/-- The specification: commands applied one by one to a set. -/
def applyAll (S : K → Bool) (cmds : List (K × Bool)) : K → Bool :=
  cmds.foldl (fun S a => Function.update S a.1 a.2) S

theorem applyAll_eq (S : K → Bool) (cmds : List (K × Bool)) (k : K) :
    applyAll S cmds k = (commandsOf k cmds).getLast?.getD (S k) := by
  induction cmds using List.reverseRecOn with
  | nil => rfl
  | append_singleton cmds a ih =>
    have hstep : applyAll S (cmds ++ [a]) = Function.update (applyAll S cmds) a.1 a.2 := by
      simp [applyAll]
    rw [hstep]
    by_cases hk : a.1 = k
    · subst hk
      simp [commandsOf_cons_of_eq]
    · rw [Function.update_of_ne (Ne.symm hk), ih, commandsOf_append, commandsOf_cons_of_ne hk]
      simp

/-- Of the vectors of a step, one changes the membership of `k` if the last command that
was submitted to `k` does, and none otherwise. -/
def Settled (present : Bool) (k : K) (calls : List (Call K Bool)) : Prop :=
  (changes present k (direct calls :: staged calls)).length =
    if (commandsOf k (submitted calls)).getLast? = some (!present) then 1 else 0

instance (present : Bool) (k : K) (calls : List (Call K Bool)) :
    Decidable (Settled present k calls) :=
  inferInstanceAs (Decidable (_ = _))

theorem Settled.sum_sign {k : K} {calls : List (Call K Bool)} (h : Settled (S k) k calls) :
    ((changes (S k) k (direct calls :: staged calls)).map sign).sum =
      (if applyAll S (submitted calls) k then 1 else 0) - if S k then 1 else 0 := by
  unfold Settled at h
  rw [applyAll_eq]
  split at h
  · next hlast =>
    obtain ⟨b, hb⟩ := length_eq_one_iff.mp h
    have hmem : b ∈ changes (S k) k (direct calls :: staged calls) := by
      simp [hb]
    have hne : b ≠ S k := by
      simpa using (mem_filter.mp hmem).2
    rw [hb, hlast]
    cases b <;> cases hSk : S k <;> simp_all [sign]
  · next hlast =>
    rw [eq_nil_of_length_eq_zero h]
    cases hl : (commandsOf k (submitted calls)).getLast? with
    | none => simp
    | some b =>
      rw [hl] at hlast
      cases b <;> cases hSk : S k <;> simp_all

end

section

variable {n : Nat} [NeZero n] [LinearOrder K] (hash : K → Nat)

def delta (w : Fin n) (trace : Batch K Unit Unit ℤ) (calls : List (Call K Bool)) :
    Layers K Unit Unit ℤ :=
  zset (eval trace.layers (addSetUpdate (mailboxes hash calls w).vectors))

def runningSum (n : Nat) [NeZero n] (hash : K → Nat) (steps : List (List (Call K Bool)))
    (k : K) : ℤ :=
  Integrator.runningSum (n := n) (delta hash) steps (k, (), ())

/-- Every step of a run that finds the set `S` is settled for every key. -/
def SettledRun (S : K → Bool) : List (List (Call K Bool)) → Prop
  | [] => True
  | calls :: steps =>
    (∀ k, Settled (S k) k calls) ∧ SettledRun (applyAll S (submitted calls)) steps

def part (S : K → Bool) (w : Fin n) (k : K) : Bool :=
  decide (worker n hash k = w) && S k

theorem changes_mailboxes (S : K → Bool) (calls : List (Call K Bool)) (w : Fin n) (k : K) :
    changes (part hash S w k) k (mailboxes hash calls w).vectors =
      if worker n hash k = w then changes (S k) k (direct calls :: staged calls) else [] := by
  have hvectors : (mailboxes hash calls w).vectors =
      (direct calls :: staged calls).map fun l => stage hash l w := by
    rw [mailboxes_eq]
    rfl
  rw [hvectors, changes, filterMap_map]
  by_cases hk : worker n hash k = w
  · simp [commandsOf_stage, hk, part, changes]
  · simp [Function.comp_def, commandsOf_stage, hk]

variable {traces : Fin n → Batch K Unit Unit ℤ} {S : K → Bool}

theorem step_holds (hS : ∀ w, Holds (traces w).layers (part hash S w))
    {calls : List (Call K Bool)} (hcalls : ∀ k, Settled (S k) k calls) (w : Fin n) :
    Holds (Integrator.step (delta hash) traces calls w).layers
      (part hash (applyAll S (submitted calls)) w) := by
  intro k
  have hone : ∀ k, (changes (part hash S w k) k
      (mailboxes hash calls w).vectors).length ≤ 1 := by
    intro k
    rw [changes_mailboxes]
    split
    · rw [hcalls k]
      split <;> omega
    · exact Nat.zero_le 1
  have hdelta := eval_addSetUpdate (traces w).isBatch (hS w) hone k
  have hsum := Integrator.weight_step (delta hash) traces calls w (k, (), ())
  rw [Batch.weight, Batch.weight, hS w, delta, hdelta, changes_mailboxes] at hsum
  rw [hsum]
  by_cases hk : worker n hash k = w
  · rw [if_pos hk, (hcalls k).sum_sign]
    simp [part, hk]
  · simp [part, hk]

theorem run_holds (hS : ∀ w, Holds (traces w).layers (part hash S w))
    {steps : List (List (Call K Bool))} (h : SettledRun S steps) (w : Fin n) :
    Holds (steps.foldl (Integrator.step (delta hash)) traces w).layers
      (part hash (applyAll S (steps.flatMap submitted)) w) := by
  induction steps generalizing traces S with
  | nil => exact hS w
  | cons calls steps ih =>
    have happly : applyAll S ((calls :: steps).flatMap submitted) =
        applyAll (applyAll S (submitted calls)) (steps.flatMap submitted) := by
      simp [applyAll]
    rw [happly]
    exact ih (step_holds hash hS h.1) h.2

/-- In a run whose steps are all settled, the table is the set that the commands make, in
submission order, and every weight is zero or one. -/
theorem runningSum_eq_of_settled (steps : List (List (Call K Bool)))
    (h : SettledRun (fun _ => false) steps) (k : K) :
    runningSum n hash steps k =
      if applyAll (fun _ => false) (steps.flatMap submitted) k then 1 else 0 := by
  have hempty : ∀ w : Fin n,
      Holds (Integrator.empty w).layers (part hash (fun _ => false) w) := by
    intro w k
    have hweight := Integrator.weight_empty w (k, (), ())
    rw [Batch.weight] at hweight
    simp [hweight, part]
  have hworker : ∀ w : Fin n, (Integrator.run (delta hash) steps w).weight (k, (), ()) =
      if worker n hash k = w then
        if applyAll (fun _ => false) (steps.flatMap submitted) k then 1 else 0
      else 0 := by
    intro w
    rw [Batch.weight, Integrator.run, run_holds hash hempty h w k]
    by_cases hk : worker n hash k = w <;> simp [part, hk]
  rw [runningSum, Integrator.runningSum_eq]
  simp only [hworker, Finset.sum_ite_eq, Finset.mem_univ, if_true]

/-- Insert a key, delete it again by a pushed command while another one is staged. -/
theorem runningSum_delete_and_stage :
    runningSum 1 (fun _ : Fin 2 => 0)
      [[.append [(0, true), (1, true)]], [.push 0 false, .appendStaged [(1, true)]]] 0 = 0 := by
  refine (runningSum_eq_of_settled (n := 1) _ _ ?_ 0).trans ?_
  · exact ⟨by decide, by decide, trivial⟩
  · decide

/-- A staged insertion and a staged deletion after it: the key stays in the table. -/
theorem staged_delete_after_insert_lost :
    runningSum 1 (fun _ : ℕ => 0)
      [[.appendStaged [(0, true)], .appendStaged [(0, false)]]] 0 = 1 ∧
    applyAll (fun _ : ℕ => false)
      (submitted [.appendStaged [(0, true)], .appendStaged [(0, false)]]) 0 = false := by
  decide

end

end Feldera.Operator.SetUpsert
