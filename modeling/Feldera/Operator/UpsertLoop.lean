import Feldera.Algebra.KeyedMerge
import Feldera.Trace.Batch

/-!
The loop shared by the two upsert operators. It takes the commands of all
vectors in merge order; when the key changes it writes the updates of the
previous key to the builder and starts on the new one, looking up the values
the trace holds for it. What is done for one key is a `Handler`: how a key is
started, how a command changes the state of the current key, and which updates
the key contributes in the end.
-/

namespace Feldera.Operator.UpsertLoop

open Weighted Trace KeyedMerge List

variable {K C V E σ : Type*}

structure Handler (K C V E σ : Type*) where
  start : K → σ × List E
  apply : K → σ → C → σ × List E
  finish : σ → List (V × ℤ)

structure State (K V E σ : Type*) where
  cur : Option (K × σ)
  builder : Builder K V Unit ℤ
  errors : List E

def State.init : State K V E σ := ⟨none, Builder.new, []⟩

namespace Handler

variable (H : Handler K C V E σ)

/-- Writes the updates of the current key, if there are any. -/
def flush (s : State K V E σ) : Builder K V Unit ℤ :=
  match s.cur with
  | none => s.builder
  | some (k, x) =>
    if (H.finish x).isEmpty then s.builder
    else (s.builder.pushValDiffs (H.finish x)).pushKey k

/-- The state of `k`: it goes on when `k` is the current key and starts anew otherwise. -/
def enter [DecidableEq K] (s : State K V E σ) (k : K) : σ × Builder K V Unit ℤ × List E :=
  match s.cur with
  | some (k', x) =>
    if k' = k then (x, s.builder, s.errors)
    else ((H.start k).1, H.flush s, s.errors ++ (H.start k).2)
  | none => ((H.start k).1, H.flush s, s.errors ++ (H.start k).2)

def step [DecidableEq K] (s : State K V E σ) (a : K × C) : State K V E σ :=
  let e := H.enter s a.1
  let r := H.apply a.1 e.1 a.2
  ⟨some (a.1, r.1), e.2.1, e.2.2 ++ r.2⟩

/-- State and errors of one key after the commands `cs`. -/
def keyRun (k : K) (cs : List C) : σ × List E :=
  cs.foldl (fun r c => ((H.apply k r.1 c).1, r.2 ++ (H.apply k r.1 c).2)) (H.start k)

theorem keyRun_concat (k : K) (cs : List C) (c : C) :
    H.keyRun k (cs ++ [c]) =
      ((H.apply k (H.keyRun k cs).1 c).1,
        (H.keyRun k cs).2 ++ (H.apply k (H.keyRun k cs).1 c).2) := by
  simp [keyRun]

section

variable [LinearOrder K]

variable {a : K × C} {s : State K V E σ} {H : Handler K C V E σ} {p : List (K × C)}

theorem step_same {x : σ} (hcur : s.cur = some (a.1, x)) :
    H.step s a =
      ⟨some (a.1, (H.apply a.1 x a.2).1), s.builder, s.errors ++ (H.apply a.1 x a.2).2⟩ := by
  simp [step, enter, hcur]

theorem step_fresh (hcur : ∀ x, s.cur ≠ some (a.1, x)) :
    H.step s a =
      ⟨some (a.1, (H.keyRun a.1 [a.2]).1), H.flush s, s.errors ++ (H.keyRun a.1 [a.2]).2⟩ := by
  cases hs : s.cur with
  | none => simp [step, enter, hs, keyRun]
  | some r =>
    obtain ⟨k, x⟩ := r
    have hk : k ≠ a.1 := by
      rintro rfl
      exact hcur x hs
    simp [step, enter, hs, hk, keyRun]

variable [LinearOrder V]

/-- `b` holds what the commands `p` contribute, and nothing is pending. -/
structure Written (p : List (K × C)) (b : Builder K V Unit ℤ) : Prop where
  vals : b.vals = []
  diffs : b.diffs = []
  isBatch : IsBatch b.keys
  mem : ∀ q ∈ b.keys, commandsOf q.1 p ≠ []
  weight : ∀ k v, b.keys.weight (k, v, ()) =
    if commandsOf k p = [] then 0
    else Weighted.weight (H.finish (H.keyRun k (commandsOf k p)).1) v

structure Processed (p : List (K × C)) (s : State K V E σ) : Prop where
  initial : s.cur = none → p = [] ∧ s.builder = Builder.new
  written : ∀ k x, s.cur = some (k, x) →
    H.Written (p.filter fun a => decide (a.1 ≠ k)) s.builder
  current : ∀ k x, s.cur = some (k, x) →
    commandsOf k p ≠ [] ∧ x = (H.keyRun k (commandsOf k p)).1 ∧ ∀ a ∈ p, a.1 ≤ k
  errors : ∀ e, e ∈ s.errors ↔
    ∃ k, commandsOf k p ≠ [] ∧ e ∈ (H.keyRun k (commandsOf k p)).2

theorem processed_init : H.Processed [] (State.init : State K V E σ) where
  initial := fun _ => ⟨rfl, rfl⟩
  written := by simp [State.init]
  current := by simp [State.init]
  errors := by simp [State.init]

theorem written_nil : H.Written [] (Builder.new : Builder K V Unit ℤ) where
  vals := rfl
  diffs := rfl
  isBatch := IsLayer.nil _
  mem := by simp [Builder.new]
  weight := by simp [Builder.new]

variable {b : Builder K V Unit ℤ} {k : K}

theorem Written.key_of_mem (hb : H.Written (p.filter fun a => decide (a.1 ≠ k)) b)
    {q : K × Vals V Unit ℤ} (hq : q ∈ b.keys) : q.1 ≠ k ∧ commandsOf q.1 p ≠ [] := by
  have hne := hb.mem q hq
  rw [commandsOf_filter_ne] at hne
  split at hne
  · exact absurd rfl hne
  · next hk => exact ⟨hk, hne⟩

/-- The updates of one more key, which is greater than all others. -/
theorem Written.concat (hb : H.Written (p.filter fun a => decide (a.1 ≠ k)) b)
    (hk : commandsOf k p ≠ []) (hle : ∀ a ∈ p, a.1 ≤ k) {u : List (V × ℤ)}
    (hu : u = H.finish (H.keyRun k (commandsOf k p)).1) (hcons : Consolidated u) (hne : u ≠ [])
    : H.Written p ((b.pushValDiffs u).pushKey k) := by
  have heq : (b.pushValDiffs u).pushKey k =
      ⟨b.keys ++ [(k, Vals.untimed u)], [], []⟩ := by
    rw [Builder.pushValDiffs_eq _ _ hb.diffs]
    simp [Builder.pushKey, hb.vals, hb.diffs]
  rw [heq]
  refine ⟨rfl, rfl, ?_, ?_, ?_⟩
  · refine isLayer_concat.mpr ⟨hb.isBatch, ?_, Vals.untimed_isVals hne hcons⟩
    intro q hq
    obtain ⟨hqk, hqp⟩ := hb.key_of_mem hq
    obtain ⟨c, hc⟩ := exists_mem_of_ne_nil _ hqp
    exact lt_of_le_of_ne (hle _ (mem_commandsOf.mp hc)) hqk
  · intro q hq
    rcases mem_append.mp hq with hq | hq
    · exact (hb.key_of_mem hq).2
    · rw [mem_singleton.mp hq]
      exact hk
  · intro k' v
    rw [Layers.weight_append, hb.weight, commandsOf_filter_ne, Layers.weight_cons,
      Layers.weight_nil, add_zero]
    by_cases hkk : k = k'
    · subst hkk
      simp [hk, hu, Vals.weight_untimed]
    · have hkk' : k' ≠ k := fun h => hkk h.symm
      simp [hkk, hkk']

theorem Processed.flush (hfinish : ∀ x, Consolidated (H.finish x)) (hs : H.Processed p s) :
    H.Written p (H.flush s) := by
  cases hcur : s.cur with
  | none =>
    obtain ⟨rfl, hb⟩ := hs.initial hcur
    simpa [Handler.flush, hcur, hb] using H.written_nil
  | some r =>
    obtain ⟨k, x⟩ := r
    have hw := hs.written k x hcur
    obtain ⟨hne, hx, hle⟩ := hs.current k x hcur
    by_cases hnil : H.finish x = []
    · -- nothing to write for `k`: its updates cancel
      have hflush : H.flush s = s.builder := by
        simp [Handler.flush, hcur, hnil]
      rw [hflush]
      refine ⟨hw.vals, hw.diffs, hw.isBatch, fun q hq => (hw.key_of_mem hq).2, ?_⟩
      intro k' v
      rw [hw.weight, commandsOf_filter_ne]
      by_cases hk : k' = k
      · subst hk
        rw [← hx]
        simp [hne, hnil]
      · simp [hk]
    · have hflush : H.flush s = (s.builder.pushValDiffs (H.finish x)).pushKey k := by
        simp [Handler.flush, hcur, hnil]
      rw [hflush]
      exact hw.concat hne hle (by rw [hx]) (hfinish x) hnil

omit [LinearOrder V] in
private theorem errors_concat {errors new : List E}
    (herr : ∀ e, e ∈ errors ↔ ∃ k, commandsOf k p ≠ [] ∧ e ∈ (H.keyRun k (commandsOf k p)).2)
    (hnew : ∀ e, (commandsOf a.1 p ≠ [] ∧ e ∈ (H.keyRun a.1 (commandsOf a.1 p)).2) ∨ e ∈ new ↔
      e ∈ (H.keyRun a.1 (commandsOf a.1 p ++ [a.2])).2) (e : E) :
    e ∈ errors ++ new ↔
      ∃ k, commandsOf k (p ++ [a]) ≠ [] ∧ e ∈ (H.keyRun k (commandsOf k (p ++ [a]))).2 := by
  have hself : commandsOf a.1 (p ++ [a]) = commandsOf a.1 p ++ [a.2] := by
    rw [commandsOf_append, commandsOf_cons_of_eq rfl, commandsOf_nil]
  have hother : ∀ k, k ≠ a.1 → commandsOf k (p ++ [a]) = commandsOf k p := by
    intro k hk
    rw [commandsOf_append, commandsOf_cons_of_ne (Ne.symm hk), commandsOf_nil, append_nil]
  rw [mem_append, herr]
  constructor
  · rintro (⟨k, hk, he⟩ | he)
    · by_cases hka : k = a.1
      · subst hka
        exact ⟨a.1, by simp [hself], by rw [hself]; exact (hnew e).mp (Or.inl ⟨hk, he⟩)⟩
      · exact ⟨k, by rwa [hother k hka], by rwa [hother k hka]⟩
    · exact ⟨a.1, by simp [hself], by rw [hself]; exact (hnew e).mp (Or.inr he)⟩
  · rintro ⟨k, hk, he⟩
    by_cases hka : k = a.1
    · subst hka
      rw [hself] at he
      rcases (hnew e).mpr he with h | h
      · exact Or.inl ⟨a.1, h⟩
      · exact Or.inr h
    · rw [hother k hka] at hk he
      exact Or.inl ⟨k, hk, he⟩

theorem Processed.step (hfinish : ∀ x, Consolidated (H.finish x)) (hs : H.Processed p s)
    (hle : ∀ b ∈ p, b.1 ≤ a.1) : H.Processed (p ++ [a]) (H.step s a) := by
  have hself : commandsOf a.1 (p ++ [a]) = commandsOf a.1 p ++ [a.2] := by
    rw [commandsOf_append, commandsOf_cons_of_eq rfl, commandsOf_nil]
  have hle' : ∀ b ∈ p ++ [a], b.1 ≤ a.1 := by
    intro b hb
    rcases mem_append.mp hb with hb | hb
    · exact hle b hb
    · rw [mem_singleton.mp hb]
  have hfilter : ((p ++ [a]).filter fun b => decide (b.1 ≠ a.1)) =
      p.filter fun b => decide (b.1 ≠ a.1) := by
    simp
  by_cases hcur : ∃ x, s.cur = some (a.1, x)
  · obtain ⟨x, hcur⟩ := hcur
    obtain ⟨hne, hx, -⟩ := hs.current a.1 x hcur
    rw [H.step_same hcur]
    refine ⟨by simp, ?_, ?_, ?_⟩
    · rintro k y ⟨⟩
      rw [hfilter]
      exact hs.written a.1 x hcur
    · rintro k y ⟨⟩
      refine ⟨by simp [hself], ?_, hle'⟩
      rw [hself, keyRun_concat, hx]
    · refine errors_concat hs.errors ?_
      intro e
      rw [keyRun_concat, mem_append, ← hx]
      simp [hne]
  · have hfresh : commandsOf a.1 p = [] := by
      by_contra hne
      cases hs' : s.cur with
      | none =>
        obtain ⟨rfl, -⟩ := hs.initial hs'
        exact hne rfl
      | some r =>
        obtain ⟨k, x⟩ := r
        obtain ⟨hk, -, hmax⟩ := hs.current k x hs'
        obtain ⟨c, hc⟩ := exists_mem_of_ne_nil _ hne
        obtain ⟨d, hd⟩ := exists_mem_of_ne_nil _ hk
        have hak : a.1 = k :=
          le_antisymm (hmax (a.1, c) (mem_commandsOf.mp hc)) (hle (k, d) (mem_commandsOf.mp hd))
        exact hcur ⟨x, hak ▸ hs'⟩
    have hall : (p.filter fun b => decide (b.1 ≠ a.1)) = p := by
      rw [filter_eq_self]
      intro b hb
      simpa using commandsOf_eq_nil.mp hfresh b hb
    rw [H.step_fresh fun x hx => hcur ⟨x, hx⟩]
    refine ⟨by simp, ?_, ?_, ?_⟩
    · rintro k y ⟨⟩
      rw [hfilter, hall]
      exact hs.flush hfinish
    · rintro k y ⟨⟩
      refine ⟨by simp [hself], ?_, hle'⟩
      rw [hself, hfresh, nil_append]
    · refine errors_concat hs.errors ?_
      intro e
      simp [hfresh]

/-- A whole run over commands that are sorted by key. -/
theorem processed_foldl (hfinish : ∀ x, Consolidated (H.finish x)) (hp : SortedByKey p) :
    H.Processed p (p.foldl H.step State.init) := by
  induction p using List.reverseRecOn with
  | nil => exact H.processed_init
  | append_singleton p a ih =>
    obtain ⟨hsorted, -, hlt⟩ := pairwise_append.mp hp
    rw [foldl_append]
    exact (ih hsorted).step hfinish fun b hb => hlt b hb a (by simp)

end

section

variable [LinearOrder K] [LinearOrder C]

/-- `fuel` is the number of commands that may still be taken. -/
def loop : Nat → List (List (K × C)) → State K V E σ → State K V E σ
  | 0, _, s => s
  | fuel + 1, updates, s =>
    match popMin updates with
    | none => s
    | some (a, rest) => loop fuel rest (H.step s a)

/-- The whole evaluation: the output batch and the reported errors. Empty vectors are
left out first. -/
def eval (updates : List (List (K × C))) : Layers K V Unit ℤ × List E :=
  let updates := updates.filter fun l => !l.isEmpty
  let s := H.loop (size updates) updates State.init
  ((H.flush s).done, s.errors)

theorem loop_eq_foldl (fuel : Nat) (updates : List (List (K × C))) (s : State K V E σ) :
    H.loop fuel updates s = (drain fuel updates).foldl H.step s := by
  induction fuel generalizing updates s with
  | zero => rfl
  | succ fuel ih =>
    cases hp : popMin updates with
    | none => simp [loop, drain, hp]
    | some r => simp [loop, drain, hp, ih]

theorem eval_eq_foldl (updates : List (List (K × C))) :
    H.eval updates =
      ((H.flush ((merged updates).foldl H.step State.init)).done,
        ((merged updates).foldl H.step State.init).errors) := by
  unfold eval merged
  simp only [loop_eq_foldl]

variable [LinearOrder V] {updates : List (List (K × C))} {H : Handler K C V E σ}

section

variable (hfinish : ∀ x, Consolidated (H.finish x)) (hs : ∀ l ∈ updates, SortedByKey l)
include hfinish hs

/-- What the operator writes: for every key that has commands, the updates that its own
commands amount to. -/
theorem eval_written :
    IsBatch (H.eval updates).1 ∧ ∀ k v, (H.eval updates).1.weight (k, v, ()) =
      if commandsOf k (merged updates) = [] then 0
      else Weighted.weight (H.finish (H.keyRun k (commandsOf k (merged updates))).1) v := by
  have hwritten := (processed_foldl hfinish (merged_sorted hs)).flush hfinish
  rw [eval_eq_foldl]
  exact ⟨hwritten.isBatch, hwritten.weight⟩

/-- What the operator reports: the errors of every key that has commands. -/
theorem eval_errors (e : E) :
    e ∈ (H.eval updates).2 ↔ ∃ k, commandsOf k (merged updates) ≠ [] ∧
      e ∈ (H.keyRun k (commandsOf k (merged updates))).2 := by
  rw [eval_eq_foldl]
  exact (processed_foldl hfinish (merged_sorted hs)).errors e

end

end

end Handler

end Feldera.Operator.UpsertLoop
