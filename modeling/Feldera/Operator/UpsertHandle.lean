import Feldera.Algebra.KeyedMerge

/-!
The client side of the upsert tables. A handle keeps one mailbox for every
worker and routes each command by the hash of its key. A mailbox is a list of
command vectors that is never empty: `push` and `append` write to its first
vector, `append_staged` adds a vector at the end. Commands that are pushed
after a staged batch therefore stand before it, and `InOrder` says when the
vectors, merged by `KeyedMerge`, still give the commands to a key in the order
in which they were submitted.
-/

namespace Feldera.Operator.UpsertHandle

open KeyedMerge List

variable {K C : Type*}

inductive Call (K C : Type*) where
  | push (k : K) (c : C)
  | append (vals : List (K × C))
  | appendStaged (vals : List (K × C))

def Call.commands : Call K C → List (K × C)
  | .push k c => [(k, c)]
  | .append vals => vals
  | .appendStaged vals => vals

def Call.isStaged : Call K C → Bool
  | .push _ _ => false
  | .append _ => false
  | .appendStaged _ => true

def submitted (calls : List (Call K C)) : List (K × C) :=
  calls.flatMap Call.commands

/-- Vectors of one worker: the one that `push` and `append` write to, then the staged
ones. -/
structure Mailbox (K C : Type*) where
  first : List (K × C)
  staged : List (List (K × C))

def Mailbox.empty : Mailbox K C := ⟨[], []⟩

def Mailbox.vectors (m : Mailbox K C) : List (List (K × C)) :=
  m.first :: m.staged

section

variable {n : Nat} [NeZero n] (hash : K → Nat)

def worker (n : Nat) [NeZero n] (hash : K → Nat) (k : K) : Fin n :=
  Fin.ofNat n (hash k)

/-- `dyn_stage`: the part of `vals` that goes to worker `w`. -/
def stage (vals : List (K × C)) (w : Fin n) : List (K × C) :=
  vals.filter fun a => decide (worker n hash a.1 = w)

/-- `dyn_push`, `dyn_append` and `dyn_append_staged`. -/
def submit (boxes : Fin n → Mailbox K C) (call : Call K C) (w : Fin n) : Mailbox K C :=
  match call with
  | .push k c =>
    if worker n hash k = w then { boxes w with first := (boxes w).first ++ [(k, c)] }
    else boxes w
  | .append vals => { boxes w with first := (boxes w).first ++ stage hash vals w }
  | .appendStaged vals => { boxes w with staged := (boxes w).staged ++ [stage hash vals w] }

/-- The mailboxes after `calls`, which found them empty. -/
def mailboxes (calls : List (Call K C)) : Fin n → Mailbox K C :=
  calls.foldl (submit hash) fun _ => Mailbox.empty

end

def direct (calls : List (Call K C)) : List (K × C) :=
  submitted (calls.filter fun c => !c.isStaged)

def staged (calls : List (Call K C)) : List (List (K × C)) :=
  (calls.filter Call.isStaged).map Call.commands

variable (calls calls' : List (Call K C))

@[simp] theorem direct_append : direct (calls ++ calls') = direct calls ++ direct calls' := by
  simp [direct, submitted]

@[simp] theorem staged_append : staged (calls ++ calls') = staged calls ++ staged calls' := by
  simp [staged]

variable (call : Call K C) (calls : List (Call K C))

theorem direct_cons :
    direct (call :: calls) = (if call.isStaged then [] else call.commands) ++ direct calls := by
  cases call <;> rfl

theorem staged_cons :
    staged (call :: calls) = (if call.isStaged then [call.commands] else []) ++ staged calls := by
  cases call <;> rfl

theorem mailboxes_eq {n : Nat} [NeZero n] (hash : K → Nat) (calls : List (Call K C))
    (w : Fin n) :
    mailboxes hash calls w =
      ⟨stage hash (direct calls) w, (staged calls).map fun l => stage hash l w⟩ := by
  induction calls using reverseRecOn with
  | nil => rfl
  | append_singleton calls call ih =>
    have hstep : mailboxes hash (calls ++ [call]) w =
        submit hash (mailboxes hash calls) call w := by
      simp [mailboxes]
    have happend : ∀ l m : List (K × C),
        stage hash (l ++ m) w = stage hash l w ++ stage hash m w := by
      intro l m
      simp [stage]
    rw [hstep, direct_append, staged_append, happend, map_append]
    cases call with
    | push k c =>
      have hstaged : staged [Call.push k c] = [] := rfl
      have hdirect : stage hash (direct [Call.push k c]) w =
          if worker n hash k = w then [(k, c)] else [] := by
        by_cases hk : worker n hash k = w <;>
          simp [direct, submitted, Call.isStaged, Call.commands, stage, hk]
      rw [hstaged, hdirect]
      by_cases hk : worker n hash k = w <;> simp [submit, ih, hk]
    | append vals =>
      have hstaged : staged [Call.append vals] = [] := rfl
      have hdirect : direct [Call.append vals] = vals := by
        simp [direct, submitted, Call.isStaged, Call.commands]
      rw [hstaged, hdirect]
      simp [submit, ih]
    | appendStaged vals =>
      have hstaged : staged [Call.appendStaged vals] = [vals] := rfl
      have hdirect : direct [Call.appendStaged vals] = [] := rfl
      rw [hstaged, hdirect]
      simp [submit, ih, stage]

section

variable [LinearOrder K]

theorem commandsOf_stage {n : Nat} [NeZero n] (hash : K → Nat) (vals : List (K × C))
    (w : Fin n) (k : K) :
    commandsOf k (stage hash vals w) =
      if worker n hash k = w then commandsOf k vals else [] := by
  unfold commandsOf stage
  rw [filter_filter]
  by_cases hk : worker n hash k = w
  · rw [if_pos hk]
    congr 1
    apply filter_congr
    intro a _
    by_cases ha : a.1 = k
    · simp [ha, hk]
    · simp [ha]
  · rw [if_neg hk, map_eq_nil_iff, filter_eq_nil_iff]
    intro a _
    by_cases ha : a.1 = k
    · simp [ha, hk]
    · simp [ha]

/-- No call pushes or appends a command to `k` after a staged batch with one. -/
def PushedFirst (k : K) (calls : List (Call K C)) : Prop :=
  calls.Pairwise fun c d => c.isStaged = true → d.isStaged = false →
    commandsOf k c.commands = [] ∨ commandsOf k d.commands = []

instance (k : K) (calls : List (Call K C)) [DecidableEq C] :
    Decidable (PushedFirst k calls) :=
  inferInstanceAs (Decidable (List.Pairwise _ _))

variable {calls : List (Call K C)} {k : K}

theorem commandsOf_submitted_of_pushedFirst (h : PushedFirst k calls) :
    commandsOf k (submitted calls) =
      commandsOf k (direct calls) ++ commandsOf k (staged calls).flatten := by
  induction calls with
  | nil => rfl
  | cons call calls ih =>
    obtain ⟨hcall, hrest⟩ := pairwise_cons.mp h
    have hsub : submitted (call :: calls) = call.commands ++ submitted calls := rfl
    rw [hsub, direct_cons, staged_cons, commandsOf_append, ih hrest]
    cases hstaged : call.isStaged with
    | false => simp
    | true =>
      by_cases hk : commandsOf k call.commands = []
      · simp [hk]
      -- a staged batch with commands to `k`: nothing is pushed to `k` afterwards
      have hdirect : commandsOf k (direct calls) = [] := by
        rw [commandsOf_eq_nil]
        intro a ha
        obtain ⟨d, hd, had⟩ := mem_flatMap.mp ha
        obtain ⟨hmem, hfalse⟩ := mem_filter.mp hd
        have hd' := (hcall d hmem hstaged (by simpa using hfalse)).resolve_left hk
        exact commandsOf_eq_nil.mp hd' a had
      simp [hdirect]

variable [LinearOrder C]

/-- The merge takes the commands to `k` in submission order. -/
structure InOrder (k : K) (calls : List (Call K C)) : Prop where
  pushedFirst : PushedFirst k calls
  kept : Kept k (direct calls :: staged calls)

instance (k : K) (calls : List (Call K C)) : Decidable (InOrder k calls) :=
  decidable_of_iff (PushedFirst k calls ∧ Kept k (direct calls :: staged calls))
    ⟨fun h => ⟨h.1, h.2⟩, fun h => ⟨h.pushedFirst, h.kept⟩⟩

theorem InOrder.commandsOf_submitted (h : InOrder k calls) :
    commandsOf k (submitted calls) = commandsOf k (direct calls :: staged calls).flatten := by
  rw [commandsOf_submitted_of_pushedFirst h.pushedFirst, flatten_cons, commandsOf_append]

theorem inOrder_append (k : K) (vals : List (K × C)) : InOrder k [Call.append vals] :=
  ⟨pairwise_singleton _ _, pairwise_singleton _ _⟩

end

@[simp] theorem submitted_append (vals : List (K × C)) : submitted [Call.append vals] = vals := by
  simp [submitted, Call.commands]

end Feldera.Operator.UpsertHandle
