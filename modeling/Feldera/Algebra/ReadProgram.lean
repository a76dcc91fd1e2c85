import Mathlib.Data.Nat.Notation

/-!
Programs that read. A program returns, fails, or asks one query and goes on with the answer;
`run` interprets it against an environment that answers or refuses each query. Facts about
all readers at once, whatever loops they contain, are inductions over the program.
-/

namespace Feldera.Algebra

@[simp] theorem ok_bind {ε α β : Type} (a : α) (f : α → Except ε β) :
    (Except.ok a >>= f) = f a := rfl

inductive ReadProgram (Q R E α : Type) where
  | pure (a : α)
  | fail (e : E)
  | ask (q : Q) (k : R → ReadProgram Q R E α)

namespace ReadProgram

variable {Q R E α β : Type}

protected def bind : ReadProgram Q R E α → (α → ReadProgram Q R E β) → ReadProgram Q R E β
  | .pure a, f => f a
  | .fail e, _ => .fail e
  | .ask q k, f => .ask q fun r => (k r).bind f

instance : Monad (ReadProgram Q R E) where
  pure := .pure
  bind := ReadProgram.bind

def query (q : Q) : ReadProgram Q R E R := .ask q .pure

def ofExcept : Except E α → ReadProgram Q R E α
  | .ok a => .pure a
  | .error e => .fail e

def run (env : Q → Except E R) : ReadProgram Q R E α → Except E α
  | .pure a => .ok a
  | .fail e => .error e
  | .ask q k => match env q with
    | .ok r => (k r).run env
    | .error e => .error e

variable {env : Q → Except E R}

@[simp] theorem run_pure (a : α) : (Pure.pure a : ReadProgram Q R E α).run env = .ok a := rfl

@[simp] theorem run_fail (e : E) : (fail e : ReadProgram Q R E α).run env = .error e := rfl

@[simp] theorem run_query (q : Q) : (query q : ReadProgram Q R E R).run env = env q := by
  unfold query run
  cases env q with
  | ok r => rfl
  | error e => rfl

@[simp] theorem run_ofExcept (x : Except E α) : (ofExcept x : ReadProgram Q R E α).run env = x := by
  cases x <;> rfl

@[simp] theorem run_bind (p : ReadProgram Q R E α) (f : α → ReadProgram Q R E β) :
    (p >>= f).run env = p.run env >>= fun a => (f a).run env := by
  change (p.bind f).run env = _
  induction p with
  | pure a => rfl
  | fail e => rfl
  | ask q k ih =>
    simp only [ReadProgram.bind, run]
    cases env q with
    | ok r => exact ih r
    | error e => rfl

theorem run_bind_ok {p : ReadProgram Q R E α} {a : α} (h : p.run env = .ok a)
    (f : α → ReadProgram Q R E β) : (p >>= f).run env = (f a).run env := by
  rw [run_bind, h]
  rfl

end ReadProgram

end Feldera.Algebra
