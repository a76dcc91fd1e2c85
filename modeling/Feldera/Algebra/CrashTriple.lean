import Mathlib.Tactic

/-!
Programs whose operations may fail, and which may be stopped by a crash at any operation.

A fault says what happens to an operation: nothing, it fails, or the program crashes in it; the
last two may leave a part of the effect behind. A program takes the faults of its operations from
a list; when none is left, the operations that follow succeed. A triple says what holds after a
program has ended, whichever way it ended.
-/

namespace Feldera.Crash

/-- What happens to an operation. The number says how much of its effect there is nevertheless. -/
inductive Fault
  | none
  | fail (done : Nat)
  | crash (done : Nat)
deriving DecidableEq

inductive Outcome (ε α : Type*)
  | done (a : α)
  | failed (e : ε)
  | crashed

def Prog (σ ε α : Type) : Type :=
  σ → List Fault → Outcome ε α × σ × List Fault

variable {σ ε α β : Type}

namespace Prog

protected def pure (a : α) : Prog σ ε α := fun s fs => (.done a, s, fs)

protected def bind (m : Prog σ ε α) (f : α → Prog σ ε β) : Prog σ ε β := fun s fs =>
  match m s fs with
  | (.done a, s, fs) => f a s fs
  | (.failed e, s, fs) => (.failed e, s, fs)
  | (.crashed, s, fs) => (.crashed, s, fs)

instance : Monad (Prog σ ε) where
  pure := Prog.pure
  bind := Prog.bind

def fail (e : ε) : Prog σ ε α := fun s fs => (.failed e, s, fs)

def crash : Prog σ ε α := fun s fs => (.crashed, s, fs)

def get (f : σ → α) : Prog σ ε α := fun s fs => (.done (f s), s, fs)

def modify (f : σ → σ) : Prog σ ε Unit := fun s fs => (.done (), f s, fs)

/-- An operation that can fail with the error `e`. -/
def op (e : ε) (effect : σ → Except ε α × σ) (part : Nat → σ → σ) : Prog σ ε α := fun s fs =>
  match fs with
  | .fail n :: fs => (.failed e, part n s, fs)
  | .crash n :: fs => (.crashed, part n s, fs)
  | fs =>
    match effect s with
    | (.ok a, s) => (.done a, s, fs.tail)
    | (.error e, s) => (.failed e, s, fs.tail)

def handle (m : Prog σ ε α) (h : ε → Prog σ ε α) : Prog σ ε α := fun s fs =>
  match m s fs with
  | (.failed e, s, fs) => h e s fs
  | r => r

def each (f : β → Prog σ ε Unit) : List β → Prog σ ε Unit
  | [] => .pure ()
  | b :: l => .bind (f b) fun _ => each f l

end Prog

/-- From states with `P` the program ends with `Q`, with `E` if it fails, and with `C` if it
crashes. -/
def Triple (P : σ → Prop) (m : Prog σ ε α) (Q : α → σ → Prop) (E : ε → σ → Prop)
    (C : σ → Prop) : Prop :=
  ∀ s fs, P s →
    match m s fs with
    | (.done a, s', _) => Q a s'
    | (.failed e, s', _) => E e s'
    | (.crashed, s', _) => C s'

namespace Triple

variable {P P' : σ → Prop} {m : Prog σ ε α} {Q Q' : α → σ → Prop} {E E' : ε → σ → Prop}
  {C C' : σ → Prop}

theorem pure {a : α} (h : ∀ s, P s → Q a s) : Triple P (Pure.pure a : Prog σ ε α) Q E C :=
  fun s _ hs => h s hs

variable {R : β → σ → Prop}

theorem bind {f : α → Prog σ ε β} (hm : Triple P m Q E C) (hf : ∀ a, Triple (Q a) (f a) R E C) :
    Triple P (m >>= f) R E C := by
  intro s fs hs
  have hend := hm s fs hs
  change match Prog.bind m f s fs with
    | (.done b, s', _) => R b s'
    | (.failed e, s', _) => E e s'
    | (.crashed, s', _) => C s'
  unfold Prog.bind
  rcases hrun : m s fs with ⟨a | e | -, s', fs'⟩ <;> rw [hrun] at hend
  · exact hf a s' fs' hend
  · exact hend
  · exact hend

theorem conseq (h : Triple P m Q E C) (hP : ∀ s, P' s → P s) (hQ : ∀ a s, Q a s → Q' a s)
    (hE : ∀ e s, E e s → E' e s) (hC : ∀ s, C s → C' s) : Triple P' m Q' E' C' := by
  intro s fs hs
  have hend := h s fs (hP s hs)
  rcases hrun : m s fs with ⟨a | e | -, s', fs'⟩ <;> rw [hrun] at hend
  · exact hQ a s' hend
  · exact hE e s' hend
  · exact hC s' hend

theorem post (h : Triple P m Q E C) (hQ : ∀ a s, Q a s → Q' a s) : Triple P m Q' E C :=
  h.conseq (fun _ hs => hs) hQ (fun _ _ hs => hs) fun _ hs => hs

theorem of_eq (h : ∀ s, P s → Triple (fun s' => s' = s) m Q E C) : Triple P m Q E C :=
  fun s fs hs => h s hs s fs rfl

theorem fail {e : ε} (h : ∀ s, P s → E e s) : Triple P (Prog.fail e : Prog σ ε α) Q E C :=
  fun s _ hs => h s hs

theorem crash (h : ∀ s, P s → C s) : Triple P (Prog.crash : Prog σ ε α) Q E C :=
  fun s _ hs => h s hs

theorem bind_get {s : σ} {f : σ → α} {k : α → Prog σ ε β}
    (h : Triple (fun s' => s' = s) (k (f s)) R E C) :
    Triple (fun s' => s' = s) (Prog.get f >>= k) R E C := by
  rintro _ fs rfl
  exact h _ fs rfl

theorem bind_modify {s : σ} {f : σ → σ} {k : Unit → Prog σ ε β}
    (h : Triple (fun s' => s' = f s) (k ()) R E C) :
    Triple (fun s' => s' = s) (Prog.modify f >>= k) R E C := by
  rintro _ fs rfl
  exact h _ fs rfl

theorem modify {f : σ → σ} {Q : Unit → σ → Prop} (h : ∀ s, P s → Q () (f s)) :
    Triple P (Prog.modify f : Prog σ ε Unit) Q E C :=
  fun s _ hs => h s hs

theorem op {e : ε} {effect : σ → Except ε α × σ} {part : Nat → σ → σ}
    (hok : ∀ s a, P s → (effect s).1 = .ok a → Q a (effect s).2)
    (herror : ∀ s e, P s → (effect s).1 = .error e → E e (effect s).2)
    (hfail : ∀ s n, P s → E e (part n s)) (hcrash : ∀ s n, P s → C (part n s)) :
    Triple P (Prog.op e effect part) Q E C := by
  intro s fs hs
  have hdone : match (match effect s with
      | (.ok a, s) => ((.done a, s, fs.tail) : Outcome ε α × σ × List Fault)
      | (.error e, s) => (.failed e, s, fs.tail)) with
      | (.done a, s', _) => Q a s'
      | (.failed e, s', _) => E e s'
      | (.crashed, s', _) => C s' := by
    have hok := hok s
    have herror := herror s
    rcases heffect : effect s with ⟨e' | a, s'⟩ <;> rw [heffect] at hok herror
    · exact herror e' hs rfl
    · exact hok a hs rfl
  match fs with
  | [] => exact hdone
  | .none :: fs => exact hdone
  | .fail n :: fs => exact hfail s n hs
  | .crash n :: fs => exact hcrash s n hs

theorem handle {h : ε → Prog σ ε α} {E' : ε → σ → Prop} (hm : Triple P m Q E' C)
    (hh : ∀ e, Triple (E' e) (h e) Q E C) : Triple P (Prog.handle m h) Q E C := by
  intro s fs hs
  have hend := hm s fs hs
  unfold Prog.handle
  rcases hrun : m s fs with ⟨a | e | -, s', fs'⟩ <;> rw [hrun] at hend
  · exact hend
  · exact hh e s' fs' hend
  · exact hend

/-- A loop: `I` is about the part of the list that has been done. -/
theorem each {f : β → Prog σ ε Unit} {I : List β → σ → Prop} {l : List β}
    (hf : ∀ pre b rest, l = pre ++ b :: rest →
      Triple (I pre) (f b) (fun _ => I (pre ++ [b])) E C) :
    Triple (I []) (Prog.each f l) (fun _ => I l) E C := by
  have hfrom : ∀ rest pre, l = pre ++ rest →
      Triple (I pre) (Prog.each f rest) (fun _ => I l) E C := by
    intro rest
    induction rest with
    | nil =>
      intro pre hsplit s fs hs
      rw [hsplit, List.append_nil]
      exact hs
    | cons b rest ih =>
      intro pre hsplit
      exact bind (hf pre b rest hsplit) fun _ => ih (pre ++ [b]) (by simp [hsplit])
  exact hfrom l [] rfl

end Triple

end Feldera.Crash
