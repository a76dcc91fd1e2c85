import Mathlib.Data.List.Forall2

/-!
Computations that check something at each step and stop at the first check that fails. The
lemmas take a successful computation apart: every check passed, and each intermediate result
is the one the next step used.
-/

namespace Feldera.Checked

universe u v

variable {ε : Type u} {α β : Type v}

def reject (c : Prop) [Decidable c] (e : ε) : Except ε Unit :=
  if c then .error e else .ok ()

def rejectUnless (value : Option α) (test : α → Bool) (e : α → ε) : Except ε Unit :=
  match value with
  | none => .ok ()
  | some a => if test a then .ok () else .error (e a)

variable {e : ε} {c : Prop} {u : Unit}

@[simp] theorem reject_eq_ok [Decidable c] : reject c e = .ok u ↔ ¬ c := by
  unfold reject
  split <;> simp_all

theorem reject_ne_error [Decidable c] {e e' : ε} (h : c → e ≠ e') : reject c e ≠ .error e' := by
  unfold reject
  split
  · rename_i hc
    exact fun heq => h hc (Except.error.inj heq)
  · nofun

variable {test : α → Bool} {value : Option α}

@[simp] theorem rejectUnless_eq_ok {e : α → ε} :
    rejectUnless value test e = .ok u ↔ ∀ a, value = some a → test a = true := by
  unfold rejectUnless
  cases value with
  | none => simp
  | some a => cases h : test a <;> simp [h]

theorem rejectUnless_ne_error {e : α → ε} {e' : ε} (h : ∀ a, e a ≠ e') :
    rejectUnless value test e ≠ .error e' := by
  unfold rejectUnless
  split
  · nofun
  · split
    · nofun
    · exact fun heq => h _ (Except.error.inj heq)

variable {f : α → Except ε β} {x : Except ε α}

theorem bind_eq_ok {b : β} : (x >>= f) = .ok b ↔ ∃ a, x = .ok a ∧ f a = .ok b := by
  cases x with
  | error e => simp [bind, Except.bind]
  | ok a => simp [bind, Except.bind]

theorem bind_ne_error (hx : x ≠ .error e) (hf : ∀ a, f a ≠ .error e) : (x >>= f) ≠ .error e := by
  cases x with
  | error e' => exact fun heq => hx (congrArg Except.error (Except.error.inj heq))
  | ok a => exact hf a

theorem pure_eq_ok {a b : α} : (pure a : Except ε α) = .ok b ↔ a = b := by
  simp [pure, Except.pure]

theorem mapM_eq_ok {as : List α} {bs : List β} :
    as.mapM f = .ok bs ↔ List.Forall₂ (fun a b => f a = .ok b) as bs := by
  induction as generalizing bs with
  | nil =>
    rw [List.mapM_nil, pure_eq_ok, List.forall₂_nil_left_iff]
    exact eq_comm
  | cons a as ih =>
    simp only [List.mapM_cons, bind_eq_ok, pure_eq_ok, List.forall₂_cons_left_iff, ih]
    grind

theorem mapM_ne_error {as : List α} (h : ∀ a ∈ as, f a ≠ .error e) : as.mapM f ≠ .error e := by
  induction as with
  | nil => nofun
  | cons a as ih =>
    rw [List.mapM_cons]
    refine bind_ne_error (h a List.mem_cons_self) fun b => bind_ne_error ?_ nofun
    exact ih fun a' ha' => h a' (List.mem_cons_of_mem _ ha')

end Feldera.Checked
