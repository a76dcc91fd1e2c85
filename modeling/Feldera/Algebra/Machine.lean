import Mathlib.Tactic

/-!
Runs of a machine whose steps may stop. A run takes a list of actions; a guard says
in which states which actions are considered. Facts about whole runs come from facts
about one step through `run_invariant` and `run_ne_error`.
-/

namespace Feldera.Machine

variable {σ α ε : Type*} (step : σ → α → Except ε σ)

/-- Takes the actions one after the other, up to the first one that stops. -/
def run : σ → List α → Except ε σ
  | s, [] => .ok s
  | s, a :: as => (step s a).bind fun s' => run s' as

/-- Every action of a run meets `guard` in the state in which it is taken. -/
def Guarded (guard : σ → α → Prop) : σ → List α → Prop
  | _, [] => True
  | s, a :: as => guard s a ∧
      match step s a with
      | .ok s' => Guarded guard s' as
      | .error _ => True

structure Invariant (guard : σ → α → Prop) (I : σ → Prop) : Prop where
  keeps : ∀ {s a s'}, I s → guard s a → step s a = .ok s' → I s'

variable {step} {guard : σ → α → Prop} {I : σ → Prop} {as : List α} {s s' : σ} {a : α}

theorem run_cons_eq_ok (h : run step s (a :: as) = .ok s') :
    ∃ s₁, step s a = .ok s₁ ∧ run step s₁ as = .ok s' := by
  unfold run at h
  cases hstep : step s a with
  | error e =>
    rw [hstep] at h
    cases h
  | ok s₁ =>
    rw [hstep] at h
    exact ⟨s₁, rfl, h⟩

theorem Guarded.tail (h : Guarded step guard s (a :: as)) (hstep : step s a = .ok s') :
    Guarded step guard s' as := by
  have hnext := h.2
  rwa [hstep] at hnext

variable {s : σ}

theorem Guarded.mono {guard' : σ → α → Prop} (h : Guarded step guard s as)
    (himp : ∀ {s a}, guard s a → guard' s a) : Guarded step guard' s as := by
  induction as generalizing s with
  | nil => trivial
  | cons a as ih =>
    refine ⟨himp h.1, ?_⟩
    cases hstep : step s a with
    | error e => trivial
    | ok s' => exact ih (h.tail hstep)

instance Guarded.decidable [∀ s a, Decidable (guard s a)] :
    ∀ (s : σ) (as : List α), Decidable (Guarded step guard s as)
  | _, [] => .isTrue trivial
  | s, a :: as =>
    have : Decidable (match step s a with
        | .ok s' => Guarded step guard s' as
        | .error _ => True) :=
      match step s a with
      | .ok s' => Guarded.decidable s' as
      | .error _ => .isTrue trivial
    inferInstanceAs (Decidable (_ ∧ _))

theorem guarded_true (s : σ) (as : List α) : Guarded step (fun _ _ => True) s as := by
  induction as generalizing s with
  | nil => trivial
  | cons a as ih =>
    refine ⟨trivial, ?_⟩
    cases step s a with
    | error e => trivial
    | ok s' => exact ih s'

theorem run_invariant (hI : Invariant step guard I) (hs : I s) (hguard : Guarded step guard s as)
    (hrun : run step s as = .ok s') : I s' := by
  induction as generalizing s with
  | nil =>
    obtain rfl : s = s' := Except.ok.inj hrun
    exact hs
  | cons a as ih =>
    obtain ⟨s₁, hstep, hrest⟩ := run_cons_eq_ok hrun
    exact ih (hI.keeps hs hguard.1 hstep) (hguard.tail hstep) hrest

/-- If no guarded step stops with `e` where `I` holds, no guarded run does. -/
theorem run_ne_error (hI : Invariant step guard I) {e : ε}
    (hstep : ∀ {s a}, I s → guard s a → step s a ≠ .error e) (hs : I s)
    (hguard : Guarded step guard s as) : run step s as ≠ .error e := by
  induction as generalizing s with
  | nil => simp [run]
  | cons a as ih =>
    unfold run
    cases hnext : step s a with
    | error e' =>
      intro h
      exact hstep hs hguard.1 (hnext.trans h)
    | ok s₁ => exact ih (hI.keeps hs hguard.1 hnext) (hguard.tail hnext)

/-- If every guarded step goes through where `I` holds and keeps it, every guarded run does. -/
theorem run_total (hstep : ∀ {s a}, I s → guard s a → ∃ s', step s a = .ok s' ∧ I s') (hs : I s)
    (hguard : Guarded step guard s as) : ∃ s', run step s as = .ok s' ∧ I s' := by
  induction as generalizing s with
  | nil => exact ⟨s, rfl, hs⟩
  | cons a as ih =>
    obtain ⟨s₁, hnext, hs₁⟩ := hstep hs hguard.1
    obtain ⟨s', hrun, hs'⟩ := ih hs₁ (hguard.tail hnext)
    exact ⟨s', by rwa [run, hnext], hs'⟩

end Feldera.Machine
