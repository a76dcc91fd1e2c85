import Feldera.Exchange.Work

/-!
Fair runs of an exchange: every worker keeps trying, the tasks keep running, and callbacks that are
owed are invoked. Then every round completes, and a sender or receiver that becomes ready is told so
by its callback.
-/

namespace Feldera.Exchange

open Rounds State Function

variable {T : Type*} {L : Layout} {data : ℕ → ℕ → ℕ → T} {x x' y : State T} {t : Thread}
  {r n : ℕ}

/-- `ready_to_send` and `ready_to_receive`. -/
def Ready (L : Layout) (x : State T) : Party → Prop
  | .sender w => x.senderCounters w = L.nWorkers
  | .receiver w => x.receiverCounters w = L.nWorkers

def Layout.IsParty (L : Layout) : Party → Prop
  | .sender w | .receiver w => w < L.nWorkers

/-- Either nothing becomes ready, or what does is owed a callback. -/
def Announced (L : Layout) (x x' : State T) : Prop :=
  (x'.owed = x.owed ∧ ∀ p, Ready L x' p → Ready L x p) ∨
    ∃ p, L.IsParty p ∧ x'.owed = p :: x.owed ∧ ∀ q, q ≠ p → Ready L x' q → Ready L x q

theorem announced_of_counters (howed : x'.owed = x.owed)
    (hsender : x'.senderCounters = x.senderCounters)
    (hreceiver : x'.receiverCounters = x.receiverCounters) : Announced L x x' := by
  refine .inl ⟨howed, ?_⟩
  intro p
  cases p <;> simp only [Ready, hsender, hreceiver, imp_self]

theorem announced_addReceiver (hr : r < L.nWorkers) (hn : n ≤ L.nWorkers) :
    Announced L y (y.addReceiver L r n) := by
  have hother : ∀ q, q ≠ .receiver r → Ready L (y.addReceiver L r n) q → Ready L y q := by
    intro q hq hready
    cases q with
    | sender w => exact hready
    | receiver w =>
      have hne : w ≠ r := fun heq => hq (congrArg _ heq)
      exact (update_of_ne hne ..).symm.trans hready
  by_cases hreached : L.nWorkers - n ≤ y.receiverCounters r
  · exact .inr ⟨.receiver r, hr, if_pos hreached, hother⟩
  refine .inl ⟨if_neg hreached, ?_⟩
  intro q hready
  by_cases hq : q = .receiver r
  · subst hq
    have hsum : y.receiverCounters r + n = L.nWorkers :=
      (update_self ..).symm.trans hready
    omega
  · exact hother q hq hready

theorem announced_addSender (hr : r < L.nWorkers) (hn : n ≤ L.nWorkers) :
    Announced L y (y.addSender L r n) := by
  have hother : ∀ q, q ≠ .sender r → Ready L (y.addSender L r n) q → Ready L y q := by
    intro q hq hready
    cases q with
    | sender w =>
      have hne : w ≠ r := fun heq => hq (congrArg _ heq)
      exact (update_of_ne hne ..).symm.trans hready
    | receiver w => exact hready
  by_cases hreached : L.nWorkers - n ≤ y.senderCounters r
  · exact .inr ⟨.sender r, hr, if_pos hreached, hother⟩
  refine .inl ⟨if_neg hreached, ?_⟩
  intro q hready
  by_cases hq : q = .sender r
  · subst hq
    have hsum : y.senderCounters r + n = L.nWorkers :=
      (update_self ..).symm.trans hready
    omega
  · exact hother q hq hready

theorem announced_attempt : Announced L x (x.attempt L t) := by
  cases t with
  | sender w =>
    rw [attempt]
    split
    · next hbegin =>
      refine .inl ⟨rfl, ?_⟩
      intro p hready
      cases p with
      | receiver v => exact hready
      | sender v =>
        by_cases hv : v = w
        · subst hv
          exact hbegin.2
        · exact (update_of_ne hv ..).symm.trans hready
    · exact announced_of_counters rfl rfl rfl
  | receiver w =>
    rw [attempt]
    split
    · next hbegin =>
      refine .inl ⟨rfl, ?_⟩
      intro p hready
      cases p with
      | sender v => exact hready
      | receiver v =>
        by_cases hv : v = w
        · subst hv
          exact hbegin.2
        · exact (update_of_ne hv ..).symm.trans hready
    · exact announced_of_counters rfl rfl rfl
  | task h => exact announced_of_counters rfl rfl rfl

namespace Inv

variable (hx : Inv L data x)
include hx

theorem exec_announced {i : Instr} {rest : List Instr} (hrest : x.rest t = i :: rest)
    (hexec : x.exec L data t rest i = .ok x') : Announced L x x' := by
  cases i with
  | credit s r =>
    obtain ⟨hr, _⟩ := hx.shape.fits hrest
    cases hexec
    exact announced_addReceiver (y := x.proceed t rest) hr (by omega)
  | creditAll h r =>
    obtain ⟨hr, _⟩ := hx.shape.fits hrest
    cases hexec
    exact announced_addReceiver (y := x.proceed t rest) hr Layout.size_le_nWorkers
  | acknowledge s r =>
    obtain ⟨hs, _⟩ := hx.shape.fits hrest
    cases hexec
    exact announced_addSender (y := x.proceed t rest) hs (by omega)
  | release s =>
    have hs : s < L.nWorkers := hx.shape.fits hrest
    cases hexec
    exact announced_addSender (y := x.proceed t rest) hs (Nat.sub_le _ _)
  | spawn s | collect s r | deliver s r | pick s r =>
    simp only [State.exec] at hexec
    split at hexec <;> cases hexec
    exact announced_of_counters rfl rfl rfl
  | await s r =>
    simp only [State.exec] at hexec
    split at hexec <;> cases hexec <;> exact announced_of_counters rfl rfl rfl
  | _ =>
    cases hexec
    exact announced_of_counters rfl rfl rfl

theorem step_announced (hstep : Exchange.next L data x (.step t) = .ok x') : Announced L x x' := by
  simp only [Exchange.next] at hstep
  split at hstep
  · cases hstep
    exact announced_attempt
  · next i rest hrest => exact hx.exec_announced hrest hstep

end Inv

theorem next_callback {p : Party} (hstep : next L data x (.callback p) = .ok x') :
    x' = { x with owed := x.owed.erase p, invoked := p :: x.invoked } ∨ x' = x := by
  simp only [next] at hstep
  split at hstep
  · exact .inl (Except.ok.inj hstep).symm
  · exact .inr (Except.ok.inj hstep).symm

/-- An infinite run in which every worker keeps trying what it is due to do, the tasks keep running,
and the callbacks that are owed are invoked. -/
structure FairRun (L : Layout) (data : ℕ → ℕ → ℕ → T) where
  state : ℕ → State T
  action : ℕ → Action
  start : state 0 = State.new L
  step : ∀ n, next L data (state n) (action n) = .ok (state (n + 1))
  workers : ∀ w < L.nWorkers, ∀ n, ∃ m ≥ n, action m = .step (due (state m) w)
  tasks : ∀ h ∈ L.hosts, ∀ n, ∃ m ≥ n, action m = .step (.task h)
  callbacks : ∀ n, ∀ p ∈ (state n).owed, ∃ m ≥ n, action m = .callback p

namespace FairRun

variable (run : FairRun L data) (n : ℕ)

theorem inv : Inv L data (run.state n) := by
  induction n with
  | zero =>
    rw [run.start]
    exact inv_new
  | succ n ih =>
    obtain ⟨x', hnext, hx'⟩ := ih.next (run.action n)
    rw [run.step n] at hnext
    cases hnext
    exact hx'

def core (x : State T) : State T := { x with owed := [], invoked := [] }

/-- A step adds to the work, or changes nothing but the callbacks. -/
theorem work_step :
    work L (run.state n) < work L (run.state (n + 1)) ∨
      core (run.state (n + 1)) = core (run.state n) := by
  have hstep := run.step n
  cases haction : run.action n with
  | step t =>
    rw [haction] at hstep
    rcases (run.inv n).step_grows hstep with ⟨_, hgrows⟩ | ⟨_, heq⟩
    · exact .inl hgrows.work_lt
    · exact .inr (congrArg core heq)
  | callback p =>
    rw [haction] at hstep
    right
    rcases next_callback hstep with heq | heq <;> rw [heq]
    rfl

theorem work_mono : work L (run.state n) ≤ work L (run.state (n + 1)) := by
  rcases run.work_step n with hlt | heq
  · exact hlt.le
  · exact (congrArg (work L) heq).ge

theorem work_grows (hpos : 0 < L.nWorkers) (n : ℕ) :
    ∃ m ≥ n, work L (run.state m) < work L (run.state (m + 1)) := by
  by_contra hnone
  push Not at hnone
  have hcore : ∀ m ≥ n, core (run.state m) = core (run.state n) := by
    intro m hm
    induction m, hm using Nat.le_induction with
    | base => rfl
    | succ m hm ih =>
      rcases run.work_step m with hlt | heq
      · exact absurd hlt (hnone m hm).not_gt
      · exact heq.trans ih
  have hgrows : ∀ m ≥ n, ∀ t, run.action m = .step t → ¬ Productive L (run.state n) t := by
    intro m hm t haction hproductive
    have hsame : Productive L (core (run.state m)) t := by
      rw [hcore m hm]
      exact hproductive
    have hstep := run.step m
    rw [haction] at hstep
    rcases (run.inv m).step_grows hstep with ⟨_, hlt⟩ | ⟨hnot, _⟩
    · exact (hnone m hm).not_gt hlt.work_lt
    · exact hnot hsame
  rcases (run.inv n).exists_productive hpos with ⟨w, hw, hproductive⟩ | ⟨h, hh, hproductive⟩
  · obtain ⟨m, hm, haction⟩ := run.workers w hw n
    apply hgrows m hm _ haction
    have hdue : due (core (run.state m)) w = due (core (run.state n)) w := by
      rw [hcore m hm]
    change Productive L (run.state n) (due (core (run.state m)) w)
    rw [hdue]
    exact hproductive
  · obtain ⟨m, hm, haction⟩ := run.tasks h hh n
    exact hgrows m hm _ haction hproductive

theorem completes (k : ℕ) : ∃ n, ∀ r < L.nWorkers, k ≤ completed (run.state n) r := by
  by_cases hpos : 0 < L.nWorkers
  · apply eventually_of_bounded run.work_mono
    · intro n _
      exact run.work_grows hpos n
    intro n hnot
    push Not at hnot
    obtain ⟨r, hr, hlt⟩ := hnot
    apply (run.inv n).work_le (n := k) hr
    unfold completed at hlt
    split at hlt <;> omega
  · exact ⟨0, fun r hr => absurd (Nat.zero_lt_of_lt hr) hpos⟩

theorem owed_until {p : Party} {n m : ℕ} (howed : p ∈ (run.state n).owed) (hm : n ≤ m)
    (hnot : ∀ l, n ≤ l → l < m → run.action l ≠ .callback p) : p ∈ (run.state m).owed := by
  induction m, hm using Nat.le_induction with
  | base => exact howed
  | succ m hm ih =>
    have hbefore := ih fun l hl hlt => hnot l hl (by omega)
    have hstep := run.step m
    cases haction : run.action m with
    | step t =>
      rw [haction] at hstep
      rcases (run.inv m).step_announced hstep with ⟨heq, _⟩ | ⟨q, _, heq, _⟩
      · rw [heq]
        exact hbefore
      · rw [heq]
        exact List.mem_cons_of_mem q hbefore
    | callback q =>
      have hne : p ≠ q := by
        rintro rfl
        exact hnot m hm (Nat.lt_succ_self m) haction
      rw [haction] at hstep
      rcases next_callback hstep with heq | heq
      · rw [heq]
        exact (List.mem_erase_of_ne hne).mpr hbefore
      · rw [heq]
        exact hbefore

/-- After a change from not ready to ready the callback is invoked. -/
theorem invokes {p : Party} {n : ℕ} (hbefore : ¬ Ready L (run.state n) p)
    (hafter : Ready L (run.state (n + 1)) p) :
    ∃ m > n, (run.state (m + 1)).invoked = p :: (run.state m).invoked := by
  classical
  have howed : p ∈ (run.state (n + 1)).owed := by
    have hstep := run.step n
    cases haction : run.action n with
    | step t =>
      rw [haction] at hstep
      rcases (run.inv n).step_announced hstep with ⟨_, hsame⟩ | ⟨q, _, heq, hother⟩
      · exact absurd (hsame p hafter) hbefore
      · by_cases hq : p = q
        · rw [heq, hq]
          exact List.mem_cons_self
        · exact absurd (hother p hq hafter) hbefore
    | callback q =>
      rw [haction] at hstep
      rcases next_callback hstep with heq | heq
      · rw [heq] at hafter
        cases p <;> exact absurd hafter hbefore
      · rw [heq] at hafter
        exact absurd hafter hbefore
  have hexists : ∃ m, n + 1 ≤ m ∧ run.action m = .callback p := run.callbacks (n + 1) p howed
  obtain ⟨hm, haction⟩ := Nat.find_spec hexists
  have hstill := run.owed_until howed hm fun l hl hlt heq => Nat.find_min hexists hlt ⟨hl, heq⟩
  refine ⟨Nat.find hexists, hm, ?_⟩
  have hstep := run.step (Nat.find hexists)
  rw [haction] at hstep
  simp only [next, if_pos hstill] at hstep
  rw [← Except.ok.inj hstep]

end FairRun

end Feldera.Exchange
