import Feldera.Exchange.Turns

/-!
An exchange does not get stuck. A worker sends when it has received in its last round, and receives
when it has sent. If no worker and no task could go on, then a receiver that is least in its number of
rounds, and among those in the number of its host, would be waiting for a value that a receiver before
it in this order holds up: a task calls the hosts in their order and waits for each call.
-/

namespace Feldera.Exchange

open Rounds Layout List

variable {T : Type*} {L : Layout} {data : ℕ → ℕ → ℕ → T} {x : State T} {t : Thread} {i : Instr}
  {rest : List Instr} {s r w h n : ℕ}

/-- What a worker does next: it completes what it has begun, sends if it has received in its last
round, and receives otherwise. -/
def due (x : State T) (w : ℕ) : Thread :=
  if x.rest (.sender w) ≠ [] then .sender w
  else if x.rest (.receiver w) ≠ [] then .receiver w
  else if x.rounds (.sender w) = x.rounds (.receiver w) then .sender w
  else .receiver w

/-- The thread is not at an attempt that fails and does not wait. -/
def Productive (L : Layout) (x : State T) (t : Thread) : Prop :=
  match x.rest t with
  | [] =>
    match t with
    | .sender w => w < L.nWorkers ∧ x.senderCounters w = L.nWorkers
    | .receiver w => w < L.nWorkers ∧ x.receiverCounters w = L.nWorkers
    | .task _ => False
  | .await s r :: _ => x.notified L (L.hostOf r) s r = true
  | _ => True

theorem productive_cons_iff (hrest : x.rest t = i :: rest) :
    Productive L x t ↔ ∀ s r, i = .await s r → x.notified L (L.hostOf r) s r = true := by
  unfold Productive
  rw [hrest]
  cases i with
  | await s r =>
    constructor
    · rintro hnotified s r heq
      cases heq
      exact hnotified
    · intro hnotified
      exact hnotified s r rfl
  | _ => simp

theorem productive_sender_iff (hrest : x.rest (.sender w) = []) :
    Productive L x (.sender w) ↔ w < L.nWorkers ∧ x.senderCounters w = L.nWorkers := by
  unfold Productive
  rw [hrest]

theorem productive_receiver_iff (hrest : x.rest (.receiver w) = []) :
    Productive L x (.receiver w) ↔ w < L.nWorkers ∧ x.receiverCounters w = L.nWorkers := by
  unfold Productive
  rw [hrest]

theorem not_productive_task (hrest : x.rest (.task h) = []) : ¬ Productive L x (.task h) := by
  unfold Productive
  rw [hrest]
  exact id

structure Stuck (L : Layout) (x : State T) : Prop where
  worker : ∀ w < L.nWorkers, ¬ Productive L x (due x w)
  task : ∀ h ∈ L.hosts, ¬ Productive L x (.task h)

namespace Inv

variable (hx : Inv L data x) (hstuck : Stuck L x)
include hx hstuck

omit hstuck in
/-- Only a task waits in the middle of its program. -/
theorem productive_of_rest (hne : x.rest t ≠ []) (ht : ∀ h, t ≠ .task h) : Productive L x t := by
  obtain ⟨i, rest, hrest⟩ := exists_cons_of_ne_nil hne
  rw [productive_cons_iff hrest]
  rintro s r rfl
  exact absurd (hx.shape.owner_eq hrest).symm (ht _)

section

variable (hw : w < L.nWorkers)
include hw

theorem sender_idle : x.rest (.sender w) = [] := by
  by_contra hne
  have hdue : due x w = .sender w := if_pos hne
  apply hstuck.worker w hw
  rw [hdue]
  exact hx.productive_of_rest hne nofun

theorem receiver_idle : x.rest (.receiver w) = [] := by
  by_contra hne
  have hdue : due x w = .receiver w := by
    unfold due
    rw [if_neg (not_not.mpr (hx.sender_idle hstuck hw)), if_pos hne]
  apply hstuck.worker w hw
  rw [hdue]
  exact hx.productive_of_rest hne nofun

theorem sender_waits (heq : x.rounds (.sender w) = x.rounds (.receiver w)) :
    x.senderCounters w ≠ L.nWorkers := by
  intro hfull
  have hidle := hx.sender_idle hstuck hw
  have hdue : due x w = .sender w := by
    unfold due
    rw [if_neg (not_not.mpr hidle), if_neg (not_not.mpr (hx.receiver_idle hstuck hw)), if_pos heq]
  apply hstuck.worker w hw
  rw [hdue, productive_sender_iff hidle]
  exact ⟨hw, hfull⟩

theorem receiver_waits (hne : x.rounds (.sender w) ≠ x.rounds (.receiver w)) :
    x.receiverCounters w ≠ L.nWorkers := by
  intro hfull
  have hidle := hx.receiver_idle hstuck hw
  have hdue : due x w = .receiver w := by
    unfold due
    rw [if_neg (not_not.mpr (hx.sender_idle hstuck hw)), if_neg (not_not.mpr hidle), if_neg hne]
  apply hstuck.worker w hw
  rw [hdue, productive_receiver_iff hidle]
  exact ⟨hw, hfull⟩

end

/-- A task that has not finished waits for a receiver that has not got the value of its round. -/
theorem task_waits (hrest : x.rest (.task h) = i :: rest) :
    ∃ s r, i = .await s r ∧ r < L.nWorkers ∧ x.rounds (.receiver r) < x.rounds (.task h) := by
  have hblocked := hstuck.task h (hx.shape.task_mem h (hx.shape.pos hrest)).1
  rw [productive_cons_iff hrest] at hblocked
  push Not at hblocked
  obtain ⟨s, r, rfl, hnot⟩ := hblocked
  obtain ⟨hs, hr, hremote⟩ := hx.shape.fits hrest
  refine ⟨s, r, rfl, hr, ?_⟩
  rw [(hx.remotePair s hs r hr hremote).notified, ne_eq, decide_eq_true_iff, not_lt] at hnot
  have hnotify := mark_of_idle (i := .notify s r) (hx.receiver_idle hstuck hr) rfl ⟨hs, hremote⟩ rfl
  have hnext := hx.shape.mark_next hrest rfl
  omega

/-- Some sender of a host has not arrived for the next round of the task. -/
theorem exists_sender (hh : h ∈ L.hosts) (hmulti : L.nWorkers ≠ L.size h) :
    ∃ s ∈ L.localWorkers h, x.rounds (.sender s) = x.rounds (.task h) := by
  by_contra hnone
  have hsent := hx.sentCounter h hmulti hh
  have hfull : arrivals L x h = L.size h := by
    rw [arrivals, ← length_localWorkers, tally_eq_length_iff]
    intro s hmem
    obtain ⟨hs, rfl⟩ := mem_localWorkers.mp hmem
    obtain ⟨r, hr, hremote⟩ := exists_remote hmulti
    have hpair := hx.remoteBounds hs hr hremote
    have harrive := mark_of_idle (i := .arrive s) (hx.sender_idle hstuck hs) rfl hmulti rfl
    have hne : x.rounds (.sender s) ≠ x.rounds (.task (L.hostOf s)) := fun heq =>
      hnone ⟨s, hmem, heq⟩
    omega
  obtain ⟨w, hw, hspawn, _⟩ := hsent.full.mpr hfull
  rw [hx.sender_idle hstuck (mem_localWorkers.mp hw).1] at hspawn
  cases hspawn

omit hstuck in
theorem receiver_le_sender (hw : w < L.nWorkers) :
    x.rounds (.receiver w) ≤ x.rounds (.sender w) := by
  have hpair := hx.localPair w hw w hw rfl
  have horder := hx.shape.localOrder hw hw rfl
  exact hpair.receiver_le.trans (horder.credit_le.trans horder.write_le)

theorem sender_not_least (hleast : ∀ v < L.nWorkers, n ≤ x.rounds (.receiver v))
    (hw : w < L.nWorkers) : x.rounds (.sender w) ≠ n := by
  intro hsender
  have hle := hleast w hw
  have hge := hx.receiver_le_sender hw
  apply hx.sender_waits hstuck hw (by omega)
  rw [hx.senderCounter w hw, tally_eq_length_iff.mpr, length_range]
  intro r hmem
  have hr := mem_range.mp hmem
  have hreceiver := hleast r hr
  by_cases hlocal : L.hostOf w = L.hostOf r
  · have hpair := (hx.localPair w hw r hr hlocal).bounds (hx.shape.localOrder hw hr hlocal)
    have hmark := mark_of_idle (i := .acknowledge w r) (hx.receiver_idle hstuck hr) rfl ⟨hw, hlocal⟩
      rfl
    rw [freed_of_local hlocal]
    omega
  · have hpair := hx.remoteBounds hw hr hlocal
    have hmulti := nWorkers_ne_size hr hlocal
    rw [freed_of_remote hlocal]
    by_contra hne
    cases hrest : x.rest (.task (L.hostOf w)) with
    | nil =>
      have hmark := mark_of_idle (L := L) (i := .release w) hrest rfl hw rfl
      obtain ⟨s, hs, heq⟩ := hx.exists_sender hstuck (hostOf_mem_hosts hw) hmulti
      have hs' := (mem_localWorkers.mp hs).1
      have hbehind := hleast s hs'
      omega
    | cons i rest =>
      obtain ⟨s, r', _, hr', hlt⟩ := hx.task_waits hstuck hrest
      have hbehind := hleast r' hr'
      omega

/-- A receiver that is least, and on the first host among the least, cannot wait. -/
theorem credited_of_least (hleast : ∀ v < L.nWorkers, x.rounds (.receiver w) ≤ x.rounds (.receiver v))
    (hfirst : ∀ v < L.nWorkers, x.rounds (.receiver v) = x.rounds (.receiver w) →
      L.hostOf w ≤ L.hostOf v)
    (hw : w < L.nWorkers) (hs : s < L.nWorkers) :
    credited L x s w = x.rounds (.receiver w) + 1 := by
  have hsenders : ∀ v < L.nWorkers, x.rounds (.receiver w) < x.rounds (.sender v) := by
    intro v hv
    have hne := hx.sender_not_least hstuck hleast hv
    have hle := hleast v hv
    have hsend := hx.receiver_le_sender hv
    omega
  by_cases hlocal : L.hostOf s = L.hostOf w
  · have hpair := (hx.localPair s hs w hw hlocal).bounds (hx.shape.localOrder hs hw hlocal)
    have hmark := mark_of_idle (i := .credit s w) (hx.sender_idle hstuck hs) rfl ⟨hw, hlocal⟩ rfl
    have hlt := hsenders s hs
    rw [credited_of_local hlocal]
    omega
  · have hpair := hx.remoteBounds hs hw hlocal
    have hmulti := nWorkers_ne_size hw hlocal
    rw [credited_of_remote hlocal]
    by_contra hne
    have hcounted : L.Counted (.creditAll (L.hostOf s) w) :=
      counted_of_fits ⟨hw, hlocal⟩ rfl
    obtain ⟨s', hs', heq⟩ := hx.exists_sender hstuck (hostOf_mem_hosts hs) hmulti
    have hlt := hsenders s' (mem_localWorkers.mp hs').1
    have hleft : .creditAll (L.hostOf s) w ∈ x.rest (.task (L.hostOf s)) := by
      by_contra hdone
      have hmark : mark L x (.creditAll (L.hostOf s) w) = x.rounds (.task (L.hostOf s)) := by
        rw [mark_of_counted hcounted]
        exact level_of_not_mem hdone
      omega
    -- the task waits for a receiver of a host that it calls before the host of `w`
    obtain ⟨i, rest, hrest⟩ := exists_cons_of_ne_nil (ne_nil_of_mem hleft)
    obtain ⟨a, r, rfl, hr, hbehind⟩ := hx.task_waits hstuck hrest
    have hsame : x.rounds (.receiver r) = x.rounds (.receiver w) := by
      have hle := hleast r hr
      omega
    have hhost := hfirst r hr hsame
    rw [hrest] at hleft
    rcases mem_cons.mp hleft with heq | hleft
    · cases heq
    · have hnot := fun hlt => hx.shape.not_mem_rest hrest (j := .creditAll (L.hostOf s) w) hlt hleft
      have hkey := not_not.mp hnot
      simp only [Layout.key, cons_lt_cons_iff] at hkey
      omega

omit hstuck in
theorem not_stuck (hpos : 0 < L.nWorkers) : ¬ Stuck L x := by
  intro hstuck
  obtain ⟨w, hw, hmin⟩ := Finset.exists_min_image (Finset.range L.nWorkers)
    (fun v => toLex (x.rounds (.receiver v), L.hostOf v)) ⟨0, Finset.mem_range.mpr hpos⟩
  rw [Finset.mem_range] at hw
  have hleast : ∀ v < L.nWorkers, x.rounds (.receiver w) ≤ x.rounds (.receiver v) := by
    intro v hv
    rcases Prod.Lex.le_iff.mp (hmin v (Finset.mem_range.mpr hv)) with hlt | ⟨heq, _⟩
    · exact hlt.le
    · exact heq.le
  have hfirst : ∀ v < L.nWorkers, x.rounds (.receiver v) = x.rounds (.receiver w) →
      L.hostOf w ≤ L.hostOf v := by
    intro v hv heq
    rcases Prod.Lex.le_iff.mp (hmin v (Finset.mem_range.mpr hv)) with hlt | ⟨_, hle⟩
    · exact absurd heq hlt.ne'
    · exact hle
  apply hx.receiver_waits hstuck hw
  · exact hx.sender_not_least hstuck hleast hw
  · rw [hx.receiverCounter w hw, tally_eq_length_iff.mpr, length_range]
    intro s hs
    exact hx.credited_of_least hstuck hleast hfirst hw (mem_range.mp hs)

omit hstuck in
/-- Some worker or some task can go on. -/
theorem exists_productive (hpos : 0 < L.nWorkers) :
    (∃ w < L.nWorkers, Productive L x (due x w)) ∨ ∃ h ∈ L.hosts, Productive L x (.task h) := by
  by_contra hnone
  rw [not_or] at hnone
  apply hx.not_stuck hpos
  constructor
  · intro w hw hproductive
    exact hnone.1 ⟨w, hw, hproductive⟩
  · intro h hh hproductive
    exact hnone.2 ⟨h, hh, hproductive⟩

end Inv

end Feldera.Exchange
