import Feldera.Exchange.RemotePair

/-!
The counters of an exchange. `sender_counters` counts the receivers that have freed the mailboxes of
the sender's last round, and `receiver_counters` the senders whose value of the receiver's next round
has arrived.
-/

namespace Feldera.Exchange

open Rounds List

variable {T : Type*} {L : Layout} {x x' : State T} {s r h : ℕ} {i : Instr}

def freed (L : Layout) (x : State T) (s r : ℕ) : ℕ :=
  if L.hostOf s = L.hostOf r then mark L x (.acknowledge s r) else mark L x (.release s)

def credited (L : Layout) (x : State T) (s r : ℕ) : ℕ :=
  if L.hostOf s = L.hostOf r then mark L x (.credit s r)
  else mark L x (.creditAll (L.hostOf s) r)

def SenderCounter (L : Layout) (x : State T) (s : ℕ) : Prop :=
  x.senderCounters s = tally (List.range L.nWorkers) (freed L x s) (x.rounds (.sender s))

def ReceiverCounter (L : Layout) (x : State T) (r : ℕ) : Prop :=
  x.receiverCounters r =
    tally (List.range L.nWorkers) (fun s => credited L x s r) (x.rounds (.receiver r) + 1)

theorem freed_of_local (hlocal : L.hostOf s = L.hostOf r) :
    freed L x s r = mark L x (.acknowledge s r) := if_pos hlocal

theorem freed_of_remote (hremote : L.hostOf s ≠ L.hostOf r) :
    freed L x s r = mark L x (.release s) := if_neg hremote

theorem credited_of_local (hlocal : L.hostOf s = L.hostOf r) :
    credited L x s r = mark L x (.credit s r) := if_pos hlocal

theorem credited_of_remote (hremote : L.hostOf s ≠ L.hostOf r) :
    credited L x s r = mark L x (.creditAll (L.hostOf s) r) := if_neg hremote

namespace SenderCounter

variable (hcounter : SenderCounter L x s)
include hcounter

/-- A sender whose counter is full has all its mailboxes back. -/
theorem freed_of_full (hfull : x.senderCounters s = L.nWorkers) (hr : r < L.nWorkers) :
    freed L x s r = x.rounds (.sender s) := by
  have htally := hcounter.symm.trans (hfull.trans length_range.symm)
  exact tally_eq_length_iff.mp htally r (mem_range.mpr hr)

theorem of_mark_eq (hmark : mark L x' = mark L x)
    (hrounds : x'.rounds (.sender s) = x.rounds (.sender s))
    (hsame : x'.senderCounters s = x.senderCounters s) : SenderCounter L x' s := by
  unfold SenderCounter freed
  rw [hsame, hmark, hrounds]
  exact hcounter

theorem raise (hraised : Raised L x x' i) (hacknowledge : ∀ r, .acknowledge s r ≠ i)
    (hrelease : .release s ≠ i) (hsame : x'.senderCounters s = x.senderCounters s) :
    SenderCounter L x' s := by
  unfold SenderCounter freed
  rw [hsame, hraised.rounds, hraised.other _ hrelease]
  simp only [hraised.other _ (hacknowledge _)]
  exact hcounter

theorem acknowledge (hr : r < L.nWorkers) (hraised : Raised L x x' (.acknowledge s r))
    (hlocal : L.hostOf s = L.hostOf r)
    (hnext : mark L x (.acknowledge s r) + 1 = x.rounds (.sender s))
    (hadd : x'.senderCounters s = x.senderCounters s + 1) : SenderCounter L x' s := by
  unfold SenderCounter
  rw [hadd, hraised.rounds, hcounter]
  refine (tally_succ nodup_range (mem_range.mpr hr) ?_ ?_ ?_).symm
  · rw [freed_of_local hlocal, hnext]
  · rw [freed_of_local hlocal, hraised.self, hnext]
  · intro k _ hne
    unfold freed
    rw [hraised.other (.release s) nofun, hraised.other (.acknowledge s k) (by simp [hne])]

theorem release (hraised : Raised L x x' (.release s))
    (hnext : ∀ r < L.nWorkers, L.hostOf s ≠ L.hostOf r →
      mark L x (.release s) + 1 = x.rounds (.sender s))
    (hadd : x'.senderCounters s = x.senderCounters s + (L.nWorkers - L.size (L.hostOf s))) :
    SenderCounter L x' s := by
  unfold SenderCounter
  rw [hadd, hraised.rounds, hcounter, ← Layout.countP_hostOf_ne]
  symm
  apply tally_add
  · intro k hmem hk
    have hremote : L.hostOf s ≠ L.hostOf k := fun heq => by simp [heq] at hk
    have hsender := hnext k (mem_range.mp hmem) hremote
    rw [freed_of_remote hremote, freed_of_remote hremote, hraised.self]
    exact ⟨hsender, hsender⟩
  · intro k _ hk
    have hlocal : L.hostOf s = L.hostOf k := by
      have heq : L.hostOf k = L.hostOf s := by simpa using hk
      exact heq.symm
    rw [freed_of_local hlocal, freed_of_local hlocal, hraised.other (.acknowledge s k) nofun]

omit hcounter in
theorem begin (hmark : mark L x' = mark L x)
    (hrounds : x'.rounds (.sender s) = x.rounds (.sender s) + 1)
    (hfreed : ∀ r < L.nWorkers, freed L x s r = x.rounds (.sender s))
    (hzero : x'.senderCounters s = 0) : SenderCounter L x' s := by
  unfold SenderCounter
  rw [hzero, tally_eq_zero]
  intro r hr
  have heq : freed L x' s r = freed L x s r := by
    unfold freed
    rw [hmark]
  rw [heq, hfreed r (mem_range.mp hr), hrounds]
  omega

end SenderCounter

namespace ReceiverCounter

variable (hcounter : ReceiverCounter L x r)
include hcounter

/-- A receiver whose counter is full has been told of all values of its next round. -/
theorem credited_of_full (hfull : x.receiverCounters r = L.nWorkers) (hs : s < L.nWorkers) :
    credited L x s r = x.rounds (.receiver r) + 1 := by
  have htally := hcounter.symm.trans (hfull.trans length_range.symm)
  exact tally_eq_length_iff.mp htally s (mem_range.mpr hs)

theorem of_mark_eq (hmark : mark L x' = mark L x)
    (hrounds : x'.rounds (.receiver r) = x.rounds (.receiver r))
    (hsame : x'.receiverCounters r = x.receiverCounters r) : ReceiverCounter L x' r := by
  unfold ReceiverCounter credited
  rw [hsame, hmark, hrounds]
  exact hcounter

theorem raise (hraised : Raised L x x' i) (hcredit : ∀ s, .credit s r ≠ i)
    (hcreditAll : ∀ h, .creditAll h r ≠ i)
    (hsame : x'.receiverCounters r = x.receiverCounters r) : ReceiverCounter L x' r := by
  unfold ReceiverCounter credited
  rw [hsame, hraised.rounds]
  simp only [hraised.other _ (hcredit _), hraised.other _ (hcreditAll _)]
  exact hcounter

theorem credit (hs : s < L.nWorkers) (hraised : Raised L x x' (.credit s r))
    (hlocal : L.hostOf s = L.hostOf r)
    (hnext : mark L x (.credit s r) = x.rounds (.receiver r))
    (hadd : x'.receiverCounters r = x.receiverCounters r + 1) : ReceiverCounter L x' r := by
  unfold ReceiverCounter
  rw [hadd, hraised.rounds, hcounter]
  refine (tally_succ nodup_range (mem_range.mpr hs) ?_ ?_ ?_).symm
  · rw [credited_of_local hlocal, hnext]
  · rw [credited_of_local hlocal, hraised.self, hnext]
  · intro k _ hne
    unfold credited
    rw [hraised.other (.creditAll (L.hostOf k) r) nofun,
      hraised.other (.credit k r) (by simp [hne])]

theorem creditAll (hraised : Raised L x x' (.creditAll h r)) (hremote : h ≠ L.hostOf r)
    (hnext : mark L x (.creditAll h r) = x.rounds (.receiver r))
    (hadd : x'.receiverCounters r = x.receiverCounters r + L.size h) : ReceiverCounter L x' r := by
  unfold ReceiverCounter
  rw [hadd, hraised.rounds, hcounter, ← Layout.countP_hostOf]
  symm
  apply tally_add
  · intro k _ hk
    obtain rfl : L.hostOf k = h := beq_iff_eq.mp hk
    rw [credited_of_remote hremote, credited_of_remote hremote, hraised.self, hnext]
    exact ⟨rfl, rfl⟩
  · intro k _ hk
    have hne : L.hostOf k ≠ h := beq_eq_false_iff_ne.mp hk
    unfold credited
    rw [hraised.other (.credit k r) nofun,
      hraised.other (.creditAll (L.hostOf k) r) (by simp [hne])]

omit hcounter in
theorem begin (hmark : mark L x' = mark L x)
    (hrounds : x'.rounds (.receiver r) = x.rounds (.receiver r) + 1)
    (hcredited : ∀ s < L.nWorkers, credited L x s r = x.rounds (.receiver r) + 1)
    (hzero : x'.receiverCounters r = 0) : ReceiverCounter L x' r := by
  unfold ReceiverCounter
  rw [hzero, tally_eq_zero]
  intro s hs
  have heq : credited L x' s r = credited L x s r := by
    unfold credited
    rw [hmark]
  rw [heq, hcredited s (mem_range.mp hs), hrounds]
  omega

end ReceiverCounter

end Feldera.Exchange
