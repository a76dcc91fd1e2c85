import Feldera.Exchange.Invariant

/-!
The steps of an exchange that touch the places of a pair or add to the counter of a sender or a
receiver: they succeed and keep the invariant. An instruction tells which thread executes it and what
workers and hosts it is about.
-/

namespace Feldera.Exchange

open Rounds Function

variable {T : Type*} {L : Layout} {data : ℕ → ℕ → ℕ → T} {x : State T} {t : Thread}
  {rest : List Instr} {s r h : ℕ}

namespace Shape

variable (hx : Shape L x)
include hx

variable {i : Instr}

theorem sender_next (hrest : x.rest t = i :: rest) (howner : L.owner i = .sender s) :
    t = .sender s ∧ s < L.nWorkers := by
  obtain rfl := (hx.owner_eq hrest).symm.trans howner
  exact ⟨rfl, hx.sender_lt s (hx.pos hrest)⟩

theorem receiver_next (hrest : x.rest t = i :: rest) (howner : L.owner i = .receiver r) :
    t = .receiver r ∧ r < L.nWorkers := by
  obtain rfl := (hx.owner_eq hrest).symm.trans howner
  exact ⟨rfl, hx.receiver_lt r (hx.pos hrest)⟩

end Shape

abbrev Executes (L : Layout) (data : ℕ → ℕ → ℕ → T) (x : State T) (t : Thread) (i : Instr)
    (rest : List Instr) : Prop :=
  x.rest t = i :: rest → ∃ x', x.exec L data t rest i = .ok x' ∧ Inv L data x'

namespace Inv

open State

variable (hx : Inv L data x)
include hx

theorem exec_write : Executes L data x t (.write s r) rest := by
  intro hrest
  obtain ⟨rfl, hs⟩ := hx.shape.sender_next hrest rfl
  have hr : r < L.nWorkers := hx.shape.fits hrest
  have hnext := hx.shape.mark_next hrest rfl
  refine ⟨_, rfl, hx.place hrest rfl rfl (SameElsewhere.proceed.setMailbox hr) ?_ ?_ ?_⟩
  · intro hlocal hraised
    exact (hx.localPair s hs r hr hlocal).write (hx.shape.localOrder hs hr hlocal) hraised hnext
      mailbox_setMailbox_self
  · intro hremote hraised
    have hpair := hx.remotePair s hs r hr hremote
    have hbounds := hx.remoteBounds hs hr hremote
    refine hpair.raise_of hraised (hraised.fills nofun (by omega) ?_)
      (hraised.keeps nofun nofun hpair.item rfl) (hraised.keeps nofun nofun hpair.incoming ?_)
      (hpair.keeps_signal hraised nofun nofun rfl)
    · rw [mailbox_setMailbox_self, ← hnext, Nat.add_sub_cancel]
    · exact mailbox_setMailbox_of_ne hr hr fun heq => hremote heq.1.symm
  · exact hx.received_proceed hrest rfl rfl nofun rfl

theorem exec_collect : Executes L data x t (.collect s r) rest := by
  intro hrest
  obtain rfl : .task (L.hostOf s) = t := hx.shape.owner_eq hrest
  obtain ⟨hs, hr, hremote⟩ := hx.shape.fits hrest
  have hnext := hx.shape.mark_next hrest rfl
  have hpair := hx.remotePair s hs r hr hremote
  have horder := hx.shape.remoteOrder hs hr hremote
  have hbounds := hpair.bounds horder
  simp only [exec, hpair.full_of_collect horder hnext]
  refine ⟨_, rfl, hx.placeRemote hrest rfl rfl (SameElsewhere.proceed.setMailbox hr).setItem
    (by simp) rfl hremote fun hraised => ?_⟩
  refine hpair.raise_of hraised (hraised.empties (by simp) (by omega) mailbox_setMailbox_self)
    (hraised.fills (by simp) (by omega) items_setItem_self)
    (hraised.keeps (by simp) (by simp) hpair.incoming ?_)
    (hpair.keeps_signal hraised (by simp) (by simp) rfl)
  exact mailbox_setMailbox_of_ne hr hr fun heq => hremote heq.1.symm

theorem exec_deliver : Executes L data x t (.deliver s r) rest := by
  intro hrest
  obtain rfl : .task (L.hostOf s) = t := hx.shape.owner_eq hrest
  obtain ⟨hs, hr, hremote⟩ := hx.shape.fits hrest
  have hnext := hx.shape.mark_next hrest rfl
  have hpair := hx.remotePair s hs r hr hremote
  have horder := hx.shape.remoteOrder hs hr hremote
  have hbounds := hpair.bounds horder
  have hdone : mark L x (.collect s r) = x.rounds (.task (L.hostOf s)) := by
    refine hx.shape.mark_done hrest (Layout.counted_of_fits ⟨hs, hr, hremote⟩ rfl) rfl ?_
    simp [Layout.key, List.cons_lt_cons_iff]
  simp only [exec, hpair.empty_of_deliver horder hnext]
  refine ⟨_, rfl, hx.placeRemote hrest rfl rfl (SameElsewhere.proceed.setMailbox hr).setItem
    (by simp) rfl hremote fun hraised => ?_⟩
  refine hpair.raise_of hraised (hraised.keeps (by simp) (by simp) hpair.outgoing ?_)
    (hraised.empties (by simp) (by omega) items_setItem_self)
    (hraised.fills (by simp) (by omega) ?_) (hpair.keeps_signal hraised (by simp) (by simp) rfl)
  · exact mailbox_setMailbox_of_ne hr hr fun heq => hremote heq.1
  · refine mailbox_setMailbox_self.trans ?_
    rw [hpair.item, slot_full (by omega)]

/-- The mailbox holds what was sent in the round that is being received. -/
theorem full_of_pick (hs : s < L.nWorkers) (hr : r < L.nWorkers)
    (hnext : mark L x (.pick s r) + 1 = x.rounds (.receiver r)) :
    x.mailbox L (L.hostOf r) s r = some (data (x.rounds (.receiver r) - 1) s r) := by
  by_cases hlocal : L.hostOf s = L.hostOf r
  · rw [← hlocal]
    exact (hx.localPair s hs r hr hlocal).full_of_pick (hx.shape.localOrder hs hr hlocal) hnext
  · exact (hx.remotePair s hs r hr hlocal).full_of_pick (hx.shape.remoteOrder hs hr hlocal) hnext

theorem exec_pick : Executes L data x t (.pick s r) rest := by
  intro hrest
  obtain ⟨rfl, hr⟩ := hx.shape.receiver_next hrest rfl
  have hs : s < L.nWorkers := hx.shape.fits hrest
  have hfull := hx.full_of_pick hs hr (hx.shape.mark_next hrest rfl)
  simp only [exec, hfull]
  refine ⟨_, rfl, hx.place hrest rfl rfl (SameElsewhere.proceed.setMailbox hr).receive ?_ ?_ ?_⟩
  · intro hlocal hraised
    refine (hx.localPair s hs r hr hlocal).pick (hx.shape.localOrder hs hr hlocal) hraised ?_
    rw [hlocal]
    exact mailbox_setMailbox_self
  · intro hremote hraised
    have hpair := hx.remotePair s hs r hr hremote
    have hbounds := hx.remoteBounds hs hr hremote
    refine hpair.raise_of hraised (hraised.keeps (by simp) (by simp) hpair.outgoing ?_)
      (hraised.keeps (by simp) (by simp) hpair.item rfl)
      (hraised.empties (by simp) (by omega) mailbox_setMailbox_self)
      (hpair.keeps_signal hraised (by simp) (by simp) rfl)
    exact mailbox_setMailbox_of_ne hr hr fun heq => hremote heq.1
  · intro r' hr'
    by_cases heq : r' = r
    · subst heq
      refine (hx.received r' hr').pick hrest (hx.shape.pos hrest) rfl ?_ ?_
      · exact update_self ..
      · exact update_self ..
    · refine (hx.received r' hr').of_eq rfl ?_ ?_
      · intro k
        exact congrArg _ (update_of_ne (by simp [heq]) ..)
      · exact update_of_ne heq ..

theorem exec_await : Executes L data x t (.await s r) rest := by
  intro hrest
  obtain rfl : .task (L.hostOf s) = t := hx.shape.owner_eq hrest
  obtain ⟨hs, hr, hremote⟩ := hx.shape.fits hrest
  by_cases htrue : x.notified L (L.hostOf r) s r = true
  · simp only [exec, if_pos htrue]
    refine ⟨_, rfl, hx.placeRemote hrest rfl rfl (SameElsewhere.proceed.setNotified hs hr hremote)
      (by simp) rfl hremote fun hraised => ?_⟩
    have hpair := hx.remotePair s hs r hr hremote
    have hlt := of_decide_eq_true (hpair.notified.symm.trans htrue)
    have hbounds := hx.remoteBounds hs hr hremote
    apply hpair.signal hraised (by simp) rfl rfl
    rw [Signals, notified_setNotified_self, hraised.self, hraised.other (.notify s r) (by simp)]
    exact ⟨hlt, (decide_eq_false (by omega)).symm⟩
  · simp only [exec, if_neg htrue]
    exact ⟨x, rfl, hx⟩

theorem exec_notify : Executes L data x t (.notify s r) rest := by
  intro hrest
  obtain ⟨rfl, hr⟩ := hx.shape.receiver_next hrest rfl
  obtain ⟨hs, hremote⟩ := hx.shape.fits hrest
  refine ⟨_, rfl, hx.placeRemote hrest rfl rfl (SameElsewhere.proceed.setNotified hs hr hremote)
    (by simp) rfl hremote fun hraised => ?_⟩
  have hpair := hx.remotePair s hs r hr hremote
  have hle := hpair.await_le
  apply hpair.signal hraised (by simp) rfl rfl
  rw [Signals, notified_setNotified_self, hraised.self, hraised.other (.await s r) (by simp)]
  exact ⟨by omega, (decide_eq_true (by omega)).symm⟩

theorem exec_credit : Executes L data x t (.credit s r) rest := by
  intro hrest
  obtain ⟨rfl, hs⟩ := hx.shape.sender_next hrest rfl
  obtain ⟨hr, hlocal⟩ := hx.shape.fits hrest
  have hbounds := (hx.localPair s hs r hr hlocal).bounds (hx.shape.localOrder hs hr hlocal)
  have hnext := hx.shape.mark_next hrest rfl
  refine ⟨_, rfl, hx.add hrest rfl rfl rfl rfl rfl nofun rfl rfl rfl rfl ?_ ?_⟩
  · intro hraised s' hs'
    exact (hx.senderCounter s' hs').raise hraised nofun nofun rfl
  intro hraised r' hr'
  by_cases heq : r' = r
  · subst heq
    exact (hx.receiverCounter r' hr').credit hs hraised hlocal (by omega) (update_self ..)
  · refine (hx.receiverCounter r' hr').raise hraised ?_ nofun (update_of_ne heq ..)
    simp [heq]

theorem exec_creditAll : Executes L data x t (.creditAll h r) rest := by
  intro hrest
  obtain rfl : .task h = t := hx.shape.owner_eq hrest
  obtain ⟨hr, hremote⟩ := hx.shape.fits hrest
  obtain ⟨s, hmem⟩ := Layout.exists_localWorker (hx.shape.task_mem h (hx.shape.pos hrest)).1
  obtain ⟨hs, rfl⟩ := Layout.mem_localWorkers.mp hmem
  have hbounds := hx.remoteBounds hs hr hremote
  have hnext := hx.shape.mark_next hrest rfl
  refine ⟨_, rfl, hx.add hrest rfl rfl rfl rfl rfl nofun rfl rfl rfl rfl ?_ ?_⟩
  · intro hraised s' hs'
    exact (hx.senderCounter s' hs').raise hraised nofun nofun rfl
  intro hraised r' hr'
  by_cases heq : r' = r
  · subst heq
    exact (hx.receiverCounter r' hr').creditAll hraised hremote (by omega) (update_self ..)
  · refine (hx.receiverCounter r' hr').raise hraised nofun ?_ (update_of_ne heq ..)
    simp [heq]

theorem exec_acknowledge : Executes L data x t (.acknowledge s r) rest := by
  intro hrest
  obtain ⟨rfl, hr⟩ := hx.shape.receiver_next hrest rfl
  obtain ⟨hs, hlocal⟩ := hx.shape.fits hrest
  have hbounds := (hx.localPair s hs r hr hlocal).bounds (hx.shape.localOrder hs hr hlocal)
  have hnext := hx.shape.mark_next hrest rfl
  refine ⟨_, rfl, hx.add hrest rfl rfl rfl rfl rfl nofun rfl rfl rfl rfl ?_ ?_⟩
  · intro hraised s' hs'
    by_cases heq : s' = s
    · subst heq
      exact (hx.senderCounter s' hs').acknowledge hr hraised hlocal (by omega) (update_self ..)
    · refine (hx.senderCounter s' hs').raise hraised ?_ nofun (update_of_ne heq ..)
      simp [heq]
  · intro hraised r' hr'
    exact (hx.receiverCounter r' hr').raise hraised nofun nofun rfl

theorem exec_release : Executes L data x t (.release s) rest := by
  intro hrest
  obtain rfl : .task (L.hostOf s) = t := hx.shape.owner_eq hrest
  have hs : s < L.nWorkers := hx.shape.fits hrest
  have hnext : ∀ r < L.nWorkers, L.hostOf s ≠ L.hostOf r →
      mark L x (.release s) + 1 = x.rounds (.sender s) := by
    intro r hr hremote
    have hbounds := hx.remoteBounds hs hr hremote
    have hnext := hx.shape.mark_next hrest rfl
    omega
  refine ⟨_, rfl, hx.add hrest rfl rfl rfl rfl rfl nofun rfl rfl rfl rfl ?_ ?_⟩
  · intro hraised s' hs'
    by_cases heq : s' = s
    · subst heq
      exact (hx.senderCounter s' hs').release hraised hnext (update_self ..)
    · refine (hx.senderCounter s' hs').raise hraised nofun ?_ (update_of_ne heq ..)
      simp [heq]
  · intro hraised r' hr'
    exact (hx.receiverCounter r' hr').raise hraised nofun nofun rfl

end Inv

end Feldera.Exchange
