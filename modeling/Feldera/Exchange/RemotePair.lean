import Feldera.Exchange.LocalPair

/-!
What holds between a sender and a receiver of two hosts. A value passes through three places: the
mailbox on the sender's host, the message, and the mailbox on the receiver's host, each of which is
filled and emptied in turns. The task that carries it is at most one round behind the sender and ahead
of the receiver.
-/

namespace Feldera.Exchange

open Rounds

variable {T : Type*} {L : Layout} {data : ℕ → ℕ → ℕ → T} {x x' : State T} {s r : ℕ}

structure RemotePair (L : Layout) (data : ℕ → ℕ → ℕ → T) (x : State T) (s r : ℕ) : Prop where
  sender_le : x.rounds (.sender s) ≤ mark L x (.release s) + 1
  task_le : x.rounds (.task (L.hostOf s)) ≤ mark L x (.arrive s)
  receiver_le : x.rounds (.receiver r) ≤ mark L x (.creditAll (L.hostOf s) r)
  await_le : mark L x (.await s r) ≤ mark L x (.notify s r)
  outgoing : x.mailbox L (L.hostOf s) s r =
    slot (fun k => data k s r) (mark L x (.write s r)) (mark L x (.collect s r))
  item : x.items s r =
    slot (fun k => data k s r) (mark L x (.collect s r)) (mark L x (.deliver s r))
  incoming : x.mailbox L (L.hostOf r) s r =
    slot (fun k => data k s r) (mark L x (.deliver s r)) (mark L x (.pick s r))
  notified : x.notified L (L.hostOf r) s r =
    decide (mark L x (.await s r) < mark L x (.notify s r))

def Signals (L : Layout) (x : State T) (s r : ℕ) : Prop :=
  mark L x (.await s r) ≤ mark L x (.notify s r) ∧
    x.notified L (L.hostOf r) s r = decide (mark L x (.await s r) < mark L x (.notify s r))

abbrev RemoteBounds (L : Layout) (x : State T) (s r : ℕ) : Prop :=
  (x.rounds (.sender s) ≤ mark L x (.release s) + 1 ∧
    x.rounds (.task (L.hostOf s)) ≤ mark L x (.arrive s) ∧
    x.rounds (.receiver r) ≤ mark L x (.creditAll (L.hostOf s) r) ∧
    mark L x (.await s r) ≤ mark L x (.notify s r)) ∧
  mark L x (.arrive s) ≤ mark L x (.write s r) ∧
  mark L x (.write s r) ≤ x.rounds (.sender s) ∧
  x.rounds (.sender s) ≤ mark L x (.arrive s) + 1 ∧
  mark L x (.release s) ≤ mark L x (.await s r) ∧
  mark L x (.await s r) ≤ mark L x (.creditAll (L.hostOf s) r) ∧
  mark L x (.creditAll (L.hostOf s) r) ≤ mark L x (.deliver s r) ∧
  mark L x (.deliver s r) ≤ mark L x (.collect s r) ∧
  mark L x (.collect s r) ≤ x.rounds (.task (L.hostOf s)) ∧
  x.rounds (.task (L.hostOf s)) ≤ mark L x (.release s) + 1 ∧
  mark L x (.notify s r) ≤ mark L x (.pick s r) ∧
  mark L x (.pick s r) ≤ x.rounds (.receiver r) ∧
  x.rounds (.receiver r) ≤ mark L x (.notify s r) + 1

namespace RemotePair

variable (hpair : RemotePair L data x s r)
include hpair

theorem bounds (horder : RemoteOrder L x s r) : RemoteBounds L x s r :=
  ⟨⟨hpair.sender_le, hpair.task_le, hpair.receiver_le, hpair.await_le⟩,
    (remoteOrder_iff ..).mp horder⟩

theorem of_mark_eq (hmark : mark L x' = mark L x)
    (hsender : x'.rounds (.sender s) ≤ mark L x (.release s) + 1)
    (htask : x'.rounds (.task (L.hostOf s)) ≤ mark L x (.arrive s))
    (hreceiver : x'.rounds (.receiver r) ≤ mark L x (.creditAll (L.hostOf s) r))
    (hboxes : x'.mailboxes = x.mailboxes) (hitems : x'.items = x.items)
    (hnotifies : x'.senderNotifies = x.senderNotifies) : RemotePair L data x' s r := by
  constructor
  · rwa [hmark]
  · rwa [hmark]
  · rwa [hmark]
  · rw [hmark]
    exact hpair.await_le
  · rw [hmark, State.mailbox, hboxes]
    exact hpair.outgoing
  · rw [hmark, hitems]
    exact hpair.item
  · rw [hmark, State.mailbox, hboxes]
    exact hpair.incoming
  · rw [hmark, State.notified, hnotifies]
    exact hpair.notified

/-- A step that touches some of the places: the others are as before. -/
theorem raise_of {i : Instr} (hraised : Raised L x x' i)
    (houtgoing : x'.mailbox L (L.hostOf s) s r =
      slot (fun k => data k s r) (mark L x' (.write s r)) (mark L x' (.collect s r)))
    (hitem : x'.items s r =
      slot (fun k => data k s r) (mark L x' (.collect s r)) (mark L x' (.deliver s r)))
    (hincoming : x'.mailbox L (L.hostOf r) s r =
      slot (fun k => data k s r) (mark L x' (.deliver s r)) (mark L x' (.pick s r)))
    (hsignal : Signals L x' s r) : RemotePair L data x' s r := by
  refine ⟨?_, ?_, ?_, hsignal.1, houtgoing, hitem, hincoming, hsignal.2⟩
  · rw [hraised.rounds]
    exact hpair.sender_le.trans (Nat.succ_le_succ hraised.mono)
  · rw [hraised.rounds]
    exact hpair.task_le.trans hraised.mono
  · rw [hraised.rounds]
    exact hpair.receiver_le.trans hraised.mono

section

variable {i : Instr} (hraised : Raised L x x' i)
include hraised

theorem keeps_signal (hawait : .await s r ≠ i) (hnotify : .notify s r ≠ i)
    (hnotified : x'.notified L (L.hostOf r) s r = x.notified L (L.hostOf r) s r) :
    Signals L x' s r := by
  rw [Signals, hnotified, hraised.other _ hawait, hraised.other _ hnotify]
  exact ⟨hpair.await_le, hpair.notified⟩

theorem raise (htouches : i.touches ≠ some (s, r))
    (houtgoing : x'.mailbox L (L.hostOf s) s r = x.mailbox L (L.hostOf s) s r)
    (hitem : x'.items s r = x.items s r)
    (hincoming : x'.mailbox L (L.hostOf r) s r = x.mailbox L (L.hostOf r) s r)
    (hnotified : x'.notified L (L.hostOf r) s r = x.notified L (L.hostOf r) s r) :
    RemotePair L data x' s r := by
  have hne : ∀ j : Instr, j.touches = some (s, r) → j ≠ i := by
    rintro j hj rfl
    exact htouches hj
  apply hpair.raise_of hraised
  · exact hraised.keeps (hne _ rfl) (hne _ rfl) hpair.outgoing houtgoing
  · exact hraised.keeps (hne _ rfl) (hne _ rfl) hpair.item hitem
  · exact hraised.keeps (hne _ rfl) (hne _ rfl) hpair.incoming hincoming
  · exact hpair.keeps_signal hraised (hne _ rfl) (hne _ rfl) hnotified

theorem signal (hmoves : ∀ j ∈ [Instr.write s r, .collect s r, .deliver s r, .pick s r], j ≠ i)
    (hboxes : x'.mailboxes = x.mailboxes) (hitems : x'.items = x.items)
    (hsignal : Signals L x' s r) : RemotePair L data x' s r := by
  have hbox : ∀ h, x'.mailbox L h s r = x.mailbox L h s r := by
    intro h
    rw [State.mailbox, hboxes]
    rfl
  apply hpair.raise_of hraised
  · exact hraised.keeps (hmoves _ (by simp)) (hmoves _ (by simp)) hpair.outgoing (hbox _)
  · exact hraised.keeps (hmoves _ (by simp)) (hmoves _ (by simp)) hpair.item (by rw [hitems])
  · exact hraised.keeps (hmoves _ (by simp)) (hmoves _ (by simp)) hpair.incoming (hbox _)
  · exact hsignal

end

variable (horder : RemoteOrder L x s r)
include horder

theorem empty_of_write (hnext : mark L x (.write s r) + 1 = x.rounds (.sender s)) :
    x.mailbox L (L.hostOf s) s r = none := by
  have hbounds := hpair.bounds horder
  rw [hpair.outgoing, slot_empty (by omega)]

/-- The task finds what the sender has written in its round. -/
theorem full_of_collect (hnext : mark L x (.collect s r) + 1 = x.rounds (.task (L.hostOf s))) :
    x.mailbox L (L.hostOf s) s r = some (data (mark L x (.collect s r)) s r) := by
  have hbounds := hpair.bounds horder
  rw [hpair.outgoing, slot_full (by omega)]

/-- The assertion of `deliver` holds. -/
theorem empty_of_deliver (hnext : mark L x (.deliver s r) + 1 = x.rounds (.task (L.hostOf s))) :
    x.mailbox L (L.hostOf r) s r = none := by
  have hbounds := hpair.bounds horder
  rw [hpair.incoming, slot_empty (by omega)]

theorem full_of_pick (hnext : mark L x (.pick s r) + 1 = x.rounds (.receiver r)) :
    x.mailbox L (L.hostOf r) s r = some (data (x.rounds (.receiver r) - 1) s r) := by
  have hbounds := hpair.bounds horder
  rw [hpair.incoming, slot_full (by omega), ← hnext, Nat.add_sub_cancel]

end RemotePair

end Feldera.Exchange
