import Feldera.Exchange.Progress

/-!
The places of an exchange and what holds between a sender and a receiver of one host. The rounds of
each are bounded by what the other one has done, and their mailbox is filled and emptied in turns. A
step that does not touch the mailbox keeps this, as marks only grow.
-/

namespace Feldera.Exchange

open Rounds Function

variable {T : Type*} {L : Layout} {data : ℕ → ℕ → ℕ → T} {x x' : State T} {s r s' r' h h' : ℕ}

section

namespace Layout

theorem mailboxIndex_inj (hr : r < L.nWorkers) (hr' : r' < L.nWorkers)
    (heq : L.mailboxIndex s r = L.mailboxIndex s' r') : s = s' ∧ r = r' := by
  unfold mailboxIndex at heq
  have hpos : 0 < L.nWorkers := by omega
  have hdiv : ∀ a b, b < L.nWorkers → (a * L.nWorkers + b) / L.nWorkers = a := by
    intro a b hb
    rw [Nat.mul_comm, Nat.mul_add_div hpos, Nat.div_eq_of_lt hb, Nat.add_zero]
  have hs : s = s' := by
    rw [← hdiv s r hr, heq, hdiv s' r' hr']
  subst hs
  exact ⟨rfl, by omega⟩

theorem senderNotify_inj (hs : L.hostOf s ≠ h) (hs' : L.hostOf s' ≠ h) (hsN : s < L.nWorkers)
    (hsN' : s' < L.nWorkers) (hr : r ∈ L.localWorkers h) (hr' : r' ∈ L.localWorkers h)
    (heq : L.senderNotify h s r = L.senderNotify h s' r') : s = s' ∧ r = r' := by
  have hrange := List.mem_range'_1.mp hr
  have hrange' := List.mem_range'_1.mp hr'
  have hout : ∀ w, w < L.nWorkers → L.hostOf w ≠ h → w < L.start h ∨ L.start h + L.size h ≤ w := by
    intro w hw hne
    by_contra hin
    apply hne
    apply (mem_localWorkers.mp _).2
    rw [localWorkers, List.mem_range'_1]
    omega
  have hdiv : ∀ a b, b < L.size h → (a * L.size h + b) / L.size h = a := by
    intro a b hb
    rw [Nat.mul_comm, Nat.mul_add_div (by omega), Nat.div_eq_of_lt hb, Nat.add_zero]
  simp only [senderNotify] at heq
  have hofs : (if L.start h ≤ s then s - L.size h else s) =
      if L.start h ≤ s' then s' - L.size h else s' := by
    rw [← hdiv (if L.start h ≤ s then s - L.size h else s) (r - L.start h) (by omega), heq,
      hdiv _ _ (by omega)]
  rw [hofs] at heq
  have hcases := hout s hsN hs
  have hcases' := hout s' hsN' hs'
  refine ⟨?_, by omega⟩
  split at hofs <;> split at hofs <;> omega

end Layout

namespace State

variable {v : Option T}

@[simp] theorem mailbox_setMailbox_self : (x.setMailbox L h s r v).mailbox L h s r = v := by
  simp [setMailbox, mailbox]

theorem mailbox_setMailbox_of_ne (hr : r < L.nWorkers) (hr' : r' < L.nWorkers)
    (hne : ¬ (h' = h ∧ s' = s ∧ r' = r)) :
    (x.setMailbox L h s r v).mailbox L h' s' r' = x.mailbox L h' s' r' := by
  unfold setMailbox mailbox
  by_cases hh : h' = h
  · subst hh
    have hindex : L.mailboxIndex s' r' ≠ L.mailboxIndex s r := by
      intro heq
      exact hne ⟨rfl, Layout.mailboxIndex_inj hr' hr heq⟩
    simp only [update_self, update_of_ne hindex]
  · simp only [update_of_ne hh]

@[simp] theorem notified_setNotified_self {v : Bool} :
    (x.setNotified L h s r v).notified L h s r = v := by
  simp [setNotified, notified]

theorem notified_setNotified_of_ne {v : Bool} (hs : s < L.nWorkers) (hs' : s' < L.nWorkers)
    (hr : r < L.nWorkers) (hr' : r' < L.nWorkers) (hremote : L.hostOf s ≠ L.hostOf r)
    (hremote' : L.hostOf s' ≠ L.hostOf r') (hne : ¬ (s' = s ∧ r' = r)) :
    (x.setNotified L (L.hostOf r) s r v).notified L (L.hostOf r') s' r' =
      x.notified L (L.hostOf r') s' r' := by
  unfold setNotified notified
  by_cases hh : L.hostOf r' = L.hostOf r
  · rw [hh] at hremote' ⊢
    have hmem : r' ∈ L.localWorkers (L.hostOf r) := Layout.mem_localWorkers.mpr ⟨hr', hh⟩
    have hindex : L.senderNotify (L.hostOf r) s' r' ≠ L.senderNotify (L.hostOf r) s r := by
      intro heq
      exact hne (Layout.senderNotify_inj hremote' hremote hs' hs hmem
        (Layout.mem_localWorkers_hostOf hr) heq)
    simp only [update_self, update_of_ne hindex]
  · simp only [update_of_ne hh]

theorem items_setItem_self : (x.setItem s r v).items s r = v := by
  simp [setItem]

theorem items_setItem_of_ne (hne : ¬ (s' = s ∧ r' = r)) :
    (x.setItem s r v).items s' r' = x.items s' r' := by
  unfold setItem
  by_cases hs : s' = s
  · subst hs
    have hr : r' ≠ r := fun hr => hne ⟨rfl, hr⟩
    simp only [update_self, update_of_ne hr]
  · simp only [update_of_ne hs]

end State

end

def Instr.touches : Instr → Option (ℕ × ℕ)
  | .write s r | .collect s r | .deliver s r | .await s r | .pick s r | .notify s r => some (s, r)
  | _ => none

structure Raised (L : Layout) (x x' : State T) (i : Instr) : Prop where
  rounds : x'.rounds = x.rounds
  self : mark L x' i = mark L x i + 1
  other : ∀ j, j ≠ i → mark L x' j = mark L x j

theorem Raised.mono {i j : Instr} (h : Raised L x x' i) : mark L x j ≤ mark L x' j := by
  by_cases hj : j = i
  · rw [hj, h.self]
    exact Nat.le_succ _
  · rw [h.other j hj]

section

variable {value : ℕ → T} {place place' : Option T} {i j k : Instr}

theorem Raised.keeps (hraised : Raised L x x' k) (hi : i ≠ k) (hj : j ≠ k)
    (hbefore : place = slot value (mark L x i) (mark L x j)) (hsame : place' = place) :
    place' = slot value (mark L x' i) (mark L x' j) := by
  rw [hsame, hbefore, hraised.other _ hi, hraised.other _ hj]

theorem Raised.fills (hraised : Raised L x x' i) (hj : j ≠ i) (hempty : mark L x j = mark L x i)
    (hvalue : place' = some (value (mark L x i))) :
    place' = slot value (mark L x' i) (mark L x' j) := by
  rw [hvalue, hraised.self, hraised.other _ hj, slot_full (by omega), hempty]

theorem Raised.empties (hraised : Raised L x x' j) (hi : i ≠ j) (hle : mark L x i ≤ mark L x j + 1)
    (hnone : place' = none) : place' = slot value (mark L x' i) (mark L x' j) := by
  rw [hnone, hraised.self, hraised.other _ hi, slot_empty hle]

end

structure LocalPair (L : Layout) (data : ℕ → ℕ → ℕ → T) (x : State T) (s r : ℕ) : Prop where
  sender_le : x.rounds (.sender s) ≤ mark L x (.acknowledge s r) + 1
  receiver_le : x.rounds (.receiver r) ≤ mark L x (.credit s r)
  mailbox : x.mailbox L (L.hostOf s) s r =
    slot (fun k => data k s r) (mark L x (.write s r)) (mark L x (.pick s r))

namespace LocalPair

variable (hpair : LocalPair L data x s r)
include hpair

/-- The order of the marks of the pair and what the pair adds to it. -/
theorem bounds (horder : LocalOrder L x s r) :
    (x.rounds (.sender s) ≤ mark L x (.acknowledge s r) + 1 ∧
      x.rounds (.receiver r) ≤ mark L x (.credit s r)) ∧
    mark L x (.credit s r) ≤ mark L x (.write s r) ∧
    mark L x (.write s r) ≤ x.rounds (.sender s) ∧
    x.rounds (.sender s) ≤ mark L x (.credit s r) + 1 ∧
    mark L x (.acknowledge s r) ≤ mark L x (.pick s r) ∧
    mark L x (.pick s r) ≤ x.rounds (.receiver r) ∧
    x.rounds (.receiver r) ≤ mark L x (.acknowledge s r) + 1 :=
  ⟨⟨hpair.sender_le, hpair.receiver_le⟩, (localOrder_iff ..).mp horder⟩

theorem of_mark_eq (hmark : mark L x' = mark L x)
    (hsender : x'.rounds (.sender s) ≤ mark L x (.acknowledge s r) + 1)
    (hreceiver : x'.rounds (.receiver r) ≤ mark L x (.credit s r))
    (hbox : x'.mailbox L (L.hostOf s) s r = x.mailbox L (L.hostOf s) s r) :
    LocalPair L data x' s r := by
  constructor
  · rwa [hmark]
  · rwa [hmark]
  · rw [hbox, hmark]
    exact hpair.mailbox

theorem raise_of {i : Instr} (hraised : Raised L x x' i)
    (hbox : x'.mailbox L (L.hostOf s) s r =
      slot (fun k => data k s r) (mark L x' (.write s r)) (mark L x' (.pick s r))) :
    LocalPair L data x' s r := by
  refine ⟨?_, ?_, hbox⟩
  · rw [hraised.rounds]
    exact hpair.sender_le.trans (Nat.succ_le_succ hraised.mono)
  · rw [hraised.rounds]
    exact hpair.receiver_le.trans hraised.mono

theorem raise {i : Instr} (hraised : Raised L x x' i) (htouches : i.touches ≠ some (s, r))
    (hbox : x'.mailbox L (L.hostOf s) s r = x.mailbox L (L.hostOf s) s r) :
    LocalPair L data x' s r := by
  have hne : ∀ j : Instr, j.touches = some (s, r) → j ≠ i := by
    rintro j hj rfl
    exact htouches hj
  exact hpair.raise_of hraised (hraised.keeps (hne _ rfl) (hne _ rfl) hpair.mailbox hbox)

variable (horder : LocalOrder L x s r)
include horder

theorem empty_of_write (hnext : mark L x (.write s r) + 1 = x.rounds (.sender s)) :
    x.mailbox L (L.hostOf s) s r = none := by
  have hbounds := hpair.bounds horder
  rw [hpair.mailbox, slot_empty (by omega)]

theorem write (hraised : Raised L x x' (.write s r))
    (hnext : mark L x (.write s r) + 1 = x.rounds (.sender s))
    (hbox : x'.mailbox L (L.hostOf s) s r = some (data (x.rounds (.sender s) - 1) s r)) :
    LocalPair L data x' s r := by
  have hbounds := hpair.bounds horder
  rw [← hnext, Nat.add_sub_cancel] at hbox
  exact hpair.raise_of hraised (hraised.fills nofun (by omega) hbox)

/-- The value of the round is there when it is picked up. -/
theorem full_of_pick (hnext : mark L x (.pick s r) + 1 = x.rounds (.receiver r)) :
    x.mailbox L (L.hostOf s) s r = some (data (x.rounds (.receiver r) - 1) s r) := by
  have hbounds := hpair.bounds horder
  rw [hpair.mailbox, slot_full (by omega), ← hnext, Nat.add_sub_cancel]

theorem pick (hraised : Raised L x x' (.pick s r))
    (hbox : x'.mailbox L (L.hostOf s) s r = none) : LocalPair L data x' s r := by
  have hbounds := hpair.bounds horder
  exact hpair.raise_of hraised (hraised.empties nofun (by omega) hbox)

end LocalPair

end Feldera.Exchange
