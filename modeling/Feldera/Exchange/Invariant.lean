import Feldera.Exchange.Sent

/-!
The invariant of an exchange: every pair of a sender and a receiver is as it should be, the counters
count what they are meant to, and every receiver has got the values of the rounds that it has begun up
to those it has still to pick up. A step raises one mark; what it has to show is what happens to the
pair whose places it touches, or to the counter that it adds to.
-/

namespace Feldera.Exchange

open Rounds Function List

variable {T : Type*} {L : Layout} {data : ℕ → ℕ → ℕ → T} {x x' : State T} {t : Thread} {i : Instr}
  {rest : List Instr} {s r h k : ℕ}

def row (L : Layout) (data : ℕ → ℕ → ℕ → T) (k r : ℕ) : List T :=
  (List.range L.nWorkers).map fun s => data k s r

/-- What a receiver that goes on with `rest` will pick up in its round. -/
def remaining (data : ℕ → ℕ → ℕ → T) (k : ℕ) (rest : List Instr) : List T :=
  rest.filterMap fun
    | .pick s r => some (data k s r)
    | _ => none

/-- What has been received and what is still to be picked up is what was sent in the round. -/
def Received (L : Layout) (data : ℕ → ℕ → ℕ → T) (x : State T) (r : ℕ) : Prop :=
  ∀ k, x.received r k ++
      (if k + 1 = x.rounds (.receiver r) then remaining data k (x.rest (.receiver r)) else []) =
    if k < x.rounds (.receiver r) then row L data k r else []

structure Inv (L : Layout) (data : ℕ → ℕ → ℕ → T) (x : State T) : Prop where
  shape : Shape L x
  localPair : ∀ s < L.nWorkers, ∀ r < L.nWorkers, L.hostOf s = L.hostOf r → LocalPair L data x s r
  remotePair : ∀ s < L.nWorkers, ∀ r < L.nWorkers, L.hostOf s ≠ L.hostOf r → RemotePair L data x s r
  senderCounter : ∀ s < L.nWorkers, SenderCounter L x s
  receiverCounter : ∀ r < L.nWorkers, ReceiverCounter L x r
  sentCounter : ∀ h, L.nWorkers ≠ L.size h → h ∈ L.hosts → SentCounter L x h
  received : ∀ r < L.nWorkers, Received L data x r

structure SameElsewhere (L : Layout) (s r : ℕ) (x x' : State T) : Prop where
  rounds : x'.rounds = x.rounds
  senderCounters : x'.senderCounters = x.senderCounters
  receiverCounters : x'.receiverCounters = x.receiverCounters
  sent : x'.sent = x.sent
  box : ∀ s' r', r' < L.nWorkers → ¬ (s' = s ∧ r' = r) →
    ∀ h, x'.mailbox L h s' r' = x.mailbox L h s' r'
  item : ∀ s' r', ¬ (s' = s ∧ r' = r) → x'.items s' r' = x.items s' r'
  notified : ∀ s' r', s' < L.nWorkers → r' < L.nWorkers → L.hostOf s' ≠ L.hostOf r' →
    ¬ (s' = s ∧ r' = r) → x'.notified L (L.hostOf r') s' r' = x.notified L (L.hostOf r') s' r'

namespace SameElsewhere

open State

theorem proceed : SameElsewhere L s r x (x.proceed t rest) :=
  ⟨rfl, rfl, rfl, rfl, fun _ _ _ _ _ => rfl, fun _ _ _ => rfl, fun _ _ _ _ _ _ => rfl⟩

variable (hsame : SameElsewhere L s r x x')
include hsame

variable {v : Option T}

theorem setMailbox (hr : r < L.nWorkers) : SameElsewhere L s r x (x'.setMailbox L h s r v) :=
  { hsame with
    box := fun s' r' hr' hne h' =>
      (mailbox_setMailbox_of_ne hr hr' fun heq => hne heq.2).trans (hsame.box s' r' hr' hne h') }

theorem setItem : SameElsewhere L s r x (x'.setItem s r v) :=
  { hsame with item := fun s' r' hne => (items_setItem_of_ne hne).trans (hsame.item s' r' hne) }

theorem receive {v : T} : SameElsewhere L s r x (x'.receive r v) := { hsame with }

theorem setNotified {v : Bool} (hs : s < L.nWorkers) (hr : r < L.nWorkers)
    (hremote : L.hostOf s ≠ L.hostOf r) :
    SameElsewhere L s r x (x'.setNotified L (L.hostOf r) s r v) :=
  { hsame with
    notified := fun s' r' hs' hr' hremote' hne =>
      (notified_setNotified_of_ne hs hs' hr hr' hremote hremote' hne).trans
        (hsame.notified s' r' hs' hr' hremote' hne) }

end SameElsewhere

theorem remaining_receiveProgram : remaining data k (L.receiveProgram r) = row L data k r := by
  unfold remaining Layout.receiveProgram row
  rw [filterMap_flatMap]
  induction range L.nWorkers with
  | nil => rfl
  | cons s l ih =>
    rw [flatMap_cons, map_cons, ih]
    split <;> rfl

namespace Received

variable (hreceived : Received L data x r)
include hreceived

theorem of_eq (hrounds : x'.rounds (.receiver r) = x.rounds (.receiver r))
    (hrest : ∀ k, remaining data k (x'.rest (.receiver r)) = remaining data k (x.rest (.receiver r)))
    (hsame : x'.received r = x.received r) : Received L data x' r := by
  intro k
  rw [hrounds, hrest, hsame]
  exact hreceived k

theorem pick (hrest : x.rest (.receiver r) = .pick s r :: rest)
    (hpos : 0 < x.rounds (.receiver r)) (hrounds : x'.rounds (.receiver r) = x.rounds (.receiver r))
    (hrest' : x'.rest (.receiver r) = rest)
    (hadd : x'.received r = update (x.received r) (x.rounds (.receiver r) - 1)
      (x.received r (x.rounds (.receiver r) - 1) ++ [data (x.rounds (.receiver r) - 1) s r])) :
    Received L data x' r := by
  intro k
  have hbefore := hreceived k
  rw [hrest] at hbefore
  rw [hrounds, hrest', hadd]
  by_cases hk : k + 1 = x.rounds (.receiver r)
  · have heq : x.rounds (.receiver r) - 1 = k := by omega
    rw [if_pos hk] at hbefore ⊢
    rw [heq, update_self, ← hbefore, append_assoc]
    rfl
  · have hne : k ≠ x.rounds (.receiver r) - 1 := by omega
    rw [if_neg hk] at hbefore ⊢
    rw [update_of_ne hne]
    exact hbefore

theorem begin (hrest : x.rest (.receiver r) = [])
    (hrounds : x'.rounds (.receiver r) = x.rounds (.receiver r) + 1)
    (hrest' : x'.rest (.receiver r) = L.receiveProgram r) (hsame : x'.received r = x.received r) :
    Received L data x' r := by
  intro k
  have hbefore := hreceived k
  have hnil : x.received r k = if k < x.rounds (.receiver r) then row L data k r else [] := by
    rw [← hbefore, hrest, remaining, filterMap_nil, ite_self, append_nil]
  rw [hrounds, hrest', hsame, remaining_receiveProgram, hnil]
  by_cases hk : k = x.rounds (.receiver r)
  · rw [if_neg (by omega), if_pos (by omega), if_pos (by omega), nil_append]
  · rw [if_neg (by omega : ¬ k + 1 = x.rounds (.receiver r) + 1), append_nil]
    apply if_congr _ rfl rfl
    omega

end Received

theorem suffix_of_next (hrest : x.rest t = i :: rest) : rest <:+ x.rest t := by
  rw [hrest]
  exact suffix_cons i rest

namespace Shape

variable (hx : Shape L x)
include hx

variable {rest' : List Instr}

theorem proceed (hsuffix : rest' <:+ x.rest t) (hrounds : x'.rounds = x.rounds)
    (hrest' : x'.rest = update x.rest t rest') : Shape L x' := by
  constructor
  · intro u
    rw [hrest']
    by_cases hu : u = t
    · subst hu
      rw [update_self]
      exact hsuffix.trans (hx.rest u)
    · rw [update_of_ne hu]
      exact hx.rest u
  · intro u
    rw [hrest', hrounds]
    by_cases hu : u = t
    · subst hu
      rw [update_self]
      intro hne
      apply hx.started
      rintro hnil
      rw [hnil] at hsuffix
      exact hne (suffix_nil.mp hsuffix)
    · rw [update_of_ne hu]
      exact hx.started u
  · rw [hrounds]
    exact hx.sender_lt
  · rw [hrounds]
    exact hx.receiver_lt
  · rw [hrounds]
    exact hx.task_mem

theorem begin (hrounds : x'.rounds = update x.rounds t (x.rounds t + 1))
    (hrest' : x'.rest = update x.rest t (L.program t))
    (hsender : ∀ w, t = .sender w → w < L.nWorkers)
    (hreceiver : ∀ w, t = .receiver w → w < L.nWorkers)
    (htask : ∀ h, t = .task h → h ∈ L.hosts ∧ L.nWorkers ≠ L.size h) : Shape L x' := by
  have hkeeps : ∀ u, u ≠ t → 0 < x'.rounds u → 0 < x.rounds u := by
    intro u hu hpos
    rwa [hrounds, update_of_ne hu] at hpos
  constructor
  · intro u
    rw [hrest']
    by_cases hu : u = t
    · subst hu
      rw [update_self]
    · rw [update_of_ne hu]
      exact hx.rest u
  · intro u
    rw [hrest', hrounds]
    by_cases hu : u = t
    · subst hu
      rw [update_self, update_self]
      exact fun _ => Nat.succ_pos _
    · rw [update_of_ne hu, update_of_ne hu]
      exact hx.started u
  · intro w hpos
    by_cases hu : .sender w = t
    · exact hsender w hu.symm
    · exact hx.sender_lt w (hkeeps _ hu hpos)
  · intro w hpos
    by_cases hu : .receiver w = t
    · exact hreceiver w hu.symm
    · exact hx.receiver_lt w (hkeeps _ hu hpos)
  · intro w hpos
    by_cases hu : .task w = t
    · exact htask w hu.symm
    · exact hx.task_mem w (hkeeps _ hu hpos)

theorem raised (hrest : x.rest t = i :: rest) (hi : i.always = true)
    (hrounds : x'.rounds = x.rounds) (hrest' : x'.rest = update x.rest t rest')
    (hsame : ∀ j, j.always = true → (j ∈ rest' ↔ j ∈ rest)) : Raised L x x' i := by
  have hmark := hx.mark_proceed hrest hi hrounds hrest' hsame
  constructor
  · exact hrounds
  · rw [hmark, update_self]
  · intro j hj
    rw [hmark, update_of_ne hj]

end Shape

section

variable (hrest : x.rest t = i :: rest) (hrest' : x'.rest = Function.update x.rest t rest)
include hrest hrest'

theorem SentCounter.proceed (hsent : SentCounter L x h) (hraised : Raised L x x' i)
    (harrive : ∀ w, .arrive w ≠ i) (hreset : ∀ w, .reset w ≠ i) (hspawn : ∀ w, .spawn w ≠ i)
    (hsame : x'.sent h = x.sent h) : SentCounter L x' h := by
  have hmem : ∀ j, j ≠ i → ∀ u, j ∈ x'.rest u ↔ j ∈ x.rest u := by
    intro j hj u
    rw [hrest']
    by_cases hu : u = t
    · subst hu
      rw [update_self, hrest, mem_cons, or_iff_right hj]
    · rw [update_of_ne hu]
  apply hsent.of_eq _ _ hsame
  · intro w _
    unfold Spawning
    rw [hmem _ (hspawn w), hmem _ (harrive w)]
  · intro w _
    unfold Cleared
    rw [hmem _ (hspawn w), hmem _ (hreset w)]
  · intro w _
    exact hraised.other _ (harrive w)
  · rw [hraised.rounds]

theorem Received.proceed (hreceived : Received L data x r) (hrounds : x'.rounds = x.rounds)
    (hpick : ∀ s r, .pick s r ≠ i) (hsame : x'.received r = x.received r) :
    Received L data x' r := by
  apply hreceived.of_eq _ _ hsame
  · rw [hrounds]
  intro k
  rw [hrest']
  by_cases hu : .receiver r = t
  · subst hu
    rw [update_self, hrest]
    unfold remaining
    rw [filterMap_cons]
    cases i with
    | pick s r => exact absurd rfl (hpick s r)
    | _ => rfl
  · rw [update_of_ne hu]

end

namespace Inv

variable (hx : Inv L data x) (hrest : x.rest t = i :: rest)
include hx hrest

theorem received_proceed (hrest' : x'.rest = update x.rest t rest)
    (hrounds : x'.rounds = x.rounds) (hpick : ∀ s r, .pick s r ≠ i)
    (hsame : x'.received = x.received) : ∀ r < L.nWorkers, Received L data x' r := by
  intro r hr
  apply (hx.received r hr).proceed hrest hrest' hrounds hpick
  rw [hsame]

omit hrest in
theorem received_of_rest (hrest' : ∀ r, x'.rest (.receiver r) = x.rest (.receiver r))
    (hrounds : ∀ r, x'.rounds (.receiver r) = x.rounds (.receiver r))
    (hsame : x'.received = x.received) : ∀ r < L.nWorkers, Received L data x' r := by
  intro r hr
  apply (hx.received r hr).of_eq (hrounds r)
  · intro k
    rw [hrest' r]
  · rw [hsame]

section

variable (htouches : i.touches = some (s, r)) (hrest' : x'.rest = Function.update x.rest t rest)
  (hsame : SameElsewhere L s r x x')
include htouches hrest' hsame

theorem place (hlocal : L.hostOf s = L.hostOf r → Raised L x x' i → LocalPair L data x' s r)
    (hremote : L.hostOf s ≠ L.hostOf r → Raised L x x' i → RemotePair L data x' s r)
    (hreceived : ∀ r < L.nWorkers, Received L data x' r) : Inv L data x' := by
  have hi : i.always = true := by
    cases i with
    | reset s => cases htouches
    | spawn s => cases htouches
    | _ => rfl
  have hne : ∀ j : Instr, j.touches = none → j ≠ i := by
    rintro j hj rfl
    rw [htouches] at hj
    cases hj
  have hraised := hx.shape.raised hrest hi hsame.rounds hrest' fun _ _ => Iff.rfl
  have hpair : ∀ s' r', ¬ (s' = s ∧ r' = r) → i.touches ≠ some (s', r') := by
    intro s' r' hnot heq
    rw [htouches] at heq
    cases heq
    exact hnot ⟨rfl, rfl⟩
  constructor
  · exact hx.shape.proceed (suffix_of_next hrest) hsame.rounds hrest'
  · intro s' hs' r' hr' hhost
    by_cases heq : s' = s ∧ r' = r
    · obtain ⟨rfl, rfl⟩ := heq
      exact hlocal hhost hraised
    · exact (hx.localPair s' hs' r' hr' hhost).raise hraised (hpair s' r' heq)
        (hsame.box s' r' hr' heq _)
  · intro s' hs' r' hr' hother
    by_cases heq : s' = s ∧ r' = r
    · obtain ⟨rfl, rfl⟩ := heq
      exact hremote hother hraised
    · exact (hx.remotePair s' hs' r' hr' hother).raise hraised (hpair s' r' heq)
        (hsame.box s' r' hr' heq _) (hsame.item s' r' heq) (hsame.box s' r' hr' heq _)
        (hsame.notified s' r' hs' hr' hother heq)
  · intro s' hs'
    apply (hx.senderCounter s' hs').raise hraised
    · exact fun r => hne _ rfl
    · exact hne _ rfl
    · rw [hsame.senderCounters]
  · intro r' hr'
    apply (hx.receiverCounter r' hr').raise hraised
    · exact fun s => hne _ rfl
    · exact fun h => hne _ rfl
    · rw [hsame.receiverCounters]
  · intro h hmulti hh
    apply (hx.sentCounter h hmulti hh).proceed hrest hrest' hraised
    · exact fun w => hne _ rfl
    · exact fun w => hne _ rfl
    · exact fun w => hne _ rfl
    · rw [hsame.sent]
  · exact hreceived

theorem placeRemote (hpick : ∀ s r, .pick s r ≠ i) (hreceived : x'.received = x.received)
    (hremote : L.hostOf s ≠ L.hostOf r) (hpair : Raised L x x' i → RemotePair L data x' s r) :
    Inv L data x' := by
  apply hx.place hrest htouches hrest' hsame
  · intro hlocal
    exact absurd hlocal hremote
  · exact fun _ => hpair
  · exact hx.received_proceed hrest hrest' hsame.rounds hpick hreceived

end

omit hrest

section

variable (hboxes : x'.mailboxes = x.mailboxes) (hitems : x'.items = x.items)
  (hnotifies : x'.senderNotifies = x.senderNotifies)
include hboxes hitems hnotifies

section

variable (hshape : Shape L x') (hsender : ∀ s < L.nWorkers, SenderCounter L x' s)
  (hreceiver : ∀ r < L.nWorkers, ReceiverCounter L x' r)
  (hsent : ∀ h, L.nWorkers ≠ L.size h → h ∈ L.hosts → SentCounter L x' h)
  (hreceived : ∀ r < L.nWorkers, Received L data x' r)
include hshape hsender hreceiver hsent hreceived

theorem counter (htouches : i.touches = none) (hraised : Raised L x x' i) : Inv L data x' := by
  have hmailbox : ∀ h s r, x'.mailbox L h s r = x.mailbox L h s r := by
    intro h s r
    rw [State.mailbox, hboxes]
    rfl
  have hpair : ∀ s r, i.touches ≠ some (s, r) := by
    rw [htouches]
    simp
  refine ⟨hshape, ?_, ?_, hsender, hreceiver, hsent, hreceived⟩
  · intro s hs r hr hlocal
    exact (hx.localPair s hs r hr hlocal).raise hraised (hpair s r) (hmailbox _ _ _)
  intro s hs r hr hremote
  apply (hx.remotePair s hs r hr hremote).raise hraised (hpair s r) (hmailbox _ _ _)
  · rw [hitems]
  · exact hmailbox _ _ _
  · rw [State.notified, hnotifies]
    rfl

/-- A step that executes nothing of a round, as far as the marks allow it. -/
theorem of_mark_eq (hmark : mark L x' = mark L x)
    (hrounds : ∀ s < L.nWorkers, ∀ r < L.nWorkers,
      x'.rounds (.sender s) ≤ freed L x s r + 1 ∧ x'.rounds (.receiver r) ≤ credited L x s r)
    (htask : ∀ s < L.nWorkers, ∀ r < L.nWorkers, L.hostOf s ≠ L.hostOf r →
      x'.rounds (.task (L.hostOf s)) ≤ mark L x (.arrive s)) : Inv L data x' := by
  refine ⟨hshape, ?_, ?_, hsender, hreceiver, hsent, hreceived⟩
  · intro s hs r hr hlocal
    obtain ⟨hs', hr'⟩ := hrounds s hs r hr
    rw [freed_of_local hlocal] at hs'
    rw [credited_of_local hlocal] at hr'
    apply (hx.localPair s hs r hr hlocal).of_mark_eq hmark hs' hr'
    rw [State.mailbox, hboxes]
    rfl
  · intro s hs r hr hremote
    obtain ⟨hs', hr'⟩ := hrounds s hs r hr
    rw [freed_of_remote hremote] at hs'
    rw [credited_of_remote hremote] at hr'
    exact (hx.remotePair s hs r hr hremote).of_mark_eq hmark hs' (htask s hs r hr hremote) hr'
      hboxes hitems hnotifies

end

include hrest in
theorem add (htouches : i.touches = none) (hi : i.always = true) (harrive : ∀ w, .arrive w ≠ i)
    (hrounds : x'.rounds = x.rounds)
    (hrest' : x'.rest = update x.rest t rest) (hsent : x'.sent = x.sent)
    (hreceived : x'.received = x.received)
    (hsender : Raised L x x' i → ∀ s < L.nWorkers, SenderCounter L x' s)
    (hreceiver : Raised L x x' i → ∀ r < L.nWorkers, ReceiverCounter L x' r) : Inv L data x' := by
  have hraised := hx.shape.raised hrest hi hrounds hrest' fun _ _ => Iff.rfl
  refine hx.counter hboxes hitems hnotifies ?_ (hsender hraised) (hreceiver hraised) ?_ ?_ htouches
    hraised
  · exact hx.shape.proceed (suffix_of_next hrest) hrounds hrest'
  · intro h hmulti hh
    apply (hx.sentCounter h hmulti hh).proceed hrest hrest' hraised harrive
    · rintro w rfl
      cases hi
    · rintro w rfl
      cases hi
    · rw [hsent]
  · refine hx.received_proceed hrest hrest' hrounds ?_ hreceived
    rintro s r rfl
    cases htouches

end

theorem rounds_le_freed (hs : s < L.nWorkers) (hr : r < L.nWorkers) :
    x.rounds (.sender s) ≤ freed L x s r + 1 ∧ x.rounds (.receiver r) ≤ credited L x s r := by
  by_cases hlocal : L.hostOf s = L.hostOf r
  · have hpair := hx.localPair s hs r hr hlocal
    rw [freed_of_local hlocal, credited_of_local hlocal]
    exact ⟨hpair.sender_le, hpair.receiver_le⟩
  · have hpair := hx.remotePair s hs r hr hlocal
    rw [freed_of_remote hlocal, credited_of_remote hlocal]
    exact ⟨hpair.sender_le, hpair.receiver_le⟩

theorem remoteBounds (hs : s < L.nWorkers) (hr : r < L.nWorkers)
    (hremote : L.hostOf s ≠ L.hostOf r) : RemoteBounds L x s r :=
  (hx.remotePair s hs r hr hremote).bounds (hx.shape.remoteOrder hs hr hremote)

end Inv

end Feldera.Exchange
