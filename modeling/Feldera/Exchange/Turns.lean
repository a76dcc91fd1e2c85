import Feldera.Exchange.Steps

/-!
The steps of an exchange by which rounds begin: senders arrive until the last one spawns the task of
its host, and `try_send_all` and `try_receive_all` find their counters full. Together with the other
steps, every step succeeds and keeps the invariant.
-/

namespace Feldera.Exchange

open Rounds Layout Function List

variable {T : Type*} {L : Layout} {data : ℕ → ℕ → ℕ → T} {x : State T} {t : Thread}
  {rest : List Instr} {s r h : ℕ}

namespace Inv

open State

variable (hx : Inv L data x)
include hx

variable {i : Instr}

/-- After `arrive` only the tail of `try_send_all` is left. -/
theorem always_of_arrive (hrest : x.rest (.sender s) = .arrive s :: rest) (hi : i ∈ rest) :
    i.always = false := by
  have hsuffix := hx.shape.rest (.sender s)
  rw [hrest] at hsuffix
  have hlt : L.key (.arrive s) < L.key i :=
    rel_of_pairwise_cons (pairwise_program.sublist hsuffix.sublist) hi
  have howner := (mem_program.mp (hsuffix.subset (mem_cons_of_mem _ hi))).1
  cases i with
  | reset _ | spawn _ => rfl
  | write _ _ | credit _ _ | arrive _ => simp [Layout.key, cons_lt_cons_iff] at hlt
  | _ => cases howner

theorem arrive {rest' : List Instr} {x' : State T} (hrest : x.rest (.sender s) = .arrive s :: rest)
    (hx' : x' = (x.proceed (.sender s) rest').setSent (L.hostOf s) (x.sent (L.hostOf s) + 1))
    (hsuffix : rest' <:+ rest) (hsame : ∀ j, j.always = true → (j ∈ rest' ↔ j ∈ rest))
    (hsent : Raised L x x' (.arrive s) → SentCounter L x' (L.hostOf s)) : Inv L data x' := by
  have hraised : Raised L x x' (.arrive s) := by
    subst hx'
    exact hx.shape.raised hrest rfl rfl rfl hsame
  subst hx'
  have hother : ∀ t, t ≠ .sender s → (x.proceed (.sender s) rest').rest t = x.rest t :=
    fun t ht => proceed_rest_of_ne ht
  refine hx.counter rfl rfl rfl ?_ ?_ ?_ ?_ ?_ rfl hraised
  · exact hx.shape.proceed (hsuffix.trans (suffix_of_next hrest)) rfl rfl
  · intro s' hs'
    exact (hx.senderCounter s' hs').raise hraised nofun nofun rfl
  · intro r' hr'
    exact (hx.receiverCounter r' hr').raise hraised nofun nofun rfl
  · intro h hmulti hh
    by_cases heq : h = L.hostOf s
    · subst heq
      exact hsent hraised
    refine (hx.sentCounter h hmulti hh).of_other heq ?_ rfl (update_of_ne heq ..) ?_
    · intro w hne
      apply hraised.other
      simp [hne]
    · intro w hne
      exact hother _ (by simp [hne])
  · exact hx.received_of_rest (fun r => hother (.receiver r) nofun) (fun _ => rfl) rfl

theorem exec_arrive : Executes L data x t (.arrive s) rest := by
  intro hrest
  obtain ⟨rfl, hs⟩ := hx.shape.sender_next hrest rfl
  have hmulti : L.nWorkers ≠ L.size (L.hostOf s) := hx.shape.fits hrest
  obtain ⟨r, hr, hremote⟩ := exists_remote hmulti
  have hnext : mark L x (.arrive s) = x.rounds (.task (L.hostOf s)) := by
    have hbounds := hx.remoteBounds hs hr hremote
    have := hx.shape.mark_next hrest rfl
    omega
  have hsent := hx.sentCounter (L.hostOf s) hmulti (hostOf_mem_hosts hs)
  have hmem := mem_localWorkers_hostOf hs
  by_cases hlast : x.sent (L.hostOf s) + 1 = L.size (L.hostOf s)
  · simp only [exec, ne_eq, hlast, not_true_eq_false, if_false]
    refine ⟨_, rfl, hx.arrive hrest (congrArg _ hlast.symm) suffix_rfl
      (fun _ _ => Iff.rfl) fun hraised => ?_⟩
    refine hsent.arrive_last hx.shape hmem hnext hraised ?_ hrest hlast rfl
    exact (update_self ..).trans hlast.symm
  · simp only [exec, ne_eq, hlast, not_false_eq_true, if_true]
    refine ⟨_, rfl, hx.arrive hrest rfl nil_suffix ?_ fun hraised => ?_⟩
    · intro j hj
      refine iff_of_false not_mem_nil fun hmem => ?_
      rw [hx.always_of_arrive hrest hmem] at hj
      cases hj
    · exact hsent.arrive hx.shape hmem hnext hraised (update_self ..) hlast rfl

theorem exec_reset : Executes L data x t (.reset s) rest := by
  intro hrest
  obtain ⟨rfl, hs⟩ := hx.shape.sender_next hrest rfl
  have hmulti : L.nWorkers ≠ L.size (L.hostOf s) := hx.shape.fits hrest
  have hmark : mark L ((x.proceed (.sender s) rest).setSent (L.hostOf s) 0) = mark L x :=
    mark_proceed_of_not_always hrest rfl rfl rfl
  refine ⟨_, rfl, hx.of_mark_eq rfl rfl rfl (hx.shape.proceed (suffix_of_next hrest) rfl rfl)
    ?_ ?_ ?_ ?_ hmark ?_ ?_⟩
  · intro s' hs'
    exact (hx.senderCounter s' hs').of_mark_eq hmark rfl rfl
  · intro r' hr'
    exact (hx.receiverCounter r' hr').of_mark_eq hmark rfl rfl
  · intro h hmulti hh
    have hsent := hx.sentCounter h hmulti hh
    by_cases heq : h = L.hostOf s
    · subst heq
      exact hsent.reset hx.shape hrest (mem_localWorkers_hostOf hs) hmark rfl
        (update_self ..) rfl
    · refine hsent.of_other heq (fun w _ => by rw [hmark]) rfl (update_of_ne heq ..) ?_
      intro w hne
      exact update_of_ne (by simp [hne]) ..
  · exact hx.received_of_rest (fun _ => rfl) (fun _ => rfl) rfl
  · intro s hs r hr
    exact hx.rounds_le_freed hs hr
  · intro s hs r hr hremote
    exact (hx.remotePair s hs r hr hremote).task_le

theorem task_idle (hrest : x.rest (.sender s) = .spawn s :: rest) :
    x.rest (.task (L.hostOf s)) = [] := by
  have hs := (hx.shape.sender_next hrest rfl).2
  have hmulti : L.nWorkers ≠ L.size (L.hostOf s) := hx.shape.fits hrest
  obtain ⟨r, hr, hremote⟩ := exists_remote hmulti
  have hmem := mem_localWorkers_hostOf hs
  have hspawning := hx.shape.spawning_of_cleared (hx.shape.cleared_of_spawn hrest)
  have hreleased : ∀ w ∈ L.localWorkers (L.hostOf s),
      .release w ∉ x.rest (.task (L.hostOf s)) := by
    intro w hw hleft
    obtain ⟨hw', hhost⟩ := mem_localWorkers.mp hw
    have harrive := (hx.sentCounter _ hmulti (hostOf_mem_hosts hs)).arrived_of_spawn
      hspawning hmem hw
    rw [← hhost] at hremote harrive hleft
    have hbounds := hx.remoteBounds hw' hr hremote
    have hpos := hx.shape.started _ (ne_nil_of_mem hleft)
    have hrelease : mark L x (.release w) = x.rounds (.task (L.hostOf w)) - 1 :=
      (mark_of_counted (counted_of_fits (i := .release w) hw' rfl)).trans
        (level_of_mem hleft)
    omega
  cases hleft : x.rest (.task (L.hostOf s)) with
  | nil => rfl
  | cons i rest =>
    -- whatever is left, a release is left after it
    exfalso
    have hlast : L.key i < L.key (.release s) → False := by
      intro hlt
      apply hreleased s hmem
      rw [hleft]
      exact mem_cons_of_mem _
        (hx.shape.mem_rest_of_next hleft (mem_program.mpr ⟨rfl, hs⟩) hlt)
    have howner := hx.shape.owner_eq hleft
    cases i with
    | release s' =>
      have hs' := mem_localWorkers.mpr ⟨hx.shape.fits hleft, Thread.task.inj howner⟩
      apply hreleased s' hs'
      rw [hleft]
      exact mem_cons_self
    | collect _ _ | deliver _ _ | creditAll _ _ | await _ _ =>
      apply hlast
      simp [Layout.key, cons_lt_cons_iff]
    | _ => cases howner

theorem exec_spawn : Executes L data x t (.spawn s) rest := by
  intro hrest
  obtain ⟨rfl, hs⟩ := hx.shape.sender_next hrest rfl
  have hmulti : L.nWorkers ≠ L.size (L.hostOf s) := hx.shape.fits hrest
  have hmem := mem_localWorkers_hostOf hs
  have hidle := hx.task_idle hrest
  have hcleared := hx.shape.cleared_of_spawn hrest
  have hspawning := hx.shape.spawning_of_cleared hcleared
  have harrived : ∀ w ∈ L.localWorkers (L.hostOf s),
      mark L x (.arrive w) = x.rounds (.task (L.hostOf s)) + 1 := fun w hw =>
    (hx.sentCounter _ hmulti (hostOf_mem_hosts hs)).arrived_of_spawn hspawning hmem hw
  have hshape : Shape L (x.proceed (.sender s) rest) :=
    hx.shape.proceed (suffix_of_next hrest) rfl rfl
  have hproceed : mark L (x.proceed (.sender s) rest) = mark L x :=
    mark_proceed_of_not_always hrest rfl rfl rfl
  have hidle' : (x.proceed (.sender s) rest).rest (.task (L.hostOf s)) = [] := hidle
  have hmark : mark L ((x.proceed (.sender s) rest).beginRound L (.task (L.hostOf s))) = mark L x :=
    (mark_begin hidle' rfl rfl).trans hproceed
  simp only [exec, if_pos hidle]
  refine ⟨_, rfl, hx.of_mark_eq rfl rfl rfl (hshape.begin rfl rfl (by simp) (by simp) ?_)
    ?_ ?_ ?_ ?_ hmark ?_ ?_⟩
  · rintro h heq
    cases heq
    exact ⟨hostOf_mem_hosts hs, hmulti⟩
  · intro s' hs'
    exact (hx.senderCounter s' hs').of_mark_eq hmark rfl rfl
  · intro r' hr'
    exact (hx.receiverCounter r' hr').of_mark_eq hmark rfl rfl
  · intro h hmulti hh
    have hsent := hx.sentCounter h hmulti hh
    have hother : ∀ w, w ≠ s →
        ((x.proceed (.sender s) rest).beginRound L (.task (L.hostOf s))).rest (.sender w) =
          x.rest (.sender w) := by
      intro w hne
      have hne' : Thread.sender w ≠ .sender s := by simp [hne]
      exact update_of_ne hne' ..
    by_cases heq : h = L.hostOf s
    · subst heq
      refine hsent.spawn hspawning hcleared hmem hmark (update_self ..) rfl ?_ hother
      change _ ∉ (x.proceed (.sender s) rest).rest (.sender s)
      rw [proceed_rest_self]
      exact hx.shape.not_mem_rest hrest (lt_irrefl _)
    · refine hsent.of_other heq (fun w _ => by rw [hmark]) (beginRound_rounds_of_ne ?_) rfl hother
      simp [heq]
  · exact hx.received_of_rest (fun _ => rfl) (fun _ => rfl) rfl
  · intro s' hs' r hr
    exact hx.rounds_le_freed hs' hr
  · intro s' hs' r hr hremote
    by_cases heq : L.hostOf s' = L.hostOf s
    · rw [heq, harrived s' (mem_localWorkers.mpr ⟨hs', heq⟩), beginRound_rounds_self]
      exact le_rfl
    · rw [beginRound_rounds_of_ne (by simp [heq])]
      exact (hx.remotePair s' hs' r hr hremote).task_le

theorem attempt_sender (hrest : x.rest (.sender s) = []) :
    Inv L data (x.attempt L (.sender s)) := by
  simp only [attempt]
  split
  · next hbegin =>
    obtain ⟨hs, hfull⟩ := hbegin
    have hfreed : ∀ r < L.nWorkers, freed L x s r = x.rounds (.sender s) := fun r hr =>
      (hx.senderCounter s hs).freed_of_full hfull hr
    have hmark : mark L (x.beginSend L s) = mark L x := mark_begin hrest rfl rfl
    refine hx.of_mark_eq rfl rfl rfl (hx.shape.begin rfl rfl ?_ nofun nofun) ?_ ?_ ?_ ?_ hmark ?_ ?_
    · rintro w heq
      cases heq
      exact hs
    · intro s' hs'
      by_cases heq : s' = s
      · subst heq
        exact SenderCounter.begin hmark (update_self ..) hfreed (update_self ..)
      · refine (hx.senderCounter s' hs').of_mark_eq hmark (update_of_ne ?_ ..)
          (update_of_ne heq ..)
        simp [heq]
    · intro r' hr'
      exact (hx.receiverCounter r' hr').of_mark_eq hmark rfl rfl
    · intro h hmulti hh
      exact (hx.sentCounter h hmulti hh).begin hmark rfl rfl hmulti hrest rfl
    · exact hx.received_of_rest (fun _ => rfl) (fun _ => rfl) rfl
    · intro s' hs' r hr
      obtain ⟨hsender, hreceiver⟩ := hx.rounds_le_freed hs' hr
      refine ⟨?_, hreceiver⟩
      by_cases heq : s' = s
      · subst heq
        rw [hfreed r hr]
        exact (update_self ..).le
      · refine le_of_eq_of_le (update_of_ne ?_ ..) hsender
        simp [heq]
    · intro s' hs' r hr hremote
      exact (hx.remotePair s' hs' r hr hremote).task_le
  · exact hx

theorem attempt_receiver (hrest : x.rest (.receiver r) = []) :
    Inv L data (x.attempt L (.receiver r)) := by
  simp only [attempt]
  split
  · next hbegin =>
    obtain ⟨hr, hfull⟩ := hbegin
    have hcredited : ∀ s < L.nWorkers, credited L x s r = x.rounds (.receiver r) + 1 :=
      fun s hs => (hx.receiverCounter r hr).credited_of_full hfull hs
    have hmark : mark L (x.beginReceive L r) = mark L x := mark_begin hrest rfl rfl
    refine hx.of_mark_eq rfl rfl rfl (hx.shape.begin rfl rfl nofun ?_ nofun) ?_ ?_ ?_ ?_ hmark ?_ ?_
    · rintro w heq
      cases heq
      exact hr
    · intro s' hs'
      exact (hx.senderCounter s' hs').of_mark_eq hmark rfl rfl
    · intro r' hr'
      by_cases heq : r' = r
      · subst heq
        exact ReceiverCounter.begin hmark (update_self ..) hcredited
          (update_self ..)
      · refine (hx.receiverCounter r' hr').of_mark_eq hmark (update_of_ne ?_ ..)
          (update_of_ne heq ..)
        simp [heq]
    · intro h hmulti hh
      exact (hx.sentCounter h hmulti hh).of_rest (fun w _ => by rw [hmark]) rfl rfl
        fun _ _ => .inl rfl
    · intro r' hr'
      by_cases heq : r' = r
      · subst heq
        exact (hx.received r' hr').begin hrest (update_self ..) (update_self ..) rfl
      · refine (hx.received r' hr').of_eq (update_of_ne (by simp [heq]) ..) ?_ rfl
        intro k
        exact congrArg _ (update_of_ne (by simp [heq]) ..)
    · intro s hs r' hr'
      obtain ⟨hsender, hreceiver⟩ := hx.rounds_le_freed hs hr'
      refine ⟨hsender, ?_⟩
      by_cases heq : r' = r
      · subst heq
        rw [hcredited s hs]
        exact (update_self ..).le
      · refine le_of_eq_of_le (update_of_ne ?_ ..) hreceiver
        simp [heq]
    · intro s hs r' hr' hremote
      exact (hx.remotePair s hs r' hr' hremote).task_le
  · exact hx

theorem exec : Executes L data x t i rest := by
  cases i with
  | write s r => exact hx.exec_write
  | credit s r => exact hx.exec_credit
  | arrive s => exact hx.exec_arrive
  | reset s => exact hx.exec_reset
  | spawn s => exact hx.exec_spawn
  | collect s r => exact hx.exec_collect
  | deliver s r => exact hx.exec_deliver
  | creditAll h r => exact hx.exec_creditAll
  | await s r => exact hx.exec_await
  | release s => exact hx.exec_release
  | pick s r => exact hx.exec_pick
  | acknowledge s r => exact hx.exec_acknowledge
  | notify s r => exact hx.exec_notify

theorem of_callbacks {owed invoked : List Party} :
    Inv L data { x with owed := owed, invoked := invoked } :=
  ⟨⟨hx.shape.rest, hx.shape.started, hx.shape.sender_lt, hx.shape.receiver_lt, hx.shape.task_mem⟩,
    fun s hs r hr hlocal =>
      have hpair := hx.localPair s hs r hr hlocal
      ⟨hpair.sender_le, hpair.receiver_le, hpair.mailbox⟩,
    fun s hs r hr hremote =>
      have hpair := hx.remotePair s hs r hr hremote
      ⟨hpair.sender_le, hpair.task_le, hpair.receiver_le, hpair.await_le, hpair.outgoing, hpair.item,
        hpair.incoming, hpair.notified⟩,
    hx.senderCounter, hx.receiverCounter,
    fun h hmulti hh =>
      have hsent := hx.sentCounter h hmulti hh
      ⟨hsent.full, hsent.unique, hsent.cleared, hsent.counts⟩,
    hx.received⟩

theorem next (a : Action) : ∃ x', next L data x a = .ok x' ∧ Inv L data x' := by
  cases a with
  | step t =>
    simp only [Exchange.next]
    split
    · next hrest =>
      cases t with
      | sender w => exact ⟨_, rfl, hx.attempt_sender hrest⟩
      | receiver w => exact ⟨_, rfl, hx.attempt_receiver hrest⟩
      | task h => exact ⟨_, rfl, hx⟩
    · next i rest hrest => exact hx.exec hrest
  | callback p =>
    simp only [Exchange.next]
    split
    · exact ⟨_, rfl, hx.of_callbacks⟩
    · exact ⟨_, rfl, hx⟩

end Inv

theorem mark_new (i : Instr) : mark L (State.new L : State T) i = 0 := by
  unfold mark
  split
  · exact level_nil
  · rfl

theorem inv_new : Inv L data (State.new L) := by
  constructor
  · exact ⟨fun _ => nil_suffix, fun _ hne => absurd rfl hne, nofun, nofun, nofun⟩
  · intro s _ r _ _
    refine ⟨Nat.zero_le _, Nat.zero_le _, ?_⟩
    rw [mark_new, mark_new]
    rfl
  · intro s _ r _ _
    refine ⟨Nat.zero_le _, Nat.zero_le _, Nat.zero_le _, ?_, ?_, ?_, ?_, ?_⟩
    · rw [mark_new]
      exact Nat.zero_le _
    all_goals
      rw [mark_new, mark_new]
      rfl
  · intro s _
    refine (tally_eq_length_iff.mpr ?_ |>.trans length_range).symm
    intro r _
    unfold freed
    rw [mark_new, mark_new, ite_self]
    rfl
  · intro r _
    refine (tally_eq_zero ?_).symm
    intro s _
    unfold credited
    rw [mark_new, mark_new, ite_self]
    exact Nat.zero_ne_one
  · intro h _ hh
    have harrivals : arrivals L (State.new L : State T) h = 0 := by
      apply tally_eq_zero
      intro s _
      rw [mark_new]
      exact Nat.zero_ne_one
    have hsize := size_pos hh
    refine .of_not_spawning ?_ (by omega) (fun _ _ _ => rfl) harrivals.symm
    rintro w _ ⟨hspawn, _⟩
    cases hspawn
  · intro r _ k
    rfl

end Feldera.Exchange
