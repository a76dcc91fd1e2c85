import Feldera.Exchange.RoundRobin

/-!
What an exchange guarantees. In every interleaving nothing panics, nothing is overwritten, and every
receiver gets in every round what was sent to it in that round, in the order of the senders. In fair
runs every round completes.
-/

namespace Feldera.Exchange

open State

variable {T : Type*} {L : Layout} {data : ℕ → ℕ → ℕ → T} {x : State T} {t : Thread} {r k : ℕ}

namespace Inv

variable (hx : Inv L data x)
include hx

/-- What a receiver has got of a round is the beginning of what was sent to it, and all of it if the
round is completed. -/
theorem received_row (hr : r < L.nWorkers) :
    x.received r k <+: row L data k r ∧ (k < completed x r → x.received r k = row L data k r) := by
  have hreceived := hx.received r hr k
  constructor
  · have hprefix := List.prefix_append (x.received r k)
      (if k + 1 = x.rounds (.receiver r) then remaining data k (x.rest (.receiver r)) else [])
    rw [hreceived] at hprefix
    split at hprefix
    · exact hprefix
    · exact hprefix.trans List.nil_prefix
  · intro hk
    unfold completed at hk
    split at hk
    · next hidle =>
      rw [hidle, remaining, List.filterMap_nil, ite_self, List.append_nil, if_pos hk] at hreceived
      exact hreceived
    · rw [if_neg (by omega), if_pos (by omega), List.append_nil] at hreceived
      exact hreceived

/-- Nothing is overwritten: a mailbox is empty when the sender writes into it. -/
theorem empty_of_write {s : ℕ} {rest : List Instr} (hrest : x.rest t = .write s r :: rest) :
    x.mailbox L (L.hostOf s) s r = none := by
  obtain ⟨rfl, hs⟩ := hx.shape.sender_next hrest rfl
  have hr : r < L.nWorkers := hx.shape.fits hrest
  have hnext := hx.shape.mark_next hrest rfl
  by_cases hlocal : L.hostOf s = L.hostOf r
  · exact (hx.localPair s hs r hr hlocal).empty_of_write (hx.shape.localOrder hs hr hlocal) hnext
  · exact (hx.remotePair s hs r hr hlocal).empty_of_write (hx.shape.remoteOrder hs hr hlocal) hnext

end Inv

theorem run_inv (hx : Inv L data x) (actions : List Action) :
    ∃ x', Machine.run (next L data) x actions = .ok x' ∧ Inv L data x' := by
  induction actions generalizing x with
  | nil => exact ⟨x, rfl, hx⟩
  | cons a actions ih =>
    obtain ⟨x₁, hnext, hx₁⟩ := hx.next a
    obtain ⟨x', hrun, hx'⟩ := ih hx₁
    refine ⟨x', ?_, hx'⟩
    unfold Machine.run
    rw [hnext]
    exact hrun

/-- An exchange delivers. In every interleaving of the threads nothing panics, nothing is overwritten,
and every receiver gets in a round exactly what was sent to it in that round, in the order of the
senders. In every fair run every round completes, and whoever becomes ready is told so. -/
theorem delivers_every_round (L : Layout) (data : ℕ → ℕ → ℕ → T) :
    (∀ actions, ∃ x, Machine.run (next L data) (State.new L) actions = .ok x ∧
      (∀ r < L.nWorkers, ∀ k, x.received r k <+: row L data k r ∧
        (k < completed x r → x.received r k = row L data k r)) ∧
      ∀ t s r rest, x.rest t = .write s r :: rest → x.mailbox L (L.hostOf s) s r = none) ∧
    ∀ run : FairRun L data,
      (∀ k, ∃ n, ∀ r < L.nWorkers, k ≤ completed (run.state n) r) ∧
      ∀ n p, ¬ Ready L (run.state n) p → Ready L (run.state (n + 1)) p →
        ∃ m > n, (run.state (m + 1)).invoked = p :: (run.state m).invoked := by
  constructor
  · intro actions
    have hnew : Inv L data (State.new L) := inv_new
    obtain ⟨x, hrun, hx⟩ := run_inv hnew actions
    refine ⟨x, hrun, ?_, ?_⟩
    · intro r hr k
      exact hx.received_row hr
    · intro t s r rest hrest
      exact hx.empty_of_write hrest
  · intro run
    refine ⟨run.completes, ?_⟩
    intro n p
    exact run.invokes

def twoHosts : Layout := ⟨[2, 1], by decide⟩

/-- Three workers on two hosts that take turns complete any number of rounds. -/
theorem delivers_every_round_twoHosts :
    ∀ k, ∃ n, ∀ r < 3, k ≤ completed (roundRobin twoHosts (fun k s r => (k, s, r)) n) r :=
  ((delivers_every_round twoHosts fun k s r => (k, s, r)).2 fairRoundRobin).1

/-- In every interleaving some thread can go on, no worker is more than one round ahead of another,
the counters stay within the number of workers, and at most one value of a pair is on its way
between two hosts. -/
theorem rounds_in_step (L : Layout) (data : ℕ → ℕ → ℕ → T) (actions : List Action) :
    ∃ x, Machine.run (next L data) (State.new L) actions = .ok x ∧
      (0 < L.nWorkers → ¬ Stuck L x) ∧ ∀ s < L.nWorkers, ∀ r < L.nWorkers,
        (x.rounds (.receiver r) ≤ x.rounds (.sender s) ∧
          x.rounds (.sender s) ≤ x.rounds (.receiver r) + 1) ∧
        x.senderCounters s ≤ L.nWorkers ∧ x.receiverCounters r ≤ L.nWorkers ∧
        (L.hostOf s ≠ L.hostOf r →
          [x.mailbox L (L.hostOf s) s r, x.items s r, x.mailbox L (L.hostOf r) s r].countP
            Option.isSome ≤ 1) := by
  have hnew : Inv L data (State.new L) := inv_new
  obtain ⟨x, hrun, hx⟩ := run_inv hnew actions
  refine ⟨x, hrun, hx.not_stuck, fun s hs r hr => ⟨?_, ?_, ?_, fun hremote => ?_⟩⟩
  · by_cases hlocal : L.hostOf s = L.hostOf r
    · have hbounds := (hx.localPair s hs r hr hlocal).bounds (hx.shape.localOrder hs hr hlocal)
      omega
    · have hbounds := hx.remoteBounds hs hr hlocal
      omega
  · rw [hx.senderCounter s hs]
    exact List.countP_le_length.trans_eq List.length_range
  · rw [hx.receiverCounter r hr]
    exact List.countP_le_length.trans_eq List.length_range
  · have hpair := hx.remotePair s hs r hr hremote
    have hbounds := hx.remoteBounds hs hr hremote
    rw [hpair.outgoing, hpair.item, hpair.incoming]
    -- the rounds leave room for one of the three places only
    simp only [Rounds.slot, List.countP_cons, List.countP_nil, Option.isSome_ite]
    split_ifs <;> omega

end Feldera.Exchange
