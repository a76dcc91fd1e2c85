import Feldera.Circuit.Restore

/-!
The plan that `restore` makes. The loop keeps that every node which has been looked at has its
producers among the participating nodes, and it ends because every round but the last one adds a
node.
-/

namespace Feldera.Circuit.Restore

open List

section

variable {circuit : ReplayCircuit} {need : List NodeId} {s : State}
  {stream : StreamId} {r : ReplayStream}

theorem usableSource_fresh (h : usableSource circuit.replaySource need stream = some r) :
    (∀ e ∈ circuit.edges, e.stream ≠ some r.streamId) ∧
      usableSource circuit.replaySource need r.streamId = none := by
  obtain ⟨hedges, hlookup⟩ := circuit.fresh _ (usableSource_mem h)
  refine ⟨hedges, ?_⟩
  rw [usableSource, hlookup]
  rfl

structure Connected (circuit : ReplayCircuit) (need : List NodeId)
    (state : List Edge × List (NodeId × StreamId)) : Prop where
  old : ∀ e ∈ circuit.edges, e ∈ state.1
  edges : ∀ e ∈ state.1, e ∈ circuit.edges ∨ ∃ e₀ ∈ circuit.edges, ∃ stream r,
    e₀.stream = some stream ∧ usableSource circuit.replaySource need stream = some r ∧
      e = replayEdge r e₀
  sources : ∀ k ∈ state.2.map Prod.fst, ∃ stream r, Replayed circuit need stream r ∧
    r.localNodeId = k ∧ ∀ e ∈ circuit.edges, e.stream = some stream → replayEdge r e ∈ state.1

variable {state : List Edge × List (NodeId × StreamId)}

section

variable (h : Connected circuit need state)
include h

theorem Connected.original {e : Edge} (he : e ∈ state.1) (hstream : e.stream = some stream)
    (hr : usableSource circuit.replaySource need stream = some r) : e ∈ circuit.edges := by
  rcases h.edges e he with horiginal | ⟨e₀, -, stream', r', -, hr', rfl⟩
  · exact horiginal
  · obtain rfl : r'.streamId = stream := Option.some.inj hstream
    exact nomatch (usableSource_fresh hr').2.symm.trans hr

theorem Connected.connect {p : StreamId × ReplayStream} (hp : Replayed circuit need p.1 p.2) :
    Connected circuit need (connect state p) ∧
      (∀ k ∈ state.2.map Prod.fst, k ∈ (connect state p).2.map Prod.fst) ∧
      p.2.localNodeId ∈ (connect state p).2.map Prod.fst := by
  obtain ⟨-, -, -, -, hr⟩ := id hp
  unfold Restore.connect
  split
  · next hin => exact ⟨h, fun k hk => hk, hin⟩
  refine ⟨⟨fun e he => mem_append_left _ (h.old e he), fun e he => ?_, fun k hk => ?_⟩,
    fun k hk => ?_, ?_⟩
  · rcases mem_append.mp he with he | he
    · exact h.edges e he
    · obtain ⟨e₀, he₀, rfl⟩ := mem_map.mp he
      obtain ⟨hin, hstream⟩ := mem_filter.mp he₀
      have hstream := of_decide_eq_true hstream
      exact .inr ⟨e₀, h.original hin hstream hr, p.1, p.2, hstream, hr, rfl⟩
  · rw [map_append, mem_append] at hk
    rcases hk with hk | hk
    · obtain ⟨stream, r, hreplayed, hnode, hconnected⟩ := h.sources k hk
      exact ⟨stream, r, hreplayed, hnode, fun e he hs =>
        mem_append_left _ (hconnected e he hs)⟩
    · refine ⟨p.1, p.2, hp, (mem_singleton.mp hk).symm, fun e he hs => ?_⟩
      refine mem_append_right _ (mem_map_of_mem (mem_filter.mpr ⟨h.old e he, ?_⟩))
      exact decide_eq_true hs
  · simp [mem_map.mp hk]
  · simp

theorem Connected.foldl_connect {streams : List (StreamId × ReplayStream)}
    (hstreams : ∀ p ∈ streams, Replayed circuit need p.1 p.2) :
    Connected circuit need (streams.foldl Restore.connect state) ∧
      (∀ k ∈ state.2.map Prod.fst, k ∈ (streams.foldl Restore.connect state).2.map Prod.fst) ∧
      ∀ p ∈ streams, p.2.localNodeId ∈ (streams.foldl Restore.connect state).2.map Prod.fst := by
  induction streams generalizing state with
  | nil => exact ⟨h, fun k hk => hk, nofun⟩
  | cons p streams ih =>
    obtain ⟨hnext, hkept, hadded⟩ := h.connect (hstreams p mem_cons_self)
    obtain ⟨hend, hkept', hadded'⟩ := ih hnext fun q hq => hstreams q (mem_cons_of_mem _ hq)
    refine ⟨hend, fun k hk => hkept' k (hkept k hk), fun q hq => ?_⟩
    rcases mem_cons.mp hq with rfl | hq
    · exact hkept' _ hadded
    · exact hadded' q hq

end

structure Explored (circuit : ReplayCircuit) (need : List NodeId) (s : State) : Prop where
  connected : Connected circuit need (s.edges, s.replaySources)
  started : ∀ n ∈ need, n ∈ s.participate
  new : ∀ n ∈ s.new, n ∈ s.participate
  pulled : ∀ n ∈ s.participate, Pulled circuit need n
  expanded : ∀ n ∈ s.participate, n ∉ s.new → ∀ input ∈ inputsOf circuit.edges n,
    producer circuit.replaySource need input ∈ s.participate ∧
      ∀ stream r, input.1 = some stream →
        usableSource circuit.replaySource need stream = some r →
        r.localNodeId ∈ s.replaySources.map Prod.fst

/-- The edges that were added bring in no nodes that the others do not bring in. -/
theorem Connected.pulled_producer (h : Connected circuit need state) {n : NodeId}
    (hn : Pulled circuit need n) {input : Option StreamId × NodeId}
    (hinput : input ∈ inputsOf state.1 n) :
    Pulled circuit need (producer circuit.replaySource need input) := by
  obtain ⟨e, he, hcase⟩ := mem_inputsOf.mp hinput
  rcases h.edges e he with horiginal | ⟨e₀, he₀, stream, r, hstream, hr, rfl⟩
  · exact .input hn (mem_inputsOf.mpr ⟨e, horiginal, hcase⟩)
  have hdependency : (replayEdge r e₀).isDependency = false := by
    have hsame := circuit.isDependency e₀ he₀
    rw [hstream] at hsame
    exact hsame
  rcases hcase with ⟨htarget, -, rfl⟩ | ⟨-, hdep, -⟩ | ⟨-, hdep, -⟩
  · have hin : (some stream, e₀.source) ∈ inputsOf circuit.edges n :=
      mem_inputsOf.mpr ⟨e₀, he₀, .inl ⟨htarget, by rw [hstream]; rfl, by rw [hstream]⟩⟩
    have hpulled := Pulled.input hn hin
    rw [producer_some hr] at hpulled
    have hsame : producer circuit.replaySource need
        ((replayEdge r e₀).stream, (replayEdge r e₀).source) = r.localNodeId :=
      producer_none (usableSource_fresh hr).2
    rw [hsame]
    exact hpulled
  · exact nomatch hdependency.symm.trans hdep
  · exact nomatch hdependency.symm.trans hdep

theorem Explored.step (h : Explored circuit need s) :
    Explored circuit need (computeReplayNodesStep circuit.replaySource need s) ∧
      (∀ n ∈ s.participate,
        n ∈ (computeReplayNodesStep circuit.replaySource need s).participate) ∧
      ∀ n ∈ (computeReplayNodesStep circuit.replaySource need s).new, n ∉ s.participate := by
  obtain ⟨hsets, hnew⟩ := foldl_addNode
    ((s.new.flatMap (inputsOf s.edges)).map (producer circuit.replaySource need))
    (s.participate, [])
  simp only [not_mem_nil, false_or] at hnew
  have hstreams : ∀ p ∈ replayStreams circuit.replaySource need
      (s.new.flatMap (inputsOf s.edges)), Replayed circuit need p.1 p.2 := by
    intro p hp
    obtain ⟨⟨m, hm⟩, hr⟩ := mem_replayStreams.mp hp
    obtain ⟨n, hn, hinput⟩ := mem_flatMap.mp hm
    obtain ⟨e, he, ⟨htarget, -, heq⟩ | ⟨-, -, heq⟩ | ⟨-, -, heq⟩⟩ := mem_inputsOf.mp hinput
    · have hstream : e.stream = some p.1 := (Prod.mk.inj heq).1.symm
      exact ⟨e, h.connected.original he hstream hr, htarget ▸ h.pulled n (h.new n hn), hstream, hr⟩
    · exact nomatch (Prod.mk.inj heq).1
    · exact nomatch (Prod.mk.inj heq).1
  obtain ⟨hconnected, hkept, hadded⟩ := h.connected.foldl_connect hstreams
  refine ⟨⟨hconnected, fun n hn => (hsets n).mpr (.inl (h.started n hn)), fun n hn => ?_,
    fun n hn => ?_, fun n hn hnot => ?_⟩, fun n hn => (hsets n).mpr (.inl hn), fun n hn => ?_⟩
  · exact (hsets n).mpr (.inr ((hnew n).mp hn).1)
  · rcases (hsets n).mp hn with hn | hn
    · exact h.pulled n hn
    · obtain ⟨input, hinput, rfl⟩ := mem_map.mp hn
      obtain ⟨m, hm, hin⟩ := mem_flatMap.mp hinput
      exact h.connected.pulled_producer (h.pulled m (h.new m hm)) hin
  · intro input hinput
    have hold : n ∈ s.participate := by
      rcases (hsets n).mp hn with hn | hn
      · exact hn
      · by_contra hfresh
        exact hnot ((hnew n).mpr ⟨hn, hfresh⟩)
    by_cases hn : n ∈ s.new
    · have hin : input ∈ s.new.flatMap (inputsOf s.edges) := by
        obtain ⟨e, he, hcase⟩ := mem_inputsOf.mp hinput
        exact mem_flatMap.mpr ⟨n, hn, mem_inputsOf.mpr ⟨e, h.connected.old e he, hcase⟩⟩
      refine ⟨(hsets _).mpr (.inr (mem_map_of_mem hin)), fun stream r hstream hr => ?_⟩
      refine hadded (stream, r) (mem_replayStreams.mpr ⟨⟨input.2, ?_⟩, hr⟩)
      rw [← hstream]
      exact hin
    · obtain ⟨hproducer, hsource⟩ := h.expanded n hold hn input hinput
      exact ⟨(hsets _).mpr (.inl hproducer), fun stream r hstream hr =>
        hkept _ (hsource stream r hstream hr)⟩
  · exact ((hnew n).mp hn).2

def candidates (circuit : ReplayCircuit) (need : List NodeId) : Finset NodeId :=
  (need ++ circuit.edges.map Edge.source ++ circuit.edges.map Edge.target ++
    circuit.replaySource.map fun p => p.2.localNodeId).toFinset

theorem Pulled.mem_candidates {n : NodeId} (h : Pulled circuit need n) :
    n ∈ candidates circuit need := by
  simp only [candidates, mem_toFinset, mem_append]
  induction h with
  | need hn => exact .inl (.inl (.inl hn))
  | @input n input _ hinput _ =>
    unfold producer
    split
    · next r hr =>
      obtain ⟨stream, -, hr⟩ := Option.bind_eq_some_iff.mp hr
      exact .inr (mem_map.mpr ⟨(stream, r), usableSource_mem hr, rfl⟩)
    · obtain ⟨e, he, ⟨-, -, rfl⟩ | ⟨-, -, rfl⟩ | ⟨-, -, rfl⟩⟩ := mem_inputsOf.mp hinput
      · exact .inl (.inl (.inr (mem_map_of_mem he)))
      · exact .inl (.inl (.inr (mem_map_of_mem he)))
      · exact .inl (.inr (mem_map_of_mem he))

/-- Every round but the last one adds a node, of which there are finitely many. -/
theorem Explored.loop (h : Explored circuit need s) (rounds : ℕ)
    (hrounds : (candidates circuit need \ s.participate.toFinset).card < rounds) :
    ∃ s', loop circuit.replaySource need rounds s = some s' ∧
      Explored circuit need s' ∧ s'.new = [] := by
  induction rounds generalizing s with
  | zero => omega
  | succ rounds ih =>
    unfold loop
    split
    · next hdone => exact ⟨s, rfl, h, isEmpty_iff.mp hdone⟩
    obtain ⟨hnext, hkept, hnew⟩ := h.step
    generalize hstep : computeReplayNodesStep circuit.replaySource need s = s₁ at hnext hkept hnew ⊢
    rcases hlist : s₁.new with _ | ⟨n, rest⟩
    · refine ⟨s₁, ?_, hnext, hlist⟩
      cases rounds <;> simp [loop, hlist]
    refine ih hnext (lt_of_lt_of_le (Finset.card_lt_card ?_) (Nat.lt_succ_iff.mp hrounds))
    have hn : n ∈ s₁.new := hlist ▸ mem_cons_self
    refine Finset.ssubset_iff_of_subset ?_ |>.mpr ⟨n, ?_, ?_⟩
    · exact Finset.sdiff_subset_sdiff le_rfl fun m hm =>
        mem_toFinset.mpr (hkept m (mem_toFinset.mp hm))
    · refine Finset.mem_sdiff.mpr ⟨(hnext.pulled n (hnext.new n hn)).mem_candidates, fun hin => ?_⟩
      exact hnew n hn (mem_toFinset.mp hin)
    · intro hin
      exact (Finset.mem_sdiff.mp hin).2 (mem_toFinset.mpr (hnext.new n hn))

theorem explored_start (circuit : ReplayCircuit) (need : List NodeId) :
    Explored circuit need ⟨circuit.edges, [], need, need⟩ :=
  ⟨⟨fun _ he => he, fun _ he => .inl he, nofun⟩, fun _ hn => hn,
    fun _ hn => hn, fun _ hn => .need hn, fun _ hn hnot => absurd hn hnot⟩

/-- At the end the nodes that take part are those that backfilling calls for. -/
theorem Explored.mem_participate (h : Explored circuit need s) (hdone : s.new = []) (n : NodeId) :
    n ∈ s.participate ↔ Pulled circuit need n := by
  refine ⟨h.pulled n, fun hn => ?_⟩
  induction hn with
  | need hn => exact h.started _ hn
  | input _ hinput ih =>
    refine (h.expanded _ ih ?_ _ hinput).1
    rw [hdone]
    exact not_mem_nil

/-- A stream that can be replayed is connected to its source, if no other stream uses it. -/
theorem Explored.suppliedOnce (h : Explored circuit need s) (hdone : s.new = [])
    (hseparate : Separate circuit need) : SuppliedOnce circuit need s := by
  intro e he htarget _ stream hstream
  have hpulled := h.pulled _ htarget
  have hinput : (some stream, e.source) ∈ inputsOf circuit.edges e.target :=
    mem_inputsOf.mpr ⟨e, he, .inl ⟨rfl, by rw [hstream]; rfl, by rw [hstream]⟩⟩
  obtain ⟨hproducer, hsource⟩ := h.expanded _ htarget (hdone ▸ not_mem_nil) _ hinput
  cases hr : usableSource circuit.replaySource need stream with
  | none =>
    rw [producer_none hr] at hproducer
    refine .inl ⟨hproducer, ?_⟩
    rintro ⟨r, hlookup, hneed, -⟩
    exact nomatch hr.symm.trans (usableSource_eq_some.mpr ⟨hlookup, hneed⟩)
  | some r =>
    rw [producer_some hr] at hproducer
    have hreplayed : Replayed circuit need stream r := ⟨e, he, hpulled, hstream, hr⟩
    refine .inr ⟨⟨r, (usableSource_eq_some.mp hr).1, (usableSource_eq_some.mp hr).2, hproducer, ?_⟩,
      fun hin => hseparate.origins e he hpulled stream r hstream hreplayed (h.pulled _ hin)⟩
    obtain ⟨stream', r', hreplayed', hnode, hedges⟩ :=
      h.connected.sources _ (hsource stream r rfl hr)
    obtain rfl := hseparate.sources stream' r' stream r hreplayed' hreplayed hnode
    obtain ⟨-, -, -, -, hr'⟩ := hreplayed'
    obtain rfl := Option.some.inj (hr'.symm.trans hr)
    exact hedges e he hstream

end

section

def oneOutput : ReplayCircuit where
  edges := [⟨0, 1, [0], some 10, some 0⟩]
  replaySource := [(10, ⟨20, 3, [3]⟩)]
  isDependency := by decide
  fresh := by decide

theorem pulled_oneOutput {n : NodeId} (h : Pulled oneOutput (needBackfill [[1]]) n) :
    n = 1 ∨ n = 3 := by
  induction h with
  | need hn => exact .inl (mem_singleton.mp hn)
  | @input n input _ hinput ih =>
    rcases ih with rfl | rfl
    · obtain rfl : input = (some 10, 0) := mem_singleton.mp hinput
      exact .inr rfl
    · exact absurd hinput not_mem_nil

/-- A node with two output streams, of which the first one can be replayed. -/
def twoOutputs : ReplayCircuit where
  edges := [⟨0, 1, [0], some 10, some 0⟩, ⟨0, 2, [0], some 11, some 0⟩]
  replaySource := [(10, ⟨20, 3, [3]⟩)]
  isDependency := by decide
  fresh := by decide

end

end Feldera.Circuit.Restore
