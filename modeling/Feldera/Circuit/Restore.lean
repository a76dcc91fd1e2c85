import Feldera.Circuit.Graph

/-!
`CircuitHandle::restore`. Nodes without a checkpoint are backfilled from upstream. The nodes that
take part are found by going backward from them; where a stream can be replayed from a node that has
a checkpoint, this node takes the place of the origin of the stream, and edges are added from it to
the consumers of the stream.
-/

namespace Feldera.Circuit

open List

structure ReplayStream where
  streamId : StreamId
  localNodeId : NodeId
  originNodeId : GlobalNodeId
deriving DecidableEq

/-- The part of a circuit that `restore` looks at. Streams and dependencies are told apart, and the
streams that replay others are new ones, which are not connected to anything. -/
structure ReplayCircuit where
  edges : List Edge
  replaySource : List (StreamId × ReplayStream)
  isDependency : ∀ e ∈ edges, e.isDependency = e.stream.isNone
  fresh : ∀ p ∈ replaySource, (∀ e ∈ edges, e.stream ≠ some p.2.streamId) ∧
    replaySource.lookup p.2.streamId = none

namespace Restore

def topLevelAncestor (id : GlobalNodeId) : Option NodeId := id.head?

/-- The inputs of a node: its streams with their origins, and the nodes that it depends on or that
depend on it. -/
def inputsOf (edges : List Edge) (node : NodeId) : List (Option StreamId × NodeId) :=
  (edges.filter fun e => e.target == node && e.stream.isSome).map (fun e => (e.stream, e.source)) ++
  (edges.filter fun e => e.target == node && e.isDependency).map (fun e => (none, e.source)) ++
  (edges.filter fun e => e.source == node && e.isDependency).map (fun e => (none, e.target))

variable (replaySource : List (StreamId × ReplayStream))

section

variable (needBackfill : List NodeId)

/-- The replay source of a stream, unless it needs to be backfilled itself. -/
def usableSource (stream : StreamId) : Option ReplayStream :=
  (replaySource.lookup stream).filter fun r => !needBackfill.contains r.localNodeId

def producer (input : Option StreamId × NodeId) : NodeId :=
  match input.1.bind (usableSource replaySource needBackfill) with
  | some r => r.localNodeId
  | none => input.2

/-- The state of the loop of `restore`; `new` are the nodes that were added last. -/
structure State where
  edges : List Edge
  replaySources : List (NodeId × StreamId)
  participate : List NodeId
  new : List NodeId

/-- A node is added to two sets unless it is in the first one. -/
def addNode (sets : List NodeId × List NodeId) (node : NodeId) : List NodeId × List NodeId :=
  if node ∈ sets.1 then sets else (sets.1 ++ [node], sets.2 ++ [node])

/-- The edge that replaces an edge of a stream that is replayed. -/
def replayEdge (r : ReplayStream) (e : Edge) : Edge :=
  ⟨r.localNodeId, e.target, r.originNodeId, some r.streamId, e.ownershipPreference⟩

def addReplayEdges (edges : List Edge) (stream : StreamId) (r : ReplayStream) : List Edge :=
  edges ++ (edges.filter fun e => decide (e.stream = some stream)).map (replayEdge r)

/-- A stream is connected to its replay source, if the source has not been used before. -/
def connect (state : List Edge × List (NodeId × StreamId)) (replay : StreamId × ReplayStream) :
    List Edge × List (NodeId × StreamId) :=
  if replay.2.localNodeId ∈ state.2.map Prod.fst then state
  else (addReplayEdges state.1 replay.1 replay.2,
    state.2 ++ [(replay.2.localNodeId, replay.2.streamId)])

/-- The streams of some inputs that can be replayed, in the order of their numbers. -/
def replayStreams (inputs : List (Option StreamId × NodeId)) : List (StreamId × ReplayStream) :=
  ((inputs.filterMap fun input => input.1.bind fun stream =>
    (usableSource replaySource needBackfill stream).map fun r => (stream, r)).dedup).insertionSort
      fun p q => p.1 ≤ q.1

def computeReplayNodesStep (s : State) : State :=
  let inputs := s.new.flatMap (inputsOf s.edges)
  let sets := (inputs.map (producer replaySource needBackfill)).foldl addNode (s.participate, [])
  let connected := (replayStreams replaySource needBackfill inputs).foldl connect
    (s.edges, s.replaySources)
  ⟨connected.1, connected.2, sets.1, sets.2⟩

end

/-- The loop of `restore`, for at most `rounds` rounds. -/
def loop (replaySource : List (StreamId × ReplayStream)) (needBackfill : List NodeId) :
    ℕ → State → Option State
  | 0, s => if s.new.isEmpty then some s else none
  | rounds + 1, s =>
    if s.new.isEmpty then some s
    else loop replaySource needBackfill rounds
      (computeReplayNodesStep replaySource needBackfill s)

/-- The nodes that need to be backfilled: nested circuits are backfilled as a whole. -/
def needBackfill (missing : List GlobalNodeId) : List NodeId :=
  (missing.filterMap topLevelAncestor).dedup

/-- `restore` up to the end of its loop, for the nodes that have no checkpoint. -/
def plan (circuit : ReplayCircuit) (missing : List GlobalNodeId) (rounds : ℕ) : Option State :=
  loop circuit.replaySource (needBackfill missing) rounds
    ⟨circuit.edges, [], needBackfill missing, needBackfill missing⟩

section

variable (circuit : ReplayCircuit) (need : List NodeId)

/-- The nodes that backfilling calls for: each brings in the producers of its inputs. -/
inductive Pulled : NodeId → Prop
  | need {n : NodeId} : n ∈ need → Pulled n
  | input {n : NodeId} {input : Option StreamId × NodeId} : Pulled n →
      input ∈ inputsOf circuit.edges n → Pulled (producer circuit.replaySource need input)

def Replayed (stream : StreamId) (r : ReplayStream) : Prop :=
  ∃ e ∈ circuit.edges, Pulled circuit need e.target ∧ e.stream = some stream ∧
    usableSource circuit.replaySource need stream = some r

structure Separate : Prop where
  sources : ∀ stream r stream' r', Replayed circuit need stream r →
    Replayed circuit need stream' r' → r.localNodeId = r'.localNodeId → stream = stream'
  origins : ∀ e ∈ circuit.edges, Pulled circuit need e.target → ∀ stream r,
    e.stream = some stream → Replayed circuit need stream r → ¬ Pulled circuit need e.source

/-- Every participating node that is not a replay source gets each of its streams from the origin of
the stream or from a replay source that has a checkpoint, and not from both. -/
def SuppliedOnce (s : State) : Prop :=
  ∀ e ∈ circuit.edges, e.target ∈ s.participate → e.target ∉ s.replaySources.map Prod.fst →
    ∀ stream, e.stream = some stream →
      Xor (e.source ∈ s.participate)
        (∃ r, circuit.replaySource.lookup stream = some r ∧ r.localNodeId ∉ need ∧
          r.localNodeId ∈ s.participate ∧ replayEdge r e ∈ s.edges)

end

section

variable {replaySource : List (StreamId × ReplayStream)} {need : List NodeId}

variable {stream : StreamId} {n : NodeId} {r : ReplayStream}

theorem usableSource_eq_some :
    usableSource replaySource need stream = some r ↔
      replaySource.lookup stream = some r ∧ r.localNodeId ∉ need := by
  simp [usableSource, Option.filter_eq_some_iff]

theorem usableSource_mem (h : usableSource replaySource need stream = some r) :
    (stream, r) ∈ replaySource := by
  obtain ⟨l₁, l₂, rfl, -⟩ := lookup_eq_some_iff.mp (usableSource_eq_some.mp h).1
  exact mem_append_right _ mem_cons_self

theorem producer_some (h : usableSource replaySource need stream = some r) :
    producer replaySource need (some stream, n) = r.localNodeId := by
  simp [producer, h]

theorem producer_none (h : usableSource replaySource need stream = none) :
    producer replaySource need (some stream, n) = n := by
  simp [producer, h]

theorem mem_inputsOf {edges : List Edge} {input : Option StreamId × NodeId} :
    input ∈ inputsOf edges n ↔ ∃ e ∈ edges,
      (e.target = n ∧ e.stream.isSome ∧ input = (e.stream, e.source)) ∨
      (e.target = n ∧ e.isDependency ∧ input = (none, e.source)) ∨
      (e.source = n ∧ e.isDependency ∧ input = (none, e.target)) := by
  simp only [inputsOf, mem_append, mem_map, mem_filter, Bool.and_eq_true, beq_iff_eq]
  grind

theorem mem_replayStreams {inputs : List (Option StreamId × NodeId)}
    {p : StreamId × ReplayStream} : p ∈ replayStreams replaySource need inputs ↔
      (∃ n, (some p.1, n) ∈ inputs) ∧ usableSource replaySource need p.1 = some p.2 := by
  rw [replayStreams, (perm_insertionSort _ _).mem_iff, mem_dedup, mem_filterMap]
  constructor
  · rintro ⟨⟨_ | stream, n⟩, hin, hp⟩
    · cases hp
    · obtain ⟨r, hr, rfl⟩ := Option.map_eq_some_iff.mp hp
      exact ⟨⟨n, hin⟩, hr⟩
  · rintro ⟨⟨n, hin⟩, hr⟩
    exact ⟨_, hin, by simp [hr]⟩

theorem foldl_addNode (nodes : List NodeId) (sets : List NodeId × List NodeId) :
    (∀ n, n ∈ (nodes.foldl addNode sets).1 ↔ n ∈ sets.1 ∨ n ∈ nodes) ∧
      ∀ n, n ∈ (nodes.foldl addNode sets).2 ↔ n ∈ sets.2 ∨ (n ∈ nodes ∧ n ∉ sets.1) := by
  induction nodes generalizing sets with
  | nil => simp
  | cons node nodes ih =>
    simp only [foldl_cons, ih, addNode]
    split <;> grind

end

end Restore

end Feldera.Circuit
