import Mathlib.Tactic

/-!
Circuit graphs. An edge leads from a node to one that reads the stream of the edge, or, if it has no
stream, to one that must be evaluated later. A consumer of a stream may insist on owning the
stream's values, and is then to be evaluated after all other consumers.
-/

namespace Feldera.Circuit

abbrev NodeId := ℕ

abbrev StreamId := ℕ

abbrev GlobalNodeId := List NodeId

abbrev OwnershipPreference := ℕ

def OwnershipPreference.stronglyPreferOwned : OwnershipPreference := 100

structure Edge where
  source : NodeId
  target : NodeId
  origin : GlobalNodeId
  stream : Option StreamId
  ownershipPreference : Option OwnershipPreference
deriving DecidableEq

def Edge.isDependency (e : Edge) : Bool := e.ownershipPreference.isNone

/-- The errors of schedulers. The node that `CyclicCircuit` names is not modelled. -/
inductive SchedulerError
  | ownershipConflict (origin : GlobalNodeId) (consumers : List NodeId)
  | cyclicCircuit
  | commitWithoutTransaction
  | stepWithoutTransaction
  | killed
  | tokioError
  | eval
deriving DecidableEq

variable (edges : List Edge)

def streams : List (GlobalNodeId × StreamId) :=
  (edges.filterMap fun e => e.stream.map fun stream => (e.origin, stream)).dedup

def consumers (key : GlobalNodeId × StreamId) : List (NodeId × Option OwnershipPreference) :=
  (edges.filter fun e => decide (e.stream = some key.2 ∧ e.origin = key.1)).map fun e =>
    (e.target, e.ownershipPreference)

def isStrong (preference : Option OwnershipPreference) : Bool :=
  preference.any fun p => decide (OwnershipPreference.stronglyPreferOwned ≤ p)

def streamConstraints (key : GlobalNodeId × StreamId) :
    Except SchedulerError (List (NodeId × NodeId)) :=
  let succ := consumers edges key
  match (succ.zipIdx.filter fun p => isStrong p.1.2) with
  | [] => .ok []
  | [strong] => .ok <| (succ.zipIdx.filter fun p => p.2 != strong.2 && p.1.2.isSome).map fun p =>
      (p.1.1, strong.1.1)
  | strong => .error (.ownershipConflict key.1 (strong.map fun p => p.1.1))

def ownershipConstraints : Except SchedulerError (List (NodeId × NodeId)) :=
  ((streams edges).mapM (streamConstraints edges)).map List.flatten

/-- Nodes are removed as long as they have no predecessor that is left. -/
def prune (edges : List (NodeId × NodeId)) : ℕ → List NodeId → List NodeId
  | 0, nodes => nodes
  | rounds + 1, nodes =>
    prune edges rounds (nodes.filter fun n => edges.any fun e => e.2 == n && nodes.contains e.1)

/-- `toposort` succeeds, that is, there is no cycle. -/
def isAcyclic (nodes : List NodeId) (edges : List (NodeId × NodeId)) : Bool :=
  (prune edges nodes.length nodes).isEmpty

structure CircuitGraph where
  nodeIds : List NodeId
  edges : List Edge
  isAsyncNode : NodeId → Bool

end Feldera.Circuit
