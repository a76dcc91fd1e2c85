import Feldera.Algebra.Machine
import Feldera.Circuit.Graph

/-!
`DynamicScheduler`. A step evaluates every node of the circuit: a task is spawned once the
predecessors of its node are evaluated and the node is ready. Asynchronous nodes say that they are
ready by a callback, which puts them into a set and wakes the scheduler up. While a transaction is
being committed, a node is flushed before its evaluation if all its predecessors are flushed; the
flush may take the node several steps.

The scheduler runs concurrently with the evaluations that it has spawned and with whatever makes
asynchronous nodes ready. It is modelled as a machine whose actions are what the scheduler does
between two of its suspension points, in an arbitrary order, and what others do in the meantime.
The calls that the scheduler makes are recorded.
-/

namespace Feldera.Circuit

structure Position where
  total : ℕ
  offset : ℕ
deriving DecidableEq

inductive FlushState
  | unflushedDependencies (n : ℕ)
  | started (progress : Option Position)
  | completed (progress : Option Position)
deriving DecidableEq

structure Task where
  numPredecessors : ℕ
  successors : List NodeId
  isAsync : Bool
  unsatisfiedDependencies : ℕ
  isReady : Bool
  scheduled : Bool
  flushState : FlushState

inductive TransactionPhase
  | idle
  | started
  | committing (unflushed : ℕ)
  | commitComplete
deriving DecidableEq

inductive Evaluation
  | start (node : NodeId)
  | finish (node : NodeId)
deriving DecidableEq

inductive Flush
  | call (node : NodeId)
  | complete (node : NodeId)
deriving DecidableEq

/-- Where the scheduler is: outside of a step, in the loop of `do_step` with the number of tasks
that it has seen complete, or in the consensus that ends a committing step. -/
inductive Control
  | outside
  | looping (completed : ℕ)
  | consensus (result : Except SchedulerError Unit)

/-- The scheduler with what surrounds it. `notified` are the nodes that the next scan will see,
`permits` says that the scheduler will be woken up, and `notifying` counts the callbacks that have
put their node into the set but have not yet woken the scheduler up. `ready` is the state of the
nodes, `consumed` says of a running task that it has taken its input, and `owed` are the nodes that
became ready and have not yet invoked their callback. -/
structure Scheduler where
  nodes : List NodeId
  task : NodeId → Task
  handles : List NodeId
  waiting : Bool
  transactionPhase : TransactionPhase
  control : Control
  result : Except SchedulerError Unit
  notified : List NodeId
  permit : Bool
  notifying : ℕ
  ready : NodeId → Bool
  consumed : NodeId → Bool
  owed : List NodeId
  evaluations : List Evaluation
  flushes : List Flush

namespace Scheduler

/-- The edges that `prepare` takes: those of the circuit and the ownership constraints, as far as
they are between nodes that are to be scheduled. -/
def dependencies (circuit : CircuitGraph) (nodes : List NodeId)
    (constraints : List (NodeId × NodeId)) : List (NodeId × NodeId) :=
  ((circuit.edges.map fun e => (e.source, e.target)) ++ constraints).filter fun e =>
    nodes.contains e.1 && nodes.contains e.2

def newTask (circuit : CircuitGraph) (edges : List (NodeId × NodeId)) (node : NodeId) : Task :=
  let numPredecessors := (edges.filter fun e => e.2 == node).length
  let isAsync := circuit.isAsyncNode node
  { numPredecessors := numPredecessors
    successors := (edges.filter fun e => e.1 == node).map Prod.snd
    isAsync := isAsync
    unsatisfiedDependencies := numPredecessors
    isReady := !isAsync
    scheduled := false
    flushState := .unflushedDependencies numPredecessors }

/-- `prepare`. `ready` is the state of the nodes when the callbacks are registered. -/
def prepare (circuit : CircuitGraph) (nodes : Option (List NodeId)) (ready : NodeId → Bool) :
    Except SchedulerError Scheduler := do
  let nodes := (nodes.getD circuit.nodeIds).dedup
  let constraints ← ownershipConstraints circuit.edges
  if isAcyclic circuit.nodeIds
      ((circuit.edges.map fun e => (e.source, e.target)) ++ constraints) then
    let edges := dependencies circuit nodes constraints
    let notified := nodes.filter fun n => circuit.isAsyncNode n && ready n
    .ok
      { nodes := nodes
        task := newTask circuit edges
        handles := []
        waiting := false
        transactionPhase := .idle
        control := .outside
        result := .ok ()
        notified := notified
        permit := !notified.isEmpty
        notifying := 0
        ready := ready
        consumed := fun _ => false
        owed := []
        evaluations := []
        flushes := [] }
  else .error .cyclicCircuit

/-- Why the machine stops: the action is not possible, or the scheduler panics. -/
inductive Stop
  | disabled
  | panic
deriving DecidableEq

def modify (node : NodeId) (f : Task → Task) (s : Scheduler) : Scheduler :=
  { s with task := Function.update s.task node (f (s.task node)) }

variable (s : Scheduler)

variable (node : NodeId)

/-- Whether `spawn_task` flushes the node. -/
def flushes? : Bool :=
  match s.transactionPhase with
  | .committing _ => decide ((s.task node).flushState = .unflushedDependencies 0)
  | _ => false

def spawnTask (s : Scheduler) : Scheduler :=
  let flush := s.flushes? node
  { s.modify node fun task => { task with
      scheduled := true
      flushState := if flush then .started none else task.flushState } with
    waiting := if s.handles.isEmpty then false else s.waiting
    handles := s.handles ++ [node]
    consumed := Function.update s.consumed node false
    evaluations := s.evaluations ++ [.start node]
    flushes := if flush then s.flushes ++ [.call node] else s.flushes }

/-- The flush state of a successor of a node whose evaluation has ended; a node that is itself being
flushed cannot have a predecessor that is not flushed yet. -/
def satisfyFlush (flushComplete : Bool) (state : FlushState) : Option FlushState :=
  if flushComplete then
    match state with
    | .unflushedDependencies (n + 1) => some (.unflushedDependencies n)
    | _ => none
  else some state

/-- A task whose node can be evaluated is spawned. -/
def spawnIfReady (s : Scheduler) : Scheduler :=
  if (s.task node).unsatisfiedDependencies = 0 ∧ (s.task node).isReady then s.spawnTask node else s

/-- One round of `schedule_successors`. -/
def scheduleSuccessor (flushComplete : Bool) (succ : NodeId) (s : Scheduler) :
    Except Stop Scheduler :=
  match (s.task succ).unsatisfiedDependencies,
    satisfyFlush flushComplete (s.task succ).flushState with
  | unsatisfied + 1, some flushState =>
    .ok (spawnIfReady succ (s.modify succ fun task => { task with
      unsatisfiedDependencies := unsatisfied
      flushState := flushState }))
  | _, _ => .error .panic

def scheduleSuccessors (flushComplete : Bool) : List NodeId → Scheduler → Except Stop Scheduler
  | [], s => .ok s
  | succ :: rest, s =>
    (scheduleSuccessor flushComplete succ s).bind (scheduleSuccessors flushComplete rest)

/-- One round of `process_notifications`. Duplicate and spurious notifications are ignored; one for
a task that was already scheduled takes effect in the next step. -/
def processNotification (id : NodeId) : Scheduler :=
  let task := s.task id
  if task.isReady = false ∧ s.ready id then
    let s := s.modify id fun task => { task with isReady := true }
    if task.unsatisfiedDependencies = 0 ∧ task.scheduled = false then s.spawnTask id else s
  else s

def processNotifications (nodes : List NodeId) (s : Scheduler) : Scheduler :=
  nodes.foldl processNotification s

def startTransaction : Scheduler :=
  { s with
    task := fun n => { s.task n with
      flushState := .unflushedDependencies (s.task n).numPredecessors }
    transactionPhase := .started
    result := .ok ()
    flushes := [] }

def startCommitTransaction : Scheduler :=
  match s.transactionPhase with
  | .started => { s with transactionPhase := .committing s.nodes.length, result := .ok () }
  | _ => { s with result := .error .commitWithoutTransaction }

def resetTasks : Scheduler :=
  { s with
    task := fun n => { s.task n with
      unsatisfiedDependencies := (s.task n).numPredecessors
      scheduled := false }
    waiting := false
    evaluations := [] }

variable (result : Except SchedulerError Unit)

/-- What `step` does once `do_step` has returned. -/
def returnFromStep (s : Scheduler) : Scheduler :=
  match s.transactionPhase with
  | .committing _ => { s with control := .consensus result }
  | _ => { s with control := .outside, result := result }

/-- `step` up to the loop of `do_step`; `order` is the order in which the tasks are visited. -/
def beginStep (order : List NodeId) (s : Scheduler) : Scheduler :=
  match s.transactionPhase with
  | .started | .committing _ =>
    if s.nodes.isEmpty then returnFromStep (.ok ()) { s with waiting := false, evaluations := [] }
    else
      let s := s.resetTasks
      let spawn := order.filter fun n =>
        decide ((s.task n).unsatisfiedDependencies = 0) && (s.task n).isReady
      { spawn.foldl (fun s n => s.spawnTask n) s with control := .looping 0 }
  | _ => { s with result := .error .stepWithoutTransaction }

/-- `abort`: the scheduler waits for the tasks that are running; they take their input. -/
def abort : Scheduler :=
  { s with
    handles := []
    ready := fun n => if n ∈ s.handles ∧ (s.task n).isAsync ∧ s.consumed n = false then false
      else s.ready n }

/-- How a task ends: it was cancelled, it failed or the runtime is being killed, or it has made
progress and the node says whether its flush is complete. -/
inductive Outcome
  | cancelled
  | failed (error : SchedulerError)
  | progress (progress : Option Position) (flushComplete : Bool)
deriving DecidableEq

/-- The flush state of a node whose evaluation has ended, and whether its flush is complete. -/
def endFlush (progress : Option Position) (flushComplete : Bool) (s : Scheduler) :
    Except Stop (Scheduler × Bool) :=
  match (s.task node).flushState with
  | .started _ =>
    if flushComplete then
      match s.transactionPhase with
      | .committing (unflushed + 1) =>
        .ok ({ s.modify node (fun task => { task with flushState := .completed progress }) with
          transactionPhase := .committing unflushed
          flushes := s.flushes ++ [.complete node] }, true)
      | _ => .error .panic
    else
      .ok (s.modify node fun task => { task with flushState := .started progress }, false)
  | _ => .ok (s, false)

/-- A task has ended, and its node is not known to be ready any more. -/
def finishTask (s : Scheduler) : Scheduler :=
  { s.modify node (fun task =>
      { task with isReady := if task.isAsync then false else task.isReady }) with
    handles := s.handles.erase node
    evaluations := s.evaluations ++ [.finish node] }

/-- The loop of `do_step` has received the result of a task. -/
def joinNext (outcome : Outcome) (completed : ℕ) (s : Scheduler) : Except Stop Scheduler :=
  match outcome with
  | .cancelled =>
    .ok (abort { s with handles := s.handles.erase node } |>.returnFromStep (.error .tokioError))
  | .failed error => .ok ((s.finishTask node).abort.returnFromStep (.error error))
  | .progress progress flushComplete =>
    match (s.finishTask node).endFlush node progress flushComplete with
    | .error stop => .error stop
    | .ok (s, flushComplete) =>
      if completed + 1 = s.nodes.length then .ok (s.returnFromStep (.ok ()))
      else
        match scheduleSuccessors flushComplete (s.task node).successors s with
        | .error stop => .error stop
        | .ok s => .ok { s with
            waiting := if s.handles.isEmpty then true else s.waiting
            control := .looping (completed + 1) }

/-- The end of `step` after the consensus: `others` is the vote of the other workers, if it could be
obtained. -/
def endStep (others : Option Bool) (s : Scheduler) : Scheduler :=
  match others with
  | none => { s with control := .outside, result := .error .killed }
  | some vote =>
    { s with
      control := .outside
      result := result
      transactionPhase :=
        if vote && decide (s.transactionPhase = .committing 0) then .commitComplete
        else s.transactionPhase }

inductive Action
  | startTransaction
  | startCommitTransaction
  /-- `step` is called. -/
  | step (order : List NodeId)
  /-- The loop receives the result of a task. -/
  | join (node : NodeId) (outcome : Outcome)
  /-- The loop is woken up by a notification. -/
  | wake (order : List NodeId)
  | consensus (others : Option Bool)
  /-- A running task of an asynchronous node takes the input of the node. -/
  | consume (node : NodeId)
  /-- An asynchronous node becomes ready. -/
  | becomeReady (node : NodeId)
  /-- A callback puts its node into the set. -/
  | callback (node : NodeId)
  /-- A callback wakes the scheduler up. -/
  | notifyOne

/-- What an action leads to. The scheduler is borrowed while it is in a step. -/
def next : Action → Except Stop Scheduler
  | .startTransaction =>
    match s.control with
    | .outside => .ok s.startTransaction
    | _ => .error .disabled
  | .startCommitTransaction =>
    match s.control with
    | .outside => .ok s.startCommitTransaction
    | _ => .error .disabled
  | .step order =>
    match s.control with
    | .outside => if order.Perm s.nodes then .ok (s.beginStep order) else .error .disabled
    | _ => .error .disabled
  | .join node outcome =>
    match s.control with
    | .looping completed =>
      if node ∈ s.handles ∧ ((s.task node).isAsync → s.consumed node ∨ outcome = .cancelled) then
        s.joinNext node outcome completed
      else .error .disabled
    | _ => .error .disabled
  | .wake order =>
    match s.control with
    | .looping _ =>
      if s.permit ∧ order.Perm s.notified then
        .ok (processNotifications order { s with permit := false, notified := [] })
      else .error .disabled
    | _ => .error .disabled
  | .consensus others =>
    match s.control with
    | .consensus result => .ok (s.endStep result others)
    | _ => .error .disabled
  | .consume node =>
    if node ∈ s.handles ∧ (s.task node).isAsync ∧ s.consumed node = false then
      .ok { s with
        ready := Function.update s.ready node false
        consumed := Function.update s.consumed node true }
    else .error .disabled
  | .becomeReady node =>
    if node ∈ s.nodes ∧ (s.task node).isAsync then
      .ok { s with
        ready := Function.update s.ready node true
        owed := if node ∈ s.owed then s.owed else s.owed ++ [node] }
    else .error .disabled
  | .callback node =>
    if node ∈ s.nodes ∧ (s.task node).isAsync then
      .ok { s with
        notified := if node ∈ s.notified then s.notified else s.notified ++ [node]
        notifying := s.notifying + 1
        owed := s.owed.erase node }
    else .error .disabled
  | .notifyOne =>
    match s.notifying with
    | 0 => .error .disabled
    | notifying + 1 => .ok { s with notifying := notifying, permit := true }

end Scheduler

end Feldera.Circuit
