import Feldera.Algebra.Machine
import Feldera.Exchange.Layout

/-!
`Exchange`. In every round each worker sends one value to every worker and receives one from every
worker. `try_send_all` starts a round of a sender once all its mailboxes are free, and
`try_receive_all` one of a receiver once all its mailboxes are full; both fail otherwise and are called
again. Within a host they share the mailboxes. What goes to other hosts is collected by a task, which
the last local sender of the round spawns, and is sent to one host after the other: the future of a
remote call does nothing before it is awaited, and the call returns after the receivers have picked up
their values.

The threads are the two sides of every worker and the task of every host, which includes the handlers
of the calls that the task makes. A program is the list of the accesses to shared memory that a thread
makes in a round.
-/

namespace Feldera.Exchange

open Function

inductive Thread
  | sender (worker : ℕ)
  | receiver (worker : ℕ)
  | task (host : ℕ)
deriving DecidableEq

inductive Party
  | sender (worker : ℕ)
  | receiver (worker : ℕ)
deriving DecidableEq

inductive Instr
  /-- The sender writes a value into a mailbox. -/
  | write (sender receiver : ℕ)
  /-- The sender adds to `receiver_counters` of a local receiver. -/
  | credit (sender receiver : ℕ)
  /-- The sender adds to `sent`, and returns unless it is the last of its host. -/
  | arrive (sender : ℕ)
  /-- The last sender stores zero into `sent`. -/
  | reset (sender : ℕ)
  /-- The last sender spawns the task. -/
  | spawn (sender : ℕ)
  /-- The task takes a value out of a mailbox. -/
  | collect (sender receiver : ℕ)
  /-- The handler of a call puts a value into a mailbox of its host. -/
  | deliver (sender receiver : ℕ)
  /-- The handler adds to `receiver_counters` for all senders of a host. -/
  | creditAll (host receiver : ℕ)
  /-- The handler waits until a value has been picked up. -/
  | await (sender receiver : ℕ)
  /-- The task adds to `sender_counters` for all remote receivers. -/
  | release (sender : ℕ)
  /-- The receiver takes a value out of a mailbox and passes it on. -/
  | pick (sender receiver : ℕ)
  /-- The receiver adds to `sender_counters` of a local sender. -/
  | acknowledge (sender receiver : ℕ)
  /-- The receiver notifies the handler that waits for the value of a remote sender. -/
  | notify (sender receiver : ℕ)
deriving DecidableEq

namespace Layout

variable (L : Layout)

def mailboxIndex (sender receiver : ℕ) : ℕ := sender * L.nWorkers + receiver

/-- `sender_notify`: the index among the notifications of a host. -/
def senderNotify (host sender receiver : ℕ) : ℕ :=
  let senderOfs := if L.start host ≤ sender then sender - L.size host else sender
  let receiverOfs := receiver - L.start host
  senderOfs * L.size host + receiverOfs

/-- `try_send_all` after its counter has been reset. -/
def sendProgram (sender : ℕ) : List Instr :=
  let localWorkers := L.localWorkers (L.hostOf sender)
  (List.range L.nWorkers).flatMap (fun receiver =>
    if receiver ∈ localWorkers then [.write sender receiver, .credit sender receiver]
    else [.write sender receiver]) ++
  if L.nWorkers = localWorkers.length then [] else [.arrive sender, .reset sender, .spawn sender]

/-- `try_receive_all` after its counter has been reset. -/
def receiveProgram (receiver : ℕ) : List Instr :=
  (List.range L.nWorkers).flatMap fun sender =>
    [.pick sender receiver,
      if sender ∈ L.localWorkers (L.hostOf receiver) then .acknowledge sender receiver
      else .notify sender receiver]

/-- `received`, called on one host by the task of another. -/
def received (host other : ℕ) : List Instr :=
  (L.localWorkers host).flatMap (fun sender => (L.localWorkers other).map (.deliver sender)) ++
  (L.localWorkers other).map (.creditAll host) ++
  (L.localWorkers host).flatMap fun sender => (L.localWorkers other).map (.await sender)

/-- The task that `try_send_all` spawns. -/
def taskProgram (host : ℕ) : List Instr :=
  (L.otherHosts host).flatMap (fun other =>
    (L.localWorkers host).flatMap fun sender => (L.localWorkers other).map (.collect sender)) ++
  (L.otherHosts host).flatMap (L.received host) ++
  (L.localWorkers host).map .release

def program : Thread → List Instr
  | .sender worker => L.sendProgram worker
  | .receiver worker => L.receiveProgram worker
  | .task host => L.taskProgram host

end Layout

/-- The exchange on all hosts. `rounds` and `rest` say how many rounds a thread has begun and what is
left of the last one. Mailboxes and notifications are those of a host, by their index. `items` are the
values that a task has collected and not yet delivered. `owed` are the callbacks that a thread has
found that it has to invoke, `invoked` those it has invoked, and `received` what a receiver has got in
a round. -/
structure State (T : Type*) where
  rounds : Thread → ℕ
  rest : Thread → List Instr
  mailboxes : ℕ → ℕ → Option T
  receiverCounters : ℕ → ℕ
  senderCounters : ℕ → ℕ
  sent : ℕ → ℕ
  senderNotifies : ℕ → ℕ → Bool
  items : ℕ → ℕ → Option T
  owed : List Party
  invoked : List Party
  received : ℕ → ℕ → List T

/-- Where the code panics. `overlap` is not a panic: it stands for a task that would be spawned while
another one of its host is running, which the machine cannot represent. -/
inductive Panic
  | emptyMailbox
  | occupiedMailbox
  | overlap
deriving DecidableEq

namespace State

variable {T : Type*} (L : Layout) (x : State T)

/-- The fields that `Exchange::new` and `InnerExchange::new` set. -/
def new : State T where
  rounds _ := 0
  rest _ := []
  mailboxes _ _ := none
  receiverCounters _ := 0
  senderCounters _ := L.nWorkers
  sent _ := 0
  senderNotifies _ _ := false
  items _ _ := none
  owed := []
  invoked := []
  received _ _ := []

variable (host sender receiver : ℕ)

def mailbox : Option T :=
  x.mailboxes host (L.mailboxIndex sender receiver)

def setMailbox (value : Option T) : State T :=
  { x with
    mailboxes := Function.update x.mailboxes host
      (Function.update (x.mailboxes host) (L.mailboxIndex sender receiver) value) }

def notified : Bool :=
  x.senderNotifies host (L.senderNotify host sender receiver)

def setNotified (value : Bool) : State T :=
  { x with
    senderNotifies := Function.update x.senderNotifies host
      (Function.update (x.senderNotifies host) (L.senderNotify host sender receiver) value) }

def setItem (sender receiver : ℕ) (value : Option T) : State T :=
  { x with
    items := Function.update x.items sender
      (Function.update (x.items sender) receiver value) }

/-- `receiver_counters[receiver].fetch_add(n)` and what follows from the old value. The callback does
not touch the exchange, so that its invocation is an action of its own. -/
def addReceiver (receiver n : ℕ) : State T :=
  let old := x.receiverCounters receiver
  { x with
    receiverCounters := Function.update x.receiverCounters receiver (old + n)
    owed := if L.nWorkers - n ≤ old then .receiver receiver :: x.owed else x.owed }

/-- `sender_counters[sender].fetch_add(n)` and what follows from the old value. -/
def addSender (sender n : ℕ) : State T :=
  let old := x.senderCounters sender
  { x with
    senderCounters := Function.update x.senderCounters sender (old + n)
    owed := if L.nWorkers - n ≤ old then .sender sender :: x.owed else x.owed }

def setSent (host n : ℕ) : State T :=
  { x with sent := Function.update x.sent host n }

def receive (receiver : ℕ) (value : T) : State T :=
  let round := x.rounds (.receiver receiver) - 1
  { x with
    received := Function.update x.received receiver
      (Function.update (x.received receiver) round (x.received receiver round ++ [value])) }

def beginRound (thread : Thread) : State T :=
  { x with
    rounds := Function.update x.rounds thread (x.rounds thread + 1)
    rest := Function.update x.rest thread (L.program thread) }

def proceed (thread : Thread) (rest : List Instr) : State T :=
  { x with rest := Function.update x.rest thread rest }

/-- `try_send_all` finds its counter full and resets it. -/
def beginSend (worker : ℕ) : State T :=
  { x.beginRound L (.sender worker) with
    senderCounters := Function.update x.senderCounters worker 0 }

/-- `try_receive_all` finds its counter full and resets it. -/
def beginReceive (worker : ℕ) : State T :=
  { x.beginRound L (.receiver worker) with
    receiverCounters := Function.update x.receiverCounters worker 0 }

/-- The first access of a round: the compare-and-exchange of `try_send_all` and `try_receive_all`.
If it fails, nothing changes. -/
def attempt : Thread → State T
  | .sender worker =>
    if worker < L.nWorkers ∧ x.senderCounters worker = L.nWorkers then x.beginSend L worker else x
  | .receiver worker =>
    if worker < L.nWorkers ∧ x.receiverCounters worker = L.nWorkers then x.beginReceive L worker
    else x
  | .task _ => x

/-- A thread executes its next instruction, after which `rest` is left. `data` are the values that
the callers of `try_send_all` pass, by round, sender and receiver. -/
def exec (data : ℕ → ℕ → ℕ → T) (thread : Thread) (rest : List Instr) :
    Instr → Except Panic (State T)
  | .write s r =>
    let value := data (x.rounds thread - 1) s r
    .ok ((x.proceed thread rest).setMailbox L (L.hostOf s) s r (some value))
  | .credit _ r => .ok ((x.proceed thread rest).addReceiver L r 1)
  | .arrive s =>
    let host := L.hostOf s
    let sent := x.sent host + 1
    .ok ((x.proceed thread (if sent ≠ L.size host then [] else rest)).setSent host sent)
  | .reset s => .ok ((x.proceed thread rest).setSent (L.hostOf s) 0)
  | .spawn s =>
    let task := .task (L.hostOf s)
    if x.rest task = [] then .ok ((x.proceed thread rest).beginRound L task) else .error .overlap
  | .collect s r =>
    match x.mailbox L (L.hostOf s) s r with
    | none => .error .emptyMailbox
    | some value =>
      .ok (((x.proceed thread rest).setMailbox L (L.hostOf s) s r none).setItem s r (some value))
  | .deliver s r =>
    match x.mailbox L (L.hostOf r) s r with
    | some _ => .error .occupiedMailbox
    | none =>
      .ok (((x.proceed thread rest).setMailbox L (L.hostOf r) s r (x.items s r)).setItem s r none)
  | .creditAll h r => .ok ((x.proceed thread rest).addReceiver L r (L.size h))
  | .await s r =>
    if x.notified L (L.hostOf r) s r then
      .ok ((x.proceed thread rest).setNotified L (L.hostOf r) s r false)
    else .ok x
  | .release s =>
    .ok ((x.proceed thread rest).addSender L s (L.nWorkers - L.size (L.hostOf s)))
  | .pick s r =>
    match x.mailbox L (L.hostOf r) s r with
    | none => .error .emptyMailbox
    | some value =>
      .ok (((x.proceed thread rest).setMailbox L (L.hostOf r) s r none).receive r value)
  | .acknowledge s _ => .ok ((x.proceed thread rest).addSender L s 1)
  | .notify s r => .ok ((x.proceed thread rest).setNotified L (L.hostOf r) s r true)

variable {L x} {t u : Thread} {rest : List Instr}

theorem proceed_rest_self : (x.proceed t rest).rest t = rest := update_self ..

theorem proceed_rest_of_ne (h : u ≠ t) : (x.proceed t rest).rest u = x.rest u :=
  update_of_ne h ..

theorem beginRound_rest_of_ne (h : u ≠ t) : (x.beginRound L t).rest u = x.rest u :=
  update_of_ne h ..

theorem beginRound_rounds_self : (x.beginRound L t).rounds t = x.rounds t + 1 :=
  update_self ..

theorem beginRound_rounds_of_ne (h : u ≠ t) : (x.beginRound L t).rounds u = x.rounds u :=
  update_of_ne h ..

end State

/-- What happens next: a thread takes a step, or a callback that is owed is invoked. -/
inductive Action
  | step (thread : Thread)
  | callback (party : Party)
deriving DecidableEq

def next {T : Type*} (L : Layout) (data : ℕ → ℕ → ℕ → T) (x : State T) :
    Action → Except Panic (State T)
  | .step thread =>
    match x.rest thread with
    | [] => .ok (x.attempt L thread)
    | instr :: rest => x.exec L data thread rest instr
  | .callback party =>
    if party ∈ x.owed then
      .ok { x with owed := x.owed.erase party, invoked := party :: x.invoked }
    else .ok x

end Feldera.Exchange
