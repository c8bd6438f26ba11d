import PelicanQ.Core.Execution
import PelicanQ.Raft.Types

/-! # What the request handlers run in

The daemon serves one queue manager, either directly or through consensus, over
three protocols.  A handler is a program over the manager's own calls, its lock,
what consensus makes of each write handed to it, fresh message ids and the packets
it sends.

The manager is locked for the whole of a direct operation and for the whole of a
log entry, so neither is interrupted.  An operation that panics leaves the lock
poisoned: whoever takes it afterwards panics as well.  A state machine that
panicked applies nothing more, and who waits for it waits for ever; that is
counted as a panic, too.  A write that consensus takes has been applied by this
node's state machine when the handler goes on.
-/

namespace PelicanQ

inductive QoS where
  | atMostOnce
  | atLeastOnce
  | exactlyOnce
  deriving DecidableEq, Repr

/-- `qos as u8`. -/
def QoS.level : QoS → UInt8
  | .atMostOnce => 0
  | .atLeastOnce => 1
  | .exactlyOnce => 2

inductive SubscribeReasonCode where
  | success (qos : QoS)
  | failure
  deriving DecidableEq, Repr

/-- A packet of the MQTT codec, with the fields the handler reads or sets. -/
inductive Packet where
  | connect
  | connAck
  | publish (dup : Bool) (qos : QoS) (retain : Bool) (topic : String) (pkid : UInt16)
      (payload : Bytes)
  | pubAck (pkid : UInt16)
  | pubRec (pkid : UInt16)
  | pubRel (pkid : UInt16)
  | pubComp (pkid : UInt16)
  | subscribe (pkid : UInt16) (filters : List (String × QoS))
  | subAck (pkid : UInt16) (returnCodes : List SubscribeReasonCode)
  | unsubscribe (pkid : UInt16) (topics : List String)
  | unsubAck (pkid : UInt16)
  | pingReq
  | pingResp
  | disconnect
  deriving DecidableEq, Repr

/-- What consensus makes of a write on this node. -/
inductive Consensus where
  | applies
  | forwards (leaderNode : Option Node)
  | fails (message : String)
  deriving DecidableEq, Repr

inductive WriteResult where
  | ok (response : QueueOperationResponse)
  | notLeader (leaderNode : Option Node)
  | error (message : String)
  deriving DecidableEq

/-- Direct operations, or operations through consensus. -/
inductive AppEngine where
  | solo
  | flock
  deriving DecidableEq, Repr

namespace Daemon

/-- What a handler asks of its surroundings. -/
inductive Call : Type → Type 1 where
  | core {β : Type} (c : PelicanQ.Call β) : Call β
  /-- Take the manager's lock.  Was it poisoned? -/
  | lock : Call Bool
  | unlock : Call Unit
  | allocator : Call Allocator
  /-- Hand an operation to consensus. -/
  | consensus (op : QueueOperation) : Call Consensus
  | newV4 : Call Uuid
  | send (packet : Packet) : Call Bool

/-- The daemon around a handler: its manager, what consensus, the id generator
    and the socket will do next, the packets sent so far, and its memory. -/
structure World where
  machine : Machine
  consensus : Nat → Consensus
  uuids : Nat → Uuid
  socket : Nat → Bool
  sent : List Packet
  memory : Allocator
  /-- The manager's lock was taken and not given back. -/
  poisoned : Bool

def World.onMachine (w : World) (machine : Machine) : World := { w with machine := machine }

def handle (ids : Nat → UInt64) : Handler Call World
  | _, .core c, w =>
      let (answer, machine) := PelicanQ.handle ids _ c w.machine
      (answer, w.onMachine machine)
  | _, .lock, w => (w.poisoned, { w with poisoned := true })
  | _, .unlock, w => ((), { w with poisoned := false })
  | _, .allocator, w => (w.memory, w)
  | _, .consensus _, w => (w.consensus 0, { w with consensus := fun n => w.consensus (n + 1) })
  | _, .newV4, w => (w.uuids 0, { w with uuids := fun n => w.uuids (n + 1) })
  | _, .send packet, w =>
      (w.socket 0, { w with
        socket := fun n => w.socket (n + 1)
        sent := if w.socket 0 then w.sent ++ [packet] else w.sent })

/-- A handler that may end early with `ε`. -/
abbrev Task (ε α : Type) := Program Call ε α

/-- The daemon's manager and clock. -/
def World.manager (w : World) : QueueManager := w.machine.manager

section Tasks

variable {ε α : Type}

/-- An operation on the locked manager: `lock().unwrap()`, and the guard is dropped at the end. -/
def core (action : Action α) : Task ε (Except PelicanError α) := do
  if ← .ask .lock then .panic
  else do
    let result ← action.embed fun c => .core c
    .ask .unlock
    pure result

def newV4 : Task ε Uuid := .ask .newV4

/-- Write a packet to the socket; was it written? -/
def send (packet : Packet) : Task ε Bool := .ask (.send packet)

/-- `FlockHandle::client_write`. -/
def clientWrite (bc : Bincode) (op : QueueOperation) : Task ε WriteResult := do
  match ← .ask (.consensus op) with
  | .applies => do
      let memory ← .ask .allocator
      match ← core (applyOperation bc memory op) with
      | .ok response => pure (.ok response)
      -- applying an operation answers with its error and does not fail
      | .error e => pure (.error e.display)
  | .forwards leaderNode => pure (.notLeader leaderNode)
  | .fails message => pure (.error message)

end Tasks

/-- The manager a daemon starts with.  Only a direct one is given the configured limit. -/
def startManager (bc : Bincode) (ids : Nat → UInt64) (clock : Nat → Int64)
    (maxBytes : Option UInt64) (db : Sled.Db) : AppEngine → Outcome PelicanError Unit × QueueManager
  | .solo => QueueManager.open bc ids clock maxBytes db
  | .flock => openQueueManager bc ids clock db

/-! ## Running a handler -/

section Running

variable {ε α β : Type} (ids : Nat → UInt64) (w : World)

/-- The world after an operation on the manager.  The lock is given back if the operation ends. -/
def World.after (w : World) (r : Outcome PelicanError α × Machine) : World :=
  { w with machine := r.2, poisoned := !r.1.returns }

theorem World.after_returned {w : World} (fresh : w.poisoned = false)
    {r : Outcome PelicanError α × Machine} (returned : r.1.returns = true) :
    w.after r = w.onMachine r.2 := by
  rw [World.after, returned, Bool.not_true, ← fresh]
  rfl

@[simp] theorem World.after_manager (r : Outcome PelicanError α × Machine) :
    (w.after r).manager = r.2.manager := rfl

theorem run_core_poisoned {w : World} (poisoned : w.poisoned = true) (action : Action α) :
    (core action : Task ε _).run (handle ids) w = (.panicked, w) := by
  have same : { w with poisoned := true } = w := by
    rw [← poisoned]
  change (if w.poisoned then (.panic : Task ε _) else _).run (handle ids)
    { w with poisoned := true } = _
  rw [poisoned, if_pos rfl, same]
  rfl

theorem run_core {w : World} (fresh : w.poisoned = false) (action : Action α) :
    (core action : Task ε _).run (handle ids) w =
      ((action.run (PelicanQ.handle ids) w.machine).1.caught,
        w.after (action.run (PelicanQ.handle ids) w.machine)) := by
  have ran : (action.embed fun c => .core c : Task ε _).run (handle ids) { w with poisoned := true } =
      ((action.run (PelicanQ.handle ids) w.machine).1.caught,
        { w with machine := (action.run (PelicanQ.handle ids) w.machine).2, poisoned := true }) :=
    Program.run_embed (PelicanQ.handle ids) World.machine World.onMachine (fun _ _ => rfl)
      (fun _ _ _ => rfl) (fun _ => rfl) (fun _ _ _ => rfl) action { w with poisoned := true }
  change (if w.poisoned then (.panic : Task ε _) else _).run (handle ids)
    { w with poisoned := true } = _
  rw [fresh, if_neg Bool.false_ne_true, Program.run_bind, ran]
  cases action.run (PelicanQ.handle ids) w.machine with
  | mk outcome t => cases outcome <;> rfl

theorem run_core_bind {w : World} (fresh : w.poisoned = false) (action : Action α)
    (next : Except PelicanError α → Task ε β) :
    (core action >>= next).run (handle ids) w =
      Outcome.andThen ((action.run (PelicanQ.handle ids) w.machine).1.caught,
        w.after (action.run (PelicanQ.handle ids) w.machine)) fun result w =>
          (next result).run (handle ids) w := by
  rw [Program.run_bind, run_core ids fresh]

theorem run_core_bind_poisoned {w : World} (poisoned : w.poisoned = true) (action : Action α)
    (next : Except PelicanError α → Task ε β) :
    (core action >>= next).run (handle ids) w = (.panicked, w) := by
  rw [Program.run_bind, run_core_poisoned ids poisoned]
  rfl

/-- The world after consensus has decided on a write. -/
def World.decided (w : World) : World := { w with consensus := fun n => w.consensus (n + 1) }

/-- The world after a fresh id was drawn and the clock was read. -/
def World.stamped (w : World) : World :=
  { w with machine := w.machine.tick, uuids := fun n => w.uuids (n + 1) }

/-- The world after a packet was handed to the socket. -/
def World.wrote (w : World) (packet : Packet) : World :=
  { w with
    socket := fun n => w.socket (n + 1)
    sent := if w.socket 0 then w.sent ++ [packet] else w.sent }

theorem run_send (packet : Packet) (next : Bool → Task ε α) :
    (send packet >>= next).run (handle ids) w =
      (next (w.socket 0)).run (handle ids) (w.wrote packet) := rfl

theorem run_consensus (op : QueueOperation) (next : Consensus → Task ε α) :
    (Program.ask (.consensus op) >>= next).run (handle ids) w =
      (next (w.consensus 0)).run (handle ids) w.decided := rfl

theorem run_stamp (next : Uuid → Int64 → Task ε α) :
    (newV4 >>= fun id => Program.ask (.core .nowMs) >>= fun now => next id now).run (handle ids) w =
      (next (w.uuids 0) (w.machine.clock 0)).run (handle ids) w.stamped := rfl

variable {w} {bc : Bincode} {op : QueueOperation}

theorem run_clientWrite (bc : Bincode) (op : QueueOperation) (applies : w.consensus 0 = .applies) :
    (clientWrite bc op : Task ε _).run (handle ids) w =
      (core (applyOperation bc w.memory op) >>= fun result =>
        match result with
        | .ok response => pure (WriteResult.ok response)
        | .error e => pure (.error e.display)).run (handle ids) w.decided := by
  rw [clientWrite, run_consensus, applies]
  rfl

theorem run_clientWrite_applies {response : QueueOperationResponse} {t : Machine}
    (fresh : w.poisoned = false) (applies : w.consensus 0 = .applies)
    (ran : (applyOperation bc w.memory op).run (PelicanQ.handle ids) w.machine = (.ok response, t)) :
    (clientWrite bc op : Task ε _).run (handle ids) w =
      (.ok (.ok response), w.decided.onMachine t) := by
  have fresh' : w.decided.poisoned = false := fresh
  have machine : w.decided.machine = w.machine := rfl
  rw [run_clientWrite ids bc op applies, run_core_bind ids fresh', machine, ran]
  change (Outcome.ok (WriteResult.ok response), w.decided.after (.ok response, t)) = _
  rw [World.after_returned fresh' rfl]

/-- An operation that answers with how one method ended. -/
theorem run_clientWrite_attempt {action : Action α}
    {answers : Except PelicanError α → QueueOperationResponse} (fresh : w.poisoned = false)
    (attempts : applyOperation bc w.memory op =
      (action.attempt >>= fun result => pure (answers result)))
    (applies : w.consensus 0 = .applies) {outcome : Outcome PelicanError α} {t : Machine}
    {result : Except PelicanError α} (caught : outcome.caught = (.ok result : Outcome PelicanError _))
    (ran : action.run (PelicanQ.handle ids) w.machine = (outcome, t)) :
    (clientWrite bc op : Task ε _).run (handle ids) w =
      (.ok (.ok (answers result)), w.decided.onMachine t) := by
  refine run_clientWrite_applies ids fresh applies ?_
  rw [attempts, Program.run_bind, Program.run_attempt, ran, caught]
  rfl

/-- Nothing is applied once an operation has panicked. -/
theorem run_clientWrite_poisoned (poisoned : w.poisoned = true) (bc : Bincode) (op : QueueOperation)
    (applies : w.consensus 0 = .applies) :
    (clientWrite bc op : Task ε _).run (handle ids) w = (.panicked, w.decided) := by
  have poisoned' : w.decided.poisoned = true := poisoned
  rw [run_clientWrite ids bc op applies, run_core_bind_poisoned ids poisoned']

/-- A write that is not applied is no response, and changes nothing. -/
theorem run_clientWrite_declines (bc : Bincode) (op : QueueOperation)
    (declines : w.consensus 0 ≠ .applies) :
    ∃ result, (∀ response, result ≠ .ok response) ∧
      (clientWrite bc op : Task ε _).run (handle ids) w = (.ok result, w.decided) := by
  rw [clientWrite, run_consensus]
  cases decision : w.consensus 0 with
  | applies => exact absurd decision declines
  | forwards leaderNode => exact ⟨.notLeader leaderNode, nofun, rfl⟩
  | fails message => exact ⟨.error message, nofun, rfl⟩

end Running

end Daemon

end PelicanQ
