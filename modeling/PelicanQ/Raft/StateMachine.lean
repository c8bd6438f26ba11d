import PelicanQ.Core.Runs
import PelicanQ.Core.Snapshot

/-! # The replicated state machine

`requests.rs` and `state_machine.rs`: the operations that go through the log and
what each replica does to its own queue manager when it applies one.  An error
of a method is part of the response; a panic is not caught.

`Replica` runs are sequences of log entries, each with the clock readings this
replica gets while it applies the entry.
-/

namespace PelicanQ

/-- A log entry's operation. -/
inductive QueueOperation where
  | declareQueue (name : String) (policy : RetentionPolicy)
  | publish (queue : String) (message : Message)
  | publishBatch (queue : String) (messages : List Message)
  | consume (queue : String)
  | consumeBatch (queue : String) (max : UInt64)
  | ack (queue : String) (tag : DeliveryTag)
  | nack (queue : String) (tag : DeliveryTag)
  | applyRetention (queue : String)
  | promoteScheduled (queue : String)
  deriving DecidableEq, Repr

inductive QueueOperationResponse where
  | declareQueue (result : Except PelicanError Unit)
  | publish (result : Except PelicanError PublishOutcome)
  | publishBatch (result : Except PelicanError (List PublishOutcome))
  | consume (result : Except PelicanError (Option (DeliveryTag × Message)))
  | consumeBatch (result : Except PelicanError (List (DeliveryTag × Message)))
  | ack (result : Except PelicanError Unit)
  | nack (result : Except PelicanError Unit)
  | applyRetention (result : Except PelicanError Nat)
  | promoteScheduled (result : Except PelicanError Nat)
  deriving DecidableEq

/-- Which reservations the allocator grants, by the number of deliveries that are to fit. -/
abbrev Allocator := UInt64 → Bool

/-- The allocator of a process that gets all the memory it asks for. -/
def ample : Allocator := fun _ => true

section Apply

open QueueManager

variable (bc : Bincode) (memory : Allocator)

/-- The loop of `PublishBatch`: the first error ends it. -/
def publishEach (queue : String) :
    List Message → List PublishOutcome → Action QueueOperationResponse
  | [], outcomes => pure (.publishBatch (.ok outcomes))
  | msg :: rest, outcomes => do
      match ← (publish bc queue msg).attempt with
      | .ok outcome => publishEach queue rest (outcomes ++ [outcome])
      | .error e => pure (.publishBatch (.error e))

/-- The loop of `ConsumeBatch`: an empty queue or an error ends it early. -/
def consumeEach (queue : String) :
    Nat → List (DeliveryTag × Message) → Action QueueOperationResponse
  | 0, results => pure (.consumeBatch (.ok results))
  | left + 1, results => do
      match ← (consume bc queue).attempt with
      | .ok (some delivery) => consumeEach queue left (results ++ [delivery])
      | .ok none => pure (.consumeBatch (.ok results))
      | .error e => pure (.consumeBatch (.error e))

/-- `Vec::with_capacity(max)`.  A reservation that is refused ends the process, and the operation
    never answers. -/
def reserve (max : UInt64) : Action Unit := if memory max then pure () else .panic

def applyOperation : QueueOperation → Action QueueOperationResponse
  | .declareQueue name policy => do
      let result ← if policy = default then (declareQueue bc name).attempt
        else (declareQueueWithRetention bc name policy).attempt
      pure (.declareQueue result)
  | .publish queue message => do
      let result ← (publish bc queue message).attempt
      pure (.publish result)
  | .publishBatch queue messages => publishEach bc queue messages []
  | .consume queue => do
      let result ← (consume bc queue).attempt
      pure (.consume result)
  | .consumeBatch queue max => do
      reserve memory max
      consumeEach bc queue max.toNat []
  | .ack queue tag => do
      let result ← (ack queue tag).attempt
      pure (.ack result)
  | .nack queue tag => do
      let result ← (nack bc queue tag).attempt
      pure (.nack result)
  | .applyRetention queue => do
      let result ← (applyRetention bc queue).attempt
      pure (.applyRetention result)
  | .promoteScheduled queue => do
      let result ← (promoteScheduled bc queue).attempt
      pure (.promoteScheduled result)

variable (json : Codec QueueManagerSnapshot)

def buildSnapshot : Action Bytes := do
  let snapshot ← exportSnapshot bc
  pure (json.encode snapshot)

def installSnapshot (data : Bytes) : Action Unit :=
  match json.decode data with
  | .error e => .fail (.serialization e)
  | .ok snapshot => restoreFromSnapshot bc snapshot

end Apply

/-- `open_queue_manager`. -/
def openQueueManager (bc : Bincode) (ids : Nat → UInt64) (clock : Nat → Int64) (db : Sled.Db) :
    Outcome PelicanError Unit × QueueManager :=
  QueueManager.open bc ids clock none db

/-! ## Replicas -/

/-- The queue a log entry is on. -/
def QueueOperation.on : QueueOperation → String
  | .declareQueue name _ => name
  | .publish queue _ | .publishBatch queue _ | .consume queue | .consumeBatch queue _ => queue
  | .ack queue _ | .nack queue _ | .applyRetention queue | .promoteScheduled queue => queue

/-- The messages a log entry publishes. -/
def QueueOperation.messages : QueueOperation → List Message
  | .publish _ message => [message]
  | .publishBatch _ messages => messages
  | _ => []

/-- The queue a log entry declares. -/
def QueueOperation.declares : QueueOperation → List String
  | .declareQueue name _ => [name]
  | _ => []

/-- A response without the delivery tags in it. -/
def QueueOperationResponse.untagged : QueueOperationResponse → QueueOperationResponse
  | .consume result => .consume (result.map (Option.map fun delivery => (0, delivery.2)))
  | .consumeBatch result => .consumeBatch (result.map (List.map fun delivery => (0, delivery.2)))
  | response => response

/-- A log entry's operation, with the clock readings a replica gets while it applies it.  A replica
    that is refused memory is gone; those that go on have what they ask for. -/
structure LogStep where
  op : QueueOperation
  clock : Nat → Int64

/-- The queue names a log declares or tries to. -/
def namesIn (log : List LogStep) : List String := log.flatMap fun step => step.op.declares

section Replica

variable (bc : Bincode) (ids : Nat → UInt64)

def applied (qm : QueueManager) (step : LogStep) :
    Outcome PelicanError QueueOperationResponse × QueueManager :=
  exec ids step.clock (applyOperation bc ample step.op) qm

def applyLog (qm : QueueManager) (log : List LogStep) : QueueManager :=
  log.foldl (fun qm step => (applied bc ids qm step).2) qm

/-- A store opened on an empty directory. -/
def emptyStore : QueueManager := (openQueueManager bc ids (fun _ => 0) .empty).2

/-- A replica opened on an empty directory that has applied a log. -/
def replica (log : List LogStep) : QueueManager := applyLog bc ids (emptyStore bc ids) log

/-- An empty store into which the snapshot another replica built is installed. -/
def caughtUp (json : Codec QueueManagerSnapshot) (ids' : Nat → UInt64) (clock : Nat → Int64)
    (qm : QueueManager) : Outcome PelicanError Unit × QueueManager :=
  Outcome.andThen ((exec ids clock (buildSnapshot bc json) qm).1, emptyStore bc ids')
    fun data store => exec ids' clock (installSnapshot bc json data) store

/-- What a replica answers while it applies a log. -/
def responses (qm : QueueManager) :
    List LogStep → List (Outcome PelicanError QueueOperationResponse)
  | [] => []
  | step :: log => (applied bc ids qm step).1 :: responses (applied bc ids qm step).2 log

theorem applyLog_append (qm : QueueManager) (log log' : List LogStep) :
    applyLog bc ids qm (log ++ log') = applyLog bc ids (applyLog bc ids qm log) log' :=
  List.foldl_append

theorem drawn_le_applyLog (qm : QueueManager) (log : List LogStep) :
    qm.db.drawn ≤ (applyLog bc ids qm log).db.drawn := by
  induction log generalizing qm with
  | nil => exact Nat.le_refl _
  | cons step log ih => exact (drawn_le_run ids ⟨qm, step.clock⟩ _).trans (ih _)

/-- The ids handed out for the first entries are among those for all. -/
theorem Increasing.upTo {bc : Bincode} {ids : Nat → UInt64} {qm : QueueManager}
    {log log' : List LogStep} (increasing : Increasing ids (applyLog bc ids qm (log ++ log'))) :
    Increasing ids (applyLog bc ids qm log) := by
  rw [applyLog_append] at increasing
  exact increasing.mono (Set.Iio_subset_Iio (drawn_le_applyLog bc ids _ log'))

end Replica

end PelicanQ
