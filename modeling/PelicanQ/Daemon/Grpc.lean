import PelicanQ.Daemon.Engine

/-! # The gRPC service

`grpc/queue_service.rs`: the unary calls.  Each has two branches, one that calls
the manager and one that hands an operation to consensus and reads the response
it expects out of the answer.
-/

namespace PelicanQ

/-- Uuids as text. -/
structure UuidText where
  toText : Uuid → String
  parse : String → Option Uuid
  parse_toText : ∀ id, parse (toText id) = some id

/-! ## The response an operation expects -/

namespace QueueOperationResponse

def asDeclareQueue : QueueOperationResponse → Option (Except PelicanError Unit)
  | .declareQueue result => some result
  | _ => none

def asPublish : QueueOperationResponse → Option (Except PelicanError PublishOutcome)
  | .publish result => some result
  | _ => none

def asPublishBatch : QueueOperationResponse → Option (Except PelicanError (List PublishOutcome))
  | .publishBatch result => some result
  | _ => none

def asConsume : QueueOperationResponse →
    Option (Except PelicanError (Option (DeliveryTag × Message)))
  | .consume result => some result
  | _ => none

def asConsumeBatch : QueueOperationResponse →
    Option (Except PelicanError (List (DeliveryTag × Message)))
  | .consumeBatch result => some result
  | _ => none

def asAck : QueueOperationResponse → Option (Except PelicanError Unit)
  | .ack result => some result
  | _ => none

def asNack : QueueOperationResponse → Option (Except PelicanError Unit)
  | .nack result => some result
  | _ => none

end QueueOperationResponse

namespace Grpc

open Daemon (Task core clientWrite newV4)

inductive Code where
  | invalidArgument
  | notFound
  | alreadyExists
  | resourceExhausted
  | failedPrecondition
  | internal
  | unavailable
  deriving DecidableEq, Repr

structure Status where
  code : Code
  message : String
  deriving DecidableEq, Repr

def pelicanErrorToStatus (e : PelicanError) : Status :=
  match e with
  | .queueNotFound _ => ⟨.notFound, e.display⟩
  | .queueAlreadyExists _ => ⟨.alreadyExists, e.display⟩
  | .storageLimitExceeded .. => ⟨.resourceExhausted, e.display⟩
  | .invalidDeliveryTag _ => ⟨.invalidArgument, e.display⟩
  | .messageDeadLettered .. => ⟨.failedPrecondition, e.display⟩
  | _ => ⟨.internal, e.display⟩

def writeResultToStatus : WriteResult → Task Status Unit
  | .ok _ => pure ()
  | .notLeader (some node) => .fail ⟨.unavailable, "not leader, leader at " ++ node.clientAddr⟩
  | .notLeader none => .fail ⟨.unavailable, "not leader"⟩
  | .error msg => .fail ⟨.internal, msg⟩

/-! ## Messages on the wire -/

structure ProtoMessage where
  id : String
  payload : Bytes
  headers : List (String × String)
  timestamp : Int64
  priority : UInt32
  deliverAt : Option Int64
  dedupKey : Option String
  deliveryAttempts : UInt32
  deriving DecidableEq, Repr

/-- What the manager is given of a message, once its id is settled. -/
def ProtoMessage.withId (msg : ProtoMessage) (id : Uuid) : Message where
  id := id
  payload := msg.payload
  headers := msg.headers
  timestamp := msg.timestamp
  deliveryAttempts := msg.deliveryAttempts
  priority := msg.priority.toUInt8
  deliverAt := msg.deliverAt
  dedupKey := msg.dedupKey

structure ConsumedMessage where
  deliveryTag : UInt64
  message : ProtoMessage
  deriving DecidableEq, Repr

structure PublishResponse where
  id : String
  deduplicated : Bool
  deriving DecidableEq, Repr

structure DeclareQueueRequest where
  name : String
  maxAgeSecs : Option UInt64
  maxMessages : Option UInt64
  maxDeliveryAttempts : Option UInt32
  dedupWindowSecs : Option UInt64
  deriving DecidableEq, Repr

def declareRequestToPolicy (req : DeclareQueueRequest) : RetentionPolicy where
  maxAgeSecs := req.maxAgeSecs
  maxMessages := req.maxMessages
  maxDeliveryAttempts := req.maxDeliveryAttempts
  dedupWindowSecs := req.dedupWindowSecs

section Conversions

variable (uuid : UuidText)

def coreMessageToProto (msg : Message) : ProtoMessage where
  id := uuid.toText msg.id
  payload := msg.payload
  headers := msg.headers
  timestamp := msg.timestamp
  priority := msg.priority.toUInt32
  deliverAt := msg.deliverAt
  dedupKey := msg.dedupKey
  deliveryAttempts := msg.deliveryAttempts

/-- An id that does not parse is replaced by a fresh one. -/
def protoMessageToCore {ε : Type} (msg : ProtoMessage) : Task ε Message :=
  match uuid.parse msg.id with
  | some id => pure (msg.withId id)
  | none => do
      let id ← newV4
      pure (msg.withId id)

/-- The messages of a batch, in order. -/
def protoMessagesToCore {ε : Type} : List ProtoMessage → Task ε (List Message)
  | [] => pure []
  | msg :: rest => do
      let msg ← protoMessageToCore uuid msg
      let rest ← protoMessagesToCore rest
      pure (msg :: rest)

def publishResponse : PublishOutcome → PublishResponse
  | .stored id => ⟨uuid.toText id, false⟩
  | .deduplicated => ⟨"", true⟩

def consumedMessage (delivery : DeliveryTag × Message) : ConsumedMessage :=
  ⟨delivery.1, coreMessageToProto uuid delivery.2⟩

/-- A message that was delivered can be published again as it is. -/
theorem protoMessageToCore_coreMessageToProto {ε : Type} (msg : Message) :
    (protoMessageToCore uuid (coreMessageToProto uuid msg) : Task ε Message) = .ret msg := by
  have narrowed : msg.priority.toUInt32.toUInt8 = msg.priority := UInt8.toUInt8_toUInt32 _
  simp only [protoMessageToCore, coreMessageToProto, uuid.parse_toText, ProtoMessage.withId,
    narrowed, Program.pure_eq]

end Conversions

/-! ## The calls -/

section Calls

variable (bc : Bincode) (uuid : UuidText) (engine : AppEngine)

/-- What every call does: the operation on the manager, or the same operation
    through consensus, with the response that is expected of it. -/
def answer {α : Type} (direct : Action α) (op : QueueOperation)
    (expected : QueueOperationResponse → Option (Except PelicanError α))
    (otherwise : String) : Task Status α :=
  match engine with
  | .solo => do
      match ← core direct with
      | .ok value => pure value
      | .error e => .fail (pelicanErrorToStatus e)
  | .flock => do
      let result ← clientWrite bc op
      match result with
      | .ok response =>
          match expected response with
          | some (.ok value) => pure value
          | some (.error e) => .fail (pelicanErrorToStatus e)
          | none => do
              writeResultToStatus result
              .fail ⟨.internal, otherwise⟩
      | _ => do
          writeResultToStatus result
          .fail ⟨.internal, otherwise⟩

/-- Was the queue created?  That it exists is no error. -/
def created : Except PelicanError Unit → Except PelicanError Bool
  | .ok () => .ok true
  | .error (.queueAlreadyExists _) => .ok false
  | .error e => .error e

/-- End with a result. -/
def endWith {α : Type} : Except PelicanError α → Action α
  | .ok value => pure value
  | .error e => .fail e

def declareQueue (req : DeclareQueueRequest) : Task Status Bool :=
  let policy := declareRequestToPolicy req
  answer bc engine
    (do
      let result ← (QueueManager.declareQueueWithRetention bc req.name policy).attempt
      endWith (created result))
    (.declareQueue req.name policy)
    (fun response => response.asDeclareQueue.map created)
    "unexpected response type"

def publish (queue : String) (message : Option ProtoMessage) : Task Status PublishResponse := do
  match message with
  | none => .fail ⟨.invalidArgument, "message is required"⟩
  | some message => do
      let msg ← protoMessageToCore uuid message
      let outcome ← answer bc engine (QueueManager.publish bc queue msg) (.publish queue msg)
        (·.asPublish) "unexpected response type"
      pure (publishResponse uuid outcome)

/-- The loop of `publish_batch` on the manager: the first error ends it. -/
def publishAll (queue : String) : List Message → List PublishResponse → Action (List PublishResponse)
  | [], results => pure results
  | msg :: rest, results => do
      let outcome ← QueueManager.publish bc queue msg
      publishAll queue rest (results ++ [publishResponse uuid outcome])

def publishBatch (queue : String) (messages : List ProtoMessage) :
    Task Status (List PublishResponse) := do
  let messages ← protoMessagesToCore uuid messages
  answer bc engine (publishAll bc uuid queue messages []) (.publishBatch queue messages)
    (fun response => response.asPublishBatch.map fun result =>
      result.map fun outcomes => outcomes.map (publishResponse uuid))
    "unexpected response type"

def consume (queue : String) : Task Status (Option ConsumedMessage) := do
  let delivery ← answer bc engine (QueueManager.consume bc queue) (.consume queue) (·.asConsume)
    "unexpected response type"
  pure (delivery.map (consumedMessage uuid))

/-- The loop of `consume_batch` on the manager: an empty queue or an error ends it early. -/
def consumeAll (queue : String) : Nat → List ConsumedMessage → Action (List ConsumedMessage)
  | 0, messages => pure messages
  | left + 1, messages => do
      match ← QueueManager.consume bc queue with
      | some delivery => consumeAll queue left (messages ++ [consumedMessage uuid delivery])
      | none => pure messages

def consumeBatch (queue : String) (max : UInt32) : Task Status (List ConsumedMessage) :=
  answer bc engine (consumeAll bc uuid queue max.toNat []) (.consumeBatch queue max.toUInt64)
    (fun response => response.asConsumeBatch.map fun result =>
      result.map fun items => items.map (consumedMessage uuid))
    "unexpected response type"

def ack (queue : String) (deliveryTag : UInt64) : Task Status Unit :=
  answer bc engine (QueueManager.ack queue deliveryTag) (.ack queue deliveryTag) (·.asAck)
    "unexpected response type"

def nack (queue : String) (deliveryTag : UInt64) : Task Status Unit :=
  answer bc engine (QueueManager.nack bc queue deliveryTag) (.nack queue deliveryTag) (·.asNack)
    "unexpected response type"

end Calls

end Grpc

end PelicanQ
