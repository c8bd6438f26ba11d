import PelicanQ.Daemon.Grpc

/-! # The HTTP interface

`api.rs`: the routes that work on a queue.  They answer for themselves in every
case, so a handler never ends early.
-/

namespace PelicanQ.Http

open Daemon (Task core clientWrite newV4)

/-- The body of a response. -/
inductive Body where
  | null
  | error (text : String)
  | id (id : String)
  | status (text : String)
  | delivery (deliveryTag : UInt64) (id payloadBase64 : String) (headers : List (String × String))
      (timestamp : Int64)
  deriving DecidableEq, Repr

structure Response where
  statusCode : Nat
  body : Body
  /-- The header `x-pelican-leader-addr`. -/
  leaderAddr : Option String := none
  deriving DecidableEq, Repr

/-- The texts that other crates read and write: base64, with the standard alphabet and padding, and
    header values. -/
structure Formats where
  toBase64 : Bytes → String
  ofBase64 : String → Except String Bytes
  /-- `HeaderValue::from_str` takes the text. -/
  isHeaderValue : String → Bool

def mapError (e : PelicanError) : Response :=
  match e with
  | .queueNotFound _ => ⟨404, .error e.display, none⟩
  | .queueAlreadyExists _ => ⟨409, .error e.display, none⟩
  | .invalidDeliveryTag _ => ⟨400, .error e.display, none⟩
  | .storageLimitExceeded .. => ⟨413, .error e.display, none⟩
  | .messageDeadLettered .. => ⟨200, .error e.display, none⟩
  | _ => ⟨500, .error e.display, none⟩

/-- An address that is not a header value panics. -/
def notLeaderResponse (formats : Formats) (leaderNode : Option Node) : Task Empty Response :=
  match leaderNode with
  | some node =>
      if node.clientAddr.isEmpty then pure ⟨421, .error "not leader", none⟩
      else if formats.isHeaderValue node.clientAddr then
        pure ⟨421, .error "not leader", some node.clientAddr⟩
      else .panic
  | none => pure ⟨421, .error "not leader", none⟩

def flockErrorResponse (msg : String) : Response := ⟨500, .error msg, none⟩

/-- `Message::new`. -/
def newMessage (payload : Bytes) (headers : List (String × String)) (id : Uuid) (now : Int64) :
    Message where
  id := id
  payload := payload
  headers := headers
  timestamp := now
  deliveryAttempts := 0
  priority := 0
  deliverAt := none
  dedupKey := none

section Routes

variable (bc : Bincode) (uuid : UuidText) (formats : Formats) (engine : AppEngine)

/-- What every route does: the operation on the manager, or the same operation
    through consensus, with the response that is expected of it. -/
def answer {α : Type} (direct : Action α) (op : QueueOperation)
    (expected : QueueOperationResponse → Option (Except PelicanError α))
    (respond : α → Response) : Task Empty Response :=
  match engine with
  | .solo => do
      match ← core direct with
      | .ok value => pure (respond value)
      | .error e => pure (mapError e)
  | .flock => do
      match ← clientWrite bc op with
      | .ok response =>
          match expected response with
          | some (.ok value) => pure (respond value)
          | some (.error e) => pure (mapError e)
          | none => pure (flockErrorResponse "unexpected response type")
      | .notLeader leaderNode => notLeaderResponse formats leaderNode
      | .error msg => pure (flockErrorResponse msg)

def declareQueue (name : String) : Task Empty Response :=
  answer bc formats engine (QueueManager.declareQueue bc name) (.declareQueue name default)
    (·.asDeclareQueue) fun _ => ⟨201, .null, none⟩

def publish (name payloadBase64 : String) (headers : List (String × String)) :
    Task Empty Response :=
  match formats.ofBase64 payloadBase64 with
  | .error e => pure ⟨400, .error ("invalid base64: " ++ e), none⟩
  | .ok payload => do
      let msgId ← newV4
      let now ← .ask (.core .nowMs)
      let message := newMessage payload headers msgId now
      answer bc formats engine (QueueManager.publish bc name message) (.publish name message)
        (·.asPublish) fun
          | .stored _ => ⟨201, .id (uuid.toText msgId), none⟩
          | .deduplicated => ⟨200, .status "deduplicated", none⟩

def consume (name : String) : Task Empty Response :=
  answer bc formats engine (QueueManager.consume bc name) (.consume name) (·.asConsume) fun
    | some (tag, msg) => ⟨200, .delivery tag (uuid.toText msg.id) (formats.toBase64 msg.payload)
        msg.headers msg.timestamp, none⟩
    | none => ⟨204, .null, none⟩

def ack (name : String) (deliveryTag : DeliveryTag) : Task Empty Response :=
  answer bc formats engine (QueueManager.ack name deliveryTag) (.ack name deliveryTag) (·.asAck)
    fun _ => ⟨200, .null, none⟩

def nack (name : String) (deliveryTag : DeliveryTag) : Task Empty Response :=
  answer bc formats engine (QueueManager.nack bc name deliveryTag) (.nack name deliveryTag) (·.asNack)
    fun _ => ⟨200, .null, none⟩

end Routes

end PelicanQ.Http
