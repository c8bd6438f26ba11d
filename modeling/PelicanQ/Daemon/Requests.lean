import PelicanQ.Daemon.Http

/-! # Runs of a daemon

The requests of the two request-response protocols, and what a daemon answers to
a sequence of them.  A daemon that uses consensus is the leader of its cluster
here, so that every write it hands over is applied.
-/

namespace PelicanQ

inductive Http.Request where
  | declareQueue (name : String)
  | publish (name payloadBase64 : String) (headers : List (String × String))
  | consume (name : String)
  | ack (name : String) (deliveryTag : DeliveryTag)
  | nack (name : String) (deliveryTag : DeliveryTag)
  deriving DecidableEq, Repr

def Http.serve (bc : Bincode) (uuid : UuidText) (formats : Http.Formats) (engine : AppEngine) :
    Http.Request → Daemon.Task Empty Http.Response
  | .declareQueue name => Http.declareQueue bc formats engine name
  | .publish name payloadBase64 headers =>
      Http.publish bc uuid formats engine name payloadBase64 headers
  | .consume name => Http.consume bc uuid formats engine name
  | .ack name deliveryTag => Http.ack bc formats engine name deliveryTag
  | .nack name deliveryTag => Http.nack bc formats engine name deliveryTag

inductive Grpc.Request where
  | declareQueue (req : Grpc.DeclareQueueRequest)
  | publish (queue : String) (message : Option Grpc.ProtoMessage)
  | publishBatch (queue : String) (messages : List Grpc.ProtoMessage)
  | consume (queue : String)
  | consumeBatch (queue : String) (max : UInt32)
  | ack (queue : String) (deliveryTag : UInt64)
  | nack (queue : String) (deliveryTag : UInt64)
  deriving DecidableEq, Repr

/-- What a call returns. -/
inductive Grpc.Reply where
  | declared (created : Bool)
  | published (response : Grpc.PublishResponse)
  | publishedBatch (results : List Grpc.PublishResponse)
  | consumed (message : Option Grpc.ConsumedMessage)
  | consumedBatch (messages : List Grpc.ConsumedMessage)
  | acked
  | nacked
  deriving DecidableEq, Repr

def Grpc.serve (bc : Bincode) (uuid : UuidText) (engine : AppEngine) :
    Grpc.Request → Daemon.Task Grpc.Status Grpc.Reply
  | .declareQueue req => do
      let created ← Grpc.declareQueue bc engine req
      pure (.declared created)
  | .publish queue message => do
      let response ← Grpc.publish bc uuid engine queue message
      pure (.published response)
  | .publishBatch queue messages => do
      let results ← Grpc.publishBatch bc uuid engine queue messages
      pure (.publishedBatch results)
  | .consume queue => do
      let message ← Grpc.consume bc uuid engine queue
      pure (.consumed message)
  | .consumeBatch queue max => do
      let messages ← Grpc.consumeBatch bc uuid engine queue max
      pure (.consumedBatch messages)
  | .ack queue deliveryTag => do
      Grpc.ack bc engine queue deliveryTag
      pure .acked
  | .nack queue deliveryTag => do
      Grpc.nack bc engine queue deliveryTag
      pure .nacked

namespace Daemon

/-- For requests without payloads. -/
def noFormats : Http.Formats := ⟨fun _ => "", fun _ => .ok [], fun _ => true⟩

inductive Request where
  | http (request : Http.Request)
  | grpc (request : Grpc.Request)
  deriving DecidableEq, Repr

/-- The queue a request declares. -/
def Request.declares : Request → List String
  | .http (.declareQueue name) => [name]
  | .grpc (.declareQueue req) => [req.name]
  | _ => []

/-- How the handler of a request ended. -/
inductive Reply where
  | http (outcome : Outcome Empty Http.Response)
  | grpc (outcome : Outcome Grpc.Status Grpc.Reply)
  deriving DecidableEq

/-- A request, with the clock readings, the fresh ids and the memory its handler gets. -/
structure Arrival where
  request : Request
  clock : Nat → Int64
  uuids : Nat → Uuid
  memory : Allocator := ample

/-- The world a request is handled in, by a daemon whose writes are applied. -/
def Arrival.world (arrival : Arrival) (qm : QueueManager) (poisoned : Bool) : World :=
  ⟨⟨qm, arrival.clock⟩, fun _ => .applies, arrival.uuids, fun _ => true, [], arrival.memory,
    poisoned⟩

section Serving

variable (bc : Bincode) (uuid : UuidText) (formats : Http.Formats) (ids : Nat → UInt64)
  (engine : AppEngine)

def Request.serve (w : World) : Request → Reply × World
  | .http request =>
      ((Http.serve bc uuid formats engine request).run (handle ids) w).map .http id
  | .grpc request => ((Grpc.serve bc uuid engine request).run (handle ids) w).map .grpc id

def served (qm : QueueManager) (poisoned : Bool) (arrival : Arrival) : Reply × World :=
  arrival.request.serve bc uuid formats ids engine (arrival.world qm poisoned)

/-- What the daemon answers to the requests. -/
def replies (qm : QueueManager) (poisoned : Bool) : List Arrival → List Reply
  | [] => []
  | arrival :: rest =>
      let r := served bc uuid formats ids engine qm poisoned arrival
      r.1 :: replies r.2.manager r.2.poisoned rest

/-- The manager the requests leave. -/
def finalManager (qm : QueueManager) (poisoned : Bool) : List Arrival → QueueManager
  | [] => qm
  | arrival :: rest =>
      let r := served bc uuid formats ids engine qm poisoned arrival
      finalManager r.2.manager r.2.poisoned rest

end Serving

end Daemon

end PelicanQ
