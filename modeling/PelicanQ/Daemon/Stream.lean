import PelicanQ.Daemon.Grpc
import PelicanQ.Daemon.Mqtt

/-! # The consuming stream

`consume_stream`: a task of its own for each call.  The client names a queue with
its first message and settles deliveries with the ones after it; the task consumes
at every pause and puts what it gets into a bounded channel, from which the client
takes it.  The task waits while the channel is full, and ends with the first error.

The client takes and the task sends independently, so a run of a stream is any
sequence of the acts below.
-/

namespace PelicanQ.Grpc

open Daemon (Task core clientWrite)

structure ConsumeStreamAck where
  queue : Option String
  deliveryTag : Option UInt64
  nackDeliveryTag : Option UInt64
  deriving DecidableEq, Repr

/-- What the client is sent: a delivery or the status that ends the stream. -/
abbrev Item := Except Status ConsumedMessage

structure Stream where
  queue : Option String
  /-- The task has not returned. -/
  running : Bool
  /-- What the task waits to send. -/
  sending : Option Item
  channel : List Item
  /-- The client can still take what is sent. -/
  receiving : Bool

/-- A stream whose task has just been spawned. -/
def Stream.new : Stream := ⟨none, true, none, [], true⟩

def streamSize : Nat := 64

/-- What happens next on a stream. -/
inductive StreamAct where
  /-- The client's next message, an error of the transport, or the end of its side. -/
  | inbound (message : Option (Except String ConsumeStreamAck))
  /-- The pause is over. -/
  | tick
  /-- The channel has room for what the task waits to send, or nobody receives. -/
  | send
  /-- The client takes an item. -/
  | take
  /-- The client stops receiving. -/
  | close

section Acts

variable (bc : Bincode) (uuid : UuidText) (engine : AppEngine)

/-- The service has a `consume_one` of its own, with the body of the other. -/
def consumeOne (queue : String) : Task Empty (Option (DeliveryTag × Message)) :=
  Mqtt.consumeOne bc engine queue

def handleAck (queue : String) (deliveryTag : UInt64) : Task Status Unit :=
  answer bc engine (QueueManager.ack queue deliveryTag) (.ack queue deliveryTag) (·.asAck)
    "unexpected ack response"

def handleNack (queue : String) (deliveryTag : UInt64) : Task Status Unit :=
  answer bc engine (QueueManager.nack bc queue deliveryTag) (.nack queue deliveryTag) (·.asNack)
    "unexpected nack response"

/-- End with a status, once it is sent. -/
def Stream.endWith (s : Stream) (status : Status) : Stream := { s with sending := some (.error status) }

/-- A settlement that fails ends the stream. -/
def settle (s : Stream) (settlement : Task Status Unit) : Task Empty Stream := do
  match ← settlement.embed id with
  | .ok () => pure s
  | .error status => pure (s.endWith status)

def unnamed : Status :=
  ⟨.invalidArgument, "first ConsumeStreamAck must include a non-empty queue"⟩

/-- A message of the client. -/
def receive (ack : ConsumeStreamAck) (s : Stream) : Task Empty Stream :=
  match s.queue with
  | none =>
      match ack.queue with
      | some queue =>
          if queue.isEmpty then pure (s.endWith unnamed) else pure { s with queue := some queue }
      | none => pure (s.endWith unnamed)
  | some queue =>
      match ack.deliveryTag, ack.nackDeliveryTag with
      | some tag, _ => settle s (handleAck bc engine queue tag)
      | none, some tag => settle s (handleNack bc engine queue tag)
      | none, none => pure s

/-- What the client's side brings, while the task waits for it. -/
def inbound (message : Option (Except String ConsumeStreamAck)) (s : Stream) : Task Empty Stream :=
  match message with
  | some (.ok ack) => receive bc engine ack s
  | some (.error e) => pure (s.endWith ⟨.internal, e⟩)
  | none => pure { s with running := false }

/-- Consume, once a queue is named. -/
def pause (s : Stream) : Task Empty Stream :=
  match s.queue with
  | some queue => do
      match ← consumeOne bc engine queue with
      | some delivery => pure { s with sending := some (.ok (consumedMessage uuid delivery)) }
      | none => pure s
  | none => pure s

/-- `tx.send`: it fails when nobody receives, and waits while the channel is full. -/
def Stream.send (s : Stream) : Stream :=
  match s.sending with
  | some item =>
      if !s.receiving then { s with running := false, sending := none }
      else if s.channel.length < streamSize then
        -- after a status the task returns
        { s with running := item.toBool, sending := none, channel := s.channel ++ [item] }
      else s
  | none => s

/-- The task is in its loop, waiting for the client or for the pause. -/
def Stream.idle (s : Stream) : Bool := s.running && s.sending.isNone

def streamAct (s : Stream) : StreamAct → Task Empty Stream
  | .inbound message => if s.idle then inbound bc engine message s else pure s
  | .tick => if s.idle then pause bc uuid engine s else pure s
  | .send => pure s.send
  | .take => pure { s with channel := s.channel.tail }
  | .close => pure { s with receiving := false, channel := [] }

end Acts

end PelicanQ.Grpc
