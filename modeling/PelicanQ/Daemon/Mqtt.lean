import PelicanQ.Daemon.Engine

/-! # The MQTT interface

`mqtt/handler.rs`: one connection, with the pollers that feed it.  A poller
consumes from its queue and hands what it gets to a bounded channel; the
connection's loop takes deliveries out of the channel and packets off the
socket.  The steps of the loop and of the pollers interleave freely.
-/

namespace PelicanQ.Mqtt

open Daemon (Task core clientWrite newV4 send)

/-- `MqttOutgoing::Incoming`. -/
structure Incoming where
  queue : String
  tag : DeliveryTag
  payload : Bytes
  deriving DecidableEq, Repr

/-- A subscription's poller, with the delivery it waits to hand over. -/
structure Poller where
  queue : String
  holding : Option Incoming
  /-- The task has not panicked.  The handle of one that has stays among the subscriptions. -/
  running : Bool
  deriving DecidableEq, Repr

/-- A poller that has just been spawned. -/
def Poller.new (queue : String) : Poller := ⟨queue, none, true⟩

structure Connection where
  inflight : UInt16 → Option (String × DeliveryTag)
  nextPkid : UInt16
  subscriptions : List Poller
  channel : List Incoming

/-- A connection after its handshake. -/
def Connection.new : Connection := ⟨fun _ => none, 1, [], []⟩

def channelSize : Nat := 256

def hasWildcard (filter : String) : Bool := filter.toList.any fun c => c == '+' || c == '#'

section Engine

variable (bc : Bincode) (engine : AppEngine)

def declareQueue (queue : String) : Task Empty Bool :=
  match engine with
  | .solo => do
      match ← core (QueueManager.declareQueue bc queue) with
      | .ok () => pure true
      | .error _ => pure false
  | .flock => do
      match ← clientWrite bc (.declareQueue queue default) with
      | .ok (.declareQueue (.ok ())) => pure true
      | .ok (.declareQueue (.error (.queueAlreadyExists _))) => pure true
      | _ => pure false

def consumeOne (queue : String) : Task Empty (Option (DeliveryTag × Message)) :=
  match engine with
  | .solo => do
      match ← core (QueueManager.consume bc queue) with
      | .ok delivery => pure delivery
      | .error _ => pure none
  | .flock => do
      match ← clientWrite bc (.consume queue) with
      | .ok (.consume (.ok delivery)) => pure delivery
      | _ => pure none

/-- How an ack ends is only logged. -/
def ackMessage (queue : String) (tag : DeliveryTag) : Task Empty Unit :=
  match engine with
  | .solo => do
      let _ ← core (QueueManager.ack queue tag)
      pure ()
  | .flock => do
      let _ ← clientWrite bc (.ack queue tag)
      pure ()

/-- What a payload is published as.  The clock is read in whole seconds. -/
def message (payload : Bytes) (id : Uuid) (now : Int64) : Message where
  id := id
  payload := payload
  headers := []
  timestamp := now / 1000
  deliveryAttempts := 0
  priority := 0
  deliverAt := none
  dedupKey := none

def publishMessage (queue : String) (payload : Bytes) : Task Empty Bool := do
  let id ← newV4
  let now ← .ask (.core .nowMs)
  let msg := message payload id now
  match engine with
  | .solo => do
      match ← core (QueueManager.publish bc queue msg) with
      | .ok _ => pure true
      | .error _ => pure false
  | .flock => do
      match ← clientWrite bc (.publish queue msg) with
      | .ok (.publish (.ok _)) => pure true
      | _ => pure false

/-! ## Packets from the client -/

/-- The loop of a subscription: every filter without wildcards gets its queue and its poller. -/
def subscribeEach : List (String × QoS) → List Poller → List SubscribeReasonCode →
    Task Empty (List Poller × List SubscribeReasonCode)
  | [], subscriptions, returnCodes => pure (subscriptions, returnCodes)
  | (path, qos) :: rest, subscriptions, returnCodes =>
      if hasWildcard path then subscribeEach rest subscriptions (returnCodes ++ [.failure])
      else do
        let _ ← declareQueue bc engine path
        if subscriptions.any (·.queue == path) then
          subscribeEach rest subscriptions (returnCodes ++ [.success .atLeastOnce])
        else
          let granted := if qos.level = 0 then .atMostOnce else .atLeastOnce
          subscribeEach rest (subscriptions ++ [.new path]) (returnCodes ++ [.success granted])

/-- Handle one packet: does the connection go on, and with what state? -/
def handleClientPacket (packet : Packet) (c : Connection) : Task Empty (Bool × Connection) :=
  match packet with
  | .publish _ qos _ queue pkid payload => do
      let _ ← declareQueue bc engine queue
      let _ ← publishMessage bc engine queue payload
      if 1 ≤ qos.level then
        if ← send (.pubAck pkid) then pure (true, c) else pure (false, c)
      else pure (true, c)
  | .subscribe pkid filters => do
      let (subscriptions, returnCodes) ← subscribeEach bc engine filters c.subscriptions []
      let c := { c with subscriptions := subscriptions }
      if ← send (.subAck pkid returnCodes) then pure (true, c) else pure (false, c)
  | .unsubscribe pkid topics => do
      -- an aborted poller drops the delivery it was holding
      let c := { c with subscriptions := c.subscriptions.filter (!topics.contains ·.queue) }
      if ← send (.unsubAck pkid) then pure (true, c) else pure (false, c)
  | .pubAck pkid =>
      match c.inflight pkid with
      | some (queue, tag) => do
          let c := { c with inflight := Function.update c.inflight pkid none }
          ackMessage bc engine queue tag
          pure (true, c)
      | none => pure (true, c)
  | .pingReq => do
      if ← send .pingResp then pure (true, c) else pure (false, c)
  | .disconnect => pure (false, c)
  | _ => pure (true, c)

theorem handleClientPacket_publish (dup : Bool) (qos : QoS) (retain : Bool) (queue : String)
    (pkid : UInt16) (payload : Bytes) (c : Connection) :
    handleClientPacket bc engine (.publish dup qos retain queue pkid payload) c =
      (declareQueue bc engine queue >>= fun _ => publishMessage bc engine queue payload >>= fun _ =>
        if 1 ≤ qos.level then send (.pubAck pkid) >>= fun written =>
          if written then pure (true, c) else pure (false, c)
        else pure (true, c)) := rfl

end Engine

end PelicanQ.Mqtt
