import PelicanQ.Daemon.Mqtt

/-! # A connection and its pollers, step by step

`handle_connection` and `subscription_poller`.  The loop of a connection gives way
to other tasks wherever it waits: for a packet or a delivery, and inside the
handling of a packet after each operation it makes.  A `Phase` says where it is.
A poller gives way between what it consumes and what it hands over.

Each act below is what happens between two such places, so a run of a connection is
any sequence of acts, with anything at all happening to the manager in between.
-/

namespace PelicanQ.Mqtt

open Daemon (Task send)

/-- Where the loop of a connection waits. -/
inductive Phase where
  | waiting
  /-- The queue of a published packet has been declared. -/
  | publishing (qos : QoS) (queue : String) (pkid : UInt16) (payload : Bytes)
  /-- Some filters of a subscription have been handled. -/
  | subscribing (pkid : UInt16) (filters : List (String × QoS))
      (returnCodes : List SubscribeReasonCode)
  deriving DecidableEq, Repr

/-- A connection that is open. -/
structure Session where
  phase : Phase
  connection : Connection

def Session.new : Session := ⟨.waiting, .new⟩

/-- What happens next on a connection. -/
inductive Act where
  /-- A packet arrives. -/
  | packet (packet : Packet)
  /-- The handling of a packet goes on. -/
  | proceed
  /-- The interval of the `i`-th poller ticks. -/
  | tick (i : Nat)
  /-- The `i`-th poller finds room in the channel. -/
  | handOver (i : Nat)
  /-- The loop takes a delivery out of the channel. -/
  | deliver
  /-- The socket is closed, or cannot be read. -/
  | hangUp
  deriving DecidableEq, Repr

/-- A connection that goes on waits for the next packet. -/
def goesOn (r : Bool × Connection) : Option Session := if r.1 then some ⟨.waiting, r.2⟩ else none

section Acts

variable (bc : Bincode) (engine : AppEngine)

/-- `handle_connection` up to its loop. -/
def handshake (first : Option Packet) : Task Empty (Option Session) :=
  match first with
  | some .connect => do
      if ← send .connAck then pure (some .new) else pure none
  | _ => pure none

/-- `handle_client_packet` up to the first place where it gives way. -/
def receive (packet : Packet) (c : Connection) : Task Empty (Option Session) :=
  match packet with
  | .publish _ qos _ queue pkid payload => do
      let _ ← declareQueue bc engine queue
      pure (some ⟨.publishing qos queue pkid payload, c⟩)
  | .subscribe pkid filters => pure (some ⟨.subscribing pkid filters [], c⟩)
  | packet => do
      let r ← handleClientPacket bc engine packet c
      pure (goesOn r)

/-- Handle one filter of a subscription. -/
def subscribe (path : String) (qos : QoS) (c : Connection) :
    Task Empty (Connection × SubscribeReasonCode) :=
  if hasWildcard path then pure (c, .failure)
  else do
    let _ ← declareQueue bc engine path
    if c.subscriptions.any (·.queue == path) then pure (c, .success .atLeastOnce)
    else
      let granted := if qos.level = 0 then .atMostOnce else .atLeastOnce
      pure ({ c with subscriptions := c.subscriptions ++ [.new path] }, .success granted)

/-- `handle_client_packet` from where it gave way to the next such place. -/
def proceed : Session → Task Empty (Option Session)
  | ⟨.waiting, c⟩ => pure (some ⟨.waiting, c⟩)
  | ⟨.publishing qos queue pkid payload, c⟩ => do
      let _ ← publishMessage bc engine queue payload
      if 1 ≤ qos.level then
        if ← send (.pubAck pkid) then pure (some ⟨.waiting, c⟩) else pure none
      else pure (some ⟨.waiting, c⟩)
  | ⟨.subscribing pkid [] returnCodes, c⟩ => do
      if ← send (.subAck pkid returnCodes) then pure (some ⟨.waiting, c⟩) else pure none
  | ⟨.subscribing pkid ((path, qos) :: rest) returnCodes, c⟩ => do
      let (c, code) ← subscribe bc engine path qos c
      pure (some ⟨.subscribing pkid rest (returnCodes ++ [code]), c⟩)

def Connection.setPoller (c : Connection) (i : Nat) (poller : Poller) : Connection :=
  { c with subscriptions := c.subscriptions.set i poller }

/-- A poller that holds nothing consumes. -/
def tick (i : Nat) (s : Session) : Task Empty (Option Session) :=
  match s.connection.subscriptions[i]? with
  | some ⟨queue, none, true⟩ => do
      match ← consumeOne bc engine queue with
      | some (tag, msg) =>
          let poller := ⟨queue, some ⟨queue, tag, msg.payload⟩, true⟩
          pure (some { s with connection := s.connection.setPoller i poller })
      | none => pure (some s)
  | _ => pure (some s)

/-- The connection after the `i`-th poller has panicked. -/
def Connection.breakPoller (i : Nat) (c : Connection) : Connection :=
  match c.subscriptions[i]? with
  | some poller => c.setPoller i { poller with running := false }
  | none => c

/-- What a poller holds goes into the channel once there is room. -/
def Connection.handOver (i : Nat) (c : Connection) : Connection :=
  match c.subscriptions[i]? with
  | some ⟨queue, some delivery, true⟩ =>
      if c.channel.length < channelSize then
        { c.setPoller i (.new queue) with channel := c.channel ++ [delivery] }
      else c
  | _ => c

/-- The connection once a delivery has its packet id. -/
def Connection.take (c : Connection) (delivery : Incoming) (rest : List Incoming) : Connection :=
  { c with
    channel := rest
    nextPkid := c.nextPkid + 1
    inflight := Function.update c.inflight c.nextPkid (some (delivery.queue, delivery.tag)) }

def deliveryPacket (delivery : Incoming) (pkid : UInt16) : Packet :=
  .publish false .atLeastOnce false delivery.queue pkid delivery.payload

/-- The loop sends a delivery under the next packet id. -/
def deliver (c : Connection) : Task Empty (Option Session) :=
  match c.channel with
  | delivery :: rest => do
      if ← send (deliveryPacket delivery c.nextPkid) then
        pure (some ⟨.waiting, c.take delivery rest⟩)
      else pure none
  | [] => pure (some ⟨.waiting, c⟩)

/-- One act: the session it leaves, if the connection is still open. -/
def act (s : Session) : Act → Task Empty (Option Session)
  | .packet packet =>
      match s.phase with
      | .waiting => receive bc engine packet s.connection
      | _ => pure (some s)
  | .proceed => proceed bc engine s
  | .tick i => tick bc engine i s
  | .handOver i => pure (some { s with connection := s.connection.handOver i })
  | .deliver =>
      match s.phase with
      | .waiting => deliver s.connection
      | _ => pure (some s)
  | .hangUp =>
      match s.phase with
      | .waiting => pure none
      | _ => pure (some s)

/-! ## Without interruption -/

/-- Handle the filters that are left of a subscription. -/
def subscribeRest (pkid : UInt16) : List (String × QoS) → List SubscribeReasonCode → Connection →
    Task Empty (Option Session)
  | [], returnCodes, c => proceed bc engine ⟨.subscribing pkid [] returnCodes, c⟩
  | (path, qos) :: rest, returnCodes, c => do
      let (c, code) ← subscribe bc engine path qos c
      subscribeRest pkid rest (returnCodes ++ [code]) c

/-- Go on until the packet is handled. -/
def finish : Option Session → Task Empty (Option Session)
  | some ⟨.subscribing pkid filters returnCodes, c⟩ =>
      subscribeRest bc engine pkid filters returnCodes c
  | some s => proceed bc engine s
  | none => pure none

theorem subscribeRest_eq (pkid : UInt16) (filters : List (String × QoS))
    (returnCodes : List SubscribeReasonCode) (c : Connection) :
    subscribeRest bc engine pkid filters returnCodes c =
      (subscribeEach bc engine filters c.subscriptions returnCodes >>= fun r =>
        proceed bc engine ⟨.subscribing pkid [] r.2, { c with subscriptions := r.1 }⟩) := by
  induction filters generalizing returnCodes c with
  | nil => rfl
  | cons filter rest ih =>
      obtain ⟨path, qos⟩ := filter
      rw [subscribeRest, subscribeEach, subscribe]
      by_cases wildcard : hasWildcard path = true
      · rw [if_pos wildcard, if_pos wildcard]
        exact ih _ _
      · rw [if_neg wildcard, if_neg wildcard, Program.bind_assoc, Program.bind_assoc]
        refine congrArg _ (funext fun _ => ?_)
        by_cases known : (c.subscriptions.any (·.queue == path)) = true
        · rw [if_pos known, if_pos known]
          exact ih _ _
        · rw [if_neg known, if_neg known]
          exact ih _ _

theorem handleClientPacket_subscribe (pkid : UInt16) (filters : List (String × QoS))
    (c : Connection) :
    handleClientPacket bc engine (.subscribe pkid filters) c =
      (subscribeEach bc engine filters c.subscriptions [] >>= fun r =>
        send (.subAck pkid r.2) >>= fun written =>
          if written then pure (true, { c with subscriptions := r.1 })
          else pure (false, { c with subscriptions := r.1 })) := rfl

/-- A packet that is handled in one act needs nothing more. -/
theorem finish_once (p : Task Empty (Bool × Connection)) :
    (p >>= fun r => pure (goesOn r)) >>= finish bc engine = p >>= fun r => pure (goesOn r) := by
  rw [Program.bind_assoc]
  refine congrArg _ (funext fun r => ?_)
  obtain ⟨open', c⟩ := r
  cases open' <;> rfl

/-- Handled without interruption, a packet is handled as `handle_client_packet` does. -/
theorem finish_receive (packet : Packet) (c : Connection) :
    (receive bc engine packet c >>= finish bc engine) =
      (handleClientPacket bc engine packet c >>= fun r => pure (goesOn r)) := by
  cases packet with
  | publish dup qos retain queue pkid payload =>
      rw [receive, handleClientPacket_publish, Program.bind_assoc, Program.bind_assoc]
      refine congrArg _ (funext fun _ => ?_)
      simp only [Program.pure_eq, Program.ret_bind, finish, proceed, Program.bind_assoc]
      refine congrArg _ (funext fun _ => ?_)
      split_ifs
      · rw [Program.bind_assoc]
        exact congrArg _ (funext fun written => by cases written <;> rfl)
      · rfl
  | subscribe pkid filters =>
      refine (subscribeRest_eq bc engine pkid filters [] c).trans ?_
      rw [handleClientPacket_subscribe, Program.bind_assoc]
      refine congrArg _ (funext fun r => ?_)
      rw [proceed, Program.bind_assoc]
      exact congrArg _ (funext fun written => by cases written <;> rfl)
  | _ => exact finish_once bc engine (handleClientPacket bc engine _ c)

end Acts

end PelicanQ.Mqtt
