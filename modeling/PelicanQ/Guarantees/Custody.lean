import PelicanQ.Guarantees.Streams

/-! # Who holds a delivery

A delivery that a connection's poller consumed is with the poller, in the channel or
with the client until the client acknowledges it or the connection loses it; one that
a stream's task consumed is with the task or in the channel until the client takes
it.  For every act the books balance: what was held or is consumed is held afterwards,
settled, handed to the client or stranded.  A connection settles only what it holds;
anything else is settled by a client that names it.
-/

namespace PelicanQ

open Holdings

/-! ## Connections -/

namespace Mqtt

open Daemon (World)

def Incoming.delivery (d : Incoming) : String × DeliveryTag := (d.queue, d.tag)

def Poller.held (poller : Poller) : Multiset (String × DeliveryTag) :=
  single (poller.holding.map Incoming.delivery)

/-- What the pollers, the channel and the client of a connection hold. -/
def Connection.held (c : Connection) : Multiset (String × DeliveryTag) :=
  (c.subscriptions.map Poller.held).sum + ↑(c.channel.map Incoming.delivery) + table c.inflight

def heldBy : Option Session → Multiset (String × DeliveryTag)
  | some s => s.connection.held
  | none => 0

section Held

variable {c : Connection}

theorem mem_held_poller {poller : Poller} {d : Incoming} (member : poller ∈ c.subscriptions)
    (holding : poller.holding = some d) : d.delivery ∈ c.held := by
  refine Multiset.mem_add.mpr (.inl (Multiset.mem_add.mpr (.inl (mem_sum.mpr ?_))))
  refine ⟨poller.held, List.mem_map_of_mem member, ?_⟩
  rw [Poller.held, holding]
  exact Multiset.mem_singleton_self _

theorem setPoller_held {i : Nat} {old : Poller} (present : c.subscriptions[i]? = some old)
    (new : Poller) : (c.setPoller i new).held + old.held = c.held + new.held := by
  have pollers := sum_set present new Poller.held
  change (((c.subscriptions.set i new).map Poller.held).sum + _ + _) + _ = _
  calc ((c.subscriptions.set i new).map Poller.held).sum + ↑(c.channel.map Incoming.delivery) +
          table c.inflight + old.held
      = (((c.subscriptions.set i new).map Poller.held).sum + old.held) +
          (↑(c.channel.map Incoming.delivery) + table c.inflight) := by ac_rfl
    _ = c.held + new.held := by
        rw [pollers, Connection.held]
        ac_rfl

/-- What a connection holds, with a longer channel. -/
theorem held_push (c : Connection) (d : Incoming) :
    Connection.held { c with channel := c.channel ++ [d] } = c.held + {d.delivery} := by
  simp only [Connection.held, List.map_append, List.map_cons, List.map_nil, ← Multiset.coe_add,
    Multiset.coe_singleton]
  ac_rfl

theorem handOver_held (c : Connection) (i : Nat) : (c.handOver i).held = c.held := by
  unfold Connection.handOver
  split
  · rename_i queue delivery present
    split_ifs
    · have moved := setPoller_held present (.new queue)
      have pushed := held_push (c.setPoller i (.new queue)) delivery
      refine pushed.trans ?_
      change _ + single (some delivery.delivery) = _ + single none at moved
      rw [single_some, single_none, add_zero] at moved
      exact moved
    · rfl
  · rfl

theorem take_held {d : Incoming} {rest : List Incoming} (queued : c.channel = d :: rest) :
    (c.take d rest).held + single (c.inflight c.nextPkid) = c.held := by
  have sent := table_update c.inflight c.nextPkid (some d.delivery)
  have before : c.held = (c.subscriptions.map Poller.held).sum + ↑(rest.map Incoming.delivery) +
      (table c.inflight + single (some d.delivery)) := by
    rw [Connection.held, queued, List.map_cons, ← Multiset.cons_coe, ← Multiset.singleton_add,
      single_some]
    ac_rfl
  rw [before, ← sent, ← add_assoc]
  rfl

theorem released_held {pkid : UInt16} {x : String × DeliveryTag}
    (present : c.inflight pkid = some x) : (c.released pkid).held + {x} = c.held := by
  have updated := table_update c.inflight pkid none
  rw [present, single_some, single_none, add_zero] at updated
  change _ + table (Function.update c.inflight pkid none) + _ = _ + table c.inflight
  rw [← updated, ← add_assoc]
  rfl

/-- What the pollers of some queues hold. -/
def Connection.heldFor (c : Connection) (topics : List String) : Multiset (String × DeliveryTag) :=
  ((c.subscriptions.filter (topics.contains ·.queue)).map Poller.held).sum

theorem without_held (c : Connection) (topics : List String) :
    (c.without topics).held + c.heldFor topics = c.held := by
  have split : c.heldFor topics + ((c.without topics).subscriptions.map Poller.held).sum =
      (c.subscriptions.map Poller.held).sum := by
    have perm := List.filter_append_perm (topics.contains ·.queue) c.subscriptions
    rw [← (perm.map Poller.held).sum_eq, List.map_append, List.sum_append]
    rfl
  rw [Connection.held, Connection.held, ← split]
  change _ + ↑(c.channel.map Incoming.delivery) + table c.inflight + _ = _
  ac_rfl

theorem proceeded_held (s : Session) : (proceeded s).held = s.connection.held := by
  have empty (path : String) : (Poller.new path).held = 0 := rfl
  unfold proceeded Connection.subscribed
  split
  · split_ifs
    · rfl
    · rfl
    · simp only [Connection.held, List.map_append, List.map_cons, List.map_nil, List.sum_append,
        List.sum_cons, List.sum_nil, empty, add_zero]
  · rfl

end Held

section Acts

variable {s s' : Session} {w : World}

/-- The delivery that an act acknowledges. -/
def Session.acknowledges (s : Session) : Act → Option (String × DeliveryTag)
  | .packet (.pubAck pkid) => if s.phase = .waiting then s.connection.inflight pkid else none
  | _ => none

/-- What a connection that goes on no longer holds after an act: what was acknowledged, what the
    pollers held that it aborted, and what was sent under a packet id that is used again. -/
def Session.drops (s : Session) : Act → Multiset (String × DeliveryTag)
  | .packet (.unsubscribe _ topics) => if s.phase = .waiting then s.connection.heldFor topics else 0
  | .deliver =>
      if s.phase = .waiting ∧ s.connection.channel ≠ [] then
        single (s.connection.inflight s.connection.nextPkid)
      else 0
  | a => single (s.acknowledges a)

section Books

variable (bc : Bincode) (ids : Nat → UInt64) (engine : AppEngine)

/-- What an act consumes. -/
def Session.consumes (s : Session) (w : World) : Act → Multiset (String × DeliveryTag)
  | .tick i =>
      match s.connection.subscriptions[i]? with
      | some ⟨q, none, true⟩ => deliveryOf q ((consumeOne bc engine q).run (Daemon.handle ids) w).1
      | _ => 0
  | _ => 0

/-- What an act settles: the delivery it acknowledges, if the manager takes the ack. -/
def Session.acks (s : Session) (w : World) (a : Act) : Multiset (String × DeliveryTag) :=
  match s.acknowledges a with
  | some (q, tag) => settled bc ids engine w q tag
  | none => 0

/-- What an act strands: everything that it drops and does not settle, and that is everything the
    connection holds if the act closes it. -/
def Session.strands (s : Session) (w : World) (a : Act) : Multiset (String × DeliveryTag) :=
  (match (turn bc ids engine s a w).1 with
    | some _ => s.drops a
    | none => s.connection.held) - s.acks bc ids engine w a

end Books

variable {bc : Bincode} {ids : Nat → UInt64} {engine : AppEngine} {names : List String}

theorem settled_le (w : World) (q : String) (tag : DeliveryTag) :
    settled bc ids engine w q tag ≤ {(q, tag)} := by
  unfold settled
  split_ifs
  · exact le_refl _
  · exact Multiset.zero_le _

theorem acks_le (s : Session) (w : World) (a : Act) :
    s.acks bc ids engine w a ≤ single (s.acknowledges a) := by
  unfold Session.acks
  split
  · rename_i q tag acknowledged
    rw [acknowledged]
    exact settled_le w q tag
  · exact Multiset.zero_le _

theorem acks_le_drops (s : Session) (w : World) (a : Act) :
    s.acks bc ids engine w a ≤ s.drops a := by
  refine le_trans (acks_le s w a) ?_
  unfold Session.drops
  split
  · exact Multiset.zero_le _
  · exact Multiset.zero_le _
  · exact le_refl _

theorem acks_le_held (s : Session) (w : World) (a : Act) :
    s.acks bc ids engine w a ≤ s.connection.held := by
  refine le_trans (acks_le s w a) ?_
  unfold Session.acknowledges
  split
  · rename_i pkid
    split_ifs
    · cases present : s.connection.inflight pkid with
      | none => exact Multiset.zero_le _
      | some x =>
          rw [← released_held present]
          exact Multiset.le_add_left _ _
    · exact Multiset.zero_le _
  · exact Multiset.zero_le _

/-- Inside the handling of a packet nothing is dropped. -/
theorem drops_busy (busy : s.phase ≠ .waiting) (a : Act) : s.drops a = 0 := by
  unfold Session.drops Session.acknowledges
  split
  · exact if_neg busy
  · exact if_neg fun both => busy both.1
  · split
    · rw [if_neg busy]
      rfl
    · rfl

/-! ### What an act keeps, case by case -/

theorem packet_keeps (c : Connection) (packet : Packet) (w : World)
    (turned : (turn bc ids engine ⟨.waiting, c⟩ (.packet packet) w).1 = some s') :
    s'.connection.held + Session.drops ⟨.waiting, c⟩ (.packet packet) = c.held := by
  by_cases ack : ∃ pkid, packet = .pubAck pkid
  · obtain ⟨pkid, rfl⟩ := ack
    change s'.connection.held + single (c.inflight pkid) = c.held
    cases present : c.inflight pkid with
    | none =>
        rw [turn_pubAck_unknown present] at turned
        cases turned
        exact add_zero _
    | some x =>
        rw [turn_pubAck present] at turned
        obtain ⟨-, same⟩ := Option.ite_none_right_eq_some.mp turned
        cases same
        exact released_held present
  · have acks (pkid) : packet ≠ .pubAck pkid := fun same => ack ⟨pkid, same⟩
    by_cases leave : ∃ pkid topics, packet = .unsubscribe pkid topics
    · obtain ⟨pkid, topics, rfl⟩ := leave
      rw [turn_unsubscribe] at turned
      obtain ⟨-, same⟩ := Option.ite_none_right_eq_some.mp turned
      cases same
      exact without_held c topics
    · have leaves (pkid topics) : packet ≠ .unsubscribe pkid topics :=
        fun same => leave ⟨pkid, topics, same⟩
      have nothing : Session.drops ⟨.waiting, c⟩ (.packet packet) = 0 := by
        cases packet with
        | pubAck pkid => exact absurd rfl (acks pkid)
        | unsubscribe pkid topics => exact absurd rfl (leaves pkid topics)
        | _ => rfl
      rw [nothing, add_zero, turn_other acks leaves c w s' turned]

theorem deliver_keeps (c : Connection) (w : World)
    (turned : (turn bc ids engine ⟨.waiting, c⟩ .deliver w).1 = some s') :
    s'.connection.held + Session.drops ⟨.waiting, c⟩ .deliver = c.held := by
  cases queued : c.channel with
  | nil =>
      rw [turn_deliver_none queued] at turned
      cases turned
      have nothing : Session.drops ⟨.waiting, c⟩ .deliver = 0 := if_neg fun both => both.2 queued
      rw [nothing, add_zero]
  | cons d rest =>
      rw [turn_deliver queued] at turned
      obtain ⟨-, same⟩ := Option.ite_none_right_eq_some.mp turned
      cases same
      have dropped : Session.drops ⟨.waiting, c⟩ .deliver = single (c.inflight c.nextPkid) := by
        refine if_pos ⟨rfl, ?_⟩
        rw [queued]
        exact List.cons_ne_nil _ _
      rw [dropped]
      exact take_held queued

/-- What a poller's consume returns is with the poller. -/
theorem polled_held {i : Nat} {q : String} (idle : s.connection.subscriptions[i]? = some (.new q))
    (outcome : Outcome Empty (Option (DeliveryTag × Message))) :
    (polled s i q outcome).connection.held = s.connection.held + deliveryOf q outcome := by
  cases outcome with
  | ok delivery =>
      cases delivery with
      | none => exact (add_zero _).symm
      | some delivery =>
          obtain ⟨tag, msg⟩ := delivery
          exact (add_zero _).symm.trans
            (setPoller_held idle ⟨q, some ⟨q, tag, msg.payload⟩, true⟩)
  | err e => exact e.elim
  | panicked | diverged => exact (add_zero _).symm.trans (setPoller_held idle ⟨q, none, false⟩)

theorem consumes_idle {i : Nat} {q : String}
    (idle : s.connection.subscriptions[i]? = some (.new q)) :
    s.consumes bc ids engine w (.tick i) =
      deliveryOf q ((consumeOne bc engine q).run (Daemon.handle ids) w).1 := by
  rw [Session.consumes, idle]
  rfl

theorem consumes_busy {i : Nat} (busy : ∀ q, s.connection.subscriptions[i]? ≠ some (.new q)) :
    s.consumes bc ids engine w (.tick i) = 0 := by
  simp only [Session.consumes]
  split
  · rename_i q idle
    exact absurd idle (busy q)
  · rfl

/-- A connection that goes on keeps what it held and consumed, except for what the act drops. -/
theorem turn_keeps (s : Session) (a : Act) (w : World)
    (turned : (turn bc ids engine s a w).1 = some s') :
    s.connection.held + s.consumes bc ids engine w a = s'.connection.held + s.drops a := by
  have still (same : turn bc ids engine s a w = (some s, w)) (nothing : s.drops a = 0) :
      s.connection.held = s'.connection.held + s.drops a := by
    rw [same] at turned
    cases turned
    rw [nothing, add_zero]
  cases a with
  | proceed =>
      have kept : s'.connection = proceeded s := turn_proceed s w s' turned
      exact congrArg (· + 0) ((proceeded_held s).symm.trans (congrArg Connection.held kept).symm)
  | tick i =>
      by_cases idle : ∃ q, s.connection.subscriptions[i]? = some (.new q)
      · obtain ⟨q, idle⟩ := idle
        rw [turn_tick idle] at turned
        cases turned
        rw [consumes_idle idle]
        exact (polled_held idle _).symm.trans (add_zero _).symm
      · have busy (q) : s.connection.subscriptions[i]? ≠ some (.new q) := fun same => idle ⟨q, same⟩
        rw [consumes_busy busy, add_zero]
        exact still (turn_tick_busy busy) rfl
  | handOver i =>
      rw [turn_handOver] at turned
      cases turned
      exact congrArg (· + 0) (handOver_held s.connection i).symm
  | packet packet =>
      change _ + 0 = _
      rw [add_zero]
      by_cases waiting : s.phase = .waiting
      · obtain ⟨phase, c⟩ := s
        cases waiting
        exact (packet_keeps c packet w turned).symm
      · exact still (turn_busy waiting (.inl ⟨packet, rfl⟩)) (drops_busy waiting _)
  | deliver =>
      change _ + 0 = _
      rw [add_zero]
      by_cases waiting : s.phase = .waiting
      · obtain ⟨phase, c⟩ := s
        cases waiting
        exact (deliver_keeps c w turned).symm
      · exact still (turn_busy waiting (.inr (.inl rfl))) (drops_busy waiting _)
  | hangUp =>
      change _ + 0 = _
      rw [add_zero]
      by_cases waiting : s.phase = .waiting
      · obtain ⟨phase, c⟩ := s
        cases waiting
        rw [turn_hangUp] at turned
        cases turned
      · exact still (turn_busy waiting (.inr (.inr rfl))) (drops_busy waiting _)

/-- No poller closes its connection, so an act that does consumes nothing. -/
theorem consumes_closing {a : Act} (closed : (turn bc ids engine s a w).1 = none) :
    s.consumes bc ids engine w a = 0 := by
  cases a with
  | tick i =>
      refine consumes_busy fun q idle => ?_
      rw [turn_tick idle] at closed
      cases closed
  | packet | proceed | handOver | deliver | hangUp => rfl

/-- The books of a connection balance in every act. -/
theorem turn_balances (s : Session) (a : Act) (w : World) :
    Balances s.connection.held (s.consumes bc ids engine w a) (heldBy (turn bc ids engine s a w).1)
      (s.acks bc ids engine w a) (s.strands bc ids engine w a) := by
  rw [Balances, Session.strands, add_assoc]
  cases turned : (turn bc ids engine s a w).1 with
  | some s' =>
      rw [add_tsub_cancel_of_le (acks_le_drops s w a)]
      exact turn_keeps s a w turned
  | none =>
      rw [add_tsub_cancel_of_le (acks_le_held s w a), consumes_closing turned, add_comm]
      rfl

theorem packet_tallies (c : Connection) {packet : Packet} (w : World)
    (inside : ∀ name ∈ Daemon.packetDeclares packet, name ∈ names) :
    Tallies bc ids names w.manager
      (turn bc ids engine ⟨.waiting, c⟩ (.packet packet) w).2.manager 0
      (Session.acks bc ids engine ⟨.waiting, c⟩ w (.packet packet)) := by
  by_cases ack : ∃ pkid, packet = .pubAck pkid
  · obtain ⟨pkid, rfl⟩ := ack
    have named : Session.acknowledges ⟨.waiting, c⟩ (.packet (.pubAck pkid)) = c.inflight pkid := rfl
    rw [Session.acks, named]
    cases present : c.inflight pkid with
    | none =>
        rw [turn_pubAck_unknown present]
        exact .refl _
    | some x =>
        rw [turn_pubAck present]
        exact ackMessage_tallies w x.1 x.2
  · have acks (pkid) : packet ≠ .pubAck pkid := fun same => ack ⟨pkid, same⟩
    have nothing : Session.acks bc ids engine ⟨.waiting, c⟩ w (.packet packet) = 0 := by
      cases packet with
      | pubAck pkid => exact absurd rfl (acks pkid)
      | _ => rfl
    rw [nothing]
    exact turn_other_tallies acks c w inside

/-- An act returns what it consumes and settles what it acks. -/
theorem turn_tallies (s : Session) (a : Act) (w : World)
    (inside : ∀ name ∈ Daemon.actDeclares a, name ∈ names)
    (left : ∀ name ∈ Daemon.pending s, name ∈ names) :
    Tallies bc ids names w.manager (turn bc ids engine s a w).2.manager
      (s.consumes bc ids engine w a) (s.acks bc ids engine w a) := by
  have still {a : Act} (same : turn bc ids engine s a w = (some s, w)) :
      Tallies bc ids names w.manager (turn bc ids engine s a w).2.manager 0 0 := by
    rw [same]
    exact .refl _
  cases a with
  | proceed => exact turn_proceed_tallies s w left
  | tick i =>
      change Tallies bc ids names _ _ _ 0
      by_cases idle : ∃ q, s.connection.subscriptions[i]? = some (.new q)
      · obtain ⟨q, idle⟩ := idle
        rw [turn_tick idle, consumes_idle idle]
        exact consumeOne_tallies w q
      · have busy (q) : s.connection.subscriptions[i]? ≠ some (.new q) := fun same => idle ⟨q, same⟩
        rw [consumes_busy busy]
        exact still (turn_tick_busy busy)
  | handOver i =>
      rw [turn_handOver]
      exact .refl _
  | packet packet =>
      change Tallies bc ids names _ _ 0 _
      by_cases waiting : s.phase = .waiting
      · obtain ⟨phase, c⟩ := s
        cases waiting
        exact packet_tallies c w inside
      · have nothing : s.acks bc ids engine w (.packet packet) = 0 := by
          exact Multiset.le_zero.mp (drops_busy waiting (.packet packet) ▸ acks_le_drops s w _)
        rw [nothing]
        exact still (turn_busy waiting (.inl ⟨packet, rfl⟩))
  | deliver =>
      by_cases waiting : s.phase = .waiting
      · obtain ⟨phase, c⟩ := s
        cases waiting
        cases queued : c.channel with
        | nil => exact still (turn_deliver_none queued)
        | cons d rest =>
            rw [turn_deliver queued]
            exact .refl _
      · exact still (turn_busy waiting (.inr (.inl rfl)))
  | hangUp =>
      by_cases waiting : s.phase = .waiting
      · obtain ⟨phase, c⟩ := s
        cases waiting
        rw [turn_hangUp]
        exact .refl _
      · exact still (turn_busy waiting (.inr (.inr rfl)))

end Acts

end Mqtt

/-! ## Streams -/

namespace Grpc

open Daemon (World)

def itemHeld (q : String) : Item → Multiset (String × DeliveryTag)
  | .ok message => {(q, message.deliveryTag)}
  | .error _ => 0

/-- What is on the way to the client. -/
def Stream.items (s : Stream) : List Item := s.sending.toList ++ s.channel

/-- The deliveries among some of the items of a stream. -/
def Stream.deliveries (s : Stream) (items : List Item) : Multiset (String × DeliveryTag) :=
  match s.queue with
  | some q => (items.map (itemHeld q)).sum
  | none => 0

def Stream.held (s : Stream) : Multiset (String × DeliveryTag) := s.deliveries s.items

/-- Deliveries are only on the way once a queue is named. -/
def Stream.Named (s : Stream) : Prop :=
  s.queue = none → ∀ item ∈ s.items, ∃ status, item = .error status

/-- The client settles a delivery. -/
def StreamAct.Names (x : String × DeliveryTag) : StreamAct → Prop
  | .inbound (some (.ok ack)) => ack.deliveryTag = some x.2 ∨ ack.nackDeliveryTag = some x.2
  | _ => False

theorem Stream.held_named {s : Stream} {q : String} (named : s.queue = some q) :
    s.held = (s.items.map (itemHeld q)).sum := by
  rw [held, deliveries, named]

theorem Stream.held_unnamed {s : Stream} (unnamed : s.queue = none) : s.held = 0 := by
  rw [held, deliveries, unnamed]

theorem Stream.deliveries_append (s : Stream) (items more : List Item) :
    s.deliveries (items ++ more) = s.deliveries items + s.deliveries more := by
  unfold deliveries
  split
  · rw [List.map_append, List.sum_append]
  · rfl

theorem Stream.deliveries_nil (s : Stream) : s.deliveries [] = 0 := by
  unfold deliveries
  split <;> rfl

theorem Stream.held_eq (s : Stream) :
    s.held = s.deliveries s.sending.toList + s.deliveries s.channel :=
  s.deliveries_append s.sending.toList s.channel

section Books

variable (bc : Bincode) (ids : Nat → UInt64) (engine : AppEngine)

/-- What an act consumes. -/
def Stream.consumes (s : Stream) (w : World) : StreamAct → Multiset (String × DeliveryTag)
  | .tick =>
      match s.idle, s.queue with
      | true, some q => Mqtt.deliveryOf q ((consumeOne bc engine q).run (Daemon.handle ids) w).1
      | _, _ => 0
  | _ => 0

end Books

/-- What the client takes. -/
def Stream.hands (s : Stream) : StreamAct → Multiset (String × DeliveryTag)
  | .take => s.deliveries (s.channel.take 1)
  | _ => 0

/-- What an act strands: what waits in the channel when the client stops receiving, and what the
    task sends after that. -/
def Stream.strands (s : Stream) : StreamAct → Multiset (String × DeliveryTag)
  | .send => if s.receiving then 0 else s.deliveries s.sending.toList
  | .close => s.deliveries s.channel
  | _ => 0

section Acts

variable {bc : Bincode} {uuid : UuidText} {ids : Nat → UInt64} {engine : AppEngine}
  {names : List String} {s s' : Stream} {w : World}

theorem Stream.Named.subperm (named : s.Named) (queue : s'.queue = s.queue)
    (fewer : s'.items.Subperm s.items) : s'.Named :=
  fun unnamed item member => named (queue ▸ unnamed) item (fewer.subset member)

theorem Stream.send_queue (s : Stream) : s.send.queue = s.queue := by
  unfold send
  split
  · split_ifs <;> rfl
  · rfl

theorem Stream.send_items (s : Stream) : s.send.items.Subperm s.items := by
  unfold send
  split
  · rename_i item sending
    split_ifs
    · exact (List.sublist_append_right _ _).subperm
    · rw [items, items, sending]
      change (s.channel ++ [item]).Subperm ([item] ++ s.channel)
      exact List.perm_append_comm.subperm
    · exact .refl _
  · exact .refl _

/-- A message of the client puts at most a status on the way. -/
theorem Heard.held (heard : Heard s s') (idle : s.idle = true) (named : s.Named) :
    s'.held = s.held ∧ s'.Named := by
  have before : s.items = s.channel := by rw [Stream.items, Stream.sending_of_idle idle]; rfl
  have after : ∃ statuses : List Status, s'.items = statuses.map .error ++ s.channel := by
    rcases heard.sending with none | ⟨status, ends⟩
    · exact ⟨[], by rw [Stream.items, none, heard.channel]; rfl⟩
    · exact ⟨[status], by rw [Stream.items, ends, heard.channel]; rfl⟩
  obtain ⟨statuses, items⟩ := after
  have nothing (q : String) : ((statuses.map .error).map (itemHeld q)).sum = 0 := by
    rw [List.map_map]
    exact List.sum_eq_zero (by simp [itemHeld])
  have sums (q : String) : (s'.items.map (itemHeld q)).sum = (s.items.map (itemHeld q)).sum := by
    rw [items, before, List.map_append, List.sum_append, nothing, zero_add]
  rcases heard.queue with same | ⟨unnamed, q, -, new⟩
  · refine ⟨?_, fun unnamed item member => ?_⟩
    · cases named : s.queue with
      | none => rw [Stream.held_unnamed (same.trans named), Stream.held_unnamed named]
      | some q => rw [Stream.held_named (same.trans named), Stream.held_named named, sums]
    · rw [items] at member
      rcases List.mem_append.mp member with ended | old
      · obtain ⟨status, -, rfl⟩ := List.mem_map.mp ended
        exact ⟨status, rfl⟩
      · exact named (same ▸ unnamed) item (before ▸ old)
  · refine ⟨?_, fun still => ?_⟩
    · rw [Stream.held_unnamed unnamed, Stream.held_named new, sums]
      refine List.sum_eq_zero fun part member => ?_
      obtain ⟨item, inside, rfl⟩ := List.mem_map.mp member
      obtain ⟨status, rfl⟩ := named unnamed item inside
      rfl
    · rw [new] at still
      cases still

/-- What is on the way after a consume. -/
theorem paused_held {q : String} (idle : s.idle = true) (named : s.queue = some q)
    (outcome : Outcome Empty (Option (DeliveryTag × Message))) :
    (paused uuid s outcome).held = s.held + Mqtt.deliveryOf q outcome := by
  have before : s.items = s.channel := by rw [Stream.items, Stream.sending_of_idle idle]; rfl
  cases outcome with
  | ok delivery =>
      cases delivery with
      | none => exact (add_zero _).symm
      | some delivery =>
          have queue : (paused uuid s (.ok (some delivery))).queue = some q := named
          rw [Stream.held_named queue, Stream.held_named named, before, add_comm]
          rfl
  | err e => exact e.elim
  | panicked | diverged => exact (add_zero _).symm

theorem paused_named {q : String} (named : s.queue = some q)
    (outcome : Outcome Empty (Option (DeliveryTag × Message))) : (paused uuid s outcome).Named := by
  have queue : (paused uuid s outcome).queue = some q := by
    rw [← named]
    unfold paused
    split <;> rfl
  intro unnamed
  rw [queue] at unnamed
  cases unnamed

theorem consumes_named {q : String} (idle : s.idle = true) (named : s.queue = some q) :
    s.consumes bc ids engine w .tick =
      Mqtt.deliveryOf q ((consumeOne bc engine q).run (Daemon.handle ids) w).1 := by
  simp only [Stream.consumes, idle, named]

theorem consumes_none (waits : s.idle = false ∨ s.queue = none) :
    s.consumes bc ids engine w .tick = 0 := by
  rcases waits with busy | unnamed
  · simp only [Stream.consumes, busy]
  · simp only [Stream.consumes]
    rw [unnamed]
    cases s.idle <;> rfl

/-- A task that has nothing to consume does nothing. -/
theorem streamTurn_waits (waits : s.idle = false ∨ s.queue = none) :
    streamTurn bc uuid ids engine s .tick w = (s, w) := by
  rcases waits with busy | unnamed
  · exact streamTurn_busy busy (.inl rfl)
  · exact streamTurn_unnamed unnamed

/-- What waits to be sent goes into the channel, or is lost where nobody receives. -/
theorem send_held (s : Stream) : s.held = s.send.held + s.strands .send := by
  cases sending : s.sending with
  | none =>
      have still : s.send = s := by rw [Stream.send, sending]
      have nothing : s.strands .send = 0 := by
        rw [Stream.strands, sending]
        exact (congrArg _ s.deliveries_nil).trans (ite_self _)
      rw [still, nothing, add_zero]
  | some item =>
      cases receiving : s.receiving with
      | false =>
          have failed : s.send = { s with running := false, sending := none } := by
            rw [Stream.send, sending, receiving]
            rfl
          have lost : s.strands .send = s.deliveries s.sending.toList := by
            rw [Stream.strands, receiving]
            rfl
          rw [lost, failed, s.held_eq, add_comm]
          rfl
      | true =>
          have nothing : s.strands .send = 0 := by
            rw [Stream.strands, receiving]
            rfl
          rw [nothing, add_zero]
          by_cases room : s.channel.length < streamSize
          · have sent : s.send = { s with
                running := item.toBool, sending := none, channel := s.channel ++ [item] } := by
              rw [Stream.send, sending, receiving]
              exact if_pos room
            rw [sent, s.held_eq, sending, add_comm]
            exact (s.deliveries_append s.channel [item]).symm
          · have full : s.send = s := by
              rw [Stream.send, sending, receiving]
              exact if_neg room
            rw [full]

/-- The books of a stream balance in every act. -/
theorem streamTurn_balances (named : s.Named) (a : StreamAct) (w : World) :
    Balances s.held (s.consumes bc ids engine w a) (streamTurn bc uuid ids engine s a w).1.held
      (s.hands a) (s.strands a) := by
  cases a with
  | inbound message =>
      refine .of_eq ?_
      by_cases idle : s.idle = true
      · exact ((streamTurn_inbound idle message w).held idle named).1
      · rw [streamTurn_busy (Bool.eq_false_iff.mpr idle) (.inr ⟨message, rfl⟩)]
  | tick =>
      change _ + _ = _ + 0 + 0
      rw [add_zero, add_zero]
      cases idle : s.idle with
      | false => rw [streamTurn_waits (.inl idle), consumes_none (.inl idle), add_zero]
      | true =>
          cases queue : s.queue with
          | none => rw [streamTurn_waits (.inr queue), consumes_none (.inr queue), add_zero]
          | some q =>
              rw [streamTurn_tick idle queue, consumes_named idle queue]
              exact (paused_held idle queue _).symm
  | send =>
      change s.held + 0 = s.send.held + 0 + _
      rw [add_zero, add_zero]
      exact send_held s
  | take =>
      have parts := s.deliveries_append (s.channel.take 1) s.channel.tail
      rw [← List.drop_one, List.take_append_drop] at parts
      change s.held + 0 = (s.deliveries (s.sending.toList ++ s.channel.tail)) + _ + 0
      rw [add_zero, add_zero, s.held_eq, s.deliveries_append, parts, List.drop_one]
      change _ = _ + s.deliveries (s.channel.take 1)
      ac_rfl
  | close =>
      change s.held + 0 = s.deliveries (s.sending.toList ++ []) + 0 + s.deliveries s.channel
      rw [add_zero, add_zero, List.append_nil, s.held_eq]

theorem inbound_tallies (idle : s.idle = true) (message : Option (Except String ConsumeStreamAck))
    (w : World) :
    ∃ gone, Tallies bc ids names w.manager
      (streamTurn bc uuid ids engine s (.inbound message) w).2.manager 0 gone ∧
        ∀ x ∈ gone, StreamAct.Names x (.inbound message) := by
  -- the task only settles, and only what the message names
  let P : Operation → Prop := fun op => ∃ q tag, (op = .ack q tag ∨ op = .nack q tag) ∧
    StreamAct.Names (q, tag) (.inbound message)
  have serves : Daemon.Serves bc ids P (inbound bc engine message s) := by
    refine Daemon.serves_inbound engine s ?_ ?_
    · rintro ack q tag rfl acks
      exact ⟨q, tag, .inl rfl, .inl acks⟩
    · rintro ack q tag rfl nacks
      exact ⟨q, tag, .inr rfl, .inr nacks⟩
  have reached : Reaches bc ids (fun step => P step.op) w.manager
      (streamTurn bc uuid ids engine s (.inbound message) w).2.manager := by
    simp only [streamTurn, streamAct, idle, if_true]
    exact serves.reaches w
  have live (op) (allowed : P op) : op.Live names := by
    obtain ⟨q, tag, rfl | rfl, -⟩ := allowed <;> trivial
  obtain ⟨got, gone, tallies, consumes, settles⟩ := reached.tallies live
  obtain rfl : got = 0 := Multiset.eq_zero_of_forall_notMem fun x member => by
    obtain ⟨q, tag, same | same, -⟩ := consumes x member <;> cases same
  refine ⟨gone, tallies, fun x member => ?_⟩
  rcases settles x member with ⟨q, tag, acks | nacks, names⟩ | ⟨q, tag, acks | nacks, names⟩
  · cases acks
    exact names
  · cases nacks
  · cases acks
  · cases nacks
    exact names

/-- An act returns what it consumes and settles what the client names. -/
theorem streamTurn_tallies (s : Stream) (a : StreamAct) (w : World) :
    ∃ gone, Tallies bc ids names w.manager (streamTurn bc uuid ids engine s a w).2.manager
      (s.consumes bc ids engine w a) gone ∧ ∀ x ∈ gone, a.Names x := by
  have still {a : StreamAct} (same : (streamTurn bc uuid ids engine s a w).2 = w) :
      ∃ gone, Tallies bc ids names w.manager (streamTurn bc uuid ids engine s a w).2.manager 0 gone ∧
        ∀ x ∈ gone, a.Names x := by
    refine ⟨0, ?_, fun _ member => absurd member (Multiset.notMem_zero _)⟩
    rw [same]
    exact .refl _
  cases a with
  | inbound message =>
      by_cases idle : s.idle = true
      · exact inbound_tallies idle message w
      · have busy := Bool.eq_false_iff.mpr idle
        exact still (congrArg Prod.snd (streamTurn_busy busy (.inr ⟨message, rfl⟩)))
  | tick =>
      by_cases named : s.idle = true ∧ ∃ q, s.queue = some q
      · obtain ⟨idle, q, queue⟩ := named
        rw [streamTurn_tick idle queue, consumes_named idle queue]
        exact ⟨0, Mqtt.consumeOne_tallies w q, fun _ member => absurd member (Multiset.notMem_zero _)⟩
      · have waits : s.idle = false ∨ s.queue = none := by
          rw [not_and_or] at named
          exact named.imp Bool.eq_false_iff.mpr fun none =>
            Option.eq_none_iff_forall_ne_some.mpr fun q queue => none ⟨q, queue⟩
        rw [consumes_none waits]
        exact still (congrArg Prod.snd (streamTurn_waits waits))
  | send | take | close => exact still rfl

theorem streamTurn_named (named : s.Named) (a : StreamAct) (w : World) :
    (streamTurn bc uuid ids engine s a w).1.Named := by
  cases a with
  | inbound message =>
      by_cases idle : s.idle = true
      · exact ((streamTurn_inbound idle message w).held idle named).2
      · rw [streamTurn_busy (Bool.eq_false_iff.mpr idle) (.inr ⟨message, rfl⟩)]
        exact named
  | tick =>
      cases idle : s.idle with
      | false =>
          rw [streamTurn_waits (.inl idle)]
          exact named
      | true =>
          cases queue : s.queue with
          | none =>
              rw [streamTurn_waits (.inr queue)]
              exact named
          | some q =>
              rw [streamTurn_tick idle queue]
              exact paused_named queue _
  | send => exact named.subperm s.send_queue s.send_items
  | take => exact named.subperm rfl ((List.tail_sublist _).append_left _).subperm
  | close => exact named.subperm rfl ((List.nil_sublist _).append_left _).subperm

end Acts

end Grpc

end PelicanQ
