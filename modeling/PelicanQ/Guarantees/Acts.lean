import PelicanQ.Guarantees.Following
import PelicanQ.Guarantees.Tags
import PelicanQ.Lib.Holdings

/-! # What an act of a connection does

Everything an act can do to a connection, and what it does to the manager meanwhile,
counted in deliveries: those it was given and those it settled.  What holds of every
run of a connection follows case by case.
-/

namespace PelicanQ

/-- What the last turn of a run adds to a record of it. -/
theorem filterMap_last {α β : Type} (f : α → Option β) (past : List α) (last : α) :
    (past ++ [last]).filterMap f = past.filterMap f ++ (f last).toList := by
  rw [List.filterMap_append]
  cases made : f last with
  | none => rw [List.filterMap_cons_none made]; rfl
  | some item => rw [List.filterMap_cons_some made]; rfl

/-! ## Deliveries in and out of flight -/

/-- The delivery an event returned. -/
def Event.got (e : Event) : Multiset (String × DeliveryTag) :=
  match e.step.op, e.response with
  | .consume q, .consumed (.ok (some (tag, _))) => {(q, tag)}
  | _, _ => 0

/-- The delivery an event settled. -/
def Event.gone (e : Event) : Multiset (String × DeliveryTag) :=
  match e.step.op, e.response with
  | .ack q tag, .acked (.ok ()) => {(q, tag)}
  | .nack q tag, .nacked (.ok ()) => {(q, tag)}
  | _, _ => 0

theorem Event.mem_got {e : Event} {q : String} {tag : DeliveryTag} :
    (q, tag) ∈ e.got ↔ ∃ m, e.Returned q tag m := by
  unfold Event.got Event.Returned
  constructor
  · intro member
    split at member
    · rename_i q' tag' m op response
      cases Multiset.mem_singleton.mp member
      exact ⟨m, op, response⟩
    · exact absurd member (Multiset.notMem_zero _)
  · rintro ⟨m, op, response⟩
    rw [op, response]
    exact Multiset.mem_singleton_self _

theorem Event.mem_gone {e : Event} {q : String} {tag : DeliveryTag} :
    (q, tag) ∈ e.gone ↔ e.Settles q tag := by
  unfold Event.gone Event.Settles
  constructor
  · intro member
    split at member
    · rename_i op response
      cases Multiset.mem_singleton.mp member
      exact .inl ⟨op, response⟩
    · rename_i op response
      cases Multiset.mem_singleton.mp member
      exact .inr ⟨op, response⟩
    · exact absurd member (Multiset.notMem_zero _)
  · rintro (⟨op, response⟩ | ⟨op, response⟩)
    all_goals
      rw [op, response]
      exact Multiset.mem_singleton_self _

/-- The operations of a handler: no restart. -/
def Operation.Live (names : List String) : Operation → Prop
  | .declareQueueWithRetention name _ => name ∈ names
  | .publish .. | .consume _ | .ack .. | .nack .. => True
  | .promoteScheduled _ | .applyRetention _ | .reopen _ => False

/-- The operations that neither deliver nor settle. -/
def Operation.Calm (names : List String) : Operation → Prop
  | .declareQueueWithRetention name _ => name ∈ names
  | .publish .. => True
  | _ => False

section Tallies

variable (bc : Bincode) (ids : Nat → UInt64) (names : List String)

/-- Operations that lead from one manager to the other return these deliveries and settle those. -/
def Tallies (qm qm' : QueueManager) (got gone : Multiset (String × DeliveryTag)) : Prop :=
  ∃ steps : List Step, (∀ step ∈ steps, step.op.Live names) ∧ qm' = final bc ids qm steps ∧
    ((events bc ids qm steps).map Event.got).sum = got ∧
    ((events bc ids qm steps).map Event.gone).sum = gone

variable {bc ids names} {qm qm' : QueueManager}

theorem Tallies.refl (qm : QueueManager) : Tallies bc ids names qm qm 0 0 :=
  ⟨[], fun _ member => absurd member List.not_mem_nil, rfl, rfl, rfl⟩

theorem Tallies.one (op : Operation) (live : op.Live names) (clock : Nat → Int64) :
    Tallies bc ids names qm (op.perform bc ids clock qm).2
      (performed bc ids qm ⟨op, clock⟩).got (performed bc ids qm ⟨op, clock⟩).gone := by
  refine ⟨[⟨op, clock⟩], fun step member => ?_, rfl, ?_, ?_⟩
  · rw [List.mem_singleton.mp member]
    exact live
  · simp only [events, List.map_cons, List.map_nil, List.sum_cons, List.sum_nil, add_zero]
  · simp only [events, List.map_cons, List.map_nil, List.sum_cons, List.sum_nil, add_zero]

theorem mem_events {steps : List Step} {e : Event} (member : e ∈ events bc ids qm steps) :
    e.step ∈ steps :=
  events_steps bc ids qm steps ▸ List.mem_map_of_mem member

/-- What allowed operations return and settle. -/
theorem Reaches.tallies {P : Operation → Prop} (live : ∀ op, P op → op.Live names)
    (reached : Reaches bc ids (fun step => P step.op) qm qm') :
    ∃ got gone, Tallies bc ids names qm qm' got gone ∧ (∀ x ∈ got, P (.consume x.1)) ∧
      ∀ x ∈ gone, P (.ack x.1 x.2) ∨ P (.nack x.1 x.2) := by
  obtain ⟨steps, allowed, rfl⟩ := reached
  refine ⟨_, _, ⟨steps, fun step member => live _ (allowed step member), rfl, rfl, rfl⟩, ?_, ?_⟩
  · rintro ⟨q, tag⟩ member
    obtain ⟨_, inside, got⟩ := Holdings.mem_sum.mp member
    obtain ⟨e, made, rfl⟩ := List.mem_map.mp inside
    obtain ⟨m, op, -⟩ := Event.mem_got.mp got
    exact op ▸ allowed e.step (mem_events made)
  · rintro ⟨q, tag⟩ member
    obtain ⟨_, inside, gone⟩ := Holdings.mem_sum.mp member
    obtain ⟨e, made, rfl⟩ := List.mem_map.mp inside
    rcases Event.mem_gone.mp gone with ⟨op, -⟩ | ⟨op, -⟩
    · exact .inl (op ▸ allowed e.step (mem_events made))
    · exact .inr (op ▸ allowed e.step (mem_events made))

theorem Operation.Calm.live {op : Operation} (calm : op.Calm names) : op.Live names := by
  cases op with
  | declareQueueWithRetention => exact calm
  | publish => trivial
  | _ => exact calm.elim

/-- Declaring and publishing delivers and settles nothing. -/
theorem Reaches.calm (reached : Reaches bc ids (fun step => step.op.Calm names) qm qm') :
    Tallies bc ids names qm qm' 0 0 := by
  obtain ⟨got, gone, tallies, consumes, settles⟩ := reached.tallies fun _ => Operation.Calm.live
  obtain rfl : got = 0 := Multiset.eq_zero_of_forall_notMem fun x member => consumes x member
  obtain rfl : gone = 0 :=
    Multiset.eq_zero_of_forall_notMem fun x member => (settles x member).elim id id
  exact tallies

end Tallies

namespace Mqtt

open Daemon (World Task)

variable (bc : Bincode) (ids : Nat → UInt64) (engine : AppEngine)

/-- Does an operation of a handler reach the manager? -/
def reachesManager (w : World) : Bool :=
  !w.poisoned && match engine with
    | .solo => true
    | .flock => w.consensus 0 = .applies

/-- Does the ack of a delivery settle it? -/
def settles (w : World) (q : String) (tag : DeliveryTag) : Bool :=
  reachesManager engine w &&
    ((Operation.ack q tag).perform bc ids w.machine.clock w.manager).1 = .acked (.ok ())

variable {bc ids engine} {names : List String}

/-- How `consume_one` looks at the outcome of a consume. -/
def found : Outcome PelicanError (Option (DeliveryTag × Message)) →
    Outcome Empty (Option (DeliveryTag × Message))
  | .ok delivery => .ok delivery
  | .err _ => .ok none
  | .panicked => .panicked
  | .diverged => .diverged

/-- A consume that reaches the manager ends as it does there. -/
theorem run_consumeOne_reaches (bc : Bincode) (ids : Nat → UInt64) {w : World}
    (reaches : reachesManager engine w = true) (q : String) :
    ((consumeOne bc engine q).run (Daemon.handle ids) w).1 =
        found ((QueueManager.consume bc q).run (handle ids) w.machine).1 ∧
      ((consumeOne bc engine q).run (Daemon.handle ids) w).2.manager =
        ((QueueManager.consume bc q).run (handle ids) w.machine).2.manager := by
  obtain ⟨fresh, applies⟩ := Bool.and_eq_true_iff.mp reaches
  have fresh : w.poisoned = false := by simpa using fresh
  cases engine with
  | solo =>
      rw [consumeOne, Daemon.run_core_bind ids fresh]
      cases ((QueueManager.consume bc q).run (handle ids) w.machine).1 <;> exact ⟨rfl, rfl⟩
  | flock =>
      have fresh' : w.decided.poisoned = false := fresh
      have machine : w.decided.machine = w.machine := rfl
      rw [consumeOne, Program.run_bind, Daemon.run_clientWrite ids bc _ (of_decide_eq_true applies),
        Daemon.run_core_bind ids fresh', machine, applyOperation, Program.run_bind,
        Program.run_attempt]
      cases ((QueueManager.consume bc q).run (handle ids) w.machine).1 <;> exact ⟨rfl, rfl⟩

/-- One that does not leaves the manager alone: consensus declines it, or it panics. -/
theorem run_consumeOne_apart (bc : Bincode) (ids : Nat → UInt64) {w : World}
    (apart : reachesManager engine w = false) (q : String) :
    (((consumeOne bc engine q).run (Daemon.handle ids) w).1 = .ok none ∨
        ((consumeOne bc engine q).run (Daemon.handle ids) w).1 = .panicked) ∧
      ((consumeOne bc engine q).run (Daemon.handle ids) w).2.manager = w.manager := by
  cases engine with
  | solo =>
      have poisoned : w.poisoned = true := by simpa [reachesManager] using apart
      rw [consumeOne, Daemon.run_core_bind_poisoned ids poisoned]
      exact ⟨.inr rfl, rfl⟩
  | flock =>
      rw [consumeOne, Program.run_bind]
      by_cases applies : w.consensus 0 = .applies
      · have poisoned : w.poisoned = true := by simpa [reachesManager, applies] using apart
        rw [Daemon.run_clientWrite_poisoned ids poisoned bc _ applies]
        exact ⟨.inr rfl, rfl⟩
      · obtain ⟨result, unanswered, ran⟩ :=
          Daemon.run_clientWrite_declines ids bc (.consume q) applies (ε := Empty)
        rw [ran]
        cases result with
        | ok response => exact absurd rfl (unanswered response)
        | notLeader | error => exact ⟨.inl rfl, rfl⟩

/-- What a consume returned. -/
def deliveryOf (q : String) : Outcome Empty (Option (DeliveryTag × Message)) →
    Multiset (String × DeliveryTag)
  | .ok (some (tag, _)) => {(q, tag)}
  | _ => 0

/-- A delivery is what the manager's consume returned. -/
theorem consumeOne_tallies (w : World) (q : String) :
    Tallies bc ids names w.manager
      ((consumeOne bc engine q).run (Daemon.handle ids) w).2.manager
      (deliveryOf q ((consumeOne bc engine q).run (Daemon.handle ids) w).1) 0 := by
  have made : Tallies bc ids names w.manager
      ((QueueManager.consume bc q).run (handle ids) w.machine).2.manager
      (deliveryOf q (found ((QueueManager.consume bc q).run (handle ids) w.machine).1)) 0 := by
    have one : Tallies bc ids names w.manager _ _ _ := .one (.consume q) trivial w.machine.clock
    have got : (performed bc ids w.manager ⟨.consume q, w.machine.clock⟩).got =
        deliveryOf q (found ((QueueManager.consume bc q).run (handle ids) w.machine).1) := by
      change (Event.got ⟨⟨.consume q, _⟩, _,
        .consumed ((QueueManager.consume bc q).run (handle ids) w.machine).1, _⟩) = _
      cases ((QueueManager.consume bc q).run (handle ids) w.machine).1 with
      | ok delivery => cases delivery <;> rfl
      | err | panicked | diverged => rfl
    rw [got] at one
    exact one
  cases reaches : reachesManager engine w with
  | true =>
      obtain ⟨outcome, manager⟩ := run_consumeOne_reaches bc ids reaches q
      rw [outcome, manager]
      exact made
  | false =>
      obtain ⟨outcome, manager⟩ := run_consumeOne_apart bc ids reaches q
      rw [manager]
      rcases outcome with ended | ended <;> exact ended ▸ .refl _

theorem run_ackMessage_reaches {w : World} (reaches : reachesManager engine w = true) (q : String)
    (tag : DeliveryTag) :
    ((ackMessage bc engine q tag).run (Daemon.handle ids) w).2.manager =
      ((QueueManager.ack q tag).run (handle ids) w.machine).2.manager := by
  obtain ⟨fresh, applies⟩ := Bool.and_eq_true_iff.mp reaches
  have fresh : w.poisoned = false := by simpa using fresh
  cases engine with
  | solo =>
      rw [ackMessage, Daemon.run_core_bind ids fresh]
      cases ((QueueManager.ack q tag).run (handle ids) w.machine).1 <;> rfl
  | flock =>
      have fresh' : w.decided.poisoned = false := fresh
      have machine : w.decided.machine = w.machine := rfl
      rw [ackMessage, Program.run_bind, Daemon.run_clientWrite ids bc _ (of_decide_eq_true applies),
        Daemon.run_core_bind ids fresh', machine, applyOperation, Program.run_bind,
        Program.run_attempt]
      cases ((QueueManager.ack q tag).run (handle ids) w.machine).1 <;> rfl

theorem run_ackMessage_apart {w : World} (apart : reachesManager engine w = false) (q : String)
    (tag : DeliveryTag) :
    ((ackMessage bc engine q tag).run (Daemon.handle ids) w).2.manager = w.manager := by
  cases engine with
  | solo =>
      have poisoned : w.poisoned = true := by simpa [reachesManager] using apart
      rw [ackMessage, Daemon.run_core_bind_poisoned ids poisoned]
  | flock =>
      rw [ackMessage, Program.run_bind]
      by_cases applies : w.consensus 0 = .applies
      · have poisoned : w.poisoned = true := by simpa [reachesManager, applies] using apart
        rw [Daemon.run_clientWrite_poisoned ids poisoned bc _ applies]
        rfl
      · obtain ⟨result, -, ran⟩ :=
          Daemon.run_clientWrite_declines ids bc (.ack q tag) applies (ε := Empty)
        rw [ran]
        rfl

/-- What an ack settles. -/
def settled (bc : Bincode) (ids : Nat → UInt64) (engine : AppEngine) (w : World) (q : String)
    (tag : DeliveryTag) : Multiset (String × DeliveryTag) :=
  if settles bc ids engine w q tag then {(q, tag)} else 0

theorem ackMessage_tallies (w : World) (q : String) (tag : DeliveryTag) :
    Tallies bc ids names w.manager
      ((ackMessage bc engine q tag).run (Daemon.handle ids) w).2.manager 0
      (settled bc ids engine w q tag) := by
  have made : Tallies bc ids names w.manager
      ((QueueManager.ack q tag).run (handle ids) w.machine).2.manager 0
      (if ((Operation.ack q tag).perform bc ids w.machine.clock w.manager).1 = .acked (.ok ()) then
        {(q, tag)} else 0) := by
    have one : Tallies bc ids names w.manager _ _ _ := .one (.ack q tag) trivial w.machine.clock
    have gone : (performed bc ids w.manager ⟨.ack q tag, w.machine.clock⟩).gone =
        if ((Operation.ack q tag).perform bc ids w.machine.clock w.manager).1 = .acked (.ok ())
          then {(q, tag)} else 0 := by
      change (Event.gone ⟨⟨.ack q tag, _⟩, _,
        .acked ((QueueManager.ack q tag).run (handle ids) w.machine).1, _⟩) =
          if Response.acked ((QueueManager.ack q tag).run (handle ids) w.machine).1 = _ then _ else _
      cases ((QueueManager.ack q tag).run (handle ids) w.machine).1 with
      | ok value => exact (if_pos rfl).symm
      | err | panicked | diverged => exact (if_neg (by simp)).symm
    rw [gone] at one
    exact one
  cases reaches : reachesManager engine w with
  | true =>
      rw [run_ackMessage_reaches reaches]
      simp only [settled, settles, reaches, Bool.true_and, decide_eq_true_eq]
      exact made
  | false =>
      rw [run_ackMessage_apart reaches]
      simp only [settled, settles, reaches, Bool.false_and, Bool.false_eq_true, if_false]
      exact .refl _

/-! ## One act -/

variable (bc ids engine) in
/-- The session and the daemon an act leaves. -/
def turn (s : Session) (a : Act) (w : World) : Option Session × World :=
  let r := (act bc engine s a).run (Daemon.handle ids) w
  (Daemon.sessionAfter s a r.1, r.2)

section Turns

variable {s : Session} {c : Connection} {w : World}

theorem turn_handOver (s : Session) (i : Nat) (w : World) :
    turn bc ids engine s (.handOver i) w =
      (some { s with connection := s.connection.handOver i }, w) := rfl

/-- Inside the handling of a packet the loop does nothing else. -/
theorem turn_busy (busy : s.phase ≠ .waiting) {a : Act}
    (loops : (∃ packet, a = .packet packet) ∨ a = .deliver ∨ a = .hangUp) :
    turn bc ids engine s a w = (some s, w) := by
  obtain ⟨phase, c⟩ := s
  rcases loops with ⟨packet, rfl⟩ | rfl | rfl
  all_goals cases phase with
    | waiting => exact absurd rfl busy
    | publishing | subscribing => rfl

theorem turn_hangUp (c : Connection) (w : World) :
    turn bc ids engine ⟨.waiting, c⟩ .hangUp w = (none, w) := rfl

theorem turn_deliver {d : Incoming} {rest : List Incoming} (queued : c.channel = d :: rest) :
    turn bc ids engine ⟨.waiting, c⟩ .deliver w =
      (if w.socket 0 then some ⟨.waiting, c.take d rest⟩ else none,
        w.wrote (deliveryPacket d c.nextPkid)) := by
  change ((Daemon.sessionAfter _ _ ((deliver c).run (Daemon.handle ids) w).1,
    ((deliver c).run (Daemon.handle ids) w).2)) = _
  rw [deliver, queued, Daemon.run_send]
  cases w.socket 0 <;> rfl

theorem turn_deliver_none (empty : c.channel = []) :
    turn bc ids engine ⟨.waiting, c⟩ .deliver w = (some ⟨.waiting, c⟩, w) := by
  change ((Daemon.sessionAfter _ _ ((deliver c).run (Daemon.handle ids) w).1,
    ((deliver c).run (Daemon.handle ids) w).2)) = _
  rw [deliver, empty]
  rfl

/-- The connection without the pollers of some queues. -/
def Connection.without (c : Connection) (topics : List String) : Connection :=
  { c with subscriptions := c.subscriptions.filter (!topics.contains ·.queue) }

theorem turn_packet (c : Connection) (packet : Packet) (w : World) :
    turn bc ids engine ⟨.waiting, c⟩ (.packet packet) w =
      (Daemon.sessionAfter ⟨.waiting, c⟩ (.packet packet)
        ((receive bc engine packet c).run (Daemon.handle ids) w).1,
        ((receive bc engine packet c).run (Daemon.handle ids) w).2) := rfl

theorem receive_unsubscribe (c : Connection) (pkid : UInt16) (topics : List String) :
    receive bc engine (.unsubscribe pkid topics) c = (Daemon.send (.unsubAck pkid) >>= fun written =>
      if written then pure (some ⟨.waiting, c.without topics⟩) else pure none) :=
  congrArg (Program.call _) (funext fun written => by cases written <;> rfl)

theorem turn_unsubscribe (c : Connection) (pkid : UInt16) (topics : List String) (w : World) :
    turn bc ids engine ⟨.waiting, c⟩ (.packet (.unsubscribe pkid topics)) w =
      (if w.socket 0 then some ⟨.waiting, c.without topics⟩ else none,
        w.wrote (.unsubAck pkid)) := by
  rw [turn_packet, receive_unsubscribe, Daemon.run_send]
  cases w.socket 0 <;> rfl

/-- The connection once a packet id is acknowledged. -/
def Connection.released (c : Connection) (pkid : UInt16) : Connection :=
  { c with inflight := Function.update c.inflight pkid none }

theorem receive_pubAck {pkid : UInt16} {q : String} {tag : DeliveryTag}
    (present : c.inflight pkid = some (q, tag)) :
    receive bc engine (.pubAck pkid) c = (ackMessage bc engine q tag >>= fun _ =>
      pure (some ⟨.waiting, c.released pkid⟩)) := by
  change (handleClientPacket bc engine (.pubAck pkid) c >>= fun r => pure (goesOn r)) = _
  unfold handleClientPacket
  simp only [present, Program.bind_assoc]
  rfl

theorem receive_pubAck_unknown {pkid : UInt16} (absent : c.inflight pkid = none) :
    receive bc engine (.pubAck pkid) c = pure (some ⟨.waiting, c⟩) := by
  change (handleClientPacket bc engine (.pubAck pkid) c >>= fun r => pure (goesOn r)) = _
  unfold handleClientPacket
  simp only [absent]
  rfl

theorem turn_pubAck {pkid : UInt16} {q : String} {tag : DeliveryTag}
    (present : c.inflight pkid = some (q, tag)) :
    turn bc ids engine ⟨.waiting, c⟩ (.packet (.pubAck pkid)) w =
      (if ((ackMessage bc engine q tag).run (Daemon.handle ids) w).1 = .ok () then
          some ⟨.waiting, c.released pkid⟩ else none,
        ((ackMessage bc engine q tag).run (Daemon.handle ids) w).2) := by
  rw [turn_packet, receive_pubAck present, Program.run_bind]
  cases (ackMessage bc engine q tag).run (Daemon.handle ids) w with
  | mk outcome w' =>
      cases outcome with
      | ok value => rfl
      | err e => exact e.elim
      | panicked | diverged => rfl

theorem turn_pubAck_unknown {pkid : UInt16} (absent : c.inflight pkid = none) :
    turn bc ids engine ⟨.waiting, c⟩ (.packet (.pubAck pkid)) w = (some ⟨.waiting, c⟩, w) := by
  rw [turn_packet, receive_pubAck_unknown absent]
  rfl

/-- A connection that only its phase has changed, or that is closed. -/
def Unchanged (c : Connection) (after : Option Session) : Prop :=
  ∀ s, after = some s → s.connection = c

theorem unchanged_none (c : Connection) : Unchanged c none := fun _ closed => absurd closed (by simp)

theorem unchanged_some (phase : Phase) (c : Connection) : Unchanged c (some ⟨phase, c⟩) := by
  rintro _ ⟨⟩
  rfl

theorem unchanged_written (packet : Packet) (c : Connection) :
    (Daemon.send packet >>= fun written =>
      if written then (pure (some ⟨.waiting, c⟩) : Task Empty _) else pure none).Ends
        (Unchanged c) fun _ => True := by
  refine .last (fun _ => trivial) fun written => ?_
  cases written
  · exact unchanged_none c
  · exact unchanged_some _ c

/-- The packets that change the connection are acknowledgements and unsubscriptions. -/
theorem unchanged_receive {packet : Packet} (acks : ∀ pkid, packet ≠ .pubAck pkid)
    (leaves : ∀ pkid topics, packet ≠ .unsubscribe pkid topics) (c : Connection) :
    (receive bc engine packet c).Ends (Unchanged c) fun _ => True := by
  cases packet with
  | publish => exact .last (fun _ => trivial) fun _ => unchanged_some _ c
  | subscribe pkid filters => exact unchanged_some _ c
  | pubAck pkid => exact absurd rfl (acks pkid)
  | unsubscribe pkid topics => exact absurd rfl (leaves pkid topics)
  | pingReq =>
      intro written
      cases written
      · exact unchanged_none c
      · exact unchanged_some _ c
  | disconnect => exact unchanged_none c
  | connect | connAck | pubRec | pubRel | pubComp | subAck | unsubAck | pingResp =>
      exact unchanged_some _ c

/-- What holds of every way an act can end holds of the session it leaves. -/
theorem sessionAfter_of_ends {V : Option Session → Prop} {p : Task Empty (Option Session)}
    (ends : p.Ends V fun _ => True) (closed : V none) (s : Session) {a : Act}
    (looped : ∀ i, a ≠ .tick i) (w : World) :
    V (Daemon.sessionAfter s a (p.run (Daemon.handle ids) w).1) := by
  cases ran : (p.run (Daemon.handle ids) w).1 with
  | ok after => exact ends.ok ran
  | err e => exact e.elim
  | panicked | diverged =>
      cases a with
      | tick i => exact absurd rfl (looped i)
      | _ => exact closed

section Other

variable {packet : Packet} (acks : ∀ pkid, packet ≠ .pubAck pkid)
include acks

/-- A packet that is neither an acknowledgement nor an unsubscription. -/
theorem turn_other (leaves : ∀ pkid topics, packet ≠ .unsubscribe pkid topics) (c : Connection)
    (w : World) : Unchanged c (turn bc ids engine ⟨.waiting, c⟩ (.packet packet) w).1 := by
  rw [turn_packet]
  dsimp only
  refine sessionAfter_of_ends (unchanged_receive acks leaves c) (unchanged_none c) _ ?_ w
  exact fun _ => by simp

theorem turn_other_tallies (c : Connection) (w : World)
    (inside : ∀ name ∈ Daemon.packetDeclares packet, name ∈ names) :
    Tallies bc ids names w.manager
      (turn bc ids engine ⟨.waiting, c⟩ (.packet packet) w).2.manager 0 0 := by
  rw [turn_packet]
  refine Reaches.calm ?_
  exact (Daemon.serves_receive engine c inside fun pkid _ _ same => (acks pkid same).elim).reaches w

end Other

/-- The connection once a filter is handled: a queue it polls already gets no second poller. -/
def Connection.subscribed (c : Connection) (path : String) : Connection :=
  if hasWildcard path then c
  else if c.subscriptions.any (·.queue == path) then c
  else { c with subscriptions := c.subscriptions ++ [.new path] }

/-- The connection once the handling of a packet has gone on. -/
def proceeded (s : Session) : Connection :=
  match s.phase with
  | .subscribing _ ((path, _) :: _) _ => s.connection.subscribed path
  | _ => s.connection

theorem subscribe_ends (path : String) (qos : QoS) (c : Connection) :
    (subscribe bc engine path qos c).Ends (fun r => r.1 = c.subscribed path) fun _ => True := by
  unfold subscribe Connection.subscribed
  by_cases wildcard : hasWildcard path = true
  · rw [if_pos wildcard, if_pos wildcard]
    rfl
  · rw [if_neg wildcard, if_neg wildcard]
    refine .last (fun _ => trivial) fun _ => ?_
    by_cases known : (c.subscriptions.any (·.queue == path)) = true
    · rw [if_pos known, if_pos known]
      rfl
    · rw [if_neg known, if_neg known]
      rfl

theorem unchanged_proceed (s : Session) :
    (proceed bc engine s).Ends (Unchanged (proceeded s)) fun _ => True := by
  obtain ⟨phase, c⟩ := s
  cases phase with
  | waiting => exact unchanged_some _ c
  | publishing qos queue pkid payload =>
      refine .last (fun _ => trivial) fun _ => ?_
      split_ifs
      · exact unchanged_written _ c
      · exact unchanged_some _ c
  | subscribing pkid filters returnCodes =>
      cases filters with
      | nil => exact unchanged_written _ c
      | cons filter rest =>
          refine (subscribe_ends filter.1 filter.2 c).bind fun r subscribed => ?_
          rintro s ⟨⟩
          exact subscribed

theorem turn_proceed (s : Session) (w : World) :
    Unchanged (proceeded s) (turn bc ids engine s .proceed w).1 := by
  change Unchanged (proceeded s)
    (Daemon.sessionAfter s .proceed ((proceed bc engine s).run (Daemon.handle ids) w).1)
  refine sessionAfter_of_ends (unchanged_proceed s) (unchanged_none _) s ?_ w
  exact fun _ => by simp

theorem turn_proceed_tallies (s : Session) (w : World)
    (left : ∀ name ∈ Daemon.pending s, name ∈ names) :
    Tallies bc ids names w.manager (turn bc ids engine s .proceed w).2.manager 0 0 :=
  Reaches.calm ((Daemon.serves_proceed engine s left fun _ _ _ => trivial).reaches w)

/-- The session a poller's consume leaves.  One that panics is the poller's last. -/
def polled (s : Session) (i : Nat) (q : String) :
    Outcome Empty (Option (DeliveryTag × Message)) → Session
  | .ok (some (tag, msg)) =>
      { s with connection := s.connection.setPoller i ⟨q, some ⟨q, tag, msg.payload⟩, true⟩ }
  | .ok none => s
  | _ => { s with connection := s.connection.setPoller i ⟨q, none, false⟩ }

theorem turn_tick {i : Nat} {q : String}
    (idle : s.connection.subscriptions[i]? = some (.new q)) :
    turn bc ids engine s (.tick i) w =
      (some (polled s i q ((consumeOne bc engine q).run (Daemon.handle ids) w).1),
        ((consumeOne bc engine q).run (Daemon.handle ids) w).2) := by
  have broken : s.connection.breakPoller i = s.connection.setPoller i ⟨q, none, false⟩ := by
    rw [Connection.breakPoller, idle]
    rfl
  change (Daemon.sessionAfter s (.tick i) ((tick bc engine i s).run (Daemon.handle ids) w).1,
    ((tick bc engine i s).run (Daemon.handle ids) w).2) = _
  rw [tick, idle, Poller.new]
  simp only [Program.run_bind]
  cases (consumeOne bc engine q).run (Daemon.handle ids) w with
  | mk outcome w' =>
      cases outcome with
      | ok delivery => cases delivery <;> rfl
      | err e => exact e.elim
      | panicked | diverged => simp only [Outcome.andThen, Daemon.sessionAfter, broken, polled]

theorem turn_tick_busy {i : Nat} (busy : ∀ q, s.connection.subscriptions[i]? ≠ some (.new q)) :
    turn bc ids engine s (.tick i) w = (some s, w) := by
  change (Daemon.sessionAfter s (.tick i) ((tick bc engine i s).run (Daemon.handle ids) w).1,
    ((tick bc engine i s).run (Daemon.handle ids) w).2) = _
  unfold tick
  split
  · exact absurd ‹_› (busy _)
  · rfl

end Turns

end Mqtt

end PelicanQ
