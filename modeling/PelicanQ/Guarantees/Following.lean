import PelicanQ.Guarantees.Serving

/-! # What the daemon does to its manager

Whatever the clients do and however their tasks interleave, the manager of a daemon
is one that declares, publishes, consumes, acks, nacks and restarts lead to.  So
everything that holds of all runs of a manager holds of the daemon.

Nothing the daemon does promotes scheduled messages or applies retention.
-/

namespace PelicanQ

/-- The operations that some handler makes, when the queues it declares are among the names. -/
def Operation.Served (names : List String) : Operation → Prop
  | .declareQueueWithRetention name _ => name ∈ names
  | .publish .. | .consume _ | .ack .. | .nack .. | .reopen _ => True
  | .promoteScheduled _ | .applyRetention _ => False

namespace Operation.Served

variable {names : List String} {op : Operation}

theorem declares (served : op.Served names) : ∀ name ∈ op.declares, name ∈ names := by
  intro name member
  cases op with
  | declareQueueWithRetention name' policy =>
      rw [List.mem_singleton.mp member]
      exact served
  | promoteScheduled | applyRetention => exact served.elim
  | publish | consume | ack | nack | reopen => exact absurd member List.not_mem_nil

theorem plain (served : op.Served names) (q : String) : op ≠ .promoteScheduled q := by
  rintro rfl
  exact served

theorem unretained (served : op.Served names) (q : String) : op ≠ .applyRetention q := by
  rintro rfl
  exact served

end Operation.Served

theorem served_names {names : List String} {steps : List Step}
    (served : ∀ step ∈ steps, step.op.Served names) : ∀ a ∈ declaredNames steps, a ∈ names := by
  intro a member
  obtain ⟨step, inside, declares⟩ := List.mem_flatMap.mp member
  exact (served step inside).declares a declares

/-- A served operation that schedules messages only for times that are asked for. -/
def Operation.Asked (names : List String) (Asks : String → Int64 → Prop) (op : Operation) : Prop :=
  op.Served names ∧ ∀ q m time, op = .publish q m → m.deliverAt = some time → Asks q time

namespace Operation.Asked

variable {names : List String} {Asks : String → Int64 → Prop} {op : Operation}

/-- Only a publish schedules. -/
theorem other (served : op.Served names) (apart : ∀ q m, op ≠ .publish q m) : op.Asked names Asks :=
  ⟨served, fun q m _ same => absurd same (apart q m)⟩

theorem declare {name : String} {policy : RetentionPolicy} (inside : name ∈ names) :
    (declareQueueWithRetention name policy).Asked names Asks := other inside (by simp)

theorem consume (q : String) : (consume q).Asked names Asks := other trivial (by simp)

theorem ack (q : String) (tag : DeliveryTag) : (ack q tag).Asked names Asks :=
  other trivial (by simp)

theorem nack (q : String) (tag : DeliveryTag) : (nack q tag).Asked names Asks :=
  other trivial (by simp)

theorem reopen (maxBytes : Option UInt64) : (reopen maxBytes).Asked names Asks :=
  other trivial (by simp)

theorem publish {q : String} {m : Message} (asks : ∀ time, m.deliverAt = some time → Asks q time) :
    (publish q m).Asked names Asks := by
  refine ⟨trivial, ?_⟩
  rintro _ _ time ⟨⟩
  exact asks time

/-- A message that is not scheduled. -/
theorem plain {q : String} {m : Message} (now : m.deliverAt = none) :
    (Operation.publish q m).Asked names Asks :=
  publish fun time later => by rw [now] at later; cases later

end Operation.Asked

namespace Daemon

/-! ## What is allowed -/

/-- The request asks for a delivery to the queue at the time. -/
def Request.Asks (r : Request) (q : String) (time : Int64) : Prop :=
  match r with
  | .grpc (.publish queue message) => queue = q ∧ ∃ msg ∈ message, msg.deliverAt = some time
  | .grpc (.publishBatch queue messages) => queue = q ∧ ∃ msg ∈ messages, msg.deliverAt = some time
  | _ => False

def entryAsks (op : QueueOperation) (q : String) (time : Int64) : Prop :=
  match op with
  | .publish queue m => queue = q ∧ m.deliverAt = some time
  | .publishBatch queue messages => queue = q ∧ ∃ m ∈ messages, m.deliverAt = some time
  | _ => False

theorem Request.within_asked {names : List String} (r : Request)
    (inside : ∀ name ∈ r.declares, name ∈ names) : r.Within (Operation.Asked names r.Asks) := by
  cases r with
  | http request =>
      cases request with
      | declareQueue name => exact .declare (inside name List.mem_cons_self)
      | publish => exact fun _ now => .plain now
      | consume name => exact .consume name
      | ack name tag => exact .ack name tag
      | nack name tag => exact .nack name tag
  | grpc request =>
      cases request with
      | declareQueue req => exact .declare (inside req.name List.mem_cons_self)
      | publish | publishBatch =>
          rintro m ⟨msg, member, same⟩
          exact .publish fun time later => ⟨rfl, msg, member, same.symm.trans later⟩
      | consume queue | consumeBatch queue => exact .consume queue
      | ack queue tag => exact .ack queue tag
      | nack queue tag => exact .nack queue tag

/-- An entry that a handler proposed. -/
theorem within_asked {names : List String} {op : QueueOperation} (made : proposed op = true)
    (inside : ∀ name ∈ op.declares, name ∈ names) :
    op.Within (Operation.Asked names (entryAsks op)) := by
  cases op with
  | declareQueue name policy => exact .declare (inside name List.mem_cons_self)
  | publish => exact .publish fun _ later => ⟨rfl, later⟩
  | publishBatch => exact fun m member => .publish fun _ later => ⟨rfl, m, member, later⟩
  | consume q | consumeBatch q => exact .consume q
  | ack q tag => exact .ack q tag
  | nack q tag => exact .nack q tag
  | applyRetention | promoteScheduled => cases made

/-- The queues that a packet declares, at once or later. -/
def packetDeclares : Packet → List String
  | .publish _ _ _ topic _ _ => [topic]
  | .subscribe _ filters => filters.map Prod.fst
  | _ => []

def actDeclares : Mqtt.Act → List String
  | .packet packet => packetDeclares packet
  | _ => []

/-- The queues that the packet a session is handling has yet to declare. -/
def pending (s : Mqtt.Session) : List String :=
  match s.phase with
  | .subscribing _ filters _ => filters.map Prod.fst
  | _ => []

section Acts

variable {bc : Bincode} {ids : Nat → UInt64} {names : List String} {Asks : String → Int64 → Prop}
  {α : Type} (uuid : UuidText) (engine : AppEngine)

theorem serves_receive {P : Operation → Prop} {packet : Packet} (c : Mqtt.Connection)
    (declares : ∀ name ∈ packetDeclares packet, P (.declareQueueWithRetention name default))
    (acks : ∀ pkid q tag, packet = .pubAck pkid → P (.ack q tag)) :
    Serves bc ids P (Mqtt.receive bc engine packet c) := by
  cases packet with
  | publish dup qos retain topic pkid payload =>
      refine .bind (serves_declareQueue engine ?_) fun _ => .ret _
      exact declares topic (List.mem_singleton_self topic)
  | subscribe pkid filters => exact .ret _
  | unsubscribe pkid topics => exact .bind (serves_written _ _ _) fun _ => .ret _
  | pubAck pkid =>
      refine .bind ?_ fun _ => .ret _
      dsimp only [Mqtt.handleClientPacket]
      cases c.inflight pkid with
      | none => exact .ret _
      | some entry => exact .bind (serves_ackMessage engine (acks pkid _ _ rfl)) fun _ => .ret _
  | pingReq => exact .bind (serves_written _ _ _) fun _ => .ret _
  | connect | connAck | pubRec | pubRel | pubComp | subAck | unsubAck | pingResp | disconnect =>
      exact .ret _

theorem serves_proceed {P : Operation → Prop} (s : Mqtt.Session)
    (declares : ∀ name ∈ pending s, P (.declareQueueWithRetention name default))
    (publishes : ∀ q m, m.deliverAt = none → P (.publish q m)) :
    Serves bc ids P (Mqtt.proceed bc engine s) := by
  obtain ⟨phase, c⟩ := s
  cases phase with
  | waiting => exact .ret _
  | publishing qos queue pkid payload =>
      refine .bind (serves_publishMessage engine (publishes queue) payload) fun _ => ?_
      split_ifs
      · exact serves_written _ _ _
      · exact .ret _
  | subscribing pkid filters returnCodes =>
      cases filters with
      | nil => exact serves_written _ _ _
      | cons filter rest =>
          refine .bind (serves_subscribe engine ?_ filter.2 c) fun _ => .ret _
          exact declares filter.1 List.mem_cons_self

theorem serves_tick (i : Nat) (s : Mqtt.Session) :
    Serves bc ids (Operation.Asked names Asks) (Mqtt.tick bc engine i s) := by
  unfold Mqtt.tick
  split
  · refine .bind (serves_consumeOne engine (.consume _)) fun delivery => ?_
    cases delivery <;> exact .ret _
  · exact .ret _

theorem serves_act (s : Mqtt.Session) (act : Mqtt.Act)
    (inside : ∀ name ∈ actDeclares act, name ∈ names)
    (left : ∀ name ∈ pending s, name ∈ names) :
    Serves bc ids (Operation.Asked names Asks) (Mqtt.act bc engine s act) := by
  cases act with
  | packet packet =>
      obtain ⟨phase, c⟩ := s
      cases phase with
      | waiting =>
          exact serves_receive engine c (fun name member => .declare (inside name member))
            fun _ q tag _ => .ack q tag
      | publishing | subscribing => exact .ret _
  | proceed =>
      exact serves_proceed engine s (fun name member => .declare (left name member)) fun _ _ => .plain
  | tick i => exact serves_tick engine i s
  | handOver i => exact .ret _
  | deliver =>
      obtain ⟨phase, c⟩ := s
      cases phase with
      | waiting =>
          change Serves bc ids (Operation.Asked names Asks) (Mqtt.deliver c)
          unfold Mqtt.deliver
          split
          · exact serves_written _ _ _
          · exact .ret _
      | publishing | subscribing => exact .ret _
  | hangUp =>
      obtain ⟨phase, c⟩ := s
      cases phase <;> exact .ret _

/-! ### Streams -/

theorem serves_settle {P : Operation → Prop} (s : Grpc.Stream) {settlement : Task Grpc.Status Unit}
    (serves : Serves bc ids P settlement) : Serves bc ids P (Grpc.settle s settlement) := by
  refine .bind serves.embed fun result => ?_
  cases result <;> exact .ret _

theorem serves_streamReceive {P : Operation → Prop} (ack : Grpc.ConsumeStreamAck) (s : Grpc.Stream)
    (acks : ∀ q tag, ack.deliveryTag = some tag → P (.ack q tag))
    (nacks : ∀ q tag, ack.nackDeliveryTag = some tag → P (.nack q tag)) :
    Serves bc ids P (Grpc.receive bc engine ack s) := by
  unfold Grpc.receive
  split
  · split
    · split_ifs <;> exact .ret _
    · exact .ret _
  · rename_i queue _
    cases acked : ack.deliveryTag with
    | some tag =>
        have allowed := acks queue tag acked
        exact serves_settle s (serves_grpc engine _ (makes_ack allowed) allowed)
    | none =>
        cases nacked : ack.nackDeliveryTag with
        | some tag =>
            have allowed := nacks queue tag nacked
            exact serves_settle s (serves_grpc engine _ (makes_nack allowed) allowed)
        | none => exact .ret _

theorem serves_inbound {P : Operation → Prop} (s : Grpc.Stream)
    {message : Option (Except String Grpc.ConsumeStreamAck)}
    (acks : ∀ ack q tag, message = some (.ok ack) → ack.deliveryTag = some tag → P (.ack q tag))
    (nacks : ∀ ack q tag, message = some (.ok ack) → ack.nackDeliveryTag = some tag →
      P (.nack q tag)) :
    Serves bc ids P (Grpc.inbound bc engine message s) := by
  cases message with
  | none => exact .ret _
  | some message =>
      cases message with
      | error => exact .ret _
      | ok ack =>
          exact serves_streamReceive engine ack s (fun q tag => acks ack q tag rfl)
            fun q tag => nacks ack q tag rfl

theorem serves_streamAct (s : Grpc.Stream) (act : Grpc.StreamAct) :
    Serves bc ids (Operation.Asked names Asks) (Grpc.streamAct bc uuid engine s act) := by
  cases act with
  | inbound message =>
      change Serves bc ids (Operation.Asked names Asks)
        (if s.idle then Grpc.inbound bc engine message s else pure s)
      split_ifs
      · exact serves_inbound engine s (fun _ q tag _ _ => .ack q tag) fun _ q tag _ _ => .nack q tag
      · exact .ret _
  | tick =>
      change Serves bc ids (Operation.Asked names Asks)
        (if s.idle then Grpc.pause bc uuid engine s else pure s)
      split_ifs
      · unfold Grpc.pause
        split
        · refine .bind (serves_consumeOne engine (.consume _)) fun delivery => ?_
          cases delivery <;> exact .ret _
        · exact .ret _
      · exact .ret _
  | send | take | close => exact .ret _

/-! ### What is left to declare -/

/-- What an act leaves has only the given names to declare. -/
def Declaring (names : List String) (after : Option Mqtt.Session) : Prop :=
  ∀ s, after = some s → ∀ name ∈ pending s, name ∈ names

theorem declaring_none : Declaring names none := fun _ closed => absurd closed (by simp)

theorem declaring_some {s : Mqtt.Session} (inside : ∀ name ∈ pending s, name ∈ names) :
    Declaring names (some s) := by
  intro s' same
  cases same
  exact inside

theorem declaring_nothing {s : Mqtt.Session} (nothing : pending s = []) :
    Declaring names (some s) := by
  refine declaring_some ?_
  rw [nothing]
  exact fun _ member => absurd member List.not_mem_nil

theorem declaring_goesOn (r : Bool × Mqtt.Connection) : Declaring names (Mqtt.goesOn r) := by
  obtain ⟨goesOn, c⟩ := r
  cases goesOn
  · exact declaring_none
  · exact declaring_nothing rfl

/-- The given names are all that is left to declare, however the task ends. -/
def LeavesDeclaring (names : List String) (task : Task Empty (Option Mqtt.Session)) : Prop :=
  task.Ends (Declaring names) fun _ => True

theorem LeavesDeclaring.last {p : Task Empty α} {f : α → Task Empty (Option Mqtt.Session)}
    (rest : ∀ a, LeavesDeclaring names (f a)) : LeavesDeclaring names (p >>= f) :=
  Program.Ends.last (fun _ => trivial) rest

theorem leavesDeclaring_written (packet : Packet) (c : Mqtt.Connection) :
    LeavesDeclaring names (send packet >>= fun written =>
      if written then (pure (some ⟨.waiting, c⟩) : Task Empty _) else pure none) := by
  refine .last fun written => ?_
  cases written
  · exact declaring_none
  · exact declaring_nothing rfl

theorem leavesDeclaring_receive {packet : Packet} (c : Mqtt.Connection)
    (inside : ∀ name ∈ packetDeclares packet, name ∈ names) :
    LeavesDeclaring names (Mqtt.receive bc engine packet c) := by
  cases packet with
  | publish => exact .last fun _ => declaring_nothing rfl
  | subscribe pkid filters => exact declaring_some inside
  | _ => exact .last fun r => declaring_goesOn r

theorem leavesDeclaring_proceed (s : Mqtt.Session) (inside : ∀ name ∈ pending s, name ∈ names) :
    LeavesDeclaring names (Mqtt.proceed bc engine s) := by
  obtain ⟨phase, c⟩ := s
  cases phase with
  | waiting => exact declaring_nothing rfl
  | publishing qos queue pkid payload =>
      refine .last fun _ => ?_
      split_ifs
      · exact leavesDeclaring_written _ c
      · exact declaring_nothing rfl
  | subscribing pkid filters returnCodes =>
      cases filters with
      | nil => exact leavesDeclaring_written _ c
      | cons filter rest =>
          refine .last fun r => declaring_some fun name member => ?_
          exact inside name (List.mem_cons_of_mem _ member)

theorem leavesDeclaring_act (s : Mqtt.Session) (act : Mqtt.Act)
    (inside : ∀ name ∈ actDeclares act, name ∈ names)
    (left : ∀ name ∈ pending s, name ∈ names) :
    LeavesDeclaring names (Mqtt.act bc engine s act) := by
  have same : Declaring names (some s) := declaring_some left
  cases act with
  | packet packet =>
      obtain ⟨phase, c⟩ := s
      cases phase with
      | waiting => exact leavesDeclaring_receive engine c inside
      | publishing | subscribing => exact same
  | proceed => exact leavesDeclaring_proceed engine s left
  | tick i =>
      change LeavesDeclaring names (Mqtt.tick bc engine i s)
      unfold Mqtt.tick
      split
      · refine .last fun delivery => ?_
        cases delivery
        · exact same
        · exact declaring_some left
      · exact same
  | handOver i => exact declaring_some left
  | deliver =>
      obtain ⟨phase, c⟩ := s
      cases phase with
      | waiting =>
          change LeavesDeclaring names (Mqtt.deliver c)
          unfold Mqtt.deliver
          split
          · exact leavesDeclaring_written _ _
          · exact declaring_nothing rfl
      | publishing | subscribing => exact same
  | hangUp =>
      obtain ⟨phase, c⟩ := s
      cases phase with
      | waiting => exact declaring_none
      | publishing | subscribing => exact same

end Acts

section Handing

variable (bc : Bincode) (uuid : UuidText) (formats : Http.Formats) (engine : AppEngine)

/-- A call that hands to consensus only what is counted as proposed. -/
def Call.Proposes : (β : Type) → Call β → Prop
  | _, .consensus op => proposed op = true
  | _, _ => True

/-- What stands for served operations neither promotes nor applies retention. -/
theorem Call.Within.proposes {names : List String} {Asks : String → Int64 → Prop} (β : Type)
    (c : Call β) (within : Call.Within (Operation.Asked names Asks) β c) : Call.Proposes β c := by
  cases c with
  | consensus op =>
      cases op with
      | applyRetention | promoteScheduled => exact within.1.elim
      | _ => rfl
  | _ => trivial

theorem Serves.proposes (names : List String) (Asks : String → Int64 → Prop) {ε α : Type}
    {task : Task ε α} (serves : Serves bc (fun _ => 0) (Operation.Asked names Asks) task) :
    task.Only Call.Proposes :=
  serves.hands.mono Call.Within.proposes

/-- No task of the daemon hands a promotion or an application of retention to consensus: an entry
    of the log is one of the operations counted as proposed. -/
theorem handlers_propose :
    (∀ request, (Http.serve bc uuid formats engine request).Only Call.Proposes) ∧
    (∀ request, (Grpc.serve bc uuid engine request).Only Call.Proposes) ∧
    (∀ first, (Mqtt.handshake first).Only Call.Proposes) ∧
    (∀ s act, (Mqtt.act bc engine s act).Only Call.Proposes) ∧
    (∀ queue, (Mqtt.consumeOne bc engine queue).Only Call.Proposes) ∧
    ∀ s act, (Grpc.streamAct bc uuid engine s act).Only Call.Proposes := by
  refine ⟨fun request => ?_, fun request => ?_, fun first => ?_, fun s act => ?_, fun queue => ?_,
    fun s act => ?_⟩
  · exact Serves.proposes bc _ _ (serves_httpRequest uuid formats engine request
      ((Request.http request).within_asked fun _ => id))
  · exact Serves.proposes bc _ _ (serves_grpcRequest uuid engine request
      ((Request.grpc request).within_asked fun _ => id))
  · unfold Mqtt.handshake
    split
    · exact .bind (.ask trivial) fun _ => .ite trivial trivial
    · trivial
  · exact Serves.proposes bc _ (fun _ _ => False) (serves_act engine s act
      (fun _ => List.mem_append_left (pending s)) fun _ => List.mem_append_right (actDeclares act))
  · exact Serves.proposes bc [] (fun _ _ => False) (serves_consumeOne engine (.consume queue))
  · exact Serves.proposes bc [] (fun _ _ => False) (serves_streamAct uuid engine s act)

end Handing

/-! ## The daemon -/

/-- The queues a happening declares, at once or later. -/
def Happening.declares : Happening → List String
  | .request r => r.declares
  | .entry op => op.declares
  | .session _ act => actDeclares act
  | _ => []

/-- A client asks for a delivery to the queue at the time, here or through the log. -/
def Happening.Asks (happening : Happening) (q : String) (time : Int64) : Prop :=
  match happening with
  | .request r => r.Asks q time
  | .entry op => entryAsks op q time
  | _ => False

/-- A step that a happening makes: what it asks for, with its readings of the clock. -/
def MadeBy (names : List String) (happening : Happening × Surroundings) (step : Step) : Prop :=
  step.op.Asked names happening.1.Asks ∧ Remains happening.2.clock step.clock

theorem made_served {names : List String} {run : List (Happening × Surroundings)} {steps : List Step}
    (makes : ∀ step ∈ steps, ∃ happening ∈ run, MadeBy names happening step) :
    ∀ step ∈ steps, step.op.Served names := by
  intro step member
  obtain ⟨_, _, asked, -⟩ := makes step member
  exact asked.1

/-- Every open session has only the given names to declare. -/
def System.Declaring (names : List String) (S : System) : Prop :=
  ∀ s, some s ∈ S.sessions → ∀ name ∈ pending s, name ∈ names

section System

variable {bc : Bincode} {ids : Nat → UInt64} {names : List String} {S : System}

theorem System.Declaring.set {sessions : List (Option Mqtt.Session)}
    (declaring : S.Declaring names) {k : Nat} {after : Option Mqtt.Session}
    (left : Daemon.Declaring names after) (same : sessions = S.sessions.set k after) :
    ∀ s, some s ∈ sessions → ∀ name ∈ pending s, name ∈ names := by
  intro s member
  rw [same] at member
  rcases List.mem_or_eq_of_mem_set member with old | new
  · exact declaring s old
  · exact left s new.symm

theorem declaring_sessionAfter {s : Mqtt.Session} {act : Mqtt.Act}
    {outcome : Outcome Empty (Option Mqtt.Session)}
    (ended : ∀ after, outcome = .ok after → Daemon.Declaring names after)
    (left : ∀ name ∈ pending s, name ∈ names) :
    Daemon.Declaring names (sessionAfter s act outcome) := by
  cases outcome with
  | ok after => exact ended after rfl
  | err e => exact e.elim
  | panicked | diverged => cases act <;> first | exact declaring_none | exact declaring_some left

variable (uuid : UuidText) (formats : Http.Formats) (engine : AppEngine) (around : Surroundings)

theorem System.sessionActs_reaches (declaring : S.Declaring names) (k : Nat) {act : Mqtt.Act}
    (inside : ∀ name ∈ actDeclares act, name ∈ names) :
    Reaches bc ids (MadeBy names (.session k act, around)) S.manager
      (S.sessionActs bc ids engine around k act).manager := by
  unfold System.sessionActs
  split
  · rename_i s present
    have left := declaring s (List.mem_of_getElem? present)
    exact ((serves_act engine s act inside left).works (S.world around)).2
  · exact .refl _

theorem System.push_manager (S : System) (k : Nat) (delivery : Mqtt.Incoming) :
    (S.push k delivery).manager = S.manager := by
  unfold System.push
  split
  · split_ifs <;> rfl
  · rfl

theorem System.strayConsumes_reaches (j : Nat) (room : Bool) :
    Reaches bc ids (MadeBy names (.stray j room, around)) S.manager
      (S.strayConsumes bc ids engine around j room).manager := by
  unfold System.strayConsumes
  split
  · rename_i stray _
    have served : Serves bc ids (Operation.Asked names (Happening.stray j room).Asks)
        (Mqtt.consumeOne bc engine stray.queue) := serves_consumeOne engine (.consume _)
    have reached := (served.works (S.world around)).2
    dsimp only
    split
    · split_ifs
      · rw [System.push_manager]
        exact reached
      · exact reached
    · exact reached
  · exact .refl _

theorem System.streamActs_reaches (k : Nat) (act : Grpc.StreamAct) :
    Reaches bc ids (MadeBy names (.stream k act, around)) S.manager
      (S.streamActs bc uuid ids engine around k act).manager := by
  unfold System.streamActs
  split
  · exact ((serves_streamAct uuid engine _ act).works (S.world around)).2
  · exact .refl _

/-- One happening does to the manager what its own steps do. -/
theorem System.step_reaches (declaring : S.Declaring names) (happening : Happening)
    (inside : ∀ name ∈ happening.declares, name ∈ names) :
    Reaches bc ids (MadeBy names (happening, around)) S.manager
      (S.step bc uuid formats ids engine around happening).manager := by
  cases happening with
  | request r =>
      exact (serve_works uuid formats engine r (r.within_asked inside) (S.world around)).2
  | entry op =>
      change Reaches bc ids (MadeBy names (.entry op, around)) S.manager
        (S.applies bc ids engine around op).manager
      unfold System.applies
      split
      · rename_i made
        have served : Serves bc ids (Operation.Asked names (entryAsks op))
            (core (applyOperation bc around.memory op) : Task Empty _) :=
          .core (makes_applyOperation around.memory (within_asked made inside))
        exact (served.works (S.world around)).2
      · exact .refl _
  | connect first => exact .refl _
  | session k act => exact System.sessionActs_reaches engine around declaring k inside
  | stray j room => exact System.strayConsumes_reaches engine around j room
  | openStream => exact .refl _
  | stream k act => exact System.streamActs_reaches uuid engine around k act
  | restart maxBytes =>
      cases engine with
      | solo => exact .one ⟨.reopen maxBytes, around.clock⟩ ⟨.reopen _, .refl _⟩
      | flock => exact .one ⟨.reopen none, around.clock⟩ ⟨.reopen _, .refl _⟩

theorem declaring_handshake (first : Option Packet) (w : World) :
    Daemon.Declaring names
      (sessionAfter .new .proceed ((Mqtt.handshake first).run (handle ids) w).1) := by
  refine declaring_sessionAfter (fun after ended => ?_) fun _ member => absurd member List.not_mem_nil
  have leaves : LeavesDeclaring names (Mqtt.handshake first) := by
    unfold Mqtt.handshake
    split
    · exact leavesDeclaring_written _ _
    · exact declaring_none
  exact leaves.ok ended

theorem System.push_declaring (declaring : S.Declaring names) (k : Nat) (delivery : Mqtt.Incoming) :
    (S.push k delivery).Declaring names := by
  unfold System.push
  split
  · rename_i s present
    have left := declaring s (List.mem_of_getElem? present)
    split_ifs
    · refine declaring.set ?_ rfl
      exact declaring_some left
    · exact declaring
  · exact declaring

/-- A happening leaves no more to declare than it brought. -/
theorem System.step_declaring (declaring : S.Declaring names) (happening : Happening)
    (inside : ∀ name ∈ happening.declares, name ∈ names) :
    (S.step bc uuid formats ids engine around happening).Declaring names := by
  cases happening with
  | request | openStream => exact declaring
  | entry op =>
      change (S.applies bc ids engine around op).Declaring names
      unfold System.applies
      split <;> exact declaring
  | connect first =>
      intro s member
      rcases List.mem_append.mp member with old | new
      · exact declaring s old
      · exact declaring_handshake first _ s (List.mem_singleton.mp new).symm
  | session k act =>
      change (S.sessionActs bc ids engine around k act).Declaring names
      unfold System.sessionActs
      split
      · rename_i s present
        have left := declaring s (List.mem_of_getElem? present)
        refine declaring.set (declaring_sessionAfter (fun after ended => ?_) left) rfl
        exact (leavesDeclaring_act engine s act inside left).ok ended
      · exact declaring
  | stray j room =>
      change (S.strayConsumes bc ids engine around j room).Declaring names
      unfold System.strayConsumes
      split
      · dsimp only
        split
        · split_ifs
          · refine System.push_declaring ?_ _ _
            exact declaring
          · exact declaring
        · exact declaring
      · exact declaring
  | stream k act =>
      change (S.streamActs bc uuid ids engine around k act).Declaring names
      unfold System.streamActs
      split <;> exact declaring
  | restart maxBytes => exact fun _ member => absurd member List.not_mem_nil

theorem System.final_reaches (declaring : S.Declaring names)
    (run : List (Happening × Surroundings))
    (inside : ∀ happening ∈ run, ∀ name ∈ happening.1.declares, name ∈ names) :
    Reaches bc ids (fun step => ∃ happening ∈ run, MadeBy names happening step) S.manager
        (S.final bc uuid formats ids engine run).manager ∧
      (S.final bc uuid formats ids engine run).Declaring names := by
  induction run generalizing S with
  | nil => exact ⟨.refl _, declaring⟩
  | cons happening run ih =>
      have here := inside happening List.mem_cons_self
      have stepped : (S.step bc uuid formats ids engine happening.2 happening.1).Declaring names :=
        System.step_declaring uuid formats engine happening.2 declaring happening.1 here
      have rest := ih stepped fun later member => inside later (List.mem_cons_of_mem _ member)
      have first : Reaches bc ids (MadeBy names happening) S.manager _ :=
        System.step_reaches uuid formats engine happening.2 declaring happening.1 here
      refine ⟨(first.mono fun step made => ?_).trans (rest.1.mono ?_), rest.2⟩
      · exact ⟨happening, List.mem_cons_self, made⟩
      · rintro step ⟨later, member, made⟩
        exact ⟨later, List.mem_cons_of_mem _ member, made⟩

end System

/-- The queues that a run of the daemon declares. -/
def declaredIn (run : List (Happening × Surroundings)) : List String :=
  run.flatMap fun happening => happening.1.declares

/-- The limit a manager is opened with. -/
def limitOf (engine : AppEngine) (maxBytes : Option UInt64) : Option UInt64 :=
  match engine with
  | .solo => maxBytes
  | .flock => none

section Runs

variable (bc : Bincode) (uuid : UuidText) (formats : Http.Formats) (ids : Nat → UInt64)
  (engine : AppEngine) (maxBytes : Option UInt64) (run : List (Happening × Surroundings))

theorem started_manager :
    (System.started bc ids engine maxBytes).manager = started bc ids (limitOf engine maxBytes) := by
  cases engine <;> rfl

theorem final_append (S : System) (later : List (Happening × Surroundings)) :
    S.final bc uuid formats ids engine (run ++ later) =
      (S.final bc uuid formats ids engine run).final bc uuid formats ids engine later :=
  List.foldl_append

/-- A run and what follows it, as operations on the manager. -/
theorem follows_parts (later : List (Happening × Surroundings)) :
    ∃ steps steps' : List Step,
      (∀ step ∈ steps ++ steps', ∃ happening ∈ run ++ later,
        MadeBy (declaredIn (run ++ later)) happening step) ∧
      ((System.started bc ids engine maxBytes).final bc uuid formats ids engine run).manager =
        final bc ids (started bc ids (limitOf engine maxBytes)) steps ∧
      ((System.started bc ids engine maxBytes).final bc uuid formats ids engine
        (run ++ later)).manager =
          final bc ids (started bc ids (limitOf engine maxBytes)) (steps ++ steps') := by
  have names (happening) (member : happening ∈ run ++ later) :
      ∀ name ∈ happening.1.declares, name ∈ declaredIn (run ++ later) :=
    fun _ declared => List.mem_flatMap.mpr ⟨happening, member, declared⟩
  have fresh : (System.started bc ids engine maxBytes).Declaring (declaredIn (run ++ later)) :=
    fun _ member => absurd member List.not_mem_nil
  obtain ⟨⟨steps, makes, reached⟩, declaring⟩ := System.final_reaches uuid formats engine fresh run
    fun happening member => names happening (List.mem_append_left _ member)
  obtain ⟨⟨steps', makes', reached'⟩, -⟩ := System.final_reaches uuid formats engine declaring later
    fun happening member => names happening (List.mem_append_right _ member)
  rw [started_manager] at reached
  refine ⟨steps, steps', fun step member => ?_, reached, ?_⟩
  · rcases List.mem_append.mp member with old | new
    · obtain ⟨happening, inside, made⟩ := makes step old
      exact ⟨happening, List.mem_append_left _ inside, made⟩
    · obtain ⟨happening, inside, made⟩ := makes' step new
      exact ⟨happening, List.mem_append_right _ inside, made⟩
  · rw [final_append, reached', reached, PelicanQ.final_append]

/-- Whatever happens, in whatever order, the manager of a daemon is one that its operations lead
    to, on the queues that were asked for, without promotion and without retention. -/
theorem daemon_follows_operations :
    ∃ steps : List Step,
      (∀ step ∈ steps, (∀ name ∈ step.op.declares, name ∈ declaredIn run) ∧
        (∀ q, step.op ≠ .promoteScheduled q) ∧ (∀ q, step.op ≠ .applyRetention q)) ∧
      ((System.started bc ids engine maxBytes).final bc uuid formats ids engine run).manager =
        final bc ids (started bc ids (limitOf engine maxBytes)) steps := by
  obtain ⟨steps, _, makes, reached, -⟩ :=
    follows_parts bc uuid formats ids engine maxBytes run []
  rw [List.append_nil] at makes
  refine ⟨steps, fun step member => ?_, reached⟩
  have served := made_served makes step (List.mem_append_left _ member)
  exact ⟨served.declares, served.plain, served.unretained⟩

end Runs

end Daemon

end PelicanQ
