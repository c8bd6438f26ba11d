import PelicanQ.Broker.Runs
import PelicanQ.Daemon.System
import PelicanQ.Lib.Leads

/-! # What the handlers do to the manager

A handler works on the manager only through its operations, so whatever it does to
it a run of those operations does.  Which operations a handler makes is kept open
here: a predicate that they satisfy.
-/

namespace PelicanQ

/-- A run of allowed steps leads from one manager to the other. -/
def Reaches (bc : Bincode) (ids : Nat → UInt64) (P : Step → Prop) (qm qm' : QueueManager) : Prop :=
  ∃ steps : List Step, (∀ step ∈ steps, P step) ∧ qm' = final bc ids qm steps

section Reaches

variable {bc : Bincode} {ids : Nat → UInt64} {P : Step → Prop} {qm qm' qm'' : QueueManager}

theorem Reaches.refl (qm : QueueManager) : Reaches bc ids P qm qm :=
  ⟨[], fun _ member => absurd member List.not_mem_nil, rfl⟩

theorem Reaches.trans (first : Reaches bc ids P qm qm') (second : Reaches bc ids P qm' qm'') :
    Reaches bc ids P qm qm'' := by
  obtain ⟨steps, allowed, rfl⟩ := first
  obtain ⟨steps', allowed', rfl⟩ := second
  exact ⟨steps ++ steps', List.forall_mem_append.mpr ⟨allowed, allowed'⟩,
    (final_append bc ids qm steps steps').symm⟩

theorem Reaches.mono {P' : Step → Prop} (reached : Reaches bc ids P qm qm')
    (weaker : ∀ step, P step → P' step) : Reaches bc ids P' qm qm' := by
  obtain ⟨steps, allowed, same⟩ := reached
  exact ⟨steps, fun step member => weaker step (allowed step member), same⟩

theorem Reaches.one (step : Step) (allowed : P step) :
    Reaches bc ids P qm (step.op.perform bc ids step.clock qm).2 := by
  refine ⟨[step], fun step' member => ?_, rfl⟩
  rw [List.mem_singleton.mp member]
  exact allowed

/-- The ids handed out on the way are among those for all. -/
theorem Reaches.increasing (reached : Reaches bc ids P qm qm') (increasing : Increasing ids qm') :
    Increasing ids qm := by
  obtain ⟨steps, -, rfl⟩ := reached
  exact increasing.mono (Set.Iio_subset_Iio (drawn_le_final bc ids qm steps))

end Reaches

/-! ## The clock -/

/-- What is left of the readings of a clock. -/
def Remains (clock left : Nat → Int64) : Prop := ∃ k, left = fun i => clock (i + k)

theorem Remains.refl (clock : Nat → Int64) : Remains clock clock := ⟨0, rfl⟩

theorem Remains.trans {clock left left' : Nat → Int64} (first : Remains clock left)
    (second : Remains left left') : Remains clock left' := by
  obtain ⟨k, rfl⟩ := first
  obtain ⟨l, rfl⟩ := second
  exact ⟨l + k, by simp only [Nat.add_assoc]⟩

theorem remains_later (clock : Nat → Int64) : Remains clock (later clock) := ⟨1, rfl⟩

/-- A call uses up one reading, or none. -/
theorem handle_remains (ids : Nat → UInt64) {β : Type} (c : Call β) (s : Machine) :
    Remains s.clock (handle ids β c s).2.clock := by
  cases c with
  | nowMs => exact remains_later s.clock
  | sled | currentBytes | setCurrentBytes | maxBytes => exact .refl _

theorem run_remains (ids : Nat → UInt64) {α : Type} (action : Action α) (s : Machine) :
    Remains s.clock (action.run (handle ids) s).2.clock :=
  Program.visits_keep (fun t => Remains s.clock t.clock)
    (fun _ c t left => left.trans (handle_remains ids c t)) action (.refl _)
    (Program.run_mem_visits (handle ids) action s)

/-! ## The manager's methods -/

/-- The operations that an entry of the log makes are allowed. -/
def QueueOperation.Within (P : Operation → Prop) : QueueOperation → Prop
  | .declareQueue name policy => P (.declareQueueWithRetention name policy)
  | .publish q m => P (.publish q m)
  | .publishBatch q messages => ∀ m ∈ messages, P (.publish q m)
  | .consume q => P (.consume q)
  | .consumeBatch q _ => P (.consume q)
  | .ack q tag => P (.ack q tag)
  | .nack q tag => P (.nack q tag)
  | .applyRetention q => P (.applyRetention q)
  | .promoteScheduled q => P (.promoteScheduled q)

section Methods

variable (bc : Bincode) (ids : Nat → UInt64) (P : Operation → Prop) {α β : Type}

/-- Allowed operations lead from one manager to the other, with readings that were left. -/
def Works (s t : Machine) : Prop :=
  Remains s.clock t.clock ∧
    Reaches bc ids (fun step => P step.op ∧ Remains s.clock step.clock) s.manager t.manager

/-- A method that does to the manager what allowed operations do. -/
def Makes (action : Action α) : Prop := action.Leads (handle ids) (Works bc ids P)

variable {bc ids P}

theorem Works.refl (s : Machine) : Works bc ids P s s := ⟨.refl _, .refl _⟩

theorem Works.trans {s t u : Machine} (first : Works bc ids P s t) (second : Works bc ids P t u) :
    Works bc ids P s u :=
  ⟨first.1.trans second.1,
    first.2.trans (second.2.mono fun _ allowed => ⟨allowed.1, first.1.trans allowed.2⟩)⟩

theorem Makes.ret (a : α) : Makes bc ids P (.ret a) := Program.Leads.ret Works.refl a

theorem Makes.fail (e : PelicanError) : Makes bc ids P (.fail e : Action α) :=
  Program.Leads.fail Works.refl e

theorem Makes.bind {p : Action α} {f : α → Action β} (first : Makes bc ids P p)
    (rest : ∀ a, Makes bc ids P (f a)) : Makes bc ids P (p >>= f) :=
  Program.Leads.bind first rest fun _ _ _ => Works.trans

theorem Makes.attempt {p : Action α} (makes : Makes bc ids P p) : Makes bc ids P p.attempt :=
  Program.Leads.attempt makes

theorem Makes.op (op : Operation) {action : Action α} (allowed : P op)
    (performs : ∀ s : Machine, (op.perform bc ids s.clock s.manager).2 =
      (action.run (handle ids) s).2.manager) : Makes bc ids P action := by
  refine fun s => ⟨run_remains ids action s, ?_⟩
  rw [← performs s]
  exact .one ⟨op, s.clock⟩ ⟨allowed, .refl _⟩

theorem makes_declare {name : String} {policy : RetentionPolicy}
    (allowed : P (.declareQueueWithRetention name policy)) :
    Makes bc ids P (QueueManager.declareQueueWithRetention bc name policy) :=
  .op _ allowed fun _ => rfl

theorem makes_publish {q : String} {m : Message} (allowed : P (.publish q m)) :
    Makes bc ids P (QueueManager.publish bc q m) :=
  .op _ allowed fun _ => rfl

theorem makes_consume {q : String} (allowed : P (.consume q)) :
    Makes bc ids P (QueueManager.consume bc q) :=
  .op _ allowed fun _ => rfl

theorem makes_ack {q : String} {tag : DeliveryTag} (allowed : P (.ack q tag)) :
    Makes bc ids P (QueueManager.ack q tag) :=
  .op _ allowed fun _ => rfl

theorem makes_nack {q : String} {tag : DeliveryTag} (allowed : P (.nack q tag)) :
    Makes bc ids P (QueueManager.nack bc q tag) :=
  .op _ allowed fun _ => rfl

theorem makes_publishEach {q : String} {messages : List Message}
    (allowed : ∀ m ∈ messages, P (.publish q m)) (outcomes : List PublishOutcome) :
    Makes bc ids P (publishEach bc q messages outcomes) := by
  induction messages generalizing outcomes with
  | nil => exact .ret _
  | cons m rest ih =>
      refine .bind (makes_publish (allowed m List.mem_cons_self)).attempt fun result => ?_
      cases result with
      | ok outcome => exact ih (fun m' member => allowed m' (List.mem_cons_of_mem _ member)) _
      | error e => exact .ret _

theorem makes_consumeEach {q : String} (allowed : P (.consume q)) (left : Nat)
    (deliveries : List (DeliveryTag × Message)) :
    Makes bc ids P (consumeEach bc q left deliveries) := by
  induction left generalizing deliveries with
  | zero => exact .ret _
  | succ left ih =>
      refine .bind (makes_consume allowed).attempt fun result => ?_
      cases result with
      | error e => exact .ret _
      | ok delivery =>
          cases delivery with
          | none => exact .ret _
          | some delivery => exact ih _

theorem makes_reserve (memory : Allocator) (max : UInt64) :
    Makes bc ids P (reserve memory max) := by
  unfold reserve
  split_ifs
  · exact .ret ()
  · exact Works.refl

theorem makes_applyOperation (memory : Allocator) {op : QueueOperation} (within : op.Within P) :
    Makes bc ids P (applyOperation bc memory op) := by
  cases op with
  | declareQueue name policy =>
      rw [applyOperation]
      split_ifs with plain
      · rw [QueueOperation.Within, plain] at within
        exact .bind (makes_declare within).attempt fun _ => .ret _
      · exact .bind (makes_declare within).attempt fun _ => .ret _
  | publish q m => exact .bind (makes_publish within).attempt fun _ => .ret _
  | publishBatch q messages => exact makes_publishEach within []
  | consume q => exact .bind (makes_consume within).attempt fun _ => .ret _
  | consumeBatch q max =>
      exact .bind (makes_reserve memory max) fun _ => makes_consumeEach within max.toNat []
  | ack q tag => exact .bind (makes_ack within).attempt fun _ => .ret _
  | nack q tag => exact .bind (makes_nack within).attempt fun _ => .ret _
  | applyRetention q =>
      exact .bind (Makes.attempt (.op _ within fun _ => rfl)) fun _ => .ret _
  | promoteScheduled q =>
      exact .bind (Makes.attempt (.op _ within fun _ => rfl)) fun _ => .ret _

theorem makes_publishAll (uuid : UuidText) {q : String} {messages : List Message}
    (allowed : ∀ m ∈ messages, P (.publish q m)) (results : List Grpc.PublishResponse) :
    Makes bc ids P (Grpc.publishAll bc uuid q messages results) := by
  induction messages generalizing results with
  | nil => exact .ret _
  | cons m rest ih =>
      refine .bind (makes_publish (allowed m List.mem_cons_self)) fun _ => ih ?_ _
      exact fun m' member => allowed m' (List.mem_cons_of_mem _ member)

theorem makes_consumeAll (uuid : UuidText) {q : String} (allowed : P (.consume q)) (left : Nat)
    (messages : List Grpc.ConsumedMessage) :
    Makes bc ids P (Grpc.consumeAll bc uuid q left messages) := by
  induction left generalizing messages with
  | zero => exact .ret _
  | succ left ih =>
      refine .bind (makes_consume allowed) fun delivery => ?_
      cases delivery with
      | none => exact .ret _
      | some delivery => exact ih _

theorem makes_created {name : String} {policy : RetentionPolicy}
    (allowed : P (.declareQueueWithRetention name policy)) :
    Makes bc ids P ((QueueManager.declareQueueWithRetention bc name policy).attempt >>=
      fun result => Grpc.endWith (Grpc.created result)) := by
  refine .bind (makes_declare allowed).attempt fun result => ?_
  cases Grpc.created result with
  | ok => exact .ret _
  | error => exact .fail _

end Methods

/-! ## The handlers -/

namespace Daemon

/-- The operations that a unary request makes are allowed. -/
def Request.Within (P : Operation → Prop) : Request → Prop
  | .http (.declareQueue name) => P (.declareQueueWithRetention name default)
  | .http (.publish name _ _) => ∀ m, m.deliverAt = none → P (.publish name m)
  | .http (.consume name) => P (.consume name)
  | .http (.ack name tag) => P (.ack name tag)
  | .http (.nack name tag) => P (.nack name tag)
  | .grpc (.declareQueue req) =>
      P (.declareQueueWithRetention req.name (Grpc.declareRequestToPolicy req))
  | .grpc (.publish queue message) =>
      ∀ m, (∃ msg ∈ message, m.deliverAt = msg.deliverAt) → P (.publish queue m)
  | .grpc (.publishBatch queue messages) =>
      ∀ m, (∃ msg ∈ messages, m.deliverAt = msg.deliverAt) → P (.publish queue m)
  | .grpc (.consume queue) => P (.consume queue)
  | .grpc (.consumeBatch queue _) => P (.consume queue)
  | .grpc (.ack queue tag) => P (.ack queue tag)
  | .grpc (.nack queue tag) => P (.nack queue tag)

/-- What the call hands to consensus stands for allowed operations. -/
def Call.Within (P : Operation → Prop) : (β : Type) → Call β → Prop
  | _, .consensus op => op.Within P
  | _, _ => True

section Handlers

variable (bc : Bincode) (ids : Nat → UInt64) (P : Operation → Prop) {ε α β : Type}

/-- A handler that does to the manager what allowed operations do, and hands only such to
    consensus. -/
structure Serves (task : Task ε α) : Prop where
  works : task.Leads (handle ids) fun w w' => Works bc ids P w.machine w'.machine
  hands : task.Only (Call.Within P)

variable {bc ids P}

theorem Serves.reaches {task : Task ε α} (serves : Serves bc ids P task) (w : World) :
    Reaches bc ids (fun step => P step.op) w.manager (task.run (handle ids) w).2.manager :=
  (serves.works w).2.mono fun _ allowed => allowed.1

theorem Serves.ret (a : α) : Serves bc ids P (.ret a : Task ε α) :=
  ⟨Program.Leads.ret (fun w => Works.refl w.machine) a, trivial⟩

theorem Serves.fail (e : ε) : Serves bc ids P (.fail e : Task ε α) :=
  ⟨Program.Leads.fail (fun w => Works.refl w.machine) e, trivial⟩

theorem Serves.panic : Serves bc ids P (.panic : Task ε α) :=
  ⟨fun w => Works.refl w.machine, trivial⟩

/-- A sequence, where something is known of what its first part ends with. -/
theorem Serves.bind_ends {value : α → Prop} {error : ε → Prop} {p : Task ε α} {f : α → Task ε β}
    (ends : p.Ends value error) (first : Serves bc ids P p)
    (rest : ∀ a, value a → Serves bc ids P (f a)) : Serves bc ids P (p >>= f) :=
  ⟨.bind_ends ends first.works (fun a known => (rest a known).works) fun _ _ _ => Works.trans,
    .bind_ends ends first.hands fun a known => (rest a known).hands⟩

theorem Serves.bind {p : Task ε α} {f : α → Task ε β} (first : Serves bc ids P p)
    (rest : ∀ a, Serves bc ids P (f a)) : Serves bc ids P (p >>= f) :=
  .bind_ends (.any (fun _ => trivial) (fun _ => trivial) p) first fun a _ => rest a

/-- A call that is not one of the manager's leaves the manager alone. -/
theorem Serves.ask {c : Call α} (apart : ∀ w, Works bc ids P w.machine (handle ids α c w).2.machine)
    (within : Call.Within P α c) : Serves bc ids P (Program.ask c : Task ε α) :=
  ⟨Program.Leads.ask apart, .ask within⟩

/-- What the lock and an operation lead to, the operation on the locked manager leads to. -/
theorem leads_core {R : World → World → Prop} (trans : ∀ w w' w'', R w w' → R w' w'' → R w w'')
    (locks : ∀ w poisoned, R w { w with poisoned := poisoned }) {action : Action α}
    (works : ∀ w, R w (w.onMachine (action.run (PelicanQ.handle ids) w.machine).2)) :
    (core action : Task ε _).Leads (handle ids) R := by
  intro w
  cases poisoned : w.poisoned with
  | true =>
      rw [run_core_poisoned ids poisoned]
      exact locks w w.poisoned
  | false =>
      rw [run_core ids poisoned]
      exact trans _ _ _ (works w) (locks _ _)

theorem Serves.core {action : Action α} (makes : Makes bc ids P action) :
    Serves bc ids P (core action : Task ε _) where
  works := leads_core (R := fun w w' => Works bc ids P w.machine w'.machine)
    (fun _ _ _ => Works.trans) (fun w _ => .refl w.machine) fun w => makes w.machine
  hands := by
    refine .bind (.ask trivial) fun poisoned => .ite trivial ?_
    exact .bind (.embed (Program.only_any action)) fun _ => .bind (.ask trivial) fun _ => trivial

theorem Serves.embed {ε' : Type} {p : Task ε α} (serves : Serves bc ids P p) :
    Serves bc ids P (p.embed id : Task ε' (Except ε α)) where
  works := Program.Leads.embed id (fun _ w => w) (fun _ _ => rfl) (fun _ _ _ => rfl) (fun _ => rfl)
    (fun _ _ _ => rfl) (fun _ _ worked => worked) serves.works
  hands := .embed serves.hands

theorem serves_newV4 : Serves bc ids P (newV4 : Task ε Uuid) :=
  .ask (fun w => .refl w.machine) trivial

theorem serves_nowMs : Serves bc ids P (.ask (.core .nowMs) : Task ε Int64) :=
  .ask (fun w => ⟨remains_later w.machine.clock, .refl _⟩) trivial

theorem serves_send (packet : Packet) : Serves bc ids P (send packet : Task ε Bool) :=
  .ask (fun w => .refl w.machine) trivial

theorem serves_clientWrite {op : QueueOperation} (within : op.Within P) :
    Serves bc ids P (clientWrite bc op : Task ε _) := by
  refine .bind (.ask (fun w => .refl w.machine) within) fun decision => ?_
  cases decision with
  | forwards leaderNode => exact .ret _
  | fails message => exact .ret _
  | applies =>
      refine .bind (.ask (fun w => .refl w.machine) trivial) fun memory => ?_
      refine .bind (.core (makes_applyOperation memory within)) fun result => ?_
      cases result with
      | ok response => exact .ret _
      | error e => exact .ret _

/-! ### gRPC and HTTP -/

section Answers

variable {direct : Action α} {op : QueueOperation}
  {expected : QueueOperationResponse → Option (Except PelicanError α)}

theorem serves_writeResultToStatus (result : WriteResult) :
    Serves bc ids P (Grpc.writeResultToStatus result) := by
  cases result with
  | ok => exact .ret _
  | notLeader leaderNode => cases leaderNode <;> exact .fail _
  | error => exact .fail _

theorem serves_grpc (engine : AppEngine) (otherwise : String) (makes : Makes bc ids P direct)
    (within : op.Within P) :
    Serves bc ids P (Grpc.answer bc engine direct op expected otherwise) := by
  have unexpected (result : WriteResult) : Serves bc ids P
      (Grpc.writeResultToStatus result >>= fun _ =>
        (.fail ⟨.internal, otherwise⟩ : Task Grpc.Status α)) :=
    .bind (serves_writeResultToStatus result) fun _ => .fail _
  cases engine with
  | solo =>
      refine .bind (.core makes) fun result => ?_
      cases result with
      | ok => exact .ret _
      | error => exact .fail _
  | flock =>
      refine .bind (serves_clientWrite within) fun result => ?_
      cases result with
      | ok response =>
          dsimp only
          cases expected response with
          | none => exact unexpected _
          | some answer =>
              cases answer with
              | ok => exact .ret _
              | error => exact .fail _
      | notLeader | error => exact unexpected _

theorem serves_http (formats : Http.Formats) (engine : AppEngine) (respond : α → Http.Response)
    (makes : Makes bc ids P direct) (within : op.Within P) :
    Serves bc ids P (Http.answer bc formats engine direct op expected respond) := by
  cases engine with
  | solo =>
      refine .bind (.core makes) fun result => ?_
      cases result <;> exact .ret _
  | flock =>
      refine .bind (serves_clientWrite within) fun result => ?_
      cases result with
      | ok response =>
          dsimp only
          cases expected response with
          | none => exact .ret _
          | some answer => cases answer <;> exact .ret _
      | error => exact .ret _
      | notLeader leaderNode =>
          change Serves bc ids P (Http.notLeaderResponse formats leaderNode)
          unfold Http.notLeaderResponse
          split
          · split_ifs
            · exact .ret _
            · exact .ret _
            · exact .panic
          · exact .ret _

end Answers

variable (uuid : UuidText) (formats : Http.Formats) (engine : AppEngine)

theorem serves_httpRequest (request : Http.Request) (within : (Request.http request).Within P) :
    Serves bc ids P (Http.serve bc uuid formats engine request) := by
  cases request with
  | declareQueue name => exact serves_http formats engine _ (makes_declare within) within
  | publish name payloadBase64 headers =>
      change Serves bc ids P (Http.publish bc uuid formats engine name payloadBase64 headers)
      unfold Http.publish
      split
      · exact .ret _
      · refine .bind serves_newV4 fun id => .bind serves_nowMs fun now => ?_
        exact serves_http formats engine _ (makes_publish (within _ rfl)) (within _ rfl)
  | consume name => exact serves_http formats engine _ (makes_consume within) within
  | ack name tag => exact serves_http formats engine _ (makes_ack within) within
  | nack name tag => exact serves_http formats engine _ (makes_nack within) within

theorem serves_protoMessageToCore (msg : Grpc.ProtoMessage) :
    Serves bc ids P (Grpc.protoMessageToCore uuid msg : Task ε Message) := by
  unfold Grpc.protoMessageToCore
  split
  · exact .ret _
  · exact .bind serves_newV4 fun _ => .ret _

/-- What a client sends is published for the time that it gives. -/
theorem ends_protoMessageToCore (msg : Grpc.ProtoMessage) :
    (Grpc.protoMessageToCore uuid msg : Task ε Message).Ends
      (fun m => m.deliverAt = msg.deliverAt) fun _ => True := by
  unfold Grpc.protoMessageToCore
  split
  · rfl
  · exact fun _ => rfl

theorem ends_protoMessagesToCore (messages : List Grpc.ProtoMessage) :
    (Grpc.protoMessagesToCore uuid messages : Task ε (List Message)).Ends
      (fun all => ∀ m ∈ all, ∃ msg ∈ messages, m.deliverAt = msg.deliverAt) fun _ => True := by
  induction messages with
  | nil => exact fun _ member => absurd member List.not_mem_nil
  | cons msg rest ih =>
      refine (ends_protoMessageToCore uuid msg).bind fun first same => ih.bind fun others known => ?_
      rintro m (_ | ⟨_, later⟩)
      · exact ⟨msg, List.mem_cons_self, same⟩
      · obtain ⟨msg', member, same'⟩ := known m later
        exact ⟨msg', List.mem_cons_of_mem _ member, same'⟩

theorem serves_protoMessagesToCore (messages : List Grpc.ProtoMessage) :
    Serves bc ids P (Grpc.protoMessagesToCore uuid messages : Task ε (List Message)) := by
  induction messages with
  | nil => exact .ret _
  | cons msg rest ih =>
      exact .bind (serves_protoMessageToCore uuid msg) fun _ => .bind ih fun _ => .ret _

theorem serves_grpcRequest (request : Grpc.Request) (within : (Request.grpc request).Within P) :
    Serves bc ids P (Grpc.serve bc uuid engine request) := by
  cases request with
  | declareQueue req =>
      exact .bind (serves_grpc engine _ (makes_created within) within) fun _ => .ret _
  | publish queue message =>
      cases message with
      | none => exact .fail _
      | some message =>
          refine .bind (.bind_ends (ends_protoMessageToCore uuid message)
            (serves_protoMessageToCore uuid message) fun msg same => ?_) fun _ => .ret _
          have allowed : P (.publish queue msg) := within msg ⟨message, rfl, same⟩
          exact .bind (serves_grpc engine _ (makes_publish allowed) allowed) fun _ => .ret _
  | publishBatch queue messages =>
      refine .bind (.bind_ends (ends_protoMessagesToCore uuid messages)
        (serves_protoMessagesToCore uuid messages) fun messages known => ?_) fun _ => .ret _
      have all : ∀ m ∈ messages, P (.publish queue m) := fun m member => within m (known m member)
      exact serves_grpc engine _ (makes_publishAll uuid all []) all
  | consume queue =>
      exact .bind (.bind (serves_grpc engine _ (makes_consume within) within) fun _ => .ret _)
        fun _ => .ret _
  | consumeBatch queue max =>
      exact .bind (serves_grpc engine _ (makes_consumeAll uuid within max.toNat []) within)
        fun _ => .ret _
  | ack queue tag => exact .bind (serves_grpc engine _ (makes_ack within) within) fun _ => .ret _
  | nack queue tag => exact .bind (serves_grpc engine _ (makes_nack within) within) fun _ => .ret _

theorem serve_works (r : Request) (within : r.Within P) (w : World) :
    Works bc ids P w.machine (r.serve bc uuid formats ids engine w).2.machine := by
  cases r with
  | http request => exact (serves_httpRequest uuid formats engine request within).works w
  | grpc request => exact (serves_grpcRequest uuid engine request within).works w

/-! ### MQTT -/

section Through

/-- A judgement about tasks that goes through their sequence. -/
structure Sequential (J : (α : Type) → Task Empty α → Prop) : Prop where
  ret : ∀ {α : Type} (a : α), J α (.ret a)
  bind : ∀ {α β : Type} {p : Task Empty α} {f : α → Task Empty β},
    J α p → (∀ a, J β (f a)) → J β (p >>= f)

variable {J : (α : Type) → Task Empty α → Prop} {queue : String} (sequential : Sequential J)

include sequential

/-! The operation itself, or the same through consensus; what comes back only decides the answer. -/

theorem Sequential.declareQueue
    (direct : J _ (core (QueueManager.declareQueue bc queue)))
    (write : J _ (clientWrite bc (.declareQueue queue default))) :
    J _ (Mqtt.declareQueue bc engine queue) := by
  cases engine with
  | solo =>
      refine sequential.bind direct fun result => ?_
      cases result <;> exact sequential.ret _
  | flock =>
      refine sequential.bind write fun result => ?_
      cases result with
      | notLeader | error => exact sequential.ret _
      | ok response =>
          cases response with
          | declareQueue answer =>
              cases answer with
              | ok => exact sequential.ret _
              | error e => cases e <;> exact sequential.ret _
          | _ => exact sequential.ret _

theorem Sequential.consumeOne
    (direct : J _ (core (QueueManager.consume bc queue)))
    (write : J _ (clientWrite bc (.consume queue))) :
    J _ (Mqtt.consumeOne bc engine queue) := by
  cases engine with
  | solo =>
      refine sequential.bind direct fun result => ?_
      cases result <;> exact sequential.ret _
  | flock =>
      refine sequential.bind write fun result => ?_
      cases result with
      | notLeader | error => exact sequential.ret _
      | ok response =>
          cases response with
          | consume answer => cases answer <;> exact sequential.ret _
          | _ => exact sequential.ret _

theorem Sequential.ackMessage {tag : DeliveryTag}
    (direct : J _ (core (QueueManager.ack queue tag)))
    (write : J _ (clientWrite bc (.ack queue tag))) :
    J _ (Mqtt.ackMessage bc engine queue tag) := by
  cases engine with
  | solo => exact sequential.bind direct fun _ => sequential.ret _
  | flock => exact sequential.bind write fun _ => sequential.ret _

theorem Sequential.publishMessage (payload : Bytes) (fresh : J _ newV4)
    (clock : J _ (.ask (.core .nowMs)))
    (direct : ∀ m, m.deliverAt = none → J _ (core (QueueManager.publish bc queue m)))
    (write : ∀ m, m.deliverAt = none → J _ (clientWrite bc (.publish queue m))) :
    J _ (Mqtt.publishMessage bc engine queue payload) := by
  refine sequential.bind fresh fun id => sequential.bind clock fun now => ?_
  cases engine with
  | solo =>
      refine sequential.bind (direct _ rfl) fun result => ?_
      cases result <;> exact sequential.ret _
  | flock =>
      refine sequential.bind (write _ rfl) fun result => ?_
      cases result with
      | notLeader | error => exact sequential.ret _
      | ok response =>
          cases response with
          | publish answer => cases answer <;> exact sequential.ret _
          | _ => exact sequential.ret _

end Through

theorem serves_sequential : Sequential fun _ => Serves bc ids P := ⟨.ret, .bind⟩

theorem serves_declareQueue {name : String}
    (allowed : P (.declareQueueWithRetention name default)) :
    Serves bc ids P (Mqtt.declareQueue bc engine name) :=
  serves_sequential.declareQueue engine (.core (makes_declare allowed)) (serves_clientWrite allowed)

theorem serves_consumeOne {queue : String} (allowed : P (.consume queue)) :
    Serves bc ids P (Mqtt.consumeOne bc engine queue) :=
  serves_sequential.consumeOne engine (.core (makes_consume allowed)) (serves_clientWrite allowed)

theorem serves_ackMessage {queue : String} {tag : DeliveryTag} (allowed : P (.ack queue tag)) :
    Serves bc ids P (Mqtt.ackMessage bc engine queue tag) :=
  serves_sequential.ackMessage engine (.core (makes_ack allowed)) (serves_clientWrite allowed)

theorem serves_publishMessage {queue : String}
    (allowed : ∀ m, m.deliverAt = none → P (.publish queue m)) (payload : Bytes) :
    Serves bc ids P (Mqtt.publishMessage bc engine queue payload) :=
  serves_sequential.publishMessage engine payload serves_newV4 serves_nowMs
    (fun m plain => .core (makes_publish (allowed m plain)))
    fun m plain => serves_clientWrite (allowed m plain)

/-- Send a packet, and go on if it was written. -/
theorem serves_written (packet : Packet) (first second : α) :
    Serves bc ids P (send packet >>= fun written =>
      if written then (pure first : Task Empty α) else pure second) :=
  .bind (serves_send packet) fun written => by cases written <;> exact .ret _

theorem serves_subscribe {path : String} (allowed : P (.declareQueueWithRetention path default))
    (qos : QoS) (c : Mqtt.Connection) : Serves bc ids P (Mqtt.subscribe bc engine path qos c) := by
  unfold Mqtt.subscribe
  split_ifs
  · exact .ret _
  all_goals exact .bind (serves_declareQueue engine allowed) fun _ => .ret _

end Handlers

end Daemon

end PelicanQ
