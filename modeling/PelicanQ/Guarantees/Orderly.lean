import PelicanQ.Broker.Runs
import PelicanQ.Daemon.Requests
import PelicanQ.Lib.Leads

/-! # A daemon that answers

While the names of its queues keep their trees apart, a manager is in the state of
some broker, and there no method panics.  So the daemon that works on it answers
every request, and its lock is never poisoned.
-/

namespace PelicanQ

/-- A manager in the state of a broker whose queues are among the names. -/
def Orderly (bc : Bincode) (names : List String) (qm : QueueManager) : Prop :=
  ∃ b, Refines bc qm b ∧ ∀ a ∈ b.names, a ∈ names

theorem Regular.returns {α : Type} {outcome : Outcome PelicanError α} (regular : Regular outcome) :
    outcome.returns = true := by
  cases outcome with
  | ok | err => rfl
  | panicked | diverged => exact regular.elim

/-! ## The manager's methods -/

section Methods

variable {bc : Bincode} {ids : Nat → UInt64} {names : List String} {α : Type}

/-- Called in order, the method returns, and leaves everything in order. -/
def Settles (bc : Bincode) (ids : Nat → UInt64) (names : List String) (action : Action α) : Prop :=
  action.Returns (handle ids) fun s => Orderly bc names s.manager

theorem Settles.op (apart : NonColliding names) (op : Operation)
    (declares : ∀ a ∈ op.declares, a ∈ names) {action : Action α}
    (performs : ∀ s : Machine, (op.perform bc ids s.clock s.manager).2 =
      (action.run (handle ids) s).2.manager)
    (answers : ∀ s : Machine, (op.perform bc ids s.clock s.manager).1.Regular →
      Regular (action.run (handle ids) s).1) : Settles bc ids names action := by
  rintro s ⟨b, refines, within⟩
  have sub : ∀ a ∈ op.declares ++ b.names, a ∈ names := fun a member =>
    (List.mem_append.mp member).elim (declares a) (within a)
  obtain ⟨answer, after⟩ := perform_refines ids s.clock refines op (apart.subset sub)
  have regular := perform_regular bc ids s.clock b op
  rw [← answer] at regular
  rw [performs s] at after
  exact ⟨(answers s regular).returns, _, after,
    fun a member => sub a (perform_names bc ids s.clock b op a member)⟩

variable (apart : NonColliding names)

include apart

theorem settles_declare {name : String} (inside : name ∈ names) (policy : RetentionPolicy) :
    Settles bc ids names (QueueManager.declareQueueWithRetention bc name policy) :=
  .op apart (.declareQueueWithRetention name policy)
    (fun _ member => List.mem_singleton.mp member ▸ inside) (fun _ => rfl) fun _ => id

theorem settles_publish (q : String) (m : Message) :
    Settles bc ids names (QueueManager.publish bc q m) :=
  .op apart (.publish q m) (fun _ member => absurd member List.not_mem_nil) (fun _ => rfl)
    fun _ => id

theorem settles_consume (q : String) : Settles bc ids names (QueueManager.consume bc q) :=
  .op apart (.consume q) (fun _ member => absurd member List.not_mem_nil) (fun _ => rfl) fun _ => id

theorem settles_ack (q : String) (tag : DeliveryTag) :
    Settles bc ids names (QueueManager.ack q tag) :=
  .op apart (.ack q tag) (fun _ member => absurd member List.not_mem_nil) (fun _ => rfl) fun _ => id

theorem settles_nack (q : String) (tag : DeliveryTag) :
    Settles bc ids names (QueueManager.nack bc q tag) :=
  .op apart (.nack q tag) (fun _ member => absurd member List.not_mem_nil) (fun _ => rfl) fun _ => id

theorem settles_created {name : String} (inside : name ∈ names) (policy : RetentionPolicy) :
    Settles bc ids names ((QueueManager.declareQueueWithRetention bc name policy).attempt >>=
      fun result => Grpc.endWith (Grpc.created result)) := by
  refine .bind (settles_declare apart inside policy).attempt fun result => ?_
  cases Grpc.created result with
  | ok => exact .ret _
  | error => exact .fail _

theorem settles_publishAll (uuid : UuidText) (q : String) (messages : List Message)
    (results : List Grpc.PublishResponse) :
    Settles bc ids names (Grpc.publishAll bc uuid q messages results) := by
  induction messages generalizing results with
  | nil => exact .ret _
  | cons m rest ih => exact .bind (settles_publish apart q m) fun _ => ih _

theorem settles_consumeAll (uuid : UuidText) (q : String) (left : Nat)
    (messages : List Grpc.ConsumedMessage) :
    Settles bc ids names (Grpc.consumeAll bc uuid q left messages) := by
  induction left generalizing messages with
  | zero => exact .ret _
  | succ left ih =>
      refine .bind (settles_consume apart q) fun delivery => ?_
      cases delivery with
      | none => exact .ret _
      | some delivery => exact ih _

end Methods

/-! ## The handlers -/

namespace Daemon

/-- Nothing has panicked, and the manager is in order. -/
structure World.Fresh (bc : Bincode) (names : List String) (w : World) : Prop where
  lock : w.poisoned = false
  manager : Orderly bc names w.manager

section Handlers

variable {bc : Bincode} {uuid : UuidText} {formats : Http.Formats} {ids : Nat → UInt64}
  {names : List String} {ε α : Type}

theorem returns_core {action : Action α} (settles : Settles bc ids names action) :
    (core action : Task ε _).Returns (handle ids) (World.Fresh bc names) := by
  rintro w ⟨fresh, orderly⟩
  obtain ⟨returned, after⟩ := settles w.machine orderly
  rw [run_core ids fresh, Outcome.returns_caught]
  exact ⟨returned, congrArg Bool.not returned, after⟩

theorem returns_newV4 : (newV4 : Task ε Uuid).Returns (handle ids) (World.Fresh bc names) :=
  .ask fun _ fresh => ⟨fresh.lock, fresh.manager⟩

theorem returns_nowMs :
    (.ask (.core .nowMs) : Task ε Int64).Returns (handle ids) (World.Fresh bc names) :=
  .ask fun _ fresh => ⟨fresh.lock, fresh.manager⟩

section Answers

variable {direct : Action α} {op : QueueOperation}
  {expected : QueueOperationResponse → Option (Except PelicanError α)}

theorem returns_grpc (settles : Settles bc ids names direct) (otherwise : String) :
    (Grpc.answer bc .solo direct op expected otherwise).Returns (handle ids)
      (World.Fresh bc names) := by
  refine .bind (returns_core settles) fun result => ?_
  cases result with
  | ok => exact .ret _
  | error => exact .fail _

theorem returns_http (settles : Settles bc ids names direct) (respond : α → Http.Response) :
    (Http.answer bc formats .solo direct op expected respond).Returns (handle ids)
      (World.Fresh bc names) := by
  refine .bind (returns_core settles) fun result => ?_
  cases result with
  | ok | error => exact .ret _

end Answers

theorem returns_protoMessageToCore (msg : Grpc.ProtoMessage) :
    (Grpc.protoMessageToCore uuid msg : Task ε _).Returns (handle ids) (World.Fresh bc names) := by
  unfold Grpc.protoMessageToCore
  split
  · exact .ret _
  · exact .bind returns_newV4 fun _ => .ret _

theorem returns_protoMessagesToCore (messages : List Grpc.ProtoMessage) :
    (Grpc.protoMessagesToCore uuid messages : Task ε _).Returns (handle ids)
      (World.Fresh bc names) := by
  induction messages with
  | nil => exact .ret _
  | cons msg rest ih =>
      exact .bind (returns_protoMessageToCore msg) fun _ => .bind ih fun _ => .ret _

variable (apart : NonColliding names)

include apart

theorem returns_httpRequest (request : Http.Request)
    (inside : ∀ a ∈ (Request.http request).declares, a ∈ names) :
    (Http.serve bc uuid formats .solo request).Returns (handle ids) (World.Fresh bc names) := by
  cases request with
  | declareQueue name =>
      rw [Http.serve, Http.declareQueue, QueueManager.declareQueue]
      exact returns_http (settles_declare apart (inside name List.mem_cons_self) default) _
  | publish name payloadBase64 headers =>
      rw [Http.serve, Http.publish]
      cases formats.ofBase64 payloadBase64 with
      | error => exact .ret _
      | ok payload =>
          exact .bind returns_newV4 fun _ => .bind returns_nowMs fun _ =>
            returns_http (settles_publish apart name _) _
  | consume name =>
      rw [Http.serve, Http.consume]
      exact returns_http (settles_consume apart name) _
  | ack name tag =>
      rw [Http.serve, Http.ack]
      exact returns_http (settles_ack apart name tag) _
  | nack name tag =>
      rw [Http.serve, Http.nack]
      exact returns_http (settles_nack apart name tag) _

theorem returns_grpcRequest (request : Grpc.Request)
    (inside : ∀ a ∈ (Request.grpc request).declares, a ∈ names) :
    (Grpc.serve bc uuid .solo request).Returns (handle ids) (World.Fresh bc names) := by
  cases request with
  | declareQueue req =>
      rw [Grpc.serve, Grpc.declareQueue]
      exact .bind (returns_grpc (settles_created apart (inside req.name List.mem_cons_self) _) _)
        fun _ => .ret _
  | publish queue message =>
      rw [Grpc.serve, Grpc.publish.eq_def]
      refine .bind ?_ fun _ => .ret _
      cases message with
      | none => exact .fail _
      | some msg =>
          exact .bind (returns_protoMessageToCore msg) fun m =>
            .bind (returns_grpc (settles_publish apart queue m) _) fun _ => .ret _
  | publishBatch queue messages =>
      rw [Grpc.serve, Grpc.publishBatch]
      exact .bind (.bind (returns_protoMessagesToCore messages) fun ms =>
        returns_grpc (settles_publishAll apart uuid queue ms []) _) fun _ => .ret _
  | consume queue =>
      rw [Grpc.serve, Grpc.consume]
      exact .bind (.bind (returns_grpc (settles_consume apart queue) _) fun _ => .ret _)
        fun _ => .ret _
  | consumeBatch queue max =>
      rw [Grpc.serve, Grpc.consumeBatch]
      exact .bind (returns_grpc (settles_consumeAll apart uuid queue max.toNat []) _)
        fun _ => .ret _
  | ack queue tag =>
      rw [Grpc.serve, Grpc.ack]
      exact .bind (returns_grpc (settles_ack apart queue tag) _) fun _ => .ret _
  | nack queue tag =>
      rw [Grpc.serve, Grpc.nack]
      exact .bind (returns_grpc (settles_nack apart queue tag) _) fun _ => .ret _

end Handlers

/-- The client got an answer, if only an error. -/
def Reply.answered : Reply → Bool
  | .http outcome => outcome.returns
  | .grpc outcome => outcome.returns

/-- A daemon in order answers a request, and stays in order. -/
theorem served_answers {bc : Bincode} (uuid : UuidText) (formats : Http.Formats)
    (ids : Nat → UInt64) {names : List String} (apart : NonColliding names) {qm : QueueManager}
    (orderly : Orderly bc names qm) {arrival : Arrival}
    (inside : ∀ a ∈ arrival.request.declares, a ∈ names) :
    (served bc uuid formats ids .solo qm false arrival).1.answered = true ∧
      (served bc uuid formats ids .solo qm false arrival).2.Fresh bc names := by
  have start : (arrival.world qm false).Fresh bc names := ⟨rfl, orderly⟩
  rw [served]
  cases request : arrival.request with
  | http request' => exact returns_httpRequest apart request' (request ▸ inside) _ start
  | grpc request' => exact returns_grpcRequest apart request' (request ▸ inside) _ start

end Daemon

end PelicanQ
