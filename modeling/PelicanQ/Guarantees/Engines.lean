import PelicanQ.Daemon.Requests
import PelicanQ.Guarantees.Acceptance
import PelicanQ.Guarantees.Orderly

/-! # One engine or the other

Every handler has two branches: one calls the manager, the other hands an
operation to consensus and reads the response.  They say the same, as long as
there is memory for what a batch asks for.  What differs is the manager they work
on: only the direct one is opened with the configured limit, so the two engines
part at the first message that goes beyond it.
-/

namespace PelicanQ

open QueueManager

/-! ## The two branches -/

section Mirrors

variable {bc : Bincode} {memory : Allocator} {α : Type}

/-- Applying the operation does what the method does, and the expected response is how the
    method ended. -/
def Mirrors (bc : Bincode) (memory : Allocator) (direct : Action α) (op : QueueOperation)
    (expected : QueueOperationResponse → Option (Except PelicanError α)) : Prop :=
  (applyOperation bc memory op >>= fun response => pure (expected response)) =
    (direct.attempt >>= fun result => pure (some result))

theorem Mirrors.of_attempt {direct : Action α} {op : QueueOperation}
    {answers : Except PelicanError α → QueueOperationResponse}
    {expected : QueueOperationResponse → Option (Except PelicanError α)}
    (attempts : applyOperation bc memory op =
      (direct.attempt >>= fun result => pure (answers result)))
    (reads : ∀ result, expected (answers result) = some result) :
    Mirrors bc memory direct op expected := by
  rw [Mirrors, attempts, Program.bind_assoc]
  simp only [Program.pure_eq, Program.ret_bind, reads]

theorem mirrors_declareQueue (name : String) (policy : RetentionPolicy) :
    Mirrors bc memory (declareQueueWithRetention bc name policy) (.declareQueue name policy)
      (·.asDeclareQueue) := by
  have attempts : applyOperation bc memory (.declareQueue name policy) =
      ((declareQueueWithRetention bc name policy).attempt >>= fun result =>
        pure (.declareQueue result)) := by
    rw [applyOperation]
    split_ifs with plain
    · rw [plain]
      rfl
    · rfl
  exact .of_attempt attempts fun _ => rfl

/-- What is made of a result can be made of the expected response. -/
theorem Mirrors.map {β : Type} {direct : Action α} {op : QueueOperation}
    {expected : QueueOperationResponse → Option (Except PelicanError α)}
    (mirrors : Mirrors bc memory direct op expected) (f : Except PelicanError α → Except PelicanError β)
    {direct' : Action β}
    (made : direct'.attempt = (direct.attempt >>= fun result => pure (f result))) :
    Mirrors bc memory direct' op fun response => (expected response).map f := by
  have mapped := congrArg (fun p : Action (Option (Except PelicanError α)) =>
    p >>= fun result => pure (result.map f)) mirrors
  simp only [Program.bind_assoc, Program.pure_eq, Program.ret_bind, Option.map_some] at mapped
  rw [Mirrors, made, Program.bind_assoc]
  exact mapped

/-- A method that reworks how another one ended. -/
theorem attempt_rework {β : Type} (p : Action α)
    (f : Except PelicanError α → Except PelicanError β) :
    (p.attempt >>= fun result => Grpc.endWith (f result)).attempt =
      (p.attempt >>= fun result => pure (f result)) := by
  have ended (result : Except PelicanError β) : (Grpc.endWith result).attempt = .ret result := by
    cases result <;> rfl
  induction p with
  | ret a => exact ended (f (.ok a))
  | fail e => exact ended (f (.error e))
  | panic | diverge => rfl
  | call c next ih => exact congrArg (Program.call c) (funext ih)

theorem mirrors_created (name : String) (policy : RetentionPolicy) :
    Mirrors bc memory ((declareQueueWithRetention bc name policy).attempt >>= fun result =>
        Grpc.endWith (Grpc.created result))
      (.declareQueue name policy) fun response => response.asDeclareQueue.map Grpc.created :=
  (mirrors_declareQueue name policy).map Grpc.created (attempt_rework _ Grpc.created)

theorem mirrors_publishEach (uuid : UuidText) (q : String) (messages : List Message)
    (outcomes : List PublishOutcome) :
    (publishEach bc q messages outcomes >>= fun response => pure (response.asPublishBatch.map
      fun result => result.map fun outcomes => outcomes.map (Grpc.publishResponse uuid))) =
      ((Grpc.publishAll bc uuid q messages (outcomes.map (Grpc.publishResponse uuid))).attempt >>=
        fun result => pure (some result)) := by
  induction messages generalizing outcomes with
  | nil => rfl
  | cons m rest ih =>
      rw [publishEach, Grpc.publishAll, Program.bind_assoc, Program.attempt_bind, Program.bind_assoc]
      refine congrArg (Program.bind _) (funext fun result => ?_)
      cases result with
      | error e => rfl
      | ok outcome =>
          have step := ih (outcomes ++ [outcome])
          rw [List.map_append, List.map_singleton] at step
          exact step

theorem mirrors_publishBatch (uuid : UuidText) (q : String) (messages : List Message) :
    Mirrors bc memory (Grpc.publishAll bc uuid q messages []) (.publishBatch q messages) fun response =>
      response.asPublishBatch.map fun result =>
        result.map fun outcomes => outcomes.map (Grpc.publishResponse uuid) :=
  mirrors_publishEach uuid q messages []

theorem mirrors_consumeEach (uuid : UuidText) (q : String) (left : Nat)
    (deliveries : List (DeliveryTag × Message)) :
    (consumeEach bc q left deliveries >>= fun response => pure (response.asConsumeBatch.map
      fun result => result.map fun items => items.map (Grpc.consumedMessage uuid))) =
      ((Grpc.consumeAll bc uuid q left (deliveries.map (Grpc.consumedMessage uuid))).attempt >>=
        fun result => pure (some result)) := by
  induction left generalizing deliveries with
  | zero => rfl
  | succ left ih =>
      rw [consumeEach, Grpc.consumeAll, Program.bind_assoc, Program.attempt_bind, Program.bind_assoc]
      refine congrArg (Program.bind _) (funext fun result => ?_)
      cases result with
      | error e => rfl
      | ok delivery =>
          cases delivery with
          | none => rfl
          | some delivery =>
              have step := ih (deliveries ++ [delivery])
              rw [List.map_append, List.map_singleton] at step
              exact step

/-- Applied, a batch first asks for the memory of all that it may return. -/
theorem mirrors_consumeBatch (uuid : UuidText) (q : String) {max : UInt32}
    (granted : memory max.toUInt64 = true) :
    Mirrors bc memory (Grpc.consumeAll bc uuid q max.toNat []) (.consumeBatch q max.toUInt64)
      fun response => response.asConsumeBatch.map fun result =>
        result.map fun items => items.map (Grpc.consumedMessage uuid) := by
  have reserved : reserve memory max.toUInt64 = .ret () := if_pos granted
  rw [Mirrors, applyOperation, reserved, Program.ret_bind, UInt32.toNat_toUInt64]
  exact mirrors_consumeEach uuid q max.toNat []

/-! ## Handing an operation over -/

variable {ε : Type} {ids : Nat → UInt64} {direct : Action α} {op : QueueOperation}
  {expected : QueueOperationResponse → Option (Except PelicanError α)} {w : Daemon.World}

/-- A write that was applied ends as the method does, with the response that is expected. -/
inductive Applied (expected : QueueOperationResponse → Option (Except PelicanError α)) :
    Outcome PelicanError α → Outcome ε WriteResult → Prop
  | value {a : α} {response : QueueOperationResponse} (read : expected response = some (.ok a)) :
      Applied expected (.ok a) (.ok (.ok response))
  | error {e : PelicanError} {response : QueueOperationResponse}
      (read : expected response = some (.error e)) :
      Applied expected (.err e) (.ok (.ok response))
  | panicked : Applied expected .panicked .panicked
  | diverged : Applied expected .diverged .diverged

theorem Mirrors.run_clientWrite (mirrors : Mirrors bc w.memory direct op expected) (ε : Type)
    (ids : Nat → UInt64) (fresh : w.poisoned = false) (applies : w.consensus 0 = .applies) :
    ∃ answer, (Daemon.clientWrite bc op : Daemon.Task ε _).run (Daemon.handle ids) w =
        (answer, (w.after (direct.run (handle ids) w.machine)).decided) ∧
      Applied expected (direct.run (handle ids) w.machine).1 answer := by
  have ran := congrArg (fun p => Program.run (handle ids) p w.machine) mirrors
  simp only [Program.run_bind, Program.run_attempt] at ran
  have fresh' : w.decided.poisoned = false := fresh
  have machine : w.decided.machine = w.machine := rfl
  rw [Daemon.run_clientWrite ids bc op applies, Daemon.run_core_bind ids fresh', machine]
  generalize (applyOperation bc w.memory op).run (handle ids) w.machine = applied at ran ⊢
  generalize direct.run (handle ids) w.machine = called at ran ⊢
  obtain ⟨answer, t⟩ := applied
  obtain ⟨outcome, t'⟩ := called
  cases answer with
  | ok response =>
      cases outcome with
      | ok value =>
          obtain ⟨read, rfl⟩ := Prod.mk.inj ran
          exact ⟨_, rfl, .value (Outcome.ok.inj read)⟩
      | err e =>
          obtain ⟨read, rfl⟩ := Prod.mk.inj ran
          exact ⟨_, rfl, .error (Outcome.ok.inj read)⟩
      | panicked | diverged => cases ran
  | err e => cases outcome <;> cases ran
  | panicked =>
      cases outcome with
      | panicked =>
          cases ran
          exact ⟨_, rfl, .panicked⟩
      | ok | err | diverged => cases ran
  | diverged =>
      cases outcome with
      | diverged =>
          cases ran
          exact ⟨_, rfl, .diverged⟩
      | ok | err | panicked => cases ran

/-- Through consensus a call ends as it does on the manager. -/
theorem Mirrors.run_grpc (mirrors : Mirrors bc w.memory direct op expected)
    (applies : w.consensus 0 = .applies) (otherwise : String) :
    (Grpc.answer bc .flock direct op expected otherwise).run (Daemon.handle ids) w =
      ((Grpc.answer bc .solo direct op expected otherwise).run (Daemon.handle ids) w).map id
        Daemon.World.decided := by
  rw [Grpc.answer, Grpc.answer, Program.run_bind]
  cases lock : w.poisoned with
  | true =>
      rw [Daemon.run_clientWrite_poisoned ids lock bc op applies,
        Daemon.run_core_bind_poisoned ids lock]
      rfl
  | false =>
      obtain ⟨answer, written, ended⟩ := mirrors.run_clientWrite Grpc.Status ids lock applies
      rw [written, Daemon.run_core_bind ids lock]
      generalize direct.run (handle ids) w.machine = called at ended ⊢
      obtain ⟨outcome, t⟩ := called
      cases ended with
      | value read | error read =>
          simp only [Outcome.andThen_ok, read]
          rfl
      | panicked | diverged => rfl

theorem Mirrors.run_http (mirrors : Mirrors bc w.memory direct op expected)
    (formats : Http.Formats) (applies : w.consensus 0 = .applies) (respond : α → Http.Response) :
    (Http.answer bc formats .flock direct op expected respond).run (Daemon.handle ids) w =
      ((Http.answer bc formats .solo direct op expected respond).run (Daemon.handle ids) w).map id
        Daemon.World.decided := by
  rw [Http.answer, Http.answer, Program.run_bind]
  cases lock : w.poisoned with
  | true =>
      rw [Daemon.run_clientWrite_poisoned ids lock bc op applies,
        Daemon.run_core_bind_poisoned ids lock]
      rfl
  | false =>
      obtain ⟨answer, written, ended⟩ := mirrors.run_clientWrite Empty ids lock applies
      rw [written, Daemon.run_core_bind ids lock]
      generalize direct.run (handle ids) w.machine = called at ended ⊢
      obtain ⟨outcome, t⟩ := called
      cases ended with
      | value read | error read =>
          simp only [Outcome.andThen_ok, read]
          rfl
      | panicked | diverged => rfl

end Mirrors

/-! ## Every request -/

section Requests

variable {ids : Nat → UInt64} {ε α β : Type}

/-- Two handlers ended alike, with the same manager and its lock as it is for the other. -/
def Alike (r r' : Outcome ε α × Daemon.World) : Prop :=
  r'.1 = r.1 ∧ r'.2.machine = r.2.machine ∧ r'.2.poisoned = r.2.poisoned

theorem Alike.refl (r : Outcome ε α × Daemon.World) : Alike r r := ⟨rfl, rfl, rfl⟩

theorem Alike.of_decided {r r' : Outcome ε α × Daemon.World}
    (decided : r' = r.map id Daemon.World.decided) : Alike r r' := by
  rw [decided]
  exact ⟨rfl, rfl, rfl⟩

theorem Alike.map {p p' : Daemon.Task ε α} {w : Daemon.World}
    (alike : Alike (p.run (Daemon.handle ids) w) (p'.run (Daemon.handle ids) w)) (f : α → β) :
    Alike ((p >>= fun a => pure (f a)).run (Daemon.handle ids) w)
      ((p' >>= fun a => pure (f a)).run (Daemon.handle ids) w) := by
  rw [Program.run_bind, Program.run_bind]
  generalize p.run (Daemon.handle ids) w = r at alike ⊢
  generalize p'.run (Daemon.handle ids) w = r' at alike ⊢
  obtain ⟨outcome, w₁⟩ := r
  obtain ⟨outcome', w₂⟩ := r'
  obtain ⟨rfl, machine⟩ := alike
  cases outcome' with
  | ok | err | panicked | diverged => exact ⟨rfl, machine⟩

variable (bc : Bincode) (uuid : UuidText) (formats : Http.Formats) (ids : Nat → UInt64)

theorem http_alike {w : Daemon.World} (applies : ∀ n, w.consensus n = .applies)
    (request : Http.Request) :
    Alike ((Http.serve bc uuid formats .solo request).run (Daemon.handle ids) w)
      ((Http.serve bc uuid formats .flock request).run (Daemon.handle ids) w) := by
  cases request with
  | declareQueue name =>
      exact .of_decided ((mirrors_declareQueue name default).run_http formats (applies 0) _)
  | publish name payloadBase64 headers =>
      rw [Http.serve, Http.serve, Http.publish, Http.publish]
      cases formats.ofBase64 payloadBase64 with
      | error e => exact .refl _
      | ok payload =>
          exact .of_decided (Mirrors.run_http (w := w.stamped) (.of_attempt rfl fun _ => rfl) formats
            (applies 0) _)
  | consume name =>
      exact .of_decided (Mirrors.run_http (.of_attempt rfl fun _ => rfl) formats (applies 0) _)
  | ack name tag =>
      exact .of_decided (Mirrors.run_http (.of_attempt rfl fun _ => rfl) formats (applies 0) _)
  | nack name tag =>
      exact .of_decided (Mirrors.run_http (.of_attempt rfl fun _ => rfl) formats (applies 0) _)

/-- There is memory for all that a request may be answered with. -/
def Grpc.Request.Granted (memory : Allocator) : Grpc.Request → Prop
  | .consumeBatch _ max => memory max.toUInt64 = true
  | _ => True

theorem grpc_alike {w : Daemon.World} (applies : ∀ n, w.consensus n = .applies)
    (request : Grpc.Request) (granted : request.Granted w.memory) :
    Alike ((Grpc.serve bc uuid .solo request).run (Daemon.handle ids) w)
      ((Grpc.serve bc uuid .flock request).run (Daemon.handle ids) w) := by
  cases request with
  | declareQueue req =>
      exact .map (.of_decided ((mirrors_created req.name _).run_grpc (applies 0) _)) _
  | publish queue message =>
      refine .map ?_ Grpc.Reply.published
      cases message with
      | none => exact .refl _
      | some msg =>
          obtain ⟨id, w₁, ran, apart, -⟩ := run_protoMessageToCore uuid ids msg w
          rw [Grpc.publish, Grpc.publish, Program.run_bind, Program.run_bind, ran]
          exact .map (.of_decided (Mirrors.run_grpc (.of_attempt rfl fun _ => rfl)
            (congrFun apart.consensus 0 ▸ applies 0) _)) _
  | publishBatch queue messages =>
      obtain ⟨w₁, ran, apart⟩ := run_protoMessagesToCore uuid ids messages w
      refine .map ?_ Grpc.Reply.publishedBatch
      rw [Grpc.publishBatch, Grpc.publishBatch, Program.run_bind, Program.run_bind, ran]
      exact .of_decided ((mirrors_publishBatch uuid queue _).run_grpc
        (congrFun apart.consensus 0 ▸ applies 0) _)
  | consume queue =>
      exact .map (.map (.of_decided (Mirrors.run_grpc (.of_attempt rfl fun _ => rfl) (applies 0) _)) _) _
  | consumeBatch queue max =>
      exact .map (.of_decided ((mirrors_consumeBatch uuid queue granted).run_grpc
        (applies 0) _)) _
  | ack queue tag =>
      exact .map (.of_decided (Mirrors.run_grpc (.of_attempt rfl fun _ => rfl) (applies 0) _)) _
  | nack queue tag =>
      exact .map (.of_decided (Mirrors.run_grpc (.of_attempt rfl fun _ => rfl) (applies 0) _)) _

end Requests

/-! ## Without the limit -/

def QueueManager.unlimited (qm : QueueManager) : QueueManager := { qm with maxBytes := none }

def Machine.unlimited (s : Machine) : Machine := { s with manager := s.manager.unlimited }

/-- A call that neither asks for the limit nor changes the count. -/
def Call.Uncounted : (β : Type) → Call β → Prop
  | _, .maxBytes => False
  | _, .setCurrentBytes _ => False
  | _, _ => True

section Within

variable {bc : Bincode} {ids : Nat → UInt64} {q : String} {α β : Type} {s : Machine}

/-- With so many bytes to spare the method is the same without the limit, and it uses up no more
    than these. -/
def Within (ids : Nat → UInt64) (bytes : Nat) (p : Action α) (s : Machine) : Prop :=
  ∀ left, s.manager.Fits (bytes + left) →
    p.run (handle ids) s.unlimited = (p.run (handle ids) s).map id Machine.unlimited ∧
      (p.run (handle ids) s).2.manager.Fits left

theorem Within.ret (bytes : Nat) (a : α) : Within ids bytes (.ret a) s :=
  fun _ fits => ⟨rfl, fits.mono (Nat.le_add_left ..)⟩

theorem Within.uncounted {p : Action α} (only : p.Only Call.Uncounted) (s : Machine) :
    Within ids 0 p s := by
  intro left fits
  rw [Nat.zero_add] at fits
  induction p generalizing s with
  | ret | fail | panic | diverge => exact ⟨rfl, fits⟩
  | call c next ih =>
      have same : handle ids _ c s.unlimited = (handle ids _ c s).map id Machine.unlimited := by
        cases c with
        | maxBytes => exact only.1.elim
        | sled | nowMs | currentBytes | setCurrentBytes => rfl
      have kept : (handle ids _ c s).2.manager.Fits left := by
        cases c with
        | maxBytes | setCurrentBytes => exact only.1.elim
        | sled | nowMs | currentBytes => exact fits
      rw [Program.run_call, Program.run_call, same]
      exact ih _ (only.2 _) _ kept

theorem Within.bind {p : Action β} {f : β → Action α} {first second : Nat}
    (within : Within ids first p s) (rest : ∀ b t, Within ids second (f b) t) :
    Within ids (first + second) (p >>= f) s := by
  intro left fits
  rw [Nat.add_assoc] at fits
  obtain ⟨same, after⟩ := within (second + left) fits
  rw [Program.run_bind, Program.run_bind, same]
  generalize p.run (handle ids) s = r at after ⊢
  obtain ⟨outcome, t⟩ := r
  cases outcome with
  | ok b => exact rest b t left after
  | err | panicked | diverged => exact ⟨rfl, after.mono (Nat.le_add_left ..)⟩

/-- A part that leaves the count alone may come first. -/
theorem Within.after {p : Action β} {f : β → Action α} {bytes : Nat} (only : p.Only Call.Uncounted)
    (rest : ∀ b t, Within ids bytes (f b) t) : Within ids bytes (p >>= f) s := by
  have whole := Within.bind (.uncounted only s) rest
  rwa [Nat.zero_add] at whole

theorem Within.checkLimit {size : UInt64} {next : Unit → Action α}
    (rest : Within ids size.toNat (next ()) s) :
    Within ids size.toNat (QueueManager.checkLimit size >>= next) s := by
  intro left fits
  have room := (fits.mono (Nat.le_add_right ..)).hasRoom
  rw [run_checkLimit_room ids s next room, run_checkLimit_room ids s.unlimited next rfl]
  exact rest left fits

theorem Within.addBytes {size : UInt64} {next : Unit → Action α}
    (rest : ∀ t, Within ids 0 (next ()) t) :
    Within ids size.toNat (QueueManager.addBytes size >>= next) s := by
  intro left fits
  have after : (s.setBytes (s.manager.currentBytes + size)).manager.Fits (0 + left) := by
    intro max limit
    have total : (s.manager.currentBytes + size).toNat ≤
        s.manager.currentBytes.toNat + size.toNat := UInt64.toNat_add _ _ ▸ Nat.mod_le _ _
    have within := fits max limit
    change (s.manager.currentBytes + size).toNat + (0 + left) ≤ max.toNat
    omega
  rw [run_addBytes, run_addBytes]
  exact rest _ left after

/-- An ack gives bytes back. -/
theorem Within.giveBack (size : UInt64) :
    Within ids 0 (Program.ask .currentBytes >>= fun current =>
      .ask (.setCurrentBytes (saturatingSub64 current size)) : Action Unit) s := by
  intro left fits
  refine ⟨rfl, fun max limit => ?_⟩
  have less : (saturatingSub64 s.manager.currentBytes size).toNat ≤
      s.manager.currentBytes.toNat := by
    unfold saturatingSub64
    split_ifs with le
    · rw [UInt64.toNat_sub_of_le _ _ le]
      exact Nat.sub_le _ _
    · exact Nat.zero_le _
  have within := fits max limit
  change (saturatingSub64 s.manager.currentBytes size).toNat + left ≤ max.toNat
  omega

theorem uncounted_requireQueue : (requireQueue q).Only Call.Uncounted :=
  .bind (.ask trivial) fun _ => .ite trivial trivial

theorem uncounted_policyOf : (policyOf bc q).Only Call.Uncounted :=
  .bind (.ask trivial) fun _ => trivial

theorem uncounted_slice (bytes : Bytes) (start stop : Nat) :
    (slice bytes start stop).Only Call.Uncounted :=
  .ite trivial trivial

theorem uncounted_deserialize (value : Bytes) : (deserialize bc value).Only Call.Uncounted := by
  unfold deserialize
  split
  · trivial
  · trivial

theorem uncounted_isDuplicate (m : Message) (policy : RetentionPolicy) :
    (isDuplicate q m policy).Only Call.Uncounted := by
  unfold isDuplicate
  split
  · refine .ite (.bind (.ask trivial) fun _ => .bind (.ask trivial) fun found => ?_) trivial
    cases found with
    | none => trivial
    | some recorded =>
        exact .bind (uncounted_slice _ _ _) fun _ => .bind (.ask trivial) fun _ => trivial
  · trivial

theorem uncounted_recordDedupKey (m : Message) (policy : RetentionPolicy) :
    (recordDedupKey q m policy).Only Call.Uncounted := by
  unfold recordDedupKey
  split
  · exact .bind (.ask trivial) fun _ => .bind (.ask trivial) fun _ => .ask trivial
  · trivial

theorem uncounted_notYetDue (m : Message) : (QueueManager.notYetDue m).Only Call.Uncounted := by
  unfold QueueManager.notYetDue
  split
  · exact .bind (.ask trivial) fun _ => trivial
  · trivial

theorem Within.store (m : Message) (policy : RetentionPolicy) :
    Within ids (UInt64.ofNat (bc.message.encode m).length).toNat (store bc q m policy) s := by
  refine .after (.ask trivial) fun id _ => .after (uncounted_notYetDue m) fun due _ => ?_
  cases due with
  | some | none =>
      exact .after (.ask trivial) fun _ _ => .after (.ask trivial) fun _ _ => .addBytes fun _ =>
        .after (uncounted_recordDedupKey m policy) fun _ _ => .ret 0 _

/-- A publish uses up what its message takes. -/
theorem Within.publish (q : String) (m : Message) :
    Within ids (UInt64.ofNat (bc.message.encode m).length).toNat (publish bc q m) s := by
  refine .after uncounted_requireQueue fun _ _ => .after uncounted_policyOf fun policy _ =>
    .after (uncounted_isDuplicate m policy) fun duplicate _ => ?_
  cases duplicate with
  | true => exact .ret _ _
  | false => exact .checkLimit (.store m policy)

theorem Within.mono {p : Action α} {bytes more : Nat} (within : Within ids bytes p s)
    (le : bytes ≤ more) : Within ids more p s :=
  fun left fits => within left (fits.mono (Nat.add_le_add_right le left))

theorem Within.publish_le (q : String) (m : Message) :
    Within ids (bc.message.encode m).length (QueueManager.publish bc q m) s :=
  (Within.publish q m).mono (by rw [UInt64.toNat_ofNat']; exact Nat.mod_le _ _)

theorem uncounted_consumeLoop (passes : Nat) : (consumeLoop bc q passes).Only Call.Uncounted := by
  induction passes with
  | zero => trivial
  | succ passes ih =>
      refine .bind (.ask trivial) fun entries => ?_
      cases entries.head? with
      | none => trivial
      | some entry =>
          refine .bind (uncounted_slice _ _ _) fun _ => .bind (.ask trivial) fun value => ?_
          cases value with
          | none => exact ih
          | some value => exact .bind (uncounted_deserialize value) fun _ => trivial

theorem uncounted_consume : (consume bc q).Only Call.Uncounted :=
  .bind uncounted_requireQueue fun _ => .bind (.ask trivial) fun _ => .bind (.ask trivial) fun _ =>
    uncounted_consumeLoop 1

theorem Within.ack (q : String) (tag : DeliveryTag) : Within ids 0 (ack q tag) s := by
  refine .after uncounted_requireQueue fun _ _ => .after (.ask trivial) fun _ _ =>
    .after (.ask trivial) fun value _ => ?_
  cases value with
  | none => exact .uncounted (p := .fail (.invalidDeliveryTag tag)) trivial _
  | some => exact .giveBack _

theorem uncounted_nack (tag : DeliveryTag) : (nack bc q tag).Only Call.Uncounted := by
  refine .bind uncounted_requireQueue fun _ => .bind uncounted_policyOf fun _ =>
    .bind (.ask trivial) fun _ => .bind (.ask trivial) fun _ => .bind (.ask trivial) fun _ =>
      .bind (.ask trivial) fun _ => .bind (.ask trivial) fun returned => ?_
  cases returned with
  | none => trivial
  | some => trivial

theorem uncounted_declare (policy : RetentionPolicy) :
    (declareQueueWithRetention bc q policy).Only Call.Uncounted :=
  .bind (.ask trivial) fun _ => .ite trivial
    (.bind (.ask trivial) fun _ => .bind (.ask trivial) fun _ => .bind (.ask trivial) fun _ =>
      .bind (.ask trivial) fun _ => .bind (.ask trivial) fun _ => .bind (.ask trivial) fun _ =>
        .ask trivial)

theorem uncounted_attempt {p : Action α} (only : p.Only Call.Uncounted) :
    p.attempt.Only Call.Uncounted := by
  induction p with
  | ret | fail | panic | diverge => trivial
  | call c next ih => exact ⟨only.1, fun answer => ih answer (only.2 answer)⟩

theorem uncounted_created (policy : RetentionPolicy) :
    ((declareQueueWithRetention bc q policy).attempt >>= fun result =>
      Grpc.endWith (Grpc.created result)).Only Call.Uncounted :=
  .bind (uncounted_attempt (uncounted_declare policy)) fun result => by
    cases Grpc.created result <;> trivial

theorem uncounted_consumeAll (uuid : UuidText) (left : Nat)
    (messages : List Grpc.ConsumedMessage) :
    (Grpc.consumeAll bc uuid q left messages).Only Call.Uncounted := by
  induction left generalizing messages with
  | zero => trivial
  | succ left ih =>
      refine .bind uncounted_consume fun delivery => ?_
      cases delivery with
      | none => trivial
      | some delivery => exact ih _

theorem Within.publishAll (uuid : UuidText) (messages : List Message)
    (results : List Grpc.PublishResponse) :
    Within ids (batchBytes bc messages) (Grpc.publishAll bc uuid q messages results) s := by
  induction messages generalizing results s with
  | nil => exact .ret 0 _
  | cons m rest ih => exact .bind (.publish_le q m) fun _ _ => ih _

end Within

/-! ## Until the limit is reached -/

namespace Daemon

def World.unlimited (w : World) : World := w.onMachine w.machine.unlimited

/-- The messages that a request publishes, with the readings and ids its handler gets. -/
def Request.messages (uuid : UuidText) (formats : Http.Formats) (clock : Nat → Int64)
    (uuids : Nat → Uuid) : Request → List Message
  | .http (.publish _ payloadBase64 headers) =>
      match formats.ofBase64 payloadBase64 with
      | .ok payload => [Http.newMessage payload headers (uuids 0) (clock 0)]
      | .error _ => []
  | .grpc (.publish _ (some message)) => withIds uuid uuids [message]
  | .grpc (.publishBatch _ messages) => withIds uuid uuids messages
  | _ => []

/-- What the messages of a request take up. -/
def Arrival.bytes (bc : Bincode) (uuid : UuidText) (formats : Http.Formats) (arrival : Arrival) :
    Nat :=
  batchBytes bc (arrival.request.messages uuid formats arrival.clock arrival.uuids)

/-- A batch is consumed with memory for all that it may return. -/
def Arrival.Granted (arrival : Arrival) : Prop :=
  match arrival.request with
  | .grpc request => request.Granted arrival.memory
  | .http _ => True

section Serving

variable {bc : Bincode} {uuid : UuidText} {formats : Http.Formats} {ids : Nat → UInt64} {ε α β : Type}
  {w : World}

/-- With so many bytes to spare the handler does the same without the limit, and uses up no more. -/
def Within (ids : Nat → UInt64) (bytes : Nat) (t : Task ε α) (w : World) : Prop :=
  ∀ left, w.manager.Fits (bytes + left) →
    t.run (handle ids) w.unlimited = (t.run (handle ids) w).map id World.unlimited ∧
      (t.run (handle ids) w).2.manager.Fits left

theorem Within.ret (a : α) : Within ids 0 (.ret a : Task ε α) w :=
  fun _ fits => ⟨rfl, fits.mono (Nat.le_add_left ..)⟩

theorem Within.fail (e : ε) : Within ids 0 (.fail e : Task ε α) w :=
  fun _ fits => ⟨rfl, fits.mono (Nat.le_add_left ..)⟩

theorem Within.bind {t : Task ε α} {f : α → Task ε β} {bytes : Nat} (first : Within ids bytes t w)
    (rest : ∀ a w', Within ids 0 (f a) w') : Within ids bytes (t >>= f) w := by
  intro left fits
  obtain ⟨same, after⟩ := first left fits
  rw [Program.run_bind, Program.run_bind, same]
  generalize t.run (handle ids) w = r at after ⊢
  obtain ⟨outcome, w'⟩ := r
  cases outcome with
  | ok a => exact rest a w' left (after.mono (Nat.zero_add left).le)
  | err | panicked | diverged => exact ⟨rfl, after⟩

/-- A part that uses up nothing may come first. -/
theorem Within.after {t : Task ε α} {f : α → Task ε β} {bytes : Nat} (first : Within ids 0 t w)
    (rest : ∀ a w', t.run (handle ids) w = (.ok a, w') → Within ids bytes (f a) w') :
    Within ids bytes (t >>= f) w := by
  intro left fits
  obtain ⟨same, after⟩ := first (bytes + left) (fits.mono (Nat.zero_add _).le)
  rw [Program.run_bind, Program.run_bind, same]
  cases ran : t.run (handle ids) w with
  | mk outcome w' =>
      rw [ran] at after
      cases outcome with
      | ok a => exact rest a w' ran left after
      | err | panicked | diverged => exact ⟨rfl, after.mono (Nat.le_add_left ..)⟩

theorem Within.core {action : Action α} {bytes : Nat}
    (within : PelicanQ.Within ids bytes action w.machine) :
    Within ids bytes (core action : Task ε _) w := by
  intro left fits
  have machine : w.unlimited.machine = w.machine.unlimited := rfl
  cases lock : w.poisoned with
  | true =>
      have lock' : w.unlimited.poisoned = true := lock
      rw [run_core_poisoned ids lock, run_core_poisoned ids lock']
      exact ⟨rfl, fits.mono (Nat.le_add_left ..)⟩
  | false =>
      have lock' : w.unlimited.poisoned = false := lock
      obtain ⟨same, after⟩ := within left fits
      rw [run_core ids lock, run_core ids lock', machine, same]
      exact ⟨rfl, after⟩

section Answers

variable {direct : Action α} {op : QueueOperation}
  {expected : QueueOperationResponse → Option (Except PelicanError α)} {bytes : Nat}

theorem Within.http {respond : α → Http.Response}
    (within : PelicanQ.Within ids bytes direct w.machine) :
    Within ids bytes (Http.answer bc formats .solo direct op expected respond) w := by
  refine .bind (.core within) fun result _ => ?_
  cases result with
  | ok | error => exact .ret _

theorem Within.grpc {otherwise : String} (within : PelicanQ.Within ids bytes direct w.machine) :
    Within ids bytes (Grpc.answer bc .solo direct op expected otherwise) w := by
  refine .bind (.core within) fun result _ => ?_
  cases result with
  | ok => exact .ret _
  | error => exact .fail _

end Answers

theorem http_within (ids : Nat → UInt64) (w : World) (request : Http.Request) :
    Within ids (batchBytes bc
        ((Request.http request).messages uuid formats w.machine.clock w.uuids))
      (Http.serve bc uuid formats .solo request) w := by
  cases request with
  | declareQueue name =>
      rw [Http.serve, Http.declareQueue]
      exact .http (.uncounted (uncounted_declare default) _)
  | publish name payloadBase64 headers =>
      rw [Http.serve, Request.messages]
      cases decoded : formats.ofBase64 payloadBase64 with
      | error e =>
          rw [Http.publish, decoded]
          exact .ret _
      | ok payload =>
          intro left fits
          have stamped : w.unlimited.stamped = w.stamped.unlimited := rfl
          rw [http_publishes headers decoded, http_publishes headers decoded, stamped]
          exact Within.http (w := w.stamped) (.publish_le name _) left fits
  | consume name =>
      rw [Http.serve, Http.consume]
      exact .http (.uncounted uncounted_consume _)
  | ack name tag =>
      rw [Http.serve, Http.ack]
      exact .http (.ack name tag)
  | nack name tag =>
      rw [Http.serve, Http.nack]
      exact .http (.uncounted (uncounted_nack tag) _)

theorem within_protoMessageToCore (msg : Grpc.ProtoMessage) (w : World) :
    Within ids 0 (Grpc.protoMessageToCore uuid msg : Task ε _) w := by
  intro left fits
  rw [Nat.zero_add] at fits
  unfold Grpc.protoMessageToCore
  split
  · exact ⟨rfl, fits⟩
  · exact ⟨rfl, fits⟩

theorem within_protoMessagesToCore (messages : List Grpc.ProtoMessage) (w : World) :
    Within ids 0 (Grpc.protoMessagesToCore uuid messages : Task ε _) w := by
  induction messages generalizing w with
  | nil => exact .ret _
  | cons msg rest ih =>
      exact .bind (within_protoMessageToCore msg w) fun _ w' => .bind (ih w') fun _ _ => .ret _

theorem grpc_within (ids : Nat → UInt64) (w : World) (request : Grpc.Request) :
    Within ids (batchBytes bc
        ((Request.grpc request).messages uuid formats w.machine.clock w.uuids))
      (Grpc.serve bc uuid .solo request) w := by
  cases request with
  | declareQueue req =>
      rw [Grpc.serve, Grpc.declareQueue]
      exact .bind (.grpc (.uncounted (uncounted_created _) _)) fun _ _ => .ret _
  | publish queue message =>
      rw [Grpc.serve, Grpc.publish.eq_def]
      refine .bind ?_ fun _ _ => .ret _
      cases message with
      | none => exact .fail _
      | some msg =>
          refine .after (within_protoMessageToCore msg w) fun m w' ran => ?_
          obtain ⟨id, w₁, ran₁, -, settles⟩ := run_protoMessageToCore uuid ids msg w
          cases ran₁.symm.trans ran
          rw [Request.messages, settles []]
          exact .bind (.grpc (.publish_le queue _)) fun _ _ => .ret _
  | publishBatch queue messages =>
      rw [Grpc.serve, Grpc.publishBatch]
      refine .bind ?_ fun _ _ => .ret _
      refine .after (within_protoMessagesToCore messages w) fun ms w' ran => ?_
      obtain ⟨w₁, ran₁, -⟩ := run_protoMessagesToCore uuid ids messages w
      cases ran₁.symm.trans ran
      exact .grpc (.publishAll uuid _ _)
  | consume queue =>
      rw [Grpc.serve, Grpc.consume]
      exact .bind (.bind (.grpc (.uncounted uncounted_consume _)) fun _ _ => .ret _)
        fun _ _ => .ret _
  | consumeBatch queue max =>
      rw [Grpc.serve, Grpc.consumeBatch]
      exact .bind (.grpc (.uncounted (uncounted_consumeAll uuid _ _) _)) fun _ _ => .ret _
  | ack queue tag =>
      rw [Grpc.serve, Grpc.ack]
      exact .bind (.grpc (.ack queue tag)) fun _ _ => .ret _
  | nack queue tag =>
      rw [Grpc.serve, Grpc.nack]
      exact .bind (.grpc (.uncounted (uncounted_nack tag) _)) fun _ _ => .ret _

/-- One request, with room for what it publishes. -/
theorem served_flock (ids : Nat → UInt64) {qm : QueueManager} (poisoned : Bool) {arrival : Arrival}
    {left : Nat} (granted : arrival.Granted) (fits : qm.Fits (arrival.bytes bc uuid formats + left)) :
    (served bc uuid formats ids .flock qm.unlimited poisoned arrival).1 =
        (served bc uuid formats ids .solo qm poisoned arrival).1 ∧
      (served bc uuid formats ids .flock qm.unlimited poisoned arrival).2.manager =
        (served bc uuid formats ids .solo qm poisoned arrival).2.manager.unlimited ∧
      (served bc uuid formats ids .flock qm.unlimited poisoned arrival).2.poisoned =
        (served bc uuid formats ids .solo qm poisoned arrival).2.poisoned ∧
      (served bc uuid formats ids .solo qm poisoned arrival).2.manager.Fits left := by
  have applies : ∀ n, (arrival.world qm poisoned).unlimited.consensus n = .applies := fun _ => rfl
  have world : arrival.world qm.unlimited poisoned = (arrival.world qm poisoned).unlimited := rfl
  rw [Arrival.Granted] at granted
  rw [Arrival.bytes] at fits
  rw [served, served, world]
  cases request : arrival.request with
  | http request' =>
      rw [request] at fits
      obtain ⟨same, after⟩ := http_within ids (arrival.world qm poisoned) request' left fits
      obtain ⟨outcome, machine, lock⟩ := http_alike bc uuid formats ids applies request'
      rw [same] at outcome machine lock
      exact ⟨congrArg Reply.http outcome, congrArg Machine.manager machine, lock, after⟩
  | grpc request' =>
      rw [request] at fits granted
      obtain ⟨same, after⟩ := grpc_within ids (arrival.world qm poisoned) request' left fits
      obtain ⟨outcome, machine, lock⟩ := grpc_alike bc uuid ids applies request' granted
      rw [same] at outcome machine lock
      exact ⟨congrArg Reply.grpc outcome, congrArg Machine.manager machine, lock, after⟩

theorem agree_from (ids : Nat → UInt64) {names : List String} (apart : NonColliding names) {qm : QueueManager}
    {arrivals : List Arrival} (orderly : Orderly bc names qm)
    (inside : ∀ a ∈ arrivals.flatMap (·.request.declares), a ∈ names)
    (granted : ∀ arrival ∈ arrivals, arrival.Granted)
    (fits : qm.Fits ((arrivals.map (·.bytes bc uuid formats)).sum)) :
    replies bc uuid formats ids .flock qm.unlimited false arrivals =
        replies bc uuid formats ids .solo qm false arrivals ∧
      (∀ reply ∈ replies bc uuid formats ids .solo qm false arrivals, reply.answered = true) ∧
      finalManager bc uuid formats ids .flock qm.unlimited false arrivals =
        (finalManager bc uuid formats ids .solo qm false arrivals).unlimited := by
  induction arrivals generalizing qm with
  | nil => exact ⟨rfl, fun _ member => absurd member List.not_mem_nil, rfl⟩
  | cons arrival rest ih =>
      rw [List.map_cons, List.sum_cons] at fits
      rw [List.flatMap_cons] at inside
      obtain ⟨reply, manager, lock, after⟩ := served_flock ids false
        (granted arrival List.mem_cons_self) fits
      obtain ⟨answered, fresh⟩ := served_answers uuid formats ids
        apart orderly fun a member => inside a (List.mem_append_left _ member)
      rw [fresh.lock] at lock
      obtain ⟨same, all, last⟩ := ih fresh.manager
        (fun a member => inside a (List.mem_append_right _ member))
        (fun a member => granted a (List.mem_cons_of_mem _ member)) after
      simp only [replies, finalManager, reply, manager, lock, fresh.lock]
      refine ⟨congrArg _ same, fun r member => ?_, last⟩
      rcases List.mem_cons.mp member with rfl | later
      · exact answered
      · exact all r later

end Serving

/-- Started on empty directories, with different names, room under the limit for every message and
    memory for every batch, the two daemons answer every request, they answer alike, and they end
    with the same database. -/
theorem engines_agree (bc : Bincode) (uuid : UuidText) (formats : Http.Formats) (ids : Nat → UInt64)
    (clock : Nat → Int64) (maxBytes : Option UInt64) (arrivals : List Arrival)
    (apart : NonColliding (arrivals.flatMap (·.request.declares)))
    (granted : ∀ arrival ∈ arrivals, arrival.Granted)
    (fits : ∀ max, maxBytes = some max →
      (arrivals.map (·.bytes bc uuid formats)).sum ≤ max.toNat) :
    let solo := (startManager bc ids clock maxBytes .empty .solo).2
    let flock := (startManager bc ids clock maxBytes .empty .flock).2
    replies bc uuid formats ids .flock flock false arrivals =
        replies bc uuid formats ids .solo solo false arrivals ∧
      (∀ reply ∈ replies bc uuid formats ids .solo solo false arrivals, reply.answered = true) ∧
      (finalManager bc uuid formats ids .flock flock false arrivals).db =
        (finalManager bc uuid formats ids .solo solo false arrivals).db := by
  intro solo flock
  have orderly : Orderly bc (arrivals.flatMap (·.request.declares)) solo :=
    ⟨emptyBroker maxBytes, started_refines bc ids maxBytes, fun a member => by cases member⟩
  have room : solo.Fits ((arrivals.map (·.bytes bc uuid formats)).sum) := by
    intro max limit
    change (0 : UInt64).toNat + _ ≤ max.toNat
    rw [UInt64.toNat_zero, Nat.zero_add]
    exact fits max limit
  obtain ⟨same, answered, last⟩ := agree_from ids apart orderly (fun _ member => member)
    granted room
  have unlimited : (finalManager bc uuid formats ids .solo solo false arrivals).unlimited.db =
      (finalManager bc uuid formats ids .solo solo false arrivals).db := rfl
  exact ⟨same, answered, (congrArg QueueManager.db last).trans unlimited⟩

/-- A queue and so many messages of 55 bytes. -/
def fillingArrivals (messages : Nat) : List Arrival :=
  ⟨.grpc (.declareQueue ⟨"q", none, none, none, none⟩), fun _ => 0, fun _ => 0, ample⟩ ::
    List.replicate messages ⟨.grpc (.publish "q" (some plainProto)), fun _ => 0, fun _ => 0, ample⟩

theorem fillingArrivals_agree :
    replies bincode byteUuid noFormats (counter 0) .flock
        (startManager bincode (counter 0) (fun _ => 0) (some 100) .empty .flock).2 false
        (fillingArrivals 1) =
      replies bincode byteUuid noFormats (counter 0) .solo
        (startManager bincode (counter 0) (fun _ => 0) (some 100) .empty .solo).2 false
        (fillingArrivals 1) := by
  refine (engines_agree bincode byteUuid noFormats (counter 0) (fun _ => 0) (some 100)
    (fillingArrivals 1) (by decide +kernel) ?_ ?_).1
  · intro arrival member
    rcases List.mem_pair.mp member with rfl | rfl <;> trivial
  · rintro max ⟨rfl⟩
    decide +kernel

/-- The second message is refused by one daemon and stored by the other. -/
theorem fillingArrivals_part :
    replies bincode byteUuid noFormats (counter 0) .flock
        (startManager bincode (counter 0) (fun _ => 0) (some 100) .empty .flock).2 false
        (fillingArrivals 2) ≠
      replies bincode byteUuid noFormats (counter 0) .solo
        (startManager bincode (counter 0) (fun _ => 0) (some 100) .empty .solo).2 false
        (fillingArrivals 2) := by
  decide +kernel

end Daemon

end PelicanQ
