import PelicanQ.Daemon.Http
import PelicanQ.Daemon.Mqtt
import PelicanQ.Guarantees.Batches
import PelicanQ.Guarantees.Faults
import PelicanQ.Guarantees.Order

/-! # What an accepted message is kept as

Three front ends turn what a client sends into a message.  An MQTT publish is
acknowledged whether or not the engine took it.  The age of a message is counted
from a time stamp that each front end sets in its own way, and its priority is
cut to eight bits before it is clamped.
-/

namespace PelicanQ

open QueueManager

/-! ## Plain messages -/

section Plain

variable {bc : Bincode} {ids : Nat → UInt64} {q : String} {m : Message} {s : Machine}

theorem run_declareQueue_new (policy : RetentionPolicy) (new : s.manager.registered q = false) :
    (declareQueueWithRetention bc q policy).run (handle ids) s =
      (.ok (), (s.commit [.insert metaQueuesTree q.utf8 []]).commit
        [.insert metaRetentionTree q.utf8 (bc.policy.encode policy)]) := by
  have absent : ((s.db.trees metaQueuesTree).get q.utf8).isSome = false := new
  rw [declareQueueWithRetention, run_containsKey, absent]
  rfl

theorem run_declareQueue_known (policy : RetentionPolicy) (known : s.manager.registered q = true) :
    (declareQueueWithRetention bc q policy).run (handle ids) s =
      (.err (.queueAlreadyExists q), s) := by
  have present : ((s.db.trees metaQueuesTree).get q.utf8).isSome = true := known
  rw [declareQueueWithRetention, run_containsKey, present]
  rfl

/-- A message without a key or a delivery time is stored when its queue is known and has room. -/
theorem run_publish_plain (keyless : m.dedupKey = none) (prompt : m.deliverAt = none)
    (known : s.manager.registered q = true)
    (room : s.manager.hasRoom (UInt64.ofNat (bc.message.encode m).length) = true) :
    (publish bc q m).run (handle ids) s = (.ok (.stored m.id),
      (s.draw.commit [.insert q (encodeKey m.priority (ids s.db.drawn)) (bc.message.encode m)]).setBytes
        (s.manager.currentBytes + UInt64.ofNat (bc.message.encode m).length)) := by
  obtain ⟨noDuplicate, noRecord⟩ := PelicanQ.keyless (a := q) keyless (policyRead bc s.db q)
  have due : QueueManager.notYetDue m = .ret none := by
    rw [QueueManager.notYetDue, prompt]
    rfl
  rw [publish, run_requireQueue_found ids s _ known, run_policyOf_read, noDuplicate,
    Program.ret_bind, if_neg Bool.false_ne_true, run_checkLimit_room ids s _ room, run_generateId, due,
    noRecord]
  rfl

theorem run_publish_refused (ids : Nat → UInt64) (keyless : m.dedupKey = none)
    (refused : ¬(s.manager.registered q = true ∧
      s.manager.hasRoom (UInt64.ofNat (bc.message.encode m).length) = true)) :
    ∃ e, (publish bc q m).run (handle ids) s = (.err e, s) := by
  rw [publish]
  cases known : s.manager.registered q with
  | false =>
      have absent : ((s.db.trees metaQueuesTree).get q.utf8).isSome = false := known
      rw [requireQueue, Program.run_bind, run_containsKey, absent]
      exact ⟨_, rfl⟩
  | true =>
      obtain ⟨noDuplicate, -⟩ := PelicanQ.keyless (a := q) keyless (policyRead bc s.db q)
      rw [run_requireQueue_found ids s _ known, run_policyOf_read, noDuplicate,
        Program.ret_bind, if_neg Bool.false_ne_true]
      obtain ⟨usedPct, limitPct, ran⟩ := run_checkLimit_full ids s _
        (Bool.eq_false_iff.mpr fun room => refused ⟨known, room⟩)
      exact ⟨_, ran⟩

end Plain

/-! ## An acknowledged publish -/

namespace Mqtt

open Daemon (World)

/-- Does the engine take this write? -/
def takes (engine : AppEngine) (decision : Consensus) : Prop :=
  engine = .solo ∨ decision = .applies

/-- The engine takes a publish: it takes the write, the queue is there or is made, and there
    is room. -/
def Takes (bc : Bincode) (engine : AppEngine) (w : World) (queue : String) (m : Message) : Prop :=
  takes engine (w.consensus 1) ∧
    (takes engine (w.consensus 0) ∨ w.manager.registered queue = true) ∧
      w.manager.hasRoom (UInt64.ofNat (bc.message.encode m).length) = true

/-- What declaring a queue does to the world. -/
structure Declared (engine : AppEngine) (queue : String) (w w₁ : World) : Prop where
  uuids : w₁.uuids = w.uuids
  clock : w₁.machine.clock = w.machine.clock
  socket : w₁.socket = w.socket
  sent : w₁.sent = w.sent
  room : ∀ size, w₁.manager.hasRoom size = w.manager.hasRoom size
  fresh : w₁.poisoned = false
  takes : takes engine (w₁.consensus 0) ↔ takes engine (w.consensus 1)
  registered : w₁.manager.registered queue = true ↔
    Mqtt.takes engine (w.consensus 0) ∨ w.manager.registered queue = true

variable {bc : Bincode} {ids : Nat → UInt64} {engine : AppEngine} {queue : String} {w : World}

/-- Declaring on the manager: the queue is there afterwards, and nothing else counts. -/
theorem run_declare (bc : Bincode) (ids : Nat → UInt64) (queue : String) (s : Machine) :
    ∃ outcome t, (QueueManager.declareQueue bc queue).run (handle ids) s = (outcome, t) ∧
      (outcome = .ok () ∨ outcome = .err (.queueAlreadyExists queue)) ∧ t.clock = s.clock ∧
        (∀ size, t.manager.hasRoom size = s.manager.hasRoom size) ∧
          t.manager.registered queue = true := by
  rw [QueueManager.declareQueue]
  cases known : s.manager.registered queue with
  | true =>
      rw [run_declareQueue_known default known]
      exact ⟨_, _, rfl, .inr rfl, rfl, fun _ => rfl, known⟩
  | false =>
      rw [run_declareQueue_new default known]
      refine ⟨_, _, rfl, .inl rfl, rfl, fun _ => rfl, ?_⟩
      change ((Sled.applyWrite (Sled.applyWrite s.db.trees (.insert metaQueuesTree queue.utf8 []))
        (.insert metaRetentionTree queue.utf8 (bc.policy.encode default)) metaQueuesTree).get
          queue.utf8).isSome = true
      rw [Sled.applyWrite_other _ (by decide : metaQueuesTree ≠ metaRetentionTree)]
      exact congrArg Option.isSome (get_written s.db.trees metaQueuesTree queue.utf8 [])

/-- A queue that the engine does not declare is left alone. -/
theorem run_declareQueue_declined (bc : Bincode) (ids : Nat → UInt64) (queue : String)
    (declined : ¬takes engine (w.consensus 0)) :
    (declareQueue bc engine queue).run (Daemon.handle ids) w = (.ok false, w.decided) := by
  cases engine with
  | solo => exact absurd (.inl rfl) declined
  | flock =>
      obtain ⟨result, unanswered, written⟩ := Daemon.run_clientWrite_declines (ε := Empty) ids
        bc (.declareQueue queue default) fun applies => declined (.inr applies)
      rw [declareQueue, Program.run_bind, written]
      cases result with
      | ok response => exact absurd rfl (unanswered response)
      | notLeader | error => rfl

theorem run_declareQueue_poisoned (bc : Bincode) (ids : Nat → UInt64) (queue : String)
    (poisoned : w.poisoned = true) (taken : takes engine (w.consensus 0)) :
    ∃ w₁, (declareQueue bc engine queue).run (Daemon.handle ids) w = (.panicked, w₁) ∧
      w₁.sent = w.sent := by
  cases engine with
  | solo =>
      rw [declareQueue, Daemon.run_core_bind_poisoned ids poisoned]
      exact ⟨w, rfl, rfl⟩
  | flock =>
      rw [declareQueue, Program.run_bind,
        Daemon.run_clientWrite_poisoned ids poisoned _ _ (taken.resolve_left nofun)]
      exact ⟨_, rfl, rfl⟩

theorem run_declareQueue (bc : Bincode) (ids : Nat → UInt64) (engine : AppEngine) (queue : String)
    (fresh : w.poisoned = false) :
    ∃ ok w₁, (declareQueue bc engine queue).run (Daemon.handle ids) w = (.ok ok, w₁) ∧
      Declared engine queue w w₁ := by
  by_cases taken : takes engine (w.consensus 0)
  · obtain ⟨outcome, t, ran, ended, clock, room, known⟩ := run_declare bc ids queue w.machine
    cases engine with
    | solo =>
        have declared : Declared .solo queue w (w.onMachine t) :=
          ⟨rfl, clock, rfl, rfl, room, fresh, ⟨fun _ => .inl rfl, fun _ => .inl rfl⟩,
            ⟨fun _ => .inl (.inl rfl), fun _ => known⟩⟩
        rw [declareQueue, Daemon.run_core_bind ids fresh, ran]
        rcases ended with rfl | rfl
        · rw [Daemon.World.after_returned fresh rfl]
          exact ⟨true, _, rfl, declared⟩
        · rw [Daemon.World.after_returned fresh rfl]
          exact ⟨false, _, rfl, declared⟩
    | flock =>
        have applies : w.consensus 0 = .applies := taken.resolve_left nofun
        have declared : Declared .flock queue w (w.decided.onMachine t) :=
          ⟨rfl, clock, rfl, rfl, room, fresh, .rfl, ⟨fun _ => .inl taken, fun _ => known⟩⟩
        have attempts : applyOperation bc w.memory (.declareQueue queue default) =
            ((QueueManager.declareQueue bc queue).attempt >>= fun result =>
              pure (.declareQueue result)) := by
          rw [applyOperation, if_pos rfl]
        rw [declareQueue, Program.run_bind]
        rcases ended with rfl | rfl
        · rw [Daemon.run_clientWrite_attempt ids fresh attempts applies rfl ran]
          exact ⟨true, _, rfl, declared⟩
        · rw [Daemon.run_clientWrite_attempt ids fresh attempts applies rfl ran]
          exact ⟨true, _, rfl, declared⟩
  · have declared : Declared engine queue w w.decided :=
      ⟨rfl, rfl, rfl, rfl, fun _ => rfl, fresh, .rfl, ⟨.inr, fun either => either.resolve_left taken⟩⟩
    exact ⟨false, w.decided, run_declareQueue_declined bc ids queue taken, declared⟩

theorem newMessage_stored (m : Message) (bytes id : UInt64) (s : Machine) :
    NewMessage bc queue m s.db ((s.draw.commit
      [.insert queue (encodeKey m.priority id) (bc.message.encode m)]).setBytes bytes).db := by
  refine ⟨queue, List.mem_cons_self, encodeKey m.priority id, ?_, get_written _ _ _ _⟩
  have log : ((s.draw.commit [.insert queue (encodeKey m.priority id)
      (bc.message.encode m)]).setBytes bytes).db.log =
        s.db.log ++ [[.insert queue (encodeKey m.priority id) (bc.message.encode m)]] := rfl
  rw [newWrites_of_log log]
  exact List.mem_singleton_self _

theorem not_newMessage (m : Message) {before after : Sled.Db} (same : after.log = before.log) :
    ¬NewMessage bc queue m before after := by
  rintro ⟨tree, listed, key, written, found⟩
  rw [newWrites_of_log (same.trans (List.append_nil _).symm)] at written
  cases written

/-- Publishing on the manager ends, and stores a plain message exactly when its queue is known
    and has room. -/
theorem run_publish_ends {m : Message} (keyless : m.dedupKey = none) (prompt : m.deliverAt = none)
    (bc : Bincode) (ids : Nat → UInt64) (queue : String) (s : Machine) :
    ∃ outcome t, (publish bc queue m).run (handle ids) s = (outcome, t) ∧
      (outcome = .ok (.stored m.id) ∨ ∃ e, outcome = .err e) ∧
        (NewMessage bc queue m s.db t.db ↔ s.manager.registered queue = true ∧
          s.manager.hasRoom (UInt64.ofNat (bc.message.encode m).length) = true) := by
  by_cases taken : s.manager.registered queue = true ∧
      s.manager.hasRoom (UInt64.ofNat (bc.message.encode m).length) = true
  · rw [run_publish_plain keyless prompt taken.1 taken.2]
    exact ⟨_, _, rfl, .inl rfl, fun _ => taken, fun _ => newMessage_stored m _ _ s⟩
  · obtain ⟨e, ran⟩ := run_publish_refused ids keyless taken
    exact ⟨_, _, ran, .inr ⟨e, rfl⟩, fun stored => absurd stored (not_newMessage m rfl),
      fun now => absurd now taken⟩

/-- A message that the engine does not take is not stored. -/
theorem run_publishMessage_declined (bc : Bincode) (ids : Nat → UInt64) (queue : String)
    (payload : Bytes) (declined : ¬takes engine (w.consensus 0)) :
    (publishMessage bc engine queue payload).run (Daemon.handle ids) w =
      (.ok false, w.stamped.decided) := by
  rw [publishMessage, Daemon.run_stamp]
  cases engine with
  | solo => exact absurd (.inl rfl) declined
  | flock =>
      obtain ⟨result, unanswered, written⟩ := Daemon.run_clientWrite_declines (ε := Empty)
        (w := w.stamped) ids bc (.publish queue (message payload (w.uuids 0) (w.machine.clock 0)))
        fun applies => declined (.inr applies)
      simp only
      rw [Program.run_bind, written]
      cases result with
      | ok response => exact absurd rfl (unanswered response)
      | notLeader | error => rfl

theorem run_publishMessage_poisoned (bc : Bincode) (ids : Nat → UInt64) (queue : String)
    (payload : Bytes) (poisoned : w.poisoned = true) (taken : takes engine (w.consensus 0)) :
    ∃ w₂, (publishMessage bc engine queue payload).run (Daemon.handle ids) w = (.panicked, w₂) ∧
      w₂.sent = w.sent := by
  have poisoned' : w.stamped.poisoned = true := poisoned
  rw [publishMessage, Daemon.run_stamp]
  cases engine with
  | solo =>
      simp only
      rw [Daemon.run_core_bind_poisoned ids poisoned']
      exact ⟨_, rfl, rfl⟩
  | flock =>
      have applies : w.stamped.consensus 0 = .applies := taken.resolve_left nofun
      simp only
      rw [Program.run_bind, Daemon.run_clientWrite_poisoned ids poisoned' _ _ applies]
      exact ⟨_, rfl, rfl⟩

/-- A publish stores its message exactly when the engine takes it. -/
theorem run_publishMessage (bc : Bincode) (ids : Nat → UInt64) (engine : AppEngine)
    (queue : String) (payload : Bytes) (fresh : w.poisoned = false) :
    ∃ ok w₂, (publishMessage bc engine queue payload).run (Daemon.handle ids) w = (.ok ok, w₂) ∧
      w₂.socket = w.socket ∧ w₂.sent = w.sent ∧
        (NewMessage bc queue (message payload (w.uuids 0) (w.machine.clock 0)) w.machine.db
          w₂.machine.db ↔
            takes engine (w.consensus 0) ∧ w.manager.registered queue = true ∧
              w.manager.hasRoom (UInt64.ofNat (bc.message.encode
                (message payload (w.uuids 0) (w.machine.clock 0))).length) = true) := by
  by_cases taken : takes engine (w.consensus 0)
  · have fresh' : w.stamped.poisoned = false := fresh
    rw [publishMessage, Daemon.run_stamp]
    obtain ⟨outcome, t, ran, ended, stored⟩ := run_publish_ends
      (m := message payload (w.uuids 0) (w.machine.clock 0)) rfl rfl bc ids queue w.stamped.machine
    generalize message payload (w.uuids 0) (w.machine.clock 0) = m at ran ended stored ⊢
    cases engine with
    | solo =>
        have same : NewMessage bc queue m w.machine.db (w.stamped.onMachine t).machine.db ↔
            takes .solo (w.consensus 0) ∧ _ := stored.trans (and_iff_right taken).symm
        simp only
        rw [Daemon.run_core_bind ids fresh', ran]
        rcases ended with rfl | ⟨e, rfl⟩
        · rw [Daemon.World.after_returned fresh' rfl]
          exact ⟨true, _, rfl, rfl, rfl, same⟩
        · rw [Daemon.World.after_returned fresh' rfl]
          exact ⟨false, _, rfl, rfl, rfl, same⟩
    | flock =>
        have applies : w.stamped.consensus 0 = .applies := taken.resolve_left nofun
        have same : NewMessage bc queue m w.machine.db (w.stamped.decided.onMachine t).machine.db ↔
            takes .flock (w.consensus 0) ∧ _ := stored.trans (and_iff_right taken).symm
        simp only
        rw [Program.run_bind]
        rcases ended with rfl | ⟨e, rfl⟩
        · rw [Daemon.run_clientWrite_attempt ids fresh' rfl applies rfl ran]
          exact ⟨true, _, rfl, rfl, rfl, same⟩
        · rw [Daemon.run_clientWrite_attempt ids fresh' rfl applies rfl ran]
          exact ⟨false, _, rfl, rfl, rfl, same⟩
  · exact ⟨false, _, run_publishMessage_declined bc ids queue payload taken, rfl, rfl,
      fun now => absurd now (not_newMessage _ rfl), fun now => absurd now.1 taken⟩

/-- The client is told that its message was taken only if it was stored. -/
def AckMeansStored (bc : Bincode) (ids : Nat → UInt64) (engine : AppEngine) (w : World)
    (c : Connection) (dup : Bool) (qos : QoS) (retain : Bool) (queue : String) (pkid : UInt16)
    (payload : Bytes) : Prop :=
  let declared := ((declareQueue bc engine queue).run (Daemon.handle ids) w).2
  let handled := ((handleClientPacket bc engine (.publish dup qos retain queue pkid payload) c).run
    (Daemon.handle ids) w).2
  .pubAck pkid ∈ handled.sent.drop w.sent.length →
    NewMessage bc queue (message payload (w.uuids 0) (w.machine.clock 0)) declared.machine.db
      handled.machine.db

/-- The packets sent after a publish was handed to the engine. -/
theorem acked_iff {w : World} (w₂ : World) (pkid : UInt16) (socket : w₂.socket = w.socket)
    (sent : w₂.sent = w.sent) :
    .pubAck pkid ∈ (w₂.wrote (.pubAck pkid)).sent.drop w.sent.length ↔ w.socket 0 = true := by
  have packets : (w₂.wrote (.pubAck pkid)).sent.drop w.sent.length =
      if w.socket 0 then [.pubAck pkid] else [] := by
    rw [Daemon.World.wrote, socket, sent]
    split_ifs
    · exact List.drop_left
    · exact List.drop_length
  rw [packets]
  cases w.socket 0 with
  | true => exact iff_of_true List.mem_cons_self rfl
  | false => exact iff_of_false List.not_mem_nil Bool.false_ne_true

section Handled

variable (c : Connection) (dup : Bool) {qos : QoS} (retain : Bool) (pkid : UInt16)
  (payload : Bytes)

/-- Once the engine has answered, the publish is acknowledged. -/
theorem handled_acks (asked : 1 ≤ qos.level) {known ok : Bool} {w₁ w₂ : World}
    (ranDeclare : (declareQueue bc engine queue).run (Daemon.handle ids) w = (.ok known, w₁))
    (ranPublish : (publishMessage bc engine queue payload).run (Daemon.handle ids) w₁ =
      (.ok ok, w₂)) :
    ((handleClientPacket bc engine (.publish dup qos retain queue pkid payload) c).run
      (Daemon.handle ids) w).2 = w₂.wrote (.pubAck pkid) := by
  rw [handleClientPacket_publish, Program.run_bind, ranDeclare, Outcome.andThen_ok,
    Program.run_bind, ranPublish, Outcome.andThen_ok, if_pos asked, Daemon.run_send]
  cases w₂.socket 0 with
  | true => rfl
  | false => rfl

/-- With the lock poisoned the handler panics at the first write that the engine takes. -/
theorem handled_poisoned (asked : 1 ≤ qos.level) (poisoned : w.poisoned = true) :
    AckMeansStored bc ids engine w c dup qos retain queue pkid payload ↔
      w.socket 0 = false ∨ takes engine (w.consensus 0) ∨ takes engine (w.consensus 1) := by
  rw [AckMeansStored]
  by_cases declares : takes engine (w.consensus 0)
  · obtain ⟨w₁, ran, sent⟩ := run_declareQueue_poisoned bc ids queue poisoned declares
    rw [handleClientPacket_publish, Program.run_bind, ran, Outcome.andThen_panicked, sent,
      List.drop_length]
    exact iff_of_true (fun acked => absurd acked List.not_mem_nil) (.inr (.inl declares))
  have ranDeclare := run_declareQueue_declined bc ids queue declares
  by_cases takesIt : takes engine (w.consensus 1)
  · have poisoned' : w.decided.poisoned = true := poisoned
    obtain ⟨w₂, ran, sent⟩ := run_publishMessage_poisoned bc ids queue payload poisoned'
      (show takes engine (w.decided.consensus 0) from takesIt)
    rw [handleClientPacket_publish, Program.run_bind, ranDeclare, Outcome.andThen_ok,
      Program.run_bind, ran, Outcome.andThen_panicked, sent]
    refine iff_of_true (fun acked => absurd acked ?_) (.inr (.inr takesIt))
    change _ ∉ w.sent.drop w.sent.length
    rw [List.drop_length]
    exact List.not_mem_nil
  · have ranPublish := run_publishMessage_declined bc ids queue payload
      (show ¬takes engine (w.decided.consensus 0) from takesIt)
    have unstored : ¬NewMessage bc queue (message payload (w.uuids 0) (w.machine.clock 0))
        w.machine.db w.machine.db := not_newMessage _ rfl
    have acked := acked_iff (w := w) w.decided.stamped.decided pkid rfl rfl
    rw [handled_acks c dup retain pkid payload asked ranDeclare ranPublish, ranDeclare, acked]
    constructor
    · exact fun stored => .inl (Bool.eq_false_iff.mpr fun written => unstored (stored written))
    · rintro (silent | taken) written
      · exact absurd written (Bool.eq_false_iff.mp silent)
      · exact absurd taken (not_or.mpr ⟨declares, takesIt⟩)

theorem handled_fresh (asked : 1 ≤ qos.level) (fresh : w.poisoned = false) :
    AckMeansStored bc ids engine w c dup qos retain queue pkid payload ↔
      w.socket 0 = false ∨
        Takes bc engine w queue (message payload (w.uuids 0) (w.machine.clock 0)) := by
  obtain ⟨known, w₁, ranDeclare, declared⟩ := run_declareQueue bc ids engine queue fresh
  obtain ⟨ok, w₂, ranPublish, socket, sent, stored⟩ :=
    run_publishMessage bc ids engine queue payload declared.fresh
  rw [declared.uuids, declared.clock, declared.takes, declared.registered, declared.room] at stored
  rw [AckMeansStored, handled_acks c dup retain pkid payload asked ranDeclare ranPublish, ranDeclare,
    Takes, ← stored, acked_iff w₂ pkid (socket.trans declared.socket) (sent.trans declared.sent)]
  cases w.socket 0 with
  | true => simp [Daemon.World.wrote]
  | false => simp

end Handled

theorem ack_means_stored_iff (bc : Bincode) (ids : Nat → UInt64) (engine : AppEngine) (w : World)
    (c : Connection) (dup : Bool) {qos : QoS} (asked : 1 ≤ qos.level) (retain : Bool)
    (queue : String) (pkid : UInt16) (payload : Bytes) :
    AckMeansStored bc ids engine w c dup qos retain queue pkid payload ↔
      w.socket 0 = false ∨
        Takes bc engine w queue (message payload (w.uuids 0) (w.machine.clock 0)) ∨
          w.poisoned = true ∧ (takes engine (w.consensus 0) ∨ takes engine (w.consensus 1)) := by
  cases lock : w.poisoned with
  | false =>
      rw [handled_fresh c dup retain pkid payload asked lock]
      simp
  | true =>
      rw [handled_poisoned c dup retain pkid payload asked lock]
      have covered : Takes bc engine w queue (message payload (w.uuids 0) (w.machine.clock 0)) →
          takes engine (w.consensus 0) ∨ takes engine (w.consensus 1) := fun taken => .inr taken.1
      rw [eq_self_iff_true, true_and, or_iff_right_of_imp covered]

theorem roomForOne_acked :
    AckMeansStored bincode (counter 0) .solo (serving roomForOne) .new false .atLeastOnce false
      "q" 7 [] :=
  (ack_means_stored_iff bincode (counter 0) .solo (serving roomForOne) .new false (by decide) false
    "q" 7 []).mpr (.inr (.inl ⟨.inl rfl, .inl (.inl rfl), by decide +kernel⟩))

/-- A manager at its limit. -/
def full : QueueManager :=
  final bincode (counter 0) roomForOne [⟨.publish "q" probe, fun _ => 0⟩]

/-- A node that is not the leader. -/
def follower : World := { serving roomForOne with consensus := fun _ => .forwards none }

/-- At the limit and away from the leader the client is told so all the same. -/
theorem refused_acked :
    ¬AckMeansStored bincode (counter 0) .solo (serving full) .new false .atLeastOnce false
        "q" 7 [] ∧
      ¬AckMeansStored bincode (counter 0) .flock follower .new false .exactlyOnce false "q" 7 [] :=
  ⟨fun stored => not_newMessage _ (by decide +kernel) (stored (by decide +kernel)),
    fun stored => not_newMessage _ (by decide +kernel) (stored (by decide +kernel))⟩

end Mqtt

/-! ## Three ways in -/

/-- How a message came in. -/
inductive Route where
  | http (payload : Bytes) (headers : List (String × String))
  | grpc (msg : Grpc.ProtoMessage)
  | mqtt (payload : Bytes)

/-- What a front end publishes, with the id it settles on and the time it reads. -/
def Route.message (id : Uuid) (now : Int64) : Route → Message
  | .http payload headers => Http.newMessage payload headers id now
  | .grpc msg => msg.withId id
  | .mqtt payload => Mqtt.message payload id now

section Routes

variable {bc : Bincode} {uuid : UuidText} {formats : Http.Formats} {ids : Nat → UInt64}
  {engine : AppEngine}

theorem http_publishes {name text : String} {payload : Bytes} (headers : List (String × String))
    (decoded : formats.ofBase64 text = .ok payload) (w : Daemon.World) :
    let m := (Route.http payload headers).message (w.uuids 0) (w.machine.clock 0)
    (Http.publish bc uuid formats engine name text headers).run (Daemon.handle ids) w =
      (Http.answer bc formats engine (publish bc name m) (.publish name m) (·.asPublish) fun
        | .stored _ => ⟨201, .id (uuid.toText m.id), none⟩
        | .deduplicated => ⟨200, .status "deduplicated", none⟩).run (Daemon.handle ids)
          w.stamped := by
  rw [Http.publish, decoded]
  rfl

theorem grpc_publishes (queue : String) (msg : Grpc.ProtoMessage) (now : Int64) (w : Daemon.World) :
    ∃ id w', w'.machine = w.machine ∧
      let m := (Route.grpc msg).message id now
      (Grpc.publish bc uuid engine queue (some msg)).run (Daemon.handle ids) w =
        (Grpc.answer bc engine (publish bc queue m) (.publish queue m) (·.asPublish)
          "unexpected response type" >>= fun outcome =>
            pure (Grpc.publishResponse uuid outcome)).run (Daemon.handle ids) w' := by
  obtain ⟨id, w', ran, apart, -⟩ := run_protoMessageToCore uuid ids msg w
  refine ⟨id, w', apart.machine, ?_⟩
  rw [Grpc.publish, Program.run_bind, ran]
  rfl

end Routes

/-! ## The age of a message -/

section Age

/-- The test of retention, over the integers. -/
theorem tooOld_iff {secs : UInt64} (fits : 1000 * secs.toNat < 2 ^ 63) {now : Int64}
    (read : 0 ≤ now) (stamp : Int64) :
    secs.toInt64 * 1000 ≤ now - stamp ↔ 1000 * (secs.toNat : Int) ≤ now.toInt - stamp.toInt ∧
      now.toInt - stamp.toInt < 2 ^ 63 := by
  have zero : (0 : Int64).toInt = 0 := by decide
  have := now.toInt_lt
  have := stamp.toInt_lt
  have := stamp.le_toInt
  rw [Int64.le_iff_toInt_le, zero] at read
  rw [Int64.le_iff_toInt_le, milliseconds_exact fits, Int64.toInt_sub, Int.bmod_def]
  split_ifs <;> omega

/-- A message with this time stamp is not too old before its time. -/
def InTime (secs : UInt64) (t stamp : Int64) : Prop :=
  secs = 0 ∨ t ≤ stamp ∨ 2 ^ 63 ≤ t.toInt - stamp.toInt ∨
    2 ^ 63 ≤ stamp.toInt + 1000 * (secs.toNat : Int)

theorem inTime_iff {secs : UInt64} (fits : 1000 * secs.toNat < 2 ^ 63) {t : Int64} (read : 0 ≤ t)
    (stamp : Int64) :
    (∀ now : Int64, t ≤ now → now.toInt < t.toInt + 1000 * (secs.toNat : Int) →
      ¬secs.toInt64 * 1000 ≤ now - stamp) ↔ InTime secs t stamp := by
  have zero : (0 : Int64).toInt = 0 := by decide
  have := t.toInt_lt
  have := stamp.le_toInt
  have positive : secs = 0 ↔ secs.toNat = 0 := by
    rw [← UInt64.toNat_inj]
    rfl
  have nonneg : 0 ≤ t.toInt := by rwa [Int64.le_iff_toInt_le, zero] at read
  rw [InTime, positive, Int64.le_iff_toInt_le]
  constructor
  · intro kept
    by_contra early
    -- the first moment at which the test holds
    have first := Int64.toInt_ofInt_of_le (n := max t.toInt (stamp.toInt + 1000 * secs.toNat))
      (by omega) (by omega)
    have later : t ≤ Int64.ofInt (max t.toInt (stamp.toInt + 1000 * secs.toNat)) := by
      rw [Int64.le_iff_toInt_le, first]
      omega
    refine kept _ later (by omega) ((tooOld_iff fits (Int64.le_trans read later) stamp).mpr ?_)
    rw [first]
    omega
  · intro fresh now later before
    rw [tooOld_iff fits (Int64.le_trans read later)]
    rw [Int64.le_iff_toInt_le] at later
    have := now.toInt_lt
    omega

variable {bc : Bincode}

theorem collectExpired_unreadable (now maxAgeMs : Int64) {entries : List (Bytes × Bytes)}
    {bad : Bytes × Bytes} (member : bad ∈ entries) {e : String}
    (unreadable : bc.message.decode bad.2 = .error e) :
    ∃ error, collectExpired bc now maxAgeMs entries = .fail error := by
  induction entries with
  | nil => cases member
  | cons entry rest ih =>
      rw [collectExpired, deserialize]
      cases read : bc.message.decode entry.2 with
      | error => exact ⟨_, rfl⟩
      | ok m =>
          rcases List.mem_cons.mp member with rfl | inRest
          · rw [unreadable] at read
            cases read
          · obtain ⟨error, failed⟩ := ih inRest
            rw [failed]
            exact ⟨error, rfl⟩

/-- The first pass of retention leaves what is not too old, whatever else is in the tree. -/
theorem removeExpired_keeps (ids : Nat → UInt64) {clock : Nat → Int64} {qm : QueueManager}
    {q : String} {key : Bytes} {m : Message} {secs : UInt64}
    (found : (qm.db.trees q).get key = some (bc.message.encode m))
    (young : ¬secs.toInt64 * 1000 ≤ clock 0 - m.timestamp) :
    ((exec ids clock (removeExpired bc q (some secs)) qm).2.db.trees q).get key ≠ none := by
  by_cases readable : ∀ value ∈ (qm.db.trees q).values, ∃ m, bc.message.decode value = .ok m
  · exact fun gone => young
      ((removeExpired_gone_iff readable found (bc.message.decode_encode m) secs ids clock).mp gone)
  · push Not at readable
    obtain ⟨value, listed, unread⟩ := readable
    obtain ⟨entry, member, rfl⟩ := List.mem_map.mp listed
    cases decoded : bc.message.decode entry.2 with
    | ok m' => exact absurd decoded (unread m')
    | error e =>
        obtain ⟨error, failed⟩ := collectExpired_unreadable (clock 0) (secs.toInt64 * 1000) member
          decoded
        have ran : (removeExpired bc q (some secs)).run (handle ids) ⟨qm, clock⟩ =
            (.err error, (Machine.mk qm clock).tick) := by
          rw [removeExpired, run_nowMs, run_iter]
          change Program.run _ (collectExpired bc (clock 0) _ (qm.db.trees q).entries >>= _) _ = _
          rw [failed]
          rfl
        change (((removeExpired bc q (some secs)).run (handle ids) ⟨qm, clock⟩).2.db.trees q).get
          key ≠ none
        rw [ran]
        change (qm.db.trees q).get key ≠ none
        rw [found]
        exact Option.some_ne_none _

/-- Whatever queue it is in, retention does not remove the message for its age before the
    queue's limit has passed since `t`. -/
def KeptInTime (bc : Bincode) (secs : UInt64) (t : Int64) (m : Message) : Prop :=
  ∀ (ids : Nat → UInt64) (clock : Nat → Int64) (qm : QueueManager) (q : String)
    (policy : RetentionPolicy) (key : Bytes), Known bc qm q policy →
    policy.maxAgeSecs = some secs → (qm.db.trees q).get key = some (bc.message.encode m) →
    t ≤ clock 0 → (clock 0).toInt < t.toInt + 1000 * (secs.toNat : Int) →
      ((exec ids clock (removeExpired bc q (some secs)) qm).2.db.trees q).get key ≠ none ∧
        (policy.maxMessages = none →
          ((exec ids clock (applyRetention bc q) qm).2.db.trees q).get key ≠ none)

/-- A queue that limits the age of its one message. -/
def agingShelf (bc : Bincode) (secs : UInt64) (m : Message) : QueueManager :=
  ⟨((Sled.Db.empty.commit [.insert metaQueuesTree "q".utf8 []]).commit
      [.insert metaRetentionTree "q".utf8 (bc.policy.encode { maxAgeSecs := some secs })]).commit
        [.insert "q" [] (bc.message.encode m)], 0, none⟩

theorem agingShelf_trees (bc : Bincode) (secs : UInt64) (m : Message) :
    (agingShelf bc secs m).db.trees = Sled.applyWrite (Sled.applyWrite (Sled.applyWrite
      Sled.Db.empty.trees (.insert metaQueuesTree "q".utf8 []))
        (.insert metaRetentionTree "q".utf8 (bc.policy.encode { maxAgeSecs := some secs })))
          (.insert "q" [] (bc.message.encode m)) := rfl

theorem agingShelf_known (bc : Bincode) (secs : UInt64) (m : Message) :
    Known bc (agingShelf bc secs m) "q" { maxAgeSecs := some secs } := by
  constructor
  · rw [agingShelf_trees, Sled.applyWrite_other _ (by decide : metaQueuesTree ≠ "q"),
      Sled.applyWrite_other _ (by decide : metaQueuesTree ≠ metaRetentionTree), get_written]
  · rw [agingShelf_trees, Sled.applyWrite_other _ (by decide : metaRetentionTree ≠ "q"),
      get_written]

theorem agingShelf_ready (bc : Bincode) (secs : UInt64) (m : Message) :
    (agingShelf bc secs m).db.trees "q" = OrdMap.empty.insert [] (bc.message.encode m) := by
  rw [agingShelf_trees]
  refine (Sled.applyWrite_same _ (.insert "q" [] (bc.message.encode m))).trans ?_
  change (Sled.applyWrite (Sled.applyWrite _ (.insert metaQueuesTree "q".utf8 []))
    (.insert metaRetentionTree "q".utf8 _) "q").insert [] _ = _
  rw [Sled.applyWrite_other _ (by decide : "q" ≠ metaRetentionTree),
    Sled.applyWrite_other _ (by decide : "q" ≠ metaQueuesTree)]
  rfl

theorem keptInTime_iff {secs : UInt64} (fits : 1000 * secs.toNat < 2 ^ 63) {t : Int64}
    (read : 0 ≤ t) (m : Message) : KeptInTime bc secs t m ↔ InTime secs t m.timestamp := by
  rw [← inTime_iff fits read]
  constructor
  · intro kept now later before old
    have ready := agingShelf_ready bc secs m
    have found : ((agingShelf bc secs m).db.trees "q").get [] = some (bc.message.encode m) := by
      rw [ready, OrdMap.get_insert, if_pos rfl]
    refine (kept (fun _ => 0) (fun _ => now) (agingShelf bc secs m) "q" _ []
      (agingShelf_known bc secs m) rfl found later before).1 ((removeExpired_gone_iff ?_ found
        (bc.message.decode_encode m) secs _ _).mpr old)
    intro value listed
    rw [ready] at listed
    exact ⟨m, List.mem_singleton.mp listed ▸ bc.message.decode_encode m⟩
  · intro young ids clock qm q policy key known age found later before
    have kept := removeExpired_keeps ids found (young (clock 0) later before)
    exact ⟨kept, fun unlimited => applyRetention_ready known age unlimited ids clock key ▸ kept⟩

/-- When a front end stamps a message late enough: HTTP always, gRPC when the client's stamp is
    late enough, MQTT hardly ever. -/
def Route.InTime (secs : UInt64) (t : Int64) : Route → Prop
  | .http .. => True
  | .grpc msg => PelicanQ.InTime secs t msg.timestamp
  | .mqtt _ => secs = 0 ∨ t = 0 ∨ 2 ^ 63 ≤ t.toInt / 1000 + 1000 * (secs.toNat : Int)

theorem inTime_seconds {secs : UInt64} {t : Int64} (read : 0 ≤ t) :
    InTime secs t (t / 1000) ↔
      secs = 0 ∨ t = 0 ∨ 2 ^ 63 ≤ t.toInt / 1000 + 1000 * (secs.toNat : Int) := by
  have zero : (0 : Int64).toInt = 0 := by decide
  have thousand : (1000 : Int64).toInt = 1000 := by decide
  have nonneg : 0 ≤ t.toInt := by rwa [Int64.le_iff_toInt_le, zero] at read
  have seconds : (t / 1000).toInt = t.toInt / 1000 := by
    rw [Int64.toInt_div_of_ne_right _ _ (by decide), thousand, Int.tdiv_eq_ediv_of_nonneg nonneg]
  have start : t = 0 ↔ t.toInt = 0 := by rw [← Int64.toInt_inj, zero]
  have := t.toInt_lt
  rw [InTime, start, Int64.le_iff_toInt_le, seconds]
  refine or_congr_right ?_
  omega

theorem kept_in_time_iff (bc : Bincode) {secs : UInt64} (fits : 1000 * secs.toNat < 2 ^ 63)
    {t : Int64} (read : 0 ≤ t) (id : Uuid) (route : Route) :
    KeptInTime bc secs t (route.message id t) ↔ route.InTime secs t := by
  rw [keptInTime_iff fits read]
  cases route with
  | http payload headers => exact iff_true_intro (.inr (.inl (Int64.le_refl t)))
  | grpc msg => exact .rfl
  | mqtt payload => exact inTime_seconds read

/-- Published over HTTP, or with the right stamp over gRPC. -/
theorem stamped_kept :
    KeptInTime bincode 3600 1700000000000 ((Route.http [] []).message 0 1700000000000) ∧
      KeptInTime bincode 3600 1700000000000
        ((Route.grpc { plainProto with timestamp := 1700000000000 }).message 0 1700000000000) :=
  ⟨(kept_in_time_iff bincode (by decide) (by decide) 0 (.http [] [])).mpr trivial,
    (kept_in_time_iff bincode (by decide) (by decide) 0
      (.grpc { plainProto with timestamp := 1700000000000 })).mpr (.inr (.inl (by decide)))⟩

theorem not_keptInTime {secs : UInt64} {t : Int64} {m : Message} (positive : 0 < secs.toNat)
    (gone : ((exec (counter 0) (fun _ => t) (removeExpired bc "q" (some secs))
      (agingShelf bc secs m)).2.db.trees "q").get [] = none) : ¬KeptInTime bc secs t m := by
  intro kept
  refine (kept (counter 0) (fun _ => t) (agingShelf bc secs m) "q" _ [] (agingShelf_known bc secs m)
    rfl ?_ (Int64.le_refl t) (by omega)).1 gone
  rw [agingShelf_ready, OrdMap.get_insert, if_pos rfl]

/-- Published over MQTT, or without a stamp over gRPC, a message is an hour old at once. -/
theorem unstamped_lost :
    ¬KeptInTime bincode 3600 1700000000000 ((Route.mqtt []).message 0 1700000000000) ∧
      ¬KeptInTime bincode 3600 1700000000000 ((Route.grpc plainProto).message 0 1700000000000) :=
  ⟨not_keptInTime (by decide) (by decide +kernel), not_keptInTime (by decide) (by decide +kernel)⟩

end Age

/-! ## The priority of a message -/

section Priority

/-- What is left of a priority in eight bits is clamped to the same class. -/
def KeepsClass (priority : UInt32) : Prop :=
  priority.toNat < 256 ∨ 9 ≤ priority.toNat % 256

theorem clampPriority_narrowed (priority : UInt32) :
    (clampPriority priority.toUInt8).toNat = min (priority.toNat % 256) 9 := by
  rw [clampPriority_toNat, UInt32.toNat_toUInt8]

theorem keepsClass_iff (priority : UInt32) :
    (clampPriority priority.toUInt8).toNat = min priority.toNat 9 ↔ KeepsClass priority := by
  rw [clampPriority_narrowed, KeepsClass]
  omega

/-- The class of a message is the distance of the first byte of its key from nine. -/
theorem encodeKey_class_iff (msg : Grpc.ProtoMessage) (id : Uuid) (n : UInt64) :
    (encodeKey (msg.withId id).priority n).head? =
      some (UInt8.ofNat (9 - min msg.priority.toNat 9)) ↔ KeepsClass msg.priority := by
  have small : 9 - min msg.priority.toNat 9 < 2 ^ 8 := by omega
  rw [← keepsClass_iff, encodeKey, List.head?_cons, Option.some.injEq, ← UInt8.toNat_inj,
    rank_toNat, UInt8.toNat_ofNat_of_lt' small, ← clampPriority_toNat]
  have narrowed := clampPriority_narrowed msg.priority
  change 9 - (clampPriority msg.priority.toUInt8).toNat = _ ↔ _
  omega

/-- A message that came in over gRPC, after any number of deliveries. -/
def CameAs (msg : Grpc.ProtoMessage) (m : Message) : Prop :=
  ∃ id attempts, m = { msg.withId id with deliveryAttempts := attempts }

theorem CameAs.priority {msg : Grpc.ProtoMessage} {m : Message} (came : CameAs msg m) :
    m.priority = msg.priority.toUInt8 := by
  obtain ⟨id, attempts, rfl⟩ := came
  rfl

/-- While the more urgent of two messages is ready, the other one stays. -/
def Event.Urgent (bc : Bincode) (q : String) (e : Event) : Prop :=
  ∀ (first second : Grpc.ProtoMessage) (m₁ m₂ : Message) (key₁ key₂ : Bytes),
    CameAs first m₁ → CameAs second m₂ →
    KeepsClass first.priority → KeepsClass second.priority →
    min second.priority.toNat 9 < min first.priority.toNat 9 →
    (e.before.db.trees q).get key₁ = some (bc.message.encode m₁) →
    (e.before.db.trees q).get key₂ = some (bc.message.encode m₂) →
    ∀ tag m, e.response = .consumed (.ok (some (tag, m))) →
      (e.after.db.trees q).get key₂ = some (bc.message.encode m₂)

theorem Event.InOrder.urgent {bc : Bincode} {q : String} {e : Event} (inOrder : e.InOrder bc q)
    (consume : e.step.op = .consume q) : e.Urgent bc q := by
  intro first second m₁ m₂ key₁ key₂ came₁ came₂ keeps₁ keeps₂ urgent ready₁ ready₂ tag m answered
  obtain ⟨key, ⟨front, highest⟩, -, taken⟩ := (inOrder consume).1 tag m answered
  obtain ⟨m', decoded, le, -⟩ := highest _ (OrdMap.get_eq_some.mp ready₁)
  rw [bc.message.decode_encode, Except.ok.injEq] at decoded
  subst decoded
  have other : key₂ ≠ key := by
    rintro rfl
    have same : m₂ = m := by
      rw [OrdMap.get_eq_some.mpr front, Option.some.injEq] at ready₂
      exact (bc.message.encode_injective ready₂).symm
    rw [UInt8.le_iff_toNat_le, came₁.priority, ← same, came₂.priority,
      (keepsClass_iff _).mpr keeps₁, (keepsClass_iff _).mpr keeps₂] at le
    omega
  rw [taken, OrdMap.get_erase, if_neg other, ready₂]

/-- A requested priority decides the class exactly when it survives in eight bits; in every run
    from an empty directory, messages that asked for such priorities are delivered by them. -/
theorem priority_class_iff (bc : Bincode) (ids : Nat → UInt64) :
    (∀ (msg : Grpc.ProtoMessage) (id : Uuid) (n : UInt64),
      (encodeKey (msg.withId id).priority n).head? =
        some (UInt8.ofNat (9 - min msg.priority.toNat 9)) ↔ KeepsClass msg.priority) ∧
    ∀ (maxBytes : Option UInt64) (steps : List Step), NonColliding (declaredNames steps) →
      Increasing ids (final bc ids (started bc ids maxBytes) steps) →
      ∀ e ∈ events bc ids (started bc ids maxBytes) steps, ∀ q, e.step.op = .consume q →
        e.Urgent bc q := by
  refine ⟨encodeKey_class_iff, fun maxBytes steps apart increasing => ?_⟩
  obtain ⟨b, -, -, urgent⟩ := run_invariant bc ids maxBytes
    (fun past _ => ∀ e ∈ past, ∀ q, e.step.op = .consume q → e.Urgent bc q)
    (fun _ member => nomatch member)
    (fun past e b moves b' before sim e' member => by
      rcases List.mem_append.mp member with old | new
      · exact before e' old
      · rw [List.mem_singleton.mp new]
        exact fun q consume => (sim.inOrder q).urgent consume)
    steps apart increasing
  exact urgent

/-- Two messages of different priorities, and the delivery of one of them. -/
def priorityRun (first second : UInt32) : List Step :=
  [⟨.declareQueueWithRetention "q" default, fun _ => 0⟩,
    ⟨.publish "q" ({ plainProto with priority := second }.withId 2), fun _ => 0⟩,
    ⟨.publish "q" ({ plainProto with priority := first }.withId 1), fun _ => 0⟩,
    ⟨.consume "q", fun _ => 0⟩]

theorem priorityRun_urgent :
    (encodeKey ({ plainProto with priority := 7 }.withId 1).priority 0).head? = some 2 ∧
      ∀ e ∈ events bincode (counter 0) (started bincode (counter 0) none) (priorityRun 300 7), ∀ q,
        e.step.op = .consume q → e.Urgent bincode q := by
  have drawn : (final bincode (counter 0) (started bincode (counter 0) none)
      (priorityRun 300 7)).db.drawn = 2 := by decide +kernel
  obtain ⟨classes, urgent⟩ := priority_class_iff bincode (counter 0)
  exact ⟨(classes { plainProto with priority := 7 } 1 0).mpr (.inl (by decide)),
    urgent none (priorityRun 300 7) (by decide) (counter_increasing (by rw [drawn]; decide))⟩

/-- A priority of 256 is none: the message of priority 1 is delivered first. -/
theorem priorityRun_lost :
    (encodeKey ({ plainProto with priority := 256 }.withId 1).priority 0).head? ≠ some 0 ∧
      ((events bincode (counter 0) (started bincode (counter 0) none) (priorityRun 256 1)).map
        Event.response).getLast? =
          some (.consumed (.ok (some (0, { plainProto with priority := 1 }.withId 2)))) := by
  decide +kernel

end Priority

end PelicanQ
