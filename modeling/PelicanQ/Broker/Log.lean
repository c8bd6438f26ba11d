import PelicanQ.Broker.Script
import PelicanQ.Raft.StateMachine

/-! # Log entries on brokers

What applying a log entry does to a broker.  The two batch entries are loops
over single operations; a publish in a batch reads the clock where the one
before it stopped, so the readings each publish leaves are part of the account.
-/

namespace PelicanQ

/-- The readings left after a key is recorded. -/
def QueueState.recordClock (st : QueueState) (m : Message) (clock : Nat → Int64) : Nat → Int64 :=
  match st.policy.dedupWindowSecs, m.dedupKey with
  | some _, some _ => later clock
  | _, _ => clock

namespace Broker

variable (bc : Bincode) (ids : Nat → UInt64)

/-- The readings left after a publish. -/
def publishClock (clock : Nat → Int64) (b : Broker) (name : String) (m : Message) : Nat → Int64 :=
  match b.queue name with
  | none => clock
  | some st =>
      if (st.isDuplicate m clock).1 then (st.isDuplicate m clock).2 else
        match b.limitError (size bc m) with
        | some _ => (st.isDuplicate m clock).2
        | none => st.recordClock m (notYetDue m (st.isDuplicate m clock).2).2

/-- How an operation's outcome shows in the response. -/
def answer {α : Type} (wrap : Except PelicanError α → QueueOperationResponse)
    (r : Outcome PelicanError α × Broker) : Outcome PelicanError QueueOperationResponse × Broker :=
  Outcome.andThen (r.1.caught, r.2) fun result b => (.ok (wrap result), b)

def publishEach (name : String) : List Message → List PublishOutcome → (Nat → Int64) → Broker →
    Outcome PelicanError QueueOperationResponse × Broker
  | [], outcomes, _, b => (.ok (.publishBatch (.ok outcomes)), b)
  | m :: rest, outcomes, clock, b =>
      Outcome.andThen ((b.publish bc ids clock name m).1.caught, (b.publish bc ids clock name m).2)
        fun result b' =>
          match result with
          | .ok outcome =>
              publishEach name rest (outcomes ++ [outcome]) (b.publishClock bc clock name m) b'
          | .error e => (.ok (.publishBatch (.error e)), b')

def consumeEach (name : String) : Nat → List (DeliveryTag × Message) → Broker →
    Outcome PelicanError QueueOperationResponse × Broker
  | 0, results, b => (.ok (.consumeBatch (.ok results)), b)
  | left + 1, results, b =>
      Outcome.andThen ((b.consume ids name).1.caught, (b.consume ids name).2) fun result b' =>
        match result with
        | .ok (some delivery) => consumeEach name left (results ++ [delivery]) b'
        | .ok none => (.ok (.consumeBatch (.ok results)), b')
        | .error e => (.ok (.consumeBatch (.error e)), b')

def applyOperation (clock : Nat → Int64) (b : Broker) :
    QueueOperation → Outcome PelicanError QueueOperationResponse × Broker
  | .declareQueue name policy => answer .declareQueue (b.declare name policy)
  | .publish queue message => answer .publish (b.publish bc ids clock queue message)
  | .publishBatch queue messages => publishEach bc ids queue messages [] clock b
  | .consume queue => answer .consume (b.consume ids queue)
  | .consumeBatch queue max => consumeEach ids queue max.toNat [] b
  | .ack queue tag => answer .ack (b.ack bc ids queue tag)
  | .nack queue tag => answer .nack (b.nack ids queue tag)
  | .applyRetention queue => answer .applyRetention (b.applyRetention bc ids clock queue)
  | .promoteScheduled queue => answer .promoteScheduled (b.promoteScheduled ids clock queue)

end Broker

/-! ## Refinement -/

section Refinement

variable {bc : Bincode} {ids : Nat → UInt64} {s : Machine} {b : Broker}

variable (ids) in
theorem publish_clock (h : Refines bc s.manager b) (name : String) (m : Message) :
    ((QueueManager.publish bc name m).run (handle ids) s).2.clock =
      b.publishClock bc s.clock name m := by
  unfold QueueManager.publish Broker.publishClock
  cases declared : b.queue name with
  | none => rw [run_requireQueue_absent h declared]
  | some st =>
      have recorded (outcome : PublishOutcome) (t : Machine) :
          ((QueueManager.recordDedupKey name m st.policy >>= fun _ => pure outcome).run
            (handle ids) t).2.clock = st.recordClock m t.clock := by
        unfold QueueManager.recordDedupKey QueueState.recordClock
        cases st.policy.dedupWindowSecs <;> cases m.dedupKey <;> rfl
      rw [run_requireQueue h declared, run_policyOf h declared, run_isDuplicate h declared]
      cases duplicate : (st.isDuplicate m s.clock).1 with
      | true =>
          simp only [duplicate, if_true]
          rfl
      | false =>
          simp only [duplicate, Bool.false_eq_true, if_false]
          generalize (st.isDuplicate m s.clock).2 = clock
          have ticked : Refines bc (s.withClock clock).manager b := h
          rw [run_checkLimit ticked, ← Broker.size]
          cases b.limitError (Broker.size bc m) with
          | some e => rfl
          | none =>
              simp only [run_generateId, run_notYetDue, Machine.clock_draw, Machine.clock_withClock]
              cases (PelicanQ.notYetDue m clock).1 with
              | none => exact recorded _ _
              | some deliverAt => exact recorded _ _

/-- A method and what is done with its outcome. -/
theorem Follows.andThen {α β : Type} {p : Action α} {a : Outcome PelicanError α × Broker}
    (first : Follows bc (p.run (handle ids) s) a) {next : Except PelicanError α → Action β}
    {rest : Except PelicanError α → Broker → Outcome PelicanError β × Broker}
    (second : ∀ result, Refines bc (p.run (handle ids) s).2.manager a.2 →
      Follows bc ((next result).run (handle ids) (p.run (handle ids) s).2) (rest result a.2)) :
    Follows bc ((p.attempt >>= next).run (handle ids) s)
      (Outcome.andThen (a.1.caught, a.2) rest) := by
  obtain ⟨same, after⟩ := first
  rw [Program.run_bind, Program.run_attempt, same]
  cases a.1 with
  | ok value => exact second (.ok value) after
  | err e => exact second (.error e) after
  | panicked => exact ⟨rfl, after⟩
  | diverged => exact ⟨rfl, after⟩

theorem answer_refines {α : Type} {p : Action α} {a : Outcome PelicanError α × Broker}
    (first : Follows bc (p.run (handle ids) s) a)
    (wrap : Except PelicanError α → QueueOperationResponse) :
    Follows bc ((do let result ← p.attempt; pure (wrap result)).run (handle ids) s)
      (Broker.answer wrap a) :=
  first.andThen fun _ after => ⟨rfl, after⟩

theorem publishEach_refines (h : Refines bc s.manager b) (name : String) (messages : List Message)
    (outcomes : List PublishOutcome) :
    Follows bc ((publishEach bc name messages outcomes).run (handle ids) s)
      (Broker.publishEach bc ids name messages outcomes s.clock b) := by
  induction messages generalizing s b outcomes with
  | nil => exact ⟨rfl, h⟩
  | cons m rest ih =>
      refine (publish_refines ids h name m).andThen fun result after => ?_
      cases result with
      | ok outcome =>
          rw [← publish_clock ids h name m]
          exact ih after _
      | error e => exact ⟨rfl, after⟩

theorem consumeEach_refines (h : Refines bc s.manager b) (name : String) (left : Nat)
    (results : List (DeliveryTag × Message)) :
    Follows bc ((consumeEach bc name left results).run (handle ids) s)
      (Broker.consumeEach ids name left results b) := by
  induction left generalizing s b results with
  | zero => exact ⟨rfl, h⟩
  | succ left ih =>
      refine (consume_refines ids h name).andThen fun result after => ?_
      cases result with
      | ok found =>
          cases found with
          | some delivery => exact ih after _
          | none => exact ⟨rfl, after⟩
      | error e => exact ⟨rfl, after⟩

theorem applyOperation_refines (h : Refines bc s.manager b) (op : QueueOperation)
    (apart : NonColliding (op.declares ++ b.names)) :
    Follows bc ((applyOperation bc ample op).run (handle ids) s)
      (b.applyOperation bc ids s.clock op) := by
  cases op with
  | declareQueue name policy =>
      have declared := declare_refines ids h policy apart
      by_cases plain : policy = default
      · subst plain
        simp only [applyOperation, if_true]
        exact answer_refines declared _
      · simp only [applyOperation, plain, if_false]
        exact answer_refines declared _
  | publish queue message => exact answer_refines (publish_refines ids h queue message) _
  | publishBatch queue messages => exact publishEach_refines h queue messages []
  | consume queue => exact answer_refines (consume_refines ids h queue) _
  | consumeBatch queue max => exact consumeEach_refines h queue max.toNat []
  | ack queue tag => exact answer_refines (ack_refines ids h queue tag) _
  | nack queue tag => exact answer_refines (nack_refines ids h queue tag) _
  | applyRetention queue => exact answer_refines (applyRetention_refines ids h queue) _
  | promoteScheduled queue => exact answer_refines (promoteScheduled_refines ids h queue) _

end Refinement

/-! ## What a log entry is made of -/

section Entries

variable {bc : Bincode} {ids : Nat → UInt64} {clock : Nat → Int64} {b : Broker}

@[simp] theorem Broker.answer_broker {α : Type}
    (wrap : Except PelicanError α → QueueOperationResponse) (r : Outcome PelicanError α × Broker) :
    (Broker.answer wrap r).2 = r.2 := by
  obtain ⟨outcome, b⟩ := r
  cases outcome <;> rfl

theorem publishEach_keeps (Inv : Broker → Prop) {name : String}
    (each : ∀ clock b m, Inv b → Inv (b.publish bc ids clock name m).2) (messages : List Message)
    (outcomes : List PublishOutcome) (start : Inv b) :
    Inv (Broker.publishEach bc ids name messages outcomes clock b).2 := by
  induction messages generalizing outcomes clock b with
  | nil => exact start
  | cons m rest ih =>
      have next := each clock b m start
      refine Outcome.andThen_keeps Inv next fun result => ?_
      cases result with
      | ok outcome => exact ih _ next
      | error e => exact next

theorem consumeEach_keeps (Inv : Broker → Prop) {name : String}
    (each : ∀ b, Inv b → Inv (b.consume ids name).2) (left : Nat)
    (results : List (DeliveryTag × Message)) (start : Inv b) :
    Inv (Broker.consumeEach ids name left results b).2 := by
  induction left generalizing results b with
  | zero => exact start
  | succ left ih =>
      have next := each b start
      refine Outcome.andThen_keeps Inv next fun result => ?_
      cases result with
      | ok found =>
          cases found with
          | some delivery => exact ih _ next
          | none => exact next
      | error e => exact next

/-- What the single operations keep, a log entry keeps. -/
theorem applyOperation_keeps (entry : QueueOperation) (Inv : Broker → Prop)
    (each : ∀ clock b (op : Operation), op.on = some entry.on →
      (∀ a ∈ op.declares, a ∈ entry.declares) → Inv b → Inv (b.perform bc ids clock op).2)
    (start : Inv b) : Inv (b.applyOperation bc ids clock entry).2 := by
  have none (a : String) (member : a ∈ ([] : List String)) : a ∈ entry.declares := nomatch member
  cases entry with
  | declareQueue name policy =>
      rw [Broker.applyOperation, Broker.answer_broker]
      exact each clock b (.declareQueueWithRetention name policy) rfl (fun _ member => member) start
  | publish queue message =>
      rw [Broker.applyOperation, Broker.answer_broker]
      exact each clock b (.publish queue message) rfl none start
  | publishBatch queue messages =>
      exact publishEach_keeps Inv (fun clock b m => each clock b (.publish queue m) rfl none)
        messages [] start
  | consume queue =>
      rw [Broker.applyOperation, Broker.answer_broker]
      exact each clock b (.consume queue) rfl none start
  | consumeBatch queue max =>
      exact consumeEach_keeps Inv (fun b => each clock b (.consume queue) rfl none) max.toNat [] start
  | ack queue tag =>
      rw [Broker.applyOperation, Broker.answer_broker]
      exact each clock b (.ack queue tag) rfl none start
  | nack queue tag =>
      rw [Broker.applyOperation, Broker.answer_broker]
      exact each clock b (.nack queue tag) rfl none start
  | applyRetention queue =>
      rw [Broker.applyOperation, Broker.answer_broker]
      exact each clock b (.applyRetention queue) rfl none start
  | promoteScheduled queue =>
      rw [Broker.applyOperation, Broker.answer_broker]
      exact each clock b (.promoteScheduled queue) rfl none start

theorem applyOperation_names (entry : QueueOperation) :
    ∀ a ∈ (b.applyOperation bc ids clock entry).2.names, a ∈ entry.declares ++ b.names := by
  refine applyOperation_keeps entry (fun b' => ∀ a ∈ b'.names, a ∈ entry.declares ++ b.names) ?_
    fun a member => List.mem_append_right _ member
  intro clock b' op _ declares within a member
  rcases List.mem_append.mp (perform_names bc ids clock b' op a member) with new | old
  · exact List.mem_append_left _ (declares a new)
  · exact within a old

theorem applyOperation_path (utf8 : ∀ key ∈ b.queues.keys, ∃ name : String, key = name.utf8)
    (entry : QueueOperation) :
    ∃ moves, Path ids b moves (b.applyOperation bc ids clock entry).2 := by
  refine (applyOperation_keeps entry (fun b' => (∃ moves, Path ids b moves b') ∧
    ∀ key ∈ b'.queues.keys, ∃ name : String, key = name.utf8) ?_ ⟨⟨[], .done⟩, utf8⟩).1
  rintro clock b' op - - ⟨⟨moves, path⟩, utf8⟩
  obtain ⟨moves', step⟩ := perform_transition ids bc clock b' utf8 op
  exact ⟨⟨_, path.trans step.path⟩, step.path.utf8 utf8⟩

theorem applyOperation_maxBytes (entry : QueueOperation) :
    (b.applyOperation bc ids clock entry).2.maxBytes = b.maxBytes :=
  applyOperation_keeps entry (fun b' => b'.maxBytes = b.maxBytes)
    (fun clock _ _ on _ kept => (Broker.perform_maxBytes bc ids clock on).trans kept) rfl

theorem publishEach_ok {name : String} {m : Message} (rest : List Message)
    (outcomes : List PublishOutcome) {outcome : PublishOutcome}
    (published : (b.publish bc ids clock name m).1 = .ok outcome) :
    Broker.publishEach bc ids name (m :: rest) outcomes clock b =
      Broker.publishEach bc ids name rest (outcomes ++ [outcome]) (b.publishClock bc clock name m)
        (b.publish bc ids clock name m).2 := by
  simp only [Broker.publishEach, published, Outcome.caught, Outcome.andThen_ok]

theorem publish_drawn (name : String) (m : Message) :
    b.drawn ≤ (b.publish bc ids clock name m).2.drawn := by
  unfold Broker.publish
  cases declared : b.queue name with
  | none => exact Nat.le_refl _
  | some st =>
      simp only
      split_ifs
      · exact Nat.le_refl _
      · cases b.limitError (Broker.size bc m) with
        | some e => exact Nat.le_refl _
        | none =>
            rw [Broker.drawn_setBytes, Broker.moves_drawn declared]
            exact Nat.le_add_right _ _

/-- A batch goes on from its first publish. -/
theorem publishEach_first (name : String) (m : Message) (rest : List Message)
    (outcomes : List PublishOutcome) :
    (b.publish bc ids clock name m).2.drawn ≤
      (Broker.publishEach bc ids name (m :: rest) outcomes clock b).2.drawn := by
  refine Outcome.andThen_keeps (fun b' : Broker => (b.publish bc ids clock name m).2.drawn ≤ b'.drawn)
    (Nat.le_refl _) fun result => ?_
  cases result with
  | ok outcome =>
      exact publishEach_keeps (fun b' => (b.publish bc ids clock name m).2.drawn ≤ b'.drawn)
        (fun _ _ m le => le.trans (publish_drawn name m)) rest _ (Nat.le_refl _)
  | error e => exact Nat.le_refl _

end Entries

/-! ## Whole logs -/

section Logs

variable {bc : Bincode} {ids : Nat → UInt64} {qm : QueueManager} {b : Broker}

def Broker.applyLog (bc : Bincode) (ids : Nat → UInt64) (b : Broker) (log : List LogStep) : Broker :=
  log.foldl (fun b step => (b.applyOperation bc ids step.clock step.op).2) b

theorem applied_refines (ids : Nat → UInt64) (h : Refines bc qm b) (step : LogStep)
    (apart : NonColliding (step.op.declares ++ b.names)) :
    (applied bc ids qm step).1 = (b.applyOperation bc ids step.clock step.op).1 ∧
      Refines bc (applied bc ids qm step).2 (b.applyOperation bc ids step.clock step.op).2 := by
  have start : Refines bc (Machine.mk qm step.clock).manager b := h
  exact applyOperation_refines start step.op apart

theorem mem_namesIn_cons {log : List LogStep} {step : LogStep} {names : List String} {a : String} :
    a ∈ namesIn (step :: log) ++ names ↔
      a ∈ step.op.declares ∨ a ∈ namesIn log ∨ a ∈ names := by
  rw [namesIn, List.flatMap_cons, List.append_assoc, List.mem_append, List.mem_append]
  rfl

/-- The names a log entry may declare or finds declared. -/
theorem mem_namesIn_first {log : List LogStep} {step : LogStep} {names : List String} :
    ∀ a ∈ step.op.declares ++ names, a ∈ namesIn (step :: log) ++ names := by
  intro a member
  rcases List.mem_append.mp member with new | old
  · exact mem_namesIn_cons.mpr (.inl new)
  · exact mem_namesIn_cons.mpr (.inr (.inr old))

/-- The names known after a log entry. -/
theorem applied_names {log : List LogStep} {step : LogStep} :
    ∀ a ∈ namesIn log ++ (b.applyOperation bc ids step.clock step.op).2.names,
      a ∈ namesIn (step :: log) ++ b.names := by
  intro a member
  rcases List.mem_append.mp member with later | now
  · exact mem_namesIn_cons.mpr (.inr (.inl later))
  · exact mem_namesIn_first a (applyOperation_names step.op a now)

theorem applyLog_refines (ids : Nat → UInt64) (h : Refines bc qm b) (log : List LogStep)
    (apart : NonColliding (namesIn log ++ b.names)) :
    Refines bc (applyLog bc ids qm log) (b.applyLog bc ids log) ∧
      (∀ a ∈ (b.applyLog bc ids log).names, a ∈ namesIn log ++ b.names) ∧
        (b.applyLog bc ids log).maxBytes = b.maxBytes ∧
          ∃ moves, Path ids b moves (b.applyLog bc ids log) := by
  induction log generalizing qm b with
  | nil => exact ⟨h, fun a member => member, rfl, [], .done⟩
  | cons step log ih =>
      obtain ⟨-, next⟩ := applied_refines ids h step (apart.subset mem_namesIn_first)
      have taken : ∃ moves, Path ids b moves (b.applyOperation bc ids step.clock step.op).2 :=
        applyOperation_path h.held.utf8 step.op
      obtain ⟨moves, path⟩ := taken
      obtain ⟨last, names, maxBytes, moves', path'⟩ := ih next (apart.subset applied_names)
      refine ⟨last, ?_, maxBytes.trans (applyOperation_maxBytes step.op), _, path.trans path'⟩
      intro a member
      exact applied_names a (names a member)

/-- What a replica holds after a log. -/
theorem replica_refines {log : List LogStep} (apart : NonColliding (namesIn log))
    (increasing : Increasing ids (replica bc ids log)) :
    ∃ b : Broker, Refines bc (replica bc ids log) b ∧ b.Sound ids ∧ b.maxBytes = none ∧
      ∀ a ∈ b.names, a ∈ namesIn log := by
  have none : namesIn log ++ (emptyBroker none).names = namesIn log := List.append_nil _
  obtain ⟨refines, names, unlimited, moves, path⟩ :=
    applyLog_refines ids (started_refines bc ids .none) log (none.symm ▸ apart)
  rw [none] at names
  exact ⟨_, refines, (Broker.Sound.empty _ rfl).path path (refines.increasing increasing),
    unlimited, names⟩

end Logs

end PelicanQ
