import PelicanQ.Broker.Replay
import PelicanQ.Broker.Snapshot

/-! # Replicas with clocks of their own

Two replicas draw the same ids and apply one log, each by its own clock.  A clock
is looked at in four places: in the window of a dedup key, for a message that is
scheduled, for what a promotion reaches and for what retention finds too old.
Replicas that decide alike there hold the same and answer the same; the times in
their dedup records are all that can differ.
-/

namespace PelicanQ

open QueueManager

/-! ## What the clock decides -/

section Choices

variable (bc : Bincode) (ids : Nat → UInt64)

/-- What a publish decides by the clock: nothing more for a duplicate, else how long the message
    is held back. -/
def publishChoice (queue : String) (message : Message) : Action (Option (Option Int64)) := do
  requireQueue queue
  let policy ← policyOf bc queue
  if ← isDuplicate queue message policy then pure none else
    let due ← QueueManager.notYetDue message
    pure (some due)

/-- The decisions for the messages of a batch, each in the state the ones before it leave. -/
def publishChoices (queue : String) :
    List Message → Machine → List (Outcome PelicanError (Option (Option Int64)))
  | [], _ => []
  | m :: rest, s => ((publishChoice bc queue m).run (handle ids) s).1 ::
      publishChoices queue rest ((publish bc queue m).run (handle ids) s).2

/-- What a promotion finds to be due. -/
def promoteChoice (queue : String) : Action (List (Bytes × Bytes)) := do
  requireQueue queue
  let now ← nowMs
  collectDue now (← iter (scheduledTreeName queue))

/-- What retention finds too old. -/
def retainChoice (queue : String) : Action (List Bytes) := do
  requireQueue queue
  let policy ← policyOf bc queue
  match policy.maxAgeSecs with
  | none => pure []
  | some maxAgeSecs => do
      let now ← nowMs
      collectExpired bc now (maxAgeSecs.toInt64 * 1000) (← iter queue)

/-- Both machines decide alike where the entry looks at the clock. -/
structure SameChoices (s s' : Machine) (op : QueueOperation) : Prop where
  publishes : publishChoices bc ids op.on op.messages s = publishChoices bc ids op.on op.messages s'
  promotes : ∀ queue, op = .promoteScheduled queue →
    ((promoteChoice queue).run (handle ids) s).1 = ((promoteChoice queue).run (handle ids) s').1
  retains : ∀ queue, op = .applyRetention queue →
    ((retainChoice bc queue).run (handle ids) s).1 = ((retainChoice bc queue).run (handle ids) s').1

end Choices

/-! ## Queues that differ in dedup times -/

/-- Queues that differ in their dedup records at most. -/
def QueueState.Alike (st st' : QueueState) : Prop := ∃ dedup, st' = { st with dedup := dedup }

/-- Moves that differ in the time they record at most. -/
inductive Move.Undated : Move → Move → Prop where
  | same (mv : Move) : Undated mv mv
  | record (key : Bytes) (time time' : Int64) : Undated (.record key time) (.record key time')

def QueueState.publishChoice (st : QueueState) (m : Message) (clock : Nat → Int64) :
    Option (Option Int64) :=
  if (st.isDuplicate m clock).1 then none else
    some (PelicanQ.notYetDue m (st.isDuplicate m clock).2).1

/-- The operation decides alike on both queues. -/
def Decides (clock clock' : Nat → Int64) (st st' : QueueState) : Operation → Prop
  | .publish _ m => st.publishChoice m clock = st'.publishChoice m clock'
  | .promoteScheduled _ => st.due (clock 0) = st'.due (clock' 0)
  | .applyRetention _ => st.expired (clock 0) = st'.expired (clock' 0)
  | .declareQueueWithRetention .. | .consume _ | .ack .. | .nack .. | .reopen _ => True

namespace QueueState.Alike

variable {ids : Nat → UInt64} {st st' : QueueState} {clock clock' : Nat → Int64}

theorem apply (alike : Alike st st') (c : Change) : Alike (st.apply c) (st'.apply c) := by
  obtain ⟨dedup, rfl⟩ := alike
  cases c <;> exact ⟨_, rfl⟩

theorem changes (alike : Alike st st') (cs : List Change) :
    Alike (cs.foldl QueueState.apply st) (cs.foldl QueueState.apply st') := by
  induction cs generalizing st st' with
  | nil => exact alike
  | cons c cs ih => exact ih (alike.apply c)

theorem moves (alike : Alike st st') {mvs mvs' : List Move}
    (undated : List.Forall₂ Move.Undated mvs mvs') (n : Nat) :
    Alike (st.moves ids n mvs) (st'.moves ids n mvs') := by
  induction undated generalizing n st st' with
  | nil => exact alike
  | cons first _ ih =>
      cases first with
      | same mv =>
          refine ih ?_ _
          obtain ⟨dedup, rfl⟩ := alike
          exact Alike.changes ⟨dedup, rfl⟩ _
      | record key time time' =>
          obtain ⟨dedup, rfl⟩ := alike
          exact ih ⟨_, rfl⟩ n

/-- Queues that decide alike answer the same and make the same moves, but for the times. -/
theorem script (alike : Alike st st') {op : Operation} (decides : Decides clock clock' st st' op) :
    (st.script clock op).1 = (st'.script clock' op).1 ∧
      List.Forall₂ Move.Undated (st.script clock op).2 (st'.script clock' op).2 := by
  have refl (mvs : List Move) : List.Forall₂ Move.Undated mvs mvs :=
    List.forall₂_same.mpr fun mv _ => .same mv
  cases op with
  | publish queue m =>
      simp only [Decides, publishChoice] at decides
      simp only [QueueState.script]
      by_cases duplicate : (st.isDuplicate m clock).1
      · by_cases duplicate' : (st'.isDuplicate m clock').1
        · rw [if_pos duplicate, if_pos duplicate']
          exact ⟨rfl, .nil⟩
        · rw [if_pos duplicate, if_neg duplicate'] at decides
          cases decides
      · by_cases duplicate' : (st'.isDuplicate m clock').1
        · rw [if_neg duplicate, if_pos duplicate'] at decides
          cases decides
        · rw [if_neg duplicate, if_neg duplicate'] at decides
          rw [if_neg duplicate, if_neg duplicate', Option.some.inj decides]
          refine ⟨rfl, .cons (.same _) ?_⟩
          obtain ⟨dedup, rfl⟩ := alike
          simp only [recordDedup]
          cases st.policy.dedupWindowSecs with
          | none => exact .nil
          | some windowSecs =>
              cases m.dedupKey with
              | none => exact .nil
              | some key => exact .cons (.record ..) .nil
  | promoteScheduled queue =>
      simp only [Decides] at decides
      simp only [QueueState.script, decides]
      exact ⟨trivial, refl _⟩
  | applyRetention queue =>
      simp only [Decides] at decides
      have excess : (st.expire (clock 0)).excess = (st'.expire (clock' 0)).excess := by
        rw [expire, expire, decides]
        obtain ⟨dedup, rfl⟩ := alike
        rfl
      simp only [QueueState.script, decides, excess]
      exact ⟨trivial, refl _⟩
  | declareQueueWithRetention | consume | ack | nack | reopen =>
      obtain ⟨dedup, rfl⟩ := alike
      exact ⟨rfl, refl _⟩

end QueueState.Alike

/-! ## Brokers -/

theorem Move.Undated.draws_sum {mvs mvs' : List Move} (undated : List.Forall₂ Undated mvs mvs') :
    (mvs.map Move.draws).sum = (mvs'.map Move.draws).sum := by
  induction undated with
  | nil => rfl
  | cons first _ ih =>
      rw [List.map_cons, List.map_cons, List.sum_cons, List.sum_cons, ih]
      cases first <;> rfl

namespace Broker

/-- Brokers that differ in their dedup records at most. -/
structure Alike (b b' : Broker) : Prop where
  drawn : b.drawn = b'.drawn
  queues : ∀ name, Option.Rel QueueState.Alike (b.queue name) (b'.queue name)

namespace Alike

variable {bc : Bincode} {ids : Nat → UInt64} {clock clock' : Nat → Int64} {b b' : Broker}

theorem cases (alike : Alike b b') (name : String) :
    (b.queue name = none ∧ b'.queue name = none) ∨
      ∃ st st', b.queue name = some st ∧ b'.queue name = some st' ∧ st.Alike st' := by
  have both := alike.queues name
  generalize b.queue name = found at both
  generalize b'.queue name = found' at both
  cases both with
  | none => exact .inl ⟨rfl, rfl⟩
  | some same => exact .inr ⟨_, _, rfl, rfl, same⟩

variable (bc ids clock clock') in
/-- An operation that decides alike in both brokers. -/
theorem perform (alike : Alike b b') (unlimited : b.maxBytes = none)
    (unlimited' : b'.maxBytes = none) {op : Operation} {q : String} (on : op.on = some q)
    (decides : ∀ st st', b.queue q = some st → b'.queue q = some st' →
      Decides clock clock' st st' op) :
    (b.perform bc ids clock op).1 = (b'.perform bc ids clock' op).1 ∧
      Alike (b.perform bc ids clock op).2 (b'.perform bc ids clock' op).2 := by
  have others (name : String) (different : name ≠ q) : Option.Rel QueueState.Alike
      ((b.perform bc ids clock op).2.queue name) ((b'.perform bc ids clock' op).2.queue name) := by
    rw [perform_queue_other bc ids clock on different, perform_queue_other bc ids clock' on different]
    exact alike.queues name
  have step (drawn : (b.perform bc ids clock op).2.drawn = (b'.perform bc ids clock' op).2.drawn)
      (here : Option.Rel QueueState.Alike ((b.perform bc ids clock op).2.queue q)
        ((b'.perform bc ids clock' op).2.queue q)) :
      Alike (b.perform bc ids clock op).2 (b'.perform bc ids clock' op).2 := by
    refine ⟨drawn, fun name => ?_⟩
    by_cases same : name = q
    · exact same ▸ here
    · exact others name same
  rcases alike.cases q with ⟨undeclared, undeclared'⟩ | ⟨st, st', declared, declared', same⟩
  · rcases perform_undeclared bc ids clock on undeclared with
      ⟨policy, rfl, answer, queue, drawn⟩ | ⟨response, missing, answer, after⟩
    · rcases perform_undeclared bc ids clock' on undeclared' with
        ⟨_, equal, answer', queue', drawn'⟩ | ⟨_, impossible, -⟩
      · cases equal
        refine ⟨answer.trans answer'.symm, step (drawn.trans (alike.drawn.trans drawn'.symm)) ?_⟩
        rw [queue, queue']
        exact .some ⟨_, rfl⟩
      · cases impossible
    · rcases perform_undeclared bc ids clock' on undeclared' with
        ⟨policy, rfl, -⟩ | ⟨response', missing', answer', after'⟩
      · cases missing
      · rw [missing] at missing'
        cases missing'
        rw [answer, answer', after, after']
        exact ⟨rfl, alike⟩
  · have admits : b.Admits bc op := admits_unlimited unlimited op
    have admits' : b'.Admits bc op := admits_unlimited unlimited' op
    obtain ⟨answer, after⟩ := perform_script bc ids clock declared on admits
    obtain ⟨answer', after'⟩ := perform_script bc ids clock' declared' on admits'
    obtain ⟨equal, undated⟩ := same.script (decides st st' declared declared')
    refine ⟨by rw [answer, answer', equal], step ?_ ?_⟩
    · rw [after.drawn, after'.drawn, alike.drawn]
      have sums := Move.Undated.draws_sum undated
      cases op <;> simp only [Operation.draws, sums]
    · rw [after.queue, after'.queue, alike.drawn]
      exact .some (same.moves undated _)

end Alike

end Broker

/-! ## Decisions of the store and of the broker -/

/-- The decisions for the messages of a batch. -/
def Broker.publishChoices (bc : Bincode) (ids : Nat → UInt64) (name : String) :
    List Message → (Nat → Int64) → Broker → List (Outcome PelicanError (Option (Option Int64)))
  | [], _, _ => []
  | m :: rest, clock, b =>
      (match b.queue name with
        | none => .err (.queueNotFound name)
        | some st => .ok (st.publishChoice m clock)) ::
        publishChoices bc ids name rest (b.publishClock bc clock name m)
          (b.publish bc ids clock name m).2

section Stores

variable {bc : Bincode} {ids : Nat → UInt64} {s s' : Machine} {b b' : Broker}

theorem publishChoice_refines (h : Refines bc s.manager b) (name : String) (m : Message) :
    ((publishChoice bc name m).run (handle ids) s).1 =
      match b.queue name with
      | none => .err (.queueNotFound name)
      | some st => .ok (st.publishChoice m s.clock) := by
  unfold publishChoice
  cases declared : b.queue name with
  | none => rw [run_requireQueue_absent h declared]
  | some st =>
      rw [run_requireQueue h declared, run_policyOf h declared,
        run_isDuplicate h declared]
      simp only [QueueState.publishChoice]
      split_ifs
      · rfl
      · rw [run_notYetDue]
        rfl

theorem publishChoices_refines (h : Refines bc s.manager b) (name : String)
    (messages : List Message) :
    publishChoices bc ids name messages s = b.publishChoices bc ids name messages s.clock := by
  induction messages generalizing s b with
  | nil => rfl
  | cons m rest ih =>
      rw [publishChoices, Broker.publishChoices, publishChoice_refines h,
        ih (publish_refines ids h name m).2, publish_clock ids h]

theorem promoteChoice_refines (h : Refines bc s.manager b) {name : String} {st : QueueState}
    (declared : b.queue name = some st) :
    ((promoteChoice name).run (handle ids) s).1 =
      .ok ((st.due (s.clock 0)).map (encodedDue bc)) := by
  have scheduled : s.tick.db.trees (scheduledTreeName name) = st.tree bc .scheduled :=
    h.tree declared .scheduled
  have entries : (st.tree bc .scheduled).entries =
      st.scheduled.entries.map (encodedDue bc) := rfl
  rw [promoteChoice, run_requireQueue h declared, run_nowMs, run_iter, scheduled, entries,
    collectDue_encoded]
  rfl

theorem retainChoice_refines (h : Refines bc s.manager b) {name : String} {st : QueueState}
    (declared : b.queue name = some st) :
    ((retainChoice bc name).run (handle ids) s).1 =
      .ok ((st.expired (s.clock 0)).map fun e => ReadyKey.bytes e.1) := by
  rw [retainChoice, run_requireQueue h declared, run_policyOf h declared,
    QueueState.expired]
  cases st.policy.maxAgeSecs with
  | none => rfl
  | some maxAgeSecs =>
      have ready : s.tick.db.trees name = st.tree bc .ready := h.tree declared .ready
      have entries : (st.tree bc .ready).entries = st.ready.entries.map (encodedReady bc) := rfl
      simp only [run_nowMs, run_iter, ready, entries, collectExpired_encoded]
      rfl

/-- Entries of a map that are listed under the same keys. -/
theorem OrdMap.eq_of_keys {K V : Type} [LinearOrder K] {m : OrdMap K V} {l l' : List (K × V)}
    (inside : ∀ e ∈ l, e ∈ m.entries) (inside' : ∀ e ∈ l', e ∈ m.entries)
    (keys : l.map Prod.fst = l'.map Prod.fst) : l = l' := by
  have recover {l : List (K × V)} (inside : ∀ e ∈ l, e ∈ m.entries) :
      l.map some = (l.map Prod.fst).map fun k => (m.get k).map (Prod.mk k) := by
    rw [List.map_map]
    refine List.map_congr_left fun e member => ?_
    rw [Function.comp_apply, OrdMap.get_eq_some.mpr (inside e member), Option.map_some]
  refine List.map_injective_iff.mpr (Option.some_injective _) ?_
  rw [recover inside, recover inside', keys]

theorem QueueState.mem_expired {st : QueueState} {now : Int64} {e : ReadyKey × Message}
    (member : e ∈ st.expired now) : e ∈ st.ready.entries := by
  unfold QueueState.expired at member
  cases age : st.policy.maxAgeSecs with
  | none =>
      rw [age] at member
      exact absurd member List.not_mem_nil
  | some maxAgeSecs =>
      rw [age] at member
      exact (List.mem_filter.mp member).1

/-- What the store decides alike, the brokers do. -/
theorem SameChoices.decides (h : Refines bc s.manager b) (h' : Refines bc s'.manager b')
    (alike : b.Alike b') {entry : QueueOperation} (choices : SameChoices bc ids s s' entry)
    {op : Operation} (single : entry.single = some op) {st st' : QueueState}
    (declared : b.queue entry.on = some st) (declared' : b'.queue entry.on = some st') :
    Decides s.clock s'.clock st st' op := by
  cases entry with
  | publish queue m =>
      cases single
      have first := choices.publishes
      rw [publishChoices_refines h, publishChoices_refines h'] at first
      simp only [QueueOperation.messages, Broker.publishChoices, declared, declared'] at first
      exact Outcome.ok.inj (List.cons.inj first).1
  | promoteScheduled queue =>
      cases single
      have found := choices.promotes queue rfl
      simp only [QueueOperation.on] at declared declared'
      rw [promoteChoice_refines h declared, promoteChoice_refines h' declared'] at found
      have injective : Function.Injective (encodedDue bc) := by
        intro e e' same
        obtain ⟨keys, values⟩ := Prod.mk.inj same
        exact Prod.ext (DueKey.bytes_strictMono.injective keys) (bc.message.encode_injective values)
      exact List.map_injective_iff.mpr injective (Outcome.ok.inj found)
  | applyRetention queue =>
      cases single
      have found := choices.retains queue rfl
      simp only [QueueOperation.on] at declared declared'
      rw [retainChoice_refines h declared, retainChoice_refines h' declared'] at found
      have keys : (st.expired (s.clock 0)).map Prod.fst = (st'.expired (s'.clock 0)).map Prod.fst := by
        have bytes := Outcome.ok.inj found
        refine List.map_injective_iff.mpr ReadyKey.bytes_strictMono.injective ?_
        rw [List.map_map, List.map_map]
        exact bytes
      have ready : st'.ready = st.ready := by
        rcases alike.cases queue with ⟨undeclared, -⟩ | ⟨_, _, here, here', dedup, rfl⟩
        · rw [declared] at undeclared
          cases undeclared
        · cases declared.symm.trans here
          cases declared'.symm.trans here'
          rfl
      exact OrdMap.eq_of_keys (fun e member => QueueState.mem_expired member)
        (fun e member => ready ▸ QueueState.mem_expired member) keys
  | declareQueue | consume | ack | nack =>
      cases single
      trivial
  | publishBatch | consumeBatch => cases single

end Stores

/-! ## Log entries -/

section Entries

variable {bc : Bincode} {ids : Nat → UInt64} {clock clock' : Nat → Int64} {b b' : Broker}

theorem SameAnswer.self (queue : String)
    (r : Outcome PelicanError (Option (DeliveryTag × Message))) :
    SameAnswer Eq (.consume queue) (.consume queue) (.consumed r) (.consumed r) := by
  cases r with
  | ok found =>
      cases found with
      | none => exact .same _ _ rfl
      | some d => exact .consumed queue rfl d.2
  | err | panicked | diverged => exact .same _ _ rfl

theorem Broker.Alike.publishBatch (alike : b.Alike b') (unlimited : b.maxBytes = none)
    (unlimited' : b'.maxBytes = none) {queue : String} {messages : List Message}
    (choices : b.publishChoices bc ids queue messages clock =
      b'.publishChoices bc ids queue messages clock') :
    (b.applyOperation bc ids clock (.publishBatch queue messages)).1 =
        (b'.applyOperation bc ids clock' (.publishBatch queue messages)).1 ∧
      (b.applyOperation bc ids clock (.publishBatch queue messages)).2.Alike
        (b'.applyOperation bc ids clock' (.publishBatch queue messages)).2 := by
  let Q (rest : List Message) (clock clock' : Nat → Int64) (b b' : Broker) : Prop :=
    b.Alike b' ∧ b.maxBytes = none ∧ b'.maxBytes = none ∧
      b.publishChoices bc ids queue rest clock = b'.publishChoices bc ids queue rest clock'
  let U (_ : Nat) : Prop := True
  have step : ∀ m rest clock clock' b b', Q (m :: rest) clock clock' b b' →
      U (b.publish bc ids clock queue m).2.drawn → U (b'.publish bc ids clock' queue m).2.drawn →
      (b.publish bc ids clock queue m).1 = (b'.publish bc ids clock' queue m).1 ∧
        Q rest (b.publishClock bc clock queue m) (b'.publishClock bc clock' queue m)
          (b.publish bc ids clock queue m).2 (b'.publish bc ids clock' queue m).2 := by
    rintro m rest clock clock' b b' ⟨alike, unlimited, unlimited', choices⟩ - -
    have on : (Operation.publish queue m).on = some queue := rfl
    obtain ⟨first, later⟩ := List.cons.inj choices
    have decides : ∀ st st', b.queue queue = some st → b'.queue queue = some st' →
        Decides clock clock' st st' (.publish queue m) := by
      intro st st' declared declared'
      rw [declared, declared'] at first
      exact Outcome.ok.inj first
    obtain ⟨same, next⟩ := alike.perform bc ids clock clock' unlimited unlimited' on decides
    exact ⟨Response.published.inj same, next,
      (Broker.perform_maxBytes bc ids clock on).trans unlimited,
      (Broker.perform_maxBytes bc ids clock' on).trans unlimited', later⟩
  have start : Q messages clock clock' b b' := ⟨alike, unlimited, unlimited', choices⟩
  obtain ⟨agree, _, _, _, next, -⟩ := Agree.publishEach step (fun _ _ _ fits => fits)
    (fun _ _ _ fits => fits) messages [] start trivial trivial
  exact ⟨agree.eq, next⟩

variable (clock clock') in
theorem Broker.Alike.consumeBatch (alike : b.Alike b') (unlimited : b.maxBytes = none)
    (unlimited' : b'.maxBytes = none) (queue : String) (max : UInt64) :
    (b.applyOperation bc ids clock (.consumeBatch queue max)).1 =
        (b'.applyOperation bc ids clock' (.consumeBatch queue max)).1 ∧
      (b.applyOperation bc ids clock (.consumeBatch queue max)).2.Alike
        (b'.applyOperation bc ids clock' (.consumeBatch queue max)).2 := by
  let Q (_ : Nat) (b b' : Broker) : Prop := b.Alike b' ∧ b.maxBytes = none ∧ b'.maxBytes = none
  have step : ∀ left b b', Q (left + 1) b b' → SameAnswer Eq (.consume queue) (.consume queue)
        (.consumed (b.consume ids queue).1) (.consumed (b'.consume ids queue).1) ∧
      Q left (b.consume ids queue).2 (b'.consume ids queue).2 := by
    rintro left b b' ⟨alike, unlimited, unlimited'⟩
    have on : (Operation.consume queue).on = some queue := rfl
    obtain ⟨same, next⟩ := alike.perform bc ids clock clock' unlimited unlimited' on
      (fun _ _ _ _ => trivial)
    have answer : (b.consume ids queue).1 = (b'.consume ids queue).1 := Response.consumed.inj same
    exact ⟨answer ▸ .self queue _, next, (Broker.perform_maxBytes bc ids clock on).trans unlimited,
      (Broker.perform_maxBytes bc ids clock' on).trans unlimited'⟩
  obtain ⟨agree, _, next, -⟩ := Agree.consumeEach step max.toNat .nil ⟨alike, unlimited, unlimited'⟩
  exact ⟨agree.eq, next⟩

end Entries

/-! ## Logs -/

/-- A log entry, and the clock readings each of two replicas has for it. -/
structure SharedEntry where
  op : QueueOperation
  clock : Nat → Int64
  clock' : Nat → Int64

/-- The entry as the first replica applies it. -/
def SharedEntry.here (entry : SharedEntry) : LogStep := ⟨entry.op, entry.clock⟩

/-- The entry as the second replica applies it. -/
def SharedEntry.there (entry : SharedEntry) : LogStep := ⟨entry.op, entry.clock'⟩

section Logs

variable {bc : Bincode} {ids : Nat → UInt64} {qm qm' : QueueManager} {b b' : Broker}

theorem Broker.answer_congr {α : Type} {wrap : Except PelicanError α → QueueOperationResponse}
    {r r' : Outcome PelicanError α × Broker} (same : r.1 = r'.1) :
    (Broker.answer wrap r).1 = (Broker.answer wrap r').1 := by
  simp only [Broker.answer, same]
  cases r'.1 <;> rfl

/-- Operations with the same outcome, as log entries. -/
theorem applyOperation_answer {clock clock' : Nat → Int64} {entry : QueueOperation} {op : Operation}
    (single : entry.single = some op)
    (same : (b.perform bc ids clock op).1 = (b'.perform bc ids clock' op).1) :
    (b.applyOperation bc ids clock entry).1 = (b'.applyOperation bc ids clock' entry).1 := by
  cases entry <;> cases single
  case declareQueue => exact Broker.answer_congr (Response.declared.inj same)
  case publish => exact Broker.answer_congr (Response.published.inj same)
  case consume => exact Broker.answer_congr (Response.consumed.inj same)
  case ack => exact Broker.answer_congr (Response.acked.inj same)
  case nack => exact Broker.answer_congr (Response.nacked.inj same)
  case applyRetention => exact Broker.answer_congr (Response.retained.inj same)
  case promoteScheduled => exact Broker.answer_congr (Response.promoted.inj same)

theorem Broker.Alike.applyEntry (h : Refines bc qm b) (h' : Refines bc qm' b') (alike : b.Alike b')
    (unlimited : b.maxBytes = none) (unlimited' : b'.maxBytes = none) {entry : SharedEntry}
    (choices : SameChoices bc ids ⟨qm, entry.clock⟩ ⟨qm', entry.clock'⟩ entry.op) :
    (b.applyOperation bc ids entry.clock entry.op).1 =
        (b'.applyOperation bc ids entry.clock' entry.op).1 ∧
      (b.applyOperation bc ids entry.clock entry.op).2.Alike
        (b'.applyOperation bc ids entry.clock' entry.op).2 := by
  have start : Refines bc (Machine.mk qm entry.clock).manager b := h
  have start' : Refines bc (Machine.mk qm' entry.clock').manager b' := h'
  obtain ⟨op, clock, clock'⟩ := entry
  cases single : op.single with
  | some core =>
      rw [applyOperation_single bc ids clock b single, applyOperation_single bc ids clock' b' single]
      obtain ⟨same, next⟩ := alike.perform bc ids clock clock' unlimited unlimited'
        (QueueOperation.single_on single) fun st st' declared declared' =>
          choices.decides start start' alike single declared declared'
      exact ⟨applyOperation_answer single same, next⟩
  | none =>
      cases op with
      | publishBatch queue messages =>
          have same := choices.publishes
          rw [publishChoices_refines start, publishChoices_refines start'] at same
          exact alike.publishBatch unlimited unlimited' same
      | consumeBatch queue max => exact alike.consumeBatch clock clock' unlimited unlimited' queue max
      | declareQueue | publish | consume | ack | nack | applyRetention | promoteScheduled =>
          cases single

theorem Broker.Alike.names (h : Refines bc qm b) (h' : Refines bc qm' b') (alike : b.Alike b') :
    ∀ a ∈ b'.names, a ∈ b.names := by
  intro a member
  rw [Broker.mem_names h'.held.utf8] at member
  rw [Broker.mem_names h.held.utf8]
  obtain ⟨st', declared⟩ := member
  rcases alike.cases a with ⟨-, undeclared⟩ | ⟨st, _, here, -⟩
  · rw [undeclared] at declared
    cases declared
  · exact ⟨st, here⟩

theorem Broker.Alike.exportOf (h : Refines bc qm b) (h' : Refines bc qm' b') (alike : b.Alike b') :
    exportOf bc ids qm = exportOf bc ids qm' := by
  rw [exportOf_refines ids h, exportOf_refines ids h']
  refine congrArg Outcome.ok (exported_congr h.held.utf8 h'.held.utf8 fun name => ?_)
  rcases alike.cases name with ⟨undeclared, undeclared'⟩ | ⟨st, _, declared, declared', dedup, rfl⟩
  · rw [undeclared, undeclared']
  · rw [declared, declared']
    rfl

/-- Stores that are alike stay so, and answer the same, as long as they decide alike. -/
theorem alike_log (h : Refines bc qm b) (h' : Refines bc qm' b') (alike : b.Alike b')
    (unlimited : b.maxBytes = none) (unlimited' : b'.maxBytes = none) (log : List SharedEntry)
    (apart : NonColliding (namesIn (log.map SharedEntry.here) ++ b.names))
    (choices : ∀ done entry rest, log = done ++ entry :: rest →
      SameChoices bc ids ⟨applyLog bc ids qm (done.map SharedEntry.here), entry.clock⟩
        ⟨applyLog bc ids qm' (done.map SharedEntry.there), entry.clock'⟩ entry.op) :
    responses bc ids qm (log.map SharedEntry.here) =
        responses bc ids qm' (log.map SharedEntry.there) ∧
      exportOf bc ids (applyLog bc ids qm (log.map SharedEntry.here)) =
        exportOf bc ids (applyLog bc ids qm' (log.map SharedEntry.there)) := by
  induction log generalizing qm qm' b b' with
  | nil => exact ⟨rfl, alike.exportOf h h'⟩
  | cons first log ih =>
      rw [List.map_cons] at apart
      have known : NonColliding (first.here.op.declares ++ b.names) :=
        apart.subset mem_namesIn_first
      have known' : NonColliding (first.there.op.declares ++ b'.names) := known.subset fun a member =>
        (List.mem_append.mp member).elim (List.mem_append_left _)
          fun old => List.mem_append_right _ (alike.names h h' a old)
      obtain ⟨response, next⟩ := applied_refines ids h first.here known
      obtain ⟨response', next'⟩ := applied_refines ids h' first.there known'
      obtain ⟨same, alike'⟩ := alike.applyEntry h h' unlimited unlimited' (choices [] first log rfl)
      obtain ⟨answers, exports⟩ := ih next next' alike' ((applyOperation_maxBytes _).trans unlimited)
        ((applyOperation_maxBytes _).trans unlimited') (apart.subset applied_names)
        fun done entry rest split => choices (first :: done) entry rest
          (congrArg (first :: ·) split)
      refine ⟨?_, exports⟩
      rw [List.map_cons, List.map_cons, responses, responses, response, response', answers]
      exact congrArg (· :: _) same

end Logs

/-- Replicas that go by clocks of their own hold the same and answer the same after every prefix
    of a log in which each entry is decided alike. -/
theorem clocks_agree (bc : Bincode) (ids : Nat → UInt64) (log : List SharedEntry)
    (apart : NonColliding (namesIn (log.map SharedEntry.here)))
    (choices : ∀ done entry rest, log = done ++ entry :: rest →
      SameChoices bc ids ⟨replica bc ids (done.map SharedEntry.here), entry.clock⟩
        ⟨replica bc ids (done.map SharedEntry.there), entry.clock'⟩ entry.op) :
    ∀ done rest, log = done ++ rest →
      responses bc ids (emptyStore bc ids) (done.map SharedEntry.here) =
          responses bc ids (emptyStore bc ids) (done.map SharedEntry.there) ∧
        exportOf bc ids (replica bc ids (done.map SharedEntry.here)) =
          exportOf bc ids (replica bc ids (done.map SharedEntry.there)) := by
  rintro done rest rfl
  have start := started_refines bc ids none
  have alike : (emptyBroker none).Alike (emptyBroker none) := ⟨rfl, fun _ => .none⟩
  have names : ∀ a ∈ namesIn (done.map SharedEntry.here) ++ (emptyBroker none).names,
      a ∈ namesIn ((done ++ rest).map SharedEntry.here) := by
    intro a member
    rw [show (emptyBroker none).names = [] from rfl, List.append_nil] at member
    rw [List.map_append, namesIn, List.flatMap_append]
    exact List.mem_append_left _ member
  refine alike_log start start alike rfl rfl done (apart.subset names) ?_
  rintro before entry after rfl
  exact choices before entry (after ++ rest) (by rw [List.append_assoc, List.cons_append])

/-- A scheduled message and one with a dedup key, at times that differ but decide alike. -/
def nearbyClocks : List SharedEntry :=
  [⟨.declareQueue "q" ⟨none, none, none, some 1⟩, fun _ => 5, fun _ => 8⟩,
    ⟨.publish "q" ⟨1, [], [], 0, 0, 3, none, some "k"⟩, fun _ => 5, fun _ => 8⟩,
    ⟨.publish "q" ⟨2, [], [], 0, 0, 3, some 20, none⟩, fun _ => 6, fun _ => 19⟩,
    ⟨.publish "q" ⟨3, [], [], 0, 0, 3, none, some "k"⟩, fun _ => 900, fun _ => 1000⟩,
    ⟨.promoteScheduled "q", fun _ => 901, fun _ => 1001⟩]

theorem nearbyClocks_agree :
    responses bincode (counter 0) (emptyStore bincode (counter 0))
        (nearbyClocks.map SharedEntry.here) =
      responses bincode (counter 0) (emptyStore bincode (counter 0))
        (nearbyClocks.map SharedEntry.there) ∧
    exportOf bincode (counter 0) (replica bincode (counter 0) (nearbyClocks.map SharedEntry.here)) =
      exportOf bincode (counter 0)
        (replica bincode (counter 0) (nearbyClocks.map SharedEntry.there)) := by
  refine clocks_agree bincode (counter 0) nearbyClocks (by decide) ?_ nearbyClocks []
    (List.append_nil _).symm
  intro done entry rest split
  unfold nearbyClocks at split
  rcases done with _ | ⟨_, _ | ⟨_, _ | ⟨_, _ | ⟨_, _ | ⟨_, done⟩⟩⟩⟩⟩
  case cons.cons.cons.cons.cons => simp at split
  all_goals
    cases split
    refine ⟨by decide +kernel, ?_, ?_⟩
  all_goals
    rintro queue ⟨⟩
  decide +kernel

/-- One replica reads the clock a millisecond before the window ends, the other when it has. -/
def windowEdge : List SharedEntry :=
  [⟨.declareQueue "q" ⟨none, none, none, some 1⟩, fun _ => 5, fun _ => 5⟩,
    ⟨.publish "q" ⟨1, [], [], 0, 0, 3, none, some "k"⟩, fun _ => 5, fun _ => 5⟩,
    ⟨.publish "q" ⟨2, [], [], 0, 0, 3, none, some "k"⟩, fun _ => 1004, fun _ => 1005⟩]

theorem windowEdge_divides :
    (responses bincode (counter 0) (emptyStore bincode (counter 0))
        (windowEdge.map SharedEntry.here))[2]? = some (.ok (.publish (.ok .deduplicated))) ∧
      (responses bincode (counter 0) (emptyStore bincode (counter 0))
        (windowEdge.map SharedEntry.there))[2]? = some (.ok (.publish (.ok (.stored 2)))) ∧
      ((replica bincode (counter 0) (windowEdge.map SharedEntry.here)).db.trees "q").entries.length =
        1 ∧
      ((replica bincode (counter 0)
        (windowEdge.map SharedEntry.there)).db.trees "q").entries.length = 2 := by
  decide +kernel

end PelicanQ
