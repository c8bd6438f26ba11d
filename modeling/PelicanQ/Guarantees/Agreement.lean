import PelicanQ.Broker.Replay
import PelicanQ.Guarantees.Restoration

/-! # Replicas with ids of their own

Two replicas apply one log at the same times, each with the ids its own database
hands out.  A delivery tag is such an id, and log entries name tags; so the
replicas part as soon as a delivery goes out under different tags.  As long as
the ids at the front of the queue are the same whenever something is delivered,
they hold the same and answer the same.
-/

namespace PelicanQ

/-- The tags under which the next messages of a queue go out. -/
def nextTags (qm : QueueManager) (queue : String) (count : Nat) : List UInt64 :=
  ((qm.db.trees queue).keys.take count).map fun key => UInt64.fromBeBytes (key.drop 1)

/-- How many messages an entry may deliver. -/
def QueueOperation.deliveries : QueueOperation → Nat
  | .consume _ => 1
  | .consumeBatch _ max => max.toNat
  | .declareQueue .. | .publish .. | .publishBatch .. | .ack .. | .nack .. | .applyRetention _ |
    .promoteScheduled _ => 0

/-! ## Operations -/

/-- The same messages in flight, under the same tags, and the same dedup records. -/
def SameBooks (_ : String) (st st' : QueueState) : Prop :=
  st.inflight = st'.inflight ∧ st.dedup = st'.dedup

def QueueState.nextTags (st : QueueState) (count : Nat) : List UInt64 :=
  (st.ready.entries.take count).map fun e => ReadyKey.id e.1

/-- Where both brokers have the queue, its next messages go out under the same tags. -/
def SameTags (b b' : Broker) (name : String) (count : Nat) : Prop :=
  ∀ st st', b.queue name = some st → b'.queue name = some st' → st.nextTags count = st'.nextTags count

theorem SameAnswer.delivered {R : UInt64 → UInt64 → Prop} {op op' : Operation} {r r' : Response}
    (same : SameAnswer R op op' r r') {tag : UInt64} (tagged : r.tag = some tag) :
    ∃ queue, op = .consume queue := by
  cases same with
  | same _ _ undelivered =>
      rw [undelivered] at tagged
      cases tagged
  | consumed queue => exact ⟨queue, rfl⟩
  | refusedAck | refusedNack => cases tagged

section Operations

variable {bc : Bincode} {ids ids' : Nat → UInt64} {clock : Nat → Int64} {b b' : Broker}

/-- A consume returns the tag at the front. -/
theorem Broker.consume_tag (b : Broker) (name : String) :
    (b.perform bc ids clock (.consume name)).1.tag =
      (b.queue name).bind fun st => (st.nextTags 1).head? := by
  rw [Broker.perform, Broker.consume]
  cases b.queue name with
  | none => rfl
  | some st =>
      simp only [Option.bind_some, QueueState.nextTags]
      cases st.ready.entries with
      | nil => rfl
      | cons e rest => rfl

theorem SameBooks.isDuplicate {name : String} {st st' : QueueState}
    (books : SameBooks name st st') (policy : st.policy = st'.policy) (m : Message)
    (clock : Nat → Int64) : st.isDuplicate m clock = st'.isDuplicate m clock := by
  rw [QueueState.isDuplicate, QueueState.isDuplicate, policy, books.2]

/-- Twins that deliver under the same tag have the same in flight afterwards. -/
theorem Twin.flight_eq {L : Links} {st st' : QueueState} (twin : Twin L st st')
    (inflight : st.inflight = st'.inflight) (op : Operation)
    (tags : ∀ queue, op = .consume queue → st.nextTags 1 = st'.nextTags 1) :
    st.flight op = st'.flight op := by
  cases op with
  | consume queue =>
      have front := tags queue rfl
      simp only [QueueState.nextTags] at front
      simp only [QueueState.flight]
      cases entries : st.ready.entries with
      | nil =>
          rw [twin.ready.nil_iff.mp entries]
          exact inflight
      | cons e rest =>
          obtain ⟨key', rest', entries', -⟩ := twin.ready.front entries
          rw [entries, entries'] at front
          have same : ReadyKey.id e.1 = ReadyKey.id key' := (List.cons.inj front).1
          simp only [entries', List.head?_cons, inflight, same]
  | ack | nack => simp only [QueueState.flight, inflight]
  | declareQueueWithRetention | publish | promoteScheduled | applyRetention => exact inflight
  | reopen => rfl

variable (bc clock) in
/-- An operation at the same time in both brokers. -/
theorem Beside.agree (beside : Beside ids ids' SameBooks b b') (unlimited : b.maxBytes = none)
    (unlimited' : b'.maxBytes = none) {op : Operation} {q : String} (on : op.on = some q)
    (tags : ∀ queue, op = .consume queue → SameTags b b' queue 1)
    (increasing : StrictMonoOn ids (Set.Iio (b.perform bc ids clock op).2.drawn))
    (increasing' : StrictMonoOn ids' (Set.Iio (b'.perform bc ids' clock op).2.drawn)) :
    SameAnswer Eq op op (b.perform bc ids clock op).1 (b'.perform bc ids' clock op).1 ∧
      Beside ids ids' SameBooks (b.perform bc ids clock op).2
        (b'.perform bc ids' clock op).2 := by
  have finds : ∀ st st' L, Counterparts ids ids' SameBooks b b' q st st' L →
      Finds L clock clock st st' op op ∧
        SameBooks q (st.moves ids b.drawn (st.script clock op).2)
          (st'.moves ids' b'.drawn (st'.script clock op).2) := by
    intro st st' L both
    have policy := both.twin.policy
    have inflight := both.related.1
    have duplicate := both.related.isDuplicate policy
    refine ⟨?_, ?_, ?_⟩
    · cases op with
      | declareQueueWithRetention name policy => exact .declare name policy
      | publish queue m => exact .publish queue (by rw [duplicate]) (by rw [duplicate])
      | consume queue => exact .consume queue
      | ack queue tag => exact .ack queue (by rw [inflight])
      | nack queue tag => exact .nack queue (by rw [inflight])
      | promoteScheduled queue => exact .promote queue (both.twin.due_count both.valid _)
      | applyRetention queue => exact .retain queue (both.twin.expired _)
      | reopen maxBytes => cases on
    · rw [QueueState.inflight_script, QueueState.inflight_script]
      refine both.twin.flight_eq inflight op ?_
      rintro queue rfl
      cases on
      exact tags _ rfl st st' both.declared both.declared'
    · rw [QueueState.dedup_script, QueueState.dedup_script]
      cases op with
      | publish queue m =>
          simp only [QueueState.records, duplicate, policy, both.related.2]
      | declareQueueWithRetention | consume | ack | nack | promoteScheduled | applyRetention |
        reopen => exact both.related.2
  obtain ⟨same, next⟩ := beside.perform clock clock on (Broker.admits_unlimited unlimited op)
    (Broker.admits_unlimited unlimited' op) (fun _ => ⟨rfl, rfl⟩) finds increasing increasing'
  refine ⟨same.imp fun tag tag' first second _ => ?_, next⟩
  obtain ⟨queue, rfl⟩ := same.delivered first
  rw [Broker.consume_tag] at first second
  rcases beside.cases queue with ⟨undeclared, -⟩ | ⟨st, st', L, both⟩
  · rw [undeclared] at first
    cases first
  · have front := tags queue rfl st st' both.declared both.declared'
    rw [both.declared, Option.bind_some, front] at first
    rw [both.declared', Option.bind_some, first] at second
    exact Option.some.inj second

theorem Beside.sameClock (beside : Beside ids ids' SameBooks b b') (unlimited : b.maxBytes = none)
    (unlimited' : b'.maxBytes = none) (name : String) (m : Message) :
    b.publishClock bc clock name m = b'.publishClock bc clock name m := by
  unfold Broker.publishClock
  rcases beside.cases name with ⟨undeclared, undeclared'⟩ | ⟨st, st', L, both⟩
  · rw [undeclared, undeclared']
  · have policy := both.twin.policy
    rw [both.declared, both.declared']
    simp only [both.related.isDuplicate policy, Broker.limitError, unlimited, unlimited',
      QueueState.recordClock, policy]

/-- A consume takes one tag off the front. -/
theorem Broker.nextTags_consume {name : String} {st₁ : QueueState}
    (here : (b.consume ids name).2.queue name = some st₁) (left : Nat) :
    ∃ st, b.queue name = some st ∧ st₁.nextTags left = (st.nextTags (left + 1)).tail := by
  cases declared : b.queue name with
  | none =>
      have kept : (b.consume ids name).2 = b := by rw [Broker.consume, declared]
      rw [kept, declared] at here
      cases here
  | some st =>
      have admits : b.Admits bincode (.consume name) := by
        rintro _ _ ⟨⟩
      obtain ⟨-, after⟩ := Broker.perform_script bincode ids (fun _ => 0) declared rfl admits
      cases after.queue.symm.trans here
      refine ⟨st, rfl, ?_⟩
      simp only [QueueState.script, QueueState.nextTags]
      cases entries : st.ready.entries with
      | nil => simp [QueueState.moves, entries]
      | cons e rest =>
          have taken : (st.ready.erase e.1).entries = rest := OrdMap.erase_first entries
          simp only [List.head?_cons, List.take_succ_cons, List.map_cons, List.tail_cons]
          rw [← taken]
          rfl

theorem SameTags.first {name : String} {left : Nat} (tags : SameTags b b' name (left + 1)) :
    SameTags b b' name 1 := by
  intro st st' declared declared'
  have all := congrArg (List.take 1) (tags st st' declared declared')
  simpa only [QueueState.nextTags, ← List.map_take, List.take_take, Nat.min_eq_left,
    Nat.le_add_left] using all

theorem SameTags.consume {name : String} {left : Nat} (tags : SameTags b b' name (left + 1)) :
    SameTags (b.consume ids name).2 (b'.consume ids' name).2 name left := by
  intro st₁ st₁' here here'
  obtain ⟨st, declared, rest⟩ := Broker.nextTags_consume here left
  obtain ⟨st', declared', rest'⟩ := Broker.nextTags_consume here' left
  rw [rest, rest', tags st st' declared declared']

end Operations

/-! ## Log entries -/

section Entries

variable {bc : Bincode} {ids ids' : Nat → UInt64} {clock : Nat → Int64} {b b' : Broker}

variable (clock) in
theorem Beside.agree_publishBatch (beside : Beside ids ids' SameBooks b b')
    (unlimited : b.maxBytes = none) (unlimited' : b'.maxBytes = none) (queue : String)
    (messages : List Message)
    (increasing : StrictMonoOn ids
      (Set.Iio (b.applyOperation bc ids clock (.publishBatch queue messages)).2.drawn))
    (increasing' : StrictMonoOn ids'
      (Set.Iio (b'.applyOperation bc ids' clock (.publishBatch queue messages)).2.drawn)) :
    Agree Eq (b.applyOperation bc ids clock (.publishBatch queue messages)).1
        (b'.applyOperation bc ids' clock (.publishBatch queue messages)).1 ∧
      Beside ids ids' SameBooks
        (b.applyOperation bc ids clock (.publishBatch queue messages)).2
        (b'.applyOperation bc ids' clock (.publishBatch queue messages)).2 := by
  let Q (_ : List Message) (clock clock' : Nat → Int64) (b b' : Broker) : Prop :=
    clock = clock' ∧ Beside ids ids' SameBooks b b' ∧ b.maxBytes = none ∧ b'.maxBytes = none
  have step : ∀ m rest clock clock' b b', Q (m :: rest) clock clock' b b' →
      StrictMonoOn ids (Set.Iio (b.publish bc ids clock queue m).2.drawn) →
      StrictMonoOn ids' (Set.Iio (b'.publish bc ids' clock' queue m).2.drawn) →
      (b.publish bc ids clock queue m).1 = (b'.publish bc ids' clock' queue m).1 ∧
        Q rest (b.publishClock bc clock queue m) (b'.publishClock bc clock' queue m)
          (b.publish bc ids clock queue m).2 (b'.publish bc ids' clock' queue m).2 := by
    rintro m rest clock _ b b' ⟨rfl, beside, unlimited, unlimited'⟩ upTo upTo'
    have on : (Operation.publish queue m).on = some queue := rfl
    obtain ⟨same, next⟩ := beside.agree bc clock unlimited unlimited' on (fun _ => nofun) upTo upTo'
    exact ⟨Response.published.inj (same.eq fun _ => nofun),
      beside.sameClock unlimited unlimited' queue m, next,
      (Broker.perform_maxBytes bc ids clock on).trans unlimited,
      (Broker.perform_maxBytes bc ids' clock on).trans unlimited'⟩
  obtain ⟨agree, _, _, _, -, next, -⟩ := Agree.publishEach step (increasing_fewer ids)
    (increasing_fewer ids') messages []
    ⟨rfl, beside, unlimited, unlimited'⟩ increasing increasing'
  exact ⟨agree, next⟩

variable (clock) in
theorem Beside.agree_consumeBatch (beside : Beside ids ids' SameBooks b b')
    (unlimited : b.maxBytes = none) (unlimited' : b'.maxBytes = none) {queue : String} {max : UInt64}
    (tags : SameTags b b' queue max.toNat)
    (increasing : StrictMonoOn ids
      (Set.Iio (b.applyOperation bc ids clock (.consumeBatch queue max)).2.drawn))
    (increasing' : StrictMonoOn ids'
      (Set.Iio (b'.applyOperation bc ids' clock (.consumeBatch queue max)).2.drawn)) :
    Agree Eq (b.applyOperation bc ids clock (.consumeBatch queue max)).1
        (b'.applyOperation bc ids' clock (.consumeBatch queue max)).1 ∧
      Beside ids ids' SameBooks (b.applyOperation bc ids clock (.consumeBatch queue max)).2
        (b'.applyOperation bc ids' clock (.consumeBatch queue max)).2 := by
  rw [consumeBatch_drawn] at increasing increasing'
  let Q (left : Nat) (b b' : Broker) : Prop := Beside ids ids' SameBooks b b' ∧
    b.maxBytes = none ∧ b'.maxBytes = none ∧ StrictMonoOn ids (Set.Iio b.drawn) ∧
      StrictMonoOn ids' (Set.Iio b'.drawn) ∧ SameTags b b' queue left
  have step : ∀ left b b', Q (left + 1) b b' → SameAnswer Eq (.consume queue) (.consume queue)
        (.consumed (b.consume ids queue).1) (.consumed (b'.consume ids' queue).1) ∧
      Q left (b.consume ids queue).2 (b'.consume ids' queue).2 := by
    rintro left b b' ⟨beside, unlimited, unlimited', upTo, upTo', tags⟩
    have on : (Operation.consume queue).on = some queue := rfl
    have first := tags.first
    rw [← consume_drawn b queue] at upTo
    rw [← consume_drawn b' queue] at upTo'
    obtain ⟨same, next⟩ := beside.agree bc clock unlimited unlimited' on
      (by rintro _ ⟨⟩; exact first) upTo upTo'
    exact ⟨same, next, (Broker.perform_maxBytes bc ids clock on).trans unlimited,
      (Broker.perform_maxBytes bc ids' clock on).trans unlimited', upTo, upTo', tags.consume⟩
  obtain ⟨agree, _, next, -⟩ := Agree.consumeEach step max.toNat .nil
    ⟨beside, unlimited, unlimited', increasing, increasing', tags⟩
  exact ⟨agree, next⟩

variable (clock) in
/-- An entry that both brokers apply at the same time. -/
theorem Beside.agree_entry (beside : Beside ids ids' SameBooks b b')
    (unlimited : b.maxBytes = none) (unlimited' : b'.maxBytes = none) {entry : QueueOperation}
    (tags : SameTags b b' entry.on entry.deliveries)
    (increasing : StrictMonoOn ids (Set.Iio (b.applyOperation bc ids clock entry).2.drawn))
    (increasing' : StrictMonoOn ids' (Set.Iio (b'.applyOperation bc ids' clock entry).2.drawn)) :
    (b.applyOperation bc ids clock entry).1 = (b'.applyOperation bc ids' clock entry).1 ∧
      Beside ids ids' SameBooks (b.applyOperation bc ids clock entry).2
        (b'.applyOperation bc ids' clock entry).2 := by
  cases single : entry.single with
  | some op =>
      rw [applyOperation_single bc ids clock b single] at increasing ⊢
      rw [applyOperation_single bc ids' clock b' single] at increasing' ⊢
      have first : ∀ queue, op = .consume queue → SameTags b b' queue 1 := by
        rintro queue rfl
        cases entry <;> cases single
        exact tags
      obtain ⟨same, next⟩ := beside.agree bc clock unlimited unlimited'
        (QueueOperation.single_on single) first increasing increasing'
      exact ⟨(Agree.single single same).eq, next⟩
  | none =>
      cases entry with
      | publishBatch queue messages =>
          obtain ⟨agree, next⟩ := beside.agree_publishBatch clock unlimited unlimited' queue
            messages increasing increasing'
          exact ⟨agree.eq, next⟩
      | consumeBatch queue max =>
          obtain ⟨agree, next⟩ := beside.agree_consumeBatch clock unlimited unlimited' tags
            increasing increasing'
          exact ⟨agree.eq, next⟩
      | declareQueue | publish | consume | ack | nack | applyRetention | promoteScheduled =>
          cases single

end Entries

/-! ## Logs -/

section Logs

variable {bc : Bincode} {ids ids' : Nat → UInt64} {qm qm' : QueueManager} {b b' : Broker}

theorem Refines.nextTags (h : Refines bc qm b) {name : String} {st : QueueState}
    (declared : b.queue name = some st) (count : Nat) :
    PelicanQ.nextTags qm name count = st.nextTags count := by
  have stored : qm.db.trees name = st.tree bc .ready := h.held.stores name st declared .ready
  have keys : (qm.db.trees name).keys = st.ready.entries.map fun e => ReadyKey.bytes e.1 := by
    rw [stored, QueueState.tree, OrdMap.keys, OrdMap.image_entries, List.map_map]
    rfl
  rw [PelicanQ.nextTags, keys, QueueState.nextTags, ← List.map_take, List.map_map]
  exact List.map_congr_left fun e _ => ReadyKey.id_slice e.1

/-- Stores side by side stay so, and answer the same, as long as deliveries go out under the
    same tags. -/
theorem Beside.agree_log (h : Refines bc qm b) (h' : Refines bc qm' b')
    (beside : Beside ids ids' SameBooks b b') (unlimited : b.maxBytes = none)
    (unlimited' : b'.maxBytes = none) (log : List LogStep)
    (apart : NonColliding (namesIn log ++ b.names))
    (increasing : Increasing ids (applyLog bc ids qm log))
    (increasing' : Increasing ids' (applyLog bc ids' qm' log))
    (tags : ∀ done step rest, log = done ++ step :: rest →
      nextTags (applyLog bc ids qm done) step.op.on step.op.deliveries =
        nextTags (applyLog bc ids' qm' done) step.op.on step.op.deliveries) :
    responses bc ids qm log = responses bc ids' qm' log ∧
      exportOf bc ids (applyLog bc ids qm log) = exportOf bc ids' (applyLog bc ids' qm' log) := by
  induction log generalizing qm qm' b b' with
  | nil =>
      have flights : Beside ids ids' SameFlights b b' := beside.imp fun _ _ _ books => books.1
      refine ⟨rfl, ?_⟩
      rw [show applyLog bc ids qm [] = qm from rfl, show applyLog bc ids' qm' [] = qm' from rfl,
        exportOf_refines ids h, exportOf_refines ids' h',
        flights.exported h.held.utf8 h'.held.utf8]
  | cons first log ih =>
      have known := apart.subset mem_namesIn_first
      have known' : NonColliding (first.op.declares ++ b'.names) := known.subset fun a member =>
        (List.mem_append.mp member).elim (List.mem_append_left _)
          fun old => List.mem_append_right _ (beside.names h h' a old)
      obtain ⟨response, next⟩ := applied_refines ids h first known
      obtain ⟨response', next'⟩ := applied_refines ids' h' first known'
      have upTo : Increasing ids (applied bc ids qm first).2 :=
        increasing.mono (Set.Iio_subset_Iio (drawn_le_applyLog bc ids _ log))
      have upTo' : Increasing ids' (applied bc ids' qm' first).2 :=
        increasing'.mono (Set.Iio_subset_Iio (drawn_le_applyLog bc ids' _ log))
      have fronts : SameTags b b' first.op.on first.op.deliveries := by
        intro st st' declared declared'
        rw [← h.nextTags declared, ← h'.nextTags declared']
        exact tags [] first log rfl
      obtain ⟨same, beside'⟩ := beside.agree_entry first.clock unlimited unlimited' fronts
        (next.increasing upTo) (next'.increasing upTo')
      obtain ⟨answers, exports⟩ := ih next next' beside'
        ((applyOperation_maxBytes _).trans unlimited)
        ((applyOperation_maxBytes _).trans unlimited') (apart.subset applied_names) increasing
        increasing' fun done step rest split => tags (first :: done) step rest
          (congrArg (first :: ·) split)
      refine ⟨?_, exports⟩
      rw [responses, responses, response, response', same, answers]

end Logs

/-- Replicas that draw ids of their own hold the same and answer the same after every prefix of
    a log in which each delivery goes out under the same tags. -/
theorem replicas_agree (bc : Bincode) (ids ids' : Nat → UInt64) (log : List LogStep)
    (apart : NonColliding (namesIn log)) (increasing : Increasing ids (replica bc ids log))
    (increasing' : Increasing ids' (replica bc ids' log))
    (tags : ∀ done step rest, log = done ++ step :: rest →
      nextTags (replica bc ids done) step.op.on step.op.deliveries =
        nextTags (replica bc ids' done) step.op.on step.op.deliveries) :
    ∀ done rest, log = done ++ rest →
      responses bc ids (emptyStore bc ids) done = responses bc ids' (emptyStore bc ids') done ∧
        exportOf bc ids (replica bc ids done) = exportOf bc ids' (replica bc ids' done) := by
  rintro done rest rfl
  have names : ∀ a ∈ namesIn done ++ (emptyBroker none).names, a ∈ namesIn (done ++ rest) := by
    intro a member
    rw [show (emptyBroker none).names = [] from rfl, List.append_nil] at member
    rw [namesIn, List.flatMap_append]
    exact List.mem_append_left _ member
  refine Beside.agree_log (started_refines bc ids none) (started_refines bc ids' none)
    (.empty rfl rfl) rfl rfl done (apart.subset names) increasing.upTo increasing'.upTo ?_
  rintro before step after rfl
  exact tags before step (after ++ rest) (by rw [List.append_assoc, List.cons_append])

/-- Two messages, of which the first is delivered and acked. -/
def deliveredFirst : List LogStep :=
  [⟨.declareQueue "q" default, fun _ => 5⟩,
    ⟨.publish "q" ⟨1, [], [], 0, 0, 3, none, none⟩, fun _ => 5⟩,
    ⟨.publish "q" ⟨2, [], [], 0, 0, 3, none, none⟩, fun _ => 6⟩,
    ⟨.consume "q", fun _ => 7⟩, ⟨.ack "q" 0, fun _ => 8⟩]

/-- Ids that go on from 40 after the first one. -/
def leap (n : Nat) : UInt64 := if n = 0 then 0 else UInt64.ofNat (40 + n)

theorem deliveredFirst_agrees :
    responses bincode (counter 0) (emptyStore bincode (counter 0)) deliveredFirst =
        responses bincode leap (emptyStore bincode leap) deliveredFirst ∧
      exportOf bincode (counter 0) (replica bincode (counter 0) deliveredFirst) =
        exportOf bincode leap (replica bincode leap deliveredFirst) := by
  have drawn : (replica bincode (counter 0) deliveredFirst).db.drawn = 2 := by decide +kernel
  have drawn' : (replica bincode leap deliveredFirst).db.drawn = 2 := by decide +kernel
  have increasing : Increasing leap (replica bincode leap deliveredFirst) := by
    rw [Increasing, drawn']
    rintro i - j (bound : j < 2) (before : i < j)
    obtain ⟨rfl, rfl⟩ : i = 0 ∧ j = 1 := by omega
    decide
  refine replicas_agree bincode (counter 0) leap deliveredFirst (by decide)
    (counter_increasing (by rw [drawn]; decide)) increasing ?_ deliveredFirst []
    (List.append_nil _).symm
  intro done step rest split
  unfold deliveredFirst at split
  rcases done with _ | ⟨_, _ | ⟨_, _ | ⟨_, _ | ⟨_, _ | ⟨_, done⟩⟩⟩⟩⟩
  case cons.cons.cons.cons.cons => simp at split
  all_goals
    cases split
    decide +kernel

/-- A replica whose ids start at 40 does not know the tag that the log acks: the message stays
    in flight there. -/
theorem tag_unknown_elsewhere :
    responses bincode (counter 0) (emptyStore bincode (counter 0)) deliveredFirst ≠
        responses bincode (counter 40) (emptyStore bincode (counter 40)) deliveredFirst ∧
      (applied bincode (counter 0) (replica bincode (counter 0) (deliveredFirst.take 4))
        ⟨.ack "q" 0, fun _ => 8⟩).1 = .ok (.ack (.ok ())) ∧
      (applied bincode (counter 40) (replica bincode (counter 40) (deliveredFirst.take 4))
        ⟨.ack "q" 0, fun _ => 8⟩).1 = .ok (.ack (.error (.invalidDeliveryTag 0))) ∧
      ((replica bincode (counter 0) deliveredFirst).db.trees (inflightTreeName "q")).keys = [] ∧
      ((replica bincode (counter 40) deliveredFirst).db.trees (inflightTreeName "q")).keys =
        [(40 : UInt64).toBeBytes] := by
  decide +kernel

end PelicanQ
