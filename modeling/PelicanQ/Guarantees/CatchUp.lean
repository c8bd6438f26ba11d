import PelicanQ.Broker.Replay
import PelicanQ.Guarantees.Restoration

/-! # Catching up by snapshot

A store that installs a snapshot and applies the rest of the log, next to a
replica that applied the whole log.  Snapshots leave out the dedup records, so a
publish whose key was on record at the split is stored again; and the ids of
the two stores differ from then on, so a tag that was handed out after the
split names another message or none.  Away from these two the stores answer
alike.
-/

namespace PelicanQ

/-- The same dedup records, but for the keys that are stale. -/
def SameRecords (stale : String → Bytes → Prop) (name : String) (st st' : QueueState) : Prop :=
  ∀ key, ¬ stale name key → st.dedup.get key = st'.dedup.get key

/-- A publish does not ask for a stale key, and a nack finds the same in both brokers. -/
structure Untroubled (stale : String → Bytes → Prop) (b b' : Broker) (name : String)
    (op : Operation) : Prop where
  keys : ∀ queue m key, op = .publish queue m → m.dedupKey = some key → ¬ stale name key.utf8
  tags : ∀ queue tag st st', op = .nack queue tag → b.queue name = some st →
    b'.queue name = some st' → st.inflight.get tag = st'.inflight.get tag

section Operations

variable {bc : Bincode} {ids ids' : Nat → UInt64} {clock : Nat → Int64} {b b' : Broker}
  {stale : String → Bytes → Prop} {name : String} {st st' : QueueState}

theorem SameRecords.isDuplicate (records : SameRecords stale name st st')
    (policy : st.policy = st'.policy) {m : Message}
    (known : ∀ key, m.dedupKey = some key → ¬ stale name key.utf8) (clock : Nat → Int64) :
    st.isDuplicate m clock = st'.isDuplicate m clock := by
  rw [QueueState.isDuplicate, QueueState.isDuplicate, policy, isRepeated, isRepeated]
  cases asked : m.dedupKey with
  | none => cases st'.policy.dedupWindowSecs <;> rfl
  | some key =>
      cases st'.policy.dedupWindowSecs with
      | none => rfl
      | some windowSecs => simp only [records key.utf8 (known key asked)]

theorem SameRecords.publish (records : SameRecords stale name st st')
    (policy : st.policy = st'.policy) {m : Message}
    (known : ∀ key, m.dedupKey = some key → ¬ stale name key.utf8) (clock : Nat → Int64)
    (queue : String) {key : Bytes} (fresh : ¬ stale name key) :
    (st.records clock (.publish queue m)).get key = (st'.records clock (.publish queue m)).get key := by
  simp only [QueueState.records, records.isDuplicate policy known, policy]
  have before := records key fresh
  split_ifs
  · exact before
  · cases st'.policy.dedupWindowSecs with
    | none => exact before
    | some windowSecs =>
        cases m.dedupKey with
        | none => exact before
        | some asked => rw [OrdMap.get_insert, OrdMap.get_insert, before]

theorem QueueState.moves_ack (n : Nat) (st : QueueState) (queue : String) (tag : UInt64) :
    st.moves ids n (st.script clock (.ack queue tag)).2 =
      { st with inflight := st.inflight.erase tag } := by
  simp only [QueueState.script]
  cases found : st.inflight.get tag with
  | none => simp only [QueueState.moves, OrdMap.erase_absent found]
  | some m => rfl

variable (clock) in
/-- An ack leaves what is compared as it is, whatever it finds. -/
theorem Beside.ack (beside : Beside ids ids' (SameRecords stale) b b') (queue : String)
    (tag : UInt64) :
    Beside ids ids' (SameRecords stale) (b.perform bc ids clock (.ack queue tag)).2
      (b'.perform bc ids' clock (.ack queue tag)).2 := by
  have on : (Operation.ack queue tag).on = some queue := rfl
  have admits (b : Broker) : b.Admits bc (.ack queue tag) := fun _ _ => nofun
  rcases beside.cases queue with ⟨undeclared, undeclared'⟩ | ⟨st, st', L, both⟩
  · rcases Broker.perform_undeclared bc ids clock on undeclared with
      ⟨_, impossible, -⟩ | ⟨_, -, -, after⟩
    · cases impossible
    · rcases Broker.perform_undeclared bc ids' clock on undeclared' with
        ⟨_, impossible, -⟩ | ⟨_, -, -, after'⟩
      · cases impossible
      · rw [after, after']
        exact beside
  · obtain ⟨-, after⟩ := Broker.perform_script bc ids clock both.declared on (admits b)
    obtain ⟨-, after'⟩ := Broker.perform_script bc ids' clock both.declared' on (admits b')
    have drawn := (Nat.le_add_right _ _).trans after.fits
    have drawn' := (Nat.le_add_right _ _).trans after'.fits
    refine beside.step drawn drawn'
      (fun _ different => Broker.perform_queue_other bc ids clock on different)
      (fun _ different => Broker.perform_queue_other bc ids' clock on different) ?_
    rw [after.queue, after'.queue, QueueState.moves_ack, QueueState.moves_ack]
    exact .some ⟨⟨L, both.valid.later drawn drawn', { both.twin with }⟩, both.related⟩

variable (bc clock) in
/-- An operation without trouble. -/
theorem Beside.untroubled (beside : Beside ids ids' (SameRecords stale) b b')
    (unlimited : b.maxBytes = none) (unlimited' : b'.maxBytes = none) {op : Operation} {q : String}
    (on : op.on = some q) (untroubled : Untroubled stale b b' q op)
    (answers : ∀ queue tag, op ≠ .ack queue tag)
    (increasing : StrictMonoOn ids (Set.Iio (b.perform bc ids clock op).2.drawn))
    (increasing' : StrictMonoOn ids' (Set.Iio (b'.perform bc ids' clock op).2.drawn)) :
    SameAnswer (fun _ _ => True) op op (b.perform bc ids clock op).1
        (b'.perform bc ids' clock op).1 ∧
      Beside ids ids' (SameRecords stale) (b.perform bc ids clock op).2
        (b'.perform bc ids' clock op).2 := by
  refine beside.perform clock clock on (Broker.admits_unlimited unlimited op)
    (Broker.admits_unlimited unlimited' op) (fun _ _ _ => rfl) ?_ increasing increasing'
  intro st st' L both
  have policy := both.twin.policy
  refine ⟨?_, ?_⟩
  · cases op with
    | declareQueueWithRetention name policy => exact .declare name policy
    | publish queue m =>
        have same := both.related.isDuplicate policy (fun key => untroubled.keys queue m key rfl) clock
        exact .publish queue (by rw [same]) (by rw [same])
    | consume queue => exact .consume queue
    | ack queue tag => exact absurd rfl (answers queue tag)
    | nack queue tag =>
        exact .nack queue (untroubled.tags queue tag st st' rfl both.declared both.declared')
    | promoteScheduled queue => exact .promote queue (both.twin.due_count both.valid _)
    | applyRetention queue => exact .retain queue (both.twin.expired _)
    | reopen maxBytes => cases on
  · intro key fresh
    rw [QueueState.dedup_script, QueueState.dedup_script]
    cases op with
    | publish queue m =>
        exact both.related.publish policy (fun key => untroubled.keys queue m key rfl) clock queue
          fresh
    | declareQueueWithRetention | consume | ack | nack | promoteScheduled | applyRetention |
      reopen => exact both.related key fresh

theorem Beside.publishClock (beside : Beside ids ids' (SameRecords stale) b b')
    (unlimited : b.maxBytes = none) (unlimited' : b'.maxBytes = none) {m : Message}
    (known : ∀ key, m.dedupKey = some key → ¬ stale name key.utf8) :
    b.publishClock bc clock name m = b'.publishClock bc clock name m := by
  unfold Broker.publishClock
  rcases beside.cases name with ⟨undeclared, undeclared'⟩ | ⟨st, st', L, both⟩
  · rw [undeclared, undeclared']
  · have policy := both.twin.policy
    rw [both.declared, both.declared']
    simp only [both.related.isDuplicate policy known, Broker.limitError, unlimited, unlimited',
      QueueState.recordClock, policy]

end Operations

/-! ## Log entries -/

/-- The entry publishes under no stale key, and a nack finds the same in both brokers. -/
structure Untouched (stale : String → Bytes → Prop) (b b' : Broker) (entry : QueueOperation) :
    Prop where
  keys : ∀ m ∈ entry.messages, ∀ key, m.dedupKey = some key → ¬ stale entry.on key.utf8
  tags : ∀ queue tag st st', entry = .nack queue tag → b.queue queue = some st →
    b'.queue queue = some st' → st.inflight.get tag = st'.inflight.get tag

section Entries

variable {bc : Bincode} {ids ids' : Nat → UInt64} {clock : Nat → Int64} {b b' : Broker}
  {stale : String → Bytes → Prop} {entry : QueueOperation}

theorem Untouched.single (untouched : Untouched stale b b' entry) {op : Operation}
    (single : entry.single = some op) : Untroubled stale b b' entry.on op := by
  constructor
  · rintro queue m key rfl
    cases entry <;> cases single
    exact untouched.keys m List.mem_cons_self key
  · rintro queue tag st st' rfl
    cases entry <;> cases single
    exact untouched.tags queue tag st st' rfl

variable (clock) in
theorem Beside.publishBatch (beside : Beside ids ids' (SameRecords stale) b b')
    (unlimited : b.maxBytes = none) (unlimited' : b'.maxBytes = none) {queue : String}
    {messages : List Message}
    (known : ∀ m ∈ messages, ∀ key, m.dedupKey = some key → ¬ stale queue key.utf8)
    (increasing : StrictMonoOn ids
      (Set.Iio (b.applyOperation bc ids clock (.publishBatch queue messages)).2.drawn))
    (increasing' : StrictMonoOn ids'
      (Set.Iio (b'.applyOperation bc ids' clock (.publishBatch queue messages)).2.drawn)) :
    Agree (fun _ _ => True) (b.applyOperation bc ids clock (.publishBatch queue messages)).1
        (b'.applyOperation bc ids' clock (.publishBatch queue messages)).1 ∧
      Beside ids ids' (SameRecords stale)
        (b.applyOperation bc ids clock (.publishBatch queue messages)).2
        (b'.applyOperation bc ids' clock (.publishBatch queue messages)).2 := by
  let Q (rest : List Message) (clock clock' : Nat → Int64) (b b' : Broker) : Prop :=
    clock = clock' ∧ Beside ids ids' (SameRecords stale) b b' ∧ b.maxBytes = none ∧
      b'.maxBytes = none ∧ ∀ m ∈ rest, ∀ key, m.dedupKey = some key → ¬ stale queue key.utf8
  have step : ∀ m rest clock clock' b b', Q (m :: rest) clock clock' b b' →
      StrictMonoOn ids (Set.Iio (b.publish bc ids clock queue m).2.drawn) →
      StrictMonoOn ids' (Set.Iio (b'.publish bc ids' clock' queue m).2.drawn) →
      (b.publish bc ids clock queue m).1 = (b'.publish bc ids' clock' queue m).1 ∧
        Q rest (b.publishClock bc clock queue m) (b'.publishClock bc clock' queue m)
          (b.publish bc ids clock queue m).2 (b'.publish bc ids' clock' queue m).2 := by
    rintro m rest clock _ b b' ⟨rfl, beside, unlimited, unlimited', known⟩ upTo upTo'
    have on : (Operation.publish queue m).on = some queue := rfl
    have untroubled : Untroubled stale b b' queue (.publish queue m) := by
      constructor
      · rintro _ _ key ⟨⟩
        exact known m List.mem_cons_self key
      · exact fun _ _ _ _ => nofun
    obtain ⟨same, next⟩ := beside.untroubled bc clock unlimited unlimited' on untroubled
      (fun _ _ => nofun) upTo upTo'
    exact ⟨Response.published.inj (same.eq fun _ => nofun),
      beside.publishClock unlimited unlimited' (known m List.mem_cons_self), next,
      (Broker.perform_maxBytes bc ids clock on).trans unlimited,
      (Broker.perform_maxBytes bc ids' clock on).trans unlimited',
      fun m member => known m (List.mem_cons_of_mem _ member)⟩
  obtain ⟨agree, _, _, _, -, next, -⟩ := Agree.publishEach step (increasing_fewer ids)
    (increasing_fewer ids') messages []
    ⟨rfl, beside, unlimited, unlimited', known⟩ increasing increasing'
  exact ⟨agree, next⟩

variable (clock) in
theorem Beside.consumeBatch (beside : Beside ids ids' (SameRecords stale) b b')
    (unlimited : b.maxBytes = none) (unlimited' : b'.maxBytes = none) (queue : String) (max : UInt64)
    (increasing : StrictMonoOn ids
      (Set.Iio (b.applyOperation bc ids clock (.consumeBatch queue max)).2.drawn))
    (increasing' : StrictMonoOn ids'
      (Set.Iio (b'.applyOperation bc ids' clock (.consumeBatch queue max)).2.drawn)) :
    Agree (fun _ _ => True) (b.applyOperation bc ids clock (.consumeBatch queue max)).1
        (b'.applyOperation bc ids' clock (.consumeBatch queue max)).1 ∧
      Beside ids ids' (SameRecords stale)
        (b.applyOperation bc ids clock (.consumeBatch queue max)).2
        (b'.applyOperation bc ids' clock (.consumeBatch queue max)).2 := by
  rw [consumeBatch_drawn] at increasing increasing'
  let Q (_ : Nat) (b b' : Broker) : Prop := Beside ids ids' (SameRecords stale) b b' ∧
    b.maxBytes = none ∧ b'.maxBytes = none ∧ StrictMonoOn ids (Set.Iio b.drawn) ∧
      StrictMonoOn ids' (Set.Iio b'.drawn)
  have step : ∀ left b b', Q (left + 1) b b' → SameAnswer (fun _ _ => True) (.consume queue)
        (.consume queue) (.consumed (b.consume ids queue).1)
        (.consumed (b'.consume ids' queue).1) ∧
      Q left (b.consume ids queue).2 (b'.consume ids' queue).2 := by
    rintro left b b' ⟨beside, unlimited, unlimited', upTo, upTo'⟩
    have on : (Operation.consume queue).on = some queue := rfl
    rw [← consume_drawn b queue] at upTo
    rw [← consume_drawn b' queue] at upTo'
    obtain ⟨same, next⟩ := beside.untroubled bc clock unlimited unlimited' on
      ⟨fun _ _ _ => nofun, fun _ _ _ _ => nofun⟩ (fun _ _ => nofun) upTo upTo'
    exact ⟨same, next, (Broker.perform_maxBytes bc ids clock on).trans unlimited,
      (Broker.perform_maxBytes bc ids' clock on).trans unlimited', upTo, upTo'⟩
  obtain ⟨agree, _, next, -⟩ := Agree.consumeEach step max.toNat .nil
    ⟨beside, unlimited, unlimited', increasing, increasing'⟩
  exact ⟨agree, next⟩

variable (clock) in
/-- An entry that is untouched by what the snapshot leaves out. -/
theorem Beside.applyEntry (beside : Beside ids ids' (SameRecords stale) b b')
    (unlimited : b.maxBytes = none) (unlimited' : b'.maxBytes = none)
    (untouched : Untouched stale b b' entry)
    (increasing : StrictMonoOn ids (Set.Iio (b.applyOperation bc ids clock entry).2.drawn))
    (increasing' : StrictMonoOn ids' (Set.Iio (b'.applyOperation bc ids' clock entry).2.drawn)) :
    ((∀ queue tag, entry ≠ .ack queue tag) → Agree (fun _ _ => True)
        (b.applyOperation bc ids clock entry).1 (b'.applyOperation bc ids' clock entry).1) ∧
      Beside ids ids' (SameRecords stale) (b.applyOperation bc ids clock entry).2
        (b'.applyOperation bc ids' clock entry).2 := by
  cases single : entry.single with
  | some op =>
      rw [applyOperation_single bc ids clock b single] at increasing ⊢
      rw [applyOperation_single bc ids' clock b' single] at increasing' ⊢
      by_cases acks : ∃ queue tag, entry = .ack queue tag
      · obtain ⟨queue, tag, rfl⟩ := acks
        cases single
        exact ⟨fun other => absurd rfl (other queue tag), beside.ack clock queue tag⟩
      · have other : ∀ queue tag, op ≠ .ack queue tag := by
          rintro queue tag rfl
          apply acks
          cases entry <;> cases single
          exact ⟨queue, tag, rfl⟩
        obtain ⟨same, next⟩ := beside.untroubled bc clock unlimited unlimited'
          (QueueOperation.single_on single) (untouched.single single) other increasing increasing'
        exact ⟨fun _ => .single single same, next⟩
  | none =>
      cases entry with
      | publishBatch queue messages =>
          obtain ⟨agree, next⟩ := beside.publishBatch clock unlimited unlimited' untouched.keys
            increasing increasing'
          exact ⟨fun _ => agree, next⟩
      | consumeBatch queue max =>
          obtain ⟨agree, next⟩ := beside.consumeBatch clock unlimited unlimited' queue max
            increasing increasing'
          exact ⟨fun _ => agree, next⟩
      | declareQueue | publish | consume | ack | nack | applyRetention | promoteScheduled =>
          cases single

end Entries

/-! ## Logs -/

/-- What the rest of the log must stay away from: a dedup key that was on record when the
    snapshot was taken, and a nack whose tag is not the same message's in both stores. -/
structure Unaffected (split qm qm' : QueueManager) (entry : QueueOperation) : Prop where
  keys : ∀ m ∈ entry.messages, ∀ key, m.dedupKey = some key →
    key.utf8 ∉ (split.db.trees (dedupTreeName entry.on)).keys
  tags : ∀ queue tag, entry = .nack queue tag →
    (qm.db.trees (inflightTreeName queue)).get tag.toBeBytes =
      (qm'.db.trees (inflightTreeName queue)).get tag.toBeBytes

section Logs

variable {bc : Bincode} {ids ids' : Nat → UInt64} {qm qm' : QueueManager} {b b' : Broker}

/-- The dedup keys a broker has on record. -/
def Broker.recorded (b : Broker) (name : String) (key : Bytes) : Prop :=
  ∃ st, b.queue name = some st ∧ key ∈ st.dedup.keys

theorem Unaffected.untouched {split : QueueManager} {b₀ : Broker} (h₀ : Refines bc split b₀)
    (h : Refines bc qm b) (h' : Refines bc qm' b') {entry : QueueOperation}
    (unaffected : Unaffected split qm qm' entry) : Untouched b₀.recorded b b' entry := by
  constructor
  · rintro m member key asked ⟨st, declared, listed⟩
    apply unaffected.keys m member key asked
    rw [show dedupTreeName entry.on = Role.dedup.treeName entry.on from rfl,
      h₀.held.stores entry.on st declared, QueueState.tree, OrdMap.mapValues_keys]
    exact listed
  · intro queue tag st st' nacks declared declared'
    have same := unaffected.tags queue tag nacks
    rw [show inflightTreeName queue = Role.inflight.treeName queue from rfl,
      h.held.stores queue st declared, h'.held.stores queue st' declared', QueueState.get_inflight,
      QueueState.get_inflight] at same
    exact Option.map_injective bc.message.encode_injective same

/-- Stores side by side answer alike as long as the entries are unaffected. -/
theorem Beside.replay {split : QueueManager} {b₀ : Broker} (h₀ : Refines bc split b₀)
    (h : Refines bc qm b) (h' : Refines bc qm' b')
    (beside : Beside ids ids' (SameRecords b₀.recorded) b b')
    (unlimited : b.maxBytes = none) (unlimited' : b'.maxBytes = none) (log : List LogStep)
    (apart : NonColliding (namesIn log ++ b.names))
    (increasing : Increasing ids (applyLog bc ids qm log))
    (increasing' : Increasing ids' (applyLog bc ids' qm' log))
    (unaffected : ∀ done step rest, log = done ++ step :: rest →
      Unaffected split (applyLog bc ids qm done) (applyLog bc ids' qm' done) step.op) :
    ∀ done step rest, log = done ++ step :: rest → (∀ queue tag, step.op ≠ .ack queue tag) →
      Agree (fun _ _ => True) (applied bc ids (applyLog bc ids qm done) step).1
        (applied bc ids' (applyLog bc ids' qm' done) step).1 := by
  induction log generalizing qm qm' b b' with
  | nil =>
      intro done step rest split
      simp at split
  | cons first log ih =>
      have known := apart.subset mem_namesIn_first
      have known' : NonColliding (first.op.declares ++ b'.names) := known.subset fun a member =>
        (List.mem_append.mp member).elim (List.mem_append_left _)
          fun old => List.mem_append_right _ (beside.names h h' a old)
      obtain ⟨response, next⟩ := applied_refines ids h first known
      obtain ⟨response', next'⟩ := applied_refines ids' h' first known'
      have upTo : Increasing ids (applied bc ids qm first).2 :=
        increasing.mono (Set.Iio_subset_Iio (drawn_le_applyLog bc ids _ log))
      have upTo' : Increasing ids' (applied bc ids' qm' first).2 :=
        increasing'.mono (Set.Iio_subset_Iio (drawn_le_applyLog bc ids' _ log))
      obtain ⟨agree, beside'⟩ := beside.applyEntry first.clock unlimited unlimited'
        ((unaffected [] first log rfl).untouched h₀ h h') (next.increasing upTo)
        (next'.increasing upTo')
      intro done step rest split answers
      cases done with
      | nil =>
          cases split
          rw [show applyLog bc ids qm [] = qm from rfl, show applyLog bc ids' qm' [] = qm' from rfl,
            response, response']
          exact agree answers
      | cons _ done =>
          cases split
          exact ih next next' beside' ((applyOperation_maxBytes _).trans unlimited)
            ((applyOperation_maxBytes _).trans unlimited') (apart.subset applied_names) increasing
            increasing' (fun done step rest split => unaffected (first :: done) step rest
              (congrArg (first :: ·) split)) done step rest rfl answers

/-- Building a snapshot and installing it elsewhere is exporting and restoring. -/
theorem caughtUp_eq (h : Refines bc qm b) (json : Codec QueueManagerSnapshot) (ids' : Nat → UInt64)
    (clock : Nat → Int64) :
    caughtUp bc ids json ids' clock qm =
      restoreInto bc ids' clock (emptyStore bc ids') b.exported := by
  have exported : (QueueManager.exportSnapshot bc).run (handle ids) ⟨qm, clock⟩ =
      (.ok b.exported, ⟨qm, clock⟩) := export_refines ids h
  have built : (exec ids clock (buildSnapshot bc json) qm).1 = .ok (json.encode b.exported) := by
    rw [exec, buildSnapshot, Program.run_bind, exported]
    rfl
  rw [caughtUp, built, Outcome.andThen_ok, installSnapshot, json.decode_encode]
  rfl

end Logs

/-- Snapshot plus suffix answers like the whole log, for entries that what the snapshot leaves
    out does not affect. -/
theorem suffix_answers (bc : Bincode) (ids ids' : Nat → UInt64) (json : Codec QueueManagerSnapshot)
    (clock : Nat → Int64) (before suffix : List LogStep) (store : QueueManager)
    (installed : (caughtUp bc ids json ids' clock (replica bc ids before)).2 = store)
    (apart : NonColliding (namesIn (before ++ suffix)))
    (increasing : Increasing ids (replica bc ids (before ++ suffix)))
    (increasing' : Increasing ids' (applyLog bc ids' store suffix))
    (unaffected : ∀ done step rest, suffix = done ++ step :: rest →
      Unaffected (replica bc ids before) (replica bc ids (before ++ done))
        (applyLog bc ids' store done) step.op) :
    (caughtUp bc ids json ids' clock (replica bc ids before)).1 = .ok () ∧
      ∀ done step rest, suffix = done ++ step :: rest → (∀ queue tag, step.op ≠ .ack queue tag) →
        ∃ response response',
          (applied bc ids (replica bc ids (before ++ done)) step).1 = .ok response ∧
          (applied bc ids' (applyLog bc ids' store done) step).1 = .ok response' ∧
            response.untagged = response'.untagged := by
  have names : namesIn (before ++ suffix) = namesIn before ++ namesIn suffix :=
    List.flatMap_append
  rw [names] at apart
  have apart₀ := apart.subset fun a member => List.mem_append_left _ member
  obtain ⟨b, refines, sound, unlimited, known⟩ := replica_refines apart₀ increasing.upTo
  subst installed
  rw [caughtUp_eq refines] at increasing' unaffected ⊢
  obtain ⟨ok, after⟩ := restoreInto_refines refines sound ids' clock none
  have upTo : Increasing ids' (restoreInto bc ids' clock (emptyStore bc ids') b.exported).2 :=
    increasing'.mono (Set.Iio_subset_Iio (drawn_le_applyLog bc ids' _ suffix))
  have beside : Beside ids ids' (SameRecords b.recorded) b _ :=
    restored_beside rfl sound refines.held.utf8 (after.increasing upTo) (by
      intro name st st' declared _ dedup key stale
      rw [dedup, OrdMap.get_empty, OrdMap.get_eq_none]
      exact fun listed => stale ⟨st, declared, listed⟩)
  have later (log : List LogStep) :
      replica bc ids (before ++ log) = applyLog bc ids (replica bc ids before) log :=
    applyLog_append ..
  simp only [later] at increasing unaffected ⊢
  have known' : NonColliding (namesIn suffix ++ b.names) := apart.subset fun a member =>
    (List.mem_append.mp member).elim (List.mem_append_right _)
      fun old => List.mem_append_left _ (known a old)
  refine ⟨ok, fun done step rest split answers => ?_⟩
  obtain ⟨a, a', first, second, echoes⟩ := beside.replay refines refines after unlimited
    (restore_maxBytes bc (emptyBroker none) b.exported) suffix known' increasing increasing' unaffected done step rest split answers
  exact ⟨a, a', first, second, echoes.untagged⟩

/-- A delivery before the split that is nacked after it. -/
def splitDelivery : List LogStep :=
  [⟨.declareQueue "q" default, fun _ => 5⟩,
    ⟨.publish "q" ⟨1, [], [], 0, 0, 3, none, none⟩, fun _ => 5⟩,
    ⟨.consume "q", fun _ => 5⟩]

def redelivery : List LogStep := [⟨.nack "q" 0, fun _ => 6⟩, ⟨.consume "q", fun _ => 6⟩]

theorem redelivery_answers :
    ∃ response response',
      (applied bincode (counter 0) (replica bincode (counter 0)
        (splitDelivery ++ [⟨.nack "q" 0, fun _ => 6⟩])) ⟨.consume "q", fun _ => 6⟩).1 =
          .ok response ∧
      (applied bincode (counter 40) (applyLog bincode (counter 40)
        (caughtUp bincode (counter 0) snapshotWire.toCodec (counter 40) (fun _ => 5)
          (replica bincode (counter 0) splitDelivery)).2 [⟨.nack "q" 0, fun _ => 6⟩])
        ⟨.consume "q", fun _ => 6⟩).1 = .ok response' ∧
        response.untagged = response'.untagged := by
  have drawn : (replica bincode (counter 0) (splitDelivery ++ redelivery)).db.drawn = 2 := by
    decide +kernel
  have drawn' : (applyLog bincode (counter 40) (caughtUp bincode (counter 0) snapshotWire.toCodec
      (counter 40) (fun _ => 5) (replica bincode (counter 0) splitDelivery)).2
        redelivery).db.drawn = 1 := by
    decide +kernel
  have found : ((replica bincode (counter 0) (splitDelivery ++ [])).db.trees
      (inflightTreeName "q")).get (0 : UInt64).toBeBytes =
        ((applyLog bincode (counter 40) (caughtUp bincode (counter 0) snapshotWire.toCodec
          (counter 40) (fun _ => 5) (replica bincode (counter 0) splitDelivery)).2 []).db.trees
            (inflightTreeName "q")).get (0 : UInt64).toBeBytes := by
    decide +kernel
  refine (suffix_answers bincode (counter 0) (counter 40) snapshotWire.toCodec (fun _ => 5)
    splitDelivery redelivery _ rfl (by decide) (counter_increasing (by rw [drawn]; decide))
    (counter_increasing (by rw [drawn']; decide)) ?_).2 [⟨.nack "q" 0, fun _ => 6⟩] _ [] rfl
    fun _ _ => nofun
  intro done step rest split
  unfold redelivery at split
  rcases done with _ | ⟨first, _ | ⟨second, done⟩⟩
  · cases split
    refine ⟨fun _ member => (List.not_mem_nil member).elim, ?_⟩
    rintro queue tag ⟨⟩
    exact found
  · cases split
    exact ⟨fun _ member => (List.not_mem_nil member).elim, fun _ _ => nofun⟩
  · simp at split

/-- A publish under a key that is on record when the snapshot is taken. -/
def splitPublish : List LogStep :=
  [⟨.declareQueue "q" ⟨none, none, none, some 60⟩, fun _ => 5⟩,
    ⟨.publish "q" ⟨1, [], [], 0, 0, 3, none, some "k"⟩, fun _ => 5⟩]

theorem snapshot_forgets_keys :
    (caughtUp bincode (counter 0) snapshotWire.toCodec (counter 0) (fun _ => 5)
      (replica bincode (counter 0) splitPublish)).1 = .ok () ∧
    (applied bincode (counter 0) (replica bincode (counter 0) splitPublish)
      ⟨.publish "q" ⟨2, [], [], 0, 0, 3, none, some "k"⟩, fun _ => 6⟩).1 =
        .ok (.publish (.ok .deduplicated)) ∧
    (applied bincode (counter 0) (caughtUp bincode (counter 0) snapshotWire.toCodec (counter 0)
      (fun _ => 5) (replica bincode (counter 0) splitPublish)).2
      ⟨.publish "q" ⟨2, [], [], 0, 0, 3, none, some "k"⟩, fun _ => 6⟩).1 =
        .ok (.publish (.ok (.stored 2))) := by
  decide +kernel

end PelicanQ
