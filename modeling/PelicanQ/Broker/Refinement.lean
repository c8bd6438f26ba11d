import PelicanQ.Broker.Represents
import PelicanQ.Core.Execution

/-! # The queue manager refines the broker

Each method of the manager, run on a database that represents a broker, ends
as the broker's operation ends and leaves a database that represents the
broker it leaves.  The proofs execute the method call by call; where it
writes, the writes are the changes of the broker's operation, and
`Represents.commit` does the rest.
-/

namespace PelicanQ

/-- The time under which a key of a queue is on record. -/
def recordedIn (db : Sled.Db) (name key : String) : Option Int64 :=
  ((db.trees (dedupTreeName name)).get key.utf8).map fun value => Int64.fromBeBytes (value.take 8)

/-- Every record of a queue has the bytes of a time. -/
def TimedRecords (db : Sled.Db) (name : String) : Prop :=
  ∀ value ∈ (db.trees (dedupTreeName name)).values, 8 ≤ value.length

/-- The record of the message's key, if there is one, has the bytes of a time. -/
def TimedRecord (db : Sled.Db) (name : String) (m : Message) : Prop :=
  ∀ key value, m.dedupKey = some key → (db.trees (dedupTreeName name)).get key.utf8 = some value →
    8 ≤ value.length

theorem TimedRecords.record {db : Sled.Db} {name : String} (timed : TimedRecords db name)
    (m : Message) : TimedRecord db name m :=
  fun _ value _ found => timed value (List.mem_map_of_mem (OrdMap.get_eq_some.mp found))

theorem run_isDuplicate_read (ids : Nat → UInt64) {s : Machine} {name : String} {m : Message}
    (timed : TimedRecord s.db name m) (policy : RetentionPolicy) {α : Type}
    (next : Bool → Action α) :
    (QueueManager.isDuplicate name m policy >>= next).run (handle ids) s =
      (next (isRepeated policy (recordedIn s.db name) m s.clock).1).run (handle ids)
        (s.withClock (isRepeated policy (recordedIn s.db name) m s.clock).2) := by
  unfold QueueManager.isDuplicate isRepeated
  cases policy.dedupWindowSecs with
  | none => rfl
  | some windowSecs =>
      cases keyed : m.dedupKey with
      | none => rfl
      | some key =>
          by_cases positive : 0 < windowSecs
          · simp only [if_pos positive, Program.bind_assoc, run_openTree, run_get, recordedIn]
            cases found : (s.db.trees (dedupTreeName name)).get key.utf8 with
            | none => rfl
            | some value =>
                have long : 8 ≤ value.length := timed key value keyed found
                simp only [slice_of_le long, Program.ret_bind, List.drop_zero, Option.map_some]
                rfl
          · simp only [if_neg positive]
            rfl

/-- A manager in the state of a broker. -/
structure Refines (bc : Bincode) (qm : QueueManager) (b : Broker) : Prop where
  held : Represents bc qm.db b
  drawn : qm.db.drawn = b.drawn
  bytes : qm.currentBytes = b.bytes
  maxBytes : qm.maxBytes = b.maxBytes

namespace Refines

variable {bc : Bincode} {s : Machine} {b : Broker}

theorem commit (h : Refines bc s.manager b) {name : String} {st : QueueState}
    (declared : b.queue name = some st) (changes : List Change) :
    Refines bc (s.commit (batch bc name changes)).manager (b.change name changes) where
  held := h.held.commit declared changes
  drawn := h.drawn.trans (b.drawn_change name changes).symm
  bytes := h.bytes.trans (b.bytes_change name changes).symm
  maxBytes := h.maxBytes.trans (b.maxBytes_change name changes).symm

theorem draw (h : Refines bc s.manager b) : Refines bc s.draw.manager (b.advance 1) where
  held := ⟨h.held.registered, h.held.policies, h.held.utf8, h.held.apart, h.held.stores,
    h.held.arrived, h.held.unwritten⟩
  drawn := congrArg (· + 1) h.drawn
  bytes := h.bytes
  maxBytes := h.maxBytes

theorem setBytes (h : Refines bc s.manager b) (bytes : UInt64) :
    Refines bc (s.setBytes bytes).manager (b.setBytes bytes) where
  held := h.held.congr rfl
  drawn := h.drawn
  bytes := rfl
  maxBytes := h.maxBytes

/-- A move that needs no id is one batch. -/
theorem move (ids : Nat → UInt64) (h : Refines bc s.manager b) {name : String} {st : QueueState}
    (declared : b.queue name = some st) (mv : Move) (plain : mv.draws = 0) :
    Refines bc (s.commit (batch bc name (mv.changes st.policy (ids b.drawn)))).manager
      (b.move ids name mv) := by
  rw [Broker.move_declared declared, plain]
  exact h.commit declared _

/-- A move that makes a key draws an id and writes one batch. -/
theorem move_fresh (ids : Nat → UInt64) (h : Refines bc s.manager b) {name : String}
    {st : QueueState} (declared : b.queue name = some st) (mv : Move) (fresh : mv.draws = 1) :
    Refines bc (s.draw.commit (batch bc name (mv.changes st.policy (ids b.drawn)))).manager
      (b.move ids name mv) := by
  rw [Broker.move_declared declared, fresh, ← Broker.advance_change]
  exact h.draw.commit declared _

/-- A registered name is a declared queue. -/
theorem registered_get (h : Refines bc s.manager b) (name : String) :
    ((s.db.trees metaQueuesTree).get name.utf8).isSome = (b.queue name).isSome := by
  rw [Machine.db, h.held.registered, OrdMap.get_mapValues, Option.isSome_map]
  rfl

theorem policy_get (h : Refines bc s.manager b) {name : String} {st : QueueState}
    (declared : b.queue name = some st) :
    (s.db.trees metaRetentionTree).get name.utf8 = some (bc.policy.encode st.policy) := by
  rw [Machine.db, h.held.policies, OrdMap.get_mapValues,
    show b.queues.get name.utf8 = some st from declared]
  rfl

theorem tree (h : Refines bc s.manager b) {name : String} {st : QueueState}
    (declared : b.queue name = some st) (role : Role) :
    s.db.trees (role.treeName name) = st.tree bc role :=
  h.held.stores name st declared role

theorem dedup_tree {qm : QueueManager} (h : Refines bc qm b) {name : String} {st : QueueState}
    (declared : b.queue name = some st) :
    qm.db.trees (dedupTreeName name) = st.dedup.mapValues Int64.toBeBytes :=
  h.held.stores name st declared .dedup

/-- The times on record are those of the queue. -/
theorem recorded {qm : QueueManager} (h : Refines bc qm b) {name : String} {st : QueueState}
    (declared : b.queue name = some st) :
    recordedIn qm.db name = fun key => st.dedup.get key.utf8 := by
  funext key
  have whole (time : Int64) : time.toBeBytes.take 8 = time.toBeBytes :=
    List.take_of_length_le (Int64.length_toBeBytes time).le
  rw [recordedIn, h.dedup_tree declared, OrdMap.get_mapValues, Option.map_map]
  cases st.dedup.get key.utf8 with
  | none => rfl
  | some time =>
      simp only [Option.map_some, Function.comp_apply, whole, Int64.fromBeBytes_toBeBytes]

end Refines

/-! ## The shared steps of the methods -/

section Steps

open QueueManager

variable {bc : Bincode} {ids : Nat → UInt64} {s : Machine} {b : Broker} {α : Type}

theorem run_requireQueue (h : Refines bc s.manager b) {name : String} {st : QueueState}
    (declared : b.queue name = some st) (next : Unit → Action α) :
    (requireQueue name >>= next).run (handle ids) s = (next ()).run (handle ids) s := by
  have registered : ((s.db.trees metaQueuesTree).get name.utf8).isSome = true := by
    rw [h.registered_get, declared, Option.isSome_some]
  exact run_requireQueue_found ids s next registered

theorem run_requireQueue_absent (h : Refines bc s.manager b) {name : String}
    (undeclared : b.queue name = none) (next : Unit → Action α) :
    (requireQueue name >>= next).run (handle ids) s = (.err (.queueNotFound name), s) := by
  have absent : ((s.db.trees metaQueuesTree).get name.utf8).isSome = false := by
    rw [h.registered_get, undeclared, Option.isSome_none]
  rw [requireQueue, Program.run_bind, run_containsKey, absent]
  rfl

theorem run_policyOf (h : Refines bc s.manager b) {name : String} {st : QueueState}
    (declared : b.queue name = some st) (next : RetentionPolicy → Action α) :
    (policyOf bc name >>= next).run (handle ids) s = (next st.policy).run (handle ids) s :=
  run_policyOf_record ids s next (h.policy_get declared)

theorem run_isDuplicate (h : Refines bc s.manager b) {name : String} {st : QueueState}
    (declared : b.queue name = some st) (m : Message) (next : Bool → Action α) :
    (isDuplicate name m st.policy >>= next).run (handle ids) s =
      (next (st.isDuplicate m s.clock).1).run (handle ids)
        (s.withClock (st.isDuplicate m s.clock).2) := by
  have timed : TimedRecords s.db name := by
    intro value member
    rw [Machine.db, h.dedup_tree declared, OrdMap.mapValues, OrdMap.image_values] at member
    obtain ⟨time, -, rfl⟩ := List.mem_map.mp member
    exact (Int64.length_toBeBytes time).ge
  rw [run_isDuplicate_read ids (timed.record m) st.policy next, Machine.db, h.recorded declared]
  rfl

theorem run_notYetDue (m : Message) (next : Option Int64 → Action α) :
    (QueueManager.notYetDue m >>= next).run (handle ids) s =
      (next (PelicanQ.notYetDue m s.clock).1).run (handle ids)
        (s.withClock (PelicanQ.notYetDue m s.clock).2) := by
  unfold QueueManager.notYetDue PelicanQ.notYetDue
  cases m.deliverAt <;> rfl

/-- The limit check ends the method or leaves everything as it was. -/
theorem run_checkLimit (h : Refines bc s.manager b) (size : UInt64) (next : Unit → Action α) :
    (checkLimit size >>= next).run (handle ids) s =
      match b.limitError size with
      | some e => (.err e, s)
      | none => (next ()).run (handle ids) s := by
  rw [checkLimit, Program.run_bind, run_maxBytes, h.maxBytes, Broker.limitError]
  cases b.maxBytes with
  | none => rfl
  | some max =>
      simp only [run_currentBytes, h.bytes]
      by_cases full : max < b.bytes + size
      · simp only [if_pos full]
        rfl
      · simp only [if_neg full]
        rfl

end Steps

/-- A method that ends as a broker's operation ends, in the state it leaves. -/
def Follows (bc : Bincode) {α : Type} (r : Outcome PelicanError α × Machine)
    (a : Outcome PelicanError α × Broker) : Prop :=
  r.1 = a.1 ∧ Refines bc r.2.manager a.2

/-! ## The methods -/

section Methods

open QueueManager

variable {bc : Bincode} (ids : Nat → UInt64) {s : Machine} {b : Broker}

theorem declare_refines (h : Refines bc s.manager b) {name : String} (policy : RetentionPolicy)
    (apart : NonColliding (name :: b.names)) :
    Follows bc ((declareQueueWithRetention bc name policy).run (handle ids) s)
      (b.declare name policy) := by
  unfold declareQueueWithRetention Broker.declare
  have registered := h.registered_get name
  cases declared : b.queue name with
  | some st =>
      rw [declared, Option.isSome_some] at registered
      rw [run_containsKey, registered]
      exact ⟨rfl, h⟩
  | none =>
      rw [declared, Option.isSome_none] at registered
      rw [run_containsKey, registered]
      exact ⟨rfl, h.held.declare policy declared apart, h.drawn, h.bytes, h.maxBytes⟩

theorem recordDedupKey_refines (h : Refines bc s.manager b) {name : String} {st : QueueState}
    (declared : b.queue name = some st) {policy : RetentionPolicy} (same : st.policy = policy)
    (m : Message) (outcome : PublishOutcome) :
    Follows bc ((recordDedupKey name m policy >>= fun _ => pure outcome).run (handle ids) s)
      (.ok outcome, b.moves ids name (st.recordDedup m s.clock)) := by
  subst same
  unfold recordDedupKey QueueState.recordDedup
  cases st.policy.dedupWindowSecs with
  | none => exact ⟨rfl, h⟩
  | some windowSecs =>
      cases m.dedupKey with
      | none => exact ⟨rfl, h⟩
      | some dedupKey => exact ⟨rfl, h.move ids declared (.record dedupKey.utf8 (s.clock 0)) rfl⟩

/-- The last steps of a publish, on either path: one write, the counter, the record. -/
theorem store_refines (h : Refines bc s.manager b) {name : String} {st : QueueState}
    (declared : b.queue name = some st) (m : Message) (due : Option Int64) {tree : String}
    {key value : Bytes}
    (write : batch bc name (Move.changes st.policy (ids b.drawn) (.store m due)) =
      [.insert tree key value]) (size : UInt64) (outcome : PublishOutcome) (clock : Nat → Int64) :
    Follows bc
      ((do
        openTree tree
        insert tree key value
        addBytes size
        recordDedupKey name m st.policy
        pure outcome : Action PublishOutcome).run (handle ids) (s.draw.withClock clock))
      (.ok outcome, (b.moves ids name (.store m due :: st.recordDedup m clock)).setBytes
        (b.bytes + size)) := by
  have stored := h.move_fresh ids declared (.store m due) rfl
  rw [write] at stored
  have kept : ((b.move ids name (.store m due)).setBytes (b.bytes + size)).queue name =
      some (st.move (ids b.drawn) (.store m due)) := Broker.move_queue declared _
  have policy : (st.move (ids b.drawn) (.store m due)).policy = st.policy :=
    QueueState.policy_changes _ _
  simp only [run_openTree, run_insert, run_addBytes]
  have current : ((s.draw.withClock clock).commit [.insert tree key value]).manager.currentBytes =
      b.bytes := h.bytes
  have counted : Refines bc ((((s.draw.withClock clock).commit [.insert tree key value]).setBytes
      (b.bytes + size)).manager) ((b.move ids name (.store m due)).setBytes (b.bytes + size)) :=
    stored.setBytes _
  have recorded := recordDedupKey_refines ids counted kept policy m outcome
  rw [current]
  rw [Broker.setBytes_moves] at recorded
  simpa only [QueueState.recordDedup, policy, Machine.clock_setBytes, Machine.clock_commit,
    Machine.clock_withClock, Broker.moves_cons] using recorded

theorem publish_refines (h : Refines bc s.manager b) (name : String) (m : Message) :
    Follows bc ((QueueManager.publish bc name m).run (handle ids) s)
      (b.publish bc ids s.clock name m) := by
  unfold QueueManager.publish Broker.publish
  cases declared : b.queue name with
  | none =>
      rw [run_requireQueue_absent h declared]
      exact ⟨rfl, h⟩
  | some st =>
      rw [run_requireQueue h declared, run_policyOf h declared, run_isDuplicate h declared]
      cases duplicate : (st.isDuplicate m s.clock).1 with
      | true =>
          simp only [duplicate, if_true]
          exact ⟨rfl, h⟩
      | false =>
          simp only [duplicate, Bool.false_eq_true, if_false]
          generalize (st.isDuplicate m s.clock).2 = clock
          have ticked : Refines bc (s.withClock clock).manager b := h
          rw [run_checkLimit ticked, ← Broker.size]
          cases b.limitError (Broker.size bc m) with
          | some e => exact ⟨rfl, h⟩
          | none =>
              have drawn : (s.withClock clock).db.drawn = b.drawn := h.drawn
              simp only [run_generateId, run_notYetDue, drawn, Machine.clock_draw,
                Machine.clock_withClock]
              cases (PelicanQ.notYetDue m clock).1 with
              | none => exact store_refines ids ticked declared m none rfl _ _ _
              | some deliverAt => exact store_refines ids ticked declared m (some deliverAt) rfl _ _ _

theorem consume_refines (h : Refines bc s.manager b) (name : String) :
    Follows bc ((QueueManager.consume bc name).run (handle ids) s) (b.consume ids name) := by
  unfold QueueManager.consume Broker.consume
  cases declared : b.queue name with
  | none =>
      rw [run_requireQueue_absent h declared]
      exact ⟨rfl, h⟩
  | some st =>
      have ready : s.db.trees name = st.tree bc .ready := h.tree declared .ready
      have entries : (st.tree bc .ready).entries =
          st.ready.entries.map fun e => (ReadyKey.bytes e.1, bc.message.encode e.2) := rfl
      rw [run_requireQueue h declared]
      simp only [run_openTree, consumeLoop, run_iter, ready, entries, List.head?_map]
      cases front : st.ready.entries.head? with
      | none => exact ⟨rfl, h⟩
      | some e =>
          obtain ⟨key, m⟩ := e
          have present : (st.tree bc .ready).get (ReadyKey.bytes key) = some (bc.message.encode m) := by
            rw [st.get_ready, OrdMap.get_eq_some.mpr (List.mem_of_mem_head? front), Option.map_some]
          have moved : (deliverTx name (ReadyKey.bytes key) (ReadyKey.id key).toBeBytes).run
              s.db.trees [] = some (bc.message.encode m,
                batch bc name (Move.changes st.policy (ids b.drawn) (.deliver key m))) := by
            simp only [deliverTx, Sled.Tx.run, ready, present]
            rfl
          simp only [Option.map_some]
          rw [slice_of_le (by rw [ReadyKey.length_bytes]), ReadyKey.idBytes_slice,
            Program.ret_bind, run_transaction_commit ids s _ moved]
          simp only [deserialize_encode, Program.ret_bind, UInt64.fromBeBytes_toBeBytes]
          exact ⟨rfl, h.move ids declared (.deliver key m) rfl⟩

theorem ack_refines (h : Refines bc s.manager b) (name : String) (tag : DeliveryTag) :
    Follows bc ((QueueManager.ack name tag).run (handle ids) s) (b.ack bc ids name tag) := by
  unfold QueueManager.ack Broker.ack
  cases declared : b.queue name with
  | none =>
      rw [run_requireQueue_absent h declared]
      exact ⟨rfl, h⟩
  | some st =>
      have inflight : (s.db.trees (inflightTreeName name)).get tag.toBeBytes =
          (st.inflight.get tag).map bc.message.encode := by
        rw [show inflightTreeName name = Role.inflight.treeName name from rfl, h.tree declared,
          st.get_inflight]
      rw [run_requireQueue h declared]
      simp only [run_openTree]
      cases found : st.inflight.get tag with
      | none =>
          rw [found] at inflight
          rw [run_remove_absent ids s _ inflight]
          exact ⟨rfl, h⟩
      | some m =>
          rw [found] at inflight
          rw [run_remove_present ids s _ inflight]
          have settled := h.move ids declared (.settle tag m) rfl
          have current : (s.commit [.remove (inflightTreeName name) tag.toBeBytes]).manager.currentBytes
              = b.bytes := h.bytes
          simp only [run_currentBytes, run_setCurrentBytes_last, current]
          exact ⟨rfl, settled.setBytes _⟩

theorem nack_refines (h : Refines bc s.manager b) (name : String) (tag : DeliveryTag) :
    Follows bc ((QueueManager.nack bc name tag).run (handle ids) s) (b.nack ids name tag) := by
  unfold QueueManager.nack Broker.nack
  cases declared : b.queue name with
  | none =>
      rw [run_requireQueue_absent h declared]
      exact ⟨rfl, h⟩
  | some st =>
      have inflight : (s.draw.db.trees (inflightTreeName name)).get tag.toBeBytes =
          (st.inflight.get tag).map bc.message.encode := by
        rw [show inflightTreeName name = Role.inflight.treeName name from rfl, Machine.db_draw,
          Sled.Db.trees_draw, h.tree declared, st.get_inflight]
      have drawn : s.db.drawn = b.drawn := h.drawn
      rw [run_requireQueue h declared, run_policyOf h declared]
      simp only [run_openTree, run_generateId, drawn]
      cases found : st.inflight.get tag with
      | none =>
          rw [found, Option.map_none] at inflight
          rw [run_transaction_abort ids s.draw _ (by simp only [returnTx, Sled.Tx.run, inflight])]
          exact ⟨rfl, h.draw⟩
      | some m =>
          rw [found, Option.map_some] at inflight
          have moved : (returnTx bc name st.policy tag (ids b.drawn)).run s.draw.db.trees [] =
              some ((), batch bc name (Move.changes st.policy (ids b.drawn) (.retry tag m))) := by
            simp only [returnTx, Sled.Tx.run, inflight, bc.message.decode_encode, Move.changes,
              Message.retried]
            by_cases dead : exhausted st.policy.maxDeliveryAttempts (m.deliveryAttempts + 1)
            · simp only [dead, if_true]
              rfl
            · simp only [dead]
              rfl
          rw [run_transaction_commit ids s.draw _ moved]
          exact ⟨rfl, h.move_fresh ids declared (.retry tag m) rfl⟩

/-! ### The loops

Each loop runs over a list that was read before it started; the induction is on
that list, and the state it starts from is arbitrary.
-/

/-- An encoded list of scheduled entries, as the scan reads it. -/
def encodedDue (bc : Bincode) (e : DueKey × Message) : Bytes × Bytes :=
  (DueKey.bytes e.1, bc.message.encode e.2)

/-- An encoded list of ready entries. -/
def encodedReady (bc : Bincode) (e : ReadyKey × Message) : Bytes × Bytes :=
  (ReadyKey.bytes e.1, bc.message.encode e.2)

theorem collectDue_encoded (now : Int64) (entries : List (DueKey × Message)) :
    collectDue now (entries.map (encodedDue bc)) =
      .ret ((entries.takeWhile fun e => !decide (now < (DueKey.due e.1).toInt64)).map
        (encodedDue bc)) := by
  induction entries with
  | nil => rfl
  | cons e entries ih =>
      have read : slice (encodedDue bc e).1 0 8 = .ret ((DueKey.bytes e.1).take 8) :=
        slice_of_le (by simp [encodedDue])
      rw [List.map_cons, collectDue, read, Program.ret_bind, DueKey.due_slice, ih]
      by_cases early : now < (DueKey.due e.1).toInt64
      · rw [if_pos early, List.takeWhile_cons_of_neg (by simpa using early)]
        rfl
      · rw [if_neg early, List.takeWhile_cons_of_pos (by simpa using early)]
        rfl

theorem promoteEach_refines (h : Refines bc s.manager b) {name : String} {st : QueueState}
    (declared : b.queue name = some st) (entries : List (DueKey × Message)) (promoted : Nat) :
    Follows bc
      ((promoteEach bc name (entries.map (encodedDue bc)) promoted).run (handle ids) s)
      (.ok (promoted + entries.length),
        b.moves ids name (entries.map fun e => .promote e.1 e.2)) := by
  induction entries generalizing s b st promoted with
  | nil => exact ⟨rfl, h⟩
  | cons e entries ih =>
      have drawn : s.db.drawn = b.drawn := h.drawn
      have moved : (promoteTx name (DueKey.bytes e.1) (encodeKey e.2.priority (ids b.drawn))
          (bc.message.encode e.2)).run s.draw.db.trees [] = some ((),
            batch bc name (Move.changes st.policy (ids b.drawn) (.promote e.1 e.2))) := rfl
      rw [List.map_cons, encodedDue, promoteEach, deserialize_encode, Program.ret_bind,
        run_generateId, drawn, run_transaction_commit ids s.draw _ moved, List.length_cons,
        Nat.add_comm entries.length, ← Nat.add_assoc]
      exact ih (h.move_fresh ids declared (.promote e.1 e.2) rfl) (Broker.move_queue declared _) _

theorem promoteScheduled_refines (h : Refines bc s.manager b) (name : String) :
    Follows bc ((QueueManager.promoteScheduled bc name).run (handle ids) s)
      (b.promoteScheduled ids s.clock name) := by
  unfold QueueManager.promoteScheduled Broker.promoteScheduled
  cases declared : b.queue name with
  | none =>
      rw [run_requireQueue_absent h declared]
      exact ⟨rfl, h⟩
  | some st =>
      have scheduled : s.tick.db.trees (scheduledTreeName name) = st.tree bc .scheduled :=
        h.tree declared .scheduled
      have entries : (st.tree bc .scheduled).entries =
          st.scheduled.entries.map (encodedDue bc) := rfl
      rw [run_requireQueue h declared]
      simp only [run_openTree, run_nowMs, run_iter, scheduled, entries, collectDue_encoded,
        Program.ret_bind]
      have ticked : Refines bc s.tick.manager b := h
      have each := promoteEach_refines ids ticked declared (st.due (s.clock 0)) 0
      rwa [Nat.zero_add] at each

/-- Removing keys one by one, whether or not they are there. -/
theorem removeAll_refines {K : Type} (h : Refines bc s.manager b) {name : String}
    {st : QueueState} (declared : b.queue name = some st) (role : Role) (drop : K → Change)
    (bytes : K → Bytes) (roles : ∀ k, (drop k).role = role)
    (writes : ∀ k, (drop k).write bc name = .remove (role.treeName name) (bytes k))
    (keys : List K) {α : Type} (next : Unit → Action α) :
    ∃ s' : Machine, s'.clock = s.clock ∧ Refines bc s'.manager (b.change name (keys.map drop)) ∧
      (removeAll (role.treeName name) (keys.map bytes) >>= next).run (handle ids) s =
        (next ()).run (handle ids) s' := by
  induction keys generalizing s b st with
  | nil =>
      refine ⟨s, rfl, ?_, rfl⟩
      rw [List.map_nil, b.change_nil]
      exact h
  | cons key keys ih =>
      have tree := h.tree declared role
      rw [List.map_cons, List.map_cons, removeAll, Program.bind_assoc, b.change_cons]
      cases found : (st.tree bc role).get (bytes key) with
      | none =>
          have same : b.change name [drop key] = b :=
            Broker.change_same declared (QueueState.apply_absent (writes key) (roles key ▸ found))
          rw [run_remove_absent ids s _ (tree ▸ found), same]
          exact ih h declared
      | some value =>
          have dropped := h.commit declared [drop key]
          rw [batch, List.map_singleton, writes] at dropped
          rw [run_remove_present ids s _ (tree ▸ found)]
          exact ih dropped (Broker.change_queue declared _)

theorem run_listQueues (h : Refines bc s.manager b) {α : Type} (next : List String → Action α) :
    (listQueues >>= next).run (handle ids) s = (next b.names).run (handle ids) s := by
  have names : ((s.db.trees metaQueuesTree).entries.filterMap fun e => String.ofUtf8 e.1) =
      b.names := by
    rw [Machine.db, h.held.registered, OrdMap.mapValues_entries, List.filterMap_map, Broker.names,
      OrdMap.keys, List.filterMap_map]
    rfl
  rw [listQueues, Program.bind_assoc, run_iter, names]
  rfl

theorem run_addTreeBytes (total : UInt64) (tree : String) {α : Type} (next : UInt64 → Action α) :
    (addTreeBytes total tree >>= next).run (handle ids) s =
      (next (Broker.addTree total (s.db.trees tree))).run (handle ids) s := rfl

theorem run_recalculateBytes (h : Refines bc s.manager b) {α : Type} (next : UInt64 → Action α) :
    (recalculateBytes >>= next).run (handle ids) s =
      (next (b.totalBytes bc)).run (handle ids) s := by
  have declaredAll : ∀ name ∈ b.names, ∃ st, b.queue name = some st := fun name member =>
    h.held.mem_names.mp member
  rw [recalculateBytes, Program.bind_assoc, run_listQueues ids h, Broker.totalBytes]
  generalize (0 : UInt64) = total
  generalize b.names = names at declaredAll
  induction names generalizing total with
  | nil => rfl
  | cons name names ih =>
      obtain ⟨st, declared⟩ := declaredAll name List.mem_cons_self
      have tree (role : Role) := h.tree declared role
      simp only [List.foldlM_cons, Program.bind_assoc, run_addTreeBytes]
      rw [ih _ fun name' member => declaredAll name' (List.mem_cons_of_mem _ member)]
      rw [List.foldl_cons, declared, Option.map_some, Option.getD_some]
      simp only [Broker.treesOf, ← tree, List.foldl_cons, List.foldl_nil]
      rfl

theorem collectExpired_encoded (now maxAgeMs : Int64) (entries : List (ReadyKey × Message)) :
    collectExpired bc now maxAgeMs (entries.map (encodedReady bc)) =
      .ret ((entries.filter fun e => decide (maxAgeMs ≤ now - e.2.timestamp)).map
        fun e => ReadyKey.bytes e.1) := by
  induction entries with
  | nil => rfl
  | cons e entries ih =>
      rw [List.map_cons, encodedReady, collectExpired, deserialize_encode, Program.ret_bind, ih]
      by_cases old : maxAgeMs ≤ now - e.2.timestamp
      · rw [List.filter_cons_of_pos (by simpa using old)]
        simp only [Program.ret_bind, if_pos old]
        rfl
      · rw [List.filter_cons_of_neg (by simpa using old)]
        simp only [Program.ret_bind, if_neg old]
        rfl

/-- Removing listed entries of the ready tree is discarding them. -/
theorem run_removeReady (h : Refines bc s.manager b) {name : String} {st : QueueState}
    (declared : b.queue name = some st) (entries : List (ReadyKey × Message)) {α : Type}
    (next : Unit → Action α) :
    ∃ s' : Machine, Refines bc s'.manager (b.discardAll ids name entries) ∧
      (removeAll name (entries.map fun e => ReadyKey.bytes e.1) >>= next).run (handle ids) s =
        (next ()).run (handle ids) s' := by
  obtain ⟨s', -, after, run⟩ := removeAll_refines ids h declared .ready
    (fun e : ReadyKey × Message => .dropReady e.1) (fun e => ReadyKey.bytes e.1) (fun _ => rfl)
    (fun _ => rfl) entries next
  rw [← Broker.discardAll_change ids declared] at after
  exact ⟨s', after, run⟩

theorem run_removeExpired (h : Refines bc s.manager b) {name : String} {st : QueueState}
    (declared : b.queue name = some st) {α : Type} (next : Nat → Action α) :
    ∃ s' : Machine,
      Refines bc s'.manager (b.discardAll ids name (st.expired (s.clock 0))) ∧
      (removeExpired bc name st.policy.maxAgeSecs >>= next).run (handle ids) s =
        (next (st.expired (s.clock 0)).length).run (handle ids) s' := by
  unfold QueueState.expired
  cases st.policy.maxAgeSecs with
  | none => exact ⟨s, h, rfl⟩
  | some maxAgeSecs =>
      have ready : s.tick.db.trees name = st.tree bc .ready := h.tree declared .ready
      have entries : (st.tree bc .ready).entries = st.ready.entries.map (encodedReady bc) := rfl
      have ticked : Refines bc s.tick.manager b := h
      simp only [removeExpired, Program.bind_assoc, run_nowMs, run_iter, ready, entries,
        collectExpired_encoded, Program.ret_bind, List.length_map]
      exact run_removeReady ids ticked declared _ _

theorem run_removeExcess (h : Refines bc s.manager b) {name : String} {st : QueueState}
    (declared : b.queue name = some st) {α : Type} (next : Nat → Action α) :
    ∃ s' : Machine, Refines bc s'.manager (b.discardAll ids name st.excess) ∧
      (removeExcess name st.policy.maxMessages >>= next).run (handle ids) s =
        (next st.excess.length).run (handle ids) s' := by
  unfold QueueState.excess
  cases st.policy.maxMessages with
  | none => exact ⟨s, h, rfl⟩
  | some maxMessages =>
      have ready : s.db.trees name = st.tree bc .ready := h.tree declared .ready
      have entries : (st.tree bc .ready).entries = st.ready.entries.map (encodedReady bc) := rfl
      simp only [removeExcess, Program.bind_assoc, run_iter, ready, entries, List.length_map]
      by_cases exceeded : maxMessages.toNat < st.ready.entries.length
      · simp only [if_pos exceeded, Program.bind_assoc, ← List.map_take, List.map_map,
          List.length_map]
        exact run_removeReady ids h declared _ _
      · rw [if_neg exceeded, Nat.sub_eq_zero_of_le (Nat.le_of_not_lt exceeded)]
        exact ⟨s, h, rfl⟩

theorem applyRetention_refines (h : Refines bc s.manager b) (name : String) :
    Follows bc ((QueueManager.applyRetention bc name).run (handle ids) s)
      (b.applyRetention bc ids s.clock name) := by
  unfold QueueManager.applyRetention Broker.applyRetention
  cases declared : b.queue name with
  | none =>
      rw [run_requireQueue_absent h declared]
      exact ⟨rfl, h⟩
  | some st =>
      rw [run_requireQueue h declared, run_policyOf h declared]
      by_cases off : st.policy.maxAgeSecs = none ∧ st.policy.maxMessages = none
      · have expired : st.expired (s.clock 0) = [] := by rw [QueueState.expired, off.1]
        have excess : st.excess = [] := by rw [QueueState.excess, off.2]
        have unchanged : b.discardAll ids name [] = b := rfl
        simp only [if_pos off, expired, unchanged, declared, Option.map_some, Option.getD_some,
          excess, List.length_nil]
        exact ⟨rfl, h⟩
      · obtain ⟨s₁, first, run₁⟩ := run_removeExpired ids h declared fun expired => do
          let excess ← removeExcess name st.policy.maxMessages
          let removed := expired + excess
          if 0 < removed then
            let total ← recalculateBytes
            .ask (.setCurrentBytes total)
            pure removed
          else pure removed
        simp only [if_neg off, run_openTree]
        rw [run₁]
        have change := Broker.discardAll_change ids declared (st.expired (s.clock 0))
        have declared₁ := Broker.change_queue declared
          ((st.expired (s.clock 0)).map fun e => .dropReady e.1)
        rw [← change] at declared₁
        have policy := QueueState.policy_changes
          ((st.expired (s.clock 0)).map fun e => .dropReady e.1) st
        generalize b.discardAll ids name (st.expired (s.clock 0)) = b₁ at *
        generalize List.foldl QueueState.apply st _ = st₁ at *
        rw [← policy, declared₁, Option.map_some, Option.getD_some]
        obtain ⟨s₂, second, run₂⟩ := run_removeExcess ids first declared₁ fun excess => do
          let removed := (st.expired (s.clock 0)).length + excess
          if 0 < removed then
            let total ← recalculateBytes
            .ask (.setCurrentBytes total)
            pure removed
          else pure removed
        rw [run₂, Broker.recount]
        by_cases some : 0 < (st.expired (s.clock 0)).length + st₁.excess.length
        · simp only [if_pos some, run_recalculateBytes ids second]
          exact ⟨rfl, second.setBytes _⟩
        · simp only [if_neg some]
          exact ⟨rfl, second⟩

/-- An encoded in-flight entry. -/
def encodedInflight (bc : Bincode) (e : UInt64 × Message) : Bytes × Bytes :=
  (e.1.toBeBytes, bc.message.encode e.2)

theorem run_requeueAll (h : Refines bc s.manager b) {name : String} {st : QueueState}
    (declared : b.queue name = some st) (entries : List (UInt64 × Message)) {α : Type}
    (next : Unit → Action α) :
    ∃ s' : Machine,
      Refines bc s'.manager ((b.change name
        (Broker.requeues ids b.drawn (entries.map Prod.snd))).advance entries.length) ∧
      (requeueAll bc name (entries.map (encodedInflight bc)) >>= next).run (handle ids) s =
        (next ()).run (handle ids) s' := by
  induction entries generalizing s b st with
  | nil =>
      refine ⟨s, ?_, rfl⟩
      rw [List.map_nil, Broker.requeues, b.change_nil]
      exact h
  | cons e entries ih =>
      have drawn : s.db.drawn = b.drawn := h.drawn
      have copied := h.draw.commit declared
        [.putReady (readyKey e.2.priority (ids b.drawn)) e.2]
      have declared' : (b.advance 1).queue name = some st := declared
      obtain ⟨s', after, run⟩ := ih copied (Broker.change_queue declared' _)
      refine ⟨s', ?_, ?_⟩
      · rw [Broker.advance_change, Broker.advance_change, Broker.change_change,
          Broker.advance_advance, Broker.drawn_advance, Broker.drawn_change] at after
        rw [List.map_cons, Broker.requeues, List.length_cons, Nat.add_comm entries.length]
        exact after
      · rw [List.map_cons, encodedInflight, requeueAll, deserialize_encode, Program.bind_assoc,
          Program.ret_bind, Program.bind_assoc, run_generateId, drawn, Program.bind_assoc,
          run_insert]
        exact run

theorem run_recoverQueue (h : Refines bc s.manager b) {name : String} {st : QueueState}
    (declared : b.queue name = some st) {α : Type} (next : Unit → Action α) :
    ∃ s' : Machine, Refines bc s'.manager (b.recoverQueue ids name) ∧
      (QueueManager.recoverQueue bc name >>= next).run (handle ids) s =
        (next ()).run (handle ids) s' := by
  have inflight : s.db.trees (inflightTreeName name) = st.tree bc .inflight :=
    h.tree declared .inflight
  have entries : (st.tree bc .inflight).entries =
      st.inflight.entries.map (encodedInflight bc) := rfl
  simp only [QueueManager.recoverQueue, Program.bind_assoc, run_openTree, run_iter, inflight,
    entries, List.map_map]
  obtain ⟨s₁, first, run₁⟩ := run_requeueAll ids h declared st.inflight.entries fun _ => do
    removeAll (inflightTreeName name)
      (st.inflight.entries.map (Prod.fst ∘ encodedInflight bc))
    next ()
  obtain ⟨s₂, -, second, run₂⟩ := removeAll_refines ids first (Broker.change_queue declared _)
    .inflight (fun e : UInt64 × Message => .dropInflight e.1) (fun e => e.1.toBeBytes)
    (fun _ => rfl) (fun _ => rfl) st.inflight.entries next
  refine ⟨s₂, ?_, run₁.trans run₂⟩
  rw [Broker.advance_change, Broker.change_change, ← Broker.moves_requeue ids declared] at second
  simpa only [Broker.recoverQueue, declared] using second

theorem recoverEach_refines (h : Refines bc s.manager b) {names : List String}
    (declaredAll : ∀ name ∈ names, ∃ st, b.queue name = some st) :
    Follows bc ((recoverEach bc names).run (handle ids) s)
      (.ok (), names.foldl (Broker.recoverQueue ids) b) := by
  induction names generalizing s b with
  | nil => exact ⟨rfl, h⟩
  | cons name names ih =>
      obtain ⟨st, declared⟩ := declaredAll name List.mem_cons_self
      obtain ⟨s', after, run⟩ := run_recoverQueue ids h declared fun _ => recoverEach bc names
      rw [recoverEach, run]
      refine ih after fun name' member => ?_
      rw [← after.held.mem_names, Broker.recoverQueue_names, h.held.mem_names]
      exact declaredAll name' (List.mem_cons_of_mem _ member)

theorem open_refines {db : Sled.Db} (held : Represents bc db b) (drawn : db.drawn = b.drawn)
    (clock : Nat → Int64) (maxBytes : Option UInt64) :
    Follows bc ((openBody bc).run (handle ids) ⟨⟨db, 0, maxBytes⟩, clock⟩)
      (.ok (), b.reopen bc ids maxBytes) := by
  let empty : Broker := { b with bytes := 0, maxBytes := maxBytes }
  have start : Refines bc (Machine.mk ⟨db, 0, maxBytes⟩ clock).manager empty :=
    ⟨held.congr rfl, drawn, rfl, rfl⟩
  have counted := start.setBytes (empty.totalBytes bc)
  simp only [openBody, run_openTree, run_recalculateBytes ids start, run_setCurrentBytes,
    recoverInflight]
  rw [run_listQueues ids counted]
  exact recoverEach_refines ids counted fun name member => counted.held.mem_names.mp member

end Methods

end PelicanQ
