import PelicanQ.Guarantees.Isolation

/-! # Where isolation ends

Isolation fails for every pair of names that collides: a few operations on one
queue then show up in the other.  Each kind of collision has its own run, executed
here on arbitrary names.  Together with the footprints this makes the naming
condition exact.
-/

namespace PelicanQ

open Sled (Write applyWrite)

/-! ## Names that collide -/

section Names

variable {a b : String}

/-- A name with a role in front is never a metadata tree. -/
theorem Role.treeName_ne_meta {role : Role} (derived : role ≠ .ready) :
    role.treeName a ≠ metaQueuesTree ∧ role.treeName a ≠ metaRetentionTree := by
  constructor <;> intro same <;> replace same := congrArg String.toList same <;>
    cases role <;>
    simp [Role.treeName, inflightTreeName, dlqTreeName, scheduledTreeName, dedupTreeName,
      metaQueuesTree, metaRetentionTree, String.toList_append] at same derived

/-- Two names with a role in front are the same only for the same name. -/
theorem Role.treeName_derived {r r' : Role} (derived : r ≠ .ready) (derived' : r' ≠ .ready)
    (same : r.treeName a = r'.treeName b) : a = b := by
  replace same := congrArg String.toList same
  cases r <;> cases r' <;>
    simp [Role.treeName, inflightTreeName, dlqTreeName, scheduledTreeName, dedupTreeName,
      String.toList_append] at same derived derived' <;>
    exact String.toList_injective same

/-- Two queues collide only where the bare name of one is another tree of the other, or
    a metadata tree. -/
theorem nonColliding_pair (plainA : a ≠ metaQueuesTree ∧ a ≠ metaRetentionTree)
    (plainB : b ≠ metaQueuesTree ∧ b ≠ metaRetentionTree)
    (fromA : ∀ role : Role, role ≠ .ready → b ≠ role.treeName a)
    (fromB : ∀ role : Role, role ≠ .ready → a ≠ role.treeName b) : NonColliding [a, b] := by
  have cross {r r' : Role} (same : r.treeName a = r'.treeName b) : a = b := by
    by_cases bare : r = .ready
    · by_cases bare' : r' = .ready
      · rw [bare, bare'] at same
        exact same
      · exact (fromB r' bare' (by rwa [bare] at same)).elim
    · by_cases bare' : r' = .ready
      · exact (fromA r bare (by rw [bare'] at same; exact same.symm)).elim
      · exact Role.treeName_derived bare bare' same
  have plain (name : String) (member : name ∈ [a, b]) (role : Role) :
      role.treeName name ≠ metaQueuesTree ∧ role.treeName name ≠ metaRetentionTree := by
    by_cases bare : role = .ready
    · rw [bare]
      rcases List.mem_pair.mp member with rfl | rfl
      · exact plainA
      · exact plainB
    · exact Role.treeName_ne_meta bare
  refine ⟨?_, fun name member role => (plain name member role).1,
    fun name member role => (plain name member role).2⟩
  intro x fromX y fromY r r' same
  rcases List.mem_pair.mp fromX with rfl | rfl <;> rcases List.mem_pair.mp fromY with rfl | rfl
  · rfl
  · exact cross same
  · exact (cross same.symm).symm
  · rfl

end Names

/-! ## Two fresh queues -/

section Runs

open QueueManager

variable {bc : Bincode} {ids : Nat → UInt64} {a b : String} {qm : QueueManager}

/-- The manager after a declaration that succeeds. -/
def declaredIn (bc : Bincode) (qm : QueueManager) (name : String) (policy : RetentionPolicy) :
    QueueManager :=
  { qm with
    db := (qm.db.commit [.insert metaQueuesTree name.utf8 []]).commit
      [.insert metaRetentionTree name.utf8 (bc.policy.encode policy)] }

theorem declare_succeeds {step : Step} {name : String} {policy : RetentionPolicy}
    (op : step.op = .declareQueueWithRetention name policy)
    (absent : (qm.db.trees metaQueuesTree).get name.utf8 = none) :
    (performed bc ids qm step).after = declaredIn bc qm name policy := by
  rw [performed, op]
  change (((declareQueueWithRetention bc name policy).run (handle ids) ⟨qm, step.clock⟩).2).manager = _
  have found : (((Machine.mk qm step.clock).db.trees metaQueuesTree).get name.utf8).isSome =
      false := by
    rw [show (Machine.mk qm step.clock).db = qm.db from rfl, absent, Option.isSome_none]
  rw [declareQueueWithRetention, run_containsKey, found]
  rfl

theorem declaredIn_queues (name : String) (policy : RetentionPolicy) :
    (declaredIn bc qm name policy).db.trees metaQueuesTree =
      (qm.db.trees metaQueuesTree).insert name.utf8 [] := rfl

theorem declaredIn_policies (name : String) (policy : RetentionPolicy) :
    (declaredIn bc qm name policy).db.trees metaRetentionTree =
      (qm.db.trees metaRetentionTree).insert name.utf8 (bc.policy.encode policy) := rfl

theorem declaredIn_rest (name : String) (policy : RetentionPolicy) {tree : String}
    (notQueues : tree ≠ metaQueuesTree) (notRetention : tree ≠ metaRetentionTree) :
    (declaredIn bc qm name policy).db.trees tree = qm.db.trees tree := by
  simp only [declaredIn, Sled.Db.trees_commit, Sled.applyBatch_cons, Sled.applyBatch_nil]
  rw [Sled.applyWrite_other _ notRetention, Sled.applyWrite_other _ notQueues]

theorem utf8_ne (different : a ≠ b) : b.utf8 ≠ a.utf8 := fun same =>
  different (String.utf8_injective same).symm

/-- Two queues declared in an empty directory. -/
def pair (bc : Bincode) (ids : Nat → UInt64) (a b : String) (policy policy' : RetentionPolicy) :
    QueueManager :=
  declaredIn bc (declaredIn bc (started bc ids none) a policy) b policy'

def declarations (a b : String) (policy policy' : RetentionPolicy) : List Step :=
  [⟨.declareQueueWithRetention a policy, fun _ => 0⟩,
    ⟨.declareQueueWithRetention b policy', fun _ => 0⟩]

theorem final_declarations (different : a ≠ b) (policy policy' : RetentionPolicy) :
    final bc ids (started bc ids none) (declarations a b policy policy') =
      pair bc ids a b policy policy' := by
  have absent : ((declaredIn bc (started bc ids none) a policy).db.trees metaQueuesTree).get
      b.utf8 = none := by
    rw [declaredIn_queues, OrdMap.get_insert, if_neg (utf8_ne different)]
    rfl
  have first : (performed bc ids (started bc ids none)
      ⟨.declareQueueWithRetention a policy, fun _ => 0⟩).after =
        declaredIn bc (started bc ids none) a policy := declare_succeeds rfl rfl
  rw [final, declarations, List.foldl_cons, first]
  exact declare_succeeds rfl absent

section Pair

variable {policy policy' : RetentionPolicy}

theorem pair_registered (different : a ≠ b) :
    ((pair bc ids a b policy policy').db.trees metaQueuesTree).get a.utf8 = some [] := by
  rw [pair, declaredIn_queues, declaredIn_queues, OrdMap.get_insert,
    if_neg (utf8_ne different.symm), OrdMap.get_insert, if_pos rfl]

theorem pair_registered_other :
    ((pair bc ids a b policy policy').db.trees metaQueuesTree).get b.utf8 = some [] := by
  rw [pair, declaredIn_queues, OrdMap.get_insert, if_pos rfl]

theorem pair_policy (different : a ≠ b) :
    ((pair bc ids a b policy policy').db.trees metaRetentionTree).get a.utf8 =
      some (bc.policy.encode policy) := by
  rw [pair, declaredIn_policies, declaredIn_policies, OrdMap.get_insert,
    if_neg (utf8_ne different.symm), OrdMap.get_insert, if_pos rfl]

theorem pair_policy_other :
    ((pair bc ids a b policy policy').db.trees metaRetentionTree).get b.utf8 =
      some (bc.policy.encode policy') := by
  rw [pair, declaredIn_policies, OrdMap.get_insert, if_pos rfl]

theorem pair_rest {tree : String} (plain : tree ≠ metaQueuesTree ∧ tree ≠ metaRetentionTree) :
    (pair bc ids a b policy policy').db.trees tree = .empty := by
  rw [pair, declaredIn_rest _ _ plain.1 plain.2, declaredIn_rest _ _ plain.1 plain.2]
  rfl

end Pair

/-! ## What the operations do to them -/

/-- Keys that are removed one by one are gone, and none comes back. -/
theorem run_removeAll_gone (ids : Nat → UInt64) (s : Machine) (tree : String) (keys : List Bytes)
    {α : Type} (next : Unit → Action α) :
    ∃ s' : Machine, (removeAll tree keys >>= next).run (handle ids) s = (next ()).run (handle ids) s' ∧
      ∀ key, key ∈ keys ∨ (s.db.trees tree).get key = none → (s'.db.trees tree).get key = none := by
  obtain ⟨s', left, run⟩ := run_removeAll ids s tree keys next
  refine ⟨s', run, fun key listed => ?_⟩
  rw [left, OrdMap.get_foldl_erase]
  rcases listed with member | absent
  · exact if_pos member
  · rw [absent, ite_self]

/-- A manager as a method finds it at time zero. -/
def atZero (qm : QueueManager) : Machine := ⟨qm, fun _ => 0⟩

@[simp] theorem atZero_db (qm : QueueManager) : (atZero qm).db = qm.db := rfl

/-- A queue that operations find, with the policy they read. -/
structure Known (bc : Bincode) (qm : QueueManager) (a : String) (policy : RetentionPolicy) :
    Prop where
  registered : (qm.db.trees metaQueuesTree).get a.utf8 = some []
  record : (qm.db.trees metaRetentionTree).get a.utf8 = some (bc.policy.encode policy)

namespace Known

variable {policy : RetentionPolicy} {α : Type}

/-- The first two steps of a method. -/
theorem run_requireQueue (known : Known bc qm a policy) (next : Unit → Action α) :
    (requireQueue a >>= next).run (handle ids) (atZero qm) =
      (next ()).run (handle ids) (atZero qm) :=
  run_requireQueue_found ids (atZero qm) next (congrArg Option.isSome known.registered)

theorem run_policyOf (known : Known bc qm a policy) (next : RetentionPolicy → Action α) :
    (policyOf bc a >>= next).run (handle ids) (atZero qm) =
      (next policy).run (handle ids) (atZero qm) :=
  run_policyOf_record ids (atZero qm) next known.record

end Known

/-- Retention with a limit of no messages empties the ready tree of its queue, whatever
    that tree is. -/
theorem applyRetention_empties (ids : Nat → UInt64)
    (known : Known bc qm a { maxMessages := some 0 }) (key : Bytes) :
    (((Operation.applyRetention a).perform bc ids (fun _ => 0) qm).2.db.trees a).get key = none := by
  change (((applyRetention bc a).run (handle ids) (atZero qm)).2.db.trees a).get key = none
  rw [applyRetention, known.run_requireQueue, known.run_policyOf]
  simp only [reduceCtorEq, and_false, if_false, run_openTree, removeExpired, Program.pure_eq,
    Program.ret_bind, removeExcess, Program.bind_assoc, run_iter, UInt64.toNat_zero,
    Nat.sub_zero, List.take_length]
  have listed : key ∈ ((atZero qm).db.trees a).keys ∨ ((atZero qm).db.trees a).get key = none := by
    rw [OrdMap.get_eq_none]
    exact em _
  have tail (removed : Nat) : (do
      let total ← recalculateBytes
      .ask (.setCurrentBytes total)
      pure removed : Action Nat).Only (Call.Within fun _ _ => False) :=
    .bind (only_recalculateBytes _) fun _ => .bind (.ask trivial) fun _ => trivial
  by_cases some : 0 < ((atZero qm).db.trees a).entries.length
  · simp only [if_pos some, Program.bind_assoc, Program.ret_bind]
    obtain ⟨s', run, gone⟩ := run_removeAll_gone ids (atZero qm) a ((atZero qm).db.trees a).keys fun _ =>
      if 0 < 0 + (((atZero qm).db.trees a).entries.map Prod.fst).length then do
        let total ← recalculateBytes
        .ask (.setCurrentBytes total)
        pure (0 + (((atZero qm).db.trees a).entries.map Prod.fst).length)
      else pure (0 + (((atZero qm).db.trees a).entries.map Prod.fst).length)
    rw [Nat.zero_add, List.length_map, if_pos some] at run
    rw [Nat.zero_add, List.length_map, if_pos some]
    refine (congrArg (fun r => (r.2.db.trees a).get key) run).trans ?_
    rw [exec_outside (tail _) ids s' not_false]
    exact gone key listed
  · have none_there : ((atZero qm).db.trees a).entries = [] :=
      List.eq_nil_of_length_eq_zero (Nat.eq_zero_of_not_pos some)
    simp only [none_there, List.length_nil, Nat.lt_irrefl, if_false, Program.ret_bind]
    rw [Program.run_ret, OrdMap.get_eq_none, OrdMap.keys, none_there]
    exact List.not_mem_nil

/-- A message of no importance. -/
def probe : Message := ⟨0, [], [], 0, 0, 0, none, none⟩

/-- A message without a dedup key is never looked up and leaves no record. -/
theorem keyless {m : Message} (none_set : m.dedupKey = none) (policy : RetentionPolicy) :
    isDuplicate a m policy = .ret false ∧ recordDedupKey a m policy = .ret () := by
  unfold isDuplicate recordDedupKey
  rw [none_set]
  cases policy.dedupWindowSecs <;> exact ⟨rfl, rfl⟩

theorem publish_ready (ids : Nat → UInt64) {policy : RetentionPolicy}
    (known : Known bc qm a policy) (unlimited : qm.maxBytes = none) :
    ((Operation.publish a probe).perform bc ids (fun _ => 0) qm).2.db.trees =
      applyWrite qm.db.trees
        (.insert a (encodeKey 0 (ids qm.db.drawn)) (bc.message.encode probe)) := by
  obtain ⟨noDuplicate, noRecord⟩ := keyless (a := a) (m := probe) rfl policy
  change ((publish bc a probe).run (handle ids) (atZero qm)).2.db.trees = _
  rw [publish, known.run_requireQueue, known.run_policyOf, noDuplicate, noRecord, Program.ret_bind, if_neg Bool.false_ne_true,
    run_checkLimit_unlimited ids (atZero qm) _ _ unlimited]
  rfl

def laterProbe : Message := { probe with deliverAt := some 1 }

theorem publish_scheduled (ids : Nat → UInt64) {policy : RetentionPolicy}
    (known : Known bc qm a policy) (unlimited : qm.maxBytes = none) :
    ((Operation.publish a laterProbe).perform bc ids (fun _ => 0) qm).2.db.trees =
      applyWrite qm.db.trees
        (.insert (scheduledTreeName a) (encodeScheduledKey 1 (ids qm.db.drawn))
          (bc.message.encode laterProbe)) := by
  obtain ⟨noDuplicate, noRecord⟩ := keyless (a := a) (m := laterProbe) rfl policy
  change ((publish bc a laterProbe).run (handle ids) (atZero qm)).2.db.trees = _
  rw [publish, known.run_requireQueue, known.run_policyOf, noDuplicate, noRecord, Program.ret_bind, if_neg Bool.false_ne_true,
    run_checkLimit_unlimited ids (atZero qm) _ _ unlimited]
  have due : QueueManager.notYetDue laterProbe = (nowMs >>= fun now =>
    pure (if now < 1 then some 1 else none) : Action (Option Int64)) := rfl
  simp only [run_generateId, due, Program.bind_assoc, run_nowMs,
    if_pos (show (atZero qm).draw.clock 0 < 1 from show (0 : Int64) < 1 by decide)]
  rfl

def keyedProbe : Message := { probe with dedupKey := some "" }

/-- With a window of no length nothing is a duplicate, and keys are recorded. -/
theorem publish_keyed (ids : Nat → UInt64) (known : Known bc qm a { dedupWindowSecs := some 0 })
    (unlimited : qm.maxBytes = none) :
    ((Operation.publish a keyedProbe).perform bc ids (fun _ => 0) qm).2.db.trees =
      applyWrite
        (applyWrite qm.db.trees
          (.insert a (encodeKey 0 (ids qm.db.drawn)) (bc.message.encode keyedProbe)))
        (.insert (dedupTreeName a) "".utf8 (0 : Int64).toBeBytes) := by
  have noDuplicate : isDuplicate a keyedProbe { dedupWindowSecs := some 0 } = .ret false := rfl
  change ((publish bc a keyedProbe).run (handle ids) (atZero qm)).2.db.trees = _
  rw [publish, known.run_requireQueue, known.run_policyOf, noDuplicate, Program.ret_bind, if_neg Bool.false_ne_true,
    run_checkLimit_unlimited ids (atZero qm) _ _ unlimited]
  rfl

theorem consume_delivers (ids : Nat → UInt64) {policy : RetentionPolicy}
    (known : Known bc qm a policy) {id : UInt64}
    (only : qm.db.trees a = OrdMap.empty.insert (encodeKey 0 id) (bc.message.encode probe)) :
    ((Operation.consume a).perform bc ids (fun _ => 0) qm).2.db.trees =
      applyWrite (applyWrite qm.db.trees (.remove a (encodeKey 0 id)))
        (.insert (inflightTreeName a) id.toBeBytes (bc.message.encode probe)) := by
  have front : (qm.db.trees a).entries.head? = some (encodeKey 0 id, bc.message.encode probe) := by
    rw [only]
    rfl
  have present : (qm.db.trees a).get (encodeKey 0 id) = some (bc.message.encode probe) := by
    rw [only, OrdMap.get_insert, if_pos rfl]
  have moved : (deliverTx a (encodeKey 0 id) id.toBeBytes).run (atZero qm).db.trees [] =
      some (bc.message.encode probe, [.remove a (encodeKey 0 id),
        .insert (inflightTreeName a) id.toBeBytes (bc.message.encode probe)]) := by
    simp only [deliverTx, Sled.Tx.run, atZero_db, present]
    rfl
  change ((consume bc a).run (handle ids) (atZero qm)).2.db.trees = _
  rw [consume, known.run_requireQueue]
  simp only [run_openTree, consumeLoop, run_iter, atZero_db, front, ← readyKey_bytes]
  rw [slice_of_le (by rw [ReadyKey.length_bytes]), ReadyKey.idBytes_slice, Program.ret_bind,
    readyKey_id, readyKey_bytes, run_transaction_commit ids (atZero qm) _ moved]
  simp only [deserialize_encode]
  rfl

/-- With one attempt allowed, a nack goes to the dead letters. -/
theorem nack_buries (ids : Nat → UInt64)
    (known : Known bc qm a { maxDeliveryAttempts := some 1 }) {tag : DeliveryTag}
    (inflight : (qm.db.trees (inflightTreeName a)).get tag.toBeBytes =
      some (bc.message.encode probe)) :
    ((Operation.nack a tag).perform bc ids (fun _ => 0) qm).2.db.trees =
      applyWrite (applyWrite qm.db.trees (.remove (inflightTreeName a) tag.toBeBytes))
        (.insert (dlqTreeName a) (encodeKey 0 (ids qm.db.drawn))
          (bc.message.encode { probe with deliveryAttempts := 1 })) := by
  have moved : (returnTx bc a { maxDeliveryAttempts := some 1 } tag (ids qm.db.drawn)).run
      (atZero qm).draw.db.trees [] = some ((), [.remove (inflightTreeName a) tag.toBeBytes,
        .insert (dlqTreeName a) (encodeKey 0 (ids qm.db.drawn))
          (bc.message.encode { probe with deliveryAttempts := 1 })]) := by
    simp only [returnTx, Sled.Tx.run, Machine.db_draw, Sled.Db.trees_draw, atZero_db, inflight,
      bc.message.decode_encode]
    rfl
  change ((nack bc a tag).run (handle ids) (atZero qm)).2.db.trees = _
  rw [nack, known.run_requireQueue, known.run_policyOf]
  simp only [run_openTree, run_generateId, atZero_db]
  rw [run_transaction_commit ids (atZero qm).draw _ moved]
  rfl

/-! ## Collisions are seen -/

theorem pair_known (bc : Bincode) (ids : Nat → UInt64) (different : a ≠ b)
    (policy policy' : RetentionPolicy) :
    Known bc (pair bc ids a b policy policy') a policy :=
  ⟨pair_registered different, pair_policy different⟩

/-- A key that an operation adds to a store is seen. -/
theorem view_ne {qm qm' : QueueManager} (role : Role) {key : Bytes}
    (absent : (qm.db.trees (role.treeName b)).get key = none)
    (present : ((qm'.db.trees (role.treeName b)).get key).isSome = true) :
    view bc qm' b ≠ view bc qm b := by
  intro same
  have stores := congrFun (congrArg QueueView.stores same) role
  change qm'.db.trees (role.treeName b) = qm.db.trees (role.treeName b) at stores
  rw [stores, absent] at present
  cases present

theorem Role.treeName_ne {r r' : Role} (other : r ≠ r') : r.treeName a ≠ r'.treeName a :=
  fun same => other (Role.treeName_role same)

/-- The queues after one publish to the first. -/
theorem published_pair (bc : Bincode) (ids : Nat → UInt64) (different : a ≠ b)
    (plain : a ≠ metaQueuesTree ∧ a ≠ metaRetentionTree) (policy : RetentionPolicy)
    (published : ((Operation.publish a probe).perform bc ids (fun _ => 0)
      (pair bc ids a b policy default)).2 = qm) :
    Known bc qm a policy ∧ (qm.db.trees metaQueuesTree).get b.utf8 = some [] ∧
      qm.db.trees a = OrdMap.empty.insert (encodeKey 0 (ids 0)) (bc.message.encode probe) ∧
      ∀ role : Role, role ≠ .ready → qm.db.trees (role.treeName a) = .empty := by
  have trees := publish_ready ids (pair_known bc ids different policy default) rfl
  rw [published] at trees
  have other {tree : String} (away : tree ≠ a) :
      qm.db.trees tree = (pair bc ids a b policy default).db.trees tree := by
    rw [trees, Sled.applyWrite_other _ away]
  refine ⟨⟨?_, ?_⟩, ?_, ?_, fun role derived => ?_⟩
  · rw [other plain.1.symm, pair_registered different]
  · rw [other plain.2.symm, pair_policy different]
  · rw [other plain.1.symm, pair_registered_other]
  · rw [trees]
    refine (Sled.applyWrite_same _ (.insert a _ _)).trans ?_
    rw [Write.onTree, Write.tree, pair_rest plain]
    rfl
  · exact (other (Role.treeName_ne derived)).trans (pair_rest (Role.treeName_ne_meta derived))

/-- The queues after a publish to the first and its delivery. -/
theorem delivered_pair (bc : Bincode) (ids : Nat → UInt64) (different : a ≠ b)
    (plain : a ≠ metaQueuesTree ∧ a ≠ metaRetentionTree) (policy : RetentionPolicy)
    (delivered : ((Operation.consume a).perform bc ids (fun _ => 0)
      ((Operation.publish a probe).perform bc ids (fun _ => 0)
        (pair bc ids a b policy default)).2).2 = qm) :
    Known bc qm a policy ∧ (qm.db.trees metaQueuesTree).get b.utf8 = some [] ∧
      (qm.db.trees (inflightTreeName a)).get (ids 0).toBeBytes =
        some (bc.message.encode probe) ∧
      qm.db.trees (dlqTreeName a) = .empty := by
  obtain ⟨known, registered, only, rest⟩ := published_pair bc ids different plain policy rfl
  generalize ((Operation.publish a probe).perform bc ids (fun _ => 0)
    (pair bc ids a b policy default)).2 = before at *
  have trees := consume_delivers ids known only
  rw [delivered] at trees
  have other {tree : String} (away : tree ≠ a) (away' : tree ≠ inflightTreeName a) :
      qm.db.trees tree = before.db.trees tree := by
    rw [trees, Sled.applyWrite_other _ away', Sled.applyWrite_other _ away]
  have inflight : inflightTreeName a ≠ metaQueuesTree ∧ inflightTreeName a ≠ metaRetentionTree :=
    Role.treeName_ne_meta (a := a) (show Role.inflight ≠ .ready by decide)
  refine ⟨⟨?_, ?_⟩, ?_, ?_, ?_⟩
  · rw [other plain.1.symm inflight.1.symm, known.registered]
  · rw [other plain.2.symm inflight.2.symm, known.record]
  · rw [other plain.1.symm inflight.1.symm, registered]
  · rw [trees]
    refine (congrArg (OrdMap.get · _) (Sled.applyWrite_same _ (.insert _ _ _))).trans ?_
    rw [Write.onTree, OrdMap.get_insert, if_pos rfl]
  · refine (other ?_ ?_).trans (rest .deadLetter (by decide))
    · exact Role.treeName_ne (show Role.deadLetter ≠ .ready by decide)
    · exact Role.treeName_ne (show Role.deadLetter ≠ .inflight by decide)

namespace Isolated

variable (isolated : Isolated bc a b) (different : a ≠ b)

include isolated different

/-- The other queue is not a metadata tree: a declaration would write to it. -/
theorem other_plain : b ≠ metaQueuesTree ∧ b ≠ metaRetentionTree := by
  let ids := counter 0
  let qm := declaredIn bc (started bc ids none) b default
  have run : final bc ids (started bc ids none)
      [⟨.declareQueueWithRetention b default, fun _ => 0⟩] = qm := declare_succeeds rfl rfl
  have absent : (qm.db.trees metaQueuesTree).get a.utf8 = none := by
    rw [declaredIn_queues, OrdMap.get_insert, if_neg (utf8_ne different.symm)]
    rfl
  have absent' : (qm.db.trees metaRetentionTree).get a.utf8 = none := by
    rw [declaredIn_policies, OrdMap.get_insert, if_neg (utf8_ne different.symm)]
    rfl
  have registered : b.utf8 ∈ (qm.db.trees metaQueuesTree).keys := by
    rw [declaredIn_queues, OrdMap.mem_keys_insert]
    exact .inl rfl
  have declared : (performed bc ids qm ⟨.declareQueueWithRetention a default, fun _ => 0⟩).after =
      declaredIn bc qm a default := declare_succeeds rfl absent
  have unchanged := isolated ids none [⟨.declareQueueWithRetention b default, fun _ => 0⟩]
    (.declareQueueWithRetention a default) (fun _ => 0) rfl (by rw [run]; exact registered)
  rw [run] at unchanged
  change view bc (performed bc ids qm ⟨.declareQueueWithRetention a default, fun _ => 0⟩).after b =
    view bc qm b at unchanged
  rw [declared] at unchanged
  have added : ((declaredIn bc qm a default).db.trees metaQueuesTree).get a.utf8 = some [] := by
    rw [declaredIn_queues, OrdMap.get_insert, if_pos rfl]
  have added' : ((declaredIn bc qm a default).db.trees metaRetentionTree).get a.utf8 =
      some (bc.policy.encode default) := by
    rw [declaredIn_policies, OrdMap.get_insert, if_pos rfl]
  constructor
  · rintro rfl
    exact view_ne .ready absent (congrArg Option.isSome added) unchanged
  · rintro rfl
    exact view_ne .ready absent' (congrArg Option.isSome added') unchanged

/-- After the two declarations and more steps, an operation leaves the other queue alone. -/
theorem after_steps (ids : Nat → UInt64) (policy policy' : RetentionPolicy) (steps : List Step)
    (op : Operation) (on : op.on = some a)
    (registered : ((final bc ids (pair bc ids a b policy policy') steps).db.trees
      metaQueuesTree).get b.utf8 = some []) :
    view bc (op.perform bc ids (fun _ => 0)
        (final bc ids (pair bc ids a b policy policy') steps)).2 b =
      view bc (final bc ids (pair bc ids a b policy policy') steps) b := by
  have run : final bc ids (started bc ids none) (declarations a b policy policy' ++ steps) =
      final bc ids (pair bc ids a b policy policy') steps := by
    rw [final_append, final_declarations different]
  rw [← run] at registered ⊢
  exact isolated ids none _ op _ on (OrdMap.mem_keys.mpr ⟨[], registered⟩)

/-- The queue itself is not a metadata tree: retention would remove the other's records. -/
theorem plain : a ≠ metaQueuesTree ∧ a ≠ metaRetentionTree := by
  let limit : RetentionPolicy := { maxMessages := some 0 }
  have unchanged := isolated.after_steps different (counter 0) limit limit [] (.applyRetention a)
    rfl pair_registered_other
  have registered : ((pair bc (counter 0) a b limit limit).db.trees metaQueuesTree).get b.utf8 =
      some [] := pair_registered_other
  have record : ((pair bc (counter 0) a b limit limit).db.trees metaRetentionTree).get b.utf8 =
      some (bc.policy.encode limit) := pair_policy_other
  have known : Known bc (pair bc (counter 0) a b limit limit) a limit :=
    pair_known bc (counter 0) different limit limit
  have emptied := applyRetention_empties (counter 0) known b.utf8
  rw [final, List.foldl_nil] at unchanged
  generalize pair bc (counter 0) a b limit limit = qm at *
  generalize ((Operation.applyRetention a).perform bc (counter 0) (fun _ => 0) qm).2 = qm' at *
  constructor
  · rintro rfl
    have registration := congrArg QueueView.registration unchanged
    change (qm'.db.trees metaQueuesTree).get b.utf8 = (qm.db.trees metaQueuesTree).get b.utf8
      at registration
    rw [emptied, registered] at registration
    cases registration
  · rintro rfl
    have policy := congrArg QueueView.policy unchanged
    change (((qm'.db.trees metaRetentionTree).get b.utf8).bind _).getD default =
      (((qm.db.trees metaRetentionTree).get b.utf8).bind _).getD default at policy
    rw [emptied, record, Option.bind_some, bc.policy.decode_encode] at policy
    cases policy

/-- No operation ends with a new key in a store of the other queue. -/
theorem not_added (role : Role) {ids : Nat → UInt64} {policy : RetentionPolicy} (steps : List Step)
    (op : Operation) {qm : QueueManager} {trees : Sled.Trees} {tree : String} {key value : Bytes}
    (run : final bc ids (pair bc ids a b policy default) steps = qm) (on : op.on = some a)
    (registered : (qm.db.trees metaQueuesTree).get b.utf8 = some [])
    (empty : qm.db.trees tree = .empty)
    (after : (op.perform bc ids (fun _ => 0) qm).2.db.trees =
      applyWrite trees (.insert tree key value)) : tree ≠ role.treeName b := by
  rintro rfl
  subst run
  refine view_ne role (congrArg (OrdMap.get · key) empty) ?_
    (isolated.after_steps different ids policy default steps op on registered)
  have there := Sled.applyWrite_same trees (.insert (role.treeName b) key value)
  rw [Write.tree, Write.onTree] at there
  rw [after, there, OrdMap.get_insert, if_pos rfl, Option.isSome_some]

/-- The queue is no other tree of the other one: a publish would add to it. -/
theorem not_derived (role : Role) : a ≠ role.treeName b :=
  isolated.not_added different role [] (.publish a probe) rfl rfl pair_registered_other
    (pair_rest (isolated.plain different))
    (publish_ready (counter 0) (pair_known bc (counter 0) different default default) rfl)

/-- No other tree of the queue is the other one: the operation that fills it would add to the
    other's ready store. -/
theorem other_not_derived {role : Role} (derived : role ≠ .ready) : role.treeName a ≠ b := by
  have plain := Role.treeName_ne_meta (a := a) derived
  cases role with
  | ready => exact (derived rfl).elim
  | scheduled =>
      exact isolated.not_added different .ready [] (.publish a laterProbe) rfl rfl
        pair_registered_other (pair_rest plain)
        (publish_scheduled (counter 0) (pair_known bc (counter 0) different default default) rfl)
  | dedup =>
      exact isolated.not_added different .ready [] (.publish a keyedProbe) rfl rfl
        pair_registered_other (pair_rest plain)
        (publish_keyed (counter 0) (pair_known bc (counter 0) different _ default) rfl)
  | inflight =>
      obtain ⟨qm, published⟩ : ∃ qm, ((Operation.publish a probe).perform bc (counter 0)
          (fun _ => 0) (pair bc (counter 0) a b default default)).2 = qm := ⟨_, rfl⟩
      obtain ⟨known, registered, only, rest⟩ :=
        published_pair bc (counter 0) different (isolated.plain different) default published
      exact isolated.not_added different .ready [⟨.publish a probe, fun _ => 0⟩] (.consume a)
        published rfl registered (rest .inflight derived) (consume_delivers (counter 0) known only)
  | deadLetter =>
      obtain ⟨qm, delivered⟩ : ∃ qm, ((Operation.consume a).perform bc (counter 0) (fun _ => 0)
          ((Operation.publish a probe).perform bc (counter 0) (fun _ => 0)
            (pair bc (counter 0) a b { maxDeliveryAttempts := some 1 } default)).2).2 = qm := ⟨_, rfl⟩
      obtain ⟨known, registered, inflight, empty⟩ :=
        delivered_pair bc (counter 0) different (isolated.plain different) _ delivered
      have run : final bc (counter 0)
          (pair bc (counter 0) a b { maxDeliveryAttempts := some 1 } default)
          [⟨.publish a probe, fun _ => 0⟩, ⟨.consume a, fun _ => 0⟩] = qm := by
        simp only [final, List.foldl_cons, List.foldl_nil, performed]
        exact delivered
      exact isolated.not_added different .ready _ (.nack a (counter 0 0)) run rfl registered empty
        (nack_buries (counter 0) known inflight)

end Isolated

/-- Queues that collide are not isolated. -/
theorem Isolated.nonColliding (isolated : Isolated bc a b) (different : a ≠ b) :
    NonColliding [a, b] :=
  nonColliding_pair (isolated.plain different) (isolated.other_plain different)
    (fun _ derived => (isolated.other_not_derived different derived).symm)
    fun role _ => isolated.not_derived different role

end Runs

/-- A queue is isolated from another exactly when no tree of one is a tree of the other or a
    metadata tree. -/
theorem isolated_iff_nonColliding (bc : Bincode) (a b : String) (different : a ≠ b) :
    Isolated bc a b ↔ NonColliding [a, b] :=
  ⟨fun isolated => isolated.nonColliding different, isolated_of_nonColliding bc different⟩

theorem isolated_orders_invoices : Isolated bincode "orders" "invoices" :=
  (isolated_iff_nonColliding bincode "orders" "invoices" (by decide)).mpr (by decide)

/-- Delivering from `q` puts the message into the ready store of the queue `inflight:q`. -/
theorem not_isolated_inflight : ¬ Isolated bincode "q" "inflight:q" := by
  intro isolated
  have unchanged := isolated (counter 0) none
    [⟨.declareQueueWithRetention "q" {}, fun _ => 0⟩,
      ⟨.declareQueueWithRetention "inflight:q" {}, fun _ => 0⟩,
      ⟨.publish "q" probe, fun _ => 0⟩]
    (.consume "q") (fun _ => 0) rfl (by decide +kernel)
  have stores := congrArg OrdMap.entries (congrFun (congrArg QueueView.stores unchanged) .ready)
  revert stores
  decide +kernel

end PelicanQ
