import PelicanQ.Core.Execution
import PelicanQ.Core.Runs

/-! # Queue isolation

An operation on one queue writes to the five trees of that queue and, when it
declares it, to the metadata under its name, whatever the database holds.  So it
leaves another queue alone as long as the trees of the two and the metadata
trees are different ones.  Nothing checks that when a queue is declared: with a
queue `q` and a queue `inflight:q` the in-flight store of the first is the ready
store of the second.
-/

namespace PelicanQ

/-- Where the operations on a queue may write. -/
def ownedBy (a : String) (tree : String) (key : Bytes) : Prop :=
  (∃ role : Role, tree = role.treeName a) ∨
    ((tree = metaQueuesTree ∨ tree = metaRetentionTree) ∧ key = a.utf8)

/-- A call that writes only inside. -/
def Call.Within (inside : String → Bytes → Prop) : (β : Type) → Call β → Prop
  | _, .sled c => c.Touches inside
  | _, .nowMs | _, .currentBytes | _, .setCurrentBytes _ | _, .maxBytes => True

/-- A call that writes nothing but what belongs to the queue. -/
abbrev Call.Owned (a : String) : (β : Type) → Call β → Prop := Call.Within (ownedBy a)

section Footprint

open QueueManager

variable {bc : Bincode} {a : String}

theorem ownedBy_tree (role : Role) (key : Bytes) : ownedBy a (role.treeName a) key :=
  .inl ⟨role, rfl⟩

theorem only_insert (role : Role) (key value : Bytes) :
    (insert (role.treeName a) key value).Only (Call.Owned a) :=
  .ask (ownedBy_tree role key)

theorem only_remove (role : Role) (key : Bytes) :
    (remove (role.treeName a) key).Only (Call.Owned a) :=
  .ask (ownedBy_tree role key)

theorem only_slice (bytes : Bytes) (start stop : Nat) :
    (slice bytes start stop).Only (Call.Owned a) := by
  unfold slice
  split <;> trivial

theorem only_deserialize (value : Bytes) : (deserialize bc value).Only (Call.Owned a) := by
  unfold deserialize
  split <;> trivial

theorem only_requireQueue : (requireQueue a).Only (Call.Owned a) :=
  .bind (.ask trivial) fun found => by cases found <;> trivial

theorem only_policyOf : (policyOf bc a).Only (Call.Owned a) :=
  .bind (.ask trivial) fun _ => trivial

theorem only_declare (policy : RetentionPolicy) :
    (declareQueueWithRetention bc a policy).Only (Call.Owned a) := by
  refine .bind (.ask trivial) fun found => ?_
  cases found with
  | true => trivial
  | false =>
      refine .bind (.ask (.inr ⟨.inl rfl, rfl⟩)) fun _ => ?_
      refine .bind (.ask trivial) fun _ => .bind (.ask trivial) fun _ => ?_
      refine .bind (.ask trivial) fun _ => .bind (.ask trivial) fun _ => ?_
      exact .bind (.ask trivial) fun _ => .ask (.inr ⟨.inr rfl, rfl⟩)

theorem only_isDuplicate (m : Message) (policy : RetentionPolicy) :
    (isDuplicate a m policy).Only (Call.Owned a) := by
  unfold isDuplicate
  split
  · split_ifs
    · refine .bind (.ask trivial) fun _ => .bind (.ask trivial) fun found => ?_
      cases found with
      | none => trivial
      | some recorded => exact .bind (only_slice _ _ _) fun _ => .bind (.ask trivial) fun _ => trivial
    · trivial
  · trivial

theorem only_checkLimit (size : UInt64) : (checkLimit size).Only (Call.Owned a) := by
  refine .bind (.ask trivial) fun limit => ?_
  cases limit with
  | none => trivial
  | some max =>
      refine .bind (.ask trivial) fun current => ?_
      split_ifs <;> trivial

theorem only_recordDedupKey (m : Message) (policy : RetentionPolicy) :
    (recordDedupKey a m policy).Only (Call.Owned a) := by
  unfold recordDedupKey
  split
  · exact .bind (.ask trivial) fun _ => .bind (.ask trivial) fun _ => only_insert .dedup _ _
  · trivial

theorem only_notYetDue (m : Message) : (QueueManager.notYetDue m).Only (Call.Owned a) := by
  unfold QueueManager.notYetDue
  split
  · exact .bind (.ask trivial) fun _ => trivial
  · trivial

theorem only_publish (m : Message) : (publish bc a m).Only (Call.Owned a) := by
  refine .bind only_requireQueue fun _ => .bind only_policyOf fun policy => ?_
  refine .bind (only_isDuplicate m policy) fun duplicate => ?_
  cases duplicate with
  | true => trivial
  | false =>
      refine .bind (only_checkLimit _) fun _ => .bind (.ask trivial) fun id => ?_
      refine .bind (only_notYetDue m) fun due => ?_
      have finish : (do
          addBytes (UInt64.ofNat (bc.message.encode m).length)
          recordDedupKey a m policy
          pure (.stored m.id) : Action PublishOutcome).Only (Call.Owned a) := by
        refine .bind ?_ fun _ => .bind (only_recordDedupKey m policy) fun _ => trivial
        exact .bind (.ask trivial) fun _ => .ask trivial
      cases due with
      | none => exact .bind (.ask trivial) fun _ => .bind (only_insert .ready _ _) fun _ => finish
      | some deliverAt =>
          exact .bind (.ask trivial) fun _ => .bind (only_insert .scheduled _ _) fun _ => finish

theorem only_consume : (consume bc a).Only (Call.Owned a) := by
  refine .bind only_requireQueue fun _ => .bind (.ask trivial) fun _ => ?_
  refine .bind (.ask trivial) fun _ => .bind (.ask trivial) fun entries => ?_
  cases entries.head? with
  | none => trivial
  | some e =>
      refine .bind (only_slice _ _ _) fun idBytes => .bind (.ask ?_) fun result => ?_
      · refine ⟨ownedBy_tree .ready _, fun found => ?_⟩
        cases found with
        | none => trivial
        | some value => exact ⟨ownedBy_tree .inflight _, trivial⟩
      · cases result with
        | none => trivial
        | some value => exact .bind (only_deserialize value) fun _ => trivial

theorem only_ack (tag : DeliveryTag) : (ack a tag).Only (Call.Owned a) := by
  refine .bind only_requireQueue fun _ => .bind (.ask trivial) fun _ => ?_
  refine .bind (only_remove .inflight _) fun found => ?_
  cases found with
  | none => trivial
  | some value => exact .bind (.ask trivial) fun _ => .ask trivial

theorem only_nack (tag : DeliveryTag) : (nack bc a tag).Only (Call.Owned a) := by
  refine .bind only_requireQueue fun _ => .bind only_policyOf fun policy => ?_
  refine .bind (.ask trivial) fun _ => .bind (.ask trivial) fun _ => ?_
  refine .bind (.ask trivial) fun _ => .bind (.ask trivial) fun newId => ?_
  refine .bind (.ask ⟨ownedBy_tree .inflight _, fun found => ?_⟩) fun result => ?_
  · cases found with
    | none => trivial
    | some value =>
        dsimp only
        split
        · trivial
        · split_ifs
          · exact ⟨ownedBy_tree .deadLetter _, trivial⟩
          · exact ⟨ownedBy_tree .ready _, trivial⟩
  · cases result <;> trivial

theorem only_collectDue (now : Int64) (entries : List (Bytes × Bytes)) :
    (collectDue now entries).Only (Call.Owned a) := by
  induction entries with
  | nil => trivial
  | cons e entries ih =>
      refine .bind (only_slice _ _ _) fun _ => ?_
      dsimp only
      split_ifs
      · trivial
      · exact .bind ih fun _ => trivial

theorem only_promoteEach (entries : List (Bytes × Bytes)) (promoted : Nat) :
    (promoteEach bc a entries promoted).Only (Call.Owned a) := by
  induction entries generalizing promoted with
  | nil => trivial
  | cons e entries ih =>
      refine .bind (only_deserialize _) fun m => .bind (.ask trivial) fun newId => ?_
      refine .bind (.ask ?_) fun result => ?_
      · exact ⟨ownedBy_tree .scheduled _, fun _ => ⟨ownedBy_tree .ready _, trivial⟩⟩
      · cases result <;> exact ih _

theorem only_promoteScheduled : (promoteScheduled bc a).Only (Call.Owned a) := by
  refine .bind only_requireQueue fun _ => .bind (.ask trivial) fun _ => ?_
  refine .bind (.ask trivial) fun _ => .bind (.ask trivial) fun now => ?_
  refine .bind (.ask trivial) fun entries => .bind (only_collectDue now entries) fun due => ?_
  exact only_promoteEach due 0

theorem only_removeAll (keys : List Bytes) : (removeAll a keys).Only (Call.Owned a) := by
  induction keys with
  | nil => trivial
  | cons key keys ih => exact .bind (only_remove .ready key) fun _ => ih

theorem only_collectExpired (now maxAgeMs : Int64) (entries : List (Bytes × Bytes)) :
    (collectExpired bc now maxAgeMs entries).Only (Call.Owned a) := by
  induction entries with
  | nil => trivial
  | cons e entries ih => exact .bind (only_deserialize _) fun _ => .bind ih fun _ => trivial

theorem only_removeExpired (maxAgeSecs : Option UInt64) :
    (removeExpired bc a maxAgeSecs).Only (Call.Owned a) := by
  cases maxAgeSecs with
  | none => trivial
  | some secs =>
      refine .bind (.ask trivial) fun now => .bind (.ask trivial) fun entries => ?_
      refine .bind (only_collectExpired _ _ _) fun keys => ?_
      exact .bind (only_removeAll keys) fun _ => trivial

theorem only_removeExcess (maxMessages : Option UInt64) :
    (removeExcess a maxMessages).Only (Call.Owned a) := by
  cases maxMessages with
  | none => trivial
  | some max =>
      refine .bind (.ask trivial) fun entries => ?_
      dsimp only
      split_ifs
      · exact .bind (only_removeAll _) fun _ => trivial
      · trivial

theorem only_recalculateBytes (inside : String → Bytes → Prop) :
    recalculateBytes.Only (Call.Within inside) := by
  have tree (total : UInt64) (t : String) : (addTreeBytes total t).Only (Call.Within inside) :=
    .bind (.ask trivial) fun _ => .bind (.ask trivial) fun _ => trivial
  refine .bind (.bind (.ask trivial) fun _ => trivial) fun names => ?_
  generalize (0 : UInt64) = total
  induction names generalizing total with
  | nil => trivial
  | cons name names ih =>
      rw [List.foldlM_cons]
      refine .bind ?_ fun total => ih total
      refine .bind (tree _ _) fun _ => .bind (tree _ _) fun _ => ?_
      exact .bind (tree _ _) fun _ => .bind (tree _ _) fun _ => tree _ _

theorem only_applyRetention : (applyRetention bc a).Only (Call.Owned a) := by
  refine .bind only_requireQueue fun _ => .bind only_policyOf fun policy => ?_
  dsimp only
  split_ifs
  · trivial
  · refine .bind (.ask trivial) fun _ => .bind (only_removeExpired _) fun expired => ?_
    refine .bind (only_removeExcess _) fun excess => ?_
    split_ifs
    · exact .bind (only_recalculateBytes _) fun _ => .bind (.ask trivial) fun _ => trivial
    · trivial

end Footprint

/-- A method that writes only inside changes nothing outside. -/
theorem exec_outside {α : Type} {inside : String → Bytes → Prop} {action : Action α}
    (only : action.Only (Call.Within inside)) (ids : Nat → UInt64) (s : Machine) {tree : String}
    {key : Bytes} (outside : ¬ inside tree key) :
    ((action.run (handle ids) s).2.db.trees tree).get key = (s.db.trees tree).get key := by
  refine only.preserves (fun s' : Machine =>
    (s'.db.trees tree).get key = (s.db.trees tree).get key) ?_ rfl
  intro β c s' allowed same
  cases c with
  | sled c => exact (Sled.handle_outside ids allowed outside s'.db).trans same
  | nowMs | currentBytes | setCurrentBytes | maxBytes => exact same

/-- An operation on a queue changes nothing that does not belong to it. -/
theorem perform_outside {bc : Bincode} {ids : Nat → UInt64} {a : String} {op : Operation}
    (on : op.on = some a) (clock : Nat → Int64) (qm : QueueManager) {tree : String} {key : Bytes}
    (outside : ¬ ownedBy a tree key) :
    ((op.perform bc ids clock qm).2.db.trees tree).get key = (qm.db.trees tree).get key := by
  have frame {α : Type} (action : Action α) (only : action.Only (Call.Owned a)) :
      ((exec ids clock action qm).2.db.trees tree).get key = (qm.db.trees tree).get key :=
    exec_outside only ids ⟨qm, clock⟩ outside
  cases op with
  | declareQueueWithRetention name policy =>
      cases on
      exact frame (QueueManager.declareQueueWithRetention bc a policy) (only_declare policy)
  | publish queue m =>
      cases on
      exact frame (QueueManager.publish bc a m) (only_publish m)
  | consume queue =>
      cases on
      exact frame (QueueManager.consume bc a) only_consume
  | ack queue tag =>
      cases on
      exact frame (QueueManager.ack a tag) (only_ack tag)
  | nack queue tag =>
      cases on
      exact frame (QueueManager.nack bc a tag) (only_nack tag)
  | promoteScheduled queue =>
      cases on
      exact frame (QueueManager.promoteScheduled bc a) only_promoteScheduled
  | applyRetention queue =>
      cases on
      exact frame (QueueManager.applyRetention bc a) only_applyRetention
  | reopen => cases on

/-- What belongs to a queue: its registration, its policy as operations read it, and
    its five stores. -/
structure QueueView where
  registration : Option Bytes
  policy : RetentionPolicy
  stores : Role → Sled.Tree

def view (bc : Bincode) (qm : QueueManager) (b : String) : QueueView where
  registration := (qm.db.trees metaQueuesTree).get b.utf8
  policy := (((qm.db.trees metaRetentionTree).get b.utf8).bind fun record =>
    (bc.policy.decode record).toOption).getD default
  stores role := qm.db.trees (role.treeName b)

/-- In every reachable state in which `b` is declared, no operation on `a` changes
    anything that belongs to `b`. -/
def Isolated (bc : Bincode) (a b : String) : Prop :=
  ∀ (ids : Nat → UInt64) (maxBytes : Option UInt64) (steps : List Step) (op : Operation)
    (clock : Nat → Int64), op.on = some a →
    b.utf8 ∈ ((final bc ids (started bc ids maxBytes) steps).db.trees metaQueuesTree).keys →
    view bc (op.perform bc ids clock (final bc ids (started bc ids maxBytes) steps)).2 b =
      view bc (final bc ids (started bc ids maxBytes) steps) b

/-- A queue is isolated from another when no tree of one is a tree of the other or a
    metadata tree. -/
theorem isolated_of_nonColliding (bc : Bincode) {a b : String} (different : a ≠ b)
    (apart : NonColliding [a, b]) : Isolated bc a b := by
  intro ids maxBytes steps op clock on _
  generalize final bc ids (started bc ids maxBytes) steps = qm
  have fromA : a ∈ [a, b] := List.mem_cons_self
  have fromB : b ∈ [a, b] := List.mem_cons_of_mem _ List.mem_cons_self
  have stores (role : Role) (key : Bytes) : ¬ ownedBy a (role.treeName b) key := by
    rintro (⟨role', same⟩ | ⟨same | same, -⟩)
    · exact different (apart.distinct a fromA b fromB role' role same.symm)
    · exact apart.notQueues b fromB role same
    · exact apart.notRetention b fromB role same
  have name : b.utf8 ≠ a.utf8 := fun same => different (String.utf8_injective same).symm
  have registration : ¬ ownedBy a metaQueuesTree b.utf8 := by
    rintro (⟨role, same⟩ | ⟨-, same⟩)
    · exact apart.notQueues a fromA role same.symm
    · exact name same
  have policy : ¬ ownedBy a metaRetentionTree b.utf8 := by
    rintro (⟨role, same⟩ | ⟨-, same⟩)
    · exact apart.notRetention a fromA role same.symm
    · exact name same
  simp only [view, perform_outside on clock qm registration, perform_outside on clock qm policy]
  congr 1
  funext role
  exact OrdMap.ext_get fun key => perform_outside on clock qm (stores role key)

end PelicanQ
