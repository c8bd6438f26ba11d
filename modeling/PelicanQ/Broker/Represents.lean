import PelicanQ.Broker.State

/-! # How a database represents a broker

A broker's queues determine every tree: the metadata trees list the names and
the policies, each store is one tree of encoded entries, and no other tree has
ever been written.  Because the trees of the declared queues are different,
writing one change to the database keeps the representation; what an operation
must show is only which changes it writes.
-/

namespace PelicanQ

open Sled (Write Batch applyWrite applyBatch)

def Change.role : Change → Role
  | .putReady .. | .dropReady .. => .ready
  | .putInflight .. | .dropInflight .. => .inflight
  | .putDeadLetter .. => .deadLetter
  | .putScheduled .. | .dropScheduled .. => .scheduled
  | .putDedup .. => .dedup

/-- The write that makes a change. -/
def Change.write (bc : Bincode) (name : String) : Change → Write
  | .putReady key m => .insert name (ReadyKey.bytes key) (bc.message.encode m)
  | .dropReady key => .remove name (ReadyKey.bytes key)
  | .putInflight tag m => .insert (inflightTreeName name) tag.toBeBytes (bc.message.encode m)
  | .dropInflight tag => .remove (inflightTreeName name) tag.toBeBytes
  | .putDeadLetter key m => .insert (dlqTreeName name) (ReadyKey.bytes key) (bc.message.encode m)
  | .putScheduled key m =>
      .insert (scheduledTreeName name) (DueKey.bytes key) (bc.message.encode m)
  | .dropScheduled key => .remove (scheduledTreeName name) (DueKey.bytes key)
  | .putDedup key time => .insert (dedupTreeName name) key time.toBeBytes

section Lookups

variable (bc : Bincode) (st : QueueState)

theorem QueueState.get_ready (key : ReadyKey) :
    (st.tree bc .ready).get (ReadyKey.bytes key) = (st.ready.get key).map bc.message.encode := by
  rw [QueueState.tree, OrdMap.get_image]

theorem QueueState.get_inflight (tag : UInt64) :
    (st.tree bc .inflight).get tag.toBeBytes = (st.inflight.get tag).map bc.message.encode := by
  rw [QueueState.tree, OrdMap.get_image]

theorem QueueState.get_scheduled (key : DueKey) :
    (st.tree bc .scheduled).get (DueKey.bytes key) = (st.scheduled.get key).map bc.message.encode := by
  rw [QueueState.tree, OrdMap.get_image]

end Lookups

/-- Taking out what is not there changes nothing. -/
theorem QueueState.apply_absent {bc : Bincode} {name tree : String} {key : Bytes} {c : Change}
    (removes : c.write bc name = .remove tree key) {st : QueueState}
    (absent : (st.tree bc c.role).get key = none) : st.apply c = st := by
  cases c with
  | dropReady key' =>
      cases removes
      rw [Change.role, st.get_ready, Option.map_eq_none_iff] at absent
      simp only [QueueState.apply, OrdMap.erase_absent absent]
  | dropInflight tag =>
      cases removes
      rw [Change.role, st.get_inflight, Option.map_eq_none_iff] at absent
      simp only [QueueState.apply, OrdMap.erase_absent absent]
  | dropScheduled key' =>
      cases removes
      rw [Change.role, st.get_scheduled, Option.map_eq_none_iff] at absent
      simp only [QueueState.apply, OrdMap.erase_absent absent]
  | putReady | putInflight | putDeadLetter | putScheduled | putDedup => cases removes

/-- A batch of changes to one queue. -/
def batch (bc : Bincode) (name : String) (changes : List Change) : Batch :=
  changes.map (Change.write bc name)

theorem Change.write_tree (bc : Bincode) (name : String) (c : Change) :
    (c.write bc name).tree = c.role.treeName name := by
  cases c <;> rfl

/-- A change rewrites the tree of its store and no other. -/
theorem QueueState.tree_apply (bc : Bincode) (name : String) (st : QueueState) (c : Change)
    (role : Role) :
    (st.apply c).tree bc role =
      if role = c.role then (c.write bc name).onTree (st.tree bc role) else st.tree bc role := by
  cases c <;> cases role <;>
    simp only [QueueState.apply, QueueState.tree, Change.role, Change.write, Write.onTree,
      reduceCtorEq, if_true, if_false, OrdMap.image_insert, OrdMap.image_erase,
      OrdMap.mapValues_insert]

/-- A batch leaves each tree of its queue as the changes leave the store. -/
theorem QueueState.tree_batch (bc : Bincode) (name : String) (changes : List Change)
    {trees : Sled.Trees} {st : QueueState} (held : ∀ role, trees (role.treeName name) = st.tree bc role)
    (role : Role) :
    applyBatch trees (batch bc name changes) (role.treeName name) =
      (changes.foldl QueueState.apply st).tree bc role := by
  induction changes generalizing trees st with
  | nil => exact held role
  | cons c changes ih =>
      refine ih fun role => ?_
      rw [st.tree_apply bc name c role]
      split_ifs with here
      · subst here
        rw [← c.write_tree bc name, Sled.applyWrite_same, c.write_tree, held]
      · rw [Sled.applyWrite_other, held]
        rw [c.write_tree]
        exact fun same => here (Role.treeName_role same)

theorem batch_trees {bc : Bincode} {name : String} {changes : List Change} {w : Write}
    (member : w ∈ batch bc name changes) : ∃ role : Role, w.tree = role.treeName name := by
  obtain ⟨c, -, rfl⟩ := List.mem_map.mp member
  exact ⟨c.role, c.write_tree bc name⟩

theorem QueueState.policy_apply (st : QueueState) (c : Change) : (st.apply c).policy = st.policy := by
  cases c <;> rfl

/-- The keys ever inserted into a tree, in the order of the log. -/
def arrivalsIn (tree : String) (log : List Batch) : List Bytes :=
  log.flatten.filterMap fun
    | .insert t key _ => if t = tree then some key else none
    | .remove .. => none

theorem arrivalsIn_append (tree : String) (log log' : List Batch) :
    arrivalsIn tree (log ++ log') = arrivalsIn tree log ++ arrivalsIn tree log' := by
  simp only [arrivalsIn, List.flatten_append, List.filterMap_append]

theorem arrivalsIn_other {tree : String} {written : Batch} (other : ∀ w ∈ written, w.tree ≠ tree) :
    arrivalsIn tree [written] = [] := by
  rw [arrivalsIn, List.flatten_singleton, List.filterMap_eq_nil_iff]
  intro w member
  have elsewhere := other w member
  cases w with
  | insert t key value => exact if_neg elsewhere
  | remove => rfl

/-- The ready tree takes in exactly the keys that arrive. -/
theorem QueueState.arrivals_batch (bc : Bincode) (name : String) (changes : List Change)
    (st : QueueState) :
    (changes.foldl QueueState.apply st).arrivals.map ReadyKey.bytes =
      st.arrivals.map ReadyKey.bytes ++ arrivalsIn name [batch bc name changes] := by
  induction changes generalizing st with
  | nil => simp [batch, arrivalsIn]
  | cons c changes ih =>
      rw [List.foldl_cons, ih]
      have split : arrivalsIn name [batch bc name (c :: changes)] =
          arrivalsIn name [[c.write bc name]] ++ arrivalsIn name [batch bc name changes] := by
        simp only [batch, List.map_cons, arrivalsIn, List.flatten_singleton, List.filterMap_cons,
          List.filterMap_nil]
        split <;> simp
      have elsewhere (role : Role) (other : c.role = role) (different : role ≠ .ready) :
          arrivalsIn name [[c.write bc name]] = [] := by
        refine arrivalsIn_other fun w member => ?_
        rw [List.mem_singleton.mp member, c.write_tree, other]
        exact fun same => different (Role.treeName_role (show _ = Role.ready.treeName name from same))
      rw [split, ← List.append_assoc]
      congr 1
      cases c with
      | putReady key m =>
          simp [QueueState.apply, Change.write, arrivalsIn]
      | dropReady key => simp [QueueState.apply, Change.write, arrivalsIn]
      | putInflight | dropInflight => rw [elsewhere .inflight rfl (by decide), List.append_nil]; rfl
      | putDeadLetter => rw [elsewhere .deadLetter rfl (by decide), List.append_nil]; rfl
      | putScheduled | dropScheduled =>
          rw [elsewhere .scheduled rfl (by decide), List.append_nil]; rfl
      | putDedup => rw [elsewhere .dedup rfl (by decide), List.append_nil]; rfl

theorem QueueState.policy_changes (changes : List Change) (st : QueueState) :
    (changes.foldl QueueState.apply st).policy = st.policy := by
  induction changes generalizing st with
  | nil => rfl
  | cons c changes ih => rw [List.foldl_cons, ih, st.policy_apply]

/-- The trees that hold this list of queues, as the log of writes built them. -/
structure Represents (bc : Bincode) (db : Sled.Db) (b : Broker) : Prop where
  registered : db.trees metaQueuesTree = b.queues.mapValues fun _ => []
  policies : db.trees metaRetentionTree = b.queues.mapValues fun st => bc.policy.encode st.policy
  utf8 : ∀ key ∈ b.queues.keys, ∃ name : String, key = name.utf8
  apart : NonColliding b.names
  stores : ∀ name st, b.queue name = some st → ∀ role, db.trees (role.treeName name) = st.tree bc role
  arrived : ∀ name st, b.queue name = some st →
    arrivalsIn name db.log = st.arrivals.map ReadyKey.bytes
  unwritten : ∀ tree, tree ≠ metaQueuesTree → tree ≠ metaRetentionTree →
    (∀ name st, b.queue name = some st → ∀ role : Role, role.treeName name ≠ tree) →
      ∀ written ∈ db.log, ∀ w ∈ written, w.tree ≠ tree

namespace Represents

variable {bc : Bincode} {db : Sled.Db} {b : Broker}

theorem mem_names (h : Represents bc db b) {name : String} :
    name ∈ b.names ↔ ∃ st, b.queue name = some st :=
  Broker.mem_names h.utf8

/-- A tree belongs to one role of one declared queue. -/
theorem owner (h : Represents bc db b) {name name' : String} {st st' : QueueState}
    (declared : b.queue name = some st) (declared' : b.queue name' = some st') {r r' : Role}
    (same : r.treeName name = r'.treeName name') : name = name' ∧ r = r' :=
  h.apart.owner (h.mem_names.mpr ⟨st, declared⟩) (h.mem_names.mpr ⟨st', declared'⟩) same

theorem not_registered (h : Represents bc db b) {name : String} {st : QueueState}
    (declared : b.queue name = some st) (role : Role) : role.treeName name ≠ metaQueuesTree :=
  h.apart.notQueues name (h.mem_names.mpr ⟨st, declared⟩) role

theorem not_policies (h : Represents bc db b) {name : String} {st : QueueState}
    (declared : b.queue name = some st) (role : Role) : role.treeName name ≠ metaRetentionTree :=
  h.apart.notRetention name (h.mem_names.mpr ⟨st, declared⟩) role

/-- Only the queues of a broker are represented. -/
theorem congr {b' : Broker} (h : Represents bc db b) (same : b.queues = b'.queues) :
    Represents bc db b' := by
  cases b; cases b'
  subst same
  exact ⟨h.registered, h.policies, h.utf8, h.apart, h.stores, h.arrived, h.unwritten⟩

/-- What represents a broker is in the log. -/
theorem of_log {db' : Sled.Db} (h : Represents bc db b) (same : db'.log = db.log) :
    Represents bc db' b := by
  have trees : db'.trees = db.trees := by rw [db'.replayed, db.replayed, same]
  exact ⟨trees ▸ h.registered, trees ▸ h.policies, h.utf8, h.apart, trees ▸ h.stores,
    same ▸ h.arrived, same ▸ h.unwritten⟩

/-- Writing changes to a declared queue keeps the representation. -/
theorem commit (h : Represents bc db b) {name : String} {st : QueueState}
    (declared : b.queue name = some st) (changes : List Change) :
    Represents bc (db.commit (batch bc name changes)) (b.change name changes) := by
  have present : b.queues.get name.utf8 = some st := declared
  have elsewhere {tree : String} (other : ∀ role : Role, role.treeName name ≠ tree) :
      ∀ w ∈ batch bc name changes, w.tree ≠ tree := by
    intro w member
    obtain ⟨role, same⟩ := batch_trees member
    exact same ▸ other role
  have queues : (b.change name changes).queues =
      b.queues.insert name.utf8 (changes.foldl QueueState.apply st) := by
    simp only [Broker.change, declared]
  refine ⟨?_, ?_, ?_, ?_, ?_, ?_, ?_⟩
  · rw [Sled.Db.trees_commit, Sled.applyBatch_other _ (elsewhere (h.not_registered declared)),
      h.registered, queues, OrdMap.mapValues_insert_same _ (by rw [present]; rfl)]
  · rw [Sled.Db.trees_commit, Sled.applyBatch_other _ (elsewhere (h.not_policies declared)),
      h.policies, queues, OrdMap.mapValues_insert_same]
    rw [present, Option.map_some, QueueState.policy_changes]
  · rw [Broker.change_keys]
    exact h.utf8
  · rw [Broker.change_names]
    exact h.apart
  · intro name' st' declared' role
    by_cases here : name' = name
    · subst here
      rw [Broker.change_queue declared, Option.some.injEq] at declared'
      rw [Sled.Db.trees_commit, QueueState.tree_batch bc name' changes (h.stores name' st declared),
        declared']
    · rw [Broker.change_queue_other b here] at declared'
      rw [Sled.Db.trees_commit, Sled.applyBatch_other, h.stores name' st' declared']
      exact elsewhere fun role' same => here (h.owner declared declared' same).1.symm
  · intro name' st' declared'
    rw [Sled.Db.log_commit, arrivalsIn_append]
    by_cases here : name' = name
    · subst here
      rw [Broker.change_queue declared, Option.some.injEq] at declared'
      rw [h.arrived name' st declared, ← QueueState.arrivals_batch, declared']
    · rw [Broker.change_queue_other b here] at declared'
      rw [h.arrived name' st' declared', arrivalsIn_other, List.append_nil]
      have bare (role' : Role) (same : role'.treeName name = Role.ready.treeName name') : False :=
        here (h.owner declared declared' same).1.symm
      exact elsewhere bare
  · intro tree notQueues notPolicies free written member
    have freeBefore : ∀ name' st', b.queue name' = some st' → ∀ role : Role,
        role.treeName name' ≠ tree := by
      intro name' st' declared' role
      by_cases here : name' = name
      · subst here
        exact free name' _ (Broker.change_queue declared changes) role
      · exact free name' st' (by rw [Broker.change_queue_other b here, declared']) role
    rw [Sled.Db.log_commit, List.mem_append, List.mem_singleton] at member
    rcases member with before | rfl
    · exact h.unwritten tree notQueues notPolicies freeBefore written before
    · exact elsewhere (freeBefore name st declared)

/-- Trees that only a new queue uses have never been written. -/
theorem unwritten_fresh (h : Represents bc db b) {name : String}
    (undeclared : b.queue name = none) (apart : NonColliding (name :: b.names)) (role : Role) :
    ∀ written ∈ db.log, ∀ w ∈ written, w.tree ≠ role.treeName name := by
  have here : name ∈ name :: b.names := List.mem_cons_self
  refine h.unwritten _ (apart.notQueues name here role) (apart.notRetention name here role) ?_
  intro name' st' declared' role' same
  have there : name' ∈ name :: b.names :=
    List.mem_cons_of_mem _ (h.mem_names.mpr ⟨st', declared'⟩)
  have owner := (apart.owner there here same).1
  rw [owner, undeclared] at declared'
  cases declared'

/-- Registering a queue whose trees collide with no other, in the state its trees are in. -/
theorem register (h : Represents bc db b) {name : String} {st : QueueState}
    (apart : NonColliding (name :: b.names))
    (stored : ∀ role : Role, db.trees (role.treeName name) = st.tree bc role)
    (arrived : arrivalsIn name db.log = st.arrivals.map ReadyKey.bytes) :
    Represents bc
      ((db.commit [.insert metaQueuesTree name.utf8 []]).commit
        [.insert metaRetentionTree name.utf8 (bc.policy.encode st.policy)])
      { b with queues := b.queues.insert name.utf8 st } := by
  have here : name ∈ name :: b.names := List.mem_cons_self
  -- a queue after the registration is this one or one that was there
  have cases_of {name' : String} {st' : QueueState}
      (declared' : (b.queues.insert name.utf8 st).get name'.utf8 = some st') :
      (name' = name ∧ st' = st) ∨ (name' ≠ name ∧ b.queue name' = some st') := by
    simp only [OrdMap.get_insert, String.utf8_injective.eq_iff] at declared'
    split_ifs at declared' with same
    · exact .inl ⟨same, (Option.some.inj declared').symm⟩
    · exact .inr ⟨same, declared'⟩
  -- the metadata writes touch no tree of a queue
  have trees_other {tree : String} (q : tree ≠ metaQueuesTree) (r : tree ≠ metaRetentionTree) :
      applyWrite (applyWrite db.trees (.insert metaQueuesTree name.utf8 []))
        (.insert metaRetentionTree name.utf8 (bc.policy.encode st.policy)) tree = db.trees tree := by
    rw [Sled.applyWrite_other _ r, Sled.applyWrite_other _ q]
  have log_other {tree : String} (q : tree ≠ metaQueuesTree) (r : tree ≠ metaRetentionTree) :
      arrivalsIn tree (db.log ++ [[.insert metaQueuesTree name.utf8 []]] ++
        [[.insert metaRetentionTree name.utf8 (bc.policy.encode st.policy)]]) =
        arrivalsIn tree db.log := by
    rw [arrivalsIn_append, arrivalsIn_append, arrivalsIn_other, arrivalsIn_other, List.append_nil,
      List.append_nil]
    · intro w member
      rw [List.mem_singleton.mp member]
      exact r.symm
    · intro w member
      rw [List.mem_singleton.mp member]
      exact q.symm
  have names_sub : ∀ a ∈ ({ b with queues := b.queues.insert name.utf8 st } : Broker).names,
      a ∈ name :: b.names := Broker.names_insert b name st
  refine ⟨?_, ?_, ?_, apart.subset names_sub, ?_, ?_, ?_⟩
  · simp only [Sled.Db.trees_commit, Sled.applyBatch_cons, Sled.applyBatch_nil,
      OrdMap.mapValues_insert]
    rw [Sled.applyWrite_other _ (by decide : metaQueuesTree ≠ metaRetentionTree), ← h.registered]
    exact Sled.applyWrite_same _ (.insert metaQueuesTree name.utf8 [])
  · simp only [Sled.Db.trees_commit, Sled.applyBatch_cons, Sled.applyBatch_nil,
      OrdMap.mapValues_insert]
    refine (Sled.applyWrite_same _ (.insert metaRetentionTree name.utf8 _)).trans ?_
    rw [← h.policies]
    exact congrArg (OrdMap.insert · _ _)
      (Sled.applyWrite_other _ (by decide : metaRetentionTree ≠ metaQueuesTree))
  · intro key member
    rcases OrdMap.mem_keys_insert.mp member with rfl | old
    · exact ⟨name, rfl⟩
    · exact h.utf8 key old
  · intro name' st' declared' role
    simp only [Sled.Db.trees_commit, Sled.applyBatch_cons, Sled.applyBatch_nil]
    rcases cases_of declared' with ⟨rfl, rfl⟩ | ⟨-, old⟩
    · rw [trees_other (apart.notQueues name' here role) (apart.notRetention name' here role),
        stored role]
    · rw [trees_other (h.not_registered old role) (h.not_policies old role),
        h.stores name' st' old role]
  · intro name' st' declared'
    simp only [Sled.Db.log_commit]
    rcases cases_of declared' with ⟨rfl, rfl⟩ | ⟨-, old⟩
    · exact (log_other (apart.notQueues name' here .ready)
        (apart.notRetention name' here .ready)).trans arrived
    · exact (log_other (h.not_registered old .ready) (h.not_policies old .ready)).trans
        (h.arrived name' st' old)
  · intro tree notQueues notPolicies free written member
    have freeBefore : ∀ name' st', b.queue name' = some st' → ∀ role : Role,
        role.treeName name' ≠ tree := by
      intro name' st' declared' role
      by_cases same : name' = name
      · rw [same]
        exact free name st ((OrdMap.get_insert _ _ _ _).trans (if_pos rfl)) role
      · refine free name' st' ?_ role
        simp only [Broker.queue, OrdMap.get_insert, String.utf8_injective.eq_iff, same, if_false]
        exact declared'
    simp only [Sled.Db.log_commit, List.mem_append, List.mem_singleton] at member
    rcases member with (before | rfl) | rfl
    · exact h.unwritten tree notQueues notPolicies freeBefore written before
    · intro w inside
      rw [List.mem_singleton.mp inside]
      exact notQueues.symm
    · intro w inside
      rw [List.mem_singleton.mp inside]
      exact notPolicies.symm

/-- A new queue is empty. -/
theorem declare (h : Represents bc db b) {name : String} (policy : RetentionPolicy)
    (undeclared : b.queue name = none) (apart : NonColliding (name :: b.names)) :
    Represents bc
      ((db.commit [.insert metaQueuesTree name.utf8 []]).commit
        [.insert metaRetentionTree name.utf8 (bc.policy.encode policy)])
      { b with queues := b.queues.insert name.utf8 (.fresh policy) } := by
  have absent := h.unwritten_fresh undeclared apart
  have stored (role : Role) : db.trees (role.treeName name) = (QueueState.fresh policy).tree bc role := by
    rw [db.replayed, Sled.replay_unwritten (absent role)]
    cases role <;> rfl
  have none : ∀ w ∈ db.log.flatten, w.tree ≠ name := by
    intro w member
    obtain ⟨written, inLog, inside⟩ := List.mem_flatten.mp member
    exact absent .ready written inLog w inside
  have nothing := arrivalsIn_other none
  rw [arrivalsIn, List.flatten_singleton] at nothing
  exact h.register apart stored nothing

end Represents

end PelicanQ
