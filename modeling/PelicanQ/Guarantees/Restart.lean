import PelicanQ.Broker.Refinement
import PelicanQ.Guarantees.Isolation
import PelicanQ.Raft.Effects

/-! # Restarting a replica

A replica is reopened the way a single node is: what is in flight goes back to
the ready stores under new ids.  Nothing else is touched, so a restart leaves the
contents alone exactly when nothing is in flight.  The replicas that did not
restart still have it in flight.
-/

namespace PelicanQ

open QueueManager

/-- Dropping the store and opening it again succeeds, with what was applied, the queues on record
    and their messages as before. -/
def RestartPreserves (bc : Bincode) (json : SerdeJson) (ids : Nat → UInt64) (clock : Nat → Int64)
    (store : RaftStore) : Prop :=
  (StoreOperation.reopen.perform bc json ids clock store).1 = .reopened (.ok ()) ∧
  (∀ clock', (StoreOperation.lastAppliedState.perform bc json ids clock'
      (StoreOperation.reopen.perform bc json ids clock store).2).1 =
    (StoreOperation.lastAppliedState.perform bc json ids clock' store).1) ∧
  listedQueues (StoreOperation.reopen.perform bc json ids clock store).2.stateMachine.db =
    listedQueues store.stateMachine.db ∧
  ∀ name ∈ listedQueues store.stateMachine.db, ∀ role, role ≠ Role.dedup →
    (StoreOperation.reopen.perform bc json ids clock store).2.stateMachine.db.trees
        (role.treeName name) =
      store.stateMachine.db.trees (role.treeName name)

section Opening

variable {bc : Bincode} {ids : Nat → UInt64}

/-- Counting reads only. -/
theorem recalculateBytes_reads (ids : Nat → UInt64) (s : Machine) {α : Type}
    (next : UInt64 → Action α) :
    ∃ total, (recalculateBytes >>= next).run (handle ids) s = (next total).run (handle ids) s := by
  change ∃ total, ((listedQueues s.db).foldlM _ (0 : UInt64) >>= next).run (handle ids) s = _
  generalize (0 : UInt64) = total
  induction listedQueues s.db generalizing total with
  | nil => exact ⟨total, rfl⟩
  | cons name names ih =>
      simp only [List.foldlM_cons, Program.bind_assoc, run_addTreeBytes]
      exact ih _

theorem recoverEach_idle {s : Machine} {names : List String}
    (empty : ∀ name ∈ names, s.db.trees (inflightTreeName name) = .empty) :
    (recoverEach bc names).run (handle ids) s = (.ok (), s) := by
  induction names with
  | nil => rfl
  | cons name names ih =>
      have idle : (recoverQueue bc name).run (handle ids) s = (.ok (), s) := by
        rw [recoverQueue, run_openTree, run_openTree, run_iter, empty name List.mem_cons_self]
        rfl
      rw [recoverEach, Program.run_bind, idle]
      exact ih fun name' later => empty name' (List.mem_cons_of_mem _ later)

/-- With nothing in flight, opening changes nothing in the database. -/
theorem open_idle (ids : Nat → UInt64) (clock : Nat → Int64) {maxBytes : Option UInt64} {db : Sled.Db}
    (empty : ∀ name ∈ listedQueues db, db.trees (inflightTreeName name) = .empty) :
    (QueueManager.open bc ids clock maxBytes db).1 = .ok () ∧
      (QueueManager.open bc ids clock maxBytes db).2.db = db := by
  obtain ⟨total, counted⟩ := recalculateBytes_reads ids ⟨⟨db, 0, maxBytes⟩, clock⟩
    fun total => do
      .ask (.setCurrentBytes total)
      recoverInflight bc
  have opened : (openBody bc).run (handle ids) ⟨⟨db, 0, maxBytes⟩, clock⟩ =
      (.ok (), ⟨⟨db, total, maxBytes⟩, clock⟩) := by
    rw [openBody, run_openTree, run_openTree, counted, run_setCurrentBytes]
    exact recoverEach_idle empty
  rw [QueueManager.open, exec, opened]
  exact ⟨rfl, rfl⟩

/-- A call that adds no key but those of a ready store. -/
def Call.AddsReady : (β : Type) → Call β → Prop
  | _, .sled (.insert _ key _) => key.length = 9
  | _, .sled (.transaction _) => False
  | _, _ => True

/-- What is absent stays absent, but for the keys of a ready store. -/
theorem handle_addsReady {tree : String} {key : Bytes} (other : key.length ≠ 9) (β : Type)
    (c : Call β) (s : Machine) (adds : Call.AddsReady β c)
    (absent : (s.db.trees tree).get key = none) :
    ((handle ids β c s).2.db.trees tree).get key = none := by
  cases c with
  | nowMs | currentBytes | setCurrentBytes | maxBytes => exact absent
  | sled c =>
      cases c with
      | openTree | containsKey | get | iter | range | last | generateId | flush => exact absent
      | transaction => cases adds
      | insert tree' key' value =>
          have different : key ≠ key' := by
            rintro rfl
            exact other adds
          change (Function.update s.db.trees tree' ((s.db.trees tree').insert key' value) tree).get
            key = none
          by_cases here : tree = tree'
          · rw [here, Function.update_self, OrdMap.get_insert, if_neg different, ← here, absent]
          · rw [Function.update_of_ne here, absent]
      | remove tree' key' =>
          change ((s.db.remove tree' key').trees tree).get key = none
          rw [Sled.Db.trees_remove]
          by_cases here : tree = tree'
          · rw [here, Function.update_self, OrdMap.get_erase, ← here, absent, ite_self]
          · rw [Function.update_of_ne here, absent]

theorem run_addsReady (ids : Nat → UInt64) {α : Type} {action : Action α} (adds : action.Only Call.AddsReady)
    {tree : String} {key : Bytes} (other : key.length ≠ 9) {s : Machine}
    (absent : (s.db.trees tree).get key = none) :
    ((action.run (handle ids) s).2.db.trees tree).get key = none :=
  adds.preserves (fun s : Machine => (s.db.trees tree).get key = none) (handle_addsReady other)
    absent

theorem requeueAll_addsReady (bc : Bincode) (name : String) (entries : List (Bytes × Bytes)) :
    (requeueAll bc name entries).Only Call.AddsReady := by
  induction entries with
  | nil => trivial
  | cons e entries ih =>
      rw [requeueAll]
      refine .bind ?_ fun msg => .bind (.ask trivial) fun id =>
        .bind (.ask (ReadyKey.length_bytes (readyKey msg.priority id))) fun _ => ih
      rw [deserialize]
      split <;> trivial

theorem removeAll_addsReady (tree : String) (keys : List Bytes) :
    (removeAll tree keys).Only Call.AddsReady := by
  induction keys with
  | nil => trivial
  | cons key keys ih => exact .bind (.ask trivial) fun _ => ih

theorem recoverQueue_addsReady (bc : Bincode) (name : String) :
    (recoverQueue bc name).Only Call.AddsReady := by
  refine .bind (.ask trivial) fun _ => .bind (.ask trivial) fun _ => .bind (.ask trivial) fun _ => ?_
  exact .bind (requeueAll_addsReady bc name _) fun _ => removeAll_addsReady _ _

theorem recoverEach_addsReady (bc : Bincode) (names : List String) :
    (recoverEach bc names).Only Call.AddsReady := by
  induction names with
  | nil => trivial
  | cons name names ih => exact .bind (recoverQueue_addsReady bc name) fun _ => ih

theorem removeAll_removes (ids : Nat → UInt64) (tree : String) {key : Bytes} (other : key.length ≠ 9)
    {keys : List Bytes} (removed : key ∈ keys) (s : Machine) :
    (((removeAll tree keys).run (handle ids) s).2.db.trees tree).get key = none := by
  induction keys generalizing s with
  | nil => cases removed
  | cons first keys ih =>
      change (((removeAll tree keys).run (handle ids) { s with manager :=
        { s.manager with db := s.db.remove tree first } }).2.db.trees tree).get key = none
      rcases List.mem_cons.mp removed with rfl | later
      · refine run_addsReady ids (removeAll_addsReady tree keys) other ?_
        change ((s.db.remove tree key).trees tree).get key = none
        rw [Sled.Db.trees_remove, Function.update_self, OrdMap.get_erase, if_pos rfl]
      · exact ih later _

/-- A queue that has been recovered has no tag in flight. -/
theorem recoverQueue_clears {name : String} {tag : Bytes} (other : tag.length ≠ 9) {s s' : Machine}
    (recovered : (recoverQueue bc name).run (handle ids) s = (.ok (), s')) :
    (s'.db.trees (inflightTreeName name)).get tag = none := by
  cases found : (s.db.trees (inflightTreeName name)).get tag with
  | none =>
      have kept := run_addsReady ids (recoverQueue_addsReady bc name) other found
      rwa [recovered] at kept
  | some value =>
      have listed : tag ∈ (s.db.trees (inflightTreeName name)).entries.map Prod.fst :=
        List.mem_map_of_mem (OrdMap.get_eq_some.mp found)
      rw [recoverQueue, run_openTree, run_openTree, run_iter] at recovered
      obtain ⟨⟨⟩, requeued, -, removed⟩ := Program.run_bind_ok recovered
      have gone := removeAll_removes ids (inflightTreeName name) other listed requeued
      rwa [removed] at gone

/-- A queue that is recovered among others has no tag in flight afterwards. -/
theorem recoverEach_clears {names : List String} {name : String} (listed : name ∈ names)
    {tag : Bytes} (other : tag.length ≠ 9) {s s' : Machine}
    (recovered : (recoverEach bc names).run (handle ids) s = (.ok (), s')) :
    (s'.db.trees (inflightTreeName name)).get tag = none := by
  induction names generalizing s with
  | nil => cases listed
  | cons first names ih =>
      rw [recoverEach] at recovered
      obtain ⟨⟨⟩, between, cleared, rest⟩ := Program.run_bind_ok recovered
      rcases List.mem_cons.mp listed with rfl | later
      · have gone := run_addsReady ids (recoverEach_addsReady bc names) other
          (recoverQueue_clears other cleared)
        rwa [rest] at gone
      · exact ih later rest

/-- Opening leaves no tag in flight. -/
theorem open_clears {clock : Nat → Int64} {maxBytes : Option UInt64} {db : Sled.Db}
    (opened : (QueueManager.open bc ids clock maxBytes db).1 = .ok ()) {name : String}
    (listed : name ∈ listedQueues db) {tag : Bytes} (other : tag.length ≠ 9) :
    (((QueueManager.open bc ids clock maxBytes db).2.db).trees (inflightTreeName name)).get tag =
      none := by
  obtain ⟨total, counted⟩ := recalculateBytes_reads ids ⟨⟨db, 0, maxBytes⟩, clock⟩
    fun total => do
      .ask (.setCurrentBytes total)
      recoverInflight bc
  rw [QueueManager.open, exec, openBody, run_openTree, run_openTree, counted,
    run_setCurrentBytes] at opened ⊢
  exact recoverEach_clears listed other (Prod.ext opened rfl)

end Opening

/-! ## The marker -/

/-- A call to the database of the log and the metadata. -/
def StoreCall.OnLog : (β : Type) → StoreCall β → Prop
  | _, .sled _ => True
  | _, _ => False

/-- A method that only uses this database answers the same on stores that share it. -/
theorem run_onLog {ids : Nat → UInt64} {α : Type} {action : StoreAction α}
    (only : action.Only StoreCall.OnLog) {s t : StoreMachine} (same : s.db = t.db) :
    (action.run (handleStore ids) s).1 = (action.run (handleStore ids) t).1 := by
  induction action generalizing s t with
  | ret | fail | panic | diverge => rfl
  | call c next ih =>
      cases c with
      | sled c =>
          have answer : (handleStore ids _ (.sled c) s).1 = (handleStore ids _ (.sled c) t).1 :=
            congrArg (fun db => (Sled.handle (fun _ => 0) _ c db).1) same
          have after : (handleStore ids _ (.sled c) s).2.db = (handleStore ids _ (.sled c) t).2.db :=
            congrArg (fun db => (Sled.handle (fun _ => 0) _ c db).2) same
          rw [Program.run_call, Program.run_call, answer]
          exact ih _ (only.2 _) after
      | stateMachine | currentSnapshot | setCurrentSnapshot => exact only.1.elim

theorem metaGetSingle_onLog {α : Type} (codec : Codec α) (key : String) :
    (RaftStore.metaGetSingle codec key).Only StoreCall.OnLog := by
  refine .bind (.ask trivial) fun found => ?_
  cases found with
  | none => trivial
  | some value =>
      refine .bind ?_ fun _ => trivial
      rw [RaftStore.fromSlice]
      split <;> trivial

theorem lastAppliedState_onLog (json : SerdeJson) :
    (RaftStore.lastAppliedState json).Only StoreCall.OnLog :=
  .bind (metaGetSingle_onLog json.logId "last_applied") fun _ =>
    .bind (metaGetSingle_onLog json.membership "last_membership") fun _ => trivial

/-- A restart preserves what is replicated when nothing is in flight, and only then: a tag that is
    in flight is given up. -/
theorem restart_preserves (bc : Bincode) (json : SerdeJson) (ids : Nat → UInt64)
    (clock : Nat → Int64) (store : RaftStore) :
    ((∀ name ∈ listedQueues store.stateMachine.db,
        store.stateMachine.db.trees (inflightTreeName name) = .empty) →
      RestartPreserves bc json ids clock store) ∧
    ∀ name ∈ listedQueues store.stateMachine.db, ∀ tag : UInt64,
      tag.toBeBytes ∈ (store.stateMachine.db.trees (inflightTreeName name)).keys →
        ¬ RestartPreserves bc json ids clock store := by
  constructor
  · intro empty
    have idle : (QueueManager.open bc ids clock none store.stateMachine.db).1 = .ok () ∧
        (QueueManager.open bc ids clock none store.stateMachine.db).2.db = store.stateMachine.db :=
      open_idle ids clock empty
    have same : (StoreOperation.reopen.perform bc json ids clock store).2.stateMachine.db =
        store.stateMachine.db := idle.2
    refine ⟨congrArg StoreResponse.reopened idle.1, fun clock' => ?_, ?_, fun name _ role _ => ?_⟩
    · exact congrArg StoreResponse.lastApplied (run_onLog (lastAppliedState_onLog json) rfl)
    · rw [same]
    · rw [same]
  · rintro name listed tag inside ⟨opened, -, -, contents⟩
    have length : tag.toBeBytes.length ≠ 9 := by rw [UInt64.length_toBeBytes]; decide
    have gone := open_clears (StoreResponse.reopened.inj opened) listed length
    have kept := contents name listed .inflight (by decide)
    apply OrdMap.get_eq_none.mp _ inside
    rw [show inflightTreeName name = Role.inflight.treeName name from rfl, ← kept]
    exact gone

/-- A replica that applied a few entries to one queue. -/
def appliedEntries (entries : List QueueOperation) : RaftStore :=
  afterCalls bincode serdeJson (counter 0) (openedStore bincode (counter 0))
    [⟨.applyToStateMachine ((QueueOperation.declareQueue "q" default :: entries).mapIdx fun i op =>
      ⟨⟨⟨1, 1⟩, UInt64.ofNat i⟩, .normal op⟩), fun _ => 5⟩]

/-- Nothing in flight: a message is ready and another one is scheduled. -/
theorem waiting_preserved :
    RestartPreserves bincode serdeJson (counter 0) (fun _ => 6)
      (appliedEntries [.publish "q" ⟨1, [], [], 0, 0, 3, none, none⟩,
        .publish "q" ⟨2, [], [], 0, 0, 3, some 50, none⟩]) := by
  refine (restart_preserves bincode serdeJson (counter 0) (fun _ => 6) _).1 ?_
  have listed : listedQueues (appliedEntries [.publish "q" ⟨1, [], [], 0, 0, 3, none, none⟩,
      .publish "q" ⟨2, [], [], 0, 0, 3, some 50, none⟩]).stateMachine.db = ["q"] := by
    decide +kernel
  rw [listed]
  intro name member
  rw [List.mem_singleton.mp member]
  decide +kernel

/-- A message that was delivered before the restart is ready again after it. -/
theorem delivery_requeued :
    ¬ RestartPreserves bincode serdeJson (counter 0) (fun _ => 6)
      (appliedEntries [.publish "q" ⟨1, [], [], 0, 0, 3, none, none⟩, .consume "q"]) := by
  rintro ⟨-, -, -, contents⟩
  have same := contents "q" (by decide +kernel) .inflight (by decide)
  revert same
  decide +kernel

end PelicanQ
