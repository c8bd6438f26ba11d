import PelicanQ.Raft.Execution

/-! # What a call does to the database of a store

One lemma for each method that writes: the database it leaves.  Everything
about whole runs is derived from these.
-/

namespace PelicanQ

open Sled (Db)

section Effects

variable (json : SerdeJson)

def insertEntry (db : Db) (entry : LogEntry) : Db :=
  db.commit [.insert logTree entry.logId.index.toBeBytes (json.entry.encode entry)]

def removeKey (db : Db) (e : Bytes × Bytes) : Db := db.remove logTree e.1

/-- The entry is recorded as applied. -/
def markApplied (db : Db) (entry : LogEntry) : Db :=
  let db := match entry.payload with
    | .membership m => putMeta db "last_membership" (json.membership.encode ⟨some entry.logId, m⟩)
    | .blank | .normal _ => db
  putMeta db "last_applied" (json.logId.encode entry.logId)

/-- The entries the state machine gets through: all, unless an operation never returns. -/
def processed (bc : Bincode) (ids : Nat → UInt64) : Machine → List LogEntry → List LogEntry
  | _, [] => []
  | m, entry :: rest =>
      match entry.payload with
      | .normal op =>
          match (applyOperation bc ample op).run (handle ids) m with
          | (.ok _, m') => entry :: processed bc ids m' rest
          | _ => []
      | .blank | .membership _ => entry :: processed bc ids m rest

end Effects

/-! ## The two trees -/

section Trees

variable (json : SerdeJson) (db : Db)

theorem insertEntry_log (entry : LogEntry) : (insertEntry json db entry).trees logTree =
    (db.trees logTree).insert entry.logId.index.toBeBytes (json.entry.encode entry) :=
  Sled.applyWrite_same db.trees
    (.insert logTree entry.logId.index.toBeBytes (json.entry.encode entry))

theorem insertEntry_meta (entry : LogEntry) :
    (insertEntry json db entry).trees metaTree = db.trees metaTree := by
  have other : metaTree ≠ (Sled.Write.insert logTree entry.logId.index.toBeBytes
    (json.entry.encode entry)).tree := (by decide : metaTree ≠ logTree)
  exact Sled.applyWrite_other db.trees other

theorem removeKey_log (e : Bytes × Bytes) :
    (removeKey db e).trees logTree = (db.trees logTree).erase e.1 := by
  rw [removeKey, Db.trees_remove, Function.update_self]

theorem removeKey_meta (e : Bytes × Bytes) :
    (removeKey db e).trees metaTree = db.trees metaTree := by
  rw [removeKey, Db.trees_remove, Function.update_of_ne (by decide : metaTree ≠ logTree)]

theorem insertEntries_log (entries : List LogEntry) :
    (entries.foldl (insertEntry json) db).trees logTree =
      entries.foldl (fun tree entry =>
        tree.insert entry.logId.index.toBeBytes (json.entry.encode entry)) (db.trees logTree) := by
  induction entries generalizing db with
  | nil => rfl
  | cons entry entries ih => rw [List.foldl_cons, ih, insertEntry_log, List.foldl_cons]

theorem insertEntries_meta (entries : List LogEntry) :
    (entries.foldl (insertEntry json) db).trees metaTree = db.trees metaTree := by
  induction entries generalizing db with
  | nil => rfl
  | cons entry entries ih => rw [List.foldl_cons, ih, insertEntry_meta]

theorem removeKeys_log (found : List (Bytes × Bytes)) :
    (found.foldl removeKey db).trees logTree =
      (found.map Prod.fst).foldl OrdMap.erase (db.trees logTree) := by
  induction found generalizing db with
  | nil => rfl
  | cons e found ih => rw [List.foldl_cons, ih, removeKey_log, List.map_cons, List.foldl_cons]

theorem removeKeys_meta (found : List (Bytes × Bytes)) :
    (found.foldl removeKey db).trees metaTree = db.trees metaTree := by
  induction found generalizing db with
  | nil => rfl
  | cons e found ih => rw [List.foldl_cons, ih, removeKey_meta]

end Trees

namespace RaftStore

variable (bc : Bincode) (json : SerdeJson) (ids : Nat → UInt64) (s : StoreMachine) {α : Type}

theorem run_insertEntries (entries : List LogEntry) (next : Unit → StoreAction α) :
    (insertEntries json entries >>= next).run (handleStore ids) s =
      (next ()).run (handleStore ids) (s.withDb (entries.foldl (insertEntry json) s.db)) := by
  induction entries generalizing s with
  | nil => rfl
  | cons entry entries ih =>
      rw [insertEntries, Program.bind_assoc, run_insert, ih]
      rfl

theorem run_removeKeys (found : List (Bytes × Bytes)) (next : Unit → StoreAction α) :
    (removeKeys found >>= next).run (handleStore ids) s =
      (next ()).run (handleStore ids) (s.withDb (found.foldl removeKey s.db)) := by
  induction found generalizing s with
  | nil => rfl
  | cons e found ih =>
      rw [removeKeys, Program.bind_assoc, run_remove, ih]
      rfl

theorem appendToLog_run (entries : List LogEntry) :
    (appendToLog json entries).run (handleStore ids) s =
      (.ok (), s.withDb (entries.foldl (insertEntry json) s.db).flush) := by
  rw [appendToLog, run_insertEntries, run_flush_last]
  rfl

theorem deleteConflictLogsSince_run (logId : LogId) :
    (deleteConflictLogsSince logId).run (handleStore ids) s =
      (.ok (), s.withDb (((s.db.trees logTree).range (.included logId.index.toBeBytes)
        (.included (18446744073709551615 : UInt64).toBeBytes)).foldl removeKey s.db).flush) := by
  rw [deleteConflictLogsSince, run_range, run_removeKeys, run_flush_last]
  rfl

theorem purgeLogsUpto_run (logId : LogId) :
    (purgeLogsUpto json logId).run (handleStore ids) s =
      (.ok (), s.withDb (putMeta (((s.db.trees logTree).range (.included (0 : UInt64).toBeBytes)
        (.included logId.index.toBeBytes)).foldl removeKey s.db) "last_purged"
          (json.logId.encode logId)).flush) := by
  rw [purgeLogsUpto, run_range, run_removeKeys, run_metaSet, run_flush_last]
  rfl

/-- A payload that the state machine does not get through leaves the database alone. -/
theorem applyToStateMachine_run (entries : List LogEntry) :
    ((applyToStateMachine bc json entries).run (handleStore ids) s).2.db =
      (processed bc ids s.machine entries).foldl (markApplied json) s.db := by
  induction entries generalizing s with
  | nil => rfl
  | cons entry entries ih =>
      obtain ⟨logId, payload⟩ := entry
      -- once the payload is done, the entry is marked and the rest follows
      have marked (t : StoreMachine) (response : QueueOperationResponse) :
          ((do
            metaSet "last_applied" (json.logId.encode logId)
            let responses ← applyToStateMachine bc json entries
            pure (response :: responses) : StoreAction (List QueueOperationResponse)).run
              (handleStore ids) t).2.db =
            (processed bc ids t.machine entries).foldl (markApplied json)
              (putMeta t.db "last_applied" (json.logId.encode logId)) := by
        have rest := ih (t.withDb (putMeta t.db "last_applied" (json.logId.encode logId)))
        rw [run_metaSet, Program.run_bind]
        revert rest
        generalize (applyToStateMachine bc json entries).run (handleStore ids)
          (t.withDb (putMeta t.db "last_applied" (json.logId.encode logId))) = r
        obtain ⟨outcome, t'⟩ := r
        cases outcome <;> exact id
      cases payload with
      | blank => exact marked s _
      | membership m =>
          exact marked (s.withDb (putMeta s.db "last_membership"
            (json.membership.encode ⟨some logId, m⟩))) _
      | normal op =>
          rw [applyToStateMachine, applyPayload, run_onStateMachine]
          simp only [processed]
          cases ran : (applyOperation bc ample op).run (handle ids) s.machine with
          | mk outcome m =>
              cases outcome with
              | ok response => exact marked (s.withMachine m) response
              | err | panicked | diverged => rfl

/-- A snapshot that the state machine takes is recorded; one that it refuses is not. -/
theorem installSnapshot_run (info : SnapshotMeta) (data : Bytes) :
    (installSnapshot bc json info data).run (handleStore ids) s =
      Outcome.andThen
        (storageOutcome ((PelicanQ.installSnapshot bc json.snapshot data).run (handle ids) s.machine).1,
          s.withMachine ((PelicanQ.installSnapshot bc json.snapshot data).run (handle ids) s.machine).2)
        fun _ t => (.ok (), ((t.keep ⟨info, data⟩).withDb
          (putMeta (putMeta t.db "last_applied" (jsonOption json.logId info.lastLogId))
            "last_membership" (json.membership.encode info.lastMembership)).flush)) := by
  rw [installSnapshot, run_onStateMachine]
  rfl

end RaftStore

/-! ## Methods that only read -/

/-- A call that leaves the store as it is. -/
def StoreCall.Reads : (β : Type) → StoreCall β → Prop
  | _, .sled (.get ..) | _, .sled (.range ..) | _, .sled (.last _) | _, .currentSnapshot => True
  | _, _ => False

theorem handleStore_reads {ids : Nat → UInt64} (start : StoreMachine) (β : Type) (c : StoreCall β)
    (s : StoreMachine) (reads : StoreCall.Reads β c) (same : s = start) :
    (handleStore ids β c s).2 = start := by
  subst same
  cases c with
  | sled c =>
      cases c with
      | get | range | last => rfl
      | _ => cases reads
  | currentSnapshot => rfl
  | stateMachine | setCurrentSnapshot => cases reads

theorem execStore_reads {ids : Nat → UInt64} {clock : Nat → Int64} {α : Type}
    {action : StoreAction α} (only : action.Only StoreCall.Reads) (store : RaftStore) :
    (execStore ids clock action store).2 = store := by
  let start : StoreMachine := ⟨store, clock⟩
  have same : (action.run (handleStore ids) start).2 = start :=
    Program.Only.preserves (fun s => s = start) (handleStore_reads start) only rfl
  exact congrArg StoreMachine.store same

namespace RaftStore

theorem only_fromSlice {α : Type} (codec : Codec α) (value : Bytes) :
    (fromSlice codec value).Only StoreCall.Reads := by
  rw [fromSlice]
  split <;> trivial

theorem only_metaGetSingle {α : Type} (codec : Codec α) (key : String) :
    (metaGetSingle codec key).Only StoreCall.Reads := by
  refine .bind (.ask trivial) fun found => ?_
  cases found with
  | none => trivial
  | some value => exact .bind (only_fromSlice codec value) fun _ => trivial

variable {json : SerdeJson}

theorem only_readVote : (readVote json).Only StoreCall.Reads :=
  only_metaGetSingle json.vote "vote"

theorem only_readEntries (found : List (Bytes × Bytes)) :
    (readEntries json found).Only StoreCall.Reads := by
  induction found with
  | nil => trivial
  | cons row rest ih =>
      exact .bind (only_fromSlice json.entry row.2) fun _ => .bind ih fun _ => trivial

theorem only_tryGetLogEntries (start stop : Bound UInt64) :
    (tryGetLogEntries json start stop).Only StoreCall.Reads := by
  unfold tryGetLogEntries
  exact .ite trivial (.bind (.ask trivial) only_readEntries)

theorem only_lastAppliedState : (lastAppliedState json).Only StoreCall.Reads :=
  .bind (only_metaGetSingle json.logId "last_applied") fun _ =>
    .bind (only_metaGetSingle json.membership "last_membership") fun _ => trivial

theorem only_getLogState : (getLogState json).Only StoreCall.Reads := by
  refine .bind (only_metaGetSingle json.logId "last_purged") fun lastPurged =>
    .bind (.bind (.ask trivial) fun found => ?_) fun _ => trivial
  cases found with
  | none => trivial
  | some row => exact .bind (only_fromSlice json.entry row.2) fun _ => trivial

end RaftStore

end PelicanQ
