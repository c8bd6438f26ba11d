import PelicanQ.Raft.Effects

/-! # Reading back the metadata of a store

Five values are kept in one tree, each under its key.  Four are written and read
as text of one type.  The index of the last snapshot is written as text and read
as eight bytes, and the last applied log id may be written as an absent value
that cannot be read; where these two are out of the way, every call returns what
was last written.
-/

namespace PelicanQ

open Sled (Db)

/-- The values last written; `none` where nothing was. -/
structure Metadata where
  vote : Option Vote := none
  /-- A snapshot may be installed with no last log id. -/
  lastApplied : Option (Option LogId) := none
  lastMembership : Option StoredMembership := none
  lastPurged : Option LogId := none
  snapshotIdx : Option UInt64 := none

def Metadata.marked (md : Metadata) (entry : LogEntry) : Metadata :=
  { md with
    lastApplied := some (some entry.logId)
    lastMembership := match entry.payload with
      | .membership m => some ⟨some entry.logId, m⟩
      | .blank | .normal _ => md.lastMembership }

section Runs

variable (bc : Bincode) (json : SerdeJson) (ids : Nat → UInt64)

/-- What a call writes, by how it answers. -/
def Metadata.record (store : RaftStore) (step : StoreStep) (response : StoreResponse)
    (md : Metadata) : Metadata :=
  match step.op, response with
  | .saveVote vote, _ => { md with vote := some vote }
  | .purgeLogsUpto logId, _ => { md with lastPurged := some logId }
  | .applyToStateMachine entries, _ =>
      (processed bc ids ⟨store.stateMachine, step.clock⟩ entries).foldl Metadata.marked md
  | .installSnapshot info _, .done (.ok ()) =>
      { md with lastApplied := some info.lastLogId, lastMembership := some info.lastMembership }
  | .buildSnapshot, .built (.ok _) =>
      { md with snapshotIdx := some (md.snapshotIdx.getD 0 + 1) }
  | _, _ => md

/-- The values last written by a sequence of calls. -/
def lastWritten : RaftStore → Metadata → List StoreStep → Metadata
  | _, md, [] => md
  | store, md, step :: steps =>
      let r := step.op.perform bc json ids step.clock store
      lastWritten r.2 (md.record bc ids store step r.1) steps

/-- The snapshot of a dump: where the log was when it was made, and the next in number. -/
def Metadata.nextSnapshot (md : Metadata) (data : Bytes) : StoredSnapshot :=
  let lastApplied := md.lastApplied.getD none
  ⟨⟨lastApplied, md.lastMembership.getD default,
    RaftStore.snapshotId lastApplied (md.snapshotIdx.getD 0 + 1)⟩, data⟩

/-- The dump of the state machine that a snapshot is built from. -/
def dumpOf (store : RaftStore) (clock : Nat → Int64) : Outcome PelicanError Bytes :=
  (exec ids clock (PelicanQ.buildSnapshot bc json.snapshot) store.stateMachine).1

/-- A call that reads metadata returns what was last written, and the next snapshot is the next
    in number; how the dump itself goes is not asked. -/
def ReadsBack (md : Metadata) (store : RaftStore) (step : StoreStep) : Prop :=
  let response := (step.op.perform bc json ids step.clock store).1
  match step.op with
  | .readVote => response = .vote (.ok md.vote)
  | .lastAppliedState =>
      response = .lastApplied (.ok (md.lastApplied.getD none, md.lastMembership.getD default))
  | .getLogState => ∃ lastLogId, response = .logState (.ok ⟨md.lastPurged, lastLogId⟩)
  | .buildSnapshot => ∀ data, dumpOf bc json ids store step.clock = .ok data →
      response = .built (.ok (md.nextSnapshot data))
  | _ => True

/-- No absent value is on record where a log id is read, and no snapshot was built before. -/
def Readable (store : RaftStore) (step : StoreStep) : Prop :=
  match step.op with
  | .lastAppliedState => (store.db.trees metaTree).get "last_applied".utf8 ≠ some jsonNull
  | .buildSnapshot => (∃ data, dumpOf bc json ids store step.clock = .ok data) →
      (store.db.trees metaTree).get "last_applied".utf8 ≠ some jsonNull ∧
        (store.db.trees metaTree).get "snapshot_idx".utf8 = none
  | _ => True

end Runs

/-- What is under a key of the metadata tree. -/
def Metadata.text (json : SerdeJson) (md : Metadata) (key : String) : Option Bytes :=
  if key = "vote" then md.vote.map json.vote.encode
  else if key = "last_applied" then md.lastApplied.map (jsonOption json.logId)
  else if key = "last_membership" then md.lastMembership.map json.membership.encode
  else if key = "last_purged" then md.lastPurged.map json.logId.encode
  else if key = "snapshot_idx" then md.snapshotIdx.map jsonU64
  else none

/-- The metadata tree has the values, and the log has entries that can be read. -/
structure Metadata.Stored (json : SerdeJson) (md : Metadata) (db : Db) : Prop where
  reads : ∀ key : String, (db.trees metaTree).get key.utf8 = md.text json key
  /-- A second snapshot is never built. -/
  once : md.snapshotIdx = none ∨ md.snapshotIdx = some 1
  log : ∀ e ∈ (db.trees logTree).entries, ∃ entry, e.2 = json.entry.encode entry

namespace Metadata.Stored

variable {json : SerdeJson} {md md' : Metadata} {db : Db}

theorem put (stored : md.Stored json db) {key : String} {data : Bytes}
    (here : md'.text json key = some data)
    (others : ∀ key', key' ≠ key → md'.text json key' = md.text json key')
    (once : md'.snapshotIdx = none ∨ md'.snapshotIdx = some 1) :
    md'.Stored json (putMeta db key data) where
  reads key' := by
    rw [putMeta_get]
    split_ifs with same
    · rw [same, here]
    · rw [others key' same, stored.reads]
  once := once
  log := by
    rw [putMeta_log]
    exact stored.log

theorem putVote (stored : md.Stored json db) (vote : Vote) :
    ({ md with vote := some vote } : Metadata).Stored json
      (putMeta db "vote" (json.vote.encode vote)) := by
  refine stored.put rfl (fun key different => ?_) stored.once
  simp only [Metadata.text, if_neg different]

theorem putLastApplied (stored : md.Stored json db) (logId : Option LogId) :
    ({ md with lastApplied := some logId } : Metadata).Stored json
      (putMeta db "last_applied" (jsonOption json.logId logId)) := by
  refine stored.put rfl (fun key different => ?_) stored.once
  simp only [Metadata.text, if_neg different]

theorem putLastMembership (stored : md.Stored json db) (membership : StoredMembership) :
    ({ md with lastMembership := some membership } : Metadata).Stored json
      (putMeta db "last_membership" (json.membership.encode membership)) := by
  refine stored.put rfl (fun key different => ?_) stored.once
  simp only [Metadata.text, if_neg different]

theorem putLastPurged (stored : md.Stored json db) (logId : LogId) :
    ({ md with lastPurged := some logId } : Metadata).Stored json
      (putMeta db "last_purged" (json.logId.encode logId)) := by
  refine stored.put rfl (fun key different => ?_) stored.once
  simp only [Metadata.text, if_neg different]

theorem putSnapshotIdx (stored : md.Stored json db) :
    ({ md with snapshotIdx := some 1 } : Metadata).Stored json
      (putMeta db "snapshot_idx" (jsonU64 1)) := by
  refine stored.put rfl (fun key different => ?_) (.inr rfl)
  simp only [Metadata.text, if_neg different]

theorem marked (stored : md.Stored json db) (entry : LogEntry) :
    (md.marked entry).Stored json (markApplied json db entry) := by
  obtain ⟨logId, payload⟩ := entry
  cases payload with
  | blank => exact stored.putLastApplied (some logId)
  | normal op => exact stored.putLastApplied (some logId)
  | membership m => exact (stored.putLastMembership ⟨some logId, m⟩).putLastApplied (some logId)

theorem markedAll (stored : md.Stored json db) (entries : List LogEntry) :
    (entries.foldl Metadata.marked md).Stored json (entries.foldl (markApplied json) db) := by
  induction entries generalizing md db with
  | nil => exact stored
  | cons entry entries ih => exact ih (stored.marked entry)

/-- A change to the log that leaves the metadata alone. -/
theorem onLog (stored : md.Stored json db) {db' : Db} (same : db'.trees metaTree = db.trees metaTree)
    (log : ∀ e ∈ (db'.trees logTree).entries, ∃ entry, e.2 = json.entry.encode entry) :
    md.Stored json db' where
  reads key := by rw [same, stored.reads]
  once := stored.once
  log := log

theorem inserted (stored : md.Stored json db) (entries : List LogEntry) :
    md.Stored json (entries.foldl (insertEntry json) db) := by
  induction entries generalizing db with
  | nil => exact stored
  | cons entry entries ih =>
      refine ih (stored.onLog (insertEntry_meta json db entry) fun e member => ?_)
      rw [insertEntry_log] at member
      rcases OrdMap.mem_insert.mp member with rfl | ⟨old, -⟩
      · exact ⟨entry, rfl⟩
      · exact stored.log e old

theorem removed (stored : md.Stored json db) (found : List (Bytes × Bytes)) :
    md.Stored json (found.foldl removeKey db) := by
  refine stored.onLog (removeKeys_meta db found) fun e member => ?_
  rw [removeKeys_log, OrdMap.foldl_erase_entries] at member
  exact stored.log e (List.mem_filter.mp member).1

theorem flush (stored : md.Stored json db) : md.Stored json db.flush := { stored with }

end Metadata.Stored

/-! ## Reading -/

section Reading

variable {bc : Bincode} {json : SerdeJson} {ids : Nat → UInt64} {md : Metadata} {s : StoreMachine}

/-- The last applied log id can be read when it is not an absent one. -/
theorem Metadata.Stored.readApplied (stored : md.Stored json s.db) (present : md.lastApplied ≠ some none) :
    (s.db.trees metaTree).get "last_applied".utf8 =
      (md.lastApplied.getD none).map json.logId.encode := by
  rw [stored.reads]
  change md.lastApplied.map (jsonOption json.logId) = _
  cases written : md.lastApplied with
  | none => rfl
  | some logId =>
      cases logId with
      | none => exact absurd written present
      | some logId => rfl

theorem Metadata.Stored.null_iff {db : Db} (stored : md.Stored json db) :
    (db.trees metaTree).get "last_applied".utf8 = some jsonNull ↔ md.lastApplied = some none := by
  rw [stored.reads]
  change md.lastApplied.map (jsonOption json.logId) = some jsonNull ↔ _
  cases md.lastApplied with
  | none => exact iff_of_false nofun nofun
  | some logId =>
      cases logId with
      | none => exact iff_of_true rfl rfl
      | some logId =>
          refine iff_of_false (fun same => ?_) nofun
          obtain ⟨e, unread⟩ := json.logId_null
          have null : json.logId.encode logId = jsonNull := Option.some.inj same
          rw [← null, json.logId.decode_encode] at unread
          cases unread

theorem Metadata.Stored.index_iff {db : Db} (stored : md.Stored json db) :
    (db.trees metaTree).get "snapshot_idx".utf8 = none ↔ md.snapshotIdx = none := by
  rw [stored.reads]
  exact Option.map_eq_none_iff

theorem lastAppliedState_run (stored : md.Stored json s.db) (present : md.lastApplied ≠ some none) :
    (RaftStore.lastAppliedState json).run (handleStore ids) s =
      (.ok (md.lastApplied.getD none, md.lastMembership.getD default), s) := by
  rw [RaftStore.lastAppliedState, RaftStore.run_metaGetSingle ids s (stored.readApplied present),
    RaftStore.run_metaGetSingle ids s (stored.reads "last_membership")]
  rfl

/-- Where an absent log id is on record, reading it ends the method. -/
theorem readApplied_null (ids : Nat → UInt64) {α : Type} (stored : md.Stored json s.db)
    (null : md.lastApplied = some none) (next : Option LogId → StoreAction α) :
    ∃ e, (RaftStore.metaGetSingle json.logId "last_applied" >>= next).run (handleStore ids) s =
      (.err e, s) := by
  obtain ⟨e, unread⟩ := json.logId_null
  exact ⟨_, RaftStore.run_metaGetSingle_error ids s (stored.null_iff.mpr null) unread next⟩

theorem getLogState_run (ids : Nat → UInt64) (stored : md.Stored json s.db) :
    ∃ lastLogId, (RaftStore.getLogState json).run (handleStore ids) s =
      (.ok ⟨md.lastPurged, lastLogId⟩, s) := by
  rw [RaftStore.getLogState, RaftStore.run_metaGetSingle ids s (stored.reads "last_purged"),
    RaftStore.lastLogId, Program.bind_assoc, RaftStore.run_last]
  cases last : (s.db.trees logTree).last with
  | none => exact ⟨md.lastPurged, rfl⟩
  | some e =>
      obtain ⟨entry, value⟩ := stored.log e (List.mem_of_getLast? last)
      refine ⟨some entry.logId, ?_⟩
      dsimp only
      rw [value, Program.bind_assoc, RaftStore.run_fromSlice]
      rfl

/-- Nothing on record is read as index 0. -/
theorem lastSnapshotIdx_first {α : Type} (stored : md.Stored json s.db)
    (first : md.snapshotIdx = none) (next : UInt64 → StoreAction α) :
    (RaftStore.lastSnapshotIdx >>= next).run (handleStore ids) s =
      (next 0).run (handleStore ids) s := by
  have found : (s.db.trees metaTree).get "snapshot_idx".utf8 = md.snapshotIdx.map jsonU64 :=
    stored.reads "snapshot_idx"
  rw [RaftStore.lastSnapshotIdx, Program.bind_assoc, RaftStore.run_get, found, first]
  rfl

/-- The text of an index on record is too short for eight bytes. -/
theorem lastSnapshotIdx_again {α : Type} (stored : md.Stored json s.db)
    (again : md.snapshotIdx ≠ none) (next : UInt64 → StoreAction α) :
    (RaftStore.lastSnapshotIdx >>= next).run (handleStore ids) s = (.panicked, s) := by
  have found : (s.db.trees metaTree).get "snapshot_idx".utf8 = md.snapshotIdx.map jsonU64 :=
    stored.reads "snapshot_idx"
  have one : md.snapshotIdx = some 1 := stored.once.resolve_left again
  have short : ¬ 8 ≤ (jsonU64 1).length := by decide
  rw [RaftStore.lastSnapshotIdx, Program.bind_assoc, RaftStore.run_get, found, one, Option.map_some]
  simp only [short, if_false]
  rfl

/-- The three ways a snapshot can go once the dump is made. -/
inductive Built (json : SerdeJson) (md : Metadata) (data : Bytes) (db : Db) :
    Outcome StorageError StoredSnapshot → Db → Prop where
  | unread {e : StorageError} (null : md.lastApplied = some none) : Built json md data db (.err e) db
  | again (second : md.snapshotIdx ≠ none) : Built json md data db .panicked db
  | first (present : md.lastApplied ≠ some none) (first : md.snapshotIdx = none) :
      Built json md data db (.ok (md.nextSnapshot data)) (putMeta db "snapshot_idx" (jsonU64 1))

theorem Built.ok_iff {data : Bytes} {db db' : Db} {outcome : Outcome StorageError StoredSnapshot}
    (built : Built json md data db outcome db') :
    outcome = .ok (md.nextSnapshot data) ↔ ¬md.lastApplied = some none ∧ md.snapshotIdx = none := by
  cases built with
  | unread null => exact iff_of_false nofun fun ⟨present, _⟩ => present null
  | again second => exact iff_of_false nofun fun unread => second unread.2
  | first present first => exact iff_of_true rfl ⟨present, first⟩

theorem buildSnapshot_run (stored : md.Stored json s.db) {data : Bytes} {m : Machine}
    (dumped : (PelicanQ.buildSnapshot bc json.snapshot).run (handle ids) s.machine = (.ok data, m)) :
    Built json md data s.db ((RaftStore.buildSnapshot bc json).run (handleStore ids) s).1
      ((RaftStore.buildSnapshot bc json).run (handleStore ids) s).2.db := by
  have there : md.Stored json (s.withMachine m).db := stored
  rw [RaftStore.buildSnapshot, RaftStore.run_onStateMachine, dumped]
  dsimp only [RaftStore.storageOutcome, Outcome.andThen_ok]
  by_cases null : md.lastApplied = some none
  · obtain ⟨e, run⟩ := readApplied_null ids there null fun lastApplied => do
      let lastMembership ← RaftStore.metaGetSingle json.membership "last_membership"
      let previous ← RaftStore.lastSnapshotIdx
      let snapshotIdx := previous + 1
      RaftStore.metaSet "snapshot_idx" (jsonU64 snapshotIdx)
      let snapshot : StoredSnapshot := ⟨⟨lastApplied, lastMembership.getD default,
        RaftStore.snapshotId lastApplied snapshotIdx⟩, data⟩
      .ask (.setCurrentSnapshot snapshot)
      pure snapshot
    rw [run]
    exact .unread null
  · rw [RaftStore.run_metaGetSingle ids _ (there.readApplied null),
      RaftStore.run_metaGetSingle ids _ (there.reads "last_membership")]
    by_cases first : md.snapshotIdx = none
    · rw [lastSnapshotIdx_first there first]
      have built : Built json md data s.db (.ok (md.nextSnapshot data))
        (putMeta s.db "snapshot_idx" (jsonU64 1)) := .first null first
      rw [Metadata.nextSnapshot, first] at built
      exact built
    · rw [lastSnapshotIdx_again there first]
      exact .again first

end Reading

/-! ## Runs -/

section Steps

variable {bc : Bincode} {json : SerdeJson} {ids : Nat → UInt64} {md : Metadata} {store : RaftStore}

/-- A dump that is made gives one of the ways; otherwise nothing is written or built. -/
theorem buildSnapshot_cases (stored : md.Stored json store.db) (clock : Nat → Int64) :
    let r := execStore ids clock (RaftStore.buildSnapshot bc json) store
    (∃ data, dumpOf bc json ids store clock = .ok data ∧ Built json md data store.db r.1 r.2.db) ∨
      (∀ data, dumpOf bc json ids store clock ≠ .ok data) ∧ (∀ snapshot, r.1 ≠ .ok snapshot) ∧
        r.2.db = store.db := by
  have here : md.Stored json (StoreMachine.mk store clock).db := stored
  have dump : dumpOf bc json ids store clock =
    ((PelicanQ.buildSnapshot bc json.snapshot).run (handle ids) ⟨store.stateMachine, clock⟩).1 := rfl
  cases ran : (PelicanQ.buildSnapshot bc json.snapshot).run (handle ids)
      (StoreMachine.mk store clock).machine with
  | mk outcome m =>
      rw [show dumpOf bc json ids store clock = outcome from dump.trans (congrArg Prod.fst ran)]
      cases outcome with
      | ok data => exact .inl ⟨data, rfl, buildSnapshot_run here ran⟩
      | err | panicked | diverged =>
          dsimp only
          rw [execStore, RaftStore.buildSnapshot, RaftStore.run_onStateMachine, ran]
          exact .inr ⟨nofun, nofun, rfl⟩

/-- The index of a snapshot is on record when it was built. -/
theorem Built.recorded {data : Bytes} {db db' : Db} {clock : Nat → Int64}
    {outcome : Outcome StorageError StoredSnapshot} (built : Built json md data db outcome db')
    (stored : md.Stored json db) :
    (md.record bc ids store ⟨.buildSnapshot, clock⟩ (.built outcome)).Stored json db' := by
  cases built with
  | unread | again => exact stored
  | first present first =>
      change Metadata.Stored json { md with snapshotIdx := some (md.snapshotIdx.getD 0 + 1) } _
      rw [first]
      exact stored.putSnapshotIdx

theorem Metadata.Stored.step (stored : md.Stored json store.db) (step : StoreStep) :
    (md.record bc ids store step (step.op.perform bc json ids step.clock store).1).Stored json
      (step.op.perform bc json ids step.clock store).2.db := by
  obtain ⟨op, clock⟩ := step
  cases op with
  | saveVote vote => exact stored.putVote vote
  | readVote =>
      change md.Stored json (execStore ids clock (RaftStore.readVote json) store).2.db
      rw [execStore_reads RaftStore.only_readVote]
      exact stored
  | tryGetLogEntries start stop =>
      change md.Stored json
        (execStore ids clock (RaftStore.tryGetLogEntries json start stop) store).2.db
      rw [execStore_reads (RaftStore.only_tryGetLogEntries start stop)]
      exact stored
  | lastAppliedState =>
      change md.Stored json (execStore ids clock (RaftStore.lastAppliedState json) store).2.db
      rw [execStore_reads RaftStore.only_lastAppliedState]
      exact stored
  | getLogState =>
      change md.Stored json (execStore ids clock (RaftStore.getLogState json) store).2.db
      rw [execStore_reads RaftStore.only_getLogState]
      exact stored
  | appendToLog entries =>
      change md.Stored json (execStore ids clock (RaftStore.appendToLog json entries) store).2.db
      rw [execStore, RaftStore.appendToLog_run]
      exact (stored.inserted entries).flush
  | deleteConflictLogsSince logId =>
      change md.Stored json
        (execStore ids clock (RaftStore.deleteConflictLogsSince logId) store).2.db
      rw [execStore, RaftStore.deleteConflictLogsSince_run]
      exact (stored.removed _).flush
  | purgeLogsUpto logId =>
      change Metadata.Stored json _
        (execStore ids clock (RaftStore.purgeLogsUpto json logId) store).2.db
      rw [execStore, RaftStore.purgeLogsUpto_run]
      exact ((stored.removed _).putLastPurged logId).flush
  | applyToStateMachine entries =>
      change Metadata.Stored json _
        ((RaftStore.applyToStateMachine bc json entries).run (handleStore ids) ⟨store, clock⟩).2.db
      rw [RaftStore.applyToStateMachine_run]
      exact stored.markedAll _
  | buildSnapshot =>
      change (md.record bc ids store ⟨.buildSnapshot, clock⟩
        (.built (execStore ids clock (RaftStore.buildSnapshot bc json) store).1)).Stored json
        (execStore ids clock (RaftStore.buildSnapshot bc json) store).2.db
      rcases buildSnapshot_cases stored clock with ⟨data, -, built⟩ | ⟨-, refused, same⟩
      · exact built.recorded stored
      · rw [same]
        cases ran : (execStore ids clock (RaftStore.buildSnapshot bc json) store).1 with
        | ok snapshot => exact absurd ran (refused snapshot)
        | err | panicked | diverged => exact stored
  | installSnapshot info data =>
      change (md.record bc ids store ⟨.installSnapshot info data, clock⟩
        (.done (execStore ids clock (RaftStore.installSnapshot bc json info data) store).1)).Stored
        json (execStore ids clock (RaftStore.installSnapshot bc json info data) store).2.db
      rw [execStore, RaftStore.installSnapshot_run]
      cases ((PelicanQ.installSnapshot bc json.snapshot data).run (handle ids)
          (StoreMachine.mk store clock).machine).1 with
      | ok => exact ((stored.putLastApplied info.lastLogId).putLastMembership _).flush
      | err | panicked | diverged => exact stored
  | getCurrentSnapshot => exact stored
  | reopen => exact stored

theorem Metadata.Stored.afterCalls (stored : md.Stored json store.db) (steps : List StoreStep) :
    (lastWritten bc json ids store md steps).Stored json (afterCalls bc json ids store steps).db := by
  induction steps generalizing md store with
  | nil => exact stored
  | cons step steps ih => exact ih (stored.step step)

/-- An empty store has nothing on record. -/
theorem Metadata.stored_openedStore : Metadata.Stored json {} (openedStore bc ids).db where
  reads key := by
    simp only [Metadata.text, Option.map_none, ite_self]
    rfl
  once := .inl rfl
  log := nofun

/-- Whether the next call reads back what is on record, from what is on record. -/
theorem Metadata.Stored.reads_back_iff (stored : md.Stored json store.db) (step : StoreStep) :
    ReadsBack bc json ids md store step ↔ Readable bc json ids store step := by
  obtain ⟨op, clock⟩ := step
  have here : md.Stored json (StoreMachine.mk store clock).db := stored
  cases op with
  | readVote =>
      refine iff_of_true ?_ trivial
      change StoreResponse.vote (execStore ids clock (RaftStore.readVote json) store).1 = _
      rw [execStore, RaftStore.readVote, ← Program.bind_ret (RaftStore.metaGetSingle _ _),
        RaftStore.run_metaGetSingle ids _ (here.reads "vote")]
      rfl
  | getLogState =>
      refine iff_of_true ?_ trivial
      obtain ⟨lastLogId, run⟩ := getLogState_run ids here
      refine ⟨lastLogId, ?_⟩
      change StoreResponse.logState (execStore ids clock (RaftStore.getLogState json) store).1 = _
      rw [execStore, run]
  | lastAppliedState =>
      change StoreResponse.lastApplied
        (execStore ids clock (RaftStore.lastAppliedState json) store).1 = _ ↔
          (store.db.trees metaTree).get "last_applied".utf8 ≠ some jsonNull
      rw [Ne, stored.null_iff, execStore]
      by_cases null : md.lastApplied = some none
      · obtain ⟨e, run⟩ := readApplied_null ids here null fun lastApplied => do
          let lastMembership ← RaftStore.metaGetSingle json.membership "last_membership"
          pure (lastApplied, lastMembership.getD default)
        rw [RaftStore.lastAppliedState, run]
        exact iff_of_false nofun (not_not_intro null)
      · rw [lastAppliedState_run here null]
        exact iff_of_true rfl null
  | buildSnapshot =>
      change (∀ data, dumpOf bc json ids store clock = .ok data →
          StoreResponse.built (execStore ids clock (RaftStore.buildSnapshot bc json) store).1 =
            .built (.ok (md.nextSnapshot data))) ↔
        ((∃ data, dumpOf bc json ids store clock = .ok data) →
          (store.db.trees metaTree).get "last_applied".utf8 ≠ some jsonNull ∧
            (store.db.trees metaTree).get "snapshot_idx".utf8 = none)
      rcases buildSnapshot_cases stored clock with ⟨data, dumped, built⟩ | ⟨refused, -, -⟩
      · rw [dumped, Ne, stored.null_iff, stored.index_iff, ← built.ok_iff]
        refine ⟨fun returned _ => StoreResponse.built.inj (returned data rfl), ?_⟩
        rintro returned other ⟨⟩
        rw [returned ⟨data, rfl⟩]
      · exact iff_of_true (fun data dumped => absurd dumped (refused data))
          fun ⟨data, dumped⟩ => absurd dumped (refused data)
  | _ => exact Iff.rfl

end Steps

/-- After any calls on a fresh directory, the next one reads back what was last written, and a
    snapshot built is the next in number, exactly when no absent log id is on record where one
    is read and no snapshot was built before. -/
theorem metadata_reads_back_iff (bc : Bincode) (json : SerdeJson) (ids : Nat → UInt64)
    (steps : List StoreStep) (step : StoreStep) :
    ReadsBack bc json ids (lastWritten bc json ids (openedStore bc ids) {} steps)
        (afterCalls bc json ids (openedStore bc ids) steps) step ↔
      Readable bc json ids (afterCalls bc json ids (openedStore bc ids) steps) step :=
  (Metadata.stored_openedStore.afterCalls steps).reads_back_iff step

/-- The metadata of a snapshot with nothing in its log. -/
def emptyMeta : SnapshotMeta := ⟨none, default, ""⟩

/-- The response to a call on a store. -/
def respond (steps : List StoreOperation) (op : StoreOperation) : StoreResponse :=
  (op.perform bincode serdeJson (counter 0) (fun _ => 0)
    (afterCalls bincode serdeJson (counter 0) (openedStore bincode (counter 0))
      (steps.map fun op => ⟨op, fun _ => 0⟩))).1

/-- A second snapshot of an empty store panics, also after reopening it; after the installation
    of an empty snapshot the last applied log id is not read. -/
theorem metadata_unread :
    respond [.buildSnapshot] .buildSnapshot = .built .panicked ∧
      respond [.buildSnapshot, .reopen] .buildSnapshot = .built .panicked ∧
      respond [.installSnapshot emptyMeta (serdeJson.snapshot.encode ⟨.empty⟩)]
        .lastAppliedState = .lastApplied (.err ⟨.stateMachine, .read, "expected value"⟩) := by
  decide +kernel

end PelicanQ
