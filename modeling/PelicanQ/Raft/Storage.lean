import PelicanQ.Raft.Types

/-! # The storage of a replica

`storage.rs`: the log, the metadata and the state machine of one replica.  The
log and the metadata are two trees of a database of their own, next to the one
of the queue manager; nothing ties the writes of the two together.

Methods are programs over both, so that the writes a method makes can be looked
at one by one.  Database calls do not fail here, as for the queue manager.
-/

namespace PelicanQ

structure RaftStore where
  /-- The database of the log and the metadata. -/
  db : Sled.Db
  stateMachine : QueueManager
  currentSnapshot : Option StoredSnapshot

def logTree : String := "log"

def metaTree : String := "meta"

/-- What a method asks of its surroundings. -/
inductive StoreCall : Type → Type 1 where
  | sled {β : Type} (c : Sled.Call β) : StoreCall β
  | stateMachine {β : Type} (c : Call β) : StoreCall β
  | currentSnapshot : StoreCall (Option StoredSnapshot)
  | setCurrentSnapshot (snapshot : StoredSnapshot) : StoreCall Unit

/-- A store inside a method, with the clock readings the method will get. -/
structure StoreMachine where
  store : RaftStore
  clock : Nat → Int64

def handleStore (ids : Nat → UInt64) : Handler StoreCall StoreMachine
  | _, .sled c, s =>
      -- this database is never asked for an id
      let (answer, db) := Sled.handle (fun _ => 0) _ c s.store.db
      (answer, { s with store := { s.store with db := db } })
  | _, .stateMachine c, s =>
      let (answer, m) := handle ids _ c ⟨s.store.stateMachine, s.clock⟩
      (answer, ⟨{ s.store with stateMachine := m.manager }, m.clock⟩)
  | _, .currentSnapshot, s => (s.store.currentSnapshot, s)
  | _, .setCurrentSnapshot snapshot, s =>
      ((), { s with store := { s.store with currentSnapshot := some snapshot } })

abbrev StoreAction (α : Type) := Program StoreCall StorageError α

/-- Run a method on a store. -/
def execStore {α : Type} (ids : Nat → UInt64) (clock : Nat → Int64) (action : StoreAction α)
    (store : RaftStore) : Outcome StorageError α × RaftStore :=
  let (outcome, s) := action.run (handleStore ids) ⟨store, clock⟩
  (outcome, s.store)

namespace RaftStore

section Calls

def call {β : Type} (c : Sled.Call β) : StoreAction β := .ask (.sled c)

/-- Run a method of the state machine; an error becomes a storage error, a panic stays one. -/
def onStateMachine {α : Type} (action : Action α) : StoreAction α := do
  match ← (action.embed (fun c => StoreCall.stateMachine c) :
      StoreAction (Except PelicanError α)) with
  | .ok a => pure a
  | .error e => .fail ⟨.stateMachine, .write, e.display⟩

/-- `serde_json::from_slice`, with the error of a reading method. -/
def fromSlice {α : Type} (codec : Codec α) (value : Bytes) : StoreAction α :=
  match codec.decode value with
  | .ok a => pure a
  | .error e => .fail ⟨.stateMachine, .read, e⟩

/-- The value is written as `data`. -/
def metaSet (key : String) (data : Bytes) : StoreAction Unit := do
  call (.insert metaTree key.utf8 data)
  call .flush

def metaGetSingle {α : Type} (codec : Codec α) (key : String) : StoreAction (Option α) := do
  match ← call (.get metaTree key.utf8) with
  | some value => do
      let a ← fromSlice codec value
      pure (some a)
  | none => pure none

/-- `u64::saturating_add(1)`. -/
def saturatingSucc (i : UInt64) : UInt64 := if i = 18446744073709551615 then i else i + 1

end Calls

variable (bc : Bincode) (json : SerdeJson)

/-- The entries of a part of the log. -/
def readEntries : List (Bytes × Bytes) → StoreAction (List LogEntry)
  | [] => pure []
  | (_, value) :: rest => do
      let entry ← fromSlice json.entry value
      let more ← readEntries rest
      pure (entry :: more)

def tryGetLogEntries (start stop : Bound UInt64) : StoreAction (List LogEntry) := do
  let first : UInt64 := match start with
    | .included i => i
    | .excluded i => saturatingSucc i
    | .unbounded => 0
  let last : UInt64 := match stop with
    | .included i => saturatingSucc i
    | .excluded i => i
    | .unbounded => 18446744073709551615
  if last ≤ first then pure [] else do
    let found ← call (.range logTree (.included first.toBeBytes) (.excluded last.toBeBytes))
    readEntries json found

/-- The index of the last snapshot built.  It is stored as text and read as eight bytes. -/
def lastSnapshotIdx : StoreAction UInt64 := do
  match ← call (.get metaTree "snapshot_idx".utf8) with
  | some v => if 8 ≤ v.length then pure (UInt64.fromBeBytes (v.take 8)) else .panic
  | none => pure 0

def snapshotId (lastApplied : Option LogId) (snapshotIdx : UInt64) : String :=
  match lastApplied with
  | some last => last.leaderId.display ++ "-" ++ toString last.index ++ "-" ++ toString snapshotIdx
  | none => "--" ++ toString snapshotIdx

def buildSnapshot : StoreAction StoredSnapshot := do
  let data ← onStateMachine (PelicanQ.buildSnapshot bc json.snapshot)
  let lastApplied ← metaGetSingle json.logId "last_applied"
  let lastMembership ← metaGetSingle json.membership "last_membership"
  let previous ← lastSnapshotIdx
  let snapshotIdx := previous + 1
  metaSet "snapshot_idx" (jsonU64 snapshotIdx)
  let snapshot : StoredSnapshot :=
    ⟨⟨lastApplied, lastMembership.getD default, snapshotId lastApplied snapshotIdx⟩, data⟩
  .ask (.setCurrentSnapshot snapshot)
  pure snapshot

/-- The log id of the last entry, or the purged one when there is no entry. -/
def lastLogId (lastPurged : Option LogId) : StoreAction (Option LogId) := do
  match ← call (.last logTree) with
  | some (_, value) => do
      let entry ← fromSlice json.entry value
      pure (some entry.logId)
  | none => pure lastPurged

def getLogState : StoreAction LogState := do
  let lastPurged ← metaGetSingle json.logId "last_purged"
  let lastLogId ← lastLogId json lastPurged
  pure ⟨lastPurged, lastLogId⟩

def saveVote (vote : Vote) : StoreAction Unit := metaSet "vote" (json.vote.encode vote)

def readVote : StoreAction (Option Vote) := metaGetSingle json.vote "vote"

def insertEntries : List LogEntry → StoreAction Unit
  | [] => pure ()
  | entry :: rest => do
      call (.insert logTree entry.logId.index.toBeBytes (json.entry.encode entry))
      insertEntries rest

def appendToLog (entries : List LogEntry) : StoreAction Unit := do
  insertEntries json entries
  call .flush

/-- Remove log entries one by one, in the order they were found. -/
def removeKeys : List (Bytes × Bytes) → StoreAction Unit
  | [] => pure ()
  | (key, _) :: rest => do
      let _ ← call (.remove logTree key)
      removeKeys rest

def deleteConflictLogsSince (logId : LogId) : StoreAction Unit := do
  let found ← call (.range logTree (.included logId.index.toBeBytes)
    (.included (18446744073709551615 : UInt64).toBeBytes))
  removeKeys found
  call .flush

def purgeLogsUpto (logId : LogId) : StoreAction Unit := do
  let found ← call (.range logTree (.included (0 : UInt64).toBeBytes)
    (.included logId.index.toBeBytes))
  removeKeys found
  metaSet "last_purged" (json.logId.encode logId)
  call .flush

def lastAppliedState : StoreAction (Option LogId × StoredMembership) := do
  let lastApplied ← metaGetSingle json.logId "last_applied"
  let lastMembership ← metaGetSingle json.membership "last_membership"
  pure (lastApplied, lastMembership.getD default)

/-- What one entry does before it is marked as applied. -/
def applyPayload (entry : LogEntry) : StoreAction QueueOperationResponse :=
  match entry.payload with
  | .blank => pure (.ack (.ok ()))
  | .normal op => onStateMachine (applyOperation bc ample op)
  | .membership m => do
      metaSet "last_membership" (json.membership.encode ⟨some entry.logId, m⟩)
      pure (.ack (.ok ()))

def applyToStateMachine : List LogEntry → StoreAction (List QueueOperationResponse)
  | [] => pure []
  | entry :: rest => do
      let response ← applyPayload bc json entry
      metaSet "last_applied" (json.logId.encode entry.logId)
      let responses ← applyToStateMachine rest
      pure (response :: responses)

def installSnapshot (info : SnapshotMeta) (data : Bytes) : StoreAction Unit := do
  onStateMachine (PelicanQ.installSnapshot bc json.snapshot data)
  metaSet "last_applied" (jsonOption json.logId info.lastLogId)
  metaSet "last_membership" (json.membership.encode info.lastMembership)
  .ask (.setCurrentSnapshot ⟨info, data⟩)
  call .flush

def getCurrentSnapshot : StoreAction (Option StoredSnapshot) := .ask .currentSnapshot

/-- Open the store of a data directory: the state machine first, then the log. -/
def «open» (ids : Nat → UInt64) (clock : Nat → Int64) (queues raft : Sled.Db) :
    Outcome PelicanError Unit × RaftStore :=
  let (outcome, qm) := QueueManager.open bc ids clock none queues
  (outcome, ⟨raft, qm, none⟩)

end RaftStore

/-! ## Runs of a store -/

inductive StoreOperation where
  | saveVote (vote : Vote)
  | readVote
  | appendToLog (entries : List LogEntry)
  | deleteConflictLogsSince (logId : LogId)
  | purgeLogsUpto (logId : LogId)
  | getLogState
  | tryGetLogEntries (start stop : Bound UInt64)
  | applyToStateMachine (entries : List LogEntry)
  | lastAppliedState
  | buildSnapshot
  | installSnapshot (info : SnapshotMeta) (data : Bytes)
  | getCurrentSnapshot
  /-- Drop the store, then `RaftStore::open`. -/
  | reopen
  deriving DecidableEq, Repr

inductive StoreResponse where
  | done (result : Outcome StorageError Unit)
  | vote (result : Outcome StorageError (Option Vote))
  | logState (result : Outcome StorageError LogState)
  | entries (result : Outcome StorageError (List LogEntry))
  | applied (result : Outcome StorageError (List QueueOperationResponse))
  | lastApplied (result : Outcome StorageError (Option LogId × StoredMembership))
  | built (result : Outcome StorageError StoredSnapshot)
  | current (result : Outcome StorageError (Option StoredSnapshot))
  | reopened (result : Outcome PelicanError Unit)
  deriving DecidableEq

/-- A call and the clock readings it gets. -/
structure StoreStep where
  op : StoreOperation
  clock : Nat → Int64

section Runs

variable (bc : Bincode) (json : SerdeJson) (ids : Nat → UInt64)

def StoreOperation.perform (clock : Nat → Int64) (store : RaftStore) :
    StoreOperation → StoreResponse × RaftStore
  | .saveVote vote => (execStore ids clock (RaftStore.saveVote json vote) store).map .done id
  | .readVote => (execStore ids clock (RaftStore.readVote json) store).map .vote id
  | .appendToLog entries =>
      (execStore ids clock (RaftStore.appendToLog json entries) store).map .done id
  | .deleteConflictLogsSince logId =>
      (execStore ids clock (RaftStore.deleteConflictLogsSince logId) store).map .done id
  | .purgeLogsUpto logId =>
      (execStore ids clock (RaftStore.purgeLogsUpto json logId) store).map .done id
  | .getLogState => (execStore ids clock (RaftStore.getLogState json) store).map .logState id
  | .tryGetLogEntries start stop =>
      (execStore ids clock (RaftStore.tryGetLogEntries json start stop) store).map .entries id
  | .applyToStateMachine entries =>
      (execStore ids clock (RaftStore.applyToStateMachine bc json entries) store).map .applied id
  | .lastAppliedState =>
      (execStore ids clock (RaftStore.lastAppliedState json) store).map .lastApplied id
  | .buildSnapshot => (execStore ids clock (RaftStore.buildSnapshot bc json) store).map .built id
  | .installSnapshot info data =>
      (execStore ids clock (RaftStore.installSnapshot bc json info data) store).map .done id
  | .getCurrentSnapshot =>
      (execStore ids clock RaftStore.getCurrentSnapshot store).map .current id
  | .reopen => (RaftStore.open bc ids clock store.stateMachine.db store.db).map .reopened id

/-- The store after a sequence of calls. -/
def afterCalls (store : RaftStore) (steps : List StoreStep) : RaftStore :=
  steps.foldl (fun store step => (step.op.perform bc json ids step.clock store).2) store

/-- A store opened on an empty directory. -/
def openedStore : RaftStore := (RaftStore.open bc ids (fun _ => 0) .empty .empty).2

theorem afterCalls_append (store : RaftStore) (steps steps' : List StoreStep) :
    afterCalls bc json ids store (steps ++ steps') =
      afterCalls bc json ids (afterCalls bc json ids store steps) steps' :=
  List.foldl_append

end Runs

end PelicanQ
