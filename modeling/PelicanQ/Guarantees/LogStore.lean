import PelicanQ.Lib.IndexedLog
import PelicanQ.Sled.Crash
import PelicanQ.Raft.Effects

/-! # The log store is an indexed log

Entries are stored under the big-endian bytes of their index, so that the store
sorts them by index, and what was purged is remembered in the metadata.  Used as
the consensus library uses it, the store holds an interval of indices whose
bounds are those it reports, and a range of indices is answered with the entries
of that range.
-/

namespace PelicanQ

open Sled (Db)

/-- The calls that change the log. -/
inductive LogCall where
  | append (entries : List LogEntry)
  | truncate (logId : LogId)
  | purge (logId : LogId)
  deriving DecidableEq, Repr

def LogCall.program (json : SerdeJson) : LogCall → StoreAction Unit
  | .append entries => RaftStore.appendToLog json entries
  | .truncate logId => RaftStore.deleteConflictLogsSince logId
  | .purge logId => RaftStore.purgeLogsUpto json logId

def LogCall.op : LogCall → StoreOperation
  | .append entries => .appendToLog entries
  | .truncate logId => .deleteConflictLogsSince logId
  | .purge logId => .purgeLogsUpto logId

/-- The index after a log id, and the first index when there is none. -/
def firstIndex : Option LogId → Nat
  | none => 0
  | some logId => logId.index.toNat + 1

/-- The log of a replica: the log id up to which it is purged, and the entries after it. -/
structure ReplicaLog where
  lastPurged : Option LogId
  log : IndexedLog LogEntry fun e => e.logId.index.toNat
  first_eq : log.first = firstIndex lastPurged

/-- The log id of the last entry, or the purged one. -/
def lastOf (purged : Option LogId) (entries : List LogEntry) : Option LogId :=
  (entries.getLast?.map LogEntry.logId).or purged

namespace ReplicaLog

def empty : ReplicaLog := ⟨none, .empty, rfl⟩

def lastLogId (r : ReplicaLog) : Option LogId := lastOf r.lastPurged r.log.entries

theorem next_eq (r : ReplicaLog) : r.log.next = firstIndex r.lastLogId := by
  rw [lastLogId, lastOf]
  cases last : r.log.entries.getLast? with
  | none =>
      have none : r.log.entries = [] := List.getLast?_eq_none_iff.mp last
      exact ((r.log.entries_eq_nil_iff.mp none).symm.trans r.first_eq)
  | some e => exact (r.log.last_index last).symm

def append (r : ReplicaLog) (entries : List LogEntry) (follows : r.log.Follows entries) :
    ReplicaLog :=
  ⟨r.lastPurged, r.log.append entries follows, r.first_eq⟩

def truncate (r : ReplicaLog) (logId : LogId) (above : r.log.first ≤ logId.index.toNat) :
    ReplicaLog :=
  ⟨r.lastPurged, r.log.truncate logId.index.toNat above, r.first_eq⟩

def purge (r : ReplicaLog) (logId : LogId) (forward : r.log.first ≤ logId.index.toNat + 1) :
    ReplicaLog :=
  ⟨some logId, r.log.purge (logId.index.toNat + 1) forward, rfl⟩

end ReplicaLog

/-- Entries at consecutive indices from `next` on. -/
def Consecutive (next : Nat) (entries : List LogEntry) : Prop :=
  entries.map (fun e => e.logId.index.toNat) = List.range' next entries.length

instance (next : Nat) (entries : List LogEntry) : Decidable (Consecutive next entries) :=
  inferInstanceAs (Decidable (_ = _))

theorem ReplicaLog.follows {r : ReplicaLog} {entries : List LogEntry}
    (consecutive : Consecutive (firstIndex r.lastLogId) entries) : r.log.Follows entries := by
  rw [IndexedLog.Follows, r.next_eq]
  exact consecutive

/-- What the consensus library may ask, and what becomes of the log: batches continue after the
    last log id, truncations start above the purged one, and purges do not go back. -/
inductive LogAdvance (r : ReplicaLog) : LogCall → ReplicaLog → Prop where
  | append (entries : List LogEntry)
      (consecutive : Consecutive (firstIndex r.lastLogId) entries) :
      LogAdvance r (.append entries) (r.append entries (r.follows consecutive))
  | truncate (logId : LogId) (above : firstIndex r.lastPurged ≤ logId.index.toNat) :
      LogAdvance r (.truncate logId) (r.truncate logId (r.first_eq.trans_le above))
  | purge (logId : LogId) (forward : firstIndex r.lastPurged ≤ logId.index.toNat + 1) :
      LogAdvance r (.purge logId) (r.purge logId (r.first_eq.trans_le forward))

/-- Runs from an empty directory, with reopenings between the calls. -/
inductive LogRun : List StoreStep → ReplicaLog → Prop where
  | start : LogRun [] .empty
  | call {steps : List StoreStep} {r r' : ReplicaLog} {c : LogCall} (clock : Nat → Int64) :
      LogRun steps r → LogAdvance r c r' → LogRun (steps ++ [⟨c.op, clock⟩]) r'
  | reopen {steps : List StoreStep} {r : ReplicaLog} (clock : Nat → Int64) :
      LogRun steps r → LogRun (steps ++ [⟨.reopen, clock⟩]) r

/-- How an entry is stored. -/
def row (json : SerdeJson) (e : LogEntry) : Bytes × Bytes :=
  (e.logId.index.toBeBytes, json.entry.encode e)

/-- The database holds these entries and this purged log id. -/
structure StoresLog (json : SerdeJson) (purged : Option LogId) (entries : List LogEntry)
    (db : Db) : Prop where
  rows : (db.trees logTree).entries = entries.map (row json)
  purged : (db.trees metaTree).get "last_purged".utf8 = purged.map json.logId.encode

section Reading

variable {json : SerdeJson} {purged : Option LogId} {entries : List LogEntry} {s : StoreMachine}

theorem StoresLog.getLogState_run (stores : StoresLog json purged entries s.db)
    (ids : Nat → UInt64) :
    (RaftStore.getLogState json).run (handleStore ids) s =
      (.ok ⟨purged, lastOf purged entries⟩, s) := by
  rw [RaftStore.getLogState, RaftStore.run_metaGetSingle ids s stores.purged, RaftStore.lastLogId,
    Program.bind_assoc, RaftStore.run_last, OrdMap.last, stores.rows, List.getLast?_map, lastOf]
  cases entries.getLast? with
  | none => rfl
  | some e =>
      simp only [Option.map_some, row, Program.bind_assoc, RaftStore.run_fromSlice, Option.some_or]
      rfl

theorem StoresLog.getLogState_perform {bc : Bincode} {ids : Nat → UInt64} {store : RaftStore}
    (stores : StoresLog json purged entries store.db) (clock : Nat → Int64) :
    (StoreOperation.getLogState.perform bc json ids clock store).1 =
      .logState (.ok ⟨purged, lastOf purged entries⟩) := by
  have here : StoresLog json purged entries (StoreMachine.mk store clock).db := stores
  change StoreResponse.logState (execStore ids clock (RaftStore.getLogState json) store).1 = _
  rw [execStore, here.getLogState_run]

theorem readEntries_run (ids : Nat → UInt64) (entries : List LogEntry) :
    (RaftStore.readEntries json (entries.map (row json))).run (handleStore ids) s =
      (.ok entries, s) := by
  induction entries with
  | nil => rfl
  | cons e entries ih =>
      rw [List.map_cons, row, RaftStore.readEntries, RaftStore.run_fromSlice, Program.run_bind, ih]
      rfl

/-- The first index asked for. -/
def lowest : Bound UInt64 → UInt64
  | .included i => i
  | .excluded i => RaftStore.saturatingSucc i
  | .unbounded => 0

/-- The index at which the answer stops. -/
def highest : Bound UInt64 → UInt64
  | .included i => RaftStore.saturatingSucc i
  | .excluded i => i
  | .unbounded => 18446744073709551615

theorem saturatingSucc_toNat (i : UInt64) :
    (RaftStore.saturatingSucc i).toNat = min (i.toNat + 1) 18446744073709551615 := by
  have small := i.toNat_lt
  rw [RaftStore.saturatingSucc]
  split_ifs with top
  · subst top
    decide
  · have below : i.toNat ≠ 18446744073709551615 := fun same => top (UInt64.toNat_inj.mp same)
    rw [UInt64.toNat_add, UInt64.toNat_one]
    omega

theorem lowest_le_iff (start : Bound UInt64) {i : UInt64} (below : i < 18446744073709551615) :
    lowest start ≤ i ↔ start.Starts i := by
  cases start with
  | included a => exact Iff.rfl
  | excluded a =>
      simp only [lowest, Bound.Starts, UInt64.le_iff_toNat_le, UInt64.lt_iff_toNat_lt,
        saturatingSucc_toNat] at below ⊢
      change i.toNat < 18446744073709551615 at below
      omega
  | unbounded => exact iff_of_true (UInt64.le_iff_toNat_le.mpr (Nat.zero_le _)) trivial

theorem lt_highest_iff (stop : Bound UInt64) {i : UInt64} :
    i < highest stop ↔ stop.Ends i ∧ i < 18446744073709551615 := by
  have small := i.toNat_lt
  cases stop with
  | included b =>
      have small' := b.toNat_lt
      simp only [highest, Bound.Ends, UInt64.le_iff_toNat_le, UInt64.lt_iff_toNat_lt,
        saturatingSucc_toNat]
      change _ ↔ _ ∧ i.toNat < 18446744073709551615
      omega
  | excluded b =>
      have small' := b.toNat_lt
      simp only [highest, Bound.Ends, UInt64.lt_iff_toNat_lt]
      change _ ↔ _ ∧ i.toNat < 18446744073709551615
      omega
  | unbounded => simp [highest, Bound.Ends]

/-- A range of indices is answered with the entries in it.  The highest index of all is never
    reached, because every answer stops before some index. -/
theorem StoresLog.tryGetLogEntries_run (stores : StoresLog json purged entries s.db)
    (ids : Nat → UInt64) (start stop : Bound UInt64) :
    (RaftStore.tryGetLogEntries json start stop).run (handleStore ids) s =
      (.ok (entries.filter fun e => start.Starts e.logId.index ∧ stop.Ends e.logId.index ∧
        e.logId.index < 18446744073709551615), s) := by
  have asked (i : UInt64) : (start.Starts i ∧ stop.Ends i ∧ i < 18446744073709551615) ↔
      lowest start ≤ i ∧ i < highest stop := by
    rw [lt_highest_iff]
    constructor
    · exact fun ⟨low, high, below⟩ => ⟨(lowest_le_iff start below).mpr low, high, below⟩
    · exact fun ⟨low, high, below⟩ => ⟨(lowest_le_iff start below).mp low, high, below⟩
  have program : RaftStore.tryGetLogEntries json start stop =
      if highest stop ≤ lowest start then pure []
      else RaftStore.call (.range logTree (.included (lowest start).toBeBytes)
        (.excluded (highest stop).toBeBytes)) >>= RaftStore.readEntries json := rfl
  simp only [asked]
  rw [program]
  split_ifs with none
  · have nothing : (entries.filter fun e =>
        lowest start ≤ e.logId.index ∧ e.logId.index < highest stop) = [] :=
      List.filter_eq_nil_iff.mpr fun e _ => by
        simp only [decide_eq_true_eq, not_and, not_lt]
        exact fun low => none.trans low
    rw [nothing]
    rfl
  · have found : (s.db.trees logTree).range (.included (lowest start).toBeBytes)
        (.excluded (highest stop).toBeBytes) = (entries.filter fun e =>
          lowest start ≤ e.logId.index ∧ e.logId.index < highest stop).map (row json) := by
      rw [OrdMap.range, stores.rows, List.filter_map]
      congr 1
      refine List.filter_congr fun e _ => ?_
      simp only [Function.comp, row, Bound.Starts, Bound.Ends,
        UInt64.toBeBytes_strictMono.le_iff_le, UInt64.toBeBytes_strictMono.lt_iff_lt]
    rw [RaftStore.run_range, found, readEntries_run]

end Reading

/-! ## Writing -/

section Writing

variable {json : SerdeJson} {purged : Option LogId} {entries : List LogEntry} {db : Db}

theorem StoresLog.flush (stores : StoresLog json purged entries db) :
    StoresLog json purged entries db.flush :=
  ⟨stores.rows, stores.purged⟩

theorem StoresLog.inserted (stores : StoresLog json purged entries db) {batch : List LogEntry}
    (sorted : (entries ++ batch).Pairwise fun a b => a.logId.index.toNat < b.logId.index.toNat) :
    StoresLog json purged (entries ++ batch) (batch.foldl (insertEntry json) db) where
  rows := by
    have keys : ((entries ++ batch).map (row json)).Pairwise fun a b => a.1 < b.1 :=
      List.pairwise_map.mpr (sorted.imp fun less =>
        UInt64.toBeBytes_strictMono (UInt64.lt_iff_toNat_lt.mpr less))
    rw [List.map_append, List.pairwise_append] at keys
    have entered := OrdMap.foldl_insert_sorted (m := db.trees logTree) keys.2.1
      fun k listed e new => by
        obtain ⟨e', old, rfl⟩ := List.mem_map.mp listed
        rw [stores.rows] at old
        exact keys.2.2 e' old e new
    rw [insertEntries_log, List.map_append, ← stores.rows, ← entered, List.foldl_map]
    rfl
  purged := by rw [insertEntries_meta, stores.purged]

theorem StoresLog.removed (stores : StoresLog json purged entries db)
    (found : List (Bytes × Bytes)) :
    StoresLog json purged (entries.filter fun e => e.logId.index.toBeBytes ∉ found.map Prod.fst)
      (found.foldl removeKey db) where
  rows := by
    rw [removeKeys_log, OrdMap.foldl_erase_entries, stores.rows, List.filter_map]
    congr 1
    exact List.filter_congr fun e _ => decide_eq_decide.mpr Iff.rfl
  purged := by rw [removeKeys_meta, stores.purged]

theorem StoresLog.putPurged (stores : StoresLog json purged entries db) (logId : LogId) :
    StoresLog json (some logId) entries
      (putMeta db "last_purged" (json.logId.encode logId)) where
  rows := by rw [putMeta_log, stores.rows]
  purged := (putMeta_get db "last_purged" "last_purged" _).trans (if_pos rfl)

/-- The rows of the entries in a range of keys. -/
theorem StoresLog.range_rows (stores : StoresLog json purged entries db) (start stop : UInt64) :
    (db.trees logTree).range (.included start.toBeBytes) (.included stop.toBeBytes) =
      (entries.filter fun e => start ≤ e.logId.index ∧ e.logId.index ≤ stop).map (row json) := by
  rw [OrdMap.range, stores.rows, List.filter_map]
  congr 1
  refine List.filter_congr fun e _ => ?_
  simp only [Function.comp, row, Bound.Starts, Bound.Ends, UInt64.toBeBytes_strictMono.le_iff_le]

/-- Removing the rows of some entries leaves the others. -/
theorem filter_not_rows (keep : LogEntry → Bool)
    (byIndex : ∀ e e' : LogEntry, e.logId.index = e'.logId.index → keep e = keep e') :
    (entries.filter fun e => e.logId.index.toBeBytes ∉
      ((entries.filter keep).map (row json)).map Prod.fst) = entries.filter fun e => !keep e := by
  refine List.filter_congr fun e member => ?_
  have listed : e.logId.index.toBeBytes ∈ ((entries.filter keep).map (row json)).map Prod.fst ↔
      keep e = true := by
    simp only [List.mem_map, List.mem_filter, exists_exists_and_eq_and]
    constructor
    · rintro ⟨e', ⟨-, holds⟩, same⟩
      rwa [byIndex e e' (UInt64.toBeBytes_injective same.symm)]
    · exact fun holds => ⟨e, ⟨member, holds⟩, rfl⟩
  simp only [listed, Bool.not_eq_true, Bool.decide_eq_false]

end Writing

section Runs

variable {bc : Bincode} {json : SerdeJson} {ids : Nat → UInt64} {r r' : ReplicaLog} {c : LogCall}

/-- The entries outside the range that a truncation removes. -/
theorem ReplicaLog.truncate_entries (r : ReplicaLog) (logId : LogId)
    (above : r.log.first ≤ logId.index.toNat) :
    (r.log.entries.filter fun e => !decide (logId.index ≤ e.logId.index ∧
      e.logId.index ≤ 18446744073709551615)) = (r.truncate logId above).log.entries := by
  refine List.filter_congr fun e _ => ?_
  have top : e.logId.index.toNat ≤ 18446744073709551615 :=
    Nat.le_of_lt_succ e.logId.index.toNat_lt
  rw [← decide_not, decide_eq_decide, UInt64.le_iff_toNat_le, UInt64.le_iff_toNat_le,
    not_and_or, not_le]
  exact or_iff_left (not_not_intro top)

/-- The entries outside the range that a purge removes. -/
theorem ReplicaLog.purge_entries (r : ReplicaLog) (logId : LogId)
    (forward : r.log.first ≤ logId.index.toNat + 1) :
    (r.log.entries.filter fun e => !decide (0 ≤ e.logId.index ∧ e.logId.index ≤ logId.index)) =
      (r.purge logId forward).log.entries := by
  refine List.filter_congr fun e _ => ?_
  have zero : ¬ e.logId.index.toNat < UInt64.toNat 0 := Nat.not_lt_zero _
  rw [← decide_not, decide_eq_decide, UInt64.le_iff_toNat_le, UInt64.le_iff_toNat_le,
    not_and_or, not_le]
  exact (or_iff_right zero).trans not_le

/-- Each call does to the store what it does to the log. -/
theorem LogAdvance.stores (advance : LogAdvance r c r') (ids : Nat → UInt64) {s : StoreMachine}
    (stores : StoresLog json r.lastPurged r.log.entries s.db) :
    StoresLog json r'.lastPurged r'.log.entries
      ((c.program json).run (handleStore ids) s).2.db := by
  cases advance with
  | append entries consecutive =>
      rw [LogCall.program, RaftStore.appendToLog_run]
      exact (stores.inserted (r.log.append entries (r.follows consecutive)).sorted).flush
  | truncate logId above =>
      rw [LogCall.program, RaftStore.deleteConflictLogsSince_run, stores.range_rows]
      have kept := stores.removed ((r.log.entries.filter fun e =>
        logId.index ≤ e.logId.index ∧ e.logId.index ≤ 18446744073709551615).map (row json))
      rw [filter_not_rows _ fun e e' same => by rw [same]] at kept
      rw [r.truncate_entries logId (r.first_eq.trans_le above)] at kept
      exact kept.flush
  | purge logId forward =>
      rw [LogCall.program, RaftStore.purgeLogsUpto_run, stores.range_rows]
      have kept := stores.removed ((r.log.entries.filter fun e =>
        0 ≤ e.logId.index ∧ e.logId.index ≤ logId.index).map (row json))
      rw [filter_not_rows _ fun e e' same => by rw [same]] at kept
      rw [r.purge_entries logId (r.first_eq.trans_le forward)] at kept
      exact (kept.putPurged logId).flush

theorem LogCall.perform_op (c : LogCall) (clock : Nat → Int64) (store : RaftStore) :
    (c.op.perform bc json ids clock store).2.db =
      ((c.program json).run (handleStore ids) ⟨store, clock⟩).2.db := by
  cases c <;> rfl

/-- The store holds what the calls made of the log. -/
theorem LogRun.stores {steps : List StoreStep} (run : LogRun steps r) :
    StoresLog json r.lastPurged r.log.entries
      (afterCalls bc json ids (openedStore bc ids) steps).db := by
  induction run with
  | start => exact ⟨rfl, rfl⟩
  | call clock _ advance ih =>
      rw [afterCalls_append]
      change StoresLog json _ _ (StoreOperation.perform bc json ids clock _ _).2.db
      rw [LogCall.perform_op]
      exact advance.stores ids ih
  | reopen clock _ ih =>
      rw [afterCalls_append]
      exact ih

/-- The keys of a log are the indices from the first that is not purged to the last. -/
theorem StoresLog.keys_iff {db : Db} (stores : StoresLog json r.lastPurged r.log.entries db)
    (key : Bytes) : key ∈ (db.trees logTree).keys ↔
      ∃ i : UInt64, key = i.toBeBytes ∧
        firstIndex r.lastPurged ≤ i.toNat ∧ i.toNat < firstIndex r.lastLogId := by
  rw [OrdMap.keys, stores.rows, List.map_map, ← r.first_eq, ← r.next_eq]
  constructor
  · intro listed
    obtain ⟨e, member, rfl⟩ := List.mem_map.mp listed
    exact ⟨e.logId.index, rfl, r.log.index_mem member⟩
  · rintro ⟨i, rfl, bounds⟩
    obtain ⟨e, member, same⟩ := (r.log.covered i.toNat).mpr bounds
    exact List.mem_map.mpr ⟨e, member, congrArg UInt64.toBeBytes (UInt64.toNat_inj.mp same)⟩

/-- Used as the consensus library uses it, the store is an indexed log: its indices are the
    interval it reports, and it answers a range with the entries last appended there. -/
theorem log_store_refines (bc : Bincode) (json : SerdeJson) (ids : Nat → UInt64)
    {steps : List StoreStep} {r : ReplicaLog} (run : LogRun steps r) :
    (∀ key, key ∈ ((afterCalls bc json ids (openedStore bc ids) steps).db.trees logTree).keys ↔
      ∃ i : UInt64, key = i.toBeBytes ∧
        firstIndex r.lastPurged ≤ i.toNat ∧ i.toNat < firstIndex r.lastLogId) ∧
    (∀ clock, (StoreOperation.getLogState.perform bc json ids clock
        (afterCalls bc json ids (openedStore bc ids) steps)).1 =
      .logState (.ok ⟨r.lastPurged, r.lastLogId⟩)) ∧
    ∀ clock start stop, ((StoreOperation.tryGetLogEntries start stop).perform bc json ids clock
        (afterCalls bc json ids (openedStore bc ids) steps)).1 =
      .entries (.ok (r.log.entries.filter fun e => start.Starts e.logId.index ∧
        stop.Ends e.logId.index ∧ e.logId.index < 18446744073709551615)) := by
  have stores : StoresLog json r.lastPurged r.log.entries
    (afterCalls bc json ids (openedStore bc ids) steps).db := run.stores
  refine ⟨stores.keys_iff, stores.getLogState_perform, fun clock start stop => ?_⟩
  have here : StoresLog json r.lastPurged r.log.entries
    (StoreMachine.mk (afterCalls bc json ids (openedStore bc ids) steps) clock).db := stores
  change StoreResponse.entries
    (execStore ids clock (RaftStore.tryGetLogEntries json start stop) _).1 = _
  rw [execStore, here.tryGetLogEntries_run]

end Runs

/-- An entry with nothing to apply. -/
def blankEntry (index : UInt64) : LogEntry := ⟨⟨⟨1, 1⟩, index⟩, .blank⟩

/-- Three entries, of which the first is purged and the last truncated. -/
def threeEntries : ReplicaLog :=
  ReplicaLog.empty.append [blankEntry 0, blankEntry 1, blankEntry 2]
    (ReplicaLog.follows (by decide))

def lastTwo : ReplicaLog := threeEntries.purge ⟨⟨1, 1⟩, 0⟩ (by decide)

def middleEntry : ReplicaLog := lastTwo.truncate ⟨⟨1, 1⟩, 2⟩ (by decide)

def logCalls : List StoreStep :=
  [⟨.appendToLog [blankEntry 0, blankEntry 1, blankEntry 2], fun _ => 0⟩,
    ⟨.purgeLogsUpto ⟨⟨1, 1⟩, 0⟩, fun _ => 0⟩,
    ⟨.deleteConflictLogsSince ⟨⟨1, 1⟩, 2⟩, fun _ => 0⟩,
    ⟨.reopen, fun _ => 0⟩]

theorem logCalls_run : LogRun logCalls middleEntry := by
  have appended : LogAdvance .empty (.append [blankEntry 0, blankEntry 1, blankEntry 2])
    threeEntries := .append _ (by decide)
  have purged : LogAdvance threeEntries (.purge ⟨⟨1, 1⟩, 0⟩) lastTwo := .purge _ (by decide)
  have truncated : LogAdvance lastTwo (.truncate ⟨⟨1, 1⟩, 2⟩) middleEntry :=
    .truncate _ (by decide)
  exact .reopen _ (.call _ (.call _ (.call _ .start appended) purged) truncated)

theorem logCalls_refined :
    LogRun logCalls middleEntry ∧ middleEntry.log.entries = [blankEntry 1] ∧
      (StoreOperation.getLogState.perform bincode serdeJson (counter 0) (fun _ => 0)
        (afterCalls bincode serdeJson (counter 0) (openedStore bincode (counter 0)) logCalls)).1 =
          .logState (.ok ⟨some ⟨⟨1, 1⟩, 0⟩, some ⟨⟨1, 1⟩, 1⟩⟩) :=
  ⟨logCalls_run, by decide,
    (log_store_refines bincode serdeJson (counter 0) logCalls_run).2.1 _⟩

/-! ## Crashes -/

/-- The indices found are those from the first that is not purged to the last log id. -/
def NoHole (bc : Bincode) (json : SerdeJson) (ids : Nat → UInt64) (store : RaftStore) : Prop :=
  ∃ state, (∀ clock, (StoreOperation.getLogState.perform bc json ids clock store).1 =
      .logState (.ok state)) ∧
    ∀ key, key ∈ (store.db.trees logTree).keys ↔
      ∃ i : UInt64, key = i.toBeBytes ∧ firstIndex state.lastPurgedLogId ≤ i.toNat ∧
        i.toNat < firstIndex state.lastLogId

/-- The call is cut off at `t`, and of what was written the first `n` batches are kept, among
    them all that was flushed. -/
structure CrashPoint (json : SerdeJson) (ids : Nat → UInt64) (c : LogCall) (s t : StoreMachine)
    (n : Nat) : Prop where
  inside : t ∈ (c.program json).visits (handleStore ids) s
  flushed : t.db.flushed ≤ n

/-- A truncation that removes at most the last entry, and a purge that removes nothing or finds
    a single entry. -/
def SafeCall (r : ReplicaLog) : LogCall → Prop
  | .append _ => True
  | .truncate logId => firstIndex r.lastLogId ≤ logId.index.toNat + 1
  | .purge logId => firstIndex r.lastLogId ≤ firstIndex r.lastPurged + 1 ∨
      logId.index.toNat < firstIndex r.lastPurged

section Crashes

variable {bc : Bincode} {json : SerdeJson} {ids : Nat → UInt64} {s t : StoreMachine}

theorem handleStore_oneByOne (ids : Nat → UInt64) :
    Program.OneByOne (handleStore ids) fun s => s.db.log := by
  intro β c s
  cases c with
  | sled c => exact Sled.handle_log (fun _ => 0) c s.db
  | stateMachine | currentSnapshot | setCurrentSnapshot =>
      exact ⟨[], Nat.zero_le 1, (List.append_nil _).symm⟩

theorem handleStore_flushed (ids : Nat → UInt64) (n : Nat) (β : Type) (c : StoreCall β)
    (s : StoreMachine) (flushed : n ≤ s.db.flushed) : n ≤ (handleStore ids β c s).2.db.flushed := by
  cases c with
  | sled c => exact flushed.trans (Sled.flushed_le_handle (fun _ => 0) c s.db)
  | stateMachine | currentSnapshot | setCurrentSnapshot => exact flushed

/-- A crash leaves the trees of a state the method passed through. -/
theorem cut_visited {α : Type} {action : StoreAction α} {n : Nat}
    (saved : s.db.flushed = s.db.log.length) (inside : t ∈ action.visits (handleStore ids) s)
    (kept : t.db.flushed ≤ n) :
    ∃ t' ∈ action.visits (handleStore ids) s, (t.db.keep n).trees = t'.db.trees := by
  have flushed : s.db.flushed ≤ t.db.flushed :=
    Program.visits_keep (fun t => s.db.flushed ≤ t.db.flushed) (handleStore_flushed ids _) _
      (Nat.le_refl _) inside
  have written : s.db.log.length ≤ n := saved ▸ flushed.trans kept
  obtain ⟨t', visited, same⟩ := (handleStore_oneByOne ids).kept_visited action inside written
  exact ⟨t', visited, Db.trees_keep same⟩

theorem insertEntries_visits (entries : List LogEntry)
    (inside : t ∈ (RaftStore.insertEntries json entries).visits (handleStore ids) s) :
    ∃ j, t = s.withDb ((entries.take j).foldl (insertEntry json) s.db) := by
  induction entries generalizing s with
  | nil => exact ⟨0, List.mem_singleton.mp inside⟩
  | cons entry entries ih =>
      rcases List.mem_cons.mp inside with rfl | later
      · exact ⟨0, rfl⟩
      · obtain ⟨j, same⟩ := ih later
        exact ⟨j + 1, same⟩

theorem removeKeys_visits (found : List (Bytes × Bytes))
    (inside : t ∈ (RaftStore.removeKeys found).visits (handleStore ids) s) :
    ∃ j, t = s.withDb ((found.take j).foldl removeKey s.db) := by
  induction found generalizing s with
  | nil => exact ⟨0, List.mem_singleton.mp inside⟩
  | cons e found ih =>
      rcases List.mem_cons.mp inside with rfl | later
      · exact ⟨0, rfl⟩
      · obtain ⟨j, same⟩ := ih later
        exact ⟨j + 1, same⟩

theorem StoresLog.congr {purged : Option LogId} {entries : List LogEntry} {db db' : Db}
    (stores : StoresLog json purged entries db) (same : db'.trees = db.trees) :
    StoresLog json purged entries db' :=
  ⟨by rw [same, stores.rows], by rw [same, stores.purged]⟩

theorem StoresLog.noHole {r : ReplicaLog} {store : RaftStore}
    (stores : StoresLog json r.lastPurged r.log.entries store.db) : NoHole bc json ids store :=
  ⟨_, stores.getLogState_perform, stores.keys_iff⟩

/-- Without an entry that is not the last, there is a hole. -/
theorem StoresLog.hole {r : ReplicaLog} {store : RaftStore} {e : LogEntry}
    (stores : StoresLog json r.lastPurged
      (r.log.entries.filter fun e' => e'.logId.index.toBeBytes ∉ [e.logId.index.toBeBytes]) store.db)
    (member : e ∈ r.log.entries) (inner : e.logId.index.toNat + 1 < r.log.next) :
    ¬ NoHole bc json ids store := by
  rintro ⟨state, answers, keys⟩
  have answer := (answers fun _ => 0).symm.trans (stores.getLogState_perform fun _ => 0)
  cases answer
  obtain ⟨last, found⟩ := Option.ne_none_iff_exists'.mp
    (mt List.getLast?_eq_none_iff.mp (List.ne_nil_of_mem member))
  have end_ := r.log.last_index found
  -- The last entry is another one, so it is still there and still the last.
  obtain ⟨front, cut⟩ := List.getLast?_eq_some_iff.mp found
  have other : last.logId.index.toBeBytes ∉ [e.logId.index.toBeBytes] := by
    intro same
    have index := UInt64.toBeBytes_injective (List.mem_singleton.mp same)
    rw [index] at end_
    omega
  have stays : lastOf r.lastPurged (r.log.entries.filter fun e' =>
      e'.logId.index.toBeBytes ∉ [e.logId.index.toBeBytes]) = some last.logId := by
    rw [lastOf, cut, List.filter_append, List.filter_singleton, decide_eq_true other]
    simp
  have bounds := r.log.index_mem member
  have inside := (keys e.logId.index.toBeBytes).mpr ⟨_, rfl, by rw [← r.first_eq]; exact bounds.1, by
    rw [stays]
    exact bounds.2.trans_eq end_.symm⟩
  rw [OrdMap.keys, stores.rows, List.map_map] at inside
  obtain ⟨e', listed, same⟩ := List.mem_map.mp inside
  exact of_decide_eq_true (List.mem_filter.mp listed).2 (List.mem_singleton.mpr same)

/-- Part of a batch that follows the log follows it too. -/
theorem Consecutive.take {next : Nat} {entries : List LogEntry}
    (consecutive : Consecutive next entries) (j : Nat) : Consecutive next (entries.take j) := by
  rw [Consecutive, List.map_take, consecutive, List.length_take]
  rcases Nat.le_total j entries.length with part | whole
  · rw [min_eq_left part, List.take_range'_of_length_ge part]
  · rw [min_eq_right whole, List.take_range'_of_length_le whole]

/-- The last flush changes nothing that can be read. -/
theorem visits_then_flush {loop : StoreAction Unit}
    (inside : t ∈ (loop >>= fun _ => RaftStore.call .flush).visits (handleStore ids) s) :
    ∃ t' ∈ loop.visits (handleStore ids) s, t.db.trees = t'.db.trees := by
  rcases Program.mem_visits_bind _ inside with looping | ⟨_, -, after⟩
  · exact ⟨t, looping, rfl⟩
  · refine ⟨_, Program.run_mem_visits (handleStore ids) loop s, ?_⟩
    rcases List.mem_cons.mp after with rfl | later
    · rfl
    · rw [List.mem_singleton.mp later]
      rfl

theorem appendToLog_visits {entries : List LogEntry}
    (inside : t ∈ (RaftStore.appendToLog json entries).visits (handleStore ids) s) :
    ∃ j, t.db.trees = ((entries.take j).foldl (insertEntry json) s.db).trees := by
  obtain ⟨t', looping, same⟩ := visits_then_flush inside
  obtain ⟨j, rfl⟩ := insertEntries_visits entries looping
  exact ⟨j, same⟩

/-- The rows of a range of indices. -/
def rowsOf (db : Db) (start stop : UInt64) : List (Bytes × Bytes) :=
  (db.trees logTree).range (.included start.toBeBytes) (.included stop.toBeBytes)

theorem deleteConflictLogsSince_visits {logId : LogId}
    (inside : t ∈ (RaftStore.deleteConflictLogsSince logId).visits (handleStore ids) s) :
    ∃ j, t.db.trees =
      (((rowsOf s.db logId.index 18446744073709551615).take j).foldl removeKey s.db).trees := by
  rcases List.mem_cons.mp inside with rfl | later
  · exact ⟨0, rfl⟩
  · obtain ⟨t', looping, same⟩ := visits_then_flush later
    obtain ⟨j, rfl⟩ := removeKeys_visits _ looping
    exact ⟨j, same⟩

/-- A purge is cut off in its loop, or when the new bound is written and the work is done. -/
theorem purgeLogsUpto_visits {logId : LogId}
    (inside : t ∈ (RaftStore.purgeLogsUpto json logId).visits (handleStore ids) s) :
    (∃ j, t.db.trees = (((rowsOf s.db 0 logId.index).take j).foldl removeKey s.db).trees) ∨
      t.db.trees = ((RaftStore.purgeLogsUpto json logId).run (handleStore ids) s).2.db.trees := by
  have looped : (RaftStore.removeKeys (rowsOf s.db 0 logId.index)).run (handleStore ids) s =
      (.ok (), s.withDb ((rowsOf s.db 0 logId.index).foldl removeKey s.db)) := by
    rw [← Program.bind_ret (RaftStore.removeKeys _), RaftStore.run_removeKeys]
    rfl
  rcases List.mem_cons.mp inside with rfl | later
  · exact .inl ⟨0, rfl⟩
  · change t ∈ (RaftStore.removeKeys (rowsOf s.db 0 logId.index) >>= fun _ =>
      RaftStore.metaSet "last_purged" (json.logId.encode logId) >>= fun _ =>
        RaftStore.call .flush).visits (handleStore ids) s at later
    rcases Program.mem_visits_bind _ later with looping | ⟨_, -, after⟩
    · obtain ⟨j, rfl⟩ := removeKeys_visits _ looping
      exact .inl ⟨j, rfl⟩
    · rw [looped] at after
      rw [RaftStore.purgeLogsUpto_run]
      rcases List.mem_cons.mp after with rfl | written
      · exact .inl ⟨_, by rw [List.take_length]; rfl⟩
      · right
        rcases List.mem_cons.mp written with rfl | written
        · rfl
        · rcases List.mem_cons.mp written with rfl | written
          · rfl
          · rw [List.mem_singleton.mp written]
            rfl

variable {r r' : ReplicaLog} {c : LogCall}

/-- At most one entry has an index between two numbers that follow each other. -/
theorem filter_length_le_one {p : LogEntry → Bool} (low : Nat)
    (narrow : ∀ e ∈ r.log.entries, p e = true → e.logId.index.toNat = low) :
    (r.log.entries.filter p).length ≤ 1 := by
  have sorted := r.log.sorted.filter p
  have same : ∀ e ∈ r.log.entries.filter p, e.logId.index.toNat = low := fun e member =>
    narrow e (List.mem_filter.mp member).1 (List.mem_filter.mp member).2
  generalize r.log.entries.filter p = l at sorted same
  rcases l with _ | ⟨a, _ | ⟨b, rest⟩⟩
  · exact Nat.zero_le 1
  · exact le_rfl
  · have less := (List.pairwise_cons.mp sorted).1 b List.mem_cons_self
    have first := same a List.mem_cons_self
    have second := same b (List.mem_cons_of_mem _ List.mem_cons_self)
    omega

/-- A loop that removes at most one entry is cut off before or after its work. -/
theorem StoresLog.removing (stores : StoresLog json r.lastPurged r.log.entries s.db)
    {p : LogEntry → Bool} (byIndex : ∀ e e' : LogEntry, e.logId.index = e'.logId.index → p e = p e')
    (one : (r.log.entries.filter p).length ≤ 1) (j : Nat) :
    StoresLog json r.lastPurged r.log.entries
        ((((r.log.entries.filter p).map (row json)).take j).foldl removeKey s.db) ∨
      StoresLog json r.lastPurged (r.log.entries.filter fun e => !p e)
        ((((r.log.entries.filter p).map (row json)).take j).foldl removeKey s.db) := by
  cases j with
  | zero => exact .inl stores
  | succ j =>
      right
      rw [List.take_of_length_le (by rw [List.length_map]; omega)]
      have kept := stores.removed ((r.log.entries.filter p).map (row json))
      rwa [filter_not_rows p byIndex] at kept

/-- The first entry that a loop removes is not above any other that it removes. -/
theorem first_removed {p : LogEntry → Bool} {e : LogEntry} (member : e ∈ r.log.entries)
    (removed : p e = true) (inner : e.logId.index.toNat + 1 < r.log.next) :
    ∃ e' rest, r.log.entries.filter p = e' :: rest ∧ e' ∈ r.log.entries ∧
      e'.logId.index.toNat + 1 < r.log.next := by
  have inside := List.mem_filter.mpr ⟨member, removed⟩
  cases found : r.log.entries.filter p with
  | nil => rw [found] at inside; cases inside
  | cons e' rest =>
      have sorted := r.log.sorted.filter p
      rw [found] at sorted inside
      have listed : e' ∈ r.log.entries.filter p := found ▸ List.mem_cons_self
      refine ⟨e', rest, rfl, (List.mem_filter.mp listed).1, ?_⟩
      rcases List.mem_cons.mp inside with rfl | later
      · exact inner
      · have less := (List.pairwise_cons.mp sorted).1 e later
        omega

/-- A call that is safe passes only through logs without holes. -/
theorem LogAdvance.visited_stores (advance : LogAdvance r c r') (safe : SafeCall r c)
    (stores : StoresLog json r.lastPurged r.log.entries s.db)
    (inside : t ∈ (c.program json).visits (handleStore ids) s) :
    ∃ r₁ : ReplicaLog, StoresLog json r₁.lastPurged r₁.log.entries t.db := by
  have finished := advance.stores ids stores
  cases advance with
  | append entries consecutive =>
      obtain ⟨j, same⟩ := appendToLog_visits inside
      refine ⟨r.append (entries.take j) (r.follows (consecutive.take j)), ?_⟩
      exact (stores.inserted (r.log.append _ (r.follows (consecutive.take j))).sorted).congr same
  | truncate logId above =>
      obtain ⟨j, same⟩ := deleteConflictLogsSince_visits inside
      rw [rowsOf, stores.range_rows] at same
      have one := filter_length_le_one (r := r) logId.index.toNat
        (p := fun e => logId.index ≤ e.logId.index ∧ e.logId.index ≤ 18446744073709551615)
        fun e member removed => by
          have bounds := r.log.index_mem member
          have reached := UInt64.le_iff_toNat_le.mp (of_decide_eq_true removed).1
          have last := r.next_eq.trans_le safe
          omega
      rcases stores.removing (fun e e' same => by rw [same]) one j with before | after
      · exact ⟨r, before.congr same⟩
      · rw [r.truncate_entries logId (r.first_eq.trans_le above)] at after
        exact ⟨r.truncate logId _, after.congr same⟩
  | purge logId forward =>
      rcases purgeLogsUpto_visits inside with ⟨j, same⟩ | done
      · rw [rowsOf, stores.range_rows] at same
        have one := filter_length_le_one (r := r) r.log.first
          (p := fun e => 0 ≤ e.logId.index ∧ e.logId.index ≤ logId.index)
          fun e member removed => by
            have bounds := r.log.index_mem member
            have reached := UInt64.le_iff_toNat_le.mp (of_decide_eq_true removed).2
            have first := r.first_eq
            have last := r.next_eq
            simp only [SafeCall] at safe
            omega
        rcases stores.removing (fun e e' same => by rw [same]) one j with before | after
        · exact ⟨r, before.congr same⟩
        · by_cases reached : r.log.first ≤ logId.index.toNat
          · -- the only entry is gone and the bound not yet moved: the log looks empty
            refine ⟨⟨r.lastPurged, r.log.truncate r.log.first le_rfl, r.first_eq⟩, ?_⟩
            have gone : (r.log.entries.filter fun e =>
                !decide (0 ≤ e.logId.index ∧ e.logId.index ≤ logId.index)) =
                (r.log.truncate r.log.first le_rfl).entries := by
              refine List.filter_congr fun e member => ?_
              have bounds := r.log.index_mem member
              have first := r.first_eq
              have last := r.next_eq
              have removed : 0 ≤ e.logId.index ∧ e.logId.index ≤ logId.index := by
                refine ⟨UInt64.le_iff_toNat_le.mpr (Nat.zero_le _), ?_⟩
                rw [UInt64.le_iff_toNat_le]
                simp only [SafeCall] at safe
                omega
              simp only [removed, and_self, decide_true, Bool.not_true]
              exact (decide_eq_false (by omega)).symm
            rw [gone] at after
            exact after.congr same
          · refine ⟨r, ?_⟩
            have all : (r.log.entries.filter fun e =>
                !decide (0 ≤ e.logId.index ∧ e.logId.index ≤ logId.index)) = r.log.entries := by
              refine List.filter_eq_self.mpr fun e member => ?_
              have bounds := r.log.index_mem member
              rw [Bool.not_eq_true', decide_eq_false_iff_not, UInt64.le_iff_toNat_le,
                UInt64.le_iff_toNat_le]
              omega
            rw [all] at after
            exact after.congr same
      · exact ⟨_, finished.congr done⟩

theorem LogRun.saved {steps : List StoreStep} (run : LogRun steps r) :
    (afterCalls bc json ids (openedStore bc ids) steps).db.flushed =
      (afterCalls bc json ids (openedStore bc ids) steps).db.log.length := by
  induction run with
  | start => rfl
  | @call _ _ _ c clock _ _ _ =>
      rw [afterCalls_append]
      change (StoreOperation.perform bc json ids clock _ _).2.db.flushed =
        (StoreOperation.perform bc json ids clock _ _).2.db.log.length
      rw [LogCall.perform_op]
      cases c with
      | append => rw [LogCall.program, RaftStore.appendToLog_run]; rfl
      | truncate => rw [LogCall.program, RaftStore.deleteConflictLogsSince_run]; rfl
      | purge => rw [LogCall.program, RaftStore.purgeLogsUpto_run]; rfl
  | reopen clock _ ih =>
      rw [afterCalls_append]
      exact ih

/-- A loop that starts below the last entry can be cut off with a hole. -/
theorem StoresLog.cutOff_hole (stores : StoresLog json r.lastPurged r.log.entries s.db)
    (bc : Bincode) (ids : Nat → UInt64) (start stop : UInt64) {e : LogEntry} (member : e ∈ r.log.entries)
    (removed : start ≤ e.logId.index ∧ e.logId.index ≤ stop)
    (inner : e.logId.index.toNat + 1 < r.log.next) (rest : Unit → StoreAction Unit) :
    ∃ t ∈ (RaftStore.removeKeys (rowsOf s.db start stop) >>= rest).visits (handleStore ids) s,
      ∀ store : RaftStore, store.db.trees = t.db.trees → ¬ NoHole bc json ids store := by
  obtain ⟨first, others, found, listed, inner⟩ := first_removed
    (p := fun e => start ≤ e.logId.index ∧ e.logId.index ≤ stop) member (decide_eq_true removed)
    inner
  refine ⟨s.withDb (removeKey s.db (row json first)), ?_, fun store same => ?_⟩
  · rw [rowsOf, stores.range_rows, found, List.map_cons]
    refine Program.mem_visits_bind_left (List.mem_cons_of_mem _ ?_)
    exact Program.start_mem_visits ..
  · exact ((stores.removed [row json first]).congr same).hole listed inner

/-- After calls that kept to the contract, the next one leaves no hole wherever it is cut off
    exactly when it removes at most one entry: the last one, or the only one. -/
theorem log_crash_safe_iff (bc : Bincode) (json : SerdeJson) (ids : Nat → UInt64)
    {steps : List StoreStep} {r r' : ReplicaLog} {c : LogCall} (run : LogRun steps r)
    (advance : LogAdvance r c r') (clock : Nat → Int64) :
    (∀ t n, CrashPoint json ids c
        ⟨afterCalls bc json ids (openedStore bc ids) steps, clock⟩ t n →
      ∀ clock' queues, NoHole bc json ids
        (RaftStore.open bc ids clock' queues (t.db.keep n)).2) ↔ SafeCall r c := by
  have stores : StoresLog json r.lastPurged r.log.entries
    (StoreMachine.mk (afterCalls bc json ids (openedStore bc ids) steps) clock).db := run.stores
  constructor
  · intro noHole
    -- a state the call passes through is one that a crash can leave
    have visited : ∀ t ∈ (c.program json).visits (handleStore ids)
        ⟨afterCalls bc json ids (openedStore bc ids) steps, clock⟩,
        (∀ store : RaftStore, store.db.trees = t.db.trees → ¬ NoHole bc json ids store) → False :=
      fun t inside hole => hole _ (Db.trees_keep_all t.db)
        (noHole t t.db.log.length ⟨inside, t.db.flushed_le⟩ (fun _ => 0) .empty)
    cases advance with
    | append => trivial
    | truncate logId above =>
        by_contra broken
        have beyond : logId.index.toNat + 1 < r.log.next := by
          rw [r.next_eq]
          exact not_le.mp broken
        obtain ⟨e, member, same⟩ := (r.log.covered logId.index.toNat).mpr
          ⟨r.first_eq.trans_le above, by omega⟩
        have index : e.logId.index = logId.index := UInt64.toNat_inj.mp same
        obtain ⟨t, inside, hole⟩ := stores.cutOff_hole bc ids logId.index
          18446744073709551615 member ⟨index.ge, UInt64.le_iff_toNat_le.mpr
            (Nat.le_of_lt_succ e.logId.index.toNat_lt)⟩ (same ▸ beyond)
          fun _ => RaftStore.call .flush
        exact visited t (List.mem_cons_of_mem _ inside) hole
    | purge logId forward =>
        by_contra broken
        rw [SafeCall, ← r.next_eq, ← r.first_eq, not_or, not_le, not_lt] at broken
        obtain ⟨e, member, same⟩ := (r.log.covered r.log.first).mpr ⟨le_rfl, by omega⟩
        obtain ⟨t, inside, hole⟩ := stores.cutOff_hole bc ids 0 logId.index member
          ⟨UInt64.le_iff_toNat_le.mpr (Nat.zero_le _), UInt64.le_iff_toNat_le.mpr (by omega)⟩
          (by omega) fun _ => RaftStore.metaSet "last_purged" (json.logId.encode logId) >>= fun _ =>
            RaftStore.call .flush
        exact visited t (List.mem_cons_of_mem _ inside) hole
  · intro safe t n crash clock' queues
    obtain ⟨t', inside, same⟩ := cut_visited (s := ⟨_, clock⟩) run.saved crash.inside crash.flushed
    obtain ⟨r₁, holds⟩ := advance.visited_stores safe stores inside
    exact StoresLog.noHole (r := r₁) (holds.congr same)

end Crashes

/-- A store with three entries. -/
def threeStored : StoreMachine :=
  ⟨afterCalls bincode serdeJson (counter 0) (openedStore bincode (counter 0))
    [⟨.appendToLog [blankEntry 0, blankEntry 1, blankEntry 2], fun _ => 0⟩], fun _ => 0⟩

theorem threeStored_run :
    LogRun [⟨.appendToLog [blankEntry 0, blankEntry 1, blankEntry 2], fun _ => 0⟩] threeEntries :=
  .call _ .start (.append _ (by decide))

/-- Truncating the last of three entries leaves no hole. -/
theorem lastTruncated_safe :
    SafeCall threeEntries (.truncate ⟨⟨1, 1⟩, 2⟩) ∧
      ∀ t n, CrashPoint serdeJson (counter 0) (.truncate ⟨⟨1, 1⟩, 2⟩) threeStored t n →
        ∀ clock queues, NoHole bincode serdeJson (counter 0)
          (RaftStore.open bincode (counter 0) clock queues (t.db.keep n)).2 :=
  ⟨Nat.le_refl 3, (log_crash_safe_iff bincode serdeJson (counter 0) threeStored_run
    (.truncate ⟨⟨1, 1⟩, 2⟩ (by decide)) (fun _ => 0)).mpr (Nat.le_refl 3)⟩

/-- Truncating the last two, or purging the first two, can be cut off after one of them. -/
theorem twoRemoved_hole :
    (∃ t n, CrashPoint serdeJson (counter 0) (.truncate ⟨⟨1, 1⟩, 1⟩) threeStored t n ∧
      ¬ NoHole bincode serdeJson (counter 0)
        (RaftStore.open bincode (counter 0) (fun _ => 0) .empty (t.db.keep n)).2) ∧
    (∃ t n, CrashPoint serdeJson (counter 0) (.purge ⟨⟨1, 1⟩, 1⟩) threeStored t n ∧
      ¬ NoHole bincode serdeJson (counter 0)
        (RaftStore.open bincode (counter 0) (fun _ => 0) .empty (t.db.keep n)).2) := by
  have stores : StoresLog serdeJson threeEntries.lastPurged threeEntries.log.entries
    threeStored.db := threeStored_run.stores
  constructor
  · obtain ⟨t, inside, hole⟩ := stores.cutOff_hole bincode (counter 0) 1 18446744073709551615
      (e := blankEntry 1) (by decide) (by decide) (by decide) fun _ => RaftStore.call .flush
    exact ⟨t, t.db.log.length, ⟨List.mem_cons_of_mem _ inside, t.db.flushed_le⟩,
      hole _ (Db.trees_keep_all t.db)⟩
  · obtain ⟨t, inside, hole⟩ := stores.cutOff_hole bincode (counter 0) 0 1
      (e := blankEntry 0) (by decide) (by decide) (by decide) fun _ =>
        RaftStore.metaSet "last_purged" (serdeJson.logId.encode ⟨⟨1, 1⟩, 1⟩) >>= fun _ =>
          RaftStore.call .flush
    exact ⟨t, t.db.log.length, ⟨List.mem_cons_of_mem _ inside, t.db.flushed_le⟩,
      hole _ (Db.trees_keep_all t.db)⟩

end PelicanQ
