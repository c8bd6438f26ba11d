import PelicanQ.Guarantees.Crashes

/-! # How far the mark of a replica trails

A replica marks each entry as applied once its operation has been carried out,
and the two go to different databases.  The mark is on disk before the next
entry is looked at, so however a call is cut off, what the mark names has been
carried out, and of what it does not name at most one entry has been begun.

This is about the writes that were made.  The other database is not flushed
with the mark, so a crash can still take back what the mark names, and it can
keep what the mark does not name yet.
-/

namespace PelicanQ

open Sled (Db)

/-! ## The entries without the marks -/

section Replaying

variable (bc : Bincode)

/-- What an entry asks of the state machine. -/
def replayEntry (entry : LogEntry) : Action Unit :=
  match entry.payload with
  | .normal op => do
      let _ ← applyOperation bc ample op
      pure ()
  | .blank | .membership _ => pure ()

def replayEntries : List LogEntry → Action Unit
  | [] => pure ()
  | entry :: rest => do
      replayEntry bc entry
      replayEntries rest

end Replaying

/-- What is recorded as applied, as it is stored. -/
def mark (trees : Sled.Trees) : Option Bytes := (trees metaTree).get "last_applied".utf8

/-- The mark after some more entries. -/
def markAfter (json : SerdeJson) (before : Option Bytes) (entries : List LogEntry) : Option Bytes :=
  entries.foldl (fun _ entry => some (json.logId.encode entry.logId)) before

theorem mark_putMeta (db : Db) (key : String) (data : Bytes) :
    mark (putMeta db key data).trees =
      if "last_applied" = key then some data else mark db.trees :=
  putMeta_get db key "last_applied" data

/-! ## Inside a call -/

section Inside

variable {bc : Bincode} {json : SerdeJson} {ids : Nat → UInt64} {s t : StoreMachine} {n : Nat}

/-- Up to the end of a payload, the mark is what it was. -/
theorem applyPayload_visits {entry : LogEntry} (saved : s.db.Saved)
    (inside : t ∈ (RaftStore.applyPayload bc json entry).visits (handleStore ids) s)
    (kept : t.db.flushed ≤ n) :
    t.machine ∈ (replayEntry bc entry).visits (handle ids) s.machine ∧
      mark (t.db.keep n).trees = mark s.db.trees := by
  obtain ⟨logId, payload⟩ := entry
  cases payload with
  | blank =>
      obtain rfl := List.mem_singleton.mp inside
      exact ⟨List.mem_singleton_self _, congrArg mark (saved.trees_keep kept)⟩
  | normal op =>
      obtain ⟨m, visited, rfl⟩ := onStateMachine_visits inside
      exact ⟨Program.mem_visits_bind_left visited, congrArg mark (saved.trees_keep kept)⟩
  | membership membership =>
      obtain ⟨same, old | new⟩ := metaSet_visits saved (Program.mem_visits_of_map inside) kept
      · exact ⟨List.mem_singleton.mpr same, congrArg mark old⟩
      · refine ⟨List.mem_singleton.mpr same, ?_⟩
        rw [new, mark_putMeta, if_neg (by decide)]

theorem applyPayload_run {entry : LogEntry} {response : QueueOperationResponse}
    {s' : StoreMachine} (saved : s.db.Saved)
    (ran : (RaftStore.applyPayload bc json entry).run (handleStore ids) s = (.ok response, s')) :
    (replayEntry bc entry).run (handle ids) s.machine = (.ok (), s'.machine) ∧ s'.db.Saved ∧
      mark s'.db.trees = mark s.db.trees := by
  obtain ⟨logId, payload⟩ := entry
  cases payload with
  | blank =>
      cases ran
      exact ⟨rfl, saved, rfl⟩
  | normal op =>
      obtain ⟨carried, same⟩ := onStateMachine_ok ran
      rw [same]
      refine ⟨?_, saved, rfl⟩
      rw [replayEntry, Program.run_bind, carried]
      rfl
  | membership membership =>
      cases ran
      refine ⟨rfl, rfl, ?_⟩
      exact (mark_putMeta ..).trans (if_neg (by decide))

/-- Of a batch of entries cut off at `t`, those that are marked have been carried out, and at most
    the next one has been begun. -/
def Trails (bc : Bincode) (json : SerdeJson) (ids : Nat → UInt64) (entries : List LogEntry)
    (s t : StoreMachine) (n : Nat) : Prop :=
  ∃ done rest m, entries = done ++ rest ∧
    (replayEntries bc done).run (handle ids) s.machine = (.ok (), m) ∧
    t.machine ∈ (replayEntries bc (rest.take 1)).visits (handle ids) m ∧
    mark (t.db.keep n).trees = markAfter json (mark s.db.trees) done

theorem Trails.next {entry : LogEntry} {entries : List LogEntry} {s' : StoreMachine}
    (trails : Trails bc json ids entries s' t n)
    (replayed : (replayEntry bc entry).run (handle ids) s.machine = (.ok (), s'.machine))
    (marked : mark s'.db.trees = some (json.logId.encode entry.logId)) :
    Trails bc json ids (entry :: entries) s t n := by
  obtain ⟨done, rest, m, rfl, ran, begun, recorded⟩ := trails
  refine ⟨entry :: done, rest, m, rfl, ?_, begun, ?_⟩
  · rw [replayEntries, Program.run_bind, replayed]
    exact ran
  · rw [recorded, marked]
    rfl

theorem applyToStateMachine_trails {entries : List LogEntry} (saved : s.db.Saved)
    (inside : t ∈ (RaftStore.applyToStateMachine bc json entries).visits (handleStore ids) s)
    (kept : t.db.flushed ≤ n) : Trails bc json ids entries s t n := by
  induction entries generalizing s with
  | nil =>
      obtain rfl := List.mem_singleton.mp inside
      exact ⟨[], [], t.machine, rfl, rfl, List.mem_singleton_self _,
        congrArg mark (saved.trees_keep kept)⟩
  | cons entry entries ih =>
      rcases Program.mem_visits_bind _ inside with first | ⟨response, returned, after⟩
      · obtain ⟨begun, same⟩ := applyPayload_visits saved first kept
        exact ⟨[], entry :: entries, s.machine, rfl, rfl, Program.mem_visits_bind_left begun, same⟩
      · generalize ran : (RaftStore.applyPayload bc json entry).run (handleStore ids) s = r
          at returned after
        obtain ⟨outcome, s'⟩ := r
        cases returned
        obtain ⟨replayed, saved', same⟩ := applyPayload_run saved ran
        have marked : mark (putMeta s'.db "last_applied" (json.logId.encode entry.logId)).trees =
            some (json.logId.encode entry.logId) := (mark_putMeta ..).trans (if_pos rfl)
        rcases Program.mem_visits_bind _ after with marking | ⟨_, -, later⟩
        · -- the operation is done; its mark is on its way to disk
          obtain ⟨machine, old | new⟩ := metaSet_visits saved' marking kept
          · refine ⟨[], entry :: entries, s.machine, rfl, rfl, ?_, ?_⟩
            · rw [machine]
              have here := Program.run_mem_visits (handle ids) (replayEntry bc entry) s.machine
              rw [replayed] at here
              exact Program.mem_visits_bind_left here
            · rw [old]
              exact same
          · refine ⟨[entry], entries, s'.machine, rfl, ?_, ?_, ?_⟩
            · rw [replayEntries, Program.run_bind, replayed]
              rfl
            · rw [machine]
              exact Program.start_mem_visits (handle ids) _ _
            · rw [new]
              exact marked
        · have rest : Trails bc json ids entries
              (s'.withDb (putMeta s'.db "last_applied" (json.logId.encode entry.logId))) t n :=
            ih rfl (Program.mem_visits_of_map later)
          exact rest.next replayed marked

/-- A snapshot is marked once it has been taken as a whole. -/
theorem installSnapshot_trails {info : SnapshotMeta} {data : Bytes} (saved : s.db.Saved)
    (inside : t ∈ (RaftStore.installSnapshot bc json info data).visits (handleStore ids) s)
    (kept : t.db.flushed ≤ n) :
    (t.machine ∈ (installSnapshot bc json.snapshot data).visits (handle ids) s.machine ∧
        mark (t.db.keep n).trees = mark s.db.trees) ∨
      ((installSnapshot bc json.snapshot data).run (handle ids) s.machine = (.ok (), t.machine) ∧
        mark (t.db.keep n).trees = some (jsonOption json.logId info.lastLogId)) := by
  rcases Program.mem_visits_bind _ inside with first | ⟨_, returned, after⟩
  · obtain ⟨m, visited, rfl⟩ := onStateMachine_visits first
    exact .inl ⟨visited, congrArg mark (saved.trees_keep kept)⟩
  · generalize ran : (RaftStore.onStateMachine (installSnapshot bc json.snapshot data)).run
      (handleStore ids) s = r at returned after
    obtain ⟨outcome, s'⟩ := r
    cases returned
    obtain ⟨taken, same⟩ := onStateMachine_ok ran
    have saved' : s'.db.Saved := same ▸ saved
    have marked : mark (putMeta s'.db "last_applied" (jsonOption json.logId info.lastLogId)).trees =
        some (jsonOption json.logId info.lastLogId) := (mark_putMeta ..).trans (if_pos rfl)
    have later_mark (db : Db) : mark (putMeta db "last_membership"
        (json.membership.encode info.lastMembership)).trees = mark db.trees :=
      (mark_putMeta ..).trans (if_neg (by decide))
    rcases Program.mem_visits_bind _ after with marking | ⟨_, -, later⟩
    · obtain ⟨machine, old | new⟩ := metaSet_visits saved' marking kept
      · refine .inl ⟨?_, by rw [old, same]⟩
        have here := Program.run_mem_visits (handle ids) (installSnapshot bc json.snapshot data)
          s.machine
        rw [taken] at here
        rwa [machine]
      · exact .inr ⟨by rw [machine, taken], by rw [new, marked]⟩
    · refine .inr ?_
      rcases Program.mem_visits_bind _ later with membership | ⟨_, -, last⟩
      · have flushed : (s'.withDb (putMeta s'.db "last_applied"
            (jsonOption json.logId info.lastLogId))).db.Saved := rfl
        obtain ⟨machine, old | new⟩ := metaSet_visits flushed membership kept
        · exact ⟨machine ▸ taken, by rw [old]; exact marked⟩
        · exact ⟨machine ▸ taken, by rw [new, later_mark]; exact marked⟩
      · -- what is left is to keep the snapshot in memory and to flush once more
        have ended : t.machine = s'.machine ∧ t.db.Saved ∧ mark t.db.trees =
            mark (putMeta s'.db "last_applied" (jsonOption json.logId info.lastLogId)).trees := by
          rcases List.mem_cons.mp last with rfl | last
          · exact ⟨rfl, rfl, later_mark _⟩
          · rcases List.mem_cons.mp last with rfl | last
            · exact ⟨rfl, rfl, later_mark _⟩
            · obtain rfl := List.mem_singleton.mp last
              exact ⟨rfl, rfl, later_mark _⟩
        obtain ⟨machine, flushed, recorded⟩ := ended
        exact ⟨machine ▸ taken, by rw [flushed.trees_keep kept, recorded, marked]⟩

end Inside

/-- Wherever a store that may have crashed before is cut off, the entries up to the mark that is
    found have been carried out, each once and in order, and of the others only the next one may
    have been begun.  A snapshot that is marked has been taken as a whole. -/
theorem mark_trails (bc : Bincode) (json : SerdeJson) (ids : Nat → UInt64)
    {past : List StoreEvent} {store : RaftStore} (lived : Lived bc json ids past store)
    (clock : Nat → Int64) {t : StoreMachine} {n : Nat}
    (kept : t.db.flushed ≤ n) :
    (∀ entries, t ∈ (StoreOperation.applyToStateMachine entries).within bc json ids ⟨store, clock⟩ →
      ∃ done rest m, entries = done ++ rest ∧
        (replayEntries bc done).run (handle ids) ⟨store.stateMachine, clock⟩ = (.ok (), m) ∧
        t.machine ∈ (replayEntries bc (rest.take 1)).visits (handle ids) m ∧
        mark (t.db.keep n).trees = markAfter json (mark store.db.trees) done) ∧
    ∀ info data,
      t ∈ (StoreOperation.installSnapshot info data).within bc json ids ⟨store, clock⟩ →
      (t.machine ∈ (installSnapshot bc json.snapshot data).visits (handle ids)
            ⟨store.stateMachine, clock⟩ ∧
          mark (t.db.keep n).trees = mark store.db.trees) ∨
        ((installSnapshot bc json.snapshot data).run (handle ids) ⟨store.stateMachine, clock⟩ =
            (.ok (), t.machine) ∧
          mark (t.db.keep n).trees = some (jsonOption json.logId info.lastLogId)) := by
  have saved : (⟨store, clock⟩ : StoreMachine).db.Saved := lived.saved
  exact ⟨fun _ inside => applyToStateMachine_trails saved inside kept,
    fun _ _ inside => installSnapshot_trails saved inside kept⟩

/-- A queue is declared and a message published. -/
def twoEntries : List LogEntry :=
  [⟨⟨⟨1, 1⟩, 0⟩, .normal (.declareQueue "q" default)⟩,
    ⟨⟨⟨1, 1⟩, 1⟩, .normal (.publish "q" ⟨1, [], [], 0, 0, 3, none, none⟩)⟩]

def twoEntriesWithin : List StoreMachine :=
  (StoreOperation.applyToStateMachine twoEntries).within bincode serdeJson (counter 0)
    ⟨openedStore bincode (counter 0), fun _ => 5⟩

/-- The message is stored and its mark is not. -/
def publishedUnmarked : StoreMachine := twoEntriesWithin.get ⟨18, by decide +kernel⟩

theorem publishedUnmarked_trails :
    ((publishedUnmarked.store.stateMachine.db.trees "q").keys.length = 1 ∧
      mark (publishedUnmarked.db.keep 1).trees = some (serdeJson.logId.encode ⟨⟨1, 1⟩, 0⟩)) ∧
    Trails bincode serdeJson (counter 0) twoEntries
      ⟨openedStore bincode (counter 0), fun _ => 5⟩ publishedUnmarked 1 :=
  ⟨by decide +kernel, (mark_trails bincode serdeJson (counter 0) .opened (fun _ => 5)
    (by decide +kernel)).1 twoEntries (List.get_mem _ _)⟩

-- The first entry is marked for good; nothing that it wrote is known to be on disk.
example : publishedUnmarked.db.flushed = 1 ∧
    publishedUnmarked.store.stateMachine.db.flushed = 0 := by decide +kernel

/-! ## What is found after a crash -/

section Found

variable {bc : Bincode} {json : SerdeJson} {ids : Nat → UInt64} {s t : StoreMachine} {n : Nat}

/-- A call of the queue manager adds at most one batch to its database. -/
theorem handle_oneByOne (ids : Nat → UInt64) :
    Program.OneByOne (handle ids) fun s : Machine => s.db.log := by
  intro β c s
  cases c with
  | sled c => exact Sled.handle_log ids c s.db
  | nowMs | currentBytes | setCurrentBytes | maxBytes =>
      exact ⟨[], Nat.zero_le 1, (List.append_nil _).symm⟩

/-- What is kept of a database are its first writes exactly when so many are kept. -/
theorem Db.keep_exact_iff {db : Db} {log added : List Sled.Batch} (grown : db.log = log ++ added)
    (kept : Nat) : (db.keep kept).log = log ↔ min kept db.log.length = log.length := by
  change db.log.take kept = log ↔ _
  constructor
  · intro same
    rw [← List.length_take, same]
  · intro exactly
    rw [List.take_eq_take_min, exactly, grown, List.take_left]

/-- What the mark found after a crash of a call says, and the queues that this leads to: some of
    the entries, each carried out once and in order, or a snapshot, or nothing new. -/
inductive Marked (bc : Bincode) (json : SerdeJson) (ids : Nat → UInt64) (s : StoreMachine) :
    StoreOperation → Option Bytes → Machine → Prop
  | entries {done rest : List LogEntry} {m : Machine}
      (replayed : (replayEntries bc done).run (handle ids) s.machine = (.ok (), m)) :
      Marked bc json ids s (.applyToStateMachine (done ++ rest))
        (markAfter json (mark s.db.trees) done) m
  | unchanged {info : SnapshotMeta} {data : Bytes} :
      Marked bc json ids s (.installSnapshot info data) (mark s.db.trees) s.machine
  | snapshot {info : SnapshotMeta} {data : Bytes} {m : Machine}
      (taken : (installSnapshot bc json.snapshot data).run (handle ids) s.machine = (.ok (), m)) :
      Marked bc json ids s (.installSnapshot info data)
        (some (jsonOption json.logId info.lastLogId)) m

/-- The calls that work on the queues. -/
def StoreOperation.Applies : StoreOperation → Prop
  | .applyToStateMachine _ | .installSnapshot .. => True
  | _ => False

/-- What the mark says leads to writes that have been made by the point of the crash. -/
theorem marked_within {op : StoreOperation} (applies : op.Applies) (saved : s.db.Saved)
    (inside : t ∈ op.within bc json ids s) (kept : t.db.flushed ≤ n) :
    ∃ expected, Marked bc json ids s op (mark (t.db.keep n).trees) expected ∧
      ∃ added, t.machine.db.log = expected.db.log ++ added := by
  cases op with
  | applyToStateMachine entries =>
      obtain ⟨done, rest, m, rfl, replayed, begun, marked⟩ :=
        applyToStateMachine_trails saved inside kept
      rw [marked]
      exact ⟨m, .entries replayed, (handle_oneByOne ids).extended _ begun⟩
  | installSnapshot info data =>
      rcases installSnapshot_trails saved inside kept with ⟨begun, marked⟩ | ⟨taken, marked⟩
      · rw [marked]
        exact ⟨s.machine, .unchanged, (handle_oneByOne ids).extended _ begun⟩
      · rw [marked]
        exact ⟨t.machine, .snapshot taken, [], (List.append_nil _).symm⟩
  | saveVote | readVote | appendToLog | deleteConflictLogsSince | purgeLogsUpto | getLogState |
    tryGetLogEntries | lastAppliedState | buildSnapshot | getCurrentSnapshot | reopen =>
      exact applies.elim

/-- A store that is opened again with so many writes of its two databases, and applies the entries
    that its mark does not name. -/
def reapplied (s : StoreMachine) (queues log : Nat) (entries : List LogEntry) : RaftStore :=
  afterCalls bincode serdeJson (counter 10)
    (RaftStore.open bincode (counter 10) (fun _ => 6) (s.machine.db.keep queues) (s.db.keep log)).2
    [⟨.applyToStateMachine entries, fun _ => 6⟩]

end Found

end PelicanQ
