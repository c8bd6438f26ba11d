import PelicanQ.Guarantees.LogStore

/-! # Stores that crash

The life of a store: calls, restarts, and crashes at any point inside a call.
A crash keeps of each of the two databases some initial part of what was
written to it, with all that was flushed.

No call leaves anything of the log or the metadata unflushed, so a life finds
that database after a crash as it was at some point inside the call.
-/

namespace Sled.Db

/-- All that was written is on disk. -/
def Saved (db : Db) : Prop := db.flushed = db.log.length

variable {db : Db} {n : Nat}

theorem saved_flush (db : Db) : db.flush.Saved := rfl

theorem saved_keep (db : Db) (n : Nat) : (db.keep n).Saved := rfl

theorem Saved.trees_keep (saved : db.Saved) (kept : db.flushed ≤ n) :
    (db.keep n).trees = db.trees :=
  Db.trees_keep (List.take_of_length_le (saved ▸ kept)).symm

/-- Of one batch more, all is kept or nothing. -/
theorem Saved.keep_commit (saved : db.Saved) (batch : Batch) (kept : db.flushed ≤ n) :
    ((db.commit batch).keep n).trees = db.trees ∨
      ((db.commit batch).keep n).trees = (db.commit batch).trees := by
  have lower : db.log.length ≤ n := saved ▸ kept
  rcases lower.eq_or_lt with rfl | more
  · exact .inl (Db.trees_keep List.take_left.symm)
  · refine .inr (Db.trees_keep (List.take_of_length_le ?_).symm)
    rw [log_commit, List.length_append]
    exact more

end Sled.Db

namespace PelicanQ

open Sled (Db)

/-! ## Inside a call -/

section Inside

variable {bc : Bincode} {json : SerdeJson} {ids : Nat → UInt64} {s t : StoreMachine} {n : Nat}

theorem metaSet_visits {key : String} {data : Bytes} (saved : s.db.Saved)
    (inside : t ∈ (RaftStore.metaSet key data).visits (handleStore ids) s)
    (kept : t.db.flushed ≤ n) :
    t.machine = s.machine ∧ ((t.db.keep n).trees = s.db.trees ∨
      (t.db.keep n).trees = (putMeta s.db key data).trees) := by
  rcases List.mem_cons.mp inside with rfl | later
  · exact ⟨rfl, .inl (saved.trees_keep kept)⟩
  · rcases List.mem_cons.mp later with rfl | last
    · exact ⟨rfl, saved.keep_commit [.insert metaTree key.utf8 data] kept⟩
    · obtain rfl := List.mem_singleton.mp last
      exact ⟨rfl, .inr ((Db.saved_flush _).trees_keep kept)⟩

theorem onStateMachine_visits {α : Type} {action : Action α}
    (inside : t ∈ (RaftStore.onStateMachine action).visits (handleStore ids) s) :
    ∃ m ∈ action.visits (handle ids) s.machine, t = s.withMachine m := by
  have embedded : (action.embed (fun c => StoreCall.stateMachine c) :
      StoreAction (Except PelicanError α)).visits (handleStore ids) s =
      (action.visits (handle ids) s.machine).map s.withMachine :=
    Program.visits_embed StoreMachine.machine StoreMachine.withMachine (fun _ _ => rfl)
      (fun _ _ _ => rfl) (fun _ => rfl) (fun _ _ _ => rfl) action s
  have within : t ∈ (action.embed (fun c => StoreCall.stateMachine c) :
      StoreAction (Except PelicanError α)).visits (handleStore ids) s := by
    rcases Program.mem_visits_bind _ inside with first | ⟨result, -, last⟩
    · exact first
    · have here : t = ((action.embed (fun c => StoreCall.stateMachine c) :
          StoreAction (Except PelicanError α)).run (handleStore ids) s).2 := by
        cases result <;> exact List.mem_singleton.mp last
      rw [here]
      exact Program.run_mem_visits (handleStore ids) _ s
  rw [embedded] at within
  obtain ⟨m, visited, same⟩ := List.mem_map.mp within
  exact ⟨m, visited, same.symm⟩

theorem onStateMachine_ok {α : Type} {action : Action α} {a : α} {s' : StoreMachine}
    (ran : (RaftStore.onStateMachine action).run (handleStore ids) s = (.ok a, s')) :
    action.run (handle ids) s.machine = (.ok a, s'.machine) ∧ s'.db = s.db := by
  rw [← Program.bind_ret (RaftStore.onStateMachine action), RaftStore.run_onStateMachine] at ran
  generalize action.run (handle ids) s.machine = r at ran ⊢
  obtain ⟨outcome, m⟩ := r
  cases outcome with
  | ok value =>
      cases ran
      exact ⟨rfl, rfl⟩
  | err | panicked | diverged => cases ran

end Inside

/-! ## Lives -/

section Lives

variable (bc : Bincode) (json : SerdeJson) (ids : Nat → UInt64)

/-- What a call passes through. -/
def StoreOperation.within (s : StoreMachine) : StoreOperation → List StoreMachine
  | .saveVote vote => (RaftStore.saveVote json vote).visits (handleStore ids) s
  | .readVote => (RaftStore.readVote json).visits (handleStore ids) s
  | .appendToLog entries => (RaftStore.appendToLog json entries).visits (handleStore ids) s
  | .deleteConflictLogsSince logId =>
      (RaftStore.deleteConflictLogsSince logId).visits (handleStore ids) s
  | .purgeLogsUpto logId => (RaftStore.purgeLogsUpto json logId).visits (handleStore ids) s
  | .getLogState => (RaftStore.getLogState json).visits (handleStore ids) s
  | .tryGetLogEntries start stop =>
      (RaftStore.tryGetLogEntries json start stop).visits (handleStore ids) s
  | .applyToStateMachine entries =>
      (RaftStore.applyToStateMachine bc json entries).visits (handleStore ids) s
  | .lastAppliedState => (RaftStore.lastAppliedState json).visits (handleStore ids) s
  | .buildSnapshot => (RaftStore.buildSnapshot bc json).visits (handleStore ids) s
  | .installSnapshot info data =>
      (RaftStore.installSnapshot bc json info data).visits (handleStore ids) s
  | .getCurrentSnapshot => RaftStore.getCurrentSnapshot.visits (handleStore ids) s
  | .reopen =>
      ((QueueManager.openBody bc).visits (handle ids)
        ⟨⟨s.store.stateMachine.db, 0, none⟩, s.clock⟩).map s.withMachine

inductive StoreEvent where
  | called (op : StoreOperation)
  /-- The process stopped inside the call, and the store was opened again. -/
  | cutOff (op : StoreOperation)

/-- A store and what has happened to it. -/
inductive Lived : List StoreEvent → RaftStore → Prop
  | opened : Lived [] (openedStore bc ids)
  | call {past : List StoreEvent} {store : RaftStore} (step : StoreStep)
      (lived : Lived past store) :
      Lived (past ++ [.called step.op]) (step.op.perform bc json ids step.clock store).2
  | crash {past : List StoreEvent} {store : RaftStore} {t : StoreMachine} {m n : Nat}
      (step : StoreStep) (clock : Nat → Int64) (lived : Lived past store)
      (inside : t ∈ step.op.within bc json ids ⟨store, step.clock⟩)
      (queues : t.store.stateMachine.db.flushed ≤ m) (log : t.db.flushed ≤ n) :
      Lived (past ++ [.cutOff step.op])
        (RaftStore.open bc ids clock (t.store.stateMachine.db.keep m) (t.db.keep n)).2

end Lives

/-! ## Methods that record -/

/-- A method that writes nothing but metadata under the given keys, each with a flush, and what
    the state machine writes. -/
inductive Recording (keys : List String) : {α : Type} → StoreAction α → Prop
  | reads {α : Type} {p : StoreAction α} (only : p.Only StoreCall.Reads) : Recording keys p
  | metaSet {key : String} (listed : key ∈ keys) (data : Bytes) :
      Recording keys (RaftStore.metaSet key data)
  | onStateMachine {α : Type} (action : Action α) : Recording keys (RaftStore.onStateMachine action)
  | setCurrentSnapshot (snapshot : StoredSnapshot) :
      Recording keys (.ask (.setCurrentSnapshot snapshot))
  | flush : Recording keys (RaftStore.call .flush)
  | bind {α β : Type} {p : StoreAction β} {f : β → StoreAction α} (first : Recording keys p)
      (second : ∀ b, Recording keys (f b)) : Recording keys (p >>= f)

namespace Recording

variable {bc : Bincode} {json : SerdeJson} {ids : Nat → UInt64} {keys : List String} {α : Type}

theorem ret (a : α) : Recording keys (.ret a) := .reads trivial

theorem applyToStateMachine (entries : List LogEntry) :
    Recording ["last_applied", "last_membership"]
      (RaftStore.applyToStateMachine bc json entries) := by
  induction entries with
  | nil => exact ret []
  | cons entry entries ih =>
      have payload : Recording ["last_applied", "last_membership"]
          (RaftStore.applyPayload bc json entry) := by
        rw [RaftStore.applyPayload]
        cases entry.payload with
        | blank => exact ret _
        | normal op => exact onStateMachine _
        | membership => exact bind (metaSet (by decide) _) fun _ => ret _
      exact bind payload fun _ => bind (metaSet (by decide) _) fun _ => bind ih fun _ => ret _

theorem lastSnapshotIdx : Recording keys RaftStore.lastSnapshotIdx := by
  refine reads (.bind (.ask trivial) fun found => ?_)
  cases found with
  | none => trivial
  | some value => exact .ite trivial trivial

theorem buildSnapshot : Recording ["snapshot_idx"] (RaftStore.buildSnapshot bc json) :=
  bind (onStateMachine _) fun _ =>
    bind (reads (RaftStore.only_metaGetSingle json.logId "last_applied")) fun _ =>
      bind (reads (RaftStore.only_metaGetSingle json.membership "last_membership")) fun _ =>
        bind lastSnapshotIdx fun _ => bind (metaSet (by decide) _) fun _ =>
          bind (setCurrentSnapshot _) fun _ => ret _

theorem installSnapshot (info : SnapshotMeta) (data : Bytes) :
    Recording ["last_applied", "last_membership"]
      (RaftStore.installSnapshot bc json info data) :=
  bind (onStateMachine _) fun _ => bind (metaSet (by decide) _) fun _ =>
    bind (metaSet (by decide) _) fun _ => bind (setCurrentSnapshot _) fun _ => flush

/-- Nothing is left unflushed. -/
theorem saved {p : StoreAction α} (recording : Recording keys p) {s : StoreMachine}
    (saved : s.db.Saved) : (p.run (handleStore ids) s).2.db.Saved := by
  induction recording generalizing s with
  | @reads _ p only =>
      have same : (p.run (handleStore ids) s).2 = s :=
        Program.Only.preserves (fun t => t = s) (handleStore_reads s) only rfl
      rwa [same]
  | metaSet | flush => rfl
  | @onStateMachine _ action =>
      obtain ⟨m, -, same⟩ := onStateMachine_visits (Program.run_mem_visits (handleStore ids)
        (RaftStore.onStateMachine action) s)
      rw [same]
      exact saved
  | setCurrentSnapshot => exact saved
  | @bind _ _ p _ _ _ first second =>
      have between := first saved
      rw [Program.run_bind]
      generalize p.run (handleStore ids) s = r at between
      obtain ⟨outcome, s'⟩ := r
      cases outcome with
      | ok b => exact second b between
      | err | panicked | diverged => exact between

end Recording

section Saving

variable {bc : Bincode} {json : SerdeJson} {ids : Nat → UInt64}

/-- Every call leaves the log and the metadata on disk. -/
theorem saved_perform {store : RaftStore} (saved : store.db.Saved) (step : StoreStep) :
    (step.op.perform bc json ids step.clock store).2.db.Saved := by
  obtain ⟨op, clock⟩ := step
  have here : (⟨store, clock⟩ : StoreMachine).db.Saved := saved
  have reading {α : Type} (p : StoreAction α) (only : p.Only StoreCall.Reads) :
      (p.run (handleStore ids) ⟨store, clock⟩).2.db.Saved :=
    (Recording.reads only : Recording [] p).saved here
  cases op with
  | saveVote => rfl
  | readVote => exact reading (RaftStore.readVote json) RaftStore.only_readVote
  | appendToLog entries =>
      change ((RaftStore.appendToLog json entries).run (handleStore ids) _).2.db.Saved
      rw [RaftStore.appendToLog_run]
      rfl
  | deleteConflictLogsSince logId =>
      change ((RaftStore.deleteConflictLogsSince logId).run (handleStore ids) _).2.db.Saved
      rw [RaftStore.deleteConflictLogsSince_run]
      rfl
  | purgeLogsUpto logId =>
      change ((RaftStore.purgeLogsUpto json logId).run (handleStore ids) _).2.db.Saved
      rw [RaftStore.purgeLogsUpto_run]
      rfl
  | getLogState => exact reading (RaftStore.getLogState json) RaftStore.only_getLogState
  | tryGetLogEntries start stop =>
      exact reading (RaftStore.tryGetLogEntries json start stop)
        (RaftStore.only_tryGetLogEntries start stop)
  | applyToStateMachine entries => exact (Recording.applyToStateMachine entries).saved here
  | lastAppliedState =>
      exact reading (RaftStore.lastAppliedState json) RaftStore.only_lastAppliedState
  | buildSnapshot =>
      change ((RaftStore.buildSnapshot bc json).run (handleStore ids) _).2.db.Saved
      exact Recording.buildSnapshot.saved here
  | installSnapshot info data => exact (Recording.installSnapshot info data).saved here
  | getCurrentSnapshot => exact saved
  | reopen => exact saved

theorem Lived.saved {past : List StoreEvent} {store : RaftStore}
    (lived : Lived bc json ids past store) : store.db.Saved := by
  induction lived with
  | opened => rfl
  | call step _ ih => exact saved_perform ih step
  | crash => exact Db.saved_keep _ _

end Saving

end PelicanQ
