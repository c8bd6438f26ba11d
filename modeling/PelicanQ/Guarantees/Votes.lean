import PelicanQ.Guarantees.Crashes
import PelicanQ.Lib.Since

/-! # A vote is not forgotten

A replica that forgets a vote it has given can give another one in the same
term.  Only `save_vote` writes the vote, and it has flushed it when it returns:
whatever calls, restarts and crashes follow, the replica reads back that vote,
or one that it was saving later.
-/

namespace PelicanQ

open Sled (Db)

/-- The vote as it is stored. -/
def voteText (trees : Sled.Trees) : Option Bytes := (trees metaTree).get "vote".utf8

/-! ## Calls that leave the vote alone -/

/-- The vote is the same at every point inside the method. -/
def SparesVote (ids : Nat → UInt64) {α : Type} (action : StoreAction α) : Prop :=
  ∀ s t : StoreMachine, t ∈ action.visits (handleStore ids) s →
    voteText t.db.trees = voteText s.db.trees

namespace SparesVote

variable {json : SerdeJson} {ids : Nat → UInt64} {α β : Type}

theorem bind {p : StoreAction β} {f : β → StoreAction α} (first : SparesVote ids p)
    (second : ∀ b, SparesVote ids (f b)) : SparesVote ids (p >>= f) := by
  intro s t inside
  rcases Program.mem_visits_bind _ inside with early | ⟨b, -, late⟩
  · exact first s t early
  · exact (second b _ t late).trans
      (first s _ (Program.run_mem_visits (handleStore ids) p s))

/-- A call that leaves the tree of the metadata alone. -/
theorem ask {c : StoreCall α}
    (same : ∀ s, (handleStore ids α c s).2.db.trees metaTree = s.db.trees metaTree) :
    SparesVote ids (.ask c) := by
  intro s t inside
  rcases List.mem_cons.mp inside with rfl | last
  · rfl
  · rw [List.mem_singleton.mp last]
    exact congrArg (fun tree => tree.get "vote".utf8) (same s)

theorem of_reads {p : StoreAction α} (only : p.Only StoreCall.Reads) : SparesVote ids p := by
  intro s t inside
  have same : t = s := only.visits_keep (fun t => t = s) (handleStore_reads s) rfl inside
  rw [same]

theorem of_recording {keys : List String} {p : StoreAction α} (recording : Recording keys p)
    (other : "vote" ∉ keys) : SparesVote ids p := by
  induction recording with
  | reads only => exact of_reads only
  | @metaSet key listed data =>
      intro s t inside
      have distinct : "vote" ≠ key := fun same => other (same ▸ listed)
      have written : voteText (putMeta s.db key data).trees = voteText s.db.trees :=
        (putMeta_get s.db key "vote" data).trans (if_neg distinct)
      rcases List.mem_cons.mp inside with rfl | later
      · rfl
      · rcases List.mem_cons.mp later with rfl | last
        · exact written
        · rw [List.mem_singleton.mp last]
          exact written
  | onStateMachine action =>
      intro s t inside
      obtain ⟨m, -, rfl⟩ := onStateMachine_visits inside
      rfl
  | setCurrentSnapshot | flush => exact ask fun _ => rfl
  | bind _ _ first second => exact bind first second

theorem insertEntries (entries : List LogEntry) :
    SparesVote ids (RaftStore.insertEntries json entries) := by
  induction entries with
  | nil => exact of_reads trivial
  | cons entry entries ih =>
      exact bind (ask fun s => insertEntry_meta json s.db entry) fun _ => ih

theorem removeKeys (found : List (Bytes × Bytes)) :
    SparesVote ids (RaftStore.removeKeys found) := by
  induction found with
  | nil => exact of_reads trivial
  | cons row found ih => exact bind (ask fun s => removeKey_meta s.db row) fun _ => ih

theorem appendToLog (entries : List LogEntry) :
    SparesVote ids (RaftStore.appendToLog json entries) :=
  bind (insertEntries entries) fun _ => ask fun _ => rfl

theorem deleteConflictLogsSince (logId : LogId) :
    SparesVote ids (RaftStore.deleteConflictLogsSince logId) :=
  bind (of_reads (.ask trivial)) fun found => bind (removeKeys found) fun _ => ask fun _ => rfl

theorem purgeLogsUpto (logId : LogId) : SparesVote ids (RaftStore.purgeLogsUpto json logId) := by
  have recorded : Recording ["last_purged"]
      (RaftStore.metaSet "last_purged" (json.logId.encode logId)) := .metaSet (by decide) _
  exact bind (of_reads (.ask trivial)) fun found => bind (removeKeys found) fun _ =>
    bind (of_recording recorded (by decide)) fun _ => ask fun _ => rfl

/-- A crash inside the method finds the vote as it was. -/
theorem keep {p : StoreAction α} (spares : SparesVote ids p) {s t : StoreMachine} {n : Nat}
    (saved : s.db.Saved) (inside : t ∈ p.visits (handleStore ids) s) (kept : t.db.flushed ≤ n) :
    voteText (t.db.keep n).trees = voteText s.db.trees := by
  obtain ⟨t', visited, same⟩ := cut_visited saved inside kept
  rw [same]
  exact spares s t' visited

end SparesVote

/-! ## Lives -/

/-- The event may have stored the vote. -/
def StoreEvent.Attempts (vote : Vote) : StoreEvent → Prop
  | .called op | .cutOff op => op = .saveVote vote

/-- No vote was saved for certain. -/
def StoreEvent.Unsaved (e : StoreEvent) : Prop := ∀ vote, e ≠ .called (.saveVote vote)

/-- The vote is one that no finished `save_vote` came after. -/
def VoteOf (past : List StoreEvent) : Option Vote → Prop
  | none => ∀ e ∈ past, e.Unsaved
  | some vote => Since (StoreEvent.Attempts vote) StoreEvent.Unsaved past

theorem VoteOf.unsaved {past : List StoreEvent} {vote : Option Vote} (h : VoteOf past vote)
    {e : StoreEvent} (unsaved : e.Unsaved) : VoteOf (past ++ [e]) vote := by
  cases vote with
  | none =>
      intro e' member
      rcases List.mem_append.mp member with old | new
      · exact h e' old
      · rw [List.mem_singleton.mp new]
        exact unsaved
  | some vote => exact since_snoc.mpr (.inr ⟨h, unsaved⟩)

section Lives

variable {bc : Bincode} {json : SerdeJson} {ids : Nat → UInt64} {store : RaftStore}
  {past : List StoreEvent}

/-- What a crash inside another call leaves of the vote. -/
theorem keep_vote {s t : StoreMachine} {n : Nat} {op : StoreOperation}
    (other : ∀ vote, op ≠ .saveVote vote) (inside : t ∈ op.within bc json ids s)
    (saved : s.db.Saved) (kept : t.db.flushed ≤ n) :
    voteText (t.db.keep n).trees = voteText s.db.trees := by
  cases op with
  | saveVote vote => exact absurd rfl (other vote)
  | readVote => exact (SparesVote.of_reads RaftStore.only_readVote).keep saved inside kept
  | appendToLog entries => exact (SparesVote.appendToLog entries).keep saved inside kept
  | deleteConflictLogsSince logId =>
      exact (SparesVote.deleteConflictLogsSince logId).keep saved inside kept
  | purgeLogsUpto logId => exact (SparesVote.purgeLogsUpto logId).keep saved inside kept
  | getLogState => exact (SparesVote.of_reads RaftStore.only_getLogState).keep saved inside kept
  | tryGetLogEntries start stop =>
      have spares : SparesVote ids (RaftStore.tryGetLogEntries json start stop) :=
        .of_reads (RaftStore.only_tryGetLogEntries start stop)
      exact spares.keep saved inside kept
  | applyToStateMachine entries =>
      have spares : SparesVote ids (RaftStore.applyToStateMachine bc json entries) :=
        .of_recording (.applyToStateMachine entries) (by decide)
      exact spares.keep saved inside kept
  | lastAppliedState =>
      exact (SparesVote.of_reads RaftStore.only_lastAppliedState).keep saved inside kept
  | buildSnapshot =>
      exact (SparesVote.of_recording .buildSnapshot (by decide)).keep saved inside kept
  | installSnapshot info data =>
      have spares : SparesVote ids (RaftStore.installSnapshot bc json info data) :=
        .of_recording (.installSnapshot info data) (by decide)
      exact spares.keep saved inside kept
  | getCurrentSnapshot =>
      have reads : RaftStore.getCurrentSnapshot.Only StoreCall.Reads := .ask trivial
      exact (SparesVote.of_reads reads).keep saved inside kept
  | reopen =>
      -- the log and the metadata are not written to
      obtain ⟨m, -, rfl⟩ := List.mem_map.mp inside
      exact congrArg voteText (saved.trees_keep kept)

/-- A finished call is the last point inside it. -/
theorem perform_within (bc : Bincode) (json : SerdeJson) (ids : Nat → UInt64) (store : RaftStore)
    (step : StoreStep) : ∃ t ∈ step.op.within bc json ids ⟨store, step.clock⟩,
      t.db = (step.op.perform bc json ids step.clock store).2.db := by
  obtain ⟨op, clock⟩ := step
  cases op with
  | reopen => exact ⟨_, List.mem_map_of_mem (Program.run_mem_visits (handle ids) _ _), rfl⟩
  | _ => exact ⟨_, Program.run_mem_visits (handleStore ids) _ _, rfl⟩

theorem Lived.vote (lived : Lived bc json ids past store) :
    ∃ vote : Option Vote, voteText store.db.trees = vote.map json.vote.encode ∧
      VoteOf past vote := by
  induction lived with
  | opened => exact ⟨none, rfl, fun _ member => absurd member List.not_mem_nil⟩
  | @call past store step lived ih =>
      obtain ⟨vote, stored, since⟩ := ih
      by_cases saves : ∃ vote, step.op = .saveVote vote
      · obtain ⟨op, clock⟩ := step
        obtain ⟨vote, rfl⟩ := saves
        exact ⟨some vote, (putMeta_get store.db "vote" "vote" _).trans (if_pos rfl),
          since_snoc.mpr (.inl rfl)⟩
      · have other : ∀ vote, step.op ≠ .saveVote vote := fun vote same => saves ⟨vote, same⟩
        obtain ⟨t, inside, same⟩ := perform_within bc json ids store step
        have kept := keep_vote other inside lived.saved t.db.flushed_le
        rw [Db.trees_keep_all, same] at kept
        exact ⟨vote, kept.trans stored, since.unsaved fun vote same =>
          other vote (StoreEvent.called.inj same)⟩
  | @crash past store t m n step clock lived inside _ flushed ih =>
      obtain ⟨vote, stored, since⟩ := ih
      have unsaved : (StoreEvent.cutOff step.op).Unsaved := by rintro vote ⟨⟩
      by_cases saves : ∃ vote, step.op = .saveVote vote
      · obtain ⟨op, clock'⟩ := step
        obtain ⟨vote', rfl⟩ := saves
        have saved : (⟨store, clock'⟩ : StoreMachine).db.Saved := lived.saved
        obtain ⟨-, old | new⟩ := metaSet_visits saved inside flushed
        · exact ⟨vote, (congrArg voteText old).trans stored, since.unsaved unsaved⟩
        · refine ⟨some vote', (congrArg voteText new).trans ?_, since_snoc.mpr (.inl rfl)⟩
          exact (putMeta_get store.db "vote" "vote" _).trans (if_pos rfl)
      · have other : ∀ vote, step.op ≠ .saveVote vote := fun vote same => saves ⟨vote, same⟩
        exact ⟨vote, (keep_vote other inside lived.saved flushed).trans stored,
          since.unsaved unsaved⟩

end Lives

/-- Whatever a store has been through, the vote it reads is one that no finished `save_vote` came
    after; it reads none only while none has finished. -/
theorem vote_survives (bc : Bincode) (json : SerdeJson) (ids : Nat → UInt64)
    {past : List StoreEvent} {store : RaftStore} (lived : Lived bc json ids past store) :
    ∃ vote, (∀ clock, (StoreOperation.readVote.perform bc json ids clock store).1 =
      .vote (.ok vote)) ∧ VoteOf past vote := by
  obtain ⟨vote, stored, since⟩ := lived.vote
  refine ⟨vote, fun clock => ?_, since⟩
  have read := RaftStore.run_metaGetSingle ids ⟨store, clock⟩ stored .ret
  rw [Program.bind_ret] at read
  exact congrArg (fun r => StoreResponse.vote r.1) read

def firstVote : Vote := ⟨⟨1, 1⟩, false⟩

def secondVote : Vote := ⟨⟨2, 3⟩, false⟩

/-- The first vote is saved and the second written but not flushed. -/
def secondUnflushed : StoreMachine :=
  ((StoreOperation.saveVote secondVote).within bincode serdeJson (counter 0)
    ⟨afterCalls bincode serdeJson (counter 0) (openedStore bincode (counter 0))
      [⟨.saveVote firstVote, fun _ => 5⟩], fun _ => 6⟩).get ⟨1, by decide +kernel⟩

/-- The second write is lost. -/
def openedAgain : RaftStore :=
  (RaftStore.open bincode (counter 0) (fun _ => 7)
    (secondUnflushed.store.stateMachine.db.keep 0) (secondUnflushed.db.keep 1)).2

theorem openedAgain_reads :
    (StoreOperation.readVote.perform bincode serdeJson (counter 0) (fun _ => 8) openedAgain).1 =
        .vote (.ok (some firstVote)) ∧
      ∃ vote, (∀ clock, (StoreOperation.readVote.perform bincode serdeJson (counter 0) clock
        openedAgain).1 = .vote (.ok vote)) ∧
        VoteOf [.called (.saveVote firstVote), .cutOff (.saveVote secondVote)] vote :=
  ⟨by decide +kernel, vote_survives bincode serdeJson (counter 0)
    (.crash ⟨.saveVote secondVote, fun _ => 6⟩ (fun _ => 7)
      (.call ⟨.saveVote firstVote, fun _ => 5⟩ .opened) (List.get_mem _ _)
      (by decide +kernel) (by decide +kernel))⟩

end PelicanQ
