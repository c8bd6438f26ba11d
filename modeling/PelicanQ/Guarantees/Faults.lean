import PelicanQ.Guarantees.Arithmetic
import PelicanQ.Guarantees.Deduplication
import PelicanQ.Lib.Crash

/-! # Faults inside a method

A database call that fails ends the method where it is, and a crash keeps the
first part of what was written.  Either way the store is left in one of the
states the method passes through.  `publish` and `declare_queue_with_retention`
make two writes each, in trees of their own, and the state between the two is
one that no undisturbed call leaves.
-/

namespace PelicanQ

open QueueManager

section Visits

variable {ids : Nat → UInt64} {s t : Machine} {α β : Type}

/-- A part that only reads leaves the store as it is. -/
theorem mem_visits_reads {p : Action β} {f : β → Action α} (only : p.Only Call.Reads)
    (inside : t ∈ (p >>= f).visits (handle ids) s) :
    t.db.log = s.db.log ∨ ∃ b s', (p.run (handle ids) s).1 = .ok b ∧ s'.db.log = s.db.log ∧
      t ∈ (f b).visits (handle ids) s' := by
  have intact {t' : Machine} (inside : t' ∈ p.visits (handle ids) s) : t'.db.log = s.db.log := by
    have same : s.manager.Intact t'.manager :=
      only.visits_keep (fun t : Machine => s.manager.Intact t.manager) (handle_reads s.manager)
        (.refl _) inside
    rw [Machine.db, same]
    rfl
  rcases Program.mem_visits_bind _ inside with first | ⟨b, ran, later⟩
  · exact .inl (intact first)
  · exact .inr ⟨b, _, ran, intact (Program.run_mem_visits _ p s), later⟩

/-- So many calls that only read lead to what is left of a program. -/
structure ReadsTo (ids : Nat → UInt64) (calls : Nat) (p : Action α) (s : Machine) (rest : Action α)
    (s' : Machine) : Prop where
  run : p.run (handle ids) s = rest.run (handle ids) s'
  log : s'.db.log = s.db.log
  visits : ∃ before : List Machine, before.length = calls ∧ (∀ t ∈ before, t.db.log = s.db.log) ∧
    p.visits (handle ids) s = before ++ rest.visits (handle ids) s'

namespace ReadsTo

variable {p rest last : Action α} {s' s'' : Machine} {calls more : Nat}

theorem trans (first : ReadsTo ids calls p s rest s') (second : ReadsTo ids more rest s' last s'') :
    ReadsTo ids (calls + more) p s last s'' where
  run := first.run.trans second.run
  log := second.log.trans first.log
  visits := by
    obtain ⟨before, length, same, visits⟩ := first.visits
    obtain ⟨between, length', same', visits'⟩ := second.visits
    refine ⟨before ++ between, by rw [List.length_append, length, length'], ?_, ?_⟩
    · intro t member
      rcases List.mem_append.mp member with old | new
      · exact same t old
      · exact (same' t new).trans first.log
    · rw [visits, visits', List.append_assoc]

/-- A part that only reads, and returns. -/
theorem part {part : Action β} {f : β → Action α} {b : β} (only : part.Only Call.Reads)
    (ran : part.run (handle ids) s = (.ok b, s'))
    (length : (part.visits (handle ids) s).length = calls + 1) :
    ReadsTo ids calls (part >>= f) s (f b) s' := by
  have intact {t : Machine} (inside : t ∈ part.visits (handle ids) s) : t.db.log = s.db.log := by
    have same : s.manager.Intact t.manager :=
      only.visits_keep (fun t : Machine => s.manager.Intact t.manager) (handle_reads s.manager)
        (.refl _) inside
    rw [Machine.db, same]
    rfl
  refine ⟨by rw [Program.run_bind, ran]; rfl, ?_, (part.visits (handle ids) s).dropLast, ?_, ?_,
    Program.visits_bind_ok ran⟩
  · have last := Program.run_mem_visits (handle ids) part s
    rw [ran] at last
    exact intact last
  · rw [List.length_dropLast, length, Nat.add_sub_cancel]
  · exact fun t member => intact (List.mem_of_mem_dropLast member)

theorem mem (reads : ReadsTo ids calls p s rest s') (inside : t ∈ p.visits (handle ids) s) :
    t.db.log = s.db.log ∨ t ∈ rest.visits (handle ids) s' := by
  obtain ⟨before, -, same, visits⟩ := reads.visits
  rw [visits] at inside
  exact (List.mem_append.mp inside).imp_left (same t)

/-- The states that are left are those of the rest. -/
theorem at_call (reads : ReadsTo ids calls p s rest s') {j : Nat}
    (there : (p.visits (handle ids) s)[j]? = some t) :
    (j < calls ∧ t.db.log = s.db.log) ∨
      (calls ≤ j ∧ (rest.visits (handle ids) s')[j - calls]? = some t) := by
  obtain ⟨before, rfl, same, visits⟩ := reads.visits
  rw [visits] at there
  by_cases early : j < before.length
  · rw [List.getElem?_append_left early] at there
    exact .inl ⟨early, same t (List.mem_of_getElem? there)⟩
  · rw [List.getElem?_append_right (Nat.le_of_not_lt early)] at there
    exact .inr ⟨Nat.le_of_not_lt early, there⟩

end ReadsTo

end Visits

/-- The writes of a call that are on disk. -/
def newWrites (before after : Sled.Db) : List Sled.Write :=
  (after.log.drop before.log.length).flatten

/-- What is kept of the writes of a call is a first part of them. -/
theorem kept_writes (before : Sled.Db) {after : Sled.Db} {log : List Sled.Batch} {written : List Sled.Batch}
    {n j : Nat} (made : log = before.log ++ written.take j) (kept : before.log.length ≤ n)
    (left : after.log = log.take n) : ∃ i, after.log = before.log ++ written.take i := by
  refine ⟨min (n - before.log.length) j, ?_⟩
  rw [left, made, List.take_append, List.take_of_length_le kept, List.take_take]

theorem trees_of_log {before after : Sled.Db} {written : List Sled.Batch}
    (log : after.log = before.log ++ written) :
    after.trees = written.foldl Sled.applyBatch before.trees := by
  rw [after.replayed, log, Sled.replay, List.foldl_append, before.replayed]
  rfl

theorem newWrites_of_log {before after : Sled.Db} {written : List Sled.Batch}
    (log : after.log = before.log ++ written) : newWrites before after = written.flatten := by
  rw [newWrites, log, List.drop_left]

/-! ## Publishing -/

/-- The call stored the message. -/
def NewMessage (bc : Bincode) (q : String) (m : Message) (before after : Sled.Db) : Prop :=
  ∃ tree ∈ [q, scheduledTreeName q], ∃ key,
    Sled.Write.insert tree key (bc.message.encode m) ∈ newWrites before after ∧
      (after.trees tree).get key = some (bc.message.encode m)

/-- The call recorded the deduplication key. -/
def NewRecord (q key : String) (before after : Sled.Db) : Prop :=
  ∃ time, Sled.Write.insert (dedupTreeName q) key.utf8 time ∈ newWrites before after ∧
    (after.trees (dedupTreeName q)).get key.utf8 = some time

section Publish

variable {bc : Bincode} {ids : Nat → UInt64} {q : String} {m : Message} {key : String}
  {policy : RetentionPolicy} {s t : Machine}

/-- The writes of a publish of a message with a key. -/
def publishWrites (bc : Bincode) (q : String) (m : Message) (key tree : String) (place : Bytes)
    (time : Int64) : List Sled.Batch :=
  [[.insert tree place (bc.message.encode m)],
    [.insert (dedupTreeName q) key.utf8 time.toBeBytes]]

/-- The queue is there, the key is not on record within the window, and there is room. -/
def Stores (bc : Bincode) (clock : Nat → Int64) (qm : QueueManager) (q : String) (m : Message) : Prop :=
  qm.registered q = true ∧
    (isRepeated (policyRead bc qm.db q) (recordedIn qm.db q) m clock).1 = false ∧
    qm.hasRoom (UInt64.ofNat (bc.message.encode m).length) = true

/-- The calls of the check for a duplicate: for the tree and for the record, and if there is one,
    for the time. -/
def duplicateCalls (policy : RetentionPolicy) (recorded : String → Option Int64) (m : Message) : Nat :=
  match policy.dedupWindowSecs, m.dedupKey with
  | some windowSecs, some key =>
      if 0 < windowSecs then if (recorded key).isSome then 3 else 2 else 0
  | _, _ => 0

/-- The calls a publish makes before it inserts its message: for the queue and for its policy, of
    the check for a duplicate, for the limit and the bytes, for an id, for the time if the message
    has one, and for the tree. -/
def callsBeforeInsert (bc : Bincode) (qm : QueueManager) (q : String) (m : Message) : Nat :=
  1 + 1 + duplicateCalls (policyRead bc qm.db q) (recordedIn qm.db q) m +
    (if qm.maxBytes.isSome then 2 else 1) + 1 + (if m.deliverAt.isSome then 1 else 0) + 1

/-- Where a publish is disturbed: at a call that fails, or at which the process stops, and how many
    of the writes it has made by then are kept. -/
structure Fault where
  call : Nat
  kept : Nat

/-- Five calls after it has inserted its message a publish inserts the record.  No fault comes
    between the two, neither for a call that fails nor for what is kept. -/
def Fault.Whole (fault : Fault) (bc : Bincode) (clock : Nat → Int64) (qm : QueueManager) (q : String)
    (m : Message) : Prop :=
  Stores bc clock qm q m → fault.call ≤ callsBeforeInsert bc qm q m ∨ fault.kept = 0 ∨
    (callsBeforeInsert bc qm q m + 5 < fault.call ∧ 1 < fault.kept)

section Calls

variable (ids) {α : Type}

theorem reads_requireQueue (next : Unit → Action α)
    (registered : s.manager.registered q = true) :
    ReadsTo ids 1 (requireQueue q >>= next) s (next ()) s := by
  have found : ((s.db.trees metaQueuesTree).get q.utf8).isSome = true := registered
  refine .part QueueManager.only_requireQueue ?_ ?_
  · rw [← Program.bind_ret (requireQueue q)]
    exact run_requireQueue_found ids s .ret found
  · rw [requireQueue, visits_containsKey, found]
    rfl

theorem reads_policyOf (next : RetentionPolicy → Action α) :
    ReadsTo ids 1 (policyOf bc q >>= next) s (next (policyRead bc s.db q)) s :=
  .part QueueManager.only_policyOf rfl rfl

theorem reads_isDuplicate (next : Bool → Action α) (policy : RetentionPolicy)
    (timed : TimedRecord s.db q m) :
    ReadsTo ids (duplicateCalls policy (recordedIn s.db q) m) (isDuplicate q m policy >>= next) s
      (next (isRepeated policy (recordedIn s.db q) m s.clock).1)
      (s.withClock (isRepeated policy (recordedIn s.db q) m s.clock).2) := by
  refine .part (QueueManager.only_isDuplicate m policy) ?_ ?_
  · rw [← Program.bind_ret (isDuplicate q m policy), run_isDuplicate_read ids timed]
    rfl
  · unfold isDuplicate duplicateCalls
    cases policy.dedupWindowSecs with
    | none => rfl
    | some windowSecs =>
        cases keyed : m.dedupKey with
        | none => rfl
        | some key =>
            by_cases positive : 0 < windowSecs
            · simp only [if_pos positive, visits_openTree, visits_get, recordedIn, Option.isSome_map]
              cases found : (s.db.trees (dedupTreeName q)).get key.utf8 with
              | none => rfl
              | some value =>
                  have long : 8 ≤ value.length := timed key value keyed found
                  simp only [slice_of_le long, Program.ret_bind]
                  rfl
            · simp only [if_neg positive]
              rfl

theorem reads_checkLimit (next : Unit → Action α) {size : UInt64}
    (room : s.manager.hasRoom size = true) :
    ReadsTo ids (if s.manager.maxBytes.isSome then 2 else 1) (checkLimit size >>= next) s (next ())
      s := by
  refine .part (QueueManager.only_checkLimit size) ?_ ?_
  · rw [← Program.bind_ret (checkLimit size)]
    exact run_checkLimit_room ids s .ret room
  · rw [checkLimit, visits_maxBytes]
    rw [QueueManager.hasRoom] at room
    cases limit : s.manager.maxBytes with
    | none => rfl
    | some max =>
        rw [limit] at room
        have fits : ¬max < s.manager.currentBytes + size := by simpa using room
        simp only [visits_currentBytes, if_neg fits]
        rfl

theorem reads_notYetDue (next : Option Int64 → Action α) (m : Message) :
    ReadsTo ids (if m.deliverAt.isSome then 1 else 0) (QueueManager.notYetDue m >>= next) s
      (next (PelicanQ.notYetDue m s.clock).1) (s.withClock (PelicanQ.notYetDue m s.clock).2) := by
  refine .part (QueueManager.only_notYetDue m) ?_ ?_
  · unfold QueueManager.notYetDue PelicanQ.notYetDue
    cases m.deliverAt <;> rfl
  · unfold QueueManager.notYetDue
    cases m.deliverAt <;> rfl

theorem reads_generateId (next : UInt64 → Action α) :
    ReadsTo ids 1 (generateId >>= next) s (next (ids s.db.drawn)) s.draw :=
  .part (Program.Only.ask (c := Call.sled .generateId) trivial) rfl rfl

theorem reads_openTree (tree : String) (next : Unit → Action α) :
    ReadsTo ids 1 (openTree tree >>= next) s (next ()) s :=
  .part (Program.Only.ask (c := Call.sled (.openTree tree)) trivial) rfl rfl

end Calls

/-- What a publish does from the insert of its message on. -/
def insertAndRecord (bc : Bincode) (q : String) (m : Message) (policy : RetentionPolicy) (tree : String)
    (place : Bytes) : Action PublishOutcome := do
  insert tree place (bc.message.encode m)
  addBytes (UInt64.ofNat (bc.message.encode m).length)
  recordDedupKey q m policy
  pure (.stored m.id)

/-- What it does once it has an id and knows whether the message has to wait. -/
def openAndInsert (bc : Bincode) (q : String) (m : Message) (policy : RetentionPolicy) (id : UInt64) :
    Option Int64 → Action PublishOutcome
  | some deliverAt => do
      openTree (scheduledTreeName q)
      insertAndRecord bc q m policy (scheduledTreeName q) (encodeScheduledKey deliverAt id)
  | none => do
      openTree q
      insertAndRecord bc q m policy q (encodeKey m.priority id)

/-- A publish that nothing speaks against reads until it inserts its message. -/
theorem reads_publish (ids : Nat → UInt64) (timed : TimedRecord s.db q m)
    (stores : Stores bc s.clock s.manager q m) :
    ∃ tree ∈ [q, scheduledTreeName q], ∃ place s',
      ReadsTo ids (callsBeforeInsert bc s.manager q m) (publish bc q m) s
        (insertAndRecord bc q m (policyRead bc s.db q) tree place) s' := by
  obtain ⟨registered, fresh, room⟩ := stores
  change (isRepeated (policyRead bc s.db q) (recordedIn s.db q) m s.clock).1 = false at fresh
  let checked := s.withClock (isRepeated (policyRead bc s.db q) (recordedIn s.db q) m s.clock).2
  let last := checked.draw.withClock (PelicanQ.notYetDue m checked.clock).2
  have stillRoom : checked.manager.hasRoom (UInt64.ofNat (bc.message.encode m).length) = true := room
  have upTo : ReadsTo ids (1 + (1 + (duplicateCalls (policyRead bc s.db q) (recordedIn s.db q) m +
      ((if s.manager.maxBytes.isSome then 2 else 1) + (1 + if m.deliverAt.isSome then 1 else 0)))))
      (publish bc q m) s (openAndInsert bc q m (policyRead bc s.db q) (ids s.db.drawn)
        (PelicanQ.notYetDue m checked.clock).1) last := by
    refine (reads_requireQueue ids _ registered).trans ((reads_policyOf ids _).trans
      ((reads_isDuplicate ids _ _ timed).trans ?_))
    rw [fresh, if_neg Bool.false_ne_true]
    exact (reads_checkLimit ids _ stillRoom).trans
      ((reads_generateId ids _).trans (reads_notYetDue ids _ m))
  have calls : callsBeforeInsert bc s.manager q m =
      1 + (1 + (duplicateCalls (policyRead bc s.db q) (recordedIn s.db q) m +
        ((if s.manager.maxBytes.isSome then 2 else 1) + (1 + if m.deliverAt.isSome then 1 else 0)))) +
        1 := by
    simp only [callsBeforeInsert, Machine.db, Nat.add_assoc]
  rw [calls]
  cases due : (PelicanQ.notYetDue m checked.clock).1 with
  | some deliverAt =>
      rw [due] at upTo
      exact ⟨scheduledTreeName q, by simp, _, last, upTo.trans (reads_openTree ids _ _)⟩
  | none =>
      rw [due] at upTo
      exact ⟨q, by simp, _, last, upTo.trans (reads_openTree ids _ _)⟩

/-- The writes a publish has made when it comes to a call, by the call that inserts its message. -/
def writesBy (insertCall call : Nat) : Nat :=
  if call ≤ insertCall then 0 else if call ≤ insertCall + 5 then 1 else 2

/-- The calls from the insert of the message on, and what they have written. -/
theorem insertAndRecord_visits (bc : Bincode) (ids : Nat → UInt64) (q : String) {windowSecs : UInt64}
    (window : policy.dedupWindowSecs = some windowSecs) (keyed : m.dedupKey = some key)
    (tree : String) (place : Bytes) (s : Machine) :
    (insertAndRecord bc q m policy tree place).run (handle ids) s = (.ok (.stored m.id),
        ((insertAndRecord bc q m policy tree place).run (handle ids) s).2) ∧
      ((insertAndRecord bc q m policy tree place).visits (handle ids) s).length = 7 ∧
      ∃ time, ∀ i t, ((insertAndRecord bc q m policy tree place).visits (handle ids) s)[i]? = some t →
        t.db.log = s.db.log ++ (publishWrites bc q m key tree place time).take (writesBy 0 i) := by
  let stored := s.commit [.insert tree place (bc.message.encode m)]
  let counted := stored.setBytes
    (stored.manager.currentBytes + UInt64.ofNat (bc.message.encode m).length)
  let recorded := counted.tick.commit
    [.insert (dedupTreeName q) key.utf8 (counted.clock 0).toBeBytes]
  have passed : (insertAndRecord bc q m policy tree place).visits (handle ids) s =
      [s, stored, stored, counted, counted, counted.tick, recorded] := by
    simp only [insertAndRecord, recordDedupKey, window, keyed]
    rfl
  rw [passed]
  refine ⟨?_, rfl, counted.clock 0, fun i t there => ?_⟩
  · simp only [insertAndRecord, recordDedupKey, window, keyed]
    rfl
  · have both : recorded.db.log = s.db.log ++ publishWrites bc q m key tree place (counted.clock 0) :=
      List.append_assoc ..
    have inside : i < 7 := (List.getElem?_eq_some_iff.mp there).1
    interval_cases i <;> cases there
    · exact (List.append_nil _).symm
    · rfl
    · rfl
    · rfl
    · rfl
    · rfl
    · exact both

/-- What a publish that nothing speaks against has written when it comes to a call. -/
theorem publish_at (ids : Nat → UInt64) {windowSecs : UInt64}
    (window : (policyRead bc s.db q).dedupWindowSecs = some windowSecs) (keyed : m.dedupKey = some key)
    (timed : TimedRecord s.db q m) (stores : Stores bc s.clock s.manager q m) :
    ((publish bc q m).run (handle ids) s).1 = .ok (.stored m.id) ∧
      ((publish bc q m).visits (handle ids) s).length = callsBeforeInsert bc s.manager q m + 7 ∧
      ∃ tree ∈ [q, scheduledTreeName q], ∃ place time, ∀ i t,
        ((publish bc q m).visits (handle ids) s)[i]? = some t →
          t.db.log = s.db.log ++ (publishWrites bc q m key tree place time).take
            (writesBy (callsBeforeInsert bc s.manager q m) i) := by
  obtain ⟨tree, listed, place, s', reads⟩ := reads_publish ids timed stores
  obtain ⟨ends, length, time, written⟩ := insertAndRecord_visits bc ids q window keyed
    tree place s'
  refine ⟨?_, ?_, tree, listed, place, time, fun i t there => ?_⟩
  · rw [reads.run, ends]
  · obtain ⟨before, same, -, visits⟩ := reads.visits
    rw [visits, List.length_append, same, length]
  · rcases reads.at_call there with ⟨early, log⟩ | ⟨late, there⟩
    · rw [log, writesBy, if_pos early.le]
      exact (List.append_nil _).symm
    · rw [written _ t there, reads.log]
      congr 2
      unfold writesBy
      split_ifs <;> omega

/-- A publish that something speaks against writes nothing. -/
theorem publish_quiet (timed : TimedRecord s.db q m) (stops : ¬ Stores bc s.clock s.manager q m)
    (inside : t ∈ (publish bc q m).visits (handle ids) s) : t.db.log = s.db.log := by
  cases registered : s.manager.registered q with
  | false =>
      rcases mem_visits_reads QueueManager.only_requireQueue inside with same | ⟨_, _, found, -, -⟩
      · exact same
      · have absent : ((s.db.trees metaQueuesTree).get q.utf8).isSome = false := registered
        rw [requireQueue, run_containsKey, absent] at found
        cases found
  | true =>
      have checks := (reads_requireQueue ids (s := s) (fun _ => policyOf bc q >>= fun policy =>
        isDuplicate q m policy >>= fun duplicate => if duplicate then pure .deduplicated else do
          checkLimit (UInt64.ofNat (bc.message.encode m).length)
          store bc q m policy) registered).trans
        ((reads_policyOf ids _).trans (reads_isDuplicate ids _ _ timed))
      rcases checks.mem inside with same | inside
      · exact same
      cases repeated : (isRepeated (policyRead bc s.db q) (recordedIn s.db q) m s.clock).1 with
      | true =>
          rw [repeated, if_pos rfl] at inside
          rw [List.mem_singleton.mp inside]
          rfl
      | false =>
          rw [repeated, if_neg Bool.false_ne_true] at inside
          rcases mem_visits_reads (QueueManager.only_checkLimit _) inside with
            same | ⟨_, _, fits, -, -⟩
          · exact same
          · cases room : s.manager.hasRoom (UInt64.ofNat (bc.message.encode m).length) with
            | true => exact absurd ⟨registered, repeated, room⟩ stops
            | false =>
                obtain ⟨_, _, full⟩ := run_checkLimit_full ids
                  (s.withClock (isRepeated (policyRead bc s.db q) (recordedIn s.db q) m s.clock).2)
                  .ret room
                rw [Program.bind_ret] at full
                rw [full] at fits
                cases fits

section Kept

variable {before after : Sled.Db} {tree : String} {place : Bytes} {time : Int64} {i : Nat}

theorem dedup_apart (listed : tree ∈ [q, scheduledTreeName q]) : dedupTreeName q ≠ tree := by
  intro same
  rcases List.mem_cons.mp listed with ready | rest
  · have roles : Role.dedup.treeName q = Role.ready.treeName q := same.trans ready
    exact absurd (Role.treeName_role roles) (by decide)
  · have roles : Role.dedup.treeName q = Role.scheduled.treeName q :=
      same.trans (List.mem_singleton.mp rest)
    exact absurd (Role.treeName_role roles) (by decide)

theorem get_written (trees : Sled.Trees) (tree : String) (place value : Bytes) :
    (Sled.applyWrite trees (.insert tree place value) tree).get place = some value := by
  have same : Sled.applyWrite trees (.insert tree place value) tree =
      (trees tree).insert place value := Sled.applyWrite_same ..
  rw [same, OrdMap.get_insert, if_pos rfl]

theorem take_both (i : Nat) : (publishWrites bc q m key tree place time).take (i + 2) =
    publishWrites bc q m key tree place time :=
  List.take_of_length_le (Nat.le_add_left 2 i)

theorem newMessage_iff (listed : tree ∈ [q, scheduledTreeName q])
    (log : after.log = before.log ++ (publishWrites bc q m key tree place time).take i) :
    NewMessage bc q m before after ↔ 0 < i := by
  have written := newWrites_of_log log
  have trees := trees_of_log log
  match i with
  | 0 =>
      refine iff_of_false ?_ (Nat.lt_irrefl 0)
      rintro ⟨_, -, _, member, -⟩
      exact absurd (written ▸ member) List.not_mem_nil
  | 1 =>
      refine iff_of_true ⟨tree, listed, place, ?_, ?_⟩ Nat.one_pos
      · rw [written]
        exact List.mem_cons_self
      · rw [trees]
        exact get_written ..
  | i + 2 =>
      refine iff_of_true ⟨tree, listed, place, ?_, ?_⟩ (Nat.succ_pos _)
      · rw [written]
        exact List.mem_cons_self
      · -- the record goes to another tree
        have later := Sled.applyWrite_other
          (Sled.applyWrite before.trees (.insert tree place (bc.message.encode m)))
          (w := .insert (dedupTreeName q) key.utf8 time.toBeBytes) (dedup_apart listed).symm
        rw [trees, take_both]
        exact (congrArg (OrdMap.get · place) later).trans (get_written ..)

theorem newRecord_iff (listed : tree ∈ [q, scheduledTreeName q])
    (log : after.log = before.log ++ (publishWrites bc q m key tree place time).take i) :
    NewRecord q key before after ↔ 1 < i := by
  have written := newWrites_of_log log
  have trees := trees_of_log log
  match i with
  | 0 =>
      refine iff_of_false ?_ (by decide)
      rintro ⟨_, member, -⟩
      exact absurd (written ▸ member) List.not_mem_nil
  | 1 =>
      refine iff_of_false ?_ (Nat.lt_irrefl 1)
      rintro ⟨_, member, -⟩
      rw [written] at member
      injection List.mem_singleton.mp member with same
      exact dedup_apart listed same
  | i + 2 =>
      refine iff_of_true ⟨time.toBeBytes, ?_, ?_⟩ (by omega)
      · rw [written]
        exact List.mem_cons_of_mem _ List.mem_cons_self
      · rw [trees, take_both]
        exact get_written ..

end Kept

/-- The write puts a copy of the message into the queue. -/
def isCopy (bc : Bincode) (q : String) (m : Message) : Sled.Write → Bool
  | .insert tree _ value => [q, scheduledTreeName q].contains tree && value == bc.message.encode m
  | .remove .. => false

/-- The copies of the message that a call puts into the queue. -/
def copies (bc : Bincode) (q : String) (m : Message) (before after : Sled.Db) : Nat :=
  (newWrites before after).countP (isCopy bc q m)

/-- The key is published again to a store that has the record that was left, if any, within the
    window of that record. -/
structure Retried (bc : Bincode) (q key : String) (windowSecs : UInt64) (left : Sled.Db)
    (qm : QueueManager) (clock : Nat → Int64) : Prop where
  policy : (policyRead bc qm.db q).dedupWindowSecs = some windowSecs
  record : (qm.db.trees (dedupTreeName q)).get key.utf8 = (left.trees (dedupTreeName q)).get key.utf8
  epoch : 0 ≤ clock 0
  within : ∀ time, recordedIn left q key = some time →
    (clock 0).toInt - time.toInt < 1000 * windowSecs.toNat

section Copies

variable {before after : Sled.Db} {tree : String} {place : Bytes} {time : Int64} {i : Nat}

theorem copies_of_log (listed : tree ∈ [q, scheduledTreeName q])
    (log : after.log = before.log ++ (publishWrites bc q m key tree place time).take i) :
    copies bc q m before after = min i 1 := by
  have message : isCopy bc q m (.insert tree place (bc.message.encode m)) = true := by
    rw [isCopy, List.contains_iff_mem.mpr listed, beq_self_eq_true]
    rfl
  have record : isCopy bc q m (.insert (dedupTreeName q) key.utf8 time.toBeBytes) = false := by
    rw [isCopy, Bool.and_eq_false_iff]
    refine .inl (Bool.eq_false_iff.mpr fun contained => ?_)
    exact dedup_apart (List.contains_iff_mem.mp contained) rfl
  rw [copies, newWrites_of_log log]
  match i with
  | 0 => rfl
  | 1 => simp [publishWrites, message]
  | i + 2 => simp [publishWrites, message, record]

theorem copies_same (log : after.log = before.log) : copies bc q m before after = 0 := by
  rw [copies, newWrites_of_log (log.trans (List.append_nil _).symm)]
  rfl

end Copies

/-- A publish puts at most one copy into the queue. -/
theorem copies_publish_le {windowSecs : UInt64}
    (window : (policyRead bc s.db q).dedupWindowSecs = some windowSecs) (keyed : m.dedupKey = some key)
    (timed : TimedRecord s.db q m) :
    copies bc q m s.db ((publish bc q m).run (handle ids) s).2.db ≤ 1 := by
  have last := Program.run_mem_visits (handle ids) (publish bc q m) s
  by_cases stores : Stores bc s.clock s.manager q m
  · obtain ⟨-, -, tree, listed, place, time, written⟩ := publish_at ids window keyed timed
      stores
    obtain ⟨i, there⟩ := List.getElem?_of_mem last
    rw [copies_of_log listed (written i _ there)]
    exact Nat.min_le_right ..
  · rw [copies_same (publish_quiet timed stores last)]
    exact Nat.zero_le 1

/-- A publish of a key that is on record within the window writes nothing. -/
theorem retried_quiet {windowSecs : UInt64} (keyed : m.dedupKey = some key) {left : Sled.Db}
    (retried : Retried bc q key windowSecs left s.manager s.clock) (positive : 0 < windowSecs)
    (fits : 1000 * windowSecs.toNat < 2 ^ 63) {time : Int64}
    (recorded : (left.trees (dedupTreeName q)).get key.utf8 = some time.toBeBytes)
    (inside : t ∈ (publish bc q m).visits (handle ids) s) : t.db.log = s.db.log := by
  have found : (s.db.trees (dedupTreeName q)).get key.utf8 = some time.toBeBytes :=
    retried.record.trans recorded
  have reads (db : Sled.Db) (found : (db.trees (dedupTreeName q)).get key.utf8 = some time.toBeBytes) :
      recordedIn db q key = some time := by
    rw [recordedIn, found, Option.map_some, List.take_of_length_le (Int64.length_toBeBytes time).le,
      Int64.fromBeBytes_toBeBytes]
  refine publish_quiet (fun key' value keyed' there => ?_) (fun stores => ?_) inside
  · cases keyed.symm.trans keyed'
    cases found.symm.trans there
    exact (Int64.length_toBeBytes time).ge
  · have fresh := stores.2.1
    rw [isRepeated, retried.policy, keyed] at fresh
    simp only [if_pos positive, reads s.manager.db found, decide_eq_false_iff_not] at fresh
    exact fresh ((inWindow_exact retried.epoch fits).mpr (retried.within time (reads left recorded)))

end Publish

/-- A queue that deduplicates for five seconds. -/
def keyedManager : QueueManager :=
  final bincode (counter 0) (started bincode (counter 0) none)
    [⟨.declareQueueWithRetention "q" fiveSeconds, fun _ => 0⟩]

/-- The store after a publish that nothing disturbs. -/
def keyedStore : Sled.Db :=
  ((publish bincode "q" keyedMessage).run (handle (counter 0)) ⟨keyedManager, fun _ => 0⟩).2.db

/-- The publish has stored its message and made no record yet. -/
def halfPublished : Machine :=
  (((publish bincode "q" keyedMessage).visits (handle (counter 0)) ⟨keyedManager, fun _ => 0⟩).find?
    fun t => decide (t.db.log.length = keyedManager.db.log.length + 1)).getD
      ⟨keyedManager, fun _ => 0⟩

/-- The way `publish`, `nack` and `apply_retention` start goes on with this policy. -/
def Uses (bc : Bincode) (qm : QueueManager) (name : String) (policy : RetentionPolicy) : Prop :=
  ∀ (ids : Nat → UInt64) (clock : Nat → Int64) (α : Type) (rest : RetentionPolicy → Action α),
    (do requireQueue name
        rest (← policyOf bc name)).run (handle ids) ⟨qm, clock⟩ =
      (rest policy).run (handle ids) ⟨qm, clock⟩

/-- The queue is not there and can be declared, or it is there with its policy. -/
def DeclaredWhole (bc : Bincode) (name : String) (policy : RetentionPolicy) (qm : QueueManager) :
    Prop :=
  (name.utf8 ∉ (qm.db.trees metaQueuesTree).keys ∧ ∀ ids clock,
      (exec ids clock (declareQueueWithRetention bc name policy) qm).1 = .ok () ∧
        Uses bc (exec ids clock (declareQueueWithRetention bc name policy) qm).2 name policy) ∨
    (name.utf8 ∈ (qm.db.trees metaQueuesTree).keys ∧ Uses bc qm name policy)

section Declare

variable {bc : Bincode} {ids : Nat → UInt64} {name : String} {policy : RetentionPolicy}
  {s t : Machine} {qm : QueueManager}

/-- The writes of a declaration. -/
def declareWrites (bc : Bincode) (name : String) (policy : RetentionPolicy) : List Sled.Batch :=
  [[.insert metaQueuesTree name.utf8 []],
    [.insert metaRetentionTree name.utf8 (bc.policy.encode policy)]]

theorem declare_registered (registered : name.utf8 ∈ (s.db.trees metaQueuesTree).keys) :
    (declareQueueWithRetention bc name policy).visits (handle ids) s = [s, s] := by
  obtain ⟨value, found⟩ := OrdMap.mem_keys.mp registered
  rw [declareQueueWithRetention, visits_containsKey, found]
  rfl

theorem declare_visits (unregistered : name.utf8 ∉ (s.db.trees metaQueuesTree).keys)
    (inside : t ∈ (declareQueueWithRetention bc name policy).visits (handle ids) s) :
    ∃ j, t.db.log = s.db.log ++ (declareWrites bc name policy).take j := by
  rw [declareQueueWithRetention, visits_containsKey, OrdMap.get_eq_none.mpr unregistered] at inside
  let registered := s.commit [.insert metaQueuesTree name.utf8 []]
  let declared := registered.commit [.insert metaRetentionTree name.utf8 (bc.policy.encode policy)]
  have passed : t ∈ s :: s :: (List.replicate 6 registered ++ [declared]) := inside
  have none_written : s.db.log = s.db.log ++ (declareWrites bc name policy).take 0 :=
    (List.append_nil _).symm
  rcases List.mem_cons.mp passed with rfl | passed
  · exact ⟨0, none_written⟩
  rcases List.mem_cons.mp passed with rfl | passed
  · exact ⟨0, none_written⟩
  rcases List.mem_append.mp passed with between | last
  · rw [List.eq_of_mem_replicate between]
    exact ⟨1, rfl⟩
  · rw [List.mem_singleton.mp last]
    exact ⟨2, List.append_assoc ..⟩

theorem uses_iff (registered : name.utf8 ∈ (qm.db.trees metaQueuesTree).keys) :
    Uses bc qm name policy ↔ policyRead bc qm.db name = policy := by
  obtain ⟨value, found⟩ := OrdMap.mem_keys.mp registered
  have reads (ids : Nat → UInt64) (clock : Nat → Int64) {α : Type}
      (rest : RetentionPolicy → Action α) :
      (do requireQueue name
          rest (← policyOf bc name)).run (handle ids) ⟨qm, clock⟩ =
        (rest (policyRead bc qm.db name)).run (handle ids) ⟨qm, clock⟩ := by
    rw [run_requireQueue_found ids ⟨qm, clock⟩ _ (congrArg Option.isSome found), Program.run_bind,
      policyOf_run]
    rfl
  constructor
  · intro uses
    have same := (reads (fun _ => 0) (fun _ => 0) .ret).symm.trans (uses _ _ _ .ret)
    injection same with outcome
    exact Outcome.ok.inj outcome
  · intro same ids clock α rest
    rw [reads, same]

/-- What the metadata say when some of the writes are kept. -/
theorem declared_kept {before after : Sled.Db} {i : Nat}
    (unregistered : name.utf8 ∉ (before.trees metaQueuesTree).keys)
    (log : after.log = before.log ++ (declareWrites bc name policy).take i) :
    (name.utf8 ∈ (after.trees metaQueuesTree).keys ↔ 0 < i) ∧
      policyRead bc after name = if 1 < i then policy else policyRead bc before name := by
  have apart : metaRetentionTree ≠ metaQueuesTree := by decide
  let first : Sled.Write := .insert metaQueuesTree name.utf8 []
  let second : Sled.Write := .insert metaRetentionTree name.utf8 (bc.policy.encode policy)
  have trees := trees_of_log log
  have registered : (Sled.applyWrite before.trees first metaQueuesTree).get name.utf8 = some [] :=
    get_written ..
  match i with
  | 0 =>
      have same : after.trees = before.trees := trees
      refine ⟨iff_of_false (same ▸ unregistered) (Nat.lt_irrefl 0), ?_⟩
      rw [policyRead, same]
      rfl
  | 1 =>
      have one : after.trees = Sled.applyWrite before.trees first := trees
      have policies : Sled.applyWrite before.trees first metaRetentionTree =
          before.trees metaRetentionTree := Sled.applyWrite_other _ apart
      refine ⟨iff_of_true (OrdMap.mem_keys.mpr ⟨[], one ▸ registered⟩) Nat.one_pos, ?_⟩
      rw [policyRead, one, policies]
      rfl
  | i + 2 =>
      rw [List.take_of_length_le (Nat.le_add_left 2 i)] at trees
      have two : after.trees = Sled.applyWrite (Sled.applyWrite before.trees first) second := trees
      have queues : Sled.applyWrite (Sled.applyWrite before.trees first) second metaQueuesTree =
          Sled.applyWrite before.trees first metaQueuesTree := Sled.applyWrite_other _ apart.symm
      have record : (Sled.applyWrite (Sled.applyWrite before.trees first) second
          metaRetentionTree).get name.utf8 = some (bc.policy.encode policy) := get_written ..
      refine ⟨iff_of_true (OrdMap.mem_keys.mpr ⟨[], ?_⟩) (Nat.succ_pos _), ?_⟩
      · rw [two, queues, registered]
      · rw [policyRead, two, record, Option.bind_some, bc.policy.decode_encode,
          if_pos (by omega)]
        rfl

/-- On a name that is free a declaration succeeds. -/
theorem declare_free (unregistered : name.utf8 ∉ (qm.db.trees metaQueuesTree).keys)
    (ids : Nat → UInt64) (clock : Nat → Int64) :
    (exec ids clock (declareQueueWithRetention bc name policy) qm).1 = .ok () ∧
      Uses bc (exec ids clock (declareQueueWithRetention bc name policy) qm).2 name policy := by
  have run : (declareQueueWithRetention bc name policy).run (handle ids) ⟨qm, clock⟩ =
      (.ok (), ((Machine.mk qm clock).commit [.insert metaQueuesTree name.utf8 []]).commit
        [.insert metaRetentionTree name.utf8 (bc.policy.encode policy)]) := by
    rw [declareQueueWithRetention, run_containsKey,
      show ((Machine.mk qm clock).db.trees metaQueuesTree).get name.utf8 = none from
        OrdMap.get_eq_none.mpr unregistered]
    rfl
  have log : ((qm.db.commit [.insert metaQueuesTree name.utf8 []]).commit
      [.insert metaRetentionTree name.utf8 (bc.policy.encode policy)]).log =
        qm.db.log ++ (declareWrites bc name policy).take 2 := List.append_assoc ..
  obtain ⟨registered, read⟩ := declared_kept unregistered log
  rw [exec, run]
  exact ⟨rfl, (uses_iff (registered.mpr (by decide))).mpr read⟩

theorem declaredWhole_iff : DeclaredWhole bc name policy qm ↔
    (name.utf8 ∈ (qm.db.trees metaQueuesTree).keys → policyRead bc qm.db name = policy) := by
  by_cases registered : name.utf8 ∈ (qm.db.trees metaQueuesTree).keys
  · rw [DeclaredWhole, uses_iff registered]
    exact ⟨fun whole _ => whole.elim (fun absent => absurd registered absent.1) And.right,
      fun read => .inr ⟨registered, read registered⟩⟩
  · exact iff_of_true (.inl ⟨registered, declare_free registered⟩) fun there => absurd there registered

/-- A declaration is all or nothing exactly when not just one of its two writes is kept, or when
    the policy it finds without the second is the one that was asked for. -/
theorem declare_atomic_iff (bc : Bincode) (ids : Nat → UInt64) (clock : Nat → Int64)
    (qm : QueueManager) (name : String) (policy : RetentionPolicy)
    (inside : t ∈ (declareQueueWithRetention bc name policy).visits (handle ids) ⟨qm, clock⟩)
    {n : Nat} (kept : qm.db.log.length ≤ n) {qm' : QueueManager}
    (left : qm'.db.log = t.db.log.take n) :
    DeclaredWhole bc name policy qm' ↔
      policyRead bc qm.db name = policy ∨
        (name.utf8 ∉ (qm.db.trees metaQueuesTree).keys ∧
          qm'.db.log.length ≠ qm.db.log.length + 1) := by
  rw [declaredWhole_iff]
  by_cases registered : name.utf8 ∈ (qm.db.trees metaQueuesTree).keys
  · -- the name was taken: nothing is written
    have unchanged : t.db.log = qm.db.log := by
      rw [declare_registered (s := ⟨qm, clock⟩) registered] at inside
      simp only [List.mem_cons, List.not_mem_nil, or_false, or_self] at inside
      rw [inside]
      rfl
    rw [unchanged, List.take_of_length_le kept] at left
    have trees : qm'.db.trees = qm.db.trees := trees_of_log (left.trans (List.append_nil _).symm)
    rw [policyRead, trees, ← policyRead]
    simp only [registered, true_imp_iff, not_true_eq_false, false_and, or_false]
  · obtain ⟨j, made⟩ := declare_visits (s := ⟨qm, clock⟩) registered inside
    obtain ⟨i, log⟩ := kept_writes qm.db made kept left
    obtain ⟨present, read⟩ := declared_kept registered log
    have size : qm'.db.log.length = qm.db.log.length + min i 2 := by
      rw [log, List.length_append, List.length_take]
      rfl
    rw [present, read, size]
    simp only [registered, not_false_eq_true, true_and]
    match i with
    | 0 => simp
    | 1 => simp
    | i + 2 => simp

end Declare

/-- A policy that is not the default. -/
def threeAttempts : RetentionPolicy := { maxDeliveryAttempts := some 3 }

def emptyManager : QueueManager := started bincode (counter 0) none

/-- The store after the first `written` writes of a declaration. -/
def declaredUpTo (written : Nat) : QueueManager :=
  ⟨((declareQueueWithRetention bincode "q" threeAttempts).run (handle (counter 0))
    ⟨emptyManager, fun _ => 0⟩).2.db.keep (emptyManager.db.log.length + written), 0, none⟩

theorem declaredUpTo_two : DeclaredWhole bincode "q" threeAttempts (declaredUpTo 2) := by
  refine (declare_atomic_iff bincode (counter 0) (fun _ => 0) emptyManager "q" threeAttempts
    (Program.run_mem_visits _ _ _) (Nat.le_add_right _ 2) rfl).mpr (.inr ?_)
  decide +kernel

/-- A crash between the two writes leaves a queue that never gives up on a message, and that
    cannot be declared again. -/
theorem declaredUpTo_one :
    "q".utf8 ∈ ((declaredUpTo 1).db.trees metaQueuesTree).keys ∧
      (exec (counter 0) (fun _ => 0) (policyOf bincode "q") (declaredUpTo 1)).1 = .ok {} ∧
      (exec (counter 0) (fun _ => 0) (declareQueueWithRetention bincode "q" threeAttempts)
        (declaredUpTo 1)).1 = .err (.queueAlreadyExists "q") ∧
      ¬ DeclaredWhole bincode "q" threeAttempts (declaredUpTo 1) := by
  refine ⟨by decide +kernel, by decide +kernel, by decide +kernel, ?_⟩
  rw [declaredWhole_iff]
  decide +kernel

end PelicanQ
