import PelicanQ.Daemon.Grpc
import PelicanQ.Guarantees.Faults

/-! # Batches

A batch is published message by message, and the first message that is refused
ends it.  What was stored before stays stored, so a batch that reports an error
has left everything as it was only when nothing but duplicates came before the
message that was refused.
-/

namespace PelicanQ

open QueueManager

/-! ## One message -/

/-- Are this many more bytes within the limit? -/
def QueueManager.Fits (qm : QueueManager) (bytes : Nat) : Prop :=
  ∀ max, qm.maxBytes = some max → qm.currentBytes.toNat + bytes ≤ max.toNat

theorem QueueManager.Fits.mono {qm : QueueManager} {some all : Nat} (fits : qm.Fits all)
    (le : some ≤ all) : qm.Fits some :=
  fun max limit => (Nat.add_le_add_left le _).trans (fits max limit)

theorem QueueManager.Fits.hasRoom {qm : QueueManager} {size : UInt64} (fits : qm.Fits size.toNat) :
    qm.hasRoom size = true := by
  rw [QueueManager.hasRoom]
  cases limit : qm.maxBytes with
  | none => rfl
  | some max =>
      have within := fits max limit
      have total : (qm.currentBytes + size).toNat ≤ max.toNat :=
        (UInt64.toNat_add _ _ ▸ Nat.mod_le _ _).trans within
      simpa [UInt64.lt_iff_toNat_lt] using total

theorem QueueManager.hasRoom_iff {qm : QueueManager} {bytes : Nat}
    (small : qm.currentBytes.toNat + bytes < 2 ^ 64) :
    qm.hasRoom (UInt64.ofNat bytes) = true ↔ qm.Fits bytes := by
  have size : (UInt64.ofNat bytes).toNat = bytes :=
    UInt64.toNat_ofNat_of_lt' ((Nat.le_add_left ..).trans_lt small)
  have total : (qm.currentBytes + UInt64.ofNat bytes).toNat = qm.currentBytes.toNat + bytes := by
    rw [UInt64.toNat_add, size, Nat.mod_eq_of_lt small]
  rw [QueueManager.hasRoom, QueueManager.Fits]
  cases qm.maxBytes with
  | none => simp
  | some max => simp [UInt64.lt_iff_toNat_lt, total]

/-- The records of a queue after a message was stored, and the readings that are left. -/
def recordedAfter (policy : RetentionPolicy) (recorded : String → Option Int64) (m : Message)
    (clock : Nat → Int64) : (String → Option Int64) × (Nat → Int64) :=
  match policy.dedupWindowSecs, m.dedupKey with
  | some _, some key => (Function.update recorded key (some (clock 0)), later clock)
  | _, _ => (recorded, clock)

/-- A queue that is there, with this policy and these records. -/
structure Offers (bc : Bincode) (q : String) (policy : RetentionPolicy)
    (recorded : String → Option Int64) (s : Machine) : Prop where
  known : s.manager.registered q = true
  policy : policyRead bc s.db q = policy
  recorded : recordedIn s.db q = recorded
  timed : TimedRecords s.db q

section Publish

variable {bc : Bincode} {q : String} {s : Machine}
  {policy : RetentionPolicy} {recorded : String → Option Int64}

/-- What a queue offers is in its trees. -/
theorem Offers.congr (offers : Offers bc q policy recorded s) {t : Machine}
    (same : t.db.trees = s.db.trees) : Offers bc q policy recorded t := by
  obtain ⟨known, policy_eq, recorded_eq, timed⟩ := offers
  rw [QueueManager.registered, ← Machine.db] at known
  refine ⟨?_, ?_, ?_, ?_⟩
  · rwa [QueueManager.registered, ← Machine.db, same]
  · rwa [policyRead, same]
  · rw [← recorded_eq]
    funext key
    rw [recordedIn, same]
    rfl
  · rwa [TimedRecords, same]

/-- A message in one of its stores changes nothing about what the queue offers. -/
theorem Offers.store (offers : Offers bc q policy recorded s) {tree : String}
    (listed : tree ∈ [q, scheduledTreeName q]) {place : Bytes} (value : Bytes)
    (elsewhere : tree = metaRetentionTree → place ≠ q.utf8) :
    Offers bc q policy recorded (s.commit [.insert tree place value]) := by
  obtain ⟨known, policy_eq, recorded_eq, timed⟩ := offers
  have dedup : (s.commit [.insert tree place value]).db.trees (dedupTreeName q) =
      s.db.trees (dedupTreeName q) :=
    Sled.applyWrite_other s.db.trees (w := .insert tree place value) (dedup_apart listed)
  have found (registry : String) : (s.commit [.insert tree place value]).db.trees registry =
      if registry = tree then (s.db.trees registry).insert place value else s.db.trees registry := by
    split_ifs with same
    · subst same
      exact Sled.applyWrite_same s.db.trees (.insert registry place value)
    · exact Sled.applyWrite_other s.db.trees (w := .insert tree place value) same
  refine ⟨?_, ?_, ?_, ?_⟩
  · change (((s.commit [.insert tree place value]).db.trees metaQueuesTree).get q.utf8).isSome = true
    rw [found]
    split_ifs
    · rw [OrdMap.get_insert]
      split_ifs
      · rfl
      · exact known
    · exact known
  · rw [policyRead, found] at *
    split_ifs with same
    · rwa [OrdMap.get_insert, if_neg (elsewhere same.symm).symm]
    · exact policy_eq
  · rw [← recorded_eq]
    funext key
    rw [recordedIn, dedup]
    rfl
  · rwa [TimedRecords, dedup]

/-- A record is found under its key. -/
theorem Offers.record (offers : Offers bc q policy recorded s) (key : String) (time : Int64) :
    Offers bc q policy (Function.update recorded key (some time))
      (s.commit [.insert (dedupTreeName q) key.utf8 time.toBeBytes]) := by
  obtain ⟨known, policy_eq, rfl, timed⟩ := offers
  have written : (s.commit [.insert (dedupTreeName q) key.utf8 time.toBeBytes]).db.trees
      (dedupTreeName q) = (s.db.trees (dedupTreeName q)).insert key.utf8 time.toBeBytes :=
    Sled.applyWrite_same s.db.trees (.insert (dedupTreeName q) key.utf8 time.toBeBytes)
  have registries := Role.treeName_ne_meta (a := q) (show Role.dedup ≠ .ready by decide)
  have other {registry : String} (apart : registry ≠ dedupTreeName q) :
      (s.commit [.insert (dedupTreeName q) key.utf8 time.toBeBytes]).db.trees registry =
        s.db.trees registry :=
    Sled.applyWrite_other s.db.trees
      (w := .insert (dedupTreeName q) key.utf8 time.toBeBytes) apart
  refine ⟨?_, ?_, ?_, ?_⟩
  · rwa [QueueManager.registered, ← Machine.db, other registries.1.symm]
  · rwa [policyRead, other registries.2.symm]
  · funext key'
    rw [recordedIn, written, OrdMap.get_insert, Function.update_apply]
    by_cases same : key' = key
    · subst same
      rw [if_pos rfl, if_pos rfl, Option.map_some,
        List.take_of_length_le (Int64.length_toBeBytes time).le, Int64.fromBeBytes_toBeBytes]
    · rw [if_neg fun bytes => same (String.utf8_injective bytes), if_neg same]
      rfl
  · intro value member
    rw [written] at member
    obtain ⟨⟨place, value⟩, found, rfl⟩ := List.mem_map.mp member
    rcases OrdMap.mem_insert.mp found with ⟨-, rfl⟩ | ⟨old, -⟩
    · exact (Int64.length_toBeBytes time).ge
    · exact timed value (List.mem_map_of_mem old)

/-- How publishing a message to a queue that is there ends, and what it then has done. -/
inductive Published (bc : Bincode) (q : String) (policy : RetentionPolicy)
    (recorded : String → Option Int64) (m : Message) (s : Machine) :
    Outcome PelicanError PublishOutcome × Machine → Prop
  | deduplicated (repeated : (isRepeated policy recorded m s.clock).1 = true) :
      Published bc q policy recorded m s
        (.ok .deduplicated, s.withClock (isRepeated policy recorded m s.clock).2)
  | refused (e : PelicanError) (first : (isRepeated policy recorded m s.clock).1 = false)
      (full : s.manager.hasRoom (UInt64.ofNat (bc.message.encode m).length) = false) :
      Published bc q policy recorded m s
        (.err e, s.withClock (isRepeated policy recorded m s.clock).2)
  | stored (t : Machine) (first : (isRepeated policy recorded m s.clock).1 = false)
      (room : s.manager.hasRoom (UInt64.ofNat (bc.message.encode m).length) = true)
      (bytes : t.manager.currentBytes =
        s.manager.currentBytes + UInt64.ofNat (bc.message.encode m).length)
      (limit : t.manager.maxBytes = s.manager.maxBytes)
      (offers : Offers bc q policy (recordedAfter policy recorded m
        (notYetDue m (isRepeated policy recorded m s.clock).2).2).1 t)
      (clock : t.clock = (recordedAfter policy recorded m
        (notYetDue m (isRepeated policy recorded m s.clock).2).2).2) :
      Published bc q policy recorded m s (.ok (.stored m.id), t)

/-- Once a message is in its store it is counted and its key is recorded. -/
theorem run_stored (ids : Nat → UInt64) (m : Message) (offers : Offers bc q policy recorded s)
    {tree : String} (listed : tree ∈ [q, scheduledTreeName q]) {place : Bytes}
    (elsewhere : tree = metaRetentionTree → place ≠ q.utf8) (size : UInt64) :
    ∃ t, (do
        openTree tree
        insert tree place (bc.message.encode m)
        addBytes size
        recordDedupKey q m policy
        pure (.stored m.id) : Action PublishOutcome).run (handle ids) s = (.ok (.stored m.id), t) ∧
      t.manager.currentBytes = s.manager.currentBytes + size ∧
      t.manager.maxBytes = s.manager.maxBytes ∧
      Offers bc q policy (recordedAfter policy recorded m s.clock).1 t ∧
      t.clock = (recordedAfter policy recorded m s.clock).2 := by
  have kept := offers.store listed (bc.message.encode m) elsewhere
  have counted : Offers bc q policy recorded
      ((s.commit [.insert tree place (bc.message.encode m)]).setBytes
        (s.manager.currentBytes + size)) := kept.congr rfl
  simp only [run_openTree, run_insert, run_addBytes]
  unfold recordDedupKey recordedAfter
  cases policy.dedupWindowSecs with
  | none => exact ⟨_, rfl, rfl, rfl, counted, rfl⟩
  | some windowSecs =>
      cases m.dedupKey with
      | none => exact ⟨_, rfl, rfl, rfl, counted, rfl⟩
      | some key => exact ⟨_, rfl, rfl, rfl, (counted.record key (s.clock 0)).congr rfl, rfl⟩

theorem published (ids : Nat → UInt64) (offers : Offers bc q policy recorded s) (m : Message) :
    Published bc q policy recorded m s ((publish bc q m).run (handle ids) s) := by
  rw [publish, run_requireQueue_found ids s _ offers.known, run_policyOf_read, offers.policy,
    run_isDuplicate_read ids (offers.timed.record m), offers.recorded]
  cases check : (isRepeated policy recorded m s.clock).1 with
  | true =>
      rw [if_pos rfl]
      exact .deduplicated check
  | false =>
      rw [if_neg Bool.false_ne_true]
      cases room : s.manager.hasRoom (UInt64.ofNat (bc.message.encode m).length) with
      | false =>
          obtain ⟨usedPct, limitPct, ran⟩ := run_checkLimit_full ids
            (s.withClock (isRepeated policy recorded m s.clock).2) _ room
          rw [ran]
          exact .refused _ check room
      | true =>
          rw [run_checkLimit_room ids (s.withClock (isRepeated policy recorded m s.clock).2) _ room,
            run_generateId, run_notYetDue]
          have start : Offers bc q policy recorded
              ((s.withClock (isRepeated policy recorded m s.clock).2).draw.withClock
                (notYetDue m (isRepeated policy recorded m s.clock).2).2) := offers.congr rfl
          have ready (id : UInt64) : q = metaRetentionTree → encodeKey m.priority id ≠ q.utf8 := by
            rintro rfl same
            exact absurd ((ReadyKey.length_bytes (readyKey _ id)).symm.trans (congrArg List.length same))
              (by decide)
          have later (place : Bytes) : scheduledTreeName q = metaRetentionTree → place ≠ q.utf8 :=
            fun same => absurd same
              (Role.treeName_ne_meta (a := q) (show Role.scheduled ≠ .ready by decide)).2
          cases (PelicanQ.notYetDue m ((s.withClock
              (isRepeated policy recorded m s.clock).2).draw).clock).1 with
          | some deliverAt =>
              obtain ⟨t, ran, bytes, limit, after, clock⟩ := run_stored ids m start
                (show scheduledTreeName q ∈ _ by simp) (later _)
                (UInt64.ofNat (bc.message.encode m).length)
              refine Eq.mpr (congrArg _ ran) ?_
              exact .stored t check room bytes limit after clock
          | none =>
              obtain ⟨t, ran, bytes, limit, after, clock⟩ := run_stored ids m start
                List.mem_cons_self (ready _) (UInt64.ofNat (bc.message.encode m).length)
              refine Eq.mpr (congrArg _ ran) ?_
              exact .stored t check room bytes limit after clock

theorem publish_unknown (bc : Bincode) (ids : Nat → UInt64) (m : Message)
    (unknown : s.manager.registered q = false) :
    (publish bc q m).run (handle ids) s = (.err (.queueNotFound q), s) := by
  have absent : ((s.db.trees metaQueuesTree).get q.utf8).isSome = false := unknown
  rw [publish, requireQueue, Program.run_bind, run_containsKey, absent]
  rfl

end Publish

/-! ## All of them in turn -/

section Batch

/-- The messages of a batch that are duplicates neither of the records nor of each other. -/
def nonDuplicates (policy : RetentionPolicy) :
    (String → Option Int64) → (Nat → Int64) → List Message → List Message
  | _, _, [] => []
  | recorded, clock, m :: rest =>
      let check := isRepeated policy recorded m clock
      if check.1 then nonDuplicates policy recorded check.2 rest
      else
        let next := recordedAfter policy recorded m (notYetDue m check.2).2
        m :: nonDuplicates policy next.1 next.2 rest

theorem nonDuplicates_sublist (policy : RetentionPolicy) (recorded : String → Option Int64)
    (clock : Nat → Int64) (messages : List Message) :
    (nonDuplicates policy recorded clock messages).Sublist messages := by
  induction messages generalizing recorded clock with
  | nil => exact .slnil
  | cons m rest ih =>
      rw [nonDuplicates]
      dsimp only
      split_ifs
      · exact (ih _ _).cons m
      · exact (ih _ _).cons_cons m

variable (bc : Bincode) (ids : Nat → UInt64) (q : String)

/-- Publish messages one after the other, up to the first that is not taken. -/
def inTurn : Machine → List Message → Outcome PelicanError (List PublishOutcome) × Machine
  | s, [] => (.ok [], s)
  | s, m :: rest =>
      Outcome.andThen ((publish bc q m).run (handle ids) s) fun outcome s =>
        Outcome.andThen (inTurn s rest) fun outcomes s => (.ok (outcome :: outcomes), s)

/-- The outcomes are those of the messages, one for each, in order. -/
def OneEach : Machine → List Message → List PublishOutcome → Prop
  | _, [], outcomes => outcomes = []
  | s, m :: rest, outcomes => ∃ first later, outcomes = first :: later ∧
      ((publish bc q m).run (handle ids) s).1 = .ok first ∧
        OneEach ((publish bc q m).run (handle ids) s).2 rest later

/-- The size of a batch. -/
def batchBytes (messages : List Message) : Nat :=
  (messages.map fun m => (bc.message.encode m).length).sum

/-- The queue is unknown, or of the messages that are no duplicates the first does not fit, or all
    of them together do. -/
def FirstOrAll (clock : Nat → Int64) (qm : QueueManager) (messages : List Message) : Prop :=
  qm.registered q = true → ∀ m rest,
    nonDuplicates (policyRead bc qm.db q) (recordedIn qm.db q) clock messages = m :: rest →
      ¬ qm.Fits (bc.message.encode m).length ∨ qm.Fits (batchBytes bc (m :: rest))

variable {bc ids q}

theorem batchBytes_cons (m : Message) (rest : List Message) :
    batchBytes bc (m :: rest) = (bc.message.encode m).length + batchBytes bc rest := rfl

theorem batchBytes_le (bc : Bincode) {some all : List Message} (part : some.Sublist all) :
    batchBytes bc some ≤ batchBytes bc all :=
  (part.map _).sum_le_sum fun _ _ => Nat.zero_le _

theorem inTurn_oneEach {s : Machine} {messages : List Message} {outcomes : List PublishOutcome}
    (ran : (inTurn bc ids q s messages).1 = .ok outcomes) : OneEach bc ids q s messages outcomes := by
  induction messages generalizing s outcomes with
  | nil => exact (Outcome.ok.inj ran).symm
  | cons m rest ih =>
      rw [inTurn] at ran
      rw [OneEach]
      cases first : (publish bc q m).run (handle ids) s with
      | mk outcome t =>
          rw [first] at ran
          cases outcome with
          | err | panicked | diverged => cases ran
          | ok outcome =>
              rw [Outcome.andThen_ok] at ran
              cases later : inTurn bc ids q t rest with
              | mk result t' =>
                  rw [later] at ran
                  cases result with
                  | err | panicked | diverged => cases ran
                  | ok outcomes =>
                      exact ⟨outcome, outcomes, (Outcome.ok.inj ran).symm, rfl,
                        ih (congrArg Prod.fst later)⟩

section Known

variable {policy : RetentionPolicy} {recorded : String → Option Int64} {s : Machine}
  {messages : List Message}

/-- What is left of the limit after a message was stored. -/
theorem fits_after {t : Machine} {size : Nat}
    (bytes : t.manager.currentBytes = s.manager.currentBytes + UInt64.ofNat size)
    (limit : t.manager.maxBytes = s.manager.maxBytes) {more : Nat}
    (small : s.manager.currentBytes.toNat + (size + more) < 2 ^ 64) :
    t.manager.currentBytes.toNat + more = s.manager.currentBytes.toNat + (size + more) ∧
      (t.manager.Fits more ↔ s.manager.Fits (size + more)) := by
  have total : t.manager.currentBytes.toNat = s.manager.currentBytes.toNat + size := by
    have fits : size < UInt64.size := lt_of_le_of_lt (by omega) small
    rw [bytes, UInt64.toNat_add, UInt64.toNat_ofNat_of_lt' fits, Nat.mod_eq_of_lt (by omega)]
  refine ⟨by omega, ?_⟩
  rw [QueueManager.Fits, QueueManager.Fits, limit, total, Nat.add_assoc]

/-- Where the new messages fit together, none is refused. -/
theorem inTurn_fits (offers : Offers bc q policy recorded s)
    (small : s.manager.currentBytes.toNat +
      batchBytes bc (nonDuplicates policy recorded s.clock messages) < 2 ^ 64)
    (fits : nonDuplicates policy recorded s.clock messages ≠ [] →
      s.manager.Fits (batchBytes bc (nonDuplicates policy recorded s.clock messages)))
    (e : PelicanError) (t : Machine) : inTurn bc ids q s messages ≠ (.err e, t) := by
  induction messages generalizing s recorded with
  | nil => rintro ⟨⟩
  | cons m rest ih =>
      rw [inTurn]
      rw [nonDuplicates] at small fits
      have step := published ids offers m
      generalize (publish bc q m).run (handle ids) s = r at step ⊢
      cases step with
      | deduplicated repeated =>
          simp only [repeated, if_true] at small fits
          rw [Outcome.andThen_ok, ne_eq, Outcome.andThen_returns_err]
          exact ih (offers.congr rfl) small fits
      | refused e first full =>
          simp only [first, Bool.false_eq_true, if_false, batchBytes_cons] at small fits
          have whole := fits (List.cons_ne_nil _ _)
          have one : s.manager.Fits (bc.message.encode m).length := fun max limit => by
            have := whole max limit
            omega
          rw [(QueueManager.hasRoom_iff (by omega)).mpr one] at full
          cases full
      | stored t' first room bytes limit after clock =>
          simp only [first, Bool.false_eq_true, if_false, batchBytes_cons, ← clock] at small fits
          rw [Outcome.andThen_ok, ne_eq, Outcome.andThen_returns_err]
          obtain ⟨left, same⟩ := fits_after bytes limit small
          exact ih after (left ▸ small) fun _ => same.mpr (fits (List.cons_ne_nil _ _))

/-- Where they do not, one is refused: the first, before anything is done, or a later one. -/
theorem inTurn_exceeds (ids : Nat → UInt64) (nonempty : ∀ m, 0 < (bc.message.encode m).length)
    (offers : Offers bc q policy recorded s) {first : Message} {later : List Message}
    (new : nonDuplicates policy recorded s.clock messages = first :: later)
    (small : s.manager.currentBytes.toNat + batchBytes bc (first :: later) < 2 ^ 64)
    (exceeds : ¬ s.manager.Fits (batchBytes bc (first :: later))) :
    ∃ e t n, inTurn bc ids q s messages = (.err e, t) ∧ n ≤ batchBytes bc (first :: later) ∧
      t.manager.currentBytes = s.manager.currentBytes + UInt64.ofNat n ∧
      (¬ s.manager.Fits (bc.message.encode first).length → s.manager.Intact t.manager) ∧
      (s.manager.Fits (bc.message.encode first).length → 0 < n) := by
  induction messages generalizing s recorded first later with
  | nil => cases new
  | cons m rest ih =>
      rw [inTurn]
      rw [nonDuplicates] at new
      have step := published ids offers m
      generalize (publish bc q m).run (handle ids) s = r at step ⊢
      cases step with
      | deduplicated repeated =>
          simp only [repeated, if_true] at new
          have start : Offers bc q policy recorded
              (s.withClock (isRepeated policy recorded m s.clock).2) := offers.congr rfl
          obtain ⟨e, t, n, ran, le, bytes, intact, grown⟩ := ih start new small exceeds
          refine ⟨e, t, n, ?_, le, bytes, intact, grown⟩
          rw [Outcome.andThen_ok, ran, Outcome.andThen_err]
      | refused e unrepeated full =>
          simp only [unrepeated, Bool.false_eq_true, if_false, List.cons.injEq] at new
          obtain ⟨rfl, -⟩ := new
          rw [batchBytes_cons] at small
          refine ⟨e, _, 0, rfl, Nat.zero_le _, (UInt64.add_zero _).symm, fun _ => .refl _, ?_⟩
          intro fits
          rw [(QueueManager.hasRoom_iff (by omega)).mpr fits] at full
          cases full
      | stored t' unrepeated room bytes limit after clock =>
          simp only [unrepeated, Bool.false_eq_true, if_false, List.cons.injEq, ← clock] at new
          obtain ⟨rfl, new⟩ := new
          rw [batchBytes_cons] at small exceeds ⊢
          obtain ⟨left, same⟩ := fits_after bytes limit small
          have fits : s.manager.Fits (bc.message.encode m).length :=
            (QueueManager.hasRoom_iff (by omega)).mp room
          cases later with
          | nil => exact absurd fits exceeds
          | cons next later =>
              obtain ⟨e, t, n, ran, le, grown, -⟩ :=
                ih after new (left ▸ small) fun fits => exceeds (same.mp fits)
              refine ⟨e, t, (bc.message.encode m).length + n, ?_, Nat.add_le_add_left le _, ?_,
                fun alone => absurd fits alone, fun _ => Nat.add_pos_left (nonempty m) n⟩
              · rw [Outcome.andThen_ok, ran, Outcome.andThen_err]
              · rw [grown, bytes, UInt64.ofNat_add, UInt64.add_assoc]

end Known

/-! ## The two loops -/

theorem run_publishEach (messages : List Message) (outcomes : List PublishOutcome) (s : Machine) :
    (publishEach bc q messages outcomes).run (handle ids) s =
      Outcome.andThen ((inTurn bc ids q s messages).1.caught, (inTurn bc ids q s messages).2)
        fun result s => (.ok (.publishBatch (result.map (outcomes ++ ·))), s) := by
  induction messages generalizing outcomes s with
  | nil =>
      change (Outcome.ok (QueueOperationResponse.publishBatch (.ok outcomes)), s) =
        (.ok (.publishBatch (.ok (outcomes ++ []))), s)
      rw [List.append_nil]
  | cons m rest ih =>
      rw [publishEach, inTurn, Program.run_bind, Program.run_attempt]
      rcases (publish bc q m).run (handle ids) s with ⟨outcome, t⟩
      cases outcome with
      | err | panicked | diverged => rfl
      | ok outcome =>
          simp only [Outcome.caught, Outcome.andThen_ok]
          rw [ih]
          rcases inTurn bc ids q t rest with ⟨result, t'⟩
          cases result with
          | err | panicked | diverged => rfl
          | ok later =>
              simp only [Outcome.caught, Outcome.andThen_ok, Except.map, List.append_assoc,
                List.singleton_append]

theorem run_publishAll (uuid : UuidText) (messages : List Message)
    (results : List Grpc.PublishResponse) (s : Machine) :
    (Grpc.publishAll bc uuid q messages results).run (handle ids) s =
      Outcome.andThen (inTurn bc ids q s messages) fun outcomes s =>
        (.ok (results ++ outcomes.map (Grpc.publishResponse uuid)), s) := by
  induction messages generalizing results s with
  | nil =>
      change (Outcome.ok results, s) = (.ok (results ++ []), s)
      rw [List.append_nil]
  | cons m rest ih =>
      rw [Grpc.publishAll, inTurn, Program.run_bind]
      rcases (publish bc q m).run (handle ids) s with ⟨outcome, t⟩
      cases outcome with
      | err | panicked | diverged => rfl
      | ok outcome =>
          simp only [Outcome.andThen_ok]
          rw [ih]
          rcases inTurn bc ids q t rest with ⟨result, t'⟩
          cases result with
          | err | panicked | diverged => rfl
          | ok later =>
              simp only [Outcome.andThen_ok, List.map_cons, List.append_assoc,
                List.singleton_append]

end Batch

/-! ## All or nothing -/

/-- The stores of a queue that a publish can write to, and the byte count, are as before. -/
structure Unchanged (q : String) (before after : QueueManager) : Prop where
  ready : after.db.trees q = before.db.trees q
  scheduled : after.db.trees (scheduledTreeName q) = before.db.trees (scheduledTreeName q)
  dedup : after.db.trees (dedupTreeName q) = before.db.trees (dedupTreeName q)
  bytes : after.currentBytes = before.currentBytes

theorem QueueManager.Intact.unchanged {before after : QueueManager} (intact : before.Intact after)
    (q : String) : Unchanged q before after := by
  rw [QueueManager.Intact] at intact
  rw [intact]
  exact ⟨rfl, rfl, rfl, rfl⟩

/-- The messages of a request once their ids are settled, from the ids that can be drawn. -/
def withIds (uuid : UuidText) : (Nat → Uuid) → List Grpc.ProtoMessage → List Message
  | _, [] => []
  | uuids, msg :: rest =>
      match uuid.parse msg.id with
      | some id => msg.withId id :: withIds uuid uuids rest
      | none => msg.withId (uuids 0) :: withIds uuid (fun n => uuids (n + 1)) rest

/-- Another world for the handler, and the same for the engine. -/
structure Daemon.World.Apart (w w' : Daemon.World) : Prop where
  machine : w'.machine = w.machine
  consensus : w'.consensus = w.consensus
  memory : w'.memory = w.memory
  poisoned : w'.poisoned = w.poisoned

theorem Daemon.World.Apart.trans {w w' w'' : Daemon.World} (first : w.Apart w')
    (second : w'.Apart w'') : w.Apart w'' :=
  ⟨second.machine.trans first.machine, second.consensus.trans first.consensus,
    second.memory.trans first.memory, second.poisoned.trans first.poisoned⟩

section Whole

variable (bc : Bincode) (uuid : UuidText) (ids : Nat → UInt64) (q : String)

/-- A batch that the state machine applies: an error leaves everything as it was, a
    success reports on each message. -/
def AppliedWhole (clock : Nat → Int64) (qm : QueueManager) (messages : List Message) : Prop :=
  let applied := exec ids clock (applyOperation bc ample (.publishBatch q messages)) qm
  (∀ e, applied.1 = .ok (.publishBatch (.error e)) → Unchanged q qm applied.2) ∧
    ∀ outcomes, applied.1 = .ok (.publishBatch (.ok outcomes)) →
      OneEach bc ids q ⟨qm, clock⟩ messages outcomes

/-- A batch that the gRPC service publishes itself: likewise. -/
def ServedWhole (w : Daemon.World) (protos : List Grpc.ProtoMessage) : Prop :=
  let served := (Grpc.publishBatch bc uuid .solo q protos).run (Daemon.handle ids) w
  (∀ status, served.1 = .err status → Unchanged q w.manager served.2.manager) ∧
    ∀ responses, served.1 = .ok responses → ∃ outcomes,
      OneEach bc ids q w.machine (withIds uuid w.uuids protos) outcomes ∧
        responses = outcomes.map (Grpc.publishResponse uuid)

variable {bc uuid ids q}

/-- A count that grew by less than it can hold is another count. -/
theorem grown_ne {bytes : UInt64} {n : Nat} (positive : 0 < n) (small : n < 2 ^ 64) :
    bytes + UInt64.ofNat n ≠ bytes := by
  intro same
  have zero : UInt64.ofNat n = 0 := add_eq_left.mp same
  have toNat : (UInt64.ofNat n).toNat = n := UInt64.toNat_ofNat_of_lt' small
  rw [zero] at toNat
  exact positive.ne toNat

theorem unchanged_iff (ids : Nat → UInt64) (nonempty : ∀ m, 0 < (bc.message.encode m).length)
    (s : Machine)
    {messages : List Message} (timed : TimedRecords s.db q)
    (small : s.manager.currentBytes.toNat + batchBytes bc messages < 2 ^ 64) :
    (∀ e t, inTurn bc ids q s messages = (.err e, t) → Unchanged q s.manager t.manager) ↔
      FirstOrAll bc q s.clock s.manager messages := by
  cases known : s.manager.registered q with
  | false =>
      refine ⟨fun _ found => ?_, fun _ e t ran => ?_⟩
      · rw [known] at found
        cases found
      · cases messages with
        | nil => cases ran
        | cons m rest =>
            rw [inTurn, publish_unknown bc ids m known] at ran
            cases ran
            exact (QueueManager.Intact.refl _).unchanged q
  | true =>
      have offers : Offers bc q (policyRead bc s.db q) (recordedIn s.db q) s := ⟨known, rfl, rfl, timed⟩
      have bound := batchBytes_le bc
        (nonDuplicates_sublist (policyRead bc s.db q) (recordedIn s.db q) s.clock messages)
      constructor
      · intro unchanged _ m rest new
        rw [← Machine.db] at new
        by_contra neither
        obtain ⟨one, some⟩ := not_or.mp neither
        rw [new] at bound
        obtain ⟨e, t, n, ran, le, bytes, -, grown⟩ :=
          inTurn_exceeds ids nonempty offers new (by omega) some
        exact grown_ne (grown (not_not.mp one)) (by omega)
          (bytes.symm.trans (unchanged e t ran).bytes)
      · intro only e t ran
        cases new : nonDuplicates (policyRead bc s.db q) (recordedIn s.db q) s.clock messages with
        | nil => exact absurd ran (inTurn_fits offers (by omega) (fun some => absurd new some) e t)
        | cons m rest =>
            rw [new] at bound
            by_cases fits : s.manager.Fits (batchBytes bc (m :: rest))
            · refine absurd ran (inTurn_fits offers ?_ (fun _ => ?_) e t)
              · rw [new]
                omega
              · rwa [new]
            · obtain ⟨e', t', n, ran', -, -, intact, -⟩ :=
                inTurn_exceeds ids nonempty offers new (by omega) fits
              cases ran.symm.trans ran'
              exact (intact ((only known m rest new).resolve_right fits)).unchanged q

theorem appliedWhole_iff (nonempty : ∀ m, 0 < (bc.message.encode m).length) (clock : Nat → Int64)
    (qm : QueueManager) {messages : List Message} (timed : TimedRecords qm.db q)
    (small : qm.currentBytes.toNat + batchBytes bc messages < 2 ^ 64) :
    AppliedWhole bc ids q clock qm messages ↔ FirstOrAll bc q clock qm messages := by
  have whole := unchanged_iff ids nonempty ⟨qm, clock⟩ timed small
  rw [← whole]
  have applied : exec ids clock (applyOperation bc ample (.publishBatch q messages)) qm =
      (((publishEach bc q messages []).run (handle ids) ⟨qm, clock⟩).1,
        ((publishEach bc q messages []).run (handle ids) ⟨qm, clock⟩).2.manager) := rfl
  rw [AppliedWhole, applied, run_publishEach]
  obtain ⟨outcome, t, ran⟩ : ∃ outcome t, inTurn bc ids q ⟨qm, clock⟩ messages = (outcome, t) :=
    ⟨_, _, rfl⟩
  rw [ran]
  cases outcome with
  | panicked | diverged => exact ⟨fun _ => nofun, fun _ => ⟨nofun, nofun⟩⟩
  | ok outcomes =>
      refine ⟨fun _ => nofun, fun _ => ⟨nofun, ?_⟩⟩
      rintro outcomes' ⟨rfl⟩
      exact inTurn_oneEach (congrArg Prod.fst ran)
  | err e =>
      constructor
      · rintro ⟨unchanged, -⟩ e' t' ⟨⟩
        exact unchanged e rfl
      · exact fun unchanged => ⟨fun _ _ => unchanged e t rfl, nofun⟩

/-- Settling the id of a message does not touch the manager. -/
theorem run_protoMessageToCore {ε : Type} (uuid : UuidText) (ids : Nat → UInt64)
    (msg : Grpc.ProtoMessage) (w : Daemon.World) :
    ∃ id w', (Grpc.protoMessageToCore uuid msg : Daemon.Task ε _).run (Daemon.handle ids) w =
      (.ok (msg.withId id), w') ∧ w.Apart w' ∧
        ∀ rest, withIds uuid w.uuids (msg :: rest) = msg.withId id :: withIds uuid w'.uuids rest := by
  simp only [Grpc.protoMessageToCore, withIds]
  cases uuid.parse msg.id with
  | some id => exact ⟨id, w, rfl, ⟨rfl, rfl, rfl, rfl⟩, fun _ => rfl⟩
  | none => exact ⟨w.uuids 0, _, rfl, ⟨rfl, rfl, rfl, rfl⟩, fun _ => rfl⟩

theorem run_protoMessagesToCore {ε : Type} (uuid : UuidText) (ids : Nat → UInt64)
    (protos : List Grpc.ProtoMessage) (w : Daemon.World) :
    ∃ w', (Grpc.protoMessagesToCore uuid protos : Daemon.Task ε _).run (Daemon.handle ids) w =
      (.ok (withIds uuid w.uuids protos), w') ∧ w.Apart w' := by
  induction protos generalizing w with
  | nil => exact ⟨w, rfl, rfl, rfl, rfl, rfl⟩
  | cons msg rest ih =>
      obtain ⟨id, w₁, ran, apart, settles⟩ := run_protoMessageToCore (ε := ε) uuid ids msg w
      obtain ⟨w₂, ranRest, apartRest⟩ := ih w₁
      refine ⟨w₂, ?_, apart.trans apartRest⟩
      rw [Grpc.protoMessagesToCore, Program.run_bind, ran, Outcome.andThen_ok, Program.run_bind,
        ranRest, settles]
      rfl

theorem servedWhole_iff (nonempty : ∀ m, 0 < (bc.message.encode m).length) (w : Daemon.World)
    (protos : List Grpc.ProtoMessage) (timed : TimedRecords w.manager.db q)
    (small : w.manager.currentBytes.toNat + batchBytes bc (withIds uuid w.uuids protos) < 2 ^ 64) :
    ServedWhole bc uuid ids q w protos ↔ (w.poisoned = false →
      FirstOrAll bc q w.machine.clock w.manager (withIds uuid w.uuids protos)) := by
  obtain ⟨w₁, ran, machine, -, -, lock⟩ := run_protoMessagesToCore uuid ids protos w
  rw [ServedWhole, Grpc.publishBatch, Program.run_bind, ran, Outcome.andThen_ok, Grpc.answer]
  cases fresh : w.poisoned with
  | true =>
      rw [Daemon.run_core_bind_poisoned _ (lock.trans fresh)]
      refine ⟨fun _ => nofun, fun _ => ⟨?_, ?_⟩⟩ <;> rintro _ ⟨⟩
  | false =>
      have whole := unchanged_iff ids nonempty w.machine timed small
      rw [forall_prop_of_true rfl]
      refine Iff.trans ?_ whole
      rw [Daemon.run_core_bind _ (lock.trans fresh), run_publishAll, machine]
      obtain ⟨outcome, t, batch⟩ : ∃ outcome t,
          inTurn bc ids q w.machine (withIds uuid w.uuids protos) = (outcome, t) := ⟨_, _, rfl⟩
      rw [batch]
      cases outcome with
      | panicked | diverged => exact ⟨fun _ => nofun, fun _ => ⟨nofun, nofun⟩⟩
      | ok outcomes =>
          refine ⟨fun _ => nofun, fun _ => ⟨nofun, ?_⟩⟩
          rintro responses ⟨rfl⟩
          exact ⟨outcomes, inTurn_oneEach (congrArg Prod.fst batch), rfl⟩
      | err e =>
          constructor
          · rintro ⟨unchanged, -⟩ e' t' ⟨⟩
            exact unchanged _ rfl
          · exact fun unchanged => ⟨fun _ _ => unchanged e t rfl, nofun⟩

/-- A batch is all or nothing exactly when, of its messages that are not duplicates, the
    first does not fit or all of them together do. -/
theorem publishBatch_whole_iff (bc : Bincode) (nonempty : ∀ m, 0 < (bc.message.encode m).length)
    (ids : Nat → UInt64) (q : String) :
    (∀ (clock : Nat → Int64) (qm : QueueManager) (messages : List Message),
      TimedRecords qm.db q → qm.currentBytes.toNat + batchBytes bc messages < 2 ^ 64 →
        (AppliedWhole bc ids q clock qm messages ↔ FirstOrAll bc q clock qm messages)) ∧
      ∀ (uuid : UuidText) (w : Daemon.World) (protos : List Grpc.ProtoMessage),
        TimedRecords w.manager.db q →
          w.manager.currentBytes.toNat + batchBytes bc (withIds uuid w.uuids protos) < 2 ^ 64 →
            (ServedWhole bc uuid ids q w protos ↔ (w.poisoned = false →
              FirstOrAll bc q w.machine.clock w.manager (withIds uuid w.uuids protos))) :=
  ⟨fun clock qm _ timed small => appliedWhole_iff nonempty clock qm timed small,
    fun _ w protos timed small => servedWhole_iff nonempty w protos timed small⟩

end Whole

/-! ## Room for one -/

theorem bincode_nonempty (m : Message) : 0 < (bincode.message.encode m).length := by
  change 0 < (uuidWire.write m.id ++ _).length
  rw [List.length_append]
  exact Nat.add_pos_left (by simp [uuidWire]) _

/-- Sixteen characters, one for each byte. -/
def byteUuid : UuidText where
  toText id := String.ofList ((BigEndian.encode 16 id.toNat).map fun byte => Char.ofNat byte.toNat)
  parse text := some (.ofNat 128 (BigEndian.decode (text.toList.map fun c => UInt8.ofNat c.toNat)))
  parse_toText id := by
    have character (byte : UInt8) : UInt8.ofNat (Char.ofNat byte.toNat).toNat = byte := by
      rw [Char.toNat_ofNat, if_pos (.inl (byte.toNat_lt.trans (by decide))), UInt8.ofNat_toNat]
    have small : id.toNat < 256 ^ 16 := id.isLt
    simp only [String.toList_ofList, List.map_map, Function.comp_def, character, List.map_id',
      BigEndian.decode_encode small, BitVec.ofNat_toNat, BitVec.setWidth_eq]

/-- An empty queue with room for one message of 55 bytes. -/
def roomForOne : QueueManager :=
  final bincode (counter 0) (started bincode (counter 0) (some 100))
    [⟨.declareQueueWithRetention "q" default, fun _ => 0⟩]

/-- A daemon that serves a manager, at time 0. -/
def serving (qm : QueueManager) : Daemon.World :=
  ⟨⟨qm, fun _ => 0⟩, fun _ => .applies, fun _ => 0, fun _ => true, [], ample, false⟩

/-- A message of 55 bytes. -/
def plainProto : Grpc.ProtoMessage := ⟨"", [], [], 0, 0, none, none, 0⟩

theorem roomForOne_fits : FirstOrAll bincode "q" (fun _ => 0) roomForOne [probe] := by
  intro _ m rest new
  have probed : nonDuplicates (policyRead bincode roomForOne.db "q")
      (recordedIn roomForOne.db "q") (fun _ => 0) [probe] = [probe] := by decide +kernel
  obtain ⟨rfl, rfl⟩ := List.cons.inj (probed.symm.trans new)
  refine .inr fun max limit => ?_
  obtain rfl : (100 : UInt64) = max := Option.some.inj limit
  decide +kernel

theorem roomForOne_whole :
    AppliedWhole bincode (counter 0) "q" (fun _ => 0) roomForOne [probe] ∧
      ServedWhole bincode byteUuid (counter 0) "q" (serving roomForOne) [plainProto] := by
  obtain ⟨applied, served⟩ := publishBatch_whole_iff bincode bincode_nonempty (counter 0) "q"
  have timed : TimedRecords roomForOne.db "q" := by
    unfold TimedRecords
    decide +kernel
  exact ⟨(applied _ _ [probe] timed (by decide +kernel)).mpr roomForOne_fits,
    (served _ (serving roomForOne) [plainProto] timed (by decide +kernel)).mpr
      fun _ => roomForOne_fits⟩

/-- The second message is refused, and the first is there. -/
theorem roomForOne_split :
    ¬AppliedWhole bincode (counter 0) "q" (fun _ => 0) roomForOne [probe, probe] ∧
      ¬ServedWhole bincode byteUuid (counter 0) "q" (serving roomForOne)
        [plainProto, plainProto] := by
  refine ⟨fun whole => ?_, fun whole => ?_⟩
  · have unchanged := whole.1 (.storageLimitExceeded 55 100) (by decide +kernel)
    exact absurd unchanged.bytes (by decide +kernel)
  · have unchanged := whole.1
      (Grpc.pelicanErrorToStatus (.storageLimitExceeded 55 100)) (by decide +kernel)
    exact absurd unchanged.bytes (by decide +kernel)

end PelicanQ
