import PelicanQ.Core.QueueManager

/-! # Executing a method call by call

The state a method runs in, with one lemma for each call it can make: what the
call answers and what it leaves.  With these as the only rules a method is
executed symbolically, from its first call to its last.
-/

namespace PelicanQ

open Sled (Batch)

namespace Machine

def db (s : Machine) : Sled.Db := s.manager.db

def commit (s : Machine) (batch : Batch) : Machine :=
  { s with manager := { s.manager with db := s.manager.db.commit batch } }

def draw (s : Machine) : Machine := { s with manager := { s.manager with db := s.manager.db.draw } }

def tick (s : Machine) : Machine := { s with clock := later s.clock }

def setBytes (s : Machine) (bytes : UInt64) : Machine :=
  { s with manager := { s.manager with currentBytes := bytes } }

def withClock (s : Machine) (clock : Nat → Int64) : Machine := { s with clock := clock }

section Fields

variable (s : Machine) (batch : Batch) (bytes : UInt64) (clock : Nat → Int64)

@[simp] theorem db_withClock : (s.withClock clock).db = s.db := rfl
@[simp] theorem clock_withClock : (s.withClock clock).clock = clock := rfl
@[simp] theorem manager_withClock : (s.withClock clock).manager = s.manager := rfl

@[simp] theorem db_commit : (s.commit batch).db = s.db.commit batch := rfl
@[simp] theorem clock_commit : (s.commit batch).clock = s.clock := rfl
@[simp] theorem db_draw : s.draw.db = s.db.draw := rfl
@[simp] theorem clock_draw : s.draw.clock = s.clock := rfl
@[simp] theorem db_tick : s.tick.db = s.db := rfl
@[simp] theorem clock_tick : s.tick.clock = later s.clock := rfl
@[simp] theorem manager_tick : s.tick.manager = s.manager := rfl
@[simp] theorem db_setBytes : (s.setBytes bytes).db = s.db := rfl
@[simp] theorem clock_setBytes : (s.setBytes bytes).clock = s.clock := rfl

end Fields

end Machine

/-! ## One call at a time -/

section Calls

variable (ids : Nat → UInt64) (s : Machine) {α : Type}

@[simp] theorem run_openTree (tree : String) (next : Unit → Action α) :
    (openTree tree >>= next).run (handle ids) s = (next ()).run (handle ids) s := rfl

@[simp] theorem run_containsKey (tree : String) (key : Bytes) (next : Bool → Action α) :
    (containsKey tree key >>= next).run (handle ids) s =
      (next ((s.db.trees tree).get key).isSome).run (handle ids) s := rfl

@[simp] theorem run_get (tree : String) (key : Bytes) (next : Option Bytes → Action α) :
    (get tree key >>= next).run (handle ids) s =
      (next ((s.db.trees tree).get key)).run (handle ids) s := rfl

@[simp] theorem run_insert (tree : String) (key value : Bytes) (next : Unit → Action α) :
    (insert tree key value >>= next).run (handle ids) s =
      (next ()).run (handle ids) (s.commit [.insert tree key value]) := rfl

@[simp] theorem run_insert_last (tree : String) (key value : Bytes) :
    (insert tree key value).run (handle ids) s =
      (.ok (), s.commit [.insert tree key value]) := rfl

@[simp] theorem run_iter (tree : String) (next : List (Bytes × Bytes) → Action α) :
    (iter tree >>= next).run (handle ids) s =
      (next (s.db.trees tree).entries).run (handle ids) s := rfl

@[simp] theorem run_generateId (next : UInt64 → Action α) :
    (generateId >>= next).run (handle ids) s =
      (next (ids s.db.drawn)).run (handle ids) s.draw := rfl

@[simp] theorem run_nowMs (next : Int64 → Action α) :
    (nowMs >>= next).run (handle ids) s = (next (s.clock 0)).run (handle ids) s.tick := rfl

@[simp] theorem run_currentBytes (next : UInt64 → Action α) :
    (Program.ask .currentBytes >>= next).run (handle ids) s =
      (next s.manager.currentBytes).run (handle ids) s := rfl

@[simp] theorem run_maxBytes (next : Option UInt64 → Action α) :
    (Program.ask .maxBytes >>= next).run (handle ids) s =
      (next s.manager.maxBytes).run (handle ids) s := rfl

@[simp] theorem run_setCurrentBytes (bytes : UInt64) (next : Unit → Action α) :
    (Program.ask (.setCurrentBytes bytes) >>= next).run (handle ids) s =
      (next ()).run (handle ids) (s.setBytes bytes) := rfl

@[simp] theorem run_setCurrentBytes_last (bytes : UInt64) :
    (Program.ask (.setCurrentBytes bytes) : Action Unit).run (handle ids) s =
      (.ok (), s.setBytes bytes) := rfl

/-- Removing a key that is there is one write. -/
theorem run_remove_present {tree : String} {key value : Bytes} (next : Option Bytes → Action α)
    (present : (s.db.trees tree).get key = some value) :
    (remove tree key >>= next).run (handle ids) s =
      (next (some value)).run (handle ids) (s.commit [.remove tree key]) := by
  change (next ((s.db.trees tree).get key)).run (handle ids)
    { s with manager := { s.manager with db := s.db.remove tree key } } = _
  rw [present, Sled.Db.remove_present present]
  rfl

theorem run_remove_absent {tree : String} {key : Bytes} (next : Option Bytes → Action α)
    (absent : (s.db.trees tree).get key = none) :
    (remove tree key >>= next).run (handle ids) s = (next none).run (handle ids) s := by
  change (next ((s.db.trees tree).get key)).run (handle ids)
    { s with manager := { s.manager with db := s.db.remove tree key } } = _
  rw [absent, Sled.Db.remove_absent absent]
  rfl

/-- A transaction that commits is one batch. -/
theorem run_transaction_commit {β : Type} {body : Sled.Tx β} {value : β} {batch : Batch}
    (next : Option β → Action α) (committed : body.run s.db.trees [] = some (value, batch)) :
    (transaction body >>= next).run (handle ids) s =
      (next (some value)).run (handle ids) (s.commit batch) := by
  have call : handle ids _ (.sled (.transaction body)) s = (some value, s.commit batch) := by
    change (_, _) = _
    simp only [show body.run s.manager.db.trees [] = _ from committed]
    rfl
  rw [transaction, Program.run_ask_bind, call]

/-- A transaction that aborts changes nothing. -/
theorem run_transaction_abort {β : Type} {body : Sled.Tx β} (next : Option β → Action α)
    (aborted : body.run s.db.trees [] = none) :
    (transaction body >>= next).run (handle ids) s = (next none).run (handle ids) s := by
  have call : handle ids _ (.sled (.transaction body)) s = (none, s) := by
    change (_, _) = _
    simp only [show body.run s.manager.db.trees [] = _ from aborted]
  rw [transaction, Program.run_ask_bind, call]

/-- A method never gives ids back. -/
theorem drawn_le_visits {p : Action α} {t : Machine} (inside : t ∈ p.visits (handle ids) s) :
    s.db.drawn ≤ t.db.drawn := by
  refine p.visits_keep (fun t : Machine => s.db.drawn ≤ t.db.drawn) ?_ (Nat.le_refl _) inside
  intro γ c t le
  cases c with
  | sled c => exact le.trans (Sled.drawn_le_handle ids c t.db)
  | nowMs | currentBytes | setCurrentBytes | maxBytes => exact le

theorem drawn_le_run (p : Action α) : s.db.drawn ≤ (p.run (handle ids) s).2.db.drawn :=
  drawn_le_visits ids s (Program.run_mem_visits _ p s)

theorem slice_of_le {bytes : Bytes} {start stop : Nat} (fits : stop ≤ bytes.length) :
    slice bytes start stop = .ret ((bytes.take stop).drop start) := if_pos fits

/-! ## The steps the methods share -/

open QueueManager

/-- Does the manager know the queue? -/
def QueueManager.registered (qm : QueueManager) (q : String) : Bool :=
  ((qm.db.trees metaQueuesTree).get q.utf8).isSome

/-- Is there room for this many more bytes? -/
def QueueManager.hasRoom (qm : QueueManager) (size : UInt64) : Bool :=
  match qm.maxBytes with
  | none => true
  | some max => !decide (max < qm.currentBytes + size)

theorem run_requireQueue_found {name : String} (next : Unit → Action α)
    (registered : ((s.db.trees metaQueuesTree).get name.utf8).isSome = true) :
    (requireQueue name >>= next).run (handle ids) s = (next ()).run (handle ids) s := by
  rw [requireQueue, Program.run_bind, run_containsKey, registered]
  rfl

/-- The queues on record. -/
def listedQueues (db : Sled.Db) : List String :=
  (db.trees metaQueuesTree).entries.filterMap fun e => String.ofUtf8 e.1

/-- The policy that operations on a queue read. -/
def policyRead (bc : Bincode) (db : Sled.Db) (name : String) : RetentionPolicy :=
  (((db.trees metaRetentionTree).get name.utf8).bind fun b => (bc.policy.decode b).toOption).getD
    default

theorem policyOf_run (bc : Bincode) (name : String) :
    (policyOf bc name).run (handle ids) s = (.ok (policyRead bc s.db name), s) := rfl

theorem run_policyOf_read (bc : Bincode) (name : String) (next : RetentionPolicy → Action α) :
    (policyOf bc name >>= next).run (handle ids) s =
      (next (policyRead bc s.db name)).run (handle ids) s := rfl

theorem run_policyOf_record {bc : Bincode} {name : String} {policy : RetentionPolicy}
    (next : RetentionPolicy → Action α)
    (record : (s.db.trees metaRetentionTree).get name.utf8 = some (bc.policy.encode policy)) :
    (policyOf bc name >>= next).run (handle ids) s = (next policy).run (handle ids) s := by
  rw [policyOf, Program.run_bind, run_get, record]
  simp only [Option.bind_some, bc.policy.decode_encode]
  rfl

theorem run_checkLimit_unlimited (size : UInt64) (next : Unit → Action α)
    (unlimited : s.manager.maxBytes = none) :
    (checkLimit size >>= next).run (handle ids) s = (next ()).run (handle ids) s := by
  rw [checkLimit, Program.run_bind, run_maxBytes, unlimited]
  rfl

theorem run_checkLimit_room {size : UInt64} (next : Unit → Action α)
    (room : s.manager.hasRoom size = true) :
    (checkLimit size >>= next).run (handle ids) s = (next ()).run (handle ids) s := by
  rw [checkLimit, Program.run_bind, run_maxBytes]
  rw [QueueManager.hasRoom] at room
  cases limit : s.manager.maxBytes with
  | none => rfl
  | some max =>
      rw [limit] at room
      have fits : ¬max < s.manager.currentBytes + size := by simpa using room
      simp only [run_currentBytes, if_neg fits]
      rfl

theorem run_checkLimit_full {size : UInt64} (next : Unit → Action α)
    (full : s.manager.hasRoom size = false) :
    ∃ usedPct limitPct, (checkLimit size >>= next).run (handle ids) s =
      (.err (.storageLimitExceeded usedPct limitPct), s) := by
  rw [checkLimit, Program.run_bind, run_maxBytes]
  rw [QueueManager.hasRoom] at full
  cases limit : s.manager.maxBytes with
  | none =>
      rw [limit] at full
      cases full
  | some max =>
      rw [limit] at full
      have exceeds : max < s.manager.currentBytes + size := by simpa using full
      simp only [run_currentBytes, if_pos exceeds]
      exact ⟨_, _, rfl⟩

/-- Keys that are removed one by one are erased, in the tree they are removed from. -/
theorem run_removeAll (tree : String) (keys : List Bytes) (next : Unit → Action α) :
    ∃ s' : Machine, s'.db.trees tree = keys.foldl OrdMap.erase (s.db.trees tree) ∧
      (removeAll tree keys >>= next).run (handle ids) s = (next ()).run (handle ids) s' := by
  induction keys generalizing s with
  | nil => exact ⟨s, rfl, rfl⟩
  | cons key keys ih =>
      rw [removeAll, Program.bind_assoc]
      cases found : (s.db.trees tree).get key with
      | none =>
          obtain ⟨s', left, run⟩ := ih s
          rw [List.foldl_cons, OrdMap.erase_absent found]
          exact ⟨s', left, (run_remove_absent ids s _ found).trans run⟩
      | some value =>
          obtain ⟨s', left, run⟩ := ih (s.commit [.remove tree key])
          refine ⟨s', left.trans ?_, (run_remove_present ids s _ found).trans run⟩
          exact congrArg (keys.foldl OrdMap.erase)
            (Sled.applyWrite_same s.db.trees (.remove tree key))

theorem run_addBytes (size : UInt64) (next : Unit → Action α) :
    (addBytes size >>= next).run (handle ids) s =
      (next ()).run (handle ids) (s.setBytes (s.manager.currentBytes + size)) := rfl

theorem deserialize_encode {bc : Bincode} (m : Message) :
    deserialize bc (bc.message.encode m) = .ret m := by
  rw [deserialize, bc.message.decode_encode]
  rfl

end Calls

/-! ## The states in between -/

section Visits

variable (ids : Nat → UInt64) (s : Machine) {α : Type}

theorem visits_openTree (tree : String) (next : Unit → Action α) :
    (openTree tree >>= next).visits (handle ids) s = s :: (next ()).visits (handle ids) s := rfl

theorem visits_containsKey (tree : String) (key : Bytes) (next : Bool → Action α) :
    (containsKey tree key >>= next).visits (handle ids) s =
      s :: (next ((s.db.trees tree).get key).isSome).visits (handle ids) s := rfl

theorem visits_get (tree : String) (key : Bytes) (next : Option Bytes → Action α) :
    (get tree key >>= next).visits (handle ids) s =
      s :: (next ((s.db.trees tree).get key)).visits (handle ids) s := rfl

theorem visits_maxBytes (next : Option UInt64 → Action α) :
    ((.ask .maxBytes : Action _) >>= next).visits (handle ids) s =
      s :: (next s.manager.maxBytes).visits (handle ids) s := rfl

theorem visits_currentBytes (next : UInt64 → Action α) :
    ((.ask .currentBytes : Action _) >>= next).visits (handle ids) s =
      s :: (next s.manager.currentBytes).visits (handle ids) s := rfl

theorem visits_insert (tree : String) (key value : Bytes) (next : Unit → Action α) :
    (insert tree key value >>= next).visits (handle ids) s =
      s :: (next ()).visits (handle ids) (s.commit [.insert tree key value]) := rfl

theorem visits_iter (tree : String) (next : List (Bytes × Bytes) → Action α) :
    (iter tree >>= next).visits (handle ids) s =
      s :: (next (s.db.trees tree).entries).visits (handle ids) s := rfl

theorem visits_generateId (next : UInt64 → Action α) :
    (generateId >>= next).visits (handle ids) s =
      s :: (next (ids s.db.drawn)).visits (handle ids) s.draw := rfl

theorem visits_remove {tree : String} {key value : Bytes} (next : Option Bytes → Action α)
    (present : (s.db.trees tree).get key = some value) :
    (remove tree key >>= next).visits (handle ids) s =
      s :: (next (some value)).visits (handle ids) (s.commit [.remove tree key]) := by
  change s :: (next ((s.db.trees tree).get key)).visits (handle ids)
    { s with manager := { s.manager with db := s.db.remove tree key } } = _
  rw [present, Sled.Db.remove_present present]
  rfl

end Visits

end PelicanQ
