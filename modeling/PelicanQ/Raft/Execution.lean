import PelicanQ.Raft.Storage

/-! # Executing the methods of a store

As for the queue manager: one lemma for each call, and one for each method that
only reads or writes the database, so that longer methods are executed by
rewriting.  A method of the state machine runs on its part of the store.
-/

namespace PelicanQ

open Sled (Db)

namespace StoreMachine

def db (s : StoreMachine) : Db := s.store.db

def withDb (s : StoreMachine) (db : Db) : StoreMachine := { s with store := { s.store with db := db } }

/-- The state machine with the clock readings that are left. -/
def machine (s : StoreMachine) : Machine := ⟨s.store.stateMachine, s.clock⟩

def withMachine (s : StoreMachine) (m : Machine) : StoreMachine :=
  ⟨{ s.store with stateMachine := m.manager }, m.clock⟩

def keep (s : StoreMachine) (snapshot : StoredSnapshot) : StoreMachine :=
  { s with store := { s.store with currentSnapshot := some snapshot } }

section Fields

variable (s : StoreMachine) (db db' : Db) (m : Machine) (snapshot : StoredSnapshot)

@[simp] theorem db_withDb : (s.withDb db).db = db := rfl
@[simp] theorem withDb_withDb : (s.withDb db).withDb db' = s.withDb db' := rfl
@[simp] theorem withDb_db : s.withDb s.db = s := rfl
@[simp] theorem store_db_withDb : (s.withDb db).store.db = db := rfl
@[simp] theorem stateMachine_withDb :
    (s.withDb db).store.stateMachine = s.store.stateMachine := rfl
@[simp] theorem machine_withDb : (s.withDb db).machine = s.machine := rfl
@[simp] theorem db_withMachine : (s.withMachine m).db = s.db := rfl
@[simp] theorem machine_withMachine : (s.withMachine m).machine = m := rfl
@[simp] theorem db_keep : (s.keep snapshot).db = s.db := rfl
@[simp] theorem machine_keep : (s.keep snapshot).machine = s.machine := rfl

end Fields

end StoreMachine

/-- What `meta_set` does to the database. -/
def putMeta (db : Db) (key : String) (data : Bytes) : Db :=
  (db.commit [.insert metaTree key.utf8 data]).flush

theorem putMeta_log (db : Db) (key : String) (data : Bytes) :
    (putMeta db key data).trees logTree = db.trees logTree := by
  have other : logTree ≠ (Sled.Write.insert metaTree key.utf8 data).tree :=
    (by decide : logTree ≠ metaTree)
  exact Sled.applyWrite_other db.trees other

theorem putMeta_get (db : Db) (key key' : String) (data : Bytes) :
    ((putMeta db key data).trees metaTree).get key'.utf8 =
      if key' = key then some data else (db.trees metaTree).get key'.utf8 := by
  have tree : (putMeta db key data).trees metaTree = (db.trees metaTree).insert key.utf8 data :=
    Sled.applyWrite_same db.trees (.insert metaTree key.utf8 data)
  rw [tree, OrdMap.get_insert]
  simp only [String.utf8_injective.eq_iff]

namespace RaftStore

section Calls

variable (ids : Nat → UInt64) (s : StoreMachine) {α β : Type}

@[simp] theorem run_insert (tree : String) (key value : Bytes) (next : Unit → StoreAction α) :
    (call (.insert tree key value) >>= next).run (handleStore ids) s =
      (next ()).run (handleStore ids) (s.withDb (s.db.commit [.insert tree key value])) := rfl

@[simp] theorem run_remove (tree : String) (key : Bytes) (next : Option Bytes → StoreAction α) :
    (call (.remove tree key) >>= next).run (handleStore ids) s =
      (next ((s.db.trees tree).get key)).run (handleStore ids)
        (s.withDb (s.db.remove tree key)) := rfl

@[simp] theorem run_flush (next : Unit → StoreAction α) :
    (call .flush >>= next).run (handleStore ids) s =
      (next ()).run (handleStore ids) (s.withDb s.db.flush) := rfl

@[simp] theorem run_flush_last :
    (call .flush).run (handleStore ids) s = (.ok (), s.withDb s.db.flush) := rfl

@[simp] theorem run_get (tree : String) (key : Bytes) (next : Option Bytes → StoreAction α) :
    (call (.get tree key) >>= next).run (handleStore ids) s =
      (next ((s.db.trees tree).get key)).run (handleStore ids) s := rfl

@[simp] theorem run_range (tree : String) (start stop : Bound Bytes)
    (next : List (Bytes × Bytes) → StoreAction α) :
    (call (.range tree start stop) >>= next).run (handleStore ids) s =
      (next ((s.db.trees tree).range start stop)).run (handleStore ids) s := rfl

@[simp] theorem run_last (tree : String) (next : Option (Bytes × Bytes) → StoreAction α) :
    (call (.last tree) >>= next).run (handleStore ids) s =
      (next (s.db.trees tree).last).run (handleStore ids) s := rfl

@[simp] theorem run_setCurrentSnapshot (snapshot : StoredSnapshot) (next : Unit → StoreAction α) :
    (Program.ask (.setCurrentSnapshot snapshot) >>= next).run (handleStore ids) s =
      (next ()).run (handleStore ids) (s.keep snapshot) := rfl

@[simp] theorem run_metaSet (key : String) (data : Bytes) (next : Unit → StoreAction α) :
    (metaSet key data >>= next).run (handleStore ids) s =
      (next ()).run (handleStore ids) (s.withDb (putMeta s.db key data)) := rfl

@[simp] theorem run_metaSet_last (key : String) (data : Bytes) :
    (metaSet key data).run (handleStore ids) s = (.ok (), s.withDb (putMeta s.db key data)) := rfl

/-- A value that was written is read back. -/
theorem run_fromSlice (codec : Codec β) (b : β) (next : β → StoreAction α) :
    (fromSlice codec (codec.encode b) >>= next).run (handleStore ids) s =
      (next b).run (handleStore ids) s := by
  rw [fromSlice, codec.decode_encode]
  rfl

theorem run_metaGetSingle {codec : Codec β} {key : String} {written : Option β}
    (found : (s.db.trees metaTree).get key.utf8 = written.map codec.encode)
    (next : Option β → StoreAction α) :
    (metaGetSingle codec key >>= next).run (handleStore ids) s =
      (next written).run (handleStore ids) s := by
  rw [metaGetSingle, Program.bind_assoc, run_get, found]
  cases written with
  | none => rfl
  | some b =>
      simp only [Option.map_some, Program.bind_assoc, run_fromSlice]
      rfl

theorem run_metaGetSingle_error {codec : Codec β} {key : String} {value : Bytes} {e : String}
    (found : (s.db.trees metaTree).get key.utf8 = some value) (unread : codec.decode value = .error e)
    (next : Option β → StoreAction α) :
    (metaGetSingle codec key >>= next).run (handleStore ids) s =
      (.err ⟨.stateMachine, .read, e⟩, s) := by
  rw [metaGetSingle, Program.bind_assoc, run_get, found]
  simp only [fromSlice, unread]
  rfl

/-- How a method of the state machine looks to the store. -/
def storageOutcome : Outcome PelicanError α → Outcome StorageError α
  | .ok a => .ok a
  | .err e => .err ⟨.stateMachine, .write, e.display⟩
  | .panicked => .panicked
  | .diverged => .diverged

theorem run_onStateMachine (action : Action β) (next : β → StoreAction α) :
    (onStateMachine action >>= next).run (handleStore ids) s =
      Outcome.andThen (storageOutcome (action.run (handle ids) s.machine).1,
          s.withMachine (action.run (handle ids) s.machine).2)
        fun b t => (next b).run (handleStore ids) t := by
  have embedded : (action.embed (fun c => StoreCall.stateMachine c) :
      StoreAction (Except PelicanError β)).run (handleStore ids) s =
      ((action.run (handle ids) s.machine).1.caught,
        s.withMachine (action.run (handle ids) s.machine).2) :=
    Program.run_embed (handle ids) StoreMachine.machine StoreMachine.withMachine (fun _ _ => rfl)
      (fun _ _ _ => rfl) (fun _ => rfl) (fun _ _ _ => rfl) action s
  rw [onStateMachine, Program.bind_assoc, Program.run_bind, embedded]
  cases (action.run (handle ids) s.machine).1 <;> rfl

end Calls

end RaftStore

end PelicanQ
