import PelicanQ.Lib.OrdMap
import PelicanQ.Lib.Program
import PelicanQ.Lib.Words

/-! # The embedded database

What this code base relies on of `sled`: named trees that are ordered maps of
byte strings, multi-tree transactions that take effect as a whole, a write log
of which a crash keeps some initial part, and a source of ids.  Opening a tree
creates it when it is missing; a tree never opened reads as empty, so opening
changes nothing that can be read.

The ids a database will hand out are the parameter `ids`, indexed by how many
it has handed out before; that they increase is assumed where it is needed.
-/

namespace Sled

abbrev Tree := OrdMap Bytes Bytes

abbrev Trees := String → Tree

/-- One change to one key. -/
inductive Write where
  | insert (tree : String) (key value : Bytes)
  | remove (tree : String) (key : Bytes)
  deriving DecidableEq, Repr

/-- Writes that take effect together. -/
abbrev Batch := List Write

def Write.tree : Write → String
  | .insert tree _ _ => tree
  | .remove tree _ => tree

def Write.onTree : Write → Tree → Tree
  | .insert _ key value, tree => tree.insert key value
  | .remove _ key, tree => tree.erase key

def applyWrite (trees : Trees) (w : Write) : Trees :=
  Function.update trees w.tree (w.onTree (trees w.tree))

def applyBatch (trees : Trees) (batch : Batch) : Trees :=
  batch.foldl applyWrite trees

/-- The trees after a log of batches, from an empty directory. -/
def replay (log : List Batch) : Trees :=
  log.foldl applyBatch fun _ => .empty

theorem applyWrite_same (trees : Trees) (w : Write) :
    applyWrite trees w w.tree = w.onTree (trees w.tree) :=
  Function.update_self ..

theorem applyWrite_other (trees : Trees) {w : Write} {tree : String} (other : tree ≠ w.tree) :
    applyWrite trees w tree = trees tree :=
  Function.update_of_ne other ..

@[simp] theorem applyBatch_nil (trees : Trees) : applyBatch trees [] = trees := rfl

@[simp] theorem applyBatch_cons (trees : Trees) (w : Write) (batch : Batch) :
    applyBatch trees (w :: batch) = applyBatch (applyWrite trees w) batch := rfl

theorem applyBatch_other (trees : Trees) {batch : Batch} {tree : String}
    (other : ∀ w ∈ batch, w.tree ≠ tree) : applyBatch trees batch tree = trees tree := by
  induction batch generalizing trees with
  | nil => rfl
  | cons w batch ih =>
      rw [applyBatch_cons, ih _ fun w' member => other w' (List.mem_cons_of_mem _ member),
        applyWrite_other _ (other w List.mem_cons_self).symm]

/-- A tree that no write goes to stays empty. -/
theorem replay_unwritten {log : List Batch} {tree : String}
    (unwritten : ∀ batch ∈ log, ∀ w ∈ batch, w.tree ≠ tree) : replay log tree = .empty := by
  suffices frame : ∀ trees : Trees, log.foldl applyBatch trees tree = trees tree from frame _
  induction log with
  | nil => exact fun _ => rfl
  | cons batch log ih =>
      intro trees
      rw [List.foldl_cons, ih fun batch' member => unwritten batch' (List.mem_cons_of_mem _ member),
        applyBatch_other _ (unwritten batch List.mem_cons_self)]

/-- A database: its write log, the trees the log leaves, how much of the log is
    known to be on disk and how many ids have been handed out. -/
structure Db where
  log : List Batch
  trees : Trees
  replayed : trees = replay log
  flushed : Nat
  flushed_le : flushed ≤ log.length
  drawn : Nat

namespace Db

/-- An empty data directory. -/
def empty : Db := ⟨[], fun _ => .empty, rfl, 0, Nat.le_refl 0, 0⟩

def commit (db : Db) (batch : Batch) : Db where
  log := db.log ++ [batch]
  trees := applyBatch db.trees batch
  replayed := by simp only [db.replayed, replay, List.foldl_append, List.foldl_cons, List.foldl_nil]
  flushed := db.flushed
  flushed_le := by
    rw [List.length_append]
    exact db.flushed_le.trans (Nat.le_add_right _ _)
  drawn := db.drawn

/-- Remove a key that may be absent; only a key that is there is written. -/
def remove (db : Db) (tree : String) (key : Bytes) : Db :=
  if ((db.trees tree).get key).isSome then db.commit [.remove tree key] else db

def draw (db : Db) : Db := { db with drawn := db.drawn + 1 }

def flush (db : Db) : Db := { db with flushed := db.log.length, flushed_le := le_rfl }

/-- What a crash leaves when the first `n` batches are on disk.  Ids are not given back. -/
def keep (db : Db) (n : Nat) : Db where
  log := db.log.take n
  trees := replay (db.log.take n)
  replayed := rfl
  flushed := (db.log.take n).length
  flushed_le := le_rfl
  drawn := db.drawn

@[simp] theorem trees_empty (tree : String) : empty.trees tree = .empty := rfl

@[simp] theorem trees_commit (db : Db) (batch : Batch) :
    (db.commit batch).trees = applyBatch db.trees batch := rfl

@[simp] theorem log_commit (db : Db) (batch : Batch) : (db.commit batch).log = db.log ++ [batch] := rfl

@[simp] theorem drawn_commit (db : Db) (batch : Batch) : (db.commit batch).drawn = db.drawn := rfl

@[simp] theorem flushed_commit (db : Db) (batch : Batch) :
    (db.commit batch).flushed = db.flushed := rfl

@[simp] theorem trees_draw (db : Db) : db.draw.trees = db.trees := rfl

@[simp] theorem log_draw (db : Db) : db.draw.log = db.log := rfl

@[simp] theorem drawn_draw (db : Db) : db.draw.drawn = db.drawn + 1 := rfl

@[simp] theorem draw_commit (db : Db) (batch : Batch) :
    db.draw.commit batch = (db.commit batch).draw := rfl

theorem remove_present {db : Db} {tree : String} {key value : Bytes}
    (present : (db.trees tree).get key = some value) :
    db.remove tree key = db.commit [.remove tree key] := by
  simp only [remove, present, Option.isSome_some, if_true]

theorem remove_absent {db : Db} {tree : String} {key : Bytes}
    (absent : (db.trees tree).get key = none) : db.remove tree key = db := by
  simp only [remove, absent, Option.isSome_none, Bool.false_eq_true, if_false]

theorem trees_remove (db : Db) (tree : String) (key : Bytes) :
    (db.remove tree key).trees = Function.update db.trees tree ((db.trees tree).erase key) := by
  cases found : (db.trees tree).get key with
  | none => rw [remove_absent found, OrdMap.erase_absent found, Function.update_eq_self]
  | some value =>
      rw [remove_present found]
      rfl

end Db

/-- The body of a transaction, written against the trees it is given. -/
inductive Tx (β : Type) where
  | commit (value : β)
  | abort
  | insert (tree : String) (key value : Bytes) (next : Tx β)
  | remove (tree : String) (key : Bytes) (next : Option Bytes → Tx β)

/-- Run a transaction body: its result and the writes to make, or nothing when
    it aborts.  The body reads its own writes. -/
def Tx.run {β : Type} : Tx β → Trees → Batch → Option (β × Batch)
  | .commit value, _, batch => some (value, batch)
  | .abort, _, _ => none
  | .insert tree key value next, trees, batch =>
      next.run (applyWrite trees (.insert tree key value)) (batch ++ [.insert tree key value])
  | .remove tree key next, trees, batch =>
      (next ((trees tree).get key)).run (applyWrite trees (.remove tree key))
        (batch ++ [.remove tree key])

/-- The calls this code base makes. -/
inductive Call : Type → Type 1 where
  | openTree (tree : String) : Call Unit
  | containsKey (tree : String) (key : Bytes) : Call Bool
  | get (tree : String) (key : Bytes) : Call (Option Bytes)
  | insert (tree : String) (key value : Bytes) : Call Unit
  | remove (tree : String) (key : Bytes) : Call (Option Bytes)
  | iter (tree : String) : Call (List (Bytes × Bytes))
  | range (tree : String) (start stop : Bound Bytes) : Call (List (Bytes × Bytes))
  | last (tree : String) : Call (Option (Bytes × Bytes))
  | transaction {β : Type} (body : Tx β) : Call (Option β)
  | generateId : Call UInt64
  | flush : Call Unit

def handle (ids : Nat → UInt64) : Handler Call Db
  | _, .openTree _, db => ((), db)
  | _, .containsKey tree key, db => (((db.trees tree).get key).isSome, db)
  | _, .get tree key, db => ((db.trees tree).get key, db)
  | _, .insert tree key value, db => ((), db.commit [.insert tree key value])
  | _, .remove tree key, db => ((db.trees tree).get key, db.remove tree key)
  | _, .iter tree, db => ((db.trees tree).entries, db)
  | _, .range tree start stop, db => ((db.trees tree).range start stop, db)
  | _, .last tree, db => ((db.trees tree).last, db)
  | _, .transaction body, db =>
      match body.run db.trees [] with
      | some (value, batch) => (some value, db.commit batch)
      | none => (none, db)
  | _, .generateId, db => (ids db.drawn, db.draw)
  | _, .flush, db => ((), db.flush)

/-- Ids are never given back. -/
theorem drawn_le_handle (ids : Nat → UInt64) {β : Type} (c : Call β) (db : Db) :
    db.drawn ≤ (handle ids β c db).2.drawn := by
  cases c with
  | openTree | containsKey | get | iter | range | last | flush | insert => exact Nat.le_refl _
  | remove tree key =>
      simp only [handle, Db.remove]
      split_ifs <;> exact Nat.le_refl _
  | transaction body =>
      simp only [handle]
      cases body.run db.trees [] <;> exact Nat.le_refl _
  | generateId => exact Nat.le_succ _

/-! ## Footprints -/

section Footprint

def Write.key : Write → Bytes
  | .insert _ key _ => key
  | .remove _ key => key

variable {inside : String → Bytes → Prop} {tree : String} {key : Bytes}

theorem applyWrite_outside (trees : Trees) {w : Write} (within : inside w.tree w.key)
    (outside : ¬ inside tree key) :
    (applyWrite trees w tree).get key = (trees tree).get key := by
  by_cases here : tree = w.tree
  · subst here
    have different : key ≠ w.key := by
      rintro rfl
      exact outside within
    rw [applyWrite_same]
    cases w with
    | insert t k v => exact (OrdMap.get_insert _ _ _ _).trans (if_neg different)
    | remove t k => exact (OrdMap.get_erase _ _ _).trans (if_neg different)
  · rw [applyWrite_other _ here]

theorem applyBatch_outside (trees : Trees) {batch : Batch}
    (within : ∀ w ∈ batch, inside w.tree w.key) (outside : ¬ inside tree key) :
    (applyBatch trees batch tree).get key = (trees tree).get key := by
  induction batch generalizing trees with
  | nil => rfl
  | cons w batch ih =>
      rw [applyBatch_cons, ih _ fun w' member => within w' (List.mem_cons_of_mem _ member),
        applyWrite_outside trees (within w List.mem_cons_self) outside]

/-- Whatever it finds, the transaction writes only inside. -/
def Tx.Touches (inside : String → Bytes → Prop) {β : Type} : Tx β → Prop
  | .commit _ => True
  | .abort => True
  | .insert tree key _ next => inside tree key ∧ next.Touches inside
  | .remove tree key next => inside tree key ∧ ∀ found, (next found).Touches inside

theorem Tx.run_within {β : Type} {body : Tx β} (touches : body.Touches inside) {trees : Trees}
    {batch batch' : Batch} {value : β} (ran : body.run trees batch = some (value, batch'))
    (within : ∀ w ∈ batch, inside w.tree w.key) : ∀ w ∈ batch', inside w.tree w.key := by
  induction body generalizing trees batch with
  | commit =>
      cases ran
      exact within
  | abort => cases ran
  | insert tree key v next ih =>
      refine ih touches.2 ran fun w member => ?_
      rcases List.mem_append.mp member with old | new
      · exact within w old
      · rw [List.mem_singleton.mp new]
        exact touches.1
  | remove tree key next ih =>
      refine ih _ (touches.2 _) ran fun w member => ?_
      rcases List.mem_append.mp member with old | new
      · exact within w old
      · rw [List.mem_singleton.mp new]
        exact touches.1

/-- The call writes only inside. -/
def Call.Touches (inside : String → Bytes → Prop) {β : Type} : Call β → Prop
  | .insert tree key _ => inside tree key
  | .remove tree key => inside tree key
  | .transaction body => body.Touches inside
  | .openTree _ | .containsKey .. | .get .. | .iter _ | .range .. | .last _ => True
  | .generateId | .flush => True

/-- A call changes nothing outside. -/
theorem handle_outside (ids : Nat → UInt64) {β : Type} {c : Call β} (touches : c.Touches inside)
    (outside : ¬ inside tree key) (db : Db) :
    ((handle ids β c db).2.trees tree).get key = (db.trees tree).get key := by
  cases c with
  | openTree | containsKey | get | iter | range | last | generateId | flush => rfl
  | insert t k v =>
      refine applyBatch_outside db.trees (fun w member => ?_) outside
      rw [List.mem_singleton.mp member]
      exact touches
  | remove t k =>
      simp only [handle, Db.remove]
      split_ifs
      · refine applyBatch_outside db.trees (fun w member => ?_) outside
        rw [List.mem_singleton.mp member]
        exact touches
      · rfl
  | transaction body =>
      simp only [handle]
      cases ran : body.run db.trees [] with
      | none => rfl
      | some result =>
          exact applyBatch_outside db.trees
            (Tx.run_within touches ran fun w member => nomatch member) outside

end Footprint

end Sled
