import PelicanQ.Lib.Crash
import PelicanQ.Sled.Database

/-! # What a crash leaves of a database

Each call writes at most one batch and never takes back what is on disk, so the
databases that a crash can leave are those the program passed through.
-/

namespace Sled

theorem handle_log (ids : Nat → UInt64) {β : Type} (c : Call β) (db : Db) :
    ∃ added, added.length ≤ 1 ∧ (handle ids β c db).2.log = db.log ++ added := by
  cases c with
  | insert tree key value => exact ⟨[[.insert tree key value]], le_rfl, rfl⟩
  | remove tree key =>
      simp only [handle, Db.remove]
      split_ifs
      · exact ⟨[[.remove tree key]], le_rfl, rfl⟩
      · exact ⟨[], Nat.zero_le 1, (List.append_nil _).symm⟩
  | transaction body =>
      simp only [handle]
      cases body.run db.trees [] with
      | none => exact ⟨[], Nat.zero_le 1, (List.append_nil _).symm⟩
      | some result => exact ⟨[result.2], le_rfl, rfl⟩
  | openTree | containsKey | get | iter | range | last | generateId | flush =>
      exact ⟨[], Nat.zero_le 1, (List.append_nil _).symm⟩

theorem flushed_le_handle (ids : Nat → UInt64) {β : Type} (c : Call β) (db : Db) :
    db.flushed ≤ (handle ids β c db).2.flushed := by
  cases c with
  | openTree | containsKey | get | iter | range | last | insert | generateId => exact le_rfl
  | remove tree key =>
      simp only [handle, Db.remove]
      split_ifs <;> exact le_rfl
  | transaction body =>
      simp only [handle]
      cases body.run db.trees [] <;> exact le_rfl
  | flush => exact db.flushed_le

/-- What is kept of a log decides what is in the trees. -/
theorem Db.trees_keep {db db' : Db} {n : Nat} (same : db'.log = db.log.take n) :
    (db.keep n).trees = db'.trees := by
  rw [db'.replayed, same]
  rfl

theorem Db.trees_keep_all (db : Db) : (db.keep db.log.length).trees = db.trees :=
  Db.trees_keep (List.take_length).symm

end Sled
