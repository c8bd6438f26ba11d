import Mathlib

/-! # Logs of consecutive indices

A log of which some first part may have been given up holds the entries of an
interval of indices.  It grows at its end, is cut back from its end, and is
given up from its start; each of these moves one bound of the interval.
-/

/-- Entries at the indices from `first` up to, but not including, `next`. -/
structure IndexedLog (α : Type) (index : α → Nat) where
  first : Nat
  next : Nat
  entries : List α
  first_le : first ≤ next
  sorted : entries.Pairwise fun a b => index a < index b
  covered : ∀ k, (∃ e ∈ entries, index e = k) ↔ first ≤ k ∧ k < next

namespace IndexedLog

variable {α : Type} {index : α → Nat}

def empty : IndexedLog α index where
  first := 0
  next := 0
  entries := []
  first_le := le_rfl
  sorted := .nil
  covered k := by simp

theorem index_mem (log : IndexedLog α index) {e : α} (member : e ∈ log.entries) :
    log.first ≤ index e ∧ index e < log.next :=
  (log.covered (index e)).mp ⟨e, member, rfl⟩

/-- Entries at the indices that follow the log. -/
def Follows (log : IndexedLog α index) (batch : List α) : Prop :=
  batch.map index = List.range' log.next batch.length

theorem Follows.mem_iff {log : IndexedLog α index} {batch : List α} (follows : log.Follows batch)
    (k : Nat) : (∃ e ∈ batch, index e = k) ↔ log.next ≤ k ∧ k < log.next + batch.length := by
  rw [← List.mem_map, follows, List.mem_range'_1]

def append (log : IndexedLog α index) (batch : List α) (follows : log.Follows batch) :
    IndexedLog α index where
  first := log.first
  next := log.next + batch.length
  entries := log.entries ++ batch
  first_le := log.first_le.trans (Nat.le_add_right _ _)
  sorted := by
    have ordered : (batch.map index).Pairwise (· < ·) := by
      rw [follows]
      exact List.pairwise_lt_range'
    refine List.pairwise_append.mpr ⟨log.sorted, List.pairwise_map.mp ordered, ?_⟩
    intro a old b new
    have below := (log.index_mem old).2
    have above := ((follows.mem_iff (index b)).mp ⟨b, new, rfl⟩).1
    omega
  covered k := by
    have old := log.covered k
    have new := follows.mem_iff k
    have bounds := log.first_le
    simp only [List.mem_append, or_and_right, exists_or, old, new]
    omega

/-- Without the entries from index `i` on. -/
def truncate (log : IndexedLog α index) (i : Nat) (above : log.first ≤ i) :
    IndexedLog α index where
  first := log.first
  next := min log.next i
  entries := log.entries.filter (index · < i)
  first_le := le_min log.first_le above
  sorted := log.sorted.filter _
  covered k := by
    have old := log.covered k
    constructor
    · rintro ⟨e, member, rfl⟩
      obtain ⟨inside, below⟩ := List.mem_filter.mp member
      have bounds := log.index_mem inside
      have small := of_decide_eq_true below
      omega
    · rintro ⟨low, high⟩
      obtain ⟨e, member, rfl⟩ := old.mpr ⟨low, by omega⟩
      exact ⟨e, List.mem_filter.mpr ⟨member, decide_eq_true (by omega)⟩, rfl⟩

/-- Without the entries before index `i`. -/
def purge (log : IndexedLog α index) (i : Nat) (forward : log.first ≤ i) :
    IndexedLog α index where
  first := i
  next := max log.next i
  entries := log.entries.filter (i ≤ index ·)
  first_le := le_max_right _ _
  sorted := log.sorted.filter _
  covered k := by
    have old := log.covered k
    constructor
    · rintro ⟨e, member, rfl⟩
      obtain ⟨inside, above⟩ := List.mem_filter.mp member
      have bounds := log.index_mem inside
      have large := of_decide_eq_true above
      omega
    · rintro ⟨low, high⟩
      obtain ⟨e, member, rfl⟩ := old.mpr (by omega)
      exact ⟨e, List.mem_filter.mpr ⟨member, decide_eq_true low⟩, rfl⟩

theorem entries_eq_nil_iff (log : IndexedLog α index) :
    log.entries = [] ↔ log.first = log.next := by
  have bounds := log.first_le
  constructor
  · intro none
    by_contra some
    obtain ⟨e, member, -⟩ := (log.covered log.first).mpr (by omega)
    rw [none] at member
    cases member
  · intro same
    refine List.eq_nil_iff_forall_not_mem.mpr fun e member => ?_
    have inside := log.index_mem member
    omega

/-- The last entry is the one with the highest index. -/
theorem last_index (log : IndexedLog α index) {e : α} (last : log.entries.getLast? = some e) :
    index e + 1 = log.next := by
  obtain ⟨front, cut⟩ := List.getLast?_eq_some_iff.mp last
  have inside := log.index_mem (List.mem_of_getLast? last)
  by_contra gap
  obtain ⟨e', member, beyond⟩ := (log.covered (index e + 1)).mpr (by omega)
  have sorted := log.sorted
  rw [cut] at member sorted
  rcases List.mem_append.mp member with earlier | same
  · have less := (List.pairwise_append.mp sorted).2.2 e' earlier e (List.mem_singleton_self e)
    omega
  · rw [List.mem_singleton.mp same] at beyond
    omega

end IndexedLog
