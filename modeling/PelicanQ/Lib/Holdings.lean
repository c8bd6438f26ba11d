import Mathlib.Algebra.BigOperators.Group.Multiset.Basic
import Mathlib.Algebra.BigOperators.Ring.Finset
import Mathlib.Algebra.Order.BigOperators.Group.List
import Mathlib.Algebra.Order.Group.Multiset
import Mathlib.Data.Fintype.BigOperators
import Mathlib.Data.Multiset.UnionInter

/-! # Holdings

Things that are handed out once and held by somebody until they are given back, as
multisets.  A step takes some things over, gives some back and may lose others; if
nothing is ever handed out twice, nothing is held twice.
-/

namespace Holdings

variable {α β κ : Type*}

/-- At most one thing. -/
def single (o : Option α) : Multiset α := ↑o.toList

@[simp] theorem single_none : single (none : Option α) = 0 := rfl

@[simp] theorem single_some (a : α) : single (some a) = {a} := rfl

theorem mem_sum {l : List (Multiset α)} {a : α} : a ∈ l.sum ↔ ∃ part ∈ l, a ∈ part := by
  induction l with
  | nil => simp
  | cons part l ih => simp [ih]

section Tables

variable [Fintype κ]

/-- What a finite table holds. -/
@[irreducible] def table (f : κ → Option α) : Multiset α := ∑ k, single (f k)

@[simp] theorem table_empty : table (fun _ : κ => (none : Option α)) = 0 := by
  simp [table]

/-- The new entry takes the place of the old one. -/
theorem table_update [DecidableEq κ] (f : κ → Option α) (k : κ) (o : Option α) :
    table (Function.update f k o) + single (f k) = table f + single o := by
  have moved : ∀ k', single (Function.update f k o k') =
      Function.update (fun k' => single (f k')) k (single o) k' := by
    intro k'
    by_cases here : k' = k
    · subst here
      simp
    · simp [here]
  have rest : single (f k) + ∑ k' ∈ Finset.univ \ {k}, single (f k') = table f := by
    rw [← Finset.erase_eq, table]
    exact Finset.add_sum_erase _ (fun k' => single (f k')) (Finset.mem_univ k)
  rw [table, Finset.sum_congr rfl fun k' _ => moved k', Finset.sum_update_of_mem (Finset.mem_univ k),
    ← rest]
  ac_rfl

end Tables

/-- Replacing one holder of a list. -/
theorem sum_set {l : List β} {k : Nat} {old : β} (present : l[k]? = some old) (new : β)
    (f : β → Multiset α) :
    ((l.set k new).map f).sum + f old = (l.map f).sum + f new := by
  induction l generalizing k with
  | nil => simp at present
  | cons b l ih =>
      cases k with
      | zero =>
          cases Option.some.inj present
          simp only [List.set_cons_zero, List.map_cons, List.sum_cons]
          ac_rfl
      | succ k =>
          have rest := ih present
          simp only [List.set_cons_succ, List.map_cons, List.sum_cons, add_assoc]
          rw [rest]

/-! ## Taking over and giving back -/

/-- Whatever is held or given back afterwards was held before or has been taken over. -/
def Passes (held got held' own : Multiset α) : Prop := held' + own ≤ held + got

section Passes

variable {held got held' own : Multiset α} {a : α}

theorem Passes.drop (passes : Passes held got held' own) : held' ≤ held + got :=
  le_trans (Multiset.le_add_right _ _) passes

/-- What is still held was not given back. -/
theorem Passes.kept (passes : Passes held got held' own) (once : (held + got).Nodup)
    (member : a ∈ held') : a ∉ own ∧ (a ∈ held ∨ a ∈ got) := by
  constructor
  · have apart := Multiset.disjoint_of_nodup_add (Multiset.nodup_of_le passes once)
    exact fun given => Multiset.disjoint_left.mp apart member given
  · exact Multiset.mem_add.mp (Multiset.mem_of_le passes (Multiset.mem_add.mpr (.inl member)))

/-- What nobody held and nobody took over is neither held nor given back. -/
theorem Passes.lost (passes : Passes held got held' own) (free : a ∉ held) (old : a ∉ got) :
    a ∉ held' ∧ a ∉ own := by
  have before (member : a ∈ held' + own) : False := by
    rcases Multiset.mem_add.mp (Multiset.mem_of_le passes member) with was | new
    · exact free was
    · exact old new
  exact ⟨fun member => before (Multiset.mem_add.mpr (.inl member)),
    fun member => before (Multiset.mem_add.mpr (.inr member))⟩

end Passes

/-! ## Keeping the books -/

/-- Everything that was held before or has been taken over is held, given back or lost afterwards. -/
def Balances (held got held' own lost : Multiset α) : Prop := held + got = held' + own + lost

section Balances

variable {held got held' own lost : Multiset α}

theorem Balances.of_eq (same : held' = held) : Balances held 0 held' 0 0 := by
  simp only [Balances, same, add_zero]

theorem Balances.passes (balances : Balances held got held' own lost) : Passes held got held' own := by
  rw [Passes, balances]
  exact Multiset.le_add_right _ _

/-- What others hold stays with them. -/
theorem Balances.beside (balances : Balances held got held' own lost) (rest : Multiset α) :
    Balances (rest + held) got (rest + held') own lost := by
  rw [Balances, add_assoc, balances]
  ac_rfl

/-- One holder of a list takes over, gives back and loses. -/
theorem Balances.set {l : List β} {k : Nat} {old : β} (present : l[k]? = some old) {new : β}
    {f : β → Multiset α} (balances : Balances (f old) got (f new) own lost) :
    Balances (l.map f).sum got ((l.set k new).map f).sum own lost := by
  have replaced := sum_set present new f
  refine add_right_cancel (b := f old) ?_
  calc (l.map f).sum + got + f old
      = (l.map f).sum + (f old + got) := by ac_rfl
    _ = ((l.map f).sum + f new) + own + lost := by rw [balances]; ac_rfl
    _ = ((l.set k new).map f).sum + own + lost + f old := by rw [← replaced]; ac_rfl

end Balances

end Holdings
