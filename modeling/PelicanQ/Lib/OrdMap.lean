import Mathlib

/-! # Ordered maps as sorted association lists

A map is the list of its entries in strictly increasing key order, so the
order in which a store iterates is part of the value.  Two maps with the same
lookups are the same list; insertion and removal are described once by the
entries they leave, and every other fact follows from that description.
-/

/-- A finite map whose entries are listed in strictly increasing key order. -/
structure OrdMap (K V : Type) [LinearOrder K] where
  entries : List (K × V)
  sorted : entries.Pairwise (fun a b => a.1 < b.1)

/-- One end of a range of keys. -/
inductive Bound (K : Type) where
  | included (k : K)
  | excluded (k : K)
  | unbounded
  deriving DecidableEq, Repr

namespace Bound

variable {K : Type} [LinearOrder K]

/-- A range that starts here reaches down to the key. -/
def Starts : Bound K → K → Prop
  | .included start, k => start ≤ k
  | .excluded start, k => start < k
  | .unbounded, _ => True

/-- A range that ends here reaches up to the key. -/
def Ends : Bound K → K → Prop
  | .included stop, k => k ≤ stop
  | .excluded stop, k => k < stop
  | .unbounded, _ => True

instance (start : Bound K) (k : K) : Decidable (start.Starts k) :=
  match start with
  | .included start => inferInstanceAs (Decidable (start ≤ k))
  | .excluded start => inferInstanceAs (Decidable (start < k))
  | .unbounded => inferInstanceAs (Decidable True)

instance (stop : Bound K) (k : K) : Decidable (stop.Ends k) :=
  match stop with
  | .included stop => inferInstanceAs (Decidable (k ≤ stop))
  | .excluded stop => inferInstanceAs (Decidable (k < stop))
  | .unbounded => inferInstanceAs (Decidable True)

end Bound

namespace OrdMap

variable {K K' V V' : Type} [LinearOrder K] [LinearOrder K']

instance [DecidableEq V] : DecidableEq (OrdMap K V) := fun m m' =>
  decidable_of_iff (m.entries = m'.entries)
    ⟨fun same => by cases m; cases m'; simpa using same, fun same => by rw [same]⟩

def empty : OrdMap K V := ⟨[], .nil⟩

def get (m : OrdMap K V) (k : K) : Option V :=
  (m.entries.find? (fun e => e.1 = k)).map Prod.snd

def insert (m : OrdMap K V) (k : K) (v : V) : OrdMap K V where
  entries := m.entries.filter (·.1 < k) ++ (k, v) :: m.entries.filter (k < ·.1)
  sorted := by
    refine List.pairwise_append.mpr ⟨m.sorted.filter _, List.pairwise_cons.mpr ⟨?_, m.sorted.filter _⟩, ?_⟩
    · intro e member
      simpa using (List.mem_filter.mp member).2
    · intro a below b above
      have left : a.1 < k := by simpa using (List.mem_filter.mp below).2
      rcases List.mem_cons.mp above with rfl | above
      · exact left
      · exact left.trans (by simpa using (List.mem_filter.mp above).2)

def erase (m : OrdMap K V) (k : K) : OrdMap K V where
  entries := m.entries.filter (·.1 ≠ k)
  sorted := m.sorted.filter _

/-- The entries with keys in a range. -/
def range (m : OrdMap K V) (start stop : Bound K) : List (K × V) :=
  m.entries.filter fun e => decide (start.Starts e.1 ∧ stop.Ends e.1)

def last (m : OrdMap K V) : Option (K × V) := m.entries.getLast?

def keys (m : OrdMap K V) : List K := m.entries.map Prod.fst

def values (m : OrdMap K V) : List V := m.entries.map Prod.snd

theorem ext_entries {m m' : OrdMap K V} (same : m.entries = m'.entries) : m = m' := by
  cases m; cases m'; simpa using same

theorem keys_sorted (m : OrdMap K V) : m.keys.Pairwise (· < ·) :=
  List.pairwise_map.mpr m.sorted

theorem keys_nodup (m : OrdMap K V) : m.keys.Nodup :=
  m.keys_sorted.imp fun less => less.ne

theorem entries_nodup (m : OrdMap K V) : m.entries.Nodup :=
  m.keys_nodup.of_map _

/-- A key has one value: the lookup finds the entry that is listed. -/
theorem get_eq_some {m : OrdMap K V} {k : K} {v : V} :
    m.get k = some v ↔ (k, v) ∈ m.entries := by
  constructor
  · intro found
    obtain ⟨⟨k', v'⟩, located, rfl⟩ := Option.map_eq_some_iff.mp found
    have key : k' = k := by simpa using List.find?_some located
    exact key ▸ List.mem_of_find?_eq_some located
  · intro member
    cases located : m.entries.find? (fun e => e.1 = k) with
    | none =>
        have absent := List.find?_eq_none.mp located (k, v) member
        simp at absent
    | some e =>
        have key : e.1 = k := by simpa using List.find?_some located
        have same : e = (k, v) :=
          List.inj_on_of_nodup_map m.keys_nodup (List.mem_of_find?_eq_some located) member key
        simp only [get, located, same, Option.map_some]

theorem get_eq_none {m : OrdMap K V} {k : K} : m.get k = none ↔ k ∉ m.keys := by
  rw [← not_iff_not, ← ne_eq, Option.ne_none_iff_exists', not_not]
  simp [get_eq_some, keys]

theorem mem_keys {m : OrdMap K V} {k : K} : k ∈ m.keys ↔ ∃ v, m.get k = some v := by
  rw [← Option.ne_none_iff_exists', ne_eq, get_eq_none, not_not]

/-- Maps are determined by their lookups. -/
theorem ext_get {m m' : OrdMap K V} (same : ∀ k, m.get k = m'.get k) : m = m' := by
  apply ext_entries
  have perm : m.entries.Perm m'.entries := by
    rw [List.perm_ext_iff_of_nodup m.entries_nodup m'.entries_nodup]
    rintro ⟨k, v⟩
    rw [← get_eq_some, same, get_eq_some]
  exact perm.eq_of_pairwise (fun _ _ _ _ le ge => (lt_asymm le ge).elim) m.sorted m'.sorted

@[simp] theorem entries_empty : (empty : OrdMap K V).entries = [] := rfl

@[simp] theorem get_empty (k : K) : (empty : OrdMap K V).get k = none := rfl

theorem mem_insert {m : OrdMap K V} {k : K} {v : V} {e : K × V} :
    e ∈ (m.insert k v).entries ↔ e = (k, v) ∨ (e ∈ m.entries ∧ e.1 ≠ k) := by
  simp only [insert, List.mem_append, List.mem_cons, List.mem_filter, decide_eq_true_eq,
    ne_iff_lt_or_gt]
  tauto

theorem mem_erase {m : OrdMap K V} {k : K} {e : K × V} :
    e ∈ (m.erase k).entries ↔ e ∈ m.entries ∧ e.1 ≠ k := by
  simp only [erase, List.mem_filter, decide_eq_true_eq]

theorem get_insert (m : OrdMap K V) (k k' : K) (v : V) :
    (m.insert k v).get k' = if k' = k then some v else m.get k' := by
  apply Option.ext
  intro u
  rw [get_eq_some, mem_insert]
  split_ifs with same
  · simp only [same, Prod.mk.injEq, true_and, ne_eq, not_true_eq_false, and_false, or_false,
      Option.some.injEq, eq_comm]
  · simp only [get_eq_some, Prod.mk.injEq, same, false_and, ne_eq, not_false_eq_true, and_true,
      false_or]

theorem get_erase (m : OrdMap K V) (k k' : K) :
    (m.erase k).get k' = if k' = k then none else m.get k' := by
  apply Option.ext
  intro u
  rw [get_eq_some, mem_erase]
  split_ifs with same
  · simp only [same, ne_eq, not_true_eq_false, and_false]
  · simp only [get_eq_some, ne_eq, same, not_false_eq_true, and_true]

theorem insert_present {m : OrdMap K V} {k : K} {v : V} (present : m.get k = some v) :
    m.insert k v = m := by
  apply ext_get
  intro k'
  rw [get_insert]
  split_ifs with same
  · rw [same, present]
  · rfl

theorem insert_insert (m : OrdMap K V) (k : K) (v v' : V) :
    (m.insert k v).insert k v' = m.insert k v' := by
  apply ext_get
  intro k'
  simp only [get_insert]
  split_ifs <;> rfl

theorem erase_absent {m : OrdMap K V} {k : K} (absent : m.get k = none) : m.erase k = m := by
  apply ext_get
  intro k'
  rw [get_erase]
  split_ifs with same
  · rw [same, absent]
  · rfl

theorem mem_keys_insert {m : OrdMap K V} {k k' : K} {v : V} :
    k' ∈ (m.insert k v).keys ↔ k' = k ∨ k' ∈ m.keys := by
  rw [mem_keys, mem_keys]
  by_cases same : k' = k
  · simp [get_insert, same]
  · simp only [get_insert, same, if_false, false_or]

theorem mem_keys_erase {m : OrdMap K V} {k k' : K} :
    k' ∈ (m.erase k).keys ↔ k' ≠ k ∧ k' ∈ m.keys := by
  rw [mem_keys, mem_keys]
  by_cases same : k' = k
  · simp [get_erase, same]
  · simp only [get_erase, same, if_false, ne_eq, not_false_eq_true, true_and]

/-- A fresh key adds exactly one entry. -/
theorem insert_perm {m : OrdMap K V} {k : K} (fresh : k ∉ m.keys) (v : V) :
    (m.insert k v).entries.Perm ((k, v) :: m.entries) := by
  have outside : (k, v) ∉ m.entries := fun member => fresh (List.mem_map_of_mem member)
  rw [List.perm_ext_iff_of_nodup (m.insert k v).entries_nodup
    (List.nodup_cons.mpr ⟨outside, m.entries_nodup⟩)]
  intro e
  rw [mem_insert, List.mem_cons]
  refine or_congr_right (and_iff_left_of_imp fun member same => ?_)
  exact fresh (same ▸ List.mem_map_of_mem member)

theorem erase_insert_fresh {m : OrdMap K V} {k : K} (fresh : k ∉ m.keys) (v : V) :
    (m.insert k v).erase k = m := by
  apply ext_get
  intro k'
  rw [get_erase, get_insert]
  split_ifs with same
  · rw [same, get_eq_none.mpr fresh]
  · rfl

/-- Among the entries of a kind, a key above those of its kind comes last. -/
theorem filter_insert {m : OrdMap K V} {k : K} (fresh : k ∉ m.keys) {v : V} {p : V → Bool}
    (above : p v = true → ∀ e ∈ m.entries, p e.2 = true → e.1 < k) :
    (m.insert k v).values.filter p = m.values.filter p ++ if p v then [v] else [] := by
  have before : m.values.filter p = ((m.insert k v).erase k).values.filter p := by
    rw [erase_insert_fresh fresh]
  have left : (m.entries.filter fun e => e.1 < k).filter (fun e => e.1 ≠ k) =
      m.entries.filter fun e => e.1 < k := by
    refine List.filter_eq_self.mpr fun e member => ?_
    simpa using (of_decide_eq_true (List.mem_filter.mp member).2).ne
  have right : (m.entries.filter fun e => k < e.1).filter (fun e => e.1 ≠ k) =
      m.entries.filter fun e => k < e.1 := by
    refine List.filter_eq_self.mpr fun e member => ?_
    simpa using (of_decide_eq_true (List.mem_filter.mp member).2).ne'
  have split : ((m.insert k v).erase k).entries =
      m.entries.filter (fun e => e.1 < k) ++ m.entries.filter fun e => k < e.1 := by
    rw [erase, insert]
    simp only [List.filter_append, List.filter_cons, ne_eq, not_true_eq_false, decide_false,
      Bool.false_eq_true, if_false]
    exact congrArg₂ _ left right
  rw [before, values, values, split, insert]
  simp only [List.map_append, List.map_cons, List.filter_append, List.filter_cons]
  by_cases kind : p v = true
  · have none_above : ((m.entries.filter fun e => k < e.1).map Prod.snd).filter p = [] := by
      refine List.filter_eq_nil_iff.mpr fun value member holds => ?_
      obtain ⟨e, inside, rfl⟩ := List.mem_map.mp member
      obtain ⟨stored, later⟩ := List.mem_filter.mp inside
      exact lt_asymm (above kind e stored holds) (of_decide_eq_true later)
    simp only [kind, if_true, none_above, List.append_nil]
  · simp only [kind, Bool.false_eq_true, if_false, List.append_nil]

/-- Removing a present key takes away exactly its entry. -/
theorem erase_perm {m : OrdMap K V} {k : K} {v : V} (present : m.get k = some v) :
    m.entries.Perm ((k, v) :: (m.erase k).entries) := by
  have outside : (k, v) ∉ (m.erase k).entries := by simp [mem_erase]
  rw [List.perm_ext_iff_of_nodup m.entries_nodup
    (List.nodup_cons.mpr ⟨outside, (m.erase k).entries_nodup⟩)]
  rintro ⟨k', v'⟩
  rw [List.mem_cons, mem_erase]
  by_cases same : k' = k
  · subst same
    simp only [← get_eq_some, present, Prod.mk.injEq, true_and, ne_eq, not_true_eq_false,
      and_false, or_false, Option.some.injEq, eq_comm]
  · simp only [Prod.mk.injEq, same, false_and, ne_eq, not_false_eq_true, and_true, false_or]

theorem insert_erase (m : OrdMap K V) (k : K) (v : V) : (m.erase k).insert k v = m.insert k v := by
  apply ext_get
  intro k'
  rw [get_insert, get_insert, get_erase]
  split_ifs <;> rfl

/-! ### Sums over the values -/

/-- A quantity, summed over the values. -/
def sum (f : V → Nat) (m : OrdMap K V) : Nat := (m.values.map f).sum

@[simp] theorem sum_empty (f : V → Nat) : (empty : OrdMap K V).sum f = 0 := rfl

theorem sum_insert {m : OrdMap K V} {k : K} (fresh : k ∉ m.keys) (f : V → Nat) (v : V) :
    (m.insert k v).sum f = m.sum f + f v := by
  have perm := ((insert_perm fresh v).map Prod.snd).map f
  rw [sum, values, perm.sum_eq, List.map_cons, List.map_cons, List.sum_cons, Nat.add_comm]
  rfl

theorem sum_erase {m : OrdMap K V} {k : K} {v : V} (present : m.get k = some v) (f : V → Nat) :
    (m.erase k).sum f + f v = m.sum f := by
  have perm := ((erase_perm present).map Prod.snd).map f
  rw [sum, sum, values, values, perm.sum_eq, List.map_cons, List.map_cons, List.sum_cons,
    Nat.add_comm]

/-- Putting a value in the place of another. -/
theorem sum_replace {m : OrdMap K V} {k : K} {v : V} (present : m.get k = some v) (f : V → Nat)
    (v' : V) : (m.insert k v').sum f + f v = m.sum f + f v' := by
  have gone : k ∉ (m.erase k).keys := fun member => (mem_keys_erase.mp member).1 rfl
  rw [← insert_erase, sum_insert gone, ← sum_erase present f]
  omega

/-- A key above all others goes to the end. -/
theorem insert_entries_last {m : OrdMap K V} {k : K} (above : ∀ k' ∈ m.keys, k' < k) (v : V) :
    (m.insert k v).entries = m.entries ++ [(k, v)] := by
  have below : ∀ e ∈ m.entries, e.1 < k := fun e member => above e.1 (List.mem_map_of_mem member)
  have left : m.entries.filter (·.1 < k) = m.entries :=
    List.filter_eq_self.mpr fun e member => by simpa using below e member
  have right : m.entries.filter (k < ·.1) = [] :=
    List.filter_eq_nil_iff.mpr fun e member => by simpa using (below e member).le
  simp only [insert, left, right]

/-- Entries in key order are entered one after the other. -/
theorem foldl_insert_sorted {m : OrdMap K V} {l : List (K × V)}
    (sorted : l.Pairwise fun e e' => e.1 < e'.1) (above : ∀ k ∈ m.keys, ∀ e ∈ l, k < e.1) :
    (l.foldl (fun m e => m.insert e.1 e.2) m).entries = m.entries ++ l := by
  induction l generalizing m with
  | nil => exact (List.append_nil _).symm
  | cons e l ih =>
      obtain ⟨first, rest⟩ := List.pairwise_cons.mp sorted
      have last := insert_entries_last (fun k member => above k member e List.mem_cons_self) e.2
      rw [List.foldl_cons, ih rest, last, List.append_assoc, List.singleton_append]
      intro k member e' later
      rcases mem_keys_insert.mp member with rfl | old
      · exact first e' later
      · exact above k old e' (List.mem_cons_of_mem _ later)

theorem mem_keys_foldl_insert {m : OrdMap K V} {l : List (K × V)} {k : K} :
    k ∈ (l.foldl (fun m e => m.insert e.1 e.2) m).keys ↔ k ∈ m.keys ∨ k ∈ l.map Prod.fst := by
  induction l generalizing m with
  | nil => simp
  | cons e l ih =>
      rw [List.foldl_cons, ih, mem_keys_insert, List.map_cons, List.mem_cons]
      tauto

theorem get_foldl_insert_other {m : OrdMap K V} {l : List (K × V)} {k : K}
    (absent : k ∉ l.map Prod.fst) :
    (l.foldl (fun m e => m.insert e.1 e.2) m).get k = m.get k := by
  induction l generalizing m with
  | nil => rfl
  | cons e l ih =>
      rw [List.map_cons, List.mem_cons, not_or] at absent
      obtain ⟨other, absent⟩ := absent
      rw [List.foldl_cons, ih absent, get_insert, if_neg other]

/-- Entries with distinct keys are all kept, in whatever order they are entered. -/
theorem get_foldl_insert {m : OrdMap K V} {l : List (K × V)} (distinct : (l.map Prod.fst).Nodup)
    {e : K × V} (member : e ∈ l) :
    (l.foldl (fun m e => m.insert e.1 e.2) m).get e.1 = some e.2 := by
  induction l generalizing m with
  | nil => cases member
  | cons e' l ih =>
      obtain ⟨once, distinct⟩ := List.nodup_cons.mp distinct
      rw [List.foldl_cons]
      rcases List.mem_cons.mp member with rfl | member
      · rw [get_foldl_insert_other once, get_insert, if_pos rfl]
      · exact ih distinct member

/-- Entering all of one map over another replaces it when no other key is there. -/
theorem foldl_insert_eq_iff {m m' : OrdMap K V} :
    m'.entries.foldl (fun m e => m.insert e.1 e.2) m = m' ↔ ∀ k ∈ m.keys, k ∈ m'.keys := by
  constructor
  · intro same k member
    rw [← same, mem_keys_foldl_insert]
    exact .inl member
  · intro within
    refine ext_get fun k => ?_
    cases found : m'.get k with
    | none =>
        have absent := get_eq_none.mp found
        rw [get_foldl_insert_other absent, get_eq_none]
        exact fun member => absent (within k member)
    | some v => exact get_foldl_insert m'.keys_nodup (get_eq_some.mp found)

/-- As many entries are kept as there are distinct keys. -/
theorem length_foldl_insert (l : List (K × V)) :
    (l.foldl (fun m e => m.insert e.1 e.2) (empty : OrdMap K V)).entries.length = l.length ↔
      (l.map Prod.fst).Nodup := by
  have keys : (l.foldl (fun m e => m.insert e.1 e.2) (empty : OrdMap K V)).keys.toFinset =
      (l.map Prod.fst).toFinset := by
    ext k
    rw [List.mem_toFinset, List.mem_toFinset, mem_keys_foldl_insert]
    exact or_iff_right (List.not_mem_nil)
  have count := List.toFinset_card_of_nodup
    (l.foldl (fun m e => m.insert e.1 e.2) (empty : OrdMap K V)).keys_nodup
  rw [keys, OrdMap.keys, List.length_map] at count
  rw [← count, show l.length = (l.map Prod.fst).length from (List.length_map _).symm]
  exact Multiset.toFinset_card_eq_card_iff_nodup

/-- Removing the first key leaves the rest of the list. -/
theorem erase_first {m : OrdMap K V} {k : K} {v : V} {rest : List (K × V)}
    (front : m.entries = (k, v) :: rest) : (m.erase k).entries = rest := by
  have after : ∀ e ∈ rest, k < e.1 := by
    have := m.sorted
    rw [front] at this
    exact (List.pairwise_cons.mp this).1
  have kept : rest.filter (fun e => decide (e.1 ≠ k)) = rest :=
    List.filter_eq_self.mpr fun e member => by simpa using (after e member).ne'
  simp only [erase, front]
  rw [List.filter_cons_of_neg (by simp), kept]

/-- Removing keys one by one leaves the entries under other keys. -/
theorem get_foldl_erase (m : OrdMap K V) (keys : List K) (k : K) :
    (keys.foldl erase m).get k = if k ∈ keys then none else m.get k := by
  induction keys generalizing m with
  | nil => exact (if_neg List.not_mem_nil).symm
  | cons first keys ih =>
      rw [List.foldl_cons, ih, get_erase]
      by_cases same : k = first
      · rw [if_pos same, ite_self, if_pos (same ▸ List.mem_cons_self)]
      · simp only [same, if_false, List.mem_cons, false_or]

theorem foldl_erase_entries (m : OrdMap K V) (keys : List K) :
    (keys.foldl erase m).entries = m.entries.filter fun e => decide (e.1 ∉ keys) := by
  induction keys generalizing m with
  | nil => exact (List.filter_eq_self.mpr fun e _ => decide_eq_true List.not_mem_nil).symm
  | cons k keys ih =>
      rw [List.foldl_cons, ih]
      change (m.entries.filter (·.1 ≠ k)).filter _ = _
      rw [List.filter_filter]
      refine List.filter_congr fun e _ => ?_
      rw [← Bool.decide_and, decide_eq_decide, List.mem_cons, not_or]
      exact And.comm

/-- Removing the keys of some of the entries leaves the others. -/
theorem foldl_erase_filter (m : OrdMap K V) (p : K × V → Bool) :
    (((m.entries.filter p).map Prod.fst).foldl erase m).entries =
      m.entries.filter fun e => !p e := by
  rw [foldl_erase_entries]
  refine List.filter_congr fun e member => ?_
  have listed : e.1 ∈ (m.entries.filter p).map Prod.fst ↔ p e = true := by
    constructor
    · intro inside
      obtain ⟨e', kept, key⟩ := List.mem_map.mp inside
      obtain ⟨member', holds⟩ := List.mem_filter.mp kept
      exact List.inj_on_of_nodup_map m.keys_nodup member' member key ▸ holds
    · intro holds
      exact List.mem_map_of_mem (List.mem_filter.mpr ⟨member, holds⟩)
  simp only [listed, Bool.not_eq_true, Bool.decide_eq_false]

/-- Removing the first keys leaves the later entries. -/
theorem get_filtered {m m' : OrdMap K V} {p : K × V → Bool}
    (filtered : m'.entries = m.entries.filter p) {k : K} {v : V} (found : m.get k = some v) :
    m'.get k = if p (k, v) then some v else none := by
  split_ifs with holds
  · rw [get_eq_some, filtered]
    exact List.mem_filter.mpr ⟨get_eq_some.mp found, holds⟩
  · refine get_eq_none.mpr fun listed => holds ?_
    obtain ⟨v', stored⟩ := mem_keys.mp listed
    rw [get_eq_some, filtered] at stored
    obtain ⟨member, kept⟩ := List.mem_filter.mp stored
    have same := (get_eq_some.mpr member).symm.trans found
    cases same
    exact kept

theorem foldl_erase_take (m : OrdMap K V) (n : Nat) :
    (((m.entries.take n).map Prod.fst).foldl erase m).entries = m.entries.drop n := by
  have distinct := m.keys_nodup
  rw [keys, ← List.take_append_drop n m.entries, List.map_append, List.nodup_append] at distinct
  rw [foldl_erase_entries]
  conv_lhs => rw [← List.take_append_drop n m.entries, List.filter_append]
  rw [List.take_append_drop, List.filter_eq_nil_iff.mpr, List.filter_eq_self.mpr, List.nil_append]
  · intro e member
    refine decide_eq_true fun inside => ?_
    exact distinct.2.2 e.1 inside e.1 (List.mem_map_of_mem member) rfl
  · intro e member
    simpa using List.mem_map_of_mem member

/-- Re-key and re-value a map along a strictly increasing key embedding. -/
def image (m : OrdMap K V) (f : K → K') (mono : StrictMono f) (g : V → V') : OrdMap K' V' where
  entries := m.entries.map (fun e => (f e.1, g e.2))
  sorted := List.pairwise_map.mpr (m.sorted.imp fun less => mono less)

section Image

variable {f : K → K'} {mono : StrictMono f} {g : V → V'}

@[simp] theorem image_entries (m : OrdMap K V) :
    (m.image f mono g).entries = m.entries.map (fun e => (f e.1, g e.2)) := rfl

theorem image_values (m : OrdMap K V) : (m.image f mono g).values = m.values.map g := by
  rw [values, image_entries, List.map_map, values, List.map_map]
  rfl

@[simp] theorem image_empty : (empty : OrdMap K V).image f mono g = empty := rfl

theorem image_eq_empty {m : OrdMap K V} : m.image f mono g = empty ↔ m = empty := by
  constructor
  · intro same
    apply ext_entries
    have entries := congrArg OrdMap.entries same
    rwa [image_entries, entries_empty, List.map_eq_nil_iff] at entries
  · rintro rfl
    rfl

theorem image_insert (m : OrdMap K V) (k : K) (v : V) :
    (m.insert k v).image f mono g = (m.image f mono g).insert (f k) (g v) := by
  apply ext_entries
  simp only [image_entries, insert, List.map_append, List.map_cons, List.filter_map,
    Function.comp_def, mono.lt_iff_lt]

theorem image_erase (m : OrdMap K V) (k : K) :
    (m.erase k).image f mono g = (m.image f mono g).erase (f k) := by
  apply ext_entries
  simp only [image_entries, erase, List.filter_map, Function.comp_def, ne_eq,
    mono.injective.eq_iff]

theorem get_image (m : OrdMap K V) (k : K) :
    (m.image f mono g).get (f k) = (m.get k).map g := by
  simp only [get, image_entries, List.find?_map, Function.comp_def, mono.injective.eq_iff,
    Option.map_map]

theorem get_image_eq_some {m : OrdMap K V} {k' : K'} {v' : V'} :
    (m.image f mono g).get k' = some v' ↔ ∃ k v, k' = f k ∧ v' = g v ∧ m.get k = some v := by
  rw [get_eq_some, image_entries, List.mem_map]
  constructor
  · rintro ⟨e, member, same⟩
    cases same
    exact ⟨e.1, e.2, rfl, rfl, get_eq_some.mpr member⟩
  · rintro ⟨k, v, rfl, rfl, present⟩
    exact ⟨(k, v), get_eq_some.mp present, rfl⟩

end Image

/-- Change the values only. -/
def mapValues (m : OrdMap K V) (g : V → V') : OrdMap K V' := m.image id strictMono_id g

section MapValues

variable (g : V → V')

@[simp] theorem mapValues_entries (m : OrdMap K V) :
    (m.mapValues g).entries = m.entries.map (fun e => (e.1, g e.2)) := rfl

theorem get_mapValues (m : OrdMap K V) (k : K) : (m.mapValues g).get k = (m.get k).map g :=
  get_image m k

theorem mapValues_insert (m : OrdMap K V) (k : K) (v : V) :
    (m.insert k v).mapValues g = (m.mapValues g).insert k (g v) :=
  image_insert m k v

@[simp] theorem mapValues_keys (m : OrdMap K V) : (m.mapValues g).keys = m.keys := by
  simp only [keys, mapValues_entries, List.map_map, Function.comp_def]

/-- Overwriting a key by a value that reads the same leaves the reading unchanged. -/
theorem mapValues_insert_same {m : OrdMap K V} {k : K} {v : V}
    (same : (m.get k).map g = some (g v)) : (m.insert k v).mapValues g = m.mapValues g := by
  apply ext_get
  intro k'
  rw [mapValues_insert, get_insert, get_mapValues]
  split_ifs with here
  · rw [here, same]
  · rfl

end MapValues

end OrdMap
