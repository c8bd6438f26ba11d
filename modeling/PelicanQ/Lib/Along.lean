import PelicanQ.Lib.OrdMap

/-! # Maps that run alongside each other

Two maps run alongside each other when they hold the same values in the same
order, under keys that correspond.  While the correspondence respects the order
of the keys, the same insertions, removals and lookups under corresponding keys
cannot tell the maps apart.
-/

section Ordered

variable {K K' : Type} [LinearOrder K] [LinearOrder K']

/-- A correspondence of keys that respects their order. -/
def Ordered (R : K → K' → Prop) : Prop :=
  ∀ ⦃a a'⦄, R a a' → ∀ ⦃b b'⦄, R b b' → (a < b ↔ a' < b')

variable {R : K → K' → Prop}

theorem Ordered.eq_iff (ordered : Ordered R) {a b : K} {a' b' : K'} (first : R a a')
    (second : R b b') : a = b ↔ a' = b' := by
  have below := ordered first second
  have above := ordered second first
  constructor
  · rintro rfl
    exact le_antisymm (not_lt.mp fun less => lt_irrefl _ (above.mpr less))
      (not_lt.mp fun less => lt_irrefl _ (below.mpr less))
  · rintro rfl
    exact le_antisymm (not_lt.mp fun less => lt_irrefl _ (above.mp less))
      (not_lt.mp fun less => lt_irrefl _ (below.mp less))

theorem Ordered.restrict {S : K → K' → Prop} (ordered : Ordered R) (sub : ∀ a a', S a a' → R a a') :
    Ordered S :=
  fun _ _ first _ _ second => ordered (sub _ _ first) (sub _ _ second)

theorem Ordered.eq : Ordered (Eq : K → K → Prop) := by
  rintro a _ rfl b _ rfl
  exact Iff.rfl

/-- Keys of the same class whose tickets correspond. -/
def SameClass (A : Type) (R : K → K' → Prop) (k : A ×ₗ K) (k' : A ×ₗ K') : Prop :=
  (ofLex k).1 = (ofLex k').1 ∧ R (ofLex k).2 (ofLex k').2

theorem Ordered.sameClass {A : Type} [LinearOrder A] (ordered : Ordered R) :
    Ordered (SameClass A R) := by
  rintro a a' ⟨class_, ticket⟩ b b' ⟨class', ticket'⟩
  rw [Prod.Lex.lt_iff, Prod.Lex.lt_iff, class_, class', ordered ticket ticket']

/-- Positions in two increasing lists are in the same order. -/
theorem Ordered.zip {l : List K} {l' : List K'} (increasing : l.Pairwise (· < ·))
    (increasing' : l'.Pairwise (· < ·)) : Ordered fun k k' => (k, k') ∈ l.zip l' := by
  intro a a' first b b' second
  obtain ⟨i, below, at_i⟩ := List.mem_iff_getElem.mp first
  obtain ⟨j, below', at_j⟩ := List.mem_iff_getElem.mp second
  rw [List.getElem_zip, Prod.mk.injEq] at at_i at_j
  rw [List.length_zip, lt_min_iff] at below below'
  have order (p q : Nat) (in_p : p < l.length) (in_q : q < l.length) : p < q → l[p] < l[q] :=
    List.pairwise_iff_getElem.mp increasing p q in_p in_q
  have order' (p q : Nat) (in_p : p < l'.length) (in_q : q < l'.length) : p < q → l'[p] < l'[q] :=
    List.pairwise_iff_getElem.mp increasing' p q in_p in_q
  rw [← at_i.1, ← at_i.2, ← at_j.1, ← at_j.2]
  rcases lt_trichotomy i j with less | rfl | less
  · exact iff_of_true (order i j _ _ less) (order' i j _ _ less)
  · exact iff_of_false (lt_irrefl _) (lt_irrefl _)
  · exact iff_of_false (lt_asymm (order j i _ _ less)) (lt_asymm (order' j i _ _ less))

end Ordered

/-- Corresponding fronts of corresponding lists. -/
theorem forall₂_takeWhile {α β : Type} {P : α → β → Prop} {p : α → Bool} {p' : β → Bool}
    (agree : ∀ a b, P a b → p a = p' b) {l : List α} {l' : List β} (all : List.Forall₂ P l l') :
    List.Forall₂ P (l.takeWhile p) (l'.takeWhile p') := by
  induction all with
  | nil => exact .nil
  | @cons a b l l' first _ ih =>
      rw [List.takeWhile_cons, List.takeWhile_cons, agree a b first]
      cases p' b with
      | true => exact .cons first ih
      | false => exact .nil

namespace OrdMap

variable {K K' V : Type} [LinearOrder K] [LinearOrder K']

/-- The same values in the same order, under corresponding keys. -/
def Along (R : K → K' → Prop) (m : OrdMap K V) (m' : OrdMap K' V) : Prop :=
  List.Forall₂ (fun e e' => R e.1 e'.1 ∧ e.2 = e'.2) m.entries m'.entries

namespace Along

variable {R S : K → K' → Prop} {m : OrdMap K V} {m' : OrdMap K' V}

theorem empty : (OrdMap.empty : OrdMap K V).Along R .empty := .nil

theorem refl (m : OrdMap K V) : m.Along Eq m := List.forall₂_same.mpr fun _ _ => ⟨rfl, rfl⟩

theorem mono (along : m.Along R m') (sub : ∀ a a', R a a' → S a a') : m.Along S m' :=
  List.Forall₂.imp (fun _ _ both => ⟨sub _ _ both.1, both.2⟩) along

/-- What holds of any two entries with one value may be added. -/
theorem imp (along : m.Along R m')
    (sub : ∀ e ∈ m.entries, ∀ e' ∈ m'.entries, e.2 = e'.2 → R e.1 e'.1 → S e.1 e'.1) :
    m.Along S m' := by
  obtain ⟨length, all⟩ := List.forall₂_iff_zip.mp along
  refine List.forall₂_iff_zip.mpr ⟨length, fun {e e'} both => ?_⟩
  obtain ⟨here, there⟩ := List.of_mem_zip both
  exact ⟨sub e here e' there (all both).2 (all both).1, (all both).2⟩

theorem eq {m m' : OrdMap K V} (along : m.Along Eq m') : m = m' := by
  apply ext_entries
  refine List.forall₂_eq_eq_eq ▸ List.Forall₂.imp (fun e e' both => ?_) along
  exact Prod.ext both.1 both.2

/-- Maps with the same values run alongside each other, position by position. -/
theorem of_values (same : m.values = m'.values) :
    m.Along (fun k k' => (k, k') ∈ m.keys.zip m'.keys) m' := by
  rw [values, values] at same
  rw [Along, keys, keys]
  generalize m.entries = l, m'.entries = l' at same
  induction l generalizing l' with
  | nil =>
      cases l' with
      | nil => exact .nil
      | cons => cases same
  | cons e l ih =>
      cases l' with
      | nil => cases same
      | cons e' l' =>
          rw [List.map_cons, List.map_cons, List.cons.injEq] at same
          refine .cons ⟨List.mem_cons_self, same.1⟩ ((ih _ same.2).imp fun _ _ both => ?_)
          exact ⟨List.mem_cons_of_mem _ both.1, both.2⟩

theorem values_eq (along : m.Along R m') : m.values = m'.values := by
  rw [values, values]
  unfold Along at along
  generalize m.entries = l, m'.entries = l' at along
  induction along with
  | nil => rfl
  | cons both _ ih => rw [List.map_cons, List.map_cons, both.2, ih]

theorem length_eq (along : m.Along R m') : m.entries.length = m'.entries.length :=
  List.Forall₂.length_eq along

theorem insert (ordered : Ordered R) (along : m.Along R m') {k : K} {k' : K'} (keys : R k k')
    (v : V) : (m.insert k v).Along R (m'.insert k' v) := by
  refine List.rel_append (List.rel_filter ?_ along) (.cons ⟨keys, rfl⟩ (List.rel_filter ?_ along))
  · intro e e' both
    simp only [decide_eq_true_eq]
    exact ordered both.1 keys
  · intro e e' both
    simp only [decide_eq_true_eq]
    exact ordered keys both.1

theorem erase (ordered : Ordered R) (along : m.Along R m') {k : K} {k' : K'} (keys : R k k') :
    (m.erase k).Along R (m'.erase k') := by
  refine List.rel_filter ?_ along
  intro e e' both
  simp only [decide_eq_true_eq]
  exact not_congr (ordered.eq_iff both.1 keys)

theorem foldl_erase (ordered : Ordered R) (along : m.Along R m') {ks : List K} {ks' : List K'}
    (keys : List.Forall₂ R ks ks') : (ks.foldl OrdMap.erase m).Along R (ks'.foldl OrdMap.erase m') := by
  induction keys generalizing m m' with
  | nil => exact along
  | cons first _ ih => exact ih (along.erase ordered first)

theorem get_eq (ordered : Ordered R) (along : m.Along R m') {k : K} {k' : K'} (keys : R k k') :
    m.get k = m'.get k' := by
  rw [get, get]
  unfold Along at along
  generalize m.entries = l, m'.entries = l' at along
  induction along with
  | nil => rfl
  | @cons e e' _ _ both _ ih =>
      have same := ordered.eq_iff both.1 keys
      by_cases here : e.1 = k
      · rw [List.find?_cons_of_pos (by simpa using here),
          List.find?_cons_of_pos (by simpa using same.mp here), Option.map_some, Option.map_some,
          both.2]
      · rw [List.find?_cons_of_neg (by simpa using here),
          List.find?_cons_of_neg (by simpa using fun there => here (same.mpr there)), ih]

/-- A corresponding key is a key of the other map. -/
theorem mem_keys (along : m.Along R m') {k : K} (member : k ∈ m.keys) : ∃ k' ∈ m'.keys, R k k' := by
  rw [keys] at member ⊢
  unfold Along at along
  generalize m.entries = l, m'.entries = l' at along member
  induction along with
  | nil => exact absurd member List.not_mem_nil
  | cons both _ ih =>
      rcases List.mem_cons.mp member with rfl | later
      · exact ⟨_, List.mem_cons_self, both.1⟩
      · obtain ⟨k', inside, keys⟩ := ih later
        exact ⟨k', List.mem_cons_of_mem _ inside, keys⟩

theorem nil_iff (along : m.Along R m') : m.entries = [] ↔ m'.entries = [] := by
  rw [← List.length_eq_zero_iff, ← List.length_eq_zero_iff, along.length_eq]

/-- The maps have corresponding first entries. -/
theorem front (along : m.Along R m') {k : K} {v : V} {rest : List (K × V)}
    (front : m.entries = (k, v) :: rest) :
    ∃ k' rest', m'.entries = (k', v) :: rest' ∧ R k k' := by
  rw [Along, front] at along
  obtain ⟨⟨k', v'⟩, rest', ⟨keys, values⟩, -, entries⟩ := List.forall₂_cons_left_iff.mp along
  obtain rfl : v = v' := values
  exact ⟨k', rest', entries, keys⟩

end Along

end OrdMap
