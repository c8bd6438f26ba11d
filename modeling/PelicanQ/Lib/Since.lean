import Mathlib.Data.List.Induction

/-! # Since

Something happened at some point of a history, and everything after it is of a kind.
-/

/-- An entry with `P`, and only entries with `Q` after it. -/
def Since {α : Type*} (P Q : α → Prop) (history : List α) : Prop :=
  ∃ earlier a later, history = earlier ++ a :: later ∧ P a ∧ ∀ b ∈ later, Q b

section Since

variable {α : Type*} {P Q : α → Prop}

theorem since_nil : ¬ Since P Q [] := by
  rintro ⟨earlier, a, later, nothing, -⟩
  simp at nothing

/-- The splits of a list with one more at the end. -/
theorem split_snoc {history earlier later : List α} {a last : α}
    (split : history ++ [last] = earlier ++ a :: later) :
    (later = [] ∧ history = earlier ∧ last = a) ∨
      ∃ later', later = later' ++ [last] ∧ history = earlier ++ a :: later' := by
  rcases List.eq_nil_or_concat later with rfl | ⟨later', b, rfl⟩
  · obtain ⟨front, same⟩ := List.append_inj' split rfl
    exact .inl ⟨rfl, front, (List.cons.inj same).1⟩
  · rw [List.concat_eq_append, ← List.cons_append, ← List.append_assoc] at split
    obtain ⟨front, same⟩ := List.append_inj' split rfl
    exact .inr ⟨later', by rw [List.concat_eq_append, (List.cons.inj same).1], front⟩

/-- It is the last entry, or an earlier one and the last is of the kind. -/
theorem since_snoc {history : List α} {last : α} :
    Since P Q (history ++ [last]) ↔ P last ∨ (Since P Q history ∧ Q last) := by
  constructor
  · rintro ⟨earlier, a, later, split, happened, kept⟩
    rcases split_snoc split with ⟨-, -, rfl⟩ | ⟨later', rfl, front⟩
    · exact .inl happened
    · refine .inr ⟨⟨earlier, a, later', front, happened, fun b member => ?_⟩, ?_⟩
      · exact kept b (List.mem_append_left _ member)
      · exact kept last (List.mem_append_right _ (List.mem_singleton_self last))
  · rintro (happened | ⟨⟨earlier, a, later, rfl, happened, kept⟩, still⟩)
    · exact ⟨history, last, [], rfl, happened, fun _ member => absurd member List.not_mem_nil⟩
    · refine ⟨earlier, a, later ++ [last], by simp, happened, fun b member => ?_⟩
      rcases List.mem_append.mp member with old | new
      · exact kept b old
      · rw [List.mem_singleton.mp new]
        exact still

/-- It is in the later part, or in the earlier and the whole later part is of the kind. -/
theorem since_append {history more : List α} :
    Since P Q (history ++ more) ↔ Since P Q more ∨ (Since P Q history ∧ ∀ b ∈ more, Q b) := by
  induction more using List.reverseRecOn with
  | nil => simp [since_nil]
  | append_singleton more last ih =>
      rw [← List.append_assoc, since_snoc, since_snoc, ih, List.forall_mem_append,
        List.forall_mem_singleton]
      tauto

/-- If there is an entry with `P`, there is a last one. -/
theorem exists_since {history : List α} (happened : ∃ a ∈ history, P a) :
    Since P (fun a => ¬ P a) history := by
  induction history using List.reverseRecOn with
  | nil =>
      obtain ⟨a, member, -⟩ := happened
      exact absurd member List.not_mem_nil
  | append_singleton history last ih =>
      rw [since_snoc]
      by_cases now : P last
      · exact .inl now
      · refine .inr ⟨ih ?_, now⟩
        obtain ⟨a, member, holds⟩ := happened
        rcases List.mem_append.mp member with old | new
        · exact ⟨a, old, holds⟩
        · exact absurd (List.mem_singleton.mp new ▸ holds) now

end Since
