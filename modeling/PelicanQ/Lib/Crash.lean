import PelicanQ.Lib.Program

/-! # Programs that write one record at a time

Where every call adds at most one record to a log, each initial part of what a
program has written by some point is all that it had written at an earlier
point.  A crash that keeps such a part therefore leaves what the program once
passed through.
-/

namespace Program

variable {Call : Type → Type 1} {ε α β σ ρ : Type} {handle : Handler Call σ}

/-- Every call adds at most one record. -/
def OneByOne (handle : Handler Call σ) (log : σ → List ρ) : Prop :=
  ∀ (β : Type) (c : Call β) (s : σ),
    ∃ added, added.length ≤ 1 ∧ log (handle β c s).2 = log s ++ added

namespace OneByOne

variable {log : σ → List ρ} {s t : σ}

/-- What has been written stays written. -/
theorem extended (oneByOne : OneByOne handle log) (p : Program Call ε α)
    (inside : t ∈ p.visits handle s) : ∃ added, log t = log s ++ added := by
  induction p generalizing s with
  | ret | fail | panic | diverge =>
      obtain rfl := List.mem_singleton.mp inside
      exact ⟨[], (List.append_nil _).symm⟩
  | call c next ih =>
      rcases List.mem_cons.mp inside with rfl | later
      · exact ⟨[], (List.append_nil _).symm⟩
      · obtain ⟨first, -, grown⟩ := oneByOne _ c s
        obtain ⟨rest, more⟩ := ih _ later
        exact ⟨first ++ rest, by rw [more, grown, List.append_assoc]⟩

theorem kept_visited (oneByOne : OneByOne handle log) (p : Program Call ε α)
    (inside : t ∈ p.visits handle s) {n : Nat} (kept : (log s).length ≤ n) :
    ∃ t' ∈ p.visits handle s, log t' = (log t).take n := by
  induction p generalizing s with
  | ret | fail | panic | diverge =>
      obtain rfl := List.mem_singleton.mp inside
      exact ⟨t, List.mem_singleton_self t, (List.take_of_length_le kept).symm⟩
  | call c next ih =>
      obtain ⟨added, one, grown⟩ := oneByOne _ c s
      rcases List.mem_cons.mp inside with rfl | later
      · exact ⟨t, List.mem_cons_self, (List.take_of_length_le kept).symm⟩
      · by_cases more : (log (handle _ c s).2).length ≤ n
        · obtain ⟨t', visited, same⟩ := ih _ later more
          exact ⟨t', List.mem_cons_of_mem _ visited, same⟩
        · -- Nothing of what this call or a later one wrote is kept.
          obtain ⟨rest, whole⟩ := oneByOne.extended _ inside
          have exactly : n = (log s).length := by
            rw [grown, List.length_append] at more
            omega
          exact ⟨s, List.mem_cons_self, by rw [whole, exactly, List.take_left]⟩

end OneByOne

/-- A sequence passes through what its first part does before it returns, and then through what
    its second part does. -/
theorem visits_bind_ok {p : Program Call ε α} {f : α → Program Call ε β} {s s' : σ} {a : α}
    (ran : p.run handle s = (.ok a, s')) :
    (p >>= f).visits handle s = (p.visits handle s).dropLast ++ (f a).visits handle s' := by
  induction p generalizing s with
  | ret b =>
      cases ran
      rfl
  | fail | panic | diverge => cases ran
  | call c next ih =>
      obtain ⟨t, rest, cons⟩ := List.exists_cons_of_ne_nil
        (List.ne_nil_of_mem (start_mem_visits handle (next (handle _ c s).1) (handle _ c s).2))
      change s :: (next _ >>= f).visits handle _ = (s :: (next _).visits handle _).dropLast ++ _
      rw [ih _ ran, cons]
      rfl

/-- A state inside the first part of a sequence is inside the sequence. -/
theorem mem_visits_bind_left {p : Program Call ε α} {f : α → Program Call ε β} {s t : σ}
    (inside : t ∈ p.visits handle s) : t ∈ (p >>= f).visits handle s := by
  induction p generalizing s with
  | ret a =>
      obtain rfl := List.mem_singleton.mp inside
      exact start_mem_visits handle (f a) t
  | fail | panic | diverge => exact inside
  | call c next ih =>
      rcases List.mem_cons.mp inside with rfl | later
      · exact List.mem_cons_self
      · exact List.mem_cons_of_mem _ (ih _ later)

/-- A last part that only returns passes through nothing new. -/
theorem mem_visits_of_map {p : Program Call ε α} {f : α → β} {s t : σ}
    (inside : t ∈ (p >>= fun a => .ret (f a)).visits handle s) : t ∈ p.visits handle s := by
  rcases mem_visits_bind handle inside with first | ⟨a, -, last⟩
  · exact first
  · rw [List.mem_singleton.mp last]
    exact run_mem_visits handle p s

/-- A part passes through what its own piece of the state does. -/
theorem visits_embed {Call' : Type → Type 1} {ε' τ : Type} {inject : {γ : Type} → Call γ → Call' γ}
    {handle' : Handler Call' τ} (get : τ → σ) (set : τ → σ → τ)
    (get_set : ∀ t s, get (set t s) = s) (set_set : ∀ t s s', set (set t s) s' = set t s')
    (set_get : ∀ t, set t (get t) = t)
    (injected : ∀ (γ : Type) (c : Call γ) (t : τ), handle' γ (inject c) t =
      ((handle γ c (get t)).1, set t (handle γ c (get t)).2))
    (p : Program Call ε α) (t : τ) :
    (p.embed inject : Program Call' ε' (Except ε α)).visits handle' t =
      (p.visits handle (get t)).map (set t) := by
  induction p generalizing t with
  | ret | fail | panic | diverge => exact (congrArg (fun t => [t]) (set_get t)).symm
  | call c next ih =>
      simp only [embed, visits, injected, ih, get_set, List.map_cons, set_get]
      exact congrArg (t :: ·) (List.map_congr_left fun s _ => set_set t _ s)

end Program
