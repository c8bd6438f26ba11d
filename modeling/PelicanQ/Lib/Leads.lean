import PelicanQ.Lib.Program

/-! # Where a program leads

A relation between the states before and after: reflexive and transitive, so that
what each part of a program keeps to, the whole program keeps to.  Likewise an
invariant under which each part returns.
-/

namespace Program

variable {Call : Type → Type 1} {ε α β σ : Type} {handle : Handler Call σ}

/-- Wherever it starts, the program leaves a related state. -/
def Leads (handle : Handler Call σ) (R : σ → σ → Prop) (p : Program Call ε α) : Prop :=
  ∀ s, R s (p.run handle s).2

variable {R : σ → σ → Prop} {p : Program Call ε α}

theorem Leads.ret (refl : ∀ s, R s s) (a : α) : (.ret a : Program Call ε α).Leads handle R := refl

theorem Leads.fail (refl : ∀ s, R s s) (e : ε) : (.fail e : Program Call ε α).Leads handle R := refl

theorem Leads.ask {c : Call α} (step : ∀ s, R s (handle _ c s).2) :
    (Program.ask c : Program Call ε α).Leads handle R := step

/-- Nothing is asked of how the program ends. -/
theorem Ends.any {value : α → Prop} {error : ε → Prop} (values : ∀ a, value a)
    (errors : ∀ e, error e) (p : Program Call ε α) : p.Ends value error := by
  induction p with
  | ret a => exact values a
  | fail e => exact errors e
  | panic | diverge => trivial
  | call c next ih => exact fun answer => ih answer

/-- A sequence, where something is known of what its first part ends with. -/
theorem Leads.bind_ends {value : α → Prop} {error : ε → Prop} {f : α → Program Call ε β}
    (ends : p.Ends value error) (first : p.Leads handle R)
    (rest : ∀ a, value a → (f a).Leads handle R) (trans : ∀ s t u, R s t → R t u → R s u) :
    (p >>= f).Leads handle R := by
  intro s
  have led := first s
  rw [run_bind]
  cases ran : p.run handle s with
  | mk outcome t =>
      rw [ran] at led
      cases outcome with
      | ok a => exact trans s t _ led (rest a (ends.ok (congrArg Prod.fst ran)) t)
      | err | panicked | diverged => exact led

theorem Leads.bind {f : α → Program Call ε β} (first : p.Leads handle R)
    (rest : ∀ a, (f a).Leads handle R) (trans : ∀ s t u, R s t → R t u → R s u) :
    (p >>= f).Leads handle R :=
  .bind_ends (.any (fun _ => trivial) (fun _ => trivial) p) first (fun a _ => rest a) trans

theorem Leads.attempt (leads : p.Leads handle R) : p.attempt.Leads handle R := by
  intro s
  rw [run_attempt]
  exact leads s

/-- A part that leads somewhere in its own piece of the state leads there in the whole. -/
theorem Leads.embed {Call' : Type → Type 1} {ε' τ : Type} {inject : {γ : Type} → Call γ → Call' γ}
    {handle' : Handler Call' τ} (get : τ → σ) (set : τ → σ → τ)
    (get_set : ∀ t s, get (set t s) = s) (set_set : ∀ t s s', set (set t s) s' = set t s')
    (set_get : ∀ t, set t (get t) = t)
    (injected : ∀ (γ : Type) (c : Call γ) (t : τ), handle' γ (inject c) t =
      ((handle γ c (get t)).1, set t (handle γ c (get t)).2))
    {R' : τ → τ → Prop} (lifts : ∀ t s, R (get t) s → R' t (set t s))
    (leads : p.Leads handle R) :
    (p.embed inject : Program Call' ε' (Except ε α)).Leads handle' R' := by
  intro t
  rw [run_embed handle get set get_set set_set set_get injected]
  exact lifts t _ (leads (get t))

/-- Where the invariant holds the program returns, and the invariant still holds. -/
def Returns (handle : Handler Call σ) (Inv : σ → Prop) (p : Program Call ε α) : Prop :=
  ∀ s, Inv s → (p.run handle s).1.returns = true ∧ Inv (p.run handle s).2

variable {Inv : σ → Prop}

theorem Returns.ret (a : α) : (.ret a : Program Call ε α).Returns handle Inv :=
  fun _ holds => ⟨rfl, holds⟩

theorem Returns.fail (e : ε) : (.fail e : Program Call ε α).Returns handle Inv :=
  fun _ holds => ⟨rfl, holds⟩

theorem Returns.ask {c : Call α} (step : ∀ s, Inv s → Inv (handle _ c s).2) :
    (Program.ask c : Program Call ε α).Returns handle Inv :=
  fun s holds => ⟨rfl, step s holds⟩

theorem Returns.bind {f : α → Program Call ε β} (first : p.Returns handle Inv)
    (rest : ∀ a, (f a).Returns handle Inv) : (p >>= f).Returns handle Inv := by
  intro s holds
  obtain ⟨returned, after⟩ := first s holds
  rw [run_bind]
  cases ran : p.run handle s with
  | mk outcome t =>
      rw [ran] at returned after
      cases outcome with
      | ok a => exact rest a t after
      | err e => exact ⟨rfl, after⟩
      | panicked | diverged => cases returned

theorem Returns.attempt (returns : p.Returns handle Inv) : p.attempt.Returns handle Inv := by
  intro s holds
  rw [run_attempt, Outcome.returns_caught]
  exact returns s holds

/-- A sequence ends as its last part does. -/
theorem Ends.last {value : β → Prop} {error : ε → Prop} {p : Program Call ε α}
    {f : α → Program Call ε β} (errors : ∀ e, error e) (rest : ∀ a, (f a).Ends value error) :
    (p >>= f).Ends value error :=
  (Ends.any (fun _ => True.intro) errors p).bind fun a _ => rest a

end Program
