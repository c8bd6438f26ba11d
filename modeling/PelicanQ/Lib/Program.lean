import Mathlib

/-! # Programs over a signature of calls

A fallible function that talks to outside services is a tree: it returns,
raises an error, panics, or makes one call and goes on with the answer.  What
the services do is a handler, supplied only when the program is run, so one
program text can be run against a whole machine, observed call by call, or
bounded in what it may touch.
-/

/-- How a function ends: with a value, with an error it reports, with a panic,
    or never. -/
inductive Outcome (ε α : Type) where
  | ok (value : α)
  | err (error : ε)
  | panicked
  | diverged
  deriving DecidableEq, Repr

/-- Go on from an outcome and the state it left: only a value lets the rest run. -/
def Outcome.andThen {ε α β σ : Type} (r : Outcome ε α × σ) (rest : α → σ → Outcome ε β × σ) :
    Outcome ε β × σ :=
  match r with
  | (.ok a, s) => rest a s
  | (.err e, s) => (.err e, s)
  | (.panicked, s) => (.panicked, s)
  | (.diverged, s) => (.diverged, s)

/-- How a part looks to the program around it: errors are values. -/
def Outcome.caught {ε ε' α : Type} : Outcome ε α → Outcome ε' (Except ε α)
  | .ok a => .ok (.ok a)
  | .err e => .ok (.error e)
  | .panicked => .panicked
  | .diverged => .diverged

/-- Control comes back, with a value or an error. -/
def Outcome.returns {ε α : Type} : Outcome ε α → Bool
  | .ok _ | .err _ => true
  | .panicked | .diverged => false

section

variable {ε α β σ : Type}

@[simp] theorem Outcome.andThen_ok (a : α) (s : σ) (rest : α → σ → Outcome ε β × σ) :
    Outcome.andThen (.ok a, s) rest = rest a s := rfl

@[simp] theorem Outcome.andThen_err (e : ε) (s : σ) (rest : α → σ → Outcome ε β × σ) :
    Outcome.andThen (.err e, s) rest = (.err e, s) := rfl

@[simp] theorem Outcome.andThen_panicked (s : σ) (rest : α → σ → Outcome ε β × σ) :
    Outcome.andThen (.panicked, s) rest = (.panicked, s) := rfl

@[simp] theorem Outcome.andThen_diverged (s : σ) (rest : α → σ → Outcome ε β × σ) :
    Outcome.andThen (.diverged, s) rest = (.diverged, s) := rfl

theorem Outcome.returns_caught {ε' : Type} (outcome : Outcome ε α) :
    (outcome.caught : Outcome ε' (Except ε α)).returns = outcome.returns := by
  cases outcome <;> rfl

/-- A last part that always returns raises no error of its own. -/
theorem Outcome.andThen_returns_err {r : Outcome ε α × σ} {f : α → β} {e : ε} {t : σ} :
    Outcome.andThen r (fun a s => (.ok (f a), s)) = (.err e, t) ↔ r = (.err e, t) := by
  obtain ⟨outcome, s⟩ := r
  cases outcome with
  | ok a => exact ⟨nofun, nofun⟩
  | err | panicked | diverged => simp

/-- What holds after a part and after whatever is done with its outcome. -/
theorem Outcome.andThen_keeps {ε' : Type} (Inv : σ → Prop) {r : Outcome ε α × σ}
    {rest : Except ε α → σ → Outcome ε' β × σ} (first : Inv r.2)
    (second : ∀ result, Inv (rest result r.2).2) :
    Inv (Outcome.andThen (r.1.caught, r.2) rest).2 := by
  obtain ⟨outcome, s⟩ := r
  cases outcome with
  | ok value => exact second (.ok value)
  | err e => exact second (.error e)
  | panicked => exact first
  | diverged => exact first

end

/-- A function that makes calls `Call`, may fail with `ε` and returns `α`. -/
inductive Program (Call : Type → Type 1) (ε α : Type) : Type 1 where
  | ret (value : α)
  | fail (error : ε)
  | panic
  | diverge
  | call {β : Type} (c : Call β) (next : β → Program Call ε α)

/-- An answer to every call, with the state it leaves. -/
abbrev Handler (Call : Type → Type 1) (σ : Type) := (β : Type) → Call β → σ → β × σ

namespace Program

variable {Call : Type → Type 1} {ε α β σ : Type}

def bind : Program Call ε α → (α → Program Call ε β) → Program Call ε β
  | .ret a, f => f a
  | .fail e, _ => .fail e
  | .panic, _ => .panic
  | .diverge, _ => .diverge
  | .call c next, f => .call c fun b => (next b).bind f

instance : Monad (Program Call ε) where
  pure := .ret
  bind := bind

@[simp] theorem pure_eq (a : α) : (pure a : Program Call ε α) = .ret a := rfl

@[simp] theorem ret_bind (a : α) (f : α → Program Call ε β) : (.ret a >>= f) = f a := rfl

@[simp] theorem fail_bind (e : ε) (f : α → Program Call ε β) :
    ((.fail e : Program Call ε α) >>= f) = .fail e := rfl

@[simp] theorem panic_bind (f : α → Program Call ε β) :
    ((.panic : Program Call ε α) >>= f) = .panic := rfl

@[simp] theorem diverge_bind (f : α → Program Call ε β) :
    ((.diverge : Program Call ε α) >>= f) = .diverge := rfl

@[simp] theorem call_bind {γ : Type} (c : Call γ) (next : γ → Program Call ε α)
    (f : α → Program Call ε β) : (.call c next >>= f) = .call c fun b => next b >>= f := rfl

theorem bind_assoc {γ : Type} (p : Program Call ε α) (f : α → Program Call ε β)
    (g : β → Program Call ε γ) : p >>= f >>= g = p >>= fun a => f a >>= g := by
  induction p with
  | ret | fail | panic | diverge => rfl
  | call c next ih => exact congrArg (Program.call c) (funext ih)

@[simp] theorem bind_ret (p : Program Call ε α) : p >>= .ret = p := by
  induction p with
  | ret | fail | panic | diverge => rfl
  | call c next ih => exact congrArg (Program.call c) (funext ih)

/-- Make one call and return its answer. -/
def ask (c : Call α) : Program Call ε α := .call c .ret

/-- Run a program against a handler.  The state reached is kept whichever way
    the program ends, as an object behind a mutable reference is. -/
def run (handle : Handler Call σ) : Program Call ε α → σ → Outcome ε α × σ
  | .ret a, s => (.ok a, s)
  | .fail e, s => (.err e, s)
  | .panic, s => (.panicked, s)
  | .diverge, s => (.diverged, s)
  | .call c next, s => (next (handle _ c s).1).run handle (handle _ c s).2

variable (handle : Handler Call σ)

@[simp] theorem run_ret (a : α) (s : σ) :
    (.ret a : Program Call ε α).run handle s = (.ok a, s) := rfl

@[simp] theorem run_fail (e : ε) (s : σ) :
    (.fail e : Program Call ε α).run handle s = (.err e, s) := rfl

@[simp] theorem run_panic (s : σ) :
    (.panic : Program Call ε α).run handle s = (.panicked, s) := rfl

@[simp] theorem run_diverge (s : σ) :
    (.diverge : Program Call ε α).run handle s = (.diverged, s) := rfl

@[simp] theorem run_call (c : Call β) (next : β → Program Call ε α) (s : σ) :
    (.call c next : Program Call ε α).run handle s =
      (next (handle _ c s).1).run handle (handle _ c s).2 := rfl

@[simp] theorem run_ask_bind (c : Call β) (next : β → Program Call ε α) (s : σ) :
    (ask c >>= next).run handle s = (next (handle _ c s).1).run handle (handle _ c s).2 := rfl

theorem run_bind (p : Program Call ε α) (f : α → Program Call ε β) (s : σ) :
    (p >>= f).run handle s = Outcome.andThen (p.run handle s) fun a t => (f a).run handle t := by
  induction p generalizing s with
  | ret | fail | panic | diverge => rfl
  | call c next ih => exact ih _ _

/-- A sequence that returns has both its parts return. -/
theorem run_bind_ok {handle : Handler Call σ} {p : Program Call ε α} {f : α → Program Call ε β}
    {s t : σ} {b : β} (ran : (p >>= f).run handle s = (.ok b, t)) :
    ∃ a u, p.run handle s = (.ok a, u) ∧ (f a).run handle u = (.ok b, t) := by
  rw [run_bind] at ran
  cases first : p.run handle s with
  | mk outcome u =>
      rw [first] at ran
      cases outcome with
      | ok a => exact ⟨a, u, rfl, ran⟩
      | err | panicked | diverged => cases ran

/-! ## Programs inside programs -/

/-- Run a program as part of one with more calls; how it ends is a value there.
    Panics are not caught. -/
def embed {Call' : Type → Type 1} {ε' : Type} (inject : {γ : Type} → Call γ → Call' γ) :
    Program Call ε α → Program Call' ε' (Except ε α)
  | .ret a => .ret (.ok a)
  | .fail e => .ret (.error e)
  | .panic => .panic
  | .diverge => .diverge
  | .call c next => .call (inject c) fun answer => (next answer).embed inject

/-- Run a program and look at how it ended. -/
def attempt (p : Program Call ε α) : Program Call ε (Except ε α) := p.embed id

/-- A part sees and changes its own piece of the state. -/
theorem run_embed {Call' : Type → Type 1} {ε' τ : Type} {inject : {γ : Type} → Call γ → Call' γ}
    {handle' : Handler Call' τ} (get : τ → σ) (set : τ → σ → τ)
    (get_set : ∀ t s, get (set t s) = s) (set_set : ∀ t s s', set (set t s) s' = set t s')
    (set_get : ∀ t, set t (get t) = t)
    (injected : ∀ (γ : Type) (c : Call γ) (t : τ), handle' γ (inject c) t =
      ((handle γ c (get t)).1, set t (handle γ c (get t)).2))
    (p : Program Call ε α) (t : τ) :
    (p.embed inject : Program Call' ε' (Except ε α)).run handle' t =
      ((p.run handle (get t)).1.caught, set t (p.run handle (get t)).2) := by
  induction p generalizing t with
  | ret | fail | panic | diverge =>
      simp only [embed, run_ret, run_fail, run_panic, run_diverge, Outcome.caught, set_get]
  | call c next ih => rw [embed, run_call, run_call, injected, ih, get_set, set_set]

theorem run_attempt (p : Program Call ε α) (s : σ) :
    p.attempt.run handle s = ((p.run handle s).1.caught, (p.run handle s).2) :=
  run_embed handle id (fun _ s => s) (fun _ _ => rfl) (fun _ _ _ => rfl) (fun _ => rfl)
    (fun _ _ _ => rfl) p s

/-- Looking at how a sequence ended is looking at how its parts did. -/
theorem attempt_bind (p : Program Call ε α) (f : α → Program Call ε β) :
    (p >>= f).attempt = p.attempt >>= fun result =>
      match result with
      | .ok a => (f a).attempt
      | .error e => .ret (.error e) := by
  induction p with
  | ret | fail | panic | diverge => rfl
  | call c next ih => exact congrArg (Program.call c) (funext ih)

/-! ## What a program passes through -/

/-- The states between the calls of a program, from the first to the last. -/
def visits : Program Call ε α → σ → List σ
  | .ret _, s => [s]
  | .fail _, s => [s]
  | .panic, s => [s]
  | .diverge, s => [s]
  | .call c next, s => s :: (next (handle _ c s).1).visits (handle _ c s).2

theorem start_mem_visits (p : Program Call ε α) (s : σ) : s ∈ p.visits handle s := by
  cases p with
  | ret | fail | panic | diverge => exact List.mem_singleton_self s
  | call c next => exact List.mem_cons_self

theorem run_mem_visits (p : Program Call ε α) (s : σ) : (p.run handle s).2 ∈ p.visits handle s := by
  induction p generalizing s with
  | ret | fail | panic | diverge => exact List.mem_singleton_self s
  | call c next ih => exact List.mem_cons_of_mem _ (ih _ _)

theorem visits_getLast? (p : Program Call ε α) (s : σ) :
    (p.visits handle s).getLast? = some (p.run handle s).2 := by
  induction p generalizing s with
  | ret | fail | panic | diverge => rfl
  | call c next ih =>
      rw [visits, List.getLast?_cons, ih]
      rfl

/-- A state inside a sequence is inside its first part, or inside its second part after the
    first has returned. -/
theorem mem_visits_bind {p : Program Call ε α} {f : α → Program Call ε β} {s t : σ} :
    t ∈ (p >>= f).visits handle s → t ∈ p.visits handle s ∨
      ∃ a, (p.run handle s).1 = .ok a ∧ t ∈ (f a).visits handle (p.run handle s).2 := by
  induction p generalizing s with
  | ret a => exact fun inside => .inr ⟨a, rfl, inside⟩
  | fail | panic | diverge => exact .inl
  | call c next ih =>
      intro inside
      rcases List.mem_cons.mp inside with rfl | later
      · exact .inl List.mem_cons_self
      · exact (ih _ later).imp_left (List.mem_cons_of_mem _)

/-! ## What a program may call -/

/-- Whatever the answers are, the program makes only allowed calls. -/
def Only (allowed : (β : Type) → Call β → Prop) : Program Call ε α → Prop
  | .ret _ => True
  | .fail _ => True
  | .panic => True
  | .diverge => True
  | .call c next => allowed _ c ∧ ∀ answer, (next answer).Only allowed

variable {allowed : (β : Type) → Call β → Prop}

theorem Only.bind {p : Program Call ε α} {f : α → Program Call ε β} (first : p.Only allowed)
    (rest : ∀ a, (f a).Only allowed) : (p >>= f).Only allowed := by
  induction p with
  | ret a => exact rest a
  | fail | panic | diverge => trivial
  | call c next ih => exact ⟨first.1, fun answer => ih answer (first.2 answer)⟩

theorem Only.ask {c : Call α} (ok : allowed _ c) :
    (Program.ask c : Program Call ε α).Only allowed :=
  ⟨ok, fun _ => trivial⟩

theorem Only.mono {wider : (β : Type) → Call β → Prop} {p : Program Call ε α}
    (only : p.Only allowed) (le : ∀ β c, allowed β c → wider β c) : p.Only wider := by
  induction p with
  | ret | fail | panic | diverge => trivial
  | call c next ih => exact ⟨le _ c only.1, fun answer => ih answer (only.2 answer)⟩

theorem Only.embed {Call' : Type → Type 1} {ε' : Type} {inject : {γ : Type} → Call γ → Call' γ}
    {allowed' : (β : Type) → Call' β → Prop} {p : Program Call ε α}
    (only : p.Only fun _ c => allowed' _ (inject c)) :
    (p.embed inject : Program Call' ε' (Except ε α)).Only allowed' := by
  induction p with
  | ret | fail | panic | diverge => trivial
  | call c next ih => exact ⟨only.1, fun answer => ih answer (only.2 answer)⟩

theorem Only.ite {p q : Program Call ε α} {c : Prop} [Decidable c] (first : p.Only allowed)
    (second : q.Only allowed) : (if c then p else q).Only allowed := by
  split_ifs
  · exact first
  · exact second

variable {handle}

/-- What every allowed call keeps holds all along the program. -/
theorem Only.visits_keep (kept : σ → Prop)
    (step : ∀ (β : Type) (c : Call β) (s : σ), allowed β c → kept s → kept (handle β c s).2)
    {p : Program Call ε α} (only : p.Only allowed) {s t : σ} (start : kept s)
    (inside : t ∈ p.visits handle s) : kept t := by
  induction p generalizing s with
  | ret | fail | panic | diverge => exact List.mem_singleton.mp inside ▸ start
  | call c next ih =>
      rcases List.mem_cons.mp inside with rfl | later
      · exact start
      · exact ih _ (only.2 _) (step _ c s only.1 start) later

/-- What every allowed call keeps, the program keeps. -/
theorem Only.preserves (kept : σ → Prop)
    (step : ∀ (β : Type) (c : Call β) (s : σ), allowed β c → kept s → kept (handle β c s).2)
    {p : Program Call ε α} (only : p.Only allowed) {s : σ} (start : kept s) :
    kept (p.run handle s).2 :=
  only.visits_keep kept step start (run_mem_visits handle p s)

theorem only_any (p : Program Call ε α) : p.Only fun _ _ => True := by
  induction p with
  | ret | fail | panic | diverge => trivial
  | call c next ih => exact ⟨trivial, ih⟩

/-- What every call keeps holds all along a program. -/
theorem visits_keep (kept : σ → Prop)
    (step : ∀ (γ : Type) (c : Call γ) (s : σ), kept s → kept (handle γ c s).2)
    (p : Program Call ε α) {s t : σ} (start : kept s) (inside : t ∈ p.visits handle s) : kept t :=
  p.only_any.visits_keep kept (fun γ c s _ => step γ c s) start inside

/-! ## How a program may end -/

/-- Whatever the answers are, the values returned and the errors raised are among the given ones. -/
def Ends (value : α → Prop) (error : ε → Prop) : Program Call ε α → Prop
  | .ret a => value a
  | .fail e => error e
  | .panic => True
  | .diverge => True
  | .call _ next => ∀ answer, (next answer).Ends value error

section Ends

variable {value : α → Prop} {error : ε → Prop} {p : Program Call ε α}

theorem Ends.bind {value' : β → Prop} {f : α → Program Call ε β} (first : p.Ends value error)
    (rest : ∀ a, value a → (f a).Ends value' error) : (p >>= f).Ends value' error := by
  induction p with
  | ret a => exact rest a first
  | fail => exact first
  | panic | diverge => trivial
  | call c next ih => exact fun answer => ih answer (first answer)

theorem Ends.mono {value' : α → Prop} (ends : p.Ends value error)
    (weaker : ∀ a, value a → value' a) : p.Ends value' error := by
  induction p with
  | ret a => exact weaker a ends
  | fail => exact ends
  | panic | diverge => trivial
  | call c next ih => exact fun answer => ih answer (ends answer)

theorem Ends.ask {c : Call α} (all : ∀ a, value a) :
    (Program.ask c : Program Call ε α).Ends value error := all

theorem Ends.ite {q : Program Call ε α} {c : Prop} [Decidable c] (first : p.Ends value error)
    (second : q.Ends value error) : (if c then p else q).Ends value error := by
  split_ifs
  · exact first
  · exact second

theorem Ends.ok (ends : p.Ends value error) {s : σ} {a : α} (ran : (p.run handle s).1 = .ok a) :
    value a := by
  induction p generalizing s with
  | ret b =>
      cases ran
      exact ends
  | fail | panic | diverge => cases ran
  | call c next ih => exact ih _ (ends _) ran

theorem Ends.err (ends : p.Ends value error) {s : σ} {e : ε} (ran : (p.run handle s).1 = .err e) :
    error e := by
  induction p generalizing s with
  | fail e' =>
      cases ran
      exact ends
  | ret | panic | diverge => cases ran
  | call c next ih => exact ih _ (ends _) ran

/-- A sequence makes only allowed calls, where something is known of what its first part ends
    with. -/
theorem Only.bind_ends {allowed : (γ : Type) → Call γ → Prop} {f : α → Program Call ε β}
    (ends : p.Ends value error) (first : p.Only allowed)
    (rest : ∀ a, value a → (f a).Only allowed) : (p >>= f).Only allowed := by
  induction p with
  | ret a => exact rest a ends
  | fail | panic | diverge => trivial
  | call c next ih => exact ⟨first.1, fun answer => ih answer (ends answer) (first.2 answer)⟩

end Ends

end Program
