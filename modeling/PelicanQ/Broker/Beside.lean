import PelicanQ.Broker.Twins

/-! # Brokers side by side

Two brokers with the same queues, each a twin of its counterpart, and whatever
else is to be compared of them.  An operation that finds the same in both
answers alike and leaves them side by side; it is enough to look at the queue
the operation is on.
-/

namespace PelicanQ

/-- Brokers whose queues are twins, and related by `P` besides. -/
def Beside (ids ids' : Nat → UInt64) (P : String → QueueState → QueueState → Prop)
    (b b' : Broker) : Prop :=
  ∀ name, Option.Rel (fun st st' =>
    (∃ L : Links, L.Valid ids ids' b.drawn b'.drawn ∧ Twin L st st') ∧ P name st st')
      (b.queue name) (b'.queue name)

/-- A queue and its counterpart. -/
structure Counterparts (ids ids' : Nat → UInt64) (P : String → QueueState → QueueState → Prop)
    (b b' : Broker) (name : String) (st st' : QueueState) (L : Links) : Prop where
  declared : b.queue name = some st
  declared' : b'.queue name = some st'
  valid : L.Valid ids ids' b.drawn b'.drawn
  twin : Twin L st st'
  related : P name st st'

namespace Beside

variable {bc : Bincode} {ids ids' : Nat → UInt64} {P : String → QueueState → QueueState → Prop}
  {b b' : Broker} {clock clock' : Nat → Int64}

/-- A queue is in neither broker or in both. -/
theorem cases (beside : Beside ids ids' P b b') (name : String) :
    (b.queue name = none ∧ b'.queue name = none) ∨
      ∃ st st' L, Counterparts ids ids' P b b' name st st' L := by
  have both := beside name
  cases declared : b.queue name with
  | none =>
      cases declared' : b'.queue name with
      | none => exact .inl ⟨rfl, rfl⟩
      | some st' => rw [declared, declared'] at both; cases both
  | some st =>
      cases declared' : b'.queue name with
      | none => rw [declared, declared'] at both; cases both
      | some st' =>
          rw [declared, declared'] at both
          cases both with
          | some related =>
              obtain ⟨⟨L, valid, twin⟩, related⟩ := related
              exact .inr ⟨st, st', L, declared, declared', valid, twin, related⟩

theorem empty (none : b.queues = .empty) (none' : b'.queues = .empty) : Beside ids ids' P b b' := by
  intro name
  rw [Broker.queue, Broker.queue, none, none', OrdMap.get_empty]
  exact .none

theorem imp {Q : String → QueueState → QueueState → Prop} (beside : Beside ids ids' P b b')
    (implies : ∀ name st st', P name st st' → Q name st st') : Beside ids ids' Q b b' := by
  intro name
  rcases beside.cases name with ⟨none, none'⟩ | ⟨st, st', L, both⟩
  · rw [none, none']
    exact .none
  · rw [both.declared, both.declared']
    exact .some ⟨⟨L, both.valid, both.twin⟩, implies name st st' both.related⟩

/-- Only the queue an operation is on has to be looked at. -/
theorem step (beside : Beside ids ids' P b b') {b₁ b₁' : Broker} {q : String}
    (drawn : b.drawn ≤ b₁.drawn) (drawn' : b'.drawn ≤ b₁'.drawn)
    (others : ∀ name, name ≠ q → b₁.queue name = b.queue name)
    (others' : ∀ name, name ≠ q → b₁'.queue name = b'.queue name)
    (here : Option.Rel (fun st st' =>
      (∃ L : Links, L.Valid ids ids' b₁.drawn b₁'.drawn ∧ Twin L st st') ∧ P q st st')
        (b₁.queue q) (b₁'.queue q)) : Beside ids ids' P b₁ b₁' := by
  intro name
  by_cases same : name = q
  · subst same
    exact here
  · rw [others name same, others' name same]
    rcases beside.cases name with ⟨none, none'⟩ | ⟨st, st', L, both⟩
    · rw [none, none']
      exact .none
    · rw [both.declared, both.declared']
      exact .some ⟨⟨L, both.valid.later drawn drawn', both.twin⟩, both.related⟩

variable (clock clock') in
/-- An operation that finds the same in both brokers. -/
theorem perform (beside : Beside ids ids' P b b') {op : Operation} {q : String}
    (on : op.on = some q) (admits : b.Admits bc op) (admits' : b'.Admits bc op)
    (fresh : ∀ policy, P q (.fresh policy) (.fresh policy))
    (finds : ∀ st st' L, Counterparts ids ids' P b b' q st st' L →
      Finds L clock clock' st st' op op ∧
        P q (st.moves ids b.drawn (st.script clock op).2)
          (st'.moves ids' b'.drawn (st'.script clock' op).2))
    (increasing : StrictMonoOn ids (Set.Iio (b.perform bc ids clock op).2.drawn))
    (increasing' : StrictMonoOn ids' (Set.Iio (b'.perform bc ids' clock' op).2.drawn)) :
    SameAnswer (fun _ _ => True) op op (b.perform bc ids clock op).1
        (b'.perform bc ids' clock' op).1 ∧
      Beside ids ids' P (b.perform bc ids clock op).2 (b'.perform bc ids' clock' op).2 := by
  have others (name : String) (different : name ≠ q) :
      (b.perform bc ids clock op).2.queue name = b.queue name :=
    Broker.perform_queue_other bc ids clock on different
  have others' (name : String) (different : name ≠ q) :
      (b'.perform bc ids' clock' op).2.queue name = b'.queue name :=
    Broker.perform_queue_other bc ids' clock' on different
  rcases beside.cases q with ⟨undeclared, undeclared'⟩ | ⟨st, st', L, both⟩
  · rcases Broker.perform_undeclared bc ids clock on undeclared with
      ⟨policy, rfl, answer, queue, drawn⟩ | ⟨response, missing, answer, after⟩
    · rcases Broker.perform_undeclared bc ids' clock' on undeclared' with
        ⟨_, same, answer', queue', drawn'⟩ | ⟨_, impossible, -⟩
      · cases same
        refine ⟨by rw [answer, answer']; exact .same _ _ rfl, beside.step drawn.ge drawn'.ge others
          others' ?_⟩
        rw [queue, queue']
        exact .some ⟨⟨.ofIds fun _ _ => False, .none .., .fresh _ policy⟩, fresh policy⟩
      · cases impossible
    · rcases Broker.perform_undeclared bc ids' clock' on undeclared' with
        ⟨policy, rfl, -⟩ | ⟨response', missing', answer', after'⟩
      · cases missing
      · rw [missing] at missing'
        cases missing'
        rw [answer, answer', after, after']
        exact ⟨.same _ _ (op.missing_tag missing), beside⟩
  · obtain ⟨found, kept⟩ := finds st st' L both
    obtain ⟨answer, after⟩ := Broker.perform_script bc ids clock both.declared on admits
    obtain ⟨answer', after'⟩ := Broker.perform_script bc ids' clock' both.declared' on admits'
    obtain ⟨same, matched⟩ := both.twin.script both.valid found
    have upTo := increasing.mono (Set.Iio_subset_Iio after.fits)
    have upTo' := increasing'.mono (Set.Iio_subset_Iio after'.fits)
    have draws := Move.Matches.draws_sum matched
    rw [← draws] at upTo'
    have moved := both.twin.moves both.valid matched upTo upTo'
    rw [answer, answer']
    refine ⟨same.imp fun _ _ _ _ _ => trivial, beside.step
      ((Nat.le_add_right _ _).trans after.fits) ((Nat.le_add_right _ _).trans after'.fits)
      others others' ?_⟩
    rw [after.queue, after'.queue]
    exact .some ⟨⟨_, (both.valid.extend upTo upTo').later after.fits (draws ▸ after'.fits),
      moved⟩, kept⟩

end Beside

end PelicanQ
