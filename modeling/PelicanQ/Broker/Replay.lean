import PelicanQ.Broker.Beside
import PelicanQ.Broker.Log

/-! # Log entries side by side

Two brokers that apply the same log entry.  An entry is one operation or a loop
over one, so what is known of the operation is enough: the loops go on as long
as both sides get the same answer, and a batch of deliveries agrees when each
delivery does.
-/

namespace PelicanQ

/-! ## Every operation answers -/

/-- An answer, and not a panic. -/
def Outcome.Finished {ε α : Type} : Outcome ε α → Prop
  | .ok _ | .err _ => True
  | .panicked | .diverged => False

def Response.Answered : Response → Prop
  | .declared r | .acked r | .nacked r | .reopened r => Outcome.Finished r
  | .promoted r | .retained r => Outcome.Finished r
  | .published r => Outcome.Finished r
  | .consumed r => Outcome.Finished r

theorem Outcome.Finished.caught {ε α : Type} {r : Outcome ε α} (finished : Outcome.Finished r) :
    ∃ result, (r.caught : Outcome ε (Except ε α)) = .ok result := by
  cases r with
  | ok value => exact ⟨.ok value, rfl⟩
  | err e => exact ⟨.error e, rfl⟩
  | panicked | diverged => exact finished.elim

section Single

variable {bc : Bincode} {ids ids' : Nat → UInt64} {clock clock' : Nat → Int64} {b b' : Broker}

theorem Response.Regular.answered {r : Response} (regular : r.Regular) : r.Answered := by
  have finished {α : Type} (r : Outcome PelicanError α) (regular : PelicanQ.Regular r) :
      Outcome.Finished r := by
    cases r with
    | ok | err => trivial
    | panicked | diverged => exact regular.elim
  cases r <;> exact finished _ regular

theorem perform_answered (bc : Bincode) (ids : Nat → UInt64) (clock : Nat → Int64) (b : Broker)
    (op : Operation) : (b.perform bc ids clock op).1.Answered :=
  (perform_regular bc ids clock b op).answered

/-! ## Responses that agree -/

/-- The same message, under tags related by `T`. -/
def SameDelivery (T : UInt64 → UInt64 → Prop) (d d' : DeliveryTag × Message) : Prop :=
  T d.1 d'.1 ∧ d.2 = d'.2

/-- Responses to the same entry that agree, but for the tags of what was delivered. -/
inductive Echoes (T : UInt64 → UInt64 → Prop) :
    QueueOperationResponse → QueueOperationResponse → Prop where
  | same (r : QueueOperationResponse) : Echoes T r r
  | consume {d d' : DeliveryTag × Message} (delivered : SameDelivery T d d') :
      Echoes T (.consume (.ok (some d))) (.consume (.ok (some d')))
  | consumeBatch {ds ds' : List (DeliveryTag × Message)}
      (delivered : List.Forall₂ (SameDelivery T) ds ds') :
      Echoes T (.consumeBatch (.ok ds)) (.consumeBatch (.ok ds'))

theorem Echoes.untagged {T : UInt64 → UInt64 → Prop} {r r' : QueueOperationResponse}
    (echoes : Echoes T r r') : r.untagged = r'.untagged := by
  cases echoes with
  | same => rfl
  | consume delivered =>
      simp only [QueueOperationResponse.untagged, Except.map, Option.map_some, delivered.2]
  | @consumeBatch ds ds' delivered =>
      have same : ds.map (fun d => ((0 : DeliveryTag), d.2)) = ds'.map fun d => (0, d.2) := by
        induction delivered with
        | nil => rfl
        | cons first _ ih => rw [List.map_cons, List.map_cons, first.2, ih]
      simp only [QueueOperationResponse.untagged, Except.map, same]

/-- Both sides answer, and the answers agree. -/
def Agree (T : UInt64 → UInt64 → Prop) (r r' : Outcome PelicanError QueueOperationResponse) : Prop :=
  ∃ a a', r = .ok a ∧ r' = .ok a' ∧ Echoes T a a'

theorem Agree.eq {r r' : Outcome PelicanError QueueOperationResponse} (agree : Agree Eq r r') :
    r = r' := by
  obtain ⟨a, a', rfl, rfl, echoes⟩ := agree
  cases echoes with
  | same => rfl
  | consume delivered => rw [Prod.ext delivered.1 delivered.2]
  | @consumeBatch ds ds' delivered =>
      have equal : ds = ds' := List.forall₂_eq_eq_eq ▸
        delivered.imp fun _ _ same => Prod.ext same.1 same.2
      rw [equal]

/-- The operation an entry is, when it is not a batch. -/
def QueueOperation.single : QueueOperation → Option Operation
  | .declareQueue name policy => some (.declareQueueWithRetention name policy)
  | .publish queue message => some (.publish queue message)
  | .consume queue => some (.consume queue)
  | .ack queue tag => some (.ack queue tag)
  | .nack queue tag => some (.nack queue tag)
  | .applyRetention queue => some (.applyRetention queue)
  | .promoteScheduled queue => some (.promoteScheduled queue)
  | .publishBatch .. | .consumeBatch .. => none

theorem QueueOperation.single_on {entry : QueueOperation} {op : Operation}
    (single : entry.single = some op) : op.on = some entry.on := by
  cases entry <;> cases single <;> rfl

theorem applyOperation_single (bc : Bincode) (ids : Nat → UInt64) (clock : Nat → Int64)
    (b : Broker) {entry : QueueOperation} {op : Operation} (single : entry.single = some op) :
    (b.applyOperation bc ids clock entry).2 = (b.perform bc ids clock op).2 := by
  cases entry <;> cases single <;> exact Broker.answer_broker _ _

theorem Broker.answer_ok {α : Type} {wrap : Except PelicanError α → QueueOperationResponse}
    {r : Outcome PelicanError α × Broker} {result : Except PelicanError α}
    (caught : (r.1.caught : Outcome PelicanError _) = .ok result) : (Broker.answer wrap r).1 = .ok (wrap result) := by
  simp only [Broker.answer, caught, Outcome.andThen_ok]

/-- Operations that answer the same, as log entries. -/
theorem Agree.single {T : UInt64 → UInt64 → Prop} {entry : QueueOperation} {op : Operation}
    (single : entry.single = some op)
    (same : SameAnswer T op op (b.perform bc ids clock op).1 (b'.perform bc ids' clock' op).1) :
    Agree T (b.applyOperation bc ids clock entry).1 (b'.applyOperation bc ids' clock' entry).1 := by
  have answered := perform_answered bc ids clock b op
  have equal {α : Type} {wrap : Except PelicanError α → QueueOperationResponse}
      {r r' : Outcome PelicanError α × Broker} (finished : Outcome.Finished r.1) (eq : r.1 = r'.1) :
      Agree T (Broker.answer wrap r).1 (Broker.answer wrap r').1 := by
    obtain ⟨result, caught⟩ := finished.caught
    exact ⟨_, _, Broker.answer_ok caught, Broker.answer_ok (eq ▸ caught), .same _⟩
  cases entry with
  | consume queue =>
      cases single
      have values : ∀ x y, (b.consume ids queue).1 = x → (b'.consume ids' queue).1 = y →
          SameAnswer T (.consume queue) (.consume queue) (.consumed x) (.consumed y) →
            Agree T (Broker.answer .consume (b.consume ids queue)).1
              (Broker.answer .consume (b'.consume ids' queue)).1 := by
        intro x y first second same
        cases same with
        | same => exact equal answered (first.trans second.symm)
        | consumed _ tags m =>
            exact ⟨_, _, Broker.answer_ok (congrArg Outcome.caught first),
              Broker.answer_ok (congrArg Outcome.caught second), .consume ⟨tags, rfl⟩⟩
      exact values _ _ rfl rfl same
  | declareQueue name policy =>
      cases single
      exact equal answered (Response.declared.inj (same.eq fun _ => nofun))
  | publish queue m =>
      cases single
      exact equal answered (Response.published.inj (same.eq fun _ => nofun))
  | ack queue tag =>
      cases single
      exact equal answered (Response.acked.inj (same.eq fun _ => nofun))
  | nack queue tag =>
      cases single
      exact equal answered (Response.nacked.inj (same.eq fun _ => nofun))
  | applyRetention queue =>
      cases single
      exact equal answered (Response.retained.inj (same.eq fun _ => nofun))
  | promoteScheduled queue =>
      cases single
      exact equal answered (Response.promoted.inj (same.eq fun _ => nofun))
  | publishBatch | consumeBatch => cases single

end Single

/-! ## Batches -/

theorem increasing_fewer (ids : Nat → UInt64) (n n' : Nat) (le : n ≤ n')
    (increasing : StrictMonoOn ids (Set.Iio n')) : StrictMonoOn ids (Set.Iio n) :=
  increasing.mono (Set.Iio_subset_Iio le)

section Batches

variable {bc : Bincode} {ids ids' : Nat → UInt64} {clock clock' : Nat → Int64} {b b' : Broker}
  {T : UInt64 → UInt64 → Prop}

/-- Batches of publishes that get the same answers one by one.  What is asked of the ids drawn
    holds for fewer of them as well. -/
theorem Agree.publishEach {name : String} {U U' : Nat → Prop}
    {Q : List Message → (Nat → Int64) → (Nat → Int64) → Broker → Broker → Prop}
    (step : ∀ m rest clock clock' b b', Q (m :: rest) clock clock' b b' →
      U (b.publish bc ids clock name m).2.drawn → U' (b'.publish bc ids' clock' name m).2.drawn →
      (b.publish bc ids clock name m).1 = (b'.publish bc ids' clock' name m).1 ∧
        Q rest (b.publishClock bc clock name m) (b'.publishClock bc clock' name m)
          (b.publish bc ids clock name m).2 (b'.publish bc ids' clock' name m).2)
    (fewer : ∀ n n', n ≤ n' → U n' → U n) (fewer' : ∀ n n', n ≤ n' → U' n' → U' n)
    (messages : List Message) (outcomes : List PublishOutcome) (start : Q messages clock clock' b b')
    (drawn : U (Broker.publishEach bc ids name messages outcomes clock b).2.drawn)
    (drawn' : U' (Broker.publishEach bc ids' name messages outcomes clock' b').2.drawn) :
    Agree T (Broker.publishEach bc ids name messages outcomes clock b).1
        (Broker.publishEach bc ids' name messages outcomes clock' b').1 ∧
      ∃ rest clock₁ clock₁', Q rest clock₁ clock₁'
        (Broker.publishEach bc ids name messages outcomes clock b).2
        (Broker.publishEach bc ids' name messages outcomes clock' b').2 := by
  induction messages generalizing outcomes clock clock' b b' with
  | nil => exact ⟨⟨_, _, rfl, rfl, .same _⟩, _, _, _, start⟩
  | cons m rest ih =>
      have upTo := fewer _ _ (publishEach_first name m rest outcomes) drawn
      have upTo' := fewer' _ _ (publishEach_first name m rest outcomes) drawn'
      obtain ⟨same, next⟩ := step m rest clock clock' b b' start upTo upTo'
      have answered : Outcome.Finished (b.publish bc ids clock name m).1 :=
        perform_answered bc ids clock b (.publish name m)
      cases outcome : (b.publish bc ids clock name m).1 with
      | ok value =>
          rw [publishEach_ok rest outcomes outcome] at drawn ⊢
          rw [publishEach_ok rest outcomes (same ▸ outcome)] at drawn' ⊢
          exact ih _ next drawn drawn'
      | err e =>
          have stopped : Broker.publishEach bc ids name (m :: rest) outcomes clock b =
              (.ok (.publishBatch (.error e)), (b.publish bc ids clock name m).2) := by
            simp only [Broker.publishEach, outcome, Outcome.caught, Outcome.andThen_ok]
          have stopped' : Broker.publishEach bc ids' name (m :: rest) outcomes clock' b' =
              (.ok (.publishBatch (.error e)), (b'.publish bc ids' clock' name m).2) := by
            simp only [Broker.publishEach, ← same, outcome, Outcome.caught, Outcome.andThen_ok]
          rw [stopped, stopped']
          exact ⟨⟨_, _, rfl, rfl, .same _⟩, _, _, _, next⟩
      | panicked | diverged =>
          rw [outcome] at answered
          exact answered.elim

theorem consume_drawn (b : Broker) (name : String) : (b.consume ids name).2.drawn = b.drawn := by
  unfold Broker.consume
  cases declared : b.queue name with
  | none => rfl
  | some st =>
      dsimp only
      cases st.ready.entries.head? with
      | none => rfl
      | some e => exact Broker.move_drawn declared _

theorem consumeBatch_drawn (b : Broker) (name : String) (max : UInt64) :
    (b.applyOperation bc ids clock (.consumeBatch name max)).2.drawn = b.drawn :=
  consumeEach_keeps (fun b' => b'.drawn = b.drawn)
    (fun b' kept => (consume_drawn b' name).trans kept) max.toNat [] rfl

/-- Batches of deliveries that agree one by one. -/
theorem Agree.consumeEach {name : String} {Q : Nat → Broker → Broker → Prop}
    (step : ∀ left b b', Q (left + 1) b b' → SameAnswer T (.consume name) (.consume name)
        (.consumed (b.consume ids name).1) (.consumed (b'.consume ids' name).1) ∧
      Q left (b.consume ids name).2 (b'.consume ids' name).2)
    (left : Nat) {ds ds' : List (DeliveryTag × Message)}
    (delivered : List.Forall₂ (SameDelivery T) ds ds') (start : Q left b b') :
    Agree T (Broker.consumeEach ids name left ds b).1 (Broker.consumeEach ids' name left ds' b').1 ∧
      ∃ left', Q left' (Broker.consumeEach ids name left ds b).2
        (Broker.consumeEach ids' name left ds' b').2 := by
  induction left generalizing ds ds' b b' with
  | zero => exact ⟨⟨_, _, rfl, rfl, .consumeBatch delivered⟩, _, start⟩
  | succ left ih =>
      obtain ⟨same, next⟩ := step left b b' start
      have answered : Outcome.Finished (b.consume ids name).1 :=
        perform_answered bincode ids (fun _ => 0) b (.consume name)
      simp only [Broker.consumeEach]
      generalize b.consume ids name = r at same next answered
      generalize b'.consume ids' name = r' at same next
      obtain ⟨outcome, b₁⟩ := r
      obtain ⟨outcome', b₁'⟩ := r'
      dsimp only at same next answered
      cases same with
      | same _ _ undelivered =>
          cases outcome with
          | ok found =>
              cases found with
              | none => exact ⟨⟨_, _, rfl, rfl, .consumeBatch delivered⟩, _, next⟩
              | some d => cases undelivered
          | err e => exact ⟨⟨_, _, rfl, rfl, .same _⟩, _, next⟩
          | panicked | diverged => exact answered.elim
      | consumed _ tags m => exact ih (List.rel_append delivered (.cons ⟨tags, rfl⟩ .nil)) next

end Batches

/-! ## Logs -/

theorem Beside.names {bc : Bincode} {ids ids' : Nat → UInt64} {qm qm' : QueueManager}
    {b b' : Broker} {P : String → QueueState → QueueState → Prop} (beside : Beside ids ids' P b b')
    (h : Refines bc qm b) (h' : Refines bc qm' b') : ∀ a ∈ b'.names, a ∈ b.names := by
  intro a member
  rw [Broker.mem_names h'.held.utf8] at member
  rw [Broker.mem_names h.held.utf8]
  obtain ⟨st', declared⟩ := member
  rcases beside.cases a with ⟨-, undeclared⟩ | ⟨st, _, _, both⟩
  · rw [undeclared] at declared
    cases declared
  · exact ⟨st, both.declared⟩

end PelicanQ
