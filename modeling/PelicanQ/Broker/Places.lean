import PelicanQ.Broker.Runs

/-! # Where messages are

The four stores of messages of a queue as one function from places to messages.
A change sets one place, so what a move does to a queue is an update of this
function at the place it takes the message from and at the place it puts it.

`Path.queue_rule` is induction along a path for one queue.  With it,
`Transition.origin` says of every message that an operation leaves in a queue
where it was before: in the same place, in another one that it left, under the
tag of a nack, or in the hands of the publisher.
-/

namespace PelicanQ

/-- A place for one message in a queue. -/
inductive Place where
  | ready (key : ReadyKey)
  | inflight (tag : UInt64)
  | deadLetter (key : ReadyKey)
  | scheduled (key : DueKey)
  deriving DecidableEq

def Place.role : Place → Role
  | .ready _ => .ready
  | .inflight _ => .inflight
  | .deadLetter _ => .deadLetter
  | .scheduled _ => .scheduled

/-- The key of the tree that holds a place's store. -/
def Place.bytes : Place → Bytes
  | .ready key | .deadLetter key => ReadyKey.bytes key
  | .inflight tag => tag.toBeBytes
  | .scheduled key => DueKey.bytes key

def QueueState.lookup (st : QueueState) : Place → Option Message
  | .ready key => st.ready.get key
  | .inflight tag => st.inflight.get tag
  | .deadLetter key => st.deadLetter.get key
  | .scheduled key => st.scheduled.get key

@[simp] theorem QueueState.lookup_fresh (policy : RetentionPolicy) (place : Place) :
    (QueueState.fresh policy).lookup place = none := by
  cases place <;> rfl

/-- The place a change sets, and what is there afterwards. -/
def Change.sets : Change → Option (Place × Option Message)
  | .putReady key m => some (.ready key, some m)
  | .dropReady key => some (.ready key, none)
  | .putInflight tag m => some (.inflight tag, some m)
  | .dropInflight tag => some (.inflight tag, none)
  | .putDeadLetter key m => some (.deadLetter key, some m)
  | .putScheduled key m => some (.scheduled key, some m)
  | .dropScheduled key => some (.scheduled key, none)
  | .putDedup .. => none

theorem QueueState.lookup_apply (st : QueueState) (c : Change) :
    (st.apply c).lookup = match c.sets with
      | some (place, value) => Function.update st.lookup place value
      | none => st.lookup := by
  funext place
  cases c <;> cases place <;>
    simp [QueueState.apply, QueueState.lookup, Change.sets, Function.update_apply,
      OrdMap.get_insert, OrdMap.get_erase]

/-! ## One queue along a path -/

/-- What holds of a queue before a path and is kept by its moves in that queue holds after it. -/
theorem Path.queue_rule {ids : Nat → UInt64} {b b' : Broker} {moves : List (String × Move)}
    (path : Path ids b moves b') (q : String) {P : Option QueueState → Prop}
    (fresh : P none → ∀ policy, P (some (.fresh policy)))
    (moved : ∀ st mv id, (q, mv) ∈ moves → mv.Enabled st → P (some st) → P (some (st.move id mv)))
    (start : P (b.queue q)) : P (b'.queue q) := by
  induction path with
  | done => exact start
  | idle queues _ _ ih =>
      refine ih moved ?_
      rwa [Broker.queue, queues]
  | @declare b _ name policy _ undeclared _ ih =>
      refine ih moved ?_
      by_cases same : q = name
      · subst same
        rw [Broker.queue, OrdMap.get_insert, if_pos rfl]
        exact fresh (undeclared ▸ start) policy
      · rw [Broker.queue, OrdMap.get_insert, if_neg fun eq => same (String.utf8_injective eq)]
        exact start
  | @move b _ name st mv _ declared enabled _ ih =>
      refine ih (fun st mv id member => moved st mv id (List.mem_cons_of_mem _ member)) ?_
      by_cases same : q = name
      · subst same
        rw [Broker.move_queue declared]
        exact moved st mv _ List.mem_cons_self enabled (declared ▸ start)
      · rw [Broker.move_queue_other b same]
        exact start

/-- A declared queue stays declared, with its policy. -/
theorem Path.policy {ids : Nat → UInt64} {b b' : Broker} {moves : List (String × Move)}
    (path : Path ids b moves b') {q : String} {st : QueueState} (declared : b.queue q = some st) :
    ∃ st', b'.queue q = some st' ∧ st'.policy = st.policy := by
  have kept : (b'.queue q).map QueueState.policy = some st.policy := by
    refine path.queue_rule q (P := fun queue => queue.map QueueState.policy = some st.policy)
      nofun ?_ (by rw [declared]; rfl)
    intro st₁ mv id _ _ same
    rw [Option.map_some, QueueState.move, QueueState.policy_changes]
    exact same
  exact Option.map_eq_some_iff.mp kept

/-- A property of places and messages, in every place of a queue. -/
def QueueState.Each (P : Place → Message → Prop) (st : QueueState) : Prop :=
  ∀ place m, st.lookup place = some m → P place m

namespace QueueState.Each

variable {P : Place → Message → Prop} {st : QueueState}

theorem fresh (policy : RetentionPolicy) : (QueueState.fresh policy).Each P := by
  intro place m present
  rw [QueueState.lookup_fresh] at present
  cases present

theorem apply (each : st.Each P) {c : Change}
    (puts : ∀ place m, c.sets = some (place, some m) → P place m) : (st.apply c).Each P := by
  intro place m present
  rw [st.lookup_apply c] at present
  cases sets : c.sets with
  | none =>
      rw [sets] at present
      exact each place m present
  | some e =>
      obtain ⟨place', value⟩ := e
      rw [sets] at present
      simp only [Function.update_apply] at present
      split_ifs at present with same
      · subst same
        exact puts place m (present ▸ sets)
      · exact each place m present

theorem applyAll (each : st.Each P) {changes : List Change}
    (puts : ∀ c ∈ changes, ∀ place m, c.sets = some (place, some m) → P place m) :
    (changes.foldl QueueState.apply st).Each P := by
  induction changes generalizing st with
  | nil => exact each
  | cons c changes ih =>
      exact ih (each.apply (puts c List.mem_cons_self))
        fun c' member => puts c' (List.mem_cons_of_mem _ member)

end QueueState.Each

/-! ## What moves do to places -/

/-- The place a move takes its message from. -/
def Move.takes : Move → Option Place
  | .store .. | .record .. => none
  | .deliver key _ | .discard key _ => some (.ready key)
  | .settle tag _ | .retry tag _ | .requeue tag _ => some (.inflight tag)
  | .promote key _ => some (.scheduled key)

/-- The place a move puts a message, when the next id is `id`. -/
def Move.puts (policy : RetentionPolicy) (id : UInt64) : Move → Option (Place × Message)
  | .store m (some deliverAt) => some (.scheduled (dueKey deliverAt id), m)
  | .store m none | .promote _ m | .requeue _ m => some (.ready (readyKey m.priority id), m)
  | .record .. | .settle .. | .discard .. => none
  | .deliver key m => some (.inflight (ReadyKey.id key), m)
  | .retry _ m =>
      if QueueManager.exhausted policy.maxDeliveryAttempts m.retried.deliveryAttempts then
        some (.deadLetter (readyKey m.priority id), m.retried)
      else some (.ready (readyKey m.priority id), m.retried)

theorem QueueState.lookup_move (st : QueueState) (id : UInt64) (mv : Move) (place : Place) :
    (st.move id mv).lookup place =
      if (mv.puts st.policy id).map Prod.fst = some place then (mv.puts st.policy id).map Prod.snd
      else if mv.takes = some place then none else st.lookup place := by
  cases mv with
  | store m due =>
      cases due <;> cases place <;>
        simp [QueueState.move, Move.changes, QueueState.lookup_apply, Change.sets, Move.puts,
          Move.takes, Function.update_apply, eq_comm]
  | retry tag m =>
      cases last : QueueManager.exhausted st.policy.maxDeliveryAttempts m.retried.deliveryAttempts <;>
        cases place <;>
        simp [QueueState.move, Move.changes, QueueState.lookup_apply, Change.sets, Move.puts,
          Move.takes, Function.update_apply, last, eq_comm]
  | record | deliver | settle | promote | discard | requeue =>
      cases place <;>
        simp [QueueState.move, Move.changes, QueueState.lookup_apply, Change.sets, Move.puts,
          Move.takes, Function.update_apply, eq_comm]

theorem QueueState.lookup_moved {st : QueueState} {id : UInt64} {mv : Move} {place : Place}
    {m : Message} (present : (st.move id mv).lookup place = some m) :
    mv.puts st.policy id = some (place, m) ∨ mv.takes ≠ some place ∧ st.lookup place = some m := by
  rw [st.lookup_move] at present
  split_ifs at present with put taken
  · obtain ⟨e, puts, same⟩ := Option.map_eq_some_iff.mp put
    rw [puts, Option.map_some, Option.some.injEq] at present
    exact .inl (puts.trans (congrArg some (Prod.ext same present)))
  · exact .inr ⟨taken, present⟩

theorem QueueState.lookup_taken {st : QueueState} {id : UInt64} {mv : Move} {place : Place}
    (takes : mv.takes = some place) (elsewhere : ∀ m, mv.puts st.policy id ≠ some (place, m)) :
    (st.move id mv).lookup place = none := by
  rw [st.lookup_move, if_neg, if_pos takes]
  intro put
  obtain ⟨e, puts, rfl⟩ := Option.map_eq_some_iff.mp put
  exact elsewhere e.2 puts

/-- The queue has the message in this place. -/
def Broker.Has (b : Broker) (q : String) (place : Place) (m : Message) : Prop :=
  ∃ st, b.queue q = some st ∧ st.lookup place = some m

theorem Broker.has_iff {b : Broker} {q : String} {st : QueueState} (declared : b.queue q = some st)
    {place : Place} {m : Message} : b.Has q place m ↔ st.lookup place = some m := by
  constructor
  · rintro ⟨st', same, present⟩
    rw [declared, Option.some.injEq] at same
    exact same ▸ present
  · intro present
    exact ⟨st, declared, present⟩

theorem Broker.Has.moved {ids : Nat → UInt64} {b : Broker} {name q : String} {st : QueueState}
    (declared : b.queue name = some st) {mv : Move} {place : Place} {m : Message}
    (has : (b.move ids name mv).Has q place m) :
    b.Has q place m ∧ (q = name → mv.takes ≠ some place) ∨
      q = name ∧ mv.puts st.policy (ids b.drawn) = some (place, m) := by
  by_cases same : q = name
  · subst same
    rw [Broker.has_iff (Broker.move_queue declared mv)] at has
    rcases QueueState.lookup_moved has with puts | ⟨left, old⟩
    · exact .inr ⟨rfl, puts⟩
    · exact .inl ⟨⟨st, declared, old⟩, fun _ => left⟩
  · obtain ⟨st', declared', present⟩ := has
    rw [Broker.move_queue_other b same] at declared'
    exact .inl ⟨⟨st', declared', present⟩, fun here => absurd here same⟩

/-- Messages go from places outside the ready store into it, and leave the places they were in. -/
structure QueueState.Transfers (st st' : QueueState) : Prop where
  ready : ∀ key m, st'.lookup (.ready key) = some m → st.lookup (.ready key) = some m ∨
    ∃ place : Place, place.role ≠ .ready ∧ st.lookup place = some m ∧ st'.lookup place ≠ some m
  others : ∀ place : Place, place.role ≠ .ready → ∀ m, st'.lookup place = some m →
    st.lookup place = some m

namespace QueueState.Transfers

theorem refl (st : QueueState) : st.Transfers st :=
  ⟨fun _ _ present => .inl present, fun _ _ _ present => present⟩

theorem trans {st st₁ st' : QueueState} (first : st.Transfers st₁) (second : st₁.Transfers st') :
    st.Transfers st' where
  ready key m present := by
    rcases second.ready key m present with old | ⟨place, outside, source, left⟩
    · rcases first.ready key m old with old | ⟨place, outside, source, left⟩
      · exact .inl old
      · exact .inr ⟨place, outside, source, fun back => left (second.others place outside m back)⟩
    · exact .inr ⟨place, outside, first.others place outside m source, left⟩
  others place outside m present :=
    first.others place outside m (second.others place outside m present)

/-- A move that puts a message from elsewhere into the ready store, unchanged. -/
theorem move {st : QueueState} {id : UInt64} {mv : Move} (place : Place) {m : Message}
    (outside : place.role ≠ .ready) (takes : mv.takes = some place)
    (present : st.lookup place = some m)
    (puts : mv.puts st.policy id = some (.ready (readyKey m.priority id), m)) :
    st.Transfers (st.move id mv) := by
  have left : (st.move id mv).lookup place = none := by
    refine QueueState.lookup_taken takes fun m' put => ?_
    rw [puts, Option.some.injEq, Prod.mk.injEq] at put
    exact outside (put.1 ▸ rfl)
  constructor
  · intro key m' present'
    rcases QueueState.lookup_moved present' with put | ⟨-, old⟩
    · rw [puts, Option.some.injEq, Prod.mk.injEq] at put
      refine .inr ⟨place, outside, put.2 ▸ present, ?_⟩
      rw [left]
      exact nofun
    · exact .inl old
  · intro other elsewhere m' present'
    rcases QueueState.lookup_moved present' with put | ⟨-, old⟩
    · rw [puts, Option.some.injEq, Prod.mk.injEq] at put
      exact absurd (congrArg Place.role put.1.symm) elsewhere
    · exact old

end QueueState.Transfers

theorem Path.transfers {ids : Nat → UInt64} {b b' : Broker} {moves : List (String × Move)}
    (path : Path ids b moves b') {q : String}
    (each : ∀ mv, (q, mv) ∈ moves → (∃ key m, mv = .promote key m) ∨ ∃ tag m, mv = .requeue tag m)
    {st : QueueState} (declared : b.queue q = some st) :
    ∃ st', b'.queue q = some st' ∧ st.Transfers st' := by
  refine path.queue_rule q (P := fun queue => ∃ st', queue = some st' ∧ st.Transfers st') nofun ?_
    ⟨st, declared, .refl st⟩
  rintro st₁ mv id member enabled ⟨st', same, transfers⟩
  cases same
  refine ⟨_, rfl, transfers.trans ?_⟩
  rcases each mv member with ⟨key, m, rfl⟩ | ⟨tag, m, rfl⟩
  · exact .move (.scheduled key) nofun rfl enabled rfl
  · exact .move (.inflight tag) nofun rfl enabled rfl

/-! ## Where messages come from -/

/-- Where the message was that an operation leaves in a place. -/
inductive Origin (b : Broker) (op : Operation) (r : Response) (b' : Broker) (q : String)
    (place : Place) : Message → Prop where
  | kept {m : Message} (before : b.Has q place m) : Origin b op r b' q place m
  | published {m : Message} (publish : op = .publish q m)
      (stored : r = .published (.ok (.stored m.id))) : Origin b op r b' q place m
  | nacked {tag : DeliveryTag} {m : Message} (nack : op = .nack q tag) (done : r = .nacked (.ok ()))
      (before : b.Has q (.inflight tag) m) : Origin b op r b' q place m.retried
  | moved (from_ : Place) {m : Message} (notPublish : ∀ m, op ≠ .publish q m)
      (notNack : ∀ tag, op ≠ .nack q tag) (before : b.Has q from_ m) (left : ¬ b'.Has q from_ m) :
      Origin b op r b' q place m

theorem Transition.origin {ids : Nat → UInt64} {b b' : Broker} {op : Operation} {r : Response}
    {moves : List (String × Move)} (step : Transition ids b op r moves b') {q : String}
    {place : Place} {m : Message} (has : b'.Has q place m) : Origin b op r b' q place m := by
  -- transfers are on declared queues: nothing else is in one afterwards
  have transferred (notPublish : ∀ m, op ≠ .publish q m) (notNack : ∀ tag, op ≠ .nack q tag)
      (each : ∀ mv, (q, mv) ∈ moves →
        (∃ key m, mv = .promote key m) ∨ ∃ tag m, mv = .requeue tag m) :
      Origin b op r b' q place m := by
    cases declared : b.queue q with
    | none =>
        have empty := step.path.queue_rule q
          (P := fun queue => ∀ st, queue = some st → st.Each fun _ _ => False)
          (fun _ policy st same => by cases same; exact .fresh policy)
          (fun st mv id member enabled inv => by
            rcases each mv member with ⟨key, m, rfl⟩ | ⟨tag, m, rfl⟩
            · exact (inv st rfl (.scheduled key) m enabled).elim
            · exact (inv st rfl (.inflight tag) m enabled).elim)
          (by rw [declared]; rintro _ ⟨⟩)
        obtain ⟨st', declared', present⟩ := has
        exact (empty st' declared' place m present).elim
    | some st =>
        obtain ⟨st', declared', transfers⟩ := step.path.transfers each declared
        rw [Broker.has_iff declared'] at has
        have old (outside : place.role ≠ .ready) : Origin b op r b' q place m :=
          .kept ⟨st, declared, transfers.others place outside m has⟩
        cases place with
        | ready key =>
            rcases transfers.ready key m has with old | ⟨place', -, source, left⟩
            · exact .kept ⟨st, declared, old⟩
            · exact .moved place' notPublish notNack ⟨st, declared, source⟩
                fun back => left ((Broker.has_iff declared').mp back)
        | inflight | deadLetter | scheduled => exact old (by rintro ⟨⟩)
  cases step with
  | «exists» | notFound | deduplicated | limited | nothing | invalidAck | invalidNack =>
      exact .kept has
  | @declared name policy undeclared =>
      obtain ⟨st, declared, present⟩ := has
      rw [Broker.queue, OrdMap.get_insert] at declared
      split_ifs at declared with same
      · cases declared
        rw [QueueState.lookup_fresh] at present
        cases present
      · exact .kept ⟨st, declared, present⟩
  | @stored name m₀ due records _ path others =>
      have comes := path.queue_rule q
        (P := fun queue => ∀ st, queue = some st → st.Each fun place m =>
          b.Has q place m ∨ q = name ∧ m = m₀)
        (fun _ policy st same => by cases same; exact .fresh policy)
        (fun st mv id member enabled inv st' same place m present => by
          cases same
          rcases QueueState.lookup_moved present with puts | ⟨-, old⟩
          · rcases List.mem_cons.mp member with first | later
            · cases first
              refine .inr ⟨rfl, ?_⟩
              cases due <;> cases puts <;> rfl
            · obtain ⟨mv', inside, same⟩ := List.mem_map.mp later
              cases same
              obtain ⟨key, time, rfl⟩ := others mv inside
              cases puts
          · exact inv st rfl place m old)
        (fun st declared place m present => .inl ⟨st, declared, present⟩)
      obtain ⟨st', declared', present⟩ := has
      rcases comes st' declared' place m present with old | ⟨rfl, rfl⟩
      · exact .kept old
      · exact .published rfl rfl
  | @delivered name st key m₀ declared front =>
      rcases has.moved declared with old | ⟨rfl, puts⟩
      · exact .kept old.1
      · cases puts
        have present : st.ready.get key = some m :=
          OrdMap.get_eq_some.mpr (List.mem_of_mem_head? front)
        refine .moved (.ready key) (fun _ same => by cases same) (fun _ same => by cases same)
          ⟨st, declared, present⟩ fun back => ?_
        rw [Broker.has_iff (Broker.move_queue declared _),
          QueueState.lookup_taken rfl fun _ put => by cases put] at back
        cases back
  | @acked name tag st m₀ bytes declared present =>
      rcases Broker.Has.moved declared has with ⟨old, -⟩ | ⟨-, puts⟩
      · exact .kept old
      · cases puts
  | @nacked name tag st m₀ declared present =>
      rcases has.moved declared with old | ⟨rfl, puts⟩
      · exact .kept old.1
      · have retried : m = m₀.retried := by
          simp only [Move.puts] at puts
          split_ifs at puts <;> cases puts <;> rfl
        subst retried
        exact .nacked rfl rfl ⟨st, declared, present⟩
  | promoted =>
      refine transferred (fun _ same => by cases same) (fun _ same => by cases same)
        fun mv member => ?_
      obtain ⟨e, -, same⟩ := List.mem_map.mp member
      cases same
      exact .inl ⟨_, _, rfl⟩
  | retained _ path =>
      have shrinks := path.queue_rule q
        (P := fun queue => ∀ st, queue = some st → st.Each fun place m => b.Has q place m)
        (fun _ policy st same => by cases same; exact .fresh policy)
        (fun st mv id member enabled inv st' same place m present => by
          cases same
          obtain ⟨e, -, same⟩ := List.mem_map.mp member
          cases same
          rcases QueueState.lookup_moved present with puts | ⟨-, old⟩
          · cases puts
          · exact inv st rfl place m old)
        (fun st declared place m present => ⟨st, declared, present⟩)
      obtain ⟨st', declared', present⟩ := has
      exact .kept (shrinks st' declared' place m present)
  | reopened _ requeues =>
      refine transferred (fun _ same => by cases same) (fun _ same => by cases same)
        fun mv member => ?_
      obtain ⟨tag, m, same⟩ := requeues (q, mv) member
      exact .inr ⟨tag, m, same⟩

/-! ## Places as entries of trees -/

/-- An entry of one of the trees of a queue. -/
structure Item where
  role : Role
  key : Bytes
  value : Bytes

/-- The queue is declared and holds the message. -/
def Holds (qm : QueueManager) (q : String) (x : Item) : Prop :=
  q.utf8 ∈ (qm.db.trees metaQueuesTree).keys ∧ x.role ≠ .dedup ∧
    (qm.db.trees (x.role.treeName q)).get x.key = some x.value

/-- The entry of a message in a place. -/
def Place.item (bc : Bincode) (place : Place) (m : Message) : Item :=
  ⟨place.role, place.bytes, bc.message.encode m⟩

theorem QueueState.tree_get (bc : Bincode) (st : QueueState) {x : Item} (message : x.role ≠ .dedup) :
    (st.tree bc x.role).get x.key = some x.value ↔
      ∃ place m, x = place.item bc m ∧ st.lookup place = some m := by
  obtain ⟨role, key, value⟩ := x
  constructor
  · intro present
    cases role with
    | ready =>
        rw [QueueState.tree, OrdMap.get_image_eq_some] at present
        obtain ⟨k, m, rfl, rfl, found⟩ := present
        exact ⟨.ready k, m, rfl, found⟩
    | inflight =>
        rw [QueueState.tree, OrdMap.get_image_eq_some] at present
        obtain ⟨k, m, rfl, rfl, found⟩ := present
        exact ⟨.inflight k, m, rfl, found⟩
    | deadLetter =>
        rw [QueueState.tree, OrdMap.get_image_eq_some] at present
        obtain ⟨k, m, rfl, rfl, found⟩ := present
        exact ⟨.deadLetter k, m, rfl, found⟩
    | scheduled =>
        rw [QueueState.tree, OrdMap.get_image_eq_some] at present
        obtain ⟨k, m, rfl, rfl, found⟩ := present
        exact ⟨.scheduled k, m, rfl, found⟩
    | dedup => exact absurd rfl message
  · rintro ⟨place, m, same, found⟩
    cases same
    cases place <;>
      simp only [Place.role, Place.bytes, QueueState.tree, OrdMap.get_image] <;>
      exact congrArg (Option.map bc.message.encode) found

theorem Refines.registered {bc : Bincode} {qm : QueueManager} {b : Broker} (h : Refines bc qm b)
    {q : String} : q.utf8 ∈ (qm.db.trees metaQueuesTree).keys ↔ ∃ st, b.queue q = some st := by
  rw [h.held.registered, OrdMap.mapValues_keys, OrdMap.mem_keys]
  rfl

theorem Refines.holds {bc : Bincode} {qm : QueueManager} {b : Broker} (h : Refines bc qm b)
    {q : String} {x : Item} :
    Holds qm q x ↔ ∃ place m, x = place.item bc m ∧ b.Has q place m := by
  constructor
  · rintro ⟨declared, role, present⟩
    obtain ⟨st, declared⟩ := h.registered.mp declared
    rw [h.held.stores q st declared, st.tree_get bc role] at present
    obtain ⟨place, m, same, found⟩ := present
    exact ⟨place, m, same, st, declared, found⟩
  · rintro ⟨place, m, same, st, declared, found⟩
    have role : x.role ≠ .dedup := by
      rw [same]
      cases place <;> exact nofun
    refine ⟨h.registered.mpr ⟨st, declared⟩, role, ?_⟩
    rw [h.held.stores q st declared, st.tree_get bc role]
    exact ⟨place, m, same, found⟩

theorem Place.item_inj {bc : Bincode} {place place' : Place} {m m' : Message}
    (same : place.item bc m = place'.item bc m') : place = place' ∧ m = m' := by
  have role : place.role = place'.role := congrArg Item.role same
  have key : place.bytes = place'.bytes := congrArg Item.key same
  have value : bc.message.encode m = bc.message.encode m' := congrArg Item.value same
  refine ⟨?_, bc.message.encode_injective value⟩
  cases place <;> cases place' <;> first
    | exact congrArg _ (ReadyKey.bytes_strictMono.injective key)
    | exact congrArg _ (UInt64.toBeBytes_strictMono.injective key)
    | exact congrArg _ (DueKey.bytes_strictMono.injective key)
    | cases role

end PelicanQ
