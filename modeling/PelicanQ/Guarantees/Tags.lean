import PelicanQ.Broker.Runs
import PelicanQ.Lib.Since

/-! # Delivery tags are linear

A tag is the id of the ready key its message had, so it is new when a consume
returns it and never comes back: the key left the ready store for good.  What is
in flight in a queue is therefore exactly what its consumes returned and neither
an ack, a nack nor a reopening has taken back, and a tag is good for an ack or a
nack exactly that long.
-/

namespace PelicanQ

namespace Event

/-- A consume that returned a message. -/
def Returned (q : String) (tag : DeliveryTag) (m : Message) (e : Event) : Prop :=
  e.step.op = .consume q ∧ e.response = .consumed (.ok (some (tag, m)))

/-- A successful ack or nack. -/
def Settles (q : String) (tag : DeliveryTag) (e : Event) : Prop :=
  (e.step.op = .ack q tag ∧ e.response = .acked (.ok ())) ∨
    (e.step.op = .nack q tag ∧ e.response = .nacked (.ok ()))

def Reopens (e : Event) : Prop := ∃ maxBytes, e.step.op = .reopen maxBytes

end Event

/-- A consume of the queue returned the message under the tag; since then no ack and
    no nack of the tag succeeded there and the store was not reopened. -/
def Outstanding (past : List Event) (q : String) (tag : DeliveryTag) (m : Message) : Prop :=
  Since (·.Returned q tag m) (fun e => ¬ e.Settles q tag ∧ ¬ e.Reopens) past

/-- How an event answers an ack or a nack, given the events before it. -/
structure Verdict (bc : Bincode) (past : List Event) (e : Event) : Prop where
  ack : ∀ q tag, e.step.op = .ack q tag →
    (e.response = .acked (.ok ()) ↔ ∃ m, Outstanding past q tag m)
  nack : ∀ q tag, e.step.op = .nack q tag →
    (e.response = .nacked (.ok ()) ↔ ∃ m, Outstanding past q tag m)
  removes : ∀ q tag m, e.step.op = .ack q tag → Outstanding past q tag m →
    (e.before.db.trees (inflightTreeName q)).get tag.toBeBytes = some (bc.message.encode m) ∧
      e.after.db.trees = Function.update e.before.db.trees (inflightTreeName q)
        ((e.before.db.trees (inflightTreeName q)).erase tag.toBeBytes)
  ackInvalid : ∀ q tag, e.step.op = .ack q tag →
    q.utf8 ∈ (e.before.db.trees metaQueuesTree).keys → (¬ ∃ m, Outstanding past q tag m) →
      e.response = .acked (.err (.invalidDeliveryTag tag))
  nackInvalid : ∀ q tag, e.step.op = .nack q tag →
    q.utf8 ∈ (e.before.db.trees metaQueuesTree).keys → (¬ ∃ m, Outstanding past q tag m) →
      e.response = .nacked (.err (.invalidDeliveryTag tag))

/-! ## What is in flight -/

/-- The message in flight under a tag. -/
def Broker.flight (b : Broker) (q : String) (tag : DeliveryTag) : Option Message :=
  (b.queue q).bind fun st => st.inflight.get tag

theorem Broker.flight_declared {b : Broker} {q : String} {st : QueueState}
    (declared : b.queue q = some st) (tag : DeliveryTag) : b.flight q tag = st.inflight.get tag := by
  rw [flight, declared, Option.bind_some]

theorem Broker.flight_undeclared {b : Broker} {q : String} (undeclared : b.queue q = none)
    (tag : DeliveryTag) : b.flight q tag = none := by
  rw [flight, undeclared, Option.bind_none]

/-- A move that leaves the in-flight store alone. -/
def Move.Quiet : Move → Prop
  | .deliver .. | .settle .. | .retry .. | .requeue .. => False
  | .store .. | .record .. | .promote .. | .discard .. => True

theorem QueueState.inflight_quiet (st : QueueState) (id : UInt64) {mv : Move} (quiet : mv.Quiet) :
    (st.move id mv).inflight = st.inflight := by
  cases mv with
  | store m due => cases due <;> rfl
  | record | promote | discard => rfl
  | deliver | settle | retry | requeue => exact quiet.elim

theorem Path.flight_quiet {ids : Nat → UInt64} {b b' : Broker} {moves : List (String × Move)}
    (path : Path ids b moves b') (quiet : ∀ x ∈ moves, x.2.Quiet) (q : String)
    (tag : DeliveryTag) : b'.flight q tag = b.flight q tag := by
  induction path with
  | done => rfl
  | idle queues _ _ ih => rw [ih quiet, Broker.flight, Broker.queue, queues]; rfl
  | @declare b _ name policy _ undeclared _ ih =>
      rw [ih quiet]
      by_cases here : q = name
      · subst here
        rw [Broker.flight_undeclared undeclared, Broker.flight, Broker.queue, OrdMap.get_insert,
          if_pos rfl]
        rfl
      · simp only [Broker.flight, Broker.queue, OrdMap.get_insert, String.utf8_injective.eq_iff,
          here, if_false]
  | @move b _ name st mv _ declared _ _ ih =>
      rw [ih fun x member => quiet x (List.mem_cons_of_mem _ member)]
      by_cases here : q = name
      · subst here
        rw [Broker.flight_declared (Broker.move_queue declared _), Broker.flight_declared declared,
          st.inflight_quiet _ (quiet _ List.mem_cons_self)]
      · rw [Broker.flight, Broker.move_queue_other b here, Broker.flight]

section Moves

variable {ids : Nat → UInt64} {b : Broker} {name : String} {st : QueueState}

theorem flight_deliver (declared : b.queue name = some st) (key : ReadyKey) (m : Message)
    (q : String) (tag : DeliveryTag) :
    (b.move ids name (.deliver key m)).flight q tag =
      if q = name ∧ tag = ReadyKey.id key then some m else b.flight q tag := by
  by_cases here : q = name
  · subst here
    rw [Broker.flight_declared (Broker.move_queue declared _), Broker.flight_declared declared]
    simp only [true_and]
    exact OrdMap.get_insert _ _ _ _
  · rw [Broker.flight, Broker.move_queue_other b here, Broker.flight]
    simp only [here, false_and, if_false]

/-- A settled or returned message is no longer in flight. -/
theorem flight_drop (declared : b.queue name = some st) {mv : Move} {gone : UInt64}
    (drops : (st.move (ids b.drawn) mv).inflight = st.inflight.erase gone) (q : String)
    (tag : DeliveryTag) :
    (b.move ids name mv).flight q tag =
      if q = name ∧ tag = gone then none else b.flight q tag := by
  by_cases here : q = name
  · subst here
    rw [Broker.flight_declared (Broker.move_queue declared _), Broker.flight_declared declared,
      drops]
    simp only [true_and]
    exact OrdMap.get_erase _ _ _
  · rw [Broker.flight, Broker.move_queue_other b here, Broker.flight]
    simp only [here, false_and, if_false]

end Moves

/-! ## What is outstanding -/

theorem outstanding_snoc {past : List Event} {e : Event} {q : String} {tag : DeliveryTag}
    {m : Message} : Outstanding (past ++ [e]) q tag m ↔
      e.Returned q tag m ∨ (Outstanding past q tag m ∧ ¬ e.Settles q tag ∧ ¬ e.Reopens) :=
  since_snoc

/-- The key a tag was made from has left the ready store of its queue. -/
def Spent (b : Broker) (q : String) (tag : DeliveryTag) : Prop :=
  ∃ st key, b.queue q = some st ∧ key ∈ st.arrivals ∧ key ∉ st.ready.keys ∧ ReadyKey.id key = tag

theorem QueueState.arrivals_move (st : QueueState) (id : UInt64) (mv : Move) :
    ∀ key ∈ st.arrivals, key ∈ (st.move id mv).arrivals := by
  intro key member
  cases mv with
  | store m due =>
      cases due with
      | none => exact List.mem_append_left _ member
      | some deliverAt => exact member
  | record | deliver | settle | discard => exact member
  | retry tag m =>
      simp only [QueueState.move, Move.changes]
      split_ifs
      · exact member
      · exact List.mem_append_left _ member
  | promote | requeue => exact List.mem_append_left _ member

/-- What a move makes ready has the id it took. -/
theorem QueueState.ready_move {st : QueueState} {id : UInt64} {mv : Move} {key : ReadyKey}
    (member : key ∈ (st.move id mv).ready.keys) :
    key ∈ st.ready.keys ∨ (ReadyKey.id key = id ∧ mv.draws = 1) := by
  have put {ready : OrdMap ReadyKey Message} {priority : UInt8} {m : Message}
      (inside : key ∈ (ready.insert (readyKey priority id) m).keys) :
      key ∈ ready.keys ∨ ReadyKey.id key = id := by
    rcases OrdMap.mem_keys_insert.mp inside with rfl | old
    · exact .inr rfl
    · exact .inl old
  cases mv with
  | store m due =>
      cases due with
      | none => exact (put member).imp_right fun same => ⟨same, rfl⟩
      | some deliverAt => exact .inl member
  | record | settle => exact .inl member
  | deliver | discard => exact .inl (OrdMap.mem_keys_erase.mp member).2
  | retry tag m =>
      simp only [QueueState.move, Move.changes] at member
      split_ifs at member
      · exact .inl member
      · exact (put member).imp_right fun same => ⟨same, rfl⟩
  | promote | requeue => exact (put member).imp_right fun same => ⟨same, rfl⟩

/-- A spent tag stays spent. -/
theorem Spent.path {ids : Nat → UInt64} {b b' : Broker} {moves : List (String × Move)} {q : String}
    {tag : DeliveryTag} (spent : Spent b q tag) (path : Path ids b moves b')
    (sound : b.Sound ids) (increasing : StrictMonoOn ids (Set.Iio b'.drawn)) :
    Spent b' q tag := by
  induction path with
  | done => exact spent
  | idle queues drawn _ ih =>
      obtain ⟨st, key, declared, rest⟩ := spent
      refine ih ⟨st, key, ?_, rest⟩ (sound.idle queues drawn) increasing
      rw [Broker.queue, queues]
      exact declared
  | @declare b _ name policy _ undeclared _ ih =>
      obtain ⟨st, key, declared, rest⟩ := spent
      have different : q ≠ name := by
        rintro rfl
        rw [undeclared] at declared
        cases declared
      refine ih ⟨st, key, ?_, rest⟩ (sound.declare name policy) increasing
      simp only [Broker.queue, OrdMap.get_insert, String.utf8_injective.eq_iff, different, if_false]
      exact declared
  | @move b _ name st₀ mv _ declared₀ enabled more ih =>
      obtain ⟨st, key, declared, arrived, gone, id⟩ := spent
      have upTo := increasing.mono (Set.Iio_subset_Iio more.drawn_le)
      refine ih ?_ (sound.move declared₀ enabled upTo) increasing
      by_cases here : q = name
      · subst here
        refine ⟨_, key, Broker.move_queue declared mv, st.arrivals_move _ mv key arrived, ?_, id⟩
        intro member
        rcases QueueState.ready_move member with old | ⟨fresh, one⟩
        · exact gone old
        · rw [Broker.move_drawn declared, one] at upTo
          obtain ⟨i, below, made⟩ := (sound.queues q st declared).drawn key arrived
          have less : ids i < ids b.drawn :=
            upTo (Set.mem_Iio.mpr (by omega)) (Set.mem_Iio.mpr (by omega)) below
          exact less.ne (made.symm.trans fresh)
      · exact ⟨st, key, by rw [Broker.move_queue_other b here, declared], arrived, gone, id⟩

/-! ## The events and the broker agree -/

/-- What is in flight is what is outstanding, and returned tags are spent and distinct. -/
structure Linear (past : List Event) (b : Broker) : Prop where
  flight : ∀ q tag m, b.flight q tag = some m ↔ Outstanding past q tag m
  spent : ∀ e ∈ past, ∀ q tag m, e.Returned q tag m → Spent b q tag
  distinct : past.Pairwise fun e e' =>
    ∀ q q' tag m m', e.Returned q tag m → ¬ e'.Returned q' tag m'

theorem Linear.empty (maxBytes : Option UInt64) : Linear [] ⟨.empty, 0, 0, maxBytes⟩ where
  flight q tag m := by
    simp [Broker.flight, Broker.queue, Outstanding, since_nil]
  spent _ member := nomatch member
  distinct := .nil

/-- An event that delivers nothing, settles nothing and does not reopen. -/
def Event.Inert (e : Event) : Prop :=
  (∀ q tag m, ¬ e.Returned q tag m) ∧ (∀ q tag, ¬ e.Settles q tag) ∧ ¬ e.Reopens

theorem outstanding_inert {past : List Event} {e : Event} (inert : e.Inert) {q : String}
    {tag : DeliveryTag} {m : Message} :
    Outstanding (past ++ [e]) q tag m ↔ Outstanding past q tag m := by
  rw [outstanding_snoc, or_iff_right (inert.1 q tag m)]
  exact and_iff_left ⟨inert.2.1 q tag, inert.2.2⟩

section Step

variable {bc : Bincode} {ids : Nat → UInt64} {past : List Event} {e : Event} {b b' : Broker}
  {moves : List (String × Move)}

/-- A tag that a consume returns is not spent in any queue. -/
theorem Simulates.returned_unspent (sim : Simulates bc ids e b moves b') {q q' : String}
    {tag : DeliveryTag} {m : Message} (returned : e.Returned q tag m) : ¬ Spent b q' tag := by
  rintro ⟨st', key', declared', arrived', gone', id'⟩
  have transition := sim.step
  rw [returned.1, returned.2] at transition
  cases transition with
  | notFound missing => cases missing
  | @delivered _ st key _ declared front =>
      have sound := sim.sound.queues q st declared
      have ready : key ∈ st.ready.keys := List.mem_map_of_mem (List.mem_of_mem_head? front)
      by_cases here : q' = q
      · subst here
        rw [declared, Option.some.injEq] at declared'
        subst declared'
        exact gone' (sound.arrival_unique (sound.arrived key ready) arrived' id'.symm ▸ ready)
      · exact sim.sound.separate q' q st' st declared' declared here key' arrived' key
          (sound.arrived key ready) id'

/-- A returned tag is spent from then on. -/
theorem Simulates.returned_spent (sim : Simulates bc ids e b moves b') {q : String}
    {tag : DeliveryTag} {m : Message} (returned : e.Returned q tag m) : Spent b' q tag := by
  have transition := sim.step
  rw [returned.1, returned.2] at transition
  cases transition with
  | notFound missing => cases missing
  | @delivered _ st key _ declared front =>
      have sound := sim.sound.queues q st declared
      have ready : key ∈ st.ready.keys := List.mem_map_of_mem (List.mem_of_mem_head? front)
      refine ⟨_, key, Broker.move_queue declared _, sound.arrived key ready, ?_, rfl⟩
      exact fun member => (OrdMap.mem_keys_erase.mp member).1 rfl

/-- An event that is inert and moves nothing in or out of flight. -/
theorem Linear.flight_inert (linear : Linear past b) (sim : Simulates bc ids e b moves b')
    (inert : e.Inert) (quiet : ∀ x ∈ moves, x.2.Quiet) (q : String) (tag : DeliveryTag)
    (m : Message) : b'.flight q tag = some m ↔ Outstanding (past ++ [e]) q tag m := by
  rw [sim.step.path.flight_quiet quiet, outstanding_inert inert, linear.flight]

/-- A successful ack or nack ends what was outstanding under its tag and nothing else. -/
theorem Linear.flight_settled (linear : Linear past b) (name : String) (gone : DeliveryTag)
    (settles : ∀ q tag, e.Settles q tag ↔ q = name ∧ tag = gone)
    (silent : (∀ q tag m, ¬ e.Returned q tag m) ∧ ¬ e.Reopens)
    (after : ∀ q tag, b'.flight q tag = if q = name ∧ tag = gone then none else b.flight q tag)
    (q : String) (tag : DeliveryTag) (m : Message) :
    b'.flight q tag = some m ↔ Outstanding (past ++ [e]) q tag m := by
  rw [outstanding_snoc, or_iff_right (silent.1 q tag m), and_iff_left silent.2, settles, after,
    ← linear.flight]
  by_cases here : q = name ∧ tag = gone
  · simp only [here, and_self, if_true, not_true_eq_false, and_false, reduceCtorEq]
  · simp only [here, if_false, not_false_eq_true, and_true]

/-- What an event leaves in flight. -/
theorem Linear.flight_next (linear : Linear past b) (sim : Simulates bc ids e b moves b')
    (q : String) (tag : DeliveryTag) (m : Message) :
    b'.flight q tag = some m ↔ Outstanding (past ++ [e]) q tag m := by
  obtain ⟨⟨op, clock⟩, before, response, after⟩ := e
  have transition := sim.step
  dsimp only at transition
  cases transition with
  | «exists» | declared | deduplicated | limited | nothing | invalidAck | invalidNack =>
      refine linear.flight_inert sim ?_ (fun _ member => nomatch member) q tag m
      simp [Event.Inert, Event.Returned, Event.Settles, Event.Reopens]
  | notFound missing =>
      refine linear.flight_inert sim ?_ (fun _ member => nomatch member) q tag m
      cases op <;> cases missing <;>
        simp [Event.Inert, Event.Returned, Event.Settles, Event.Reopens]
  | stored path others =>
      refine linear.flight_inert sim ?_ (fun x member => ?_) q tag m
      · simp [Event.Inert, Event.Returned, Event.Settles, Event.Reopens]
      · rcases List.mem_cons.mp member with rfl | record
        · trivial
        · obtain ⟨mv, inside, rfl⟩ := List.mem_map.mp record
          obtain ⟨key, time, rfl⟩ := others mv inside
          trivial
  | promoted | retained =>
      refine linear.flight_inert sim ?_ (fun x member => ?_) q tag m
      · simp [Event.Inert, Event.Returned, Event.Settles, Event.Reopens]
      · obtain ⟨entry, -, rfl⟩ := List.mem_map.mp member
        trivial
  | @delivered name st key m' declared front =>
      have sound := sim.sound.queues name st declared
      have ready : key ∈ st.ready.keys := List.mem_map_of_mem (List.mem_of_mem_head? front)
      have landed : b.flight name (ReadyKey.id key) = none := by
        rw [Broker.flight_declared declared, OrdMap.get_eq_none]
        exact sound.apart key ready
      rw [flight_deliver declared, outstanding_snoc, ← linear.flight]
      by_cases here : q = name ∧ tag = ReadyKey.id key
      · obtain ⟨rfl, rfl⟩ := here
        simp [Event.Returned, landed]
      · simp only [here, if_false, Event.Returned, Event.Settles, Event.Reopens,
          Operation.consume.injEq, Response.consumed.injEq, Outcome.ok.injEq, Option.some.injEq,
          Prod.mk.injEq, reduceCtorEq, false_and, or_self, exists_false, not_false_eq_true,
          and_true]
        constructor
        · exact .inr
        · rintro (⟨same, same', -⟩ | old)
          · exact absurd ⟨same.symm, same'.symm⟩ here
          · exact old
  | @acked name gone st m' bytes declared present =>
      refine linear.flight_settled name gone ?_ ?_ (fun q tag => ?_) q tag m
      · intro q tag
        simp [Event.Settles, eq_comm]
      · simp [Event.Returned, Event.Reopens]
      · exact flight_drop declared rfl q tag
  | @nacked name gone st m' declared present =>
      refine linear.flight_settled name gone ?_ ?_ (fun q tag => flight_drop declared ?_ q tag)
        q tag m
      · intro q tag
        simp [Event.Settles, eq_comm]
      · simp [Event.Returned, Event.Reopens]
      · simp only [QueueState.move, Move.changes]
        split_ifs <;> rfl
  | reopened path requeues settled =>
      have empty : b'.flight q tag = none := by
        cases declared : b'.queue q with
        | none => exact Broker.flight_undeclared declared tag
        | some st =>
            rw [Broker.flight_declared declared, settled q st declared, OrdMap.get_empty]
      rw [empty, outstanding_snoc]
      simp [Event.Returned, Event.Reopens]

theorem Linear.next (linear : Linear past b) (sim : Simulates bc ids e b moves b') :
    Linear (past ++ [e]) b' where
  flight := linear.flight_next sim
  spent := by
    intro e' member q tag m returned
    rcases List.mem_append.mp member with old | new
    · exact (linear.spent e' old q tag m returned).path sim.step.path sim.sound sim.increasing
    · rw [List.mem_singleton.mp new] at returned
      exact sim.returned_spent returned
  distinct := by
    refine List.pairwise_append.mpr ⟨linear.distinct, List.pairwise_singleton _ _, ?_⟩
    intro e' old e'' new q q' tag m m' returned again
    rw [List.mem_singleton.mp new] at again
    exact sim.returned_unspent again (linear.spent e' old q tag m returned)

/-- A successful ack takes its tag out of the in-flight tree and touches no other tree. -/
theorem ack_trees {qm : QueueManager} (refines : Refines bc qm b) {q : String} {st : QueueState}
    {tag : DeliveryTag} {m : Message} (declared : b.queue q = some st)
    (present : st.inflight.get tag = some m) (clock : Nat → Int64) :
    ((Operation.ack q tag).perform bc ids clock qm).2.db.trees =
      Function.update qm.db.trees (inflightTreeName q)
        ((qm.db.trees (inflightTreeName q)).erase tag.toBeBytes) := by
  have start : Refines bc (Machine.mk qm clock).manager b := refines
  have found : ((Machine.mk qm clock).db.trees (inflightTreeName q)).get tag.toBeBytes =
      some (bc.message.encode m) := by
    rw [show inflightTreeName q = Role.inflight.treeName q from rfl, start.tree declared,
      st.get_inflight, present, Option.map_some]
  simp only [Operation.perform, exec, QueueManager.ack]
  rw [run_requireQueue start declared, run_openTree, run_remove_present ids _ _ found]
  rfl

/-- The three ways an ack or a nack can go. -/
inductive Settlement (b : Broker) (q : String) (tag : DeliveryTag) :
    Outcome PelicanError Unit → Prop where
  | undeclared (missing : b.queue q = none) : Settlement b q tag (.err (.queueNotFound q))
  | invalid {st : QueueState} (declared : b.queue q = some st)
      (absent : st.inflight.get tag = none) : Settlement b q tag (.err (.invalidDeliveryTag tag))
  | settled {st : QueueState} {m : Message} (declared : b.queue q = some st)
      (present : st.inflight.get tag = some m) : Settlement b q tag (.ok ())

theorem Simulates.ack_settlement (sim : Simulates bc ids e b moves b') {q : String}
    {tag : DeliveryTag} (ack : e.step.op = .ack q tag) :
    ∃ outcome, e.response = .acked outcome ∧ Settlement b q tag outcome := by
  have transition := sim.step
  rw [ack] at transition
  generalize e.response = response at transition ⊢
  cases transition with
  | notFound missing undeclared =>
      cases missing
      exact ⟨_, rfl, .undeclared undeclared⟩
  | invalidAck declared absent => exact ⟨_, rfl, .invalid declared absent⟩
  | acked declared present => exact ⟨_, rfl, .settled declared present⟩

theorem Simulates.nack_settlement (sim : Simulates bc ids e b moves b') {q : String}
    {tag : DeliveryTag} (nack : e.step.op = .nack q tag) :
    ∃ outcome, e.response = .nacked outcome ∧ Settlement b q tag outcome := by
  have transition := sim.step
  rw [nack] at transition
  generalize e.response = response at transition ⊢
  cases transition with
  | notFound missing undeclared =>
      cases missing
      exact ⟨_, rfl, .undeclared undeclared⟩
  | invalidNack declared absent => exact ⟨_, rfl, .invalid declared absent⟩
  | nacked declared present => exact ⟨_, rfl, .settled declared present⟩

theorem Settlement.ok_iff {q : String} {tag : DeliveryTag} {outcome : Outcome PelicanError Unit}
    (settlement : Settlement b q tag outcome) :
    outcome = .ok () ↔ ∃ m, b.flight q tag = some m := by
  cases settlement with
  | undeclared missing => simp [Broker.flight_undeclared missing]
  | invalid declared absent => simp [Broker.flight_declared declared, absent]
  | settled declared present => simp [Broker.flight_declared declared, present]

theorem Settlement.invalid_of {q : String} {tag : DeliveryTag}
    {outcome : Outcome PelicanError Unit} (settlement : Settlement b q tag outcome)
    (declared : ∃ st, b.queue q = some st) (nothing : ¬ ∃ m, b.flight q tag = some m) :
    outcome = .err (.invalidDeliveryTag tag) := by
  cases settlement with
  | undeclared missing =>
      obtain ⟨st, present⟩ := declared
      rw [missing] at present
      cases present
  | invalid => rfl
  | settled declared present =>
      exact absurd ⟨_, (Broker.flight_declared declared tag).trans present⟩ nothing

/-- How an event answers, from what is outstanding before it. -/
theorem Linear.verdict (linear : Linear past b) (sim : Simulates bc ids e b moves b') :
    Verdict bc past e := by
  have outstanding (q : String) (tag : DeliveryTag) :
      (∃ m, Outstanding past q tag m) ↔ ∃ m, b.flight q tag = some m :=
    exists_congr fun m => (linear.flight q tag m).symm
  have registered (q : String) (member : q.utf8 ∈ (e.before.db.trees metaQueuesTree).keys) :
      ∃ st, b.queue q = some st := by
    rwa [sim.before.held.registered, OrdMap.mapValues_keys, OrdMap.mem_keys] at member
  constructor
  · intro q tag ack
    obtain ⟨outcome, response, settlement⟩ := sim.ack_settlement ack
    rw [response, Response.acked.injEq, settlement.ok_iff, outstanding]
  · intro q tag nack
    obtain ⟨outcome, response, settlement⟩ := sim.nack_settlement nack
    rw [response, Response.nacked.injEq, settlement.ok_iff, outstanding]
  · intro q tag m ack open_tag
    have inFlight := (linear.flight q tag m).mpr open_tag
    obtain ⟨st, declared, present⟩ := Option.bind_eq_some_iff.mp inFlight
    have after : e.after = ((Operation.ack q tag).perform bc ids e.step.clock e.before).2 := by
      rw [← ack, ← sim.performed]
    refine ⟨?_, ?_⟩
    · rw [show inflightTreeName q = Role.inflight.treeName q from rfl,
        sim.before.held.stores q st declared, st.get_inflight, present, Option.map_some]
    · rw [after]
      exact ack_trees sim.before declared present e.step.clock
  · intro q tag ack member nothing
    obtain ⟨outcome, response, settlement⟩ := sim.ack_settlement ack
    rw [outstanding] at nothing
    rw [response, settlement.invalid_of (registered q member) nothing]
  · intro q tag nack member nothing
    obtain ⟨outcome, response, settlement⟩ := sim.nack_settlement nack
    rw [outstanding] at nothing
    rw [response, settlement.invalid_of (registered q member) nothing]

end Step

/-- Delivery tags are linear.  In every run from an empty directory no tag is returned
    twice, and every ack and nack is answered by what is outstanding when it is made. -/
theorem delivery_tags_linear (bc : Bincode) (ids : Nat → UInt64) (maxBytes : Option UInt64)
    (steps : List Step) (apart : NonColliding (declaredNames steps))
    (increasing : Increasing ids (final bc ids (started bc ids maxBytes) steps)) :
    ((events bc ids (started bc ids maxBytes) steps).Pairwise fun e e' =>
      ∀ q q' tag m m', e.Returned q tag m → ¬ e'.Returned q' tag m') ∧
    ∀ past e later, events bc ids (started bc ids maxBytes) steps = past ++ e :: later →
      Verdict bc past e := by
  obtain ⟨b, -, -, linear, verdicts⟩ := run_invariant bc ids maxBytes
    (fun past b => Linear past b ∧
      ∀ earlier e later, past = earlier ++ e :: later → Verdict bc earlier e)
    ⟨.empty maxBytes, by simp⟩
    (by
      rintro past e b moves b' ⟨linear, verdicts⟩ sim
      refine ⟨linear.next sim, fun earlier e' later split => ?_⟩
      rcases split_snoc split with ⟨-, rfl, rfl⟩ | ⟨later', -, front⟩
      · exact linear.verdict sim
      · exact verdicts earlier e' later' front)
    steps apart increasing
  exact ⟨linear.distinct, verdicts⟩

/-- A run with a tag used twice, a tag of another queue and a tag from before a reopening. -/
def tagRun : List Step :=
  [⟨.declareQueueWithRetention "a" default, fun _ => 0⟩,
    ⟨.declareQueueWithRetention "b" default, fun _ => 0⟩,
    ⟨.publish "a" ⟨1, [], [], 0, 0, 0, none, none⟩, fun _ => 0⟩,
    ⟨.consume "a", fun _ => 0⟩,
    ⟨.ack "b" 0, fun _ => 0⟩,
    ⟨.nack "a" 0, fun _ => 0⟩,
    ⟨.ack "a" 0, fun _ => 0⟩,
    ⟨.consume "a", fun _ => 0⟩,
    ⟨.reopen none, fun _ => 0⟩,
    ⟨.ack "a" 1, fun _ => 0⟩]

theorem tagRun_linear :
    ((events bincode (counter 0) (started bincode (counter 0) none) tagRun).Pairwise fun e e' =>
      ∀ q q' tag m m', e.Returned q tag m → ¬ e'.Returned q' tag m') ∧
    ∀ past e later, events bincode (counter 0) (started bincode (counter 0) none) tagRun =
      past ++ e :: later → Verdict bincode past e := by
  have drawn : (final bincode (counter 0) (started bincode (counter 0) none) tagRun).db.drawn = 3 := by
    decide +kernel
  exact delivery_tags_linear bincode (counter 0) none tagRun (by decide)
    (counter_increasing (by rw [drawn]; decide))

end PelicanQ
