import PelicanQ.Broker.Runs

/-! # What a broker holds

The messages of a queue as a multiset, without the delivery counter.  A move
neither makes nor destroys messages, except that storing adds one and settling
or discarding takes one away, so a sequence of moves is balanced in every queue.
-/

namespace PelicanQ

/-- A message without the counter that deliveries change. -/
def Message.content (m : Message) : Message := { m with deliveryAttempts := 0 }

section Tally

variable {K : Type} [LinearOrder K]

/-- The messages of a store, without their counters. -/
def tally (store : OrdMap K Message) : Multiset Message :=
  Multiset.ofList (store.entries.map fun e => e.2.content)

@[simp] theorem tally_empty : tally (.empty : OrdMap K Message) = 0 := rfl

theorem tally_insert {store : OrdMap K Message} {k : K} (fresh : k ∉ store.keys) (m : Message) :
    tally (store.insert k m) = {m.content} + tally store := by
  rw [tally, Multiset.coe_eq_coe.mpr ((OrdMap.insert_perm fresh m).map _)]
  rfl

theorem tally_erase {store : OrdMap K Message} {k : K} {m : Message}
    (present : store.get k = some m) : tally store = {m.content} + tally (store.erase k) := by
  rw [tally, Multiset.coe_eq_coe.mpr ((OrdMap.erase_perm present).map _)]
  rfl

end Tally

namespace QueueState

def contents (st : QueueState) : Multiset Message :=
  tally st.ready + tally st.scheduled + tally st.inflight + tally st.deadLetter

variable {st : QueueState}

theorem contents_putReady {key : ReadyKey} (fresh : key ∉ st.ready.keys) (m : Message) :
    (st.apply (.putReady key m)).contents = {m.content} + st.contents := by
  simp only [QueueState.apply, contents, tally_insert fresh]
  abel

theorem contents_dropReady {key : ReadyKey} {m : Message} (present : st.ready.get key = some m) :
    st.contents = {m.content} + (st.apply (.dropReady key)).contents := by
  simp only [QueueState.apply, contents, tally_erase present]
  abel

theorem contents_putInflight {tag : UInt64} (fresh : tag ∉ st.inflight.keys) (m : Message) :
    (st.apply (.putInflight tag m)).contents = {m.content} + st.contents := by
  simp only [QueueState.apply, contents, tally_insert fresh]
  abel

theorem contents_dropInflight {tag : UInt64} {m : Message} (present : st.inflight.get tag = some m) :
    st.contents = {m.content} + (st.apply (.dropInflight tag)).contents := by
  simp only [QueueState.apply, contents, tally_erase present]
  abel

theorem contents_putDeadLetter {key : ReadyKey} (fresh : key ∉ st.deadLetter.keys) (m : Message) :
    (st.apply (.putDeadLetter key m)).contents = {m.content} + st.contents := by
  simp only [QueueState.apply, contents, tally_insert fresh]
  abel

theorem contents_putScheduled {key : DueKey} (fresh : key ∉ st.scheduled.keys) (m : Message) :
    (st.apply (.putScheduled key m)).contents = {m.content} + st.contents := by
  simp only [QueueState.apply, contents, tally_insert fresh]
  abel

theorem contents_dropScheduled {key : DueKey} {m : Message}
    (present : st.scheduled.get key = some m) :
    st.contents = {m.content} + (st.apply (.dropScheduled key)).contents := by
  simp only [QueueState.apply, contents, tally_erase present]
  abel

end QueueState

/-- What a move brings into its queue. -/
def Move.incoming : Move → Multiset Message
  | .store m _ => {m.content}
  | _ => 0

/-- What a move takes out of its queue. -/
def Move.outgoing : Move → Multiset Message
  | .settle _ m | .discard _ m => {m.content}
  | _ => 0

namespace QueueState.Sound

variable {ids : Nat → UInt64} {n : Nat} {st : QueueState}

theorem fresh_ready (sound : st.Sound ids n) (fresh : ∀ i < n, ids i < ids n) (priority : UInt8) :
    readyKey priority (ids n) ∉ st.ready.keys := fun member =>
  (sound.not_arrived fresh _ (sound.arrived _ member)).ne rfl

theorem fresh_deadLetter (sound : st.Sound ids n) (fresh : ∀ i < n, ids i < ids n)
    (priority : UInt8) : readyKey priority (ids n) ∉ st.deadLetter.keys := by
  intro member
  obtain ⟨e, inside, key⟩ := List.mem_map.mp member
  obtain ⟨i, below, made⟩ := sound.deadLetter e inside
  have ids_eq : ids n = ids i := congrArg ReadyKey.id (key.symm.trans made)
  exact (fresh i below).ne ids_eq.symm

theorem fresh_scheduled (sound : st.Sound ids n) (fresh : ∀ i < n, ids i < ids n)
    (deliverAt : Int64) : dueKey deliverAt (ids n) ∉ st.scheduled.keys := by
  intro member
  obtain ⟨e, inside, key⟩ := List.mem_map.mp member
  obtain ⟨i, below, _, -, made⟩ := sound.scheduled e inside
  have ids_eq : ids n = ids i := congrArg DueKey.id (key.symm.trans made)
  exact (fresh i below).ne ids_eq.symm

/-- One move is balanced. -/
theorem contents_move (sound : st.Sound ids n) {mv : Move} (enabled : mv.Enabled st)
    (increasing : StrictMonoOn ids (Set.Iio (n + mv.draws))) :
    (st.move (ids n) mv).contents + mv.outgoing = st.contents + mv.incoming := by
  have fresh (one : mv.draws = 1) : ∀ i < n, ids i < ids n := fun i below =>
    increasing (by simp [one]; omega) (by simp [one]) below
  cases mv with
  | store m due =>
      cases due with
      | none =>
          change (st.apply (.putReady _ m)).contents + 0 = st.contents + {m.content}
          rw [contents_putReady (sound.fresh_ready (fresh rfl) m.priority), add_zero, add_comm]
      | some deliverAt =>
          change (st.apply (.putScheduled _ m)).contents + 0 = st.contents + {m.content}
          rw [contents_putScheduled (sound.fresh_scheduled (fresh rfl) deliverAt), add_zero,
            add_comm]
  | record key time => rfl
  | deliver key m =>
      have absent : ReadyKey.id key ∉ (st.apply (.dropReady key)).inflight.keys :=
        sound.apart key (OrdMap.mem_keys.mpr ⟨m, enabled⟩)
      change ((st.apply (.dropReady key)).apply (.putInflight _ m)).contents + 0 = st.contents + 0
      rw [contents_putInflight absent, ← contents_dropReady enabled]
  | settle tag m =>
      change (st.apply (.dropInflight tag)).contents + {m.content} = st.contents + 0
      rw [contents_dropInflight enabled, add_zero, add_comm]
  | retry tag m =>
      have sound' := sound.dropInflight tag
      simp only [QueueState.move, Move.changes, List.foldl_cons, List.foldl_nil]
      rw [contents_dropInflight enabled]
      split_ifs
      · rw [contents_putDeadLetter (sound'.fresh_deadLetter (fresh rfl) m.priority)]
        rfl
      · rw [contents_putReady (sound'.fresh_ready (fresh rfl) m.priority)]
        rfl
  | promote key m =>
      change ((st.apply (.dropScheduled key)).apply (.putReady _ m)).contents + 0 = st.contents + 0
      rw [contents_putReady ((sound.dropScheduled key).fresh_ready (fresh rfl) m.priority),
        ← contents_dropScheduled enabled]
  | discard key m =>
      change (st.apply (.dropReady key)).contents + {m.content} = st.contents + 0
      rw [contents_dropReady enabled, add_zero, add_comm]
  | requeue tag m =>
      have put := contents_putReady (sound.fresh_ready (fresh rfl) m.priority) m
      have still : (st.apply (.putReady (readyKey m.priority (ids n)) m)).inflight.get tag = some m :=
        enabled
      rw [contents_dropInflight still] at put
      exact congrArg (· + 0) (add_left_cancel put)

end QueueState.Sound

/-- The messages a broker holds for a queue. -/
def Broker.contents (b : Broker) (q : String) : Multiset Message :=
  ((b.queue q).map QueueState.contents).getD 0

/-- The total over the moves in one queue. -/
def total (side : Move → Multiset Message) (q : String) (moves : List (String × Move)) :
    Multiset Message :=
  (moves.map fun x => if x.1 = q then side x.2 else 0).sum

@[simp] theorem total_nil (side : Move → Multiset Message) (q : String) : total side q [] = 0 := rfl

@[simp] theorem total_cons (side : Move → Multiset Message) (q : String) (x : String × Move)
    (moves : List (String × Move)) :
    total side q (x :: moves) = (if x.1 = q then side x.2 else 0) + total side q moves :=
  List.sum_cons

theorem total_zero {side : Move → Multiset Message} {moves : List (String × Move)}
    (none : ∀ x ∈ moves, side x.2 = 0) (q : String) : total side q moves = 0 := by
  induction moves with
  | nil => rfl
  | cons x moves ih =>
      rw [total_cons, none x List.mem_cons_self,
        ih fun x' member => none x' (List.mem_cons_of_mem _ member), ite_self, add_zero]

/-- A sequence of moves is balanced in every queue. -/
theorem Path.balanced {ids : Nat → UInt64} {b b' : Broker} {moves : List (String × Move)}
    (path : Path ids b moves b') (sound : b.Sound ids)
    (increasing : StrictMonoOn ids (Set.Iio b'.drawn)) (q : String) :
    b'.contents q + total Move.outgoing q moves = b.contents q + total Move.incoming q moves := by
  induction path with
  | done => rfl
  | idle queues drawn _ ih =>
      have same : Broker.contents _ q = Broker.contents _ q := congrArg
        (fun queues : OrdMap Bytes QueueState => ((queues.get q.utf8).map QueueState.contents).getD 0)
        queues
      rw [ih (sound.idle queues drawn) increasing, same]
  | @declare b b' name policy _ undeclared _ ih =>
      rw [ih (sound.declare name policy) increasing]
      congr 1
      by_cases here : q = name
      · subst here
        rw [Broker.contents, Broker.contents, undeclared, Broker.queue, OrdMap.get_insert, if_pos rfl]
        rfl
      · simp only [Broker.contents, Broker.queue, OrdMap.get_insert,
          String.utf8_injective.eq_iff, here, if_false]
  | @move b b' name st mv moves declared enabled more ih =>
      have upTo := increasing.mono (Set.Iio_subset_Iio more.drawn_le)
      have rest := ih (sound.move declared enabled upTo) increasing
      rw [Broker.move_drawn declared] at upTo
      rw [total_cons, total_cons]
      by_cases here : name = q
      · subst here
        have one := (sound.queues name st declared).contents_move enabled upTo
        have before : b.contents name = st.contents := by rw [Broker.contents, declared]; rfl
        have after : (b.move ids name mv).contents name = (st.move (ids b.drawn) mv).contents := by
          rw [Broker.contents, Broker.move_queue declared]
          rfl
        rw [after] at rest
        rw [if_pos rfl, if_pos rfl, before, add_left_comm, rest, ← add_assoc, ← add_assoc,
          add_comm mv.outgoing, one]
      · have other : (b.move ids name mv).contents q = b.contents q := by
          rw [Broker.contents, Broker.move_queue_other b (Ne.symm here), Broker.contents]
        rw [if_neg here, if_neg here, zero_add, zero_add, rest, other]

end PelicanQ
