import PelicanQ.Broker.Places
import PelicanQ.Broker.Snapshot

/-! # What keys and values look like

Every method that reads keys and values trusts the methods that wrote them: a key
is sliced at fixed offsets and a value is decoded.  `WellFormed` is what they rely
on.  Its last clauses are about the ids in the keys: a message keeps its id while
it is in flight and gets a new one wherever else it goes, so no two messages held
anywhere have the same id.
-/

namespace PelicanQ

/-- The id a place is known by. -/
def Place.id : Place → UInt64
  | .ready key | .deadLetter key => ReadyKey.id key
  | .inflight tag => tag
  | .scheduled key => DueKey.id key

/-! ## Ids of places -/

/-- A message is put under the next id or under the id it had. -/
theorem Move.puts_id {policy : RetentionPolicy} {id : UInt64} {mv : Move} {place : Place}
    {m : Message} (puts : mv.puts policy id = some (place, m)) :
    mv.draws = 1 ∧ place.id = id ∨ ∃ source, mv.takes = some source ∧ source.id = place.id := by
  cases mv with
  | store m due => cases due <;> cases puts <;> exact .inl ⟨rfl, rfl⟩
  | record | settle | discard => cases puts
  | deliver key m =>
      cases puts
      exact .inr ⟨.ready key, rfl, rfl⟩
  | retry tag m =>
      simp only [Move.puts] at puts
      split_ifs at puts <;> cases puts <;> exact .inl ⟨rfl, rfl⟩
  | promote | requeue =>
      cases puts
      exact .inl ⟨rfl, rfl⟩

theorem Move.Enabled.lookup {st : QueueState} {mv : Move} (enabled : mv.Enabled st) {place : Place}
    (takes : mv.takes = some place) : ∃ m, st.lookup place = some m := by
  cases mv with
  | store | record => cases takes
  | deliver key m | settle key m | retry key m | promote key m | discard key m | requeue key m =>
      cases takes
      exact ⟨m, enabled⟩

/-- Ids were handed out before, and none is used twice. -/
structure Broker.Unique (ids : Nat → UInt64) (b : Broker) : Prop where
  drawn : ∀ q place m, b.Has q place m → ∃ i < b.drawn, place.id = ids i
  unique : ∀ q q' place place' m m', b.Has q place m → b.Has q' place' m' →
    place.id = place'.id → q = q' ∧ place = place'

namespace Broker.Unique

variable {ids : Nat → UInt64} {b b' : Broker}

theorem empty (b : Broker) (none : b.queues = .empty) : b.Unique ids := by
  have nothing (q : String) (place : Place) (m : Message) : ¬b.Has q place m := by
    rintro ⟨st, declared, -⟩
    rw [Broker.queue, none, OrdMap.get_empty] at declared
    cases declared
  exact ⟨fun q place m has => (nothing q place m has).elim,
    fun q _ place _ m _ has => (nothing q place m has).elim⟩

/-- Nothing is anywhere that was not there before. -/
theorem fewer (unique : b.Unique ids) (has : ∀ q place m, b'.Has q place m → b.Has q place m)
    (drawn : b.drawn ≤ b'.drawn) : b'.Unique ids where
  drawn q place m here :=
    let ⟨i, below, id⟩ := unique.drawn q place m (has q place m here)
    ⟨i, below.trans_le drawn, id⟩
  unique q q' place place' m m' here there :=
    unique.unique q q' place place' m m' (has q place m here) (has q' place' m' there)

theorem move (unique : b.Unique ids) {name : String} {st : QueueState} {mv : Move}
    (declared : b.queue name = some st) (enabled : mv.Enabled st)
    (increasing : StrictMonoOn ids (Set.Iio (b.move ids name mv).drawn)) :
    (b.move ids name mv).Unique ids := by
  rw [Broker.move_drawn declared] at increasing
  -- what is put somewhere has an id that is nowhere else
  have new {place : Place} {m : Message}
      (puts : mv.puts st.policy (ids b.drawn) = some (place, m)) {q' : String} {place' : Place}
      {m' : Message} (old : b.Has q' place' m') (left : q' = name → mv.takes ≠ some place') :
      place.id ≠ place'.id := by
    rcases Move.puts_id puts with ⟨one, fresh⟩ | ⟨source, takes, id⟩
    · obtain ⟨i, below, id⟩ := unique.drawn q' place' m' old
      rw [fresh, id]
      exact (increasing (by simp [one]; omega) (by simp [one]) below).ne'
    · obtain ⟨m'', present⟩ := enabled.lookup takes
      rw [← id]
      intro same
      obtain ⟨rfl, rfl⟩ := unique.unique name q' source place' m'' m' ⟨st, declared, present⟩ old same
      exact left rfl takes
  constructor
  · intro q place m has
    rw [Broker.move_drawn declared]
    rcases Broker.Has.moved declared has with ⟨old, -⟩ | ⟨rfl, puts⟩
    · obtain ⟨i, below, id⟩ := unique.drawn q place m old
      exact ⟨i, by omega, id⟩
    · rcases Move.puts_id puts with ⟨one, fresh⟩ | ⟨source, takes, id⟩
      · exact ⟨b.drawn, by omega, fresh⟩
      · obtain ⟨m', present⟩ := enabled.lookup takes
        obtain ⟨i, below, source_id⟩ := unique.drawn q source m' ⟨st, declared, present⟩
        exact ⟨i, by omega, id ▸ source_id⟩
  · intro q q' place place' m m' here there same
    rcases Broker.Has.moved declared here with ⟨old, left⟩ | ⟨rfl, puts⟩
    · rcases Broker.Has.moved declared there with ⟨old', -⟩ | ⟨rfl, puts'⟩
      · exact unique.unique q q' place place' m m' old old' same
      · exact absurd same.symm (new puts' old left)
    · rcases Broker.Has.moved declared there with ⟨old', left'⟩ | ⟨rfl, puts'⟩
      · exact absurd same (new puts old' left')
      · rw [puts] at puts'
        cases puts'
        exact ⟨rfl, rfl⟩

theorem path {moves : List (String × Move)} (unique : b.Unique ids) (path : Path ids b moves b')
    (increasing : StrictMonoOn ids (Set.Iio b'.drawn)) : b'.Unique ids := by
  induction path with
  | done => exact unique
  | idle queues drawn _ ih =>
      refine ih (unique.fewer (fun q place m has => ?_) drawn) increasing
      rwa [Broker.Has, Broker.queue, ← queues]
  | @declare b _ name policy _ _ _ ih =>
      refine ih (unique.fewer (fun q place m has => ?_) (Nat.le_refl _)) increasing
      obtain ⟨st, declared, present⟩ := has
      rw [Broker.queue, OrdMap.get_insert] at declared
      split_ifs at declared
      · cases declared
        rw [QueueState.lookup_fresh] at present
        cases present
      · exact ⟨st, declared, present⟩
  | move declared enabled more ih =>
      exact ih (unique.move declared enabled
        (increasing.mono (Set.Iio_subset_Iio more.drawn_le))) increasing

end Broker.Unique

/-! ## Bytes -/

/-- The eight bytes of a key that are an id. -/
def Item.id (x : Item) : UInt64 :=
  UInt64.fromBeBytes <| match x.role with
    | .ready | .deadLetter => x.key.drop 1
    | .scheduled => x.key.drop 8
    | .inflight | .dedup => x.key

/-- The key has the layout of its tree, and agrees with the message on what it repeats. -/
def Item.Keyed (x : Item) (m : Message) : Prop :=
  match x.role with
  | .ready | .deadLetter =>
      x.key.length = 9 ∧ x.key.head?.map UInt8.toNat = some (9 - min m.priority.toNat 9)
  | .scheduled =>
      x.key.length = 16 ∧ ∃ deliverAt, m.deliverAt = some deliverAt ∧
        x.key.take 8 = deliverAt.toUInt64.toBeBytes
  | .inflight => x.key.length = 8
  | .dedup => False

/-- What every method that reads a tree relies on. -/
structure WellFormed (bc : Bincode) (ids : Nat → UInt64) (qm : QueueManager) : Prop where
  message : ∀ q x, Holds qm q x → ∃ m, bc.message.decode x.value = .ok m ∧ x.Keyed m
  dedup : ∀ q : String, q.utf8 ∈ (qm.db.trees metaQueuesTree).keys →
    ∀ value ∈ (qm.db.trees (dedupTreeName q)).values, value.length = 8
  distinct : ∀ q q' x x', Holds qm q x → Holds qm q' x' → x.id = x'.id → q = q' ∧ x = x'
  below : ∀ q x, Holds qm q x → x.id < ids qm.db.drawn

theorem Place.item_id (bc : Bincode) (place : Place) (m : Message) :
    (place.item bc m).id = place.id := by
  cases place with
  | ready key | deadLetter key => exact UInt64.fromBeBytes_toBeBytes (ReadyKey.id key)
  | inflight tag => exact UInt64.fromBeBytes_toBeBytes tag
  | scheduled key =>
      have tail : (DueKey.bytes key).drop 8 = (DueKey.id key).toBeBytes :=
        List.drop_left' (UInt64.length_toBeBytes _)
      exact (congrArg UInt64.fromBeBytes tail).trans (UInt64.fromBeBytes_toBeBytes _)

theorem readyKey_keyed (priority : UInt8) (id : UInt64) :
    (encodeKey priority id).length = 9 ∧
      (encodeKey priority id).head?.map UInt8.toNat = some (9 - min priority.toNat 9) := by
  constructor
  · rw [encodeKey, List.length_cons, UInt64.length_toBeBytes]
  · exact congrArg some (rank_toNat priority)

/-- The keys of a sound queue have the layout of their trees. -/
theorem QueueState.Sound.keyed {ids : Nat → UInt64} {n : Nat} {st : QueueState}
    (sound : st.Sound ids n) (bc : Bincode) {place : Place} {m : Message}
    (present : st.lookup place = some m) : (place.item bc m).Keyed m := by
  cases place with
  | ready key =>
      obtain ⟨i, -, rfl : key = readyKey m.priority (ids i)⟩ :=
        sound.ready _ (OrdMap.get_eq_some.mp present)
      exact readyKey_keyed m.priority (ids i)
  | deadLetter key =>
      obtain ⟨i, -, rfl : key = readyKey m.priority (ids i)⟩ :=
        sound.deadLetter _ (OrdMap.get_eq_some.mp present)
      exact readyKey_keyed m.priority (ids i)
  | inflight tag => exact UInt64.length_toBeBytes tag
  | scheduled key =>
      obtain ⟨i, -, deliverAt, at_time, rfl : key = dueKey deliverAt (ids i)⟩ :=
        sound.scheduled _ (OrdMap.get_eq_some.mp present)
      refine ⟨?_, deliverAt, at_time, List.take_left' (UInt64.length_toBeBytes _)⟩
      exact (List.length_append ..).trans (by simp only [UInt64.length_toBeBytes])

theorem Refines.wellFormed {bc : Bincode} {ids : Nat → UInt64} {qm : QueueManager} {b : Broker}
    (h : Refines bc qm b) (sound : b.Sound ids) (unique : b.Unique ids)
    (increasing : StrictMonoOn ids (Set.Iic qm.db.drawn)) : WellFormed bc ids qm where
  message q x held := by
    obtain ⟨place, m, rfl, st, declared, present⟩ := h.holds.mp held
    exact ⟨m, bc.message.decode_encode m, (sound.queues q st declared).keyed bc present⟩
  dedup q registered value member := by
    obtain ⟨st, declared⟩ := h.registered.mp registered
    rw [show dedupTreeName q = Role.dedup.treeName q from rfl, h.held.stores q st declared] at member
    obtain ⟨e, inside, rfl⟩ := List.mem_map.mp member
    obtain ⟨e', -, rfl⟩ := List.mem_map.mp inside
    exact Int64.length_toBeBytes e'.2
  distinct q q' x x' held held' same := by
    obtain ⟨place, m, rfl, has⟩ := h.holds.mp held
    obtain ⟨place', m', rfl, has'⟩ := h.holds.mp held'
    rw [Place.item_id, Place.item_id] at same
    obtain ⟨rfl, rfl⟩ := unique.unique q q' place place' m m' has has' same
    obtain ⟨st, declared, present⟩ := has
    rw [Broker.has_iff declared, present, Option.some.injEq] at has'
    exact ⟨rfl, by rw [has']⟩
  below q x held := by
    obtain ⟨place, m, rfl, has⟩ := h.holds.mp held
    obtain ⟨i, below, id⟩ := unique.drawn q place m has
    rw [← h.drawn] at below
    rw [Place.item_id, id]
    exact increasing below.le (Set.mem_Iic.mpr (Nat.le_refl _)) below

/-! ## Runs -/

/-- In every run, keys and values have their layout, no id is used twice, every operation answers
    with a value or an error of the domain, and so does a snapshot taken at the end. -/
theorem representation_invariant (bc : Bincode) (ids : Nat → UInt64) (maxBytes : Option UInt64)
    (steps : List Step) (apart : NonColliding (declaredNames steps))
    (increasing : StrictMonoOn ids (Set.Iic (final bc ids (started bc ids maxBytes) steps).db.drawn)) :
    WellFormed bc ids (final bc ids (started bc ids maxBytes) steps) ∧
      (∀ e ∈ events bc ids (started bc ids maxBytes) steps, e.response.Regular) ∧
      Regular (exportOf bc ids (final bc ids (started bc ids maxBytes) steps)) := by
  obtain ⟨b, refines, sound, unique, regular⟩ := run_steps bc ids maxBytes
    (fun steps b => b.Unique ids ∧
      ∀ e ∈ events bc ids (started bc ids maxBytes) steps, e.response.Regular)
    ⟨.empty _ rfl, fun _ member => (List.not_mem_nil member).elim⟩
    (fun past step b ⟨unique, regular⟩ performs => by
      obtain ⟨moves, transition⟩ :=
        perform_transition ids bc step.clock b performs.before.held.utf8 step.op
      refine ⟨unique.path transition.path performs.increasing, fun e member => ?_⟩
      rw [events_append] at member
      rcases List.mem_append.mp member with old | new
      · exact regular e old
      · rw [List.mem_singleton.mp new]
        have regular := perform_regular bc ids step.clock b step.op
        rwa [← performs.response] at regular)
    steps apart (increasing.mono Set.Iio_subset_Iic_self)
  refine ⟨refines.wellFormed sound unique increasing, regular, ?_⟩
  rw [exportOf_refines ids refines]
  trivial

/-- One message in each store, and one dedup record. -/
def fourStores : List Step :=
  let policy : RetentionPolicy := { maxDeliveryAttempts := some 1, dedupWindowSecs := some 10 }
  [⟨.declareQueueWithRetention "q" policy, fun _ => 0⟩,
    ⟨.publish "q" ⟨1, [], [], 0, 0, 9, none, none⟩, fun _ => 0⟩,
    ⟨.publish "q" ⟨2, [], [], 0, 0, 4, none, none⟩, fun _ => 0⟩,
    ⟨.publish "q" ⟨3, [], [], 0, 0, 0, none, some "k"⟩, fun _ => 0⟩,
    ⟨.publish "q" ⟨4, [], [], 0, 0, 0, some 100, none⟩, fun _ => 0⟩,
    ⟨.consume "q", fun _ => 0⟩,
    ⟨.nack "q" 0, fun _ => 0⟩,
    ⟨.consume "q", fun _ => 0⟩]

theorem fourStores_wellFormed :
    (∀ role : Role, ((final bincode (counter 0) (started bincode (counter 0) none)
      fourStores).db.trees (role.treeName "q")).entries.length = 1) ∧
    WellFormed bincode (counter 0)
      (final bincode (counter 0) (started bincode (counter 0) none) fourStores) := by
  have drawn : (final bincode (counter 0) (started bincode (counter 0) none) fourStores).db.drawn =
      5 := by decide +kernel
  refine ⟨by decide +kernel,
    (representation_invariant bincode (counter 0) none fourStores (by decide) ?_).1⟩
  rw [drawn]
  intro i _ j below less
  rw [Set.mem_Iic] at below
  exact counter_lt less (by omega)

end PelicanQ
