import PelicanQ.Broker.State

/-! # What moves preserve

`Sound` is what holds of a queue in every run that starts empty: each key was
made from an id handed out before, its leading part is that of its message, and
the ids of ready keys and the tags in flight are all different.  A move that is
possible keeps a queue sound as long as the id it takes is above all earlier
ones; that is where the order of the id source is used, and the only place.
-/

namespace PelicanQ

/-- The message a move is about is where the move takes it from. -/
def Move.Enabled (st : QueueState) : Move → Prop
  | .store m (some deliverAt) => m.deliverAt = some deliverAt
  | .store _ none | .record .. => True
  | .deliver key m | .discard key m => st.ready.get key = some m
  | .settle tag m | .retry tag m | .requeue tag m => st.inflight.get tag = some m
  | .promote key m => st.scheduled.get key = some m

/-- A queue whose keys were made from the first `n` ids. -/
structure QueueState.Sound (ids : Nat → UInt64) (n : Nat) (st : QueueState) : Prop where
  ready : ∀ e ∈ st.ready.entries, ∃ i < n, e.1 = readyKey e.2.priority (ids i)
  arrived : ∀ key ∈ st.ready.keys, key ∈ st.arrivals
  drawn : ∀ key ∈ st.arrivals, ∃ i < n, ReadyKey.id key = ids i
  ordered : st.arrivals.Pairwise fun key key' => ReadyKey.id key < ReadyKey.id key'
  inflight : ∀ tag ∈ st.inflight.keys, ∃ key ∈ st.arrivals, ReadyKey.id key = tag
  apart : ∀ key ∈ st.ready.keys, ReadyKey.id key ∉ st.inflight.keys
  deadLetter : ∀ e ∈ st.deadLetter.entries, ∃ i < n, e.1 = readyKey e.2.priority (ids i)
  scheduled : ∀ e ∈ st.scheduled.entries,
    ∃ i < n, ∃ deliverAt, e.2.deliverAt = some deliverAt ∧ e.1 = dueKey deliverAt (ids i)

namespace QueueState

theorem Sound.fresh (ids : Nat → UInt64) (n : Nat) (policy : RetentionPolicy) :
    (QueueState.fresh policy).Sound ids n := by
  constructor <;> simp [QueueState.fresh, OrdMap.keys]

namespace Sound

variable {ids : Nat → UInt64} {n : Nat} {st : QueueState}

/-- More ids handed out change nothing. -/
theorem mono (sound : st.Sound ids n) {n' : Nat} (le : n ≤ n') : st.Sound ids n' where
  ready e member :=
    let ⟨i, below, key⟩ := sound.ready e member
    ⟨i, below.trans_le le, key⟩
  arrived := sound.arrived
  drawn key member :=
    let ⟨i, below, id⟩ := sound.drawn key member
    ⟨i, below.trans_le le, id⟩
  ordered := sound.ordered
  inflight := sound.inflight
  apart := sound.apart
  deadLetter e member :=
    let ⟨i, below, key⟩ := sound.deadLetter e member
    ⟨i, below.trans_le le, key⟩
  scheduled e member :=
    let ⟨i, below, key⟩ := sound.scheduled e member
    ⟨i, below.trans_le le, key⟩

/-- A key that ever was ready is known by its id. -/
theorem arrival_unique (sound : st.Sound ids n) {key key' : ReadyKey} (here : key ∈ st.arrivals)
    (there : key' ∈ st.arrivals) (same : ReadyKey.id key = ReadyKey.id key') : key = key' :=
  List.inj_on_of_nodup_map (List.pairwise_map.mpr (sound.ordered.imp ne_of_lt)) here there same

/-- An id above all earlier ones belongs to no key that ever was ready. -/
theorem not_arrived (sound : st.Sound ids n) (fresh : ∀ i < n, ids i < ids n) :
    ∀ key ∈ st.arrivals, ReadyKey.id key < ids n := by
  intro key member
  obtain ⟨i, below, id⟩ := sound.drawn key member
  exact id ▸ fresh i below

theorem dropReady (sound : st.Sound ids n) (key : ReadyKey) :
    (st.apply (.dropReady key)).Sound ids n where
  __ := sound
  ready e member := sound.ready e (OrdMap.mem_erase.mp member).1
  arrived key' member := sound.arrived key' (OrdMap.mem_keys_erase.mp member).2
  apart key' member := sound.apart key' (OrdMap.mem_keys_erase.mp member).2

theorem dropInflight (sound : st.Sound ids n) (tag : UInt64) :
    (st.apply (.dropInflight tag)).Sound ids n where
  __ := sound
  inflight tag' member := sound.inflight tag' (OrdMap.mem_keys_erase.mp member).2
  apart key member inside := sound.apart key member (OrdMap.mem_keys_erase.mp inside).2

theorem dropScheduled (sound : st.Sound ids n) (key : DueKey) :
    (st.apply (.dropScheduled key)).Sound ids n where
  __ := sound
  scheduled e member := sound.scheduled e (OrdMap.mem_erase.mp member).1

theorem putDedup (sound : st.Sound ids n) (key : Bytes) (time : Int64) :
    (st.apply (.putDedup key time)).Sound ids n where
  __ := sound

/-- A tag goes in flight when its key leaves the ready store. -/
theorem putInflight (sound : st.Sound ids n) {key : ReadyKey} (arrived : key ∈ st.arrivals)
    (gone : key ∉ st.ready.keys) (m : Message) :
    (st.apply (.putInflight (ReadyKey.id key) m)).Sound ids n where
  __ := sound
  inflight tag member := by
    rcases OrdMap.mem_keys_insert.mp member with rfl | old
    · exact ⟨key, arrived, rfl⟩
    · exact sound.inflight tag old
  apart key' member inside := by
    rcases OrdMap.mem_keys_insert.mp inside with same | old
    · exact gone (sound.arrival_unique (sound.arrived key' member) arrived same ▸ member)
    · exact sound.apart key' member old

variable (fresh : ∀ i < n, ids i < ids n)

include fresh in
/-- A message becomes ready under a fresh id. -/
theorem putReady (sound : st.Sound ids n) (m : Message) :
    (st.apply (.putReady (readyKey m.priority (ids n)) m)).Sound ids (n + 1) where
  __ := sound.mono (Nat.le_succ n)
  ready e member := by
    rcases OrdMap.mem_insert.mp member with rfl | ⟨old, -⟩
    · exact ⟨n, Nat.lt_succ_self n, rfl⟩
    · exact (sound.mono (Nat.le_succ n)).ready e old
  arrived key member := by
    rcases OrdMap.mem_keys_insert.mp member with rfl | old
    · exact List.mem_append_right _ (List.mem_singleton_self _)
    · exact List.mem_append_left _ (sound.arrived key old)
  drawn key member := by
    rcases List.mem_append.mp member with old | new
    · exact (sound.mono (Nat.le_succ n)).drawn key old
    · rw [List.mem_singleton.mp new]
      exact ⟨n, Nat.lt_succ_self n, rfl⟩
  ordered := by
    refine List.pairwise_append.mpr ⟨sound.ordered, List.pairwise_singleton _ _, ?_⟩
    intro key old key' new
    rw [List.mem_singleton.mp new]
    exact sound.not_arrived fresh key old
  inflight tag member := by
    obtain ⟨key, old, id⟩ := sound.inflight tag member
    exact ⟨key, List.mem_append_left _ old, id⟩
  apart key member inside := by
    rcases OrdMap.mem_keys_insert.mp member with rfl | old
    · obtain ⟨key, arrived, id⟩ := sound.inflight _ inside
      exact (sound.not_arrived fresh key arrived).ne id
    · exact sound.apart key old inside

theorem putDeadLetter (sound : st.Sound ids n) (m : Message) :
    (st.apply (.putDeadLetter (readyKey m.priority (ids n)) m)).Sound ids (n + 1) where
  __ := sound.mono (Nat.le_succ n)
  deadLetter e member := by
    rcases OrdMap.mem_insert.mp member with rfl | ⟨old, -⟩
    · exact ⟨n, Nat.lt_succ_self n, rfl⟩
    · exact (sound.mono (Nat.le_succ n)).deadLetter e old

theorem putScheduled (sound : st.Sound ids n) {m : Message} {deliverAt : Int64}
    (at_time : m.deliverAt = some deliverAt) :
    (st.apply (.putScheduled (dueKey deliverAt (ids n)) m)).Sound ids (n + 1) where
  __ := sound.mono (Nat.le_succ n)
  scheduled e member := by
    rcases OrdMap.mem_insert.mp member with rfl | ⟨old, -⟩
    · exact ⟨n, Nat.lt_succ_self n, deliverAt, at_time, rfl⟩
    · exact (sound.mono (Nat.le_succ n)).scheduled e old

/-- Every possible move keeps a queue sound. -/
theorem move (sound : st.Sound ids n) {mv : Move} (enabled : mv.Enabled st)
    (increasing : StrictMonoOn ids (Set.Iio (n + mv.draws))) :
    (st.move (ids n) mv).Sound ids (n + mv.draws) := by
  have fresh (one : mv.draws = 1) : ∀ i < n, ids i < ids n := fun i below =>
    increasing (by simp [one]; omega) (by simp [one]) below
  cases mv with
  | store m due =>
      cases due with
      | none => exact sound.putReady (fresh rfl) m
      | some deliverAt => exact sound.putScheduled enabled
  | record key time => exact sound.putDedup key time
  | deliver key m =>
      have present : key ∈ st.ready.keys := OrdMap.mem_keys.mpr ⟨m, enabled⟩
      exact (sound.dropReady key).putInflight (sound.arrived key present)
        (fun member => (OrdMap.mem_keys_erase.mp member).1 rfl) m
  | settle tag m => exact sound.dropInflight tag
  | retry tag m =>
      have dropped := sound.dropInflight tag
      simp only [QueueState.move, Move.changes]
      split_ifs
      · exact dropped.putDeadLetter m.retried
      · exact dropped.putReady (fresh rfl) m.retried
  | promote key m => exact (sound.dropScheduled key).putReady (fresh rfl) m
  | discard key m => exact sound.dropReady key
  | requeue tag m => exact (sound.putReady (fresh rfl) m).dropInflight tag

end Sound

end QueueState

end PelicanQ
