import PelicanQ.Broker.Runs

/-! # Delivery order

The ready tree is sorted by inverted priority and then by id, so `consume` takes
the front: a message of the highest priority class.  Every way into the ready
store makes its key from a fresh id, and ids increase over the life of the
database, so within a class the front is what entered first.  Entries into the
ready store are the inserts into its tree, as the write log lists them.
-/

namespace PelicanQ

/-- Every entry of the first key stands before every entry of the second. -/
def EnteredBefore (arrivals : List Bytes) (key key' : Bytes) : Prop :=
  key ∈ arrivals ∧ key' ∈ arrivals ∧
    ∀ i j : Nat, arrivals[i]? = some key → arrivals[j]? = some key' → i < j

/-- The entry under `key` is the one to deliver: nothing ready has a higher clamped
    priority, and nothing of the same one entered earlier. -/
def FirstInLine (bc : Bincode) (qm : QueueManager) (q : String) (key : Bytes) (m : Message) : Prop :=
  (key, bc.message.encode m) ∈ (qm.db.trees q).entries ∧
    ∀ entry ∈ (qm.db.trees q).entries, ∃ m', bc.message.decode entry.2 = .ok m' ∧
      clampPriority m'.priority ≤ clampPriority m.priority ∧
      (clampPriority m'.priority = clampPriority m.priority → entry.1 ≠ key →
        EnteredBefore (arrivalsIn q qm.db.log) key entry.1)

/-- A consume returns what is first in line, under the id of its key, and takes it
    out of the ready tree; it returns nothing only when nothing is ready. -/
def Event.InOrder (bc : Bincode) (q : String) (e : Event) : Prop :=
  e.step.op = .consume q →
    (∀ tag m, e.response = .consumed (.ok (some (tag, m))) →
      ∃ key, FirstInLine bc e.before q key m ∧ UInt64.fromBeBytes (key.drop 1) = tag ∧
        e.after.db.trees q = (e.before.db.trees q).erase key) ∧
    (e.response = .consumed (.ok none) → (e.before.db.trees q).entries = [])

section Front

variable {ids : Nat → UInt64} {n : Nat} {st : QueueState}

/-- Arrivals are listed in the order of their ids. -/
theorem QueueState.Sound.enteredBefore (sound : st.Sound ids n) {key key' : ReadyKey}
    (here : key ∈ st.arrivals) (there : key' ∈ st.arrivals)
    (less : ReadyKey.id key < ReadyKey.id key') :
    EnteredBefore (st.arrivals.map ReadyKey.bytes) (ReadyKey.bytes key) (ReadyKey.bytes key') := by
  refine ⟨List.mem_map_of_mem here, List.mem_map_of_mem there, ?_⟩
  intro i j first second
  have inj := ReadyKey.bytes_strictMono.injective
  rw [List.getElem?_map, Option.map_eq_some_iff] at first second
  obtain ⟨k, at_i, same⟩ := first
  obtain ⟨k', at_j, same'⟩ := second
  rw [inj same] at at_i
  rw [inj same'] at at_j
  obtain ⟨i_lt, get_i⟩ := List.getElem?_eq_some_iff.mp at_i
  obtain ⟨j_lt, get_j⟩ := List.getElem?_eq_some_iff.mp at_j
  rcases lt_trichotomy i j with before | rfl | after
  · exact before
  · exact absurd less (by rw [← get_i, ← get_j]; exact lt_irrefl _)
  · have wrong := List.pairwise_iff_getElem.mp sound.ordered j i j_lt i_lt after
    rw [get_i, get_j] at wrong
    exact absurd less (lt_asymm wrong)

/-- The front of a sound ready store has the highest class, and is the oldest of it. -/
theorem QueueState.Sound.front (sound : st.Sound ids n) {key : ReadyKey} {m : Message}
    (front : st.ready.entries.head? = some (key, m)) {e : ReadyKey × Message}
    (member : e ∈ st.ready.entries) :
    clampPriority e.2.priority ≤ clampPriority m.priority ∧
      (clampPriority e.2.priority = clampPriority m.priority → e.1 ≠ key →
        ReadyKey.id key < ReadyKey.id e.1) := by
  obtain ⟨i, -, made⟩ := sound.ready (key, m) (List.mem_of_mem_head? front)
  obtain ⟨j, -, made'⟩ := sound.ready e member
  dsimp only at made
  have least : key = e.1 ∨ key < e.1 := by
    obtain ⟨rest, split⟩ := List.head?_eq_some_iff.mp front
    have sorted := st.ready.sorted
    rw [split, List.pairwise_cons] at sorted
    rw [split] at member
    rcases List.mem_cons.mp member with rfl | later
    · exact .inl rfl
    · exact .inr (sorted.1 e later)
  rcases least with same | less
  · have ranks : rank m.priority = rank e.2.priority := by
      rw [made, made'] at same
      exact congrArg (fun k : ReadyKey => (ofLex k).1) same
    exact ⟨(rank_eq_rank.mp ranks).ge, fun _ different => absurd same.symm different⟩
  · rw [made, made'] at less
    rw [made, made']
    rcases Prod.Lex.lt_iff.mp less with ranks | ⟨ranks, ids_lt⟩
    · have higher := rank_lt_rank.mp ranks
      exact ⟨higher.le, fun same => absurd same higher.ne⟩
    · exact ⟨(rank_eq_rank.mp ranks).ge, fun _ _ => ids_lt⟩

end Front

/-- One event is in order. -/
theorem Simulates.inOrder {bc : Bincode} {ids : Nat → UInt64} {e : Event} {b b' : Broker}
    {moves : List (String × Move)} (sim : Simulates bc ids e b moves b') (q : String) :
    e.InOrder bc q := by
  intro consume
  have transition := sim.step
  rw [consume] at transition
  generalize e.response = response at transition ⊢
  cases transition with
  | notFound missing =>
      cases missing
      constructor
      · intro _ _ impossible
        cases impossible
      · intro impossible
        cases impossible
  | @nothing _ st declared empty =>
      constructor
      · intro _ _ impossible
        cases impossible
      · intro _
        rw [show q = Role.ready.treeName q from rfl, sim.before.held.stores q st declared .ready,
          QueueState.tree, OrdMap.image_entries, empty, List.map_nil]
  | @delivered _ st key m declared front =>
      have sound := sim.sound.queues q st declared
      have tree : e.before.db.trees q = st.tree bc .ready :=
        sim.before.held.stores q st declared .ready
      constructor
      · intro tag m' response
        cases response
        refine ⟨ReadyKey.bytes key, ⟨?_, ?_⟩, ReadyKey.id_slice key, ?_⟩
        · rw [tree]
          exact List.mem_map_of_mem (List.mem_of_mem_head? front)
        · intro entry member
          rw [tree] at member
          obtain ⟨e', inside, rfl⟩ := List.mem_map.mp member
          obtain ⟨highest, oldest⟩ := sound.front front inside
          refine ⟨e'.2, bc.message.decode_encode e'.2, highest, fun same different => ?_⟩
          rw [sim.before.held.arrived q st declared]
          refine sound.enteredBefore (sound.arrived _ ?_) (sound.arrived _ ?_)
            (oldest same fun same_key => different (congrArg ReadyKey.bytes same_key))
          · exact List.mem_map_of_mem (List.mem_of_mem_head? front)
          · exact List.mem_map_of_mem inside
        · have after : e.after.db.trees q = (st.move (ids b.drawn) (.deliver key m)).tree bc .ready :=
            sim.after.held.stores q _ (Broker.move_queue declared _) .ready
          rw [after, tree]
          simp only [QueueState.move, Move.changes, List.foldl_cons, List.foldl_nil,
            QueueState.apply, QueueState.tree, OrdMap.image_erase]
      · intro impossible
        cases impossible

/-- Delivery order.  In every run from an empty directory each consume is in order. -/
theorem consume_inOrder (bc : Bincode) (ids : Nat → UInt64) (maxBytes : Option UInt64)
    (steps : List Step) (apart : NonColliding (declaredNames steps))
    (increasing : Increasing ids (final bc ids (started bc ids maxBytes) steps)) :
    ∀ e ∈ events bc ids (started bc ids maxBytes) steps, ∀ q, e.InOrder bc q := by
  obtain ⟨b, -, -, inOrder⟩ := run_invariant bc ids maxBytes
    (fun past _ => ∀ e ∈ past, ∀ q, e.InOrder bc q) (fun _ member => nomatch member)
    (fun past e b moves b' before sim e' member => by
      rcases List.mem_append.mp member with old | new
      · exact before e' old
      · rw [List.mem_singleton.mp new]
        exact sim.inOrder)
    steps apart increasing
  exact inOrder

/-- A run with two priority classes and a requeued message. -/
def lineRun : List Step :=
  [⟨.declareQueueWithRetention "q" default, fun _ => 0⟩,
    ⟨.publish "q" ⟨1, [], [], 0, 0, 3, none, none⟩, fun _ => 0⟩,
    ⟨.publish "q" ⟨2, [], [], 0, 0, 200, none, none⟩, fun _ => 0⟩,
    ⟨.publish "q" ⟨3, [], [], 0, 0, 9, none, none⟩, fun _ => 0⟩,
    ⟨.consume "q", fun _ => 0⟩,
    ⟨.nack "q" 1, fun _ => 0⟩,
    ⟨.consume "q", fun _ => 0⟩]

theorem lineRun_inOrder :
    NonColliding (declaredNames lineRun) ∧
      ∀ e ∈ events bincode (counter 0) (started bincode (counter 0) none) lineRun, ∀ q,
        e.InOrder bincode q := by
  have drawn : (final bincode (counter 0) (started bincode (counter 0) none) lineRun).db.drawn = 4 := by
    decide +kernel
  refine ⟨by decide, consume_inOrder bincode (counter 0) none lineRun (by decide) ?_⟩
  exact counter_increasing (by rw [drawn]; decide)

end PelicanQ
