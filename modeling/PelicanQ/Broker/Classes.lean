import PelicanQ.Broker.Script
import PelicanQ.Broker.Bytes

/-! # Lines of one class

The ready store is one line for each clamped priority, served from the highest
down.  Recovery and promotion put messages under ids that were not taken before,
so each of them joins its line at the end, in the order in which it was put.
-/

namespace PelicanQ

/-- The message is of a class. -/
def inClass (c : UInt8) (m : Message) : Bool := decide (clampPriority m.priority = c)

/-- The ready messages of one class, in delivery order. -/
def lineIn (c : UInt8) (ready : OrdMap ReadyKey Message) : List Message :=
  ready.values.filter (inClass c)

/-- Messages put into a ready store, from the `n`th id on. -/
def enqueue (ids : Nat → UInt64) : Nat → OrdMap ReadyKey Message → List Message →
    OrdMap ReadyKey Message
  | _, ready, [] => ready
  | n, ready, m :: rest => enqueue ids (n + 1) (ready.insert (readyKey m.priority (ids n)) m) rest

/-- The keys of a ready store were made from the first `n` ids. -/
def Ranked (ids : Nat → UInt64) (n : Nat) (ready : OrdMap ReadyKey Message) : Prop :=
  ∀ e ∈ ready.entries, ∃ i < n, e.1 = readyKey e.2.priority (ids i)

section Lines

variable {ids : Nat → UInt64} {n : Nat} {ready : OrdMap ReadyKey Message} {m : Message}

theorem Ranked.mono (ranked : Ranked ids n ready) {n' : Nat} (le : n ≤ n') : Ranked ids n' ready :=
  fun e member =>
    let ⟨i, below, key⟩ := ranked e member
    ⟨i, below.trans_le le, key⟩

theorem Ranked.put (ranked : Ranked ids n ready) :
    Ranked ids (n + 1) (ready.insert (readyKey m.priority (ids n)) m) := by
  intro e member
  rcases OrdMap.mem_insert.mp member with rfl | ⟨old, -⟩
  · exact ⟨n, Nat.lt_succ_self n, rfl⟩
  · exact ranked.mono (Nat.le_succ n) e old

/-- A key made from the next id is new, and behind those of its class. -/
theorem Ranked.next (ranked : Ranked ids n ready) (fresh : ∀ i < n, ids i < ids n) :
    readyKey m.priority (ids n) ∉ ready.keys ∧ ∀ e ∈ ready.entries,
      clampPriority e.2.priority = clampPriority m.priority → e.1 < readyKey m.priority (ids n) := by
  constructor
  · intro listed
    obtain ⟨e, member, same⟩ := List.mem_map.mp listed
    obtain ⟨i, below, made⟩ := ranked e member
    have ids_eq := congrArg ReadyKey.id (made.symm.trans same)
    exact (fresh i below).ne ids_eq
  · intro e member same
    obtain ⟨i, below, made⟩ := ranked e member
    rw [made]
    exact Prod.Lex.lt_iff.mpr (.inr ⟨rank_eq_rank.mpr same, fresh i below⟩)

theorem lineIn_put (ranked : Ranked ids n ready) (fresh : ∀ i < n, ids i < ids n) (c : UInt8) :
    lineIn c (ready.insert (readyKey m.priority (ids n)) m) =
      lineIn c ready ++ [m].filter (inClass c) := by
  obtain ⟨absent, behind⟩ := ranked.next (m := m) fresh
  rw [lineIn, OrdMap.filter_insert absent]
  · rw [List.filter_singleton, Bool.cond_eq_ite]
    rfl
  · intro here e member there
    have same := (of_decide_eq_true there).trans (of_decide_eq_true here).symm
    exact behind e member same

theorem fresh_of_increasing {k : Nat} (increasing : StrictMonoOn ids (Set.Iio (n + (k + 1)))) :
    ∀ i < n, ids i < ids n :=
  fun i below => increasing (by simp; omega) (by simp) below

/-- Each line grows at its end by the messages of its class. -/
theorem lineIn_enqueue (ranked : Ranked ids n ready) {messages : List Message}
    (increasing : StrictMonoOn ids (Set.Iio (n + messages.length))) (c : UInt8) :
    lineIn c (enqueue ids n ready messages) = lineIn c ready ++ messages.filter (inClass c) := by
  induction messages generalizing n ready with
  | nil => exact (List.append_nil _).symm
  | cons m rest ih =>
      have fresh := fresh_of_increasing increasing
      rw [enqueue, ih ranked.put (by rwa [Nat.add_right_comm, Nat.add_assoc]), lineIn_put ranked fresh,
        List.append_assoc, ← List.filter_append]
      rfl

theorem enqueue_perm (ranked : Ranked ids n ready) {messages : List Message}
    (increasing : StrictMonoOn ids (Set.Iio (n + messages.length))) :
    (enqueue ids n ready messages).values.Perm (ready.values ++ messages) := by
  induction messages generalizing n ready with
  | nil => rw [List.append_nil]; rfl
  | cons m rest ih =>
      have fresh := fresh_of_increasing increasing
      have put : (ready.insert (readyKey m.priority (ids n)) m).values.Perm (m :: ready.values) :=
        (OrdMap.insert_perm (ranked.next fresh).1 m).map Prod.snd
      refine (ih ranked.put (by rwa [Nat.add_right_comm, Nat.add_assoc])).trans ?_
      exact (put.append_right rest).trans List.perm_middle.symm

theorem enqueue_ranked (ranked : Ranked ids n ready) (messages : List Message) :
    Ranked ids (n + messages.length) (enqueue ids n ready messages) := by
  induction messages generalizing n ready with
  | nil => exact ranked
  | cons m rest ih =>
      have put := ih (ranked.put (m := m))
      rwa [Nat.add_right_comm, Nat.add_assoc] at put

end Lines

/-! ## Moves that join the lines -/

namespace QueueState

variable (ids : Nat → UInt64) (n : Nat) (st : QueueState)

theorem moves_requeue (entries : List (UInt64 × Message)) :
    ∃ arrivals, st.moves ids n (entries.map fun e => .requeue e.1 e.2) =
      { st with
        ready := enqueue ids n st.ready (entries.map Prod.snd)
        inflight := (entries.map Prod.fst).foldl OrdMap.erase st.inflight
        arrivals := arrivals } := by
  induction entries generalizing n st with
  | nil => exact ⟨st.arrivals, rfl⟩
  | cons e entries ih => exact ih (n + 1) (st.move (ids n) (.requeue e.1 e.2))

theorem moves_promote (entries : List (DueKey × Message)) :
    ∃ arrivals, st.moves ids n (entries.map fun e => .promote e.1 e.2) =
      { st with
        ready := enqueue ids n st.ready (entries.map Prod.snd)
        scheduled := (entries.map Prod.fst).foldl OrdMap.erase st.scheduled
        arrivals := arrivals } := by
  induction entries generalizing n st with
  | nil => exact ⟨st.arrivals, rfl⟩
  | cons e entries ih => exact ih (n + 1) (st.move (ids n) (.promote e.1 e.2))

end QueueState

/-! ## In the trees -/

/-- The value is a message of a class. -/
def valueInClass (bc : Bincode) (c : UInt8) (value : Bytes) : Bool :=
  match bc.message.decode value with
  | .ok m => inClass c m
  | .error _ => false

/-- The values of one class in a ready tree, in delivery order. -/
def readyLine (bc : Bincode) (c : UInt8) (tree : Sled.Tree) : List Bytes :=
  tree.values.filter (valueInClass bc c)

theorem valueInClass_encode (bc : Bincode) (c : UInt8) (m : Message) :
    valueInClass bc c (bc.message.encode m) = inClass c m := by
  rw [valueInClass, bc.message.decode_encode]

theorem encoded_inClass (bc : Bincode) (c : UInt8) (messages : List Message) :
    (messages.map bc.message.encode).filter (valueInClass bc c) =
      (messages.filter (inClass c)).map bc.message.encode := by
  rw [List.filter_map]
  exact congrArg _ (List.filter_congr fun m _ => valueInClass_encode bc c m)

theorem QueueState.readyLine_tree (bc : Bincode) (c : UInt8) (st : QueueState) :
    readyLine bc c (st.tree bc .ready) = (lineIn c st.ready).map bc.message.encode := by
  rw [lineIn, ← encoded_inClass, readyLine, QueueState.tree, OrdMap.image_values]

end PelicanQ
