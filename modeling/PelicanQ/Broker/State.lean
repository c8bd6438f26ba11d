import PelicanQ.Core.QueueManager

/-! # Brokers: queues as typed stores

What the database holds, with the encodings taken away: a broker is a finite
map from queue names to a policy and five stores of messages.  An operation is
a list of `Move`s, each one step in the life of one message, and a move is a
few `Change`s, each of which is one write of the database.  What holds of a
queue is shown move by move.

`arrivals` is history: every key that ever entered the ready store, in order.
-/

namespace PelicanQ

structure QueueState where
  policy : RetentionPolicy
  ready : OrdMap ReadyKey Message
  inflight : OrdMap UInt64 Message
  deadLetter : OrdMap ReadyKey Message
  scheduled : OrdMap DueKey Message
  dedup : OrdMap Bytes Int64
  arrivals : List ReadyKey

/-- A queue as it is declared. -/
def QueueState.fresh (policy : RetentionPolicy) : QueueState :=
  ⟨policy, .empty, .empty, .empty, .empty, .empty, []⟩

/-- The tree that holds a store. -/
def QueueState.tree (bc : Bincode) (st : QueueState) : Role → Sled.Tree
  | .ready => st.ready.image ReadyKey.bytes ReadyKey.bytes_strictMono bc.message.encode
  | .inflight => st.inflight.image UInt64.toBeBytes UInt64.toBeBytes_strictMono bc.message.encode
  | .deadLetter => st.deadLetter.image ReadyKey.bytes ReadyKey.bytes_strictMono bc.message.encode
  | .scheduled => st.scheduled.image DueKey.bytes DueKey.bytes_strictMono bc.message.encode
  | .dedup => st.dedup.mapValues Int64.toBeBytes

/-- One change to one store of a queue. -/
inductive Change where
  | putReady (key : ReadyKey) (m : Message)
  | dropReady (key : ReadyKey)
  | putInflight (tag : UInt64) (m : Message)
  | dropInflight (tag : UInt64)
  | putDeadLetter (key : ReadyKey) (m : Message)
  | putScheduled (key : DueKey) (m : Message)
  | dropScheduled (key : DueKey)
  | putDedup (key : Bytes) (time : Int64)

def QueueState.apply (st : QueueState) : Change → QueueState
  | .putReady key m =>
      { st with ready := st.ready.insert key m, arrivals := st.arrivals ++ [key] }
  | .dropReady key => { st with ready := st.ready.erase key }
  | .putInflight tag m => { st with inflight := st.inflight.insert tag m }
  | .dropInflight tag => { st with inflight := st.inflight.erase tag }
  | .putDeadLetter key m => { st with deadLetter := st.deadLetter.insert key m }
  | .putScheduled key m => { st with scheduled := st.scheduled.insert key m }
  | .dropScheduled key => { st with scheduled := st.scheduled.erase key }
  | .putDedup key time => { st with dedup := st.dedup.insert key time }

structure Broker where
  queues : OrdMap Bytes QueueState
  drawn : Nat
  bytes : UInt64
  maxBytes : Option UInt64

namespace Broker

def queue (b : Broker) (name : String) : Option QueueState := b.queues.get name.utf8

/-- The declared queues, in key order. -/
def names (b : Broker) : List String := b.queues.keys.filterMap String.ofUtf8

/-- Change the stores of one declared queue. -/
def change (b : Broker) (name : String) (changes : List Change) : Broker :=
  match b.queue name with
  | some st => { b with queues := b.queues.insert name.utf8 (changes.foldl QueueState.apply st) }
  | none => b

/-- Take ids from the source. -/
def advance (b : Broker) (count : Nat) : Broker := { b with drawn := b.drawn + count }

def setBytes (b : Broker) (bytes : UInt64) : Broker := { b with bytes := bytes }

section Fields

variable (b : Broker) (name : String) (changes : List Change) (bytes : UInt64) (count : Nat)

@[simp] theorem queues_advance : (b.advance count).queues = b.queues := rfl
@[simp] theorem drawn_advance : (b.advance count).drawn = b.drawn + count := rfl
@[simp] theorem bytes_advance : (b.advance count).bytes = b.bytes := rfl
@[simp] theorem maxBytes_advance : (b.advance count).maxBytes = b.maxBytes := rfl
@[simp] theorem queue_advance : (b.advance count).queue name = b.queue name := rfl
@[simp] theorem queues_setBytes : (b.setBytes bytes).queues = b.queues := rfl
@[simp] theorem drawn_setBytes : (b.setBytes bytes).drawn = b.drawn := rfl
@[simp] theorem bytes_setBytes : (b.setBytes bytes).bytes = bytes := rfl
@[simp] theorem maxBytes_setBytes : (b.setBytes bytes).maxBytes = b.maxBytes := rfl
@[simp] theorem queue_setBytes : (b.setBytes bytes).queue name = b.queue name := rfl

@[simp] theorem drawn_change : (b.change name changes).drawn = b.drawn := by
  unfold change; split <;> rfl

@[simp] theorem bytes_change : (b.change name changes).bytes = b.bytes := by
  unfold change; split <;> rfl

@[simp] theorem maxBytes_change : (b.change name changes).maxBytes = b.maxBytes := by
  unfold change; split <;> rfl

theorem advance_advance (count' : Nat) :
    (b.advance count).advance count' = b.advance (count + count') := by
  simp only [advance, Nat.add_assoc]

theorem advance_change :
    (b.advance count).change name changes = (b.change name changes).advance count := by
  simp only [change, queue_advance]
  split <;> rfl

theorem setBytes_change :
    (b.setBytes bytes).change name changes = (b.change name changes).setBytes bytes := by
  simp only [change, queue_setBytes]
  split <;> rfl

end Fields

theorem change_queue {b : Broker} {name : String} {st : QueueState}
    (declared : b.queue name = some st) (changes : List Change) :
    (b.change name changes).queue name = some (changes.foldl QueueState.apply st) := by
  simp only [change, declared]
  simp only [queue, OrdMap.get_insert, if_true]

theorem change_queue_other (b : Broker) {name other : String} (different : other ≠ name)
    (changes : List Change) : (b.change name changes).queue other = b.queue other := by
  unfold change
  split
  · simp only [queue, OrdMap.get_insert, String.utf8_injective.eq_iff, different, if_false]
  · rfl

theorem change_same {b : Broker} {name : String} {st : QueueState}
    (declared : b.queue name = some st) {changes : List Change}
    (same : changes.foldl QueueState.apply st = st) : b.change name changes = b := by
  simp only [change, declared, same, OrdMap.insert_present declared]

theorem change_congr {b : Broker} {name : String} {changes changes' : List Change}
    (same : ∀ st, b.queue name = some st →
      changes.foldl QueueState.apply st = changes'.foldl QueueState.apply st) :
    b.change name changes = b.change name changes' := by
  cases declared : b.queue name with
  | none => simp only [change, declared]
  | some st => simp only [change, declared, same st declared]

theorem change_nil (b : Broker) (name : String) : b.change name [] = b := by
  cases declared : b.queue name with
  | none => simp only [change, declared]
  | some st => exact change_same declared rfl

theorem change_change (b : Broker) (name : String) (changes changes' : List Change) :
    (b.change name changes).change name changes' = b.change name (changes ++ changes') := by
  cases declared : b.queue name with
  | none => simp only [change, declared]
  | some st =>
      have after := change_queue declared changes
      simp only [change, declared] at after ⊢
      simp only [after, OrdMap.insert_insert, List.foldl_append]

theorem change_cons (b : Broker) (name : String) (c : Change) (changes : List Change) :
    b.change name (c :: changes) = (b.change name [c]).change name changes :=
  (change_change b name [c] changes).symm

/-- Changing the stores of a queue declares nothing. -/
@[simp] theorem change_keys (b : Broker) (name : String) (changes : List Change) :
    (b.change name changes).queues.keys = b.queues.keys := by
  unfold change
  split
  · rename_i st declared
    rw [← OrdMap.mapValues_keys (fun _ => ()), OrdMap.mapValues_insert_same, OrdMap.mapValues_keys]
    rw [show b.queues.get name.utf8 = some st from declared]
    rfl
  · rfl

@[simp] theorem change_names (b : Broker) (name : String) (changes : List Change) :
    (b.change name changes).names = b.names := by
  rw [names, change_keys, names]

theorem names_insert (b : Broker) (name : String) (st : QueueState) :
    ∀ a ∈ ({ b with queues := b.queues.insert name.utf8 st } : Broker).names, a ∈ name :: b.names := by
  intro a member
  obtain ⟨key, present, decoded⟩ := List.mem_filterMap.mp member
  rcases OrdMap.mem_keys_insert.mp present with rfl | old
  · rw [String.ofUtf8_utf8, Option.some.injEq] at decoded
    exact decoded ▸ List.mem_cons_self
  · exact List.mem_cons_of_mem _ (List.mem_filterMap.mpr ⟨key, old, decoded⟩)

theorem mem_names {b : Broker} (utf8 : ∀ key ∈ b.queues.keys, ∃ name : String, key = name.utf8)
    {name : String} : name ∈ b.names ↔ ∃ st, b.queue name = some st := by
  rw [queue, ← OrdMap.mem_keys, names, List.mem_filterMap]
  constructor
  · rintro ⟨key, member, decoded⟩
    obtain ⟨name', rfl⟩ := utf8 key member
    rw [String.ofUtf8_utf8, Option.some.injEq] at decoded
    exact decoded ▸ member
  · intro member
    exact ⟨_, member, String.ofUtf8_utf8 name⟩

end Broker

/-! ## Moves -/

/-- The message as a nack puts it back. -/
def Message.retried (m : Message) : Message :=
  { m with deliveryAttempts := m.deliveryAttempts + 1 }

/-- One step in the life of a message. -/
inductive Move where
  | store (m : Message) (due : Option Int64)
  | record (key : Bytes) (time : Int64)
  | deliver (key : ReadyKey) (m : Message)
  | settle (tag : UInt64) (m : Message)
  | retry (tag : UInt64) (m : Message)
  | promote (key : DueKey) (m : Message)
  | discard (key : ReadyKey) (m : Message)
  | requeue (tag : UInt64) (m : Message)

/-- The ids a move takes: one when it makes a key. -/
def Move.draws : Move → Nat
  | .store .. | .retry .. | .promote .. | .requeue .. => 1
  | .record .. | .deliver .. | .settle .. | .discard .. => 0

/-- What a move changes, when the next id is `id`. -/
def Move.changes (policy : RetentionPolicy) (id : UInt64) : Move → List Change
  | .store m (some deliverAt) => [.putScheduled (dueKey deliverAt id) m]
  | .store m none => [.putReady (readyKey m.priority id) m]
  | .record key time => [.putDedup key time]
  | .deliver key m => [.dropReady key, .putInflight (ReadyKey.id key) m]
  | .settle tag _ => [.dropInflight tag]
  | .retry tag m =>
      [.dropInflight tag,
        if QueueManager.exhausted policy.maxDeliveryAttempts m.retried.deliveryAttempts then
          .putDeadLetter (readyKey m.priority id) m.retried
        else .putReady (readyKey m.priority id) m.retried]
  | .promote key m => [.dropScheduled key, .putReady (readyKey m.priority id) m]
  | .discard key _ => [.dropReady key]
  | .requeue tag m => [.putReady (readyKey m.priority id) m, .dropInflight tag]

def QueueState.move (st : QueueState) (id : UInt64) (mv : Move) : QueueState :=
  (mv.changes st.policy id).foldl QueueState.apply st

namespace Broker

variable (ids : Nat → UInt64)

/-- Make a move in one declared queue. -/
def move (b : Broker) (name : String) (mv : Move) : Broker :=
  match b.queue name with
  | some st => (b.change name (mv.changes st.policy (ids b.drawn))).advance mv.draws
  | none => b

def moves (b : Broker) (name : String) (mvs : List Move) : Broker :=
  mvs.foldl (fun b mv => b.move ids name mv) b

variable {ids}

@[simp] theorem moves_nil (b : Broker) (name : String) : b.moves ids name [] = b := rfl

@[simp] theorem moves_cons (b : Broker) (name : String) (mv : Move) (mvs : List Move) :
    b.moves ids name (mv :: mvs) = (b.move ids name mv).moves ids name mvs := rfl

theorem moves_append (b : Broker) (name : String) (mvs mvs' : List Move) :
    b.moves ids name (mvs ++ mvs') = (b.moves ids name mvs).moves ids name mvs' :=
  List.foldl_append

theorem move_declared {b : Broker} {name : String} {st : QueueState}
    (declared : b.queue name = some st) (mv : Move) :
    b.move ids name mv = (b.change name (mv.changes st.policy (ids b.drawn))).advance mv.draws := by
  simp only [move, declared]

theorem move_queue {b : Broker} {name : String} {st : QueueState}
    (declared : b.queue name = some st) (mv : Move) :
    (b.move ids name mv).queue name = some (st.move (ids b.drawn) mv) := by
  rw [move_declared declared, queue_advance, change_queue declared]
  rfl

theorem move_queue_other (b : Broker) {name other : String} (different : other ≠ name)
    (mv : Move) : (b.move ids name mv).queue other = b.queue other := by
  unfold move
  split
  · rw [queue_advance, change_queue_other b different]
  · rfl

theorem move_drawn {b : Broker} {name : String} {st : QueueState}
    (declared : b.queue name = some st) (mv : Move) :
    (b.move ids name mv).drawn = b.drawn + mv.draws := by
  rw [move_declared declared, drawn_advance, drawn_change]

@[simp] theorem move_bytes (b : Broker) (name : String) (mv : Move) :
    (b.move ids name mv).bytes = b.bytes := by
  unfold move
  split
  · rw [bytes_advance, bytes_change]
  · rfl

@[simp] theorem move_maxBytes (b : Broker) (name : String) (mv : Move) :
    (b.move ids name mv).maxBytes = b.maxBytes := by
  unfold move
  split
  · rw [maxBytes_advance, maxBytes_change]
  · rfl

theorem setBytes_move (b : Broker) (bytes : UInt64) (name : String) (mv : Move) :
    (b.setBytes bytes).move ids name mv = (b.move ids name mv).setBytes bytes := by
  unfold move
  rw [queue_setBytes]
  split
  · rw [setBytes_change]
    rfl
  · rfl

theorem setBytes_moves (b : Broker) (bytes : UInt64) (name : String) (mvs : List Move) :
    (b.setBytes bytes).moves ids name mvs = (b.moves ids name mvs).setBytes bytes := by
  induction mvs generalizing b with
  | nil => rfl
  | cons mv mvs ih => rw [moves_cons, setBytes_move, ih, moves_cons]

@[simp] theorem move_names (b : Broker) (name : String) (mv : Move) :
    (b.move ids name mv).names = b.names := by
  unfold move
  split
  · rw [names, queues_advance, change_keys, names]
  · rfl

theorem moves_queue_other (b : Broker) {name other : String} (different : other ≠ name)
    (mvs : List Move) : (b.moves ids name mvs).queue other = b.queue other := by
  induction mvs generalizing b with
  | nil => rfl
  | cons mv mvs ih => rw [moves_cons, ih, move_queue_other b different]

@[simp] theorem moves_names (b : Broker) (name : String) (mvs : List Move) :
    (b.moves ids name mvs).names = b.names := by
  induction mvs generalizing b with
  | nil => rfl
  | cons mv mvs ih => rw [moves_cons, ih, move_names]

end Broker

/-! ## The operations -/

/-- Was the message's key recorded within the window, at the next reading? -/
def isRepeated (policy : RetentionPolicy) (recorded : String → Option Int64) (m : Message)
    (clock : Nat → Int64) : Bool × (Nat → Int64) :=
  match policy.dedupWindowSecs, m.dedupKey with
  | some windowSecs, some key =>
      if 0 < windowSecs then
        match recorded key with
        | some time => (decide (clock 0 - windowSecs.toInt64 * 1000 < time), later clock)
        | none => (false, clock)
      else (false, clock)
  | _, _ => (false, clock)

def QueueState.isDuplicate (st : QueueState) (m : Message) (clock : Nat → Int64) :
    Bool × (Nat → Int64) :=
  isRepeated st.policy (fun key => st.dedup.get key.utf8) m clock

/-- The delivery time of a message that is not due at the next reading. -/
def notYetDue (m : Message) (clock : Nat → Int64) : Option Int64 × (Nat → Int64) :=
  match m.deliverAt with
  | some deliverAt => (if clock 0 < deliverAt then some deliverAt else none, later clock)
  | none => (none, clock)

def QueueState.recordDedup (st : QueueState) (m : Message) (clock : Nat → Int64) : List Move :=
  match st.policy.dedupWindowSecs, m.dedupKey with
  | some _, some key => [.record key.utf8 (clock 0)]
  | _, _ => []

/-- The scheduled messages a scan at `now` reaches. -/
def QueueState.due (st : QueueState) (now : Int64) : List (DueKey × Message) :=
  st.scheduled.entries.takeWhile fun e => !decide (now < (DueKey.due e.1).toInt64)

/-- The ready messages older than the policy allows. -/
def QueueState.expired (st : QueueState) (now : Int64) : List (ReadyKey × Message) :=
  match st.policy.maxAgeSecs with
  | none => []
  | some maxAgeSecs =>
      st.ready.entries.filter fun e =>
        decide (maxAgeSecs.toInt64 * 1000 ≤ now - e.2.timestamp)

/-- The front of the ready store, as far as it exceeds what the policy allows. -/
def QueueState.excess (st : QueueState) : List (ReadyKey × Message) :=
  match st.policy.maxMessages with
  | none => []
  | some maxMessages => st.ready.entries.take (st.ready.entries.length - maxMessages.toNat)

namespace Broker

variable (bc : Bincode) (ids : Nat → UInt64)

def limitError (b : Broker) (size : UInt64) : Option PelicanError :=
  match b.maxBytes with
  | none => none
  | some max =>
      if max < b.bytes + size then
        some (.storageLimitExceeded (if 0 < max then (b.bytes * 100 / max).toUInt8 else 100) 100)
      else none

def size (m : Message) : UInt64 := UInt64.ofNat (bc.message.encode m).length

def declare (b : Broker) (name : String) (policy : RetentionPolicy) :
    Outcome PelicanError Unit × Broker :=
  match b.queue name with
  | some _ => (.err (.queueAlreadyExists name), b)
  | none => (.ok (), { b with queues := b.queues.insert name.utf8 (.fresh policy) })

def publish (clock : Nat → Int64) (b : Broker) (name : String) (m : Message) :
    Outcome PelicanError PublishOutcome × Broker :=
  match b.queue name with
  | none => (.err (.queueNotFound name), b)
  | some st =>
      if (st.isDuplicate m clock).1 then (.ok .deduplicated, b) else
        match b.limitError (size bc m) with
        | some e => (.err e, b)
        | none =>
            let due := notYetDue m (st.isDuplicate m clock).2
            (.ok (.stored m.id),
              (b.moves ids name (.store m due.1 :: st.recordDedup m due.2)).setBytes
                (b.bytes + size bc m))

def consume (b : Broker) (name : String) :
    Outcome PelicanError (Option (DeliveryTag × Message)) × Broker :=
  match b.queue name with
  | none => (.err (.queueNotFound name), b)
  | some st =>
      match st.ready.entries.head? with
      | none => (.ok none, b)
      | some (key, m) => (.ok (some (ReadyKey.id key, m)), b.move ids name (.deliver key m))

def ack (b : Broker) (name : String) (tag : DeliveryTag) : Outcome PelicanError Unit × Broker :=
  match b.queue name with
  | none => (.err (.queueNotFound name), b)
  | some st =>
      match st.inflight.get tag with
      | none => (.err (.invalidDeliveryTag tag), b)
      | some m =>
          (.ok (), (b.move ids name (.settle tag m)).setBytes
            (QueueManager.saturatingSub64 b.bytes (size bc m)))

def nack (b : Broker) (name : String) (tag : DeliveryTag) : Outcome PelicanError Unit × Broker :=
  match b.queue name with
  | none => (.err (.queueNotFound name), b)
  | some st =>
      match st.inflight.get tag with
      -- the id is drawn before the tag is looked up
      | none => (.err (.invalidDeliveryTag tag), b.advance 1)
      | some m => (.ok (), b.move ids name (.retry tag m))

def promoteScheduled (clock : Nat → Int64) (b : Broker) (name : String) :
    Outcome PelicanError Nat × Broker :=
  match b.queue name with
  | none => (.err (.queueNotFound name), b)
  | some st =>
      (.ok (st.due (clock 0)).length,
        b.moves ids name ((st.due (clock 0)).map fun e => .promote e.1 e.2))

/-- The encoded trees of a queue, in the order in which they are counted. -/
def treesOf (st : QueueState) : List Sled.Tree :=
  [st.tree bc .ready, st.tree bc .inflight, st.tree bc .deadLetter, st.tree bc .scheduled,
    st.tree bc .dedup]

def addTree (total : UInt64) (tree : Sled.Tree) : UInt64 :=
  tree.entries.foldl (fun total e => total + UInt64.ofNat e.2.length) total

/-- The stored bytes of all queues. -/
def totalBytes (b : Broker) : UInt64 :=
  b.names.foldl (fun total name =>
    (((b.queue name).map (treesOf bc)).getD []).foldl addTree total) 0

/-- Count again when something was removed. -/
def recount (b : Broker) (removed : Nat) : Broker :=
  if 0 < removed then b.setBytes (totalBytes bc b) else b

theorem recount_names (b : Broker) (removed : Nat) : (recount bc b removed).names = b.names := by
  unfold recount
  split <;> rfl

/-- Discard ready messages. -/
def discardAll (b : Broker) (name : String) (entries : List (ReadyKey × Message)) : Broker :=
  b.moves ids name (entries.map fun e => .discard e.1 e.2)

theorem discardAll_change {b : Broker} {name : String} {st : QueueState}
    (declared : b.queue name = some st) (entries : List (ReadyKey × Message)) :
    b.discardAll ids name entries = b.change name (entries.map fun e => .dropReady e.1) := by
  induction entries generalizing b st with
  | nil => exact (b.change_nil name).symm
  | cons e entries ih =>
      have step : b.move ids name (.discard e.1 e.2) = b.change name [.dropReady e.1] :=
        move_declared declared _
      rw [List.map_cons, change_cons, ← step]
      exact ih (move_queue declared _)

/-- The policy's age limit first, its length limit on what is left. -/
def applyRetention (clock : Nat → Int64) (b : Broker) (name : String) :
    Outcome PelicanError Nat × Broker :=
  match b.queue name with
  | none => (.err (.queueNotFound name), b)
  | some st =>
      let expired := st.expired (clock 0)
      let b' := b.discardAll ids name expired
      let excess := ((b'.queue name).map QueueState.excess).getD []
      (.ok (expired.length + excess.length),
        recount bc (b'.discardAll ids name excess) (expired.length + excess.length))

/-- The changes that copy in-flight messages to the ready store, from the `n`th id on. -/
def requeues (n : Nat) : List Message → List Change
  | [] => []
  | m :: rest => .putReady (readyKey m.priority (ids n)) m :: requeues (n + 1) rest

/-- The in-flight store and the copies do not interfere. -/
theorem dropInflight_requeues (n : Nat) (messages : List Message) (tag : UInt64)
    (st : QueueState) :
    (requeues ids n messages).foldl QueueState.apply (st.apply (.dropInflight tag)) =
      ((requeues ids n messages).foldl QueueState.apply st).apply (.dropInflight tag) := by
  induction messages generalizing n st with
  | nil => rfl
  | cons m messages ih =>
      exact ih (n + 1) (st.apply (.putReady (readyKey m.priority (ids n)) m))

/-- Requeueing one by one is copying all and then forgetting all. -/
theorem moves_requeue {b : Broker} {name : String} {st : QueueState}
    (declared : b.queue name = some st) (entries : List (UInt64 × Message)) :
    b.moves ids name (entries.map fun e => .requeue e.1 e.2) =
      (b.change name (requeues ids b.drawn (entries.map Prod.snd) ++
        entries.map fun e => .dropInflight e.1)).advance entries.length := by
  induction entries generalizing b st with
  | nil => exact (b.change_nil name).symm
  | cons e entries ih =>
      have step : b.move ids name (.requeue e.1 e.2) =
          (b.change name [.putReady (readyKey e.2.priority (ids b.drawn)) e.2,
            .dropInflight e.1]).advance 1 := move_declared declared _
      rw [List.map_cons, moves_cons, ih (move_queue declared _), step, advance_change,
        change_change, drawn_advance, drawn_change]
      have same : b.change name ([.putReady (readyKey e.2.priority (ids b.drawn)) e.2,
            .dropInflight e.1] ++ (requeues ids (b.drawn + 1) (entries.map Prod.snd) ++
              entries.map fun e => .dropInflight e.1)) =
          b.change name (requeues ids b.drawn ((e :: entries).map Prod.snd) ++
            (e :: entries).map fun e => .dropInflight e.1) := by
        refine change_congr fun st _ => ?_
        simp only [List.map_cons, requeues, List.cons_append, List.nil_append, List.foldl_cons,
          List.foldl_append, dropInflight_requeues]
      rw [same, advance_advance, List.length_cons, Nat.add_comm]

def recoverQueue (b : Broker) (name : String) : Broker :=
  match b.queue name with
  | none => b
  | some st => b.moves ids name (st.inflight.entries.map fun e => .requeue e.1 e.2)

@[simp] theorem recoverQueue_names (b : Broker) (name : String) :
    (b.recoverQueue ids name).names = b.names := by
  unfold recoverQueue
  split
  · rfl
  · rw [moves_names]

/-- A broker opened on what another left behind. -/
def reopen (maxBytes : Option UInt64) (b : Broker) : Broker :=
  b.names.foldl (recoverQueue ids) { b with bytes := totalBytes bc b, maxBytes := maxBytes }

end Broker

end PelicanQ
