import PelicanQ.Broker.Moves
import PelicanQ.Broker.Refinement
import PelicanQ.Core.Runs

/-! # Runs of brokers

A run of the manager is a run of the broker with the same responses.  What one
operation can do to a broker is said once, by `Transition`: which response it
gives and which moves it makes.  `Path` is a sequence of moves that are possible
where they are made, so a property that moves keep is a property of every run.
-/

namespace PelicanQ

/-- The broker's version of an operation. -/
def Broker.perform (bc : Bincode) (ids : Nat → UInt64) (clock : Nat → Int64) (b : Broker) :
    Operation → Response × Broker
  | .declareQueueWithRetention name policy => (b.declare name policy).map .declared id
  | .publish queue message => (b.publish bc ids clock queue message).map .published id
  | .consume queue => (b.consume ids queue).map .consumed id
  | .ack queue tag => (b.ack bc ids queue tag).map .acked id
  | .nack queue tag => (b.nack ids queue tag).map .nacked id
  | .promoteScheduled queue => (b.promoteScheduled ids clock queue).map .promoted id
  | .applyRetention queue => (b.applyRetention bc ids clock queue).map .retained id
  | .reopen maxBytes => (.reopened (.ok ()), b.reopen bc ids maxBytes)

/-- One operation of the manager is one operation of the broker. -/
theorem perform_refines {bc : Bincode} {qm : QueueManager} {b : Broker} (ids : Nat → UInt64)
    (clock : Nat → Int64) (h : Refines bc qm b) (op : Operation)
    (apart : NonColliding (op.declares ++ b.names)) :
    (op.perform bc ids clock qm).1 = (b.perform bc ids clock op).1 ∧
      Refines bc (op.perform bc ids clock qm).2 (b.perform bc ids clock op).2 := by
  have start : Refines bc (Machine.mk qm clock).manager b := h
  cases op with
  | declareQueueWithRetention name policy =>
      obtain ⟨outcome, after⟩ := declare_refines ids start policy apart
      exact ⟨congrArg Response.declared outcome, after⟩
  | publish queue message =>
      obtain ⟨outcome, after⟩ := publish_refines ids start queue message
      exact ⟨congrArg Response.published outcome, after⟩
  | consume queue =>
      obtain ⟨outcome, after⟩ := consume_refines ids start queue
      exact ⟨congrArg Response.consumed outcome, after⟩
  | ack queue tag =>
      obtain ⟨outcome, after⟩ := ack_refines ids start queue tag
      exact ⟨congrArg Response.acked outcome, after⟩
  | nack queue tag =>
      obtain ⟨outcome, after⟩ := nack_refines ids start queue tag
      exact ⟨congrArg Response.nacked outcome, after⟩
  | promoteScheduled queue =>
      obtain ⟨outcome, after⟩ := promoteScheduled_refines ids start queue
      exact ⟨congrArg Response.promoted outcome, after⟩
  | applyRetention queue =>
      obtain ⟨outcome, after⟩ := applyRetention_refines ids start queue
      exact ⟨congrArg Response.retained outcome, after⟩
  | reopen maxBytes =>
      obtain ⟨outcome, after⟩ := open_refines ids h.held h.drawn clock maxBytes
      exact ⟨congrArg Response.reopened outcome, after⟩

theorem Refines.increasing {bc : Bincode} {ids : Nat → UInt64} {qm : QueueManager} {b : Broker}
    (h : Refines bc qm b) (increasing : Increasing ids qm) : StrictMonoOn ids (Set.Iio b.drawn) :=
  h.drawn ▸ increasing

/-- Moves made one after the other, each possible where it is made.  Between
    moves ids may be lost, what is kept in memory may change, and queues may be
    declared. -/
inductive Path (ids : Nat → UInt64) : Broker → List (String × Move) → Broker → Prop where
  | done {b : Broker} : Path ids b [] b
  | idle {b b' b'' : Broker} {moves : List (String × Move)} (queues : b'.queues = b.queues)
      (drawn : b.drawn ≤ b'.drawn) (more : Path ids b' moves b'') : Path ids b moves b''
  | declare {b b' : Broker} {name : String} {policy : RetentionPolicy}
      {moves : List (String × Move)} (undeclared : b.queue name = none)
      (more : Path ids { b with queues := b.queues.insert name.utf8 (.fresh policy) } moves b') :
      Path ids b moves b'
  | move {b b' : Broker} {name : String} {st : QueueState} {mv : Move}
      {moves : List (String × Move)} (declared : b.queue name = some st) (enabled : mv.Enabled st)
      (more : Path ids (b.move ids name mv) moves b') : Path ids b ((name, mv) :: moves) b'

namespace Path

variable {ids : Nat → UInt64} {b b' b'' : Broker} {moves moves' : List (String × Move)}

theorem trans (first : Path ids b moves b') (second : Path ids b' moves' b'') :
    Path ids b (moves ++ moves') b'' := by
  induction first with
  | done => exact second
  | idle queues drawn _ ih => exact .idle queues drawn (ih second)
  | declare undeclared _ ih => exact .declare undeclared (ih second)
  | move declared enabled _ ih => exact .move declared enabled (ih second)

theorem of_queues (queues : b'.queues = b.queues) (drawn : b.drawn ≤ b'.drawn) :
    Path ids b [] b' :=
  .idle queues drawn .done

theorem one {name : String} {st : QueueState} {mv : Move} (declared : b.queue name = some st)
    (enabled : mv.Enabled st) : Path ids b [(name, mv)] (b.move ids name mv) :=
  .move declared enabled .done

theorem setBytes (path : Path ids b moves b') (bytes : UInt64) :
    Path ids b moves (b'.setBytes bytes) := by
  have last : Path ids b' [] (b'.setBytes bytes) := of_queues rfl (Nat.le_refl _)
  simpa only [List.append_nil] using path.trans last

theorem drawn_le (path : Path ids b moves b') : b.drawn ≤ b'.drawn := by
  induction path with
  | done => exact Nat.le_refl _
  | idle _ drawn _ ih => exact drawn.trans ih
  | declare _ _ ih => exact ih
  | move declared _ _ ih =>
      rw [Broker.move_drawn declared] at ih
      exact (Nat.le_add_right _ _).trans ih

/-- A loop over entries read beforehand: no move takes away what a later one needs. -/
theorem each {K : Type} (lookup : QueueState → K → Option Message) (make : K → Message → Move)
    (enabled : ∀ st k m, lookup st k = some m → (make k m).Enabled st)
    (keeps : ∀ st id k m k', k' ≠ k → lookup (st.move id (make k m)) k' = lookup st k')
    {name : String} {st : QueueState} (declared : b.queue name = some st)
    {entries : List (K × Message)} (distinct : (entries.map Prod.fst).Nodup)
    (present : ∀ e ∈ entries, lookup st e.1 = some e.2) :
    Path ids b (entries.map fun e => (name, make e.1 e.2))
      (b.moves ids name (entries.map fun e => make e.1 e.2)) := by
  induction entries generalizing b st with
  | nil => exact .done
  | cons e entries ih =>
      rw [List.map_cons, List.nodup_cons] at distinct
      have first := enabled st e.1 e.2 (present e List.mem_cons_self)
      refine .move declared first (ih (Broker.move_queue declared _) distinct.2 ?_)
      intro e' member
      rw [keeps]
      · exact present e' (List.mem_cons_of_mem _ member)
      · intro same
        exact distinct.1 (same ▸ List.mem_map_of_mem member)

/-- Keys are queue names. -/
theorem utf8 (path : Path ids b moves b')
    (keys : ∀ key ∈ b.queues.keys, ∃ name : String, key = name.utf8) :
    ∀ key ∈ b'.queues.keys, ∃ name : String, key = name.utf8 := by
  induction path with
  | done => exact keys
  | idle queues _ _ ih => exact ih (queues ▸ keys)
  | declare _ _ ih =>
      refine ih fun key member => ?_
      rcases OrdMap.mem_keys_insert.mp member with rfl | old
      · exact ⟨_, rfl⟩
      · exact keys key old
  | move declared _ _ ih =>
      refine ih ?_
      rw [Broker.move_declared declared, Broker.queues_advance, Broker.change_keys]
      exact keys

end Path

/-- Every queue is sound and no two queues were ever given the same id. -/
structure Broker.Sound (ids : Nat → UInt64) (b : Broker) : Prop where
  queues : ∀ name st, b.queue name = some st → st.Sound ids b.drawn
  separate : ∀ name name' st st', b.queue name = some st → b.queue name' = some st' →
    name ≠ name' → ∀ key ∈ st.arrivals, ∀ key' ∈ st'.arrivals,
      ReadyKey.id key ≠ ReadyKey.id key'

namespace Broker.Sound

variable {ids : Nat → UInt64} {b b' : Broker} {moves : List (String × Move)}

theorem idle (sound : b.Sound ids) (queues : b'.queues = b.queues) (drawn : b.drawn ≤ b'.drawn) :
    b'.Sound ids := by
  have same (name : String) : b'.queue name = b.queue name := by rw [queue, queues, queue]
  constructor
  · intro name st declared
    exact (sound.queues name st (same name ▸ declared)).mono drawn
  · intro name name' st st' declared declared'
    exact sound.separate name name' st st' (same name ▸ declared) (same name' ▸ declared')

/-- What a move adds to the arrivals of its queue. -/
theorem arrivals_move {st : QueueState} {id : UInt64} {mv : Move} {key : ReadyKey}
    (member : key ∈ (st.move id mv).arrivals) :
    key ∈ st.arrivals ∨ (ReadyKey.id key = id ∧ mv.draws = 1) := by
  cases mv with
  | store m due =>
      cases due with
      | none =>
          rcases List.mem_append.mp member with old | new
          · exact .inl old
          · exact .inr ⟨by rw [List.mem_singleton.mp new]; rfl, rfl⟩
      | some deliverAt => exact .inl member
  | record | deliver | settle | discard => exact .inl member
  | retry tag m =>
      simp only [QueueState.move, Move.changes] at member
      split_ifs at member
      · exact .inl member
      · rcases List.mem_append.mp member with old | new
        · exact .inl old
        · exact .inr ⟨by rw [List.mem_singleton.mp new]; rfl, rfl⟩
  | promote | requeue =>
      rcases List.mem_append.mp member with old | new
      · exact .inl old
      · exact .inr ⟨by rw [List.mem_singleton.mp new]; rfl, rfl⟩

theorem move (sound : b.Sound ids) {name : String} {st : QueueState} {mv : Move}
    (declared : b.queue name = some st) (enabled : mv.Enabled st)
    (increasing : StrictMonoOn ids (Set.Iio (b.move ids name mv).drawn)) :
    (b.move ids name mv).Sound ids := by
  rw [move_drawn declared] at increasing
  have moved : (b.move ids name mv).queue name = some (st.move (ids b.drawn) mv) :=
    move_queue declared mv
  have others {other : String} (different : other ≠ name) :
      (b.move ids name mv).queue other = b.queue other := move_queue_other b different mv
  -- an id this move takes was not given to another queue
  have cross {other : String} {st' : QueueState} (declared' : b.queue other = some st')
      (different : other ≠ name) : ∀ key ∈ (st.move (ids b.drawn) mv).arrivals,
        ∀ key' ∈ st'.arrivals, ReadyKey.id key ≠ ReadyKey.id key' := by
    intro key member key' member'
    rcases arrivals_move member with old | ⟨id, one⟩
    · exact sound.separate name other st st' declared declared' different.symm key old key' member'
    · rw [id]
      refine ((sound.queues other st' declared').not_arrived (fun i below => ?_) key' member').ne'
      exact increasing (by simp [one]; omega) (by simp [one]) below
  constructor
  · intro other st' declared'
    rw [move_drawn declared]
    by_cases here : other = name
    · subst here
      rw [moved, Option.some.injEq] at declared'
      rw [← declared']
      exact (sound.queues other st declared).move enabled increasing
    · rw [others here] at declared'
      exact (sound.queues other st' declared').mono (Nat.le_add_right _ _)
  · intro first second st₁ st₂ declared₁ declared₂ different key member key' member'
    by_cases here : first = name
    · subst here
      rw [moved, Option.some.injEq] at declared₁
      rw [others different.symm] at declared₂
      exact cross declared₂ different.symm key (declared₁ ▸ member) key' member'
    · rw [others here] at declared₁
      by_cases there : second = name
      · subst there
        rw [moved, Option.some.injEq] at declared₂
        exact (cross declared₁ here key' (declared₂ ▸ member') key member).symm
      · rw [others there] at declared₂
        exact sound.separate first second st₁ st₂ declared₁ declared₂ different key member key'
          member'

/-- A new queue has no ids yet. -/
theorem declare (sound : b.Sound ids) (name : String) (policy : RetentionPolicy) :
    ({ b with queues := b.queues.insert name.utf8 (.fresh policy) } : Broker).Sound ids := by
  have cases_of {other : String} {st : QueueState}
      (declared : (b.queues.insert name.utf8 (.fresh policy)).get other.utf8 = some st) :
      st = .fresh policy ∨ b.queue other = some st := by
    rw [OrdMap.get_insert] at declared
    split_ifs at declared
    · exact .inl (Option.some.inj declared).symm
    · exact .inr declared
  constructor
  · intro other st declared
    rcases cases_of declared with rfl | old
    · exact .fresh ids b.drawn policy
    · exact sound.queues other st old
  · intro first second st₁ st₂ declared₁ declared₂ different key member key' member'
    rcases cases_of declared₁ with rfl | old₁
    · cases member
    · rcases cases_of declared₂ with rfl | old₂
      · cases member'
      · exact sound.separate first second st₁ st₂ old₁ old₂ different key member key' member'

theorem path (sound : b.Sound ids) (path : Path ids b moves b')
    (increasing : StrictMonoOn ids (Set.Iio b'.drawn)) : b'.Sound ids := by
  induction path with
  | done => exact sound
  | idle queues drawn _ ih => exact ih (sound.idle queues drawn) increasing
  | declare _ _ ih => exact ih (sound.declare _ _) increasing
  | move declared enabled more ih =>
      refine ih (sound.move declared enabled ?_) increasing
      exact increasing.mono (Set.Iio_subset_Iio more.drawn_le)

theorem empty (b : Broker) (none : b.queues = .empty) : b.Sound ids := by
  have undeclared (name : String) (st : QueueState) : b.queue name ≠ some st := by
    rw [queue, none, OrdMap.get_empty]
    rintro ⟨⟩
  exact ⟨fun name st declared => absurd declared (undeclared name st),
    fun name _ st _ declared => absurd declared (undeclared name st)⟩

end Broker.Sound

/-! ## What an operation can do -/

/-- The queue an operation needs, and how it answers when there is none. -/
def Operation.missing : Operation → Option (String × Response)
  | .publish queue _ => some (queue, .published (.err (.queueNotFound queue)))
  | .consume queue => some (queue, .consumed (.err (.queueNotFound queue)))
  | .ack queue _ => some (queue, .acked (.err (.queueNotFound queue)))
  | .nack queue _ => some (queue, .nacked (.err (.queueNotFound queue)))
  | .promoteScheduled queue => some (queue, .promoted (.err (.queueNotFound queue)))
  | .applyRetention queue => some (queue, .retained (.err (.queueNotFound queue)))
  | .declareQueueWithRetention .. | .reopen _ => none

/-- One operation: how it answers, the moves it makes and the broker it leaves. -/
inductive Transition (ids : Nat → UInt64) (b : Broker) :
    Operation → Response → List (String × Move) → Broker → Prop where
  | exists {name : String} {policy : RetentionPolicy} {st : QueueState}
      (declared : b.queue name = some st) :
      Transition ids b (.declareQueueWithRetention name policy)
        (.declared (.err (.queueAlreadyExists name))) [] b
  | declared {name : String} {policy : RetentionPolicy} (undeclared : b.queue name = none) :
      Transition ids b (.declareQueueWithRetention name policy) (.declared (.ok ())) []
        { b with queues := b.queues.insert name.utf8 (.fresh policy) }
  | notFound {op : Operation} {name : String} {r : Response}
      (missing : op.missing = some (name, r)) (undeclared : b.queue name = none) :
      Transition ids b op r [] b
  | deduplicated {name : String} {m : Message} :
      Transition ids b (.publish name m) (.published (.ok .deduplicated)) [] b
  | limited {name : String} {m : Message} {e : PelicanError} :
      Transition ids b (.publish name m) (.published (.err e)) [] b
  | stored {name : String} {m : Message} {due : Option Int64} {records : List Move} {b' : Broker}
      (path : Path ids b ((name, .store m due) :: records.map fun mv => (name, mv)) b')
      (others : ∀ mv ∈ records, ∃ key time, mv = .record key time) :
      Transition ids b (.publish name m) (.published (.ok (.stored m.id)))
        ((name, .store m due) :: records.map fun mv => (name, mv)) b'
  | nothing {name : String} {st : QueueState} (declared : b.queue name = some st)
      (empty : st.ready.entries = []) :
      Transition ids b (.consume name) (.consumed (.ok none)) [] b
  | delivered {name : String} {st : QueueState} {key : ReadyKey} {m : Message}
      (declared : b.queue name = some st) (front : st.ready.entries.head? = some (key, m)) :
      Transition ids b (.consume name) (.consumed (.ok (some (ReadyKey.id key, m))))
        [(name, .deliver key m)] (b.move ids name (.deliver key m))
  | invalidAck {name : String} {tag : DeliveryTag} {st : QueueState}
      (declared : b.queue name = some st) (absent : st.inflight.get tag = none) :
      Transition ids b (.ack name tag) (.acked (.err (.invalidDeliveryTag tag))) [] b
  | acked {name : String} {tag : DeliveryTag} {st : QueueState} {m : Message} {bytes : UInt64}
      (declared : b.queue name = some st) (present : st.inflight.get tag = some m) :
      Transition ids b (.ack name tag) (.acked (.ok ())) [(name, .settle tag m)]
        ((b.move ids name (.settle tag m)).setBytes bytes)
  | invalidNack {name : String} {tag : DeliveryTag} {st : QueueState}
      (declared : b.queue name = some st) (absent : st.inflight.get tag = none) :
      Transition ids b (.nack name tag) (.nacked (.err (.invalidDeliveryTag tag))) []
        (b.advance 1)
  | nacked {name : String} {tag : DeliveryTag} {st : QueueState} {m : Message}
      (declared : b.queue name = some st) (present : st.inflight.get tag = some m) :
      Transition ids b (.nack name tag) (.nacked (.ok ())) [(name, .retry tag m)]
        (b.move ids name (.retry tag m))
  | promoted {name : String} {st : QueueState} {entries : List (DueKey × Message)} {b' : Broker}
      (declared : b.queue name = some st)
      (path : Path ids b (entries.map fun e => (name, .promote e.1 e.2)) b') :
      Transition ids b (.promoteScheduled name) (.promoted (.ok entries.length))
        (entries.map fun e => (name, .promote e.1 e.2)) b'
  | retained {name : String} {st : QueueState} {entries : List (ReadyKey × Message)} {b' : Broker}
      (declared : b.queue name = some st)
      (path : Path ids b (entries.map fun e => (name, .discard e.1 e.2)) b') :
      Transition ids b (.applyRetention name) (.retained (.ok entries.length))
        (entries.map fun e => (name, .discard e.1 e.2)) b'
  | reopened {maxBytes : Option UInt64} {moves : List (String × Move)} {b' : Broker}
      (path : Path ids b moves b')
      (requeues : ∀ x ∈ moves, ∃ tag m, x.2 = .requeue tag m)
      (settled : ∀ name st, b'.queue name = some st → st.inflight = .empty) :
      Transition ids b (.reopen maxBytes) (.reopened (.ok ())) moves b'

theorem Transition.path {ids : Nat → UInt64} {b b' : Broker} {op : Operation} {r : Response}
    {moves : List (String × Move)} (step : Transition ids b op r moves b') :
    Path ids b moves b' := by
  cases step with
  | «exists» | notFound | deduplicated | limited | nothing | invalidAck => exact .done
  | declared undeclared => exact .declare undeclared .done
  | stored path | promoted _ path | retained _ path | reopened path => exact path
  | delivered declared front =>
      exact .one declared (OrdMap.get_eq_some.mpr (List.mem_of_mem_head? front))
  | acked declared present =>
      have settles : Path ids b [(_, .settle _ _)] _ := .one declared present
      exact settles.setBytes _
  | invalidNack => exact .of_queues rfl (Nat.le_add_right _ _)
  | nacked declared present => exact .one declared present

section Perform

variable (ids : Nat → UInt64) {b : Broker} {name : String} {st : QueueState}

theorem Path.store (declared : b.queue name = some st) (m : Message) (clock clock' : Nat → Int64) :
    Path ids b ((name, .store m (notYetDue m clock).1) ::
        (st.recordDedup m clock').map fun mv => (name, mv))
      (b.moves ids name (.store m (notYetDue m clock).1 :: st.recordDedup m clock')) := by
  have enabled : (Move.store m (notYetDue m clock).1).Enabled st := by
    unfold notYetDue
    cases at_time : m.deliverAt with
    | none => exact trivial
    | some deliverAt =>
        dsimp only
        split_ifs
        · exact at_time
        · exact trivial
  refine .move declared enabled ?_
  unfold QueueState.recordDedup
  split
  · exact .one (Broker.move_queue declared _) trivial
  · exact .done

theorem Path.promote (declared : b.queue name = some st) (now : Int64) :
    Path ids b ((st.due now).map fun e => (name, .promote e.1 e.2))
      (b.moves ids name ((st.due now).map fun e => .promote e.1 e.2)) := by
  have sub : (st.due now).Sublist st.scheduled.entries := List.takeWhile_sublist _
  refine Path.each (fun st key => st.scheduled.get key) .promote (fun _ _ _ found => found) ?_
    declared (st.scheduled.keys_nodup.sublist (sub.map _)) ?_
  · intro st id key m key' different
    exact (OrdMap.get_erase _ _ _).trans (if_neg different)
  · intro e member
    exact OrdMap.get_eq_some.mpr (sub.subset member)

theorem Path.discard (declared : b.queue name = some st) {entries : List (ReadyKey × Message)}
    (sub : entries.Sublist st.ready.entries) :
    Path ids b (entries.map fun e => (name, .discard e.1 e.2)) (b.discardAll ids name entries) := by
  refine Path.each (fun st key => st.ready.get key) .discard (fun _ _ _ found => found) ?_
    declared (st.ready.keys_nodup.sublist (sub.map _)) ?_
  · intro st id key m key' different
    exact (OrdMap.get_erase _ _ _).trans (if_neg different)
  · intro e member
    exact OrdMap.get_eq_some.mpr (sub.subset member)

theorem Path.requeue (declared : b.queue name = some st) :
    Path ids b (st.inflight.entries.map fun e => (name, .requeue e.1 e.2))
      (b.recoverQueue ids name) := by
  rw [Broker.recoverQueue, declared]
  refine Path.each (fun st tag => st.inflight.get tag) .requeue (fun _ _ _ found => found) ?_
    declared st.inflight.keys_nodup fun e member => OrdMap.get_eq_some.mpr member
  intro st id tag m tag' different
  exact (OrdMap.get_erase _ _ _).trans (if_neg different)

theorem expired_sublist (st : QueueState) (now : Int64) :
    (st.expired now).Sublist st.ready.entries := by
  unfold QueueState.expired
  split
  · exact List.nil_sublist _
  · exact List.filter_sublist

theorem excess_sublist (st : QueueState) : st.excess.Sublist st.ready.entries := by
  unfold QueueState.excess
  split
  · exact List.nil_sublist _
  · exact List.take_sublist _ _

/-- Recovery of one queue leaves none of its messages in flight. -/
theorem recoverQueue_inflight (declared : b.queue name = some st) :
    ∃ st', (b.recoverQueue ids name).queue name = some st' ∧ st'.inflight = .empty := by
  have forget (entries : List (UInt64 × Message)) (st : QueueState) (tag : UInt64) :
      ((entries.map fun e => Change.dropInflight e.1).foldl QueueState.apply st).inflight.get tag =
        if tag ∈ entries.map Prod.fst then none else st.inflight.get tag := by
    induction entries generalizing st with
    | nil => rfl
    | cons e entries ih =>
        rw [List.map_cons, List.foldl_cons, ih]
        simp only [QueueState.apply, OrdMap.get_erase, List.map_cons, List.mem_cons]
        by_cases first : tag = e.1
        · simp [first]
        · simp only [first, if_false, false_or]
  have copies (n : Nat) (messages : List Message) (st : QueueState) :
      ((Broker.requeues ids n messages).foldl QueueState.apply st).inflight = st.inflight := by
    induction messages generalizing n st with
    | nil => rfl
    | cons m messages ih => exact ih _ _
  simp only [Broker.recoverQueue, declared, Broker.moves_requeue ids declared,
    Broker.queue_advance, Broker.change_queue declared]
  refine ⟨_, rfl, OrdMap.ext_get fun tag => ?_⟩
  rw [List.foldl_append, forget, copies, OrdMap.get_empty]
  split_ifs with member
  · rfl
  · exact OrdMap.get_eq_none.mpr member

theorem recoverQueue_queue_other (b : Broker) {other : String} (different : other ≠ name) :
    (b.recoverQueue ids name).queue other = b.queue other := by
  unfold Broker.recoverQueue
  split
  · rfl
  · exact Broker.moves_queue_other b different _

/-- Recovery of all queues: only requeues, and nothing stays in flight. -/
theorem recoverEach_path (names : List String) (b : Broker) :
    (∃ moves, Path ids b moves (names.foldl (Broker.recoverQueue ids) b) ∧
      ∀ x ∈ moves, ∃ tag m, x.2 = .requeue tag m) ∧
    ∀ name st, (name ∈ names ∨ ∀ st, b.queue name = some st → st.inflight = .empty) →
      (names.foldl (Broker.recoverQueue ids) b).queue name = some st → st.inflight = .empty := by
  induction names generalizing b with
  | nil =>
      refine ⟨⟨[], .done, fun x member => nomatch member⟩, ?_⟩
      rintro name st (impossible | empty) declared
      · exact nomatch impossible
      · exact empty st declared
  | cons first names ih =>
      obtain ⟨⟨moves, path, requeues⟩, settled⟩ := ih (b.recoverQueue ids first)
      rw [List.foldl_cons]
      constructor
      · cases declared : b.queue first with
        | none =>
            rw [Broker.recoverQueue, declared] at path ⊢
            exact ⟨moves, path, requeues⟩
        | some st =>
            refine ⟨_, (Path.requeue ids declared).trans path, ?_⟩
            intro x member
            rcases List.mem_append.mp member with here | later
            · obtain ⟨e, -, rfl⟩ := List.mem_map.mp here
              exact ⟨e.1, e.2, rfl⟩
            · exact requeues x later
      · intro name st reason declared
        refine settled name st ?_ declared
        by_cases here : name = first
        · subst here
          refine .inr fun st' declared' => ?_
          cases before : b.queue name with
          | none =>
              rw [Broker.recoverQueue, before] at declared'
              rw [before] at declared'
              cases declared'
          | some st₀ =>
              obtain ⟨st'', declared'', empty⟩ := recoverQueue_inflight ids before
              rw [declared'', Option.some.injEq] at declared'
              exact declared' ▸ empty
        · rw [recoverQueue_queue_other ids b here]
          rcases reason with member | empty
          · exact .inl ((List.mem_cons.mp member).resolve_left here)
          · exact .inr empty

/-- Every operation is a transition. -/
theorem perform_transition (bc : Bincode) (clock : Nat → Int64) (b : Broker)
    (utf8 : ∀ key ∈ b.queues.keys, ∃ name : String, key = name.utf8) (op : Operation) :
    ∃ moves, Transition ids b op (b.perform bc ids clock op).1 moves
      (b.perform bc ids clock op).2 := by
  cases op with
  | declareQueueWithRetention name policy =>
      cases declared : b.queue name with
      | none =>
          simp only [Broker.perform, Broker.declare, declared]
          exact ⟨_, .declared declared⟩
      | some st =>
          simp only [Broker.perform, Broker.declare, declared]
          exact ⟨_, .exists declared⟩
  | publish name m =>
      cases declared : b.queue name with
      | none =>
          simp only [Broker.perform, Broker.publish, declared]
          exact ⟨_, .notFound rfl declared⟩
      | some st =>
          simp only [Broker.perform, Broker.publish, declared]
          split_ifs
          · exact ⟨_, .deduplicated⟩
          · cases b.limitError (Broker.size bc m) with
            | some e => exact ⟨_, .limited⟩
            | none =>
                refine ⟨_, .stored ((Path.store ids declared m _ _).setBytes _) ?_⟩
                intro mv member
                unfold QueueState.recordDedup at member
                split at member
                · exact ⟨_, _, List.mem_singleton.mp member⟩
                · cases member
  | consume name =>
      cases declared : b.queue name with
      | none =>
          simp only [Broker.perform, Broker.consume, declared]
          exact ⟨_, .notFound rfl declared⟩
      | some st =>
          simp only [Broker.perform, Broker.consume, declared]
          cases front : st.ready.entries.head? with
          | none => exact ⟨_, .nothing declared (List.head?_eq_none_iff.mp front)⟩
          | some e => exact ⟨_, .delivered declared front⟩
  | ack name tag =>
      cases declared : b.queue name with
      | none =>
          simp only [Broker.perform, Broker.ack, declared]
          exact ⟨_, .notFound rfl declared⟩
      | some st =>
          simp only [Broker.perform, Broker.ack, declared]
          cases found : st.inflight.get tag with
          | none => exact ⟨_, .invalidAck declared found⟩
          | some m => exact ⟨_, .acked declared found⟩
  | nack name tag =>
      cases declared : b.queue name with
      | none =>
          simp only [Broker.perform, Broker.nack, declared]
          exact ⟨_, .notFound rfl declared⟩
      | some st =>
          simp only [Broker.perform, Broker.nack, declared]
          cases found : st.inflight.get tag with
          | none => exact ⟨_, .invalidNack declared found⟩
          | some m => exact ⟨_, .nacked declared found⟩
  | promoteScheduled name =>
      cases declared : b.queue name with
      | none =>
          simp only [Broker.perform, Broker.promoteScheduled, declared]
          exact ⟨_, .notFound rfl declared⟩
      | some st =>
          simp only [Broker.perform, Broker.promoteScheduled, declared]
          exact ⟨_, .promoted declared (Path.promote ids declared _)⟩
  | applyRetention name =>
      cases declared : b.queue name with
      | none =>
          simp only [Broker.perform, Broker.applyRetention, declared]
          exact ⟨_, .notFound rfl declared⟩
      | some st =>
          have first := Path.discard ids declared (expired_sublist st (clock 0))
          have declared' := Broker.change_queue declared
            ((st.expired (clock 0)).map fun e => .dropReady e.1)
          rw [← Broker.discardAll_change ids declared] at declared'
          have second := Path.discard ids declared' (excess_sublist _)
          have path := first.trans second
          rw [← List.map_append] at path
          simp only [Broker.perform, Broker.applyRetention, declared, declared', Option.map_some,
            Option.getD_some, Broker.recount]
          rw [← List.length_append]
          split_ifs
          · exact ⟨_, .retained declared (path.setBytes _)⟩
          · exact ⟨_, .retained declared path⟩
  | reopen maxBytes =>
      obtain ⟨⟨moves, path, requeues⟩, settled⟩ := recoverEach_path ids b.names
        { b with bytes := b.totalBytes bc, maxBytes := maxBytes }
      refine ⟨moves, Transition.reopened (Path.idle ?_ ?_ path) requeues ?_⟩
      · rfl
      · exact Nat.le_refl _
      intro name st declared
      refine settled name st ?_ declared
      cases before : b.queue name with
      | none =>
          refine .inr fun st' declared' => ?_
          cases before.symm.trans declared'
      | some st' => exact .inl ((Broker.mem_names utf8).mpr ⟨st', before⟩)

end Perform

/-! ## How operations answer -/

theorem Broker.limitError_eq {b : Broker} {size : UInt64} {e : PelicanError}
    (limit : b.limitError size = some e) : ∃ usedPct, e = .storageLimitExceeded usedPct 100 := by
  unfold Broker.limitError at limit
  split at limit
  · cases limit
  · split_ifs at limit
    all_goals
      cases limit
      exact ⟨_, rfl⟩

/-- Every operation answers, with a value or an error of the domain. -/
theorem perform_regular (bc : Bincode) (ids : Nat → UInt64) (clock : Nat → Int64) (b : Broker)
    (op : Operation) : (b.perform bc ids clock op).1.Regular := by
  cases op with
  | declareQueueWithRetention name policy =>
      simp only [Broker.perform, Broker.declare]
      cases b.queue name <;> trivial
  | publish queue m =>
      simp only [Broker.perform, Broker.publish]
      cases b.queue queue with
      | none => trivial
      | some st =>
          dsimp only
          split_ifs
          · trivial
          · cases limit : b.limitError (Broker.size bc m) with
            | none => trivial
            | some e =>
                obtain ⟨usedPct, rfl⟩ := Broker.limitError_eq limit
                trivial
  | consume queue =>
      simp only [Broker.perform, Broker.consume]
      cases b.queue queue with
      | none => trivial
      | some st =>
          dsimp only
          cases st.ready.entries.head? <;> trivial
  | ack queue tag =>
      simp only [Broker.perform, Broker.ack]
      cases b.queue queue with
      | none => trivial
      | some st =>
          dsimp only
          cases st.inflight.get tag <;> trivial
  | nack queue tag =>
      simp only [Broker.perform, Broker.nack]
      cases b.queue queue with
      | none => trivial
      | some st =>
          dsimp only
          cases st.inflight.get tag <;> trivial
  | promoteScheduled queue =>
      simp only [Broker.perform, Broker.promoteScheduled]
      cases b.queue queue <;> trivial
  | applyRetention queue =>
      simp only [Broker.perform, Broker.applyRetention]
      cases b.queue queue <;> trivial
  | reopen => trivial

/-- An operation on a queue answers that there is none exactly when there is none. -/
theorem Broker.perform_missing (bc : Bincode) (ids : Nat → UInt64) (clock : Nat → Int64) (b : Broker)
    {op : Operation} {q : String} {missing : Response} (on : op.missing = some (q, missing)) :
    (b.perform bc ids clock op).1 = missing ↔ b.queue q = none := by
  cases declared : b.queue q with
  | none =>
      refine iff_of_true ?_ rfl
      cases op with
      | declareQueueWithRetention | reopen => cases on
      | publish | consume | ack | nack | promoteScheduled | applyRetention =>
          cases on
          simp only [Broker.perform, Broker.publish, Broker.consume, Broker.ack, Broker.nack,
            Broker.promoteScheduled, Broker.applyRetention, declared]
          rfl
  | some st =>
      refine iff_of_false ?_ nofun
      cases op with
      | declareQueueWithRetention | reopen => cases on
      | promoteScheduled | applyRetention =>
          cases on
          simp only [Broker.perform, Broker.promoteScheduled, Broker.applyRetention, declared]
          exact nofun
      | publish queue m =>
          cases on
          simp only [Broker.perform, Broker.publish, declared]
          split_ifs
          · exact nofun
          · cases limit : b.limitError (Broker.size bc m) with
            | none => exact nofun
            | some e =>
                obtain ⟨usedPct, rfl⟩ := Broker.limitError_eq limit
                exact nofun
      | consume queue =>
          cases on
          simp only [Broker.perform, Broker.consume, declared]
          cases st.ready.entries.head? <;> exact nofun
      | ack queue tag =>
          cases on
          simp only [Broker.perform, Broker.ack, declared]
          cases st.inflight.get tag <;> exact nofun
      | nack queue tag =>
          cases on
          simp only [Broker.perform, Broker.nack, declared]
          cases st.inflight.get tag <;> exact nofun

/-! ## Whole runs -/

theorem Broker.recoverEach_names (ids : Nat → UInt64) (names : List String) (b : Broker) :
    (names.foldl (Broker.recoverQueue ids) b).names = b.names := by
  induction names generalizing b with
  | nil => rfl
  | cons name names ih => rw [List.foldl_cons, ih, Broker.recoverQueue_names]

/-- Only a declaration adds a name. -/
theorem perform_names (bc : Bincode) (ids : Nat → UInt64) (clock : Nat → Int64) (b : Broker)
    (op : Operation) :
    ∀ a ∈ (b.perform bc ids clock op).2.names, a ∈ op.declares ++ b.names := by
  have kept {b' : Broker} (same : b'.names = b.names) {op : Operation} :
      ∀ a ∈ b'.names, a ∈ op.declares ++ b.names := by
    intro a member
    exact List.mem_append_right _ (same ▸ member)
  cases op with
  | declareQueueWithRetention name policy =>
      simp only [Broker.perform, Broker.declare]
      split
      · exact kept rfl
      · exact Broker.names_insert b name (.fresh policy)
  | publish name m =>
      simp only [Broker.perform, Broker.publish]
      split
      · exact kept rfl
      · split_ifs
        · exact kept rfl
        · split
          · exact kept rfl
          · exact kept (Broker.moves_names b name _)
  | consume name =>
      simp only [Broker.perform, Broker.consume]
      split
      · exact kept rfl
      · split
        · exact kept rfl
        · exact kept (Broker.move_names b name _)
  | ack name tag =>
      simp only [Broker.perform, Broker.ack]
      split
      · exact kept rfl
      · split
        · exact kept rfl
        · exact kept (Broker.move_names b name _)
  | nack name tag =>
      simp only [Broker.perform, Broker.nack]
      split
      · exact kept rfl
      · split
        · exact kept rfl
        · exact kept (Broker.move_names b name _)
  | promoteScheduled name =>
      simp only [Broker.perform, Broker.promoteScheduled]
      split
      · exact kept rfl
      · exact kept (Broker.moves_names b name _)
  | applyRetention name =>
      simp only [Broker.perform, Broker.applyRetention]
      split
      · exact kept rfl
      · exact kept (((Broker.recount_names bc _ _).trans (Broker.moves_names _ name _)).trans
          (Broker.moves_names b name _))
  | reopen maxBytes =>
      refine kept ?_
      exact Broker.recoverEach_names ids _ _

/-- An event of the manager and what it is for the broker. -/
structure Simulates (bc : Bincode) (ids : Nat → UInt64) (e : Event) (b : Broker)
    (moves : List (String × Move)) (b' : Broker) : Prop where
  performed : (e.response, e.after) = e.step.op.perform bc ids e.step.clock e.before
  before : Refines bc e.before b
  sound : b.Sound ids
  step : Transition ids b e.step.op e.response moves b'
  after : Refines bc e.after b'
  increasing : StrictMonoOn ids (Set.Iio b'.drawn)
  sound_after : b'.Sound ids

/-- A broker before the first operation. -/
abbrev emptyBroker (maxBytes : Option UInt64) : Broker := ⟨.empty, 0, 0, maxBytes⟩

theorem started_refines (bc : Bincode) (ids : Nat → UInt64) (maxBytes : Option UInt64) :
    Refines bc (started bc ids maxBytes) (emptyBroker maxBytes) where
  held :=
    { registered := rfl
      policies := rfl
      utf8 := fun _ member => (List.not_mem_nil member).elim
      apart := (by decide : NonColliding [])
      stores := fun _ _ declared => nomatch declared
      arrived := fun _ _ declared => nomatch declared
      unwritten := fun _ _ _ _ _ member => (List.not_mem_nil member).elim }
  drawn := rfl
  bytes := rfl
  maxBytes := rfl

theorem Refines.recalculates {bc : Bincode} {qm : QueueManager} {b : Broker} (h : Refines bc qm b)
    (ids : Nat → UInt64) (clock : Nat → Int64) :
    (exec ids clock QueueManager.recalculateBytes qm).1 = .ok (Broker.totalBytes bc b) := by
  have start : Refines bc (Machine.mk qm clock).manager b := h
  rw [exec, ← Program.bind_ret QueueManager.recalculateBytes, run_recalculateBytes ids start]
  rfl

theorem declaredNames_append (steps : List Step) (step : Step) :
    declaredNames (steps ++ [step]) = declaredNames steps ++ step.op.declares := by
  simp only [declaredNames, List.flatMap_append, List.flatMap_singleton]

theorem NonColliding.upTo {steps rest : List Step}
    (apart : NonColliding (declaredNames (steps ++ rest))) : NonColliding (declaredNames steps) := by
  refine apart.subset fun a member => ?_
  rw [declaredNames, List.flatMap_append]
  exact List.mem_append_left _ member

/-- What every step keeps, whatever the run starts from and whatever the ids are. -/
theorem run_refines_from {bc : Bincode} (ids : Nat → UInt64) {qm : QueueManager} {b₀ : Broker}
    (start : Refines bc qm b₀) (Inv : List Step → Broker → Prop) (initially : Inv [] b₀)
    (next : ∀ past step b, Inv past b → Refines bc (final bc ids qm past) b →
      (step.op.perform bc ids step.clock (final bc ids qm past)).1 =
        (b.perform bc ids step.clock step.op).1 →
      Refines bc (final bc ids qm (past ++ [step])) (b.perform bc ids step.clock step.op).2 →
      Inv (past ++ [step]) (b.perform bc ids step.clock step.op).2)
    (steps : List Step) (apart : NonColliding (declaredNames steps ++ b₀.names)) :
    ∃ b, Refines bc (final bc ids qm steps) b ∧
      (∀ a ∈ b.names, a ∈ declaredNames steps ++ b₀.names) ∧ Inv steps b := by
  induction steps using List.reverseRecOn with
  | nil => exact ⟨b₀, start, fun _ member => member, initially⟩
  | append_singleton steps step ih =>
      rw [declaredNames_append] at apart ⊢
      have earlier : ∀ a ∈ declaredNames steps ++ b₀.names,
          a ∈ declaredNames steps ++ step.op.declares ++ b₀.names := by
        intro a member
        rcases List.mem_append.mp member with new | old
        · exact List.mem_append_left _ (List.mem_append_left _ new)
        · exact List.mem_append_right _ old
      obtain ⟨b, before, known, inv⟩ := ih (apart.subset earlier)
      have declared : ∀ a ∈ step.op.declares ++ b.names,
          a ∈ declaredNames steps ++ step.op.declares ++ b₀.names := by
        intro a member
        rcases List.mem_append.mp member with new | old
        · exact List.mem_append_left _ (List.mem_append_right _ new)
        · exact earlier a (known a old)
      obtain ⟨response, after⟩ := perform_refines ids step.clock before step.op
        (apart.subset declared)
      have last : final bc ids qm (steps ++ [step]) =
          (step.op.perform bc ids step.clock (final bc ids qm steps)).2 := final_append ..
      rw [← last] at after
      refine ⟨_, after, fun a member => ?_, next steps step b inv before response after⟩
      exact declared a (perform_names bc ids step.clock b step.op a member)

/-- What every step of a run from an empty directory keeps, whatever the ids are. -/
theorem run_refines (bc : Bincode) (ids : Nat → UInt64) (maxBytes : Option UInt64)
    (Inv : List Step → Broker → Prop) (initially : Inv [] (emptyBroker maxBytes))
    (next : ∀ past step b, Inv past b →
      Refines bc (final bc ids (started bc ids maxBytes) past) b →
      (step.op.perform bc ids step.clock (final bc ids (started bc ids maxBytes) past)).1 =
        (b.perform bc ids step.clock step.op).1 →
      Refines bc (final bc ids (started bc ids maxBytes) (past ++ [step]))
        (b.perform bc ids step.clock step.op).2 →
      Inv (past ++ [step]) (b.perform bc ids step.clock step.op).2)
    (steps : List Step) (apart : NonColliding (declaredNames steps)) :
    ∃ b, Refines bc (final bc ids (started bc ids maxBytes) steps) b ∧
      (∀ a ∈ b.names, a ∈ declaredNames steps) ∧ Inv steps b := by
  have none : declaredNames steps ++ (emptyBroker maxBytes).names = declaredNames steps :=
    List.append_nil _
  have run := run_refines_from ids (started_refines bc ids maxBytes) Inv initially next steps
    (none.symm ▸ apart)
  rwa [none] at run

/-- A step of a run from an empty directory, and what it is for the broker before it. -/
structure Performs (bc : Bincode) (ids : Nat → UInt64) (maxBytes : Option UInt64)
    (past : List Step) (step : Step) (b : Broker) : Prop where
  before : Refines bc (final bc ids (started bc ids maxBytes) past) b
  sound : b.Sound ids
  response : (step.op.perform bc ids step.clock (final bc ids (started bc ids maxBytes) past)).1 =
    (b.perform bc ids step.clock step.op).1
  after : Refines bc (final bc ids (started bc ids maxBytes) (past ++ [step]))
    (b.perform bc ids step.clock step.op).2
  increasing : StrictMonoOn ids (Set.Iio (b.perform bc ids step.clock step.op).2.drawn)
  sound_after : (b.perform bc ids step.clock step.op).2.Sound ids

/-- What holds at the start and is kept by every step holds after every run. -/
theorem run_steps (bc : Bincode) (ids : Nat → UInt64) (maxBytes : Option UInt64)
    (Inv : List Step → Broker → Prop) (initially : Inv [] (emptyBroker maxBytes))
    (next : ∀ past step b, Inv past b → Performs bc ids maxBytes past step b →
      Inv (past ++ [step]) (b.perform bc ids step.clock step.op).2)
    (steps : List Step) (apart : NonColliding (declaredNames steps))
    (increasing : Increasing ids (final bc ids (started bc ids maxBytes) steps)) :
    ∃ b, Refines bc (final bc ids (started bc ids maxBytes) steps) b ∧ b.Sound ids ∧
      Inv steps b := by
  -- the order of the ids is only used for what has happened: a database hands out more and more
  obtain ⟨b, refines, -, rest⟩ := run_refines bc ids maxBytes
    (fun steps b => Increasing ids (final bc ids (started bc ids maxBytes) steps) →
      b.Sound ids ∧ Inv steps b)
    (fun _ => ⟨.empty _ rfl, initially⟩)
    (fun past step b rest before response after increasing => by
      obtain ⟨moves, transition⟩ := perform_transition ids bc step.clock b before.held.utf8 step.op
      have upTo := after.increasing increasing
      have drawn := transition.path.drawn_le
      rw [← before.drawn] at drawn
      obtain ⟨sound, inv⟩ := rest (upTo.mono (Set.Iio_subset_Iio drawn))
      have sound' := sound.path transition.path upTo
      exact ⟨sound', next _ _ b inv ⟨before, sound, response, after, upTo, sound'⟩⟩)
    steps apart
  exact ⟨b, refines, rest increasing⟩

/-- The broker before the last step of a run. -/
theorem run_last {bc : Bincode} {ids : Nat → UInt64} {maxBytes : Option UInt64} {past : List Step}
    {step : Step} (apart : NonColliding (declaredNames (past ++ [step])))
    (increasing : Increasing ids (final bc ids (started bc ids maxBytes) (past ++ [step]))) :
    ∃ b, Performs bc ids maxBytes past step b := by
  obtain ⟨b, -, -, last⟩ := run_steps bc ids maxBytes
    (fun steps _ => ∀ past step, steps = past ++ [step] → ∃ b, Performs bc ids maxBytes past step b)
    (fun past step nothing => by simp at nothing)
    (fun past step b _ performs past' step' same => by
      obtain ⟨rfl, one⟩ := List.append_inj' same rfl
      cases one
      exact ⟨b, performs⟩)
    (past ++ [step]) apart increasing
  exact last past step rfl

/-- What holds at the start and is kept by every event holds after every run. -/
theorem run_invariant (bc : Bincode) (ids : Nat → UInt64) (maxBytes : Option UInt64)
    (Inv : List Event → Broker → Prop) (initially : Inv [] ⟨.empty, 0, 0, maxBytes⟩)
    (next : ∀ past e b moves b', Inv past b → Simulates bc ids e b moves b' → Inv (past ++ [e]) b')
    (steps : List Step) (apart : NonColliding (declaredNames steps))
    (increasing : Increasing ids (final bc ids (started bc ids maxBytes) steps)) :
    ∃ b, Refines bc (final bc ids (started bc ids maxBytes) steps) b ∧ b.Sound ids ∧
      Inv (events bc ids (started bc ids maxBytes) steps) b := by
  refine run_steps bc ids maxBytes
    (fun past b => Inv (events bc ids (started bc ids maxBytes) past) b) initially ?_ steps apart
    increasing
  intro past step b inv performs
  obtain ⟨moves, transition⟩ := perform_transition ids bc step.clock b performs.before.held.utf8
    step.op
  have after := performs.after
  rw [final_append] at after
  rw [events_append]
  refine next _ _ b moves _ inv ⟨rfl, performs.before, performs.sound, ?_, after,
    performs.increasing, performs.sound_after⟩
  change Transition ids b step.op (step.op.perform bc ids step.clock _).1 _ _
  rw [performs.response]
  exact transition

end PelicanQ
