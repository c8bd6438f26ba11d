import PelicanQ.Broker.Runs

/-! # Operations as scripts

Seen from one queue, an operation that the storage limit admits is an answer and
a list of moves, and both are a function of that queue alone.  What the other
queues hold only shows in which ids the moves take.
-/

namespace PelicanQ

namespace QueueState

/-- Moves in one queue, the first of which would take the `n`th id. -/
def moves (ids : Nat → UInt64) : Nat → QueueState → List Move → QueueState
  | _, st, [] => st
  | n, st, mv :: mvs => moves ids (n + mv.draws) (st.move (ids n) mv) mvs

/-- A queue without the messages that are too old. -/
def expire (st : QueueState) (now : Int64) : QueueState :=
  { st with ready := ((st.expired now).map Prod.fst).foldl OrdMap.erase st.ready }

/-- What an operation on a declared queue answers, and the moves it makes. -/
def script (clock : Nat → Int64) (st : QueueState) : Operation → Response × List Move
  | .declareQueueWithRetention name _ => (.declared (.err (.queueAlreadyExists name)), [])
  | .publish _ m =>
      if (st.isDuplicate m clock).1 then (.published (.ok .deduplicated), []) else
        let due := notYetDue m (st.isDuplicate m clock).2
        (.published (.ok (.stored m.id)), .store m due.1 :: st.recordDedup m due.2)
  | .consume _ =>
      match st.ready.entries.head? with
      | none => (.consumed (.ok none), [])
      | some (key, m) => (.consumed (.ok (some (ReadyKey.id key, m))), [.deliver key m])
  | .ack _ tag =>
      match st.inflight.get tag with
      | none => (.acked (.err (.invalidDeliveryTag tag)), [])
      | some m => (.acked (.ok ()), [.settle tag m])
  | .nack _ tag =>
      match st.inflight.get tag with
      | none => (.nacked (.err (.invalidDeliveryTag tag)), [])
      | some m => (.nacked (.ok ()), [.retry tag m])
  | .promoteScheduled _ =>
      (.promoted (.ok (st.due (clock 0)).length),
        (st.due (clock 0)).map fun e => .promote e.1 e.2)
  | .applyRetention _ =>
      (.retained (.ok ((st.expired (clock 0)).length + (st.expire (clock 0)).excess.length)),
        (st.expired (clock 0) ++ (st.expire (clock 0)).excess).map fun e => .discard e.1 e.2)
  | .reopen _ => (.reopened (.ok ()), st.inflight.entries.map fun e => .requeue e.1 e.2)

theorem moves_append (ids : Nat → UInt64) (n : Nat) (st : QueueState) (mvs mvs' : List Move) :
    moves ids n st (mvs ++ mvs') =
      moves ids (n + (mvs.map Move.draws).sum) (moves ids n st mvs) mvs' := by
  induction mvs generalizing n st with
  | nil => rfl
  | cons mv mvs ih =>
      rw [List.cons_append, moves, ih, moves, List.map_cons, List.sum_cons, Nat.add_assoc]

/-- Discarding is erasing by key. -/
theorem moves_discard (ids : Nat → UInt64) (n : Nat) (st : QueueState)
    (entries : List (ReadyKey × Message)) :
    moves ids n st (entries.map fun e => .discard e.1 e.2) =
      { st with ready := (entries.map Prod.fst).foldl OrdMap.erase st.ready } := by
  induction entries generalizing st with
  | nil => rfl
  | cons e entries ih => exact ih _

theorem policy_moves (ids : Nat → UInt64) (n : Nat) (st : QueueState) (mvs : List Move) :
    (moves ids n st mvs).policy = st.policy := by
  induction mvs generalizing n st with
  | nil => rfl
  | cons mv mvs ih => rw [moves, ih, move, policy_changes]

theorem moves_expire (ids : Nat → UInt64) (n : Nat) (st : QueueState) (now : Int64) :
    moves ids n st ((st.expired now).map fun e => .discard e.1 e.2) = st.expire now :=
  moves_discard ids n st _

end QueueState

/-- The ids an operation draws: a nack draws one whether it knows its tag or not. -/
def Operation.draws (mvs : List Move) : Operation → Nat
  | .nack .. => max 1 (mvs.map Move.draws).sum
  | _ => (mvs.map Move.draws).sum

namespace Broker

variable {bc : Bincode} {ids : Nat → UInt64} {clock : Nat → Int64} {b : Broker} {name : String}
  {st : QueueState}

theorem moves_queue (declared : b.queue name = some st) (mvs : List Move) :
    (b.moves ids name mvs).queue name = some (QueueState.moves ids b.drawn st mvs) := by
  induction mvs generalizing b st with
  | nil => exact declared
  | cons mv mvs ih =>
      rw [moves_cons, ih (move_queue declared mv), move_drawn declared, QueueState.moves]

theorem moves_drawn (declared : b.queue name = some st) (mvs : List Move) :
    (b.moves ids name mvs).drawn = b.drawn + (mvs.map Move.draws).sum := by
  induction mvs generalizing b st with
  | nil => rfl
  | cons mv mvs ih =>
      rw [moves_cons, ih (move_queue declared mv), move_drawn declared, List.map_cons,
        List.sum_cons, Nat.add_assoc]

theorem moves_maxBytes (b : Broker) (name : String) (mvs : List Move) :
    (b.moves ids name mvs).maxBytes = b.maxBytes := by
  induction mvs generalizing b with
  | nil => rfl
  | cons mv mvs ih => rw [moves_cons, ih, move_maxBytes]

theorem queue_recount (b : Broker) (removed : Nat) :
    (recount bc b removed).queue name = b.queue name := by
  unfold recount
  split <;> rfl

theorem drawn_recount (b : Broker) (removed : Nat) : (recount bc b removed).drawn = b.drawn := by
  unfold recount
  split <;> rfl

/-- The operation is not a publish that the limit refuses. -/
def Admits (bc : Bincode) (b : Broker) (op : Operation) : Prop :=
  ∀ queue m, op = .publish queue m → b.limitError (size bc m) = none

theorem admits_unlimited (unlimited : b.maxBytes = none) (op : Operation) : b.Admits bc op := by
  intro queue m _
  rw [limitError, unlimited]

/-- What an operation leaves of its queue. -/
structure Scripted (ids : Nat → UInt64) (b b' : Broker) (name : String) (st : QueueState)
    (mvs : List Move) (draws : Nat) : Prop where
  queue : b'.queue name = some (st.moves ids b.drawn mvs)
  drawn : b'.drawn = b.drawn + draws

theorem Scripted.none (declared : b.queue name = some st) : Scripted ids b b name st [] 0 :=
  ⟨declared, rfl⟩

variable (ids) in
theorem Scripted.moves (declared : b.queue name = some st) (mvs : List Move) :
    Scripted ids b (b.moves ids name mvs) name st mvs (mvs.map Move.draws).sum :=
  ⟨moves_queue declared mvs, moves_drawn declared mvs⟩

/-- The moves draw no more than the operation does. -/
theorem Scripted.fits {b' : Broker} {mvs : List Move} {op : Operation}
    (after : Scripted ids b b' name st mvs (op.draws mvs)) :
    b.drawn + (mvs.map Move.draws).sum ≤ b'.drawn := by
  rw [after.drawn, Nat.add_le_add_iff_left]
  cases op with
  | nack => exact Nat.le_max_right ..
  | declareQueueWithRetention | publish | consume | ack | promoteScheduled | applyRetention |
    reopen => exact Nat.le_refl _

variable (bc ids clock) in
/-- An operation on a declared queue follows the queue's script. -/
theorem perform_script (declared : b.queue name = some st) {op : Operation}
    (on : op.on = some name) (admits : b.Admits bc op) :
    (b.perform bc ids clock op).1 = (st.script clock op).1 ∧
      Scripted ids b (b.perform bc ids clock op).2 name st (st.script clock op).2
        (op.draws (st.script clock op).2) := by
  cases op with
  | declareQueueWithRetention queue policy =>
      cases on
      simp only [perform, declare, declared, QueueState.script]
      exact ⟨rfl, .none declared⟩
  | publish queue m =>
      cases on
      simp only [perform, publish, declared, QueueState.script, admits name m rfl]
      split_ifs
      · exact ⟨rfl, .none declared⟩
      · have stored := Scripted.moves ids declared
          (.store m (notYetDue m (st.isDuplicate m clock).2).1 ::
            st.recordDedup m (notYetDue m (st.isDuplicate m clock).2).2)
        exact ⟨rfl, stored.queue, stored.drawn⟩
  | consume queue =>
      cases on
      simp only [perform, consume, declared, QueueState.script]
      cases st.ready.entries.head? with
      | none => exact ⟨rfl, .none declared⟩
      | some e => exact ⟨rfl, .moves ids declared [.deliver e.1 e.2]⟩
  | ack queue tag =>
      cases on
      simp only [perform, ack, declared, QueueState.script]
      cases st.inflight.get tag with
      | none => exact ⟨rfl, .none declared⟩
      | some m =>
          have settled := Scripted.moves ids declared [.settle tag m]
          exact ⟨rfl, settled.queue, settled.drawn⟩
  | nack queue tag =>
      cases on
      simp only [perform, nack, declared, QueueState.script]
      cases st.inflight.get tag with
      | none => exact ⟨rfl, declared, rfl⟩
      | some m => exact ⟨rfl, .moves ids declared [.retry tag m]⟩
  | promoteScheduled queue =>
      cases on
      simp only [perform, promoteScheduled, declared, QueueState.script]
      exact ⟨rfl, .moves ids declared _⟩
  | applyRetention queue =>
      cases on
      have expired : (b.discardAll ids name (st.expired (clock 0))).queue name =
          some (st.expire (clock 0)) := by
        rw [discardAll, moves_queue declared, QueueState.moves_expire]
      simp only [perform, applyRetention, declared, QueueState.script, expired, Option.map_some,
        Option.getD_some]
      have both : (b.discardAll ids name (st.expired (clock 0))).discardAll ids name
          (st.expire (clock 0)).excess = b.moves ids name
            ((st.expired (clock 0) ++ (st.expire (clock 0)).excess).map
              fun e => .discard e.1 e.2) := by
        rw [List.map_append, moves_append]
        rfl
      rw [both]
      have discarded := Scripted.moves ids declared
        ((st.expired (clock 0) ++ (st.expire (clock 0)).excess).map fun e => .discard e.1 e.2)
      exact ⟨rfl, (queue_recount _ _).trans discarded.queue,
        (drawn_recount _ _).trans discarded.drawn⟩
  | reopen => cases on

variable (bc ids clock) in
/-- Other queues are not concerned. -/
theorem perform_queue_other {op : Operation} (on : op.on = some name) {other : String}
    (different : other ≠ name) : (b.perform bc ids clock op).2.queue other = b.queue other := by
  cases op with
  | declareQueueWithRetention queue policy =>
      cases on
      simp only [perform, declare]
      cases declared : b.queue name with
      | some st => rfl
      | none =>
          exact (OrdMap.get_insert _ _ _ _).trans
            (if_neg fun same => different (String.utf8_injective same))
  | publish queue m =>
      cases on
      simp only [perform, publish]
      cases b.queue name with
      | none => rfl
      | some st =>
          simp only
          split_ifs
          · rfl
          · cases b.limitError (size bc m) with
            | some e => rfl
            | none => exact moves_queue_other b different _
  | consume queue =>
      cases on
      simp only [perform, consume]
      cases b.queue name with
      | none => rfl
      | some st =>
          dsimp only
          cases st.ready.entries.head? with
          | none => rfl
          | some e => exact move_queue_other b different _
  | ack queue tag =>
      cases on
      simp only [perform, ack]
      cases b.queue name with
      | none => rfl
      | some st =>
          dsimp only
          cases st.inflight.get tag with
          | none => rfl
          | some m => exact move_queue_other b different _
  | nack queue tag =>
      cases on
      simp only [perform, nack]
      cases b.queue name with
      | none => rfl
      | some st =>
          dsimp only
          cases st.inflight.get tag with
          | none => rfl
          | some m => exact move_queue_other b different _
  | promoteScheduled queue =>
      cases on
      simp only [perform, promoteScheduled]
      cases b.queue name with
      | none => rfl
      | some st => exact moves_queue_other b different _
  | applyRetention queue =>
      cases on
      simp only [perform, applyRetention]
      cases b.queue name with
      | none => rfl
      | some st =>
          refine (queue_recount _ _).trans ?_
          rw [discardAll, moves_queue_other _ different, discardAll, moves_queue_other _ different]
  | reopen => cases on

variable (bc ids clock) in
/-- An operation on a queue that is not there. -/
theorem perform_undeclared {op : Operation} (on : op.on = some name)
    (undeclared : b.queue name = none) :
    (∃ policy, op = .declareQueueWithRetention name policy ∧
      (b.perform bc ids clock op).1 = .declared (.ok ()) ∧
        (b.perform bc ids clock op).2.queue name = some (.fresh policy) ∧
          (b.perform bc ids clock op).2.drawn = b.drawn) ∨
    (∃ response, op.missing = some (name, response) ∧ (b.perform bc ids clock op).1 = response ∧
      (b.perform bc ids clock op).2 = b) := by
  cases op with
  | declareQueueWithRetention queue policy =>
      cases on
      refine .inl ⟨policy, rfl, ?_⟩
      simp only [perform, declare, undeclared]
      exact ⟨rfl, (OrdMap.get_insert _ _ _ _).trans (if_pos rfl), rfl⟩
  | publish queue m =>
      cases on
      simp only [perform, publish, undeclared]
      exact .inr ⟨_, rfl, rfl, rfl⟩
  | consume queue =>
      cases on
      simp only [perform, consume, undeclared]
      exact .inr ⟨_, rfl, rfl, rfl⟩
  | ack queue tag =>
      cases on
      simp only [perform, ack, undeclared]
      exact .inr ⟨_, rfl, rfl, rfl⟩
  | nack queue tag =>
      cases on
      simp only [perform, nack, undeclared]
      exact .inr ⟨_, rfl, rfl, rfl⟩
  | promoteScheduled queue =>
      cases on
      simp only [perform, promoteScheduled, undeclared]
      exact .inr ⟨_, rfl, rfl, rfl⟩
  | applyRetention queue =>
      cases on
      simp only [perform, applyRetention, undeclared]
      exact .inr ⟨_, rfl, rfl, rfl⟩
  | reopen => cases on

theorem maxBytes_recount (b : Broker) (removed : Nat) :
    (recount bc b removed).maxBytes = b.maxBytes := by
  unfold recount
  split <;> rfl

variable (bc ids clock) in
/-- Only a restart sets the limit. -/
theorem perform_maxBytes {op : Operation} (on : op.on = some name) :
    (b.perform bc ids clock op).2.maxBytes = b.maxBytes := by
  cases op with
  | declareQueueWithRetention queue policy =>
      simp only [perform, declare]
      cases b.queue queue <;> rfl
  | publish queue m =>
      simp only [perform, publish]
      cases b.queue queue with
      | none => rfl
      | some st =>
          dsimp only
          split_ifs
          · rfl
          · cases b.limitError (size bc m) with
            | some e => rfl
            | none => exact moves_maxBytes b queue _
  | consume queue =>
      simp only [perform, consume]
      cases b.queue queue with
      | none => rfl
      | some st =>
          dsimp only
          cases st.ready.entries.head? with
          | none => rfl
          | some e => exact move_maxBytes b queue _
  | ack queue tag =>
      simp only [perform, ack]
      cases b.queue queue with
      | none => rfl
      | some st =>
          dsimp only
          cases st.inflight.get tag with
          | none => rfl
          | some m => exact move_maxBytes b queue _
  | nack queue tag =>
      simp only [perform, nack]
      cases b.queue queue with
      | none => rfl
      | some st =>
          dsimp only
          cases st.inflight.get tag with
          | none => rfl
          | some m => exact move_maxBytes b queue _
  | promoteScheduled queue =>
      simp only [perform, promoteScheduled]
      cases b.queue queue with
      | none => rfl
      | some st => exact moves_maxBytes b queue _
  | applyRetention queue =>
      simp only [perform, applyRetention]
      cases b.queue queue with
      | none => rfl
      | some st =>
          refine (maxBytes_recount _ _).trans ?_
          rw [discardAll, moves_maxBytes, discardAll, moves_maxBytes]
  | reopen => cases on

/-! ## Reopening, queue by queue -/

theorem reopen_maxBytes (maxBytes : Option UInt64) :
    (b.reopen bc ids maxBytes).maxBytes = maxBytes := by
  have each (names : List String) (b : Broker) :
      (names.foldl (recoverQueue ids) b).maxBytes = b.maxBytes := by
    induction names generalizing b with
    | nil => rfl
    | cons first names ih =>
        rw [List.foldl_cons, ih, recoverQueue]
        cases b.queue first with
        | none => rfl
        | some st => exact moves_maxBytes b first _
  exact each b.names _

variable (ids) in
theorem recoverQueue_script (declared : b.queue name = some st) :
    Scripted ids b (b.recoverQueue ids name) name st
      (st.inflight.entries.map fun e => .requeue e.1 e.2)
      ((st.inflight.entries.map fun e => Move.requeue e.1 e.2).map Move.draws).sum := by
  simp only [recoverQueue, declared]
  exact .moves ids declared _

theorem recoverQueue_drawn (b : Broker) (name : String) :
    b.drawn ≤ (b.recoverQueue ids name).drawn := by
  cases declared : b.queue name with
  | none => simp only [recoverQueue, declared, Nat.le_refl]
  | some st => exact (Nat.le_add_right _ _).trans (recoverQueue_script ids declared).drawn.ge

/-- With nothing in flight there is nothing to recover. -/
theorem recoverEach_settled (names : List String) (declared : b.queue name = some st)
    (settled : st.inflight.entries = []) :
    (names.foldl (recoverQueue ids) b).queue name = some st := by
  induction names generalizing b with
  | nil => exact declared
  | cons first names ih =>
      refine ih ?_
      by_cases here : name = first
      · subst here
        simp only [recoverQueue, declared, settled, List.map_nil, moves_nil]
      · rw [recoverQueue_queue_other ids b here, declared]

theorem recoverEach_drawn (names : List String) (b : Broker) :
    b.drawn ≤ (names.foldl (recoverQueue ids) b).drawn := by
  induction names generalizing b with
  | nil => exact Nat.le_refl _
  | cons first names ih => exact (recoverQueue_drawn b first).trans (ih _)

theorem recoverEach_undeclared (names : List String) (undeclared : b.queue name = none) :
    (names.foldl (recoverQueue ids) b).queue name = none := by
  induction names generalizing b with
  | nil => exact undeclared
  | cons first names ih =>
      refine ih ?_
      by_cases here : name = first
      · subst here
        simp only [recoverQueue, undeclared]
      · rw [recoverQueue_queue_other ids b here, undeclared]

variable (bc ids) in
theorem reopen_drawn (b : Broker) (maxBytes : Option UInt64) :
    b.drawn ≤ (b.reopen bc ids maxBytes).drawn :=
  recoverEach_drawn b.names { b with bytes := totalBytes bc b, maxBytes := maxBytes }

variable (bc ids) in
theorem reopen_undeclared (undeclared : b.queue name = none) (maxBytes : Option UInt64) :
    (b.reopen bc ids maxBytes).queue name = none :=
  recoverEach_undeclared b.names undeclared

/-- Recovery runs each queue's script once, with ids that were not taken before. -/
theorem recoverEach_script {names : List String} (listed : name ∈ names)
    (declared : b.queue name = some st) :
    ∃ n, b.drawn ≤ n ∧
      (names.foldl (recoverQueue ids) b).queue name =
        some (st.moves ids n (st.inflight.entries.map fun e => .requeue e.1 e.2)) ∧
      n + ((st.inflight.entries.map fun e => Move.requeue e.1 e.2).map Move.draws).sum ≤
        (names.foldl (recoverQueue ids) b).drawn := by
  induction names generalizing b with
  | nil => exact absurd listed List.not_mem_nil
  | cons first names ih =>
      by_cases here : name = first
      · subst here
        have recovered := recoverQueue_script ids declared
        obtain ⟨after, same, empty⟩ := recoverQueue_inflight ids declared
        have settled : after.inflight.entries = [] := by rw [empty, OrdMap.entries_empty]
        refine ⟨b.drawn, Nat.le_refl _, ?_, recovered.drawn.ge.trans (recoverEach_drawn names _)⟩
        rw [List.foldl_cons, recoverEach_settled names same settled, ← same, recovered.queue]
      · have later : name ∈ names := (List.mem_cons.mp listed).resolve_left here
        have kept : (b.recoverQueue ids first).queue name = some st := by
          rw [recoverQueue_queue_other ids b here, declared]
        obtain ⟨n, le, queue, drawn⟩ := ih later kept
        exact ⟨n, (recoverQueue_drawn b first).trans le, queue, drawn⟩

variable (bc ids clock) in
theorem reopen_script (utf8 : ∀ key ∈ b.queues.keys, ∃ name : String, key = name.utf8)
    (declared : b.queue name = some st) (maxBytes : Option UInt64) :
    ∃ n, b.drawn ≤ n ∧
      (b.reopen bc ids maxBytes).queue name =
        some (st.moves ids n (st.script clock (.reopen maxBytes)).2) ∧
      n + ((st.script clock (.reopen maxBytes)).2.map Move.draws).sum ≤
        (b.reopen bc ids maxBytes).drawn := by
  have counted : ({ b with bytes := totalBytes bc b, maxBytes := maxBytes } : Broker).queue name =
      some st := declared
  exact recoverEach_script ((mem_names utf8).mpr ⟨st, declared⟩) counted

/-! ## What an operation makes of a queue -/

variable (bc ids clock b) in
/-- What a declared queue can be after an operation: as it was, when the operation is on another
    queue or is a publish that the limit refuses, and else what its script makes of it. -/
inductive Aftermath (op : Operation) (name : String) (st : QueueState) : QueueState → Prop where
  | elsewhere {q : String} (on : op.on = some q) (other : name ≠ q) : Aftermath op name st st
  | refused {m : Message} {e : PelicanError} (publish : op = .publish name m)
      (answer : (b.perform bc ids clock op).1 = .published (.err e)) : Aftermath op name st st
  | scripted {st' : QueueState} (n : Nat) (after : st' = st.moves ids n (st.script clock op).2)
      (here : ∀ q, op.on = some q → q = name ∧
        (b.perform bc ids clock op).1 = (st.script clock op).1) : Aftermath op name st st'

variable (bc ids clock) in
/-- A declared queue stays declared. -/
theorem perform_aftermath (utf8 : ∀ key ∈ b.queues.keys, ∃ name : String, key = name.utf8)
    (declared : b.queue name = some st) (op : Operation) :
    ∃ st', (b.perform bc ids clock op).2.queue name = some st' ∧
      Aftermath bc ids clock b op name st st' := by
  cases on : op.on with
  | none =>
      obtain ⟨maxBytes, rfl⟩ := op.on_none on
      obtain ⟨n, -, queue, -⟩ := reopen_script bc ids clock utf8 declared maxBytes
      refine ⟨_, queue, .scripted n rfl fun q here => ?_⟩
      cases here
  | some q =>
      by_cases other : name = q
      · subst other
        by_cases admits : b.Admits bc op
        · obtain ⟨answer, after⟩ := perform_script bc ids clock declared on admits
          refine ⟨_, after.queue, .scripted _ rfl fun q here => ⟨?_, answer⟩⟩
          exact Option.some.inj (here.symm.trans on)
        · simp only [Admits, not_forall] at admits
          obtain ⟨queue, m, rfl, limited⟩ := admits
          cases on
          cases limit : b.limitError (size bc m) with
          | none => exact absurd limit limited
          | some e =>
              by_cases duplicate : (st.isDuplicate m clock).1
              · have ran : b.publish bc ids clock name m = (.ok .deduplicated, b) := by
                  simp only [publish, declared, if_pos duplicate]
                have script : st.script clock (.publish name m) =
                    (.published (.ok .deduplicated), []) := by
                  simp only [QueueState.script, if_pos duplicate]
                refine ⟨st, ?_, .scripted b.drawn (by rw [script]; rfl) fun q here => ?_⟩
                · rw [perform, ran]
                  exact declared
                · rw [perform, ran, script]
                  exact ⟨(Option.some.inj here).symm, rfl⟩
              · have ran : b.publish bc ids clock name m = (.err e, b) := by
                  simp only [publish, declared, if_neg duplicate, limit]
                refine ⟨st, ?_, .refused rfl (by rw [perform, ran]; rfl)⟩
                rw [perform, ran]
                exact declared
      · exact ⟨st, (perform_queue_other bc ids clock on other).trans declared, .elsewhere on other⟩

variable (bc ids clock) in
/-- A queue appears when it is declared. -/
theorem perform_appears (undeclared : b.queue name = none) (op : Operation) :
    (b.perform bc ids clock op).2.queue name = none ∨ ∃ policy,
      op = .declareQueueWithRetention name policy ∧
        (b.perform bc ids clock op).2.queue name = some (.fresh policy) := by
  cases on : op.on with
  | none =>
      obtain ⟨maxBytes, rfl⟩ := op.on_none on
      exact .inl (reopen_undeclared bc ids undeclared maxBytes)
  | some q =>
      by_cases other : name = q
      · subst other
        rcases perform_undeclared bc ids clock on undeclared with
          ⟨policy, same, -, fresh, -⟩ | ⟨_, -, -, after⟩
        · exact .inr ⟨policy, same, fresh⟩
        · exact .inl (by rw [after, undeclared])
      · exact .inl ((perform_queue_other bc ids clock on other).trans undeclared)

end Broker

end PelicanQ
