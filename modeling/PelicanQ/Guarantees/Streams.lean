import PelicanQ.Guarantees.Acts

/-! # What a consuming stream sends

Between the task of a stream and its client stand the item the task waits to send
and the channel.  What the task starts to send is what its consumes returned, in
their order, and at most one status at the end; what the client takes is that, in
the same order, as far as it has come.  After a status the stream leaves the manager
alone.
-/

namespace PelicanQ.Grpc

open Daemon (World Task)

/-! ## What an act does -/

section Acts

variable (bc : Bincode) (uuid : UuidText) (ids : Nat → UInt64) (engine : AppEngine)

/-- The stream and the daemon an act leaves. -/
def streamTurn (s : Stream) (a : StreamAct) (w : World) : Stream × World :=
  let r := (streamAct bc uuid engine s a).run (Daemon.handle ids) w
  (Daemon.streamAfter s r.1, r.2)

/-- The stream a consume leaves. -/
def paused (s : Stream) : Outcome Empty (Option (DeliveryTag × Message)) → Stream
  | .ok (some delivery) => { s with sending := some (.ok (consumedMessage uuid delivery)) }
  | .ok none => s
  | _ => { s with running := false }

variable {bc uuid ids engine} {s : Stream} {w : World}

theorem streamTurn_busy (busy : s.idle = false) {a : StreamAct}
    (waits : a = .tick ∨ ∃ message, a = .inbound message) :
    streamTurn bc uuid ids engine s a w = (s, w) := by
  rcases waits with rfl | ⟨message, rfl⟩
  · simp only [streamTurn, streamAct, busy, Bool.false_eq_true, if_false]
    rfl
  · simp only [streamTurn, streamAct, busy, Bool.false_eq_true, if_false]
    rfl

theorem streamTurn_unnamed (unnamed : s.queue = none) :
    streamTurn bc uuid ids engine s .tick w = (s, w) := by
  simp only [streamTurn, streamAct, pause, unnamed, ite_self]
  rfl

theorem streamTurn_tick (idle : s.idle = true) {q : String} (named : s.queue = some q) :
    streamTurn bc uuid ids engine s .tick w =
      (paused uuid s ((consumeOne bc engine q).run (Daemon.handle ids) w).1,
        ((consumeOne bc engine q).run (Daemon.handle ids) w).2) := by
  obtain ⟨queue, running, sending, channel, receiving⟩ := s
  cases named
  simp only [streamTurn, streamAct, pause, idle, if_true, Program.run_bind]
  cases (consumeOne bc engine q).run (Daemon.handle ids) w with
  | mk outcome w' =>
      cases outcome with
      | ok delivery => cases delivery <;> rfl
      | err e => exact e.elim
      | panicked | diverged => rfl

/-- What a message of the client can do to a stream whose task waits for it. -/
structure Heard (s s' : Stream) : Prop where
  channel : s'.channel = s.channel
  receiving : s'.receiving = s.receiving
  sending : s'.sending = none ∨ ∃ status, s'.sending = some (.error status)
  queue : s'.queue = s.queue ∨ (s.queue = none ∧ ∃ q, q ≠ "" ∧ s'.queue = some q)

theorem heard_stops (free : s.sending = none) (running : Bool) :
    Heard s { s with running := running } := ⟨rfl, rfl, .inl free, .inl rfl⟩

theorem heard_endWith (s : Stream) (status : Status) : Heard s (s.endWith status) :=
  ⟨rfl, rfl, .inr ⟨status, rfl⟩, .inl rfl⟩

theorem heard_settle (free : s.sending = none) (settlement : Task Status Unit) :
    (settle s settlement).Ends (Heard s) fun _ => True := by
  refine .last (fun _ => trivial) fun result => ?_
  cases result with
  | ok => exact heard_stops free s.running
  | error status => exact heard_endWith s status

theorem heard_receive (free : s.sending = none) (ack : ConsumeStreamAck) :
    (receive bc engine ack s).Ends (Heard s) fun _ => True := by
  unfold receive
  split
  · rename_i unnamed
    split
    · rename_i queue _
      by_cases empty : queue.isEmpty
      · rw [if_pos empty]
        exact heard_endWith s _
      · rw [if_neg empty]
        refine ⟨rfl, rfl, .inl free, .inr ⟨unnamed, queue, ?_, rfl⟩⟩
        rintro rfl
        exact empty rfl
    · exact heard_endWith s _
  · split
    · exact heard_settle free _
    · exact heard_settle free _
    · exact heard_stops free s.running

theorem heard_inbound (free : s.sending = none) (message : Option (Except String ConsumeStreamAck)) :
    (inbound bc engine message s).Ends (Heard s) fun _ => True := by
  unfold inbound
  split
  · exact heard_receive free _
  · exact heard_endWith s _
  · exact heard_stops free false

theorem Stream.sending_of_idle (idle : s.idle = true) : s.sending = none :=
  Option.isNone_iff_eq_none.mp (Bool.and_eq_true_iff.mp idle).2

theorem streamTurn_inbound (idle : s.idle = true)
    (message : Option (Except String ConsumeStreamAck)) (w : World) :
    Heard s (streamTurn bc uuid ids engine s (.inbound message) w).1 := by
  have free := Stream.sending_of_idle idle
  have ends : (inbound bc engine message s).Ends (Heard s) fun _ => True := heard_inbound free message
  simp only [streamTurn, streamAct, idle, if_true]
  cases ran : ((inbound bc engine message s).run (Daemon.handle ids) w).1 with
  | ok after => exact ends.ok ran
  | err e => exact e.elim
  | panicked | diverged => exact heard_stops free false

end Acts

/-! ## Whole runs -/

/-- An act that was taken, with the daemon before and after it. -/
structure StreamTurn where
  act : StreamAct
  world : World
  before : Stream
  after : Stream
  left : World

namespace StreamTurn

variable (bc : Bincode) (ids : Nat → UInt64) (engine : AppEngine) (t : StreamTurn)

/-- The item the client takes. -/
def took : Option Item :=
  match t.act with
  | .take => t.before.channel.head?
  | _ => none

/-- The item the task starts to send. -/
def produced : Option Item := if t.before.sending.isNone then t.after.sending else none

/-- What the task's consume returns. -/
def consumed : Option (DeliveryTag × Message) :=
  match t.act, t.before.queue with
  | .tick, some q =>
      if t.before.idle then
        match ((consumeOne bc engine q).run (Daemon.handle ids) t.world).1 with
        | .ok delivery => delivery
        | _ => none
      else none
  | _, _ => none

theorem produced_of_same {t : StreamTurn} (same : t.after.sending = t.before.sending) :
    t.produced = none := by
  unfold produced
  split_ifs with free
  · rw [same]
    exact Option.isNone_iff_eq_none.mp free
  · rfl

end StreamTurn

section Runs

variable (bc : Bincode) (uuid : UuidText) (ids : Nat → UInt64) (engine : AppEngine)

def streamTaken (s : Stream) (a : StreamAct) (w : World) : StreamTurn :=
  ⟨a, w, s, (streamTurn bc uuid ids engine s a w).1, (streamTurn bc uuid ids engine s a w).2⟩

/-- The turns of a stream.  Others work on the manager in between. -/
def streamTurns : Stream → List (StreamAct × World) → List StreamTurn
  | _, [] => []
  | s, (a, w) :: rest =>
      streamTaken bc uuid ids engine s a w ::
        streamTurns (streamTaken bc uuid ids engine s a w).after rest

/-- The stream a run leaves. -/
def streamEnd (s : Stream) (run : List (StreamAct × World)) : Stream :=
  run.foldl (fun s step => (streamTurn bc uuid ids engine s step.1 step.2).1) s

theorem streamTurns_snoc (s : Stream) (run : List (StreamAct × World)) (a : StreamAct) (w : World) :
    streamTurns bc uuid ids engine s (run ++ [(a, w)]) =
      streamTurns bc uuid ids engine s run ++
        [streamTaken bc uuid ids engine (streamEnd bc uuid ids engine s run) a w] := by
  induction run generalizing s with
  | nil => rfl
  | cons step run ih => exact congrArg (_ :: ·) (ih _)

theorem streamEnd_snoc (s : Stream) (run : List (StreamAct × World)) (a : StreamAct) (w : World) :
    streamEnd bc uuid ids engine s (run ++ [(a, w)]) =
      (streamTurn bc uuid ids engine (streamEnd bc uuid ids engine s run) a w).1 :=
  List.foldl_append

end Runs

/-- What a run has brought about: `out` was taken, `sent` was started and `got` was consumed. -/
structure InOrder (uuid : UuidText) (out sent : List Item) (got : List (DeliveryTag × Message))
    (s : Stream) : Prop where
  flows : s.receiving = true → sent = out ++ s.channel ++ s.sending.toList
  closed : s.receiving = false → s.channel = [] ∧ out <+: sent
  room : s.channel.length ≤ streamSize
  deliveries : ∃ status : Option Status,
    sent = got.map (fun d => .ok (consumedMessage uuid d)) ++ status.toList.map .error ∧
      (status.isSome → s.idle = false)

namespace InOrder

variable {uuid : UuidText} {out sent : List Item} {got : List (DeliveryTag × Message)}
  {s s' : Stream}

theorem start (uuid : UuidText) : InOrder uuid [] [] [] .new where
  flows _ := rfl
  closed no := by cases no
  room := Nat.zero_le _
  deliveries := ⟨none, rfl, by simp⟩

/-- An item is started while the task is idle. -/
theorem starts (order : InOrder uuid out sent got s) (idle : s.idle = true) (s' : Stream) {item : Item}
    (channel : s'.channel = s.channel) (receiving : s'.receiving = s.receiving)
    (sending : s'.sending = some item) (more : List (DeliveryTag × Message))
    (made : ∃ status : Option Status,
      [item] = more.map (fun d => .ok (consumedMessage uuid d)) ++ status.toList.map .error) :
    InOrder uuid out (sent ++ [item]) (got ++ more) s' := by
  have free := Stream.sending_of_idle idle
  have busy : s'.idle = false := by simp [Stream.idle, sending]
  refine ⟨fun open_ => ?_, fun shut => ?_, channel ▸ order.room, ?_⟩
  · rw [order.flows (receiving ▸ open_), channel, sending, free]
    simp
  · obtain ⟨empty, front⟩ := order.closed (receiving ▸ shut)
    exact ⟨channel.trans empty, front.trans (List.prefix_append _ _)⟩
  · obtain ⟨status, same, ended⟩ := order.deliveries
    cases status with
    | some status => exact absurd idle (by simp [ended rfl])
    | none =>
        obtain ⟨status, one⟩ := made
        refine ⟨status, ?_, fun _ => busy⟩
        rw [same, one]
        simp

/-- Nothing is started, taken or put into the channel. -/
theorem rests (order : InOrder uuid out sent got s) (channel : s'.channel = s.channel)
    (receiving : s'.receiving = s.receiving) (sending : s'.sending = s.sending)
    (stops : s.idle = false → s'.idle = false) : InOrder uuid out sent got s' where
  flows open_ := by rw [channel, sending, order.flows (receiving ▸ open_)]
  closed shut := by
    rw [channel]
    exact order.closed (receiving ▸ shut)
  room := channel ▸ order.room
  deliveries := by
    obtain ⟨status, same, ended⟩ := order.deliveries
    exact ⟨status, same, fun some => stops (ended some)⟩

theorem sends (order : InOrder uuid out sent got s) : InOrder uuid out sent got s.send := by
  cases sending : s.sending with
  | none =>
      have same : s.send = s := by rw [Stream.send, sending]
      rwa [same]
  | some item =>
      have unsent : s.idle = false := by simp [Stream.idle, sending]
      cases receiving : s.receiving with
      | false =>
          have dropped : s.send = { s with running := false, sending := none } := by
            rw [Stream.send, sending, receiving]
            rfl
          rw [dropped]
          refine ⟨fun open_ => ?_, order.closed, order.room, ?_⟩
          · exact absurd (receiving.symm.trans open_) (by decide)
          · obtain ⟨status, same, -⟩ := order.deliveries
            exact ⟨status, same, fun _ => rfl⟩
      | true =>
          by_cases room : s.channel.length < streamSize
          · have put : s.send = { s with
                running := item.toBool, sending := none, channel := s.channel ++ [item] } := by
              rw [Stream.send, sending, receiving]
              simp [room]
            rw [put]
            have flows := order.flows receiving
            rw [sending, Option.toList_some] at flows
            refine ⟨fun _ => ?_, fun shut => ?_, ?_, ?_⟩
            · rw [flows]
              simp
            · exact absurd (receiving.symm.trans shut) (by decide)
            · rw [List.length_append]
              exact room
            · obtain ⟨status, same, -⟩ := order.deliveries
              refine ⟨status, same, fun some => ?_⟩
              -- the status is the last item started, so it is the one that is sent now
              obtain ⟨status, rfl⟩ := Option.isSome_iff_exists.mp some
              rw [flows, Option.toList_some, List.map_singleton] at same
              obtain ⟨-, last⟩ := List.append_inj' same rfl
              cases last
              rfl
          · have waits : s.send = s := by
              rw [Stream.send, sending, receiving]
              simp [room]
            rwa [waits]

theorem takes (order : InOrder uuid out sent got s) :
    InOrder uuid (out ++ s.channel.head?.toList) sent got { s with channel := s.channel.tail } := by
  have parts : s.channel.head?.toList ++ s.channel.tail = s.channel := by cases s.channel <;> rfl
  refine ⟨fun open_ => ?_, fun shut => ?_, ?_, order.deliveries⟩
  · rw [order.flows open_]
    nth_rewrite 1 [← parts]
    simp
  · obtain ⟨empty, front⟩ := order.closed shut
    simp only [empty, List.tail_nil, List.head?_nil, Option.toList_none, List.append_nil]
    exact ⟨trivial, front⟩
  · have room := order.room
    rw [List.length_tail]
    omega

theorem closes (order : InOrder uuid out sent got s) :
    InOrder uuid out sent got { s with receiving := false, channel := [] } where
  flows open_ := by cases open_
  closed _ := by
    refine ⟨rfl, ?_⟩
    cases receiving : s.receiving with
    | true =>
        rw [order.flows receiving, List.append_assoc]
        exact List.prefix_append _ _
    | false => exact (order.closed receiving).2
  room := Nat.zero_le _
  deliveries := order.deliveries

end InOrder

section Runs

variable {bc : Bincode} {uuid : UuidText} {ids : Nat → UInt64} {engine : AppEngine}
  {out sent : List Item} {got : List (DeliveryTag × Message)} {s : Stream}

/-- A turn that starts, takes and consumes nothing. -/
theorem InOrder.idles {s' : Stream} (order : InOrder uuid out sent got s') {t : StreamTurn}
    (untaken : t.took = none) (unsent : t.produced = none)
    (unconsumed : t.consumed bc ids engine = none) :
    InOrder uuid (out ++ t.took.toList) (sent ++ t.produced.toList)
      (got ++ (t.consumed bc ids engine).toList) s' := by
  rw [untaken, unsent, unconsumed]
  simpa using order

theorem InOrder.next_tick (order : InOrder uuid out sent got s) (w : World) :
    InOrder uuid (out ++ (streamTaken bc uuid ids engine s .tick w).took.toList)
      (sent ++ (streamTaken bc uuid ids engine s .tick w).produced.toList)
      (got ++ ((streamTaken bc uuid ids engine s .tick w).consumed bc ids engine).toList)
      (streamTurn bc uuid ids engine s .tick w).1 := by
  cases named : s.queue with
  | none =>
      have same : streamTurn bc uuid ids engine s .tick w = (s, w) := streamTurn_unnamed named
      rw [same]
      refine order.idles rfl (StreamTurn.produced_of_same ?_) ?_
      · exact congrArg (·.1.sending) same
      · simp only [StreamTurn.consumed, streamTaken, named]
  | some q =>
      by_cases idle : s.idle = true
      · have turned : streamTurn bc uuid ids engine s .tick w = _ := streamTurn_tick idle named
        have free := Stream.sending_of_idle idle
        simp only [StreamTurn.took, StreamTurn.produced, StreamTurn.consumed, streamTaken, named,
          idle, turned, free, Option.isNone_none, if_true, Option.toList_none, List.append_nil]
        cases ((consumeOne bc engine q).run (Daemon.handle ids) w).1 with
        | ok delivery =>
            cases delivery with
            | some delivery =>
                exact order.starts idle (paused uuid s (.ok (some delivery))) rfl rfl rfl [delivery]
                  ⟨none, rfl⟩
            | none => simpa [paused, free] using order
        | err e => exact e.elim
        | panicked | diverged =>
            simp only [paused, free, Option.toList_none, List.append_nil]
            exact order.rests rfl rfl free.symm fun _ => rfl
      · have busy := Bool.eq_false_iff.mpr idle
        have same : streamTurn bc uuid ids engine s .tick w = (s, w) := streamTurn_busy busy (.inl rfl)
        rw [same]
        refine order.idles rfl (StreamTurn.produced_of_same ?_) ?_
        · exact congrArg (·.1.sending) same
        · simp only [StreamTurn.consumed, streamTaken, named, busy, Bool.false_eq_true, if_false]

theorem InOrder.next_inbound (order : InOrder uuid out sent got s)
    (message : Option (Except String ConsumeStreamAck)) (w : World) :
    InOrder uuid (out ++ (streamTaken bc uuid ids engine s (.inbound message) w).took.toList)
      (sent ++ (streamTaken bc uuid ids engine s (.inbound message) w).produced.toList)
      (got ++
        ((streamTaken bc uuid ids engine s (.inbound message) w).consumed bc ids engine).toList)
      (streamTurn bc uuid ids engine s (.inbound message) w).1 := by
  by_cases idle : s.idle = true
  · have heard : Heard s (streamTurn bc uuid ids engine s (.inbound message) w).1 :=
      streamTurn_inbound idle message w
    have free := Stream.sending_of_idle idle
    rcases heard.sending with none | ⟨status, ends⟩
    · have same := none.trans free.symm
      refine InOrder.idles ?_ rfl (StreamTurn.produced_of_same same) rfl
      refine order.rests heard.channel heard.receiving same fun busy => ?_
      rw [idle] at busy
      cases busy
    · have started : (streamTaken bc uuid ids engine s (.inbound message) w).produced =
          some (.error status) := by
        simp only [StreamTurn.produced, streamTaken, free, Option.isNone_none, if_true, ends]
      rw [started]
      have ended := order.starts idle _ heard.channel heard.receiving ends [] ⟨some status, rfl⟩
      simpa [StreamTurn.took, StreamTurn.consumed, streamTaken] using ended
  · have busy := Bool.eq_false_iff.mpr idle
    have same : streamTurn bc uuid ids engine s (.inbound message) w = (s, w) :=
      streamTurn_busy busy (.inr ⟨message, rfl⟩)
    rw [same]
    exact order.idles rfl (StreamTurn.produced_of_same (congrArg (·.1.sending) same)) rfl

/-- One turn keeps the order. -/
theorem InOrder.next (order : InOrder uuid out sent got s) (a : StreamAct) (w : World) :
    InOrder uuid (out ++ (streamTaken bc uuid ids engine s a w).took.toList)
      (sent ++ (streamTaken bc uuid ids engine s a w).produced.toList)
      (got ++ ((streamTaken bc uuid ids engine s a w).consumed bc ids engine).toList)
      (streamTurn bc uuid ids engine s a w).1 := by
  cases a with
  | inbound message => exact order.next_inbound message w
  | tick => exact order.next_tick w
  | send =>
      refine order.sends.idles rfl ?_ rfl
      change (if s.sending.isNone then s.send.sending else none) = none
      cases sending : s.sending with
      | none => simp [Stream.send, sending]
      | some item => rfl
  | take =>
      have unsent : (streamTaken bc uuid ids engine s .take w).produced = none :=
        StreamTurn.produced_of_same rfl
      have unconsumed : (streamTaken bc uuid ids engine s .take w).consumed bc ids engine = none := rfl
      rw [unsent, unconsumed, Option.toList_none, Option.toList_none, List.append_nil, List.append_nil]
      exact order.takes
  | close => exact order.closes.idles rfl (StreamTurn.produced_of_same rfl) rfl

variable (bc uuid ids engine)

theorem inOrder_run (run : List (StreamAct × World)) :
    InOrder uuid ((streamTurns bc uuid ids engine .new run).filterMap StreamTurn.took)
      ((streamTurns bc uuid ids engine .new run).filterMap StreamTurn.produced)
      ((streamTurns bc uuid ids engine .new run).filterMap (·.consumed bc ids engine))
      (streamEnd bc uuid ids engine .new run) := by
  induction run using List.reverseRecOn with
  | nil => exact .start uuid
  | append_singleton run step ih =>
      obtain ⟨a, w⟩ := step
      rw [streamTurns_snoc, streamEnd_snoc]
      simp only [filterMap_last]
      exact ih.next a w

/-- A task that is not idle leaves the manager alone, and so does whatever is no turn of the task. -/
theorem streamTurn_manager {s : Stream} (busy : s.idle = false) (a : StreamAct) (w : World) :
    (streamTurn bc uuid ids engine s a w).2 = w := by
  cases a with
  | inbound message => rw [streamTurn_busy busy (.inr ⟨message, rfl⟩)]
  | tick => rw [streamTurn_busy busy (.inl rfl)]
  | send | take | close => rfl

/-- The turns of a run are taken one after the other. -/
theorem streamTurns_split {run : List (StreamAct × World)} {s : Stream} {past later : List StreamTurn}
    {t : StreamTurn} (split : streamTurns bc uuid ids engine s run = past ++ t :: later) :
    ∃ earlier, past = streamTurns bc uuid ids engine s earlier ∧
      t = streamTaken bc uuid ids engine (streamEnd bc uuid ids engine s earlier) t.act t.world := by
  induction past generalizing s run with
  | nil =>
      cases run with
      | nil => cases split
      | cons step run =>
          cases split
          exact ⟨[], rfl, rfl⟩
  | cons u past ih =>
      cases run with
      | nil => cases split
      | cons step run =>
          obtain ⟨rfl, rest⟩ := List.cons.inj split
          obtain ⟨earlier, rfl, made⟩ := ih rest
          exact ⟨step :: earlier, rfl, made⟩

/-- What a stream starts to send is what its consumes returned, in that order, and at most one
    status at the end, after which it leaves the daemon alone.  The client takes it in that order;
    as long as it receives, what it has not taken is in the channel or waits to be sent, and no
    more than the channel's size and one. -/
theorem stream_in_order (run : List (StreamAct × World)) :
    (∃ status : Option Status,
      (streamTurns bc uuid ids engine .new run).filterMap StreamTurn.produced =
        ((streamTurns bc uuid ids engine .new run).filterMap (·.consumed bc ids engine)).map
          (fun d => .ok (consumedMessage uuid d)) ++ status.toList.map .error) ∧
    ((streamTurns bc uuid ids engine .new run).filterMap StreamTurn.took <+:
      (streamTurns bc uuid ids engine .new run).filterMap StreamTurn.produced) ∧
    ((streamEnd bc uuid ids engine .new run).receiving = true →
      (streamTurns bc uuid ids engine .new run).filterMap StreamTurn.produced =
        (streamTurns bc uuid ids engine .new run).filterMap StreamTurn.took ++
          (streamEnd bc uuid ids engine .new run).channel ++
          (streamEnd bc uuid ids engine .new run).sending.toList) ∧
    (streamEnd bc uuid ids engine .new run).channel.length ≤ streamSize ∧
    ∀ past t later, streamTurns bc uuid ids engine .new run = past ++ t :: later →
      (∃ status, .error status ∈ past.filterMap StreamTurn.produced) → t.left = t.world := by
  have order := inOrder_run bc uuid ids engine run
  obtain ⟨status, made, -⟩ := order.deliveries
  refine ⟨⟨status, made⟩, ?_, order.flows, order.room, ?_⟩
  · cases receiving : (streamEnd bc uuid ids engine .new run).receiving with
    | true =>
        rw [order.flows receiving, List.append_assoc]
        exact List.prefix_append _ _
    | false => exact (order.closed receiving).2
  · rintro past t later split ⟨ended, member⟩
    obtain ⟨earlier, rfl, taken⟩ := streamTurns_split bc uuid ids engine split
    obtain ⟨status, made, busy⟩ := (inOrder_run bc uuid ids engine earlier).deliveries
    have some : status.isSome := by
      rw [made] at member
      cases status with
      | some status => rfl
      | none => simp at member
    rw [taken]
    exact streamTurn_manager bc uuid ids engine (busy some) _ _

end Runs

end PelicanQ.Grpc
