import PelicanQ.Guarantees.Custody
import PelicanQ.Guarantees.Sessions

/-! # The books of a daemon

What the connections and streams of a daemon hold together, and what every happening
does to it: what its consumers take, what they settle, what they hand to their clients
and what they strand.  The books balance, and they agree with what the manager
returned and settled meanwhile.
-/

namespace PelicanQ

open Holdings

/-! ## Events -/

/-- Everything the events returned. -/
def issued (past : List Event) : Multiset (String × DeliveryTag) := (past.map Event.got).sum

theorem issued_append (past more : List Event) : issued (past ++ more) = issued past + issued more := by
  rw [issued, List.map_append, List.sum_append]
  rfl

theorem mem_issued {past : List Event} {q : String} {tag : DeliveryTag} :
    (q, tag) ∈ issued past ↔ ∃ e ∈ past, ∃ m, e.Returned q tag m := by
  rw [issued, mem_sum]
  constructor
  · rintro ⟨_, inside, member⟩
    obtain ⟨e, made, rfl⟩ := List.mem_map.mp inside
    exact ⟨e, made, Event.mem_got.mp member⟩
  · rintro ⟨e, made, returned⟩
    exact ⟨_, List.mem_map_of_mem made, Event.mem_got.mpr returned⟩

theorem Event.got_nodup (e : Event) : e.got.Nodup := by
  unfold Event.got
  split
  · exact Multiset.nodup_singleton _
  · exact Multiset.nodup_zero

/-- Where tags are not returned twice, everything is issued once. -/
theorem issued_nodup {past : List Event}
    (distinct : past.Pairwise fun e e' => ∀ q q' tag m m', e.Returned q tag m → ¬ e'.Returned q' tag m') :
    (issued past).Nodup := by
  induction distinct with
  | nil => exact Multiset.nodup_zero
  | @cons e past first _ ih =>
      refine Multiset.nodup_add.mpr ⟨e.got_nodup, ih, Multiset.disjoint_left.mpr ?_⟩
      rintro ⟨q, tag⟩ here later
      obtain ⟨m, returned⟩ := Event.mem_got.mp here
      obtain ⟨e', member, m', again⟩ := mem_issued.mp later
      exact first e' member q q tag m m' returned again

section Outstanding

variable {past more : List Event} {q : String} {tag : DeliveryTag}
  (quiet : ∀ e ∈ more, ¬ e.Settles q tag ∧ ¬ e.Reopens)
include quiet

theorem Outstanding.append {m : Message} (outstanding : Outstanding past q tag m) :
    Outstanding (past ++ more) q tag m := since_append.mpr (.inr ⟨outstanding, quiet⟩)

theorem outstanding_issued (new : (q, tag) ∈ issued more) :
    ∃ m, Outstanding (past ++ more) q tag m := by
  obtain ⟨e, member, m, returned⟩ := mem_issued.mp new
  obtain ⟨before, after, rfl⟩ := List.append_of_mem member
  refine ⟨m, past ++ before, e, after, by simp, returned, fun e' member => ?_⟩
  exact quiet e' (List.mem_append_right _ (List.mem_cons_of_mem _ member))

end Outstanding

theorem Outstanding.issued {past : List Event} {q : String} {tag : DeliveryTag} {m : Message}
    (outstanding : Outstanding past q tag m) : (q, tag) ∈ issued past := by
  obtain ⟨earlier, e, later, rfl, returned, -⟩ := outstanding
  exact mem_issued.mpr ⟨e, List.mem_append_right _ List.mem_cons_self, m, returned⟩

/-- What was returned before is only outstanding after more events if it was before and none of them
    settled it. -/
theorem Outstanding.earlier {past more : List Event} {q : String} {tag : DeliveryTag} {m : Message}
    (outstanding : Outstanding (past ++ more) q tag m) (old : (q, tag) ∉ PelicanQ.issued more) :
    Outstanding past q tag m ∧ ∀ e ∈ more, ¬ e.Settles q tag ∧ ¬ e.Reopens :=
  (since_append.mp outstanding).resolve_left fun again => old (Outstanding.issued again)

/-! ## The daemon -/

theorem Operation.Live.served {names : List String} {op : Operation}
    (live : op.Live names) : op.Served names := by
  cases op with
  | declareQueueWithRetention => exact live
  | promoteScheduled | applyRetention | reopen => exact live.elim
  | publish | consume | ack | nack => trivial

/-- An operation that settles only what is named. -/
def Operation.Settling (names : List String) (Named : String × DeliveryTag → Prop) (op : Operation) :
    Prop :=
  op.Live names ∧ ∀ q tag, op = .ack q tag ∨ op = .nack q tag → Named (q, tag)

namespace Daemon

/-- What the connections and streams of a daemon hold. -/
def System.held (S : System) : Multiset (String × DeliveryTag) :=
  (S.sessions.map Mqtt.heldBy).sum + (S.streams.map Grpc.Stream.held).sum

def Request.Names (x : String × DeliveryTag) : Request → Prop
  | .http (.ack q tag) | .http (.nack q tag) | .grpc (.ack q tag) | .grpc (.nack q tag) => x = (q, tag)
  | _ => False

/-- A client names a delivery to settle it, here or through the log. -/
def Happening.Names (x : String × DeliveryTag) : Happening → Prop
  | .request r => r.Names x
  | .entry (.ack q tag) | .entry (.nack q tag) => x = (q, tag)
  | .stream _ act => act.Names x
  | _ => False

theorem Request.within_settling {names : List String} (r : Request)
    (inside : ∀ name ∈ r.declares, name ∈ names) :
    r.Within (Operation.Settling names fun x => r.Names x) := by
  cases r with
  | http request =>
      cases request with
      | declareQueue name => exact ⟨inside name List.mem_cons_self, by simp⟩
      | publish => exact fun _ _ => ⟨trivial, by simp⟩
      | consume => exact ⟨trivial, by simp⟩
      | ack | nack => exact ⟨trivial, by simp [Names]⟩
  | grpc request =>
      cases request with
      | declareQueue req => exact ⟨inside req.name List.mem_cons_self, by simp⟩
      | publish | publishBatch => exact fun _ _ => ⟨trivial, by simp⟩
      | consume | consumeBatch => exact ⟨trivial, by simp⟩
      | ack | nack => exact ⟨trivial, by simp [Names]⟩

theorem within_settling {names : List String} {op : QueueOperation} (made : proposed op = true)
    (inside : ∀ name ∈ op.declares, name ∈ names) :
    op.Within (Operation.Settling names fun x => (Happening.entry op).Names x) := by
  cases op with
  | declareQueue name policy => exact ⟨inside name List.mem_cons_self, by simp⟩
  | publishBatch => exact fun _ _ => ⟨trivial, by simp⟩
  | publish | consume | consumeBatch => exact ⟨trivial, by simp⟩
  | ack | nack => exact ⟨trivial, by simp [Happening.Names]⟩
  | applyRetention | promoteScheduled => cases made

section Books

variable (bc : Bincode) (ids : Nat → UInt64) (engine : AppEngine) (S : System) (around : Surroundings)

/-- What the pollers, the strays and the streams consume in a happening. -/
def System.consumes : Happening → Multiset (String × DeliveryTag)
  | .session k act =>
      match S.sessions[k]? with
      | some (some s) => s.consumes bc ids engine (S.world around) act
      | _ => 0
  | .stray j _ =>
      match S.strayTakes bc ids engine around j with
      | some (_, d) => {d.delivery}
      | none => 0
  | .stream k act =>
      match S.streams[k]? with
      | some s => s.consumes bc ids engine (S.world around) act
      | none => 0
  | _ => 0

/-- What a connection settles in a happening. -/
def System.acks : Happening → Multiset (String × DeliveryTag)
  | .session k act =>
      match S.sessions[k]? with
      | some (some s) => s.acks bc ids engine (S.world around) act
      | _ => 0
  | _ => 0

/-- What the client of a stream takes in a happening. -/
def System.hands : Happening → Multiset (String × DeliveryTag)
  | .stream k act =>
      match S.streams[k]? with
      | some s => s.hands act
      | none => 0
  | _ => 0

/-- A connection is open and its channel has room. -/
def System.fits (k : Nat) : Bool :=
  match S.sessions[k]? with
  | some (some s) => s.connection.channel.length < Mqtt.channelSize
  | _ => false

/-- What is stranded in a happening.  What a stray consumed is, unless it finds room in the channel
    of a connection that is still open. -/
def System.strands : Happening → Multiset (String × DeliveryTag)
  | .session k act =>
      match S.sessions[k]? with
      | some (some s) => s.strands bc ids engine (S.world around) act
      | _ => 0
  | .stray j room =>
      match S.strayTakes bc ids engine around j with
      | some (k, d) => if room && S.fits k then 0 else {d.delivery}
      | none => 0
  | .stream k act =>
      match S.streams[k]? with
      | some s => s.strands act
      | none => 0
  | _ => 0

end Books

section Steps

variable {bc : Bincode} {ids : Nat → UInt64} {engine : AppEngine} {names : List String}
  {S S' : System} {around : Surroundings} {happening : Happening}

variable (bc ids engine names) in
/-- The books of a happening balance, and agree with what the manager returned and settled.  Requests
    may have consumed more, and clients have settled more by naming it. -/
structure Hands (S : System) (around : Surroundings) (happening : Happening) (S' : System) : Prop where
  tallies : ∃ got gone, Tallies bc ids names S.manager S'.manager got gone ∧
    S.consumes bc ids engine around happening ≤ got ∧ S.acks bc ids engine around happening ≤ gone ∧
    ∀ x ∈ gone, x ∈ S.acks bc ids engine around happening ∨ happening.Names x
  balances : Balances S.held (S.consumes bc ids engine around happening) S'.held
    (S.acks bc ids engine around happening + S.hands happening)
    (S.strands bc ids engine around happening)

/-- A happening that is about no connection and no stream. -/
def Happening.Aside (S : System) : Happening → Prop
  | .session k _ => ∀ s, S.sessions[k]? ≠ some (some s)
  | .stray j _ => S.strays[j]? = none
  | .stream k _ => S.streams[k]? = none
  | _ => True

variable (bc ids engine around) in
theorem Happening.Aside.books (aside : happening.Aside S) :
    S.consumes bc ids engine around happening = 0 ∧ S.acks bc ids engine around happening = 0 ∧
      S.hands happening = 0 ∧ S.strands bc ids engine around happening = 0 := by
  cases happening with
  | request | entry | connect | openStream | restart => exact ⟨rfl, rfl, rfl, rfl⟩
  | session k act =>
      cases there : S.sessions[k]? with
      | none => simp only [System.consumes, System.acks, System.hands, System.strands, there, and_self]
      | some session =>
          cases session with
          | none => simp only [System.consumes, System.acks, System.hands, System.strands, there, and_self]
          | some s => exact absurd there (aside s)
  | stray j room =>
      have nothing : S.strayTakes bc ids engine around j = none := by
        rw [System.strayTakes, show S.strays[j]? = none from aside]
        rfl
      simp only [System.consumes, System.acks, System.hands, System.strands, nothing, and_self]
  | stream k act =>
      have closed : S.streams[k]? = none := aside
      simp only [System.consumes, System.acks, System.hands, System.strands, closed, and_self]

/-- A happening that settles only what it names and leaves the holders alone. -/
theorem Hands.aside (aside : happening.Aside S)
    (reached : Reaches bc ids (fun step => step.op.Settling names fun x => happening.Names x)
      S.manager S'.manager) (held : S'.held = S.held) :
    Hands bc ids engine names S around happening S' := by
  obtain ⟨consumes, acks, hands, strands⟩ := aside.books bc ids engine around
  obtain ⟨got, gone, tallies, -, settles⟩ := reached.tallies fun _ settling => settling.1
  constructor
  · rw [consumes, acks]
    refine ⟨got, gone, tallies, Multiset.zero_le _, Multiset.zero_le _, fun x member => .inr ?_⟩
    rcases settles x member with acked | nacked
    · exact acked.2 _ _ (.inl rfl)
    · exact nacked.2 _ _ (.inr rfl)
  · rw [consumes, acks, hands, strands]
    exact .of_eq held

theorem Hands.of_same (aside : happening.Aside S) (manager : S'.manager = S.manager)
    (held : S'.held = S.held) : Hands bc ids engine names S around happening S' := by
  refine .aside aside ?_ held
  rw [manager]
  exact .refl _

variable (uuid : UuidText) (formats : Http.Formats) (engine) (around)

theorem handshake_held (first : Option Packet) (w : World) :
    Mqtt.heldBy (sessionAfter .new .proceed ((Mqtt.handshake first).run (handle ids) w).1) = 0 := by
  cases left : sessionAfter .new .proceed ((Mqtt.handshake first).run (handle ids) w).1 with
  | none => rfl
  | some s =>
      rw [handshake_new first w left]
      change _ + _ + table (fun _ => none) = _
      rw [table_empty]
      rfl

theorem sessionActs_hands (declaring : S.Declaring names) (k : Nat) {act : Mqtt.Act}
    (inside : ∀ name ∈ actDeclares act, name ∈ names) :
    Hands bc ids engine names S around (.session k act) (S.sessionActs bc ids engine around k act) := by
  by_cases present : ∃ s, S.sessions[k]? = some (some s)
  · obtain ⟨s, there⟩ := present
    have tallies : Tallies bc ids names S.manager
        (Mqtt.turn bc ids engine s act (S.world around)).2.manager _ _ :=
      Mqtt.turn_tallies s act (S.world around) inside (declaring s (List.mem_of_getElem? there))
    have own : Balances (Mqtt.heldBy (some s)) (s.consumes bc ids engine (S.world around) act)
        (Mqtt.heldBy (Mqtt.turn bc ids engine s act (S.world around)).1) _ _ :=
      Mqtt.turn_balances s act (S.world around)
    have turned : S.sessionActs bc ids engine around k act =
        { S.leave (Mqtt.turn bc ids engine s act (S.world around)).2 with
          sessions := S.sessions.set k (Mqtt.turn bc ids engine s act (S.world around)).1
          strays := S.strays ++
            (aborted s (Mqtt.turn bc ids engine s act (S.world around)).1).map (⟨k, ·⟩) } := by
      rw [System.sessionActs, there]
      rfl
    rw [turned]
    constructor
    · simp only [System.consumes, System.acks, there]
      exact ⟨_, _, tallies, le_refl _, le_refl _, fun x member => .inl member⟩
    · simp only [System.consumes, System.acks, System.hands, System.strands, there, add_zero]
      have others := (own.set there).beside (S.streams.map Grpc.Stream.held).sum
      rw [add_comm, add_comm _ ((S.sessions.set k _).map Mqtt.heldBy).sum] at others
      exact others
  · have closed : ∀ s, S.sessions[k]? ≠ some (some s) := fun s there => present ⟨s, there⟩
    have still : S.sessionActs bc ids engine around k act = S := by
      unfold System.sessionActs
      split
      · rename_i s there
        exact absurd there (closed s)
      · rfl
    rw [still]
    exact .of_same closed rfl rfl

theorem System.fits_of {k : Nat} {s : Mqtt.Session} (present : S.sessions[k]? = some (some s)) :
    S.fits k = decide (s.connection.channel.length < Mqtt.channelSize) := by
  rw [System.fits, present]

/-- What is put into a channel is held there, if there is room. -/
theorem push_held (S : System) (k : Nat) (d : Mqtt.Incoming) :
    (S.push k d).held = S.held + if S.fits k then {d.delivery} else 0 := by
  by_cases present : ∃ s, S.sessions[k]? = some (some s)
  · obtain ⟨s, present⟩ := present
    rw [System.fits_of present, System.push, present]
    by_cases room : s.connection.channel.length < Mqtt.channelSize
    · have pushed : Balances (Mqtt.heldBy (some s)) {d.delivery} (Mqtt.heldBy (some
          { s with connection := { s.connection with channel := s.connection.channel ++ [d] } })) 0 0 := by
        rw [Balances, add_zero, add_zero]
        exact (Mqtt.held_push s.connection d).symm
      have others := (pushed.set present).beside (S.streams.map Grpc.Stream.held).sum
      rw [Balances, add_zero, add_zero] at others
      simp only [room, if_true, decide_true]
      rw [System.held, System.held, add_comm, ← others]
      ac_rfl
    · simp only [room, if_false, decide_false, Bool.false_eq_true, add_zero]
  · have closed (s) : S.sessions[k]? ≠ some (some s) := fun there => present ⟨s, there⟩
    have shut : S.fits k = false := by
      unfold System.fits
      split
      · rename_i s there
        exact absurd there (closed s)
      · rfl
    have still : S.push k d = S := by
      unfold System.push
      split
      · rename_i s there
        exact absurd there (closed s)
      · rfl
    rw [still, shut]
    exact (add_zero _).symm

/-- A stray that gets a delivery: it is put into the channel or is held by nobody. -/
theorem stray_hands {j k : Nat} {d : Mqtt.Incoming}
    (takes : S.strayTakes bc ids engine around j = some (k, d)) (room : Bool)
    (held : S'.held = S.held) (sessions : S'.sessions = S.sessions)
    (tallies : Tallies bc ids names S.manager S'.manager {d.delivery} 0) :
    Hands bc ids engine names S around (.stray j room) (if room then S'.push k d else S') := by
  have consumes : S.consumes bc ids engine around (.stray j room) = {d.delivery} := by
    simp only [System.consumes, takes]
  have strands : S.strands bc ids engine around (.stray j room) =
      if room && S.fits k then 0 else {d.delivery} := by
    simp only [System.strands, takes]
  have fits : S'.fits k = S.fits k := by rw [System.fits, System.fits, sessions]
  constructor
  · rw [consumes]
    refine ⟨{d.delivery}, 0, ?_, le_refl _, le_refl _, fun _ member => .inl member⟩
    cases room with
    | false => exact tallies
    | true =>
        change Tallies bc ids names S.manager (S'.push k d).manager _ _
        rw [System.push_manager]
        exact tallies
  · change Balances _ _ _ (0 + 0) _
    rw [Balances, consumes, strands, add_zero, add_zero]
    cases room with
    | false => exact congrArg (· + _) held.symm
    | true =>
        change _ = (S'.push k d).held + _
        rw [push_held, fits, held, Bool.true_and]
        cases S.fits k with
        | false => exact (congrArg (· + _) (add_zero _)).symm
        | true => exact (add_zero _).symm

/-- One that gets nothing. -/
theorem stray_idle {j : Nat} (takes : S.strayTakes bc ids engine around j = none) (room : Bool)
    (held : S'.held = S.held) (tallies : Tallies bc ids names S.manager S'.manager 0 0) :
    Hands bc ids engine names S around (.stray j room) S' := by
  constructor
  · simp only [System.consumes, takes]
    exact ⟨0, 0, tallies, le_refl _, le_refl _, fun _ member => .inl member⟩
  · simp only [System.consumes, System.acks, System.hands, System.strands, takes, add_zero]
    exact .of_eq held

theorem strayConsumes_hands (j : Nat) (room : Bool) :
    Hands bc ids engine names S around (.stray j room)
      (S.strayConsumes bc ids engine around j room) := by
  cases there : S.strays[j]? with
  | none =>
      have still : S.strayConsumes bc ids engine around j room = S := by
        rw [System.strayConsumes, there]
      rw [still]
      exact .of_same there rfl rfl
  | some stray =>
      have tallies : Tallies bc ids names S.manager ((Mqtt.consumeOne bc engine stray.queue).run
          (handle ids) (S.world around)).2.manager _ 0 :=
        Mqtt.consumeOne_tallies (S.world around) stray.queue
      rw [System.strayConsumes, there]
      dsimp only
      cases ran : ((Mqtt.consumeOne bc engine stray.queue).run (handle ids) (S.world around)).1 with
      | ok delivery =>
          rw [ran] at tallies
          cases delivery with
          | some delivery =>
              obtain ⟨tag, msg⟩ := delivery
              refine stray_hands (d := ⟨stray.queue, tag, msg.payload⟩) engine around ?_ room rfl rfl tallies
              simp only [System.strayTakes, there, Option.bind_some, ran]
          | none =>
              refine stray_idle engine around ?_ room rfl tallies
              simp only [System.strayTakes, there, Option.bind_some, ran]
      | err e => exact e.elim
      | panicked | diverged =>
          rw [ran] at tallies
          refine stray_idle engine around ?_ room rfl tallies
          simp only [System.strayTakes, there, Option.bind_some, ran]

theorem streamActs_hands (named : ∀ s ∈ S.streams, s.Named) (k : Nat) (act : Grpc.StreamAct) :
    Hands bc ids engine names S around (.stream k act)
      (S.streamActs bc uuid ids engine around k act) := by
  cases there : S.streams[k]? with
  | none =>
      have still : S.streamActs bc uuid ids engine around k act = S := by
        rw [System.streamActs, there]
      rw [still]
      exact .of_same there rfl rfl
  | some s =>
      obtain ⟨gone, tallies, settles⟩ : ∃ gone, Tallies bc ids names S.manager
          (Grpc.streamTurn bc uuid ids engine s act (S.world around)).2.manager _ gone ∧ _ :=
        Grpc.streamTurn_tallies s act (S.world around)
      have own : Balances s.held (s.consumes bc ids engine (S.world around) act)
          (Grpc.streamTurn bc uuid ids engine s act (S.world around)).1.held _ _ :=
        Grpc.streamTurn_balances (named s (List.mem_of_getElem? there)) act (S.world around)
      have turned : S.streamActs bc uuid ids engine around k act =
          { S.leave (Grpc.streamTurn bc uuid ids engine s act (S.world around)).2 with
            streams := S.streams.set k
              (Grpc.streamTurn bc uuid ids engine s act (S.world around)).1 } := by
        rw [System.streamActs, there]
        rfl
      rw [turned]
      constructor
      · simp only [System.consumes, there]
        exact ⟨_, gone, tallies, le_refl _, Multiset.zero_le _, fun x member => .inr (settles x member)⟩
      · simp only [System.consumes, System.acks, System.hands, System.strands, there, zero_add]
        exact (own.set there).beside (S.sessions.map Mqtt.heldBy).sum

theorem streamActs_named (named : ∀ s ∈ S.streams, s.Named) (k : Nat) (act : Grpc.StreamAct) :
    ∀ s ∈ (S.streamActs bc uuid ids engine around k act).streams, s.Named := by
  unfold System.streamActs
  split
  · rename_i s present
    intro s' member
    rcases List.mem_or_eq_of_mem_set member with old | new
    · exact named s' old
    · exact new ▸ Grpc.streamTurn_named (named s (List.mem_of_getElem? present)) act (S.world around)
  · exact named

/-! ## Every happening -/

/-- What a run keeps besides: who may still declare what, and no delivery without a queue. -/
structure System.Keeping (names : List String) (S : System) : Prop where
  declaring : S.Declaring names
  named : ∀ s ∈ S.streams, s.Named

theorem System.step_hands (keeping : S.Keeping names) (happening : Happening)
    (inside : ∀ name ∈ happening.declares, name ∈ names)
    (lives : ∀ maxBytes, happening ≠ .restart maxBytes) :
    Hands bc ids engine names S around happening
      (S.step bc uuid formats ids engine around happening) := by
  cases happening with
  | request r =>
      exact .aside trivial ((serve_works uuid formats engine r (r.within_settling inside)
        (S.world around)).2.mono fun _ allowed => allowed.1) rfl
  | entry op =>
      change Hands bc ids engine names S around (.entry op) (S.applies bc ids engine around op)
      unfold System.applies
      split
      · rename_i made
        have served : Serves bc ids (Operation.Settling names fun x => Happening.Names x (.entry op))
            (core (applyOperation bc around.memory op) : Task Empty _) :=
          .core (makes_applyOperation around.memory (within_settling made inside))
        exact .aside trivial (served.reaches (S.world around)) rfl
      · exact .of_same trivial rfl rfl
  | connect first =>
      refine .of_same trivial rfl ?_
      change ((S.sessions ++ [_]).map Mqtt.heldBy).sum + _ = _
      rw [List.map_append, List.sum_append, List.map_singleton, List.sum_singleton, handshake_held,
        add_zero]
      rfl
  | session k act => exact sessionActs_hands engine around keeping.declaring k inside
  | stray j room => exact strayConsumes_hands engine around j room
  | openStream =>
      refine .of_same trivial rfl ?_
      change _ + ((S.streams ++ [_]).map Grpc.Stream.held).sum = _
      rw [List.map_append, List.sum_append, List.map_singleton, List.sum_singleton]
      exact congrArg _ (add_zero _)
  | stream k act => exact streamActs_hands engine around uuid keeping.named k act
  | restart maxBytes => exact absurd rfl (lives maxBytes)

theorem System.step_keeping (keeping : S.Keeping names) (happening : Happening)
    (inside : ∀ name ∈ happening.declares, name ∈ names) :
    (S.step bc uuid formats ids engine around happening).Keeping names where
  declaring := System.step_declaring uuid formats engine around keeping.declaring happening inside
  named := by
    cases happening with
    | request | connect => exact keeping.named
    | entry op =>
        change ∀ s ∈ (S.applies bc ids engine around op).streams, s.Named
        unfold System.applies
        split <;> exact keeping.named
    | session k act =>
        change ∀ s ∈ (S.sessionActs bc ids engine around k act).streams, s.Named
        unfold System.sessionActs
        split <;> exact keeping.named
    | stray j room =>
        change ∀ s ∈ (S.strayConsumes bc ids engine around j room).streams, s.Named
        unfold System.strayConsumes
        split
        · dsimp only
          split
          · split_ifs
            · rw [System.push_streams]
              exact keeping.named
            · exact keeping.named
          · exact keeping.named
        · exact keeping.named
    | openStream =>
        intro s member
        rcases List.mem_append.mp member with old | new
        · exact keeping.named s old
        · rw [List.mem_singleton.mp new]
          exact fun _ _ member => absurd member List.not_mem_nil
    | stream k act =>
        exact streamActs_named engine around uuid keeping.named k act
    | restart => exact fun _ member => absurd member List.not_mem_nil

variable (bc ids) in
/-- The books of a happening against its events. -/
structure Booked (S : System) (around : Surroundings) (happening : Happening) (S' : System)
    (more : List Event) : Prop where
  lives : ∀ e ∈ more, ¬ e.Reopens
  consumed : S.consumes bc ids engine around happening ≤ issued more
  acked : ∀ q tag, (q, tag) ∈ S.acks bc ids engine around happening → ∃ e ∈ more, e.Settles q tag
  settles : ∀ e ∈ more, ∀ q tag, e.Settles q tag →
    (q, tag) ∈ S.acks bc ids engine around happening ∨ happening.Names (q, tag)
  balances : Balances S.held (S.consumes bc ids engine around happening) S'.held
    (S.acks bc ids engine around happening + S.hands happening)
    (S.strands bc ids engine around happening)

theorem Hands.booked (hands : Hands bc ids engine names S around happening S') :
    ∃ steps : List Step, (∀ step ∈ steps, step.op.Served names) ∧
      S'.manager = PelicanQ.final bc ids S.manager steps ∧
      Booked bc ids engine S around happening S' (events bc ids S.manager steps) := by
  obtain ⟨⟨_, _, ⟨steps, live, reached, rfl, rfl⟩, consumes, acks, settles⟩, balances⟩ := hands
  refine ⟨steps, fun step member => (live step member).served, reached, ?_, consumes, ?_, ?_, balances⟩
  · rintro e member ⟨maxBytes, reopens⟩
    have allowed := live e.step (mem_events member)
    rw [reopens] at allowed
    exact allowed
  · intro q tag member
    obtain ⟨_, inside, gone⟩ := mem_sum.mp (Multiset.mem_of_le acks member)
    obtain ⟨e, made, rfl⟩ := List.mem_map.mp inside
    exact ⟨e, made, Event.mem_gone.mp gone⟩
  · intro e member q tag settled
    exact settles _ (mem_sum.mpr ⟨_, List.mem_map_of_mem member, Event.mem_gone.mpr settled⟩)

end Steps

end Daemon

end PelicanQ
