import PelicanQ.Guarantees.Streams
import PelicanQ.Guarantees.Subscriptions

/-! # Connections and streams of a daemon

Whatever happens in a daemon, each of its open connections is one that its own acts
lead to, and so is each of its streams: what the others and the requests do shows only
in the manager, and what strays do only in the channel.  So what holds of every
connection and of every stream by itself holds of those of a daemon.
-/

namespace PelicanQ

namespace Mqtt

variable (bc : Bincode) (ids : Nat → UInt64) (engine : AppEngine)

/-- The session a run of a connection leaves. -/
def endOf (start : Option Session) : List Next → Option Session
  | [] => start
  | next :: rest =>
      endOf (start.bind fun s => (turn bc ids engine (s.given next.given) next.act next.world).1) rest

theorem endOf_snoc (start : Option Session) (run : List Next) (last : Next) :
    endOf bc ids engine start (run ++ [last]) = (endOf bc ids engine start run).bind fun s =>
      (turn bc ids engine (s.given last.given) last.act last.world).1 := by
  induction run generalizing start with
  | nil => rfl
  | cons next run ih => exact ih _

theorem endOf_none (run : List Next) : endOf bc ids engine none run = none := by
  induction run with
  | nil => rfl
  | cons next run ih => exact ih

variable {bc ids engine}

/-- What every turn keeps holds at the end of a run. -/
theorem KeptByTurns.at_end {Inv : List Turn → Session → Prop} (kept : KeptByTurns bc ids engine Inv)
    (past : List Turn) {start : Option Session} (initially : ∀ s, start = some s → Inv past s)
    {run : List Next} {s : Session} (left : endOf bc ids engine start run = some s) :
    Inv (past ++ turns bc ids engine start run) s := by
  induction run generalizing past start with
  | nil =>
      have none : turns bc ids engine start [] = [] := by cases start <;> rfl
      rw [none, List.append_nil]
      exact initially s left
  | cons first run ih =>
      cases start with
      | none =>
          rw [endOf_none] at left
          cases left
      | some start =>
          rw [turns, ← List.singleton_append, ← List.append_assoc]
          refine ih _ (fun s' turned => ?_) left
          exact kept.next past _ s' (kept.gives past start first.given (initially start rfl)) rfl turned

/-- What a delivery for connection `k'` adds to the channel of this one, the `k`-th. -/
def Session.takesIn (s : Session) (k k' : Nat) (d : Incoming) : List Incoming :=
  if k = k' ∧ s.connection.channel.length < channelSize then [d] else []

theorem Session.given_nil (s : Session) : s.given [] = s := by
  simp only [Session.given, List.append_nil]

theorem Session.given_given (s : Session) (more most : List Incoming) :
    (s.given more).given most = s.given (more ++ most) := by
  simp only [Session.given, List.append_assoc]

end Mqtt

namespace Daemon

section Sessions

variable (bc : Bincode) (ids : Nat → UInt64) (engine : AppEngine)

/-- A run as one connection sees it: the acts on it, each with what strays had put into its channel
    and the daemon it worked on, and what strays have put there since the last. -/
structure Seen where
  acts : List Mqtt.Next
  given : List Mqtt.Incoming

def Seen.nothing : Seen := ⟨[], []⟩

/-- The session that what was seen makes of a new one. -/
def Seen.session (seen : Seen) : Option Mqtt.Session :=
  (Mqtt.endOf bc ids engine (some .new) seen.acts).map (·.given seen.given)

/-- The connection a stray consumes for, and the delivery it gets. -/
def System.strayTakes (S : System) (around : Surroundings) (j : Nat) : Option (Nat × Mqtt.Incoming) :=
  S.strays[j]?.bind fun stray =>
    match ((Mqtt.consumeOne bc engine stray.queue).run (handle ids) (S.world around)).1 with
    | .ok (some (tag, msg)) => some (stray.session, ⟨stray.queue, tag, msg.payload⟩)
    | _ => none

/-- What a stray puts into the channel of a connection. -/
def System.strayGives (S : System) (around : Surroundings) (j : Nat) (room : Bool) (k : Nat) :
    List Mqtt.Incoming :=
  match room, S.strayTakes bc ids engine around j, S.sessions[k]? with
  | true, some (k', d), some (some s) => s.takesIn k k' d
  | _, _, _ => []

/-- Connection `k` sees a happening.  It is the `k`-th accepted since the daemon was started. -/
def Seen.next (k : Nat) (S : System) (around : Surroundings) (seen : Seen) : Happening → Seen
  | .connect _ => if S.sessions.length = k then .nothing else seen
  | .session j act =>
      if j = k then ⟨seen.acts ++ [⟨seen.given, act, S.world around⟩], []⟩ else seen
  | .stray j room => ⟨seen.acts, seen.given ++ S.strayGives bc ids engine around j room k⟩
  | .restart _ => .nothing
  | .request _ | .entry _ | .openStream | .stream .. => seen

/-- What connection `k` sees of a run. -/
def seenBy (uuid : UuidText) (formats : Http.Formats) (k : Nat) (S : System) (seen : Seen) :
    List (Happening × Surroundings) → Seen
  | [] => seen
  | happening :: rest =>
      seenBy uuid formats k (S.step bc uuid formats ids engine happening.2 happening.1)
        (seen.next bc ids engine k S happening.2 happening.1) rest

variable {bc ids engine} {S : System}

theorem System.push_session (S : System) (k k' : Nat) (d : Mqtt.Incoming) :
    (S.push k' d).sessions[k]? = S.sessions[k]?.map (·.map fun s => s.given (s.takesIn k k' d)) := by
  have kept (apart : ∀ s, S.sessions[k]? = some (some s) → s.takesIn k k' d = []) :
      S.sessions[k]? = S.sessions[k]?.map (·.map fun s => s.given (s.takesIn k k' d)) := by
    cases there : S.sessions[k]? with
    | none => rfl
    | some session =>
        cases session with
        | none => rfl
        | some s => simp only [Option.map_some, apart s there, Mqtt.Session.given_nil]
  unfold System.push
  split
  · rename_i s present
    split_ifs with room
    · by_cases same : k = k'
      · subst same
        have inside : k < S.sessions.length := (List.getElem?_eq_some_iff.mp present).1
        rw [List.getElem?_set_self inside, present]
        simp only [Option.map_some, Mqtt.Session.takesIn, room, and_self, if_true,
          Mqtt.Session.given]
      · rw [List.getElem?_set_ne (Ne.symm same)]
        exact kept fun s _ => if_neg fun both => same both.1
    · refine kept fun s' there => if_neg fun both => room ?_
      obtain ⟨rfl, fits⟩ := both
      cases present.symm.trans there
      exact fits
  · rename_i closed
    refine kept fun s there => if_neg fun both => ?_
    obtain ⟨rfl, -⟩ := both
    exact closed s there

theorem System.strayConsumes_session (around : Surroundings) (j : Nat) (room : Bool) (k : Nat) :
    (S.strayConsumes bc ids engine around j room).sessions[k]? =
      S.sessions[k]?.map (·.map (·.given (S.strayGives bc ids engine around j room k))) := by
  have kept (nothing : S.strayGives bc ids engine around j room k = []) : S.sessions[k]? =
      S.sessions[k]?.map (·.map (·.given (S.strayGives bc ids engine around j room k))) := by
    simp only [nothing, Mqtt.Session.given_nil, Option.map_id']
  unfold System.strayConsumes
  cases found : S.strays[j]? with
  | none =>
      refine kept ?_
      simp only [System.strayGives, System.strayTakes, found, Option.bind_none]
  | some stray =>
      dsimp only
      cases ran : ((Mqtt.consumeOne bc engine stray.queue).run (handle ids) (S.world around)).1 with
      | ok delivery =>
          cases delivery with
          | none =>
              refine kept ?_
              simp only [System.strayGives, System.strayTakes, found, Option.bind_some, ran]
          | some delivery =>
              obtain ⟨tag, msg⟩ := delivery
              have takes : S.strayTakes bc ids engine around j =
                  some (stray.session, ⟨stray.queue, tag, msg.payload⟩) := by
                simp only [System.strayTakes, found, Option.bind_some, ran]
              cases room with
              | false =>
                  refine kept ?_
                  simp only [System.strayGives]
              | true =>
                  refine (System.push_session _ k stray.session _).trans ?_
                  change S.sessions[k]?.map _ = _
                  cases there : S.sessions[k]? with
                  | none => rfl
                  | some session =>
                      cases session with
                      | none => rfl
                      | some s => simp only [Option.map_some, System.strayGives, takes, there]
      | err e => exact e.elim
      | panicked | diverged =>
          refine kept ?_
          simp only [System.strayGives, System.strayTakes, found, Option.bind_some, ran]

theorem System.push_streams (S : System) (k : Nat) (d : Mqtt.Incoming) :
    (S.push k d).streams = S.streams := by
  unfold System.push
  split
  · split_ifs <;> rfl
  · rfl

theorem handshake_new (first : Option Packet) (w : World) {s : Mqtt.Session}
    (left : sessionAfter .new .proceed ((Mqtt.handshake first).run (handle ids) w).1 = some s) :
    s = .new := by
  have ends : (Mqtt.handshake first).Ends (fun after => ∀ s, after = some s → s = .new)
      fun _ => True := by
    unfold Mqtt.handshake
    split
    · refine .last (fun _ => trivial) fun written => ?_
      cases written
      · rintro s ⟨⟩
      · rintro s ⟨⟩
        rfl
    · rintro s ⟨⟩
  cases ran : ((Mqtt.handshake first).run (handle ids) w).1 with
  | ok after =>
      rw [ran] at left
      exact ends.ok ran s left
  | err e => exact e.elim
  | panicked | diverged =>
      rw [ran] at left
      cases left

/-- The `k`-th connection is as what it saw makes it, if it is open. -/
def Follows (bc : Bincode) (ids : Nat → UInt64) (engine : AppEngine) (k : Nat) (S : System)
    (seen : Seen) : Prop :=
  ∀ s, S.sessions[k]? = some (some s) → seen.session bc ids engine = some s

theorem Follows.act {k : Nat} {seen : Seen} (follows : Follows bc ids engine k S seen)
    {s s' : Mqtt.Session} (present : S.sessions[k]? = some (some s)) {a : Mqtt.Act} {w : World}
    (turned : (Mqtt.turn bc ids engine s a w).1 = some s') :
    Seen.session bc ids engine ⟨seen.acts ++ [⟨seen.given, a, w⟩], []⟩ = some s' := by
  obtain ⟨s₀, left, rfl⟩ := Option.map_eq_some_iff.mp (follows s present)
  rw [Seen.session, Mqtt.endOf_snoc, left]
  simp only [Option.bind_some, turned, Option.map_some, Mqtt.Session.given_nil]

/-- Every happening does to a connection what the connection sees of it. -/
theorem Follows.step (uuid : UuidText) (formats : Http.Formats) (around : Surroundings) {k : Nat}
    {seen : Seen} (follows : Follows bc ids engine k S seen) (happening : Happening) :
    Follows bc ids engine k (S.step bc uuid formats ids engine around happening)
      (seen.next bc ids engine k S around happening) := by
  intro s there
  cases happening with
  | request | openStream => exact follows s there
  | entry op =>
      refine follows s ?_
      change (S.applies bc ids engine around op).sessions[k]? = _ at there
      unfold System.applies at there
      split at there <;> exact there
  | connect first =>
      change (S.sessions ++ [_])[k]? = _ at there
      by_cases last : S.sessions.length = k
      · subst last
        rw [List.getElem?_append_right (Nat.le_refl _), Nat.sub_self] at there
        rw [handshake_new first _ (Option.some.inj there)]
        simp only [Seen.next, if_true]
        rfl
      · simp only [Seen.next, if_neg last]
        have inside : k < S.sessions.length := by
          have below := (List.getElem?_eq_some_iff.mp there).1
          rw [List.length_append, List.length_singleton] at below
          omega
        exact follows s (by rwa [List.getElem?_append_left inside] at there)
  | session j a =>
      change (S.sessionActs bc ids engine around j a).sessions[k]? = _ at there
      unfold System.sessionActs at there
      by_cases own : j = k
      · subst own
        simp only [Seen.next, if_true]
        split at there
        · rename_i s₀ present
          have inside : j < S.sessions.length := (List.getElem?_eq_some_iff.mp present).1
          rw [List.getElem?_set_self inside] at there
          exact follows.act present (Option.some.inj there)
        · rename_i closed
          exact absurd there (closed s)
      · simp only [Seen.next, if_neg own]
        split at there
        · rw [List.getElem?_set_ne own] at there
          exact follows s there
        · exact follows s there
  | stray j room =>
      change (S.strayConsumes bc ids engine around j room).sessions[k]? = _ at there
      rw [System.strayConsumes_session] at there
      obtain ⟨session, present, same⟩ := Option.map_eq_some_iff.mp there
      obtain ⟨s₀, rfl, rfl⟩ := Option.map_eq_some_iff.mp same
      obtain ⟨s', left, rfl⟩ := Option.map_eq_some_iff.mp (follows s₀ present)
      simp only [Seen.next, Seen.session, left, Option.map_some, Mqtt.Session.given_given]
  | stream j a =>
      refine follows s ?_
      change (S.streamActs bc uuid ids engine around j a).sessions[k]? = _ at there
      unfold System.streamActs at there
      split at there <;> exact there
  | restart maxBytes => cases there

theorem Follows.run (uuid : UuidText) (formats : Http.Formats) {k : Nat} {seen : Seen}
    (follows : Follows bc ids engine k S seen) (run : List (Happening × Surroundings)) :
    Follows bc ids engine k (S.final bc uuid formats ids engine run)
      (seenBy bc ids engine uuid formats k S seen run) := by
  induction run generalizing S seen with
  | nil => exact follows
  | cons happening run ih => exact ih (follows.step uuid formats happening.2 happening.1)

/-- What every turn keeps holds of the session that what was seen makes. -/
theorem Seen.keeps {seen : Seen} {s : Mqtt.Session} (made : seen.session bc ids engine = some s)
    {Inv : List Mqtt.Turn → Mqtt.Session → Prop} (kept : Mqtt.KeptByTurns bc ids engine Inv) :
    Inv (Mqtt.turns bc ids engine (some .new) seen.acts) s := by
  obtain ⟨s', left, rfl⟩ := Option.map_eq_some_iff.mp made
  exact kept.gives _ s' seen.given
    (kept.at_end [] (fun _ opened => Option.some.inj opened ▸ kept.initially) left)

end Sessions

section Streams

variable (bc : Bincode) (uuid : UuidText) (formats : Http.Formats) (ids : Nat → UInt64)
  (engine : AppEngine)

/-- Stream `k` sees a happening.  It is the `k`-th opened since the daemon was started. -/
def streamSees (k : Nat) (S : System) (around : Surroundings)
    (seen : List (Grpc.StreamAct × World)) : Happening → List (Grpc.StreamAct × World)
  | .openStream => if S.streams.length = k then [] else seen
  | .stream j act => if j = k then seen ++ [(act, S.world around)] else seen
  | .restart _ => []
  | .request _ | .entry _ | .connect _ | .session .. | .stray .. => seen

/-- What stream `k` sees of a run. -/
def seenByStream (k : Nat) (S : System) (seen : List (Grpc.StreamAct × World)) :
    List (Happening × Surroundings) → List (Grpc.StreamAct × World)
  | [] => seen
  | happening :: rest =>
      seenByStream k (S.step bc uuid formats ids engine happening.2 happening.1)
        (streamSees k S happening.2 seen happening.1) rest

/-- The `k`-th stream is as what it saw makes it. -/
def StreamFollows (k : Nat) (S : System) (seen : List (Grpc.StreamAct × World)) : Prop :=
  ∀ s, S.streams[k]? = some s → s = Grpc.streamEnd bc uuid ids engine .new seen

variable {bc uuid ids engine} {S : System}

theorem System.strayConsumes_streams (around : Surroundings) (j : Nat) (room : Bool) :
    (S.strayConsumes bc ids engine around j room).streams = S.streams := by
  unfold System.strayConsumes
  split
  · dsimp only
    split
    · split_ifs
      · exact System.push_streams _ _ _
      · rfl
    · rfl
  · rfl

/-- Every happening does to a stream what the stream sees of it. -/
theorem StreamFollows.step (around : Surroundings) {k : Nat}
    {seen : List (Grpc.StreamAct × World)} (follows : StreamFollows bc uuid ids engine k S seen)
    (happening : Happening) :
    StreamFollows bc uuid ids engine k (S.step bc uuid formats ids engine around happening)
      (streamSees k S around seen happening) := by
  intro s there
  cases happening with
  | request | connect => exact follows s there
  | entry op =>
      refine follows s ?_
      change (S.applies bc ids engine around op).streams[k]? = _ at there
      unfold System.applies at there
      split at there <;> exact there
  | session j a =>
      refine follows s ?_
      change (S.sessionActs bc ids engine around j a).streams[k]? = _ at there
      unfold System.sessionActs at there
      split at there <;> exact there
  | stray j room =>
      refine follows s ?_
      change (S.strayConsumes bc ids engine around j room).streams[k]? = _ at there
      rwa [System.strayConsumes_streams] at there
  | openStream =>
      change (S.streams ++ [_])[k]? = _ at there
      by_cases last : S.streams.length = k
      · subst last
        rw [List.getElem?_append_right (Nat.le_refl _), Nat.sub_self] at there
        simp only [streamSees, if_true]
        exact (Option.some.inj there).symm
      · simp only [streamSees, if_neg last]
        have inside : k < S.streams.length := by
          have below := (List.getElem?_eq_some_iff.mp there).1
          rw [List.length_append, List.length_singleton] at below
          omega
        exact follows s (by rwa [List.getElem?_append_left inside] at there)
  | stream j a =>
      change (S.streamActs bc uuid ids engine around j a).streams[k]? = _ at there
      unfold System.streamActs at there
      by_cases own : j = k
      · subst own
        simp only [streamSees, if_true]
        split at there
        · rename_i s₀ present
          have inside : j < S.streams.length := (List.getElem?_eq_some_iff.mp present).1
          rw [List.getElem?_set_self inside] at there
          rw [Grpc.streamEnd_snoc, ← follows s₀ present]
          exact (Option.some.inj there).symm
        · rename_i closed
          rw [closed] at there
          cases there
      · simp only [streamSees, if_neg own]
        split at there
        · rw [List.getElem?_set_ne own] at there
          exact follows s there
        · exact follows s there
  | restart maxBytes => cases there

theorem StreamFollows.run {k : Nat} {seen : List (Grpc.StreamAct × World)}
    (follows : StreamFollows bc uuid ids engine k S seen) (run : List (Happening × Surroundings)) :
    StreamFollows bc uuid ids engine k (S.final bc uuid formats ids engine run)
      (seenByStream bc uuid formats ids engine k S seen run) := by
  induction run generalizing S seen with
  | nil => exact follows
  | cons happening run ih => exact ih (follows.step formats happening.2 happening.1)

end Streams

section Runs

variable (bc : Bincode) (uuid : UuidText) (formats : Http.Formats) (ids : Nat → UInt64)
  (engine : AppEngine) (maxBytes : Option UInt64)

/-- Every open connection of a daemon is exactly what those happenings of the run make it that
    concern it, and its packet ids, its pollers and its replies are what its own acts say.  Every
    stream is exactly what the acts on it make it. -/
theorem daemon_has_histories (run : List (Happening × Surroundings)) (k : Nat) :
    (∀ s, ((System.started bc ids engine maxBytes).final bc uuid formats ids engine run).sessions[k]? =
        some (some s) →
      let seen := seenBy bc ids engine uuid formats k (System.started bc ids engine maxBytes)
        .nothing run
      seen.session bc ids engine = some s ∧
        Mqtt.Numbered (Mqtt.turns bc ids engine (some .new) seen.acts) s ∧
        Mqtt.Polled bc ids engine (Mqtt.turns bc ids engine (some .new) seen.acts) s ∧
        Mqtt.Replied (Mqtt.turns bc ids engine (some .new) seen.acts) s) ∧
    ∀ s, ((System.started bc ids engine maxBytes).final bc uuid formats ids engine run).streams[k]? =
        some s →
      s = Grpc.streamEnd bc uuid ids engine .new
        (seenByStream bc uuid formats ids engine k (System.started bc ids engine maxBytes) [] run) := by
  have unaccepted : Follows bc ids engine k (System.started bc ids engine maxBytes) .nothing := by
    rintro s ⟨⟩
  have unopened : StreamFollows bc uuid ids engine k (System.started bc ids engine maxBytes) [] := by
    rintro s ⟨⟩
  refine ⟨fun s there => ?_, unopened.run formats run⟩
  have made := unaccepted.run uuid formats run s there
  exact ⟨made, Seen.keeps made Mqtt.numbered_kept, Seen.keeps made Mqtt.polled_kept,
    Seen.keeps made Mqtt.replied_kept⟩

/-- Two clients and a stream take turns. -/
def takingTurns : List (Happening × Surroundings) :=
  [.request (.grpc (.declareQueue ⟨"q", none, none, none, none⟩)), .connect (some .connect),
    .connect (some .connect), .session 1 (.packet (.subscribe 1 [("q", .atLeastOnce)])),
    .session 0 (.packet .pingReq), .openStream, .session 1 .proceed, .stream 0 .tick,
    .session 1 .proceed, .session 1 (.tick 0)].map (·, calm 0)

theorem takingTurns_history :
    let S := System.started bincode (counter 0) .solo none
    let seen := seenBy bincode (counter 0) .solo byteUuid noFormats 1 S .nothing takingTurns
    seen.acts.map (·.act) =
        [.packet (.subscribe 1 [("q", .atLeastOnce)]), .proceed, .proceed, .tick 0] ∧
      ∃ s, (S.final bincode byteUuid noFormats (counter 0) .solo takingTurns).sessions[1]? =
          some (some s) ∧ seen.session bincode (counter 0) .solo = some s := by
  have opened : ((System.started bincode (counter 0) .solo none).final bincode byteUuid noFormats
      (counter 0) .solo takingTurns).sessions[1]?.join.isSome := by decide +kernel
  obtain ⟨s, there⟩ := Option.isSome_iff_exists.mp opened
  refine ⟨by decide +kernel, s, Option.join_eq_some_iff.mp there, ?_⟩
  exact ((daemon_has_histories bincode byteUuid noFormats (counter 0) .solo none takingTurns 1).1 s
    (Option.join_eq_some_iff.mp there)).1

end Runs

end Daemon

end PelicanQ
