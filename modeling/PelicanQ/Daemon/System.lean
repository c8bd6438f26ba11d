import PelicanQ.Daemon.Connection
import PelicanQ.Daemon.Requests
import PelicanQ.Daemon.Stream

/-! # The daemon as a whole

One manager, the MQTT connections and gRPC streams that are open, and the unary
requests.  Everything the tasks do between two places where they wait is one
happening, and happenings follow each other in any order.

A poller that is aborted inside `consume_one` is not stopped there: it makes that
last consume.  Such strays stay in the system until they have.
-/

namespace PelicanQ.Daemon

/-- An aborted poller, by its connection. -/
structure Stray where
  session : Nat
  queue : String
  deriving DecidableEq, Repr

structure System where
  manager : QueueManager
  /-- The connections, in the order in which they were accepted; a closed one is `none`. -/
  sessions : List (Option Mqtt.Session)
  strays : List Stray
  streams : List Grpc.Stream
  /-- An operation has panicked, and the manager's lock is poisoned. -/
  poisoned : Bool

/-- What the clock, consensus, the id generator, the socket and the allocator do during a
    happening. -/
structure Surroundings where
  clock : Nat → Int64
  consensus : Nat → Consensus
  uuids : Nat → Uuid
  socket : Nat → Bool
  memory : Allocator := ample

/-- The clock stands at one time, every write is applied, every packet is written and there is
    memory. -/
def calm (now : Int64) : Surroundings :=
  ⟨fun _ => now, fun _ => .applies, fun _ => 0, fun _ => true, ample⟩

/-- The operations that some handler hands to consensus. -/
def proposed : QueueOperation → Bool
  | .applyRetention _ | .promoteScheduled _ => false
  | _ => true

inductive Happening where
  /-- A unary request is served. -/
  | request (request : Request)
  /-- An entry of the log is applied that no handler here waits for: a handler of another node
      proposed it, or one of this node that was aborted. -/
  | entry (op : QueueOperation)
  /-- A connection is accepted; its first packet arrives. -/
  | connect (first : Option Packet)
  | session (k : Nat) (act : Mqtt.Act)
  /-- A stray makes its consume.  It may still find room in the channel. -/
  | stray (j : Nat) (room : Bool)
  | openStream
  | stream (k : Nat) (act : Grpc.StreamAct)
  /-- The daemon is stopped and started on its directory. -/
  | restart (maxBytes : Option UInt64)

/-- The session an act leaves.  A panic ends the task it happens in: that of the poller that ticked,
    or that of the connection. -/
def sessionAfter (s : Mqtt.Session) (act : Mqtt.Act) :
    Outcome Empty (Option Mqtt.Session) → Option Mqtt.Session
  | .ok after => after
  | _ =>
      match act with
      | .tick i => some { s with connection := s.connection.breakPoller i }
      | _ => none

def streamAfter (s : Grpc.Stream) : Outcome Empty Grpc.Stream → Grpc.Stream
  | .ok after => after
  | _ => { s with running := false }

/-- The poller may be inside its consume. -/
def mayConsume (poller : Mqtt.Poller) : Bool := poller.holding.isNone && poller.running

/-- The pollers of a session that an act aborts while they may consume. -/
def aborted (s : Mqtt.Session) : Option Mqtt.Session → List String
  | none => (s.connection.subscriptions.filter mayConsume).map (·.queue)
  | some after => (s.connection.subscriptions.filter fun poller =>
      mayConsume poller && after.connection.subscriptions.all (·.queue != poller.queue)).map
        (·.queue)

/-- Put a delivery into the channel of a connection that is open and has room. -/
def System.push (S : System) (k : Nat) (delivery : Mqtt.Incoming) : System :=
  match S.sessions[k]? with
  | some (some s) =>
      if s.connection.channel.length < Mqtt.channelSize then
        let connection := { s.connection with channel := s.connection.channel ++ [delivery] }
        { S with sessions := S.sessions.set k (some { s with connection := connection }) }
      else S
  | _ => S

section Steps

variable (bc : Bincode) (uuid : UuidText) (formats : Http.Formats) (ids : Nat → UInt64)
  (engine : AppEngine)

variable (around : Surroundings) (S : System)

/-- The manager and its lock after a task has worked on them. -/
def System.leave (w : World) : System := { S with manager := w.manager, poisoned := w.poisoned }

/-- The world a task of the daemon works in. -/
def System.world : World :=
  ⟨⟨S.manager, around.clock⟩, around.consensus, around.uuids, around.socket, [], around.memory,
    S.poisoned⟩

def System.serves (request : Request) : System :=
  S.leave (request.serve bc uuid formats ids engine (S.world around)).2

/-- Apply an entry, where there is a log. -/
def System.applies (op : QueueOperation) : System :=
  match engine, proposed op with
  | .flock, true =>
      S.leave ((core (applyOperation bc around.memory op) : Task Empty _).run (handle ids)
        (S.world around)).2
  | _, _ => S

def System.accepts (first : Option Packet) : System :=
  let r := (Mqtt.handshake first).run (handle ids) (S.world around)
  { S with sessions := S.sessions ++ [sessionAfter .new .proceed r.1] }

def System.sessionActs (k : Nat) (act : Mqtt.Act) : System :=
  match S.sessions[k]? with
  | some (some s) =>
      let r := (Mqtt.act bc engine s act).run (handle ids) (S.world around)
      let after := sessionAfter s act r.1
      { S.leave r.2 with
        sessions := S.sessions.set k after
        strays := S.strays ++ (aborted s after).map (⟨k, ·⟩) }
  | _ => S

def System.strayConsumes (j : Nat) (room : Bool) : System :=
  match S.strays[j]? with
  | some stray =>
      let r := (Mqtt.consumeOne bc engine stray.queue).run (handle ids) (S.world around)
      let left := { S.leave r.2 with strays := S.strays.eraseIdx j }
      match r.1 with
      | .ok (some (tag, msg)) =>
          if room then left.push stray.session ⟨stray.queue, tag, msg.payload⟩ else left
      | _ => left
  | none => S

def System.streamActs (k : Nat) (act : Grpc.StreamAct) : System :=
  match S.streams[k]? with
  | some s =>
      let r := (Grpc.streamAct bc uuid engine s act).run (handle ids) (S.world around)
      { S.leave r.2 with streams := S.streams.set k (streamAfter s r.1) }
  | none => S

def System.step : Happening → System
  | .request request => S.serves bc uuid formats ids engine around request
  | .entry op => S.applies bc ids engine around op
  | .connect first => S.accepts ids around first
  | .session k act => S.sessionActs bc ids engine around k act
  | .stray j room => S.strayConsumes bc ids engine around j room
  | .openStream => { S with streams := S.streams ++ [.new] }
  | .stream k act => S.streamActs bc uuid ids engine around k act
  | .restart maxBytes =>
      ⟨(startManager bc ids around.clock maxBytes S.manager.db engine).2, [], [], [], false⟩

/-- A daemon started on an empty directory. -/
def System.started (maxBytes : Option UInt64) : System :=
  ⟨(startManager bc ids (fun _ => 0) maxBytes .empty engine).2, [], [], [], false⟩

/-- The system a run leaves. -/
def System.final (run : List (Happening × Surroundings)) : System :=
  run.foldl (fun S happening => S.step bc uuid formats ids engine happening.2 happening.1) S

end Steps

end PelicanQ.Daemon
