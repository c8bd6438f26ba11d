import PelicanQ.Lib.Text
import PelicanQ.Lib.OrdMap
import PelicanQ.Raft.Types

/-! # Configuration from the environment, and how a node starts with it

The members of a cluster are written `id@raft_addr=client_addr`, with commas
between them.  A node listens for its peers on the address of the first member
with its own id.  On a fresh start the node with the lowest id initializes the
cluster with a map built from the same list.
-/

namespace PelicanQ

open Text

abbrev NodeId := UInt64

structure NodeConfig where
  id : NodeId
  raftAddr : String
  clientAddr : String
  deriving DecidableEq, Repr

structure ClusterConfig where
  selfId : NodeId
  members : List NodeConfig
  deriving DecidableEq, Repr

/-- The environment variables that are set to valid Unicode. -/
abbrev Env := String → Option String

/-- `char::is_whitespace`. -/
def isWhitespace (c : Char) : Bool :=
  (0x9 ≤ c.toNat && c.toNat ≤ 0xD) || c.toNat == 0x20 || c.toNat == 0x85 || c.toNat == 0xA0 ||
    c.toNat == 0x1680 || (0x2000 ≤ c.toNat && c.toNat ≤ 0x200A) || c.toNat == 0x2028 ||
    c.toNat == 0x2029 || c.toNat == 0x202F || c.toNat == 0x205F || c.toNat == 0x3000

namespace ClusterConfig

/-- The body of the loop for an entry that is not empty. -/
def parseEntry (entry : List Char) : Except String NodeConfig :=
  let text := String.ofList entry
  match splitOnce '=' entry with
  | none => .error s!"invalid cluster member entry (missing '='): {text}"
  | some (idAddrPart, clientAddr) =>
      match splitOnce '@' idAddrPart with
      | none => .error s!"invalid cluster member entry (missing '@'): {text}"
      | some (idPart, raftAddr) =>
          match parseU64 idPart with
          | .error e => .error s!"invalid node id in '{text}': {e}"
          | .ok id => .ok ⟨id, String.ofList raftAddr, String.ofList clientAddr⟩

/-- The loop over the entries, with the members pushed so far. -/
def parseEntries : List (List Char) → List NodeConfig → Except String (List NodeConfig)
  | [], members => .ok members
  | entry :: rest, members =>
      let entry := trim isWhitespace entry
      if entry.isEmpty then parseEntries rest members
      else
        match parseEntry entry with
        | .error message => .error message
        | .ok member => parseEntries rest (members ++ [member])

def fromEnv (env : Env) : Except String (Option ClusterConfig) :=
  match env "PELICANQ_NODE_ID" with
  | none => .ok none
  | some v =>
      match parseU64 v.toList with
      | .error e => .error s!"invalid PELICANQ_NODE_ID '{v}': {e}"
      | .ok selfId =>
          match env "PELICANQ_CLUSTER_MEMBERS" with
          | none => .error "PELICANQ_NODE_ID is set but PELICANQ_CLUSTER_MEMBERS is missing"
          | some membersStr =>
              match parseEntries (membersStr.toList.splitOn ',') [] with
              | .error message => .error message
              | .ok members =>
                  if members.isEmpty then .error "PELICANQ_CLUSTER_MEMBERS is empty"
                  else if !members.any (·.id = selfId) then
                    .error s!"self_id {selfId} is not present in PELICANQ_CLUSTER_MEMBERS"
                  else .ok (some ⟨selfId, members⟩)

end ClusterConfig

structure Config where
  dataDir : String
  listenAddr : String
  grpcAddr : String
  maxBytes : Option UInt64
  mqttAddr : Option String
  cluster : Option ClusterConfig
  deriving DecidableEq, Repr

/-- A malformed cluster configuration ends the process with its message. -/
def Config.fromEnv (env : Env) : Except String Config :=
  match ClusterConfig.fromEnv env with
  | .error message => .error message
  | .ok cluster => .ok {
      dataDir := (env "PELICANQ_DATA_DIR").getD "./data"
      listenAddr := (env "PELICANQ_LISTEN_ADDR").getD "127.0.0.1:7070"
      grpcAddr := (env "PELICANQ_GRPC_ADDR").getD "127.0.0.1:7072"
      maxBytes := (env "PELICANQ_MAX_BYTES").bind fun v => (parseU64 v.toList).toOption
      mqttAddr :=
        match env "PELICANQ_MQTT_ADDR" with
        | some v => if v.isEmpty then none else some v
        | none => some "127.0.0.1:1883"
      cluster := cluster }

/-- The engine `main` starts. -/
inductive Startup where
  | solo (dataDir : String) (maxBytes : Option UInt64)
  | flock (selfId : NodeId) (raftAddr : String) (dataDir : String)
      (bootstrap : Option (OrdMap NodeId Node))

def NodeConfig.node (m : NodeConfig) : Node := ⟨m.raftAddr, m.clientAddr⟩

/-- Collected into a map in list order: a later member replaces an earlier one with its id. -/
def ClusterConfig.membership (cfg : ClusterConfig) : OrdMap NodeId Node :=
  (cfg.members.map fun m => (m.id, m.node)).foldl (fun map e => map.insert e.1 e.2) .empty

def ClusterConfig.lowestId (cfg : ClusterConfig) : Option NodeId :=
  (cfg.members.map (·.id)).min?

/-- `main` up to the listeners, given whether the Raft directory is absent or empty.  There is
    no result where a lookup that is expected to succeed does not. -/
def Config.start (cfg : Config) (isFresh : Bool) : Option Startup :=
  match cfg.cluster with
  | none => some (.solo cfg.dataDir cfg.maxBytes)
  | some clusterCfg => do
      let self ← clusterCfg.members.find? (·.id = clusterCfg.selfId)
      let lowestId ← clusterCfg.lowestId
      let members :=
        if isFresh && clusterCfg.selfId = lowestId then some clusterCfg.membership else none
      return .flock clusterCfg.selfId self.raftAddr cfg.dataDir members

end PelicanQ
