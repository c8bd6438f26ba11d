import PelicanQ.Raft.StateMachine

/-! # What the consensus library hands to its storage

The types of `openraft` that pass through `storage.rs`, with the fields the
storage reads or writes.  Sets and maps inside a membership are listed in the
order in which they are serialized; the storage does not look inside.

`SerdeJson` is what the storage relies on of the text format: reading undoes
writing at each type, an absent value is written as `null`, and `null` is not a
log id.
-/

namespace PelicanQ

structure Node where
  raftAddr : String
  clientAddr : String
  deriving DecidableEq, Repr

structure LeaderId where
  term : UInt64
  nodeId : UInt64
  deriving DecidableEq, Repr

def LeaderId.display (id : LeaderId) : String :=
  "T" ++ toString id.term ++ "-N" ++ toString id.nodeId

structure LogId where
  leaderId : LeaderId
  index : UInt64
  deriving DecidableEq, Repr

structure Vote where
  leaderId : LeaderId
  committed : Bool
  deriving DecidableEq, Repr

structure Membership where
  configs : List (List UInt64)
  nodes : List (UInt64 × Node)
  deriving DecidableEq, Repr, Inhabited

structure StoredMembership where
  logId : Option LogId
  membership : Membership
  deriving DecidableEq, Repr, Inhabited

inductive EntryPayload where
  | blank
  | normal (op : QueueOperation)
  | membership (membership : Membership)
  deriving DecidableEq, Repr

/-- `openraft::Entry`. -/
structure LogEntry where
  logId : LogId
  payload : EntryPayload
  deriving DecidableEq, Repr

structure LogState where
  lastPurgedLogId : Option LogId
  lastLogId : Option LogId
  deriving DecidableEq, Repr

structure SnapshotMeta where
  lastLogId : Option LogId
  lastMembership : StoredMembership
  snapshotId : String
  deriving DecidableEq, Repr

/-- A snapshot with its data: what is built, kept and installed. -/
structure StoredSnapshot where
  info : SnapshotMeta
  data : Bytes
  deriving DecidableEq, Repr

inductive ErrorSubject where
  | stateMachine
  deriving DecidableEq, Repr

inductive ErrorVerb where
  | read
  | write
  deriving DecidableEq, Repr

structure StorageError where
  subject : ErrorSubject
  verb : ErrorVerb
  message : String
  deriving DecidableEq, Repr

/-- The text of an error. -/
def PelicanError.display : PelicanError → String
  | .queueNotFound queue => "queue not found: " ++ queue
  | .queueAlreadyExists queue => "queue already exists: " ++ queue
  | .storage message => "storage error: " ++ message
  | .serialization message => "serialization error: " ++ message
  | .invalidDeliveryTag tag => "invalid delivery tag: " ++ toString tag
  | .storageLimitExceeded usedPct limitPct =>
      "storage watermark exceeded: disk usage at " ++ toString usedPct ++ "%, limit is " ++
        toString limitPct ++ "%"
  | .messageDeadLettered queue dlq => "message dead-lettered: queue=" ++ queue ++ ", dlq=" ++ dlq

/-! ## The text format -/

/-- How an absent value is written. -/
def jsonNull : Bytes := "null".utf8

/-- How an optional value is written: without a mark when it is there. -/
def jsonOption {α : Type} (codec : Codec α) : Option α → Bytes
  | none => jsonNull
  | some a => codec.encode a

/-- How a number is written. -/
def jsonU64 (n : UInt64) : Bytes := (toString n).utf8

structure SerdeJson where
  snapshot : Codec QueueManagerSnapshot
  logId : Codec LogId
  membership : Codec StoredMembership
  vote : Codec Vote
  entry : Codec LogEntry
  /-- `null` is read as no log id. -/
  logId_null : ∃ e, logId.decode jsonNull = .error e

section Wires

/-- A value after an opening brace. -/
def braced {α : Type} (w : Wire α) : Wire α where
  write a := 123 :: w.write a
  read
    | 123 :: bytes => w.read bytes
    | _ => .error "expected value"
  read_write a rest := w.read_write a rest

def boolWire : Wire Bool where
  write b := [if b then 1 else 0]
  read
    | 0 :: rest => .ok (false, rest)
    | 1 :: rest => .ok (true, rest)
    | _ => .error "expected boolean"
  read_write b rest := by cases b <;> rfl

def leaderIdWire : Wire LeaderId :=
  (Wire.u64.pair .u64).imap (fun (term, nodeId) => ⟨term, nodeId⟩) (fun id => (id.term, id.nodeId))
    fun _ => rfl

def logIdWire : Wire LogId :=
  (leaderIdWire.pair .u64).imap (fun (leaderId, index) => ⟨leaderId, index⟩)
    (fun id => (id.leaderId, id.index)) fun _ => rfl

def voteWire : Wire Vote :=
  (leaderIdWire.pair boolWire).imap (fun (leaderId, committed) => ⟨leaderId, committed⟩)
    (fun vote => (vote.leaderId, vote.committed)) fun _ => rfl

def nodeWire : Wire Node :=
  (Wire.string.pair .string).imap (fun (raftAddr, clientAddr) => ⟨raftAddr, clientAddr⟩)
    (fun node => (node.raftAddr, node.clientAddr)) fun _ => rfl

def membershipWire : Wire Membership :=
  ((Wire.list (.list .u64)).pair (Wire.list (.pair .u64 nodeWire))).imap
    (fun (configs, nodes) => ⟨configs, nodes⟩) (fun m => (m.configs, m.nodes)) fun _ => rfl

def storedMembershipWire : Wire StoredMembership :=
  ((Wire.option logIdWire).pair membershipWire).imap
    (fun (logId, membership) => ⟨logId, membership⟩) (fun m => (m.logId, m.membership)) fun _ => rfl

/-- The variants of an operation, with the fields each may have. -/
private def operationFields : QueueOperation →
    UInt8 × String × RetentionPolicy × List Message × UInt64 × UInt64
  | .declareQueue name policy => (0, name, policy, [], 0, 0)
  | .publish queue message => (1, queue, default, [message], 0, 0)
  | .publishBatch queue messages => (2, queue, default, messages, 0, 0)
  | .consume queue => (3, queue, default, [], 0, 0)
  | .consumeBatch queue max => (4, queue, default, [], 0, max)
  | .ack queue tag => (5, queue, default, [], tag, 0)
  | .nack queue tag => (6, queue, default, [], tag, 0)
  | .applyRetention queue => (7, queue, default, [], 0, 0)
  | .promoteScheduled queue => (8, queue, default, [], 0, 0)

private def operationOf :
    UInt8 × String × RetentionPolicy × List Message × UInt64 × UInt64 → QueueOperation
  | (0, name, policy, _, _, _) => .declareQueue name policy
  | (1, queue, _, [message], _, _) => .publish queue message
  | (2, queue, _, messages, _, _) => .publishBatch queue messages
  | (3, queue, _, _, _, _) => .consume queue
  | (4, queue, _, _, _, max) => .consumeBatch queue max
  | (5, queue, _, _, tag, _) => .ack queue tag
  | (6, queue, _, _, tag, _) => .nack queue tag
  | (7, queue, _, _, _, _) => .applyRetention queue
  | (_, queue, _, _, _, _) => .promoteScheduled queue

def operationWire : Wire QueueOperation :=
  (Wire.byte.pair <| Wire.string.pair <| policyWire.pair <| (Wire.list messageWire).pair <|
    Wire.u64.pair .u64).imap operationOf operationFields fun op => by cases op <;> rfl

private def payloadFields : EntryPayload → Option (QueueOperation ⊕ Membership)
  | .blank => none
  | .normal op => some (.inl op)
  | .membership m => some (.inr m)

def sumWire {α β : Type} (wa : Wire α) (wb : Wire β) : Wire (α ⊕ β) where
  write
    | .inl a => 0 :: wa.write a
    | .inr b => 1 :: wb.write b
  read
    | 0 :: rest => (wa.read rest).map fun (a, rest) => (.inl a, rest)
    | 1 :: rest => (wb.read rest).map fun (b, rest) => (.inr b, rest)
    | _ => .error "unknown variant"
  read_write x rest := by
    cases x with
    | inl a => simp only [List.cons_append, wa.read_write, Except.map]
    | inr b => simp only [List.cons_append, wb.read_write, Except.map]

def payloadWire : Wire EntryPayload :=
  (Wire.option (sumWire operationWire membershipWire)).imap
    (fun
      | none => .blank
      | some (.inl op) => .normal op
      | some (.inr m) => .membership m)
    payloadFields fun payload => by cases payload <;> rfl

def entryWire : Wire LogEntry :=
  (logIdWire.pair payloadWire).imap (fun (logId, payload) => ⟨logId, payload⟩)
    (fun entry => (entry.logId, entry.payload)) fun _ => rfl

/-- A format that meets the laws. -/
def serdeJson : SerdeJson where
  snapshot := (braced snapshotWire).toCodec
  logId := (braced logIdWire).toCodec
  membership := (braced storedMembershipWire).toCodec
  vote := (braced voteWire).toCodec
  entry := (braced entryWire).toCodec
  logId_null := ⟨_, rfl⟩

end Wires

end PelicanQ
