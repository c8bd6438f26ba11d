import PelicanQ.Lib.Codec

/-! # Messages, policies and errors

The data of `message.rs`, `retention.rs` and `error.rs`, with the field widths
of the source.  Header maps are listed in the order in which they are
serialized; no operation looks inside them.

`Bincode` is what the storage code uses of the serializer.  `bincode` is its
wire format for these two records, written out.
-/

namespace PelicanQ

abbrev Uuid := BitVec 128

/-- Handle of an in-flight message, for ack and nack. -/
abbrev DeliveryTag := UInt64

structure Message where
  id : Uuid
  payload : Bytes
  headers : List (String × String)
  /-- Unix time in milliseconds, set by whoever built the message. -/
  timestamp : Int64
  deliveryAttempts : UInt32
  priority : UInt8
  deliverAt : Option Int64
  dedupKey : Option String
  deriving DecidableEq, Repr

/-- Per-queue limits; `none` is no limit. -/
structure RetentionPolicy where
  maxAgeSecs : Option UInt64 := none
  maxMessages : Option UInt64 := none
  maxDeliveryAttempts : Option UInt32 := none
  dedupWindowSecs : Option UInt64 := none
  deriving DecidableEq, Repr, Inhabited

inductive PelicanError where
  | queueNotFound (queue : String)
  | queueAlreadyExists (queue : String)
  | storage (message : String)
  | serialization (message : String)
  | invalidDeliveryTag (tag : DeliveryTag)
  | storageLimitExceeded (usedPct limitPct : UInt8)
  | messageDeadLettered (queue dlq : String)
  deriving DecidableEq, Repr

/-- The errors that speak of queues, tags and limits. -/
def PelicanError.IsDomain : PelicanError → Prop
  | .queueNotFound _ | .queueAlreadyExists _ | .storageLimitExceeded .. => True
  | .invalidDeliveryTag _ => True
  | .storage _ | .serialization _ | .messageDeadLettered .. => False

inductive PublishOutcome where
  | stored (id : Uuid)
  | deduplicated
  deriving DecidableEq, Repr

/-- The serializer of stored values. -/
structure Bincode where
  message : Codec Message
  policy : Codec RetentionPolicy

/-- A uuid is written as a counted string of its sixteen bytes. -/
def uuidWire : Wire Uuid where
  write id := Wire.u64.write 16 ++ BigEndian.encode 16 id.toNat
  read bytes := do
    let (size, bytes) ← Wire.u64.read bytes
    if size = 16 ∧ 16 ≤ bytes.length then
      pure (BitVec.ofNat 128 (BigEndian.decode (bytes.take 16)), bytes.drop 16)
    else .error "invalid length"
  read_write id rest := by
    have size : (BigEndian.encode 16 id.toNat).length = 16 := BigEndian.length_encode 16 id.toNat
    have enough : 16 ≤ (BigEndian.encode 16 id.toNat ++ rest).length := by
      rw [List.length_append, size]
      omega
    have small : id.toNat < 256 ^ 16 := id.isLt
    simp only [List.append_assoc, Wire.u64.read_write, bind, Except.bind, enough, and_self, if_true,
      List.take_left' size, List.drop_left' size, BigEndian.decode_encode small, pure, Except.pure,
      BitVec.ofNat_toNat, BitVec.setWidth_eq]

/-- The fields of a message in declaration order. -/
def messageWire : Wire Message :=
  (uuidWire.pair <| (Wire.list .byte).pair <| (Wire.list (.pair .string .string)).pair <|
    Wire.i64.pair <| Wire.u32.pair <| Wire.byte.pair <|
      (Wire.option .i64).pair (Wire.option .string)).imap
    (fun (id, payload, headers, timestamp, attempts, priority, deliverAt, dedupKey) =>
      ⟨id, payload, headers, timestamp, attempts, priority, deliverAt, dedupKey⟩)
    (fun m => (m.id, m.payload, m.headers, m.timestamp, m.deliveryAttempts, m.priority, m.deliverAt,
      m.dedupKey))
    fun _ => rfl

def policyWire : Wire RetentionPolicy :=
  ((Wire.option .u64).pair <| (Wire.option .u64).pair <| (Wire.option .u32).pair <|
    Wire.option .u64).imap
    (fun (maxAge, maxMessages, maxAttempts, window) => ⟨maxAge, maxMessages, maxAttempts, window⟩)
    (fun p => (p.maxAgeSecs, p.maxMessages, p.maxDeliveryAttempts, p.dedupWindowSecs))
    fun _ => rfl

def bincode : Bincode := ⟨messageWire.toCodec, policyWire.toCodec⟩

end PelicanQ
