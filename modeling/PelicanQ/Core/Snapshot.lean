import PelicanQ.Core.QueueManager

/-! # Snapshots

`snapshot.rs`: a dump of all queues and its restoration.  Ready, scheduled and
dead-letter messages are dumped without their keys and get new ones when they
are restored; in-flight messages keep their tags.  Dedup records are not dumped.
Restoring writes into whatever the manager holds.
-/

namespace PelicanQ

/-- A queue name, in the order in which a `BTreeMap` keeps its keys: byte by byte. -/
structure QueueName where
  text : String
  deriving DecidableEq

theorem QueueName.utf8_injective : Function.Injective fun name : QueueName => name.text.utf8 := by
  rintro ⟨a⟩ ⟨b⟩ same
  exact congrArg _ (String.utf8_injective same)

instance : LinearOrder QueueName := LinearOrder.lift' _ QueueName.utf8_injective

structure QueueSnapshot where
  policy : RetentionPolicy
  messages : List Message
  scheduled : List Message
  /-- With their delivery tags. -/
  inflight : List (UInt64 × Message)
  deadLetter : List Message
  deriving DecidableEq

structure QueueManagerSnapshot where
  queues : OrdMap QueueName QueueSnapshot
  deriving DecidableEq

/-- The fields of a queue's snapshot in declaration order. -/
def queueSnapshotWire : Wire QueueSnapshot :=
  (policyWire.pair <| (Wire.list messageWire).pair <| (Wire.list messageWire).pair <|
    (Wire.list (.pair .u64 messageWire)).pair (Wire.list messageWire)).imap
    (fun (policy, messages, scheduled, inflight, deadLetter) =>
      ⟨policy, messages, scheduled, inflight, deadLetter⟩)
    (fun qs => (qs.policy, qs.messages, qs.scheduled, qs.inflight, qs.deadLetter))
    fun _ => rfl

/-- A format for snapshots; the source's is JSON, of which only `Codec` is used. -/
def snapshotWire : Wire QueueManagerSnapshot :=
  (Wire.list (.pair .string queueSnapshotWire)).imap
    (fun entries => ⟨entries.foldl (fun queues e => queues.insert ⟨e.1⟩ e.2) .empty⟩)
    (fun snapshot => snapshot.queues.entries.map fun e => (e.1.text, e.2))
    fun snapshot => by
      have entries := OrdMap.foldl_insert_sorted (m := .empty) snapshot.queues.sorted
        fun _ member => nomatch member
      rw [List.foldl_map]
      exact congrArg QueueManagerSnapshot.mk (OrdMap.ext_entries entries)

namespace QueueManager

variable (bc : Bincode)

/-- The values of a tree, in its order. -/
def readMessages : List (Bytes × Bytes) → Action (List Message)
  | [] => pure []
  | (_, value) :: rest => do
      let msg ← deserialize bc value
      let more ← readMessages rest
      pure (msg :: more)

def readInflight : List (Bytes × Bytes) → Action (List (UInt64 × Message))
  | [] => pure []
  | (key, value) :: rest => do
      let bytes ← slice key 0 8
      let tag := UInt64.fromBeBytes bytes
      let msg ← deserialize bc value
      let more ← readInflight rest
      pure ((tag, msg) :: more)

def exportQueue (name : String) : Action QueueSnapshot := do
  let policy ← policyOf bc name
  openTree name
  let messages ← readMessages bc (← iter name)
  openTree (scheduledTreeName name)
  let scheduled ← readMessages bc (← iter (scheduledTreeName name))
  openTree (inflightTreeName name)
  let inflight ← readInflight bc (← iter (inflightTreeName name))
  openTree (dlqTreeName name)
  let deadLetter ← readMessages bc (← iter (dlqTreeName name))
  pure ⟨policy, messages, scheduled, inflight, deadLetter⟩

def exportEach : List String → OrdMap QueueName QueueSnapshot →
    Action (OrdMap QueueName QueueSnapshot)
  | [], queues => pure queues
  | name :: rest, queues => do
      let qs ← exportQueue bc name
      exportEach rest (queues.insert ⟨name⟩ qs)

def exportSnapshot : Action QueueManagerSnapshot := do
  let names ← listQueues
  let queues ← exportEach bc names .empty
  pure ⟨queues⟩

/-- Insert messages under new keys: the loop for the main and the dead-letter tree. -/
def restoreMessages (tree : String) : List Message → Action Unit
  | [] => pure ()
  | msg :: rest => do
      let id ← generateId
      insert tree (encodeKey msg.priority id) (bc.message.encode msg)
      restoreMessages tree rest

def restoreScheduled (name : String) : List Message → Action Unit
  | [] => pure ()
  | msg :: rest => do
      let id ← generateId
      let deliverAt ← match msg.deliverAt with
        | some deliverAt => pure deliverAt
        | none => nowMs
      insert (scheduledTreeName name) (encodeScheduledKey deliverAt id) (bc.message.encode msg)
      restoreScheduled name rest

def restoreInflight (name : String) : List (UInt64 × Message) → Action Unit
  | [] => pure ()
  | (tag, msg) :: rest => do
      insert (inflightTreeName name) tag.toBeBytes (bc.message.encode msg)
      restoreInflight name rest

def restoreQueue (name : String) (qs : QueueSnapshot) : Action Unit := do
  insert metaQueuesTree name.utf8 []
  insert metaRetentionTree name.utf8 (bc.policy.encode qs.policy)
  openTree name
  openTree (inflightTreeName name)
  openTree (dlqTreeName name)
  openTree (scheduledTreeName name)
  openTree (dedupTreeName name)
  openTree name
  restoreMessages bc name qs.messages
  openTree (scheduledTreeName name)
  restoreScheduled bc name qs.scheduled
  openTree (inflightTreeName name)
  restoreInflight bc name qs.inflight
  openTree (dlqTreeName name)
  restoreMessages bc (dlqTreeName name) qs.deadLetter

def restoreEach : List (QueueName × QueueSnapshot) → Action Unit
  | [] => pure ()
  | (name, qs) :: rest => do
      restoreQueue bc name.text qs
      restoreEach rest

def restoreFromSnapshot (snapshot : QueueManagerSnapshot) : Action Unit := do
  restoreEach bc snapshot.queues.entries
  let total ← recalculateBytes
  .ask (.setCurrentBytes total)

end QueueManager

/-- What a manager exports. -/
def exportOf (bc : Bincode) (ids : Nat → UInt64) (qm : QueueManager) :
    Outcome PelicanError QueueManagerSnapshot :=
  (exec ids (fun _ => 0) (QueueManager.exportSnapshot bc) qm).1

/-- Restore a snapshot into a manager. -/
def restoreInto (bc : Bincode) (ids : Nat → UInt64) (clock : Nat → Int64) (qm : QueueManager)
    (snapshot : QueueManagerSnapshot) : Outcome PelicanError Unit × QueueManager :=
  exec ids clock (QueueManager.restoreFromSnapshot bc snapshot) qm

end PelicanQ
