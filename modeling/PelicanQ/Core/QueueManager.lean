import PelicanQ.Core.Keys
import PelicanQ.Sled.Database

/-! # The queue manager

`queue.rs`, one definition for each method, as programs over the database, the
clock and the two fields the manager keeps in memory.  Integer arithmetic wraps,
as in the release build the documentation has users run; slices out of range
panic in every build.  Every database call is followed in the source by
`map_err(..)?`, so a failing call ends the method with `Storage`; here calls do
not fail.
-/

namespace PelicanQ

/-- The manager: its database and the two fields it keeps in memory.  The
    metadata trees are reached by name. -/
structure QueueManager where
  db : Sled.Db
  currentBytes : UInt64
  maxBytes : Option UInt64

/-- What a method asks of its surroundings. -/
inductive Call : Type → Type 1 where
  | sled {β : Type} (c : Sled.Call β) : Call β
  | nowMs : Call Int64
  | currentBytes : Call UInt64
  | setCurrentBytes (bytes : UInt64) : Call Unit
  | maxBytes : Call (Option UInt64)

/-- A manager inside a method, with the clock readings the method will get. -/
structure Machine where
  manager : QueueManager
  clock : Nat → Int64

/-- The readings after the first. -/
def later (clock : Nat → Int64) : Nat → Int64 := fun n => clock (n + 1)

def handle (ids : Nat → UInt64) : Handler Call Machine
  | _, .sled c, s =>
      let (answer, db) := Sled.handle ids _ c s.manager.db
      (answer, { s with manager := { s.manager with db := db } })
  | _, .nowMs, s => (s.clock 0, { s with clock := later s.clock })
  | _, .currentBytes, s => (s.manager.currentBytes, s)
  | _, .setCurrentBytes bytes, s =>
      ((), { s with manager := { s.manager with currentBytes := bytes } })
  | _, .maxBytes, s => (s.manager.maxBytes, s)

abbrev Action (α : Type) := Program Call PelicanError α

/-- Run a method on a manager. -/
def exec {α : Type} (ids : Nat → UInt64) (clock : Nat → Int64) (action : Action α)
    (qm : QueueManager) : Outcome PelicanError α × QueueManager :=
  let (outcome, s) := action.run (handle ids) ⟨qm, clock⟩
  (outcome, s.manager)

section Calls

def openTree (tree : String) : Action Unit := .ask (.sled (.openTree tree))

def containsKey (tree : String) (key : Bytes) : Action Bool := .ask (.sled (.containsKey tree key))

def get (tree : String) (key : Bytes) : Action (Option Bytes) := .ask (.sled (.get tree key))

def insert (tree : String) (key value : Bytes) : Action Unit :=
  .ask (.sled (.insert tree key value))

def remove (tree : String) (key : Bytes) : Action (Option Bytes) :=
  .ask (.sled (.remove tree key))

def iter (tree : String) : Action (List (Bytes × Bytes)) := .ask (.sled (.iter tree))

def transaction {β : Type} (body : Sled.Tx β) : Action (Option β) :=
  .ask (.sled (.transaction body))

def generateId : Action UInt64 := .ask (.sled .generateId)

/-- `Message::now_ms`. -/
def nowMs : Action Int64 := .ask .nowMs

/-- `&bytes[start..stop]`. -/
def slice (bytes : Bytes) (start stop : Nat) : Action Bytes :=
  if stop ≤ bytes.length then pure ((bytes.take stop).drop start) else .panic

end Calls

namespace QueueManager

variable (bc : Bincode)

def deserialize (value : Bytes) : Action Message :=
  match bc.message.decode value with
  | .ok msg => pure msg
  | .error e => .fail (.serialization e)

/-- The check every operation on an existing queue starts with. -/
def requireQueue (queue : String) : Action Unit := do
  if ← containsKey metaQueuesTree queue.utf8 then pure () else .fail (.queueNotFound queue)

/-- The policy on record, or the default when there is none that can be read. -/
def policyOf (queue : String) : Action RetentionPolicy := do
  let found ← get metaRetentionTree queue.utf8
  pure ((found.bind fun b => (bc.policy.decode b).toOption).getD default)

def listQueues : Action (List String) := do
  let entries ← iter metaQueuesTree
  pure (entries.filterMap fun e => String.ofUtf8 e.1)

/-- Add the value sizes of a tree to a running total. -/
def addTreeBytes (total : UInt64) (tree : String) : Action UInt64 := do
  openTree tree
  let entries ← iter tree
  pure (entries.foldl (fun total e => total + UInt64.ofNat e.2.length) total)

def recalculateBytes : Action UInt64 := do
  let names ← listQueues
  names.foldlM (fun total name => do
    let total ← addTreeBytes total name
    let total ← addTreeBytes total (inflightTreeName name)
    let total ← addTreeBytes total (dlqTreeName name)
    let total ← addTreeBytes total (scheduledTreeName name)
    addTreeBytes total (dedupTreeName name)) 0

/-- Copy in-flight values back to the ready tree under fresh keys. -/
def requeueAll (name : String) : List (Bytes × Bytes) → Action Unit
  | [] => pure ()
  | (_, value) :: rest => do
      let msg ← deserialize bc value
      let newId ← generateId
      insert name (encodeKey msg.priority newId) value
      requeueAll name rest

def removeAll (tree : String) : List Bytes → Action Unit
  | [] => pure ()
  | key :: rest => do
      let _ ← remove tree key
      removeAll tree rest

def recoverQueue (name : String) : Action Unit := do
  openTree (inflightTreeName name)
  openTree name
  let entries ← iter (inflightTreeName name)
  requeueAll bc name entries
  removeAll (inflightTreeName name) (entries.map Prod.fst)

def recoverEach : List String → Action Unit
  | [] => pure ()
  | name :: rest => do
      recoverQueue bc name
      recoverEach rest

def recoverInflight : Action Unit := do
  let names ← listQueues
  recoverEach bc names

/-- The body of `QueueManager::open`, once the database itself is open. -/
def openBody : Action Unit := do
  openTree metaQueuesTree
  openTree metaRetentionTree
  let total ← recalculateBytes
  .ask (.setCurrentBytes total)
  recoverInflight bc

/-- `QueueManager::open` on a data directory. -/
def «open» (ids : Nat → UInt64) (clock : Nat → Int64) (maxBytes : Option UInt64) (db : Sled.Db) :
    Outcome PelicanError Unit × QueueManager :=
  exec ids clock (openBody bc) ⟨db, 0, maxBytes⟩

def declareQueueWithRetention (name : String) (policy : RetentionPolicy) : Action Unit := do
  if ← containsKey metaQueuesTree name.utf8 then .fail (.queueAlreadyExists name) else
    insert metaQueuesTree name.utf8 []
    openTree name
    openTree (inflightTreeName name)
    openTree (dlqTreeName name)
    openTree (scheduledTreeName name)
    openTree (dedupTreeName name)
    insert metaRetentionTree name.utf8 (bc.policy.encode policy)

def declareQueue (name : String) : Action Unit := declareQueueWithRetention bc name default

/-- Is the message's key recorded within the policy's window? -/
def isDuplicate (queue : String) (message : Message) (policy : RetentionPolicy) : Action Bool :=
  match policy.dedupWindowSecs, message.dedupKey with
  | some windowSecs, some dedupKey =>
      if 0 < windowSecs then do
        openTree (dedupTreeName queue)
        match ← get (dedupTreeName queue) dedupKey.utf8 with
        | some recorded => do
            let bytes ← slice recorded 0 8
            let recordedMs := Int64.fromBeBytes bytes
            let windowMs := windowSecs.toInt64 * 1000
            let now ← nowMs
            pure (decide (now - windowMs < recordedMs))
        | none => pure false
      else pure false
  | _, _ => pure false

def checkLimit (msgLen : UInt64) : Action Unit := do
  match ← .ask .maxBytes with
  | none => pure ()
  | some max => do
      let current ← .ask .currentBytes
      if max < current + msgLen then
        let usedPct := if 0 < max then (current * 100 / max).toUInt8 else 100
        .fail (.storageLimitExceeded usedPct 100)
      else pure ()

def addBytes (msgLen : UInt64) : Action Unit := do
  let current ← .ask .currentBytes
  .ask (.setCurrentBytes (current + msgLen))

def recordDedupKey (queue : String) (message : Message) (policy : RetentionPolicy) : Action Unit :=
  match policy.dedupWindowSecs, message.dedupKey with
  | some _, some dedupKey => do
      openTree (dedupTreeName queue)
      let now ← nowMs
      insert (dedupTreeName queue) dedupKey.utf8 now.toBeBytes
  | _, _ => pure ()

/-- The delivery time of a message that is not due yet. -/
def notYetDue (message : Message) : Action (Option Int64) :=
  match message.deliverAt with
  | some deliverAt => do
      let now ← nowMs
      pure (if now < deliverAt then some deliverAt else none)
  | none => pure none

def publish (queue : String) (message : Message) : Action PublishOutcome := do
  requireQueue queue
  let policy ← policyOf bc queue
  if ← isDuplicate queue message policy then pure .deduplicated else
    let value := bc.message.encode message
    let msgLen := UInt64.ofNat value.length
    checkLimit msgLen
    let id ← generateId
    match ← notYetDue message with
    | some deliverAt => do
        openTree (scheduledTreeName queue)
        insert (scheduledTreeName queue) (encodeScheduledKey deliverAt id) value
        addBytes msgLen
        recordDedupKey queue message policy
        pure (.stored message.id)
    | none => do
        openTree queue
        insert queue (encodeKey message.priority id) value
        addBytes msgLen
        recordDedupKey queue message policy
        pure (.stored message.id)

/-- The transaction of `consume`: from the ready tree to the in-flight tree. -/
def deliverTx (queue : String) (key idBytes : Bytes) : Sled.Tx Bytes :=
  .remove queue key fun
    | some value => .insert (inflightTreeName queue) idBytes value (.commit value)
    | none => .abort

/-- The loop of `consume`.  A pass that finds its key gone starts over; with
    exclusive access the key is there, so one pass is enough. -/
def consumeLoop (queue : String) : (passes : Nat) → Action (Option (DeliveryTag × Message))
  | 0 => .diverge
  | passes + 1 => do
      match (← iter queue).head? with
      | none => pure none
      | some (key, _) => do
          let idBytes ← slice key 1 9
          let id := UInt64.fromBeBytes idBytes
          match ← transaction (deliverTx queue key idBytes) with
          | some value => do
              let msg ← deserialize bc value
              pure (some (id, msg))
          | none => consumeLoop queue passes

def consume (queue : String) : Action (Option (DeliveryTag × Message)) := do
  requireQueue queue
  openTree queue
  openTree (inflightTreeName queue)
  consumeLoop bc queue 1

/-- `u64::saturating_sub`. -/
def saturatingSub64 (a b : UInt64) : UInt64 := if b ≤ a then a - b else 0

def ack (queue : String) (tag : DeliveryTag) : Action Unit := do
  requireQueue queue
  openTree (inflightTreeName queue)
  match ← remove (inflightTreeName queue) tag.toBeBytes with
  | some value => do
      let current ← .ask .currentBytes
      .ask (.setCurrentBytes (saturatingSub64 current (UInt64.ofNat value.length)))
  | none => .fail (.invalidDeliveryTag tag)

/-- Has a message used up the attempts its queue allows? -/
def exhausted (maxAttempts : Option UInt32) (attempts : UInt32) : Bool :=
  match maxAttempts with
  | some max => decide (0 < max ∧ max ≤ attempts)
  | none => false

/-- The transaction of `nack`: from the in-flight tree to the ready tree or the
    dead letters. -/
def returnTx (queue : String) (policy : RetentionPolicy) (tag : DeliveryTag) (newId : UInt64) :
    Sled.Tx Unit :=
  .remove (inflightTreeName queue) tag.toBeBytes fun
    | none => .abort
    | some value =>
        match bc.message.decode value with
        | .error _ => .abort
        | .ok msg =>
            let msg := { msg with deliveryAttempts := msg.deliveryAttempts + 1 }
            let newValue := bc.message.encode msg
            let newKey := encodeKey msg.priority newId
            if exhausted policy.maxDeliveryAttempts msg.deliveryAttempts then
              .insert (dlqTreeName queue) newKey newValue (.commit ())
            else .insert queue newKey newValue (.commit ())

def nack (queue : String) (tag : DeliveryTag) : Action Unit := do
  requireQueue queue
  let policy ← policyOf bc queue
  openTree queue
  openTree (inflightTreeName queue)
  openTree (dlqTreeName queue)
  let newId ← generateId
  match ← transaction (returnTx bc queue policy tag newId) with
  | some () => pure ()
  | none => .fail (.invalidDeliveryTag tag)

/-- The scan of `promote_scheduled`: it stops at the first key that is not due. -/
def collectDue (now : Int64) : List (Bytes × Bytes) → Action (List (Bytes × Bytes))
  | [] => pure []
  | (key, value) :: rest => do
      let bytes ← slice key 0 8
      let deliverAtMs := (UInt64.fromBeBytes bytes).toInt64
      if now < deliverAtMs then pure [] else
        let more ← collectDue now rest
        pure ((key, value) :: more)

/-- The transaction of `promote_scheduled`, for one message. -/
def promoteTx (queue : String) (scheduledKey mainKey value : Bytes) : Sled.Tx Unit :=
  .remove (scheduledTreeName queue) scheduledKey fun _ => .insert queue mainKey value (.commit ())

def promoteEach (queue : String) : List (Bytes × Bytes) → (promoted : Nat) → Action Nat
  | [], promoted => pure promoted
  | (scheduledKey, value) :: rest, promoted => do
      let msg ← deserialize bc value
      let newId ← generateId
      let mainKey := encodeKey msg.priority newId
      match ← transaction (promoteTx queue scheduledKey mainKey value) with
      | some () => promoteEach queue rest (promoted + 1)
      | none => promoteEach queue rest promoted

def promoteScheduled (queue : String) : Action Nat := do
  requireQueue queue
  openTree (scheduledTreeName queue)
  openTree queue
  let now ← nowMs
  let toPromote ← collectDue now (← iter (scheduledTreeName queue))
  promoteEach bc queue toPromote 0

/-- The keys of a ready tree whose messages are too old. -/
def collectExpired (now maxAgeMs : Int64) : List (Bytes × Bytes) → Action (List Bytes)
  | [] => pure []
  | (key, value) :: rest => do
      let msg ← deserialize bc value
      let more ← collectExpired now maxAgeMs rest
      pure (if maxAgeMs ≤ now - msg.timestamp then key :: more else more)

def removeExpired (queue : String) : Option UInt64 → Action Nat
  | none => pure 0
  | some maxAgeSecs => do
      let now ← nowMs
      let maxAgeMs := maxAgeSecs.toInt64 * 1000
      let toRemove ← collectExpired bc now maxAgeMs (← iter queue)
      removeAll queue toRemove
      pure toRemove.length

def removeExcess (queue : String) : Option UInt64 → Action Nat
  | none => pure 0
  | some maxMessages => do
      let entries ← iter queue
      if maxMessages.toNat < entries.length then
        let toRemove := (entries.take (entries.length - maxMessages.toNat)).map Prod.fst
        removeAll queue toRemove
        pure toRemove.length
      else pure 0

def applyRetention (queue : String) : Action Nat := do
  requireQueue queue
  let policy ← policyOf bc queue
  if policy.maxAgeSecs = none ∧ policy.maxMessages = none then pure 0 else
    openTree queue
    let expired ← removeExpired bc queue policy.maxAgeSecs
    let excess ← removeExcess queue policy.maxMessages
    let removed := expired + excess
    if 0 < removed then
      let total ← recalculateBytes
      .ask (.setCurrentBytes total)
      pure removed
    else pure removed

end QueueManager

end PelicanQ
