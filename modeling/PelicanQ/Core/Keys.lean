import PelicanQ.Core.Message

/-! # Tree names and key layouts

All trees of all queues live in one namespace of the database: the ready tree
under the bare queue name, the others under a name with a role in front, and
two fixed trees of metadata.  Nothing validates a queue name, so two roles of
two queues can be the same tree; `NonColliding` says when they are not.

Ready and dead-letter keys are one inverted priority byte and an id, scheduled
keys a due time and an id.  The typed keys carry the order that the bytes have.
-/

namespace PelicanQ

def metaQueuesTree : String := "__meta__queues"

def metaRetentionTree : String := "__meta__retention"

def inflightTreeName (name : String) : String := "inflight:" ++ name

def dlqTreeName (name : String) : String := "dlq:" ++ name

def scheduledTreeName (name : String) : String := "scheduled:" ++ name

def dedupTreeName (name : String) : String := "dedup:" ++ name

/-- The five stores of a queue. -/
inductive Role where
  | ready
  | inflight
  | deadLetter
  | scheduled
  | dedup
  deriving DecidableEq, Repr

instance : Fintype Role where
  elems := {.ready, .inflight, .deadLetter, .scheduled, .dedup}
  complete role := by cases role <;> decide

def Role.treeName : Role → String → String
  | .ready, name => name
  | .inflight, name => inflightTreeName name
  | .deadLetter, name => dlqTreeName name
  | .scheduled, name => scheduledTreeName name
  | .dedup, name => dedupTreeName name

/-- How many characters a role puts in front of the queue name. -/
private def Role.tagLength : Role → Nat
  | .ready => 0
  | .inflight => 9
  | .deadLetter => 4
  | .scheduled => 10
  | .dedup => 6

private theorem Role.length_treeName (role : Role) (name : String) :
    (role.treeName name).length = role.tagLength + name.length := by
  cases role <;>
    simp [Role.treeName, inflightTreeName, dlqTreeName, scheduledTreeName, dedupTreeName,
      Role.tagLength, String.length_append] <;> rfl

/-- One queue never uses a tree in two roles. -/
theorem Role.treeName_role {r r' : Role} {name : String}
    (same : r.treeName name = r'.treeName name) : r = r' := by
  have lengths := congrArg String.length same
  rw [r.length_treeName, r'.length_treeName] at lengths
  have tags : r.tagLength = r'.tagLength := by omega
  cases r <;> cases r' <;> first | rfl | (simp [Role.tagLength] at tags)

/-- The trees of the named queues are all different, and none is a metadata tree. -/
structure NonColliding (names : List String) : Prop where
  distinct : ∀ a ∈ names, ∀ b ∈ names, ∀ r r' : Role, r.treeName a = r'.treeName b → a = b
  notQueues : ∀ a ∈ names, ∀ r : Role, r.treeName a ≠ metaQueuesTree
  notRetention : ∀ a ∈ names, ∀ r : Role, r.treeName a ≠ metaRetentionTree

instance (names : List String) : Decidable (NonColliding names) :=
  decidable_of_iff
    ((∀ a ∈ names, ∀ b ∈ names, ∀ r r' : Role, r.treeName a = r'.treeName b → a = b) ∧
      (∀ a ∈ names, ∀ r : Role, r.treeName a ≠ metaQueuesTree) ∧
      ∀ a ∈ names, ∀ r : Role, r.treeName a ≠ metaRetentionTree)
    ⟨fun ⟨distinct, queues, retention⟩ => ⟨distinct, queues, retention⟩,
      fun ⟨distinct, queues, retention⟩ => ⟨distinct, queues, retention⟩⟩

theorem NonColliding.subset {names names' : List String} (apart : NonColliding names')
    (sub : ∀ a ∈ names, a ∈ names') : NonColliding names where
  distinct a ha b hb := apart.distinct a (sub a ha) b (sub b hb)
  notQueues a ha := apart.notQueues a (sub a ha)
  notRetention a ha := apart.notRetention a (sub a ha)

/-- A tree belongs to at most one role of one queue. -/
theorem NonColliding.owner {names : List String} (apart : NonColliding names) {a b : String}
    (ha : a ∈ names) (hb : b ∈ names) {r r' : Role} (same : r.treeName a = r'.treeName b) :
    a = b ∧ r = r' := by
  have name := apart.distinct a ha b hb r r' same
  subst name
  exact ⟨rfl, Role.treeName_role same⟩

/-- `u8::saturating_sub`. -/
def saturatingSub (a b : UInt8) : UInt8 := if b ≤ a then a - b else 0

/-- `priority.min(9)`. -/
def clampPriority (priority : UInt8) : UInt8 := if priority ≤ 9 then priority else 9

/-- The leading byte of a ready key: smaller is delivered earlier. -/
def rank (priority : UInt8) : UInt8 := saturatingSub 9 (clampPriority priority)

def encodeKey (priority : UInt8) (id : UInt64) : Bytes := rank priority :: id.toBeBytes

def encodeScheduledKey (deliverAtMs : Int64) (id : UInt64) : Bytes :=
  deliverAtMs.toUInt64.toBeBytes ++ id.toBeBytes

theorem clampPriority_toNat (p : UInt8) : (clampPriority p).toNat = min p.toNat 9 := by
  unfold clampPriority
  split_ifs with small
  · rw [UInt8.le_iff_toNat_le] at small
    exact (min_eq_left small).symm
  · rw [UInt8.le_iff_toNat_le] at small
    exact (min_eq_right (Nat.le_of_not_le small)).symm

theorem rank_toNat (p : UInt8) : (rank p).toNat = 9 - min p.toNat 9 := by
  have small : clampPriority p ≤ 9 := by
    rw [UInt8.le_iff_toNat_le, clampPriority_toNat]
    exact min_le_right _ _
  rw [rank, saturatingSub, if_pos small, UInt8.toNat_sub_of_le _ _ small, clampPriority_toNat]
  rfl

/-- A smaller leading byte is exactly a higher clamped priority. -/
theorem rank_lt_rank {p p' : UInt8} : rank p < rank p' ↔ clampPriority p' < clampPriority p := by
  rw [UInt8.lt_iff_toNat_lt, UInt8.lt_iff_toNat_lt, rank_toNat, rank_toNat, clampPriority_toNat,
    clampPriority_toNat]
  omega

theorem rank_eq_rank {p p' : UInt8} : rank p = rank p' ↔ clampPriority p = clampPriority p' := by
  rw [← UInt8.toNat_inj, ← UInt8.toNat_inj, rank_toNat, rank_toNat, clampPriority_toNat,
    clampPriority_toNat]
  omega

/-- A ready or dead-letter key: leading byte, then id. -/
abbrev ReadyKey := UInt8 ×ₗ UInt64

/-- A scheduled key: due time as an unsigned word, then id. -/
abbrev DueKey := UInt64 ×ₗ UInt64

def readyKey (priority : UInt8) (id : UInt64) : ReadyKey := toLex (rank priority, id)

def dueKey (deliverAtMs : Int64) (id : UInt64) : DueKey := toLex (deliverAtMs.toUInt64, id)

def ReadyKey.bytes (key : ReadyKey) : Bytes := (ofLex key).1 :: (ofLex key).2.toBeBytes

def DueKey.bytes (key : DueKey) : Bytes := (ofLex key).1.toBeBytes ++ (ofLex key).2.toBeBytes

def ReadyKey.id (key : ReadyKey) : UInt64 := (ofLex key).2

def DueKey.due (key : DueKey) : UInt64 := (ofLex key).1

def DueKey.id (key : DueKey) : UInt64 := (ofLex key).2

@[simp] theorem readyKey_bytes (priority : UInt8) (id : UInt64) :
    ReadyKey.bytes (readyKey priority id) = encodeKey priority id := rfl

@[simp] theorem dueKey_bytes (deliverAtMs : Int64) (id : UInt64) :
    DueKey.bytes (dueKey deliverAtMs id) = encodeScheduledKey deliverAtMs id := rfl

@[simp] theorem readyKey_id (priority : UInt8) (id : UInt64) :
    ReadyKey.id (readyKey priority id) = id := rfl

@[simp] theorem dueKey_id (deliverAtMs : Int64) (id : UInt64) :
    DueKey.id (dueKey deliverAtMs id) = id := rfl

theorem ReadyKey.bytes_strictMono : StrictMono ReadyKey.bytes := by
  intro a b less
  rw [ReadyKey.bytes, ReadyKey.bytes, List.cons_lt_cons_iff]
  rcases Prod.Lex.lt_iff.mp less with first | ⟨same, second⟩
  · exact .inl first
  · exact .inr ⟨same, UInt64.toBeBytes_strictMono second⟩

theorem DueKey.bytes_strictMono : StrictMono DueKey.bytes := by
  intro a b less
  rcases Prod.Lex.lt_iff.mp less with first | ⟨same, second⟩
  · exact Bytes.append_lt (by simp) (UInt64.toBeBytes_strictMono first)
  · rw [DueKey.bytes, DueKey.bytes, same]
    exact List.append_left_lt (UInt64.toBeBytes_strictMono second)

/-- The id stands in bytes 1 to 9. -/
theorem ReadyKey.idBytes_slice (key : ReadyKey) :
    ((ReadyKey.bytes key).take 9).drop 1 = (ReadyKey.id key).toBeBytes := by
  rw [ReadyKey.bytes, List.take_of_length_le (by simp), List.drop_one, List.tail_cons, ReadyKey.id]

theorem ReadyKey.id_slice (key : ReadyKey) :
    UInt64.fromBeBytes ((ReadyKey.bytes key).drop 1) = ReadyKey.id key := by
  rw [ReadyKey.bytes, List.drop_one, List.tail_cons, UInt64.fromBeBytes_toBeBytes, ReadyKey.id]

/-- The due time is read back from the first eight bytes. -/
theorem DueKey.due_slice (key : DueKey) :
    UInt64.fromBeBytes ((DueKey.bytes key).take 8) = DueKey.due key := by
  rw [DueKey.bytes, List.take_left' (UInt64.length_toBeBytes _), UInt64.fromBeBytes_toBeBytes]
  rfl

@[simp] theorem ReadyKey.length_bytes (key : ReadyKey) : (ReadyKey.bytes key).length = 9 := by
  simp only [ReadyKey.bytes, List.length_cons, UInt64.length_toBeBytes]

@[simp] theorem DueKey.length_bytes (key : DueKey) : (DueKey.bytes key).length = 16 := by
  simp only [DueKey.bytes, List.length_append, UInt64.length_toBeBytes]

/-- Ready keys sort the higher priority first, and the smaller id first within one priority. -/
theorem encodeKey_lt (p p' : UInt8) (i i' : UInt64) :
    encodeKey p i < encodeKey p' i' ↔
      min p'.toNat 9 < min p.toNat 9 ∨ min p.toNat 9 = min p'.toNat 9 ∧ i < i' := by
  rw [← readyKey_bytes, ← readyKey_bytes, ReadyKey.bytes_strictMono.lt_iff_lt, Prod.Lex.lt_iff]
  change rank p < rank p' ∨ rank p = rank p' ∧ i < i' ↔ _
  rw [rank_lt_rank, rank_eq_rank, UInt8.lt_iff_toNat_lt, ← UInt8.toNat_inj, clampPriority_toNat,
    clampPriority_toNat]

theorem encodeKey_inj (p p' : UInt8) (i i' : UInt64) :
    encodeKey p i = encodeKey p' i' ↔ min p.toNat 9 = min p'.toNat 9 ∧ i = i' := by
  rw [← readyKey_bytes, ← readyKey_bytes, ReadyKey.bytes_strictMono.injective.eq_iff, readyKey,
    readyKey, toLex_inj, Prod.mk.injEq, rank_eq_rank, ← UInt8.toNat_inj, clampPriority_toNat,
    clampPriority_toNat]

/-- Scheduled keys sort by due time and then by id.  A negative due time would sort as a large
    unsigned word. -/
theorem encodeScheduledKey_lt {d d' : Int64} (nonneg : 0 ≤ d) (nonneg' : 0 ≤ d')
    (i i' : UInt64) :
    encodeScheduledKey d i < encodeScheduledKey d' i' ↔ d < d' ∨ d = d' ∧ i < i' := by
  rw [← dueKey_bytes, ← dueKey_bytes, DueKey.bytes_strictMono.lt_iff_lt, Prod.Lex.lt_iff]
  change d.toUInt64 < d'.toUInt64 ∨ d.toUInt64 = d'.toUInt64 ∧ i < i' ↔ _
  rw [Int64.toUInt64_lt_of_nonneg nonneg nonneg', Int64.toUInt64_injective.eq_iff]

/-- The two key formats carry the orders that delivery and promotion rely on, and what is read
    back from a key is what was written into it. -/
theorem keys_embed_orders :
    (∀ (p p' : UInt8) (i i' : UInt64),
      (encodeKey p i < encodeKey p' i' ↔
        min p'.toNat 9 < min p.toNat 9 ∨ min p.toNat 9 = min p'.toNat 9 ∧ i < i') ∧
      (encodeKey p i = encodeKey p' i' ↔ min p.toNat 9 = min p'.toNat 9 ∧ i = i') ∧
      UInt64.fromBeBytes (((encodeKey p i).take 9).drop 1) = i) ∧
    (∀ (d d' : Int64) (i i' : UInt64), 0 ≤ d → 0 ≤ d' →
      (encodeScheduledKey d i < encodeScheduledKey d' i' ↔ d < d' ∨ d = d' ∧ i < i') ∧
      (UInt64.fromBeBytes ((encodeScheduledKey d i).take 8)).toInt64 = d) := by
  refine ⟨fun p p' i i' => ⟨encodeKey_lt p p' i i', encodeKey_inj p p' i i', ?_⟩,
    fun d d' i i' nonneg nonneg' => ⟨encodeScheduledKey_lt nonneg nonneg' i i', ?_⟩⟩
  · rw [← readyKey_bytes, ReadyKey.idBytes_slice, UInt64.fromBeBytes_toBeBytes, readyKey_id]
  · rw [← dueKey_bytes, DueKey.due_slice]
    exact Int64.toInt64_toUInt64 d

/-- Priorities 9 and 200 share a class, in which the smaller id comes first, and the epoch comes
    before the millisecond after it. -/
theorem urgent_keys_ordered :
    encodeKey 200 1 < encodeKey 9 2 ∧ encodeScheduledKey 0 7 < encodeScheduledKey 1 0 :=
  ⟨(keys_embed_orders.1 200 9 1 2).1.mpr (.inr (by decide)),
    (keys_embed_orders.2 0 1 7 0 (by decide) (by decide)).1.mpr (.inl (by decide))⟩

end PelicanQ
