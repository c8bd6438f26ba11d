import PelicanQ.Broker.Contents
import PelicanQ.Broker.Script

/-! # Bytes

How many bytes the values of a broker take, counted in natural numbers, and what
an operation does to that count and to the counter the broker keeps.  The
counter is moved by publishes and acks and set by recounts; a recount also sees
the dedup records, which no operation adds to the counter.
-/

namespace PelicanQ

/-- Numbers are written in full width, so a delivery does not change a message's size. -/
def Bincode.FixedWidth (bc : Bincode) : Prop :=
  ∀ m : Message, (bc.message.encode m.content).length = (bc.message.encode m).length

/-- The bytes of the values in a tree. -/
def treeBytes (tree : Sled.Tree) : Nat := tree.sum List.length

/-- The bytes that messages take. -/
def bytesOf (bc : Bincode) (messages : Multiset Message) : Nat :=
  (messages.map fun m => (bc.message.encode m).length).sum

section Messages

variable (bc : Bincode)

@[simp] theorem bytesOf_zero : bytesOf bc 0 = 0 := rfl

@[simp] theorem bytesOf_singleton (m : Message) :
    bytesOf bc {m} = (bc.message.encode m).length := by
  rw [bytesOf, Multiset.map_singleton, Multiset.sum_singleton]

@[simp] theorem bytesOf_add (ms ms' : Multiset Message) :
    bytesOf bc (ms + ms') = bytesOf bc ms + bytesOf bc ms' := by
  rw [bytesOf, Multiset.map_add, Multiset.sum_add]
  rfl

/-- The bytes of a store's tree. -/
theorem treeBytes_image (fixed : bc.FixedWidth) {K : Type} [LinearOrder K] (f : K → Bytes)
    (mono : StrictMono f) (store : OrdMap K Message) :
    treeBytes (store.image f mono bc.message.encode) = bytesOf bc (tally store) := by
  have lengths : store.entries.map (fun e => (bc.message.encode e.2.content).length) =
      store.entries.map fun e => (bc.message.encode e.2).length :=
    List.map_congr_left fun e _ => fixed e.2
  rw [treeBytes, OrdMap.sum, OrdMap.values, OrdMap.image_entries, List.map_map, List.map_map,
    bytesOf, tally, Multiset.map_coe, Multiset.sum_coe, List.map_map]
  exact congrArg List.sum lengths.symm

end Messages

namespace QueueState

variable (bc : Bincode) (st : QueueState)

/-- The bytes of the messages a queue holds. -/
def messageBytes : Nat := bytesOf bc st.contents

/-- The dedup keys a queue has on record. -/
def keyCount : Nat := st.dedup.entries.length

/-- The dedup keys a publish adds: one, unless it is on record already. -/
def newKeys (m : Message) : Nat :=
  match st.policy.dedupWindowSecs, m.dedupKey with
  | some _, some key => if key.utf8 ∈ st.dedup.keys then 0 else 1
  | _, _ => 0

variable {bc st}

/-- What the trees of a queue take: the messages, and eight bytes for each key on record. -/
theorem treesOf_bytes (fixed : bc.FixedWidth) :
    ((Broker.treesOf bc st).map treeBytes).sum = st.messageBytes bc + 8 * st.keyCount := by
  have dedup : treeBytes (st.tree bc .dedup) = 8 * st.keyCount := by
    have eight : st.dedup.entries.map (fun e => (Int64.toBeBytes e.2).length) =
        st.dedup.entries.map fun _ => 8 := List.map_congr_left fun e _ => rfl
    rw [treeBytes, OrdMap.sum, OrdMap.values, QueueState.tree, OrdMap.mapValues_entries,
      List.map_map, List.map_map]
    refine (congrArg List.sum eight).trans ?_
    rw [List.map_const', List.sum_replicate, keyCount, smul_eq_mul, Nat.mul_comm]
  rw [Broker.treesOf, List.map_cons, List.map_cons, List.map_cons, List.map_cons, List.map_cons,
    List.map_nil, dedup]
  simp only [QueueState.tree, treeBytes_image bc fixed, List.sum_cons, List.sum_nil, messageBytes,
    contents, bytesOf_add]
  omega

theorem dedup_move (id : UInt64) {mv : Move} (other : ∀ key time, mv ≠ .record key time) :
    (st.move id mv).dedup = st.dedup := by
  cases mv with
  | record key time => exact absurd rfl (other key time)
  | store m due => cases due <;> rfl
  | retry tag m =>
      simp only [QueueState.move, Move.changes]
      split_ifs <;> rfl
  | deliver | settle | promote | discard | requeue => rfl

theorem keyCount_record (id : UInt64) (key : Bytes) (time : Int64) :
    (st.move id (.record key time)).keyCount =
      st.keyCount + if key ∈ st.dedup.keys then 0 else 1 := by
  have count (m : OrdMap Bytes Int64) : m.entries.length = m.sum fun _ => 1 := by
    rw [OrdMap.sum, List.map_const', List.sum_replicate, OrdMap.values, List.length_map,
      smul_eq_mul, Nat.mul_one]
  change (st.dedup.insert key time).entries.length = _
  rw [keyCount, count, count]
  split_ifs with listed
  · obtain ⟨old, present⟩ := OrdMap.mem_keys.mp listed
    exact Nat.add_right_cancel (OrdMap.sum_replace present _ _)
  · exact OrdMap.sum_insert listed _ _

end QueueState

namespace Broker

/-- A quantity of queues, summed over a broker. -/
def sum (f : QueueState → Nat) (b : Broker) : Nat := b.queues.sum f

def messageBytes (bc : Bincode) (b : Broker) : Nat := b.sum (QueueState.messageBytes bc)

def keyCount (b : Broker) : Nat := b.sum QueueState.keyCount

variable {bc : Bincode} {ids : Nat → UInt64} {b : Broker} {name : String} {st : QueueState}

variable (ids) in
theorem sum_move (declared : b.queue name = some st) (f : QueueState → Nat) (mv : Move) :
    (b.move ids name mv).sum f + f st = b.sum f + f (st.move (ids b.drawn) mv) := by
  rw [move_declared declared, sum, queues_advance]
  simp only [change, declared]
  exact OrdMap.sum_replace declared f _

variable (ids) in
theorem keyCount_move (declared : b.queue name = some st) {mv : Move}
    (other : ∀ key time, mv ≠ .record key time) :
    (b.move ids name mv).keyCount = b.keyCount := by
  have total := sum_move ids declared QueueState.keyCount mv
  rw [QueueState.keyCount, QueueState.keyCount, QueueState.dedup_move _ other] at total
  exact Nat.add_right_cancel total

theorem sum_declare (undeclared : b.queue name = none) (f : QueueState → Nat) (st : QueueState) :
    ({ b with queues := b.queues.insert name.utf8 st } : Broker).sum f = b.sum f + f st :=
  OrdMap.sum_insert (OrdMap.get_eq_none.mp undeclared) f st

/-- Every queue has a name. -/
theorem sum_names (utf8 : ∀ key ∈ b.queues.keys, ∃ name : String, key = name.utf8)
    (f : QueueState → Nat) :
    (b.names.map fun name => ((b.queue name).map f).getD 0).sum = b.sum f := by
  suffices each : ∀ entries : List (Bytes × QueueState),
      (∀ e ∈ entries, e ∈ b.queues.entries) →
      ((entries.map Prod.fst).filterMap String.ofUtf8).map
        (fun name => ((b.queue name).map f).getD 0) = entries.map fun e => f e.2 by
    rw [names, OrdMap.keys, each _ fun e member => member, sum, OrdMap.sum, OrdMap.values,
      List.map_map]
    rfl
  intro entries inside
  induction entries with
  | nil => rfl
  | cons e entries ih =>
      have here := inside e List.mem_cons_self
      obtain ⟨name, key⟩ := utf8 e.1 (List.mem_map_of_mem here)
      have declared : b.queue name = some e.2 := OrdMap.get_eq_some.mpr (key ▸ here)
      rw [List.map_cons, List.map_cons, key, List.filterMap_cons, String.ofUtf8_utf8, List.map_cons,
        declared, ih fun e member => inside e (List.mem_cons_of_mem _ member)]
      rfl

theorem addTree_eq (total : UInt64) (tree : Sled.Tree) :
    addTree total tree = total + UInt64.ofNat (treeBytes tree) := by
  rw [addTree, treeBytes, OrdMap.sum, OrdMap.values, List.map_map]
  induction tree.entries generalizing total with
  | nil => simp
  | cons e entries ih =>
      rw [List.foldl_cons, ih, List.map_cons, List.sum_cons, UInt64.ofNat_add, UInt64.add_assoc]
      rfl

theorem foldl_addTree (total : UInt64) (trees : List Sled.Tree) :
    trees.foldl addTree total = total + UInt64.ofNat (trees.map treeBytes).sum := by
  induction trees generalizing total with
  | nil => simp
  | cons tree trees ih =>
      rw [List.foldl_cons, ih, addTree_eq, List.map_cons, List.sum_cons, UInt64.ofNat_add,
        UInt64.add_assoc]

theorem sum_stored : (b.sum fun st => st.messageBytes bc + 8 * st.keyCount) =
    b.messageBytes bc + 8 * b.keyCount := by
  simp only [messageBytes, keyCount, sum, OrdMap.sum, List.sum_map_add, List.sum_map_mul_left]

/-- What a recount finds, store by store. -/
theorem totalBytes_sum (utf8 : ∀ key ∈ b.queues.keys, ∃ name : String, key = name.utf8) :
    b.totalBytes bc = UInt64.ofNat (b.sum fun st => ((treesOf bc st).map treeBytes).sum) := by
  let stored (st : QueueState) : Nat := ((treesOf bc st).map treeBytes).sum
  have each (names : List String) (total : UInt64) :
      names.foldl (fun total name =>
        (((b.queue name).map (treesOf bc)).getD []).foldl addTree total) total =
          total + UInt64.ofNat (names.map fun name => ((b.queue name).map stored).getD 0).sum := by
    induction names generalizing total with
    | nil => simp
    | cons name names ih =>
        have one : ((((b.queue name).map (treesOf bc)).getD []).map treeBytes).sum =
            ((b.queue name).map stored).getD 0 := by
          cases b.queue name <;> rfl
        rw [List.foldl_cons, ih, foldl_addTree, one, List.map_cons, List.sum_cons,
          UInt64.ofNat_add, UInt64.add_assoc]
  rw [totalBytes, each, sum_names utf8, UInt64.zero_add]

/-- What a recount finds. -/
theorem totalBytes_eq (fixed : bc.FixedWidth)
    (utf8 : ∀ key ∈ b.queues.keys, ∃ name : String, key = name.utf8) :
    b.totalBytes bc = UInt64.ofNat (b.messageBytes bc + 8 * b.keyCount) := by
  have each : (fun st => ((treesOf bc st).map treeBytes).sum) =
      fun st : QueueState => st.messageBytes bc + 8 * st.keyCount :=
    funext fun _ => QueueState.treesOf_bytes fixed
  rw [totalBytes_sum utf8, each, sum_stored]

theorem moves_bytes (b : Broker) (name : String) (mvs : List Move) :
    (b.moves ids name mvs).bytes = b.bytes := by
  induction mvs generalizing b with
  | nil => rfl
  | cons mv mvs ih => rw [moves_cons, ih, move_bytes]

theorem recoverEach_bytes (names : List String) (b : Broker) :
    (names.foldl (recoverQueue ids) b).bytes = b.bytes := by
  induction names generalizing b with
  | nil => rfl
  | cons first names ih =>
      rw [List.foldl_cons, ih, recoverQueue]
      cases b.queue first with
      | none => rfl
      | some st => exact moves_bytes b first _

variable (ids) in
/-- Storing a message adds the key it brings. -/
theorem keyCount_store (declared : b.queue name = some st) (m : Message)
    (clock clock' : Nat → Int64) :
    (b.moves ids name (.store m (notYetDue m clock).1 :: st.recordDedup m clock')).keyCount =
      b.keyCount + st.newKeys m := by
  have first : (b.move ids name (.store m (notYetDue m clock).1)).keyCount = b.keyCount :=
    keyCount_move ids declared fun _ _ => nofun
  have declared₁ : (b.move ids name (.store m (notYetDue m clock).1)).queue name = _ :=
    move_queue declared _
  have dedup : (st.move (ids b.drawn) (.store m (notYetDue m clock).1)).dedup = st.dedup :=
    QueueState.dedup_move _ fun _ _ => nofun
  rw [moves_cons]
  unfold QueueState.recordDedup QueueState.newKeys
  cases st.policy.dedupWindowSecs with
  | none => exact first
  | some windowSecs =>
      cases m.dedupKey with
      | none => exact first
      | some key =>
          have total := sum_move ids declared₁ QueueState.keyCount (.record key.utf8 (clock' 0))
          rw [QueueState.keyCount_record, dedup] at total
          change keyCount _ + _ = keyCount _ + _ at total
          change keyCount (move ids _ name (.record key.utf8 (clock' 0))) = _
          dsimp only
          omega

/-- A publish either stores its message or leaves the keys as they are. -/
theorem keyCount_publish (declared : b.queue name = some st) (clock : Nat → Int64) (m : Message) :
    ((b.publish bc ids clock name m).1 = .ok (.stored m.id) ∧
      (b.publish bc ids clock name m).2.keyCount = b.keyCount + st.newKeys m) ∨
    ((b.publish bc ids clock name m).1 ≠ .ok (.stored m.id) ∧
      (b.publish bc ids clock name m).2.keyCount = b.keyCount) := by
  simp only [publish, declared]
  split_ifs
  · exact .inr ⟨by rintro ⟨⟩, rfl⟩
  · cases b.limitError (size bc m) with
    | some e => exact .inr ⟨by rintro ⟨⟩, rfl⟩
    | none => exact .inl ⟨rfl, keyCount_store ids declared m _ _⟩

end Broker

/-! ## Moves -/

namespace Path

variable {bc : Bincode} {ids : Nat → UInt64} {b b' : Broker} {moves : List (String × Move)}

variable (bc) in
/-- The bytes of the messages follow what moves bring in and take out. -/
theorem messageBytes (path : Path ids b moves b') (sound : b.Sound ids)
    (increasing : StrictMonoOn ids (Set.Iio b'.drawn)) :
    b'.messageBytes bc + (moves.map fun x => bytesOf bc x.2.outgoing).sum =
      b.messageBytes bc + (moves.map fun x => bytesOf bc x.2.incoming).sum := by
  induction path with
  | done => rfl
  | idle queues drawn _ ih =>
      rw [ih (sound.idle queues drawn) increasing, Broker.messageBytes, Broker.sum, queues]
      rfl
  | declare undeclared _ ih =>
      rw [ih (sound.declare _ _) increasing, Broker.messageBytes, Broker.sum_declare undeclared]
      rfl
  | @move b b' name st mv moves declared enabled more ih =>
      have upTo := increasing.mono (Set.Iio_subset_Iio more.drawn_le)
      have rest := ih (sound.move declared enabled upTo) increasing
      rw [Broker.move_drawn declared] at upTo
      have one := congrArg (bytesOf bc)
        ((sound.queues name st declared).contents_move enabled upTo)
      rw [bytesOf_add, bytesOf_add] at one
      have total := Broker.sum_move ids declared (QueueState.messageBytes bc) mv
      rw [List.map_cons, List.map_cons, List.sum_cons, List.sum_cons]
      simp only [Broker.messageBytes, QueueState.messageBytes] at rest total ⊢
      omega

/-- Only a record adds to the keys. -/
theorem keyCount (path : Path ids b moves b')
    (others : ∀ x ∈ moves, ∀ key time, x.2 ≠ .record key time) : b'.keyCount = b.keyCount := by
  induction path with
  | done => rfl
  | idle queues _ _ ih =>
      rw [ih others, Broker.keyCount, Broker.sum, queues]
      rfl
  | declare undeclared _ ih =>
      rw [ih others, Broker.keyCount, Broker.sum_declare undeclared]
      rfl
  | @move b b' name st mv moves declared _ _ ih =>
      rw [ih fun x member => others x (List.mem_cons_of_mem _ member),
        Broker.keyCount_move ids declared (others (name, mv) List.mem_cons_self)]

end Path

/-! ## Operations -/

/-- What an operation does to the counter, to the bytes of the messages and to the keys. -/
inductive Accounts (bc : Bincode) (b b' : Broker) : Operation → Prop where
  | kept {op : Operation} (bytes : b'.bytes = b.bytes)
      (messages : b'.messageBytes bc = b.messageBytes bc) (keys : b'.keyCount = b.keyCount) :
      Accounts bc b b' op
  | stored {queue : String} {m : Message} {st : QueueState} (declared : b.queue queue = some st)
      (admitted : b.limitError (Broker.size bc m) = none)
      (bytes : b'.bytes = b.bytes + Broker.size bc m)
      (messages : b'.messageBytes bc = b.messageBytes bc + (bc.message.encode m).length)
      (keys : b'.keyCount = b.keyCount + st.newKeys m) : Accounts bc b b' (.publish queue m)
  | acked {op : Operation} (m : Message)
      (bytes : b'.bytes = QueueManager.saturatingSub64 b.bytes (Broker.size bc m))
      (messages : b'.messageBytes bc + (bc.message.encode m).length = b.messageBytes bc)
      (keys : b'.keyCount = b.keyCount) : Accounts bc b b' op
  | counted {op : Operation} (messages : b'.messageBytes bc ≤ b.messageBytes bc)
      (bytes : b'.bytes = UInt64.ofNat (b'.messageBytes bc + 8 * b'.keyCount))
      (keys : b'.keyCount = b.keyCount) : Accounts bc b b' op

namespace Accounts

variable {bc : Bincode} {ids : Nat → UInt64} {b b' : Broker} {op : Operation}

theorem unchanged (queues : b'.queues = b.queues) (bytes : b'.bytes = b.bytes) :
    Accounts bc b b' op :=
  .kept bytes (by rw [Broker.messageBytes, Broker.sum, queues]; rfl)
    (by rw [Broker.keyCount, Broker.sum, queues]; rfl)

variable (bc) in
/-- Moves that carry messages from store to store. -/
theorem carried {moves : List (String × Move)} (path : Path ids b moves b') (sound : b.Sound ids)
    (increasing : StrictMonoOn ids (Set.Iio b'.drawn))
    (carries : ∀ x ∈ moves, x.2.incoming = 0 ∧ x.2.outgoing = 0 ∧
      ∀ key time, x.2 ≠ .record key time) :
    b'.messageBytes bc = b.messageBytes bc ∧ b'.keyCount = b.keyCount := by
  have messages := path.messageBytes bc sound increasing
  have none (side : Move → Multiset Message) (zero : ∀ x ∈ moves, side x.2 = 0) :
      (moves.map fun x => bytesOf bc (side x.2)).sum = 0 := by
    rw [List.map_congr_left fun x member => congrArg (bytesOf bc) (zero x member), List.map_const',
      List.sum_replicate, bytesOf_zero, smul_zero]
  rw [none Move.outgoing fun x member => (carries x member).2.1,
    none Move.incoming fun x member => (carries x member).1] at messages
  exact ⟨messages, path.keyCount fun x member => (carries x member).2.2⟩

/-- A message that is stored, with the key it puts on record. -/
theorem publish (fixed : bc.FixedWidth) {queue : String} {m : Message} {st : QueueState}
    (declared : b.queue queue = some st) (sound : b.Sound ids)
    (admitted : b.limitError (Broker.size bc m) = none) (clock clock' : Nat → Int64)
    {stored : Broker}
    (moved : b.moves ids queue (.store m (notYetDue m clock).1 :: st.recordDedup m clock') = stored)
    (increasing : StrictMonoOn ids (Set.Iio stored.drawn)) :
    Accounts bc b (stored.setBytes (b.bytes + Broker.size bc m)) (.publish queue m) := by
  have path := Path.store ids declared m clock clock'
  rw [moved] at path
  have messages := path.messageBytes bc sound increasing
  have records : ∀ mv ∈ st.recordDedup m clock', ∃ key time, mv = .record key time := by
    unfold QueueState.recordDedup
    split
    · rintro mv member
      exact ⟨_, _, List.mem_singleton.mp member⟩
    · exact fun _ member => nomatch member
  have none (side : Move → Multiset Message) (zero : ∀ key time, side (.record key time) = 0) :
      (((st.recordDedup m clock').map fun mv => (queue, mv)).map
        fun x => bytesOf bc (side x.2)).sum = 0 := by
    refine List.sum_eq_zero fun n member => ?_
    obtain ⟨x, inside, rfl⟩ := List.mem_map.mp member
    obtain ⟨mv, listed, rfl⟩ := List.mem_map.mp inside
    obtain ⟨key, time, rfl⟩ := records mv listed
    rw [zero, bytesOf_zero]
  rw [List.map_cons, List.map_cons, List.sum_cons, List.sum_cons,
    none Move.outgoing fun _ _ => rfl, none Move.incoming fun _ _ => rfl] at messages
  simp only [Move.outgoing, Move.incoming, bytesOf_zero, bytesOf_singleton, fixed m, Nat.add_zero]
    at messages
  rw [← moved] at messages ⊢
  exact .stored declared admitted rfl messages (Broker.keyCount_store ids declared m clock clock')

variable (clock : Nat → Int64)

/-- Discarding, with a recount when there was something to discard. -/
theorem retain (fixed : bc.FixedWidth) {queue : String} {st : QueueState}
    (declared : b.queue queue = some st) (sound : b.Sound ids)
    (utf8 : ∀ key ∈ b.queues.keys, ∃ name : String, key = name.utf8)
    (increasing : StrictMonoOn ids
      (Set.Iio (b.perform bc ids clock (.applyRetention queue)).2.drawn)) :
    Accounts bc b (b.perform bc ids clock (.applyRetention queue)).2 (.applyRetention queue) := by
  have first := Path.discard ids declared (expired_sublist st (clock 0))
  have declared' := Broker.change_queue declared
    ((st.expired (clock 0)).map fun e => .dropReady e.1)
  rw [← Broker.discardAll_change ids declared] at declared'
  generalize List.foldl QueueState.apply st _ = st₁ at declared'
  have path := first.trans (Path.discard ids declared' (excess_sublist st₁))
  rw [← List.map_append] at path
  have bytes : ((b.discardAll ids queue (st.expired (clock 0))).discardAll ids queue
      st₁.excess).bytes = b.bytes :=
    (Broker.moves_bytes _ queue _).trans (Broker.moves_bytes b queue _)
  simp only [Broker.perform, Broker.applyRetention, declared, declared', Option.map_some,
    Option.getD_some, Prod.map_snd, id, ← List.length_append, Broker.drawn_recount]
    at increasing ⊢
  generalize st.expired (clock 0) ++ st₁.excess = entries at increasing path ⊢
  generalize Broker.discardAll ids (Broker.discardAll ids b queue _) queue _ = b₂
    at increasing path bytes ⊢
  have messages := path.messageBytes bc sound increasing
  have keys := path.keyCount fun x member => by
    obtain ⟨e, -, rfl⟩ := List.mem_map.mp member
    rintro _ _ ⟨⟩
  have incoming : ((entries.map fun e => (queue, Move.discard e.1 e.2)).map
      fun x => bytesOf bc x.2.incoming).sum = 0 := by
    refine List.sum_eq_zero fun n member => ?_
    obtain ⟨x, inside, rfl⟩ := List.mem_map.mp member
    obtain ⟨e, -, rfl⟩ := List.mem_map.mp inside
    rfl
  rw [incoming] at messages
  unfold Broker.recount
  split_ifs with some
  · refine .counted (Nat.le.intro messages) ?_ keys
    exact Broker.totalBytes_eq fixed (path.utf8 utf8)
  · have nothing : entries = [] := List.eq_nil_of_length_eq_zero (Nat.eq_zero_of_not_pos some)
    subst nothing
    exact .kept bytes messages keys

theorem reopen (fixed : bc.FixedWidth) (sound : b.Sound ids)
    (utf8 : ∀ key ∈ b.queues.keys, ∃ name : String, key = name.utf8) (maxBytes : Option UInt64)
    (increasing : StrictMonoOn ids (Set.Iio (b.reopen bc ids maxBytes).drawn)) :
    Accounts bc b (b.reopen bc ids maxBytes) (.reopen maxBytes) := by
  obtain ⟨⟨moves, path, requeues⟩, -⟩ := recoverEach_path ids b.names
    { b with bytes := b.totalBytes bc, maxBytes := maxBytes }
  obtain ⟨messages, keys⟩ := carried bc path (sound.idle rfl (Nat.le_refl _)) increasing (by
    intro x member
    obtain ⟨tag, m, same⟩ := requeues x member
    rw [same]
    exact ⟨rfl, rfl, fun _ _ => nofun⟩)
  refine .counted messages.le ?_ keys
  refine (Broker.recoverEach_bytes b.names _).trans ((Broker.totalBytes_eq fixed utf8).trans ?_)
  exact congrArg₂ (fun messages keys => UInt64.ofNat (messages + 8 * keys)) messages.symm keys.symm

/-- Every operation accounts for what it does. -/
theorem perform (fixed : bc.FixedWidth) (sound : b.Sound ids)
    (utf8 : ∀ key ∈ b.queues.keys, ∃ name : String, key = name.utf8) (op : Operation)
    (increasing : StrictMonoOn ids (Set.Iio (b.perform bc ids clock op).2.drawn)) :
    Accounts bc b (b.perform bc ids clock op).2 op := by
  cases op with
  | declareQueueWithRetention name policy =>
      simp only [Broker.perform, Broker.declare]
      cases undeclared : b.queue name with
      | some st => exact .unchanged rfl rfl
      | none =>
          exact .kept rfl (Broker.sum_declare undeclared _ _) (Broker.sum_declare undeclared _ _)
  | publish queue m =>
      simp only [Broker.perform, Broker.publish] at increasing ⊢
      cases declared : b.queue queue with
      | none => exact .unchanged rfl rfl
      | some st =>
          simp only [declared] at increasing ⊢
          split_ifs at increasing ⊢
          · exact .unchanged rfl rfl
          · cases admitted : b.limitError (Broker.size bc m) with
            | some e => exact .unchanged rfl rfl
            | none =>
                simp only [admitted] at increasing
                exact .publish fixed declared sound admitted _ _ rfl increasing
  | consume queue =>
      simp only [Broker.perform, Broker.consume] at increasing ⊢
      cases declared : b.queue queue with
      | none => exact .unchanged rfl rfl
      | some st =>
          simp only [declared] at increasing ⊢
          cases front : st.ready.entries.head? with
          | none => exact .unchanged rfl rfl
          | some e =>
              simp only [front] at increasing ⊢
              have enabled : st.ready.get e.1 = some e.2 :=
                OrdMap.get_eq_some.mpr (List.mem_of_mem_head? front)
              have path : Path ids b [(queue, .deliver e.1 e.2)] _ := .one declared enabled
              obtain ⟨messages, keys⟩ := carried bc path sound increasing
                (List.forall_mem_singleton.mpr ⟨rfl, rfl, fun _ _ same => by cases same⟩)
              exact .kept (Broker.move_bytes b queue _) messages keys
  | ack queue tag =>
      simp only [Broker.perform, Broker.ack] at increasing ⊢
      cases declared : b.queue queue with
      | none => exact .unchanged rfl rfl
      | some st =>
          simp only [declared] at increasing ⊢
          cases found : st.inflight.get tag with
          | none => exact .unchanged rfl rfl
          | some m =>
              simp only [found] at increasing ⊢
              have path : Path ids b [(queue, .settle tag m)] _ := .one declared found
              have messages := path.messageBytes bc sound increasing
              simp only [List.map_cons, List.map_nil, List.sum_cons, List.sum_nil, Move.outgoing,
                Move.incoming, bytesOf_zero, bytesOf_singleton, fixed m, Nat.add_zero] at messages
              exact .acked m rfl messages (path.keyCount (by simp))
  | nack queue tag =>
      simp only [Broker.perform, Broker.nack] at increasing ⊢
      cases declared : b.queue queue with
      | none => exact .unchanged rfl rfl
      | some st =>
          simp only [declared] at increasing ⊢
          cases found : st.inflight.get tag with
          | none => exact .unchanged rfl rfl
          | some m =>
              simp only [found] at increasing ⊢
              have path : Path ids b [(queue, .retry tag m)] _ := .one declared found
              obtain ⟨messages, keys⟩ := carried bc path sound increasing
                (List.forall_mem_singleton.mpr ⟨rfl, rfl, fun _ _ same => by cases same⟩)
              exact .kept (Broker.move_bytes b queue _) messages keys
  | promoteScheduled queue =>
      simp only [Broker.perform, Broker.promoteScheduled] at increasing ⊢
      cases declared : b.queue queue with
      | none => exact .unchanged rfl rfl
      | some st =>
          simp only [declared] at increasing ⊢
          obtain ⟨messages, keys⟩ := carried bc (Path.promote ids declared (clock 0)) sound
            increasing (by
              intro x member
              obtain ⟨e, -, rfl⟩ := List.mem_map.mp member
              exact ⟨rfl, rfl, fun _ _ same => by cases same⟩)
          exact .kept (Broker.moves_bytes b queue _) messages keys
  | applyRetention queue =>
      cases declared : b.queue queue with
      | none =>
          simp only [Broker.perform, Broker.applyRetention, declared]
          exact .unchanged rfl rfl
      | some st => exact .retain clock fixed declared sound utf8 increasing
  | reopen maxBytes => exact .reopen fixed sound utf8 maxBytes increasing

end Accounts

end PelicanQ
