import PelicanQ.Broker.Script
import PelicanQ.Broker.Places
import PelicanQ.Guarantees.Order

/-! # What retention removes

The ready store is read twice: once for the messages that are too old, and then,
without those, for how many are too many.  The second pass removes from the front
of the tree, which is what would be delivered first.
-/

namespace PelicanQ

/-! ## The ready store -/

/-- What is left of a list that may have so many entries, when the first ones go. -/
def lastOnes {α : Type} (maxMessages : Option UInt64) (l : List α) : List α :=
  match maxMessages with
  | none => l
  | some count => l.drop (l.length - count.toNat)

theorem lastOnes_sublist {α : Type} {maxMessages : Option UInt64} {l : List α} :
    (lastOnes maxMessages l).Sublist l := by
  cases maxMessages with
  | none => exact List.Sublist.refl l
  | some count => exact List.drop_sublist _ l

theorem lastOnes_lastOnes {α : Type} (maxMessages : Option UInt64) (l : List α) :
    lastOnes maxMessages (lastOnes maxMessages l) = lastOnes maxMessages l := by
  cases maxMessages with
  | none => rfl
  | some count =>
      have few : (l.drop (l.length - count.toNat)).length - count.toNat = 0 := by
        rw [List.length_drop]
        omega
      simp only [lastOnes, few, List.drop_zero]

theorem lastOnes_map {α β : Type} (maxMessages : Option UInt64) (f : α → β) (l : List α) :
    lastOnes maxMessages (l.map f) = (lastOnes maxMessages l).map f := by
  cases maxMessages with
  | none => rfl
  | some count => simp only [lastOnes, List.length_map, List.map_drop]

/-- The message has reached an age, as the code computes it. -/
def Message.reached (m : Message) (maxAgeMs now : Int64) : Bool :=
  decide (maxAgeMs ≤ now - m.timestamp)

/-- The message is older than the policy allows. -/
def tooOld (policy : RetentionPolicy) (now : Int64) (m : Message) : Bool :=
  match policy.maxAgeSecs with
  | none => false
  | some maxAgeSecs => m.reached (maxAgeSecs.toInt64 * 1000) now

namespace QueueState

/-- The queue as retention leaves it. -/
def retained (st : QueueState) (now : Int64) : QueueState :=
  let kept := st.expire now
  { kept with ready := (kept.excess.map Prod.fst).foldl OrdMap.erase kept.ready }

theorem expired_eq (st : QueueState) (now : Int64) :
    st.expired now = st.ready.entries.filter fun e => tooOld st.policy now e.2 := by
  unfold expired tooOld
  cases st.policy.maxAgeSecs with
  | none => simp
  | some => rfl

theorem expire_entries (st : QueueState) (now : Int64) :
    (st.expire now).ready.entries = st.ready.entries.filter fun e => !tooOld st.policy now e.2 := by
  rw [expire, expired_eq]
  exact OrdMap.foldl_erase_filter _ _

theorem retained_entries (st : QueueState) (now : Int64) :
    (st.retained now).ready.entries = lastOnes st.policy.maxMessages
      (st.ready.entries.filter fun e => !tooOld st.policy now e.2) := by
  have left (kept : QueueState) : ((kept.excess.map Prod.fst).foldl OrdMap.erase kept.ready).entries =
      lastOnes kept.policy.maxMessages kept.ready.entries := by
    unfold excess lastOnes
    cases kept.policy.maxMessages with
    | none => rfl
    | some count => exact OrdMap.foldl_erase_take _ _
  rw [← expire_entries]
  exact left (st.expire now)

theorem retained_length (st : QueueState) (now : Int64) :
    (st.expired now).length + (st.expire now).excess.length =
      st.ready.entries.length - (st.retained now).ready.entries.length := by
  have ages := List.length_eq_length_filter_add (l := st.ready.entries)
    fun e => tooOld st.policy now e.2
  have counts : (st.expire now).excess.length + (st.retained now).ready.entries.length =
      (st.expire now).ready.entries.length := by
    rw [retained_entries, ← expire_entries]
    change (st.expire now).excess.length + (lastOnes (st.expire now).policy.maxMessages _).length = _
    unfold excess lastOnes
    cases (st.expire now).policy.maxMessages with
    | none => exact Nat.zero_add _
    | some count => rw [List.length_take, List.length_drop]; omega
  rw [expire_entries] at counts
  rw [expired_eq]
  omega

/-- What is left is young enough and not too much. -/
theorem retained_again (st : QueueState) (now : Int64) :
    ((st.retained now).retained now).ready.entries = (st.retained now).ready.entries := by
  have young : ∀ e ∈ (st.retained now).ready.entries, (!tooOld st.policy now e.2) = true := by
    intro e member
    rw [retained_entries] at member
    exact (List.mem_filter.mp (lastOnes_sublist.mem member)).2
  rw [retained_entries (st.retained now), show (st.retained now).policy = st.policy from rfl,
    List.filter_eq_self.mpr young, retained_entries, lastOnes_lastOnes]

theorem retained_sublist (st : QueueState) (now : Int64) :
    (st.retained now).ready.entries.Sublist st.ready.entries := by
  rw [retained_entries]
  exact lastOnes_sublist.trans List.filter_sublist

end QueueState

/-! ## The operation -/

namespace Broker

variable {bc : Bincode} {ids : Nat → UInt64} {clock : Nat → Int64} {b : Broker} {q : String}
  {st : QueueState}

variable (bc ids clock) in
theorem retention_queue (declared : b.queue q = some st) :
    (b.perform bc ids clock (.applyRetention q)).2.queue q = some (st.retained (clock 0)) := by
  have on : (Operation.applyRetention q).on = some q := rfl
  rw [(perform_script bc ids clock declared on nofun).2.queue]
  change some (st.moves ids b.drawn (List.map _ (_ ++ _))) = _
  rw [QueueState.moves_discard, List.map_append, List.foldl_append]
  rfl

variable (bc ids clock) in
theorem retention_answer (declared : b.queue q = some st) :
    (b.perform bc ids clock (.applyRetention q)).1 = .retained (.ok
      (st.ready.entries.length - (st.retained (clock 0)).ready.entries.length)) := by
  have on : (Operation.applyRetention q).on = some q := rfl
  rw [(perform_script bc ids clock declared on nofun).1, ← st.retained_length]
  rfl

variable (bc ids clock) in
/-- The bytes are counted again when something was removed. -/
theorem retention_bytes (declared : b.queue q = some st)
    (removed : (st.retained (clock 0)).ready.entries ≠ st.ready.entries) :
    (b.perform bc ids clock (.applyRetention q)).2.bytes =
      totalBytes bc (b.perform bc ids clock (.applyRetention q)).2 := by
  have expired : (b.discardAll ids q (st.expired (clock 0))).queue q =
      some (st.expire (clock 0)) := by
    rw [discardAll, moves_queue declared, QueueState.moves_expire]
  have some_ : 0 < (st.expired (clock 0)).length + (st.expire (clock 0)).excess.length := by
    rw [st.retained_length]
    have shorter := (st.retained_sublist (clock 0)).length_le
    have different : (st.retained (clock 0)).ready.entries.length ≠ st.ready.entries.length :=
      fun same => removed ((st.retained_sublist (clock 0)).eq_of_length same)
    omega
  simp only [perform, applyRetention, declared, expired, Option.map_some, Option.getD_some,
    recount, some_, if_true]
  rfl

end Broker

/-! ## Exactness -/

/-- The value is a message within the age the policy allows, over the integers. -/
def withinAge (bc : Bincode) (policy : RetentionPolicy) (now : Int64) (value : Bytes) : Bool :=
  match policy.maxAgeSecs, bc.message.decode value with
  | some maxAgeSecs, .ok m => decide (now.toInt - m.timestamp.toInt < 1000 * maxAgeSecs.toNat)
  | _, _ => true

/-- What `apply_retention` is for. -/
structure RetainsExactly (bc : Bincode) (ids : Nat → UInt64) (clock : Nat → Int64) (q : String)
    (policy : RetentionPolicy) (qm qm' : QueueManager) (response : Response) : Prop where
  ready : (qm'.db.trees q).entries = lastOnes policy.maxMessages
    ((qm.db.trees q).entries.filter fun e => withinAge bc policy (clock 0) e.2)
  answer : response =
    .retained (.ok ((qm.db.trees q).entries.length - (qm'.db.trees q).entries.length))
  others : ∀ name : String, name.utf8 ∈ (qm.db.trees metaQueuesTree).keys →
    ∀ role : Role, (name, role) ≠ (q, .ready) →
      qm'.db.trees (role.treeName name) = qm.db.trees (role.treeName name)
  bytes : (qm'.db.trees q).entries ≠ (qm.db.trees q).entries →
    (exec ids clock QueueManager.recalculateBytes qm').1 = .ok qm'.currentBytes
  again : ((Operation.applyRetention q).perform bc ids clock qm').1 = .retained (.ok 0) ∧
    ((Operation.applyRetention q).perform bc ids clock qm').2.db.trees q = qm'.db.trees q

theorem milliseconds_exact {secs : UInt64} (fits : 1000 * secs.toNat < 2 ^ 63) :
    (secs.toInt64 * 1000).toInt = 1000 * secs.toNat := by
  have seconds := secs.toInt64_exact.mpr (by omega)
  have thousand : (1000 : Int64).toInt = 1000 := by decide
  rw [(Int64.mul_exact _ _).mpr, seconds, thousand]
  · omega
  · rw [seconds, thousand]
    omega

/-- Where nothing overflows, the code's age check is the integers'. -/
theorem tooOld_exact {bc : Bincode} {policy : RetentionPolicy} {now : Int64} {m : Message}
    (fits : ∀ secs, policy.maxAgeSecs = some secs → 1000 * secs.toNat < 2 ^ 63)
    (read : 0 ≤ now) (stamped : 0 ≤ m.timestamp) :
    withinAge bc policy now (bc.message.encode m) = !tooOld policy now m := by
  rw [withinAge, tooOld, bc.message.decode_encode]
  cases age : policy.maxAgeSecs with
  | none => rfl
  | some secs =>
      have zero : (0 : Int64).toInt = 0 := by decide
      rw [Int64.le_iff_toInt_le, zero] at read stamped
      have difference := (Int64.sub_exact now m.timestamp).mpr
        ⟨by have := m.timestamp.toInt_lt; omega, by have := now.toInt_lt; omega⟩
      simp only [Message.reached, Int64.le_iff_toInt_le, milliseconds_exact (fits secs age),
        difference, ← decide_not, not_le]

section Runs

variable {bc : Bincode} {ids : Nat → UInt64} {clock : Nat → Int64} {qm : QueueManager} {b : Broker}
  {q : String}

theorem Refines.declared (h : Refines bc qm b) {policy : RetentionPolicy}
    (recorded : (qm.db.trees metaRetentionTree).get q.utf8 = some (bc.policy.encode policy)) :
    ∃ st, b.queue q = some st ∧ st.policy = policy := by
  rw [h.held.policies, OrdMap.get_mapValues, Option.map_eq_some_iff] at recorded
  obtain ⟨st, declared, same⟩ := recorded
  exact ⟨st, declared, bc.policy.encode_injective same⟩

theorem Refines.retains (h : Refines bc qm b) {policy : RetentionPolicy}
    (recorded : (qm.db.trees metaRetentionTree).get q.utf8 = some (bc.policy.encode policy))
    (fits : ∀ secs, policy.maxAgeSecs = some secs → 1000 * secs.toNat < 2 ^ 63)
    (read : 0 ≤ clock 0)
    (stamped : ∀ value ∈ (qm.db.trees q).values, ∀ m, bc.message.decode value = .ok m →
      0 ≤ m.timestamp) :
    RetainsExactly bc ids clock q policy qm ((Operation.applyRetention q).perform bc ids clock qm).2
      ((Operation.applyRetention q).perform bc ids clock qm).1 := by
  obtain ⟨st, declared, rfl⟩ := h.declared recorded
  obtain ⟨answer, after⟩ := perform_refines ids clock h (.applyRetention q) h.held.apart
  obtain ⟨answer', after'⟩ := perform_refines ids clock after (.applyRetention q) after.held.apart
  have left := Broker.retention_queue bc ids clock declared
  have left' := Broker.retention_queue bc ids clock left
  have tree : qm.db.trees q = st.tree bc .ready := h.held.stores q st declared .ready
  have tree' : ((Operation.applyRetention q).perform bc ids clock qm).2.db.trees q =
      (st.retained (clock 0)).tree bc .ready := after.held.stores q _ left .ready
  constructor
  · rw [tree, tree', QueueState.tree, OrdMap.image_entries, QueueState.retained_entries,
      QueueState.tree, OrdMap.image_entries, List.filter_map, lastOnes_map]
    refine congrArg _ (congrArg _ (List.filter_congr fun e member => ?_))
    refine (tooOld_exact fits read (stamped _ ?_ e.2 (bc.message.decode_encode e.2))).symm
    rw [tree]
    exact List.mem_map_of_mem (List.mem_map_of_mem member)
  · rw [answer, Broker.retention_answer bc ids clock declared, tree, tree']
    simp only [QueueState.tree, OrdMap.image_entries, List.length_map]
  · intro name registered role other
    obtain ⟨st', declared'⟩ := h.registered.mp registered
    by_cases same : name = q
    · subst same
      cases declared.symm.trans declared'
      rw [after.held.stores name _ left, h.held.stores name st declared]
      cases role with
      | ready => exact absurd rfl other
      | inflight | deadLetter | scheduled | dedup => rfl
    · rw [after.held.stores name st' ((Broker.perform_queue_other bc ids clock rfl same).trans declared'),
        h.held.stores name st' declared']
  · intro removed
    rw [after.recalculates, after.bytes, Broker.retention_bytes bc ids clock declared]
    intro same
    rw [tree, tree', QueueState.tree, OrdMap.image_entries, QueueState.tree, OrdMap.image_entries,
      same] at removed
    exact removed rfl
  · have tree'' : ((Operation.applyRetention q).perform bc ids clock
        ((Operation.applyRetention q).perform bc ids clock qm).2).2.db.trees q =
          ((st.retained (clock 0)).retained (clock 0)).tree bc .ready :=
      after'.held.stores q _ left' .ready
    refine ⟨?_, OrdMap.ext_entries ?_⟩
    · rw [answer', Broker.retention_answer bc ids clock left, QueueState.retained_again, Nat.sub_self]
    · rw [tree', tree'', QueueState.tree, OrdMap.image_entries, QueueState.tree,
        OrdMap.image_entries, QueueState.retained_again]

end Runs

/-- In every run whose queue names do not collide, retention on a declared queue is exact, at every
    clock reading. -/
theorem retention_exact (bc : Bincode) (ids : Nat → UInt64) (maxBytes : Option UInt64)
    (steps : List Step) (apart : NonColliding (declaredNames steps)) (q : String)
    (policy : RetentionPolicy)
    (recorded : ((final bc ids (started bc ids maxBytes) steps).db.trees metaRetentionTree).get
      q.utf8 = some (bc.policy.encode policy))
    (fits : ∀ secs, policy.maxAgeSecs = some secs → 1000 * secs.toNat < 2 ^ 63)
    (clock : Nat → Int64) (read : 0 ≤ clock 0)
    (stamped : ∀ value ∈ ((final bc ids (started bc ids maxBytes) steps).db.trees q).values,
      ∀ m, bc.message.decode value = .ok m → 0 ≤ m.timestamp) :
    RetainsExactly bc ids clock q policy (final bc ids (started bc ids maxBytes) steps)
      ((Operation.applyRetention q).perform bc ids clock
        (final bc ids (started bc ids maxBytes) steps)).2
      ((Operation.applyRetention q).perform bc ids clock
        (final bc ids (started bc ids maxBytes) steps)).1 := by
  obtain ⟨b, refines, -⟩ := run_refines bc ids maxBytes (fun _ _ => True) trivial
    (fun _ _ _ _ _ _ _ => trivial) steps apart
  exact refines.retains recorded fits read stamped

/-- At most two messages, none older than ten seconds. -/
def twoYoung : RetentionPolicy := { maxAgeSecs := some 10, maxMessages := some 2 }

/-- An old message and three young ones. -/
def agedRun : List Step :=
  [⟨.declareQueueWithRetention "q" twoYoung, fun _ => 0⟩,
    ⟨.publish "q" ⟨1, [], [], 0, 0, 5, none, none⟩, fun _ => 0⟩,
    ⟨.publish "q" ⟨2, [], [], 6000, 0, 5, none, none⟩, fun _ => 6000⟩,
    ⟨.publish "q" ⟨3, [], [], 7000, 0, 5, none, none⟩, fun _ => 7000⟩,
    ⟨.publish "q" ⟨4, [], [], 8000, 0, 5, none, none⟩, fun _ => 8000⟩]

def agedManager : QueueManager := final bincode (counter 0) (started bincode (counter 0) none) agedRun

/-- A stored message is not stamped before the epoch. -/
def sinceEpoch (value : Bytes) : Bool :=
  match bincode.message.decode value with
  | .ok m => decide (0 ≤ m.timestamp)
  | .error _ => true

theorem agedRun_retains :
    ((Operation.applyRetention "q").perform bincode (counter 0) (fun _ => 10000) agedManager).1 =
        .retained (.ok 2) ∧
      RetainsExactly bincode (counter 0) (fun _ => 10000) "q" twoYoung agedManager
        ((Operation.applyRetention "q").perform bincode (counter 0) (fun _ => 10000) agedManager).2
        ((Operation.applyRetention "q").perform bincode (counter 0) (fun _ => 10000)
          agedManager).1 := by
  refine ⟨by decide +kernel, retention_exact bincode (counter 0) none agedRun (by decide) "q" twoYoung
    (by decide +kernel) ?_ (fun _ => 10000) (by decide) ?_⟩
  · rintro secs ⟨⟩
    decide
  · have all : (agedManager.db.trees "q").values.all sinceEpoch = true := by decide +kernel
    intro value member m decoded
    have here := List.all_eq_true.mp all value member
    rw [sinceEpoch, decoded] at here
    exact of_decide_eq_true here

/-- The ready store of `dlq:q` is the dead-letter store of `q`. -/
def sharedDlq : List Step :=
  [⟨.declareQueueWithRetention "q" { maxDeliveryAttempts := some 1 }, fun _ => 0⟩,
    ⟨.declareQueueWithRetention "dlq:q" { maxMessages := some 0 }, fun _ => 0⟩,
    ⟨.publish "q" ⟨1, [], [], 0, 0, 0, none, none⟩, fun _ => 0⟩,
    ⟨.consume "q", fun _ => 0⟩,
    ⟨.nack "q" 0, fun _ => 0⟩]

def sharedDlqManager : QueueManager :=
  final bincode (counter 0) (started bincode (counter 0) none) sharedDlq

theorem retention_elsewhere :
    (sharedDlqManager.db.trees metaRetentionTree).get "dlq:q".utf8 =
        some (bincode.policy.encode { maxMessages := some 0 }) ∧
      ¬RetainsExactly bincode (counter 0) (fun _ => 0) "dlq:q" { maxMessages := some 0 }
        sharedDlqManager
        ((Operation.applyRetention "dlq:q").perform bincode (counter 0) (fun _ => 0)
          sharedDlqManager).2
        ((Operation.applyRetention "dlq:q").perform bincode (counter 0) (fun _ => 0)
          sharedDlqManager).1 := by
  refine ⟨by decide +kernel, fun exact_ => ?_⟩
  have same := exact_.others "q" (by decide +kernel) .deadLetter (by decide)
  have lengths := congrArg (fun tree : Sled.Tree => tree.entries.length) same
  revert lengths
  decide +kernel

/-! ## Who has to go -/

/-- The messages that are young enough, in delivery order. -/
def youngIn (bc : Bincode) (policy : RetentionPolicy) (now : Int64) (tree : Sled.Tree) :
    List (Bytes × Message) :=
  tree.entries.filterMap fun e =>
    match bc.message.decode e.2 with
    | .ok m => if tooOld policy now m then none else some (e.1, m)
    | .error _ => none

/-- The first has a higher clamped priority than the second, and entered the ready store later. -/
def Better (q : String) (qm : QueueManager) (x y : Bytes × Message) : Prop :=
  clampPriority y.2.priority < clampPriority x.2.priority ∧
    EnteredBefore (arrivalsIn q qm.db.log) y.1 x.1

/-- A message that is young enough is removed while a worse one is kept. -/
def EvictsBetter (bc : Bincode) (policy : RetentionPolicy) (now : Int64) (q : String)
    (qm qm' : QueueManager) : Prop :=
  ∃ x ∈ youngIn bc policy now (qm.db.trees q), ∃ y ∈ youngIn bc policy now (qm.db.trees q),
    x.1 ∉ (qm'.db.trees q).keys ∧ y.1 ∈ (qm'.db.trees q).keys ∧ Better q qm x y

/-- Of the messages that are young enough, each of those in excess entered the ready store before
    every later one of lower clamped priority. -/
def FrontFirst (bc : Bincode) (policy : RetentionPolicy) (maxMessages : UInt64) (now : Int64)
    (q : String) (qm : QueueManager) : Prop :=
  let young := youngIn bc policy now (qm.db.trees q)
  ∀ x ∈ young.take (young.length - maxMessages.toNat),
    ∀ y ∈ young.drop (young.length - maxMessages.toNat),
      clampPriority y.2.priority < clampPriority x.2.priority →
        EnteredBefore (arrivalsIn q qm.db.log) x.1 y.1

section Eviction

variable {bc : Bincode} {ids : Nat → UInt64} {clock : Nat → Int64} {qm : QueueManager} {b : Broker}
  {q : String} {n : Nat} {st : QueueState}

/-- Of two arrivals, one entered before the other. -/
theorem QueueState.Sound.enteredBefore_iff (sound : st.Sound ids n) {key key' : ReadyKey}
    (here : key ∈ st.arrivals) (there : key' ∈ st.arrivals) :
    EnteredBefore (st.arrivals.map ReadyKey.bytes) (ReadyKey.bytes key) (ReadyKey.bytes key') ↔
      ReadyKey.id key < ReadyKey.id key' := by
  refine ⟨fun ⟨listed, listed', before⟩ => ?_, sound.enteredBefore here there⟩
  obtain ⟨i, at_i⟩ := List.mem_iff_getElem?.mp listed
  obtain ⟨j, at_j⟩ := List.mem_iff_getElem?.mp listed'
  have less := before i j at_i at_j
  by_contra not_less
  rcases lt_or_eq_of_le (not_lt.mp not_less) with greater | same
  · have back := (sound.enteredBefore there here greater).2.2 j i at_j at_i
    omega
  · obtain rfl := sound.arrival_unique here there same.symm
    have again := before i i at_i at_i
    omega

theorem youngIn_tree (st : QueueState) (now : Int64) :
    youngIn bc st.policy now (st.tree bc .ready) =
      (st.expire now).ready.entries.map fun e => (ReadyKey.bytes e.1, e.2) := by
  rw [QueueState.expire_entries, youngIn, QueueState.tree, OrdMap.image_entries, List.filterMap_map]
  simp only [Function.comp_def, bc.message.decode_encode]
  induction st.ready.entries with
  | nil => rfl
  | cons e entries ih =>
      rw [List.filterMap_cons, List.filter_cons, ih]
      cases tooOld st.policy now e.2 <;> rfl

/-- In a list with different keys, what is not among the last is among the first. -/
theorem mem_take_iff {α β : Type} {l : List (α × β)} (distinct : (l.map Prod.fst).Nodup)
    {x : α × β} (member : x ∈ l) (c : Nat) :
    (x.1 ∉ (l.drop c).map Prod.fst ↔ x ∈ l.take c) ∧
      (x.1 ∈ (l.drop c).map Prod.fst ↔ x ∈ l.drop c) := by
  have last : x.1 ∈ (l.drop c).map Prod.fst ↔ x ∈ l.drop c := by
    refine ⟨fun listed => ?_, List.mem_map_of_mem⟩
    obtain ⟨y, inside, key⟩ := List.mem_map.mp listed
    rwa [← List.inj_on_of_nodup_map distinct ((List.drop_sublist c l).mem inside) member key]
  refine ⟨?_, last⟩
  have split := member
  rw [← List.take_append_drop c l] at split distinct
  rw [last]
  constructor
  · exact fun absent => (List.mem_append.mp split).resolve_right absent
  · intro first inside
    rw [List.map_append, List.nodup_append] at distinct
    exact distinct.2.2 x.1 (List.mem_map_of_mem first) x.1 (List.mem_map_of_mem inside) rfl

theorem Refines.evicts_iff (h : Refines bc qm b) (sound : b.Sound ids) {policy : RetentionPolicy}
    (recorded : (qm.db.trees metaRetentionTree).get q.utf8 = some (bc.policy.encode policy))
    {maxMessages : UInt64} (limit : policy.maxMessages = some maxMessages) :
    EvictsBetter bc policy (clock 0) q qm
        ((Operation.applyRetention q).perform bc ids clock qm).2 ↔
      ¬FrontFirst bc policy maxMessages (clock 0) q qm := by
  obtain ⟨st, declared, rfl⟩ := h.declared recorded
  obtain ⟨-, after⟩ := perform_refines ids clock h (.applyRetention q) h.held.apart
  have tree : qm.db.trees q = st.tree bc .ready := h.held.stores q st declared .ready
  have tree' : ((Operation.applyRetention q).perform bc ids clock qm).2.db.trees q =
      (st.retained (clock 0)).tree bc .ready :=
    after.held.stores q _ (Broker.retention_queue bc ids clock declared) .ready
  have young : youngIn bc st.policy (clock 0) (qm.db.trees q) =
      (st.expire (clock 0)).ready.entries.map fun e => (ReadyKey.bytes e.1, e.2) := by
    rw [tree, youngIn_tree]
  have distinct : (((st.expire (clock 0)).ready.entries.map
      fun e => (ReadyKey.bytes e.1, e.2)).map Prod.fst).Nodup := by
    rw [List.map_map]
    have keys := (st.expire (clock 0)).ready.keys_nodup.map ReadyKey.bytes_strictMono.injective
    rwa [OrdMap.keys, List.map_map] at keys
  have kept : (((Operation.applyRetention q).perform bc ids clock qm).2.db.trees q).keys =
      (((st.expire (clock 0)).ready.entries.map fun e => (ReadyKey.bytes e.1, e.2)).drop
        (((st.expire (clock 0)).ready.entries.map fun e => (ReadyKey.bytes e.1, e.2)).length -
          maxMessages.toNat)).map Prod.fst := by
    rw [tree', OrdMap.keys, QueueState.tree, OrdMap.image_entries, QueueState.retained_entries,
      ← QueueState.expire_entries, limit, lastOnes, List.length_map, List.map_drop, List.map_drop,
      List.map_drop, List.map_map, List.map_map]
    rfl
  have order : ∀ x ∈ (st.expire (clock 0)).ready.entries.map (fun e => (ReadyKey.bytes e.1, e.2)),
      ∀ y ∈ (st.expire (clock 0)).ready.entries.map (fun e => (ReadyKey.bytes e.1, e.2)),
        x.1 ≠ y.1 → (EnteredBefore (arrivalsIn q qm.db.log) y.1 x.1 ↔
          ¬EnteredBefore (arrivalsIn q qm.db.log) x.1 y.1) := by
    intro x hx y hy different
    obtain ⟨e, inside, rfl⟩ := List.mem_map.mp hx
    obtain ⟨e', inside', rfl⟩ := List.mem_map.mp hy
    rw [QueueState.expire_entries] at inside inside'
    have queue := sound.queues q st declared
    have here := queue.arrived _ (List.mem_map_of_mem (List.mem_filter.mp inside).1)
    have there := queue.arrived _ (List.mem_map_of_mem (List.mem_filter.mp inside').1)
    rw [h.held.arrived q st declared, queue.enteredBefore_iff there here,
      queue.enteredBefore_iff here there, not_lt]
    refine ⟨le_of_lt, fun le => lt_of_le_of_ne le fun same => different ?_⟩
    exact congrArg ReadyKey.bytes (queue.arrival_unique here there same.symm)
  rw [EvictsBetter, FrontFirst, young, kept]
  generalize (st.expire (clock 0)).ready.entries.map (fun e => (ReadyKey.bytes e.1, e.2)) = l at *
  generalize l.length - maxMessages.toNat = c
  constructor
  · rintro ⟨x, hx, y, hy, gone, stays, lower, later⟩ first
    have different : x.1 ≠ y.1 := fun same => gone (same ▸ stays)
    exact (order x hx y hy different).mp later
      (first x ((mem_take_iff distinct hx c).1.mp gone) y
        ((mem_take_iff distinct hy c).2.mp stays) lower)
  · intro fails
    push Not at fails
    obtain ⟨x, first, y, last, lower, notBefore⟩ := fails
    have hx := (List.take_sublist c l).mem first
    have hy := (List.drop_sublist c l).mem last
    have gone := (mem_take_iff distinct hx c).1.mpr first
    have stays := (mem_take_iff distinct hy c).2.mpr last
    exact ⟨x, hx, y, hy, gone, stays, lower,
      (order x hx y hy fun same => gone (same ▸ stays)).mpr notBefore⟩

end Eviction

/-- In every run whose queue names do not collide, retention evicts no better message for a worse
    one exactly when the messages in excess at the front entered the ready store before the later
    ones of lower priority. -/
theorem eviction_fair_iff (bc : Bincode) (ids : Nat → UInt64) (maxBytes : Option UInt64)
    (steps : List Step) (apart : NonColliding (declaredNames steps))
    (increasing : Increasing ids (final bc ids (started bc ids maxBytes) steps)) (q : String)
    (policy : RetentionPolicy)
    (recorded : ((final bc ids (started bc ids maxBytes) steps).db.trees metaRetentionTree).get
      q.utf8 = some (bc.policy.encode policy))
    (maxMessages : UInt64) (limit : policy.maxMessages = some maxMessages) (clock : Nat → Int64) :
    ¬EvictsBetter bc policy (clock 0) q (final bc ids (started bc ids maxBytes) steps)
        ((Operation.applyRetention q).perform bc ids clock
          (final bc ids (started bc ids maxBytes) steps)).2 ↔
      FrontFirst bc policy maxMessages (clock 0) q (final bc ids (started bc ids maxBytes) steps) := by
  obtain ⟨b, refines, sound, -⟩ := run_steps bc ids maxBytes (fun _ _ => True) trivial
    (fun _ _ _ _ _ => trivial) steps apart increasing
  rw [refines.evicts_iff sound recorded limit, not_not]

def oneOnly : RetentionPolicy := { maxMessages := some 1 }

/-- Two messages, where there is room for one. -/
def pairRun (first second : UInt8) : List Step :=
  [⟨.declareQueueWithRetention "q" oneOnly, fun _ => 0⟩,
    ⟨.publish "q" ⟨1, [], [], 0, 0, first, none, none⟩, fun _ => 0⟩,
    ⟨.publish "q" ⟨2, [], [], 0, 0, second, none, none⟩, fun _ => 0⟩]

def pairManager (first second : UInt8) : QueueManager :=
  final bincode (counter 0) (started bincode (counter 0) none) (pairRun first second)

theorem enteredBefore_pair {key key' : Bytes} (different : key ≠ key') :
    EnteredBefore [key, key'] key key' := by
  refine ⟨List.mem_cons_self, List.mem_cons_of_mem _ (List.mem_singleton_self _), ?_⟩
  rintro (_ | _ | i) (_ | _ | j) first second
  · exact absurd (Option.some.inj second) different
  · exact Nat.zero_lt_one
  · cases second
  · exact absurd (Option.some.inj first).symm different
  · exact absurd (Option.some.inj first).symm different
  · cases second
  all_goals cases first

/-- An urgent message that came first may go. -/
theorem pairRun_fair : ¬EvictsBetter bincode oneOnly 0 "q" (pairManager 9 0)
    ((Operation.applyRetention "q").perform bincode (counter 0) (fun _ => 0) (pairManager 9 0)).2 := by
  refine (eviction_fair_iff bincode (counter 0) none (pairRun 9 0) (by decide) ?_ "q" oneOnly
    (by decide +kernel) 1 rfl fun _ => 0).mpr ?_
  · refine counter_increasing ?_
    decide +kernel
  · have young : youngIn bincode oneOnly 0 ((pairManager 9 0).db.trees "q") =
        [(encodeKey 9 0, ⟨1, [], [], 0, 0, 9, none, none⟩),
          (encodeKey 0 1, ⟨2, [], [], 0, 0, 0, none, none⟩)] := by decide +kernel
    have arrivals : arrivalsIn "q" (pairManager 9 0).db.log = [encodeKey 9 0, encodeKey 0 1] := by
      decide +kernel
    rw [← pairManager, FrontFirst, young, arrivals]
    intro x first y last _
    rw [List.mem_singleton.mp first, List.mem_singleton.mp last]
    exact enteredBefore_pair (by decide)

/-- An urgent message that came last goes, and an older one of lower priority stays. -/
theorem better_evicted : EvictsBetter bincode oneOnly 0 "q" (pairManager 0 9)
    ((Operation.applyRetention "q").perform bincode (counter 0) (fun _ => 0) (pairManager 0 9)).2 := by
  have arrivals : arrivalsIn "q" (pairManager 0 9).db.log = [encodeKey 0 0, encodeKey 9 1] := by
    decide +kernel
  refine ⟨(encodeKey 9 1, ⟨2, [], [], 0, 0, 9, none, none⟩), by decide +kernel,
    (encodeKey 0 0, ⟨1, [], [], 0, 0, 0, none, none⟩), by decide +kernel, by decide +kernel,
    by decide +kernel, by decide, ?_⟩
  rw [arrivals]
  exact enteredBefore_pair (by decide)

end PelicanQ
