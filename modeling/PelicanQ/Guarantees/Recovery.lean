import PelicanQ.Broker.Classes
import PelicanQ.Broker.Places

/-! # What recovery does

Opening a store puts what was in flight back into the ready stores: all of a
queue's messages are copied, and then all are removed from the in-flight store.
An uninterrupted recovery moves each message exactly once, to the end of its
line.  The copies and the removals are separate writes, and a crash between them
leaves messages in both stores, for the next recovery to copy again.
-/

namespace PelicanQ

/-! ## Uninterrupted -/

/-- What opening a store is for. -/
structure RecoversExactly (bc : Bincode) (ids : Nat → UInt64) (qm qm' : QueueManager)
    (response : Response) : Prop where
  response : response = .reopened (.ok ())
  queues : qm'.db.trees metaQueuesTree = qm.db.trees metaQueuesTree
  policies : qm'.db.trees metaRetentionTree = qm.db.trees metaRetentionTree
  inflight : ∀ q : String, q.utf8 ∈ (qm.db.trees metaQueuesTree).keys →
    (qm'.db.trees (inflightTreeName q)).entries = []
  ready : ∀ q : String, q.utf8 ∈ (qm.db.trees metaQueuesTree).keys → ∀ c,
    readyLine bc c (qm'.db.trees q) = readyLine bc c (qm.db.trees q) ++
      (qm.db.trees (inflightTreeName q)).values.filter (valueInClass bc c)
  kept : ∀ q : String, q.utf8 ∈ (qm.db.trees metaQueuesTree).keys →
    ∀ role ∈ [Role.deadLetter, .scheduled, .dedup],
      qm'.db.trees (role.treeName q) = qm.db.trees (role.treeName q)
  bytes : ∀ clock, (exec ids clock QueueManager.recalculateBytes qm').1 = .ok qm'.currentBytes

section Exact

variable {bc : Bincode} {ids : Nat → UInt64} {b : Broker} {q : String} {st : QueueState}

/-- A queue as recovery leaves it. -/
def QueueState.recovered (ids : Nat → UInt64) (n : Nat) (st : QueueState) : QueueState :=
  st.moves ids n (st.inflight.entries.map fun e => .requeue e.1 e.2)

theorem QueueState.recovered_stores (ids : Nat → UInt64) (n : Nat) (st : QueueState) :
    ∃ arrivals, st.recovered ids n =
      { st with
        ready := enqueue ids n st.ready st.inflight.values
        inflight := .empty
        arrivals := arrivals } := by
  obtain ⟨arrivals, moved⟩ := st.moves_requeue ids n st.inflight.entries
  refine ⟨arrivals, moved.trans ?_⟩
  have emptied : (st.inflight.entries.map Prod.fst).foldl OrdMap.erase st.inflight = .empty := by
    refine OrdMap.ext_entries ?_
    have all := OrdMap.foldl_erase_take st.inflight st.inflight.entries.length
    rwa [List.take_length, List.drop_length] at all
  rw [emptied]
  rfl

theorem treeBytes_store (bc : Bincode) {K : Type} [LinearOrder K] (f : K → Bytes)
    (mono : StrictMono f) (store : OrdMap K Message) :
    treeBytes (store.image f mono bc.message.encode) =
      (store.values.map fun m => (bc.message.encode m).length).sum := by
  rw [treeBytes, OrdMap.sum, OrdMap.image_values, List.map_map]
  rfl

/-- Recovery moves bytes and does not make any. -/
theorem QueueState.recovered_bytes (bc : Bincode) {n : Nat} (ranked : Ranked ids n st.ready)
    (increasing : StrictMonoOn ids (Set.Iio (n + st.inflight.values.length))) :
    ((Broker.treesOf bc (st.recovered ids n)).map treeBytes).sum =
      ((Broker.treesOf bc st).map treeBytes).sum := by
  obtain ⟨arrivals, recovered⟩ := st.recovered_stores ids n
  have moved := ((enqueue_perm ranked increasing).map fun m => (bc.message.encode m).length).sum_eq
  rw [List.map_append, List.sum_append] at moved
  rw [recovered]
  simp only [Broker.treesOf, QueueState.tree, List.map_cons, List.map_nil, List.sum_cons,
    List.sum_nil, treeBytes_store]
  have none_left : ((OrdMap.empty : OrdMap UInt64 Message).values.map
      fun m => (bc.message.encode m).length).sum = 0 := rfl
  omega

/-- What opening a store does to a queue. -/
theorem Broker.reopen_recovered (bc : Bincode)
    (utf8 : ∀ key ∈ b.queues.keys, ∃ name : String, key = name.utf8) (maxBytes : Option UInt64)
    (increasing : StrictMonoOn ids (Set.Iio (b.reopen bc ids maxBytes).drawn))
    (declared : b.queue q = some st) (ranked : Ranked ids b.drawn st.ready) :
    ∃ n, Ranked ids n st.ready ∧ StrictMonoOn ids (Set.Iio (n + st.inflight.values.length)) ∧
      (b.reopen bc ids maxBytes).queue q = some (st.recovered ids n) := by
  obtain ⟨n, later, queue, drawn⟩ := reopen_script bc ids (fun _ => 0) utf8 declared maxBytes
  have draws : ((st.inflight.entries.map fun e => Move.requeue e.1 e.2).map Move.draws).sum =
      st.inflight.values.length := by
    have one : (Move.draws ∘ fun e : UInt64 × Message => Move.requeue e.1 e.2) = fun _ => 1 := rfl
    rw [List.map_map, one, List.map_const', List.sum_replicate, smul_eq_mul, Nat.mul_one,
      OrdMap.values, List.length_map]
  refine ⟨n, ranked.mono later, increasing.mono (Set.Iio_subset_Iio ?_), queue⟩
  exact draws ▸ drawn

/-- Nothing is declared, and policies stay. -/
theorem Broker.reopen_policies (bc : Bincode) (sound : b.Sound ids)
    (utf8 : ∀ key ∈ b.queues.keys, ∃ name : String, key = name.utf8) (maxBytes : Option UInt64)
    (increasing : StrictMonoOn ids (Set.Iio (b.reopen bc ids maxBytes).drawn)) {V : Type}
    (g : QueueState → V) (policy : ∀ st st', st.policy = st'.policy → g st = g st') :
    (b.reopen bc ids maxBytes).queues.mapValues g = b.queues.mapValues g := by
  obtain ⟨⟨moves, path, -⟩, -⟩ := recoverEach_path ids b.names
    { b with bytes := b.totalBytes bc, maxBytes := maxBytes }
  refine OrdMap.ext_get fun key => ?_
  rw [OrdMap.get_mapValues, OrdMap.get_mapValues]
  by_cases listed : key ∈ b.queues.keys
  · obtain ⟨name, rfl⟩ := utf8 key listed
    obtain ⟨st, declared⟩ := OrdMap.mem_keys.mp listed
    obtain ⟨n, -, -, recovered⟩ := reopen_recovered bc utf8 maxBytes increasing declared
      (sound.queues name st declared).ready
    obtain ⟨arrivals, stores⟩ := st.recovered_stores ids n
    rw [declared, show (b.reopen bc ids maxBytes).queues.get name.utf8 = _ from recovered, stores]
    exact congrArg some (policy _ _ rfl)
  · have absent : key ∉ (b.reopen bc ids maxBytes).queues.keys := by
      intro found
      obtain ⟨name, rfl⟩ := path.utf8 utf8 key found
      have undeclared := reopen_undeclared bc ids (OrdMap.get_eq_none.mpr listed) maxBytes
      exact OrdMap.get_eq_none.mp undeclared found
    rw [OrdMap.get_eq_none.mpr listed, OrdMap.get_eq_none.mpr absent]

/-- Opening finds the bytes that are there when it is done. -/
theorem Broker.reopen_bytes (sound : b.Sound ids)
    (utf8 : ∀ key ∈ b.queues.keys, ∃ name : String, key = name.utf8) (maxBytes : Option UInt64)
    (increasing : StrictMonoOn ids (Set.Iio (b.reopen bc ids maxBytes).drawn)) :
    (b.reopen bc ids maxBytes).bytes = (b.reopen bc ids maxBytes).totalBytes bc := by
  obtain ⟨⟨moves, path, -⟩, -⟩ := recoverEach_path ids b.names
    { b with bytes := b.totalBytes bc, maxBytes := maxBytes }
  have utf8' : ∀ key ∈ (b.reopen bc ids maxBytes).queues.keys, ∃ name : String, key = name.utf8 :=
    path.utf8 utf8
  have counted : (b.reopen bc ids maxBytes).bytes = b.totalBytes bc := recoverEach_bytes b.names _
  rw [counted, totalBytes_sum utf8, totalBytes_sum utf8', ← sum_names utf8, ← sum_names utf8',
    show (b.reopen bc ids maxBytes).names = b.names from recoverEach_names ids b.names _]
  refine congrArg (fun sizes : List Nat => UInt64.ofNat sizes.sum)
    (List.map_congr_left fun name member => ?_)
  obtain ⟨st, declared⟩ := (mem_names utf8).mp member
  obtain ⟨n, ranked, below, recovered⟩ := reopen_recovered bc utf8 maxBytes increasing declared
      (sound.queues name st declared).ready
  rw [declared, recovered]
  exact (QueueState.recovered_bytes bc ranked below).symm

theorem Refines.recovers {qm qm' : QueueManager} (h : Refines bc qm b) (sound : b.Sound ids)
    (maxBytes : Option UInt64) (h' : Refines bc qm' (b.reopen bc ids maxBytes))
    (increasing : StrictMonoOn ids (Set.Iio (b.reopen bc ids maxBytes).drawn)) :
    RecoversExactly bc ids qm qm' (.reopened (.ok ())) := by
  have each {q : String} (registered : q.utf8 ∈ (qm.db.trees metaQueuesTree).keys) :
      ∃ st n, b.queue q = some st ∧ Ranked ids n st.ready ∧
        StrictMonoOn ids (Set.Iio (n + st.inflight.values.length)) ∧
          (b.reopen bc ids maxBytes).queue q = some (st.recovered ids n) := by
    obtain ⟨st, declared⟩ := h.registered.mp registered
    obtain ⟨n, ranked, below, recovered⟩ :=
      Broker.reopen_recovered bc h.held.utf8 maxBytes increasing declared
        (sound.queues q st declared).ready
    exact ⟨st, n, declared, ranked, below, recovered⟩
  constructor
  · rfl
  · rw [h.held.registered, h'.held.registered]
    exact Broker.reopen_policies bc sound h.held.utf8 maxBytes increasing _ fun _ _ _ => rfl
  · rw [h.held.policies, h'.held.policies]
    exact Broker.reopen_policies bc sound h.held.utf8 maxBytes increasing _ fun _ _ same =>
      congrArg bc.policy.encode same
  · intro q registered
    obtain ⟨st, n, declared, ranked, below, recovered⟩ := each registered
    obtain ⟨arrivals, stores⟩ := st.recovered_stores ids n
    have tree := h'.held.stores q _ recovered .inflight
    rw [stores] at tree
    exact congrArg OrdMap.entries tree
  · intro q registered c
    obtain ⟨st, n, declared, ranked, below, recovered⟩ := each registered
    obtain ⟨arrivals, stores⟩ := st.recovered_stores ids n
    have tree : qm'.db.trees q = (st.recovered ids n).tree bc .ready :=
      h'.held.stores q _ recovered .ready
    have ready : qm.db.trees q = st.tree bc .ready := h.held.stores q st declared .ready
    have inflight : qm.db.trees (inflightTreeName q) = st.tree bc .inflight :=
      h.held.stores q st declared .inflight
    have values : (st.tree bc .inflight).values = st.inflight.values.map bc.message.encode := by
      rw [QueueState.tree, OrdMap.image_values]
    rw [tree, ready, inflight, QueueState.readyLine_tree, QueueState.readyLine_tree, values,
      encoded_inClass, stores, lineIn_enqueue ranked below, List.map_append]
  · intro q registered role member
    obtain ⟨st, n, declared, ranked, below, recovered⟩ := each registered
    obtain ⟨arrivals, stores⟩ := st.recovered_stores ids n
    rw [h'.held.stores q _ recovered, h.held.stores q st declared, stores]
    fin_cases member <;> rfl
  · intro clock
    rw [h'.recalculates, h'.bytes, Broker.reopen_bytes sound h.held.utf8 maxBytes increasing]

end Exact

/-- In every run whose queue names do not collide, opening the store again is exact. -/
theorem recovery_exact (bc : Bincode) (ids : Nat → UInt64) (maxBytes : Option UInt64)
    (steps : List Step) (apart : NonColliding (declaredNames steps)) (limit : Option UInt64)
    (clock : Nat → Int64)
    (increasing : Increasing ids
      (final bc ids (started bc ids maxBytes) (steps ++ [⟨.reopen limit, clock⟩]))) :
    RecoversExactly bc ids (final bc ids (started bc ids maxBytes) steps)
      ((Operation.reopen limit).perform bc ids clock (final bc ids (started bc ids maxBytes) steps)).2
      ((Operation.reopen limit).perform bc ids clock
        (final bc ids (started bc ids maxBytes) steps)).1 := by
  have names : declaredNames (steps ++ [⟨.reopen limit, clock⟩]) = declaredNames steps := by
    rw [declaredNames_append]
    exact List.append_nil _
  obtain ⟨b, performs⟩ := run_last (names.symm ▸ apart) increasing
  have after := performs.after
  rw [final_append] at after
  rw [performs.response]
  exact performs.before.recovers performs.sound limit after performs.increasing

/-- Two queues with messages in flight, one of them retried. -/
def heldRun : List Step :=
  [⟨.declareQueueWithRetention "a" default, fun _ => 0⟩,
    ⟨.declareQueueWithRetention "b" default, fun _ => 0⟩,
    ⟨.publish "a" ⟨1, [], [], 0, 0, 3, none, none⟩, fun _ => 0⟩,
    ⟨.publish "a" ⟨2, [], [], 0, 0, 3, none, none⟩, fun _ => 0⟩,
    ⟨.publish "b" ⟨3, [], [], 0, 0, 200, none, none⟩, fun _ => 0⟩,
    ⟨.consume "a", fun _ => 0⟩, ⟨.nack "a" 0, fun _ => 0⟩,
    ⟨.consume "a", fun _ => 0⟩, ⟨.consume "b", fun _ => 0⟩]

def heldManager : QueueManager := final bincode (counter 0) (started bincode (counter 0) none) heldRun

theorem heldRun_recovers :
    (heldManager.db.trees (inflightTreeName "a")).values.length = 1 ∧
      RecoversExactly bincode (counter 0) heldManager
        ((Operation.reopen none).perform bincode (counter 0) (fun _ => 0) heldManager).2
        ((Operation.reopen none).perform bincode (counter 0) (fun _ => 0) heldManager).1 := by
  refine ⟨by decide +kernel, recovery_exact bincode (counter 0) none heldRun (by decide) none
    (fun _ => 0) (counter_increasing ?_)⟩
  decide +kernel

end PelicanQ
