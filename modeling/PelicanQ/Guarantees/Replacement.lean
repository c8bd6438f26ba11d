import PelicanQ.Broker.Nodes
import PelicanQ.Raft.Effects

/-! # Installing a snapshot over what is there

A restore enters a snapshot on top of what the manager holds and removes
nothing.  So the manager exports the snapshot afterwards exactly when it held
nothing that would stay: no queue that the snapshot does not have, nothing
ready, scheduled or dead-lettered, and in flight only under tags that the
snapshot overwrites.
-/

namespace PelicanQ

/-- Nothing of the queue stays beside what a snapshot enters. -/
structure QueueState.Yields (st : QueueState) (qs : QueueSnapshot) : Prop where
  ready : st.ready = .empty
  scheduled : st.scheduled = .empty
  deadLetter : st.deadLetter = .empty
  inflight : ∀ tag ∈ st.inflight.keys, tag ∈ qs.inflight.map Prod.fst

section Stores

variable {ids : Nat → UInt64} {n : Nat}

/-- Messages entered under new ids are all there is exactly when there was nothing before. -/
theorem entered_values {A : Type} [LinearOrder A] (class_ : Message → A)
    {m : OrdMap (A ×ₗ UInt64) Message} (old : ∀ e ∈ m.entries, ∃ i < n, (ofLex e.1).2 = ids i)
    {messages : List Message} (ordered : messages.Pairwise fun v v' => class_ v ≤ class_ v')
    (increasing : StrictMonoOn ids (Set.Iio (n + messages.length))) :
    (((numbered ids n messages).map (keyed class_)).foldl (fun m e => m.insert e.1 e.2) m).values =
      messages ↔ m = .empty := by
  have sorted := keyed_sorted class_ ordered increasing
  have values : ((numbered ids n messages).map (keyed class_)).map Prod.snd = messages := by
    rw [List.map_map]
    exact numbered_values ids n messages
  have fresh : ∀ e ∈ (numbered ids n messages).map (keyed class_), e.1 ∉ m.keys := by
    intro e listed member
    obtain ⟨e', inside, rfl⟩ := List.mem_map.mp listed
    obtain ⟨j, le, below, id⟩ := mem_numbered inside
    obtain ⟨e'', stored, key⟩ := List.mem_map.mp member
    obtain ⟨i, before, same⟩ := old e'' stored
    rw [key] at same
    have less : ids i < ids j := increasing (by simp; omega) (by simpa using below) (by omega)
    exact less.ne (same.symm.trans id)
  generalize (numbered ids n messages).map (keyed class_) = entered at sorted values fresh
  constructor
  · intro same
    apply OrdMap.ext_entries
    by_contra filled
    obtain ⟨e, member⟩ := List.exists_mem_of_ne_nil _ filled
    -- an old key and all new ones are too many
    have distinct : (e.1 :: entered.map Prod.fst).Nodup := by
      refine List.nodup_cons.mpr ⟨fun again => ?_, (List.pairwise_map.mpr sorted).imp LT.lt.ne⟩
      obtain ⟨e', listed, key⟩ := List.mem_map.mp again
      exact fresh e' listed (key ▸ List.mem_map_of_mem member)
    have within : (e.1 :: entered.map Prod.fst) ⊆
        (entered.foldl (fun m e => m.insert e.1 e.2) m).keys := by
      intro k listed
      rw [OrdMap.mem_keys_foldl_insert]
      rcases List.mem_cons.mp listed with rfl | new
      · exact .inl (List.mem_map_of_mem member)
      · exact .inr new
    have count := (distinct.subperm within).length_le
    have lengths := congrArg List.length (same.trans values.symm)
    rw [OrdMap.values, List.length_map, List.length_map] at lengths
    rw [OrdMap.keys, List.length_map, List.length_cons, List.length_map, lengths] at count
    omega
  · rintro rfl
    have entries := OrdMap.foldl_insert_sorted (m := .empty) sorted
      fun _ member => absurd member List.not_mem_nil
    rw [OrdMap.values, entries, OrdMap.entries_empty, List.nil_append, values]

/-- The messages of one store entered over another, where keys begin with the class. -/
theorem store_replaced {A : Type} [LinearOrder A] (class_ : Message → A) {ids₀ : Nat → UInt64}
    {n₀ n' : Nat} {m m₀ : OrdMap (A ×ₗ UInt64) Message}
    (made : ∀ e ∈ m.entries, ∃ i < n, e.1 = toLex (class_ e.2, ids i)) (le : n ≤ n')
    (made₀ : ∀ e ∈ m₀.entries, ∃ i < n₀, e.1 = toLex (class_ e.2, ids₀ i))
    (increasing : StrictMonoOn ids (Set.Iio (n' + m₀.values.length))) :
    (((numbered ids n' m₀.values).map (keyed class_)).foldl (fun m e => m.insert e.1 e.2) m).values =
      m₀.values ↔ m = .empty := by
  refine entered_values class_ (fun e member => ?_) ?_ increasing
  · obtain ⟨i, below, key⟩ := made e member
    exact ⟨i, below.trans_le le, congrArg (fun k => (ofLex k).2) key⟩
  · refine List.pairwise_map.mpr (m₀.sorted.imp_of_mem fun {e e'} here there less => ?_)
    obtain ⟨i, -, key⟩ := made₀ e here
    obtain ⟨i', -, key'⟩ := made₀ e' there
    rw [key, key', Prod.Lex.lt_iff] at less
    exact less.elim le_of_lt fun both => both.1.le

variable {ids₀ : Nat → UInt64} {n₀ n' : Nat} {st st₀ : QueueState}

/-- A queue lists what was entered, and nothing else, exactly when it yields. -/
theorem entered_snapshot_iff (made : st.Each (Place.Made ids n)) (le : n ≤ n')
    (made₀ : st₀.Each (Place.Made ids₀ n₀))
    (increasing : StrictMonoOn ids (Set.Iio (n' + st₀.snapshot.draws))) :
    ((st₀.snapshot.changes ids n').foldl QueueState.apply { st with policy := st₀.policy }).snapshot =
      st₀.snapshot ↔ st.Yields st₀.snapshot := by
  have upTo {count : Nat} (le : count ≤ n' + st₀.snapshot.draws) :
      StrictMonoOn ids (Set.Iio count) := increasing.mono (Set.Iio_subset_Iio le)
  have lengths : st₀.snapshot.draws =
      st₀.ready.values.length + st₀.scheduled.values.length + st₀.deadLetter.values.length := rfl
  have ready := store_replaced (fun m => rank m.priority) (QueueState.ready_made made) le
    (QueueState.ready_made made₀) (upTo (by omega))
  have scheduled := store_replaced (fun m => (m.deliverAt.getD 0).toUInt64)
    (QueueState.scheduled_made made) (le.trans (Nat.le_add_right n' st₀.ready.values.length))
    (QueueState.scheduled_made made₀) (upTo (by omega))
  have deadLetter := store_replaced (fun m => rank m.priority) (QueueState.deadLetter_made made)
    (le.trans (Nat.le_add_right n' (st₀.ready.values.length + st₀.scheduled.values.length)))
    (QueueState.deadLetter_made made₀) (upTo (by omega))
  have inflight : st₀.inflight.entries.foldl (fun m e => m.insert e.1 e.2) st.inflight =
      st₀.inflight ↔ ∀ tag ∈ st.inflight.keys, tag ∈ st₀.inflight.keys :=
    OrdMap.foldl_insert_eq_iff
  rw [← Nat.add_assoc] at deadLetter
  rw [apply_changes]
  constructor
  · intro same
    refine ⟨ready.mp (congrArg QueueSnapshot.messages same),
      scheduled.mp (congrArg QueueSnapshot.scheduled same),
      deadLetter.mp (congrArg QueueSnapshot.deadLetter same),
      inflight.mp (OrdMap.ext_entries (congrArg QueueSnapshot.inflight same))⟩
  · intro yields
    rw [QueueState.snapshot, QueueSnapshot.mk.injEq]
    exact ⟨rfl, ready.mpr yields.ready, scheduled.mpr yields.scheduled,
      congrArg OrdMap.entries (inflight.mpr yields.inflight), deadLetter.mpr yields.deadLetter⟩

end Stores

/-! ## Brokers -/

section Brokers

variable {ids ids₀ : Nat → UInt64} {b b₀ : Broker}

/-- A broker exports what was restored exactly when every queue it had is restored and yields. -/
theorem restore_exported_iff (bc : Bincode) (made : b.Made ids) (made₀ : b₀.Made ids₀)
    (utf8₀ : ∀ key ∈ b₀.queues.keys, ∃ name : String, key = name.utf8)
    (utf8' : ∀ key ∈ (b.restore bc ids b₀.exported).queues.keys, ∃ name : String, key = name.utf8)
    (increasing : StrictMonoOn ids (Set.Iio (b.restore bc ids b₀.exported).drawn)) :
    (b.restore bc ids b₀.exported).exported = b₀.exported ↔
      ∀ name st, b.queue name = some st →
        ∃ st₀, b₀.queue name = some st₀ ∧ st.Yields st₀.snapshot := by
  -- what a restored queue lists depends on what it held
  have listed {name : String} {st₀ : QueueState} (declared₀ : b₀.queue name = some st₀) :
      ((b.restore bc ids b₀.exported).queue name).map QueueState.snapshot = some st₀.snapshot ↔
        ∀ st, b.queue name = some st → st.Yields st₀.snapshot := by
    obtain ⟨n, le, fits, queue⟩ := restore_queue ids bc b utf8₀ declared₀
    have upTo := increasing.mono (Set.Iio_subset_Iio fits)
    rw [queue, Option.map_some, Option.some.injEq]
    cases declared : b.queue name with
    | none =>
        refine iff_of_true ?_ fun st impossible => by cases impossible
        have yields : (QueueState.fresh st₀.policy).Yields st₀.snapshot :=
          ⟨rfl, rfl, rfl, fun _ member => absurd member List.not_mem_nil⟩
        exact (entered_snapshot_iff (.fresh st₀.policy) le (made₀ name st₀ declared₀) upTo).mpr yields
    | some st =>
        refine (entered_snapshot_iff (made name st declared) le (made₀ name st₀ declared₀) upTo).trans
          ⟨fun yields st' same => Option.some.inj same ▸ yields, fun each => each st rfl⟩
  constructor
  · intro same name st declared
    have exported := exported_get utf8' name
    rw [same, exported_get utf8₀ name] at exported
    cases declared₀ : b₀.queue name with
    | none =>
        rw [declared₀, restore_queue_other bc b utf8₀ declared₀, declared] at exported
        cases exported
    | some st₀ =>
        rw [declared₀] at exported
        exact ⟨st₀, rfl, (listed declared₀).mp exported.symm st declared⟩
  · intro each
    refine exported_congr utf8' utf8₀ fun name => ?_
    cases declared₀ : b₀.queue name with
    | none =>
        rw [restore_queue_other bc b utf8₀ declared₀]
        cases declared : b.queue name with
        | none => rfl
        | some st =>
            obtain ⟨st₀, found, -⟩ := each name st declared
            rw [declared₀] at found
            cases found
    | some st₀ =>
        refine (listed declared₀).mpr fun st declared => ?_
        obtain ⟨st₀', found, yields⟩ := each name st declared
        rw [declared₀, Option.some.injEq] at found
        exact found ▸ yields

end Brokers

/-! ## Stores -/

/-- Every queue the manager has is in the snapshot, with nothing ready, scheduled or
    dead-lettered, and in flight only under tags of the snapshot. -/
def Replaceable (qm : QueueManager) (snapshot : QueueManagerSnapshot) : Prop :=
  ∀ q : String, q.utf8 ∈ (qm.db.trees metaQueuesTree).keys →
    ∃ qs, snapshot.queues.get ⟨q⟩ = some qs ∧
      (∀ role ∈ [Role.ready, .scheduled, .deadLetter], qm.db.trees (role.treeName q) = .empty) ∧
      ∀ tag : UInt64, tag.toBeBytes ∈ (qm.db.trees (inflightTreeName q)).keys →
        tag ∈ qs.inflight.map Prod.fst

theorem replaceable_iff {bc : Bincode} {qm : QueueManager} {b b₀ : Broker} (h : Refines bc qm b)
    (utf8₀ : ∀ key ∈ b₀.queues.keys, ∃ name : String, key = name.utf8) :
    Replaceable qm b₀.exported ↔ ∀ name st, b.queue name = some st →
      ∃ st₀, b₀.queue name = some st₀ ∧ st.Yields st₀.snapshot := by
  have tags {name : String} {st : QueueState} (declared : b.queue name = some st) (tag : UInt64) :
      tag.toBeBytes ∈ (qm.db.trees (inflightTreeName name)).keys ↔ tag ∈ st.inflight.keys := by
    rw [show inflightTreeName name = Role.inflight.treeName name from rfl,
      h.held.stores name st declared, ← not_iff_not, ← OrdMap.get_eq_none, ← OrdMap.get_eq_none,
      QueueState.get_inflight, Option.map_eq_none_iff]
  have empty {name : String} {st : QueueState} (declared : b.queue name = some st) :
      (∀ role ∈ [Role.ready, .scheduled, .deadLetter], qm.db.trees (role.treeName name) = .empty) ↔
        st.ready = .empty ∧ st.scheduled = .empty ∧ st.deadLetter = .empty := by
    simp [h.held.stores name st declared, QueueState.tree, OrdMap.image_eq_empty]
  constructor
  · intro replaceable name st declared
    obtain ⟨qs, found, stores, inflight⟩ := replaceable name (h.registered.mpr ⟨st, declared⟩)
    rw [exported_get utf8₀, Option.map_eq_some_iff] at found
    obtain ⟨st₀, declared₀, rfl⟩ := found
    obtain ⟨ready, scheduled, deadLetter⟩ := (empty declared).mp stores
    exact ⟨st₀, declared₀, ready, scheduled, deadLetter,
      fun tag member => inflight tag ((tags declared tag).mpr member)⟩
  · intro each q registered
    obtain ⟨st, declared⟩ := h.registered.mp registered
    obtain ⟨st₀, declared₀, yields⟩ := each q st declared
    refine ⟨st₀.snapshot, ?_, (empty declared).mpr ⟨yields.ready, yields.scheduled,
      yields.deadLetter⟩, fun tag member => yields.inflight tag ((tags declared tag).mp member)⟩
    rw [exported_get utf8₀, declared₀, Option.map_some]

/-- Installing a snapshot always succeeds, and replaces the state exactly when nothing that the
    replica held would stay. -/
theorem install_replaces_iff (bc : Bincode) (json : SerdeJson) (ids : Nat → Nat → UInt64)
    (limits : Nat → Option UInt64) (steps : List NodeStep)
    (apart : NonColliding (steps.flatMap fun step => step.action.declares)) (node : Nat)
    (snapshot : QueueManagerSnapshot)
    (exported : snapshot ∈ (Nodes.after bc ids limits steps).snapshots) (store : RaftStore)
    (held : store.stateMachine = (Nodes.after bc ids limits steps).managers node)
    (info : SnapshotMeta) (clock : Nat → Int64) (installed : StoreResponse × RaftStore)
    (installs : (StoreOperation.installSnapshot info (json.snapshot.encode snapshot)).perform bc json
      (ids node) clock store = installed)
    (increasing : Increasing (ids node) installed.2.stateMachine) :
    installed.1 = .done (.ok ()) ∧
      (exportOf bc (ids node) installed.2.stateMachine = .ok snapshot ↔
        Replaceable store.stateMachine snapshot) := by
  have stands := Nodes.after_made bc ids limits apart fun step member a declares =>
    List.mem_flatMap.mpr ⟨step, member, declares⟩
  obtain ⟨b, refines, made, known⟩ := stands.managers node
  obtain ⟨⟨ids₀, b₀, made₀, utf8₀, rfl⟩, each⟩ := stands.snapshots snapshot exported
  rw [← held] at refines
  have within : ∀ a ∈ namesOf b₀.exported.queues.entries ++ b.names,
      a ∈ steps.flatMap fun step => step.action.declares := by
    intro a member
    rcases List.mem_append.mp member with new | old
    · obtain ⟨e, inside, rfl⟩ := List.mem_map.mp new
      exact (each e inside).2
    · exact known a old
  obtain ⟨ok, after⟩ := restore_refines (ids node) (s := ⟨store.stateMachine, clock⟩) refines
    (apart.subset within) fun e member => (each e member).1
  have decoded : PelicanQ.installSnapshot bc json.snapshot (json.snapshot.encode b₀.exported) =
      QueueManager.restoreFromSnapshot bc b₀.exported := by
    rw [PelicanQ.installSnapshot, json.snapshot.decode_encode]
  have run := RaftStore.installSnapshot_run bc json (ids node) ⟨store, clock⟩ info
    (json.snapshot.encode b₀.exported)
  rw [decoded, show StoreMachine.machine ⟨store, clock⟩ = ⟨store.stateMachine, clock⟩ from rfl,
    ok] at run
  rw [StoreOperation.perform, execStore, run] at installs
  subst installs
  refine ⟨rfl, ?_⟩
  rw [replaceable_iff refines utf8₀, ← restore_exported_iff bc made made₀ utf8₀
    after.held.utf8 (after.increasing increasing)]
  have lists := exportOf_refines (ids node) after
  exact ⟨fun same => Outcome.ok.inj (lists.symm.trans same), fun same =>
    lists.trans (congrArg Outcome.ok same)⟩

/-- A replica with some operations behind it, and another one that exports a snapshot. -/
def behind (held : List Operation) : List NodeStep :=
  ⟨0, .perform (.declareQueueWithRetention "q" default), fun _ => 5⟩ ::
    held.map (fun op => ⟨0, .perform op, fun _ => 5⟩) ++ exportDelivered 1

def storeBehind (held : List Operation) : RaftStore :=
  ⟨.empty, (Nodes.after bincode (fun _ => counter 0) (fun _ => none) (behind held)).managers 0, none⟩

/-- The snapshot is installed on the replica that is behind. -/
def installedBehind (held : List Operation) : StoreResponse × RaftStore :=
  (StoreOperation.installSnapshot ⟨none, default, ""⟩ (serdeJson.snapshot.encode deliveredSnapshot)).perform
    bincode serdeJson (counter 0) (fun _ => 6) (storeBehind held)

/-- The first message was published and delivered. -/
def firstDelivered : List Operation :=
  [.publish "q" ⟨1, [], [], 0, 0, 3, none, none⟩, .consume "q"]

/-- The replica has the first message in flight, under the tag it has in the snapshot. -/
theorem delivered_replaced :
    exportOf bincode (counter 0) (installedBehind firstDelivered).2.stateMachine =
      .ok deliveredSnapshot := by
  have drawn : (installedBehind firstDelivered).2.stateMachine.db.drawn = 2 := by
    decide +kernel
  have queues : ((storeBehind firstDelivered).stateMachine.db.trees metaQueuesTree).keys =
      ["q".utf8] := by
    decide +kernel
  have tags : ((storeBehind firstDelivered).stateMachine.db.trees (inflightTreeName "q")).keys =
      [(0 : UInt64).toBeBytes] := by
    decide +kernel
  have increasing : Increasing (counter 0) (installedBehind firstDelivered).2.stateMachine :=
    counter_increasing (by rw [drawn]; decide)
  refine (install_replaces_iff bincode serdeJson (fun _ => counter 0) (fun _ => none)
    (behind firstDelivered) (by decide) 0 deliveredSnapshot (by decide +kernel)
    (storeBehind firstDelivered) (by rw [storeBehind]) ⟨none, default, ""⟩ (fun _ => 6)
    (installedBehind firstDelivered) (by rw [installedBehind]) increasing).2.mpr ?_
  intro q registered
  rw [queues, List.mem_singleton] at registered
  obtain rfl := String.utf8_injective registered
  refine ⟨_, rfl, by decide +kernel, fun tag inside => ?_⟩
  rw [tags, List.mem_singleton] at inside
  obtain rfl := UInt64.toBeBytes_injective inside
  decide

/-- The replica has the first message ready: it stays ready next to what the snapshot says. -/
theorem ready_duplicated :
    (installedBehind [.publish "q" ⟨1, [], [], 0, 0, 3, none, none⟩]).1 = .done (.ok ()) ∧
      exportOf bincode (counter 0)
        (installedBehind [.publish "q" ⟨1, [], [], 0, 0, 3, none, none⟩]).2.stateMachine ≠
          .ok deliveredSnapshot := by
  decide +kernel

end PelicanQ
