import PelicanQ.Broker.Nodes
import PelicanQ.Guarantees.Tags

/-! # Tags that come with a snapshot

A restored queue has in flight what the exporting one had, under tags that were
handed out there, while its own messages get ids of the local database.  As long
as no local id is one of those tags, a delivery never finds its tag taken, and a
restored delivery stays in flight until it is settled.
-/

namespace PelicanQ

theorem Move.puts_ready {policy : RetentionPolicy} {id : UInt64} {mv : Move} {key : ReadyKey}
    {m : Message} (puts : mv.puts policy id = some (.ready key, m)) :
    ReadyKey.id key = id ∧ mv.draws = 1 := by
  cases mv with
  | store m due =>
      cases due with
      | none =>
          cases puts
          exact ⟨rfl, rfl⟩
      | some => cases puts
  | record | settle | discard | deliver => cases puts
  | retry tag m =>
      simp only [Move.puts] at puts
      split_ifs at puts <;> cases puts
      exact ⟨rfl, rfl⟩
  | promote | requeue =>
      cases puts
      exact ⟨rfl, rfl⟩

theorem Move.puts_inflight {policy : RetentionPolicy} {id : UInt64} {mv : Move} {tag : UInt64}
    {m : Message} (puts : mv.puts policy id = some (.inflight tag, m)) :
    ∃ key, mv = .deliver key m ∧ tag = ReadyKey.id key := by
  cases mv with
  | deliver key m =>
      cases puts
      exact ⟨key, rfl, rfl⟩
  | store m due => cases due <;> cases puts
  | record | settle | discard | promote | requeue => cases puts
  | retry tag m =>
      simp only [Move.puts] at puts
      split_ifs at puts <;> cases puts

/-- The ids a queue uses: ready messages have different local ones, tags in flight are local or
    foreign, and no ready message has the id of one in flight. -/
structure QueueState.Tagged (ids : Nat → UInt64) (n : Nat) (foreign : UInt64 → Prop)
    (st : QueueState) : Prop where
  ready : ∀ key ∈ st.ready.keys, ∃ i < n, ReadyKey.id key = ids i
  distinct : ∀ key ∈ st.ready.keys, ∀ key' ∈ st.ready.keys,
    ReadyKey.id key = ReadyKey.id key' → key = key'
  inflight : ∀ tag ∈ st.inflight.keys, foreign tag ∨ ∃ i < n, tag = ids i
  apart : ∀ key ∈ st.ready.keys, ReadyKey.id key ∉ st.inflight.keys

namespace QueueState.Tagged

variable {ids : Nat → UInt64} {n : Nat} {foreign : UInt64 → Prop} {st : QueueState}

theorem mono (tagged : st.Tagged ids n foreign) {n' : Nat} (le : n ≤ n') :
    st.Tagged ids n' foreign where
  ready key member :=
    let ⟨i, below, same⟩ := tagged.ready key member
    ⟨i, below.trans_le le, same⟩
  distinct := tagged.distinct
  inflight tag member :=
    (tagged.inflight tag member).imp_right fun ⟨i, below, same⟩ => ⟨i, below.trans_le le, same⟩
  apart := tagged.apart

theorem fresh (ids : Nat → UInt64) (n : Nat) (foreign : UInt64 → Prop) (policy : RetentionPolicy) :
    (QueueState.fresh policy).Tagged ids n foreign := by
  constructor <;> simp [QueueState.fresh, OrdMap.keys]

/-- A move keeps this as long as the local ids are not foreign. -/
theorem move (tagged : st.Tagged ids n foreign) {mv : Move} (enabled : mv.Enabled st)
    (increasing : StrictMonoOn ids (Set.Iio (n + mv.draws)))
    (free : ∀ i < n + mv.draws, ¬ foreign (ids i)) :
    (st.move (ids n) mv).Tagged ids (n + mv.draws) foreign := by
  have before {i : Nat} (below : i < n) (one : mv.draws = 1) : ids i ≠ ids n := by
    refine (increasing ?_ ?_ below).ne <;> simp [one]
    omega
  have at_ready {key : ReadyKey} (member : key ∈ (st.move (ids n) mv).ready.keys) :
      (∃ m, mv.puts st.policy (ids n) = some (.ready key, m)) ∨
        mv.takes ≠ some (.ready key) ∧ key ∈ st.ready.keys := by
    obtain ⟨m, present⟩ := OrdMap.mem_keys.mp member
    have found : (st.move (ids n) mv).lookup (.ready key) = some m := present
    rcases QueueState.lookup_moved found with puts | ⟨left, old⟩
    · exact .inl ⟨m, puts⟩
    · exact .inr ⟨left, OrdMap.mem_keys.mpr ⟨m, old⟩⟩
  have at_inflight {tag : UInt64} (member : tag ∈ (st.move (ids n) mv).inflight.keys) :
      (∃ key m, mv = .deliver key m ∧ tag = ReadyKey.id key) ∨ tag ∈ st.inflight.keys := by
    obtain ⟨m, present⟩ := OrdMap.mem_keys.mp member
    have found : (st.move (ids n) mv).lookup (.inflight tag) = some m := present
    rcases QueueState.lookup_moved found with puts | ⟨-, old⟩
    · obtain ⟨key, same, id⟩ := Move.puts_inflight puts
      exact .inl ⟨key, m, same, id⟩
    · exact .inr (OrdMap.mem_keys.mpr ⟨m, old⟩)
  have delivered {key : ReadyKey} {m : Message} (same : mv = .deliver key m) :
      key ∈ st.ready.keys := by
    rw [same] at enabled
    exact OrdMap.mem_keys.mpr ⟨m, enabled⟩
  -- a new key is not that of an old one
  have new_apart {key key' : ReadyKey} {m : Message}
      (puts : mv.puts st.policy (ids n) = some (.ready key, m)) (old : key' ∈ st.ready.keys) :
      ReadyKey.id key ≠ ReadyKey.id key' := by
    obtain ⟨id, one⟩ := Move.puts_ready puts
    obtain ⟨i, below, id'⟩ := tagged.ready key' old
    rw [id, id']
    exact (before below one).symm
  constructor
  · intro key member
    rcases at_ready member with ⟨m, puts⟩ | ⟨-, old⟩
    · obtain ⟨id, one⟩ := Move.puts_ready puts
      exact ⟨n, by omega, id⟩
    · obtain ⟨i, below, id⟩ := tagged.ready key old
      exact ⟨i, by omega, id⟩
  · intro key member key' member' same
    rcases at_ready member with ⟨m, puts⟩ | ⟨-, old⟩
    · rcases at_ready member' with ⟨m', puts'⟩ | ⟨-, old'⟩
      · rw [puts] at puts'
        cases puts'
        rfl
      · exact absurd same (new_apart puts old')
    · rcases at_ready member' with ⟨m', puts'⟩ | ⟨-, old'⟩
      · exact absurd same.symm (new_apart puts' old)
      · exact tagged.distinct key old key' old' same
  · intro tag member
    rcases at_inflight member with ⟨key, m, same, rfl⟩ | old
    · obtain ⟨i, below, id⟩ := tagged.ready key (delivered same)
      exact .inr ⟨i, by omega, id⟩
    · refine (tagged.inflight tag old).imp_right ?_
      rintro ⟨i, below, id⟩
      exact ⟨i, by omega, id⟩
  · intro key member taken
    rcases at_ready member with ⟨m, puts⟩ | ⟨left, old⟩
    · obtain ⟨id, one⟩ := Move.puts_ready puts
      rw [id] at taken
      rcases at_inflight taken with ⟨key', m', rfl, -⟩ | old
      · cases one
      · rcases tagged.inflight _ old with foreign | ⟨i, below, same⟩
        · exact free n (by omega) foreign
        · exact before below one same.symm
    · rcases at_inflight taken with ⟨key', m, same, id⟩ | old'
      · have key_eq := tagged.distinct key old key' (delivered same) id
        rw [same, key_eq] at left
        exact left rfl
      · exact tagged.apart key old old'

end QueueState.Tagged

/-! ## Restored queues -/

section Restored

variable {ids : Nat → UInt64} {n : Nat}

theorem numbered_increasing {messages : List Message}
    (increasing : StrictMonoOn ids (Set.Iio (n + messages.length))) :
    ((numbered ids n messages).map Prod.fst).Pairwise (· < ·) := by
  induction messages generalizing n with
  | nil => exact .nil
  | cons m messages ih =>
      rw [List.length_cons] at increasing
      rw [numbered, List.map_cons, List.pairwise_cons]
      have fits : n + 1 + messages.length = n + (messages.length + 1) := by omega
      refine ⟨fun id member => ?_, ih (fits ▸ increasing)⟩
      obtain ⟨e, listed, rfl⟩ := List.mem_map.mp member
      obtain ⟨i, le, below, id⟩ := mem_numbered listed
      rw [id]
      exact increasing (by simp) (by simp; omega) (by omega)

/-- A new queue that a snapshot is entered into: the tags in flight are those of the snapshot. -/
theorem restored_tagged {qs : QueueSnapshot} {foreign : UInt64 → Prop}
    (tags : ∀ e ∈ qs.inflight, foreign e.1)
    (increasing : StrictMonoOn ids (Set.Iio (n + qs.draws)))
    (free : ∀ i < n + qs.draws, ¬ foreign (ids i)) (policy : RetentionPolicy) :
    ((qs.changes ids n).foldl QueueState.apply (.fresh policy)).Tagged ids (n + qs.draws)
      foreign := by
  have draws : qs.draws = qs.messages.length + qs.scheduled.length + qs.deadLetter.length := rfl
  have numbers : ((numbered ids n qs.messages).map Prod.fst).Pairwise (· < ·) :=
    numbered_increasing (increasing.mono (Set.Iio_subset_Iio (by omega)))
  rw [apply_changes]
  -- what is ready was numbered
  have at_ready {key : ReadyKey} (member : key ∈ (((numbered ids n qs.messages).map
      (keyed fun m => rank m.priority)).foldl (fun m e => m.insert e.1 e.2)
        (OrdMap.empty : OrdMap ReadyKey Message)).keys) :
      ∃ e ∈ numbered ids n qs.messages, key = toLex (rank e.2.priority, e.1) := by
    rw [OrdMap.mem_keys_foldl_insert, List.map_map] at member
    rcases member with none | new
    · exact absurd none List.not_mem_nil
    · obtain ⟨e, listed, same⟩ := List.mem_map.mp new
      exact ⟨e, listed, same.symm⟩
  have at_inflight {tag : UInt64} (member : tag ∈ (qs.inflight.foldl (fun m e => m.insert e.1 e.2)
      (OrdMap.empty : OrdMap UInt64 Message)).keys) : foreign tag := by
    rw [OrdMap.mem_keys_foldl_insert] at member
    rcases member with none | new
    · exact absurd none List.not_mem_nil
    · obtain ⟨e, listed, rfl⟩ := List.mem_map.mp new
      exact tags e listed
  constructor
  · intro key member
    obtain ⟨e, listed, rfl⟩ := at_ready member
    obtain ⟨i, -, below, id⟩ := mem_numbered listed
    exact ⟨i, by omega, id⟩
  · intro key member key' member' same
    obtain ⟨e, listed, rfl⟩ := at_ready member
    obtain ⟨e', listed', rfl⟩ := at_ready member'
    have one : e = e' := List.inj_on_of_nodup_map (numbers.imp LT.lt.ne) listed listed' same
    rw [one]
  · intro tag member
    exact .inl (at_inflight member)
  · intro key member taken
    obtain ⟨e, listed, rfl⟩ := at_ready member
    obtain ⟨i, -, below, id⟩ := mem_numbered listed
    apply free i (by omega)
    rw [← id]
    exact at_inflight taken

end Restored

/-! ## Brokers -/

section Brokers

variable {ids : Nat → UInt64} {b b' : Broker}

/-- Every queue uses the broker's ids, apart from the foreign tags in flight. -/
def Broker.Tagged (ids : Nat → UInt64) (foreign : String → UInt64 → Prop) : Broker → Prop :=
  Broker.Each fun n name st => st.Tagged ids n (foreign name)

theorem Broker.Tagged.path {foreign : String → UInt64 → Prop} (tagged : b.Tagged ids foreign)
    {moves : List (String × Move)} (path : Path ids b moves b')
    (increasing : StrictMonoOn ids (Set.Iio b'.drawn))
    (free : ∀ i < b'.drawn, ∀ name, ¬ foreign name (ids i)) : b'.Tagged ids foreign := by
  refine Broker.Each.path (fun _ _ _ _ le tagged => tagged.mono le)
    (fun n name policy => .fresh ids n (foreign name) policy) path ?_ tagged
  intro n name st mv le enabled tagged
  exact tagged.move enabled (increasing.mono (Set.Iio_subset_Iio le))
    fun i below => free i (below.trans_le le) name

/-- What a restore into an empty broker leaves: the exported messages in flight, and ids of its
    own for the rest. -/
theorem restored_broker (bc : Bincode) {b₀ : Broker} (maxBytes : Option UInt64)
    (utf8₀ : ∀ key ∈ b₀.queues.keys, ∃ name : String, key = name.utf8)
    (foreign : String → UInt64 → Prop)
    (tags : ∀ name st, b₀.queue name = some st → ∀ tag ∈ st.inflight.keys, foreign name tag)
    (increasing : StrictMonoOn ids
      (Set.Iio ((emptyBroker maxBytes).restore bc ids b₀.exported).drawn))
    (free : ∀ i < ((emptyBroker maxBytes).restore bc ids b₀.exported).drawn,
      ∀ name, ¬ foreign name (ids i)) :
    ((emptyBroker maxBytes).restore bc ids b₀.exported).Tagged ids foreign ∧
      ∀ name tag, ((emptyBroker maxBytes).restore bc ids b₀.exported).flight name tag =
        b₀.flight name tag := by
  have undeclared (name : String) : (emptyBroker maxBytes).queue name = none := rfl
  constructor
  · intro name st declared
    cases declared₀ : b₀.queue name with
    | none =>
        rw [restore_queue_other bc _ utf8₀ declared₀, undeclared] at declared
        cases declared
    | some st₀ =>
        obtain ⟨n, -, fits, queue⟩ := restore_queue ids bc (emptyBroker maxBytes) utf8₀ declared₀
        rw [queue, undeclared, Option.some.injEq] at declared
        subst declared
        have listed : ∀ e ∈ st₀.snapshot.inflight, foreign name e.1 := fun e member =>
          tags name st₀ declared₀ e.1 (List.mem_map_of_mem member)
        exact (restored_tagged listed (increasing.mono (Set.Iio_subset_Iio fits))
          (fun i below => free i (below.trans_le fits) name) _).mono fits
  · intro name tag
    cases declared₀ : b₀.queue name with
    | none =>
        rw [Broker.flight_undeclared declared₀, Broker.flight_undeclared]
        rw [restore_queue_other bc _ utf8₀ declared₀, undeclared]
    | some st₀ =>
        obtain ⟨n, -, -, queue⟩ := restore_queue ids bc (emptyBroker maxBytes) utf8₀ declared₀
        have entered : st₀.inflight.entries.foldl (fun m e => m.insert e.1 e.2) .empty =
            st₀.inflight :=
          OrdMap.foldl_insert_eq_iff.mpr fun _ member => absurd member List.not_mem_nil
        rw [Broker.flight_declared declared₀, Broker.flight_declared queue, undeclared, apply_changes]
        exact congrArg (fun m => OrdMap.get m tag) entered

/-- A message in flight stays there unless it is settled, its tag is handed out again or the
    store is reopened. -/
theorem Transition.flight_kept {op : Operation} {r : Response} {moves : List (String × Move)}
    (step : Transition ids b op r moves b') {q : String} {tag : UInt64} {m : Message}
    (present : b.flight q tag = some m) (unsettled : op ≠ .ack q tag ∧ op ≠ .nack q tag)
    (open_ : ∀ maxBytes, op ≠ .reopen maxBytes)
    (other : ∀ m', op = .consume q → r ≠ .consumed (.ok (some (tag, m')))) :
    b'.flight q tag = some m := by
  have quiet (still : ∀ x ∈ moves, x.2.Quiet) : b'.flight q tag = some m :=
    (step.path.flight_quiet still q tag).trans present
  cases step with
  | «exists» | declared | notFound | deduplicated | limited | nothing | invalidAck | invalidNack =>
      exact quiet fun _ member => absurd member List.not_mem_nil
  | stored path others =>
      refine quiet (List.forall_mem_cons.mpr ⟨trivial, fun x member => ?_⟩)
      obtain ⟨mv, inside, rfl⟩ := List.mem_map.mp member
      obtain ⟨key, time, rfl⟩ := others mv inside
      trivial
  | delivered declared front =>
      rw [flight_deliver declared, if_neg, present]
      rintro ⟨rfl, rfl⟩
      exact other _ rfl rfl
  | acked declared found =>
      change (b.move ids _ _).flight q tag = some m
      rw [flight_drop declared rfl, if_neg, present]
      rintro ⟨rfl, rfl⟩
      exact unsettled.1 rfl
  | @nacked name tag' st m' declared found =>
      have drops : (st.move (ids b.drawn) (.retry tag' m')).inflight = st.inflight.erase tag' := by
        simp only [QueueState.move, Move.changes]
        split_ifs <;> rfl
      rw [flight_drop declared drops, if_neg, present]
      rintro ⟨rfl, rfl⟩
      exact unsettled.2 rfl
  | promoted declared path =>
      refine quiet fun x member => ?_
      obtain ⟨e, -, rfl⟩ := List.mem_map.mp member
      trivial
  | retained declared path =>
      refine quiet fun x member => ?_
      obtain ⟨e, -, rfl⟩ := List.mem_map.mp member
      trivial
  | reopened => exact absurd rfl (open_ _)

end Brokers

/-- A tag that is handed out was not in flight. -/
theorem Transition.returned_fresh {ids : Nat → UInt64} {b b' : Broker} {op : Operation}
    {r : Response} {moves : List (String × Move)} (step : Transition ids b op r moves b')
    {foreign : String → UInt64 → Prop} (tagged : b.Tagged ids foreign) {q : String} {tag : UInt64}
    {m : Message} (consumes : op = .consume q) (returns : r = .consumed (.ok (some (tag, m)))) :
    (∃ st, b.queue q = some st) ∧ b.flight q tag = none := by
  cases step with
  | notFound missing =>
      rw [consumes] at missing
      cases missing
      cases returns
  | nothing => cases returns
  | delivered declared front =>
      cases consumes
      cases returns
      rw [Broker.flight_declared declared, OrdMap.get_eq_none]
      exact ⟨⟨_, declared⟩,
        (tagged _ _ declared).apart _ (List.mem_map_of_mem (List.mem_of_mem_head? front))⟩
  | _ => cases consumes

theorem Refines.flight {bc : Bincode} {qm : QueueManager} {b : Broker} (h : Refines bc qm b)
    {q : String} (declared : ∃ st, b.queue q = some st) (tag : UInt64) :
    (qm.db.trees (inflightTreeName q)).get tag.toBeBytes =
      (b.flight q tag).map bc.message.encode := by
  obtain ⟨st, declared⟩ := declared
  rw [show inflightTreeName q = Role.inflight.treeName q from rfl, h.held.stores q st declared,
    QueueState.get_inflight, Broker.flight_declared declared]

/-! ## Runs -/

/-- What a run without reopening keeps, when it starts where `b₀` is: no tag was handed out while
    it was in flight, and what was in flight at the start still is unless it was settled. -/
structure KeepsTags (bc : Bincode) (ids : Nat → UInt64) (qm : QueueManager) (b₀ : Broker)
    (foreign : String → UInt64 → Prop) (past : List Step) (b : Broker) : Prop where
  tagged : b.Tagged ids foreign
  fresh : ∀ e ∈ events bc ids qm past, ∀ q tag m, e.Returned q tag m →
    tag.toBeBytes ∉ (e.before.db.trees (inflightTreeName q)).keys
  kept : ∀ q tag m, b₀.flight q tag = some m →
    (∀ step ∈ past, step.op ≠ .ack q tag ∧ step.op ≠ .nack q tag) → b.flight q tag = some m

section Runs

variable {bc : Bincode} {ids : Nat → UInt64} {qm : QueueManager} {b₀ b : Broker}
  {foreign : String → UInt64 → Prop} {past : List Step} {step : Step}

theorem KeepsTags.next (keeps : KeepsTags bc ids qm b₀ foreign past b)
    (before : Refines bc (final bc ids qm past) b)
    (response : (step.op.perform bc ids step.clock (final bc ids qm past)).1 =
      (b.perform bc ids step.clock step.op).1)
    (open_ : ∀ maxBytes, step.op ≠ .reopen maxBytes)
    (increasing : StrictMonoOn ids (Set.Iio (b.perform bc ids step.clock step.op).2.drawn))
    (free : ∀ i < (b.perform bc ids step.clock step.op).2.drawn, ∀ q, ¬ foreign q (ids i)) :
    KeepsTags bc ids qm b₀ foreign (past ++ [step]) (b.perform bc ids step.clock step.op).2 := by
  obtain ⟨moves, transition⟩ := perform_transition ids bc step.clock b before.held.utf8 step.op
  refine ⟨keeps.tagged.path transition.path increasing free, ?_, ?_⟩
  · intro e member q tag m returned
    rw [events_append] at member
    rcases List.mem_append.mp member with old | new
    · exact keeps.fresh e old q tag m returned
    · rw [List.mem_singleton.mp new] at returned ⊢
      obtain ⟨declared, none⟩ := transition.returned_fresh keeps.tagged returned.1
        (response.symm.trans returned.2)
      have absent := before.flight declared tag
      rw [none, Option.map_none, OrdMap.get_eq_none] at absent
      exact absent
  · intro q tag m present unsettled
    have here := keeps.kept q tag m present fun step' member =>
      unsettled step' (List.mem_append_left _ member)
    refine transition.flight_kept here
      (unsettled step (List.mem_append_right past (List.mem_singleton_self step))) open_
      fun m' consumes returns => ?_
    rw [(transition.returned_fresh keeps.tagged consumes returns).2] at here
    cases here

theorem run_keeps_tags (start : Refines bc qm b₀) (tagged : b₀.Tagged ids foreign)
    (steps : List Step) (open_ : ∀ step ∈ steps, ∀ maxBytes, step.op ≠ .reopen maxBytes)
    (apart : NonColliding (declaredNames steps ++ b₀.names))
    (increasing : Increasing ids (final bc ids qm steps))
    (free : ∀ i < (final bc ids qm steps).db.drawn, ∀ q, ¬ foreign q (ids i)) :
    ∃ b, Refines bc (final bc ids qm steps) b ∧ KeepsTags bc ids qm b₀ foreign steps b := by
  have next : ∀ past step b,
      ((∀ step ∈ past, ∀ maxBytes, step.op ≠ .reopen maxBytes) →
        Increasing ids (final bc ids qm past) →
        (∀ i < (final bc ids qm past).db.drawn, ∀ q, ¬ foreign q (ids i)) →
        KeepsTags bc ids qm b₀ foreign past b) →
      Refines bc (final bc ids qm past) b →
      (step.op.perform bc ids step.clock (final bc ids qm past)).1 =
        (b.perform bc ids step.clock step.op).1 →
      Refines bc (final bc ids qm (past ++ [step])) (b.perform bc ids step.clock step.op).2 →
      (∀ step' ∈ past ++ [step], ∀ maxBytes, step'.op ≠ .reopen maxBytes) →
      Increasing ids (final bc ids qm (past ++ [step])) →
      (∀ i < (final bc ids qm (past ++ [step])).db.drawn, ∀ q, ¬ foreign q (ids i)) →
      KeepsTags bc ids qm b₀ foreign (past ++ [step]) (b.perform bc ids step.clock step.op).2 := by
    intro past step b keeps before response after open_ increasing free
    obtain ⟨moves, transition⟩ := perform_transition ids bc step.clock b before.held.utf8 step.op
    have drawn : (final bc ids qm past).db.drawn ≤ (final bc ids qm (past ++ [step])).db.drawn := by
      rw [before.drawn, after.drawn]
      exact transition.path.drawn_le
    refine (keeps (fun step' member => open_ step' (List.mem_append_left _ member))
      (increasing.mono (Set.Iio_subset_Iio drawn))
      fun i below => free i (below.trans_le drawn)).next before response
        (open_ step (List.mem_append_right past (List.mem_singleton_self step)))
        (after.increasing increasing) ?_
    rw [← after.drawn]
    exact free
  obtain ⟨b, refines, -, keeps⟩ := run_refines_from ids start _
    (fun _ _ _ => ⟨tagged, fun _ member => absurd member List.not_mem_nil,
      fun _ _ _ present _ => present⟩) next steps apart
  exact ⟨b, refines, keeps open_ increasing free⟩

end Runs

/-- Queue `q` has the message in flight under the tag in the snapshot. -/
def InSnapshot (snapshot : QueueManagerSnapshot) (q : String) (tag : UInt64) (m : Message) : Prop :=
  ∃ qs, snapshot.queues.get ⟨q⟩ = some qs ∧ (tag, m) ∈ qs.inflight

theorem inSnapshot_exported {b : Broker}
    (utf8 : ∀ key ∈ b.queues.keys, ∃ name : String, key = name.utf8) {q : String} {tag : UInt64}
    {m : Message} : InSnapshot b.exported q tag m ↔ b.flight q tag = some m := by
  rw [InSnapshot, exported_get utf8]
  cases declared : b.queue q with
  | none =>
      rw [Broker.flight_undeclared declared]
      refine iff_of_false ?_ (by rintro ⟨⟩)
      rintro ⟨qs, found, -⟩
      cases found
  | some st =>
      rw [Broker.flight_declared declared, OrdMap.get_eq_some]
      constructor
      · rintro ⟨qs, found, member⟩
        cases found
        exact member
      · intro member
        exact ⟨st.snapshot, rfl, member⟩

/-- After a restore into an empty manager, a run without reopening never hands out a tag that is
    in flight and keeps what was restored in flight until it is settled, as long as the ids
    handed out are none of the tags in the snapshot. -/
theorem restored_tags_kept (bc : Bincode) (ids : Nat → Nat → UInt64) (limits : Nat → Option UInt64)
    (nodeSteps : List NodeStep) (snapshot : QueueManagerSnapshot)
    (exported : snapshot ∈ (Nodes.after bc ids limits nodeSteps).snapshots)
    (ids' : Nat → UInt64) (maxBytes : Option UInt64) (clock : Nat → Int64)
    (restored : Outcome PelicanError Unit × QueueManager)
    (restores : restoreInto bc ids' clock (started bc ids' maxBytes) snapshot = restored)
    (steps : List Step) (open_ : ∀ step ∈ steps, ∀ maxBytes, step.op ≠ .reopen maxBytes)
    (apart : NonColliding ((nodeSteps.flatMap fun step => step.action.declares) ++
      declaredNames steps))
    (increasing : Increasing ids' (final bc ids' restored.2 steps))
    (free : ∀ i < (final bc ids' restored.2 steps).db.drawn, ∀ q m,
      ¬ InSnapshot snapshot q (ids' i) m) :
    restored.1 = .ok () ∧
    (∀ e ∈ events bc ids' restored.2 steps, ∀ q tag m, e.Returned q tag m →
      tag.toBeBytes ∉ (e.before.db.trees (inflightTreeName q)).keys) ∧
    ∀ q tag m, InSnapshot snapshot q tag m →
      (∀ step ∈ steps, step.op ≠ .ack q tag ∧ step.op ≠ .nack q tag) →
      ((final bc ids' restored.2 steps).db.trees (inflightTreeName q)).get tag.toBeBytes =
        some (bc.message.encode m) := by
  have stands := Nodes.after_made bc ids limits (apart.subset fun a => List.mem_append_left _)
    fun step member a declares => List.mem_flatMap.mpr ⟨step, member, declares⟩
  obtain ⟨⟨ids₀, b₀, made₀, utf8₀, rfl⟩, each⟩ := stands.snapshots snapshot exported
  have names : ∀ a ∈ namesOf b₀.exported.queues.entries ++ (emptyBroker maxBytes).names,
      a ∈ nodeSteps.flatMap fun step => step.action.declares := by
    intro a member
    rcases List.mem_append.mp member with new | none
    · obtain ⟨e, inside, rfl⟩ := List.mem_map.mp new
      exact (each e inside).2
    · exact absurd none List.not_mem_nil
  have follows := restore_refines ids' (s := ⟨started bc ids' maxBytes, clock⟩)
    (started_refines bc ids' maxBytes)
    (apart.subset fun a member => List.mem_append_left _ (names a member))
    fun e member => (each e member).1
  have after : Refines bc (restoreInto bc ids' clock (started bc ids' maxBytes) b₀.exported).2
      ((emptyBroker maxBytes).restore bc ids' b₀.exported) := follows.2
  subst restores
  have drawn := drawn_le_final bc ids'
    (restoreInto bc ids' clock (started bc ids' maxBytes) b₀.exported).2 steps
  have upTo : Increasing ids' (restoreInto bc ids' clock (started bc ids' maxBytes) b₀.exported).2 :=
    increasing.mono (Set.Iio_subset_Iio drawn)
  -- the tags of the snapshot are foreign
  have free' : ∀ i < (final bc ids' (restoreInto bc ids' clock (started bc ids' maxBytes)
      b₀.exported).2 steps).db.drawn, ∀ q, ¬ ∃ m, b₀.flight q (ids' i) = some m := by
    rintro i below q ⟨m, present⟩
    exact free i below q m ((inSnapshot_exported utf8₀).mpr present)
  obtain ⟨tagged, flights⟩ := restored_broker bc maxBytes utf8₀
    (fun q tag => ∃ m, b₀.flight q tag = some m)
    (fun q st declared tag member => by
      obtain ⟨m, present⟩ := OrdMap.mem_keys.mp member
      exact ⟨m, (Broker.flight_declared declared tag).trans present⟩)
    (after.increasing upTo) fun i below => free' i (by
      rw [← after.drawn] at below
      exact below.trans_le drawn)
  have apart' : NonColliding (declaredNames steps ++
      ((emptyBroker maxBytes).restore bc ids' b₀.exported).names) := by
    refine apart.subset fun a member => ?_
    rcases List.mem_append.mp member with new | old
    · exact List.mem_append_right _ new
    · exact List.mem_append_left _ (names a (Broker.restore_names ids' bc _ _ a old))
  obtain ⟨b, refines, keeps⟩ := run_keeps_tags after tagged steps open_ apart' increasing free'
  refine ⟨follows.1, keeps.fresh, fun q tag m listed unsettled => ?_⟩
  have present := keeps.kept q tag m
    ((flights q tag).trans ((inSnapshot_exported utf8₀).mp listed)) unsettled
  have declared : ∃ st, b.queue q = some st := by
    cases declared : b.queue q with
    | none =>
        rw [Broker.flight_undeclared declared] at present
        cases present
    | some st => exact ⟨st, rfl⟩
  rw [refines.flight declared, present, Option.map_some]

/-- What is restored from a snapshot into an empty manager that hands out ids from `n` on. -/
def restoredHere (n : Nat) : Outcome PelicanError Unit × QueueManager :=
  restoreInto bincode (counter n) (fun _ => 5) (started bincode (counter n) none) deliveredSnapshot

/-- The ready message is delivered and acked, and another one is published and delivered. -/
def servedRun : List Step :=
  [⟨.consume "q", fun _ => 6⟩, ⟨.ack "q" 40, fun _ => 6⟩,
    ⟨.publish "q" ⟨3, [], [], 0, 0, 3, none, none⟩, fun _ => 6⟩, ⟨.consume "q", fun _ => 6⟩]

theorem servedRun_keeps :
    ((final bincode (counter 40) (restoredHere 40).2 servedRun).db.trees (inflightTreeName "q")).get
      (0 : UInt64).toBeBytes = some (bincode.message.encode ⟨1, [], [], 0, 0, 3, none, none⟩) := by
  have drawn : (final bincode (counter 40) (restoredHere 40).2 servedRun).db.drawn = 2 := by
    decide +kernel
  have increasing : Increasing (counter 40) (final bincode (counter 40) (restoredHere 40).2 servedRun) :=
    counter_increasing (by rw [drawn]; decide)
  refine (restored_tags_kept bincode (fun _ => counter 0) (fun _ => none) (exportDelivered 0)
    deliveredSnapshot (by decide +kernel) (counter 40) none (fun _ => 5) (restoredHere 40)
    (by rw [restoredHere]) servedRun (by simp [servedRun]) (by decide) increasing ?_).2.2 "q" 0 _
    ⟨_, rfl, List.mem_singleton_self _⟩ (by decide)
  rw [drawn]
  rintro i below q m ⟨qs, found, member⟩
  rw [deliveredSnapshot, OrdMap.get_insert] at found
  split_ifs at found
  · cases found
    have tag : counter 40 i = 0 := congrArg Prod.fst (List.mem_singleton.mp member)
    interval_cases i <;> exact absurd tag (by decide)
  · cases found

/-- A manager whose ids start at 0 delivers the ready message under the tag of the one in flight,
    which is lost. -/
theorem restored_tag_reused :
    deliveredSnapshot ∈ (Nodes.after bincode (fun _ => counter 0) (fun _ => none)
      (exportDelivered 0)).snapshots ∧
    (restoredHere 0).1 = .ok () ∧
    (performed bincode (counter 0) (restoredHere 0).2 ⟨.consume "q", fun _ => 6⟩).response =
      .consumed (.ok (some (0, ⟨2, [], [], 0, 0, 3, none, none⟩))) ∧
    (0 : UInt64).toBeBytes ∈ ((restoredHere 0).2.db.trees (inflightTreeName "q")).keys ∧
    ((final bincode (counter 0) (restoredHere 0).2 [⟨.consume "q", fun _ => 6⟩]).db.trees
      (inflightTreeName "q")).values =
        [bincode.message.encode ⟨2, [], [], 0, 0, 3, none, none⟩] := by
  decide +kernel

end PelicanQ
