import PelicanQ.Broker.Places
import PelicanQ.Guarantees.Books
import PelicanQ.Guarantees.Waiting

/-! # Deliveries that nobody holds

Through every run of the daemon no delivery is held twice.  A delivery in flight that
nobody holds, because its connection was closed, its poller stopped or its packet id
reused, comes to nobody again: unless a client names its tag it stays in flight until
the daemon is restarted.
-/

namespace PelicanQ

open Holdings

/-- In flight in a queue that is declared. -/
def InFlight (qm : QueueManager) (q : String) (tag : DeliveryTag) : Prop :=
  q.utf8 ∈ (qm.db.trees metaQueuesTree).keys ∧
    tag.toBeBytes ∈ (qm.db.trees (inflightTreeName q)).keys

instance decidableInFlight (qm : QueueManager) (q : String) (tag : DeliveryTag) :
    Decidable (InFlight qm q tag) := inferInstanceAs (Decidable (_ ∧ _))

theorem Refines.inFlight_iff {bc : Bincode} {qm : QueueManager} {b : Broker}
    (refines : Refines bc qm b) (q : String) (tag : DeliveryTag) :
    InFlight qm q tag ↔ ∃ m, b.flight q tag = some m := by
  rw [InFlight, refines.registered]
  constructor
  · rintro ⟨⟨st, declared⟩, member⟩
    rw [show qm.db.trees (inflightTreeName q) = st.tree bc .inflight from
      refines.held.stores q st declared .inflight, OrdMap.mem_keys, st.get_inflight] at member
    obtain ⟨bytes, found⟩ := member
    obtain ⟨m, present, -⟩ := Option.map_eq_some_iff.mp found
    exact ⟨m, (Broker.flight_declared declared tag).trans present⟩
  · rintro ⟨m, present⟩
    cases declared : b.queue q with
    | none =>
        rw [Broker.flight_undeclared declared] at present
        cases present
    | some st =>
        rw [Broker.flight_declared declared] at present
        refine ⟨⟨st, rfl⟩, ?_⟩
        rw [show qm.db.trees (inflightTreeName q) = st.tree bc .inflight from
          refines.held.stores q st declared .inflight, OrdMap.mem_keys, st.get_inflight, present]
        exact ⟨_, rfl⟩

namespace Daemon

section Steps

variable {bc : Bincode} {ids : Nat → UInt64} {names : List String} {S S' : System}

variable (uuid : UuidText) (formats : Http.Formats) (engine : AppEngine) (around : Surroundings)

variable (bc ids) in
/-- A connection that is closed holds nothing. -/
theorem System.hangUp_held {k : Nat} {c : Mqtt.Connection}
    (there : S.sessions[k]? = some (some ⟨.waiting, c⟩)) :
    (S.step bc uuid formats ids engine around (.session k .hangUp)).manager = S.manager ∧
      (S.step bc uuid formats ids engine around (.session k .hangUp)).held + c.held = S.held := by
  have acted : S.step bc uuid formats ids engine around (.session k .hangUp) =
      S.sessionActs bc ids engine around k .hangUp := rfl
  rw [acted, System.sessionActs, there]
  refine ⟨rfl, ?_⟩
  have replaced := sum_set there none Mqtt.heldBy
  change ((S.sessions.set k none).map Mqtt.heldBy).sum + (S.streams.map Grpc.Stream.held).sum +
    Mqtt.heldBy (some ⟨.waiting, c⟩) = _
  have nothing : Mqtt.heldBy none = 0 := rfl
  rw [add_right_comm, replaced, nothing, add_zero]
  rfl

theorem mem_held_session {k : Nat} {s : Mqtt.Session} {x : String × DeliveryTag}
    (there : S.sessions[k]? = some (some s)) (member : x ∈ s.connection.held) : x ∈ S.held := by
  refine Multiset.mem_add.mpr (.inl (mem_sum.mpr ⟨s.connection.held, ?_, member⟩))
  exact List.mem_map.mpr ⟨some s, List.mem_of_getElem? there, rfl⟩

/-- Where no connection and no stream is open nothing is held. -/
theorem held_closed (closed : ∀ s ∈ S.sessions, s.isNone) (unopened : S.streams.isEmpty) :
    S.held = 0 := by
  have sessions : (S.sessions.map Mqtt.heldBy).sum = 0 := by
    refine List.sum_eq_zero fun part member => ?_
    obtain ⟨s, inside, rfl⟩ := List.mem_map.mp member
    rw [Option.isNone_iff_eq_none.mp (closed s inside)]
    rfl
  rw [System.held, sessions, List.isEmpty_iff.mp unopened]
  rfl

/-! ### One happening and its events -/

/-- What the events of a happening say about what is held before and after it. -/
inductive Passed (happening : Happening) (S S' : System) (more : List Event) : Prop
  | live (own : Multiset (String × DeliveryTag)) (lives : ∀ e ∈ more, ¬ e.Reopens)
      (passes : Passes S.held (issued more) S'.held own)
      (settles : ∀ e ∈ more, ∀ q tag, e.Settles q tag → (q, tag) ∈ own ∨ happening.Names (q, tag))
  | restart (restarts : ∃ maxBytes, happening = .restart maxBytes) (empty : S'.held = 0)

theorem Booked.passed {happening : Happening} {more : List Event}
    (booked : Booked bc ids engine S around happening S' more) : Passed happening S S' more := by
  refine .live (S.acks bc ids engine around happening) booked.lives ?_ booked.settles
  calc S'.held + S.acks bc ids engine around happening
      ≤ S'.held + (S.acks bc ids engine around happening + S.hands happening) :=
        add_le_add_right (Multiset.le_add_right _ _) _
    _ ≤ S.held + S.consumes bc ids engine around happening := booked.balances.passes
    _ ≤ S.held + issued more := add_le_add_right booked.consumed _

variable (bc ids) in
theorem System.Keeping.step_passed (keeping : S.Keeping names) (happening : Happening)
    (inside : ∀ name ∈ happening.declares, name ∈ names) :
    ∃ steps : List Step, (∀ step ∈ steps, step.op.Served names) ∧
      (S.step bc uuid formats ids engine around happening).manager =
        PelicanQ.final bc ids S.manager steps ∧
      Passed happening S (S.step bc uuid formats ids engine around happening)
        (events bc ids S.manager steps) := by
  by_cases restarts : ∃ maxBytes, happening = .restart maxBytes
  · obtain ⟨steps, made, reached⟩ : Reaches bc ids (MadeBy names (happening, around)) S.manager
        (S.step bc uuid formats ids engine around happening).manager :=
      System.step_reaches uuid formats engine around keeping.declaring happening inside
    refine ⟨steps, fun step member => (made step member).1.1, reached, .restart restarts ?_⟩
    obtain ⟨maxBytes, rfl⟩ := restarts
    rfl
  · have lives (maxBytes) : happening ≠ .restart maxBytes := fun same => restarts ⟨maxBytes, same⟩
    obtain ⟨steps, served, reached, booked⟩ : ∃ steps : List Step, _ ∧ _ ∧
        Booked bc ids engine S around happening _ (events bc ids S.manager steps) :=
      (System.step_hands engine around uuid formats keeping happening inside lives).booked
    exact ⟨steps, served, reached, booked.passed engine around⟩

/-- What every happening passes on, a run passes on. -/
theorem System.Keeping.passed_run {start : QueueManager} {done : List Step}
    (keeping : S.Keeping names) (Inv : List (Happening × Surroundings) → System → List Event → Prop)
    (next : ∀ past happening around S S' before more, Inv past S before →
      Passed happening S S' more → Inv (past ++ [(happening, around)]) S' (before ++ more))
    (reached : S.manager = PelicanQ.final bc ids start done)
    (initially : Inv [] S (events bc ids start done)) (run : List (Happening × Surroundings))
    (inside : ∀ happening ∈ run, ∀ name ∈ happening.1.declares, name ∈ names) :
    ∃ steps : List Step, (∀ step ∈ steps, step.op.Served names) ∧
      (S.final bc uuid formats ids engine run).manager =
        PelicanQ.final bc ids start (done ++ steps) ∧
      Inv run (S.final bc uuid formats ids engine run) (events bc ids start (done ++ steps)) ∧
      (S.final bc uuid formats ids engine run).Keeping names := by
  induction run using List.reverseRecOn with
  | nil =>
      refine ⟨[], fun _ member => absurd member List.not_mem_nil, ?_, ?_, keeping⟩
      · rw [List.append_nil]
        exact reached
      · rw [List.append_nil]
        exact initially
  | append_singleton run last ih =>
      obtain ⟨happening, around⟩ := last
      obtain ⟨steps, served, ends, inv, kept⟩ := ih fun earlier member =>
        inside earlier (List.mem_append_left _ member)
      have here := inside _ (List.mem_append_right _ (List.mem_singleton_self (happening, around)))
      obtain ⟨steps', served', ends', passed⟩ :=
        kept.step_passed bc ids uuid formats engine around happening here
      have stepped : S.final bc uuid formats ids engine (run ++ [(happening, around)]) =
          (S.final bc uuid formats ids engine run).step bc uuid formats ids engine around happening :=
        List.foldl_append
      rw [stepped]
      refine ⟨steps ++ steps', List.forall_mem_append.mpr ⟨served, served'⟩, ?_, ?_, ?_⟩
      · rw [ends', ends, ← List.append_assoc, PelicanQ.final_append bc ids start (done ++ steps)]
      · rw [← List.append_assoc, events_append, ← ends]
        exact next _ _ _ _ _ _ _ inv passed
      · exact System.step_keeping engine around uuid formats kept happening here

end Steps

/-! ## What a run keeps -/

section Kept

variable {past : List (Happening × Surroundings)} {happening : Happening} {S S' : System}
  {before more : List Event}

/-- Everything that is held was issued, and is outstanding unless a client named it. -/
structure Kept (past : List (Happening × Surroundings)) (S : System) (before : List Event) : Prop where
  issued : S.held ≤ issued before
  outstanding : (PelicanQ.issued before).Nodup → ∀ q tag, (q, tag) ∈ S.held →
    (∀ earlier ∈ past, ¬ earlier.1.Names (q, tag)) → ∃ m, Outstanding before q tag m

theorem Passed.issued (passed : Passed happening S S' more) (held : S.held ≤ issued before) :
    S'.held ≤ PelicanQ.issued (before ++ more) := by
  rw [issued_append]
  cases passed with
  | live own _ passes _ => exact le_trans passes.drop (add_le_add_left held _)
  | restart _ empty =>
      rw [empty]
      exact Multiset.zero_le _

/-- What is held and what a happening consumes is all different. -/
theorem once_of_issued (held : S.held ≤ issued before) (once : (issued (before ++ more)).Nodup) :
    (S.held + issued more).Nodup := by
  rw [issued_append] at once
  exact Multiset.nodup_of_le (add_le_add_left held _) once

theorem issued_nodup_left (once : (issued (before ++ more)).Nodup) : (issued before).Nodup := by
  rw [issued_append] at once
  exact Multiset.nodup_of_le (Multiset.le_add_right _ _) once

theorem Kept.next (kept : Kept past S before) (around : Surroundings)
    (passed : Passed happening S S' more) :
    Kept (past ++ [(happening, around)]) S' (before ++ more) where
  issued := passed.issued kept.issued
  outstanding := by
    intro once q tag member unnamed
    cases passed with
    | live own lives passes settles =>
        obtain ⟨apart, from_⟩ := passes.kept (once_of_issued kept.issued once) member
        have quiet : ∀ e ∈ more, ¬ e.Settles q tag ∧ ¬ e.Reopens := by
          refine fun e made => ⟨fun settled => ?_, lives e made⟩
          rcases settles e made q tag settled with given | names
          · exact apart given
          · exact unnamed _ (List.mem_append_right _ (List.mem_singleton_self _)) names
        rcases from_ with old | new
        · obtain ⟨m, outstanding⟩ := kept.outstanding (issued_nodup_left once) q tag old
            fun earlier inside => unnamed earlier (List.mem_append_left _ inside)
          exact ⟨m, outstanding.append quiet⟩
        · exact outstanding_issued quiet new
    | restart _ empty =>
        rw [empty] at member
        exact absurd member (Multiset.notMem_zero _)

/-- A delivery stays outstanding and with nobody, unless a client names it or the daemon is
    restarted. -/
structure Lost (q : String) (tag : DeliveryTag) (past : List (Happening × Surroundings)) (S : System)
    (before : List Event) : Prop where
  issued : S.held ≤ issued before
  outstanding : (PelicanQ.issued before).Nodup →
    (∀ later ∈ past, ¬ later.1.Names (q, tag) ∧ ∀ maxBytes, later.1 ≠ .restart maxBytes) →
    (∃ m, Outstanding before q tag m) ∧ (q, tag) ∉ S.held

theorem Lost.next {q : String} {tag : DeliveryTag} (lost : Lost q tag past S before)
    (around : Surroundings) (passed : Passed happening S S' more) :
    Lost q tag (past ++ [(happening, around)]) S' (before ++ more) where
  issued := passed.issued lost.issued
  outstanding := by
    intro once quietly
    have here := quietly _ (List.mem_append_right _ (List.mem_singleton_self (happening, around)))
    obtain ⟨⟨m, outstanding⟩, free⟩ := lost.outstanding (issued_nodup_left once)
      fun later inside => quietly later (List.mem_append_left _ inside)
    -- it was issued before, so no consume of this happening returns it
    have old : (q, tag) ∉ PelicanQ.issued more := by
      rw [issued_append] at once
      exact Multiset.disjoint_left.mp (Multiset.disjoint_of_nodup_add once) outstanding.issued
    cases passed with
    | live own lives passes settles =>
        obtain ⟨still, apart⟩ := passes.lost free old
        refine ⟨⟨m, outstanding.append fun e made => ⟨fun settled => ?_, lives e made⟩⟩, still⟩
        rcases settles e made q tag settled with given | names
        · exact apart given
        · exact here.1 names
    | restart restarts _ =>
        obtain ⟨maxBytes, same⟩ := restarts
        exact absurd same (here.2 maxBytes)

end Kept

section Runs

variable (bc : Bincode) (uuid : UuidText) (formats : Http.Formats) (ids : Nat → UInt64)
  (engine : AppEngine) (maxBytes : Option UInt64)

/-- The operations of a run, with what they say about what is held at its end. -/
theorem kept_run (run : List (Happening × Surroundings)) {names : List String}
    (inside : ∀ happening ∈ run, ∀ name ∈ happening.1.declares, name ∈ names) :
    ∃ steps : List Step, (∀ step ∈ steps, step.op.Served names) ∧
      ((System.started bc ids engine maxBytes).final bc uuid formats ids engine run).manager =
        final bc ids (started bc ids (limitOf engine maxBytes)) steps ∧
      Kept run ((System.started bc ids engine maxBytes).final bc uuid formats ids engine run)
        (events bc ids (started bc ids (limitOf engine maxBytes)) steps) ∧
      ((System.started bc ids engine maxBytes).final bc uuid formats ids engine run).Keeping names := by
  have fresh : (System.started bc ids engine maxBytes).Keeping names :=
    ⟨fun _ member => absurd member List.not_mem_nil, fun _ member => absurd member List.not_mem_nil⟩
  have begun : Kept [] (System.started bc ids engine maxBytes)
      (events bc ids (started bc ids (limitOf engine maxBytes)) []) :=
    ⟨Multiset.zero_le _, fun _ _ _ member => absurd member (Multiset.notMem_zero _)⟩
  have reached : (System.started bc ids engine maxBytes).manager =
      final bc ids (started bc ids (limitOf engine maxBytes)) [] :=
    started_manager bc ids engine maxBytes
  exact fresh.passed_run uuid formats engine Kept (fun _ _ around _ _ _ _ kept => kept.next around)
    reached begun run inside

/-- The events of a run from the start, and the broker they lead to. -/
theorem linear_run {names : List String} {maxBytes : Option UInt64} {steps : List Step}
    (served : ∀ step ∈ steps, step.op.Served names) (apart : NonColliding names)
    (increasing : Increasing ids (final bc ids (started bc ids maxBytes) steps)) :
    (issued (events bc ids (started bc ids maxBytes) steps)).Nodup ∧
      ∀ q tag, InFlight (final bc ids (started bc ids maxBytes) steps) q tag ↔
        ∃ m, Outstanding (events bc ids (started bc ids maxBytes) steps) q tag m := by
  obtain ⟨b, refines, -, linear⟩ := run_invariant bc ids maxBytes Linear (.empty maxBytes)
    (fun _ _ _ _ _ linear sim => linear.next sim) steps (apart.subset (served_names served)) increasing
  refine ⟨issued_nodup linear.distinct, fun q tag => ?_⟩
  rw [refines.inFlight_iff]
  exact exists_congr fun m => linear.flight q tag m

/-- No delivery is held twice, by connections, pollers or streams, and what is held is in flight
    unless a client named its tag. -/
theorem held_once (run : List (Happening × Surroundings)) (apart : NonColliding (declaredIn run))
    (increasing : Increasing ids
      ((System.started bc ids engine maxBytes).final bc uuid formats ids engine run).manager) :
    ((System.started bc ids engine maxBytes).final bc uuid formats ids engine run).held.Nodup ∧
    ∀ q tag, (q, tag) ∈
        ((System.started bc ids engine maxBytes).final bc uuid formats ids engine run).held →
      (∀ happening ∈ run, ¬ happening.1.Names (q, tag)) →
      InFlight ((System.started bc ids engine maxBytes).final bc uuid formats ids engine run).manager
        q tag := by
  obtain ⟨steps, served, reached, kept, -⟩ := kept_run bc uuid formats ids engine maxBytes run
    fun happening member _ declared => List.mem_flatMap.mpr ⟨happening, member, declared⟩
  rw [reached] at increasing ⊢
  obtain ⟨once, inFlight⟩ := linear_run bc ids served apart increasing
  refine ⟨Multiset.nodup_of_le kept.issued once, fun q tag member unnamed => ?_⟩
  exact (inFlight q tag).mpr (kept.outstanding once q tag member unnamed)

/-- A queue with one message and a client whose poller has just consumed it. -/
def oneSubscriber : List (Happening × Surroundings) :=
  [.request (.grpc (.declareQueue ⟨"q", none, none, none, none⟩)),
    .request (.grpc (.publish "q" (some plainProto))), .connect (some .connect),
    .session 0 (.packet (.subscribe 1 [("q", .atLeastOnce)])), .session 0 .proceed,
    .session 0 .proceed, .session 0 (.tick 0)].map (·, calm 0)

/-- The daemon after a run. -/
def afterRun (run : List (Happening × Surroundings)) : System :=
  (System.started bincode (counter 0) .solo none).final bincode byteUuid noFormats (counter 0) .solo run

theorem oneSubscriber_there : ∃ c, (afterRun oneSubscriber).sessions[0]? = some (some ⟨.waiting, c⟩) ∧
    ("q", 0) ∈ c.held := by
  have seen : (afterRun oneSubscriber).sessions[0]?.join.map
      (fun s => (s.phase, s.connection.subscriptions)) =
        some (.waiting, [⟨"q", some ⟨"q", 0, []⟩, true⟩]) := by decide +kernel
  obtain ⟨⟨phase, c⟩, there, same⟩ := Option.map_eq_some_iff.mp seen
  obtain ⟨rfl, pollers⟩ := Prod.mk.inj same
  have poller : (⟨"q", some ⟨"q", 0, []⟩, true⟩ : Mqtt.Poller) ∈ c.subscriptions := by
    rw [show c.subscriptions = _ from pollers]
    exact List.mem_singleton_self _
  exact ⟨c, Option.join_eq_some_iff.mp there, Mqtt.mem_held_poller poller rfl⟩

theorem oneSubscriber_unnamed : ∀ happening ∈ oneSubscriber, ¬ happening.1.Names ("q", 0) := by
  simp [oneSubscriber, Happening.Names, Request.Names]

theorem oneSubscriber_holds :
    ("q", 0) ∈ (afterRun oneSubscriber).held ∧ InFlight (afterRun oneSubscriber).manager "q" 0 := by
  obtain ⟨c, there, member⟩ := oneSubscriber_there
  have held : ("q", 0) ∈ (afterRun oneSubscriber).held := mem_held_session there member
  exact ⟨held, (held_once bincode byteUuid noFormats (counter 0) .solo none oneSubscriber
    (by decide +kernel) (counter_increasing (by decide +kernel))).2 "q" 0 held oneSubscriber_unnamed⟩

/-- A delivery in flight that nobody holds comes to nobody and stays in flight, whatever the daemon
    does, until a client names its tag or the daemon is restarted. -/
theorem abandoned_stays (run later : List (Happening × Surroundings))
    (apart : NonColliding (declaredIn (run ++ later)))
    (increasing : Increasing ids
      ((System.started bc ids engine maxBytes).final bc uuid formats ids engine
        (run ++ later)).manager) (q : String) (tag : DeliveryTag)
    (flying : InFlight
      ((System.started bc ids engine maxBytes).final bc uuid formats ids engine run).manager q tag)
    (free : (q, tag) ∉
      ((System.started bc ids engine maxBytes).final bc uuid formats ids engine run).held)
    (quietly : ∀ happening ∈ later, ¬ happening.1.Names (q, tag) ∧
      ∀ maxBytes, happening.1 ≠ .restart maxBytes) :
    InFlight ((System.started bc ids engine maxBytes).final bc uuid formats ids engine
        (run ++ later)).manager q tag ∧
      (q, tag) ∉ ((System.started bc ids engine maxBytes).final bc uuid formats ids engine
        (run ++ later)).held := by
  have names (happening) (member : happening ∈ run ++ later) :
      ∀ name ∈ happening.1.declares, name ∈ declaredIn (run ++ later) :=
    fun _ declared => List.mem_flatMap.mpr ⟨happening, member, declared⟩
  obtain ⟨steps, served, reached, kept, keeping⟩ := kept_run bc uuid formats ids engine maxBytes run
    fun happening member => names happening (List.mem_append_left _ member)
  have after (happening) (member : happening ∈ later) :=
    names happening (List.mem_append_right _ member)
  rw [final_append] at increasing ⊢
  -- in flight means outstanding, here and at the end
  have earlier : Increasing ids
      ((System.started bc ids engine maxBytes).final bc uuid formats ids engine run).manager :=
    (System.final_reaches uuid formats engine keeping.declaring later after).1.increasing increasing
  rw [reached] at earlier flying
  obtain ⟨m, outstanding⟩ := ((linear_run bc ids served apart earlier).2 q tag).mp flying
  have begun : Lost q tag []
      ((System.started bc ids engine maxBytes).final bc uuid formats ids engine run)
      (events bc ids (started bc ids (limitOf engine maxBytes)) steps) :=
    ⟨kept.issued, fun _ _ => ⟨⟨m, outstanding⟩, free⟩⟩
  obtain ⟨steps', served', reached', lost, -⟩ := keeping.passed_run uuid formats engine (Lost q tag)
    (fun _ _ around _ _ _ _ lost => lost.next around) reached begun later after
  have both : ∀ step ∈ steps ++ steps', step.op.Served (declaredIn (run ++ later)) :=
    List.forall_mem_append.mpr ⟨served, served'⟩
  rw [reached'] at increasing ⊢
  obtain ⟨once, inFlight⟩ := linear_run bc ids both apart increasing
  obtain ⟨still, nobody⟩ := lost.outstanding once quietly
  exact ⟨(inFlight q tag).mpr still, nobody⟩

/-- Another client subscribes to the queue. -/
def nextSubscriber : List (Happening × Surroundings) :=
  [.connect (some .connect), .session 1 (.packet (.subscribe 1 [("q", .atLeastOnce)])),
    .session 1 .proceed, .session 1 .proceed, .session 1 (.tick 0)].map (·, calm 60000)

theorem nextSubscriber_waits :
    InFlight (afterRun ((oneSubscriber ++ [(.session 0 .hangUp, calm 0)]) ++ nextSubscriber)).manager
        "q" 0 ∧
      ("q", 0) ∉ (afterRun ((oneSubscriber ++ [(.session 0 .hangUp, calm 0)]) ++ nextSubscriber)).held := by
  have free : ("q", 0) ∉ (afterRun (oneSubscriber ++ [(.session 0 .hangUp, calm 0)])).held := by
    rw [held_closed (by decide +kernel) (by decide +kernel)]
    exact Multiset.notMem_zero _
  exact abandoned_stays bincode byteUuid noFormats (counter 0) .solo none _ nextSubscriber
    (by decide +kernel) (counter_increasing (by decide +kernel)) "q" 0 (by decide +kernel) free
    (by simp [nextSubscriber, Happening.Names])

/-- What a connection holds when its socket is closed is held by nobody then, and in flight unless a
    client named its tag. -/
theorem hangUp_abandons (run : List (Happening × Surroundings)) (around : Surroundings) (k : Nat)
    (c : Mqtt.Connection)
    (there : ((System.started bc ids engine maxBytes).final bc uuid formats ids engine run).sessions[k]?
      = some (some ⟨.waiting, c⟩))
    (apart : NonColliding (declaredIn run))
    (increasing : Increasing ids
      ((System.started bc ids engine maxBytes).final bc uuid formats ids engine run).manager) :
    ∀ q tag, (q, tag) ∈ c.held →
      (q, tag) ∉ ((System.started bc ids engine maxBytes).final bc uuid formats ids engine
        (run ++ [(.session k .hangUp, around)])).held ∧
      ((∀ happening ∈ run, ¬ happening.1.Names (q, tag)) →
        InFlight ((System.started bc ids engine maxBytes).final bc uuid formats ids engine
          (run ++ [(.session k .hangUp, around)])).manager q tag) := by
  obtain ⟨steps, served, reached, kept, -⟩ := kept_run bc uuid formats ids engine maxBytes run
    fun happening member _ declared => List.mem_flatMap.mpr ⟨happening, member, declared⟩
  obtain ⟨manager, held⟩ := System.hangUp_held bc ids uuid formats engine around there
  rw [reached] at increasing
  obtain ⟨once, inFlight⟩ := linear_run bc ids served apart increasing
  have before := Multiset.nodup_of_le kept.issued once
  have closing : (System.started bc ids engine maxBytes).final bc uuid formats ids engine
      (run ++ [(.session k .hangUp, around)]) =
        ((System.started bc ids engine maxBytes).final bc uuid formats ids engine run).step bc uuid
          formats ids engine around (.session k .hangUp) := List.foldl_append
  rw [closing]
  intro q tag member
  have was : (q, tag) ∈
      ((System.started bc ids engine maxBytes).final bc uuid formats ids engine run).held :=
    held ▸ Multiset.mem_add.mpr (.inr member)
  refine ⟨fun again => ?_, fun unnamed => ?_⟩
  · rw [← held] at before
    exact Multiset.disjoint_left.mp (Multiset.disjoint_of_nodup_add before) again member
  · rw [manager, reached]
    exact (inFlight q tag).mpr (kept.outstanding once q tag was unnamed)

theorem oneSubscriber_hangsUp :
    ("q", 0) ∉ (afterRun (oneSubscriber ++ [(.session 0 .hangUp, calm 0)])).held ∧
      InFlight (afterRun (oneSubscriber ++ [(.session 0 .hangUp, calm 0)])).manager "q" 0 := by
  obtain ⟨c, there, member⟩ := oneSubscriber_there
  obtain ⟨free, flying⟩ := hangUp_abandons bincode byteUuid noFormats (counter 0) .solo none
    oneSubscriber (calm 0) 0 c there (by decide +kernel) (counter_increasing (by decide +kernel))
    "q" 0 member
  exact ⟨free, flying oneSubscriber_unnamed⟩

end Runs

end Daemon

end PelicanQ