import PelicanQ.Broker.Nodes

/-! # No message is delivered early

A message that is due later is kept under a key that begins with its delivery
time, and leaves for the ready store when a scan reaches the key.  So the time in
the key has to be the one in the message, and everything outside the scheduled
store has to be due already; both are kept by every change that an operation or
a restore makes, whichever ids it takes.
-/

namespace PelicanQ

/-- The message may be delivered at this time. -/
def Message.Due (now : Int64) (m : Message) : Prop :=
  ∀ deliverAt, m.deliverAt = some deliverAt → deliverAt ≤ now

theorem Message.Due.later {now time : Int64} {m : Message} (due : m.Due now) (le : now ≤ time) :
    m.Due time :=
  fun deliverAt at_time => Int64.le_trans (due deliverAt at_time) le

/-- The time in a scheduled key is the message's. -/
def Stamped (e : DueKey × Message) : Prop :=
  ∃ deliverAt, e.2.deliverAt = some deliverAt ∧ (DueKey.due e.1).toInt64 = deliverAt

/-- What is outside the scheduled store is due, and what is in it is stamped. -/
def Place.Timely (now : Int64) : Place → Message → Prop
  | .scheduled key, m => Stamped (key, m)
  | _, m => m.Due now

theorem Place.Timely.later {now time : Int64} {place : Place} {m : Message}
    (timely : place.Timely now m) (le : now ≤ time) : place.Timely time m := by
  cases place with
  | scheduled => exact timely
  | ready | inflight | deadLetter => exact Message.Due.later timely le

/-! ## Moves -/

/-- A move that looks at the time does it at a time that has come. -/
def Move.Timely (now : Int64) : Move → Prop
  | .store m none => m.Due now
  | .promote key _ => (DueKey.due key).toInt64 ≤ now
  | _ => True

theorem dueKey_due (deliverAt : Int64) (id : UInt64) :
    (DueKey.due (dueKey deliverAt id)).toInt64 = deliverAt := rfl

theorem Move.Timely.puts {now : Int64} {mv : Move} (move : mv.Timely now) {st : QueueState}
    (timely : st.Each (Place.Timely now)) (enabled : mv.Enabled st) {id : UInt64} {place : Place}
    {m : Message} (puts : mv.puts st.policy id = some (place, m)) : place.Timely now m := by
  cases mv with
  | store m due =>
      cases due with
      | none =>
          cases puts
          exact move
      | some deliverAt =>
          cases puts
          exact ⟨deliverAt, enabled, dueKey_due deliverAt id⟩
  | record | settle | discard => cases puts
  | deliver key m =>
      cases puts
      exact timely (.ready key) m enabled
  | retry tag m =>
      have due : m.Due now := timely (.inflight tag) m enabled
      simp only [Move.puts] at puts
      split_ifs at puts
      · cases puts
        exact due
      · cases puts
        exact due
  | promote key m =>
      cases puts
      obtain ⟨deliverAt, at_time, key_time⟩ := timely (.scheduled key) m enabled
      intro d same
      rw [at_time, Option.some.injEq] at same
      rw [← same, ← key_time]
      exact move
  | requeue tag m =>
      cases puts
      exact timely (.inflight tag) m enabled

def Broker.Timely (now : Int64) (b : Broker) : Prop :=
  ∀ name st, b.queue name = some st → st.Each (Place.Timely now)

namespace Broker.Timely

variable {ids : Nat → UInt64} {now : Int64} {b b' : Broker}

theorem later (timely : b.Timely now) {time : Int64} (le : now ≤ time) : b.Timely time :=
  fun name st declared place m present => (timely name st declared place m present).later le

theorem insert (timely : b.Timely now) (name : String) {st : QueueState}
    (here : st.Each (Place.Timely now)) :
    ({ b with queues := b.queues.insert name.utf8 st } : Broker).Timely now := by
  intro other st' declared
  rw [Broker.queue, OrdMap.get_insert] at declared
  split_ifs at declared with same
  · cases declared
    exact here
  · exact timely other st' declared

theorem path {moves : List (String × Move)} (timely : b.Timely now) (path : Path ids b moves b')
    (each : ∀ x ∈ moves, x.2.Timely now) : b'.Timely now := by
  intro q
  refine path.queue_rule q
    (P := fun queue => ∀ st, queue = some st → st.Each (Place.Timely now))
    (fun _ policy st same => by cases same; exact .fresh policy) ?_ (timely q)
  intro st mv id member enabled here st' same place m present
  cases same
  rcases QueueState.lookup_moved present with puts | ⟨-, old⟩
  · exact (each (q, mv) member).puts (here st rfl) enabled puts
  · exact here st rfl place m old

end Broker.Timely

/-! ## Operations -/

section Operations

variable {bc : Bincode} {ids : Nat → UInt64} {clock : Nat → Int64} {now time : Int64} {b : Broker}

/-- What holds of all readings holds of those that are left after looking for a duplicate. -/
theorem isDuplicate_readings (P : Int64 → Prop) (st : QueueState) (m : Message)
    (all : ∀ i, P (clock i)) : ∀ i, P ((st.isDuplicate m clock).2 i) := by
  intro i
  unfold QueueState.isDuplicate isRepeated
  split
  · split_ifs
    · split
      · exact all (i + 1)
      · exact all i
    · exact all i
  · exact all i

/-- A message that is stored as ready has its time behind it. -/
theorem store_timely (m : Message) (until_ : ∀ i, clock i ≤ time) :
    (Move.store m (notYetDue m clock).1).Timely time := by
  unfold notYetDue
  cases at_time : m.deliverAt with
  | none =>
      intro d same
      rw [at_time] at same
      cases same
  | some deliverAt =>
      dsimp only
      split_ifs with early
      · trivial
      · intro d same
        rw [at_time, Option.some.injEq] at same
        exact same ▸ Int64.le_trans (Int64.not_lt.mp early) (until_ 0)

theorem due_timely (st : QueueState) (now : Int64) :
    ∀ e ∈ st.due now, (DueKey.due e.1).toInt64 ≤ now := by
  intro e member
  have reached := List.mem_takeWhile_imp member
  simpa using reached

/-- Publishing and promoting apart, no operation looks at the time of a message. -/
theorem Transition.timely {b' : Broker} {op : Operation} {r : Response}
    {moves : List (String × Move)} (step : Transition ids b op r moves b')
    (notPublish : ∀ queue m, op ≠ .publish queue m) (notPromote : ∀ queue, op ≠ .promoteScheduled queue) :
    ∀ x ∈ moves, x.2.Timely time := by
  cases step with
  | «exists» | declared | notFound | deduplicated | limited | nothing | invalidAck | invalidNack =>
      exact fun _ member => nomatch member
  | stored => exact absurd rfl (notPublish _ _)
  | promoted => exact absurd rfl (notPromote _)
  | delivered | acked | nacked => exact List.forall_mem_singleton.mpr trivial
  | retained =>
      intro x member
      obtain ⟨e, -, rfl⟩ := List.mem_map.mp member
      trivial
  | reopened _ requeues =>
      intro x member
      obtain ⟨tag, m, same⟩ := requeues x member
      rw [same]
      trivial

theorem Broker.Timely.perform (timely : b.Timely now)
    (utf8 : ∀ key ∈ b.queues.keys, ∃ name : String, key = name.utf8)
    (readings : ∀ i, now ≤ clock i ∧ clock i ≤ time) (op : Operation) :
    (b.perform bc ids clock op).2.Timely time := by
  have start := timely.later (Int64.le_trans (readings 0).1 (readings 0).2)
  have until_ (i : Nat) : clock i ≤ time := (readings i).2
  obtain ⟨moves, step⟩ := perform_transition ids bc clock b utf8 op
  cases op with
  | publish queue m =>
      simp only [Broker.perform, Broker.publish]
      cases declared : b.queue queue with
      | none => exact start
      | some st =>
          dsimp only
          split_ifs
          · exact start
          · cases b.limitError (Broker.size bc m) with
            | some e => exact start
            | none =>
                refine start.path ((Path.store ids declared m _ _).setBytes _)
                  (List.forall_mem_cons.mpr ⟨?_, ?_⟩)
                · exact store_timely m (isDuplicate_readings (· ≤ time) st m until_)
                · intro x member
                  obtain ⟨mv, inside, rfl⟩ := List.mem_map.mp member
                  unfold QueueState.recordDedup at inside
                  split at inside
                  · rw [List.mem_singleton.mp inside]
                    trivial
                  · cases inside
  | promoteScheduled queue =>
      simp only [Broker.perform, Broker.promoteScheduled]
      cases declared : b.queue queue with
      | none => exact start
      | some st =>
          refine start.path (Path.promote ids declared (clock 0)) ?_
          intro x member
          obtain ⟨e, inside, rfl⟩ := List.mem_map.mp member
          exact Int64.le_trans (due_timely st (clock 0) e inside) (until_ 0)
  | declareQueueWithRetention | consume | ack | nack | applyRetention | reopen =>
      exact start.path step.path
        (step.timely (fun _ _ same => by cases same) fun _ same => by cases same)

end Operations

/-! ## Snapshots -/

structure QueueSnapshot.Timely (now : Int64) (qs : QueueSnapshot) : Prop where
  messages : ∀ m ∈ qs.messages, m.Due now
  inflight : ∀ e ∈ qs.inflight, e.2.Due now
  deadLetter : ∀ m ∈ qs.deadLetter, m.Due now
  dated : qs.Dated

theorem QueueSnapshot.Timely.later {now time : Int64} {qs : QueueSnapshot} (timely : qs.Timely now)
    (le : now ≤ time) : qs.Timely time where
  messages m member := (timely.messages m member).later le
  inflight e member := (timely.inflight e member).later le
  deadLetter m member := (timely.deadLetter m member).later le
  dated := timely.dated

theorem QueueState.snapshot_timely {now : Int64} {st : QueueState}
    (timely : st.Each (Place.Timely now)) : st.snapshot.Timely now where
  messages m member := by
    obtain ⟨e, inside, rfl⟩ := List.mem_map.mp member
    exact timely (.ready e.1) e.2 (OrdMap.get_eq_some.mpr inside)
  inflight e member := timely (.inflight e.1) e.2 (OrdMap.get_eq_some.mpr member)
  deadLetter m member := by
    obtain ⟨e, inside, rfl⟩ := List.mem_map.mp member
    exact timely (.deadLetter e.1) e.2 (OrdMap.get_eq_some.mpr inside)
  dated m member := by
    obtain ⟨e, inside, rfl⟩ := List.mem_map.mp member
    obtain ⟨deliverAt, at_time, -⟩ := timely (.scheduled e.1) e.2 (OrdMap.get_eq_some.mpr inside)
    rw [at_time]
    exact nofun

theorem entering_timely {ids : Nat → UInt64} {make : UInt64 → Message → Change} {n : Nat}
    {messages : List Message} {P : Change → Prop} (each : ∀ id, ∀ m ∈ messages, P (make id m)) :
    ∀ c ∈ entering ids make n messages, P c := by
  intro c member
  obtain ⟨e, inside, rfl⟩ := List.mem_map.mp member
  refine each e.1 e.2 ?_
  rw [← numbered_values ids n messages]
  exact List.mem_map_of_mem inside

theorem QueueSnapshot.Timely.changes {now : Int64} {qs : QueueSnapshot} (timely : qs.Timely now)
    (ids : Nat → UInt64) (n : Nat) :
    ∀ c ∈ qs.changes ids n, ∀ place m, c.sets = some (place, some m) → place.Timely now m := by
  simp only [QueueSnapshot.changes, List.forall_mem_append]
  refine ⟨⟨⟨?_, ?_⟩, ?_⟩, ?_⟩
  · refine entering_timely fun _ m member place m' sets => ?_
    cases sets
    exact timely.messages m member
  · refine entering_timely fun id m member place m' sets => ?_
    cases sets
    obtain ⟨deliverAt, at_time⟩ := Option.ne_none_iff_exists'.mp (timely.dated m member)
    exact ⟨deliverAt, at_time, by rw [at_time, Option.getD_some]; rfl⟩
  · intro c member place m sets
    obtain ⟨e, inside, rfl⟩ := List.mem_map.mp member
    cases sets
    exact timely.inflight e inside
  · refine entering_timely fun _ m member place m' sets => ?_
    cases sets
    exact timely.deadLetter m member

theorem Broker.Timely.restore {bc : Bincode} {ids : Nat → UInt64} {now : Int64} {b : Broker}
    (timely : b.Timely now) {snapshot : QueueManagerSnapshot}
    (each : ∀ e ∈ snapshot.queues.entries, e.2.Timely now) :
    (b.restore bc ids snapshot).Timely now := by
  suffices restored : (b.restoreEach ids snapshot.queues.entries).Timely now from restored
  revert each
  generalize snapshot.queues.entries = queues
  intro each
  induction queues generalizing b with
  | nil => exact timely
  | cons e queues ih =>
      refine ih ?_ fun e' member => each e' (List.mem_cons_of_mem _ member)
      have registered : (b.register e.1.text e.2.policy).Timely now := by
        refine timely.insert e.1.text ?_
        unfold QueueState.registered
        cases declared : b.queue e.1.text with
        | none => exact .fresh _
        | some st => exact timely _ st declared
      have puts := (each e List.mem_cons_self).changes ids b.drawn
      cases declared : (b.register e.1.text e.2.policy).queue e.1.text with
      | none =>
          simp only [Broker.restoreQueue, Broker.change, declared]
          exact registered
      | some st =>
          simp only [Broker.restoreQueue, Broker.change, declared]
          exact registered.insert e.1.text ((registered _ st declared).applyAll puts)

/-! ## Runs -/

/-- Everything outside the scheduled stores and their dumps is due. -/
def Nodes.Timely (bc : Bincode) (names : List String) (now : Int64) : Nodes → Prop :=
  Nodes.Stands bc names (fun _ => Broker.Timely now) fun snapshot =>
    ∀ e ∈ snapshot.queues.entries, e.2.Timely now

theorem Nodes.Timely.act {bc : Bincode} {ids : Nat → Nat → UInt64} {names : List String}
    {now time : Int64} {s : Nodes} (apart : NonColliding names) (timely : s.Timely bc names now)
    (step : NodeStep) (readings : ∀ i, now ≤ step.clock i ∧ step.clock i ≤ time)
    (declares : ∀ a ∈ step.action.declares, a ∈ names) :
    (s.act bc ids step).Timely bc names time := by
  have le : now ≤ time := Int64.le_trans (readings 0).1 (readings 0).2
  refine Nodes.Stands.act apart timely step declares (fun _ _ due => due.later le)
    (fun _ dumped e member => (dumped e member).later le)
    (fun _ op utf8 due => due.perform utf8 readings op) (fun b utf8 due => ?_)
    fun _ _ due dumped _ => (due.later le).restore fun e member => (dumped e member).later le
  have dumped : ∀ e ∈ b.exported.queues.entries, e.2.Timely time := by
    intro e member
    obtain ⟨st, declared, dumped⟩ := exported_entry utf8 member
    exact dumped ▸ QueueState.snapshot_timely (due.later le _ st declared)
  exact ⟨dumped, fun e member => (dumped e member).dated⟩

theorem Nodes.Reaches.timely {bc : Bincode} {ids : Nat → Nat → UInt64}
    {limits : Nat → Option UInt64} {names : List String} {now : Int64} {s : Nodes}
    (apart : NonColliding names) (reached : Nodes.Reaches bc ids limits names now s) :
    s.Timely bc names now := by
  induction reached with
  | start =>
      exact ⟨fun node => ⟨_, started_refines bc (ids node) (limits node), nofun, nofun⟩, nofun⟩
  | act _ step readings known ih => exact ih.act apart step readings known

/-- No message is delivered early: what is ready, in flight or dead-lettered is due, and so is
    what a consume returns. -/
theorem no_early_delivery (bc : Bincode) (ids : Nat → Nat → UInt64) (limits : Nat → Option UInt64)
    (names : List String) (apart : NonColliding names) (now : Int64) (s : Nodes)
    (reached : Nodes.Reaches bc ids limits names now s) (node : Nat) (q : String) :
    (q.utf8 ∈ ((s.managers node).db.trees metaQueuesTree).keys →
      ∀ role ∈ [Role.ready, .inflight, .deadLetter],
        ∀ value ∈ ((s.managers node).db.trees (role.treeName q)).values,
          ∃ m, bc.message.decode value = .ok m ∧ m.Due now) ∧
    ∀ clock tag m, ((Operation.consume q).perform bc (ids node) clock (s.managers node)).1 =
      .consumed (.ok (some (tag, m))) → m.Due now := by
  obtain ⟨b, refines, due, -⟩ := (reached.timely apart).managers node
  constructor
  · intro declared role listed value member
    rw [refines.held.registered, OrdMap.mapValues_keys, OrdMap.mem_keys] at declared
    obtain ⟨st, declared⟩ := declared
    have timely := due q st declared
    rw [refines.held.stores q st declared] at member
    have read {K : Type} [LinearOrder K] (f : K → Bytes) (mono : StrictMono f)
        (store : OrdMap K Message) (all : ∀ k m, store.get k = some m → m.Due now)
        (member : value ∈ (store.image f mono bc.message.encode).values) :
        ∃ m, bc.message.decode value = .ok m ∧ m.Due now := by
      rw [OrdMap.values, OrdMap.image_entries, List.map_map] at member
      obtain ⟨e, inside, rfl⟩ := List.mem_map.mp member
      exact ⟨e.2, bc.message.decode_encode e.2, all e.1 e.2 (OrdMap.get_eq_some.mpr inside)⟩
    fin_cases listed
    · exact read _ ReadyKey.bytes_strictMono st.ready (fun k => timely (.ready k)) member
    · exact read _ UInt64.toBeBytes_strictMono st.inflight (fun k => timely (.inflight k)) member
    · exact read _ ReadyKey.bytes_strictMono st.deadLetter (fun k => timely (.deadLetter k)) member
  · intro clock tag m answer
    have response := (perform_refines (ids node) clock refines (.consume q) refines.held.apart).1
    rw [answer] at response
    have delivered := (Response.consumed.inj response).symm
    cases declared : b.queue q with
    | none =>
        rw [declared] at delivered
        cases delivered
    | some st =>
        rw [declared] at delivered
        dsimp only at delivered
        cases front : st.ready.entries.head? with
        | none =>
            rw [front] at delivered
            cases delivered
        | some e =>
            rw [front] at delivered
            cases delivered
            exact due q st declared (.ready e.1) e.2
              (OrdMap.get_eq_some.mpr (List.mem_of_mem_head? front))

theorem Nodes.Reaches.steps {bc : Bincode} {ids : Nat → Nat → UInt64}
    {limits : Nat → Option UInt64} {names : List String} {now : Int64} {s : Nodes}
    (reached : Nodes.Reaches bc ids limits names now s) (actions : List (Nat × NodeAction))
    (known : ∀ a ∈ actions.flatMap fun action => action.2.declares, a ∈ names) :
    Nodes.Reaches bc ids limits names now
      ((actions.map fun action => ⟨action.1, action.2, fun _ => now⟩).foldl (Nodes.act bc ids) s) := by
  induction actions generalizing s with
  | nil => exact reached
  | cons action actions ih =>
      rw [List.flatMap_cons, List.forall_mem_append] at known
      exact ih (reached.act ⟨action.1, action.2, fun _ => now⟩
        (fun _ => ⟨Int64.le_refl now, Int64.le_refl now⟩) known.1) known.2

/-- A message that is due at 100. -/
def delayed : Message := ⟨1, [], [], 0, 0, 0, some 100, none⟩

/-- The scheduled store of `q` is the ready store of `scheduled:q`. -/
def crossed : List (Nat × NodeAction) :=
  [(0, .perform (.declareQueueWithRetention "q" default)),
    (0, .perform (.declareQueueWithRetention "scheduled:q" default)),
    (0, .perform (.publish "q" delayed))]

theorem early_delivery : ∃ s, Nodes.Reaches bincode (fun _ => counter 0) (fun _ => none)
      ["q", "scheduled:q"] 0 s ∧
    ∃ tag m, ((Operation.consume "scheduled:q").perform bincode (counter 0) (fun _ => 0)
      (s.managers 0)).1 = .consumed (.ok (some (tag, m))) ∧ ¬ m.Due 0 := by
  refine ⟨_, Nodes.Reaches.start.steps crossed (by decide), 25600, delayed, ?_, ?_⟩
  · decide +kernel
  · intro due
    exact absurd (due 100 rfl) (by decide)

/-- The message is published, promoted when it is due, and exported to another node. -/
def promoted : Nodes :=
  let act (now : Int64) (s : Nodes) (action : Nat × NodeAction) : Nodes :=
    s.act bincode (fun _ => counter 0) ⟨action.1, action.2, fun _ => now⟩
  let published := [(0, .perform (.declareQueueWithRetention "q" default)),
    (0, .perform (.publish "q" delayed))].foldl (act 0)
      (Nodes.started bincode (fun _ => counter 0) fun _ => none)
  [(0, .perform (.promoteScheduled "q")), (0, .exportSnapshot),
    (1, .restoreFromSnapshot 0)].foldl (act 150) published

theorem promoted_due :
    ((Operation.consume "q").perform bincode (counter 0) (fun _ => 150) (promoted.managers 1)).1 =
      .consumed (.ok (some (0, delayed))) ∧ delayed.Due 150 := by
  have reached : Nodes.Reaches bincode (fun _ => counter 0) (fun _ => none) ["q"] 150 promoted :=
    ((Nodes.Reaches.start.steps [(0, .perform (.declareQueueWithRetention "q" default)),
      (0, .perform (.publish "q" delayed))] (by decide)).act
        ⟨0, .perform (.promoteScheduled "q"), fun _ => 150⟩
        (fun _ => ⟨(by decide : (0 : Int64) ≤ 150), Int64.le_refl 150⟩) nofun).steps
      [(0, .exportSnapshot), (1, .restoreFromSnapshot 0)] nofun
  have answer : ((Operation.consume "q").perform bincode (counter 0) (fun _ => 150)
      (promoted.managers 1)).1 = .consumed (.ok (some (0, delayed))) := by
    decide +kernel
  exact ⟨answer, (no_early_delivery bincode (fun _ => counter 0) (fun _ => none) ["q"] (by decide)
    150 promoted reached 1 "q").2 (fun _ => 150) 0 delayed answer⟩

end PelicanQ
