import PelicanQ.Broker.Places
import PelicanQ.Broker.Snapshot
import PelicanQ.Core.Nodes

/-! # Brokers behind several managers

Managers that exchange snapshots, each with a broker it refines.  `Stands` is a
property of all these brokers and of all snapshots exported so far, and
`Stands.act` the rule to carry it along one step: what an operation, an export
and a restore do to it.

`Made` is what every broker keeps, whatever it restores: the keys of three of its
stores were made from its own ids and the message.  Tags in flight may come from
elsewhere.
-/

namespace PelicanQ

/-- Every manager stands for a broker with `Inv`, and every snapshot has `Snap`. -/
structure Nodes.Stands (bc : Bincode) (names : List String) (Inv : Nat → Broker → Prop)
    (Snap : QueueManagerSnapshot → Prop) (s : Nodes) : Prop where
  managers : ∀ node, ∃ b, Refines bc (s.managers node) b ∧ Inv node b ∧ ∀ a ∈ b.names, a ∈ names
  snapshots : ∀ snapshot ∈ s.snapshots, Snap snapshot ∧
    ∀ e ∈ snapshot.queues.entries, e.2.Dated ∧ e.1.text ∈ names

namespace Nodes.Stands

variable {bc : Bincode} {ids : Nat → Nat → UInt64} {names : List String}
  {Inv Inv' : Nat → Broker → Prop} {Snap Snap' : QueueManagerSnapshot → Prop} {s : Nodes}

theorem imp (stands : s.Stands bc names Inv Snap) (inv : ∀ node b, Inv node b → Inv' node b)
    (snap : ∀ snapshot, Snap snapshot → Snap' snapshot) : s.Stands bc names Inv' Snap' where
  managers node :=
    let ⟨b, refines, here, known⟩ := stands.managers node
    ⟨b, refines, inv node b here, known⟩
  snapshots snapshot listed :=
    let ⟨here, each⟩ := stands.snapshots snapshot listed
    ⟨snap snapshot here, each⟩

theorem set (stands : s.Stands bc names Inv Snap) (node : Nat) {qm : QueueManager} {b : Broker}
    (refines : Refines bc qm b) (inv : Inv node b) (known : ∀ a ∈ b.names, a ∈ names) :
    (s.set node qm).Stands bc names Inv Snap where
  managers other := by
    by_cases same : other = node
    · subst same
      simp only [Nodes.set, Function.update_self]
      exact ⟨b, refines, inv, known⟩
    · simp only [Nodes.set, Function.update_of_ne same]
      exact stands.managers other
  snapshots := stands.snapshots

/-- One step, from a property to one that follows from it. -/
theorem act (apart : NonColliding names) (stands : s.Stands bc names Inv Snap) (step : NodeStep)
    (declares : ∀ a ∈ step.action.declares, a ∈ names)
    (inv : ∀ node b, Inv node b → Inv' node b)
    (snap : ∀ snapshot, Snap snapshot → Snap' snapshot)
    (perform : ∀ b op, (∀ key ∈ b.queues.keys, ∃ name : String, key = name.utf8) →
      Inv step.node b → Inv' step.node (b.perform bc (ids step.node) step.clock op).2)
    (exported : ∀ b, (∀ key ∈ b.queues.keys, ∃ name : String, key = name.utf8) →
      Inv step.node b → Snap' b.exported ∧ ∀ e ∈ b.exported.queues.entries, e.2.Dated)
    (restore : ∀ b snapshot, Inv step.node b → Snap snapshot →
      (∀ e ∈ snapshot.queues.entries, e.2.Dated) →
      Inv' step.node (b.restore bc (ids step.node) snapshot)) :
    (s.act bc ids step).Stands bc names Inv' Snap' := by
  have start := stands.imp inv snap
  obtain ⟨node, action, clock⟩ := step
  obtain ⟨b, refines, here, known⟩ := stands.managers node
  have utf8 := refines.held.utf8
  cases action with
  | perform op =>
      have within : ∀ a ∈ op.declares ++ b.names, a ∈ names := fun a member =>
        (List.mem_append.mp member).elim (declares a) (known a)
      obtain ⟨-, after⟩ := perform_refines (ids node) clock refines op (apart.subset within)
      exact start.set node after (perform b op utf8 here)
        fun a member => within a (perform_names bc (ids node) clock b op a member)
  | exportSnapshot =>
      have dumped : exec (ids node) clock (QueueManager.exportSnapshot bc) (s.managers node) =
          (.ok b.exported, s.managers node) := by
        have run : (QueueManager.exportSnapshot bc).run (handle (ids node))
          ⟨s.managers node, clock⟩ = (.ok b.exported, ⟨s.managers node, clock⟩) :=
            export_refines (ids node) refines
        rw [exec, run]
      have same := start.set node refines (inv node b here) known
      simp only [Nodes.act, dumped]
      refine ⟨same.managers, fun snapshot listed => ?_⟩
      rcases List.mem_append.mp listed with old | new
      · exact same.snapshots snapshot old
      · obtain ⟨snap, dated⟩ := exported b utf8 here
        rw [List.mem_singleton.mp new]
        exact ⟨snap, fun e member => ⟨dated e member,
          known _ (exported_names utf8 _ (List.mem_map_of_mem member))⟩⟩
  | restoreFromSnapshot index =>
      simp only [Nodes.act]
      cases listed : s.snapshots[index]? with
      | none => exact start
      | some snapshot =>
          obtain ⟨snap, each⟩ := stands.snapshots snapshot (List.mem_of_getElem? listed)
          have dated : ∀ e ∈ snapshot.queues.entries, e.2.Dated := fun e member => (each e member).1
          have within : ∀ a ∈ namesOf snapshot.queues.entries ++ b.names, a ∈ names := by
            intro a member
            rcases List.mem_append.mp member with new | old
            · obtain ⟨e, inside, rfl⟩ := List.mem_map.mp new
              exact (each e inside).2
            · exact known a old
          obtain ⟨-, after⟩ := restore_refines (ids node) (s := ⟨s.managers node, clock⟩) refines
            (apart.subset within) dated
          exact start.set node after (restore b snapshot here snap dated)
            fun a member => within a (b.restore_names (ids node) bc snapshot a member)

end Nodes.Stands

/-! ## Every queue of a broker -/

/-- A property of queues that may mention how many ids were handed out. -/
def Broker.Each (P : Nat → String → QueueState → Prop) (b : Broker) : Prop :=
  ∀ name st, b.queue name = some st → P b.drawn name st

namespace Broker.Each

variable {ids : Nat → UInt64} {b b' : Broker} {P : Nat → String → QueueState → Prop}

theorem empty (none : b.queues = .empty) : b.Each P := by
  intro name st declared
  rw [Broker.queue, none, OrdMap.get_empty] at declared
  cases declared

/-- A broker where one queue may have changed and ids were handed out. -/
theorem update (mono : ∀ n n' name st, n ≤ n' → P n name st → P n' name st) (each : b.Each P)
    (drawn : b.drawn ≤ b'.drawn) {q : String}
    (others : ∀ name, name ≠ q → b'.queue name = b.queue name)
    (here : ∀ st, b'.queue q = some st → P b'.drawn q st) : b'.Each P := by
  intro name st declared
  by_cases same : name = q
  · subst same
    exact here st declared
  · rw [others name same] at declared
    exact mono _ _ name st drawn (each name st declared)

/-- What new queues have and moves keep, a path keeps. -/
theorem path {moves : List (String × Move)} (mono : ∀ n n' name st, n ≤ n' → P n name st → P n' name st)
    (fresh : ∀ n name policy, P n name (.fresh policy)) (path : Path ids b moves b')
    (moved : ∀ n name st (mv : Move), n + mv.draws ≤ b'.drawn → mv.Enabled st → P n name st →
      P (n + mv.draws) name (st.move (ids n) mv)) (each : b.Each P) : b'.Each P := by
  induction path with
  | done => exact each
  | idle queues drawn _ ih =>
      refine ih moved fun name st declared => ?_
      rw [Broker.queue, queues] at declared
      exact mono _ _ name st drawn (each name st declared)
  | @declare b _ name policy _ _ _ ih =>
      refine ih moved (each.update mono (q := name) (Nat.le_refl _) (fun other different => ?_)
        fun st declared => ?_)
      · exact (OrdMap.get_insert _ _ _ _).trans
          (if_neg fun same => different (String.utf8_injective same))
      · rw [Broker.queue, OrdMap.get_insert, if_pos rfl] at declared
        cases declared
        exact fresh _ name policy
  | @move b _ name st mv _ declared enabled more ih =>
      have drawn : (b.move ids name mv).drawn = b.drawn + mv.draws := Broker.move_drawn declared mv
      refine ih moved (each.update mono (drawn ▸ Nat.le_add_right _ _)
        (fun other different => Broker.move_queue_other b different mv) fun st' declared' => ?_)
      rw [Broker.move_queue declared, Option.some.injEq] at declared'
      rw [← declared', drawn]
      exact moved _ name st mv (drawn ▸ more.drawn_le) enabled (each name st declared)

end Broker.Each

/-! ## Keys made from one's own ids -/

/-- The key of a place was made from the message and one of the first `n` ids; a tag may be
    any. -/
def Place.Made (ids : Nat → UInt64) (n : Nat) : Place → Message → Prop
  | .ready key, m | .deadLetter key, m => ∃ i < n, key = readyKey m.priority (ids i)
  | .scheduled key, m => ∃ i < n, ∃ deliverAt, m.deliverAt = some deliverAt ∧
      key = dueKey deliverAt (ids i)
  | .inflight _, _ => True

theorem Place.Made.mono {ids : Nat → UInt64} {n n' : Nat} {place : Place} {m : Message}
    (made : place.Made ids n m) (le : n ≤ n') : place.Made ids n' m := by
  cases place with
  | ready | deadLetter | scheduled =>
      obtain ⟨i, below, key⟩ := made
      exact ⟨i, below.trans_le le, key⟩
  | inflight => trivial

namespace QueueState

variable {ids : Nat → UInt64} {n : Nat} {st : QueueState}

theorem ready_made (made : st.Each (Place.Made ids n)) :
    ∀ e ∈ st.ready.entries, ∃ i < n, e.1 = toLex (rank e.2.priority, ids i) :=
  fun e member => made (.ready e.1) e.2 (OrdMap.get_eq_some.mpr member)

theorem deadLetter_made (made : st.Each (Place.Made ids n)) :
    ∀ e ∈ st.deadLetter.entries, ∃ i < n, e.1 = toLex (rank e.2.priority, ids i) :=
  fun e member => made (.deadLetter e.1) e.2 (OrdMap.get_eq_some.mpr member)

theorem scheduled_made (made : st.Each (Place.Made ids n)) :
    ∀ e ∈ st.scheduled.entries,
      ∃ i < n, e.1 = toLex ((e.2.deliverAt.getD 0).toUInt64, ids i) := by
  intro e member
  obtain ⟨i, below, deliverAt, due, key⟩ :=
    made (.scheduled e.1) e.2 (OrdMap.get_eq_some.mpr member)
  exact ⟨i, below, by rw [due, Option.getD_some]; exact key⟩

end QueueState

theorem Move.puts_made {ids : Nat → UInt64} {n : Nat} {mv : Move} {st : QueueState}
    (enabled : mv.Enabled st) {place : Place} {m : Message}
    (puts : mv.puts st.policy (ids n) = some (place, m)) : place.Made ids (n + mv.draws) m := by
  cases mv with
  | store m due =>
      cases due with
      | none =>
          cases puts
          exact ⟨n, Nat.lt_succ_self n, rfl⟩
      | some deliverAt =>
          cases puts
          exact ⟨n, Nat.lt_succ_self n, deliverAt, enabled, rfl⟩
  | record | settle | discard => cases puts
  | deliver =>
      cases puts
      trivial
  | retry tag m =>
      simp only [Move.puts] at puts
      split_ifs at puts <;> cases puts <;> exact ⟨n, Nat.lt_succ_self n, rfl⟩
  | promote | requeue =>
      cases puts
      exact ⟨n, Nat.lt_succ_self n, rfl⟩

/-- The keys of every queue were made from the broker's ids. -/
def Broker.Made (ids : Nat → UInt64) : Broker → Prop :=
  Broker.Each fun n _ st => st.Each (Place.Made ids n)

theorem QueueState.made_mono {ids : Nat → UInt64} (n n' : Nat) (_ : String) (st : QueueState)
    (le : n ≤ n') (made : st.Each (Place.Made ids n)) : st.Each (Place.Made ids n') :=
  fun place m present => (made place m present).mono le

namespace Broker.Made

variable {ids : Nat → UInt64} {b b' : Broker}

theorem path {moves : List (String × Move)} (made : b.Made ids) (path : Path ids b moves b') :
    b'.Made ids := by
  refine Broker.Each.path QueueState.made_mono (fun _ _ policy => .fresh policy) path ?_ made
  intro n name st mv _ enabled made place m present
  rcases QueueState.lookup_moved present with puts | ⟨-, old⟩
  · exact Move.puts_made enabled puts
  · exact (made place m old).mono (Nat.le_add_right _ _)

theorem perform (made : b.Made ids)
    (utf8 : ∀ key ∈ b.queues.keys, ∃ name : String, key = name.utf8) (bc : Bincode)
    (clock : Nat → Int64) (op : Operation) : (b.perform bc ids clock op).2.Made ids := by
  obtain ⟨moves, step⟩ := perform_transition ids bc clock b utf8 op
  exact made.path step.path

/-- What is scheduled says when it is due. -/
theorem dated (made : b.Made ids)
    (utf8 : ∀ key ∈ b.queues.keys, ∃ name : String, key = name.utf8) :
    ∀ e ∈ b.exported.queues.entries, e.2.Dated := by
  intro e listed m member
  obtain ⟨st, declared, same⟩ := exported_entry utf8 listed
  rw [← same] at member
  obtain ⟨entry, inside, rfl⟩ := List.mem_map.mp member
  obtain ⟨_, _, deliverAt, due, -⟩ :=
    made _ st declared (.scheduled entry.1) entry.2 (OrdMap.get_eq_some.mpr inside)
  rw [due]
  exact nofun

end Broker.Made

theorem mem_entering {ids : Nat → UInt64} {make : UInt64 → Message → Change} {n : Nat}
    {messages : List Message} {c : Change} (member : c ∈ entering ids make n messages) :
    ∃ i, ∃ m ∈ messages, n ≤ i ∧ i < n + messages.length ∧ c = make (ids i) m := by
  obtain ⟨e, inside, rfl⟩ := List.mem_map.mp member
  obtain ⟨i, le, below, id⟩ := mem_numbered inside
  refine ⟨i, e.2, ?_, le, below, by rw [id]⟩
  rw [← numbered_values ids n messages]
  exact List.mem_map_of_mem inside

theorem QueueSnapshot.changes_made {qs : QueueSnapshot} (dated : qs.Dated) (ids : Nat → UInt64)
    (n : Nat) : ∀ c ∈ qs.changes ids n, ∀ place m, c.sets = some (place, some m) →
      place.Made ids (n + qs.draws) m := by
  have draws : qs.draws = qs.messages.length + qs.scheduled.length + qs.deadLetter.length := rfl
  simp only [QueueSnapshot.changes, List.forall_mem_append]
  refine ⟨⟨⟨?_, ?_⟩, ?_⟩, ?_⟩
  · intro c member place m sets
    obtain ⟨i, m, -, -, below, rfl⟩ := mem_entering member
    cases sets
    exact ⟨i, by omega, rfl⟩
  · intro c member place m sets
    obtain ⟨i, m, listed, -, below, rfl⟩ := mem_entering member
    obtain ⟨deliverAt, due⟩ := Option.ne_none_iff_exists'.mp (dated m listed)
    cases sets
    exact ⟨i, by omega, deliverAt, due, by rw [due, Option.getD_some]⟩
  · intro c member place m sets
    obtain ⟨e, -, rfl⟩ := List.mem_map.mp member
    cases sets
    trivial
  · intro c member place m sets
    obtain ⟨i, m, -, -, below, rfl⟩ := mem_entering member
    cases sets
    exact ⟨i, by omega, rfl⟩

theorem QueueState.registered_each {P : Place → Message → Prop} {found : Option QueueState}
    (each : ∀ st, found = some st → st.Each P) (policy : RetentionPolicy) :
    (QueueState.registered found policy).Each P := by
  cases found with
  | none => exact .fresh policy
  | some st => exact each st rfl

theorem Broker.Made.restore {ids : Nat → UInt64} {b : Broker} (made : b.Made ids) (bc : Bincode)
    {snapshot : QueueManagerSnapshot} (dated : ∀ e ∈ snapshot.queues.entries, e.2.Dated) :
    (b.restore bc ids snapshot).Made ids := by
  suffices restored : (b.restoreEach ids snapshot.queues.entries).Made ids from restored
  revert dated
  generalize snapshot.queues.entries = queues
  intro dated
  induction queues generalizing b with
  | nil => exact made
  | cons e queues ih =>
      refine ih ?_ fun e' member => dated e' (List.mem_cons_of_mem _ member)
      have drawn : (b.restoreQueue ids e.1.text e.2).drawn = b.drawn + e.2.draws :=
        restoreQueue_drawn b e.1.text e.2
      refine Broker.Each.update QueueState.made_mono made (drawn ▸ Nat.le_add_right _ _)
        (fun other different => restoreQueue_queue_other b different e.2) fun st declared => ?_
      rw [restoreQueue_queue, Option.some.injEq] at declared
      rw [← declared, drawn]
      refine QueueState.Each.applyAll (QueueState.registered_each (fun st declared place m present =>
        (made _ st declared place m present).mono (Nat.le_add_right _ _)) _) ?_
      exact QueueSnapshot.changes_made (dated e List.mem_cons_self) ids b.drawn

/-! ## Runs -/

section Runs

variable (bc : Bincode) (ids : Nat → Nat → UInt64) (limits : Nat → Option UInt64)

/-- The managers after a sequence of steps. -/
def Nodes.after (steps : List NodeStep) : Nodes :=
  steps.foldl (Nodes.act bc ids) (Nodes.started bc ids limits)

/-- An export of a broker all whose keys were made from ids. -/
def Exported (snapshot : QueueManagerSnapshot) : Prop :=
  ∃ ids b, Broker.Made ids b ∧ (∀ key ∈ b.queues.keys, ∃ name : String, key = name.utf8) ∧
    snapshot = b.exported

/-- Whatever the managers do, their keys are made from their own ids. -/
theorem Nodes.after_made {names : List String} (apart : NonColliding names) {steps : List NodeStep}
    (known : ∀ step ∈ steps, ∀ a ∈ step.action.declares, a ∈ names) :
    (Nodes.after bc ids limits steps).Stands bc names (fun node => Broker.Made (ids node))
      Exported := by
  have start : (Nodes.started bc ids limits).Stands bc names (fun node => Broker.Made (ids node))
      Exported :=
    ⟨fun node => ⟨_, started_refines bc (ids node) (limits node), Broker.Each.empty rfl, nofun⟩,
      nofun⟩
  unfold Nodes.after
  generalize Nodes.started bc ids limits = s at start
  induction steps generalizing s with
  | nil => exact start
  | cons step steps ih =>
      refine ih (fun step' member => known step' (List.mem_cons_of_mem _ member)) _ ?_
      exact start.act apart step (known step List.mem_cons_self) (fun _ _ inv => inv)
        (fun _ snap => snap) (fun b op utf8 made => made.perform utf8 bc step.clock op)
        (fun b utf8 made => ⟨⟨_, b, made, utf8, rfl⟩, made.dated utf8⟩)
        fun b snapshot made _ dated => made.restore bc dated

end Runs

/-- A node gets a queue with a message in flight under tag 0 and one that is ready, and exports
    it. -/
def exportDelivered (node : Nat) : List NodeStep :=
  [⟨node, .perform (.declareQueueWithRetention "q" default), fun _ => 5⟩,
    ⟨node, .perform (.publish "q" ⟨1, [], [], 0, 0, 3, none, none⟩), fun _ => 5⟩,
    ⟨node, .perform (.publish "q" ⟨2, [], [], 0, 0, 3, none, none⟩), fun _ => 5⟩,
    ⟨node, .perform (.consume "q"), fun _ => 5⟩, ⟨node, .exportSnapshot, fun _ => 5⟩]

/-- What it exports. -/
def deliveredSnapshot : QueueManagerSnapshot :=
  ⟨OrdMap.empty.insert ⟨"q"⟩
    { policy := default
      messages := [⟨2, [], [], 0, 0, 3, none, none⟩]
      scheduled := []
      inflight := [(0, ⟨1, [], [], 0, 0, 3, none, none⟩)]
      deadLetter := [] }⟩

end PelicanQ
