import PelicanQ.Broker.Twins
import PelicanQ.Core.Snapshot

/-! # Snapshots of brokers

What an export lists and what a restore enters, on brokers.  A restore registers
each queue, whether or not it is there already, and enters the messages on top
of what the stores hold: new ids for three of the stores, the old tags for the
fourth.
-/

namespace PelicanQ

/-- What an export says of a queue. -/
def QueueState.snapshot (st : QueueState) : QueueSnapshot :=
  ⟨st.policy, st.ready.values, st.scheduled.values, st.inflight.entries, st.deadLetter.values⟩

/-- Messages with the ids that are handed out for them, from the `n`th on. -/
def numbered (ids : Nat → UInt64) : Nat → List Message → List (UInt64 × Message)
  | _, [] => []
  | n, m :: rest => (ids n, m) :: numbered ids (n + 1) rest

/-- Enter messages under keys made from the `n`th id on. -/
def entering (ids : Nat → UInt64) (make : UInt64 → Message → Change) (n : Nat)
    (messages : List Message) : List Change :=
  (numbered ids n messages).map fun e => make e.1 e.2

namespace QueueSnapshot

/-- What a restore changes in a queue, when the next id is the `n`th. -/
def changes (ids : Nat → UInt64) (n : Nat) (qs : QueueSnapshot) : List Change :=
  entering ids (fun id m => .putReady (readyKey m.priority id) m) n qs.messages ++
    entering ids (fun id m => .putScheduled (dueKey (m.deliverAt.getD 0) id) m)
      (n + qs.messages.length) qs.scheduled ++
    (qs.inflight.map fun e => .putInflight e.1 e.2) ++
    entering ids (fun id m => .putDeadLetter (readyKey m.priority id) m)
      (n + qs.messages.length + qs.scheduled.length) qs.deadLetter

/-- The ids a restore takes for a queue. -/
def draws (qs : QueueSnapshot) : Nat :=
  qs.messages.length + qs.scheduled.length + qs.deadLetter.length

/-- Every scheduled message says when it is due; otherwise a restore reads the clock. -/
def Dated (qs : QueueSnapshot) : Prop := ∀ m ∈ qs.scheduled, m.deliverAt ≠ none

end QueueSnapshot

/-- A queue whose policy is on record anew. -/
def QueueState.registered (found : Option QueueState) (policy : RetentionPolicy) : QueueState :=
  match found with
  | some st => { st with policy := policy }
  | none => .fresh policy

namespace Broker

/-- What an export lists. -/
def exported (b : Broker) : QueueManagerSnapshot :=
  ⟨b.names.foldl (fun queues name =>
    match b.queue name with
    | some st => queues.insert ⟨name⟩ st.snapshot
    | none => queues) .empty⟩

/-- Put a queue and its policy on record. -/
def register (b : Broker) (name : String) (policy : RetentionPolicy) : Broker :=
  { b with queues := b.queues.insert name.utf8 (QueueState.registered (b.queue name) policy) }

def restoreQueue (ids : Nat → UInt64) (b : Broker) (name : String) (qs : QueueSnapshot) : Broker :=
  ((b.register name qs.policy).change name (qs.changes ids b.drawn)).advance qs.draws

def restoreEach (ids : Nat → UInt64) (b : Broker) (queues : List (QueueName × QueueSnapshot)) :
    Broker :=
  queues.foldl (fun b e => b.restoreQueue ids e.1.text e.2) b

/-- A broker after a restore on top of what it held. -/
def restore (bc : Bincode) (ids : Nat → UInt64) (b : Broker) (snapshot : QueueManagerSnapshot) :
    Broker :=
  (b.restoreEach ids snapshot.queues.entries).setBytes
    ((b.restoreEach ids snapshot.queues.entries).totalBytes bc)

end Broker

/-! ## Refinement -/

section Refinement

open QueueManager

variable {bc : Bincode} (ids : Nat → UInt64) {s : Machine} {b : Broker}

/-- One method after another. -/
theorem Follows.bind {α β : Type} {p : Action α} {value : α} {b₁ : Broker}
    (first : Follows bc (p.run (handle ids) s) (.ok value, b₁)) {next : α → Action β}
    {r : Outcome PelicanError β × Broker}
    (second : ∀ s₁ : Machine, Refines bc s₁.manager b₁ →
      Follows bc ((next value).run (handle ids) s₁) r) :
    Follows bc ((p >>= next).run (handle ids) s) r := by
  obtain ⟨ok, after⟩ := first
  rw [Program.run_bind]
  generalize p.run (handle ids) s = ran at ok after
  obtain ⟨outcome, s₁⟩ := ran
  cases ok
  exact second s₁ after

theorem run_readMessages {K : Type} (bytes : K → Bytes) (entries : List (K × Message)) {α : Type}
    (next : List Message → Action α) :
    (readMessages bc (entries.map fun e => (bytes e.1, bc.message.encode e.2)) >>= next).run
      (handle ids) s = (next (entries.map Prod.snd)).run (handle ids) s := by
  induction entries generalizing next with
  | nil => rfl
  | cons e entries ih =>
      rw [List.map_cons, readMessages, deserialize_encode, Program.ret_bind, Program.bind_assoc, ih]
      rfl

theorem run_readInflight (entries : List (UInt64 × Message)) {α : Type}
    (next : List (UInt64 × Message) → Action α) :
    (readInflight bc (entries.map (encodedInflight bc)) >>= next).run (handle ids) s =
      (next entries).run (handle ids) s := by
  induction entries generalizing next with
  | nil => rfl
  | cons e entries ih =>
      have whole : (e.1.toBeBytes.take 8).drop 0 = e.1.toBeBytes := by
        rw [List.drop_zero, List.take_of_length_le (by rw [UInt64.length_toBeBytes])]
      rw [List.map_cons, encodedInflight, readInflight,
        slice_of_le (by rw [UInt64.length_toBeBytes]), Program.ret_bind, whole, deserialize_encode,
        Program.ret_bind, Program.bind_assoc, ih, UInt64.fromBeBytes_toBeBytes]
      rfl

theorem run_exportQueue (h : Refines bc s.manager b) {name : String} {st : QueueState}
    (declared : b.queue name = some st) {α : Type} (next : QueueSnapshot → Action α) :
    (exportQueue bc name >>= next).run (handle ids) s = (next st.snapshot).run (handle ids) s := by
  have tree (role : Role) := h.tree declared role
  have ready : (s.db.trees name).entries =
      st.ready.entries.map fun e => (ReadyKey.bytes e.1, bc.message.encode e.2) :=
    congrArg OrdMap.entries (tree .ready)
  have scheduled : (s.db.trees (scheduledTreeName name)).entries =
      st.scheduled.entries.map fun e => (DueKey.bytes e.1, bc.message.encode e.2) :=
    congrArg OrdMap.entries (tree .scheduled)
  have inflight : (s.db.trees (inflightTreeName name)).entries =
      st.inflight.entries.map (encodedInflight bc) :=
    congrArg OrdMap.entries (tree .inflight)
  have deadLetter : (s.db.trees (dlqTreeName name)).entries =
      st.deadLetter.entries.map fun e => (ReadyKey.bytes e.1, bc.message.encode e.2) :=
    congrArg OrdMap.entries (tree .deadLetter)
  rw [exportQueue, Program.bind_assoc, run_policyOf h declared]
  simp only [Program.bind_assoc, run_openTree, run_iter, ready, scheduled, inflight, deadLetter,
    run_readMessages, run_readInflight]
  rfl

/-- An export changes nothing and cannot fail. -/
theorem export_refines (h : Refines bc s.manager b) :
    (exportSnapshot bc).run (handle ids) s = (.ok b.exported, s) := by
  have declaredAll : ∀ name ∈ b.names, ∃ st, b.queue name = some st := fun name member =>
    h.held.mem_names.mp member
  rw [exportSnapshot, run_listQueues ids h, Broker.exported]
  generalize (OrdMap.empty : OrdMap QueueName QueueSnapshot) = queues
  generalize b.names = names at declaredAll
  induction names generalizing queues with
  | nil => rfl
  | cons name names ih =>
      obtain ⟨st, declared⟩ := declaredAll name List.mem_cons_self
      rw [exportEach, Program.bind_assoc, run_exportQueue ids h declared, List.foldl_cons, declared]
      exact ih _ fun name' member => declaredAll name' (List.mem_cons_of_mem _ member)

theorem exportOf_refines {qm : QueueManager} (h : Refines bc qm b) :
    exportOf bc ids qm = .ok b.exported := by
  have start : Refines bc (Machine.mk qm fun _ => 0).manager b := h
  rw [exportOf, exec, export_refines ids start]

theorem restoreMessages_refines (h : Refines bc s.manager b) {name : String} {st : QueueState}
    (declared : b.queue name = some st) {tree : String} (make : UInt64 → Message → Change)
    (writes : ∀ id m, (make id m).write bc name =
      .insert tree (encodeKey m.priority id) (bc.message.encode m)) (messages : List Message) :
    Follows bc ((restoreMessages bc tree messages).run (handle ids) s)
      (.ok (), (b.change name (entering ids make b.drawn messages)).advance messages.length) := by
  induction messages generalizing s b st with
  | nil =>
      rw [entering, numbered, List.map_nil, b.change_nil]
      exact ⟨rfl, h⟩
  | cons m messages ih =>
      have drawn : s.db.drawn = b.drawn := h.drawn
      have entered := h.draw.commit declared [make (ids b.drawn) m]
      rw [batch, List.map_singleton, writes] at entered
      have declared' : (b.advance 1).queue name = some st := declared
      have rest := ih entered (Broker.change_queue declared' _)
      rw [Broker.advance_change, Broker.advance_change, Broker.change_change,
        Broker.advance_advance, Broker.drawn_advance, Broker.drawn_change] at rest
      rw [restoreMessages, run_generateId, drawn, run_insert, entering, numbered, List.map_cons,
        List.length_cons, Nat.add_comm messages.length]
      exact rest

theorem restoreScheduled_refines (h : Refines bc s.manager b) {name : String} {st : QueueState}
    (declared : b.queue name = some st) {messages : List Message}
    (dated : ∀ m ∈ messages, m.deliverAt ≠ none) :
    Follows bc ((restoreScheduled bc name messages).run (handle ids) s)
      (.ok (), (b.change name (entering ids
        (fun id m => .putScheduled (dueKey (m.deliverAt.getD 0) id) m) b.drawn messages)).advance
          messages.length) := by
  induction messages generalizing s b st with
  | nil =>
      rw [entering, numbered, List.map_nil, b.change_nil]
      exact ⟨rfl, h⟩
  | cons m messages ih =>
      obtain ⟨deliverAt, due⟩ := Option.ne_none_iff_exists'.mp (dated m List.mem_cons_self)
      have drawn : s.db.drawn = b.drawn := h.drawn
      have entered := h.draw.commit declared [.putScheduled (dueKey deliverAt (ids b.drawn)) m]
      have declared' : (b.advance 1).queue name = some st := declared
      have rest := ih entered (Broker.change_queue declared' _)
        fun m' member => dated m' (List.mem_cons_of_mem _ member)
      rw [Broker.advance_change, Broker.advance_change, Broker.change_change,
        Broker.advance_advance, Broker.drawn_advance, Broker.drawn_change] at rest
      rw [restoreScheduled, run_generateId, drawn, entering, numbered, List.map_cons,
        List.length_cons, Nat.add_comm messages.length]
      simp only [due, Option.getD_some]
      exact rest

theorem restoreInflight_refines (h : Refines bc s.manager b) {name : String} {st : QueueState}
    (declared : b.queue name = some st) (entries : List (UInt64 × Message)) :
    Follows bc ((restoreInflight bc name entries).run (handle ids) s)
      (.ok (), b.change name (entries.map fun e => .putInflight e.1 e.2)) := by
  induction entries generalizing s b st with
  | nil =>
      rw [List.map_nil, b.change_nil]
      exact ⟨rfl, h⟩
  | cons e entries ih =>
      have entered := h.commit declared [.putInflight e.1 e.2]
      rw [List.map_cons, b.change_cons]
      exact ih entered (Broker.change_queue declared _)

/-- Putting a queue on record keeps what its stores hold. -/
theorem Refines.register (h : Refines bc s.manager b) {name : String} (policy : RetentionPolicy)
    (apart : NonColliding (name :: b.names)) :
    Refines bc
      ((s.commit [.insert metaQueuesTree name.utf8 []]).commit
        [.insert metaRetentionTree name.utf8 (bc.policy.encode policy)]).manager
      (b.register name policy) := by
  refine ⟨?_, h.drawn, h.bytes, h.maxBytes⟩
  unfold Broker.register QueueState.registered
  cases declared : b.queue name with
  | none => exact h.held.declare policy declared apart
  | some st =>
      have stored (role : Role) : s.db.trees (role.treeName name) =
          QueueState.tree bc { st with policy := policy } role := by
        rw [h.tree declared role]
        cases role <;> rfl
      exact h.held.register apart stored (h.held.arrived name st declared)

theorem Broker.register_queue (b : Broker) (name : String) (policy : RetentionPolicy) :
    (b.register name policy).queue name = some (QueueState.registered (b.queue name) policy) :=
  (OrdMap.get_insert _ _ _ _).trans (if_pos rfl)

theorem restoreQueue_refines (h : Refines bc s.manager b) {name : String} {qs : QueueSnapshot}
    (apart : NonColliding (name :: b.names)) (dated : qs.Dated) :
    Follows bc ((restoreQueue bc name qs).run (handle ids) s)
      (.ok (), b.restoreQueue ids name qs) := by
  have registered := b.register_queue name qs.policy
  simp only [QueueManager.restoreQueue, run_insert, run_openTree]
  refine (restoreMessages_refines ids (h.register qs.policy apart) registered
    (fun id m => .putReady (readyKey m.priority id) m) (fun _ _ => rfl) qs.messages).bind ids
      fun s₁ first => ?_
  simp only [run_openTree]
  refine (restoreScheduled_refines ids first (Broker.change_queue registered _) dated).bind ids
    fun s₂ second => ?_
  rw [Broker.advance_change, Broker.change_change, Broker.advance_advance] at second
  simp only [run_openTree]
  refine (restoreInflight_refines ids second (Broker.change_queue registered _) qs.inflight).bind
    ids fun s₃ third => ?_
  rw [Broker.advance_change, Broker.change_change] at third
  simp only [run_openTree]
  have last := restoreMessages_refines ids third (Broker.change_queue registered _)
    (fun id m => .putDeadLetter (readyKey m.priority id) m) (fun _ _ => rfl) qs.deadLetter
  rw [Broker.advance_change, Broker.change_change, Broker.advance_advance] at last
  simpa only [Broker.restoreQueue, QueueSnapshot.changes, QueueSnapshot.draws, Broker.drawn_advance,
    Broker.drawn_change, Broker.register, List.append_assoc, Nat.add_assoc] using last

theorem Broker.restoreQueue_names (b : Broker) (name : String) (qs : QueueSnapshot) :
    ∀ a ∈ (b.restoreQueue ids name qs).names, a ∈ name :: b.names := by
  intro a member
  have kept : (b.restoreQueue ids name qs).names = (b.register name qs.policy).names :=
    Broker.change_names _ _ _
  exact Broker.names_insert b name _ a (kept ▸ member)

/-- The queues a list of snapshots is about. -/
def namesOf (queues : List (QueueName × QueueSnapshot)) : List String :=
  queues.map fun e => e.1.text

theorem restoreEach_refines (h : Refines bc s.manager b) {queues : List (QueueName × QueueSnapshot)}
    (apart : NonColliding (namesOf queues ++ b.names)) (dated : ∀ e ∈ queues, e.2.Dated) :
    Follows bc ((restoreEach bc queues).run (handle ids) s) (.ok (), b.restoreEach ids queues) := by
  induction queues generalizing s b with
  | nil => exact ⟨rfl, h⟩
  | cons e queues ih =>
      have known : ∀ a ∈ e.1.text :: b.names, a ∈ namesOf (e :: queues) ++ b.names := by
        intro a member
        rcases List.mem_cons.mp member with rfl | old
        · exact List.mem_cons_self
        · exact List.mem_cons_of_mem _ (List.mem_append_right _ old)
      have first := restoreQueue_refines ids h (apart.subset known) (dated e List.mem_cons_self)
      refine first.bind ids fun s₁ after => ih after (apart.subset fun a member => ?_)
        fun e' member => dated e' (List.mem_cons_of_mem _ member)
      rcases List.mem_append.mp member with later | now
      · exact List.mem_cons_of_mem _ (List.mem_append_left _ later)
      · exact known a (b.restoreQueue_names ids e.1.text e.2 a now)

theorem Broker.restore_names (bc : Bincode) (b : Broker) (snapshot : QueueManagerSnapshot) :
    ∀ a ∈ (b.restore bc ids snapshot).names, a ∈ namesOf snapshot.queues.entries ++ b.names := by
  have each (queues : List (QueueName × QueueSnapshot)) (b : Broker) :
      ∀ a ∈ (b.restoreEach ids queues).names, a ∈ namesOf queues ++ b.names := by
    induction queues generalizing b with
    | nil => exact fun a member => member
    | cons e queues ih =>
        intro a member
        rcases List.mem_append.mp (ih _ a member) with later | now
        · exact List.mem_cons_of_mem _ (List.mem_append_left _ later)
        · rcases List.mem_cons.mp (b.restoreQueue_names ids e.1.text e.2 a now) with rfl | old
          · exact List.mem_cons_self
          · exact List.mem_cons_of_mem _ (List.mem_append_right _ old)
  exact each _ b

/-- A restore enters a snapshot on top of what the manager holds. -/
theorem restore_refines (h : Refines bc s.manager b) {snapshot : QueueManagerSnapshot}
    (apart : NonColliding (namesOf snapshot.queues.entries ++ b.names))
    (dated : ∀ e ∈ snapshot.queues.entries, e.2.Dated) :
    Follows bc ((restoreFromSnapshot bc snapshot).run (handle ids) s)
      (.ok (), b.restore bc ids snapshot) := by
  refine (restoreEach_refines ids h apart dated).bind ids fun s₁ after => ?_
  rw [run_recalculateBytes ids after]
  exact ⟨rfl, after.setBytes _⟩

end Refinement

/-! ## What is exported -/

section Exported

variable {b : Broker}

theorem exported_get (utf8 : ∀ key ∈ b.queues.keys, ∃ name : String, key = name.utf8)
    (name : String) : b.exported.queues.get ⟨name⟩ = (b.queue name).map QueueState.snapshot := by
  have each (names : List String) (queues : OrdMap QueueName QueueSnapshot)
      (declaredAll : ∀ name ∈ names, ∃ st, b.queue name = some st) :
      (names.foldl (fun queues name => match b.queue name with
        | some st => queues.insert ⟨name⟩ st.snapshot
        | none => queues) queues).get ⟨name⟩ =
        if name ∈ names then (b.queue name).map QueueState.snapshot else queues.get ⟨name⟩ := by
    induction names generalizing queues with
    | nil => rfl
    | cons first names ih =>
        obtain ⟨st, declared⟩ := declaredAll first List.mem_cons_self
        simp only [List.foldl_cons, declared]
        rw [ih _ fun name' member => declaredAll name' (List.mem_cons_of_mem _ member)]
        by_cases later : name ∈ names
        · rw [if_pos later, if_pos (List.mem_cons_of_mem _ later)]
        · simp only [if_neg later, OrdMap.get_insert, QueueName.mk.injEq]
          by_cases here : name = first
          · subst here
            rw [if_pos rfl, if_pos List.mem_cons_self, declared, Option.map_some]
          · have absent : name ∉ first :: names := by simp [here, later]
            rw [if_neg here, if_neg absent]
  rw [Broker.exported, each b.names .empty fun name member => (Broker.mem_names utf8).mp member]
  split_ifs with listed
  · rfl
  · cases declared : b.queue name with
    | none => rfl
    | some st => exact absurd ((Broker.mem_names utf8).mpr ⟨st, declared⟩) listed

/-- An exported entry is the snapshot of a declared queue. -/
theorem exported_entry (utf8 : ∀ key ∈ b.queues.keys, ∃ name : String, key = name.utf8)
    {e : QueueName × QueueSnapshot} (listed : e ∈ b.exported.queues.entries) :
    ∃ st, b.queue e.1.text = some st ∧ st.snapshot = e.2 := by
  have found := OrdMap.get_eq_some.mpr listed
  have at_name := exported_get utf8 e.1.text
  rw [found] at at_name
  exact Option.map_eq_some_iff.mp at_name.symm

theorem exported_names (utf8 : ∀ key ∈ b.queues.keys, ∃ name : String, key = name.utf8) :
    ∀ a ∈ namesOf b.exported.queues.entries, a ∈ b.names := by
  intro a member
  obtain ⟨e, listed, rfl⟩ := List.mem_map.mp member
  obtain ⟨st, declared, -⟩ := exported_entry utf8 listed
  exact (Broker.mem_names utf8).mpr ⟨st, declared⟩

/-- Brokers with the same snapshot of every queue export the same. -/
theorem exported_congr {b' : Broker} (utf8 : ∀ key ∈ b.queues.keys, ∃ name : String, key = name.utf8)
    (utf8' : ∀ key ∈ b'.queues.keys, ∃ name : String, key = name.utf8)
    (same : ∀ name, (b.queue name).map QueueState.snapshot =
      (b'.queue name).map QueueState.snapshot) : b.exported = b'.exported := by
  have queues : b.exported.queues = b'.exported.queues := by
    refine OrdMap.ext_get fun name => ?_
    have at_name := exported_get utf8 name.text
    rw [same, ← exported_get utf8' name.text] at at_name
    exact at_name
  exact congrArg QueueManagerSnapshot.mk queues

end Exported

/-! ## What is restored -/

section Restored

variable {ids : Nat → UInt64} {b : Broker} {name : String}

theorem restoreQueue_drawn (b : Broker) (name : String) (qs : QueueSnapshot) :
    (b.restoreQueue ids name qs).drawn = b.drawn + qs.draws := by
  rw [Broker.restoreQueue, Broker.drawn_advance, Broker.drawn_change]
  rfl

theorem restoreQueue_queue (b : Broker) (name : String) (qs : QueueSnapshot) :
    (b.restoreQueue ids name qs).queue name = some ((qs.changes ids b.drawn).foldl QueueState.apply
      (.registered (b.queue name) qs.policy)) := by
  rw [Broker.restoreQueue, Broker.queue_advance, Broker.change_queue (b.register_queue name qs.policy)]

theorem restoreQueue_queue_other (b : Broker) {other : String} (different : other ≠ name)
    (qs : QueueSnapshot) : (b.restoreQueue ids name qs).queue other = b.queue other := by
  rw [Broker.restoreQueue, Broker.queue_advance, Broker.change_queue_other _ different]
  exact (OrdMap.get_insert _ _ _ _).trans
    (if_neg fun same => different (String.utf8_injective same))

theorem restoreEach_drawn (b : Broker) (queues : List (QueueName × QueueSnapshot)) :
    b.drawn ≤ (b.restoreEach ids queues).drawn := by
  induction queues generalizing b with
  | nil => exact Nat.le_refl _
  | cons e queues ih =>
      refine le_trans ?_ (ih (b.restoreQueue ids e.1.text e.2))
      rw [restoreQueue_drawn]
      exact Nat.le_add_right _ _

/-- A restore does not touch the limit. -/
theorem restore_maxBytes (bc : Bincode) (b : Broker) (snapshot : QueueManagerSnapshot) :
    (b.restore bc ids snapshot).maxBytes = b.maxBytes := by
  have each (queues : List (QueueName × QueueSnapshot)) (b : Broker) :
      (b.restoreEach ids queues).maxBytes = b.maxBytes := by
    induction queues generalizing b with
    | nil => rfl
    | cons e queues ih =>
        refine (ih (b.restoreQueue ids e.1.text e.2)).trans ?_
        rw [Broker.restoreQueue, Broker.maxBytes_advance, Broker.maxBytes_change]
        rfl
  exact each _ b

theorem restoreEach_queue_other (b : Broker) {queues : List (QueueName × QueueSnapshot)}
    (unlisted : name ∉ namesOf queues) : (b.restoreEach ids queues).queue name = b.queue name := by
  induction queues generalizing b with
  | nil => rfl
  | cons e queues ih =>
      obtain ⟨here, later⟩ := not_or.mp (mt List.mem_cons.mpr unlisted)
      exact (ih _ later).trans (restoreQueue_queue_other b here e.2)

variable (ids) in
/-- Each listed queue gets its snapshot entered once, under ids of its own. -/
theorem restoreEach_queue (b : Broker) {queues : List (QueueName × QueueSnapshot)}
    (distinct : (namesOf queues).Nodup) {e : QueueName × QueueSnapshot} (listed : e ∈ queues) :
    ∃ n, b.drawn ≤ n ∧ n + e.2.draws ≤ (b.restoreEach ids queues).drawn ∧
      (b.restoreEach ids queues).queue e.1.text = some ((e.2.changes ids n).foldl QueueState.apply
        (.registered (b.queue e.1.text) e.2.policy)) := by
  induction queues generalizing b with
  | nil => exact absurd listed List.not_mem_nil
  | cons first queues ih =>
      obtain ⟨unlisted, distinct⟩ := List.nodup_cons.mp distinct
      rcases List.mem_cons.mp listed with rfl | later
      · refine ⟨b.drawn, Nat.le_refl _, ?_, ?_⟩
        · rw [← restoreQueue_drawn]
          exact restoreEach_drawn _ queues
        · exact (restoreEach_queue_other _ unlisted).trans (restoreQueue_queue b e.1.text e.2)
      · obtain ⟨n, le, fits, queue⟩ := ih (b.restoreQueue ids first.1.text first.2) distinct later
        rw [restoreQueue_drawn] at le
        have different : e.1.text ≠ first.1.text := fun same =>
          unlisted (List.mem_map.mpr ⟨e, later, same⟩)
        rw [restoreQueue_queue_other b different] at queue
        exact ⟨n, (Nat.le_add_right _ _).trans le, fits, queue⟩

/-- A queue that was not exported is left as it is. -/
theorem restore_queue_other (bc : Bincode) (b : Broker) {b₀ : Broker}
    (utf8₀ : ∀ key ∈ b₀.queues.keys, ∃ name : String, key = name.utf8)
    (undeclared : b₀.queue name = none) :
    (b.restore bc ids b₀.exported).queue name = b.queue name := by
  have unlisted := exported_get utf8₀ name
  rw [undeclared, Option.map_none, OrdMap.get_eq_none] at unlisted
  refine restoreEach_queue_other b fun member => ?_
  obtain ⟨e, inside, rfl⟩ := List.mem_map.mp member
  exact unlisted (List.mem_map_of_mem inside)

variable (ids) in
/-- A queue that was exported gets its dump entered, under ids of its own. -/
theorem restore_queue (bc : Bincode) (b : Broker) {b₀ : Broker}
    (utf8₀ : ∀ key ∈ b₀.queues.keys, ∃ name : String, key = name.utf8) {st₀ : QueueState}
    (declared : b₀.queue name = some st₀) :
    ∃ n, b.drawn ≤ n ∧ n + st₀.snapshot.draws ≤ (b.restore bc ids b₀.exported).drawn ∧
      (b.restore bc ids b₀.exported).queue name =
        some ((st₀.snapshot.changes ids n).foldl QueueState.apply
          (.registered (b.queue name) st₀.policy)) := by
  have listed := exported_get utf8₀ name
  rw [declared, Option.map_some, OrdMap.get_eq_some] at listed
  have distinct : (namesOf b₀.exported.queues.entries).Nodup := by
    have keys := b₀.exported.queues.keys_nodup
    rw [OrdMap.keys] at keys
    refine List.Nodup.of_map (f := QueueName.mk) ?_
    rw [namesOf, List.map_map]
    exact keys
  exact restoreEach_queue ids b distinct listed

/-! ### A snapshot entered into a queue -/

/-- Keyed entries for numbered messages. -/
def keyed {A : Type} (class_ : Message → A) (e : UInt64 × Message) : (A ×ₗ UInt64) × Message :=
  (toLex (class_ e.2, e.1), e.2)

theorem apply_putReady (l : List (UInt64 × Message)) (st : QueueState) :
    ((l.map fun e => Change.putReady (readyKey e.2.priority e.1) e.2).foldl QueueState.apply st) =
      { st with
        ready := (l.map (keyed fun m => rank m.priority)).foldl (fun m e => m.insert e.1 e.2) st.ready
        arrivals := st.arrivals ++ l.map fun e => readyKey e.2.priority e.1 } := by
  induction l generalizing st with
  | nil => simp only [List.map_nil, List.foldl_nil, List.append_nil]
  | cons e l ih =>
      rw [List.map_cons, List.foldl_cons, ih]
      simp only [QueueState.apply, List.map_cons, List.append_assoc, List.singleton_append]
      rfl

theorem apply_putScheduled (l : List (UInt64 × Message)) (st : QueueState) :
    ((l.map fun e => Change.putScheduled (dueKey (e.2.deliverAt.getD 0) e.1) e.2).foldl
        QueueState.apply st) =
      { st with
        scheduled := (l.map (keyed fun m => (m.deliverAt.getD 0).toUInt64)).foldl
          (fun m e => m.insert e.1 e.2) st.scheduled } := by
  induction l generalizing st with
  | nil => rfl
  | cons e l ih =>
      rw [List.map_cons, List.foldl_cons, ih]
      rfl

theorem apply_putInflight (l : List (UInt64 × Message)) (st : QueueState) :
    ((l.map fun e => Change.putInflight e.1 e.2).foldl QueueState.apply st) =
      { st with inflight := l.foldl (fun m e => m.insert e.1 e.2) st.inflight } := by
  induction l generalizing st with
  | nil => rfl
  | cons e l ih =>
      rw [List.map_cons, List.foldl_cons, ih]
      rfl

theorem apply_putDeadLetter (l : List (UInt64 × Message)) (st : QueueState) :
    ((l.map fun e => Change.putDeadLetter (readyKey e.2.priority e.1) e.2).foldl
        QueueState.apply st) =
      { st with
        deadLetter := (l.map (keyed fun m => rank m.priority)).foldl
          (fun m e => m.insert e.1 e.2) st.deadLetter } := by
  induction l generalizing st with
  | nil => rfl
  | cons e l ih =>
      rw [List.map_cons, List.foldl_cons, ih]
      rfl

/-- A queue after a snapshot was entered into it, store by store. -/
theorem apply_changes (ids : Nat → UInt64) (n : Nat) (qs : QueueSnapshot) (st : QueueState) :
    (qs.changes ids n).foldl QueueState.apply st =
      { policy := st.policy
        ready := ((numbered ids n qs.messages).map (keyed fun m => rank m.priority)).foldl
          (fun m e => m.insert e.1 e.2) st.ready
        inflight := qs.inflight.foldl (fun m e => m.insert e.1 e.2) st.inflight
        deadLetter := ((numbered ids (n + qs.messages.length + qs.scheduled.length)
          qs.deadLetter).map (keyed fun m => rank m.priority)).foldl
            (fun m e => m.insert e.1 e.2) st.deadLetter
        scheduled := ((numbered ids (n + qs.messages.length) qs.scheduled).map
          (keyed fun m => (m.deliverAt.getD 0).toUInt64)).foldl (fun m e => m.insert e.1 e.2)
            st.scheduled
        dedup := st.dedup
        arrivals := st.arrivals ++
          (numbered ids n qs.messages).map fun e => readyKey e.2.priority e.1 } := by
  simp only [QueueSnapshot.changes, entering, List.foldl_append, apply_putReady,
    apply_putScheduled, apply_putInflight, apply_putDeadLetter]

theorem numbered_values (ids : Nat → UInt64) (n : Nat) (messages : List Message) :
    (numbered ids n messages).map Prod.snd = messages := by
  induction messages generalizing n with
  | nil => rfl
  | cons m messages ih => rw [numbered, List.map_cons, ih]

theorem mem_numbered {n : Nat} {messages : List Message} {e : UInt64 × Message}
    (member : e ∈ numbered ids n messages) :
    ∃ i, n ≤ i ∧ i < n + messages.length ∧ e.1 = ids i := by
  induction messages generalizing n with
  | nil => exact absurd member List.not_mem_nil
  | cons m messages ih =>
      rw [List.length_cons]
      rcases List.mem_cons.mp member with rfl | later
      · exact ⟨n, Nat.le_refl _, by omega, rfl⟩
      · obtain ⟨i, le, less, id⟩ := ih later
        exact ⟨i, by omega, by omega, id⟩

/-- Messages in the order of their classes get keys in order. -/
theorem keyed_sorted {A : Type} [LinearOrder A] (class_ : Message → A) {n : Nat}
    {messages : List Message} (ordered : messages.Pairwise fun m m' => class_ m ≤ class_ m')
    (increasing : StrictMonoOn ids (Set.Iio (n + messages.length))) :
    ((numbered ids n messages).map (keyed class_)).Pairwise fun e e' => e.1 < e'.1 := by
  induction messages generalizing n with
  | nil => exact .nil
  | cons m messages ih =>
      obtain ⟨first, rest⟩ := List.pairwise_cons.mp ordered
      rw [List.length_cons] at increasing
      rw [numbered, List.map_cons, List.pairwise_cons]
      have fits : n + 1 + messages.length = n + (messages.length + 1) := by omega
      refine ⟨?_, ih rest (fits ▸ increasing)⟩
      intro e member
      obtain ⟨e', listed, rfl⟩ := List.mem_map.mp member
      obtain ⟨i, le, less, id⟩ := mem_numbered listed
      have after : e'.2 ∈ messages := by
        rw [← numbered_values ids (n + 1) messages]
        exact List.mem_map_of_mem listed
      rw [Prod.Lex.lt_iff]
      rcases (first e'.2 after).lt_or_eq with less' | same
      · exact .inl less'
      · refine .inr ⟨same, ?_⟩
        change ids n < e'.1
        rw [id]
        exact increasing (by simp) (by simp; omega) (by omega)

/-- A store that is dumped and entered again runs alongside the original. -/
theorem restored_store {A : Type} [LinearOrder A] (class_ : Message → A) {ids' : Nat → UInt64}
    {n : Nat} (n' : Nat) {m : OrdMap (A ×ₗ UInt64) Message}
    (made : ∀ e ∈ m.entries, ∃ i < n, e.1 = toLex (class_ e.2, ids i))
    (increasing' : StrictMonoOn ids' (Set.Iio (n' + m.values.length))) :
    ∃ K, Linked ids ids' n (n' + m.values.length) K ∧
      m.Along K (((numbered ids' n' m.values).map (keyed class_)).foldl
        (fun m e => m.insert e.1 e.2) .empty) := by
  have ordered : m.values.Pairwise fun v v' => class_ v ≤ class_ v' := by
    refine List.pairwise_map.mpr (m.sorted.imp_of_mem fun {e e'} here there less => ?_)
    obtain ⟨i, -, key⟩ := made e here
    obtain ⟨i', -, key'⟩ := made e' there
    rw [key, key', Prod.Lex.lt_iff] at less
    exact less.elim le_of_lt fun both => both.1.le
  have sorted := keyed_sorted class_ ordered increasing'
  have entries := OrdMap.foldl_insert_sorted (m := .empty) sorted fun _ member => nomatch member
  rw [OrdMap.entries_empty, List.nil_append] at entries
  generalize ((numbered ids' n' m.values).map (keyed class_)).foldl
    (fun m e => OrdMap.insert m e.1 e.2) OrdMap.empty = m' at entries
  have values : m.values = m'.values := by
    have same : m'.values = (numbered ids' n' m.values).map Prod.snd := by
      rw [OrdMap.values, entries, List.map_map]
      rfl
    rw [same, numbered_values]
  have made' : ∀ e ∈ m'.entries, ∃ i < n' + m.values.length, e.1 = toLex (class_ e.2, ids' i) := by
    intro e member
    rw [entries] at member
    obtain ⟨e', listed, rfl⟩ := List.mem_map.mp member
    obtain ⟨i, -, less, id⟩ := mem_numbered listed
    exact ⟨i, less, by rw [← id]; rfl⟩
  -- position by position, and of one class
  let K (k k' : A ×ₗ UInt64) : Prop := (k, k') ∈ m.keys.zip m'.keys ∧
    ∃ i < n, ∃ i' < n' + m.values.length, ∃ a, k = toLex (a, ids i) ∧ k' = toLex (a, ids' i')
  refine ⟨K, ⟨?_, ?_, ?_, ?_⟩, ?_⟩
  · exact (Ordered.zip m.keys_sorted m'.keys_sorted).restrict fun _ _ both => both.1
  · rintro k k' ⟨-, i, -, i', -, a, rfl, rfl⟩
    rfl
  · rintro k k' ⟨-, i, less, i', -, a, rfl, rfl⟩
    exact ⟨i, less, rfl⟩
  · rintro k k' ⟨-, i, -, i', less, a, rfl, rfl⟩
    exact ⟨i', less, rfl⟩
  · refine (OrdMap.Along.of_values values).imp fun e here e' there same zip => ?_
    obtain ⟨i, less, key⟩ := made e here
    obtain ⟨i', less', key'⟩ := made' e' there
    exact ⟨zip, i, less, i', less', class_ e.2, key, by rw [key', same]⟩

/-- A queue that is dumped and entered into a new one is a twin of the original, with the
    same messages in flight under the same tags. -/
theorem restored_twin {ids' : Nat → UInt64} {n : Nat} (n' : Nat) {st : QueueState}
    (sound : st.Sound ids n) (increasing' : StrictMonoOn ids' (Set.Iio (n' + st.snapshot.draws))) :
    ∃ L : Links, L.Valid ids ids' n (n' + st.snapshot.draws) ∧
      Twin L st ((st.snapshot.changes ids' n').foldl QueueState.apply (.fresh st.policy)) ∧
        ((st.snapshot.changes ids' n').foldl QueueState.apply (.fresh st.policy)).inflight =
            st.inflight ∧
          ((st.snapshot.changes ids' n').foldl QueueState.apply (.fresh st.policy)).dedup =
            .empty := by
  have scheduled : ∀ e ∈ st.scheduled.entries,
      ∃ i < n, e.1 = toLex ((e.2.deliverAt.getD 0).toUInt64, ids i) := by
    intro e member
    obtain ⟨i, less, deliverAt, due, key⟩ := sound.scheduled e member
    exact ⟨i, less, by rw [due, Option.getD_some]; exact key⟩
  have upTo {count : Nat} (le : count ≤ st.snapshot.draws) :
      StrictMonoOn ids' (Set.Iio (n' + count)) :=
    increasing'.mono (Set.Iio_subset_Iio (Nat.add_le_add_left le n'))
  have lengths : st.snapshot.draws =
      st.ready.values.length + st.scheduled.values.length + st.deadLetter.values.length := rfl
  obtain ⟨K, linked, ready⟩ := restored_store (fun m => rank m.priority) n' sound.ready
    (upTo (by omega))
  obtain ⟨K', linked', scheduled⟩ := restored_store (fun m => (m.deliverAt.getD 0).toUInt64)
    (n' + st.ready.values.length) scheduled (Nat.add_assoc _ _ _ ▸ upTo (by omega))
  obtain ⟨K'', linked'', deadLetter⟩ := restored_store (fun m => rank m.priority)
    (n' + st.ready.values.length + st.scheduled.values.length) sound.deadLetter
    (by rw [Nat.add_assoc, Nat.add_assoc, ← Nat.add_assoc st.ready.values.length]; exact upTo (by omega))
  rw [apply_changes]
  refine ⟨⟨K, K', K''⟩, ⟨?_, ?_, ?_⟩, ⟨rfl, ready, deadLetter, scheduled⟩, ?_, rfl⟩
  · exact linked.later (Nat.le_refl n) (by omega)
  · exact linked'.later (Nat.le_refl n) (by omega)
  · exact linked''.later (Nat.le_refl n) (by omega)
  · apply OrdMap.ext_entries
    exact OrdMap.foldl_insert_sorted st.inflight.sorted fun _ member => nomatch member

end Restored

end PelicanQ
