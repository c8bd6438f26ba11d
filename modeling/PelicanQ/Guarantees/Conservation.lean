import PelicanQ.Broker.Contents

/-! # No message is lost and none is duplicated

The balance of moves, summed over a run from an empty directory, for each queue:
what its four message trees hold, what acks removed and what retention removed
are together what publishes stored.  Messages are compared without their
delivery counter.
-/

namespace PelicanQ

/-- The messages that values stand for; a value that cannot be read counts as its error. -/
def decoded (bc : Bincode) (values : List Bytes) : Multiset (Except String Message) :=
  Multiset.ofList (values.map fun value => (bc.message.decode value).map Message.content)

def heldIn (bc : Bincode) (qm : QueueManager) (q : String) (role : Role) :
    Multiset (Except String Message) :=
  decoded bc (qm.db.trees (role.treeName q)).values

/-- What the main, scheduled, in-flight and dead-letter trees of a queue hold. -/
def held (bc : Bincode) (qm : QueueManager) (q : String) : Multiset (Except String Message) :=
  heldIn bc qm q .ready + heldIn bc qm q .scheduled + heldIn bc qm q .inflight +
    heldIn bc qm q .deadLetter

namespace Event

/-- The message for which a publish to the queue returned `Stored`. -/
def stored (q : String) (e : Event) : Multiset (Except String Message) :=
  match e.step.op, e.response with
  | .publish queue m, .published (.ok (.stored _)) => if queue = q then {.ok m.content} else 0
  | _, _ => 0

/-- The message a successful ack removed: the one in flight under its tag. -/
def acked (bc : Bincode) (q : String) (e : Event) : Multiset (Except String Message) :=
  match e.step.op, e.response with
  | .ack queue tag, .acked (.ok ()) =>
      if queue = q then
        decoded bc ((e.before.db.trees (inflightTreeName q)).get tag.toBeBytes).toList
      else 0
  | _, _ => 0

/-- The messages retention removed: those whose keys are gone from the ready tree. -/
def dropped (bc : Bincode) (q : String) (e : Event) : Multiset (Except String Message) :=
  match e.step.op with
  | .applyRetention queue =>
      if queue = q then
        decoded bc (((e.before.db.trees q).entries.filter fun entry =>
          ((e.after.db.trees q).get entry.1).isNone).map Prod.snd)
      else 0
  | _ => 0

end Event

/-! ## The balance of events -/

/-- Discarding takes listed entries out of the ready store and leaves the rest. -/
theorem Path.discarded {ids : Nat → UInt64} {b b' : Broker} {name : String}
    {entries : List (ReadyKey × Message)}
    (path : Path ids b (entries.map fun e => (name, .discard e.1 e.2)) b') {st : QueueState}
    (declared : b.queue name = some st) :
    ∃ st', b'.queue name = some st' ∧ (entries.map Prod.fst).Nodup ∧
      (∀ e ∈ entries, st.ready.get e.1 = some e.2) ∧
      ∀ key, st'.ready.get key = if key ∈ entries.map Prod.fst then none else st.ready.get key := by
  generalize labels : entries.map (fun e => (name, Move.discard e.1 e.2)) = moves at path
  induction path generalizing entries st with
  | done =>
      rw [List.map_eq_nil_iff.mp labels]
      exact ⟨st, declared, .nil, by simp, fun _ => rfl⟩
  | idle queues _ _ ih =>
      exact ih (by rw [Broker.queue, queues]; exact declared) labels
  | @declare b _ other policy _ undeclared _ ih =>
      have different : name ≠ other := by
        rintro rfl
        rw [undeclared] at declared
        cases declared
      refine ih ?_ labels
      simp only [Broker.queue, OrdMap.get_insert, String.utf8_injective.eq_iff, different, if_false]
      exact declared
  | @move b b' other st₀ mv moves declared₀ enabled more ih =>
      cases entries with
      | nil => cases labels
      | cons e entries =>
          rw [List.map_cons, List.cons.injEq, Prod.mk.injEq] at labels
          obtain ⟨⟨rfl, rfl⟩, labels⟩ := labels
          rw [declared, Option.some.injEq] at declared₀
          subst declared₀
          obtain ⟨st', declared', distinct, present, left⟩ :=
            ih (Broker.move_queue declared _) labels
          have erased (key : ReadyKey) : (st.move (ids b.drawn) (.discard e.1 e.2)).ready.get key =
              if key = e.1 then none else st.ready.get key := OrdMap.get_erase _ _ _
          have later : ∀ e' ∈ entries, e'.1 ≠ e.1 ∧ st.ready.get e'.1 = some e'.2 := by
            intro e' member
            have found := present e' member
            rw [erased] at found
            split_ifs at found with same
            exact ⟨same, found⟩
          refine ⟨st', declared', ?_, ?_, ?_⟩
          · rw [List.map_cons, List.nodup_cons]
            refine ⟨fun member => ?_, distinct⟩
            obtain ⟨e', inside, same⟩ := List.mem_map.mp member
            exact (later e' inside).1 same
          · intro e' member
            rcases List.mem_cons.mp member with rfl | inside
            · exact enabled
            · exact (later e' inside).2
          · intro key
            rw [left, erased, List.map_cons]
            by_cases first : key = e.1
            · simp [first]
            · simp only [first, if_false, List.mem_cons, false_or]

section Events

variable {bc : Bincode} {ids : Nat → UInt64} {e : Event} {b b' : Broker}
  {moves : List (String × Move)}

theorem decoded_encoded (bc : Bincode) (messages : List Message) :
    decoded bc (messages.map bc.message.encode) =
      (Multiset.ofList (messages.map Message.content)).map .ok := by
  simp only [decoded, List.map_map, Function.comp_def, bc.message.decode_encode, Multiset.map_coe]
  rfl

/-- What the trees of a queue hold is what the broker holds. -/
theorem held_contents {qm : QueueManager} (refines : Refines bc qm b) {q : String} {st : QueueState}
    (declared : b.queue q = some st) : held bc qm q = (b.contents q).map .ok := by
  have store {K : Type} [LinearOrder K] (role : Role) (f : K → Bytes) (mono : StrictMono f)
      (store : OrdMap K Message) (tree : st.tree bc role = store.image f mono bc.message.encode) :
      heldIn bc qm q role = (tally store).map .ok := by
    have values : (st.tree bc role).values =
        (store.entries.map Prod.snd).map bc.message.encode := by
      rw [tree, OrdMap.values, OrdMap.image_entries, List.map_map, List.map_map]
      rfl
    rw [heldIn, refines.held.stores q st declared role, values, decoded_encoded, tally,
      List.map_map]
    rfl
  rw [Broker.contents, declared, Option.map_some, Option.getD_some, held, QueueState.contents,
    store .ready _ ReadyKey.bytes_strictMono st.ready rfl,
    store .scheduled _ DueKey.bytes_strictMono st.scheduled rfl,
    store .inflight _ UInt64.toBeBytes_strictMono st.inflight rfl,
    store .deadLetter _ ReadyKey.bytes_strictMono st.deadLetter rfl]
  simp only [Multiset.map_add]

/-- A publish that stored its message brought it in; nothing else brings messages in. -/
theorem Simulates.stored_incoming (sim : Simulates bc ids e b moves b') (q : String) :
    e.stored q = (total Move.incoming q moves).map .ok := by
  obtain ⟨step, before, response, after⟩ := e
  obtain ⟨op, clock⟩ := step
  have transition := sim.step
  dsimp only at transition
  cases transition with
  | «exists» | declared | deduplicated | limited | nothing | invalidAck | invalidNack => rfl
  | notFound missing => cases op <;> cases missing <;> rfl
  | stored path others =>
      rw [total_cons, total_zero, add_zero]
      · simp only [Event.stored]
        split_ifs <;> rfl
      · intro x member
        obtain ⟨mv, inside, rfl⟩ := List.mem_map.mp member
        obtain ⟨key, time, rfl⟩ := others mv inside
        rfl
  | delivered | acked | nacked =>
      rw [total_zero]
      · rfl
      · intro x member
        rw [List.mem_singleton.mp member]
        rfl
  | promoted | retained =>
      rw [total_zero]
      · rfl
      · intro x member
        obtain ⟨e, -, rfl⟩ := List.mem_map.mp member
        rfl
  | reopened path requeues =>
      rw [total_zero]
      · rfl
      · intro x member
        obtain ⟨tag, m, same⟩ := requeues x member
        rw [same]
        rfl

theorem total_discards (q name : String) (entries : List (ReadyKey × Message)) :
    total Move.outgoing q (entries.map fun e => (name, .discard e.1 e.2)) =
      if name = q then Multiset.ofList (entries.map fun e => e.2.content) else 0 := by
  induction entries with
  | nil => simp
  | cons e entries ih =>
      rw [List.map_cons, total_cons, ih]
      split_ifs
      · rfl
      · rfl

/-- A refused retention changes nothing at all. -/
theorem applyRetention_undeclared {qm : QueueManager} (refines : Refines bc qm b) {q : String}
    (undeclared : b.queue q = none) (clock : Nat → Int64) :
    ((Operation.applyRetention q).perform bc ids clock qm).2 = qm := by
  have start : Refines bc (Machine.mk qm clock).manager b := refines
  have run : (QueueManager.applyRetention bc q).run (handle ids) ⟨qm, clock⟩ =
      (.err (.queueNotFound q), ⟨qm, clock⟩) := run_requireQueue_absent start undeclared _
  simp only [Operation.perform, exec, run]
  rfl

/-- What retention removed from the ready tree are the entries it discarded. -/
theorem dropped_discards {qm qm' : QueueManager} (before : Refines bc qm b)
    (after : Refines bc qm' b') {q : String} {st : QueueState} (declared : b.queue q = some st)
    {entries : List (ReadyKey × Message)}
    (path : Path ids b (entries.map fun e => (q, .discard e.1 e.2)) b') :
    decoded bc (((qm.db.trees q).entries.filter fun entry =>
        ((qm'.db.trees q).get entry.1).isNone).map Prod.snd) =
      (Multiset.ofList (entries.map fun e => e.2.content)).map .ok := by
  obtain ⟨st', declared', distinct, present, left⟩ := path.discarded declared
  have tree : qm.db.trees q = st.tree bc .ready := before.held.stores q st declared .ready
  have tree' : qm'.db.trees q = st'.tree bc .ready := after.held.stores q st' declared' .ready
  have gone : (st.ready.entries.filter fun e => (st'.ready.get e.1).isNone).Perm entries := by
    rw [List.perm_ext_iff_of_nodup (st.ready.entries_nodup.filter _) distinct.of_map]
    intro e
    rw [List.mem_filter, ← OrdMap.get_eq_some, left]
    constructor
    · rintro ⟨here, absent⟩
      split_ifs at absent with listed
      · obtain ⟨e', inside, same⟩ := List.mem_map.mp listed
        have found := present e' inside
        rw [same, here, Option.some.injEq] at found
        rwa [show e = e' from Prod.ext same.symm found]
      · rw [here] at absent
        cases absent
    · intro inside
      exact ⟨present e inside, by rw [if_pos (List.mem_map_of_mem inside)]; rfl⟩
  have values : ((st.tree bc .ready).entries.filter fun entry =>
      ((st'.tree bc .ready).get entry.1).isNone).map Prod.snd =
        ((st.ready.entries.filter fun e => (st'.ready.get e.1).isNone).map Prod.snd).map
          bc.message.encode := by
    have entriesOf : (st.tree bc .ready).entries =
        st.ready.entries.map fun e => (ReadyKey.bytes e.1, bc.message.encode e.2) := rfl
    rw [entriesOf, List.filter_map, List.map_map, List.map_map]
    simp only [Function.comp_def, st'.get_ready, Option.isNone_map]
  rw [tree, tree', values, decoded_encoded, List.map_map, Multiset.coe_eq_coe.mpr (gone.map _)]
  rfl

/-- Acks and retention take messages out; nothing else does. -/
theorem Simulates.removed_outgoing (sim : Simulates bc ids e b moves b') (q : String) :
    e.acked bc q + e.dropped bc q = (total Move.outgoing q moves).map .ok := by
  obtain ⟨step, before, response, after⟩ := e
  obtain ⟨op, clock⟩ := step
  have transition := sim.step
  dsimp only at transition
  cases transition with
  | «exists» | declared | deduplicated | limited | nothing | invalidAck | invalidNack => rfl
  | notFound missing undeclared =>
      cases op with
      | applyRetention queue =>
          cases missing
          have same : after = before := by
            have after_eq := congrArg Prod.snd sim.performed
            exact after_eq.trans (applyRetention_undeclared sim.before undeclared clock)
          simp only [Event.acked, Event.dropped, same, zero_add, total_nil, Multiset.map_zero]
          split_ifs
          · rw [List.filter_eq_nil_iff.mpr]
            · rfl
            · intro entry member
              rw [OrdMap.get_eq_some.mpr member]
              exact Bool.false_ne_true
          · rfl
      | publish | consume | ack | nack | promoteScheduled => cases missing; rfl
      | declareQueueWithRetention | reopen => cases missing
  | stored path others =>
      rw [total_cons, total_zero, add_zero]
      · simp [Event.acked, Event.dropped, Move.outgoing]
      · intro x member
        obtain ⟨mv, inside, rfl⟩ := List.mem_map.mp member
        obtain ⟨key, time, rfl⟩ := others mv inside
        rfl
  | @acked name tag st m bytes declared present =>
      rw [total_cons, total_nil, add_zero]
      simp only [Event.acked, Event.dropped, add_zero, Move.outgoing]
      split_ifs with here
      · subst here
        have found : (before.db.trees (inflightTreeName name)).get tag.toBeBytes =
            some (bc.message.encode m) := by
          rw [show inflightTreeName name = Role.inflight.treeName name from rfl,
            sim.before.held.stores name st declared .inflight, st.get_inflight, present,
            Option.map_some]
        rw [found]
        exact decoded_encoded bc [m]
      · rfl
  | delivered | nacked =>
      rw [total_zero]
      · rfl
      · intro x member
        rw [List.mem_singleton.mp member]
        rfl
  | promoted =>
      rw [total_zero]
      · rfl
      · intro x member
        obtain ⟨e, -, rfl⟩ := List.mem_map.mp member
        rfl
  | @retained name st entries _ declared path =>
      rw [total_discards]
      simp only [Event.acked, Event.dropped, zero_add]
      split_ifs with here
      · subst here
        exact dropped_discards sim.before sim.after declared path
      · rfl
  | reopened path requeues =>
      rw [total_zero]
      · rfl
      · intro x member
        obtain ⟨tag, m, same⟩ := requeues x member
        rw [same]
        rfl

end Events

/-- The balance of a queue after some events. -/
def Balanced (bc : Bincode) (q : String) (past : List Event) (b : Broker) : Prop :=
  (b.contents q).map Except.ok + (past.map (Event.acked bc q)).sum +
    (past.map (Event.dropped bc q)).sum = (past.map (Event.stored q)).sum

/-- One more event keeps the balance. -/
theorem Balanced.next {bc : Bincode} {ids : Nat → UInt64} {q : String} {past : List Event}
    {e : Event} {b b' : Broker} {moves : List (String × Move)} (balance : Balanced bc q past b)
    (sim : Simulates bc ids e b moves b') : Balanced bc q (past ++ [e]) b' := by
  have moved := congrArg (Multiset.map (Except.ok : Message → Except String Message))
    (sim.step.path.balanced sim.sound sim.increasing q)
  rw [Multiset.map_add, Multiset.map_add, ← sim.removed_outgoing, ← sim.stored_incoming] at moved
  rw [Balanced] at balance ⊢
  simp only [List.map_append, List.sum_append, List.map_singleton, List.sum_singleton]
  rw [← balance]
  calc (b'.contents q).map Except.ok + ((past.map (Event.acked bc q)).sum + e.acked bc q) +
          ((past.map (Event.dropped bc q)).sum + e.dropped bc q)
      = ((b'.contents q).map Except.ok + (e.acked bc q + e.dropped bc q)) +
          (past.map (Event.acked bc q)).sum + (past.map (Event.dropped bc q)).sum := by abel
    _ = ((b.contents q).map Except.ok + e.stored q) +
          (past.map (Event.acked bc q)).sum + (past.map (Event.dropped bc q)).sum := by rw [moved]
    _ = (b.contents q).map Except.ok + (past.map (Event.acked bc q)).sum +
          (past.map (Event.dropped bc q)).sum + e.stored q := by abel

/-- No loss and no duplication.  In every run from an empty directory, what a
    declared queue holds, what acks removed from it and what retention removed
    from it are together the messages its publishes stored. -/
theorem held_acked_dropped_eq_stored (bc : Bincode) (ids : Nat → UInt64)
    (maxBytes : Option UInt64) (steps : List Step)
    (apart : NonColliding (declaredNames steps))
    (increasing : Increasing ids (final bc ids (started bc ids maxBytes) steps)) (q : String)
    (declared : q.utf8 ∈
      ((final bc ids (started bc ids maxBytes) steps).db.trees metaQueuesTree).keys) :
    held bc (final bc ids (started bc ids maxBytes) steps) q +
        ((events bc ids (started bc ids maxBytes) steps).map (Event.acked bc q)).sum +
        ((events bc ids (started bc ids maxBytes) steps).map (Event.dropped bc q)).sum =
      ((events bc ids (started bc ids maxBytes) steps).map (Event.stored q)).sum := by
  obtain ⟨b, refines, -, balance⟩ := run_invariant bc ids maxBytes (Balanced bc q) rfl
    (fun _ _ _ _ _ => Balanced.next) steps apart increasing
  have registered : ∃ st, b.queue q = some st := by
    rwa [refines.held.registered, OrdMap.mapValues_keys, OrdMap.mem_keys] at declared
  obtain ⟨st, present⟩ := registered
  rw [held_contents refines present]
  exact balance

/-- A message for the queue of the runs below. -/
def note (id : Uuid) (priority : UInt8) : Message :=
  ⟨id, [], [], 0, 0, priority, none, none⟩

/-- A run in which messages leave a queue in both ways. -/
def busyRun : List Step :=
  [⟨.declareQueueWithRetention "q" { maxMessages := some 1 }, fun _ => 0⟩,
    ⟨.publish "q" (note 1 0), fun _ => 0⟩,
    ⟨.publish "q" (note 2 5), fun _ => 0⟩,
    ⟨.publish "q" { note 3 0 with deliverAt := some 50 }, fun _ => 0⟩,
    ⟨.consume "q", fun _ => 0⟩,
    ⟨.ack "q" 1, fun _ => 0⟩,
    ⟨.promoteScheduled "q", fun _ => 60⟩,
    ⟨.applyRetention "q", fun _ => 60⟩,
    ⟨.consume "q", fun _ => 60⟩,
    ⟨.reopen none, fun _ => 70⟩]

theorem busyRun_balanced :
    held bincode (final bincode (counter 0) (started bincode (counter 0) none) busyRun) "q" +
        ((events bincode (counter 0) (started bincode (counter 0) none) busyRun).map
          (Event.acked bincode "q")).sum +
        ((events bincode (counter 0) (started bincode (counter 0) none) busyRun).map
          (Event.dropped bincode "q")).sum =
      ((events bincode (counter 0) (started bincode (counter 0) none) busyRun).map
        (Event.stored "q")).sum := by
  have drawn : (final bincode (counter 0) (started bincode (counter 0) none) busyRun).db.drawn = 5 := by
    decide +kernel
  exact held_acked_dropped_eq_stored bincode (counter 0) none busyRun (by decide)
    (counter_increasing (by rw [drawn]; decide)) "q" (by decide +kernel)

end PelicanQ
