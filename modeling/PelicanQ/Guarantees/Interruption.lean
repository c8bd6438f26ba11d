import PelicanQ.Guarantees.Recovery

/-! # Interrupted recovery

Recovery writes queue by queue: first one insert for each message in flight, then
one removal for each.  A crash keeps some first part of these writes.  Recovering
again is right exactly when the part ends between two queues: anywhere else some
message is in both stores of its queue and is copied once more.
-/

namespace PelicanQ

open QueueManager

/-! ## The writes of a recovery -/

/-- The ids a change takes. -/
def Change.draws : Change → Nat
  | .putReady .. => 1
  | _ => 0

/-- The changes that recover a queue, from the `n`th id on. -/
def queueRecovery (ids : Nat → UInt64) (n : Nat) (flight : List (UInt64 × Message)) : List Change :=
  Broker.requeues ids n (flight.map Prod.snd) ++ flight.map fun e => .dropInflight e.1

/-- The changes that recover queues one after the other. -/
def recovery (ids : Nat → UInt64) (flight : String → List (UInt64 × Message)) :
    Nat → List String → List (String × Change)
  | _, [] => []
  | n, name :: rest => (queueRecovery ids n (flight name)).map (fun c => (name, c)) ++
      recovery ids flight (n + (flight name).length) rest

/-- The ids that changes take. -/
def draws (changes : List (String × Change)) : Nat := (changes.map fun x => x.2.draws).sum

/-- The batches that make changes, one write each. -/
def writes (bc : Bincode) (changes : List (String × Change)) : List Sled.Batch :=
  changes.map fun x => [x.2.write bc x.1]

section Lists

variable {ids : Nat → UInt64} {n : Nat} {flight : List (UInt64 × Message)}

theorem length_requeues (messages : List Message) :
    (Broker.requeues ids n messages).length = messages.length := by
  induction messages generalizing n with
  | nil => rfl
  | cons m messages ih => rw [Broker.requeues, List.length_cons, ih, List.length_cons]

theorem take_requeues (i : Nat) (messages : List Message) :
    (Broker.requeues ids n messages).take i = Broker.requeues ids n (messages.take i) := by
  induction messages generalizing n i with
  | nil => rw [Broker.requeues, List.take_nil, List.take_nil, Broker.requeues]
  | cons m messages ih =>
      cases i with
      | zero => rfl
      | succ i => rw [Broker.requeues, List.take_succ_cons, ih, List.take_succ_cons, Broker.requeues]

theorem requeues_role {messages : List Message} {c : Change}
    (member : c ∈ Broker.requeues ids n messages) : c.role = .ready := by
  induction messages generalizing n with
  | nil => exact absurd member List.not_mem_nil
  | cons m messages ih =>
      rcases List.mem_cons.mp member with rfl | later
      · rfl
      · exact ih later

theorem draws_requeues (name : String) (messages : List Message) :
    draws ((Broker.requeues ids n messages).map fun c => (name, c)) = messages.length := by
  induction messages generalizing n with
  | nil => rfl
  | cons m messages ih =>
      have one : draws ((name, .putReady (readyKey m.priority (ids n)) m) ::
          (Broker.requeues ids (n + 1) messages).map fun c => (name, c)) =
            1 + draws ((Broker.requeues ids (n + 1) messages).map fun c => (name, c)) := rfl
      rw [Broker.requeues, List.map_cons, one, ih, List.length_cons, Nat.add_comm]

theorem draws_append (changes changes' : List (String × Change)) :
    draws (changes ++ changes') = draws changes + draws changes' := by
  rw [draws, List.map_append, List.sum_append]
  rfl

theorem draws_take_le (changes : List (String × Change)) (i : Nat) :
    draws (changes.take i) ≤ draws changes := by
  have whole := draws_append (changes.take i) (changes.drop i)
  rw [List.take_append_drop] at whole
  omega

theorem length_queueRecovery :
    (queueRecovery ids n flight).length = 2 * flight.length := by
  rw [queueRecovery, List.length_append, length_requeues, List.length_map, List.length_map]
  omega

/-- Part of a queue's recovery: copies first, then removals. -/
theorem take_queueRecovery (i : Nat) :
    (queueRecovery ids n flight).take i =
      Broker.requeues ids n ((flight.map Prod.snd).take i) ++
        (flight.take (i - flight.length)).map fun e => .dropInflight e.1 := by
  rw [queueRecovery, List.take_append, take_requeues, length_requeues, List.length_map,
    List.map_take]

theorem copies_of_recovery (i : Nat) :
    (queueRecovery ids n flight).take (min i flight.length) =
      (Broker.requeues ids n (flight.map Prod.snd)).take i := by
  have none_removed : min i flight.length - flight.length = 0 := by omega
  have all : (flight.map Prod.snd).take flight.length = flight.map Prod.snd :=
    List.take_of_length_le (by rw [List.length_map])
  rw [take_queueRecovery, none_removed, take_requeues, List.take_zero, List.map_nil, List.append_nil,
    ← List.take_take, all]

theorem removals_of_recovery (i : Nat) :
    (queueRecovery ids n flight).take (flight.length + i) =
      Broker.requeues ids n (flight.map Prod.snd) ++
        (flight.take i).map fun e => .dropInflight e.1 := by
  rw [take_queueRecovery, Nat.add_sub_cancel_left, List.take_of_length_le]
  rw [List.length_map]
  omega

theorem draws_queueRecovery (ids : Nat → UInt64) (n : Nat) (flight : List (UInt64 × Message))
    (name : String) (i : Nat) :
    draws (((queueRecovery ids n flight).take i).map fun c => (name, c)) = min i flight.length := by
  have none_drawn (entries : List (UInt64 × Message)) :
      draws ((entries.map fun e => Change.dropInflight e.1).map fun c => (name, c)) = 0 := by
    induction entries with
    | nil => rfl
    | cons e entries ih => exact (Nat.zero_add _).trans ih
  rw [take_queueRecovery, List.map_append, draws_append, draws_requeues, none_drawn, List.length_take,
    List.length_map, Nat.add_zero]

end Lists

/-! ## What the program passes through -/

section Visits

variable {bc : Bincode} {ids : Nat → UInt64} {s t : Machine} {name : String}

theorem requeueAll_visits (flight : List (UInt64 × Message))
    (inside : t ∈ (requeueAll bc name (flight.map (encodedInflight bc))).visits (handle ids) s) :
    ∃ j, t.db.log = s.db.log ++
        ((Broker.requeues ids s.db.drawn (flight.map Prod.snd)).take j).map
          (fun c => [c.write bc name]) ∧
      s.db.drawn + min j flight.length ≤ t.db.drawn := by
  induction flight generalizing s with
  | nil =>
      rw [List.mem_singleton.mp inside]
      exact ⟨0, (List.append_nil _).symm, by simp⟩
  | cons e flight ih =>
      rw [List.map_cons, encodedInflight, requeueAll, deserialize_encode, Program.ret_bind,
        visits_generateId, visits_insert] at inside
      rcases List.mem_cons.mp inside with rfl | inside
      · exact ⟨0, (List.append_nil _).symm, by simp⟩
      rcases List.mem_cons.mp inside with rfl | inside
      · exact ⟨0, (List.append_nil _).symm, by simp⟩
      obtain ⟨j, log, drawn⟩ := ih inside
      refine ⟨j + 1, ?_, ?_⟩
      · rw [log, List.map_cons, Broker.requeues, List.take_succ_cons, List.map_cons]
        exact List.append_assoc ..
      · rw [Machine.db_commit, Sled.Db.drawn_commit, Machine.db_draw, Sled.Db.drawn_draw] at drawn
        rw [List.length_cons]
        omega

theorem requeueAll_run (bc : Bincode) (ids : Nat → UInt64) (name : String)
    (flight : List (UInt64 × Message)) (s : Machine) :
    ∃ s', (requeueAll bc name (flight.map (encodedInflight bc))).run (handle ids) s = (.ok (), s') ∧
      s'.db.log = s.db.log ++ (Broker.requeues ids s.db.drawn (flight.map Prod.snd)).map
        (fun c => [c.write bc name]) ∧
      s'.db.drawn = s.db.drawn + flight.length := by
  induction flight generalizing s with
  | nil => exact ⟨s, rfl, (List.append_nil _).symm, rfl⟩
  | cons e flight ih =>
      obtain ⟨s', run, log, drawn⟩ := ih (s.draw.commit
        [.insert name (encodeKey e.2.priority (ids s.db.drawn)) (bc.message.encode e.2)])
      refine ⟨s', ?_, ?_, ?_⟩
      · rw [List.map_cons, encodedInflight, requeueAll, deserialize_encode, Program.ret_bind,
          run_generateId, run_insert]
        exact run
      · rw [log, List.map_cons, Broker.requeues, List.map_cons]
        exact List.append_assoc ..
      · rw [drawn, List.length_cons, Machine.db_commit, Sled.Db.drawn_commit, Machine.db_draw,
          Sled.Db.drawn_draw]
        omega

theorem present_after_remove {tree : String} {key : Bytes} {keys : List Bytes}
    (fresh : key ∉ keys) (present : ∀ key' ∈ key :: keys, key' ∈ (s.db.trees tree).keys) :
    ∀ key' ∈ keys, key' ∈ ((s.commit [.remove tree key]).db.trees tree).keys := by
  intro key' member
  have tree_after : (s.commit [.remove tree key]).db.trees tree = (s.db.trees tree).erase key :=
    Sled.applyWrite_same s.db.trees (.remove tree key)
  rw [tree_after, OrdMap.mem_keys_erase]
  exact ⟨fun same => fresh (same ▸ member), present key' (List.mem_cons_of_mem _ member)⟩

/-- Keys that are there are removed by one write each. -/
theorem removeAll_visits (tree : String) {keys : List Bytes} (nodup : keys.Nodup)
    (present : ∀ key ∈ keys, key ∈ (s.db.trees tree).keys)
    (inside : t ∈ (removeAll tree keys).visits (handle ids) s) :
    ∃ j, t.db.log = s.db.log ++ (keys.take j).map (fun key => [.remove tree key]) ∧
      t.db.drawn = s.db.drawn := by
  induction keys generalizing s with
  | nil =>
      rw [List.mem_singleton.mp inside]
      exact ⟨0, (List.append_nil _).symm, rfl⟩
  | cons key keys ih =>
      obtain ⟨value, found⟩ := OrdMap.mem_keys.mp (present key List.mem_cons_self)
      obtain ⟨fresh, nodup⟩ := List.nodup_cons.mp nodup
      rw [removeAll, visits_remove ids s _ found] at inside
      rcases List.mem_cons.mp inside with rfl | inside
      · exact ⟨0, (List.append_nil _).symm, rfl⟩
      obtain ⟨j, log, drawn⟩ := ih nodup (present_after_remove fresh present) inside
      refine ⟨j + 1, ?_, drawn⟩
      rw [log, List.take_succ_cons, List.map_cons]
      exact List.append_assoc ..

theorem removeAll_run (ids : Nat → UInt64) (tree : String) {keys : List Bytes} (nodup : keys.Nodup)
    (present : ∀ key ∈ keys, key ∈ (s.db.trees tree).keys) :
    ∃ s', (removeAll tree keys).run (handle ids) s = (.ok (), s') ∧
      s'.db.log = s.db.log ++ keys.map (fun key => [.remove tree key]) ∧
      s'.db.drawn = s.db.drawn := by
  induction keys generalizing s with
  | nil => exact ⟨s, rfl, (List.append_nil _).symm, rfl⟩
  | cons key keys ih =>
      obtain ⟨value, found⟩ := OrdMap.mem_keys.mp (present key List.mem_cons_self)
      obtain ⟨fresh, nodup⟩ := List.nodup_cons.mp nodup
      obtain ⟨s', run, log, drawn⟩ := ih nodup (present_after_remove fresh present)
      refine ⟨s', ?_, ?_, drawn⟩
      · rw [removeAll, run_remove_present ids s _ found]
        exact run
      · rw [log, List.map_cons]
        exact List.append_assoc ..

variable {b : Broker} {st : QueueState}

/-- Copying messages back touches only the ready store. -/
theorem requeues_apply (ids : Nat → UInt64) (n : Nat) (st : QueueState) (messages : List Message) :
    ∃ arrivals, (Broker.requeues ids n messages).foldl QueueState.apply st =
      { st with ready := enqueue ids n st.ready messages, arrivals := arrivals } := by
  induction messages generalizing n st with
  | nil => exact ⟨st.arrivals, rfl⟩
  | cons m messages ih => exact ih (n + 1) (st.apply (.putReady (readyKey m.priority (ids n)) m))

/-- The writes that forget messages in flight. -/
theorem removals_writes (entries : List (UInt64 × Message)) :
    (entries.map (Prod.fst ∘ encodedInflight bc)).map
        (fun key => [Sled.Write.remove (inflightTreeName name) key]) =
      (entries.map fun e => Change.dropInflight e.1).map fun c => [c.write bc name] := by
  rw [List.map_map, List.map_map]
  rfl

/-- The recovery of one queue, from its first write to its last. -/
theorem recoverQueue_writes (ids : Nat → UInt64) (h : Refines bc s.manager b)
    (declared : b.queue name = some st) :
    (∀ t ∈ (recoverQueue bc name).visits (handle ids) s, ∃ j,
      t.db.log = s.db.log ++
        ((queueRecovery ids s.db.drawn st.inflight.entries).take j).map (fun c => [c.write bc name]) ∧
      s.db.drawn + min j st.inflight.entries.length ≤ t.db.drawn) ∧
    ∃ s', (recoverQueue bc name).run (handle ids) s = (.ok (), s') ∧
      Refines bc s'.manager (b.recoverQueue ids name) ∧
      s'.db.log = s.db.log ++
        (queueRecovery ids s.db.drawn st.inflight.entries).map (fun c => [c.write bc name]) ∧
      s'.db.drawn = s.db.drawn + st.inflight.entries.length := by
  have inflight : s.db.trees (inflightTreeName name) = st.tree bc .inflight :=
    h.tree declared .inflight
  have entries : (st.tree bc .inflight).entries =
      st.inflight.entries.map (encodedInflight bc) := rfl
  -- the copies
  obtain ⟨s₁, run₁, log₁, drawn₁⟩ := requeueAll_run bc ids name st.inflight.entries s
  have copied : s₁.db.trees (inflightTreeName name) = st.tree bc .inflight := by
    obtain ⟨s', after, run⟩ := run_requeueAll ids h declared st.inflight.entries .ret
    rw [Program.bind_ret, run₁, Program.run_ret] at run
    cases run
    obtain ⟨arrivals, applied⟩ := requeues_apply ids b.drawn st
      (st.inflight.entries.map Prod.snd)
    have declared' := Broker.change_queue declared
      (Broker.requeues ids b.drawn (st.inflight.entries.map Prod.snd))
    rw [applied] at declared'
    exact after.tree declared' .inflight
  -- the removals
  have nodup : (st.inflight.entries.map (Prod.fst ∘ encodedInflight bc)).Nodup := by
    have distinct := (st.tree bc .inflight).keys_nodup
    rwa [OrdMap.keys, entries, List.map_map] at distinct
  have present : ∀ key ∈ st.inflight.entries.map (Prod.fst ∘ encodedInflight bc),
      key ∈ (s₁.db.trees (inflightTreeName name)).keys := by
    intro key member
    rw [copied, OrdMap.keys, entries, List.map_map]
    exact member
  obtain ⟨s₂, run₂, log₂, drawn₂⟩ := removeAll_run ids (inflightTreeName name) nodup present
  have whole : (recoverQueue bc name).run (handle ids) s = (.ok (), s₂) := by
    simp only [recoverQueue, run_openTree, run_iter, inflight, entries, List.map_map]
    rw [Program.run_bind, run₁, Outcome.andThen_ok]
    exact run₂
  constructor
  · intro t inside
    rw [recoverQueue, visits_openTree, visits_openTree, visits_iter, inflight, entries,
      List.map_map] at inside
    have start : ∃ j, s.db.log = s.db.log ++
        ((queueRecovery ids s.db.drawn st.inflight.entries).take j).map
          (fun c => [c.write bc name]) ∧
        s.db.drawn + min j st.inflight.entries.length ≤ s.db.drawn :=
      ⟨0, (List.append_nil _).symm, by simp⟩
    rcases List.mem_cons.mp inside with rfl | inside
    · exact start
    rcases List.mem_cons.mp inside with rfl | inside
    · exact start
    rcases List.mem_cons.mp inside with rfl | inside
    · exact start
    rcases Program.mem_visits_bind _ inside with copying | ⟨-, -, removing⟩
    · obtain ⟨j, log, drawn⟩ := requeueAll_visits _ copying
      refine ⟨min j st.inflight.entries.length, ?_, by omega⟩
      rw [log, copies_of_recovery]
    · rw [run₁] at removing
      obtain ⟨j, log, drawn⟩ := removeAll_visits _ nodup present removing
      refine ⟨st.inflight.entries.length + j, ?_, by omega⟩
      rw [log, log₁, removals_of_recovery, List.map_append, List.append_assoc, ← List.map_take,
        removals_writes]
  · obtain ⟨s', after, run⟩ := run_recoverQueue ids h declared .ret
    rw [Program.bind_ret, whole, Program.run_ret] at run
    cases run
    refine ⟨s₂, whole, after, ?_, drawn₂.trans drawn₁⟩
    rw [log₂, log₁, removals_writes, queueRecovery, List.map_append, List.append_assoc]

theorem writes_append (changes changes' : List (String × Change)) :
    writes bc (changes ++ changes') = writes bc changes ++ writes bc changes' :=
  List.map_append

theorem writes_queue (changes : List Change) :
    writes bc (changes.map fun c => (name, c)) = changes.map fun c => [c.write bc name] :=
  List.map_map

theorem take_recovery_cons (flight : String → List (UInt64 × Message)) (n : Nat)
    (names : List String) (j : Nat) :
    (recovery ids flight n (name :: names)).take j =
      ((queueRecovery ids n (flight name)).take j).map (fun c => (name, c)) ++
        (recovery ids flight (n + (flight name).length) names).take
          (j - 2 * (flight name).length) := by
  rw [recovery, List.take_append, List.length_map, length_queueRecovery, List.map_take]

/-- A cut within the first queue. -/
theorem take_recovery_first (flight : String → List (UInt64 × Message)) (n : Nat)
    (names : List String) (j : Nat) :
    (recovery ids flight n (name :: names)).take (min j (2 * (flight name).length)) =
      ((queueRecovery ids n (flight name)).take j).map fun c => (name, c) := by
  have none_later : min j (2 * (flight name).length) - 2 * (flight name).length = 0 := by omega
  rw [take_recovery_cons, none_later, List.take_zero, List.append_nil, ← length_queueRecovery,
    ← List.take_take, List.take_length]

/-- A cut behind the first queue. -/
theorem take_recovery_later (flight : String → List (UInt64 × Message)) (n : Nat)
    (names : List String) (j : Nat) :
    (recovery ids flight n (name :: names)).take (2 * (flight name).length + j) =
      (queueRecovery ids n (flight name)).map (fun c => (name, c)) ++
        (recovery ids flight (n + (flight name).length) names).take j := by
  rw [take_recovery_cons, Nat.add_sub_cancel_left, List.take_of_length_le]
  rw [length_queueRecovery]
  exact Nat.le_add_right _ _

/-- The recovery of all queues, from the first write to the last. -/
theorem recoverEach_visits {flight : String → List (UInt64 × Message)} {names : List String}
    (h : Refines bc s.manager b) (nodup : names.Nodup)
    (declared : ∀ name ∈ names, ∃ st, b.queue name = some st ∧ st.inflight.entries = flight name)
    (inside : t ∈ (recoverEach bc names).visits (handle ids) s) :
    ∃ j, t.db.log = s.db.log ++ writes bc ((recovery ids flight s.db.drawn names).take j) ∧
      s.db.drawn + draws ((recovery ids flight s.db.drawn names).take j) ≤ t.db.drawn := by
  induction names generalizing s b with
  | nil =>
      rw [List.mem_singleton.mp inside]
      exact ⟨0, (List.append_nil _).symm, Nat.le_refl _⟩
  | cons name names ih =>
      obtain ⟨st, here, same⟩ := declared name List.mem_cons_self
      obtain ⟨fresh, nodup⟩ := List.nodup_cons.mp nodup
      obtain ⟨within, s', run, after, log, drawn⟩ := recoverQueue_writes ids h here
      rw [same] at within log drawn
      rcases Program.mem_visits_bind _ inside with first | ⟨-, -, later⟩
      · obtain ⟨j, log, drawn⟩ := within t first
        refine ⟨min j (2 * (flight name).length), ?_, ?_⟩
        · rw [log, take_recovery_first, writes_queue]
        · rw [take_recovery_first, draws_queueRecovery]
          exact drawn
      · rw [run] at later
        obtain ⟨j, log', drawn'⟩ := ih after nodup (fun other member => by
          obtain ⟨st', there, same'⟩ := declared other (List.mem_cons_of_mem _ member)
          have different : other ≠ name := fun eq => fresh (eq ▸ member)
          exact ⟨st', by rw [recoverQueue_queue_other ids b different, there], same'⟩) later
        have all_drawn := draws_queueRecovery ids s.db.drawn (flight name) name
          (2 * (flight name).length)
        rw [← length_queueRecovery, List.take_length, length_queueRecovery] at all_drawn
        refine ⟨2 * (flight name).length + j, ?_, ?_⟩
        · rw [log', log, drawn, take_recovery_later, writes_append, writes_queue, List.append_assoc]
        · rw [take_recovery_later, draws_append, all_drawn, ← drawn]
          omega

end Visits

/-! ## What a crash leaves -/

/-- The changes to one queue. -/
def changesOf (q : String) (changes : List (String × Change)) : List Change :=
  changes.filterMap fun x => if x.1 = q then some x.2 else none

/-- Changes to queues, one after the other. -/
def Broker.changeAll (b : Broker) (changes : List (String × Change)) : Broker :=
  changes.foldl (fun b x => b.change x.1 [x.2]) b

section Cut

variable {bc : Bincode} {ids : Nat → UInt64} {b : Broker} {st : QueueState} {q : String}

theorem changesOf_append (changes changes' : List (String × Change)) :
    changesOf q (changes ++ changes') = changesOf q changes ++ changesOf q changes' :=
  List.filterMap_append

theorem changesOf_here (changes : List Change) :
    changesOf q (changes.map fun c => (q, c)) = changes := by
  have all : ((fun x : String × Change => if x.1 = q then some x.2 else none) ∘
      fun c => (q, c)) = some := funext fun c => if_pos rfl
  rw [changesOf, List.filterMap_map, all, List.filterMap_some]

theorem changesOf_other {changes : List (String × Change)} (other : ∀ x ∈ changes, x.1 ≠ q) :
    changesOf q changes = [] :=
  List.filterMap_eq_nil_iff.mpr fun x member => if_neg (other x member)

theorem Broker.changeAll_queue (declared : b.queue q = some st) (changes : List (String × Change)) :
    (b.changeAll changes).queue q = some ((changesOf q changes).foldl QueueState.apply st) := by
  induction changes generalizing b st with
  | nil => exact declared
  | cons x changes ih =>
      by_cases here : x.1 = q
      · have changed : (b.change x.1 [x.2]).queue q = some (st.apply x.2) :=
          here ▸ Broker.change_queue (here ▸ declared) [x.2]
        have first : changesOf q (x :: changes) = x.2 :: changesOf q changes := by
          rw [← List.singleton_append, changesOf_append, ← here]
          exact congrArg (· ++ _) (changesOf_here [x.2])
        rw [first]
        exact ih changed
      · have kept : (b.change x.1 [x.2]).queue q = some st := by
          rw [Broker.change_queue_other b (Ne.symm here), declared]
        have first : changesOf q (x :: changes) = changesOf q changes := by
          have none_here : changesOf q [x] = [] := changesOf_other (by simpa using here)
          rw [← List.singleton_append, changesOf_append, none_here, List.nil_append]
        rw [first]
        exact ih kept

theorem Represents.changeAll {db db' : Sled.Db} (h : Represents bc db b)
    {changes : List (String × Change)} (declared : ∀ x ∈ changes, ∃ st, b.queue x.1 = some st)
    (log : db'.log = db.log ++ writes bc changes) : Represents bc db' (b.changeAll changes) := by
  induction changes generalizing db b with
  | nil => exact h.of_log (log.trans (List.append_nil _))
  | cons x changes ih =>
      obtain ⟨st, here⟩ := declared x List.mem_cons_self
      refine ih (h.commit here [x.2]) ?_ ?_
      · intro y member
        rw [← (h.commit here [x.2]).mem_names, Broker.change_names, h.mem_names]
        exact declared y (List.mem_cons_of_mem _ member)
      · rw [log, Sled.Db.log_commit, List.append_assoc]
        rfl

/-- Recovery only writes the ready and the in-flight trees of the queues listed. -/
theorem mem_recovery {flight : String → List (UInt64 × Message)} {n : Nat} {names : List String}
    {x : String × Change} (member : x ∈ recovery ids flight n names) :
    x.1 ∈ names ∧ (x.2.role = .ready ∨ x.2.role = .inflight) := by
  induction names generalizing n with
  | nil => exact absurd member List.not_mem_nil
  | cons name names ih =>
      rcases List.mem_append.mp member with first | later
      · obtain ⟨c, listed, rfl⟩ := List.mem_map.mp first
        refine ⟨List.mem_cons_self, ?_⟩
        rcases List.mem_append.mp listed with copy | removal
        · exact .inl (requeues_role copy)
        · obtain ⟨e, -, rfl⟩ := List.mem_map.mp removal
          exact .inr rfl
      · exact (ih later).imp_left (List.mem_cons_of_mem _)

/-- A cut of the recovery of all queues is a cut of the recovery of each. -/
theorem recovery_of (ids : Nat → UInt64) (flight : String → List (UInt64 × Message)) (n : Nat)
    {names : List String} (nodup : names.Nodup) (listed : q ∈ names) (j : Nat) :
    ∃ n' i, n ≤ n' ∧ changesOf q ((recovery ids flight n names).take j) =
        (queueRecovery ids n' (flight q)).take i ∧
      n' + min i (flight q).length ≤ n + draws ((recovery ids flight n names).take j) := by
  induction names generalizing n j with
  | nil => exact absurd listed List.not_mem_nil
  | cons name names ih =>
      obtain ⟨fresh, nodup⟩ := List.nodup_cons.mp nodup
      rw [take_recovery_cons, changesOf_append, draws_append, draws_queueRecovery]
      by_cases here : name = q
      · subst here
        have none_later : changesOf name ((recovery ids flight (n + (flight name).length) names).take
            (j - 2 * (flight name).length)) = [] :=
          changesOf_other fun x member same =>
            fresh (same ▸ (mem_recovery (List.mem_of_mem_take member)).1)
        refine ⟨n, j, Nat.le_refl n, ?_, by omega⟩
        rw [changesOf_here, none_later, List.append_nil]
      · have none_first : changesOf q (((queueRecovery ids n (flight name)).take j).map
            fun c => (name, c)) = [] := by
          refine changesOf_other fun x member => ?_
          obtain ⟨c, -, rfl⟩ := List.mem_map.mp member
          exact here
        rw [none_first, List.nil_append]
        have listed : q ∈ names := (List.mem_cons.mp listed).resolve_left (Ne.symm here)
        by_cases within : j ≤ 2 * (flight name).length
        · refine ⟨n, 0, Nat.le_refl n, ?_, by omega⟩
          rw [Nat.sub_eq_zero_of_le within, List.take_zero, List.take_zero]
          rfl
        · obtain ⟨n', i, later, same, drawn⟩ := ih (n + (flight name).length) nodup listed
            (j - 2 * (flight name).length)
          exact ⟨n', i, by omega, same, by omega⟩

theorem Broker.names_nodup (utf8 : ∀ key ∈ b.queues.keys, ∃ name : String, key = name.utf8) :
    b.names.Nodup := by
  have keys : b.names.map String.utf8 = b.queues.keys := by
    rw [names, List.map_filterMap]
    refine (List.filterMap_congr fun key member => ?_).trans (List.filterMap_some ..)
    obtain ⟨name, rfl⟩ := utf8 key member
    rw [String.ofUtf8_utf8]
    rfl
  exact List.Nodup.of_map _ (keys ▸ b.queues.keys_nodup)

/-- A queue in the middle of its recovery, after `i` writes. -/
def QueueState.cut (ids : Nat → UInt64) (n i : Nat) (st : QueueState) : QueueState :=
  ((queueRecovery ids n st.inflight.entries).take i).foldl QueueState.apply st

theorem QueueState.cut_stores (ids : Nat → UInt64) (n i : Nat) (st : QueueState) :
    ∃ arrivals, st.cut ids n i =
      { st with
        ready := enqueue ids n st.ready (st.inflight.values.take i)
        inflight := ((st.inflight.entries.take (i - st.inflight.entries.length)).map
          Prod.fst).foldl OrdMap.erase st.inflight
        arrivals := arrivals } := by
  have removals (entries : List (UInt64 × Message)) (st : QueueState) :
      (entries.map fun e => Change.dropInflight e.1).foldl QueueState.apply st =
        { st with inflight := (entries.map Prod.fst).foldl OrdMap.erase st.inflight } := by
    induction entries generalizing st with
    | nil => rfl
    | cons e entries ih => exact ih _
  obtain ⟨arrivals, copied⟩ := requeues_apply ids n st (st.inflight.values.take i)
  refine ⟨arrivals, ?_⟩
  rw [OrdMap.values] at copied ⊢
  rw [QueueState.cut, take_queueRecovery, List.foldl_append, copied, removals]

theorem perm_cut_iff {α : Type} (ready flight : List α) (i : Nat) :
    (ready ++ flight.take i ++ flight.drop (i - flight.length)).Perm (ready ++ flight) ↔
      i = 0 ∨ 2 * flight.length ≤ i := by
  constructor
  · intro same
    have lengths := same.length_eq
    simp only [List.length_append, List.length_take, List.length_drop] at lengths
    omega
  · rintro (rfl | all)
    · rw [List.take_zero, List.append_nil, Nat.zero_sub, List.drop_zero]
    · rw [List.take_of_length_le (by omega), List.drop_of_length_le (by omega), List.append_nil]

/-- The writes to the two trees of a queue that recovery uses. -/
def writesTo (q : String) (log : List Sled.Batch) : List Sled.Write :=
  log.flatten.filter fun w => decide (w.tree = q ∨ w.tree = inflightTreeName q)

theorem length_writesTo {names : List String} (apart : NonColliding names) (listed : q ∈ names)
    {changes : List (String × Change)}
    (recovers : ∀ x ∈ changes, x.1 ∈ names ∧ (x.2.role = .ready ∨ x.2.role = .inflight)) :
    (writesTo q (writes bc changes)).length = (changesOf q changes).length := by
  induction changes with
  | nil => rfl
  | cons x changes ih =>
      obtain ⟨member, role⟩ := recovers x List.mem_cons_self
      have rest := ih fun y later => recovers y (List.mem_cons_of_mem _ later)
      have split : writesTo q (writes bc (x :: changes)) =
          writesTo q (writes bc [x]) ++ writesTo q (writes bc changes) := by
        rw [← List.singleton_append, writes_append, writesTo, List.flatten_append, List.filter_append]
        rfl
      have one : (writesTo q (writes bc [x])).length = (changesOf q [x]).length := by
        have tree := x.2.write_tree bc x.1
        by_cases here : x.1 = q
        · have counted : (x.2.write bc x.1).tree = q ∨ (x.2.write bc x.1).tree = inflightTreeName q := by
            rcases role with ready | inflight
            · exact .inl (by rw [tree, ready, here]; rfl)
            · exact .inr (by rw [tree, inflight, here]; rfl)
          have change : changesOf q [x] = [x.2] := here ▸ changesOf_here [x.2]
          rw [change, writes, writesTo, List.map_singleton, List.flatten_singleton,
            List.filter_cons_of_pos (by simpa using counted)]
          rfl
        · have elsewhere : ¬ ((x.2.write bc x.1).tree = q ∨
              (x.2.write bc x.1).tree = inflightTreeName q) := by
            rw [tree]
            rintro (ready | inflight)
            · exact here (apart.distinct _ member q listed _ .ready ready)
            · exact here (apart.distinct _ member q listed _ .inflight inflight)
          have change : changesOf q [x] = [] := changesOf_other fun y single => by
            rw [List.mem_singleton.mp single]
            exact here
          rw [change, writes, writesTo, List.map_singleton, List.flatten_singleton,
            List.filter_cons_of_neg (by simpa using elsewhere)]
          rfl
      rw [split, List.length_append, one, rest, ← List.length_append, ← changesOf_append]
      rfl

end Cut

/-! ## Recovering again -/

/-- Each message of a queue that was ready or in flight is ready, once. -/
def RecoveredOnce (qm qm' : QueueManager) (q : String) : Prop :=
  (qm'.db.trees q).values.Perm ((qm.db.trees q).values ++ (qm.db.trees (inflightTreeName q)).values)

/-- Of what recovery writes for a queue, none or all is kept. -/
def Uncut (qm : QueueManager) (crashed : Sled.Db) (q : String) : Prop :=
  (writesTo q (crashed.log.drop qm.db.log.length)).length = 0 ∨
    (writesTo q (crashed.log.drop qm.db.log.length)).length =
      2 * (qm.db.trees (inflightTreeName q)).entries.length

/-- What a queue has in flight. -/
def Broker.inflightOf (b : Broker) (name : String) : List (UInt64 × Message) :=
  ((b.queue name).map fun st => st.inflight.entries).getD []

section Again

variable {bc : Bincode} {ids : Nat → UInt64} {qm : QueueManager} {b : Broker} {q : String}
  {st : QueueState}

/-- The log after a crash in the middle of a recovery. -/
theorem Refines.interrupted (h : Refines bc qm b) {bytes : UInt64} {limit : Option UInt64}
    {clock : Nat → Int64} {t : Machine}
    (inside : t ∈ (recoverInflight bc).visits (handle ids) ⟨⟨qm.db, bytes, limit⟩, clock⟩)
    {n : Nat} (kept : qm.db.log.length ≤ n) :
    ∃ j, (t.db.keep n).log =
        qm.db.log ++ writes bc ((recovery ids b.inflightOf qm.db.drawn b.names).take j) ∧
      qm.db.drawn + draws ((recovery ids b.inflightOf qm.db.drawn b.names).take j) ≤ t.db.drawn := by
  have start : Refines bc (Machine.mk ⟨qm.db, bytes, limit⟩ clock).manager
      { b with bytes := bytes, maxBytes := limit } := ⟨h.held.congr rfl, h.drawn, rfl, rfl⟩
  have cut : ∃ j, t.db.log =
        qm.db.log ++ writes bc ((recovery ids b.inflightOf qm.db.drawn b.names).take j) ∧
      qm.db.drawn + draws ((recovery ids b.inflightOf qm.db.drawn b.names).take j) ≤ t.db.drawn := by
    rcases Program.mem_visits_bind _ inside with listing | ⟨names, listed, recovering⟩
    · have unchanged : t = ⟨⟨qm.db, bytes, limit⟩, clock⟩ := by
        rcases List.mem_cons.mp listing with first | last
        · exact first
        · exact List.mem_singleton.mp last
      rw [unchanged]
      exact ⟨0, (List.append_nil _).symm, Nat.le_refl _⟩
    · have ran := run_listQueues ids start (fun names => .ret names)
      rw [Program.bind_ret] at ran
      rw [ran] at listed recovering
      cases listed
      refine recoverEach_visits start (b.names_nodup h.held.utf8) (fun name member => ?_) recovering
      obtain ⟨st, declared⟩ := h.held.mem_names.mp member
      exact ⟨st, declared, by rw [Broker.inflightOf, declared]; rfl⟩
  obtain ⟨j, log, drawn⟩ := cut
  refine ⟨min j (n - qm.db.log.length), ?_, ?_⟩
  · change t.db.log.take n = _
    rw [log, List.take_append, List.take_of_length_le kept, writes, writes, ← List.map_take,
      List.take_take, Nat.min_comm]
  · have fewer := draws_take_le ((recovery ids b.inflightOf qm.db.drawn b.names).take j)
      (n - qm.db.log.length)
    rw [List.take_take, Nat.min_comm] at fewer
    omega

/-- A queue after the crash, and the number of its writes that were kept. -/
theorem Refines.cut (h : Refines bc qm b) (declared : b.queue q = some st) {crashed : Sled.Db}
    {j : Nat}
    (log : crashed.log = qm.db.log ++ writes bc ((recovery ids b.inflightOf qm.db.drawn b.names).take j))
    (drawn : qm.db.drawn + draws ((recovery ids b.inflightOf qm.db.drawn b.names).take j) ≤
      crashed.drawn) :
    ∃ n i, qm.db.drawn ≤ n ∧ n + min i st.inflight.entries.length ≤ crashed.drawn ∧
      (b.changeAll ((recovery ids b.inflightOf qm.db.drawn b.names).take j)).queue q =
        some (st.cut ids n i) ∧
      (writesTo q (crashed.log.drop qm.db.log.length)).length =
        min i (2 * st.inflight.entries.length) := by
  have flight : b.inflightOf q = st.inflight.entries := by
    rw [Broker.inflightOf, declared]
    rfl
  have listed := h.held.mem_names.mpr ⟨st, declared⟩
  obtain ⟨n, i, later, changes, below⟩ :=
    recovery_of ids b.inflightOf qm.db.drawn (b.names_nodup h.held.utf8) listed j
  rw [flight] at changes below
  refine ⟨n, i, later, below.trans drawn, ?_, ?_⟩
  · rw [Broker.changeAll_queue declared, changes]
    rfl
  · rw [log, List.drop_left, length_writesTo h.held.apart listed, changes, List.length_take,
      length_queueRecovery]
    exact fun x member => mem_recovery (List.mem_of_mem_take member)

/-- A queue that is cut in its recovery and recovered again. -/
theorem QueueState.cut_recovered {n n' i : Nat} (ranked : Ranked ids n st.ready)
    (increasing : StrictMonoOn ids (Set.Iio (n + (st.inflight.values.take i).length)))
    (ranked' : Ranked ids n' (st.cut ids n i).ready)
    (increasing' : StrictMonoOn ids (Set.Iio (n' + (st.cut ids n i).inflight.values.length))) :
    ((st.cut ids n i).recovered ids n').ready.values.Perm
      (st.ready.values ++ st.inflight.values.take i ++
        st.inflight.values.drop (i - st.inflight.values.length)) := by
  obtain ⟨arrivals, stores⟩ := st.cut_stores ids n i
  obtain ⟨arrivals', stores'⟩ := (st.cut ids n i).recovered_stores ids n'
  have left : (st.cut ids n i).inflight.values =
      st.inflight.values.drop (i - st.inflight.values.length) := by
    rw [stores, OrdMap.values, OrdMap.foldl_erase_take, List.map_drop, OrdMap.values, List.length_map]
  have first : (st.cut ids n i).ready.values.Perm (st.ready.values ++ st.inflight.values.take i) := by
    rw [stores]
    exact enqueue_perm ranked increasing
  rw [stores']
  refine (enqueue_perm ranked' increasing').trans ?_
  rw [left]
  exact first.append_right _

theorem once_iff_uncut {qm' : QueueManager} {crashed : Sled.Db} {st' : QueueState} {i : Nat}
    (ready : qm.db.trees q = st.tree bc .ready)
    (inflight : qm.db.trees (inflightTreeName q) = st.tree bc .inflight)
    (after : qm'.db.trees q = st'.tree bc .ready)
    (moved : st'.ready.values.Perm (st.ready.values ++ st.inflight.values.take i ++
      st.inflight.values.drop (i - st.inflight.values.length)))
    (count : (writesTo q (crashed.log.drop qm.db.log.length)).length =
      min i (2 * st.inflight.entries.length)) :
    RecoveredOnce qm qm' q ↔ Uncut qm crashed q := by
  let F := st.inflight.values.map bc.message.encode
  let R := st.ready.values.map bc.message.encode
  have size : F.length = st.inflight.entries.length := by
    rw [List.length_map, OrdMap.values, List.length_map]
  have entries : (st.tree bc .inflight).entries.length = st.inflight.entries.length := List.length_map _
  have encoded : (qm'.db.trees q).values.Perm (R ++ F.take i ++ F.drop (i - F.length)) := by
    rw [after, QueueState.tree, OrdMap.image_values]
    refine (moved.map bc.message.encode).trans ?_
    rw [List.map_append, List.map_append, List.map_take, List.map_drop, List.length_map]
  have once : RecoveredOnce qm qm' q ↔ (R ++ F.take i ++ F.drop (i - F.length)).Perm (R ++ F) := by
    rw [RecoveredOnce, ready, inflight, QueueState.tree, QueueState.tree, OrdMap.image_values,
      OrdMap.image_values]
    exact ⟨encoded.symm.trans, encoded.trans⟩
  rw [once, perm_cut_iff, Uncut, count, inflight, entries, size]
  omega

end Again

/-- When a crash interrupts the recovery of any reachable store, opening the store again
    recovers a queue exactly when none or all of the writes for that queue were kept. -/
theorem interrupted_recovery_iff (bc : Bincode) (ids : Nat → UInt64) (maxBytes : Option UInt64)
    (steps : List Step) (apart : NonColliding (declaredNames steps)) {qm : QueueManager}
    (reached : qm = final bc ids (started bc ids maxBytes) steps)
    (bytes : UInt64) (limit : Option UInt64) (clock : Nat → Int64) {t : Machine}
    (inside : t ∈ (recoverInflight bc).visits (handle ids) ⟨⟨qm.db, bytes, limit⟩, clock⟩)
    {n : Nat} (kept : qm.db.log.length ≤ n) (limit' : Option UInt64) (clock' : Nat → Int64)
    (increasing : Increasing ids (QueueManager.open bc ids clock' limit' (t.db.keep n)).2) :
    (QueueManager.open bc ids clock' limit' (t.db.keep n)).1 = .ok () ∧
      ∀ q : String, q.utf8 ∈ (qm.db.trees metaQueuesTree).keys →
        (RecoveredOnce qm (QueueManager.open bc ids clock' limit' (t.db.keep n)).2 q ↔
          Uncut qm (t.db.keep n) q) := by
  have first := drawn_le_visits ids _ inside
  have second := drawn_le_run ids ⟨⟨t.db.keep n, 0, limit'⟩, clock'⟩ (openBody bc)
  obtain ⟨b, h, sound, -⟩ := run_steps bc ids maxBytes (fun _ _ => True) trivial
    (fun _ _ _ _ _ => trivial) steps apart
    (reached ▸ increasing.mono (Set.Iio_subset_Iio (first.trans second)))
  rw [← reached] at h
  obtain ⟨j, log, drawn⟩ := h.interrupted inside kept
  -- the broker the crash leaves
  let left : Broker := { b.changeAll ((recovery ids b.inflightOf qm.db.drawn b.names).take j) with
    drawn := t.db.drawn }
  have held : Represents bc (t.db.keep n) left := by
    refine Represents.congr (h.held.changeAll (fun x member => ?_) log) rfl
    exact h.held.mem_names.mp (mem_recovery (List.mem_of_mem_take member)).1
  obtain ⟨finished, opened⟩ := open_refines ids held rfl clock' limit'
  refine ⟨finished, fun q registered => ?_⟩
  obtain ⟨st, declared⟩ := h.registered.mp registered
  obtain ⟨m, i, before, below, state, count⟩ := h.cut declared log drawn
  have ranked : Ranked ids m st.ready :=
    Ranked.mono (sound.queues q st declared).ready (h.drawn ▸ before)
  have copies : m + (st.inflight.values.take i).length ≤ t.db.drawn := by
    rwa [List.length_take, OrdMap.values, List.length_map]
  have ranked_cut : Ranked ids left.drawn (st.cut ids m i).ready := by
    obtain ⟨arrivals, stores⟩ := st.cut_stores ids m i
    rw [stores]
    exact (enqueue_ranked ranked _).mono copies
  have upTo : StrictMonoOn ids (Set.Iio (left.reopen bc ids limit').drawn) := opened.drawn ▸ increasing
  obtain ⟨m', ranked', increasing', recovered⟩ :=
    Broker.reopen_recovered bc held.utf8 limit' upTo state ranked_cut
  have moved := QueueState.cut_recovered ranked
    (increasing.mono (Set.Iio_subset_Iio (copies.trans second))) ranked' increasing'
  exact once_iff_uncut (h.held.stores q st declared .ready) (h.held.stores q st declared .inflight)
    (opened.held.stores q _ recovered .ready) moved count

/-- A crash when this many of the writes that recover `heldManager` are on disk. -/
def heldCrash (written : Nat) : Sled.Db :=
  ((recoverInflight bincode).run (handle (counter 0)) ⟨heldManager, fun _ => 0⟩).2.db.keep
    (heldManager.db.log.length + written)

/-- The store opened again after that crash. -/
def heldAgain (written : Nat) : QueueManager :=
  (QueueManager.open bincode (counter 0) (fun _ => 0) none (heldCrash written)).2

/-- A crash between two queues: the first is recovered, the second is recovered now. -/
theorem heldCrash_between :
    Uncut heldManager (heldCrash 2) "a" ∧ RecoveredOnce heldManager (heldAgain 2) "a" := by
  have uncut : Uncut heldManager (heldCrash 2) "a" := .inr (by decide +kernel)
  refine ⟨uncut, (Iff.mpr ?_ uncut)⟩
  refine (interrupted_recovery_iff bincode (counter 0) none heldRun (by decide) rfl
    heldManager.currentBytes heldManager.maxBytes (fun _ => 0) (Program.run_mem_visits _ _ _)
    (Nat.le_add_right _ 2) none (fun _ => 0) (counter_increasing ?_)).2 "a" ?_
  · decide +kernel
  · decide +kernel

/-- A crash after the first write: the message is copied, and copied once more. -/
theorem heldCrash_within :
    (heldManager.db.trees "a").values.length = 1 ∧
      (heldManager.db.trees (inflightTreeName "a")).values.length = 1 ∧
      ((heldAgain 1).db.trees "a").values.length = 3 ∧
      ¬ RecoveredOnce heldManager (heldAgain 1) "a" := by
  have ready : (heldManager.db.trees "a").values.length = 1 := by decide +kernel
  have inflight : (heldManager.db.trees (inflightTreeName "a")).values.length = 1 := by
    decide +kernel
  have copies : ((heldAgain 1).db.trees "a").values.length = 3 := by decide +kernel
  refine ⟨ready, inflight, copies, fun once => ?_⟩
  have lengths := once.length_eq
  rw [List.length_append, ready, inflight, copies] at lengths
  exact absurd lengths (by decide)

end PelicanQ
