import PelicanQ.Broker.Twins
import PelicanQ.Guarantees.Declined
import PelicanQ.Guarantees.Retention
import PelicanQ.Lib.Since

/-! # The deduplication window

A queue keeps one time for each dedup key: that of the last publish of the key
that was stored.  Publishes that are rejected, deliveries and restarts leave it as
it is.  As the clock never goes back it is the latest of them all, so it decides
whether any stored publish lies within the window.
-/

namespace PelicanQ

/-- A publish of the key that was stored, with the time that it left on record. -/
def StoredAt (e : Event) (queue key : String) (time : Int64) : Prop :=
  ∃ m id, e.step.op = .publish queue m ∧ m.dedupKey = some key ∧
    e.response = .published (.ok (.stored id)) ∧ recordedIn e.after.db queue key = some time

/-- The clock does not go back, neither within a step nor from one to a later one, and starts at
    the epoch.  No method takes more than three readings. -/
structure Forward (steps : List Step) : Prop where
  within : ∀ step ∈ steps, ∀ i j, i ≤ j → step.clock i ≤ step.clock j
  across : steps.Pairwise fun step later => step.clock 2 ≤ later.clock 0
  epoch : ∀ step ∈ steps, 0 ≤ step.clock 0

theorem Forward.before {steps steps' : List Step} (forward : Forward (steps ++ steps')) :
    Forward steps where
  within step member := forward.within step (List.mem_append_left _ member)
  across := (List.pairwise_append.mp forward.across).1
  epoch step member := forward.epoch step (List.mem_append_left _ member)

section Queues

variable {ids : Nat → UInt64} {clock : Nat → Int64} {st : QueueState} {m : Message}

/-- The check takes at most one reading. -/
theorem QueueState.isDuplicate_later (st : QueueState) (m : Message) (clock : Nat → Int64) :
    (st.isDuplicate m clock).2 = clock ∨ (st.isDuplicate m clock).2 = later clock := by
  unfold QueueState.isDuplicate isRepeated
  split
  · split_ifs
    · split
      · exact .inr rfl
      · exact .inl rfl
    · exact .inl rfl
  · exact .inl rfl

theorem notYetDue_later (m : Message) (clock : Nat → Int64) :
    (notYetDue m clock).2 = clock ∨ (notYetDue m clock).2 = later clock := by
  unfold notYetDue
  cases m.deliverAt with
  | none => exact .inl rfl
  | some deliverAt => exact .inr rfl

/-- The time put on record is one of the publish's three readings. -/
theorem QueueState.record_reading (st : QueueState) (m : Message) (clock : Nat → Int64) :
    ∃ i ≤ 2, (notYetDue m (st.isDuplicate m clock).2).2 0 = clock i := by
  rcases st.isDuplicate_later m clock with first | first <;>
    rcases notYetDue_later m (st.isDuplicate m clock).2 with second | second <;>
    rw [second, first]
  · exact ⟨0, by decide, rfl⟩
  · exact ⟨1, by decide, rfl⟩
  · exact ⟨1, by decide, rfl⟩
  · exact ⟨2, by decide, rfl⟩

/-- What an operation does to the records of a queue: nothing, or a publish that is stored puts
    one of its readings on record for its key. -/
theorem QueueState.records_cases (clock : Nat → Int64) (st : QueueState) (op : Operation) :
    st.records clock op = st.dedup ∨ ∃ queue m key i, op = .publish queue m ∧
      m.dedupKey = some key ∧ st.policy.dedupWindowSecs ≠ none ∧
        (st.script clock op).1 = .published (.ok (.stored m.id)) ∧ i ≤ 2 ∧
          st.records clock op = st.dedup.insert key.utf8 (clock i) := by
  cases op with
  | publish queue m =>
      simp only [records, script]
      split_ifs
      · exact .inl rfl
      · cases window : st.policy.dedupWindowSecs with
        | none => exact .inl rfl
        | some windowSecs =>
            cases keyed : m.dedupKey with
            | none => exact .inl rfl
            | some key =>
                obtain ⟨i, few, reading⟩ := st.record_reading m clock
                exact .inr ⟨queue, m, key, i, rfl, keyed, Option.some_ne_none _, rfl, few,
                  by rw [reading]⟩
  | declareQueueWithRetention | consume | ack | nack | promoteScheduled | applyRetention |
    reopen => exact .inl rfl

/-- A stored publish of a key leaves one of its readings on record, where records are kept. -/
theorem QueueState.records_stored {queue key : String} {id : Uuid}
    (keyed : m.dedupKey = some key) (window : st.policy.dedupWindowSecs ≠ none)
    (stored : (st.script clock (.publish queue m)).1 = .published (.ok (.stored id))) :
    ∃ i ≤ 2, st.records clock (.publish queue m) = st.dedup.insert key.utf8 (clock i) := by
  obtain ⟨i, few, reading⟩ := st.record_reading m clock
  refine ⟨i, few, ?_⟩
  obtain ⟨windowSecs, window⟩ := Option.ne_none_iff_exists'.mp window
  by_cases duplicate : (st.isDuplicate m clock).1
  · simp only [script, if_pos duplicate] at stored
    cases stored
  · simp only [records, if_neg duplicate, window, keyed, reading]

end Queues

/-! ## Runs -/

section Runs

variable {bc : Bincode} {ids : Nat → UInt64} {clock : Nat → Int64} {b : Broker}
  {qm : QueueManager} {past : List Event}

/-- The key was stored at the time, and has not been stored again since. -/
def LastStored (queue key : String) (time : Int64) : List Event → Prop :=
  Since (StoredAt · queue key time) fun e => ∀ time', ¬ StoredAt e queue key time'

/-- The records of the queues are those of the last publishes of the past that were stored. -/
structure Recorded (past : List Event) (b : Broker) : Prop where
  last : ∀ queue st key time, b.queue queue = some st →
    (st.dedup.get key.utf8 = some time ↔ LastStored queue key time past)
  declared : ∀ e ∈ past, ∀ queue key time, StoredAt e queue key time → ∃ st, b.queue queue = some st
  readings : ∀ e ∈ past, ∀ queue key time, StoredAt e queue key time →
    ∃ i ≤ 2, time = e.step.clock i
  windows : ∀ queue st, b.queue queue = some st → st.policy.dedupWindowSecs = none →
    st.dedup = .empty

theorem Recorded.empty (maxBytes : Option UInt64) : Recorded [] (emptyBroker maxBytes) where
  last _ _ _ _ here := nomatch here
  declared _ member := absurd member List.not_mem_nil
  readings _ member := absurd member List.not_mem_nil
  windows _ _ here := nomatch here

theorem Broker.Aftermath.dedup {op : Operation} {name : String} {st st' : QueueState}
    (aftermath : Broker.Aftermath bc ids clock b op name st st') :
    st'.policy = st.policy ∧ (st'.dedup = st.dedup ∨ ∃ m key i, op = .publish name m ∧
      m.dedupKey = some key ∧ st.policy.dedupWindowSecs ≠ none ∧
        (b.perform bc ids clock op).1 = .published (.ok (.stored m.id)) ∧ i ≤ 2 ∧
          st'.dedup = st.dedup.insert key.utf8 (clock i)) := by
  cases aftermath with
  | elsewhere | refused => exact ⟨rfl, .inl rfl⟩
  | scripted n after here =>
      subst after
      refine ⟨QueueState.policy_moves .., ?_⟩
      rw [QueueState.dedup_script]
      refine (st.records_cases clock op).imp_right ?_
      rintro ⟨queue, m, key, i, rfl, keyed, window, stored, few, records⟩
      obtain ⟨rfl, answer⟩ := here queue rfl
      exact ⟨m, key, i, rfl, keyed, window, answer.trans stored, few, records⟩

/-- Where records are kept, a stored publish of a key leaves one. -/
theorem Broker.Aftermath.stored {name key : String} {st st' : QueueState} {m : Message} {id : Uuid}
    (aftermath : Broker.Aftermath bc ids clock b (.publish name m) name st st')
    (keyed : m.dedupKey = some key) (window : st.policy.dedupWindowSecs ≠ none)
    (answer : (b.perform bc ids clock (.publish name m)).1 = .published (.ok (.stored id))) :
    ∃ i ≤ 2, st'.dedup = st.dedup.insert key.utf8 (clock i) := by
  cases aftermath with
  | elsewhere on other =>
      cases on
      exact absurd rfl other
  | refused publish refusal =>
      rw [answer] at refusal
      cases refusal
  | scripted n after here =>
      subst after
      rw [QueueState.dedup_script]
      exact QueueState.records_stored keyed window ((here name rfl).2.symm.trans answer)

/-- A publish that is stored finds its queue. -/
theorem Broker.publish_declared {name : String} {m : Message} {id : Uuid}
    (answer : (b.perform bc ids clock (.publish name m)).1 = .published (.ok (.stored id))) :
    ∃ st, b.queue name = some st := by
  cases declared : b.queue name with
  | some st => exact ⟨st, rfl⟩
  | none =>
      simp only [Broker.perform, Broker.publish, declared] at answer
      cases answer

section Step

variable {step : Step} {queue key : String} {st st' : QueueState} {time : Int64}

/-- A publish that is stored leaves a reading of its own. -/
theorem Recorded.stored (recorded : Recorded past b) (before : Refines bc qm b)
    (response : (step.op.perform bc ids step.clock qm).1 = (b.perform bc ids step.clock step.op).1)
    (after : Refines bc (step.op.perform bc ids step.clock qm).2
      (b.perform bc ids step.clock step.op).2)
    (stored : StoredAt (performed bc ids qm step) queue key time) :
    (∃ st, b.queue queue = some st) ∧
      ∃ st', (b.perform bc ids step.clock step.op).2.queue queue = some st' ∧
        st'.dedup.get key.utf8 = some time ∧ ∃ i ≤ 2, time = step.clock i := by
  obtain ⟨m, id, publish, keyed, answer, found⟩ := stored
  change step.op = _ at publish
  change (step.op.perform bc ids step.clock qm).1 = _ at answer
  rw [response, publish] at answer
  obtain ⟨st, declared⟩ := Broker.publish_declared answer
  obtain ⟨st', there, aftermath⟩ := Broker.perform_aftermath bc ids step.clock before.held.utf8
    declared step.op
  have time_eq : st'.dedup.get key.utf8 = some time :=
    (congrFun (after.recorded there) key).symm.trans found
  refine ⟨⟨st, declared⟩, st', there, time_eq, ?_⟩
  by_cases window : st.policy.dedupWindowSecs = none
  · rcases aftermath.dedup.2 with same | ⟨_, _, _, -, -, kept, -⟩
    · rw [same, recorded.windows queue st declared window] at time_eq
      cases time_eq
    · exact absurd window kept
  · rw [publish] at aftermath
    obtain ⟨i, few, records⟩ := aftermath.stored keyed window answer
    rw [records, OrdMap.get_insert, if_pos rfl] at time_eq
    exact ⟨i, few, (Option.some.inj time_eq).symm⟩

/-- Whatever does not store a key leaves its record. -/
theorem Broker.Aftermath.unrecorded
    (response : (step.op.perform bc ids step.clock qm).1 = (b.perform bc ids step.clock step.op).1)
    (after : Refines bc (step.op.perform bc ids step.clock qm).2
      (b.perform bc ids step.clock step.op).2)
    (here : (b.perform bc ids step.clock step.op).2.queue queue = some st')
    (aftermath : Broker.Aftermath bc ids step.clock b step.op queue st st')
    (unstored : ∀ time, ¬ StoredAt (performed bc ids qm step) queue key time) :
    st'.dedup.get key.utf8 = st.dedup.get key.utf8 := by
  rcases aftermath.dedup.2 with same | ⟨m, key', i, publish, keyed, -, stored, -, records⟩
  · rw [same]
  · rw [records, OrdMap.get_insert, if_neg]
    intro same
    obtain rfl := String.utf8_injective same
    refine unstored (step.clock i) ⟨m, m.id, publish, keyed, response.trans stored, ?_⟩
    exact (congrFun (after.recorded here) key).trans (by rw [records, OrdMap.get_insert, if_pos rfl])

/-- What the step does to a queue that is there afterwards. -/
theorem Broker.perform_before (utf8 : ∀ key ∈ b.queues.keys, ∃ name : String, key = name.utf8)
    (here : (b.perform bc ids step.clock step.op).2.queue queue = some st') :
    (b.queue queue = none ∧ ∃ policy, st' = .fresh policy) ∨ ∃ st, b.queue queue = some st ∧
      Broker.Aftermath bc ids step.clock b step.op queue st st' := by
  cases declared : b.queue queue with
  | none =>
      rcases Broker.perform_appears bc ids step.clock declared step.op with
        gone | ⟨policy, -, fresh⟩
      · rw [gone] at here
        cases here
      · exact .inl ⟨rfl, policy, Option.some.inj (here.symm.trans fresh)⟩
  | some st =>
      obtain ⟨_, there, aftermath⟩ := Broker.perform_aftermath bc ids step.clock utf8 declared step.op
      cases here.symm.trans there
      exact .inr ⟨st, rfl, aftermath⟩

/-- The record of a queue after a step is that of the last publish that was stored. -/
theorem Recorded.last_next (recorded : Recorded past b) (before : Refines bc qm b)
    (response : (step.op.perform bc ids step.clock qm).1 = (b.perform bc ids step.clock step.op).1)
    (after : Refines bc (step.op.perform bc ids step.clock qm).2
      (b.perform bc ids step.clock step.op).2)
    (here : (b.perform bc ids step.clock step.op).2.queue queue = some st') (time : Int64) :
    st'.dedup.get key.utf8 = some time ↔
      LastStored queue key time (past ++ [performed bc ids qm step]) := by
  rw [LastStored, since_snoc]
  by_cases again : ∃ time', StoredAt (performed bc ids qm step) queue key time'
  · obtain ⟨time', stored⟩ := again
    obtain ⟨-, _, there, found, -⟩ := recorded.stored before response after stored
    cases here.symm.trans there
    rw [found, Option.some.injEq]
    constructor
    · rintro rfl
      exact .inl stored
    · rintro (now | ⟨-, never⟩)
      · obtain ⟨_, _, -, -, -, first⟩ := stored
        obtain ⟨_, _, -, -, -, second⟩ := now
        exact Option.some.inj (first.symm.trans second)
      · exact (never time' stored).elim
  · have unstored (time') : ¬ StoredAt (performed bc ids qm step) queue key time' :=
      fun stored => again ⟨time', stored⟩
    have still : st'.dedup.get key.utf8 = some time ↔ LastStored queue key time past := by
      rcases Broker.perform_before before.held.utf8 here with
        ⟨undeclared, policy, rfl⟩ | ⟨st, declared, aftermath⟩
      · refine iff_of_false (by rintro ⟨⟩) ?_
        rintro ⟨earlier, e, later, rfl, stored, -⟩
        obtain ⟨st, declared⟩ := recorded.declared e (by simp) queue key time stored
        cases undeclared.symm.trans declared
      · rw [aftermath.unrecorded response after here unstored]
        exact recorded.last queue st key time declared
    rw [still]
    exact ⟨fun since => .inr ⟨since, unstored⟩,
      fun either => either.elim (fun now => (unstored time now).elim) And.left⟩

/-- One step keeps the account of the records. -/
theorem Recorded.next (recorded : Recorded past b) (before : Refines bc qm b)
    (response : (step.op.perform bc ids step.clock qm).1 = (b.perform bc ids step.clock step.op).1)
    (after : Refines bc (step.op.perform bc ids step.clock qm).2
      (b.perform bc ids step.clock step.op).2) :
    Recorded (past ++ [performed bc ids qm step]) (b.perform bc ids step.clock step.op).2 := by
  have utf8 := before.held.utf8
  constructor
  case last =>
    exact fun queue st' key time here => recorded.last_next before response after here time
  case declared =>
    intro e member queue key time stored
    have declared : ∃ st, b.queue queue = some st := by
      rcases List.mem_append.mp member with old | one
      · exact recorded.declared e old queue key time stored
      · cases List.mem_singleton.mp one
        exact (recorded.stored before response after stored).1
    obtain ⟨st, declared⟩ := declared
    obtain ⟨st', there, -⟩ := Broker.perform_aftermath bc ids step.clock utf8 declared step.op
    exact ⟨st', there⟩
  case readings =>
    intro e member queue key time stored
    rcases List.mem_append.mp member with old | one
    · exact recorded.readings e old queue key time stored
    · cases List.mem_singleton.mp one
      obtain ⟨-, _, -, -, reading⟩ := recorded.stored before response after stored
      exact reading
  case windows =>
    intro queue st' here window
    rcases Broker.perform_before utf8 here with ⟨-, policy, rfl⟩ | ⟨st, declared, aftermath⟩
    · rfl
    · obtain ⟨policy, same | ⟨_, _, _, -, -, kept, -⟩⟩ := aftermath.dedup
      · rw [same]
        exact recorded.windows queue st declared (policy ▸ window)
      · exact absurd (policy ▸ window) kept

end Step

/-- The records after a run. -/
theorem run_recorded (bc : Bincode) (ids : Nat → UInt64) (maxBytes : Option UInt64)
    (steps : List Step) (apart : NonColliding (declaredNames steps)) :
    ∃ b, Refines bc (final bc ids (started bc ids maxBytes) steps) b ∧
      (∀ a ∈ b.names, a ∈ declaredNames steps) ∧
        Recorded (events bc ids (started bc ids maxBytes) steps) b :=
  run_refines bc ids maxBytes
    (fun steps b => Recorded (events bc ids (started bc ids maxBytes) steps) b) (.empty maxBytes)
    (fun past step b recorded before response after => by
      rw [events_append]
      rw [final_append] at after
      exact recorded.next before response after)
    steps apart

/-- While the clock goes forward, no stored publish of a key is later than the one on record. -/
theorem Recorded.latest {steps : List Step} {start : QueueManager}
    (recorded : Recorded (events bc ids start steps) b) (forward : Forward steps) {queue key : String}
    {st : QueueState} (here : b.queue queue = some st) {e : Event}
    (member : e ∈ events bc ids start steps) {time : Int64} (stored : StoredAt e queue key time) :
    ∃ time', st.dedup.get key.utf8 = some time' ∧ time ≤ time' := by
  obtain ⟨earlier, last, later, split, ⟨time', stored'⟩, none⟩ :=
    exists_since (P := fun e => ∃ time, StoredAt e queue key time) ⟨e, member, time, stored⟩
  have never : ∀ e ∈ later, ∀ time, ¬ StoredAt e queue key time :=
    fun e after time stored => none e after ⟨time, stored⟩
  refine ⟨time', (recorded.last queue st key time' here).mpr
    ⟨earlier, last, later, split, stored', never⟩, ?_⟩
  have inside : last ∈ events bc ids start steps := by simp [split]
  obtain ⟨i, few, rfl⟩ := recorded.readings e member queue key time stored
  obtain ⟨j, -, rfl⟩ := recorded.readings last inside queue key time' stored'
  have among {e : Event} (member : e ∈ events bc ids start steps) : e.step ∈ steps := by
    rw [← events_steps bc ids start steps]
    exact List.mem_map_of_mem member
  rw [split] at member
  rcases List.mem_append.mp member with before | since
  · have ordered : (earlier ++ last :: later).Pairwise fun e later =>
        e.step.clock 2 ≤ later.step.clock 0 := by
      have across := forward.across
      rw [← events_steps bc ids start steps, split] at across
      exact List.pairwise_map.mp across
    have next : e.step.clock 2 ≤ last.step.clock 0 :=
      (List.pairwise_append.mp ordered).2.2 e before last List.mem_cons_self
    exact Int64.le_trans (forward.within e.step (among (split ▸ member)) i 2 few)
      (Int64.le_trans next (forward.within last.step (among inside) 0 j (Nat.zero_le j)))
  · rcases List.mem_cons.mp since with rfl | after
    · obtain ⟨_, _, -, -, -, first⟩ := stored
      obtain ⟨_, _, -, -, -, second⟩ := stored'
      rw [Option.some.inj (first.symm.trans second)]
      exact Int64.le_refl _
    · exact (never e after _ stored).elim

/-- Where nothing overflows, the code's test of the window is the integers'. -/
theorem inWindow_exact {now time : Int64} {windowSecs : UInt64} (read : 0 ≤ now)
    (fits : 1000 * windowSecs.toNat < 2 ^ 63) :
    now - windowSecs.toInt64 * 1000 < time ↔ now.toInt - time.toInt < 1000 * windowSecs.toNat := by
  have zero : (0 : Int64).toInt = 0 := by decide
  rw [Int64.le_iff_toInt_le, zero] at read
  have window := milliseconds_exact fits
  have difference := (Int64.sub_exact now (windowSecs.toInt64 * 1000)).mpr
    ⟨by rw [window]; omega, by rw [window]; have := now.toInt_lt; omega⟩
  rw [Int64.lt_iff_toInt_lt, difference, window]
  omega

/-- A publish is rejected for its key. -/
theorem Broker.publish_deduplicated {queue : String} {m : Message} {st : QueueState}
    (declared : b.queue queue = some st) :
    (b.perform bc ids clock (.publish queue m)).1 = .published (.ok .deduplicated) ↔
      (st.isDuplicate m clock).1 = true := by
  simp only [Broker.perform, Broker.publish, declared]
  split_ifs with duplicate
  · exact iff_of_true rfl duplicate
  · refine iff_of_false ?_ duplicate
    cases b.limitError (size bc m) with
    | some e => rintro ⟨⟩
    | none => rintro ⟨⟩

theorem QueueState.isDuplicate_iff {st : QueueState} {m : Message} {windowSecs : UInt64}
    (window : st.policy.dedupWindowSecs = some windowSecs) (positive : 0 < windowSecs)
    (clock : Nat → Int64) :
    (st.isDuplicate m clock).1 = true ↔ ∃ key, m.dedupKey = some key ∧ ∃ time,
      st.dedup.get key.utf8 = some time ∧ clock 0 - windowSecs.toInt64 * 1000 < time := by
  simp only [QueueState.isDuplicate, isRepeated, window]
  cases m.dedupKey with
  | none => simp
  | some key => cases found : st.dedup.get key.utf8 <;> simp [found, positive]

end Runs

/-- The time on record for a key of a queue is the one that the last stored publish of the key to
    the queue left there, one of its readings of the clock. -/
theorem dedup_record_exact (bc : Bincode) (ids : Nat → UInt64) (maxBytes : Option UInt64)
    (steps : List Step) (apart : NonColliding (declaredNames steps)) (queue key : String)
    (policy : RetentionPolicy)
    (declared : ((final bc ids (started bc ids maxBytes) steps).db.trees metaRetentionTree).get
      queue.utf8 = some (bc.policy.encode policy)) (time : Int64) :
    (recordedIn (final bc ids (started bc ids maxBytes) steps).db queue key = some time ↔
      LastStored queue key time (events bc ids (started bc ids maxBytes) steps)) ∧
    ∀ e ∈ events bc ids (started bc ids maxBytes) steps, StoredAt e queue key time →
      ∃ i ≤ 2, time = e.step.clock i := by
  obtain ⟨b, refines, -, recorded⟩ := run_recorded bc ids maxBytes steps apart
  obtain ⟨st, here, rfl⟩ := refines.declared declared
  rw [refines.recorded here]
  exact ⟨recorded.last queue st key time here,
    fun e member => recorded.readings e member queue key time⟩

/-- A key that was stored at 5, and a consume. -/
def keyStored : List Step :=
  [⟨.declareQueueWithRetention "q" ⟨none, none, none, some 1⟩, fun _ => 5⟩,
    ⟨.publish "q" ⟨1, [], [], 0, 0, 3, none, some "k"⟩, fun _ => 5⟩,
    ⟨.consume "q", fun _ => 6⟩]

theorem keyStored_recorded :
    recordedIn (final bincode (counter 0) (started bincode (counter 0) none) keyStored).db "q" "k" =
        some 5 ∧
      LastStored "q" "k" 5 (events bincode (counter 0) (started bincode (counter 0) none) keyStored) := by
  have recorded : recordedIn (final bincode (counter 0) (started bincode (counter 0) none)
      keyStored).db "q" "k" = some 5 := by decide +kernel
  exact ⟨recorded, (dedup_record_exact bincode (counter 0) none keyStored (by decide) "q" "k"
    ⟨none, none, none, some 1⟩ (by decide +kernel) 5).1.mp recorded⟩

/-- In a run whose clock goes forward a publish is rejected exactly when it has a key and an earlier
    publish of the key to the queue was stored within the window; a rejected publish leaves all
    records, and stored publishes of one key are a window apart. -/
theorem dedup_window_exact (bc : Bincode) (ids : Nat → UInt64) (maxBytes : Option UInt64)
    (past : List Step) (queue : String) (m : Message) (clock : Nat → Int64)
    (policy : RetentionPolicy) (windowSecs : UInt64)
    (apart : NonColliding (declaredNames past))
    (forward : Forward (past ++ [⟨.publish queue m, clock⟩]))
    (declared : ((final bc ids (started bc ids maxBytes) past).db.trees metaRetentionTree).get
      queue.utf8 = some (bc.policy.encode policy))
    (window : policy.dedupWindowSecs = some windowSecs) (positive : 0 < windowSecs)
    (fits : 1000 * windowSecs.toNat < 2 ^ 63) :
    let publish := performed bc ids (final bc ids (started bc ids maxBytes) past)
      ⟨.publish queue m, clock⟩
    (publish.response = .published (.ok .deduplicated) ↔
      ∃ key, m.dedupKey = some key ∧ ∃ e ∈ events bc ids (started bc ids maxBytes) past, ∃ time,
        StoredAt e queue key time ∧ (clock 0).toInt - time.toInt < 1000 * windowSecs.toNat) ∧
    (publish.response = .published (.ok .deduplicated) → ∀ queue' key',
      recordedIn publish.after.db queue' key' = recordedIn publish.before.db queue' key') ∧
    ∀ e ∈ events bc ids (started bc ids maxBytes) past, ∀ key time time',
      StoredAt e queue key time → StoredAt publish queue key time' →
      1000 * windowSecs.toNat ≤ time'.toInt - time.toInt := by
  intro publish
  obtain ⟨b, refines, names, recorded⟩ := run_recorded bc ids maxBytes past apart
  obtain ⟨st, here, rfl⟩ := refines.declared declared
  have last : (⟨.publish queue m, clock⟩ : Step) ∈ past ++ [⟨.publish queue m, clock⟩] :=
    List.mem_append_right _ List.mem_cons_self
  have read : 0 ≤ clock 0 := forward.epoch _ last
  obtain ⟨response, after⟩ := perform_refines ids clock refines (.publish queue m)
    (apart.subset names)
  have rejected : publish.response = .published (.ok .deduplicated) ↔
      ∃ key, m.dedupKey = some key ∧ ∃ e ∈ events bc ids (started bc ids maxBytes) past, ∃ time,
        StoredAt e queue key time ∧ (clock 0).toInt - time.toInt < 1000 * windowSecs.toNat := by
    change ((Operation.publish queue m).perform bc ids clock _).1 = _ ↔ _
    rw [response, Broker.publish_deduplicated here, QueueState.isDuplicate_iff window positive]
    refine exists_congr fun key => and_congr_right fun _ => ?_
    constructor
    · rintro ⟨time, found, inside⟩
      obtain ⟨earlier, e, later, split, stored, -⟩ :=
        (recorded.last queue st key time here).mp found
      exact ⟨e, by simp [split], time, stored, (inWindow_exact read fits).mp inside⟩
    · rintro ⟨e, member, time, stored, inside⟩
      obtain ⟨time', found, le⟩ := recorded.latest forward.before here member stored
      refine ⟨time', found, (inWindow_exact read fits).mpr ?_⟩
      rw [Int64.le_iff_toInt_le] at le
      omega
  refine ⟨rejected, fun declined queue' key' => ?_, fun e member key time time' stored stored' => ?_⟩
  · have intact : publish.before.Intact publish.after := by
      refine perform_intact bc ids clock _ (.publish queue m) ?_
      change publish.response.Declined
      rw [declined]
      trivial
    rw [intact]
    rfl
  · obtain ⟨-, _, -, -, i, -, reading⟩ := recorded.stored refines response after stored'
    have outside : ¬ (clock 0).toInt - time.toInt < 1000 * windowSecs.toNat := fun inside => by
      obtain ⟨_, _, asked, keyed, answer, -⟩ := stored'
      cases asked
      cases answer.symm.trans (rejected.mpr ⟨key, keyed, e, member, time, stored, inside⟩)
    have ordered : clock 0 ≤ clock i := forward.within _ last 0 i (Nat.zero_le i)
    rw [Int64.le_iff_toInt_le] at ordered
    rw [reading]
    change 1000 * (windowSecs.toNat : Int) ≤ (clock i).toInt - time.toInt
    omega

/-- The last millisecond of the window. -/
theorem keyStored_window :
    (performed bincode (counter 0) (final bincode (counter 0)
        (started bincode (counter 0) none) keyStored)
      ⟨.publish "q" ⟨2, [], [], 0, 0, 3, none, some "k"⟩, fun _ => 1004⟩).response =
        .published (.ok .deduplicated) ∧
    ∃ key, some "k" = some key ∧
      ∃ e ∈ events bincode (counter 0) (started bincode (counter 0) none) keyStored, ∃ time,
        StoredAt e "q" key time ∧ (1004 : Int64).toInt - time.toInt < 1000 * (1 : UInt64).toNat := by
  have rejected : (performed bincode (counter 0) (final bincode (counter 0)
        (started bincode (counter 0) none) keyStored)
      ⟨.publish "q" ⟨2, [], [], 0, 0, 3, none, some "k"⟩, fun _ => 1004⟩).response =
        .published (.ok .deduplicated) := by
    decide +kernel
  have forward : Forward (keyStored ++
      [⟨.publish "q" ⟨2, [], [], 0, 0, 3, none, some "k"⟩, fun _ => 1004⟩]) := by
    refine ⟨?_, ?_, ?_⟩
    · simp [keyStored]
    · simp only [keyStored, List.cons_append, List.nil_append, List.pairwise_cons]
      decide
    · simp only [keyStored, List.cons_append, List.nil_append, List.forall_mem_cons]
      decide
  exact ⟨rejected, (dedup_window_exact bincode (counter 0) none keyStored "q"
    ⟨2, [], [], 0, 0, 3, none, some "k"⟩ (fun _ => 1004) ⟨none, none, none, some 1⟩ 1 (by decide)
    forward (by decide +kernel) rfl (by decide) (by decide)).1.mp rejected⟩

/-- The ready key of the first message of highest priority, as text. -/
def firstReadyKey : String := String.ofList (List.replicate 9 (Char.ofNat 0))

/-- A queue that deduplicates, and a message in the queue that is called like its records. -/
def recordsQueue : List Step :=
  [⟨.declareQueueWithRetention "q" ⟨none, none, none, some 1⟩, fun _ => 5⟩,
    ⟨.declareQueueWithRetention "dedup:q" default, fun _ => 5⟩,
    ⟨.publish "dedup:q" ⟨1, [], [], 0, 0, 9, none, none⟩, fun _ => 5⟩]

/-- A key that was never published is rejected: the record it finds is the message of the other
    queue. -/
theorem recordsQueue_rejects :
    (∀ e ∈ events bincode (counter 0) (started bincode (counter 0) none) recordsQueue,
      ∀ m, e.step.op ≠ .publish "q" m) ∧
    (performed bincode (counter 0) (final bincode (counter 0)
        (started bincode (counter 0) none) recordsQueue)
      ⟨.publish "q" ⟨2, [], [], 0, 0, 3, none, some firstReadyKey⟩, fun _ => 6⟩).response =
        .published (.ok .deduplicated) := by
  constructor
  · simp [recordsQueue, events, performed]
  · decide +kernel

end PelicanQ
