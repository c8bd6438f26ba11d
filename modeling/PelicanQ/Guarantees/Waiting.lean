import PelicanQ.Guarantees.Deduplication
import PelicanQ.Guarantees.Engines
import PelicanQ.Guarantees.Following

/-! # Scheduled messages in the daemon

Only a promotion takes a message out of a scheduled store, and nothing in the daemon
promotes.  A message whose time has not come when it is published is therefore never
delivered, not when its time comes and not after a restart.  Only such messages wait: no
message that is due does, as long as nobody asks for a later delivery.
-/

namespace PelicanQ

/-- A move that takes nothing out of a scheduled store. -/
def Move.Waits : Move → Prop
  | .promote .. => False
  | .store .. | .record .. | .deliver .. | .settle .. | .retry .. | .discard .. | .requeue .. => True

section Moves

variable {ids : Nat → UInt64} {n : Nat} {st : QueueState} {b b' : Broker} {mv : Move}
  {moves : List (String × Move)}

theorem QueueState.scheduled_move (sound : st.Sound ids n)
    (increasing : StrictMonoOn ids (Set.Iio (n + mv.draws))) (waits : mv.Waits) :
    ∀ e ∈ st.scheduled.entries, e ∈ (st.move (ids n) mv).scheduled.entries := by
  intro e member
  cases mv with
  | store m due =>
      cases due with
      | none => exact member
      | some deliverAt =>
          -- the id in the new key is later than those in the store
          refine OrdMap.mem_insert.mpr (.inr ⟨member, fun same => ?_⟩)
          obtain ⟨i, below, deliverAt', -, key⟩ := sound.scheduled e member
          have ids_same : ids n = ids i := by
            rw [← dueKey_id deliverAt (ids n), ← same, key, dueKey_id]
          have less : ids i < ids n :=
            increasing (Set.mem_Iio.mpr (by simp only [Move.draws]; omega))
              (Set.mem_Iio.mpr (by simp only [Move.draws]; omega)) below
          exact less.ne ids_same.symm
  | record | deliver | settle | discard | requeue => exact member
  | retry tag m =>
      simp only [QueueState.move, Move.changes]
      split_ifs <;> exact member
  | promote => exact waits.elim

/-- An entry of the scheduled store of a declared queue. -/
def Broker.Waiting (b : Broker) (q : String) (e : DueKey × Message) : Prop :=
  ∃ st, b.queue q = some st ∧ e ∈ st.scheduled.entries

theorem Broker.Waiting.path {q : String} {e : DueKey × Message} (waiting : b.Waiting q e)
    (path : Path ids b moves b') (waits : ∀ x ∈ moves, x.2.Waits) (sound : b.Sound ids)
    (increasing : StrictMonoOn ids (Set.Iio b'.drawn)) : b'.Waiting q e := by
  induction path with
  | done => exact waiting
  | idle queues drawn _ ih =>
      obtain ⟨st, declared, member⟩ := waiting
      refine ih ⟨st, ?_, member⟩ waits (sound.idle queues drawn) increasing
      rw [Broker.queue, queues]
      exact declared
  | @declare b _ name policy _ undeclared _ ih =>
      obtain ⟨st, declared, member⟩ := waiting
      have different : q ≠ name := by
        rintro rfl
        rw [undeclared] at declared
        cases declared
      refine ih ⟨st, ?_, member⟩ waits (sound.declare name policy) increasing
      simp only [Broker.queue, OrdMap.get_insert, String.utf8_injective.eq_iff, different, if_false]
      exact declared
  | @move b _ name st₀ mv _ declared₀ enabled more ih =>
      obtain ⟨st, declared, member⟩ := waiting
      have upTo := increasing.mono (Set.Iio_subset_Iio more.drawn_le)
      refine ih ?_ (fun x later => waits x (List.mem_cons_of_mem _ later))
        (sound.move declared₀ enabled upTo) increasing
      by_cases here : q = name
      · subst here
        rw [Broker.move_drawn declared] at upTo
        exact ⟨_, Broker.move_queue declared mv, QueueState.scheduled_move
          (sound.queues q st declared) upTo (waits _ List.mem_cons_self) e member⟩
      · exact ⟨st, by rw [Broker.move_queue_other b here, declared], member⟩

/-- What is scheduled after a move was so before, or the move stores it for later. -/
theorem QueueState.scheduled_came {id : UInt64} {e : DueKey × Message}
    (member : e ∈ (st.move id mv).scheduled.entries) :
    e ∈ st.scheduled.entries ∨ ∃ time, mv = .store e.2 (some time) := by
  cases mv with
  | store m due =>
      cases due with
      | none => exact .inl member
      | some time =>
          rcases OrdMap.mem_insert.mp member with rfl | ⟨old, -⟩
          · exact .inr ⟨time, rfl⟩
          · exact .inl old
  | promote key m => exact .inl (OrdMap.mem_erase.mp member).1
  | record | deliver | settle | discard | requeue => exact .inl member
  | retry tag m =>
      simp only [QueueState.move, Move.changes] at member
      split_ifs at member <;> exact .inl member

theorem Broker.Waiting.came {q : String} {e : DueKey × Message} (path : Path ids b moves b')
    (waiting : b'.Waiting q e) : b.Waiting q e ∨ ∃ time, (q, .store e.2 (some time)) ∈ moves := by
  induction path with
  | done => exact .inl waiting
  | idle queues drawn _ ih =>
      rcases ih waiting with ⟨st, declared, member⟩ | stored
      · refine .inl ⟨st, ?_, member⟩
        rw [Broker.queue, ← queues]
        exact declared
      · exact .inr stored
  | @declare b _ name policy _ undeclared _ ih =>
      rcases ih waiting with ⟨st, declared, member⟩ | stored
      · simp only [Broker.queue, OrdMap.get_insert, String.utf8_injective.eq_iff] at declared
        split_ifs at declared
        · cases declared
          exact absurd member List.not_mem_nil
        · exact .inl ⟨st, declared, member⟩
      · exact .inr stored
  | @move b _ name st₀ mv _ declared₀ _ _ ih =>
      rcases ih waiting with ⟨st, declared, member⟩ | ⟨time, stored⟩
      · by_cases here : q = name
        · subst here
          rw [Broker.move_queue declared₀] at declared
          cases declared
          rcases QueueState.scheduled_came member with old | ⟨time, rfl⟩
          · exact .inl ⟨st₀, declared₀, old⟩
          · exact .inr ⟨time, List.mem_cons_self⟩
        · rw [Broker.move_queue_other b here] at declared
          exact .inl ⟨st, declared, member⟩
      · exact .inr ⟨time, List.mem_cons_of_mem _ stored⟩

/-- Only a publish stores. -/
theorem Transition.publishes {op : Operation} {r : Response} {q : String} {m : Message}
    {due : Option Int64} (transition : Transition ids b op r moves b')
    (member : (q, .store m due) ∈ moves) : op = .publish q m := by
  cases transition with
  | «exists» | declared | notFound | deduplicated | limited | nothing | invalidAck | invalidNack =>
      exact absurd member List.not_mem_nil
  | stored path others =>
      rcases List.mem_cons.mp member with same | record
      · cases same
        rfl
      · obtain ⟨mv, inside, same⟩ := List.mem_map.mp record
        obtain ⟨key, time, rfl⟩ := others mv inside
        cases same
  | delivered | acked | nacked => cases List.mem_singleton.mp member
  | promoted | retained =>
      obtain ⟨entry, -, same⟩ := List.mem_map.mp member
      cases same
  | reopened path requeues settled =>
      obtain ⟨tag, m', same⟩ := requeues _ member
      cases same

/-- A message has to wait when one of the publish's readings lies before its time. -/
theorem notYetDue_some {m : Message} {clock : Nat → Int64} {time : Int64}
    (waits : (notYetDue m (st.isDuplicate m clock).2).1 = some time) :
    m.deliverAt = some time ∧ ∃ i, clock i < time := by
  unfold notYetDue at waits
  cases asked : m.deliverAt with
  | none =>
      rw [asked] at waits
      cases waits
  | some deliverAt =>
      rw [asked] at waits
      dsimp only at waits
      split_ifs at waits with early
      cases waits
      refine ⟨rfl, ?_⟩
      rcases st.isDuplicate_later m clock with first | first
      · exact ⟨0, first ▸ early⟩
      · exact ⟨1, by rw [first] at early; exact early⟩

/-- What is scheduled after an operation was so before, or is published before its time. -/
theorem Broker.Waiting.published {q : String} {e : DueKey × Message} (bc : Bincode)
    (clock : Nat → Int64) (utf8 : ∀ key ∈ b.queues.keys, ∃ name : String, key = name.utf8)
    {op : Operation} (waiting : (b.perform bc ids clock op).2.Waiting q e) :
    b.Waiting q e ∨ op = .publish q e.2 ∧ ∃ time, e.2.deliverAt = some time ∧ ∃ i, clock i < time := by
  obtain ⟨moves, transition⟩ := perform_transition ids bc clock b utf8 op
  rcases waiting.came transition.path with old | ⟨time, stored⟩
  · exact .inl old
  · obtain rfl := transition.publishes stored
    cases declared : b.queue q with
    | none =>
        simp only [Broker.perform, Broker.publish, declared] at waiting
        exact .inl waiting
    | some st =>
        simp only [Broker.perform, Broker.publish, declared] at waiting
        split_ifs at waiting
        · exact .inl waiting
        · cases limited : b.limitError (Broker.size bc e.2) with
          | some error =>
              rw [limited] at waiting
              exact .inl waiting
          | none =>
              rw [limited] at waiting
              rcases waiting.came ((Path.store ids declared e.2 _ _).setBytes _) with old | ⟨time, made⟩
              · exact .inl old
              · rcases List.mem_cons.mp made with same | record
                · injection same with _ same
                  injection same with _ due
                  obtain ⟨asked, early⟩ := notYetDue_some due.symm
                  exact .inr ⟨rfl, time, asked, early⟩
                · obtain ⟨mv, inside, same⟩ := List.mem_map.mp record
                  unfold QueueState.recordDedup at inside
                  split at inside
                  · cases List.mem_singleton.mp inside
                    cases same
                  · cases inside

/-- Only a promotion makes a move that takes a message out of a scheduled store. -/
theorem Transition.waits {op : Operation} {r : Response}
    (transition : Transition ids b op r moves b') (plain : ∀ q, op ≠ .promoteScheduled q) :
    ∀ x ∈ moves, x.2.Waits := by
  intro x member
  cases transition with
  | «exists» | declared | notFound | deduplicated | limited | nothing | invalidAck | invalidNack =>
      exact absurd member List.not_mem_nil
  | stored path others =>
      rcases List.mem_cons.mp member with rfl | record
      · trivial
      · obtain ⟨mv, inside, rfl⟩ := List.mem_map.mp record
        obtain ⟨key, time, rfl⟩ := others mv inside
        trivial
  | delivered | acked | nacked =>
      rw [List.mem_singleton.mp member]
      trivial
  | promoted => exact absurd rfl (plain _)
  | retained =>
      obtain ⟨entry, -, rfl⟩ := List.mem_map.mp member
      trivial
  | reopened path requeues settled =>
      obtain ⟨tag, m, made⟩ := requeues x member
      rw [made]
      trivial

end Moves

/-! ## Runs of a manager -/

section Runs

variable {bc : Bincode} {ids : Nat → UInt64} {maxBytes : Option UInt64}

/-- What the scheduled trees of the declared queues hold, the broker holds. -/
def KeepsWaiting (bc : Bincode) (qm : QueueManager) (b : Broker) : Prop :=
  ∀ q, q.utf8 ∈ (qm.db.trees metaQueuesTree).keys →
    ∀ e ∈ (qm.db.trees (scheduledTreeName q)).entries,
      ∃ entry, b.Waiting q entry ∧ e = (DueKey.bytes entry.1, bc.message.encode entry.2)

theorem Refines.keepsWaiting {qm : QueueManager} {b : Broker} (refines : Refines bc qm b) :
    KeepsWaiting bc qm b := by
  intro q registered e member
  obtain ⟨v, present⟩ := OrdMap.mem_keys.mp registered
  have some_ : (b.queue q).isSome = true := by
    have found := Refines.registered_get (s := ⟨qm, fun _ => 0⟩) refines q
    rw [← found]
    change ((qm.db.trees metaQueuesTree).get q.utf8).isSome = true
    rw [present, Option.isSome_some]
  obtain ⟨st, declared⟩ := Option.isSome_iff_exists.mp some_
  rw [show qm.db.trees (scheduledTreeName q) = st.tree bc .scheduled from
    refines.held.stores q st declared .scheduled, QueueState.tree, OrdMap.image_entries] at member
  obtain ⟨entry, inside, rfl⟩ := List.mem_map.mp member
  exact ⟨entry, ⟨st, declared, inside⟩, rfl⟩

/-- Once the first steps are done, and as long as nothing is promoted after them, a broker holds
    what they left. -/
def KeepsAfter (bc : Bincode) (ids : Nat → UInt64) (maxBytes : Option UInt64) (steps past : List Step)
    (b : Broker) : Prop :=
  ∀ after, past = steps ++ after → (∀ step ∈ after, ∀ q, step.op ≠ .promoteScheduled q) →
    KeepsWaiting bc (final bc ids (started bc ids maxBytes) steps) b

theorem KeepsAfter.next {steps past : List Step} {step : Step} {b : Broker}
    (inv : KeepsAfter bc ids maxBytes steps past b)
    (performs : Performs bc ids maxBytes past step b) :
    KeepsAfter bc ids maxBytes steps (past ++ [step]) (b.perform bc ids step.clock step.op).2 := by
  intro after split plain
  rcases List.eq_nil_or_concat after with rfl | ⟨after', last, rfl⟩
  · rw [List.append_nil] at split
    rw [← split]
    exact performs.after.keepsWaiting
  · rw [List.concat_eq_append] at split plain
    rw [← List.append_assoc] at split
    obtain ⟨rfl, one⟩ := List.append_inj' split rfl
    cases one
    have held := inv after' rfl fun s member => plain s (List.mem_append_left _ member)
    have here := plain step (List.mem_append_right _ (List.mem_singleton_self step))
    obtain ⟨moves, transition⟩ := perform_transition ids bc step.clock b performs.before.held.utf8
      step.op
    intro q registered e member
    obtain ⟨entry, waiting, same⟩ := held q registered e member
    exact ⟨entry, waiting.path transition.path (transition.waits here) performs.sound
      performs.increasing, same⟩

/-- Where nothing is promoted, what is scheduled stays so. -/
theorem run_keepsWaiting {steps later : List Step}
    (plain : ∀ step ∈ later, ∀ q, step.op ≠ .promoteScheduled q)
    (apart : NonColliding (declaredNames (steps ++ later)))
    (increasing : Increasing ids (final bc ids (started bc ids maxBytes) (steps ++ later))) :
    ∃ b, Refines bc (final bc ids (started bc ids maxBytes) (steps ++ later)) b ∧
      KeepsWaiting bc (final bc ids (started bc ids maxBytes) steps) b := by
  have initially : KeepsAfter bc ids maxBytes steps [] (emptyBroker maxBytes) := by
    intro after split _
    rw [(List.append_eq_nil_iff.mp split.symm).1]
    exact (started_refines bc ids maxBytes).keepsWaiting
  obtain ⟨b, refines, -, inv⟩ := run_steps bc ids maxBytes (KeepsAfter bc ids maxBytes steps)
    initially (fun _ _ _ => KeepsAfter.next) (steps ++ later) apart increasing
  exact ⟨b, refines, inv later rfl plain⟩

/-- What a broker holds, the trees of a manager that refines it hold. -/
theorem Refines.waiting_entry {qm : QueueManager} {b : Broker} (refines : Refines bc qm b)
    {q : String} {entry : DueKey × Message} (waiting : b.Waiting q entry) :
    (DueKey.bytes entry.1, bc.message.encode entry.2) ∈
      (qm.db.trees (scheduledTreeName q)).entries := by
  obtain ⟨st, declared, member⟩ := waiting
  rw [show qm.db.trees (scheduledTreeName q) = st.tree bc .scheduled from
    refines.held.stores q st declared .scheduled, QueueState.tree, OrdMap.image_entries]
  exact List.mem_map_of_mem member

/-- Every message that waits in a queue was published to it by a step, before its time. -/
def EarlyPublished (past : List Step) (b : Broker) : Prop :=
  ∀ q e, b.Waiting q e → ∃ step ∈ past, step.op = .publish q e.2 ∧
    ∃ time, e.2.deliverAt = some time ∧ ∃ i, step.clock i < time

theorem run_earlyPublished (steps : List Step) (apart : NonColliding (declaredNames steps))
    (increasing : Increasing ids (final bc ids (started bc ids maxBytes) steps)) :
    ∃ b, Refines bc (final bc ids (started bc ids maxBytes) steps) b ∧ EarlyPublished steps b := by
  have initially : EarlyPublished [] (emptyBroker maxBytes) := by
    rintro q e ⟨st, declared, -⟩
    cases declared
  have next (past step b) (inv : EarlyPublished past b)
      (performs : Performs bc ids maxBytes past step b) :
      EarlyPublished (past ++ [step]) (b.perform bc ids step.clock step.op).2 := by
    intro q e waiting
    rcases waiting.published bc step.clock performs.before.held.utf8 with old | ⟨op, early⟩
    · obtain ⟨step', member, rest⟩ := inv q e old
      exact ⟨step', List.mem_append_left _ member, rest⟩
    · exact ⟨step, List.mem_append_right _ (List.mem_singleton_self step), op, early⟩
  obtain ⟨b, refines, -, inv⟩ :=
    run_steps bc ids maxBytes EarlyPublished initially next steps apart increasing
  exact ⟨b, refines, inv⟩

end Runs

/-! ## Runs of the daemon -/

namespace Daemon

variable (bc : Bincode) (uuid : UuidText) (formats : Http.Formats) (ids : Nat → UInt64)
  (engine : AppEngine) (maxBytes : Option UInt64)

/-- Whatever else happens, what is once in the scheduled store of a queue stays there: no consume
    of any protocol, no poller and no restart takes it out. -/
theorem scheduled_never_leaves (run later : List (Happening × Surroundings))
    (apart : NonColliding (declaredIn (run ++ later)))
    (increasing : Increasing ids
      ((System.started bc ids engine maxBytes).final bc uuid formats ids engine
        (run ++ later)).manager) (q : String)
    (declared : q.utf8 ∈ (((System.started bc ids engine maxBytes).final bc uuid formats ids engine
      run).manager.db.trees metaQueuesTree).keys) :
    ∀ e ∈ (((System.started bc ids engine maxBytes).final bc uuid formats ids engine
        run).manager.db.trees (scheduledTreeName q)).entries,
      e ∈ (((System.started bc ids engine maxBytes).final bc uuid formats ids engine
        (run ++ later)).manager.db.trees (scheduledTreeName q)).entries := by
  obtain ⟨steps, steps', makes, reached, reached'⟩ :=
    follows_parts bc uuid formats ids engine maxBytes run later
  rw [reached'] at increasing
  have served := made_served makes
  have plain (step) (member : step ∈ steps') := (served step (List.mem_append_right _ member)).plain
  obtain ⟨b, refines, keeps⟩ := run_keepsWaiting plain (apart.subset (served_names served)) increasing
  rw [reached] at declared ⊢
  rw [reached']
  intro e member
  obtain ⟨entry, waiting, rfl⟩ := keeps q declared e member
  exact refines.waiting_entry waiting

/-- A message that is due in a second. -/
def dueSoon : List (Happening × Surroundings) :=
  [(.request (.grpc (.declareQueue ⟨"q", none, none, none, none⟩)), calm 0),
    (.request (.grpc (.publish "q" (some { plainProto with deliverAt := some 1000 }))), calm 0)]

/-- A consume long after that, and a restart. -/
def longAfter : List (Happening × Surroundings) :=
  [(.request (.grpc (.consume "q")), calm 60000), (.restart none, calm 60000),
    (.request (.http (.consume "q")), calm 60000)]

theorem dueSoon_stays :
    (((System.started bincode (counter 0) .solo none).final bincode byteUuid noFormats (counter 0)
        .solo dueSoon).manager.db.trees (scheduledTreeName "q")).entries.length = 1 ∧
      ∀ e ∈ (((System.started bincode (counter 0) .solo none).final bincode byteUuid noFormats
          (counter 0) .solo dueSoon).manager.db.trees (scheduledTreeName "q")).entries,
        e ∈ (((System.started bincode (counter 0) .solo none).final bincode byteUuid noFormats
          (counter 0) .solo (dueSoon ++ longAfter)).manager.db.trees
            (scheduledTreeName "q")).entries :=
  ⟨by decide +kernel, scheduled_never_leaves bincode byteUuid noFormats (counter 0) .solo none
    dueSoon longAfter (by decide +kernel) (counter_increasing (by decide +kernel)) "q"
    (by decide +kernel)⟩

/-- A stored message whose time has come. -/
def due (bc : Bincode) (now : Int64) (value : Bytes) : Bool :=
  match bc.message.decode value with
  | .ok m => m.deliverAt.any (· ≤ now)
  | .error _ => false

/-- A message of the queue is due and waits in the scheduled store. -/
def System.Overdue (bc : Bincode) (S : System) (q : String) (now : Int64) : Prop :=
  ∃ e ∈ (S.manager.db.trees (scheduledTreeName q)).entries, due bc now e.2 = true

instance (bc : Bincode) (S : System) (q : String) (now : Int64) : Decidable (S.Overdue bc q now) :=
  inferInstanceAs (Decidable (∃ e ∈ (S.manager.db.trees (scheduledTreeName q)).entries, _))

/-- As long as no client asks for a delivery to a queue that is later than its request and has to
    come by now, no message of the queue is due and waits, whatever a consume finds. -/
theorem prompt_never_overdue (run : List (Happening × Surroundings))
    (apart : NonColliding (declaredIn run))
    (increasing : Increasing ids
      ((System.started bc ids engine maxBytes).final bc uuid formats ids engine run).manager)
    (forward : ∀ happening ∈ run, ∀ i, happening.2.clock 0 ≤ happening.2.clock i) (q : String)
    (declared : q.utf8 ∈ (((System.started bc ids engine maxBytes).final bc uuid formats ids engine
      run).manager.db.trees metaQueuesTree).keys) (now : Int64)
    (prompt : ∀ happening ∈ run, ∀ time, happening.1.Asks q time →
      time ≤ happening.2.clock 0 ∨ now < time) :
    ¬ ((System.started bc ids engine maxBytes).final bc uuid formats ids engine run).Overdue bc q
      now := by
  obtain ⟨steps, _, makes, reached, -⟩ := follows_parts bc uuid formats ids engine maxBytes run []
  rw [List.append_nil] at makes
  have names : ∀ name ∈ declaredNames steps, name ∈ declaredIn run :=
    served_names fun step member => made_served makes step (List.mem_append_left _ member)
  rw [reached] at increasing declared
  rw [System.Overdue, reached]
  obtain ⟨b, refines, early⟩ := run_earlyPublished steps (apart.subset names) increasing
  rintro ⟨e, member, overdue⟩
  obtain ⟨entry, waiting, rfl⟩ := refines.keepsWaiting q declared e member
  obtain ⟨step, made, op, time, asked, i, before⟩ := early q entry waiting
  obtain ⟨happening, inside, ⟨-, asks⟩, k, clock⟩ := makes step (List.mem_append_left _ made)
  have reading : happening.2.clock 0 ≤ step.clock i := by
    rw [clock]
    exact forward happening inside (i + k)
  have come : time ≤ now := by
    simpa only [due, bc.message.decode_encode, asked, Option.any_some, decide_eq_true_eq] using
      overdue
  have asked := prompt happening inside time (asks q entry.2 time op asked)
  rw [Int64.le_iff_toInt_le, Int64.lt_iff_toInt_lt] at asked
  rw [Int64.le_iff_toInt_le] at reading come
  rw [Int64.lt_iff_toInt_lt] at before
  omega

/-- A message that was due before it was published, and a consume. -/
def dueBefore : List (Happening × Surroundings) :=
  [(.request (.grpc (.declareQueue ⟨"q", none, none, none, none⟩)), calm 5000),
    (.request (.grpc (.publish "q" (some { plainProto with deliverAt := some 1000 }))), calm 5000),
    (.request (.grpc (.consume "q")), calm 6000)]

theorem dueBefore_delivered :
    ((System.started bincode (counter 0) .solo none).final bincode byteUuid noFormats (counter 0)
        .solo dueBefore).manager.db.trees (inflightTreeName "q") ≠ .empty ∧
      ¬ ((System.started bincode (counter 0) .solo none).final bincode byteUuid noFormats (counter 0)
        .solo dueBefore).Overdue bincode "q" 6000 := by
  refine ⟨by decide +kernel, prompt_never_overdue bincode byteUuid noFormats (counter 0) .solo none
    dueBefore (by decide +kernel) (counter_increasing (by decide +kernel)) ?_ "q" (by decide +kernel)
    6000 ?_⟩
  · simp [dueBefore, calm]
  · simp [dueBefore, calm, Happening.Asks, Request.Asks, plainProto]

def afterDueSoon (engine : AppEngine) : System :=
  (System.started bincode (counter 0) engine none).final bincode byteUuid noFormats (counter 0) engine
    dueSoon

/-- What a consume and a poll find an hour after the time of the message. -/
def foundLate (engine : AppEngine) : Reply × Outcome Empty (Option (DeliveryTag × Message)) :=
  let w := (afterDueSoon engine).world (calm 3601000)
  (((Request.grpc (.consume "q")).serve bincode byteUuid noFormats (counter 0) engine w).1,
    ((Mqtt.consumeOne bincode engine "q").run (handle (counter 0)) w).1)

/-- Nobody finds the message, in either mode. -/
theorem dueSoon_overlooked :
    (foundLate .solo = (.grpc (.ok (.consumed none)), .ok none) ∧
      (afterDueSoon .solo).Overdue bincode "q" 3601000) ∧
    foundLate .flock = (.grpc (.ok (.consumed none)), .ok none) ∧
      (afterDueSoon .flock).Overdue bincode "q" 3601000 := by
  decide +kernel

end Daemon

end PelicanQ
