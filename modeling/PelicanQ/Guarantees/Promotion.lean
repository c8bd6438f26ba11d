import PelicanQ.Broker.Classes
import PelicanQ.Guarantees.Timeliness

/-! # What promotion does

A scan of the scheduled store stops at the first key that is not due.  Keys are
compared as unsigned bytes and times as signed words; the two orders agree
because a message is only scheduled for a time after a reading of the clock, and
readings are not negative.  What the scan finds is moved one by one, in the order
of the scan, each message to the end of its line.
-/

namespace PelicanQ

/-! ## What enters a scheduled store -/

/-- The move puts a message that has just come. -/
def Move.Stores : Move → Prop
  | .store .. => True
  | _ => False

section Enters

variable {bc : Bincode} {ids : Nat → UInt64} {clock : Nat → Int64} {b : Broker}
  {st : QueueState} {e : DueKey × Message}

theorem QueueState.move_scheduled {id : UInt64} {mv : Move} (old : ¬ mv.Stores)
    (member : e ∈ (st.move id mv).scheduled.entries) : e ∈ st.scheduled.entries := by
  cases mv with
  | store => exact absurd trivial old
  | promote key m => exact (OrdMap.mem_erase.mp member).1
  | retry tag m =>
      simp only [QueueState.move, Move.changes] at member
      split_ifs at member
      · exact member
      · exact member
  | record | deliver | settle | discard | requeue => exact member

theorem QueueState.moves_scheduled {n : Nat} {mvs : List Move} (old : ∀ mv ∈ mvs, ¬ mv.Stores)
    (member : e ∈ (st.moves ids n mvs).scheduled.entries) : e ∈ st.scheduled.entries := by
  induction mvs generalizing n st with
  | nil => exact member
  | cons mv mvs ih =>
      have here := ih (fun mv' later => old mv' (List.mem_cons_of_mem _ later)) member
      exact st.move_scheduled (old mv List.mem_cons_self) here

theorem QueueState.recordDedup_stores (st : QueueState) (m : Message) (clock : Nat → Int64) :
    ∀ mv ∈ st.recordDedup m clock, ¬ mv.Stores := by
  unfold QueueState.recordDedup
  split
  · exact List.forall_mem_singleton.mpr id
  · exact List.forall_mem_nil _

/-- Only a publish schedules. -/
theorem QueueState.script_stores (st : QueueState) (clock : Nat → Int64) (op : Operation)
    (notPublish : ∀ queue m, op ≠ .publish queue m) : ∀ mv ∈ (st.script clock op).2, ¬ mv.Stores := by
  cases op with
  | publish queue m => exact absurd rfl (notPublish queue m)
  | declareQueueWithRetention => exact List.forall_mem_nil _
  | consume =>
      simp only [QueueState.script]
      cases st.ready.entries.head? with
      | none => exact List.forall_mem_nil _
      | some e => exact List.forall_mem_singleton.mpr id
  | ack queue tag =>
      simp only [QueueState.script]
      cases st.inflight.get tag with
      | none => exact List.forall_mem_nil _
      | some m => exact List.forall_mem_singleton.mpr id
  | nack queue tag =>
      simp only [QueueState.script]
      cases st.inflight.get tag with
      | none => exact List.forall_mem_nil _
      | some m => exact List.forall_mem_singleton.mpr id
  | promoteScheduled | applyRetention | reopen =>
      intro mv member
      obtain ⟨e, -, rfl⟩ := List.mem_map.mp member
      exact id

/-- What a publish puts into a scheduled store is for a time to come, under the next id. -/
theorem QueueState.store_scheduled {n : Nat} {m : Message} {readings later : Nat → Int64}
    (member : e ∈ (st.moves ids n (.store m (notYetDue m readings).1 ::
      st.recordDedup m later)).scheduled.entries) :
    e ∈ st.scheduled.entries ∨ ∃ d, e.1 = dueKey d (ids n) ∧ readings 0 < d := by
  have stored := QueueState.moves_scheduled (st.recordDedup_stores m later) member
  unfold notYetDue at stored
  cases at_time : m.deliverAt with
  | none =>
      rw [at_time] at stored
      exact .inl stored
  | some deliverAt =>
      rw [at_time] at stored
      dsimp only at stored
      split_ifs at stored with early
      · rcases OrdMap.mem_insert.mp stored with rfl | ⟨old, -⟩
        · exact .inr ⟨deliverAt, rfl, early⟩
        · exact .inl old
      · exact .inl stored

theorem Broker.publish_scheduled {name : String} {m : Message} {st₀ : QueueState}
    (before : b.queue name = some st₀) (readings : ∀ i, 0 ≤ clock i)
    (declared : (b.publish bc ids clock name m).2.queue name = some st)
    (member : e ∈ st.scheduled.entries) :
    e ∈ st₀.scheduled.entries ∨ ∃ d, e.1 = dueKey d (ids b.drawn) ∧ 0 < d ∧
      (b.publish bc ids clock name m).2.drawn = b.drawn + 1 := by
  simp only [Broker.publish, before] at declared ⊢
  split_ifs at declared ⊢ with duplicate
  · cases before.symm.trans declared
    exact .inl member
  · cases limit : b.limitError (size bc m) with
    | some error =>
        rw [limit] at declared
        cases before.symm.trans declared
        exact .inl member
    | none =>
        rw [limit] at declared
        dsimp only at declared ⊢
        rw [queue_setBytes, moves_queue before, Option.some.injEq] at declared
        subst declared
        refine (QueueState.store_scheduled member).imp_right ?_
        rintro ⟨d, key, later⟩
        have nonneg := isDuplicate_readings (fun reading => 0 ≤ reading) st₀ m readings 0
        refine ⟨d, key, Int64.lt_of_le_of_lt nonneg later, ?_⟩
        rw [drawn_setBytes, moves_drawn before, List.map_cons, List.sum_cons]
        have recorded : ((st₀.recordDedup m (notYetDue m (st₀.isDuplicate m clock).2).2).map
            Move.draws).sum = 0 := by
          unfold QueueState.recordDedup
          split <;> rfl
        rw [recorded]
        rfl

/-- A message is in a scheduled store because it was there, or it is for a time to come. -/
theorem Broker.perform_scheduled (utf8 : ∀ key ∈ b.queues.keys, ∃ name : String, key = name.utf8)
    (readings : ∀ i, 0 ≤ clock i) (op : Operation) {name : String}
    (declared : (b.perform bc ids clock op).2.queue name = some st)
    (member : e ∈ st.scheduled.entries) :
    (∃ st₀, b.queue name = some st₀ ∧ e ∈ st₀.scheduled.entries) ∨
      ∃ d, e.1 = dueKey d (ids b.drawn) ∧ 0 < d ∧
        (b.perform bc ids clock op).2.drawn = b.drawn + 1 := by
  cases on : op.on with
  | none =>
      obtain ⟨maxBytes, rfl⟩ := op.on_none on
      cases before : b.queue name with
      | none =>
          rw [show (b.perform bc ids clock (.reopen maxBytes)).2 = b.reopen bc ids maxBytes from rfl,
            reopen_undeclared bc ids before] at declared
          cases declared
      | some st₀ =>
          obtain ⟨n, -, queue, -⟩ := reopen_script bc ids clock utf8 before maxBytes
          rw [show (b.perform bc ids clock (.reopen maxBytes)).2 = b.reopen bc ids maxBytes from rfl,
            queue] at declared
          cases declared
          exact .inl ⟨st₀, rfl, QueueState.moves_scheduled
            (st₀.script_stores clock (.reopen maxBytes) fun _ _ => nofun) member⟩
  | some q =>
      by_cases here : name = q
      · subst here
        cases before : b.queue name with
        | none =>
            rcases perform_undeclared bc ids clock on before with
              ⟨policy, -, -, fresh, -⟩ | ⟨_, -, -, same⟩
            · rw [fresh] at declared
              cases declared
              exact absurd member List.not_mem_nil
            · rw [same, before] at declared
              cases declared
        | some st₀ =>
            by_cases publish : ∃ m, op = .publish name m
            · obtain ⟨m, rfl⟩ := publish
              exact (publish_scheduled before readings declared member).imp_left fun old =>
                ⟨st₀, rfl, old⟩
            · have admits : b.Admits bc op := fun queue m same => by
                have here : queue = name := Option.some.inj ((congrArg Operation.on same).symm.trans on)
                exact absurd ⟨m, here ▸ same⟩ publish
              have script := (perform_script bc ids clock before on admits).2.queue
              rw [script] at declared
              cases declared
              refine .inl ⟨st₀, rfl, QueueState.moves_scheduled (st₀.script_stores clock op ?_) member⟩
              intro queue m same
              have here : queue = name := Option.some.inj ((congrArg Operation.on same).symm.trans on)
              exact publish ⟨m, here ▸ same⟩
      · rw [perform_queue_other bc ids clock on here] at declared
        exact .inl ⟨st, declared, member⟩

end Enters

/-! ## The order of scheduling -/

/-- The entry of a scheduled tree is there at this point of a run. -/
def IsScheduled (qm : QueueManager) (q : String) (key : Bytes) : Prop :=
  q.utf8 ∈ (qm.db.trees metaQueuesTree).keys ∧ key ∈ (qm.db.trees (scheduledTreeName q)).keys

/-- At some point of the run the first was there, and up to then the second never. -/
def ScheduledBefore (bc : Bincode) (ids : Nat → UInt64) (maxBytes : Option UInt64)
    (steps : List Step) (q : String) (key key' : Bytes) : Prop :=
  ∃ past, past <+: steps ∧ IsScheduled (final bc ids (started bc ids maxBytes) past) q key ∧
    ∀ before, before <+: past →
      ¬ IsScheduled (final bc ids (started bc ids maxBytes) before) q key'

section Runs

variable {bc : Bincode} {ids : Nat → UInt64} {maxBytes : Option UInt64} {steps : List Step}
  {b : Broker} {q : String} {st : QueueState}

/-- Every scheduled message is for a time that is not negative, and entered with the id that was
    the next one then. -/
def Entered (bc : Bincode) (ids : Nat → UInt64) (maxBytes : Option UInt64) (steps : List Step)
    (b : Broker) : Prop :=
  ∀ q st, b.queue q = some st → ∀ e ∈ st.scheduled.entries, ∃ d i, e.1 = dueKey d (ids i) ∧
    0 ≤ d ∧ ∃ past, past <+: steps ∧
      (final bc ids (started bc ids maxBytes) past).db.drawn = i + 1 ∧
        IsScheduled (final bc ids (started bc ids maxBytes) past) q (DueKey.bytes e.1)

theorem QueueState.mem_scheduled {key : DueKey} :
    DueKey.bytes key ∈ (st.tree bc .scheduled).keys ↔ key ∈ st.scheduled.keys := by
  rw [OrdMap.mem_keys, OrdMap.mem_keys, st.get_scheduled]
  simp only [Option.map_eq_some_iff]
  exact ⟨fun ⟨_, m, found, _⟩ => ⟨m, found⟩, fun ⟨m, found⟩ => ⟨_, m, found, rfl⟩⟩

theorem Refines.isScheduled {qm : QueueManager} (h : Refines bc qm b) {key : DueKey} :
    IsScheduled qm q (DueKey.bytes key) ↔
      ∃ st, b.queue q = some st ∧ key ∈ st.scheduled.keys := by
  rw [IsScheduled, h.registered]
  constructor
  · rintro ⟨⟨st, declared⟩, member⟩
    refine ⟨st, declared, ?_⟩
    rw [show qm.db.trees (scheduledTreeName q) = st.tree bc .scheduled from
      h.held.stores q st declared .scheduled, QueueState.mem_scheduled] at member
    exact member
  · rintro ⟨st, declared, member⟩
    refine ⟨⟨st, declared⟩, ?_⟩
    rw [show qm.db.trees (scheduledTreeName q) = st.tree bc .scheduled from
      h.held.stores q st declared .scheduled, QueueState.mem_scheduled]
    exact member

theorem entered_run (apart : NonColliding (declaredNames steps))
    (increasing : Increasing ids (final bc ids (started bc ids maxBytes) steps))
    (readings : ∀ step ∈ steps, ∀ i, 0 ≤ step.clock i) :
    ∃ b, Refines bc (final bc ids (started bc ids maxBytes) steps) b ∧ b.Sound ids ∧
      Entered bc ids maxBytes steps b := by
  obtain ⟨b, refines, sound, entered⟩ := run_steps bc ids maxBytes
    (fun steps b => (∀ step ∈ steps, ∀ i, 0 ≤ step.clock i) → Entered bc ids maxBytes steps b)
    (fun _ q st declared => by cases declared)
    (fun past step b entered performs readings q st declared e member => by
      have before := entered fun step' listed => readings step' (List.mem_append_left _ listed)
      have now := readings step (List.mem_append_right _ (List.mem_singleton_self step))
      rcases Broker.perform_scheduled performs.before.held.utf8 now step.op declared member with
        ⟨st₀, declared₀, old⟩ | ⟨d, key, later, drawn⟩
      · obtain ⟨d, i, key, nonneg, prior, early, at_prior⟩ := before q st₀ declared₀ e old
        exact ⟨d, i, key, nonneg, prior, early.trans (List.prefix_append ..), at_prior⟩
      · refine ⟨d, b.drawn, key, Int64.le_of_lt later, past ++ [step], List.prefix_rfl, ?_, ?_⟩
        · rw [performs.after.drawn, drawn]
        · exact performs.after.isScheduled.mpr ⟨st, declared, List.mem_map_of_mem member⟩)
    steps apart increasing
  exact ⟨b, refines, sound, entered readings⟩

theorem drawn_le_prefix (bc : Bincode) (ids : Nat → UInt64) (maxBytes : Option UInt64)
    {past : List Step} (early : past <+: steps) :
    (final bc ids (started bc ids maxBytes) past).db.drawn ≤
      (final bc ids (started bc ids maxBytes) steps).db.drawn := by
  obtain ⟨rest, rfl⟩ := early
  rw [final_append]
  exact drawn_le_final bc ids _ rest

/-- A key that was made from a later id has not been there yet. -/
theorem not_scheduled_yet (apart : NonColliding (declaredNames steps))
    (increasing : Increasing ids (final bc ids (started bc ids maxBytes) steps)) {past : List Step}
    (early : past <+: steps) {i : Nat}
    (drawn : i < (final bc ids (started bc ids maxBytes) steps).db.drawn)
    (later : (final bc ids (started bc ids maxBytes) past).db.drawn ≤ i) (d : Int64) :
    ¬ IsScheduled (final bc ids (started bc ids maxBytes) past) q (DueKey.bytes (dueKey d (ids i))) := by
  obtain ⟨rest, rfl⟩ := early
  obtain ⟨b, h, sound, -⟩ := run_steps bc ids maxBytes (fun _ _ => True) trivial
    (fun _ _ _ _ _ => trivial) past apart.upTo increasing.upToSteps
  rw [h.isScheduled]
  rintro ⟨st, declared, member⟩
  obtain ⟨e, listed, same⟩ := List.mem_map.mp member
  obtain ⟨k, below, d', -, key⟩ := (sound.queues q st declared).scheduled e listed
  have ids_eq : ids k = ids i := congrArg DueKey.id (key.symm.trans same)
  have less : k < i := by
    have bound := h.drawn
    omega
  exact (increasing (less.trans drawn) drawn less).ne ids_eq

/-- The keys of a scheduled store are in order of time, and of scheduling where times agree. -/
theorem Entered.ordered (apart : NonColliding (declaredNames steps))
    (increasing : Increasing ids (final bc ids (started bc ids maxBytes) steps))
    (entered : Entered bc ids maxBytes steps b) (declared : b.queue q = some st)
    {e e' : DueKey × Message} (member : e ∈ st.scheduled.entries) (member' : e' ∈ st.scheduled.entries)
    (less : e.1 < e'.1) :
    (DueKey.due e.1).toInt64 < (DueKey.due e'.1).toInt64 ∨
      (DueKey.due e.1).toInt64 = (DueKey.due e'.1).toInt64 ∧
        ScheduledBefore bc ids maxBytes steps q (DueKey.bytes e.1) (DueKey.bytes e'.1) := by
  obtain ⟨d, i, key, nonneg, past, early, drawn, there⟩ := entered q st declared e member
  obtain ⟨d', i', key', nonneg', past', early', drawn', -⟩ := entered q st declared e' member'
  have bound := drawn_le_prefix bc ids maxBytes early
  have bound' := drawn_le_prefix bc ids maxBytes early'
  rw [key, key', dueKey_due, dueKey_due]
  rw [key, key'] at less
  rcases Prod.Lex.lt_iff.mp less with sooner | ⟨same, smaller⟩
  · refine .inl (Int64.lt_iff_toInt_lt.mpr ?_)
    rw [Int64.toInt_of_nonneg nonneg, Int64.toInt_of_nonneg nonneg']
    exact Int.ofNat_lt.mpr (UInt64.lt_iff_toNat_lt.mp sooner)
  · have order : i < i' := by
      refine (increasing.lt_iff_lt ?_ ?_).mp smaller
      · exact Set.mem_Iio.mpr (by omega)
      · exact Set.mem_Iio.mpr (by omega)
    refine .inr ⟨congrArg UInt64.toInt64 same, past, early, key ▸ there, fun before first => ?_⟩
    have upTo := drawn_le_prefix bc ids maxBytes first
    exact not_scheduled_yet apart increasing (first.trans early) (by omega) (by omega) d'

end Runs

/-! ## Promotion -/

/-- The value is a message whose time has come. -/
def isDue (bc : Bincode) (now : Int64) (value : Bytes) : Bool :=
  match bc.message.decode value with
  | .ok m => m.deliverAt.any fun d => decide (d ≤ now)
  | .error _ => false

/-- The time a value is to be delivered at. -/
def dueAt (bc : Bincode) (value : Bytes) : Option Int64 :=
  match bc.message.decode value with
  | .ok m => m.deliverAt
  | .error _ => none

/-- What promoting is for. -/
structure PromotesExactly (bc : Bincode) (ids : Nat → UInt64) (maxBytes : Option UInt64)
    (steps : List Step) (q : String) (now : Int64) (qm qm' : QueueManager) (response : Response) :
    Prop where
  response : response = .promoted (.ok
    ((qm.db.trees (scheduledTreeName q)).entries.filter fun e => isDue bc now e.2).length)
  scheduled : (qm'.db.trees (scheduledTreeName q)).entries =
    (qm.db.trees (scheduledTreeName q)).entries.filter fun e => !isDue bc now e.2
  ready : ∀ c, readyLine bc c (qm'.db.trees q) = readyLine bc c (qm.db.trees q) ++
    (((qm.db.trees (scheduledTreeName q)).entries.filter fun e => isDue bc now e.2).map
      Prod.snd).filter (valueInClass bc c)
  ordered : ((qm.db.trees (scheduledTreeName q)).entries.filter fun e => isDue bc now e.2).Pairwise
    fun e e' => ∃ d d', dueAt bc e.2 = some d ∧ dueAt bc e'.2 = some d' ∧
      (d < d' ∨ d = d' ∧ ScheduledBefore bc ids maxBytes steps q e.1 e'.1)
  kept : ∀ name : String, name.utf8 ∈ (qm.db.trees metaQueuesTree).keys → ∀ role : Role,
    (name = q → role ≠ .ready ∧ role ≠ .scheduled) →
      qm'.db.trees (role.treeName name) = qm.db.trees (role.treeName name)

theorem takeWhile_eq_filter {α : Type} {p : α → Bool} {l : List α}
    (sorted : l.Pairwise fun a b => p b = true → p a = true) : l.takeWhile p = l.filter p := by
  induction l with
  | nil => rfl
  | cons a l ih =>
      obtain ⟨first, rest⟩ := List.pairwise_cons.mp sorted
      by_cases holds : p a = true
      · rw [List.takeWhile_cons_of_pos holds, List.filter_cons_of_pos holds, ih rest]
      · rw [List.takeWhile_cons_of_neg holds, List.filter_cons_of_neg holds, eq_comm,
          List.filter_eq_nil_iff]
        exact fun b member later => holds (first b member later)

section Promotes

variable {bc : Bincode} {ids : Nat → UInt64} {maxBytes : Option UInt64} {steps : List Step}
  {b : Broker} {q : String} {st : QueueState}

/-- The scan finds exactly the messages that are due. -/
theorem QueueState.due_eq_filter (now : Int64)
    (timed : ∀ e ∈ st.scheduled.entries, ∀ e' ∈ st.scheduled.entries, e.1 < e'.1 →
      (DueKey.due e.1).toInt64 ≤ (DueKey.due e'.1).toInt64) :
    st.due now = st.scheduled.entries.filter fun e => !decide (now < (DueKey.due e.1).toInt64) := by
  refine takeWhile_eq_filter (st.scheduled.sorted.imp_of_mem fun {e e'} member member' less later => ?_)
  simp only [Bool.not_eq_true', decide_eq_false_iff_not, Int64.not_lt] at later ⊢
  exact Int64.le_trans (timed e member e' member' less) later

/-- The entries that are due, in the tree and in the store. -/
theorem QueueState.due_entries {n : Nat} (sound : st.Sound ids n) (now : Int64)
    (p : Bool → Bool) :
    (st.tree bc .scheduled).entries.filter (fun e => p (isDue bc now e.2)) =
      (st.scheduled.entries.filter fun e => p (!decide (now < (DueKey.due e.1).toInt64))).map
        (encodedDue bc) := by
  have entries : (st.tree bc .scheduled).entries = st.scheduled.entries.map (encodedDue bc) := rfl
  rw [entries, List.filter_map]
  refine congrArg _ (List.filter_congr fun e member => ?_)
  obtain ⟨i, -, d, at_time, key⟩ := sound.scheduled e member
  have decoded : isDue bc now (encodedDue bc e).2 = !decide (now < (DueKey.due e.1).toInt64) := by
    rw [isDue, encodedDue, bc.message.decode_encode, key, dueKey_due]
    simp only [at_time, Option.any_some]
    by_cases early : now < d
    · simp [early, Int64.not_le.mpr early]
    · simp [early, Int64.not_lt.mp early]
  exact congrArg p decoded

theorem QueueState.dueAt_entry {n : Nat} (sound : st.Sound ids n) {e : DueKey × Message}
    (member : e ∈ st.scheduled.entries) :
    dueAt bc (encodedDue bc e).2 = some (DueKey.due e.1).toInt64 := by
  obtain ⟨i, -, d, at_time, key⟩ := sound.scheduled e member
  rw [dueAt, encodedDue, bc.message.decode_encode, key, dueKey_due]
  exact at_time

/-- A queue as promotion leaves it. -/
def QueueState.promoted (ids : Nat → UInt64) (n : Nat) (now : Int64) (st : QueueState) : QueueState :=
  st.moves ids n ((st.due now).map fun e => .promote e.1 e.2)

theorem Broker.promoteScheduled_queue (ids : Nat → UInt64) (clock : Nat → Int64) (declared : b.queue q = some st) :
    b.promoteScheduled ids clock q = (.ok (st.due (clock 0)).length,
        b.moves ids q ((st.due (clock 0)).map fun e => .promote e.1 e.2)) ∧
      (b.promoteScheduled ids clock q).2.queue q = some (st.promoted ids b.drawn (clock 0)) ∧
      (b.promoteScheduled ids clock q).2.drawn = b.drawn + (st.due (clock 0)).length ∧
      ∀ other, other ≠ q → (b.promoteScheduled ids clock q).2.queue other = b.queue other := by
  have shape : b.promoteScheduled ids clock q = (.ok (st.due (clock 0)).length,
      b.moves ids q ((st.due (clock 0)).map fun e => .promote e.1 e.2)) := by
    simp only [promoteScheduled, declared]
  have draws : (((st.due (clock 0)).map fun e => Move.promote e.1 e.2).map Move.draws).sum =
      (st.due (clock 0)).length := by
    have one : (Move.draws ∘ fun e : DueKey × Message => Move.promote e.1 e.2) = fun _ => 1 := rfl
    rw [List.map_map, one, List.map_const', List.sum_replicate, smul_eq_mul, Nat.mul_one]
  refine ⟨shape, ?_, ?_, fun other different => ?_⟩
  · rw [shape]
    exact moves_queue declared _
  · rw [shape, moves_drawn declared, draws]
  · rw [shape]
    exact moves_queue_other b different _

/-- The two stores that promotion changes. -/
theorem QueueState.promoted_stores (bc : Bincode) {n : Nat} {now : Int64} (ranked : Ranked ids n st.ready)
    (increasing : StrictMonoOn ids (Set.Iio (n + (st.due now).length)))
    (all : st.due now = st.scheduled.entries.filter fun e => !decide (now < (DueKey.due e.1).toInt64)) :
    (∀ c, lineIn c (st.promoted ids n now).ready =
      lineIn c st.ready ++ ((st.due now).map Prod.snd).filter (inClass c)) ∧
    (st.promoted ids n now).scheduled.entries =
      st.scheduled.entries.filter (fun e => !!decide (now < (DueKey.due e.1).toInt64)) ∧
    ∀ role, role ≠ .ready → role ≠ .scheduled → (st.promoted ids n now).tree bc role = st.tree bc role := by
  obtain ⟨arrivals, stores⟩ := st.moves_promote ids n (st.due now)
  rw [QueueState.promoted, stores]
  refine ⟨fun c => ?_, ?_, fun role notReady notScheduled => ?_⟩
  · exact lineIn_enqueue ranked (by rwa [List.length_map]) c
  · rw [all]
    exact OrdMap.foldl_erase_filter _ _
  · cases role with
    | ready => exact absurd rfl notReady
    | scheduled => exact absurd rfl notScheduled
    | inflight | deadLetter | dedup => rfl

end Promotes

/-- In every run whose queue names do not collide, promoting is exact. -/
theorem promotion_exact (bc : Bincode) (ids : Nat → UInt64) (maxBytes : Option UInt64)
    (steps : List Step) (apart : NonColliding (declaredNames steps))
    (readings : ∀ step ∈ steps, ∀ i, 0 ≤ step.clock i) (q : String) (clock : Nat → Int64)
    (increasing : Increasing ids
      (final bc ids (started bc ids maxBytes) (steps ++ [⟨.promoteScheduled q, clock⟩])))
    (registered : q.utf8 ∈
      ((final bc ids (started bc ids maxBytes) steps).db.trees metaQueuesTree).keys) :
    PromotesExactly bc ids maxBytes steps q (clock 0) (final bc ids (started bc ids maxBytes) steps)
      ((Operation.promoteScheduled q).perform bc ids clock
        (final bc ids (started bc ids maxBytes) steps)).2
      ((Operation.promoteScheduled q).perform bc ids clock
        (final bc ids (started bc ids maxBytes) steps)).1 := by
  have before := increasing.before
  rw [final_append] at increasing
  obtain ⟨b, h, sound, entered⟩ := entered_run apart before readings
  obtain ⟨st, declared⟩ := h.registered.mp registered
  obtain ⟨answer, after⟩ := promoteScheduled_refines ids
    (s := ⟨final bc ids (started bc ids maxBytes) steps, clock⟩) h q
  obtain ⟨shape, here, drawn, others⟩ := Broker.promoteScheduled_queue ids clock declared
  have own := sound.queues q st declared
  have order {e e' : DueKey × Message} (member : e ∈ st.scheduled.entries)
      (member' : e' ∈ st.scheduled.entries) (less : e.1 < e'.1) :=
    entered.ordered apart before declared member member' less
  have all := st.due_eq_filter (clock 0) fun e member e' member' less =>
    (order member member' less).elim Int64.le_of_lt fun same => Int64.le_of_eq same.1
  have upTo : StrictMonoOn ids (Set.Iio (b.drawn + (st.due (clock 0)).length)) := by
    rw [← drawn, ← after.drawn]
    exact increasing
  obtain ⟨lines, left, kept⟩ := QueueState.promoted_stores bc own.ready upTo all
  have scheduled : (final bc ids (started bc ids maxBytes) steps).db.trees (scheduledTreeName q) =
      st.tree bc .scheduled := h.held.stores q st declared .scheduled
  have found : ((st.tree bc .scheduled).entries.filter fun e => isDue bc (clock 0) e.2) =
      (st.due (clock 0)).map (encodedDue bc) := all ▸ QueueState.due_entries own (clock 0) id
  constructor
  · refine (congrArg Response.promoted answer).trans ?_
    rw [shape, scheduled, found, List.length_map]
  · have tree := after.held.stores q _ here .scheduled
    refine (congrArg OrdMap.entries tree).trans ?_
    rw [scheduled, QueueState.due_entries own (clock 0) not, ← left]
    rfl
  · intro c
    have tree := after.held.stores q _ here .ready
    have ready : (final bc ids (started bc ids maxBytes) steps).db.trees q = st.tree bc .ready :=
      h.held.stores q st declared .ready
    refine (congrArg (readyLine bc c) tree).trans ?_
    rw [QueueState.readyLine_tree, lines, List.map_append, ready, QueueState.readyLine_tree, scheduled,
      found, ← encoded_inClass, List.map_map, List.map_map]
    rfl
  · rw [scheduled, found, List.pairwise_map]
    have sublist : (st.due (clock 0)).Sublist st.scheduled.entries :=
      (List.takeWhile_prefix _).sublist
    refine (st.scheduled.sorted.sublist sublist).imp_of_mem fun {e e'} member member' less => ?_
    exact ⟨_, _, QueueState.dueAt_entry own (sublist.subset member),
      QueueState.dueAt_entry own (sublist.subset member'),
      order (sublist.subset member) (sublist.subset member') less⟩
  · intro name known role other
    obtain ⟨st', declared'⟩ := h.registered.mp known
    by_cases same : name = q
    · subst same
      obtain ⟨notReady, notScheduled⟩ := other rfl
      refine (after.held.stores name _ here role).trans ?_
      rw [kept role notReady notScheduled]
      exact (h.held.stores name st declared role).symm
    · have unchanged := (others name same).trans declared'
      exact (after.held.stores name _ unchanged role).trans
        (h.held.stores name st' declared' role).symm

/-- Two messages for the same time and one for later. -/
def waitingRun : List Step :=
  [⟨.declareQueueWithRetention "q" default, fun _ => 0⟩,
    ⟨.publish "q" ⟨1, [], [], 0, 0, 0, some 100, none⟩, fun _ => 0⟩,
    ⟨.publish "q" ⟨2, [], [], 0, 0, 0, some 100, none⟩, fun _ => 0⟩,
    ⟨.publish "q" ⟨3, [], [], 0, 0, 0, some 500, none⟩, fun _ => 0⟩]

def waitingManager : QueueManager :=
  final bincode (counter 0) (started bincode (counter 0) none) waitingRun

theorem waitingRun_promotes :
    ((Operation.promoteScheduled "q").perform bincode (counter 0) (fun _ => 200) waitingManager).1 =
        .promoted (.ok 2) ∧
      PromotesExactly bincode (counter 0) none waitingRun "q" 200 waitingManager
        ((Operation.promoteScheduled "q").perform bincode (counter 0) (fun _ => 200) waitingManager).2
        ((Operation.promoteScheduled "q").perform bincode (counter 0) (fun _ => 200) waitingManager).1 := by
  refine ⟨by decide +kernel, promotion_exact bincode (counter 0) none waitingRun (by decide) ?_ "q"
    (fun _ => 200) (counter_increasing ?_) ?_⟩
  · intro step member i
    fin_cases member <;> exact Int64.le_refl 0
  · decide +kernel
  · decide +kernel

/-- A queue with the name of another one's scheduled tree, and an urgent message in it. -/
def overlappingRun : List Step :=
  [⟨.declareQueueWithRetention "q" default, fun _ => 0⟩,
    ⟨.declareQueueWithRetention "scheduled:q" default, fun _ => 0⟩,
    ⟨.publish "scheduled:q" ⟨1, [], [], 0, 0, 9, none, none⟩, fun _ => 0⟩]

def overlappingManager : QueueManager :=
  final bincode (counter 0) (started bincode (counter 0) none) overlappingRun

/-- Promoting one queue takes a message out of the other, that was never scheduled. -/
theorem overlapping_promotes_foreign :
    ((Operation.promoteScheduled "q").perform bincode (counter 0) (fun _ => 200)
        overlappingManager).1 = .promoted (.ok 1) ∧
      (overlappingManager.db.trees "scheduled:q").values.length = 1 ∧
      (((Operation.promoteScheduled "q").perform bincode (counter 0) (fun _ => 200)
        overlappingManager).2.db.trees "scheduled:q").values = [] ∧
      ¬ PromotesExactly bincode (counter 0) none overlappingRun "q" 200 overlappingManager
        ((Operation.promoteScheduled "q").perform bincode (counter 0) (fun _ => 200)
          overlappingManager).2
        ((Operation.promoteScheduled "q").perform bincode (counter 0) (fun _ => 200)
          overlappingManager).1 := by
  have moved : ((Operation.promoteScheduled "q").perform bincode (counter 0) (fun _ => 200)
      overlappingManager).1 = .promoted (.ok 1) := by decide +kernel
  refine ⟨moved, by decide +kernel, by decide +kernel, fun exactly => ?_⟩
  have none_due : ((overlappingManager.db.trees (scheduledTreeName "q")).entries.filter
      fun e => isDue bincode 200 e.2).length = 0 := by decide +kernel
  have response := exactly.response
  rw [none_due, moved] at response
  exact absurd response (by decide)

end PelicanQ
