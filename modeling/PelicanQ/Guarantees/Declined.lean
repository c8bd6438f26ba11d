import PelicanQ.Broker.Runs
import PelicanQ.Broker.Places

/-! # Calls that are declined

A call that ends with an error about the queue, the tag or the limit, that finds
a duplicate or that finds nothing, has made no write.  In every method the
reading comes first and a write is followed only by other ends, so this holds of
every manager, however its trees came about.
-/

namespace PelicanQ

/-- Nothing was done. -/
def Response.Declined : Response → Prop
  | .declared (.err e) | .published (.err e) | .consumed (.err e) | .acked (.err e) => e.IsDomain
  | .nacked (.err e) | .promoted (.err e) | .retained (.err e) => e.IsDomain
  | .published (.ok .deduplicated) | .consumed (.ok none) => True
  | _ => False

/-- Everything but the number of ids handed out is as before. -/
def QueueManager.Intact (before after : QueueManager) : Prop :=
  after = { before with db := { before.db with drawn := after.db.drawn } }

namespace QueueManager.Intact

theorem refl (qm : QueueManager) : qm.Intact qm := rfl

theorem trans {qm qm' qm'' : QueueManager} (first : qm.Intact qm') (second : qm'.Intact qm'') :
    qm.Intact qm'' := by
  rw [Intact] at *
  rw [second, first]

theorem currentBytes {qm qm' : QueueManager} (intact : qm.Intact qm') :
    qm'.currentBytes = qm.currentBytes := by
  rw [intact]

theorem maxBytes {qm qm' : QueueManager} (intact : qm.Intact qm') :
    qm'.maxBytes = qm.maxBytes := by
  rw [intact]

end QueueManager.Intact

/-- A call that writes nothing. -/
def Call.Reads : (β : Type) → Call β → Prop
  | _, .sled (.openTree _) | _, .sled (.containsKey ..) | _, .sled (.get ..) => True
  | _, .sled (.iter _) | _, .sled .generateId => True
  | _, .nowMs | _, .currentBytes | _, .maxBytes => True
  | _, _ => False

theorem handle_reads {ids : Nat → UInt64} (qm : QueueManager) (β : Type) (c : Call β) (s : Machine)
    (reads : Call.Reads β c) (intact : qm.Intact s.manager) :
    qm.Intact (handle ids β c s).2.manager := by
  cases c with
  | sled c =>
      cases c with
      | openTree | containsKey | get | iter => exact intact
      | generateId => exact intact.trans rfl
      | _ => cases reads
  | nowMs | currentBytes | maxBytes => exact intact
  | setCurrentBytes => cases reads

/-- The method did nothing, where returning a `quiet` value is doing nothing. -/
def Declines {α : Type} (quiet : α → Prop) : Outcome PelicanError α → Prop
  | .ok a => quiet a
  | .err e => e.IsDomain
  | .panicked | .diverged => False

/-- A method that writes nothing when it declines. -/
def Sparing {α : Type} (quiet : α → Prop) (p : Action α) : Prop :=
  ∀ (ids : Nat → UInt64) (s : Machine), Declines quiet (p.run (handle ids) s).1 →
    s.manager.Intact (p.run (handle ids) s).2.manager

namespace Sparing

variable {α β : Type} {quiet : α → Prop}

theorem of_reads {p : Action α} (only : p.Only Call.Reads) : Sparing quiet p :=
  fun _ s _ => Program.Only.preserves (fun t : Machine => s.manager.Intact t.manager)
    (handle_reads s.manager) only (.refl _)

/-- A part that only reads may come first. -/
theorem bind {p : Action β} {f : β → Action α} (only : p.Only Call.Reads)
    (rest : ∀ b, Sparing quiet (f b)) : Sparing quiet (p >>= f) := by
  intro ids s declined
  have first : s.manager.Intact (p.run (handle ids) s).2.manager :=
    Program.Only.preserves (fun t : Machine => s.manager.Intact t.manager)
      (handle_reads s.manager) only (.refl _)
  rw [Program.run_bind] at declined ⊢
  cases ran : p.run (handle ids) s with
  | mk outcome t =>
      rw [ran] at declined first
      cases outcome with
      | ok b => exact first.trans (rest b ids t declined)
      | err | panicked | diverged => exact first

/-- A method that cannot decline any more may do anything. -/
theorem of_ends {p : Action α} (ends : p.Ends (fun a => ¬quiet a) fun e => ¬e.IsDomain) :
    Sparing quiet p := by
  intro ids s declined
  cases ran : (p.run (handle ids) s).1 with
  | ok a =>
      rw [ran] at declined
      exact absurd declined (ends.ok ran)
  | err e =>
      rw [ran] at declined
      exact absurd declined (ends.err ran)
  | panicked | diverged =>
      rw [ran] at declined
      exact declined.elim

end Sparing

/-! ## Reading -/

namespace QueueManager

variable {bc : Bincode} {queue : String}

theorem only_requireQueue : (requireQueue queue).Only Call.Reads :=
  .bind (.ask trivial) fun _ => .ite trivial trivial

theorem only_policyOf : (policyOf bc queue).Only Call.Reads :=
  .bind (.ask trivial) fun _ => trivial

theorem only_slice (bytes : Bytes) (start stop : Nat) : (slice bytes start stop).Only Call.Reads :=
  .ite trivial trivial

theorem only_isDuplicate (m : Message) (policy : RetentionPolicy) :
    (isDuplicate queue m policy).Only Call.Reads := by
  unfold isDuplicate
  split
  · refine .ite (.bind (.ask trivial) fun _ => .bind (.ask trivial) fun found => ?_) trivial
    cases found with
    | none => trivial
    | some recorded =>
        exact .bind (only_slice _ _ _) fun _ => .bind (.ask trivial) fun _ => trivial
  · trivial

theorem only_checkLimit (size : UInt64) : (checkLimit size).Only Call.Reads := by
  refine .bind (.ask trivial) fun limit => ?_
  cases limit with
  | none => trivial
  | some max => exact .bind (.ask trivial) fun _ => .ite trivial trivial

theorem only_notYetDue (m : Message) : (notYetDue m).Only Call.Reads := by
  unfold notYetDue
  split
  · exact .bind (.ask trivial) fun _ => trivial
  · trivial

/-! ## The methods -/

theorem sparing_declare (policy : RetentionPolicy) :
    Sparing (fun _ => False) (declareQueueWithRetention bc queue policy) := by
  refine .bind (.ask trivial) fun found => ?_
  cases found with
  | true => exact .of_reads trivial
  | false => exact .of_ends fun _ _ _ _ _ _ _ declined => declined

theorem ends_recordDedupKey (m : Message) (policy : RetentionPolicy) {error : PelicanError → Prop} :
    (recordDedupKey queue m policy).Ends (fun _ => True) error := by
  unfold recordDedupKey
  split
  · exact fun _ _ _ => trivial
  · trivial

theorem ends_stored (m : Message) (policy : RetentionPolicy) {error : PelicanError → Prop} :
    (recordDedupKey queue m policy >>= fun _ => pure (PublishOutcome.stored m.id)).Ends
      (fun outcome => ¬outcome = .deduplicated) error :=
  (ends_recordDedupKey m policy).bind fun _ _ => nofun

theorem sparing_publish (m : Message) :
    Sparing (fun outcome => outcome = .deduplicated) (publish bc queue m) := by
  refine .bind only_requireQueue fun _ => .bind only_policyOf fun policy =>
    .bind (only_isDuplicate m policy) fun duplicate => ?_
  cases duplicate with
  | true => exact .of_reads trivial
  | false =>
      refine .bind (only_checkLimit _) fun _ => .bind (.ask trivial) fun id =>
        .bind (only_notYetDue m) fun due => .of_ends ?_
      cases due with
      | some deliverAt => exact fun _ _ _ _ => ends_stored m policy
      | none => exact fun _ _ _ _ => ends_stored m policy

theorem ends_deserialize (value : Bytes) :
    (deserialize bc value).Ends (fun _ => True) fun e => ¬e.IsDomain := by
  unfold deserialize
  split
  · trivial
  · exact id

theorem ends_slice (bytes : Bytes) (start stop : Nat) {error : PelicanError → Prop} :
    (slice bytes start stop).Ends (fun _ => True) error :=
  .ite trivial trivial

theorem sparing_consume : Sparing (fun found => found = none) (consume bc queue) := by
  refine .bind only_requireQueue fun _ => .bind (.ask trivial) fun _ =>
    .bind (.ask trivial) fun _ => .bind (.ask trivial) fun entries => ?_
  cases entries.head? with
  | none => exact .of_reads trivial
  | some e =>
      refine .bind (only_slice _ _ _) fun _ => .of_ends fun taken => ?_
      cases taken with
      | none => trivial
      | some value => exact (ends_deserialize value).bind fun _ _ => nofun

theorem sparing_ack (tag : DeliveryTag) : Sparing (fun _ => False) (ack queue tag) := by
  refine .bind only_requireQueue fun _ => .bind (.ask trivial) fun _ ids s declined => ?_
  cases present : (s.db.trees (inflightTreeName queue)).get tag.toBeBytes with
  | none =>
      rw [run_remove_absent ids s _ present]
      rfl
  | some value =>
      rw [run_remove_present ids s _ present] at declined
      exact declined.elim

theorem sparing_nack (tag : DeliveryTag) : Sparing (fun _ => False) (nack bc queue tag) := by
  refine .bind only_requireQueue fun _ => .bind only_policyOf fun policy =>
    .bind (.ask trivial) fun _ => .bind (.ask trivial) fun _ => .bind (.ask trivial) fun _ =>
      .bind (.ask trivial) fun id ids s declined => ?_
  cases ran : (returnTx bc queue policy tag id).run s.db.trees [] with
  | none =>
      rw [run_transaction_abort ids s _ ran]
      rfl
  | some result =>
      rw [run_transaction_commit ids s _ ran] at declined
      exact declined.elim

theorem ends_collectDue (now : Int64) (entries : List (Bytes × Bytes))
    {error : PelicanError → Prop} : (collectDue now entries).Ends (fun _ => True) error := by
  induction entries with
  | nil => trivial
  | cons e entries ih =>
      exact (ends_slice _ _ _).bind fun _ _ => .ite trivial (ih.bind fun _ _ => trivial)

theorem ends_promoteEach (entries : List (Bytes × Bytes)) (promoted : Nat) :
    (promoteEach bc queue entries promoted).Ends (fun _ => True) fun e => ¬e.IsDomain := by
  induction entries generalizing promoted with
  | nil => trivial
  | cons e entries ih =>
      refine (ends_deserialize e.2).bind fun _ _ => fun _ taken => ?_
      cases taken with
      | none => exact ih promoted
      | some => exact ih (promoted + 1)

theorem sparing_promoteScheduled : Sparing (fun _ => False) (promoteScheduled bc queue) := by
  refine .bind only_requireQueue fun _ => .of_ends fun _ _ _ entries => ?_
  exact (ends_collectDue _ _).bind fun due _ => (ends_promoteEach due 0).mono fun _ _ => id

theorem ends_removeAll (keys : List Bytes) {error : PelicanError → Prop} :
    (removeAll queue keys).Ends (fun _ => True) error := by
  induction keys with
  | nil => trivial
  | cons key keys ih => exact fun _ => ih

theorem ends_collectExpired (now maxAgeMs : Int64) (entries : List (Bytes × Bytes)) :
    (collectExpired bc now maxAgeMs entries).Ends (fun _ => True) fun e => ¬e.IsDomain := by
  induction entries with
  | nil => trivial
  | cons e entries ih =>
      exact (ends_deserialize e.2).bind fun _ _ => ih.bind fun _ _ => trivial

theorem ends_removeExpired (maxAgeSecs : Option UInt64) :
    (removeExpired bc queue maxAgeSecs).Ends (fun _ => True) fun e => ¬e.IsDomain := by
  cases maxAgeSecs with
  | none => trivial
  | some secs =>
      exact fun _ _ => (ends_collectExpired _ _ _).bind fun keys _ =>
        (ends_removeAll keys).bind fun _ _ => trivial

theorem ends_removeExcess (maxMessages : Option UInt64) {error : PelicanError → Prop} :
    (removeExcess queue maxMessages).Ends (fun _ => True) error := by
  cases maxMessages with
  | none => trivial
  | some count => exact fun _ => .ite ((ends_removeAll _).bind fun _ _ => trivial) trivial

theorem ends_recalculateBytes {error : PelicanError → Prop} :
    recalculateBytes.Ends (fun _ => True) error := by
  refine fun entries => ?_
  have sum (names : List String) (total : UInt64) : (names.foldlM (fun total name => do
      let total ← addTreeBytes total name
      let total ← addTreeBytes total (inflightTreeName name)
      let total ← addTreeBytes total (dlqTreeName name)
      let total ← addTreeBytes total (scheduledTreeName name)
      addTreeBytes total (dedupTreeName name)) total : Action UInt64).Ends (fun _ => True) error := by
    induction names generalizing total with
    | nil => trivial
    | cons name names ih =>
        rw [List.foldlM_cons]
        exact fun _ _ _ _ _ _ _ _ _ _ => ih _
  exact sum _ 0

theorem sparing_applyRetention : Sparing (fun _ => False) (applyRetention bc queue) := by
  refine .bind only_requireQueue fun _ => .bind only_policyOf fun policy => .of_ends ?_
  refine .ite id fun _ => (ends_removeExpired _).bind fun _ _ =>
    (ends_removeExcess _).bind fun _ _ => .ite ?_ id
  exact ends_recalculateBytes.bind fun _ _ _ => id

end QueueManager

/-! ## Operations -/

theorem Sparing.perform {α : Type} {quiet : α → Prop} {p : Action α} (sparing : Sparing quiet p)
    {make : Outcome PelicanError α → Response}
    (declines : ∀ outcome, (make outcome).Declined → Declines quiet outcome) (ids : Nat → UInt64)
    (clock : Nat → Int64) (qm : QueueManager)
    (declined : ((exec ids clock p qm).map make id).1.Declined) :
    qm.Intact ((exec ids clock p qm).map make id).2 :=
  sparing ids ⟨qm, clock⟩ (declines _ declined)

/-- A call that declines changes nothing, whatever manager it is made on. -/
theorem perform_intact (bc : Bincode) (ids : Nat → UInt64) (clock : Nat → Int64) (qm : QueueManager)
    (op : Operation) (declined : (op.perform bc ids clock qm).1.Declined) :
    qm.Intact (op.perform bc ids clock qm).2 := by
  cases op with
  | declareQueueWithRetention name policy =>
      refine (QueueManager.sparing_declare policy).perform (fun outcome => ?_) ids clock qm declined
      cases outcome <;> exact id
  | publish queue message =>
      refine (QueueManager.sparing_publish message).perform (fun outcome => ?_) ids clock qm declined
      rcases outcome with (_ | _) | _ | _ | _
      · exact False.elim
      · exact fun _ => rfl
      · exact id
      · exact id
      · exact id
  | consume queue =>
      refine QueueManager.sparing_consume.perform (fun outcome => ?_) ids clock qm declined
      rcases outcome with (_ | _) | _ | _ | _
      · exact fun _ => rfl
      · exact False.elim
      · exact id
      · exact id
      · exact id
  | ack queue tag =>
      refine (QueueManager.sparing_ack tag).perform (fun outcome => ?_) ids clock qm declined
      cases outcome <;> exact id
  | nack queue tag =>
      refine (QueueManager.sparing_nack tag).perform (fun outcome => ?_) ids clock qm declined
      cases outcome <;> exact id
  | promoteScheduled queue =>
      refine QueueManager.sparing_promoteScheduled.perform (fun outcome => ?_) ids clock qm declined
      cases outcome <;> exact id
  | applyRetention queue =>
      refine QueueManager.sparing_applyRetention.perform (fun outcome => ?_) ids clock qm declined
      cases outcome <;> exact id
  | reopen maxBytes => exact False.elim declined

/-! ## Queues that are not there -/

theorem Transition.declares {ids : Nat → UInt64} {b b' : Broker} {op : Operation} {r : Response}
    {moves : List (String × Move)} (step : Transition ids b op r moves b') {q : String}
    (new : q ∈ op.declares) : ∃ st, b'.queue q = some st := by
  cases step with
  | «exists» declared =>
      rw [List.mem_singleton.mp new]
      exact ⟨_, declared⟩
  | declared =>
      rw [List.mem_singleton.mp new]
      exact ⟨_, (OrdMap.get_insert _ _ _ _).trans (if_pos rfl)⟩
  | @notFound op _ _ missing =>
      cases op with
      | declareQueueWithRetention => cases missing
      | _ => cases new
  | _ => cases new

/-- The queues of a run are those that it declares. -/
theorem run_declared (bc : Bincode) (ids : Nat → UInt64) (maxBytes : Option UInt64)
    (steps : List Step) (apart : NonColliding (declaredNames steps)) :
    ∃ b, Refines bc (final bc ids (started bc ids maxBytes) steps) b ∧
      ∀ q, b.queue q = none ↔ q ∉ declaredNames steps := by
  obtain ⟨b, refines, known, kept⟩ := run_refines bc ids maxBytes
    (fun steps b => ∀ q ∈ declaredNames steps, ∃ st, b.queue q = some st)
    (fun _ member => (List.not_mem_nil member).elim)
    (fun past step b kept before _ _ q member => by
      obtain ⟨moves, transition⟩ := perform_transition ids bc step.clock b before.held.utf8 step.op
      rw [declaredNames_append] at member
      rcases List.mem_append.mp member with old | new
      · obtain ⟨st, declared⟩ := kept q old
        obtain ⟨st', declared', -⟩ := transition.path.policy declared
        exact ⟨st', declared'⟩
      · exact transition.declares new)
    steps apart
  refine ⟨b, refines, fun q => ⟨fun undeclared member => ?_, fun absent => ?_⟩⟩
  · obtain ⟨st, declared⟩ := kept q member
    rw [undeclared] at declared
    cases declared
  · rw [Option.eq_none_iff_forall_ne_some]
    exact fun st declared => absent (known q (refines.held.mem_names.mpr ⟨st, declared⟩))

/-- In every run, a call that declines leaves every tree, the registered queues, the policies and
    the byte count as they are; and an operation on a queue answers that there is none exactly
    when the run did not declare it. -/
theorem declined_intact (bc : Bincode) (ids : Nat → UInt64) (maxBytes : Option UInt64)
    (steps : List Step) (apart : NonColliding (declaredNames steps)) (step : Step) :
    ((step.op.perform bc ids step.clock (final bc ids (started bc ids maxBytes) steps)).1.Declined →
      (final bc ids (started bc ids maxBytes) steps).Intact
        (step.op.perform bc ids step.clock (final bc ids (started bc ids maxBytes) steps)).2) ∧
    ∀ q missing, step.op.missing = some (q, missing) →
      ((step.op.perform bc ids step.clock (final bc ids (started bc ids maxBytes) steps)).1 =
        missing ↔ q ∉ declaredNames steps) := by
  refine ⟨perform_intact bc ids step.clock _ step.op, fun q missing on => ?_⟩
  obtain ⟨b, refines, declared⟩ := run_declared bc ids maxBytes steps apart
  have known : NonColliding (step.op.declares ++ b.names) := by
    have nothing : step.op.declares = [] := by
      cases step with | mk op clock => cases op <;> first | rfl | cases on
    rw [nothing]
    exact refines.held.apart
  rw [(perform_refines ids step.clock refines step.op known).1,
    b.perform_missing bc ids step.clock on, declared]

/-- One message in flight and one ready. -/
def twoHeld : List Step :=
  [⟨.declareQueueWithRetention "q" default, fun _ => 0⟩,
    ⟨.publish "q" ⟨1, [], [], 0, 0, 0, none, none⟩, fun _ => 0⟩,
    ⟨.publish "q" ⟨2, [], [], 0, 0, 0, none, none⟩, fun _ => 0⟩,
    ⟨.consume "q", fun _ => 0⟩]

/-- A limit that leaves no room for a third message. -/
def twoHeldManager : QueueManager :=
  final bincode (counter 0) (started bincode (counter 0) (some 120)) twoHeld

theorem twoHeld_declines :
    ((Operation.publish "q" ⟨3, [], [], 0, 0, 0, none, none⟩).perform bincode (counter 0)
        (fun _ => 0) twoHeldManager).1 = .published (.err (.storageLimitExceeded 91 100)) ∧
      twoHeldManager.Intact ((Operation.publish "q" ⟨3, [], [], 0, 0, 0, none, none⟩).perform bincode
        (counter 0) (fun _ => 0) twoHeldManager).2 ∧
      ((Operation.consume "r").perform bincode (counter 0) (fun _ => 0) twoHeldManager).1 =
        .consumed (.err (.queueNotFound "r")) := by
  have full : ((Operation.publish "q" ⟨3, [], [], 0, 0, 0, none, none⟩).perform bincode (counter 0)
      (fun _ => 0) twoHeldManager).1 = .published (.err (.storageLimitExceeded 91 100)) := by
    decide +kernel
  refine ⟨full, ?_, ?_⟩
  · refine (declined_intact bincode (counter 0) (some 120) twoHeld (by decide)
      ⟨.publish "q" ⟨3, [], [], 0, 0, 0, none, none⟩, fun _ => 0⟩).1 ?_
    rw [← twoHeldManager, full]
    trivial
  · exact ((declined_intact bincode (counter 0) (some 120) twoHeld (by decide)
      ⟨.consume "r", fun _ => 0⟩).2 "r" _ rfl).mpr (by decide)

end PelicanQ
