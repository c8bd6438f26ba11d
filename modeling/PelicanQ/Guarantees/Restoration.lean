import PelicanQ.Broker.Beside
import PelicanQ.Broker.Snapshot

/-! # Snapshots carry the queues

A snapshot that is restored into an empty manager gives a manager that exports
the same snapshot again, whatever ids it hands out.  Messages keep their order
because they are dumped in key order and the leading part of a key is computed
from the message; in-flight messages keep their tags, so a tag settles the same
message on either side.
-/

namespace PelicanQ

/-- The same messages in flight, under the same tags. -/
def SameFlights (_ : String) (st st' : QueueState) : Prop := st.inflight = st'.inflight

/-- The operations that settle a delivery. -/
inductive Operation.Settles : Operation → Prop where
  | ack (queue : String) (tag : DeliveryTag) : Settles (.ack queue tag)
  | nack (queue : String) (tag : DeliveryTag) : Settles (.nack queue tag)

section Beside

variable {bc : Bincode} {ids ids' : Nat → UInt64} {b b' : Broker}

theorem Twin.snapshot {L : Links} {st st' : QueueState} (twin : Twin L st st')
    (inflight : st.inflight = st'.inflight) : st.snapshot = st'.snapshot := by
  rw [QueueState.snapshot, QueueState.snapshot, twin.policy, twin.ready.values_eq,
    twin.scheduled.values_eq, twin.deadLetter.values_eq, inflight]

theorem Beside.exported (beside : Beside ids ids' SameFlights b b')
    (utf8 : ∀ key ∈ b.queues.keys, ∃ name : String, key = name.utf8)
    (utf8' : ∀ key ∈ b'.queues.keys, ∃ name : String, key = name.utf8) :
    b.exported = b'.exported := by
  refine exported_congr utf8 utf8' fun name => ?_
  rcases beside.cases name with ⟨none, none'⟩ | ⟨st, st', L, both⟩
  · rw [none, none']
  · rw [both.declared, both.declared']
    exact congrArg some (both.twin.snapshot both.related)

/-- What a restore puts into an empty broker: all but the dedup records. -/
theorem restored_beside {empty : Broker} (none : empty.queues = .empty) (sound : b.Sound ids)
    (utf8 : ∀ key ∈ b.queues.keys, ∃ name : String, key = name.utf8)
    (increasing' : StrictMonoOn ids' (Set.Iio (empty.restore bc ids' b.exported).drawn))
    {P : String → QueueState → QueueState → Prop}
    (related : ∀ name st st', b.queue name = some st → st'.inflight = st.inflight →
      st'.dedup = .empty → P name st st') :
    Beside ids ids' P b (empty.restore bc ids' b.exported) := by
  intro name
  have undeclared : empty.queue name = .none := by rw [Broker.queue, none, OrdMap.get_empty]
  cases declared : b.queue name with
  | none =>
      rw [restore_queue_other bc empty utf8 declared, undeclared]
      exact .none
  | some st =>
      obtain ⟨n, -, fits, queue⟩ := restore_queue ids' bc empty utf8 declared
      rw [queue, undeclared]
      obtain ⟨L, valid, twin, inflight, dedup⟩ := restored_twin n (sound.queues name st declared)
        (increasing'.mono (Set.Iio_subset_Iio fits))
      exact .some ⟨⟨L, valid.later (Nat.le_refl _) fits, twin⟩,
        related name st _ declared inflight dedup⟩

/-- A settling operation finds the same on both sides. -/
theorem Beside.settle (beside : Beside ids ids' SameFlights b b') {op : Operation}
    (settles : op.Settles) (clock : Nat → Int64)
    (increasing : StrictMonoOn ids (Set.Iio (b.perform bc ids clock op).2.drawn))
    (increasing' : StrictMonoOn ids' (Set.Iio (b'.perform bc ids' clock op).2.drawn)) :
    (b.perform bc ids clock op).1 = (b'.perform bc ids' clock op).1 ∧
      Beside ids ids' SameFlights (b.perform bc ids clock op).2 (b'.perform bc ids' clock op).2 := by
  obtain ⟨q, on⟩ : ∃ q, op.on = some q := by cases settles <;> exact ⟨_, rfl⟩
  have admits (b : Broker) : b.Admits bc op := by cases settles <;> exact fun _ _ => nofun
  have finds : ∀ st st' L, Counterparts ids ids' SameFlights b b' q st st' L →
      Finds L clock clock st st' op op ∧
        SameFlights q (st.moves ids b.drawn (st.script clock op).2)
          (st'.moves ids' b'.drawn (st'.script clock op).2) := by
    intro st st' L both
    have inflight : st.inflight = st'.inflight := both.related
    refine ⟨?_, ?_⟩
    · cases settles with
      | ack queue tag => exact .ack queue (by rw [inflight])
      | nack queue tag => exact .nack queue (by rw [inflight])
    · rw [SameFlights, QueueState.inflight_script, QueueState.inflight_script]
      cases settles <;> simp only [QueueState.flight, inflight]
  obtain ⟨same, next⟩ := beside.perform clock clock on (admits b) (admits b') (fun _ => rfl) finds
    increasing increasing'
  refine ⟨same.eq ?_, next⟩
  rintro queue rfl
  cases settles

end Beside

/-- Restoring an export into an empty manager succeeds. -/
theorem restoreInto_refines {bc : Bincode} {ids : Nat → UInt64} {qm : QueueManager} {b : Broker}
    (refines : Refines bc qm b) (sound : b.Sound ids) (ids' : Nat → UInt64)
    (clock' : Nat → Int64) (maxBytes' : Option UInt64) :
    (restoreInto bc ids' clock' (started bc ids' maxBytes') b.exported).1 = .ok () ∧
      Refines bc (restoreInto bc ids' clock' (started bc ids' maxBytes') b.exported).2
        ((emptyBroker maxBytes').restore bc ids' b.exported) := by
  have utf8 := refines.held.utf8
  have names : ∀ a ∈ namesOf b.exported.queues.entries ++ (emptyBroker maxBytes').names,
      a ∈ b.names := by
    intro a member
    rw [show (emptyBroker maxBytes').names = [] from rfl, List.append_nil] at member
    exact exported_names utf8 a member
  have dated : ∀ e ∈ b.exported.queues.entries, e.2.Dated := by
    intro e listed m member
    obtain ⟨st, declared, same⟩ := exported_entry utf8 listed
    rw [← same] at member
    obtain ⟨entry, inside, rfl⟩ := List.mem_map.mp member
    obtain ⟨_, _, deliverAt, due, -⟩ := (sound.queues _ st declared).scheduled entry inside
    rw [due]
    exact nofun
  have start : Refines bc (Machine.mk (started bc ids' maxBytes') clock').manager
      (emptyBroker maxBytes') := started_refines bc ids' maxBytes'
  exact restore_refines ids' start (refines.held.apart.subset names) dated

/-- A restored manager exports what it was restored from, and a tag settles the same message
    in it as in the original. -/
theorem export_restored (bc : Bincode) (ids : Nat → UInt64) (maxBytes : Option UInt64)
    (steps : List Step) (apart : NonColliding (declaredNames steps))
    (increasing : Increasing ids (final bc ids (started bc ids maxBytes) steps)) :
    ∃ snapshot, exportOf bc ids (final bc ids (started bc ids maxBytes) steps) = .ok snapshot ∧
      ∀ ids' maxBytes' clock' restored,
        restoreInto bc ids' clock' (started bc ids' maxBytes') snapshot = restored →
        Increasing ids' restored.2 →
        restored.1 = .ok () ∧ exportOf bc ids' restored.2 = .ok snapshot ∧
          ∀ op clock e e', op.Settles →
            performed bc ids (final bc ids (started bc ids maxBytes) steps) ⟨op, clock⟩ = e →
            performed bc ids' restored.2 ⟨op, clock⟩ = e' →
            Increasing ids e.after → Increasing ids' e'.after →
            e.response = e'.response ∧ exportOf bc ids e.after = exportOf bc ids' e'.after := by
  obtain ⟨b, refines, sound, -⟩ := run_invariant bc ids maxBytes (fun _ _ => True) trivial
    (fun _ _ _ _ _ _ _ => trivial) steps apart increasing
  have utf8 := refines.held.utf8
  refine ⟨b.exported, exportOf_refines ids refines, ?_⟩
  rintro ids' maxBytes' clock' restored rfl increasing'
  obtain ⟨ok, after⟩ := restoreInto_refines refines sound ids' clock' maxBytes'
  have beside : Beside ids ids' SameFlights b _ := restored_beside rfl sound utf8
    (after.increasing increasing') fun _ _ _ _ inflight _ => inflight.symm
  refine ⟨ok, ?_, ?_⟩
  · exact (exportOf_refines ids' after).trans
      (congrArg _ (beside.exported utf8 after.held.utf8).symm)
  · rintro op clock e e' settles rfl rfl upTo upTo'
    have known (b : Broker) : op.declares ++ b.names = b.names := by cases settles <;> rfl
    obtain ⟨response, next⟩ := perform_refines ids clock refines op
      ((known b).symm ▸ refines.held.apart)
    obtain ⟨response', next'⟩ := perform_refines ids' clock after op
      ((known _).symm ▸ after.held.apart)
    obtain ⟨same, beside'⟩ := beside.settle settles clock (next.increasing upTo)
      (next'.increasing upTo')
    refine ⟨response.trans (same.trans response'.symm), ?_⟩
    have exports := beside'.exported next.held.utf8 next'.held.utf8
    exact (exportOf_refines ids next).trans ((congrArg _ exports).trans
      (exportOf_refines ids' next').symm)

/-- A run that leaves a message in each of the four stores. -/
def mixedRun : List Step :=
  [⟨.declareQueueWithRetention "q" ⟨none, none, some 1, none⟩, fun _ => 5⟩,
    ⟨.publish "q" ⟨1, [], [], 0, 0, 3, none, none⟩, fun _ => 5⟩,
    ⟨.publish "q" ⟨2, [], [], 0, 0, 9, none, none⟩, fun _ => 5⟩,
    ⟨.publish "q" ⟨3, [], [], 0, 0, 7, none, none⟩, fun _ => 5⟩,
    ⟨.publish "q" ⟨4, [], [], 0, 0, 0, some 50, none⟩, fun _ => 5⟩,
    ⟨.consume "q", fun _ => 5⟩,
    ⟨.nack "q" 1, fun _ => 5⟩,
    ⟨.consume "q", fun _ => 5⟩]

def mixedSnapshot : QueueManagerSnapshot :=
  ⟨OrdMap.empty.insert ⟨"q"⟩
    { policy := ⟨none, none, some 1, none⟩
      messages := [⟨1, [], [], 0, 0, 3, none, none⟩]
      scheduled := [⟨4, [], [], 0, 0, 0, some 50, none⟩]
      inflight := [(2, ⟨3, [], [], 0, 0, 7, none, none⟩)]
      deadLetter := [⟨2, [], [], 0, 1, 9, none, none⟩] }⟩

theorem mixedRun_restored :
    exportOf bincode (counter 0) (final bincode (counter 0) (started bincode (counter 0) none)
        mixedRun) = .ok mixedSnapshot ∧
      exportOf bincode (counter 40) (restoreInto bincode (counter 40) (fun _ => 5)
        (started bincode (counter 40) none) mixedSnapshot).2 = .ok mixedSnapshot := by
  have drawn : (final bincode (counter 0) (started bincode (counter 0) none) mixedRun).db.drawn =
      5 := by
    decide +kernel
  have value : exportOf bincode (counter 0) (final bincode (counter 0)
      (started bincode (counter 0) none) mixedRun) = .ok mixedSnapshot := by
    decide +kernel
  have drawn' : (restoreInto bincode (counter 40) (fun _ => 5) (started bincode (counter 40) none)
      mixedSnapshot).2.db.drawn = 3 := by
    decide +kernel
  obtain ⟨snapshot, exports, rest⟩ := export_restored bincode (counter 0) none mixedRun (by decide)
    (counter_increasing (by rw [drawn]; decide))
  rw [value, Outcome.ok.injEq] at exports
  subst exports
  exact ⟨value, (rest (counter 40) none (fun _ => 5) _ rfl
    (counter_increasing (by rw [drawn']; decide))).2.1⟩

end PelicanQ
