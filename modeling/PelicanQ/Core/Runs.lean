import PelicanQ.Core.Execution

/-! # Runs of a manager

A run is any sequence of operations on one data directory, each with the clock
readings its method gets.  Closing and opening the directory is one of them: it
starts over from what the database holds.  Every step leaves an event with the
manager before, the response and the manager after, so what a run did can be
read off its events.
-/

namespace PelicanQ

/-- What is done to a manager. -/
inductive Operation where
  | declareQueueWithRetention (name : String) (policy : RetentionPolicy)
  | publish (queue : String) (message : Message)
  | consume (queue : String)
  | ack (queue : String) (tag : DeliveryTag)
  | nack (queue : String) (tag : DeliveryTag)
  | promoteScheduled (queue : String)
  | applyRetention (queue : String)
  /-- Drop the manager, then `QueueManager::open`. -/
  | reopen (maxBytes : Option UInt64)
  deriving DecidableEq, Repr

/-- What came back. -/
inductive Response where
  | declared (result : Outcome PelicanError Unit)
  | published (result : Outcome PelicanError PublishOutcome)
  | consumed (result : Outcome PelicanError (Option (DeliveryTag × Message)))
  | acked (result : Outcome PelicanError Unit)
  | nacked (result : Outcome PelicanError Unit)
  | promoted (result : Outcome PelicanError Nat)
  | retained (result : Outcome PelicanError Nat)
  | reopened (result : Outcome PelicanError Unit)
  deriving DecidableEq, Repr

/-- A value or an error of the domain: no panic, and no error of the database or the format. -/
def Regular {α : Type} : Outcome PelicanError α → Prop
  | .ok _ => True
  | .err e => e.IsDomain
  | .panicked | .diverged => False

def Response.Regular : Response → Prop
  | .declared r | .acked r | .nacked r | .reopened r => PelicanQ.Regular r
  | .promoted r | .retained r => PelicanQ.Regular r
  | .published r => PelicanQ.Regular r
  | .consumed r => PelicanQ.Regular r

/-- An operation and the clock readings its method gets. -/
structure Step where
  op : Operation
  clock : Nat → Int64

def Operation.perform (bc : Bincode) (ids : Nat → UInt64) (clock : Nat → Int64)
    (qm : QueueManager) : Operation → Response × QueueManager
  | .declareQueueWithRetention name policy =>
      (exec ids clock (QueueManager.declareQueueWithRetention bc name policy) qm).map .declared id
  | .publish queue message =>
      (exec ids clock (QueueManager.publish bc queue message) qm).map .published id
  | .consume queue => (exec ids clock (QueueManager.consume bc queue) qm).map .consumed id
  | .ack queue tag => (exec ids clock (QueueManager.ack queue tag) qm).map .acked id
  | .nack queue tag => (exec ids clock (QueueManager.nack bc queue tag) qm).map .nacked id
  | .promoteScheduled queue =>
      (exec ids clock (QueueManager.promoteScheduled bc queue) qm).map .promoted id
  | .applyRetention queue =>
      (exec ids clock (QueueManager.applyRetention bc queue) qm).map .retained id
  | .reopen maxBytes => (QueueManager.open bc ids clock maxBytes qm.db).map .reopened id

/-- A step that was taken. -/
structure Event where
  step : Step
  before : QueueManager
  response : Response
  after : QueueManager

section Runs

variable (bc : Bincode) (ids : Nat → UInt64)

def performed (qm : QueueManager) (step : Step) : Event :=
  let r := step.op.perform bc ids step.clock qm
  ⟨step, qm, r.1, r.2⟩

/-- The events of a run from a given manager. -/
def events (qm : QueueManager) : List Step → List Event
  | [] => []
  | step :: steps => performed bc ids qm step :: events (performed bc ids qm step).after steps

/-- The manager a run ends with. -/
def final (qm : QueueManager) (steps : List Step) : QueueManager :=
  steps.foldl (fun qm step => (performed bc ids qm step).after) qm

/-- A manager opened on an empty directory. -/
def started (maxBytes : Option UInt64) : QueueManager :=
  (QueueManager.open bc ids (fun _ => 0) maxBytes .empty).2

theorem events_append (qm : QueueManager) (steps steps' : List Step) :
    events bc ids qm (steps ++ steps') =
      events bc ids qm steps ++ events bc ids (final bc ids qm steps) steps' := by
  induction steps generalizing qm with
  | nil => rfl
  | cons step steps ih => exact congrArg (performed bc ids qm step :: ·) (ih _)

theorem final_append (qm : QueueManager) (steps steps' : List Step) :
    final bc ids qm (steps ++ steps') = final bc ids (final bc ids qm steps) steps' :=
  List.foldl_append

theorem events_steps (qm : QueueManager) (steps : List Step) :
    (events bc ids qm steps).map Event.step = steps := by
  induction steps generalizing qm with
  | nil => rfl
  | cons step steps ih => exact congrArg (step :: ·) (ih _)

/-- The last event is the last step, taken where the others end. -/
theorem events_last {qm : QueueManager} {past : List Event} {e : Event} {steps : List Step}
    (all : past ++ [e] = events bc ids qm steps) :
    ∃ before step, steps = before ++ [step] ∧ past = events bc ids qm before ∧
      e = performed bc ids (final bc ids qm before) step := by
  cases steps using List.reverseRecOn with
  | nil => exact absurd all (by simp [events])
  | append_singleton before step =>
      have last : events bc ids (final bc ids qm before) [step] =
          [performed bc ids (final bc ids qm before) step] := rfl
      rw [events_append, last] at all
      obtain ⟨same, one⟩ := List.append_inj' all rfl
      exact ⟨before, step, rfl, same, List.singleton_inj.mp one⟩

/-- No operation gives ids back. -/
theorem drawn_le_perform (clock : Nat → Int64) (qm : QueueManager) (op : Operation) :
    qm.db.drawn ≤ (op.perform bc ids clock qm).2.db.drawn := by
  cases op with
  | declareQueueWithRetention => exact drawn_le_run ids ⟨qm, clock⟩ _
  | publish => exact drawn_le_run ids ⟨qm, clock⟩ _
  | consume => exact drawn_le_run ids ⟨qm, clock⟩ _
  | ack => exact drawn_le_run ids ⟨qm, clock⟩ _
  | nack => exact drawn_le_run ids ⟨qm, clock⟩ _
  | promoteScheduled => exact drawn_le_run ids ⟨qm, clock⟩ _
  | applyRetention => exact drawn_le_run ids ⟨qm, clock⟩ _
  | reopen maxBytes => exact drawn_le_run ids ⟨⟨qm.db, 0, maxBytes⟩, clock⟩ _

theorem drawn_le_final (qm : QueueManager) (steps : List Step) :
    qm.db.drawn ≤ (final bc ids qm steps).db.drawn := by
  induction steps generalizing qm with
  | nil => exact Nat.le_refl _
  | cons step steps ih => exact (drawn_le_perform bc ids step.clock qm step.op).trans (ih _)

end Runs

/-- The queue an operation is on. -/
def Operation.on : Operation → Option String
  | .declareQueueWithRetention name _ => some name
  | .publish queue _ | .consume queue | .ack queue _ | .nack queue _ => some queue
  | .promoteScheduled queue | .applyRetention queue => some queue
  | .reopen _ => none

/-- Only a restart is on no queue. -/
theorem Operation.on_none (op : Operation) (none : op.on = none) :
    ∃ maxBytes, op = .reopen maxBytes := by
  cases op with
  | reopen maxBytes => exact ⟨maxBytes, rfl⟩
  | _ => cases none

/-- The queue an operation declares. -/
def Operation.declares : Operation → List String
  | .declareQueueWithRetention name _ => [name]
  | _ => []

/-- The queue names a run declares or tries to. -/
def declaredNames (steps : List Step) : List String := steps.flatMap fun step => step.op.declares

/-- Ids increase, as far as a database has handed them out. -/
def Increasing (ids : Nat → UInt64) (qm : QueueManager) : Prop :=
  StrictMonoOn ids (Set.Iio qm.db.drawn)

/-- The ids handed out for the first steps are among those for all. -/
theorem Increasing.upToSteps {bc : Bincode} {ids : Nat → UInt64} {qm : QueueManager}
    {steps steps' : List Step} (increasing : Increasing ids (final bc ids qm (steps ++ steps'))) :
    Increasing ids (final bc ids qm steps) := by
  rw [final_append] at increasing
  exact increasing.mono (Set.Iio_subset_Iio (drawn_le_final bc ids _ steps'))

theorem Increasing.before {bc : Bincode} {ids : Nat → UInt64} {qm : QueueManager}
    {steps : List Step} {step : Step}
    (increasing : Increasing ids (final bc ids qm (steps ++ [step]))) :
    Increasing ids (final bc ids qm steps) := increasing.upToSteps

/-- A database that counts its ids up from a first one. -/
def counter (first : Nat) : Nat → UInt64 := fun i => UInt64.ofNat (first + i)

theorem counter_lt {first i j : Nat} (less : i < j) (small : first + j < 2 ^ 64) :
    counter first i < counter first j := by
  rw [counter, counter, UInt64.lt_iff_toNat_lt, UInt64.toNat_ofNat_of_lt', UInt64.toNat_ofNat_of_lt']
  · omega
  · simp only [UInt64.size]
    omega
  · simp only [UInt64.size]
    omega

theorem counter_increasing {first : Nat} {qm : QueueManager}
    (small : first + qm.db.drawn ≤ 2 ^ 64) : Increasing (counter first) qm := by
  intro i _ j below less
  rw [Set.mem_Iio] at below
  exact counter_lt less (by omega)

end PelicanQ
