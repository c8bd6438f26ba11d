import PelicanQ.Core.Runs
import PelicanQ.Core.Snapshot

/-! # Several managers and the snapshots they exchange

Each manager has a directory and an id source of its own; all read one clock that
never goes back.  An exported snapshot can be restored at any later time, into
any of the managers, and more than once.
-/

namespace PelicanQ

inductive NodeAction where
  | perform (op : Operation)
  | exportSnapshot
  /-- Restore one of the snapshots exported so far. -/
  | restoreFromSnapshot (index : Nat)

structure NodeStep where
  node : Nat
  action : NodeAction
  /-- The readings its method gets. -/
  clock : Nat → Int64

structure Nodes where
  managers : Nat → QueueManager
  snapshots : List QueueManagerSnapshot

/-- The queue a step declares. -/
def NodeAction.declares : NodeAction → List String
  | .perform op => op.declares
  | .exportSnapshot | .restoreFromSnapshot _ => []

namespace Nodes

variable (bc : Bincode) (ids : Nat → Nat → UInt64)

/-- Managers opened on empty directories. -/
def started (limits : Nat → Option UInt64) : Nodes :=
  ⟨fun node => PelicanQ.started bc (ids node) (limits node), []⟩

def set (s : Nodes) (node : Nat) (qm : QueueManager) : Nodes :=
  { s with managers := Function.update s.managers node qm }

def act (s : Nodes) (step : NodeStep) : Nodes :=
  match step.action with
  | .perform op =>
      s.set step.node (op.perform bc (ids step.node) step.clock (s.managers step.node)).2
  | .exportSnapshot =>
      match exec (ids step.node) step.clock (QueueManager.exportSnapshot bc)
        (s.managers step.node) with
      | (.ok snapshot, qm) =>
          { s.set step.node qm with snapshots := s.snapshots ++ [snapshot] }
      | (_, qm) => s.set step.node qm
  | .restoreFromSnapshot index =>
      match s.snapshots[index]? with
      | some snapshot =>
          s.set step.node
            (restoreInto bc (ids step.node) step.clock (s.managers step.node) snapshot).2
      | none => s

/-- What can be reached, and the time by then.  `names` are the names of queues that may be
    declared on the way. -/
inductive Reaches (limits : Nat → Option UInt64) (names : List String) : Int64 → Nodes → Prop where
  | start : Reaches limits names 0 (started bc ids limits)
  | act {now : Int64} {s : Nodes} (reached : Reaches limits names now s) (step : NodeStep)
      {time : Int64} (readings : ∀ i, now ≤ step.clock i ∧ step.clock i ≤ time)
      (known : ∀ a ∈ step.action.declares, a ∈ names) :
      Reaches limits names time (s.act bc ids step)

end Nodes

end PelicanQ
