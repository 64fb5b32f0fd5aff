import Orengine.Runtime.Executor.Primitive
import Orengine.Sync.WaitGroups.Local

/-!
# The tasks of a `LocalWaitGroup`

The wait group as a `Primitive` for the nested executor: the `done` that brings the counter to 0
executes the registered tasks nested inside its loop, and these may add, call `done` and wait on the
same group.

The loop is that of `Vec::drain(..)`: the length of the vector is 0 from the start, the slots are
read one by one, and what is pushed meanwhile is written from slot 0 on.  `codeWith` leaves open how
a round of the loop reads its slot; `code` reads the storage, as the source does.

The place of a `done` in its loop keeps two histories: the tasks that were registered when the
counter reached 0, and those that it has resumed.
-/

namespace Orengine.Sync

open Orengine.Runtime

namespace LocalWaitGroup

variable {τ : Type*} [DecidableEq τ]

/-- The tasks that are registered: the elements of `waited_tasks`. -/
def registered (g : LocalWaitGroup τ) : List τ := g.slots.take g.len

/-- A wait group and the futures of its tasks. -/
structure Tasks (τ : Type*) where
  group : LocalWaitGroup τ
  /-- Whether each task awaits `wait()`, while it is not being polled. -/
  waiting : τ → Bool

/-- A place in the code of a task. -/
inductive Place (τ : Type*) where
  /-- At the start of a poll. -/
  | poll
  /-- In the task's own code, between two operations. -/
  | user
  /-- In the loop of `done`, before the slot `i` of `stop` slots. -/
  | drain (i stop : ℕ) (waiters resumed : List τ)
  deriving DecidableEq

inductive Op where
  | add (n : ℕ)
  | done
  | wait
  /-- The task goes on inside the operation it is in. -/
  | go
  deriving DecidableEq

namespace Tasks

def new (capacity : ℕ) : Tasks τ := ⟨.withCapacity capacity, fun _ => false⟩

/-- `WaitLocalWaitGroup::poll` of the task `t`, which looks at the counter each time. -/
def pollWait (m : Tasks τ) (t : τ) : Tasks τ × Outcome τ (Place τ) :=
  match m.group.pollWait t with
  | some g => (⟨g, Function.update m.waiting t true⟩, .returned)
  | none => ({ m with waiting := Function.update m.waiting t false }, .goto .user)

/-- A poll of the task `t`: it polls the future it awaits, if it awaits one. -/
def poll (m : Tasks τ) (t : τ) : Tasks τ × Outcome τ (Place τ) :=
  if m.waiting t then m.pollWait t else (m, .goto .user)

/-- `LocalWaitGroup::done` up to its loop; `none` if it would take the counter below 0. -/
def done (m : Tasks τ) : Option (Tasks τ × Outcome τ (Place τ)) :=
  if 0 < m.group.count then
    some ({ m with group := m.group.done.1 },
      .goto (.drain 0 m.group.done.2 (m.group.slots.take m.group.done.2) []))
  else none

/-- One round of the loop of `done`, whose slot holds what `read` gives. -/
def drain (m : Tasks τ) (i stop : ℕ) (waiters resumed : List τ) (read : Option τ) :
    Option (Tasks τ × Outcome τ (Place τ)) :=
  if i < stop then
    read.map fun u => (m, .execTask u (.drain (i + 1) stop waiters (resumed ++ [u])))
  else some (m, .goto .user)

def codeWith (read : LocalWaitGroup τ → List τ → ℕ → Option τ) (m : Tasks τ) (t : τ) :
    Place τ → Op → Option (Tasks τ × Outcome τ (Place τ))
  | .poll, .go => some (m.poll t)
  | .user, .add n => some ({ m with group := m.group.add n }, .goto .user)
  | .user, .done => m.done
  | .user, .wait => some (m.pollWait t)
  | .drain i stop waiters resumed, .go =>
    m.drain i stop waiters resumed (read m.group waiters i)
  | _, _ => none

/-- A round of the loop reads the storage, after the tasks before it have run. -/
def code : Tasks τ → τ → Place τ → Op → Option (Tasks τ × Outcome τ (Place τ)) :=
  codeWith fun g _ i => g.slots[i]?

end Tasks

def Place.isUser : Place τ → Bool
  | .user => true
  | _ => false

/-- The wait group as a primitive of the executor. -/
def primitive : Primitive τ (Tasks τ) (Place τ) Op where
  entry := .poll
  isUser := Place.isUser
  code := Tasks.code

end LocalWaitGroup

end Orengine.Sync
