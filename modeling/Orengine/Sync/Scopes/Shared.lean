import Orengine.Sync.WaitGroups.Shared

/-!
# `shared_scope`

A scope is a `WaitGroup` that counts the tasks started through it.  `shared_scope` runs the body,
awaits `wait` of the wait group, yields once and returns; the wait group is a local variable of it
and ends its life then.

The model is a client of the wait group's model: the steps of a scope that touch the wait group are
steps of it.  Its only waiter is the owner of the scope, so that the type of the waiting tasks is
`Unit`.  Tasks run on any executor and may be parked for other reasons while they are `running`;
that `exec` polls the new task at once and `spawn` enqueues it makes no difference for the steps,
since a task can run at any time after its start.
-/

namespace Orengine.Sync

namespace Scope

/-- Where the owner is in `shared_scope`. -/
inductive Owner where
  /-- It awaits the future of the body. -/
  | body
  /-- It awaits `scope.wg.wait()`. -/
  | waiting
  /-- It awaits `yield_now()`. -/
  | yielding
  /-- `shared_scope` has returned. -/
  | returned
  deriving DecidableEq

inductive TaskState where
  | unstarted
  /-- It was started through the scope, and its future has not returned `Ready`. -/
  | running
  | finished
  deriving DecidableEq

/-- A step.  In `exec` and `spawn` the caller is a task of the scope, or the owner for `none`. -/
inductive Action (ι τ : Type*) where
  /-- `Scope::exec` of the task `t` on the executor `i`. -/
  | exec (i : ι) (caller : Option τ) (t : τ)
  /-- `Scope::spawn` of the task `t` on the executor `i`. -/
  | spawn (i : ι) (caller : Option τ) (t : τ)
  /-- `ScopedHandle::poll` of `t` on the executor `i` gets `Ready` from the future and calls
  `done`. -/
  | finish (i : ι) (t : τ)
  /-- The executor `i` makes the next step inside `done` or the handler. -/
  | go (i : ι)
  /-- The owner, on the executor `i`, has the result of the body and polls `wait()`. -/
  | wait (i : ι)
  /-- The owner polls `wait()` again and then `yield_now()`. -/
  | resume
  /-- The owner polls `yield_now()` again and returns from `shared_scope`. -/
  | leave
  deriving DecidableEq

end Scope

open Scope

/-- A `Scope`, its owner and its tasks. -/
structure Scope (ι τ : Type*) where
  wg : WaitGroup ι Unit
  /-- Where the owner is. -/
  owner : Owner
  task : τ → TaskState

namespace Scope

variable {ι τ : Type*} [DecidableEq ι] [DecidableEq τ]

/-- The scope when `shared_scope` calls the body. -/
def new : Scope ι τ := ⟨.new, .body, fun _ => .unstarted⟩

/-- Whether the caller can use the scope: the owner in the body, or a running task. -/
def hasScope (s : Scope ι τ) : Option τ → Prop
  | none => s.owner = .body
  | some u => s.task u = .running

instance (s : Scope ι τ) (caller : Option τ) : Decidable (s.hasScope caller) := by
  unfold hasScope
  split <;> infer_instance

/-- What `exec` and `spawn` have in common: `wg.inc()`, and the new task.  Each unit of the counter
is a task in memory, so that there is room for one more in a `usize`. -/
def start (s : Scope ι τ) (i : ι) (caller : Option τ) (t : τ) : Option (Scope ι τ) :=
  if s.hasScope caller ∧ s.task t = .unstarted ∧ s.wg.counter + 1 < UInt64.size then
    (s.wg.step (.add i 1)).map fun wg =>
      { s with wg := wg, task := Function.update s.task t .running }
  else none

def step (s : Scope ι τ) : Action ι τ → Option (Scope ι τ)
  | .exec i caller t => s.start i caller t
  | .spawn i caller t => s.start i caller t
  | .finish i t =>
    if s.task t = .running then
      (s.wg.step (.done i)).map fun wg =>
        { s with wg := wg, task := Function.update s.task t .finished }
    else none
  | .go i => (s.wg.step (.go i)).map fun wg => { s with wg := wg }
  | .wait i =>
    if s.owner = .body then
      (s.wg.step (.wait i ())).map fun wg => { s with wg := wg, owner := .waiting }
    else none
  | .resume =>
    if s.owner = .waiting then
      (s.wg.step (.resume ())).map fun wg => { s with wg := wg, owner := .yielding }
    else none
  -- after `yield_now()` the wait group ends its life with the scope
  | .leave => if s.owner = .yielding then some { s with owner := .returned } else none

end Scope

end Orengine.Sync
