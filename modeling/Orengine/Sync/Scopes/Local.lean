import Orengine.Runtime.Executor.Primitive
import Orengine.Sync.Scopes.Shared
import Orengine.Sync.WaitGroups.Local

/-!
# `local_scope`

A scope of one executor, with a `LocalWaitGroup` that counts the tasks started through it.  The
model is a `Primitive` for the nested executor: `exec` runs the new task nested inside the caller,
and the last `done` runs the owner nested inside the task that finishes.  The other tasks of the
executor, which do not use the scope, are part of the model as well.
-/

namespace Orengine.Sync

open Orengine.Runtime

namespace LocalScope

/-- A task of the executor. -/
inductive Who (τ ω : Type*) where
  /-- The task that calls `local_scope`. -/
  | owner
  /-- A task that is started through the scope. -/
  | member (t : τ)
  /-- Any other task. -/
  | other (u : ω)
  deriving DecidableEq

/-- A place in the code of a task. -/
inductive Place where
  /-- At the start of a poll. -/
  | poll
  /-- In the task's own code, between two operations. -/
  | user
  /-- In the loop of `done` before the slot `i` of `stop` slots; the poll of the task returns after
  the loop. -/
  | drain (i stop : ℕ)
  deriving DecidableEq

inductive Op (τ : Type*) where
  /-- `LocalScope::exec` of the task `t`. -/
  | exec (t : τ)
  /-- `LocalScope::spawn` of the task `t`. -/
  | spawn (t : τ)
  /-- `LocalScopedHandle::poll` gets `Ready` from the future and calls `done`. -/
  | finish
  /-- The owner has the result of the body and polls `wait()`. -/
  | wait
  /-- The task goes on inside the operation it is in. -/
  | go
  deriving DecidableEq

end LocalScope

open LocalScope

/-- A `LocalScope`, its owner and its tasks. -/
structure LocalScope (τ ω : Type*) where
  wg : LocalWaitGroup (Who τ ω)
  /-- Where the owner is. -/
  owner : Scope.Owner
  task : τ → Scope.TaskState

namespace LocalScope

variable {τ ω : Type*} [DecidableEq τ] [DecidableEq ω]

/-- The scope when `local_scope` calls the body. -/
def new : LocalScope τ ω := ⟨.new, .body, fun _ => .unstarted⟩

/-- Whether the caller can use the scope: the owner in the body, or a running task. -/
def hasScope (m : LocalScope τ ω) : Who τ ω → Prop
  | .owner => m.owner = .body
  | .member u => m.task u = .running
  | .other _ => False

instance (m : LocalScope τ ω) (who : Who τ ω) : Decidable (m.hasScope who) := by
  unfold hasScope
  split <;> infer_instance

/-- What `exec` and `spawn` have in common: `wg.inc()`, and the new task. -/
def start (m : LocalScope τ ω) (t : τ) : LocalScope τ ω :=
  { m with wg := m.wg.inc, task := Function.update m.task t .running }

/-- The owner polls `wait()`; when it is ready, it goes on with `yield_now()`. -/
def pollWait (m : LocalScope τ ω) : LocalScope τ ω × Outcome (Who τ ω) Place :=
  match m.wg.pollWait .owner with
  | some wg => ({ m with wg := wg, owner := .waiting }, .returned)
  | none => ({ m with owner := .yielding }, .yieldNow)

/-- A poll of the owner. -/
def pollOwner (m : LocalScope τ ω) : LocalScope τ ω × Outcome (Who τ ω) Place :=
  match m.owner with
  | .body => (m, .goto .user)
  -- `wait()` is polled again and looks at the counter again
  | .waiting => m.pollWait
  | .yielding => ({ m with owner := .returned }, .goto .user)
  | .returned => (m, .goto .user)

/-- The task `t` finishes: its `done` up to the loop. -/
def finish (m : LocalScope τ ω) (t : τ) : LocalScope τ ω × Outcome (Who τ ω) Place :=
  ({ m with wg := m.wg.done.1, task := Function.update m.task t .finished },
    .goto (.drain 0 m.wg.done.2))

/-- One round of the loop of `done`. -/
def drain (m : LocalScope τ ω) (i stop : ℕ) :
    Option (LocalScope τ ω × Outcome (Who τ ω) Place) :=
  if i < stop then
    -- the next slot is read only now, after the tasks before it have run
    m.wg.slots[i]?.map fun u => (m, .execTask u (.drain (i + 1) stop))
  -- `LocalScopedHandle::poll` returns `Ready`, and the task is over
  else some (m, .returned)

def code (m : LocalScope τ ω) (who : Who τ ω) :
    Place → Op τ → Option (LocalScope τ ω × Outcome (Who τ ω) Place)
  | .poll, .go =>
    match who with
    | .owner => some m.pollOwner
    | _ => some (m, .goto .user)
  | .user, .exec t =>
    if m.hasScope who ∧ m.task t = .unstarted then
      some (m.start t, .execTask (.member t) .user)
    else none
  | .user, .spawn t =>
    if m.hasScope who ∧ m.task t = .unstarted then
      some (m.start t, .spawnLocalTask (.member t) .user)
    else none
  | .user, .finish =>
    match who with
    | .member t => if m.task t = .running then some (m.finish t) else none
    | _ => none
  | .user, .wait => if who = .owner ∧ m.owner = .body then some m.pollWait else none
  | .drain i stop, .go => m.drain i stop
  | _, _ => none

/-- The scope as a primitive of the executor. -/
def primitive : Primitive (Who τ ω) (LocalScope τ ω) Place (Op τ) where
  entry := .poll
  isUser k := k == .user
  code := code

/-- The executor when the scope starts: the tasks of the scope do not exist yet. -/
def init : Executor (Who τ ω) (World (Who τ ω) (LocalScope τ ω)) Place :=
  Executor.init ⟨new, fun
    | .member _ => false
    | _ => true⟩

end LocalScope

end Orengine.Sync
