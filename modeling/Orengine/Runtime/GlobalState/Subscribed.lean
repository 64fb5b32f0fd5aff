import Orengine.Utils.VecMap
import Mathlib.Data.List.Rotate
import Mathlib.Logic.Function.Basic

/-!
# `GlobalState` and `SubscribedState`

`GlobalState` knows the executors that are alive and the shared task lists of those with work
sharing; it is behind a spin lock.  Every executor has an image of it, its `SubscribedState`, and
a version: an operation on the global state stores its new version into the `SubscribedState` of
every alive executor, and an executor whose version is not the one it has processed locks the
global state and updates its image.

The model is the interleaving of any number of executors.  Every store of a version is a step, and
so is the load of `check_version_and_update_if_needed`.  What happens under the lock is visible to
nobody else: `global` is the state at the last release of the lock, and an operation in progress
has its result in `pending`.  The versions are natural numbers, and `usize::MAX`, which stands for
a version that was not processed, is `none`.

A shared task list and a task queue are known by the id of their executor.  Every id is registered
once.
-/

namespace Orengine.Runtime

open Orengine.Utils

structure GlobalState where
  version : ℕ
  /-- `states_of_alive_executors`: what it holds for a key are that executor's own
  `SubscribedState` and task queue. -/
  alive : VecMap Unit
  /-- `lists`, by the ids of their executors. -/
  lists : List ℕ

namespace GlobalState

def new : GlobalState := ⟨0, .new, []⟩

/-- `register_local_executor`, for an executor with or without a shared task list. -/
def registerLocalExecutor (g : GlobalState) (id : ℕ) (hasList : Bool) : GlobalState where
  version := g.version + 1
  alive := (g.alive.insert id ()).1
  lists := if hasList then g.lists ++ [id] else g.lists

def stopExecutor (g : GlobalState) (id : ℕ) : GlobalState where
  version := g.version + 1
  alive := g.alive.retain fun aliveExecutorId _ => aliveExecutorId != id
  lists := g.lists.filter (· != id)

def stopAllExecutors (g : GlobalState) : GlobalState where
  version := g.version + 1
  alive := g.alive.retain fun _ _ => false
  lists := []

/-- How an executor makes one of its maps anew: it clears the map and inserts a value for every
alive executor. -/
def remake {V : Type*} (g : GlobalState) (value : ℕ → V) (m : VecMap V) : VecMap V :=
  g.alive.keys.foldl (fun m id => (m.insert id (value id)).1) m.clear

end GlobalState

structure SubscribedState where
  currentVersion : ℕ
  /-- `processed_version`; `none` stands for `usize::MAX`. -/
  processedVersion : Option ℕ
  isStopped : Bool
  tasksLists : Option (List ℕ)
  executorsTaskLists : VecMap Unit

namespace SubscribedState

def new : SubscribedState := ⟨1, none, false, none, .new⟩

/-- `validate_tasks_lists` of an image that is present; `none` if the lookup fails. -/
def validateTasksLists (tasksLists : List ℕ) (executorId : ℕ) : Option (List ℕ) :=
  match tasksLists.idxOf? executorId with
  | none => none
  | some index =>
    if tasksLists.length - 1 = 0 then some []
    else some ((tasksLists.eraseIdx index).rotate index)

/-- What `register_local_executor` does with the state of the executor itself; `none` if the lookup
fails. -/
def register (s : SubscribedState) (g : GlobalState) (id : ℕ) (hasList : Bool) :
    Option SubscribedState :=
  if hasList then
    (validateTasksLists g.lists id).map fun tasksLists =>
      { s with tasksLists := some tasksLists, currentVersion := g.version, isStopped := false }
  else some { s with currentVersion := g.version, isStopped := false }

/-- The part of `check_version_and_update_if_needed` under the lock; `none` if the lookup fails. -/
def update (s : SubscribedState) (g : GlobalState) (executorId : ℕ) : Option SubscribedState :=
  let executorsTaskLists := g.remake (fun _ => ()) s.executorsTaskLists
  if g.alive.keys.any (· == executorId) then
    if s.tasksLists.isSome then
      (validateTasksLists g.lists executorId).map fun tasksLists =>
        { s with tasksLists := some tasksLists, executorsTaskLists }
    else some { s with executorsTaskLists }
  else some { s with isStopped := true }

end SubscribedState

namespace Executors

/-- Where an executor is. -/
inductive Phase where
  | unregistered
  /-- In `register_local_executor`. -/
  | registering
  /-- Outside of `check_version_and_update_if_needed`. -/
  | running
  /-- In `check_version_and_update_if_needed`, after the load; the lock comes next. -/
  | checking
  deriving DecidableEq

/-- An operation that has locked the global state. -/
structure Operation where
  /-- The global state that it leaves. -/
  result : GlobalState
  /-- The executors whose version it still has to store, in this order. -/
  stores : List ℕ
  /-- The executor that it registers. -/
  registers : Option ℕ

inductive Action where
  /-- The executor locks the global state and registers itself. -/
  | register (id : ℕ)
  /-- Somebody locks the global state and stops the executor. -/
  | stopExecutor (id : ℕ)
  /-- Somebody locks the global state and stops all executors. -/
  | stopAllExecutors
  /-- The operation in progress stores its version into the state of the next executor. -/
  | setVersion
  /-- The operation in progress unlocks the global state. -/
  | unlock
  /-- The executor calls `check_version_and_update_if_needed`: its load. -/
  | checkVersion (id : ℕ)
  /-- The executor locks the global state there and updates its image. -/
  | update (id : ℕ)
  deriving DecidableEq

end Executors

open Executors

/-- The global state and the states of all executors. -/
structure Executors where
  /-- The global state, as it was when the lock was released last. -/
  global : GlobalState
  /-- The operation that has locked the global state. -/
  pending : Option Executors.Operation
  states : ℕ → SubscribedState
  phase : ℕ → Executors.Phase
  /-- History: the executors in the order in which they were registered. -/
  order : List ℕ
  /-- Whether the lookup in `validate_tasks_lists` has failed. -/
  panicked : Bool

namespace Executors

def init : Executors := ⟨.new, none, fun _ => .new, fun _ => .unregistered, [], false⟩

/-- The state and the phase of one executor change. -/
def set (w : Executors) (id : ℕ) (s : SubscribedState) (p : Phase) : Executors :=
  { w with states := Function.update w.states id s, phase := Function.update w.phase id p }

variable (hasList : ℕ → Bool)

/-- One step; `hasList` says which executors have a shared task list. -/
def step (w : Executors) : Action → Option Executors
  | .register id =>
    if w.phase id = .unregistered ∧ w.pending.isNone then
      let g := w.global.registerLocalExecutor id (hasList id)
      match (w.states id).register g id (hasList id) with
      | none => some { w with panicked := true }
      | some s => some <|
        { w with pending := some ⟨g, g.alive.keys, some id⟩ }.set id s .registering
    else none
  | .stopExecutor id =>
    if w.pending.isNone then
      some { w with
        pending := some ⟨w.global.stopExecutor id, w.global.alive.keys, none⟩ }
    else none
  | .stopAllExecutors =>
    if w.pending.isNone then
      some { w with pending := some ⟨w.global.stopAllExecutors, w.global.alive.keys, none⟩ }
    else none
  | .setVersion =>
    match w.pending with
    | some ⟨g, id :: rest, registers⟩ =>
      some { w with
        states := Function.update w.states id { w.states id with currentVersion := g.version }
        pending := some ⟨g, rest, registers⟩ }
    | _ => none
  | .unlock =>
    match w.pending with
    | some ⟨g, [], registers⟩ =>
      some { w with
        global := g
        pending := none
        phase := fun id => if registers = some id then .running else w.phase id
        order := w.order ++ registers.toList }
    | _ => none
  | .checkVersion id =>
    if w.phase id = .running then
      let s := w.states id
      if s.processedVersion = some s.currentVersion then some w
      -- the version is marked as processed before the lock is taken
      else some (w.set id { s with processedVersion := some s.currentVersion } .checking)
    else none
  | .update id =>
    if w.phase id = .checking ∧ w.pending.isNone then
      match (w.states id).update w.global id with
      | none => some { w with panicked := true }
      | some s => some (w.set id s .running)
    else none

end Executors

end Orengine.Runtime
