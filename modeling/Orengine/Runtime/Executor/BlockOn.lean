import Orengine.Runtime.Executor.WorkSharing

/-!
# `run_and_block_on_shared`

`run_and_block_on_shared` has its result in a variable `res` and spawns its future in a wrapper,
`EndLocalThreadAndWriteIntoPtr`.  In the poll in which the future is ready the wrapper writes the
result through a pointer to `res` and then stops the executor that has made it.  The task of the
wrapper is a `shared` one, so any executor may come to poll it; and `run` returns once the executor
was stopped, by whomever.

The model runs on top of the one of work sharing.  One executor, `creator`, makes the call, and
`task` is the task of the wrapper.  An executor that polls it takes no step of its own loop
meanwhile.
-/

namespace Orengine.Runtime

variable {τ R : Type*}

namespace BlockOn

/-- Where the wrapper is. -/
inductive Wrapper where
  /-- Before the call. -/
  | notSpawned
  /-- Its task is in a run queue or in a list. -/
  | scheduled
  /-- Its task waits for something. -/
  | suspended
  /-- The executor polls it. -/
  | polled (id : ℕ)
  /-- The executor polls it, and the result is written: `stop_executor` comes next. -/
  | written (id : ℕ)
  /-- The executor polls it, and it is in `stop_executor`. -/
  | stopping (id : ℕ)
  | done
  deriving DecidableEq

def Wrapper.executor : Wrapper → Option ℕ
  | .polled id | .written id | .stopping id => some id
  | _ => none

def Wrapper.hasWritten : Wrapper → Bool
  | .written _ | .stopping _ | .done => true
  | _ => false

inductive Action (τ R : Type*) where
  /-- A step of the executors. -/
  | sharing (action : WorkSharing.Action τ)
  /-- The executor resumes the task of the wrapper with `exec_task`. -/
  | resume (id : ℕ)
  /-- The future is pending, and so is the wrapper. -/
  | pending
  /-- The future is ready, and its result is written. -/
  | ready (result : R)
  /-- The wrapper calls `stop_executor`. -/
  | stopExecutor
  /-- `run` has returned, and `run_and_block_on_shared` returns. -/
  | ret

/-- The executor in whose loop a step is. -/
def loopOf : WorkSharing.Action τ → Option ℕ
  | .registry (.checkVersion id) => some id
  | .registry (.update id) => some id
  | .exec id => some id
  | .takeWork id _ _ => some id
  | .takeBatch id _ => some id
  | .gracefulStop id => some id
  | .leave id => some id
  | _ => none

/-- What `run_and_block_on_shared` returns if `res` is empty. -/
def stoppedMessage : String :=
  "The process has been stopped by stop_all_executors " ++
    "or stop_executor not in block_on future."

end BlockOn

open BlockOn

/-- The executors, and one call of `run_and_block_on_shared`. -/
structure BlockOn (τ R : Type*) where
  sharing : WorkSharing τ
  wrapper : BlockOn.Wrapper
  /-- The variable of the call. -/
  res : Option R
  /-- What the call has returned. -/
  returned : Option (Except String R)
  /-- The results that were written through the pointer when the variable was gone. -/
  strayWrites : List R

namespace BlockOn

def init : BlockOn τ R := ⟨.init, .notSpawned, none, none, []⟩

variable [DecidableEq τ] (level : ℕ → Option ℕ) (n creator : ℕ) (task : τ)

/-- Whether a step of the executors is possible.  The call spawns the task before it runs the
executor, and later the task is spawned when it has waited. -/
def allows (b : BlockOn τ R) (a : WorkSharing.Action τ) : Bool :=
  (loopOf a).all (fun id => b.wrapper.executor != some id) &&
  match a with
  | .registry (.register id) => decide (id = creator → b.wrapper ≠ .notSpawned)
  | .spawn id x _ =>
    decide (x = task → b.wrapper = .suspended ∨ b.wrapper = .notSpawned ∧ id = creator)
  | _ => true

/-- Where the wrapper is after a step of the executors. -/
def moved (b : BlockOn τ R) : WorkSharing.Action τ → Wrapper
  | .spawn _ x _ => if x = task then .scheduled else b.wrapper
  | .exec id =>
    if (b.sharing.sharedTasks id).getLast? = some task then .polled id else b.wrapper
  | .registry .unlock =>
    match b.wrapper with
    | .stopping _ => .done
    | wrapper => wrapper
  | _ => b.wrapper

/-- `res_ptr.write(Some(res))`. -/
def writeResult (b : BlockOn τ R) (result : R) : BlockOn τ R :=
  if b.returned.isSome then { b with strayWrites := b.strayWrites ++ [result] }
  else { b with res := some result }

def step (b : BlockOn τ R) : Action τ R → Option (BlockOn τ R)
  | .sharing a =>
    if b.allows creator task a then
      (b.sharing.step level n a).map fun sharing =>
        { b with sharing, wrapper := b.moved task a }
    else none
  | .resume id =>
    if b.wrapper = .suspended ∧ b.sharing.isRunning id then
      some { b with wrapper := .polled id }
    else none
  | .pending =>
    match b.wrapper with
    | .polled _ => some { b with wrapper := .suspended }
    | _ => none
  | .ready result =>
    match b.wrapper with
    | .polled id => some { b.writeResult result with wrapper := .written id }
    | _ => none
  | .stopExecutor =>
    match b.wrapper with
    | .written id =>
      (b.sharing.step level n (.registry (.stopExecutor creator))).map fun sharing =>
        { b with sharing, wrapper := .stopping id }
    | _ => none
  | .ret =>
    match b.sharing.place creator, b.returned with
    | .stopped, none =>
      some { b with returned := some (b.res.elim (.error stoppedMessage) .ok) }
    | _, _ => none

end BlockOn

end Orengine.Runtime
