import Orengine.Runtime.Executor.Primitive

/-!
# `LocalMutex` and `LocalCondVar`

The mutex of one executor and the condition variable that waits for it.  `unlock` hands the mutex
to the task that was queued last and runs it nested inside itself; `notify_one` and `notify_all`
run the tasks that they notify nested as well.  The model is a `Primitive` for the nested executor.

`LocalCondVar::wait` takes the guard by value and drops it before it returns, so that it unlocks
the mutex at once; the future that it returns is in the state `Sleep` and puts its task into the
wait queue when it is polled for the first time, which the place `Place.sleep` stands for.
-/

namespace Orengine.Sync

open Orengine.Runtime

namespace LocalMutex

/-- `WaitState` of a `WaitLocalCondVar` that has been polled. -/
inductive WaitState where
  | wake
  | lock
  deriving DecidableEq

/-- The future that a parked task awaits. -/
inductive Waiting where
  /-- A `LocalMutexWait`, or the future of `subscribe`, that has been polled. -/
  | lock
  /-- A `WaitLocalCondVar`. -/
  | condVar (state : WaitState)
  deriving DecidableEq

/-- A place in the code of a task. -/
inductive Place where
  /-- At the start of a poll. -/
  | poll
  /-- In the task's own code, between two operations. -/
  | user
  /-- It is about to poll the future of `LocalCondVar::wait` for the first time. -/
  | sleep
  /-- In the loop of `notify_all`. -/
  | notifyAll
  deriving DecidableEq

/-- An operation of the mutex or the condition variable. -/
inductive Op where
  | lock
  | tryLock
  /-- The task drops its guard. -/
  | unlock
  /-- It awaits `subscribe()` without a condition variable. -/
  | subscribe
  /-- It awaits `LocalCondVar::wait` with its guard. -/
  | wait
  | notifyOne
  | notifyAll
  /-- It goes on inside the operation it is in. -/
  | go
  deriving DecidableEq

end LocalMutex

open LocalMutex

/-- A `LocalMutex`, a `LocalCondVar` and the futures of the tasks that use them. -/
structure LocalMutex (τ : Type*) where
  isLocked : Bool
  /-- `wait_queue` of the mutex, the task that is popped next first. -/
  waitQueue : List τ
  /-- `wait_queue` of the `LocalCondVar`. -/
  condQueue : List τ
  /-- The future that each task awaits, if it has been polled. -/
  waiting : τ → Option LocalMutex.Waiting
  /-- Whether each task has the guard. -/
  guards : τ → Bool

namespace LocalMutex

variable {τ : Type*} [DecidableEq τ]

/-- `LocalMutex::new` and `LocalCondVar::new`. -/
def new : LocalMutex τ := ⟨false, [], [], fun _ => none, fun _ => false⟩

/-- `t` gets a guard of the mutex that is locked for it. -/
def takeGuard (m : LocalMutex τ) (t : τ) : LocalMutex τ :=
  { m with
    waiting := Function.update m.waiting t none
    guards := Function.update m.guards t true }

/-- `t` is pushed to `wait_queue` and awaits `w`. -/
def push (m : LocalMutex τ) (t : τ) (w : Waiting) : LocalMutex τ :=
  { m with
    waitQueue := t :: m.waitQueue
    waiting := Function.update m.waiting t (some w) }

def lock (m : LocalMutex τ) (t : τ) : LocalMutex τ × Outcome τ Place :=
  if m.isLocked then (m.push t .lock, .returned)
  else ({ m with isLocked := true }.takeGuard t, .goto .user)

def tryLock (m : LocalMutex τ) (t : τ) : LocalMutex τ × Outcome τ Place :=
  if m.isLocked then (m, .goto .user)
  else ({ m with isLocked := true }.takeGuard t, .goto .user)

/-- `unlock`, called with the guard of `t`; the code goes on at `k`. -/
def unlock (m : LocalMutex τ) (t : τ) (k : Place) : LocalMutex τ × Outcome τ Place :=
  let m := { m with guards := Function.update m.guards t false }
  match m.waitQueue with
  -- `is_locked` stays: the mutex is locked for `u`
  | u :: rest => ({ m with waitQueue := rest }, .execTask u k)
  | [] => ({ m with isLocked := false }, .goto k)

/-- `notify_one`, and one round of `notify_all`: the code goes on at `k` after a task was run, and
at `.user` if there was none. -/
def notify (m : LocalMutex τ) (k : Place) : LocalMutex τ × Outcome τ Place :=
  match m.condQueue with
  | u :: rest => ({ m with condQueue := rest }, .execTask u k)
  | [] => (m, .goto .user)

/-- `WaitLocalCondVar::poll` in the state `Sleep`. -/
def sleep (m : LocalMutex τ) (t : τ) : LocalMutex τ × Outcome τ Place :=
  ({ m with
      condQueue := t :: m.condQueue
      waiting := Function.update m.waiting t (some (.condVar .wake)) }, .returned)

/-- A poll of the task `t`: it polls the future it awaits, if it awaits one. -/
def poll (m : LocalMutex τ) (t : τ) : LocalMutex τ × Outcome τ Place :=
  match m.waiting t with
  | none => (m, .goto .user)
  -- whoever popped the task has left the mutex locked for it
  | some .lock => (m.takeGuard t, .goto .user)
  -- a notified task competes for the mutex with everybody else
  | some (.condVar .wake) =>
    if m.isLocked then (m.push t (.condVar .lock), .returned)
    else ({ m with isLocked := true }.takeGuard t, .goto .user)
  | some (.condVar .lock) => (m.takeGuard t, .goto .user)

def code (m : LocalMutex τ) (t : τ) : Place → Op → Option (LocalMutex τ × Outcome τ Place)
  | .poll, .go => some (m.poll t)
  | .sleep, .go => some (m.sleep t)
  | .notifyAll, .go => some (m.notify .notifyAll)
  | .user, .lock => some (m.lock t)
  | .user, .tryLock => some (m.tryLock t)
  | .user, .unlock => if m.guards t then some (m.unlock t .user) else none
  | .user, .subscribe => some (m.push t .lock, .returned)
  -- the guard is dropped inside `wait`, before the future is polled
  | .user, .wait => if m.guards t then some (m.unlock t .sleep) else none
  | .user, .notifyOne => some (m.notify .user)
  | .user, .notifyAll => some (m, .goto .notifyAll)
  | _, _ => none

/-- The mutex and the condition variable as a primitive of the executor. -/
def primitive : Primitive τ (LocalMutex τ) Place Op where
  entry := .poll
  isUser k := k == .user
  code := code

end LocalMutex

end Orengine.Sync
