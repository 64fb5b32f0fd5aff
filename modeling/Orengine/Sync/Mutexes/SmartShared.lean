import Mathlib.Data.Int.Notation
import Mathlib.Data.Nat.Notation
import Mathlib.Logic.Function.Basic
import Mathlib.Tactic.TypeStar

/-!
# `Mutex` and `CondVar`

The shared `Mutex` (of the module `smart_shared`) and the `CondVar` that waits for it, used by any
number of tasks.  Each access to `counter`, to `expected_count` and to a wait queue is one step:

* `unlock` reads `expected_count`, then tries to exchange `counter` from this value to 0, and then
  either resets `expected_count` or reads it, writes it back increased and pops a waiter;
* a task that is to wait is pushed to `wait_queue` by its executor only after its poll has
  returned `Pending`, while `low_level_subscribe` pushes it during the poll;
* `CondVar::wait` drops its guard at once, and the future that it returns registers the task when
  it is polled for the first time.

`expected_count` is an integer here and `counter` a natural number.  As long as both fit (`Fits`),
they are the `usize`s of the code.
-/

namespace Orengine.Sync

namespace Mutex

/-- Who spins in `try_lock_with_spinning`: the future of `lock`, or the task itself. -/
inductive Spinning where
  | lock
  | tryLockWithSpinning
  deriving DecidableEq

/-- Who calls `unlock`: the drop of a guard by the task, or that in `CondVar::wait`. -/
inductive Unlocking where
  | drop
  | wait
  deriving DecidableEq

/-- Why a task is in the wait queue of the mutex. -/
inductive Parking where
  | lock
  | subscribe
  deriving DecidableEq

inductive Pc where
  /-- It has no guard and is in no operation. -/
  | idle
  /-- It has a guard. -/
  | guard
  /-- In `try_lock_with_spinning`, before the `compare_exchange` of this step. -/
  | spin (step : ℕ) (who : Spinning)
  /-- In `MutexWait::poll`, before the `fetch_add`. -/
  | fetchAdd
  /-- Its `MutexWait` has returned `Pending`, but it is not in `wait_queue` yet. -/
  | pushing
  /-- In `wait_queue`. -/
  | parked (why : Parking)
  /-- Popped from `wait_queue` and given to an executor. -/
  | popped
  /-- In `unlock`, before it reads `expected_count` for the `compare_exchange`. -/
  | unlockLoad (who : Unlocking)
  /-- In `unlock`, before the `compare_exchange` from this value. -/
  | unlockCas (expected : ℤ) (who : Unlocking)
  /-- In `unlock`, before `expected_count.set(1)`. -/
  | unlockReset (who : Unlocking)
  /-- In `unlock`, before it reads `expected_count` in order to increase it. -/
  | unlockBump (who : Unlocking)
  /-- In `unlock`, before it writes `expected_count`, which it has read as this value. -/
  | unlockStore (read : ℤ) (who : Unlocking)
  /-- In `unlock`, in the loop that pops a waiter. -/
  | unlockPop (who : Unlocking)
  /-- Its `WaitCondVar` is in the state `Sleep`. -/
  | wait
  /-- Its `WaitCondVar` has returned `Pending`, but it is not in the `CondVar`'s queue yet. -/
  | condPushing
  /-- In the wait queue of the `CondVar`. -/
  | condParked
  /-- Popped from the `CondVar`'s queue; its `WaitCondVar` is in the state `Wake`. -/
  | notified
  /-- In `low_level_subscribe`, before it reads `expected_count`. -/
  | subscribeLoad
  /-- In `low_level_subscribe`, before it writes `expected_count`, read as this value. -/
  | subscribeStore (read : ℤ)
  /-- In `low_level_subscribe`, before the push. -/
  | subscribePush
  /-- In the loop of `notify_all`, with or without a guard. -/
  | notifyAll (holding : Bool)
  deriving DecidableEq

/-- Where a task goes on if `try_lock_with_spinning` fails. -/
def Spinning.failed : Spinning → Pc
  | .lock => .fetchAdd
  | .tryLockWithSpinning => .idle

/-- Where a task goes on after `unlock`. -/
def Unlocking.next : Unlocking → Pc
  | .drop => .idle
  | .wait => .wait

inductive Action (τ : Type*) where
  /-- `t` polls `lock()` for the first time. -/
  | lock (t : τ)
  | tryLockWithSpinning (t : τ)
  | tryLock (t : τ)
  /-- `t` drops its guard. -/
  | unlock (t : τ)
  /-- `t` awaits `subscribe()` without a condition variable. -/
  | subscribe (t : τ)
  /-- `t` calls `CondVar::wait` with its guard. -/
  | wait (t : τ)
  | notifyOne (t : τ)
  | notifyAll (t : τ)
  /-- `t` makes the next step of the operation it is in, or is polled again. -/
  | go (t : τ)
  deriving DecidableEq

end Mutex

open Mutex

/-- A `Mutex`, a `CondVar` and the tasks that use them. -/
structure Mutex (τ : Type*) where
  counter : ℕ
  expectedCount : ℤ
  /-- `wait_queue` of the mutex, the task that is popped next first. -/
  waitQueue : List τ
  /-- `wait_queue` of the `CondVar`. -/
  condQueue : List τ
  /-- Where each task is. -/
  pc : τ → Pc

namespace Mutex

variable {τ : Type*} [DecidableEq τ]

/-- `Mutex::new` and `CondVar::new`. -/
def new : Mutex τ := ⟨0, 1, [], [], fun _ => .idle⟩

/-- `counter` and `expected_count` are away from the end of a `usize`, so that nothing wraps around
and a negative `expected_count` is no value of `counter`. -/
def Fits (s : Mutex τ) : Prop :=
  s.counter < 1 <<< 63 ∧ s.expectedCount.natAbs < 1 <<< 63

instance (s : Mutex τ) : Decidable s.Fits := inferInstanceAs (Decidable (_ ∧ _))

def goto (s : Mutex τ) (t : τ) (k : Pc) : Mutex τ :=
  { s with pc := Function.update s.pc t k }

/-- `counter.compare_exchange(0, 1)` of `t`, which goes on at `failed` without a guard. -/
def tryLock (s : Mutex τ) (t : τ) (failed : Pc) : Mutex τ :=
  if s.counter = 0 then { s with counter := 1 }.goto t .guard else s.goto t failed

/-- One round of `try_lock_with_spinning`: it goes on only while the counter is 1. -/
def spin (s : Mutex τ) (t : τ) (step : ℕ) (who : Spinning) : Mutex τ :=
  if s.counter = 1 ∧ step < 6 then s.goto t (.spin (step + 1) who) else s.tryLock t who.failed

/-- `counter.fetch_add(1)` of `MutexWait::poll`. -/
def fetchAdd (s : Mutex τ) (t : τ) : Mutex τ :=
  { s with counter := s.counter + 1 }.goto t (if s.counter = 0 then .guard else .pushing)

/-- `wait_queue.push(t)`. -/
def push (s : Mutex τ) (t : τ) (why : Parking) : Mutex τ :=
  { s with waitQueue := t :: s.waitQueue }.goto t (.parked why)

/-- `counter.compare_exchange(expected, 0)` of `unlock`. -/
def unlockCas (s : Mutex τ) (t : τ) (expected : ℤ) (who : Unlocking) : Mutex τ :=
  if (s.counter : ℤ) = expected then { s with counter := 0 }.goto t (.unlockReset who)
  else s.goto t (.unlockBump who)

/-- `wait_queue.pop()` of `unlock`: the popped task is executed, and without one the loop goes
on. -/
def unlockPop (s : Mutex τ) (t : τ) (who : Unlocking) : Mutex τ :=
  match s.waitQueue with
  | [] => s
  -- the popped task finds the counter as it was: it owns the mutex
  | u :: rest => ({ s with waitQueue := rest }.goto u .popped).goto t who.next

/-- `wait_queue.pop()` of `notify_one` and `notify_all`; `none` if the queue is empty. -/
def notify (s : Mutex τ) : Option (Mutex τ) :=
  match s.condQueue with
  | [] => none
  | u :: rest => some ({ s with condQueue := rest }.goto u .notified)

/-- The next step of the operation that `t` is in. -/
def go (s : Mutex τ) (t : τ) : Option (Mutex τ) :=
  match s.pc t with
  | .idle | .guard | .parked _ | .condParked => none
  | .spin step who => some (s.spin t step who)
  | .fetchAdd => some (s.fetchAdd t)
  -- the executor pushes the task after its poll has returned `Pending`
  | .pushing => some (s.push t .lock)
  | .popped => some (s.goto t .guard)
  -- `unlock`: the argument `expected_count.get()` of the exchange, the exchange, and the two ways
  -- on from it
  | .unlockLoad who => some (s.goto t (.unlockCas s.expectedCount who))
  | .unlockCas expected who => some (s.unlockCas t expected who)
  | .unlockReset who => some ({ s with expectedCount := 1 }.goto t who.next)
  | .unlockBump who => some (s.goto t (.unlockStore s.expectedCount who))
  | .unlockStore read who => some ({ s with expectedCount := read + 1 }.goto t (.unlockPop who))
  | .unlockPop who => some (s.unlockPop t who)
  -- `WaitCondVar::poll` in the state `Sleep`: again the executor pushes the task afterwards
  | .wait => some (s.goto t .condPushing)
  | .condPushing => some ({ s with condQueue := t :: s.condQueue }.goto t .condParked)
  -- `WaitCondVar::poll` in the state `Wake`
  | .notified => some (s.tryLock t .subscribeLoad)
  -- `low_level_subscribe`: `expected_count.set(expected_count.get() - 1)` and the push
  | .subscribeLoad => some (s.goto t (.subscribeStore s.expectedCount))
  | .subscribeStore read => some ({ s with expectedCount := read - 1 }.goto t .subscribePush)
  | .subscribePush => some (s.push t .subscribe)
  | .notifyAll holding => some (s.notify.getD (s.goto t (if holding then .guard else .idle)))

/-- One step of the mutex, the condition variable and their tasks. -/
def step (s : Mutex τ) : Action τ → Option (Mutex τ)
  | .lock t => if s.pc t = .idle then some (s.goto t (.spin 0 .lock)) else none
  | .tryLockWithSpinning t =>
    if s.pc t = .idle then some (s.goto t (.spin 0 .tryLockWithSpinning)) else none
  | .tryLock t => if s.pc t = .idle then some (s.tryLock t .idle) else none
  | .unlock t => if s.pc t = .guard then some (s.goto t (.unlockLoad .drop)) else none
  | .subscribe t => if s.pc t = .idle then some (s.goto t .subscribeLoad) else none
  | .wait t => if s.pc t = .guard then some (s.goto t (.unlockLoad .wait)) else none
  | .notifyOne t =>
    if s.pc t = .idle ∨ s.pc t = .guard then some (s.notify.getD s) else none
  | .notifyAll t =>
    if s.pc t = .idle then some (s.goto t (.notifyAll false))
    else if s.pc t = .guard then some (s.goto t (.notifyAll true))
    else none
  | .go t => s.go t

end Mutex

end Orengine.Sync
