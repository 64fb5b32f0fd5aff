import Orengine.Lib.Reach
import Orengine.Lib.SortedMap

/-!
# `sleep`

A task that sleeps is in the map `local_sleeping_tasks` of an executor, under the time to wake it;
`Sleep::poll` looks for a vacant key, and `check_sleeping_tasks` takes out the tasks whose time has
come.

The clock of the model is read by all executors and never goes backwards.  A task that
`check_sleeping_tasks` takes out may sleep again before the loop goes on: each round of the loop is
one step, and all other steps can come between two rounds.  Sleeping tasks are told apart by the
call of `sleep` that they wait in.  Instants and durations are numbers of nanoseconds.
-/

namespace Orengine.Runtime

open Orengine.Lib

/-- `Poll<()>`. -/
inductive Poll where
  | ready
  | pending
deriving DecidableEq

structure Sleep where
  wasYielded : Bool
  sleepUntil : ℕ
deriving DecidableEq

namespace Sleep

variable {ι : Type*}

/-- `Sleep::poll`, as result, future and sleeping tasks; its loop looks for the first key that is
vacant. -/
def poll (sleep : Sleep) (sleepingTasks : SortedMap ℕ ι) (task : ι) :
    Poll × Sleep × SortedMap ℕ ι :=
  if sleep.wasYielded then (.ready, sleep, sleepingTasks)
  else
    let key := sleepingTasks.vacantFrom sleepingTasks.entries.length sleep.sleepUntil
    (.pending, ⟨true, key⟩, sleepingTasks.insert key task)

end Sleep

namespace Sleeping

/-- What happens to the sleeping tasks of an executor. -/
inductive Event (ι : Type*) where
  /-- A task is stored under a key. -/
  | slept (key : ℕ) (call : ι)
  /-- A task is taken out in a round that has started at some time. -/
  | woke (key : ℕ) (call : ι) (startRoundTime : ℕ)
deriving DecidableEq

def Event.woken? {ι : Type*} : Event ι → Option ι
  | .slept _ _ => none
  | .woke _ call _ => some call

/-- The part of an executor that is about time. -/
structure Executor (ι : Type*) where
  startRoundTime : ℕ
  /-- The field `start_round_time_for_deadlines`, which there is on Linux only. -/
  startRoundTimeForDeadlines : ℕ
  localSleepingTasks : SortedMap ℕ ι
  /-- Whether the executor is in the loop of `check_sleeping_tasks`. -/
  isChecking : Bool
  /-- What `check_sleeping_tasks` has returned. -/
  nearestTimeout : Option ℕ
  /-- The history of its sleeping tasks. -/
  log : List (Event ι)

namespace Executor

variable {ι : Type*}

/-- The 100 microseconds that are added to the start of a round. -/
def deadlineSlack : ℕ := 100000

def init (now : ℕ) : Executor ι :=
  { startRoundTime := now, startRoundTimeForDeadlines := now + deadlineSlack,
    localSleepingTasks := SortedMap.empty, isChecking := false, nearestTimeout := none, log := [] }

def prepareToNewRound (x : Executor ι) (now : ℕ) : Executor ι :=
  { x with startRoundTime := now, startRoundTimeForDeadlines := now + deadlineSlack }

/-- The function `start_round_time_for_deadlines`. -/
def startRoundTimeForDeadlinesAt (x : Executor ι) (linux : Bool) (now : ℕ) : ℕ :=
  if linux then x.startRoundTimeForDeadlines else now

/-- `check_sleeping_tasks` up to its loop. -/
def checkSleepingTasks (x : Executor ι) (now : ℕ) : Executor ι :=
  if x.localSleepingTasks.entries.isEmpty then { x with nearestTimeout := none }
  else { x with startRoundTime := now, isChecking := true }

/-- A round of the loop of `check_sleeping_tasks`, and the task that it wakes.  A difference of
instants that would be negative is zero. -/
def wakeNext (x : Executor ι) : Executor ι × Option ι :=
  match x.localSleepingTasks.popFirst with
  | none => ({ x with isChecking := false, nearestTimeout := none }, none)
  | some ((timeToWake, task), rest) =>
    if timeToWake ≤ x.startRoundTime then
      ({ x with
          localSleepingTasks := rest
          log := x.log ++ [.woke timeToWake task x.startRoundTime] }, some task)
    else
      ({ x with
          localSleepingTasks := rest.insert timeToWake task
          isChecking := false
          nearestTimeout := some (x.startRoundTime - timeToWake) }, none)

/-- `Sleep::poll` of a future that has not yielded yet stores its task. -/
def store (x : Executor ι) (sleepingTasks : SortedMap ℕ ι) (key : ℕ) (call : ι) : Executor ι :=
  { x with localSleepingTasks := sleepingTasks, log := x.log ++ [.slept key call] }

end Executor

structure Call where
  future : Sleep
  /-- The clock when `sleep` was called. -/
  calledAt : ℕ
  duration : ℕ
  /-- `sleep_until` as `sleep` has returned it. -/
  requested : ℕ
  /-- Whether `check_sleeping_tasks` has taken the task out. -/
  isTaken : Bool
  /-- The clock when `poll` has returned `Ready`. -/
  resumedAt : Option ℕ

/-- Whether the task is in the map of an executor. -/
def Call.isSleeping (c : Call) : Bool := c.future.wasYielded && !c.isTaken

inductive Action (ε ι : Type*) where
  | tick (nanos : ℕ)
  /-- The executor calls `prepare_to_new_round`. -/
  | newRound (e : ε)
  /-- A task of the executor calls `sleep`. -/
  | sleep (e : ε) (call : ι) (duration : ℕ)
  /-- The executor polls the future of a call. -/
  | poll (e : ε) (call : ι)
  /-- The executor calls `check_sleeping_tasks`. -/
  | check (e : ε)
  /-- The next round of the loop of `check_sleeping_tasks`. -/
  | next (e : ε)

end Sleeping

/-- The executors and the calls of `sleep`. -/
structure Sleeping (ε ι : Type*) where
  clock : ℕ
  executors : ε → Sleeping.Executor ι
  calls : ι → Option Sleeping.Call

namespace Sleeping

variable {ε ι : Type*}

/-- All executors start now, and nobody has called `sleep`. -/
def init (now : ℕ) : Sleeping ε ι :=
  { clock := now, executors := fun _ => Executor.init now, calls := fun _ => none }

def tasks (w : Sleeping ε ι) (e : ε) : SortedMap ℕ ι := (w.executors e).localSleepingTasks

def log (w : Sleeping ε ι) (e : ε) : List (Event ι) := (w.executors e).log

/-- `sleep` on an executor. -/
def call (linux : Bool) (w : Sleeping ε ι) (e : ε) (duration : ℕ) : Call :=
  let sleepUntil := (w.executors e).startRoundTimeForDeadlinesAt linux w.clock + duration
  { future := ⟨false, sleepUntil⟩, calledAt := w.clock, duration := duration,
    requested := sleepUntil, isTaken := false, resumedAt := none }

section Step

variable [DecidableEq ε] [DecidableEq ι]

def set (w : Sleeping ε ι) (e : ε) (x : Executor ι) : Sleeping ε ι :=
  { w with executors := Function.update w.executors e x }

def setCall (w : Sleeping ε ι) (i : ι) (c : Call) : Sleeping ε ι :=
  { w with calls := Function.update w.calls i (some c) }

/-- The task of a call was taken out. -/
def take (w : Sleeping ε ι) (i : ι) : Sleeping ε ι :=
  { w with calls := Function.update w.calls i ((w.calls i).map ({ · with isTaken := true })) }

/-- A poll of the future of a call that has not been `Ready` yet. -/
def pollCall (w : Sleeping ε ι) (e : ε) (i : ι) (c : Call) : Sleeping ε ι :=
  match c.future.poll (w.tasks e) i with
  | (.ready, _, _) => w.setCall i { c with resumedAt := some w.clock }
  | (.pending, future, sleepingTasks) =>
    (w.set e ((w.executors e).store sleepingTasks future.sleepUntil i)).setCall i
      { c with future := future }

/-- A step; `linux` says which `start_round_time_for_deadlines` there is. -/
def step (linux : Bool) (w : Sleeping ε ι) : Action ε ι → Option (Sleeping ε ι)
  | .tick nanos => some { w with clock := w.clock + nanos }
  | .newRound e =>
    if (w.executors e).isChecking then none
    else some (w.set e ((w.executors e).prepareToNewRound w.clock))
  | .sleep e i duration =>
    if (w.calls i).isSome then none else some (w.setCall i (w.call linux e duration))
  | .poll e i =>
    match w.calls i with
    | some c => if c.resumedAt.isSome then none else some (w.pollCall e i c)
    | none => none
  | .check e =>
    if (w.executors e).isChecking then none
    else some (w.set e ((w.executors e).checkSleepingTasks w.clock))
  | .next e =>
    if (w.executors e).isChecking then
      match (w.executors e).wakeNext with
      | (x, some i) => some ((w.set e x).take i)
      | (x, none) => some (w.set e x)
    else none

end Step

end Sleeping

end Orengine.Runtime
