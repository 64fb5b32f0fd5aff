import Mathlib.Data.Nat.Notation
import Mathlib.Logic.Function.Basic
import Mathlib.Tactic.TypeStar

/-!
# `WaitGroup`

The shared wait group: a counter and a list of the tasks that wait until it is 0.  `add` and `done`
are called by tasks on any executor; a task that awaits `wait` is handled by its executor, which
pushes it to the list, loads the counter and, if it has loaded 0, pops one task and executes it.

The model is the interleaving of the atomic steps.  `Thread` is where an executor is between two
of them.  It is not a place of the task: once the handler has pushed a task, another executor can
run it while the handler is still at work.  A task that is popped is `woken`; it may be polled
again at any time and then returns from `wait`.
-/

namespace Orengine.Sync

namespace WaitGroup

/-- Where an executor is in the code of the wait group. -/
inductive Thread (τ : Type*) where
  | idle
  /-- In `done`: `fetch_sub` has returned 1, and `pop_all_in` comes next. -/
  | donePop
  /-- In the handler of `PushCurrentTaskToAndRemoveItIfCounterIsZero`: the push of `t` comes
  next. -/
  | waitPush (t : τ)
  /-- There, the load of the counter comes next. -/
  | waitLoad
  /-- There, the counter was 0, and `pop` comes next. -/
  | waitPop
  deriving DecidableEq

inductive TaskState where
  /-- It is not inside `wait`. -/
  | running
  /-- It has called `wait` and nobody has popped it. -/
  | waiting
  /-- It has been popped and is about to return from `wait`. -/
  | woken
  deriving DecidableEq

inductive Action (ι τ : Type*) where
  /-- A task on the executor `i` calls `add(n)`. -/
  | add (i : ι) (n : ℕ)
  /-- A task on the executor `i` calls `done`: its `fetch_sub`. -/
  | done (i : ι)
  /-- The task `t` polls `wait()` for the first time, on the executor `i`. -/
  | wait (i : ι) (t : τ)
  /-- The executor `i` makes the next step inside `done` or the handler. -/
  | go (i : ι)
  /-- The task `t` polls `wait()` again and returns from it. -/
  | resume (t : τ)
  deriving DecidableEq

end WaitGroup

open WaitGroup

/-- A `WaitGroup`, the executors and the tasks that use it. -/
structure WaitGroup (ι τ : Type*) where
  counter : ℕ
  /-- `waited_tasks`, the task that is popped next first. -/
  waitedTasks : List τ
  /-- Where each executor is. -/
  thread : ι → Thread τ
  task : τ → TaskState
  /-- History: whether the counter has been 0 at some moment since the last call of `wait`. -/
  sawZero : τ → Bool

namespace WaitGroup

variable {ι τ : Type*} [DecidableEq ι] [DecidableEq τ]

def new : WaitGroup ι τ := ⟨0, [], fun _ => .idle, fun _ => .running, fun _ => false⟩

def setCounter (s : WaitGroup ι τ) (n : ℕ) : WaitGroup ι τ :=
  { s with counter := n, sawZero := fun t => n == 0 || s.sawZero t }

def goto (s : WaitGroup ι τ) (i : ι) (p : Thread τ) : WaitGroup ι τ :=
  { s with thread := Function.update s.thread i p }

/-- `pop_all_in`, and every task of the list is spawned. -/
def popAllIn (s : WaitGroup ι τ) : WaitGroup ι τ :=
  { s with
    waitedTasks := []
    task := fun t => if t ∈ s.waitedTasks then .woken else s.task t }

/-- `pop`, and the task is executed. -/
def pop (s : WaitGroup ι τ) : WaitGroup ι τ :=
  match s.waitedTasks with
  | [] => s
  | t :: rest => { s with waitedTasks := rest, task := Function.update s.task t .woken }

def go (s : WaitGroup ι τ) (i : ι) : Option (WaitGroup ι τ) :=
  match s.thread i with
  | .idle => none
  | .donePop => some (s.popAllIn.goto i .idle)
  -- the handler of `PushCurrentTaskToAndRemoveItIfCounterIsZero`
  | .waitPush t => some ({ s with waitedTasks := t :: s.waitedTasks }.goto i .waitLoad)
  | .waitLoad => some (s.goto i (if s.counter = 0 then .waitPop else .idle))
  | .waitPop => some (s.pop.goto i .idle)

/-- One step.  The counter is a `usize`, which wraps around in `fetch_add`; `done` is only called
for a unit that was added before. -/
def step (s : WaitGroup ι τ) : Action ι τ → Option (WaitGroup ι τ)
  | .add i n =>
    if s.thread i = .idle then some (s.setCounter ((s.counter + n) % UInt64.size)) else none
  | .done i =>
    if s.thread i = .idle ∧ 0 < s.counter then
      -- only the `fetch_sub` that finds 1 pops the list
      some ((s.setCounter (s.counter - 1)).goto i (if s.counter = 1 then .donePop else .idle))
    else none
  | .wait i t =>
    if s.thread i = .idle ∧ s.task t = .running then
      some ({ s with
        task := Function.update s.task t .waiting
        sawZero := Function.update s.sawZero t (s.counter == 0) }.goto i (.waitPush t))
    else none
  | .go i => s.go i
  | .resume t =>
    if s.task t = .woken then some { s with task := Function.update s.task t .running } else none

end WaitGroup

end Orengine.Sync
