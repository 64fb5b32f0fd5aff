import Orengine.Io.Sys.Fallback.Worker

/-!
# The fallback worker with a thread pool

A request is pushed to the channel of one of the threads, which makes the call; an interrupted call
is made again.  If the call would block, the thread gives the request back, and it waits in the
poller until its socket is ready; then it is pushed to the pool once more.  A request that only
waits for its socket is registered in the poller at once.  What the threads give back, the
*completions*, is in a list behind a lock, which `must_poll_` swaps with an empty one and drains.

The worker has the fields of the worker without threads, with the same code for the deadlines, and
the threads and the completions in addition.  `must_poll` calls `must_poll_` until this has done
something or the timeout is over; how often, is not determined here.  Each request that is polled or
drained and each round of `check_deadlines` is one step, and so is each access of a thread to the
channel or to the completions.  The pool has at least one thread.  The arithmetic is that of a build
without debug assertions, and a step that panics is none, except for the panics that are recorded.

`recounted` is a history: the requests that `poll_and_process` has pushed to the pool again or has
found to be overdue.
-/

namespace Orengine.Io.FallbackWithThreadPool

open Orengine.Lib
open Fallback (IoCall Kind Outcome Phase)

inductive WorkerResult (ι : Type*) where
  | done (i : ι)
  | mustPoll (i : ι)
  deriving DecidableEq

def WorkerResult.request {ι : Type*} : WorkerResult ι → ι
  | .done i => i
  | .mustPoll i => i

/-- Where a thread is in the loop of `ThreadWorker::run`. -/
inductive ThreadPhase (ι : Type*) where
  /-- It receives from its channel. -/
  | receiving
  /-- It does the io work of a request. -/
  | working (i : ι)
  /-- It pushes to the completions. -/
  | pushing (completion : WorkerResult ι)
  deriving DecidableEq

def ThreadPhase.requests {ι : Type*} : ThreadPhase ι → List ι
  | .receiving => []
  | .working i => [i]
  | .pushing completion => [completion.request]

structure ThreadWorker (ι : Type*) where
  taskChannel : List ι
  phase : ThreadPhase ι
  deriving DecidableEq

/-- The requests that are queued to a thread or that it runs. -/
def ThreadWorker.requests {ι : Type*} (w : ThreadWorker ι) : List ι :=
  w.phase.requests ++ w.taskChannel

/-- Where `must_poll` is, with what `must_poll_` is going to return. -/
inductive Stage (ι : Type*) where
  /-- The executor is not in `must_poll`. -/
  | outside
  /-- It is in `poll_and_process` or in `check_deadlines`. -/
  | polling (haveDone : Bool)
  /-- `must_poll_` drains the completions that it has synced. -/
  | draining (syncedCompletions : List (WorkerResult ι)) (haveDone : Bool)
  /-- `must_poll_` has returned. -/
  | returned (haveDone : Bool)
  deriving DecidableEq

/-- The completions that are not drained yet. -/
def Stage.syncedCompletions {ι : Type*} : Stage ι → List (WorkerResult ι)
  | .draining syncedCompletions _ => syncedCompletions
  | _ => []

/-- Whether `must_poll_` polls or checks the deadlines. -/
def Stage.isPolling {ι : Type*} : Stage ι → Bool
  | .polling _ => true
  | _ => false

/-- Whether `must_poll_` can be called: `must_poll` does nothing without an active task, and calls
it again if it has done nothing. -/
def Stage.mayPoll {ι : Type*} (numberOfActiveTasks : UInt64) : Stage ι → Bool
  | .outside => numberOfActiveTasks != 0
  | .returned haveDone => !haveDone
  | _ => false

inductive Action (τ ι : Type*) (n : ℕ) where
  | tick (nanos : ℕ)
  /-- A running task starts a request. -/
  | start (i : ι) (task : τ) (isLocal : Bool) (kind : Kind) (deadline : Option ℕ)
  /-- The poll of a task returns `Pending` for another reason. -/
  | pending (t : τ)
  /-- The future of a request is polled again, and returns what it reads as the result. -/
  | resume (i : ι)
  /-- A thread receives a request. -/
  | receive (k : Fin (n + 1))
  /-- The io work of a thread returns this. -/
  | work (k : Fin (n + 1)) (outcome : Outcome)
  /-- A thread pushes to the completions. -/
  | push (k : Fin (n + 1))
  /-- `must_poll_`, with the events of the poller. -/
  | poll (events : List (ι × Bool))
  /-- `poll_and_process` processes the next request. -/
  | process
  /-- A round of `check_deadlines`. -/
  | check
  /-- `synced_completions`. -/
  | sync
  /-- `must_poll_` drains the next completion. -/
  | drain
  /-- `must_poll` returns. -/
  | leave

/-- An executor with a fallback worker that has `n + 1` threads. -/
structure System (τ ι : Type*) (n : ℕ) where
  /-- The executor, with the fields that the worker without threads has as well. -/
  base : Fallback.System τ ι
  workers : Fin (n + 1) → ThreadWorker ι
  completions : List (WorkerResult ι)
  stage : Stage ι
  recounted : List ι

namespace System

variable {τ ι : Type*} {n : ℕ}

def init (now : ℕ) : System τ ι n := ⟨.init now, fun _ => ⟨[], .receiving⟩, [], .outside, []⟩

/-- Change what the worker without threads has as well. -/
def setBase (s : System τ ι n) (b : Fallback.System τ ι) : System τ ι n := { s with base := b }

def setThread (s : System τ ι n) (k : Fin (n + 1)) (w : ThreadWorker ι) : System τ ι n :=
  { s with workers := Function.update s.workers k w }

/-- The thread that the next request is sent to. -/
def nextThread (s : System τ ι n) : Fin (n + 1) :=
  ⟨s.base.worker.numberOfActiveTasks.toNat % (n + 1), Nat.mod_lt _ n.succ_pos⟩

def pushToWorkerPool (s : System τ ι n) (i : ι) : System τ ι n :=
  { s with
      base := s.base.setWorker { s.base.worker with
        numberOfActiveTasks := s.base.worker.numberOfActiveTasks + 1 }
      workers := Function.update s.workers s.nextThread
        ⟨(s.workers s.nextThread).taskChannel ++ [i], (s.workers s.nextThread).phase⟩ }

def receive (s : System τ ι n) (k : Fin (n + 1)) : Option (System τ ι n) :=
  match s.workers k with
  | ⟨i :: taskChannel, .receiving⟩ => some (s.setThread k ⟨taskChannel, .working i⟩)
  | _ => none

/-- A thread pushes to the completions, and begins again. -/
def push (s : System τ ι n) (k : Fin (n + 1)) : Option (System τ ι n) :=
  match s.workers k with
  | ⟨taskChannel, .pushing completion⟩ =>
    some { s.setThread k ⟨taskChannel, .receiving⟩ with
      completions := s.completions ++ [completion] }
  | _ => none

/-- `synced_completions`, and the subtraction after it. -/
def sync (s : System τ ι n) : Option (System τ ι n) :=
  match s.stage, s.base.worker.phase with
  | .polling haveDone, .idle =>
    some { s with
      base := s.base.setWorker { s.base.worker with
        numberOfActiveTasks :=
          s.base.worker.numberOfActiveTasks - UInt64.ofNat s.completions.length }
      completions := []
      stage := .draining s.completions haveDone }
  | _, _ => none

def leave (s : System τ ι n) : Option (System τ ι n) :=
  match s.stage with
  | .returned _ => some { s with stage := .outside }
  | _ => none

variable [DecidableEq ι]

/-- The result of a request is stored. -/
def store (s : System τ ι n) (i : ι) (r : Fallback.Request τ) (ret : Except ErrorKind ℕ) :
    System τ ι n :=
  s.setBase { s.base with
    requests := Function.update s.base.requests i (some { r with ret := some ret })
    log := s.base.log ++ [.stored i] }

/-- The task of a request that has a result is executed or spawned. -/
def schedule (s : System τ ι n) (i : ι) (r : Fallback.Request τ) : System τ ι n :=
  s.setBase { s.base with
    requests := Function.update s.base.requests i (some { r with isScheduled := true })
    log := s.base.log ++ [.scheduled i r.task] }

/-- The io work of a thread returns. -/
def work (s : System τ ι n) (k : Fin (n + 1)) (outcome : Outcome) : Option (System τ ι n) :=
  match s.workers k with
  | ⟨taskChannel, .working i⟩ =>
    (s.base.requests i).map fun r =>
      match outcome with
      | .ok ret => (s.store i r (.ok ret)).setThread k ⟨taskChannel, .pushing (.done i)⟩
      | .wouldBlock => s.setThread k ⟨taskChannel, .pushing (.mustPoll i)⟩
      | .inProgress => s.setThread k ⟨taskChannel, .pushing (.mustPoll i)⟩
      | .error kind =>
        (s.store i r (.error kind)).setThread k ⟨taskChannel, .pushing (.done i)⟩
  | _ => none

/-- The method of the worker that a future calls; only a call has a deadline. -/
def perform (s : System τ ι n) (i : ι) (r : Fallback.Request τ) : System τ ι n :=
  match r.kind with
  | .operation => (s.setBase (s.base.setRequest i r)).pushToWorkerPool i
  | .call c _ =>
    if r.isOverdue s.base.worker.lastGottenTime then
      s.setBase (s.base.storeAndSpawn i r (.error .timedOut))
    else if c.isPoll then s.setBase (s.base.register i r)
    else (s.setBase (s.base.setRequest i r)).pushToWorkerPool i

/-- The call of `MioPoller::poll` in `poll_and_process`, for the events that there are; `none` if
there cannot be such events. -/
def poll (s : System τ ι n) (events : List (ι × Bool)) : Option (System τ ι n) :=
  if s.stage.mayPoll s.base.worker.numberOfActiveTasks ∧ (events.map Prod.fst).Nodup ∧
      ∀ i ∈ events.map Prod.fst, i ∈ s.base.worker.poller then
    some { s with
      base := s.base.setWorker { s.base.worker with
        poller := s.base.worker.poller.filter fun i => i ∉ events.map Prod.fst
        phase := .processing events events.length }
      stage := .polling false }
  else none

/-- `poll_and_process` for a request whose socket has no error, after the removal of its entry. -/
def processReady (s : System τ ι n) (i : ι) (r : Fallback.Request τ) : System τ ι n :=
  if r.isOverdue s.base.worker.lastGottenTime then
    { s.setBase (s.base.storeAndSpawn i r (.error .timedOut)) with
        recounted := s.recounted ++ [i] }
  else if r.mustRetry then
    { s.pushToWorkerPool i with recounted := s.recounted ++ [i] }
  else
    -- `schedule_io_call_that_not_retriable`
    { s.setBase ((s.base.setWorker s.base.worker.decrement).storeAndSchedule i r (.ok 0)) with
        stage := .polling true }

/-- `poll_and_process` for one request, with what is left to do after it. -/
def processOne (s : System τ ι n) (i : ι) (r : Fallback.Request τ) (isReady : Bool)
    (rest : Phase ι) : System τ ι n :=
  match s.base.removeEntry r.deadline, isReady with
  | some b, true => (s.setBase (b.setWorker (b.worker.setPhase rest))).processReady i r
  | some b, false =>
    { s.setBase ((b.setWorker (b.worker.setPhase rest).decrement).storeAndSchedule i r
        (.error .other)) with
        stage := .polling true }
  | none, true => s.setBase (s.base.panic .removeFailed)
  | none, false => s.setBase (s.base.panic .removeFailedInErrorCase)

/-- The next request of `poll_and_process`; at the end `check_deadlines` begins. -/
def process (s : System τ ι n) : Option (System τ ι n) :=
  match s.stage, s.base.worker.phase with
  | .polling _, .processing [] _ =>
    some (s.setBase (s.base.setWorker { s.base.worker with
      lastGottenTime := s.base.clock
      phase := .checking }))
  | .polling _, .processing ((i, isReady) :: polled) len =>
    (s.base.requests i).map fun r => s.processOne i r isReady (.processing polled len)
  | _, _ => none

/-- A round of `check_deadlines`, which is that of the worker without threads. -/
def check (s : System τ ι n) : Option (System τ ι n) :=
  match s.stage with
  | .polling _ => s.base.check.map s.setBase
  | _ => none

/-- `must_poll_` drains the next completion; all calls that can block are pollable. -/
def drain (s : System τ ι n) : Option (System τ ι n) :=
  match s.stage with
  | .draining [] haveDone => some { s with stage := .returned haveDone }
  | .draining (.done i :: rest) _ =>
    (s.base.requests i).map fun r => { s.schedule i r with stage := .draining rest true }
  | .draining (.mustPoll i :: rest) haveDone =>
    (s.base.requests i).bind fun r =>
      match r.kind with
      | .operation => none
      | .call _ _ => some { s.setBase (s.base.register i r) with stage := .draining rest haveDone }
  | _ => none

variable [DecidableEq τ]

def start (s : System τ ι n) (i : ι) (r : Fallback.Request τ) : Option (System τ ι n) :=
  if (s.base.requests i).isSome || (r.kind == .operation && r.deadline.isSome) then none
  else if (s.perform i r).base.panicked.isSome then some (s.perform i r)
  else some ((s.perform i r).setBase ((s.perform i r).base.endPoll r.task))

def step (s : System τ ι n) (a : Action τ ι n) : Option (System τ ι n) :=
  if s.base.panicked.isSome then none
  else
    match a with
    | .tick nanos => some (s.setBase { s.base with clock := s.base.clock + nanos })
    | .start i task isLocal kind deadline =>
      s.start i (.new task isLocal kind deadline)
    | .pending t => some (s.setBase (s.base.endPoll t))
    | .resume i => (s.base.resume i).map s.setBase
    | .receive k => s.receive k
    | .work k outcome => s.work k outcome
    | .push k => s.push k
    | .poll events => s.poll events
    | .process => s.process
    | .check => s.check
    | .sync => s.sync
    | .drain => s.drain
    | .leave => s.leave

end System

end Orengine.Io.FallbackWithThreadPool
