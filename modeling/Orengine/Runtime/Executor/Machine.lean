import Orengine.Lib.Reach
import Orengine.Runtime.Executor.Futures
import Orengine.Runtime.Executor.WorkSharing

/-!
# An executor, its queues and the polls in progress

A `State` has the run queues of one executor, the lists from which tasks come to it, and the polls
in progress, innermost first: a task that is executed with `exec_task` is polled inside the code
that executes it.  A step is one of
* the loop of `run`, between two polls;
* the innermost poll, up to the next point that involves the executor: the code of a future
  (`Future.poll`), or the task's own code, which may call any public function of the executor;
* another thread: it pushes to and pops from the `SyncTaskList`s, takes from the shared list of this
  executor, sends tasks to it, or runs a job of the thread pool.

`elsewhere` are the tasks in none of these places: they sleep, wait for the worker or in a queue of
a primitive, belong to another executor, or to code that holds them.  The worker is the one of
`io_uring`: the fallback worker can put a local task into `shared_tasks`.

Code executes, spawns and pushes only tasks that are `elsewhere`, since it owns them.  The exception
is a loop that drains the queue of a local primitive while it executes the tasks, as that of
`LocalWaitGroup::done`, and finds a task that was resumed before: `stepAgain` has its steps as well.

A failed assertion ends the run.  Most are `debug_assert`s, which only a build with
`debugAssertions` checks.  The `debug_assert`s of the two functions that `Yield` calls are not
listed, as it calls them under their conditions.

`owns` of a frame, the caller of `currentCall` and `log` are histories.
-/

namespace Orengine.Runtime.Machine

open Orengine.Lib

/-- What a build, a configuration and a kernel decide. -/
structure Config where
  debugAssertions : Bool
  numberOfThreadWorkers : ℕ
  /-- `None` if work sharing is disabled. -/
  workSharingLevel : Option ℕ
  socketIsSupported : Bool

inductive Assertion where
  /-- "Try to spawn `shared` task as `local`!" -/
  | spawnLocalTask
  /-- "Try to spawn `local` task as `shared`!" -/
  | spawnSharedTask
  /-- The one of `SyncTaskList::push`. -/
  | syncTaskListPush
  /-- The one of `invoke_call`. -/
  | invokeCall
  /-- "Call is not None, but the task is ready." -/
  | readyTask
  /-- "number_of_local_tasks_in_this_round is invalid" -/
  | numberOfLocalTasks
  /-- "try to use thread pool with 0 workers", or the division by zero that follows. -/
  | threadPool
  /-- The one of `panic_if_local_in_future`. -/
  | localInFuture
  /-- The range that `try_flush` drains. -/
  | drain
  deriving DecidableEq

/-- Where the code of a poll is. -/
inductive Place (τ : Type*) where
  /-- At the future that the task awaits, or at its own code if it awaits none. -/
  | awaits
  /-- In the poll of this future. -/
  | polling (rest : List (Instr τ)) (ready : Bool)
  /-- In the task's own code. -/
  | running
  /-- In `handle_call`, before the counter is loaded. -/
  | checkCounter (list : ℕ)

/-- A poll in progress. -/
structure Frame (τ : Type*) where
  task : τ
  place : Place τ
  /-- Whether the task is still only here. -/
  owns : Bool

/-- Where the loop of `run` is. -/
inductive Phase where
  /-- Before `run`. -/
  | outside
  /-- Between two rounds. -/
  | idle
  | doWork
  /-- The local tasks that are left in this round. -/
  | localTasks (n : ℕ)
  /-- The shared tasks that are left in this round. -/
  | sharedTasks (n : ℕ)
  | takeWork
  | takeOthersWork
  | threadPool
  | sleepingTasks
  | mustPoll
  deriving DecidableEq

/-- What a run has done. -/
inductive Event (τ : Type*) where
  | polled (t : τ)
  /-- A local task has yielded while the local queue held these tasks, of these localities. -/
  | yielded (t : τ) (queue : List (τ × Bool))
  /-- `exec_task` has enqueued the task because of its limit. -/
  | requeued (t : τ) (isLocal : Bool)
  /-- A task was taken out through `local_queue`. -/
  | takenOut (t : τ)
  /-- `handle_call` was given a task, for a call that a poll of `caller` has left. -/
  | handled (t caller : τ)
  deriving DecidableEq

/-- The executor and what surrounds it. -/
structure State (τ : Type*) where
  isLocal : τ → Bool
  /-- The future that a task awaits, and how far it is. -/
  awaited : τ → Option (Future × Stage)
  /-- `local_tasks`; `pop_back` takes the last one. -/
  localTasks : List τ
  sharedTasks : List τ
  sharedTasksList : List τ
  isListLocked : Bool
  /-- The local and the shared tasks that were sent to this executor. -/
  inboxLocal : List τ
  inboxShared : List τ
  /-- The tasks in the `SyncTaskList`s, each with the name of its list, newest first. -/
  lists : List (ℕ × τ)
  /-- The tasks whose jobs the thread pool has. -/
  jobs : List τ
  /-- `result_list` of the thread pool. -/
  results : List τ
  elsewhere : τ → Bool
  execSeries : ℕ
  /-- `current_call`, with the task whose poll has left it. -/
  currentCall : Option (Call × τ)
  stack : List (Frame τ)
  phase : Phase
  failed : Option Assertion
  log : List (Event τ)

namespace State

variable {τ : Type*}

/-- An executor before its first task. -/
def init (isLocal : τ → Bool) (awaited : τ → Option (Future × Stage)) : State τ :=
  ⟨isLocal, awaited, [], [], [], false, [], [], [], [], [], fun _ => true, 0, none, [], .outside,
    none, []⟩

variable [DecidableEq τ] (cfg : Config) (s : State τ) (t : τ)

/-! ### The functions of the executor -/

def fail (a : Assertion) : State τ := { s with failed := some a }

def spawnLocalTask : State τ :=
  if cfg.debugAssertions && !s.isLocal t then s.fail .spawnLocalTask
  else { s with localTasks := s.localTasks ++ [t] }

def spawnSharedTask : State τ :=
  if cfg.debugAssertions && s.isLocal t then s.fail .spawnSharedTask
  else
    match WorkSharing.spawnSharedTask cfg.workSharingLevel s.sharedTasks s.sharedTasksList t
      s.isListLocked with
    | some (sharedTasks, sharedTasksList) => { s with sharedTasks, sharedTasksList }
    | none => s.fail .drain

def spawnTask : State τ :=
  if s.isLocal t then s.spawnLocalTask cfg t else s.spawnSharedTask cfg t

/-- `exec_task_now`, up to the poll. -/
def execTaskNow : State τ :=
  { s with
    execSeries := s.execSeries + 1
    stack := ⟨t, .awaits, true⟩ :: s.stack
    log := s.log ++ [.polled t] }

/-- The series of executed tasks ends. -/
def resetSeries : State τ :=
  { s with execSeries := 0, log := s.log ++ [.requeued t (s.isLocal t)] }

def execTask : State τ :=
  if s.execSeries < 63 then s.execTaskNow t else (s.resetSeries t).spawnTask cfg t

/-- What `check_sleeping_tasks` and `must_poll` do with a task that is ready. -/
def wakeUp : State τ :=
  if s.isLocal t then s.execTask cfg t else s.spawnSharedTask cfg t

def push (list : ℕ) : State τ :=
  if cfg.debugAssertions && s.isLocal t then s.fail .syncTaskListPush
  else { s with lists := (list, t) :: s.lists }

/-- `SyncTaskList::pop`, as the task and what is left of the lists. -/
def pop (list : ℕ) : Option (τ × State τ) :=
  match s.lists.find? (·.1 = list) with
  | some x => some (x.2, { s with lists := s.lists.erase x })
  | none => none

/-- `add_task_at_the_start_of_lifo_local_queue`, by `Yield`. -/
def yieldLocal : State τ :=
  { s with
    localTasks := t :: s.localTasks
    log := s.log ++ [.yielded t (s.localTasks.map fun u => (u, s.isLocal u))] }

/-- `add_task_at_the_start_of_lifo_shared_queue`. -/
def pushFrontShared : State τ := { s with sharedTasks := t :: s.sharedTasks }

def pushBackShared : State τ := { s with sharedTasks := s.sharedTasks ++ [t] }

/-- A task comes from elsewhere, ... -/
def take : State τ := { s with elsewhere := Function.update s.elsewhere t false }

/-- ... and one goes there. -/
def putAway : State τ := { s with elsewhere := Function.update s.elsewhere t true }

def setLocality (isLocal : Bool) : State τ :=
  { s with isLocal := Function.update s.isLocal t isLocal }

def setAwaited (awaited : Option (Future × Stage)) : State τ :=
  { s with awaited := Function.update s.awaited t awaited }

def setStack (stack : List (Frame τ)) : State τ := { s with stack }

/-- `handle_call`, after the call was taken, up to the load of the counter. -/
def handleCall : Call → State τ
  | .pushCurrentTaskAtTheStartOfLIFOSharedQueue => s.pushFrontShared t
  | .pushCurrentTaskTo list => s.push cfg t list
  | .pushCurrentTaskToAndRemoveItIfCounterIsZero list =>
    (s.setStack (⟨t, .checkCounter list, false⟩ :: s.stack)).push cfg t list
  | .releaseAtomicBool => s
  | .pushFnToThreadPool =>
    if cfg.numberOfThreadWorkers = 0 then s.fail .threadPool
    else { s with jobs := s.jobs ++ [t] }
  | .changeCurrentTaskLocality isLocal => (s.setLocality t isLocal).spawnTask cfg t

def invokeCall (call : Call) : State τ :=
  if cfg.debugAssertions && s.currentCall.isSome then s.fail .invokeCall
  else { s with currentCall := some (call, t) }

/-! ### The loop of `run` -/

/-- A step of the loop. -/
inductive Loop (τ : Type*) where
  | prepareToNewRound
  /-- The lock of the inbox was free. -/
  | takeBatchOfTasks
  | beginLocal
  | execLocal
  | beginShared
  | execShared
  | takeWorkIfNeeded
  /-- A task comes from the list of another executor. -/
  | takeOther (t : τ)
  | endTake
  | pollThreadPool
  | wakeSleeping (t : τ)
  | endSleeping
  /-- The request of a task is complete. -/
  | complete (t : τ)
  | endRound

/-- `take_work_if_needed`, up to the lists of other executors. -/
def takeWorkIfNeeded : State τ :=
  match cfg.workSharingLevel with
  | some level =>
    if level ≤ s.sharedTasks.length then { s with phase := .threadPool }
    else if s.isListLocked || s.sharedTasksList.isEmpty then { s with phase := .takeOthersWork }
    else
      let r := WorkSharing.popTasks (level - s.sharedTasks.length) s.sharedTasks s.sharedTasksList
      { s with sharedTasks := r.1, sharedTasksList := r.2, phase := .threadPool }
  | none => { s with phase := .threadPool }

/-- `pop_back` of the local queue, in a round with `n` more tasks. -/
def popLocal (n : ℕ) : State τ :=
  { s with localTasks := s.localTasks.dropLast, phase := .localTasks n }

/-- `pop_back` of the shared queue, in a round with `n` more tasks. -/
def popShared (n : ℕ) : State τ :=
  { s with sharedTasks := s.sharedTasks.dropLast, phase := .sharedTasks n }

/-- The code of `run`. -/
def loop : Loop τ → Option (State τ)
  | .prepareToNewRound =>
    if s.phase = .outside ∨ s.phase = .idle then
      some { s with execSeries := 0, phase := .doWork }
    else none
  | .takeBatchOfTasks =>
    if s.phase = .doWork then
      some { s with
        localTasks := s.localTasks ++ s.inboxLocal
        inboxLocal := []
        sharedTasks := s.sharedTasks ++ s.inboxShared
        inboxShared := [] }
    else none
  | .beginLocal =>
    if s.phase = .doWork then some { s with phase := .localTasks s.localTasks.length } else none
  | .execLocal =>
    match s.phase with
    | .localTasks (n + 1) =>
      match s.localTasks.getLast? with
      | some t => some ((s.popLocal n).execTask cfg t)
      | none => some (s.fail .numberOfLocalTasks)
    | _ => none
  | .beginShared =>
    if s.phase = .localTasks 0 then some { s with phase := .sharedTasks s.sharedTasks.length }
    else none
  | .execShared =>
    match s.phase with
    | .sharedTasks (n + 1) =>
      match s.sharedTasks.getLast? with
      | some t => some ((s.popShared n).execTask cfg t)
      | none => some { s with phase := .takeWork }
    | .sharedTasks 0 => some { s with phase := .takeWork }
    | _ => none
  | .takeWorkIfNeeded => if s.phase = .takeWork then some (s.takeWorkIfNeeded cfg) else none
  | .takeOther t =>
    if s.phase = .takeOthersWork ∧ s.elsewhere t then
      some ((s.take t).pushBackShared t)
    else none
  | .endTake => if s.phase = .takeOthersWork then some { s with phase := .threadPool } else none
  | .pollThreadPool =>
    if s.phase = .threadPool then
      some { s with
        localTasks := s.localTasks ++ s.results, results := [], phase := .sleepingTasks }
    else none
  | .wakeSleeping t =>
    if s.phase = .sleepingTasks ∧ s.elsewhere t then some ((s.take t).wakeUp cfg t) else none
  | .endSleeping => if s.phase = .sleepingTasks then some { s with phase := .mustPoll } else none
  | .complete t =>
    if s.phase = .mustPoll ∧ s.elsewhere t then some ((s.take t).wakeUp cfg t) else none
  | .endRound => if s.phase = .mustPoll then some { s with phase := .idle } else none

/-! ### The innermost poll -/

/-- The innermost poll goes on at a place. -/
def goOn (f : Frame τ) (below : List (Frame τ)) (place : Place τ) : State τ :=
  s.setStack (⟨f.task, place, f.owns⟩ :: below)

/-- The innermost poll gives its task away. -/
def giveAway (f : Frame τ) (below : List (Frame τ)) (place : Place τ) : State τ :=
  s.setStack (⟨f.task, place, false⟩ :: below)

/-- What a poll does with the executor. -/
def instr (f : Frame τ) (below : List (Frame τ)) (rest : List (Instr τ)) (ready : Bool) :
    Instr τ → Option (State τ)
  | .yieldNow =>
    let s' := s.giveAway f below (.polling rest ready)
    some (if s.isLocal f.task then s'.yieldLocal f.task else s'.pushFrontShared f.task)
  | .park => some ((s.giveAway f below (.polling rest ready)).putAway f.task)
  | .spawnLocalTask =>
    some ((s.giveAway f below (.polling rest ready)).spawnLocalTask cfg f.task)
  | .wake => some ((s.giveAway f below (.polling rest ready)).spawnTask cfg f.task)
  | .push list => some ((s.giveAway f below (.polling rest ready)).push cfg f.task list)
  | .execTask t =>
    if s.elsewhere t then some (((s.goOn f below (.polling rest ready)).take t).execTask cfg t)
    else none
  | .invokeCall call => some ((s.goOn f below (.polling rest ready)).invokeCall cfg f.task call)

/-- The future that a task awaits is polled, or its own code goes on. -/
def poll (f : Frame τ) (below : List (Frame τ)) (choice : Choice τ) : Option (State τ) :=
  match s.awaited f.task with
  | none => some (s.goOn f below .running)
  | some (future, stage) =>
    if cfg.debugAssertions && future.panicsIfLocal && s.isLocal f.task then
      some (s.fail .localInFuture)
    else
      match future.poll cfg.socketIsSupported stage choice with
      | some p => some
        ((s.goOn f below (.polling p.instrs p.ready)).setAwaited f.task (some (future, p.next)))
      | none => none

/-- `mem::take` of the current call, which `handle_call` begins with. -/
def takeCall (caller : τ) : State τ :=
  { s with currentCall := none, log := s.log ++ [.handled t caller] }

/-- The poll of a future returns: after `Ready` the task's own code goes on, and after `Pending` the
poll of the task returns, too, to `exec_task_now`. -/
def returned (f : Frame τ) (below : List (Frame τ)) : Bool → State τ
  | true => (s.goOn f below .running).setAwaited f.task none
  | false =>
    match s.currentCall with
    | some (call, caller) => ((s.setStack below).takeCall f.task caller).handleCall cfg f.task call
    | none => s.setStack below

/-- The poll of the task returns `Ready`. -/
def finish (below : List (Frame τ)) : State τ :=
  if cfg.debugAssertions && s.currentCall.isSome then s.fail .readyTask
  else s.setStack below

/-- `handle_call` after the load of the counter. -/
def checkCounter (below : List (Frame τ)) (list : ℕ) : Bool → State τ
  | true =>
    match (s.setStack below).pop list with
    | some (t, s') => s'.execTask cfg t
    | none => s.setStack below
  | false => s.setStack below

/-- A step of the innermost poll. -/
inductive Code (τ : Type*) where
  | poll (choice : Choice τ)
  /-- The next instruction, or the return. -/
  | next
  /-- The task's own code awaits a future, ... -/
  | await (future : Future)
  /-- ... or comes to its end. -/
  | finish
  | checkCounter (isZero : Bool)

/-- The code of a poll. -/
def code (f : Frame τ) (below : List (Frame τ)) : Code τ → Option (State τ)
  | .poll choice =>
    match f.place with
    | .awaits => s.poll cfg f below choice
    | _ => none
  | .next =>
    match f.place with
    | .polling (i :: rest) ready => s.instr cfg f below rest ready i
    | .polling [] ready => some (s.returned cfg f below ready)
    | _ => none
  | .await future =>
    match f.place with
    | .running => some ((s.goOn f below .awaits).setAwaited f.task (some (future, .first)))
    | _ => none
  | .finish =>
    match f.place with
    | .running => some (s.finish cfg below)
    | _ => none
  | .checkCounter isZero =>
    match f.place with
    | .checkCounter list => some (s.checkCounter cfg below list isZero)
    | _ => none

/-! ### A task's own code -/

/-- What code that is no future of the crate does with the executor. -/
inductive Own (τ : Type*) where
  | execTask (t : τ)
  | execTaskNow (t : τ)
  | spawnLocalTask (t : τ)
  | spawnSharedTask (t : τ)
  | spawnTask (t : τ)
  | push (list : ℕ) (t : τ)
  | pop (list : ℕ)
  /-- A task is taken out of `local_queue`, ... -/
  | takeOut (i : ℕ)
  /-- ... or put into it. -/
  | putIn (i : ℕ) (t : τ)

/-- Whether such code runs: in a task, or before `run`. -/
def ownCodeRuns : Bool :=
  match s.stack with
  | f :: _ => match f.place with
    | .running => true
    | _ => false
  | [] => s.phase = .outside

/-- The code takes a task that it holds and uses it. -/
def withTask (use : State τ → State τ) : Option (State τ) :=
  if s.elsewhere t then some (use (s.take t)) else none

/-- `local_queue().remove(i)`. -/
def removeAt (i : ℕ) : State τ :=
  { s with localTasks := s.localTasks.eraseIdx i, log := s.log ++ [.takenOut t] }

/-- `local_queue().insert(i, t)`. -/
def insertAt (i : ℕ) : State τ := { s with localTasks := s.localTasks.insertIdx i t }

/-- The code of a task. -/
def own : Own τ → Option (State τ)
  | .execTask t => s.withTask t (·.execTask cfg t)
  | .execTaskNow t => s.withTask t (·.execTaskNow t)
  | .spawnLocalTask t => s.withTask t (·.spawnLocalTask cfg t)
  | .spawnSharedTask t => s.withTask t (·.spawnSharedTask cfg t)
  | .spawnTask t => s.withTask t (·.spawnTask cfg t)
  | .push list t => s.withTask t (·.push cfg t list)
  | .pop list => (s.pop list).map fun r => r.2.putAway r.1
  | .takeOut i =>
    match s.localTasks[i]? with
    | some t => some ((s.removeAt t i).putAway t)
    | none => none
  | .putIn i t =>
    if i ≤ s.localTasks.length then s.withTask t (·.insertAt t i) else none

/-! ### Other threads -/

/-- What other threads do. -/
inductive Env (τ : Type*) where
  | push (list : ℕ) (t : τ)
  | pop (list : ℕ)
  /-- Another executor takes a task of the shared list. -/
  | takeShared (i : ℕ)
  | setLocked (isListLocked : Bool)
  /-- A task is sent to this executor. -/
  | send (t : τ)
  /-- A worker of the thread pool has done a job. -/
  | worker (i : ℕ)
  /-- A task is created, or polled by another executor. -/
  | change (t : τ) (isLocal : Bool) (awaited : Option (Future × Stage))

/-- `take_batch` by another executor, for one task. -/
def removeShared (i : ℕ) : State τ :=
  { s with sharedTasksList := s.sharedTasksList.eraseIdx i }

/-- The task goes to the inbox that is for tasks of its locality. -/
def receive : State τ :=
  if s.isLocal t then { s with inboxLocal := s.inboxLocal ++ [t] }
  else { s with inboxShared := s.inboxShared ++ [t] }

/-- `ThreadWorker::run`, after the job. -/
def pushResult (i : ℕ) : State τ :=
  if cfg.debugAssertions && s.isLocal t then s.fail .syncTaskListPush
  else { s with jobs := s.jobs.eraseIdx i, results := s.results ++ [t] }

/-- The code of another thread. -/
def env : Env τ → Option (State τ)
  | .push list t => s.withTask t (·.push cfg t list)
  | .pop list => (s.pop list).map fun r => r.2.putAway r.1
  | .takeShared i =>
    match s.sharedTasksList[i]? with
    | some t => some ((s.removeShared i).putAway t)
    | none => none
  | .setLocked isListLocked => some { s with isListLocked }
  | .send t => s.withTask t (·.receive t)
  | .worker i =>
    match s.jobs[i]? with
    | some t => some (s.pushResult cfg t i)
    | none => none
  | .change t isLocal awaited =>
    if s.elsewhere t then some ((s.setLocality t isLocal).setAwaited t awaited) else none

/-! ### Steps -/

inductive Action (τ : Type*) where
  | loop (a : Loop τ)
  | code (a : Code τ)
  | own (a : Own τ)
  | env (a : Env τ)

def step (cfg : Config) (s : State τ) (a : Action τ) : Option (State τ) :=
  if s.failed.isSome then none
  else
    match a with
    | .loop a => match s.stack with
      | [] => s.loop cfg a
      | _ :: _ => none
    | .code a => match s.stack with
      | f :: below => s.code cfg f below a
      | [] => none
    | .own a => if s.ownCodeRuns then s.own cfg a else none
    | .env a => s.env cfg a

/-- A step, or the loop of a `LocalWaitGroup::done` in a task's own code executes a task that does
not wait for it any more, and is not `elsewhere`. -/
def stepAgain (cfg : Config) (s : State τ) : Action τ ⊕ τ → Option (State τ)
  | .inl a => s.step cfg a
  | .inr t =>
    if s.failed.isSome || !s.ownCodeRuns || s.elsewhere t then none else some (s.execTask cfg t)

end State

end Orengine.Runtime.Machine
