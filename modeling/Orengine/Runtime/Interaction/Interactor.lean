import Orengine.Runtime.GlobalState.Subscribed

/-!
# `Interactor` and `SyncBatchOptimizedTaskQueue`

An executor sends a task to another one by pushing it to a batch for that executor.  `do_work`
flushes the batches to the task queues of the executors and takes what is in the queue of the
executor itself.  A queue is behind a lock that nobody waits for: an attempt to lock it may fail at
any time.  The map with the batches is made anew in `check_version_and_update_if_needed`.

The model runs on top of the one of the global state.  A step of `do_work` is a piece with at most
one attempt to lock.  The tasks in the model are those that were sent, in the order in which the
sends were accepted; the limit on how often `do_work` does something only leaves out calls of it.
Work sharing, which moves `shared` tasks on from one run queue to another, is not part of it.
-/

namespace Orengine.Runtime

open Orengine.Utils

/-- A task that was sent. -/
structure SentTask where
  /-- How many tasks were sent before. -/
  number : ℕ
  isLocal : Bool
  deriving DecidableEq

inductive SendTaskResult where
  | ok
  | executorIsNotRegistered
  deriving DecidableEq

/-- A deque of `local` and one of `shared` tasks: the batches of a `SharedTaskListForSendTo`, a
`LocalAndSharedTaskDeque`, or the run queue of an executor. -/
structure TaskDeques where
  localTasks : List SentTask
  sharedTasks : List SentTask

namespace TaskDeques

def empty : TaskDeques := ⟨[], []⟩

/-- `push_back` to the deque for the locality of the task. -/
def pushBack (d : TaskDeques) (task : SentTask) : TaskDeques :=
  if task.isLocal then { d with localTasks := d.localTasks ++ [task] }
  else { d with sharedTasks := d.sharedTasks ++ [task] }

def append (d other : TaskDeques) : TaskDeques :=
  ⟨d.localTasks ++ other.localTasks, d.sharedTasks ++ other.sharedTasks⟩

def isEmpty (d : TaskDeques) : Bool := d.localTasks.isEmpty && d.sharedTasks.isEmpty

/-- `pop_back` from the deque for a locality. -/
def popBack (d : TaskDeques) (isLocal : Bool) : Option (SentTask × TaskDeques) :=
  if isLocal then
    d.localTasks.getLast?.map fun task => (task, { d with localTasks := d.localTasks.dropLast })
  else
    d.sharedTasks.getLast?.map fun task => (task, { d with sharedTasks := d.sharedTasks.dropLast })

/-- `try_to_append_tasks` of a batch to a queue: the queue, the batch and the result. -/
def tryToAppendTasks (queue batch : TaskDeques) (isLocked : Bool) :
    TaskDeques × TaskDeques × Bool :=
  if batch.isEmpty then (queue, batch, true)
  else if isLocked then (queue, batch, false)
  else (queue.append batch, empty, true)

/-- `try_to_take_batch_of_tasks` from a queue to a run queue: the queue, the run queue and the
result. -/
def tryToTakeBatchOfTasks (queue tasks : TaskDeques) (isLocked : Bool) :
    TaskDeques × TaskDeques × Bool :=
  if isLocked then (queue, tasks, false) else (empty, tasks.append queue, true)

end TaskDeques

structure Interactor where
  all : VecMap TaskDeques
  idToRetry : List ℕ

namespace Interactor

def new : Interactor := ⟨.new, []⟩

def sendTaskToExecutor (x : Interactor) (task : SentTask) (executorId : ℕ) :
    Interactor × SendTaskResult :=
  match x.all.get executorId with
  | some _ => ({ x with all := x.all.modify executorId (·.pushBack task) }, .ok)
  | none => (x, .executorIsNotRegistered)

end Interactor

namespace Interactors

/-- Where an executor is in `do_work`. -/
inductive Place where
  | outside
  /-- It takes tasks from its queue next. -/
  | take
  /-- In the loop of `flush`: whether tasks were taken, and the executors that are left. -/
  | flush (isSuccess : Bool) (ids : List ℕ)
  /-- It takes tasks from its queue again. -/
  | takeAgain
  /-- In the loop of `retry_flush`: what is left of the drained `id_to_retry`. -/
  | retryFlush (ids : List ℕ)
  deriving DecidableEq

inductive Action where
  /-- A step of the global state and of the images of it. -/
  | registry (action : Executors.Action)
  /-- A task on the executor calls `send_task_to_executor`. -/
  | send (id executorId : ℕ) (isLocal : Bool)
  /-- The executor calls `do_work`. -/
  | doWork (id : ℕ)
  /-- The next piece of `do_work`; `isLocked` is whether another thread has the lock. -/
  | go (id : ℕ) (isLocked : Bool)
  /-- The executor takes the next task of the locality from its run queue and executes it. -/
  | exec (id : ℕ) (isLocal : Bool)
  deriving DecidableEq

end Interactors

/-- The interactors, task queues and run queues of all executors. -/
structure Interactors where
  registry : Executors
  interactors : ℕ → Interactor
  /-- The `SyncBatchOptimizedTaskQueue` of each executor. -/
  queues : ℕ → TaskDeques
  /-- `local_tasks` and `shared_tasks` of each executor. -/
  tasks : ℕ → TaskDeques
  place : ℕ → Interactors.Place
  /-- History: sender and target of the tasks that were sent, in this order. -/
  routes : List (ℕ × ℕ)
  /-- History: the numbers of the tasks that were executed. -/
  executed : List ℕ
  /-- Whether `retry_flush` has used an id that is not in the map. -/
  undefined : Bool

namespace Interactors

def init : Interactors :=
  ⟨.init, fun _ => .new, fun _ => .empty, fun _ => .empty, fun _ => .outside, [], [], false⟩

/-- The executor is at another place in `do_work`. -/
def goto (w : Interactors) (id : ℕ) (p : Place) : Interactors :=
  { w with place := Function.update w.place id p }

def setInteractor (w : Interactors) (id : ℕ) (x : Interactor) : Interactors :=
  { w with interactors := Function.update w.interactors id x }

def setRegistry (w : Interactors) (r : Executors) : Interactors := { w with registry := r }

/-- A task was sent. -/
def accept (w : Interactors) (id executorId : ℕ) : Interactors :=
  { w with routes := w.routes ++ [(id, executorId)] }

/-- The batches in the map of an executor are made anew for the alive executors. -/
def remake (w : Interactors) (id : ℕ) : Interactors :=
  let x := w.interactors id
  w.setInteractor id { x with all := w.registry.global.remake (fun _ => .empty) x.all }

def sendTaskToExecutor (w : Interactors) (id executorId : ℕ) (task : SentTask) :
    Interactors × SendTaskResult :=
  if executorId ≠ id then
    let r := (w.interactors id).sendTaskToExecutor task executorId
    (w.setInteractor id r.1, r.2)
  else ({ w with tasks := Function.update w.tasks id ((w.tasks id).pushBack task) }, .ok)

def tryToTakeTasks (w : Interactors) (id : ℕ) (isLocked : Bool) : Interactors × Bool :=
  let r := (w.queues id).tryToTakeBatchOfTasks (w.tasks id) isLocked
  ({ w with
    queues := Function.update w.queues id r.1
    tasks := Function.update w.tasks id r.2.1 }, r.2.2)

/-- `try_to_append_tasks` of the batch for an executor. -/
def tryToAppendTasks (w : Interactors) (id executorId : ℕ) (batch : TaskDeques)
    (isLocked : Bool) : Interactors × Bool :=
  let x := w.interactors id
  let r := (w.queues executorId).tryToAppendTasks batch isLocked
  ({ w with
    interactors :=
      Function.update w.interactors id { x with all := x.all.modify executorId fun _ => r.2.1 }
    queues := Function.update w.queues executorId r.1 }, r.2.2)

def pushIdToRetry (w : Interactors) (id executorId : ℕ) : Interactors :=
  let x := w.interactors id
  w.setInteractor id { x with idToRetry := x.idToRetry ++ [executorId] }

def drainIdToRetry (w : Interactors) (id : ℕ) : Interactors :=
  let x := w.interactors id
  (w.setInteractor id { x with idToRetry := [] }).goto id (.retryFlush x.idToRetry)

/-- The next piece of `do_work`. -/
def go (w : Interactors) (id : ℕ) (isLocked : Bool) : Option Interactors :=
  match w.place id with
  | .outside => none
  | .take =>
    let r := w.tryToTakeTasks id isLocked
    some (r.1.goto id (.flush r.2 (w.interactors id).all.keys))
  | .flush isSuccess (executorId :: ids) =>
    match (w.interactors id).all.get executorId with
    | some batch =>
      let r := w.tryToAppendTasks id executorId batch isLocked
      if r.2 then some (r.1.goto id (.flush isSuccess ids))
      else some ((r.1.pushIdToRetry id executorId).goto id (.flush isSuccess ids))
    | none => none
  | .flush true [] => some (w.drainIdToRetry id)
  | .flush false [] => some (w.goto id .takeAgain)
  | .takeAgain => some ((w.tryToTakeTasks id isLocked).1.drainIdToRetry id)
  | .retryFlush (executorId :: ids) =>
    match (w.interactors id).all.get executorId with
    | some batch => some ((w.tryToAppendTasks id executorId batch isLocked).1.goto id
        (.retryFlush ids))
    -- `unwrap_unchecked`
    | none => some { w with undefined := true }
  | .retryFlush [] => some (w.goto id .outside)

variable (hasList : ℕ → Bool)

def step (w : Interactors) : Action → Option Interactors
  | .registry (.checkVersion id) =>
    if w.place id = .outside then
      (w.registry.step hasList (.checkVersion id)).map w.setRegistry
    else none
  | .registry (.update id) =>
    (w.registry.step hasList (.update id)).map
      (if id ∈ w.registry.global.alive.keys then w.remake id else w).setRegistry
  | .registry action => (w.registry.step hasList action).map w.setRegistry
  | .send id executorId isLocal =>
    if w.place id = .outside ∧ w.registry.phase id ≠ .checking ∧
        w.registry.phase id ≠ .registering then
      let r := w.sendTaskToExecutor id executorId ⟨w.routes.length, isLocal⟩
      match r.2 with
      | .ok => some (r.1.accept id executorId)
      | .executorIsNotRegistered => some w
    else none
  | .doWork id =>
    if w.place id = .outside ∧ w.registry.phase id = .running then some (w.goto id .take)
    else none
  | .go id isLocked => w.go id isLocked
  | .exec id isLocal =>
    if w.place id = .outside ∧ w.registry.phase id = .running then
      ((w.tasks id).popBack isLocal).map fun r =>
        { w with
          tasks := Function.update w.tasks id r.2
          executed := w.executed ++ [r.1.number] }
    else none

end Interactors

end Orengine.Runtime
