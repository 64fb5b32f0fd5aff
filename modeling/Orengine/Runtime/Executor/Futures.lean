import Mathlib.Data.Nat.Notation

/-!
# What the futures of the crate do with the executor

When a future is polled it may hand its task to some queue, execute another task, and leave a `Call`
with the executor, before it returns.  `Future.poll` lists this for the futures of the crate, in the
order of their code.  What they do besides (locks, counters, the values of a channel) only decides
which way a poll takes, and is left to a `Choice`.

An `async` block that awaits such futures one after the other is not a future here: the code between
two awaits belongs to the task.
-/

namespace Orengine.Runtime.Machine

/-- `Call`; a `SyncTaskList` is given by its name. -/
inductive Call where
  | pushCurrentTaskAtTheStartOfLIFOSharedQueue
  | pushCurrentTaskTo (list : ℕ)
  | pushCurrentTaskToAndRemoveItIfCounterIsZero (list : ℕ)
  | releaseAtomicBool
  | pushFnToThreadPool
  | changeCurrentTaskLocality (isLocal : Bool)
  deriving DecidableEq

/-- What a poll does with the executor. -/
inductive Instr (τ : Type*) where
  /-- The current task goes to the start of the local queue, or of the shared one. -/
  | yieldNow
  /-- The current task goes to a queue of a primitive, to the sleeping tasks or to the worker. -/
  | park
  /-- `spawn_local_task` of the current task. -/
  | spawnLocalTask
  /-- The waker of the current task is called. -/
  | wake
  /-- The current task is pushed to a `SyncTaskList`. -/
  | push (list : ℕ)
  /-- `exec_task` of a task that has waited in a queue. -/
  | execTask (t : τ)
  | invokeCall (call : Call)
  deriving DecidableEq

/-- The futures of the crate, and one of the user's own. -/
inductive Future where
  /-- `Yield`. -/
  | yieldNow
  /-- `Sleep`, the requests of the worker, `LocalMutexWait`, `ReadLockWait` and `WriteLockWait`. -/
  | request
  | socket
  /-- `WaitLocalSend` and `WaitLocalRecv`. -/
  | localChannel
  /-- `WaitLocalCondVar`, with the list of a `Mutex`, or with a `LocalMutex`. -/
  | localCondVar (mutex : Option ℕ)
  /-- `WaitLocalWaitGroup`. -/
  | localWaitGroup
  /-- `WaitSend` and `WaitRecv`. -/
  | channel
  /-- `MutexWait`. -/
  | mutex (list : ℕ)
  /-- `WaitCondVar`. -/
  | condVar (list : ℕ) (mutex : Option ℕ)
  /-- `WaitLockOfSubscribableMutex` of a `Mutex`. -/
  | subscribe (list : ℕ)
  /-- `WaitSharedWaitGroup`. -/
  | waitGroup (list : ℕ)
  | asyncify
  /-- `UpdateCurrentTaskLocality`. -/
  | updateLocality (isLocal : Bool)
  /-- A future of the user, which calls its waker or keeps its task somewhere. -/
  | own
  deriving DecidableEq

/-- How far a future has come: `was_called`, `was_yielded`, `call_state` and `state`. -/
inductive Stage where
  | first
  | woken
  | lock
  deriving DecidableEq

/-- Which way a poll takes. -/
inductive Choice (τ : Type*) where
  /-- There is nothing to wait for. -/
  | done
  /-- Another task has waited for this one. -/
  | partner (t : τ)
  /-- The lock of the channel is taken. -/
  | busy
  | wait
  /-- A future of the user calls its waker. -/
  | wake
  deriving DecidableEq

/-- What a poll does, whether it returns `Ready`, and how far the future is then. -/
structure Poll (τ : Type*) where
  instrs : List (Instr τ)
  ready : Bool
  next : Stage
  deriving DecidableEq

namespace Poll

variable {τ : Type*}

def returnReady (instrs : List (Instr τ)) (stage : Stage) : Poll τ := ⟨instrs, true, stage⟩

def returnPending (instrs : List (Instr τ)) (next : Stage) : Poll τ := ⟨instrs, false, next⟩

end Poll

namespace Future

variable {τ : Type*}

/-- Whether the future begins with `panic_if_local_in_future`. -/
def panicsIfLocal : Future → Bool
  | channel | mutex _ | condVar _ _ | waitGroup _ => true
  | _ => false

/-- `low_level_subscribe` of a mutex. -/
def lowLevelSubscribe : Option ℕ → Instr τ
  | none => .park
  | some list => .push list

def poll (socketIsSupported : Bool) : Future → Stage → Choice τ → Option (Poll τ)
  | yieldNow, .first, .wait => some (.returnPending [.yieldNow] .woken)
  | request, .first, .wait => some (.returnPending [.park] .woken)
  | socket, .first, .wait =>
    some (.returnPending [if socketIsSupported then .park else .spawnLocalTask] .woken)
  | localChannel, .first, .done => some (.returnReady [] .first)
  | localChannel, .first, .partner t => some (.returnReady [.execTask t] .first)
  | localChannel, .first, .wait => some (.returnPending [.park] .woken)
  | localCondVar _, .first, .wait => some (.returnPending [.park] .woken)
  | localCondVar m, .woken, .wait => some (.returnPending [lowLevelSubscribe m] .lock)
  | localWaitGroup, .first, .done => some (.returnReady [] .first)
  | localWaitGroup, .first, .wait => some (.returnPending [.park] .first)
  | channel, .first, .busy =>
    some (.returnPending [.invokeCall .pushCurrentTaskAtTheStartOfLIFOSharedQueue] .first)
  | channel, .first, .done => some (.returnReady [] .first)
  | channel, .first, .partner t => some (.returnReady [.execTask t] .first)
  | channel, .first, .wait =>
    some (.returnPending [.park, .invokeCall .releaseAtomicBool] .woken)
  | mutex _, .first, .done => some (.returnReady [] .first)
  | mutex list, .first, .wait =>
    some (.returnPending [.invokeCall (.pushCurrentTaskTo list)] .woken)
  | condVar list _, .first, .wait =>
    some (.returnPending [.invokeCall (.pushCurrentTaskTo list)] .woken)
  | condVar _ m, .woken, .wait => some (.returnPending [lowLevelSubscribe m] .lock)
  | subscribe list, .first, .wait => some (.returnPending [.push list] .woken)
  | waitGroup list, .first, .wait => some
    (.returnPending [.invokeCall (.pushCurrentTaskToAndRemoveItIfCounterIsZero list)] .woken)
  | asyncify, .first, .wait => some (.returnPending [.invokeCall .pushFnToThreadPool] .woken)
  | updateLocality isLocal, .first, .wait =>
    some (.returnPending [.invokeCall (.changeCurrentTaskLocality isLocal)] .woken)
  | own, stage, .done => some (.returnReady [] stage)
  | own, stage, .wait => some (.returnPending [.park] stage)
  | own, stage, .wake => some (.returnPending [.wake] stage)
  -- Whoever has been woken is ready.
  | _, .woken, .done => some (.returnReady [] .woken)
  | _, .lock, .done => some (.returnReady [] .lock)
  | _, _, _ => none

end Future

end Orengine.Runtime.Machine
