import Orengine.Lib.Reach

/-!
# `Config`

A configuration has to be validated before an executor is created from it.  All executors with work
sharing must have an io worker or none, and a thread pool or none.  `validate` compares the
configuration with global statistics of the live `ValidConfig`s, and counts it there, first for the
io worker and then for the thread pool; it panics if another class is not empty.  When a
`ValidConfig` is dropped, it is subtracted.

The statistics are behind a lock, which is released if `validate` panics.  The counters are natural
numbers: there are fewer than `2^64` configurations.  `leaked` is a history, of the configurations
whose validation has panicked after they were counted for the io worker.
-/

namespace Orengine.Runtime

open Orengine.Lib

/-- How many live configurations with work sharing have a part of an executor enabled, and how many
have not. -/
structure ConfigStats.Part where
  enabled : ℕ
  disabled : ℕ
  deriving DecidableEq

structure ConfigStats where
  /-- `number_of_executors_with_enabled_io_worker_and_work_sharing` and
  `number_of_executors_with_work_sharing_and_without_io_worker`. -/
  ioWorker : ConfigStats.Part
  /-- `number_of_executors_with_enabled_thread_pool_and_work_sharing` and
  `number_of_executors_with_work_sharing_and_without_thread_pool`. -/
  threadPool : ConfigStats.Part
  deriving DecidableEq

namespace ConfigStats

def new : ConfigStats := ⟨⟨0, 0⟩, ⟨0, 0⟩⟩

/-- A check of `validate`, which counts the configuration unless it panics: with the first message
for a configuration that has the part, and with the second one otherwise. -/
def Part.count (p : Part) (isEnabled : Bool) (message message' : String) : Except String Part :=
  if isEnabled then
    if p.disabled ≠ 0 then .error message else .ok { p with enabled := p.enabled + 1 }
  else
    if p.enabled ≠ 0 then .error message' else .ok { p with disabled := p.disabled + 1 }

/-- A subtraction of `ValidConfig::drop`. -/
def Part.uncount (p : Part) (isEnabled : Bool) : Part :=
  if isEnabled then { p with enabled := p.enabled - 1 }
  else { p with disabled := p.disabled - 1 }

end ConfigStats

/-- `usize::MAX`. -/
def usizeMax : ℕ := UInt64.size - 1

/-- `Config` and `ValidConfig`, which have the same fields; `γ` is `IoWorkerConfig`. -/
structure Config (γ : Type*) where
  bufferCap : ℕ
  ioWorkerConfig : Option γ
  numberOfThreadWorkers : ℕ
  /-- If it is `usize::MAX`, work sharing is disabled. -/
  workSharingLevel : ℕ
  deriving DecidableEq

namespace Config

variable {γ : Type*}

/-- `Config::default`, with the default `IoWorkerConfig`. -/
def default (ioWorkerConfig : γ) : Config γ where
  bufferCap := 4096
  ioWorkerConfig := some ioWorkerConfig
  numberOfThreadWorkers := 1
  workSharingLevel := 7

def disableIoWorker (c : Config γ) : Config γ := { c with ioWorkerConfig := none }

def setNumbersOfBlockingWorkers (c : Config γ) (numberOfThreadWorkers : ℕ) : Config γ :=
  { c with numberOfThreadWorkers := numberOfThreadWorkers }

def isThreadPoolEnabled (c : Config γ) : Bool := c.numberOfThreadWorkers != 0

def isWorkSharingEnabled (c : Config γ) : Bool := c.workSharingLevel != usizeMax

def setWorkSharingLevel (c : Config γ) (workSharingLevel : ℕ) : Config γ :=
  { c with workSharingLevel := if workSharingLevel = 0 then 1 else workSharingLevel }

/-- The level, unless work sharing is disabled. -/
def level (c : Config γ) : Option ℕ :=
  if c.isWorkSharingEnabled then some c.workSharingLevel else none

/-- `AN_ATTEMPT_TO_CREATE_EXECUTOR_WITH_WORK_SHARING_AND_IO_WORKER`. -/
def anAttemptWithIoWorker : String :=
  "An attempt to create an Executor with work sharing and with an IO worker has failed because " ++
  "another Executor was created with work sharing enabled and without an IO worker enabled. " ++
  "This is unacceptable because an Executor who does not have an IO worker cannot take on a " ++
  "task that requires an IO worker."

/-- `AN_ATTEMPT_TO_CREATE_EXECUTOR_WITH_WORK_SHARING_AND_WITHOUT_IO_WORKER`. -/
def anAttemptWithoutIoWorker : String :=
  "An attempt to create an Executor with work sharing and without an IO worker has failed " ++
  "because another Executor was created with an IO worker and work sharing enabled. " ++
  "This is unacceptable because an Executor who does not have an IO worker cannot take on a " ++
  "task that requires an IO worker."

/-- `AN_ATTEMPT_TO_CREATE_EXECUTOR_WITH_WORK_SHARING_AND_THREAD_POOL`. -/
def anAttemptWithThreadPool : String :=
  "An attempt to create an Executor with work sharing and with a thread pool enabled has failed " ++
  "because another Executor was created with work sharing enabled and without a thread pool " ++
  "enabled. This is unacceptable because an Executor who does not have a thread pool cannot " ++
  "take on a task that requires a thread pool."

/-- `AN_ATTEMPT_TO_CREATE_EXECUTOR_WITH_WORK_SHARING_AND_WITHOUT_THREAD_POOL`. -/
def anAttemptWithoutThreadPool : String :=
  "An attempt to create an Executor with work sharing and without a thread pool enabled has " ++
  "failed because another Executor was created with both a thread pool and work sharing " ++
  "enabled. This is unacceptable because an Executor who does not have a thread pool cannot " ++
  "take on a task that requires a thread pool."

/-- The first check of `validate`. -/
def countIoWorker (c : Config γ) (stats : ConfigStats) : Except String ConfigStats :=
  (stats.ioWorker.count c.ioWorkerConfig.isSome anAttemptWithIoWorker anAttemptWithoutIoWorker).map
    fun p => { stats with ioWorker := p }

/-- The second check of `validate`. -/
def countThreadPool (c : Config γ) (stats : ConfigStats) : Except String ConfigStats :=
  (stats.threadPool.count c.isThreadPoolEnabled anAttemptWithThreadPool
    anAttemptWithoutThreadPool).map fun p => { stats with threadPool := p }

/-- `validate`: the `ValidConfig` or the message of the panic, and the statistics. -/
def validate (c : Config γ) (stats : ConfigStats) : Except String (Config γ) × ConfigStats :=
  if c.isWorkSharingEnabled then
    match c.countIoWorker stats with
    | .error message => (.error message, stats)
    | .ok stats =>
      match c.countThreadPool stats with
      | .error message => (.error message, stats)
      | .ok stats => (.ok c, stats)
  else (.ok c, stats)

def drop (c : Config γ) (stats : ConfigStats) : ConfigStats :=
  if c.isWorkSharingEnabled then
    { ioWorker := stats.ioWorker.uncount c.ioWorkerConfig.isSome
      threadPool := stats.threadPool.uncount c.isThreadPoolEnabled }
  else stats

end Config

namespace Configs

inductive Action (γ : Type*) where
  /-- A call of `validate`; a panic is caught. -/
  | validate (c : Config γ)
  /-- The live `ValidConfig` with this number is dropped. -/
  | drop (i : ℕ)

end Configs

/-- The global statistics, and the `ValidConfig`s that are live. -/
structure Configs (γ : Type*) where
  stats : ConfigStats
  live : List (Config γ)
  leaked : List (Config γ)

namespace Configs

variable {γ : Type*}

/-- Nothing was validated. -/
def new : Configs γ := ⟨.new, [], []⟩

def step (s : Configs γ) : Action γ → Option (Configs γ)
  | .validate c =>
    match c.validate s.stats with
    | (.ok v, stats) => some { s with stats := stats, live := s.live ++ [v] }
    | (.error _, stats) =>
      match c.countIoWorker s.stats with
      | .ok _ => some { s with stats := stats, leaked := s.leaked ++ [c] }
      | .error _ => some { s with stats := stats }
  | .drop i =>
    (s.live[i]?).map fun v => { s with stats := v.drop s.stats, live := s.live.eraseIdx i }

end Configs

end Orengine.Runtime
