import Mathlib.Data.List.Basic
import Orengine.Lib.Reach

/-!
# `LocalThreadWorkerPool` and `Asyncify`

An executor has a pool of threads for blocking functions.  When a task awaits an `Asyncify`, the
executor pushes it with the function, the *job*, to the channel of one of the threads, after the
poll of the task has returned.  A thread receives from its channel, runs the job, and pushes the
task to a list that all threads share; in each round the executor polls the pool, which moves the
tasks from this list to its own queue.  When such a task is executed, the future is ready.

The list is behind a lock, and a step of a thread is what it does before, in or after the lock.  A
`Task` has one owner: one that awaits an `Asyncify` is not in a queue of the executor until the pool
puts it back.  Jobs are told apart by how many were pushed before.  The pool has at least one
thread, a job returns normally, and `wait` is a number that does not overflow.
-/

namespace Orengine.Runtime.LocalThreadPool

structure ThreadWorkerTask (τ : Type*) where
  task : τ
  job : ℕ
  deriving DecidableEq

/-- Where a thread is in the loop of `ThreadWorker::run`. -/
inductive Phase (τ : Type*) where
  /-- It receives from the channel. -/
  | receiving
  /-- It runs the job. -/
  | running (x : ThreadWorkerTask τ)
  /-- The job has returned, and the task is pushed to the list. -/
  | pushing (x : ThreadWorkerTask τ)

structure ThreadWorker (τ : Type*) where
  channel : List (ThreadWorkerTask τ)
  phase : Phase τ

/-- `LocalThreadWorkerPool`, with `n + 1` threads. -/
structure LocalThreadWorkerPool (τ : Type*) (n : ℕ) where
  wait : ℕ
  workers : Fin (n + 1) → ThreadWorker τ
  resultList : List (ThreadWorkerTask τ)

namespace LocalThreadWorkerPool

variable {τ : Type*} {n : ℕ}

def new : LocalThreadWorkerPool τ n := ⟨0, fun _ => ⟨[], .receiving⟩, []⟩

def setWorker (p : LocalThreadWorkerPool τ n) (i : Fin (n + 1)) (w : ThreadWorker τ) :
    LocalThreadWorkerPool τ n := { p with workers := Function.update p.workers i w }

/-- `SyncTaskList::push` to the list of the pool. -/
def pushResult (p : LocalThreadWorkerPool τ n) (x : ThreadWorkerTask τ) :
    LocalThreadWorkerPool τ n := { p with resultList := p.resultList ++ [x] }

/-- The thread that the next job is sent to. -/
def nextWorker (p : LocalThreadWorkerPool τ n) : Fin (n + 1) := Fin.ofNat (n + 1) p.wait

def push (p : LocalThreadWorkerPool τ n) (x : ThreadWorkerTask τ) : LocalThreadWorkerPool τ n where
  wait := p.wait + 1
  workers := Function.update p.workers p.nextWorker
    ⟨(p.workers p.nextWorker).channel ++ [x], (p.workers p.nextWorker).phase⟩
  resultList := p.resultList

/-- The deque after `pop_all_in_deque`. -/
def popAllInDeque (p : LocalThreadWorkerPool τ n) (otherList : List τ) : List τ :=
  otherList ++ p.resultList.map ThreadWorkerTask.task

/-- `LocalThreadWorkerPool::poll`: what it returns, the pool and the list. -/
def poll (p : LocalThreadWorkerPool τ n) (otherList : List τ) :
    Bool × LocalThreadWorkerPool τ n × List τ :=
  if p.wait = 0 then (false, p, otherList)
  else
    (true,
      { p with
          wait := p.wait - ((p.popAllInDeque otherList).length - otherList.length)
          resultList := [] },
      p.popAllInDeque otherList)

end LocalThreadWorkerPool

/-- `Asyncify`, without its function. -/
structure Asyncify where
  wasCalled : Bool

/-- What `Asyncify::poll` returns. -/
inductive Poll where
  /-- `Pending`, after `PushFnToThreadPool` was invoked. -/
  | pendingWithCall
  | ready

def Asyncify.poll (f : Asyncify) : Asyncify × Poll :=
  if !f.wasCalled then (⟨true⟩, .pendingWithCall) else (f, .ready)

/-- What happens to a job. -/
inductive Event (τ : Type*) where
  /-- It is pushed to the pool. -/
  | pushed (x : ThreadWorkerTask τ)
  /-- A thread begins to run it. -/
  | started (x : ThreadWorkerTask τ)
  /-- It has returned. -/
  | finished (x : ThreadWorkerTask τ)
  /-- Its task is put back into the queue of the executor. -/
  | putBack (x : ThreadWorkerTask τ)
  deriving DecidableEq

def Event.about {τ : Type*} : Event τ → ThreadWorkerTask τ
  | .pushed x => x
  | .started x => x
  | .finished x => x
  | .putBack x => x

def Event.isPutBack {τ : Type*} : Event τ → Bool
  | .putBack _ => true
  | _ => false

inductive Action (τ : Type*) (n : ℕ) where
  /-- A running task awaits an `Asyncify`, and its poll returns. -/
  | asyncify (t : τ)
  /-- A task is spawned. -/
  | spawn (t : τ)
  /-- The executor takes a task from its queue and executes it. -/
  | exec (t : τ)
  /-- A thread receives a job. -/
  | recv (i : Fin (n + 1))
  /-- The job of a thread returns. -/
  | finish (i : Fin (n + 1))
  /-- A thread pushes the task to the list. -/
  | pushResult (i : Fin (n + 1))
  /-- The executor polls the pool. -/
  | poll

/-- Whether a step is one of a thread, or a poll. -/
def Action.isPool {τ : Type*} {n : ℕ} : Action τ n → Bool
  | .recv _ => true
  | .finish _ => true
  | .pushResult _ => true
  | .poll => true
  | _ => false

/-- An executor with its pool. -/
structure System (τ : Type*) (n : ℕ) where
  pool : LocalThreadWorkerPool τ n
  localTasks : List τ
  /-- The `Asyncify` that a task awaits. -/
  futures : τ → Option Asyncify
  /-- The tasks that were pushed to the pool, in order. -/
  pushed : List τ
  log : List (Event τ)

namespace System

variable {τ : Type*} {n : ℕ}

def init : System τ n := ⟨.new, [], fun _ => none, [], []⟩

def setPool (s : System τ n) (p : LocalThreadWorkerPool τ n) : System τ n := { s with pool := p }

/-- Change a thread, and record what happens. -/
def setWorker (s : System τ n) (i : Fin (n + 1)) (w : ThreadWorker τ) (l : List (Event τ)) :
    System τ n := { s with pool := s.pool.setWorker i w, log := s.log ++ l }

def recv (s : System τ n) (i : Fin (n + 1)) : Option (System τ n) :=
  match s.pool.workers i with
  | ⟨x :: channel, .receiving⟩ => some (s.setWorker i ⟨channel, .running x⟩ [.started x])
  | _ => none

def finish (s : System τ n) (i : Fin (n + 1)) : Option (System τ n) :=
  match s.pool.workers i with
  | ⟨channel, .running x⟩ => some (s.setWorker i ⟨channel, .pushing x⟩ [.finished x])
  | _ => none

/-- A thread pushes the task to the list, and begins again. -/
def pushResult (s : System τ n) (i : Fin (n + 1)) : Option (System τ n) :=
  match s.pool.workers i with
  | ⟨channel, .pushing x⟩ =>
    some (s.setPool ((s.pool.setWorker i ⟨channel, .receiving⟩).pushResult x))
  | _ => none

def poll (s : System τ n) : System τ n :=
  match s.pool.poll s.localTasks with
  | (false, _) => s
  | (true, pool, localTasks) =>
    { s with
        pool := pool
        localTasks := localTasks
        log := s.log ++ s.pool.resultList.map .putBack }

/-- `handle_call` for `PushFnToThreadPool`. -/
def pushFnToThreadPool (s : System τ n) (t : τ) : System τ n :=
  { s with
      pool := s.pool.push ⟨t, s.pushed.length⟩
      pushed := s.pushed ++ [t]
      log := s.log ++ [.pushed ⟨t, s.pushed.length⟩] }

variable [DecidableEq τ]

/-- Change the `Asyncify` that a task awaits. -/
def setFuture (s : System τ n) (t : τ) (f : Option Asyncify) : System τ n :=
  { s with futures := Function.update s.futures t f }

/-- A task polls the `Asyncify` that it awaits. -/
def pollFuture (s : System τ n) (t : τ) (f : Asyncify) : System τ n :=
  match f.poll with
  | (f, .pendingWithCall) => (s.setFuture t (some f)).pushFnToThreadPool t
  | (_, .ready) => s.setFuture t none

/-- The executor executes a task of its queue. -/
def exec (s : System τ n) (t : τ) : System τ n :=
  match s.futures t with
  | none => { s with localTasks := s.localTasks.erase t }
  | some f => { s with localTasks := s.localTasks.erase t }.pollFuture t f

def step (s : System τ n) : Action τ n → Option (System τ n)
  | .asyncify t =>
    if s.futures t = none ∧ t ∉ s.localTasks then some (s.pollFuture t ⟨false⟩) else none
  | .spawn t =>
    if s.futures t = none ∧ t ∉ s.localTasks then
      some { s with localTasks := s.localTasks ++ [t] }
    else none
  | .exec t => if t ∈ s.localTasks then some (s.exec t) else none
  | .recv i => s.recv i
  | .finish i => s.finish i
  | .pushResult i => s.pushResult i
  | .poll => some s.poll

end System

end Orengine.Runtime.LocalThreadPool
