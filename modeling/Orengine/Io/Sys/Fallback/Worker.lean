import Orengine.Lib.Reach
import Orengine.Io.TimeBoundedIoTask

/-!
# The fallback worker without a thread pool

A request is tried at once, in the poll of the future that starts it; if it would block, it waits in
the poller until its socket is ready, and is then tried again.  A request with a deadline that waits
has an entry in `time_bounded_io_task_queue`; `poll_and_process` removes the entry *with the
deadline of the request* when the request is polled, and `check_deadlines` when the deadline has
come.  The poller is the list of the requests that wait in it; `MioPoller` itself is in
`Orengine.Io.Mio`, which supposes that a socket is registered for one request at a time.  A second
one makes the registration fail, or closes the socket: both are `registerFailed` here.

When a request is done, its result is stored and its task is scheduled: executed if it is local, and
spawned if it is shared.  But where the request is tried, its task is supposed to be the running
one: a local task is put into the queue, and for a shared one the executor is told by `invoke_call`
to push *the current task* when its poll returns `Pending`.  If the call is not handled before
another task is polled, that task is pushed; should it wait for a request of its own, then the
future of this request is polled without a result.

A future that starts a request returns `Pending`, and so does the poll of its task, with nothing in
between; nobody but the worker polls a task that waits for a request.  Each request that was polled
and each round of `check_deadlines` is one step, since a task that is executed there can start
requests.  The arithmetic is that of a build without debug assertions, and a step that panics is
none, except for the asserts of `poll_and_process`, the `unwrap` of `check_deadlines` and the failed
registrations, which are recorded in `panicked`.  The request that has invoked the current call, and
the log, are histories.
-/

namespace Orengine.Io.Fallback

open Orengine.Lib

/-- `IoCall`, without its arguments. -/
inductive IoCall where
  | accept
  | connect
  | pollRecv
  | pollSend
  | recv
  | recvFrom
  | send
  | sendTo
  | peek
  | peekFrom
  deriving DecidableEq

def IoCall.mustRetry : IoCall → Bool
  | .connect => false
  | .pollRecv => false
  | .pollSend => false
  | _ => true

/-- Whether the call only waits for the socket, and is registered without being tried. -/
def IoCall.isPoll : IoCall → Bool
  | .pollRecv => true
  | .pollSend => true
  | _ => false

/-- What a future asks the worker for. -/
inductive Kind where
  /-- An operation that is not pollable, by `handle_io_operation`. -/
  | operation
  /-- An `IoCall`, with its socket. -/
  | call (c : IoCall) (rawSocket : ℕ)
  deriving DecidableEq

/-- What an operation returns that was not interrupted. -/
inductive Outcome where
  | ok (ret : ℕ)
  | wouldBlock
  | inProgress
  | error (kind : ErrorKind)
  deriving DecidableEq

/-- A request, as its future and its `IoRequestData` have it. -/
structure Request (τ : Type*) where
  task : τ
  isLocal : Bool
  kind : Kind
  deadline : Option ℕ
  ret : Option (Except ErrorKind ℕ)
  /-- Whether its task was scheduled. -/
  isScheduled : Bool
  /-- Whether its future has returned the result. -/
  isResumed : Bool

/-- The value of `IoRequestData::ret` as long as no result was stored. -/
def uninitResult : Except ErrorKind ℕ := .ok ((1 <<< 32) - 1)

/-- A request that is about to be performed. -/
def Request.new {τ : Type*} (task : τ) (isLocal : Bool) (kind : Kind) (deadline : Option ℕ) :
    Request τ :=
  ⟨task, isLocal, kind, deadline, none, false, false⟩

/-- What the future of a request reads as its result. -/
def Request.result {τ : Type*} (r : Request τ) : Except ErrorKind ℕ := r.ret.getD uninitResult

def Request.rawSocket {τ : Type*} (r : Request τ) : Option ℕ :=
  match r.kind with
  | .operation => none
  | .call _ rawSocket => some rawSocket

/-- Whether the deadline of a request has come, as `check_deadline_and` sees it. -/
def Request.isOverdue {τ : Type*} (r : Request τ) (lastGottenTime : ℕ) : Bool :=
  r.deadline.any fun d => decide (d ≤ lastGottenTime)

/-- Whether the request is tried again after it was polled. -/
def Request.mustRetry {τ : Type*} (r : Request τ) : Bool :=
  match r.kind with
  | .operation => false
  | .call c _ => c.mustRetry

/-- Where `must_poll` is. -/
inductive Phase (ι : Type*) where
  /-- The executor is not in `must_poll`. -/
  | idle
  /-- `poll_and_process` has to process these requests, of the so many that were polled; a request
  comes with whether its socket has no error. -/
  | processing (polled : List (ι × Bool)) (len : ℕ)
  /-- It is in the loop of `check_deadlines`. -/
  | checking

/-- The requests that were polled and not processed yet. -/
def Phase.polled {ι : Type*} : Phase ι → List ι
  | .idle => []
  | .processing polled _ => polled.map Prod.fst
  | .checking => []

/-- `FallbackWorker`. -/
structure Worker (ι : Type*) where
  numberOfActiveTasks : UInt64
  /-- The requests that wait in the poller. -/
  poller : List ι
  timeBoundedIoTaskQueue : TimeBoundedIoTaskQueue ι
  lastGottenTime : ℕ
  phase : Phase ι

namespace Worker

variable {ι : Type*}

def new (now : ℕ) : Worker ι := ⟨0, [], SortedMap.empty, now, .idle⟩

/-- The requests that wait, or were polled and not processed yet. -/
def waiting (w : Worker ι) : List ι := w.poller ++ w.phase.polled

def setQueue (w : Worker ι) (q : TimeBoundedIoTaskQueue ι) : Worker ι :=
  { w with timeBoundedIoTaskQueue := q }

def setPhase (w : Worker ι) (p : Phase ι) : Worker ι := { w with phase := p }

/-- A request for a socket that is not registered: the deadline that it gets, and the worker. -/
def register (w : Worker ι) (i : ι) : Option ℕ → Option ℕ × Worker ι
  | none =>
    (none, { w with
        numberOfActiveTasks := w.numberOfActiveTasks + 1
        poller := w.poller ++ [i] })
  | some deadline =>
    (some (w.timeBoundedIoTaskQueue.register i deadline).1,
      { w with
          numberOfActiveTasks := w.numberOfActiveTasks + 1
          poller := w.poller ++ [i]
          timeBoundedIoTaskQueue := (w.timeBoundedIoTaskQueue.register i deadline).2 })

/-- `number_of_active_tasks -= 1`. -/
def decrement (w : Worker ι) : Worker ι :=
  { w with numberOfActiveTasks := w.numberOfActiveTasks - 1 }

/-- The end of `poll_and_process` and the start of `check_deadlines`. -/
def endProcessing (w : Worker ι) (len now : ℕ) : Worker ι :=
  { w with
      numberOfActiveTasks := w.numberOfActiveTasks - UInt64.ofNat len
      lastGottenTime := now
      phase := .checking }

variable [DecidableEq ι]

/-- `MioPoller::poll` for the events that there are; `none` if there cannot be such events. -/
def poll (w : Worker ι) (events : List (ι × Bool)) : Option (Worker ι) :=
  if w.numberOfActiveTasks ≠ 0 ∧ (events.map Prod.fst).Nodup ∧
      ∀ i ∈ events.map Prod.fst, i ∈ w.poller then
    match w.phase with
    | .idle =>
      some { w with
        poller := w.poller.filter fun i => i ∉ events.map Prod.fst
        phase := .processing events events.length }
    | _ => none
  else none

/-- `MioPoller::deregister` of a request that has expired. -/
def deregister (w : Worker ι) (i : ι) (q : TimeBoundedIoTaskQueue ι) : Worker ι :=
  { w with poller := w.poller.filter fun j => j ≠ i, timeBoundedIoTaskQueue := q }

end Worker

/-- What happens to the tasks because of a request. -/
inductive Event (τ ι : Type*) where
  /-- The result of a request is stored. -/
  | stored (i : ι)
  /-- A task is spawned, executed or pushed because of a request. -/
  | scheduled (i : ι) (t : τ)
  deriving DecidableEq

def Event.request {τ ι : Type*} : Event τ ι → ι
  | .stored i => i
  | .scheduled i _ => i

/-- The panics that are recorded. -/
inductive Panic where
  /-- "Failed to remove time bounded io task." -/
  | removeFailed
  /-- "Failed to remove time bounded io task in an error case." -/
  | removeFailedInErrorCase
  /-- The request of an entry that has expired is not in the poller. -/
  | deregisterFailed
  /-- Another request waits for the socket. -/
  | registerFailed
  deriving DecidableEq

inductive Action (τ ι : Type*) where
  | tick (nanos : ℕ)
  /-- A running task starts a request, which returns this if it is tried. -/
  | start (i : ι) (task : τ) (isLocal : Bool) (kind : Kind) (deadline : Option ℕ)
      (outcome : Outcome)
  /-- The poll of a task returns `Pending` for another reason. -/
  | pending (t : τ)
  /-- The future of a request is polled again, and returns what it reads as the result. -/
  | resume (i : ι)
  /-- `must_poll`, with the events of the poller. -/
  | poll (events : List (ι × Bool))
  /-- `poll_and_process` processes the next request, which returns this if it is tried again. -/
  | process (outcome : Outcome)
  /-- A round of `check_deadlines`. -/
  | check

/-- An executor with a fallback worker. -/
structure System (τ ι : Type*) where
  clock : ℕ
  worker : Worker ι
  requests : ι → Option (Request τ)
  /-- The request that has invoked `PushCurrentTaskAtTheStartOfLIFOSharedQueue`, if this is the
  current call. -/
  currentCall : Option ι
  log : List (Event τ ι)
  panicked : Option Panic

namespace System

variable {τ ι : Type*}

def init (now : ℕ) : System τ ι := ⟨now, Worker.new now, fun _ => none, none, [], none⟩

def setWorker (s : System τ ι) (w : Worker ι) : System τ ι := { s with worker := w }

def panic (s : System τ ι) (p : Panic) : System τ ι := { s with panicked := some p }

/-- Whether another request waits for the socket of a request. -/
def isOccupied (s : System τ ι) (r : Request τ) : Bool :=
  s.worker.poller.any fun j => (s.requests j).any fun r' => r'.rawSocket == r.rawSocket

variable [DecidableEq ι]

def setRequest (s : System τ ι) (i : ι) (r : Request τ) : System τ ι :=
  { s with requests := Function.update s.requests i (some r) }

/-- Store the result, and execute or spawn the task. -/
def storeAndSchedule (s : System τ ι) (i : ι) (r : Request τ) (ret : Except ErrorKind ℕ) :
    System τ ι :=
  { s with
      requests := Function.update s.requests i
        (some { r with ret := some ret, isScheduled := true })
      log := s.log ++ [.stored i, .scheduled i r.task] }

/-- Store the result, and have the current task pushed. -/
def storeAndInvokeCall (s : System τ ι) (i : ι) (r : Request τ) (ret : Except ErrorKind ℕ) :
    System τ ι :=
  { s with
      requests := Function.update s.requests i (some { r with ret := some ret })
      currentCall := some i
      log := s.log ++ [.stored i] }

/-- The end of `check_deadline_and`, of `handle_io_operation` and of `handle_io_call`. -/
def storeAndSpawn (s : System τ ι) (i : ι) (r : Request τ) (ret : Except ErrorKind ℕ) :
    System τ ι :=
  if r.isLocal then s.storeAndSchedule i r ret else s.storeAndInvokeCall i r ret

/-- The request waits in the poller. -/
def enroll (s : System τ ι) (i : ι) (r : Request τ) : System τ ι :=
  (s.setWorker (s.worker.register i r.deadline).2).setRequest i
    { r with deadline := (s.worker.register i r.deadline).1 }

/-- `register_io_call_to_poller_with_considering_deadline`. -/
def register (s : System τ ι) (i : ι) (r : Request τ) : System τ ι :=
  if s.isOccupied r then s.panic .registerFailed else s.enroll i r

def handleIoCall (s : System τ ι) (i : ι) (r : Request τ) : Outcome → System τ ι
  | .wouldBlock => s.register i r
  | .inProgress => s.register i r
  | .ok ret => s.storeAndSpawn i r (.ok ret)
  | .error kind => s.storeAndSpawn i r (.error kind)

/-- `handle_io_operation`; an operation that would block panics. -/
def handleIoOperation (s : System τ ι) (i : ι) (r : Request τ) : Outcome → Option (System τ ι)
  | .wouldBlock => none
  | .inProgress => none
  | .ok ret => some (s.storeAndSpawn i r (.ok ret))
  | .error kind => some (s.storeAndSpawn i r (.error kind))

/-- The method of the worker that a future calls. -/
def perform (s : System τ ι) (i : ι) (r : Request τ) (outcome : Outcome) : Option (System τ ι) :=
  match r.kind with
  | .operation => s.handleIoOperation i r outcome
  | .call c _ =>
    if r.isOverdue s.worker.lastGottenTime then some (s.storeAndSpawn i r (.error .timedOut))
    else if c.isPoll then some (s.register i r)
    else some (s.handleIoCall i r outcome)

/-- `poll_and_process` for a request whose socket has no error, after the removal of its entry. -/
def processReady (s : System τ ι) (i : ι) (r : Request τ) (outcome : Outcome) : System τ ι :=
  if r.isOverdue s.worker.lastGottenTime then s.storeAndSpawn i r (.error .timedOut)
  else if r.mustRetry then s.handleIoCall i r outcome
  else s.storeAndSchedule i r (.ok 0)

/-- The worker after the entry of a deadline was removed, if there is one. -/
def removeEntry (s : System τ ι) : Option ℕ → Option (System τ ι)
  | none => some s
  | some d =>
    if s.worker.timeBoundedIoTaskQueue.contains d then
      some (s.setWorker (s.worker.setQueue (s.worker.timeBoundedIoTaskQueue.erase d)))
    else none

/-- `poll_and_process` for one request, with what is left to do after it. -/
def processOne (s : System τ ι) (i : ι) (r : Request τ) (isReady : Bool) (rest : Phase ι)
    (outcome : Outcome) : System τ ι :=
  match s.removeEntry r.deadline, isReady with
  | some s, true => (s.setWorker (s.worker.setPhase rest)).processReady i r outcome
  | some s, false =>
    (s.setWorker (s.worker.setPhase rest).decrement).storeAndSchedule i r (.error .other)
  | none, true => s.panic .removeFailed
  | none, false => s.panic .removeFailedInErrorCase

/-- The next request of `poll_and_process`; at the end `check_deadlines` begins. -/
def process (s : System τ ι) (outcome : Outcome) : Option (System τ ι) :=
  match s.worker.phase with
  | .processing [] len => some (s.setWorker (s.worker.endProcessing len s.clock))
  | .processing ((i, isReady) :: polled) len =>
    (s.requests i).map fun r => s.processOne i r isReady (.processing polled len) outcome
  | _ => none

def check (s : System τ ι) : Option (System τ ι) :=
  match s.worker.phase with
  | .checking =>
    match s.worker.timeBoundedIoTaskQueue.popFirst with
    | none => some (s.setWorker (s.worker.setPhase .idle))
    | some ((d, i), rest) =>
      if d ≤ s.worker.lastGottenTime then
        if i ∈ s.worker.poller then
          (s.requests i).map fun r =>
            (s.setWorker (s.worker.deregister i rest).decrement).storeAndSchedule i r
              (.error .timedOut)
        else some (s.panic .deregisterFailed)
      else some (s.setWorker ((s.worker.setQueue (rest.insert d i)).setPhase .idle))
  | _ => none

variable [DecidableEq τ]

/-- Whether a task was pushed because of a request that is not its own. -/
def isStray (s : System τ ι) (t : τ) : Bool :=
  s.log.any fun
    | .stored _ => false
    | .scheduled i u => decide (u = t) && (s.requests i).any fun r => decide (r.task ≠ t)

/-- The future of a request is polled again: `poll_for_io_request` or
`poll_for_time_bounded_io_request`. -/
def resume (s : System τ ι) (i : ι) : Option (System τ ι) :=
  match s.requests i with
  | some r =>
    if (r.isScheduled || s.isStray r.task) && !r.isResumed then
      some ((s.setWorker (s.worker.setQueue
        (s.worker.timeBoundedIoTaskQueue.deregisterAfter r.result r.deadline))).setRequest i
        { r with isResumed := true })
    else none
  | none => none

/-- The poll of a task returns `Pending`, and `handle_call` pushes the task if it is told to. -/
def endPoll (s : System τ ι) (t : τ) : System τ ι :=
  match s.currentCall with
  | none => s
  | some i =>
    { s with
        requests := Function.update s.requests i
          ((s.requests i).map fun r => if r.task = t then { r with isScheduled := true } else r)
        currentCall := none
        log := s.log ++ [.scheduled i t] }

/-- A running task starts a request. -/
def start (s : System τ ι) (i : ι) (r : Request τ) (outcome : Outcome) : Option (System τ ι) :=
  if (s.requests i).isSome || (r.kind == .operation && r.deadline.isSome) then none
  else (s.perform i r outcome).map fun t => if t.panicked.isSome then t else t.endPoll r.task

def step (s : System τ ι) (a : Action τ ι) : Option (System τ ι) :=
  if s.panicked.isSome then none
  else
    match a with
    | .tick nanos => some { s with clock := s.clock + nanos }
    | .start i task isLocal kind deadline outcome =>
      s.start i (.new task isLocal kind deadline) outcome
    | .pending t => some (s.endPoll t)
    | .resume i => s.resume i
    | .poll events => (s.worker.poll events).map s.setWorker
    | .process outcome => s.process outcome
    | .check => s.check

end System

end Orengine.Io.Fallback
