import Orengine.Lib.Reach
import Orengine.Io.TimeBoundedIoTask
import Mathlib.Data.Int.Notation

/-!
# The `io_uring` worker

Each executor has an `IOUringWorker`.  A request becomes an entry of the submission ring, or of the
backlog while the ring is full; `must_poll` cancels the requests that have expired, moves the
backlog to the ring, submits, and hands out the completions.  A request with a deadline has an entry
in `time_bounded_io_task_queue`, which `check_deadlines` of the worker takes out when it cancels the
request, or the future of the request when it is resumed.

The kernel is a party of its own.  Pushing to the ring fails exactly when it is full; a submission
that succeeds takes at least one of the entries that are published, if there are any; and each entry
that the kernel has taken gets one completion, at some time and with any result.  An entry that the
loop of `submit_and_poll` has pushed is published only by the next `sq.sync()`, after the next
submission.  So with two slots a submission of the full ring frees a slot, and with one it may not:
then the loop loses an entry of the backlog.

`must_poll` is cut into the steps between which other parties move: up to the submission, the
synchronization with the completion ring, and one step for each completion, whose task can add
requests before the next one is handled.  A local task is resumed at once (`exec_task`) or later (if
`exec_task` spawns it); a shared one is spawned, and any executor may resume it.  The futures use
the worker of the executor that polls them.
-/

namespace Orengine.Io.IoUring

open Orengine.Lib

/-- What an entry of the submission ring asks for. -/
inductive Op (ι : Type*) where
  /-- The operation of a request. -/
  | request (i : ι)
  /-- `AsyncCancel` of a request, with the user data `ASYNC_CLOSE_DATA`. -/
  | asyncCancel (i : ι)
  deriving DecidableEq

/-- `squeue::Entry`.  Entries are told apart by the order in which the worker has added them. -/
structure Entry (ι : Type*) where
  number : ℕ
  op : Op ι
  deriving DecidableEq

/-- `cqueue::Entry`: the entry that it completes, and its result. -/
structure Completion (ι : Type*) where
  entry : Entry ι
  result : ℤ
  deriving DecidableEq

/-- What `submit` and `submit_with_args` return. -/
inductive SubmitResult where
  /-- The kernel has taken so many entries. -/
  | ok (taken : ℕ)
  | ebusy
  | etime
  | error
  deriving DecidableEq

/-- `IOUringWorker`, with what the kernel has of it. -/
structure Worker (ι : Type*) where
  /-- The number of slots of the submission ring. -/
  ringSize : ℕ
  /-- The entries in the submission ring. -/
  ring : List (Entry ι)
  backlog : List (Entry ι)
  numberOfActiveTasks : ℕ
  timeBoundedIoTaskQueue : TimeBoundedIoTaskQueue ι
  /-- The entries that the kernel has taken and not completed. -/
  kernel : List (Entry ι)
  /-- The completion ring. -/
  completions : List (Completion ι)
  /-- How many entries were added. -/
  added : ℕ
  /-- The history of the entries that the kernel has taken. -/
  submitted : List (Entry ι)
  /-- The history of the entries whose completions were reaped. -/
  reaped : List (Entry ι)

namespace Worker

variable {ι : Type*}

def new (numberOfEntries : ℕ) : Worker ι :=
  { ringSize := numberOfEntries, ring := [], backlog := [], numberOfActiveTasks := 0,
    timeBoundedIoTaskQueue := SortedMap.empty, kernel := [], completions := [], added := 0,
    submitted := [], reaped := [] }

/-- The entries that were added and whose completions were not reaped yet. -/
def active (w : Worker ι) : List (Entry ι) :=
  w.backlog ++ (w.ring ++ (w.kernel ++ w.completions.map Completion.entry))

/-- Push an entry to the submission ring. -/
def push (w : Worker ι) (x : Entry ι) : Option (Worker ι) :=
  if w.ring.length < w.ringSize then some { w with ring := w.ring ++ [x] } else none

def addSqe (w : Worker ι) (op : Op ι) : Worker ι :=
  match w.push ⟨w.added, op⟩ with
  | some w' =>
    { w' with numberOfActiveTasks := w.numberOfActiveTasks + 1, added := w.added + 1 }
  | none =>
    { w with
        backlog := w.backlog ++ [⟨w.added, op⟩]
        numberOfActiveTasks := w.numberOfActiveTasks + 1
        added := w.added + 1 }

def cancelEntry (w : Worker ι) (i : ι) : Worker ι := w.addSqe (.asyncCancel i)

def setQueue (w : Worker ι) (q : TimeBoundedIoTaskQueue ι) : Worker ι :=
  { w with timeBoundedIoTaskQueue := q }

/-- The entries that `check_deadlines` takes out in a round that has started at some time, and
those that it leaves. -/
def expired (w : Worker ι) (startRoundTime : ℕ) : List (ℕ × ι) × TimeBoundedIoTaskQueue ι :=
  w.timeBoundedIoTaskQueue.takeExpired startRoundTime w.timeBoundedIoTaskQueue.entries.length

def checkDeadlines (w : Worker ι) (startRoundTime : ℕ) : Worker ι :=
  (w.expired startRoundTime).1.foldl (fun w expired => w.cancelEntry expired.2)
    (w.setQueue (w.expired startRoundTime).2)

/-- The kernel takes the first entries of the ring. -/
def take (w : Worker ι) (n : ℕ) : Worker ι :=
  { w with
      ring := w.ring.drop n
      kernel := w.kernel ++ w.ring.take n
      submitted := w.submitted ++ w.ring.take n }

/-- The start of a round of the loop of `submit_and_poll`: a full ring is submitted, whose last
entries may be unpublished.  The result says whether the round goes on, and has the results of the
later submissions. -/
def makeRoom (w : Worker ι) (unpublished : ℕ) (results : List SubmitResult) :
    Option (Worker ι × Bool × List SubmitResult) :=
  if w.ring.length < w.ringSize then some (w, true, results)
  else
    match results with
    | .ok n :: results =>
      if n + unpublished ≤ w.ring.length ∧ (n = 0 → w.ring.length = unpublished) then
        some (w.take n, true, results)
      else none
    | .ebusy :: results => some (w, false, results)
    | _ => none

/-- `let _ = sq.push(&sqe)`: an entry that does not fit is lost. -/
def pushOrDrop (w : Worker ι) (x : Entry ι) : Worker ι :=
  match w.push x with
  | some w' => w'
  | none => w

/-- The loop of `submit_and_poll` over the backlog: the worker, how many entries are unpublished,
and the results that are left. -/
def drainBacklog : List (Entry ι) → ℕ → Worker ι → List SubmitResult →
    Option (Worker ι × ℕ × List SubmitResult)
  | [], unpublished, w, results =>
    (w.makeRoom unpublished results).map fun r => (r.1, if r.2.1 then 0 else unpublished, r.2.2)
  | x :: backlog, unpublished, w, results =>
    match w.makeRoom unpublished results with
    | none => none
    | some (w, false, results) => some (w, unpublished, results)
    | some (w, true, results) =>
      drainBacklog backlog (if w.ring.length < w.ringSize then 1 else 0)
        ({ w with backlog := backlog }.pushOrDrop x) results

/-- `submit_and_poll` for the results of its submissions, those of the loop and the last one;
`none` if it fails, and `must_poll` panics. -/
def submitAndPoll (w : Worker ι) (results : List SubmitResult) (last : SubmitResult) :
    Option (Worker ι) :=
  match drainBacklog w.backlog 0 w results with
  | some (w, unpublished, []) =>
    match last with
    | .ok n => if n + unpublished ≤ w.ring.length then some (w.take n) else none
    | .ebusy => some w
    | .etime => some w
    | .error => none
  | _ => none

/-- The kernel completes one of its entries. -/
def complete (w : Worker ι) (n : ℕ) (result : ℤ) : Option (Worker ι) :=
  w.kernel[n]?.map fun x =>
    { w with
        kernel := w.kernel.eraseIdx n
        completions := w.completions ++ [⟨x, result⟩] }

/-- `number_of_active_tasks -= cq.len()`; the completions are then handled one by one. -/
def sync (w : Worker ι) : Worker ι :=
  { w with
      numberOfActiveTasks := w.numberOfActiveTasks - w.completions.length
      completions := []
      reaped := w.reaped ++ w.completions.map Completion.entry }

end Worker

def ecanceled : ℤ := 125

def etimedout : ℤ := 110

/-- The result that a request gets for a completion; `Error::from_raw_os_error` makes `ETIMEDOUT`
an error of the kind `TimedOut`, too. -/
def toRet (result : ℤ) : Except ErrorKind ℕ :=
  if 0 ≤ result then .ok result.toNat
  else if result = -ecanceled then .error .timedOut
  else if result = -etimedout then .error .timedOut
  else .error .other

/-- Where an executor is in `must_poll`. -/
inductive Phase (ι : Type*) where
  /-- It is not in `must_poll`. -/
  | idle
  /-- It has submitted. -/
  | submitted
  /-- It has to handle these completions. -/
  | reaping (completions : List (Completion ι))

/-- The completions that an executor has to handle. -/
def Phase.completions {ι : Type*} : Phase ι → List (Completion ι)
  | .idle => []
  | .submitted => []
  | .reaping completions => completions

/-- The part of an executor that is about io. -/
structure Executor (ι : Type*) where
  worker : Worker ι
  startRoundTime : ℕ
  phase : Phase ι

namespace Executor

variable {ι : Type*}

/-- The entries whose completions were not handled yet. -/
def outstanding (x : Executor ι) : List (Entry ι) :=
  x.worker.active ++ x.phase.completions.map Completion.entry

def queue (x : Executor ι) : TimeBoundedIoTaskQueue ι := x.worker.timeBoundedIoTaskQueue

/-- A request is in flight: its completion was not handled yet. -/
def InFlight (x : Executor ι) (i : ι) : Prop := ∃ y ∈ x.outstanding, y.op = .request i

def setWorker (x : Executor ι) (w : Worker ι) : Executor ι := { x with worker := w }

def setPhase (x : Executor ι) (p : Phase ι) : Executor ι := { x with phase := p }

def setQueue (x : Executor ι) (q : TimeBoundedIoTaskQueue ι) : Executor ι :=
  x.setWorker (x.worker.setQueue q)

/-- The executor sets its `start_round_time`. -/
def newRound (x : Executor ι) (now : ℕ) : Executor ι := { x with startRoundTime := now }

/-- A task starts a request: the deadline that it gets, if it has one, and the executor. -/
def request (x : Executor ι) (i : ι) : Option ℕ → Option ℕ × Executor ι
  | none => (none, x.setWorker (x.worker.addSqe (.request i)))
  | some deadline =>
    (some (x.queue.register i deadline).1,
      x.setWorker ((x.worker.setQueue (x.queue.register i deadline).2).addSqe (.request i)))

/-- `must_poll` up to the completions. -/
def mustPoll (x : Executor ι) (results : List SubmitResult) (last : SubmitResult) :
    Option (Executor ι) :=
  match x.phase with
  | .idle =>
    ((x.worker.checkDeadlines x.startRoundTime).submitAndPoll results last).map fun w =>
      (x.setWorker w).setPhase .submitted
  | _ => none

/-- `cq.sync()`, and the number of active tasks. -/
def sync (x : Executor ι) : Option (Executor ι) :=
  match x.phase with
  | .submitted => some ((x.setWorker x.worker.sync).setPhase (.reaping x.worker.completions))
  | _ => none

end Executor

/-- A request, as its future and its `IoRequestData` have it. -/
structure Request (ε : Type*) where
  /-- The executor whose worker has got the request. -/
  executor : ε
  isLocal : Bool
  /-- The deadline that it has got. -/
  deadline : Option ℕ
  ret : Option (Except ErrorKind ℕ)
  /-- Whether the future has returned the result. -/
  isFinished : Bool

inductive Action (ε ι : Type*) where
  | tick (nanos : ℕ)
  | newRound (e : ε)
  /-- A task that runs on the executor starts a request. -/
  | request (e : ε) (i : ι) (isLocal : Bool) (deadline : Option ℕ)
  /-- `must_poll` up to the completions, with the results of the submissions. -/
  | mustPoll (e : ε) (results : List SubmitResult) (last : SubmitResult)
  /-- The kernel completes an entry. -/
  | complete (e : ε) (n : ℕ) (result : ℤ)
  /-- The executor reads the completion ring. -/
  | sync (e : ε)
  /-- The executor handles the next completion; a local task is resumed now or later. -/
  | reap (e : ε) (now : Bool)
  /-- The executor polls the future of a request that has a result. -/
  | resume (e : ε) (i : ι)

/-- The executors with their workers, and the requests. -/
structure System (ε ι : Type*) where
  clock : ℕ
  executors : ε → Executor ι
  requests : ι → Option (Request ε)

namespace System

variable {ε ι : Type*}

def init (numberOfEntries now : ℕ) : System ε ι where
  clock := now
  executors _ := ⟨Worker.new numberOfEntries, now, .idle⟩
  requests _ := none

variable [DecidableEq ε] [DecidableEq ι]

def set (s : System ε ι) (e : ε) (x : Executor ι) : System ε ι :=
  { s with executors := Function.update s.executors e x }

def setRequest (s : System ε ι) (i : ι) (r : Request ε) : System ε ι :=
  { s with requests := Function.update s.requests i (some r) }

/-- The future of a request returns its result on an executor: `poll_for_io_request` or
`poll_for_time_bounded_io_request`. -/
def finish (s : System ε ι) (e : ε) (i : ι) (r : Request ε) (ret : Except ErrorKind ℕ) :
    System ε ι :=
  (s.set e ((s.executors e).setQueue
    ((s.executors e).queue.deregisterAfter ret r.deadline))).setRequest i
    { r with ret := some ret, isFinished := true }

/-- The executor handles the completion of a request. -/
def handle (s : System ε ι) (e : ε) (i : ι) (r : Request ε) (ret : Except ErrorKind ℕ)
    (now : Bool) : System ε ι :=
  if r.isLocal && now then s.finish e i r ret else s.setRequest i { r with ret := some ret }

/-- The executor handles the next completion. -/
def reap (s : System ε ι) (e : ε) (now : Bool) : Option (System ε ι) :=
  match (s.executors e).phase with
  | .reaping [] => some (s.set e ((s.executors e).setPhase .idle))
  | .reaping (⟨⟨_, .asyncCancel _⟩, _⟩ :: rest) =>
    some (s.set e ((s.executors e).setPhase (.reaping rest)))
  | .reaping (⟨⟨_, .request i⟩, result⟩ :: rest) =>
    (s.requests i).map fun r =>
      (s.set e ((s.executors e).setPhase (.reaping rest))).handle e i r (toRet result) now
  | _ => none

def resume (s : System ε ι) (e : ε) (i : ι) : Option (System ε ι) :=
  match s.requests i with
  | some r =>
    match r.ret with
    | some ret =>
      if r.isFinished || (r.isLocal && decide (r.executor ≠ e)) then none
      else some (s.finish e i r ret)
    | none => none
  | none => none

def step (s : System ε ι) : Action ε ι → Option (System ε ι)
  | .tick nanos => some { s with clock := s.clock + nanos }
  | .newRound e => some (s.set e ((s.executors e).newRound s.clock))
  | .request e i isLocal deadline =>
    if (s.requests i).isSome then none
    else
      some ((s.set e ((s.executors e).request i deadline).2).setRequest i
        ⟨e, isLocal, ((s.executors e).request i deadline).1, none, false⟩)
  | .mustPoll e results last => ((s.executors e).mustPoll results last).map (s.set e)
  | .complete e n result =>
    ((s.executors e).worker.complete n result).map fun w =>
      s.set e ((s.executors e).setWorker w)
  | .sync e => (s.executors e).sync.map (s.set e)
  | .reap e now => s.reap e now
  | .resume e i => s.resume e i

end System

end Orengine.Io.IoUring
