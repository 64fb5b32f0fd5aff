import Orengine.Sync.Channels.States
import Mathlib.Data.Nat.Notation
import Mathlib.Logic.Function.Basic

/-!
# `Channel`

The channel that tasks of many executors share.  Its `Inner` is behind a `NaiveMutex`, and one
critical section under this lock is one step of the model.  What an operation does to a task that
it has taken out of a queue (it writes to the slot, then writes the call state, then gives the
task to the executor) happens after the lock is released, and each of these is a step of its own,
so that steps of all other tasks may come between them.

A task that found the lock taken is put into the shared queue of its executor and polls again
later; `try_send` and `try_recv_in_ptr` return `Locked` instead.  Since a critical section is one
step, the model lets `try_lock` fail at any time.

As in `LocalChannel` the call state and the slot of a parked task are found through the task, and
the value of a parked sender stands in the queue.  An access to a future that its task no longer
awaits would be an access to freed memory; the model marks it in `stray`.
-/

namespace Orengine.Sync

namespace Channel

/-- The operations that give a value to a parked receiver. -/
inductive Sending where
  | send
  | trySend
  deriving DecidableEq

/-- The result of a sending operation that has served a receiver. -/
def Sending.ok {V : Type*} : Sending → OpResult V
  | .send => .send .ok
  | .trySend => .trySend .ok

/-- The operations that take a value from a parked sender. -/
inductive Receiving where
  | recvIn
  | tryRecvIn
  deriving DecidableEq

/-- The result of a receiving operation whose slot holds `v`. -/
def Receiving.ok {V : Type*} : Receiving → V → OpResult V
  | .recvIn, v => .recvIn .ok (some v)
  | .tryRecvIn, v => .tryRecvIn .ok (some v)

inductive Pc (τ V : Type*) where
  /-- In no operation of the channel. -/
  | idle
  /-- It has called `send(value)`; the future is in its first call and has not had the lock. -/
  | send (value : V)
  /-- It has called `recv_in_ptr`; the future is in its first call and has not had the lock. -/
  | recv
  | trySend (value : V)
  | tryRecvIn
  | close
  /-- Its `WaitSend` has returned `Pending`. -/
  | sendParked (callState : SendCallState) (value : V)
  /-- Its `WaitRecv` has returned `Pending`. -/
  | recvParked (callState : RecvCallState) (slot : Option V)
  /-- It has taken `r` out of `receivers` and is about to write `value` to its slot. -/
  | copyTo (r : τ) (value : V) (op : Sending)
  /-- It is about to write the call state of `r`. -/
  | tellReceiver (r : τ) (op : Sending)
  /-- It is about to execute `r`. -/
  | execReceiver (r : τ) (op : Sending)
  /-- It has taken `u` out of `senders` and is about to copy `value` from it. -/
  | copyFrom (u : τ) (value : V) (op : Receiving)
  /-- Its slot is written and it is about to write the call state of `u`. -/
  | tellSender (u : τ) (slot : V) (op : Receiving)
  /-- It is about to execute `u`. -/
  | execSender (u : τ) (slot : V) (op : Receiving)
  deriving DecidableEq

inductive Op (V : Type*) where
  | send (value : V)
  | recv
  | trySend (value : V)
  | tryRecvIn
  | close
  deriving DecidableEq

/-- Where a task is once it has called an operation. -/
def Op.start {τ V : Type*} : Op V → Pc τ V
  | .send v => .send v
  | .recv => .recv
  | .trySend v => .trySend v
  | .tryRecvIn => .tryRecvIn
  | .close => .close

/-- The value that an operation passes to the channel. -/
def Op.passes {V : Type*} : Op V → List V
  | .send v => [v]
  | .trySend v => [v]
  | _ => []

inductive Action (τ V : Type*) where
  /-- `t` calls an operation. -/
  | call (t : τ) (op : Op V)
  /-- `t` finds the lock taken. -/
  | lockFails (t : τ)
  /-- `t` runs its critical section. -/
  | locked (t : τ)
  /-- `t` makes its next step after the critical section. -/
  | unlocked (t : τ)
  /-- An executor polls the parked task `t` that was given to it. -/
  | resume (t : τ)
  deriving DecidableEq

end Channel

open Channel

/-- A `Channel` and the tasks that use it. -/
structure Channel (τ V : Type*) where
  /-- `storage`, its front first. -/
  storage : List V
  isClosed : Bool
  capacity : ℕ
  /-- `deques.senders`, its front first. -/
  senders : List (τ × V)
  /-- `deques.receivers`, its front first. -/
  receivers : List τ
  /-- Where each task is. -/
  pc : τ → Pc τ V
  /-- How many times each parked task has been given to an executor and not been polled yet. -/
  ready : τ → ℕ
  /-- The values passed to `send` and `try_send` so far. -/
  passed : List V
  /-- The results of the operations that have returned. -/
  results : List (τ × OpResult V)
  /-- Whether a future was accessed that its task no longer awaits. -/
  stray : Bool
  /-- How many times each task was parked. -/
  parkings : τ → ℕ
  /-- How many times each task was polled after it was given to an executor. -/
  resumptions : τ → ℕ

namespace Channel

variable {τ V : Type*} [DecidableEq τ]

def bounded (capacity : ℕ) : Channel τ V where
  storage := []
  isClosed := false
  capacity := capacity
  senders := []
  receivers := []
  pc _ := .idle
  ready _ := 0
  passed := []
  results := []
  stray := false
  parkings _ := 0
  resumptions _ := 0

/-! ### Effects -/

def goto (s : Channel τ V) (t : τ) (k : Pc τ V) : Channel τ V :=
  { s with pc := Function.update s.pc t k }

/-- The operation of `t` returns `r`. -/
def ret (s : Channel τ V) (t : τ) (r : OpResult V) : Channel τ V :=
  { s.goto t .idle with results := s.results ++ [(t, r)] }

/-- `t` is put at the back of `senders`, and its poll returns `Pending`. -/
def parkSender (s : Channel τ V) (t : τ) (v : V) : Channel τ V :=
  { s.goto t (.sendParked .firstCall v) with
    senders := s.senders ++ [(t, v)]
    parkings := Function.update s.parkings t (s.parkings t + 1) }

/-- `t` is put at the back of `receivers`, and its poll returns `Pending`. -/
def parkReceiver (s : Channel τ V) (t : τ) : Channel τ V :=
  { s.goto t (.recvParked .firstCall none) with
    receivers := s.receivers ++ [t]
    parkings := Function.update s.parkings t (s.parkings t + 1) }

/-- `copy_nonoverlapping(value, slot, 1)` to the slot of the receiver `r`. -/
def writeSlot (s : Channel τ V) (r : τ) (v : V) : Channel τ V :=
  match s.pc r with
  | .recvParked state _ => s.goto r (.recvParked state (some v))
  | _ => { s with stray := true }

/-- `call_state.write(state)` for the receiver `r`. -/
def writeRecvState (s : Channel τ V) (r : τ) (state : RecvCallState) : Channel τ V :=
  match s.pc r with
  | .recvParked _ slot => s.goto r (.recvParked state slot)
  | _ => { s with stray := true }

/-- `copy_nonoverlapping(value, slot, 1)` from the future of the sender `u`. -/
def readValue (s : Channel τ V) (u : τ) : Channel τ V :=
  match s.pc u with
  | .sendParked _ _ => s
  | _ => { s with stray := true }

/-- `call_state.write(state)` for the sender `u`. -/
def writeSendState (s : Channel τ V) (u : τ) (state : SendCallState) : Channel τ V :=
  match s.pc u with
  | .sendParked _ v => s.goto u (.sendParked state v)
  | _ => { s with stray := true }

/-- `exec_task(t)` or `spawn_shared_task(t)`. -/
def wake (s : Channel τ V) (t : τ) : Channel τ V :=
  { s with ready := Function.update s.ready t (s.ready t + 1) }

/-! ### The critical sections -/

/-- `WaitSend::poll` in the state `FirstCall`. -/
def sendLocked (s : Channel τ V) (t : τ) (v : V) : Channel τ V :=
  if s.isClosed then s.ret t (.send (.closed v))
  else match s.receivers with
    -- the lock is dropped here, and the receiver is served without it
    | r :: rest => { s with receivers := rest }.goto t (.copyTo r v .send)
    | [] =>
      if s.capacity ≤ s.storage.length then s.parkSender t v
      else { s with storage := s.storage ++ [v] }.ret t (.send .ok)

/-- `try_send`. -/
def trySendLocked (s : Channel τ V) (t : τ) (v : V) : Channel τ V :=
  if s.isClosed then s.ret t (.trySend (.closed v))
  else match s.receivers with
    | r :: rest => { s with receivers := rest }.goto t (.copyTo r v .trySend)
    | [] =>
      if s.capacity ≤ s.storage.length then s.ret t (.trySend (.full v))
      else { s with storage := s.storage ++ [v] }.ret t (.trySend .ok)

/-- The part that `WaitRecv::poll` and `try_recv_in_ptr` share, for a storage that is not empty:
its front goes to the slot of `t`, and the first parked sender moves up. -/
def recvStored (s : Channel τ V) (t : τ) (x : V) (xs : List V) (op : Receiving) : Channel τ V :=
  match s.senders with
  -- both values are moved under the lock, the call state of `u` is written after it
  | (u, v) :: rest => { s with storage := xs ++ [v], senders := rest }.goto t (.tellSender u x op)
  | [] => { s with storage := xs }.ret t (op.ok x)

/-- `WaitRecv::poll` in the state `FirstCall`. -/
def recvLocked (s : Channel τ V) (t : τ) : Channel τ V :=
  if s.isClosed then s.ret t (.recvIn .closed none)
  else match s.storage with
    | [] =>
      match s.senders with
      | (u, v) :: rest => { s with senders := rest }.goto t (.copyFrom u v .recvIn)
      | [] => s.parkReceiver t
    | x :: xs => s.recvStored t x xs .recvIn

/-- `try_recv_in_ptr`. -/
def tryRecvInLocked (s : Channel τ V) (t : τ) : Channel τ V :=
  if s.isClosed then s.ret t (.tryRecvIn .closed none)
  else match s.storage with
    | [] =>
      match s.senders with
      | (u, v) :: rest => { s with senders := rest }.goto t (.copyFrom u v .tryRecvIn)
      | [] => s.ret t (.tryRecvIn .empty none)
    | x :: xs => s.recvStored t x xs .tryRecvIn

/-- The loop of `close` over `senders.drain(..)`. -/
def drainSenders : List (τ × V) → Channel τ V → Channel τ V
  | [], s => s
  | (u, _) :: rest, s =>
    drainSenders rest (({ s with senders := rest }.writeSendState u .wokenByClose).wake u)

/-- The loop of `close` over `receivers.drain(..)`. -/
def drainReceivers : List τ → Channel τ V → Channel τ V
  | [], s => s
  | r :: rest, s =>
    drainReceivers rest (({ s with receivers := rest }.writeRecvState r .wokenByClose).wake r)

/-- `close`. -/
def closeLocked (s : Channel τ V) (t : τ) : Channel τ V :=
  (drainReceivers s.receivers (drainSenders s.senders { s with isClosed := true })).goto t .idle

/-! ### The system -/

/-- The critical section of the operation that `t` is in. -/
def locked (s : Channel τ V) (t : τ) : Option (Channel τ V) :=
  match s.pc t with
  | .send v => some (s.sendLocked t v)
  | .recv => some (s.recvLocked t)
  | .trySend v => some (s.trySendLocked t v)
  | .tryRecvIn => some (s.tryRecvInLocked t)
  | .close => some (s.closeLocked t)
  | _ => none

/-- `try_lock` fails. -/
def lockFails (s : Channel τ V) (t : τ) : Option (Channel τ V) :=
  match s.pc t with
  -- the task goes to the shared queue and polls again
  | .send _ | .recv | .close => some s
  | .trySend v => some (s.ret t (.trySend (.locked v)))
  | .tryRecvIn => some (s.ret t (.tryRecvIn .locked none))
  | _ => none

/-- The next step after the critical section. -/
def unlocked (s : Channel τ V) (t : τ) : Option (Channel τ V) :=
  match s.pc t with
  | .copyTo r v op => some ((s.writeSlot r v).goto t (.tellReceiver r op))
  | .tellReceiver r op =>
    some ((s.writeRecvState r .wokenToReturnReady).goto t (.execReceiver r op))
  | .execReceiver r op => some ((s.wake r).ret t op.ok)
  | .copyFrom u v op => some ((s.readValue u).goto t (.tellSender u v op))
  | .tellSender u x op =>
    some ((s.writeSendState u .wokenToReturnReady).goto t (.execSender u x op))
  | .execSender u x op => some ((s.wake u).ret t (op.ok x))
  | _ => none

/-- An executor polls `t`, which was given to it: the future looks at its call state. -/
def resume (s : Channel τ V) (t : τ) : Channel τ V :=
  let s := { s with
    ready := Function.update s.ready t (s.ready t - 1)
    resumptions := Function.update s.resumptions t (s.resumptions t + 1) }
  match s.pc t with
  -- nobody has written the call state: the future starts over
  | .sendParked .firstCall v => s.goto t (.send v)
  | .sendParked .wokenToReturnReady _ => s.ret t (.send .ok)
  | .sendParked .wokenByClose v => s.ret t (.send (.closed v))
  | .recvParked .firstCall _ => s.goto t .recv
  | .recvParked .wokenToReturnReady slot => s.ret t (.recvIn .ok slot)
  | .recvParked .wokenByClose _ => s.ret t (.recvIn .closed none)
  | _ => { s with stray := true }

def step (s : Channel τ V) : Action τ V → Option (Channel τ V)
  | .call t op =>
    match s.pc t with
    | .idle => some { s.goto t op.start with passed := s.passed ++ op.passes }
    | _ => none
  | .lockFails t => s.lockFails t
  | .locked t => s.locked t
  | .unlocked t => s.unlocked t
  | .resume t => if s.ready t = 0 then none else some (s.resume t)

end Channel

end Orengine.Sync
