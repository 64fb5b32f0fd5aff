import Orengine.Runtime.Executor.Primitive
import Orengine.Sync.Channels.States

/-!
# `LocalChannel`

The channel of one executor.  A receiver that finds nothing and a sender that finds no room are
parked in a queue; an operation that serves a parked task runs it at once, nested inside itself,
through `exec_task`.  The model is a `Primitive` for the nested executor: `code` runs an operation
from the place where it was left up to the next `exec_task`, and `LocalChannel` is the memory that
all tasks share.

The source keeps in its queues, next to a task, pointers to the call state and to the value or
the slot of the future that the task awaits.  A task awaits one future at a time, so the model
finds the call state and the slot through the task (`waiting`); the value of a parked sender is
not written while it is parked and stands in the queue itself.

The loops of `close` take their queue out with `drain(..)`, which is taken to yield the tasks that
were in it at that time, also if code that runs nested uses the queue, as another `close` does.

`accepted` and `handed` are histories: the values of all sends that were polled, or `try_send`s that
succeeded, while the channel was open, and the values that were written to a receiver's slot.
-/

namespace Orengine.Sync

open Orengine.Runtime

/-- The channel future that a task awaits while it is not being polled. -/
inductive Waiting (V : Type*) where
  /-- `WaitLocalSend`. -/
  | send (callState : SendCallState) (value : V)
  /-- `WaitLocalRecv`. -/
  | recv (callState : RecvCallState) (slot : Option V)
  deriving DecidableEq

/-- `Inner` of a `LocalChannel`, with the futures of the tasks that use the channel. -/
structure LocalChannel (τ V : Type*) where
  /-- `storage`, its front first. -/
  storage : List V
  isClosed : Bool
  capacity : ℕ
  /-- `deques.senders`, its front first. -/
  senders : List (τ × V)
  /-- `deques.receivers`, its front first. -/
  receivers : List τ
  /-- The channel future that each task awaits, if any. -/
  waiting : τ → Option (Waiting V)
  /-- The values accepted so far. -/
  accepted : List V
  /-- The values handed to receivers so far. -/
  handed : List V
  /-- The results of the operations that have returned. -/
  results : List (τ × OpResult V)

namespace LocalChannel

variable {τ V : Type*} [DecidableEq τ]

def bounded (capacity : ℕ) : LocalChannel τ V :=
  ⟨[], false, capacity, [], [], fun _ => none, [], [], []⟩

/-- A place in the code of a task. -/
inductive Place (τ V : Type*) where
  /-- At the start of a poll. -/
  | poll
  /-- In the task's own code, between two operations. -/
  | user
  /-- In an operation that returns this result once its `exec_task` has returned. -/
  | finish (result : OpResult V)
  /-- In `close`, with these senders left in the drain. -/
  | closeSenders (rest : List (τ × V))
  /-- In `close`, with these receivers left in the drain. -/
  | closeReceivers (rest : List τ)
  deriving DecidableEq

inductive Op (V : Type*) where
  | send (value : V)
  | recv
  | trySend (value : V)
  | tryRecvIn
  | close
  /-- The task goes on inside the operation it is in. -/
  | go
  deriving DecidableEq

/-! ### Effects on the memory -/

/-- The operation of `t` returns `r`. -/
def ret (c : LocalChannel τ V) (t : τ) (r : OpResult V) : LocalChannel τ V :=
  { c with waiting := Function.update c.waiting t none, results := c.results ++ [(t, r)] }

/-- `call_state.write(state)` for the sender `u`. -/
def writeSendState (c : LocalChannel τ V) (u : τ) (state : SendCallState) : LocalChannel τ V :=
  { c with
    waiting := Function.update c.waiting u <|
      match c.waiting u with
      | some (.send _ v) => some (.send state v)
      | w => w }

/-- `call_state.write(state)` for the receiver `u`. -/
def writeRecvState (c : LocalChannel τ V) (u : τ) (state : RecvCallState) : LocalChannel τ V :=
  { c with
    waiting := Function.update c.waiting u <|
      match c.waiting u with
      | some (.recv _ slot) => some (.recv state slot)
      | w => w }

/-- The value `v` is written to the slot of the parked receiver `u`. -/
def writeSlot (c : LocalChannel τ V) (u : τ) (v : V) : LocalChannel τ V :=
  { c with
    waiting := Function.update c.waiting u <|
      match c.waiting u with
      | some (.recv state _) => some (.recv state (some v))
      | w => w
    handed := c.handed ++ [v] }

/-- The front receiver `u` is taken out of the queue and given `v`. -/
def serveReceiver (c : LocalChannel τ V) (u : τ) (rest : List τ) (v : V) : LocalChannel τ V :=
  ({ c with receivers := rest }.writeSlot u v).writeRecvState u .wokenToReturnReady

/-- The open channel accepts `v`. -/
def accept (c : LocalChannel τ V) (v : V) : LocalChannel τ V :=
  { c with accepted := c.accepted ++ [v] }

/-- `t` is put at the back of `senders` with its value. -/
def parkSender (c : LocalChannel τ V) (t : τ) (v : V) : LocalChannel τ V :=
  { c with
    senders := c.senders ++ [(t, v)]
    waiting := Function.update c.waiting t (some (.send .firstCall v)) }

/-- `t` is put at the back of `receivers`. -/
def parkReceiver (c : LocalChannel τ V) (t : τ) : LocalChannel τ V :=
  { c with
    receivers := c.receivers ++ [t]
    waiting := Function.update c.waiting t (some (.recv .firstCall none)) }

/-! ### The operations -/

/-- `WaitLocalSend::poll` in the state `FirstCall`, for the task `t` that sends `v`. -/
def sendFirstCall (c : LocalChannel τ V) (t : τ) (v : V) :
    LocalChannel τ V × Outcome τ (Place τ V) :=
  if c.isClosed then (c.ret t (.send (.closed v)), .goto .user)
  else match c.receivers with
    -- the receiver has its value and its state before it runs; `send` is ready when it returns
    | u :: rest => (c.serveReceiver u rest v, .execTask u (.finish (.send .ok)))
    | [] =>
      -- with capacity 0 every sender without a receiver is parked
      if c.capacity ≤ c.storage.length then (c.parkSender t v, .returned)
      else ({ c with storage := c.storage ++ [v] }.ret t (.send .ok), .goto .user)

/-- The first poll of a `send`: an open channel accepts the value. -/
def send (c : LocalChannel τ V) (t : τ) (v : V) : LocalChannel τ V × Outcome τ (Place τ V) :=
  if c.isClosed then c.sendFirstCall t v else (c.accept v).sendFirstCall t v

/-- The part that `WaitLocalRecv::poll` and `try_recv_in_ptr` share, for a storage that is not
empty: its front goes to the slot of `t`, and the first parked sender moves up. -/
def recvStored (c : LocalChannel τ V) (t : τ) (x : V) (xs : List V) (r : OpResult V) :
    LocalChannel τ V × Outcome τ (Place τ V) :=
  match c.senders with
  | (u, v) :: rest =>
    ({ c with storage := xs ++ [v], senders := rest, handed := c.handed ++ [x] }.writeSendState
        u .wokenToReturnReady, .execTask u (.finish r))
  | [] => ({ c with storage := xs, handed := c.handed ++ [x] }.ret t r, .goto .user)

/-- The part that both share for an empty storage and a parked sender `u`. -/
def recvFromSender (c : LocalChannel τ V) (u : τ) (v : V) (rest : List (τ × V)) (r : OpResult V) :
    LocalChannel τ V × Outcome τ (Place τ V) :=
  ({ c with senders := rest, handed := c.handed ++ [v] }.writeSendState u .wokenToReturnReady,
    .execTask u (.finish r))

/-- `WaitLocalRecv::poll` in the state `FirstCall`. -/
def recvFirstCall (c : LocalChannel τ V) (t : τ) : LocalChannel τ V × Outcome τ (Place τ V) :=
  if c.isClosed then (c.ret t (.recvIn .closed none), .goto .user)
  else match c.storage with
    | [] =>
      match c.senders with
      | (u, v) :: rest => c.recvFromSender u v rest (.recvIn .ok (some v))
      | [] => (c.parkReceiver t, .returned)
    | x :: xs => c.recvStored t x xs (.recvIn .ok (some x))

def trySend (c : LocalChannel τ V) (t : τ) (v : V) : LocalChannel τ V × Outcome τ (Place τ V) :=
  if c.isClosed then (c.ret t (.trySend (.closed v)), .goto .user)
  else match c.receivers with
    | u :: rest =>
      ((c.accept v).serveReceiver u rest v, .execTask u (.finish (.trySend .ok)))
    | [] =>
      if c.capacity ≤ c.storage.length then (c.ret t (.trySend (.full v)), .goto .user)
      else
        ({ c.accept v with storage := c.storage ++ [v] }.ret t (.trySend .ok), .goto .user)

/-- `try_recv_in_ptr`. -/
def tryRecvIn (c : LocalChannel τ V) (t : τ) : LocalChannel τ V × Outcome τ (Place τ V) :=
  if c.isClosed then (c.ret t (.tryRecvIn .closed none), .goto .user)
  else match c.storage with
    | [] =>
      match c.senders with
      | (u, v) :: rest => c.recvFromSender u v rest (.tryRecvIn .ok (some v))
      | [] => (c.ret t (.tryRecvIn .empty none), .goto .user)
    | x :: xs => c.recvStored t x xs (.tryRecvIn .ok (some x))

/-- A poll of the task `t`: it polls the channel future it awaits, if it awaits one. -/
def poll (c : LocalChannel τ V) (t : τ) : LocalChannel τ V × Outcome τ (Place τ V) :=
  match c.waiting t with
  | none => (c, .goto .user)
  | some (.send .firstCall v) => c.sendFirstCall t v
  | some (.send .wokenToReturnReady _) => (c.ret t (.send .ok), .goto .user)
  | some (.send .wokenByClose v) => (c.ret t (.send (.closed v)), .goto .user)
  | some (.recv .firstCall _) => c.recvFirstCall t
  | some (.recv .wokenToReturnReady slot) => (c.ret t (.recvIn .ok slot), .goto .user)
  | some (.recv .wokenByClose _) => (c.ret t (.recvIn .closed none), .goto .user)

/-- The code of the operations.  `close` first takes all senders out of their queue and runs them
one after the other, and then does the same with the receivers. -/
def code (c : LocalChannel τ V) (t : τ) :
    Place τ V → Op V → Option (LocalChannel τ V × Outcome τ (Place τ V))
  | .poll, .go => some (c.poll t)
  | .finish r, .go => some (c.ret t r, .goto .user)
  | .closeSenders ((u, _) :: rest), .go =>
    some (c.writeSendState u .wokenByClose, .execTask u (.closeSenders rest))
  | .closeSenders [], .go => some ({ c with receivers := [] }, .goto (.closeReceivers c.receivers))
  | .closeReceivers (u :: rest), .go =>
    some (c.writeRecvState u .wokenByClose, .execTask u (.closeReceivers rest))
  | .closeReceivers [], .go => some (c, .goto .user)
  | .user, .send v => some (c.send t v)
  | .user, .recv => some (c.recvFirstCall t)
  | .user, .trySend v => some (c.trySend t v)
  | .user, .tryRecvIn => some (c.tryRecvIn t)
  | .user, .close =>
    some ({ c with isClosed := true, senders := [] }, .goto (.closeSenders c.senders))
  | _, _ => none

/-- Whether a place is in the task's own code. -/
def Place.isUser : Place τ V → Bool
  | .user => true
  | _ => false

/-- The channel as a primitive of the executor. -/
def primitive : Primitive τ (LocalChannel τ V) (Place τ V) (Op V) where
  entry := .poll
  isUser := Place.isUser
  code := code

end LocalChannel

end Orengine.Sync
