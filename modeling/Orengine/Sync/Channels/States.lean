import Mathlib.Tactic.TypeStar

/-!
# Call states and results of channel operations

The call states tell a future that is polled again why it was woken; the results are what the
operations of a channel return to the task that called them.  `LocalChannel` and `Channel` share
both.
-/

namespace Orengine.Sync

/-- `SendCallState`: why a `send` future is polled. -/
inductive SendCallState where
  | firstCall
  | wokenToReturnReady
  | wokenByClose
  deriving DecidableEq

/-- `RecvCallState`: why a `recv` future is polled. -/
inductive RecvCallState where
  | firstCall
  | wokenToReturnReady
  | wokenByClose
  deriving DecidableEq

inductive SendResult (V : Type*) where
  | ok
  | closed (value : V)
  deriving DecidableEq

inductive TrySendResult (V : Type*) where
  | ok
  | full (value : V)
  | locked (value : V)
  | closed (value : V)
  deriving DecidableEq

inductive RecvInResult where
  | ok
  | closed
  deriving DecidableEq

inductive TryRecvInResult where
  | ok
  | empty
  | locked
  | closed
  deriving DecidableEq

/-- The result of one operation of a task; a receiving operation also shows what its slot was
given. -/
inductive OpResult (V : Type*) where
  | send (result : SendResult V)
  | trySend (result : TrySendResult V)
  | recvIn (result : RecvInResult) (slot : Option V)
  | tryRecvIn (result : TryRecvInResult) (slot : Option V)
  deriving DecidableEq

end Orengine.Sync
