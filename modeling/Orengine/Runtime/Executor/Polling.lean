import Orengine.Runtime.Executor.Round

/-!
# The timeouts of `must_poll`

In an idle round with io work `Executor::run` passes a timeout to `must_poll` of its worker.  The
worker of `io_uring` hands it to the kernel in the nanosecond field of a `Timespec`, with the cast
`timeout.as_nanos() as u32`.
-/

namespace Orengine.Runtime

/-- What an executor finds at the end of a round. -/
structure RoundEnd where
  /-- Whether the worker has io work, if there is one. -/
  worker : Option Bool
  hasCpuWork : Bool
  /-- What `check_sleeping_tasks` has returned. -/
  nearestTimeout : Option ℕ

/-- What the executor does then. -/
def RoundEnd.wait (r : RoundEnd) (p : ProgressiveTimeout) : Wait :=
  (waitForWork p r.worker r.hasCpuWork r.nearestTimeout).2

/-- A round of the loop of `Executor::run`, as far as its timeout goes. -/
def loopStep (p : ProgressiveTimeout) (r : RoundEnd) : Option ProgressiveTimeout :=
  some (waitForWork p r.worker r.hasCpuWork r.nearestTimeout).1

end Orengine.Runtime

namespace Orengine.Io.IoUring

structure Timespec where
  sec : UInt64
  nsec : UInt32
  deriving DecidableEq

/-- The last submission of `submit_and_poll`. -/
inductive LastSubmission where
  | submit
  | submitWithArgs (want : ℕ) (timespec : Timespec)
  deriving DecidableEq

/-- How `submit_and_poll` submits for its `timeout_option`; the cast keeps the low 32 bits. -/
def lastSubmission : Option ℕ → LastSubmission
  | none => .submit
  | some timeout => .submitWithArgs 1 ⟨0, UInt32.ofNat timeout⟩

end Orengine.Io.IoUring
