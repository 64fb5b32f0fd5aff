import Mathlib.Order.Basic
import Orengine.Utils.ProgressiveTimeout

/-!
# The end of a round of `Executor::run`

At the end of a round an executor decides how long to wait for work: in `must_poll` of its worker if
this has io work, and asleep otherwise.  It waits only if it has no task to execute, and then for at
most the time that `check_sleeping_tasks` has returned and that of a timeout which grows as long as
nothing happens.  Durations are numbers of nanoseconds.
-/

namespace Orengine.Runtime

/-- The timeout of `Executor::run`. -/
abbrev ProgressiveTimeout := Utils.ProgressiveTimeout 64 131072

/-- What an executor does at the end of a round. -/
inductive Wait where
  | mustPoll (timeout : Option ℕ)
  | sleepAtMost (maxDuration : ℕ)
  /-- It begins the next round. -/
  | nextRound
  deriving DecidableEq

/-- For how long an executor waits at most; without a timeout `must_poll` does not wait. -/
def Wait.duration : Wait → ℕ
  | .mustPoll timeout => timeout.getD 0
  | .sleepAtMost maxDuration => maxDuration
  | .nextRound => 0

/-- The end of a round of `Executor::run`.  `worker` says whether the worker has io work, if there
is one.  A shift by two bits does not panic. -/
def waitForWork (p : ProgressiveTimeout) (worker : Option Bool) (hasCpuWork : Bool)
    (nearestTimeout : Option ℕ) : ProgressiveTimeout × Wait :=
  match worker with
  | some true =>
    if !hasCpuWork then
      match nearestTimeout with
      | some nearest => (p.double, .mustPoll (some (min nearest (p.shifted 2))))
      | none => (p.double, .mustPoll (some (p.shifted 2)))
    else (p.reset, .mustPoll none)
  | some false =>
    if !hasCpuWork then
      match nearestTimeout with
      | some nearest => (p.timeout.1, .sleepAtMost (min nearest p.timeout.2))
      | none => (p.timeout.1, .sleepAtMost p.timeout.2)
    else (p.reset, .nextRound)
  | none =>
    match nearestTimeout with
    | some nearest =>
      if hasCpuWork then (p.timeout.1.reset, .nextRound)
      else (p.timeout.1.reset, .sleepAtMost (min nearest p.timeout.2))
    | none =>
      if hasCpuWork then (p.timeout.1.reset, .nextRound)
      else (p.timeout.1, .sleepAtMost p.timeout.2)

end Orengine.Runtime
