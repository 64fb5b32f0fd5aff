import Mathlib.Data.Nat.Notation

/-!
# `ProgressiveTimeout`

A timeout that is doubled with every call as long as it is less than `END_DUR_MICROS`.  The field
`current_duration_ms` is a `u64` of microseconds, and a shift of it drops the bits that go beyond.
A `Duration` is a number of nanoseconds.
-/

namespace Orengine.Utils

def fromMicros (micros : UInt64) : ℕ := micros.toNat * 1000

/-- `ProgressiveTimeout<START_DUR_MICROS, END_DUR_MICROS>`. -/
structure ProgressiveTimeout (startDurMicros endDurMicros : UInt64) where
  currentDurationMs : UInt64

namespace ProgressiveTimeout

variable {startDurMicros endDurMicros : UInt64}

def new : ProgressiveTimeout startDurMicros endDurMicros := ⟨max (startDurMicros >>> 1) 1⟩

/-- How both timeouts begin. -/
def double (p : ProgressiveTimeout startDurMicros endDurMicros) :
    ProgressiveTimeout startDurMicros endDurMicros :=
  if p.currentDurationMs < endDurMicros then ⟨p.currentDurationMs <<< 1⟩ else p

def timeout (p : ProgressiveTimeout startDurMicros endDurMicros) :
    ProgressiveTimeout startDurMicros endDurMicros × ℕ :=
  (p.double, fromMicros p.double.currentDurationMs)

/-- The duration that `timeout_with_shift` returns. -/
def shifted (p : ProgressiveTimeout startDurMicros endDurMicros) (shift : UInt64) : ℕ :=
  fromMicros (p.double.currentDurationMs <<< shift)

variable (overflowChecks : Bool)

/-- `timeout_with_shift`.  A shift by 64 or more panics with overflow checks, and is taken modulo 64
without them. -/
def timeoutWithShift (p : ProgressiveTimeout startDurMicros endDurMicros) (shift : UInt64) :
    ProgressiveTimeout startDurMicros endDurMicros × Option ℕ :=
  (p.double,
    if overflowChecks && decide (64 ≤ shift.toNat) then none
    else some (p.shifted shift))

def reset (_ : ProgressiveTimeout startDurMicros endDurMicros) :
    ProgressiveTimeout startDurMicros endDurMicros := new

inductive Call where
  | timeout
  | timeoutWithShift (shift : UInt64)
  | reset

/-- What a call makes of the timeout; also one that panics has doubled it. -/
def step (p : ProgressiveTimeout startDurMicros endDurMicros) :
    Call → Option (ProgressiveTimeout startDurMicros endDurMicros)
  | .timeout => some p.timeout.1
  | .timeoutWithShift shift => some (p.timeoutWithShift overflowChecks shift).1
  | .reset => some p.reset

end ProgressiveTimeout

end Orengine.Utils
