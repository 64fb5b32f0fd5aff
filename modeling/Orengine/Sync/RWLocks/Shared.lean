import Mathlib.Data.Int.Notation
import Mathlib.Logic.Function.Basic
import Mathlib.Tactic.TypeStar

/-!
# `RWLock`

The shared reader-writer lock is one atomic `number_of_readers`: -1 while the lock is locked for
writing, else the number of readers.  `read` and `write` call `try_read` and `try_write` again and
again, with a `yield_now` in between.

The model is the interleaving of the atomic steps of any number of tasks.  `try_read` exchanges
the value that it has loaded before, and begins again if the exchange fails; `try_write` is one
exchange.  In debug builds the unlock functions load the value to check it before they change it;
in other builds that step does nothing.

Guards are `Send`: a task can hand one to another task, so the model has a list of the holders of
read guards and one of the holders of write guards.  A guard exists until the step that takes it
out of `number_of_readers`.  The counter is an `isize` that would overflow with 2^63 guards, which
is out of reach; here it is an integer.
-/

namespace Orengine.Sync

namespace RWLock

/-- Where a task is in the code of the lock. -/
inductive Pc where
  | idle
  /-- In `try_read`: the load comes next, again. -/
  | readLoad
  /-- In `try_read`: it has loaded `n`, and the exchange of `n` for `n + 1` comes next. -/
  | readCas (n : ℤ)
  /-- In `read_unlock`: `fetch_sub` comes next. -/
  | readUnlock
  /-- In `write_unlock`: the store of 0 comes next. -/
  | writeUnlock
  deriving DecidableEq

inductive Action (τ : Type*) where
  /-- `t` calls `try_read`: its first load. -/
  | tryRead (t : τ)
  /-- `t` calls `try_write`: its exchange. -/
  | tryWrite (t : τ)
  /-- `t` drops a read guard: the load of `read_unlock`. -/
  | readUnlock (t : τ)
  /-- `t` drops a write guard: the load of `write_unlock`. -/
  | writeUnlock (t : τ)
  /-- `t` hands a read guard to `u`. -/
  | giveRead (t u : τ)
  /-- `t` hands a write guard to `u`. -/
  | giveWrite (t u : τ)
  /-- `t` makes the next step of the function it is in. -/
  | go (t : τ)
  deriving DecidableEq

end RWLock

open RWLock

/-- An `RWLock`, its guards and the tasks that use it. -/
structure RWLock (τ : Type*) where
  numberOfReaders : ℤ
  /-- The tasks that have read guards, once for each guard. -/
  readGuards : List τ
  /-- The tasks that have write guards, once for each guard. -/
  writeGuards : List τ
  /-- Where each task is. -/
  pc : τ → RWLock.Pc
  /-- Whether a debug assertion has failed. -/
  panicked : Bool

namespace RWLock

variable {τ : Type*} [DecidableEq τ]

def new : RWLock τ := ⟨0, [], [], fun _ => .idle, false⟩

def goto (s : RWLock τ) (t : τ) (k : Pc) : RWLock τ := { s with pc := Function.update s.pc t k }

/-- The load of `try_read`. -/
def readLoad (s : RWLock τ) (t : τ) : RWLock τ :=
  s.goto t (if s.numberOfReaders ≥ 0 then .readCas s.numberOfReaders else .idle)

/-- The exchange of `try_read`, after it has loaded `n`. -/
def readCas (s : RWLock τ) (t : τ) (n : ℤ) : RWLock τ :=
  if s.numberOfReaders = n then
    { s with numberOfReaders := n + 1, readGuards := t :: s.readGuards }.goto t .idle
  else s.goto t .readLoad

def tryWrite (s : RWLock τ) (t : τ) : RWLock τ :=
  if s.numberOfReaders = 0 then
    { s with numberOfReaders := -1, writeGuards := t :: s.writeGuards }
  else s

/-- `assert!` on the value that an unlock function has loaded. -/
def debugAssert (s : RWLock τ) (condition : Bool) : RWLock τ :=
  { s with panicked := s.panicked || !condition }

/-- The next step of the function that `t` is in. -/
def go (s : RWLock τ) (t : τ) : Option (RWLock τ) :=
  match s.pc t with
  | .idle => none
  | .readLoad => some (s.readLoad t)
  | .readCas n => some (s.readCas t n)
  | .readUnlock =>
    some ({ s with
      numberOfReaders := s.numberOfReaders - 1
      readGuards := s.readGuards.erase t }.goto t .idle)
  | .writeUnlock =>
    some ({ s with numberOfReaders := 0, writeGuards := s.writeGuards.erase t }.goto t .idle)

/-- One step.  A task drops or hands on only a guard that it has. -/
def step (s : RWLock τ) : Action τ → Option (RWLock τ)
  | .tryRead t => if s.pc t = .idle then some (s.readLoad t) else none
  | .tryWrite t => if s.pc t = .idle then some (s.tryWrite t) else none
  | .readUnlock t =>
    if s.pc t = .idle ∧ t ∈ s.readGuards then
      some ((s.debugAssert (s.numberOfReaders != 0 && s.numberOfReaders > 0)).goto t .readUnlock)
    else none
  | .writeUnlock t =>
    if s.pc t = .idle ∧ t ∈ s.writeGuards then
      some ((s.debugAssert (s.numberOfReaders != 0 && s.numberOfReaders < 0)).goto t .writeUnlock)
    else none
  | .giveRead t u =>
    if s.pc t = .idle ∧ t ∈ s.readGuards then
      some { s with readGuards := u :: s.readGuards.erase t }
    else none
  | .giveWrite t u =>
    if s.pc t = .idle ∧ t ∈ s.writeGuards then
      some { s with writeGuards := u :: s.writeGuards.erase t }
    else none
  | .go t => s.go t

end RWLock

end Orengine.Sync
