import Orengine.Runtime.Executor.Primitive

/-!
# `LocalRWLock`

The reader-writer lock of one executor.  `number_of_readers` is -1 while the lock is locked for
writing and else counts the readers.  A release runs the tasks that it lets in nested inside
itself: `read_unlock` the writer that was queued last, `write_unlock` such a writer or, if there is
none, all waiting readers one after the other, for which it sets `number_of_readers` beforehand.
The model is a `Primitive` for the nested executor.

Guards are values that a task can hand to another one, so the model has a list of the holders of
read guards and one of the holders of write guards.  The debug assertions and the pops of the
wake-up loop, which the code does not check, are recorded in `panicked` and `missed`.
-/

namespace Orengine.Sync

open Orengine.Runtime

namespace LocalRWLock

/-- What a task locks for. -/
inductive Kind where
  | read
  | write
  deriving DecidableEq

/-- A place in the code of a task. -/
inductive Place where
  /-- At the start of a poll. -/
  | poll
  /-- In the task's own code, between two operations. -/
  | user
  /-- In the loop of `write_unlock`, with `readers_count` readers left. -/
  | wakeReaders (readersCount : ℕ)
  deriving DecidableEq

inductive Op (τ : Type*) where
  | write
  | read
  | tryWrite
  | tryRead
  /-- The task drops a read guard. -/
  | readUnlock
  /-- The task drops a write guard. -/
  | writeUnlock
  /-- The task hands a guard to `u`. -/
  | give (kind : Kind) (u : τ)
  /-- It goes on inside the operation it is in. -/
  | go
  deriving DecidableEq

end LocalRWLock

open LocalRWLock

/-- A `LocalRWLock`, its guards and the futures of the tasks that use it. -/
structure LocalRWLock (τ : Type*) where
  /-- `wait_queue_read`, the task that is popped next first. -/
  waitQueueRead : List τ
  /-- `wait_queue_write`, the task that is popped next first. -/
  waitQueueWrite : List τ
  numberOfReaders : ℤ
  /-- The future that each task awaits, a `ReadLockWait` or a `WriteLockWait`, if it has been
  polled. -/
  waiting : τ → Option LocalRWLock.Kind
  /-- The tasks that have read guards, once for each guard. -/
  readGuards : List τ
  /-- The tasks that have write guards, once for each guard. -/
  writeGuards : List τ
  /-- Whether a debug assertion has failed. -/
  panicked : Bool
  /-- Whether a pop of the loop in `write_unlock` has found no task. -/
  missed : Bool

namespace LocalRWLock

variable {τ : Type*} [DecidableEq τ]

def new : LocalRWLock τ := ⟨[], [], 0, fun _ => none, [], [], false, false⟩

/-- `debug_assert!`. -/
def debugAssert (l : LocalRWLock τ) (condition : Bool) : LocalRWLock τ :=
  { l with panicked := l.panicked || !condition }

/-- `t` gets a guard. -/
def newGuard (l : LocalRWLock τ) (t : τ) : Kind → LocalRWLock τ
  | .read => { l with readGuards := t :: l.readGuards }
  | .write => { l with writeGuards := t :: l.writeGuards }

/-- `t` is pushed to a wait queue and awaits the future. -/
def push (l : LocalRWLock τ) (t : τ) : Kind → LocalRWLock τ
  | .read =>
    { l with
      waitQueueRead := t :: l.waitQueueRead
      waiting := Function.update l.waiting t (some .read) }
  | .write =>
    { l with
      waitQueueWrite := t :: l.waitQueueWrite
      waiting := Function.update l.waiting t (some .write) }

/-- `try_write`, if `number_of_readers` is 0. -/
def lockWrite (l : LocalRWLock τ) (t : τ) : LocalRWLock τ :=
  { l.debugAssert l.waitQueueRead.isEmpty with numberOfReaders := -1 }.newGuard t .write

/-- `try_read`, if `number_of_readers` is at least 0. -/
def lockRead (l : LocalRWLock τ) (t : τ) : LocalRWLock τ :=
  { l with numberOfReaders := l.numberOfReaders + 1 }.newGuard t .read

def write (l : LocalRWLock τ) (t : τ) : LocalRWLock τ × Outcome τ Place :=
  if l.numberOfReaders = 0 then (l.lockWrite t, .goto .user) else (l.push t .write, .returned)

def read (l : LocalRWLock τ) (t : τ) : LocalRWLock τ × Outcome τ Place :=
  if l.numberOfReaders > -1 then (l.lockRead t, .goto .user) else (l.push t .read, .returned)

def tryWrite (l : LocalRWLock τ) (t : τ) : LocalRWLock τ × Outcome τ Place :=
  if l.numberOfReaders = 0 then (l.lockWrite t, .goto .user) else (l, .goto .user)

def tryRead (l : LocalRWLock τ) (t : τ) : LocalRWLock τ × Outcome τ Place :=
  if l.numberOfReaders > -1 then (l.lockRead t, .goto .user) else (l, .goto .user)

/-- The first part of `read_unlock`, called with a read guard of `t`. -/
def leaveRead (l : LocalRWLock τ) (t : τ) : LocalRWLock τ :=
  { l.debugAssert (l.numberOfReaders != -1 && l.numberOfReaders != 0) with
    readGuards := l.readGuards.erase t
    numberOfReaders := l.numberOfReaders - 1 }

/-- The second part of `read_unlock`, if the last reader has left. -/
def wakeWriter (l : LocalRWLock τ) : LocalRWLock τ × Outcome τ Place :=
  match l.waitQueueWrite with
  | u :: rest => ({ l with waitQueueWrite := rest, numberOfReaders := -1 }, .execTask u .user)
  | [] => (l, .goto .user)

def readUnlock (l : LocalRWLock τ) (t : τ) : LocalRWLock τ × Outcome τ Place :=
  let l := l.leaveRead t
  if l.numberOfReaders = 0 then (l.debugAssert l.waitQueueRead.isEmpty).wakeWriter
  else (l, .goto .user)

/-- The assertions of `write_unlock`, called with a write guard of `t`. -/
def leaveWrite (l : LocalRWLock τ) (t : τ) : LocalRWLock τ :=
  { l.debugAssert (l.numberOfReaders != 0 && l.numberOfReaders ≤ 0) with
    writeGuards := l.writeGuards.erase t }

/-- The second part of `write_unlock`, up to its loop. -/
def wakeNext (l : LocalRWLock τ) : LocalRWLock τ × Outcome τ Place :=
  match l.waitQueueWrite with
  | [] =>
    ({ l with numberOfReaders := l.waitQueueRead.length },
      .goto (.wakeReaders l.waitQueueRead.length))
  -- `number_of_readers` stays: the lock is locked for `u`
  | u :: rest => ({ l with waitQueueWrite := rest }, .execTask u .user)

/-- `write_unlock`, up to its loop. -/
def writeUnlock (l : LocalRWLock τ) (t : τ) : LocalRWLock τ × Outcome τ Place :=
  (l.leaveWrite t).wakeNext

/-- One round of the loop in `write_unlock`. -/
def wakeReaders (l : LocalRWLock τ) : ℕ → LocalRWLock τ × Outcome τ Place
  | 0 => (l, .goto .user)
  | readersCount + 1 =>
    match l.waitQueueRead with
    | u :: rest => ({ l with waitQueueRead := rest }, .execTask u (.wakeReaders readersCount))
    -- `unwrap_unchecked` of `None`
    | [] => ({ l with missed := true }, .goto (.wakeReaders readersCount))

/-- The future that `t` awaits is ready. -/
def wake (l : LocalRWLock τ) (t : τ) : LocalRWLock τ :=
  { l with waiting := Function.update l.waiting t none }

/-- A poll of the task `t`: it polls the future it awaits, if it awaits one. -/
def poll (l : LocalRWLock τ) (t : τ) : LocalRWLock τ × Outcome τ Place :=
  match l.waiting t with
  | none => (l, .goto .user)
  -- whoever popped the task has counted it already
  | some kind => ((l.wake t).newGuard t kind, .goto .user)

def give (l : LocalRWLock τ) (t u : τ) : Kind → LocalRWLock τ
  | .read => { l with readGuards := u :: l.readGuards.erase t }
  | .write => { l with writeGuards := u :: l.writeGuards.erase t }

/-- The tasks that have guards of one kind. -/
def guards (l : LocalRWLock τ) : Kind → List τ
  | .read => l.readGuards
  | .write => l.writeGuards

def code (l : LocalRWLock τ) (t : τ) : Place → Op τ → Option (LocalRWLock τ × Outcome τ Place)
  | .poll, .go => some (l.poll t)
  | .wakeReaders readersCount, .go => some (l.wakeReaders readersCount)
  | .user, .write => some (l.write t)
  | .user, .read => some (l.read t)
  | .user, .tryWrite => some (l.tryWrite t)
  | .user, .tryRead => some (l.tryRead t)
  | .user, .readUnlock => if t ∈ l.guards .read then some (l.readUnlock t) else none
  | .user, .writeUnlock => if t ∈ l.guards .write then some (l.writeUnlock t) else none
  | .user, .give kind u => if t ∈ l.guards kind then some (l.give t u kind, .goto .user) else none
  | _, _ => none

/-- The lock as a primitive of the executor. -/
def primitive : Primitive τ (LocalRWLock τ) Place (Op τ) where
  entry := .poll
  isUser k := k == .user
  code := code

end LocalRWLock

end Orengine.Sync
