import Orengine.Io.Buf.Buffer

/-!
# Buffers from moment to moment

An operation on a buffer is not one moment: `resize` has taken a new buffer before the old one is
dropped, and `get` has taken a buffer before the code has it.  A `Moment` has the buffer that an
operation has taken and not yet handed over, and its steps are the parts of the operations.

Whoever has a buffer is a `Holder`: a place of one of the two vectors of the pool, the code, by
name, or the operation that goes on.
-/

namespace Orengine.Io.Buf

open Lib

variable (uninit : ℕ → ℕ → UInt8)

/-- `index` of a fixed buffer. -/
def Buffer.index : Buffer → Option ℕ
  | .fixed f => some f.index
  | .nonFixed _ => none

/-- A thread, its buffers, and what the operation that goes on has taken. -/
structure Moment where
  memory : Memory
  buffers : ℕ → Option Buffer
  taken : Option Buffer

namespace Moment

/-- Between two operations. -/
def idle (s : System) : Moment := ⟨s.memory, s.buffers, none⟩

/-- What the operations are made of. -/
inductive Part where
  /-- `get_buffer_with_any_len`. -/
  | take
  | new (size : ℕ)
  /-- `set_len_unchecked` of the buffer that was taken. -/
  | setLenTaken (len : ℕ)
  /-- `set_len_unchecked` of the buffer `h`. -/
  | setLen (h len : ℕ)
  /-- Bytes are copied to a block. -/
  | copy (ptr i : ℕ) (bytes : List UInt8)
  /-- The buffer `h` is dropped. -/
  | drop (h : ℕ)
  /-- The buffer that was taken gets the name `h`. -/
  | handOver (h : ℕ)

/-- The memory and the buffer that was taken from it. -/
def hold (m : Moment) (r : Memory × Buffer) : Moment := { m with memory := r.1, taken := some r.2 }

def step (m : Moment) : Part → Option Moment
  | .take => if m.taken = none then (m.memory.getBufferWithAnyLen uninit).map m.hold else none
  | .new size => if m.taken = none then (m.memory.newBuffer uninit size).map m.hold else none
  | .setLenTaken len => m.taken.map fun b => { m with taken := some (b.setLenUnchecked len) }
  | .setLen h len => (m.buffers h).map fun b =>
    { m with buffers := Function.update m.buffers h (some (b.setLenUnchecked len)) }
  | .copy ptr i bytes => (m.memory.heap.write ptr i bytes).map fun heap =>
    { m with memory := { m.memory with heap := heap } }
  | .drop h => (m.buffers h).map fun b =>
    { m with memory := m.memory.put b, buffers := Function.update m.buffers h none }
  | .handOver h =>
    match m.taken, m.buffers h with
    | some b, none => some { m with buffers := Function.update m.buffers h (some b), taken := none }
    | _, _ => none

/-- Who can have a buffer. -/
inductive Holder where
  /-- A place of `pool_of_fixed_buffers`. -/
  | fixedPool (i : ℕ)
  /-- A place of `pool_of_non_fixed_buffers`. -/
  | nonFixedPool (i : ℕ)
  | code (h : ℕ)
  | operation
  deriving DecidableEq

def buffer (m : Moment) : Holder → Option Buffer
  | .fixedPool i => m.memory.pool.poolOfFixedBuffers.reverse[i]?
  | .nonFixedPool i => m.memory.pool.poolOfNonFixedBuffers.reverse[i]?
  | .code h => m.buffers h
  | .operation => m.taken

/-- The index of the fixed buffer that a holder has. -/
def index (m : Moment) (x : Holder) : Option ℕ := (m.buffer x).bind Buffer.index

end Moment

end Orengine.Io.Buf
