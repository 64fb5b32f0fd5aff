import Orengine.Lib.Heap

/-!
# `Buffer` and `BufPool` on Linux

A `Buffer` is either a *fixed* one, which is registered with the ring and belongs to the pool, or a
vector.  Both have a pointer to a block of the heap, a length and a capacity.  The pool of an
executor keeps the buffers of the default capacity that nobody uses; a buffer that is dropped goes
back to it, or is deallocated.

`resize` replaces the buffer by one of the pool or a new one and copies the bytes, and `append` does
so in the middle of its work if the capacity is not enough.  The functions pass the `Memory` of the
thread along, and return `none` if they would read or write behind the end of a block, or create a
buffer of size 0.  Lengths and capacities are `u32`, and so is the arithmetic.  The bytes of a new
block are any bytes, given by `uninit`.

`System` is a thread whose code has any number of buffers, by name.
-/

namespace Orengine.Io.Buf

open Lib

/-- A number as a `u32`. -/
def toU32 (n : ℕ) : ℕ := n % UInt32.size

/-- The difference of two `u32`. -/
def subU32 (a b : ℕ) : ℕ := toU32 (a + UInt32.size - b)

theorem toU32_of_lt {n : ℕ} (h : n < UInt32.size) : toU32 n = n := Nat.mod_eq_of_lt h

theorem toU32_lt (n : ℕ) : toU32 n < UInt32.size := Nat.mod_lt _ (by decide)

theorem subU32_of_le {a b : ℕ} (hle : b ≤ a) (ha : a < UInt32.size) : subU32 a b = a - b := by
  have hsplit : a + UInt32.size - b = a - b + UInt32.size := by omega
  rw [subU32, toU32, hsplit, Nat.add_mod_right, Nat.mod_eq_of_lt (by omega)]

/-- `FixedBuffer` of `linux_buffer.rs`. -/
structure FixedBuffer where
  len : ℕ
  cap : ℕ
  index : ℕ
  ptr : ℕ
  deriving DecidableEq

/-- A `Vec<u8>`. -/
structure ByteBlock where
  ptr : ℕ
  len : ℕ
  cap : ℕ
  deriving DecidableEq

/-- `Buffer`, which is a `LinuxBuffer`. -/
inductive Buffer where
  | fixed (buf : FixedBuffer)
  | nonFixed (buf : ByteBlock)
  deriving DecidableEq

inductive LenIsGreaterThanCapacity where
  | mk
  deriving DecidableEq

namespace Buffer

/-- `as_ptr` and `as_mut_ptr`. -/
def ptr : Buffer → ℕ
  | .fixed f => f.ptr
  | .nonFixed v => v.ptr

/-- `len_u32`. -/
def len : Buffer → ℕ
  | .fixed f => f.len
  | .nonFixed v => toU32 v.len

def capacity : Buffer → ℕ
  | .fixed f => f.cap
  | .nonFixed v => toU32 v.cap

def isFixed : Buffer → Bool
  | .fixed _ => true
  | .nonFixed _ => false

def setLenUnchecked (b : Buffer) (len : ℕ) : Buffer :=
  match b with
  | .fixed f => .fixed { f with len := len }
  | .nonFixed v => .nonFixed { v with len := len }

def setLen (b : Buffer) (len : ℕ) : Except LenIsGreaterThanCapacity Buffer :=
  if len ≤ b.capacity then .ok (b.setLenUnchecked len) else .error .mk

def setLenToCapacity (b : Buffer) : Buffer := b.setLenUnchecked b.capacity

def clear (b : Buffer) : Buffer := b.setLenUnchecked 0

def addLen (b : Buffer) (diff : ℕ) : Buffer := b.setLenUnchecked (toU32 (b.len + diff))

end Buffer

/-- `BufPool`; the buffer that is popped next stands first. -/
structure BufPool where
  poolOfFixedBuffers : List Buffer
  poolOfNonFixedBuffers : List Buffer
  defaultBufferCap : ℕ

/-- The heap and the pool of an executor's thread. -/
structure Memory where
  heap : Heap UInt8
  pool : BufPool

variable (uninit : ℕ → ℕ → UInt8)

namespace Memory

/-- `Buffer::new`. -/
def newBuffer (m : Memory) (size : ℕ) : Option (Memory × Buffer) :=
  if size = 0 then none
  else
    let block := m.heap.alloc ((List.range size).map (uninit m.heap.next))
    some ({ m with heap := block.1 }, .nonFixed ⟨block.2, 0, size⟩)

def getBufferWithAnyLen (m : Memory) : Option (Memory × Buffer) :=
  match m.pool.poolOfFixedBuffers with
  | b :: rest => some ({ m with pool := { m.pool with poolOfFixedBuffers := rest } }, b)
  | [] =>
    match m.pool.poolOfNonFixedBuffers with
    | b :: rest => some ({ m with pool := { m.pool with poolOfNonFixedBuffers := rest } }, b)
    | [] => m.newBuffer uninit m.pool.defaultBufferCap

def get (m : Memory) : Option (Memory × Buffer) :=
  (m.getBufferWithAnyLen uninit).map fun r => (r.1, r.2.clear)

def getFull (m : Memory) : Option (Memory × Buffer) :=
  (m.getBufferWithAnyLen uninit).map fun r => (r.1, r.2.setLenToCapacity)

/-- `BufPool::put`, which is also what `drop` does. -/
def put (m : Memory) (b : Buffer) : Memory :=
  if b.isFixed then
    { m with pool := { m.pool with poolOfFixedBuffers := b :: m.pool.poolOfFixedBuffers } }
  else if b.capacity = m.pool.defaultBufferCap then
    { m with pool := { m.pool with poolOfNonFixedBuffers := b :: m.pool.poolOfNonFixedBuffers } }
  -- `deallocate`
  else { m with heap := m.heap.free b.ptr }

/-- The buffer that `Buffer::resize` goes on with. -/
def newBuf (m : Memory) (newSize : ℕ) : Option (Memory × Buffer) :=
  if m.pool.defaultBufferCap = newSize then m.get uninit else m.newBuffer uninit newSize

def resize (m : Memory) (b : Buffer) (newSize : ℕ) : Option (Memory × Buffer) :=
  if newSize < b.len then some (m, b.setLenUnchecked newSize)
  else do
    let (m, newBuf) ← m.newBuf uninit newSize
    let newBuf := newBuf.setLenUnchecked b.len
    let bytes ← m.heap.read b.ptr b.len
    let heap ← m.heap.write newBuf.ptr 0 bytes
    -- the assignment drops the old buffer
    return ({ m with heap := heap }.put b, newBuf)

/-- The first part of `Buffer::append`: the buffer is resized if its capacity is not enough. -/
def makeRoom (m : Memory) (b : Buffer) (diffLen : ℕ) : Option (Memory × Buffer) :=
  if subU32 b.capacity b.len < diffLen then m.resize uninit b (toU32 (b.len + diffLen))
  else some (m, b)

def append (m : Memory) (b : Buffer) (bytes : List UInt8) : Option (Memory × Buffer) := do
  let (m, b) ← m.makeRoom uninit b (toU32 bytes.length)
  let heap ← m.heap.write b.ptr b.len bytes
  return ({ m with heap := heap }, b.addLen (toU32 bytes.length))

/-- `BufPool::new`: the blocks of the fixed buffers are the first ones of the heap. -/
def init (numberOfFixedBuffers defaultBufferCap : ℕ) : Memory where
  heap :=
    { block p := if p < numberOfFixedBuffers then List.replicate defaultBufferCap 0 else []
      next := numberOfFixedBuffers }
  pool :=
    { poolOfFixedBuffers :=
        (List.range numberOfFixedBuffers).reverse.map fun i => .fixed ⟨0, defaultBufferCap, i, i⟩
      poolOfNonFixedBuffers := []
      defaultBufferCap := defaultBufferCap }

/-- The bytes of a buffer: `as_ref`. -/
def contents (m : Memory) (b : Buffer) : List UInt8 := (m.heap.block b.ptr).take b.len

end Memory

/-! ### Code that uses buffers -/

/-- A thread and the buffers of its code, by name. -/
structure System where
  memory : Memory
  buffers : ℕ → Option Buffer

namespace System

/-- An operation on the buffer with the name `h`. -/
inductive Action where
  /-- The pool gives an empty buffer, which gets the name `h`. -/
  | get (h : ℕ)
  /-- The pool gives a full buffer. -/
  | getFull (h : ℕ)
  | append (h : ℕ) (bytes : List UInt8)
  | clear (h : ℕ)
  | setLen (h len : ℕ)
  | resize (h newSize : ℕ)
  /-- `release`, or `drop`. -/
  | release (h : ℕ)

/-- Before the first buffer is taken from the pool. -/
def init (numberOfFixedBuffers defaultBufferCap : ℕ) : System :=
  ⟨.init numberOfFixedBuffers defaultBufferCap, fun _ => none⟩

/-- The buffer `h` is now `b`. -/
def setBuffer (s : System) (h : ℕ) (b : Option Buffer) : System :=
  { s with buffers := Function.update s.buffers h b }

/-- The memory and the buffer `h` after an operation. -/
def update (s : System) (h : ℕ) (r : Memory × Buffer) : System :=
  { s with memory := r.1 }.setBuffer h (some r.2)

def step (s : System) : Action → Option System
  | .get h => if s.buffers h = none then (s.memory.get uninit).map (s.update h) else none
  | .getFull h => if s.buffers h = none then (s.memory.getFull uninit).map (s.update h) else none
  | .append h bytes => do
    let b ← s.buffers h
    let r ← s.memory.append uninit b bytes
    return s.update h r
  | .clear h => (s.buffers h).map fun b => s.setBuffer h (some b.clear)
  | .setLen h len => (s.buffers h).map fun b =>
    match b.setLen len with
    | .ok b => s.setBuffer h (some b)
    | .error _ => s
  | .resize h newSize => do
    let b ← s.buffers h
    let r ← s.memory.resize uninit b newSize
    return s.update h r
  | .release h => (s.buffers h).map fun b =>
    { s with memory := s.memory.put b }.setBuffer h none

end System

end Orengine.Io.Buf
