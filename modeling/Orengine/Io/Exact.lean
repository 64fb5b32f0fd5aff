import Mathlib.Algebra.GroupWithZero.Nat
import Mathlib.Data.List.Basic

/-!
# Transfers of whole buffers

`read_exact`, `write_all`, `recv_exact`, `send_all`, `peek_exact` and their positioned forms, forms
for byte slices and forms with deadlines are all the same loop: as long as the buffer is not done,
an operation is started for the rest of it, and what it returns is added to what is done.  With a
*fixed* buffer the loop counts in `u32` and passes pointers; otherwise it counts in `usize` and
passes slices, whose length the future of the operation casts to `u32`.

The results of the operations are given, in order; the loop ends, or it waits for a result that is
not given any more.  The arithmetic is that of machine words, without overflow checks.
-/

namespace Orengine.Io

/-- What a loop asks the worker for. -/
inductive Operation where
  | read
  | pread
  | write
  | pwrite
  | recv
  | send
  | peek
  deriving DecidableEq

/-- One operation that was started. -/
structure Request where
  operation : Operation
  /-- The index of the buffer, if it is fixed. -/
  fixedIndex : Option (BitVec 16)
  /-- The byte of the buffer that the pointer points to. -/
  start : ℕ
  len : BitVec 32
  /-- The position in the file, if it is not that of the cursor. -/
  offset : Option (BitVec 64)
  deadline : Option ℕ
  deriving DecidableEq

/-- The request, whether the buffer is fixed or not. -/
def Request.unfixed (q : Request) : Request := { q with fixedIndex := none }

/-- How a call has ended, or the operation that it waits for. -/
inductive Ending (ε : Type*) where
  | ok
  | error (q : Request) (e : ε)
  | waits (q : Request)
  deriving DecidableEq

/-- The operation that was started and not completed. -/
def Ending.request? {ε : Type*} : Ending ε → Option Request
  | .ok => none
  | .error q _ => some q
  | .waits q => some q

/-- A call: the operations that have succeeded, with what they have returned, and the end. -/
structure Run (ε : Type*) where
  completed : List (Request × ℕ)
  ending : Ending ε
  deriving DecidableEq

namespace Run

variable {ε : Type*}

def requests (r : Run ε) : List Request := r.completed.map Prod.fst ++ r.ending.request?.toList

/-- How many bytes were transferred. -/
def total (r : Run ε) : ℕ := (r.completed.map Prod.snd).sum

/-- One more operation before the others. -/
def cons (q : Request) (n : ℕ) (r : Run ε) : Run ε := ⟨(q, n) :: r.completed, r.ending⟩

end Run

section Loop

variable {ε : Type*}

/-- `while done < len { done += operation(done).await?; }`. -/
def exactLoop {w : ℕ} (len : BitVec w) (request : BitVec w → Request) :
    BitVec w → List (Except ε ℕ) → Run ε
  | done, [] => if done < len then ⟨[], .waits (request done)⟩ else ⟨[], .ok⟩
  | done, result :: results =>
    if done < len then
      match result with
      | .ok n => (exactLoop len request (done + BitVec.ofNat w n) results).cons (request done) n
      | .error e => ⟨[], .error (request done) e⟩
    else ⟨[], .ok⟩

/-- The rest of a fixed buffer, from `done` on. -/
def fixedRequest (operation : Operation) (offset : Option (BitVec 64)) (deadline : Option ℕ)
    (fixedIndex : BitVec 16) (len done : BitVec 32) : Request where
  operation := operation
  fixedIndex := some fixedIndex
  start := done.toNat
  len := len - done
  offset := offset.map fun o => o + done.setWidth 64
  deadline := deadline

/-- The rest of a slice, from `done` on. -/
def bytesRequest (operation : Operation) (offset : Option (BitVec 64)) (deadline : Option ℕ)
    (len done : BitVec 64) : Request where
  operation := operation
  fixedIndex := none
  start := done.toNat
  len := (len - done).setWidth 32
  offset := offset.map fun o => o + done
  deadline := deadline

/-- `FixedBuffer`, without its bytes. -/
structure FixedBuffer where
  lenU32 : BitVec 32
  fixedIndex : BitVec 16
  isFixed : Bool

/-- The length of `as_bytes`. -/
def FixedBuffer.lenBytes (buf : FixedBuffer) : BitVec 64 := buf.lenU32.setWidth 64

/-- The loop for a slice of some length. -/
def exactBytes (operation : Operation) (offset : Option (BitVec 64)) (deadline : Option ℕ)
    (len : BitVec 64) (results : List (Except ε ℕ)) : Run ε :=
  exactLoop len (bytesRequest operation offset deadline len) 0 results

/-- The loop for a buffer. -/
def exactBuffer (operation : Operation) (offset : Option (BitVec 64)) (deadline : Option ℕ)
    (buf : FixedBuffer) (results : List (Except ε ℕ)) : Run ε :=
  if buf.isFixed then
    exactLoop buf.lenU32 (fixedRequest operation offset deadline buf.fixedIndex buf.lenU32) 0
      results
  else exactBytes operation offset deadline buf.lenBytes results

/-! ### `AsyncRead` and `AsyncWrite` -/

def readBytesExact (len : BitVec 64) : List (Except ε ℕ) → Run ε := exactBytes .read none none len

def readExact (buf : FixedBuffer) : List (Except ε ℕ) → Run ε := exactBuffer .read none none buf

def preadBytesExact (len offset : BitVec 64) : List (Except ε ℕ) → Run ε :=
  exactBytes .pread (some offset) none len

def preadExact (buf : FixedBuffer) (offset : BitVec 64) : List (Except ε ℕ) → Run ε :=
  exactBuffer .pread (some offset) none buf

def writeAllBytes (len : BitVec 64) : List (Except ε ℕ) → Run ε := exactBytes .write none none len

def writeAll (buf : FixedBuffer) : List (Except ε ℕ) → Run ε := exactBuffer .write none none buf

def pwriteAllBytes (len offset : BitVec 64) : List (Except ε ℕ) → Run ε :=
  exactBytes .pwrite (some offset) none len

def pwriteAll (buf : FixedBuffer) (offset : BitVec 64) : List (Except ε ℕ) → Run ε :=
  exactBuffer .pwrite (some offset) none buf

/-! ### `AsyncRecv`, `AsyncSend` and `AsyncPeek` -/

def recvBytesExact (len : BitVec 64) : List (Except ε ℕ) → Run ε := exactBytes .recv none none len

def recvExact (buf : FixedBuffer) : List (Except ε ℕ) → Run ε := exactBuffer .recv none none buf

def sendAllBytes (len : BitVec 64) : List (Except ε ℕ) → Run ε := exactBytes .send none none len

def sendAll (buf : FixedBuffer) : List (Except ε ℕ) → Run ε := exactBuffer .send none none buf

def peekBytesExact (len : BitVec 64) : List (Except ε ℕ) → Run ε := exactBytes .peek none none len

def peekExact (buf : FixedBuffer) : List (Except ε ℕ) → Run ε := exactBuffer .peek none none buf

def peekBytesExactWithDeadline (len : BitVec 64) (deadline : ℕ) : List (Except ε ℕ) → Run ε :=
  exactBytes .peek none (some deadline) len

def peekExactWithDeadline (buf : FixedBuffer) (deadline : ℕ) : List (Except ε ℕ) → Run ε :=
  exactBuffer .peek none (some deadline) buf

end Loop

/-! ### Where the bytes go -/

/-- Where a byte comes from or goes to. -/
inductive Position where
  /-- So many bytes after the cursor of the file or of the stream, as it was before the call. -/
  | stream (p : ℕ)
  /-- At this offset of the file. -/
  | file (offset : BitVec 64)
  deriving DecidableEq

/-- The place of a byte of an operation that is started when the cursor has moved so far. -/
def Request.position (q : Request) (cursor k : ℕ) : Position :=
  match q.offset with
  | none => .stream (cursor + k)
  | some o => .file (o + BitVec.ofNat 64 k)

/-- How far an operation moves the cursor that transfers so many bytes. -/
def Request.advance (q : Request) (n : ℕ) : ℕ :=
  match q.operation with
  | .read => n
  | .pread => 0
  | .write => n
  | .pwrite => 0
  | .recv => n
  | .send => n
  | .peek => 0

/-- The bytes of the buffer that some operations transfer, in order, with their places. -/
def transfers : ℕ → List (Request × ℕ) → List (ℕ × Position)
  | _, [] => []
  | cursor, (q, n) :: completed =>
    (List.range n).map (fun k => (q.start + k, q.position cursor k)) ++
      transfers (cursor + q.advance n) completed

/-- How far some operations move the cursor. -/
def consumed (completed : List (Request × ℕ)) : ℕ :=
  (completed.map fun p => p.1.advance p.2).sum

end Orengine.Io
