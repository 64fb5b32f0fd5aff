import Mathlib.Data.Nat.Notation

/-!
# `UnixAddr`

A `SockAddr` is a `sockaddr_storage` of 128 bytes with a length.  For a Unix address the storage
begins with a `sockaddr_un`: two bytes of the family, and the 108 bytes of `sun_path`.  The length
says what the bytes mean, as on Linux: an address that ends behind the family is unnamed, one whose
path begins with a zero is abstract, and else the path is a pathname whose terminator is counted.

The length is subtracted from and the path is sliced as the source does it: `Fault` is what goes
wrong, an underflow where the build checks for it, or a range that is not in the path.
-/

namespace Orengine.Net.Unix

def sunPathOffset : ℕ := 2

/-- The length of `sun_path`. -/
def sunPathLen : ℕ := 108

/-- The size of `sockaddr_un`. -/
def sockaddrUnSize : ℕ := sunPathOffset + sunPathLen

/-- The size of `sockaddr_storage`. -/
def storageSize : ℕ := 128

/-- How many values a `usize` has. -/
def usizeValues : ℕ := 0x10000000000000000

/-- `AF_UNIX`, as the two bytes of the family. -/
def afUnix : List UInt8 := [1, 0]

/-! ### The bytes -/

/-- `sockaddr_storage`. -/
@[ext]
structure Storage where
  bytes : List UInt8
  length_bytes : bytes.length = storageSize
  deriving DecidableEq

namespace Storage

/-- All zeros. -/
def zeroed : Storage := ⟨List.replicate storageSize 0, List.length_replicate⟩

theorem length_write (s : Storage) {offset : ℕ} {data : List UInt8}
    (h : offset + data.length ≤ storageSize) :
    (s.bytes.take offset ++ data ++ s.bytes.drop (offset + data.length)).length = storageSize := by
  simp only [List.length_append, List.length_take, List.length_drop, s.length_bytes]
  omega

/-- Bytes are copied to an offset. -/
def write (s : Storage) (offset : ℕ) (data : List UInt8)
    (h : offset + data.length ≤ storageSize) : Storage where
  bytes := s.bytes.take offset ++ data ++ s.bytes.drop (offset + data.length)
  length_bytes := s.length_write h

def sunPath (s : Storage) : List UInt8 := (s.bytes.drop sunPathOffset).take sunPathLen

end Storage

/-- `SockAddr`. -/
@[ext]
structure SockAddr where
  storage : Storage
  len : ℕ
  deriving DecidableEq

namespace SockAddr

def zeroed : SockAddr := ⟨.zeroed, 0⟩

def setLength (a : SockAddr) (len : ℕ) : SockAddr := { a with len := len }

end SockAddr

/-! ### Making addresses -/

/-- An error of the kind `InvalidInput`, with its text. -/
structure InvalidInput where
  message : String
  deriving DecidableEq

/-- `UnixAddr`. -/
@[ext]
structure UnixAddr where
  inner : SockAddr
  deriving DecidableEq

/-- A zeroed storage with the family `AF_UNIX`. -/
def unixStorage : Storage := Storage.zeroed.write 0 afUnix (by decide)

def sockaddrUn (path : List UInt8) : Except InvalidInput (Storage × ℕ) :=
  if 0 ∈ path then .error ⟨"paths must not contain null bytes"⟩
  else if h : sunPathLen ≤ path.length then .error ⟨"path must be shorter than SUN_LEN"⟩
  else
    have hfits : sunPathOffset + path.length ≤ storageSize := by
      simp only [sunPathLen, sunPathOffset, storageSize] at h ⊢
      omega
    .ok (unixStorage.write sunPathOffset path hfits,
      if path.head? = some 0 ∨ path.head? = none then sunPathOffset + path.length
      else sunPathOffset + path.length + 1)

def UnixAddr.fromPathname (path : List UInt8) : Except InvalidInput UnixAddr :=
  (sockaddrUn path).map fun (addr, len) => ⟨⟨addr, len⟩⟩

def UnixAddr.fromAbstractName (name : List UInt8) : Except InvalidInput UnixAddr :=
  if h : sunPathLen < name.length + 1 then
    .error ⟨"abstract socket name must be shorter than SUN_LEN"⟩
  else
    have hfits : sunPathOffset + 1 + name.length ≤ storageSize := by
      simp only [sunPathLen, sunPathOffset, storageSize] at h ⊢
      omega
    .ok ⟨⟨unixStorage.write (sunPathOffset + 1) name hfits, sunPathOffset + 1 + name.length⟩⟩

/-! ### Reading addresses -/

inductive AddressKind where
  | unnamed
  | pathname (path : List UInt8)
  | abstract (name : List UInt8)
  deriving DecidableEq

/-- What can go wrong. -/
inductive Fault where
  | underflow
  | outOfRange
  deriving DecidableEq

/-- `a - b`, where the build checks for an overflow or not. -/
def subUsize (checks : Bool) (a b : ℕ) : Except Fault ℕ :=
  if b ≤ a then .ok (a - b) else if checks then .error .underflow else .ok (usizeValues + a - b)

/-- `bytes[i..j]`. -/
def slice (bytes : List UInt8) (i j : ℕ) : Except Fault (List UInt8) :=
  if i ≤ j ∧ j ≤ bytes.length then .ok ((bytes.take j).drop i) else .error .outOfRange

/-- What the length and the path mean. -/
def kindOf (path : List UInt8) (len : ℕ) : Except Fault AddressKind :=
  if len = 0 then .ok .unnamed
  else if path.head? = some 0 then (slice path 1 len).map .abstract
  else (slice path 0 (len - 1)).map .pathname

namespace UnixAddr

variable (checks : Bool) (a : UnixAddr)

def address : Except Fault AddressKind :=
  (subUsize checks a.inner.len sunPathOffset).bind (kindOf a.inner.storage.sunPath)

def asPathname : Except Fault (Option (List UInt8)) :=
  (a.address checks).map fun
    | .pathname path => some path
    | _ => none

def isUnnamed : Except Fault Bool :=
  (a.address checks).map fun
    | .unnamed => true
    | _ => false

def asAbstractName : Except Fault (Option (List UInt8)) :=
  (a.address checks).map fun
    | .abstract name => some name
    | _ => none

end UnixAddr

/-- `escape_ascii` of a byte. -/
def escapeByte (b : UInt8) : String :=
  if b = 0x09 then "\\t"
  else if b = 0x0D then "\\r"
  else if b = 0x0A then "\\n"
  else if b = 0x27 then "\\'"
  else if b = 0x22 then "\\\""
  else if b = 0x5C then "\\\\"
  else if 0x20 ≤ b ∧ b ≤ 0x7E then "".push (Char.ofNat b.toNat)
  else ("\\x".push (Nat.digitChar (b.toNat / 16))).push (Nat.digitChar (b.toNat % 16))

def escapeAscii (bytes : List UInt8) : String := String.join (bytes.map escapeByte)

/-- `Debug::fmt`, with that of a `Path`. -/
def UnixAddr.fmt (fmtPath : List UInt8 → String) (checks : Bool) (a : UnixAddr) :
    Except Fault String :=
  (a.address checks).map fun
    | .unnamed => "(unnamed)"
    | .abstract name => "\"" ++ escapeAscii name ++ "\" (abstract)"
    | .pathname path => fmtPath path ++ " (pathname)"

/-! ### `std::os::unix::net::SocketAddr` -/

/-- `SocketAddr` of the standard library, as `SocketAddrPrototype` has it. -/
@[ext]
structure SocketAddr where
  addr : List UInt8
  len : ℕ
  length_addr : addr.length = sockaddrUnSize

namespace UnixAddr

/-- `From<SocketAddr> for UnixAddr`. -/
def ofSocketAddr (s : SocketAddr) : UnixAddr where
  inner := SockAddr.setLength
    ⟨Storage.zeroed.write 0 s.addr (by rw [s.length_addr]; decide), SockAddr.zeroed.len⟩ s.len

/-- `From<UnixAddr> for SocketAddr`. -/
def toSocketAddr (a : UnixAddr) : SocketAddr where
  addr := a.inner.storage.bytes.take sockaddrUnSize
  len := a.inner.len
  length_addr := by
    rw [List.length_take, a.inner.storage.length_bytes]
    decide

end UnixAddr

end Orengine.Net.Unix
