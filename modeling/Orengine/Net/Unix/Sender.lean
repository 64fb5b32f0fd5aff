import Orengine.Net.Unix.Addr

/-!
# The addresses of senders and peers

`recv_from` and `peek_from` hand a zeroed `SockAddr` to the kernel in a message header and then set
its length to the one that the kernel has written to the header; `accept` hands over a zeroed
storage and a length.  What Linux writes is the address of the sender: nothing at all for a datagram
of a socket that was never bound, the family for a peer without a name, a path with its terminator,
or an abstract name behind a zero.
-/

namespace Orengine.Net.Unix

/-- The size of `SockAddr`. -/
def sockAddrSize : ℕ := 136

/-- What Linux knows of a sender or a peer. -/
inductive Sender where
  /-- The sender of a datagram, which was never bound: no address is written, and its length is 0.
  The results about `accept` hold for a length of 0 too, although Linux does not give it one. -/
  | unbound
  /-- A peer without a name, such as one of `accept` that was never bound. -/
  | unnamed
  | pathname (path : List UInt8) (hne : path ≠ []) (hnul : 0 ∉ path)
      (hlength : path.length ≤ sunPathLen)
  | abstract (name : List UInt8) (hlength : name.length < sunPathLen)

namespace Sender

/-- The address, as Linux writes it. -/
def bytes : Sender → List UInt8
  | unbound => []
  | unnamed => afUnix
  | pathname path _ _ _ => afUnix ++ (path ++ [0])
  | abstract name _ => afUnix ++ 0 :: name

def kind : Sender → AddressKind
  | unbound => .unnamed
  | unnamed => .unnamed
  | pathname path _ _ _ => .pathname path
  | abstract name _ => .abstract name

/-- Linux writes the address to a storage, as far as there is space for it. -/
def copyTo (sender : Sender) (space : ℕ) (storage : Storage) : Storage :=
  storage.write 0 (sender.bytes.take (min space storageSize)) (by
    rw [List.length_take]
    omega)

end Sender

/-- `MessageRecvHeader`, as far as the address is concerned. -/
structure MessageRecvHeader where
  msgNamelen : ℕ

namespace MessageRecvHeader

def new : MessageRecvHeader := ⟨sockAddrSize⟩

def getAddrLen (header : MessageRecvHeader) : ℕ := header.msgNamelen

end MessageRecvHeader

/-- `recvmsg` of Linux: the header and the storage afterwards. -/
def recvmsg (sender : Sender) (header : MessageRecvHeader) (storage : Storage) :
    MessageRecvHeader × Storage :=
  (⟨sender.bytes.length⟩, sender.copyTo header.msgNamelen storage)

/-- `FromSockAddr for UnixAddr`. -/
def UnixAddr.fromSockAddr (addr : SockAddr) : Option UnixAddr := some ⟨addr⟩

/-- The address that `RecvFrom` and `PeekFrom` give. -/
def receiveFrom (sender : Sender) : SockAddr :=
  let (header, storage) := recvmsg sender .new SockAddr.zeroed.storage
  SockAddr.setLength ⟨storage, SockAddr.zeroed.len⟩ header.getAddrLen

def recvFrom (sender : Sender) : Option UnixAddr := UnixAddr.fromSockAddr (receiveFrom sender)

def peekFrom (sender : Sender) : Option UnixAddr := UnixAddr.fromSockAddr (receiveFrom sender)

structure SockAddrRaw where
  storage : Storage
  len : ℕ

namespace SockAddrRaw

def empty : SockAddrRaw := ⟨.zeroed, sockAddrSize⟩

def asSockAddr (raw : SockAddrRaw) : SockAddr := ⟨raw.storage, raw.len⟩

end SockAddrRaw

/-- `accept` of Linux: the storage and the length afterwards. -/
def acceptSyscall (peer : Sender) (raw : SockAddrRaw) : SockAddrRaw :=
  ⟨peer.copyTo raw.len raw.storage, peer.bytes.length⟩

def accept (peer : Sender) : Option UnixAddr :=
  UnixAddr.fromSockAddr (acceptSyscall peer .empty).asSockAddr

/-- The operations that give the address of a sender or a peer. -/
inductive Operation where
  | recvFrom
  | peekFrom
  | accept
  deriving DecidableEq

namespace Operation

def addr : Operation → Sender → Option UnixAddr
  | recvFrom => Unix.recvFrom
  | peekFrom => Unix.peekFrom
  | accept => Unix.accept

end Operation

end Orengine.Net.Unix
