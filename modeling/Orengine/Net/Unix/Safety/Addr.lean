import Mathlib.Tactic.Common
import Orengine.Net.Unix.Sender

/-!
# Unix addresses: round trips, and the addresses of senders

The constructors of `UnixAddr` and the kernel write the same bytes: `Sender.sockAddr` is where they
meet, and `address_sockAddr` reads it back (`unixAddr_round_trip`, `readable_iff`), apart from the
sender of a datagram that was never bound: the length is 0 then, and `address` subtracts the offset
of the path from it.
-/

namespace Orengine.Net.Unix

/-! ### The bytes -/

namespace Storage

theorem bytes_write (s : Storage) (offset : ℕ) (data : List UInt8)
    (h : offset + data.length ≤ storageSize) :
    (s.write offset data h).bytes =
      s.bytes.take offset ++ data ++ s.bytes.drop (offset + data.length) := rfl

theorem bytes_write_zeroed (data : List UInt8) (h : 0 + data.length ≤ storageSize) :
    (zeroed.write 0 data h).bytes = data ++ List.replicate (storageSize - data.length) 0 := by
  rw [bytes_write, List.take_zero, List.nil_append, Nat.zero_add, zeroed, List.drop_replicate]

/-- Zeros are there already. -/
theorem write_append_zero (data : List UInt8) (h : 0 + (data ++ [0]).length ≤ storageSize)
    (h' : 0 + data.length ≤ storageSize) :
    zeroed.write 0 (data ++ [0]) h = zeroed.write 0 data h' := by
  apply Storage.ext
  have hrest : storageSize - data.length = storageSize - (data ++ [0]).length + 1 := by
    rw [List.length_append, List.length_singleton] at h ⊢
    omega
  rw [bytes_write_zeroed, bytes_write_zeroed, hrest, List.replicate_succ, List.append_assoc]
  rfl

theorem write_write (front data : List UInt8) (hfront : 0 + front.length ≤ storageSize)
    (h : front.length + data.length ≤ storageSize)
    (h' : 0 + (front ++ data).length ≤ storageSize) :
    (zeroed.write 0 front hfront).write front.length data h =
      zeroed.write 0 (front ++ data) h' := by
  apply Storage.ext
  rw [bytes_write_zeroed, bytes_write, bytes_write_zeroed, List.take_left, List.drop_append,
    List.drop_eq_nil_of_le (Nat.le_add_right _ _), List.nil_append, List.drop_replicate,
    List.length_append]
  congr 2
  omega

theorem sunPath_write (data : List UInt8) (h : 0 + (afUnix ++ data).length ≤ storageSize) :
    (zeroed.write 0 (afUnix ++ data) h).sunPath =
      (data ++ List.replicate (storageSize - (afUnix ++ data).length) 0).take sunPathLen := by
  rw [sunPath, bytes_write_zeroed, List.append_assoc]
  rfl

end Storage

/-! ### The meeting point -/

theorem Sender.length_bytes_le (sender : Sender) : sender.bytes.length ≤ 111 := by
  cases sender with
  | unbound => exact Nat.zero_le _
  | unnamed => exact Nat.le_of_ble_eq_true rfl
  | pathname _ _ _ hlength | abstract _ hlength =>
    simp only [bytes, afUnix, List.length_append, List.length_cons, List.length_nil, sunPathLen]
      at hlength ⊢
    omega

theorem Sender.fits (sender : Sender) : 0 + sender.bytes.length ≤ storageSize := by
  have hle := sender.length_bytes_le
  rw [storageSize]
  omega

/-- The address of a sender: its bytes, and zeros. -/
def Sender.sockAddr (sender : Sender) : SockAddr :=
  ⟨Storage.zeroed.write 0 sender.bytes sender.fits, sender.bytes.length⟩

theorem fits_of_le {path : List UInt8} (h : path.length ≤ sunPathLen) :
    0 + (afUnix ++ path).length ≤ storageSize := by
  simp only [afUnix, List.length_append, List.length_cons, List.length_nil, sunPathLen,
    storageSize] at h ⊢
  omega

/-- The terminator of a path is one of the zeros. -/
theorem storage_pathname {path : List UInt8} (hne : path ≠ []) (hnul : 0 ∉ path)
    (hlength : path.length ≤ sunPathLen) :
    (Sender.pathname path hne hnul hlength).sockAddr.storage =
      Storage.zeroed.write 0 (afUnix ++ path) (fits_of_le hlength) := by
  have hfits := (Sender.pathname path hne hnul hlength).fits
  exact Storage.write_append_zero (afUnix ++ path) hfits (fits_of_le hlength)

theorem kindOf_pathname {path : List UInt8} (hne : path ≠ []) (hnul : 0 ∉ path)
    (hlength : path.length ≤ sunPathLen) (zeros : List UInt8) :
    kindOf ((path ++ zeros).take sunPathLen) (path.length + 1) = .ok (.pathname path) := by
  obtain ⟨b, rest, rfl⟩ := List.exists_cons_of_ne_nil hne
  have hb : b ≠ 0 := fun hb => hnul (hb ▸ List.mem_cons_self)
  have hslice : slice ((b :: rest ++ zeros).take sunPathLen) 0 ((b :: rest).length + 1 - 1) =
      .ok (b :: rest) := by
    rw [slice, if_pos, Nat.add_sub_cancel, List.take_take, Nat.min_eq_left hlength,
      List.take_left, List.drop_zero]
    rw [Nat.add_sub_cancel, List.length_take, List.length_append]
    omega
  rw [kindOf, if_neg (Nat.succ_ne_zero _), if_neg, hslice]
  · rfl
  · rw [List.cons_append, sunPathLen, List.take_succ_cons, List.head?_cons]
    exact mt Option.some.inj hb

theorem kindOf_abstract {name : List UInt8} (hlength : name.length < sunPathLen)
    (zeros : List UInt8) :
    kindOf ((0 :: name ++ zeros).take sunPathLen) (name.length + 1) = .ok (.abstract name) := by
  have hslice : slice ((0 :: name ++ zeros).take sunPathLen) 1 (name.length + 1) = .ok name := by
    rw [slice, if_pos, List.take_take, Nat.min_eq_left hlength]
    · rw [List.cons_append, List.take_succ_cons, List.drop_succ_cons, List.take_left,
        List.drop_zero]
    · rw [List.length_take, List.length_append, List.length_cons]
      omega
  rw [kindOf, if_neg (Nat.succ_ne_zero _), if_pos, hslice]
  · rfl
  · rw [List.cons_append, sunPathLen, List.take_succ_cons, List.head?_cons]

/-- The length without the offset is the length of the path. -/
theorem address_write (checks : Bool) (data : List UInt8)
    (h : 0 + (afUnix ++ data).length ≤ storageSize) :
    (⟨⟨Storage.zeroed.write 0 (afUnix ++ data) h, (afUnix ++ data).length⟩⟩ : UnixAddr).address
        checks =
      kindOf ((data ++ List.replicate (storageSize - (afUnix ++ data).length) 0).take sunPathLen)
        data.length := by
  have hsub : subUsize checks (afUnix ++ data).length sunPathOffset = .ok data.length := by
    have hlength : (afUnix ++ data).length = sunPathOffset + data.length := List.length_append
    rw [subUsize, hlength, if_pos (Nat.le_add_right _ _), Nat.add_sub_cancel_left]
  rw [UnixAddr.address, hsub, Storage.sunPath_write]
  rfl

/-- **What a sender is is read back**, if anything was written. -/
theorem address_sockAddr (checks : Bool) {sender : Sender} (h : sender ≠ .unbound) :
    (⟨sender.sockAddr⟩ : UnixAddr).address checks = .ok sender.kind := by
  cases sender with
  | unbound => exact absurd rfl h
  | unnamed => cases checks <;> rfl
  | pathname path hne hnul hlength =>
    refine (address_write checks (path ++ [0]) _).trans ?_
    have hterminated : (path ++ [0]).length = path.length + 1 := List.length_append
    rw [List.append_assoc, hterminated]
    exact kindOf_pathname hne hnul hlength _
  | abstract name hlength =>
    refine (address_write checks (0 :: name) _).trans ?_
    exact kindOf_abstract hlength _

/-- A length of 0 is less than the offset, and with the wrapped one the range is too long. -/
theorem address_unbound (checks : Bool) :
    (⟨Sender.unbound.sockAddr⟩ : UnixAddr).address checks =
      .error (if checks then .underflow else .outOfRange) := by
  cases checks <;> rfl

/-! ### The constructors -/

theorem unixStorage_write (data : List UInt8) (h : sunPathOffset + data.length ≤ storageSize)
    (h' : 0 + (afUnix ++ data).length ≤ storageSize) :
    unixStorage.write sunPathOffset data h = Storage.zeroed.write 0 (afUnix ++ data) h' :=
  Storage.write_write afUnix data (by decide) h h'

namespace UnixAddr

theorem fromPathname_nil : fromPathname [] = .ok ⟨Sender.unnamed.sockAddr⟩ := by
  rw [fromPathname, sockaddrUn, if_neg List.not_mem_nil, dif_neg (by decide), if_pos (.inr rfl)]
  refine congrArg (fun storage => Except.ok (⟨⟨storage, _⟩⟩ : UnixAddr)) ?_
  exact unixStorage_write [] (by decide) (by decide)

theorem fromPathname_eq {path : List UInt8} (hne : path ≠ []) (hnul : 0 ∉ path)
    (hlength : path.length < sunPathLen) :
    fromPathname path = .ok ⟨(Sender.pathname path hne hnul (Nat.le_of_lt hlength)).sockAddr⟩ := by
  have hhead : ¬(path.head? = some 0 ∨ path.head? = none) := by
    rintro (hzero | hnone)
    · exact hnul (List.mem_of_mem_head? hzero)
    · exact hne (List.head?_eq_none_iff.mp hnone)
  have hfits := fits_of_le (Nat.le_of_lt hlength)
  rw [fromPathname, sockaddrUn, if_neg hnul, dif_neg (Nat.not_le.mpr hlength), if_neg hhead]
  refine congrArg Except.ok (UnixAddr.ext (SockAddr.ext ?_ ?_))
  · rw [storage_pathname]
    have hbehind : sunPathOffset + path.length ≤ storageSize := by
      rw [Nat.zero_add, List.length_append] at hfits
      exact hfits
    exact unixStorage_write path hbehind hfits
  · change sunPathOffset + path.length + 1 = (afUnix ++ (path ++ [0])).length
    simp only [afUnix, sunPathOffset, List.length_append, List.length_cons, List.length_nil]
    omega

theorem fromAbstractName_eq {name : List UInt8} (hlength : name.length < sunPathLen) :
    fromAbstractName name = .ok ⟨(Sender.abstract name hlength).sockAddr⟩ := by
  have hzero : unixStorage = Storage.zeroed.write 0 (afUnix ++ [0]) (by decide) :=
    (Storage.write_append_zero afUnix (by decide) (by decide)).symm
  rw [fromAbstractName, dif_neg (Nat.not_lt.mpr hlength)]
  refine congrArg Except.ok (UnixAddr.ext (SockAddr.ext ?_ ?_))
  · simp only [hzero]
    exact Storage.write_write (afUnix ++ [0]) name (by decide) _ (Sender.abstract name hlength).fits
  · change sunPathOffset + 1 + name.length = (afUnix ++ 0 :: name).length
    simp only [afUnix, sunPathOffset, List.length_append, List.length_cons, List.length_nil]
    omega

theorem isOk_fromPathname_iff {path : List UInt8} :
    (∃ a, fromPathname path = .ok a) ↔ 0 ∉ path ∧ path.length ≤ 107 := by
  constructor
  · rintro ⟨a, ha⟩
    rw [fromPathname, sockaddrUn] at ha
    split at ha
    case isTrue => cases ha
    case isFalse hnul =>
      split at ha
      case isTrue => cases ha
      case isFalse hlength => exact ⟨hnul, Nat.le_of_lt_succ (Nat.not_le.mp hlength)⟩
  · rintro ⟨hnul, hlength⟩
    by_cases hne : path = []
    · subst hne
      exact ⟨_, fromPathname_nil⟩
    · exact ⟨_, fromPathname_eq hne hnul (Nat.lt_succ_of_le hlength)⟩

theorem isOk_fromAbstractName_iff {name : List UInt8} :
    (∃ a, fromAbstractName name = .ok a) ↔ name.length ≤ 107 := by
  constructor
  · rintro ⟨a, ha⟩
    rw [fromAbstractName] at ha
    split at ha
    case isTrue => cases ha
    case isFalse hlength => exact Nat.le_of_lt_succ (Nat.not_lt.mp hlength)
  · intro hlength
    exact ⟨_, fromAbstractName_eq (Nat.lt_succ_of_le hlength)⟩

/-- The bytes behind the `sockaddr_un` are zeros. -/
def Plain (a : UnixAddr) : Prop :=
  a.inner.storage.bytes.drop sockaddrUnSize = List.replicate (storageSize - sockaddrUnSize) 0

theorem plain_write {data : List UInt8} (h : data.length ≤ sockaddrUnSize)
    (hfits : 0 + data.length ≤ storageSize) (len : ℕ) :
    Plain ⟨⟨Storage.zeroed.write 0 data hfits, len⟩⟩ := by
  change (Storage.zeroed.write 0 data hfits).bytes.drop sockaddrUnSize = _
  rw [Storage.bytes_write_zeroed, List.drop_append, List.drop_eq_nil_of_le h, List.nil_append,
    List.drop_replicate]
  congr 1
  omega

theorem plain_sockAddr (sender : Sender) : Plain ⟨sender.sockAddr⟩ := by
  cases sender with
  | unbound => exact plain_write (Nat.zero_le _) _ _
  | unnamed => exact plain_write (by decide) _ _
  | pathname path hne hnul hlength =>
    have hplain : Plain ⟨⟨Storage.zeroed.write 0 (afUnix ++ path) (fits_of_le hlength), 0⟩⟩ := by
      apply plain_write
      rw [List.length_append]
      exact Nat.add_le_add_left hlength 2
    rw [Plain, storage_pathname]
    exact hplain
  | abstract name hlength =>
    apply plain_write
    rw [Sender.bytes, List.length_append]
    exact Nat.add_le_add_left hlength 2

theorem bytes_ofSocketAddr (s : SocketAddr) :
    (ofSocketAddr s).inner.storage.bytes =
      s.addr ++ List.replicate (storageSize - sockaddrUnSize) 0 := by
  have hfits : 0 + s.addr.length ≤ storageSize := by
    rw [s.length_addr]
    decide
  refine (Storage.bytes_write_zeroed s.addr hfits).trans ?_
  rw [s.length_addr]

theorem ofSocketAddr_toSocketAddr {a : UnixAddr} (h : Plain a) :
    ofSocketAddr a.toSocketAddr = a := by
  refine UnixAddr.ext (SockAddr.ext (Storage.ext ?_) rfl)
  rw [bytes_ofSocketAddr, ← h]
  exact List.take_append_drop ..

theorem toSocketAddr_ofSocketAddr (s : SocketAddr) : (ofSocketAddr s).toSocketAddr = s := by
  refine SocketAddr.ext ?_ rfl
  change (ofSocketAddr s).inner.storage.bytes.take sockaddrUnSize = s.addr
  rw [bytes_ofSocketAddr, ← s.length_addr, List.take_left]

theorem address_ofSocketAddr (checks : Bool) (a : UnixAddr) :
    (ofSocketAddr a.toSocketAddr).address checks = a.address checks := by
  have hpath : (ofSocketAddr a.toSocketAddr).inner.storage.sunPath = a.inner.storage.sunPath := by
    have haddr : a.toSocketAddr.addr = a.inner.storage.bytes.take sockaddrUnSize := rfl
    have hsize : sockaddrUnSize - sunPathOffset = sunPathLen := rfl
    rw [Storage.sunPath, Storage.sunPath, bytes_ofSocketAddr, List.drop_append_of_le_length,
      List.take_append_of_le_length, haddr, List.drop_take, hsize, List.take_take, Nat.min_self]
    · have hlen : (a.toSocketAddr.addr.drop sunPathOffset).length = sunPathLen := by
        rw [List.length_drop, a.toSocketAddr.length_addr, hsize]
      exact Nat.le_of_eq hlen.symm
    · rw [a.toSocketAddr.length_addr]
      decide
  rw [address, address, hpath]
  rfl

end UnixAddr

/-! ### Round trips -/

/-- A kind and the bytes that an address is made from. -/
inductive Source where
  | pathname (path : List UInt8)
  | abstract (name : List UInt8)
  deriving DecidableEq

namespace Source

def toAddr : Source → Except InvalidInput UnixAddr
  | pathname path => UnixAddr.fromPathname path
  | abstract name => UnixAddr.fromAbstractName name

def kind : Source → AddressKind
  | pathname path => if path = [] then .unnamed else .pathname path
  | abstract name => .abstract name

theorem kind_injective : Function.Injective kind := by
  intro x y h
  cases x with
  | pathname path =>
    cases y with
    | pathname path' =>
      simp only [kind] at h
      split at h <;> split at h <;> simp_all
    | abstract name =>
      simp only [kind] at h
      split at h <;> cases h
  | abstract name =>
    cases y with
    | pathname path =>
      simp only [kind] at h
      split at h <;> cases h
    | abstract name' =>
      obtain rfl := AddressKind.abstract.inj h
      rfl

theorem exists_sender {x : Source} {a : UnixAddr} (h : x.toAddr = .ok a) :
    ∃ sender : Sender, sender ≠ .unbound ∧ a = ⟨sender.sockAddr⟩ ∧ sender.kind = x.kind := by
  cases x with
  | pathname path =>
    obtain ⟨hnul, hlength⟩ := UnixAddr.isOk_fromPathname_iff.mp ⟨a, h⟩
    by_cases hne : path = []
    · subst hne
      refine ⟨.unnamed, nofun, ?_, rfl⟩
      exact Except.ok.inj (h.symm.trans UnixAddr.fromPathname_nil)
    · have hmade := UnixAddr.fromPathname_eq hne hnul (Nat.lt_succ_of_le hlength)
      refine ⟨.pathname path hne hnul (Nat.le_succ_of_le hlength), nofun, ?_, (if_neg hne).symm⟩
      exact Except.ok.inj (h.symm.trans hmade)
  | abstract name =>
    have hlength := UnixAddr.isOk_fromAbstractName_iff.mp ⟨a, h⟩
    refine ⟨.abstract name (Nat.lt_succ_of_le hlength), nofun, ?_, rfl⟩
    exact Except.ok.inj (h.symm.trans (UnixAddr.fromAbstractName_eq _))

theorem address_of_toAddr {x : Source} {a : UnixAddr} (checks : Bool) (h : x.toAddr = .ok a) :
    a.address checks = .ok x.kind := by
  obtain ⟨sender, hbound, rfl, hkind⟩ := exists_sender h
  rw [address_sockAddr checks hbound, hkind]

theorem plain_of_toAddr {x : Source} {a : UnixAddr} (h : x.toAddr = .ok a) : a.Plain := by
  obtain ⟨sender, -, rfl, -⟩ := exists_sender h
  exact UnixAddr.plain_sockAddr sender

end Source

/-- **Round trips of `UnixAddr`.** -/
theorem unixAddr_round_trip (checks : Bool) :
    (∀ path, (∃ a, UnixAddr.fromPathname path = .ok a) ↔ 0 ∉ path ∧ path.length ≤ 107) ∧
    (∀ path a, UnixAddr.fromPathname path = .ok a →
      a.asPathname checks = .ok (if path = [] then none else some path) ∧
      a.isUnnamed checks = .ok (path = [])) ∧
    (∀ name, (∃ a, UnixAddr.fromAbstractName name = .ok a) ↔ name.length ≤ 107) ∧
    (∀ name a, UnixAddr.fromAbstractName name = .ok a →
      a.asAbstractName checks = .ok (some name)) ∧
    (∀ (x : Source) a, x.toAddr = .ok a → UnixAddr.ofSocketAddr a.toSocketAddr = a) ∧
    (∀ a : UnixAddr, (UnixAddr.ofSocketAddr a.toSocketAddr).address checks = a.address checks) ∧
    (∀ s : SocketAddr, (UnixAddr.ofSocketAddr s).toSocketAddr = s) ∧
    (∀ (x y : Source) a b, x.toAddr = .ok a → y.toAddr = .ok b → x ≠ y →
      a.address checks ≠ b.address checks) := by
  refine ⟨fun _ => UnixAddr.isOk_fromPathname_iff, ?_, fun _ => UnixAddr.isOk_fromAbstractName_iff,
    ?_, ?_, UnixAddr.address_ofSocketAddr checks, UnixAddr.toSocketAddr_ofSocketAddr, ?_⟩
  · intro path a ha
    have haddress := Source.address_of_toAddr (x := .pathname path) checks ha
    rw [UnixAddr.asPathname, UnixAddr.isUnnamed, haddress, Source.kind]
    by_cases hne : path = []
    · simp only [hne, if_true, decide_true]
      exact ⟨rfl, rfl⟩
    · simp only [hne, if_false, decide_false]
      exact ⟨rfl, rfl⟩
  · intro name a ha
    rw [UnixAddr.asAbstractName, Source.address_of_toAddr (x := .abstract name) checks ha]
    rfl
  · intro x a ha
    exact UnixAddr.ofSocketAddr_toSocketAddr (Source.plain_of_toAddr ha)
  · intro x y a b ha hb hne heq
    rw [Source.address_of_toAddr checks ha, Source.address_of_toAddr checks hb] at heq
    exact hne (Source.kind_injective (Except.ok.inj heq))

/-! ### The addresses of senders -/

theorem copyTo_zeroed (sender : Sender) :
    sender.copyTo sockAddrSize Storage.zeroed = sender.sockAddr.storage := by
  apply Storage.ext
  have hle : sender.bytes.length ≤ min sockAddrSize storageSize :=
    Nat.le_trans sender.length_bytes_le (by decide)
  rw [Sender.copyTo, Storage.bytes_write_zeroed, Sender.sockAddr, Storage.bytes_write_zeroed,
    List.take_of_length_le hle]

/-- Every operation gives what Linux has written. -/
theorem addr_eq (op : Operation) (sender : Sender) : op.addr sender = some ⟨sender.sockAddr⟩ := by
  have hstorage := copyTo_zeroed sender
  have hreceive : receiveFrom sender = sender.sockAddr := SockAddr.ext hstorage rfl
  cases op with
  | recvFrom | peekFrom => exact congrArg UnixAddr.fromSockAddr hreceive
  | accept =>
    have haccept : (acceptSyscall sender .empty).asSockAddr = sender.sockAddr :=
      SockAddr.ext hstorage rfl
    exact congrArg UnixAddr.fromSockAddr haccept

/-- The address can be read, by whichever function, and says what the sender is. -/
structure Readable (fmtPath : List UInt8 → String) (checks : Bool) (a : UnixAddr)
    (sender : Sender) : Prop where
  address : a.address checks = .ok sender.kind
  asPathname : ∃ path, a.asPathname checks = .ok path
  isUnnamed : a.isUnnamed checks = .ok (sender.kind = .unnamed)
  asAbstractName : ∃ name, a.asAbstractName checks = .ok name
  fmt : ∃ text, a.fmt fmtPath checks = .ok text

theorem readable_of_address {fmtPath : List UInt8 → String} {checks : Bool} {a : UnixAddr}
    {sender : Sender} (h : a.address checks = .ok sender.kind) :
    Readable fmtPath checks a sender := by
  refine ⟨h, ?_, ?_, ?_, ?_⟩
  · rw [UnixAddr.asPathname, h]
    exact ⟨_, rfl⟩
  · rw [UnixAddr.isUnnamed, h]
    cases sender <;> rfl
  · rw [UnixAddr.asAbstractName, h]
    exact ⟨_, rfl⟩
  · rw [UnixAddr.fmt, h]
    exact ⟨_, rfl⟩

theorem Sender.length_bytes (sender : Sender) :
    sender = .unbound ∧ sender.bytes.length = 0 ∨
      sender ≠ .unbound ∧ (sender.bytes.length = 2 ∨
        3 ≤ sender.bytes.length ∧ sender.bytes.length ≤ 111) := by
  have hle := sender.length_bytes_le
  cases sender with
  | unbound => exact .inl ⟨rfl, rfl⟩
  | unnamed => exact .inr ⟨nofun, .inl rfl⟩
  | pathname path hne =>
    refine .inr ⟨nofun, .inr ⟨?_, hle⟩⟩
    have hpos := List.length_pos_iff.mpr hne
    simp only [bytes, afUnix, List.length_append, List.length_cons, List.length_nil]
    omega
  | abstract name =>
    refine .inr ⟨nofun, .inr ⟨?_, hle⟩⟩
    simp only [bytes, afUnix, List.length_append, List.length_cons, List.length_nil]
    omega

/-- **Which addresses of senders can be read**: those whose length is not 0. -/
theorem readable_iff (fmtPath : List UInt8 → String) (checks : Bool) (op : Operation)
    (sender : Sender) :
    ∃ a, op.addr sender = some a ∧
      (a.inner.len = 0 ∨ a.inner.len = 2 ∨ 3 ≤ a.inner.len ∧ a.inner.len ≤ 111) ∧
      (Readable fmtPath checks a sender ↔ a.inner.len ≠ 0) := by
  refine ⟨_, addr_eq op sender, ?_⟩
  change (sender.bytes.length = 0 ∨ _) ∧ (_ ↔ sender.bytes.length ≠ 0)
  obtain ⟨rfl, hzero⟩ | ⟨hbound, hlength⟩ := sender.length_bytes
  · refine ⟨.inl hzero, iff_of_false ?_ fun hne => hne hzero⟩
    intro hreadable
    have haddress := hreadable.address
    rw [address_unbound] at haddress
    cases haddress
  · refine ⟨.inr hlength, iff_of_true ?_ (by omega)⟩
    exact readable_of_address (address_sockAddr checks hbound)

/-- The address of the sender of a datagram that was never bound can not be read, whether the build
checks for an overflow or not. -/
theorem not_readable_unbound :
    ∃ a, recvFrom .unbound = some a ∧ a.inner.len = 0 ∧
      a.isUnnamed true = .error .underflow ∧ a.isUnnamed false = .error .outOfRange :=
  ⟨_, rfl, rfl, rfl, rfl⟩

end Orengine.Net.Unix
