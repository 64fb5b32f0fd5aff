import Mathlib.Data.BitVec
import Mathlib.Tactic.Basic

/-!
# `TaskData`: a future pointer tagged with the locality

On targets with 64-bit pointers a `*mut dyn Future<Output = ()>` is two words, the address of the
future and the address of its vtable, and is cast to an `i128`.  `TaskData` keeps the locality of
the task in the top bit of this image, which is the top bit of the vtable's address.

Both parts can be read back as long as the pointer's own top bit is clear, and `set_locality`
replaces the one and keeps the other.  So after any calls of it the pointer is the original one and
the locality the last one (`tagged_ptr_reads_back`).
-/

namespace Orengine.Runtime

/-! ### Locality -/

/-- `IS_LOCAL_SHIFT`: the position of the task-locality flag. -/
def isLocalShift : ℕ := 127

/-- `IS_LOCAL_MASK = 1 << IS_LOCAL_SHIFT`. -/
def isLocalMask : BitVec 128 := 1#128 <<< isLocalShift

/-- `TASK_MASK = !(1 << IS_LOCAL_SHIFT)`. -/
def taskMask : BitVec 128 := ~~~(1#128 <<< isLocalShift)

/-- `Locality`: its `value` is made by `Locality::local` or `Locality::shared` only. -/
structure Locality where
  /-- The flag, already at its place in the tagged pointer. -/
  value : BitVec 128
  /-- There are no other localities than `local` and `shared`. -/
  valid : value = isLocalMask ∨ value = 0
  deriving DecidableEq

namespace Locality

def «local» : Locality := ⟨isLocalMask, Or.inl rfl⟩

def shared : Locality := ⟨0, Or.inr rfl⟩

def isLocal (l : Locality) : Bool := l.value != 0

end Locality

/-! ### Fat pointers and `TaskData` -/

/-- A `*mut dyn Future<Output = ()>`. -/
structure FuturePtr where
  /-- The address of the future. -/
  data : BitVec 64
  /-- The address of the vtable of the future's type. -/
  vtable : BitVec 64
  deriving DecidableEq

namespace FuturePtr

/-- The `i128` that the pointer is transmuted to: the vtable's address is the high word. -/
def toBits (p : FuturePtr) : BitVec 128 := p.vtable ++ p.data

/-- The pointer that an `i128` is transmuted to. -/
def ofBits (b : BitVec 128) : FuturePtr := ⟨b.extractLsb' 0 64, b.extractLsb' 64 64⟩

end FuturePtr

/-- `TaskData` on a target with 64-bit pointers. -/
structure TaskData where
  /-- The image of the future pointer with the locality in its top bit. -/
  futureTaggedPtr : BitVec 128
  deriving DecidableEq

namespace TaskData

def new (future : FuturePtr) (locality : Locality) : TaskData :=
  ⟨future.toBits ||| locality.value⟩

def futurePtr (d : TaskData) : FuturePtr := FuturePtr.ofBits (d.futureTaggedPtr &&& taskMask)

def isLocal (d : TaskData) : Bool := (d.futureTaggedPtr &&& isLocalMask) != 0

def setLocality (d : TaskData) (locality : Locality) : TaskData :=
  ⟨(d.futureTaggedPtr &&& ~~~isLocalMask) ||| locality.value⟩

end TaskData

/-! ### Reading the parts back -/

theorem FuturePtr.getLsbD_toBits (p : FuturePtr) (i : ℕ) :
    p.toBits.getLsbD i = if i < 64 then p.data.getLsbD i else p.vtable.getLsbD (i - 64) :=
  BitVec.getLsbD_append

theorem FuturePtr.ofBits_toBits (p : FuturePtr) : FuturePtr.ofBits p.toBits = p := by
  cases p with
  | mk data vtable =>
    simp only [FuturePtr.ofBits, FuturePtr.mk.injEq]
    constructor
    · apply BitVec.eq_of_getLsbD_eq
      intro i hi
      rw [BitVec.getLsbD_extractLsb', FuturePtr.getLsbD_toBits]
      simp [hi]
    · apply BitVec.eq_of_getLsbD_eq
      intro i hi
      rw [BitVec.getLsbD_extractLsb', FuturePtr.getLsbD_toBits]
      simp [hi]

theorem getLsbD_isLocalMask (i : ℕ) : isLocalMask.getLsbD i = decide (i = 127) := by
  unfold isLocalMask isLocalShift
  rw [← BitVec.twoPow_eq, BitVec.getLsbD_twoPow]
  simp [eq_comm]

theorem getLsbD_taskMask (i : ℕ) : taskMask.getLsbD i = decide (i < 127) := by
  unfold taskMask
  rw [BitVec.getLsbD_not, ← isLocalMask.eq_def, getLsbD_isLocalMask]
  by_cases h : i < 127
  · simp only [h, decide_true, Bool.and_eq_true, decide_eq_true_eq, Bool.not_eq_true',
      decide_eq_false_iff_not]
    omega
  · simp only [h, decide_false, Bool.and_eq_false_iff, decide_eq_false_iff_not,
      Bool.not_eq_false', decide_eq_true_eq]
    omega

/-- A locality is nothing but the flag at its place. -/
theorem Locality.getLsbD_value (l : Locality) (i : ℕ) :
    l.value.getLsbD i = (decide (i = 127) && l.isLocal) := by
  unfold Locality.isLocal
  rcases l.valid with h | h
  · rw [h, getLsbD_isLocalMask, show (isLocalMask != 0) = true from rfl, Bool.and_true]
  · rw [h]
    simp

namespace TaskData

theorem isLocal_eq_getLsbD (d : TaskData) : d.isLocal = d.futureTaggedPtr.getLsbD 127 := by
  have hmask : d.futureTaggedPtr &&& isLocalMask
      = if d.futureTaggedPtr.getLsbD 127 then isLocalMask else 0 := by
    apply BitVec.eq_of_getLsbD_eq
    intro i _
    rw [BitVec.getLsbD_and, getLsbD_isLocalMask]
    by_cases hi : i = 127
    · subst hi
      cases hb : d.futureTaggedPtr.getLsbD 127 <;> simp [getLsbD_isLocalMask]
    · cases hb : d.futureTaggedPtr.getLsbD 127 <;> simp [hi, getLsbD_isLocalMask]
  unfold isLocal
  rw [hmask]
  cases hb : d.futureTaggedPtr.getLsbD 127 <;> simp [isLocalMask, isLocalShift]

theorem isLocal_new (p : FuturePtr) (l : Locality) (hp : p.vtable.msb = false) :
    (new p l).isLocal = l.isLocal := by
  have htop : p.vtable[63] = false := hp
  rw [isLocal_eq_getLsbD, new, BitVec.getLsbD_or, FuturePtr.getLsbD_toBits, l.getLsbD_value]
  simp [htop]

theorem futurePtr_new (p : FuturePtr) (l : Locality) (hp : p.vtable.msb = false) :
    (new p l).futurePtr = p := by
  have htop : p.vtable[63] = false := hp
  have hbits : (new p l).futureTaggedPtr &&& taskMask = p.toBits := by
    apply BitVec.eq_of_getLsbD_eq
    intro i hi
    rw [BitVec.getLsbD_and, new, BitVec.getLsbD_or, l.getLsbD_value, getLsbD_taskMask]
    by_cases h127 : i = 127
    · -- the flag's own place: masked out, and clear in the pointer
      subst h127
      rw [FuturePtr.getLsbD_toBits]
      simp [htop]
    · have hlt : i < 127 := by omega
      simp [h127, hlt]
  rw [futurePtr, hbits, FuturePtr.ofBits_toBits]

/-- `set_locality` replaces the locality, whatever the top bit was before. -/
theorem isLocal_setLocality (d : TaskData) (l : Locality) :
    (d.setLocality l).isLocal = l.isLocal := by
  rw [isLocal_eq_getLsbD, setLocality, BitVec.getLsbD_or, BitVec.getLsbD_and, BitVec.getLsbD_not,
    getLsbD_isLocalMask, l.getLsbD_value]
  simp

theorem futurePtr_setLocality (d : TaskData) (l : Locality) :
    (d.setLocality l).futurePtr = d.futurePtr := by
  have hbits : (d.setLocality l).futureTaggedPtr &&& taskMask = d.futureTaggedPtr &&& taskMask := by
    apply BitVec.eq_of_getLsbD_eq
    intro i hi
    rw [setLocality, BitVec.getLsbD_and, BitVec.getLsbD_and, BitVec.getLsbD_or, BitVec.getLsbD_and,
      BitVec.getLsbD_not, getLsbD_isLocalMask, l.getLsbD_value, getLsbD_taskMask]
    by_cases h127 : i = 127
    · subst h127
      simp
    · simp [h127, hi]
  rw [futurePtr, hbits, ← futurePtr]

/-! ### Sequences of `set_locality` -/

theorem futurePtr_foldl (d : TaskData) (ls : List Locality) :
    (ls.foldl setLocality d).futurePtr = d.futurePtr := by
  induction ls generalizing d with
  | nil => rfl
  | cons l ls ih => rw [List.foldl_cons, ih, futurePtr_setLocality]

theorem isLocal_foldl {d : TaskData} {l : Locality} (hd : d.isLocal = l.isLocal)
    (ls : List Locality) :
    (ls.foldl setLocality d).isLocal = ((l :: ls).getLast (List.cons_ne_nil l ls)).isLocal := by
  induction ls generalizing d l with
  | nil => exact hd
  | cons l' ls ih =>
    rw [List.foldl_cons, List.getLast_cons (List.cons_ne_nil l' ls)]
    exact ih (d.isLocal_setLocality l')

/-- **Both parts are read back.** For every pointer whose image has a clear top bit, after `new` and
any sequence of `set_locality` the pointer is the original one, bit for bit, and the locality is the
last one that was set. -/
theorem tagged_ptr_reads_back (p : FuturePtr) (hp : p.toBits.msb = false) (l : Locality)
    (ls : List Locality) :
    (ls.foldl setLocality (new p l)).futurePtr = p ∧
      (ls.foldl setLocality (new p l)).isLocal =
        ((l :: ls).getLast (List.cons_ne_nil l ls)).isLocal := by
  have hvtable : p.vtable.msb = false := by
    rwa [FuturePtr.toBits, BitVec.msb_append, if_neg (by decide)] at hp
  constructor
  · rw [futurePtr_foldl, futurePtr_new p l hvtable]
  · exact isLocal_foldl (isLocal_new p l hvtable) ls

/-- A pointer all of whose bits but the top one are set becomes local, shared and local again. -/
theorem tagged_ptr_reads_back_ones :
    ([Locality.shared, .local].foldl setLocality
      (new ⟨BitVec.allOnes 64, (BitVec.allOnes 64) >>> 1⟩ .local)).futurePtr =
        ⟨BitVec.allOnes 64, (BitVec.allOnes 64) >>> 1⟩ ∧
      ([Locality.shared, .local].foldl setLocality
        (new ⟨BitVec.allOnes 64, (BitVec.allOnes 64) >>> 1⟩ .local)).isLocal = true :=
  tagged_ptr_reads_back ⟨BitVec.allOnes 64, (BitVec.allOnes 64) >>> 1⟩ (by decide) .local
    [.shared, .local]

end TaskData

end Orengine.Runtime
