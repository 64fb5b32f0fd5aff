import Orengine.Io.Buf.Buffer
import Orengine.Lib.Reach
import Mathlib.Data.Set.Insert

/-!
# `Buffer` is a growable byte vector

`buffer_is_byteVec` compares each buffer with a `ByteVec`, which does not know where the buffer
comes from.

The proof is about who owns which block.  `Sound m F` says that the buffers of the pool own
different blocks, none of which is in `F`, the blocks of the buffers in use.  An operation takes
blocks from the pool or the heap and gives blocks back, but never touches those of the others
(`Frame`).
-/

namespace Orengine.Io.Buf

open Lib

/-! ### Lengths and capacities -/

namespace Buffer

@[simp] theorem setLenUnchecked_ptr (b : Buffer) (n : ℕ) : (b.setLenUnchecked n).ptr = b.ptr := by
  cases b <;> rfl

@[simp] theorem setLenUnchecked_capacity (b : Buffer) (n : ℕ) :
    (b.setLenUnchecked n).capacity = b.capacity := by
  cases b <;> rfl

@[simp] theorem setLenUnchecked_isFixed (b : Buffer) (n : ℕ) :
    (b.setLenUnchecked n).isFixed = b.isFixed := by
  cases b <;> rfl

theorem setLenUnchecked_len (b : Buffer) {n : ℕ} (h : n < UInt32.size) :
    (b.setLenUnchecked n).len = n := by
  cases b with
  | fixed f => rfl
  | nonFixed v => exact toU32_of_lt h

end Buffer

/-! ### Who owns which block -/

def BufPool.buffers (pool : BufPool) : List Buffer :=
  pool.poolOfFixedBuffers ++ pool.poolOfNonFixedBuffers

/-- The buffer has a block of its capacity. -/
structure Allocated (m : Memory) (b : Buffer) : Prop where
  len_le : b.len ≤ b.capacity
  capacity_lt : b.capacity < UInt32.size
  fits : (m.heap.block b.ptr).length = b.capacity
  below : b.ptr < m.heap.next
  fixed_capacity : b.isFixed = true → b.capacity = m.pool.defaultBufferCap

/-- The pool owns different blocks, none of them in `F`. -/
structure Sound (m : Memory) (F : Set ℕ) : Prop where
  default_pos : 0 < m.pool.defaultBufferCap
  default_lt : m.pool.defaultBufferCap < UInt32.size
  nodup : (m.pool.buffers.map Buffer.ptr).Nodup
  allocated : ∀ b ∈ m.pool.buffers, Allocated m b
  default : ∀ b ∈ m.pool.buffers, b.capacity = m.pool.defaultBufferCap
  outside : ∀ b ∈ m.pool.buffers, b.ptr ∉ F
  below : ∀ p ∈ F, p < m.heap.next

/-- The code owns the buffer `b`, next to the blocks `F` of its other buffers. -/
structure Owns (m : Memory) (b : Buffer) (F : Set ℕ) : Prop where
  sound : Sound m (insert b.ptr F)
  allocated : Allocated m b
  outside : b.ptr ∉ F

/-- The blocks `F` and the default capacity are the same before and after. -/
structure Frame (m m' : Memory) (F : Set ℕ) : Prop where
  default : m'.pool.defaultBufferCap = m.pool.defaultBufferCap
  next_le : m.heap.next ≤ m'.heap.next
  block : ∀ p ∈ F, m'.heap.block p = m.heap.block p

variable {m m' : Memory} {b : Buffer} {F : Set ℕ}

namespace Frame

theorem refl (m : Memory) (F : Set ℕ) : Frame m m F := ⟨rfl, Nat.le_refl _, fun _ _ => rfl⟩

theorem trans {m'' : Memory} (h : Frame m m' F) (h' : Frame m' m'' F) : Frame m m'' F :=
  ⟨h'.default.trans h.default, Nat.le_trans h.next_le h'.next_le,
    fun p hp => (h'.block p hp).trans (h.block p hp)⟩

theorem mono {G : Set ℕ} (h : Frame m m' F) (hGF : G ⊆ F) : Frame m m' G :=
  ⟨h.default, h.next_le, fun p hp => h.block p (hGF hp)⟩

theorem contents (h : Frame m m' F) (hb : b.ptr ∈ F) : m'.contents b = m.contents b := by
  rw [Memory.contents, Memory.contents, h.block _ hb]

theorem allocated (h : Frame m m' F) (hb : b.ptr ∈ F) (ha : Allocated m b) : Allocated m' b where
  len_le := ha.len_le
  capacity_lt := ha.capacity_lt
  fits := (congrArg List.length (h.block _ hb)).trans ha.fits
  below := Nat.lt_of_lt_of_le ha.below h.next_le
  fixed_capacity hfixed := (ha.fixed_capacity hfixed).trans h.default.symm

end Frame

theorem Allocated.length_contents (h : Allocated m b) : (m.contents b).length = b.len := by
  rw [Memory.contents, List.length_take_of_le]
  rw [h.fits]
  exact h.len_le

variable {n : ℕ}

theorem Allocated.setLenUnchecked (h : Allocated m b) (hn : n ≤ b.capacity) :
    Allocated m (b.setLenUnchecked n) where
  len_le := by
    rw [b.setLenUnchecked_len (Nat.lt_of_le_of_lt hn h.capacity_lt), b.setLenUnchecked_capacity]
    exact hn
  capacity_lt := by simpa using h.capacity_lt
  fits := by simpa using h.fits
  below := by simpa using h.below
  fixed_capacity := by simpa using h.fixed_capacity

theorem Owns.setLenUnchecked (h : Owns m b F) (hn : n ≤ b.capacity) :
    Owns m (b.setLenUnchecked n) F where
  sound := by simpa using h.sound
  allocated := h.allocated.setLenUnchecked hn
  outside := by simpa using h.outside

/-! ### The pool and the heap -/

theorem newBuffer_spec (uninit : ℕ → ℕ → UInt8) (h : Sound m F) (hpos : 0 < n)
    (hn : n < UInt32.size) :
    ∃ m' b, m.newBuffer uninit n = some (m', b) ∧ Owns m' b F ∧ b.capacity = n ∧
      Frame m m' F := by
  refine ⟨_, _, if_neg (Nat.ne_of_gt hpos), ⟨⟨h.default_pos, h.default_lt, h.nodup, ?_, h.default,
    ?_, ?_⟩, ⟨?_, ?_, ?_, ?_, ?_⟩, ?_⟩, toU32_of_lt hn, ⟨rfl, Nat.le_succ _, ?_⟩⟩
  · intro c hc
    have ha := h.allocated c hc
    exact ⟨ha.len_le, ha.capacity_lt,
      (congrArg List.length (m.heap.alloc_block_of_lt _ ha.below)).trans ha.fits,
      Nat.lt_succ_of_lt ha.below, ha.fixed_capacity⟩
  · intro c hc hmem
    rcases Set.mem_insert_iff.mp hmem with heq | hF
    · exact absurd heq (Nat.ne_of_lt (h.allocated c hc).below)
    · exact h.outside c hc hF
  · intro p hp
    rcases Set.mem_insert_iff.mp hp with rfl | hF
    · exact Nat.lt_succ_self _
    · exact Nat.lt_succ_of_lt (h.below p hF)
  · exact Nat.zero_le _
  · exact toU32_lt _
  · rw [Buffer.ptr, Heap.alloc_block_self, List.length_map, List.length_range]
    exact (toU32_of_lt hn).symm
  · exact Nat.lt_succ_self _
  · intro hfixed
    cases hfixed
  · intro hF
    exact Nat.lt_irrefl _ (h.below _ hF)
  · intro p hp
    exact m.heap.alloc_block_of_lt _ (h.below p hp)

theorem Sound.pop (h : Sound m F) {pool : BufPool} (hdefault : pool.defaultBufferCap =
    m.pool.defaultBufferCap) (hperm : m.pool.buffers.Perm (b :: pool.buffers)) :
    Owns { m with pool := pool } b F ∧ b.capacity = m.pool.defaultBufferCap ∧
      Frame m { m with pool := pool } F := by
  have hmem : ∀ c ∈ b :: pool.buffers, c ∈ m.pool.buffers := fun c hc => hperm.mem_iff.mpr hc
  have hb := hmem b (List.mem_cons_self ..)
  have hnodup := (hperm.map Buffer.ptr).nodup_iff.mp h.nodup
  rw [List.map_cons, List.nodup_cons] at hnodup
  have hkeep (c : Buffer) (hc : Allocated m c) : Allocated { m with pool := pool } c :=
    ⟨hc.len_le, hc.capacity_lt, hc.fits, hc.below,
      fun hfixed => (hc.fixed_capacity hfixed).trans hdefault.symm⟩
  refine ⟨⟨⟨hdefault ▸ h.default_pos, hdefault ▸ h.default_lt, hnodup.2, ?_, ?_, ?_, ?_⟩,
    hkeep b (h.allocated b hb), h.outside b hb⟩, h.default b hb, ⟨hdefault, Nat.le_refl _,
    fun _ _ => rfl⟩⟩
  · intro c hc
    exact hkeep c (h.allocated c (hmem c (List.mem_cons_of_mem _ hc)))
  · intro c hc
    exact (h.default c (hmem c (List.mem_cons_of_mem _ hc))).trans hdefault.symm
  · intro c hc hmemF
    rcases Set.mem_insert_iff.mp hmemF with heq | hF
    · exact hnodup.1 (heq ▸ List.mem_map_of_mem hc)
    · exact h.outside c (hmem c (List.mem_cons_of_mem _ hc)) hF
  · intro p hp
    rcases Set.mem_insert_iff.mp hp with rfl | hF
    · exact (h.allocated b hb).below
    · exact h.below p hF

/-- The pool always gives a buffer of the default capacity that nobody else has. -/
theorem getBufferWithAnyLen_spec (uninit : ℕ → ℕ → UInt8) (h : Sound m F) :
    ∃ m' b, m.getBufferWithAnyLen uninit = some (m', b) ∧ Owns m' b F ∧
      b.capacity = m.pool.defaultBufferCap ∧ Frame m m' F := by
  unfold Memory.getBufferWithAnyLen
  split
  case h_1 b rest hfixed =>
    refine ⟨_, b, rfl, h.pop rfl ?_⟩
    simp [BufPool.buffers, hfixed]
  case h_2 hfixed =>
    split
    case h_1 b rest hnon =>
      refine ⟨_, b, rfl, h.pop rfl ?_⟩
      simp [BufPool.buffers, hfixed, hnon]
    case h_2 => exact newBuffer_spec uninit h h.default_pos h.default_lt

theorem get_spec (uninit : ℕ → ℕ → UInt8) (h : Sound m F) :
    ∃ m' b, m.get uninit = some (m', b) ∧ Owns m' b F ∧ b.len = 0 ∧
      b.capacity = m.pool.defaultBufferCap ∧ Frame m m' F := by
  obtain ⟨m', b, hget, howns, hcap, hframe⟩ := getBufferWithAnyLen_spec uninit h
  refine ⟨m', b.clear, ?_, howns.setLenUnchecked (Nat.zero_le _),
    b.setLenUnchecked_len (by decide), (b.setLenUnchecked_capacity 0).trans hcap, hframe⟩
  rw [Memory.get, hget, Option.map_some]

theorem getFull_spec (uninit : ℕ → ℕ → UInt8) (h : Sound m F) :
    ∃ m' b, m.getFull uninit = some (m', b) ∧ Owns m' b F ∧
      b.len = m.pool.defaultBufferCap ∧ b.capacity = m.pool.defaultBufferCap ∧ Frame m m' F := by
  obtain ⟨m', b, hget, howns, hcap, hframe⟩ := getBufferWithAnyLen_spec uninit h
  refine ⟨m', b.setLenToCapacity, ?_, howns.setLenUnchecked (Nat.le_refl _),
    (b.setLenUnchecked_len howns.allocated.capacity_lt).trans hcap,
    (b.setLenUnchecked_capacity _).trans hcap, hframe⟩
  rw [Memory.getFull, hget, Option.map_some]

theorem Owns.push (h : Owns m b F) (hcap : b.capacity = m.pool.defaultBufferCap) {pool : BufPool}
    (hdefault : pool.defaultBufferCap = m.pool.defaultBufferCap)
    (hperm : pool.buffers.Perm (b :: m.pool.buffers)) : Sound { m with pool := pool } F := by
  have hkeep (c : Buffer) (hc : Allocated m c) : Allocated { m with pool := pool } c :=
    ⟨hc.len_le, hc.capacity_lt, hc.fits, hc.below,
      fun hfixed => (hc.fixed_capacity hfixed).trans hdefault.symm⟩
  have hall {P : Buffer → Prop} (hb : P b) (hpool : ∀ c ∈ m.pool.buffers, P c) :
      ∀ c ∈ pool.buffers, P c := by
    intro c hc
    rcases List.mem_cons.mp (hperm.mem_iff.mp hc) with rfl | hc
    · exact hb
    · exact hpool c hc
  refine ⟨hdefault ▸ h.sound.default_pos, hdefault ▸ h.sound.default_lt, ?_,
    hall (hkeep b h.allocated) fun c hc => hkeep c (h.sound.allocated c hc),
    hall (hcap.trans hdefault.symm) fun c hc => (h.sound.default c hc).trans hdefault.symm,
    hall h.outside fun c hc hF => h.sound.outside c hc (Set.mem_insert_of_mem _ hF),
    fun p hp => h.sound.below p (Set.mem_insert_of_mem _ hp)⟩
  rw [(hperm.map Buffer.ptr).nodup_iff, List.map_cons, List.nodup_cons]
  refine ⟨fun hmem => ?_, h.sound.nodup⟩
  obtain ⟨c, hc, hptr⟩ := List.mem_map.mp hmem
  exact h.sound.outside c hc (hptr ▸ Set.mem_insert _ _)

theorem put_spec (h : Owns m b F) : Sound (m.put b) F ∧ Frame m (m.put b) F := by
  unfold Memory.put
  split_ifs with hfixed hcap
  · refine ⟨h.push (h.allocated.fixed_capacity hfixed) rfl ?_, ⟨rfl, Nat.le_refl _, fun _ _ => rfl⟩⟩
    simp [BufPool.buffers]
  · refine ⟨h.push hcap rfl ?_, ⟨rfl, Nat.le_refl _, fun _ _ => rfl⟩⟩
    simp [BufPool.buffers]
  · have hne : ∀ c ∈ m.pool.buffers, c.ptr ≠ b.ptr := fun c hc heq =>
      h.sound.outside c hc (heq ▸ Set.mem_insert _ _)
    refine ⟨⟨h.sound.default_pos, h.sound.default_lt, h.sound.nodup, ?_, h.sound.default,
      fun c hc hF => h.sound.outside c hc (Set.mem_insert_of_mem _ hF),
      fun p hp => h.sound.below p (Set.mem_insert_of_mem _ hp)⟩, rfl, Nat.le_refl _, ?_⟩
    · intro c hc
      have ha := h.sound.allocated c hc
      exact ⟨ha.len_le, ha.capacity_lt,
        (congrArg List.length (m.heap.free_block_of_ne (hne c hc))).trans ha.fits, ha.below,
        ha.fixed_capacity⟩
    · intro p hp
      refine m.heap.free_block_of_ne ?_
      rintro rfl
      exact h.outside hp

/-! ### Writing to a buffer -/

theorem Owns.write (h : Owns m b F) {i : ℕ} {xs : List UInt8} (hle : i + xs.length ≤ b.capacity) :
    ∃ heap, m.heap.write b.ptr i xs = some heap ∧ Owns { m with heap := heap } b F ∧
      Frame m { m with heap := heap } F ∧
      (heap.block b.ptr).take (i + xs.length) = (m.heap.block b.ptr).take i ++ xs := by
  obtain ⟨heap, hwrite, hnext, hothers, hlength, htake⟩ :=
    Heap.exists_write (h.allocated.fits ▸ hle)
  have hne {p : ℕ} (hp : p ∈ F) : p ≠ b.ptr := fun heq => h.outside (heq ▸ hp)
  refine ⟨heap, hwrite, ⟨⟨h.sound.default_pos, h.sound.default_lt, h.sound.nodup, ?_,
    h.sound.default, h.sound.outside, fun p hp => hnext ▸ h.sound.below p hp⟩, ?_, h.outside⟩,
    ⟨rfl, Nat.le_of_eq hnext.symm, fun p hp => hothers p (hne hp)⟩, htake⟩
  · intro c hc
    have ha := h.sound.allocated c hc
    have hcne : c.ptr ≠ b.ptr := fun heq => h.sound.outside c hc (heq ▸ Set.mem_insert _ _)
    exact ⟨ha.len_le, ha.capacity_lt, (congrArg List.length (hothers _ hcne)).trans ha.fits,
      hnext ▸ ha.below, ha.fixed_capacity⟩
  · have ha := h.allocated
    exact ⟨ha.len_le, ha.capacity_lt, hlength.trans ha.fits, hnext ▸ ha.below, ha.fixed_capacity⟩

/-- The new buffer of `resize`: from the pool if it has the default capacity, and else a new
one. -/
theorem newBuf_spec (uninit : ℕ → ℕ → UInt8) (h : Sound m F) (hpos : 0 < n) (hn : n < UInt32.size) :
    ∃ m' b, m.newBuf uninit n = some (m', b) ∧ Owns m' b F ∧ b.capacity = n ∧ Frame m m' F := by
  unfold Memory.newBuf
  split_ifs with hdefault
  · obtain ⟨m', b, hget, howns, -, hcap, hframe⟩ := get_spec uninit h
    exact ⟨m', b, hget, howns, hcap.trans hdefault, hframe⟩
  · exact newBuffer_spec uninit h hpos hn

/-- **`resize` keeps the contents** and makes the capacity equal to the new size. -/
theorem resize_spec (uninit : ℕ → ℕ → UInt8) (h : Owns m b F) (hpos : 0 < n)
    (hn : n < UInt32.size) (hlen : b.len ≤ n) :
    ∃ m' b', m.resize uninit b n = some (m', b') ∧ Owns m' b' F ∧ b'.len = b.len ∧
      b'.capacity = n ∧ m'.contents b' = m.contents b ∧ Frame m m' F := by
  -- The old block is one of those that the new buffer must not touch.
  obtain ⟨m₁, new, hnew, hown, hcap, hframe⟩ := newBuf_spec uninit h.sound hpos hn
  have hold : b.ptr ∈ insert b.ptr F := Set.mem_insert _ _
  have hread : m₁.heap.read b.ptr b.len = some (m.contents b) := by
    rw [Heap.read_eq_some, hframe.block _ hold]
    · rfl
    · rw [hframe.block _ hold, h.allocated.fits]
      exact h.allocated.len_le
  have hlength : (m.contents b).length = b.len := h.allocated.length_contents
  have hlen' : b.len ≤ new.capacity := hcap ▸ hlen
  have hfits : 0 + (m.contents b).length ≤ (new.setLenUnchecked b.len).capacity := by
    simp [hlength, hlen']
  obtain ⟨heap, hwrite, hown₂, hframe₂, htake⟩ := (hown.setLenUnchecked hlen').write hfits
  -- Now the old buffer goes back, with the new block among those in use.
  have hframe₃ := (hframe.trans hframe₂)
  have hback : Owns { m₁ with heap := heap } b (insert new.ptr F) := by
    refine ⟨?_, hframe₃.allocated hold h.allocated, ?_⟩
    · rw [Set.insert_comm]
      simpa using hown₂.sound
    · intro hmem
      rcases Set.mem_insert_iff.mp hmem with heq | hF
      · exact hown.outside (heq ▸ hold)
      · exact h.outside hF
  obtain ⟨hsound, hframe₄⟩ := put_spec hback
  have hnew_mem : (new.setLenUnchecked b.len).ptr ∈ insert new.ptr F := by
    rw [Buffer.setLenUnchecked_ptr]
    exact Set.mem_insert _ _
  refine ⟨{ m₁ with heap := heap }.put b, new.setLenUnchecked b.len, ?_, ⟨?_, ?_, ?_⟩, ?_, ?_, ?_,
    ?_⟩
  · rw [Memory.resize, if_neg (Nat.not_lt.mpr hlen), hnew]
    rw [Buffer.setLenUnchecked_ptr] at hwrite
    simp [hread, hwrite]
  · simpa using hsound
  · exact hframe₄.allocated hnew_mem hown₂.allocated
  · rw [Buffer.setLenUnchecked_ptr]
    exact fun hF => hown.outside (Set.mem_insert_of_mem _ hF)
  · exact new.setLenUnchecked_len (Nat.lt_of_le_of_lt hlen hn)
  · exact (new.setLenUnchecked_capacity _).trans hcap
  · rw [hframe₄.contents hnew_mem, Memory.contents,
      new.setLenUnchecked_len (Nat.lt_of_le_of_lt hlen hn)]
    simpa [hlength] using htake
  · exact (hframe₃.mono (Set.subset_insert _ _)).trans (hframe₄.mono (Set.subset_insert _ _))

theorem makeRoom_spec (uninit : ℕ → ℕ → UInt8) (h : Owns m b F) (htotal : b.len + n < UInt32.size) :
    ∃ m' b', m.makeRoom uninit b n = some (m', b') ∧ Owns m' b' F ∧ b'.len = b.len ∧
      b'.capacity = max b.capacity (b.len + n) ∧ m'.contents b' = m.contents b ∧
      Frame m m' F := by
  have hle := h.allocated.len_le
  rw [Memory.makeRoom, subU32_of_le hle h.allocated.capacity_lt, toU32_of_lt htotal]
  by_cases hfull : b.capacity - b.len < n
  · rw [if_pos hfull, max_eq_right (by omega)]
    exact resize_spec uninit h (by omega) htotal (Nat.le_add_right _ _)
  · rw [if_neg hfull, max_eq_left (by omega)]
    exact ⟨m, b, rfl, h, rfl, rfl, rfl, .refl m F⟩

/-- **`append` puts the bytes behind the contents.** -/
theorem append_spec (uninit : ℕ → ℕ → UInt8) (h : Owns m b F) {xs : List UInt8}
    (htotal : b.len + xs.length < UInt32.size) :
    ∃ m' b', m.append uninit b xs = some (m', b') ∧ Owns m' b' F ∧
      b'.capacity = max b.capacity (b.len + xs.length) ∧
      m'.contents b' = m.contents b ++ xs ∧ Frame m m' F := by
  obtain ⟨m₁, b₁, hroom, hown, hlen, hcap, hcontents, hframe⟩ :=
    makeRoom_spec uninit h htotal
  have hfits : b₁.len + xs.length ≤ b₁.capacity := by
    rw [hlen, hcap]
    exact le_max_right _ _
  obtain ⟨heap, hwrite, hown₂, hframe₂, htake⟩ := hown.write hfits
  have hlen₁ : b₁.len + xs.length < UInt32.size := hlen ▸ htotal
  have hxs : toU32 xs.length = xs.length := toU32_of_lt (by omega)
  refine ⟨{ m₁ with heap := heap }, b₁.setLenUnchecked (b₁.len + xs.length), ?_,
    hown₂.setLenUnchecked hfits, (b₁.setLenUnchecked_capacity _).trans hcap, ?_,
    hframe.trans hframe₂⟩
  · simp [Memory.append, hxs, hroom, hwrite, Buffer.addLen, toU32_of_lt hlen₁]
  · rw [Memory.contents, b₁.setLenUnchecked_len hlen₁, Buffer.setLenUnchecked_ptr, htake,
      ← hcontents]
    rfl

/-! ### Byte vectors -/

/-- A growable byte vector. -/
structure ByteVec where
  contents : List UInt8
  capacity : ℕ

namespace ByteVec

def append (v : ByteVec) (xs : List UInt8) : ByteVec :=
  ⟨v.contents ++ xs, max v.capacity (v.contents.length + xs.length)⟩

def clear (v : ByteVec) : ByteVec := { v with contents := [] }

def truncate (v : ByteVec) (n : ℕ) : ByteVec := { v with contents := v.contents.take n }

def resize (v : ByteVec) (n : ℕ) : ByteVec := { v with capacity := n }

end ByteVec

namespace System

/-- The buffers of the code as byte vectors. -/
def view (s : System) (h : ℕ) : Option ByteVec :=
  (s.buffers h).map fun b => ⟨s.memory.contents b, b.capacity⟩

/-- What the operations do to byte vectors. -/
def Spec (defaultCap : ℕ) (vs vs' : ℕ → Option ByteVec) : Action → Prop
  | .get h => vs' = Function.update vs h (some ⟨[], defaultCap⟩)
  -- a full buffer has any contents
  | .getFull h => ∃ contents, contents.length = defaultCap ∧
    vs' = Function.update vs h (some ⟨contents, defaultCap⟩)
  | .append h xs => ∃ v, vs h = some v ∧ vs' = Function.update vs h (some (v.append xs))
  | .clear h => ∃ v, vs h = some v ∧ vs' = Function.update vs h (some v.clear)
  | .setLen h n => ∃ v, vs h = some v ∧ vs' = Function.update vs h (some (v.truncate n))
  | .resize h n => ∃ v, vs h = some v ∧ vs' = Function.update vs h (some (v.resize n))
  | .release h => vs' = Function.update vs h none

/-- The operations that the code may use: a name that is free for a new buffer, total lengths of at
most `2 ^ 32 - 1`, a smaller length, and a new size that is positive and not below the length. -/
def Allowed (s : System) : Action → Prop
  | .get h | .getFull h => s.buffers h = none
  | .append h xs => ∃ b, s.buffers h = some b ∧ b.len + xs.length < UInt32.size
  | .clear h | .release h => ∃ b, s.buffers h = some b
  | .setLen h n => ∃ b, s.buffers h = some b ∧ n ≤ b.len
  | .resize h n => ∃ b, s.buffers h = some b ∧ 0 < n ∧ n < UInt32.size ∧ b.len ≤ n

variable {s : System} {h : ℕ} (uninit : ℕ → ℕ → UInt8)

/-- The blocks of the buffers other than `h`. -/
def others (s : System) (h : ℕ) : Set ℕ :=
  {p | ∃ h' b, h' ≠ h ∧ s.buffers h' = some b ∧ b.ptr = p}

/-- The blocks of all buffers. -/
def owned (s : System) : Set ℕ := {p | ∃ h b, s.buffers h = some b ∧ b.ptr = p}

/-- Every buffer has its own block, and the pool has other ones. -/
structure Inv (s : System) : Prop where
  sound : Sound s.memory s.owned
  allocated : ∀ h b, s.buffers h = some b → Allocated s.memory b
  separate : ∀ h h' b b', s.buffers h = some b → s.buffers h' = some b' → b.ptr = b'.ptr → h = h'

theorem buffers_setBuffer {s : System} {h h' : ℕ} {b : Option Buffer} {c : Buffer} :
    (s.setBuffer h b).buffers h' = some c ↔
      h' = h ∧ b = some c ∨ h' ≠ h ∧ s.buffers h' = some c := by
  by_cases heq : h' = h
  · subst heq
    simp [setBuffer]
  · simp [setBuffer, heq]

theorem owned_setBuffer_some (s : System) (h : ℕ) (b : Buffer) :
    (s.setBuffer h (some b)).owned = insert b.ptr (s.others h) := by
  ext p
  constructor
  · rintro ⟨h', c, hc, rfl⟩
    rcases buffers_setBuffer.mp hc with ⟨-, heq⟩ | ⟨hne, hc⟩
    · cases heq
      exact Set.mem_insert _ _
    · exact Set.mem_insert_of_mem _ ⟨h', c, hne, hc, rfl⟩
  · intro hp
    rcases Set.mem_insert_iff.mp hp with rfl | ⟨h', c, hne, hc, rfl⟩
    · exact ⟨h, b, buffers_setBuffer.mpr (.inl ⟨rfl, rfl⟩), rfl⟩
    · exact ⟨h', c, buffers_setBuffer.mpr (.inr ⟨hne, hc⟩), rfl⟩

theorem owned_setBuffer_none (s : System) (h : ℕ) : (s.setBuffer h none).owned = s.others h := by
  ext p
  constructor
  · rintro ⟨h', c, hc, rfl⟩
    rcases buffers_setBuffer.mp hc with ⟨-, heq⟩ | ⟨hne, hc⟩
    · cases heq
    · exact ⟨h', c, hne, hc, rfl⟩
  · rintro ⟨h', c, hne, hc, rfl⟩
    exact ⟨h', c, buffers_setBuffer.mpr (.inr ⟨hne, hc⟩), rfl⟩

theorem setBuffer_self (s : System) (h : ℕ) : s.setBuffer h (s.buffers h) = s := by
  rw [setBuffer, Function.update_eq_self]

variable {b : Buffer} {m' : Memory}

theorem Inv.owns (hinv : Inv s) (hb : s.buffers h = some b) : Owns s.memory b (s.others h) := by
  refine ⟨?_, hinv.allocated h b hb, ?_⟩
  · rw [← owned_setBuffer_some, ← hb, setBuffer_self]
    exact hinv.sound
  · rintro ⟨h', c, hne, hc, hptr⟩
    exact hne (hinv.separate h' h c b hc hb hptr)

theorem Inv.sound_others (hinv : Inv s) (hb : s.buffers h = none) :
    Sound s.memory (s.others h) := by
  rw [← owned_setBuffer_none, ← hb, setBuffer_self]
  exact hinv.sound

theorem Inv.allocated_others (hinv : Inv s) (hframe : Frame s.memory m' (s.others h)) {h' : ℕ}
    (hne : h' ≠ h) (hb : s.buffers h' = some b) : Allocated m' b :=
  hframe.allocated ⟨h', b, hne, hb, rfl⟩ (hinv.allocated h' b hb)

theorem view_setBuffer (hframe : Frame s.memory m' (s.others h)) (b : Option Buffer) :
    ({ s with memory := m' }.setBuffer h b).view =
      Function.update s.view h (b.map fun b => ⟨m'.contents b, b.capacity⟩) := by
  funext h'
  by_cases heq : h' = h
  · subst heq
    simp [view, setBuffer]
  · simp only [view, setBuffer, Function.update_of_ne heq]
    cases hb : s.buffers h' with
    | none => rfl
    | some c => simp [hframe.contents (b := c) ⟨h', c, heq, hb, rfl⟩]

/-- **The rule for one operation.** If the buffer `h` owns its block next to the others, and these
are as they were, then the invariant holds and only the vector `h` has changed. -/
theorem Inv.update (hinv : Inv s) {b' : Buffer} (hown : Owns m' b' (s.others h))
    (hframe : Frame s.memory m' (s.others h)) :
    Inv (s.update h (m', b')) ∧
      (s.update h (m', b')).view =
        Function.update s.view h (some ⟨m'.contents b', b'.capacity⟩) := by
  refine ⟨⟨?_, ?_, ?_⟩, view_setBuffer hframe (some b')⟩
  · rw [System.update, owned_setBuffer_some]
    exact hown.sound
  · intro h' c hc
    rcases buffers_setBuffer.mp hc with ⟨-, heq⟩ | ⟨hne, hc⟩
    · cases heq
      exact hown.allocated
    · exact hinv.allocated_others hframe hne hc
  · intro h₁ h₂ c₁ c₂ hc₁ hc₂ hptr
    rcases buffers_setBuffer.mp hc₁ with ⟨heq₁, hb₁⟩ | ⟨hne₁, hb₁⟩ <;>
      rcases buffers_setBuffer.mp hc₂ with ⟨heq₂, hb₂⟩ | ⟨hne₂, hb₂⟩
    · exact heq₁.trans heq₂.symm
    · cases hb₁
      exact absurd ⟨h₂, c₂, hne₂, hb₂, hptr.symm⟩ hown.outside
    · cases hb₂
      exact absurd ⟨h₁, c₁, hne₁, hb₁, hptr⟩ hown.outside
    · exact hinv.separate h₁ h₂ c₁ c₂ hb₁ hb₂ hptr

theorem Inv.release (hinv : Inv s) (hb : s.buffers h = some b) :
    Inv ({ s with memory := s.memory.put b }.setBuffer h none) ∧
      ({ s with memory := s.memory.put b }.setBuffer h none).view =
        Function.update s.view h none := by
  obtain ⟨hsound, hframe⟩ := put_spec (hinv.owns hb)
  refine ⟨⟨?_, ?_, ?_⟩, view_setBuffer hframe none⟩
  · rw [owned_setBuffer_none]
    exact hsound
  · intro h' c hc
    rcases buffers_setBuffer.mp hc with ⟨-, heq⟩ | ⟨hne, hc⟩
    · cases heq
    · exact hinv.allocated_others hframe hne hc
  · intro h₁ h₂ c₁ c₂ hc₁ hc₂ hptr
    rcases buffers_setBuffer.mp hc₁ with ⟨-, heq⟩ | ⟨-, hb₁⟩
    · cases heq
    · rcases buffers_setBuffer.mp hc₂ with ⟨-, heq⟩ | ⟨-, hb₂⟩
      · cases heq
      · exact hinv.separate h₁ h₂ c₁ c₂ hb₁ hb₂ hptr

theorem Inv.setLenUnchecked (hinv : Inv s) (hb : s.buffers h = some b) {n : ℕ} (hn : n ≤ b.len) :
    Inv (s.setBuffer h (some (b.setLenUnchecked n))) ∧
      (s.setBuffer h (some (b.setLenUnchecked n))).view =
        Function.update s.view h (some ⟨(s.memory.contents b).take n, b.capacity⟩) := by
  have hown := hinv.owns hb
  have hcap := Nat.le_trans hn hown.allocated.len_le
  have hcontents : s.memory.contents (b.setLenUnchecked n) = (s.memory.contents b).take n := by
    rw [Memory.contents, Memory.contents, List.take_take, Nat.min_eq_left hn,
      b.setLenUnchecked_len (Nat.lt_of_le_of_lt hcap hown.allocated.capacity_lt),
      b.setLenUnchecked_ptr]
  obtain ⟨hinv', hview⟩ := hinv.update (hown.setLenUnchecked hcap) (.refl _ _)
  refine ⟨hinv', hview.trans ?_⟩
  rw [hcontents, b.setLenUnchecked_capacity]

theorem view_eq_some (hb : s.buffers h = some b) :
    s.view h = some ⟨s.memory.contents b, b.capacity⟩ := by
  rw [view, hb, Option.map_some]

/-- **An operation on a buffer is the operation on a byte vector.** -/
theorem Inv.step (hinv : Inv s) {a : Action} (ha : s.Allowed a) :
    ∃ s', s.step uninit a = some s' ∧ Inv s' ∧
      Spec s.memory.pool.defaultBufferCap s.view s'.view a ∧
      s'.memory.pool.defaultBufferCap = s.memory.pool.defaultBufferCap := by
  cases a with
  | get h =>
    have hfree : s.buffers h = none := ha
    obtain ⟨m', b, hget, hown, hlen, hcap, hframe⟩ := get_spec uninit (hinv.sound_others hfree)
    obtain ⟨hinv', hview⟩ := hinv.update hown hframe
    refine ⟨s.update h (m', b), ?_, hinv', ?_, hframe.default⟩
    · rw [System.step, if_pos hfree, hget, Option.map_some]
    · rw [Spec, hview, hcap, Memory.contents, hlen, List.take_zero]
  | getFull h =>
    have hfree : s.buffers h = none := ha
    obtain ⟨m', b, hget, hown, hlen, hcap, hframe⟩ := getFull_spec uninit (hinv.sound_others hfree)
    obtain ⟨hinv', hview⟩ := hinv.update hown hframe
    refine ⟨s.update h (m', b), ?_, hinv', ⟨m'.contents b, ?_, ?_⟩, hframe.default⟩
    · rw [System.step, if_pos hfree, hget, Option.map_some]
    · exact hown.allocated.length_contents.trans hlen
    · rw [hview, hcap]
  | append h xs =>
    obtain ⟨b, hb, htotal⟩ := ha
    obtain ⟨m', b', happend, hown, hcap, hcontents, hframe⟩ :=
      append_spec uninit (hinv.owns hb) htotal
    obtain ⟨hinv', hview⟩ := hinv.update hown hframe
    have hlength : (s.memory.contents b).length = b.len := (hinv.owns hb).allocated.length_contents
    refine ⟨s.update h (m', b'), ?_, hinv', ⟨_, view_eq_some hb, ?_⟩, hframe.default⟩
    · rw [System.step, hb, Option.bind_eq_bind, Option.bind_some, happend]
      rfl
    · rw [hview, hcontents, hcap, ← hlength]
      rfl
  | clear h =>
    obtain ⟨b, hb⟩ := ha
    obtain ⟨hinv', hview⟩ := hinv.setLenUnchecked hb (Nat.zero_le _)
    refine ⟨_, ?_, hinv', ⟨_, view_eq_some hb, ?_⟩, rfl⟩
    · rw [System.step, hb, Option.map_some]
      rfl
    · rw [hview]
      rfl
  | setLen h n =>
    obtain ⟨b, hb, hn⟩ := ha
    obtain ⟨hinv', hview⟩ := hinv.setLenUnchecked hb hn
    refine ⟨_, ?_, hinv', ⟨_, view_eq_some hb, ?_⟩, rfl⟩
    · have hcap := Nat.le_trans hn (hinv.owns hb).allocated.len_le
      rw [System.step, hb, Option.map_some, Buffer.setLen, if_pos hcap]
    · rw [hview]
      rfl
  | resize h n =>
    obtain ⟨b, hb, hpos, hn, hlen⟩ := ha
    obtain ⟨m', b', hresize, hown, -, hcap, hcontents, hframe⟩ :=
      resize_spec uninit (hinv.owns hb) hpos hn hlen
    obtain ⟨hinv', hview⟩ := hinv.update hown hframe
    refine ⟨s.update h (m', b'), ?_, hinv', ⟨_, view_eq_some hb, ?_⟩, hframe.default⟩
    · rw [System.step, hb, Option.bind_eq_bind, Option.bind_some, hresize]
      rfl
    · rw [hview, hcontents, hcap]
      rfl
  | release h =>
    obtain ⟨b, hb⟩ := ha
    obtain ⟨hinv', hview⟩ := hinv.release hb
    refine ⟨_, ?_, hinv', hview, (put_spec (hinv.owns hb)).2.default⟩
    rw [System.step, hb, Option.map_some]

/-- The buffers of the pool at the start are the fixed ones, each with its own block. -/
theorem inv_init (numberOfFixedBuffers : ℕ) {defaultBufferCap : ℕ} (hpos : 0 < defaultBufferCap)
    (hlt : defaultBufferCap < UInt32.size) : Inv (init numberOfFixedBuffers defaultBufferCap) := by
  have hpool : ∀ b ∈ (init numberOfFixedBuffers defaultBufferCap).memory.pool.buffers,
      ∃ i < numberOfFixedBuffers, b = .fixed ⟨0, defaultBufferCap, i, i⟩ := by
    intro b hb
    simpa [System.init, Memory.init, BufPool.buffers, eq_comm] using hb
  refine ⟨⟨hpos, hlt, ?_, ?_, ?_, ?_, ?_⟩, ?_, ?_⟩
  · have hptrs : (init numberOfFixedBuffers defaultBufferCap).memory.pool.buffers.map Buffer.ptr =
        (List.range numberOfFixedBuffers).reverse := by
      simp [System.init, Memory.init, BufPool.buffers, Function.comp_def, Buffer.ptr]
    rw [hptrs]
    exact List.pairwise_reverse.mpr (List.nodup_range.imp Ne.symm)
  · intro b hb
    obtain ⟨i, hi, rfl⟩ := hpool b hb
    refine ⟨Nat.zero_le _, hlt, ?_, hi, fun _ => rfl⟩
    simp [System.init, Memory.init, Buffer.ptr, Buffer.capacity, hi]
  · intro b hb
    obtain ⟨i, -, rfl⟩ := hpool b hb
    rfl
  · rintro b - ⟨h, c, hc, -⟩
    cases hc
  · rintro p ⟨h, c, hc, -⟩
    cases hc
  · intro h b hb
    cases hb
  · intro h h' b b' hb
    cases hb

theorem inv_of_reach (numberOfFixedBuffers : ℕ) {defaultBufferCap : ℕ}
    (hpos : 0 < defaultBufferCap) (hlt : defaultBufferCap < UInt32.size)
    (hreach : Reach (System.step uninit) Allowed (init numberOfFixedBuffers defaultBufferCap) s) :
    Inv s ∧ s.memory.pool.defaultBufferCap = defaultBufferCap := by
  refine Reach.invariant
    (I := fun s => Inv s ∧ s.memory.pool.defaultBufferCap = defaultBufferCap)
    ⟨inv_init numberOfFixedBuffers hpos hlt, rfl⟩ ?_ hreach
  rintro s a t - ⟨hinv, hcap⟩ ha hstep
  obtain ⟨s', hs', hinv', -, hcap'⟩ := hinv.step uninit ha
  rw [hstep, Option.some.injEq] at hs'
  exact hs' ▸ ⟨hinv', hcap'.trans hcap⟩

/-- **`Buffer` is a growable byte vector.** In every run, each buffer has a length of at most its
capacity, and each further operation goes through and does what it does to byte vectors. -/
theorem buffer_is_byteVec (numberOfFixedBuffers : ℕ) {defaultBufferCap : ℕ}
    (hpos : 0 < defaultBufferCap) (hlt : defaultBufferCap < UInt32.size)
    (hreach : Reach (System.step uninit) Allowed (init numberOfFixedBuffers defaultBufferCap) s) :
    (∀ h b, s.buffers h = some b →
      (s.memory.contents b).length = b.len ∧ b.len ≤ b.capacity) ∧
    ∀ a, s.Allowed a → ∃ s', s.step uninit a = some s' ∧
      Spec defaultBufferCap s.view s'.view a := by
  obtain ⟨hinv, hcap⟩ := inv_of_reach uninit numberOfFixedBuffers hpos hlt hreach
  constructor
  · intro h b hb
    have ha := hinv.allocated h b hb
    exact ⟨ha.length_contents, ha.len_le⟩
  · intro a ha
    obtain ⟨s', hstep, -, hspec, -⟩ := hinv.step uninit ha
    exact ⟨s', hstep, hcap ▸ hspec⟩

/-- The only fixed buffer of the pool gets three bytes and then two more, for which it has no
room. -/
theorem buffer_is_byteVec_grown :
    ∃ s, Reach (System.step fun _ _ => 0) Allowed (init 1 4) s ∧
      s.view 0 = some ⟨[1, 2, 3, 4, 5], 5⟩ ∧
      (∀ h b, s.buffers h = some b →
        (s.memory.contents b).length = b.len ∧ b.len ≤ b.capacity) ∧
      ∀ a, s.Allowed a → ∃ s', s.step (fun _ _ => 0) a = some s' ∧ Spec 4 s.view s'.view a := by
  have hget : Reach (System.step fun _ _ => 0) Allowed (init 1 4) _ :=
    .next (a := .get 0) .start rfl rfl
  have happend : Reach (System.step fun _ _ => 0) Allowed (init 1 4) _ :=
    .next (a := .append 0 [1, 2, 3]) hget ⟨_, rfl, by decide⟩ rfl
  have hgrow : Reach (System.step fun _ _ => 0) Allowed (init 1 4) _ :=
    .next (a := .append 0 [4, 5]) happend ⟨_, rfl, by decide⟩ rfl
  exact ⟨_, hgrow, rfl, buffer_is_byteVec _ 1 (by decide) (by decide) hgrow⟩

end System

end Orengine.Io.Buf
