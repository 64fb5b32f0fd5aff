import Orengine.Io.Buf.Buffer

/-!
# `Slice` and `SliceMut`

`Buffer::slice` and `Buffer::slice_mut` turn the two bounds of a range into a start and an end and
make a slice of them; they do not look at the capacity of the buffer, nor at the order of the two.
`slice_contained_iff` says for which ranges the slice is nevertheless inside the buffer.

An addition that overflows panics in a build with overflow checks, and wraps around in one without;
`overflowChecks` says which build it is.
-/

namespace Orengine.Io.Buf

/-- `Bound<u32>`. -/
inductive Bound where
  | included (n : UInt32)
  | excluded (n : UInt32)
  | unbounded
  deriving DecidableEq

/-- A range of `u32`: `start_bound` and `end_bound`. -/
structure RangeBounds where
  startBound : Bound
  endBound : Bound
  deriving DecidableEq

/-- `Slice` and `SliceMut`. -/
structure Slice where
  buf : Buffer
  start : ℕ
  end_ : ℕ
  deriving DecidableEq

/-- `n + 1` on `u32`; `none` if it panics. -/
def addOne (overflowChecks : Bool) (n : UInt32) : Option ℕ :=
  if overflowChecks && n.toNat + 1 == UInt32.size then none else some (toU32 (n.toNat + 1))

/-- `len_u32` of a slice; `none` if it panics. -/
def Slice.lenU32 (overflowChecks : Bool) (s : Slice) : Option ℕ :=
  if overflowChecks && decide (s.end_ < s.start) then none else some (subU32 s.end_ s.start)

namespace Buffer

/-- The start of `slice` and `slice_mut`. -/
def sliceStart (overflowChecks : Bool) : Bound → Option ℕ
  | .included s => some s.toNat
  | .unbounded => some 0
  | .excluded s => addOne overflowChecks s

/-- The end of `slice` and `slice_mut`. -/
def sliceEnd (overflowChecks : Bool) (b : Buffer) : Bound → Option ℕ
  | .included e => addOne overflowChecks e
  | .excluded e => some e.toNat
  | .unbounded => some (toU32 b.len)

/-- `slice`; `none` if it panics. -/
def slice (overflowChecks : Bool) (b : Buffer) (range : RangeBounds) : Option Slice :=
  (sliceStart overflowChecks range.startBound).bind fun start =>
    (b.sliceEnd overflowChecks range.endBound).map fun end_ => ⟨b, start, end_⟩

/-- `slice_mut`, which has the same body. -/
def sliceMut (overflowChecks : Bool) (b : Buffer) (range : RangeBounds) : Option Slice :=
  (sliceStart overflowChecks range.startBound).bind fun start =>
    (b.sliceEnd overflowChecks range.endBound).map fun end_ => ⟨b, start, end_⟩

end Buffer

/-! ### Which slices are inside the buffer -/

/-- The place where a range starts. -/
def RangeBounds.first (range : RangeBounds) : ℕ :=
  match range.startBound with
  | .included s => s.toNat
  | .excluded s => s.toNat + 1
  | .unbounded => 0

/-- The place behind the end of a range, for a buffer. -/
def RangeBounds.last (range : RangeBounds) (b : Buffer) : ℕ :=
  match range.endBound with
  | .included e => e.toNat + 1
  | .excluded e => e.toNat
  | .unbounded => toU32 b.len

/-- One of the two places is not a `u32`. -/
def RangeBounds.Overflows (range : RangeBounds) (b : Buffer) : Prop :=
  range.first = UInt32.size ∨ range.last b = UInt32.size

/-- The call panics, or gives a slice inside of the buffer: all its bytes are. -/
def Contained (overflowChecks : Bool) (b : Buffer) (result : Option Slice) : Prop :=
  ∀ s, result = some s → s.start ≤ s.end_ ∧ s.end_ ≤ b.capacity ∧
    s.lenU32 overflowChecks = some (s.end_ - s.start) ∧
    ∀ i < s.end_ - s.start, s.start + i < b.capacity

instance (range : RangeBounds) (b : Buffer) : Decidable (range.Overflows b) :=
  inferInstanceAs (Decidable (_ ∨ _))

variable {overflowChecks : Bool} {b : Buffer} {range : RangeBounds}

theorem addOne_eq (n : UInt32) : addOne overflowChecks n =
    if overflowChecks = true ∧ n.toNat + 1 = UInt32.size then none
    else some (toU32 (n.toNat + 1)) := by
  unfold addOne
  simp only [Bool.and_eq_true, beq_iff_eq]

theorem toU32_toNat (n : UInt32) : toU32 n.toNat = n.toNat := toU32_of_lt n.toNat_lt_size

theorem sliceStart_eq : Buffer.sliceStart overflowChecks range.startBound =
    if overflowChecks = true ∧ range.first = UInt32.size then none
    else some (toU32 range.first) := by
  unfold Buffer.sliceStart RangeBounds.first
  cases range.startBound with
  | included s =>
    have hne : s.toNat ≠ UInt32.size := Nat.ne_of_lt s.toNat_lt_size
    simp [hne, toU32_toNat]
  | excluded s => exact addOne_eq s
  | unbounded => simp [toU32]

theorem sliceEnd_eq : b.sliceEnd overflowChecks range.endBound =
    if overflowChecks = true ∧ range.last b = UInt32.size then none
    else some (toU32 (range.last b)) := by
  unfold Buffer.sliceEnd RangeBounds.last
  cases range.endBound with
  | included e => exact addOne_eq e
  | excluded e =>
    have hne : e.toNat ≠ UInt32.size := Nat.ne_of_lt e.toNat_lt_size
    simp [hne, toU32_toNat]
  | unbounded =>
    have hlt := toU32_lt b.len
    rw [if_neg (fun h => Nat.ne_of_lt hlt h.2), toU32_of_lt hlt]

/-- What `slice` does: it panics or takes the two places as they are. -/
theorem slice_eq (overflowChecks : Bool) (b : Buffer) (range : RangeBounds) :
    b.slice overflowChecks range =
      if overflowChecks = true ∧ range.Overflows b then none
      else some ⟨b, toU32 range.first, toU32 (range.last b)⟩ := by
  rw [Buffer.slice, sliceStart_eq, sliceEnd_eq]
  by_cases hfirst : overflowChecks = true ∧ range.first = UInt32.size
  · have hpanics : overflowChecks = true ∧ range.Overflows b := ⟨hfirst.1, .inl hfirst.2⟩
    rw [if_pos hfirst, if_pos hpanics]
    rfl
  · rw [if_neg hfirst]
    by_cases hlast : overflowChecks = true ∧ range.last b = UInt32.size
    · have hpanics : overflowChecks = true ∧ range.Overflows b := ⟨hlast.1, .inr hlast.2⟩
      rw [if_pos hlast, if_pos hpanics]
      rfl
    · have hnone : ¬(overflowChecks = true ∧ range.Overflows b) := by
        rintro ⟨hchecks, hover | hover⟩
        · exact hfirst ⟨hchecks, hover⟩
        · exact hlast ⟨hchecks, hover⟩
      rw [if_neg hlast, if_neg hnone]
      rfl

theorem lenU32_of_le {s : Slice} (hle : s.start ≤ s.end_) (hlt : s.end_ < UInt32.size) :
    s.lenU32 overflowChecks = some (s.end_ - s.start) := by
  rw [Slice.lenU32, decide_eq_false (Nat.not_lt.mpr hle), Bool.and_false,
    if_neg Bool.false_ne_true, subU32_of_le hle hlt]

/-- **Which ranges give a slice of the buffer.** The call panics or the slice is inside the buffer
exactly if the build checks for overflow and one of the places is not a `u32`, or the places,
wrapped around, are in order and not behind the capacity. -/
theorem slice_contained_iff (overflowChecks : Bool) (b : Buffer) (range : RangeBounds) :
    (Contained overflowChecks b (b.slice overflowChecks range) ↔
      (overflowChecks = true ∧ range.Overflows b) ∨
        (toU32 range.first ≤ toU32 (range.last b) ∧ toU32 (range.last b) ≤ b.capacity)) ∧
    (Contained overflowChecks b (b.sliceMut overflowChecks range) ↔
      (overflowChecks = true ∧ range.Overflows b) ∨
        (toU32 range.first ≤ toU32 (range.last b) ∧ toU32 (range.last b) ≤ b.capacity)) := by
  have hslice : Contained overflowChecks b (b.slice overflowChecks range) ↔
      (overflowChecks = true ∧ range.Overflows b) ∨
        (toU32 range.first ≤ toU32 (range.last b) ∧ toU32 (range.last b) ≤ b.capacity) := by
    rw [slice_eq]
    by_cases hpanics : overflowChecks = true ∧ range.Overflows b
    · rw [if_pos hpanics]
      exact iff_of_true (fun s hs => nomatch hs) (.inl hpanics)
    · rw [if_neg hpanics]
      constructor
      · intro h
        obtain ⟨hle, hcap, -⟩ := h _ rfl
        exact .inr ⟨hle, hcap⟩
      · rintro (h | ⟨hle, hcap⟩) s hs
        · exact absurd h hpanics
        · cases hs
          refine ⟨hle, hcap, lenU32_of_le hle (toU32_lt _), fun i hi => ?_⟩
          simp only at hi ⊢
          omega
  exact ⟨hslice, hslice⟩

/-- A buffer of four bytes: `slice(6..9)` and `slice(3..1)` are outside of it. -/
theorem slice_not_contained :
    ¬Contained true (.nonFixed ⟨0, 4, 4⟩) ((Buffer.nonFixed ⟨0, 4, 4⟩).slice true
      ⟨.included 6, .excluded 9⟩) ∧
    ¬Contained true (.nonFixed ⟨0, 4, 4⟩) ((Buffer.nonFixed ⟨0, 4, 4⟩).slice true
      ⟨.included 3, .excluded 1⟩) := by
  constructor
  · intro h
    exact absurd (h _ rfl).2.1 (by decide)
  · intro h
    exact absurd (h _ rfl).1 (by decide)

end Orengine.Io.Buf
