import Mathlib.Data.Nat.Notation
import Mathlib.Tactic.TypeStar

/-!
# `LocalWaitGroup`

The wait group of one executor.  `done` drains the vector of the waiting tasks while it executes
them, and they may push to the same vector.  `drain(..)` sets the length to 0 at its start and then
reads the slots one by one, so that the model keeps the slots apart from the length.

`add` reserves room in the vector, which grows as the one of the standard library.  What is behind
the length of a vector that has grown is gone: a `drain(..)` that has not read it yet would read
freed memory, and has no step here.
-/

namespace Orengine.Sync

/-- `Inner` of a `LocalWaitGroup`. -/
structure LocalWaitGroup (τ : Type*) where
  count : ℕ
  /-- The slots of `waited_tasks` that have been written. -/
  slots : List τ
  /-- The length of `waited_tasks`. -/
  len : ℕ
  /-- The capacity of `waited_tasks`. -/
  capacity : ℕ
  deriving DecidableEq

namespace LocalWaitGroup

variable {τ : Type*}

/-- A wait group with a vector of this capacity from the pool. -/
def withCapacity (capacity : ℕ) : LocalWaitGroup τ := ⟨0, [], 0, capacity⟩

/-- A wait group with a new vector. -/
def new : LocalWaitGroup τ := withCapacity 2

/-- The vector grows to hold so many tasks. -/
def grow (g : LocalWaitGroup τ) (required : ℕ) : LocalWaitGroup τ :=
  { g with
      slots := g.slots.take g.len
      capacity := max 4 (max (2 * g.capacity) required) }

/-- `LocalWaitGroup::add`; `reserve` of more than the capacity lets the vector grow. -/
def add (g : LocalWaitGroup τ) (n : ℕ) : LocalWaitGroup τ :=
  if g.capacity < g.count + n then { g.grow (g.len + (g.count + n)) with count := g.count + n }
  else { g with count := g.count + n }

theorem count_add (g : LocalWaitGroup τ) (n : ℕ) : (g.add n).count = g.count + n := by
  unfold add
  split <;> rfl

theorem len_add (g : LocalWaitGroup τ) (n : ℕ) : (g.add n).len = g.len := by
  unfold add
  split <;> rfl

theorem mem_slots_of_add {g : LocalWaitGroup τ} {n : ℕ} {t : τ} (h : t ∈ (g.add n).slots) :
    t ∈ g.slots := by
  unfold add at h
  split at h
  · exact List.mem_of_mem_take h
  · exact h

def inc (g : LocalWaitGroup τ) : LocalWaitGroup τ := g.add 1

/-- `waited_tasks.push(t)`: it writes the slot after the last. -/
def push (g : LocalWaitGroup τ) (t : τ) : LocalWaitGroup τ :=
  { g with
      slots := g.slots.take g.len ++ t :: g.slots.drop (g.len + 1)
      len := g.len + 1
      capacity := if g.len = g.capacity then (g.grow (g.len + 1)).capacity else g.capacity }

/-- `LocalWaitGroup::done` up to its loop, with the number of the slots that the loop drains. -/
def done (g : LocalWaitGroup τ) : LocalWaitGroup τ × ℕ :=
  -- `drain(..)` sets the length to 0 and leaves the slots as they are
  if g.count - 1 = 0 then ({ g with count := 0, len := 0 }, g.len)
  else ({ g with count := g.count - 1 }, 0)

/-- `WaitLocalWaitGroup::poll` of the task `t`; `none` if it is ready. -/
def pollWait (g : LocalWaitGroup τ) (t : τ) : Option (LocalWaitGroup τ) :=
  if g.count ≠ 0 then some (g.push t) else none

end LocalWaitGroup

end Orengine.Sync
