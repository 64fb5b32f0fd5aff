import Mathlib.Data.Nat.Notation
import Mathlib.Logic.Function.Basic
import Mathlib.Tactic.SplitIfs
import Mathlib.Tactic.TypeStar

/-!
# A heap of blocks

A heap is a list of numbered blocks of cells.  `alloc` makes a new block, `free` leaves a block
without cells, and `write` and `read` go to a place inside one block; they are not defined behind
its end.  A block keeps its number, so that whoever has the number of a block is not affected by
what happens to the other blocks.
-/

namespace Orengine.Lib

/-- The blocks allocated so far, by number. -/
structure Heap (β : Type*) where
  block : ℕ → List β
  /-- The number of the next block. -/
  next : ℕ

namespace Heap

variable {β : Type*}

/-- A heap without blocks. -/
def empty : Heap β := ⟨fun _ => [], 0⟩

/-- A new block with the given cells. -/
def alloc (h : Heap β) (cells : List β) : Heap β × ℕ :=
  (⟨Function.update h.block h.next cells, h.next + 1⟩, h.next)

/-- The block `p` is freed. -/
def free (h : Heap β) (p : ℕ) : Heap β := { h with block := Function.update h.block p [] }

/-- The first `n` cells of the block `p`. -/
def read (h : Heap β) (p n : ℕ) : Option (List β) :=
  if n ≤ (h.block p).length then some ((h.block p).take n) else none

/-- The cells `xs` are written to the block `p` from the place `i` on. -/
def write (h : Heap β) (p i : ℕ) (xs : List β) : Option (Heap β) :=
  if i + xs.length ≤ (h.block p).length then
    some { h with
      block := Function.update h.block p
        ((h.block p).take i ++ xs ++ (h.block p).drop (i + xs.length)) }
  else none

theorem alloc_block_of_lt (h : Heap β) (cells : List β) {p : ℕ} (hp : p < h.next) :
    (h.alloc cells).1.block p = h.block p :=
  Function.update_of_ne (Nat.ne_of_lt hp) _ _

@[simp] theorem alloc_block_self (h : Heap β) (cells : List β) :
    (h.alloc cells).1.block (h.alloc cells).2 = cells :=
  Function.update_self _ _ _

theorem free_block_of_ne (h : Heap β) {p q : ℕ} (hne : q ≠ p) : (h.free p).block q = h.block q :=
  Function.update_of_ne hne _ _

theorem read_eq_some {h : Heap β} {p n : ℕ} (hn : n ≤ (h.block p).length) :
    h.read p n = some ((h.block p).take n) :=
  if_pos hn

/-- **What a write inside a block does:** it changes that block only, not its length, and what is
in front of the place stays. -/
theorem exists_write {h : Heap β} {p i : ℕ} {xs : List β}
    (hle : i + xs.length ≤ (h.block p).length) :
    ∃ h', h.write p i xs = some h' ∧ h'.next = h.next ∧
      (∀ q, q ≠ p → h'.block q = h.block q) ∧ (h'.block p).length = (h.block p).length ∧
      (h'.block p).take (i + xs.length) = (h.block p).take i ++ xs := by
  refine ⟨_, if_pos hle, rfl, fun q hq => Function.update_of_ne hq _ _, ?_, ?_⟩
  · simp only [Function.update_self, List.length_append, List.length_take, List.length_drop]
    omega
  · have hlength : ((h.block p).take i ++ xs).length = i + xs.length := by
      rw [List.length_append, List.length_take_of_le (by omega)]
    simp only [Function.update_self]
    rw [← hlength, List.take_left]

end Heap

end Orengine.Lib
