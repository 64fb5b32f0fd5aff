import Orengine.Utils.VecMap
import Orengine.Lib.Reach
import Mathlib.Data.Set.Finite.Basic

/-!
# `VecMap` is a finite map

`step` is one operation of a `VecMap`, with its answer; it fails where the assertion of `insert`
does.  A map from `usize` keys is a function `ℕ → Option V`: `Op.apply` says what an operation makes
of it, and `Op.Answers` what it answers.  `Both` runs a `VecMap` and a map side by side, and
`vecMap_is_map` says that nobody can tell them apart, whatever holes the vector has.
-/

namespace Orengine.Utils.VecMap

open Lib

variable {V : Type*}

/-- An operation, with what the caller writes to the values that it gets access to. -/
inductive Op (V : Type*) where
  | insert (key : ℕ) (value : V)
  | getMut (key : ℕ) (write : V → V)
  | retain (f : ℕ → V → Bool)
  | clear
  | iter
  | iterMut (write : ℕ → V → V)

/-- What an operation answers. -/
inductive Answer (V : Type*) where
  | value (v : Option V)
  | pairs (l : List (ℕ × V))
  | nothing

def step (m : VecMap V) : Op V → Option (VecMap V × Answer V)
  | .insert key value =>
    -- `debug_assert!`
    if key < m.inner.length + 100 then
      some ((m.insert key value).1, .value (m.insert key value).2)
    else none
  | .getMut key write => some (m.modify key write, .value (m.get key))
  | .retain f => some (m.retain f, .nothing)
  | .clear => some (m.clear, .nothing)
  | .iter => some (m, .pairs m.iter)
  | .iterMut write => some ((m.iterMut write).2, .pairs (m.iterMut write).1)

/-! ### Maps -/

/-- `l` lists the pairs of a map in increasing order of the keys. -/
structure Lists (a : ℕ → Option V) (l : List (ℕ × V)) : Prop where
  mem_iff : ∀ k v, (k, v) ∈ l ↔ a k = some v
  increasing : (l.map Prod.fst).Pairwise (· < ·)

/-- What an operation makes of a map. -/
def Op.apply (a : ℕ → Option V) : Op V → ℕ → Option V
  | .insert key value => Function.update a key (some value)
  | .getMut key write => Function.update a key ((a key).map write)
  | .retain f => fun k => (a k).filter (f k)
  | .clear => fun _ => none
  | .iter => a
  | .iterMut write => fun k => (a k).map (write k)

/-- What an operation on a map answers. -/
def Op.Answers (a : ℕ → Option V) : Op V → Answer V → Prop
  | .insert key _, answer => answer = .value (a key)
  | .getMut key _, answer => answer = .value (a key)
  | .retain _, answer => answer = .nothing
  | .clear, answer => answer = .nothing
  | .iter, answer => ∃ l, answer = .pairs l ∧ Lists a l
  | .iterMut _, answer => ∃ l, answer = .pairs l ∧ Lists a l

/-- The key of an `insert` is within the distance that its assertion allows. -/
def Op.Near (m : VecMap V) : Op V → Prop
  | .insert key _ => key < m.inner.length + 100
  | _ => True

/-! ### The refinement -/

theorem lists_iter (m : VecMap V) : Lists m.get m.iter where
  mem_iff _ _ := mem_iter
  increasing := m.keys_pairwise

/-- What a step does and answers, in terms of the lookups. -/
theorem step_spec {m m' : VecMap V} {op : Op V} {answer : Answer V}
    (h : m.step op = some (m', answer)) : m'.get = op.apply m.get ∧ op.Answers m.get answer := by
  cases op with
  | insert key value =>
    simp only [step, Option.ite_none_right_eq_some, Option.some.injEq, Prod.mk.injEq] at h
    obtain ⟨-, rfl, rfl⟩ := h
    refine ⟨?_, congrArg _ (m.insert_snd key value)⟩
    funext k
    rw [get_insert, Op.apply, Function.update_apply]
  | getMut key write =>
    simp only [step, Option.some.injEq, Prod.mk.injEq] at h
    obtain ⟨rfl, rfl⟩ := h
    refine ⟨?_, rfl⟩
    funext k
    rw [get_modify, Op.apply, Function.update_apply]
    by_cases hk : k = key
    · rw [if_pos hk, if_pos hk, hk]
    · rw [if_neg hk, if_neg hk]
  | retain f =>
    simp only [step, Option.some.injEq, Prod.mk.injEq] at h
    obtain ⟨rfl, rfl⟩ := h
    exact ⟨funext (m.get_retain f), rfl⟩
  | clear =>
    simp only [step, Option.some.injEq, Prod.mk.injEq] at h
    obtain ⟨rfl, rfl⟩ := h
    exact ⟨funext m.get_clear, rfl⟩
  | iter =>
    simp only [step, Option.some.injEq, Prod.mk.injEq] at h
    obtain ⟨rfl, rfl⟩ := h
    exact ⟨rfl, m.iter, rfl, m.lists_iter⟩
  | iterMut write =>
    simp only [step, Option.some.injEq, Prod.mk.injEq] at h
    obtain ⟨rfl, rfl⟩ := h
    exact ⟨funext (m.get_iterMut write), m.iter, rfl, m.lists_iter⟩

theorem exists_step {m : VecMap V} {op : Op V} (h : op.Near m) :
    ∃ m' answer, m.step op = some (m', answer) := by
  cases op with
  | insert key value => exact ⟨_, _, if_pos h⟩
  | _ => exact ⟨_, _, rfl⟩

/-- A `VecMap` and a map. -/
structure Both (V : Type*) where
  vecMap : VecMap V
  map : ℕ → Option V

namespace Both

def new : Both V := ⟨.new, fun _ => none⟩

def step (s : Both V) (op : Op V) : Option (Both V) :=
  (s.vecMap.step op).map fun r => ⟨r.1, op.apply s.map⟩

/-- After every sequence of operations the lookups agree. -/
theorem get_eq_of_reachable {s : Both V} (h : Reachable step new s) : s.vecMap.get = s.map := by
  refine Reach.invariant (I := fun s => s.vecMap.get = s.map) rfl ?_ h
  rintro s op t - hget - hstep
  obtain ⟨r, hr, rfl⟩ := Option.map_eq_some_iff.mp hstep
  rw [← hget]
  exact (step_spec hr).1

/-- **`VecMap` is a finite map.** After every sequence of operations the lookups are those of a map
with finitely many keys, and each further operation, if its key is within the allowed distance, goes
through, answers what it answers for that map, and does to the lookups what it does to it. -/
theorem vecMap_is_map {s : Both V} (h : Reachable step new s) :
    (∀ k, s.vecMap.get k = s.map k) ∧ {k | s.map k ≠ none}.Finite ∧
    ∀ op, op.Near s.vecMap → ∃ m answer, s.vecMap.step op = some (m, answer) ∧
      op.Answers s.map answer ∧ ∀ k, m.get k = op.apply s.map k := by
  have hget := get_eq_of_reachable h
  refine ⟨congrFun hget, ?_, fun op hnear => ?_⟩
  · apply (List.finite_toSet s.vecMap.keys).subset
    intro k hk
    rw [← hget] at hk
    exact mem_keys.mpr (Option.isSome_iff_ne_none.mpr hk)
  · obtain ⟨m, answer, hstep⟩ := exists_step hnear
    obtain ⟨hmap, hanswer⟩ := step_spec hstep
    rw [hget] at hmap hanswer
    exact ⟨m, answer, hstep, hanswer, congrFun hmap⟩

/-- Key 3 is inserted twice and key 7 once, with holes in between, and key 3 is removed. -/
theorem vecMap_is_map_holes :
    ∃ s : Both ℕ, Reachable step new s ∧ s.vecMap.inner.length = 8 ∧ s.vecMap.iter = [(7, 2)] ∧
      (∀ k, s.vecMap.get k = s.map k) := by
  have h : Reachable step (new : Both ℕ) _ :=
    reachable_of_exec [.insert 3 0, .insert 3 1, .insert 7 2, .retain fun k _ => k == 7] rfl
  exact ⟨_, h, rfl, rfl, (vecMap_is_map h).1⟩

end Both

end Orengine.Utils.VecMap
