import Mathlib.Algebra.BigOperators.Group.Finset.Piecewise
import Mathlib.Algebra.Order.BigOperators.Group.Finset
import Mathlib.Data.Fintype.Basic
import Mathlib.Data.List.Count
import Mathlib.Tactic.Ring

/-!
# Counting over a family of parties

A system of parties `ι` keeps one local state `g i : ρ` for each of them.  `tally f g` adds up a
weight `f` of the local states.  A step changes one of them, `Function.update g i x`, and
`tally_update` says what this does to the sum, as an equation without subtraction.  `oneAt` is the
weight of a single party, for counts over lists, and `perm_cons_filter` says what a list loses if
the element with a key is filtered out.
-/

namespace Orengine.Lib

variable {ι ρ : Type*} [Fintype ι]

/-- The total weight of the local states of all parties. -/
def tally (f : ρ → ℕ) (g : ι → ρ) : ℕ := ∑ i, f (g i)

omit [Fintype ι] in
/-- **One party moves.** The sum over a set of parties loses the weight of its old local state and
gains that of the new one. -/
theorem sum_update [DecidableEq ι] {M : Type*} [AddCommMonoid M] {S : Finset ι} {i : ι} (hi : i ∈ S)
    (f : ρ → M) (g : ι → ρ) (x : ρ) :
    ∑ j ∈ S, f (Function.update g i x j) + f (g i) = ∑ j ∈ S, f (g j) + f x := by
  have hnew := Finset.add_sum_erase S (fun j => f (Function.update g i x j)) hi
  have hold := Finset.add_sum_erase S (fun j => f (g j)) hi
  have hrest : ∑ j ∈ S.erase i, f (Function.update g i x j) = ∑ j ∈ S.erase i, f (g j) :=
    Finset.sum_congr rfl fun j hj => by rw [Function.update_of_ne (Finset.ne_of_mem_erase hj)]
  simp only [Function.update_self] at hnew
  rw [← hnew, ← hold, hrest, add_right_comm (f x), add_right_comm (f (g i)), add_comm (f x)]

theorem tally_update [DecidableEq ι] (f : ρ → ℕ) (g : ι → ρ) (i : ι) (x : ρ) :
    tally f (Function.update g i x) + f (g i) = tally f g + f x :=
  sum_update (Finset.mem_univ i) f g x

theorem tally_add (f f' : ρ → ℕ) (g : ι → ρ) :
    tally (fun x => f x + f' x) g = tally f g + tally f' g :=
  Finset.sum_add_distrib

theorem tally_mono {f f' : ρ → ℕ} (h : ∀ x, f x ≤ f' x) (g : ι → ρ) : tally f g ≤ tally f' g :=
  Finset.sum_le_sum fun i _ => h (g i)

theorem le_tally (f : ρ → ℕ) (g : ι → ρ) (i : ι) : f (g i) ≤ tally f g :=
  Finset.single_le_sum (f := fun j => f (g j)) (fun _ _ => Nat.zero_le _) (Finset.mem_univ i)

theorem tally_eq_zero_iff {f : ρ → ℕ} {g : ι → ρ} : tally f g = 0 ↔ ∀ i, f (g i) = 0 := by
  unfold tally
  rw [Finset.sum_eq_zero_iff]
  exact ⟨fun h i => h i (Finset.mem_univ i), fun h i _ => h i⟩

theorem exists_of_tally_pos {f : ρ → ℕ} {g : ι → ρ} (h : 0 < tally f g) : ∃ i, 0 < f (g i) := by
  by_contra hno
  have hzero : tally f g = 0 :=
    tally_eq_zero_iff.mpr fun i => Nat.eq_zero_of_not_pos fun hi => hno ⟨i, hi⟩
  omega

theorem add_le_tally [DecidableEq ι] (f : ρ → ℕ) (g : ι → ρ) {i j : ι} (hij : i ≠ j) :
    f (g i) + f (g j) ≤ tally f g := by
  have hpair : ∑ k ∈ {i, j}, f (g k) = f (g i) + f (g j) := Finset.sum_pair hij
  rw [← hpair]
  exact Finset.sum_le_sum_of_subset (Finset.subset_univ _)

theorem eq_of_tally_le_one [DecidableEq ι] {f : ρ → ℕ} {g : ι → ρ} (h : tally f g ≤ 1) {i j : ι}
    (hi : 0 < f (g i)) (hj : 0 < f (g j)) : i = j := by
  by_contra hij
  have := add_le_tally f g hij
  omega

theorem tally_const_zero (f : ρ → ℕ) (x : ρ) (hx : f x = 0) : tally f (fun _ : ι => x) = 0 :=
  tally_eq_zero_iff.mpr fun _ => hx

/-! ### Counting in lists -/

section OneAt

variable {α : Type*} [DecidableEq α]

/-- `1` at `a` and `0` elsewhere. -/
def oneAt (a b : α) : ℕ := if a = b then 1 else 0

@[simp] theorem oneAt_self (a : α) : oneAt a a = 1 := if_pos rfl

theorem oneAt_le_one (a b : α) : oneAt a b ≤ 1 := by
  unfold oneAt
  split <;> decide

theorem oneAt_of_ne {a b : α} (h : a ≠ b) : oneAt a b = 0 := if_neg h

theorem count_singleton_eq_oneAt (a b : α) : [a].count b = oneAt a b := by
  simp [oneAt, List.count_cons]

theorem count_cons_eq_oneAt (a b : α) (l : List α) : (a :: l).count b = l.count b + oneAt a b := by
  simp [oneAt, List.count_cons]

end OneAt

/-! ### Lists whose elements have different keys -/

/-- What a filter by a key that no two elements share takes out. -/
theorem perm_cons_filter {α β : Type*} [DecidableEq β] {f : α → β} {l : List α} {x : α}
    (hl : (l.map f).Nodup) (hx : x ∈ l) : (x :: l.filter fun y => f y ≠ f x).Perm l := by
  induction l with
  | nil => cases hx
  | cons y l ih =>
    obtain ⟨hy, hl⟩ := List.nodup_cons.mp hl
    rcases List.mem_cons.mp hx with rfl | hx
    · have hkeep : l.filter (fun y => f y ≠ f x) = l := by
        apply List.filter_eq_self.mpr
        intro z hz
        exact decide_eq_true fun heq => hy (heq ▸ List.mem_map_of_mem hz)
      rw [List.filter_cons_of_neg (by simp), hkeep]
    · have hne : f y ≠ f x := fun heq => hy (heq ▸ List.mem_map_of_mem hx)
      rw [List.filter_cons_of_pos (p := fun z => decide (f z ≠ f x)) (decide_eq_true hne)]
      exact (List.Perm.swap y x _).trans ((ih hl hx).cons y)

end Orengine.Lib
