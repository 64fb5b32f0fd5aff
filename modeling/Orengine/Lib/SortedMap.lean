import Mathlib.Data.List.Basic
import Mathlib.Data.List.Perm.Subperm
import Mathlib.Data.List.Range
import Mathlib.Order.Lattice

/-!
# Maps that are sorted by their keys

An ordered map as the list of its entries: that the keys increase strictly is a field of the type,
so that a map has one entry for a key at most and its first entry has the least key.
-/

namespace Orengine.Lib

/-- The entries of a map in the order of their keys. -/
structure SortedMap (κ β : Type*) [LinearOrder κ] where
  entries : List (κ × β)
  sorted : entries.Pairwise fun e f => e.1 < f.1

namespace SortedMap

variable {κ β : Type*} [LinearOrder κ] {m n : SortedMap κ β} {e f : κ × β} {k : κ} {v w : β}

instance : Membership (κ × β) (SortedMap κ β) := ⟨fun m e => e ∈ m.entries⟩

theorem mem_def : e ∈ m ↔ e ∈ m.entries := Iff.rfl

@[ext]
theorem ext (h : m.entries = n.entries) : m = n := by
  obtain ⟨_, _⟩ := m
  obtain ⟨_, _⟩ := n
  congr

theorem value_unique (hv : (k, v) ∈ m) (hw : (k, w) ∈ m) : v = w := by
  by_contra hne
  have : Std.Symm fun e f : κ × β => e.1 ≠ f.1 := ⟨fun _ _ h => h.symm⟩
  have hkeys : m.entries.Pairwise fun e f => e.1 ≠ f.1 := m.sorted.imp fun h => ne_of_lt h
  exact hkeys.forall hv hw (fun h => hne (Prod.mk.inj h).2) rfl

/-- The map without an entry. -/
def empty : SortedMap κ β := ⟨[], List.Pairwise.nil⟩

theorem not_mem_empty (e : κ × β) : e ∉ (empty : SortedMap κ β) := List.not_mem_nil

/-! ### Lookups -/

/-- Whether there is an entry for a key. -/
def contains (m : SortedMap κ β) (k : κ) : Bool := m.entries.any fun e => e.1 = k

theorem contains_iff : m.contains k = true ↔ ∃ v, (k, v) ∈ m := by
  simp [contains, mem_def]

theorem key_ne_of_vacant (h : m.contains k = false) (he : e ∈ m) : e.1 ≠ k := by
  rintro rfl
  rw [contains_iff.mpr ⟨e.2, he⟩] at h
  cases h

/-- Among more consecutive numbers than a map has entries one is vacant. -/
theorem exists_vacant (m : SortedMap ℕ β) (k : ℕ) :
    ∃ j ≤ m.entries.length, m.contains (k + j) = false := by
  by_contra hall
  push Not at hall
  -- Otherwise all of them are keys, and they are more than the entries.
  have hsub : List.range' k (m.entries.length + 1) ⊆ m.entries.map Prod.fst := by
    intro i hi
    obtain ⟨hle, hlt⟩ := List.mem_range'_1.mp hi
    have hocc := hall (i - k) (by omega)
    rw [Nat.add_sub_cancel' hle, ne_eq, Bool.not_eq_false, contains_iff] at hocc
    obtain ⟨v, hv⟩ := hocc
    exact List.mem_map.mpr ⟨(i, v), hv, rfl⟩
  have hlen := ((List.nodup_range' 1).subperm hsub).length_le
  rw [List.length_range', List.length_map] at hlen
  omega

/-- The first vacant key from `k` on, looked for in some number of steps. -/
def vacantFrom (m : SortedMap ℕ β) : ℕ → ℕ → ℕ
  | 0, k => k
  | n + 1, k => if m.contains k then m.vacantFrom n (k + 1) else k

theorem le_vacantFrom (m : SortedMap ℕ β) (n k : ℕ) : k ≤ m.vacantFrom n k := by
  induction n generalizing k with
  | zero => exact Nat.le_refl k
  | succ n ih =>
    rw [vacantFrom]
    split
    · exact Nat.le_of_succ_le (ih (k + 1))
    · exact Nat.le_refl k

theorem vacantFrom_of_vacant {m : SortedMap ℕ β} {n k : ℕ}
    (h : ∃ j ≤ n, m.contains (k + j) = false) : m.contains (m.vacantFrom n k) = false := by
  induction n generalizing k with
  | zero =>
    obtain ⟨j, hj, hvacant⟩ := h
    obtain rfl := Nat.le_zero.mp hj
    exact hvacant
  | succ n ih =>
    rw [vacantFrom]
    split
    case isTrue hoccupied =>
      apply ih
      obtain ⟨j, hj, hvacant⟩ := h
      cases j with
      | zero =>
        rw [Nat.add_zero, hoccupied] at hvacant
        cases hvacant
      | succ j => exact ⟨j, by omega, by rwa [Nat.add_right_comm]⟩
    case isFalse hvacant => exact Bool.eq_false_iff.mpr hvacant

/-- As many steps as there are entries are enough. -/
theorem contains_vacantFrom (m : SortedMap ℕ β) (k : ℕ) :
    m.contains (m.vacantFrom m.entries.length k) = false :=
  vacantFrom_of_vacant (m.exists_vacant k)

/-! ### Insertion -/

theorem sorted_insert (m : SortedMap κ β) (k : κ) (v : β) :
    (m.entries.filter (fun e => e.1 < k) ++ (k, v) :: m.entries.filter (fun e => k < e.1)).Pairwise
      fun e f => e.1 < f.1 := by
  rw [List.pairwise_append, List.pairwise_cons]
  refine ⟨m.sorted.filter _, ⟨fun f hf => ?_, m.sorted.filter _⟩, fun e he f hf => ?_⟩
  · exact of_decide_eq_true (List.mem_filter.mp hf).2
  · have hek : e.1 < k := of_decide_eq_true (List.mem_filter.mp he).2
    rcases List.mem_cons.mp hf with rfl | hf
    · exact hek
    · exact hek.trans (of_decide_eq_true (List.mem_filter.mp hf).2)

/-- Insert an entry; an entry for the key is replaced. -/
def insert (m : SortedMap κ β) (k : κ) (v : β) : SortedMap κ β :=
  ⟨m.entries.filter (fun e => e.1 < k) ++ (k, v) :: m.entries.filter (fun e => k < e.1),
    m.sorted_insert k v⟩

theorem mem_insert : e ∈ m.insert k v ↔ e = (k, v) ∨ e ∈ m ∧ e.1 ≠ k := by
  simp only [mem_def, insert, List.mem_append, List.mem_cons, List.mem_filter, decide_eq_true_eq,
    ne_iff_lt_or_gt]
  tauto

theorem mem_insert_of_vacant (h : m.contains k = false) :
    e ∈ m.insert k v ↔ e = (k, v) ∨ e ∈ m := by
  rw [mem_insert]
  constructor
  · rintro (rfl | ⟨he, -⟩)
    · exact .inl rfl
    · exact .inr he
  · rintro (rfl | he)
    · exact .inl rfl
    · exact .inr ⟨he, key_ne_of_vacant h he⟩

/-! ### Removal -/

/-- Remove the entry for a key. -/
def erase (m : SortedMap κ β) (k : κ) : SortedMap κ β :=
  ⟨m.entries.filter (fun e => e.1 ≠ k), m.sorted.filter _⟩

theorem mem_erase : e ∈ m.erase k ↔ e ∈ m ∧ e.1 ≠ k := by
  simp only [mem_def, erase, List.mem_filter, decide_eq_true_eq]

/-! ### The first entry -/

/-- The first entry and the map without it. -/
def popFirst : SortedMap κ β → Option ((κ × β) × SortedMap κ β)
  | ⟨[], _⟩ => none
  | ⟨e :: l, h⟩ => some (e, ⟨l, h.of_cons⟩)

theorem popFirst_eq_none : m.popFirst = none ↔ m.entries = [] := by
  obtain ⟨l, h⟩ := m
  cases l with
  | nil => exact ⟨fun _ => rfl, fun _ => rfl⟩
  | cons e l => simp [popFirst]

theorem popFirst_eq_some : m.popFirst = some (e, n) ↔ m.entries = e :: n.entries := by
  obtain ⟨l, h⟩ := m
  cases l with
  | nil => simp [popFirst]
  | cons f l =>
    obtain ⟨l', h'⟩ := n
    simp [popFirst]

theorem mem_popFirst (h : m.popFirst = some (e, n)) : f ∈ m ↔ f = e ∨ f ∈ n := by
  rw [mem_def, popFirst_eq_some.mp h, List.mem_cons, mem_def]

theorem lt_of_popFirst (h : m.popFirst = some (e, n)) (hf : f ∈ n) : e.1 < f.1 := by
  have hsorted := m.sorted
  rw [popFirst_eq_some.mp h, List.pairwise_cons] at hsorted
  exact hsorted.1 f hf

theorem not_mem_of_popFirst (h : m.popFirst = some (e, n)) : e ∉ n :=
  fun he => lt_irrefl _ (lt_of_popFirst h he)

/-- What was taken out and is inserted again is where it was. -/
theorem insert_popFirst (h : m.popFirst = some (e, n)) : n.insert e.1 e.2 = m := by
  have hlt : ∀ f ∈ n.entries, e.1 < f.1 := fun f hf => lt_of_popFirst h hf
  have hbefore : n.entries.filter (fun f => f.1 < e.1) = [] := by
    rw [List.filter_eq_nil_iff]
    intro f hf
    simpa using (hlt f hf).le
  have hafter : n.entries.filter (fun f => e.1 < f.1) = n.entries := by
    rw [List.filter_eq_self]
    intro f hf
    simpa using hlt f hf
  ext1
  rw [popFirst_eq_some.mp h]
  show n.entries.filter _ ++ (e.1, e.2) :: n.entries.filter _ = _
  rw [hbefore, hafter, List.nil_append]

end SortedMap

end Orengine.Lib
