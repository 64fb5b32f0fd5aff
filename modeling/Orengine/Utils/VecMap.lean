import Mathlib.Data.List.Basic

/-!
# `VecMap`

A map from `usize` keys that assumes that its keys are close to each other: a vector with holes.
The lemmas on `get` say how lookups see the operations.
-/

namespace Orengine.Utils

structure VecMap (V : Type*) where
  inner : List (Option V)

namespace VecMap

variable {V : Type*}

def new : VecMap V := ⟨[]⟩

/-- The value that `get_mut` gives access to. -/
def get (m : VecMap V) (key : ℕ) : Option V := m.inner[key]?.join

/-- `insert`: the map and the previous value. -/
def insert (m : VecMap V) (key : ℕ) (value : V) : VecMap V × Option V :=
  let newLen := max (key + 1) (m.inner.length * 12 / 10)
  let inner :=
    if m.inner.length ≤ key then m.inner ++ List.replicate (newLen - m.inner.length) none
    else m.inner
  (⟨inner.set key (some value)⟩, inner[key]?.join)

def clear (_ : VecMap V) : VecMap V := ⟨[]⟩

def iter (m : VecMap V) : List (ℕ × V) :=
  m.inner.zipIdx.filterMap fun p => p.1.map fun v => (p.2, v)

/-- The keys in the order of `iter`. -/
def keys (m : VecMap V) : List ℕ := m.iter.map Prod.fst

def retain (m : VecMap V) (f : ℕ → V → Bool) : VecMap V :=
  ⟨m.inner.mapIdx fun i v => v.filter (f i)⟩

/-- A write to the value that `get_mut` gives access to. -/
def modify (m : VecMap V) (key : ℕ) (f : V → V) : VecMap V :=
  ⟨m.inner.modify key (Option.map f)⟩

/-- `iter_mut`: the pairs, and the map after each value was written to. -/
def iterMut (m : VecMap V) (f : ℕ → V → V) : List (ℕ × V) × VecMap V :=
  (m.iter, ⟨m.inner.mapIdx fun i v => v.map (f i)⟩)

theorem get_insert (m : VecMap V) (key : ℕ) (value : V) (k : ℕ) :
    (m.insert key value).1.get k = if k = key then some value else m.get k := by
  -- The vector is long enough for the key, and what was appended to it are holes.
  have hlen : key < (if m.inner.length ≤ key then
      m.inner ++ List.replicate (max (key + 1) (m.inner.length * 12 / 10) - m.inner.length) none
      else m.inner).length := by
    split
    · rw [List.length_append, List.length_replicate]
      omega
    · omega
  by_cases hk : k = key
  · subst hk
    simp [insert, get, List.getElem?_set_self hlen]
  · rw [if_neg hk]
    simp only [insert, get, List.getElem?_set_ne (Ne.symm hk)]
    split
    · rw [List.getElem?_append]
      split
      · rfl
      case isFalse hge =>
        rw [List.getElem?_replicate, List.getElem?_eq_none (by omega)]
        split <;> rfl
    · rfl

theorem insert_snd (m : VecMap V) (key : ℕ) (value : V) : (m.insert key value).2 = m.get key := by
  simp only [insert, get]
  split
  · rw [List.getElem?_append_right (by assumption), List.getElem?_replicate,
      List.getElem?_eq_none (by assumption)]
    split <;> rfl
  · rfl

theorem get_clear (m : VecMap V) (k : ℕ) : m.clear.get k = none := rfl

theorem get_retain (m : VecMap V) (f : ℕ → V → Bool) (k : ℕ) :
    (m.retain f).get k = (m.get k).filter (f k) := by
  simp only [retain, get, List.getElem?_mapIdx]
  cases m.inner[k]? with
  | none => rfl
  | some v => rfl

theorem get_modify (m : VecMap V) (key : ℕ) (f : V → V) (k : ℕ) :
    (m.modify key f).get k = if k = key then (m.get k).map f else m.get k := by
  simp only [modify, get, List.getElem?_modify]
  by_cases hk : k = key
  · rw [if_pos hk]
    cases m.inner[k]? with
    | none => rfl
    | some v => simp [hk]
  · rw [if_neg hk]
    cases m.inner[k]? with
    | none => rfl
    | some v => simp [Ne.symm hk]

theorem get_iterMut (m : VecMap V) (f : ℕ → V → V) (k : ℕ) :
    (m.iterMut f).2.get k = (m.get k).map (f k) := by
  simp only [iterMut, get, List.getElem?_mapIdx]
  cases m.inner[k]? with
  | none => rfl
  | some v => rfl

theorem mem_iter {m : VecMap V} {k : ℕ} {v : V} : (k, v) ∈ m.iter ↔ m.get k = some v := by
  simp only [iter, get, List.mem_filterMap, Prod.exists, List.mem_zipIdx_iff_getElem?,
    Option.map_eq_some_iff, Prod.mk.injEq]
  constructor
  · rintro ⟨o, i, ho, w, rfl, rfl, rfl⟩
    rw [ho]
    rfl
  · intro h
    refine ⟨some v, k, ?_, v, rfl, rfl, rfl⟩
    cases ho : m.inner[k]? with
    | none => simp [ho] at h
    | some o =>
      rw [ho] at h
      exact congrArg some h

theorem mem_keys {m : VecMap V} {k : ℕ} : k ∈ m.keys ↔ (m.get k).isSome := by
  simp only [keys, List.mem_map, Prod.exists, exists_and_right, exists_eq_right, mem_iter,
    Option.isSome_iff_exists]

/-- A map after a value was inserted for every key of a list. -/
theorem get_foldl_insert (value : ℕ → V) (l : List ℕ) (m : VecMap V) (k : ℕ) :
    (l.foldl (fun m key => (m.insert key (value key)).1) m).get k =
      if k ∈ l then some (value k) else m.get k := by
  induction l generalizing m with
  | nil => simp
  | cons key l ih =>
    rw [List.foldl_cons, ih, get_insert]
    by_cases hl : k ∈ l
    · simp [hl]
    · by_cases hk : k = key
      · simp [hk]
      · simp [hl, hk]

theorem keys_pairwise (m : VecMap V) : m.keys.Pairwise (· < ·) := by
  have hsublist : m.keys.Sublist (m.inner.zipIdx.map Prod.snd) := by
    simp only [keys, iter, List.map_filterMap]
    induction m.inner.zipIdx with
    | nil => exact List.Sublist.slnil
    | cons p l ih =>
      obtain ⟨o, i⟩ := p
      cases o with
      | none => exact ih.cons i
      | some v => exact ih.cons_cons i
  refine List.Pairwise.sublist hsublist ?_
  rw [List.zipIdx_map_snd]
  exact List.pairwise_lt_range'

theorem keys_nodup (m : VecMap V) : m.keys.Nodup :=
  m.keys_pairwise.imp fun h => Nat.ne_of_lt h

end VecMap

end Orengine.Utils
