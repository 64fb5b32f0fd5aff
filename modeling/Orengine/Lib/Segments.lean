import Mathlib.Data.List.Basic
import Mathlib.Data.List.Infix

/-!
# The segments of a list

`segments sep l` is what stands between the separators of `l`, without the empty pieces.  Cutting a
list at a separator cuts its segments (`segments_append_cons`), and two lists that part within a
segment have segments that part there too (`PartAt.not_segments_take_isPrefix`).
-/

namespace Orengine.Lib

variable {α : Type*} [DecidableEq α] {sep x y : α} {l m c : List α}

/-- The pieces of a list between the separators that are not empty. -/
def segments (sep : α) (l : List α) : List (List α) := (l.splitOn sep).filter fun s => !s.isEmpty

theorem segments_nil (sep : α) : segments sep [] = [] := by
  rw [segments, List.splitOn_nil]
  rfl

theorem segments_append_cons (sep : α) (l m : List α) :
    segments sep (l ++ sep :: m) = segments sep l ++ segments sep m := by
  unfold segments
  rw [List.splitOn_append_cons_self, List.filter_append]

theorem segments_cons_self (sep : α) (l : List α) : segments sep (sep :: l) = segments sep l := by
  have h := segments_append_cons sep [] l
  rwa [segments_nil] at h

theorem segments_eq_singleton (hl : sep ∉ l) (hne : l ≠ []) : segments sep l = [l] := by
  unfold segments
  rw [List.splitOn_eq_singleton hl, List.filter_singleton, List.isEmpty_eq_false_iff.mpr hne]
  rfl

theorem exists_last_sep (sep : α) (l : List α) :
    sep ∉ l ∨ ∃ u s, l = u ++ sep :: s ∧ sep ∉ s := by
  induction l with
  | nil => exact .inl List.not_mem_nil
  | cons a l ih =>
    rcases ih with hl | ⟨u, s, rfl, hs⟩
    · by_cases ha : a = sep
      · exact .inr ⟨[], l, by rw [ha, List.nil_append], hl⟩
      · exact .inl (List.not_mem_cons_of_ne_of_not_mem (Ne.symm ha) hl)
    · exact .inr ⟨a :: u, s, rfl, hs⟩

theorem exists_first_sep (sep : α) (l : List α) :
    sep ∉ l ∨ ∃ s u, l = s ++ sep :: u ∧ sep ∉ s := by
  by_cases hl : sep ∈ l
  · obtain ⟨s, u, rfl, hs⟩ := List.eq_append_cons_of_mem hl
    exact .inr ⟨s, u, rfl, hs⟩
  · exact .inl hl

/-- The first segment of a list that does not begin with a separator. -/
theorem exists_segments_append (hl : sep ∉ l) (hne : l ≠ []) (m : List α) :
    ∃ m' rest, segments sep (l ++ m) = (l ++ m') :: rest := by
  rcases exists_first_sep sep m with hm | ⟨s, u, rfl, hs⟩
  · refine ⟨m, [], segments_eq_singleton ?_ (List.append_ne_nil_of_left_ne_nil hne m)⟩
    exact List.not_mem_append hl hm
  · refine ⟨s, segments sep u, ?_⟩
    rw [← List.append_assoc, segments_append_cons, segments_eq_singleton (List.not_mem_append hl hs)
      (List.append_ne_nil_of_left_ne_nil hne s)]
    rfl

theorem segments_ne_nil (hx : x ≠ sep) (l : List α) : segments sep (x :: l) ≠ [] := by
  have hmem : sep ∉ [x] := fun h => hx (List.mem_singleton.mp h).symm
  obtain ⟨m', rest, h⟩ := exists_segments_append hmem (List.cons_ne_nil x []) l
  rw [List.singleton_append] at h
  rw [h]
  exact List.cons_ne_nil _ _

/-- A list without separators is cut off, and the segments part at the first one. -/
theorem not_segments_prefix_of_not_mem {a b : List α} (hc : sep ∉ c) (hx : x ≠ sep) (hxy : x ≠ y)
    (hy : y = sep → c ≠ []) : ¬segments sep (c ++ x :: a) <+: segments sep (c ++ y :: b) := by
  have hcons (z : α) (d : List α) : c ++ z :: d = (c ++ [z]) ++ d := by simp
  have hnot {z : α} (hz : z ≠ sep) : sep ∉ c ++ [z] :=
    List.not_mem_append hc fun h => hz (List.mem_singleton.mp h).symm
  have hne (z : α) : c ++ [z] ≠ [] := List.append_ne_nil_of_right_ne_nil c (List.cons_ne_nil z [])
  obtain ⟨a', rest, ha⟩ := exists_segments_append (hnot hx) (hne x) a
  rw [hcons x a, ha]
  by_cases hsep : y = sep
  · rw [hsep, segments_append_cons, segments_eq_singleton hc (hy hsep), List.singleton_append,
      List.cons_prefix_cons]
    rintro ⟨h, -⟩
    have := congrArg List.length h
    simp at this
  · obtain ⟨b', rest', hb⟩ := exists_segments_append (hnot hsep) (hne y) b
    rw [hcons y b, hb, List.cons_prefix_cons]
    rintro ⟨h, -⟩
    simp only [List.append_assoc, List.append_cancel_left_eq, List.singleton_append,
      List.cons.injEq] at h
    exact hxy h.1

theorem not_segments_isPrefix {a b : List α} (hx : x ≠ sep) (hxy : x ≠ y)
    (hy : y = sep → c ≠ [] ∧ c.getLast? ≠ some sep) :
    ¬segments sep (c ++ x :: a) <+: segments sep (c ++ y :: b) := by
  rcases exists_last_sep sep c with hc | ⟨u, s, rfl, hs⟩
  · exact not_segments_prefix_of_not_mem hc hx hxy fun h => (hy h).1
  · -- The segments before the last separator are the same.
    rw [List.append_assoc, List.append_assoc, List.cons_append, List.cons_append,
      segments_append_cons, segments_append_cons, List.prefix_append_right_inj]
    refine not_segments_prefix_of_not_mem hs hx hxy fun h hnil => (hy h).2 ?_
    rw [hnil, List.getLast?_concat]

/-- Two lists part behind `c`, the first one with an element of a segment; if the second one goes on
with a separator, then this ends a segment. -/
def PartAt (sep : α) (c l m : List α) : Prop :=
  ∃ x a y b, l = c ++ x :: a ∧ m = c ++ y :: b ∧ x ≠ sep ∧ x ≠ y ∧
    (y = sep → c ≠ [] ∧ c.getLast? ≠ some sep)

namespace PartAt

omit [DecidableEq α] in
theorem append_left (h : PartAt sep c l m) (u : List α) :
    PartAt sep (u ++ c) (u ++ l) (u ++ m) := by
  obtain ⟨x, a, y, b, rfl, rfl, hx, hxy, hy⟩ := h
  refine ⟨x, a, y, b, (List.append_assoc ..).symm, (List.append_assoc ..).symm, hx, hxy, ?_⟩
  intro h
  obtain ⟨hne, hlast⟩ := hy h
  refine ⟨List.append_ne_nil_of_right_ne_nil u hne, ?_⟩
  rwa [List.getLast?_append_of_ne_nil _ hne]

omit [DecidableEq α] in
/-- Both begin with a separator, or none does. -/
theorem head?_take_eq_iff (h : PartAt sep c l m) {k : ℕ} (hk : c.length < k) :
    (l.take k).head? = some sep ↔ m.head? = some sep := by
  obtain ⟨x, a, y, b, rfl, rfl, hx, -, hy⟩ := h
  obtain ⟨j, rfl⟩ := Nat.exists_eq_add_of_lt hk
  rw [Nat.add_assoc, List.take_length_add_append, List.take_succ_cons]
  cases c with
  | nil =>
    have hy' : y ≠ sep := fun h => (hy h).1 rfl
    exact iff_of_false (fun h => hx (Option.some.inj h)) fun h => hy' (Option.some.inj h)
  | cons z c => exact Iff.rfl

/-- **Where two lists part, their segments do.** -/
theorem not_segments_take_isPrefix (h : PartAt sep c l m) {k : ℕ} (hk : c.length < k) :
    ¬segments sep (l.take k) <+: segments sep m := by
  obtain ⟨x, a, y, b, rfl, rfl, hx, hxy, hy⟩ := h
  obtain ⟨j, rfl⟩ := Nat.exists_eq_add_of_lt hk
  rw [Nat.add_assoc, List.take_length_add_append, List.take_succ_cons]
  exact not_segments_isPrefix hx hxy hy

end PartAt

end Orengine.Lib
