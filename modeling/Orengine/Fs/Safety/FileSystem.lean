import Orengine.Fs.DirBuilder

/-!
# `mkdir` and `get_offset`

Where `mkdir` fails and what it makes, and where the search of `get_offset` ends: at the separator
before the last cut, or with an error at a byte that blocks it.
-/

namespace Orengine.Fs

open Orengine.Lib (segments segments_append_cons)

/-! ### The file system -/

namespace FileSystem

variable {fs : FileSystem} {loc : List Name} {path : List UInt8}

theorem node_append_eq_none (h : fs.node loc = none) (l : List Name) :
    fs.node (loc ++ l) = none := by
  induction l using List.reverseRecOn with
  | nil => rwa [List.append_nil]
  | append_singleton l name ih =>
    by_contra hne
    rw [← List.append_assoc] at hne
    rw [fs.parent_dir _ _ hne] at ih
    cases ih

theorem dir_of_isPrefix (h : fs.node loc = some .dir) {l : List Name} (hl : l <+: loc) :
    fs.node l = some .dir := by
  obtain ⟨r, rfl⟩ := hl
  induction r using List.reverseRecOn with
  | nil => rwa [List.append_nil] at h
  | append_singleton r name ih =>
    apply ih
    rw [← List.append_assoc] at h
    refine fs.parent_dir _ name ?_
    rw [h]
    exact Option.some_ne_none _

theorem parent_isPrefix (loc : List Name) : loc.dropLast <+: loc := List.dropLast_prefix loc

theorem node_insert (hnone : fs.node loc = none) (hparent : fs.node loc.dropLast = some .dir)
    (loc' : List Name) :
    (fs.insert loc hnone hparent).node loc' = if loc' = loc then some .dir else fs.node loc' :=
  Function.update_apply ..

theorem node_insert_self (hnone : fs.node loc = none)
    (hparent : fs.node loc.dropLast = some .dir) :
    (fs.insert loc hnone hparent).node loc = some .dir := by
  rw [node_insert, if_pos rfl]

theorem node_insert_below (hnone : fs.node loc = none)
    (hparent : fs.node loc.dropLast = some .dir) {l : List Name} (hl : l ≠ []) :
    (fs.insert loc hnone hparent).node (loc ++ l) = none := by
  rw [node_insert, if_neg (mt List.append_right_eq_self.mp hl)]
  exact node_append_eq_none hnone l

theorem isDir_iff : fs.isDir path = true ↔ fs.node (fs.location path) = some .dir :=
  decide_eq_true_iff

theorem location_append_sep (hne : path ≠ []) (rest : List UInt8) :
    fs.location (path ++ mainSeparator :: rest) =
      fs.location path ++ segments mainSeparator rest := by
  have hhead : (path ++ mainSeparator :: rest).head? = path.head? := by
    rw [List.head?_append_of_ne_nil _ hne]
  rw [location, base, hhead, segments_append_cons, ← List.append_assoc]
  rfl

theorem node_eq_none_of_dropLast (h : fs.node loc.dropLast = none) : fs.node loc = none := by
  rcases List.eq_nil_or_concat loc with rfl | ⟨l, name, rfl⟩
  · exact h
  · rw [List.concat_eq_append, List.dropLast_concat] at h
    rw [List.concat_eq_append]
    exact node_append_eq_none h [name]

theorem mkdir_eq_alreadyExists (hne : path ≠ []) (h : fs.node (fs.location path) ≠ none) :
    fs.mkdir path = .error .alreadyExists := by
  rw [mkdir, if_neg hne, mkdirAt]
  split
  case h_1 => rfl
  case h_2 hnone => exact absurd hnone h

theorem mkdir_eq_notFound (h : fs.node (fs.location path).dropLast = none) :
    fs.mkdir path = .error .notFound := by
  rw [mkdir]
  split
  case isTrue => rfl
  case isFalse =>
    rw [mkdirAt]
    split
    case h_1 hsome =>
      rw [node_eq_none_of_dropLast h] at hsome
      cases hsome
    case h_2 =>
      split
      case h_1 => rfl
      case h_2 hparent => cases h.symm.trans hparent
      case h_3 hparent => cases h.symm.trans hparent

theorem mkdir_eq_ok (hne : path ≠ []) (hnone : fs.node (fs.location path) = none)
    (hparent : fs.node (fs.location path).dropLast = some .dir) :
    fs.mkdir path = .ok (fs.insert (fs.location path) hnone hparent) := by
  rw [mkdir, if_neg hne, mkdirAt]
  split
  case h_1 hsome => cases hnone.symm.trans hsome
  case h_2 =>
    split
    case h_1 h => cases hparent.symm.trans h
    case h_2 h => cases hparent.symm.trans h
    case h_3 => rfl

theorem exists_eq_insert_at {fs' : FileSystem} (h : fs.mkdirAt loc = .ok fs') :
    ∃ hnone hparent, fs' = fs.insert loc hnone hparent := by
  rw [mkdirAt] at h
  split at h
  case h_1 => cases h
  case h_2 hnone =>
    split at h
    case h_1 => cases h
    case h_2 => cases h
    case h_3 hparent => exact ⟨hnone, hparent, (Except.ok.inj h).symm⟩

theorem exists_eq_insert {fs' : FileSystem} (h : fs.mkdir path = .ok fs') :
    ∃ hnone hparent, path ≠ [] ∧ fs' = fs.insert (fs.location path) hnone hparent := by
  rw [mkdir] at h
  split at h
  case isTrue => cases h
  case isFalse hne =>
    obtain ⟨hnone, hparent, rfl⟩ := exists_eq_insert_at h
    exact ⟨hnone, hparent, hne, rfl⟩

/-- What was there is there still. -/
structure Extends (fs fs' : FileSystem) : Prop where
  cwd : fs'.cwd = fs.cwd
  node {loc : List Name} {x : Node} : fs.node loc = some x → fs'.node loc = some x

namespace Extends

variable {fs' : FileSystem}

theorem location (h : Extends fs fs') (path : List UInt8) :
    fs'.location path = fs.location path := by
  rw [FileSystem.location, FileSystem.base, h.cwd]
  rfl

theorem isDir (h : Extends fs fs') (hdir : fs.isDir path = true) : fs'.isDir path = true := by
  rw [isDir_iff] at hdir ⊢
  rw [h.location]
  exact h.node hdir

theorem of_mkdir (h : fs.mkdir path = .ok fs') : Extends fs fs' := by
  obtain ⟨hnone, hparent, -, rfl⟩ := exists_eq_insert h
  exact ⟨rfl, update_eq_some hnone⟩

end Extends

end FileSystem

/-! ### `get_offset` -/

section Search

variable {bytes : List UInt8} {i : ℕ}

theorem search_of_blocked (hlt : i < bytes.length) (h : isBlocked bytes i = true) :
    search bytes i = .err := by
  unfold search
  rw [if_neg (Nat.not_le.mpr hlt), if_pos h]

theorem search_of_sep (hlt : i < bytes.length) (hfree : isBlocked bytes i = false)
    (hsep : bytes[i]? = some mainSeparator) : search bytes i = .ok i := by
  unfold search
  rw [if_neg (Nat.not_le.mpr hlt), if_neg (Bool.eq_false_iff.mp hfree), if_pos hsep]

theorem search_succ (hlt : i + 1 < bytes.length) (hfree : isBlocked bytes (i + 1) = false)
    (hother : bytes[i + 1]? ≠ some mainSeparator) : search bytes (i + 1) = search bytes i := by
  rw [search, if_neg (Nat.not_le.mpr hlt), if_neg (Bool.eq_false_iff.mp hfree), if_neg hother]

/-- The loop of `get_offset` goes back to a separator, if nothing blocks it on the way. -/
theorem search_eq_ok (j : ℕ) (hlt : i + j < bytes.length) (hsep : bytes[i]? = some mainSeparator)
    (hother : ∀ k, i < k → k ≤ i + j → bytes[k]? ≠ some mainSeparator)
    (hfree : ∀ k, i ≤ k → k ≤ i + j → isBlocked bytes k = false) :
    search bytes (i + j) = .ok i := by
  induction j with
  | zero => exact search_of_sep hlt (hfree i (Nat.le_refl i) (Nat.le_refl i)) hsep
  | succ j ih =>
    have hnext := hfree (i + j + 1) (by omega) (by omega)
    rw [← Nat.add_assoc] at hlt ⊢
    rw [search_succ hlt hnext (hother _ (by omega) (by omega))]
    exact ih (by omega) (fun k h h' => hother k h (by omega)) fun k h h' => hfree k h (by omega)

theorem search_eq_err (j : ℕ) (hlt : i + j < bytes.length)
    (hother : ∀ k, i < k → k ≤ i + j → bytes[k]? ≠ some mainSeparator) {k : ℕ} (hik : i ≤ k)
    (hkj : k ≤ i + j) (hblocked : isBlocked bytes k = true) : search bytes (i + j) = .err := by
  induction j with
  | zero =>
    obtain rfl : k = i := by omega
    exact search_of_blocked hlt hblocked
  | succ j ih =>
    cases hnext : isBlocked bytes (i + j + 1) with
    | true => exact search_of_blocked hlt hnext
    | false =>
      have hne : k ≠ i + j + 1 := by
        rintro rfl
        exact Bool.false_ne_true (hnext.symm.trans hblocked)
      rw [← Nat.add_assoc] at hlt ⊢
      rw [search_succ hlt hnext (hother _ (by omega) (by omega))]
      exact ih (by omega) (fun k h h' => hother k h (by omega)) (by omega)

end Search

/-- The indices of the separators, from an index on. -/
def separators (i : ℕ) : List UInt8 → List ℕ
  | [] => []
  | b :: rest => if b = mainSeparator then i :: separators (i + 1) rest else separators (i + 1) rest

theorem separators_append {s : List UInt8} (hs : mainSeparator ∉ s) (i : ℕ) (rest : List UInt8) :
    separators i (s ++ rest) = separators (i + s.length) rest := by
  induction s generalizing i with
  | nil => rfl
  | cons b s ih =>
    obtain ⟨hb, hs⟩ := List.ne_and_not_mem_of_not_mem_cons hs
    rw [List.cons_append, separators, if_neg (Ne.symm hb), ih hs, List.length_cons]
    congr 1
    omega

theorem separators_cons_self (i : ℕ) (rest : List UInt8) :
    separators i (mainSeparator :: rest) = i :: separators (i + 1) rest := if_pos rfl

theorem separators_eq_nil {s : List UInt8} (hs : mainSeparator ∉ s) (i : ℕ) :
    separators i s = [] := by
  have h := separators_append hs i []
  rwa [List.append_nil] at h

theorem getOffset_separators {front rest : List UInt8} (hne : front ≠ [])
    (hrest : rest = [] ∨ rest.head? = some mainSeparator) :
    getOffset (separators front.length rest) (front ++ rest) =
      search (front ++ rest) (front.length - 1) := by
  have hpos : front.length ≠ 0 := mt List.length_eq_zero_iff.mp hne
  cases rest with
  | nil => rw [List.append_nil, separators, getOffset, if_neg hpos]
  | cons b rest =>
    have hb : b = mainSeparator := Option.some.inj (hrest.resolve_left (List.cons_ne_nil b rest))
    rw [hb, separators_cons_self, getOffset, if_neg hpos]

section Back

variable {a s rest : List UInt8}

theorem getElem?_split_sep (a s : List UInt8) :
    (a ++ mainSeparator :: s)[a.length]? = some mainSeparator := by
  rw [List.getElem?_append_right (Nat.le_refl _), Nat.sub_self]
  rfl

theorem getElem?_split_ne (hs : mainSeparator ∉ s) (rest : List UInt8) (k : ℕ) (hak : a.length < k)
    (hk : k ≤ a.length + s.length) :
    (a ++ mainSeparator :: (s ++ rest))[k]? ≠ some mainSeparator := by
  obtain ⟨j, rfl⟩ := Nat.exists_eq_add_of_lt hak
  rw [List.getElem?_append_right (by omega)]
  have hj : a.length + j + 1 - a.length = j + 1 := by omega
  rw [hj, List.getElem?_cons_succ, List.getElem?_append_left (by omega)]
  exact fun h => hs (List.mem_of_getElem? h)

theorem getOffset_split (hrest : rest = [] ∨ rest.head? = some mainSeparator) :
    getOffset (separators (a ++ mainSeparator :: s).length rest)
      (a ++ mainSeparator :: (s ++ rest)) =
      search (a ++ mainSeparator :: (s ++ rest)) (a.length + s.length) := by
  have hne : a ++ mainSeparator :: s ≠ [] :=
    List.append_ne_nil_of_right_ne_nil a (List.cons_ne_nil mainSeparator s)
  have hlength : (a ++ mainSeparator :: s).length - 1 = a.length + s.length := by
    rw [List.length_append, List.length_cons]
    omega
  have h := getOffset_separators hne hrest
  rwa [List.append_assoc, List.cons_append, hlength] at h

/-- `get_offset` finds the separator before the last cut. -/
theorem getOffset_eq_ok (hs : mainSeparator ∉ s)
    (hrest : rest = [] ∨ rest.head? = some mainSeparator)
    (hfree : ∀ k, a.length ≤ k → k ≤ a.length + s.length →
      isBlocked (a ++ mainSeparator :: (s ++ rest)) k = false) :
    getOffset (separators (a ++ mainSeparator :: s).length rest)
      (a ++ mainSeparator :: (s ++ rest)) = .ok a.length := by
  rw [getOffset_split hrest]
  refine search_eq_ok s.length ?_ (getElem?_split_sep a _) (getElem?_split_ne hs rest) hfree
  simp only [List.length_append, List.length_cons]
  omega

theorem getOffset_eq_err (hs : mainSeparator ∉ s)
    (hrest : rest = [] ∨ rest.head? = some mainSeparator) {k : ℕ} (hak : a.length ≤ k)
    (hk : k ≤ a.length + s.length)
    (hblocked : isBlocked (a ++ mainSeparator :: (s ++ rest)) k = true) :
    getOffset (separators (a ++ mainSeparator :: s).length rest)
      (a ++ mainSeparator :: (s ++ rest)) = .err := by
  rw [getOffset_split hrest]
  refine search_eq_err s.length ?_ (getElem?_split_ne hs rest) hak hk hblocked
  simp only [List.length_append, List.length_cons]
  omega

end Back

end Orengine.Fs
