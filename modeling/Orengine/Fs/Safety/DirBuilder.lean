import Orengine.Fs.Safety.CreateDirAll

/-!
# `create` makes the missing directories

`creates_iff` says for which paths `create` with `recursive` does what it is for (`Creates`).  When
more than the last directory is missing, these are the paths that are `Plain` behind the first
missing one.
-/

namespace Orengine.Fs

open Orengine.Lib (segments segments_eq_singleton segments_nil segments_cons_self exists_last_sep)
open Orengine.Lib.Utf8 (toStringLossy prefix_or_partAt)

/-- **What `create` is for.**  It ends with `Ok`, every prefix of the path is a directory then, and
`mkdir` has succeeded once at each prefix that was missing, and nowhere else. -/
def Creates (b : DirBuilder) (fs : FileSystem) (path : List UInt8) : Prop :=
  ∃ fuel l, b.create fuel fs path = some (.ok, l) ∧
    (∀ loc, loc <+: fs.location path → l.fs.node loc = some .dir) ∧
    ∀ loc, (l.created.map Prod.fst).count loc =
      if loc <+: fs.location path ∧ fs.node loc = none then 1 else 0

section Creates

open Loop

variable {b : DirBuilder} {fs : FileSystem} {path : List UInt8}

/-- It is enough that the loop ends with `Ok` and made no other directories. -/
theorem creates_iff_runs (hb : b.recursive = true) (hne : path ≠ []) :
    Creates b fs path ↔ ∃ l, Runs path b.mode (start fs path b.mode) (.ok, l) ∧
      ∀ loc ∈ l.places, loc <+: fs.location path := by
  have hcreate (fuel : ℕ) :
      b.create fuel fs path = run path b.mode fuel (start fs path b.mode) := by
    rw [DirBuilder.create, if_pos hb, createDirAll, if_neg hne]
  constructor
  · rintro ⟨fuel, l, hfuel, -, hcount⟩
    refine ⟨l, ⟨fuel, hcreate fuel ▸ hfuel⟩, fun loc hloc => ?_⟩
    have hpos := List.count_pos_iff.mpr hloc
    by_contra hnot
    rw [places, hcount, if_neg fun h => hnot h.1] at hpos
    cases hpos
  · rintro ⟨l, hruns, hplaces⟩
    obtain ⟨hledger, hdir⟩ := ledger_of_runs hruns
    have hpre (loc : List Name) (hloc : loc <+: fs.location path) :
        l.fs.node loc = some .dir := by
      have hpath := FileSystem.isDir_iff.mp (hdir rfl)
      rw [hledger.location] at hpath
      exact FileSystem.dir_of_isPrefix hpath hloc
    obtain ⟨fuel, hfuel⟩ := hruns
    refine ⟨fuel, l, (hcreate fuel).trans hfuel, hpre, fun loc => ?_⟩
    show l.places.count loc = _
    split
    case isTrue h =>
      -- It is a directory now, and only what was made has changed.
      refine List.count_eq_one_of_mem hledger.nodup ?_
      by_contra hnot
      have hnode := hpre loc h.1
      rw [hledger.node, if_neg hnot, h.2] at hnode
      cases hnode
    case isFalse h =>
      refine List.count_eq_zero.mpr fun hloc => h ⟨hplaces loc hloc, hledger.missing loc hloc⟩

end Creates

/-- Where `path_string` leads to a prefix of the path, it is the path up to there. -/
theorem prefix_toStringLossy {fs : FileSystem} {path front rest : List UInt8}
    (hpath : path = front ++ mainSeparator :: rest)
    (hloc : fs.location ((toStringLossy path).take front.length) <+: fs.location path) :
    front <+: toStringLossy path := by
  have hsep : mainSeparator < 0x80 := by decide
  have hfront : front <+: path := hpath ▸ List.prefix_append ..
  rcases prefix_or_partAt hsep path with hpre | ⟨c, hpart⟩
  · exact hfront.trans hpre
  · rcases Nat.lt_or_ge c.length front.length with hlt | hge
    · refine absurd ?_ (hpart.not_segments_take_isPrefix hlt)
      have hbase : fs.base ((toStringLossy path).take front.length) = fs.base path := by
        simp only [FileSystem.base, hpart.head?_take_eq_iff hlt]
      rw [FileSystem.location, FileSystem.location, hbase] at hloc
      exact (List.prefix_append_right_inj _).mp hloc
    · obtain ⟨x, a, y, b, hlossy, hpath', -⟩ := hpart
      have hc : c <+: path := hpath' ▸ List.prefix_append ..
      have hc' : c <+: toStringLossy path := hlossy ▸ List.prefix_append ..
      exact (List.prefix_of_prefix_length_le hfront hc hge).trans hc'

/-! ### The condition -/

/-- `front` is the path up to the first missing directory, with all separators that stand together
behind it but the last one; that one and another component follow. -/
structure Tail (fs : FileSystem) (path front rest : List UInt8) : Prop where
  path_eq : path = front ++ mainSeparator :: rest
  first : Loop.FirstMissing fs front
  ne_nil : rest ≠ []
  head : rest.head? ≠ some mainSeparator

/-- The search of `get_offset` comes back to `front`, and the cuts on the way are right. -/
structure Plain (path front rest : List UInt8) : Prop where
  /-- The first component is not a single byte in front of the separator. -/
  long : front.length ≠ 1
  colon : colon ∉ rest
  /-- No component ends with a dot. -/
  dotSep : ¬[dot, mainSeparator] <:+: rest
  dotEnd : rest.getLast? ≠ some dot
  /-- No separators stand together. -/
  once : ¬[mainSeparator, mainSeparator] <:+: rest
  /-- `to_string_lossy` replaces nothing in front of the last separator. -/
  utf8 (a b : List UInt8) : path = a ++ mainSeparator :: b → mainSeparator ∉ b →
    a <+: toStringLossy path

section Blocked

variable {front rest : List UInt8}

theorem isBlocked_sep (front rest : List UInt8) :
    isBlocked (front ++ mainSeparator :: rest) front.length = (front.length == 1) := by
  have hbyte := getElem?_split_sep front rest
  unfold isBlocked
  rw [hbyte]
  cases front.length == 1 <;> rfl

theorem isBlocked_rest (hne : front ≠ []) (i : ℕ) :
    isBlocked (front ++ mainSeparator :: rest) (front.length + (i + 1)) = true ↔
      rest[i]? = some colon ∨
        rest[i]? = some dot ∧ (i + 1 = rest.length ∨ rest[i + 1]? = some mainSeparator) := by
  have hbyte (j : ℕ) : (front ++ mainSeparator :: rest)[front.length + (j + 1)]? = rest[j]? := by
    rw [List.getElem?_append_right (Nat.le_add_right ..), Nat.add_sub_cancel_left,
      List.getElem?_cons_succ]
  have hpos := List.length_pos_iff.mpr hne
  have hindex : (front.length + (i + 1) == 1) = false := by
    rw [beq_eq_false_iff_ne]
    omega
  have hend : (front.length + (i + 1) + 1 == (front ++ mainSeparator :: rest).length) =
      (i + 1 == rest.length) := by
    rw [Bool.eq_iff_iff, beq_iff_eq, beq_iff_eq, List.length_append, List.length_cons]
    omega
  unfold isBlocked
  rw [hend, hbyte, hindex, Nat.add_assoc front.length (i + 1) 1, hbyte]
  have hne : colon ≠ dot := by decide
  by_cases hdot : rest[i]? = some dot
  · simp [hdot, Ne.symm hne]
  · simp [hdot]

theorem pair_infix_iff {x y : UInt8} {l : List UInt8} :
    [x, y] <:+: l ↔ ∃ i, l[i]? = some x ∧ l[i + 1]? = some y := by
  constructor
  · rintro ⟨a, b, rfl⟩
    refine ⟨a.length, ?_, ?_⟩ <;> simp
  · rintro ⟨i, hx, hy⟩
    obtain ⟨hlt, -⟩ := List.getElem?_eq_some_iff.mp hy
    refine List.infix_iff_getElem?.mpr ⟨i, ?_, fun j hj => ?_⟩
    · show 2 + i ≤ l.length
      omega
    · match j, hj with
      | 0, _ => rwa [Nat.zero_add]
      | 1, _ => rwa [Nat.add_comm]

/-- **Nothing blocks the search** exactly if the path is as `Plain` says. -/
theorem free_iff (hne : front ≠ []) :
    Loop.Free (front ++ mainSeparator :: rest) front rest ↔
      front.length ≠ 1 ∧ colon ∉ rest ∧ ¬[dot, mainSeparator] <:+: rest ∧
        rest.getLast? ≠ some dot := by
  constructor
  · intro hfree
    have hfront := hfree front.length (Nat.le_refl _) (Nat.le_add_right ..)
    rw [isBlocked_sep, beq_eq_false_iff_ne] at hfront
    have hrest {i : ℕ} {b : UInt8} (hi : rest[i]? = some b)
        (hblocked : rest[i]? = some colon ∨
          rest[i]? = some dot ∧ (i + 1 = rest.length ∨ rest[i + 1]? = some mainSeparator)) :
        False := by
      obtain ⟨hlt, -⟩ := List.getElem?_eq_some_iff.mp hi
      have h := hfree (front.length + (i + 1)) (by omega) (by omega)
      rw [(isBlocked_rest hne i).mpr hblocked] at h
      cases h
    refine ⟨hfront, fun hmem => ?_, fun hin => ?_, fun hlast => ?_⟩
    · obtain ⟨i, hi⟩ := List.mem_iff_getElem?.mp hmem
      exact hrest hi (.inl hi)
    · obtain ⟨i, hdot, hsep⟩ := pair_infix_iff.mp hin
      exact hrest hdot (.inr ⟨hdot, .inr hsep⟩)
    · rw [List.getLast?_eq_getElem?] at hlast
      obtain ⟨hlt, -⟩ := List.getElem?_eq_some_iff.mp hlast
      exact hrest hlast (.inr ⟨hlast, .inl (by omega)⟩)
  · rintro ⟨hlong, hcolon, hdotSep, hdotEnd⟩ k hk hk'
    rcases Nat.eq_or_lt_of_le hk with rfl | hlt
    · rwa [isBlocked_sep, beq_eq_false_iff_ne]
    · obtain ⟨i, rfl⟩ := Nat.exists_eq_add_of_lt hlt
      rw [Nat.add_assoc, Bool.eq_false_iff]
      intro hblocked
      rcases (isBlocked_rest hne i).mp hblocked with hi | ⟨hi, hend | hsep⟩
      · exact hcolon (List.mem_of_getElem? hi)
      · refine hdotEnd ?_
        rw [List.getLast?_eq_getElem?, ← hend, Nat.add_sub_cancel]
        exact hi
      · exact hdotSep (pair_infix_iff.mpr ⟨i, hi, hsep⟩)

end Blocked

theorem Tail.append {fs : FileSystem} {path front rest : List UInt8} (h : Tail fs path front rest)
    (l : List UInt8) : Tail fs (path ++ l) front (rest ++ l) := by
  refine ⟨?_, h.first, List.append_ne_nil_of_left_ne_nil h.ne_nil l, ?_⟩
  · rw [h.path_eq, List.append_assoc, List.cons_append]
  · rw [List.head?_append_of_ne_nil _ h.ne_nil]
    exact h.head

theorem FileSystem.base_dir (fs : FileSystem) (path : List UInt8) :
    fs.node (fs.base path) = some .dir := by
  unfold FileSystem.base
  split
  case isTrue => exact fs.root_dir
  case isFalse => exact fs.cwd_dir

/-- A path without separators, but perhaps one in front, is not below a missing directory. -/
theorem parent_of_not_mem {fs : FileSystem} {path s : List UInt8} (hs : mainSeparator ∉ s)
    (hsegments : segments mainSeparator path = segments mainSeparator s) :
    fs.node (fs.location path).dropLast ≠ none := by
  rw [FileSystem.location, hsegments]
  by_cases hnil : s = []
  · rw [hnil, segments_nil, List.append_nil]
    rw [FileSystem.dir_of_isPrefix (fs.base_dir path) (FileSystem.parent_isPrefix _)]
    exact Option.some_ne_none _
  · rw [segments_eq_singleton hs hnil, List.dropLast_concat, fs.base_dir]
    exact Option.some_ne_none _

/-- A path below a missing directory has a first missing one. -/
theorem exists_tail {fs : FileSystem} {path : List UInt8}
    (hdirs : ∀ loc, loc <+: fs.location path → ∀ x, fs.node loc = some x → x = .dir)
    (hparent : fs.node (fs.location path).dropLast = none) :
    ∃ front rest, Tail fs path front rest := by
  induction hlength : path.length using Nat.strongRecOn generalizing path with
  | ind n ih =>
    subst hlength
    rcases exists_last_sep mainSeparator path with hpath | ⟨u, s, rfl, hs⟩
    · exact absurd hparent (parent_of_not_mem hpath rfl)
    · by_cases hu : u = []
      · refine absurd hparent (parent_of_not_mem hs ?_)
        rw [hu, List.nil_append, segments_cons_self]
      · have hlt : u.length < (u ++ mainSeparator :: s).length := by
          rw [List.length_append, List.length_cons]
          omega
        have hloc : fs.location (u ++ mainSeparator :: s) =
            fs.location u ++ segments mainSeparator s := FileSystem.location_append_sep hu s
        have hdirs' (loc : List Name) (hpre : loc <+: fs.location u) :
            ∀ x, fs.node loc = some x → x = .dir :=
          hdirs loc (hpre.trans (hloc ▸ List.prefix_append ..))
        by_cases hparent' : fs.node (fs.location u).dropLast = none
        · obtain ⟨front, rest, htail⟩ := ih u.length hlt hdirs' hparent' rfl
          exact ⟨front, rest ++ mainSeparator :: s, htail.append _⟩
        · -- `u` has a directory above, so what is missing is `u` itself.
          have hnil : s ≠ [] := by
            rintro rfl
            rw [hloc, segments_nil, List.append_nil] at hparent
            exact hparent' hparent
          rw [hloc, segments_eq_singleton hs hnil, List.dropLast_concat] at hparent
          obtain ⟨x, hx⟩ := Option.ne_none_iff_exists'.mp hparent'
          obtain rfl := hdirs' _ (FileSystem.parent_isPrefix _) x hx
          refine ⟨u, s, rfl, ⟨hu, hparent, hx⟩, hnil, fun hhead => hs ?_⟩
          exact List.mem_of_head? hhead

/-- `path_string` is the path up to each separator, if it is up to the last one. -/
theorem faithful_of_utf8 {path : List UInt8}
    (h : ∀ a b, path = a ++ mainSeparator :: b → mainSeparator ∉ b → a <+: toStringLossy path) :
    Loop.Faithful path := by
  intro a b hpath
  refine (List.prefix_iff_eq_take.mp ?_).symm
  rcases exists_last_sep mainSeparator b with hb | ⟨u, s, rfl, hs⟩
  · exact h a b hpath hb
  · have hpath' : path = (a ++ mainSeparator :: u) ++ mainSeparator :: s := by
      rw [hpath]
      simp
    exact (List.prefix_append ..).trans (h _ s hpath' hs)

/-- A path with components that are names. -/
structure UnixPath (path : List UInt8) : Prop where
  ne_nil : path ≠ []
  noNul : 0 ∉ path
  noDots : ∀ name ∈ segments mainSeparator path, name ≠ [dot] ∧ name ≠ [dot, dot]

section Conditions

open Loop

variable {mode : UInt32} {fs : FileSystem} {path front rest : List UInt8} {l : Loop FileSystem}

/-- The loop begins with the whole path, which is below a missing directory. -/
theorem Tail.mkdir_eq (h : Tail fs path front rest) : fs.mkdir path = .error .notFound := by
  rw [h.path_eq]
  exact mkdir_below h.first.ne_nil h.first.missing h.ne_nil h.head

/-- The first cut is right when the loop ends with `Ok` and made only prefixes of the path. -/
theorem utf8_of_runs (hnul : 0 ∉ path) (htail : Tail fs path front rest)
    (hruns : Runs path mode (start fs path mode) (.ok, l))
    (hplaces : ∀ loc ∈ l.places, loc <+: fs.location path) {a b : List UInt8}
    (hpath : path = a ++ mainSeparator :: b) (hb : mainSeparator ∉ b) :
    a <+: toStringLossy path := by
  have hmkdir := htail.mkdir_eq
  have hruns' : Runs path mode (cutAt fs (a ++ mainSeparator :: b) mode [] []) (.ok, l) := by
    rw [← hpath]
    exact hruns
  rw [hpath] at hmkdir
  have hpath' : path = a ++ mainSeparator :: (b ++ []) := by rw [List.append_nil, hpath]
  have hsegment : Segment path fs a b [] := ⟨hpath', hb, .inl rfl, hmkdir⟩
  by_cases hfree : Free path a b
  · rw [runs_iff_of_none (hsegment.round_back hnul hfree)] at hruns'
    refine prefix_toStringLossy hpath (hplaces _ (mem_places_of_bottom ?_ ?_ hruns'))
    · exact (ledger_start fs path mode).same ⟨rfl, rfl⟩
    · have hstack : separators a.length (mainSeparator :: (b ++ [])) = [a.length] := by
        rw [separators_cons_self, List.append_nil, separators_eq_nil hb]
      refine ⟨?_, fun _ => rfl⟩
      show (separators a.length (mainSeparator :: (b ++ []))).getLast? = some a.length
      rw [hstack, List.getLast?_singleton]
  · rw [runs_iff_of_some (hsegment.round_back_err hnul hfree)] at hruns'
    cases hruns'

/-- The way back from the whole path. -/
theorem runs_start_iff (hnul : 0 ∉ path) (hfaithful : Faithful path)
    (htail : Tail fs path front rest) :
    Runs path mode (start fs path mode) (.ok, l) ↔
      (front.length ≠ 1 ∧ colon ∉ rest ∧ ¬[dot, mainSeparator] <:+: rest ∧
        rest.getLast? ≠ some dot) ∧
      Runs path mode (cutAt fs front 0o777 (mainSeparator :: rest) []) (.ok, l) := by
  have hpath' : path = front ++ mainSeparator :: (rest ++ []) := by
    rw [List.append_nil, htail.path_eq]
  have hstart : Runs path mode (start fs path mode) (.ok, l) ↔
      Runs path mode (cutAt fs (front ++ mainSeparator :: rest) mode [] []) (.ok, l) ∧
        (Outcome.ok, l).1 = .ok := by
    rw [← htail.path_eq]
    exact (and_iff_left rfl).symm
  rw [hstart, runs_back hnul hfaithful htail.first.ne_nil htail.first.missing hpath' htail.ne_nil
    htail.head (.inl rfl), List.append_nil, and_iff_left rfl]
  refine and_congr_left' ?_
  rw [htail.path_eq]
  exact free_iff htail.first.ne_nil

theorem plain_of_runs (hnul : 0 ∉ path) (htail : Tail fs path front rest)
    (hruns : Runs path mode (start fs path mode) (.ok, l))
    (hplaces : ∀ loc ∈ l.places, loc <+: fs.location path) : Plain path front rest := by
  have hutf8 (a b : List UInt8) (hpath : path = a ++ mainSeparator :: b)
      (hb : mainSeparator ∉ b) : a <+: toStringLossy path :=
    utf8_of_runs hnul htail hruns hplaces hpath hb
  have hfaithful := faithful_of_utf8 hutf8
  obtain ⟨⟨hlong, hcolon, hdotSep, hdotEnd⟩, hforward⟩ :=
    (runs_start_iff hnul hfaithful htail).mp hruns
  refine ⟨hlong, hcolon, hdotSep, hdotEnd, fun htwice => ?_, hutf8⟩
  exact not_runs_forward hnul hfaithful htail.first htail.path_eq
    (List.infix_cons_iff.mpr (.inr htwice)) hforward

theorem runs_of_plain (hnul : 0 ∉ path) (htail : Tail fs path front rest)
    (hplain : Plain path front rest) :
    ∃ l, Runs path mode (start fs path mode) (.ok, l) ∧
      ∀ loc ∈ l.places, loc <+: fs.location path := by
  have hfaithful := faithful_of_utf8 hplain.utf8
  have honce : ¬[mainSeparator, mainSeparator] <:+: mainSeparator :: rest := by
    intro htwice
    rcases List.infix_cons_iff.mp htwice with hpre | hin
    · obtain ⟨rest', rfl⟩ := (List.cons_prefix_cons.mp hpre).2
      exact htail.head rfl
    · exact hplain.once hin
  obtain ⟨l, hruns, hplaces⟩ := runs_forward hnul hfaithful htail.first htail.path_eq honce
  refine ⟨l, (runs_start_iff hnul hfaithful htail).mpr
    ⟨⟨hplain.long, hplain.colon, hplain.dotSep, hplain.dotEnd⟩, hruns⟩, fun loc hloc => ?_⟩
  exact (hplaces loc hloc).resolve_left nofun

end Conditions

/-- **When `create` does what it is for.** -/
theorem creates_iff {b : DirBuilder} {fs : FileSystem} {path : List UInt8}
    (hb : b.recursive = true) (hpath : UnixPath path)
    (hdirs : ∀ loc, loc <+: fs.location path → ∀ x, fs.node loc = some x → x = .dir) :
    Creates b fs path ↔ ∀ front rest, Tail fs path front rest → Plain path front rest := by
  rw [creates_iff_runs hb hpath.ne_nil]
  constructor
  · rintro ⟨l, hruns, hplaces⟩ front rest htail
    exact plain_of_runs hpath.noNul htail hruns hplaces
  · intro hplain
    cases hnode : fs.node (fs.location path) with
    | some x =>
      obtain rfl := hdirs _ (List.prefix_refl _) x hnode
      exact ⟨_, Loop.runs_whole_of_dir hpath.noNul hpath.ne_nil hnode, nofun⟩
    | none =>
      cases hparent : fs.node (fs.location path).dropLast with
      | none =>
        obtain ⟨front, rest, htail⟩ := exists_tail hdirs hparent
        exact runs_of_plain hpath.noNul htail (hplain front rest htail)
      | some x =>
        obtain rfl := hdirs _ (FileSystem.parent_isPrefix _) x hparent
        refine ⟨_, Loop.runs_whole_of_missing hpath.noNul ⟨hpath.ne_nil, hnode, hparent⟩, ?_⟩
        intro loc hloc
        rw [List.mem_singleton.mp hloc]

/-- A file system with the root only. -/
def FileSystem.empty : FileSystem where
  node loc := if loc = [] then some .dir else none
  cwd := []
  root_dir := rfl
  cwd_dir := rfl
  parent_dir loc name h :=
    absurd (if_neg (List.append_ne_nil_of_right_ne_nil loc (List.cons_ne_nil name []))) h

theorem FileSystem.dir_of_empty {loc : List Name} {x : Node}
    (h : FileSystem.empty.node loc = some x) : x = .dir := by
  change (if loc = [] then some Node.dir else none) = some x at h
  split at h
  case isTrue => exact (Option.some.inj h).symm
  case isFalse => cases h

/-- `aa/b` is made, with `aa`. -/
theorem creates_iff_two_components :
    Creates ⟨0o755, true⟩ FileSystem.empty [0x61, 0x61, 0x2F, 0x62] := by
  have hsplit {a b : List UInt8}
      (h : [0x61, 0x61] ++ mainSeparator :: [0x62] = a ++ mainSeparator :: b) :
      [0x61, 0x61] = a ∧ [0x62] = b := by
    obtain ⟨ha, -, hb⟩ := (List.append_cons_inj_of_notMem (by decide) (by decide)).mp h
    exact ⟨ha, hb⟩
  have hpath : UnixPath [0x61, 0x61, 0x2F, 0x62] := ⟨by decide, by decide, by decide⟩
  refine (creates_iff rfl hpath fun _ _ _ => FileSystem.dir_of_empty).mpr ?_
  rintro front rest ⟨hpath, -⟩
  obtain ⟨rfl, rfl⟩ := hsplit hpath
  refine ⟨by decide, by decide, by decide, by decide, by decide, fun a b hpath _ => ?_⟩
  obtain ⟨rfl, rfl⟩ := hsplit hpath
  exact ⟨[0x2F, 0x62], by decide⟩

/-- `a/b` is not made where `a` is missing: the search breaks off at the index 1. -/
theorem not_creates_one_byte :
    UnixPath [0x61, 0x2F, 0x62] ∧
      (∀ loc, loc <+: FileSystem.empty.location [0x61, 0x2F, 0x62] →
        ∀ x, FileSystem.empty.node loc = some x → x = .dir) ∧
      ¬Creates ⟨0o755, true⟩ FileSystem.empty [0x61, 0x2F, 0x62] := by
  refine ⟨⟨by decide, by decide, by decide⟩, fun _ _ _ => FileSystem.dir_of_empty, ?_⟩
  rintro ⟨fuel, l, hfuel, -⟩
  cases fuel with
  | zero => cases hfuel
  | succ fuel =>
    have hend : DirBuilder.create ⟨0o755, true⟩ (fuel + 1) FileSystem.empty [0x61, 0x2F, 0x62] =
        some (.err ⟨.invalidData, some "failed to create path tree"⟩,
          .start FileSystem.empty [0x61, 0x2F, 0x62] 0o755) := rfl
    rw [hend] at hfuel
    cases hfuel

end Orengine.Fs
