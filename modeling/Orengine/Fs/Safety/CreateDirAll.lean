import Mathlib.Data.List.Nodup
import Mathlib.Tactic.Push
import Orengine.Fs.Safety.FileSystem

/-!
# The loop of `create_dir_all`

The loop ends with `Ok` only when the path is a directory (`ledger_of_runs`).  Below a missing
directory it first goes back, cut by cut, to the first one (`runs_back`), and then makes one
directory after the other (`runs_forward`); where two separators stand together it tries to make one
twice, and does not end with `Ok` (`not_runs_forward`).
-/

namespace Orengine.Fs

open Orengine.Lib (segments segments_append_cons segments_eq_singleton segments_nil
  segments_ne_nil exists_last_sep exists_first_sep)
open Orengine.Lib.Utf8 (toStringLossy)

/-! ### Whole runs -/

namespace Loop

variable {path : List UInt8} {mode : UInt32} {l l' : Loop FileSystem}
  {r : Outcome × Loop FileSystem}

/-- The loop ends so. -/
def Runs (path : List UInt8) (mode : UInt32) (l : Loop FileSystem)
    (r : Outcome × Loop FileSystem) : Prop :=
  ∃ fuel, run path mode fuel l = some r

theorem runs_iff_of_none (h : round path mode l = (l', none)) :
    Runs path mode l r ↔ Runs path mode l' r := by
  constructor
  · rintro ⟨fuel, hfuel⟩
    cases fuel with
    | zero => cases hfuel
    | succ fuel =>
      rw [run, h] at hfuel
      exact ⟨fuel, hfuel⟩
  · rintro ⟨fuel, hfuel⟩
    refine ⟨fuel + 1, ?_⟩
    rw [run, h]
    exact hfuel

theorem runs_iff_of_some {outcome : Outcome} (h : round path mode l = (l', some outcome)) :
    Runs path mode l r ↔ r = (outcome, l') := by
  constructor
  · rintro ⟨fuel, hfuel⟩
    cases fuel with
    | zero => cases hfuel
    | succ fuel =>
      rw [run, h] at hfuel
      exact (Option.some.inj hfuel).symm
  · rintro rfl
    refine ⟨1, ?_⟩
    rw [run, h]

/-- **The rule for whole runs**: what each round keeps holds at the end, together with what the last
round adds. -/
theorem Runs.induct {I : Loop FileSystem → Prop} {Q : Outcome → Loop FileSystem → Prop}
    (hnone : ∀ l l', I l → round path mode l = (l', none) → I l')
    (hsome : ∀ l l' outcome, I l → round path mode l = (l', some outcome) → Q outcome l')
    (hl : I l) (h : Runs path mode l r) : Q r.1 r.2 := by
  obtain ⟨fuel, hfuel⟩ := h
  induction fuel generalizing l with
  | zero => cases hfuel
  | succ fuel ih =>
    rw [run] at hfuel
    split at hfuel
    case h_1 l' hround => exact ih (hnone l l' hl hround) hfuel
    case h_2 l' outcome hround =>
      obtain rfl := Option.some.inj hfuel
      exact hsome l l' outcome hl hround

theorem not_runs_of_same (h : round path mode l = (l, none)) : ¬Runs path mode l r := by
  intro hruns
  refine hruns.induct (I := fun l' => l' = l) (Q := fun _ _ => False) ?_ ?_ rfl
  · rintro l₁ l₂ rfl hround
    rw [h] at hround
    exact (congrArg Prod.fst hround).symm
  · rintro l₁ l₂ outcome rfl hround
    rw [h] at hround
    cases hround

/-! ### What a round does -/

theorem round_of_ok {fs : FileSystem} (hnul : 0 ∉ l.tmpPath)
    (h : Kernel.mkdir l.fs l.tmpPath = .ok fs) :
    round path mode l = afterOk path mode (l.make fs) := by
  rw [round, getOsPath, if_neg hnul]
  simp only [h]

theorem round_of_notFound (hnul : 0 ∉ l.tmpPath)
    (h : Kernel.mkdir l.fs l.tmpPath = .error .notFound) :
    round path mode l = afterNotFound path l := by
  rw [round, getOsPath, if_neg hnul]
  simp only [h]

theorem round_of_alreadyExists (hnul : 0 ∉ l.tmpPath)
    (h : Kernel.mkdir l.fs l.tmpPath = .error .alreadyExists) :
    round path mode l = afterError path l .alreadyExists := by
  rw [round, getOsPath, if_neg hnul]
  simp only [h]

/-- **What a round can do.** -/
inductive Effect (path : List UInt8) (mode : UInt32) (l : Loop FileSystem) :
    Loop FileSystem → Option Outcome → Prop
  | madeWhole (fs : FileSystem) (hmkdir : l.fs.mkdir l.tmpPath = .ok fs)
      (hstack : l.pathStack = []) : Effect path mode l (l.make fs) (some .ok)
  | madeLast (fs : FileSystem) (hmkdir : l.fs.mkdir l.tmpPath = .ok fs) (offset : ℕ)
      (hstack : l.pathStack = [offset]) : Effect path mode l ((l.make fs).goTo path mode []) none
  | madeNext (fs : FileSystem) (hmkdir : l.fs.mkdir l.tmpPath = .ok fs) (last offset : ℕ)
      (rest : List ℕ) (hstack : l.pathStack = last :: offset :: rest) :
      Effect path mode l
        ((l.make fs).goTo ((toStringLossy path).take offset) l.tmpMode (offset :: rest)) none
  | cut (offset : ℕ) :
      Effect path mode l
        (l.goTo ((toStringLossy path).take offset) 0o777 (offset :: l.pathStack)) none
  | found (hdir : l.fs.isDir path = true) (hstack : l.pathStack = []) :
      Effect path mode l l (some .ok)
  | again : Effect path mode l l none
  | failed (outcome : Outcome) (hne : outcome ≠ .ok) : Effect path mode l l (some outcome)

theorem effect_of_round {o : Option Outcome} (h : round path mode l = (l', o)) :
    Effect path mode l l' o := by
  suffices heffect : Effect path mode l (round path mode l).1 (round path mode l).2 by
    rwa [h] at heffect
  unfold round
  split
  case h_1 e _ => exact .failed _ nofun
  case h_2 osPath hos =>
    have hpath : osPath = l.tmpPath := by
      rw [getOsPath] at hos
      split at hos
      case isTrue => cases hos
      case isFalse => exact (Except.ok.inj hos).symm
    subst hpath
    split
    case h_1 fs hmkdir =>
      unfold afterOk
      split
      case h_1 hstack => exact .madeWhole fs hmkdir hstack
      case h_2 offset hstack => exact .madeLast fs hmkdir offset hstack
      case h_3 last offset rest hstack => exact .madeNext fs hmkdir last offset rest hstack
    case h_2 =>
      unfold afterNotFound
      split
      case h_1 offset _ => exact .cut offset
      case h_2 => exact .failed _ nofun
      case h_3 => exact .failed _ nofun
    case h_3 kind _ _ =>
      unfold afterError
      split
      case isTrue hdir =>
        split
        case isTrue hstack => exact .found hdir (List.isEmpty_iff.mp hstack)
        case isFalse => exact .again
      case isFalse => exact .failed _ nofun

/-- Where directories were made. -/
def places (l : Loop FileSystem) : List (List Name) := l.created.map Prod.fst

theorem places_make (l : Loop FileSystem) (fs : FileSystem) :
    (l.make fs).places = l.places ++ [l.fs.location l.tmpPath] := List.map_append ..

/-- The file system and what was made are as before. -/
structure Same (l l' : Loop FileSystem) : Prop where
  fs : l'.fs = l.fs
  places : l'.places = l.places

theorem same_or_make {o : Option Outcome} (h : round path mode l = (l', o)) :
    Same l l' ∨ ∃ fs, l.fs.mkdir l.tmpPath = .ok fs ∧ Same (l.make fs) l' := by
  cases effect_of_round h with
  | madeWhole fs hmkdir | madeLast fs hmkdir | madeNext fs hmkdir =>
    exact .inr ⟨fs, hmkdir, rfl, rfl⟩
  | cut | found | again | failed => exact .inl ⟨rfl, rfl⟩

/-- The directories that were made are what has changed in the file system. -/
structure Ledger (fs : FileSystem) (l : Loop FileSystem) : Prop where
  cwd : l.fs.cwd = fs.cwd
  node (loc : List Name) : l.fs.node loc = if loc ∈ l.places then some .dir else fs.node loc
  nodup : l.places.Nodup
  missing (loc : List Name) : loc ∈ l.places → fs.node loc = none

namespace Ledger

variable {fs : FileSystem}

theorem location (h : Ledger fs l) (path : List UInt8) :
    l.fs.location path = fs.location path := by
  rw [FileSystem.location, FileSystem.base, h.cwd]
  rfl

theorem same (h : Ledger fs l) (hsame : Same l l') : Ledger fs l' := by
  obtain ⟨hfs, hplaces⟩ := hsame
  refine ⟨?_, ?_, ?_, ?_⟩
  · rw [hfs]
    exact h.cwd
  · rw [hfs, hplaces]
    exact h.node
  · rw [hplaces]
    exact h.nodup
  · rw [hplaces]
    exact h.missing

theorem make (h : Ledger fs l) {fs' : FileSystem} (hmkdir : l.fs.mkdir l.tmpPath = .ok fs') :
    Ledger fs (l.make fs') := by
  obtain ⟨hnone, hparent, -, rfl⟩ := FileSystem.exists_eq_insert hmkdir
  have hplaces := places_make l (l.fs.insert _ hnone hparent)
  have hnot : l.fs.location l.tmpPath ∉ l.places := by
    intro hmem
    rw [h.node, if_pos hmem] at hnone
    cases hnone
  refine ⟨h.cwd, fun loc => ?_, ?_, fun loc hloc => ?_⟩
  · rw [hplaces]
    show (l.fs.insert _ hnone hparent).node loc = _
    rw [FileSystem.node_insert, h.node]
    simp only [List.mem_append, List.mem_singleton]
    by_cases hloc : loc = l.fs.location l.tmpPath
    · rw [if_pos hloc, if_pos (.inr hloc)]
    · simp only [if_neg hloc, or_iff_left hloc]
  · rw [hplaces]
    exact h.nodup.append (List.nodup_singleton _) (List.disjoint_singleton.mpr hnot)
  · rw [hplaces, List.mem_append, List.mem_singleton] at hloc
    rcases hloc with hloc | rfl
    · exact h.missing loc hloc
    · rwa [h.node, if_neg hnot] at hnone

theorem round (h : Ledger fs l) {o : Option Outcome} (hround : Loop.round path mode l = (l', o)) :
    Ledger fs l' := by
  rcases same_or_make hround with hsame | ⟨fs', hmkdir, hsame⟩
  · exact h.same hsame
  · exact (h.make hmkdir).same hsame

end Ledger

theorem ledger_start (fs : FileSystem) (path : List UInt8) (mode : UInt32) :
    Ledger fs (start fs path mode) where
  cwd := rfl
  node _ := rfl
  nodup := List.nodup_nil
  missing _ := nofun

/-- With no cut, the loop tries the whole path. -/
def Whole (path : List UInt8) (l : Loop FileSystem) : Prop := l.pathStack = [] → l.tmpPath = path

theorem Whole.round (h : Whole path l) (hround : Loop.round path mode l = (l', none)) :
    Whole path l' := by
  cases effect_of_round hround with
  | madeLast => exact fun _ => rfl
  | madeNext => exact nofun
  | cut => exact nofun
  | again => exact h

/-- **`Ok` is returned when the path is a directory.** -/
theorem Whole.isDir (h : Whole path l) (hround : Loop.round path mode l = (l', some .ok)) :
    l'.fs.isDir path = true := by
  cases effect_of_round hround with
  | madeWhole fs hmkdir hstack =>
    obtain ⟨hnone, hparent, -, rfl⟩ := FileSystem.exists_eq_insert hmkdir
    apply FileSystem.isDir_iff.mpr
    show (l.fs.insert _ hnone hparent).node (l.fs.location path) = some .dir
    rw [← h hstack, FileSystem.node_insert_self]
  | found hdir => exact hdir
  | failed _ hne => exact absurd rfl hne

theorem ledger_of_runs {fs : FileSystem} (h : Runs path mode (start fs path mode) r) :
    Ledger fs r.2 ∧ (r.1 = .ok → r.2.fs.isDir path = true) := by
  refine h.induct (I := fun l => Ledger fs l ∧ Whole path l)
    (Q := fun o l => Ledger fs l ∧ (o = .ok → l.fs.isDir path = true)) ?_ ?_
    ⟨ledger_start fs path mode, fun _ => rfl⟩
  · rintro l l' ⟨hledger, hwhole⟩ hround
    exact ⟨hledger.round hround, hwhole.round hround⟩
  · rintro l l' o ⟨hledger, hwhole⟩ hround
    refine ⟨hledger.round hround, ?_⟩
    rintro rfl
    exact hwhole.isDir hround

end Loop

/-! ### The way back -/

namespace Loop

/-- The loop tries the path up to a cut; the rest begins with the separator of the cut. -/
def cutAt (fs : FileSystem) (front : List UInt8) (tmpMode : UInt32) (rest : List UInt8)
    (created : List (List Name × UInt32)) : Loop FileSystem :=
  ⟨fs, front, tmpMode, separators front.length rest, created⟩

variable {path front rest s : List UInt8} {mode tmpMode : UInt32} {fs : FileSystem}
  {created : List (List Name × UInt32)} {r : Outcome × Loop FileSystem}

/-- `path_string` is the path, up to each separator. -/
def Faithful (path : List UInt8) : Prop :=
  ∀ a b, path = a ++ mainSeparator :: b → (toStringLossy path).take a.length = a

theorem not_mem_of_path {b : UInt8} (hb : b ∉ path) (rest : List UInt8)
    (hpath : path = front ++ rest) : b ∉ front := by
  rw [hpath] at hb
  exact fun h => hb (List.mem_append_left rest h)

theorem separators_cut (front s rest : List UInt8) (hs : mainSeparator ∉ s) :
    separators front.length (mainSeparator :: (s ++ rest)) =
      front.length :: separators (front ++ mainSeparator :: s).length rest := by
  rw [separators_cons_self, separators_append hs, List.length_append, List.length_cons]
  congr 2
  omega

/-- Nothing blocks the search back from the end of `s` to `front`. -/
def Free (path front s : List UInt8) : Prop :=
  ∀ k, front.length ≤ k → k ≤ front.length + s.length → isBlocked path k = false

/-- The loop stands at the end of a segment `s`, and the directory above is missing. -/
structure Segment (path : List UInt8) (fs : FileSystem) (front s rest : List UInt8) : Prop where
  path_eq : path = front ++ mainSeparator :: (s ++ rest)
  not_mem : mainSeparator ∉ s
  rest : rest = [] ∨ rest.head? = some mainSeparator
  mkdir : fs.mkdir (front ++ mainSeparator :: s) = .error .notFound

namespace Segment

variable (h : Segment path fs front s rest) (hnul : 0 ∉ path)

include h hnul

theorem round_eq :
    round path mode (cutAt fs (front ++ mainSeparator :: s) tmpMode rest created) =
      afterNotFound path (cutAt fs (front ++ mainSeparator :: s) tmpMode rest created) := by
  have hcut : path = (front ++ mainSeparator :: s) ++ rest := by
    rw [h.path_eq, List.append_assoc, List.cons_append]
  exact round_of_notFound (not_mem_of_path hnul rest hcut) h.mkdir

/-- The directory above is missing, and the loop cuts `path_string` at the separator before. -/
theorem round_back (hfree : Free path front s) :
    round path mode (cutAt fs (front ++ mainSeparator :: s) tmpMode rest created) =
      (⟨fs, (toStringLossy path).take front.length, 0o777,
        separators front.length (mainSeparator :: (s ++ rest)), created⟩, none) := by
  have hoffset : getOffset (cutAt fs (front ++ mainSeparator :: s) tmpMode rest created).pathStack
      path = .ok front.length := by
    rw [Free, h.path_eq] at hfree
    rw [h.path_eq]
    exact getOffset_eq_ok h.not_mem h.rest hfree
  rw [h.round_eq hnul, afterNotFound, hoffset]
  simp only [goTo, cutAt, separators_cut front s rest h.not_mem]

/-- Something blocks the search. -/
theorem round_back_err (hfree : ¬Free path front s) :
    round path mode (cutAt fs (front ++ mainSeparator :: s) tmpMode rest created) =
      (cutAt fs (front ++ mainSeparator :: s) tmpMode rest created,
        some (.err ⟨.invalidData, some "failed to create path tree"⟩)) := by
  have hoffset : getOffset (cutAt fs (front ++ mainSeparator :: s) tmpMode rest created).pathStack
      path = .err := by
    simp only [Free, not_forall] at hfree
    obtain ⟨k, hk, hk', hblocked⟩ := hfree
    rw [h.path_eq] at hblocked ⊢
    exact getOffset_eq_err h.not_mem h.rest hk hk' (eq_true_of_ne_false hblocked)
  rw [h.round_eq hnul, afterNotFound, hoffset]

theorem runs_back (hfaithful : Faithful path) :
    (Runs path mode (cutAt fs (front ++ mainSeparator :: s) tmpMode rest created) r ∧ r.1 = .ok) ↔
      Free path front s ∧
        Runs path mode (cutAt fs front 0o777 (mainSeparator :: (s ++ rest)) created) r ∧
          r.1 = .ok := by
  by_cases hfree : Free path front s
  · rw [runs_iff_of_none (h.round_back hnul hfree), hfaithful front _ h.path_eq]
    exact (and_iff_right hfree).symm
  · simp only [hfree, false_and, iff_false]
    rw [runs_iff_of_some (h.round_back_err hnul hfree)]
    rintro ⟨rfl, hok⟩
    cases hok

end Segment

theorem mkdir_below (hne : front ≠ []) (hmissing : fs.node (fs.location front) = none)
    (hs : s ≠ []) (hhead : s.head? ≠ some mainSeparator) :
    fs.mkdir (front ++ mainSeparator :: s) = .error .notFound := by
  apply FileSystem.mkdir_eq_notFound
  have hsegments : segments mainSeparator s ≠ [] := by
    obtain ⟨x, s', rfl⟩ := List.exists_cons_of_ne_nil hs
    exact segments_ne_nil (fun hx => hhead (congrArg some hx)) s'
  rw [FileSystem.location_append_sep hne, List.dropLast_append_of_ne_nil hsegments]
  exact FileSystem.node_append_eq_none hmissing _

/-- **The way back.**  The loop goes back to the first missing directory, if nothing blocks it, and
does not end with `Ok` if something does. -/
theorem runs_back (hnul : 0 ∉ path) (hfaithful : Faithful path) (hne : front ≠ [])
    (hmissing : fs.node (fs.location front) = none)
    (hpath : path = front ++ mainSeparator :: (s ++ rest)) (hs : s ≠ [])
    (hhead : s.head? ≠ some mainSeparator) (hrest : rest = [] ∨ rest.head? = some mainSeparator) :
    (Runs path mode (cutAt fs (front ++ mainSeparator :: s) tmpMode rest created) r ∧ r.1 = .ok) ↔
      Free path front s ∧
        Runs path mode (cutAt fs front 0o777 (mainSeparator :: (s ++ rest)) created) r ∧
          r.1 = .ok := by
  induction hlength : s.length using Nat.strongRecOn generalizing s rest tmpMode with
  | ind n ih =>
    subst hlength
    have hmkdir := mkdir_below hne hmissing hs hhead
    rcases exists_last_sep mainSeparator s with hnot | ⟨s', s'', rfl, hs''⟩
    · exact Segment.runs_back ⟨hpath, hnot, hrest, hmkdir⟩ hnul hfaithful
    · -- The cut goes to the separator in front of `s''`, and `s'` is what is left to go.
      have hassoc : front ++ mainSeparator :: (s' ++ mainSeparator :: s'') =
          (front ++ mainSeparator :: s') ++ mainSeparator :: s'' := by simp
      have hpath' : path = (front ++ mainSeparator :: s') ++ mainSeparator :: (s'' ++ rest) := by
        rw [hpath]
        simp
      have hs' : s' ≠ [] := by
        rintro rfl
        exact hhead rfl
      have hhead' : s'.head? ≠ some mainSeparator := by
        rwa [List.head?_append_of_ne_nil _ hs'] at hhead
      have hpath'' : path = front ++ mainSeparator :: (s' ++ mainSeparator :: (s'' ++ rest)) := by
        rw [hpath]
        simp
      have hlt : s'.length < (s' ++ mainSeparator :: s'').length := by simp
      have hend : front.length + (s' ++ mainSeparator :: s'').length =
          (front ++ mainSeparator :: s').length + s''.length := by
        simp only [List.length_append, List.length_cons]
        omega
      have hmid : (front ++ mainSeparator :: s').length = front.length + s'.length + 1 := by
        simp only [List.length_append, List.length_cons]
        omega
      rw [hassoc] at hmkdir ⊢
      have hsegment : Segment path fs (front ++ mainSeparator :: s') s'' rest :=
        ⟨hpath', hs'', hrest, hmkdir⟩
      rw [hsegment.runs_back hnul hfaithful, ih s'.length hlt hpath'' hs' hhead' (.inr rfl) rfl,
        ← and_assoc, Free, Free, Free, hend, List.append_assoc, List.cons_append]
      refine and_congr_left fun _ => ⟨?_, ?_⟩
      · rintro ⟨hlater, hearlier⟩ k hk hk'
        rcases Nat.lt_or_ge k (front ++ mainSeparator :: s').length with hlt | hge
        · exact hearlier k hk (by omega)
        · exact hlater k hge hk'
      · intro hfree
        exact ⟨fun k hk hk' => hfree k (by omega) hk', fun k hk hk' => hfree k hk (by omega)⟩

/-! ### The way forward -/

/-- The path up to a cut is missing, and the directory above is there. -/
structure FirstMissing (fs : FileSystem) (front : List UInt8) : Prop where
  ne_nil : front ≠ []
  missing : fs.node (fs.location front) = none
  parent : fs.node (fs.location front).dropLast = some .dir

/-- When it is made, the next cut is the first that is missing. -/
theorem FirstMissing.next (h : FirstMissing fs front) (hs : mainSeparator ∉ s) (hne : s ≠ []) :
    FirstMissing (fs.insert _ h.missing h.parent) (front ++ mainSeparator :: s) := by
  have hloc : fs.location (front ++ mainSeparator :: s) = fs.location front ++ [s] := by
    rw [FileSystem.location_append_sep h.ne_nil, segments_eq_singleton hs hne]
  refine ⟨List.append_ne_nil_of_left_ne_nil h.ne_nil _, ?_, ?_⟩
  · show (fs.insert _ h.missing h.parent).node (fs.location _) = none
    rw [hloc]
    exact FileSystem.node_insert_below h.missing h.parent (List.cons_ne_nil s [])
  · show (fs.insert _ h.missing h.parent).node (fs.location _).dropLast = some .dir
    rw [hloc, List.dropLast_concat, FileSystem.node_insert_self]

theorem FirstMissing.prefix_location (h : FirstMissing fs front)
    (hpath : path = front ++ mainSeparator :: rest) : fs.location front <+: fs.location path := by
  rw [hpath, FileSystem.location_append_sep h.ne_nil]
  exact List.prefix_append ..

/-- The directory is made, and the loop goes on to the next cut. -/
theorem round_forward (hnul : 0 ∉ path) (hfaithful : Faithful path) (h : FirstMissing fs front)
    (hpath : path = front ++ mainSeparator :: (s ++ mainSeparator :: rest))
    (hs : mainSeparator ∉ s) :
    round path mode
        (cutAt fs front tmpMode (mainSeparator :: (s ++ mainSeparator :: rest)) created) =
      (cutAt (fs.insert _ h.missing h.parent) (front ++ mainSeparator :: s) tmpMode
        (mainSeparator :: rest) (created ++ [(fs.location front, tmpMode)]), none) := by
  have hpath' : path = (front ++ mainSeparator :: s) ++ mainSeparator :: rest := by
    rw [hpath]
    simp
  have hcut := hfaithful _ _ hpath'
  rw [round_of_ok (not_mem_of_path hnul _ hpath)
    (FileSystem.mkdir_eq_ok h.ne_nil h.missing h.parent)]
  simp only [afterOk, make, cutAt, goTo, separators_cut front s _ hs, separators_cons_self, hcut]
  rfl

/-- The directory is made at the first cut, and the loop goes on to the whole path. -/
theorem round_forward_last (hnul : 0 ∉ path) (h : FirstMissing fs front)
    (hpath : path = front ++ mainSeparator :: rest) (hrest : mainSeparator ∉ rest) :
    round path mode (cutAt fs front tmpMode (mainSeparator :: rest) created) =
      (⟨fs.insert _ h.missing h.parent, path, mode, [],
        created ++ [(fs.location front, tmpMode)]⟩, none) := by
  rw [round_of_ok (not_mem_of_path hnul _ hpath)
    (FileSystem.mkdir_eq_ok h.ne_nil h.missing h.parent)]
  simp only [afterOk, make, cutAt, goTo, separators_cons_self, separators_eq_nil hrest]
  rfl

theorem runs_whole_of_dir (hnul : 0 ∉ path) (hne : path ≠ [])
    (h : fs.node (fs.location path) = some .dir) :
    Runs path mode ⟨fs, path, tmpMode, [], created⟩ (.ok, ⟨fs, path, tmpMode, [], created⟩) := by
  have hmkdir := FileSystem.mkdir_eq_alreadyExists hne (h ▸ Option.some_ne_none _)
  have hdir : Kernel.isDir fs path = true := FileSystem.isDir_iff.mpr h
  refine (runs_iff_of_some ?_).mpr rfl
  rw [round_of_alreadyExists hnul hmkdir, afterError, if_pos hdir]
  rfl

theorem runs_whole_of_missing (hnul : 0 ∉ path) (h : FirstMissing fs path) :
    Runs path mode ⟨fs, path, tmpMode, [], created⟩
      (.ok, ⟨fs.insert _ h.missing h.parent, path, tmpMode, [],
        created ++ [(fs.location path, tmpMode)]⟩) := by
  refine (runs_iff_of_some ?_).mpr rfl
  rw [round_of_ok hnul (FileSystem.mkdir_eq_ok h.ne_nil h.missing h.parent)]
  rfl

theorem mem_map_append {l : List (List Name × UInt32)} {x : List Name × UInt32} {loc : List Name} :
    loc ∈ (l ++ [x]).map Prod.fst ↔ loc ∈ l.map Prod.fst ∨ loc = x.1 := by
  rw [List.map_append, List.mem_append]
  exact or_congr_right List.mem_singleton

/-- The directory of the last cut is made, and then the whole path. -/
theorem runs_forward_last (hnul : 0 ∉ path) (h : FirstMissing fs front)
    (hpath : path = front ++ mainSeparator :: rest) (hrest : mainSeparator ∉ rest) :
    ∃ l, Runs path mode (cutAt fs front tmpMode (mainSeparator :: rest) created) (.ok, l) ∧
      ∀ loc ∈ l.places, loc ∈ created.map Prod.fst ∨ loc <+: fs.location path := by
  by_cases hnil : rest = []
  · have hloc : fs.location path = fs.location front := by
      rw [hpath, hnil, FileSystem.location_append_sep h.ne_nil, segments_nil, List.append_nil]
    have hne : path ≠ [] := hpath ▸ List.append_ne_nil_of_left_ne_nil h.ne_nil _
    refine ⟨_, (runs_iff_of_none (round_forward_last hnul h hpath hrest)).mpr
      (runs_whole_of_dir hnul hne ?_), fun loc hmem => ?_⟩
    · show (fs.insert _ h.missing h.parent).node (fs.location path) = some .dir
      rw [hloc, FileSystem.node_insert_self]
    · rcases mem_map_append.mp hmem with hmem | rfl
      · exact .inl hmem
      · exact .inr (h.prefix_location hpath)
  · have hnext := hpath ▸ h.next hrest hnil
    refine ⟨_, (runs_iff_of_none (round_forward_last hnul h hpath hrest)).mpr
      (runs_whole_of_missing hnul hnext), fun loc hmem => ?_⟩
    rcases mem_map_append.mp hmem with hmem | rfl
    · rcases mem_map_append.mp hmem with hmem | rfl
      · exact .inl hmem
      · exact .inr (h.prefix_location hpath)
    · exact .inr (List.prefix_refl _)

/-- **The way forward.**  The loop makes the directories from the first missing one on, if no
separators stand together. -/
theorem runs_forward (hnul : 0 ∉ path) (hfaithful : Faithful path) (h : FirstMissing fs front)
    (hpath : path = front ++ mainSeparator :: rest)
    (honce : ¬[mainSeparator, mainSeparator] <:+: mainSeparator :: rest) :
    ∃ l, Runs path mode (cutAt fs front tmpMode (mainSeparator :: rest) created) (.ok, l) ∧
      ∀ loc ∈ l.places, loc ∈ created.map Prod.fst ∨ loc <+: fs.location path := by
  induction hlength : rest.length using Nat.strongRecOn
    generalizing fs front rest created with
  | ind n ih =>
    subst hlength
    rcases exists_first_sep mainSeparator rest with hrest | ⟨s, rest', rfl, hs⟩
    · exact runs_forward_last hnul h hpath hrest
    · have hne : s ≠ [] := by
        rintro rfl
        exact honce ⟨[], rest', rfl⟩
      have hpath' : path = (front ++ mainSeparator :: s) ++ mainSeparator :: rest' := by
        rw [hpath]
        simp
      have honce' : ¬[mainSeparator, mainSeparator] <:+: mainSeparator :: rest' := fun htwice =>
        honce (htwice.trans ⟨mainSeparator :: s, [], by simp⟩)
      have hlt : rest'.length < (s ++ mainSeparator :: rest').length := by
        rw [List.length_append, List.length_cons]
        omega
      obtain ⟨l, hruns, hplaces⟩ := ih rest'.length hlt (h.next hs hne) hpath' honce' rfl
      refine ⟨l, (runs_iff_of_none (round_forward hnul hfaithful h hpath hs)).mpr hruns,
        fun loc hmem => ?_⟩
      rcases hplaces loc hmem with hmem | hpre
      · rcases mem_map_append.mp hmem with hmem | rfl
        · exact .inl hmem
        · exact .inr (h.prefix_location hpath)
      · exact .inr hpre

/-- Two separators that stand together are not in a segment. -/
theorem twice_of_append (hs : mainSeparator ∉ s)
    (h : [mainSeparator, mainSeparator] <:+: s ++ rest) :
    [mainSeparator, mainSeparator] <:+: rest := by
  induction s with
  | nil => exact h
  | cons b s ih =>
    obtain ⟨hb, hs⟩ := List.ne_and_not_mem_of_not_mem_cons hs
    rcases List.infix_cons_iff.mp h with hpre | hin
    · exact absurd (List.cons_prefix_cons.mp hpre).1 hb
    · exact ih hs hin

/-- A cut that is made already ends the loop, or is tried for ever. -/
theorem not_runs_of_exists (hnul : 0 ∉ front) (hne : front ≠ [])
    (hnode : fs.node (fs.location front) ≠ none) {l : Loop FileSystem} :
    ¬Runs path mode (cutAt fs front tmpMode (mainSeparator :: rest) created) (.ok, l) := by
  have hround : round path mode (cutAt fs front tmpMode (mainSeparator :: rest) created) =
      afterError path (cutAt fs front tmpMode (mainSeparator :: rest) created) .alreadyExists :=
    round_of_alreadyExists hnul (FileSystem.mkdir_eq_alreadyExists hne hnode)
  rw [afterError] at hround
  split at hround
  case isTrue => exact not_runs_of_same hround
  case isFalse =>
    rw [runs_iff_of_some hround]
    exact nofun

/-- Where separators stand together, the loop does not end with `Ok`. -/
theorem not_runs_forward (hnul : 0 ∉ path) (hfaithful : Faithful path) (h : FirstMissing fs front)
    (hpath : path = front ++ mainSeparator :: rest)
    (htwice : [mainSeparator, mainSeparator] <:+: mainSeparator :: rest) {l : Loop FileSystem} :
    ¬Runs path mode (cutAt fs front tmpMode (mainSeparator :: rest) created) (.ok, l) := by
  induction hlength : rest.length using Nat.strongRecOn
    generalizing fs front rest created with
  | ind n ih =>
    subst hlength
    rcases exists_first_sep mainSeparator rest with hrest | ⟨s, rest', rfl, hs⟩
    · rcases List.infix_cons_iff.mp htwice with hpre | hin
      · exact absurd ((List.cons_prefix_cons.mp hpre).2.subset List.mem_cons_self) hrest
      · exact absurd (hin.subset List.mem_cons_self) hrest
    · have hpath' : path = (front ++ mainSeparator :: s) ++ mainSeparator :: rest' := by
        rw [hpath]
        simp
      rw [runs_iff_of_none (round_forward hnul hfaithful h hpath hs)]
      by_cases hne : s = []
      · -- The directory was made at the cut before, and is tried again.
        refine not_runs_of_exists (not_mem_of_path hnul _ hpath')
          (List.append_ne_nil_of_left_ne_nil h.ne_nil _) ?_
        show (fs.insert _ h.missing h.parent).node (fs.location _) ≠ none
        rw [hne, FileSystem.location_append_sep h.ne_nil, segments_nil, List.append_nil,
          FileSystem.node_insert_self]
        exact Option.some_ne_none _
      · have htwice' : [mainSeparator, mainSeparator] <:+: mainSeparator :: rest' := by
          rcases List.infix_cons_iff.mp htwice with hpre | hin
          · obtain ⟨b, s', rfl⟩ := List.exists_cons_of_ne_nil hne
            have hb := (List.cons_prefix_cons.mp (List.cons_prefix_cons.mp hpre).2).1
            exact absurd (hb ▸ List.mem_cons_self) hs
          · exact twice_of_append hs hin
        have hlt : rest'.length < (s ++ mainSeparator :: rest').length := by
          rw [List.length_append, List.length_cons]
          omega
        exact ih rest'.length hlt (h.next hs hne) hpath' htwice' rfl

/-! ### The first cut -/

/-- The first cut stays at the bottom of the stack, and is tried when it is alone. -/
structure Bottom (path : List UInt8) (q : ℕ) (l : Loop FileSystem) : Prop where
  last : l.pathStack.getLast? = some q
  alone : l.pathStack.length = 1 → l.tmpPath = (toStringLossy path).take q

variable {l l' : Loop FileSystem} {q : ℕ}

theorem Bottom.ne_nil (h : Bottom path q l) : l.pathStack ≠ [] := by
  intro hnil
  have hlast := h.last
  rw [hnil] at hlast
  cases hlast

/-- The first cut is made before the loop comes back to the whole path. -/
theorem Bottom.round (h : Bottom path q l) (hround : Loop.round path mode l = (l', none)) :
    Bottom path q l' ∨ l.fs.location ((toStringLossy path).take q) ∈ l'.places := by
  have hlast := h.last
  cases effect_of_round hround with
  | madeLast fs hmkdir offset hstack =>
    refine .inr ?_
    show _ ∈ (l.make fs).places
    rw [places_make, ← h.alone (congrArg List.length hstack)]
    exact List.mem_append_right _ List.mem_cons_self
  | madeNext fs hmkdir last offset rest hstack =>
    rw [hstack, List.getLast?_cons_cons] at hlast
    refine .inl ⟨hlast, fun hlength => ?_⟩
    have hnil : rest = [] := List.length_eq_zero_iff.mp (Nat.succ.inj hlength)
    rw [hnil, List.getLast?_singleton] at hlast
    show (toStringLossy path).take offset = _
    rw [Option.some.inj hlast]
  | cut offset =>
    obtain ⟨last, rest, hstack⟩ := List.exists_cons_of_ne_nil h.ne_nil
    refine .inl ⟨?_, fun hlength => ?_⟩
    · show (offset :: l.pathStack).getLast? = some q
      rwa [hstack, List.getLast?_cons_cons, ← hstack]
    · exact absurd (List.length_eq_zero_iff.mp (Nat.succ.inj hlength)) h.ne_nil
  | again => exact .inl h

theorem Bottom.not_ok (h : Bottom path q l) : Loop.round path mode l ≠ (l', some .ok) := by
  intro hround
  cases effect_of_round hround with
  | madeWhole _ _ hstack | found _ hstack => exact h.ne_nil hstack
  | failed _ hne => exact hne rfl

theorem places_subset {o : Option Outcome} (hround : round path mode l = (l', o))
    {loc : List Name} (hloc : loc ∈ l.places) : loc ∈ l'.places := by
  rcases same_or_make hround with hsame | ⟨fs, -, hsame⟩
  · rwa [hsame.places]
  · rw [hsame.places, places_make]
    exact List.mem_append_left _ hloc

/-- **The first cut is made**, when the loop ends with `Ok`. -/
theorem mem_places_of_bottom (hledger : Ledger fs l) (hbottom : Bottom path q l)
    (h : Runs path mode l (.ok, l')) :
    fs.location ((toStringLossy path).take q) ∈ l'.places := by
  refine h.induct
    (I := fun l => Ledger fs l ∧
      (Bottom path q l ∨ fs.location ((toStringLossy path).take q) ∈ l.places))
    (Q := fun o l => o = .ok → fs.location ((toStringLossy path).take q) ∈ l.places)
    ?_ ?_ ⟨hledger, .inl hbottom⟩ rfl
  · rintro l₁ l₂ ⟨hledger, hcut⟩ hround
    refine ⟨hledger.round hround, ?_⟩
    rcases hcut with hbottom | hmem
    · have h := hbottom.round hround
      rwa [hledger.location] at h
    · exact .inr (places_subset hround hmem)
  · rintro l₁ l₂ o ⟨-, hcut⟩ hround rfl
    rcases hcut with hbottom | hmem
    · exact absurd hround hbottom.not_ok
    · exact places_subset hround hmem

end Loop

end Orengine.Fs
