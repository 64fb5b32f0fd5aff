import Mathlib.Data.Finset.Card
import Orengine.Fs.Processes
import Orengine.Fs.Safety.DirBuilder
import Orengine.Lib.Reach

/-!
# `create_dir_all` next to other processes: the modes, and whether it ends

The loop makes the directories of the cuts with the mode `0o777`, whatever the mode is and whatever
the kernel does (`modes_iff`).

`create_ends` says for every `LawfulKernel`, as `FileSystem` is one, when the call ends, and when
with `Ok`.  A round of the loop either makes the directory of a cut (`missing`) or goes back to a
cut before the last one (`top`), and what other processes make only helps.
-/

namespace Orengine.Fs

open Orengine.Lib
open Orengine.Lib.Utf8 (toStringLossy)

/-! ### The file system -/

namespace FileSystem

variable {fs fs' : FileSystem} {path : List UInt8}

/-- There is something, or a file above. -/
theorem refuses_iff :
    Kernel.refuses fs path = true ↔
      path ≠ [] ∧
        (fs.node (fs.location path) ≠ none ∨ fs.node (fs.location path).dropLast = some .file) := by
  simp only [Kernel.refuses, Kernel.mkdir, mkdir, mkdirAt]
  grind

theorem refuses_of_extends (h : fs.Extends fs') (hrefuses : Kernel.refuses fs path = true) :
    Kernel.refuses fs' path = true := by
  rw [refuses_iff] at hrefuses ⊢
  obtain ⟨hne, hnode⟩ := hrefuses
  refine ⟨hne, ?_⟩
  rw [h.location]
  rcases hnode with hsome | hfile
  · obtain ⟨x, hx⟩ := Option.ne_none_iff_exists'.mp hsome
    rw [h.node hx]
    exact .inl (Option.some_ne_none x)
  · exact .inr (h.node hfile)

theorem refuses_made (h : fs.mkdir path = .ok fs') : Kernel.refuses fs' path = true := by
  have hextends := Extends.of_mkdir h
  obtain ⟨hnone, hparent, hne, rfl⟩ := exists_eq_insert h
  refine refuses_iff.mpr ⟨hne, .inl ?_⟩
  rw [hextends.location, node_insert_self]
  exact Option.some_ne_none _

instance : LawfulKernel FileSystem where
  isDir_of_mkdir h _ hdir := (Extends.of_mkdir h).isDir hdir
  refuses_of_mkdir h _ hrefuses := refuses_of_extends (Extends.of_mkdir h) hrefuses
  refuses_self := refuses_made

end FileSystem

namespace Call

variable {σ : Type*} [Kernel σ] {path : List UInt8} {mode : UInt32} {fs : σ} {c t : Call σ}

/-! ### What a step can do -/

/-- The call reads and writes the file system, and goes on or ends. -/
inductive Went (path : List UInt8) (mode : UInt32) (c : Call σ) : Call σ → Prop
  | refused (hstage : c.stage = .mkdir) (e : Error) (hos : getOsPath c.loop.tmpPath = .error e) :
      Went path mode c ((c.saw e.kind).after (c.loop, some (.err e)))
  | made (hstage : c.stage = .mkdir) (hnul : getOsPath c.loop.tmpPath = .ok c.loop.tmpPath)
      (fs : σ) (hmkdir : Kernel.mkdir c.loop.fs c.loop.tmpPath = .ok fs) :
      Went path mode c (c.after (Loop.afterOk path mode (c.loop.make fs)))
  | notFound (hstage : c.stage = .mkdir) (hnul : getOsPath c.loop.tmpPath = .ok c.loop.tmpPath)
      (hmkdir : Kernel.mkdir c.loop.fs c.loop.tmpPath = .error .notFound) :
      Went path mode c ((c.saw .notFound).after (Loop.afterNotFound path c.loop))
  | failed (hstage : c.stage = .mkdir) (hnul : getOsPath c.loop.tmpPath = .ok c.loop.tmpPath)
      (kind : ErrorKind) (hkind : kind ≠ .notFound)
      (hmkdir : Kernel.mkdir c.loop.fs c.loop.tmpPath = .error kind) :
      Went path mode c (c.ask kind)
  | asked (kind : ErrorKind) (hstage : c.stage = .isDir kind) :
      Went path mode c (c.after (Loop.afterError path c.loop kind))

theorem getOsPath_ok {p osPath : List UInt8} (h : getOsPath p = .ok osPath) : osPath = p := by
  rw [getOsPath] at h
  split at h
  case isTrue => cases h
  case isFalse => exact (Except.ok.inj h).symm

theorem went_of_go (h : c.go path mode = some t) : Went path mode c t := by
  unfold go at h
  split at h
  case h_1 hstage =>
    split at h
    case h_1 e hos => exact Option.some.inj h ▸ .refused hstage e hos
    case h_2 osPath hos =>
      obtain rfl := getOsPath_ok hos
      split at h
      case h_1 fs hmkdir => exact Option.some.inj h ▸ .made hstage hos fs hmkdir
      case h_2 hmkdir => exact Option.some.inj h ▸ .notFound hstage hos hmkdir
      case h_3 kind hne hmkdir =>
        refine Option.some.inj h ▸ .failed hstage hos kind ?_ hmkdir
        rintro rfl
        exact hne rfl
  case h_2 kind hstage => exact Option.some.inj h ▸ .asked kind hstage
  case h_3 => cases h

variable {a : Action} {o : Outcome} {l : Loop σ}

/-- **What a step can do.** -/
theorem step_cases (h : c.step path mode a = some t) :
    (a = .go ∧ ∃ c', Went path mode c c' ∧ t = c'.watch path) ∨
    ∃ p fs, a = .other p ∧ (∀ o, c.stage ≠ .done o) ∧ Kernel.mkdir c.loop.fs p = .ok fs ∧
      t = (c.setFs fs).watch path := by
  cases a with
  | go =>
    obtain ⟨c', hgo, rfl⟩ := Option.map_eq_some_iff.mp h
    exact .inl ⟨rfl, c', went_of_go hgo, rfl⟩
  | other p =>
    obtain ⟨c', hother, rfl⟩ := Option.map_eq_some_iff.mp h
    unfold other at hother
    split at hother
    case h_1 => cases hother
    case h_2 fs hmkdir hdone =>
      obtain rfl := Option.some.inj hother
      exact .inr ⟨p, fs, rfl, fun o ho => hdone o ho, hmkdir, rfl⟩
    case h_3 => cases hother

theorem exists_go (path : List UInt8) (mode : UInt32) (h : ∀ o, c.stage ≠ .done o) :
    ∃ t, c.go path mode = some t := by
  apply Option.isSome_iff_exists.mp
  unfold go
  split
  case h_1 =>
    split
    case h_1 => rfl
    case h_2 => split <;> rfl
  case h_2 => rfl
  case h_3 o ho => exact absurd ho (h o)

theorem step_go {c' : Call σ} (h : c.go path mode = some c') :
    c.step path mode .go = some (c'.watch path) := congrArg (Option.map (watch path)) h

theorem exec_go {c' : Call σ} (h : c.go path mode = some c') :
    exec (step path mode) c [.go] = some (c'.watch path) := by
  rw [exec, step_go h]
  rfl

/-! ### Alone, the call does what `create_dir_all` does -/

/-- One or two steps of the call are a round of the loop. -/
theorem exists_exec_round (path : List UInt8) (mode : UInt32) (h : c.stage = .mkdir) :
    ∃ n t, exec (step path mode) c (List.replicate n .go) = some t ∧
      t.loop = (Loop.round path mode c.loop).1 ∧
      t.stage = (Loop.round path mode c.loop).2.elim .mkdir .done := by
  obtain ⟨c', hgo⟩ : ∃ c', c.go path mode = some c' := by
    apply exists_go
    rw [h]
    exact fun _ => nofun
  have hone := exec_go hgo
  cases went_of_go hgo with
  | refused _ e hos =>
    refine ⟨1, _, hone, ?_⟩
    rw [Loop.round, hos]
    exact ⟨rfl, rfl⟩
  | made _ hnul _ hmkdir | notFound _ hnul hmkdir =>
    refine ⟨1, _, hone, ?_⟩
    simp only [Loop.round, hnul, hmkdir]
    exact ⟨rfl, rfl⟩
  | failed _ hnul kind hkind hmkdir =>
    have htwo : exec (step path mode) c [.go, .go] =
        some ((((c.ask kind).watch path).after (Loop.afterError path c.loop kind)).watch
          path) := by
      rw [exec, step_go hgo, Option.bind_some]
      exact exec_go rfl
    refine ⟨2, _, htwo, ?_⟩
    have hround : Loop.round path mode c.loop = Loop.afterError path c.loop kind := by
      simp only [Loop.round, hnul, hmkdir]
    rw [hround]
    exact ⟨rfl, rfl⟩
  | asked kind hstage => cases h.symm.trans hstage

theorem exists_exec_run {fuel : ℕ} (h : c.stage = .mkdir)
    (hrun : Loop.run path mode fuel c.loop = some (o, l)) :
    ∃ n t, exec (step path mode) c (List.replicate n .go) = some t ∧ t.loop = l ∧
      t.stage = .done o := by
  induction fuel generalizing c with
  | zero => cases hrun
  | succ fuel ih =>
    obtain ⟨n, t, hn, hloop, hstage⟩ := exists_exec_round path mode h
    rw [Loop.run] at hrun
    split at hrun
    case h_1 l' hround =>
      rw [hround] at hloop hstage
      obtain rfl : t.loop = l' := hloop
      obtain ⟨m, u, hm, hu⟩ := ih hstage hrun
      refine ⟨n + m, u, ?_, hu⟩
      rw [List.replicate_add, exec_append, hn]
      exact hm
    case h_2 l' o' hround =>
      obtain ⟨rfl, rfl⟩ := of_some hrun
      rw [hround] at hloop hstage
      exact ⟨n, t, hn, hloop, hstage⟩

/-- **Alone, the call does what `create_dir_all` does.** -/
theorem exists_exec_createDirAll {fuel : ℕ} (h : createDirAll fuel fs path mode = some (o, l)) :
    ∃ n t, exec (step path mode) (start fs path mode) (List.replicate n .go) = some t ∧
      t.loop = l ∧ t.stage = .done o := by
  rw [createDirAll] at h
  split at h
  case isTrue hpath =>
    obtain ⟨rfl, rfl⟩ := of_some h
    exact ⟨0, _, rfl, rfl, if_pos hpath⟩
  case isFalse hpath => exact exists_exec_run (if_neg hpath) h

/-! ### The stack and the mode -/

/-- What is tried is the whole path with the given mode, or a cut with `0o777`. -/
structure OnPath (path : List UInt8) (mode : UInt32) (l : Loop σ) : Prop where
  whole : l.pathStack = [] → l.tmpPath = path ∧ l.tmpMode = mode
  cut {offset : ℕ} {rest : List ℕ} : l.pathStack = offset :: rest →
    l.tmpPath = (toStringLossy path).take offset ∧ l.tmpMode = 0o777
  lt {offset : ℕ} : offset ∈ l.pathStack → offset < path.length

theorem search_lt {bytes : List UInt8} {i j : ℕ} (h : search bytes i = .ok j) :
    j ≤ i ∧ j < bytes.length := by
  fun_induction search bytes i with
  | case1 => cases h
  | case2 => cases h
  | case3 i hlt =>
    obtain rfl := Offset.ok.inj h
    exact ⟨Nat.le_refl i, Nat.not_le.mp hlt⟩
  | case4 => cases h
  | case5 _ _ _ i ih => exact ⟨Nat.le_succ_of_le (ih h).1, (ih h).2⟩

/-- The last cut, or the end of the path. -/
def top (path : List UInt8) (offsets : List ℕ) : ℕ := offsets.head?.getD path.length

theorem getOffset_lt {offsets : List ℕ} {offset : ℕ} (h : getOffset offsets path = .ok offset) :
    offset < top path offsets ∧ offset < path.length := by
  cases offsets with
  | nil =>
    rw [getOffset] at h
    split at h
    case isTrue => cases h
    case isFalse hpos => exact ⟨(search_lt h).2, (search_lt h).2⟩
  | cons last rest =>
    rw [getOffset] at h
    split at h
    case isTrue => cases h
    case isFalse hpos =>
      refine ⟨?_, (search_lt h).2⟩
      have hle := (search_lt h).1
      change offset < last
      omega

namespace OnPath

variable {l : Loop σ}

omit [Kernel σ] in
theorem start (fs : σ) (path : List UInt8) (mode : UInt32) :
    OnPath path mode (.start fs path mode) :=
  ⟨fun _ => ⟨rfl, rfl⟩, nofun, nofun⟩

omit [Kernel σ] in
theorem setFs (h : OnPath path mode l) (fs : σ) : OnPath path mode { l with fs := fs } :=
  ⟨h.whole, h.cut, h.lt⟩

theorem afterOk (h : OnPath path mode l) (fs : σ) :
    OnPath path mode (Loop.afterOk path mode (l.make fs)).1 := by
  unfold Loop.afterOk
  split
  case h_1 => exact ⟨h.whole, h.cut, h.lt⟩
  case h_2 => exact ⟨fun _ => ⟨rfl, rfl⟩, nofun, nofun⟩
  case h_3 last offset rest hstack =>
    refine ⟨nofun, ?_, fun hmem => h.lt (hstack ▸ List.mem_cons_of_mem last hmem)⟩
    rintro _ _ ⟨⟩
    exact ⟨rfl, (h.cut hstack).2⟩

omit [Kernel σ] in
theorem afterNotFound (h : OnPath path mode l) :
    OnPath path mode (Loop.afterNotFound path l).1 := by
  unfold Loop.afterNotFound
  split
  case h_1 offset hoffset =>
    refine ⟨nofun, ?_, fun hmem => ?_⟩
    · rintro _ _ ⟨⟩
      exact ⟨rfl, rfl⟩
    · rcases List.mem_cons.mp hmem with rfl | hmem
      · exact (getOffset_lt hoffset).2
      · exact h.lt hmem
  case h_2 => exact h
  case h_3 => exact h

end OnPath

theorem afterError_fst (path : List UInt8) (l : Loop σ) (kind : ErrorKind) :
    (Loop.afterError path l kind).1 = l := by
  unfold Loop.afterError
  split
  case isTrue => split <;> rfl
  case isFalse => rfl

omit [Kernel σ] in
theorem afterOk_fs (l : Loop σ) : (Loop.afterOk path mode l).1.fs = l.fs := by
  unfold Loop.afterOk
  split <;> rfl

omit [Kernel σ] in
theorem afterNotFound_fs (l : Loop σ) : (Loop.afterNotFound path l).1.fs = l.fs := by
  unfold Loop.afterNotFound
  split <;> rfl

theorem onPath_of_went (h : OnPath path mode c.loop) (hwent : Went path mode c t) :
    OnPath path mode t.loop := by
  cases hwent with
  | refused => exact h
  | made _ _ fs => exact h.afterOk fs
  | notFound => exact h.afterNotFound
  | failed => exact h
  | asked kind =>
    change OnPath path mode (Loop.afterError path c.loop kind).1
    rwa [afterError_fst]

theorem onPath_of_step (h : OnPath path mode c.loop) (hstep : c.step path mode a = some t) :
    OnPath path mode t.loop := by
  obtain ⟨-, c', hwent, rfl⟩ | ⟨-, fs, -, -, -, rfl⟩ := step_cases hstep
  · have hc' : OnPath path mode c'.loop := onPath_of_went h hwent
    exact hc'
  · exact h.setFs fs

theorem onPath_of_reachable (h : Reachable (step path mode) (start fs path mode) c) :
    OnPath path mode c.loop := by
  refine h.invariant (I := fun c => OnPath path mode c.loop) (OnPath.start fs path mode) ?_
  intro c a t _ hc _ hstep
  exact onPath_of_step hc hstep

/-! ### The modes -/

/-- Every directory was made with the given mode. -/
def Uniform (mode : UInt32) (c : Call σ) : Prop := ∀ x ∈ c.loop.created, x.2 = mode

omit [Kernel σ] in
theorem afterOk_created (l : Loop σ) : (Loop.afterOk path mode l).1.created = l.created := by
  unfold Loop.afterOk
  split <;> rfl

omit [Kernel σ] in
theorem afterNotFound_created (l : Loop σ) :
    (Loop.afterNotFound path l).1.created = l.created := by
  unfold Loop.afterNotFound
  split <;> rfl

/-- What the call makes has the mode that it is at. -/
theorem created_of_went (hwent : Went path mode c t) :
    (∃ fs loc, c.Mkdir (.ok fs) ∧ t.loop.created = c.loop.created ++ [(loc, c.loop.tmpMode)]) ∨
      (∀ fs, ¬c.Mkdir (.ok fs)) ∧ t.loop.created = c.loop.created := by
  cases hwent with
  | refused hstage e hos =>
    refine .inr ⟨?_, rfl⟩
    rintro fs ⟨-, osPath, hok, -⟩
    cases hos.symm.trans hok
  | made hstage hnul fs hmkdir =>
    exact .inl ⟨fs, _, ⟨hstage, _, hnul, hmkdir⟩, afterOk_created _⟩
  | notFound hstage hnul hmkdir =>
    refine .inr ⟨?_, afterNotFound_created _⟩
    rintro fs ⟨-, osPath, hok, hfs⟩
    obtain rfl := getOsPath_ok hok
    cases hmkdir.symm.trans hfs
  | failed hstage hnul kind hkind hmkdir =>
    refine .inr ⟨?_, rfl⟩
    rintro fs ⟨-, osPath, hok, hfs⟩
    obtain rfl := getOsPath_ok hok
    cases hmkdir.symm.trans hfs
  | asked kind hstage =>
    refine .inr ⟨?_, congrArg Loop.created (afterError_fst path c.loop kind)⟩
    rintro fs ⟨hmkdir, -⟩
    cases hstage.symm.trans hmkdir

theorem uniform_go_iff (hpath : OnPath path mode c.loop) (h : Uniform mode c)
    (hwent : Went path mode c t) :
    Uniform mode t ↔ ¬(mode ≠ 0o777 ∧ MakesParent c .go) := by
  obtain ⟨fs, loc, hmkdir, hcreated⟩ | ⟨hmkdir, hcreated⟩ := created_of_went hwent
  · have hmode : c.loop.tmpMode = mode ↔ ¬(mode ≠ 0o777 ∧ c.loop.pathStack ≠ []) := by
      cases hstack : c.loop.pathStack with
      | nil => exact iff_of_true (hpath.whole hstack).2 fun h => h.2 rfl
      | cons offset rest =>
        rw [(hpath.cut hstack).2, eq_comm]
        exact ⟨fun h h' => h'.1 h, fun h => by_contra fun h' => h ⟨h', List.cons_ne_nil _ _⟩⟩
    constructor
    · rintro ht ⟨hne, -, -, hstack⟩
      refine hmode.mp (ht (loc, c.loop.tmpMode) ?_) ⟨hne, hstack⟩
      rw [hcreated]
      exact List.mem_append_right _ (List.mem_singleton_self _)
    · intro hnot x hx
      rw [hcreated] at hx
      rcases List.mem_append.mp hx with hx | hx
      · exact h x hx
      · rw [List.mem_singleton.mp hx]
        exact hmode.mpr fun ⟨hne, hstack⟩ => hnot ⟨hne, rfl, ⟨fs, hmkdir⟩, hstack⟩
  · refine iff_of_true ?_ ?_
    · intro x hx
      rw [hcreated] at hx
      exact h x hx
    · rintro ⟨-, -, ⟨fs, hfs⟩, -⟩
      exact hmkdir fs hfs

theorem uniform_step_iff (hpath : OnPath path mode c.loop) (h : Uniform mode c)
    (hstep : c.step path mode a = some t) : Uniform mode t ↔ ¬(mode ≠ 0o777 ∧ MakesParent c a) := by
  obtain ⟨rfl, c', hwent, rfl⟩ | ⟨loc, fs, rfl, -, -, rfl⟩ := step_cases hstep
  · have hiff : Uniform mode c' ↔ _ := uniform_go_iff hpath h hwent
    exact hiff
  · refine iff_of_true h ?_
    rintro ⟨-, hgo, -⟩
    cases hgo

/-- **When every directory is made with the given mode.** -/
theorem modes_iff (fs : σ) (path : List UInt8) (mode : UInt32) (as : List Action) :
    Always (step path mode) (Uniform mode) (start fs path mode) as ↔
      Never (step path mode) (fun c a => mode ≠ 0o777 ∧ c.MakesParent a) (start fs path mode)
        as := by
  refine always_iff_never ?_ .start (fun _ hx => absurd hx List.not_mem_nil) as
  intro c a t hc huniform hstep
  exact uniform_step_iff (onPath_of_reachable hc) huniform hstep

/-- For `aa/b` with the mode `0o700`, `aa` is made with the mode `0o777`. -/
theorem not_uniform_of_missing_parent :
    ∃ c, exec (step [0x61, 0x61, 0x2F, 0x62] 0o700)
        (start FileSystem.empty [0x61, 0x61, 0x2F, 0x62] 0o700) [.go, .go, .go] = some c ∧
      c.stage = .done .ok ∧
      c.loop.created = [([[0x61, 0x61]], 0o777), ([[0x61, 0x61], [0x62]], 0o700)] ∧
      ¬Uniform 0o700 c := by
  refine ⟨_, rfl, rfl, rfl, fun h => ?_⟩
  have hmode : (0o777 : UInt32) = 0o700 := h ([[0x61, 0x61]], 0o777) (List.mem_cons_self ..)
  exact absurd hmode (by decide)

/-! ### Whether the call ends -/

/-- The cuts of the path that are missing. -/
def missing (path : List UInt8) (fs : σ) : Finset ℕ :=
  {i ∈ Finset.range path.length | Kernel.refuses fs ((toStringLossy path).take i) = false}

theorem refuses_of_ok {fs' : σ} {p : List UInt8} (h : Kernel.mkdir fs p = .ok fs') :
    Kernel.refuses fs p = false := by
  rw [Kernel.refuses, h]

theorem refuses_of_error {kind : ErrorKind} {p : List UInt8}
    (h : Kernel.mkdir fs p = .error kind) : Kernel.refuses fs p = true ↔ kind ≠ .notFound := by
  rw [Kernel.refuses, h]
  exact bne_iff_ne

section Missing

variable [LawfulKernel σ] {fs' : σ} {p : List UInt8}

theorem missing_subset (h : Kernel.mkdir fs p = .ok fs') : missing path fs' ⊆ missing path fs := by
  apply Finset.monotone_filter_right
  intro i _ hi
  apply Bool.eq_false_iff.mpr
  intro hrefuses
  rw [LawfulKernel.refuses_of_mkdir h hrefuses] at hi
  cases hi

/-- When the directory of a cut is made, one less is missing. -/
theorem card_missing_lt {i : ℕ} (hi : i < path.length)
    (h : Kernel.mkdir fs ((toStringLossy path).take i) = .ok fs') :
    (missing path fs').card < (missing path fs).card := by
  apply Finset.card_lt_card
  refine (Finset.ssubset_iff_of_subset (missing_subset h)).mpr ⟨i, ?_, ?_⟩
  · exact Finset.mem_filter.mpr ⟨Finset.mem_range.mpr hi, refuses_of_ok h⟩
  · intro hmem
    have hnot := (Finset.mem_filter.mp hmem).2
    rw [LawfulKernel.refuses_self h] at hnot
    cases hnot

end Missing

/-- What is left to do at most: for each missing cut, the way back from the end of the path. -/
def left (path : List UInt8) (l : Loop σ) : ℕ :=
  (missing path l.fs).card * (path.length + 1) + top path l.pathStack

/-- How often the call goes on at most, if it does not stall. -/
def weight (path : List UInt8) (c : Call σ) : ℕ :=
  match c.stage with
  | .mkdir => left path c.loop + 2
  | .isDir _ => 1
  | .done _ => 0

omit [Kernel σ] in
theorem top_le (h : OnPath path mode l) : top path l.pathStack ≤ path.length := by
  cases hstack : l.pathStack with
  | nil => exact Nat.le_refl _
  | cons offset rest =>
    apply Nat.le_of_lt
    apply h.lt
    rw [hstack]
    exact List.mem_cons_self

theorem left_afterOk_lt [LawfulKernel σ] (h : OnPath path mode l)
    (hmkdir : Kernel.mkdir l.fs l.tmpPath = .ok fs) (hstack : l.pathStack ≠ []) :
    left path (Loop.afterOk path mode (l.make fs)).1 < left path l := by
  obtain ⟨offset, rest, hcons⟩ := List.exists_cons_of_ne_nil hstack
  have hfs : (Loop.afterOk path mode (l.make fs)).1.fs = fs := afterOk_fs _
  have hlt : (missing path fs).card < (missing path l.fs).card := by
    rw [(h.cut hcons).1] at hmkdir
    exact card_missing_lt (h.lt (hcons ▸ List.mem_cons_self)) hmkdir
  have htop := top_le (h.afterOk fs)
  have hmul := Nat.mul_le_mul_right (path.length + 1) hlt
  rw [Nat.succ_mul] at hmul
  rw [left, left, hfs]
  omega

theorem left_afterNotFound_lt {offset : ℕ} (hoffset : getOffset l.pathStack path = .ok offset) :
    left path (Loop.afterNotFound path l).1 < left path l := by
  have hlt := (getOffset_lt hoffset).1
  unfold Loop.afterNotFound
  rw [hoffset]
  exact Nat.add_lt_add_left hlt _

theorem weight_after_lt {r : Loop σ × Option Outcome}
    (h : (∃ o, r.2 = some o) ∨ left path r.1 < left path c.loop) (hstage : c.stage = .mkdir) :
    weight path (t.after r) < weight path c := by
  obtain ⟨l, o⟩ := r
  rw [weight, weight, hstage]
  cases o with
  | some o => exact Nat.succ_pos _
  | none =>
    obtain ⟨o, ho⟩ | hlt := h
    · cases ho
    · exact Nat.add_lt_add_right hlt 2

theorem weight_go_lt [LawfulKernel σ] (hpath : OnPath path mode c.loop) (hwent : Went path mode c t)
    (hstall : ¬Stalls path c .go) : weight path t < weight path c := by
  cases hwent with
  | refused hstage => exact weight_after_lt (.inl ⟨_, rfl⟩) hstage
  | made hstage _ fs hmkdir =>
    refine weight_after_lt ?_ hstage
    by_cases hstack : c.loop.pathStack = []
    · left
      refine ⟨.ok, ?_⟩
      rw [Loop.afterOk, Loop.make, hstack]
    · exact .inr (left_afterOk_lt hpath hmkdir hstack)
  | notFound hstage =>
    refine weight_after_lt ?_ hstage
    cases hoffset : getOffset c.loop.pathStack path with
    | ok offset => exact .inr (left_afterNotFound_lt hoffset)
    | err | panic => exact .inl ⟨_, by rw [Loop.afterNotFound, hoffset]⟩
  | failed hstage =>
    rw [weight, weight, hstage]
    exact Nat.succ_lt_succ (Nat.succ_pos _)
  | asked kind hstage =>
    -- It does not stall, so that it ends.
    have hdone : ∃ o, (Loop.afterError path c.loop kind).2 = some o := by
      unfold Loop.afterError
      split
      case isTrue hdir =>
        split
        case isTrue => exact ⟨_, rfl⟩
        case isFalse hstack =>
          exact absurd ⟨rfl, ⟨kind, hstage⟩, mt List.isEmpty_iff.mpr hstack, hdir⟩ hstall
      case isFalse => exact ⟨_, rfl⟩
    obtain ⟨o, ho⟩ := hdone
    rw [weight, weight, hstage, after, ho]
    exact Nat.one_pos

/-- What other processes make only helps. -/
theorem weight_other_le [LawfulKernel σ] {p : List UInt8}
    (h : Kernel.mkdir c.loop.fs p = .ok fs) : weight path (c.setFs fs) ≤ weight path c := by
  have hsubset : missing path fs ⊆ missing path c.loop.fs := missing_subset h
  have hleft : left path (c.setFs fs).loop ≤ left path c.loop :=
    Nat.add_le_add_right (Nat.mul_le_mul_right _ (Finset.card_le_card hsubset)) _
  have hstage : (c.setFs fs).stage = c.stage := rfl
  rw [weight, weight, hstage]
  cases c.stage with
  | mkdir => exact Nat.add_le_add_right hleft 2
  | isDir => exact Nat.le_refl 1
  | done => exact Nat.le_refl 0

/-- **The bound of a run that does not stall.** -/
theorem count_go_add_weight_le [LawfulKernel σ] {as : List Action} (hpath : OnPath path mode c.loop)
    (h : exec (step path mode) c as = some t) (hnever : Never (step path mode) (Stalls path) c as) :
    as.count .go + weight path t ≤ weight path c := by
  induction as generalizing c with
  | nil =>
    obtain rfl := Option.some.inj h
    exact Nat.le_of_eq (Nat.zero_add _)
  | cons a as ih =>
    rw [exec, Option.bind_eq_some_iff] at h
    obtain ⟨u, hu, hrest⟩ := h
    obtain ⟨hstall, hnever⟩ := hnever u hu
    have hle := ih (onPath_of_step hpath hu) hrest hnever
    obtain ⟨rfl, c', hwent, rfl⟩ | ⟨loc, fs, rfl, -, hmkdir, rfl⟩ := step_cases hu
    · have hlt : weight path c' < weight path c := weight_go_lt hpath hwent hstall
      change _ ≤ weight path c' at hle
      rw [List.count_cons_self]
      omega
    · rw [List.count_cons_of_ne (by rintro ⟨⟩)]
      exact Nat.le_trans hle (weight_other_le hmkdir)

/-! ### A call that has stalled -/

/-- The call has failed to make what it asks about. -/
def Asks (c : Call σ) : Prop :=
  ∀ kind, c.stage = .isDir kind →
    getOsPath c.loop.tmpPath = .ok c.loop.tmpPath ∧
      Kernel.refuses c.loop.fs c.loop.tmpPath = true

omit [Kernel σ] in
theorem after_stage_ne (c : Call σ) (r : Loop σ × Option Outcome) (kind : ErrorKind) :
    (c.after r).stage ≠ .isDir kind := by
  obtain ⟨l, o⟩ := r
  cases o with
  | none | some => exact nofun

theorem asks_of_went (hwent : Went path mode c t) : Asks t := by
  intro kind hkind
  cases hwent with
  | refused | made | notFound | asked => exact absurd hkind (after_stage_ne _ _ kind)
  | failed _ hnul kind hne hmkdir => exact ⟨hnul, (refuses_of_error hmkdir).mpr hne⟩

theorem asks_of_reachable [LawfulKernel σ]
    (h : Reachable (step path mode) (start fs path mode) c) : Asks c := by
  refine h.invariant (I := Asks) ?_ ?_
  · intro kind hkind
    rw [start] at hkind
    split at hkind <;> cases hkind
  · intro c a t _ hc _ hstep
    obtain ⟨-, c', hwent, rfl⟩ | ⟨_, fs, -, -, hmkdir, rfl⟩ := step_cases hstep
    · have hasks : Asks c' := asks_of_went hwent
      exact hasks
    · intro kind hkind
      obtain ⟨hnul, htaken⟩ := hc kind hkind
      exact ⟨hnul, LawfulKernel.refuses_of_mkdir hmkdir htaken⟩

/-- What the call tries is refused, and the path is a directory. -/
structure Stalled (path : List UInt8) (c : Call σ) : Prop where
  going (o : Outcome) : c.stage ≠ .done o
  stack : c.loop.pathStack ≠ []
  nul : getOsPath c.loop.tmpPath = .ok c.loop.tmpPath
  taken : Kernel.refuses c.loop.fs c.loop.tmpPath = true
  dir : Kernel.isDir c.loop.fs path = true

theorem Stalled.went (h : Stalled path c) (hwent : Went path mode c t) : Stalled path t := by
  cases hwent with
  | refused _ e hos => cases h.nul.symm.trans hos
  | made _ _ fs hmkdir => exact absurd h.taken (Bool.eq_false_iff.mp (refuses_of_ok hmkdir))
  | notFound _ _ hmkdir => exact absurd rfl ((refuses_of_error hmkdir).mp h.taken)
  | failed => exact ⟨by rintro o ⟨⟩, h.stack, h.nul, h.taken, h.dir⟩
  | asked kind =>
    have hagain : Loop.afterError path c.loop kind = (c.loop, none) := by
      rw [Loop.afterError, if_pos h.dir, if_neg (mt List.isEmpty_iff.mp h.stack)]
    rw [hagain]
    exact ⟨by rintro o ⟨⟩, h.stack, h.nul, h.taken, h.dir⟩

theorem Stalled.exec [LawfulKernel σ] {as : List Action} (h : Stalled path c)
    (hexec : Lib.exec (step path mode) c as = some t) : Stalled path t := by
  have hreach : Reachable (step path mode) c t := reachable_of_exec as hexec
  refine hreach.invariant (I := Stalled path) h ?_
  intro c a t _ hc _ hstep
  obtain ⟨-, c', hwent, rfl⟩ | ⟨_, fs, -, -, hmkdir, rfl⟩ := step_cases hstep
  · obtain ⟨hgoing, hstack, hnul, htaken, hdir⟩ := hc.went hwent
    exact ⟨hgoing, hstack, hnul, htaken, hdir⟩
  · exact ⟨hc.going, hc.stack, hc.nul, LawfulKernel.refuses_of_mkdir hmkdir hc.taken,
      LawfulKernel.isDir_of_mkdir hmkdir hc.dir⟩

theorem stalled_of_stalls [LawfulKernel σ] (h : Reachable (step path mode) (start fs path mode) c)
    (hstalls : Stalls path c a) : Stalled path c := by
  obtain ⟨-, ⟨kind, hkind⟩, hstack, hdir⟩ := hstalls
  obtain ⟨hnul, htaken⟩ := asks_of_reachable h kind hkind
  refine ⟨fun o ho => ?_, hstack, hnul, htaken, hdir⟩
  cases hkind.symm.trans ho

/-! ### How the call ends -/

/-- What the history says: the path stays a directory, and an error at the end has its reason. -/
structure Told (path : List UInt8) (c : Call σ) : Prop where
  dir : c.wasDir = true → Kernel.isDir c.loop.fs path = true
  ok {o : Outcome} : c.stage = .done o →
    o = .ok ∨ Kernel.isDir c.loop.fs path = false ∨ .invalidInput ∈ c.errors

theorem Told.start (fs : σ) (path : List UInt8) (mode : UInt32) :
    Told path (start fs path mode) := by
  refine ⟨fun h => h, fun {o} ho => .inl ?_⟩
  rw [Call.start] at ho
  split at ho
  case isTrue => exact (Stage.done.inj ho).symm
  case isFalse => cases ho

theorem Told.watch (h : Told path c) : Told path (c.watch path) := by
  refine ⟨fun hdir => ?_, h.ok⟩
  rcases Bool.or_eq_true_iff.mp hdir with hwas | hnow
  · exact h.dir hwas
  · exact hnow

theorem isDir_of_went [LawfulKernel σ] (hwent : Went path mode c t)
    (h : Kernel.isDir c.loop.fs path = true) : Kernel.isDir t.loop.fs path = true := by
  cases hwent with
  | refused | failed => exact h
  | made _ _ fs hmkdir =>
    rw [after, afterOk_fs]
    exact LawfulKernel.isDir_of_mkdir hmkdir h
  | notFound =>
    rw [after, afterNotFound_fs]
    exact h
  | asked kind =>
    rw [after, afterError_fst]
    exact h

theorem getOsPath_error {p : List UInt8} {e : Error} (h : getOsPath p = .error e) :
    e.kind = .invalidInput := by
  rw [getOsPath] at h
  split at h
  case isTrue => rw [← Except.error.inj h]
  case isFalse => cases h

omit [Kernel σ] in
theorem after_done {r : Loop σ × Option Outcome} (h : (c.after r).stage = .done o) :
    r.2 = some o := by
  obtain ⟨l, o'⟩ := r
  cases o' with
  | none => cases h
  | some o' => rw [Stage.done.inj h]

/-- An error at the end has its reason. -/
theorem ok_of_went (hwent : Went path mode c t) (hfree : ¬Blocked path c .go)
    (h : t.stage = .done o) :
    o = .ok ∨ Kernel.isDir t.loop.fs path = false ∨ .invalidInput ∈ t.errors := by
  cases hwent with
  | refused _ e hos =>
    refine .inr (.inr ?_)
    rw [← getOsPath_error hos]
    exact List.mem_append_right _ (List.mem_singleton_self _)
  | made _ _ fs =>
    have hend := after_done h
    unfold Loop.afterOk at hend
    split at hend
    case h_1 => exact .inl (Option.some.inj hend).symm
    case h_2 => cases hend
    case h_3 => cases hend
  | notFound hstage hnul hmkdir =>
    have hend := after_done h
    unfold Loop.afterNotFound at hend
    split at hend
    case h_1 => cases hend
    case h_2 herr =>
      refine absurd ⟨rfl, ⟨hstage, _, hnul, hmkdir⟩, fun offset hok => ?_⟩ hfree
      cases herr.symm.trans hok
    case h_3 hpanic =>
      refine absurd ⟨rfl, ⟨hstage, _, hnul, hmkdir⟩, fun offset hok => ?_⟩ hfree
      cases hpanic.symm.trans hok
  | failed => cases h
  | asked kind =>
    have hend := after_done h
    rw [after, afterError_fst]
    unfold Loop.afterError at hend
    split at hend
    case isTrue =>
      split at hend
      case isTrue => exact .inl (Option.some.inj hend).symm
      case isFalse => cases hend
    case isFalse hdir => exact .inr (.inl (Bool.eq_false_iff.mpr hdir))

theorem wasDir_of_went (hwent : Went path mode c t) : t.wasDir = c.wasDir := by
  cases hwent <;> rfl

theorem Told.went [LawfulKernel σ] (h : Told path c) (hwent : Went path mode c t)
    (hfree : ¬Blocked path c .go) : Told path t := by
  refine ⟨fun hwas => ?_, ok_of_went hwent hfree⟩
  rw [wasDir_of_went hwent] at hwas
  exact isDir_of_went hwent (h.dir hwas)

theorem told_of_reach [LawfulKernel σ] (h : Reach (step path mode) (fun c a => ¬Blocked path c a)
    (start fs path mode) c) : Told path c := by
  refine h.invariant (I := Told path) (.start fs path mode) ?_
  intro c a t _ hc hfree hstep
  obtain ⟨rfl, c', hwent, rfl⟩ | ⟨_, fs, -, hgoing, hmkdir, rfl⟩ := step_cases hstep
  · exact (hc.went hwent hfree).watch
  · have hset : Told path (c.setFs fs) :=
      ⟨fun hwas => LawfulKernel.isDir_of_mkdir hmkdir (hc.dir hwas),
        fun {o} ho => absurd ho (hgoing o)⟩
    exact hset.watch

/-- **When the call ends**: it goes on only so often unless it stalls, and then it does not end.  It
ends with `Ok` if the path was a directory, unless `get_offset` fails. -/
theorem create_ends [LawfulKernel σ] (fs : σ) (path : List UInt8) (mode : UInt32) :
    (∃ n, ∀ as c, exec (step path mode) (start fs path mode) as = some c →
      Never (step path mode) (Stalls path) (start fs path mode) as →
        as.count .go ≤ n ∧ ((∀ o, c.stage ≠ .done o) → ∃ t, c.step path mode .go = some t)) ∧
    (∀ c, Reachable (step path mode) (start fs path mode) c → Stalls path c .go →
      ∀ as t, exec (step path mode) c as = some t → ∀ o, t.stage ≠ .done o) ∧
    ∀ c o, Reach (step path mode) (fun c a => ¬Blocked path c a) (start fs path mode) c →
      c.stage = .done o → c.wasDir = true →
      (∀ kind ∈ c.errors, kind = .notFound ∨ kind = .alreadyExists) → o = .ok := by
  refine ⟨⟨weight path (start fs path mode), ?_⟩, ?_, ?_⟩
  · intro as c hexec hnever
    have hle := count_go_add_weight_le (OnPath.start fs path mode) hexec hnever
    refine ⟨Nat.le_trans (Nat.le_add_right _ _) hle, fun hgoing => ?_⟩
    obtain ⟨c', hgo⟩ := exists_go path mode hgoing
    exact ⟨_, step_go hgo⟩
  · intro c hc hstalls as t hexec
    exact ((stalled_of_stalls hc hstalls).exec hexec).going
  · intro c o hc hdone hwas herrors
    have htold := told_of_reach hc
    rcases htold.ok hdone with hok | hdir | hinput
    · exact hok
    · exact absurd (htold.dir hwas) (Bool.eq_false_iff.mp hdir)
    · rcases herrors _ hinput with h | h <;> cases h

/-- `aa/b` is made in a file system that is empty at first. -/
theorem create_ends_two_components :
    ∃ n, ∀ as c, exec (step [0x61, 0x61, 0x2F, 0x62] 0o755)
        (start FileSystem.empty [0x61, 0x61, 0x2F, 0x62] 0o755) as = some c →
      Never (step [0x61, 0x61, 0x2F, 0x62] 0o755) (Stalls [0x61, 0x61, 0x2F, 0x62])
        (start FileSystem.empty [0x61, 0x61, 0x2F, 0x62] 0o755) as →
        as.count .go ≤ n ∧
          ((∀ o, c.stage ≠ .done o) →
            ∃ t, c.step [0x61, 0x61, 0x2F, 0x62] 0o755 .go = some t) :=
  (create_ends FileSystem.empty [0x61, 0x61, 0x2F, 0x62] 0o755).1

/-- While `aa/b` is made, another process makes `aa` and `aa/b` after the first `mkdir`: the call
tries to make `aa` for ever. -/
theorem stalls_two_components :
    ∃ c, exec (step [0x61, 0x61, 0x2F, 0x62] 0o755)
        (start FileSystem.empty [0x61, 0x61, 0x2F, 0x62] 0o755)
        [.go, .other [0x61, 0x61], .other [0x61, 0x61, 0x2F, 0x62], .go] = some c ∧
      c.wasDir = true ∧ c.errors = [.notFound, .alreadyExists] ∧
      ∀ as t, exec (step [0x61, 0x61, 0x2F, 0x62] 0o755) c as = some t →
        (∀ o, t.stage ≠ .done o) ∧ ∃ u, t.step [0x61, 0x61, 0x2F, 0x62] 0o755 .go = some u := by
  have hrun : ∃ c, exec (step [0x61, 0x61, 0x2F, 0x62] 0o755)
        (start FileSystem.empty [0x61, 0x61, 0x2F, 0x62] 0o755)
        [.go, .other [0x61, 0x61], .other [0x61, 0x61, 0x2F, 0x62], .go] = some c ∧
      c.wasDir = true ∧ c.errors = [.notFound, .alreadyExists] ∧
      c.stage = .isDir .alreadyExists ∧ c.loop.pathStack = [2] ∧
      Kernel.isDir c.loop.fs [0x61, 0x61, 0x2F, 0x62] = true := ⟨_, rfl, rfl, rfl, rfl, rfl, rfl⟩
  obtain ⟨c, hc, hwas, herrors, hstage, hstack, hdir⟩ := hrun
  refine ⟨c, hc, hwas, herrors, fun as t hexec => ?_⟩
  have hne : c.loop.pathStack ≠ [] := by
    rw [hstack]
    exact List.cons_ne_nil 2 []
  have hstalled : Stalled [0x61, 0x61, 0x2F, 0x62] c :=
    stalled_of_stalls (reachable_of_exec _ hc) ⟨rfl, ⟨_, hstage⟩, hne, hdir⟩
  have hgoing := (hstalled.exec hexec).going
  obtain ⟨u, hgo⟩ := exists_go [0x61, 0x61, 0x2F, 0x62] 0o755 hgoing
  exact ⟨hgoing, _, step_go hgo⟩

end Call

end Orengine.Fs
