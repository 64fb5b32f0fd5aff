import Orengine.Lib.Reach
import Mathlib.Data.List.Basic
import Mathlib.Tactic.SplitIfs

/-!
# The stack of calls of `exec_task_now`

`exec_task` polls a task inside the code that calls it as long as `exec_series` is below 63, and
else sets `exec_series` to zero and spawns the task; `exec_task_now` always polls it.  A `Frame` is
a call of `exec_task_now` in progress, from the poll of the task to the end of `handle_call`, and
remembers whether `exec_task` has made it.  What the tasks, `handle_call` and the code around them
do is given by a `Program`, as in `Orengine.Runtime.Executor.Nested`; here the code may also call
`exec_task_now` itself, and tasks are local or shared.

`exec_series` counts the calls since it was last set to zero, not those in progress: the call of
`exec_task` that spawns because the stack is deep also sets the counter to zero, and the next one
nests again.  So the stack has no bound (`exists_depth_eq`, `depth_le_of_spawns_shallow`).
-/

namespace Orengine.Runtime.CallStack

open Lib

/-- What the code of the innermost frame does up to the next point that involves the executor. -/
inductive Outcome (τ κ : Type*) where
  /-- It goes on at `k`. -/
  | goto (k : κ)
  /-- It calls `exec_task(t)` and goes on at `k` when the call returns. -/
  | execTask (t : τ) (k : κ)
  /-- It calls `exec_task_now(t)` and goes on at `k` when the call returns. -/
  | execTaskNow (t : τ) (k : κ)
  /-- It calls `spawn_local_task(t)` or `spawn_shared_task(t)` and goes on at `k`. -/
  | spawn (t : τ) (k : κ)
  /-- The call of `exec_task_now` returns. -/
  | returned
  deriving DecidableEq

/-- The code of all tasks of an executor over the memory `σ` that they share. -/
structure Program (τ σ κ Λ : Type*) where
  /-- The place where a poll of a task starts. -/
  entry : κ
  /-- Whether a task is local. -/
  isLocal : σ → τ → Bool
  /-- The code of the task `t` at the place `k`; the label chooses what the task's own code
  does. -/
  code : σ → τ → κ → Λ → Option (σ × Outcome τ κ)

/-- A call of `exec_task_now` in progress. -/
structure Frame (τ κ : Type*) where
  task : τ
  /-- Where its code goes on. -/
  place : κ
  /-- Whether it was entered through `exec_task`. -/
  viaExecTask : Bool
  deriving DecidableEq

/-- The part of `Executor` that executes tasks. -/
structure Executor (τ σ κ : Type*) where
  /-- The memory that the tasks share. -/
  state : σ
  /-- The calls of `exec_task_now` in progress, innermost first. -/
  frames : List (Frame τ κ)
  /-- `local_tasks`, its front first. -/
  localTasks : List τ
  /-- `shared_tasks`, its front first. -/
  sharedTasks : List τ
  execSeries : ℕ
  deriving DecidableEq

inductive Move (τ Λ : Type*) where
  /-- The innermost frame runs its code. -/
  | code (choice : Λ)
  /-- `exec_cpu_tasks` executes the task at the back of `local_tasks`. -/
  | popLocal
  /-- `exec_cpu_tasks` executes the task at the back of `shared_tasks`. -/
  | popShared
  /-- The run loop, or code outside of it, executes a task from elsewhere. -/
  | execTask (t : τ)
  /-- Code outside of the run loop calls `exec_task_now`. -/
  | execTaskNow (t : τ)
  /-- `prepare_to_new_round`. -/
  | newRound

namespace Executor

variable {τ σ κ Λ : Type*}

/-- The executor before its first task, with the memory `s`. -/
def init (s : σ) : Executor τ σ κ := ⟨s, [], [], [], 0⟩

/-- How many frames were entered through `exec_task`. -/
def depth (e : Executor τ σ κ) : ℕ := e.frames.countP fun f => f.viaExecTask

variable (P : Program τ σ κ Λ)

/-- `spawn_local_task` of a local task, `spawn_shared_task` of a shared one. -/
def spawn (e : Executor τ σ κ) (t : τ) : Executor τ σ κ :=
  if P.isLocal e.state t then { e with localTasks := e.localTasks ++ [t] }
  else { e with sharedTasks := e.sharedTasks ++ [t] }

/-- `Executor::exec_task_now`, up to the poll of the task. -/
def execTaskNow (e : Executor τ σ κ) (t : τ) (viaExecTask : Bool) : Executor τ σ κ :=
  { e with
      execSeries := e.execSeries + 1
      frames := ⟨t, P.entry, viaExecTask⟩ :: e.frames }

def execTask (e : Executor τ σ κ) (t : τ) : Executor τ σ κ :=
  if e.execSeries < 63 then e.execTaskNow P t true
  else { e with execSeries := 0 }.spawn P t

/-- The executor after the code of its innermost frame `f` has had an outcome; the frames further
out are `rest`. -/
def afterCode (e : Executor τ σ κ) (f : Frame τ κ) (rest : List (Frame τ κ)) (s : σ) :
    Outcome τ κ → Executor τ σ κ
  | .goto k => { e with state := s, frames := { f with place := k } :: rest }
  | .execTask t k => { e with state := s, frames := { f with place := k } :: rest }.execTask P t
  | .execTaskNow t k =>
    { e with state := s, frames := { f with place := k } :: rest }.execTaskNow P t false
  | .spawn t k => { e with state := s, frames := { f with place := k } :: rest }.spawn P t
  | .returned => { e with state := s, frames := rest }

def step (e : Executor τ σ κ) : Move τ Λ → Option (Executor τ σ κ)
  | .code c =>
    match e.frames with
    | [] => none
    | f :: rest =>
      (P.code e.state f.task f.place c).map fun r => e.afterCode P f rest r.1 r.2
  | .popLocal =>
    match e.frames, e.localTasks.getLast? with
    | [], some t => some ({ e with localTasks := e.localTasks.dropLast }.execTask P t)
    | _, _ => none
  | .popShared =>
    match e.frames, e.sharedTasks.getLast? with
    | [], some t => some ({ e with sharedTasks := e.sharedTasks.dropLast }.execTask P t)
    | _, _ => none
  | .execTask t =>
    match e.frames with
    | [] => some (e.execTask P t)
    | _ :: _ => none
  | .execTaskNow t =>
    match e.frames with
    | [] => some (e.execTaskNow P t false)
    | _ :: _ => none
  | .newRound =>
    match e.frames with
    | [] => some { e with execSeries := 0 }
    | _ :: _ => none

/-- Whether a move is a call of `exec_task` that spawns its task while two frames or more that
were entered through `exec_task` are on the stack. -/
def spawnsDeep (e : Executor τ σ κ) : Move τ Λ → Bool
  | .code c =>
    match e.frames with
    | [] => false
    | f :: _ =>
      match P.code e.state f.task f.place c with
      | some (_, .execTask _ _) => decide (63 ≤ e.execSeries ∧ 2 ≤ e.depth)
      | _ => false
  | _ => false

/-! ### Small facts -/

variable {P}

variable {e : Executor τ σ κ}

@[simp] theorem depth_nil (h : e.frames = []) : e.depth = 0 := by
  rw [depth, h, List.countP_nil]

@[simp] theorem spawn_depth (e : Executor τ σ κ) (t : τ) : (e.spawn P t).depth = e.depth := by
  unfold spawn
  split_ifs <;> rfl

@[simp] theorem spawn_execSeries (e : Executor τ σ κ) (t : τ) :
    (e.spawn P t).execSeries = e.execSeries := by
  unfold spawn
  split_ifs <;> rfl

theorem spawn_frames (e : Executor τ σ κ) (t : τ) : (e.spawn P t).frames = e.frames := by
  unfold spawn
  split_ifs <;> rfl

@[simp] theorem execTaskNow_depth (e : Executor τ σ κ) (t : τ) (v : Bool) :
    (e.execTaskNow P t v).depth = e.depth + v.toNat := by
  cases v <;> simp [execTaskNow, depth]

@[simp] theorem execTaskNow_execSeries (e : Executor τ σ κ) (t : τ) (v : Bool) :
    (e.execTaskNow P t v).execSeries = e.execSeries + 1 := rfl

theorem execTask_of_lt (h : e.execSeries < 63) (t : τ) :
    e.execTask P t = e.execTaskNow P t true := if_pos h

theorem execTask_of_le (h : 63 ≤ e.execSeries) (t : τ) :
    e.execTask P t = { e with execSeries := 0 }.spawn P t := if_neg (Nat.not_lt.mpr h)

/-- The code of a frame can change the place where it goes on; that does not change the depth. -/
theorem depth_place {f : Frame τ κ} {rest : List (Frame τ κ)} (h : e.frames = f :: rest) (s : σ)
    (k : κ) :
    ({ e with state := s, frames := { f with place := k } :: rest } : Executor τ σ κ).depth =
      e.depth := by
  simp only [depth, h, List.countP_cons]

/-! ### The bound -/

/-- The invariant: the frames that `exec_task` has entered are at most one more than
`exec_series`, and at most 64. -/
structure Bounded (e : Executor τ σ κ) : Prop where
  le_series : e.depth ≤ e.execSeries + 1
  le_limit : e.depth ≤ 64

/-- A call of `exec_task` keeps the invariant, unless it spawns below two frames. -/
theorem Bounded.execTask (h : e.Bounded) (hspawn : 63 ≤ e.execSeries → e.depth ≤ 1) (t : τ) :
    (e.execTask P t).Bounded := by
  obtain ⟨hseries, hlimit⟩ := h
  rcases Nat.lt_or_ge e.execSeries 63 with hlt | hge
  · rw [execTask_of_lt hlt]
    constructor
    · simp only [execTaskNow_depth, execTaskNow_execSeries, Bool.toNat_true]
      omega
    · simp only [execTaskNow_depth, Bool.toNat_true]
      omega
  · have hone : e.depth ≤ 1 := hspawn hge
    rw [execTask_of_le hge]
    constructor
    · rw [spawn_depth]
      exact Nat.le_trans hone (Nat.le_add_left 1 _)
    · rw [spawn_depth]
      exact Nat.le_trans hone (by decide)

theorem Bounded.execTaskNow (h : e.Bounded) (t : τ) : (e.execTaskNow P t false).Bounded := by
  obtain ⟨hseries, hlimit⟩ := h
  constructor
  · simp only [execTaskNow_depth, execTaskNow_execSeries, Bool.toNat_false]
    omega
  · simpa only [execTaskNow_depth, Bool.toNat_false, Nat.add_zero] using hlimit

theorem Bounded.spawn (h : e.Bounded) (t : τ) : (e.spawn P t).Bounded := by
  constructor
  · simpa only [spawn_depth, spawn_execSeries] using h.le_series
  · simpa only [spawn_depth] using h.le_limit

theorem Bounded.of_depth_eq {e' : Executor τ σ κ} (h : e.Bounded) (hdepth : e'.depth ≤ e.depth)
    (hseries : e'.execSeries = e.execSeries) : e'.Bounded := by
  constructor
  · rw [hseries]
    exact Nat.le_trans hdepth h.le_series
  · exact Nat.le_trans hdepth h.le_limit

theorem Bounded.of_nil (h : e.frames = []) : e.Bounded := by
  constructor <;> simp [depth_nil h]

theorem Bounded.afterCode {f : Frame τ κ} {rest : List (Frame τ κ)} {o : Outcome τ κ}
    (h : e.Bounded) (hframes : e.frames = f :: rest)
    (hspawn : ∀ t k, o = .execTask t k → 63 ≤ e.execSeries → e.depth ≤ 1) (s : σ) :
    (e.afterCode P f rest s o).Bounded := by
  have hplace : ∀ k, ({ e with state := s, frames := { f with place := k } :: rest } :
      Executor τ σ κ).Bounded := by
    intro k
    exact h.of_depth_eq (Nat.le_of_eq (depth_place hframes s k)) rfl
  cases o with
  | goto k => exact hplace k
  | execTask t k =>
    apply (hplace k).execTask
    intro hge
    rw [depth_place hframes s k]
    exact hspawn t k rfl hge
  | execTaskNow t k => exact (hplace k).execTaskNow t
  | spawn t k => exact (hplace k).spawn t
  | returned =>
    refine h.of_depth_eq ?_ rfl
    simp only [Executor.afterCode, depth, hframes, List.countP_cons]
    exact Nat.le_add_right _ _

theorem Bounded.step {e' : Executor τ σ κ} {m : Move τ Λ} (h : e.Bounded)
    (hshallow : e.spawnsDeep P m = false) (hstep : e.step P m = some e') : e'.Bounded := by
  -- Outside of a frame the stack is empty, and every call of `exec_task` is shallow.
  have houtside : ∀ {d : Executor τ σ κ} (t : τ), d.frames = [] → (d.execTask P t).Bounded := by
    intro d t hd
    exact (Bounded.of_nil hd).execTask (fun _ => by simp [depth_nil hd]) t
  cases m with
  | code c =>
    cases hframes : e.frames with
    | nil => simp only [Executor.step, hframes, reduceCtorEq] at hstep
    | cons f rest =>
      simp only [Executor.step, hframes, Option.map_eq_some_iff, Prod.exists] at hstep
      obtain ⟨s, o, hcode, rfl⟩ := hstep
      apply h.afterCode hframes
      rintro t k rfl hge
      simp only [spawnsDeep, hframes, hcode, decide_eq_false_iff_not, not_and] at hshallow
      exact Nat.le_of_lt_succ (Nat.lt_of_not_le (hshallow hge))
  | popLocal | popShared =>
    simp only [Executor.step] at hstep
    split at hstep
    case h_1 t hnil _ =>
      rw [Option.some.injEq] at hstep
      exact hstep ▸ houtside t hnil
    case h_2 => cases hstep
  | execTask t =>
    simp only [Executor.step] at hstep
    split at hstep
    case h_1 hnil =>
      rw [Option.some.injEq] at hstep
      exact hstep ▸ houtside t hnil
    case h_2 => cases hstep
  | execTaskNow t =>
    simp only [Executor.step] at hstep
    split at hstep
    case h_1 hnil =>
      rw [Option.some.injEq] at hstep
      exact hstep ▸ (Bounded.of_nil hnil).execTaskNow t
    case h_2 => cases hstep
  | newRound =>
    simp only [Executor.step] at hstep
    split at hstep
    case h_1 hnil =>
      rw [Option.some.injEq] at hstep
      exact hstep ▸ Bounded.of_nil hnil
    case h_2 => cases hstep

/-- **The depth of the stack.** For every program, at most 64 frames that were entered through
`exec_task` are on the stack of an executor at the same time, in every run in which no call of
`exec_task` spawns while two of them are there. -/
theorem depth_le_of_spawns_shallow (P : Program τ σ κ Λ) {s : σ} {e : Executor τ σ κ}
    (h : Reach (step P) (fun e m => e.spawnsDeep P m = false) (init s) e) : e.depth ≤ 64 := by
  have hbounded : e.Bounded :=
    h.invariant (.of_nil rfl) fun _ _ _ _ hb hC hstep => hb.step hC hstep
  exact hbounded.le_limit

/-! ### A task that executes a task, again and again -/

/-- Every task calls `exec_task` with a new task of its kind, and again when the call returns. -/
def recursive : Program Unit Unit Unit Unit where
  entry := ()
  isLocal _ _ := true
  code _ _ _ _ := some ((), .execTask () ())

/-- A run that meets the condition. -/
theorem three_nested_shallow :
    ∃ e, Reach (step recursive) (fun e m => e.spawnsDeep recursive m = false) (init ()) e ∧
      e.depth = 3 ∧ e.depth ≤ 64 := by
  have hreach : Reach (step recursive) (fun e m => e.spawnsDeep recursive m = false) (init ()) _ :=
    reach_of_execWhere [.execTask (), .code (), .code ()] rfl
  exact ⟨_, hreach, rfl, depth_le_of_spawns_shallow recursive hreach⟩

theorem recursive_step {e : Executor Unit Unit Unit} (hframes : e.frames ≠ []) :
    e.step recursive (.code ()) = some (e.execTask recursive ()) := by
  obtain ⟨f, rest, hcons⟩ := List.exists_cons_of_ne_nil hframes
  have hsame : { e with state := (), frames := { f with place := () } :: rest } = e := by
    rw [show ({ f with place := () } : Frame Unit Unit) = f from rfl, ← hcons]
  simp only [step, hcons, recursive, Option.map_some, afterCode, hsame]

theorem recursive_nests {e : Executor Unit Unit Unit}
    (h : Reachable (step recursive) (init ()) e) (hframes : e.frames ≠ [])
    (hlt : e.execSeries < 63) :
    ∃ e', Reachable (step recursive) (init ()) e' ∧ e'.frames ≠ [] ∧ e'.depth = e.depth + 1 := by
  have hstep := recursive_step hframes
  rw [execTask_of_lt hlt] at hstep
  exact ⟨_, .next h trivial hstep, List.cons_ne_nil _ _, execTaskNow_depth e () true⟩

theorem recursive_deeper {e : Executor Unit Unit Unit}
    (h : Reachable (step recursive) (init ()) e) (hframes : e.frames ≠ []) :
    ∃ e', Reachable (step recursive) (init ()) e' ∧ e'.frames ≠ [] ∧ e'.depth = e.depth + 1 := by
  rcases Nat.lt_or_ge e.execSeries 63 with hlt | hge
  · exact recursive_nests h hframes hlt
  · have hstep := recursive_step hframes
    rw [execTask_of_le hge] at hstep
    have hdepth : ({ e with execSeries := 0 }.spawn recursive ()).depth = e.depth := by
      rw [spawn_depth]
      rfl
    rw [← hdepth]
    apply recursive_nests (.next h trivial hstep)
    · rw [spawn_frames]
      exact hframes
    · rw [spawn_execSeries]
      exact Nat.zero_lt_succ 62

/-- The stack of this program has every depth. -/
theorem exists_depth_eq (d : ℕ) :
    ∃ e, Reachable (step recursive) (init ()) e ∧ e.frames ≠ [] ∧ e.depth = d + 1 := by
  induction d with
  | zero => exact ⟨_, reachable_of_exec [.execTask ()] rfl, List.cons_ne_nil _ _, rfl⟩
  | succ d ih =>
    obtain ⟨e, hreach, hframes, hdepth⟩ := ih
    rw [← hdepth]
    exact recursive_deeper hreach hframes

/-- **The stack is not bounded.** A task that calls `exec_task` again after a call that has spawned
nests on, and 65 frames that were entered through `exec_task` are on the stack. -/
theorem exists_depth_gt : ∃ e, Reachable (step recursive) (init ()) e ∧ 64 < e.depth := by
  obtain ⟨e, hreach, -, hdepth⟩ := exists_depth_eq 64
  exact ⟨e, hreach, hdepth ▸ by decide⟩

end Executor

end Orengine.Runtime.CallStack
