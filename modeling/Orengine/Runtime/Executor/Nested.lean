import Orengine.Lib.Reach
import Orengine.Lib.Tally
import Mathlib.Tactic.SplitIfs

/-!
# One executor and the tasks it runs nested

`exec_task` polls a task *inside* the code that calls it, as long as `exec_series` is below 63, and
else enqueues it; so the code of a synchronization primitive that wakes a task may run any other
operation on the same primitive before it goes on.

`Executor` has the stack of the polls in progress, innermost first, each with the place `k` where
its code goes on, the queue `local_tasks`, and `exec_series`.  What the tasks do is given by a
`Program`: `code` is the code that the innermost poll runs from its place up to the next point where
the executor is involved, for a choice of the label, so that all behaviours of the tasks' own code
are runs of one program.

A program keeps some tasks itself (parked in a queue of a primitive, or away on a timer or a
socket).  `Ownership` states, step by step, that its code neither drops a task into two places nor
invents one, and `Ownership.total_le_one` that a task is in one place in every run.

An `Outline` annotates a program for a proof: the memory, the places where code is suspended, and
what suspended code still has to do.  `Ownership.outline` is the rule for invariants.
-/

namespace Orengine.Runtime

open Lib

/-- What the code of the running task does up to the next point that involves the executor. -/
inductive Outcome (τ κ : Type*) where
  /-- It goes on at `k`. -/
  | goto (k : κ)
  /-- It calls `exec_task(t)` and goes on at `k` when the call returns. -/
  | execTask (t : τ) (k : κ)
  /-- It calls `spawn_local_task(t)` and goes on at `k`. -/
  | spawnLocalTask (t : τ) (k : κ)
  /-- It awaits `yield_now`: the task goes to the front of `local_tasks`. -/
  | yieldNow
  /-- Its poll returns. -/
  | returned
  deriving DecidableEq

def Outcome.place {τ κ : Type*} : Outcome τ κ → Option κ
  | .goto k => some k
  | .execTask _ k => some k
  | .spawnLocalTask _ k => some k
  | .yieldNow => none
  | .returned => none

/-- The code of all tasks of an executor over the memory `σ` that they share. -/
structure Program (τ σ κ Λ : Type*) where
  /-- The place where a poll of a task starts. -/
  entry : κ
  /-- The code of the task `t` at the place `k`; the label chooses what the task's own code
  does. -/
  code : σ → τ → κ → Λ → Option (σ × Outcome τ κ)
  /-- A timer, a socket or another thread gives the task back to the executor. -/
  comeBack : σ → τ → Option σ

/-- The part of `Executor` that runs local tasks. -/
structure Executor (τ σ κ : Type*) where
  /-- The memory that the tasks share. -/
  state : σ
  /-- The polls in progress, innermost first: the task and the place where its code goes on. -/
  stack : List (τ × κ)
  /-- `local_tasks`, its front first. -/
  localTasks : List τ
  execSeries : ℕ
  deriving DecidableEq

inductive Move (τ Λ : Type*) where
  /-- The innermost poll runs its code. -/
  | code (choice : Λ)
  /-- `exec_cpu_tasks` executes the task at the back of `local_tasks`. -/
  | popBack
  /-- A task comes back from elsewhere and is executed. -/
  | wake (t : τ)
  /-- A task comes back from elsewhere and is enqueued. -/
  | arrive (t : τ)
  /-- `prepare_to_new_round`. -/
  | newRound

namespace Executor

variable {τ σ κ Λ : Type*} (P : Program τ σ κ Λ)

/-- The executor before its first task, with the memory `s`. -/
def init (s : σ) : Executor τ σ κ := ⟨s, [], [], 0⟩

def spawnLocalTask (e : Executor τ σ κ) (t : τ) : Executor τ σ κ :=
  { e with localTasks := e.localTasks ++ [t] }

/-- `Executor::exec_task_now`, up to the poll of the task. -/
def execTaskNow (e : Executor τ σ κ) (t : τ) : Executor τ σ κ :=
  { e with execSeries := e.execSeries + 1, stack := (t, P.entry) :: e.stack }

def execTask (e : Executor τ σ κ) (t : τ) : Executor τ σ κ :=
  if e.execSeries < 63 then e.execTaskNow P t
  else { e with execSeries := 0 }.spawnLocalTask t

/-- The executor after the code of its innermost poll, that of `t`, has had the outcome `o`; the
polls further out are `rest`. -/
def afterCode (e : Executor τ σ κ) (t : τ) (rest : List (τ × κ)) (s : σ) :
    Outcome τ κ → Executor τ σ κ
  | .goto k => { e with state := s, stack := (t, k) :: rest }
  | .execTask u k => { e with state := s, stack := (t, k) :: rest }.execTask P u
  | .spawnLocalTask u k => { e with state := s, stack := (t, k) :: rest }.spawnLocalTask u
  | .yieldNow => { e with state := s, stack := rest, localTasks := t :: e.localTasks }
  | .returned => { e with state := s, stack := rest }

def step (e : Executor τ σ κ) : Move τ Λ → Option (Executor τ σ κ)
  | .code c =>
    match e.stack with
    | [] => none
    | (t, k) :: rest => (P.code e.state t k c).map fun r => e.afterCode P t rest r.1 r.2
  | .popBack =>
    match e.stack, e.localTasks.getLast? with
    | [], some t => some ({ e with localTasks := e.localTasks.dropLast }.execTask P t)
    | _, _ => none
  | .wake t =>
    match e.stack with
    | [] => (P.comeBack e.state t).map fun s => { e with state := s }.execTask P t
    | _ :: _ => none
  | .arrive t =>
    match e.stack with
    | [] => (P.comeBack e.state t).map fun s => { e with state := s }.spawnLocalTask t
    | _ :: _ => none
  | .newRound =>
    match e.stack with
    | [] => some { e with execSeries := 0 }
    | _ :: _ => none

variable {P}

/-- **What a move can do.** Either the code of the innermost poll runs, or no poll is in progress
and a queued task, a task from elsewhere or none is executed or enqueued. -/
theorem step_cases {e e' : Executor τ σ κ} {m : Move τ Λ} (h : e.step P m = some e') :
    (∃ c t k rest s o, m = .code c ∧ e.stack = (t, k) :: rest ∧
      P.code e.state t k c = some (s, o) ∧ e' = e.afterCode P t rest s o) ∨
    (e.stack = [] ∧ ∃ t tasks, e.localTasks = tasks ++ [t] ∧
      e' = { e with localTasks := tasks }.execTask P t) ∨
    (e.stack = [] ∧ ∃ t s, P.comeBack e.state t = some s ∧
      (e' = { e with state := s }.execTask P t ∨ e' = { e with state := s }.spawnLocalTask t)) ∨
    (e.stack = [] ∧ e' = { e with execSeries := 0 }) := by
  cases m with
  | code c =>
    left
    cases hs : e.stack with
    | nil => simp only [step, hs, reduceCtorEq] at h
    | cons f rest =>
      obtain ⟨t, k⟩ := f
      simp only [step, hs, Option.map_eq_some_iff, Prod.exists] at h
      obtain ⟨s, o, hcode, rfl⟩ := h
      exact ⟨c, t, k, rest, s, o, rfl, rfl, hcode, rfl⟩
  | popBack =>
    right; left
    simp only [step] at h
    split at h
    case h_1 t hs hlast =>
      obtain ⟨tasks, htasks⟩ := List.getLast?_eq_some_iff.mp hlast
      rw [Option.some.injEq, htasks, List.dropLast_concat] at h
      exact ⟨hs, t, tasks, htasks, h.symm⟩
    case h_2 => cases h
  | wake t =>
    right; right; left
    simp only [step] at h
    split at h
    case h_1 hs =>
      rw [Option.map_eq_some_iff] at h
      obtain ⟨s, hback, rfl⟩ := h
      exact ⟨hs, t, s, hback, Or.inl rfl⟩
    case h_2 => cases h
  | arrive t =>
    right; right; left
    simp only [step] at h
    split at h
    case h_1 hs =>
      rw [Option.map_eq_some_iff] at h
      obtain ⟨s, hback, rfl⟩ := h
      exact ⟨hs, t, s, hback, Or.inr rfl⟩
    case h_2 => cases h
  | newRound =>
    right; right; right
    simp only [step] at h
    split at h
    case h_1 hs =>
      rw [Option.some.injEq] at h
      exact ⟨hs, h.symm⟩
    case h_2 => cases h

@[simp] theorem execTask_state (e : Executor τ σ κ) (t : τ) :
    (e.execTask P t).state = e.state := by
  unfold execTask
  split_ifs <;> rfl

@[simp] theorem afterCode_state (e : Executor τ σ κ) (t : τ) (rest : List (τ × κ)) (s : σ)
    (o : Outcome τ κ) : (e.afterCode P t rest s o).state = s := by
  cases o <;> simp [afterCode, spawnLocalTask]

/-! ### The polls in progress and the tasks that are about to be polled -/

variable {e : Executor τ σ κ} {t u : τ} {k : κ} {rest : List (τ × κ)} {s : σ} {o : Outcome τ κ}
  {f : τ × κ}

/-- The task is in the queue, or its poll has been entered and has not run yet. -/
def Scheduled (P : Program τ σ κ Λ) (e : Executor τ σ κ) (u : τ) : Prop :=
  u ∈ e.localTasks ∨ (u, P.entry) ∈ e.stack

theorem mem_top (hs : e.stack = f :: rest) : f ∈ e.stack := by
  rw [hs]
  exact List.mem_cons_self ..

theorem mem_of_rest (hs : e.stack = (t, k) :: rest) (hf : f ∈ rest) : f ∈ e.stack := by
  rw [hs]
  exact List.mem_cons_of_mem _ hf

theorem mem_stack_execTask (h : f ∈ e.stack) (t : τ) : f ∈ (e.execTask P t).stack := by
  unfold execTask
  split_ifs
  · exact List.mem_cons_of_mem _ h
  · exact h

theorem of_mem_stack_execTask (h : f ∈ (e.execTask P t).stack) : f ∈ e.stack ∨ f.2 = P.entry := by
  unfold execTask at h
  split_ifs at h
  · rcases List.mem_cons.mp h with rfl | h
    · exact Or.inr rfl
    · exact Or.inl h
  · exact Or.inl h

theorem mem_localTasks_execTask (h : u ∈ e.localTasks) (t : τ) :
    u ∈ (e.execTask P t).localTasks := by
  unfold execTask
  split_ifs
  · exact h
  · exact List.mem_append_left _ h

theorem scheduled_execTask (e : Executor τ σ κ) (t : τ) : (e.execTask P t).Scheduled P t := by
  unfold execTask
  split_ifs
  · exact Or.inr (List.mem_cons_self ..)
  · exact Or.inl (List.mem_append_right _ (List.mem_singleton.mpr rfl))

theorem Scheduled.execTask (h : e.Scheduled P u) (t : τ) : (e.execTask P t).Scheduled P u := by
  rcases h with h | h
  · exact Or.inl (mem_localTasks_execTask h t)
  · exact Or.inr (mem_stack_execTask h t)

theorem mem_afterCode_of_rest (h : f ∈ rest) (t : τ) (s : σ) (o : Outcome τ κ) :
    f ∈ (e.afterCode P t rest s o).stack := by
  cases o with
  | goto | spawnLocalTask => exact List.mem_cons_of_mem _ h
  | execTask v k =>
    have hmem : f ∈ ({ e with state := s, stack := (t, k) :: rest } : Executor τ σ κ).stack :=
      List.mem_cons_of_mem _ h
    exact mem_stack_execTask hmem v
  | yieldNow => exact h
  | returned => exact h

theorem mem_afterCode_place (h : k ∈ o.place) (t : τ) (rest : List (τ × κ)) (s : σ) :
    (t, k) ∈ (e.afterCode P t rest s o).stack := by
  cases o with
  | goto | spawnLocalTask =>
    cases h
    exact List.mem_cons_self ..
  | execTask v k' =>
    cases h
    have hmem : (t, k) ∈ ({ e with state := s, stack := (t, k) :: rest } : Executor τ σ κ).stack :=
      List.mem_cons_self ..
    exact mem_stack_execTask hmem v
  | yieldNow => cases h
  | returned => cases h

theorem of_mem_afterCode (h : f ∈ (e.afterCode P t rest s o).stack) :
    f ∈ rest ∨ (∃ k ∈ o.place, f = (t, k)) ∨ f.2 = P.entry := by
  have hcons (k : κ) (hk : k ∈ o.place) (hf : f ∈ (t, k) :: rest) :
      f ∈ rest ∨ (∃ k ∈ o.place, f = (t, k)) ∨ f.2 = P.entry := by
    rcases List.mem_cons.mp hf with rfl | hf
    · exact Or.inr (Or.inl ⟨k, hk, rfl⟩)
    · exact Or.inl hf
  cases o with
  | goto k | spawnLocalTask _ k => exact hcons k rfl h
  | execTask v k =>
    rcases of_mem_stack_execTask h with hf | hf
    · exact hcons k rfl hf
    · exact Or.inr (Or.inr hf)
  | yieldNow | returned => exact Or.inl h

theorem scheduled_afterCode_execTask (e : Executor τ σ κ) (t u : τ) (rest : List (τ × κ)) (s : σ)
    (k : κ) : (e.afterCode P t rest s (.execTask u k)).Scheduled P u :=
  scheduled_execTask _ u

theorem mem_localTasks_afterCode (h : u ∈ e.localTasks) (t : τ) (rest : List (τ × κ)) (s : σ)
    (o : Outcome τ κ) : u ∈ (e.afterCode P t rest s o).localTasks := by
  cases o with
  | goto k => exact h
  | execTask v k =>
    have hmem : u ∈ ({ e with state := s, stack := (t, k) :: rest } : Executor τ σ κ).localTasks :=
      h
    exact mem_localTasks_execTask hmem v
  | spawnLocalTask v k => exact List.mem_append_left _ h
  | yieldNow => exact List.mem_cons_of_mem _ h
  | returned => exact h

/-- A task that is about to be polled stays so, unless it is its own poll that starts. -/
theorem Scheduled.afterCode (hs : e.stack = (t, k) :: rest) (hne : (u, P.entry) ≠ (t, k))
    (h : e.Scheduled P u) (s : σ) (o : Outcome τ κ) :
    (e.afterCode P t rest s o).Scheduled P u := by
  rcases h with h | h
  · exact Or.inl (mem_localTasks_afterCode h t rest s o)
  · rw [hs] at h
    rcases List.mem_cons.mp h with heq | h
    · exact absurd heq hne
    · exact Or.inr (mem_afterCode_of_rest h t s o)

/-- The stack and the queue after the code of `t` at `k` has had the outcome `o`, as far as it
matters which polls are in progress and which are about to start. -/
structure Continues (P : Program τ σ κ Λ) (e e' : Executor τ σ κ) (t : τ) (k : κ)
    (rest : List (τ × κ)) (o : Outcome τ κ) : Prop where
  kept : ∀ f ∈ rest, f ∈ e'.stack
  place : ∀ k' ∈ o.place, (t, k') ∈ e'.stack
  entered : ∀ f ∈ e'.stack, f ∈ rest ∨ (∃ k' ∈ o.place, f = (t, k')) ∨ f.2 = P.entry
  scheduled : ∀ u, (u, P.entry) ≠ (t, k) → e.Scheduled P u → e'.Scheduled P u

theorem continues_afterCode (hs : e.stack = (t, k) :: rest) (s : σ) (o : Outcome τ κ) :
    Continues P e (e.afterCode P t rest s o) t k rest o :=
  ⟨fun _ hf => mem_afterCode_of_rest hf t s o, fun _ hk => mem_afterCode_place hk t rest s,
    fun _ hf => of_mem_afterCode hf, fun _ hne hu => hu.afterCode hs hne s o⟩

end Executor

/-! ### Every task is in one place -/

section Ownership

variable {τ σ κ Λ : Type*} [DecidableEq τ]

/-- The places of `u` that an outcome of the code of `t` leaves: in the place where the code goes
on, on the stack, and with the executor. -/
def Outcome.places (held : κ → τ → ℕ) (t u : τ) : Outcome τ κ → ℕ
  | .goto k => held k u + oneAt t u
  | .execTask v k => held k u + oneAt t u + oneAt v u
  | .spawnLocalTask v k => held k u + oneAt t u + oneAt v u
  | .yieldNow => oneAt t u
  | .returned => 0

/-- How many times a program itself holds each task, in its memory and in the places of its code,
with the proof that no step of it makes more of a task. -/
structure Ownership (P : Program τ σ κ Λ) where
  /-- The places of a task in the memory. -/
  holds : σ → τ → ℕ
  /-- The places of a task in a suspended piece of code. -/
  held : κ → τ → ℕ
  entry_held : ∀ u, held P.entry u = 0
  code_le : ∀ {s t k c s' o}, P.code s t k c = some (s', o) →
    ∀ u, holds s' u + o.places held t u ≤ holds s u + held k u + oneAt t u
  comeBack_le : ∀ {s t s'}, P.comeBack s t = some s' →
    ∀ u, holds s' u + oneAt t u ≤ holds s u

namespace Ownership

variable {P : Program τ σ κ Λ} (O : Ownership P)

/-- The number of places of `u`: in the program's memory, in suspended code, on the stack and in
`local_tasks`. -/
def total (e : Executor τ σ κ) (u : τ) : ℕ :=
  O.holds e.state u + (e.stack.map fun f => O.held f.2 u).sum + (e.stack.map Prod.fst).count u
    + e.localTasks.count u

theorem total_spawnLocalTask (e : Executor τ σ κ) (t u : τ) :
    O.total (e.spawnLocalTask t) u = O.total e u + oneAt t u := by
  simp only [total, Executor.spawnLocalTask, List.count_append, count_singleton_eq_oneAt]
  omega

/-- Executing a task puts it into one more place, whichever branch `exec_task` takes. -/
theorem total_execTask (e : Executor τ σ κ) (t u : τ) :
    O.total (e.execTask P t) u = O.total e u + oneAt t u := by
  unfold Executor.execTask
  split_ifs
  · simp only [total, Executor.execTaskNow, List.map_cons, List.sum_cons, O.entry_held,
      count_cons_eq_oneAt]
    omega
  · rw [total_spawnLocalTask]
    rfl

theorem total_afterCode (e : Executor τ σ κ) (t : τ) (rest : List (τ × κ)) (s : σ)
    (o : Outcome τ κ) (u : τ) :
    O.total (e.afterCode P t rest s o) u =
      O.holds s u + o.places O.held t u + (rest.map fun f => O.held f.2 u).sum
        + (rest.map Prod.fst).count u + e.localTasks.count u := by
  cases o with
  | goto k =>
    simp only [total, Executor.afterCode, Outcome.places, List.map_cons, List.sum_cons,
      count_cons_eq_oneAt]
    omega
  | execTask v k =>
    rw [Executor.afterCode, total_execTask]
    simp only [total, Outcome.places, List.map_cons, List.sum_cons, count_cons_eq_oneAt]
    omega
  | spawnLocalTask v k =>
    rw [Executor.afterCode, total_spawnLocalTask]
    simp only [total, Outcome.places, List.map_cons, List.sum_cons, count_cons_eq_oneAt]
    omega
  | yieldNow =>
    simp only [total, Executor.afterCode, Outcome.places, count_cons_eq_oneAt]
    omega
  | returned =>
    simp only [total, Executor.afterCode, Outcome.places]
    omega

variable {e : Executor τ σ κ} {t : τ} {k : κ} {rest : List (τ × κ)} {f : τ × κ}

theorem total_step_le {e' : Executor τ σ κ} {m : Move τ Λ} (h : e.step P m = some e') (u : τ) :
    O.total e' u ≤ O.total e u := by
  rcases Executor.step_cases h with ⟨c, t, k, rest, s, o, -, hs, hcode, rfl⟩ |
    ⟨hs, t, tasks, htasks, rfl⟩ | ⟨hs, t, s, hback, rfl | rfl⟩ | ⟨hs, rfl⟩
  · have hle := O.code_le hcode u
    rw [total_afterCode, total, hs]
    simp only [List.map_cons, List.sum_cons, count_cons_eq_oneAt]
    omega
  · rw [total_execTask]
    simp only [total, htasks, List.count_append, count_singleton_eq_oneAt]
    omega
  · have hle := O.comeBack_le hback u
    rw [total_execTask]
    simp only [total]
    omega
  · have hle := O.comeBack_le hback u
    rw [total_spawnLocalTask]
    simp only [total]
    omega
  · exact Nat.le_refl _

/-- **Every task is in one place.** If the program's memory starts with every task in at most one
place, then so it stays, places on the stack and in the queue included. -/
theorem total_le_one {s₀ : σ} (h₀ : ∀ u, O.holds s₀ u ≤ 1)
    (h : Reachable (Executor.step P) (Executor.init s₀) e) (u : τ) : O.total e u ≤ 1 := by
  refine Reach.invariant (I := fun e => O.total e u ≤ 1) ?_ ?_ h
  · simpa [total, Executor.init] using h₀ u
  · intro e m e' _ hle _ hstep
    exact Nat.le_trans (O.total_step_le hstep u) hle

theorem holds_running_eq_zero (h : ∀ u, O.total e u ≤ 1) (hs : e.stack = (t, k) :: rest) :
    O.holds e.state t = 0 := by
  have hle := h t
  simp only [total, hs, List.map_cons, List.sum_cons, count_cons_eq_oneAt, oneAt] at hle
  simp at hle
  omega

theorem holds_le_total (e : Executor τ σ κ) (u : τ) : O.holds e.state u ≤ O.total e u := by
  unfold total
  omega

theorem ne_of_mem_rest (h : ∀ u, O.total e u ≤ 1) (hs : e.stack = (t, k) :: rest) (hf : f ∈ rest) :
    f.1 ≠ t := by
  rintro rfl
  have hcount : 0 < (rest.map Prod.fst).count f.1 :=
    List.count_pos_iff.mpr (List.mem_map_of_mem hf)
  have hle := h f.1
  simp only [total, hs, List.map_cons, List.sum_cons, count_cons_eq_oneAt, oneAt_self] at hle
  omega

theorem held_running_eq_zero (h : ∀ u, O.total e u ≤ 1) (hs : e.stack = (t, k) :: rest)
    (hf : f ∈ e.stack) : O.held f.2 t = 0 := by
  have hsum : O.held f.2 t ≤ (e.stack.map fun f => O.held f.2 t).sum :=
    List.le_sum_of_mem (List.mem_map_of_mem (f := fun f : τ × κ => O.held f.2 t) hf)
  have hcount : 0 < (e.stack.map Prod.fst).count t := by
    rw [hs, List.map_cons, count_cons_eq_oneAt, oneAt_self]
    exact Nat.succ_pos _
  have hle := h t
  simp only [total] at hle
  omega

theorem eq_zero_of_held_running {u : τ} (h : O.total e u ≤ 1) (hs : e.stack = (t, k) :: rest)
    (hk : 0 < O.held k u) :
    O.held k u = 1 ∧ O.holds e.state u = 0 ∧ ∀ f ∈ rest, O.held f.2 u = 0 := by
  have hsum : ∀ f ∈ rest, O.held f.2 u ≤ (rest.map fun f => O.held f.2 u).sum := fun f hf =>
    List.le_sum_of_mem (List.mem_map_of_mem (f := fun f : τ × κ => O.held f.2 u) hf)
  simp only [total, hs, List.map_cons, List.sum_cons] at h
  refine ⟨by omega, by omega, fun f hf => ?_⟩
  have hf := hsum f hf
  omega

theorem not_mem_localTasks (h : ∀ u, O.total e u ≤ 1) (hf : f ∈ e.stack) : f.1 ∉ e.localTasks := by
  intro hqueued
  have hstack : 0 < (e.stack.map Prod.fst).count f.1 :=
    List.count_pos_iff.mpr (List.mem_map_of_mem hf)
  have hqueue : 0 < e.localTasks.count f.1 := List.count_pos_iff.mpr hqueued
  have hle := h f.1
  simp only [total] at hle
  omega

theorem eq_entry_of_scheduled (h : ∀ u, O.total e u ≤ 1) (hs : e.stack = (t, k) :: rest)
    (ht : e.Scheduled P t) : k = P.entry := by
  rcases ht with ht | ht
  · exact absurd ht (O.not_mem_localTasks h (f := (t, k)) (Executor.mem_top hs))
  · rw [hs] at ht
    rcases List.mem_cons.mp ht with heq | hrest
    · exact (Prod.mk.inj heq).2.symm
    · exact absurd rfl (O.ne_of_mem_rest h hs hrest)

end Ownership

/-! ### Proof outlines -/

/-- The annotation of a program for a proof: a property of the memory, one for each place where
the code of a task is suspended, and a count of what suspended code still has to do: `debt k` at
the place `k`, and `due` of it in all according to the memory. -/
structure Outline (τ σ κ : Type*) where
  memory : σ → Prop
  place : σ → τ → κ → Prop
  due : σ → ℕ
  debt : κ → ℕ

namespace Outline

variable (A : Outline τ σ κ)

/-- The outline holds of the memory and of all polls in progress. -/
structure Holds (e : Executor τ σ κ) : Prop where
  memory : A.memory e.state
  place : ∀ f ∈ e.stack, A.place e.state f.1 f.2
  due : A.due e.state = (e.stack.map fun f => A.debt f.2).sum

/-- A piece of the code of `t` at `k`, with the outcome `o`, keeps the outline. -/
structure Keeps (s : σ) (t : τ) (k : κ) (s' : σ) (o : Outcome τ κ) : Prop where
  memory : A.memory s'
  place : ∀ k' ∈ o.place, A.place s' t k'
  /-- The code of one task does not interfere with the others. -/
  others : ∀ u k', u ≠ t → A.place s u k' → A.place s' u k'
  due : A.due s' + A.debt k = A.due s + o.place.elim 0 A.debt

variable {A} {P : Program τ σ κ Λ}

omit [DecidableEq τ] in
/-- Executing a task keeps the outline: its poll starts at the entry. -/
theorem Holds.execTask (hentry : ∀ s t, A.place s t P.entry) (hdebt : A.debt P.entry = 0)
    {e : Executor τ σ κ} (h : A.Holds e) (t : τ) : A.Holds (e.execTask P t) := by
  unfold Executor.execTask
  split
  · refine ⟨h.memory, ?_, ?_⟩
    · intro f hf
      rcases List.mem_cons.mp hf with rfl | hf
      · exact hentry _ t
      · exact h.place f hf
    · simpa [Executor.execTaskNow, hdebt] using h.due
  · exact ⟨h.memory, h.place, h.due⟩

omit [DecidableEq τ] in
/-- Code that keeps the outline does so whatever its outcome makes of the stack. -/
theorem Keeps.afterCode (hentry : ∀ s t, A.place s t P.entry) (hdebt : A.debt P.entry = 0)
    {e : Executor τ σ κ} {t : τ} {k : κ} {rest : List (τ × κ)} {s : σ} {o : Outcome τ κ}
    (hs : e.stack = (t, k) :: rest) (hne : ∀ f ∈ rest, f.1 ≠ t) (h : A.Holds e)
    (hkeeps : A.Keeps e.state t k s o) : A.Holds (e.afterCode P t rest s o) := by
  have hplaces : ∀ f ∈ rest, A.place s f.1 f.2 := by
    intro f hf
    refine hkeeps.others f.1 f.2 (hne f hf) (h.place f ?_)
    rw [hs]
    exact List.mem_cons_of_mem _ hf
  have hdue : A.due s = o.place.elim 0 A.debt + (rest.map fun f => A.debt f.2).sum := by
    have hbefore := h.due
    have hafter := hkeeps.due
    simp only [hs, List.map_cons, List.sum_cons] at hbefore
    omega
  -- The task goes on at `k'`, with or without another task.
  have hgoto (k' : κ) (hk' : o.place = some k') :
      A.Holds { e with state := s, stack := (t, k') :: rest } := by
    refine ⟨hkeeps.memory, ?_, ?_⟩
    · intro f hf
      rcases List.mem_cons.mp hf with rfl | hf
      · exact hkeeps.place k' hk'
      · exact hplaces f hf
    · rw [List.map_cons, List.sum_cons, hdue, hk']
      rfl
  cases o with
  | goto k' => exact hgoto k' rfl
  | execTask u k' => exact (hgoto k' rfl).execTask hentry hdebt u
  | spawnLocalTask u k' =>
    have hk' := hgoto k' rfl
    exact ⟨hk'.memory, hk'.place, hk'.due⟩
  | yieldNow | returned => exact ⟨hkeeps.memory, hplaces, hdue.trans (Nat.zero_add _)⟩

end Outline

/-- **The rule of proof outlines.** An outline that holds at the start and that every piece of
code keeps holds in every reached state.  The code may be assumed to run for a task which the
memory does not hold, in a memory that holds no task twice, with its own debt among what is
due. -/
theorem Ownership.outline {P : Program τ σ κ Λ} (O : Ownership P) (A : Outline τ σ κ)
    {C : Executor τ σ κ → Move τ Λ → Prop} {s₀ : σ} (h₀ : ∀ u, O.holds s₀ u ≤ 1)
    (hmemory : A.memory s₀) (hdue : A.due s₀ = 0)
    (hentry : ∀ s t, A.place s t P.entry) (hdebt : A.debt P.entry = 0)
    (hcode : ∀ {e t k rest c s' o}, e.stack = (t, k) :: rest → C e (.code c) →
      A.memory e.state → A.place e.state t k → A.debt k ≤ A.due e.state →
      (∀ u, O.holds e.state u ≤ 1) → O.holds e.state t = 0 →
      P.code e.state t k c = some (s', o) → A.Keeps e.state t k s' o)
    (hback : ∀ {s t s'}, P.comeBack s t = some s' →
      (A.memory s → A.memory s') ∧ (∀ u k, A.place s u k → A.place s' u k) ∧ A.due s' = A.due s)
    {e : Executor τ σ κ} (h : Reach (Executor.step P) C (Executor.init s₀) e) : A.Holds e := by
  refine Reach.invariant (I := A.Holds) ⟨hmemory, by simp [Executor.init], hdue⟩ ?_ h
  intro e m e' hreach he hC hstep
  rcases Executor.step_cases hstep with ⟨c, t, k, rest, s, o, rfl, hs, hc, rfl⟩ |
    ⟨hs, t, tasks, htasks, rfl⟩ | ⟨hs, t, s, hb, hexec⟩ | ⟨hs, rfl⟩
  · have htotal := O.total_le_one h₀ hreach.reachable
    have hdebtk : A.debt k ≤ A.due e.state := by
      rw [he.due, hs, List.map_cons, List.sum_cons]
      exact Nat.le_add_right _ _
    have hkeeps := hcode hs hC he.memory (he.place (t, k) (by simp [hs])) hdebtk
      (fun u => Nat.le_trans (O.holds_le_total e u) (htotal u))
      (O.holds_running_eq_zero htotal hs) hc
    exact hkeeps.afterCode hentry hdebt hs (fun f => O.ne_of_mem_rest htotal hs) he
  · have hqueue : A.Holds { e with localTasks := tasks } := ⟨he.memory, he.place, he.due⟩
    exact hqueue.execTask hentry hdebt t
  · obtain ⟨hm, hp, hd⟩ := hback hb
    have hstate : A.Holds { e with state := s } :=
      ⟨hm he.memory, fun f hf => hp _ _ (he.place f hf), hd.trans he.due⟩
    rcases hexec with rfl | rfl
    · exact hstate.execTask hentry hdebt t
    · exact ⟨hstate.memory, hstate.place, hstate.due⟩
  · exact ⟨he.memory, he.place, he.due⟩

end Ownership

end Orengine.Runtime
