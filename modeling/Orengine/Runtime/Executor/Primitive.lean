import Orengine.Runtime.Executor.Nested

/-!
# Local primitives

A synchronization primitive of one executor is used by tasks whose own code may do much in
between: execute or enqueue other tasks, yield, wait for a timer, a socket or another primitive,
and end.  A `Primitive` gives the code of its operations only; `Primitive.program` adds what every
task can do besides, and the tasks that are `away` in the meantime.

Two things are assumed of the rest of the program.  A task has one owner: only a task that is `away`
is executed or enqueued by another one, so nobody else polls a task that runs, is enqueued or waits
at the primitive.  And a task waits for one thing at a time: the next operation comes when the last
one has returned.  Where the primitive itself breaks the first, its model shows it; another
primitive in the program must not, as a `LocalWaitGroup` does that has a task registered twice
(`waiter_lost`).

`Custody` is the ownership law for a primitive, from which the one of the whole program and the
rules for invariants come (`Custody.outline`, `Custody.invariant`).
-/

namespace Orengine.Runtime

open Lib

/-- A synchronization primitive of one executor with the memory `σ`. -/
structure Primitive (τ σ κ Λ : Type*) where
  /-- The place where a poll of a task starts. -/
  entry : κ
  /-- Whether a place is in the task's own code, between two operations. -/
  isUser : κ → Bool
  /-- The code of the primitive's operations, for the task `t` at the place `k`. -/
  code : σ → τ → κ → Λ → Option (σ × Outcome τ κ)

/-- The memory of a primitive and the tasks that do not run. -/
structure World (τ σ : Type*) where
  /-- The memory of the primitive. -/
  memory : σ
  /-- The tasks that are not started yet, sleep, or wait for something else. -/
  away : τ → Bool

/-- What the running task does next. -/
inductive TaskOp (τ Λ : Type*) where
  /-- It runs an operation of the primitive. -/
  | op (choice : Λ)
  /-- It executes a task that is away. -/
  | execTask (t : τ)
  /-- It enqueues a task that is away. -/
  | spawn (t : τ)
  | yieldNow
  /-- It waits for something else than the primitive. -/
  | leave
  /-- It ends. -/
  | exit
  deriving DecidableEq

namespace Primitive

variable {τ σ κ Λ : Type*} [DecidableEq τ] (P : Primitive τ σ κ Λ)

/-- The code of a task that uses the primitive. -/
def taskCode (w : World τ σ) (t : τ) (k : κ) :
    TaskOp τ Λ → Option (World τ σ × Outcome τ κ)
  | .op c => (P.code w.memory t k c).map fun r => ({ w with memory := r.1 }, r.2)
  | .execTask u =>
    if P.isUser k && w.away u then
      some ({ w with away := Function.update w.away u false }, .execTask u k)
    else none
  | .spawn u =>
    if P.isUser k && w.away u then
      some ({ w with away := Function.update w.away u false }, .spawnLocalTask u k)
    else none
  | .yieldNow => if P.isUser k then some (w, .yieldNow) else none
  | .leave =>
    if P.isUser k then some ({ w with away := Function.update w.away t true }, .returned)
    else none
  | .exit => if P.isUser k then some (w, .returned) else none

/-- The program of the tasks that use the primitive. -/
def program : Program τ (World τ σ) κ (TaskOp τ Λ) where
  entry := P.entry
  code := P.taskCode
  comeBack w t :=
    if w.away t then some { w with away := Function.update w.away t false } else none

/-- The executor before its first task, with the memory `s` of the primitive. -/
def init (s : σ) : Executor τ (World τ σ) κ := Executor.init ⟨s, fun _ => true⟩

/-- A state that some run of tasks over the primitive reaches. -/
abbrev Reaches (s : σ) (e : Executor τ (World τ σ) κ) : Prop :=
  Reachable (Executor.step P.program) (init s) e

/-- The operations of the primitive meet `D`; the other moves of the executor are free. -/
def OpMeets (D : σ → τ → κ → Λ → Prop) (e : Executor τ (World τ σ) κ) :
    Move τ (TaskOp τ Λ) → Prop
  | .code (.op c) => ∀ f ∈ e.stack.head?, D e.state.memory f.1 f.2 c
  | _ => True

instance {D : σ → τ → κ → Λ → Prop} [∀ s t k c, Decidable (D s t k c)]
    (e : Executor τ (World τ σ) κ) : ∀ m, Decidable (OpMeets D e m)
  | .code (.op c) =>
    inferInstanceAs (Decidable (∀ f ∈ e.stack.head?, D e.state.memory f.1 f.2 c))
  | .code (.execTask _) | .code (.spawn _) | .code .yieldNow | .code .leave | .code .exit =>
    isTrue trivial
  | .popBack | .wake _ | .arrive _ | .newRound => isTrue trivial

omit [DecidableEq τ] in
theorem OpMeets.of_forall {D : σ → τ → κ → Λ → Prop} (h : ∀ s t k c, D s t k c)
    (e : Executor τ (World τ σ) κ) (m : Move τ (TaskOp τ Λ)) : OpMeets D e m := by
  unfold OpMeets
  split
  · exact fun f _ => h _ _ _ _
  · trivial

/-- The primitive with a history: `note` adds to it what every operation does, and no operation
reads it. -/
def record {ρ : Type*} (note : σ → τ → κ → Λ → ρ → ρ) : Primitive τ (σ × ρ) κ Λ where
  entry := P.entry
  isUser := P.isUser
  code s t k c := (P.code s.1 t k c).map fun r => ((r.1, note s.1 t k c s.2), r.2)

/-- The primitive whose operations are possible only in a memory with `J`. -/
def restrict (J : σ → Prop) [DecidablePred J] : Primitive τ σ κ Λ where
  entry := P.entry
  isUser := P.isUser
  code s t k c := if J s then P.code s t k c else none

variable {P}

variable {t : τ} {o : Outcome τ κ} {w : World τ σ} {e : Executor τ (World τ σ) κ}

omit [DecidableEq τ] in
theorem code_of_record {ρ : Type*} {note : σ → τ → κ → Λ → ρ → ρ} {s s' : σ × ρ} {k : κ} {c : Λ}
    (h : (P.record note).code s t k c = some (s', o)) :
    P.code s.1 t k c = some (s'.1, o) ∧ s'.2 = note s.1 t k c s.2 := by
  simp only [record, Option.map_eq_some_iff, Prod.mk.injEq, Prod.exists] at h
  obtain ⟨m, o, hc, rfl, rfl⟩ := h
  exact ⟨hc, rfl⟩

/-- **What the code of a task can do.** Either it runs an operation of the primitive, or it leaves
the memory alone and goes on, if it does, where it is. -/
theorem taskCode_cases {w' : World τ σ} {k : κ} {c : TaskOp τ Λ}
    (h : P.taskCode w t k c = some (w', o)) :
    (∃ choice s, c = .op choice ∧ P.code w.memory t k choice = some (s, o) ∧
      w' = { w with memory := s }) ∨
    ((∀ choice, c ≠ .op choice) ∧ w'.memory = w.memory ∧ P.isUser k = true ∧
      ((∃ u, w.away u = true ∧ w'.away = Function.update w.away u false ∧
          (o = .execTask u k ∨ o = .spawnLocalTask u k)) ∨
        (w'.away = w.away ∧ (o = .yieldNow ∨ o = .returned)) ∨
        (w'.away = Function.update w.away t true ∧ o = .returned))) := by
  cases c with
  | op choice =>
    left
    simp only [taskCode, Option.map_eq_some_iff, Prod.mk.injEq, Prod.exists] at h
    obtain ⟨s, o', hcode, rfl, rfl⟩ := h
    exact ⟨choice, s, rfl, hcode, rfl⟩
  | execTask u =>
    right
    obtain ⟨huser, h⟩ := Option.ite_none_right_eq_some.mp h
    rw [Bool.and_eq_true] at huser
    obtain ⟨rfl, rfl⟩ := h
    exact ⟨nofun, rfl, huser.1, Or.inl ⟨u, huser.2, rfl, Or.inl rfl⟩⟩
  | spawn u =>
    right
    obtain ⟨huser, h⟩ := Option.ite_none_right_eq_some.mp h
    rw [Bool.and_eq_true] at huser
    obtain ⟨rfl, rfl⟩ := h
    exact ⟨nofun, rfl, huser.1, Or.inl ⟨u, huser.2, rfl, Or.inr rfl⟩⟩
  | yieldNow =>
    right
    obtain ⟨huser, h⟩ := Option.ite_none_right_eq_some.mp h
    obtain ⟨rfl, rfl⟩ := h
    exact ⟨nofun, rfl, huser, Or.inr (Or.inl ⟨rfl, Or.inl rfl⟩)⟩
  | leave =>
    right
    obtain ⟨huser, h⟩ := Option.ite_none_right_eq_some.mp h
    obtain ⟨rfl, rfl⟩ := h
    exact ⟨nofun, rfl, huser, Or.inr (Or.inr ⟨rfl, rfl⟩)⟩
  | exit =>
    right
    obtain ⟨huser, h⟩ := Option.ite_none_right_eq_some.mp h
    obtain ⟨rfl, rfl⟩ := h
    exact ⟨nofun, rfl, huser, Or.inr (Or.inl ⟨rfl, Or.inr rfl⟩)⟩

theorem comeBack_cases {w' : World τ σ} (h : P.program.comeBack w t = some w') :
    w.away t = true ∧ w' = { w with away := Function.update w.away t false } := by
  simp only [program] at h
  split at h
  case isTrue haway => exact ⟨haway, (Option.some.inj h).symm⟩
  case isFalse => cases h

/-- The rule for invariants of the memory alone: it is enough that the operations keep them. -/
theorem memory_invariant {J : σ → Prop} {w₀ : World τ σ} (h₀ : J w₀.memory)
    (hcode : ∀ {s t k c s' o}, J s → P.code s t k c = some (s', o) → J s')
    (h : Reachable (Executor.step P.program) (Executor.init w₀) e) : J e.state.memory := by
  apply Reach.invariant (I := fun e => J e.state.memory) h₀ ?_ h
  intro e m e' _ hJ _ hstep
  rcases Executor.step_cases hstep with ⟨c, t, k, rest, w, o, -, -, hc, rfl⟩ |
    ⟨-, t, tasks, -, rfl⟩ | ⟨-, t, w, hback, rfl | rfl⟩ | ⟨-, rfl⟩
  · rw [Executor.afterCode_state]
    rcases taskCode_cases hc with ⟨choice, s, -, hop, rfl⟩ | ⟨-, hmemory, -, -⟩
    · exact hcode hJ hop
    · rw [hmemory]
      exact hJ
  · rw [Executor.execTask_state]
    exact hJ
  · obtain ⟨-, rfl⟩ := comeBack_cases hback
    rw [Executor.execTask_state]
    exact hJ
  · obtain ⟨-, rfl⟩ := comeBack_cases hback
    exact hJ
  · exact hJ

/-- A move that does not run an operation: it leaves the memory and the suspended operations alone,
and the tasks that are about to be polled stay so. -/
structure Carries (P : Primitive τ σ κ Λ) (e e' : Executor τ (World τ σ) κ) : Prop where
  memory : e'.state.memory = e.state.memory
  kept : ∀ f ∈ e.stack, P.isUser f.2 = false → f ∈ e'.stack
  entered : ∀ f ∈ e'.stack, f ∈ e.stack ∨ f.2 = P.entry
  scheduled : ∀ u, e.Scheduled P.program u → e'.Scheduled P.program u

/-- The task's own code does something else than an operation. -/
theorem carries_afterCode (hentry : P.isUser P.entry = false) {k : κ} {rest : List (τ × κ)}
    (hs : e.stack = (t, k) :: rest) (hmemory : w.memory = e.state.memory)
    (huser : P.isUser k = true) (hplace : ∀ k' ∈ o.place, k' = k) :
    Carries P e (e.afterCode P.program t rest w o) := by
  refine ⟨?_, ?_, ?_, ?_⟩
  · rw [Executor.afterCode_state, hmemory]
  · intro f hf hop
    rw [hs] at hf
    rcases List.mem_cons.mp hf with rfl | hf
    · cases huser.symm.trans hop
    · exact Executor.mem_afterCode_of_rest hf t w o
  · intro f hf
    rw [hs]
    rcases Executor.of_mem_afterCode hf with hf | ⟨k', hk', rfl⟩ | hf
    · exact Or.inl (List.mem_cons_of_mem _ hf)
    · rw [hplace k' hk']
      exact Or.inl (List.mem_cons_self ..)
    · exact Or.inr hf
  · intro u hu
    refine hu.afterCode hs ?_ w o
    -- The task's own code is not at the place where a poll starts.
    rintro heq
    rw [← (Prod.mk.inj heq).2] at huser
    cases huser.symm.trans hentry

/-- **What a move can do.** Either it runs an operation of the primitive, or it carries everything
over. -/
theorem move_cases (hentry : P.isUser P.entry = false) {e' : Executor τ (World τ σ) κ}
    {m : Move τ (TaskOp τ Λ)} (h : e.step P.program m = some e') :
    (∃ c t k rest s o, m = .code (.op c) ∧ e.stack = (t, k) :: rest ∧
      P.code e.state.memory t k c = some (s, o) ∧
      e' = e.afterCode P.program t rest { e.state with memory := s } o) ∨
    Carries P e e' := by
  rcases Executor.step_cases h with ⟨c, t, k, rest, w, o, rfl, hs, hcode, rfl⟩ |
    ⟨hs, t, tasks, htasks, rfl⟩ | ⟨hs, t, w, hback, rfl | rfl⟩ | ⟨hs, rfl⟩
  · rcases taskCode_cases hcode with ⟨choice, s, rfl, hop, rfl⟩ | ⟨-, hmemory, huser, hrest⟩
    · exact Or.inl ⟨choice, t, k, rest, s, o, rfl, hs, hop, rfl⟩
    · refine Or.inr (carries_afterCode hentry hs hmemory huser ?_)
      intro k' hk'
      rcases hrest with ⟨v, -, -, rfl | rfl⟩ | ⟨-, rfl | rfl⟩ | ⟨-, rfl⟩ <;> cases hk' <;> rfl
  · refine Or.inr ⟨by rw [Executor.execTask_state], fun f hf _ => ?_, fun f hf => ?_, ?_⟩
    · exact Executor.mem_stack_execTask (e := { e with localTasks := tasks }) hf t
    · exact Executor.of_mem_stack_execTask hf
    · rintro u (hu | hu)
      · rw [htasks] at hu
        rcases List.mem_append.mp hu with hu | hu
        · have hq : Executor.Scheduled P.program
              ({ e with localTasks := tasks } : Executor τ (World τ σ) κ) u := Or.inl hu
          exact hq.execTask t
        · rw [List.mem_singleton.mp hu]
          exact Executor.scheduled_execTask _ t
      · rw [hs] at hu
        cases hu
  · obtain ⟨-, hw⟩ := comeBack_cases hback
    refine Or.inr ⟨by rw [Executor.execTask_state, hw], fun f hf _ => ?_, fun f hf => ?_,
      fun u hu => ?_⟩
    · exact Executor.mem_stack_execTask (e := { e with state := w }) hf t
    · exact Executor.of_mem_stack_execTask hf
    · have hq : Executor.Scheduled P.program ({ e with state := w } : Executor τ (World τ σ) κ) u :=
        hu
      exact hq.execTask t
  · obtain ⟨-, rfl⟩ := comeBack_cases hback
    exact Or.inr ⟨rfl, fun f hf _ => hf, fun f hf => Or.inl hf,
      fun u hu => hu.imp_left (List.mem_append_left _)⟩
  · exact Or.inr ⟨rfl, fun f hf _ => hf, fun f hf => Or.inl hf, fun u hu => hu⟩

/-! ### Primitives with the same code -/

theorem step_congr {P Q : Primitive τ σ κ Λ} (hentry : P.entry = Q.entry)
    (huser : P.isUser = Q.isUser)
    (h : ∀ f ∈ e.stack, ∀ c, P.code e.state.memory f.1 f.2 c = Q.code e.state.memory f.1 f.2 c)
    (m : Move τ (TaskOp τ Λ)) : e.step P.program m = e.step Q.program m := by
  have hexec (e : Executor τ (World τ σ) κ) (t : τ) :
      e.execTask P.program t = e.execTask Q.program t := by
    simp only [Executor.execTask, Executor.execTaskNow, program, hentry]
  cases m with
  | code c =>
    cases hs : e.stack with
    | nil => simp only [Executor.step, hs]
    | cons f rest =>
      have hcode : P.taskCode e.state f.1 f.2 c = Q.taskCode e.state f.1 f.2 c := by
        cases c with
        | op choice =>
          simp only [taskCode, h f (Executor.mem_top hs) choice]
        | _ => simp only [taskCode, huser]
      have hafter (t : τ) (w : World τ σ) (o : Outcome τ κ) :
          e.afterCode P.program t rest w o = e.afterCode Q.program t rest w o := by
        cases o with
        | execTask u k => exact hexec _ u
        | _ => rfl
      simp only [Executor.step, hs, program, hcode]
      exact congrArg (Option.map · _) (funext fun r => hafter f.1 r.1 r.2)
  | popBack =>
    simp only [Executor.step]
    split
    · exact congrArg some (hexec _ _)
    · rfl
  | wake t =>
    simp only [Executor.step, program]
    split
    · exact congrArg (Option.map · _) (funext fun w => hexec _ t)
    · rfl
  | _ => rfl

theorem reachable_restrict {J : σ → Prop} [DecidablePred J] {w₀ : World τ σ} (h₀ : J w₀.memory)
    (hcode : ∀ {s t k c s' o}, J s → P.code s t k c = some (s', o) → J s')
    (h : Reachable (Executor.step P.program) (Executor.init w₀) e) :
    Reachable (Executor.step (P.restrict J).program) (Executor.init w₀) e := by
  refine Reach.invariant
    (I := Reachable (Executor.step (P.restrict J).program) (Executor.init w₀)) .start ?_ h
  intro e m e' hreach hrestrict _ hstep
  have hJ : J e.state.memory := memory_invariant h₀ hcode hreach
  have hsame : e.step P.program m = e.step (P.restrict J).program m :=
    step_congr (P := P) (Q := P.restrict J) rfl rfl (fun f _ c => (if_pos hJ).symm) m
  rw [hsame] at hstep
  exact .next hrestrict trivial hstep

/-! ### Runs with a history -/

section Record

variable {ρ : Type*} {note : σ → τ → κ → Λ → ρ → ρ}

/-- The world without the history. -/
def forgetWorld (w : World τ (σ × ρ)) : World τ σ := ⟨w.memory.1, w.away⟩

def forget (e : Executor τ (World τ (σ × ρ)) κ) : Executor τ (World τ σ) κ :=
  ⟨forgetWorld e.state, e.stack, e.localTasks, e.execSeries⟩

omit [DecidableEq τ] in
theorem forget_execTask {P' : Program τ (World τ (σ × ρ)) κ (TaskOp τ Λ)}
    {Q : Program τ (World τ σ) κ (TaskOp τ Λ)} (hentry : P'.entry = Q.entry)
    (e : Executor τ (World τ (σ × ρ)) κ) (t : τ) :
    forget (e.execTask P' t) = (forget e).execTask Q t := by
  unfold Executor.execTask
  have hseries : (forget e).execSeries = e.execSeries := rfl
  rw [hseries]
  split_ifs
  · simp only [forget, Executor.execTaskNow, hentry]
  · rfl

omit [DecidableEq τ] in
theorem forget_afterCode {P' : Program τ (World τ (σ × ρ)) κ (TaskOp τ Λ)}
    {Q : Program τ (World τ σ) κ (TaskOp τ Λ)} (hentry : P'.entry = Q.entry)
    (e : Executor τ (World τ (σ × ρ)) κ) (t : τ) (rest : List (τ × κ)) (w : World τ (σ × ρ))
    (o : Outcome τ κ) :
    forget (e.afterCode P' t rest w o) =
      (forget e).afterCode Q t rest (forgetWorld w) o := by
  cases o with
  | execTask u k => exact forget_execTask hentry _ u
  | goto | spawnLocalTask | yieldNow | returned => rfl

theorem taskCode_forgetWorld (note : σ → τ → κ → Λ → ρ → ρ) (w : World τ (σ × ρ)) (t : τ) (k : κ)
    (c : TaskOp τ Λ) :
    P.taskCode (forgetWorld w) t k c =
      ((P.record note).taskCode w t k c).map fun r => (forgetWorld r.1, r.2) := by
  cases c with
  | op choice =>
    simp only [taskCode, record, Option.map_map]
    rfl
  | execTask u | spawn u =>
    by_cases hgo : (P.isUser k && w.away u) = true <;> simp [taskCode, record, forgetWorld, hgo]
  | yieldNow | leave | exit =>
    by_cases huser : P.isUser k = true <;> simp [taskCode, record, forgetWorld, huser]

theorem step_forget (e : Executor τ (World τ (σ × ρ)) κ) (m : Move τ (TaskOp τ Λ)) :
    (forget e).step P.program m = (e.step (P.record note).program m).map forget := by
  have hentry : (P.record note).program.entry = P.program.entry := rfl
  have hback (w : World τ (σ × ρ)) (t : τ) : P.program.comeBack (forgetWorld w) t =
      ((P.record note).program.comeBack w t).map forgetWorld := by
    by_cases haway : w.away t = true <;> simp [program, forgetWorld, haway]
  obtain ⟨w, stack, tasks, series⟩ := e
  cases m with
  | code c =>
    cases stack with
    | nil => rfl
    | cons f rest =>
      have hcode := taskCode_forgetWorld (P := P) note w f.1 f.2 c
      simp only [Executor.step, forget, program, hcode, Option.map_map]
      congr 1
      funext r
      exact (forget_afterCode hentry ⟨w, f :: rest, tasks, series⟩ f.1 rest r.1 r.2).symm
  | popBack =>
    cases stack with
    | nil =>
      simp only [Executor.step, forget]
      cases tasks.getLast? with
      | none => rfl
      | some t =>
        exact congrArg some (forget_execTask hentry ⟨w, [], tasks.dropLast, series⟩ t).symm
    | cons f rest => rfl
  | wake t =>
    cases stack with
    | nil =>
      simp only [Executor.step, forget, hback, Option.map_map]
      congr 1
      funext v
      exact (forget_execTask hentry ⟨v, [], tasks, series⟩ t).symm
    | cons f rest => rfl
  | arrive t =>
    cases stack with
    | nil =>
      simp only [Executor.step, forget, hback, Option.map_map]
      rfl
    | cons f rest => rfl
  | newRound => cases stack <;> rfl

theorem reaches_of_record {s₀ : σ} {r₀ : ρ} {e : Executor τ (World τ (σ × ρ)) κ}
    (h : (P.record note).Reaches (s₀, r₀) e) : P.Reaches s₀ (forget e) := by
  refine Reach.component (f := forget) (fun e m e' _ hstep => Or.inr ⟨m, trivial, ?_⟩) h
  rw [step_forget, hstep]
  rfl

/-- A run of the primitive is one with any history. -/
theorem exists_record (note : σ → τ → κ → Λ → ρ → ρ) {s₀ : σ} (r₀ : ρ)
    {e : Executor τ (World τ σ) κ} (h : P.Reaches s₀ e) :
    ∃ e', (P.record note).Reaches (s₀, r₀) e' ∧ forget e' = e := by
  refine Reach.invariant (I := fun e => ∃ e', (P.record note).Reaches (s₀, r₀) e' ∧ forget e' = e)
    ⟨_, .start, rfl⟩ ?_ h
  rintro _ m e' - ⟨e, hreach, rfl⟩ - hstep
  have hforget : (forget e).step P.program m = (e.step (P.record note).program m).map forget :=
    step_forget e m
  rw [hforget, Option.map_eq_some_iff] at hstep
  obtain ⟨e'', hstep, rfl⟩ := hstep
  exact ⟨e'', .next hreach trivial hstep, rfl⟩

end Record

end Primitive

/-! ### Every task is in one place -/

section Custody

variable {τ σ κ Λ : Type*} [DecidableEq τ]

/-- How many times a primitive itself holds each task, with the proof that none of its operations
makes more of a task. -/
structure Custody (P : Primitive τ σ κ Λ) where
  /-- The places of a task in the memory. -/
  holds : σ → τ → ℕ
  /-- The places of a task in a suspended piece of code. -/
  held : κ → τ → ℕ
  entry_held : ∀ u, held P.entry u = 0
  code_le : ∀ {s t k c s' o}, P.code s t k c = some (s', o) →
    ∀ u, holds s' u + o.places held t u ≤ holds s u + held k u + oneAt t u

namespace Custody

variable {P : Primitive τ σ κ Λ} (C : Custody P)

/-- The custody of a primitive whose suspended pieces of code hold no task. -/
def ofMemory (holds : σ → τ → ℕ)
    (h : ∀ {s t k c s' o}, P.code s t k c = some (s', o) →
      ∀ u, holds s' u + o.places (fun _ _ => 0) t u = holds s u + oneAt t u) : Custody P where
  holds := holds
  held _ _ := 0
  entry_held _ := rfl
  code_le hcode u := Nat.le_of_eq (h hcode u)

/-- The places of a task in the memory, and whether it is away. -/
def worldHolds (w : World τ σ) (u : τ) : ℕ := C.holds w.memory u + (w.away u).toNat

theorem toNat_update_false {away : τ → Bool} {v : τ} (hv : away v = true) (u : τ) :
    (Function.update away v false u).toNat + oneAt v u = (away u).toNat := by
  by_cases huv : u = v
  · simp [huv, hv]
  · simp [huv, oneAt_of_ne (Ne.symm huv)]

theorem toNat_update_true_le (away : τ → Bool) (v u : τ) :
    (Function.update away v true u).toNat ≤ (away u).toNat + oneAt v u := by
  by_cases huv : u = v
  · simp [huv]
  · simp [huv]

/-- Nothing that a task does makes more of a task. -/
theorem worldHolds_code_le {w w' : World τ σ} {t : τ} {k : κ} {c : TaskOp τ Λ} {o : Outcome τ κ}
    (h : P.program.code w t k c = some (w', o)) (u : τ) :
    C.worldHolds w' u + o.places C.held t u ≤ C.worldHolds w u + C.held k u + oneAt t u := by
  rcases Primitive.taskCode_cases h with ⟨choice, s, -, hcode, rfl⟩ |
    ⟨-, hmemory, -, ⟨v, hv, haway, rfl | rfl⟩ | ⟨haway, rfl | rfl⟩ | ⟨haway, rfl⟩⟩
  · have hle := C.code_le hcode u
    simp only [worldHolds]
    omega
  · have hback := toNat_update_false hv u
    simp only [worldHolds, hmemory, haway, Outcome.places]
    omega
  · have hback := toNat_update_false hv u
    simp only [worldHolds, hmemory, haway, Outcome.places]
    omega
  · simp only [worldHolds, hmemory, haway, Outcome.places]
    omega
  · simp only [worldHolds, hmemory, haway, Outcome.places]
    omega
  · have hleave := toNat_update_true_le w.away t u
    simp only [worldHolds, hmemory, haway, Outcome.places]
    omega

theorem worldHolds_comeBack_le {w w' : World τ σ} {t : τ} (h : P.program.comeBack w t = some w')
    (u : τ) : C.worldHolds w' u + oneAt t u ≤ C.worldHolds w u := by
  obtain ⟨haway, rfl⟩ := Primitive.comeBack_cases h
  have hback := toNat_update_false haway u
  simp only [worldHolds]
  omega

/-- The ownership law of the program of the tasks that use the primitive. -/
def ownership : Ownership P.program where
  holds := C.worldHolds
  held := C.held
  entry_held := C.entry_held
  code_le := C.worldHolds_code_le
  comeBack_le := C.worldHolds_comeBack_le

variable {s₀ : σ} {e : Executor τ (World τ σ) κ}

theorem total_le_one (h₀ : ∀ u, C.holds s₀ u = 0) (h : P.Reaches s₀ e) (u : τ) :
    C.ownership.total e u ≤ 1 := by
  refine C.ownership.total_le_one (fun u => ?_) h u
  simp [ownership, worldHolds, h₀]

theorem holds_le_one (h₀ : ∀ u, C.holds s₀ u = 0) (h : P.Reaches s₀ e) (u : τ) :
    C.holds e.state.memory u ≤ 1 := by
  have hle := C.total_le_one h₀ h u
  simp only [Ownership.total, ownership, worldHolds] at hle
  omega

theorem holds_eq_zero_of_mem_stack (h₀ : ∀ u, C.holds s₀ u = 0) (h : P.Reaches s₀ e) {f : τ × κ}
    (hf : f ∈ e.stack) : C.holds e.state.memory f.1 = 0 := by
  have hle := C.total_le_one h₀ h f.1
  have hcount : 0 < (e.stack.map Prod.fst).count f.1 :=
    List.count_pos_iff.mpr (List.mem_map_of_mem hf)
  simp only [Ownership.total, ownership, worldHolds] at hle
  omega

/-- A history holds no tasks. -/
def record {ρ : Type*} (note : σ → τ → κ → Λ → ρ → ρ) : Custody (P.record note) where
  holds s := C.holds s.1
  held := C.held
  entry_held := C.entry_held
  code_le h := C.code_le (Primitive.code_of_record h).1

/-- The outline of a primitive, as one of the program of the tasks that use it. -/
def worldOutline (A : Outline τ σ κ) : Outline τ (World τ σ) κ where
  memory w := A.memory w.memory
  place w := A.place w.memory
  due w := A.due w.memory
  debt := A.debt

/-- **The rule of proof outlines** for a primitive: it is enough that the operations keep the
outline, of which those may be assumed to meet `D`, and that the tasks' own code has nothing left
to do. -/
theorem outline (A : Outline τ σ κ) {D : σ → τ → κ → Λ → Prop} (h₀ : ∀ u, C.holds s₀ u = 0)
    (hmemory : A.memory s₀) (hdue : A.due s₀ = 0) (hentry : ∀ s t, A.place s t P.entry)
    (hdebt : A.debt P.entry = 0) (huser : ∀ k, P.isUser k = true → A.debt k = 0) (hcode : ∀ {s t k
    c s' o}, D s t k c → A.memory s → A.place s t k → A.debt k ≤ A.due s → (∀ u, C.holds s u ≤ 1)
    → C.holds s t = 0 → P.code s t k c = some (s', o) → A.Keeps s t k s' o)
    (h : Reach (Executor.step P.program) (Primitive.OpMeets D) (Primitive.init s₀) e) :
    (worldOutline A).Holds e := by
  refine C.ownership.outline (worldOutline A) ?_ ?_ ?_ (fun w t => hentry w.memory t) hdebt
    ?_ ?_ h
  · intro u
    simp [ownership, worldHolds, h₀]
  · exact hmemory
  · exact hdue
  · intro e t k rest c w' o hs hC hm hp hd hle ht hstep
    rcases Primitive.taskCode_cases hstep with ⟨choice, s, rfl, hc, rfl⟩ |
      ⟨-, hmem, hk, hrest⟩
    · have hkeeps := hcode (hC (t, k) (by simp [hs])) hm hp hd
        (fun u => Nat.le_trans (Nat.le_add_right _ _) (hle u))
        (Nat.eq_zero_of_add_eq_zero_right ht) hc
      exact ⟨hkeeps.memory, hkeeps.place, hkeeps.others, hkeeps.due⟩
    · -- A task that does something else goes on where it is.
      have hplace : ∀ k' ∈ o.place, k' = k := by
        intro k' hk'
        rcases hrest with ⟨v, -, -, rfl | rfl⟩ | ⟨-, rfl | rfl⟩ | ⟨-, rfl⟩ <;> cases hk' <;> rfl
      have hzero : o.place.elim 0 A.debt = 0 := by
        cases ho : o.place with
        | none => rfl
        | some k' =>
          rw [hplace k' ho]
          exact huser k hk
      refine ⟨?_, ?_, ?_, ?_⟩
      · simpa only [worldOutline, hmem] using hm
      · intro k' hk'
        rw [hplace k' hk']
        simpa only [worldOutline, hmem] using hp
      · intro u k' _ hu
        simpa only [worldOutline, hmem] using hu
      · simp only [worldOutline, hmem, huser k hk, hzero]
  · intro w t w' hback
    obtain ⟨-, rfl⟩ := Primitive.comeBack_cases hback
    exact ⟨id, fun _ _ => id, rfl⟩

/-- **The invariant rule.** `J` is a property of the memory and `K` one of the places where code
is suspended.  To keep both it is enough that the operations do which run for a task that the
memory does not hold, in a memory that holds no task twice. -/
theorem invariant (h₀ : ∀ u, C.holds s₀ u = 0) {J : σ → Prop} {K : σ → κ → Prop} (hJ : J s₀)
    (hentry : ∀ s, K s P.entry) (hcode : ∀ {s t k c s' o}, J s → K s k → (∀ u, C.holds s u ≤ 1) →
    C.holds s t = 0 → P.code s t k c = some (s', o) → J s' ∧ ∀ k' ∈ o.place, K s' k')
    (hkeep : ∀ {s t k c s' o}, P.code s t k c = some (s', o) → ∀ k', K s k' → K s' k')
    (h : P.Reaches s₀ e) : J e.state.memory ∧ ∀ f ∈ e.stack, K e.state.memory f.2 := by
  have hholds := C.outline ⟨J, fun s _ k => K s k, fun _ => 0, fun _ => 0⟩
    (D := fun _ _ _ _ => True) h₀ hJ rfl (fun s _ => hentry s) rfl (fun _ _ => rfl) ?_
    (h.mono fun e m _ => Primitive.OpMeets.of_forall (fun _ _ _ _ => trivial) e m)
  · exact ⟨hholds.memory, hholds.place⟩
  · intro s t k c s' o _ hJs hKs _ hle ht hc
    obtain ⟨hJs', hplace⟩ := hcode hJs hKs hle ht hc
    refine ⟨hJs', hplace, fun _ k' _ hk' => hkeep hc k' hk', ?_⟩
    cases o.place <;> rfl

end Custody

end Custody

end Orengine.Runtime
