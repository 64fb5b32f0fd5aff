import Orengine.Sync.Scopes.Local
import Orengine.Sync.Scopes.Safety.Shared

/-!
# Scopes join their tasks

`local_scope` returns only after its tasks: `WaitLocalWaitGroup::poll` checks the counter each time
it is polled, and once the body has ended a counter of 0 is final.  `scopes_join` puts this together
with what holds for `shared_scope`, whose future does not check the counter again.
-/

namespace Orengine.Sync

open Lib Orengine.Runtime

namespace LocalScope

variable {τ ω : Type*} [DecidableEq τ] [DecidableEq ω]

/-! ### What an operation can do -/

/-- The effect of an operation of `who` at a place. -/
inductive Effect (m : LocalScope τ ω) :
    Who τ ω → Place → LocalScope τ ω → Outcome (Who τ ω) Place → Prop
  | resume {who : Who τ ω} : (who = .owner → m.owner = .body ∨ m.owner = .returned) →
      Effect m who .poll m (.goto .user)
  | park {k : Place} : (k = .poll ∧ m.owner = .waiting ∨ k = .user ∧ m.owner = .body) →
      m.wg.count ≠ 0 →
      Effect m .owner k { m with wg := m.wg.push .owner, owner := .waiting } .returned
  | yield {k : Place} : (k = .poll ∧ m.owner = .waiting ∨ k = .user ∧ m.owner = .body) →
      m.wg.count = 0 → Effect m .owner k { m with owner := .yielding } .yieldNow
  | leave : m.owner = .yielding →
      Effect m .owner .poll { m with owner := .returned } (.goto .user)
  | exec {who : Who τ ω} {t : τ} : m.hasScope who → m.task t = .unstarted →
      Effect m who .user (m.start t) (.execTask (.member t) .user)
  | spawn {who : Who τ ω} {t : τ} : m.hasScope who → m.task t = .unstarted →
      Effect m who .user (m.start t) (.spawnLocalTask (.member t) .user)
  | finish {t : τ} : m.task t = .running →
      Effect m (.member t) .user (m.finish t).1 (.goto (.drain 0 m.wg.done.2))
  | round {who : Who τ ω} {i stop : ℕ} {u : Who τ ω} : i < stop → m.wg.slots[i]? = some u →
      Effect m who (.drain i stop) m (.execTask u (.drain (i + 1) stop))
  | finished {who : Who τ ω} {i stop : ℕ} : ¬i < stop →
      Effect m who (.drain i stop) m .returned

omit [DecidableEq ω] in
/-- The owner polls `wait()` and parks, or goes on with `yield_now()`. -/
theorem effect_pollWait {m : LocalScope τ ω} {k : Place}
    (hk : k = .poll ∧ m.owner = .waiting ∨ k = .user ∧ m.owner = .body) :
    Effect m .owner k m.pollWait.1 m.pollWait.2 := by
  unfold LocalScope.pollWait LocalWaitGroup.pollWait
  by_cases hcount : m.wg.count = 0
  · rw [if_neg (not_not.mpr hcount)]
    exact .yield hk hcount
  · rw [if_pos hcount]
    exact .park hk hcount

omit [DecidableEq ω] in
theorem effect_pollOwner (m : LocalScope τ ω) :
    Effect m .owner .poll m.pollOwner.1 m.pollOwner.2 := by
  unfold LocalScope.pollOwner
  split
  case h_1 howner => exact .resume fun _ => Or.inl howner
  case h_2 howner => exact effect_pollWait (Or.inl ⟨rfl, howner⟩)
  case h_3 howner => exact .leave howner
  case h_4 howner => exact .resume fun _ => Or.inr howner

/-- **What an operation can do.** -/
theorem effect_of_code {m m' : LocalScope τ ω} {who : Who τ ω} {k : Place} {op : Op τ}
    {o : Outcome (Who τ ω) Place} (h : m.code who k op = some (m', o)) :
    Effect m who k m' o := by
  unfold code at h
  split at h
  case h_1 => -- a poll
    split at h
    case h_1 =>
      have heffect := effect_pollOwner m
      rwa [Option.some.inj h] at heffect
    case h_2 hwho =>
      cases h
      exact .resume fun howner => absurd howner hwho
  case h_2 t => -- `exec`
    split_ifs at h with hstart
    cases h
    exact .exec hstart.1 hstart.2
  case h_3 t => -- `spawn`
    split_ifs at h with hstart
    cases h
    exact .spawn hstart.1 hstart.2
  case h_4 => -- a task finishes
    split at h
    case h_1 t =>
      split_ifs at h with hrunning
      cases h
      exact .finish hrunning
    case h_2 => cases h
  case h_5 => -- `wait`
    split_ifs at h with hbody
    obtain ⟨rfl, howner⟩ := hbody
    have heffect := effect_pollWait (Or.inr ⟨rfl, howner⟩)
    rwa [Option.some.inj h] at heffect
  case h_6 i stop => -- a round of the loop of `done`
    unfold drain at h
    split_ifs at h with hi
    · obtain ⟨u, hu, heq⟩ := Option.map_eq_some_iff.mp h
      cases heq
      exact .round hi hu
    · cases h
      exact .finished hi
  case h_7 => cases h

section Joined

variable [Fintype τ]

/-- The counter counts the running tasks, and the owner gets past `wait` with no task running. -/
structure Joined (m : LocalScope τ ω) : Prop where
  counted : m.wg.count = tally Scope.TaskState.runs m.task
  past : m.owner = .yielding ∨ m.owner = .returned → m.wg.count = 0

omit [DecidableEq τ] [DecidableEq ω] in
theorem Joined.count_pos {m : LocalScope τ ω} (h : Joined m) {t : τ} (ht : m.task t = .running) :
    0 < m.wg.count := by
  have hle := le_tally Scope.TaskState.runs m.task t
  rw [ht, ← h.counted] at hle
  exact hle

omit [DecidableEq ω] in
theorem Joined.start {m : LocalScope τ ω} (h : Joined m) {who : Who τ ω} (hwho : m.hasScope who)
    {t : τ} (ht : m.task t = .unstarted) : Joined (m.start t) := by
  constructor
  · have htally := tally_update Scope.TaskState.runs m.task t .running
    have hcounted := h.counted
    rw [ht] at htally
    simp only [Scope.TaskState.runs] at htally
    show (m.wg.add 1).count = tally Scope.TaskState.runs (Function.update m.task t .running)
    rw [LocalWaitGroup.count_add]
    omega
  · intro hpast
    -- Past `wait` the body has ended and no task is running, so that nobody can start one.
    have hzero := h.past hpast
    cases who with
    | owner =>
      have hbody : m.owner = .body := hwho
      rcases hpast with hpast | hpast <;> cases hbody.symm.trans hpast
    | member u =>
      have hpos := h.count_pos hwho
      omega
    | other u => exact hwho.elim

omit [DecidableEq ω] in
theorem Joined.finish {m : LocalScope τ ω} (h : Joined m) {t : τ} (ht : m.task t = .running) :
    Joined (m.finish t).1 := by
  have hpos := h.count_pos ht
  have hcount : m.wg.done.1.count = m.wg.count - 1 := by
    unfold LocalWaitGroup.done
    split_ifs with hlast
    · exact hlast.symm
    · rfl
  constructor
  · have htally := tally_update Scope.TaskState.runs m.task t .finished
    have hcounted := h.counted
    rw [ht] at htally
    simp only [Scope.TaskState.runs] at htally
    show m.wg.done.1.count = tally Scope.TaskState.runs (Function.update m.task t .finished)
    omega
  · intro hpast
    have hzero := h.past hpast
    omega

theorem joined_code {m m' : LocalScope τ ω} {who : Who τ ω} {k : Place} {op : Op τ}
    {o : Outcome (Who τ ω) Place} (h : Joined m) (hcode : m.code who k op = some (m', o)) :
    Joined m' := by
  cases effect_of_code hcode with
  -- The loop of `done` only hands tasks to the executor.
  | resume | round | finished => exact h
  | park _ _ =>
    refine ⟨h.counted, fun hpast => ?_⟩
    rcases hpast with hpast | hpast <;> cases hpast
  | yield _ hzero => exact ⟨h.counted, fun _ => hzero⟩
  -- `yield_now()` lies between `wait` and the return; no task is running any more.
  | leave howner => exact ⟨h.counted, fun _ => h.past (Or.inl howner)⟩
  | exec hwho ht => exact h.start hwho ht
  | spawn hwho ht => exact h.start hwho ht
  | finish ht => exact h.finish ht

theorem joined_of_reachable {e : Executor (Who τ ω) (World (Who τ ω) (LocalScope τ ω)) Place}
    (h : Reachable (Executor.step primitive.program) init e) : Joined e.state.memory := by
  refine Primitive.memory_invariant (J := Joined) ?_ joined_code h
  refine ⟨(tally_const_zero Scope.TaskState.runs .unstarted rfl).symm, fun hpast => ?_⟩
  rcases hpast with hpast | hpast <;> cases hpast

end Joined

end LocalScope

/-! ### Both scopes -/

/-- **Scopes join their tasks.** `shared_scope` returns only after every task started through the
scope has finished, in the runs in which its owner does not call `wait` in the window of a task that
has finished before; `local_scope` does so in every run. -/
theorem scopes_join {ι τ ω : Type*} [DecidableEq ι] [Fintype ι] [DecidableEq τ] [Fintype τ]
    [DecidableEq ω] :
    (∀ s : Scope ι τ, Reach Scope.step Scope.Fresh .new s → s.owner = .returned →
      ∀ t, s.task t ≠ .running) ∧
    (∀ e : Executor (LocalScope.Who τ ω) (World (LocalScope.Who τ ω) (LocalScope τ ω))
        LocalScope.Place,
      Reachable (Executor.step LocalScope.primitive.program) LocalScope.init e →
      e.state.memory.owner = .returned → ∀ t, e.state.memory.task t ≠ .running) := by
  constructor
  · intro s h hreturned
    exact Scope.finished_of_returned h hreturned
  · intro e h hreturned t ht
    have hjoined := LocalScope.joined_of_reachable h
    have hpos := hjoined.count_pos ht
    have hzero := hjoined.past (Or.inr hreturned)
    omega

/-- The owner of a local scope executes `t`, which yields; the owner waits, and `t` wakes it nested
inside its `done`. -/
def localJoin {τ ω : Type*} (t : τ) :
    List (Move (LocalScope.Who τ ω) (TaskOp (LocalScope.Who τ ω) (LocalScope.Op τ))) :=
  [.wake .owner, .code (.op .go), .code (.op (.exec t)), .code (.op .go), .code .yieldNow,
    .code (.op .wait), .popBack, .code (.op .go), .code (.op .finish), .code (.op .go),
    .code (.op .go), .code (.op .go), .popBack, .code (.op .go)]

theorem scopes_join_joinOne_localJoin :
    (∃ s : Scope (Fin 2) (Fin 1), Reach Scope.step Scope.Fresh .new s ∧ s.owner = .returned ∧
      s.task 0 ≠ .running) ∧
    (∃ e : Executor (LocalScope.Who (Fin 1) Empty)
        (World (LocalScope.Who (Fin 1) Empty) (LocalScope (Fin 1) Empty)) LocalScope.Place,
      Reachable (Executor.step LocalScope.primitive.program) LocalScope.init e ∧
      e.state.memory.owner = .returned ∧ e.state.memory.task 0 ≠ .running) := by
  have hshared : Reach Scope.step Scope.Fresh (.new : Scope (Fin 2) (Fin 1)) _ :=
    reach_of_execWhere (Scope.joinOne 0 1 0) rfl
  have hlocal : Reachable (Executor.step LocalScope.primitive.program)
      (LocalScope.init (τ := Fin 1) (ω := Empty)) _ := reachable_of_exec (localJoin 0) rfl
  have hjoin := scopes_join (ι := Fin 2) (τ := Fin 1) (ω := Empty)
  exact ⟨⟨_, hshared, rfl, hjoin.1 _ hshared rfl 0⟩, ⟨_, hlocal, rfl, hjoin.2 _ hlocal rfl 0⟩⟩

end Orengine.Sync
