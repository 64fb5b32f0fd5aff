import Orengine.Lib.Reach
import Orengine.Lib.Tally
import Orengine.Sync.WaitGroups.Shared
import Mathlib.Tactic.SplitIfs

/-!
# What `WaitGroup::wait` waits for

`wait` is documented to wait until all tasks are completed.  The executor that has taken the
counter to 0, or has loaded 0 from it, pops tasks from the list a moment later, and by then the
list may hold a task that called `wait` for a counter which was never 0 since (`woken_early`).
`wait_returns_after_zero` is about the runs without such a call.  That nobody waits when the counter
is 0 and no executor is inside `done` or the handler (`nobody_waits`) breaks only with an `add` that
overflows the counter.
-/

namespace Orengine.Sync.WaitGroup

open Lib

variable {ι τ : Type*} [DecidableEq ι] [DecidableEq τ]

/-! ### What a step can do -/

/-- **The effect of a step.** -/
inductive Effect (s : WaitGroup ι τ) : Action ι τ → WaitGroup ι τ → Prop
  | add {i : ι} {n : ℕ} (hi : s.thread i = .idle) :
    Effect s (.add i n) (s.setCounter ((s.counter + n) % UInt64.size))
  | done {i : ι} (hi : s.thread i = .idle) (hn : 1 < s.counter) :
    Effect s (.done i) ((s.setCounter (s.counter - 1)).goto i .idle)
  | doneLast {i : ι} (hi : s.thread i = .idle) (hn : s.counter = 1) :
    Effect s (.done i) ((s.setCounter 0).goto i .donePop)
  | wait {i : ι} {t : τ} (hi : s.thread i = .idle) (ht : s.task t = .running) :
    Effect s (.wait i t) ({ s with
      task := Function.update s.task t .waiting
      sawZero := Function.update s.sawZero t (s.counter == 0) }.goto i (.waitPush t))
  | popAll {i : ι} (hi : s.thread i = .donePop) : Effect s (.go i) (s.popAllIn.goto i .idle)
  | push {i : ι} {t : τ} (hi : s.thread i = .waitPush t) :
    Effect s (.go i) ({ s with waitedTasks := t :: s.waitedTasks }.goto i .waitLoad)
  | loadZero {i : ι} (hi : s.thread i = .waitLoad) (hn : s.counter = 0) :
    Effect s (.go i) (s.goto i .waitPop)
  | loadMore {i : ι} (hi : s.thread i = .waitLoad) (hn : s.counter ≠ 0) :
    Effect s (.go i) (s.goto i .idle)
  | popNone {i : ι} (hi : s.thread i = .waitPop) (hw : s.waitedTasks = []) :
    Effect s (.go i) (s.goto i .idle)
  | pop {i : ι} {t : τ} {rest : List τ} (hi : s.thread i = .waitPop)
    (hw : s.waitedTasks = t :: rest) :
    Effect s (.go i) ({ s with
      waitedTasks := rest
      task := Function.update s.task t .woken }.goto i .idle)
  | resume {t : τ} (ht : s.task t = .woken) :
    Effect s (.resume t) { s with task := Function.update s.task t .running }

variable {s s' : WaitGroup ι τ} {i : ι}

theorem effect_go (h : s.go i = some s') : Effect s (.go i) s' := by
  unfold go at h
  split at h
  case h_1 => cases h
  case h_2 hi => exact Option.some.inj h ▸ .popAll hi
  case h_3 t hi => exact Option.some.inj h ▸ .push hi
  case h_4 hi =>
    obtain rfl := Option.some.inj h
    by_cases hn : s.counter = 0
    · rw [if_pos hn]
      exact .loadZero hi hn
    · rw [if_neg hn]
      exact .loadMore hi hn
  case h_5 hi =>
    obtain rfl := Option.some.inj h
    unfold WaitGroup.pop
    split
    case h_1 hw => exact .popNone hi hw
    case h_2 t rest hw => exact .pop hi hw

theorem effect_of_step {a : Action ι τ} (h : s.step a = some s') : Effect s a s' := by
  cases a with
  | add i n =>
    simp only [step] at h
    split_ifs at h with hi
    exact Option.some.inj h ▸ .add hi
  | done i =>
    simp only [step] at h
    split_ifs at h with hi hn
    · obtain rfl := Option.some.inj h
      rw [show s.counter - 1 = 0 by omega]
      exact .doneLast hi.1 hn
    · obtain rfl := Option.some.inj h
      exact .done hi.1 (by omega)
  | wait i t =>
    simp only [step] at h
    split_ifs at h with hi
    exact Option.some.inj h ▸ .wait hi.1 hi.2
  | go i => exact effect_go h
  | resume t =>
    simp only [step] at h
    split_ifs at h with ht
    exact Option.some.inj h ▸ .resume ht

/-- The executors' steps inside `done` and the handler leave the counter alone. -/
theorem Effect.go_frame (h : Effect s (.go i) s') :
    s'.counter = s.counter ∧ s'.sawZero = s.sawZero := by
  cases h <;> exact ⟨rfl, rfl⟩

/-! ### Every waiting task is in the list once -/

/-- How many times the executor is about to push `t`. -/
def Thread.pushes (t : τ) : Thread τ → ℕ
  | .waitPush u => oneAt u t
  | _ => 0

def TaskState.waits : TaskState → ℕ
  | .waiting => 1
  | _ => 0

theorem TaskState.waits_le_one (k : TaskState) : k.waits ≤ 1 := by
  cases k <;> decide

theorem TaskState.waiting_of_waits {k : TaskState} (h : 0 < k.waits) : k = .waiting := by
  cases k with
  | waiting => rfl
  | _ => cases h

section Placed

variable [Fintype ι]

/-- A task is in the list or about to be pushed, once, exactly while it waits. -/
def Placed (s : WaitGroup ι τ) : Prop :=
  ∀ t, s.waitedTasks.count t + tally (Thread.pushes t) s.thread = (s.task t).waits

variable {s : WaitGroup ι τ} {u : τ}

omit [DecidableEq ι] in
theorem Placed.waiting_of_mem (h : Placed s) {t : τ} (ht : t ∈ s.waitedTasks) :
    s.task t = .waiting := by
  have hcount := List.count_pos_iff.mpr ht
  have heq := h t
  exact TaskState.waiting_of_waits (by omega)

theorem waits_update (task : τ → TaskState) {k : TaskState} (t : τ) :
    (Function.update task u k t).waits = if u = t then k.waits else (task t).waits := by
  by_cases hut : u = t
  · subst hut
    simp
  · simp [hut, Ne.symm hut]

theorem Placed.goto (h : Placed s) {i : ι} {p q : Thread τ} (hi : s.thread i = p)
    (hpushes : ∀ t, q.pushes t = p.pushes t) : Placed (s.goto i q) := by
  intro t
  have hmove := tally_update (Thread.pushes t) s.thread i q
  rw [hi, hpushes t] at hmove
  have heq := h t
  simp only [WaitGroup.goto]
  omega

theorem Placed.push (h : Placed s) {i : ι} (hi : s.thread i = .waitPush u) :
    Placed ({ s with waitedTasks := u :: s.waitedTasks }.goto i .waitLoad) := by
  intro t
  have hmove := tally_update (Thread.pushes t) s.thread i .waitLoad
  rw [hi] at hmove
  have heq := h t
  simp only [WaitGroup.goto, Thread.pushes, count_cons_eq_oneAt] at hmove ⊢
  omega

/-- A running task that calls `wait` is in the hands of its executor. -/
theorem Placed.wait (h : Placed s) {i : ι} (hi : s.thread i = .idle) (hu : s.task u = .running)
    (sawZero : τ → Bool) :
    Placed ({ s with
      task := Function.update s.task u .waiting
      sawZero := sawZero }.goto i (.waitPush u)) := by
  intro t
  have hmove := tally_update (Thread.pushes t) s.thread i (.waitPush u)
  rw [hi] at hmove
  have heq := h t
  simp only [WaitGroup.goto, Thread.pushes, waits_update] at hmove ⊢
  split_ifs with hut
  · subst hut
    rw [hu] at heq
    simp only [TaskState.waits, oneAt_self] at heq hmove ⊢
    omega
  · rw [oneAt_of_ne hut] at hmove
    omega

omit [DecidableEq ι] in
theorem Placed.pop (h : Placed s) {rest : List τ} (hw : s.waitedTasks = u :: rest) :
    Placed { s with waitedTasks := rest, task := Function.update s.task u .woken } := by
  intro t
  have hle := (s.task t).waits_le_one
  have heq := h t
  rw [hw, count_cons_eq_oneAt] at heq
  simp only [waits_update]
  split_ifs with hut
  · subst hut
    rw [oneAt_self] at heq
    simp only [TaskState.waits]
    omega
  · rw [oneAt_of_ne hut] at heq
    omega

omit [DecidableEq ι] in
theorem Placed.popAllIn (h : Placed s) : Placed s.popAllIn := by
  intro t
  have hle := (s.task t).waits_le_one
  have heq := h t
  simp only [WaitGroup.popAllIn, List.count_nil]
  split_ifs with ht
  · -- The only place of `t` was the list.
    have hcount := List.count_pos_iff.mpr ht
    simp only [TaskState.waits]
    omega
  · have hcount := List.count_eq_zero.mpr ht
    omega

theorem placed_effect {s' : WaitGroup ι τ} {a : Action ι τ} (h : Placed s)
    (heffect : Effect s a s') : Placed s' := by
  cases heffect with
  | add hi => exact h
  | done hi | doneLast hi => exact Placed.goto (s := s.setCounter _) h hi (fun _ => rfl)
  | wait hi hu => exact h.wait hi hu _
  | popAll hi => exact h.popAllIn.goto hi (fun _ => rfl)
  | push hi => exact h.push hi
  | loadZero hi | loadMore hi | popNone hi => exact h.goto hi (fun _ => rfl)
  | pop hi hw => exact (h.pop hw).goto hi (fun _ => rfl)
  | @resume u hu =>
    intro t
    have heq := h t
    simp only [waits_update]
    split_ifs with hut
    · -- A woken task is in no place, as is a running one.
      subst hut
      rw [hu] at heq
      exact heq
    · exact heq

theorem placed_of_reach {C : WaitGroup ι τ → Action ι τ → Prop} (h : Reach step C new s) :
    Placed s := by
  apply Reach.invariant (I := Placed) ?_ ?_ h
  · intro t
    show List.count t [] + tally (Thread.pushes t) (fun _ : ι => .idle) = 0
    rw [tally_const_zero (Thread.pushes t) .idle rfl, List.count_nil]
  · intro s a s' _ hplaced _ hstep
    exact placed_effect hplaced (effect_of_step hstep)

end Placed

/-! ### The counter was 0 since the call -/

/-- Whether the executor is about to pop tasks because of a 0 that it has seen. -/
def Thread.pops : Thread τ → Bool
  | .donePop | .waitPop => true
  | _ => false

/-- The step does not let a task call `wait` for a positive counter while an executor is about to
pop tasks because of an earlier 0. -/
def Fresh (s : WaitGroup ι τ) : Action ι τ → Prop
  | .wait _ _ => s.counter = 0 ∨ ∀ i, (s.thread i).pops = false
  | _ => True

instance [Fintype ι] (s : WaitGroup ι τ) (a : Action ι τ) : Decidable (Fresh s a) := by
  unfold Fresh
  split <;> infer_instance

/-- Every task that may be popped next has called `wait` before some moment at which the counter
was 0, and so has every woken task. -/
structure Zeroed (s : WaitGroup ι τ) : Prop where
  popping : (s.counter = 0 ∨ ∃ i, (s.thread i).pops = true) →
    ∀ t, s.task t = .waiting → s.sawZero t = true
  woken : ∀ t, s.task t = .woken → s.sawZero t = true

omit [DecidableEq ι] [DecidableEq τ] in
theorem Zeroed.of_waiting (h : Zeroed s) (hpop : s.counter = 0 ∨ ∃ i, (s.thread i).pops = true)
    {t : τ} (ht : s.task t ≠ .running) : s.sawZero t = true := by
  cases hk : s.task t with
  | running => exact absurd hk ht
  | waiting => exact h.popping hpop t hk
  | woken => exact h.woken t hk

omit [DecidableEq τ] in
/-- An executor that pops after the move of `i` to `p` is `i`, or did before. -/
theorem pops_goto {thread : ι → Thread τ} {p : Thread τ}
    (h : ∃ j, (Function.update thread i p j).pops = true) :
    p.pops = true ∨ ∃ j, (thread j).pops = true := by
  obtain ⟨j, hj⟩ := h
  by_cases hji : j = i
  · subst hji
    exact Or.inl (by simpa using hj)
  · exact Or.inr ⟨j, by simpa [hji] using hj⟩

omit [DecidableEq ι] [DecidableEq τ] in
theorem Zeroed.setCounter (h : Zeroed s) (n : ℕ) : Zeroed (s.setCounter n) where
  popping hpop t ht := by
    show (n == 0 || s.sawZero t) = true
    rcases hpop with hn | hpop
    · have hn : n = 0 := hn
      simp [hn]
    · simp [h.popping (Or.inr hpop) t ht]
  woken t ht := by
    show (n == 0 || s.sawZero t) = true
    simp [h.woken t ht]

omit [DecidableEq τ] in
theorem Zeroed.goto (h : Zeroed s) {p : Thread τ}
    (hp : p.pops = true → s.counter = 0 ∨ (s.thread i).pops = true) : Zeroed (s.goto i p) where
  popping hpop t ht := by
    apply h.popping ?_ t ht
    rcases hpop with hn | hpop
    · exact Or.inl hn
    · rcases pops_goto hpop with hpop | hpop
      · rcases hp hpop with hn | hi
        · exact Or.inl hn
        · exact Or.inr ⟨i, hi⟩
      · exact Or.inr hpop
  woken := h.woken

omit [DecidableEq ι] [DecidableEq τ] in
theorem Zeroed.wake (h : Zeroed s) (hpop : s.counter = 0 ∨ ∃ i, (s.thread i).pops = true)
    {task : τ → TaskState}
    (htask : ∀ t, task t = s.task t ∨ task t = .woken ∧ s.task t ≠ .running)
    (waitedTasks : List τ) : Zeroed { s with waitedTasks := waitedTasks, task := task } where
  popping _ t ht := by
    have ht : task t = .waiting := ht
    rcases htask t with hk | ⟨hk, -⟩
    · exact h.popping hpop t (hk.symm.trans ht)
    · rw [hk] at ht
      cases ht
  woken t ht := by
    have ht : task t = .woken := ht
    rcases htask t with hk | ⟨-, hk⟩
    · exact h.woken t (hk.symm.trans ht)
    · exact h.of_waiting hpop hk

theorem zeroed_effect [Fintype ι] {a : Action ι τ} (hplaced : Placed s) (h : Zeroed s)
    (hfresh : Fresh s a) (heffect : Effect s a s') : Zeroed s' := by
  cases heffect with
  | add hi => exact h.setCounter _
  | done hi hn => exact (h.setCounter _).goto nofun
  | doneLast hi hn => exact (h.setCounter _).goto fun _ => Or.inl rfl
  | @wait i u hi hu =>
    -- The new waiter has seen the 0 because of which it may be popped.
    refine Zeroed.goto ⟨fun hpop t ht => ?_, fun t ht => ?_⟩ nofun
    · by_cases htu : t = u
      · subst htu
        have hzero : s.counter = 0 := by
          rcases hpop with hn | ⟨j, hj⟩
          · exact hn
          · rcases hfresh with hn | hnone
            · exact hn
            · have hj : (s.thread j).pops = true := hj
              rw [hnone j] at hj
              cases hj
        simp [hzero]
      · simp only [Function.update_of_ne htu] at ht ⊢
        exact h.popping hpop t ht
    · by_cases htu : t = u
      · subst htu
        simp at ht
      · simp only [Function.update_of_ne htu] at ht ⊢
        exact h.woken t ht
  | @popAll i hi =>
    have hpop : (s.thread i).pops = true := by
      rw [hi]
      rfl
    refine (h.wake (Or.inr ⟨i, hpop⟩) (fun t => ?_) []).goto nofun
    by_cases ht : t ∈ s.waitedTasks
    · right
      rw [if_pos ht, hplaced.waiting_of_mem ht]
      exact ⟨rfl, by simp⟩
    · left
      rw [if_neg ht]
  | @push i u hi =>
    exact Zeroed.goto (s := { s with waitedTasks := u :: s.waitedTasks }) ⟨h.popping, h.woken⟩ nofun
  | loadZero hi hn => exact h.goto fun _ => Or.inl hn
  | loadMore | popNone => exact h.goto nofun
  | @pop i u rest hi hw =>
    have hpop : (s.thread i).pops = true := by
      rw [hi]
      rfl
    refine (h.wake (Or.inr ⟨i, hpop⟩) (fun t => ?_) rest).goto nofun
    by_cases htu : t = u
    · right
      subst htu
      rw [Function.update_self, hplaced.waiting_of_mem (by simp [hw])]
      exact ⟨rfl, by simp⟩
    · left
      rw [Function.update_of_ne htu]
  | @resume u hu =>
    constructor
    · intro hpop t ht
      by_cases htu : t = u
      · subst htu
        simp at ht
      · simp only [Function.update_of_ne htu] at ht
        exact h.popping hpop t ht
    · intro t ht
      by_cases htu : t = u
      · subst htu
        simp at ht
      · simp only [Function.update_of_ne htu] at ht
        exact h.woken t ht

theorem zeroed_of_reach [Fintype ι] (h : Reach step Fresh new s) : Zeroed s := by
  apply Reach.invariant (I := Zeroed) ?_ ?_ h
  · exact ⟨fun _ t ht => (nomatch ht), fun t ht => (nomatch ht)⟩
  · intro s a s' hreach hzeroed hfresh hstep
    exact zeroed_effect (placed_of_reach hreach) hzeroed hfresh (effect_of_step hstep)

/-! ### Nobody waits for a counter that is 0 -/

/-- How many executors have pushed a task and may still pop one. -/
def Thread.ends : Thread τ → ℕ
  | .waitLoad | .waitPop => 1
  | _ => 0

/-- How many executors are about to pop all tasks. -/
def Thread.popsAll : Thread τ → ℕ
  | .donePop => 1
  | _ => 0

/-- The step does not overflow the counter. -/
def InRange (s : WaitGroup ι τ) : Action ι τ → Prop
  | .add _ n => s.counter + n < UInt64.size
  | _ => True

instance (s : WaitGroup ι τ) (a : Action ι τ) : Decidable (InRange s a) := by
  unfold InRange
  split <;> infer_instance

section Covered

variable [Fintype ι]

/-- While the counter is 0 and nobody is about to pop all tasks, each task in the list is matched
by an executor that will find the counter 0 and pop a task. -/
def Covered (s : WaitGroup ι τ) : Prop :=
  s.counter = 0 → tally Thread.popsAll s.thread = 0 →
    s.waitedTasks.length ≤ tally Thread.ends s.thread

variable {s : WaitGroup ι τ}

theorem covered_effect {s' : WaitGroup ι τ} {a : Action ι τ} (h : Covered s)
    (hrange : InRange s a) (heffect : Effect s a s') : Covered s' := by
  -- The executor of the step moves from `s.thread i` to `p`.
  have hends (i : ι) (p : Thread τ) := tally_update Thread.ends s.thread i p
  have hall (i : ι) (p : Thread τ) := tally_update Thread.popsAll s.thread i p
  intro hzero hnone
  cases heffect with
  | @add i n hi =>
    have hn : (s.counter + n) % UInt64.size = 0 := hzero
    have hlt : s.counter + n < UInt64.size := hrange
    -- Without an overflow the counter is 0 only if nothing was added to 0.
    rw [Nat.mod_eq_of_lt hlt] at hn
    exact h (by omega) hnone
  | done hi hn =>
    have hzero : s.counter - 1 = 0 := hzero
    omega
  | @doneLast i hi hn =>
    -- The executor itself is about to pop all tasks.
    have := hall i .donePop
    rw [hi] at this
    simp only [goto, setCounter, Thread.popsAll] at this hnone
    omega
  | @wait i t hi ht =>
    have hends := hends i (.waitPush t)
    have hall := hall i (.waitPush t)
    rw [hi] at hends hall
    simp only [goto, Thread.ends, Thread.popsAll] at hzero hnone hends hall ⊢
    have := h hzero (by omega)
    omega
  | @popAll i hi => exact Nat.zero_le _
  | @push i t hi =>
    -- The new task in the list is matched by the executor that has pushed it.
    have hends := hends i .waitLoad
    have hall := hall i .waitLoad
    rw [hi] at hends hall
    simp only [goto, Thread.ends, Thread.popsAll, List.length_cons] at hzero hnone hends hall ⊢
    have := h hzero (by omega)
    omega
  | @loadZero i hi hn =>
    have hends := hends i .waitPop
    have hall := hall i .waitPop
    rw [hi] at hends hall
    simp only [goto, Thread.ends, Thread.popsAll] at hzero hnone hends hall ⊢
    have := h hzero (by omega)
    omega
  -- An executor that does not try to pop a task has loaded a positive counter.
  | loadMore hi hn => exact absurd hzero hn
  | @popNone i hi hw =>
    show s.waitedTasks.length ≤ _
    rw [hw]
    exact Nat.zero_le _
  | @pop i t rest hi hw =>
    -- The executor no longer pops, but there is one task less.
    have hends := hends i .idle
    have hall := hall i .idle
    rw [hi] at hends hall
    simp only [goto, Thread.ends, Thread.popsAll] at hzero hnone hends hall ⊢
    have := h hzero (by omega)
    rw [hw, List.length_cons] at this
    omega
  | resume ht => exact h hzero hnone

theorem covered_of_reach (h : Reach step InRange new s) : Covered s := by
  apply Reach.invariant (I := Covered) ?_ ?_ h
  · intro _ _
    exact Nat.zero_le _
  · intro s a s' _ hcovered hrange hstep
    exact covered_effect hcovered hrange (effect_of_step hstep)

/-- When the counter is 0 and every executor is done, the list is empty and no task waits. -/
theorem nobody_waits (h : Reach step InRange new s) (hzero : s.counter = 0)
    (hidle : ∀ i, s.thread i = .idle) : s.waitedTasks = [] ∧ ∀ t, s.task t ≠ .waiting := by
  have hnone (f : Thread τ → ℕ) (hf : f .idle = 0) : tally f s.thread = 0 := by
    rw [tally_eq_zero_iff]
    intro i
    rw [hidle i, hf]
  -- No executor is left to match a task in the list.
  have hempty : s.waitedTasks = [] := by
    have hle := covered_of_reach h hzero (hnone Thread.popsAll rfl)
    rw [hnone Thread.ends rfl] at hle
    exact List.length_eq_zero_iff.mp (Nat.le_zero.mp hle)
  refine ⟨hempty, fun t ht => ?_⟩
  have heq := placed_of_reach h t
  rw [hempty, hnone (Thread.pushes t) rfl, ht] at heq
  simp [TaskState.waits] at heq

end Covered

/-! ### The main results -/

/-- **What `wait` promises.** If no call of `wait` for a positive counter falls between a 0 and the
pops because of it, then a task returns from `wait` only after a moment since its call at which the
counter was 0.  If no `add` overflows, then nobody waits when the counter is 0 and every executor
has left `done` and the handler. -/
theorem wait_returns_after_zero [Fintype ι] :
    (∀ s : WaitGroup ι τ, Reach step Fresh new s →
      ∀ t s', s.step (.resume t) = some s' → s.sawZero t = true) ∧
    (∀ s : WaitGroup ι τ, Reach step InRange new s → s.counter = 0 →
      (∀ i, s.thread i = .idle) → s.waitedTasks = [] ∧ ∀ t, s.task t ≠ .waiting) := by
  constructor
  · intro s h t s' hstep
    cases effect_of_step hstep with
    | resume ht => exact (zeroed_of_reach h).woken t ht
  · intro s h hzero hidle
    exact nobody_waits h hzero hidle

/-- `t` waits for a counter of 1 on the executor `j` while `i` takes it to 0. -/
def waitThenDone (i j : ι) (t : τ) : List (Action ι τ) :=
  [.add i 1, .wait j t, .go j, .done i, .go j, .go j, .go i]

theorem wait_returns_after_zero_waitThenDone :
    ∃ s s' : WaitGroup (Fin 2) (Fin 1), Reach step Fresh new s ∧ Reach step InRange new s ∧
      s.step (.resume 0) = some s' ∧ s.sawZero 0 = true ∧ s.waitedTasks = [] := by
  have hfresh : Reach step Fresh (new : WaitGroup (Fin 2) (Fin 1)) _ :=
    reach_of_execWhere (waitThenDone 0 1 0) rfl
  have hrange : Reach step InRange (new : WaitGroup (Fin 2) (Fin 1)) _ :=
    reach_of_execWhere (waitThenDone 0 1 0) rfl
  refine ⟨_, _, hfresh, hrange, rfl, ?_, ?_⟩
  · exact wait_returns_after_zero.1 _ hfresh 0 _ rfl
  · exact (wait_returns_after_zero.2 _ hrange rfl (by decide)).1

/-- The executor `i` takes the counter to 0 and is delayed before it pops the tasks; then another
unit is added, and `t` waits for it on `j`. -/
def lateWait (i j : ι) (t : τ) : List (Action ι τ) :=
  [.add i 1, .done i, .add j 1, .wait j t, .go j, .go j, .go i]

/-- **A task returns early.** After `lateWait` the task returns from `wait` although the counter
has been 1 ever since its call.  And an `add` that overflows leaves a task in the list of a wait
group whose counter is 0. -/
theorem woken_early :
    (∃ s s' : WaitGroup (Fin 2) (Fin 1), Reach step InRange new s ∧
      s.step (.resume 0) = some s' ∧ s.sawZero 0 = false ∧ s.counter = 1) ∧
    (∃ s : WaitGroup (Fin 1) (Fin 1), Reach step Fresh new s ∧ s.counter = 0 ∧
      s.thread 0 = .idle ∧ s.waitedTasks = [0]) := by
  have hrange : Reach step InRange (new : WaitGroup (Fin 2) (Fin 1)) _ :=
    reach_of_execWhere (lateWait 0 1 0) rfl
  have hfresh : Reach step Fresh (new : WaitGroup (Fin 1) (Fin 1)) _ :=
    reach_of_execWhere [.add 0 1, .wait 0 0, .go 0, .go 0, .add 0 (UInt64.size - 1)] rfl
  exact ⟨⟨_, _, hrange, rfl, rfl, rfl⟩, ⟨_, hfresh, rfl, rfl, rfl⟩⟩

end Orengine.Sync.WaitGroup
