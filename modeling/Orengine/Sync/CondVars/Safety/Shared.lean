import Orengine.Sync.Mutexes.Safety.Accounting

/-!
# Notified tasks of `CondVar`

A notified task takes its `Mutex` back by a `try_lock` and, if this fails, by a separate
`low_level_subscribe`.  The owner of the mutex may unlock it in between (`stranded`).

`not_stranded` says what keeps this from happening: that no `unlock` releases the counter past a
task which is about to subscribe, or by an outdated `expected_count`, that no write of
`expected_count` is lost, and that the steps are settled.
-/

namespace Orengine.Sync.Mutex

open Lib

variable {τ : Type*} [DecidableEq τ]

/-- Whether the step subscribes to the mutex without a condition variable. -/
def Action.isSubscribe : Action τ → Bool
  | .subscribe _ => true
  | _ => false

omit [DecidableEq τ] in
/-- A task gets to `low_level_subscribe` by a failed `try_lock`. -/
theorem Moves.subscribing {s : Mutex τ} {a : Action τ} {x y : Pc} (h : Moves s a x y)
    (ha : a.isSubscribe = false) (hy : y.subscribing = true) :
    x.subscribing = true ∨ s.counter ≠ 0 := by
  cases h with
  | spinFails _ _ hne | notifiedFails hne => exact Or.inr hne
  | startSubscribe t heq => simp [heq, Action.isSubscribe] at ha
  | subscribeLoad => exact Or.inl rfl
  | _ => cases hy

/-- **The mutex is locked while a task is about to subscribe**, if no step releases it then. -/
theorem subscribing_effect [Fintype τ] {s s' : Mutex τ} {a : Action τ}
    (ha : a.isSubscribe = false) (hinStep : InStep s a)
    (h : ∀ t, (s.pc t).subscribing = true → s.counter ≠ 0) (heffect : Effect s a s') :
    ∀ u, (s'.pc u).subscribing = true → s'.counter ≠ 0 := by
  -- A task that moves to a place outside `low_level_subscribe` changes nothing for the others.
  have hgoto {s₁ : Mutex τ} {t : τ} {k : Pc} (hpc : s₁.pc = s.pc) (hk : k.subscribing = false) :
      ∀ u, ((s₁.goto t k).pc u).subscribing = true → s.counter ≠ 0 := by
    refine forall_goto (·.subscribing = true → s.counter ≠ 0) ?_ (fun u _ => hpc ▸ h u)
    intro hsub
    rw [hk] at hsub
    cases hsub
  cases heffect with
  | stay _ => exact h
  | @move b hmove =>
    refine forall_goto (·.subscribing = true → s.counter ≠ 0) ?_ (fun u _ => h u)
    intro hsub
    exact (hmove.subscribing ha hsub).elim (h a.task) id
  | acquire _ _ _ => exact fun _ _ => Nat.one_ne_zero
  | enter _ _ => exact fun _ _ => Nat.succ_ne_zero _
  | push | bump | condPush | notify | subscribe => exact hgoto rfl rfl
  | @release expected who hpc heq =>
    -- Nobody is about to subscribe: the step is in step.
    have hnone := (hinStep.2 expected (by rw [hpc]; rfl) heq).2
    refine forall_goto (·.subscribing = true → _) (fun hu => by cases hu) (fun u _ hu => ?_)
    rw [hnone u] at hu
    cases hu
  | @reset who hpc => exact hgoto rfl who.subscribing_next
  | @handOff v rest who hpc hw =>
    refine forall_goto (·.subscribing = true → s.counter ≠ 0) ?_ (fun u _ => hgoto rfl rfl u)
    intro hsub
    rw [who.subscribing_next] at hsub
    cases hsub

/-- A step that is settled and in step, with counters that fit. -/
def Orderly (s : Mutex τ) (a : Action τ) : Prop :=
  a.isSubscribe = false ∧ Settled s a ∧ InStep s a ∧ s.Fits

instance [Fintype τ] (s : Mutex τ) (a : Action τ) : Decidable (Orderly s a) :=
  inferInstanceAs (Decidable (_ ∧ _))

/-- **The accounts of runs with a condition variable.** In every run whose steps are settled and in
step, the accounts are right and the mutex is locked while a task is about to subscribe. -/
theorem accounts_of_reach [Fintype τ] {s : Mutex τ}
    (h : Reach Mutex.step Orderly new s) :
    Accounts s ∧ ∀ t, (s.pc t).subscribing = true → s.counter ≠ 0 := by
  refine Reach.invariant
    (I := fun s => Accounts s ∧ ∀ t, (s.pc t).subscribing = true → s.counter ≠ 0)
    ⟨accounted_new.accounts, fun t ht => by cases ht⟩ ?_ h
  rintro s a s' hreach ⟨haccounts, hsubscribing⟩ ⟨ha, hsettled, hinStep, -⟩ hstep
  have heffect := effect_of_step hstep
  exact ⟨accounts_effect (queues_of_reach hreach) (owners_of_reach hreach) haccounts hsettled
    hinStep (hsubscribing a.task) heffect, subscribing_effect ha hinStep hsubscribing heffect⟩

/-- **No task is parked at a free mutex.** In every run of tasks that use the mutex directly or
through a condition variable, whose steps are settled and in step, nobody is in `wait_queue` while
`counter` is 0; in particular no notified task is. -/
theorem not_stranded [Fintype τ] {s : Mutex τ}
    (h : Reach Mutex.step Orderly new s)
    (hfree : s.counter = 0) : s.waitQueue = [] ∧ ∀ t why, s.pc t ≠ .parked why := by
  have hwaiters := (accounts_of_reach h).1.free hfree
  have hempty : s.waitQueue = [] := by
    unfold waiters at hwaiters
    exact List.length_eq_zero_iff.mp (by omega)
  refine ⟨hempty, fun t why hpc => ?_⟩
  have hmem := ((queues_of_reach h).mem_wait t).mpr ⟨why, hpc⟩
  simp [hempty] at hmem

/-- `u` waits for the condition variable; `t` locks the mutex and notifies it. -/
def notifyWaiting (t u : τ) : List (Action τ) :=
  [.tryLock u, .wait u, .go u, .go u, .go u, .go u, .go u, .tryLock t, .notifyOne t, .go u]

/-- Task 1 subscribes before task 0 unlocks, gets the mutex from it and unlocks it. -/
theorem not_stranded_notifyWaiting :
    ∃ s : Mutex (Fin 2),
      Reach Mutex.step Orderly new s ∧
        s.pc 1 = .idle ∧ s.counter = 0 ∧ s.waitQueue = [] := by
  have h : Reach Mutex.step Orderly new _ :=
    reach_of_execWhere (notifyWaiting (0 : Fin 2) 1 ++ [.go 1, .go 1, .go 1, .unlock 0, .go 0,
      .go 0, .go 0, .go 0, .go 0, .go 1, .unlock 1, .go 1, .go 1, .go 1]) rfl
  exact ⟨_, h, rfl, rfl, (not_stranded h rfl).1⟩

/-- **A notified task is stranded.** Task 0 unlocks between the failed `try_lock` of task 1 and its
subscription: then the mutex is free, nobody is in an operation, and task 1 is in `wait_queue`. -/
theorem stranded :
    ∃ s : Mutex (Fin 2), Reach Mutex.step (fun _ a => a.isSubscribe = false) new s ∧
      s.pc 1 = .parked .subscribe ∧ s.waitQueue = [1] ∧ s.counter = 0 ∧ s.pc 0 = .idle := by
  have h : Reach Mutex.step (fun _ a => a.isSubscribe = false) new _ :=
    reach_of_execWhere (notifyWaiting (0 : Fin 2) 1 ++ [.unlock 0, .go 0, .go 0, .go 0, .go 1,
      .go 1, .go 1]) rfl
  exact ⟨_, h, rfl, rfl, rfl, rfl⟩

end Orengine.Sync.Mutex
