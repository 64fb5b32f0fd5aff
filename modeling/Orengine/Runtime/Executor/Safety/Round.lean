import Mathlib.Order.Bounds.Defs
import Orengine.Runtime.Executor.Polling
import Orengine.Runtime.Executor.Safety.Sleep

/-!
# How long an executor waits for its sleeping tasks

`check_sleeping_tasks` ends with the first task whose time has not come, and returns
`start_round_time - time_to_wake`, which is the wrong way round and so zero: an executor with a
sleeping task and nothing else to do does not wait at all (`spins`).  `exactTimeout_iff`: what is
returned is right exactly if no task is left asleep.
-/

namespace Orengine.Runtime

open Orengine.Lib

theorem duration_waitForWork_le (p : ProgressiveTimeout) (worker : Option Bool) (hasCpuWork : Bool)
    (nearest : ℕ) : (waitForWork p worker hasCpuWork (some nearest)).2.duration ≤ nearest := by
  cases hasCpuWork with
  | true =>
    match worker with
    | some true => exact Nat.zero_le _
    | some false => exact Nat.zero_le _
    | none => exact Nat.zero_le _
  | false =>
    match worker with
    | some true => exact min_le_left ..
    | some false => exact min_le_left ..
    | none => exact min_le_left ..

namespace Sleeping

variable {ε ι : Type*} [DecidableEq ε] [DecidableEq ι] {linux : Bool} {w w' : Sleeping ε ι}
  {a : Action ε ι} {e : ε}

/-- What `check_sleeping_tasks` has to return, and what the wait has to be. -/
structure ExactTimeout (x : Executor ι) : Prop where
  nearest : ∀ d, x.nearestTimeout = some d →
    IsLeast {k | ∃ i, (k, i) ∈ x.localSleepingTasks} (x.startRoundTime + d)
  none_iff : x.nearestTimeout = none ↔ x.localSleepingTasks.entries = []
  /-- No wait goes past the time of a sleeping task. -/
  notPast : ∀ p worker hasCpuWork, ∀ k i, (k, i) ∈ x.localSleepingTasks →
    x.startRoundTime + (waitForWork p worker hasCpuWork x.nearestTimeout).2.duration ≤ k
  /-- An executor that has only sleeping tasks, or io work, does wait. -/
  notSpinning : ∀ p worker, Reachable loopStep .new p → x.localSleepingTasks.entries ≠ [] →
    0 < (waitForWork p worker false x.nearestTimeout).2.duration

/-- A step with which `check_sleeping_tasks` returns. -/
def Returns (a : Action ε ι) (e : ε) (w' : Sleeping ε ι) : Prop :=
  (a = .check e ∨ a = .next e) ∧ (w'.executors e).isChecking = false

/-- **What `check_sleeping_tasks` returns**: `None` without a task, and zero if all tasks that are
left sleep on. -/
theorem returned_cases (h : step linux w a = some w') (hreturns : Returns a e w') :
    ((w'.executors e).nearestTimeout = none ∧ (w'.tasks e).entries = []) ∨
      ((w'.executors e).nearestTimeout = some 0 ∧ (w'.tasks e).entries ≠ [] ∧
        ∀ k i, (k, i) ∈ w'.tasks e → (w'.executors e).startRoundTime < k) := by
  unfold tasks
  obtain ⟨rfl | rfl, hdone⟩ := hreturns
  · rw [step] at h
    split at h
    · cases h
    · obtain rfl := Option.some.inj h
      rw [executors_set_self] at hdone ⊢
      unfold Executor.checkSleepingTasks at hdone ⊢
      split
      case isTrue hempty => exact .inl ⟨rfl, List.isEmpty_iff.mp hempty⟩
      case isFalse hne =>
        rw [if_neg hne] at hdone
        cases hdone
  · rw [step] at h
    split at h
    case isFalse => cases h
    case isTrue hchecking =>
      cases hpop : (w.executors e).localSleepingTasks.popFirst with
      | none =>
        simp only [Executor.wakeNext, hpop] at h
        obtain rfl := Option.some.inj h
        rw [executors_set_self]
        exact .inl ⟨rfl, SortedMap.popFirst_eq_none.mp hpop⟩
      | some first =>
        obtain ⟨⟨key, i⟩, rest⟩ := first
        by_cases hdue : key ≤ (w.executors e).startRoundTime
        · -- A task is woken, and the loop goes on.
          simp only [Executor.wakeNext, hpop, if_pos hdue] at h
          obtain rfl := Option.some.inj h
          have hself := executors_set_self w e { w.executors e with
            localSleepingTasks := rest
            log := (w.executors e).log ++ [.woke key i (w.executors e).startRoundTime] }
          have hover : (w.executors e).isChecking = false :=
            (congrArg Executor.isChecking hself).symm.trans hdone
          rw [hchecking] at hover
          cases hover
        · simp only [Executor.wakeNext, hpop, if_neg hdue] at h
          obtain rfl := Option.some.inj h
          rw [executors_set_self]
          have hmap : rest.insert key i = (w.executors e).localSleepingTasks :=
            SortedMap.insert_popFirst hpop
          have hzero : (w.executors e).startRoundTime - key = 0 := by omega
          refine .inr ⟨congrArg some hzero, ?_, fun k j hmem => ?_⟩
          · show (rest.insert key i).entries ≠ []
            rw [hmap, SortedMap.popFirst_eq_some.mp hpop]
            exact List.cons_ne_nil _ _
          · have hmem : (k, j) ∈ (w.executors e).localSleepingTasks := hmap ▸ hmem
            show (w.executors e).startRoundTime < k
            rcases (SortedMap.mem_popFirst hpop).mp hmem with heq | hrest
            · obtain ⟨rfl, rfl⟩ := Prod.mk.inj heq
              omega
            · have := SortedMap.lt_of_popFirst hpop hrest
              omega

/-- **How long an executor waits.** From any state, when `check_sleeping_tasks` returns, `None`
means that no task is asleep and no wait goes past the time of one; but the time is right, and the
wait too, exactly if no task is asleep. -/
theorem exactTimeout_iff (h : step linux w a = some w') (hreturns : Returns a e w') :
    ((w'.executors e).nearestTimeout = none ↔ (w'.tasks e).entries = []) ∧
      (∀ p worker hasCpuWork, ∀ k i, (k, i) ∈ w'.tasks e → (w'.executors e).startRoundTime +
        (waitForWork p worker hasCpuWork (w'.executors e).nearestTimeout).2.duration ≤ k) ∧
      (ExactTimeout (w'.executors e) ↔ (w'.tasks e).entries = []) := by
  rcases returned_cases h hreturns with ⟨hnone, hempty⟩ | ⟨hzero, hne, hlt⟩
  · have hnot (k : ℕ) (i : ι) : (k, i) ∉ w'.tasks e := by
      rw [SortedMap.mem_def, hempty]
      exact List.not_mem_nil
    refine ⟨⟨fun _ => hempty, fun _ => hnone⟩, ?_, fun _ => hempty, fun _ => ⟨?_, ?_, ?_, ?_⟩⟩
    · exact fun _ _ _ k i hmem => absurd hmem (hnot k i)
    · intro d hd
      rw [hnone] at hd
      cases hd
    · exact ⟨fun _ => hempty, fun _ => hnone⟩
    · exact fun _ _ _ k i hmem => absurd hmem (hnot k i)
    · exact fun _ _ _ hne => absurd hempty hne
  · refine ⟨⟨fun hnone => ?_, fun hempty => absurd hempty hne⟩, ?_, fun hexact => ?_,
      fun hempty => absurd hempty hne⟩
    · rw [hzero] at hnone
      cases hnone
    · intro p worker hasCpuWork k i hmem
      have hle := duration_waitForWork_le p worker hasCpuWork 0
      have := hlt k i hmem
      rw [hzero]
      omega
    · -- The first sleeping task is later than the start of the round.
      obtain ⟨⟨i, hmem⟩, -⟩ := hexact.nearest 0 hzero
      exact absurd (hlt _ i hmem) (Nat.lt_irrefl _)

/-- The only task was woken, and `None` is returned. -/
theorem exactTimeout_iff_woken :
    ∃ w w' : Sleeping Unit ℕ, Reachable (step true) (init 0) w ∧
      step true w (.next ()) = some w' ∧ Returns (.next ()) () w' ∧
      (w'.executors ()).nearestTimeout = none ∧ ExactTimeout (w'.executors ()) := by
  have hreach : Reachable (step true) (init 0 : Sleeping Unit ℕ) _ :=
    reachable_of_exec [.sleep () 7 5, .poll () 7, .tick 200000, .check (), .next ()] rfl
  obtain ⟨w, w', hw, hstep, hreturns, hnone, hempty⟩ :
      ∃ w w' : Sleeping Unit ℕ, Reachable (step true) (init 0) w ∧
        step true w (.next ()) = some w' ∧ Returns (.next ()) () w' ∧
        (w'.executors ()).nearestTimeout = none ∧ (w'.tasks ()).entries = [] :=
    ⟨_, _, hreach, rfl, ⟨.inr rfl, rfl⟩, rfl, rfl⟩
  exact ⟨w, w', hw, hstep, hreturns, hnone, (exactTimeout_iff hstep hreturns).2.2.mpr hempty⟩

/-- **The executor spins.** A task sleeps for a second.  `check_sleeping_tasks` returns zero, though
the task has to be woken in a second, and the executor does not wait. -/
theorem spins :
    ∃ w : Sleeping Unit ℕ, Reachable (step true) (init 0) w ∧
      (w.executors ()).startRoundTime = 0 ∧ (w.tasks ()).entries = [(1000100000, 7)] ∧
      (w.executors ()).nearestTimeout = some 0 ∧
      waitForWork .new (some false) false (w.executors ()).nearestTimeout =
        (Utils.ProgressiveTimeout.new.double, .sleepAtMost 0) := by
  have hreach : Reachable (step true) (init 0 : Sleeping Unit ℕ) _ :=
    reachable_of_exec [.sleep () 7 1000000000, .poll () 7, .check (), .next ()] rfl
  exact ⟨_, hreach, rfl, rfl, rfl, rfl⟩

end Sleeping

end Orengine.Runtime
