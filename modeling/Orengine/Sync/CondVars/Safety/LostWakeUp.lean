import Orengine.Sync.Mutexes.Safety.Local
import Orengine.Sync.Mutexes.Safety.SmartShared

/-!
# When a condition variable loses a wake-up

`wait` is documented to unlock the mutex and to block the task in one step.  The code unlocks the
mutex in `wait` and registers the task when the returned future is polled for the first time, and a
notification in between is lost (`lost_wakeup`).

`registered_iff` says in which runs it cannot happen.  With a `CondVar` another thread can always
come in between; with a `LocalCondVar` only a task that the release itself runs can.
-/

namespace Orengine.Sync

open Lib Orengine.Runtime

/-! ### `CondVar` -/

namespace Mutex

variable {τ : Type*} [DecidableEq τ]

/-- Whether a task at this place has released the mutex in `wait` and has not been notified. -/
def Pc.released : Pc → Bool
  | .unlockReset .wait | .wait | .condPushing | .condParked => true
  | _ => false

/-- Whether it is not yet in the queue either. -/
def Pc.inGap : Pc → Bool
  | .unlockReset .wait | .wait | .condPushing => true
  | _ => false

/-- Every task that has released the mutex in `wait` and has not been notified is in the queue of
the condition variable. -/
def Registered (s : Mutex τ) : Prop := ∀ t, (s.pc t).released = true → t ∈ s.condQueue

/-- The step releases the mutex in `wait`. -/
def ReleasesInWait (s : Mutex τ) (a : Action τ) : Prop :=
  (∃ expected, s.pc a.task = .unlockCas expected .wait ∧ (s.counter : ℤ) = expected) ∨
    (s.pc a.task = .unlockPop .wait ∧ s.waitQueue ≠ [])

omit [DecidableEq τ] in
theorem registered_iff_inGap {s : Mutex τ} (hqueues : Queues s) :
    Registered s ↔ ∀ t, (s.pc t).inGap = false := by
  constructor
  · intro h t
    by_contra hgap
    -- A task in the gap has released the mutex, but is not where the tasks in the queue are.
    have hpc : (s.pc t).released = true ∧ s.pc t ≠ .condParked := by
      cases hk : s.pc t with
      | unlockReset who => cases who <;> simp_all [Pc.inGap, Pc.released]
      | _ => simp_all [Pc.inGap, Pc.released]
    exact hpc.2 ((hqueues.mem_cond t).mp (h t hpc.1))
  · intro h t ht
    refine (hqueues.mem_cond t).mpr ?_
    have hgap := h t
    cases hk : s.pc t with
    | unlockReset who => cases who <;> simp_all [Pc.inGap, Pc.released]
    | _ => simp_all [Pc.inGap, Pc.released]

omit [DecidableEq τ] in
theorem Moves.inGap {s : Mutex τ} {a : Action τ} {x y : Pc} (h : Moves s a x y)
    (hx : x.inGap = false) : y.inGap = false := by
  cases h with
  | spinFails step who _ => cases who <;> rfl
  | _ => first | rfl | cases hx

omit [DecidableEq τ] in
theorem not_releasesInWait_of_moves {s : Mutex τ} {a : Action τ} {y : Pc}
    (h : Moves s a (s.pc a.task) y) : ¬ReleasesInWait s a := by
  rintro (⟨expected, hpc, heq⟩ | ⟨hpc, -⟩) <;> rw [hpc] at h
  · cases h with
    | unlockFails _ _ hne => exact hne heq
  · cases h

/-- A step leaves nobody in the gap exactly if it does not release the mutex in `wait`. -/
theorem inGap_effect {s s' : Mutex τ} {a : Action τ} (h : ∀ t, (s.pc t).inGap = false)
    (heffect : Effect s a s') : (∀ t, (s'.pc t).inGap = false) ↔ ¬ReleasesInWait s a := by
  -- The step moves one task, `t`, to `k`.
  have hgoto {s₁ : Mutex τ} {t : τ} {k : Pc} (hpc : s₁.pc = s.pc) :
      (∀ u, ((s₁.goto t k).pc u).inGap = false) ↔ k.inGap = false := by
    constructor
    · intro hall
      simpa [goto] using hall t
    · intro hk
      exact forall_goto (·.inGap = false) hk (fun u _ => hpc ▸ h u)
  have hnot {x : Pc} (hpc : s.pc a.task = x) (hcas : ∀ e, x ≠ .unlockCas e .wait)
      (hpop : x ≠ .unlockPop .wait) : ¬ReleasesInWait s a := by
    rintro (⟨e, he, -⟩ | ⟨he, -⟩)
    · exact hcas e (hpc.symm.trans he)
    · exact hpop (hpc.symm.trans he)
  have ht := h a.task
  cases heffect with
  | stay hquiet =>
    refine iff_of_true h ?_
    rcases hquiet with hpc | ⟨who, hpc, hw⟩
    · exact hnot rfl (fun e he => by simp [he, Pc.notifies] at hpc)
        (fun he => by simp [he, Pc.notifies] at hpc)
    · rintro (⟨e, he, -⟩ | ⟨-, hne⟩)
      · simp [hpc] at he
      · exact hne hw
  | move hmove =>
    exact iff_of_true ((hgoto rfl).mpr (hmove.inGap ht)) (not_releasesInWait_of_moves hmove)
  | acquire _ _ hpc =>
    refine iff_of_true ((hgoto rfl).mpr rfl) ?_
    rcases hpc with hpc | hpc
    · exact hnot hpc (by simp) (by simp)
    · exact hnot rfl (fun e he => by simp [he, Pc.acquiring] at hpc)
        (fun he => by simp [he, Pc.acquiring] at hpc)
  | enter hpc | bump hpc | subscribe hpc =>
    exact iff_of_true ((hgoto rfl).mpr rfl) (hnot hpc (by simp) (by simp))
  | push hpc =>
    refine iff_of_true ((hgoto rfl).mpr rfl) ?_
    rcases hpc with hpc | hpc <;> exact hnot hpc (by simp) (by simp)
  | @release expected who hpc heq =>
    -- One of the two ways in which `wait` releases the mutex; the other is the hand-off.
    refine (hgoto rfl).trans ?_
    cases who with
    | drop => exact iff_of_true rfl (hnot hpc (by simp) (by simp))
    | wait => exact iff_of_false (by simp [Pc.inGap]) (not_not.mpr (Or.inl ⟨expected, hpc, heq⟩))
  | @reset who hpc =>
    cases who with
    | drop => exact iff_of_true ((hgoto rfl).mpr rfl) (hnot hpc (by simp) (by simp))
    -- A task that resets `expected_count` in `wait` is in the gap already.
    | wait =>
      rw [hpc] at ht
      cases ht
  | @handOff u rest who hpc hw =>
    cases who with
    | drop =>
      refine iff_of_true ?_ (hnot hpc (by simp) (by simp))
      exact forall_goto (·.inGap = false) rfl (fun v _ => (hgoto rfl).mpr rfl v)
    | wait =>
      -- `unlock` has returned, and the future of `wait` has not been polled yet.
      refine iff_of_false (fun hall => ?_) (not_not.mpr (Or.inr ⟨hpc, by simp [hw]⟩))
      have hself := hall a.task
      simp [goto, Unlocking.next, Pc.inGap] at hself
  | condPush hpc =>
    rw [hpc] at ht
    cases ht
  | notify hpc hc =>
    exact iff_of_true ((hgoto rfl).mpr rfl) (hnot rfl (fun e he => by simp [he, Pc.notifies] at hpc)
      (fun he => by simp [he, Pc.notifies] at hpc))

theorem registered_step {s s' : Mutex τ} {a : Action τ} (hreach : Reachable Mutex.step new s)
    (h : Registered s) (hstep : s.step a = some s') : Registered s' ↔ ¬ReleasesInWait s a := by
  have hqueues := queues_of_reach hreach
  have heffect := effect_of_step hstep
  rw [registered_iff_inGap (hqueues.effect heffect)]
  exact inGap_effect ((registered_iff_inGap hqueues).mp h) heffect

end Mutex

/-! ### `LocalCondVar` -/

namespace LocalMutex

variable {τ : Type*} [DecidableEq τ]

/-- Every task that has released the mutex in `wait` and is not running is in the queue of the
condition variable. -/
def Registered (e : Executor τ (World τ (LocalMutex τ)) Place) : Prop :=
  ∀ f ∈ e.stack.tail, f.2 = .sleep → f.1 ∈ e.state.memory.condQueue

/-- The move is a `wait` that hands the mutex on and runs the new owner nested. -/
def NestsInWait (e : Executor τ (World τ (LocalMutex τ)) Place) (m : Move τ (TaskOp τ Op)) :
    Prop :=
  m = .code (.op .wait) ∧ e.state.memory.waitQueue ≠ [] ∧ e.execSeries < 63

/-- A task with a poll in progress is not in the queue, so that a registered state has no task
inside `wait` but the running one. -/
theorem registered_iff_sleep {e : Executor τ (World τ (LocalMutex τ)) Place}
    (hreach : primitive.Reaches new e) :
    Registered e ↔ ∀ f ∈ e.stack.tail, f.2 ≠ .sleep := by
  refine ⟨fun h f hf hsleep => ?_, fun h f hf hsleep => absurd hsleep (h f hf)⟩
  have hmem := h f hf hsleep
  have hzero := custody.holds_eq_zero_of_mem_stack (fun _ => rfl) hreach (List.mem_of_mem_tail hf)
  have hcount := List.count_pos_iff.mpr hmem
  simp only [custody, Custody.ofMemory, holds] at hzero
  omega

/-- The operation runs a task while its own task is about to poll its future. -/
def RunsAsleep (r : LocalMutex τ × Outcome τ Place) : Prop := ∃ u, r.2 = .execTask u .sleep

theorem runsAsleep_unlock (m : LocalMutex τ) (t : τ) (k : Place) :
    RunsAsleep (m.unlock t k) ↔ k = .sleep ∧ m.waitQueue ≠ [] := by
  cases hqueue : m.waitQueue with
  | nil | cons => simp [RunsAsleep, unlock, hqueue]

omit [DecidableEq τ] in
theorem not_runsAsleep_notify (m : LocalMutex τ) {k : Place} (hk : k ≠ .sleep) :
    ¬RunsAsleep (m.notify k) := by
  cases hqueue : m.condQueue with
  | nil => simp [RunsAsleep, notify, hqueue]
  | cons v rest => simp [RunsAsleep, notify, hqueue, hk]

theorem not_runsAsleep_poll (m : LocalMutex τ) (t : τ) : ¬RunsAsleep (m.poll t) := by
  unfold poll
  split
  case h_3 => split <;> simp [RunsAsleep]
  all_goals simp [RunsAsleep]

theorem not_runsAsleep_lock (m : LocalMutex τ) (t : τ) : ¬RunsAsleep (m.lock t) := by
  unfold lock
  split <;> simp [RunsAsleep]

theorem not_runsAsleep_tryLock (m : LocalMutex τ) (t : τ) : ¬RunsAsleep (m.tryLock t) := by
  unfold tryLock
  split <;> simp [RunsAsleep]

/-- Only `wait` does so, and only if it hands the mutex on. -/
theorem runsAsleep_code {m : LocalMutex τ} {t : τ} {k : Place} {op : Op}
    {r : LocalMutex τ × Outcome τ Place} (h : m.code t k op = some r) :
    RunsAsleep r ↔ op = .wait ∧ m.waitQueue ≠ [] := by
  unfold code at h
  split at h
  · exact iff_of_false (Option.some.inj h ▸ not_runsAsleep_poll m t) (by simp)
  · exact iff_of_false (Option.some.inj h ▸ by simp [RunsAsleep, sleep]) (by simp)
  · exact iff_of_false (Option.some.inj h ▸ not_runsAsleep_notify m (by simp)) (by simp)
  · exact iff_of_false (Option.some.inj h ▸ not_runsAsleep_lock m t) (by simp)
  · exact iff_of_false (Option.some.inj h ▸ not_runsAsleep_tryLock m t) (by simp)
  · split at h
    · rw [← Option.some.inj h, runsAsleep_unlock]
      simp
    · cases h
  · exact iff_of_false (Option.some.inj h ▸ by simp [RunsAsleep]) (by simp)
  · split at h
    · rw [← Option.some.inj h, runsAsleep_unlock]
      simp
    · cases h
  · exact iff_of_false (Option.some.inj h ▸ not_runsAsleep_notify m (by simp)) (by simp)
  · exact iff_of_false (Option.some.inj h ▸ by simp [RunsAsleep]) (by simp)
  · cases h

omit [DecidableEq τ] in
/-- The polls that a piece of code interrupts are those further out, and its own if it executes a
task at once. -/
theorem tail_afterCode {σ : Type*} {P : Program τ σ Place (TaskOp τ Op)}
    (e : Executor τ σ Place) (t : τ) {rest : List (τ × Place)}
    (hrest : ∀ f ∈ rest, f.2 ≠ .sleep) (s : σ) (o : Outcome τ Place) :
    (∀ f ∈ (e.afterCode P t rest s o).stack.tail, f.2 ≠ .sleep) ↔
      ¬((∃ u, o = .execTask u .sleep) ∧ e.execSeries < 63) := by
  have htail : ∀ f ∈ rest.tail, f.2 ≠ .sleep := fun f hf => hrest f (List.mem_of_mem_tail hf)
  cases o with
  | goto | spawnLocalTask => exact iff_of_true hrest (by simp)
  | execTask u k =>
    by_cases hseries : e.execSeries < 63
    · simpa [Executor.afterCode, Executor.execTask, Executor.execTaskNow, hseries] using
        fun _ => fun u k hf => hrest (u, k) hf
    · refine iff_of_true ?_ (fun h => hseries h.2)
      simpa [Executor.afterCode, Executor.execTask, Executor.spawnLocalTask, hseries] using hrest
  | yieldNow | returned => exact iff_of_true htail (by simp)

theorem registered_step {e e' : Executor τ (World τ (LocalMutex τ)) Place}
    {mv : Move τ (TaskOp τ Op)} (hreach : primitive.Reaches new e) (h : Registered e)
    (hstep : e.step primitive.program mv = some e') : Registered e' ↔ ¬NestsInWait e mv := by
  rw [registered_iff_sleep (.next hreach trivial hstep)]
  rw [registered_iff_sleep hreach] at h
  -- Outside of all polls nothing is interrupted, and nobody is in `wait`.
  have hempty (hs : e.stack = []) : ¬NestsInWait e mv := by
    rintro ⟨rfl, -⟩
    simp [Executor.step, hs] at hstep
  have hexec (e : Executor τ (World τ (LocalMutex τ)) Place) (t : τ) (hs : e.stack = []) :
      ∀ f ∈ (e.execTask primitive.program t).stack.tail, f.2 ≠ .sleep := by
    unfold Executor.execTask
    split <;> simp [Executor.execTaskNow, Executor.spawnLocalTask, hs]
  rcases Executor.step_cases hstep with ⟨c, t, k, rest, s, o, rfl, hs, hcode, rfl⟩ |
    ⟨hs, t, tasks, htasks, rfl⟩ | ⟨hs, t, s, hb, rfl | rfl⟩ | ⟨hs, rfl⟩
  · rw [hs, List.tail_cons] at h
    rw [tail_afterCode e t h s o]
    refine not_congr ?_
    rcases Primitive.taskCode_cases hcode with ⟨choice, m, rfl, hop, -⟩ | ⟨hne, -, huser, hrest⟩
    · have hruns : (∃ u, o = .execTask u .sleep) ↔ _ := runsAsleep_code hop
      rw [hruns]
      simp [NestsInWait, and_assoc]
    · -- The task's own code goes on in the task's own code.
      refine iff_of_false ?_ (fun hnests => hne .wait (Move.code.inj hnests.1))
      rintro ⟨⟨u, rfl⟩, -⟩
      rcases hrest with ⟨v, -, -, hv | hv⟩ | ⟨-, hv | hv⟩ | ⟨-, hv⟩ <;> cases hv
      cases huser
  · exact iff_of_true (hexec _ t hs) (hempty hs)
  · exact iff_of_true (hexec _ t hs) (hempty hs)
  · exact iff_of_true (by simp [Executor.spawnLocalTask, hs]) (hempty hs)
  · exact iff_of_true (by simp [hs]) (hempty hs)

end LocalMutex

/-! ### Which runs lose no wake-up -/

variable {τ : Type*} [DecidableEq τ]

/-- `t` releases the mutex in `wait`, and `u` takes it. -/
def releaseInWait (t u : τ) : List (Mutex.Action τ) :=
  [.tryLock t, .wait t, .go t, .go t, .tryLock u]

/-- `t` has the mutex and yields, `u` is parked at it, and `t` waits: the release runs `u`, which
takes the mutex. -/
def nestInWait (t u : τ) : List (Move τ (TaskOp τ LocalMutex.Op)) :=
  [.wake t, .code (.op .go), .code (.op .lock), .code .yieldNow,
    .wake u, .code (.op .go), .code (.op .lock),
    .popBack, .code (.op .go), .code (.op .wait), .code (.op .go)]

end Orengine.Sync
