import Orengine.Sync.CondVars.Safety.Shared

/-!
# The subtraction of `low_level_subscribe`

A notified task that finds its `Mutex` locked takes 1 from `expected_count`, and only an `unlock`
adds to it again.  It starts at 1, so that two tasks which are notified while a third one holds the
mutex are enough to bring it below 0 (`subscribe_underflows`).

If only one task ever waits for the condition variable, it unlocks the mutex between two
subtractions, which leaves `expected_count` at 1 or more, where nobody else takes from it (`Sole`).
If the accounts are kept, `expected_count` is what `counter` counts beyond the waiters.
`subscribe_covered` puts the two together.
-/

namespace Orengine.Sync.Mutex

open Lib

variable {τ : Type*} [DecidableEq τ]

/-! ### One waiting task -/

/-- The task that starts to wait for the condition variable. -/
def Action.waiter : Action τ → Option τ
  | .wait t => some t
  | _ => none

/-- Whether this place is in `CondVar::wait` or in the future that it returns. -/
def Pc.ofWait : Pc → Bool
  | .unlockLoad .wait | .unlockCas _ .wait | .unlockReset .wait | .unlockBump .wait
  | .unlockStore _ .wait | .unlockPop .wait | .wait | .condPushing | .condParked | .notified
  | .subscribeLoad | .subscribeStore _ | .subscribePush => true
  | _ => false

/-- Whether a task at this place may have taken 1 from `expected_count` since its last `unlock`. -/
def Pc.indebted : Pc → Bool
  | .subscribePush | .parked _ | .popped | .guard | .notifyAll true | .unlockLoad _
  | .unlockCas _ _ | .unlockReset _ | .unlockBump _ | .unlockStore _ _ => true
  | _ => false

/-- The value of `expected_count` which a task at this place has read is one that it can write
back changed. -/
def Pc.Covered : Pc → Prop
  | .unlockStore read _ => 0 ≤ read
  | .subscribeStore read => 1 ≤ read
  | _ => True

/-- `w` is the only task that waits for the condition variable, and `expected_count` is at least 1
unless `w` has taken from it since its last `unlock`. -/
structure Sole (w : τ) (expectedCount : ℤ) (pc : τ → Pc) : Prop where
  others : ∀ u, u ≠ w → (pc u).ofWait = false
  covered : ∀ u, (pc u).Covered
  nonneg : 0 ≤ expectedCount
  pos : (pc w).indebted = false → 1 ≤ expectedCount

theorem Unlocking.covered_next (who : Unlocking) : who.next.Covered := by
  cases who <;> trivial

namespace Sole

variable {w t : τ} {e e' : ℤ} {pc : τ → Pc} {k : Pc}

omit [DecidableEq τ] in
theorem eq_of_ofWait (h : Sole w e pc) {u : τ} (hu : (pc u).ofWait = true) : u = w := by
  by_contra hne
  rw [h.others u hne] at hu
  cases hu

theorem update (h : Sole w e pc) (hplace : k.ofWait = true → t = w) (hcovered : k.Covered)
    (hnonneg : 0 ≤ e') (hpos : t = w → k.indebted = false → 1 ≤ e')
    (hkept : t ≠ w → 1 ≤ e → 1 ≤ e') : Sole w e' (Function.update pc t k) := by
  constructor
  · intro u hu
    by_cases hut : u = t
    · rw [hut, Function.update_self]
      by_contra hk
      exact hu (hut.trans (hplace (by simpa using hk)))
    · rw [Function.update_of_ne hut]
      exact h.others u hu
  · exact (Function.forall_update_iff pc (p := fun _ x => x.Covered)).mpr
      ⟨hcovered, fun u _ => h.covered u⟩
  · exact hnonneg
  · intro hw
    by_cases htw : w = t
    · rw [htw, Function.update_self] at hw
      exact hpos htw.symm hw
    · rw [Function.update_of_ne htw] at hw
      exact hkept (Ne.symm htw) (h.pos hw)

theorem goto (h : Sole w e pc) (hplace : k.ofWait = true → t = w) (hcovered : k.Covered)
    (hindebted : k.indebted = false → (pc t).indebted = false) :
    Sole w e (Function.update pc t k) := by
  refine h.update hplace hcovered h.nonneg ?_ (fun _ => id)
  rintro rfl hk
  exact h.pos (hindebted hk)

theorem move {s : Mutex τ} {a : Action τ} (h : Sole w s.expectedCount s.pc)
    (ha : a.isSubscribe = false) (hw : ∀ u ∈ a.waiter, u = w)
    (hmove : Moves s a (s.pc a.task) k) :
    Sole w s.expectedCount (Function.update s.pc a.task k) := by
  have hsole : (s.pc a.task).ofWait = true → a.task = w := h.eq_of_ofWait
  generalize hx : s.pc a.task = x at hmove hsole
  have hgoto {y : Pc} (hplace : y.ofWait = true → a.task = w) (hcovered : y.Covered)
      (hindebted : y.indebted = false → x.indebted = false) :
      Sole w s.expectedCount (Function.update s.pc a.task y) :=
    h.goto hplace hcovered (hx ▸ hindebted)
  cases hmove with
  | spinFails step who _ =>
    cases who <;> exact hgoto (by simp [Pc.ofWait, Spinning.failed]) trivial (fun _ => rfl)
  | startWait t heq =>
    refine hgoto (fun _ => ?_) trivial (by simp [Pc.indebted])
    rw [heq] at hw ⊢
    exact hw t rfl
  | startSubscribe t heq => simp [heq, Action.isSubscribe] at ha
  | unlockLoad who | unlockFails _ who =>
    cases who <;> exact hgoto hsole trivial (by simp [Pc.indebted])
  | unlockBump who => cases who <;> exact hgoto hsole h.nonneg (by simp [Pc.indebted])
  | pollWait | notifiedFails => exact hgoto hsole trivial (fun _ => rfl)
  | subscribeLoad =>
    -- Only `w` subscribes, and it has not taken from `expected_count` yet.
    have htw := hsole rfl
    refine hgoto hsole (h.pos ?_) (fun _ => rfl)
    rw [← htw, hx]
    rfl
  | _ => exact hgoto (by simp [Pc.ofWait]) trivial (by simp [Pc.indebted])

/-- **Every step keeps `w` the only task that waits**, if no other starts to. -/
theorem effect {s s' : Mutex τ} {a : Action τ} (hqueues : Queues s)
    (h : Sole w s.expectedCount s.pc) (ha : a.isSubscribe = false) (hw : ∀ u ∈ a.waiter, u = w)
    (heffect : Effect s a s') : Sole w s'.expectedCount s'.pc := by
  -- After `unlock` a task is at a place of the waiting future only if it was in `wait` before.
  have hnext {who : Unlocking} {x : Pc} (hpc : s.pc a.task = x)
      (hx : who.next.ofWait = x.ofWait) : who.next.ofWait = true → a.task = w := fun hk =>
    h.eq_of_ofWait (by rw [hpc, ← hx, hk])
  cases heffect with
  | stay _ => exact h
  | move hmove => exact h.move ha hw hmove
  | acquire | push => exact h.goto (by simp [Pc.ofWait]) trivial (by simp [Pc.indebted])
  | enter hpc _ => exact h.goto (by simp [Pc.ofWait]) trivial (fun _ => by rw [hpc]; rfl)
  | @release expected who hpc _ =>
    refine h.goto (fun hk => h.eq_of_ofWait ?_) trivial (by simp [Pc.indebted])
    rw [hpc]
    cases who <;> exact hk
  | @reset who hpc =>
    refine h.update (hnext hpc (by cases who <;> rfl)) who.covered_next Int.one_nonneg ?_ ?_
    · exact fun _ _ => le_rfl
    · exact fun _ _ => le_rfl
  | @bump read who hpc =>
    -- What was read is not negative, so that 1 or more is written.
    have hread : 0 ≤ read := by
      have hcovered := h.covered a.task
      rwa [hpc] at hcovered
    have hplace : (Pc.unlockPop who).ofWait = true → a.task = w := fun hk =>
      h.eq_of_ofWait (by rw [hpc]; cases who <;> exact hk)
    show Sole w (read + 1) (Function.update s.pc a.task (.unlockPop who))
    exact h.update hplace trivial (by omega) (by omega) (by omega)
  | @handOff u rest who hpc hqueue =>
    -- The waiter that is popped may be `w`, which has still to unlock.
    obtain ⟨why, hparked⟩ := hqueues.parked_of_front hqueue
    have htu := hqueues.ne_of_front (t := a.task) ⟨by simp [hpc], by simp [hpc]⟩ hqueue
    have hpopped : Sole w s.expectedCount (Function.update s.pc u .popped) :=
      h.goto (by simp [Pc.ofWait]) trivial (by simp [Pc.indebted])
    refine hpopped.goto (hnext hpc (by cases who <;> rfl)) who.covered_next (fun _ => ?_)
    rw [Function.update_of_ne htu, hpc]
    rfl
  | condPush hpc =>
    refine h.goto (fun _ => h.eq_of_ofWait (by rw [hpc]; rfl)) trivial (fun _ => ?_)
    rw [hpc]
    rfl
  | @notify u rest _ hcond =>
    have hpc := hqueues.condParked_of_front hcond
    refine h.goto (fun _ => h.eq_of_ofWait (by rw [hpc]; rfl)) trivial (fun _ => ?_)
    rw [hpc]
    rfl
  | @subscribe read hpc =>
    have hread : 1 ≤ read := by
      have hcovered := h.covered a.task
      rwa [hpc] at hcovered
    have htw : a.task = w := h.eq_of_ofWait (by rw [hpc]; rfl)
    show Sole w (read - 1) (Function.update s.pc a.task .subscribePush)
    exact h.update (fun _ => htw) trivial (by omega) (by simp [Pc.indebted])
      (fun hne => absurd htw hne)

end Sole

omit [DecidableEq τ] in
theorem sole_new (w : τ) : Sole w (new : Mutex τ).expectedCount new.pc :=
  ⟨fun _ _ => rfl, fun _ => trivial, Int.one_nonneg, fun _ => le_rfl⟩

theorem sole_of_reach {w : τ} {s : Mutex τ}
    (h : Reach Mutex.step (fun s a => a.isSubscribe = false ∧ (∀ u ∈ a.waiter, u = w) ∧ s.Fits)
      new s) :
    Sole w s.expectedCount s.pc := by
  refine Reach.invariant (I := fun s : Mutex τ => Sole w s.expectedCount s.pc) (sole_new w) ?_ h
  rintro s a s' hreach hsole ⟨ha, hw, -⟩ hstep
  exact hsole.effect (queues_of_reach hreach) ha hw (effect_of_step hstep)

/-! ### Waiters that are accounted for -/

omit [DecidableEq τ] in
/-- With the accounts in order, `expected_count` is at least 1 exactly if there are fewer waiters
than `counter` counts, those included that are about to be popped. -/
theorem Accounts.one_le_iff [Fintype τ] {s : Mutex τ} (h : Accounts s) (hbusy : s.counter ≠ 0) :
    1 ≤ s.expectedCount ↔ waiters s < s.counter + tally Pc.promised s.pc := by
  have howned := h.owned hbusy
  omega

/-- **The subtraction of `low_level_subscribe` does not underflow** if only one task waits for the
condition variable, whatever the interleaving, or if the accounts are kept and there are fewer
waiters than `counter` counts. -/
theorem subscribe_covered [Fintype τ] {s : Mutex τ} {t : τ} {read : ℤ}
    (hpc : s.pc t = .subscribeStore read)
    (h : (∃ w, Reach Mutex.step
        (fun s a => a.isSubscribe = false ∧ (∀ u ∈ a.waiter, u = w) ∧ s.Fits) new s) ∨
      (Reach Mutex.step Orderly new s ∧
        InStep s (.go t) ∧ waiters s < s.counter + tally Pc.promised s.pc)) : 1 ≤ read := by
  rcases h with ⟨w, hreach⟩ | ⟨hreach, hinStep, hfewer⟩
  · have hcovered := (sole_of_reach hreach).covered t
    rwa [hpc] at hcovered
  · obtain ⟨haccounts, hsubscribing⟩ := accounts_of_reach hreach
    have hbusy : s.counter ≠ 0 := hsubscribing t (by rw [hpc]; rfl)
    have hcurrent : read = s.expectedCount :=
      hinStep.1 read (by show read ∈ (s.pc t).stored; rw [hpc]; rfl)
    rw [hcurrent]
    exact (haccounts.one_le_iff hbusy).mpr hfewer

/-- Task 1, the only one that waits, is notified by task 0 and has read 1. -/
theorem subscribe_covered_notifyWaiting :
    ∃ s : Mutex (Fin 2),
      Reach Mutex.step (fun s a => a.isSubscribe = false ∧ (∀ u ∈ a.waiter, u = 1) ∧ s.Fits) new s ∧
        s.pc 1 = .subscribeStore 1 ∧ (1 : ℤ) ≤ 1 := by
  have h : Reach Mutex.step (fun s a => a.isSubscribe = false ∧ (∀ u ∈ a.waiter, u = 1) ∧ s.Fits)
      (new : Mutex (Fin 2)) _ :=
    reach_of_execWhere (notifyWaiting 0 1 ++ [.go 1]) rfl
  exact ⟨_, h, rfl, subscribe_covered (t := 1) rfl (Or.inl ⟨1, h⟩)⟩

/-- Tasks 1 and 2 wait for the condition variable, and task 0 notifies both while it holds the
mutex.  Task 1 subscribes, and task 2 is about to. -/
def notifyBoth : List (Action (Fin 3)) :=
  [.tryLock 1, .wait 1, .go 1, .go 1, .go 1, .go 1, .go 1, .tryLock 2, .wait 2, .go 2, .go 2,
    .go 2, .go 2, .go 2, .tryLock 0, .notifyOne 0, .notifyOne 0, .go 1, .go 1, .go 1, .go 1, .go 2,
    .go 2]

/-- **`low_level_subscribe` underflows.** Task 1 has left `expected_count` at 0 while task 0 holds
the mutex, and this is the value from which task 2 is about to subtract 1. -/
theorem subscribe_underflows :
    ∃ s : Mutex (Fin 3), Reach Mutex.step (fun _ a => a.isSubscribe = false) new s ∧
      s.pc 2 = .subscribeStore 0 ∧ s.pc 1 = .parked .subscribe ∧ s.pc 0 = .guard := by
  have h : Reach Mutex.step (fun _ a => a.isSubscribe = false) new _ :=
    reach_of_execWhere notifyBoth rfl
  exact ⟨_, h, rfl, rfl, rfl⟩

end Orengine.Sync.Mutex
