import Orengine.Sync.Mutexes.Safety.SmartShared
import Mathlib.Data.Fintype.Pi

/-!
# Waiter accounting of `Mutex`

While the mutex is owned, `counter - expected_count` is meant to be the number of waiters, that is
of the tasks in `wait_queue` or on their way into it; `unlock` trusts this number to decide whether
it releases the counter or hands the mutex on.

`unlock` releases the counter first and resets `expected_count` afterwards, and a new owner may run
in between (`lost_reset`).  `accounting` shows that nothing else can break it.  `accounts_effect` is
the step lemma; it allows for the subscribers of a condition variable, under the further condition
that no write of `expected_count` is lost.
-/

namespace Orengine.Sync.Mutex

open Lib

variable {τ : Type*} [DecidableEq τ]

/-! ### Waiters -/

/-- Whether a task at this place is on its way into `wait_queue`. -/
def Pc.entering : Pc → ℕ
  | .pushing | .subscribePush => 1
  | _ => 0

/-- Whether a task at this place has counted off the waiter that it is about to pop. -/
def Pc.promised : Pc → ℕ
  | .unlockPop _ => 1
  | _ => 0

/-- Whether a task at this place has found the mutex locked and is about to decrease
`expected_count`. -/
def Pc.subscribing : Pc → Bool
  | .subscribeLoad | .subscribeStore _ => true
  | _ => false

/-- The value from which a task at this place is about to exchange `counter` to 0. -/
def Pc.casFrom : Pc → Option ℤ
  | .unlockCas expected _ => some expected
  | _ => none

/-- The value of `expected_count` which a task at this place has read to write it back changed. -/
def Pc.stored : Pc → Option ℤ
  | .unlockStore read _ => some read
  | .subscribeStore read => some read
  | _ => none

/-- Whether a task at this place is about to reset `expected_count`. -/
def Pc.resetting : Pc → Bool
  | .unlockReset _ => true
  | _ => false

theorem Pc.promised_le_owns (k : Pc) : k.promised ≤ k.owns := by
  unfold Pc.promised
  split
  · rfl
  · exact Nat.zero_le _

variable {s s' : Mutex τ} {a : Action τ} {k x y : Pc}

omit [DecidableEq τ] in
theorem Moves.entering_eq (h : Moves s a x y) : x.entering = 0 ∧ y.entering = 0 := by
  cases h with
  | spinFails step who _ => cases who <;> exact ⟨rfl, rfl⟩
  | _ => exact ⟨rfl, rfl⟩

omit [DecidableEq τ] in
theorem Moves.promised_eq (h : Moves s a x y) : x.promised = 0 ∧ y.promised = 0 := by
  cases h with
  | spinFails step who _ => cases who <;> exact ⟨rfl, rfl⟩
  | _ => exact ⟨rfl, rfl⟩

theorem Pc.entering_of_acquiring (h : k.acquiring = true) : k.entering = 0 := by
  unfold Pc.entering
  split
  · cases h
  · cases h
  · rfl

theorem Unlocking.entering_next (who : Unlocking) : who.next.entering = 0 := by
  cases who <;> rfl

theorem Unlocking.promised_next (who : Unlocking) : who.next.promised = 0 := by
  cases who <;> rfl

theorem Unlocking.subscribing_next (who : Unlocking) : who.next.subscribing = false := by
  cases who <;> rfl

variable [Fintype τ]

/-- The tasks in `wait_queue` or on their way into it. -/
def waiters (s : Mutex τ) : ℕ := s.waitQueue.length + tally Pc.entering s.pc

/-! ### The accounts -/

/-- The accounts of the mutex: a free mutex has no waiters, and the counter of an owned one is
`expected_count` and the waiters that have not been counted off. -/
structure Accounts (s : Mutex τ) : Prop where
  free : s.counter = 0 → waiters s = 0
  owned : s.counter ≠ 0 → (s.counter : ℤ) + tally Pc.promised s.pc = s.expectedCount + waiters s

/-- The step does not see, or undo, a reset of `expected_count` that comes late: it acquires the
free mutex only if `expected_count` is reset, and it resets it only if the mutex is free or there
is nothing to change. -/
def Settled (s : Mutex τ) (a : Action τ) : Prop :=
  (s.acquires a = true → s.expectedCount = 1) ∧
    ((s.pc a.task).resetting = true → s.counter = 0 ∨ s.expectedCount = 1)

/-- The step neither loses a write of `expected_count`, nor releases the mutex by an outdated
value of it or past a task that is about to subscribe. -/
def InStep (s : Mutex τ) (a : Action τ) : Prop :=
  (∀ read ∈ (s.pc a.task).stored, read = s.expectedCount) ∧
    ∀ expected ∈ (s.pc a.task).casFrom, (s.counter : ℤ) = expected →
      expected = s.expectedCount ∧ ∀ u, (s.pc u).subscribing = false

instance (s : Mutex τ) (a : Action τ) : Decidable (Settled s a) :=
  inferInstanceAs (Decidable (_ ∧ _))

instance (s : Mutex τ) (a : Action τ) : Decidable (InStep s a) :=
  inferInstanceAs (Decidable (_ ∧ _))

theorem waiters_goto (s : Mutex τ) (t : τ) (k : Pc) :
    waiters (s.goto t k) + (s.pc t).entering = waiters s + k.entering := by
  have htally := tally_update Pc.entering s.pc t k
  simp only [waiters, goto]
  omega

theorem Accounts.goto (h : Accounts s) {t : τ} (hpc : s.pc t = x) (k : Pc)
    (hentering : x.entering = k.entering) (hpromised : x.promised = k.promised) :
    Accounts (s.goto t k) := by
  have hwaiters : waiters (s.goto t k) = waiters s :=
    congrArg (s.waitQueue.length + ·) (tally_goto Pc.entering hpc k hentering)
  constructor
  · intro hfree
    exact hwaiters.trans (h.free hfree)
  · intro howned
    rw [hwaiters, tally_goto Pc.promised hpc k hpromised]
    exact h.owned howned

/-- While one task owns the mutex and has promised nothing, nobody has. -/
theorem promised_eq_zero (howners : tally Pc.owns s.pc = min s.counter 1) {t : τ}
    (ht : (s.pc t).owns = 1) (hp : (s.pc t).promised = 0) : tally Pc.promised s.pc = 0 := by
  by_contra hne
  obtain ⟨u, hu⟩ := exists_of_tally_pos (Nat.pos_of_ne_zero hne)
  have hle := (s.pc u).promised_le_owns
  have hut : u = t := eq_of_tally_le_one (f := Pc.owns) (g := s.pc) (by omega) (by omega) (by omega)
  rw [hut] at hu
  omega

/-- **A step keeps the accounts** if it is settled and in step, and if nobody subscribes to a free
mutex. -/
theorem accounts_effect (hqueues : Queues s) (howners : tally Pc.owns s.pc = min s.counter 1)
    (h : Accounts s) (hsettled : Settled s a) (hinStep : InStep s a)
    (hsubscribe : (s.pc a.task).subscribing = true → s.counter ≠ 0) (heffect : Effect s a s') :
    Accounts s' := by
  have hfree := h.free
  have howned := h.owned
  have hle := tally_mono Pc.promised_le_owns s.pc
  unfold waiters at hfree howned
  cases heffect with
  | stay _ => exact h
  | @move b hmove =>
    obtain ⟨he, he'⟩ := hmove.entering_eq
    obtain ⟨hp, hp'⟩ := hmove.promised_eq
    exact h.goto rfl b (he.trans he'.symm) (hp.trans hp'.symm)
  | acquire hacquires hcounter hpc =>
    -- The free mutex has no waiters and no owner, and `expected_count` is reset.
    have hreset := hsettled.1 hacquires
    have he := tally_update Pc.entering s.pc a.task .guard
    have hp := tally_update Pc.promised s.pc a.task .guard
    have hguard : Pc.guard.entering = 0 ∧ Pc.guard.promised = 0 := ⟨rfl, rfl⟩
    constructor <;> simp only [waiters, goto] <;> omega
  -- The new waiter is counted by the `fetch_add` that made it one.
  | enter hpc hbusy =>
    have he := tally_update Pc.entering s.pc a.task .pushing
    have hp := tally_update Pc.promised s.pc a.task .pushing
    simp only [hpc, Pc.entering, Pc.promised] at he hp
    constructor <;> simp only [waiters, goto] <;> omega
  | @push why hpc =>
    have he := tally_update Pc.entering s.pc a.task (.parked why)
    have hp := tally_update Pc.promised s.pc a.task (.parked why)
    have hk : (s.pc a.task).entering = 1 ∧ (s.pc a.task).promised = 0 := by
      rcases hpc with hpc | hpc <;> rw [hpc] <;> exact ⟨rfl, rfl⟩
    rw [hk.1] at he
    rw [hk.2] at hp
    simp only [Pc.entering, Pc.promised] at he hp
    constructor <;> simp only [waiters, Mutex.push, goto, List.length_cons] <;> omega
  | @release expected who hpc heq =>
    -- The exchange succeeds with the current `expected_count`, so that nobody waits.
    have hcurrent := (hinStep.2 expected (by rw [hpc]; rfl) heq).1
    have hzero := promised_eq_zero howners (t := a.task) (by rw [hpc]; rfl) (by rw [hpc]; rfl)
    have hone := le_tally Pc.owns s.pc a.task
    have he := tally_update Pc.entering s.pc a.task (.unlockReset who)
    have hp := tally_update Pc.promised s.pc a.task (.unlockReset who)
    simp only [hpc, Pc.entering, Pc.promised, Pc.owns] at he hp hone
    constructor <;> simp only [waiters, goto] <;> omega
  | @reset who hpc =>
    have hreset : Accounts { s with expectedCount := 1 } := by
      refine ⟨h.free, fun hbusy => ?_⟩
      rcases hsettled.2 (by rw [hpc]; rfl) with hzero | hone
      · exact absurd hzero hbusy
      · have howned := h.owned hbusy
        rwa [hone] at howned
    exact hreset.goto hpc who.next who.entering_next.symm who.promised_next.symm
  | @bump read who hpc =>
    -- The owner counts off one waiter, which nobody has done before it.
    have hcurrent := hinStep.1 read (by rw [hpc]; rfl)
    have hzero := promised_eq_zero howners (t := a.task) (by rw [hpc]; rfl) (by rw [hpc]; rfl)
    have he := tally_update Pc.entering s.pc a.task (.unlockPop who)
    have hp := tally_update Pc.promised s.pc a.task (.unlockPop who)
    simp only [hpc, Pc.entering, Pc.promised] at he hp
    constructor <;> simp only [waiters, goto] <;> omega
  | @handOff u rest who hpc hw =>
    -- The waiter that was counted off leaves the queue.
    obtain ⟨why, hparked⟩ := hqueues.parked_of_front hw
    have htu := hqueues.ne_of_front (t := a.task) ⟨by simp [hpc], by simp [hpc]⟩ hw
    have he₁ := tally_update Pc.entering s.pc u .popped
    have hp₁ := tally_update Pc.promised s.pc u .popped
    have he₂ := tally_update Pc.entering (Function.update s.pc u .popped) a.task who.next
    have hp₂ := tally_update Pc.promised (Function.update s.pc u .popped) a.task who.next
    rw [Function.update_of_ne htu, hpc, who.entering_next] at he₂
    rw [Function.update_of_ne htu, hpc, who.promised_next] at hp₂
    rw [hparked] at he₁ hp₁
    simp only [Pc.entering, Pc.promised, hw, List.length_cons] at he₁ hp₁ he₂ hp₂ hfree howned
    constructor <;> simp only [waiters, goto] <;> omega
  | condPush hpc =>
    have hpush : Accounts { s with condQueue := a.task :: s.condQueue } := ⟨h.free, h.owned⟩
    exact hpush.goto hpc .condParked rfl rfl
  | @notify u rest _ hc =>
    have hpop : Accounts { s with condQueue := rest } := ⟨h.free, h.owned⟩
    exact hpop.goto (hqueues.condParked_of_front hc) .notified rfl rfl
  | @subscribe read hpc =>
    -- The subscriber is a waiter that `counter` does not count; `expected_count` makes up for it.
    have hcurrent := hinStep.1 read (by rw [hpc]; rfl)
    have hbusy := hsubscribe (by rw [hpc]; rfl)
    have he := tally_update Pc.entering s.pc a.task .subscribePush
    have hp := tally_update Pc.promised s.pc a.task .subscribePush
    simp only [hpc, Pc.entering, Pc.promised] at he hp
    constructor <;> simp only [waiters, goto] <;> omega

/-! ### Without a condition variable -/

/-- The steps of `lock`, `try_lock_with_spinning`, `try_lock` and `unlock`. -/
def Action.mutexOnly : Action τ → Bool
  | .lock _ | .tryLockWithSpinning _ | .tryLock _ | .unlock _ | .go _ => true
  | _ => false

/-- Whether this place is one of `lock`, `try_lock` and `unlock`, or outside of all operations. -/
def Pc.mutexOnly : Pc → Bool
  | .idle | .guard | .spin _ _ | .fetchAdd | .pushing | .parked _ | .popped
  | .unlockLoad .drop | .unlockCas _ .drop | .unlockReset .drop | .unlockBump .drop
  | .unlockStore _ .drop | .unlockPop .drop => true
  | _ => false

/-- Whether a task at this place is on the slow path of `unlock`. -/
def Pc.slow : Pc → Bool
  | .unlockBump _ | .unlockStore _ _ | .unlockPop _ => true
  | _ => false

omit [DecidableEq τ] [Fintype τ] in
theorem Moves.mutexOnly (h : Moves s a x y) (ha : a.mutexOnly = true) (hx : x.mutexOnly = true) :
    y.mutexOnly = true := by
  cases h with
  | spinFails step who _ => cases who <;> rfl
  | startWait _ heq | startSubscribe _ heq | startNotifyAll _ heq | startNotifyAllHolding _ heq =>
    simp [heq, Action.mutexOnly] at ha
  | unlockLoad who | unlockFails _ who | unlockBump who => cases who <;> first | rfl | cases hx
  | _ => first | rfl | cases hx

omit [Fintype τ] in
/-- Without a condition variable no task gets to a place of one. -/
theorem mutexOnly_effect (hqueues : Queues s) (ha : a.mutexOnly = true)
    (h : ∀ t, (s.pc t).mutexOnly = true) (heffect : Effect s a s') :
    ∀ u, (s'.pc u).mutexOnly = true := by
  have hgoto {s₁ : Mutex τ} (hpc : s₁.pc = s.pc) {t : τ} {k : Pc} (hk : k.mutexOnly = true) :
      ∀ u, ((s₁.goto t k).pc u).mutexOnly = true :=
    forall_goto (·.mutexOnly = true) hk (fun u _ => hpc ▸ h u)
  have ht := h a.task
  cases heffect with
  | stay _ => exact h
  | move hmove => exact hgoto rfl (hmove.mutexOnly ha ht)
  | acquire | enter | push => exact hgoto rfl rfl
  | @release _ who hpc | @reset who hpc | @bump _ who hpc =>
    rw [hpc] at ht
    cases who <;> first | exact hgoto rfl rfl | cases ht
  | @handOff v rest who hpc hw =>
    rw [hpc] at ht
    cases who with
    | wait => cases ht
    | drop => exact forall_goto (·.mutexOnly = true) rfl (fun u _ => hgoto rfl rfl u)
  | condPush hpc | subscribe hpc =>
    rw [hpc] at ht
    cases ht
  | @notify v rest _ hc =>
    have hv := h v
    rw [hqueues.condParked_of_front hc] at hv
    cases hv

/-- What a task inside `unlock` knows: it has read the current `expected_count`, and on the slow
path there is a waiter. -/
structure Sound (s : Mutex τ) (k : Pc) : Prop where
  casFrom : ∀ expected ∈ k.casFrom, expected = s.expectedCount
  stored : ∀ read ∈ k.stored, read = s.expectedCount
  slow : k.slow = true → 0 < waiters s

omit [DecidableEq τ] in
/-- Nothing is known at a place outside of the exchanges and the slow path. -/
theorem sound_of_none (hcas : k.casFrom = none) (hstored : k.stored = none)
    (hslow : k.slow = false) (s : Mutex τ) : Sound s k := by
  refine ⟨fun e he => ?_, fun r hr => ?_, fun hk => ?_⟩
  · rw [hcas] at he
    cases he
  · rw [hstored] at hr
    cases hr
  · rw [hslow] at hk
    cases hk

omit [DecidableEq τ] in
/-- Only an owner knows anything. -/
theorem sound_of_owns_eq_zero (hk : k.owns = 0) (honly : k.mutexOnly = true) (s : Mutex τ) :
    Sound s k := by
  cases k with
  | unlockCas | unlockBump | unlockStore | unlockPop => cases hk
  | subscribeStore _ => cases honly
  | _ => exact sound_of_none rfl rfl rfl s

omit [DecidableEq τ] in
theorem Sound.mono (h : Sound s k) (hexpected : s'.expectedCount = s.expectedCount)
    (hwaiters : waiters s ≤ waiters s') : Sound s' k :=
  ⟨fun e he => (h.casFrom e he).trans hexpected.symm,
    fun r hr => (h.stored r hr).trans hexpected.symm,
    fun hk => Nat.lt_of_lt_of_le (h.slow hk) hwaiters⟩

omit [DecidableEq τ] in
/-- What a task knows after a move of its own. -/
theorem Moves.sound (hmove : Moves s a x y) (h : Sound s x) (hslow : ∀ expected who, x =
    .unlockCas expected who → (s.counter : ℤ) ≠ expected → 0 < waiters s) : Sound s y := by
  cases hmove with
  | spinFails step who _ => cases who <;> exact sound_of_none rfl rfl rfl s
  | unlockFails expected who hne =>
    exact ⟨by simp [Pc.casFrom], by simp [Pc.stored], fun _ => hslow expected who rfl hne⟩
  | unlockBump who => exact ⟨by simp [Pc.casFrom], by simp [Pc.stored], fun _ => h.slow rfl⟩
  | _ => exact ⟨by simp [Pc.casFrom], by simp [Pc.stored], by simp [Pc.slow]⟩

/-- A step keeps what the owner knows. -/
theorem sound_effect (hqueues : Queues s) (howners : tally Pc.owns s.pc = min s.counter 1)
    (haccounts : Accounts s) (hsettled : Settled s a) (honly : ∀ t, (s.pc t).mutexOnly = true)
    (h : ∀ t, Sound s (s.pc t)) (heffect : Effect s a s') : ∀ u, Sound s' (s'.pc u) := by
  -- While `a.task` owns the mutex nobody else is inside `unlock`.
  have hother (ht : (s.pc a.task).owns = 1) (s₁ : Mutex τ) (u : τ) (hua : u ≠ a.task) :
      Sound s₁ (s.pc u) := by
    refine sound_of_owns_eq_zero ?_ (honly u) s₁
    by_contra hne
    exact hua (eq_of_tally_le_one (f := Pc.owns) (g := s.pc) (by omega) (by omega) (by omega))
  -- The other tasks keep what they know while `expected_count` stays and no waiter leaves.
  have hkeep {s₁ : Mutex τ} (hexpected : s₁.expectedCount = s.expectedCount)
      (hwaiters : waiters s ≤ waiters s₁) (u : τ) (_ : u ≠ a.task) : Sound s₁ (s.pc u) :=
    (h u).mono hexpected hwaiters
  have honlyt := honly a.task
  cases heffect with
  | stay _ => exact h
  | @move b hmove =>
    have hw := waiters_goto s a.task b
    rw [hmove.entering_eq.1, hmove.entering_eq.2] at hw
    refine forall_goto (Sound _) ((hmove.sound (h a.task) ?_).mono rfl (by omega))
      (hkeep rfl (by omega))
    -- The exchange failed with the current `expected_count`, so that somebody waits.
    intro expected who hpc hne
    have hcurrent := (h a.task).casFrom expected (by rw [hpc]; rfl)
    have hone := le_tally Pc.owns s.pc a.task
    have hzero := promised_eq_zero howners (t := a.task) (by rw [hpc]; rfl) (by rw [hpc]; rfl)
    have howned := haccounts.owned
    simp only [hpc, Pc.owns] at hone
    omega
  | acquire hacquires hcounter hpc =>
    have hw := waiters_goto { s with counter := 1 } a.task .guard
    have hk : (s.pc a.task).entering = 0 := by
      rcases hpc with hpc | hpc
      · rw [hpc]
        rfl
      · exact Pc.entering_of_acquiring hpc
    rw [hk] at hw
    exact forall_goto (Sound _) (sound_of_none rfl rfl rfl _) (hkeep rfl (Nat.le_of_eq hw.symm))
  | enter hpc hbusy =>
    have hw := waiters_goto { s with counter := s.counter + 1 } a.task .pushing
    simp only [hpc, Pc.entering] at hw
    exact forall_goto (Sound _) (sound_of_none rfl rfl rfl _) (hkeep rfl (Nat.le.intro hw.symm))
  | @push why hpc =>
    have hw := waiters_goto { s with waitQueue := a.task :: s.waitQueue } a.task (.parked why)
    have hk : (s.pc a.task).entering = 1 := by
      rcases hpc with hpc | hpc <;> rw [hpc] <;> rfl
    rw [hk] at hw
    refine forall_goto (Sound _) (sound_of_none rfl rfl rfl _) (hkeep rfl ?_)
    simp only [waiters, Mutex.push, goto, List.length_cons, Pc.entering] at hw ⊢
    omega
  | @release expected who hpc heq =>
    have hw := waiters_goto { s with counter := 0 } a.task (.unlockReset who)
    simp only [hpc, Pc.entering] at hw
    exact forall_goto (Sound _) (sound_of_none rfl rfl rfl _) (hkeep rfl (Nat.le_of_eq hw.symm))
  | @reset who hpc =>
    have hw := waiters_goto { s with expectedCount := 1 } a.task who.next
    rw [who.entering_next] at hw
    simp only [hpc, Pc.entering] at hw
    refine forall_goto (Sound _) (by cases who <;> exact sound_of_none rfl rfl rfl _) ?_
    rcases hsettled.2 (by rw [hpc]; rfl) with hfree | hone
    · -- The mutex is free, and nobody knows anything.
      intro u _
      have hle := le_tally Pc.owns s.pc u
      exact sound_of_owns_eq_zero (by omega) (honly u) _
    · exact hkeep hone.symm (Nat.le_of_eq hw.symm)
  | @bump read who hpc =>
    have hw := waiters_goto { s with expectedCount := read + 1 } a.task (.unlockPop who)
    simp only [hpc, Pc.entering] at hw
    have hslow := (h a.task).slow (by rw [hpc]; rfl)
    refine forall_goto (Sound _) ?_ (hother (by rw [hpc]; rfl) _)
    exact ⟨by simp [Pc.casFrom], by simp [Pc.stored], fun _ => Nat.lt_of_lt_of_eq hslow hw.symm⟩
  | @handOff v rest who hpc hw =>
    refine forall_goto (Sound _) (by cases who <;> exact sound_of_none rfl rfl rfl _) ?_
    intro u hua
    by_cases huv : u = v
    · subst huv
      simp only [goto, Function.update_self]
      exact sound_of_none rfl rfl rfl _
    · have hu := hother (by rw [hpc]; rfl)
        (({ s with waitQueue := rest }.goto v .popped).goto a.task who.next) u hua
      simpa [goto, huv] using hu
  | condPush hpc | subscribe hpc =>
    rw [hpc] at honlyt
    cases honlyt
  | @notify v rest _ hc =>
    have hv := honly v
    rw [hqueues.condParked_of_front hc] at hv
    cases hv

/-- The invariant of runs without a condition variable. -/
structure Accounted (s : Mutex τ) : Prop where
  accounts : Accounts s
  mutexOnly : ∀ t, (s.pc t).mutexOnly = true
  sound : ∀ t, Sound s (s.pc t)

omit [DecidableEq τ] in
theorem accounted_new : Accounted (new : Mutex τ) := by
  have hentering := tally_const_zero (ι := τ) Pc.entering .idle rfl
  refine ⟨⟨fun _ => ?_, fun hne => absurd rfl hne⟩, fun _ => rfl,
    fun t => sound_of_owns_eq_zero rfl rfl _⟩
  simp [waiters, new, hentering]

theorem accounted_effect (hqueues : Queues s) (howners : tally Pc.owns s.pc = min s.counter 1)
    (ha : a.mutexOnly = true) (hsettled : Settled s a) (h : Accounted s) (heffect : Effect s a s') :
    Accounted s' := by
  have hsubscribing (t : τ) : (s.pc t).subscribing = false := by
    have hpc := h.mutexOnly t
    cases hk : s.pc t with
    | subscribeLoad | subscribeStore => simp [hk, Pc.mutexOnly] at hpc
    | _ => rfl
  have hinStep : InStep s a :=
    ⟨(h.sound a.task).stored, fun e he _ => ⟨(h.sound a.task).casFrom e he, hsubscribing⟩⟩
  refine ⟨accounts_effect hqueues howners h.accounts hsettled hinStep ?_ heffect,
    mutexOnly_effect hqueues ha h.mutexOnly heffect,
    sound_effect hqueues howners h.accounts hsettled h.mutexOnly h.sound heffect⟩
  intro hsub
  rw [hsubscribing] at hsub
  cases hsub

/-- **Waiter accounting.** In every run of `lock`, `try_lock` and `unlock` whose steps are
settled: while a task has the guard, or was popped to get it, `counter - expected_count` is the
number of waiters; nobody waits for a free mutex; and on the slow path of `unlock` there is a
waiter. -/
theorem accounting {s : Mutex τ}
    (h : Reach Mutex.step (fun s a => a.mutexOnly = true ∧ Settled s a ∧ s.Fits) new s) :
    (∀ t, s.pc t = .guard ∨ s.pc t = .popped →
      (s.counter : ℤ) - s.expectedCount = waiters s) ∧
      (s.counter = 0 → waiters s = 0) ∧
      ∀ t, (s.pc t).slow = true → 0 < waiters s := by
  have hacc : Accounted s := by
    refine Reach.invariant accounted_new ?_ h
    intro s a s' hreach hacc hC hstep
    exact accounted_effect (queues_of_reach hreach) (owners_of_reach hreach) hC.1 hC.2.1 hacc
      (effect_of_step hstep)
  have howners := owners_of_reach h
  refine ⟨fun t ht => ?_, hacc.accounts.free, fun t => (hacc.sound t).slow⟩
  have howns : (s.pc t).owns = 1 ∧ (s.pc t).promised = 0 := by
    rcases ht with ht | ht <;> rw [ht] <;> exact ⟨rfl, rfl⟩
  have hzero := promised_eq_zero howners howns.1 howns.2
  have hone := le_tally Pc.owns s.pc t
  have howned := hacc.accounts.owned
  omega

theorem accounting_handOffRun :
    ∃ s : Mutex (Fin 2),
      Reach Mutex.step (fun s a => a.mutexOnly = true ∧ Settled s a ∧ s.Fits) new s ∧
        s.pc 1 = .popped ∧ (s.counter : ℤ) - s.expectedCount = waiters s := by
  have h : Reach Mutex.step (fun s a => a.mutexOnly = true ∧ Settled s a ∧ s.Fits) new _ :=
    reach_of_execWhere (handOffRun (0 : Fin 2) 1) rfl
  exact ⟨_, h, rfl, (accounting h).1 1 (Or.inr rfl)⟩

/-- `t` releases the counter; before it resets `expected_count`, `u` takes the mutex, `v` queues,
and `u` hands the mutex on to `v`. -/
def lateReset (t u v : τ) : List (Action τ) :=
  [.tryLock t, .unlock t, .go t, .go t, .tryLock u, .lock v, .go v, .go v, .go v, .go v, .go v,
    .go v, .go v, .go v, .go v, .unlock u, .go u, .go u, .go u, .go u, .go u, .go v, .go t]

/-- **The accounting breaks.** After `lateReset` task 2 has the guard and nobody waits, but
`counter` is 2 and `expected_count` is 1; and when task 2 unlocks, it takes the slow path and
spins for a waiter that does not exist. -/
theorem lost_reset :
    ∃ s s' : Mutex (Fin 3),
      Reach Mutex.step (fun _ a => a.mutexOnly = true) new s ∧
      Reach Mutex.step (fun _ a => a.mutexOnly = true) new s' ∧
      s.pc 2 = .guard ∧ s.counter = 2 ∧ s.expectedCount = 1 ∧ waiters s = 0 ∧
      s'.pc 2 = .unlockPop .drop ∧ waiters s' = 0 ∧ s'.pc 0 = .idle ∧ s'.pc 1 = .idle := by
  have h : Reach Mutex.step (fun _ a => a.mutexOnly = true) new _ :=
    reach_of_execWhere (lateReset (0 : Fin 3) 1 2) rfl
  have h' : Reach Mutex.step (fun _ a => a.mutexOnly = true) new _ :=
    reach_of_execWhere (lateReset (0 : Fin 3) 1 2 ++ [.unlock 2, .go 2, .go 2, .go 2, .go 2]) rfl
  exact ⟨_, _, h, h', rfl, rfl, rfl, by decide, rfl, by decide, rfl, rfl⟩

end Orengine.Sync.Mutex
