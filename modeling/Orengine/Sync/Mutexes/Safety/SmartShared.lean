import Orengine.Lib.Reach
import Orengine.Lib.Tally
import Orengine.Sync.Mutexes.SmartShared

/-!
# Mutual exclusion of `Mutex`

`Effect` says once what a step can do to the mutex, the condition variable and the task that makes
the step, and every invariant of the system is proved from it (`effect_of_step`).

`mutual_exclusion` rests on a count of the owners: a task owns the mutex while it has a guard,
while it is in `unlock` and has neither released the counter nor handed the mutex on, and when it
was popped from `wait_queue`.  Their number is `min counter 1`, whatever `expected_count` is.
-/

namespace Orengine.Sync.Mutex

open Lib

variable {τ : Type*} [DecidableEq τ]

/-! ### What a step can do -/

def Action.task : Action τ → τ
  | .lock t | .tryLockWithSpinning t | .tryLock t | .unlock t | .subscribe t | .wait t
  | .notifyOne t | .notifyAll t | .go t => t

/-- Whether a task at this place is about to exchange `counter` from 0 to 1, or to add 1 to it. -/
def Pc.acquiring : Pc → Bool
  | .spin _ _ | .fetchAdd | .notified => true
  | _ => false

/-- Whether a task at this place may notify others. -/
def Pc.notifies : Pc → Bool
  | .idle | .guard | .notifyAll _ => true
  | _ => false

/-- Whether the step acquires the free mutex. -/
def acquires (s : Mutex τ) : Action τ → Bool
  | .tryLock _ => s.counter == 0
  | .go t => s.counter == 0 && (s.pc t).acquiring
  | _ => false

/-- A move from one place in the code to another that changes nothing else. -/
inductive Moves (s : Mutex τ) (a : Action τ) : Pc → Pc → Prop
  | startSpin (who : Spinning) : Moves s a .idle (.spin 0 who)
  | tryLockFails : Moves s a .idle .idle
  | spin (step : ℕ) (who : Spinning) : Moves s a (.spin step who) (.spin (step + 1) who)
  | spinFails (step : ℕ) (who : Spinning) : s.counter ≠ 0 → Moves s a (.spin step who) who.failed
  | startDrop : Moves s a .guard (.unlockLoad .drop)
  | startWait (t : τ) : a = .wait t → Moves s a .guard (.unlockLoad .wait)
  | startSubscribe (t : τ) : a = .subscribe t → Moves s a .idle .subscribeLoad
  | startNotifyAll (t : τ) : a = .notifyAll t → Moves s a .idle (.notifyAll false)
  | startNotifyAllHolding (t : τ) : a = .notifyAll t → Moves s a .guard (.notifyAll true)
  | endNotifyAll : Moves s a (.notifyAll false) .idle
  | endNotifyAllHolding : Moves s a (.notifyAll true) .guard
  | takeGuard : Moves s a .popped .guard
  | unlockLoad (who : Unlocking) : Moves s a (.unlockLoad who) (.unlockCas s.expectedCount who)
  | unlockFails (expected : ℤ) (who : Unlocking) : (s.counter : ℤ) ≠ expected →
      Moves s a (.unlockCas expected who) (.unlockBump who)
  | unlockBump (who : Unlocking) : Moves s a (.unlockBump who) (.unlockStore s.expectedCount who)
  | pollWait : Moves s a .wait .condPushing
  | notifiedFails : s.counter ≠ 0 → Moves s a .notified .subscribeLoad
  | subscribeLoad : Moves s a .subscribeLoad (.subscribeStore s.expectedCount)

/-- What a step can do. -/
inductive Effect (s : Mutex τ) (a : Action τ) : Mutex τ → Prop
  | stay : (s.pc a.task).notifies = true ∨
      (∃ who, s.pc a.task = .unlockPop who ∧ s.waitQueue = []) → Effect s a s
  | move {b : Pc} : Moves s a (s.pc a.task) b → Effect s a (s.goto a.task b)
  | acquire : s.acquires a = true → s.counter = 0 →
      (s.pc a.task = .idle ∨ (s.pc a.task).acquiring = true) →
      Effect s a ({ s with counter := 1 }.goto a.task .guard)
  | enter : s.pc a.task = .fetchAdd → s.counter ≠ 0 →
      Effect s a ({ s with counter := s.counter + 1 }.goto a.task .pushing)
  | push {why : Parking} : (s.pc a.task = .pushing ∨ s.pc a.task = .subscribePush) →
      Effect s a (s.push a.task why)
  | release {expected : ℤ} {who : Unlocking} : s.pc a.task = .unlockCas expected who →
      (s.counter : ℤ) = expected →
      Effect s a ({ s with counter := 0 }.goto a.task (.unlockReset who))
  | reset {who : Unlocking} : s.pc a.task = .unlockReset who →
      Effect s a ({ s with expectedCount := 1 }.goto a.task who.next)
  | bump {read : ℤ} {who : Unlocking} : s.pc a.task = .unlockStore read who →
      Effect s a ({ s with expectedCount := read + 1 }.goto a.task (.unlockPop who))
  | handOff {u : τ} {rest : List τ} {who : Unlocking} : s.pc a.task = .unlockPop who →
      s.waitQueue = u :: rest →
      Effect s a (({ s with waitQueue := rest }.goto u .popped).goto a.task who.next)
  | condPush : s.pc a.task = .condPushing →
      Effect s a ({ s with condQueue := a.task :: s.condQueue }.goto a.task .condParked)
  | notify {u : τ} {rest : List τ} : (s.pc a.task).notifies = true → s.condQueue = u :: rest →
      Effect s a ({ s with condQueue := rest }.goto u .notified)
  | subscribe {read : ℤ} : s.pc a.task = .subscribeStore read →
      Effect s a ({ s with expectedCount := read - 1 }.goto a.task .subscribePush)

variable {s s' : Mutex τ} {a : Action τ} {x : Pc} {t : τ}

theorem effect_move {b : Pc} (hpc : s.pc a.task = x) (hmove : Moves s a x b) :
    Effect s a (s.goto a.task b) :=
  .move (hpc ▸ hmove)

theorem effect_acquire (hpc : s.pc t = x) (hx : x.acquiring = true) (hfree : s.counter = 0) :
    Effect s (.go t) ({ s with counter := 1 }.goto t .guard) := by
  rw [← hpc] at hx
  exact .acquire (by simp [acquires, hfree, hx]) hfree (Or.inr hx)

theorem effect_notify (ht : (s.pc a.task).notifies = true) (h : Effect s a s') :
    Effect s a (s.notify.getD s') := by
  unfold Mutex.notify
  split
  case h_1 => exact h
  case h_2 u rest hc => exact .notify ht hc

theorem effect_go (h : s.go t = some s') : Effect s (.go t) s' := by
  unfold go at h
  split at h <;> rename_i hpc <;> cases h
  case h_5 step who =>
    unfold Mutex.spin
    split_ifs with hspin
    · exact effect_move hpc (.spin step who)
    · unfold Mutex.tryLock
      split_ifs with hfree
      · exact effect_acquire hpc rfl hfree
      · exact effect_move hpc (.spinFails step who hfree)
  case h_6 =>
    unfold Mutex.fetchAdd
    split_ifs with hfree
    · rw [hfree]
      exact effect_acquire hpc rfl hfree
    · exact .enter hpc hfree
  case h_7 => exact .push (Or.inl hpc)
  case h_8 => exact effect_move hpc .takeGuard
  case h_9 who => exact effect_move hpc (.unlockLoad who)
  case h_10 expected who =>
    unfold Mutex.unlockCas
    split_ifs with heq
    · exact .release hpc heq
    · exact effect_move hpc (.unlockFails expected who heq)
  case h_11 who => exact .reset hpc
  case h_12 who => exact effect_move hpc (.unlockBump who)
  case h_13 read who => exact .bump hpc
  case h_14 who =>
    unfold Mutex.unlockPop
    split
    case h_1 hw => exact .stay (Or.inr ⟨who, hpc, hw⟩)
    case h_2 u rest hw => exact .handOff hpc hw
  case h_15 => exact effect_move hpc .pollWait
  case h_16 => exact .condPush hpc
  case h_17 =>
    unfold Mutex.tryLock
    split_ifs with hfree
    · exact effect_acquire hpc rfl hfree
    · exact effect_move hpc (.notifiedFails hfree)
  case h_18 => exact effect_move hpc .subscribeLoad
  case h_19 read => exact .subscribe hpc
  case h_20 => exact .push (Or.inr hpc)
  case h_21 holding =>
    have ht : (s.pc t).notifies = true := by rw [hpc]; rfl
    cases holding
    · exact effect_notify ht (effect_move hpc .endNotifyAll)
    · exact effect_notify ht (effect_move hpc .endNotifyAllHolding)

/-- **What a step can do.** -/
theorem effect_of_step (h : s.step a = some s') : Effect s a s' := by
  cases a with
  | go t => exact effect_go h
  | notifyAll t =>
    simp only [step] at h
    split_ifs at h with hidle hguard <;> cases h
    · exact effect_move hidle (.startNotifyAll t rfl)
    · exact effect_move hguard (.startNotifyAllHolding t rfl)
  | notifyOne t =>
    simp only [step] at h
    split_ifs at h with hpc
    cases h
    have ht : (s.pc t).notifies = true := by rcases hpc with hpc | hpc <;> rw [hpc] <;> rfl
    exact effect_notify ht (.stay (Or.inl ht))
  | tryLock t =>
    simp only [step] at h
    split_ifs at h with hidle
    cases h
    unfold Mutex.tryLock
    split_ifs with hfree
    · exact .acquire (by simp [acquires, hfree]) hfree (Or.inl hidle)
    · exact effect_move hidle .tryLockFails
  | lock t | tryLockWithSpinning t =>
    simp only [step] at h
    split_ifs at h with hidle
    cases h
    exact effect_move hidle (.startSpin _)
  | unlock t =>
    simp only [step] at h
    split_ifs at h with hguard
    cases h
    exact effect_move hguard .startDrop
  | wait t =>
    simp only [step] at h
    split_ifs at h with hguard
    cases h
    exact effect_move hguard (.startWait t rfl)
  | subscribe t =>
    simp only [step] at h
    split_ifs at h with hidle
    cases h
    exact effect_move hidle (.startSubscribe t rfl)

/-- A task moves to `k`: what holds at `k` and where the others are holds for all tasks. -/
theorem forall_goto (P : Pc → Prop) {k : Pc} (hk : P k) (h : ∀ u, u ≠ t → P (s.pc u)) :
    ∀ u, P ((s.goto t k).pc u) :=
  (Function.forall_update_iff s.pc (p := fun _ x => P x)).mpr ⟨hk, h⟩

/-! ### The wait queues -/

/-- A queue holds each task once, and exactly the tasks that are parked in it. -/
structure Queues (s : Mutex τ) : Prop where
  wait_nodup : s.waitQueue.Nodup
  cond_nodup : s.condQueue.Nodup
  mem_wait : ∀ u, u ∈ s.waitQueue ↔ ∃ why, s.pc u = .parked why
  mem_cond : ∀ u, u ∈ s.condQueue ↔ s.pc u = .condParked

/-- A task at this place is in no queue. -/
structure Pc.Free (k : Pc) : Prop where
  wait : ∀ why, k ≠ .parked why
  cond : k ≠ .condParked

omit [DecidableEq τ] in
theorem Moves.free {y : Pc} (h : Moves s a x y) : x.Free ∧ y.Free := by
  cases h with
  | spinFails step who _ => cases who <;> exact ⟨⟨by simp, by simp⟩, ⟨by simp [Spinning.failed],
      by simp [Spinning.failed]⟩⟩
  | _ => exact ⟨⟨by simp, by simp⟩, ⟨by simp, by simp⟩⟩

theorem Pc.free_of_acquiring {k : Pc} (h : k.acquiring = true) : k.Free := by
  constructor
  · rintro why rfl
    cases h
  · rintro rfl
    cases h

theorem Unlocking.free_next (who : Unlocking) : who.next.Free := by
  cases who <;> exact ⟨by simp [Unlocking.next], by simp [Unlocking.next]⟩

namespace Queues

variable {s : Mutex τ} {t u : τ} {k : Pc}

variable {rest : List τ}

omit [DecidableEq τ] in
theorem parked_of_front (h : Queues s) (hw : s.waitQueue = u :: rest) :
    ∃ why, s.pc u = .parked why :=
  (h.mem_wait u).mp (by simp [hw])

omit [DecidableEq τ] in
theorem condParked_of_front (h : Queues s) (hc : s.condQueue = u :: rest) : s.pc u = .condParked :=
  (h.mem_cond u).mp (by simp [hc])

omit [DecidableEq τ] in
theorem ne_of_front (h : Queues s) (ht : (s.pc t).Free) (hw : s.waitQueue = u :: rest) : t ≠ u := by
  rintro rfl
  obtain ⟨why, hparked⟩ := h.parked_of_front hw
  exact ht.wait why hparked

theorem move (h : Queues s) (ht : (s.pc t).Free) (hk : k.Free) : Queues (s.goto t k) := by
  refine ⟨h.wait_nodup, h.cond_nodup, fun u => ?_, fun u => ?_⟩ <;> by_cases hut : u = t
  · simp [goto, hut, h.mem_wait, ht.wait, hk.wait]
  · simpa [goto, hut] using h.mem_wait u
  · simp [goto, hut, h.mem_cond, ht.cond, hk.cond]
  · simpa [goto, hut] using h.mem_cond u

theorem push (h : Queues s) (ht : (s.pc t).Free) (why : Parking) : Queues (s.push t why) := by
  have hnot : t ∉ s.waitQueue := fun hmem => by
    obtain ⟨why', hpc⟩ := (h.mem_wait t).mp hmem
    exact ht.wait why' hpc
  refine ⟨List.nodup_cons.mpr ⟨hnot, h.wait_nodup⟩, h.cond_nodup, fun u => ?_, fun u => ?_⟩ <;>
    by_cases hut : u = t
  · simp [Mutex.push, goto, hut]
  · simpa [Mutex.push, goto, hut] using h.mem_wait u
  · simp [Mutex.push, goto, hut, h.mem_cond, ht.cond]
  · simpa [Mutex.push, goto, hut] using h.mem_cond u

theorem pop (h : Queues s) (hw : s.waitQueue = u :: rest) :
    Queues ({ s with waitQueue := rest }.goto u .popped) := by
  have hnodup := h.wait_nodup
  rw [hw, List.nodup_cons] at hnodup
  obtain ⟨why, hpc⟩ := h.parked_of_front hw
  refine ⟨hnodup.2, h.cond_nodup, fun v => ?_, fun v => ?_⟩ <;> by_cases hvu : v = u
  · simp [goto, hvu, hnodup.1]
  · simpa [goto, hvu, hw] using h.mem_wait v
  · simp [goto, hvu, h.mem_cond, hpc]
  · simpa [goto, hvu] using h.mem_cond v

theorem condPush (h : Queues s) (ht : (s.pc t).Free) :
    Queues ({ s with condQueue := t :: s.condQueue }.goto t .condParked) := by
  have hnot : t ∉ s.condQueue := fun hmem => ht.cond ((h.mem_cond t).mp hmem)
  refine ⟨h.wait_nodup, List.nodup_cons.mpr ⟨hnot, h.cond_nodup⟩, fun u => ?_, fun u => ?_⟩ <;>
    by_cases hut : u = t
  · simp [goto, hut, h.mem_wait, ht.wait]
  · simpa [goto, hut] using h.mem_wait u
  · simp [goto, hut]
  · simpa [goto, hut] using h.mem_cond u

theorem condPop (h : Queues s) (hc : s.condQueue = u :: rest) :
    Queues ({ s with condQueue := rest }.goto u .notified) := by
  have hnodup := h.cond_nodup
  rw [hc, List.nodup_cons] at hnodup
  have hpc := h.condParked_of_front hc
  refine ⟨h.wait_nodup, hnodup.2, fun v => ?_, fun v => ?_⟩ <;> by_cases hvu : v = u
  · simp [goto, hvu, h.mem_wait, hpc]
  · simpa [goto, hvu] using h.mem_wait v
  · simp [goto, hvu, hnodup.1]
  · simpa [goto, hvu, hc] using h.mem_cond v

omit [DecidableEq τ] in
theorem withCounters (h : Queues s) (counter : ℕ) (expectedCount : ℤ) :
    Queues { s with counter := counter, expectedCount := expectedCount } :=
  ⟨h.wait_nodup, h.cond_nodup, h.mem_wait, h.mem_cond⟩

theorem effect {s' : Mutex τ} {a : Action τ} (h : Queues s) (heffect : Effect s a s') :
    Queues s' := by
  cases heffect with
  | stay _ => exact h
  | move hmove => exact h.move hmove.free.1 hmove.free.2
  | acquire _ _ hpc =>
    refine (h.withCounters 1 s.expectedCount).move ?_ ⟨by simp, by simp⟩
    rcases hpc with hpc | hpc
    · exact ⟨by simp [hpc], by simp [hpc]⟩
    · exact Pc.free_of_acquiring hpc
  | enter hpc | release hpc | bump hpc | subscribe hpc =>
    exact (h.withCounters _ _).move ⟨by simp [hpc], by simp [hpc]⟩ ⟨by simp, by simp⟩
  | push hpc =>
    rcases hpc with hpc | hpc <;> exact h.push ⟨by simp [hpc], by simp [hpc]⟩ _
  | reset hpc =>
    exact (h.withCounters _ _).move ⟨by simp [hpc], by simp [hpc]⟩ (Unlocking.free_next _)
  | @handOff u rest who hpc hw =>
    have htu := h.ne_of_front (t := a.task) ⟨by simp [hpc], by simp [hpc]⟩ hw
    refine (h.pop hw).move ?_ (Unlocking.free_next who)
    constructor <;> simp [goto, htu, hpc]
  | condPush hpc => exact h.condPush ⟨by simp [hpc], by simp [hpc]⟩
  | notify _ hc => exact h.condPop hc

end Queues

omit [DecidableEq τ] in
theorem queues_new : Queues (new : Mutex τ) := by
  constructor <;> simp [new]

/-- The queues are right in every run, whatever conditions its steps meet. -/
theorem queues_of_reach {C : Mutex τ → Action τ → Prop} (h : Reach Mutex.step C new s) : Queues s :=
  Reach.invariant queues_new (fun _ _ _ _ hq _ hstep => hq.effect (effect_of_step hstep)) h

/-! ### The owners -/

/-- Whether a task at this place owns the mutex. -/
def Pc.owns : Pc → ℕ
  | .guard | .popped | .unlockLoad _ | .unlockCas _ _ | .unlockBump _ | .unlockStore _ _
  | .unlockPop _ | .notifyAll true => 1
  | _ => 0

omit [DecidableEq τ] in
theorem Moves.owns_eq {y : Pc} (h : Moves s a x y) : x.owns = y.owns := by
  cases h with
  | spinFails step who _ => cases who <;> rfl
  | _ => rfl

theorem Unlocking.owns_next (who : Unlocking) : who.next.owns = 0 := by
  cases who <;> rfl

variable [Fintype τ]

theorem tally_goto (f : Pc → ℕ) (hpc : s.pc t = x) (k : Pc) (h : f x = f k) :
    tally f (s.goto t k).pc = tally f s.pc := by
  have htally := tally_update f s.pc t k
  rw [hpc] at htally
  simp only [goto]
  omega

/-- **The number of owners is `min counter 1`**, and every step keeps it so. -/
theorem owners_effect (hqueues : Queues s) (h : tally Pc.owns s.pc = min s.counter 1)
    (heffect : Effect s a s') : tally Pc.owns s'.pc = min s'.counter 1 := by
  cases heffect with
  | stay _ => exact h
  | @move b hmove => exact (tally_goto Pc.owns rfl b hmove.owns_eq).trans h
  | acquire _ hfree hpc =>
    have htally := tally_update Pc.owns s.pc a.task .guard
    have hold := le_tally Pc.owns s.pc a.task
    simp only [goto, Pc.owns] at htally hold ⊢
    omega
  | enter hpc hbusy =>
    -- The counter was positive and stays so.
    refine (tally_goto Pc.owns hpc .pushing rfl).trans (h.trans ?_)
    show min s.counter 1 = min (s.counter + 1) 1
    omega
  | @push why hpc =>
    rcases hpc with hpc | hpc <;> exact (tally_goto Pc.owns hpc (.parked why) rfl).trans h
  | @release expected who hpc heq =>
    have htally := tally_update Pc.owns s.pc a.task (.unlockReset who)
    simp only [goto, hpc, Pc.owns] at htally ⊢
    omega
  | @reset who hpc =>
    exact (tally_goto Pc.owns hpc who.next who.owns_next.symm).trans h
  | @bump read who hpc => exact (tally_goto Pc.owns hpc (.unlockPop who) rfl).trans h
  | @handOff u rest who hpc hw =>
    -- The one owner is now `u`, which was parked.
    obtain ⟨why, hparked⟩ := hqueues.parked_of_front hw
    have htu := hqueues.ne_of_front (t := a.task) ⟨by simp [hpc], by simp [hpc]⟩ hw
    have hfirst := tally_update Pc.owns s.pc u .popped
    have hsecond := tally_update Pc.owns (Function.update s.pc u .popped) a.task who.next
    rw [Function.update_of_ne htu, hpc, Unlocking.owns_next] at hsecond
    rw [hparked] at hfirst
    simp only [goto, Pc.owns] at hfirst hsecond ⊢
    omega
  | condPush hpc => exact (tally_goto Pc.owns hpc .condParked rfl).trans h
  | notify _ hc =>
    exact (tally_goto Pc.owns (hqueues.condParked_of_front hc) .notified rfl).trans h
  | subscribe hpc => exact (tally_goto Pc.owns hpc .subscribePush rfl).trans h

/-- The number of owners in every run, whatever conditions its steps meet. -/
theorem owners_of_reach {C : Mutex τ → Action τ → Prop} (h : Reach Mutex.step C new s) :
    tally Pc.owns s.pc = min s.counter 1 := by
  refine Reach.invariant (I := fun s => tally Pc.owns s.pc = min s.counter 1) ?_ ?_ h
  · exact tally_const_zero Pc.owns .idle rfl
  · intro s a s' hreach hcount _ hstep
    exact owners_effect (queues_of_reach hreach) hcount (effect_of_step hstep)

/-- **Mutual exclusion.** In every interleaving of any number of tasks in which the counters fit, at
most one task owns the mutex (it has a guard, is about to give it up, or was popped from
`wait_queue` to get it), and while there is one the counter is positive. -/
theorem mutual_exclusion {s : Mutex τ} (h : Reach Mutex.step (fun s _ => s.Fits) new s) :
    (∀ t u, (s.pc t).owns = 1 → (s.pc u).owns = 1 → t = u) ∧
      ∀ t, (s.pc t).owns = 1 → 0 < s.counter := by
  have hcount := owners_of_reach h
  refine ⟨fun t u ht hu => ?_, fun t ht => ?_⟩
  · exact eq_of_tally_le_one (f := Pc.owns) (g := s.pc) (by omega) (by omega) (by omega)
  · have hle := le_tally Pc.owns s.pc t
    omega

/-- `t` has the guard, `u` spins, queues and is parked, and `t` hands the mutex on. -/
def handOffRun (t u : τ) : List (Action τ) :=
  [.tryLock t, .lock u, .go u, .go u, .go u, .go u, .go u, .go u, .go u, .go u, .go u, .unlock t,
    .go t, .go t, .go t, .go t, .go t]

theorem mutual_exclusion_handOffRun :
    ∃ s : Mutex (Fin 2), Reach Mutex.step (fun s _ => s.Fits) new s ∧ s.pc 1 = .popped ∧
      s.pc 0 = .idle ∧ 0 < s.counter := by
  have h : Reach Mutex.step (fun s _ => s.Fits) new _ :=
    reach_of_execWhere (handOffRun (0 : Fin 2) 1) rfl
  exact ⟨_, h, rfl, rfl, (mutual_exclusion h).2 1 rfl⟩

end Orengine.Sync.Mutex
