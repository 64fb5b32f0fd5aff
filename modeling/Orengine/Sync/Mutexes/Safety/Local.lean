import Orengine.Sync.Mutexes.Local
import Mathlib.Data.Set.Card

/-!
# Safety of `LocalMutex`

`unlock` runs the next owner nested inside itself, or leaves it to the queue of the executor, with
`is_locked` still set: between the pop and the poll of that task nobody has a guard, but the mutex
is granted.  `owners` counts both, the live guards and the grants that are not taken yet.

`Sound` is the invariant, `effect_of_code` says what an operation can do, and `custody` that it does
not put a task into two places.  A `Ledger` counts for each task how often it parked, was granted
the mutex and took a grant; `one_owner` is the result.
-/

namespace Orengine.Sync

open Lib Orengine.Runtime

namespace LocalMutex

variable {τ : Type*} [DecidableEq τ]

/-! ### Places -/

/-- The places of a task in the memory. -/
def holds (m : LocalMutex τ) (u : τ) : ℕ := m.waitQueue.count u + m.condQueue.count u

/-- The places of `u` that an operation of `t` leaves, in the memory and with the executor. -/
def left (t u : τ) (r : LocalMutex τ × Outcome τ Place) : ℕ :=
  holds r.1 u + r.2.places (fun _ _ => 0) t u

theorem left_goto (t u : τ) (m : LocalMutex τ) (k : Place) :
    left t u (m, .goto k) = holds m u + oneAt t u := by
  simp only [left, Outcome.places, Nat.zero_add]

theorem left_push (t u : τ) (m : LocalMutex τ) (w : Waiting) :
    left t u (m.push t w, .returned) = holds m u + oneAt t u := by
  simp only [left, holds, push, Outcome.places, count_cons_eq_oneAt]
  omega

theorem left_lock (t u : τ) (m : LocalMutex τ) : left t u (m.lock t) = holds m u + oneAt t u := by
  cases hlocked : m.isLocked with
  | true =>
    simp only [lock, hlocked, if_true]
    exact left_push t u m .lock
  | false =>
    simp only [lock, hlocked, Bool.false_eq_true, if_false]
    exact left_goto t u _ .user

theorem left_tryLock (t u : τ) (m : LocalMutex τ) :
    left t u (m.tryLock t) = holds m u + oneAt t u := by
  cases hlocked : m.isLocked with
  | true =>
    simp only [tryLock, hlocked, if_true]
    exact left_goto t u m .user
  | false =>
    simp only [tryLock, hlocked, Bool.false_eq_true, if_false]
    exact left_goto t u _ .user

theorem left_unlock (t u : τ) (m : LocalMutex τ) (k : Place) :
    left t u (m.unlock t k) = holds m u + oneAt t u := by
  cases hqueue : m.waitQueue with
  | nil =>
    simp only [unlock, hqueue, left, Outcome.places, holds, Nat.zero_add]
  | cons v rest =>
    simp only [unlock, hqueue, left, Outcome.places, holds, count_cons_eq_oneAt]
    omega

theorem left_notify (t u : τ) (m : LocalMutex τ) (k : Place) :
    left t u (m.notify k) = holds m u + oneAt t u := by
  cases hqueue : m.condQueue with
  | nil =>
    simp only [notify, hqueue]
    exact left_goto t u m .user
  | cons v rest =>
    simp only [notify, hqueue, left, Outcome.places, holds, count_cons_eq_oneAt]
    omega

theorem left_sleep (t u : τ) (m : LocalMutex τ) :
    left t u (m.sleep t) = holds m u + oneAt t u := by
  simp only [sleep, left, Outcome.places, holds, count_cons_eq_oneAt]
  omega

theorem left_poll (t u : τ) (m : LocalMutex τ) : left t u (m.poll t) = holds m u + oneAt t u := by
  unfold poll
  split
  · exact left_goto t u m .user
  · exact left_goto t u (m.takeGuard t) .user
  · split
    · exact left_push t u m (.condVar .lock)
    · exact left_goto t u ({ m with isLocked := true }.takeGuard t) .user
  · exact left_goto t u (m.takeGuard t) .user

variable {m m' : LocalMutex τ} {t u : τ} {k : Place} {o : Outcome τ Place} {rest : List τ}

theorem left_code {op : Op} (h : m.code t k op = some (m', o)) (u : τ) :
    left t u (m', o) = holds m u + oneAt t u := by
  unfold code at h
  split at h
  · exact Option.some.inj h ▸ left_poll t u m
  · exact Option.some.inj h ▸ left_sleep t u m
  · exact Option.some.inj h ▸ left_notify t u m .notifyAll
  · exact Option.some.inj h ▸ left_lock t u m
  · exact Option.some.inj h ▸ left_tryLock t u m
  · split at h
    · exact Option.some.inj h ▸ left_unlock t u m .user
    · cases h
  · exact Option.some.inj h ▸ left_push t u m .lock
  · split at h
    · exact Option.some.inj h ▸ left_unlock t u m .sleep
    · cases h
  · exact Option.some.inj h ▸ left_notify t u m .user
  · exact Option.some.inj h ▸ left_goto t u m .notifyAll
  · cases h

/-- The places of the tasks that use the mutex and the condition variable. -/
def custody : Custody (primitive (τ := τ)) := .ofMemory holds left_code

/-! ### Owners -/

/-- Whether the future waits for the mutex itself: the next poll of it returns a guard. -/
def Waiting.forLock : Waiting → Bool
  | .lock => true
  | .condVar .lock => true
  | .condVar .wake => false

/-- Whether the next poll of `t` takes the mutex without asking. -/
def awaitsLock (m : LocalMutex τ) (t : τ) : Bool := (m.waiting t).any Waiting.forLock

/-- Whether `t` has been popped from the queue and has not been resumed yet. -/
def granted (m : LocalMutex τ) (t : τ) : Bool := m.awaitsLock t && !decide (t ∈ m.waitQueue)

theorem granted_congr (hwaiting : m'.waiting u = m.waiting u)
    (hqueue : m'.waitQueue = m.waitQueue) : m'.granted u = m.granted u := by
  simp only [granted, awaitsLock, hwaiting, hqueue]

theorem granted_takeGuard (m : LocalMutex τ) (t u : τ) :
    (m.takeGuard t).granted u = if u = t then false else m.granted u := by
  by_cases hut : u = t
  · simp [granted, awaitsLock, takeGuard, hut]
  · rw [if_neg hut]
    exact granted_congr (Function.update_of_ne hut _ _) rfl

theorem granted_push (m : LocalMutex τ) (t u : τ) (w : Waiting) :
    (m.push t w).granted u = if u = t then false else m.granted u := by
  by_cases hut : u = t <;> simp [granted, awaitsLock, push, hut]

theorem granted_sleep (m : LocalMutex τ) (t u : τ) :
    (m.sleep t).1.granted u = if u = t then false else m.granted u := by
  by_cases hut : u = t
  · simp [granted, awaitsLock, sleep, Waiting.forLock, hut]
  · rw [if_neg hut]
    exact granted_congr (Function.update_of_ne hut _ _) rfl

theorem granted_pop {v : τ} (hqueue : m.waitQueue = v :: rest) (hv : v ∉ rest)
    (hawaits : m.awaitsLock v = true) (guards : τ → Bool) (u : τ) :
    granted { m with guards := guards, waitQueue := rest } u =
      if u = v then true else m.granted u := by
  by_cases huv : u = v
  · simpa [granted, awaitsLock, huv, hv] using hawaits
  · simp [granted, awaitsLock, hqueue, huv]

/-- An owner of a mutex. -/
inductive Owner (τ : Type*) where
  /-- The task has a live guard. -/
  | guard (t : τ)
  /-- The task was popped and has not been resumed. -/
  | granted (t : τ)

/-- Whether the mutex has this owner. -/
def Owner.owns (m : LocalMutex τ) : Owner τ → Bool
  | .guard t => m.guards t
  | .granted t => m.granted t

/-- The live guards and the waiters that are popped but not yet resumed. -/
def owners (m : LocalMutex τ) : Set (Owner τ) := {x | x.owns m = true}

structure Sound (m : LocalMutex τ) : Prop where
  parked : ∀ t ∈ m.waitQueue, m.awaitsLock t = true
  free : m.isLocked = false → (∀ x : Owner τ, x.owns m = false) ∧ m.waitQueue = []
  held : m.isLocked = true → ∃ x : Owner τ, ∀ y, y.owns m = true ↔ y = x

theorem Sound.encard_owners (h : m.Sound) :
    m.owners.encard ≤ 1 ∧ (m.isLocked = true ↔ m.owners.encard = 1) := by
  cases hlocked : m.isLocked with
  | false =>
    have hempty : m.owners = ∅ := by
      ext x
      simp [owners, (h.free hlocked).1 x]
    simp [hempty]
  | true =>
    obtain ⟨x, hx⟩ := h.held hlocked
    have hsingle : m.owners = {x} := by
      ext y
      exact hx y
    simp [hsingle]

theorem Sound.unique (h : m.Sound) {x : Owner τ} (hx : x.owns m = true) :
    m.isLocked = true ∧ ∀ y : Owner τ, y.owns m = true ↔ y = x := by
  cases hlocked : m.isLocked with
  | false =>
    rw [(h.free hlocked).1 x] at hx
    cases hx
  | true =>
    obtain ⟨z, hz⟩ := h.held hlocked
    obtain rfl := (hz x).mp hx
    exact ⟨rfl, hz⟩

/-- The invariant reads no more than these. -/
theorem Sound.congr (h : m.Sound) (hlocked : m'.isLocked = m.isLocked)
    (hqueue : m'.waitQueue = m.waitQueue) (hguards : m'.guards = m.guards)
    (hawaits : ∀ t, m'.awaitsLock t = m.awaitsLock t) : m'.Sound := by
  have howns (x : Owner τ) : x.owns m' = x.owns m := by
    cases x with
    | guard t => simp only [Owner.owns, hguards]
    | granted t => simp only [Owner.owns, granted, hawaits, hqueue]
  constructor
  · intro t ht
    rw [hawaits]
    exact h.parked t (hqueue ▸ ht)
  · intro hfree
    rw [hlocked] at hfree
    obtain ⟨hnone, hempty⟩ := h.free hfree
    exact ⟨fun x => (howns x).trans (hnone x), hqueue.trans hempty⟩
  · intro hheld
    rw [hlocked] at hheld
    obtain ⟨x, hx⟩ := h.held hheld
    exact ⟨x, fun y => by rw [howns]; exact hx y⟩

theorem Sound.takeGuard (hparked : ∀ u ∈ m.waitQueue, m.awaitsLock u) (ht : t ∉ m.waitQueue)
    (hlocked : m.isLocked = true) (hothers : ∀ x : Owner τ, x.owns m = true → x = .granted t) :
    (m.takeGuard t).Sound := by
  constructor
  · intro u hu
    have hut : u ≠ t := fun heq => ht (heq ▸ hu)
    simpa [awaitsLock, LocalMutex.takeGuard, hut] using hparked u hu
  · intro hfree
    rw [LocalMutex.takeGuard, hlocked] at hfree
    cases hfree
  · intro _
    refine ⟨.guard t, fun y => ?_⟩
    cases y with
    | guard u =>
      by_cases hut : u = t
      · simp [Owner.owns, LocalMutex.takeGuard, hut]
      · have hno : m.guards u ≠ true := fun hu => by cases hothers (.guard u) hu
        simp [Owner.owns, LocalMutex.takeGuard, hut, hno]
    | granted u =>
      by_cases hut : u = t
      · simp [Owner.owns, granted_takeGuard, hut]
      · have hno : m.granted u ≠ true := fun hu => hut (Owner.granted.inj (hothers _ hu))
        simp [Owner.owns, granted_takeGuard, hut, hno]

theorem Sound.push (h : m.Sound) {w : Waiting} (hw : w.forLock = true) (ht : m.granted t = false)
    (hlocked : m.isLocked = true) : (m.push t w).Sound := by
  constructor
  · intro u hu
    by_cases hut : u = t
    · simp [awaitsLock, LocalMutex.push, hut, hw]
    · have hmem : u ∈ m.waitQueue := by simpa [LocalMutex.push, hut] using hu
      simpa [awaitsLock, LocalMutex.push, hut] using h.parked u hmem
  · intro hfree
    rw [LocalMutex.push, hlocked] at hfree
    cases hfree
  · intro _
    obtain ⟨x, hx⟩ := h.held hlocked
    refine ⟨x, fun y => ?_⟩
    rw [← hx y]
    cases y with
    | guard u => exact Iff.rfl
    | granted u =>
      by_cases hut : u = t
      · rw [hut]
        simp [Owner.owns, granted_push, ht]
      · simp [Owner.owns, granted_push, hut]

theorem Sound.handOff (h : m.Sound) (hguard : m.guards t = true)
    (hqueue : m.waitQueue = u :: rest) (hu : u ∉ rest) :
    Sound { m with guards := Function.update m.guards t false, waitQueue := rest } := by
  obtain ⟨hlocked, hunique⟩ := h.unique (x := .guard t) hguard
  constructor
  · intro v hv
    refine h.parked v ?_
    rw [hqueue]
    exact List.mem_cons_of_mem u hv
  · intro hfree
    rw [hlocked] at hfree
    cases hfree
  · intro _
    refine ⟨.granted u, fun y => ?_⟩
    cases y with
    | guard v =>
      by_cases hvt : v = t
      · simp [Owner.owns, hvt]
      · have hno : m.guards v ≠ true := fun hv => hvt (Owner.guard.inj ((hunique (.guard v)).mp hv))
        simp [Owner.owns, hvt, hno]
    | granted v =>
      -- Nobody was granted the mutex while `t` had the guard.
      have hno : m.granted v ≠ true := fun hv => by cases (hunique (.granted v)).mp hv
      rw [Owner.owns, granted_pop hqueue hu (h.parked u (by simp [hqueue]))]
      by_cases hvu : v = u
      · simp [hvu]
      · simp [hvu, hno]

theorem Sound.release (h : m.Sound) (hguard : m.guards t = true) (hqueue : m.waitQueue = []) :
    Sound { m with guards := Function.update m.guards t false, isLocked := false } := by
  obtain ⟨-, hunique⟩ := h.unique (x := .guard t) hguard
  refine ⟨h.parked, fun _ => ⟨fun x => ?_, hqueue⟩, fun hheld => by cases hheld⟩
  cases x with
  | guard v =>
    by_cases hvt : v = t
    · simp [Owner.owns, hvt]
    · have hno : m.guards v ≠ true := fun hv => hvt (Owner.guard.inj ((hunique (.guard v)).mp hv))
      simpa [Owner.owns, hvt] using hno
  | granted v =>
    exact Bool.eq_false_iff.mpr fun hv => by cases (hunique (.granted v)).mp hv

/-! ### What an operation does -/

/-- What an operation does with the waiters of the mutex. -/
inductive Event (τ : Type*) where
  /-- The task itself is pushed to the queue. -/
  | park
  /-- `u` is popped from the queue. -/
  | grant (u : τ)
  /-- The task takes the mutex that was granted to it. -/
  | resume

/-- What the operation `op` of the task `t` at `k` does with the waiters. -/
def event (m : LocalMutex τ) (t : τ) : Place → Op → Option (Event τ)
  | .poll, .go =>
    match m.waiting t with
    | none => none
    | some .lock => some .resume
    | some (.condVar .wake) => if m.isLocked then some .park else none
    | some (.condVar .lock) => some .resume
  | .user, .lock => if m.isLocked then some .park else none
  | .user, .subscribe => some .park
  | .user, .unlock => m.waitQueue.head?.map .grant
  | .user, .wait => m.waitQueue.head?.map .grant
  | _, _ => none

/-- What the operation of `t` at `k` does, together with what it does with the waiters. -/
inductive Effect (m : LocalMutex τ) (t : τ) (k : Place) :
    Option (Event τ) → LocalMutex τ → Outcome τ Place → Prop
  | stay {k' : Place} (hk : k = .poll → m.waiting t = none) : Effect m t k none m (.goto k')
  | acquire (hfree : m.isLocked = false) (hk : k = .poll → m.awaitsLock t = false) :
    Effect m t k none ({ m with isLocked := true }.takeGuard t) (.goto .user)
  | resume (hwaits : m.awaitsLock t = true) :
    Effect m t k (some .resume) (m.takeGuard t) (.goto .user)
  | park {w : Waiting} (hw : w.forLock = true) (hlocked : m.isLocked = true)
    (hk : k = .poll → m.awaitsLock t = false) :
    Effect m t k (some .park) (m.push t w) .returned
  | sleep (hk : k ≠ .poll) : Effect m t k none (m.sleep t).1 .returned
  | notify {u : τ} {rest : List τ} {k' : Place} (hk : k ≠ .poll)
    (hqueue : m.condQueue = u :: rest) :
    Effect m t k none { m with condQueue := rest } (.execTask u k')
  | handOff {u : τ} {rest : List τ} {k' : Place} (hk : k ≠ .poll) (hguard : m.guards t = true)
    (hqueue : m.waitQueue = u :: rest) :
    Effect m t k (some (.grant u))
      { m with guards := Function.update m.guards t false, waitQueue := rest } (.execTask u k')
  | release {k' : Place} (hk : k ≠ .poll) (hguard : m.guards t = true)
    (hqueue : m.waitQueue = []) :
    Effect m t k none
      { m with guards := Function.update m.guards t false, isLocked := false } (.goto k')

theorem effect_of_poll (m : LocalMutex τ) (t : τ) :
    Effect m t .poll (m.event t .poll .go) (m.poll t).1 (m.poll t).2 := by
  unfold event poll
  cases hwaiting : m.waiting t with
  | none => exact .stay fun _ => hwaiting
  | some w =>
    cases w with
    | lock => exact .resume (by simp [awaitsLock, hwaiting, Waiting.forLock])
    | condVar state =>
      cases state with
      | lock => exact .resume (by simp [awaitsLock, hwaiting, Waiting.forLock])
      | wake =>
        have hno : m.awaitsLock t = false := by simp [awaitsLock, hwaiting, Waiting.forLock]
        cases hlocked : m.isLocked with
        | true => exact .park rfl hlocked fun _ => hno
        | false => exact .acquire hlocked fun _ => hno

theorem effect_of_unlock (k' : Place) (hguard : m.guards t = true) :
    Effect m t .user (m.waitQueue.head?.map .grant) (m.unlock t k').1 (m.unlock t k').2 := by
  unfold unlock
  cases hqueue : m.waitQueue with
  | nil =>
    have heffect : Effect m t .user none _ (.goto k') := .release Place.noConfusion hguard hqueue
    rwa [hqueue] at heffect
  | cons u rest =>
    simp only [List.head?_cons, Option.map_some]
    exact .handOff Place.noConfusion hguard hqueue

theorem effect_of_notify (m : LocalMutex τ) (t : τ) (k' : Place) (hk : k ≠ .poll) :
    Effect m t k none (m.notify k').1 (m.notify k').2 := by
  unfold notify
  cases hqueue : m.condQueue with
  | nil => exact .stay fun hpoll => absurd hpoll hk
  | cons u rest => exact .notify hk hqueue

theorem effect_of_lock (m : LocalMutex τ) (t : τ) :
    Effect m t .user (m.event t .user .lock) (m.lock t).1 (m.lock t).2 := by
  unfold event lock
  cases hlocked : m.isLocked with
  | true => exact .park rfl hlocked Place.noConfusion
  | false => exact .acquire hlocked Place.noConfusion

theorem effect_of_tryLock (m : LocalMutex τ) (t : τ) :
    Effect m t .user none (m.tryLock t).1 (m.tryLock t).2 := by
  unfold tryLock
  cases hlocked : m.isLocked with
  | true => exact .stay Place.noConfusion
  | false => exact .acquire hlocked Place.noConfusion

/-- **What an operation can do**, if `subscribe` is only called while the mutex is locked. -/
theorem effect_of_code {op : Op} (hsubscribe : op = .subscribe → m.isLocked = true)
    (h : m.code t k op = some (m', o)) : Effect m t k (m.event t k op) m' o := by
  unfold code at h
  split at h
  · obtain ⟨rfl, rfl⟩ := of_some h
    exact effect_of_poll m t
  · obtain ⟨rfl, rfl⟩ := of_some h
    exact .sleep Place.noConfusion
  · obtain ⟨rfl, rfl⟩ := of_some h
    exact effect_of_notify m t .notifyAll Place.noConfusion
  · obtain ⟨rfl, rfl⟩ := of_some h
    exact effect_of_lock m t
  · obtain ⟨rfl, rfl⟩ := of_some h
    exact effect_of_tryLock m t
  · split at h
    case isTrue hguard =>
      obtain ⟨rfl, rfl⟩ := of_some h
      exact effect_of_unlock .user hguard
    case isFalse => cases h
  · obtain ⟨rfl, rfl⟩ := of_some h
    exact .park rfl (hsubscribe rfl) Place.noConfusion
  · split at h
    case isTrue hguard =>
      obtain ⟨rfl, rfl⟩ := of_some h
      exact effect_of_unlock .sleep hguard
    case isFalse => cases h
  · obtain ⟨rfl, rfl⟩ := of_some h
    exact effect_of_notify m t .user Place.noConfusion
  · obtain ⟨rfl, rfl⟩ := of_some h
    exact .stay Place.noConfusion
  · cases h

/-! ### The ledger -/

/-- How often each task parked, was granted the mutex, and took a grant. -/
structure Ledger (τ : Type*) where
  parkings : τ → ℕ
  grants : τ → ℕ
  resumptions : τ → ℕ

namespace Ledger

/-- The ledger before the first operation. -/
def empty : Ledger τ := ⟨fun _ => 0, fun _ => 0, fun _ => 0⟩

/-- The ledger after an operation of `t`. -/
def add (l : Ledger τ) (t : τ) : Option (Event τ) → Ledger τ
  | none => l
  | some .park => { l with parkings := fun u => l.parkings u + oneAt t u }
  | some (.grant v) => { l with grants := fun u => l.grants u + oneAt v u }
  | some .resume => { l with resumptions := fun u => l.resumptions u + oneAt t u }

/-- Every parking was granted or is still in the queue, and every grant was taken or is open. -/
structure Balanced (l : Ledger τ) (m : LocalMutex τ) : Prop where
  parkings : ∀ u, l.parkings u = l.grants u + m.waitQueue.count u
  grants : ∀ u, l.grants u = l.resumptions u + (m.granted u).toNat

end Ledger

/-- The mutex next to the ledger of its waiters. -/
def recorded : Primitive τ (LocalMutex τ × Ledger τ) Place Op :=
  primitive.record fun m t k op l => l.add t (m.event t k op)

/-- A task past the start of its poll, or one that does not wait for the mutex, has no grant. -/
theorem not_granted (hplace : k ≠ .poll → m.waiting t = none)
    (hk : k = .poll → m.awaitsLock t = false) : m.granted t = false := by
  by_cases hpoll : k = .poll
  · simp [granted, hk hpoll]
  · simp [granted, awaitsLock, hplace hpoll]

theorem notMem_rest (hqueue : m.waitQueue = u :: rest) (hnodup : ∀ u, m.waitQueue.count u ≤ 1) :
    u ∉ rest := by
  have hcount := hnodup u
  rw [hqueue, List.count_cons_self] at hcount
  exact List.count_eq_zero.mp (by omega)

variable {ev : Option (Event τ)}

/-- An operation of `t` keeps the ledger balanced, if `t` is not in the queue and nobody is in it
twice. -/
theorem Effect.balanced {l : Ledger τ} (heffect : Effect m t k ev m' o) (hsound : m.Sound)
    (hplace : k ≠ .poll → m.waiting t = none) (ht : t ∉ m.waitQueue)
    (hnodup : ∀ u, m.waitQueue.count u ≤ 1) (h : l.Balanced m) : (l.add t ev).Balanced m' := by
  -- A task that is not resuming has no grant to lose.
  have hsame (hk : k = .poll → m.awaitsLock t = false) (u : τ) :
      (if u = t then false else m.granted u) = m.granted u := by
    split
    case isTrue hut => rw [hut, not_granted hplace hk]
    case isFalse => rfl
  cases heffect with
  | stay hk => exact h
  | acquire hfree hk =>
    refine ⟨h.parkings, fun u => ?_⟩
    rw [granted_takeGuard]
    exact (h.grants u).trans (congrArg (_ + Bool.toNat ·) (hsame hk u).symm)
  | resume hwaits =>
    refine ⟨h.parkings, fun u => ?_⟩
    have hgrants := h.grants u
    rw [granted_takeGuard]
    simp only [Ledger.add]
    by_cases hut : u = t
    · have hgranted : m.granted t = true := by simp [granted, hwaits, ht]
      rw [hut, hgranted] at hgrants
      simpa [hut] using hgrants
    · simpa [hut, oneAt_of_ne (Ne.symm hut)] using hgrants
  | @park w hw hlocked hk =>
    constructor
    · intro u
      have hparkings := h.parkings u
      simp only [Ledger.add, push, count_cons_eq_oneAt]
      omega
    · intro u
      rw [granted_push]
      exact (h.grants u).trans (congrArg (_ + Bool.toNat ·) (hsame hk u).symm)
  | sleep hk =>
    refine ⟨h.parkings, fun u => ?_⟩
    rw [granted_sleep]
    exact (h.grants u).trans
      (congrArg (_ + Bool.toNat ·) (hsame (fun hpoll => absurd hpoll hk) u).symm)
  | notify | release => exact ⟨h.parkings, h.grants⟩
  | @handOff v rest k' hk hguard hqueue =>
    constructor
    · intro u
      have hparkings := h.parkings u
      rw [hqueue, count_cons_eq_oneAt] at hparkings
      simp only [Ledger.add]
      omega
    · intro u
      have hgrants := h.grants u
      rw [granted_pop hqueue (notMem_rest hqueue hnodup) (hsound.parked v (by simp [hqueue]))]
      simp only [Ledger.add]
      by_cases huv : u = v
      · have hbefore : m.granted v = false := by simp [granted, hqueue]
        rw [huv, hbefore] at hgrants
        simpa [huv] using hgrants
      · simpa [huv, oneAt_of_ne (Ne.symm huv)] using hgrants

/-- An operation of `t` keeps the mutex sound, under the same conditions. -/
theorem Effect.sound (heffect : Effect m t k ev m' o) (h : m.Sound)
    (hplace : k ≠ .poll → m.waiting t = none) (ht : t ∉ m.waitQueue)
    (hnodup : ∀ u, m.waitQueue.count u ≤ 1) : m'.Sound := by
  cases heffect with
  | stay hk => exact h
  | acquire hfree hk =>
    obtain ⟨hnone, hempty⟩ := h.free hfree
    refine Sound.takeGuard h.parked ht rfl fun x hx => ?_
    have hxm : x.owns m = true := by cases x <;> exact hx
    rw [hnone x] at hxm
    cases hxm
  | resume hwaits =>
    have hgranted : m.granted t = true := by simp [granted, hwaits, ht]
    obtain ⟨hlocked, hunique⟩ := h.unique (x := .granted t) hgranted
    exact Sound.takeGuard h.parked ht hlocked fun x hx => (hunique x).mp hx
  | park hw hlocked hk => exact h.push hw (not_granted hplace hk) hlocked
  | sleep hk =>
    refine h.congr rfl rfl rfl fun u => ?_
    by_cases hut : u = t
    · simp [awaitsLock, LocalMutex.sleep, Waiting.forLock, hut, hplace hk]
    · simp [awaitsLock, LocalMutex.sleep, hut]
  | notify hk hqueue => exact h.congr rfl rfl rfl fun _ => rfl
  | handOff hk hguard hqueue => exact h.handOff hguard hqueue (notMem_rest hqueue hnodup)
  | release hk hguard hqueue => exact h.release hguard hqueue

/-- The outline of the proof: a task whose code is past the start of its poll awaits nothing. -/
def outline : Outline τ (LocalMutex τ × Ledger τ) Place where
  memory s := s.1.Sound ∧ s.2.Balanced s.1
  place s t k := k ≠ .poll → s.1.waiting t = none
  due _ := 0
  debt _ := 0

theorem Effect.waiting_of_ne (heffect : Effect m t k ev m' o) (hut : u ≠ t) :
    m'.waiting u = m.waiting u := by
  cases heffect <;> simp [takeGuard, push, LocalMutex.sleep, hut]

theorem Effect.waiting_self (heffect : Effect m t k ev m' o)
    (hplace : k ≠ .poll → m.waiting t = none) {k' : Place} (hk' : k' ∈ o.place) :
    m'.waiting t = none := by
  cases heffect with
  | stay hk =>
    by_cases hpoll : k = .poll
    · exact hk hpoll
    · exact hplace hpoll
  | acquire | resume => simp [takeGuard]
  | park | sleep => cases hk'
  | notify hk | handOff hk | release hk => exact hplace hk

/-- `subscribe` is called only while the mutex is locked.  `LocalCondVar` calls it directly after a
`try_lock` that failed, which is such a state. -/
def SubscribesLocked (m : LocalMutex τ) (_ : τ) (_ : Place) (op : Op) : Prop :=
  op = .subscribe → m.isLocked = true

instance (m : LocalMutex τ) (t : τ) (k : Place) (op : Op) :
    Decidable (SubscribesLocked m t k op) :=
  inferInstanceAs (Decidable (op = .subscribe → m.isLocked = true))

/-- The runs of the mutex with its ledger. -/
def Runs (e : Executor τ (World τ (LocalMutex τ × Ledger τ)) Place) : Prop :=
  Reach (Executor.step recorded.program)
    (Primitive.OpMeets fun s t k op => SubscribesLocked s.1 t k op)
    (Primitive.init (new, Ledger.empty)) e

theorem new_sound : (new : LocalMutex τ).Sound := by
  refine ⟨fun t ht => ?_, fun _ => ⟨fun x => ?_, rfl⟩, fun hheld => ?_⟩
  · cases ht
  · cases x <;> rfl
  · cases hheld

theorem outline_holds {e : Executor τ (World τ (LocalMutex τ × Ledger τ)) Place} (h : Runs e) :
    (Custody.worldOutline outline).Holds e := by
  refine (custody.record _).outline outline (fun _ => rfl) ⟨new_sound, ?_⟩ rfl
    (fun _ _ hk => absurd rfl hk) rfl (fun _ _ => rfl) ?_ h
  · exact ⟨fun _ => rfl, fun _ => rfl⟩
  · rintro ⟨m, l⟩ t k op ⟨m', l'⟩ o hsub ⟨hsound, hbalanced⟩ hplace - hle hzero hcode
    obtain ⟨hcode, rfl⟩ := Primitive.code_of_record hcode
    have heffect := effect_of_code hsub hcode
    have ht : t ∉ m.waitQueue := List.count_eq_zero.mp (Nat.eq_zero_of_add_eq_zero_right hzero)
    have hnodup (u : τ) : m.waitQueue.count u ≤ 1 := Nat.le_trans (Nat.le_add_right _ _) (hle u)
    refine ⟨⟨heffect.sound hsound hplace ht hnodup,
      heffect.balanced hsound hplace ht hnodup hbalanced⟩, ?_, ?_, ?_⟩
    · exact fun k' hk' _ => heffect.waiting_self hplace hk'
    · exact fun u k' hut hu hk' => (heffect.waiting_of_ne hut).trans (hu hk')
    · cases o.place <;> rfl

/-- **A mutex has at most one owner**, a live guard or a waiter that is popped and not yet resumed,
and it is locked exactly if it has one; nobody waits at an unlocked mutex; and every task is
granted the mutex once for each time it parked, but for the parking that is still in the queue:
what is granted is taken once. -/
theorem one_owner {e : Executor τ (World τ (LocalMutex τ × Ledger τ)) Place} (h : Runs e) :
    e.state.memory.1.owners.encard ≤ 1 ∧
    (e.state.memory.1.isLocked = true ↔ e.state.memory.1.owners.encard = 1) ∧
    (e.state.memory.1.isLocked = false → e.state.memory.1.waitQueue = []) ∧
    ∀ t, e.state.memory.1.waitQueue.count t ≤ 1 ∧
      e.state.memory.2.parkings t =
        e.state.memory.2.grants t + e.state.memory.1.waitQueue.count t ∧
      e.state.memory.2.grants t =
        e.state.memory.2.resumptions t + (e.state.memory.1.granted t).toNat := by
  obtain ⟨⟨hsound, hbalanced⟩, -, -⟩ := outline_holds h
  refine ⟨?_, ?_, fun hfree => (hsound.free hfree).2, fun t => ⟨?_, hbalanced.parkings t,
    hbalanced.grants t⟩⟩
  · exact hsound.encard_owners.1
  · exact hsound.encard_owners.2
  · have hle := (custody.record _).holds_le_one (fun _ => rfl) h.reachable t
    exact Nat.le_trans (Nat.le_add_right _ _) hle

/-- `t` has the mutex and yields, `u` is parked at it, and `t` unlocks: `u` runs nested. -/
def nestInUnlock (t u : τ) : List (Move τ (TaskOp τ Op)) :=
  [.wake t, .code (.op .go), .code (.op .lock), .code .yieldNow,
    .wake u, .code (.op .go), .code (.op .tryLock), .code (.op .subscribe),
    .popBack, .code (.op .go), .code (.op .unlock)]

/-- Task 0 is inside `unlock`, and task 1, which subscribed after a failed `try_lock`, is popped and
not yet resumed: the mutex is locked, and nobody has a guard. -/
theorem one_owner_nested :
    ∃ e : Executor (Fin 2) (World (Fin 2) (LocalMutex (Fin 2) × Ledger (Fin 2))) Place,
      Runs e ∧ e.stack = [(1, .poll), (0, .user)] ∧ e.state.memory.1.isLocked = true ∧
      e.state.memory.1.granted 1 = true ∧ e.state.memory.1.owners.encard = 1 := by
  refine ⟨_, reach_of_execWhere (nestInUnlock 0 1) rfl, rfl, rfl, rfl, ?_⟩
  exact (one_owner (reach_of_execWhere (nestInUnlock 0 1) rfl)).2.1.mp rfl

end LocalMutex

end Orengine.Sync
