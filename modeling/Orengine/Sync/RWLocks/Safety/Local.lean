import Orengine.Sync.RWLocks.Local
import Mathlib.Data.Set.Card

/-!
# Safety of `LocalRWLock`

A task that a release lets in is counted before it runs: `read_unlock` and `write_unlock` set
`number_of_readers` for the tasks that they pop, and `write_unlock` even for readers that are still
in the queue, which it pops one by one while those in front of them run.  So the invariant `Sound`
counts as `holders` the guards and the tasks that are popped and not resumed, and the readers that
are still in the queue while the lock is not locked for writing.

That the latter are just those that the loops in progress have yet to pop is the last part of the
outline: `due` is their number by the memory, `debt` the one by the place of each loop.
-/

namespace Orengine.Sync

open Lib Orengine.Runtime

namespace LocalRWLock

variable {τ : Type*} [DecidableEq τ]

/-! ### Places -/

/-- The places of a task in the memory. -/
def holds (l : LocalRWLock τ) (u : τ) : ℕ := l.waitQueueRead.count u + l.waitQueueWrite.count u

/-- The places of `u` that an operation of `t` leaves, in the memory and with the executor. -/
def left (t u : τ) (r : LocalRWLock τ × Outcome τ Place) : ℕ :=
  holds r.1 u + r.2.places (fun _ _ => 0) t u

theorem left_push (t u : τ) (l : LocalRWLock τ) (kind : Kind) :
    left t u (l.push t kind, .returned) = holds l u + oneAt t u := by
  cases kind <;> simp only [left, holds, push, Outcome.places, count_cons_eq_oneAt] <;> omega

variable {l l' : LocalRWLock τ} {t : τ} {kind : Kind}

theorem left_goto (t u : τ) (hread : l'.waitQueueRead = l.waitQueueRead)
    (hwrite : l'.waitQueueWrite = l.waitQueueWrite) (k : Place) :
    left t u (l', .goto k) = holds l u + oneAt t u := by
  simp only [left, holds, Outcome.places, hread, hwrite, Nat.zero_add]

theorem left_popWrite (t u : τ) {v : τ} {rest : List τ} (hqueue : l.waitQueueWrite = v :: rest)
    (hread : l'.waitQueueRead = l.waitQueueRead) (hwrite : l'.waitQueueWrite = rest) (k : Place) :
    left t u (l', .execTask v k) = holds l u + oneAt t u := by
  simp only [left, holds, Outcome.places, hread, hwrite, hqueue, count_cons_eq_oneAt]
  omega

theorem left_wakeWriter (t u : τ) (l : LocalRWLock τ) :
    left t u l.wakeWriter = holds l u + oneAt t u := by
  unfold wakeWriter
  split
  case h_1 v rest hqueue => refine left_popWrite t u hqueue ?_ ?_ .user <;> rfl
  case h_2 => exact left_goto t u rfl rfl .user

theorem left_readUnlock (t u : τ) (l : LocalRWLock τ) :
    left t u (l.readUnlock t) = holds l u + oneAt t u := by
  unfold readUnlock
  dsimp only
  split
  · exact left_wakeWriter t u _
  · exact left_goto t u rfl rfl .user

theorem left_writeUnlock (t u : τ) (l : LocalRWLock τ) :
    left t u (l.writeUnlock t) = holds l u + oneAt t u := by
  unfold writeUnlock wakeNext
  split
  case h_1 => exact left_goto t u rfl rfl _
  case h_2 v rest hqueue =>
    refine left_popWrite (l := l.leaveWrite t) t u hqueue ?_ ?_ .user <;> rfl

theorem left_wakeReaders (t u : τ) (l : LocalRWLock τ) (readersCount : ℕ) :
    left t u (l.wakeReaders readersCount) = holds l u + oneAt t u := by
  unfold wakeReaders
  split
  · exact left_goto t u rfl rfl .user
  · split
    case h_2 => exact left_goto t u rfl rfl _
    case h_1 v rest hqueue =>
      simp only [left, holds, Outcome.places, hqueue, count_cons_eq_oneAt]
      omega

theorem left_poll (t u : τ) (l : LocalRWLock τ) : left t u (l.poll t) = holds l u + oneAt t u := by
  unfold poll
  split
  · exact left_goto t u rfl rfl .user
  case h_2 kind _ => cases kind <;> exact left_goto t u rfl rfl .user

/-- The four ways to ask for the lock: it is taken, or the task parks or goes on. -/
theorem left_lock (t u : τ) (l l' : LocalRWLock τ) {c : Prop} [Decidable c]
    (hread : l'.waitQueueRead = l.waitQueueRead) (hwrite : l'.waitQueueWrite = l.waitQueueWrite)
    {r : LocalRWLock τ × Outcome τ Place} (hr : left t u r = holds l u + oneAt t u) :
    left t u (if c then (l', .goto .user) else r) = holds l u + oneAt t u := by
  split
  · exact left_goto t u hread hwrite .user
  · exact hr

theorem left_code {k : Place} {op : Op τ} {o : Outcome τ Place} (h : l.code t k op = some (l', o))
    (u : τ) : left t u (l', o) = holds l u + oneAt t u := by
  unfold code at h
  split at h
  · exact Option.some.inj h ▸ left_poll t u l
  · exact Option.some.inj h ▸ left_wakeReaders t u l _
  · exact Option.some.inj h ▸ left_lock t u l (l.lockWrite t) rfl rfl (left_push t u l .write)
  · exact Option.some.inj h ▸ left_lock t u l (l.lockRead t) rfl rfl (left_push t u l .read)
  · exact Option.some.inj h ▸ left_lock t u l (l.lockWrite t) rfl rfl (left_goto t u rfl rfl _)
  · exact Option.some.inj h ▸ left_lock t u l (l.lockRead t) rfl rfl (left_goto t u rfl rfl _)
  · rw [Option.ite_none_right_eq_some] at h
    exact Option.some.inj h.2 ▸ left_readUnlock t u l
  · rw [Option.ite_none_right_eq_some] at h
    exact Option.some.inj h.2 ▸ left_writeUnlock t u l
  case h_9 kind v =>
    rw [Option.ite_none_right_eq_some] at h
    rw [← Option.some.inj h.2]
    cases kind <;> exact left_goto t u rfl rfl .user
  · cases h

/-- The places of the tasks that use the lock. -/
def custody : Custody (primitive (τ := τ)) := .ofMemory holds left_code

/-! ### Holders -/

/-- The wait queue for one kind of lock. -/
def queue (l : LocalRWLock τ) : Kind → List τ
  | .read => l.waitQueueRead
  | .write => l.waitQueueWrite

/-- The tasks that are popped from a queue and not yet resumed. -/
def granted (l : LocalRWLock τ) (kind : Kind) : Set τ :=
  {t | l.waiting t = some kind ∧ t ∉ l.queue kind}

/-- The number of tasks that hold the lock or have been granted it: the guards and the tasks that
are popped and not yet resumed. -/
noncomputable def holders (l : LocalRWLock τ) (kind : Kind) : ℕ∞ :=
  (l.guards kind).length + (l.granted kind).encard

omit [DecidableEq τ] in
theorem granted_congr (hwaiting : l'.waiting = l.waiting) (hqueue : l'.queue kind = l.queue kind) :
    l'.granted kind = l.granted kind := by
  simp only [granted, hwaiting, hqueue]

theorem Kind.forall_ne_read {P : Kind → Prop} (h : P .write) (kind : Kind) (hne : kind ≠ .read) :
    P kind := by
  cases kind with
  | read => exact absurd rfl hne
  | write => exact h

theorem Kind.forall_ne_write {P : Kind → Prop} (h : P .read) (kind : Kind) (hne : kind ≠ .write) :
    P kind := by
  cases kind with
  | read => exact h
  | write => exact absurd rfl hne

omit [DecidableEq τ] in
theorem queue_congr (hread : l'.queue .read = l.queue .read)
    (hwrite : l'.queue .write = l.queue .write) : l'.queue = l.queue := by
  funext kind
  cases kind with
  | read => exact hread
  | write => exact hwrite

omit [DecidableEq τ] in
theorem holders_newGuard (l : LocalRWLock τ) (t : τ) (kind kind' : Kind) :
    (l.newGuard t kind).holders kind' = l.holders kind' + if kind' = kind then 1 else 0 := by
  have hgranted : (l.newGuard t kind).granted kind' = l.granted kind' := by
    apply granted_congr <;> cases kind <;> rfl
  unfold holders
  rw [hgranted]
  cases kind <;> cases kind' <;> simp [newGuard, guards, add_right_comm]

theorem holders_push (ht : l.waiting t = none) (kind kind' : Kind) :
    (l.push t kind).holders kind' = l.holders kind' := by
  have hgranted : (l.push t kind).granted kind' = l.granted kind' := by
    ext u
    by_cases hut : u = t
    · cases kind <;> cases kind' <;> simp [granted, push, queue, hut, ht]
    · cases kind <;> cases kind' <;> simp [granted, push, queue, hut]
  unfold holders
  rw [hgranted]
  cases kind <;> cases kind' <;> rfl

theorem granted_wake (l : LocalRWLock τ) (t : τ) (kind : Kind) :
    (l.wake t).granted kind = l.granted kind \ {t} := by
  ext u
  by_cases hut : u = t
  · simp [granted, wake, hut]
  · cases kind <;> simp [granted, wake, queue, hut]

theorem holders_resume (ht : l.waiting t = some kind) (hqueue : t ∉ l.queue kind) (kind' : Kind) :
    ((l.wake t).newGuard t kind).holders kind' = l.holders kind' := by
  have hguards : (l.wake t).guards kind' = l.guards kind' := by cases kind' <;> rfl
  rw [holders_newGuard, holders, holders, granted_wake, hguards]
  by_cases hkind : kind' = kind
  · have hmem : t ∈ l.granted kind' := by
      rw [hkind]
      exact ⟨ht, hqueue⟩
    rw [if_pos hkind, add_assoc, Set.encard_sdiff_singleton_add_one hmem]
  · have hnot : t ∉ l.granted kind' := fun hmem =>
      hkind (Option.some.inj (hmem.1.symm.trans ht))
    rw [if_neg hkind, Set.sdiff_singleton_eq_self hnot, add_zero]

omit [DecidableEq τ] in
theorem holders_pop {u : τ} {rest : List τ} (l' : LocalRWLock τ) (kind : Kind)
    (hqueue : l.queue kind = u :: rest) (hu : u ∉ rest) (hwaits : l.waiting u = some kind)
    (hguards : l'.guards = l.guards) (hwaiting : l'.waiting = l.waiting)
    (hpop : l'.queue kind = rest) (hother : ∀ j ≠ kind, l'.queue j = l.queue j) (kind' : Kind) :
    l'.holders kind' = l.holders kind' + if kind' = kind then 1 else 0 := by
  rw [holders, holders, hguards]
  by_cases hkind : kind' = kind
  · have hinsert : l'.granted kind' = insert u (l.granted kind') := by
      ext v
      by_cases hvu : v = u
      · simp [granted, hkind, hwaiting, hpop, hvu, hu, hwaits]
      · simp [granted, hkind, hwaiting, hpop, hqueue, hvu]
    have hnot : u ∉ l.granted kind' := by simp [granted, hkind, hqueue]
    rw [if_pos hkind, hinsert, Set.encard_insert_of_notMem hnot, add_assoc]
  · rw [if_neg hkind, granted_congr hwaiting (hother kind' hkind), add_zero]

theorem holders_erase (l' : LocalRWLock τ) (ht : t ∈ l.guards kind)
    (hguards : l'.guards kind = (l.guards kind).erase t)
    (hother : ∀ j ≠ kind, l'.guards j = l.guards j) (hwaiting : l'.waiting = l.waiting)
    (hqueue : l'.queue = l.queue) (kind' : Kind) :
    l'.holders kind' + (if kind' = kind then 1 else 0) = l.holders kind' := by
  rw [holders, holders, granted_congr hwaiting (by rw [hqueue])]
  by_cases hkind : kind' = kind
  · rw [if_pos hkind, hkind, hguards, add_right_comm]
    rw [← Nat.cast_one, ← Nat.cast_add, List.length_erase_add_one ht]
  · rw [if_neg hkind, hother kind' hkind, add_zero]

theorem holders_give {u : τ} (ht : t ∈ l.guards kind) (kind' : Kind) :
    (l.give t u kind).holders kind' = l.holders kind' := by
  have hlength : ((l.give t u kind).guards kind').length = (l.guards kind').length := by
    cases kind <;> cases kind' <;> simp only [give, guards, List.length_cons] <;>
      exact List.length_erase_add_one ht
  rw [holders, holders, hlength, granted_congr]
  · cases kind <;> rfl
  · cases kind <;> rfl

/-! ### The invariant -/

structure Sound (l : LocalRWLock τ) : Prop where
  parked : ∀ kind, ∀ t ∈ l.queue kind, l.waiting t = some kind
  /-- No writer waits for a free lock. -/
  quiet : l.numberOfReaders = 0 → l.waitQueueWrite = []
  not_panicked : l.panicked = false
  not_missed : l.missed = false
  /-- Either a writer has the lock, or some readers do, and those still in the queue are among
  them. -/
  counts : ∃ r w : ℕ, l.holders .read = r ∧ l.holders .write = w ∧
    ((l.numberOfReaders = -1 ∧ w = 1 ∧ r = 0) ∨
      (l.numberOfReaders = (r + l.waitQueueRead.length : ℕ) ∧ w = 0))

/-- The readers that `write_unlock` has counted and still has to pop. -/
def reserved (l : LocalRWLock τ) : ℕ :=
  if l.numberOfReaders = -1 then 0 else l.waitQueueRead.length

omit [DecidableEq τ] in
theorem reserved_of_ne (h : l.numberOfReaders ≠ -1) :
    l.reserved = l.waitQueueRead.length := if_neg h

omit [DecidableEq τ] in
theorem reserved_of_writing (h : l.numberOfReaders = -1) : l.reserved = 0 :=
  if_pos h

/-- The readers that a loop at this place still has to pop. -/
def Place.readersCount : Place → ℕ
  | .poll => 0
  | .user => 0
  | .wakeReaders readersCount => readersCount

/-- The outline of the proof: a task whose code is past the start of its poll awaits nothing, and
the loops in progress have to pop just the reserved readers. -/
def outline : Outline τ (LocalRWLock τ) Place where
  memory := Sound
  place l t k := k ≠ .poll → l.waiting t = none
  due := reserved
  debt := Place.readersCount

/-- The state in which the code of `t` at `k` runs. -/
structure Ready (l : LocalRWLock τ) (t : τ) (k : Place) : Prop where
  sound : l.Sound
  waiting : k ≠ .poll → l.waiting t = none
  notMem : ∀ kind, t ∉ l.queue kind
  nodup : ∀ kind u, (l.queue kind).count u ≤ 1
  debt : k.readersCount ≤ l.reserved

section Keeps

variable {l : LocalRWLock τ} {t : τ} {k : Place}

theorem Ready.notMem_rest (h : Ready l t k) (kind : Kind) {u : τ} {rest : List τ}
    (hqueue : l.queue kind = u :: rest) : u ∉ rest := by
  have hcount := h.nodup kind u
  rw [hqueue, List.count_cons_self] at hcount
  exact List.count_eq_zero.mp (by omega)

/-- Holders that were counted with one that is gone. -/
theorem exists_of_add_one_eq {a : ℕ∞} {n : ℕ} (h : a + 1 = n) : ∃ m : ℕ, n = m + 1 ∧ a = m := by
  have hne : a ≠ ⊤ := by
    rintro rfl
    rw [top_add] at h
    exact ENat.top_ne_natCast n h
  obtain ⟨m, rfl⟩ := ENat.ne_top_iff_exists.mp hne
  exact ⟨m, by exact_mod_cast h.symm, rfl⟩

variable {l' : LocalRWLock τ}

omit [DecidableEq τ] in
theorem keeps_of {o : Outcome τ Place} (hsound : l'.Sound)
    (hself : ∀ k' ∈ o.place, l'.waiting t = none) (hothers : ∀ u ≠ t, l'.waiting u = l.waiting u)
    (hdue : l'.reserved + k.readersCount = l.reserved + o.place.elim 0 Place.readersCount) :
    outline.Keeps l t k l' o :=
  ⟨hsound, fun k' hk' _ => hself k' hk', fun u _ hut hu hk' => (hothers u hut).trans (hu hk'), hdue⟩

theorem keeps_stay (h : Ready l t k) (hk : k = .poll → l.waiting t = none) {k' : Place}
    (hdebt : k'.readersCount = k.readersCount) : outline.Keeps l t k l (.goto k') := by
  refine keeps_of h.sound (fun _ _ => ?_) (fun _ _ => rfl) ?_
  · by_cases hpoll : k = .poll
    · exact hk hpoll
    · exact h.waiting hpoll
  · exact congrArg (l.reserved + ·) hdebt.symm

theorem Ready.waiting_user (h : Ready l t .user) : l.waiting t = none := h.waiting (by simp)

theorem keeps_lockWrite (h : Ready l t .user) (hnumber : l.numberOfReaders = 0) :
    outline.Keeps l t .user (l.lockWrite t) (.goto .user) := by
  obtain ⟨r, w, hr, hw, hcounts⟩ := h.sound.counts
  have hempty : l.waitQueueRead = [] := List.eq_nil_of_length_eq_zero (by omega)
  refine keeps_of ⟨h.sound.parked, ?_, ?_, h.sound.not_missed, 0, 1, ?_, ?_, Or.inl ?_⟩
    (fun _ _ => h.waiting_user) (fun _ _ => rfl) ?_
  · intro hzero
    cases hzero
  · simp [lockWrite, newGuard, debugAssert, hempty, h.sound.not_panicked]
  · have hzero : r = 0 := by omega
    rw [hzero] at hr
    rw [lockWrite, holders_newGuard, if_neg (by simp), add_zero]
    exact hr
  · have hzero : w = 0 := by omega
    rw [hzero] at hw
    rw [lockWrite, holders_newGuard, if_pos rfl]
    exact congrArg (· + 1) hw
  · exact ⟨rfl, rfl, rfl⟩
  · simp only [reserved, hnumber, hempty]
    rfl

theorem keeps_lockRead (h : Ready l t .user) (hnumber : l.numberOfReaders > -1) :
    outline.Keeps l t .user (l.lockRead t) (.goto .user) := by
  obtain ⟨r, w, hr, hw, hcounts⟩ := h.sound.counts
  refine keeps_of ⟨h.sound.parked, ?_, h.sound.not_panicked, h.sound.not_missed, r + 1, w, ?_, ?_,
    Or.inr ?_⟩ (fun _ _ => h.waiting_user) (fun _ _ => rfl) ?_
  · intro (hzero : l.numberOfReaders + 1 = 0)
    omega
  · rw [lockRead, holders_newGuard, if_pos rfl]
    exact congrArg (· + 1) hr
  · rw [lockRead, holders_newGuard, if_neg (by simp), add_zero]
    exact hw
  · have hwaits : (l.lockRead t).waitQueueRead = l.waitQueueRead := rfl
    have hplus : (l.lockRead t).numberOfReaders = l.numberOfReaders + 1 := rfl
    rw [hwaits, hplus]
    omega
  · have hne : l.numberOfReaders ≠ -1 := by omega
    have hne' : l.numberOfReaders + 1 ≠ -1 := by omega
    simp only [reserved, lockRead, newGuard, hne, hne']
    rfl

/-- A reader parks at a lock that is locked for writing, a writer at any that is not free. -/
theorem keeps_push (h : Ready l t .user) (kind : Kind)
    (hread : kind = .read → l.numberOfReaders = -1)
    (hwrite : kind = .write → l.numberOfReaders ≠ 0) :
    outline.Keeps l t .user (l.push t kind) .returned := by
  obtain ⟨r, w, hr, hw, hcounts⟩ := h.sound.counts
  have hnumber : (l.push t kind).numberOfReaders = l.numberOfReaders := by cases kind <;> rfl
  refine keeps_of ⟨?_, ?_, ?_, ?_, r, w, ?_, ?_, ?_⟩ (fun _ hk' => by cases hk') ?_ ?_
  · intro kind' u hu
    by_cases hut : u = t
    · -- The task itself is in the queue that it was pushed to, and in no other.
      have hno := h.notMem kind'
      cases kind <;> cases kind' <;> simp_all [push, queue]
    · have hwaits := h.sound.parked kind' u
      cases kind <;> cases kind' <;> simp_all [push, queue]
  · rw [hnumber]
    intro hzero
    cases kind with
    | read => exact h.sound.quiet hzero
    | write => exact absurd hzero (hwrite rfl)
  · cases kind <;> exact h.sound.not_panicked
  · cases kind <;> exact h.sound.not_missed
  · rw [holders_push h.waiting_user, hr]
  · rw [holders_push h.waiting_user, hw]
  · rw [hnumber]
    cases kind with
    | read => exact Or.inl (by have hneg := hread rfl; omega)
    | write => exact hcounts
  · intro u hut
    cases kind <;> simp [push, hut]
  · cases kind with
    | read => simp [reserved, hnumber, hread rfl, Place.readersCount, Outcome.place]
    | write => rfl

omit [DecidableEq τ] in
theorem sound_popWrite (l₁ : LocalRWLock τ) {u : τ} {rest : List τ}
    (hparked : ∀ kind, ∀ v ∈ l₁.queue kind, l₁.waiting v = some kind)
    (hread : l₁.holders .read = 0) (hwrite : l₁.holders .write = 0)
    (hqueue : l₁.queue .write = u :: rest) (hu : u ∉ rest) (hguards : l'.guards = l₁.guards)
    (hwaiting : l'.waiting = l₁.waiting) (hreads : l'.queue .read = l₁.queue .read)
    (hrest : l'.queue .write = rest) (hnumber : l'.numberOfReaders = -1)
    (hpanicked : l'.panicked = false) (hmissed : l'.missed = false) : l'.Sound := by
  have hholders := holders_pop l' .write hqueue hu (hparked .write u (by simp [hqueue])) hguards
    hwaiting hrest (Kind.forall_ne_write hreads)
  refine ⟨?_, ?_, hpanicked, hmissed, 0, 1, ?_, ?_, Or.inl ⟨hnumber, rfl, rfl⟩⟩
  · intro kind v hv
    rw [hwaiting]
    cases kind with
    | read => exact hparked .read v (hreads ▸ hv)
    | write =>
      refine hparked .write v ?_
      rw [hqueue]
      exact List.mem_cons_of_mem u (hrest ▸ hv)
  · intro hzero
    rw [hnumber] at hzero
    cases hzero
  · rw [hholders, if_neg (by simp), hread]
    rfl
  · rw [hholders, if_pos rfl, hwrite]
    rfl

theorem Ready.leaveRead (h : Ready l t .user) (ht : t ∈ l.guards .read) :
    ∃ r : ℕ, l.numberOfReaders = (r + 1 + l.waitQueueRead.length : ℕ) ∧
      (l.leaveRead t).panicked = false ∧ (l.leaveRead t).holders .read = r ∧
      (l.leaveRead t).holders .write = 0 := by
  obtain ⟨r, w, hr, hw, hcounts⟩ := h.sound.counts
  have herase := holders_erase (l.leaveRead t) ht rfl (Kind.forall_ne_read rfl) rfl
    (queue_congr rfl rfl)
  have hread := herase .read
  have hwrite := herase .write
  rw [if_pos rfl, hr] at hread
  rw [if_neg (by simp), add_zero, hw] at hwrite
  obtain ⟨m, rfl, hm⟩ := exists_of_add_one_eq hread
  have hnumber : l.numberOfReaders = (m + 1 + l.waitQueueRead.length : ℕ) := by omega
  have hzero : w = 0 := by omega
  refine ⟨m, hnumber, ?_, hm, ?_⟩
  · have hneg : l.numberOfReaders ≠ -1 := by omega
    have hpos : l.numberOfReaders ≠ 0 := by omega
    simp [LocalRWLock.leaveRead, debugAssert, h.sound.not_panicked, hneg, hpos]
  · rw [hwrite, hzero]
    rfl

/-- The last reader of a lock without reserved readers lets a writer in. -/
theorem keeps_readUnlock (h : Ready l t .user) (ht : t ∈ l.guards .read) :
    outline.Keeps l t .user (l.readUnlock t).1 (l.readUnlock t).2 := by
  obtain ⟨r, hnumber, hpanicked, hread, hwrite⟩ := h.leaveRead ht
  have hleave : (l.leaveRead t).numberOfReaders = l.numberOfReaders - 1 := rfl
  have hne : l.numberOfReaders ≠ -1 := by omega
  have hreserved : l.reserved = l.waitQueueRead.length := reserved_of_ne hne
  unfold readUnlock
  dsimp only
  split
  case isFalse hpos =>
    refine keeps_of ⟨h.sound.parked, fun hzero => absurd hzero hpos, hpanicked, h.sound.not_missed,
      r, 0, hread, hwrite, Or.inr ⟨?_, rfl⟩⟩ (fun _ _ => h.waiting_user) (fun _ _ => rfl) ?_
    · have hwaits : (l.leaveRead t).waitQueueRead = l.waitQueueRead := rfl
      rw [hwaits, hleave]
      omega
    · have hne' : (l.leaveRead t).numberOfReaders ≠ -1 := by omega
      rw [hreserved, reserved_of_ne hne']
      rfl
  case isTrue hzero =>
    have hempty : l.waitQueueRead = [] := List.eq_nil_of_length_eq_zero (by omega)
    have hr : r = 0 := by omega
    have hok : ((l.leaveRead t).debugAssert (l.leaveRead t).waitQueueRead.isEmpty).panicked
        = false := by
      have hwaits : (l.leaveRead t).waitQueueRead = [] := hempty
      simp [debugAssert, hpanicked, hwaits]
    rw [hr] at hread
    rw [hempty, List.length_nil] at hreserved
    unfold wakeWriter
    split
    case h_1 u rest hqueue =>
      refine keeps_of (sound_popWrite (l.leaveRead t) h.sound.parked hread hwrite hqueue
        (h.notMem_rest .write hqueue) rfl rfl rfl rfl rfl hok h.sound.not_missed)
        (fun _ _ => h.waiting_user) (fun _ _ => rfl) ?_
      rw [hreserved]
      rfl
    case h_2 hqueue =>
      refine keeps_of ⟨h.sound.parked, fun _ => hqueue, hok, h.sound.not_missed, 0, 0, hread,
        hwrite, Or.inr ⟨?_, rfl⟩⟩ (fun _ _ => h.waiting_user) (fun _ _ => rfl) ?_
      · have hlength : (0 + (l.leaveRead t).waitQueueRead.length : ℕ) = 0 := by
          rw [show (l.leaveRead t).waitQueueRead = [] from hempty]
          rfl
        exact hzero.trans (congrArg Nat.cast hlength.symm)
      · have hne' : (l.leaveRead t).numberOfReaders ≠ -1 := by omega
        rw [hreserved]
        exact (reserved_of_ne hne').trans (congrArg List.length hempty)

/-- The writer hands the lock to another one, or counts all waiting readers. -/
theorem keeps_writeUnlock (h : Ready l t .user) (ht : t ∈ l.guards .write) :
    outline.Keeps l t .user (l.writeUnlock t).1 (l.writeUnlock t).2 := by
  obtain ⟨r, w, hr, hw, hcounts⟩ := h.sound.counts
  have herase := holders_erase (l.leaveWrite t) ht rfl (Kind.forall_ne_write rfl) rfl
    (queue_congr rfl rfl)
  have hread := herase .read
  have hwrite := herase .write
  rw [if_neg (by simp), add_zero, hr] at hread
  rw [if_pos rfl, hw] at hwrite
  obtain ⟨m, rfl, hm⟩ := exists_of_add_one_eq hwrite
  obtain ⟨hnumber, hm0, rfl⟩ : l.numberOfReaders = -1 ∧ m = 0 ∧ r = 0 := by omega
  rw [hm0] at hm
  have hok : (l.leaveWrite t).panicked = false := by
    simp [leaveWrite, debugAssert, h.sound.not_panicked, hnumber]
  have hreserved : l.reserved = 0 := reserved_of_writing hnumber
  unfold writeUnlock wakeNext
  split
  case h_1 hqueue =>
    refine keeps_of ⟨h.sound.parked, fun _ => hqueue, hok, h.sound.not_missed, 0, 0, hread, hm,
      Or.inr ⟨?_, rfl⟩⟩ (fun _ _ => h.waiting_user) (fun _ _ => rfl) ?_
    · rw [Nat.zero_add]
    · have hne : (l.waitQueueRead.length : ℤ) ≠ -1 := by omega
      rw [hreserved, Nat.zero_add]
      exact reserved_of_ne (l := { l.leaveWrite t with numberOfReaders := l.waitQueueRead.length })
        hne
  case h_2 u rest hqueue =>
    refine keeps_of (sound_popWrite (l.leaveWrite t) h.sound.parked hread hm hqueue
      (h.notMem_rest .write hqueue) rfl rfl rfl rfl hnumber hok h.sound.not_missed)
      (fun _ _ => h.waiting_user) (fun _ _ => rfl) ?_
    rw [hreserved]
    exact reserved_of_writing (l := { l.leaveWrite t with waitQueueWrite := rest }) hnumber

/-- A round of the wake-up loop finds one of the readers that are reserved. -/
theorem keeps_wakeReaders {readersCount : ℕ} (h : Ready l t (.wakeReaders readersCount)) :
    outline.Keeps l t (.wakeReaders readersCount) (l.wakeReaders readersCount).1
      (l.wakeReaders readersCount).2 := by
  cases readersCount with
  | zero => exact keeps_stay h (by simp) rfl
  | succ n =>
    have hdebt : n + 1 ≤ l.reserved := h.debt
    have hne : l.numberOfReaders ≠ -1 := by
      intro hneg
      rw [reserved_of_writing hneg] at hdebt
      omega
    have hreserved := reserved_of_ne hne
    obtain ⟨r, w, hr, hw, hcounts⟩ := h.sound.counts
    have hnumber : l.numberOfReaders = (r + l.waitQueueRead.length : ℕ) := by omega
    have hzero : w = 0 := by omega
    simp only [wakeReaders]
    split
    case h_2 hqueue =>
      rw [hreserved, hqueue, List.length_nil] at hdebt
      omega
    case h_1 u rest hqueue =>
      have hparked : l.waiting u = some .read := h.sound.parked .read u (by simp [queue, hqueue])
      have hholders := holders_pop { l with waitQueueRead := rest } .read hqueue
        (h.notMem_rest .read hqueue) hparked rfl rfl rfl (Kind.forall_ne_read rfl)
      refine keeps_of ⟨?_, h.sound.quiet, h.sound.not_panicked, h.sound.not_missed, r + 1, w, ?_,
        ?_, Or.inr ⟨?_, hzero⟩⟩ (fun _ _ => h.waiting (by simp)) (fun _ _ => rfl) ?_
      · intro kind v hv
        refine h.sound.parked kind v ?_
        cases kind with
        | read =>
          rw [queue, hqueue]
          exact List.mem_cons_of_mem u hv
        | write => exact hv
      · rw [hholders, if_pos rfl, hr]
        rfl
      · rw [hholders, if_neg (by simp), add_zero, hw]
      · rw [hnumber, hqueue, List.length_cons]
        push_cast
        omega
      · rw [hreserved, hqueue, List.length_cons]
        have hrest : reserved { l with waitQueueRead := rest } = rest.length :=
          reserved_of_ne hne
        rw [hrest]
        simp only [Place.readersCount, Outcome.place, Option.elim_some]
        omega

theorem keeps_poll (h : Ready l t .poll) : outline.Keeps l t .poll (l.poll t).1 (l.poll t).2 := by
  unfold poll
  split
  case h_1 hwaits => exact keeps_stay h (fun _ => hwaits) rfl
  case h_2 kind hwaits =>
    obtain ⟨r, w, hr, hw, hcounts⟩ := h.sound.counts
    have hnotMem := h.notMem kind
    refine keeps_of ⟨?_, ?_, ?_, ?_, r, w, ?_, ?_, ?_⟩ ?_ ?_ ?_
    · intro kind' u hu
      have hu' : u ∈ l.queue kind' := by cases kind <;> cases kind' <;> exact hu
      have hut : u ≠ t := fun heq => h.notMem kind' (heq ▸ hu')
      have hsame : ((l.wake t).newGuard t kind).waiting u = l.waiting u := by
        cases kind <;> simp [newGuard, wake, hut]
      rw [hsame]
      exact h.sound.parked kind' u hu'
    · cases kind <;> exact h.sound.quiet
    · cases kind <;> exact h.sound.not_panicked
    · cases kind <;> exact h.sound.not_missed
    · rw [holders_resume hwaits hnotMem, hr]
    · rw [holders_resume hwaits hnotMem, hw]
    · cases kind <;> exact hcounts
    · intro _ _
      cases kind <;> simp [newGuard, wake]
    · intro u hut
      cases kind <;> simp [newGuard, wake, hut]
    · cases kind <;> rfl

theorem keeps_give (h : Ready l t .user) {u : τ} {kind : Kind} (ht : t ∈ l.guards kind) :
    outline.Keeps l t .user (l.give t u kind) (.goto .user) := by
  obtain ⟨r, w, hr, hw, hcounts⟩ := h.sound.counts
  refine keeps_of ⟨?_, ?_, ?_, ?_, r, w, ?_, ?_, ?_⟩ (fun _ _ => ?_) (fun _ _ => ?_) ?_
  · intro kind' v hv
    have hv' : v ∈ l.queue kind' := by cases kind <;> cases kind' <;> exact hv
    have hwaits := h.sound.parked kind' v hv'
    cases kind <;> exact hwaits
  · cases kind <;> exact h.sound.quiet
  · cases kind <;> exact h.sound.not_panicked
  · cases kind <;> exact h.sound.not_missed
  · rw [holders_give ht, hr]
  · rw [holders_give ht, hw]
  · cases kind <;> exact hcounts
  · cases kind <;> exact h.waiting_user
  · cases kind <;> rfl
  · cases kind <;> rfl

/-- **Every operation keeps the outline.** -/
theorem keeps_code (h : Ready l t k) {op : Op τ} {o : Outcome τ Place}
    (hcode : l.code t k op = some (l', o)) : outline.Keeps l t k l' o := by
  have hge : -1 ≤ l.numberOfReaders := by
    obtain ⟨r, w, -, -, hcounts⟩ := h.sound.counts
    omega
  unfold code at hcode
  split at hcode
  · obtain ⟨rfl, rfl⟩ := of_some hcode
    exact keeps_poll h
  · obtain ⟨rfl, rfl⟩ := of_some hcode
    exact keeps_wakeReaders h
  · unfold write at hcode
    split at hcode
    case isTrue hzero =>
      obtain ⟨rfl, rfl⟩ := of_some hcode
      exact keeps_lockWrite h hzero
    case isFalse hne =>
      obtain ⟨rfl, rfl⟩ := of_some hcode
      exact keeps_push h .write (by simp) (fun _ => hne)
  · unfold read at hcode
    split at hcode
    case isTrue hpos =>
      obtain ⟨rfl, rfl⟩ := of_some hcode
      exact keeps_lockRead h hpos
    case isFalse hneg =>
      obtain ⟨rfl, rfl⟩ := of_some hcode
      exact keeps_push h .read (fun _ => by omega) (by simp)
  · unfold tryWrite at hcode
    split at hcode
    case isTrue hzero =>
      obtain ⟨rfl, rfl⟩ := of_some hcode
      exact keeps_lockWrite h hzero
    case isFalse =>
      obtain ⟨rfl, rfl⟩ := of_some hcode
      exact keeps_stay h (by simp) rfl
  · unfold tryRead at hcode
    split at hcode
    case isTrue hpos =>
      obtain ⟨rfl, rfl⟩ := of_some hcode
      exact keeps_lockRead h hpos
    case isFalse =>
      obtain ⟨rfl, rfl⟩ := of_some hcode
      exact keeps_stay h (by simp) rfl
  · rw [Option.ite_none_right_eq_some] at hcode
    obtain ⟨rfl, rfl⟩ := of_some hcode.2
    exact keeps_readUnlock h hcode.1
  · rw [Option.ite_none_right_eq_some] at hcode
    obtain ⟨rfl, rfl⟩ := of_some hcode.2
    exact keeps_writeUnlock h hcode.1
  · rw [Option.ite_none_right_eq_some] at hcode
    obtain ⟨rfl, rfl⟩ := of_some hcode.2
    exact keeps_give h hcode.1
  · cases hcode

end Keeps

omit [DecidableEq τ] in
theorem new_sound : (new : LocalRWLock τ).Sound := by
  refine ⟨fun kind t ht => ?_, fun _ => rfl, rfl, rfl, 0, 0, ?_, ?_, Or.inr ⟨rfl, rfl⟩⟩
  · cases kind <;> cases ht
  · simp [holders, guards, granted, new]
  · simp [holders, guards, granted, new]

theorem outline_holds {e : Executor τ (World τ (LocalRWLock τ)) Place}
    (h : primitive.Reaches new e) : (Custody.worldOutline outline).Holds e := by
  refine custody.outline outline (D := fun _ _ _ _ => True) (fun _ => rfl) new_sound rfl
    (fun _ _ hk => absurd rfl hk) rfl ?_ ?_
    (h.mono fun e m _ => Primitive.OpMeets.of_forall (fun _ _ _ _ => trivial) e m)
  · intro k hk
    rw [eq_of_beq hk]
    rfl
  · intro l t k op l' o _ hsound hplace hdebt hle hzero hcode
    refine keeps_code ⟨hsound, hplace, ?_, ?_, hdebt⟩ hcode
    · intro kind
      apply List.count_eq_zero.mp
      cases kind with
      | read => exact Nat.eq_zero_of_add_eq_zero_right hzero
      | write => exact Nat.eq_zero_of_add_eq_zero_left hzero
    · intro kind u
      cases kind with
      | read => exact Nat.le_trans (Nat.le_add_right _ _) (hle u)
      | write => exact Nat.le_trans (Nat.le_add_left _ _) (hle u)

/-! ### What the lock guarantees -/

/-- The readers that the loops of `write_unlock` in progress have counted and still have to pop. -/
def awaited (e : Executor τ (World τ (LocalRWLock τ)) Place) : ℕ :=
  (e.stack.map fun f => f.2.readersCount).sum

/-- The number of readers that hold the lock or have been granted it. -/
noncomputable def readers (e : Executor τ (World τ (LocalRWLock τ)) Place) : ℕ∞ :=
  e.state.memory.holders .read + awaited e

/-- The number of writers that hold the lock or have been granted it. -/
noncomputable def writers (e : Executor τ (World τ (LocalRWLock τ)) Place) : ℕ∞ :=
  e.state.memory.holders .write

/-- **What `number_of_readers` means in every run**: it is -1 exactly if there is one writer, and
`n` exactly if there are `n` readers and no writer; there is never more than one writer, nor one
next to readers.  All readers in the queue of a lock that is not locked for writing are about to
be popped, and no writer is in the queue of a free one.  No debug assertion fails, and no pop of
the wake-up loop finds the queue empty. -/
theorem readers_and_writers {e : Executor τ (World τ (LocalRWLock τ)) Place}
    (h : primitive.Reaches new e) :
    (e.state.memory.numberOfReaders = -1 ↔ writers e = 1) ∧
    (∀ n : ℕ, e.state.memory.numberOfReaders = n ↔ writers e = 0 ∧ readers e = n) ∧
    writers e ≤ 1 ∧ (writers e = 1 → readers e = 0) ∧
    (e.state.memory.numberOfReaders ≠ -1 → e.state.memory.waitQueueRead.length = awaited e) ∧
    (e.state.memory.numberOfReaders = 0 → e.state.memory.waitQueueWrite = []) ∧
    e.state.memory.panicked = false ∧ e.state.memory.missed = false := by
  obtain ⟨hsound, -, hdue⟩ := outline_holds h
  obtain ⟨r, w, hr, hw, hcounts⟩ := hsound.counts
  have hdue : e.state.memory.reserved = awaited e := hdue
  have hwriters : writers e = w := hw
  have hreaders : readers e = (r + awaited e : ℕ) := by
    rw [readers, hr, Nat.cast_add]
  -- The number is that of the holders: in both cases `awaited` is what the memory says.
  have hawaited : (e.state.memory.numberOfReaders = -1 → awaited e = 0) ∧
      (e.state.memory.numberOfReaders ≠ -1 → e.state.memory.waitQueueRead.length = awaited e) :=
    ⟨fun hneg => by rw [← hdue, reserved_of_writing hneg],
      fun hne => by rw [← hdue, reserved_of_ne hne]⟩
  rw [hwriters, hreaders]
  norm_cast
  refine ⟨?_, ?_, ?_, ?_, hawaited.2, hsound.quiet, hsound.not_panicked, hsound.not_missed⟩
  · omega
  · intro n
    omega
  · omega
  · omega

/-- `t` writes and yields, `u` and `v` wait to read, and `t` unlocks: `u` runs nested, and `v` is
still in the queue. -/
def nestReaders (t u v : τ) : List (Move τ (TaskOp τ (Op τ))) :=
  [.wake t, .code (.op .go), .code (.op .write), .code .yieldNow,
    .wake u, .code (.op .go), .code (.op .read), .wake v, .code (.op .go), .code (.op .read),
    .popBack, .code (.op .go), .code (.op .writeUnlock), .code (.op .go)]

/-- Task 0 is in the loop of `write_unlock`: task 2 is popped and about to be polled, and task 1 is
counted, but still in the queue. -/
theorem readers_and_writers_nested :
    ∃ e : Executor (Fin 3) (World (Fin 3) (LocalRWLock (Fin 3))) Place,
      primitive.Reaches new e ∧ e.stack = [(2, .poll), (0, .wakeReaders 1)] ∧
      e.state.memory.waitQueueRead = [1] ∧ e.state.memory.numberOfReaders = 2 ∧
      writers e = 0 ∧ readers e = 2 := by
  refine ⟨_, reachable_of_exec (nestReaders 0 1 2) rfl, rfl, rfl, rfl, ?_⟩
  exact ((readers_and_writers (reachable_of_exec (nestReaders 0 1 2) rfl)).2.1 2).mp rfl

/-- **A reader is in the queue of a lock that is not locked for writing**: `write_unlock` counts all
readers before it pops the first one. -/
theorem reader_queued_while_reading :
    ¬∀ e : Executor (Fin 3) (World (Fin 3) (LocalRWLock (Fin 3))) Place,
      primitive.Reaches new e → e.state.memory.waitQueueRead ≠ [] →
        e.state.memory.numberOfReaders = -1 := by
  intro h
  exact absurd (h _ (reachable_of_exec (nestReaders 0 1 2) rfl) (by decide)) (by decide)

end LocalRWLock

end Orengine.Sync
