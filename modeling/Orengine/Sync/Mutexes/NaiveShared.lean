import Orengine.Lib.Reach

/-!
# `NaiveMutex` and `SpinLock`

Both are an atomic flag next to a value.  `try_lock` is one `compare_exchange_weak`, which may fail
for no reason, and the drop of a guard stores `false`.  `lock` calls `try_lock` until it succeeds;
what the two do in between (`NaiveMutex` spins and yields, `SpinLock` backs off) touches neither.

The threads run any code, which a `Program` gives for a choice of the label: the loop of `lock` is
part of it, and so is what `try_lock` and `is_locked` have answered.  A thread is inside until the
flag is released, also if its guard was leaked and the executor releases the flag for it.

`sections_atomic` is why a critical section is one step in the models of what such a lock protects.
-/

namespace Orengine.Sync

open Orengine.Lib

/-- `NaiveMutex`, and `SpinLock` as well. -/
structure NaiveMutex (T : Type*) where
  isLocked : Bool
  value : T

namespace NaiveMutex

variable {ι L T Λ : Type*}

def new (value : T) : NaiveMutex T := ⟨false, value⟩

/-- `compare_exchange_weak(false, true)`, which may fail. -/
def tryLock (m : NaiveMutex T) (fails : Bool) : Option (NaiveMutex T) :=
  if m.isLocked || fails then none else some { m with isLocked := true }

/-- `unlock`; `none` if its debug assertion fails. -/
def unlock (m : NaiveMutex T) : Option (NaiveMutex T) :=
  if m.isLocked then some { m with isLocked := false } else none

/-- The code of the threads. -/
structure Program (L T Λ : Type*) where
  /-- Code without the lock. -/
  outside : L → Λ → Option L
  /-- Code with the lock, which may change the value. -/
  inside : L × T → Λ → Option (L × T)

/-- The mutex and the threads that use it. -/
structure Threads (ι L T : Type*) where
  mutex : NaiveMutex T
  code : ι → L
  isInside : ι → Bool

inductive Action (ι Λ : Type*) where
  | run (i : ι) (c : Λ)
  | tryLock (i : ι) (fails : Bool)
  | access (i : ι) (c : Λ)
  | unlock (i : ι)

namespace Threads

def init (value : T) (code : ι → L) : Threads ι L T := ⟨new value, code, fun _ => false⟩

variable [DecidableEq ι]

def step (P : Program L T Λ) (s : Threads ι L T) : Action ι Λ → Option (Threads ι L T)
  | .run i c =>
    if s.isInside i then none
    else (P.outside (s.code i) c).map fun l => { s with code := Function.update s.code i l }
  | .tryLock i fails =>
    match s.mutex.tryLock fails with
    | some m => some { s with mutex := m, isInside := Function.update s.isInside i true }
    | none => some s
  | .access i c =>
    if s.isInside i then
      (P.inside (s.code i, s.mutex.value) c).map fun x =>
        { s with mutex := { s.mutex with value := x.2 }, code := Function.update s.code i x.1 }
    else none
  | .unlock i =>
    if s.isInside i then
      s.mutex.unlock.map fun m =>
        { s with mutex := m, isInside := Function.update s.isInside i false }
    else none

end Threads

/-! ### Critical sections as one step -/

inductive AtomicAction (ι Λ : Type*) where
  | run (i : ι) (c : Λ)
  /-- A whole critical section. -/
  | critical (i : ι) (cs : List Λ)

variable [DecidableEq ι]

/-- The threads and the value, without a lock. -/
def atomicStep (P : Program L T Λ) (x : T × (ι → L)) : AtomicAction ι Λ → Option (T × (ι → L))
  | .run i c => (P.outside (x.2 i) c).map fun l => (x.1, Function.update x.2 i l)
  | .critical i cs =>
    (exec P.inside (x.2 i, x.1) cs).map fun y => (y.2, Function.update x.2 i y.1)

/-- The threads are where the atomic ones are, except for the one that is inside. -/
inductive Simulates (P : Program L T Λ) (s : Threads ι L T) (x : T × (ι → L)) : Prop
  | free (hlocked : s.mutex.isLocked = false) (hinside : ∀ j, s.isInside j = false)
      (hsame : x = (s.mutex.value, s.code))
  | held (i : ι) (cs : List Λ) (hlocked : s.mutex.isLocked = true)
      (hinside : ∀ j, s.isInside j = true ↔ j = i)
      (hexec : exec P.inside (x.2 i, x.1) cs = some (s.code i, s.mutex.value))
      (hcode : s.code = Function.update x.2 i (s.code i))

variable {P : Program L T Λ} {s s' : Threads ι L T} {x : T × (ι → L)}

theorem Simulates.run (h : Simulates P s x) {i : ι} (hi : ¬s.isInside i = true) (l : L) :
    x.2 i = s.code i ∧
      Simulates P { s with code := Function.update s.code i l } (x.1, Function.update x.2 i l) := by
  cases h with
  | free hlocked hinside hsame =>
    subst hsame
    exact ⟨rfl, .free hlocked hinside rfl⟩
  | held k cs hlocked hinside hexec hcode =>
    have hik : i ≠ k := fun hik => hi ((hinside i).mpr hik)
    refine ⟨by rw [hcode, Function.update_of_ne hik], .held k cs hlocked hinside ?_ ?_⟩
    · simpa [hik.symm] using hexec
    · simp only [Function.update_of_ne hik.symm]
      rw [Function.update_comm hik, ← hcode]

/-- A thread that gets the lock finds it free. -/
theorem Simulates.acquire (h : Simulates P s x) (i : ι) {fails : Bool} {m : NaiveMutex T}
    (hm : s.mutex.tryLock fails = some m) :
    Simulates P { s with mutex := m, isInside := Function.update s.isInside i true } x := by
  obtain ⟨hfree, hm⟩ := Option.ite_none_left_eq_some.mp hm
  obtain rfl := Option.some.inj hm
  cases h with
  | held k cs hlocked => simp [hlocked] at hfree
  | free hlocked hinside hsame =>
    subst hsame
    refine .held i [] rfl (fun j => ?_) rfl (Function.update_eq_self ..).symm
    rcases eq_or_ne j i with rfl | hj
    · simp
    · simp [hj, hinside j]

/-- A step of the threads is one of the atomic threads, or none. -/
theorem Simulates.step (h : Simulates P s x) {a : Action ι Λ} (hstep : s.step P a = some s') :
    ∃ y, (y = x ∨ ∃ b, atomicStep P x b = some y) ∧ Simulates P s' y := by
  cases a with
  | run i c =>
    obtain ⟨hi, hstep⟩ := Option.ite_none_left_eq_some.mp hstep
    obtain ⟨l, hl, rfl⟩ := Option.map_eq_some_iff.mp hstep
    obtain ⟨hcode, hnext⟩ := h.run hi l
    exact ⟨_, Or.inr ⟨.run i c, by rw [atomicStep, hcode, hl]; rfl⟩, hnext⟩
  | tryLock i fails =>
    refine ⟨x, Or.inl rfl, ?_⟩
    cases hm : s.mutex.tryLock fails with
    | some m =>
      rw [Threads.step, hm] at hstep
      exact Option.some.inj hstep ▸ h.acquire i hm
    | none =>
      rw [Threads.step, hm] at hstep
      exact Option.some.inj hstep ▸ h
  | access i c =>
    obtain ⟨hi, hstep⟩ := Option.ite_none_right_eq_some.mp hstep
    obtain ⟨y, hy, rfl⟩ := Option.map_eq_some_iff.mp hstep
    cases h with
    | free hlocked hinside => cases (hinside i).symm.trans hi
    | held k cs hlocked hinside hexec hcode =>
      obtain rfl := (hinside i).mp hi
      refine ⟨x, Or.inl rfl, .held i (cs ++ [c]) hlocked hinside ?_ ?_⟩
      · rw [exec_append, hexec]
        simp [exec, hy]
      · simp only [Function.update_self]
        rw [hcode, Function.update_idem]
  | unlock i =>
    obtain ⟨hi, hstep⟩ := Option.ite_none_right_eq_some.mp hstep
    obtain ⟨m, hm, rfl⟩ := Option.map_eq_some_iff.mp hstep
    cases h with
    | free hlocked hinside => cases (hinside i).symm.trans hi
    | held k cs hlocked hinside hexec hcode =>
      obtain rfl := (hinside i).mp hi
      obtain ⟨-, rfl⟩ := of_guard hm
      -- The section takes effect when the lock is released.
      refine ⟨(s.mutex.value, s.code), Or.inr ⟨.critical i cs, ?_⟩, .free rfl (fun j => ?_) rfl⟩
      · rw [atomicStep, hexec, Option.map_some, ← hcode]
      · rcases eq_or_ne j i with rfl | hj
        · simp
        · simpa [hj] using hinside j

/-- **Critical sections are atomic.** In every interleaving of any threads at most one of them is
inside, and one is exactly if the flag is set; and when it is not, the value and the threads are as
after a run in which every critical section was one step. -/
theorem sections_atomic (P : Program L T Λ) (value : T) (code : ι → L) (s : Threads ι L T)
    (h : Reachable (Threads.step P) (.init value code) s) :
    (s.mutex.isLocked = true ↔ ∃ i, s.isInside i = true) ∧
      (∀ i j, s.isInside i = true → s.isInside j = true → i = j) ∧
      (s.mutex.isLocked = false →
        Reachable (atomicStep P) (value, code) (s.mutex.value, s.code)) := by
  have hsim : ∃ x, Reachable (atomicStep P) (value, code) x ∧ Simulates P s x := by
    refine Reach.invariant (I := fun s => ∃ x, Reachable (atomicStep P) (value, code) x ∧
      Simulates P s x) ⟨_, .start, .free rfl (fun _ => rfl) rfl⟩ ?_ h
    rintro s a s' - ⟨x, hx, hsim⟩ - hstep
    obtain ⟨y, rfl | ⟨b, hb⟩, hsim'⟩ := hsim.step hstep
    · exact ⟨y, hx, hsim'⟩
    · exact ⟨y, hx.next trivial hb, hsim'⟩
  obtain ⟨x, hx, hsim⟩ := hsim
  cases hsim with
  | free hlocked hinside hsame =>
    subst hsame
    simpa [hlocked, hinside] using hx
  | held i cs hlocked hinside => simp [hlocked, hinside]

/-- Each thread reads the value and then writes its successor. -/
def increment : Program ℕ ℕ Bool where
  outside l _ := some l
  inside x c := some (if c then (x.1, x.1 + 1) else (x.2, x.2))

theorem sections_atomic_increment : ∃ s : Threads Bool ℕ ℕ,
    Reachable (Threads.step increment) (.init 0 fun _ => 0) s ∧ s.mutex.value = 2 ∧
      Reachable (atomicStep increment) (0, fun _ => 0) (s.mutex.value, s.code) := by
  have h : Reachable (Threads.step increment) (.init 0 fun _ : Bool => 0) _ :=
    reachable_of_exec [.tryLock true false, .access true false, .tryLock false false,
      .access true true, .unlock true, .tryLock false true, .tryLock false false,
      .access false false, .access false true, .unlock false] rfl
  exact ⟨_, h, rfl, (sections_atomic increment 0 _ _ h).2.2 rfl⟩

end NaiveMutex

end Orengine.Sync
