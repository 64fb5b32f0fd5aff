import Orengine.Lib.Reach
import Mathlib.Data.Int.Notation

/-!
# `Once` and `LocalOnce`

Both implement `AsyncOnce`: `call_once` awaits a given future and `call_once_sync` runs a given
function, unless another call has done so.  `Once` is one atomic, which a call exchanges from
`NotCalled` to `Called`; `LocalOnce` is a cell of one executor, which a call reads and replaces
before it awaits anything.

The model is the interleaving of the steps of any number of calls: a future may suspend, and a
function may run on another thread or run tasks nested in it.  The state is `Called` from the start
of the future on, so that a call in between returns `WasAlreadyCompleted` too early
(`completed_while_running`).  `log` is a history: what has happened, newest first.
-/

namespace Orengine.Sync

open Lib

inductive OnceState where
  | notCalled
  | called
  deriving DecidableEq

/-- `From<OnceState> for isize`. -/
def OnceState.toIsize : OnceState → ℤ
  | .notCalled => 0
  | .called => 1

/-- `TryFrom<isize> for OnceState`. -/
def OnceState.tryFrom (value : ℤ) : Option OnceState :=
  if value = 0 then some .notCalled else if value = 1 then some .called else none

inductive CallOnceResult where
  | called
  | wasAlreadyCompleted
  deriving DecidableEq

/-- An implementation of `AsyncOnce` with the state `σ`. -/
structure AsyncOnce (σ : Type*) where
  new : σ
  /-- The state after a `call_once` that runs its future; `none` if it does not. -/
  callOnce : σ → Option σ
  /-- The state after a `call_once_sync` that runs its function; `none` if it does not. -/
  callOnceSync : σ → Option σ
  state : σ → OnceState
  state_new : state new = .notCalled
  callOnce_eq_none : ∀ s, callOnce s = none ↔ state s = .called
  state_callOnce : ∀ {s t}, callOnce s = some t → state t = .called
  callOnceSync_eq_none : ∀ s, callOnceSync s = none ↔ state s = .called
  state_callOnceSync : ∀ {s t}, callOnceSync s = some t → state t = .called

def AsyncOnce.isCompleted {σ : Type*} (O : AsyncOnce σ) (s : σ) : Bool := O.state s == .called

/-! ### The two implementations -/

namespace Once

/-- The values of the atomic of a `Once`: those that `state` can convert. -/
def Isize : Type := { value : ℤ // (OnceState.tryFrom value).isSome }

/-- `compare_exchange(NotCalled, Called)`. -/
def compareExchange (s : Isize) : Option Isize :=
  if s.1 = OnceState.notCalled.toIsize then some ⟨OnceState.called.toIsize, rfl⟩ else none

def state (s : Isize) : OnceState := (OnceState.tryFrom s.1).get s.2

theorem state_eq_called {s : Isize} : state s = .called ↔ s.1 ≠ OnceState.notCalled.toIsize := by
  obtain ⟨value, hvalue⟩ := s
  by_cases hzero : value = 0
  · subst hzero
    simp [state, OnceState.tryFrom, OnceState.toIsize]
  · by_cases hone : value = 1
    · subst hone
      simp [state, OnceState.tryFrom, OnceState.toIsize]
    · simp [OnceState.tryFrom, hzero, hone] at hvalue

theorem compareExchange_eq_none (s : Isize) : compareExchange s = none ↔ state s = .called := by
  rw [state_eq_called]
  unfold compareExchange
  split <;> simp_all

theorem state_compareExchange {s t : Isize} (h : compareExchange s = some t) :
    state t = .called := by
  unfold compareExchange at h
  split at h
  · exact Option.some.inj h ▸ rfl
  · cases h

/-- `Once`. -/
def asyncOnce : AsyncOnce Isize where
  new := ⟨OnceState.notCalled.toIsize, rfl⟩
  callOnce := compareExchange
  callOnceSync := compareExchange
  state := state
  state_new := rfl
  callOnce_eq_none := compareExchange_eq_none
  state_callOnce := state_compareExchange
  callOnceSync_eq_none := compareExchange_eq_none
  state_callOnceSync := state_compareExchange

end Once

namespace LocalOnce

/-- The start of both calls: `is_completed`, and `state.replace(Called)`. -/
def replaceState (s : OnceState) : Option OnceState :=
  if s = .called then none else some .called

theorem replaceState_eq_none (s : OnceState) : replaceState s = none ↔ s = .called := by
  cases s <;> decide

theorem eq_called_of_replaceState {s t : OnceState} (h : replaceState s = some t) :
    t = .called := by
  unfold replaceState at h
  split at h
  · cases h
  · exact (Option.some.inj h).symm

/-- `LocalOnce`. -/
def asyncOnce : AsyncOnce OnceState where
  new := .notCalled
  callOnce := replaceState
  callOnceSync := replaceState
  state := id
  state_new := rfl
  callOnce_eq_none := replaceState_eq_none
  state_callOnce := eq_called_of_replaceState
  callOnceSync_eq_none := replaceState_eq_none
  state_callOnceSync := eq_called_of_replaceState

end LocalOnce

/-! ### Calls -/

namespace Onces

/-- How far a call has come. -/
inductive Progress where
  | waiting
  /-- Its future or function is running. -/
  | running
  | returned (result : CallOnceResult)
  deriving DecidableEq

inductive Event (ι : Type*) where
  /-- The future or function of the call was started. -/
  | started (c : ι)
  /-- It has finished, and the call has returned `Called`. -/
  | finished (c : ι)
  /-- The call has returned `WasAlreadyCompleted`. -/
  | refused (c : ι)
  /-- `is_completed` has returned `true`. -/
  | completed
  deriving DecidableEq

inductive Action (ι : Type*) where
  | callOnce (c : ι)
  | callOnceSync (c : ι)
  /-- The future or function of the call finishes. -/
  | finish (c : ι)
  /-- Somebody calls `is_completed`. -/
  | isCompleted
  deriving DecidableEq

end Onces

open Onces

/-- An `AsyncOnce` and the calls of it. -/
structure Onces (σ ι : Type*) where
  once : σ
  calls : ι → Onces.Progress
  /-- History: what has happened, newest first. -/
  log : List (Onces.Event ι)

namespace Onces

variable {σ ι : Type*} [DecidableEq ι] (O : AsyncOnce σ)

def new : Onces σ ι := ⟨O.new, fun _ => .waiting, []⟩

/-- The call `c` runs its future or function, with the new state, or returns. -/
def call (s : Onces σ ι) (c : ι) : Option σ → Onces σ ι
  | some once =>
    { s with
      once := once
      calls := Function.update s.calls c .running
      log := .started c :: s.log }
  | none =>
    { s with
      calls := Function.update s.calls c (.returned .wasAlreadyCompleted)
      log := .refused c :: s.log }

def step (s : Onces σ ι) : Action ι → Option (Onces σ ι)
  | .callOnce c => if s.calls c = .waiting then some (s.call c (O.callOnce s.once)) else none
  | .callOnceSync c =>
    if s.calls c = .waiting then some (s.call c (O.callOnceSync s.once)) else none
  | .finish c =>
    if s.calls c = .running then
      some { s with
        calls := Function.update s.calls c (.returned .called)
        log := .finished c :: s.log }
    else none
  | .isCompleted =>
    some (if O.isCompleted s.once then { s with log := .completed :: s.log } else s)

/-! ### What has happened -/

/-- The call whose future or function was started. -/
def Event.start : Event ι → Option ι
  | .started c => some c
  | _ => none

/-- The calls whose futures or functions were started. -/
def starts (log : List (Event ι)) : List ι := log.filterMap Event.start

/-- Whether somebody was told that the one that was started has finished. -/
def Event.saysCompleted : Event ι → Bool
  | .refused _ => true
  | .completed => true
  | _ => false

/-- Whoever was told that the one that was started has finished was told the truth. -/
def Truthful : List (Event ι) → Prop
  | [] => True
  | e :: earlier =>
    (e.saysCompleted = true → ∃ c, .started c ∈ earlier ∧ .finished c ∈ earlier) ∧
      Truthful earlier

/-- Somebody calls, or asks `is_completed`, while a future or function is running. -/
def AsksWhileRunning (s : Onces σ ι) (a : Action ι) : Prop :=
  (∀ c, a ≠ .finish c) ∧ ∃ c, s.calls c = .running

variable {c : ι} {s : Onces σ ι}

omit [DecidableEq ι] in
theorem mem_starts {log : List (Event ι)} : c ∈ starts log ↔ .started c ∈ log := by
  rw [starts, List.mem_filterMap]
  constructor
  · rintro ⟨e, he, hstart⟩
    cases e with
    | started d => exact Option.some.inj hstart ▸ he
    | finished | refused | completed => cases hstart
  · intro h
    exact ⟨.started c, h, rfl⟩

/-- The state and the progress of the calls agree with what has happened. -/
structure Sound (s : Onces σ ι) : Prop where
  state : O.state s.once = .notCalled ∧ starts s.log = [] ∨
    O.state s.once = .called ∧ ∃ c, starts s.log = [c]
  running : ∀ c, s.calls c = .running ↔ .started c ∈ s.log ∧ .finished c ∉ s.log
  waiting : ∀ c, s.calls c = .waiting → .finished c ∉ s.log

variable {O}

omit [DecidableEq ι] in
theorem Sound.not_running (h : s.Sound O) (hstate : O.state s.once ≠ .called) (c : ι) :
    s.calls c ≠ .running := by
  rcases h.state with ⟨-, hstarts⟩ | ⟨hcalled, -⟩
  · intro hrunning
    have hmem := mem_starts.mpr ((h.running c).mp hrunning).1
    rw [hstarts] at hmem
    cases hmem
  · exact absurd hcalled hstate

omit [DecidableEq ι] in
/-- In the state `Called` the one that was started has finished exactly if nothing runs. -/
theorem Sound.finished_iff (h : s.Sound O) (hstate : O.state s.once = .called) :
    (∃ c, .started c ∈ s.log ∧ .finished c ∈ s.log) ↔ ¬∃ c, s.calls c = .running := by
  rcases h.state with ⟨hnot, -⟩ | ⟨-, c, hstarts⟩
  · rw [hnot] at hstate
    cases hstate
  · have hstarted (d : ι) : .started d ∈ s.log ↔ d = c := by
      rw [← mem_starts, hstarts, List.mem_singleton]
    constructor
    · rintro ⟨d, hd, hfinished⟩ ⟨d', hrunning⟩
      obtain ⟨hd', hnot⟩ := (h.running d').mp hrunning
      obtain rfl := (hstarted d).mp hd
      obtain rfl := (hstarted d').mp hd'
      exact hnot hfinished
    · intro hnone
      have hc := (hstarted c).mpr rfl
      refine ⟨c, hc, ?_⟩
      by_contra hnot
      exact hnone ⟨c, (h.running c).mpr ⟨hc, hnot⟩⟩

/-- A call that waits after another one has gone on has waited before. -/
theorem waiting_of_update {calls : ι → Progress} {d : ι} {p : Progress} (hp : p ≠ .waiting)
    (hd : Function.update calls c p d = .waiting) : d ≠ c ∧ calls d = .waiting := by
  have hdc : d ≠ c := by
    rintro rfl
    rw [Function.update_self] at hd
    exact hp hd
  rw [Function.update_of_ne hdc] at hd
  exact ⟨hdc, hd⟩

theorem Sound.started (h : s.Sound O) (hc : s.calls c = .waiting) {once : σ}
    (hstate : O.state s.once ≠ .called) (honce : O.state once = .called) :
    (s.call c (some once)).Sound O := by
  rcases h.state with ⟨-, hstarts⟩ | ⟨hcalled, -⟩
  · refine ⟨Or.inr ⟨honce, c, ?_⟩, fun d => ?_, fun d hd => ?_⟩
    · show c :: starts s.log = [c]
      rw [hstarts]
    · by_cases hdc : d = c
      · have hnot := h.waiting c hc
        simp [call, hdc, hnot]
      · simpa [call, hdc] using h.running d
    · obtain ⟨-, hd'⟩ := waiting_of_update Progress.noConfusion hd
      simpa [call] using h.waiting d hd'
  · exact absurd hcalled hstate

theorem Sound.refused (h : s.Sound O) (hc : s.calls c = .waiting) : (s.call c none).Sound O := by
  refine ⟨h.state, fun d => ?_, fun d hd => ?_⟩
  · by_cases hdc : d = c
    · -- The call has not started anything.
      have hnot : ¬(.started c ∈ s.log ∧ .finished c ∉ s.log) := by
        rw [← h.running c, hc]
        exact Progress.noConfusion
      simpa [call, hdc] using hnot
    · simpa [call, hdc] using h.running d
  · obtain ⟨-, hd'⟩ := waiting_of_update Progress.noConfusion hd
    simpa [call] using h.waiting d hd'

theorem Sound.finish (h : s.Sound O) (c : ι) :
    Sound O { s with
      calls := Function.update s.calls c (.returned .called), log := .finished c :: s.log } := by
  refine ⟨h.state, fun d => ?_, fun d hd => ?_⟩
  · by_cases hdc : d = c
    · simp [hdc]
    · simpa [hdc] using h.running d
  · obtain ⟨hdc, hd'⟩ := waiting_of_update Progress.noConfusion hd
    simpa [hdc] using h.waiting d hd'

/-- What a call of either kind does: it starts its future or function in the state `NotCalled`, and
returns in the state `Called`. -/
theorem call_spec (h : s.Sound O) (hc : s.calls c = .waiting) {next : Option σ}
    (hnone : next = none ↔ O.state s.once = .called)
    (hsome : ∀ once, next = some once → O.state once = .called) :
    (s.call c next).Sound O ∧
      (Truthful s.log → (Truthful (s.call c next).log ↔ ¬∃ d, s.calls d = .running)) := by
  cases next with
  | none =>
    have hstate := hnone.mp rfl
    refine ⟨h.refused hc, fun htruth => ?_⟩
    rw [← h.finished_iff hstate]
    simp [call, Truthful, Event.saysCompleted, htruth]
  | some once =>
    have hstate : O.state s.once ≠ .called := fun hcalled => by cases hnone.mpr hcalled
    refine ⟨h.started hc hstate (hsome once rfl), fun htruth => iff_of_true ?_ ?_⟩
    · exact ⟨by simp [Event.saysCompleted], htruth⟩
    · rintro ⟨d, hd⟩
      exact h.not_running hstate d hd

/-- **What a step does**: it keeps the invariant, and what was said stays true exactly if the step
does not ask while something is running. -/
theorem step_spec {t : Onces σ ι} {a : Action ι} (h : s.Sound O) (hstep : s.step O a = some t) :
    t.Sound O ∧ (Truthful s.log → (Truthful t.log ↔ ¬AsksWhileRunning s a)) := by
  cases a with
  | callOnce c =>
    obtain ⟨hc, rfl⟩ := of_guard hstep
    simpa [AsksWhileRunning] using call_spec h hc (O.callOnce_eq_none s.once)
      fun _ => O.state_callOnce
  | callOnceSync c =>
    obtain ⟨hc, rfl⟩ := of_guard hstep
    simpa [AsksWhileRunning] using call_spec h hc (O.callOnceSync_eq_none s.once)
      fun _ => O.state_callOnceSync
  | finish c =>
    obtain ⟨hc, rfl⟩ := of_guard hstep
    refine ⟨h.finish c, fun htruth => iff_of_true ?_ ?_⟩
    · exact ⟨by simp [Event.saysCompleted], htruth⟩
    · exact fun hasks => hasks.1 c rfl
  | isCompleted =>
    simp only [step, Option.some.injEq] at hstep
    subst hstep
    split
    case isTrue hcompleted =>
      have hstate : O.state s.once = .called := eq_of_beq hcompleted
      refine ⟨⟨h.state, fun d => ?_, fun d hd => ?_⟩, fun htruth => ?_⟩
      · simpa using h.running d
      · simpa using h.waiting d hd
      · have hfinished := h.finished_iff hstate
        simpa [Truthful, Event.saysCompleted, AsksWhileRunning, htruth] using hfinished
    case isFalse hcompleted =>
      have hstate : O.state s.once ≠ .called := fun hcalled => hcompleted (by
        simp [AsyncOnce.isCompleted, hcalled])
      refine ⟨h, fun htruth => iff_of_true htruth ?_⟩
      rintro ⟨-, d, hd⟩
      exact h.not_running hstate d hd

theorem sound_of_reachable (h : Reachable (step O) (new O) s) : s.Sound O := by
  refine Reach.invariant (I := Sound O) ?_ (fun s a t _ hs _ hstep => (step_spec hs hstep).1) h
  exact ⟨Or.inl ⟨O.state_new, rfl⟩, by simp [new], by simp [new]⟩

theorem length_starts_le_one (h : Reachable (step O) (new O) s) : (starts s.log).length ≤ 1 := by
  rcases (sound_of_reachable h).state with ⟨-, hstarts⟩ | ⟨-, c, hstarts⟩
  · simp [hstarts]
  · simp [hstarts]

/-- Along a run, what was said is true exactly if nobody asks while something is running. -/
theorem truthful_iff (as : List (Action ι)) :
    Always (step O) (fun s => Truthful s.log) (new O) as ↔
      Never (step O) AsksWhileRunning (new O) as :=
  always_iff_never (fun _ _ _ hs htruth hstep => (step_spec (sound_of_reachable hs) hstep).2 htruth)
    .start trivial as

/-- **`Once` and `LocalOnce` run at most one of the given futures and functions**, in every
interleaving of any calls.  That it has finished when a call returns `WasAlreadyCompleted`, or
`is_completed` returns `true`, holds all along a run exactly if nobody calls or asks while it is
running. -/
theorem runs_once :
    (∀ s : Onces Once.Isize ι, Reachable (step Once.asyncOnce) (new Once.asyncOnce) s →
      (starts s.log).length ≤ 1) ∧
    (∀ s : Onces OnceState ι, Reachable (step LocalOnce.asyncOnce) (new LocalOnce.asyncOnce) s →
      (starts s.log).length ≤ 1) ∧
    (∀ as : List (Action ι),
      Always (step Once.asyncOnce) (fun s => Truthful s.log) (new Once.asyncOnce) as ↔
        Never (step Once.asyncOnce) AsksWhileRunning (new Once.asyncOnce) as) ∧
    (∀ as : List (Action ι),
      Always (step LocalOnce.asyncOnce) (fun s => Truthful s.log) (new LocalOnce.asyncOnce) as ↔
        Never (step LocalOnce.asyncOnce) AsksWhileRunning (new LocalOnce.asyncOnce) as) :=
  ⟨fun _ => length_starts_le_one, fun _ => length_starts_le_one, truthful_iff, truthful_iff⟩

/-- Call 0 runs its future to the end before call 1 comes, and call 1 is told the truth. -/
theorem runs_once_apart :
    ∃ s : Onces OnceState (Fin 2),
      Reachable (step LocalOnce.asyncOnce) (new LocalOnce.asyncOnce) s ∧
      s.log = [.refused 1, .finished 0, .started 0] ∧ (starts s.log).length ≤ 1 := by
  refine ⟨_, reachable_of_exec [.callOnce 0, .finish 0, .callOnceSync 1] rfl, rfl, ?_⟩
  exact runs_once.2.1 _ (reachable_of_exec [.callOnce 0, .finish 0, .callOnceSync 1] rfl)

/-- **`WasAlreadyCompleted` too early.** The future of call 0 is still running when call 1 returns
`WasAlreadyCompleted`, and `is_completed` is already `true`. -/
theorem completed_while_running :
    (∃ s : Onces Once.Isize (Fin 2),
      exec (step Once.asyncOnce) (new Once.asyncOnce) [.callOnce 0, .callOnce 1] = some s ∧
      s.calls 0 = .running ∧ s.calls 1 = .returned .wasAlreadyCompleted ∧
      Once.asyncOnce.isCompleted s.once = true ∧ ¬Truthful s.log) ∧
    (∃ s : Onces OnceState (Fin 2),
      exec (step LocalOnce.asyncOnce) (new LocalOnce.asyncOnce) [.callOnce 0, .callOnce 1] =
        some s ∧
      s.calls 0 = .running ∧ s.calls 1 = .returned .wasAlreadyCompleted ∧
      LocalOnce.asyncOnce.isCompleted s.once = true ∧ ¬Truthful s.log) := by
  refine ⟨⟨_, rfl, rfl, rfl, rfl, ?_⟩, ⟨_, rfl, rfl, rfl, rfl, ?_⟩⟩
  · rintro ⟨htruth, -⟩
    obtain ⟨c, -, hfinished⟩ := htruth rfl
    cases List.mem_singleton.mp hfinished
  · rintro ⟨htruth, -⟩
    obtain ⟨c, -, hfinished⟩ := htruth rfl
    cases List.mem_singleton.mp hfinished

end Onces

end Orengine.Sync
