import Orengine.Sync.WaitGroups.Local
import Orengine.Sync.WaitGroups.Shared
import Mathlib.Tactic.SplitIfs

/-!
# What `done` returns

`AsyncWaitGroup::done` is documented to return the current value of the counter.  The one of a
`LocalWaitGroup` does; the one of a `WaitGroup` returns what `fetch_sub` has returned, the value
before the call (`observablyEqual_iff`).
-/

namespace Orengine.Sync

/-- A call that changes the counter of a wait group. -/
inductive WaitGroupCall where
  | add (n : ℕ)
  | done
  deriving DecidableEq

namespace LocalWaitGroup

variable {τ : Type*}

/-- A call by the only task that uses the group, and what it returns; `none` if it panics.  `add`
does so where the build checks for overflow, or the capacity cannot be reserved; `panics` says when,
from the counter and the argument. -/
def call (panics : ℕ → ℕ → Bool) (g : LocalWaitGroup τ) :
    WaitGroupCall → Option (LocalWaitGroup τ × Option ℕ)
  | .add n =>
    if panics g.count n then none
    else some ({ g.add n with count := (g.add n).count % UInt64.size }, none)
  -- nobody waits for the group, so that the loop of `done` has no rounds
  | .done => if 0 < g.count then some (g.done.1, some g.done.1.count) else none

end LocalWaitGroup

namespace WaitGroup

variable {ι τ : Type*} [DecidableEq ι] [DecidableEq τ]

/-- A call by the only task that uses the group, on the executor `i`, and what it returns. -/
def call (i : ι) (g : WaitGroup ι τ) : WaitGroupCall → Option (WaitGroup ι τ × Option ℕ)
  | .add n => (g.step (.add i n)).map (·, none)
  | .done =>
    (g.step (.done i)).bind fun g' =>
      -- `prev_count` is returned after the list has been popped, if it has to be
      if g'.thread i = .donePop then (g'.step (.go i)).map (·, some g.counter)
      else some (g', some g.counter)

end WaitGroup

namespace WaitGroupCall

/-- The values that a run of calls returns, as far as the run goes. -/
def returned {σ : Type*} (call : σ → WaitGroupCall → Option (σ × Option ℕ)) :
    σ → List WaitGroupCall → List ℕ
  | _, [] => []
  | s, c :: cs =>
    match call s c with
    | none => []
    | some (s', value) => value.toList ++ returned call s' cs

/-- The value of the counter after each `done` of the calls. -/
def counts : ℕ → List WaitGroupCall → List ℕ
  | _, [] => []
  | count, .add n :: cs => counts ((count + n) % UInt64.size) cs
  | count, .done :: cs => (count - 1) :: counts (count - 1) cs

/-- The calls never drive the counter below 0. -/
def NeverBelow : ℕ → List WaitGroupCall → Prop
  | _, [] => True
  | count, .add n :: cs => NeverBelow ((count + n) % UInt64.size) cs
  | count, .done :: cs => 0 < count ∧ NeverBelow (count - 1) cs

/-- Each `done` of both wait groups returns the value of the counter after the call, so that both
return the same values; the task that calls the shared one runs on the executor `i`. -/
def ObservablyEqual (panics : ℕ → ℕ → Bool) (i : ℕ) (cs : List WaitGroupCall) : Prop :=
  returned (LocalWaitGroup.call panics) (.new : LocalWaitGroup ℕ) cs = counts 0 cs ∧
    returned (WaitGroup.call i) (.new : WaitGroup ℕ ℕ) cs = counts 0 cs

theorem counts_eq_nil_iff (count : ℕ) (cs : List WaitGroupCall) :
    counts count cs = [] ↔ .done ∉ cs := by
  induction cs generalizing count with
  | nil => simp [counts]
  | cons c cs ih =>
    cases c with
    | add n => simp [counts, ih]
    | done => simp [counts]

/-- A `LocalWaitGroup` returns the counter after the call, and nothing more after a panic. -/
theorem returned_local {τ : Type*} (panics : ℕ → ℕ → Bool) {g : LocalWaitGroup τ}
    {cs : List WaitGroupCall} (h : NeverBelow g.count cs) :
    returned (LocalWaitGroup.call panics) g cs <+: counts g.count cs := by
  induction cs generalizing g with
  | nil => exact List.prefix_rfl
  | cons c cs ih =>
    cases c with
    | add n =>
      simp only [returned, LocalWaitGroup.call, counts, LocalWaitGroup.count_add]
      split_ifs
      · exact ⟨_, List.nil_append _⟩
      · exact ih h
    | done =>
      have hcount : g.done.1.count = g.count - 1 := by
        unfold LocalWaitGroup.done
        split_ifs with hlast
        · exact hlast.symm
        · rfl
      simp only [returned, LocalWaitGroup.call, counts, if_pos h.1, Option.toList_some,
        List.singleton_append, hcount, List.prefix_cons_inj]
      rw [← hcount]
      exact ih (hcount ▸ h.2)

section Shared

variable {ι τ : Type*} [DecidableEq ι] [DecidableEq τ] {g : WaitGroup ι τ} {i : ι}

/-- What a `done` of a `WaitGroup` returns and leaves. -/
theorem call_done (hidle : g.thread i = .idle) (hpos : 0 < g.counter) :
    ∃ g', g.call i .done = some (g', some g.counter) ∧ g'.thread i = .idle ∧
      g'.counter = g.counter - 1 := by
  by_cases hlast : g.counter = 1
  · refine ⟨((g.setCounter 0).goto i .donePop).popAllIn.goto i .idle, ?_, ?_, ?_⟩
    · simp [WaitGroup.call, WaitGroup.step, WaitGroup.go, WaitGroup.goto, hidle, hlast]
    · simp [WaitGroup.goto]
    · rw [hlast]
      rfl
  · refine ⟨(g.setCounter (g.counter - 1)).goto i .idle, ?_, ?_, rfl⟩
    · simp [WaitGroup.call, WaitGroup.step, WaitGroup.goto, hidle, hlast, hpos]
    · simp [WaitGroup.goto]

/-- A `WaitGroup` returns the counter before the call. -/
theorem returned_shared {cs : List WaitGroupCall} (hidle : g.thread i = .idle)
    (h : NeverBelow g.counter cs) :
    returned (WaitGroup.call i) g cs = (counts g.counter cs).map (· + 1) := by
  induction cs generalizing g with
  | nil => rfl
  | cons c cs ih =>
    cases c with
    | add n =>
      have hstep : g.call i (.add n) =
          some (g.setCounter ((g.counter + n) % UInt64.size), none) := by
        simp [WaitGroup.call, WaitGroup.step, hidle]
      simp only [returned, hstep, counts, Option.toList_none, List.nil_append]
      exact ih hidle h
    | done =>
      obtain ⟨g', hcall, hidle', hcounter⟩ := call_done hidle h.1
      simp only [returned, hcall, counts, Option.toList_some, List.singleton_append,
        List.map_cons, Nat.sub_add_cancel h.1]
      rw [ih hidle' (hcounter ▸ h.2), hcounter]

end Shared

/-- **The two wait groups are equal to an observer exactly without `done`.** The calls are those of
one task, and never drive the counter below 0. -/
theorem observablyEqual_iff (panics : ℕ → ℕ → Bool) (i : ℕ) {cs : List WaitGroupCall}
    (h : NeverBelow 0 cs) : ObservablyEqual panics i cs ↔ .done ∉ cs := by
  have hlocal := returned_local panics (g := (.new : LocalWaitGroup ℕ)) h
  have hshared := returned_shared (g := (.new : WaitGroup ℕ ℕ)) (i := i) rfl h
  constructor
  · rintro ⟨-, heq⟩
    rw [← counts_eq_nil_iff 0]
    -- No list of numbers is the list of their successors but the empty one.
    rw [hshared] at heq
    cases hcounts : counts 0 cs with
    | nil => rfl
    | cons n ns => simp [WaitGroup.new, hcounts] at heq
  · intro hdone
    have hnil := (counts_eq_nil_iff 0 cs).mpr hdone
    constructor
    · rw [hnil]
      exact List.prefix_nil.mp (hnil ▸ hlocal)
    · rw [hshared]
      simp [WaitGroup.new, hnil]

theorem observablyEqual_iff_adds :
    NeverBelow 0 [.add 2, .add 3] ∧
      (ObservablyEqual (fun _ _ => false) 0 [.add 2, .add 3] ↔
        WaitGroupCall.done ∉ [.add 2, .add 3]) :=
  ⟨trivial, observablyEqual_iff _ 0 trivial⟩

/-- One unit is added and done: the local wait group returns 0 and the shared one returns 1. -/
theorem done_returns_previous_count :
    NeverBelow 0 [.add 1, .done] ∧
      returned (LocalWaitGroup.call fun _ _ => false) (.new : LocalWaitGroup ℕ)
        [.add 1, .done] = [0] ∧
      returned (WaitGroup.call 0) (.new : WaitGroup ℕ ℕ) [.add 1, .done] = [1] ∧
      ¬ObservablyEqual (fun _ _ => false) 0 [.add 1, .done] := by
  refine ⟨⟨by decide, trivial⟩, rfl, rfl, ?_⟩
  rintro ⟨-, hshared⟩
  exact absurd hshared (by decide)

end WaitGroupCall

end Orengine.Sync
