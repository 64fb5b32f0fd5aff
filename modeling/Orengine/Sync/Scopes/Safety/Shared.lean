import Orengine.Sync.Scopes.Shared
import Orengine.Sync.WaitGroups.Safety.Shared

/-!
# What `shared_scope` waits for

`shared_scope` is to return after all tasks of the scope, and its wait group must not be used any
more then.  Both rest on `WaitGroup::wait`, and both break with it:

* a task that finishes while the body still runs may pop the owner after the body has started
  another task and has ended (`returned_early`, `finished_of_returned`);
* the last `done` decrements the counter before it pops the list, and the handler of `wait` pushes
  the owner before it loads the counter.  Whichever of them wakes the owner, the other may access
  the wait group after `shared_scope` has returned (`used_after_return`, `quiet_of_returned`).
-/

namespace Orengine.Sync.Scope

open Lib

variable {ι τ : Type*} [DecidableEq ι] [DecidableEq τ]

/-! ### What a step can do -/

/-- **The effect of a step**, with the step of the wait group that it is. -/
inductive Effect (s : Scope ι τ) : Action ι τ → Scope ι τ → Prop
  | start {i : ι} {caller : Option τ} {t : τ} {a : Action ι τ} {wg : WaitGroup ι Unit}
    (ha : a = .exec i caller t ∨ a = .spawn i caller t) (hcaller : s.hasScope caller)
    (ht : s.task t = .unstarted) (hroom : s.wg.counter + 1 < UInt64.size)
    (hwg : s.wg.step (.add i 1) = some wg) :
    Effect s a { s with wg := wg, task := Function.update s.task t .running }
  | finish {i : ι} {t : τ} {wg : WaitGroup ι Unit} (ht : s.task t = .running)
    (hwg : s.wg.step (.done i) = some wg) :
    Effect s (.finish i t) { s with wg := wg, task := Function.update s.task t .finished }
  | go {i : ι} {wg : WaitGroup ι Unit} (hwg : s.wg.step (.go i) = some wg) :
    Effect s (.go i) { s with wg := wg }
  | wait {i : ι} {wg : WaitGroup ι Unit} (howner : s.owner = .body)
    (hwg : s.wg.step (.wait i ()) = some wg) :
    Effect s (.wait i) { s with wg := wg, owner := .waiting }
  | resume {wg : WaitGroup ι Unit} (howner : s.owner = .waiting)
    (hwg : s.wg.step (.resume ()) = some wg) :
    Effect s .resume { s with wg := wg, owner := .yielding }
  | leave (howner : s.owner = .yielding) : Effect s .leave { s with owner := .returned }

variable {s : Scope ι τ}

theorem effect_start {s' : Scope ι τ} {i : ι} {caller : Option τ} {t : τ} {a : Action ι τ}
    (ha : a = .exec i caller t ∨ a = .spawn i caller t) (h : s.start i caller t = some s') :
    Effect s a s' := by
  unfold start at h
  split_ifs at h with hstart
  obtain ⟨hcaller, ht, hroom⟩ := hstart
  obtain ⟨wg, hwg, rfl⟩ := Option.map_eq_some_iff.mp h
  exact .start ha hcaller ht hroom hwg

theorem effect_of_step {s' : Scope ι τ} {a : Action ι τ} (h : s.step a = some s') :
    Effect s a s' := by
  cases a with
  | exec i caller t => exact effect_start (Or.inl rfl) h
  | spawn i caller t => exact effect_start (Or.inr rfl) h
  | finish i t =>
    simp only [step] at h
    split_ifs at h with ht
    obtain ⟨wg, hwg, rfl⟩ := Option.map_eq_some_iff.mp h
    exact .finish ht hwg
  | go i =>
    obtain ⟨wg, hwg, rfl⟩ := Option.map_eq_some_iff.mp h
    exact .go hwg
  | wait i =>
    simp only [step] at h
    split_ifs at h with howner
    obtain ⟨wg, hwg, rfl⟩ := Option.map_eq_some_iff.mp h
    exact .wait howner hwg
  | resume =>
    simp only [step] at h
    split_ifs at h with howner
    obtain ⟨wg, hwg, rfl⟩ := Option.map_eq_some_iff.mp h
    exact .resume howner hwg
  | leave =>
    simp only [step] at h
    split_ifs at h with howner
    exact Option.some.inj h ▸ .leave howner

/-- The step does not poll `wait` for the first time in the window of a task that has finished
before, unless no task is running. -/
def Fresh (s : Scope ι τ) : Action ι τ → Prop
  | .wait i => s.wg.Fresh (.wait i ())
  | _ => True

instance [Fintype ι] (s : Scope ι τ) (a : Action ι τ) : Decidable (Fresh s a) := by
  unfold Fresh
  split <;> infer_instance

/-- The steps of a scope are steps of its wait group. -/
theorem wg_of_reach (h : Reach step Fresh new s) :
    Reach WaitGroup.step WaitGroup.Fresh .new s.wg := by
  refine Reach.component (f := Scope.wg) (fun s a s' hfresh hstep => ?_) h
  cases effect_of_step hstep with
  | @start i caller t a wg ha hcaller ht hroom hwg => exact Or.inr ⟨.add i 1, trivial, hwg⟩
  | @finish i t wg ht hwg => exact Or.inr ⟨.done i, trivial, hwg⟩
  | @go i wg hwg => exact Or.inr ⟨.go i, trivial, hwg⟩
  | @wait i wg howner hwg => exact Or.inr ⟨.wait i (), hfresh, hwg⟩
  | resume howner hwg => exact Or.inr ⟨.resume (), trivial, hwg⟩
  | leave howner => exact Or.inl rfl

/-! ### The counter counts the running tasks -/

def TaskState.runs : TaskState → ℕ
  | .running => 1
  | _ => 0

section Counted

variable [Fintype τ]

/-- The counter of the wait group counts the running tasks. -/
def Counted (s : Scope ι τ) : Prop := s.wg.counter = tally TaskState.runs s.task

variable {s : Scope ι τ}

omit [DecidableEq ι] [DecidableEq τ] in
theorem Counted.counter_pos (h : Counted s) {t : τ} (ht : s.task t = .running) :
    0 < s.wg.counter := by
  have hle := le_tally TaskState.runs s.task t
  rw [ht, ← h] at hle
  exact hle

omit [DecidableEq ι] [DecidableEq τ] in
/-- After the body only running tasks can use the scope. -/
theorem Counted.counter_pos_of_hasScope (h : Counted s) (howner : s.owner ≠ .body)
    {caller : Option τ} (hcaller : s.hasScope caller) : 0 < s.wg.counter := by
  cases caller with
  | none => exact absurd hcaller howner
  | some u => exact h.counter_pos hcaller

theorem counted_effect {s' : Scope ι τ} {a : Action ι τ} (h : Counted s) (heffect : Effect s a s') :
    Counted s' := by
  unfold Counted at h ⊢
  cases heffect with
  | @start i caller t a wg ha hcaller ht hroom hwg =>
    have htally := tally_update TaskState.runs s.task t .running
    rw [ht] at htally
    simp only [TaskState.runs] at htally
    cases WaitGroup.effect_of_step hwg with
    | add hi =>
      show (s.wg.counter + 1) % UInt64.size
        = tally TaskState.runs (Function.update s.task t .running)
      rw [Nat.mod_eq_of_lt hroom]
      omega
  | @finish i t wg ht hwg =>
    have htally := tally_update TaskState.runs s.task t .finished
    rw [ht] at htally
    simp only [TaskState.runs] at htally
    cases WaitGroup.effect_of_step hwg with
    | done hi hn =>
      show s.wg.counter - 1 = tally TaskState.runs (Function.update s.task t .finished)
      omega
    | doneLast hi hn =>
      show 0 = tally TaskState.runs (Function.update s.task t .finished)
      omega
  | go hwg =>
    have hframe := (WaitGroup.effect_of_step hwg).go_frame
    exact hframe.1.trans h
  | wait howner hwg =>
    cases WaitGroup.effect_of_step hwg with
    | wait hi ht => exact h
  | resume howner hwg =>
    cases WaitGroup.effect_of_step hwg with
    | resume ht => exact h
  | leave howner => exact h

theorem counted_of_reach {C : Scope ι τ → Action ι τ → Prop} (h : Reach step C new s) :
    Counted s := by
  apply Reach.invariant (I := Counted) ?_ ?_ h
  · exact (tally_const_zero TaskState.runs .unstarted rfl).symm
  · intro s a s' _ hcounted _ hstep
    exact counted_effect hcounted (effect_of_step hstep)

omit [DecidableEq ι] [DecidableEq τ] in
theorem Counted.not_running (h : Counted s) (hzero : s.wg.counter = 0) (t : τ) :
    s.task t ≠ .running := by
  intro ht
  have hpos := h.counter_pos ht
  omega

/-! ### The scope waits for its tasks -/

/-- Once the body has ended, a 0 of the counter is final; and the owner gets past `wait` only
after one. -/
structure Joined (s : Scope ι τ) : Prop where
  final : s.owner ≠ .body → s.wg.sawZero () = true → s.wg.counter = 0
  past : s.owner = .yielding ∨ s.owner = .returned → s.wg.sawZero () = true

theorem joined_effect {s' : Scope ι τ} {a : Action ι τ} (hcounted : Counted s)
    (hzeroed : s.wg.Zeroed) (h : Joined s) (heffect : Effect s a s') : Joined s' := by
  have hbody (howner : s.owner = .yielding ∨ s.owner = .returned) : s.owner ≠ .body := by
    rintro hbody
    rcases howner with howner | howner <;> rw [hbody] at howner <;> cases howner
  cases heffect with
  | @start i caller t a wg ha hcaller ht hroom hwg =>
    cases WaitGroup.effect_of_step hwg with
    | add hi =>
      -- After a final 0 nobody is left to start a task.
      have hsame :
          ((s.wg.counter + 1) % UInt64.size == 0 || s.wg.sawZero ()) = s.wg.sawZero () := by
        rw [Nat.mod_eq_of_lt hroom]
        simp
      constructor
      · intro howner hsaw
        have hsaw : s.wg.sawZero () = true := hsame.symm.trans hsaw
        have hzero := h.final howner hsaw
        have hpos := hcounted.counter_pos_of_hasScope howner hcaller
        omega
      · intro howner
        exact hsame.trans (h.past howner)
  | @finish i t wg ht hwg =>
    have hpos := hcounted.counter_pos ht
    cases WaitGroup.effect_of_step hwg with
    | done hi hn =>
      have hsame : (s.wg.counter - 1 == 0 || s.wg.sawZero ()) = s.wg.sawZero () := by
        simp [show s.wg.counter - 1 ≠ 0 by omega]
      constructor
      · intro howner hsaw
        have hsaw : s.wg.sawZero () = true := hsame.symm.trans hsaw
        have hzero := h.final howner hsaw
        omega
      · intro howner
        exact hsame.trans (h.past howner)
    -- This is the 0 that the owner waits for.
    | doneLast hi hn => exact ⟨fun _ _ => rfl, fun _ => rfl⟩
  | go hwg =>
    obtain ⟨hcounter, hsaw⟩ := (WaitGroup.effect_of_step hwg).go_frame
    constructor
    · intro howner hzero
      exact hcounter.trans (h.final howner (hsaw ▸ hzero))
    · intro howner
      show _ = true
      rw [hsaw]
      exact h.past howner
  | wait howner hwg =>
    cases WaitGroup.effect_of_step hwg with
    | wait hi ht =>
      refine ⟨fun _ hsaw => ?_, fun hpast => ?_⟩
      · simpa [WaitGroup.goto] using hsaw
      · rcases hpast with hpast | hpast <;> cases hpast
  | resume howner hwg =>
    cases WaitGroup.effect_of_step hwg with
    | resume ht =>
      -- Whoever popped the owner did so because of a 0 after its call.
      have hsaw : s.wg.sawZero () = true := hzeroed.woken () ht
      exact ⟨fun _ hsaw => h.final (by simp [howner]) hsaw, fun _ => hsaw⟩
  | leave howner =>
    exact ⟨fun _ => h.final (hbody (Or.inl howner)), fun _ => h.past (Or.inl howner)⟩

/-- **The scope joins its tasks**, if `wait` is not called in the window of a task that has
finished before. -/
theorem finished_of_returned [Fintype ι] (h : Reach step Fresh new s)
    (hreturned : s.owner = .returned) (t : τ) : s.task t ≠ .running := by
  have hjoined : Joined s := by
    apply Reach.invariant (I := Joined) ?_ ?_ h
    · refine ⟨fun howner => absurd rfl howner, fun howner => ?_⟩
      rcases howner with howner | howner <;> cases howner
    · intro s a s' hreach hjoined _ hstep
      exact joined_effect (counted_of_reach hreach) (WaitGroup.zeroed_of_reach (wg_of_reach hreach))
        hjoined (effect_of_step hstep)
  have hsaw := hjoined.past (Or.inr hreturned)
  have hzero := hjoined.final (by simp [hreturned]) hsaw
  exact (counted_of_reach h).not_running hzero t

end Counted

/-- **`shared_scope` returns early.** The first task has decremented the counter to 0 when the body
starts the second one and the owner waits for it; then the first task pops the owner. -/
theorem returned_early :
    ∃ s : Scope (Fin 2) (Fin 2), Reachable step new s ∧ s.owner = .returned ∧
      s.task 1 = .running ∧ s.wg.counter = 1 := by
  have h : Reachable step (new : Scope (Fin 2) (Fin 2)) _ :=
    reachable_of_exec [.spawn 0 none 0, .finish 1 0, .spawn 0 none 1, .wait 0, .go 0, .go 0, .go 1,
      .resume, .leave] rfl
  exact ⟨_, h, rfl, rfl, rfl⟩

/-! ### The scope's wait group is not used after the scope -/

/-- Whether the executor is in the handler of `wait`. -/
def handles : WaitGroup.Thread Unit → ℕ
  | .waitPush _ | .waitLoad | .waitPop => 1
  | _ => 0

/-- The step polls `wait` for the first time only when no `done` is between its decrement and its
last access, and takes the counter to 0 only when the handler of `wait` is not at work. -/
def Quiet (s : Scope ι τ) : Action ι τ → Prop
  | .wait _ => ∀ i, s.wg.thread i ≠ .donePop
  | .finish _ _ => s.wg.counter = 1 → ∀ i, handles (s.wg.thread i) = 0
  | _ => True

instance [Fintype ι] (s : Scope ι τ) (a : Action ι τ) : Decidable (Quiet s a) := by
  unfold Quiet
  split <;> infer_instance

section Orderly

variable [Fintype ι]

/-- The number of executors inside `done` or the handler. -/
def busy (wg : WaitGroup ι Unit) : ℕ :=
  tally handles wg.thread + tally WaitGroup.Thread.popsAll wg.thread

variable {wg wg' : WaitGroup ι Unit} {i : ι} {owner : Owner}

omit [DecidableEq ι] in
theorem busy_pos (hi : wg.thread i ≠ .idle) : 0 < busy wg := by
  have hhandles := le_tally handles wg.thread i
  have hpops := le_tally WaitGroup.Thread.popsAll wg.thread i
  unfold busy
  cases hk : wg.thread i with
  | idle => exact absurd hk hi
  | donePop =>
    rw [hk] at hpops
    simp only [WaitGroup.Thread.popsAll] at hpops
    omega
  | _ =>
    rw [hk] at hhandles
    simp only [handles] at hhandles
    omega

/-- The executor `i` goes on at `p`. -/
theorem busy_goto (wg : WaitGroup ι Unit) (i : ι) (p : WaitGroup.Thread Unit) :
    busy (wg.goto i p) + handles (wg.thread i) + (wg.thread i).popsAll
      = busy wg + handles p + p.popsAll := by
  have hhandles := tally_update handles wg.thread i p
  have hpops := tally_update WaitGroup.Thread.popsAll wg.thread i p
  simp only [busy, WaitGroup.goto]
  omega

/-- After the body one executor at a time accesses the wait group, and none does once the owner is
woken. -/
structure Orderly (owner : Owner) (wg : WaitGroup ι Unit) : Prop where
  body : owner = .body → tally handles wg.thread = 0
  single : owner ≠ .body → busy wg ≤ 1
  zero : owner ≠ .body → (∃ i, (wg.thread i).pops = true) → wg.counter = 0
  woken : owner ≠ .body → wg.task () ≠ .waiting → busy wg = 0 ∧ wg.counter = 0
  past : owner = .yielding ∨ owner = .returned → wg.task () ≠ .waiting

/-- An executor that leaves the wait group keeps the order; it may have woken the owner because of
a 0. -/
theorem Orderly.leave (h : Orderly owner wg) (hi : wg.thread i ≠ .idle)
    (hcounter : wg'.counter = wg.counter) (hthread : wg'.thread = wg.thread)
    (htask : wg'.task () = wg.task () ∨ wg'.task () = .woken ∧ (owner ≠ .body → wg.counter = 0)) :
    Orderly owner (wg'.goto i .idle) := by
  have hpos := busy_pos hi
  have hgoto : busy (wg'.goto i .idle) + 1 = busy wg := by
    have hbusy := busy_goto wg' i .idle
    have hsame : busy wg' = busy wg := by
      simp only [busy, hthread]
    have hone : handles (wg.thread i) + (wg.thread i).popsAll = 1 := by
      cases hk : wg.thread i with
      | idle => exact absurd hk hi
      | _ => rfl
    rw [hthread, hsame] at hbusy
    simp only [handles, WaitGroup.Thread.popsAll] at hbusy hone ⊢
    omega
  constructor
  · intro hbody
    have htally := tally_update handles wg.thread i .idle
    have hzero := h.body hbody
    simp only [WaitGroup.goto, hthread, handles] at htally ⊢
    omega
  · intro hbody
    have hsingle := h.single hbody
    omega
  · intro hbody hpops
    refine hcounter.trans (h.zero hbody ?_)
    rcases WaitGroup.pops_goto hpops with hpops | hpops
    · cases hpops
    · exact hthread ▸ hpops
  · intro hbody hwoken
    have hsingle := h.single hbody
    refine ⟨by omega, hcounter.trans ?_⟩
    rcases htask with htask | ⟨-, hzero⟩
    · -- The owner was woken before, and nobody was inside the wait group then.
      have hidle := (h.woken hbody (htask ▸ hwoken)).1
      omega
    · exact hzero hbody
  · intro hpast
    rcases htask with htask | ⟨htask, -⟩
    · exact htask ▸ h.past hpast
    · show wg'.task () ≠ .waiting
      simp [htask]

theorem Orderly.handle {p : WaitGroup.Thread Unit} (h : Orderly owner wg)
    (hi : handles (wg.thread i) = 1) (hp : handles p = 1) (hpops : p.pops = true → wg.counter = 0)
    (hcounter : wg'.counter = wg.counter) (hthread : wg'.thread = wg.thread)
    (htask : wg'.task () = wg.task ()) : Orderly owner (wg'.goto i p) := by
  have hbody : owner ≠ .body := by
    intro hbody
    have hzero := h.body hbody
    have hle := le_tally handles wg.thread i
    omega
  have hgoto : busy (wg'.goto i p) = busy wg := by
    have hbusy := busy_goto wg' i p
    have hsame : busy wg' = busy wg := by
      simp only [busy, hthread]
    have hnone {k : WaitGroup.Thread Unit} (hk : handles k = 1) : k.popsAll = 0 := by
      cases k with
      | donePop => cases hk
      | _ => rfl
    rw [hthread, hsame, hi, hp, hnone hi, hnone hp] at hbusy
    omega
  constructor
  · intro howner
    exact absurd howner hbody
  · intro _
    rw [hgoto]
    exact h.single hbody
  · intro _ hpop
    refine hcounter.trans ?_
    rcases WaitGroup.pops_goto hpop with hpop | hpop
    · exact hpops hpop
    · exact h.zero hbody (hthread ▸ hpop)
  · intro _ hwoken
    rw [hgoto]
    obtain ⟨hidle, hzero⟩ := h.woken hbody (htask ▸ hwoken)
    exact ⟨hidle, hcounter.trans hzero⟩
  · intro hpast
    exact htask ▸ h.past hpast

theorem Orderly.go (h : Orderly owner wg) (heffect : wg.Effect (.go i) wg') :
    Orderly owner wg' := by
  -- An executor that pops the owner has seen a 0.
  have hzero (hi : (wg.thread i).pops = true) (hbody : owner ≠ .body) : wg.counter = 0 :=
    h.zero hbody ⟨i, hi⟩
  cases heffect with
  | popAll hi =>
    refine h.leave (by simp [hi]) rfl rfl ?_
    by_cases hmem : () ∈ wg.waitedTasks
    · right
      exact ⟨if_pos hmem, hzero (by simp [hi, WaitGroup.Thread.pops])⟩
    · left
      exact if_neg hmem
  | push hi => exact h.handle (by simp [hi, handles]) rfl (fun hpops => by cases hpops) rfl rfl rfl
  | loadZero hi hn => exact h.handle (by simp [hi, handles]) rfl (fun _ => hn) rfl rfl rfl
  | loadMore hi | popNone hi => exact h.leave (by simp [hi]) rfl rfl (Or.inl rfl)
  | pop hi hw =>
    refine h.leave (by simp [hi]) rfl rfl (Or.inr ?_)
    exact ⟨by simp, hzero (by simp [hi, WaitGroup.Thread.pops])⟩

omit [DecidableEq ι] in
theorem Orderly.waiting (h : Orderly owner wg) (howner : owner ≠ .body)
    (hcounter : wg.counter ≠ 0) : wg.task () = .waiting := by
  by_contra hwoken
  exact hcounter (h.woken howner hwoken).2

theorem Orderly.done (h : Orderly owner wg) (hi : wg.thread i = .idle) (hn : 1 < wg.counter) :
    Orderly owner ((wg.setCounter (wg.counter - 1)).goto i .idle) := by
  have hthread : Function.update wg.thread i .idle = wg.thread := by
    rw [← hi, Function.update_eq_self]
  have hbusy : busy ((wg.setCounter (wg.counter - 1)).goto i .idle) = busy wg := by
    simp only [busy, WaitGroup.goto, WaitGroup.setCounter, hthread]
  refine ⟨fun howner => ?_, fun howner => ?_, fun howner hpops => ?_,
    fun howner hwoken => absurd (h.waiting howner (by omega)) hwoken, h.past⟩
  · simp only [WaitGroup.goto, WaitGroup.setCounter, hthread]
    exact h.body howner
  · rw [hbusy]
    exact h.single howner
  · simp only [WaitGroup.goto, WaitGroup.setCounter, hthread] at hpops
    have hzero := h.zero howner hpops
    omega

omit [DecidableEq ι] in
theorem tally_popsAll_eq_zero (h : ∀ i, wg.thread i ≠ .donePop) :
    tally WaitGroup.Thread.popsAll wg.thread = 0 := by
  rw [tally_eq_zero_iff]
  intro i
  cases hi : wg.thread i with
  | donePop => exact absurd hi (h i)
  | _ => rfl

theorem Orderly.doneLast (h : Orderly owner wg) (hi : wg.thread i = .idle) (hn : wg.counter = 1)
    (hquiet : ∀ i, handles (wg.thread i) = 0) :
    Orderly owner ((wg.setCounter 0).goto i .donePop) := by
  have hhandles := tally_update handles wg.thread i .donePop
  rw [hi] at hhandles
  simp only [handles] at hhandles
  refine ⟨fun howner => ?_, fun howner => ?_, fun _ _ => rfl,
    fun howner hwoken => absurd (h.waiting howner (by omega)) hwoken, h.past⟩
  · have hzero := h.body howner
    simp only [WaitGroup.goto, WaitGroup.setCounter]
    omega
  · -- Nobody is inside the wait group: the handler is not, and a pop has seen a 0.
    have hidle : busy (wg.setCounter 0) = 0 := by
      show tally handles wg.thread + tally WaitGroup.Thread.popsAll wg.thread = 0
      rw [tally_eq_zero_iff.mpr hquiet, Nat.zero_add]
      apply tally_popsAll_eq_zero
      intro j hj
      have hzero := h.zero howner ⟨j, by simp [hj, WaitGroup.Thread.pops]⟩
      omega
    have hbusy := busy_goto (wg.setCounter 0) i .donePop
    rw [show (wg.setCounter 0).thread i = .idle from hi] at hbusy
    simp only [handles, WaitGroup.Thread.popsAll] at hbusy
    omega

theorem Orderly.wait (h : Orderly .body wg) (hi : wg.thread i = .idle)
    (hquiet : ∀ j, wg.thread j ≠ .donePop) (sawZero : Unit → Bool) :
    Orderly .waiting ({ wg with
      task := Function.update wg.task () .waiting
      sawZero := sawZero }.goto i (.waitPush ())) := by
  have hhandles := h.body rfl
  refine ⟨by simp, fun _ => ?_, fun _ hpop => ?_, fun _ hwoken => ?_, fun hpast => ?_⟩
  · have hgoto := busy_goto wg i (.waitPush ())
    have hidle : busy wg = 0 := by
      rw [busy, hhandles, tally_popsAll_eq_zero hquiet]
    rw [hi] at hgoto
    simp only [handles, WaitGroup.Thread.popsAll] at hgoto
    show busy (wg.goto i (.waitPush ())) ≤ 1
    omega
  · -- No executor is about to pop.
    rcases WaitGroup.pops_goto hpop with hpop | ⟨j, hj⟩
    · cases hpop
    · have hle := le_tally handles wg.thread j
      have hj : (wg.thread j).pops = true := hj
      cases hk : wg.thread j with
      | donePop => exact absurd hk (hquiet j)
      | waitPop =>
        rw [hk, hhandles] at hle
        cases hle
      | _ =>
        rw [hk] at hj
        cases hj
  · exact absurd (by simp [WaitGroup.goto]) hwoken
  · rcases hpast with hpast | hpast <;> cases hpast

theorem orderly_effect [Fintype τ] {s s' : Scope ι τ} {a : Action ι τ} (hcounted : Counted s)
    (h : Orderly s.owner s.wg) (hquiet : Quiet s a) (heffect : Effect s a s') :
    Orderly s'.owner s'.wg := by
  cases heffect with
  | @start i caller t a wg ha hcaller ht hroom hwg =>
    cases WaitGroup.effect_of_step hwg with
    | add hi =>
      -- After the body a running task starts the new one, and the counter is not 0.
      refine ⟨h.body, h.single, fun howner hpops => ?_, fun howner hwoken => ?_, h.past⟩
      · have hzero := h.zero howner hpops
        have hpos := hcounted.counter_pos_of_hasScope howner hcaller
        omega
      · have hzero := (h.woken howner hwoken).2
        have hpos := hcounted.counter_pos_of_hasScope howner hcaller
        omega
  | finish ht hwg =>
    cases WaitGroup.effect_of_step hwg with
    | done hi hn => exact h.done hi hn
    | doneLast hi hn => exact h.doneLast hi hn (hquiet hn)
  | go hwg => exact h.go (WaitGroup.effect_of_step hwg)
  | wait howner hwg =>
    rw [howner] at h
    cases WaitGroup.effect_of_step hwg with
    | wait hi ht => exact h.wait hi hquiet _
  | resume howner hwg =>
    cases WaitGroup.effect_of_step hwg with
    | resume ht =>
      have hbody : s.owner ≠ .body := by simp [howner]
      have hwoken := h.woken hbody (by simp [ht])
      exact ⟨by simp, fun _ => h.single hbody, fun _ => h.zero hbody, fun _ _ => hwoken,
        fun _ => by simp⟩
  | leave howner =>
    have hbody : s.owner ≠ .body := by simp [howner]
    exact ⟨by simp, fun _ => h.single hbody, fun _ => h.zero hbody, fun _ => h.woken hbody,
      fun _ => h.past (Or.inl howner)⟩

theorem orderly_of_reach [Fintype τ] {s : Scope ι τ} (h : Reach step Quiet new s) :
    Orderly s.owner s.wg := by
  apply Reach.invariant (I := fun s => Orderly s.owner s.wg) ?_ ?_ h
  · refine ⟨fun _ => tally_const_zero handles .idle rfl, fun howner => absurd rfl howner,
      fun howner => absurd rfl howner, fun howner => absurd rfl howner, fun hpast => ?_⟩
    rcases hpast with hpast | hpast <;> cases hpast
  · intro s a s' hreach horderly hquiet hstep
    exact orderly_effect (counted_of_reach hreach) horderly hquiet (effect_of_step hstep)

/-- **Nobody uses the wait group after the scope**, in the runs whose steps are quiet: when
`shared_scope` has returned, no executor is inside `done` or the handler, no task is running, and
no further step is possible. -/
theorem quiet_of_returned [Fintype τ] {s : Scope ι τ} (h : Reach step Quiet new s)
    (hreturned : s.owner = .returned) :
    (∀ i, s.wg.thread i = .idle) ∧ (∀ t, s.task t ≠ .running) ∧ ∀ a, s.step a = none := by
  have horderly := orderly_of_reach h
  obtain ⟨hbusy, hzero⟩ := horderly.woken (by simp [hreturned]) (horderly.past (Or.inr hreturned))
  -- The owner was woken, so that nobody was inside the wait group any more.
  have hidle (i : ι) : s.wg.thread i = .idle := by
    by_contra hi
    have hpos := busy_pos hi
    omega
  have hcounted := counted_of_reach h
  refine ⟨hidle, hcounted.not_running hzero, fun a => ?_⟩
  by_contra hstep
  obtain ⟨s', hs'⟩ := Option.ne_none_iff_exists'.mp hstep
  cases effect_of_step hs' with
  | start ha hcaller ht hroom hwg =>
    have hpos := hcounted.counter_pos_of_hasScope (by simp [hreturned]) hcaller
    omega
  | @finish i t wg ht hwg => exact hcounted.not_running hzero t ht
  | @go i wg hwg =>
    simp only [WaitGroup.step, WaitGroup.go, hidle i] at hwg
    cases hwg
  | wait howner | resume howner | leave howner => simp [hreturned] at howner

/-- The owner starts `t` on the executor `i` and waits; `t` finishes on `j` and wakes it. -/
def joinOne (i j : ι) (t : τ) : List (Action ι τ) :=
  [.spawn i none t, .wait i, .go i, .go i, .finish j t, .go j, .resume, .leave]

theorem quiet_of_returned_joinOne :
    ∃ s : Scope (Fin 2) (Fin 1), Reach step Quiet new s ∧ s.owner = .returned ∧
      s.task 0 = .finished ∧ ∀ a, s.step a = none := by
  have h : Reach step Quiet (new : Scope (Fin 2) (Fin 1)) _ :=
    reach_of_execWhere (joinOne 0 1 0) rfl
  exact ⟨_, h, rfl, rfl, (quiet_of_returned h rfl).2.2⟩

/-- **The wait group is used after its life.** In the first run the task has decremented the counter
and the handler of the owner wakes it; in the second the task wakes the owner, whose handler has not
loaded the counter yet.  Each time `shared_scope` has returned, and the other executor goes on. -/
theorem used_after_return :
    (∃ s s' : Scope (Fin 2) (Fin 1), Reachable step new s ∧ s.owner = .returned ∧
      s.wg.thread 1 = .donePop ∧ s.step (.go 1) = some s') ∧
    (∃ s s' : Scope (Fin 2) (Fin 1), Reachable step new s ∧ s.owner = .returned ∧
      s.wg.thread 0 = .waitLoad ∧ s.step (.go 0) = some s') := by
  have hdone : Reachable step (new : Scope (Fin 2) (Fin 1)) _ :=
    reachable_of_exec [.spawn 0 none 0, .wait 0, .go 0, .finish 1 0, .go 0, .go 0, .resume,
      .leave] rfl
  have hhandler : Reachable step (new : Scope (Fin 2) (Fin 1)) _ :=
    reachable_of_exec [.spawn 0 none 0, .wait 0, .go 0, .finish 1 0, .go 1, .resume, .leave] rfl
  exact ⟨⟨_, _, hdone, rfl, rfl, rfl⟩, ⟨_, _, hhandler, rfl, rfl, rfl⟩⟩

end Orderly

end Orengine.Sync.Scope
