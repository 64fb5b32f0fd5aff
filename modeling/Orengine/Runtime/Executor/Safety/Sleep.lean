import Mathlib.Data.List.Nodup
import Orengine.Runtime.Executor.Sleep

/-!
# Sleeping tasks as timers

`faithful_timer_queue` is about the maps of sleeping tasks, `not_resumed_early` about the clock.  On
Linux a deadline is counted from 100 microseconds after the start of the round, and not from the
call of `sleep`: only a task that calls `sleep` before that time is sure to sleep as long as it has
asked for (`resumed_early`).
-/

namespace Orengine.Runtime

open Orengine.Lib

namespace Sleeping

/-! ### One executor -/

section Executor

variable {ι : Type*}

/-- Of two events that follow each other, two wakeups come in the order of their keys. -/
def Event.Before : Event ι → Event ι → Prop
  | .woke key _ _, .woke key' _ _ => key < key'
  | _, _ => True

def Event.call : Event ι → ι
  | .slept _ i => i
  | .woke _ i _ => i

/-- What an executor keeps of the sleeping tasks. -/
structure Executor.Sound (x : Executor ι) : Prop where
  /-- What was stored is in the map until it is taken out. -/
  mem_iff : ∀ k i, (k, i) ∈ x.localSleepingTasks ↔
    .slept k i ∈ x.log ∧ ∀ r, .woke k i r ∉ x.log
  key_unique : ∀ k k' i, .slept k i ∈ x.log → .slept k' i ∈ x.log → k = k'
  woke : ∀ k i r, .woke k i r ∈ x.log → .slept k i ∈ x.log ∧ k ≤ r ∧ r ≤ x.startRoundTime
  once : (x.log.filterMap Event.woken?).Nodup
  /-- What is left after a wakeup has later keys. -/
  last : ∀ k i r, x.log.getLast? = some (.woke k i r) → ∀ f ∈ x.localSleepingTasks, k < f.1
  order : x.log.IsChain Event.Before

namespace Executor

variable {x y : Executor ι} {k : ℕ} {i : ι}

theorem sound_init (now : ℕ) : (init now : Executor ι).Sound where
  mem_iff _ _ :=
    ⟨fun h => absurd h (SortedMap.not_mem_empty _), fun h => absurd h.1 List.not_mem_nil⟩
  key_unique _ _ _ h := absurd h List.not_mem_nil
  woke _ _ _ h := absurd h List.not_mem_nil
  once := List.nodup_nil
  last _ _ _ h := by cases h
  order := List.IsChain.nil

theorem Sound.retime (h : x.Sound) (hmap : y.localSleepingTasks = x.localSleepingTasks)
    (hlog : y.log = x.log) (htime : x.startRoundTime ≤ y.startRoundTime) : y.Sound where
  mem_iff := by
    rw [hmap, hlog]
    exact h.mem_iff
  key_unique := by
    rw [hlog]
    exact h.key_unique
  woke k i r hw := by
    rw [hlog] at hw ⊢
    obtain ⟨hslept, hkr, hr⟩ := h.woke k i r hw
    exact ⟨hslept, hkr, hr.trans htime⟩
  once := by
    rw [hlog]
    exact h.once
  last := by
    rw [hmap, hlog]
    exact h.last
  order := by
    rw [hlog]
    exact h.order

theorem Sound.not_woken (h : x.Sound) (hmem : (k, i) ∈ x.localSleepingTasks) :
    i ∉ x.log.filterMap Event.woken? := by
  intro hwoken
  obtain ⟨event, hevent, hi⟩ := List.mem_filterMap.mp hwoken
  cases event with
  | slept k' j => cases hi
  | woke k' j r =>
    obtain rfl := Option.some.inj hi
    obtain ⟨hslept, hwoke⟩ := (h.mem_iff k j).mp hmem
    obtain rfl := h.key_unique k k' j hslept (h.woke k' j r hevent).1
    exact hwoke r hevent

theorem Sound.store (h : x.Sound) (hvacant : x.localSleepingTasks.contains k = false)
    (hfresh : ∀ k', .slept k' i ∉ x.log) :
    (x.store (x.localSleepingTasks.insert k i) k i).Sound where
  mem_iff k' j := by
    have hwoke : ∀ r, Event.woke k i r ∉ x.log := fun r hw => hfresh k (h.woke k i r hw).1
    show _ ∈ x.localSleepingTasks.insert k i ↔ _
    rw [SortedMap.mem_insert_of_vacant hvacant, h.mem_iff]
    simp only [Executor.store, List.mem_append, List.mem_singleton, Event.slept.injEq,
      Prod.mk.injEq, reduceCtorEq, or_false]
    constructor
    · rintro (⟨rfl, rfl⟩ | ⟨hslept, hnot⟩)
      · exact ⟨.inr ⟨rfl, rfl⟩, hwoke⟩
      · exact ⟨.inl hslept, hnot⟩
    · rintro ⟨hslept | hnew, hnot⟩
      · exact .inr ⟨hslept, hnot⟩
      · exact .inl hnew
  key_unique k₁ k₂ j h₁ h₂ := by
    simp only [Executor.store, List.mem_append, List.mem_singleton, Event.slept.injEq] at h₁ h₂
    rcases h₁ with h₁ | ⟨rfl, rfl⟩ <;> rcases h₂ with h₂ | ⟨rfl, h₂⟩
    · exact h.key_unique k₁ k₂ j h₁ h₂
    · exact absurd (h₂ ▸ h₁) (hfresh k₁)
    · exact absurd h₂ (hfresh k₂)
    · rfl
  woke k' j r hw := by
    simp only [Executor.store, List.mem_append, List.mem_singleton, reduceCtorEq, or_false] at hw
    obtain ⟨hslept, htime⟩ := h.woke k' j r hw
    exact ⟨List.mem_append_left _ hslept, htime⟩
  once := by
    rw [Executor.store, List.filterMap_append]
    show (_ ++ []).Nodup
    rw [List.append_nil]
    exact h.once
  last k' j r hlast := by
    rw [Executor.store, List.getLast?_concat] at hlast
    cases hlast
  order := by
    rw [Executor.store, List.isChain_append]
    refine ⟨h.order, List.IsChain.singleton _, ?_⟩
    rintro event - _ ⟨⟩
    cases event with
    | slept | woke => trivial

theorem Sound.wake (h : x.Sound) {rest : SortedMap ℕ ι}
    (hpop : x.localSleepingTasks.popFirst = some ((k, i), rest)) (hk : k ≤ x.startRoundTime) :
    Executor.Sound { x with
      localSleepingTasks := rest
      log := x.log ++ [.woke k i x.startRoundTime] } where
  mem_iff k' j := by
    have hmem := SortedMap.mem_popFirst (f := (k', j)) hpop
    have hne : (k', j) ∈ rest → (k', j) ≠ (k, i) := by
      rintro hrest heq
      exact SortedMap.not_mem_of_popFirst hpop (heq ▸ hrest)
    rw [h.mem_iff] at hmem
    simp only [List.mem_append, List.mem_singleton, reduceCtorEq, or_false, Event.woke.injEq]
    constructor
    · intro hrest
      obtain ⟨hslept, hnot⟩ := hmem.mpr (.inr hrest)
      refine ⟨hslept, fun r => ?_⟩
      rintro (hw | ⟨rfl, rfl, -⟩)
      · exact hnot r hw
      · exact hne hrest rfl
    · rintro ⟨hslept, hnot⟩
      rcases hmem.mp ⟨hslept, fun r hw => hnot r (.inl hw)⟩ with heq | hrest
      · obtain ⟨rfl, rfl⟩ := Prod.mk.inj heq
        exact absurd (.inr ⟨rfl, rfl, rfl⟩) (hnot x.startRoundTime)
      · exact hrest
  key_unique k₁ k₂ j h₁ h₂ := by
    simp only [List.mem_append, List.mem_singleton, reduceCtorEq, or_false] at h₁ h₂
    exact h.key_unique k₁ k₂ j h₁ h₂
  woke k' j r hw := by
    simp only [List.mem_append, List.mem_singleton, Event.woke.injEq, reduceCtorEq,
      or_false] at hw ⊢
    rcases hw with hw | ⟨rfl, rfl, rfl⟩
    · exact h.woke k' j r hw
    · have hmem := (SortedMap.mem_popFirst hpop).mpr (.inl rfl)
      exact ⟨((h.mem_iff k' j).mp hmem).1, hk, le_refl _⟩
  once := by
    have hnot : i ∉ x.log.filterMap Event.woken? :=
      h.not_woken ((SortedMap.mem_popFirst hpop).mpr (.inl rfl))
    rw [List.filterMap_append]
    show (_ ++ [i]).Nodup
    rw [List.nodup_append]
    refine ⟨h.once, List.nodup_singleton i, fun j hj j' hj' => ?_⟩
    rw [List.mem_singleton] at hj'
    rintro rfl
    exact hnot (hj' ▸ hj)
  last k' j r hlast f hf := by
    rw [List.getLast?_concat, Option.some.injEq, Event.woke.injEq] at hlast
    obtain ⟨rfl, -, -⟩ := hlast
    exact SortedMap.lt_of_popFirst hpop hf
  order := by
    rw [List.isChain_append]
    refine ⟨h.order, List.IsChain.singleton _, ?_⟩
    rintro event hevent _ ⟨⟩
    cases event with
    | slept _ _ => trivial
    | woke k' j r =>
      exact h.last k' j r hevent (k, i) ((SortedMap.mem_popFirst hpop).mpr (.inl rfl))

end Executor

end Executor

/-! ### What every run keeps -/

section World

variable {ε ι : Type*} {linux : Bool} {w w' : Sleeping ε ι} {a : Action ε ι} {now : ℕ}

/-- A call and what the executors know of it. -/
structure Fits (w : Sleeping ε ι) (i : ι) (c : Call) : Prop where
  /-- It is not stored under a key before the requested time. -/
  slept : ∀ e k, .slept k i ∈ w.log e → c.future.wasYielded = true ∧ c.requested ≤ k
  yielded : c.future.wasYielded = true → ∃ e k, .slept k i ∈ w.log e
  created : c.future.wasYielded = false → c.requested = c.future.sleepUntil
  taken : c.isTaken = true ↔ ∃ e k r, .woke k i r ∈ w.log e

/-- What holds in every reached state. -/
structure Sound (w : Sleeping ε ι) : Prop where
  executor : ∀ e, (w.executors e).Sound ∧ (w.executors e).startRoundTime ≤ w.clock
  called : ∀ e k i, .slept k i ∈ w.log e → w.calls i ≠ none
  /-- A call sleeps on one executor. -/
  home : ∀ e e' k k' i, .slept k i ∈ w.log e → .slept k' i ∈ w.log e' → e = e'
  fits : ∀ i c, w.calls i = some c → w.Fits i c

variable {i : ι} {c : Call} {e : ε} {x : Executor ι}

/-- Only the events of a call matter for it. -/
theorem Fits.congr (h : w.Fits i c) (hslept : ∀ e k, .slept k i ∈ w'.log e ↔ .slept k i ∈ w.log e)
    (hwoke : ∀ e k r, .woke k i r ∈ w'.log e ↔ .woke k i r ∈ w.log e) : w'.Fits i c where
  slept e k hk := h.slept e k ((hslept e k).mp hk)
  yielded hy := by
    simp only [hslept]
    exact h.yielded hy
  created := h.created
  taken := by
    simp only [hwoke]
    exact h.taken

theorem sound_init : (init now : Sleeping ε ι).Sound where
  executor _ := ⟨Executor.sound_init now, le_refl now⟩
  called _ _ _ h := absurd h List.not_mem_nil
  home _ _ _ _ _ h := absurd h List.not_mem_nil
  fits _ _ h := by cases h

theorem Sound.slept_of_woke (h : w.Sound) {k r : ℕ} (hw : .woke k i r ∈ w.log e) :
    .slept k i ∈ w.log e :=
  ((h.executor e).1.woke k i r hw).1

theorem Sound.tick (h : w.Sound) (nanos : ℕ) : Sound { w with clock := w.clock + nanos } where
  executor e := ⟨(h.executor e).1, (h.executor e).2.trans (Nat.le_add_right w.clock nanos)⟩
  called := h.called
  home := h.home
  fits i c hc := (h.fits i c hc).congr (fun _ _ => Iff.rfl) fun _ _ _ => Iff.rfl

theorem Sound.fresh (h : w.Sound) (hi : ∀ c, w.calls i = some c → c.future.wasYielded = false)
    (e : ε) (k : ℕ) : .slept k i ∉ w.log e := by
  intro hslept
  cases hc : w.calls i with
  | none => exact h.called e k i hslept hc
  | some c =>
    have hyielded := ((h.fits i c hc).slept e k hslept).1
    rw [hi c hc] at hyielded
    cases hyielded

theorem Sound.exists_call (h : w.Sound) {k : ℕ} (hmem : (k, i) ∈ w.tasks e) :
    ∃ c, w.calls i = some c := by
  have hslept := (((h.executor e).1.mem_iff k i).mp hmem).1
  exact Option.ne_none_iff_exists'.mp (h.called e k i hslept)

section Calls

variable [DecidableEq ι]

variable {i : ι} {c : Call}

theorem forall_setCall {P : ι → Call → Prop} (hi : P i c)
    (hother : ∀ j d, j ≠ i → w.calls j = some d → P j d) (j : ι) (d : Call)
    (hd : (w.setCall i c).calls j = some d) : P j d := by
  simp only [setCall] at hd
  by_cases hj : j = i
  · subst hj
    rw [Function.update_self, Option.some.injEq] at hd
    exact hd ▸ hi
  · rw [Function.update_of_ne hj] at hd
    exact hother j d hj hd

theorem setCall_ne_none {j : ι} (h : w.calls j ≠ none) : (w.setCall i c).calls j ≠ none := by
  simp only [setCall]
  by_cases hj : j = i
  · subst hj
    rw [Function.update_self]
    exact Option.some_ne_none c
  · rw [Function.update_of_ne hj]
    exact h

theorem take_eq_setCall (hc : w.calls i = some c) :
    w.take i = w.setCall i { c with isTaken := true } := by
  rw [take, hc]
  rfl

theorem Sound.setCall (h : w.Sound) (hfits : w.Fits i c) : (w.setCall i c).Sound where
  executor := h.executor
  called e k j hslept := setCall_ne_none (h.called e k j hslept)
  home := h.home
  fits := forall_setCall (hfits.congr (fun _ _ => Iff.rfl) fun _ _ _ => Iff.rfl)
    fun j d _ hd => (h.fits j d hd).congr (fun _ _ => Iff.rfl) fun _ _ _ => Iff.rfl

theorem Sound.sleep (h : w.Sound) {e : ε} (duration : ℕ) (hi : w.calls i = none) :
    (w.setCall i (w.call linux e duration)).Sound := by
  have hnew : ∀ e k, .slept k i ∉ w.log e := h.fresh fun c hc => by
    rw [hi] at hc
    cases hc
  apply h.setCall
  constructor
  · intro e' k hslept
    exact absurd hslept (hnew e' k)
  · rintro ⟨⟩
  · intro _
    rfl
  · constructor
    · rintro ⟨⟩
    · rintro ⟨e', k, r, hwoke⟩
      exact absurd (h.slept_of_woke hwoke) (hnew e' k)

theorem Sound.ready (h : w.Sound) (hc : w.calls i = some c) :
    (w.setCall i { c with resumedAt := some w.clock }).Sound := by
  apply h.setCall
  obtain ⟨hslept, hyielded, hcreated, htaken⟩ := h.fits i c hc
  exact ⟨hslept, hyielded, hcreated, htaken⟩

end Calls

variable [DecidableEq ε]

theorem executors_set_self (w : Sleeping ε ι) (e : ε) (x : Executor ι) :
    (w.set e x).executors e = x := by
  simp only [set, Function.update_self]

theorem log_set_of_eq (hx : x.log = w.log e) (e' : ε) : (w.set e x).log e' = w.log e' := by
  show (Function.update w.executors e x e').log = w.log e'
  by_cases he : e' = e
  · subst he
    rw [Function.update_self, hx]
  · rw [Function.update_of_ne he]
    rfl

theorem mem_log_set {event : Event ι} (hx : x.log = w.log e ++ [event]) (e' : ε)
    (event' : Event ι) :
    event' ∈ (w.set e x).log e' ↔ event' ∈ w.log e' ∨ e' = e ∧ event' = event := by
  show event' ∈ (Function.update w.executors e x e').log ↔ _
  by_cases he : e' = e
  · subst he
    rw [Function.update_self, hx, List.mem_append, List.mem_singleton]
    simp
  · rw [Function.update_of_ne he]
    simp [he, log]

theorem Fits.slept_event {key : ℕ} (h : w.Fits i c) (hx : x.log = w.log e ++ [.slept key i])
    (hnew : ∀ e k, .slept k i ∉ w.log e) (hle : c.requested ≤ key) :
    (w.set e x).Fits i { c with future := ⟨true, key⟩ } := by
  have hmem := mem_log_set hx
  constructor
  · intro e' k hslept
    rcases (hmem e' _).mp hslept with hslept | ⟨-, heq⟩
    · exact absurd hslept (hnew e' k)
    · obtain ⟨rfl, -⟩ := Event.slept.inj heq
      exact ⟨rfl, hle⟩
  · intro _
    exact ⟨e, key, (hmem e _).mpr (.inr ⟨rfl, rfl⟩)⟩
  · rintro ⟨⟩
  · simp only [hmem, reduceCtorEq, and_false, or_false]
    exact h.taken

theorem Fits.woke_event {key r : ℕ} (h : w.Fits i c) (hx : x.log = w.log e ++ [.woke key i r]) :
    (w.set e x).Fits i { c with isTaken := true } := by
  have hmem := mem_log_set hx
  constructor
  · simp only [hmem, reduceCtorEq, and_false, or_false]
    exact h.slept
  · simp only [hmem, reduceCtorEq, and_false, or_false]
    exact h.yielded
  · exact h.created
  · exact iff_of_true rfl ⟨e, key, r, (hmem e _).mpr (.inr ⟨rfl, rfl⟩)⟩

theorem Sound.executor_set (h : w.Sound) (hx : x.Sound) (htime : x.startRoundTime ≤ w.clock)
    (e' : ε) :
    ((w.set e x).executors e').Sound ∧ ((w.set e x).executors e').startRoundTime ≤ w.clock := by
  have hforall := Function.forall_update_iff w.executors (a := e) (b := x)
    fun _ y => y.Sound ∧ y.startRoundTime ≤ w.clock
  exact hforall.mpr ⟨⟨hx, htime⟩, fun e' _ => h.executor e'⟩ e'

theorem Sound.retime (h : w.Sound) (hmap : x.localSleepingTasks = w.tasks e)
    (hlog : x.log = w.log e)
    (htime : x.startRoundTime = (w.executors e).startRoundTime ∨ x.startRoundTime = w.clock) :
    (w.set e x).Sound := by
  obtain ⟨hsound, hpast⟩ := h.executor e
  have hx : x.Sound ∧ x.startRoundTime ≤ w.clock := by
    rcases htime with htime | htime
    · exact ⟨hsound.retime hmap hlog htime.ge, htime ▸ hpast⟩
    · exact ⟨hsound.retime hmap hlog (htime ▸ hpast), htime.le⟩
  have heq := log_set_of_eq hlog
  constructor
  · exact h.executor_set hx.1 hx.2
  · intro e' k i hslept
    rw [heq] at hslept
    exact h.called e' k i hslept
  · intro e₁ e₂ k₁ k₂ i h₁ h₂
    rw [heq] at h₁ h₂
    exact h.home e₁ e₂ k₁ k₂ i h₁ h₂
  · intro i c hc
    exact (h.fits i c hc).congr (fun e' _ => by rw [heq]) fun e' _ _ => by rw [heq]

variable [DecidableEq ι]

namespace Sound

variable {c : Call}

/-- One more event of an executor, and what it does to its call. -/
theorem record (h : w.Sound) {e : ε} {x : Executor ι} (event : Event ι) (hx : x.Sound)
    (htime : x.startRoundTime ≤ w.clock) (hlog : x.log = w.log e ++ [event])
    (hcalled : w.calls event.call ≠ none)
    (hnew : ∀ key, event = .slept key event.call → ∀ e k, .slept k event.call ∉ w.log e)
    (hfits : (w.set e x).Fits event.call c) : ((w.set e x).setCall event.call c).Sound := by
  have hmem : ∀ e' event', event' ∈ ((w.set e x).setCall event.call c).log e' ↔
      event' ∈ w.log e' ∨ e' = e ∧ event' = event := mem_log_set hlog
  constructor
  · exact h.executor_set hx htime
  · intro e' k j hslept
    apply setCall_ne_none
    rcases (hmem e' _).mp hslept with hslept | ⟨-, rfl⟩
    · exact h.called e' k j hslept
    · exact hcalled
  · intro e₁ e₂ k₁ k₂ j h₁ h₂
    rw [hmem] at h₁ h₂
    rcases h₁ with h₁ | ⟨rfl, rfl⟩ <;> rcases h₂ with h₂ | ⟨rfl, h₂⟩
    · exact h.home e₁ e₂ k₁ k₂ j h₁ h₂
    · subst h₂
      exact absurd h₁ (hnew k₂ rfl e₁ k₁)
    · exact absurd h₂ (hnew k₁ rfl e₂ k₂)
    · rfl
  · apply forall_setCall
    · exact hfits.congr (fun _ _ => Iff.rfl) fun _ _ _ => Iff.rfl
    · intro j d hj hd
      -- The event is not about the other calls.
      have hother : ∀ e' event', event'.call = j →
          (event' ∈ ((w.set e x).setCall event.call c).log e' ↔ event' ∈ w.log e') := by
        intro e' event' hcall
        refine (hmem e' event').trans (or_iff_left ?_)
        rintro ⟨-, rfl⟩
        exact hj hcall.symm
      exact (h.fits j d hd).congr (fun e' k => hother e' _ rfl) fun e' k r => hother e' _ rfl

theorem store (h : w.Sound) {e : ε} {i : ι} {key : ℕ} (hc : w.calls i = some c)
    (hyielded : c.future.wasYielded = false) (hle : c.future.sleepUntil ≤ key)
    (hvacant : (w.tasks e).contains key = false) :
    ((w.set e ((w.executors e).store ((w.tasks e).insert key i) key i)).setCall i
      { c with future := ⟨true, key⟩ }).Sound := by
  have hnew : ∀ e k, .slept k i ∉ w.log e := h.fresh fun d hd => by
    rw [hc] at hd
    exact Option.some.inj hd ▸ hyielded
  have hfits := h.fits i c hc
  refine h.record (.slept key i) ((h.executor e).1.store hvacant (hnew e))
    (h.executor e).2 rfl ?_ (fun _ _ => hnew) ?_
  · exact hc ▸ Option.some_ne_none c
  · exact hfits.slept_event rfl hnew ((hfits.created hyielded).le.trans hle)

theorem wake (h : w.Sound) {e : ε} {key : ℕ} {i : ι} {rest : SortedMap ℕ ι}
    (hpop : (w.tasks e).popFirst = some ((key, i), rest))
    (hdue : key ≤ (w.executors e).startRoundTime) (hc : w.calls i = some c) :
    ((w.set e { w.executors e with
      localSleepingTasks := rest
      log := w.log e ++ [.woke key i (w.executors e).startRoundTime] }).setCall i
        { c with isTaken := true }).Sound := by
  refine h.record (.woke key i (w.executors e).startRoundTime)
    ((h.executor e).1.wake hpop hdue) (h.executor e).2 rfl ?_ ?_ ?_
  · exact hc ▸ Option.some_ne_none c
  · rintro _ ⟨⟩
  · exact (h.fits i c hc).woke_event rfl

end Sound

end World

/-! ### The timer queue -/

section TimerQueue

variable {ε ι : Type*} {w : Sleeping ε ι}

/-- The sleeping tasks of all executors as a timer queue. -/
structure TimerQueue (w : Sleeping ε ι) : Prop where
  /-- A sleeping task is stored under one key, which is not before the requested time. -/
  stored : ∀ i c, w.calls i = some c → c.isSleeping = true →
    ∃ e k, (k, i) ∈ w.tasks e ∧ c.requested ≤ k ∧
      ∀ e' k', (k', i) ∈ w.tasks e' → e' = e ∧ k' = k
  /-- Nothing else is stored, -/
  sleeping : ∀ e k i, (k, i) ∈ w.tasks e → ∃ c, w.calls i = some c ∧ c.isSleeping = true
  /-- and no two tasks under one key. -/
  not_overwritten : ∀ e k i j, (k, i) ∈ w.tasks e → (k, j) ∈ w.tasks e → i = j
  /-- What sleeps no more was taken out, -/
  taken : ∀ i c, w.calls i = some c → c.future.wasYielded = true → c.isSleeping = false →
    ∃ e k r, .woke k i r ∈ w.log e
  /-- once, -/
  taken_once : ∀ e, ((w.log e).filterMap Event.woken?).Nodup
  /-- by one executor, -/
  taken_by_one : ∀ e e' k k' r r' i, .woke k i r ∈ w.log e → .woke k' i r' ∈ w.log e' → e = e'
  /-- and from its key in a round that has reached it. -/
  taken_due : ∀ e k i r, .woke k i r ∈ w.log e → .slept k i ∈ w.log e ∧ k ≤ r
  /-- Wakeups without a new sleeping task between them come in the order of the keys. -/
  increasing : ∀ e, (w.log e).IsChain Event.Before

theorem Sound.not_woke_of_mem (h : w.Sound) {e e' : ε} {k k' r : ℕ} {i : ι}
    (hmem : (k, i) ∈ w.tasks e) : .woke k' i r ∉ w.log e' := by
  intro hwoke
  obtain ⟨hslept, hnot⟩ := ((h.executor e).1.mem_iff k i).mp hmem
  obtain rfl := h.home e e' k k' i hslept (h.slept_of_woke hwoke)
  obtain rfl := (h.executor e).1.key_unique k k' i hslept (h.slept_of_woke hwoke)
  exact hnot r hwoke

theorem Sound.requested_le_clock (h : w.Sound) {i : ι} {c : Call} (hc : w.calls i = some c)
    (htaken : c.isTaken = true) : c.requested ≤ w.clock := by
  have hfits := h.fits i c hc
  obtain ⟨e, k, r, hoke⟩ := hfits.taken.mp htaken
  obtain ⟨hexecutor, hpast⟩ := h.executor e
  obtain ⟨hslept, hkr, hr⟩ := hexecutor.woke k i r hoke
  calc c.requested ≤ k := (hfits.slept e k hslept).2
    _ ≤ r := hkr
    _ ≤ (w.executors e).startRoundTime := hr
    _ ≤ w.clock := hpast

theorem Sound.timerQueue (h : w.Sound) : w.TimerQueue where
  stored i c hc hsleeping := by
    rw [Call.isSleeping, Bool.and_eq_true, Bool.not_eq_true'] at hsleeping
    obtain ⟨hyielded, hnot⟩ := hsleeping
    have hfits := h.fits i c hc
    obtain ⟨e, k, hslept⟩ := hfits.yielded hyielded
    have hwoke : ∀ r, .woke k i r ∉ w.log e := by
      intro r hwoke
      rw [hfits.taken.mpr ⟨e, k, r, hwoke⟩] at hnot
      cases hnot
    refine ⟨e, k, ((h.executor e).1.mem_iff k i).mpr ⟨hslept, hwoke⟩,
      (hfits.slept e k hslept).2, fun e' k' hmem' => ?_⟩
    have hslept' := (((h.executor e').1.mem_iff k' i).mp hmem').1
    obtain rfl := h.home e' e k' k i hslept' hslept
    exact ⟨rfl, (h.executor e').1.key_unique k' k i hslept' hslept⟩
  sleeping e k i hmem := by
    obtain ⟨c, hc⟩ := h.exists_call hmem
    have hfits := h.fits i c hc
    have hslept := (((h.executor e).1.mem_iff k i).mp hmem).1
    refine ⟨c, hc, ?_⟩
    rw [Call.isSleeping, (hfits.slept e k hslept).1, Bool.true_and, Bool.not_eq_true',
      Bool.eq_false_iff]
    intro htaken
    obtain ⟨e', k', r, hwoke⟩ := hfits.taken.mp htaken
    exact h.not_woke_of_mem hmem hwoke
  not_overwritten _ _ _ _ hi hj := SortedMap.value_unique hi hj
  taken i c hc hyielded hsleeping := by
    rw [Call.isSleeping, hyielded, Bool.true_and, Bool.not_eq_false'] at hsleeping
    exact (h.fits i c hc).taken.mp hsleeping
  taken_once e := (h.executor e).1.once
  taken_by_one e e' k k' r r' i hw hw' :=
    h.home e e' k k' i (h.slept_of_woke hw) (h.slept_of_woke hw')
  taken_due e k i r hw := by
    obtain ⟨hslept, hkr, -⟩ := (h.executor e).1.woke k i r hw
    exact ⟨hslept, hkr⟩
  increasing e := (h.executor e).1.order

end TimerQueue

/-! ### What a step can do -/

section World

variable {ε ι : Type*} [DecidableEq ε] [DecidableEq ι] {linux : Bool} {w w' : Sleeping ε ι}
  {a : Action ε ι} {now : ℕ}

/-- All that a step can do. -/
inductive Effect (linux : Bool) (w : Sleeping ε ι) : Action ε ι → Sleeping ε ι → Prop
  | tick (nanos : ℕ) : Effect linux w (.tick nanos) { w with clock := w.clock + nanos }
  /-- The times of an executor change, and nothing else that matters for the sleeping tasks. -/
  | retime {a : Action ε ι} (e : ε) (x : Executor ι) (hmap : x.localSleepingTasks = w.tasks e)
      (hlog : x.log = w.log e) (htime : x.startRoundTime = (w.executors e).startRoundTime ∨
        x.startRoundTime = w.clock) : Effect linux w a (w.set e x)
  | sleep {e : ε} {i : ι} {duration : ℕ} (hi : w.calls i = none) :
      Effect linux w (.sleep e i duration) (w.setCall i (w.call linux e duration))
  | ready {e : ε} {i : ι} {c : Call} (hc : w.calls i = some c)
      (hyielded : c.future.wasYielded = true) :
      Effect linux w (.poll e i) (w.setCall i { c with resumedAt := some w.clock })
  | store {e : ε} {i : ι} {c : Call} {key : ℕ} (hc : w.calls i = some c)
      (hyielded : c.future.wasYielded = false) (hle : c.future.sleepUntil ≤ key)
      (hvacant : (w.tasks e).contains key = false) :
      Effect linux w (.poll e i)
        ((w.set e ((w.executors e).store ((w.tasks e).insert key i) key i)).setCall i
          { c with future := ⟨true, key⟩ })
  | wake {e : ε} {key : ℕ} {i : ι} {rest : SortedMap ℕ ι} {c : Call} (hc : w.calls i = some c)
      (hpop : (w.tasks e).popFirst = some ((key, i), rest))
      (hdue : key ≤ (w.executors e).startRoundTime) :
      Effect linux w (.next e)
        ((w.set e { w.executors e with
          localSleepingTasks := rest
          log := w.log e ++ [.woke key i (w.executors e).startRoundTime] }).setCall i
            { c with isTaken := true })

theorem effect_of_poll {e : ε} {i : ι} {c : Call} (hc : w.calls i = some c) :
    Effect linux w (.poll e i) (w.pollCall e i c) := by
  rw [pollCall, Sleep.poll]
  by_cases hyielded : c.future.wasYielded = true
  · rw [if_pos hyielded]
    exact .ready hc hyielded
  · rw [if_neg hyielded]
    exact .store hc (Bool.eq_false_iff.mpr hyielded) ((w.tasks e).le_vacantFrom _ _)
      ((w.tasks e).contains_vacantFrom _)

theorem effect_of_next (hw : w.Sound) {e : ε} (h : step linux w (.next e) = some w') :
    Effect linux w (.next e) w' := by
  rw [step] at h
  split at h
  case isFalse => cases h
  case isTrue =>
    rw [Executor.wakeNext] at h
    cases hpop : (w.executors e).localSleepingTasks.popFirst with
    | none =>
      rw [hpop] at h
      obtain rfl := Option.some.inj h
      exact .retime e _ rfl rfl (.inl rfl)
    | some first =>
      obtain ⟨⟨key, i⟩, rest⟩ := first
      by_cases hdue : key ≤ (w.executors e).startRoundTime
      · simp only [hpop, if_pos hdue] at h
        obtain rfl := Option.some.inj h
        have hmem : (key, i) ∈ w.tasks e := (SortedMap.mem_popFirst hpop).mpr (.inl rfl)
        obtain ⟨c, hc⟩ := hw.exists_call hmem
        rw [take_eq_setCall (w := w.set e _) hc]
        exact .wake hc hpop hdue
      · simp only [hpop, if_neg hdue] at h
        obtain rfl := Option.some.inj h
        exact .retime e _ (SortedMap.insert_popFirst hpop) rfl (.inl rfl)

theorem effect_of_step (hw : w.Sound) (h : step linux w a = some w') : Effect linux w a w' := by
  cases a with
  | tick nanos =>
    obtain rfl := Option.some.inj h
    exact .tick nanos
  | newRound e =>
    rw [step] at h
    split at h
    · cases h
    · obtain rfl := Option.some.inj h
      exact .retime e _ rfl rfl (.inr rfl)
  | sleep e i duration =>
    rw [step] at h
    split at h
    · cases h
    case isFalse hi =>
      obtain rfl := Option.some.inj h
      exact .sleep (Option.not_isSome_iff_eq_none.mp hi)
  | poll e i =>
    rw [step] at h
    cases hc : w.calls i with
    | none =>
      rw [hc] at h
      cases h
    | some c =>
      simp only [hc] at h
      split at h
      · cases h
      · exact Option.some.inj h ▸ effect_of_poll hc
  | check e =>
    rw [step] at h
    split at h
    · cases h
    · obtain rfl := Option.some.inj h
      rw [Executor.checkSleepingTasks]
      split
      · exact .retime e _ rfl rfl (.inl rfl)
      · exact .retime e _ rfl rfl (.inr rfl)
  | next e => exact effect_of_next hw h

theorem Sound.effect (hw : w.Sound) (h : Effect linux w a w') : w'.Sound := by
  cases h with
  | tick nanos => exact hw.tick nanos
  | retime e x hmap hlog htime => exact hw.retime hmap hlog htime
  | sleep hi => exact hw.sleep _ hi
  | ready hc _ => exact hw.ready hc
  | store hc hyielded hle hvacant => exact hw.store hc hyielded hle hvacant
  | wake hc hpop hdue => exact hw.wake hpop hdue hc

theorem sound {C : Sleeping ε ι → Action ε ι → Prop} (h : Reach (step linux) C (init now) w) :
    w.Sound :=
  h.invariant sound_init fun _ _ _ _ hw _ hstep => hw.effect (effect_of_step hw hstep)

end World

/-! ### The loop of `check_sleeping_tasks` -/

section Loop

variable {ι : Type*} {x : Executor ι}

/-- The tasks that the loop of `check_sleeping_tasks` takes out if no task goes to sleep. -/
def Executor.due (x : Executor ι) : List (ℕ × ι) :=
  x.localSleepingTasks.entries.filter fun f => f.1 ≤ x.startRoundTime

/-- What the loop of `check_sleeping_tasks` does if no task goes to sleep before it ends: it takes
out the tasks that are due in the order of their keys, and leaves the others. -/
structure Executor.Drained (x y : Executor ι) : Prop where
  ended : y.isChecking = false
  log_eq : y.log = x.log ++ x.due.map fun f => .woke f.1 f.2 x.startRoundTime
  left : y.localSleepingTasks.entries =
    x.localSleepingTasks.entries.filter fun f => x.startRoundTime < f.1

theorem Executor.due_eq_nil :
    x.due = [] ↔ ∀ f ∈ x.localSleepingTasks, x.startRoundTime < f.1 := by
  rw [Executor.due, List.filter_eq_nil_iff]
  simp only [decide_eq_true_eq, not_le]
  rfl

theorem Executor.popFirst_of_due (h : x.due ≠ []) :
    ∃ key i rest, x.localSleepingTasks.popFirst = some ((key, i), rest) ∧
      key ≤ x.startRoundTime := by
  obtain ⟨f, hf⟩ := List.exists_mem_of_ne_nil _ h
  rw [Executor.due, List.mem_filter, decide_eq_true_eq] at hf
  obtain ⟨hmem, hdue⟩ := hf
  cases hpop : x.localSleepingTasks.popFirst with
  | none =>
    rw [SortedMap.popFirst_eq_none.mp hpop] at hmem
    exact absurd hmem List.not_mem_nil
  | some first =>
    obtain ⟨⟨key, i⟩, rest⟩ := first
    refine ⟨key, i, rest, rfl, ?_⟩
    rcases (SortedMap.mem_popFirst hpop).mp hmem with rfl | hrest
    · exact hdue
    · exact (SortedMap.lt_of_popFirst hpop hrest).le.trans hdue

theorem Executor.wakeNext_of_due_nil (h : x.due = []) :
    x.wakeNext.2 = none ∧ x.Drained x.wakeNext.1 := by
  have hlater := Executor.due_eq_nil.mp h
  have hleft : x.localSleepingTasks.entries.filter (fun f => x.startRoundTime < f.1) =
      x.localSleepingTasks.entries := by
    rw [List.filter_eq_self]
    exact fun f hf => decide_eq_true (hlater f hf)
  rw [Executor.wakeNext]
  cases hpop : x.localSleepingTasks.popFirst with
  | none => exact ⟨rfl, rfl, by rw [h]; exact (List.append_nil _).symm, hleft.symm⟩
  | some first =>
    obtain ⟨⟨key, i⟩, rest⟩ := first
    have hkey : ¬key ≤ x.startRoundTime :=
      not_le_of_gt (hlater (key, i) ((SortedMap.mem_popFirst hpop).mpr (.inl rfl)))
    dsimp only
    rw [if_neg hkey]
    refine ⟨rfl, rfl, by rw [h]; exact (List.append_nil _).symm, ?_⟩
    rw [hleft]
    exact congrArg SortedMap.entries (SortedMap.insert_popFirst hpop)

theorem Executor.wakeNext_of_due (h : x.due ≠ []) :
    ∃ i, x.wakeNext.2 = some i ∧ x.wakeNext.1.isChecking = x.isChecking ∧
      x.due.length = x.wakeNext.1.due.length + 1 ∧
      ∀ y, x.wakeNext.1.Drained y → x.Drained y := by
  obtain ⟨key, i, rest, hpop, hdue⟩ := Executor.popFirst_of_due h
  have hentries := SortedMap.popFirst_eq_some.mp hpop
  have hcons : x.due = (key, i) :: rest.entries.filter fun f => f.1 ≤ x.startRoundTime := by
    rw [Executor.due, hentries, List.filter_cons, if_pos (decide_eq_true hdue)]
  have hnext : x.wakeNext = ({ x with
      localSleepingTasks := rest
      log := x.log ++ [.woke key i x.startRoundTime] }, some i) := by
    simp only [Executor.wakeNext, hpop, if_pos hdue]
  rw [hnext]
  refine ⟨i, rfl, rfl, ?_, fun y hy => ?_⟩
  · rw [hcons]
    rfl
  · obtain ⟨hended, hlog, hleft⟩ := hy
    refine ⟨hended, ?_, ?_⟩
    · rw [hlog, hcons, List.map_cons, List.append_assoc]
      rfl
    · rw [hleft, hentries, List.filter_cons_of_neg (by simpa using hdue)]

variable {ε : Type*} [DecidableEq ε] [DecidableEq ι] {linux : Bool}

theorem step_next_none {w : Sleeping ε ι} {e : ε} (he : (w.executors e).isChecking = true)
    (h : (w.executors e).wakeNext.2 = none) :
    step linux w (.next e) = some (w.set e (w.executors e).wakeNext.1) := by
  rw [step, if_pos he]
  split
  case h_1 heq =>
    rw [heq] at h
    cases h
  case h_2 heq => rw [heq]

theorem step_next_some {w : Sleeping ε ι} {e : ε} {i : ι}
    (he : (w.executors e).isChecking = true) (h : (w.executors e).wakeNext.2 = some i) :
    step linux w (.next e) = some ((w.set e (w.executors e).wakeNext.1).take i) := by
  rw [step, if_pos he]
  split
  case h_1 heq =>
    rw [heq] at h ⊢
    obtain rfl := Option.some.inj h
    rfl
  case h_2 heq =>
    rw [heq] at h
    cases h

theorem exists_drained (w : Sleeping ε ι) (e : ε) (he : (w.executors e).isChecking = true) :
    ∃ w', exec (step linux) w (List.replicate ((w.executors e).due.length + 1) (.next e)) =
      some w' ∧ (w.executors e).Drained (w'.executors e) := by
  generalize hn : (w.executors e).due.length = n
  induction n generalizing w with
  | zero =>
    -- No task is due, and the first round ends the loop.
    obtain ⟨hnone, hdrained⟩ :=
      Executor.wakeNext_of_due_nil (List.eq_nil_of_length_eq_zero hn)
    refine ⟨w.set e (w.executors e).wakeNext.1, ?_, ?_⟩
    · rw [List.replicate_one, exec, step_next_none he hnone]
      rfl
    · rw [executors_set_self]
      exact hdrained
  | succ n ih =>
    -- The first round takes out a task, and the induction is about the others.
    have hne : (w.executors e).due ≠ [] := by
      intro hnil
      rw [hnil] at hn
      cases hn
    obtain ⟨i, hi, hchecking, hlength, hdrained⟩ := Executor.wakeNext_of_due hne
    have hself : ((w.set e (w.executors e).wakeNext.1).take i).executors e =
        (w.executors e).wakeNext.1 := executors_set_self w e _
    obtain ⟨w', hexec, hw'⟩ := ih ((w.set e (w.executors e).wakeNext.1).take i)
      (by rw [hself, hchecking, he]) (by rw [hself]; omega)
    refine ⟨w', ?_, ?_⟩
    · rw [List.replicate_succ, exec, step_next_some he hi]
      exact hexec
    · rw [hself] at hw'
      exact hdrained _ hw'

end Loop

/-! ### The results -/

section Results

variable {ε ι : Type*} [DecidableEq ε] [DecidableEq ι] {linux : Bool} {w : Sleeping ε ι} {now : ℕ}

/-- **The sleeping tasks are a timer queue.**  It holds in every state of every run; and from a
state in which an executor is in the loop of `check_sleeping_tasks`, the loop ends, if no task goes
to sleep in the meantime, after it has taken out the tasks that are due and no other. -/
theorem faithful_timer_queue (h : Reachable (step linux) (init now) w) :
    w.TimerQueue ∧ ∀ e, (w.executors e).isChecking = true →
      ∃ w', exec (step linux) w (List.replicate ((w.executors e).due.length + 1) (.next e)) =
        some w' ∧ (w.executors e).Drained (w'.executors e) :=
  ⟨(sound h).timerQueue, exists_drained w⟩

/-- Two tasks ask for the same time, and the first of them sleeps again in the loop of
`check_sleeping_tasks`. -/
def sleepAgain (e : ε) (i j k : ι) : List (Action ε ι) :=
  [.sleep e i 5, .sleep e j 5, .poll e i, .poll e j, .tick 200000, .check e, .next e, .poll e i,
    .sleep e k 7, .poll e k]

theorem faithful_timer_queue_sleepAgain :
    ∃ w : Sleeping Unit ℕ, Reachable (step true) (init 0) w ∧ w.TimerQueue ∧
      (w.tasks ()).entries = [(100006, 1), (100007, 2)] ∧ w.log () =
        [.slept 100005 0, .slept 100006 1, .woke 100005 0 200000, .slept 100007 2] := by
  have hreach : Reachable (step true) (init 0) _ :=
    reachable_of_exec (sleepAgain () 0 1 2) rfl
  exact ⟨_, hreach, (faithful_timer_queue hreach).1, rfl, rfl⟩

/-- A future is polled again only after its task was taken out: tasks wait for one future after
the other. -/
def Awaited (w : Sleeping ε ι) : Action ε ι → Prop
  | .poll _ i => (w.calls i).all (!·.isSleeping) = true
  | _ => True

/-- `sleep` is called before the time that deadlines are counted from.  Where there is no such
field it always is. -/
def InTime (linux : Bool) (w : Sleeping ε ι) : Action ε ι → Prop
  | .sleep e _ _ => w.clock ≤ (w.executors e).startRoundTimeForDeadlinesAt linux w.clock
  | _ => True

/-- A call that was not resumed before the requested time, which is late enough. -/
def Call.Punctual (c : Call) : Prop :=
  c.calledAt + c.duration ≤ c.requested ∧ ∀ r, c.resumedAt = some r → c.requested ≤ r

theorem punctual_effect {w' : Sleeping ε ι} {a : Action ε ι} (hw : w.Sound)
    (hcalls : ∀ i c, w.calls i = some c → c.Punctual) (hawaited : w.Awaited a)
    (htime : w.InTime linux a) (h : Effect linux w a w') :
    ∀ i c, w'.calls i = some c → c.Punctual := by
  cases h with
  | tick | retime => exact hcalls
  | sleep hi =>
    refine forall_setCall ⟨Nat.add_le_add_right htime _, ?_⟩ fun j d _ hd => hcalls j d hd
    rintro r ⟨⟩
  | @ready e i c hc hyielded =>
    refine forall_setCall ⟨(hcalls i c hc).1, ?_⟩ fun j d _ hd => hcalls j d hd
    rintro r ⟨⟩
    have htaken : c.isTaken = true := by
      rw [Awaited, hc] at hawaited
      simpa [Call.isSleeping, hyielded] using hawaited
    have hle : c.requested ≤ w.clock := hw.requested_le_clock hc htaken
    exact hle
  | @store _ i c _ hc | @wake _ _ i _ c hc =>
    obtain ⟨hrequested, hresumed⟩ := hcalls i c hc
    exact forall_setCall ⟨hrequested, hresumed⟩ fun j d _ hd => hcalls j d hd

/-- **No task is resumed early that calls `sleep` in time.** -/
theorem not_resumed_early
    (h : Reach (step linux) (fun w a => w.Awaited a ∧ w.InTime linux a) (init now) w) {i : ι}
    {c : Call} {r : ℕ} (hc : w.calls i = some c) (hr : c.resumedAt = some r) :
    c.calledAt + c.duration ≤ r := by
  have hpunctual : ∀ i c, w.calls i = some c → c.Punctual := by
    refine h.invariant (I := fun w => ∀ i c, w.calls i = some c → c.Punctual) ?_ ?_
    · rintro i c ⟨⟩
    · intro w a w' hreach hcalls hC hstep
      have hw := sound hreach
      exact punctual_effect hw hcalls hC.1 hC.2 (effect_of_step hw hstep)
  obtain ⟨hrequested, hresumed⟩ := hpunctual i c hc
  exact hrequested.trans (hresumed r hr)

instance (w : Sleeping ε ι) : ∀ a, Decidable (w.Awaited a)
  | .poll _ i => inferInstanceAs (Decidable ((w.calls i).all (!·.isSleeping) = true))
  | .tick _ | .newRound _ | .sleep _ _ _ | .check _ | .next _ => inferInstanceAs (Decidable True)

instance (w : Sleeping ε ι) : ∀ a, Decidable (w.InTime linux a)
  | .sleep e _ _ =>
    inferInstanceAs
      (Decidable (w.clock ≤ (w.executors e).startRoundTimeForDeadlinesAt linux w.clock))
  | .tick _ | .newRound _ | .poll _ _ | .check _ | .next _ => inferInstanceAs (Decidable True)

/-- A task goes to sleep some time after the start of the round, and the sleeping tasks are checked
some time later. -/
def sleepAfter (e : ε) (i : ι) (elapsed duration later : ℕ) : List (Action ε ι) :=
  [.newRound e, .tick elapsed, .sleep e i duration, .poll e i, .tick later, .check e, .next e,
    .poll e i]

theorem not_resumed_early_sleepAfter :
    ∃ w : Sleeping Unit ℕ,
      Reach (step true) (fun w a => w.Awaited a ∧ w.InTime true a) (init 0) w ∧
      ∃ c, w.calls 0 = some c ∧ c.resumedAt = some 200000 ∧ c.calledAt + c.duration ≤ 200000 := by
  have hreach : Reach (step true) (fun w a => w.Awaited a ∧ w.InTime true a) (init 0) _ :=
    reach_of_execWhere (sleepAfter () 0 0 50000 200000) rfl
  exact ⟨_, hreach, _, rfl, rfl, not_resumed_early hreach (i := 0) rfl rfl⟩

/-- A task that calls `sleep` for 50 microseconds when the round has lasted for 200 is resumed at
once. -/
theorem resumed_early :
    ∃ w : Sleeping Unit ℕ, Reach (step true) Awaited (init 0) w ∧ ∃ c r, w.calls 0 = some c ∧
      c.resumedAt = some r ∧ r < c.calledAt + c.duration := by
  have hreach : Reach (step true) Awaited (init 0) _ :=
    reach_of_execWhere (sleepAfter () 0 200000 50000 0) rfl
  exact ⟨_, hreach, _, _, rfl, rfl, by decide⟩

end Results

end Sleeping

end Orengine.Runtime
