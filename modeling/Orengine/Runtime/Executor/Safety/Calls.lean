import Orengine.Runtime.Executor.Safety.Machine

/-!
# The current call belongs to the innermost poll

A future that leaves a call returns `Pending` at once (`Script`), and so does every poll around it,
up to `exec_task_now`, which handles the call.  So as long as there is a call, the innermost poll is
the one that has left it (`Disciplined`), and all other polls are suspended in code that executes a
task, where there is none.

With this, every step is one of a few moves (`moves_of_step`), each of which keeps the number of
places that a task is in (`Sound`).
-/

namespace Orengine.Runtime.Machine

open Orengine.Lib

variable {τ : Type*}

/-! ### The polls of the futures -/

/-- Whether the poll gives its task away. -/
def Instr.givesAway : Instr τ → Bool
  | .yieldNow | .park | .spawnLocalTask | .wake | .push _ => true
  | .execTask _ | .invokeCall _ => false

/-- What is left of a poll: whether it returns `Ready`, and whether it has its task. -/
inductive Script : List (Instr τ) → Bool → Bool → Prop
  | ready : Script [] true true
  | execTask (t : τ) : Script [.execTask t] true true
  | pending : Script [] false false
  | giveAway (i : Instr τ) (hi : i.givesAway = true) : Script [i] false true
  | parkAndRelease : Script [.park, .invokeCall .releaseAtomicBool] false true
  | release : Script [.invokeCall .releaseAtomicBool] false false
  | call (c : Call) (hc : c ≠ .releaseAtomicBool) : Script [.invokeCall c] false true

theorem Future.givesAway_lowLevelSubscribe (mutex : Option ℕ) :
    (lowLevelSubscribe mutex : Instr τ).givesAway = true := by
  cases mutex <;> rfl

theorem Future.script_of_poll {isSupported : Bool} {future : Future} {stage : Stage}
    {choice : Choice τ} {p : Poll τ} (h : future.poll isSupported stage choice = some p) :
    Script p.instrs p.ready true := by
  unfold Future.poll at h
  split at h
  all_goals cases h
  -- The futures in the order of the table.
  · exact .giveAway _ rfl
  · exact .giveAway _ rfl
  · exact .giveAway _ (by cases isSupported <;> rfl)
  · exact .ready
  · exact .execTask _
  · exact .giveAway _ rfl
  · exact .giveAway _ rfl
  · exact .giveAway _ (givesAway_lowLevelSubscribe _)
  · exact .ready
  · exact .giveAway _ rfl
  · exact .call _ nofun
  · exact .ready
  · exact .execTask _
  · exact .parkAndRelease
  · exact .ready
  · exact .call _ nofun
  · exact .call _ nofun
  · exact .giveAway _ (givesAway_lowLevelSubscribe _)
  · exact .giveAway _ rfl
  · exact .call _ nofun
  · exact .call _ nofun
  · exact .call _ nofun
  · exact .ready
  · exact .giveAway _ rfl
  · exact .giveAway _ rfl
  · exact .ready
  · exact .ready

/-! ### The polls in progress -/

/-- A poll around another one. -/
inductive Suspended : Frame τ → Prop
  | running (t : τ) : Suspended ⟨t, .running, true⟩
  | polling (t : τ) : Suspended ⟨t, .polling [] true, true⟩

/-- The innermost poll, and the call that it may have left. -/
inductive Innermost : Frame τ → Option (Call × τ) → Prop
  | awaits (t : τ) : Innermost ⟨t, .awaits, true⟩ none
  | running (t : τ) : Innermost ⟨t, .running, true⟩ none
  | polling (t : τ) {rest : List (Instr τ)} {ready owns : Bool} (h : Script rest ready owns) :
    Innermost ⟨t, .polling rest ready, owns⟩ none
  | released (t : τ) : Innermost ⟨t, .polling [] false, false⟩ (some (.releaseAtomicBool, t))
  | called (t : τ) (c : Call) (hc : c ≠ .releaseAtomicBool) :
    Innermost ⟨t, .polling [] false, true⟩ (some (c, t))
  | checkCounter (t : τ) (list : ℕ) : Innermost ⟨t, .checkCounter list, false⟩ none

/-- The polls in progress, and the current call. -/
inductive Disciplined : List (Frame τ) → Option (Call × τ) → Prop
  | nil : Disciplined [] none
  | cons {f : Frame τ} {below : List (Frame τ)} {call : Option (Call × τ)} (h : Innermost f call)
    (hbelow : ∀ g ∈ below, Suspended g) : Disciplined (f :: below) call

theorem Suspended.innermost {f : Frame τ} (h : Suspended f) : Innermost f none := by
  cases h with
  | running t => exact .running t
  | polling t => exact .polling t .ready

theorem Disciplined.of_suspended {stack : List (Frame τ)} (h : ∀ g ∈ stack, Suspended g) :
    Disciplined stack none := by
  cases stack with
  | nil => exact .nil
  | cons f below =>
    exact .cons (h f List.mem_cons_self).innermost fun g hg => h g (List.mem_cons_of_mem f hg)

theorem Suspended.cons {f : Frame τ} {below : List (Frame τ)} (h : Suspended f)
    (hbelow : ∀ g ∈ below, Suspended g) : ∀ g ∈ f :: below, Suspended g := by
  intro g hg
  rcases List.mem_cons.mp hg with rfl | hg
  · exact h
  · exact hbelow g hg

namespace State

variable {cfg : Config} {s s' m : State τ} {t : τ} {a : Action τ}

/-- The code that runs may execute a task. -/
def Interruptible (s : State τ) : Prop := (∀ g ∈ s.stack, Suspended g) ∧ s.currentCall = none

theorem Interruptible.disciplined (h : s.Interruptible) : Disciplined s.stack s.currentCall := by
  rw [h.2]
  exact .of_suspended h.1

theorem Interruptible.of_nil (hd : Disciplined s.stack s.currentCall) (hstack : s.stack = []) :
    s.Interruptible := by
  rw [hstack] at hd
  cases hcall : s.currentCall with
  | none => exact ⟨by simp [hstack], hcall⟩
  | some c =>
    rw [hcall] at hd
    cases hd

theorem Stays.disciplined (h : Stays s s') (hd : Disciplined s.stack s.currentCall) :
    Disciplined s'.stack s'.currentCall := by
  rw [h.stack, h.currentCall]
  exact hd

variable [DecidableEq τ]

/-! ### What a step does -/

/-- Only a task that is elsewhere, or that is polled, changes its locality. -/
def LocalityKept (s s' : State τ) : Prop :=
  ∀ x, s'.isLocal x = s.isLocal x ∨ s.elsewhere x = true ∨ 0 < owned s.stack x

theorem LocalityKept.of_eq (h : s'.isLocal = s.isLocal) : LocalityKept s s' :=
  fun x => .inl (congrFun h x)

theorem isLocal_setLocality_of_ne (s : State τ) (isLocal : Bool) {x : τ} (hne : x ≠ t) :
    (s.setLocality t isLocal).isLocal x = s.isLocal x := by
  simp only [setLocality]
  exact Function.update_of_ne hne isLocal s.isLocal

inductive Moves (cfg : Config) (a : Action τ) (s : State τ) : State τ → Prop
  /-- No task is polled, and the local queue only grows. -/
  | shift {s' : State τ} (h : Keeps s s') (hl : LocalityKept s s')
    (hd : Disciplined s'.stack s'.currentCall) (ht : ∀ x, s'.total x ≤ s.total x) :
    Moves cfg a s s'
  /-- A task is polled that was not in the local queue. -/
  | exec {m : State τ} {t : τ} (h : Keeps s m) (hl : m.isLocal = s.isLocal)
    (hm : ∀ g ∈ m.stack, Suspended g) (hcall : m.currentCall = none)
    (ht : ∀ x, m.total x + oneAt t x ≤ s.total x) : Moves cfg a s (m.execTaskNow t)
  /-- A local task yields. -/
  | yields {stack : List (Frame τ)} {t : τ} (hd : Disciplined stack s.currentCall)
    (ht : ∀ x, owned stack x + oneAt t x = owned s.stack x) (hlocal : s.isLocal t = true) :
    Moves cfg a s ((s.setStack stack).yieldLocal t)
  /-- The last task of the local queue is executed. -/
  | execLocal {n : ℕ} {t : τ} (hphase : s.phase = .localTasks (n + 1))
    (hlast : s.localTasks.getLast? = some t) (hstack : s.stack = []) :
    Moves cfg a s ((s.popLocal n).execTask cfg t)
  | noLocalTask {n : ℕ} (hphase : s.phase = .localTasks (n + 1)) (hempty : s.localTasks = []) :
    Moves cfg a s (s.fail .numberOfLocalTasks)
  | takeOut {i : ℕ} {t : τ} (ha : a = .own (.takeOut i)) (hi : s.localTasks[i]? = some t) :
    Moves cfg a s ((s.removeAt t i).putAway t)

omit [DecidableEq τ] in
theorem Interruptible.of_ownCodeRuns (hd : Disciplined s.stack s.currentCall)
    (h : s.ownCodeRuns = true) : s.Interruptible := by
  unfold ownCodeRuns at h
  split at h
  case h_1 f below hstack =>
    rw [hstack] at hd
    cases hcall : s.currentCall with
    | none =>
      rw [hcall] at hd
      cases hd with
      | cons hf hbelow =>
        refine ⟨fun g hg => ?_, hcall⟩
        rw [hstack] at hg
        refine Suspended.cons ?_ hbelow g hg
        cases hf with
        | running t => exact .running t
        | _ => cases h
    | some c =>
      rw [hcall] at hd
      cases hd with
      | cons hf hbelow => cases hf <;> cases h
  case h_2 hstack => exact .of_nil hd hstack

/-- What keeps the polls and the number of places of every task. -/
theorem Moves.of_stays (hd : Disciplined s.stack s.currentCall) (h : Stays s s')
    (ht : ∀ x, s'.total x ≤ s.total x) : Moves cfg a s s' :=
  .shift h.toKeeps (.of_eq h.isLocal) (h.disciplined hd) ht

theorem Moves.of_phase (hd : Disciplined s.stack s.currentCall) {p : Phase}
    (hp : ∀ n, p ≠ .localTasks n) : Moves cfg a s { s with phase := p } :=
  .of_stays hd ⟨.of_eq (.refl _) (fun n hn => absurd hn (hp n)) rfl rfl, rfl, rfl, rfl⟩
    fun _ => Nat.le_refl _

/-- A task has left its place, and comes to another one. -/
theorem Moves.of_keeps_passes (h : Keeps s m) (hl : LocalityKept s m)
    (hd : Disciplined m.stack m.currentCall) (ht : ∀ x, m.total x + oneAt t x ≤ s.total x)
    (h' : Passes m t s') : Moves cfg a s s' := by
  refine .shift (h.trans h'.toKeeps) ?_ (h'.toStays.disciplined hd) fun x => ?_
  · intro x
    rw [h'.isLocal]
    exact hl x
  · have hm := ht x
    have hs' := h'.total x
    omega

theorem Moves.of_passes (hd : Disciplined s.stack s.currentCall) (h : Loses s t m)
    (h' : Passes m t s') : Moves cfg a s s' :=
  .of_keeps_passes h.toKeeps (.of_eq h.isLocal) (h.toStays.disciplined hd) h.total h'

/-- The innermost poll is at a place where it may execute a task, and does so, or enqueues it. -/
theorem Moves.of_setStack_exec (stack : List (Frame τ)) (hs : (s.setStack stack).Interruptible)
    (hle : ∀ x, owned stack x ≤ owned s.stack x) (h : Loses (s.setStack stack) t m)
    (h' : s' = m.execTaskNow t ∨ Passes m t s') : Moves cfg a s s' := by
  have hkeeps : Keeps s m := (keeps_setStack s stack).trans h.toKeeps
  have ht (x : τ) : m.total x + oneAt t x ≤ s.total x := by
    have hm := h.total x
    have hx := total_setStack s stack x
    have hlex := hle x
    omega
  rcases h' with rfl | h'
  · refine .exec hkeeps h.isLocal ?_ (h.currentCall.trans hs.2) ht
    rw [h.stack]
    exact hs.1
  · exact .of_keeps_passes hkeeps (.of_eq h.isLocal) (h.toStays.disciplined hs.disciplined) ht h'

theorem Moves.of_exec (hs : s.Interruptible) (h : Loses s t m)
    (h' : s' = m.execTaskNow t ∨ Passes m t s') : Moves cfg a s s' :=
  .of_setStack_exec s.stack hs (fun _ => le_rfl) h h'

/-! ### The loop -/

theorem moves_of_loop {b : Loop τ} (hd : Disciplined s.stack s.currentCall) (hstack : s.stack = [])
    (h : s.loop cfg b = some s') : Moves cfg a s s' := by
  have hs := Interruptible.of_nil hd hstack
  cases b with
  | prepareToNewRound =>
    obtain ⟨-, rfl⟩ := of_guard h
    exact .of_stays hd ⟨.of_eq (.refl _) (by rintro n ⟨⟩) rfl rfl, rfl, rfl, rfl⟩
      fun x => Nat.le_refl _
  | takeBatchOfTasks =>
    obtain ⟨-, rfl⟩ := of_guard h
    refine .of_stays hd ⟨.of_eq ?_ (fun n hn => .inl hn) rfl rfl, rfl, rfl, rfl⟩ fun x => ?_
    · exact List.sublist_append_left _ _
    · simp only [State.total, List.count_append, List.count_nil]
      omega
  | beginLocal =>
    obtain ⟨-, rfl⟩ := of_guard h
    refine .of_stays hd ⟨.of_eq (.refl _) ?_ rfl rfl, rfl, rfl, rfl⟩ fun x => Nat.le_refl _
    intro n hn
    cases hn
    exact .inr le_rfl
  | execLocal =>
    simp only [loop] at h
    split at h
    case h_1 n hphase =>
      split at h
      case h_1 t hlast =>
        cases h
        exact .execLocal hphase hlast hstack
      case h_2 hlast =>
        cases h
        exact .noLocalTask hphase (List.getLast?_eq_none_iff.mp hlast)
    case h_2 => cases h
  | beginShared | endTake | endSleeping | endRound =>
    obtain ⟨-, rfl⟩ := of_guard h
    exact .of_phase hd (by rintro n ⟨⟩)
  | execShared =>
    simp only [loop] at h
    split at h
    case h_1 n hphase =>
      split at h
      case h_1 t hlast =>
        cases h
        exact .of_exec hs (loses_popShared hlast) (execTask_cases cfg _ t)
      case h_2 =>
        cases h
        exact .of_phase hd (by rintro n ⟨⟩)
    case h_2 =>
      cases h
      exact .of_phase hd (by rintro n ⟨⟩)
    case h_3 => cases h
  | takeWorkIfNeeded =>
    obtain ⟨-, rfl⟩ := of_guard h
    unfold takeWorkIfNeeded
    split
    case h_1 level hlevel =>
      split_ifs
      · exact .of_phase hd (by rintro n ⟨⟩)
      · exact .of_phase hd (by rintro n ⟨⟩)
      · refine .of_stays hd ⟨.of_eq (.refl _) (by rintro n ⟨⟩) rfl rfl, rfl, rfl, rfl⟩ ?_
        intro x
        have hcount := WorkSharing.count_popTasks (level - s.sharedTasks.length) s.sharedTasks
          s.sharedTasksList x
        simp only [State.total]
        omega
    case h_2 => exact .of_phase hd (by rintro n ⟨⟩)
  | takeOther t =>
    obtain ⟨⟨-, ht⟩, rfl⟩ := of_guard h
    exact .of_passes hd (loses_take ht) (passes_pushBackShared _ t)
  | pollThreadPool =>
    obtain ⟨-, rfl⟩ := of_guard h
    refine .of_stays hd ⟨.of_eq ?_ (by rintro n ⟨⟩) rfl rfl, rfl, rfl, rfl⟩ fun x => ?_
    · exact List.sublist_append_left _ _
    · simp only [State.total, List.count_append, List.count_nil]
      omega
  | wakeSleeping t | complete t =>
    obtain ⟨⟨-, ht⟩, rfl⟩ := of_guard h
    exact .of_exec hs (loses_take ht) (wakeUp_cases cfg _ t)

/-! ### A task's own code, and other threads -/

theorem moves_pop {list : ℕ} (hd : Disciplined s.stack s.currentCall)
    (h : ((s.pop list).map fun r => r.2.putAway r.1) = some s') : Moves cfg a s s' := by
  obtain ⟨⟨t, m⟩, hpop, rfl⟩ := Option.map_eq_some_iff.mp h
  exact .of_passes hd (loses_pop hpop) (passes_putAway m t)

/-- A task that is elsewhere comes to a place of the executor. -/
theorem moves_of_withTask {f : State τ → State τ} (hd : Disciplined s.stack s.currentCall)
    (hf : ∀ m, Passes m t (f m)) (h : s.withTask t f = some s') : Moves cfg a s s' := by
  obtain ⟨ht, rfl⟩ := of_guard h
  exact .of_passes hd (loses_take ht) (hf _)

theorem moves_of_own {b : Own τ} (hs : s.Interruptible) (h : s.own cfg b = some s') :
    Moves cfg (.own b) s s' := by
  have hd := hs.disciplined
  cases b with
  | execTask t =>
    obtain ⟨ht, rfl⟩ := of_guard h
    exact .of_exec hs (loses_take ht) (execTask_cases cfg _ t)
  | execTaskNow t =>
    obtain ⟨ht, rfl⟩ := of_guard h
    exact .of_exec hs (loses_take ht) (.inl rfl)
  | spawnLocalTask t => exact moves_of_withTask hd (passes_spawnLocalTask cfg · t) h
  | spawnSharedTask t => exact moves_of_withTask hd (passes_spawnSharedTask cfg · t) h
  | spawnTask t => exact moves_of_withTask hd (passes_spawnTask cfg · t) h
  | push list t => exact moves_of_withTask hd (passes_push cfg · t list) h
  | pop list =>
    rw [own] at h
    exact moves_pop hd h
  | takeOut i =>
    simp only [own] at h
    split at h
    case h_1 t hi =>
      cases h
      exact .takeOut rfl hi
    case h_2 => cases h
  | putIn i t =>
    simp only [own, Option.ite_none_right_eq_some] at h
    obtain ⟨hi, h⟩ := h
    obtain ⟨ht, rfl⟩ := of_guard h
    exact .of_passes hd (loses_take ht) (passes_insertAt _ t hi)

theorem moves_of_env {b : Env τ} (hd : Disciplined s.stack s.currentCall)
    (h : s.env cfg b = some s') : Moves cfg a s s' := by
  cases b with
  | push list t => exact moves_of_withTask hd (passes_push cfg · t list) h
  | pop list =>
    rw [env] at h
    exact moves_pop hd h
  | takeShared i =>
    simp only [env] at h
    split at h
    case h_1 t hi =>
      cases h
      exact .of_passes hd (loses_removeShared hi) (passes_putAway _ t)
    case h_2 => cases h
  | setLocked isListLocked =>
    cases h
    exact .of_stays hd (.of_rfl rfl rfl rfl rfl rfl rfl rfl) fun x => Nat.le_refl _
  | send t => exact moves_of_withTask hd (passes_receive · t) h
  | worker i =>
    simp only [env] at h
    split at h
    case h_1 t hi =>
      cases h
      unfold pushResult
      split
      case isTrue => exact .of_stays hd (stays_fail rfl) fun x => Nat.le_refl _
      case isFalse =>
        refine .of_stays hd (.of_rfl rfl rfl rfl rfl rfl rfl rfl) fun x => ?_
        have := count_eraseIdx hi x
        simp only [State.total, count_concat]
        omega
    case h_2 => cases h
  | change t isLocal awaited =>
    obtain ⟨ht, rfl⟩ := of_guard h
    refine .shift (.of_rfl rfl rfl rfl rfl) (fun x => ?_) hd fun x => Nat.le_refl _
    rcases eq_or_ne x t with rfl | hne
    · exact .inr (.inl ht)
    · exact .inl (isLocal_setLocality_of_ne _ isLocal hne)

/-! ### The innermost poll -/

theorem Moves.of_setStack {stack : List (Frame τ)} (hd : Disciplined stack s.currentCall)
    (ht : ∀ x, owned stack x ≤ owned s.stack x) : Moves cfg a s (s.setStack stack) :=
  .shift (keeps_setStack s stack) (.of_eq rfl) hd (total_setStack_le ht)

theorem Moves.of_setAwaited {stack : List (Frame τ)} {awaited : Option (Future × Stage)}
    (hd : Disciplined stack s.currentCall) (ht : ∀ x, owned stack x ≤ owned s.stack x) :
    Moves cfg a s ((s.setStack stack).setAwaited t awaited) :=
  .shift (.of_rfl rfl rfl rfl rfl) (.of_eq rfl) hd (total_setStack_le ht)

theorem Moves.of_giveAway {stack : List (Frame τ)} (hd : Disciplined stack s.currentCall)
    (ht : ∀ x, owned stack x + oneAt t x = owned s.stack x) (h : Passes (s.setStack stack) t s') :
    Moves cfg a s s' := by
  refine .of_keeps_passes (keeps_setStack s stack) (.of_eq rfl) hd (fun x => ?_) h
  have hx := total_setStack s stack x
  have hlt := ht x
  omega

theorem Moves.of_invokeCall {stack : List (Frame τ)} {c : Call} (hcall : s.currentCall = none)
    (hd : Disciplined stack (some (c, t))) (ht : ∀ x, owned stack x = owned s.stack x) :
    Moves cfg a s ((s.setStack stack).invokeCall cfg t c) := by
  have hinvoke : (s.setStack stack).invokeCall cfg t c =
      { s.setStack stack with currentCall := some (c, t) } := by
    simp [invokeCall, setStack, hcall]
  rw [hinvoke]
  exact .shift (.of_rfl rfl rfl rfl rfl) (.of_eq rfl) hd (total_setStack_le fun x => (ht x).le)

omit [DecidableEq τ] in
theorem keeps_takeCall (s : State τ) (below : List (Frame τ)) (t : τ) :
    Keeps s ((s.setStack below).takeCall t t) := by
  refine ⟨.refl _, fun n hn => .inl hn, ⟨_, rfl, fun e he => ?_⟩, fun a ha => .inl ha⟩
  rw [List.mem_singleton] at he
  exact he ▸ .handled t

section Code

variable {below : List (Frame τ)} {rest : List (Instr τ)} {ready : Bool}
  (hbelow : ∀ g ∈ below, Suspended g)

include hbelow

theorem moves_of_poll {choice : Choice τ} (hstack : s.stack = ⟨t, .awaits, true⟩ :: below)
    (hcall : s.currentCall = none) (h : s.poll cfg ⟨t, .awaits, true⟩ below choice = some s') :
    Moves cfg a s s' := by
  have howned (p : Place τ) (x : τ) :
      owned (⟨t, p, true⟩ :: below) x ≤ owned s.stack x := by
    rw [hstack, owned_cons_true, owned_cons_true]
  unfold poll at h
  split at h
  case h_1 =>
    cases h
    refine .of_setStack ?_ (howned _)
    rw [hcall]
    exact .cons (.running t) hbelow
  case h_2 future stage _ =>
    split at h
    case isTrue =>
      cases h
      refine .of_stays ?_ (stays_fail rfl) fun x => Nat.le_refl _
      rw [hstack, hcall]
      exact .cons (.awaits t) hbelow
    case isFalse =>
      split at h
      case h_1 p hp =>
        cases h
        refine .of_setAwaited ?_ (howned _)
        rw [hcall]
        exact .cons (.polling t (Future.script_of_poll hp)) hbelow
      case h_2 => cases h

theorem moves_of_givesAway {i : Instr τ} (hi : i.givesAway = true)
    (hrest : Script rest ready false)
    (hstack : s.stack = ⟨t, .polling (i :: rest) ready, true⟩ :: below)
    (hcall : s.currentCall = none)
    (h : s.instr cfg ⟨t, .polling (i :: rest) ready, true⟩ below rest ready i = some s') :
    Moves cfg a s s' := by
  have hd : Disciplined (⟨t, .polling rest ready, false⟩ :: below) s.currentCall := by
    rw [hcall]
    exact .cons (.polling t hrest) hbelow
  have howned (x : τ) : owned (⟨t, .polling rest ready, false⟩ :: below) x + oneAt t x =
      owned s.stack x := by
    rw [hstack, owned_cons_true, owned_cons_false]
  cases i with
  | yieldNow =>
    cases h
    split
    case isTrue hlocal => exact .yields hd howned hlocal
    case isFalse => exact .of_giveAway hd howned (passes_pushFrontShared _ t)
  | park =>
    cases h
    exact .of_giveAway hd howned (passes_putAway _ t)
  | spawnLocalTask =>
    cases h
    exact .of_giveAway hd howned (passes_spawnLocalTask cfg _ t)
  | wake =>
    cases h
    exact .of_giveAway hd howned (passes_spawnTask cfg _ t)
  | push list =>
    cases h
    exact .of_giveAway hd howned (passes_push cfg _ t list)
  | execTask | invokeCall => cases hi

theorem moves_of_instr {i : Instr τ} {owns : Bool} (hscript : Script (i :: rest) ready owns)
    (hstack : s.stack = ⟨t, .polling (i :: rest) ready, owns⟩ :: below)
    (hcall : s.currentCall = none)
    (h : s.instr cfg ⟨t, .polling (i :: rest) ready, owns⟩ below rest ready i = some s') :
    Moves cfg a s s' := by
  cases hscript with
  | execTask u =>
    obtain ⟨hu, rfl⟩ := of_guard h
    refine .of_setStack_exec (⟨t, .polling [] true, true⟩ :: below) ?_ (fun x => ?_)
      (loses_take hu) (execTask_cases cfg _ u)
    · exact ⟨Suspended.cons (.polling t) hbelow, hcall⟩
    · rw [hstack, owned_cons_true, owned_cons_true]
  | giveAway i hi => exact moves_of_givesAway hbelow hi .pending hstack hcall h
  | parkAndRelease => exact moves_of_givesAway hbelow rfl .release hstack hcall h
  | release =>
    cases h
    refine .of_invokeCall hcall (.cons (.released t) hbelow) fun x => ?_
    rw [hstack, owned_cons_false, owned_cons_false]
  | call c hc =>
    cases h
    refine .of_invokeCall hcall (.cons (.called t c hc) hbelow) fun x => ?_
    rw [hstack, owned_cons_true, owned_cons_true]

/-- `handle_call`, for a call of the poll that has just returned. -/
theorem moves_of_handleCall {c : Call} (hc : c ≠ .releaseAtomicBool) {place : Place τ}
    (hstack : s.stack = ⟨t, place, true⟩ :: below) :
    Moves cfg a s (((s.setStack below).takeCall t t).handleCall cfg t c) := by
  have hkeeps := keeps_takeCall s below t
  have ht (x : τ) : ((s.setStack below).takeCall t t).total x + oneAt t x ≤ s.total x := by
    have hx := total_setStack s below x
    rw [hstack, owned_cons_true] at hx
    exact (show (s.setStack below).total x + oneAt t x ≤ s.total x by omega)
  have hd := Disciplined.of_suspended hbelow
  cases c with
  | pushCurrentTaskAtTheStartOfLIFOSharedQueue =>
    exact .of_keeps_passes hkeeps (.of_eq rfl) hd ht (passes_pushFrontShared _ t)
  | pushCurrentTaskTo list =>
    exact .of_keeps_passes hkeeps (.of_eq rfl) hd ht (passes_push cfg _ t list)
  | pushCurrentTaskToAndRemoveItIfCounterIsZero list =>
    exact .of_keeps_passes (hkeeps.trans (keeps_setStack _ _)) (.of_eq rfl)
      (.cons (.checkCounter t list) hbelow) ht (passes_push cfg _ t list)
  | releaseAtomicBool => exact absurd rfl hc
  | pushFnToThreadPool =>
    refine .of_keeps_passes hkeeps (.of_eq rfl) hd ht ?_
    rw [handleCall]
    split
    case isTrue => exact passes_fail rfl
    case isFalse =>
      refine ⟨.of_rfl rfl rfl rfl rfl rfl rfl rfl, fun x => ?_⟩
      simp only [State.total, count_concat]
      omega
  | changeCurrentTaskLocality isLocal =>
    refine .of_keeps_passes (m := ((s.setStack below).takeCall t t).setLocality t isLocal)
      (hkeeps.trans (.of_rfl rfl rfl rfl rfl)) (fun x => ?_) hd ht (passes_spawnTask cfg _ t)
    rcases eq_or_ne x t with rfl | hne
    · refine .inr (.inr ?_)
      rw [hstack, owned_cons_true, oneAt_self]
      exact Nat.succ_pos _
    · exact .inl (isLocal_setLocality_of_ne _ isLocal hne)

theorem moves_of_checkCounter {list : ℕ} {isZero : Bool}
    (hstack : s.stack = ⟨t, .checkCounter list, false⟩ :: below) (hcall : s.currentCall = none) :
    Moves cfg a s (s.checkCounter cfg below list isZero) := by
  have howned (x : τ) : owned below x ≤ owned s.stack x := by
    rw [hstack, owned_cons_false]
  have hd : Disciplined below s.currentCall := by
    rw [hcall]
    exact .of_suspended hbelow
  cases isZero with
  | false => exact .of_setStack hd howned
  | true =>
    rw [checkCounter]
    split
    case h_1 u m hpop =>
      exact .of_setStack_exec below ⟨hbelow, hcall⟩ howned (loses_pop hpop) (execTask_cases cfg m u)
    case h_2 => exact .of_setStack hd howned

end Code

theorem moves_of_code {f : Frame τ} {below : List (Frame τ)} {b : Code τ}
    (hd : Disciplined s.stack s.currentCall) (hstack : s.stack = f :: below)
    (h : s.code cfg f below b = some s') : Moves cfg a s s' := by
  rw [hstack] at hd
  generalize hcall : s.currentCall = call at hd
  cases hd with
  | cons hf hbelow =>
    cases hf with
    | awaits t =>
      cases b with
      | poll choice => exact moves_of_poll hbelow hstack hcall h
      | _ => cases h
    | running t =>
      cases b with
      | await future =>
        cases h
        refine .of_setAwaited ?_ fun x => ?_
        · rw [hcall]
          exact .cons (.awaits t) hbelow
        · rw [hstack, owned_cons_true, owned_cons_true]
      | finish =>
        have hfinish : s.finish cfg below = s.setStack below := by
          simp [finish, hcall]
        cases h
        rw [hfinish]
        refine .of_setStack ?_ fun x => ?_
        · rw [hcall]
          exact .of_suspended hbelow
        · rw [hstack, owned_cons_true]
          exact Nat.le_add_right _ _
      | _ => cases h
    | @polling t rest ready owns hscript =>
      cases b with
      | next =>
        cases rest with
        | cons i rest => exact moves_of_instr hbelow hscript hstack hcall h
        | nil =>
          cases h
          cases hscript with
          | ready =>
            refine .of_setAwaited ?_ fun x => ?_
            · rw [hcall]
              exact .cons (.running t) hbelow
            · rw [hstack, owned_cons_true, owned_cons_true]
          | pending =>
            rw [returned, hcall]
            refine .of_setStack ?_ fun x => ?_
            · rw [hcall]
              exact .of_suspended hbelow
            · rw [hstack, owned_cons_false]
      | _ => cases h
    | released t =>
      cases b with
      | next =>
        cases h
        rw [returned, hcall]
        have hle : ∀ x, owned below x ≤ owned s.stack x := fun x => by
          rw [hstack, owned_cons_false]
        exact .shift (keeps_takeCall s below t) (.of_eq rfl) (.of_suspended hbelow)
          (total_setStack_le hle)
      | _ => cases h
    | called t c hc =>
      cases b with
      | next =>
        cases h
        rw [returned, hcall]
        exact moves_of_handleCall hbelow hc hstack
      | _ => cases h
    | checkCounter t list =>
      cases b with
      | checkCounter isZero =>
        cases h
        exact moves_of_checkCounter hbelow hstack hcall
      | _ => cases h

theorem moves_of_step (hd : Disciplined s.stack s.currentCall) (h : step cfg s a = some s') :
    Moves cfg a s s' := by
  simp only [step, Option.ite_none_left_eq_some] at h
  obtain ⟨-, h⟩ := h
  cases a with
  | loop b =>
    dsimp only at h
    split at h
    case h_1 hstack => exact moves_of_loop hd hstack h
    case h_2 => cases h
  | code b =>
    dsimp only at h
    split at h
    case h_1 f below hstack => exact moves_of_code hd hstack h
    case h_2 => cases h
  | own b =>
    rw [Option.ite_none_right_eq_some] at h
    exact moves_of_own (.of_ownCodeRuns hd h.1) h.2
  | env b => exact moves_of_env hd h

/-! ### Every run -/

/-- What a step keeps. -/
structure Sound (s : State τ) : Prop where
  disciplined : Disciplined s.stack s.currentCall
  total : ∀ x, s.total x ≤ 1

theorem Moves.sound (h : Moves cfg a s s') (hs : s.Sound) : s'.Sound := by
  cases h with
  | shift _ _ hd ht => exact ⟨hd, fun x => (ht x).trans (hs.total x)⟩
  | @exec m t _ _ hm hcall ht =>
    refine ⟨?_, fun x => ?_⟩
    · rw [show (m.execTaskNow t).currentCall = none from hcall]
      exact .cons (.awaits t) hm
    · rw [total_execTaskNow]
      exact (ht x).trans (hs.total x)
  | @yields stack t hd ht =>
    refine ⟨hd, fun x => ?_⟩
    have hx := total_setStack s stack x
    have htx := ht x
    have hsx := hs.total x
    have hyield : ((s.setStack stack).yieldLocal t).total x =
        (s.setStack stack).total x + oneAt t x := by
      simp only [State.total, yieldLocal, count_cons_eq_oneAt]
      omega
    omega
  | @execLocal n t hphase hlast hstack =>
    obtain ⟨init, hinit⟩ := List.getLast?_eq_some_iff.mp hlast
    have hpop (x : τ) : (s.popLocal n).total x + oneAt t x = s.total x := by
      simp only [State.total, popLocal, hinit, List.dropLast_concat, count_concat]
      omega
    have hm := Interruptible.of_nil hs.disciplined hstack
    rcases execTask_cases cfg (s.popLocal n) t with hexec | hpasses
    · rw [hexec]
      refine ⟨?_, fun x => ?_⟩
      · rw [show ((s.popLocal n).execTaskNow t).currentCall = none from hm.2]
        exact .cons (.awaits t) hm.1
      · rw [total_execTaskNow, hpop]
        exact hs.total x
    · refine ⟨hpasses.toStays.disciplined hs.disciplined, fun x => ?_⟩
      have hx := hpasses.total x
      rw [hpop] at hx
      exact hx.trans (hs.total x)
  | noLocalTask => exact ⟨hs.disciplined, hs.total⟩
  | @takeOut i t _ hi =>
    refine ⟨hs.disciplined, fun x => ?_⟩
    have hx := count_eraseIdx hi x
    have hput := (passes_putAway (s.removeAt t i) t).total x
    have hremove : (s.removeAt t i).total x + oneAt t x = s.total x := by
      simp only [State.total, removeAt]
      omega
    have hsx := hs.total x
    omega

variable {isLocal : τ → Bool} {awaited : τ → Option (Future × Stage)}

theorem sound_init : (init isLocal awaited).Sound where
  disciplined := .nil
  total x := by simp [State.total, init]

theorem sound (h : Reachable (step cfg) (init isLocal awaited) s) : s.Sound := by
  refine Reach.invariant sound_init (fun s a s' _ hs _ hstep => ?_) h
  exact (moves_of_step hs.disciplined hstep).sound hs

/-- What every run keeps of the calls. -/
structure CallsHandled (s : State τ) : Prop where
  handled : ∀ t caller, .handled t caller ∈ s.log → t = caller
  failed : s.failed ≠ some .invokeCall ∧ s.failed ≠ some .readyTask

omit [DecidableEq τ] in
theorem CallsHandled.keeps (h : s.CallsHandled) (hkeeps : Keeps s s') : s'.CallsHandled := by
  obtain ⟨es, hes, hquiet⟩ := hkeeps.log
  refine ⟨fun t caller ht => ?_, ?_⟩
  · rw [hes] at ht
    rcases List.mem_append.mp ht with ht | ht
    · exact h.handled t caller ht
    · cases hquiet _ ht
      rfl
  · constructor
    · intro hfailed
      rcases hkeeps.failed _ hfailed with hfailed | habout
      · exact h.failed.1 hfailed
      · cases habout
    · intro hfailed
      rcases hkeeps.failed _ hfailed with hfailed | habout
      · exact h.failed.2 hfailed
      · cases habout

omit [DecidableEq τ] in
theorem CallsHandled.log {e : Event τ} (h : s.CallsHandled) (hlog : s'.log = s.log ++ [e])
    (hfailed : s'.failed = s.failed) (he : ∀ t caller, e ≠ .handled t caller) :
    s'.CallsHandled := by
  refine ⟨fun t caller ht => ?_, hfailed ▸ h.failed⟩
  rw [hlog] at ht
  rcases List.mem_append.mp ht with ht | ht
  · exact h.handled t caller ht
  · exact absurd (List.mem_singleton.mp ht).symm (he t caller)

theorem Moves.callsHandled (h : Moves cfg a s s') (hs : s.CallsHandled) : s'.CallsHandled := by
  cases h with
  | shift hkeeps => exact hs.keeps hkeeps
  | exec hkeeps => exact (hs.keeps hkeeps).log rfl rfl nofun
  | yields | takeOut => exact hs.log rfl rfl nofun
  | @execLocal n t =>
    have hpop : (s.popLocal n).CallsHandled := ⟨hs.handled, hs.failed⟩
    rcases execTask_cases cfg (s.popLocal n) t with hexec | hpasses
    · rw [hexec]
      exact hpop.log rfl rfl nofun
    · exact hpop.keeps hpasses.toKeeps
  | noLocalTask => exact ⟨hs.handled, nofun, nofun⟩

/-- **Calls are handled for their callers.** On the io_uring build, in every run of tasks that await
futures of the crate one after the other, `handle_call` is only given the task whose poll has left
the call; `invoke_call` never finds a call pending, and no task that is ready leaves one. -/
theorem calls_are_handled (cfg : Config) (isLocal : τ → Bool)
    (awaited : τ → Option (Future × Stage)) (s : State τ)
    (h : Reachable (step cfg) (init isLocal awaited) s) :
    (∀ t caller, .handled t caller ∈ s.log → t = caller) ∧ s.failed ≠ some .invokeCall ∧
      s.failed ≠ some .readyTask := by
  have hcalls : s.CallsHandled := by
    refine Reach.invariant ⟨?_, ?_⟩ (fun s a s' hreach hs _ hstep => ?_) h
    · simp [init]
    · simp [init]
    · exact (moves_of_step (sound hreach).disciplined hstep).callsHandled hs
  exact ⟨hcalls.handled, hcalls.failed⟩

/-- A task executes another one, which waits for a mutex, and then waits for a job of the thread
pool. -/
def nestedCalls : List (Action ℕ) :=
  [.own (.execTask 0), .code (.poll .done), .own (.execTask 1), .code (.poll .done),
    .code (.await (.mutex 5)), .code (.poll .wait), .code .next, .code .next,
    .code (.await .asyncify), .code (.poll .wait), .code .next, .code .next]

theorem calls_are_handled_nested :
    ∃ s, exec (step ⟨true, 1, none, true⟩) (init (fun _ => false) fun _ => none) nestedCalls =
        some s ∧
      s.log = [.polled 0, .polled 1, .handled 1 1, .handled 0 0] ∧
      (∀ t caller, .handled t caller ∈ s.log → t = caller) ∧ s.failed ≠ some .invokeCall ∧
      s.failed ≠ some .readyTask := by
  obtain ⟨s, hs, hlog⟩ : ∃ s, exec (step ⟨true, 1, none, true⟩)
      (init (fun _ => false) fun _ => none) nestedCalls = some s ∧
      s.log = [.polled 0, .polled 1, .handled 1 1, .handled 0 0] := ⟨_, rfl, rfl⟩
  exact ⟨s, hs, hlog, calls_are_handled _ _ _ s (reachable_of_exec _ hs)⟩

end State

end Orengine.Runtime.Machine
