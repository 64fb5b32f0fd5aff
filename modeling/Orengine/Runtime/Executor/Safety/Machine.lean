import Orengine.Runtime.Executor.Machine
import Orengine.Runtime.Executor.Safety.WorkSharing

/-!
# What the functions of an executor do

`Stays` says what every function that enqueues a task leaves alone: nothing but `pop_back`, `Yield`
and the user's own code takes a task out of the local queue or puts one in front of it, and only
polls change the stack and the current call.  `total` counts the places a task is in, and `Passes`
says that a function puts a task into at most one place.
-/

namespace Orengine.Runtime.Machine

open Orengine.Lib

/-- The assertions about one task, and not about the bookkeeping of the executor. -/
def Assertion.isAboutTask : Assertion → Bool
  | .invokeCall | .readyTask | .numberOfLocalTasks => false
  | _ => true

/-- The events that no order in the local queue depends on; a call is handled for its caller. -/
inductive Event.Quiet {τ : Type*} : Event τ → Prop
  | requeued (t : τ) (isLocal : Bool) : Quiet (.requeued t isLocal)
  | handled (t : τ) : Quiet (.handled t t)

namespace State

variable {τ : Type*}

/-- The local queue only grows, and no assertion fails but one about a task. -/
structure Keeps (s s' : State τ) : Prop where
  localTasks : s.localTasks.Sublist s'.localTasks
  phase : ∀ n, s'.phase = .localTasks n → s.phase = .localTasks n ∨ n ≤ s'.localTasks.length
  log : ∃ es, s'.log = s.log ++ es ∧ ∀ e ∈ es, e.Quiet
  failed : ∀ a, s'.failed = some a → s.failed = some a ∨ a.isAboutTask = true

/-- The polls in progress and the localities stay as they are, too. -/
structure Stays (s s' : State τ) : Prop extends Keeps s s' where
  stack : s'.stack = s.stack
  currentCall : s'.currentCall = s.currentCall
  isLocal : s'.isLocal = s.isLocal

variable {s s' s'' m : State τ} {t : τ}

theorem Keeps.trans (h : Keeps s s') (h' : Keeps s' s'') : Keeps s s'' where
  localTasks := h.localTasks.trans h'.localTasks
  phase n hn := by
    rcases h'.phase n hn with hn' | hle
    · rcases h.phase n hn' with hn'' | hle
      · exact .inl hn''
      · exact .inr (hle.trans h'.localTasks.length_le)
    · exact .inr hle
  log := by
    obtain ⟨es, hes, hquiet⟩ := h.log
    obtain ⟨es', hes', hquiet'⟩ := h'.log
    refine ⟨es ++ es', by rw [hes', hes, List.append_assoc], fun e he => ?_⟩
    rcases List.mem_append.mp he with he | he
    · exact hquiet e he
    · exact hquiet' e he
  failed a ha := by
    rcases h'.failed a ha with ha | ha
    · exact h.failed a ha
    · exact .inr ha

/-- The queue may grow and the phase change, if the log and the assertions stay. -/
theorem Keeps.of_eq (hlocal : s.localTasks.Sublist s'.localTasks)
    (hphase : ∀ n, s'.phase = .localTasks n → s.phase = .localTasks n ∨ n ≤ s'.localTasks.length)
    (hlog : s'.log = s.log) (hfailed : s'.failed = s.failed) : Keeps s s' where
  localTasks := hlocal
  phase := hphase
  log := ⟨[], by rw [hlog, List.append_nil], fun e he => nomatch he⟩
  failed a ha := .inl (hfailed ▸ ha)

theorem Keeps.of_rfl (hlocal : s'.localTasks = s.localTasks) (hphase : s'.phase = s.phase)
    (hlog : s'.log = s.log) (hfailed : s'.failed = s.failed) : Keeps s s' :=
  .of_eq (by rw [hlocal]) (fun n hn => .inl (hphase ▸ hn)) hlog hfailed

theorem Stays.trans (h : Stays s s') (h' : Stays s' s'') : Stays s s'' where
  toKeeps := h.toKeeps.trans h'.toKeeps
  stack := h'.stack.trans h.stack
  currentCall := h'.currentCall.trans h.currentCall
  isLocal := h'.isLocal.trans h.isLocal

theorem Stays.of_rfl (hlocal : s'.localTasks = s.localTasks) (hphase : s'.phase = s.phase)
    (hlog : s'.log = s.log) (hfailed : s'.failed = s.failed) (hstack : s'.stack = s.stack)
    (hcall : s'.currentCall = s.currentCall) (hisLocal : s'.isLocal = s.isLocal) : Stays s s' :=
  ⟨.of_rfl hlocal hphase hlog hfailed, hstack, hcall, hisLocal⟩

theorem stays_fail {a : Assertion} (ha : a.isAboutTask = true) : Stays s (s.fail a) where
  localTasks := .refl _
  phase n hn := .inl hn
  log := ⟨[], (List.append_nil _).symm, fun e he => nomatch he⟩
  failed b hb := by
    cases hb
    exact .inr ha
  stack := rfl
  currentCall := rfl
  isLocal := rfl

theorem stays_resetSeries (s : State τ) (t : τ) : Stays s (s.resetSeries t) where
  localTasks := .refl _
  phase n hn := .inl hn
  log := ⟨_, rfl, fun e he => by
    rw [List.mem_singleton] at he
    exact he ▸ .requeued _ _⟩
  failed a ha := .inl ha
  stack := rfl
  currentCall := rfl
  isLocal := rfl

theorem keeps_setStack (s : State τ) (stack : List (Frame τ)) : Keeps s (s.setStack stack) :=
  .of_rfl rfl rfl rfl rfl

/-! ### The places of a task -/

variable [DecidableEq τ]

/-- How often a task is with the polls that own theirs. -/
def owned (stack : List (Frame τ)) (x : τ) : ℕ :=
  ((stack.filter (·.owns)).map (·.task)).count x

@[simp] theorem owned_nil (x : τ) : owned ([] : List (Frame τ)) x = 0 := rfl

@[simp] theorem owned_cons_true (t x : τ) (place : Place τ) (stack : List (Frame τ)) :
    owned (⟨t, place, true⟩ :: stack) x = owned stack x + oneAt t x :=
  count_cons_eq_oneAt t x _

@[simp] theorem owned_cons_false (t x : τ) (place : Place τ) (stack : List (Frame τ)) :
    owned (⟨t, place, false⟩ :: stack) x = owned stack x := rfl

/-- The number of places that a task is in. -/
def total (s : State τ) (x : τ) : ℕ :=
  s.localTasks.count x + s.sharedTasks.count x + s.sharedTasksList.count x +
    s.inboxLocal.count x + s.inboxShared.count x + (s.lists.map Prod.snd).count x +
    s.jobs.count x + s.results.count x + (s.elsewhere x).toNat + owned s.stack x

/-- The task has come to at most one place. -/
structure Passes (s : State τ) (t : τ) (s' : State τ) : Prop extends Stays s s' where
  total : ∀ x, s'.total x ≤ s.total x + oneAt t x

variable (cfg : Config)

theorem count_concat (l : List τ) (t x : τ) : (l ++ [t]).count x = l.count x + oneAt t x := by
  rw [List.count_append, count_singleton_eq_oneAt]

theorem passes_fail {a : Assertion} (ha : a.isAboutTask = true) : Passes s t (s.fail a) where
  toStays := stays_fail ha
  total _ := Nat.le_add_right _ _

theorem passes_spawnLocalTask (s : State τ) (t : τ) : Passes s t (s.spawnLocalTask cfg t) := by
  unfold spawnLocalTask
  split
  case isTrue => exact passes_fail rfl
  case isFalse =>
    refine ⟨⟨.of_eq ?_ (fun n hn => .inl hn) rfl rfl, rfl, rfl, rfl⟩, fun x => ?_⟩
    · exact List.sublist_append_left _ _
    · simp only [State.total, count_concat]
      omega

theorem passes_spawnSharedTask (s : State τ) (t : τ) : Passes s t (s.spawnSharedTask cfg t) := by
  unfold spawnSharedTask
  split
  case isTrue => exact passes_fail rfl
  case isFalse =>
    obtain ⟨r, hr, hcount⟩ := WorkSharing.exists_spawnSharedTask cfg.workSharingLevel s.sharedTasks
      s.sharedTasksList t s.isListLocked
    rw [hr]
    refine ⟨.of_rfl rfl rfl rfl rfl rfl rfl rfl, fun x => ?_⟩
    have hx := hcount x
    rw [count_singleton_eq_oneAt] at hx
    simp only [State.total]
    omega

theorem passes_spawnTask (s : State τ) (t : τ) : Passes s t (s.spawnTask cfg t) := by
  unfold spawnTask
  split
  case isTrue => exact passes_spawnLocalTask cfg s t
  case isFalse => exact passes_spawnSharedTask cfg s t

theorem passes_push (s : State τ) (t : τ) (list : ℕ) : Passes s t (s.push cfg t list) := by
  unfold push
  split
  case isTrue => exact passes_fail rfl
  case isFalse =>
    refine ⟨.of_rfl rfl rfl rfl rfl rfl rfl rfl, fun x => ?_⟩
    simp only [State.total, List.map_cons, count_cons_eq_oneAt]
    omega

theorem passes_pushFrontShared (s : State τ) (t : τ) : Passes s t (s.pushFrontShared t) := by
  refine ⟨.of_rfl rfl rfl rfl rfl rfl rfl rfl, fun x => ?_⟩
  simp only [State.total, pushFrontShared, count_cons_eq_oneAt]
  omega

theorem passes_pushBackShared (s : State τ) (t : τ) : Passes s t (s.pushBackShared t) := by
  refine ⟨.of_rfl rfl rfl rfl rfl rfl rfl rfl, fun x => ?_⟩
  simp only [State.total, pushBackShared, count_concat]
  omega

theorem passes_receive (s : State τ) (t : τ) : Passes s t (s.receive t) := by
  unfold receive
  split
  all_goals
    refine ⟨.of_rfl rfl rfl rfl rfl rfl rfl rfl, fun x => ?_⟩
    simp only [State.total, count_concat]
    omega

theorem toNat_update (elsewhere : τ → Bool) (t x : τ) :
    (Function.update elsewhere t true x).toNat ≤ (elsewhere x).toNat + oneAt t x := by
  rcases eq_or_ne x t with rfl | hne
  · simp
  · rw [Function.update_of_ne hne]
    exact Nat.le_add_right _ _

theorem passes_putAway (s : State τ) (t : τ) : Passes s t (s.putAway t) := by
  refine ⟨.of_rfl rfl rfl rfl rfl rfl rfl rfl, fun x => ?_⟩
  have := toNat_update s.elsewhere t x
  simp only [State.total, putAway]
  omega

theorem passes_insertAt (s : State τ) (t : τ) {i : ℕ} (hi : i ≤ s.localTasks.length) :
    Passes s t (s.insertAt t i) := by
  refine ⟨⟨.of_eq (List.sublist_insertIdx _ _ _) (fun n hn => .inl hn) rfl rfl, rfl, rfl, rfl⟩, ?_⟩
  intro x
  have hcount := (List.perm_insertIdx t s.localTasks hi).count_eq x
  rw [count_cons_eq_oneAt] at hcount
  simp only [State.total, insertAt]
  omega

theorem execTask_cases (s : State τ) (t : τ) :
    s.execTask cfg t = s.execTaskNow t ∨ Passes s t (s.execTask cfg t) := by
  unfold execTask
  split
  case isTrue => exact .inl rfl
  case isFalse =>
    have h := passes_spawnTask cfg (s.resetSeries t) t
    exact .inr ⟨(stays_resetSeries s t).trans h.toStays, h.total⟩

theorem wakeUp_cases (s : State τ) (t : τ) :
    s.wakeUp cfg t = s.execTaskNow t ∨ Passes s t (s.wakeUp cfg t) := by
  unfold wakeUp
  split
  case isTrue => exact execTask_cases cfg s t
  case isFalse => exact .inr (passes_spawnSharedTask cfg s t)

theorem total_execTaskNow (s : State τ) (t x : τ) :
    (s.execTaskNow t).total x = s.total x + oneAt t x := by
  simp only [State.total, execTaskNow, owned_cons_true]
  omega

theorem total_setStack (s : State τ) (stack : List (Frame τ)) (x : τ) :
    (s.setStack stack).total x + owned s.stack x = s.total x + owned stack x := by
  simp only [State.total, setStack]
  omega

theorem total_setStack_le {stack : List (Frame τ)} (h : ∀ x, owned stack x ≤ owned s.stack x)
    (x : τ) : (s.setStack stack).total x ≤ s.total x := by
  have hx := total_setStack s stack x
  have hle := h x
  omega

/-! ### Tasks that are taken from a place -/

/-- The task has left a place. -/
structure Loses (s : State τ) (t : τ) (s' : State τ) : Prop extends Stays s s' where
  total : ∀ x, s'.total x + oneAt t x ≤ s.total x

theorem loses_take {s : State τ} {t : τ} (ht : s.elsewhere t = true) : Loses s t (s.take t) := by
  refine ⟨.of_rfl rfl rfl rfl rfl rfl rfl rfl, fun x => ?_⟩
  have hx : (Function.update s.elsewhere t false x).toNat + oneAt t x = (s.elsewhere x).toNat := by
    rcases eq_or_ne x t with rfl | hne
    · simp [ht]
    · rw [Function.update_of_ne hne, oneAt_of_ne (Ne.symm hne)]
      rfl
  simp only [State.total, take]
  omega

theorem loses_pop {list : ℕ} (h : s.pop list = some (t, m)) : Loses s t m := by
  unfold pop at h
  split at h
  case h_1 y hfind =>
    cases h
    refine ⟨.of_rfl rfl rfl rfl rfl rfl rfl rfl, fun x => ?_⟩
    have hperm := (List.perm_cons_erase (List.mem_of_find?_eq_some hfind)).map Prod.snd
    have hcount := hperm.count_eq x
    rw [List.map_cons, count_cons_eq_oneAt] at hcount
    simp only [State.total]
    omega
  case h_2 => cases h

theorem loses_popShared {n : ℕ} (ht : s.sharedTasks.getLast? = some t) :
    Loses s t (s.popShared n) := by
  refine ⟨⟨.of_eq (.refl _) (fun k hk => nomatch hk) rfl rfl, rfl, rfl, rfl⟩, fun x => ?_⟩
  obtain ⟨init, hinit⟩ := List.getLast?_eq_some_iff.mp ht
  simp only [State.total, popShared, hinit, List.dropLast_concat, count_concat]
  omega

theorem count_eraseIdx {l : List τ} {i : ℕ} (h : l[i]? = some t) (x : τ) :
    (l.eraseIdx i).count x + oneAt t x = l.count x := by
  obtain ⟨hi, ht⟩ := List.getElem?_eq_some_iff.mp h
  have hperm := List.getElem_cons_eraseIdx_perm hi
  rw [← hperm.count_eq x, count_cons_eq_oneAt, ht]

theorem loses_removeShared {i : ℕ} (ht : s.sharedTasksList[i]? = some t) :
    Loses s t (s.removeShared i) := by
  refine ⟨.of_rfl rfl rfl rfl rfl rfl rfl rfl, fun x => ?_⟩
  have := count_eraseIdx ht x
  simp only [State.total, removeShared]
  omega

end State

end Orengine.Runtime.Machine
