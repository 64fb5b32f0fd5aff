import Orengine.Runtime.Executor.Safety.Calls

/-!
# Local and shared tasks

Every queue of an executor is for tasks of one locality (`Located`).  `misplaces` lists the steps
that do not keep to it: `LocalThreadWorkerPool::poll` moves the tasks of the result list, which are
shared, to the local queue; a worker of the pool pushes its task, local or not, to the result list;
without support for it in the kernel, `socket` spawns its task as a local one;
`Mutex::low_level_subscribe` pushes its task, local or not, to a `SyncTaskList`, as do calls of
local tasks in a release build.  The other ones are calls of the user's code with a task of the
wrong locality, and other executors that send one.

Tasks stay where they belong exactly as long as there is no such step (`located_iff`).
-/

namespace Orengine.Runtime.Machine

open Orengine.Lib

variable {τ : Type*}

/-- The assertions about the locality of a task. -/
def Assertion.isAboutLocality : Assertion → Bool
  | .spawnLocalTask | .spawnSharedTask | .syncTaskListPush => true
  | _ => false

/-- Whether `handle_call` puts its task into a queue of shared tasks. -/
def Call.queuesShared : Call → Bool
  | .pushCurrentTaskAtTheStartOfLIFOSharedQueue | .pushCurrentTaskTo _
  | .pushCurrentTaskToAndRemoveItIfCounterIsZero _ => true
  | .releaseAtomicBool | .pushFnToThreadPool | .changeCurrentTaskLocality _ => false

/-- The queues, and what has failed. -/
structure Queues (τ : Type*) where
  isLocal : τ → Bool
  localTasks : List τ
  sharedTasks : List τ
  sharedTasksList : List τ
  inboxLocal : List τ
  inboxShared : List τ
  lists : List (ℕ × τ)
  results : List τ
  failed : Option Assertion

/-- Every queue has tasks of its locality only, every task in a `SyncTaskList` is shared, and no
assertion about a locality has failed. -/
structure Queues.Located (q : Queues τ) : Prop where
  localTasks : ∀ x ∈ q.localTasks, q.isLocal x = true
  sharedTasks : ∀ x ∈ q.sharedTasks, q.isLocal x = false
  sharedTasksList : ∀ x ∈ q.sharedTasksList, q.isLocal x = false
  inboxLocal : ∀ x ∈ q.inboxLocal, q.isLocal x = true
  inboxShared : ∀ x ∈ q.inboxShared, q.isLocal x = false
  lists : ∀ p ∈ q.lists, q.isLocal p.2 = false
  results : ∀ x ∈ q.results, q.isLocal x = false
  failed : ∀ a, q.failed = some a → a.isAboutLocality = false

namespace State

/-- The queues of an executor. -/
def queues (s : State τ) : Queues τ :=
  ⟨s.isLocal, s.localTasks, s.sharedTasks, s.sharedTasksList, s.inboxLocal, s.inboxShared, s.lists,
    s.results, s.failed⟩

/-- All tasks are where they belong. -/
def Located (s : State τ) : Prop := s.queues.Located

/-- The step puts a task where it does not belong. -/
def misplaces (s : State τ) : Action τ → Bool
  -- Another executor has a local task in its shared list.
  | .loop (.takeOther t) => s.isLocal t
  | .loop .pollThreadPool => s.results.any fun t => !s.isLocal t
  | .code .next =>
    match s.stack with
    | ⟨t, .polling (.spawnLocalTask :: _) _, _⟩ :: _ => !s.isLocal t
    | ⟨t, .polling (.push _ :: _) _, _⟩ :: _ => s.isLocal t
    | ⟨t, .polling [] false, _⟩ :: _ =>
      match s.currentCall with
      | some (call, _) => call.queuesShared && s.isLocal t
      | none => false
    | _ => false
  | .own (.spawnLocalTask t) => !s.isLocal t
  | .own (.spawnSharedTask t) => s.isLocal t
  | .own (.push _ t) => s.isLocal t
  | .own (.putIn _ t) => !s.isLocal t
  | .env (.push _ t) => s.isLocal t
  | .env (.worker i) => s.jobs[i]?.any s.isLocal
  | _ => false

variable {cfg : Config} {s s' m : State τ} {t : τ} {a : Action τ}

/-! ### The functions of the executor -/

theorem Located.congr (h : s.Located) (heq : s'.queues = s.queues) : s'.Located := by
  rw [Located, heq]
  exact h

theorem not_located_fail {b : Assertion} (hb : b.isAboutLocality = true) :
    ¬(s.fail b).Located := by
  intro h
  cases hb.symm.trans (h.failed b rfl)

theorem Located.fail {b : Assertion} (h : s.Located) (hb : b.isAboutLocality = false) :
    (s.fail b).Located := by
  refine { h with failed := fun c hc => ?_ }
  cases hc
  exact hb

theorem located_debugAssert {b : Assertion} {fails : Bool} (hb : b.isAboutLocality = true)
    (hm : m.Located ↔ fails = false) :
    (if cfg.debugAssertions && fails then s.fail b else m).Located ↔ fails = false := by
  split
  case isTrue h =>
    rw [(Bool.and_eq_true_iff.mp h).2]
    exact iff_of_false (not_located_fail hb) nofun
  case isFalse => exact hm

theorem forall_mem_concat {P : τ → Prop} {l : List τ} (hl : ∀ x ∈ l, P x) (ht : P t) :
    ∀ x ∈ l ++ [t], P x :=
  List.forall_mem_append.mpr ⟨hl, List.forall_mem_singleton.mpr ht⟩

theorem located_spawnLocalTask (h : s.Located) :
    (s.spawnLocalTask cfg t).Located ↔ s.isLocal t = true := by
  rw [← Bool.not_eq_false']
  refine located_debugAssert rfl ⟨fun h' => ?_, fun ht => ?_⟩
  · rw [Bool.not_eq_false']
    exact h'.localTasks t (List.mem_append_right _ (List.mem_singleton_self t))
  · rw [Bool.not_eq_false'] at ht
    exact { h with localTasks := forall_mem_concat h.localTasks ht }

theorem located_push {list : ℕ} (h : s.Located) :
    (s.push cfg t list).Located ↔ s.isLocal t = false := by
  refine located_debugAssert rfl ⟨fun h' => ?_, fun ht => ?_⟩
  · exact h'.lists (list, t) List.mem_cons_self
  · exact { h with lists := List.forall_mem_cons.mpr ⟨ht, h.lists⟩ }

theorem located_pushFrontShared (h : s.Located) :
    (s.pushFrontShared t).Located ↔ s.isLocal t = false := by
  constructor
  · intro h'
    exact h'.sharedTasks t List.mem_cons_self
  · intro ht
    exact { h with sharedTasks := List.forall_mem_cons.mpr ⟨ht, h.sharedTasks⟩ }

theorem located_pushBackShared (h : s.Located) :
    (s.pushBackShared t).Located ↔ s.isLocal t = false := by
  constructor
  · intro h'
    exact h'.sharedTasks t (List.mem_append_right _ (List.mem_singleton_self t))
  · intro ht
    exact { h with sharedTasks := forall_mem_concat h.sharedTasks ht }

theorem Located.yieldLocal (h : s.Located) (ht : s.isLocal t = true) : (s.yieldLocal t).Located :=
  { h with localTasks := List.forall_mem_cons.mpr ⟨ht, h.localTasks⟩ }

theorem located_insertAt {i : ℕ} (hi : i ≤ s.localTasks.length) (h : s.Located) :
    (s.insertAt t i).Located ↔ s.isLocal t = true := by
  constructor
  · intro h'
    exact h'.localTasks t ((List.mem_insertIdx hi).mpr (.inl rfl))
  · intro ht
    refine { h with localTasks := fun x hx => ?_ }
    rcases (List.mem_insertIdx hi).mp hx with rfl | hx
    · exact ht
    · exact h.localTasks x hx

theorem Located.receive (h : s.Located) : (s.receive t).Located := by
  unfold State.receive
  split
  case isTrue ht =>
    exact { h with inboxLocal := forall_mem_concat h.inboxLocal ht }
  case isFalse ht =>
    have ht := Bool.eq_false_of_not_eq_true ht
    exact { h with inboxShared := forall_mem_concat h.inboxShared ht }

theorem located_pushResult {i : ℕ} (h : s.Located) :
    (s.pushResult cfg t i).Located ↔ s.isLocal t = false := by
  refine located_debugAssert rfl ⟨fun h' => ?_, fun ht => ?_⟩
  · exact h'.results t (List.mem_append_right _ (List.mem_singleton_self t))
  · exact { h with results := forall_mem_concat h.results ht }

variable [DecidableEq τ]

theorem Located.pop {list : ℕ} (h : s.Located) (hpop : s.pop list = some (t, m)) : m.Located := by
  unfold State.pop at hpop
  split at hpop
  case h_1 y _ =>
    cases hpop
    exact { h with lists := fun p hp => h.lists p (List.mem_of_mem_erase hp) }
  case h_2 => cases hpop

theorem located_spawnSharedTask (h : s.Located) :
    (s.spawnSharedTask cfg t).Located ↔ s.isLocal t = false := by
  refine located_debugAssert rfl ?_
  obtain ⟨⟨q, l⟩, hr, hcount⟩ := WorkSharing.exists_spawnSharedTask cfg.workSharingLevel
    s.sharedTasks s.sharedTasksList t s.isListLocked
  rw [hr]
  -- The tasks in the two lists are those from before and the new one.
  have hperm : (q ++ l).Perm (s.sharedTasks ++ s.sharedTasksList ++ [t]) :=
    List.perm_iff_count.mpr fun x => by simpa only [List.count_append] using hcount x
  have hmem (x : τ) : x ∈ q ∨ x ∈ l ↔ x ∈ s.sharedTasks ∨ x ∈ s.sharedTasksList ∨ x = t := by
    simpa [or_assoc] using hperm.mem_iff (a := x)
  constructor
  · intro h'
    rcases (hmem t).mpr (.inr (.inr rfl)) with ht | ht
    · exact h'.sharedTasks t ht
    · exact h'.sharedTasksList t ht
  · intro ht
    have hall (x : τ) (hx : x ∈ q ∨ x ∈ l) : s.isLocal x = false := by
      rcases (hmem x).mp hx with hx | hx | rfl
      · exact h.sharedTasks x hx
      · exact h.sharedTasksList x hx
      · exact ht
    exact { h with
      sharedTasks := fun x hx => hall x (.inl hx)
      sharedTasksList := fun x hx => hall x (.inr hx) }

theorem Located.spawnTask (h : s.Located) : (s.spawnTask cfg t).Located := by
  unfold State.spawnTask
  split
  case isTrue ht => exact (located_spawnLocalTask h).mpr ht
  case isFalse ht => exact (located_spawnSharedTask h).mpr (Bool.eq_false_of_not_eq_true ht)

theorem Located.execTask (h : s.Located) : (s.execTask cfg t).Located := by
  unfold State.execTask
  split
  case isTrue => exact h.congr rfl
  case isFalse =>
    have hreset : (s.resetSeries t).Located := h.congr rfl
    exact hreset.spawnTask

theorem Located.wakeUp (h : s.Located) : (s.wakeUp cfg t).Located := by
  unfold State.wakeUp
  split
  case isTrue => exact h.execTask
  case isFalse ht => exact (located_spawnSharedTask h).mpr (Bool.eq_false_of_not_eq_true ht)

/-- The task is in none of the queues. -/
structure Unqueued (s : State τ) (t : τ) : Prop where
  localTasks : t ∉ s.localTasks
  sharedTasks : t ∉ s.sharedTasks
  sharedTasksList : t ∉ s.sharedTasksList
  inboxLocal : t ∉ s.inboxLocal
  inboxShared : t ∉ s.inboxShared
  lists : ∀ p ∈ s.lists, p.2 ≠ t
  results : t ∉ s.results

theorem Sound.unqueued (hs : s.Sound) (ht : s.elsewhere t = true ∨ 0 < owned s.stack t) :
    s.Unqueued t := by
  have htotal := hs.total t
  have hrest : 0 < (s.elsewhere t).toNat + owned s.stack t := by
    rcases ht with ht | ht
    · rw [ht]
      exact Nat.lt_add_right _ Nat.one_pos
    · omega
  simp only [State.total] at htotal
  refine ⟨?_, ?_, ?_, ?_, ?_, ?_, ?_⟩
  · exact List.count_eq_zero.mp (by omega)
  · exact List.count_eq_zero.mp (by omega)
  · exact List.count_eq_zero.mp (by omega)
  · exact List.count_eq_zero.mp (by omega)
  · exact List.count_eq_zero.mp (by omega)
  · rintro p hp rfl
    have hcount := List.count_pos_iff.mpr (List.mem_map_of_mem (f := Prod.snd) hp)
    omega
  · exact List.count_eq_zero.mp (by omega)

theorem Located.setLocality (h : s.Located) (ht : s.Unqueued t) (isLocal : Bool) :
    (s.setLocality t isLocal).Located := by
  have hkeep (x : τ) (hx : x ≠ t) : (s.setLocality t isLocal).isLocal x = s.isLocal x :=
    isLocal_setLocality_of_ne s isLocal hx
  refine ⟨fun x hx => ?_, fun x hx => ?_, fun x hx => ?_, fun x hx => ?_, fun x hx => ?_,
    fun p hp => ?_, fun x hx => ?_, h.failed⟩
  · exact (hkeep x fun heq => ht.localTasks (heq ▸ hx)).trans (h.localTasks x hx)
  · exact (hkeep x fun heq => ht.sharedTasks (heq ▸ hx)).trans (h.sharedTasks x hx)
  · exact (hkeep x fun heq => ht.sharedTasksList (heq ▸ hx)).trans (h.sharedTasksList x hx)
  · exact (hkeep x fun heq => ht.inboxLocal (heq ▸ hx)).trans (h.inboxLocal x hx)
  · exact (hkeep x fun heq => ht.inboxShared (heq ▸ hx)).trans (h.inboxShared x hx)
  · exact (hkeep p.2 (ht.lists p hp)).trans (h.lists p hp)
  · exact (hkeep x fun heq => ht.results (heq ▸ hx)).trans (h.results x hx)

theorem located_handleCall {call : Call} (h : s.Located) (ht : s.Unqueued t) :
    (s.handleCall cfg t call).Located ↔ (call.queuesShared && s.isLocal t) = false := by
  cases call with
  | pushCurrentTaskAtTheStartOfLIFOSharedQueue => exact located_pushFrontShared h
  | pushCurrentTaskTo list => exact located_push h
  | pushCurrentTaskToAndRemoveItIfCounterIsZero list => exact located_push (h.congr rfl)
  | releaseAtomicBool => exact iff_of_true h rfl
  | pushFnToThreadPool =>
    refine iff_of_true ?_ rfl
    rw [State.handleCall]
    split
    case isTrue => exact h.fail rfl
    case isFalse => exact h.congr rfl
  | changeCurrentTaskLocality isLocal => exact iff_of_true (h.setLocality ht isLocal).spawnTask rfl

/-! ### Steps -/

theorem located_of_loop {b : Loop τ} (h : s.Located) (hstep : s.loop cfg b = some s') :
    s'.Located ↔ s.misplaces (.loop b) = false := by
  cases b with
  | prepareToNewRound | beginLocal | beginShared | endTake | endSleeping | endRound =>
    obtain ⟨-, rfl⟩ := of_guard hstep
    exact iff_of_true (h.congr rfl) rfl
  | takeBatchOfTasks =>
    obtain ⟨-, rfl⟩ := of_guard hstep
    refine iff_of_true ?_ rfl
    exact { h with
      localTasks := List.forall_mem_append.mpr ⟨h.localTasks, h.inboxLocal⟩
      sharedTasks := List.forall_mem_append.mpr ⟨h.sharedTasks, h.inboxShared⟩
      inboxLocal := List.forall_mem_nil _
      inboxShared := List.forall_mem_nil _ }
  | execLocal =>
    refine iff_of_true ?_ rfl
    simp only [loop] at hstep
    split at hstep
    case h_1 n _ =>
      split at hstep
      case h_1 t _ =>
        cases hstep
        have hpop : (s.popLocal n).Located :=
          { h with localTasks := fun x hx => h.localTasks x (List.dropLast_subset _ hx) }
        exact hpop.execTask
      case h_2 =>
        cases hstep
        exact h.fail rfl
    case h_2 => cases hstep
  | execShared =>
    refine iff_of_true ?_ rfl
    simp only [loop] at hstep
    split at hstep
    case h_1 n _ =>
      split at hstep
      case h_1 t _ =>
        cases hstep
        have hpop : (s.popShared n).Located :=
          { h with sharedTasks := fun x hx => h.sharedTasks x (List.dropLast_subset _ hx) }
        exact hpop.execTask
      case h_2 =>
        cases hstep
        exact h.congr rfl
    case h_2 =>
      cases hstep
      exact h.congr rfl
    case h_3 => cases hstep
  | takeWorkIfNeeded =>
    obtain ⟨-, rfl⟩ := of_guard hstep
    refine iff_of_true ?_ rfl
    unfold State.takeWorkIfNeeded
    split
    case h_1 level _ =>
      split_ifs
      · exact h.congr rfl
      · exact h.congr rfl
      · have hperm : ((WorkSharing.popTasks (level - s.sharedTasks.length) s.sharedTasks
            s.sharedTasksList).1 ++ (WorkSharing.popTasks (level - s.sharedTasks.length)
            s.sharedTasks s.sharedTasksList).2).Perm (s.sharedTasks ++ s.sharedTasksList) := by
          refine List.perm_iff_count.mpr fun x => ?_
          rw [List.count_append, List.count_append]
          exact WorkSharing.count_popTasks _ _ _ x
        have hall : ∀ x ∈ s.sharedTasks ++ s.sharedTasksList, s.isLocal x = false :=
          List.forall_mem_append.mpr ⟨h.sharedTasks, h.sharedTasksList⟩
        exact { h with
          sharedTasks := fun x hx => hall x (hperm.mem_iff.mp (List.mem_append_left _ hx))
          sharedTasksList := fun x hx => hall x (hperm.mem_iff.mp (List.mem_append_right _ hx)) }
    case h_2 => exact h.congr rfl
  | takeOther t =>
    obtain ⟨-, rfl⟩ := of_guard hstep
    exact located_pushBackShared (h.congr rfl)
  | pollThreadPool =>
    obtain ⟨-, rfl⟩ := of_guard hstep
    simp only [misplaces, List.any_eq_false, Bool.not_eq_true', Bool.not_eq_false]
    constructor
    · intro h' x hx
      exact h'.localTasks x (List.mem_append_right _ hx)
    · intro hresults
      exact { h with
        localTasks := List.forall_mem_append.mpr ⟨h.localTasks, hresults⟩
        results := List.forall_mem_nil _ }
  | wakeSleeping t | complete t =>
    obtain ⟨-, rfl⟩ := of_guard hstep
    have htake : (s.take t).Located := h.congr rfl
    exact iff_of_true htake.wakeUp rfl

theorem located_of_own {b : Own τ} (h : s.Located) (hstep : s.own cfg b = some s') :
    s'.Located ↔ s.misplaces (.own b) = false := by
  have htake (t : τ) : (s.take t).Located := h.congr rfl
  cases b with
  | execTask t =>
    obtain ⟨-, rfl⟩ := of_guard hstep
    exact iff_of_true (htake t).execTask rfl
  | execTaskNow t =>
    obtain ⟨-, rfl⟩ := of_guard hstep
    exact iff_of_true (h.congr rfl) rfl
  | spawnLocalTask t =>
    obtain ⟨-, rfl⟩ := of_guard hstep
    rw [located_spawnLocalTask (htake t), misplaces, Bool.not_eq_false']
    rfl
  | spawnSharedTask t =>
    obtain ⟨-, rfl⟩ := of_guard hstep
    exact located_spawnSharedTask (htake t)
  | spawnTask t =>
    obtain ⟨-, rfl⟩ := of_guard hstep
    exact iff_of_true (htake t).spawnTask rfl
  | push list t =>
    obtain ⟨-, rfl⟩ := of_guard hstep
    exact located_push (htake t)
  | pop list =>
    rw [own] at hstep
    obtain ⟨⟨t, m⟩, hpop, rfl⟩ := Option.map_eq_some_iff.mp hstep
    exact iff_of_true ((h.pop hpop).congr rfl) rfl
  | takeOut i =>
    simp only [own] at hstep
    split at hstep
    case h_1 t _ =>
      cases hstep
      have hremove : (s.removeAt t i).Located :=
        { h with localTasks := fun x hx => h.localTasks x (List.mem_of_mem_eraseIdx hx) }
      exact iff_of_true (hremove.congr rfl) rfl
    case h_2 => cases hstep
  | putIn i t =>
    simp only [own, Option.ite_none_right_eq_some] at hstep
    obtain ⟨hi, hstep⟩ := hstep
    obtain ⟨-, rfl⟩ := of_guard hstep
    rw [located_insertAt (s := s.take t) hi (htake t), misplaces, Bool.not_eq_false']
    rfl

theorem located_of_env {b : Env τ} (hs : s.Sound) (h : s.Located)
    (hstep : s.env cfg b = some s') : s'.Located ↔ s.misplaces (.env b) = false := by
  have htake (t : τ) : (s.take t).Located := h.congr rfl
  cases b with
  | push list t =>
    obtain ⟨-, rfl⟩ := of_guard hstep
    exact located_push (htake t)
  | pop list =>
    rw [env] at hstep
    obtain ⟨⟨t, m⟩, hpop, rfl⟩ := Option.map_eq_some_iff.mp hstep
    exact iff_of_true ((h.pop hpop).congr rfl) rfl
  | takeShared i =>
    simp only [env] at hstep
    split at hstep
    case h_1 t _ =>
      cases hstep
      have hremove : (s.removeShared i).Located :=
        { h with sharedTasksList := fun x hx =>
            h.sharedTasksList x (List.mem_of_mem_eraseIdx hx) }
      exact iff_of_true (hremove.congr rfl) rfl
    case h_2 => cases hstep
  | setLocked isListLocked =>
    cases hstep
    exact iff_of_true (h.congr rfl) rfl
  | send t =>
    obtain ⟨-, rfl⟩ := of_guard hstep
    exact iff_of_true (htake t).receive rfl
  | worker i =>
    simp only [env] at hstep
    split at hstep
    case h_1 t hi =>
      cases hstep
      rw [located_pushResult h, misplaces, hi]
      rfl
    case h_2 => cases hstep
  | change t isLocal awaited =>
    obtain ⟨ht, rfl⟩ := of_guard hstep
    have hset := h.setLocality (hs.unqueued (.inl ht)) isLocal
    exact iff_of_true (hset.congr rfl) rfl

theorem located_of_instr {i : Instr τ} {rest : List (Instr τ)} {ready owns : Bool}
    {below : List (Frame τ)} (h : s.Located)
    (hstack : s.stack = ⟨t, .polling (i :: rest) ready, owns⟩ :: below)
    (hstep : s.instr cfg ⟨t, .polling (i :: rest) ready, owns⟩ below rest ready i = some s') :
    s'.Located ↔ s.misplaces (.code .next) = false := by
  have hgive : (s.giveAway ⟨t, .polling (i :: rest) ready, owns⟩ below
      (.polling rest ready)).Located := h.congr rfl
  simp only [misplaces, hstack]
  cases i with
  | yieldNow =>
    cases hstep
    refine iff_of_true ?_ rfl
    split
    case isTrue ht => exact hgive.yieldLocal ht
    case isFalse ht =>
      exact (located_pushFrontShared hgive).mpr (Bool.eq_false_of_not_eq_true ht)
  | park =>
    cases hstep
    exact iff_of_true (h.congr rfl) rfl
  | spawnLocalTask =>
    cases hstep
    rw [located_spawnLocalTask hgive, Bool.not_eq_false']
    rfl
  | wake =>
    cases hstep
    exact iff_of_true hgive.spawnTask rfl
  | push list =>
    cases hstep
    exact located_push hgive
  | execTask u =>
    obtain ⟨-, rfl⟩ := of_guard hstep
    refine iff_of_true (Located.execTask ?_) rfl
    exact h.congr rfl
  | invokeCall call =>
    cases hstep
    refine iff_of_true ?_ rfl
    unfold invokeCall
    split
    case isTrue => exact Located.fail (h.congr rfl) rfl
    case isFalse => exact h.congr rfl

theorem located_of_pending {owns : Bool} {below : List (Frame τ)} (hs : s.Sound) (h : s.Located)
    (hstack : s.stack = ⟨t, .polling [] false, owns⟩ :: below) :
    (s.returned cfg ⟨t, .polling [] false, owns⟩ below false).Located ↔
      s.misplaces (.code .next) = false := by
  simp only [misplaces, hstack, returned]
  cases hcall : s.currentCall with
  | none => exact iff_of_true (h.congr rfl) rfl
  | some c =>
    obtain ⟨call, caller⟩ := c
    have hm : ((s.setStack below).takeCall t caller).Located := h.congr rfl
    have hd := hs.disciplined
    rw [hstack, hcall] at hd
    cases hd with
    | cons hf _ =>
      cases hf with
      | released => exact iff_of_true hm rfl
      | called =>
        have ht : s.Unqueued t := by
          refine hs.unqueued (.inr ?_)
          rw [hstack, owned_cons_true, oneAt_self]
          exact Nat.succ_pos _
        exact located_handleCall hm ⟨ht.localTasks, ht.sharedTasks, ht.sharedTasksList,
          ht.inboxLocal, ht.inboxShared, ht.lists, ht.results⟩

theorem located_of_code {f : Frame τ} {below : List (Frame τ)} {b : Code τ} (hs : s.Sound)
    (h : s.Located) (hstack : s.stack = f :: below) (hstep : s.code cfg f below b = some s') :
    s'.Located ↔ s.misplaces (.code b) = false := by
  obtain ⟨t, place, owns⟩ := f
  cases b with
  | poll choice =>
    refine iff_of_true ?_ rfl
    cases place with
    | awaits =>
      simp only [code, poll] at hstep
      split at hstep
      case h_1 =>
        cases hstep
        exact h.congr rfl
      case h_2 =>
        split at hstep
        case isTrue =>
          cases hstep
          exact h.fail rfl
        case isFalse =>
          split at hstep
          case h_1 =>
            cases hstep
            exact h.congr rfl
          case h_2 => cases hstep
    | _ => cases hstep
  | next =>
    cases place with
    | polling rest ready =>
      cases rest with
      | cons i rest => exact located_of_instr h hstack hstep
      | nil =>
        cases hstep
        cases ready with
        | true =>
          simp only [misplaces, hstack]
          exact iff_of_true (h.congr rfl) trivial
        | false => exact located_of_pending hs h hstack
    | _ => cases hstep
  | await future =>
    cases place with
    | running =>
      cases hstep
      exact iff_of_true (h.congr rfl) rfl
    | _ => cases hstep
  | finish =>
    cases place with
    | running =>
      cases hstep
      refine iff_of_true ?_ rfl
      unfold finish
      split
      case isTrue => exact h.fail rfl
      case isFalse => exact h.congr rfl
    | _ => cases hstep
  | checkCounter isZero =>
    cases place with
    | checkCounter list =>
      cases hstep
      refine iff_of_true ?_ rfl
      have hbelow : (s.setStack below).Located := h.congr rfl
      cases isZero with
      | false => exact hbelow
      | true =>
        rw [State.checkCounter]
        split
        case h_1 u m hpop => exact (hbelow.pop hpop).execTask
        case h_2 => exact hbelow
    | _ => cases hstep

theorem located_of_step (hs : s.Sound) (h : s.Located) (hstep : step cfg s a = some s') :
    s'.Located ↔ s.misplaces a = false := by
  simp only [step, Option.ite_none_left_eq_some] at hstep
  obtain ⟨-, hstep⟩ := hstep
  cases a with
  | loop b =>
    dsimp only at hstep
    split at hstep
    case h_1 => exact located_of_loop h hstep
    case h_2 => cases hstep
  | code b =>
    dsimp only at hstep
    split at hstep
    case h_1 f below hstack => exact located_of_code hs h hstack hstep
    case h_2 => cases hstep
  | own b =>
    rw [Option.ite_none_right_eq_some] at hstep
    exact located_of_own h hstep.2
  | env b => exact located_of_env hs h hstep

/-! ### Every run -/

/-- **Tasks are in queues of their locality.** In every run, the local queue has only local tasks,
the shared one only shared tasks, every task in a `SyncTaskList` is shared, and none of the
assertions about localities fails, all along the run, exactly if no step of it misplaces a task. -/
theorem located_iff (cfg : Config) (isLocal : τ → Bool) (awaited : τ → Option (Future × Stage))
    (as : List (Action τ)) :
    Always (step cfg) Located (init isLocal awaited) as ↔
      Never (step cfg) (fun s a => s.misplaces a = true) (init isLocal awaited) as := by
  refine always_iff_never (fun s a s' hreach h hstep => ?_) .start ?_ as
  · rw [located_of_step (sound hreach) h hstep, Bool.not_eq_true]
  · refine ⟨?_, ?_, ?_, ?_, ?_, ?_, ?_, ?_⟩ <;> simp [queues, init]

/-- A task waits for a job of the thread pool, a worker does it, and the pool is polled. -/
def asyncifyRound : List (Action ℕ) :=
  [.own (.execTask 0), .code (.poll .done), .code (.await .asyncify), .code (.poll .wait),
    .code .next, .code .next, .env (.worker 0), .loop .prepareToNewRound, .loop .beginLocal,
    .loop .beginShared, .loop .execShared, .loop .takeWorkIfNeeded, .loop .pollThreadPool]

/-- In both builds, a shared task that waits for a job of the thread pool comes to the local queue.
If the task is local, the assertion of `SyncTaskList::push` fails. -/
theorem asyncify_misplaces :
    (∀ debugAssertions, ∃ s, exec (step ⟨debugAssertions, 1, none, true⟩)
        (init (fun _ => false) fun _ => none) asyncifyRound = some s ∧
      s.localTasks = [0] ∧ s.isLocal 0 = false) ∧
    ∃ s, exec (step ⟨true, 1, none, true⟩) (init (fun _ => true) fun _ => none)
        (asyncifyRound.take 7) = some s ∧ s.failed = some .syncTaskListPush := by
  constructor
  · intro debugAssertions
    cases debugAssertions <;> exact ⟨_, rfl, rfl, rfl⟩
  · exact ⟨_, rfl, rfl⟩

end State

end Orengine.Runtime.Machine
