import Mathlib.Data.Multiset.AddSub
import Orengine.Io.Sys.Fallback.Safety.ActiveTasks
import Orengine.Io.Sys.Fallback.WorkerWithThreadPool

/-!
# `number_of_active_tasks` of the fallback worker with a thread pool

A request is counted when it is pushed to the pool or registered in the poller, and is subtracted
when it is done, has expired, or is synced.  But `poll_and_process` does not subtract a request that
it pushes to the pool again, where it is counted a second time, nor one whose deadline has come.  So
a single `recv` that would block leaves the number at 1 when nothing is active any more
(`number_leaks`), and the executor polls for ever.  `number_eq_iff`: this is the only way.

The proof goes through a *ledger*, which only has what the number is compared with.  The requests
are in one place each, so that the filters of the poller take out what they are meant to.
-/

namespace Orengine.Io.FallbackWithThreadPool

open Orengine.Lib
open Fallback (Kind Outcome Phase)

/-! ### The ledger -/

/-- What `number_of_active_tasks` is compared with. -/
structure Ledger (ι : Type*) where
  /-- The requests that the number has to count. -/
  counted : Multiset ι
  /-- Those that were subtracted with the completions, and are not drained yet. -/
  drained : Multiset ι
  number : UInt64
  /-- How many requests were counted again, or never subtracted. -/
  recounted : ℕ

namespace Ledger

variable {ι : Type*} {a b : Ledger ι} {o : Option ι}

/-- All requests that the worker has. -/
def all (a : Ledger ι) : Multiset ι := a.counted + a.drained

/-- What a step does to the ledger, and the request that comes in. -/
inductive Step (a b : Ledger ι) : Option ι → Prop
  | keep (hcounted : b.counted = a.counted) (hdrained : b.drained = a.drained)
      (hnumber : b.number = a.number) (hrecounted : b.recounted = a.recounted) : Step a b none
  | enter (i : ι) (hcounted : b.counted = i ::ₘ a.counted) (hdrained : b.drained = a.drained)
      (hnumber : b.number = a.number + 1) (hrecounted : b.recounted = a.recounted) :
      Step a b (some i)
  | leave (i : ι) (hcounted : i ::ₘ b.counted = a.counted) (hdrained : b.drained = a.drained)
      (hnumber : b.number = a.number - 1) (hrecounted : b.recounted = a.recounted) : Step a b none
  /-- A request goes, but is not subtracted. -/
  | drop (i : ι) (hcounted : i ::ₘ b.counted = a.counted) (hdrained : b.drained = a.drained)
      (hnumber : b.number = a.number) (hrecounted : b.recounted = a.recounted + 1) : Step a b none
  /-- A request stays, and is counted again. -/
  | recount (hcounted : b.counted = a.counted) (hdrained : b.drained = a.drained)
      (hnumber : b.number = a.number + 1) (hrecounted : b.recounted = a.recounted + 1) :
      Step a b none
  | sync (hcounted : b.counted + b.drained = a.counted) (hdrained : a.drained = 0)
      (hnumber : b.number = a.number - UInt64.ofNat b.drained.card)
      (hrecounted : b.recounted = a.recounted) : Step a b none
  | drain (i : ι) (hcounted : b.counted = a.counted) (hdrained : i ::ₘ b.drained = a.drained)
      (hnumber : b.number = a.number) (hrecounted : b.recounted = a.recounted) : Step a b none
  | wait (i : ι) (hcounted : b.counted = i ::ₘ a.counted)
      (hdrained : i ::ₘ b.drained = a.drained) (hnumber : b.number = a.number + 1)
      (hrecounted : b.recounted = a.recounted) : Step a b none

/-- The number counts what it has to count, and what was counted again. -/
def Balanced (a : Ledger ι) : Prop :=
  a.number = UInt64.ofNat (a.counted.card + a.recounted)

theorem ofNat_add_sub (m k : ℕ) : UInt64.ofNat (m + k) - UInt64.ofNat k = UInt64.ofNat m := by
  rw [UInt64.ofNat_add]
  exact UInt64.add_sub_cancel _ _

theorem Balanced.step (h : a.Balanced) (hstep : Step a b o) : b.Balanced := by
  unfold Balanced at h ⊢
  cases hstep with
  | keep hcounted _ hnumber hrecounted | drain _ hcounted _ hnumber hrecounted =>
    rw [hnumber, hcounted, hrecounted, h]
  | enter _ hcounted _ hnumber hrecounted | wait _ hcounted _ hnumber hrecounted =>
    rw [hnumber, hcounted, hrecounted, h, Multiset.card_cons, Nat.add_right_comm]
    exact (UInt64.ofNat_add _ 1).symm
  | leave i hcounted hdrained hnumber hrecounted =>
    rw [hnumber, hrecounted, h, ← hcounted, Multiset.card_cons, Nat.add_right_comm]
    exact ofNat_add_sub _ 1
  | drop i hcounted hdrained hnumber hrecounted =>
    rw [hnumber, hrecounted, h, ← hcounted, Multiset.card_cons, Nat.add_right_comm, Nat.add_assoc]
  | recount hcounted hdrained hnumber hrecounted =>
    rw [hnumber, hcounted, hrecounted, h]
    exact (UInt64.ofNat_add _ 1).symm
  | sync hcounted hdrained hnumber hrecounted =>
    rw [hnumber, hrecounted, h, ← hcounted, Multiset.card_add, Nat.add_right_comm]
    exact ofNat_add_sub _ _

/-- What the worker has after a step is what it had, or a part of it, and the request that has come
in. -/
theorem Step.le (hstep : Step a b o) : b.all ≤ o.elim 0 (fun i => {i}) + a.all := by
  unfold all
  cases hstep with
  | keep hcounted hdrained | recount hcounted hdrained =>
    rw [hcounted, hdrained]; exact Multiset.le_add_left _ _
  | enter i hcounted hdrained =>
    rw [hcounted, hdrained, ← Multiset.singleton_add, add_assoc]
    exact le_refl _
  | leave _ hcounted hdrained | drop _ hcounted hdrained =>
    rw [← hcounted, hdrained, Multiset.cons_add]
    exact (Multiset.le_cons_self _ _).trans (Multiset.le_add_left _ _)
  | sync hcounted hdrained =>
    rw [hcounted, hdrained, add_zero]
    exact Multiset.le_add_left _ _
  | drain i hcounted hdrained =>
    rw [hcounted, ← hdrained, Multiset.add_cons]
    exact (Multiset.le_cons_self _ _).trans (Multiset.le_add_left _ _)
  | wait i hcounted hdrained =>
    rw [hcounted, ← hdrained, Multiset.add_cons, Multiset.cons_add]
    exact Multiset.le_add_left _ _

end Ledger

/-! ### The ledger of the worker -/

namespace System

variable {τ ι : Type*} {n : ℕ} {s t : System τ ι n} {a : Action τ ι n}

/-- The requests that are queued to the threads or that these run. -/
def pool (workers : Fin (n + 1) → ThreadWorker ι) : Multiset ι := ∑ k, ↑(workers k).requests

theorem pool_update (workers : Fin (n + 1) → ThreadWorker ι) (k : Fin (n + 1))
    (w : ThreadWorker ι) : pool (Function.update workers k w) + ↑(workers k).requests =
      pool workers + ↑w.requests :=
  sum_update (Finset.mem_univ k) (fun w => (w.requests : Multiset ι)) workers w

variable {workers : Fin (n + 1) → ThreadWorker ι} {k : Fin (n + 1)} {w : ThreadWorker ι}

theorem pool_cons {i : ι} (h : w.requests.Perm (i :: (workers k).requests)) :
    pool (Function.update workers k w) = i ::ₘ pool workers := by
  have hupdate := pool_update workers k w
  rw [Multiset.coe_eq_coe.mpr h, ← Multiset.cons_coe, Multiset.add_cons,
    ← Multiset.cons_add] at hupdate
  exact add_right_cancel hupdate

theorem pool_eq_cons {i : ι} (h : (workers k).requests = i :: w.requests) :
    pool workers = i ::ₘ pool (Function.update workers k w) := by
  have hupdate := pool_update workers k w
  rw [h, ← Multiset.cons_coe, Multiset.add_cons, ← Multiset.cons_add] at hupdate
  exact (add_right_cancel hupdate).symm

theorem pool_same (h : w.requests = (workers k).requests) :
    pool (Function.update workers k w) = pool workers := by
  have hupdate := pool_update workers k w
  rw [h] at hupdate
  exact add_right_cancel hupdate

/-- The requests that are registered in the poller or were polled, that are queued to the threads or
run by them, and that are waiting among the completions. -/
def counted (s : System τ ι n) : Multiset ι :=
  ↑s.base.worker.waiting + pool s.workers + ↑(s.completions.map WorkerResult.request)

/-- The ledger of the worker. -/
def ledger (s : System τ ι n) : Ledger ι where
  counted := s.counted
  drained := ↑(s.stage.syncedCompletions.map WorkerResult.request)
  number := s.base.worker.numberOfActiveTasks
  recounted := s.recounted.length

/-- Outside of `poll_and_process` and `check_deadlines` there is nothing polled. -/
def Idle (s : System τ ι n) : Prop := s.stage.isPolling = false → s.base.worker.phase = .idle

theorem idle_of_polling {haveDone : Bool} (h : s.stage = .polling haveDone) : s.Idle := by
  intro hnot
  rw [h] at hnot
  cases hnot

theorem drained_eq_zero (h : s.stage.syncedCompletions = []) : s.ledger.drained = 0 := by
  show (↑(s.stage.syncedCompletions.map WorkerResult.request) : Multiset ι) = 0
  rw [h]
  rfl

/-- What a step does to the ledger and to the requests that are known. -/
structure Moved (s t : System τ ι n) (o : Option ι) : Prop where
  ledger : Ledger.Step s.ledger t.ledger o
  new : ∀ i, o = some i → s.base.requests i = none ∧ (t.base.requests i).isSome = true
  known : ∀ j, (s.base.requests j).isSome = true → (t.base.requests j).isSome = true
  idle : t.Idle

theorem Moved.of_none (hledger : Ledger.Step s.ledger t.ledger none)
    (hknown : ∀ j, (s.base.requests j).isSome = true → (t.base.requests j).isSome = true)
    (hidle : t.Idle) : Moved s t none :=
  ⟨hledger, fun i hi => (by cases hi), hknown, hidle⟩

theorem ledger_setBase {b : Fallback.System τ ι}
    (hwaiting : b.worker.waiting = s.base.worker.waiting)
    (hnumber : b.worker.numberOfActiveTasks = s.base.worker.numberOfActiveTasks) :
    (s.setBase b).ledger = s.ledger := by
  simp only [ledger, counted, setBase, hwaiting, hnumber]

/-- Only what the worker without threads has changes, and no request in it. -/
theorem Moved.setBase (hidle : s.Idle) {b : Fallback.System τ ι}
    (hpoller : b.worker.poller = s.base.worker.poller)
    (hphase : b.worker.phase = s.base.worker.phase)
    (hnumber : b.worker.numberOfActiveTasks = s.base.worker.numberOfActiveTasks)
    (hknown : ∀ j, (s.base.requests j).isSome = true → (b.requests j).isSome = true) :
    Moved s (s.setBase b) none := by
  have hwaiting : b.worker.waiting = s.base.worker.waiting := by
    unfold Fallback.Worker.waiting
    rw [hpoller, hphase]
  refine .of_none ?_ hknown fun hstage => hphase.trans (hidle hstage)
  rw [ledger_setBase hwaiting hnumber]
  exact .keep rfl rfl rfl rfl

theorem counted_pushToWorkerPool (s : System τ ι n) (i : ι) :
    (s.pushToWorkerPool i).counted = i ::ₘ s.counted := by
  have hperm : (ThreadWorker.mk ((s.workers s.nextThread).taskChannel ++ [i])
      (s.workers s.nextThread).phase).requests.Perm (i :: (s.workers s.nextThread).requests) := by
    unfold ThreadWorker.requests
    rw [← List.append_assoc]
    exact List.perm_append_singleton i _
  show ↑s.base.worker.waiting + pool (Function.update s.workers s.nextThread _) + _ = _
  rw [pool_cons hperm, Multiset.add_cons, Multiset.cons_add]
  rfl

theorem number_register (w : Fallback.Worker ι) (i : ι) (o : Option ℕ) :
    (w.register i o).2.numberOfActiveTasks = w.numberOfActiveTasks + 1 := by
  cases o <;> rfl

theorem phase_register (w : Fallback.Worker ι) (i : ι) (o : Option ℕ) :
    (w.register i o).2.phase = w.phase := by
  cases o <;> rfl

theorem Moved.setThread (hidle : s.Idle) (h : w.requests = (s.workers k).requests) :
    Moved s (s.setThread k w) none := by
  refine .of_none (.keep ?_ rfl rfl rfl) (fun _ hj => hj) hidle
  show ↑s.base.worker.waiting + pool (Function.update s.workers k w) + _ = _
  rw [pool_same h]
  rfl

theorem moved_of_receive (hidle : s.Idle) (h : s.receive k = some t) : Moved s t none := by
  unfold receive at h
  split at h
  case h_1 i taskChannel hk =>
    rw [← Option.some.inj h]
    apply Moved.setThread hidle
    rw [hk]
    rfl
  case h_2 => cases h

theorem moved_of_push (hidle : s.Idle) (h : s.push k = some t) : Moved s t none := by
  unfold push at h
  split at h
  case h_2 => cases h
  case h_1 taskChannel completion hk =>
    rw [← Option.some.inj h]
    refine .of_none (.keep ?_ rfl rfl rfl) (fun _ hj => hj) hidle
    have hpool : pool s.workers = completion.request ::ₘ
        pool (Function.update s.workers k ⟨taskChannel, .receiving⟩) := by
      apply pool_eq_cons
      rw [hk]
      rfl
    show ↑s.base.worker.waiting + pool (Function.update s.workers k ⟨taskChannel, .receiving⟩) +
      ↑((s.completions ++ [completion]).map WorkerResult.request) =
      ↑s.base.worker.waiting + pool s.workers + ↑(s.completions.map WorkerResult.request)
    rw [hpool, List.map_append, ← Multiset.coe_add, Multiset.add_cons, Multiset.cons_add,
      ← add_assoc, add_comm _ (↑([completion].map WorkerResult.request) : Multiset ι)]
    rfl

theorem moved_of_sync (h : s.sync = some t) : Moved s t none := by
  unfold sync at h
  split at h
  case h_2 => cases h
  case h_1 haveDone hstage hphase =>
    rw [← Option.some.inj h]
    refine .of_none (.sync ?_ ?_ ?_ rfl) (fun _ hj => hj) (fun _ => hphase)
    · show ↑s.base.worker.waiting + pool s.workers + 0 + _ = s.counted
      rw [add_zero]
      rfl
    · exact drained_eq_zero (by rw [hstage]; rfl)
    · show s.base.worker.numberOfActiveTasks - UInt64.ofNat s.completions.length =
        s.base.worker.numberOfActiveTasks -
          UInt64.ofNat (Multiset.card (↑(s.completions.map WorkerResult.request) : Multiset ι))
      rw [Multiset.coe_card, List.length_map]

theorem Moved.setStage (hidle : s.Idle) (hpolling : s.stage.isPolling = false)
    (hold : s.stage.syncedCompletions = []) {stage : Stage ι}
    (hnew : stage.syncedCompletions = []) : Moved s { s with stage := stage } none := by
  refine .of_none (.keep rfl ?_ rfl rfl) (fun _ hj => hj) (fun _ => hidle hpolling)
  exact (drained_eq_zero hnew).trans (drained_eq_zero hold).symm

theorem moved_of_leave (hidle : s.Idle) (h : s.leave = some t) : Moved s t none := by
  unfold leave at h
  split at h
  case h_2 => cases h
  case h_1 haveDone hstage =>
    rw [← Option.some.inj h]
    exact .setStage hidle (by rw [hstage]; rfl) (by rw [hstage]; rfl) rfl

theorem counted_popped {i : ι} {isReady : Bool} {polled : List (ι × Bool)} {len : ℕ}
    (hphase : s.base.worker.phase = .processing ((i, isReady) :: polled) len)
    (q : TimeBoundedIoTaskQueue ι) :
    i ::ₘ (s.setBase (s.base.popped q (.processing polled len))).counted = s.counted := by
  have hperm : s.base.worker.waiting.Perm
      (i :: (s.base.worker.poller ++ polled.map Prod.fst)) := by
    unfold Fallback.Worker.waiting
    rw [hphase]
    exact List.perm_middle
  show i ::ₘ (↑(s.base.worker.poller ++ polled.map Prod.fst) + pool s.workers + _) =
    ↑s.base.worker.waiting + pool s.workers + _
  rw [Multiset.coe_eq_coe.mpr hperm, ← Multiset.cons_coe, Multiset.cons_add, Multiset.cons_add]
  rfl

section Step

variable [DecidableEq ι]

theorem counted_enroll (s : System τ ι n) (i : ι) (r : Fallback.Request τ) :
    (s.setBase (s.base.enroll i r)).counted = i ::ₘ s.counted := by
  show ↑(s.base.worker.register i r.deadline).2.waiting + pool s.workers + _ = _
  rw [Multiset.coe_eq_coe.mpr (s.base.worker.waiting_register i r.deadline), ← Multiset.cons_coe,
    Multiset.cons_add, Multiset.cons_add]
  rfl

theorem moved_of_work (hidle : s.Idle) {k : Fin (n + 1)} {outcome : Outcome}
    (h : s.work k outcome = some t) : Moved s t none := by
  unfold work at h
  split at h
  case h_2 => cases h
  case h_1 taskChannel i hk =>
    obtain ⟨r, hr, rfl⟩ := Option.map_eq_some_iff.mp h
    have hgive (completion : WorkerResult ι) (hi : completion.request = i) :
        (ThreadWorker.mk taskChannel (.pushing completion)).requests = (s.workers k).requests := by
      rw [hk, ← hi]
      rfl
    -- The result is stored before the thread goes on.
    have hstore (ret : Except ErrorKind ℕ) : Moved s
        ((s.store i r ret).setThread k ⟨taskChannel, .pushing (.done i)⟩) none := by
      have hmoved := Moved.setThread (s := s) hidle (hgive (.done i) rfl)
      exact .of_none hmoved.ledger (fun j hj => Fallback.System.isSome_update _ _ hj) hmoved.idle
    cases outcome with
    | ok ret => exact hstore (.ok ret)
    | wouldBlock | inProgress => exact Moved.setThread hidle (hgive (.mustPoll i) rfl)
    | error kind => exact hstore (.error kind)

theorem moved_of_poll (hidle : s.Idle) (hnodup : s.base.worker.waiting.Nodup)
    {events : List (ι × Bool)} (h : s.poll events = some t) : Moved s t none := by
  unfold poll at h
  split at h
  case isFalse => cases h
  case isTrue hevents =>
    obtain ⟨hmay, hdistinct, hmem⟩ := hevents
    have hstage : s.stage.isPolling = false ∧ s.stage.syncedCompletions = [] := by
      cases hs : s.stage <;> simp [hs, Stage.mayPoll] at hmay <;> exact ⟨rfl, rfl⟩
    rw [← Option.some.inj h]
    refine .of_none (.keep ?_ ?_ rfl rfl) (fun _ hj => hj) (idle_of_polling rfl)
    · have hperm :=
        Fallback.System.perm_waiting_of_poll (hidle hstage.1) hnodup hdistinct hmem
      show ↑(s.base.worker.poller.filter (fun i => i ∉ events.map Prod.fst) ++
        events.map Prod.fst) + pool s.workers + _ = _
      rw [Multiset.coe_eq_coe.mpr hperm]
      rfl
    · exact (drained_eq_zero hstage.2).symm

theorem moved_of_processReady {i : ι} {polled : List (ι × Bool)} {len : ℕ} {haveDone : Bool}
    (hstage : s.stage = .polling haveDone)
    (hphase : s.base.worker.phase = .processing ((i, true) :: polled) len)
    (q : TimeBoundedIoTaskQueue ι) (r : Fallback.Request τ) :
    Moved s ((s.setBase (s.base.popped q (.processing polled len))).processReady i r) none := by
  have hcounted := counted_popped hphase q
  have hdrained : s.ledger.drained = 0 := drained_eq_zero (by rw [hstage]; rfl)
  unfold processReady
  split
  case isTrue =>
    -- The request is overdue: it goes, and stays in the number.
    have hledger : (((s.setBase (s.base.popped q (.processing polled len))).setBase
        ((s.base.popped q (.processing polled len)).storeAndSpawn i r (.error .timedOut)))).ledger =
        (s.setBase (s.base.popped q (.processing polled len))).ledger :=
      ledger_setBase (by rw [Fallback.System.storeAndSpawn_worker]; rfl)
        (by rw [Fallback.System.storeAndSpawn_worker]; rfl)
    refine .of_none (.drop i ?_ rfl ?_ ?_) ?_ (idle_of_polling hstage)
    · exact (congrArg (i ::ₘ ·.counted) hledger).trans hcounted
    · exact (congrArg Ledger.number hledger :)
    · exact List.length_append
    · intro j hj
      exact Fallback.System.isSome_storeAndSpawn hj
  case isFalse =>
    split
    case isTrue =>
      -- The request goes to the pool, and is counted again.
      refine .of_none (.recount ?_ rfl rfl ?_) (fun _ hj => hj) (idle_of_polling hstage)
      · show ((s.setBase (s.base.popped q (.processing polled len))).pushToWorkerPool i).counted =
          s.counted
        rw [counted_pushToWorkerPool]
        exact hcounted
      · exact List.length_append
    case isFalse =>
      refine .of_none (.leave i hcounted hdrained.symm rfl rfl) ?_ (idle_of_polling rfl)
      intro j hj
      exact Fallback.System.isSome_update _ _ hj

theorem moved_of_process (h : s.process = some t) : Moved s t none := by
  unfold process at h
  split at h
  case h_3 => cases h
  case h_1 haveDone len hstage hphase =>
    rw [← Option.some.inj h]
    refine .of_none (.keep ?_ rfl rfl rfl) (fun _ hj => hj) (idle_of_polling hstage)
    show _ = ↑s.base.worker.waiting + pool s.workers + _
    unfold Fallback.Worker.waiting
    rw [hphase]
    rfl
  case h_2 haveDone i isReady polled len hstage hphase =>
    obtain ⟨r, hr, rfl⟩ := Option.map_eq_some_iff.mp h
    have hpanic (p : Fallback.Panic) : Moved s (s.setBase (s.base.panic p)) none :=
      .of_none (.keep rfl rfl rfl rfl) (fun _ hj => hj) (idle_of_polling hstage)
    unfold processOne
    rw [Fallback.System.removeEntry_eq]
    cases hq : Fallback.System.removal s.base.worker.timeBoundedIoTaskQueue r.deadline with
    | none => cases isReady <;> exact hpanic _
    | some q =>
      cases isReady with
      | true => exact moved_of_processReady hstage hphase q r
      | false =>
        have hdrained : s.ledger.drained = 0 := drained_eq_zero (by rw [hstage]; rfl)
        refine .of_none (.leave i (counted_popped hphase q) hdrained.symm rfl rfl) ?_
          (idle_of_polling rfl)
        intro j hj
        exact Fallback.System.isSome_update _ _ hj

theorem moved_of_drain (hidle : s.Idle) (h : s.drain = some t) : Moved s t none := by
  unfold drain at h
  split at h
  case h_4 => cases h
  case h_1 haveDone hstage =>
    rw [← Option.some.inj h]
    exact .setStage hidle (by rw [hstage]; rfl) (by rw [hstage]; rfl) rfl
  case h_2 i rest haveDone hstage =>
    obtain ⟨r, hr, rfl⟩ := Option.map_eq_some_iff.mp h
    refine .of_none (.drain i rfl ?_ rfl rfl) ?_ (fun _ => hidle (by rw [hstage]; rfl))
    · show _ = (↑(s.stage.syncedCompletions.map WorkerResult.request) : Multiset ι)
      rw [hstage]
      rfl
    · intro j hj
      exact Fallback.System.isSome_update _ _ hj
  case h_3 i rest haveDone hstage =>
    obtain ⟨r, hr, hkind⟩ := Option.bind_eq_some_iff.mp h
    split at hkind
    case h_1 => cases hkind
    case h_2 =>
      rw [← Option.some.inj hkind]
      have hdrained : i ::ₘ (↑(rest.map WorkerResult.request) : Multiset ι) = s.ledger.drained := by
        show _ = (↑(s.stage.syncedCompletions.map WorkerResult.request) : Multiset ι)
        rw [hstage]
        rfl
      have hphase : s.base.worker.phase = .idle := hidle (by rw [hstage]; rfl)
      rcases s.base.register_cases i r with henroll | ⟨-, hfail⟩
      · rw [henroll]
        refine .of_none (.wait i (counted_enroll s i r) hdrained (number_register _ i r.deadline)
          rfl) (fun j hj => Fallback.System.isSome_update _ _ hj) fun _ => ?_
        exact (phase_register _ i r.deadline).trans hphase
      · rw [hfail]
        exact .of_none (.drain i rfl hdrained rfl rfl) (fun _ hj => hj) fun _ => hphase

theorem moved_of_perform (hidle : s.Idle) {i : ι} (hnew : s.base.requests i = none)
    (r : Fallback.Request τ) : ∃ o, Moved s (s.perform i r) o := by
  have hset {r : Fallback.Request τ} :
      (Function.update s.base.requests i (some r) i).isSome = true := by
    rw [Function.update_self]
    rfl
  have hpush : Moved s ((s.setBase (s.base.setRequest i r)).pushToWorkerPool i) (some i) := by
    refine ⟨.enter i (counted_pushToWorkerPool _ i) rfl rfl rfl, fun j hj => ?_, fun j hj => ?_,
      hidle⟩
    · obtain rfl := Option.some.inj hj
      exact ⟨hnew, hset⟩
    · exact Fallback.System.isSome_update _ _ hj
  unfold perform
  split
  case h_1 => exact ⟨_, hpush⟩
  case h_2 c =>
    split
    case isTrue =>
      have hworker := s.base.storeAndSpawn_worker i r (.error .timedOut)
      exact ⟨none, Moved.setBase hidle (by rw [hworker]) (by rw [hworker]) (by rw [hworker])
        fun j hj => Fallback.System.isSome_storeAndSpawn hj⟩
    case isFalse =>
      split
      case isTrue =>
        rcases s.base.register_cases i r with henroll | ⟨-, hfail⟩
        · rw [henroll]
          refine ⟨some i, .enter i (counted_enroll s i r) rfl (number_register _ i r.deadline) rfl,
            fun j hj => ?_, fun j hj => ?_, fun hstage => ?_⟩
          · obtain rfl := Option.some.inj hj
            exact ⟨hnew, hset⟩
          · exact Fallback.System.isSome_update _ _ hj
          · exact (phase_register _ i r.deadline).trans (hidle hstage)
        · rw [hfail]
          exact ⟨none, .setBase hidle rfl rfl rfl fun _ hj => hj⟩
      case isFalse => exact ⟨_, hpush⟩

variable [DecidableEq τ]

theorem moved_of_check (hnodup : s.base.worker.waiting.Nodup) (h : s.check = some t) :
    Moved s t none := by
  unfold check at h
  split at h
  case h_2 => cases h
  case h_1 haveDone hstage =>
    obtain ⟨b, hb, rfl⟩ := Option.map_eq_some_iff.mp h
    have hpolling : (s.setBase b).Idle := idle_of_polling hstage
    cases Fallback.System.effect_of_check hb with
    | checkEnd hphase =>
      refine .of_none (.keep ?_ rfl rfl rfl) (fun _ hj => hj) hpolling
      show _ = ↑s.base.worker.waiting + pool s.workers + _
      unfold Fallback.Worker.waiting
      rw [hphase]
      rfl
    | checkPanic => exact .of_none (.keep rfl rfl rfl rfl) (fun _ hj => hj) hpolling
    | checkExpired d i rest r hphase hpop hle hmem hr =>
      have hwaiting : s.base.worker.waiting = s.base.worker.poller :=
        Fallback.Worker.waiting_of_polled (by rw [hphase]; rfl)
      refine .of_none (.leave i ?_ rfl rfl rfl) ?_ hpolling
      · have hpoller : (s.base.worker.poller.map id).Nodup := by
          rw [List.map_id, ← hwaiting]
          exact hnodup
        have hperm := perm_cons_filter hpoller hmem
        have hleft : (s.base.worker.deregister i rest).waiting =
            s.base.worker.poller.filter fun j => j ≠ i :=
          Fallback.Worker.waiting_of_polled
            (show s.base.worker.phase.polled = [] by rw [hphase]; rfl)
        show i ::ₘ (↑(s.base.worker.deregister i rest).waiting + pool s.workers + _) =
          ↑s.base.worker.waiting + pool s.workers + _
        rw [hleft, hwaiting, ← Multiset.coe_eq_coe.mpr hperm, ← Multiset.cons_coe,
          Multiset.cons_add, Multiset.cons_add]
        rfl
      · intro j hj
        exact Fallback.System.isSome_update _ _ hj

theorem Moved.endPoll {o : Option ι} (h : Moved s t o) (u : τ) :
    Moved s (t.setBase (t.base.endPoll u)) o := by
  have hworker := t.base.endPoll_worker u
  have hledger : (t.setBase (t.base.endPoll u)).ledger = t.ledger :=
    ledger_setBase (by rw [hworker]) (by rw [hworker])
  refine ⟨hledger ▸ h.ledger, fun i hi => ?_, fun j hj => ?_, fun hstage => ?_⟩
  · exact ⟨(h.new i hi).1, Fallback.System.isSome_endPoll (h.new i hi).2 u⟩
  · exact Fallback.System.isSome_endPoll (h.known j hj) u
  · show (t.base.endPoll u).worker.phase = .idle
    rw [hworker]
    exact h.idle hstage

/-- **What a step does to the ledger.** -/
theorem moved_of_step (hidle : s.Idle) (hnodup : s.base.worker.waiting.Nodup)
    (h : s.step a = some t) : ∃ o, Moved s t o := by
  obtain ⟨-, h⟩ := Option.ite_none_left_eq_some.mp h
  cases a with
  | tick nanos => exact Option.some.inj h ▸ ⟨none, .setBase hidle rfl rfl rfl fun _ hj => hj⟩
  | start i task isLocal kind deadline =>
    simp only [start] at h
    split at h
    case isTrue => cases h
    case isFalse hnew =>
      simp only [Bool.or_eq_true, not_or, Option.not_isSome_iff_eq_none] at hnew
      obtain ⟨o, hmoved⟩ := moved_of_perform hidle hnew.1 (.new task isLocal kind deadline)
      split at h
      case isTrue => exact Option.some.inj h ▸ ⟨o, hmoved⟩
      case isFalse => exact Option.some.inj h ▸ ⟨o, hmoved.endPoll task⟩
  | pending u =>
    have hstay : Moved s s none := .of_none (.keep rfl rfl rfl rfl) (fun _ hj => hj) hidle
    exact Option.some.inj h ▸ ⟨none, hstay.endPoll u⟩
  | resume i =>
    obtain ⟨b, hb, rfl⟩ := Option.map_eq_some_iff.mp h
    obtain ⟨r, -, -, rfl⟩ := Fallback.System.eq_of_resume hb
    exact ⟨none, .setBase hidle rfl rfl rfl fun _ hj => Fallback.System.isSome_update _ _ hj⟩
  | receive k => exact ⟨none, moved_of_receive hidle h⟩
  | work k outcome => exact ⟨none, moved_of_work hidle h⟩
  | push k => exact ⟨none, moved_of_push hidle h⟩
  | poll events => exact ⟨none, moved_of_poll hidle hnodup h⟩
  | process => exact ⟨none, moved_of_process h⟩
  | check => exact ⟨none, moved_of_check hnodup h⟩
  | sync => exact ⟨none, moved_of_sync h⟩
  | drain => exact ⟨none, moved_of_drain hidle h⟩
  | leave => exact ⟨none, moved_of_leave hidle h⟩

end Step

/-! ### Whole runs -/

/-- The ledger is balanced, and every request is in one place. -/
structure Accounted (s : System τ ι n) : Prop where
  balanced : s.ledger.Balanced
  nodup : s.ledger.all.Nodup
  known : ∀ i ∈ s.ledger.all, (s.base.requests i).isSome = true
  idle : s.Idle

theorem Accounted.waiting_nodup (h : s.Accounted) : s.base.worker.waiting.Nodup := by
  have hle : (↑s.base.worker.waiting : Multiset ι) ≤ s.ledger.all := by
    show _ ≤ ↑s.base.worker.waiting + pool s.workers + _ + s.ledger.drained
    rw [add_assoc, add_assoc]
    exact Multiset.le_add_right _ _
  exact Multiset.coe_nodup.mp (Multiset.nodup_of_le hle h.nodup)

theorem Accounted.moved (h : s.Accounted) {o : Option ι} (hmoved : Moved s t o) : t.Accounted := by
  have hle := hmoved.ledger.le
  refine ⟨h.balanced.step hmoved.ledger, ?_, fun i hi => ?_, hmoved.idle⟩
  · apply Multiset.nodup_of_le hle
    cases o with
    | none => simpa using h.nodup
    | some i =>
      show ({i} + s.ledger.all).Nodup
      rw [Multiset.singleton_add, Multiset.nodup_cons]
      refine ⟨fun hi => ?_, h.nodup⟩
      have hknown := h.known i hi
      rw [(hmoved.new i rfl).1] at hknown
      cases hknown
  · rcases Multiset.mem_add.mp (Multiset.mem_of_le hle hi) with hnew | hold
    · cases o with
      | none => cases hnew
      | some j =>
        obtain rfl := Multiset.mem_singleton.mp hnew
        exact (hmoved.new i rfl).2
    · exact hmoved.known i (h.known i hold)

theorem accounted_init (now : ℕ) : (init now : System τ ι n).Accounted := by
  have hpool : pool (init now : System τ ι n).workers = 0 := Finset.sum_eq_zero fun _ _ => rfl
  have hcounted : (init now : System τ ι n).ledger.counted = 0 := by
    show (0 : Multiset ι) + pool _ + 0 = 0
    rw [hpool]
    rfl
  have hall : (init now : System τ ι n).ledger.all = 0 := by
    unfold Ledger.all
    rw [hcounted]
    rfl
  refine ⟨?_, ?_, fun i hi => ?_, fun _ => rfl⟩
  · unfold Ledger.Balanced
    rw [hcounted]
    rfl
  · rw [hall]
    exact Multiset.nodup_zero
  · rw [hall] at hi
    cases hi

/-- The requests that are active: those in the poller, those queued to the threads or run by them,
and those that wait among the completions. -/
def active (s : System τ ι n) : ℕ :=
  s.base.worker.poller.length + tally (fun w => w.requests.length) s.workers + s.completions.length

theorem card_counted (h : s.base.worker.phase = .idle) : s.counted.card = s.active := by
  have hwaiting : s.base.worker.waiting = s.base.worker.poller :=
    Fallback.Worker.waiting_of_polled (by rw [h]; rfl)
  unfold counted pool active tally
  rw [Multiset.card_add, Multiset.card_add, Multiset.card_sum, hwaiting, Multiset.coe_card,
    Multiset.coe_card, List.length_map]
  rfl

variable [DecidableEq ι] [DecidableEq τ]

/-- **The number is that of the active requests** after a `must_poll_`, as long as there are fewer
than `2^64`, exactly if `poll_and_process` has never pushed a request to the pool again or found one
to be overdue. -/
theorem number_eq_iff {now : ℕ} {haveDone : Bool} (h : Reachable step (init now) s)
    (hstage : s.stage = .returned haveDone)
    (hsize : s.active + s.recounted.length < UInt64.size) :
    s.base.worker.numberOfActiveTasks.toNat = s.active ↔ s.recounted = [] := by
  have hinv : s.Accounted := by
    apply h.invariant (accounted_init now)
    intro s a t _ hs _ hstep
    obtain ⟨o, hmoved⟩ := moved_of_step hs.idle hs.waiting_nodup hstep
    exact hs.moved hmoved
  have hbalanced : s.base.worker.numberOfActiveTasks =
      UInt64.ofNat (s.active + s.recounted.length) := by
    rw [← card_counted (hinv.idle (by rw [hstage]; rfl))]
    exact hinv.balanced
  have hnumber :
      s.base.worker.numberOfActiveTasks.toNat = s.active + s.recounted.length := by
    rw [hbalanced]
    exact UInt64.toNat_ofNat_of_lt hsize
  rw [hnumber, Nat.add_eq_left, List.length_eq_zero_iff]

/-- A connection is in progress, and its socket gets ready; a request without a poll is in the
pool. -/
theorem number_eq_iff_connect :
    ∃ s : System ℕ ℕ 0, Reachable step (init 0) s ∧ s.stage = .returned true ∧ s.active = 1 ∧
      s.recounted = [] ∧ s.base.worker.numberOfActiveTasks.toNat = s.active := by
  have hreach : Reachable step (init 0 : System ℕ ℕ 0) _ :=
    reachable_of_exec [.start 0 7 true (.call .connect 3) none, .receive 0, .work 0 .inProgress,
      .push 0, .poll [], .process, .check, .sync, .drain, .drain,
      .start 1 8 false .operation none, .poll [(0, true)], .process, .process, .check, .sync,
      .drain] rfl
  exact ⟨_, hreach, rfl, rfl, rfl, (number_eq_iff hreach rfl (by decide)).mpr rfl⟩

/-- **The number leaks.** A `recv` would block, waits in the poller, is pushed to the pool again
when its socket is ready, and is done.  Nothing is active any more, but the number is 1. -/
theorem number_leaks :
    ∃ s : System ℕ ℕ 0, Reachable step (init 0) s ∧ s.stage = .returned true ∧ s.active = 0 ∧
      (∃ r, s.base.requests 0 = some r ∧ r.isScheduled = true ∧ r.ret = some (.ok 5)) ∧
      s.base.worker.numberOfActiveTasks = 1 := by
  have hreach : Reachable step (init 0 : System ℕ ℕ 0) _ :=
    reachable_of_exec [.start 0 7 true (.call .recv 3) none, .receive 0, .work 0 .wouldBlock,
      .push 0, .poll [], .process, .check, .sync, .drain, .drain,
      .poll [(0, true)], .process, .process, .check, .sync, .drain,
      .receive 0, .work 0 (.ok 5), .push 0,
      .poll [], .process, .check, .sync, .drain, .drain] rfl
  exact ⟨_, hreach, rfl, rfl, ⟨_, rfl, rfl, rfl⟩, rfl⟩

end System

end Orengine.Io.FallbackWithThreadPool
