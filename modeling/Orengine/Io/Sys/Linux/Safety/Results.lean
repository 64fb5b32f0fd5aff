import Orengine.Io.Sys.Linux.Safety.Deadlines

/-!
# The results of the `io_uring` requests

A worker has exactly those requests in flight, each once, that it has got and that have no result.
So a completion is handled for a request that waits for it, and no request gets a second result.
-/

namespace Orengine.Io.IoUring.System

open Orengine.Lib

variable {ε ι : Type*} [DecidableEq ε] [DecidableEq ι] {s t : System ε ι} {a : Action ε ι}

/-- How often an executor has to have a request in flight. -/
def awaits (r : Option (Request ε)) (e : ε) : ℕ :=
  (r.any fun r => decide (r.executor = e) && r.ret.isNone).toNat

/-- Every executor has in flight what it has got and what has no result. -/
def Served (s : System ε ι) : Prop :=
  ∀ e i, (s.executors e).requests.count i = awaits (s.requests i) e

theorem Served.set (h : s.Served) {e : ε} {y : Executor ι}
    (hperm : y.requests.Perm (s.executors e).requests) : (s.set e y).Served :=
  (forall_set (p := fun e x => ∀ i, x.requests.count i = awaits (s.requests i) e)).mpr
    ⟨fun i => (hperm.count_eq i).trans (h e i), fun e' _ => h e'⟩

theorem Served.update (h : s.Served) {e : ε} {y : Executor ι} {i : ι} {r : Request ε}
    (hothers : ∀ j, j ≠ i → y.requests.count j = (s.executors e).requests.count j)
    (hself : y.requests.count i = awaits (some r) e)
    (helse : ∀ e', e' ≠ e → awaits (s.requests i) e' = awaits (some r) e') :
    ((s.set e y).setRequest i r).Served := by
  intro e' j
  show ((s.set e y).executors e').requests.count j =
    awaits (Function.update s.requests i (some r) j) e'
  rcases eq_or_ne j i with rfl | hj
  · rw [Function.update_self]
    exact (forall_set (p := fun e x => x.requests.count j = awaits (some r) e)).mpr
      ⟨hself, fun e' he => (h e' j).trans (helse e' he)⟩ e'
  · rw [Function.update_of_ne hj]
    exact (forall_set (p := fun e x => x.requests.count j = awaits (s.requests j) e)).mpr
      ⟨(hothers j hj).trans (h e j), fun e' _ => h e' j⟩ e'

theorem Served.of_reap (h : s.Served) {e : ε} {n : ℕ} {i : ι} {result : ℤ}
    {rest : List (Completion ι)} {r : Request ε}
    (hphase : (s.executors e).phase = .reaping (⟨⟨n, .request i⟩, result⟩ :: rest))
    (hr : s.requests i = some r) : r.executor = e ∧
      ((s.executors e).setPhase (.reaping rest)).requests.count i = 0 := by
  have hcount := (Executor.requests_reap hphase).count_eq i
  rw [h e i, hr, List.count_cons_self, awaits, Option.any_some] at hcount
  have hle := Bool.toNat_le (decide (r.executor = e) && r.ret.isNone)
  refine ⟨of_not_not fun hne => ?_, by omega⟩
  simp [hne] at hcount

theorem Served.step (h : s.Served) (hall : s.AllAccounted 2) (hstep : s.step a = some t) :
    t.Served := by
  cases effect_of_step hstep with
  | tick => exact h
  | newRound e => exact h.set (.refl _)
  | request e i isLocal d hnew =>
    have hperm := (s.executors e).requests_request i d
    refine h.update (fun j hj => ?_) ?_ fun e' he => ?_
    · rw [hperm.count_eq, List.count_cons_of_ne hj.symm]
    · rw [hperm.count_eq, List.count_cons_self, h e i, hnew]
      simp [awaits]
    · simp [hnew, awaits, he.symm]
  | mustPoll e results last w hidle hw => exact h.set (hall.requests_mustPoll hidle hw)
  | complete e n result w hw =>
    have hperm := (Executor.outstanding_complete hw).filterMap fun x => x.op.request?
    exact h.set hperm
  | sync e hsubmitted =>
    have hperm := (Executor.outstanding_sync hsubmitted).filterMap fun x => x.op.request?
    exact h.set hperm
  | reapEnd e now hphase =>
    refine h.set (.of_eq ?_)
    rw [Executor.requests_eq, Executor.requests_eq, hphase]
    rfl
  | reapCancel e now n i result rest hphase =>
    have hperm := (Executor.outstanding_reap hphase).symm.filterMap fun x => x.op.request?
    exact h.set hperm
  | reapRequest e now n i result rest r hphase hr =>
    obtain ⟨rfl, hzero⟩ := h.of_reap hphase hr
    have hupdate {y : Executor ι} {r' : Request ε}
        (hy : y.requests = ((s.executors r.executor).setPhase (.reaping rest)).requests)
        (hr' : r'.ret.isNone = false) : ((s.set r.executor y).setRequest i r').Served := by
      refine h.update (fun j hj => ?_) ?_ fun e' he => ?_
      · rw [hy, (Executor.requests_reap hphase).count_eq, List.count_cons_of_ne hj.symm]
      · rw [hy, hzero]
        simp [awaits, hr']
      · simp [hr, awaits, he.symm, hr']
    unfold handle
    split
    · unfold finish
      rw [executors_set, set_set]
      exact hupdate rfl rfl
    · exact hupdate rfl rfl
  | resume e i r ret hr hret =>
    refine h.update (fun _ _ => rfl) ?_ fun e' _ => ?_
    · exact (h e i).trans (by simp [hr, awaits, hret])
    · simp [hr, awaits, hret]

/-- **Every request gets one result.** In every run, with any number of executors whose rings have
two slots or more, a worker has in flight exactly the requests that it has got and that have no
result, each of them once. -/
theorem requests_served (numberOfEntries now : ℕ) (hsize : 2 ≤ numberOfEntries) (s : System ε ι)
    (h : Reachable step (init numberOfEntries now) s) (e : ε) :
    (s.executors e).requests.Nodup ∧ ∀ i, (s.executors e).InFlight i ↔
      ∃ r, s.requests i = some r ∧ r.executor = e ∧ r.ret = none := by
  have hserved : s.AllAccounted 2 ∧ s.Served :=
    Reach.invariant (I := fun s => s.AllAccounted 2 ∧ s.Served)
      ⟨fun _ => Worker.accounted_new hsize, fun _ _ => rfl⟩
      (fun _ _ _ _ hi _ hstep => ⟨hi.1.step (.inl le_rfl) hstep, hi.2.step hi.1 hstep⟩) h
  refine ⟨List.nodup_iff_count_le_one.mpr fun i => ?_, fun i => ?_⟩
  · rw [hserved.2 e i]
    exact Bool.toNat_le _
  · rw [Executor.inFlight_iff, ← List.count_pos_iff, hserved.2 e i, awaits]
    cases s.requests i <;> simp [Nat.pos_iff_ne_zero]

/-- Of two requests of an executor the first has failed. -/
theorem requests_served_two_requests : ∃ s : System Unit Bool, Reachable step (init 8 0) s ∧
    (s.requests true).bind Request.ret = some (.error .other) ∧
    ¬(s.executors ()).InFlight true ∧ (s.executors ()).InFlight false := by
  have h : Reachable step (init 8 0 : System Unit Bool) _ :=
    reachable_of_exec [.request () true false none, .request () false true (some 10),
      .mustPoll () [] (.ok 2), .complete () 0 (-5), .sync (), .reap () false] rfl
  obtain ⟨-, hiff⟩ := requests_served 8 0 (by decide) _ h ()
  refine ⟨_, h, rfl, fun hin => ?_, (hiff false).mpr ⟨_, rfl, rfl, rfl⟩⟩
  obtain ⟨r, hr, -, hret⟩ := (hiff true).mp hin
  cases hr
  cases hret

end Orengine.Io.IoUring.System
