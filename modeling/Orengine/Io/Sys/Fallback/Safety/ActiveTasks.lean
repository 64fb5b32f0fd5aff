import Orengine.Io.Sys.Fallback.Safety.Scheduling

/-!
# `number_of_active_tasks` of the fallback worker

`poll_and_process` subtracts the number of the requests that were polled at its end, and
`check_deadlines` each request that it takes out.  But a request whose socket has an error is
subtracted on its own as well, and for a single request this underflows (`number_underflows`).
`number_balanced` is about the runs without such a request.
-/

namespace Orengine.Io.Fallback.System

open Orengine.Lib

variable {τ ι : Type*} [DecidableEq ι] [DecidableEq τ] {s t : System τ ι} {a : Action τ ι}

/-! ### The requests that wait are different -/

omit [DecidableEq τ] in
theorem isSome_update {i j : ι} (f : ι → Option (Request τ)) (r : Request τ)
    (h : (f j).isSome = true) : (Function.update f i (some r) j).isSome = true := by
  by_cases hj : j = i
  · rw [hj, Function.update_self]
    rfl
  · rw [Function.update_of_ne hj]
    exact h

omit [DecidableEq τ] in
theorem isSome_storeAndSpawn {i j : ι} {r : Request τ} {ret : Except ErrorKind ℕ}
    (h : (s.requests j).isSome = true) : ((s.storeAndSpawn i r ret).requests j).isSome = true := by
  unfold storeAndSpawn
  split <;> exact isSome_update s.requests _ h

theorem isSome_endPoll {j : ι} (h : (s.requests j).isSome = true) (u : τ) :
    ((s.endPoll u).requests j).isSome = true := by
  unfold endPoll
  split
  case h_1 => exact h
  case h_2 i _ =>
    by_cases hj : j = i
    · show (Function.update s.requests i _ j).isSome = true
      rw [hj, Function.update_self, Option.isSome_map, ← hj]
      exact h
    · show (Function.update s.requests i _ j).isSome = true
      rw [Function.update_of_ne hj]
      exact h

theorem isSome_step {j : ι} (h : (s.requests j).isSome = true) (hstep : s.step a = some t) :
    (t.requests j).isSome = true := by
  cases effect_of_step hstep with
  | tick | startPanic | poll | processEnd | processPanic | processOccupied | checkEnd
  | checkPanic => exact h
  | startWait i task isLocal kind deadline outcome r =>
    exact isSome_endPoll (s := s.enroll i r) (isSome_update s.requests _ h) _
  | startDone i task isLocal kind deadline outcome r ret =>
    exact isSome_endPoll (isSome_storeAndSpawn h) _
  | pending u => exact isSome_endPoll h u
  | resume | processWait | processSchedule | processError | checkExpired =>
    exact isSome_update s.requests _ h
  | processSpawn outcome i polled len r q ret =>
    exact isSome_storeAndSpawn (s := s.popped q (.processing polled len)) h

/-- The requests that wait are different, and known. -/
structure Distinct (s : System τ ι) : Prop where
  nodup : s.worker.waiting.Nodup
  known : ∀ i ∈ s.worker.waiting, (s.requests i).isSome = true

theorem Distinct.mono (h : s.Distinct) (hstep : s.step a = some t)
    (hnodup : t.worker.waiting.Nodup)
    (hmem : ∀ i ∈ t.worker.waiting, i ∈ s.worker.waiting) : t.Distinct :=
  ⟨hnodup, fun i hi => isSome_step (h.known i (hmem i hi)) hstep⟩

theorem Distinct.step (h : s.Distinct) (hstep : s.step a = some t) : t.Distinct := by
  -- The worker is the one before, or it has the same requests in its hands.
  have hsame (hwaiting : t.worker.waiting.Perm s.worker.waiting) : t.Distinct :=
    h.mono hstep (hwaiting.nodup_iff.mpr h.nodup) fun i hi => hwaiting.mem_iff.mp hi
  -- The request that `poll_and_process` takes does not wait any more.
  have htaken {i : ι} {isReady : Bool} {polled : List (ι × Bool)} {len : ℕ}
      (hphase : s.worker.phase = .processing ((i, isReady) :: polled) len)
      (hwaiting : t.worker.waiting = s.worker.poller ++ polled.map Prod.fst) : t.Distinct := by
    obtain ⟨-, hnodup, hmem⟩ := Worker.taken h.nodup hphase
    refine h.mono hstep (hwaiting ▸ hnodup) fun j hj => ((hmem j).mp ?_).2
    rw [← hwaiting]
    exact hj
  cases effect_of_step hstep with
  | tick | startPanic | resume | processPanic | checkPanic => exact hsame (.refl _)
  | startWait i task isLocal kind deadline outcome r hr hnew =>
    have hperm : ((s.enroll i r).endPoll r.task).worker.waiting.Perm (i :: s.worker.waiting) := by
      rw [endPoll_worker]
      exact s.worker.waiting_register i r.deadline
    have hnot : i ∉ s.worker.waiting := by
      intro hi
      have hknown := h.known i hi
      rw [hnew] at hknown
      cases hknown
    refine ⟨hperm.nodup_iff.mpr (List.nodup_cons.mpr ⟨hnot, h.nodup⟩), fun j hj => ?_⟩
    rcases List.mem_cons.mp (hperm.mem_iff.mp hj) with rfl | hj
    · apply isSome_endPoll
      show (Function.update s.requests j _ j).isSome = true
      rw [Function.update_self]
      rfl
    · exact isSome_step (h.known j hj) hstep
  | startDone i task isLocal kind deadline outcome r ret =>
    apply hsame
    rw [endPoll_worker, storeAndSpawn_worker]
  | pending u =>
    apply hsame
    rw [endPoll_worker]
  | poll events hidle hnodup hmem =>
    apply hsame
    exact perm_waiting_of_poll hidle h.nodup hnodup hmem
  | processEnd _ _ hphase | checkEnd hphase =>
    apply hsame
    unfold Worker.waiting
    rw [hphase]
    exact .refl _
  | processWait outcome i polled len r q hphase hr hq =>
    -- The request is taken, and waits again.
    obtain ⟨hi, hnodup, hmem⟩ := Worker.taken h.nodup hphase
    have hperm := (s.popped q (.processing polled len)).worker.waiting_register i r.deadline
    refine h.mono hstep (hperm.nodup_iff.mpr (List.nodup_cons.mpr ⟨?_, hnodup⟩)) fun j hj => ?_
    · exact fun hmem' => ((hmem i).mp hmem').1 rfl
    · rcases List.mem_cons.mp (hperm.mem_iff.mp hj) with rfl | hj
      · exact hi
      · exact ((hmem j).mp hj).2
  | processSpawn outcome i polled len r q ret hphase =>
    apply htaken hphase
    rw [storeAndSpawn_worker]
    rfl
  | processSchedule _ _ _ _ _ _ _ hphase | processError _ _ _ _ _ _ hphase
  | processOccupied _ _ _ _ _ _ hphase => exact htaken hphase rfl
  | checkExpired d i rest r hphase hpop hle hmem hr =>
    have hpolled : s.worker.phase.polled = [] := by
      rw [hphase]
      rfl
    obtain ⟨hnodup, hmem⟩ := Worker.waiting_deregister h.nodup hpolled i rest
    exact h.mono hstep hnodup fun j hj => ((hmem j).mp hj).2

omit [DecidableEq ι] [DecidableEq τ] in
theorem distinct_init (now : ℕ) : (init now : System τ ι).Distinct :=
  ⟨List.nodup_nil, fun _ hi => by cases hi⟩

/-! ### The number -/

/-- `number_of_active_tasks` counts the requests in the poller outside of `must_poll`, and it is at
least as large as what is subtracted from it at the end of `poll_and_process` and for a request
that has expired. -/
structure Balanced (w : Worker ι) : Prop where
  registered : w.phase = .idle → w.numberOfActiveTasks.toNat = w.poller.length
  polled : ∀ len, w.phase = .processing [] len → len ≤ w.numberOfActiveTasks.toNat
  expired : ∀ i, w.phase = .checking → i ∈ w.poller → 1 ≤ w.numberOfActiveTasks.toNat

/-- **The number of active tasks is balanced** in every run in which no socket of a polled request
has an error, as long as there are fewer than `2^64` requests. -/
theorem number_balanced {now : ℕ}
    (h : Reach step (fun s a => s.reportsError a = false) (init now) s)
    (hsize : s.worker.poller.length + s.worker.phase.len < UInt64.size) : Balanced s.worker := by
  have hinv : s.Distinct ∧ s.worker.Counted := by
    apply h.invariant ⟨distinct_init now, rfl⟩
    rintro s a t - ⟨hdistinct, hcount⟩ herror hstep
    exact ⟨hdistinct.step hstep, counted_step hcount hdistinct.nodup herror hstep⟩
  have hnumber :
      s.worker.numberOfActiveTasks.toNat = s.worker.poller.length + s.worker.phase.len := by
    rw [hinv.2]
    exact UInt64.toNat_ofNat_of_lt hsize
  constructor
  · intro hidle
    rw [hnumber, hidle]
    rfl
  · intro len hphase
    rw [hnumber, hphase]
    exact Nat.le_add_left len _
  · intro i _ hi
    have hpos := List.length_pos_of_mem hi
    omega

/-- A request is tried again and waits again, and another one expires. -/
theorem number_balanced_retry :
    ∃ s : System ℕ ℕ, Reach step (fun s a => s.reportsError a = false) (init 0) s ∧
      s.worker.poller = [0] ∧ s.worker.numberOfActiveTasks = 1 ∧ Balanced s.worker := by
  have hreach : Reach step (fun s a => s.reportsError a = false) (init 0 : System ℕ ℕ) _ :=
    reach_of_execWhere [.start 0 7 true (.call .recv 3) none .wouldBlock,
      .start 1 8 false (.call .accept 4) (some 4) .wouldBlock, .poll [(0, true)],
      .process .wouldBlock, .tick 4, .process .wouldBlock, .check, .check] rfl
  exact ⟨_, hreach, rfl, rfl, number_balanced hreach (by decide)⟩

/-- **The number underflows.** The socket of the only request has an error.  The request is
subtracted, and at the end of `poll_and_process` 1 is subtracted from 0. -/
theorem number_underflows :
    ∃ s t : System ℕ ℕ, Reachable step (init 0) s ∧ s.worker.phase = .processing [] 1 ∧
      s.worker.numberOfActiveTasks = 0 ∧ Reachable step (init 0) t ∧ t.worker.phase = .idle ∧
      t.worker.poller = [] ∧ t.worker.numberOfActiveTasks = 18446744073709551615 := by
  have hs : Reachable step (init 0 : System ℕ ℕ) _ :=
    reachable_of_exec [.start 0 7 true (.call .recv 3) none .wouldBlock, .poll [(0, false)],
      .process .wouldBlock] rfl
  have ht : Reachable step (init 0 : System ℕ ℕ) _ :=
    reachable_of_exec [.start 0 7 true (.call .recv 3) none .wouldBlock, .poll [(0, false)],
      .process .wouldBlock, .process .wouldBlock, .check] rfl
  exact ⟨_, _, hs, rfl, rfl, ht, rfl, rfl, rfl⟩

end Orengine.Io.Fallback.System
