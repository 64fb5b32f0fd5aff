import Orengine.Io.Sys.Fallback.Safety.Scheduling

/-!
# Deadlines in the fallback worker

Requests with equal deadlines may wait together: each gets a nanosecond of its own.  But a request
that does not wait has no entry, and its future still removes *the entry with its deadline* when it
is resumed (`removes_other_entry`).  `deadlinesKept_of_not_removesOther` is about the runs in which
no request with the same deadline waits then, and no task is pushed for the request of another one:
its own request might wait, and would lose its entry.

`served_of_not_invokesCall` puts this together with the scheduling of the tasks: besides, no socket
has an error, and no two requests wait for one socket.
-/

namespace Orengine.Io.Fallback

open Orengine.Lib

/-- The result of a request and its deadline. -/
def Request.view {τ : Type*} (r : Request τ) : Option (Except ErrorKind ℕ) × Option ℕ :=
  (r.ret, r.deadline)

/-- The requests that wait and the entries of the queue belong to each other. -/
structure Kept {ι : Type*} (w : Worker ι)
    (v : ι → Option (Option (Except ErrorKind ℕ) × Option ℕ)) : Prop where
  nodup : w.waiting.Nodup
  /-- A request that waits has no result, and an entry if it has a deadline. -/
  entry (i : ι) : i ∈ w.waiting →
    ∃ o, v i = some (none, o) ∧ ∀ d, o = some d → (d, i) ∈ w.timeBoundedIoTaskQueue
  /-- An entry is that of a request that waits, with its deadline. -/
  owner (d : ℕ) (i : ι) : (d, i) ∈ w.timeBoundedIoTaskQueue →
    i ∈ w.waiting ∧ v i = some (none, some d)

namespace Kept

variable {ι : Type*} {w w' : Worker ι} {v : ι → Option (Option (Except ErrorKind ℕ) × Option ℕ)}
  {i : ι}

theorem keep (h : Kept w v) (hperm : w'.waiting.Perm w.waiting)
    (hq : ∀ d j, (d, j) ∈ w'.timeBoundedIoTaskQueue ↔ (d, j) ∈ w.timeBoundedIoTaskQueue) :
    Kept w' v where
  nodup := hperm.nodup_iff.mpr h.nodup
  entry i hi := by
    obtain ⟨o, ho, hentry⟩ := h.entry i (hperm.mem_iff.mp hi)
    exact ⟨o, ho, fun d hd => (hq d i).mpr (hentry d hd)⟩
  owner d i hd := by
    obtain ⟨hwait, hview⟩ := h.owner d i ((hq d i).mp hd)
    exact ⟨hperm.mem_iff.mpr hwait, hview⟩

theorem decrement (h : Kept w v) : Kept w.decrement v := ⟨h.nodup, h.entry, h.owner⟩

variable {x : Option (Except ErrorKind ℕ)} {o : Option ℕ}

theorem ret_eq_none (h : Kept w v) (hi : i ∈ w.waiting) (hview : v i = some (x, o)) : x = none := by
  obtain ⟨o', ho', -⟩ := h.entry i hi
  exact (Prod.mk.inj (Option.some.inj (hview.symm.trans ho'))).1

theorem deadline_eq (h : Kept w v) {d : ℕ} (hi : v i = some (x, o))
    (hd : (d, i) ∈ w.timeBoundedIoTaskQueue) : o = some d := by
  have hview := hi.symm.trans (h.owner d i hd).2
  exact (Prod.mk.inj (Option.some.inj hview)).2

theorem not_mem_waiting (h : Kept w v) (hi : v i = none) : i ∉ w.waiting := by
  intro hwait
  obtain ⟨o, ho, -⟩ := h.entry i hwait
  rw [hi] at ho
  cases ho

/-- The entry of a request that waits can be removed, and it is the only one that goes. -/
theorem removal_spec (h : Kept w v) (hi : i ∈ w.waiting) (hview : v i = some (x, o)) :
    ∃ q, System.removal w.timeBoundedIoTaskQueue o = some q ∧
      ∀ d j, (d, j) ∈ q ↔ j ≠ i ∧ (d, j) ∈ w.timeBoundedIoTaskQueue := by
  obtain ⟨o', ho', hentry⟩ := h.entry i hi
  obtain rfl : o = o' := (Prod.mk.inj (Option.some.inj (hview.symm.trans ho'))).2
  cases o with
  | none =>
    refine ⟨_, rfl, fun d j => (and_iff_right_of_imp fun hd => ?_).symm⟩
    rintro rfl
    cases h.deadline_eq hview hd
  | some e =>
    have hmem : (e, i) ∈ w.timeBoundedIoTaskQueue := hentry e rfl
    refine ⟨_, if_pos (SortedMap.contains_iff.mpr ⟨i, hmem⟩), fun d j => ?_⟩
    rw [SortedMap.mem_erase, and_comm]
    -- Among the entries, that of the request is the one with the deadline.
    refine and_congr_left fun hd => not_congr ⟨fun hde => ?_, fun hji => ?_⟩
    · obtain rfl : d = e := hde
      exact SortedMap.value_unique hd hmem
    · subst hji
      exact (Option.some.inj (h.deadline_eq hview hd)).symm

theorem remove (h : Kept w v)
    (hnodup : w'.waiting.Nodup) (hwait : ∀ j, j ∈ w'.waiting ↔ j ≠ i ∧ j ∈ w.waiting)
    (hq : ∀ d j, (d, j) ∈ w'.timeBoundedIoTaskQueue ↔ j ≠ i ∧ (d, j) ∈ w.timeBoundedIoTaskQueue) :
    Kept w' v where
  nodup := hnodup
  entry j hj := by
    obtain ⟨hji, hmem⟩ := (hwait j).mp hj
    obtain ⟨o, ho, hentry⟩ := h.entry j hmem
    exact ⟨o, ho, fun d hd => (hq d j).mpr ⟨hji, hentry d hd⟩⟩
  owner d j hd := by
    obtain ⟨hji, hmem⟩ := (hq d j).mp hd
    obtain ⟨hwaiting, hview⟩ := h.owner d j hmem
    exact ⟨(hwait j).mpr ⟨hji, hwaiting⟩, hview⟩

theorem take (h : Kept w v) {isReady : Bool} {polled : List (ι × Bool)} {len : ℕ}
    (hphase : w.phase = .processing ((i, isReady) :: polled) len) (hview : v i = some (x, o))
    {q : TimeBoundedIoTaskQueue ι} (hq : System.removal w.timeBoundedIoTaskQueue o = some q) :
    Kept ((w.setQueue q).setPhase (.processing polled len)) v ∧
      i ∉ ((w.setQueue q).setPhase (.processing polled len)).waiting := by
  obtain ⟨hi, hnodup, hwait⟩ := Worker.taken h.nodup hphase
  obtain ⟨q', hq', hmem⟩ := h.removal_spec hi hview
  obtain rfl : q = q' := Option.some.inj (hq.symm.trans hq')
  exact ⟨h.remove hnodup hwait hmem, fun hnot => ((hwait i).mp hnot).1 rfl⟩

variable [DecidableEq ι]

theorem expire (h : Kept w v) (hpolled : w.phase.polled = []) {d : ℕ}
    {rest : TimeBoundedIoTaskQueue ι}
    (hpop : w.timeBoundedIoTaskQueue.popFirst = some ((d, i), rest)) :
    Kept (w.deregister i rest).decrement v ∧ i ∉ (w.deregister i rest).decrement.waiting := by
  obtain ⟨hnodup, hwait⟩ := Worker.waiting_deregister h.nodup hpolled i rest
  have hfirst : (d, i) ∈ w.timeBoundedIoTaskQueue := (SortedMap.mem_popFirst hpop).mpr (.inl rfl)
  have hview : v i = some (none, some d) := (h.owner d i hfirst).2
  refine ⟨h.remove hnodup hwait fun e j => ?_, fun hnot => ((hwait i).mp hnot).1 rfl⟩
  show (e, j) ∈ rest ↔ _
  rw [SortedMap.mem_popFirst hpop]
  constructor
  · intro he
    refine ⟨?_, .inr he⟩
    rintro rfl
    -- It would be the entry that was taken out.
    have hsame := h.deadline_eq hview ((SortedMap.mem_popFirst hpop).mpr (.inr he))
    obtain rfl : d = e := Option.some.inj hsame
    exact SortedMap.not_mem_of_popFirst hpop he
  · rintro ⟨hji, he⟩
    exact he.resolve_left fun heq => hji (Prod.mk.inj heq).2

theorem set (h : Kept w v) (hi : i ∉ w.waiting)
    (x : Option (Option (Except ErrorKind ℕ) × Option ℕ)) : Kept w (Function.update v i x) where
  nodup := h.nodup
  entry j hj := by
    have hji : j ≠ i := fun hji => hi (hji ▸ hj)
    rw [Function.update_of_ne hji]
    exact h.entry j hj
  owner d j hd := by
    have hji : j ≠ i := fun hji => hi (hji ▸ (h.owner d j hd).1)
    rw [Function.update_of_ne hji]
    exact h.owner d j hd

theorem register (h : Kept w v) (hi : i ∉ w.waiting) (o : Option ℕ) :
    Kept (w.register i o).2 (Function.update v i (some (none, (w.register i o).1))) := by
  have hperm := w.waiting_register i o
  -- The queue gets the entry of the request, if it has a deadline, and keeps the others.
  have hq : ∀ d j, (d, j) ∈ (w.register i o).2.timeBoundedIoTaskQueue ↔
      (j = i ∧ (w.register i o).1 = some d) ∨ (d, j) ∈ w.timeBoundedIoTaskQueue := by
    intro d j
    cases o with
    | none => simp [Worker.register]
    | some deadline =>
      simp only [Worker.register, TimeBoundedIoTaskQueue.mem_register, Prod.mk.injEq]
      rw [and_comm, Option.some.injEq, eq_comm (a := d)]
      rfl
  constructor
  case nodup => exact hperm.nodup_iff.mpr (List.nodup_cons.mpr ⟨hi, h.nodup⟩)
  case entry =>
    intro j hj
    rcases List.mem_cons.mp (hperm.mem_iff.mp hj) with rfl | hmem
    · exact ⟨_, Function.update_self .., fun d hd => (hq d j).mpr (.inl ⟨rfl, hd⟩)⟩
    · obtain ⟨o', ho', hentry⟩ := (h.set hi _).entry j hmem
      exact ⟨o', ho', fun d hd => (hq d j).mpr (.inr (hentry d hd))⟩
  case owner =>
    intro d j hd
    rcases (hq d j).mp hd with ⟨rfl, hdeadline⟩ | hmem
    · exact ⟨hperm.mem_iff.mpr List.mem_cons_self, by rw [Function.update_self, hdeadline]⟩
    · obtain ⟨hwait, hview⟩ := (h.set hi _).owner d j hmem
      exact ⟨hperm.mem_iff.mpr (List.mem_cons_of_mem i hwait), hview⟩

end Kept

namespace System

variable {τ ι : Type*} {s t : System τ ι} {a : Action τ ι}

/-- The results and the deadlines of the requests. -/
def views (s : System τ ι) : ι → Option (Option (Except ErrorKind ℕ) × Option ℕ) :=
  Option.map Request.view ∘ s.requests

/-- Whether a future that is resumed removes the entry of another request: it has not timed out,
and another request waits with its deadline. -/
def removesOther (s : System τ ι) : Action τ ι → Bool
  | .resume i =>
    (s.requests i).any fun r => r.ret.any mustDeregister && r.deadline.any fun d =>
      s.worker.waiting.any fun j => (s.requests j).any fun r => r.deadline == some d
  | _ => false

theorem views_of_requests {i : ι} {r : Request τ} (hr : s.requests i = some r) :
    s.views i = some (r.ret, r.deadline) := by
  rw [views, Function.comp_apply, hr]
  rfl

/-- A future that is resumed with its result finds no entry with its deadline. -/
theorem mem_deregisterAfter_of_not_removesOther {i : ι} {r : Request τ}
    {ret : Except ErrorKind ℕ} (h : Kept s.worker s.views) (hr : s.requests i = some r)
    (hret : r.ret = some ret) (hnot : s.removesOther (.resume i) = false) (d : ℕ) (j : ι) :
    (d, j) ∈ s.worker.timeBoundedIoTaskQueue.deregisterAfter r.result r.deadline ↔
      (d, j) ∈ s.worker.timeBoundedIoTaskQueue := by
  have hresult : r.result = ret := by rw [Request.result, hret, Option.getD_some]
  rw [hresult, TimeBoundedIoTaskQueue.mem_deregisterAfter]
  refine and_iff_left_of_imp ?_
  rintro hd ⟨hdeadline, hmust⟩
  obtain ⟨hwait, hview⟩ := h.owner d j hd
  obtain ⟨r', hr', hview'⟩ := Option.map_eq_some_iff.mp hview
  -- The request of the entry waits with the same deadline, which the step does not allow.
  have hsame : r'.deadline = some d := (Prod.mk.inj hview').2
  have hremoves : s.removesOther (.resume i) = true := by
    simp only [removesOther, hr, hret, hdeadline, hmust, Option.any_some, Bool.true_and,
      List.any_eq_true]
    exact ⟨j, hwait, by rw [hr', Option.any_some, hsame, beq_self_eq_true]⟩
  rw [hnot] at hremoves
  cases hremoves

variable [DecidableEq ι]

theorem views_setRequest (s : System τ ι) (i : ι) (r : Request τ) :
    (s.setRequest i r).views = Function.update s.views i (some (r.ret, r.deadline)) :=
  Function.comp_update ..

theorem views_storeAndSchedule (s : System τ ι) (i : ι) (r : Request τ)
    (ret : Except ErrorKind ℕ) :
    (s.storeAndSchedule i r ret).views = Function.update s.views i (some (some ret, r.deadline)) :=
  Function.comp_update ..

theorem views_storeAndSpawn (s : System τ ι) (i : ι) (r : Request τ) (ret : Except ErrorKind ℕ) :
    (s.storeAndSpawn i r ret).views = Function.update s.views i (some (some ret, r.deadline)) := by
  unfold storeAndSpawn
  split
  · exact Function.comp_update ..
  · exact Function.comp_update ..

theorem views_enroll (s : System τ ι) (i : ι) (r : Request τ) :
    (s.enroll i r).views =
      Function.update s.views i (some (r.ret, (s.worker.register i r.deadline).1)) :=
  Function.comp_update ..

variable [DecidableEq τ]

theorem views_endPoll (s : System τ ι) (u : τ) : (s.endPoll u).views = s.views := by
  unfold endPoll
  split
  case h_1 => rfl
  case h_2 i hcall =>
    funext j
    by_cases hj : j = i
    · subst hj
      simp only [views, Function.comp_apply, Function.update_self, Option.map_map]
      congr 1
      funext r
      simp only [Function.comp_apply]
      split <;> rfl
    · simp only [views, Function.comp_apply, Function.update_of_ne hj]

/-- The deadlines of the requests that wait. -/
structure DeadlinesKept (s : System τ ι) : Prop where
  /-- A request that waits with a deadline has an entry. -/
  entry (i : ι) (r : Request τ) (d : ℕ) : i ∈ s.worker.waiting → s.requests i = some r →
    r.deadline = some d → (d, i) ∈ s.worker.timeBoundedIoTaskQueue
  /-- Each entry is that of one request, which waits with this deadline. -/
  own (d : ℕ) (i : ι) : (d, i) ∈ s.worker.timeBoundedIoTaskQueue →
    i ∈ s.worker.waiting ∧ ∃ r, s.requests i = some r ∧ r.deadline = some d
  /-- Neither an assert of `poll_and_process` nor the `unwrap` of `check_deadlines` has failed. -/
  panicked : s.panicked = none ∨ s.panicked = some .registerFailed

theorem endPoll_panicked (s : System τ ι) (u : τ) : (s.endPoll u).panicked = s.panicked := by
  unfold endPoll
  split <;> rfl

/-- **One step** keeps the entries, and only a registration can fail. -/
theorem kept_step (h : Kept s.worker s.views) (hscheduled : s.Scheduled)
    (hnot : s.removesOther a = false) (hstep : s.step a = some t) :
    Kept t.worker t.views ∧
      (t.panicked = none ∨ s.occupies a = true ∧ t.panicked = some .registerFailed) := by
  have hpanic : s.panicked = none ∨ s.occupies a = true ∧ s.panicked = some .registerFailed :=
    .inl (panicked_of_step hstep)
  cases effect_of_step hstep with
  | tick nanos => exact ⟨h, hpanic⟩
  | startWait i task isLocal kind deadline outcome r hr hnew =>
    have hi : i ∉ s.worker.waiting := h.not_mem_waiting (congrArg (Option.map Request.view) hnew)
    rw [endPoll_worker, views_endPoll, endPoll_panicked, views_enroll, hr]
    exact ⟨h.register hi deadline, hpanic⟩
  | startPanic _ _ _ _ _ _ hoccupies => exact ⟨h, .inr ⟨hoccupies, rfl⟩⟩
  | startDone i task isLocal kind deadline outcome r ret hr hnew =>
    have hi : i ∉ s.worker.waiting := h.not_mem_waiting (congrArg (Option.map Request.view) hnew)
    rw [endPoll_worker, views_endPoll, endPoll_panicked, storeAndSpawn_worker,
      storeAndSpawn_panicked, views_storeAndSpawn]
    exact ⟨h.set hi _, hpanic⟩
  | pending u =>
    rw [endPoll_worker, views_endPoll, endPoll_panicked]
    exact ⟨h, hpanic⟩
  | resume i r hr hready =>
    obtain ⟨ret, hret, hi⟩ := hscheduled.exists_ret hr hready
    have hkeep : Kept (s.worker.setQueue
        (s.worker.timeBoundedIoTaskQueue.deregisterAfter r.result r.deadline)) s.views :=
      h.keep (.refl _) (mem_deregisterAfter_of_not_removesOther h hr hret hnot)
    refine ⟨?_, hpanic⟩
    rw [views_setRequest]
    exact hkeep.set hi _
  | poll events hidle hnodup hmem =>
    refine ⟨h.keep ?_ fun _ _ => Iff.rfl, hpanic⟩
    exact perm_waiting_of_poll hidle h.nodup hnodup hmem
  | processEnd _ _ hphase | checkEnd hphase =>
    refine ⟨h.keep ?_ fun _ _ => Iff.rfl, hpanic⟩
    unfold Worker.waiting
    rw [hphase]
    exact .refl _
  | processPanic outcome i isReady polled len r p hphase hr hfail =>
    obtain ⟨hi, -, -⟩ := Worker.taken h.nodup hphase
    obtain ⟨q, hq, -⟩ := h.removal_spec hi (views_of_requests hr)
    rw [hfail] at hq
    cases hq
  | processWait outcome i polled len r q hphase hr hq =>
    obtain ⟨hkept, hi⟩ := h.take hphase (views_of_requests hr) hq
    have hret : r.ret = none :=
      h.ret_eq_none (Worker.taken h.nodup hphase).1 (views_of_requests hr)
    rw [views_enroll, hret]
    exact ⟨hkept.register hi r.deadline, hpanic⟩
  | processOccupied outcome i polled len r q hphase hr hq hoccupies =>
    exact ⟨(h.take hphase (views_of_requests hr) hq).1, .inr ⟨hoccupies, rfl⟩⟩
  | processSpawn outcome i polled len r q ret hphase hr hq hdone =>
    obtain ⟨hkept, hi⟩ := h.take hphase (views_of_requests hr) hq
    rw [storeAndSpawn_worker, storeAndSpawn_panicked, views_storeAndSpawn]
    exact ⟨hkept.set hi _, hpanic⟩
  | processSchedule outcome i polled len r q ret hphase hr hq =>
    obtain ⟨hkept, hi⟩ := h.take hphase (views_of_requests hr) hq
    rw [views_storeAndSchedule]
    exact ⟨hkept.set hi _, hpanic⟩
  | processError outcome i polled len r q hphase hr hq =>
    obtain ⟨hkept, hi⟩ := h.take hphase (views_of_requests hr) hq
    rw [views_storeAndSchedule]
    exact ⟨hkept.decrement.set hi _, hpanic⟩
  | checkPanic d i rest p hphase hpop hmem =>
    -- The request of an entry waits, and none is being processed now.
    have hfirst : (d, i) ∈ s.worker.timeBoundedIoTaskQueue :=
      (SortedMap.mem_popFirst hpop).mpr (.inl rfl)
    have hwait := (h.owner d i hfirst).1
    rw [Worker.waiting_of_polled (by rw [hphase]; rfl)] at hwait
    exact absurd hwait hmem
  | checkExpired d i rest r hphase hpop hle hmem hr =>
    obtain ⟨hkept, hi⟩ := h.expire (by rw [hphase]; rfl) hpop
    rw [views_storeAndSchedule]
    exact ⟨hkept.set hi _, hpanic⟩

omit [DecidableEq ι] [DecidableEq τ] in
theorem kept_init (now : ℕ) :
    Kept (init now : System τ ι).worker (init now : System τ ι).views :=
  ⟨List.nodup_nil, fun _ hi => absurd hi List.not_mem_nil,
    fun d i hd => absurd hd (SortedMap.not_mem_empty (d, i))⟩

/-- **Deadlines in the fallback worker**: each request that waits with a deadline has an entry of
its own, and no assert fails, as long as no future removes the entry of another request, and no
request of a shared task is finished as if the task were running. -/
theorem deadlinesKept_of_not_removesOther {now : ℕ}
    (h : Reach step (fun s a => s.removesOther a = false ∧ s.invokesCall a = false) (init now) s) :
    s.DeadlinesKept := by
  have hinv : Kept s.worker s.views ∧ (s.panicked = none ∨ s.panicked = some .registerFailed) ∧
      (s.panicked = none → s.Scheduled) := by
    apply h.invariant ⟨kept_init now, .inl rfl, fun _ => scheduled_init now⟩
    rintro s a t - ⟨hkept, -, hscheduled⟩ ⟨hnot, hinvoke⟩ hstep
    have hs := hscheduled (panicked_of_step hstep)
    obtain ⟨hkept', hpanic⟩ := kept_step hkept hs hnot hstep
    exact ⟨hkept', hpanic.imp_right And.right, hs.step hinvoke hstep⟩
  obtain ⟨hkept, hpanic, -⟩ := hinv
  constructor
  case entry =>
    intro i r d hi hr hd
    obtain ⟨o, ho, hentry⟩ := hkept.entry i hi
    rw [views_of_requests hr] at ho
    exact hentry d ((Prod.mk.inj (Option.some.inj ho)).2.symm.trans hd)
  case own =>
    intro d i hd
    obtain ⟨hwait, hview⟩ := hkept.owner d i hd
    obtain ⟨r, hr, hr'⟩ := Option.map_eq_some_iff.mp hview
    exact ⟨hwait, r, hr, (Prod.mk.inj hr').2⟩
  case panicked => exact hpanic

/-- Two requests with the same deadline wait together; one is polled, done and resumed, and so is
one with another deadline that was done at once. -/
theorem deadlinesKept_equal_deadlines :
    ∃ s : System ℕ ℕ, s.worker.timeBoundedIoTaskQueue.entries = [(11, 1)] ∧
      1 ∈ s.worker.waiting ∧ s.DeadlinesKept := by
  have hreach : Reach step (fun s a => s.removesOther a = false ∧ s.invokesCall a = false)
      (init 0 : System ℕ ℕ) _ :=
    reach_of_execWhere [.start 0 7 true (.call .recv 3) (some 10) .wouldBlock,
      .start 1 8 true (.call .recv 4) (some 10) .wouldBlock,
      .start 2 9 false (.call .send 3) (some 12) (.ok 1),
      .poll [(0, true)], .process (.ok 5), .resume 0, .resume 2, .process .wouldBlock, .check] rfl
  exact ⟨_, rfl, List.mem_singleton.mpr rfl, deadlinesKept_of_not_removesOther hreach⟩

/-- **The entry of another request is removed.** A request waits with a deadline, and another one
with the same deadline is done at once.  Its future removes the entry of the first one, and the
assert fails when the first one is polled. -/
theorem removes_other_entry :
    ∃ s t : System ℕ ℕ, Reachable step (init 0) s ∧ 0 ∈ s.worker.waiting ∧
      (s.requests 0).any (fun r => r.deadline == some 10) = true ∧
      s.worker.timeBoundedIoTaskQueue.entries = [] ∧ Reachable step (init 0) t ∧
      t.panicked = some .removeFailed := by
  have hs : Reachable step (init 0 : System ℕ ℕ) _ :=
    reachable_of_exec [.start 0 7 true (.call .recv 3) (some 10) .wouldBlock,
      .start 1 8 true (.call .recv 4) (some 10) (.ok 5), .resume 1] rfl
  have ht : Reachable step (init 0 : System ℕ ℕ) _ :=
    reachable_of_exec [.start 0 7 true (.call .recv 3) (some 10) .wouldBlock,
      .start 1 8 true (.call .recv 4) (some 10) (.ok 5), .resume 1, .poll [(0, true)],
      .process (.ok 3)] rfl
  exact ⟨_, _, hs, List.mem_singleton.mpr rfl, rfl, rfl, ht, rfl⟩

/-! ### The tasks of the requests -/

/-- The worker serves every request: it waits, or its result was stored and then its own task was
scheduled, both once; as long as some wait, the worker has to poll, and it has not panicked. -/
structure Served (s : System τ ι) : Prop where
  status (i : ι) : s.Status i
  number : s.worker.Counted
  panicked : s.panicked = none

end System

end Orengine.Io.Fallback
