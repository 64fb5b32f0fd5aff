import Orengine.Io.Sys.Linux.Safety.Deadlines

/-!
# The order of a request and its cancel

The kernel gets the entries of a worker in the order of `line`: those that it has got, then the
ring, then the backlog.  A new entry goes to its end, unless the ring has a free slot while others
wait in the backlog.  After an `EBUSY` that ends the loop over the backlog the next submission may
free slots of the ring, and so `check_deadlines` can push the cancel of a request whose own entry
waits in the backlog (`cancel_overtakes_request`).  `cancel_follows_request`: this is the only way.
-/

namespace Orengine.Io.IoUring

open Orengine.Lib

/-! ### Cancels that follow their requests -/

/-- Every cancel in the list has its request before it. -/
def CancelsFollow {ι : Type*} (l : List (Entry ι)) : Prop :=
  ∀ (l₁ : List (Entry ι)) (x : Entry ι) (l₂ : List (Entry ι)) (i : ι),
    l = l₁ ++ x :: l₂ → x.op = .asyncCancel i → ∃ y ∈ l₁, y.op = .request i

namespace CancelsFollow

variable {ι : Type*} {l l' : List (Entry ι)} {x : Entry ι}

theorem nil : CancelsFollow ([] : List (Entry ι)) := by
  intro l₁ x l₂ i heq
  cases l₁ <;> cases heq

theorem of_append (h : CancelsFollow (l ++ l')) : CancelsFollow l := by
  intro l₁ x l₂ i heq hop
  refine h l₁ x (l₂ ++ l') i ?_ hop
  rw [heq, List.append_assoc, List.cons_append]

/-- A new entry that is a request, or a cancel whose request is before it. -/
theorem insert (h : CancelsFollow (l ++ l'))
    (hx : ∀ i, x.op = .asyncCancel i → ∃ y ∈ l, y.op = .request i) :
    CancelsFollow (l ++ x :: l') := by
  intro l₁ z l₂ i heq hop
  rcases List.append_eq_append_iff.mp heq with ⟨a, rfl, ha⟩ | ⟨c, rfl, hc⟩
  · cases a with
    | nil =>
      obtain ⟨rfl, -⟩ := List.cons.inj ha
      obtain ⟨y, hy, hreq⟩ := hx i hop
      exact ⟨y, List.mem_append_left _ hy, hreq⟩
    | cons b a =>
      obtain ⟨rfl, rfl⟩ := List.cons.inj ha
      obtain ⟨y, hy, hreq⟩ := h (l ++ a) z l₂ i (List.append_assoc ..).symm hop
      refine ⟨y, ?_, hreq⟩
      rcases List.mem_append.mp hy with hy | hy
      · exact List.mem_append_left _ hy
      · exact List.mem_append_right _ (List.mem_cons_of_mem _ hy)
  · cases c with
    | nil =>
      obtain ⟨rfl, -⟩ := List.cons.inj hc
      obtain ⟨y, hy, hreq⟩ := hx i hop
      exact ⟨y, by simpa using hy, hreq⟩
    | cons b c =>
      obtain ⟨rfl, rfl⟩ := List.cons.inj hc
      exact h l₁ z (c ++ l') i (by simp) hop

end CancelsFollow

namespace Worker

variable {ι : Type*} {w w' : Worker ι}

/-! ### The line -/

/-- The entries in the order in which the kernel gets them. -/
def line (w : Worker ι) : List (Entry ι) := w.submitted ++ (w.ring ++ w.backlog)

/-- The entries that a new one comes behind. -/
def ahead (w : Worker ι) : List (Entry ι) :=
  if w.ring.length < w.ringSize then w.submitted ++ w.ring else w.line

theorem line_addSqe (w : Worker ι) (op : Op ι) :
    ∃ behind, w.line = w.ahead ++ behind ∧
      (w.addSqe op).line = w.ahead ++ ⟨w.added, op⟩ :: behind := by
  unfold addSqe push ahead
  split_ifs with hroom
  · exact ⟨w.backlog, by simp [line], by simp [line]⟩
  · exact ⟨[], by simp, by simp [line]⟩

theorem mem_line_addSqe (op : Op ι) {y : Entry ι} (h : y ∈ w.line) : y ∈ (w.addSqe op).line := by
  obtain ⟨behind, hline, hnew⟩ := w.line_addSqe op
  rw [hline] at h
  rw [hnew]
  rcases List.mem_append.mp h with h | h
  · exact List.mem_append_left _ h
  · exact List.mem_append_right _ (List.mem_cons_of_mem _ h)

theorem line_take (w : Worker ι) (n : ℕ) : (w.take n).line = w.line := by
  simp only [line, take, List.append_assoc]
  rw [← List.append_assoc (w.ring.take n), List.take_append_drop]

theorem line_of_shifts (h : Relation.ReflTransGen Shift w w') : w'.line = w.line := by
  induction h with
  | refl => rfl
  | tail _ hshift ih =>
    rw [← ih]
    cases hshift with
    | take n => exact line_take _ n
    | push hbacklog => simp [line, hbacklog]

/-! ### Requests and cancels in the line -/

/-- The cancels of the worker follow their requests, and each request with a deadline in the queue
is in the line. -/
structure Lined (w : Worker ι) : Prop where
  order : CancelsFollow w.line
  known : ∀ d i, (d, i) ∈ w.timeBoundedIoTaskQueue → ∃ y ∈ w.line, y.op = .request i

theorem lined_new (n : ℕ) : (new n : Worker ι).Lined where
  order := CancelsFollow.nil
  known _ _ h := absurd h (SortedMap.not_mem_empty _)

/-- Nothing changes but the place of the entries, and the queue loses some. -/
theorem Lined.mono (h : w.Lined) (hline : w'.line = w.line)
    (hqueue : ∀ d i, (d, i) ∈ w'.timeBoundedIoTaskQueue → (d, i) ∈ w.timeBoundedIoTaskQueue) :
    w'.Lined where
  order := hline ▸ h.order
  known d i hmem := by
    rw [hline]
    exact h.known d i (hqueue d i hmem)

theorem order_addSqe {op : Op ι} (h : CancelsFollow w.line)
    (hop : ∀ i, op = .asyncCancel i → ∃ y ∈ w.ahead, y.op = .request i) :
    CancelsFollow (w.addSqe op).line := by
  obtain ⟨behind, hline, hnew⟩ := w.line_addSqe op
  rw [hnew]
  rw [hline] at h
  exact h.insert hop

/-- The cancels that `check_deadlines` adds.  As many as the ring has free slots are pushed there,
and for these the request must be ahead already. -/
theorem order_cancelEntries {l : List (ℕ × ι)} (h : CancelsFollow w.line)
    (hknown : ∀ x ∈ l, ∃ y ∈ w.line, y.op = .request x.2)
    (hahead : ∀ x ∈ l.take (w.ringSize - w.ring.length),
      ∃ y ∈ w.submitted ++ w.ring, y.op = .request x.2) :
    CancelsFollow (l.foldl (fun w expired => w.cancelEntry expired.2) w).line := by
  induction l generalizing w with
  | nil => exact h
  | cons x l ih =>
    have hrest : ∀ z ∈ l, ∃ y ∈ (w.cancelEntry x.2).line, y.op = .request z.2 := by
      intro z hz
      obtain ⟨y, hy, hop⟩ := hknown z (List.mem_cons_of_mem _ hz)
      exact ⟨y, mem_line_addSqe _ hy, hop⟩
    by_cases hroom : w.ring.length < w.ringSize
    · -- The cancel takes one of the free slots.
      have hpush : w.cancelEntry x.2 = { w with
          ring := w.ring ++ [⟨w.added, .asyncCancel x.2⟩]
          numberOfActiveTasks := w.numberOfActiveTasks + 1
          added := w.added + 1 } := by
        simp only [cancelEntry, addSqe, push, if_pos hroom]
      have hfree : w.ringSize - w.ring.length = w.ringSize - (w.ring.length + 1) + 1 := by omega
      rw [hfree, List.take_succ_cons] at hahead
      refine ih (w := w.cancelEntry x.2) (order_addSqe h ?_) hrest ?_
      · rintro i ⟨⟩
        rw [ahead, if_pos hroom]
        exact hahead x List.mem_cons_self
      · intro z hz
        rw [hpush, List.length_append, List.length_singleton] at hz
        obtain ⟨y, hy, hop⟩ := hahead z (List.mem_cons_of_mem _ hz)
        rw [hpush]
        exact ⟨y, by rw [← List.append_assoc]; exact List.mem_append_left _ hy, hop⟩
    · -- The cancel goes to the end of the backlog.
      have hpush : w.cancelEntry x.2 = { w with
          backlog := w.backlog ++ [⟨w.added, .asyncCancel x.2⟩]
          numberOfActiveTasks := w.numberOfActiveTasks + 1
          added := w.added + 1 } := by
        simp only [cancelEntry, addSqe, push, if_neg hroom]
      refine ih (w := w.cancelEntry x.2) (order_addSqe h ?_) hrest ?_
      · rintro i ⟨⟩
        rw [ahead, if_neg hroom]
        exact hknown x List.mem_cons_self
      · intro z hz
        have hfull : w.ringSize - w.ring.length = 0 := by omega
        rw [hpush, hfull] at hz
        cases hz

/-- No expired request whose cancel finds a free slot of the ring has its entry in the backlog. -/
def NotOvertaking (w : Worker ι) (startRoundTime : ℕ) : Prop :=
  ∀ x ∈ (w.expired startRoundTime).1.take (w.ringSize - w.ring.length),
    ∀ y ∈ w.backlog, y.op ≠ .request x.2

instance [DecidableEq ι] (w : Worker ι) (startRoundTime : ℕ) :
    Decidable (w.NotOvertaking startRoundTime) :=
  inferInstanceAs (Decidable (∀ x ∈ (w.expired startRoundTime).1.take (w.ringSize - w.ring.length),
    ∀ y ∈ w.backlog, y.op ≠ .request x.2))

theorem Lined.checkDeadlines (h : w.Lined) {startRoundTime : ℕ}
    (hovertaking : w.NotOvertaking startRoundTime) : (w.checkDeadlines startRoundTime).Lined := by
  have hknown : ∀ x ∈ (w.expired startRoundTime).1, ∃ y ∈ w.line, y.op = .request x.2 := by
    rintro ⟨d, i⟩ hx
    exact h.known d i (mem_expired.1.mp hx).1
  constructor
  · refine order_cancelEntries h.order hknown ?_
    intro x hx
    obtain ⟨y, hy, hop⟩ := hknown x (List.mem_of_mem_take hx)
    refine ⟨y, ?_, hop⟩
    rw [line, ← List.append_assoc] at hy
    rcases List.mem_append.mp hy with hy | hy
    · exact hy
    · exact absurd hop (hovertaking x hx y hy)
  · intro d i hmem
    rw [(w.checkDeadlines_spec startRoundTime).1] at hmem
    obtain ⟨y, hy, hop⟩ := h.known d i (mem_expired.2.mp hmem).1
    refine ⟨y, ?_, hop⟩
    -- Adding the cancels takes nothing out of the line.
    have hfold : ∀ (l : List (ℕ × ι)) (v : Worker ι), y ∈ v.line →
        y ∈ (l.foldl (fun w expired => w.cancelEntry expired.2) v).line := by
      intro l
      induction l with
      | nil => exact fun v hv => hv
      | cons x l ih => exact fun v hv => ih _ (mem_line_addSqe _ hv)
    exact hfold _ _ hy

end Worker

/-! ### Runs -/

namespace Executor

variable {ι : Type*} {x : Executor ι}

theorem lined_request (h : x.worker.Lined) (i : ι) (d : Option ℕ) :
    (x.request i d).2.worker.Lined := by
  -- The new entry is in the line, and a request is behind nothing that it has to follow.
  have hnew (w : Worker ι) : ∃ y ∈ (w.addSqe (.request i)).line, y.op = .request i := by
    obtain ⟨behind, -, hline⟩ := w.line_addSqe (.request i)
    rw [hline]
    exact ⟨_, List.mem_append_right _ List.mem_cons_self, rfl⟩
  constructor
  · cases d with
    | none => exact Worker.order_addSqe h.order (fun i hi => by cases hi)
    | some d =>
      exact Worker.order_addSqe (w := x.worker.setQueue _) h.order (fun i hi => by cases hi)
  · intro e j hmem
    rcases (x.mem_queue_request i d e j).mp hmem with ⟨-, rfl⟩ | hold
    · cases d with
      | none => exact hnew x.worker
      | some d => exact hnew (x.worker.setQueue _)
    · obtain ⟨y, hy, hop⟩ := h.known e j hold
      refine ⟨y, ?_, hop⟩
      cases d with
      | none => exact Worker.mem_line_addSqe _ hy
      | some d => exact Worker.mem_line_addSqe (w := x.worker.setQueue _) _ hy

end Executor

namespace System

variable {ε ι : Type*} [DecidableEq ε] [DecidableEq ι] {s t : System ε ι} {a : Action ε ι}

/-- The step adds no cancel that overtakes its request. -/
def NotOvertaking (s : System ε ι) : Action ε ι → Prop
  | .mustPoll e _ _ => (s.executors e).worker.NotOvertaking (s.executors e).startRoundTime
  | _ => True

instance (s : System ε ι) : ∀ a, Decidable (s.NotOvertaking a)
  | .mustPoll e _ _ => inferInstanceAs
      (Decidable ((s.executors e).worker.NotOvertaking (s.executors e).startRoundTime))
  | .tick _ | .newRound _ | .request _ _ _ _ | .complete _ _ _ | .sync _ | .reap _ _
  | .resume _ _ => isTrue trivial

/-- The cancels of every worker follow their requests. -/
def AllLined (s : System ε ι) : Prop := ∀ e, (s.executors e).worker.Lined

omit [DecidableEq ι] in
theorem AllLined.set (h : s.AllLined) (e : ε) {x : Executor ι} (hx : x.worker.Lined) :
    (s.set e x).AllLined :=
  (forall_set (p := fun _ y => y.worker.Lined)).mpr ⟨hx, fun e' _ => h e'⟩

theorem AllLined.finish (h : s.AllLined) (e : ε) (i : ι) (r : Request ε)
    (ret : Except ErrorKind ℕ) : (s.finish e i r ret).AllLined := by
  refine h.set e ((h e).mono rfl fun d j hmem => ?_)
  exact (TimeBoundedIoTaskQueue.mem_deregisterAfter.mp hmem).1

theorem AllLined.step (h : s.AllLined) (hall : s.AllAccounted 2) (hovertaking : s.NotOvertaking a)
    (hstep : s.step a = some t) : t.AllLined := by
  cases effect_of_step hstep with
  | tick nanos => exact h
  | newRound e | reapEnd e | reapCancel e => exact h.set e (h e)
  | request e i isLocal d hnew => exact h.set e (Executor.lined_request (h e) i d)
  | mustPoll e results last w hidle hw =>
    have hchecked := (h e).checkDeadlines hovertaking
    have haccounted := (hall e).checkDeadlines (s.executors e).startRoundTime
    have hqueue := (haccounted.moves_submitAndPoll hw).queue
    have hline := Worker.line_of_shifts (haccounted.shifts_submitAndPoll hw)
    exact h.set e (hchecked.mono hline fun d i hmem => hqueue ▸ hmem)
  | complete e n result w hw =>
    refine h.set e ((h e).mono ?_ fun d i hmem => (Worker.active_complete hw).2 ▸ hmem)
    show w.line = _
    rw [(Worker.complete_spec hw).2]
    rfl
  | sync e hsubmitted => exact h.set e ((h e).mono rfl fun _ _ => id)
  | reapRequest e now n i result rest r hphase hr =>
    have hset : (s.set e ((s.executors e).setPhase (.reaping rest))).AllLined := h.set e (h e)
    unfold handle
    split
    · exact hset.finish e i r _
    · exact hset
  | resume e i r ret hr hret hfinished hhome => exact h.finish e i r ret

/-- **A cancel comes after its request.** With two slots or more, in every run in which no
`must_poll` finds an expired request in the backlog while the ring has a free slot for its cancel,
the kernel gets the cancel of a request only after the request. -/
theorem cancel_follows_request {numberOfEntries now : ℕ} (hsize : 2 ≤ numberOfEntries)
    (h : Reach step NotOvertaking (init numberOfEntries now) s) (e : ε) :
    CancelsFollow (s.executors e).worker.submitted := by
  have hinv : s.AllAccounted 2 ∧ s.AllLined := by
    refine h.invariant (I := fun s => s.AllAccounted 2 ∧ s.AllLined)
      ⟨fun _ => Worker.accounted_new hsize, fun _ => Worker.lined_new _⟩ ?_
    rintro s a t - ⟨hall, hlined⟩ hovertaking hstep
    exact ⟨hall.step (.inl le_rfl) hstep, hlined.step hall hovertaking hstep⟩
  exact (hinv.2 e).order.of_append

/-- A ring with two slots: the request in the backlog is submitted before it expires. -/
theorem cancel_follows_request_backlog :
    ∃ s : System Unit (Fin 3), Reach step NotOvertaking (init 2 0) s ∧
      (s.executors ()).worker.submitted =
        [⟨0, .request 0⟩, ⟨1, .request 1⟩, ⟨2, .request 2⟩, ⟨3, .asyncCancel 2⟩] ∧
      CancelsFollow (s.executors ()).worker.submitted := by
  have hreach : Reach step NotOvertaking (init 2 0 : System Unit (Fin 3)) _ :=
    reach_of_execWhere [.request () 0 true none, .request () 1 true none,
      .request () 2 true (some 5), .mustPoll () [.ok 2] (.ok 1), .sync (), .reap () true, .tick 10,
      .newRound (), .mustPoll () [] (.ok 1)] rfl
  exact ⟨_, hreach, rfl, cancel_follows_request (by decide) hreach ()⟩

/-- **A cancel overtakes its request.** The ring has two slots, which two requests have taken, so
that a third one with a deadline goes to the backlog.  The submission of the full ring fails with
`EBUSY`, which ends the loop over the backlog, and the submission after the loop succeeds.  When the
third request expires, its cancel finds a slot free, and the kernel gets it first. -/
theorem cancel_overtakes_request :
    ∃ s : System Unit (Fin 3), Reachable step (init 2 0) s ∧
      (s.executors ()).worker.submitted =
        [⟨0, .request 0⟩, ⟨1, .request 1⟩, ⟨3, .asyncCancel 2⟩, ⟨2, .request 2⟩] ∧
      ¬CancelsFollow (s.executors ()).worker.submitted := by
  have hreach : Reachable step (init 2 0 : System Unit (Fin 3)) _ :=
    reachable_of_exec [.request () 0 true none, .request () 1 true none,
      .request () 2 true (some 5), .mustPoll () [.ebusy] (.ok 2), .sync (), .reap () true,
      .tick 10, .newRound (), .mustPoll () [.ok 1] (.ok 1)] rfl
  refine ⟨_, hreach, rfl, fun h => ?_⟩
  obtain ⟨y, hy, hop⟩ := h [⟨0, .request 0⟩, ⟨1, .request 1⟩] ⟨3, .asyncCancel 2⟩
    [⟨2, .request 2⟩] 2 rfl rfl
  rcases List.mem_pair.mp hy with rfl | rfl <;> cases hop

end System

end Orengine.Io.IoUring
