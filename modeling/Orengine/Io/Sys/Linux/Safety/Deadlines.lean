import Orengine.Io.Sys.Linux.Safety.Submission

/-!
# The deadlines of the `io_uring` worker

`deadlinesKept_of_prompt` is about the runs of *prompt* steps: a request gets a deadline after the
start of the round; the task of a completed request with a deadline is resumed at once on the
executor that has the completion; and its result is an error of the kind `TimedOut` only if the
worker has taken its entry out.  Otherwise the entry stays when the request is gone:
`entry_outlives_request` is a request that fails with `ETIMEDOUT`, which its future takes for a
deadline that has passed.
-/

namespace Orengine.Io.IoUring

open Orengine.Lib

def Op.request? {ι : Type*} : Op ι → Option ι
  | .request i => some i
  | .asyncCancel _ => none

/-- The requests among some entries. -/
def requestsOf {ι : Type*} (l : List (Entry ι)) : List ι := l.filterMap fun x => x.op.request?

namespace Worker

variable {ι : Type*} {w w' : Worker ι}

theorem requestsOf_addSqe (w : Worker ι) (op : Op ι) :
    (requestsOf (w.addSqe op).active).Perm (op.request?.toList ++ requestsOf w.active) := by
  have hperm := ((w.addSqe_spec op).1).filterMap fun x => x.op.request?
  cases op with
  | request | asyncCancel => exact hperm

/-- What `check_deadlines` does: it takes out the entries that are due and adds a cancel for each
of them. -/
theorem checkDeadlines_spec (w : Worker ι) (startRoundTime : ℕ) :
    (w.checkDeadlines startRoundTime).timeBoundedIoTaskQueue = (w.expired startRoundTime).2 ∧
      (requestsOf (w.checkDeadlines startRoundTime).active).Perm (requestsOf w.active) ∧
      ∀ x ∈ (w.checkDeadlines startRoundTime).active, x ∈ w.active ∨
        ∃ d i, (d, i) ∈ (w.expired startRoundTime).1 ∧ x.op = .asyncCancel i := by
  have hfold : ∀ (l : List (ℕ × ι)) (v : Worker ι),
      (l.foldl (fun w expired => w.cancelEntry expired.2) v).timeBoundedIoTaskQueue =
          v.timeBoundedIoTaskQueue ∧
        (requestsOf (l.foldl (fun w expired => w.cancelEntry expired.2) v).active).Perm
          (requestsOf v.active) ∧
        ∀ x ∈ (l.foldl (fun w expired => w.cancelEntry expired.2) v).active, x ∈ v.active ∨
          ∃ d i, (d, i) ∈ l ∧ x.op = .asyncCancel i := by
    intro l
    induction l with
    | nil => exact fun v => ⟨rfl, .refl _, fun x hx => .inl hx⟩
    | cons y l ih =>
      intro v
      obtain ⟨hqueue, hrequests, hnew⟩ := ih (v.cancelEntry y.2)
      have hspec := v.addSqe_spec (.asyncCancel y.2)
      refine ⟨hqueue.trans hspec.2.2.2.1, hrequests.trans (v.requestsOf_addSqe _), ?_⟩
      intro x hx
      rcases hnew x hx with hold | ⟨d, i, hmem, hop⟩
      · rcases List.mem_cons.mp (hspec.1.subset hold) with rfl | hold
        · exact .inr ⟨y.1, y.2, List.mem_cons_self, rfl⟩
        · exact .inl hold
      · exact .inr ⟨d, i, List.mem_cons_of_mem _ hmem, hop⟩
  exact hfold (w.expired startRoundTime).1 (w.setQueue (w.expired startRoundTime).2)

theorem mem_expired {now d : ℕ} {i : ι} :
    ((d, i) ∈ (w.expired now).1 ↔ (d, i) ∈ w.timeBoundedIoTaskQueue ∧ d ≤ now) ∧
      ((d, i) ∈ (w.expired now).2 ↔ (d, i) ∈ w.timeBoundedIoTaskQueue ∧ now < d) :=
  TimeBoundedIoTaskQueue.mem_takeExpired (Nat.le_refl _)

theorem active_complete {n : ℕ} {result : ℤ} (h : w.complete n result = some w') :
    w'.active.Perm w.active ∧ w'.timeBoundedIoTaskQueue = w.timeBoundedIoTaskQueue := by
  obtain ⟨hperm, heq⟩ := complete_spec h
  rw [heq]
  exact ⟨(hperm.append_left _).append_left _, rfl⟩

theorem active_sync (w : Worker ι) :
    (w.sync.active ++ w.completions.map Completion.entry).Perm w.active := by
  simp only [sync, active, List.map_nil, List.append_nil, List.append_assoc]
  exact .refl _

end Worker

/-! ### One executor -/

namespace Executor

variable {ι : Type*} {x y : Executor ι} {deadline deadline' : ι → Option ℕ}

/-- The requests in flight. -/
def requests (x : Executor ι) : List ι := requestsOf x.outstanding

theorem inFlight_iff {i : ι} : x.InFlight i ↔ i ∈ x.requests := by
  simp only [InFlight, requests, requestsOf, List.mem_filterMap]
  constructor
  · rintro ⟨y, hy, hop⟩
    exact ⟨y, hy, by rw [hop]; rfl⟩
  · rintro ⟨y, hy, hop⟩
    refine ⟨y, hy, ?_⟩
    cases hcase : y.op with
    | request j =>
      rw [hcase] at hop
      exact congrArg _ (Option.some.inj hop)
    | asyncCancel j =>
      rw [hcase] at hop
      cases hop

/-- The queue of deadlines fits to the requests in flight. -/
structure Fits (x : Executor ι) (deadline : ι → Option ℕ) : Prop where
  once : x.requests.Nodup
  entry : ∀ d i, (d, i) ∈ x.queue → i ∈ x.requests ∧ deadline i = some d
  hasEntry : ∀ d i, i ∈ x.requests → deadline i = some d → x.startRoundTime < d → (d, i) ∈ x.queue
  /-- The deadline of a request whose entry was taken out is not used again. -/
  unused : ∀ d i, i ∈ x.requests → deadline i = some d → (d, i) ∈ x.queue ∨ ∀ j, (d, j) ∉ x.queue

theorem Fits.perm (h : x.Fits deadline) (hrequests : y.requests.Perm x.requests)
    (hqueue : y.queue = x.queue) (htime : x.startRoundTime ≤ y.startRoundTime)
    (hdeadline : ∀ i ∈ x.requests, deadline' i = deadline i) : y.Fits deadline' where
  once := hrequests.nodup_iff.mpr h.once
  entry d i hmem := by
    rw [hqueue] at hmem
    obtain ⟨hin, hd⟩ := h.entry d i hmem
    exact ⟨hrequests.mem_iff.mpr hin, (hdeadline i hin).trans hd⟩
  hasEntry d i hin hd hlt := by
    have hin' := hrequests.mem_iff.mp hin
    rw [hqueue]
    exact h.hasEntry d i hin' ((hdeadline i hin').symm.trans hd) (Nat.lt_of_le_of_lt htime hlt)
  unused d i hin hd := by
    have hin' := hrequests.mem_iff.mp hin
    rw [hqueue]
    exact h.unused d i hin' ((hdeadline i hin').symm.trans hd)

theorem Fits.deadline_ne (h : x.Fits deadline) {d e : ℕ} {i j : ι} (hi : i ∈ x.requests)
    (hd : deadline i = some d) (hj : (e, j) ∈ x.queue) (hne : j ≠ i) : e ≠ d := by
  rintro rfl
  rcases h.unused e i hi hd with hmem | hnone
  · exact hne (SortedMap.value_unique hj hmem)
  · exact hnone j hj

/-- A new request, whose deadline is after the start of the round if it has one. -/
theorem Fits.request (h : x.Fits deadline) {i : ι} (hrequests : y.requests.Perm (i :: x.requests))
    (hqueue : ∀ e j, (e, j) ∈ y.queue ↔ deadline' i = some e ∧ j = i ∨ (e, j) ∈ x.queue)
    (htime : y.startRoundTime = x.startRoundTime) (hnew : i ∉ x.requests)
    (hlater : ∀ e, deadline' i = some e → x.startRoundTime < e)
    (hdeadline : ∀ j ∈ x.requests, deadline' j = deadline j) : y.Fits deadline' where
  once := hrequests.nodup_iff.mpr (List.nodup_cons.mpr ⟨hnew, h.once⟩)
  entry e j hmem := by
    rcases (hqueue e j).mp hmem with ⟨hd, rfl⟩ | hmem
    · exact ⟨hrequests.mem_iff.mpr List.mem_cons_self, hd⟩
    · obtain ⟨hin, hd⟩ := h.entry e j hmem
      exact ⟨hrequests.mem_iff.mpr (List.mem_cons_of_mem _ hin), (hdeadline j hin).trans hd⟩
  hasEntry e j hin hd hlt := by
    rw [hqueue]
    rcases List.mem_cons.mp (hrequests.mem_iff.mp hin) with rfl | hin
    · exact .inl ⟨hd, rfl⟩
    · exact .inr (h.hasEntry e j hin ((hdeadline j hin).symm.trans hd) (htime ▸ hlt))
  unused e j hin hd := by
    simp only [hqueue]
    rcases List.mem_cons.mp (hrequests.mem_iff.mp hin) with rfl | hin
    · exact .inl (.inl ⟨hd, rfl⟩)
    · have hd' : deadline j = some e := (hdeadline j hin).symm.trans hd
      rcases h.unused e j hin hd' with hmem | hnone
      · exact .inl (.inr hmem)
      · -- The deadline of a request without an entry has come, the new one has not.
        have hpast : e ≤ x.startRoundTime := by
          by_contra hfuture
          exact hnone j (h.hasEntry e j hin hd' (Nat.lt_of_not_le hfuture))
        refine .inr fun k => not_or.mpr ⟨fun heq => ?_, hnone k⟩
        exact absurd (hlater e heq.1) (Nat.not_lt.mpr hpast)

theorem Fits.expire (h : x.Fits deadline) (hrequests : y.requests.Perm x.requests)
    (hqueue : ∀ d i, (d, i) ∈ y.queue ↔ (d, i) ∈ x.queue ∧ x.startRoundTime < d)
    (htime : y.startRoundTime = x.startRoundTime) : y.Fits deadline where
  once := hrequests.nodup_iff.mpr h.once
  entry d i hmem := by
    obtain ⟨hin, hd⟩ := h.entry d i ((hqueue d i).mp hmem).1
    exact ⟨hrequests.mem_iff.mpr hin, hd⟩
  hasEntry d i hin hd hlt := by
    rw [htime] at hlt
    exact (hqueue d i).mpr ⟨h.hasEntry d i (hrequests.mem_iff.mp hin) hd hlt, hlt⟩
  unused d i hin hd := by
    simp only [hqueue]
    rcases h.unused d i (hrequests.mem_iff.mp hin) hd with hmem | hnone
    · rcases Nat.lt_or_ge x.startRoundTime d with hlt | hge
      · exact .inl ⟨hmem, hlt⟩
      · exact .inr fun j hj => absurd hj.2 (Nat.not_lt.mpr hge)
    · exact .inr fun j hj => hnone j hj.1

theorem Fits.finish (h : x.Fits deadline) {i : ι} (hrequests : x.requests.Perm (i :: y.requests))
    (hqueue : ∀ d j, (d, j) ∈ y.queue → (d, j) ∈ x.queue)
    (hkept : ∀ d j, (d, j) ∈ x.queue → j ≠ i → (d, j) ∈ y.queue)
    (hgone : ∀ d, (d, i) ∉ y.queue) (htime : y.startRoundTime = x.startRoundTime)
    (hdeadline : ∀ j, deadline' j = deadline j) : y.Fits deadline' := by
  obtain ⟨hnew, honce⟩ := List.nodup_cons.mp (hrequests.nodup_iff.mp h.once)
  have hin : ∀ {j}, j ∈ y.requests → j ∈ x.requests ∧ j ≠ i := by
    intro j hj
    refine ⟨hrequests.mem_iff.mpr (List.mem_cons_of_mem _ hj), ?_⟩
    rintro rfl
    exact hnew hj
  constructor
  case once => exact honce
  case entry =>
    intro d j hmem
    obtain ⟨hj, hd⟩ := h.entry d j (hqueue d j hmem)
    refine ⟨?_, (hdeadline j).trans hd⟩
    rcases List.mem_cons.mp (hrequests.mem_iff.mp hj) with rfl | hj
    · exact absurd hmem (hgone d)
    · exact hj
  case hasEntry =>
    intro d j hj hd hlt
    rw [htime] at hlt
    exact hkept d j (h.hasEntry d j (hin hj).1 ((hdeadline j).symm.trans hd) hlt) (hin hj).2
  case unused =>
    intro d j hj hd
    rcases h.unused d j (hin hj).1 ((hdeadline j).symm.trans hd) with hmem | hnone
    · exact .inl (hkept d j hmem (hin hj).2)
    · exact .inr fun k hk => hnone k (hqueue d k hk)

/-! ### What the changes of an executor do to its requests -/

theorem requests_eq (x : Executor ι) :
    x.requests = requestsOf x.worker.active ++
      requestsOf (x.phase.completions.map Completion.entry) :=
  List.filterMap_append

theorem requests_request (x : Executor ι) (i : ι) (d : Option ℕ) :
    (x.request i d).2.requests.Perm (i :: x.requests) := by
  rw [requests_eq, requests_eq, ← List.cons_append]
  cases d with
  | none => exact (x.worker.requestsOf_addSqe (.request i)).append_right _
  | some d => exact ((x.worker.setQueue _).requestsOf_addSqe (.request i)).append_right _

theorem outstanding_request (x : Executor ι) (i : ι) (d : Option ℕ) {y : Entry ι}
    (hy : y ∈ (x.request i d).2.outstanding) : y ∈ x.outstanding ∨ y.op = .request i := by
  -- The new entry is the only one that was not there.
  have hadd : ∀ w : Worker ι, w.active = x.worker.active →
      y ∈ (w.addSqe (.request i)).active → y ∈ x.worker.active ∨ y.op = .request i := by
    intro w hw hmem
    rcases List.mem_cons.mp ((w.addSqe_spec _).1.subset hmem) with rfl | hold
    · exact .inr rfl
    · exact .inl (hw ▸ hold)
  have hcases : y ∈ (x.request i d).2.worker.active ∨
      y ∈ x.phase.completions.map Completion.entry := by
    cases d <;> exact List.mem_append.mp hy
  rcases hcases with hmem | hmem
  · have hnew : y ∈ x.worker.active ∨ y.op = .request i := by
      cases d with
      | none => exact hadd x.worker rfl hmem
      | some d => exact hadd (x.worker.setQueue (x.queue.register i d).2) rfl hmem
    exact hnew.imp_left fun hold => List.mem_append_left _ hold
  · exact .inl (List.mem_append_right _ hmem)

theorem outstanding_of_completions_nil {p : Phase ι} (h : x.phase.completions = [])
    (hp : p.completions = []) (w : Worker ι) :
    ((x.setWorker w).setPhase p).outstanding = w.active ∧ x.outstanding = x.worker.active := by
  constructor
  · show w.active ++ p.completions.map Completion.entry = w.active
    rw [hp]
    exact List.append_nil _
  · rw [outstanding, h]
    exact List.append_nil _

theorem outstanding_complete {n : ℕ} {result : ℤ} {w : Worker ι}
    (h : x.worker.complete n result = some w) :
    (x.setWorker w).outstanding.Perm x.outstanding :=
  (Worker.active_complete h).1.append_right _

theorem outstanding_sync (h : x.phase = .submitted) :
    ((x.setWorker x.worker.sync).setPhase (.reaping x.worker.completions)).outstanding.Perm
      x.outstanding := by
  have hnil : x.outstanding = x.worker.active := by
    rw [outstanding, h]
    exact List.append_nil _
  rw [hnil]
  exact x.worker.active_sync

theorem mem_queue_request (x : Executor ι) (i : ι) (d : Option ℕ) (e : ℕ) (j : ι) :
    (e, j) ∈ (x.request i d).2.queue ↔
      (x.request i d).1 = some e ∧ j = i ∨ (e, j) ∈ x.queue := by
  cases d with
  | none =>
    have hqueue : (x.request i none).2.queue = x.queue :=
      (x.worker.addSqe_spec (.request i)).2.2.2.1
    rw [hqueue]
    exact (or_iff_right fun h => nomatch h.1).symm
  | some d =>
    have hqueue : (x.request i (some d)).2.queue = (x.queue.register i d).2 :=
      (Worker.addSqe_spec (x.worker.setQueue _) (.request i)).2.2.2.1
    rw [hqueue, TimeBoundedIoTaskQueue.mem_register, Prod.mk.injEq]
    exact or_congr_left (and_congr_left' (eq_comm.trans Option.some_inj.symm))

theorem le_of_request {x : Executor ι} {i : ι} {d e : ℕ}
    (h : (x.request i (some d)).1 = some e) : d ≤ e :=
  Option.some.inj h ▸ x.queue.le_freeDeadline d

theorem outstanding_reap {c : Completion ι} {rest : List (Completion ι)}
    (h : x.phase = .reaping (c :: rest)) :
    x.outstanding.Perm (c.entry :: (x.setPhase (.reaping rest)).outstanding) := by
  rw [outstanding, h]
  exact List.perm_middle

theorem requests_reap {n : ℕ} {i : ι} {result : ℤ} {rest : List (Completion ι)}
    (h : x.phase = .reaping (⟨⟨n, .request i⟩, result⟩ :: rest)) :
    x.requests.Perm (i :: (x.setPhase (.reaping rest)).requests) := by
  have hperm := (outstanding_reap h).filterMap fun y => y.op.request?
  exact hperm

end Executor

/-! ### Prompt steps -/

namespace System

section Prompt

variable {ε ι : Type*}

def deadline (s : System ε ι) (i : ι) : Option ℕ := (s.requests i).bind Request.deadline

def isLocal (s : System ε ι) (i : ι) : Bool := (s.requests i).any Request.isLocal

variable [DecidableEq ι]

/-- Whether a step is prompt: a new deadline is after the start of the round; the task of a
completed request with a deadline is resumed at once; and its result is an error of the kind
`TimedOut` only if the worker has taken its entry out. -/
def isPrompt (s : System ε ι) : Action ε ι → Bool
  | .request e _ _ (some deadline) => decide ((s.executors e).startRoundTime < deadline)
  | .reap e now =>
    match (s.executors e).phase with
    | .reaping (⟨⟨_, .request i⟩, result⟩ :: _) =>
      match s.deadline i with
      | some d =>
        s.isLocal i && now &&
          (mustDeregister (toRet result) || decide ((d, i) ∉ (s.executors e).queue.entries))
      | none => true
    | _ => true
  | _ => true

theorem isPrompt_reap {s : System ε ι} {e : ε} {now : Bool} {n : ℕ} {i : ι} {result : ℤ}
    {rest : List (Completion ι)} {r : Request ε} {d : ℕ} (h : s.isPrompt (.reap e now) = true)
    (hphase : (s.executors e).phase = .reaping (⟨⟨n, .request i⟩, result⟩ :: rest))
    (hr : s.requests i = some r) (hd : r.deadline = some d) :
    r.isLocal = true ∧ now = true ∧
      (mustDeregister (toRet result) = false → (d, i) ∉ (s.executors e).queue) := by
  have hdeadline : s.deadline i = some d := by rw [deadline, hr, Option.bind_some, hd]
  simp only [isPrompt, hphase, hdeadline, isLocal, hr, Option.any_some, Bool.and_eq_true,
    Bool.or_eq_true, decide_eq_true_eq] at h
  obtain ⟨⟨hlocal, hnow⟩, hresult⟩ := h
  refine ⟨hlocal, hnow, fun hkeep => ?_⟩
  rcases hresult with hderegister | hmem
  · rw [hkeep] at hderegister
    cases hderegister
  · exact hmem

end Prompt

/-! ### All executors -/

section Sound

variable {ε ι : Type*} {s : System ε ι}

/-- The invariant of the runs of prompt steps. -/
structure Sound (s : System ε ι) : Prop where
  time : ∀ e, (s.executors e).startRoundTime ≤ s.clock
  known : ∀ e, ∀ i ∈ (s.executors e).requests, (s.requests i).isSome = true
  fits : ∀ e, (s.executors e).Fits s.deadline
  /-- A request with a deadline that has its result is finished. -/
  done : ∀ i r, s.requests i = some r → r.deadline ≠ none → r.ret ≠ none → r.isFinished = true

theorem sound_init (numberOfEntries now : ℕ) : (init numberOfEntries now : System ε ι).Sound where
  time _ := Nat.le_refl now
  known _ _ hi := absurd hi List.not_mem_nil
  fits _ :=
    { once := List.nodup_nil
      entry := fun _ _ h => absurd h (SortedMap.not_mem_empty _)
      hasEntry := fun _ _ hi => absurd hi List.not_mem_nil
      unused := fun _ _ hi => absurd hi List.not_mem_nil }
  done _ _ h := by cases h

/-- When the future of a request in flight deregisters, the entries of the others stay. -/
theorem Sound.finish_queue (h : s.Sound) {e : ε} {i : ι} {r : Request ε}
    {ret : Except ErrorKind ℕ} (hi : i ∈ (s.executors e).requests) (hr : s.requests i = some r)
    {d : ℕ} {j : ι} (hmem : (d, j) ∈ (s.executors e).queue) (hne : j ≠ i) :
    (d, j) ∈ (s.executors e).queue.deregisterAfter ret r.deadline := by
  refine TimeBoundedIoTaskQueue.mem_deregisterAfter.mpr ⟨hmem, ?_⟩
  rintro ⟨hd, -⟩
  have hdeadline : s.deadline i = some d := by rw [deadline, hr, Option.bind_some, hd]
  exact (h.fits e).deadline_ne hi hdeadline hmem hne rfl

/-- A future that is polled later has no deadline, and changes no queue. -/
theorem Sound.deadline_none (h : s.Sound) {i : ι} {r : Request ε} {ret : Except ErrorKind ℕ}
    (hr : s.requests i = some r) (hret : r.ret = some ret) (hfinished : r.isFinished = false) :
    r.deadline = none := by
  by_contra hd
  have hdone := h.done i r hr hd (by rw [hret]; exact Option.some_ne_none ret)
  rw [hfinished] at hdone
  cases hdone

variable [DecidableEq ε]

theorem executors_set (s : System ε ι) (e : ε) (y : Executor ι) : (s.set e y).executors e = y :=
  Function.update_self ..

theorem set_set (s : System ε ι) (e : ε) (y z : Executor ι) : (s.set e y).set e z = s.set e z := by
  simp only [System.set, Function.update_idem]

theorem Sound.set (h : s.Sound) {e : ε} {y : Executor ι} (htime : y.startRoundTime ≤ s.clock)
    (hknown : ∀ i ∈ y.requests, i ∈ (s.executors e).requests) (hfits : y.Fits s.deadline) :
    (s.set e y).Sound where
  time := (forall_set (p := fun _ x => x.startRoundTime ≤ s.clock)).mpr
    ⟨htime, fun e' _ => h.time e'⟩
  known := (forall_set (p := fun _ x => ∀ i ∈ x.requests, (s.requests i).isSome = true)).mpr
    ⟨fun i hi => h.known e i (hknown i hi), fun e' _ => h.known e'⟩
  fits := (forall_set (p := fun _ x => x.Fits s.deadline)).mpr ⟨hfits, fun e' _ => h.fits e'⟩
  done := h.done

end Sound

theorem deadline_setRequest {ε ι : Type*} [DecidableEq ι] (s : System ε ι) (i : ι) (r : Request ε) :
    (s.setRequest i r).deadline = Function.update s.deadline i r.deadline := by
  funext j
  rcases eq_or_ne j i with rfl | hne
  · rw [Function.update_self]
    show (Function.update s.requests j (some r) j).bind Request.deadline = r.deadline
    rw [Function.update_self, Option.bind_some]
  · rw [Function.update_of_ne hne]
    show (Function.update s.requests i (some r) j).bind Request.deadline = s.deadline j
    rw [Function.update_of_ne hne, deadline]

variable {ε ι : Type*} [DecidableEq ε] [DecidableEq ι] {s t : System ε ι} {a : Action ε ι}

/-- An executor and a request change; what was known of the deadline stays. -/
theorem Sound.update (h : s.Sound) {e : ε} {y : Executor ι} {i : ι} {r : Request ε}
    (htime : y.startRoundTime ≤ s.clock)
    (hknown : ∀ j ∈ y.requests, j = i ∨ j ∈ (s.executors e).requests)
    (hsame : (s.requests i).isSome = true → r.deadline = s.deadline i)
    (hfits : y.Fits (Function.update s.deadline i r.deadline))
    (hdone : r.deadline ≠ none → r.ret ≠ none → r.isFinished = true) :
    ((s.set e y).setRequest i r).Sound := by
  have hkept : ∀ j, (s.requests j).isSome = true →
      Function.update s.deadline i r.deadline j = s.deadline j := by
    intro j hj
    rcases eq_or_ne j i with rfl | hne
    · rw [Function.update_self, hsame hj]
    · rw [Function.update_of_ne hne]
  have hstill : ∀ j, (s.requests j).isSome = true →
      (Function.update s.requests i (some r) j).isSome = true := by
    intro j hj
    rcases eq_or_ne j i with rfl | hne
    · rw [Function.update_self, Option.isSome_some]
    · rwa [Function.update_of_ne hne]
  constructor
  case time =>
    exact (forall_set (p := fun _ x => x.startRoundTime ≤ s.clock)).mpr
      ⟨htime, fun e' _ => h.time e'⟩
  case known =>
    refine (forall_set (p := fun _ x => ∀ j ∈ x.requests,
      (Function.update s.requests i (some r) j).isSome = true)).mpr ⟨fun j hj => ?_, ?_⟩
    · rcases hknown j hj with rfl | hj
      · rw [Function.update_self, Option.isSome_some]
      · exact hstill j (h.known e j hj)
    · exact fun e' _ j hj => hstill j (h.known e' j hj)
  case fits =>
    rw [deadline_setRequest]
    refine (forall_set (p := fun _ x => x.Fits (Function.update s.deadline i r.deadline))).mpr
      ⟨hfits, fun e' _ => ?_⟩
    exact (h.fits e').perm (.refl _) rfl (Nat.le_refl _) fun j hj => hkept j (h.known e' j hj)
  case done =>
    refine (Function.forall_update_iff s.requests fun j o => ∀ r, o = some r → r.deadline ≠ none →
      r.ret ≠ none → r.isFinished = true).mpr ⟨?_, fun j _ => h.done j⟩
    rintro _ ⟨⟩
    exact hdone

/-- The completion of a request is handled in a prompt step: the request goes, and its entry with
it. -/
theorem Sound.reapRequest (h : s.Sound) {e : ε} {now : Bool} {n : ℕ} {i : ι} {result : ℤ}
    {rest : List (Completion ι)} {r : Request ε}
    (hphase : (s.executors e).phase = .reaping (⟨⟨n, .request i⟩, result⟩ :: rest))
    (hr : s.requests i = some r) (hprompt : s.isPrompt (.reap e now) = true) :
    ((s.set e ((s.executors e).setPhase (.reaping rest))).handle e i r
      (toRet result) now).Sound := by
  have hperm := Executor.requests_reap hphase
  have hin : ∀ j ∈ ((s.executors e).setPhase (.reaping rest)).requests,
      j ∈ (s.executors e).requests :=
    fun j hj => hperm.mem_iff.mpr (List.mem_cons_of_mem _ hj)
  have hi : i ∈ (s.executors e).requests := hperm.mem_iff.mpr List.mem_cons_self
  have hdeadline : s.deadline i = r.deadline := by rw [deadline, hr, Option.bind_some]
  have hsame : ∀ j, Function.update s.deadline i r.deadline j = s.deadline j := by
    intro j
    rw [← hdeadline, Function.update_eq_self]
  unfold handle
  split
  case isTrue hnow =>
    -- The future is polled at once, and deregisters.
    unfold finish
    rw [executors_set, set_set]
    refine h.update (h.time e) (fun j hj => .inr (hin j hj)) (fun _ => hdeadline.symm) ?_
      fun _ _ => rfl
    refine (h.fits e).finish hperm ?_ ?_ ?_ rfl hsame
    · exact fun d j hmem => (TimeBoundedIoTaskQueue.mem_deregisterAfter.mp hmem).1
    · exact fun d j hmem hne => h.finish_queue hi hr hmem hne
    · intro d hmem
      obtain ⟨hold, hkept⟩ := TimeBoundedIoTaskQueue.mem_deregisterAfter.mp hmem
      have hd : r.deadline = some d := hdeadline.symm.trans ((h.fits e).entry d i hold).2
      have hret : mustDeregister (toRet result) = false :=
        Bool.eq_false_iff.mpr fun hret => hkept ⟨hd, hret⟩
      exact (isPrompt_reap hprompt hphase hr hd).2.2 hret hold
  case isFalse hlater =>
    -- The task is resumed later, so its request has no deadline.
    have hnone : r.deadline = none := by
      cases hd : r.deadline with
      | none => rfl
      | some d =>
        obtain ⟨hlocal, hnow, -⟩ := isPrompt_reap hprompt hphase hr hd
        rw [hlocal, hnow] at hlater
        exact absurd rfl hlater
    refine h.update (h.time e) (fun j hj => .inr (hin j hj)) (fun _ => hdeadline.symm) ?_
      fun hd => absurd hnone hd
    refine (h.fits e).finish hperm (fun _ _ hmem => hmem) (fun _ _ hmem _ => hmem) ?_ rfl hsame
    intro d hmem
    have hd := ((h.fits e).entry d i hmem).2
    rw [hdeadline, hnone] at hd
    cases hd

omit [DecidableEq ε] [DecidableEq ι] in
theorem AllAccounted.mem_queue_mustPoll (hall : s.AllAccounted 2) {e : ε}
    {results : List SubmitResult} {last : SubmitResult} {w : Worker ι}
    (hw : ((s.executors e).worker.checkDeadlines (s.executors e).startRoundTime).submitAndPoll
      results last = some w) {d : ℕ} {i : ι} :
    (d, i) ∈ w.timeBoundedIoTaskQueue ↔
      (d, i) ∈ (s.executors e).queue ∧ (s.executors e).startRoundTime < d := by
  rw [(((hall e).checkDeadlines _).moves_submitAndPoll hw).queue,
    ((s.executors e).worker.checkDeadlines_spec (s.executors e).startRoundTime).1]
  exact Worker.mem_expired.2

omit [DecidableEq ε] [DecidableEq ι] in
theorem AllAccounted.requests_mustPoll (hall : s.AllAccounted 2) {e : ε}
    {results : List SubmitResult} {last : SubmitResult} {w : Worker ι}
    (hidle : (s.executors e).phase = .idle)
    (hw : ((s.executors e).worker.checkDeadlines (s.executors e).startRoundTime).submitAndPoll
      results last = some w) :
    (((s.executors e).setWorker w).setPhase .submitted).requests.Perm
      (s.executors e).requests := by
  have hrequests :=
    ((s.executors e).worker.checkDeadlines_spec (s.executors e).startRoundTime).2.1
  have hmoves := ((hall e).checkDeadlines _).moves_submitAndPoll hw
  obtain ⟨hnew, hold⟩ := Executor.outstanding_of_completions_nil
    (x := s.executors e) (p := .submitted) (by rw [hidle]; rfl) rfl w
  rw [Executor.requests, Executor.requests, hnew, hold]
  exact (hmoves.active.filterMap _).trans hrequests

theorem Sound.step (h : s.Sound) (hall : s.AllAccounted 2) (hprompt : s.isPrompt a = true)
    (hstep : s.step a = some t) : t.Sound := by
  cases effect_of_step hstep with
  | tick nanos => exact ⟨fun e => Nat.le_add_right_of_le (h.time e), h.known, h.fits, h.done⟩
  | newRound e =>
    refine h.set (Nat.le_refl _) (fun _ hi => hi) ?_
    exact (h.fits e).perm (.refl _) rfl (h.time e) fun _ _ => rfl
  | request e i isLocal d hnew =>
    have hperm := (s.executors e).requests_request i d
    have hunknown : ∀ e', i ∉ (s.executors e').requests := by
      intro e' hi
      have := h.known e' i hi
      rw [hnew] at this
      cases this
    have hother : ∀ j ∈ (s.executors e).requests,
        Function.update s.deadline i ((s.executors e).request i d).1 j = s.deadline j := by
      intro j hj
      refine Function.update_of_ne ?_ _ _
      rintro rfl
      exact hunknown e hj
    refine h.update ?_ (fun j hj => List.mem_cons.mp (hperm.mem_iff.mp hj)) ?_ ?_
      fun _ hret => absurd rfl hret
    · cases d <;> exact h.time e
    · intro hsome
      rw [hnew] at hsome
      cases hsome
    · have hself : Function.update s.deadline i ((s.executors e).request i d).1 i = _ :=
        Function.update_self ..
      refine (h.fits e).request hperm (fun e' j => ?_) ?_ (hunknown e) (fun e' he' => ?_) hother
      · rw [hself]
        exact (s.executors e).mem_queue_request i d e' j
      · cases d <;> rfl
      · rw [hself] at he'
        cases d with
        | none => cases he'
        | some d =>
          exact Nat.lt_of_lt_of_le (of_decide_eq_true hprompt) (Executor.le_of_request he')
  | mustPoll e results last w hidle hw =>
    have hperm := hall.requests_mustPoll hidle hw
    refine h.set (h.time e) (fun i hi => hperm.mem_iff.mp hi) ?_
    exact (h.fits e).expire hperm (fun _ _ => hall.mem_queue_mustPoll hw) rfl
  | complete e n result w hw =>
    have hperm := (Executor.outstanding_complete hw).filterMap fun x => x.op.request?
    refine h.set (h.time e) (fun i hi => hperm.mem_iff.mp hi) ?_
    exact (h.fits e).perm hperm (Worker.active_complete hw).2 (Nat.le_refl _) fun _ _ => rfl
  | sync e hsubmitted =>
    have hperm := (Executor.outstanding_sync hsubmitted).filterMap fun x => x.op.request?
    refine h.set (h.time e) (fun i hi => hperm.mem_iff.mp hi) ?_
    exact (h.fits e).perm hperm rfl (Nat.le_refl _) fun _ _ => rfl
  | reapEnd e now hphase =>
    have hsame : ((s.executors e).setPhase .idle).requests = (s.executors e).requests := by
      rw [Executor.requests_eq, Executor.requests_eq, hphase]
      rfl
    refine h.set (h.time e) (fun i hi => hsame ▸ hi) ?_
    exact (h.fits e).perm (.of_eq hsame) rfl (Nat.le_refl _) fun _ _ => rfl
  | reapCancel e now n i result rest hphase =>
    have hperm := (Executor.outstanding_reap hphase).symm.filterMap fun x => x.op.request?
    refine h.set (h.time e) (fun i hi => hperm.mem_iff.mp hi) ?_
    exact (h.fits e).perm hperm rfl (Nat.le_refl _) fun _ _ => rfl
  | reapRequest e now n i result rest r hphase hr => exact h.reapRequest hphase hr hprompt
  | resume e i r ret hr hret hfinished hhome =>
    have hnone := h.deadline_none hr hret hfinished
    have hdeadline : s.deadline i = r.deadline := by rw [deadline, hr, Option.bind_some]
    refine h.update (h.time e) (fun j hj => .inr hj) (fun _ => hdeadline.symm) ?_ fun _ _ => rfl
    refine (h.fits e).perm (.refl _) ?_ (Nat.le_refl _) fun j _ => ?_
    · rw [hnone]
      rfl
    · rw [← hdeadline, Function.update_eq_self]

/-! ### Runs -/

/-- What the workers keep of the deadlines. -/
structure DeadlinesKept (s : System ε ι) : Prop where
  /-- Every entry is that of a request in flight on this worker. -/
  entry_inFlight : ∀ e d i, (d, i) ∈ (s.executors e).queue → (s.executors e).InFlight i
  /-- Every request in flight whose deadline has not come has its entry. -/
  inFlight_entry : ∀ e d i, (s.executors e).InFlight i → s.deadline i = some d →
    (s.executors e).startRoundTime < d → (d, i) ∈ (s.executors e).queue
  /-- An entry goes only when the completion of its own request is handled, or when its deadline
  has come. -/
  entry_kept : ∀ a t e d i, s.step a = some t → (d, i) ∈ (s.executors e).queue →
    (d, i) ∈ (t.executors e).queue ∨
    ((∃ now, a = .reap e now) ∧ ¬(t.executors e).InFlight i) ∨
    ((∃ results last, a = .mustPoll e results last) ∧ d ≤ (s.executors e).startRoundTime)
  /-- A cancel is issued for a request in flight whose own deadline has come. -/
  cancel_expired : ∀ a t e x i, s.step a = some t → x ∈ (t.executors e).outstanding →
    x ∉ (s.executors e).outstanding → x.op = .asyncCancel i →
    (s.executors e).InFlight i ∧ ∃ d, s.deadline i = some d ∧ d ≤ (s.executors e).startRoundTime

/-- An entry goes only with its own request or when its deadline has come. -/
theorem Sound.entry_kept (h : s.Sound) (hall : s.AllAccounted 2) (hstep : s.step a = some t) (e : ε)
    (d : ℕ) (i : ι) (hmem : (d, i) ∈ (s.executors e).queue) :
    (d, i) ∈ (t.executors e).queue ∨
      ((∃ now, a = .reap e now) ∧ ¬(t.executors e).InFlight i) ∨
      ((∃ results last, a = .mustPoll e results last) ∧ d ≤ (s.executors e).startRoundTime) := by
  -- The queues of the other executors do not change.
  have hset : ∀ {e' : ε} {y : Executor ι},
      (∀ d i, (d, i) ∈ (s.executors e').queue → (d, i) ∈ y.queue ∨
        ((∃ now, a = .reap e' now) ∧ ¬y.InFlight i) ∨
        ((∃ results last, a = .mustPoll e' results last) ∧ d ≤ (s.executors e').startRoundTime)) →
      (d, i) ∈ ((s.set e' y).executors e).queue ∨
        ((∃ now, a = .reap e now) ∧ ¬((s.set e' y).executors e).InFlight i) ∨
        ((∃ results last, a = .mustPoll e results last) ∧ d ≤ (s.executors e).startRoundTime) := by
    intro e' y hy
    exact forall_set (p := fun e x => ∀ d i, (d, i) ∈ (s.executors e).queue → (d, i) ∈ x.queue ∨
      ((∃ now, a = .reap e now) ∧ ¬x.InFlight i) ∨
      ((∃ results last, a = .mustPoll e results last) ∧ d ≤ (s.executors e).startRoundTime)) |>.mpr
      ⟨hy, fun _ _ _ _ hmem => .inl hmem⟩ e d i hmem
  cases effect_of_step hstep with
  | tick nanos => exact .inl hmem
  | newRound | sync | reapEnd | reapCancel => exact hset fun _ _ hmem => .inl hmem
  | request e' j isLocal deadline hnew =>
    refine hset fun d i hmem => .inl ?_
    exact (Executor.mem_queue_request _ j deadline d i).mpr (.inr hmem)
  | mustPoll e' results last w hidle hw =>
    refine hset fun d i hmem => ?_
    rcases Nat.lt_or_ge (s.executors e').startRoundTime d with hlt | hge
    · exact .inl ((hall.mem_queue_mustPoll hw).mpr ⟨hmem, hlt⟩)
    · exact .inr (.inr ⟨⟨results, last, rfl⟩, hge⟩)
  | complete e' n result w hw =>
    refine hset fun d i hmem => .inl ?_
    show (d, i) ∈ w.timeBoundedIoTaskQueue
    rw [(Worker.active_complete hw).2]
    exact hmem
  | reapRequest e' now n j result rest r hphase hr =>
    have hperm := Executor.requests_reap hphase
    have hj : j ∈ (s.executors e').requests := hperm.mem_iff.mpr List.mem_cons_self
    have hgone := (List.nodup_cons.mp (hperm.nodup_iff.mp (h.fits e').once)).1
    unfold handle
    split
    case isTrue =>
      unfold finish
      rw [executors_set, set_set]
      refine hset fun d i hmem => ?_
      rcases eq_or_ne i j with rfl | hne
      · exact .inr (.inl ⟨⟨now, rfl⟩, fun hin => hgone (Executor.inFlight_iff.mp hin)⟩)
      · exact .inl (h.finish_queue hj hr hmem hne)
    case isFalse => exact hset fun _ _ hmem => .inl hmem
  | resume e' j r ret hr hret hfinished hhome =>
    have hnone := h.deadline_none hr hret hfinished
    refine hset fun d i hmem => .inl ?_
    rw [hnone]
    exact hmem

theorem Sound.cancel_expired (h : s.Sound) (hall : s.AllAccounted 2) (hstep : s.step a = some t)
    (e : ε) (x : Entry ι) (i : ι) (hx : x ∈ (t.executors e).outstanding)
    (hnew : x ∉ (s.executors e).outstanding) (hop : x.op = .asyncCancel i) :
    (s.executors e).InFlight i ∧
      ∃ d, s.deadline i = some d ∧ d ≤ (s.executors e).startRoundTime := by
  have hset : ∀ {e' : ε} {y : Executor ι}, x ∈ ((s.set e' y).executors e).outstanding →
      (∀ x ∈ y.outstanding, x.op = .asyncCancel i → x ∈ (s.executors e').outstanding ∨
        (s.executors e').InFlight i ∧
          ∃ d, s.deadline i = some d ∧ d ≤ (s.executors e').startRoundTime) →
      (s.executors e).InFlight i ∧
        ∃ d, s.deadline i = some d ∧ d ≤ (s.executors e).startRoundTime := by
    intro e' y hx hy
    have := forall_set (p := fun e y => ∀ x ∈ y.outstanding, x.op = .asyncCancel i →
      x ∈ (s.executors e).outstanding ∨ (s.executors e).InFlight i ∧
        ∃ d, s.deadline i = some d ∧ d ≤ (s.executors e).startRoundTime) |>.mpr
      ⟨hy, fun _ _ _ hx _ => .inl hx⟩ e x hx hop
    exact this.resolve_left hnew
  cases effect_of_step hstep with
  | tick nanos => exact absurd hx hnew
  | newRound | resume => exact hset hx fun _ hx _ => .inl hx
  | request e' j isLocal deadline hunknown =>
    refine hset hx fun x hx hop => .inl ?_
    rcases (s.executors e').outstanding_request j deadline hx with hold | hrequest
    · exact hold
    · rw [hop] at hrequest
      cases hrequest
  | mustPoll e' results last w hidle hw =>
    refine hset hx fun x hx hop => ?_
    have hmoves := ((hall e').checkDeadlines _).moves_submitAndPoll hw
    obtain ⟨hout, hold⟩ := Executor.outstanding_of_completions_nil
      (x := s.executors e') (p := .submitted) (by rw [hidle]; rfl) rfl w
    rw [hout] at hx
    rw [hold]
    have hchecked := hmoves.active.subset hx
    rcases ((s.executors e').worker.checkDeadlines_spec _).2.2 x hchecked with
      hactive | ⟨d, j, hexpired, hcancel⟩
    · exact .inl hactive
    · rw [hop] at hcancel
      obtain rfl := Op.asyncCancel.inj hcancel
      obtain ⟨hmem, hle⟩ := Worker.mem_expired.1.mp hexpired
      obtain ⟨hin, hd⟩ := (h.fits e').entry d i hmem
      exact .inr ⟨Executor.inFlight_iff.mpr hin, d, hd, hle⟩
  | complete e' n result w hw =>
    exact hset hx fun _ hx _ => .inl ((Executor.outstanding_complete hw).subset hx)
  | sync e' hsubmitted =>
    exact hset hx fun _ hx _ => .inl ((Executor.outstanding_sync hsubmitted).subset hx)
  | reapEnd e' now hphase =>
    refine hset hx fun x hx _ => .inl ?_
    rw [Executor.outstanding, hphase]
    exact hx
  | reapCancel e' now n j result rest hphase =>
    refine hset hx fun x hx _ => .inl ?_
    exact (Executor.outstanding_reap hphase).symm.subset (List.mem_cons_of_mem _ hx)
  | reapRequest e' now n j result rest r hphase hr =>
    have hreap : ∀ x ∈ ((s.executors e').setPhase (.reaping rest)).outstanding,
        x ∈ (s.executors e').outstanding :=
      fun x hx => (Executor.outstanding_reap hphase).symm.subset (List.mem_cons_of_mem _ hx)
    unfold handle at hx
    split at hx
    case isTrue =>
      unfold finish at hx
      rw [executors_set, set_set] at hx
      exact hset hx fun x hx _ => .inl (hreap x hx)
    case isFalse => exact hset hx fun x hx _ => .inl (hreap x hx)

/-- **The queues of deadlines.** In every run of prompt steps, with any number of executors whose
rings have two slots or more, the workers keep the deadlines. -/
theorem deadlinesKept_of_prompt {numberOfEntries now : ℕ} (hsize : 2 ≤ numberOfEntries)
    (h : Reach step (fun s a => s.isPrompt a = true) (init numberOfEntries now) s) :
    s.DeadlinesKept := by
  have hall : ∀ {s : System ε ι},
      Reach step (fun s a => s.isPrompt a = true) (init numberOfEntries now) s →
      s.AllAccounted 2 := by
    intro s hs
    exact hs.invariant (fun _ => Worker.accounted_new hsize)
      fun _ _ _ _ hi _ hstep => hi.step (.inl le_rfl) hstep
  have hsound : s.Sound :=
    h.invariant (sound_init _ _) fun _ _ _ hs hi hprompt hstep => hi.step (hall hs) hprompt hstep
  constructor
  case entry_inFlight =>
    exact fun e d i hmem => Executor.inFlight_iff.mpr ((hsound.fits e).entry d i hmem).1
  case inFlight_entry =>
    intro e d i hin hd hlt
    exact (hsound.fits e).hasEntry d i (Executor.inFlight_iff.mp hin) hd hlt
  case entry_kept => exact fun a t e d i hstep hmem => hsound.entry_kept (hall h) hstep e d i hmem
  case cancel_expired =>
    exact fun a t e x i hstep hx hnew hop =>
      hsound.cancel_expired (hall h) hstep e x i hx hnew hop

/-- Two local requests that ask for the same deadline: the one is completed, the other expires. -/
theorem deadlinesKept_two_requests :
    ∃ s : System Unit Bool,
      Reach step (fun s a => s.isPrompt a = true) (init 8 0) s ∧
        (11, false) ∈ (s.executors ()).queue ∧ s.DeadlinesKept := by
  have hreach : Reach step (fun s a => s.isPrompt a = true) (init 8 0 : System Unit Bool) _ :=
    reach_of_execWhere [.request () true true (some 10), .request () false true (some 10),
      .mustPoll () [] (.ok 2), .complete () 0 5, .sync (), .reap () true, .reap () true] rfl
  exact ⟨_, hreach, List.mem_singleton.mpr rfl, deadlinesKept_of_prompt (by decide) hreach⟩

/-- **An entry outlives its request.** A request with a deadline fails with `ETIMEDOUT`.  Its future
is polled at once and takes this for its own deadline, so that the entry stays; when the deadline
comes, the worker cancels a request that is not in flight. -/
theorem entry_outlives_request :
    ∃ s t : System Unit Unit, Reachable step (init 8 0) s ∧
      (10, ()) ∈ (s.executors ()).queue ∧ ¬(s.executors ()).InFlight () ∧
      s.step (.mustPoll () [] (.ok 1)) = some t ∧
      ∃ x ∈ (t.executors ()).outstanding, x.op = .asyncCancel () := by
  have hreach : Reachable step (init 8 0 : System Unit Unit) _ :=
    reachable_of_exec [.request () () true (some 10), .mustPoll () [] (.ok 1),
      .complete () 0 (-etimedout), .sync (), .reap () true, .reap () true, .tick 10,
      .newRound ()] rfl
  refine ⟨_, _, hreach, List.mem_singleton.mpr rfl, ?_, rfl, ⟨1, .asyncCancel ()⟩, ?_, rfl⟩
  · rintro ⟨x, hx, -⟩
    cases hx
  · exact List.mem_singleton.mpr rfl

end System

end Orengine.Io.IoUring
