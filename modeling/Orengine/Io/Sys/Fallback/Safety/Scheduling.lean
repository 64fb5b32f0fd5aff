import Mathlib.Data.List.Nodup
import Orengine.Lib.Tally
import Orengine.Io.Sys.Fallback.Worker

/-!
# The fallback worker schedules the tasks of its requests

`Effect` lists what a step can do.  `Scheduled` is kept as long as `poll_and_process` does not
finish a request of a shared task as if this were running: one that is tried again, or whose
deadline has come.  There `invoke_call` is called outside of the poll of the task, the call stays,
and the next task whose poll returns `Pending` is pushed to the shared queue; the task of the
request is not.  `number_of_active_tasks` is right as long as no socket has an error: such a request
is subtracted twice, and others are not polled any more.
-/

namespace Orengine.Io.Fallback

open Orengine.Lib

/-- Whether an operation is done when it has returned. -/
def Outcome.isDone : Outcome → Bool
  | .ok _ => true
  | .wouldBlock => false
  | .inProgress => false
  | .error _ => true

/-- Whether a request that is performed has to wait for its socket. -/
def Request.mustWait {τ : Type*} (r : Request τ) (lastGottenTime : ℕ) (outcome : Outcome) : Bool :=
  match r.kind with
  | .operation => false
  | .call c _ => !r.isOverdue lastGottenTime && (c.isPoll || !outcome.isDone)

/-- The number of requests that were polled, as long as they are counted as active. -/
def Phase.len {ι : Type*} : Phase ι → ℕ
  | .idle => 0
  | .processing _ len => len
  | .checking => 0

namespace Worker

variable {ι : Type*} {w : Worker ι}

/-- `number_of_active_tasks` is the number of the requests that wait, and of those that were polled
in the round that goes on. -/
def Counted (w : Worker ι) : Prop :=
  w.numberOfActiveTasks = UInt64.ofNat (w.poller.length + w.phase.len)

theorem Counted.register (h : w.Counted) (i : ι) (o : Option ℕ) : (w.register i o).2.Counted := by
  have hnumber : (w.register i o).2.numberOfActiveTasks = w.numberOfActiveTasks + 1 := by
    cases o <;> rfl
  have hlength : (w.register i o).2.poller.length + (w.register i o).2.phase.len =
      w.poller.length + w.phase.len + 1 := by
    cases o <;> simp [Worker.register, Nat.add_right_comm]
  unfold Counted at h ⊢
  rw [hnumber, hlength, h]
  exact (UInt64.ofNat_add _ 1).symm

theorem Counted.popped (h : w.Counted) {i : ι} {isReady : Bool} {polled : List (ι × Bool)} {len : ℕ}
    (hphase : w.phase = .processing ((i, isReady) :: polled) len) (q : TimeBoundedIoTaskQueue ι) :
    ((w.setQueue q).setPhase (.processing polled len)).Counted := by
  unfold Counted at h ⊢
  rw [hphase] at h
  exact h

theorem waiting_of_polled (h : w.phase.polled = []) : w.waiting = w.poller := by
  unfold waiting
  rw [h, List.append_nil]

theorem waiting_register (w : Worker ι) (i : ι) (o : Option ℕ) :
    (w.register i o).2.waiting.Perm (i :: w.waiting) := by
  have hlist : (w.register i o).2.waiting = (w.poller ++ [i]) ++ w.phase.polled := by
    cases o <;> rfl
  rw [hlist, List.append_assoc, List.singleton_append]
  exact List.perm_middle

/-- The request at the head of those that were polled waits, and the others stay when it is
taken. -/
theorem taken (h : w.waiting.Nodup) {i : ι} {isReady : Bool} {polled : List (ι × Bool)} {len : ℕ}
    (hphase : w.phase = .processing ((i, isReady) :: polled) len) :
    i ∈ w.waiting ∧ (w.poller ++ polled.map Prod.fst).Nodup ∧
      ∀ j, j ∈ w.poller ++ polled.map Prod.fst ↔ j ≠ i ∧ j ∈ w.waiting := by
  have hperm : w.waiting.Perm (i :: (w.poller ++ polled.map Prod.fst)) := by
    unfold waiting
    rw [hphase]
    exact List.perm_middle
  obtain ⟨hnot, hnodup⟩ := List.nodup_cons.mp (hperm.nodup_iff.mp h)
  refine ⟨hperm.mem_iff.mpr List.mem_cons_self, hnodup, fun j => ?_⟩
  rw [hperm.mem_iff, List.mem_cons]
  constructor
  · intro hj
    exact ⟨fun hji => hnot (hji ▸ hj), .inr hj⟩
  · rintro ⟨hji, hj⟩
    exact hj.resolve_left hji

theorem waiting_deregister [DecidableEq ι] (h : w.waiting.Nodup) (hpolled : w.phase.polled = [])
    (i : ι) (q : TimeBoundedIoTaskQueue ι) :
    (w.deregister i q).waiting.Nodup ∧
      ∀ j, j ∈ (w.deregister i q).waiting ↔ j ≠ i ∧ j ∈ w.waiting := by
  have hwaiting : (w.deregister i q).waiting = w.poller.filter fun j => j ≠ i :=
    waiting_of_polled hpolled
  rw [waiting_of_polled hpolled] at h ⊢
  rw [hwaiting]
  refine ⟨h.filter _, fun j => ?_⟩
  rw [List.mem_filter, decide_eq_true_eq, and_comm]

end Worker

namespace System

variable {τ ι : Type*} {s t : System τ ι} {a : Action τ ι}

/-! ### The steps that go wrong -/

/-- Whether `poll_and_process` finishes the request of a shared task as if the task were
running. -/
def invokesCall (s : System τ ι) : Action τ ι → Bool
  | .process outcome =>
    match s.worker.phase with
    | .processing ((i, true) :: _) _ =>
      (s.requests i).any fun r =>
        !r.isLocal && (r.isOverdue s.worker.lastGottenTime || r.mustRetry && outcome.isDone)
    | _ => false
  | _ => false

/-- Whether `poll_and_process` processes a request whose socket has an error. -/
def reportsError (s : System τ ι) : Action τ ι → Bool
  | .process _ =>
    match s.worker.phase with
    | .processing ((_, false) :: _) _ => true
    | _ => false
  | _ => false

/-- Whether a request has to wait for a socket for which another one waits. -/
def occupies (s : System τ ι) : Action τ ι → Bool
  | .start _ task isLocal kind deadline outcome =>
    s.isOccupied (.new task isLocal kind deadline) &&
      (Request.new task isLocal kind deadline).mustWait s.worker.lastGottenTime outcome
  | .process outcome =>
    match s.worker.phase with
    | .processing ((i, true) :: _) _ =>
      (s.requests i).any fun r =>
        s.isOccupied r && r.mustRetry && r.mustWait s.worker.lastGottenTime outcome
    | _ => false
  | _ => false

theorem isLocal_of_not_invokesCall {outcome : Outcome} {i : ι} {polled : List (ι × Bool)}
    {len : ℕ} {r : Request τ} (h : s.invokesCall (.process outcome) = false)
    (hphase : s.worker.phase = .processing ((i, true) :: polled) len)
    (hr : s.requests i = some r)
    (hdone : (r.isOverdue s.worker.lastGottenTime || r.mustRetry && outcome.isDone) = true) :
    r.isLocal = true := by
  simp only [invokesCall, hphase, hr, Option.any_some, hdone, Bool.and_true,
    Bool.not_eq_false'] at h
  exact h

/-! ### What a step can do -/

/-- The queue without the entry of a deadline, if there is one. -/
def removal (q : TimeBoundedIoTaskQueue ι) : Option ℕ → Option (TimeBoundedIoTaskQueue ι)
  | none => some q
  | some d => if q.contains d then some (q.erase d) else none

/-- The entry of the request that was polled is removed, and the request taken. -/
def popped (s : System τ ι) (q : TimeBoundedIoTaskQueue ι) (rest : Phase ι) : System τ ι :=
  s.setWorker ((s.worker.setQueue q).setPhase rest)

theorem removeEntry_eq (s : System τ ι) (o : Option ℕ) :
    s.removeEntry o = (removal s.worker.timeBoundedIoTaskQueue o).map fun q =>
      s.setWorker (s.worker.setQueue q) := by
  cases o with
  | none => rfl
  | some d =>
    simp only [removeEntry, removal]
    split <;> rfl

variable [DecidableEq ι]

theorem handleIoCall_cases (s : System τ ι) (i : ι) (r : Request τ) (outcome : Outcome) :
    outcome.isDone = false ∧ s.handleIoCall i r outcome = s.register i r ∨
      outcome.isDone = true ∧ ∃ ret, s.handleIoCall i r outcome = s.storeAndSpawn i r ret := by
  cases outcome with
  | ok | error => exact .inr ⟨rfl, _, rfl⟩
  | wouldBlock | inProgress => exact .inl ⟨rfl, rfl⟩

theorem storeAndSpawn_worker (s : System τ ι) (i : ι) (r : Request τ) (ret : Except ErrorKind ℕ) :
    (s.storeAndSpawn i r ret).worker = s.worker := by
  unfold storeAndSpawn
  split <;> rfl

theorem perform_cases {i : ι} {r : Request τ} {outcome : Outcome}
    (h : s.perform i r outcome = some t) :
    r.mustWait s.worker.lastGottenTime outcome = true ∧ t = s.register i r ∨
      ∃ ret, t = s.storeAndSpawn i r ret := by
  unfold perform at h
  split at h
  case h_1 =>
    cases outcome with
    | ok | error => exact .inr ⟨_, (Option.some.inj h).symm⟩
    | wouldBlock => cases h
    | inProgress => cases h
  case h_2 c _ hkind =>
    split at h
    case isTrue => exact .inr ⟨_, (Option.some.inj h).symm⟩
    case isFalse hdue =>
      split at h
      case isTrue hpoll =>
        exact .inl ⟨by simp [Request.mustWait, hkind, hdue, hpoll], (Option.some.inj h).symm⟩
      case isFalse =>
        rw [← Option.some.inj h]
        refine (s.handleIoCall_cases i r outcome).imp ?_ And.right
        exact fun hwait => ⟨by simp [Request.mustWait, hkind, hdue, hwait.1], hwait.2⟩

/-- A request that was polled and whose socket has no error is done, or waits again; it is done as
if its task were running if its deadline has come or if it was tried again. -/
theorem processReady_cases (s : System τ ι) (i : ι) (r : Request τ) (outcome : Outcome) :
    (r.mustRetry && r.mustWait s.worker.lastGottenTime outcome) = true ∧
        s.processReady i r outcome = s.register i r ∨
      (∃ ret, s.processReady i r outcome = s.storeAndSchedule i r ret) ∨
      (r.isOverdue s.worker.lastGottenTime || r.mustRetry && outcome.isDone) = true ∧
        ∃ ret, s.processReady i r outcome = s.storeAndSpawn i r ret := by
  unfold processReady
  split
  case isTrue hoverdue => exact .inr (.inr ⟨by rw [hoverdue, Bool.true_or], _, rfl⟩)
  case isFalse hdue =>
    split
    case isTrue hretry =>
      rcases s.handleIoCall_cases i r outcome with ⟨hopen, hwait⟩ | ⟨hdone, hspawn⟩
      · refine .inl ⟨?_, hwait⟩
        rw [hretry, Bool.true_and]
        unfold Request.mustRetry at hretry
        unfold Request.mustWait
        split
        case h_1 hkind => simp [hkind] at hretry
        case h_2 => simp [hdue, hopen]
      · exact .inr (.inr ⟨by rw [hretry, hdone, Bool.and_true, Bool.or_true], hspawn⟩)
    case isFalse => exact .inr (.inl ⟨_, rfl⟩)

/-- A request that has to wait is in the poller then, or its registration fails. -/
theorem register_cases (s : System τ ι) (i : ι) (r : Request τ) :
    s.register i r = s.enroll i r ∨
      s.isOccupied r = true ∧ s.register i r = s.panic .registerFailed := by
  unfold register
  split
  case isTrue hoccupied => exact .inr ⟨hoccupied, rfl⟩
  case isFalse => exact .inl rfl

theorem storeAndSpawn_panicked (s : System τ ι) (i : ι) (r : Request τ)
    (ret : Except ErrorKind ℕ) : (s.storeAndSpawn i r ret).panicked = s.panicked := by
  unfold storeAndSpawn
  split <;> rfl

section Step

variable [DecidableEq τ]

theorem eq_of_resume {i : ι} (h : s.resume i = some t) :
    ∃ r, s.requests i = some r ∧ (r.isScheduled || s.isStray r.task) = true ∧
      t = (s.setWorker (s.worker.setQueue
        (s.worker.timeBoundedIoTaskQueue.deregisterAfter r.result r.deadline))).setRequest i
        { r with isResumed := true } := by
  unfold resume at h
  split at h
  case h_2 => cases h
  case h_1 r hr =>
    split at h
    case isFalse => cases h
    case isTrue hopen =>
      rw [Bool.and_eq_true] at hopen
      exact ⟨r, hr, hopen.1, (Option.some.inj h).symm⟩

/-- **What a step can do.** -/
inductive Effect (s : System τ ι) : Action τ ι → System τ ι → Prop
  | tick (nanos : ℕ) : Effect s (.tick nanos) { s with clock := s.clock + nanos }
  | startWait (i : ι) (task : τ) (isLocal : Bool) (kind : Kind) (deadline : Option ℕ)
      (outcome : Outcome) (r : Request τ) (hr : r = .new task isLocal kind deadline)
      (hnew : s.requests i = none) :
      Effect s (.start i task isLocal kind deadline outcome) ((s.enroll i r).endPoll r.task)
  | startPanic (i : ι) (task : τ) (isLocal : Bool) (kind : Kind) (deadline : Option ℕ)
      (outcome : Outcome)
      (hoccupies : s.occupies (.start i task isLocal kind deadline outcome) = true) :
      Effect s (.start i task isLocal kind deadline outcome) (s.panic .registerFailed)
  | startDone (i : ι) (task : τ) (isLocal : Bool) (kind : Kind) (deadline : Option ℕ)
      (outcome : Outcome) (r : Request τ) (ret : Except ErrorKind ℕ)
      (hr : r = .new task isLocal kind deadline)
      (hnew : s.requests i = none) :
      Effect s (.start i task isLocal kind deadline outcome)
        ((s.storeAndSpawn i r ret).endPoll r.task)
  | pending (u : τ) : Effect s (.pending u) (s.endPoll u)
  | resume (i : ι) (r : Request τ) (hr : s.requests i = some r)
      (hready : (r.isScheduled || s.isStray r.task) = true) :
      Effect s (.resume i)
        ((s.setWorker (s.worker.setQueue
          (s.worker.timeBoundedIoTaskQueue.deregisterAfter r.result r.deadline))).setRequest i
          { r with isResumed := true })
  | poll (events : List (ι × Bool)) (hidle : s.worker.phase = .idle)
      (hnodup : (events.map Prod.fst).Nodup)
      (hmem : ∀ i ∈ events.map Prod.fst, i ∈ s.worker.poller) :
      Effect s (.poll events)
        (s.setWorker { s.worker with
          poller := s.worker.poller.filter fun i => i ∉ events.map Prod.fst
          phase := .processing events events.length })
  | processEnd (outcome : Outcome) (len : ℕ) (hphase : s.worker.phase = .processing [] len) :
      Effect s (.process outcome) (s.setWorker (s.worker.endProcessing len s.clock))
  | processPanic (outcome : Outcome) (i : ι) (isReady : Bool) (polled : List (ι × Bool)) (len : ℕ)
      (r : Request τ) (p : Panic)
      (hphase : s.worker.phase = .processing ((i, isReady) :: polled) len)
      (hr : s.requests i = some r)
      (hfail : removal s.worker.timeBoundedIoTaskQueue r.deadline = none) :
      Effect s (.process outcome) (s.panic p)
  | processWait (outcome : Outcome) (i : ι) (polled : List (ι × Bool)) (len : ℕ) (r : Request τ)
      (q : TimeBoundedIoTaskQueue ι)
      (hphase : s.worker.phase = .processing ((i, true) :: polled) len)
      (hr : s.requests i = some r)
      (hq : removal s.worker.timeBoundedIoTaskQueue r.deadline = some q) :
      Effect s (.process outcome) ((s.popped q (.processing polled len)).enroll i r)
  | processOccupied (outcome : Outcome) (i : ι) (polled : List (ι × Bool)) (len : ℕ)
      (r : Request τ) (q : TimeBoundedIoTaskQueue ι)
      (hphase : s.worker.phase = .processing ((i, true) :: polled) len)
      (hr : s.requests i = some r)
      (hq : removal s.worker.timeBoundedIoTaskQueue r.deadline = some q)
      (hoccupies : s.occupies (.process outcome) = true) :
      Effect s (.process outcome) ((s.popped q (.processing polled len)).panic .registerFailed)
  | processSpawn (outcome : Outcome) (i : ι) (polled : List (ι × Bool)) (len : ℕ) (r : Request τ)
      (q : TimeBoundedIoTaskQueue ι) (ret : Except ErrorKind ℕ)
      (hphase : s.worker.phase = .processing ((i, true) :: polled) len)
      (hr : s.requests i = some r)
      (hq : removal s.worker.timeBoundedIoTaskQueue r.deadline = some q)
      (hdone : (r.isOverdue s.worker.lastGottenTime || r.mustRetry && outcome.isDone) = true) :
      Effect s (.process outcome) ((s.popped q (.processing polled len)).storeAndSpawn i r ret)
  | processSchedule (outcome : Outcome) (i : ι) (polled : List (ι × Bool)) (len : ℕ)
      (r : Request τ) (q : TimeBoundedIoTaskQueue ι) (ret : Except ErrorKind ℕ)
      (hphase : s.worker.phase = .processing ((i, true) :: polled) len)
      (hr : s.requests i = some r)
      (hq : removal s.worker.timeBoundedIoTaskQueue r.deadline = some q) :
      Effect s (.process outcome)
        ((s.popped q (.processing polled len)).storeAndSchedule i r ret)
  | processError (outcome : Outcome) (i : ι) (polled : List (ι × Bool)) (len : ℕ)
      (r : Request τ) (q : TimeBoundedIoTaskQueue ι)
      (hphase : s.worker.phase = .processing ((i, false) :: polled) len)
      (hr : s.requests i = some r)
      (hq : removal s.worker.timeBoundedIoTaskQueue r.deadline = some q) :
      Effect s (.process outcome)
        ((s.setWorker ((s.worker.setQueue q).setPhase
          (.processing polled len)).decrement).storeAndSchedule i r (.error .other))
  | checkEnd (hphase : s.worker.phase = .checking) :
      Effect s .check (s.setWorker (s.worker.setPhase .idle))
  | checkPanic (d : ℕ) (i : ι) (rest : TimeBoundedIoTaskQueue ι) (p : Panic)
      (hphase : s.worker.phase = .checking)
      (hpop : s.worker.timeBoundedIoTaskQueue.popFirst = some ((d, i), rest))
      (hmem : i ∉ s.worker.poller) : Effect s .check (s.panic p)
  | checkExpired (d : ℕ) (i : ι) (rest : TimeBoundedIoTaskQueue ι) (r : Request τ)
      (hphase : s.worker.phase = .checking)
      (hpop : s.worker.timeBoundedIoTaskQueue.popFirst = some ((d, i), rest))
      (hle : d ≤ s.worker.lastGottenTime) (hmem : i ∈ s.worker.poller)
      (hr : s.requests i = some r) :
      Effect s .check
        ((s.setWorker (s.worker.deregister i rest).decrement).storeAndSchedule i r
          (.error .timedOut))

theorem effect_of_process {outcome : Outcome} (h : s.process outcome = some t) :
    s.Effect (.process outcome) t := by
  unfold process at h
  split at h
  case h_1 len hphase => exact Option.some.inj h ▸ .processEnd outcome len hphase
  case h_2 i isReady polled len hphase =>
    obtain ⟨r, hr, rfl⟩ := Option.map_eq_some_iff.mp h
    unfold processOne
    rw [removeEntry_eq]
    cases hq : removal s.worker.timeBoundedIoTaskQueue r.deadline with
    | none =>
      cases isReady with
      | true => exact .processPanic outcome i true polled len r _ hphase hr hq
      | false => exact .processPanic outcome i false polled len r _ hphase hr hq
    | some q =>
      cases isReady with
      | true =>
        show s.Effect _ ((s.popped q (.processing polled len)).processReady i r outcome)
        rcases (s.popped q (.processing polled len)).processReady_cases i r outcome with
          ⟨hmust, hwait⟩ | ⟨ret, hschedule⟩ | ⟨hdone, ret, hspawn⟩
        · rw [hwait]
          rcases (s.popped q (.processing polled len)).register_cases i r with
            henroll | ⟨hoccupied, hfail⟩
          · exact henroll ▸ .processWait outcome i polled len r q hphase hr hq
          · refine hfail ▸ .processOccupied outcome i polled len r q hphase hr hq ?_
            have hsame : s.isOccupied r = true := hoccupied
            simp only [occupies, hphase, hr, Option.any_some, hsame, Bool.true_and]
            exact hmust
        · exact hschedule ▸ .processSchedule outcome i polled len r q ret hphase hr hq
        · exact hspawn ▸ .processSpawn outcome i polled len r q ret hphase hr hq hdone
      | false => exact .processError outcome i polled len r q hphase hr hq
  case h_3 => cases h

theorem effect_of_check (h : s.check = some t) : s.Effect .check t := by
  unfold check at h
  split at h
  case h_2 => cases h
  case h_1 hphase =>
    split at h
    case h_1 => exact Option.some.inj h ▸ .checkEnd hphase
    case h_2 d i rest hpop =>
      split at h
      case isTrue hle =>
        split at h
        case isTrue hmem =>
          obtain ⟨r, hr, rfl⟩ := Option.map_eq_some_iff.mp h
          exact .checkExpired d i rest r hphase hpop hle hmem hr
        case isFalse hmem => exact Option.some.inj h ▸ .checkPanic d i rest _ hphase hpop hmem
      case isFalse =>
        -- The entry is inserted again, and nothing has changed.
        have hback : rest.insert d i = s.worker.timeBoundedIoTaskQueue :=
          SortedMap.insert_popFirst hpop
        rw [hback] at h
        exact Option.some.inj h ▸ .checkEnd hphase

theorem panicked_of_step (h : s.step a = some t) : s.panicked = none :=
  Option.not_isSome_iff_eq_none.mp (Option.ite_none_left_eq_some.mp h).1

theorem effect_of_step (h : s.step a = some t) : s.Effect a t := by
  have hpanic := panicked_of_step h
  obtain ⟨-, h⟩ := Option.ite_none_left_eq_some.mp h
  cases a with
  | tick nanos => exact Option.some.inj h ▸ .tick nanos
  | start i task isLocal kind deadline outcome =>
    simp only [start] at h
    split at h
    case isTrue => cases h
    case isFalse hnew =>
      simp only [Bool.or_eq_true, not_or, Option.not_isSome_iff_eq_none] at hnew
      obtain ⟨u, hu, rfl⟩ := Option.map_eq_some_iff.mp h
      rcases perform_cases hu with ⟨hmust, rfl⟩ | ⟨ret, rfl⟩
      · rcases s.register_cases i (.new task isLocal kind deadline) with
          henroll | ⟨hoccupied, hfail⟩
        · have hnone : (s.enroll i (.new task isLocal kind deadline)).panicked = none := hpanic
          rw [henroll, if_neg (Option.not_isSome_iff_eq_none.mpr hnone)]
          exact .startWait i task isLocal kind deadline outcome _ rfl hnew.1
        · rw [hfail]
          refine .startPanic i task isLocal kind deadline outcome ?_
          simp only [occupies, hoccupied, hmust, Bool.and_self]
      · rw [if_neg (Option.not_isSome_iff_eq_none.mpr ((storeAndSpawn_panicked ..).trans hpanic))]
        exact .startDone i task isLocal kind deadline outcome _ ret rfl hnew.1
  | pending u => exact Option.some.inj h ▸ .pending u
  | resume i =>
    obtain ⟨r, hr, hready, rfl⟩ := eq_of_resume h
    exact .resume i r hr hready
  | poll events =>
    obtain ⟨w, hw, rfl⟩ := Option.map_eq_some_iff.mp h
    unfold Worker.poll at hw
    split at hw
    case isFalse => cases hw
    case isTrue hevents =>
      split at hw
      case h_1 hidle => exact Option.some.inj hw ▸ .poll events hidle hevents.2.1 hevents.2.2
      case h_2 => cases hw
  | process outcome => exact effect_of_process h
  | check => exact effect_of_check h

end Step

/-! ### The history of a request -/

/-- What the log has of a request. -/
def history (s : System τ ι) (i : ι) : List (Event τ ι) := s.log.filter fun e => e.request = i

/-- How far a request is. -/
inductive Status (s : System τ ι) (i : ι) : Prop
  /-- It was not started. -/
  | new (hr : s.requests i = none) (hwait : i ∉ s.worker.waiting) (hlog : s.history i = [])
  /-- It waits, and nothing has happened. -/
  | waiting (r : Request τ) (hr : s.requests i = some r) (hret : r.ret = none)
      (hopen : r.isScheduled = false) (hwait : i ∈ s.worker.waiting) (hlog : s.history i = [])
  /-- Its result was stored, and then its task was scheduled. -/
  | scheduled (r : Request τ) (ret : Except ErrorKind ℕ) (hr : s.requests i = some r)
      (hret : r.ret = some ret) (hwait : i ∉ s.worker.waiting)
      (hlog : s.history i = [.stored i, .scheduled i r.task])

/-- The worker with its requests while no call is left over. -/
structure Scheduled (s : System τ ι) : Prop where
  call : s.currentCall = none
  nodup : s.worker.waiting.Nodup
  status (i : ι) : s.Status i

theorem history_of_log {l : List (Event τ ι)} (hlog : t.log = s.log ++ l) {i j : ι}
    (hl : ∀ e ∈ l, e.request = i) (hj : j ≠ i) : t.history j = s.history j := by
  have hnone : l.filter (fun e => e.request = j) = [] := by
    apply List.filter_eq_nil_iff.mpr
    intro e he hej
    exact hj ((decide_eq_true_iff.mp hej).symm.trans (hl e he))
  unfold history
  rw [hlog, List.filter_append, hnone, List.append_nil]

theorem Status.congr {j : ι} (h : s.Status j) (hr : t.requests j = s.requests j)
    (hwait : j ∈ t.worker.waiting ↔ j ∈ s.worker.waiting) (hlog : t.history j = s.history j) :
    t.Status j := by
  cases h with
  | new hr' hwait' hlog' =>
    exact .new (hr.trans hr') (mt hwait.mp hwait') (hlog.trans hlog')
  | waiting r hr' hret hopen hwait' hlog' =>
    exact .waiting r (hr.trans hr') hret hopen (hwait.mpr hwait') (hlog.trans hlog')
  | scheduled r ret hr' hret hwait' hlog' =>
    exact .scheduled r ret (hr.trans hr') hret (mt hwait.mp hwait') (hlog.trans hlog')

theorem Status.history_eq_nil {i : ι} (h : s.Status i) (hopen : ∀ r, s.requests i = some r →
    r.ret = none) : s.history i = [] := by
  cases h with
  | new _ _ hlog => exact hlog
  | waiting _ _ _ _ _ hlog => exact hlog
  | scheduled r ret hr hret =>
    rw [hopen r hr] at hret
    cases hret

namespace Scheduled

theorem open_of_waiting (h : s.Scheduled) {i : ι} (hwait : i ∈ s.worker.waiting) {r : Request τ}
    (hr : s.requests i = some r) : r.ret = none ∧ r.isScheduled = false := by
  cases h.status i with
  | new hr' => rw [hr] at hr'; cases hr'
  | waiting r' hr' hret hopen =>
    obtain rfl : r = r' := Option.some.inj (hr.symm.trans hr')
    exact ⟨hret, hopen⟩
  | scheduled _ _ _ _ hnot => exact absurd hwait hnot

theorem not_mem_waiting (h : s.Scheduled) {i : ι} (hnew : s.requests i = none) :
    i ∉ s.worker.waiting := by
  cases h.status i with
  | new _ hwait => exact hwait
  | waiting _ hr | scheduled _ _ hr => rw [hnew] at hr; cases hr

theorem keep (h : s.Scheduled) (hcall : t.currentCall = none) (hr : t.requests = s.requests)
    (hlog : t.log = s.log) (hperm : t.worker.waiting.Perm s.worker.waiting) : t.Scheduled where
  call := hcall
  nodup := hperm.nodup_iff.mpr h.nodup
  status i := (h.status i).congr (congrFun hr i) hperm.mem_iff (by unfold history; rw [hlog])

theorem wait (h : s.Scheduled) {i : ι} {r : Request τ} (hcall : t.currentCall = none)
    (hr : t.requests = Function.update s.requests i (some r)) (hlog : t.log = s.log)
    (hr' : r.ret = none ∧ r.isScheduled = false)
    (hopen : ∀ r', s.requests i = some r' → r'.ret = none)
    (hnodup : t.worker.waiting.Nodup)
    (hwait : ∀ j, j ∈ t.worker.waiting ↔ j = i ∨ j ∈ s.worker.waiting) : t.Scheduled where
  call := hcall
  nodup := hnodup
  status j := by
    have hhistory : t.history j = s.history j := by unfold history; rw [hlog]
    by_cases hj : j = i
    · subst hj
      have hset : t.requests j = some r := by rw [hr, Function.update_self]
      exact .waiting r hset hr'.1 hr'.2 ((hwait j).mpr (.inl rfl))
        (hhistory.trans ((h.status j).history_eq_nil hopen))
    · exact (h.status j).congr (by rw [hr, Function.update_of_ne hj])
        ((hwait j).trans (or_iff_right hj)) hhistory

theorem schedule (h : s.Scheduled) {i : ι} {r : Request τ} {ret : Except ErrorKind ℕ}
    (hcall : t.currentCall = none)
    (hr : t.requests = Function.update s.requests i (some r))
    (hlog : t.log = s.log ++ [.stored i, .scheduled i r.task])
    (hret : r.ret = some ret) (hopen : ∀ r', s.requests i = some r' → r'.ret = none)
    (hnodup : t.worker.waiting.Nodup)
    (hwait : ∀ j, j ∈ t.worker.waiting ↔ j ≠ i ∧ j ∈ s.worker.waiting) : t.Scheduled where
  call := hcall
  nodup := hnodup
  status j := by
    by_cases hj : j = i
    · subst hj
      have hset : t.requests j = some r := by rw [hr, Function.update_self]
      have hhistory : t.history j = [.stored j, .scheduled j r.task] := by
        have hnone : s.log.filter (fun e => e.request = j) = [] :=
          (h.status j).history_eq_nil hopen
        unfold history
        rw [hlog, List.filter_append, hnone]
        simp [Event.request]
      exact .scheduled r ret hset hret (fun hmem => ((hwait j).mp hmem).1 rfl) hhistory
    · refine (h.status j).congr (by rw [hr, Function.update_of_ne hj])
        ((hwait j).trans (and_iff_right hj)) (history_of_log hlog ?_ hj)
      simp [Event.request]

/-- Nobody is pushed because of the request of another task. -/
theorem isStray_eq_false [DecidableEq τ] (h : s.Scheduled) (u : τ) : s.isStray u = false := by
  apply List.any_eq_false.mpr
  intro e he
  cases e with
  | stored i => exact Bool.false_ne_true
  | scheduled i v =>
    have hmem : Event.scheduled i v ∈ s.history i :=
      List.mem_filter.mpr ⟨he, decide_eq_true rfl⟩
    cases h.status i with
    | new _ _ hlog | waiting _ _ _ _ _ hlog =>
      rw [hlog] at hmem
      cases hmem
    | scheduled r ret hr hret hwait hlog =>
      rw [hlog] at hmem
      obtain rfl : v = r.task := by simpa using hmem
      simp only [hr, Option.any_some, Bool.and_eq_true, decide_eq_true_eq]
      exact fun hstray => hstray.2 hstray.1

/-- A future that is resumed has its result. -/
theorem exists_ret [DecidableEq τ] (h : s.Scheduled) {i : ι} {r : Request τ}
    (hr : s.requests i = some r) (hready : (r.isScheduled || s.isStray r.task) = true) :
    ∃ ret, r.ret = some ret ∧ i ∉ s.worker.waiting := by
  rw [h.isStray_eq_false, Bool.or_false] at hready
  cases h.status i with
  | new hr' => rw [hr] at hr'; cases hr'
  | waiting r' hr' _ hopen =>
    obtain rfl : r = r' := Option.some.inj (hr.symm.trans hr')
    rw [hready] at hopen
    cases hopen
  | scheduled r' ret hr' hret hwait =>
    obtain rfl : r = r' := Option.some.inj (hr.symm.trans hr')
    exact ⟨ret, hret, hwait⟩

end Scheduled

/-- The requests that are polled go from the poller to the worker. -/
theorem perm_of_polled {l polled : List ι} (hl : l.Nodup) (hpolled : polled.Nodup)
    (hmem : ∀ i ∈ polled, i ∈ l) : (l.filter (fun i => i ∉ polled) ++ polled).Perm l := by
  apply (List.perm_ext_iff_of_nodup ?_ hl).mpr
  · intro j
    rw [List.mem_append, List.mem_filter, decide_eq_true_eq]
    constructor
    · rintro (hj | hj)
      · exact hj.1
      · exact hmem j hj
    · intro hj
      by_cases hjp : j ∈ polled
      · exact .inr hjp
      · exact .inl ⟨hj, hjp⟩
  · apply (hl.filter _).append hpolled
    intro j hj hjp
    exact of_decide_eq_true (List.mem_filter.mp hj).2 hjp

theorem perm_waiting_of_poll {w : Worker ι} (hidle : w.phase = .idle) (hnodup : w.waiting.Nodup)
    {events : List (ι × Bool)} (hdistinct : (events.map Prod.fst).Nodup)
    (hmem : ∀ i ∈ events.map Prod.fst, i ∈ w.poller) :
    (w.poller.filter (fun i => i ∉ events.map Prod.fst) ++ events.map Prod.fst).Perm
      w.waiting := by
  have hwaiting : w.waiting = w.poller := Worker.waiting_of_polled (by rw [hidle]; rfl)
  rw [hwaiting] at hnodup ⊢
  exact perm_of_polled hnodup hdistinct hmem

theorem scheduled_init (now : ℕ) : (init now : System τ ι).Scheduled where
  call := rfl
  nodup := List.nodup_nil
  status _ := .new rfl List.not_mem_nil rfl

section Run

variable [DecidableEq τ]

theorem endPoll_of_call (hcall : s.currentCall = none) (u : τ) : s.endPoll u = s := by
  unfold endPoll
  rw [hcall]

/-- The task that runs is pushed when its poll returns, as if it had been spawned. -/
theorem endPoll_storeAndSpawn (hcall : s.currentCall = none) (i : ι) (r : Request τ)
    (ret : Except ErrorKind ℕ) :
    (s.storeAndSpawn i r ret).endPoll r.task = s.storeAndSchedule i r ret := by
  unfold storeAndSpawn
  split
  case isTrue => exact endPoll_of_call (s := s.storeAndSchedule i r ret) hcall r.task
  case isFalse =>
    unfold storeAndInvokeCall storeAndSchedule endPoll
    simp [hcall]

theorem Scheduled.step (h : s.Scheduled) (hinvoke : s.invokesCall a = false)
    (hstep : s.step a = some t) (hpanic : t.panicked = none) : t.Scheduled := by
  cases effect_of_step hstep with
  | tick => exact h.keep h.call rfl rfl (.refl _)
  | startPanic | processPanic | processOccupied | checkPanic => cases hpanic
  | startWait i task isLocal kind deadline outcome r hr hnew =>
    rw [endPoll_of_call (s := s.enroll i r) h.call]
    have hperm := s.worker.waiting_register i r.deadline
    refine h.wait h.call rfl rfl (by rw [hr]; exact ⟨rfl, rfl⟩) (by simp [hnew]) ?_ fun j =>
      hperm.mem_iff.trans List.mem_cons
    exact hperm.nodup_iff.mpr (List.nodup_cons.mpr ⟨h.not_mem_waiting hnew, h.nodup⟩)
  | startDone i task isLocal kind deadline outcome r ret hr hnew =>
    rw [endPoll_storeAndSpawn h.call]
    refine h.schedule h.call rfl rfl rfl (by simp [hnew]) h.nodup fun j => ?_
    have hnot : i ∉ s.worker.waiting := h.not_mem_waiting hnew
    exact (and_iff_right_of_imp fun hj (hji : j = i) => hnot (hji ▸ hj)).symm
  | pending u =>
    rw [endPoll_of_call h.call]
    exact h
  | resume i r hr hready =>
    -- The request keeps its result and its task.
    refine ⟨h.call, h.nodup, fun j => ?_⟩
    by_cases hj : j = i
    · subst hj
      obtain ⟨-, -, hnot⟩ := h.exists_ret hr hready
      cases h.status j with
      | new hr' => rw [hr] at hr'; cases hr'
      | waiting _ _ _ _ hwait => exact absurd hwait hnot
      | scheduled r' ret' hr' hret' hwait hlog =>
        obtain rfl : r = r' := Option.some.inj (hr.symm.trans hr')
        exact .scheduled _ ret' (Function.update_self ..) hret' hwait hlog
    · exact (h.status j).congr (Function.update_of_ne hj ..) Iff.rfl rfl
  | poll events hidle hnodup hmem =>
    refine h.keep h.call rfl rfl ?_
    exact perm_waiting_of_poll hidle h.nodup hnodup hmem
  | processEnd _ _ hphase | checkEnd hphase =>
    refine h.keep h.call rfl rfl ?_
    unfold Worker.waiting
    rw [hphase]
    exact .refl _
  | processWait outcome i polled len r q hphase hr hq =>
    obtain ⟨hi, hnodup, hmem⟩ := Worker.taken h.nodup hphase
    have hperm := (s.popped q (.processing polled len)).worker.waiting_register i r.deadline
    have hopen : r.ret = none ∧ r.isScheduled = false := h.open_of_waiting hi hr
    refine h.wait h.call rfl rfl hopen (fun _ hr' => (h.open_of_waiting hi hr').1) ?_ fun j => ?_
    · exact hperm.nodup_iff.mpr
        (List.nodup_cons.mpr ⟨fun hmem' => ((hmem i).mp hmem').1 rfl, hnodup⟩)
    · refine (hperm.mem_iff.trans List.mem_cons).trans ((or_congr_right (hmem j)).trans ?_)
      exact or_and_left.trans (and_iff_right (em (j = i)))
  | processSpawn outcome i polled len r q ret hphase hr hq hdone =>
    obtain ⟨hi, hnodup, hmem⟩ := Worker.taken h.nodup hphase
    have hlocal := isLocal_of_not_invokesCall hinvoke hphase hr hdone
    unfold storeAndSpawn
    rw [if_pos hlocal]
    exact h.schedule h.call rfl rfl rfl (fun _ hr' => (h.open_of_waiting hi hr').1) hnodup hmem
  | processSchedule _ _ _ _ _ _ _ hphase | processError _ _ _ _ _ _ hphase =>
    obtain ⟨hi, hnodup, hmem⟩ := Worker.taken h.nodup hphase
    exact h.schedule h.call rfl rfl rfl (fun _ hr' => (h.open_of_waiting hi hr').1) hnodup hmem
  | checkExpired d i rest r hphase hpop hle hmem hr =>
    have hi : i ∈ s.worker.waiting := List.mem_append_left _ hmem
    have hpolled : s.worker.phase.polled = [] := by rw [hphase]; rfl
    obtain ⟨hnodup, hmem⟩ := Worker.waiting_deregister h.nodup hpolled i rest
    exact h.schedule h.call rfl rfl rfl (fun _ hr' => (h.open_of_waiting hi hr').1) hnodup hmem

/-! ### The number of active tasks -/

theorem endPoll_worker (s : System τ ι) (u : τ) : (s.endPoll u).worker = s.worker := by
  unfold endPoll
  split <;> rfl

/-- **One step**, of a request whose socket has no error. -/
theorem counted_step (hcount : s.worker.Counted) (hwaiting : s.worker.waiting.Nodup)
    (herror : s.reportsError a = false) (hstep : s.step a = some t) : t.worker.Counted := by
  cases effect_of_step hstep with
  | tick | resume | startPanic | processPanic | checkPanic => exact hcount
  | processOccupied outcome i polled len r q hphase => exact hcount.popped hphase q
  | startWait i task isLocal kind deadline outcome r =>
    rw [endPoll_worker]
    exact hcount.register i r.deadline
  | startDone i task isLocal kind deadline outcome r ret =>
    rw [endPoll_worker, storeAndSpawn_worker]
    exact hcount
  | pending u =>
    rw [endPoll_worker]
    exact hcount
  | poll events hidle hnodup hmem =>
    have hlength := (perm_waiting_of_poll hidle hwaiting hnodup hmem).length_eq
    rw [Worker.waiting_of_polled (by rw [hidle]; rfl), List.length_append, List.length_map]
      at hlength
    unfold Worker.Counted at hcount ⊢
    rw [hidle] at hcount
    exact hcount.trans (congrArg UInt64.ofNat hlength.symm)
  | processEnd outcome len hphase =>
    unfold Worker.Counted at hcount
    rw [hphase] at hcount
    show s.worker.numberOfActiveTasks - UInt64.ofNat len = UInt64.ofNat s.worker.poller.length
    rw [hcount, UInt64.ofNat_add]
    exact UInt64.add_sub_cancel _ _
  | processWait outcome i polled len r q hphase =>
    exact (hcount.popped hphase q).register i r.deadline
  | processSpawn outcome i polled len r q ret hphase =>
    rw [storeAndSpawn_worker]
    exact hcount.popped hphase q
  | processSchedule outcome i polled len r q ret hphase => exact hcount.popped hphase q
  | processError outcome i polled len r q hphase =>
    simp [reportsError, hphase] at herror
  | checkEnd hphase =>
    unfold Worker.Counted at hcount
    rw [hphase] at hcount
    exact hcount
  | checkExpired d i rest r hphase hpop hle hmem =>
    have hnodup : s.worker.poller.Nodup := hwaiting.sublist (List.sublist_append_left ..)
    have hlength : (s.worker.poller.filter fun j => j ≠ i).length + 1 = s.worker.poller.length :=
      (perm_cons_filter (f := id) (by rwa [List.map_id]) hmem).length_eq
    unfold Worker.Counted at hcount
    rw [hphase, ← hlength] at hcount
    show s.worker.numberOfActiveTasks - 1 =
      UInt64.ofNat ((s.worker.poller.filter fun j => j ≠ i).length + s.worker.phase.len)
    rw [hcount, hphase]
    show UInt64.ofNat (_ + 1) - 1 = _
    rw [UInt64.ofNat_add]
    exact UInt64.add_sub_cancel _ _

end Run

end System

end Orengine.Io.Fallback
