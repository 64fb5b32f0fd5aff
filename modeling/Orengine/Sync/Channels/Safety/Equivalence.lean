import Orengine.Sync.Channels.Safety.LocalRefinement
import Orengine.Sync.Channels.Safety.SharedRefinement

/-!
# `LocalChannel` and `Channel` behave alike

Both channels refine the sequential channel (`LocalRefinement`, `SharedRefinement`), so that when no
task is left to run both show what it shows after the same operations.  `same_behaviour` adds that
such states exist: each channel has a measure of the work that is left for the tasks that have been
served, and a step that lowers it (`LocalChannel.exists_idle`, `Channel.exists_quiet`).
-/

namespace Orengine.Sync

open Orengine.Runtime Orengine.Lib

variable {τ V : Type*} [DecidableEq τ]

/-! ### Runs of a `LocalChannel` -/

namespace LocalChannel

variable {c : LocalChannel τ V} {e : Calls τ V} {t : τ} {k : Place τ V}

/-- A bound for the steps that a task at this place has before it, those of the tasks that it will
execute included. -/
def Place.work : Place τ V → ℕ
  | .poll => 3
  | .user => 1
  | .finish _ => 2
  | .closeSenders rest => 5 * rest.length + 3
  | .closeReceivers rest => 5 * rest.length + 2

/-- The work that an outcome leaves, with the task that it executes. -/
def outcomeWork : Outcome τ (Place τ V) → ℕ
  | .goto k => k.work
  | .execTask _ k => k.work + 4
  | .spawnLocalTask _ k => k.work + 4
  | .yieldNow => 4
  | .returned => 0

/-- The work that is left: the receivers in the queue count, since a `close` in progress will drain
them. -/
def work (e : Calls τ V) : ℕ :=
  (e.stack.map fun f => f.2.work).sum + 4 * e.localTasks.length +
    5 * e.state.memory.1.receivers.length

theorem work_go (c : LocalChannel τ V) (t : τ) (hk : k ≠ .user)
    (htold : k = .poll → ∀ w, c.waiting t = some w → ¬w.IsFirstCall) :
    ∃ r, c.code t k .go = some r ∧
      5 * r.1.receivers.length + outcomeWork r.2 < 5 * c.receivers.length + k.work := by
  cases k with
  | poll =>
    refine ⟨_, rfl, ?_⟩
    cases hw : c.waiting t with
    | none =>
      have heq : c.poll t = (c, .goto .user) := by simp only [poll, hw]
      rw [heq]
      show 5 * c.receivers.length + 1 < 5 * c.receivers.length + 3
      omega
    | some w =>
      rw [poll_of_told hw (htold rfl w hw)]
      show 5 * c.receivers.length + 1 < 5 * c.receivers.length + 3
      omega
  | user => exact absurd rfl hk
  | finish r =>
    refine ⟨_, rfl, ?_⟩
    exact Nat.lt_succ_self _
  | closeSenders l =>
    cases l with
    | nil =>
      refine ⟨_, rfl, ?_⟩
      simp only [outcomeWork, Place.work, List.length_nil]
      omega
    | cons x l =>
      refine ⟨_, rfl, ?_⟩
      simp only [outcomeWork, Place.work, List.length_cons, writeSendState]
      omega
  | closeReceivers l =>
    cases l with
    | nil =>
      refine ⟨_, rfl, ?_⟩
      exact Nat.lt_succ_self _
    | cons x l =>
      refine ⟨_, rfl, ?_⟩
      simp only [outcomeWork, Place.work, List.length_cons, writeRecvState]
      omega

theorem work_execTask (e : Calls τ V) (u : τ) :
    work (e.execTask called.program u) ≤ work e + 4 := by
  unfold Executor.execTask
  split_ifs
  · simp only [work, Executor.execTaskNow, List.map_cons, List.sum_cons]
    have hpoll : (called (τ := τ) (V := V)).program.entry.work = 3 := rfl
    omega
  · simp only [work, Executor.spawnLocalTask, List.length_append, List.length_singleton]
    omega

/-- The work that is left after the code of the innermost poll. -/
theorem work_afterCode (e : Calls τ V) (t : τ) (rest : List (τ × Place τ V))
    (w : World τ (LocalChannel τ V × List (τ × Channel.Op V))) (o : Outcome τ (Place τ V)) :
    work (e.afterCode called.program t rest w o) ≤
      (rest.map fun f => f.2.work).sum + outcomeWork o + 4 * e.localTasks.length +
        5 * w.memory.1.receivers.length := by
  cases o with
  | goto k =>
    simp only [Executor.afterCode, work, outcomeWork, List.map_cons, List.sum_cons]
    omega
  | execTask u k =>
    have hle := work_execTask ({ e with state := w, stack := (t, k) :: rest } : Calls τ V) u
    simp only [work, outcomeWork, List.map_cons, List.sum_cons] at hle ⊢
    simp only [Executor.afterCode]
    omega
  | spawnLocalTask u k =>
    simp only [Executor.afterCode, work, outcomeWork, Executor.spawnLocalTask, List.map_cons,
      List.sum_cons, List.length_append, List.length_singleton]
    omega
  | yieldNow =>
    simp only [Executor.afterCode, work, outcomeWork, List.length_cons]
    omega
  | returned =>
    simp only [Executor.afterCode, work, outcomeWork]
    omega

theorem step_op {c' : LocalChannel τ V} {op : Op V} {o : Outcome τ (Place τ V)}
    {rest : List (τ × Place τ V)} (hs : e.stack = (t, k) :: rest)
    (hcode : e.state.memory.1.code t k op = some (c', o)) :
    e.step called.program (.code (.op op)) = some (e.afterCode called.program t rest
      { e.state with memory := (c', noteCall e.state.memory.1 t k op e.state.memory.2) } o) := by
  simp only [Executor.step, hs, Primitive.program, Primitive.taskCode, Primitive.record, primitive,
    hcode, Option.map_some]

/-- One step of the innermost poll: the task's own code ends, and an operation goes on. -/
theorem exists_less_of_stack {capacity : ℕ} (h : called.Reaches (bounded capacity, []) e)
    {rest : List (τ × Place τ V)} (hs : e.stack = (t, k) :: rest) :
    ∃ e', called.Reaches (bounded capacity, []) e' ∧
      (e'.state.memory.2 = e.state.memory.2 ∧ e'.state.away = e.state.away) ∧ work e' < work e := by
  by_cases hk : k = .user
  · subst hk
    have hstep : e.step called.program (.code .exit) =
        some (e.afterCode called.program t rest e.state .returned) := by
      simp [Executor.step, hs, Primitive.program, Primitive.taskCode, Primitive.record, primitive,
        Place.isUser]
    refine ⟨_, .next h trivial hstep, ⟨rfl, rfl⟩, ?_⟩
    simp only [work, Executor.afterCode, hs, List.map_cons, List.sum_cons, Place.work]
    omega
  · have htidy := (refines_of_reaches capacity h).tidy
    have howned := owned_of_total (total_le_one_of_reaches h) hs
    obtain ⟨r, hcode, hless⟩ := work_go e.state.memory.1 t hk (by
      rintro rfl w hw
      exact htidy.told_of_poll hs howned hw)
    refine ⟨_, .next h trivial (step_op hs hcode), ?_, ?_⟩
    · rw [Executor.afterCode_state]
      exact ⟨List.append_nil _, rfl⟩
    · refine (work_afterCode ..).trans_lt ?_
      simp only [work, hs, List.map_cons, List.sum_cons]
      omega

/-- **The tasks that have been served can run**: from every state the executor can come to one where
no task is left to run, without another operation. -/
theorem exists_idle {capacity : ℕ} (h : called.Reaches (bounded capacity, []) e) :
    ∃ e', called.Reaches (bounded capacity, []) e' ∧
      (e'.state.memory.2 = e.state.memory.2 ∧ e'.state.away = e.state.away) ∧
      e'.stack = [] ∧ e'.localTasks = [] := by
  refine Reach.exists_of_measure (I := fun e' : Calls τ V => e'.state.memory.2 = e.state.memory.2 ∧
    e'.state.away = e.state.away) work ?_ h ⟨rfl, rfl⟩
  rintro e₁ h₁ ⟨hlog, haway⟩ hbusy
  cases hs : e₁.stack with
  | cons f rest =>
    obtain ⟨e₂, h₂, ⟨hlog', haway'⟩, hless⟩ := exists_less_of_stack h₁ hs
    exact ⟨e₂, h₂, ⟨hlog'.trans hlog, haway'.trans haway⟩, hless⟩
  | nil =>
    -- A new round starts, so that the last task in the queue is polled.
    obtain ⟨tasks, t, htasks⟩ : ∃ tasks t, e₁.localTasks = tasks ++ [t] :=
      (List.eq_nil_or_concat' _).resolve_left fun hnil => hbusy ⟨hs, hnil⟩
    have hround : e₁.step called.program .newRound = some { e₁ with execSeries := 0 } := by
      simp only [Executor.step, hs]
    have hpop : ({ e₁ with execSeries := 0 } : Calls τ V).step called.program .popBack =
        some (({ e₁ with execSeries := 0, localTasks := tasks } : Calls τ V).execTaskNow
          called.program t) := by
      simp [Executor.step, hs, htasks, Executor.execTask]
    refine ⟨_, .next (.next h₁ trivial hround) trivial hpop, ⟨hlog, haway⟩, ?_⟩
    have hpoll : (called (τ := τ) (V := V)).program.entry.work = 3 := rfl
    simp only [work, Executor.execTaskNow, hs, htasks, List.map_cons, List.map_nil, List.sum_cons,
      List.sum_nil, List.length_append, List.length_singleton]
    omega

/-- The code for an operation. -/
def Op.ofCall : Channel.Op V → Op V
  | .send v => .send v
  | .recv => .recv
  | .trySend v => .trySend v
  | .tryRecvIn => .tryRecvIn
  | .close => .close

theorem called_ofCall (op : Channel.Op V) : (Op.ofCall op).called = some op := by
  cases op <;> rfl

theorem exists_code_ofCall (c : LocalChannel τ V) (t : τ) (op : Channel.Op V) :
    ∃ c' o, c.code t .user (Op.ofCall op) = some (c', o) := by
  cases op <;> exact ⟨_, _, rfl⟩

theorem waiting_of_away {capacity : ℕ} (h : called.Reaches (bounded capacity, []) e)
    (hstack : e.stack = []) (htasks : e.localTasks = []) (haway : e.state.away t = true) :
    e.state.memory.1.waiting t = none := by
  have htotal := total_le_one_of_reaches h t
  by_contra hne
  obtain ⟨w, hw⟩ := Option.ne_none_iff_exists'.mp hne
  rcases (refines_of_reaches capacity h).tidy.accounted t w hw with hmem | ⟨f, hf, -⟩ | ⟨hu | hu, -⟩
  · have hpos : 0 < holds e.state.memory.1 t := holds_pos_of_parked hmem
    simp only [Ownership.total, Custody.ownership, Custody.worldHolds, Custody.record, custody,
      haway, Bool.toNat_true] at htotal
    omega
  · rw [hstack] at hf
    cases hf
  · rw [htasks] at hu
    cases hu
  · rw [hstack] at hu
    cases hu

theorem exists_call {capacity : ℕ} (h : called.Reaches (bounded capacity, []) e)
    (hstack : e.stack = []) (htasks : e.localTasks = []) (haway : e.state.away t = true)
    (op : Channel.Op V) :
    ∃ e', called.Reaches (bounded capacity, []) e' ∧
      e'.state.memory.2 = e.state.memory.2 ++ [(t, op)] ∧
      e'.state.away = Function.update e.state.away t false := by
  have hwaiting := waiting_of_away h hstack htasks haway
  set w : World τ (LocalChannel τ V × List (τ × Channel.Op V)) :=
    { e.state with away := Function.update e.state.away t false } with hw
  have hround : e.step called.program .newRound = some { e with execSeries := 0 } := by
    simp only [Executor.step, hstack]
  have hwake : ({ e with execSeries := 0 } : Calls τ V).step called.program (.wake t) =
      some (({ e with state := w, execSeries := 0 } : Calls τ V).execTaskNow called.program t) := by
    simp [Executor.step, hstack, Primitive.program, haway, Executor.execTask, hw]
  have h₁ := Reach.next (Reach.next h trivial hround) trivial hwake
  -- The task awaits no future, so that its own code runs.
  have hpoll : w.memory.1.code t .poll .go = some (w.memory.1, .goto .user) := by
    show some (w.memory.1.poll t) = _
    simp only [poll, hw, hwaiting]
  have h₂ := Reach.next h₁ trivial (step_op rfl hpoll)
  obtain ⟨c', o, hcode⟩ := exists_code_ofCall w.memory.1 t op
  have h₃ := Reach.next h₂ trivial (step_op rfl hcode)
  refine ⟨_, h₃, ?_, ?_⟩
  · rw [Executor.afterCode_state]
    show noteCall w.memory.1 t .user (Op.ofCall op) (e.state.memory.2 ++ []) =
      e.state.memory.2 ++ [(t, op)]
    rw [noteCall, called_ofCall, List.append_nil]
    rfl
  · rw [Executor.afterCode_state]
    rfl

/-- **Every sequence of operations can be run** on a `LocalChannel`, each made by a task of its own,
until no task is left to run. -/
theorem exists_run (capacity : ℕ) (ops : List (τ × Channel.Op V))
    (hnodup : (ops.map Prod.fst).Nodup) :
    ∃ e : Calls τ V, called.Reaches (bounded capacity, []) e ∧ e.state.memory.2 = ops ∧
      (e.stack = [] ∧ e.localTasks = []) ∧
      ∀ t, t ∉ ops.map Prod.fst → e.state.away t = true := by
  induction ops using List.reverseRecOn with
  | nil => exact ⟨_, .start, rfl, ⟨rfl, rfl⟩, fun _ _ => rfl⟩
  | append_singleton ops x ih =>
    obtain ⟨t, op⟩ := x
    rw [List.map_append, List.nodup_append] at hnodup
    obtain ⟨hops, -, hnew⟩ := hnodup
    have ht : t ∉ ops.map Prod.fst := fun hmem => hnew t hmem t (by simp) rfl
    obtain ⟨e, hreach, hlog, ⟨hstack, htasks⟩, haway⟩ := ih hops
    obtain ⟨e₁, h₁, hlog₁, haway₁⟩ := exists_call hreach hstack htasks (haway t ht) op
    obtain ⟨e₂, h₂, ⟨hlog₂, haway₂⟩, hidle⟩ := exists_idle h₁
    refine ⟨e₂, h₂, ?_, hidle, fun u hu => ?_⟩
    · rw [hlog₂, hlog₁, hlog]
    · rw [List.map_append, List.mem_append, not_or] at hu
      have hut : u ≠ t := by simpa using hu.2
      rw [haway₂, haway₁, Function.update_of_ne hut, haway u hu.1]

end LocalChannel

/-! ### Runs of a `Channel` -/

namespace Channel

variable {s s' : Channel τ V} {t : τ} {x : Channel τ V × List (τ × Op V)}

omit [DecidableEq τ] in
/-- A task to which an answer is due is not at the start of an operation. -/
theorem called_eq_none_of_due {k : Pc τ V} {res : OpResult V} (h : k.due = some [res]) :
    k.called = none ∧ k ≠ .idle := by
  cases k with
  | idle | send | recv | trySend | tryRecvIn | close => cases h
  | sendParked | recvParked | copyTo | tellReceiver | execReceiver | copyFrom | tellSender
  | execSender => exact ⟨rfl, nofun⟩

omit [DecidableEq τ] in
theorem called_eq_none_of_parked {k : Pc τ V} (h : k.parked = 1) :
    k.called = none ∧ k ≠ .idle ∧ k.work = 0 := by
  cases k with
  | sendParked | recvParked => exact ⟨rfl, nofun, rfl⟩
  | _ => cases h

/-- A task inside an operation that is not parked has a next step. -/
theorem exists_unlocked (hcalled : (s.pc t).called = none) (hidle : s.pc t ≠ .idle)
    (hparked : (s.pc t).parked ≠ 1) : ∃ s', s.unlocked t = some s' := by
  unfold unlocked
  cases hpc : s.pc t with
  | idle => exact absurd hpc hidle
  | send | recv | trySend | tryRecvIn | close =>
    rw [hpc] at hcalled
    cases hcalled
  | sendParked | recvParked =>
    rw [hpc] at hparked
    exact absurd rfl hparked
  | copyTo | tellReceiver | execReceiver | copyFrom | tellSender | execSender => exact ⟨_, rfl⟩

/-- Nobody is at the start of an operation, and whoever is not in `busy` is in no operation. -/
structure Between (busy : τ → Prop) (s : Channel τ V) : Prop where
  called : ∀ t, (s.pc t).called = none
  idle : ∀ t, ¬busy t → s.pc t = .idle

variable {busy : τ → Prop}

theorem Between.update (h : Between busy s) {k : Pc τ V} (hidle : s.pc t ≠ .idle)
    (hk : k.called = none) : Between busy (s.goto t k) := by
  refine ⟨fun u => ?_, fun u hu => ?_⟩
  · by_cases hut : u = t
    · subst hut
      show (Function.update s.pc u k u).called = none
      rw [Function.update_self, hk]
    · show (Function.update s.pc t k u).called = none
      rw [Function.update_of_ne hut, h.called u]
  · have hut : u ≠ t := by
      rintro rfl
      exact hidle (h.idle u hu)
    show Function.update s.pc t k u = .idle
    rw [Function.update_of_ne hut, h.idle u hu]

theorem pc_recvStored (s : Channel τ V) (t : τ) (y : V) (ys : List V) (op : Receiving) :
    ∃ k, (s.recvStored t y ys op).pc = Function.update s.pc t k ∧ k.called = none := by
  unfold recvStored
  split <;> exact ⟨_, rfl, rfl⟩

theorem pc_pushLocked (s : Channel τ V) (t : τ) (v : V) (closed : OpResult V) (op : Sending)
    {full : Channel τ V}
    (hfull : ∃ k, full.pc = Function.update s.pc t k ∧ k.called = none) :
    ∃ k, (s.pushLocked t v closed op full).pc = Function.update s.pc t k ∧ k.called = none := by
  unfold pushLocked
  split
  · exact ⟨_, rfl, rfl⟩
  · split
    · exact ⟨_, rfl, rfl⟩
    · split
      · exact hfull
      · exact ⟨_, rfl, rfl⟩

theorem pc_popLocked (s : Channel τ V) (t : τ) (closed : OpResult V) (op : Receiving)
    {empty : Channel τ V}
    (hempty : ∃ k, empty.pc = Function.update s.pc t k ∧ k.called = none) :
    ∃ k, (s.popLocked t closed op empty).pc = Function.update s.pc t k ∧ k.called = none := by
  unfold popLocked
  split
  · exact ⟨_, rfl, rfl⟩
  · split
    · split
      · exact ⟨_, rfl, rfl⟩
      · exact hempty
    · exact pc_recvStored s t _ _ _

theorem pc_locked (hclose : s.pc t ≠ .close) (hstep : s.locked t = some s') :
    ∃ k, s'.pc = Function.update s.pc t k ∧ k.called = none := by
  unfold locked at hstep
  split at hstep
  case h_1 v _ =>
    rw [← Option.some.inj hstep, sendLocked_eq]
    exact pc_pushLocked s t v _ _ ⟨_, rfl, rfl⟩
  case h_2 =>
    rw [← Option.some.inj hstep, recvLocked_eq]
    exact pc_popLocked s t _ _ ⟨_, rfl, rfl⟩
  case h_3 v _ =>
    rw [← Option.some.inj hstep, trySendLocked_eq]
    exact pc_pushLocked s t v _ _ ⟨_, rfl, rfl⟩
  case h_4 =>
    rw [← Option.some.inj hstep, tryRecvInLocked_eq]
    exact pc_popLocked s t _ _ ⟨_, rfl, rfl⟩
  case h_5 ht => exact absurd ht hclose
  case h_6 => cases hstep

section Finite

variable [Fintype τ]

/-- The work that is left after the critical sections. -/
def work (s : Channel τ V) : ℕ := tally Pc.work s.pc + tally id s.ready

theorem work_goto (s : Channel τ V) (t : τ) (k : Pc τ V) :
    work (s.goto t k) + (s.pc t).work = work s + k.work := by
  have htally := tally_update Pc.work s.pc t k
  simp only [work, goto]
  omega

theorem between_of_unlocks (h : Between busy s) (hunlocks : Unlocks s t s') :
    Between busy s' ∧ work s' < work s := by
  cases hunlocks with
  | @access k b r res l parked due place copies task stays before after hwork =>
    have htr : t ≠ r := (ne_of_parked parked task).symm
    have ht : (s.goto r b).pc t = s.pc t := Function.update_of_ne htr _ _
    obtain ⟨-, hr, hr'⟩ := called_eq_none_of_parked task
    obtain ⟨hb, -, hb'⟩ := called_eq_none_of_parked stays
    refine ⟨(h.update hr hb).update ?_ (called_eq_none_of_due place).1, ?_⟩
    · rw [ht]
      exact (called_eq_none_of_due due).2
    · have hfirst := work_goto s r b
      have hsecond := work_goto (s.goto r b) t k
      rw [ht] at hsecond
      omega
  | @ret r res parked due copies hwork =>
    have hbetween := h.update (k := .idle) (called_eq_none_of_due due).2 rfl
    refine ⟨⟨hbetween.called, hbetween.idle⟩, ?_⟩
    have htally := tally_update id s.ready r (s.ready r + 1)
    have hgoto := tally_update Pc.work s.pc t .idle
    have hidle : (Pc.idle : Pc τ V).work = 0 := rfl
    simp only [work, Channel.ret, goto, wake, id] at htally hgoto ⊢
    omega

variable [DecidableEq V]

theorem between_of_resume (h : Between busy s) (hsafe : Safe s) (hready : s.ready t ≠ 0) :
    Between busy (s.resume t) ∧ work (s.resume t) < work s := by
  obtain ⟨-, hparked, res, hdue, heq⟩ := resume_of_ready hsafe hready
  obtain ⟨-, hidle, hwork⟩ := called_eq_none_of_parked hparked
  have hbetween := h.update (k := .idle) hidle rfl
  rw [heq]
  refine ⟨⟨hbetween.called, hbetween.idle⟩, ?_⟩
  have htally := tally_update id s.ready t (s.ready t - 1)
  have hgoto := tally_update Pc.work s.pc t .idle
  have hidle : (Pc.idle : Pc τ V).work = 0 := rfl
  simp only [work, Channel.ret, goto, id] at htally hgoto ⊢
  omega

/-- **The tasks that have been served can run** until no task is left to run, without another
operation. -/
theorem exists_quiet {capacity : ℕ} (h : ReachesCalls capacity x) (hbetween : Between busy x.1) :
    ∃ y, ReachesCalls capacity y ∧ (y.2 = x.2 ∧ Between busy y.1) ∧ Quiet y.1 := by
  refine Reach.exists_of_measure (I := fun y : Channel τ V × List (τ × Op V) =>
    y.2 = x.2 ∧ Between busy y.1) (fun y => work y.1) ?_ h ⟨rfl, hbetween⟩
  rintro y hy ⟨hlog, hb⟩ hbusy
  have hsafe := safe_of_reachable (reachable_of_reachesCalls hy)
  obtain ⟨t, ht⟩ : ∃ t, ¬(y.1.ready t = 0 ∧ (y.1.pc t = .idle ∨ (y.1.pc t).parked = 1)) :=
    not_forall.mp hbusy
  by_cases hready : y.1.ready t = 0
  · obtain ⟨hidle, hparked⟩ := not_or.mp fun hor => ht ⟨hready, hor⟩
    obtain ⟨s', hs'⟩ := exists_unlocked (hb.called t) hidle hparked
    obtain ⟨hb', hless⟩ := between_of_unlocks hb (unlocks_of_unlocked hsafe hs')
    have hstep : stepCalls y (.unlocked t) = some (s', y.2 ++ []) := by
      show (y.1.unlocked t).map _ = _
      rw [hs']
      rfl
    refine ⟨_, .next hy (fun _ h => by cases h) hstep, ⟨?_, hb'⟩, hless⟩
    rw [← hlog]
    exact List.append_nil _
  · obtain ⟨hb', hless⟩ := between_of_resume hb hsafe hready
    have hstep : stepCalls y (.resume t) = some (y.1.resume t, y.2 ++ []) := by
      simp [stepCalls, step, hready, takesEffect]
    refine ⟨_, .next hy (fun _ h => by cases h) hstep, ⟨?_, hb'⟩, hless⟩
    rw [← hlog]
    exact List.append_nil _

/-- After its critical section a task is not at the start of an operation, and whoever was in no
operation still is in none. -/
theorem between_of_locked (hsafe : Safe s) (hcalled : ∀ u, u ≠ t → (s.pc u).called = none)
    (hidle : ∀ u, ¬busy u → s.pc u = .idle) (ht : busy t) (hstep : s.locked t = some s') :
    Between busy s' := by
  have hne {u : τ} (hu : ¬busy u) : u ≠ t := by
    rintro rfl
    exact hu ht
  by_cases hclose : s.pc t = .close
  · have heq : s' = s.closeLocked t := by
      simp only [locked, hclose, Option.some.injEq] at hstep
      exact hstep.symm
    obtain ⟨pc, ready, hspec, hself, hsenders, hreceivers, hothers⟩ := closeLocked_spec hsafe t
    have hpc : s'.pc = pc := by rw [heq, hspec]
    refine ⟨fun u => ?_, fun u hu => ?_⟩ <;> rw [hpc]
    · by_cases hut : u = t
      · rw [hut, hself]
        rfl
      · by_cases hs : u ∈ s.senders.map Prod.fst
        · obtain ⟨⟨u, v⟩, hmem, rfl⟩ := List.mem_map.mp hs
          rw [hsenders u v hut hmem]
          rfl
        · by_cases hr : u ∈ s.receivers
          · rw [hreceivers u hut hr]
            rfl
          · rw [hothers u hut hs hr, hcalled u hut]
    · -- Whoever is in no operation is in no queue.
      have hqueued := hsafe.links.queued_eq_zero (t := u) (by rw [hidle u hu]; rfl)
      obtain ⟨hs, hr⟩ := not_mem_of_queued_eq_zero hqueued
      rw [hothers u (hne hu) hs hr, hidle u hu]
  · obtain ⟨k, hpc, hk⟩ := pc_locked hclose hstep
    refine ⟨fun u => ?_, fun u hu => ?_⟩ <;> rw [hpc]
    · by_cases hut : u = t
      · rw [hut, Function.update_self, hk]
      · rw [Function.update_of_ne hut, hcalled u hut]
    · rw [Function.update_of_ne (hne hu), hidle u hu]

theorem exists_call {capacity : ℕ} (h : ReachesCalls capacity x) (hbetween : Between busy x.1)
    (hidle : x.1.pc t = .idle) (op : Op V) :
    ∃ y, ReachesCalls capacity y ∧ y.2 = x.2 ++ [(t, op)] ∧
      Between (fun u => busy u ∨ u = t) y.1 := by
  have hcall : stepCalls x (.call t op) =
      some ({ x.1.goto t op.start with passed := x.1.passed ++ op.passes }, x.2 ++ []) := by
    simp [stepCalls, step, hidle, takesEffect]
  have h₁ := Reach.next h (fun _ h => by cases h) hcall
  set s₁ : Channel τ V := { x.1.goto t op.start with passed := x.1.passed ++ op.passes }
  have hpc : s₁.pc t = op.start := Function.update_self ..
  have hothers {u : τ} (hu : u ≠ t) : s₁.pc u = x.1.pc u := Function.update_of_ne hu _ _
  obtain ⟨s₂, hs₂⟩ : ∃ s₂, s₁.locked t = some s₂ := by
    unfold locked
    rw [hpc]
    cases op <;> exact ⟨_, rfl⟩
  have hlog : takesEffect s₁ (.locked t) = [(t, op)] := by
    simp only [takesEffect, hpc]
    cases op <;> rfl
  have hlock : stepCalls (s₁, x.2 ++ []) (.locked t) = some (s₂, x.2 ++ [] ++ [(t, op)]) := by
    show (s₁.locked t).map _ = _
    rw [hs₂, Option.map_some, hlog]
  refine ⟨_, .next h₁ (fun _ h => by cases h) hlock, by rw [List.append_nil], ?_⟩
  refine between_of_locked (safe_of_reachable (reachable_of_reachesCalls h₁)) (fun u hu => ?_)
    (fun u hu => ?_) (Or.inr rfl) hs₂
  · rw [hothers hu, hbetween.called u]
  · obtain ⟨hu, hut⟩ := not_or.mp hu
    rw [hothers hut, hbetween.idle u hu]

/-- **Every sequence of operations can be run** on a `Channel` without contention, each made by a
task of its own, until no task is left to run. -/
theorem exists_run (capacity : ℕ) (ops : List (τ × Op V)) (hnodup : (ops.map Prod.fst).Nodup) :
    ∃ x : Channel τ V × List (τ × Op V), ReachesCalls capacity x ∧ x.2 = ops ∧ Quiet x.1 ∧
      Between (· ∈ ops.map Prod.fst) x.1 := by
  induction ops using List.reverseRecOn with
  | nil =>
    exact ⟨_, .start, rfl, fun _ => ⟨rfl, Or.inl rfl⟩, ⟨fun _ => rfl, fun _ _ => rfl⟩⟩
  | append_singleton ops op ih =>
    obtain ⟨t, op⟩ := op
    rw [List.map_append, List.nodup_append] at hnodup
    obtain ⟨hops, -, hnew⟩ := hnodup
    have ht : t ∉ ops.map Prod.fst := fun hmem => hnew t hmem t (by simp) rfl
    obtain ⟨x, hreach, hlog, -, hbetween⟩ := ih hops
    obtain ⟨y, hy, hlog', hb⟩ := exists_call hreach hbetween (hbetween.idle t ht) op
    obtain ⟨z, hz, ⟨hlog'', hb'⟩, hquiet⟩ := exists_quiet hy hb
    refine ⟨z, hz, by rw [hlog'', hlog', hlog], hquiet, hb'.called, fun u hu => hb'.idle u ?_⟩
    rintro (hmem | rfl)
    · exact hu (by rw [List.map_append]; exact List.mem_append_left _ hmem)
    · exact hu (by simp)

end Finite

end Channel

/-! ### The two channels -/

/-- **`Channel` and `LocalChannel` behave alike.** For every capacity and every sequence of
operations, each made by a task of its own: both channels can run them until no task is left to run,
the `Channel` without anybody finding its lock taken; and however they have run them, they have
given the same results to each task, the same operations are pending, and they have the same storage
and the same parked senders and receivers in the same order. -/
theorem same_behaviour [Fintype τ] (capacity : ℕ) (ops : List (τ × Channel.Op V))
    (hnodup : (ops.map Prod.fst).Nodup) :
    (∃ e : LocalChannel.Calls τ V, LocalChannel.called.Reaches (.bounded capacity, []) e ∧
      e.state.memory.2 = ops ∧ e.stack = [] ∧ e.localTasks = []) ∧
    (∃ x : Channel τ V × List (τ × Channel.Op V), Channel.ReachesCalls capacity x ∧ x.2 = ops ∧
      x.1.Quiet) ∧
    ∀ (e : LocalChannel.Calls τ V) (x : Channel τ V × List (τ × Channel.Op V)),
      LocalChannel.called.Reaches (.bounded capacity, []) e → e.state.memory.2 = ops →
      e.stack = [] → e.localTasks = [] → Channel.ReachesCalls capacity x → x.2 = ops →
      x.1.Quiet → e.state.memory.1.observed = x.1.observed := by
  classical
  refine ⟨?_, ?_, fun e x he hlog hstack htasks hx hlog' hquiet => ?_⟩
  · obtain ⟨e, he, hlog, ⟨hstack, htasks⟩, -⟩ := LocalChannel.exists_run capacity ops hnodup
    exact ⟨e, he, hlog, hstack, htasks⟩
  · obtain ⟨x, hx, hlog, hquiet, -⟩ := Channel.exists_run capacity ops hnodup
    exact ⟨x, hx, hlog, hquiet⟩
  · rw [LocalChannel.observed_of_idle capacity he hstack htasks,
      Channel.observed_of_quiet hx hquiet, hlog, hlog']

/-- A value is sent, received, and the channel is closed. -/
def sendRecvClose (t u v : τ) (x : V) : List (τ × Channel.Op V) :=
  [(t, .send x), (u, .recv), (v, .close)]

theorem same_behaviour_sendRecvClose :
    ((sendRecvClose (0 : Fin 3) 1 2 7).map Prod.fst).Nodup ∧
    ∃ (e : LocalChannel.Calls (Fin 3) ℕ) (x : Channel (Fin 3) ℕ × List (Fin 3 × Channel.Op ℕ)),
      e.state.memory.2 = sendRecvClose 0 1 2 7 ∧ x.2 = sendRecvClose 0 1 2 7 ∧
        e.state.memory.1.observed = x.1.observed := by
  have hnodup : ((sendRecvClose (0 : Fin 3) 1 2 7).map Prod.fst).Nodup := by decide
  obtain ⟨⟨e, he, hlog, hstack, htasks⟩, ⟨x, hx, hlog', hquiet⟩, hsame⟩ :=
    same_behaviour 0 (sendRecvClose (0 : Fin 3) 1 2 7) hnodup
  exact ⟨hnodup, e, x, hlog, hlog', hsame e x he hlog hstack htasks hx hlog' hquiet⟩

end Orengine.Sync
