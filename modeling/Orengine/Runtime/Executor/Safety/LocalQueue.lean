import Orengine.Runtime.Executor.Safety.Calls

/-!
# The local queue

The queue does not get shorter between two `pop_back`s, unless the user takes a task out, so that a
round of `exec_cpu_tasks`, which executes as many local tasks as the queue has at its beginning,
never finds it empty (`local_tasks_suffice`).

`Yield` puts its task at the other end of the queue.  A task that has yielded stays in front of
those that were in the queue then, until each of them was polled (`Waits`); so it is polled after
them, and after the tasks that have yielded before it (`yields_in_order`), unless a shared task has
come into the local queue, which `exec_task` re-queues as a shared one, or a `LocalWaitGroup::done`
executes a task that is in the queue.
-/

namespace Orengine.Runtime.Machine

open Orengine.Lib

variable {τ : Type*}

/-! ### Who waits for whom -/

/-- A task of the set that a yielding task waits for was polled or taken out of the queue, or is a
shared task that was re-queued as such. -/
def Touched (es : List (Event τ)) (u : τ × Bool) : Prop :=
  .polled u.1 ∈ es ∨ .takenOut u.1 ∈ es ∨ u.2 = false ∧ .requeued u.1 false ∈ es

theorem Touched.append {es : List (Event τ)} {u : τ × Bool} (h : Touched es u)
    (es' : List (Event τ)) : Touched (es ++ es') u := by
  rcases h with h | h | ⟨hu, h⟩
  · exact .inl (List.mem_append_left es' h)
  · exact .inr (.inl (List.mem_append_left es' h))
  · exact .inr (.inr ⟨hu, List.mem_append_left es' h⟩)

theorem Touched.append_right {es : List (Event τ)} {u : τ × Bool} (h : Touched es u)
    (es' : List (Event τ)) : Touched (es' ++ es) u := by
  rcases h with h | h | ⟨hu, h⟩
  · exact .inl (List.mem_append_right es' h)
  · exact .inr (.inl (List.mem_append_right es' h))
  · exact .inr (.inr ⟨hu, List.mem_append_right es' h⟩)

/-- What a log says about tasks that yield: such a task is polled after all tasks that were in the
local queue when it has yielded, and after those that have yielded before it. -/
structure YieldsInOrder (log : List (Event τ)) : Prop where
  queue : ∀ pre mid post y queue, log = pre ++ .yielded y queue :: mid ++ .polled y :: post →
    .polled y ∉ mid → .takenOut y ∉ mid → ∀ u ∈ queue, Touched mid u
  yielders : ∀ pre mid mid' post y z queue queue',
    log = pre ++ .yielded y queue :: mid ++ .yielded z queue' :: mid' ++ .polled z :: post →
    .polled z ∉ mid' → .takenOut z ∉ mid' → .polled y ∈ mid ++ mid' ∨ .takenOut y ∈ mid ++ mid'

section Waiting

variable [DecidableEq τ]

/-- A task is not in the local queue any more. -/
def leave (t : τ) (w : List (τ × List (τ × Bool))) : List (τ × List (τ × Bool)) :=
  (w.filter (·.1 ≠ t)).map fun p => (p.1, p.2.filter (·.1 ≠ t))

/-- The tasks that have yielded and were not polled or taken out since, each with the tasks that it
waits for. -/
def waitingStep (w : List (τ × List (τ × Bool))) : Event τ → List (τ × List (τ × Bool))
  | .polled t | .takenOut t => leave t w
  | .yielded t queue => (t, queue) :: w
  | .requeued t false => w.map fun p => (p.1, p.2.filter (· ≠ (t, false)))
  | .requeued _ true | .handled _ _ => w

/-- The tasks that wait after a run with this log. -/
def waiting (log : List (Event τ)) : List (τ × List (τ × Bool)) := log.foldl waitingStep []

theorem waiting_concat (log : List (Event τ)) (e : Event τ) :
    waiting (log ++ [e]) = waitingStep (waiting log) e := by
  simp [waiting]

variable {w : List (τ × List (τ × Bool))} {e : Event τ} {log : List (Event τ)}

theorem mem_leave {t : τ} {p : τ × List (τ × Bool)} :
    p ∈ leave t w ↔ p.1 ≠ t ∧ ∃ queue, (p.1, queue) ∈ w ∧ p.2 = queue.filter (·.1 ≠ t) := by
  simp only [leave, List.mem_map, List.mem_filter, decide_eq_true_eq]
  constructor
  · rintro ⟨⟨y, queue⟩, ⟨hp, hne⟩, rfl⟩
    exact ⟨hne, queue, hp, rfl⟩
  · rintro ⟨hne, queue, hp, hqueue⟩
    exact ⟨(p.1, queue), ⟨hp, hne⟩, Prod.ext rfl hqueue.symm⟩

/-- Who is neither polled nor taken out goes on waiting for all that are not touched. -/
theorem exists_mem_waitingStep {y : τ} {queue : List (τ × Bool)} (h : (y, queue) ∈ w)
    (hpolled : e ≠ .polled y) (htaken : e ≠ .takenOut y) :
    ∃ queue', (y, queue') ∈ waitingStep w e ∧ ∀ u ∈ queue, Touched [e] u ∨ u ∈ queue' := by
  cases e with
  | polled t =>
    have hyt : y ≠ t := fun heq => hpolled (by rw [heq])
    refine ⟨queue.filter (·.1 ≠ t), mem_leave.mpr ⟨hyt, queue, h, rfl⟩, fun u hu => ?_⟩
    by_cases hut : u.1 = t
    · subst hut
      exact .inl (.inl (List.mem_singleton_self _))
    · exact .inr (List.mem_filter.mpr ⟨hu, decide_eq_true hut⟩)
  | takenOut t =>
    have hyt : y ≠ t := fun heq => htaken (by rw [heq])
    refine ⟨queue.filter (·.1 ≠ t), mem_leave.mpr ⟨hyt, queue, h, rfl⟩, fun u hu => ?_⟩
    by_cases hut : u.1 = t
    · subst hut
      exact .inl (.inr (.inl (List.mem_singleton_self _)))
    · exact .inr (List.mem_filter.mpr ⟨hu, decide_eq_true hut⟩)
  | yielded t other => exact ⟨queue, List.mem_cons_of_mem _ h, fun u hu => .inr hu⟩
  | requeued t isLocal =>
    cases isLocal with
    | true => exact ⟨queue, h, fun u hu => .inr hu⟩
    | false =>
      refine ⟨queue.filter (· ≠ (t, false)), List.mem_map_of_mem h, fun u hu => ?_⟩
      by_cases hut : u = (t, false)
      · subst hut
        exact .inl (.inr (.inr ⟨rfl, List.mem_singleton_self _⟩))
      · exact .inr (List.mem_filter.mpr ⟨hu, decide_eq_true hut⟩)
  | handled t caller => exact ⟨queue, h, fun u hu => .inr hu⟩

/-- Who has yielded and was not polled or taken out waits for all that were not touched since. -/
theorem exists_mem_waiting (pre mid : List (Event τ)) (y : τ) (queue : List (τ × Bool))
    (hpolled : .polled y ∉ mid) (htaken : .takenOut y ∉ mid) :
    ∃ queue', (y, queue') ∈ waiting (pre ++ .yielded y queue :: mid) ∧
      ∀ u ∈ queue, Touched mid u ∨ u ∈ queue' := by
  -- The induction is on what happens after the task has yielded, from its end.
  induction mid using List.reverseRecOn with
  | nil =>
    refine ⟨queue, ?_, fun u hu => .inr hu⟩
    rw [waiting_concat]
    exact List.mem_cons_self
  | append_singleton mid e ih =>
    rw [List.mem_append, List.mem_singleton, not_or] at hpolled htaken
    obtain ⟨queue', hmem, hall⟩ := ih hpolled.1 htaken.1
    obtain ⟨queue'', hmem', hall'⟩ :=
      exists_mem_waitingStep hmem (Ne.symm hpolled.2) (Ne.symm htaken.2)
    refine ⟨queue'', ?_, fun u hu => ?_⟩
    · rw [← List.cons_append, ← List.append_assoc, waiting_concat]
      exact hmem'
    · rcases hall u hu with hu | hu
      · exact .inl (hu.append [e])
      · exact (hall' u hu).imp_left (·.append_right mid)

theorem mem_waitingStep_of_quiet (he : e.Quiet) {p : τ × List (τ × Bool)}
    (hp : p ∈ waitingStep w e) : ∃ queue, (p.1, queue) ∈ w ∧ p.2 ⊆ queue := by
  cases he with
  | requeued t isLocal =>
    cases isLocal with
    | true => exact ⟨p.2, hp, List.Subset.refl _⟩
    | false =>
      obtain ⟨q, hq, rfl⟩ := List.mem_map.mp hp
      exact ⟨q.2, hq, List.filter_subset_self _⟩
  | handled t => exact ⟨p.2, hp, List.Subset.refl _⟩

/-- What may happen while these tasks wait. -/
def Allowed (w : List (τ × List (τ × Bool))) : Event τ → Prop
  | .polled y => ∀ queue, (y, queue) ∈ w → queue = []
  | .yielded _ queue => ∀ p ∈ w, (p.1, true) ∈ queue
  | _ => True

/-- Everything that has happened was allowed. -/
def AllAllowed (log : List (Event τ)) : Prop :=
  ∀ pre e post, log = pre ++ e :: post → Allowed (waiting pre) e

theorem AllAllowed.concat (h : AllAllowed log) (he : Allowed (waiting log) e) :
    AllAllowed (log ++ [e]) := by
  intro pre e' post hlog
  rcases List.eq_nil_or_concat post with rfl | ⟨post, e'', rfl⟩
  · obtain ⟨rfl, rfl⟩ := List.append_singleton_inj.mp hlog
    exact he
  · rw [List.concat_eq_append, ← List.cons_append, ← List.append_assoc] at hlog
    exact h pre e' post (List.append_singleton_inj.mp hlog).1

omit [DecidableEq τ] in
theorem Event.Quiet.allowed (he : e.Quiet) (w : List (τ × List (τ × Bool))) : Allowed w e := by
  cases he <;> trivial

theorem AllAllowed.append {es : List (Event τ)} (h : AllAllowed log) (hes : ∀ e ∈ es, e.Quiet) :
    AllAllowed (log ++ es) ∧ ∀ p ∈ waiting (log ++ es),
      ∃ queue, (p.1, queue) ∈ waiting log ∧ p.2 ⊆ queue := by
  induction es using List.reverseRecOn with
  | nil =>
    rw [List.append_nil]
    exact ⟨h, fun p hp => ⟨p.2, hp, List.Subset.refl _⟩⟩
  | append_singleton es e ih =>
    obtain ⟨hall, hwaiting⟩ := ih fun e he => hes e (List.mem_append_left _ he)
    have he : e.Quiet := hes e (List.mem_append_right _ (List.mem_singleton_self e))
    rw [← List.append_assoc]
    refine ⟨hall.concat (he.allowed _), fun p hp => ?_⟩
    rw [waiting_concat] at hp
    obtain ⟨queue, hqueue, hsub⟩ := mem_waitingStep_of_quiet he hp
    obtain ⟨queue', hqueue', hsub'⟩ := hwaiting _ hqueue
    exact ⟨queue', hqueue', List.Subset.trans hsub hsub'⟩

theorem AllAllowed.yieldsInOrder (h : AllAllowed log) : YieldsInOrder log := by
  have hqueue (pre mid post : List (Event τ)) (y : τ) (queue : List (τ × Bool))
      (hlog : log = pre ++ .yielded y queue :: mid ++ .polled y :: post)
      (hpolled : .polled y ∉ mid) (htaken : .takenOut y ∉ mid) :
      ∀ u ∈ queue, Touched mid u := by
    intro u hu
    obtain ⟨queue', hmem, hall⟩ := exists_mem_waiting pre mid y queue hpolled htaken
    rcases hall u hu with hu | hu
    · exact hu
    · rw [h _ _ post hlog queue' hmem] at hu
      cases hu
  refine ⟨hqueue, ?_⟩
  intro pre mid mid' post y z queue queue' hlog hpolled htaken
  rw [List.mem_append, List.mem_append]
  by_cases hy : .polled y ∈ mid ∨ .takenOut y ∈ mid
  · exact hy.imp .inl .inl
  · -- The first task still waits, and so it is in the queue when the second one yields.
    rw [not_or] at hy
    obtain ⟨queue'', hmem, -⟩ := exists_mem_waiting pre mid y queue hy.1 hy.2
    have hallowed : Allowed (waiting (pre ++ .yielded y queue :: mid)) (.yielded z queue') := by
      refine h _ _ (mid' ++ .polled z :: post) ?_
      rw [hlog, List.append_assoc _ (_ :: mid'), List.cons_append]
    have hyz : (y, true) ∈ queue' := hallowed _ hmem
    rcases hqueue _ mid' post z queue' hlog hpolled htaken _ hyz with hz | hz | ⟨hfalse, -⟩
    · exact .inl (.inr hz)
    · exact .inr (.inr hz)
    · cases hfalse

end Waiting

namespace State

variable {cfg : Config} {s s' m : State τ} {t : τ} {a : Action τ}

/-! ### The rounds -/

/-- The tasks that are left in the local phase of a round. -/
def Suffices (s : State τ) : Prop := ∀ n, s.phase = .localTasks n → n ≤ s.localTasks.length

theorem Suffices.keeps (h : s.Suffices) (hkeeps : Keeps s s') : s'.Suffices := by
  intro n hn
  rcases hkeeps.phase n hn with hn | hle
  · exact (h n hn).trans hkeeps.localTasks.length_le
  · exact hle

theorem Suffices.popLocal {n : ℕ} (h : s.Suffices) (hphase : s.phase = .localTasks (n + 1)) :
    (s.popLocal n).Suffices := by
  intro k hk
  cases hk
  have hlen := h (n + 1) hphase
  rw [State.popLocal, List.length_dropLast]
  omega

variable [DecidableEq τ]

/-- The user takes a task out through `local_queue`. -/
def Action.takesOut : Action τ → Bool
  | .own (.takeOut _) => true
  | _ => false

theorem Moves.suffices (h : Moves cfg a s s') (hs : s.Suffices) (ha : a.takesOut = false) :
    s'.Suffices := by
  cases h with
  | shift hkeeps => exact hs.keeps hkeeps
  | exec hkeeps =>
    have hm := hs.keeps hkeeps
    exact hm
  | yields =>
    intro n hn
    exact (hs n hn).trans (Nat.le_succ _)
  | @execLocal n t hphase =>
    have hpop := hs.popLocal hphase
    rcases execTask_cases cfg (s.popLocal n) t with hexec | hpasses
    · rw [hexec]
      exact hpop
    · exact hpop.keeps hpasses.toKeeps
  | noLocalTask => exact hs
  | takeOut htakeOut =>
    rw [htakeOut] at ha
    cases ha

theorem Moves.numberOfLocalTasks (h : Moves cfg a s s') (hs : s.Suffices)
    (hfailed : s.failed ≠ some .numberOfLocalTasks) :
    s'.failed ≠ some .numberOfLocalTasks := by
  have hkeeps {m m' : State τ} (h : Keeps m m') (hm : m.failed = s.failed) :
      m'.failed ≠ some .numberOfLocalTasks := by
    intro hm'
    rcases h.failed _ hm' with hm' | habout
    · exact hfailed (hm ▸ hm')
    · cases habout
  cases h with
  | shift h => exact hkeeps h rfl
  | exec h =>
    have hm := hkeeps h rfl
    exact hm
  | yields | takeOut => exact hfailed
  | @execLocal n t =>
    rcases execTask_cases cfg (s.popLocal n) t with hexec | hpasses
    · rw [hexec]
      exact hfailed
    · exact hkeeps hpasses.toKeeps rfl
  | noLocalTask hphase hempty =>
    have hlen := hs _ hphase
    rw [hempty] at hlen
    cases hlen

/-- **Every counted `pop_back` of the local phase finds a task.** In every run in which nobody takes
a task out through `local_queue`, the local queue has as many tasks as `exec_cpu_tasks` has still to
pop, so that the assertion before the unchecked unwrap never fails. -/
theorem local_tasks_suffice (cfg : Config) (isLocal : τ → Bool)
    (awaited : τ → Option (Future × Stage)) (s : State τ)
    (h : Reach (step cfg) (fun _ a => a.takesOut = false) (init isLocal awaited) s) :
    (∀ n, s.phase = .localTasks (n + 1) → s.localTasks ≠ []) ∧
      s.failed ≠ some .numberOfLocalTasks := by
  have hinv : s.Suffices ∧ s.failed ≠ some .numberOfLocalTasks := by
    refine Reach.invariant (I := fun s => s.Suffices ∧ s.failed ≠ some .numberOfLocalTasks)
      ⟨?_, ?_⟩ (fun s a s' hreach hs ha hstep => ?_) h
    · simp [Suffices, init]
    · simp [init]
    · have hmoves := moves_of_step (sound hreach.reachable).disciplined hstep
      exact ⟨hmoves.suffices hs.1 ha, hmoves.numberOfLocalTasks hs.1 hs.2⟩
  refine ⟨fun n hphase hempty => ?_, hinv.2⟩
  have hlen := hinv.1 _ hphase
  rw [hempty] at hlen
  cases hlen

/-- A round with two tasks, the first of which yields. -/
def yieldInRound : List (Action ℕ) :=
  [.own (.spawnLocalTask 0), .own (.spawnLocalTask 1), .loop .prepareToNewRound, .loop .beginLocal,
    .loop .execLocal, .code (.poll .done), .code (.await .yieldNow), .code (.poll .wait),
    .code .next, .code .next]

theorem local_tasks_suffice_yield :
    ∃ s, execWhere (step ⟨true, 0, none, true⟩) (fun _ a => a.takesOut = false)
        (init (fun _ => true) fun _ => none) yieldInRound = some s ∧
      s.phase = .localTasks 1 ∧ s.localTasks = [1, 0] ∧
      (∀ n, s.phase = .localTasks (n + 1) → s.localTasks ≠ []) ∧
      s.failed ≠ some .numberOfLocalTasks := by
  obtain ⟨s, hs, hphase, hqueue⟩ : ∃ s, execWhere (step ⟨true, 0, none, true⟩)
      (fun _ a => a.takesOut = false) (init (fun _ => true) fun _ => none) yieldInRound = some s ∧
      s.phase = .localTasks 1 ∧ s.localTasks = [1, 0] := ⟨_, rfl, rfl, rfl⟩
  exact ⟨s, hs, hphase, hqueue, local_tasks_suffice _ _ _ s (reach_of_execWhere _ hs)⟩

/-! ### Tasks that yield -/

/-- A task that waits is in front of all that it waits for. -/
structure Waits (s : State τ) (p : τ × List (τ × Bool)) : Prop where
  mem : p.1 ∈ s.localTasks
  isLocal : s.isLocal p.1 = true
  queue : ∀ u ∈ p.2, [p.1, u.1].Sublist s.localTasks ∧ (u.2 = true → s.isLocal u.1 = true)

structure InOrder (s : State τ) : Prop where
  waits : ∀ p ∈ waiting s.log, s.Waits p
  allowed : AllAllowed s.log

omit [DecidableEq τ] in
theorem Waits.mono {p : τ × List (τ × Bool)} {queue : List (τ × Bool)} (h : s.Waits p)
    (hsub : s.localTasks.Sublist s'.localTasks)
    (hl : ∀ x ∈ s.localTasks, s'.isLocal x = s.isLocal x) (hqueue : queue ⊆ p.2) :
    s'.Waits (p.1, queue) where
  mem := hsub.mem h.mem
  isLocal := (hl _ h.mem).trans h.isLocal
  queue u hu := by
    obtain ⟨hpair, hlocal⟩ := h.queue u (hqueue hu)
    refine ⟨hpair.trans hsub, fun hu => ?_⟩
    have hmem : u.1 ∈ s.localTasks := hpair.mem (by simp)
    rw [hl _ hmem]
    exact hlocal hu

theorem Waits.leave {y : τ} {queue : List (τ × Bool)} (h : s.Waits (y, queue)) (hy : y ≠ t)
    (hsub : (s.localTasks.filter (· ≠ t)).Sublist s'.localTasks)
    (hl : ∀ x ∈ s.localTasks, s'.isLocal x = s.isLocal x) :
    s'.Waits (y, queue.filter (·.1 ≠ t)) where
  mem := hsub.mem (List.mem_filter.mpr ⟨h.mem, decide_eq_true hy⟩)
  isLocal := (hl _ h.mem).trans h.isLocal
  queue u hu := by
    obtain ⟨hu, hut⟩ := List.mem_filter.mp hu
    obtain ⟨hpair, hlocal⟩ := h.queue u hu
    refine ⟨?_, fun hu => ?_⟩
    · have hfilter : [y, u.1].filter (· ≠ t) = [y, u.1] := by
        simp [hy, of_decide_eq_true hut]
      rw [← hfilter]
      exact (hpair.filter _).trans hsub
    · rw [hl _ (hpair.mem (by simp))]
      exact hlocal hu

theorem LocalityKept.of_mem (hl : LocalityKept s s') (hs : s.Sound) :
    ∀ x ∈ s.localTasks, s'.isLocal x = s.isLocal x := by
  intro x hx
  have hcount := List.count_pos_iff.mpr hx
  have htotal := hs.total x
  rcases hl x with heq | helse | howned
  · exact heq
  · simp only [State.total, helse, Bool.toNat_true] at htotal
    omega
  · simp only [State.total] at htotal
    omega

theorem InOrder.grow (h : s.InOrder) (hsub : s.localTasks.Sublist s'.localTasks)
    (hlog : ∃ es, s'.log = s.log ++ es ∧ ∀ e ∈ es, e.Quiet)
    (hl : ∀ x ∈ s.localTasks, s'.isLocal x = s.isLocal x) : s'.InOrder := by
  obtain ⟨es, hes, hquiet⟩ := hlog
  obtain ⟨hall, hwaiting⟩ := h.allowed.append hquiet
  rw [← hes] at hall hwaiting
  refine ⟨fun p hp => ?_, hall⟩
  obtain ⟨queue, hqueue, hle⟩ := hwaiting p hp
  exact (h.waits _ hqueue).mono hsub hl hle

theorem InOrder.leave {e : Event τ} (h : s.InOrder) (hlog : s'.log = s.log ++ [e])
    (he : waitingStep (waiting s.log) e = Machine.leave t (waiting s.log))
    (hallowed : Allowed (waiting s.log) e)
    (hsub : (s.localTasks.filter (· ≠ t)).Sublist s'.localTasks)
    (hl : ∀ x ∈ s.localTasks, s'.isLocal x = s.isLocal x) : s'.InOrder := by
  refine ⟨fun p hp => ?_, hlog ▸ h.allowed.concat hallowed⟩
  rw [hlog, waiting_concat, he] at hp
  obtain ⟨hne, queue, hqueue, hp2⟩ := mem_leave.mp hp
  obtain ⟨y, queue'⟩ := p
  subst hp2
  exact (h.waits _ hqueue).leave hne hsub hl

variable {l : List τ}

theorem filter_sublist_eraseIdx {i : ℕ} (h : l[i]? = some t) :
    (l.filter (· ≠ t)).Sublist (l.eraseIdx i) := by
  obtain ⟨hi, ht⟩ := List.getElem?_eq_some_iff.mp h
  have hsplit : l = l.take i ++ t :: l.drop (i + 1) := by
    rw [← ht, List.cons_getElem_drop_succ, List.take_append_drop]
  rw [List.eraseIdx_eq_take_drop_succ]
  nth_rewrite 1 [hsplit]
  rw [List.filter_append, List.filter_cons_of_neg (by simp)]
  exact List.filter_sublist.append List.filter_sublist

omit [DecidableEq τ] in
theorem not_sublist_concat (ht : t ∉ l) (u : τ) : ¬[t, u].Sublist (l ++ [t]) := by
  intro h
  obtain ⟨l₁, l₂, heq, h₁, h₂⟩ := List.sublist_append_iff.mp h
  cases l₁ with
  | nil =>
    have hlen := h₂.length_le
    rw [← List.nil_append l₂, ← heq] at hlen
    simp at hlen
  | cons x l₁ =>
    obtain ⟨rfl, -⟩ := List.cons.inj heq
    exact ht (h₁.mem List.mem_cons_self)

/-- The task that is polled was last in the local queue, so it waits for nobody. -/
theorem InOrder.allowed_polled (h : s.InOrder) (hs : s.Sound) (hlast : s.localTasks = l ++ [t]) :
    Allowed (waiting s.log) (.polled t) := by
  intro queue hqueue
  have ht : t ∉ l := by
    intro ht
    have hcount := List.count_pos_iff.mpr ht
    have htotal := hs.total t
    simp only [State.total, hlast, count_concat, oneAt_self] at htotal
    omega
  rw [List.eq_nil_iff_forall_not_mem]
  intro u hu
  have hpair := ((h.waits _ hqueue).queue u hu).1
  rw [hlast] at hpair
  exact not_sublist_concat ht u.1 hpair

theorem InOrder.yields (h : s.InOrder) (stack : List (Frame τ)) (hlocal : s.isLocal t = true) :
    ((s.setStack stack).yieldLocal t).InOrder := by
  refine ⟨fun p hp => ?_, h.allowed.concat fun p hp => ?_⟩
  · rw [show ((s.setStack stack).yieldLocal t).log = s.log ++ [.yielded t _] from rfl,
      waiting_concat] at hp
    rcases List.mem_cons.mp hp with rfl | hp
    · refine ⟨List.mem_cons_self, hlocal, fun u hu => ?_⟩
      obtain ⟨x, hx, rfl⟩ := List.mem_map.mp hu
      exact ⟨List.cons_sublist_cons.mpr (List.singleton_sublist.mpr hx), id⟩
    · exact (h.waits p hp).mono (List.sublist_cons_self t _) (fun x _ => rfl) (List.Subset.refl _)
  · exact List.mem_map.mpr ⟨p.1, (h.waits p hp).mem, by rw [← (h.waits p hp).isLocal]; rfl⟩

omit [DecidableEq τ] in
theorem spawnTask_of_isLocal (ht : s.isLocal t = true) :
    s.spawnTask cfg t = { s with localTasks := s.localTasks ++ [t] } := by
  simp [spawnTask, spawnLocalTask, ht]

/-- A shared task that was last in the local queue is re-queued as a shared one. -/
theorem InOrder.requeue_shared {n : ℕ} (h : s.InOrder) (hlast : s.localTasks = l ++ [t])
    (ht : s.isLocal t = false) : ((s.popLocal n).resetSeries t).InOrder := by
  have hpop : (s.popLocal n).localTasks = l := by
    rw [popLocal, hlast, List.dropLast_concat]
  have hsub : (s.localTasks.filter (· ≠ t)).Sublist ((s.popLocal n).resetSeries t).localTasks := by
    rw [show ((s.popLocal n).resetSeries t).localTasks = l from hpop, hlast]
    simp
  have hlog : ((s.popLocal n).resetSeries t).log = s.log ++ [.requeued t false] := by
    rw [← ht]
    rfl
  refine ⟨fun p hp => ?_, hlog ▸ h.allowed.concat trivial⟩
  rw [hlog, waiting_concat] at hp
  obtain ⟨⟨y, queue⟩, hq, rfl⟩ := List.mem_map.mp hp
  have hwaits := h.waits _ hq
  have hy : y ≠ t := by
    rintro rfl
    cases ht.symm.trans hwaits.isLocal
  have hleave : ((s.popLocal n).resetSeries t).Waits (y, queue.filter (·.1 ≠ t)) :=
    hwaits.leave hy hsub fun x _ => rfl
  refine hleave.mono (.refl _) (fun x _ => rfl) fun u hu => ?_
  obtain ⟨hu, hne⟩ := List.mem_filter.mp hu
  refine List.mem_filter.mpr ⟨hu, decide_eq_true fun hut => ?_⟩
  -- A task that was local in the queue is local still.
  cases hu2 : u.2 with
  | true => cases ht.symm.trans (hut ▸ (hwaits.queue u hu).2 hu2)
  | false => exact of_decide_eq_true hne (Prod.ext hut hu2)

theorem Moves.inOrder (h : Moves cfg a s s') (hs : s.Sound) (hin : s.InOrder) : s'.InOrder := by
  cases h with
  | shift hkeeps hl => exact hin.grow hkeeps.localTasks hkeeps.log (hl.of_mem hs)
  | @exec m t hkeeps hl _ _ ht =>
    have hm : m.InOrder := hin.grow hkeeps.localTasks hkeeps.log fun x _ => congrFun hl x
    -- The task is in none of the places that are left.
    have hout : t ∉ m.localTasks := by
      intro hmem
      have hcount := List.count_pos_iff.mpr hmem
      have htotal := hs.total t
      have hmt := ht t
      rw [oneAt_self] at hmt
      simp only [State.total] at htotal hmt
      omega
    refine hm.leave (t := t) rfl rfl (fun queue hqueue => ?_) (List.filter_sublist) fun x _ => rfl
    exact absurd (hm.waits _ hqueue).mem hout
  | @yields stack t _ _ hlocal => exact hin.yields stack hlocal
  | @execLocal n t hphase hlast hstack =>
    obtain ⟨l, hl⟩ := List.getLast?_eq_some_iff.mp hlast
    have hpop : (s.popLocal n).localTasks = l := by
      rw [popLocal, hl, List.dropLast_concat]
    unfold execTask
    split
    case isTrue =>
      refine hin.leave (t := t) rfl rfl (hin.allowed_polled hs hl) ?_ fun x _ => rfl
      rw [show ((s.popLocal n).execTaskNow t).localTasks = l from hpop, hl]
      simp
    case isFalse =>
      cases ht : s.isLocal t with
      | true =>
        rw [spawnTask_of_isLocal (s := (s.popLocal n).resetSeries t) ht]
        refine hin.grow ?_ ⟨_, rfl, fun e he => ?_⟩ fun x _ => rfl
        · rw [show ((s.popLocal n).resetSeries t).localTasks = l from hpop, hl]
        · rw [List.mem_singleton] at he
          exact he ▸ .requeued _ _
      | false =>
        have hpasses := passes_spawnTask cfg ((s.popLocal n).resetSeries t) t
        exact (hin.requeue_shared hl ht).grow hpasses.localTasks hpasses.log fun x _ =>
          congrFun hpasses.isLocal x
  | noLocalTask => exact hin.grow (.refl _) ⟨[], by simp [fail], by simp⟩ fun x _ => rfl
  | @takeOut i t _ hi =>
    exact hin.leave (t := t) rfl rfl trivial (filter_sublist_eraseIdx hi) fun x _ => rfl

variable {isLocal : τ → Bool} {awaited : τ → Option (Future × Stage)}

theorem inOrder (h : Reachable (step cfg) (init isLocal awaited) s) : s.InOrder := by
  refine Reach.invariant ⟨?_, ?_⟩ (fun s a s' hreach hs _ hstep => ?_) h
  · simp [waiting, init]
  · simp [AllAllowed, init]
  · exact (moves_of_step (sound hreach).disciplined hstep).inOrder (sound hreach) hs

theorem reachable_of_isLeft
    (h : Reach (stepAgain cfg) (fun _ a => a.isLeft = true) (init isLocal awaited) s) :
    Reachable (step cfg) (init isLocal awaited) s := by
  refine h.component (f := id) fun s a s' ha hstep => .inr ?_
  obtain ⟨b, rfl⟩ := Sum.isLeft_iff.mp ha
  exact ⟨b, trivial, hstep⟩

/-- **Tasks that yield wait for the others.** In every run in which no `LocalWaitGroup::done`
executes a task that does not wait for it, a local task that has yielded is polled again only after
every task that was in the local queue then was polled or taken out, and after every task that has
yielded before it, with one exception: a shared task in the local queue may be re-queued as a shared
one. -/
theorem yields_in_order (cfg : Config) (isLocal : τ → Bool)
    (awaited : τ → Option (Future × Stage)) (s : State τ)
    (h : Reach (stepAgain cfg) (fun _ a => a.isLeft = true) (init isLocal awaited) s) :
    YieldsInOrder s.log :=
  (inOrder (reachable_of_isLeft h)).allowed.yieldsInOrder

/-- The first task of a round yields, the second one comes to its end, and the first one is polled
again in the next round. -/
def twoRounds : List (Action ℕ) :=
  yieldInRound ++ [.loop .execLocal, .code (.poll .done), .code .finish, .loop .beginShared,
    .loop .execShared, .loop .takeWorkIfNeeded, .loop .pollThreadPool, .loop .endSleeping,
    .loop .endRound, .loop .prepareToNewRound, .loop .beginLocal, .loop .execLocal]

theorem yields_in_order_two :
    ∃ s : State ℕ, exec (stepAgain ⟨true, 0, none, true⟩) (init (fun _ => true) fun _ => none)
        (twoRounds.map .inl) = some s ∧
      s.log = [.polled 1, .yielded 1 [(0, true)], .polled 0, .polled 1] ∧
      YieldsInOrder s.log := by
  have hreach : Reach (stepAgain ⟨true, 0, none, true⟩) (fun _ a => a.isLeft = true)
      (init (fun _ => true) fun _ => none) _ :=
    reach_of_execWhere (twoRounds.map .inl) rfl
  exact ⟨_, rfl, rfl, yields_in_order _ _ _ _ hreach⟩

/-- A shared task comes from the thread pool to the local queue, and a local task is woken up,
spawns another one and yields.  In the next round, the task that it has spawned executes so many
others that the shared task is re-queued. -/
def overtaking : List (Action ℕ) :=
  [.own (.execTask 0), .code (.poll .done), .code (.await .asyncify), .code (.poll .wait),
    .code .next, .code .next, .env (.worker 0), .loop .prepareToNewRound, .loop .beginLocal,
    .loop .beginShared, .loop .execShared, .loop .takeWorkIfNeeded, .loop .pollThreadPool,
    .loop (.wakeSleeping 1), .code (.poll .done), .own (.spawnLocalTask 2),
    .code (.await .yieldNow), .code (.poll .wait), .code .next, .code .next, .loop .endSleeping,
    .loop .endRound, .loop .prepareToNewRound, .loop .beginLocal, .loop .execLocal,
    .code (.poll .done)] ++
  (List.range 62).flatMap (fun i =>
    [.own (.execTask (i + 3)), .code (.poll .done), .code .finish]) ++
  [.code .finish, .loop .execLocal, .loop .execLocal]

/-- What happens after the local task has yielded. -/
def overtaken : List (Event ℕ) :=
  .polled 2 :: (List.range 62).map (fun i => .polled (i + 3)) ++ [.requeued 0 false]

/-- In both builds, the local task is polled again before the shared one that was in the queue. -/
theorem log_overtaking (debugAssertions : Bool) :
    (exec (step ⟨debugAssertions, 1, none, true⟩)
      (init (fun t => decide (t ≠ 0)) fun _ => none) overtaking).map log =
    some ([.polled 0, .handled 0 0, .polled 1] ++
      .yielded 1 [(0, false), (2, true)] :: overtaken ++ [.polled 1]) := by
  cases debugAssertions <;> decide +kernel

theorem overtakes_shared :
    ∃ s pre, Reachable (step ⟨false, 1, none, true⟩)
        (init (fun t => decide (t ≠ 0)) fun _ => none) s ∧
      s.log = pre ++ .yielded 1 [(0, false), (2, true)] :: overtaken ++ [.polled 1] ∧
      .polled 1 ∉ overtaken ∧ .takenOut 1 ∉ overtaken ∧
      .polled 0 ∉ overtaken ∧ .takenOut 0 ∉ overtaken := by
  obtain ⟨s, hs, hlog⟩ := Option.map_eq_some_iff.mp (log_overtaking false)
  exact ⟨s, _, reachable_of_exec _ hs, hlog, by decide, by decide, by decide, by decide⟩

end State

end Orengine.Runtime.Machine
