import Orengine.Runtime.Interaction.Interactor
import Orengine.Runtime.GlobalState.Safety.Subscribed

/-!
# Where a task that was sent is

A task that was sent goes from the sender's batch to the target's task queue and from there to the
target's run queue, and no step loses or doubles it, but one: the map with the batches is made anew
whenever an executor was registered or stopped, and a batch that was not flushed before is lost.
`conserved_iff` says that this is the only way.
-/

namespace Orengine.Runtime

open Orengine.Utils Orengine.Lib

namespace TaskDeques

/-- How often a task is in the deques. -/
def count (d : TaskDeques) (n : ℕ) : ℕ :=
  d.localTasks.countP (·.number == n) + d.sharedTasks.countP (·.number == n)

@[simp] theorem count_empty (n : ℕ) : empty.count n = 0 := rfl

theorem count_append (d other : TaskDeques) (n : ℕ) :
    (d.append other).count n = d.count n + other.count n := by
  simp only [count, append, List.countP_append]
  omega

theorem count_pushBack (d : TaskDeques) (task : SentTask) (n : ℕ) :
    (d.pushBack task).count n = d.count n + if task.number = n then 1 else 0 := by
  rw [pushBack]
  split
  · simp only [count, List.countP_append, List.countP_singleton, beq_iff_eq]
    omega
  · simp only [count, List.countP_append, List.countP_singleton, beq_iff_eq]
    omega

private theorem countP_getLast? {l : List SentTask} {task : SentTask} (h : l.getLast? = some task)
    (n : ℕ) : l.countP (·.number == n) =
      l.dropLast.countP (·.number == n) + if task.number = n then 1 else 0 := by
  obtain ⟨init, rfl⟩ := List.getLast?_eq_some_iff.mp h
  simp only [List.dropLast_concat, List.countP_append, List.countP_singleton, beq_iff_eq]

variable {d : TaskDeques}

theorem count_of_popBack {d' : TaskDeques} {isLocal : Bool} {task : SentTask}
    (h : d.popBack isLocal = some (task, d')) (n : ℕ) :
    d.count n = d'.count n + if task.number = n then 1 else 0 := by
  rw [popBack] at h
  split at h
  · obtain ⟨last, hlast, heq⟩ := Option.map_eq_some_iff.mp h
    cases heq
    simp only [count, countP_getLast? hlast]
    omega
  · obtain ⟨last, hlast, heq⟩ := Option.map_eq_some_iff.mp h
    cases heq
    simp only [count, countP_getLast? hlast]
    omega

theorem eq_empty_of_isEmpty (h : d.isEmpty = true) : d = empty := by
  obtain ⟨localTasks, sharedTasks⟩ := d
  simp only [isEmpty, Bool.and_eq_true, List.isEmpty_iff] at h
  rw [h.1, h.2]
  rfl

theorem tryToAppendTasks_eq (queue batch : TaskDeques) (isLocked : Bool) :
    queue.tryToAppendTasks batch isLocked =
      (if isLocked then queue else queue.append batch, if isLocked then batch else empty,
        batch.isEmpty || !isLocked) := by
  rw [tryToAppendTasks]
  by_cases h : batch.isEmpty = true
  · rw [if_pos h, eq_empty_of_isEmpty h]
    simp [append, empty, isEmpty]
  · rw [if_neg h]
    cases isLocked with
    | true => simp [h]
    | false => simp

theorem exists_count_pos (h : d.isEmpty = false) : ∃ n, 0 < d.count n := by
  obtain ⟨localTasks, sharedTasks⟩ := d
  -- A task of one of the deques is in that deque.
  have hpos : ∀ (l : List SentTask) task, task ∈ l → 0 < l.countP (·.number == task.number) :=
    fun l task htask => List.countP_pos_iff.mpr ⟨task, htask, beq_self_eq_true _⟩
  cases localTasks with
  | cons task rest =>
    exact ⟨task.number, Nat.add_pos_left (hpos _ task List.mem_cons_self) _⟩
  | nil =>
    cases sharedTasks with
    | cons task rest =>
      exact ⟨task.number, Nat.add_pos_right _ (hpos _ task List.mem_cons_self)⟩
    | nil => cases h

end TaskDeques

namespace Interactors

variable {hasList : ℕ → Bool}

/-- The batch of an executor for another one. -/
def batch (w : Interactors) (i j : ℕ) : TaskDeques := ((w.interactors i).all.get j).getD .empty

/-- Whether the map of an executor has a batch for another one. -/
def Mapped (w : Interactors) (i j : ℕ) : Prop := ((w.interactors i).all.get j).isSome

/-- In how many places a task from `i` to `j` is. -/
def places (w : Interactors) (i j n : ℕ) : ℕ :=
  (w.batch i j).count n + (w.queues j).count n + (w.tasks j).count n

/-- The map of executor `i` was made anew. -/
structure Remade (s t : Interactors) (i : ℕ) : Prop where
  alive : i ∈ s.registry.global.alive.keys
  global : t.registry.global = s.registry.global
  batch : ∀ k j, t.batch k j = if k = i then .empty else s.batch k j
  queues : t.queues = s.queues
  tasks : t.tasks = s.tasks
  routes : t.routes = s.routes
  executed : t.executed = s.executed

/-- What a step does with the tasks. -/
inductive Effect (s t : Interactors) : Action → Prop
  | stay {a : Action} (batch : t.batch = s.batch) (queues : t.queues = s.queues)
    (tasks : t.tasks = s.tasks) (routes : t.routes = s.routes)
    (executed : t.executed = s.executed) : Effect s t a
  | remade (i : ℕ) (h : Remade s t i) : Effect s t (.registry (.update i))
  | sent (i j : ℕ) (task : SentTask) (ne : j ≠ i) (mapped : s.Mapped i j)
    (number : task.number = s.routes.length)
    (batch : ∀ k l, t.batch k l =
      if k = i ∧ l = j then (s.batch i j).pushBack task else s.batch k l)
    (queues : t.queues = s.queues) (tasks : t.tasks = s.tasks)
    (routes : t.routes = s.routes ++ [(i, j)]) (executed : t.executed = s.executed) :
    Effect s t (.send i j task.isLocal)
  | spawned (i : ℕ) (task : SentTask) (number : task.number = s.routes.length)
    (batch : t.batch = s.batch) (queues : t.queues = s.queues)
    (tasks : t.tasks = Function.update s.tasks i ((s.tasks i).pushBack task))
    (routes : t.routes = s.routes ++ [(i, i)]) (executed : t.executed = s.executed) :
    Effect s t (.send i i task.isLocal)
  | flushed {a : Action} (i j : ℕ)
    (batch : ∀ k l, t.batch k l = if k = i ∧ l = j then .empty else s.batch k l)
    (queues : t.queues = Function.update s.queues j ((s.queues j).append (s.batch i j)))
    (tasks : t.tasks = s.tasks) (routes : t.routes = s.routes)
    (executed : t.executed = s.executed) : Effect s t a
  | taken {a : Action} (i : ℕ) (batch : t.batch = s.batch)
    (queues : t.queues = Function.update s.queues i .empty)
    (tasks : t.tasks = Function.update s.tasks i ((s.tasks i).append (s.queues i)))
    (routes : t.routes = s.routes) (executed : t.executed = s.executed) : Effect s t a
  | exec (i : ℕ) (isLocal : Bool) (task : SentTask) (d : TaskDeques)
    (pop : (s.tasks i).popBack isLocal = some (task, d)) (batch : t.batch = s.batch)
    (queues : t.queues = s.queues) (tasks : t.tasks = Function.update s.tasks i d)
    (routes : t.routes = s.routes) (executed : t.executed = s.executed ++ [task.number]) :
    Effect s t (.exec i isLocal)

structure Moves (hasList : ℕ → Bool) (s t : Interactors) (a : Action) : Prop where
  effect : Effect s t a
  registry : t.registry = s.registry ∨
    ∃ b, a = .registry b ∧ s.registry.step hasList b = some t.registry
  mapped : ∀ i j, t.Mapped i j →
    s.Mapped i j ∨ i ∈ s.registry.order ∧ j ∈ s.registry.global.alive.keys

/-- The two differ only in what `do_work` remembers. -/
structure Alike (s t : Interactors) : Prop where
  registry : t.registry = s.registry
  all : ∀ i, (t.interactors i).all = (s.interactors i).all
  queues : t.queues = s.queues
  tasks : t.tasks = s.tasks
  routes : t.routes = s.routes
  executed : t.executed = s.executed

variable {s t t' : Interactors} {a : Action}

theorem Alike.batch (h : Alike s t) : t.batch = s.batch := by
  funext i j
  rw [Interactors.batch, h.all, Interactors.batch]

theorem alike_goto (w : Interactors) (id : ℕ) (p : Place) : Alike w (w.goto id p) :=
  ⟨rfl, fun _ => rfl, rfl, rfl, rfl, rfl⟩

/-- Another interactor with the same map. -/
theorem alike_idToRetry (w : Interactors) (id : ℕ) (ids : List ℕ) :
    Alike w (w.setInteractor id { w.interactors id with idToRetry := ids }) := by
  refine ⟨rfl, fun i => ?_, rfl, rfl, rfl, rfl⟩
  by_cases hi : i = id
  · simp [setInteractor, hi]
  · simp [setInteractor, hi]

theorem Alike.trans (h : Alike s t) (h' : Alike t t') : Alike s t' :=
  ⟨h'.registry.trans h.registry, fun i => (h'.all i).trans (h.all i), h'.queues.trans h.queues,
    h'.tasks.trans h.tasks, h'.routes.trans h.routes, h'.executed.trans h.executed⟩

theorem alike_drainIdToRetry (w : Interactors) (id : ℕ) : Alike w (w.drainIdToRetry id) :=
  (alike_idToRetry w id []).trans (alike_goto _ _ _)

theorem Alike.moves (h : Alike s t) : Moves hasList s t a where
  effect := .stay h.batch h.queues h.tasks h.routes h.executed
  registry := .inl h.registry
  mapped := by
    intro i j hmapped
    rw [Mapped, h.all] at hmapped
    exact .inl hmapped

theorem Effect.alike (h : Effect s t a) (h' : Alike t t') : Effect s t' a := by
  cases h with
  | stay batch queues tasks routes executed =>
    exact .stay (h'.batch.trans batch) (h'.queues.trans queues) (h'.tasks.trans tasks)
      (h'.routes.trans routes) (h'.executed.trans executed)
  | remade i h =>
    refine .remade i ⟨h.alive, ?_, fun k j => ?_, h'.queues.trans h.queues,
      h'.tasks.trans h.tasks, h'.routes.trans h.routes, h'.executed.trans h.executed⟩
    · rw [h'.registry, h.global]
    · rw [h'.batch, h.batch]
  | sent i j task ne mapped number batch queues tasks routes executed =>
    refine .sent i j task ne mapped number (fun k l => ?_) (h'.queues.trans queues)
      (h'.tasks.trans tasks) (h'.routes.trans routes) (h'.executed.trans executed)
    rw [h'.batch, batch]
  | spawned i task number batch queues tasks routes executed =>
    exact .spawned i task number (h'.batch.trans batch) (h'.queues.trans queues)
      (h'.tasks.trans tasks) (h'.routes.trans routes) (h'.executed.trans executed)
  | flushed i j batch queues tasks routes executed =>
    refine .flushed i j (fun k l => ?_) (h'.queues.trans queues) (h'.tasks.trans tasks)
      (h'.routes.trans routes) (h'.executed.trans executed)
    rw [h'.batch, batch]
  | taken i batch queues tasks routes executed =>
    exact .taken i (h'.batch.trans batch) (h'.queues.trans queues) (h'.tasks.trans tasks)
      (h'.routes.trans routes) (h'.executed.trans executed)
  | exec i isLocal task d pop batch queues tasks routes executed =>
    exact .exec i isLocal task d pop (h'.batch.trans batch) (h'.queues.trans queues)
      (h'.tasks.trans tasks) (h'.routes.trans routes) (h'.executed.trans executed)

theorem Moves.alike (h : Moves hasList s t a) (h' : Alike t t') : Moves hasList s t' a where
  effect := h.effect.alike h'
  registry := by
    rw [h'.registry]
    exact h.registry
  mapped := by
    intro i j hmapped
    rw [Mapped, h'.all] at hmapped
    exact h.mapped i j hmapped

theorem moves_tryToTakeTasks (s : Interactors) (id : ℕ) (isLocked : Bool) :
    Moves hasList s (s.tryToTakeTasks id isLocked).1 a := by
  refine ⟨?_, .inl rfl, fun i j hmapped => .inl hmapped⟩
  cases isLocked with
  | true =>
    refine .stay rfl ?_ ?_ rfl rfl
    · exact Function.update_eq_self id s.queues
    · exact Function.update_eq_self id s.tasks
  | false => exact .taken id rfl rfl rfl rfl rfl

theorem queues_tryToAppendTasks (s : Interactors) (id executorId : ℕ) (b : TaskDeques)
    (isLocked : Bool) :
    (s.tryToAppendTasks id executorId b isLocked).1.queues = Function.update s.queues executorId
      (if isLocked then s.queues executorId else (s.queues executorId).append b) := by
  simp only [tryToAppendTasks, TaskDeques.tryToAppendTasks_eq]

variable {executorId i id j n : ℕ} {b : TaskDeques} {r : Executors} {p : ℕ × ℕ}

theorem get_tryToAppendTasks (s : Interactors)
    (hb : (s.interactors id).all.get executorId = some b) (isLocked : Bool) (k l : ℕ) :
    ((s.tryToAppendTasks id executorId b isLocked).1.interactors k).all.get l =
      if k = id ∧ l = executorId then some (if isLocked then b else .empty)
      else (s.interactors k).all.get l := by
  simp only [tryToAppendTasks, TaskDeques.tryToAppendTasks_eq]
  by_cases hk : k = id
  · subst hk
    rw [Function.update_self]
    show VecMap.get (VecMap.modify _ _ _) l = _
    rw [VecMap.get_modify]
    by_cases hl : l = executorId
    · simp [hl, hb]
    · simp [hl]
  · simp [hk]

theorem batch_tryToAppendTasks (s : Interactors)
    (hb : (s.interactors id).all.get executorId = some b) (isLocked : Bool) (k l : ℕ) :
    (s.tryToAppendTasks id executorId b isLocked).1.batch k l =
      if k = id ∧ l = executorId then (if isLocked then s.batch id executorId else .empty)
      else s.batch k l := by
  have hbatch : s.batch id executorId = b := by rw [batch, hb, Option.getD_some]
  rw [batch, get_tryToAppendTasks s hb, hbatch]
  split
  · rfl
  · rfl

theorem mapped_tryToAppendTasks (s : Interactors)
    (hb : (s.interactors id).all.get executorId = some b) (isLocked : Bool) (k l : ℕ) :
    (s.tryToAppendTasks id executorId b isLocked).1.Mapped k l ↔ s.Mapped k l := by
  rw [Mapped, get_tryToAppendTasks s hb, Mapped]
  split
  case isTrue hkl => simp [hkl, hb]
  case isFalse => rfl

theorem moves_tryToAppendTasks (s : Interactors)
    (hb : (s.interactors id).all.get executorId = some b) (isLocked : Bool) :
    Moves hasList s (s.tryToAppendTasks id executorId b isLocked).1 a := by
  have hqueues := queues_tryToAppendTasks s id executorId b isLocked
  have hbatch := batch_tryToAppendTasks s hb isLocked
  refine ⟨?_, .inl rfl, fun i j hmapped => .inl ?_⟩
  · cases isLocked with
    | true =>
      refine .stay ?_ (hqueues.trans (Function.update_eq_self _ _)) rfl rfl rfl
      funext k l
      rw [hbatch]
      split
      case isTrue hkl => rw [hkl.1, hkl.2, if_pos rfl]
      case isFalse => rfl
    | false =>
      refine .flushed id executorId hbatch ?_ rfl rfl rfl
      rw [hqueues, batch, hb, Option.getD_some, if_neg Bool.false_ne_true]
  · exact (mapped_tryToAppendTasks s hb isLocked i j).mp hmapped

theorem moves_go {isLocked : Bool} (hgo : s.go id isLocked = some t) : Moves hasList s t a := by
  simp only [go] at hgo
  split at hgo
  case h_1 => cases hgo
  case h_2 =>
    cases hgo
    exact (moves_tryToTakeTasks s id isLocked).alike (alike_goto _ _ _)
  case h_3 =>
    split at hgo
    case h_1 b hb =>
      have hmoves : Moves hasList s _ a := moves_tryToAppendTasks s hb isLocked
      split at hgo
      · cases hgo
        exact hmoves.alike (alike_goto _ _ _)
      · cases hgo
        exact (hmoves.alike (alike_idToRetry _ _ _)).alike (alike_goto _ _ _)
    case h_2 => cases hgo
  case h_4 =>
    cases hgo
    exact (alike_drainIdToRetry s id).moves
  case h_5 =>
    cases hgo
    exact (alike_goto s id _).moves
  case h_6 =>
    cases hgo
    exact (moves_tryToTakeTasks s id isLocked).alike (alike_drainIdToRetry _ _)
  case h_7 =>
    split at hgo
    case h_1 b hb =>
      cases hgo
      exact (moves_tryToAppendTasks s hb isLocked).alike (alike_goto _ _ _)
    case h_2 =>
      cases hgo
      exact Alike.moves ⟨rfl, fun _ => rfl, rfl, rfl, rfl, rfl⟩
  case h_8 =>
    cases hgo
    exact (alike_goto s id _).moves

theorem moves_setRegistry {b : Executors.Action} (hb : s.registry.step hasList b = some r) :
    Moves hasList s (s.setRegistry r) (.registry b) :=
  ⟨.stay rfl rfl rfl rfl rfl, .inr ⟨b, rfl, hb⟩, fun _ _ hmapped => .inl hmapped⟩

/-- An alive executor ends a check. -/
theorem remade_of_update (hr : s.registry.step hasList (.update i) = some r)
    (halive : i ∈ s.registry.global.alive.keys) : Remade s ((s.remake i).setRegistry r) i := by
  refine ⟨halive, ?_, fun k j => ?_, rfl, rfl, rfl, rfl⟩
  · rcases Executors.global_of_step hr with ⟨hglobal, -⟩ | ⟨hunlock, -⟩
    · exact hglobal
    · cases hunlock
  · by_cases hk : k = i
    · subst hk
      simp only [batch, setRegistry, remake, setInteractor, Function.update_self, if_true,
        GlobalState.get_remake]
      split
      · rfl
      · rfl
    · simp [batch, setRegistry, remake, setInteractor, hk]

theorem moves_of_update (hsound : s.registry.Sound hasList)
    (hr : s.registry.step hasList (.update i) = some r)
    (halive : i ∈ s.registry.global.alive.keys) :
    Moves hasList s ((s.remake i).setRegistry r) (.registry (.update i)) := by
  refine ⟨.remade i (remade_of_update hr halive), .inr ⟨_, rfl, hr⟩, fun k j hmapped => ?_⟩
  by_cases hk : k = i
  · subst hk
    have hj : j ∈ (s.registry.global.remake (fun _ => TaskDeques.empty)
        (s.interactors k).all).keys := by
      rw [VecMap.mem_keys]
      simpa [Mapped, setRegistry, remake, setInteractor] using hmapped
    exact .inr ⟨hsound.consistent.alive k halive, (GlobalState.mem_keys_remake _ _ _ j).mp hj⟩
  · exact .inl (by simpa [Mapped, setRegistry, remake, setInteractor, hk] using hmapped)

theorem moves_send {isLocal : Bool} {r : Interactors × SendTaskResult}
    (hr : s.sendTaskToExecutor id executorId ⟨s.routes.length, isLocal⟩ = r) (hok : r.2 = .ok) :
    Moves hasList s (r.1.accept id executorId) (.send id executorId isLocal) := by
  subst hr
  simp only [sendTaskToExecutor] at hok ⊢
  by_cases hid : executorId = id
  · subst hid
    rw [if_neg (not_not.mpr rfl)]
    exact ⟨.spawned executorId ⟨s.routes.length, isLocal⟩ rfl rfl rfl rfl rfl rfl, .inl rfl,
      fun _ _ hmapped => .inl hmapped⟩
  · rw [if_pos hid] at hok ⊢
    simp only [Interactor.sendTaskToExecutor] at hok ⊢
    cases hget : (s.interactors id).all.get executorId with
    | none =>
      rw [hget] at hok
      cases hok
    | some b =>
      have hmapped : s.Mapped id executorId := by
        rw [Mapped, hget]
        rfl
      refine ⟨.sent id executorId ⟨s.routes.length, isLocal⟩ hid hmapped rfl (fun k l => ?_)
        rfl rfl rfl rfl, .inl rfl, fun k l hkl => .inl ?_⟩
      · by_cases hk : k = id
        · subst hk
          by_cases hl : l = executorId
          · subst hl
            simp [batch, accept, setInteractor, VecMap.get_modify, hget]
          · simp [batch, accept, setInteractor, VecMap.get_modify, hl]
        · simp [batch, accept, setInteractor, hk]
      · by_cases hk : k = id
        · subst hk
          by_cases hl : l = executorId
          · exact hl ▸ hmapped
          · simpa [Mapped, accept, setInteractor, VecMap.get_modify, hl] using hkl
        · simpa [Mapped, accept, setInteractor, hk] using hkl

theorem moves_of_step (hsound : s.registry.Sound hasList) (hstep : s.step hasList a = some t) :
    Moves hasList s t a := by
  cases a with
  | registry b =>
    cases b with
    | checkVersion id =>
      obtain ⟨-, hstep⟩ := Option.ite_none_right_eq_some.mp hstep
      obtain ⟨r, hr, rfl⟩ := Option.map_eq_some_iff.mp hstep
      exact moves_setRegistry hr
    | update id =>
      obtain ⟨r, hr, rfl⟩ := Option.map_eq_some_iff.mp hstep
      by_cases halive : id ∈ s.registry.global.alive.keys
      · rw [if_pos halive]
        exact moves_of_update hsound hr halive
      · rw [if_neg halive]
        exact moves_setRegistry hr
    | register id | stopExecutor id | stopAllExecutors | setVersion | unlock =>
      obtain ⟨r, hr, rfl⟩ := Option.map_eq_some_iff.mp hstep
      exact moves_setRegistry hr
  | send id executorId isLocal =>
    obtain ⟨-, hstep⟩ := Option.ite_none_right_eq_some.mp hstep
    split at hstep
    case h_1 hok =>
      cases hstep
      exact moves_send rfl hok
    case h_2 =>
      cases hstep
      exact Alike.moves ⟨rfl, fun _ => rfl, rfl, rfl, rfl, rfl⟩
  | doWork id =>
    obtain ⟨-, rfl⟩ := of_guard hstep
    exact (alike_goto s id _).moves
  | go id isLocked => exact moves_go hstep
  | exec id isLocal =>
    obtain ⟨-, hstep⟩ := Option.ite_none_right_eq_some.mp hstep
    obtain ⟨⟨task, d⟩, hpop, rfl⟩ := Option.map_eq_some_iff.mp hstep
    exact ⟨.exec id isLocal task d hpop rfl rfl rfl rfl rfl, .inl rfl,
      fun _ _ hmapped => .inl hmapped⟩

/-! ### The invariant -/

/-- In how many places a task from `i` to `j` is, where its execution counts as one. -/
def total (w : Interactors) (i j n : ℕ) : ℕ := w.places i j n + w.executed.count n

/-- The invariant of all runs. -/
structure Sound (hasList : ℕ → Bool) (w : Interactors) : Prop where
  registry : w.registry.Sound hasList
  mapped : ∀ i j, w.Mapped i j → i ∈ w.registry.order ∧ j ∈ w.registry.order
  routed : ∀ n i j : ℕ, w.routes[n]? = some (i, j) → i ≠ j →
    i ∈ w.registry.order ∧ j ∈ w.registry.order
  batch : ∀ i j n, 0 < (w.batch i j).count n → i ≠ j ∧ w.routes[n]? = some (i, j)
  queues : ∀ j n, 0 < (w.queues j).count n → ∃ i, i ≠ j ∧ w.routes[n]? = some (i, j)
  tasks : ∀ j n, 0 < (w.tasks j).count n → ∃ i, w.routes[n]? = some (i, j)
  executed : ∀ n ∈ w.executed, n < w.routes.length
  total_le : ∀ n i j : ℕ, w.routes[n]? = some (i, j) → w.total i j n ≤ 1
  total_own : ∀ n i : ℕ, w.routes[n]? = some (i, i) → w.total i i n = 1

theorem Sound.count_batch (h : Sound hasList s) (hroute : s.routes[n]? ≠ some (i, j)) :
    (s.batch i j).count n = 0 := by
  by_contra hpos
  exact hroute (h.batch i j n (Nat.pos_of_ne_zero hpos)).2

theorem Sound.count_queues (h : Sound hasList s) (hroute : ∀ i, s.routes[n]? ≠ some (i, j)) :
    (s.queues j).count n = 0 := by
  by_contra hpos
  obtain ⟨i, -, heq⟩ := h.queues j n (Nat.pos_of_ne_zero hpos)
  exact hroute i heq

theorem Sound.count_tasks (h : Sound hasList s) (hroute : ∀ i, s.routes[n]? ≠ some (i, j)) :
    (s.tasks j).count n = 0 := by
  by_contra hpos
  obtain ⟨i, heq⟩ := h.tasks j n (Nat.pos_of_ne_zero hpos)
  exact hroute i heq

theorem Sound.total_eq_zero (h : Sound hasList s) (i j : ℕ) (hn : s.routes.length ≤ n) :
    s.total i j n = 0 := by
  have hnone : ∀ p, s.routes[n]? ≠ some p := by
    intro p
    rw [List.getElem?_eq_none hn]
    rintro ⟨⟩
  have hexecuted : s.executed.count n = 0 :=
    List.count_eq_zero_of_not_mem fun hmem => absurd (h.executed n hmem) (not_lt.mpr hn)
  rw [total, places, h.count_batch (hnone _), h.count_queues fun _ => hnone _,
    h.count_tasks fun _ => hnone _, hexecuted]

theorem Effect.routes_prefix (h : Effect s t a) : s.routes <+: t.routes := by
  cases h with
  | stay _ _ _ routes | flushed _ _ _ _ _ routes | taken _ _ _ _ routes
  | exec _ _ _ _ _ _ _ _ routes =>
    rw [routes]
  | remade i h => rw [h.routes]
  | sent _ _ _ _ _ _ _ _ _ routes | spawned _ _ _ _ _ _ routes =>
    rw [routes]
    exact List.prefix_append _ _

theorem Effect.route_mono (h : Effect s t a) (hp : s.routes[n]? = some p) :
    t.routes[n]? = some p := by
  obtain ⟨l, hl⟩ := h.routes_prefix
  rw [← hl, List.getElem?_append_left (List.getElem?_eq_some_iff.mp hp).1, hp]

/-- A route after the step was one before, or it is the one of the task that is sent now. -/
theorem Effect.route_old (h : Effect s t a) (hp : t.routes[n]? = some p) :
    s.routes[n]? = some p ∨ s.routes.length ≤ n := by
  rcases Nat.lt_or_ge n s.routes.length with hlt | hge
  · have hget := List.getElem?_eq_getElem hlt
    rw [hget, ← hp, h.route_mono hget]
    exact .inl rfl
  · exact .inr hge

/-- A task that was sent before stays where it is or moves on, unless its batch is lost. -/
theorem Effect.total_eq (h : Effect s t a) (hs : Sound hasList s)
    (hroute : s.routes[n]? = some (i, j)) :
    t.total i j n = s.total i j n ∨
    a = .registry (.update i) ∧ Remade s t i ∧
      t.total i j n + (s.batch i j).count n = s.total i j n := by
  have hlt : n < s.routes.length := (List.getElem?_eq_some_iff.mp hroute).1
  cases h with
  | stay batch queues tasks routes executed =>
    left
    rw [total, places, batch, queues, tasks, executed, total, places]
  | remade k h =>
    by_cases hk : i = k
    · subst hk
      refine .inr ⟨rfl, h, ?_⟩
      rw [total, places, h.batch, if_pos rfl, h.queues, h.tasks, h.executed, total, places,
        TaskDeques.count_empty]
      omega
    · left
      rw [total, places, h.batch, if_neg hk, h.queues, h.tasks, h.executed, total, places]
  | sent k l task ne mapped number batch queues tasks routes executed =>
    left
    have hne : task.number ≠ n := by omega
    rw [total, places, batch, queues, tasks, executed, total, places]
    split
    case isTrue hkl => rw [TaskDeques.count_pushBack, if_neg hne, hkl.1, hkl.2, Nat.add_zero]
    case isFalse => rfl
  | spawned k task number batch queues tasks routes executed =>
    left
    have hne : task.number ≠ n := by omega
    rw [total, places, batch, queues, tasks, executed, total, places]
    by_cases hj : j = k
    · rw [hj, Function.update_self, TaskDeques.count_pushBack, if_neg hne, Nat.add_zero]
    · rw [Function.update_of_ne hj]
  | flushed k l batch queues tasks routes executed =>
    left
    rw [total, places, batch, queues, tasks, executed, total, places]
    by_cases hl : j = l
    · subst hl
      rw [Function.update_self, TaskDeques.count_append]
      by_cases hk : i = k
      · subst hk
        rw [if_pos ⟨rfl, rfl⟩, TaskDeques.count_empty]
        omega
      · have hzero : (s.batch k j).count n = 0 := hs.count_batch (by simp [hroute, hk])
        rw [if_neg (fun h => hk h.1), hzero, Nat.add_zero]
    · rw [Function.update_of_ne hl, if_neg (fun h => hl h.2)]
  | taken k batch queues tasks routes executed =>
    left
    rw [total, places, batch, queues, tasks, executed, total, places]
    by_cases hj : j = k
    · subst hj
      rw [Function.update_self, Function.update_self, TaskDeques.count_append,
        TaskDeques.count_empty]
      omega
    · rw [Function.update_of_ne hj, Function.update_of_ne hj]
  | exec k isLocal task d pop batch queues tasks routes executed =>
    left
    have hpop := TaskDeques.count_of_popBack pop n
    rw [total, places, batch, queues, tasks, executed, total, places, List.count_append,
      List.count_singleton]
    simp only [beq_iff_eq]
    by_cases hj : j = k
    · subst hj
      rw [Function.update_self]
      omega
    · have hzero : (s.tasks k).count n = 0 := hs.count_tasks (by simp [hroute, hj])
      rw [Function.update_of_ne hj]
      omega

theorem route_append {r : List (ℕ × ℕ)} {q : ℕ × ℕ} (hn : r.length ≤ n)
    (h : (r ++ [p])[n]? = some q) : n = r.length ∧ p = q := by
  rw [List.getElem?_append_right hn, List.getElem?_singleton] at h
  split at h
  case isTrue hzero => exact ⟨by omega, Option.some.inj h⟩
  case isFalse => cases h

/-- A task that is sent now is in one place, and its sender had a batch for its target. -/
theorem Effect.new (h : Effect s t a) (hs : Sound hasList s) (hroute : t.routes[n]? = some (i, j))
    (hn : s.routes.length ≤ n) : t.total i j n = 1 ∧ (i ≠ j → s.Mapped i j) := by
  have hsame : t.routes ≠ s.routes := by
    intro heq
    rw [heq, List.getElem?_eq_none hn] at hroute
    cases hroute
  have hzero := hs.total_eq_zero i j hn
  rw [total, places] at hzero ⊢
  cases h with
  | stay _ _ _ routes | flushed _ _ _ _ _ routes | taken _ _ _ _ routes
  | exec _ _ _ _ _ _ _ _ routes =>
    exact absurd routes hsame
  | remade i h => exact absurd h.routes hsame
  | sent k l task ne mapped number batch queues tasks routes executed =>
    obtain ⟨rfl, hkl⟩ := route_append hn (routes ▸ hroute)
    cases hkl
    refine ⟨?_, fun _ => mapped⟩
    rw [batch, if_pos ⟨rfl, rfl⟩, queues, tasks, executed, TaskDeques.count_pushBack,
      if_pos number]
    omega
  | spawned k task number batch queues tasks routes executed =>
    obtain ⟨rfl, hkl⟩ := route_append hn (routes ▸ hroute)
    cases hkl
    refine ⟨?_, fun hne => absurd rfl hne⟩
    rw [batch, queues, tasks, executed, Function.update_self, TaskDeques.count_pushBack,
      if_pos number]
    omega

theorem Effect.batch_pos (h : Effect s t a) (hpos : 0 < (t.batch i j).count n) :
    0 < (s.batch i j).count n ∨ i ≠ j ∧ t.routes[n]? = some (i, j) := by
  cases h with
  | stay batch | spawned _ _ _ batch | taken _ batch | exec _ _ _ _ _ batch =>
    rw [batch] at hpos
    exact .inl hpos
  | remade k h =>
    rw [h.batch] at hpos
    split at hpos
    · cases hpos
    · exact .inl hpos
  | flushed k l batch =>
    rw [batch] at hpos
    split at hpos
    · cases hpos
    · exact .inl hpos
  | sent k l task ne mapped number batch queues tasks routes =>
    rw [batch] at hpos
    split at hpos
    case isTrue hkl =>
      obtain ⟨rfl, rfl⟩ := hkl
      rw [TaskDeques.count_pushBack] at hpos
      by_cases hn : task.number = n
      · refine .inr ⟨Ne.symm ne, ?_⟩
        rw [routes, ← hn, number, List.getElem?_concat_length]
      · rw [if_neg hn] at hpos
        exact .inl hpos
    case isFalse => exact .inl hpos

theorem Effect.queues_pos (h : Effect s t a) (hpos : 0 < (t.queues j).count n) :
    0 < (s.queues j).count n ∨ ∃ i, 0 < (s.batch i j).count n := by
  cases h with
  | stay _ queues | sent _ _ _ _ _ _ _ queues | spawned _ _ _ _ queues
  | exec _ _ _ _ _ _ queues =>
    rw [queues] at hpos
    exact .inl hpos
  | remade k h =>
    rw [h.queues] at hpos
    exact .inl hpos
  | flushed k l batch queues =>
    rw [queues] at hpos
    by_cases hl : j = l
    · subst hl
      rw [Function.update_self, TaskDeques.count_append] at hpos
      rcases Nat.eq_zero_or_pos ((s.queues j).count n) with hzero | hqueue
      · exact .inr ⟨k, by omega⟩
      · exact .inl hqueue
    · rw [Function.update_of_ne hl] at hpos
      exact .inl hpos
  | taken k batch queues =>
    rw [queues] at hpos
    by_cases hk : j = k
    · rw [hk, Function.update_self] at hpos
      cases hpos
    · rw [Function.update_of_ne hk] at hpos
      exact .inl hpos

theorem Effect.tasks_pos (h : Effect s t a) (hpos : 0 < (t.tasks j).count n) :
    0 < (s.tasks j).count n ∨ 0 < (s.queues j).count n ∨ t.routes[n]? = some (j, j) := by
  cases h with
  | stay _ _ tasks | sent _ _ _ _ _ _ _ _ tasks | flushed _ _ _ _ tasks =>
    rw [tasks] at hpos
    exact .inl hpos
  | remade k h =>
    rw [h.tasks] at hpos
    exact .inl hpos
  | spawned k task number batch queues tasks routes =>
    rw [tasks] at hpos
    by_cases hk : j = k
    · subst hk
      rw [Function.update_self, TaskDeques.count_pushBack] at hpos
      by_cases hn : task.number = n
      · refine .inr (.inr ?_)
        rw [routes, ← hn, number, List.getElem?_concat_length]
      · rw [if_neg hn] at hpos
        exact .inl hpos
    · rw [Function.update_of_ne hk] at hpos
      exact .inl hpos
  | taken k batch queues tasks =>
    rw [tasks] at hpos
    by_cases hk : j = k
    · subst hk
      rw [Function.update_self, TaskDeques.count_append] at hpos
      omega
    · rw [Function.update_of_ne hk] at hpos
      exact .inl hpos
  | exec k isLocal task d pop batch queues tasks =>
    rw [tasks] at hpos
    by_cases hk : j = k
    · subst hk
      rw [Function.update_self] at hpos
      have hpop := TaskDeques.count_of_popBack pop n
      exact .inl (by omega)
    · rw [Function.update_of_ne hk] at hpos
      exact .inl hpos

theorem Effect.executed_mem (h : Effect s t a) (hn : n ∈ t.executed) :
    n ∈ s.executed ∨ ∃ j, 0 < (s.tasks j).count n := by
  cases h with
  | stay _ _ _ _ executed | sent _ _ _ _ _ _ _ _ _ _ executed | spawned _ _ _ _ _ _ _ executed
  | flushed _ _ _ _ _ _ executed | taken _ _ _ _ _ executed =>
    rw [executed] at hn
    exact .inl hn
  | remade k h =>
    rw [h.executed] at hn
    exact .inl hn
  | exec k isLocal task d pop batch queues tasks routes executed =>
    rw [executed] at hn
    rcases List.mem_append.mp hn with hn | hn
    · exact .inl hn
    · have hpop := TaskDeques.count_of_popBack pop n
      rw [if_pos (List.mem_singleton.mp hn).symm] at hpop
      exact .inr ⟨k, by omega⟩

theorem sound_init : Sound hasList init where
  registry := Executors.sound_init
  mapped := by rintro i j ⟨⟩
  routed := by rintro n i j ⟨⟩
  batch := by rintro i j n ⟨⟩
  queues := by rintro j n ⟨⟩
  tasks := by rintro j n ⟨⟩
  executed := by rintro n ⟨⟩
  total_le := by rintro n i j ⟨⟩
  total_own := by rintro n i ⟨⟩

/-- The executors that were registered stay so, and those that are not alive do not come back. -/
theorem Moves.order_alive (h : Moves hasList s t a) (hs : Sound hasList s)
    (hi : i ∈ s.registry.order) :
    i ∈ t.registry.order ∧
      (i ∈ t.registry.global.alive.keys → i ∈ s.registry.global.alive.keys) := by
  rcases h.registry with heq | ⟨b, -, hb⟩
  · rw [heq]
    exact ⟨hi, id⟩
  · exact hs.registry.order_alive_of_step hb hi

theorem Sound.step (hs : Sound hasList s) (hstep : s.step hasList a = some t) :
    Sound hasList t := by
  have hmoves := moves_of_step hs.registry hstep
  have heffect := hmoves.effect
  have horder : ∀ {i}, i ∈ s.registry.order → i ∈ t.registry.order :=
    fun hi => (hmoves.order_alive hs hi).1
  refine ⟨?_, ?_, ?_, ?_, ?_, ?_, ?_, ?_, ?_⟩
  · rcases hmoves.registry with heq | ⟨b, -, hb⟩
    · rw [heq]
      exact hs.registry
    · exact hs.registry.step hb
  · intro i j hmapped
    rcases hmoves.mapped i j hmapped with hmapped | ⟨hi, hj⟩
    · exact ⟨horder (hs.mapped i j hmapped).1, horder (hs.mapped i j hmapped).2⟩
    · exact ⟨horder hi, horder (hs.registry.consistent.alive j hj)⟩
  · intro n i j hroute hij
    rcases heffect.route_old hroute with hroute | hn
    · exact ⟨horder (hs.routed n i j hroute hij).1, horder (hs.routed n i j hroute hij).2⟩
    · have hmapped := hs.mapped i j ((heffect.new hs hroute hn).2 hij)
      exact ⟨horder hmapped.1, horder hmapped.2⟩
  · intro i j n hpos
    rcases heffect.batch_pos hpos with hpos | hnew
    · exact ⟨(hs.batch i j n hpos).1, heffect.route_mono (hs.batch i j n hpos).2⟩
    · exact hnew
  · intro j n hpos
    rcases heffect.queues_pos hpos with hpos | ⟨i, hpos⟩
    · obtain ⟨i, hne, hroute⟩ := hs.queues j n hpos
      exact ⟨i, hne, heffect.route_mono hroute⟩
    · exact ⟨i, (hs.batch i j n hpos).1, heffect.route_mono (hs.batch i j n hpos).2⟩
  · intro j n hpos
    rcases heffect.tasks_pos hpos with hpos | hpos | hnew
    · obtain ⟨i, hroute⟩ := hs.tasks j n hpos
      exact ⟨i, heffect.route_mono hroute⟩
    · obtain ⟨i, -, hroute⟩ := hs.queues j n hpos
      exact ⟨i, heffect.route_mono hroute⟩
    · exact ⟨j, hnew⟩
  · intro n hn
    have hle := heffect.routes_prefix.length_le
    rcases heffect.executed_mem hn with hn | ⟨j, hpos⟩
    · exact (hs.executed n hn).trans_le hle
    · obtain ⟨i, hroute⟩ := hs.tasks j n hpos
      exact (List.getElem?_eq_some_iff.mp hroute).1.trans_le hle
  · intro n i j hroute
    rcases heffect.route_old hroute with hroute | hn
    · have hle := hs.total_le n i j hroute
      rcases heffect.total_eq hs hroute with heq | ⟨-, -, heq⟩
      · rw [heq]
        exact hle
      · omega
    · exact (heffect.new hs hroute hn).1.le
  · intro n i hroute
    rcases heffect.route_old hroute with hroute | hn
    · have hone := hs.total_own n i hroute
      rcases heffect.total_eq hs hroute with heq | ⟨-, -, heq⟩
      · rw [heq, hone]
      · -- An executor has no batch with tasks for itself.
        have hzero : (s.batch i i).count n = 0 := by
          by_contra hpos
          exact (hs.batch i i n (Nat.pos_of_ne_zero hpos)).1 rfl
        omega
    · exact (heffect.new hs hroute hn).1

theorem sound {w : Interactors} (h : Reachable (step hasList) init w) : Sound hasList w :=
  h.invariant sound_init fun _ _ _ _ hs _ hstep => hs.step hstep

/-! ### Conservation -/

/-- Every task that was sent and not executed is in exactly one of the sender's batch, the target's
task queue and the target's run queue, if sender and target are alive. -/
def Conserved (w : Interactors) : Prop :=
  ∀ n i j : ℕ, w.routes[n]? = some (i, j) → n ∉ w.executed →
    i ∈ w.registry.global.alive.keys → j ∈ w.registry.global.alive.keys → w.places i j n = 1

/-- An alive executor updates its image, and its batch for an alive executor is not empty. -/
def DropsBatch (w : Interactors) (a : Action) : Prop :=
  ∃ i j, a = .registry (.update i) ∧ i ∈ w.registry.global.alive.keys ∧
    j ∈ w.registry.global.alive.keys ∧ (w.batch i j).isEmpty = false

theorem Conserved.step (h : Conserved s) (hs : Sound hasList s)
    (hstep : s.step hasList a = some t) (hdrop : ¬DropsBatch s a) : Conserved t := by
  intro n i j hroute hn hi hj
  have hmoves := moves_of_step hs.registry hstep
  have ht := hs.step hstep
  -- It is enough to count the execution too.
  suffices htotal : t.total i j n = 1 by
    rwa [total, List.count_eq_zero_of_not_mem hn, Nat.add_zero] at htotal
  by_cases hij : i = j
  · subst hij
    exact ht.total_own n i hroute
  rcases hmoves.effect.route_old hroute with hold | hge
  · -- Sender and target were registered, so they were alive before.
    have hi' := (hmoves.order_alive hs (hs.routed n i j hold hij).1).2 hi
    have hj' := (hmoves.order_alive hs (hs.routed n i j hold hij).2).2 hj
    have htotal : s.total i j n = 1 := by
      by_cases hn' : n ∈ s.executed
      · have hle := hs.total_le n i j hold
        have hpos := List.count_pos_iff.mpr hn'
        rw [total] at hle ⊢
        omega
      · rw [total, h n i j hold hn' hi' hj', List.count_eq_zero_of_not_mem hn']
    rcases hmoves.effect.total_eq hs hold with heq | ⟨ha, hremade, heq⟩
    · rw [heq, htotal]
    · have hempty : (s.batch i j).isEmpty = true := by
        by_contra hfalse
        exact hdrop ⟨i, j, ha, hi', hj', Bool.not_eq_true _ ▸ hfalse⟩
      rw [TaskDeques.eq_empty_of_isEmpty hempty, TaskDeques.count_empty] at heq
      omega
  · exact (hmoves.effect.new hs hroute hge).1

theorem not_conserved_of_drops (hs : Sound hasList s)
    (hstep : s.step hasList a = some t) (hdrop : DropsBatch s a) : ¬Conserved t := by
  obtain ⟨i, j, rfl, hi, hj, hbatch⟩ := hdrop
  obtain ⟨n, hpos⟩ := TaskDeques.exists_count_pos hbatch
  obtain ⟨hij, hroute⟩ := hs.batch i j n hpos
  obtain ⟨r, hr, rfl⟩ := Option.map_eq_some_iff.mp hstep
  rw [if_pos hi]
  have hremade := remade_of_update hr hi
  -- The task was in the batch and so nowhere else.
  have hle := hs.total_le n i j hroute
  rw [total, places] at hle
  have hn : n ∉ s.executed := by
    intro hmem
    have hcount := List.count_pos_iff.mpr hmem
    omega
  intro hconserved
  have hone := hconserved n i j (hremade.routes ▸ hroute) (hremade.executed ▸ hn)
    (hremade.global ▸ hi) (hremade.global ▸ hj)
  rw [places, hremade.batch, if_pos rfl, hremade.queues, hremade.tasks, TaskDeques.count_empty]
    at hone
  omega

/-- `a` and `b` are registered, and `a` updates its image and sends a task to `b`; before its next
round `c` is registered. -/
def sendThenRegister (a b c : ℕ) : List Action :=
  (Executors.runRegister a 1 ++ Executors.runRegister b 2 ++ Executors.runCheck a).map .registry ++
    .send a b true :: (Executors.runRegister c 3 ++ Executors.runCheck a).map .registry

end Interactors

end Orengine.Runtime
