import Orengine.Runtime.Interaction.Safety.Interactor

/-!
# In which order sent tasks arrive

The tasks of one locality from `i` to `j` are in one line: those that were appended to the run queue
of `j`, then those in its task queue, then those in the batch of `i`.  A step appends to the line
what it sends and otherwise moves only the boundaries in it, whichever locks fail; the exception is
a map that is made anew, which cuts the line (`line_of_step`).  So the line of a run is a sublist of
what was on the way at its start followed by what was sent, and the numbers in the latter go up
(`Trace.Ordered`).

An id in `id_to_retry` or in a loop of `do_work` is a key of the map, because the map is made anew
only outside of `do_work` (`Working`).  `appended_in_order` puts this together.
-/

namespace Orengine.Runtime

open Orengine.Utils Orengine.Lib

namespace TaskDeques

/-- The deque for a locality. -/
def ofLocality (d : TaskDeques) (isLocal : Bool) : List SentTask :=
  if isLocal then d.localTasks else d.sharedTasks

/-- What comes in the deques after as many tasks as `before` has. -/
def since (d before : TaskDeques) : TaskDeques :=
  ⟨d.localTasks.drop before.localTasks.length, d.sharedTasks.drop before.sharedTasks.length⟩

@[simp] theorem ofLocality_empty (isLocal : Bool) : empty.ofLocality isLocal = [] := by
  cases isLocal with
  | true => rfl
  | false => rfl

theorem ofLocality_append (d other : TaskDeques) (isLocal : Bool) :
    (d.append other).ofLocality isLocal = d.ofLocality isLocal ++ other.ofLocality isLocal := by
  cases isLocal with
  | true => rfl
  | false => rfl

theorem append_empty (d : TaskDeques) : d.append empty = d := by
  simp [append, empty]

theorem pushBack_eq (d : TaskDeques) (task : SentTask) :
    d.pushBack task = d.append (empty.pushBack task) := by
  rw [pushBack, pushBack]
  split
  · simp [append, empty]
  · simp [append, empty]

theorem ofLocality_pushBack_empty (task : SentTask) (isLocal : Bool) :
    (empty.pushBack task).ofLocality isLocal = if task.isLocal = isLocal then [task] else [] := by
  rw [pushBack]
  cases isLocal with
  | true =>
    split
    · rfl
    · rfl
  | false =>
    split
    case isTrue h => simp [ofLocality, empty, h]
    case isFalse h => simp [ofLocality, empty, h]

variable {task : SentTask} {isLocal : Bool} {d : TaskDeques}

theorem mem_ofLocality_pushBack {other : SentTask}
    (h : other ∈ (empty.pushBack task).ofLocality isLocal) : other = task := by
  rw [ofLocality_pushBack_empty] at h
  split at h
  · exact List.mem_singleton.mp h
  · cases h

theorem since_append (d other : TaskDeques) : (d.append other).since d = other := by
  simp [since, append]

theorem since_self (d : TaskDeques) : d.since d = empty := by
  simp [since, empty]

theorem mem_of_mem_since {before : TaskDeques} (h : task ∈ (d.since before).ofLocality isLocal) :
    task ∈ d.ofLocality isLocal := by
  cases isLocal with
  | true | false => exact List.mem_of_mem_drop h

theorem since_popBack {d' : TaskDeques} (h : d.popBack isLocal = some (task, d')) :
    d'.since d = empty := by
  rw [popBack] at h
  split at h
  · obtain ⟨last, -, heq⟩ := Option.map_eq_some_iff.mp h
    cases heq
    simp [since, empty]
  · obtain ⟨last, -, heq⟩ := Option.map_eq_some_iff.mp h
    cases heq
    simp [since, empty]

theorem count_pos_of_mem (h : task ∈ d.ofLocality isLocal) : 0 < d.count task.number := by
  have hpos : ∀ l : List SentTask, task ∈ l → 0 < l.countP (·.number == task.number) :=
    fun l hl => List.countP_pos_iff.mpr ⟨task, hl, beq_self_eq_true _⟩
  cases isLocal with
  | true => exact Nat.add_pos_left (hpos _ h) _
  | false => exact Nat.add_pos_right _ (hpos _ h)

end TaskDeques

namespace Interactors

variable {hasList : ℕ → Bool} {s t : Interactors} {a : Action}

theorem registry_of_step {b : Executors.Action} (hstep : s.step hasList (.registry b) = some t) :
    s.registry.step hasList b = some t.registry := by
  cases b with
  | checkVersion id =>
    obtain ⟨-, hstep⟩ := Option.ite_none_right_eq_some.mp hstep
    obtain ⟨r, hr, rfl⟩ := Option.map_eq_some_iff.mp hstep
    exact hr
  | register id | stopExecutor id | stopAllExecutors | setVersion | unlock | update id =>
    obtain ⟨r, hr, rfl⟩ := Option.map_eq_some_iff.mp hstep
    exact hr

/-! ### The ids in the loops of `do_work` -/

/-- The executors that a loop of `do_work` still has to go through. -/
def Place.ids : Place → List ℕ
  | .flush _ ids | .retryFlush ids => ids
  | .outside | .take | .takeAgain => []

/-- Whether `id_to_retry` may have ids: from the loop of `flush` until it is drained. -/
def Place.mayRetry : Place → Bool
  | .flush _ _ | .takeAgain => true
  | .outside | .take | .retryFlush _ => false

/-- What holds for an executor. -/
structure Working (w : Interactors) (i : ℕ) : Prop where
  running : w.place i ≠ .outside → w.registry.phase i = .running
  ids : ∀ j ∈ (w.place i).ids, w.Mapped i j
  idToRetry : ∀ j ∈ (w.interactors i).idToRetry, w.Mapped i j
  drained : (w.place i).mayRetry = false → (w.interactors i).idToRetry = []

variable {i id j : ℕ} {l : List SentTask} {task : SentTask} {isLocal : Bool}

theorem Working.stay (h : Working s i) (place : t.place i = s.place i)
    (phase : s.place i ≠ .outside → s.registry.phase i = .running → t.registry.phase i = .running)
    (mapped : ∀ j, s.Mapped i j → t.Mapped i j)
    (idToRetry : (t.interactors i).idToRetry = (s.interactors i).idToRetry) : Working t i where
  running := by
    intro hplace
    rw [place] at hplace
    exact phase hplace (h.running hplace)
  ids := by
    intro j hj
    rw [place] at hj
    exact mapped j (h.ids j hj)
  idToRetry := by
    intro j hj
    rw [idToRetry] at hj
    exact mapped j (h.idToRetry j hj)
  drained := by
    rw [place, idToRetry]
    exact h.drained

theorem working_goto {p : Place} (h : ∀ i, Working s i) (hplace : t.place = s.place)
    (hregistry : t.registry = s.registry) (hmapped : ∀ i j, s.Mapped i j → t.Mapped i j)
    (hretry : ∀ i ≠ id, (t.interactors i).idToRetry = (s.interactors i).idToRetry)
    (hrunning : s.registry.phase id = .running) (hids : ∀ j ∈ p.ids, s.Mapped id j)
    (hidToRetry : ∀ j ∈ (t.interactors id).idToRetry, s.Mapped id j)
    (hdrained : p.mayRetry = false → (t.interactors id).idToRetry = []) (i : ℕ) :
    Working (t.goto id p) i := by
  by_cases hi : i = id
  · subst hi
    have hp : (t.goto i p).place i = p := Function.update_self ..
    refine ⟨fun _ => ?_, fun j hj => ?_, fun j hj => ?_, fun hretry => ?_⟩
    · show t.registry.phase i = .running
      rw [hregistry, hrunning]
    · rw [hp] at hj
      exact hmapped i j (hids j hj)
    · exact hmapped i j (hidToRetry j hj)
    · rw [hp] at hretry
      exact hdrained hretry
  · refine (h i).stay ?_ (fun _ hphase => ?_) (hmapped i) (hretry i hi)
    · exact (Function.update_of_ne hi ..).trans (congrFun hplace i)
    · show t.registry.phase i = .running
      rw [hregistry, hphase]

theorem interactors_setInteractor (w : Interactors) (id : ℕ) (x : Interactor) (i : ℕ) :
    (w.setInteractor id x).interactors i = if i = id then x else w.interactors i :=
  Function.update_apply ..

theorem working_drainIdToRetry (h : ∀ i, Working s i) (hplace : t.place = s.place)
    (hregistry : t.registry = s.registry) (hinteractors : t.interactors = s.interactors)
    (hrunning : s.registry.phase id = .running) (i : ℕ) : Working (t.drainIdToRetry id) i := by
  have hall := (alike_idToRetry t id []).all
  refine working_goto (t := t.setInteractor id { t.interactors id with idToRetry := [] }) h hplace
    hregistry (fun i j hmapped => ?_) (fun i hi => ?_) hrunning (fun j hj => ?_) (fun j hj => ?_)
    (fun _ => ?_) i
  · rwa [Mapped, hall, hinteractors]
  · rw [interactors_setInteractor, if_neg hi, hinteractors]
  · rw [hinteractors] at hj
    exact (h id).idToRetry j hj
  · rw [interactors_setInteractor, if_pos rfl] at hj
    cases hj
  · rw [interactors_setInteractor, if_pos rfl]

theorem idToRetry_tryToAppendTasks (s : Interactors) (id executorId : ℕ) (b : TaskDeques)
    (isLocked : Bool) (i : ℕ) :
    ((s.tryToAppendTasks id executorId b isLocked).1.interactors i).idToRetry =
      (s.interactors i).idToRetry := by
  by_cases hi : i = id
  · simp [tryToAppendTasks, hi]
  · simp [tryToAppendTasks, hi]

theorem working_go {isLocked : Bool} (h : ∀ i, Working s i) (hgo : s.go id isLocked = some t) :
    (∀ i, Working t i) ∧ t.undefined = s.undefined := by
  have hrunning : s.registry.phase id = .running := by
    refine (h id).running fun hplace => ?_
    rw [go, hplace] at hgo
    cases hgo
  have hids := (h id).ids
  have hdrained := (h id).drained
  simp only [go] at hgo
  split at hgo
  case h_1 => cases hgo
  case h_2 =>
    cases hgo
    refine ⟨working_goto h rfl rfl (fun _ _ hmapped => hmapped) (fun _ _ => rfl) hrunning
      (fun j hj => VecMap.mem_keys.mp hj) (h id).idToRetry ?_, rfl⟩
    rintro ⟨⟩
  case h_3 isSuccess executorId ids hplace =>
    rw [hplace] at hids
    have hrest : ∀ j ∈ ids, s.Mapped id j := fun j hj => hids j (List.mem_cons_of_mem _ hj)
    split at hgo
    case h_1 b hb =>
      have hmapped : ∀ i j, s.Mapped i j →
          (s.tryToAppendTasks id executorId b isLocked).1.Mapped i j :=
        fun i j => (mapped_tryToAppendTasks s hb isLocked i j).mpr
      have hretry := idToRetry_tryToAppendTasks s id executorId b isLocked
      split at hgo
      · cases hgo
        refine ⟨working_goto h rfl rfl hmapped (fun i _ => hretry i) hrunning hrest ?_ ?_, rfl⟩
        · rw [hretry]
          exact (h id).idToRetry
        · rintro ⟨⟩
      · cases hgo
        refine ⟨working_goto h rfl rfl (fun i j hij => ?_) (fun i hi => ?_) hrunning hrest ?_ ?_,
          rfl⟩
        · rw [Mapped, pushIdToRetry, (alike_idToRetry _ id _).all]
          exact hmapped i j hij
        · rw [pushIdToRetry, interactors_setInteractor, if_neg hi, hretry]
        · rw [pushIdToRetry, interactors_setInteractor, if_pos rfl, hretry]
          intro j hj
          rcases List.mem_append.mp hj with hj | hj
          · exact (h id).idToRetry j hj
          · exact hids j (List.mem_singleton.mp hj ▸ List.mem_cons_self)
        · rintro ⟨⟩
    case h_2 => cases hgo
  case h_4 hplace =>
    cases hgo
    exact ⟨working_drainIdToRetry h rfl rfl rfl hrunning, rfl⟩
  case h_5 hplace =>
    cases hgo
    refine ⟨working_goto h rfl rfl (fun _ _ hmapped => hmapped) (fun _ _ => rfl) hrunning ?_
      (h id).idToRetry ?_, rfl⟩
    · rintro j ⟨⟩
    · rintro ⟨⟩
  case h_6 hplace =>
    cases hgo
    exact ⟨working_drainIdToRetry h rfl rfl rfl hrunning, rfl⟩
  case h_7 executorId ids hplace =>
    rw [hplace] at hids hdrained
    have hrest : ∀ j ∈ ids, s.Mapped id j := fun j hj => hids j (List.mem_cons_of_mem _ hj)
    split at hgo
    case h_1 b hb =>
      cases hgo
      have hretry := idToRetry_tryToAppendTasks s id executorId b isLocked
      refine ⟨working_goto h rfl rfl
        (fun i j => (mapped_tryToAppendTasks s hb isLocked i j).mpr) (fun i _ => hretry i)
        hrunning hrest ?_ ?_, rfl⟩
      · rw [hretry]
        exact (h id).idToRetry
      · rw [hretry]
        exact fun _ => hdrained rfl
    case h_2 hnone =>
      -- The id is a key of the map.
      have hmapped := hids executorId List.mem_cons_self
      rw [Mapped, hnone] at hmapped
      cases hmapped
  case h_8 hplace =>
    cases hgo
    rw [hplace] at hdrained
    refine ⟨working_goto h rfl rfl (fun _ _ hmapped => hmapped) (fun _ _ => rfl) hrunning ?_
      (h id).idToRetry ?_, rfl⟩
    · rintro j ⟨⟩
    · exact fun _ => hdrained rfl

/-- A send changes neither the keys of the map nor `id_to_retry`. -/
theorem same_sendTaskToExecutor (x : Interactor) (task : SentTask) (executorId : ℕ) :
    (∀ j, ((x.sendTaskToExecutor task executorId).1.all.get j).isSome = (x.all.get j).isSome) ∧
      (x.sendTaskToExecutor task executorId).1.idToRetry = x.idToRetry := by
  rw [Interactor.sendTaskToExecutor]
  split
  · refine ⟨fun j => ?_, rfl⟩
    rw [VecMap.get_modify]
    split
    · rw [Option.isSome_map]
    · rfl
  · exact ⟨fun _ => rfl, rfl⟩

theorem working_send (h : ∀ i, Working s i) (id executorId : ℕ) (task : SentTask) :
    (∀ i, Working ((s.sendTaskToExecutor id executorId task).1.accept id executorId) i) ∧
      ((s.sendTaskToExecutor id executorId task).1.accept id executorId).undefined =
        s.undefined := by
  rw [sendTaskToExecutor]
  split
  case isTrue =>
    have hsame := same_sendTaskToExecutor (s.interactors id) task executorId
    refine ⟨fun i => (h i).stay rfl (fun _ hphase => hphase) (fun j hmapped => ?_) ?_, rfl⟩
    · rw [Mapped, accept, interactors_setInteractor]
      split
      case isTrue hi =>
        rw [hsame.1]
        exact hi ▸ hmapped
      case isFalse => exact hmapped
    · rw [accept, interactors_setInteractor]
      split
      case isTrue hi => rw [hsame.2, hi]
      case isFalse => rfl
  case isFalse =>
    exact ⟨fun i => (h i).stay rfl (fun _ hphase => hphase) (fun _ hmapped => hmapped) rfl, rfl⟩

theorem working_setRegistry {b : Executors.Action} {r : Executors} (h : ∀ i, Working s i)
    (hr : s.registry.step hasList b = some r) (hb : ∀ i, s.place i ≠ .outside → b ≠ .checkVersion i)
    (i : ℕ) : Working (s.setRegistry r) i := by
  refine (h i).stay rfl (fun hplace hphase => ?_) (fun _ hmapped => hmapped) rfl
  exact (Executors.image_of_step hr (.inl hphase)).2.2 hphase (hb i hplace)

theorem working_update {r : Executors} (h : ∀ i, Working s i)
    (hr : s.registry.step hasList (.update id) = some r) (i : ℕ) :
    Working ((s.remake id).setRegistry r) i := by
  have hregistry := working_setRegistry h hr (by rintro i - ⟨⟩)
  by_cases hi : i = id
  · subst hi
    have hchecking : s.registry.phase i = .checking := by
      cases Executors.effect_of_step hr with
      | update phase | updateFails phase => exact phase
    have houtside : s.place i = .outside := by
      by_contra hplace
      rw [(h i).running hplace] at hchecking
      cases hchecking
    have hretry : (((s.remake i).setRegistry r).interactors i).idToRetry = [] := by
      show ((s.remake i).interactors i).idToRetry = []
      rw [remake, interactors_setInteractor, if_pos rfl]
      exact (h i).drained (by rw [houtside]; rfl)
    refine ⟨fun hplace => absurd houtside hplace, fun j hj => ?_, fun j hj => ?_, fun _ => hretry⟩
    · rw [show ((s.remake i).setRegistry r).place i = .outside from houtside] at hj
      cases hj
    · rw [hretry] at hj
      cases hj
  · have hsame : (s.remake id).interactors i = s.interactors i := by
      rw [remake, interactors_setInteractor, if_neg hi]
    refine (hregistry i).stay rfl (fun _ hphase => hphase) (fun j hmapped => ?_) ?_
    · show (((s.remake id).interactors i).all.get j).isSome
      rwa [hsame]
    · show ((s.remake id).interactors i).idToRetry = _
      rw [hsame]
      rfl

theorem working_step (h : ∀ i, Working s i) (hstep : s.step hasList a = some t) :
    (∀ i, Working t i) ∧ t.undefined = s.undefined := by
  cases a with
  | registry b =>
    cases b with
    | checkVersion id =>
      obtain ⟨houtside, hstep⟩ := Option.ite_none_right_eq_some.mp hstep
      obtain ⟨r, hr, rfl⟩ := Option.map_eq_some_iff.mp hstep
      refine ⟨working_setRegistry h hr fun i hplace heq => ?_, rfl⟩
      cases heq
      exact hplace houtside
    | update id =>
      obtain ⟨r, hr, rfl⟩ := Option.map_eq_some_iff.mp hstep
      by_cases halive : id ∈ s.registry.global.alive.keys
      · rw [if_pos halive]
        exact ⟨working_update h hr, rfl⟩
      · rw [if_neg halive]
        exact ⟨working_setRegistry h hr (by rintro i - ⟨⟩), rfl⟩
    | register id | stopExecutor id | stopAllExecutors | setVersion | unlock =>
      obtain ⟨r, hr, rfl⟩ := Option.map_eq_some_iff.mp hstep
      exact ⟨working_setRegistry h hr (by rintro i - ⟨⟩), rfl⟩
  | send id executorId isLocal =>
    obtain ⟨-, hstep⟩ := Option.ite_none_right_eq_some.mp hstep
    split at hstep
    case h_1 =>
      cases hstep
      exact working_send h id executorId _
    case h_2 =>
      cases hstep
      exact ⟨h, rfl⟩
  | doWork id =>
    obtain ⟨hif, rfl⟩ := of_guard hstep
    refine ⟨working_goto h rfl rfl (fun _ _ hmapped => hmapped) (fun _ _ => rfl) hif.2 ?_
      (h id).idToRetry fun _ => (h id).drained ?_, rfl⟩
    · rintro j ⟨⟩
    · rw [hif.1]
      rfl
  | go id isLocked => exact working_go h hstep
  | exec id isLocal =>
    obtain ⟨-, hstep⟩ := Option.ite_none_right_eq_some.mp hstep
    obtain ⟨r, -, rfl⟩ := Option.map_eq_some_iff.mp hstep
    exact ⟨fun i => (h i).stay rfl (fun _ hphase => hphase) (fun _ hmapped => hmapped) rfl, rfl⟩

theorem working (h : Reachable (step hasList) init s) :
    (∀ i, Working s i) ∧ s.undefined = false := by
  refine h.invariant (I := fun s => (∀ i, Working s i) ∧ s.undefined = false) ⟨fun i => ?_, rfl⟩ ?_
  · refine ⟨fun hplace => absurd rfl hplace, fun j hj => ?_, fun j hj => ?_, fun _ => rfl⟩
    · cases hj
    · cases hj
  · rintro u a v - ⟨hu, hundefined⟩ - hstep
    obtain ⟨hv, hsame⟩ := working_step hu hstep
    exact ⟨hv, hsame.trans hundefined⟩

/-! ### The line -/

/-- The tasks of a list that were sent from `i` to `j`. -/
def fromTo (w : Interactors) (i j : ℕ) (l : List SentTask) : List SentTask :=
  l.filter fun task => w.routes[task.number]? = some (i, j)

/-- The tasks from `i` to `j` that are not in the run queue of `j` yet. -/
def onTheWay (w : Interactors) (i j : ℕ) (isLocal : Bool) : List SentTask :=
  w.fromTo i j ((w.queues j).ofLocality isLocal) ++ (w.batch i j).ofLocality isLocal

/-- What a step sends from `i` to `j`. -/
def sends (s t : Interactors) (a : Action) (i j : ℕ) : TaskDeques :=
  match a with
  | .send id executorId isLocal =>
    if i = id ∧ j = executorId ∧ s.routes.length < t.routes.length then
      TaskDeques.empty.pushBack ⟨s.routes.length, isLocal⟩
    else .empty
  | _ => .empty

theorem fromTo_append (w : Interactors) (i j : ℕ) (l l' : List SentTask) :
    w.fromTo i j (l ++ l') = w.fromTo i j l ++ w.fromTo i j l' :=
  List.filter_append l l'

theorem fromTo_eq_self (h : ∀ task ∈ l, s.routes[task.number]? = some (i, j)) :
    s.fromTo i j l = l :=
  List.filter_eq_self.mpr fun task htask => decide_eq_true (h task htask)

theorem fromTo_eq_nil (h : ∀ task ∈ l, s.routes[task.number]? ≠ some (i, j)) :
    s.fromTo i j l = [] :=
  List.filter_eq_nil_iff.mpr fun task htask hroute => h task htask (of_decide_eq_true hroute)

/-- The tasks that were sent before keep their routes. -/
theorem Effect.fromTo_eq (h : Effect s t a) (hl : ∀ task ∈ l, task.number < s.routes.length) :
    t.fromTo i j l = s.fromTo i j l := by
  refine List.filter_congr fun task htask => ?_
  have hget := List.getElem?_eq_getElem (hl task htask)
  rw [hget, h.route_mono hget]

theorem sends_of_routes (h : t.routes = s.routes) (i j : ℕ) : s.sends t a i j = .empty := by
  unfold sends
  split
  · rw [if_neg (by simp [h])]
  · rfl

theorem sends_of_send {k l : ℕ} (hnumber : task.number = s.routes.length)
    (hroutes : t.routes = s.routes ++ [(k, l)]) (i j : ℕ) :
    s.sends t (.send k l task.isLocal) i j =
      if i = k ∧ j = l then TaskDeques.empty.pushBack task else .empty := by
  have hlt : s.routes.length < t.routes.length := by simp [hroutes]
  simp only [sends, hlt, and_true]
  rw [← hnumber]

theorem number_of_mem_sends (h : task ∈ (s.sends t a i j).ofLocality isLocal) :
    task.number = s.routes.length ∧ task.number < t.routes.length := by
  unfold sends at h
  split at h
  case h_1 =>
    split at h
    case isTrue hif =>
      have heq := TaskDeques.mem_ofLocality_pushBack h
      rw [heq]
      exact ⟨rfl, hif.2.2⟩
    case isFalse => simp at h
  case h_2 => simp at h

/-- A step sends at most one task. -/
theorem pairwise_sends (s t : Interactors) (a : Action) (i j : ℕ) (isLocal : Bool) :
    ((s.sends t a i j).ofLocality isLocal).Pairwise (·.number < ·.number) := by
  unfold sends
  split
  case h_1 =>
    split
    case isTrue =>
      rw [TaskDeques.ofLocality_pushBack_empty]
      split
      · exact List.pairwise_singleton _ _
      · exact List.Pairwise.nil
    case isFalse => simp
  case h_2 => simp

theorem Sound.route_of_batch (h : Sound hasList s)
    (htask : task ∈ (s.batch i j).ofLocality isLocal) :
    i ≠ j ∧ s.routes[task.number]? = some (i, j) :=
  h.batch i j task.number (TaskDeques.count_pos_of_mem htask)

theorem Sound.route_of_queue (h : Sound hasList s)
    (htask : task ∈ (s.queues j).ofLocality isLocal) :
    ∃ i, i ≠ j ∧ s.routes[task.number]? = some (i, j) :=
  h.queues j task.number (TaskDeques.count_pos_of_mem htask)

theorem Sound.lt_of_queue (h : Sound hasList s) (j : ℕ) (isLocal : Bool) :
    ∀ task ∈ (s.queues j).ofLocality isLocal, task.number < s.routes.length := by
  intro task htask
  obtain ⟨i, -, hroute⟩ := h.route_of_queue htask
  exact (List.getElem?_eq_some_iff.mp hroute).1

theorem Sound.onTheWay_self (h : Sound hasList s) (i : ℕ) (isLocal : Bool) :
    s.onTheWay i i isLocal = [] := by
  have hbatch : (s.batch i i).ofLocality isLocal = [] := by
    refine List.eq_nil_iff_forall_not_mem.mpr fun task htask => ?_
    exact (h.route_of_batch htask).1 rfl
  rw [onTheWay, hbatch, List.append_nil]
  refine fromTo_eq_nil fun task htask hroute => ?_
  obtain ⟨k, hne, hk⟩ := h.route_of_queue htask
  rw [hroute] at hk
  cases hk
  exact hne rfl

/-- **One step.**  The line becomes longer by what the step sends, unless the map of the sender is
made anew; `before` stands for what was appended to the run queue before. -/
theorem Effect.line_eq (h : Effect s t a) (hs : Sound hasList s) {before : List SentTask}
    (hbefore : ∀ task ∈ before, task.number < s.routes.length) (i : ℕ) :
    t.fromTo i j (before ++ ((t.tasks j).since (s.tasks j)).ofLocality isLocal) ++
        t.onTheWay i j isLocal =
      s.fromTo i j before ++ s.onTheWay i j isLocal ++ (s.sends t a i j).ofLocality isLocal ∨
    a = .registry (.update i) ∧
      t.fromTo i j (before ++ ((t.tasks j).since (s.tasks j)).ofLocality isLocal) ++
          t.onTheWay i j isLocal <+: s.fromTo i j before ++ s.onTheWay i j isLocal ∧
      s.sends t a i j = .empty := by
  have hold := h.fromTo_eq (i := i) (j := j) hbefore
  have hqueue := h.fromTo_eq (i := i) (j := j) (hs.lt_of_queue j isLocal)
  rw [onTheWay, onTheWay, fromTo_append, hold]
  cases h with
  | stay batch queues tasks routes =>
    left
    rw [batch, queues, tasks, hqueue, sends_of_routes routes, TaskDeques.since_self]
    simp [fromTo]
  | remade k h =>
    rw [h.queues, h.tasks, hqueue, sends_of_routes h.routes, TaskDeques.since_self, h.batch]
    by_cases hk : i = k
    · right
      rw [hk, if_pos rfl]
      simp [fromTo]
    · left
      simp [hk, fromTo]
  | sent k l task ne mapped number batch queues tasks routes =>
    left
    rw [queues, tasks, hqueue, sends_of_send number routes, TaskDeques.since_self, batch]
    split
    case isTrue hkl =>
      rw [hkl.1, hkl.2, TaskDeques.pushBack_eq, TaskDeques.ofLocality_append]
      simp [fromTo]
    case isFalse => simp [fromTo]
  | spawned k task number batch queues tasks routes =>
    left
    rw [queues, tasks, hqueue, sends_of_send number routes, batch]
    by_cases hj : j = k
    · subst hj
      rw [Function.update_self, TaskDeques.pushBack_eq, TaskDeques.since_append]
      by_cases hi : i = j
      · subst hi
        -- Nothing is between what was appended before and the new task.
        have hnil := hs.onTheWay_self i isLocal
        rw [onTheWay] at hnil
        rw [hnil, if_pos ⟨rfl, rfl⟩, List.append_nil, List.append_nil]
        rw [fromTo_eq_self (l := (TaskDeques.empty.pushBack task).ofLocality isLocal)]
        intro other hother
        rw [TaskDeques.mem_ofLocality_pushBack hother, routes, number,
          List.getElem?_concat_length]
      · rw [if_neg fun hif => hi hif.1, fromTo_eq_nil (l := TaskDeques.ofLocality _ _)]
        · simp
        · intro other hother
          rw [TaskDeques.mem_ofLocality_pushBack hother, routes, number,
            List.getElem?_concat_length]
          simp [Ne.symm hi]
    · rw [Function.update_of_ne hj, TaskDeques.since_self, if_neg fun hif => hj hif.2]
      simp [fromTo]
  | flushed k l batch queues tasks routes =>
    left
    rw [tasks, sends_of_routes routes, TaskDeques.since_self, batch, queues]
    by_cases hl : j = l
    · subst hl
      rw [Function.update_self, TaskDeques.ofLocality_append, fromTo_append, hqueue]
      by_cases hk : i = k
      · subst hk
        -- The whole batch goes from one part of the line to the next.
        have hwhole : t.fromTo i j ((s.batch i j).ofLocality isLocal) =
            (s.batch i j).ofLocality isLocal := by
          refine fromTo_eq_self fun task htask => ?_
          rw [routes]
          exact (hs.route_of_batch htask).2
        rw [hwhole, if_pos ⟨rfl, rfl⟩]
        simp [fromTo]
      · have hnone : t.fromTo i j ((s.batch k j).ofLocality isLocal) = [] := by
          refine fromTo_eq_nil fun task htask hroute => ?_
          rw [routes, (hs.route_of_batch htask).2] at hroute
          cases hroute
          exact hk rfl
        rw [hnone, if_neg fun hif => hk hif.1]
        simp [fromTo]
    · rw [Function.update_of_ne hl, hqueue, if_neg fun hif => hl hif.2]
      simp [fromTo]
  | taken k batch queues tasks routes =>
    left
    rw [tasks, sends_of_routes routes, batch, queues]
    by_cases hk : j = k
    · subst hk
      rw [Function.update_self, Function.update_self, TaskDeques.since_append, hqueue]
      simp [fromTo]
    · rw [Function.update_of_ne hk, Function.update_of_ne hk, TaskDeques.since_self, hqueue]
      simp [fromTo]
  | exec k popped task d pop batch queues tasks routes =>
    left
    have hsince : ((Function.update s.tasks k d) j).since (s.tasks j) = .empty := by
      by_cases hk : j = k
      · subst hk
        rw [Function.update_self, TaskDeques.since_popBack pop]
      · rw [Function.update_of_ne hk, TaskDeques.since_self]
    rw [tasks, hsince, sends_of_routes routes, batch, queues, hqueue]
    simp [fromTo]

/-- A run queue changes only at its end: what `exec` does not take from it is appended. -/
theorem Effect.tasks_eq (h : Effect s t a) (j : ℕ) :
    t.tasks j = (s.tasks j).append ((t.tasks j).since (s.tasks j)) ∨
      ∃ isLocal task, a = .exec j isLocal ∧
        (s.tasks j).popBack isLocal = some (task, t.tasks j) := by
  have hsame : t.tasks j = s.tasks j →
      t.tasks j = (s.tasks j).append ((t.tasks j).since (s.tasks j)) := by
    intro heq
    rw [heq, TaskDeques.since_self, TaskDeques.append_empty]
  have hgrown : ∀ {d}, t.tasks j = (s.tasks j).append d →
      t.tasks j = (s.tasks j).append ((t.tasks j).since (s.tasks j)) := by
    intro d heq
    rw [heq, TaskDeques.since_append]
  cases h with
  | stay _ _ tasks | sent _ _ _ _ _ _ _ _ tasks | flushed _ _ _ _ tasks =>
    exact .inl (hsame (congrFun tasks j))
  | remade k h => exact .inl (hsame (congrFun h.tasks j))
  | spawned k task _ _ _ tasks =>
    rw [tasks] at hsame hgrown ⊢
    by_cases hj : j = k
    · subst hj
      refine .inl (hgrown (d := TaskDeques.empty.pushBack task) ?_)
      rw [Function.update_self, TaskDeques.pushBack_eq]
    · exact .inl (hsame (Function.update_of_ne hj ..))
  | taken k _ _ tasks =>
    rw [tasks] at hsame hgrown ⊢
    by_cases hj : j = k
    · subst hj
      exact .inl (hgrown (Function.update_self ..))
    · exact .inl (hsame (Function.update_of_ne hj ..))
  | exec k isLocal task d pop _ _ tasks =>
    rw [tasks] at hsame ⊢
    by_cases hj : j = k
    · subst hj
      refine .inr ⟨isLocal, task, rfl, ?_⟩
      rw [pop, Function.update_self]
    · exact .inl (hsame (Function.update_of_ne hj ..))

/-! ### A run and its histories -/

/-- A state with the histories of the run that has led to it. -/
structure Trace where
  world : Interactors
  /-- What was appended to the run queue of each executor, in this order. -/
  appended : ℕ → TaskDeques
  /-- What an executor has sent to another one, in this order. -/
  sent : ℕ → ℕ → TaskDeques

namespace Trace

/-- Before the first step of a run. -/
def start (w : Interactors) : Trace := ⟨w, fun _ => .empty, fun _ _ => .empty⟩

/-- One step; what was appended to a run queue is what is new at its end. -/
def step (hasList : ℕ → Bool) (s : Trace) (a : Action) : Option Trace :=
  (s.world.step hasList a).map fun t =>
    { world := t
      appended := fun j => (s.appended j).append ((t.tasks j).since (s.world.tasks j))
      sent := fun i j => (s.sent i j).append (s.world.sends t a i j) }

/-- The tasks from `i` to `j` that were appended, then those that are on the way. -/
def line (s : Trace) (i j : ℕ) (isLocal : Bool) : List SentTask :=
  s.world.fromTo i j ((s.appended j).ofLocality isLocal) ++ s.world.onTheWay i j isLocal

/-- The tasks from `i` to `j` that were on the way at the start of the run, then those sent. -/
def sentFrom (w : Interactors) (s : Trace) (i j : ℕ) (isLocal : Bool) : List SentTask :=
  w.onTheWay i j isLocal ++ (s.sent i j).ofLocality isLocal

/-- The invariant of the runs from `w`. -/
structure Ordered (hasList : ℕ → Bool) (w : Interactors) (s : Trace) : Prop where
  world : Sound hasList s.world
  appended_lt : ∀ j isLocal, ∀ task ∈ (s.appended j).ofLocality isLocal,
    task.number < s.world.routes.length
  sentFrom_lt : ∀ i j isLocal, ∀ task ∈ sentFrom w s i j isLocal,
    task.number < s.world.routes.length
  sorted : ∀ i j isLocal, (sentFrom w s i j isLocal).Pairwise (·.number < ·.number)
  line : ∀ i j isLocal, (s.line i j isLocal).Sublist (sentFrom w s i j isLocal)

variable {w : Interactors} {s t : Trace}

theorem sentFrom_of_step (hstep : s.step hasList a = some t) (i j : ℕ) (isLocal : Bool) :
    sentFrom w t i j isLocal = sentFrom w s i j isLocal ++
      (s.world.sends t.world a i j).ofLocality isLocal := by
  obtain ⟨u, -, rfl⟩ := Option.map_eq_some_iff.mp hstep
  rw [sentFrom, sentFrom, TaskDeques.ofLocality_append, List.append_assoc]

theorem line_of_step (hstep : s.step hasList a = some t) (hs : Ordered hasList w s) (i j : ℕ)
    (isLocal : Bool) :
    t.line i j isLocal = s.line i j isLocal ++
        (s.world.sends t.world a i j).ofLocality isLocal ∨
    a = .registry (.update i) ∧ t.line i j isLocal <+: s.line i j isLocal ∧
      s.world.sends t.world a i j = .empty := by
  obtain ⟨u, hu, rfl⟩ := Option.map_eq_some_iff.mp hstep
  have heffect := (moves_of_step hs.world.registry hu).effect
  simp only [line, TaskDeques.ofLocality_append]
  exact heffect.line_eq hs.world (hs.appended_lt j isLocal) i

theorem Ordered.step (hs : Ordered hasList w s) (hstep : s.step hasList a = some t) :
    Ordered hasList w t := by
  obtain ⟨u, hu, heq⟩ := Option.map_eq_some_iff.mp hstep
  have hworld : t.world = u := by rw [← heq]
  have ht : Sound hasList t.world := hworld ▸ hs.world.step hu
  have hle : s.world.routes.length ≤ t.world.routes.length := by
    rw [hworld]
    exact (moves_of_step hs.world.registry hu).effect.routes_prefix.length_le
  refine ⟨ht, fun j isLocal task htask => ?_, fun i j isLocal => ?_, fun i j isLocal => ?_,
    fun i j isLocal => ?_⟩
  · rw [← heq, TaskDeques.ofLocality_append, List.mem_append] at htask
    rcases htask with htask | htask
    · exact (hs.appended_lt j isLocal task htask).trans_le hle
    · -- It is in the run queue now.
      have hpos := TaskDeques.count_pos_of_mem (TaskDeques.mem_of_mem_since htask)
      obtain ⟨i, hroute⟩ := ht.tasks j task.number (hworld ▸ hpos)
      exact (List.getElem?_eq_some_iff.mp hroute).1
  · intro task htask
    rw [sentFrom_of_step hstep, List.mem_append] at htask
    rcases htask with htask | htask
    · exact (hs.sentFrom_lt i j isLocal task htask).trans_le hle
    · exact (number_of_mem_sends htask).2
  · rw [sentFrom_of_step hstep, List.pairwise_append]
    refine ⟨hs.sorted i j isLocal, pairwise_sends _ _ _ _ _ _, fun task htask new hnew => ?_⟩
    rw [(number_of_mem_sends hnew).1]
    exact hs.sentFrom_lt i j isLocal task htask
  · rw [sentFrom_of_step hstep]
    rcases line_of_step hstep hs i j isLocal with hline | ⟨-, hline, hsends⟩
    · rw [hline]
      exact (hs.line i j isLocal).append (List.Sublist.refl _)
    · rw [hsends, TaskDeques.ofLocality_empty, List.append_nil]
      exact hline.sublist.trans (hs.line i j isLocal)

/-- The invariant holds at the start of a run if what is on the way then is in order. -/
theorem ordered_start (hw : Sound hasList w)
    (hsorted : ∀ i j isLocal, (w.onTheWay i j isLocal).Pairwise (·.number < ·.number)) :
    Ordered hasList w (start w) := by
  have hsent : ∀ i j isLocal, sentFrom w (start w) i j isLocal = w.onTheWay i j isLocal := by
    intro i j isLocal
    rw [sentFrom, start, TaskDeques.ofLocality_empty, List.append_nil]
  refine ⟨hw, fun j isLocal task htask => ?_, fun i j isLocal task htask => ?_,
    fun i j isLocal => ?_, fun i j isLocal => ?_⟩
  · simp [start] at htask
  · rw [hsent, onTheWay, List.mem_append] at htask
    rcases htask with htask | htask
    · exact hw.lt_of_queue j isLocal task (List.mem_filter.mp htask).1
    · exact (List.getElem?_eq_some_iff.mp (hw.route_of_batch htask).2).1
  · rw [hsent]
    exact hsorted i j isLocal
  · rw [hsent]
    simp [line, start, fromTo]

theorem exists_of_reachable {w' : Interactors}
    (h : Reachable (Interactors.step hasList) w w') :
    ∃ s : Trace, s.world = w' ∧ Reachable (step hasList) (start w) s := by
  induction h with
  | start => exact ⟨start w, rfl, .start⟩
  | @next u v a _ _ hstep ih =>
    obtain ⟨s, rfl, hs⟩ := ih
    have hnext : ∃ t, s.step hasList a = some t ∧ t.world = v := by
      rw [step, hstep]
      exact ⟨_, rfl, rfl⟩
    obtain ⟨t, ht, hworld⟩ := hnext
    exact ⟨t, hworld, .next hs trivial ht⟩

theorem reachable_world (hw : Reachable (Interactors.step hasList) init w)
    (hs : Reachable (step hasList) (start w) s) :
    Reachable (Interactors.step hasList) init s.world := by
  refine hs.invariant (I := fun s => Reachable (Interactors.step hasList) init s.world) hw ?_
  intro u a v _ hu _ hstep
  obtain ⟨x, hx, rfl⟩ := Option.map_eq_some_iff.mp hstep
  exact .next hu trivial hx

theorem sorted_onTheWay (h : Reachable (Interactors.step hasList) init w) (i j : ℕ)
    (isLocal : Bool) : (w.onTheWay i j isLocal).Pairwise (·.number < ·.number) := by
  obtain ⟨s, rfl, hs⟩ := exists_of_reachable h
  have hinit : Ordered hasList init (start init) := by
    refine ordered_start sound_init fun i j isLocal => ?_
    cases isLocal with
    | true | false => exact List.Pairwise.nil
  have hordered : Ordered hasList init s :=
    hs.invariant hinit fun _ _ _ _ hu _ hstep => hu.step hstep
  refine ((hordered.sorted i j isLocal).sublist (hordered.line i j isLocal)).sublist ?_
  exact List.sublist_append_right _ _

theorem ordered (hw : Reachable (Interactors.step hasList) init w)
    (hs : Reachable (step hasList) (start w) s) : Ordered hasList w s :=
  hs.invariant (ordered_start (sound hw) (sorted_onTheWay hw)) fun _ _ _ _ hu _ hstep =>
    hu.step hstep

/-- Between two changes of the set of executors nothing of the line of an executor is lost that has
processed the first. -/
theorem line_eq_of_processed {i : ℕ} (hw : Reachable (Interactors.step hasList) init w)
    (hi : w.registry.Processed i)
    (hs : Reach (step hasList) (fun _ a => a ≠ .registry .setVersion) (start w) s) (j : ℕ)
    (isLocal : Bool) : s.line i j isLocal = sentFrom w s i j isLocal := by
  suffices h : s.world.registry.Processed i ∧ s.line i j isLocal = sentFrom w s i j isLocal from h.2
  refine hs.invariant (I := fun s => s.world.registry.Processed i ∧
    s.line i j isLocal = sentFrom w s i j isLocal) ⟨hi, ?_⟩ ?_
  · simp [line, sentFrom, start, fromTo]
  · rintro u a v hu ⟨hprocessed, hline⟩ ha hstep
    have hordered := ordered hw hu.reachable
    obtain ⟨x, hx, heq⟩ := Option.map_eq_some_iff.mp hstep
    -- A step that is one of the global state is not the update of the executor.
    have hnext : v.world.registry.Processed i ∧ a ≠ .registry (.update i) := by
      rw [← heq]
      by_cases hregistry : ∃ b, a = .registry b
      · obtain ⟨b, rfl⟩ := hregistry
        have hb := hprocessed.step (registry_of_step hx) fun hset => ha (hset ▸ rfl)
        exact ⟨hb.1, fun hupdate => hb.2 (Action.registry.inj hupdate)⟩
      · rcases (moves_of_step hordered.world.registry hx).registry with hsame | ⟨b, hb, -⟩
        · rw [hsame]
          exact ⟨hprocessed, fun hupdate => hregistry ⟨_, hupdate⟩⟩
        · exact absurd ⟨b, hb⟩ hregistry
    refine ⟨hnext.1, ?_⟩
    rw [sentFrom_of_step hstep, ← hline]
    rcases line_of_step hstep hordered i j isLocal with hnew | ⟨hupdate, -⟩
    · exact hnew
    · exact absurd hupdate hnext.2

end Trace

/-! ### The flush -/

/-- An attempt to flush the batch of `id` for `executorId`: the whole batch moves if the lock is
free, and nothing otherwise. -/
structure Flushed (s t : Interactors) (id executorId : ℕ) (isLocked : Bool) : Prop where
  queues : t.queues = Function.update s.queues executorId (if isLocked then s.queues executorId
    else (s.queues executorId).append (s.batch id executorId))
  batch : ∀ k l, t.batch k l = if k = id ∧ l = executorId then
    (if isLocked then s.batch id executorId else .empty) else s.batch k l

/-- The next piece of either loop is such an attempt. -/
theorem go_flush (h : ∀ i, Working s i) {executorId : ℕ} {ids : List ℕ} (isLocked : Bool) (hplace
    : (∃ isSuccess, s.place id = .flush isSuccess (executorId :: ids)) ∨ s.place id = .retryFlush
    (executorId :: ids)) : ∃ t, s.go id isLocked = some t ∧ s.Flushed t id executorId isLocked := by
  have hmapped : s.Mapped id executorId := by
    refine (h id).ids executorId ?_
    rcases hplace with ⟨isSuccess, hplace⟩ | hplace
    · rw [hplace]
      exact List.mem_cons_self
    · rw [hplace]
      exact List.mem_cons_self
  obtain ⟨b, hb⟩ := Option.isSome_iff_exists.mp hmapped
  have hbatch : s.batch id executorId = b := by rw [batch, hb, Option.getD_some]
  -- The rest of the step changes neither the queues nor the batches.
  have hflushed : ∀ {t}, Alike (s.tryToAppendTasks id executorId b isLocked).1 t →
      s.Flushed t id executorId isLocked := by
    intro t halike
    refine ⟨?_, fun k l => ?_⟩
    · rw [halike.queues, queues_tryToAppendTasks, hbatch]
    · rw [halike.batch, batch_tryToAppendTasks s hb]
  rcases hplace with ⟨isSuccess, hplace⟩ | hplace
  · simp only [go, hplace, hb]
    split
    · exact ⟨_, rfl, hflushed (alike_goto _ _ _)⟩
    · exact ⟨_, rfl, hflushed ((alike_idToRetry _ _ _).trans (alike_goto _ _ _))⟩
  · simp only [go, hplace, hb]
    exact ⟨_, rfl, hflushed (alike_goto _ _ _)⟩

/-- **Sent tasks arrive in the order in which they were sent.**  In every run from a reachable
state, whichever locks fail and whatever happens to the set of executors:

* the tasks of one locality from `i` to `j` that were appended to the run queue of `j`, those in its
  task queue and those in the batch of `i` are, in this order, among those sent, and the numbers of
  the latter go up;
* a run queue changes only at its end, so that what was appended is what is new there;
* an attempt to flush a batch moves the whole batch or nothing;
* every id that is in `id_to_retry`, or that `retry_flush` has drained from it, is in the map.

Between two changes of the set of executors, none of the tasks of an executor that has processed the
first is left out. -/
theorem appended_in_order {w : Interactors} (hw : Reachable (step hasList) init w) :
    (∀ s, Reachable (Trace.step hasList) (.start w) s →
      (∀ i j isLocal,
        (s.world.fromTo i j ((s.appended j).ofLocality isLocal)).Pairwise (·.number < ·.number) ∧
        (Trace.sentFrom w s i j isLocal).Pairwise (·.number < ·.number) ∧
        (s.line i j isLocal).Sublist (Trace.sentFrom w s i j isLocal)) ∧
      (∀ a t j, s.world.step hasList a = some t →
        t.tasks j = (s.world.tasks j).append ((t.tasks j).since (s.world.tasks j)) ∨
        ∃ isLocal task, a = .exec j isLocal ∧
          (s.world.tasks j).popBack isLocal = some (task, t.tasks j)) ∧
      (∀ id executorId ids isLocked,
        (∃ isSuccess, s.world.place id = .flush isSuccess (executorId :: ids)) ∨
          s.world.place id = .retryFlush (executorId :: ids) →
        ∃ t, s.world.go id isLocked = some t ∧ s.world.Flushed t id executorId isLocked) ∧
      (∀ id, ∀ executorId ∈ (s.world.interactors id).idToRetry, s.world.Mapped id executorId) ∧
      (∀ id ids, s.world.place id = .retryFlush ids →
        ∀ executorId ∈ ids, s.world.Mapped id executorId) ∧
      s.world.undefined = false) ∧
    (∀ s i, Reach (Trace.step hasList) (fun _ a => a ≠ .registry .setVersion) (.start w) s →
      w.registry.Processed i →
      ∀ j isLocal, s.line i j isLocal = Trace.sentFrom w s i j isLocal) := by
  refine ⟨fun s hs => ?_, fun s i hs hi j isLocal => Trace.line_eq_of_processed hw hi hs j isLocal⟩
  have hordered := Trace.ordered hw hs
  obtain ⟨hworking, hundefined⟩ := working (Trace.reachable_world hw hs)
  refine ⟨fun i j isLocal => ?_, fun a t j hstep => ?_, fun id executorId ids isLocked hplace => ?_,
    fun id => ?_, fun id ids hplace => ?_, hundefined⟩
  · have hsorted := hordered.sorted i j isLocal
    have hline := hordered.line i j isLocal
    exact ⟨hsorted.sublist ((List.sublist_append_left _ _).trans hline), hsorted, hline⟩
  · exact (moves_of_step hordered.world.registry hstep).effect.tasks_eq j
  · exact go_flush hworking isLocked hplace
  · exact (hworking id).idToRetry
  · have hids := (hworking id).ids
    rw [hplace] at hids
    exact hids

/-- `a` and `b` are registered, and `a` has updated its image. -/
def registered (a b : ℕ) : List Action :=
  (Executors.runRegister a 1 ++ Executors.runRegister b 2 ++ Executors.runCheck a).map .registry

/-- `a` sends two tasks to `b`.  It finds the lock taken when it flushes them and free when it tries
again; then `b` takes them. -/
def sendTwo (a b : ℕ) : List Action :=
  [.send a b true, .send a b true, .doWork a, .go a false, .go a false, .go a true, .go a false,
    .go a false, .go a false, .doWork b, .go b false]

/-- They come in the order in which they were sent. -/
theorem appended_in_order_sendTwo :
    ∃ w s, exec (step fun _ => false) init (registered 0 1) = some w ∧
      exec (Trace.step fun _ => false) (.start w) (sendTwo 0 1) = some s ∧
      (s.appended 1).localTasks = [⟨0, true⟩, ⟨1, true⟩] ∧
      (s.world.fromTo 0 1 ((s.appended 1).ofLocality true)).Pairwise (·.number < ·.number) ∧
      s.line 0 1 true = Trace.sentFrom w s 0 1 true := by
  have hwhere : ∃ w s, exec (step fun _ => false) init (registered 0 1) = some w ∧
      exec (Trace.step fun _ => false) (.start w) (sendTwo 0 1) = some s ∧
      execWhere (Trace.step fun _ => false) (fun _ a => a ≠ .registry .setVersion) (.start w)
        (sendTwo 0 1) = some s ∧
      w.registry.Processed 0 ∧ (s.appended 1).localTasks = [⟨0, true⟩, ⟨1, true⟩] :=
    ⟨_, _, rfl, rfl, rfl, ⟨rfl, rfl⟩, rfl⟩
  obtain ⟨w, s, hw, hs, hbetween, hprocessed, happended⟩ := hwhere
  have hreach := reachable_of_exec _ hw
  have horder := appended_in_order hreach
  exact ⟨w, s, hw, hs, happended, ((horder.1 s (reachable_of_exec _ hs)).1 0 1 true).1,
    horder.2 s 0 (reach_of_execWhere _ hbetween) hprocessed 1 true⟩

end Interactors

end Orengine.Runtime
