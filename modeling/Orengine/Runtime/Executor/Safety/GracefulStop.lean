import Orengine.Runtime.Executor.Safety.WorkSharing

/-!
# What an executor leaves when it stops

In `graceful_stop` an executor leaves its `shared` tasks to the executor that is first in its image
of the global state, an image from before it was stopped.  The first neighbor may have been stopped
too since then, or the image may be older than the registration of every other executor: then the
tasks stay in a list that nobody looks at (`left_behind`).  `leaves_tasks` says when they do not.
-/

namespace Orengine.Runtime.WorkSharing

open Orengine.Lib

variable {τ : Type*} {level : ℕ → Option ℕ} {n : ℕ} {s t : WorkSharing τ} {a : Action τ}

/-- The tasks of an executor that is about to end `graceful_stop`: those of its run queue, and those
of its list, which it has drained if it has a neighbor. -/
def tasksToLeave (w : WorkSharing τ) (id : ℕ) : List τ :=
  match w.place id with
  | .stopping (some (_, list)) => w.sharedTasks id ++ list
  | _ => w.sharedTasks id ++ w.lists id

/-- Another executor that shares its work is alive. -/
def OtherShares (level : ℕ → Option ℕ) (g : GlobalState) (id : ℕ) : Prop :=
  ∃ j, j ≠ id ∧ g.shares (hasList level) j = true

/-- Between the two states all tasks of the executor got to the list of one alive executor, once. -/
def LeftToAlive (s t : WorkSharing τ) (id : ℕ) : Prop :=
  t.sharedTasks id = [] ∧ ∃ j ∈ s.registry.global.alive.keys,
    t.lists j = s.lists j ++ tasksToLeave s id ∧ ∀ k, k ≠ j → t.lists k = s.lists k

/-- The first neighbor of an executor in `graceful_stop` is alive. -/
def NeighborAlive (s : WorkSharing τ) (id : ℕ) : Prop :=
  ∃ j list, s.place id = .stopping (some (j, list)) ∧ j ∈ s.registry.global.alive.keys

theorem alive_of_shares {g : GlobalState} {f : ℕ → Bool} {j : ℕ} (h : g.shares f j = true) :
    j ∈ g.alive.keys := by
  simp only [GlobalState.shares, Bool.and_eq_true, decide_eq_true_eq] at h
  exact h.1

theorem leftToAlive_iff {id : ℕ} (hstep : s.step level n (.leave id) = some t)
    (hother : OtherShares level s.registry.global id) :
    LeftToAlive s t id ↔ tasksToLeave s id = [] ∨ NeighborAlive s id := by
  obtain ⟨other, -, hshares⟩ := hother
  have halive := alive_of_shares hshares
  simp only [step, WorkSharing.leave] at hstep
  split at hstep
  case h_1 hplace =>
    -- There is no neighbor, and nothing is moved.
    cases hstep
    have htasks : tasksToLeave s id = s.sharedTasks id ++ s.lists id := by
      rw [tasksToLeave, hplace]
    constructor
    · rintro ⟨-, j, -, hlist, -⟩
      have hlist' : s.lists j = s.lists j ++ tasksToLeave s id := hlist
      exact .inl (List.append_right_eq_self.mp hlist'.symm)
    · rintro (hnil | ⟨j, list, hj, -⟩)
      · refine ⟨?_, other, halive, ?_, fun k _ => rfl⟩
        · rw [htasks] at hnil
          exact (List.append_eq_nil_iff.mp hnil).1
        · rw [hnil, List.append_nil]
          rfl
      · cases hplace.symm.trans hj
  case h_2 neighbor list hplace =>
    cases hstep
    have htasks : tasksToLeave s id = s.sharedTasks id ++ list := by
      rw [tasksToLeave, hplace]
    have hempty : ((s.setTasks id neighbor [] (s.lists neighbor ++ s.sharedTasks id ++ list)).goto
        id .stopped).sharedTasks id = [] := by
      simp [setTasks, goto]
    have hself : ((s.setTasks id neighbor [] (s.lists neighbor ++ s.sharedTasks id ++ list)).goto
        id .stopped).lists neighbor = s.lists neighbor ++ tasksToLeave s id := by
      simp [setTasks, goto, htasks]
    have hothers : ∀ k, k ≠ neighbor →
        ((s.setTasks id neighbor [] (s.lists neighbor ++ s.sharedTasks id ++ list)).goto
          id .stopped).lists k = s.lists k := by
      intro k hk
      simp [setTasks, goto, hk]
    constructor
    · rintro ⟨-, j, hj, hlist, -⟩
      by_cases hne : j = neighbor
      · exact .inr ⟨neighbor, list, hplace, hne ▸ hj⟩
      · rw [hothers j hne] at hlist
        exact .inl (List.append_right_eq_self.mp hlist.symm)
    · rintro (hnil | ⟨j, list', hj, hneighbor⟩)
      · refine ⟨hempty, other, halive, ?_, ?_⟩
        · by_cases hne : other = neighbor
          · rw [hne, hself]
          · rw [hothers other hne, hnil, List.append_nil]
        · intro k _
          by_cases hk : k = neighbor
          · rw [hk, hself, hnil, List.append_nil]
          · exact hothers k hk
      · cases hplace.symm.trans hj
        exact ⟨hempty, neighbor, hneighbor, hself, hothers⟩
  case h_3 => cases hstep

/-! ### Executors that are stopped one at a time -/

/-- Whether an executor has ended `graceful_stop`. -/
def Place.isStopped : Place τ → Bool
  | .stopped => true
  | _ => false

/-- Every executor that is not alive any more has ended `graceful_stop`. -/
def Settled (w : WorkSharing τ) : Prop :=
  ∀ i ∈ w.registry.order, i ∉ w.registry.global.alive.keys → (w.place i).isStopped = true

instance (w : WorkSharing τ) : Decidable w.Settled :=
  inferInstanceAs (Decidable (∀ i ∈ w.registry.order, _ → _))

/-- The executor has processed its version. -/
def UpToDate (w : WorkSharing τ) (id : ℕ) : Prop :=
  w.registry.phase id = .running ∧
    (w.registry.states id).processedVersion = some (w.registry.states id).currentVersion

instance (w : WorkSharing τ) (id : ℕ) : Decidable (w.UpToDate id) :=
  inferInstanceAs (Decidable (_ ∧ _))

/-- An operation on the global state begins only when the executors that were stopped before have
ended, and an alive executor is stopped only while its image is up to date. -/
def OneAtATime (w : WorkSharing τ) : Action τ → Prop
  | .registry (.register _) => w.Settled
  | .registry (.stopExecutor id) =>
    w.Settled ∧ (id ∈ w.registry.global.alive.keys → w.UpToDate id)
  | .registry .stopAllExecutors => w.Settled
  | _ => True

/-- The executors that have not ended yet know what is left of a global state. -/
def Known (level : ℕ → Option ℕ) (w : WorkSharing τ) (g : GlobalState) (order : List ℕ) : Prop :=
  ∀ i ∈ order, i ∉ g.alive.keys → (w.place i).isStopped = false → OtherShares level g i →
    ∀ lists, (w.registry.states i).tasksLists = some lists →
      ∃ before after, order = before ++ i :: after ∧
        lists = after.filter (g.shares (hasList level)) ++ before.filter (g.shares (hasList level))

/-- The invariant of runs in which executors are stopped one at a time. -/
structure Orderly (level : ℕ → Option ℕ) (w : WorkSharing τ) : Prop where
  global : Known level w w.registry.global w.registry.order
  pending : ∀ op, w.registry.pending = some op →
    Known level w op.result (w.registry.order ++ op.registers.toList)

theorem Known.congr {g : GlobalState} {order : List ℕ} (h : Known level s g order)
    (himage : ∀ i ∈ order, i ∉ g.alive.keys →
      (t.registry.states i).tasksLists = (s.registry.states i).tasksLists)
    (hplace : ∀ i, (s.place i).isStopped = true → (t.place i).isStopped = true) :
    Known level t g order := by
  intro i hi hdead hrunning hother lists hlists
  refine h i hi hdead ?_ hother lists (himage i hi hdead ▸ hlists)
  by_contra hstopped
  rw [hplace i (Bool.not_eq_false _ ▸ hstopped)] at hrunning
  cases hrunning

theorem known_of_settled {g : GlobalState} {order : List ℕ}
    (h : ∀ i ∈ order, i ∉ g.alive.keys → (s.place i).isStopped = true) :
    Known level s g order := by
  intro i hi hdead hrunning
  rw [h i hi hdead] at hrunning
  cases hrunning

theorem known_stopExecutor (hs : Sound level n s) (hsettled : s.Settled) {id : ℕ}
    (huptodate : id ∈ s.registry.global.alive.keys → s.UpToDate id) :
    Known level s (s.registry.global.stopExecutor id) s.registry.order := by
  intro i hi hdead hrunning hother lists hlists
  rw [GlobalState.mem_keys_stopExecutor, not_and_or, not_not] at hdead
  have halive : i ∈ s.registry.global.alive.keys := by
    by_contra hnot
    rw [hsettled i hi hnot] at hrunning
    cases hrunning
  obtain rfl : i = id := by
    rcases hdead with heq | hnot
    · exact heq
    · exact absurd halive hnot
  obtain ⟨hphase, hprocessed⟩ := huptodate halive
  obtain ⟨before, after, horder, heq⟩ :=
    (hs.registry.fresh i hphase hprocessed).lists halive lists hlists
  refine ⟨before, after, horder, ?_⟩
  -- It is not among the others, and they share as they did.
  have hnodup := List.nodup_append.mp (horder ▸ hs.registry.consistent.nodup)
  have hshares : ∀ j, j ≠ i → s.registry.global.shares (hasList level) j =
      (s.registry.global.stopExecutor i).shares (hasList level) j := by
    intro j hj
    simp [GlobalState.shares, GlobalState.mem_keys_stopExecutor, hj]
  rw [heq]
  congr 1
  · refine List.filter_congr fun j hj => hshares j ?_
    rintro rfl
    exact (List.nodup_cons.mp hnodup.2.1).1 hj
  · refine List.filter_congr fun j hj => hshares j ?_
    rintro rfl
    exact hnodup.2.2 j hj j List.mem_cons_self rfl

theorem Orderly.registry {b : Executors.Action} {r : Executors} (h : Orderly level s)
    (hs : Sound level n s) (hC : OneAtATime s (.registry b))
    (hb : s.registry.step (hasList level) b = some r) : Orderly level (s.setRegistry r) := by
  -- An executor that is not alive does not change its image any more.
  have himage : ∀ i ∈ s.registry.order, i ∉ s.registry.global.alive.keys →
      (r.states i).tasksLists = (s.registry.states i).tasksLists := by
    intro i hi hdead
    rcases (Executors.image_of_step hb ((hs.registry.mem_order i).mp hi)).2.1 with heq | hupdate
    · exact heq
    · exact absurd hupdate.2.2 hdead
  have hglobal : Known level (s.setRegistry r) s.registry.global s.registry.order :=
    h.global.congr himage fun _ hstopped => hstopped
  have hpending : ∀ op, s.registry.pending = some op →
      (∀ i, (r.states i).tasksLists = (s.registry.states i).tasksLists) →
      Known level (s.setRegistry r) op.result (s.registry.order ++ op.registers.toList) :=
    fun op hop hsame => (h.pending op hop).congr (fun i _ _ => hsame i) fun _ hstopped => hstopped
  cases Executors.effect_of_step hb with
  | @register id st phase free state =>
    refine ⟨hglobal, ?_⟩
    rintro op ⟨⟩
    refine known_of_settled fun i hi hdead => ?_
    rw [GlobalState.mem_keys_register, not_or] at hdead
    rcases List.mem_append.mp hi with hi | hi
    · exact hC i hi hdead.2
    · exact absurd (List.mem_singleton.mp hi) hdead.1
  | stopExecutor id free =>
    refine ⟨hglobal, ?_⟩
    rintro op ⟨⟩
    rw [Option.toList_none, List.append_nil]
    exact (known_stopExecutor hs hC.1 hC.2).congr (fun _ _ _ => rfl) fun _ hstopped => hstopped
  | stopAllExecutors free =>
    refine ⟨hglobal, ?_⟩
    rintro op ⟨⟩ i hi hdead hrunning ⟨j, -, hshares⟩
    exact absurd (alive_of_shares hshares) GlobalState.not_mem_keys_stopAllExecutors
  | @setVersion g id rest registers op =>
    refine ⟨hglobal, ?_⟩
    rintro op' ⟨⟩
    refine hpending ⟨g, id :: rest, registers⟩ op fun i => ?_
    by_cases hi : i = id
    · simp [hi]
    · simp [hi]
  | unlock op =>
    refine ⟨hpending _ op fun _ => rfl, ?_⟩
    rintro op' ⟨⟩
  | @checkVersion id phase =>
    refine ⟨hglobal, fun op hop => hpending op hop fun i => ?_⟩
    by_cases hi : i = id
    · simp [Executors.set, hi]
    · simp [Executors.set, hi]
  | update phase free state =>
    refine ⟨hglobal, fun op hop => ?_⟩
    cases free.symm.trans hop
  | registerFails | processed | updateFails =>
    exact ⟨hglobal, fun op hop => hpending op hop fun _ => rfl⟩

theorem isStopped_goto {id i : ℕ} {p : Place τ} (h : (s.place i).isStopped = true)
    (hid : (s.place id).isStopped = false) : ((s.goto id p).place i).isStopped = true := by
  have hne : i ≠ id := by
    rintro rfl
    rw [h] at hid
    cases hid
  simpa [goto, hne] using h

theorem isStopped_of_isOutside {p : Place τ} (h : p.isOutside = true) : p.isStopped = false := by
  cases p with
  | outside => rfl
  | taking | stopping | stopped => cases h

theorem Orderly.effect [DecidableEq τ] (h : Orderly level s) (hs : Sound level n s)
    (hC : OneAtATime s a) (heffect : Effect level n s a t) : Orderly level t := by
  have hsame : ∀ {t : WorkSharing τ}, t.registry = s.registry →
      (∀ i, (s.place i).isStopped = true → (t.place i).isStopped = true) → Orderly level t := by
    intro t hregistry hplace
    refine ⟨?_, ?_⟩
    · rw [hregistry]
      exact h.global.congr (fun i _ _ => by rw [hregistry]) hplace
    · intro op hop
      rw [hregistry] at hop ⊢
      exact (h.pending op hop).congr (fun i _ _ => by rw [hregistry]) hplace
  cases heffect with
  | registry step register checkVersion => exact h.registry hs hC step
  | idle => exact h
  | spawn | exec | pop => exact hsame rfl fun _ hi => hi
  | enter phase outside | stopAlone phase outside =>
    exact hsame rfl fun i hi => isStopped_goto hi (isStopped_of_isOutside outside)
  | @exit id isLocked i m b place =>
    refine hsame rfl fun j hj => ?_
    exact isStopped_goto (s := { s with underflowed := b }) hj (by rw [place]; rfl)
  | skip place | leaveAlone place =>
    exact hsame rfl fun i hi => isStopped_goto hi (by rw [place]; rfl)
  | @batch id isLocked i m owner r place =>
    refine hsame rfl fun j hj => ?_
    exact isStopped_goto (s := s.setTasks id owner r.1 r.2) hj
      (by rw [show (s.setTasks id owner r.1 r.2).place id = _ from place]; rfl)
  | @stop id neighbor phase outside =>
    refine hsame rfl fun j hj => ?_
    exact isStopped_goto (s := s.setTasks id id (s.sharedTasks id) []) hj
      (isStopped_of_isOutside outside)
  | @leave id neighbor list place =>
    refine hsame rfl fun j hj => ?_
    exact isStopped_goto (s := s.setTasks id neighbor []
      (s.lists neighbor ++ s.sharedTasks id ++ list)) hj
      (by rw [show (s.setTasks id neighbor [] _).place id = _ from place]; rfl)

theorem orderly [DecidableEq τ] (h : Reach (step level n) OneAtATime init s) :
    Orderly level s := by
  refine h.invariant ⟨?_, ?_⟩ fun s a t hreach hs hC hstep => ?_
  · rintro i ⟨⟩
  · rintro op ⟨⟩
  · exact hs.effect (sound hreach) hC (effect_of_step (sound hreach) hstep)

/-- If executors are stopped one at a time, the first neighbor is alive. -/
theorem neighborAlive [DecidableEq τ] {id : ℕ}
    (h : Reach (step level n) OneAtATime init s) (hstep : s.step level n (.leave id) = some t)
    (hlist : hasList level id = true) (hother : OtherShares level s.registry.global id) :
    NeighborAlive s id := by
  have hs := sound h
  obtain ⟨neighbor, hplace⟩ : ∃ neighbor, s.place id = .stopping neighbor := by
    simp only [step, WorkSharing.leave] at hstep
    split at hstep
    case h_1 hplace => exact ⟨_, hplace⟩
    case h_2 hplace => exact ⟨_, hplace⟩
    case h_3 => cases hstep
  have hphase := hs.running_of_place hplace rfl
  obtain ⟨hdead, hfirst⟩ := hs.stopping id neighbor hplace
  obtain ⟨lists, himage, hhead⟩ := hfirst.resolve_left fun hnone => by
    rw [hlist] at hnone
    cases hnone.2
  have horder := (hs.registry.mem_order id).mpr (.inl hphase)
  obtain ⟨before, after, heq, hlists⟩ :=
    (orderly h).global id horder hdead (by rw [hplace]; rfl) hother lists himage
  -- The other executor is in the image, so that the image has a first executor, and it shares.
  obtain ⟨j, hj, hshares⟩ := hother
  have hmem : j ∈ lists := by
    have hj' := hs.registry.consistent.alive j (alive_of_shares hshares)
    rw [heq] at hj'
    rw [hlists, List.mem_append, List.mem_filter, List.mem_filter]
    rcases List.mem_append.mp hj' with hbefore | hafter
    · exact .inr ⟨hbefore, hshares⟩
    · rcases List.mem_cons.mp hafter with hself | hafter
      · exact absurd hself hj
      · exact .inl ⟨hafter, hshares⟩
  cases hcases : lists with
  | nil =>
    rw [hcases] at hmem
    cases hmem
  | cons first rest =>
    rw [hcases, List.head?_cons, Option.map_eq_some_iff] at hhead
    obtain ⟨⟨neighbor, list⟩, rfl, hneighbor⟩ := hhead
    obtain rfl : neighbor = first := hneighbor
    refine ⟨neighbor, list, hplace, ?_⟩
    have hfirst : neighbor ∈ lists := hcases ▸ List.mem_cons_self
    rw [hlists, List.mem_append, List.mem_filter, List.mem_filter] at hfirst
    rcases hfirst with hfirst | hfirst
    · exact alive_of_shares hfirst.2
    · exact alive_of_shares hfirst.2

/-- **What an executor leaves when it stops**, while another executor that shares its work is alive.
In every run its tasks get to the list of an alive executor exactly if there is no task or its first
neighbor is alive; and the latter holds in every run in which executors are stopped one at a time,
each with an image that is up to date. -/
theorem leaves_tasks [DecidableEq τ] (level : ℕ → Option ℕ) (n : ℕ) :
    (∀ (s t : WorkSharing τ) (id : ℕ), Reachable (step level n) init s →
      s.step level n (.leave id) = some t → OtherShares level s.registry.global id →
      (LeftToAlive s t id ↔ tasksToLeave s id = [] ∨ NeighborAlive s id)) ∧
    (∀ (s t : WorkSharing τ) (id : ℕ), Reach (step level n) OneAtATime init s →
      s.step level n (.leave id) = some t → hasList level id = true →
      OtherShares level s.registry.global id → LeftToAlive s t id) := by
  refine ⟨fun s t id _ hstep hother => leftToAlive_iff hstep hother, ?_⟩
  intro s t id hreach hstep hlist hother
  exact (leftToAlive_iff hstep hother).mpr (.inr (neighborAlive hreach hstep hlist hother))

instance (w : WorkSharing τ) (a : Action τ) : Decidable (OneAtATime w a) :=
  match a with
  | .registry (.register _) => inferInstanceAs (Decidable w.Settled)
  | .registry (.stopExecutor _) => inferInstanceAs (Decidable (_ ∧ (_ → w.UpToDate _)))
  | .registry .stopAllExecutors => inferInstanceAs (Decidable w.Settled)
  | .registry .setVersion => isTrue trivial
  | .registry .unlock => isTrue trivial
  | .registry (.checkVersion _) => isTrue trivial
  | .registry (.update _) => isTrue trivial
  | .spawn _ _ _ => isTrue trivial
  | .exec _ => isTrue trivial
  | .takeWork _ _ _ => isTrue trivial
  | .takeBatch _ _ => isTrue trivial
  | .gracefulStop _ => isTrue trivial
  | .leave _ => isTrue trivial

/-- One of `k` alive executors is stopped; it finds that out and drains its list. -/
def stopOne (id k : ℕ) : List (Action τ) :=
  (Executors.runStop id k ++ Executors.runCheck id).map .registry ++ [.gracefulStop id]

/-- `a` and `b` are registered and update their images; `a` spawns a task and is stopped. -/
def stopFirst (a b : ℕ) (x : τ) : List (Action τ) :=
  startBoth a b ++ .spawn a x false :: stopOne a 2

/-- Then `b` gets the task. -/
theorem leaves_tasks_stopFirst :
    ∃ s t : WorkSharing (Fin 1), Reach (step (fun _ => some 1) 2) OneAtATime init s ∧
      s.step (fun _ => some 1) 2 (.leave 0) = some t ∧ t.lists 1 = [0] ∧ LeftToAlive s t 0 := by
  have hreach : Reach (step (fun _ => some 1) 2) OneAtATime init _ :=
    reach_of_execWhere (stopFirst 0 1 (0 : Fin 1)) rfl
  refine ⟨_, _, hreach, rfl, rfl, ?_⟩
  exact (leaves_tasks (fun _ => some 1) 2).2 _ _ 0 hreach rfl rfl ⟨1, by decide, by decide⟩

/-- `a`, `b` and `c` are registered, `a` updates its image and spawns a task; then `b` is stopped,
and `a` before it has seen that. -/
def stopTwo (a b c : ℕ) (x : τ) : List (Action τ) :=
  (Executors.runRegister a 1 ++ Executors.runRegister b 2 ++ Executors.runRegister c 3 ++
    Executors.runCheck a).map .registry ++
  .spawn a x false :: (Executors.runStop b 3).map .registry ++ stopOne a 2

/-- `a` is registered and updates its image before `b` is registered; it spawns a task and is
stopped. -/
def stopEarly (a b : ℕ) (x : τ) : List (Action τ) :=
  (Executors.runRegister a 1 ++ Executors.runCheck a ++ Executors.runRegister b 2).map .registry ++
    .spawn a x false :: stopOne a 2

/-- The task ends up in the list of an executor that was stopped, or stays with the executor,
although another executor that shares its work is alive. -/
theorem left_behind :
    (∃ s t : WorkSharing (Fin 1),
      exec (step (fun _ => some 1) 3) init (stopTwo 0 1 2 0) = some s ∧
      s.step (fun _ => some 1) 3 (.leave 0) = some t ∧
      OtherShares (fun _ => some 1) s.registry.global 0 ∧ t.lists 1 = [0] ∧
      1 ∉ s.registry.global.alive.keys ∧ ¬LeftToAlive s t 0) ∧
    (∃ s t : WorkSharing (Fin 1),
      exec (step (fun _ => some 1) 2) init (stopEarly 0 1 0) = some s ∧
      s.step (fun _ => some 1) 2 (.leave 0) = some t ∧
      OtherShares (fun _ => some 1) s.registry.global 0 ∧ t.sharedTasks 0 = [0] ∧
      ¬LeftToAlive s t 0) := by
  refine ⟨⟨_, _, rfl, rfl, ⟨2, by decide, by decide⟩, rfl, by decide, ?_⟩,
    ⟨_, _, rfl, rfl, ⟨1, by decide, by decide⟩, rfl, ?_⟩⟩
  · rintro ⟨-, j, halive, hlist, -⟩
    -- The alive executor is the third one, and its list is as empty as before.
    have hj : j ∈ [2] := halive
    obtain rfl := List.mem_singleton.mp hj
    have hnil : ([] : List (Fin 1)) = [0] := hlist
    cases hnil
  · rintro ⟨hempty, -⟩
    cases hempty

end Orengine.Runtime.WorkSharing
