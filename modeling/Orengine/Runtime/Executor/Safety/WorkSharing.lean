import Orengine.Runtime.Executor.WorkSharing
import Orengine.Runtime.GlobalState.Safety.Subscribed
import Orengine.Lib.Tally

/-!
# Work sharing conserves tasks

Every function that moves tasks keeps their number in the run queue and the list that it works on
(`exists_spawnSharedTask`, `count_popTasks`, `exists_takeBatch`), and a step of the system is one
such move, so that the number of each task over all run queues and lists changes only when a task is
spawned or executed (`conserves_work`).
-/

namespace Orengine.Runtime.WorkSharing

open Orengine.Lib Finset

variable {τ : Type*} {level : ℕ → Option ℕ} {n : ℕ} {s t : WorkSharing τ} {a : Action τ}

/-! ### The invariant -/

/-- What holds of an executor in `graceful_stop`: it is not alive any more, and its first neighbor
is the one of its image. -/
structure Parting (level : ℕ → Option ℕ) (r : Executors) (id : ℕ)
    (neighbor : Option (ℕ × List τ)) : Prop where
  dead : id ∉ r.global.alive.keys
  first : neighbor = none ∧ hasList level id = false ∨
    ∃ lists, (r.states id).tasksLists = some lists ∧ neighbor.map Prod.fst = lists.head?

structure Sound (level : ℕ → Option ℕ) (n : ℕ) (w : WorkSharing τ) : Prop where
  registry : w.registry.Sound (hasList level)
  lt : ∀ i, w.registry.phase i ≠ .unregistered → i < n
  phase : ∀ i, (w.place i).isOutside = false → w.registry.phase i = .running
  taking : ∀ id i maxNumberOfTries, w.place id = .taking i maxNumberOfTries →
    i ≤ maxNumberOfTries ∧ ∃ lists, (w.registry.states id).tasksLists = some lists ∧
      maxNumberOfTries ≤ lists.length
  stopping : ∀ id neighbor, w.place id = .stopping neighbor →
    Parting level w.registry id neighbor
  panicked : w.panicked = false

variable {id : ℕ} {p : Place τ} {sharedTasks : List τ}

theorem running_of_isRunning (h : s.isRunning id = true) :
    s.registry.phase id = .running ∧ (s.place id).isOutside = true := by
  simp only [isRunning, Bool.and_eq_true, decide_eq_true_eq] at h
  exact ⟨h.1.2, h.1.1⟩

theorem Sound.lt_of_running (h : Sound level n s) (hid : s.registry.phase id = .running) : id < n :=
  h.lt id (by simp [hid])

theorem Sound.lt_of_mem_image {i : ℕ} {lists : List ℕ} (h : Sound level n s)
    (himage : (s.registry.states id).tasksLists = some lists) (hi : i ∈ lists) : i < n := by
  have horder := (h.registry.listed id lists himage i hi).1
  refine h.lt i fun hun => ?_
  exact h.registry.not_mem_order hun horder

theorem Sound.registry_step {b : Executors.Action} {r : Executors} (hs : Sound level n s)
    (hb : s.registry.step (hasList level) b = some r)
    (hregister : ∀ id, b = .register id → id < n)
    (hcheck : ∀ id, b = .checkVersion id → (s.place id).isOutside = true) :
    Sound level n (s.setRegistry r) := by
  -- An executor in one of the functions keeps its phase and its image.
  have hkeep : ∀ i, (s.place i).isOutside = false →
      r.phase i = .running ∧ (r.states i).tasksLists = (s.registry.states i).tasksLists := by
    intro i hi
    have hphase := hs.phase i hi
    obtain ⟨-, himage, hrunning⟩ := Executors.image_of_step hb (.inl hphase)
    refine ⟨hrunning hphase ?_, ?_⟩
    · intro hcheckVersion
      rw [hcheck i hcheckVersion] at hi
      cases hi
    · rcases himage with himage | ⟨-, hchecking, -⟩
      · exact himage
      · cases hphase.symm.trans hchecking
  refine ⟨hs.registry.step hb, ?_, fun i hi => (hkeep i hi).1, ?_, ?_, hs.panicked⟩
  · intro i hi
    by_cases hreg : b = .register i
    · exact hregister i hreg
    · refine hs.lt i fun hun => hi ?_
      exact Executors.phase_of_step hb hs.registry hun hreg
  · intro id i m hplace
    obtain ⟨hle, lists, himage, hlen⟩ := hs.taking id i m hplace
    have hinside : (s.place id).isOutside = false := by
      rw [show s.place id = .taking i m from hplace]
      rfl
    exact ⟨hle, lists, (hkeep id hinside).2.trans himage, hlen⟩
  · intro id neighbor hplace
    have hinside : (s.place id).isOutside = false := by
      rw [show s.place id = .stopping neighbor from hplace]
      rfl
    obtain ⟨hdead, hfirst⟩ := hs.stopping id neighbor hplace
    have horder := (hs.registry.mem_order id).mpr (.inl (hs.phase id hinside))
    refine ⟨fun halive => hdead ((hs.registry.order_alive_of_step hb horder).2 halive), ?_⟩
    rcases hfirst with hnone | ⟨lists, himage, hhead⟩
    · exact .inl hnone
    · exact .inr ⟨lists, (hkeep id hinside).2.trans himage, hhead⟩

theorem Sound.goto (hs : Sound level n s) (hphase : s.registry.phase id = .running) (htaking : ∀ i
    m, p = .taking i m → i ≤ m ∧ ∃ lists, (s.registry.states id).tasksLists = some lists ∧ m ≤
    lists.length)
    (hstopping : ∀ neighbor, p = .stopping neighbor → Parting level s.registry id neighbor) :
    Sound level n (s.goto id p) := by
  have hplace {P : ℕ → Place τ → Prop} (hid : P id p) (hother : ∀ i, P i (s.place i)) (i : ℕ) :
      P i ((s.goto id p).place i) :=
    (Function.forall_update_iff s.place P).mpr ⟨hid, fun i _ => hother i⟩ i
  refine ⟨hs.registry, hs.lt, ?_, ?_, ?_, hs.panicked⟩
  · exact hplace (P := fun i p => p.isOutside = false → s.registry.phase i = .running)
      (fun _ => hphase) hs.phase
  · exact hplace (P := fun id p => ∀ i m, p = .taking i m → i ≤ m ∧ ∃ lists,
      (s.registry.states id).tasksLists = some lists ∧ m ≤ lists.length) htaking hs.taking
  · exact hplace (P := fun id p => ∀ neighbor, p = .stopping neighbor →
      Parting level s.registry id neighbor) hstopping hs.stopping

theorem Sound.setTasks {owner : ℕ} {list : List τ} (hs : Sound level n s) :
    Sound level n (s.setTasks id owner sharedTasks list) :=
  ⟨hs.registry, hs.lt, hs.phase, hs.taking, hs.stopping, hs.panicked⟩

theorem Sound.running_of_place (hs : Sound level n s) (hplace : s.place id = p)
    (hp : p.isOutside = false) : s.registry.phase id = .running :=
  hs.phase id (hplace ▸ hp)

theorem Sound.neighbor_lt {firstNeighbor : ℕ} {list : List τ} (hs : Sound level n s)
    (hplace : s.place id = .stopping (some (firstNeighbor, list))) : firstNeighbor < n := by
  rcases (hs.stopping id _ hplace).first with ⟨hnone, -⟩ | ⟨lists, himage, hhead⟩
  · cases hnone
  · exact hs.lt_of_mem_image himage (List.mem_of_head? hhead.symm)

theorem Sound.lt_of_place (hs : Sound level n s) (hplace : s.place id = p)
    (hp : p.isOutside = false) : id < n :=
  hs.lt_of_running (hs.running_of_place hplace hp)

theorem Sound.outside_of_spawn (hs : Sound level n s)
    (h : s.isRunning id = true ∨ s.registry.phase id = .unregistered) :
    (s.place id).isOutside = true := by
  rcases h with hrunning | hnew
  · exact (running_of_isRunning hrunning).2
  · by_contra hinside
    have hphase := hs.phase id (Bool.eq_false_iff.mpr hinside)
    rw [hnew] at hphase
    cases hphase

theorem tasks_of_isOutside (h : p.isOutside = true) : p.tasks = [] := by
  cases p with
  | outside => rfl
  | taking | stopping | stopped => cases h

theorem sound_init : Sound level n (init : WorkSharing τ) where
  registry := Executors.sound_init
  lt := fun i hi => absurd rfl hi
  phase := by rintro i ⟨⟩
  taking := by rintro id i m ⟨⟩
  stopping := by rintro id neighbor ⟨⟩
  panicked := rfl

/-! ### The functions that move tasks -/

/-- The range that a flush drains is not longer than the run queue. -/
theorem half_add_one_le (h : sharedTasks ≠ []) :
    (sharedTasks.length >>> 1) + 1 ≤ sharedTasks.length := by
  have hpos := List.length_pos_iff.mpr h
  rw [Nat.shiftRight_one]
  omega

/-- The loop reads every index from the first one on, and enough rounds are one more than there are
such indices. -/
theorem readTasks_eq (list : List τ) (rounds firstIndex : ℕ) (otherList : List τ)
    (hfirst : firstIndex ≤ list.length) (hrounds : list.length - firstIndex < rounds) :
    readTasks list rounds firstIndex otherList = some (otherList ++ list.drop firstIndex) := by
  induction rounds generalizing firstIndex otherList with
  | zero => omega
  | succ rounds ih =>
    rw [readTasks]
    split
    case isTrue heq => rw [heq, List.drop_length, List.append_nil]
    case isFalse hne =>
      have hlt : firstIndex < list.length := by omega
      rw [List.getElem?_eq_getElem hlt]
      show readTasks list rounds (firstIndex + 1) (otherList ++ [list[firstIndex]]) = _
      rw [ih (firstIndex + 1) _ hlt (by omega), List.append_assoc, List.singleton_append,
        List.cons_getElem_drop_succ]

variable [DecidableEq τ]

theorem count_eq_take_add_drop (l : List τ) (k : ℕ) (x : τ) :
    l.count x = (l.take k).count x + (l.drop k).count x := by
  rw [← List.count_append, List.take_append_drop]

theorem exists_tryFlush (h : sharedTasks ≠ []) (list : List τ) (isLocked : Bool) :
    ∃ r, tryFlush sharedTasks list isLocked = some r ∧
      ∀ x, r.1.count x + r.2.count x = sharedTasks.count x + list.count x := by
  cases isLocked with
  | true => exact ⟨_, rfl, fun _ => rfl⟩
  | false =>
    refine ⟨_, if_pos (half_add_one_le h), fun x => ?_⟩
    rw [count_eq_take_add_drop sharedTasks ((sharedTasks.length >>> 1) + 1) x]
    simp only [List.count_append]
    omega

theorem exists_spawnSharedTask (level : Option ℕ) (sharedTasks list : List τ) (task : τ)
    (isLocked : Bool) :
    ∃ r, spawnSharedTask level sharedTasks list task isLocked = some r ∧
      ∀ x, r.1.count x + r.2.count x = sharedTasks.count x + list.count x + [task].count x := by
  cases level with
  | none =>
    refine ⟨_, rfl, fun x => ?_⟩
    simp only [List.count_append]
    omega
  | some level =>
    simp only [spawnSharedTask]
    split
    case isTrue =>
      refine ⟨_, rfl, fun x => ?_⟩
      simp only [List.count_append]
      omega
    case isFalse hlong =>
      -- The run queue is longer than the level, so it is not empty.
      have hne : sharedTasks ≠ [] := by
        rintro rfl
        exact hlong (Nat.zero_le _)
      obtain ⟨r, hr, hcount⟩ := exists_tryFlush hne list isLocked
      rw [hr]
      refine ⟨_, rfl, fun x => ?_⟩
      have hx := hcount x
      simp only [List.count_append]
      omega

theorem count_popTasks (limit : ℕ) (sharedTasks list : List τ) (x : τ) :
    (popTasks limit sharedTasks list).1.count x + (popTasks limit sharedTasks list).2.count x =
      sharedTasks.count x + list.count x := by
  induction limit generalizing sharedTasks list with
  | zero => rfl
  | succ limit ih =>
    rw [popTasks]
    split
    case h_1 task hlast =>
      obtain ⟨init, rfl⟩ := List.getLast?_eq_some_iff.mp hlast
      rw [ih, List.dropLast_concat, List.count_append, List.count_append]
      omega
    case h_2 => exact ih sharedTasks list

theorem exists_takeBatch (list otherList : List τ) (limit : ℕ) :
    ∃ r, takeBatch list otherList limit = some r ∧
      ∀ x, r.1.count x + r.2.count x = otherList.count x + list.count x := by
  have hread := readTasks_eq list (list.length + 1) (list.length - min list.length limit)
    otherList (Nat.sub_le _ _) (by omega)
  rw [takeBatch, hread]
  refine ⟨_, rfl, fun x => ?_⟩
  rw [count_eq_take_add_drop list (list.length - min list.length limit) x]
  simp only [List.count_append]
  omega

/-! ### What a step does -/

inductive Effect (level : ℕ → Option ℕ) (n : ℕ) (s : WorkSharing τ) :
    Action τ → WorkSharing τ → Prop
  | registry {b : Executors.Action} {r : Executors}
    (step : s.registry.step (hasList level) b = some r)
    (register : ∀ id, b = .register id → id < n)
    (checkVersion : ∀ id, b = .checkVersion id → (s.place id).isOutside = true) :
    Effect level n s (.registry b) (s.setRegistry r)
  | spawn {id : ℕ} {task : τ} {isLocked : Bool} {r : List τ × List τ} (lt : id < n)
    (outside : (s.place id).isOutside = true)
    (count : ∀ x, r.1.count x + r.2.count x =
      (s.sharedTasks id).count x + (s.lists id).count x + [task].count x) :
    Effect level n s (.spawn id task isLocked) (s.setTasks id id r.1 r.2)
  | exec {id : ℕ} (lt : id < n) (outside : (s.place id).isOutside = true)
    (ne : s.sharedTasks id ≠ []) :
    Effect level n s (.exec id) (s.setTasks id id (s.sharedTasks id).dropLast (s.lists id))
  | idle {id : ℕ} {isLocked : Bool} {maxNumberOfTries : ℕ} :
    Effect level n s (.takeWork id isLocked maxNumberOfTries) s
  | pop {id : ℕ} {isLocked : Bool} {maxNumberOfTries : ℕ} {r : List τ × List τ} (lt : id < n)
    (count : ∀ x, r.1.count x + r.2.count x = (s.sharedTasks id).count x + (s.lists id).count x) :
    Effect level n s (.takeWork id isLocked maxNumberOfTries) (s.setTasks id id r.1 r.2)
  | enter {id : ℕ} {isLocked : Bool} {maxNumberOfTries : ℕ} {lists : List ℕ}
    (phase : s.registry.phase id = .running) (outside : (s.place id).isOutside = true)
    (image : (s.registry.states id).tasksLists = some lists)
    (le : maxNumberOfTries ≤ lists.length) :
    Effect level n s (.takeWork id isLocked maxNumberOfTries)
      (s.goto id (.taking 0 maxNumberOfTries))
  | exit {id : ℕ} {isLocked : Bool} {i maxNumberOfTries : ℕ} (b : Bool)
    (place : s.place id = .taking i maxNumberOfTries) :
    Effect level n s (.takeBatch id isLocked) ({ s with underflowed := b }.goto id .outside)
  | skip {id : ℕ} {isLocked : Bool} {i maxNumberOfTries : ℕ}
    (place : s.place id = .taking i maxNumberOfTries) (lt : i < maxNumberOfTries) :
    Effect level n s (.takeBatch id isLocked) (s.goto id (.taking (i + 1) maxNumberOfTries))
  | batch {id : ℕ} {isLocked : Bool} {i maxNumberOfTries owner : ℕ} {r : List τ × List τ}
    (place : s.place id = .taking i maxNumberOfTries) (lt : i < maxNumberOfTries)
    (owner_lt : owner < n) (count : ∀ x, r.1.count x + r.2.count x =
      (s.sharedTasks id).count x + (s.lists owner).count x) :
    Effect level n s (.takeBatch id isLocked)
      ((s.setTasks id owner r.1 r.2).goto id (.taking (i + 1) maxNumberOfTries))
  | stopAlone {id : ℕ} (phase : s.registry.phase id = .running)
    (outside : (s.place id).isOutside = true)
    (parting : Parting level s.registry id (none : Option (ℕ × List τ))) :
    Effect level n s (.gracefulStop id) (s.goto id (.stopping none))
  | stop {id firstNeighbor : ℕ} (phase : s.registry.phase id = .running)
    (outside : (s.place id).isOutside = true)
    (parting : Parting level s.registry id (some (firstNeighbor, s.lists id))) :
    Effect level n s (.gracefulStop id) ((s.setTasks id id (s.sharedTasks id) []).goto id
      (.stopping (some (firstNeighbor, s.lists id))))
  | leaveAlone {id : ℕ} (place : s.place id = .stopping none) :
    Effect level n s (.leave id) (s.goto id .stopped)
  | leave {id firstNeighbor : ℕ} {list : List τ}
    (place : s.place id = .stopping (some (firstNeighbor, list))) :
    Effect level n s (.leave id) ((s.setTasks id firstNeighbor []
      (s.lists firstNeighbor ++ s.sharedTasks id ++ list)).goto id .stopped)

theorem effect_of_takeWorkIfNeeded {maxNumberOfTries : ℕ} {isLocked : Bool} (hs : Sound level n s)
    (hrunning : s.isRunning id = true)
    (h : s.takeWorkIfNeeded level id isLocked maxNumberOfTries = some t) :
    Effect level n s (.takeWork id isLocked maxNumberOfTries) t := by
  obtain ⟨hphase, houtside⟩ := running_of_isRunning hrunning
  simp only [takeWorkIfNeeded] at h
  split at h
  case h_1 =>
    cases h
    exact .idle
  case h_2 l hlevel =>
    split at h
    · cases h
      exact .idle
    · split at h
      · cases h
        exact .pop (hs.lt_of_running hphase) fun x => count_popTasks _ _ _ x
      · split at h
        case h_1 himage =>
          -- An executor with work sharing has an image.
          have hsome := hs.registry.isSome_lists id (by simp [hphase])
          rw [himage, hasList, hlevel] at hsome
          cases hsome
        case h_2 =>
          cases h
          exact .idle
        case h_3 _ himage =>
          obtain ⟨hle, rfl⟩ := of_guard h
          exact .enter hphase houtside himage hle.2

theorem effect_of_takeBatchFrom {i maxNumberOfTries : ℕ} {isLocked : Bool} (hs : Sound level n s)
    (hplace : s.place id = .taking i maxNumberOfTries) :
    Effect level n s (.takeBatch id isLocked)
      (s.takeBatchFrom id i maxNumberOfTries isLocked) := by
  obtain ⟨hle, lists, himage, hlen⟩ := hs.taking id i maxNumberOfTries hplace
  simp only [takeBatchFrom]
  split
  · exact .exit s.underflowed hplace
  case isFalse hne =>
    have hlt : i < maxNumberOfTries := by omega
    have hget : (s.registry.states id).tasksLists.bind (·[i]?) = lists[i]? := by
      rw [himage, Option.bind_some]
    obtain ⟨owner, howner⟩ : ∃ owner, lists[i]? = some owner :=
      ⟨_, List.getElem?_eq_getElem (by omega)⟩
    rw [hget, howner]
    show Effect level n s _ (if _ then _ else _)
    split
    · exact .exit true hplace
    · split
      · exact .exit s.underflowed hplace
      · split
        · exact .skip hplace hlt
        · obtain ⟨r, hr, hcount⟩ := exists_takeBatch (s.lists owner) (s.sharedTasks id)
            (maxNumberOfTasksTaken - (s.sharedTasks id).length)
          rw [hr]
          exact .batch hplace hlt (hs.lt_of_mem_image himage (List.mem_of_getElem? howner)) hcount

theorem effect_of_gracefulStop (hs : Sound level n s) (hphase : s.registry.phase id = .running)
    (houtside : (s.place id).isOutside = true)
    (hstopped : (s.registry.states id).isStopped = true) :
    Effect level n s (.gracefulStop id) (s.gracefulStop level id) := by
  have hdead := (hs.registry.stopped id hstopped).2
  simp only [gracefulStop]
  split
  case h_1 hlevel =>
    refine .stopAlone hphase houtside ⟨hdead, .inl ⟨rfl, ?_⟩⟩
    rw [hasList, hlevel]
    rfl
  case h_2 l hlevel =>
    split
    case h_1 himage =>
      have hsome := hs.registry.isSome_lists id (by simp [hphase])
      rw [himage, hasList, hlevel] at hsome
      cases hsome
    case h_2 himage =>
      exact .stopAlone hphase houtside ⟨hdead, .inr ⟨_, himage, rfl⟩⟩
    case h_3 himage =>
      exact .stop hphase houtside ⟨hdead, .inr ⟨_, himage, rfl⟩⟩

theorem effect_of_step (hs : Sound level n s) (hstep : s.step level n a = some t) :
    Effect level n s a t := by
  cases a with
  | registry b =>
    cases b with
    | register id =>
      obtain ⟨hlt, hstep⟩ := Option.ite_none_right_eq_some.mp hstep
      obtain ⟨r, hr, rfl⟩ := Option.map_eq_some_iff.mp hstep
      refine .registry hr ?_ ?_
      · rintro _ ⟨⟩
        exact hlt
      · rintro _ ⟨⟩
    | checkVersion id =>
      obtain ⟨houtside, hstep⟩ := Option.ite_none_right_eq_some.mp hstep
      obtain ⟨r, hr, rfl⟩ := Option.map_eq_some_iff.mp hstep
      refine .registry hr ?_ ?_
      · rintro _ ⟨⟩
      · rintro _ ⟨⟩
        exact houtside
    | update id | stopExecutor id | stopAllExecutors | setVersion | unlock =>
      obtain ⟨r, hr, rfl⟩ := Option.map_eq_some_iff.mp hstep
      refine .registry hr ?_ ?_
      · rintro _ ⟨⟩
      · rintro _ ⟨⟩
  | spawn id task isLocked =>
    obtain ⟨hif, hstep⟩ := Option.ite_none_right_eq_some.mp hstep
    obtain ⟨r, hr, hcount⟩ :=
      exists_spawnSharedTask (level id) (s.sharedTasks id) (s.lists id) task isLocked
    rw [hr] at hstep
    cases hstep
    exact .spawn hif.1 (hs.outside_of_spawn hif.2) hcount
  | exec id =>
    obtain ⟨hif, rfl⟩ := of_guard hstep
    have hrunning := running_of_isRunning hif.1
    exact .exec (hs.lt_of_running hrunning.1) hrunning.2 hif.2
  | takeWork id isLocked maxNumberOfTries =>
    simp only [step] at hstep
    split at hstep
    case isTrue hrunning => exact effect_of_takeWorkIfNeeded hs hrunning hstep
    case isFalse => cases hstep
  | takeBatch id isLocked =>
    simp only [step] at hstep
    split at hstep
    case h_1 hplace =>
      cases hstep
      exact effect_of_takeBatchFrom hs hplace
    case h_2 => cases hstep
  | gracefulStop id =>
    obtain ⟨hif, rfl⟩ := of_guard hstep
    exact effect_of_gracefulStop hs hif.2.1 hif.1 hif.2.2
  | leave id =>
    simp only [step, WorkSharing.leave] at hstep
    split at hstep
    case h_1 hplace =>
      cases hstep
      exact .leaveAlone hplace
    case h_2 hplace =>
      cases hstep
      exact .leave hplace
    case h_3 => cases hstep

theorem Sound.effect (hs : Sound level n s) (h : Effect level n s a t) : Sound level n t := by
  cases h with
  | registry step register checkVersion => exact hs.registry_step step register checkVersion
  | spawn | exec | pop => exact hs.setTasks
  | idle => exact hs
  | enter phase outside image le =>
    refine hs.goto phase ?_ ?_
    · rintro i m ⟨⟩
      exact ⟨Nat.zero_le _, _, image, le⟩
    · rintro neighbor ⟨⟩
  | @exit id isLocked i m b place =>
    have hs' : Sound level n { s with underflowed := b } :=
      ⟨hs.registry, hs.lt, hs.phase, hs.taking, hs.stopping, hs.panicked⟩
    refine hs'.goto (hs.running_of_place place rfl) ?_ ?_
    · rintro i m ⟨⟩
    · rintro neighbor ⟨⟩
  | @skip id isLocked i m place lt =>
    refine hs.goto (hs.running_of_place place rfl) ?_ ?_
    · rintro _ _ ⟨⟩
      exact ⟨lt, (hs.taking id i m place).2⟩
    · rintro neighbor ⟨⟩
  | @batch id isLocked i m owner r place lt owner_lt count =>
    refine hs.setTasks.goto (hs.running_of_place place rfl) ?_ ?_
    · rintro _ _ ⟨⟩
      exact ⟨lt, (hs.taking id i m place).2⟩
    · rintro neighbor ⟨⟩
  | stopAlone phase outside parting =>
    refine hs.goto phase ?_ ?_
    · rintro i m ⟨⟩
    · rintro _ ⟨⟩
      exact parting
  | stop phase outside parting =>
    refine hs.setTasks.goto phase ?_ ?_
    · rintro i m ⟨⟩
    · rintro _ ⟨⟩
      exact parting
  | leaveAlone place =>
    refine hs.goto (hs.running_of_place place rfl) ?_ ?_
    · rintro i m ⟨⟩
    · rintro neighbor ⟨⟩
  | leave place =>
    refine hs.setTasks.goto (hs.running_of_place place rfl) ?_ ?_
    · rintro i m ⟨⟩
    · rintro neighbor ⟨⟩

theorem sound {C : WorkSharing τ → Action τ → Prop} (h : Reach (step level n) C init s) :
    Sound level n s :=
  h.invariant sound_init fun _ _ _ _ hs _ hstep => hs.effect (effect_of_step hs hstep)

/-! ### Conservation -/

/-- How often a task is in the run queues and lists of `n` executors, and in what an executor that
stops has drained. -/
def total (n : ℕ) (w : WorkSharing τ) (x : τ) : ℕ :=
  ∑ i ∈ range n, (w.sharedTasks i).count x + ∑ i ∈ range n, (w.lists i).count x +
    ∑ i ∈ range n, (w.place i).tasks.count x

def spawned : Action τ → List τ
  | .spawn _ task _ => [task]
  | _ => []

def executed (w : WorkSharing τ) : Action τ → List τ
  | .exec id => (w.sharedTasks id).getLast?.toList
  | _ => []

theorem total_setTasks {owner : ℕ} (hid : id < n) (howner : owner < n) (sharedTasks list : List τ)
    (x : τ) :
    total n (s.setTasks id owner sharedTasks list) x +
        ((s.sharedTasks id).count x + (s.lists owner).count x) =
      total n s x + (sharedTasks.count x + list.count x) := by
  have hqueue := sum_update (mem_range.mpr hid) (List.count x) s.sharedTasks sharedTasks
  have hlist := sum_update (mem_range.mpr howner) (List.count x) s.lists list
  simp only [total, WorkSharing.setTasks]
  omega

theorem total_goto (hid : id < n) (p : Place τ) (x : τ) :
    total n (s.goto id p) x + (s.place id).tasks.count x = total n s x + p.tasks.count x := by
  have hplace := sum_update (mem_range.mpr hid) (fun p => p.tasks.count x) s.place p
  simp only [total, WorkSharing.goto]
  omega

theorem total_of_effect (hs : Sound level n s) (h : Effect level n s a t) (x : τ) :
    total n t x + (executed s a).count x = total n s x + (spawned a).count x := by
  cases h with
  | registry | idle => rfl
  | @spawn _ _ _ r lt _ count | @pop _ _ _ r lt count =>
    have htotal := total_setTasks lt lt r.1 r.2 x (s := s)
    have hx := count x
    simp only [spawned, executed, List.count_nil]
    omega
  | @exec id lt _ ne =>
    have htotal := total_setTasks lt lt (s.sharedTasks id).dropLast (s.lists id) x (s := s)
    have hx : (s.sharedTasks id).count x =
        (s.sharedTasks id).dropLast.count x + [(s.sharedTasks id).getLast ne].count x := by
      rw [← List.count_append, List.dropLast_append_getLast]
    simp only [spawned, executed, List.getLast?_eq_some_getLast ne, Option.toList_some,
      List.count_nil]
    omega
  | @enter id isLocked m lists phase outside image le =>
    have htotal := total_goto (hs.lt_of_running phase) (.taking 0 m) x (s := s)
    rw [tasks_of_isOutside outside] at htotal
    exact htotal
  | @exit id isLocked i m b place =>
    have htotal := total_goto (s := { s with underflowed := b }) (hs.lt_of_place place rfl)
      .outside x
    rw [show s.place id = .taking i m from place] at htotal
    exact htotal
  | @skip id isLocked i m place lt =>
    have htotal := total_goto (hs.lt_of_place place rfl) (.taking (i + 1) m) x (s := s)
    rw [place] at htotal
    exact htotal
  | @batch id isLocked i m owner r place lt owner_lt count =>
    have hid := hs.lt_of_place place rfl
    have htotal := total_setTasks hid owner_lt r.1 r.2 x (s := s)
    have hgoto := total_goto hid (.taking (i + 1) m) x (s := s.setTasks id owner r.1 r.2)
    rw [show (s.setTasks id owner r.1 r.2).place id = .taking i m from place] at hgoto
    have hx := count x
    simp only [spawned, executed, Place.tasks, List.count_nil] at hgoto ⊢
    omega
  | @stopAlone id phase outside parting =>
    have htotal := total_goto (hs.lt_of_running phase) (.stopping none) x (s := s)
    rw [tasks_of_isOutside outside] at htotal
    exact htotal
  | @stop id firstNeighbor phase outside parting =>
    have hid := hs.lt_of_running phase
    have htotal := total_setTasks hid hid (s.sharedTasks id) [] x (s := s)
    have hgoto := total_goto hid (.stopping (some (firstNeighbor, s.lists id))) x
      (s := s.setTasks id id (s.sharedTasks id) [])
    rw [show (s.setTasks id id (s.sharedTasks id) []).place id = s.place id from rfl,
      tasks_of_isOutside outside] at hgoto
    simp only [spawned, executed, Place.tasks, List.count_nil] at hgoto htotal ⊢
    omega
  | @leaveAlone id place =>
    have htotal := total_goto (hs.lt_of_place place rfl) .stopped x (s := s)
    rw [place] at htotal
    exact htotal
  | @leave id firstNeighbor list place =>
    have hid := hs.lt_of_place place rfl
    have htotal := total_setTasks hid (hs.neighbor_lt place) []
      (s.lists firstNeighbor ++ s.sharedTasks id ++ list) x (s := s)
    have hgoto := total_goto hid .stopped x (s := s.setTasks id firstNeighbor []
      (s.lists firstNeighbor ++ s.sharedTasks id ++ list))
    rw [show (s.setTasks id firstNeighbor [] (s.lists firstNeighbor ++ s.sharedTasks id ++
      list)).place id = _ from place] at hgoto
    simp only [spawned, executed, Place.tasks, List.count_nil, List.count_append] at hgoto htotal ⊢
    omega

/-- **Work sharing conserves tasks.**  For every number of executors, all levels and every
interleaving, the number of each task over all run queues and shared lists changes only by the task
that the step spawns or executes; and no range that is drained, no index and no `unwrap` is
wrong. -/
theorem conserves_work (level : ℕ → Option ℕ) (n : ℕ) {s t : WorkSharing τ} {a : Action τ}
    (h : Reachable (step level n) init s) (hstep : s.step level n a = some t) :
    (∀ x, total n t x + (executed s a).count x = total n s x + (spawned a).count x) ∧
    t.panicked = false := by
  have hs := sound h
  have heffect := effect_of_step hs hstep
  exact ⟨total_of_effect hs heffect, (hs.effect heffect).panicked⟩

/-- `a` and `b` are registered, and both update their images. -/
def startBoth (a b : ℕ) : List (Action τ) :=
  (Executors.runRegister a 1 ++ Executors.runRegister b 2 ++ Executors.runCheck a ++
    Executors.runCheck b).map .registry

/-- `a` spawns three tasks and flushes two of them; `b` is about to take a batch from it. -/
def flushThree (a b : ℕ) (x y z : τ) : List (Action τ) :=
  startBoth a b ++ [.spawn a x false, .spawn a y false, .spawn a z false, .takeWork b false 1]

/-- Then `b` takes both tasks, and nothing is lost. -/
theorem conserves_work_flushThree :
    ∃ s t : WorkSharing (Fin 3), Reachable (step (fun _ => some 1) 2) init s ∧
      s.step (fun _ => some 1) 2 (.takeBatch 1 false) = some t ∧ s.lists 0 = [0, 1] ∧
      t.sharedTasks 1 = [0, 1] ∧ t.lists 0 = [] ∧ ∀ x, total 2 t x = total 2 s x := by
  have hreach : Reachable (step (fun _ => some 1) 2) init _ :=
    reachable_of_exec (flushThree 0 1 (0 : Fin 3) 1 2) rfl
  refine ⟨_, _, hreach, rfl, rfl, rfl, rfl, ?_⟩
  exact (conserves_work (fun _ => some 1) 2 hreach rfl (a := .takeBatch 1 false)).1

end Orengine.Runtime.WorkSharing
