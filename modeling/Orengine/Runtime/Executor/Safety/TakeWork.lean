import Orengine.Runtime.Executor.Config
import Orengine.Runtime.Executor.Safety.WorkSharing

/-!
# How many tasks `take_work_if_needed` takes

From the own list of the executor `take_work_if_needed` fills the run queue up to the level; but in
the loop over the lists of the other executors it fills it up to `MAX_NUMBER_OF_TASKS_TAKEN`, and
subtracts the length of the queue from this constant.  With a level above it the queue may be longer
(`limit_underflows`).  And a queue that is longer than the level stays as it is.  `takes_at_most` is
about the other calls.
-/

namespace Orengine.Runtime.WorkSharing

open Orengine.Lib

variable {τ : Type*} {level : ℕ → Option ℕ} {n : ℕ} {s t : WorkSharing τ} {a : Action τ} {id : ℕ}

/-! ### The lengths of the run queues -/

theorem length_popTasks_le (limit : ℕ) (sharedTasks list : List τ) :
    (popTasks limit sharedTasks list).1.length ≤ sharedTasks.length + limit := by
  induction limit generalizing sharedTasks list with
  | zero => exact Nat.le_refl _
  | succ limit ih =>
    rw [popTasks]
    split
    case h_1 task _ =>
      have hlength := ih (sharedTasks ++ [task]) list.dropLast
      rw [List.length_append, List.length_singleton] at hlength
      omega
    case h_2 => exact (ih sharedTasks list).trans (Nat.le_succ _)

theorem length_takeBatch_le {list otherList : List τ} {limit : ℕ} {r : List τ × List τ}
    (h : takeBatch list otherList limit = some r) : r.1.length ≤ otherList.length + limit := by
  have hread := readTasks_eq list (list.length + 1) (list.length - min list.length limit)
    otherList (Nat.sub_le _ _) (by omega)
  rw [takeBatch, hread] at h
  obtain rfl := Option.some.inj h
  show (otherList ++ list.drop (list.length - min list.length limit)).length ≤ _
  rw [List.length_append, List.length_drop]
  omega

/-! ### The calls that go wrong -/

/-- Whether the executor has other lists to take tasks from. -/
def hasNeighbors (w : WorkSharing τ) (id : ℕ) : Bool :=
  (w.registry.states id).tasksLists.any fun lists => !lists.isEmpty

/-- Whether `take_work_if_needed` is called with a queue that is too long: longer than both bounds,
or longer than `MAX_NUMBER_OF_TASKS_TAKEN` when the tasks are taken from other lists. -/
def overfull (level : ℕ → Option ℕ) (w : WorkSharing τ) : Action τ → Bool
  | .takeWork id isLocked _ =>
    (level id).any fun l =>
      decide (maxNumberOfTasksTaken < (w.sharedTasks id).length) &&
        (decide (l < (w.sharedTasks id).length) ||
          decide ((w.sharedTasks id).length < l) && (isLocked || (w.lists id).isEmpty) &&
            w.hasNeighbors id)
  | _ => false

/-- Whether a step is one of a call of `take_work_if_needed` by the executor. -/
def Action.takes (id : ℕ) : Action τ → Prop
  | .takeWork id' _ _ => id' = id
  | .takeBatch id' _ => id' = id
  | _ => False

/-! ### One step -/

/-- Nothing has underflowed, and in the loop a queue is not longer than the constant. -/
structure Fits (w : WorkSharing τ) : Prop where
  underflowed : w.underflowed = false
  taking : ∀ id i maxNumberOfTries, w.place id = .taking i maxNumberOfTries →
    (w.sharedTasks id).length ≤ maxNumberOfTasksTaken

/-- Only one executor has another queue or another place. -/
structure Changes (id : ℕ) (s t : WorkSharing τ) : Prop where
  underflowed : t.underflowed = s.underflowed
  others : ∀ j ≠ id, t.sharedTasks j = s.sharedTasks j ∧ t.place j = s.place j

theorem Changes.refl (id : ℕ) (s : WorkSharing τ) : Changes id s s := ⟨rfl, fun _ _ => ⟨rfl, rfl⟩⟩

theorem changes_setPanicked (id : ℕ) (s : WorkSharing τ) : Changes id s s.setPanicked :=
  ⟨rfl, fun _ _ => ⟨rfl, rfl⟩⟩

theorem Changes.goto (h : Changes id s t) (p : Place τ) : Changes id s (t.goto id p) :=
  ⟨h.underflowed, fun j hj => ⟨(h.others j hj).1, (Function.update_of_ne hj ..).trans
    (h.others j hj).2⟩⟩

theorem changes_setTasks (id owner : ℕ) (sharedTasks list : List τ) :
    Changes id s (s.setTasks id owner sharedTasks list) :=
  ⟨rfl, fun _ hj => ⟨Function.update_of_ne hj .., rfl⟩⟩

theorem Fits.update (hs : s.Fits) (h : Changes id s t)
    (hown : ∀ i maxNumberOfTries, t.place id = .taking i maxNumberOfTries →
      (t.sharedTasks id).length ≤ maxNumberOfTasksTaken) : t.Fits := by
  refine ⟨h.underflowed.trans hs.underflowed, fun j i maxNumberOfTries hplace => ?_⟩
  by_cases hj : j = id
  · obtain rfl := hj
    exact hown i maxNumberOfTries hplace
  · obtain ⟨htasks, hsame⟩ := h.others j hj
    rw [htasks]
    exact hs.taking j i maxNumberOfTries (hsame ▸ hplace)

theorem not_taking_of_isOutside {p : Place τ} (h : p.isOutside = true) (i maxNumberOfTries : ℕ) :
    p ≠ .taking i maxNumberOfTries := by
  rintro rfl
  cases h

theorem Fits.leaves (hs : s.Fits) (h : Changes id s t)
    (hplace : ∀ i maxNumberOfTries, t.place id ≠ .taking i maxNumberOfTries) : t.Fits :=
  hs.update h fun i maxNumberOfTries heq => absurd heq (hplace i maxNumberOfTries)

theorem length_setTasks (id owner : ℕ) (sharedTasks list : List τ) :
    ((s.setTasks id owner sharedTasks list).sharedTasks id).length = sharedTasks.length :=
  congrArg List.length (Function.update_self ..)

/-- A round of the loop keeps the queue short. -/
theorem takeBatchFrom_spec {i maxNumberOfTries : ℕ} {isLocked : Bool}
    (hlength : (s.sharedTasks id).length ≤ maxNumberOfTasksTaken)
    (h : s.takeBatchFrom id i maxNumberOfTries isLocked = t) :
    Changes id s t ∧ (t.sharedTasks id).length ≤ maxNumberOfTasksTaken := by
  unfold takeBatchFrom at h
  split at h
  case isTrue => exact h ▸ ⟨(Changes.refl id s).goto _, hlength⟩
  case isFalse =>
    split at h
    case h_1 => exact h ▸ ⟨changes_setPanicked id s, hlength⟩
    case h_2 owner _ =>
      rw [if_neg (Nat.not_lt.mpr hlength)] at h
      simp only at h
      split at h
      case isTrue => exact h ▸ ⟨(Changes.refl id s).goto _, hlength⟩
      case isFalse =>
        split at h
        case isTrue => exact h ▸ ⟨(Changes.refl id s).goto _, hlength⟩
        case isFalse =>
          split at h
          case h_1 => exact h ▸ ⟨changes_setPanicked id s, hlength⟩
          case h_2 r hr =>
            have hbatch := length_takeBatch_le hr
            obtain rfl := h
            refine ⟨(changes_setTasks id owner r.1 r.2).goto _, ?_⟩
            rw [show ((s.setTasks id owner r.1 r.2).goto id _).sharedTasks id =
              (s.setTasks id owner r.1 r.2).sharedTasks id from rfl, length_setTasks]
            omega

/-- The function returns with a queue that is not longer than it was or than the level, or it goes
on to the loop over the lists of the others. -/
theorem takeWorkIfNeeded_spec {maxNumberOfTries : ℕ} {isLocked : Bool}
    (h : s.takeWorkIfNeeded level id isLocked maxNumberOfTries = some t) :
    Changes id s t ∧
      (t.place id = s.place id ∧
          (∀ l, level id = some l → (t.sharedTasks id).length ≤ max (s.sharedTasks id).length l) ∨
        t.sharedTasks id = s.sharedTasks id ∧ (t.place id).isOutside = false ∧
          ∃ l, level id = some l ∧ (s.sharedTasks id).length < l ∧
            (isLocked || (s.lists id).isEmpty) = true ∧ s.hasNeighbors id = true) := by
  have hstays : Changes id s s ∧ (s.place id = s.place id ∧
      (∀ l, level id = some l → (s.sharedTasks id).length ≤ max (s.sharedTasks id).length l)) :=
    ⟨.refl id s, rfl, fun l _ => le_max_left ..⟩
  unfold takeWorkIfNeeded at h
  split at h
  case h_1 => exact Option.some.inj h ▸ ⟨hstays.1, .inl hstays.2⟩
  case h_2 l hlevel =>
    split at h
    case isTrue => exact Option.some.inj h ▸ ⟨hstays.1, .inl hstays.2⟩
    case isFalse hshort =>
      split at h
      case isTrue =>
        obtain rfl := Option.some.inj h
        refine ⟨changes_setTasks id id _ _, .inl ⟨rfl, fun l' hl' => ?_⟩⟩
        obtain rfl := Option.some.inj (hlevel.symm.trans hl')
        have hpop := length_popTasks_le (l - (s.sharedTasks id).length) (s.sharedTasks id)
          (s.lists id)
        rw [length_setTasks]
        omega
      case isFalse hown =>
        split at h
        case h_1 => exact Option.some.inj h ▸ ⟨changes_setPanicked id s, .inl hstays.2⟩
        case h_2 => exact Option.some.inj h ▸ ⟨hstays.1, .inl hstays.2⟩
        case h_3 lists hne himage =>
          split at h
          case isFalse => cases h
          case isTrue =>
            obtain rfl := Option.some.inj h
            refine ⟨hstays.1.goto _, .inr ⟨rfl, ?_, l, hlevel, Nat.not_le.mp hshort, ?_, ?_⟩⟩
            · rw [show (s.goto id _).place id = _ from Function.update_self ..]
              rfl
            · cases isLocked with
              | true => rfl
              | false =>
                rw [not_and, not_ne_iff] at hown
                rw [hown rfl]
                rfl
            · unfold hasNeighbors
              rw [himage]
              cases lists with
              | nil => exact absurd rfl hne
              | cons => rfl

/-- What a call that is not `overfull` can rely on. -/
theorem length_of_not_overfull {isLocked : Bool} {maxNumberOfTries l : ℕ}
    (h : s.overfull level (.takeWork id isLocked maxNumberOfTries) = false)
    (hlevel : level id = some l) :
    (s.sharedTasks id).length ≤ max l maxNumberOfTasksTaken ∧
      ((s.sharedTasks id).length < l → (isLocked || (s.lists id).isEmpty) = true →
        s.hasNeighbors id = true → (s.sharedTasks id).length ≤ maxNumberOfTasksTaken) := by
  have heval : s.overfull level (.takeWork id isLocked maxNumberOfTries) =
      (decide (maxNumberOfTasksTaken < (s.sharedTasks id).length) &&
        (decide (l < (s.sharedTasks id).length) ||
          decide ((s.sharedTasks id).length < l) && (isLocked || (s.lists id).isEmpty) &&
            s.hasNeighbors id)) := by
    simp only [overfull, hlevel, Option.any_some]
  rw [heval] at h
  constructor
  · by_contra hlong
    rw [decide_eq_true (show maxNumberOfTasksTaken < (s.sharedTasks id).length by omega),
      decide_eq_true (show l < (s.sharedTasks id).length by omega)] at h
    cases h
  · intro hshort hown hneighbors
    by_contra hlong
    rw [decide_eq_true (Nat.not_le.mp hlong), decide_eq_true hshort, hown, hneighbors,
      Bool.and_true, Bool.and_true, Bool.or_true] at h
    cases h

/-- A call that returns leaves a queue that is not too long. -/
theorem Fits.length_le (hs : s.Fits) {l : ℕ} (hfull : s.overfull level a = false)
    (hstep : s.step level n a = some t) (htakes : a.takes id)
    (hreturns : (t.place id).isOutside = true) (hlevel : level id = some l) :
    (t.sharedTasks id).length ≤ max l maxNumberOfTasksTaken := by
  cases a with
  | takeWork id' isLocked maxNumberOfTries =>
    obtain rfl : id' = id := htakes
    simp only [WorkSharing.step] at hstep
    split at hstep
    case isFalse => cases hstep
    case isTrue =>
      obtain ⟨-, ⟨-, hlength⟩ | ⟨-, hinside, -⟩⟩ := takeWorkIfNeeded_spec hstep
      · have hbefore := (length_of_not_overfull hfull hlevel).1
        have hafter := hlength l hlevel
        omega
      · rw [hinside] at hreturns
        cases hreturns
  | takeBatch id' isLocked =>
    obtain rfl : id' = id := htakes
    simp only [WorkSharing.step] at hstep
    split at hstep
    case h_2 => cases hstep
    case h_1 i maxNumberOfTries hplace =>
      obtain ⟨-, hlength⟩ :=
        takeBatchFrom_spec (hs.taking id' i maxNumberOfTries hplace) (Option.some.inj hstep)
      exact hlength.trans (le_max_right ..)
  | registry | spawn | exec | gracefulStop | leave => cases htakes

section Step

variable [DecidableEq τ]

/-- **One step** that is not `overfull`. -/
theorem Fits.step (hs : s.Fits) (hsound : Sound level n s)
    (hfull : s.overfull level a = false) (hstep : s.step level n a = some t) : t.Fits := by
  have heffect := effect_of_step hsound hstep
  cases a with
  | takeWork id isLocked maxNumberOfTries =>
    simp only [WorkSharing.step] at hstep
    split at hstep
    case isFalse => cases hstep
    case isTrue hrunning =>
      have houtside := (running_of_isRunning hrunning).2
      obtain ⟨hchanges, ⟨hplace, -⟩ | ⟨htasks, -, l, hlevel, hshort, hown, hneighbors⟩⟩ :=
        takeWorkIfNeeded_spec hstep
      · exact hs.leaves hchanges (not_taking_of_isOutside (hplace ▸ houtside))
      · refine hs.update hchanges fun _ _ _ => ?_
        rw [htasks]
        exact (length_of_not_overfull hfull hlevel).2 hshort hown hneighbors
  | takeBatch id isLocked =>
    simp only [WorkSharing.step] at hstep
    split at hstep
    case h_2 => cases hstep
    case h_1 i maxNumberOfTries hplace =>
      obtain ⟨hchanges, hlength⟩ :=
        takeBatchFrom_spec (hs.taking id i maxNumberOfTries hplace) (Option.some.inj hstep)
      exact hs.update hchanges fun _ _ _ => hlength
  | registry b =>
    cases heffect with
    | registry step register checkVersion => exact ⟨hs.underflowed, hs.taking⟩
  | spawn id task isLocked =>
    cases heffect with
    | spawn lt outside count =>
      exact hs.leaves (changes_setTasks id id _ _) (not_taking_of_isOutside outside)
  | exec id =>
    cases heffect with
    | exec lt outside ne =>
      exact hs.leaves (changes_setTasks id id _ _) (not_taking_of_isOutside outside)
  | gracefulStop id =>
    cases heffect with
    | stopAlone phase outside parting =>
      refine hs.leaves ((Changes.refl id s).goto _) fun i k hplace => ?_
      rw [show (s.goto id _).place id = _ from Function.update_self ..] at hplace
      cases hplace
    | stop phase outside parting =>
      refine hs.leaves ((changes_setTasks id id _ _).goto _) fun i k hplace => ?_
      rw [show (goto _ id _).place id = _ from Function.update_self ..] at hplace
      cases hplace
  | leave id =>
    cases heffect with
    | leaveAlone place =>
      refine hs.leaves ((Changes.refl id s).goto _) fun i k hplace => ?_
      rw [show (s.goto id _).place id = _ from Function.update_self ..] at hplace
      cases hplace
    | leave place =>
      refine hs.leaves ((changes_setTasks id _ _ _).goto _) fun i k hplace => ?_
      rw [show (goto _ id _).place id = _ from Function.update_self ..] at hplace
      cases hplace

/-- **What `take_work_if_needed` takes.**  If no call is `overfull`, no subtraction underflows, and
a call that returns leaves at most as many tasks in the queue as the larger one of the level and
`MAX_NUMBER_OF_TASKS_TAKEN`. -/
theorem takes_at_most
    (h : Reach (step level n) (fun w a => w.overfull level a = false) init s) :
    s.underflowed = false ∧ ∀ a t id l, s.overfull level a = false →
      s.step level n a = some t → a.takes id → (t.place id).isOutside = true →
      level id = some l → (t.sharedTasks id).length ≤ max l maxNumberOfTasksTaken := by
  have hs : s.Fits := by
    apply h.invariant (I := Fits) ⟨rfl, fun _ _ _ hplace => by cases hplace⟩
    exact fun w a w' hw hfits hC hstep => hfits.step (sound hw) hC hstep
  exact ⟨hs.underflowed, fun _ _ _ _ => hs.length_le⟩

end Step

/-- `b` takes the two tasks of `a`, and returns. -/
theorem takes_at_most_flushThree :
    ∃ s t : WorkSharing (Fin 3),
      Reach (step (fun _ => some 1) 2) (fun w a => w.overfull (fun _ => some 1) a = false) init s ∧
      s.step (fun _ => some 1) 2 (.takeBatch 1 false) = some t ∧ (t.place 1).isOutside = true ∧
      (t.sharedTasks 1).length = 2 ∧ s.underflowed = false ∧
      (t.sharedTasks 1).length ≤ max 1 maxNumberOfTasksTaken := by
  have hreach : Reach (step (fun _ => some 1) 2)
      (fun w a => w.overfull (fun _ => some 1) a = false) init _ :=
    reach_of_execWhere (flushThree 0 1 (0 : Fin 3) 1 2 ++ [.takeBatch 1 false]) rfl
  obtain ⟨hunderflowed, hlength⟩ := takes_at_most hreach
  exact ⟨_, _, hreach, rfl, rfl, rfl, hunderflowed,
    hlength (.takeBatch 1 false) _ 1 1 rfl rfl rfl rfl rfl⟩

/-- **The limit underflows.**  The level was set to 18, and an executor with 17 tasks takes tasks
from the list of another one: `16 - 17`. -/
theorem limit_underflows :
    ∃ s : WorkSharing Unit,
      Reachable (step (fun _ => ((Config.default ()).setWorkSharingLevel 18).level) 2) init s ∧
      (s.sharedTasks 1).length = 17 ∧ s.underflowed = true := by
  have hreach : Reachable (step (fun _ => ((Config.default ()).setWorkSharingLevel 18).level) 2)
      (init : WorkSharing Unit) _ :=
    reachable_of_exec (startBoth 0 1 ++ List.replicate 17 (.spawn 1 () false) ++
      [.takeWork 1 false 1, .takeBatch 1 false]) rfl
  exact ⟨_, hreach, rfl, rfl⟩

end Orengine.Runtime.WorkSharing
