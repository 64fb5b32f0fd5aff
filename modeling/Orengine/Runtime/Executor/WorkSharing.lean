import Orengine.Runtime.GlobalState.Subscribed

/-!
# Work sharing

An executor with work sharing has a list of `shared` tasks that other executors take tasks from.
`spawn_shared_task` moves about half of a long run queue to that list, `take_work_if_needed` takes
tasks from the executor's own list or from the lists of its image of the global state, and
`graceful_stop` leaves all tasks of an executor that was stopped to the first list of its image.

The model runs on top of the one of the global state.  A list is behind a lock that nobody waits
for; `isLocked` says whether an attempt to lock it fails, and what happens under a lock is one step.
The spin loops of `graceful_stop` end with the attempt that succeeds.
-/

namespace Orengine.Runtime

variable {τ : Type*}

namespace WorkSharing

def maxNumberOfTasksTaken : ℕ := 16

/-- `try_flush` of `spawn_shared_task`, as run queue and list; `none` if the range to drain is
longer than the run queue. -/
def tryFlush (sharedTasks list : List τ) (isLocked : Bool) : Option (List τ × List τ) :=
  if isLocked then some (sharedTasks, list)
  else
    let numberOfShared := (sharedTasks.length >>> 1) + 1
    if numberOfShared ≤ sharedTasks.length then
      some (sharedTasks.drop numberOfShared, list ++ sharedTasks.take numberOfShared)
    else none

/-- `spawn_shared_task`, as run queue and list; without a level there is no work sharing. -/
def spawnSharedTask (level : Option ℕ) (sharedTasks list : List τ) (task : τ) (isLocked : Bool) :
    Option (List τ × List τ) :=
  match level with
  | some level =>
    if sharedTasks.length ≤ level then some (sharedTasks ++ [task], list)
    else (tryFlush sharedTasks list isLocked).map fun r => (r.1 ++ [task], r.2)
  | none => some (sharedTasks ++ [task], list)

/-- The loop of `take_work_if_needed` over the executor's own list, as run queue and list. -/
def popTasks : ℕ → List τ → List τ → List τ × List τ
  | 0, sharedTasks, list => (sharedTasks, list)
  | limit + 1, sharedTasks, list =>
    match list.getLast? with
    | some task => popTasks limit (sharedTasks ++ [task]) list.dropLast
    | none => popTasks limit sharedTasks list

/-- The loop of `take_batch`: the tasks of the list from an index on are read into the other list.
`none` if it reads behind the end of the list, or has not ended after so many rounds. -/
def readTasks (list : List τ) : ℕ → ℕ → List τ → Option (List τ)
  | 0, _, _ => none
  | rounds + 1, firstIndex, otherList =>
    if firstIndex = list.length then some otherList
    else
      match list[firstIndex]? with
      | some task => readTasks list rounds (firstIndex + 1) (otherList ++ [task])
      | none => none

/-- `ExecutorSharedTaskList::take_batch` with the lock, as other list and list. -/
def takeBatch (list otherList : List τ) (limit : ℕ) : Option (List τ × List τ) :=
  let numberOfElems := min list.length limit
  let newLen := list.length - numberOfElems
  (readTasks list (list.length + 1) newLen otherList).map fun otherList =>
    (otherList, list.take newLen)

/-- Where an executor is. -/
inductive Place (τ : Type*) where
  | outside
  /-- In the loop of `take_work_if_needed` over the lists of its image: round and number of
  rounds. -/
  | taking (i maxNumberOfTries : ℕ)
  /-- In `graceful_stop`: the first neighbor, if there is one, and what was in its own list. -/
  | stopping (firstNeighbor : Option (ℕ × List τ))
  | stopped

/-- The tasks that an executor has taken out of its own list in `graceful_stop`. -/
def Place.tasks : Place τ → List τ
  | .stopping (some (_, list)) => list
  | _ => []

/-- Whether an executor is in none of the functions. -/
def Place.isOutside : Place τ → Bool
  | .outside => true
  | _ => false

inductive Action (τ : Type*) where
  /-- A step of the global state and of the images of it. -/
  | registry (action : Executors.Action)
  /-- The executor spawns a `shared` task. -/
  | spawn (id : ℕ) (task : τ) (isLocked : Bool)
  /-- The executor takes the next `shared` task from its run queue and executes it. -/
  | exec (id : ℕ)
  /-- The executor calls `take_work_if_needed`; `isLocked` is about its own list, and
  `maxNumberOfTries` is the random choice. -/
  | takeWork (id : ℕ) (isLocked : Bool) (maxNumberOfTries : ℕ)
  /-- The next round of the loop of `take_work_if_needed`. -/
  | takeBatch (id : ℕ) (isLocked : Bool)
  /-- The executor calls `graceful_stop` and drains its own list. -/
  | gracefulStop (id : ℕ)
  /-- It leaves its tasks to its first neighbor. -/
  | leave (id : ℕ)

end WorkSharing

/-- The run queues and the lists of all executors. -/
structure WorkSharing (τ : Type*) where
  registry : Executors
  /-- `shared_tasks` of each executor. -/
  sharedTasks : ℕ → List τ
  /-- The `ExecutorSharedTaskList` of each executor. -/
  lists : ℕ → List τ
  place : ℕ → WorkSharing.Place τ
  /-- Whether the limit of a batch has underflowed. -/
  underflowed : Bool
  /-- Whether a range, an index or an `unwrap` was wrong. -/
  panicked : Bool

namespace WorkSharing

def init : WorkSharing τ :=
  ⟨.init, fun _ => [], fun _ => [], fun _ => .outside, false, false⟩

def goto (w : WorkSharing τ) (id : ℕ) (p : Place τ) : WorkSharing τ :=
  { w with place := Function.update w.place id p }

/-- Another run queue for `id` and another list for `owner`. -/
def setTasks (w : WorkSharing τ) (id owner : ℕ) (sharedTasks list : List τ) : WorkSharing τ :=
  { w with
    sharedTasks := Function.update w.sharedTasks id sharedTasks
    lists := Function.update w.lists owner list }

def setRegistry (w : WorkSharing τ) (r : Executors) : WorkSharing τ := { w with registry := r }

/-- A range, an index or an `unwrap` was wrong. -/
def setPanicked (w : WorkSharing τ) : WorkSharing τ := { w with panicked := true }

def isRunning (w : WorkSharing τ) (id : ℕ) : Bool :=
  (w.place id).isOutside && decide (w.registry.phase id = .running) &&
    !(w.registry.states id).isStopped

variable (level : ℕ → Option ℕ)

/-- `take_work_if_needed` up to the loop over the lists of the image. -/
def takeWorkIfNeeded (w : WorkSharing τ) (id : ℕ) (isLocked : Bool) (maxNumberOfTries : ℕ) :
    Option (WorkSharing τ) :=
  match level id with
  | none => some w
  | some level =>
    if level ≤ (w.sharedTasks id).length then some w
    else if isLocked = false ∧ w.lists id ≠ [] then
      let r := popTasks (level - (w.sharedTasks id).length) (w.sharedTasks id) (w.lists id)
      some (w.setTasks id id r.1 r.2)
    else
      match (w.registry.states id).tasksLists with
      | none => some w.setPanicked
      | some [] => some w
      | some lists =>
        if 1 ≤ maxNumberOfTries ∧ maxNumberOfTries ≤ lists.length then
          some (w.goto id (.taking 0 maxNumberOfTries))
        else none

/-- One round of the loop of `take_work_if_needed`. -/
def takeBatchFrom (w : WorkSharing τ) (id i maxNumberOfTries : ℕ) (isLocked : Bool) :
    WorkSharing τ :=
  if i = maxNumberOfTries then w.goto id .outside
  else
    match (w.registry.states id).tasksLists.bind (·[i]?) with
    | none => w.setPanicked
    | some owner =>
      if maxNumberOfTasksTaken < (w.sharedTasks id).length then
        { w with underflowed := true }.goto id .outside
      else
        let limit := maxNumberOfTasksTaken - (w.sharedTasks id).length
        if limit = 0 then w.goto id .outside
        else if isLocked then w.goto id (.taking (i + 1) maxNumberOfTries)
        else
          match takeBatch (w.lists owner) (w.sharedTasks id) limit with
          | none => w.setPanicked
          | some r => (w.setTasks id owner r.1 r.2).goto id (.taking (i + 1) maxNumberOfTries)

/-- `graceful_stop` up to the lock of the first neighbor's list. -/
def gracefulStop (w : WorkSharing τ) (id : ℕ) : WorkSharing τ :=
  match level id with
  | none => w.goto id (.stopping none)
  | some _ =>
    match (w.registry.states id).tasksLists with
    | none => w.setPanicked
    | some [] => w.goto id (.stopping none)
    | some (firstNeighbor :: _) =>
      (w.setTasks id id (w.sharedTasks id) []).goto id
        (.stopping (some (firstNeighbor, w.lists id)))

/-- The end of `graceful_stop`. -/
def leave (w : WorkSharing τ) (id : ℕ) : Option (WorkSharing τ) :=
  match w.place id with
  | .stopping none => some (w.goto id .stopped)
  | .stopping (some (firstNeighbor, list)) =>
    some ((w.setTasks id firstNeighbor []
      (w.lists firstNeighbor ++ w.sharedTasks id ++ list)).goto id .stopped)
  | _ => none

/-- Which executors have a shared task list. -/
def hasList (id : ℕ) : Bool := (level id).isSome

/-- One step of a system with `n` executors; `level` is `work_sharing_level` of each of them, and
`none` if its work sharing is disabled. -/
def step (n : ℕ) (w : WorkSharing τ) : Action τ → Option (WorkSharing τ)
  | .registry (.register id) =>
    if id < n then (w.registry.step (hasList level) (.register id)).map w.setRegistry else none
  | .registry (.checkVersion id) =>
    if (w.place id).isOutside then
      (w.registry.step (hasList level) (.checkVersion id)).map w.setRegistry
    else none
  | .registry action => (w.registry.step (hasList level) action).map w.setRegistry
  | .spawn id task isLocked =>
    if id < n ∧ (w.isRunning id ∨ w.registry.phase id = .unregistered) then
      match spawnSharedTask (level id) (w.sharedTasks id) (w.lists id) task isLocked with
      | none => some w.setPanicked
      | some r => some (w.setTasks id id r.1 r.2)
    else none
  | .exec id =>
    if w.isRunning id ∧ w.sharedTasks id ≠ [] then
      some (w.setTasks id id (w.sharedTasks id).dropLast (w.lists id))
    else none
  | .takeWork id isLocked maxNumberOfTries =>
    if w.isRunning id then w.takeWorkIfNeeded level id isLocked maxNumberOfTries else none
  | .takeBatch id isLocked =>
    match w.place id with
    | .taking i maxNumberOfTries => some (w.takeBatchFrom id i maxNumberOfTries isLocked)
    | _ => none
  | .gracefulStop id =>
    if (w.place id).isOutside ∧ w.registry.phase id = .running ∧
        (w.registry.states id).isStopped then some (w.gracefulStop level id)
    else none
  | .leave id => w.leave id

end WorkSharing

end Orengine.Runtime
