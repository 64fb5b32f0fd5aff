import Orengine.Runtime.GlobalState.Subscribed
import Orengine.Utils.Safety.VecMap

/-!
# The keys of the maps of executors

An executor takes the next id when it is created, and registers itself at any time after that.
`register_local_executor` inserts the id into a map that only ever grows, and
`check_version_and_update_if_needed` inserts the ids of all alive executors into two maps that it
has cleared.  `insert` asserts that a key is not too far behind the end of the vector; a run ends
with the first assertion that fails.
-/

namespace Orengine.Runtime

open Orengine.Utils Orengine.Lib

/-- The insertion of values for these keys, one after the other; `none` if an assertion fails. -/
def insertAll : VecMap Unit → List ℕ → Option (VecMap Unit) :=
  exec fun m key => (m.step (.insert key ())).map Prod.fst

/-- All executors and the counter of their ids. -/
structure Registry where
  executors : Executors
  freeExecutorId : ℕ
  /-- `shared_task_lists` of the `Interactor` of every executor. -/
  sharedTaskLists : ℕ → VecMap Unit
  /-- Whether an assertion of `insert` has failed. -/
  failed : Bool
  /-- History: the ids that were to be registered, in this order. -/
  registered : List ℕ
  /-- History: for every image that was made, the ids that were to be inserted, in this order. -/
  images : List (List ℕ)

namespace Registry

def init : Registry := ⟨.init, 0, fun _ => .new, false, [], []⟩

inductive Action where
  /-- `Executor::init_on_core_with_config`. -/
  | create
  /-- A step of the executors. -/
  | executor (a : Executors.Action)

/-- The ids that a step registers. -/
def registers : Executors.Action → List ℕ
  | .register id => [id]
  | _ => []

/-- The images that a step makes.  An executor makes its image anew only if it finds itself among
the alive ones. -/
def newImages (s : Registry) : Executors.Action → List (List ℕ)
  | .update id =>
    let ids := s.executors.global.alive.keys
    if id ∈ ids then [ids] else []
  | _ => []

/-- Whether the assertions of a step hold. -/
def asserts (s : Registry) : Executors.Action → Bool
  | .register id => (insertAll s.executors.global.alive [id]).isSome
  | .update id =>
    (s.newImages (.update id)).all fun ids =>
      (insertAll (s.executors.states id).executorsTaskLists.clear ids).isSome &&
        (insertAll (s.sharedTaskLists id).clear ids).isSome
  | _ => true

/-- What a step does with the maps of the `Interactor`s. -/
def interactors (s : Registry) : Executors.Action → ℕ → VecMap Unit
  | .update id =>
    let g := s.executors.global
    if id ∈ g.alive.keys then
      Function.update s.sharedTaskLists id (g.remake (fun _ => ()) (s.sharedTaskLists id))
    else s.sharedTaskLists
  | _ => s.sharedTaskLists

/-- An executor is created before it registers itself. -/
def created (s : Registry) : Executors.Action → Bool
  | .register id => decide (id < s.freeExecutorId)
  | _ => true

/-- One step; `hasList` says which executors have a shared task list. -/
def step (hasList : ℕ → Bool) (s : Registry) : Action → Option Registry
  | .create =>
    if s.failed then none else some { s with freeExecutorId := s.freeExecutorId + 1 }
  | .executor a =>
    if s.failed = false ∧ s.created a then
      (s.executors.step hasList a).map fun executors =>
        let registered := s.registered ++ registers a
        let images := s.images ++ s.newImages a
        if s.asserts a then
          { s with executors, sharedTaskLists := s.interactors a, registered, images }
        else { s with failed := true, registered, images }
    else none

end Registry

end Orengine.Runtime
