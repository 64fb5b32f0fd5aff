import Orengine.Sync.Scopes.Safety.Local

/-!
# The end of a local scope

The last task of a scope executes the owner nested inside its `done`, so that the owner gets past
`wait()` while the loop over the vector of the wait group is still on the stack.  The `yield_now`
behind `wait()` makes the end of the scope safe: the owner goes to `local_tasks`, and the executor
takes it from there only with no poll in progress (`Yielded`).  Nobody else executes the owner in
the meantime: the vector holds no other task (`OnlyOwner`), and for the runs in such memories the
ownership law holds (`custody`).
-/

namespace Orengine.Sync.LocalScope

open Lib Orengine.Runtime

variable {τ ω : Type*} [DecidableEq τ] [DecidableEq ω]

/-! ### The vector of the wait group -/

/-- Only the owner is registered at the wait group. -/
def OnlyOwner (m : LocalScope τ ω) : Prop := ∀ u ∈ m.wg.slots, u = .owner

instance (m : LocalScope τ ω) : Decidable (OnlyOwner m) :=
  inferInstanceAs (Decidable (∀ u ∈ m.wg.slots, u = .owner))

variable {m m' : LocalScope τ ω} {who : Who τ ω} {k : Place} {op : Op τ}
  {o : Outcome (Who τ ω) Place} {e : Executor (Who τ ω) (World (Who τ ω) (LocalScope τ ω)) Place}

theorem OnlyOwner.code (h : OnlyOwner m) (hcode : m.code who k op = some (m', o)) :
    OnlyOwner m' := by
  cases effect_of_code hcode with
  | park _ _ =>
    intro u hu
    simp only [LocalWaitGroup.push, List.mem_append, List.mem_cons] at hu
    rcases hu with hu | hu | hu
    · exact h u (List.mem_of_mem_take hu)
    · exact hu
    · exact h u (List.mem_of_mem_drop hu)
  | @finish t _ =>
    have hslots : m.wg.done.1.slots = m.wg.slots := by
      unfold LocalWaitGroup.done
      split_ifs <;> rfl
    intro u hu
    exact h u (hslots ▸ hu)
  | exec | spawn => exact fun u hu => h u (LocalWaitGroup.mem_slots_of_add hu)
  | _ => exact h

/-! ### The owner is in one place -/

/-- The places of a task in the memory: the owner may be registered, and a task of the scope that
is not started yet exists nowhere else. -/
def holds (m : LocalScope τ ω) : Who τ ω → ℕ
  | .owner => m.wg.len
  | .member t => if m.task t = .unstarted then 1 else 0
  | .other _ => 0

/-- The places of the owner in a loop of `done`. -/
def held : Place → Who τ ω → ℕ
  | .drain i stop, .owner => stop - i
  | _, _ => 0

theorem holds_start (m : LocalScope τ ω) {t : τ} (ht : m.task t = .unstarted) (u : Who τ ω) :
    holds (m.start t) u + oneAt (.member t) u = holds m u := by
  cases u with
  | owner => exact m.wg.len_add 1
  | member v =>
    by_cases hv : v = t
    · simp [holds, start, oneAt, hv, ht]
    · simp [holds, start, oneAt, hv, Ne.symm hv]
  | other v => rfl

omit [DecidableEq ω] in
/-- A task that finishes makes no more of anybody; its loop has the registered owner. -/
theorem holds_finish (m : LocalScope τ ω) (t : τ) (u : Who τ ω) :
    holds (m.finish t).1 u + held (.drain 0 m.wg.done.2) u ≤ holds m u := by
  cases u with
  | owner =>
    simp only [holds, finish, held, LocalWaitGroup.done]
    split_ifs
    · exact Nat.le_of_eq (Nat.zero_add _)
    · exact Nat.le_refl _
  | member v =>
    by_cases hv : v = t
    · simp [holds, finish, held, hv]
    · simp [holds, finish, held, hv]
  | other v => exact Nat.le_refl _

theorem code_le (honly : OnlyOwner m) (hcode : m.code who k op = some (m', o)) (u : Who τ ω) :
    holds m' u + o.places held who u ≤ holds m u + held k u + oneAt who u := by
  cases effect_of_code hcode with
  | resume _ =>
    simp only [Outcome.places, held]
    omega
  | park _ _ =>
    have hpush : holds { m with wg := m.wg.push .owner, owner := .waiting } u =
        holds m u + oneAt .owner u := by
      cases u <;> rfl
    simp only [Outcome.places, hpush]
    omega
  | yield _ _ =>
    have hsame : holds { m with owner := .yielding } u = holds m u := by
      cases u <;> rfl
    simp only [Outcome.places, hsame]
    omega
  | leave _ =>
    have hsame : holds { m with owner := .returned } u = holds m u := by
      cases u <;> rfl
    simp only [Outcome.places, hsame, held]
    omega
  | exec _ ht | spawn _ ht =>
    have hstart := holds_start m ht u
    simp only [Outcome.places, held]
    omega
  | @finish t _ =>
    have hfinish := holds_finish m t u
    simp only [Outcome.places]
    omega
  | @round _ i stop v hi hv =>
    -- The slot holds the owner.
    obtain rfl : v = .owner := honly v (List.mem_of_getElem? hv)
    cases u with
    | owner =>
      simp only [Outcome.places, held, oneAt_self]
      omega
    | member t =>
      have hother : oneAt (Who.owner : Who τ ω) (.member t) = 0 := rfl
      simp only [Outcome.places, held, hother]
      omega
    | other v =>
      have hother : oneAt (Who.owner : Who τ ω) (.other v) = 0 := rfl
      simp only [Outcome.places, held, hother]
      omega
  | finished _ =>
    simp only [Outcome.places]
    omega

/-- The places of the tasks of the executor. -/
def custody : Custody (primitive.restrict (OnlyOwner (τ := τ) (ω := ω))) where
  holds := holds
  held := held
  entry_held u := by cases u <;> rfl
  code_le hcode u := by
    simp only [Primitive.restrict] at hcode
    split_ifs at hcode with honly
    exact code_le honly hcode u

theorem total_le_one (h : Reachable (Executor.step primitive.program) init e) (u : Who τ ω) :
    (custody (τ := τ) (ω := ω)).ownership.total e u ≤ 1 := by
  have hrestrict : Reachable (Executor.step (primitive.restrict OnlyOwner).program) init e :=
    Primitive.reachable_restrict (fun u hu => by cases hu) OnlyOwner.code h
  refine (custody (τ := τ) (ω := ω)).ownership.total_le_one (fun u => ?_) hrestrict u
  cases u with
  | owner | member | other => exact Nat.le_refl _

/-! ### The owner after its `yield_now` -/

/-- The owner that has yielded is in `local_tasks`, or it is polled with nobody else. -/
def Yielded (e : Executor (Who τ ω) (World (Who τ ω) (LocalScope τ ω)) Place) : Prop :=
  e.state.memory.owner = .yielding → .owner ∈ e.localTasks ∨ e.stack = [(.owner, .poll)]

/-- The executor takes the owner from the queue with no poll in progress. -/
theorem Yielded.execTask (hs : e.stack = []) {t : Who τ ω}
    (h : .owner ∈ e.localTasks ∨ t = .owner) :
    .owner ∈ (e.execTask primitive.program t).localTasks ∨
      (e.execTask primitive.program t).stack = [(.owner, .poll)] := by
  rcases h with h | rfl
  · exact Or.inl (Executor.mem_localTasks_execTask h t)
  · unfold Executor.execTask
    split_ifs
    · right
      show (Who.owner, Place.poll) :: e.stack = _
      rw [hs]
    · exact Or.inl (List.mem_append_right _ (List.mem_singleton.mpr rfl))

/-- An operation after which the owner has yielded is its `yield_now`, or one of another poll than
that of the owner. -/
theorem yielding_of_code (hcode : m.code who k op = some (m', o)) (h : m'.owner = .yielding) :
    (m.owner = .yielding ∧ (who, k) ≠ (.owner, .poll)) ∨ (who = .owner ∧ o = .yieldNow) := by
  cases effect_of_code hcode with
  | resume howner =>
    refine Or.inl ⟨h, fun heq => ?_⟩
    rcases howner (Prod.mk.inj heq).1 with hbody | hreturned
    · cases hbody.symm.trans h
    · cases hreturned.symm.trans h
  | park | leave => cases h
  | yield _ _ => exact Or.inr ⟨rfl, rfl⟩
  | exec | spawn | finish | round | finished => exact Or.inl ⟨h, by simp⟩

theorem yielded_of_reachable (h : Reachable (Executor.step primitive.program) init e) :
    Yielded e := by
  refine Reach.invariant (I := Yielded) (fun hyielding => by cases hyielding) ?_ h
  intro e m e' _ hyielded _ hstep hyielding
  rcases Executor.step_cases hstep with ⟨c, t, k, rest, w, o, rfl, hs, hcode, rfl⟩ |
    ⟨hs, t, tasks, htasks, rfl⟩ | ⟨hs, t, w, hback, rfl | rfl⟩ | ⟨hs, rfl⟩
  · rw [Executor.afterCode_state] at hyielding
    -- The owner had yielded before, unless it yields now; its own poll would end the scope.
    have hbefore : (e.state.memory.owner = .yielding ∧ (t, k) ≠ (.owner, .poll)) ∨
        (t = .owner ∧ o = .yieldNow) := by
      rcases Primitive.taskCode_cases hcode with ⟨op, m', rfl, hop, rfl⟩ | ⟨-, hmemory, huser, -⟩
      · exact yielding_of_code hop hyielding
      · rw [hmemory] at hyielding
        refine Or.inl ⟨hyielding, ?_⟩
        rintro heq
        rw [(Prod.mk.inj heq).2] at huser
        cases huser
    rcases hbefore with ⟨hbefore, hne⟩ | ⟨rfl, rfl⟩
    · rcases hyielded hbefore with hqueued | halone
      · exact Or.inl (Executor.mem_localTasks_afterCode hqueued t rest w o)
      · rw [hs] at halone
        exact absurd (List.cons.inj halone).1 hne
    · exact Or.inl (List.mem_cons_self ..)
  · rw [Executor.execTask_state] at hyielding
    refine Yielded.execTask (e := { e with localTasks := tasks }) hs ?_
    rcases hyielded hyielding with hqueued | halone
    · rw [htasks] at hqueued
      rcases List.mem_append.mp hqueued with hqueued | hlast
      · exact Or.inl hqueued
      · exact Or.inr (List.mem_singleton.mp hlast).symm
    · cases hs.symm.trans halone
  · obtain ⟨-, hw⟩ := Primitive.comeBack_cases hback
    rw [Executor.execTask_state, hw] at hyielding
    refine Yielded.execTask (e := { e with state := w }) hs (Or.inl ?_)
    exact (hyielded hyielding).resolve_right fun halone => by cases hs.symm.trans halone
  · obtain ⟨-, rfl⟩ := Primitive.comeBack_cases hback
    left
    refine List.mem_append_left _ ?_
    exact (hyielded hyielding).resolve_right fun halone => by cases hs.symm.trans halone
  · exact hyielded hyielding

/-! ### No `done` is active -/

/-- Whether this place is in a call of `done`. -/
def Place.inDone : Place → Bool
  | .drain _ _ => true
  | _ => false

/-- An operation that ends the scope is the poll of the owner after its `yield_now`. -/
theorem returned_of_code (hcode : m.code who k op = some (m', o))
    (hyielding : m.owner = .yielding) (hreturned : m'.owner = .returned) :
    who = .owner ∧ k = .poll ∧ o = .goto .user := by
  cases effect_of_code hcode with
  | leave _ => exact ⟨rfl, rfl, rfl⟩
  | park | yield => cases hreturned
  | _ => cases hyielding.symm.trans hreturned

/-- **No `done` outlives the wait group of a local scope.** In every run of an executor, when the
owner resumes from the `yield_now` at the end of `local_scope`, its poll is the only one in
progress, so that no call of `done` is active on the stack. -/
theorem no_done_at_end {e e' : Executor (Who τ ω) (World (Who τ ω) (LocalScope τ ω)) Place}
    {m : Move (Who τ ω) (TaskOp (Who τ ω) (Op τ))}
    (h : Reachable (Executor.step primitive.program) init e)
    (hstep : e.step primitive.program m = some e')
    (hyielding : e.state.memory.owner = .yielding)
    (hreturned : e'.state.memory.owner = .returned) :
    e.stack = [(.owner, .poll)] ∧ ∀ f ∈ e'.stack, f.2.inDone = false := by
  rcases Primitive.move_cases rfl hstep with ⟨op, t, k, rest, m', o, rfl, hs, hcode, rfl⟩ | hcarries
  · rw [Executor.afterCode_state] at hreturned
    obtain ⟨rfl, rfl, rfl⟩ := returned_of_code hcode hyielding hreturned
    have hrunning : (Who.owner, Place.poll) ∈ e.stack := Executor.mem_top hs
    have halone : e.stack = [(.owner, .poll)] :=
      (yielded_of_reachable h hyielding).resolve_left
        (custody.ownership.not_mem_localTasks (total_le_one h) hrunning)
    refine ⟨halone, fun f hf => ?_⟩
    rw [hs] at halone
    rw [(List.cons.inj halone).2] at hf
    rw [List.mem_singleton.mp hf]
    rfl
  · rw [hcarries.memory, hyielding] at hreturned
    cases hreturned

/-- The owner of `localJoin` is polled inside the `done` of task 0 and yields there, and it resumes
alone. -/
theorem no_done_at_end_localJoin :
    ∃ e e' : Executor (Who (Fin 1) Empty) (World (Who (Fin 1) Empty) (LocalScope (Fin 1) Empty))
        Place,
      Reachable (Executor.step primitive.program) init e ∧
      e.step primitive.program (.code (.op .go)) = some e' ∧
      e.state.memory.owner = .yielding ∧ e'.state.memory.owner = .returned ∧
      e.stack = [(.owner, .poll)] ∧ ∀ f ∈ e'.stack, f.2.inDone = false := by
  have h : Reachable (Executor.step primitive.program) (init (τ := Fin 1) (ω := Empty)) _ :=
    reachable_of_exec ((localJoin 0).take 13) rfl
  exact ⟨_, _, h, rfl, rfl, rfl, no_done_at_end (m := .code (.op .go)) h rfl rfl rfl⟩

end Orengine.Sync.LocalScope
