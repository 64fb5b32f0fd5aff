import Orengine.Runtime.Executor.BlockOn
import Orengine.Runtime.Executor.Safety.GracefulStop

/-!
# Who may stop an executor that blocks on a future

If somebody else than the future stops the executor, `run_and_block_on_shared` returns while its
wrapper still has a pointer to a variable that is gone, and `graceful_stop` even leaves the wrapper
to another executor, which polls it (`stray_write`).

Before the result is written, an executor that nobody stops is alive (`StaysAlive`), so that it does
not leave its loop (`writes_before_return`).
-/

namespace Orengine.Runtime

open Orengine.Lib

/-! ### An executor that nobody stops -/

namespace Executors

variable {hasList : ℕ → Bool} {w w' : Executors} {a : Action} {id : ℕ}

/-- An executor is alive from its registration on, and the operation in progress does not change
that. -/
structure StaysAlive (w : Executors) (id : ℕ) : Prop where
  global : id ∈ w.order → id ∈ w.global.alive.keys
  pending : ∀ op, w.pending = some op → id ∈ w.order ∨ op.registers = some id →
    id ∈ op.result.alive.keys

/-- Whether a step begins to stop the executor. -/
def Action.stops (id : ℕ) : Action → Bool
  | .stopExecutor i => i == id
  | .stopAllExecutors => true
  | _ => false

theorem StaysAlive.effect (h : StaysAlive w id) (heffect : Effect hasList w a w')
    (hstops : a.stops id = true → id ∉ w.order) : StaysAlive w' id := by
  cases heffect with
  | @register i s phase free state =>
    refine ⟨h.global, ?_⟩
    rintro op ⟨⟩ (horder | hregisters)
    · exact GlobalState.mem_keys_register.mpr (.inr (h.global horder))
    · exact GlobalState.mem_keys_register.mpr (.inl (Option.some.inj hregisters).symm)
  | stopExecutor i free =>
    refine ⟨h.global, ?_⟩
    rintro op ⟨⟩ (horder | hregisters)
    · refine GlobalState.mem_keys_stopExecutor.mpr ⟨?_, h.global horder⟩
      rintro rfl
      exact hstops (beq_self_eq_true id) horder
    · cases hregisters
  | stopAllExecutors free =>
    refine ⟨h.global, ?_⟩
    rintro op ⟨⟩ (horder | hregisters)
    · exact absurd horder (hstops rfl)
    · cases hregisters
  | @setVersion g i rest registers op =>
    refine ⟨h.global, ?_⟩
    rintro op' ⟨⟩ hmem
    exact h.pending ⟨g, i :: rest, registers⟩ op hmem
  | @unlock g registers op =>
    refine ⟨fun hmem => h.pending _ op ?_, by rintro op' ⟨⟩⟩
    rcases List.mem_append.mp hmem with horder | hregisters
    · exact .inl horder
    · exact .inr (Option.mem_toList.mp hregisters)
  | checkVersion | update | registerFails | updateFails | processed => exact ⟨h.global, h.pending⟩

end Executors

namespace WorkSharing

variable {τ : Type*} [DecidableEq τ] {level : ℕ → Option ℕ} {n : ℕ} {s t : WorkSharing τ}
  {a : Action τ}

def Place.hasLeft : Place τ → Bool
  | .stopping _ | .stopped => true
  | _ => false

omit [DecidableEq τ] in
theorem hasLeft_goto {i id : ℕ} {p : Place τ} (h : (s.place i).hasLeft = false)
    (hp : i = id → p.hasLeft = false) : ((s.goto id p).place i).hasLeft = false := by
  by_cases hi : i = id
  · subst hi
    simpa [goto] using hp rfl
  · simpa [goto, hi] using h

theorem hasLeft_effect {i : ℕ} (hs : Sound level n s) (heffect : Effect level n s a t)
    (halive : i ∈ s.registry.order → i ∈ s.registry.global.alive.keys)
    (h : (s.place i).hasLeft = false) : (t.place i).hasLeft = false := by
  -- An executor that leaves its loop is registered and not alive.
  have hparting {id : ℕ} {neighbor : Option (ℕ × List τ)} (hphase : s.registry.phase id = .running)
      (hdead : Parting level s.registry id neighbor) : i ≠ id := by
    rintro rfl
    exact hdead.dead (halive ((hs.registry.mem_order i).mpr (.inl hphase)))
  cases heffect with
  | registry | spawn | exec | idle | pop => exact h
  | enter | skip => exact hasLeft_goto h fun _ => rfl
  | exit b => exact hasLeft_goto (s := { s with underflowed := b }) h fun _ => rfl
  | @batch id isLocked i m owner r =>
    exact hasLeft_goto (s := s.setTasks id owner r.1 r.2) h fun _ => rfl
  | stopAlone phase outside parting =>
    exact hasLeft_goto h fun hi => absurd hi (hparting phase parting)
  | @stop id _ phase outside parting =>
    exact hasLeft_goto (s := s.setTasks id id (s.sharedTasks id) []) h
      fun hi => absurd hi (hparting phase parting)
  | @leaveAlone id place =>
    refine hasLeft_goto h ?_
    rintro rfl
    rw [place] at h
    cases h
  | @leave id neighbor list place =>
    refine hasLeft_goto (s := s.setTasks id neighbor [] _) h ?_
    rintro rfl
    rw [place] at h
    cases h

end WorkSharing

namespace BlockOn

variable {τ R : Type*} [DecidableEq τ] {level : ℕ → Option ℕ} {n creator : ℕ} {task : τ}
  {b c : BlockOn τ R} {a : Action τ R}

/-! ### What a step does -/

inductive Effect (level : ℕ → Option ℕ) (n creator : ℕ) (task : τ) (b : BlockOn τ R) :
    Action τ R → BlockOn τ R → Prop
  | sharing {a : WorkSharing.Action τ} {sharing : WorkSharing τ}
    (allows : b.allows creator task a = true) (step : b.sharing.step level n a = some sharing) :
    Effect level n creator task b (.sharing a) { b with sharing, wrapper := b.moved task a }
  | resume {id : ℕ} (suspended : b.wrapper = .suspended) :
    Effect level n creator task b (.resume id) { b with wrapper := .polled id }
  | pending {id : ℕ} (polled : b.wrapper = .polled id) :
    Effect level n creator task b .pending { b with wrapper := .suspended }
  | ready {id : ℕ} {result : R} (polled : b.wrapper = .polled id) :
    Effect level n creator task b (.ready result)
      { b.writeResult result with wrapper := .written id }
  | stopExecutor {id : ℕ} {sharing : WorkSharing τ} (written : b.wrapper = .written id)
    (step : b.sharing.step level n (.registry (.stopExecutor creator)) = some sharing) :
    Effect level n creator task b .stopExecutor { b with sharing, wrapper := .stopping id }
  | ret (place : b.sharing.place creator = .stopped) (returned : b.returned = none) :
    Effect level n creator task b .ret
      { b with returned := some (b.res.elim (.error stoppedMessage) .ok) }

theorem effect_of_step (h : b.step level n creator task a = some c) :
    Effect level n creator task b a c := by
  cases a with
  | sharing a =>
    obtain ⟨hallows, h⟩ := Option.ite_none_right_eq_some.mp h
    obtain ⟨sharing, hstep, rfl⟩ := Option.map_eq_some_iff.mp h
    exact .sharing hallows hstep
  | resume id =>
    obtain ⟨hif, rfl⟩ := of_guard h
    exact .resume hif.1
  | pending =>
    simp only [step] at h
    split at h
    case h_1 hpolled =>
      cases h
      exact .pending hpolled
    case h_2 => cases h
  | ready result =>
    simp only [step] at h
    split at h
    case h_1 hpolled =>
      cases h
      exact .ready hpolled
    case h_2 => cases h
  | stopExecutor =>
    simp only [step] at h
    split at h
    case h_1 hwritten =>
      obtain ⟨sharing, hstep, rfl⟩ := Option.map_eq_some_iff.mp h
      exact .stopExecutor hwritten hstep
    case h_2 => cases h
  | ret =>
    simp only [step] at h
    split at h
    case h_1 hplace hreturned =>
      cases h
      exact .ret hplace hreturned
    case h_2 => cases h

/-! ### The task of the wrapper -/

/-- How often the task of the wrapper is in the run queues and lists. -/
def Wrapper.queued : Wrapper → ℕ
  | .scheduled => 1
  | _ => 0

/-- The task of the wrapper is in one place at most, and a wrapper that has written its result is
not polled again. -/
theorem moved_spec {x : WorkSharing.Action τ} {t : WorkSharing τ}
    (hallows : b.allows creator task x = true)
    (htotal : WorkSharing.total n t task + (WorkSharing.executed b.sharing x).count task =
      WorkSharing.total n b.sharing task + (WorkSharing.spawned x).count task)
    (h : WorkSharing.total n b.sharing task = b.wrapper.queued) :
    WorkSharing.total n t task = (b.moved task x).queued ∧
      (b.moved task x).hasWritten = b.wrapper.hasWritten := by
  cases x with
  | spawn id x isLocked =>
    by_cases hx : x = task
    · have hwrapper : b.wrapper = .suspended ∨ b.wrapper = .notSpawned ∧ id = creator := by
        simpa [allows, loopOf, hx] using hallows
      have hzero : b.wrapper.queued = 0 ∧ b.wrapper.hasWritten = false := by
        rcases hwrapper with heq | ⟨heq, -⟩ <;> rw [heq] <;> exact ⟨rfl, rfl⟩
      rw [h, hzero.1] at htotal
      rw [hzero.2, moved, if_pos hx]
      refine ⟨?_, rfl⟩
      simpa [hx, Wrapper.queued, WorkSharing.executed, WorkSharing.spawned] using htotal
    · simpa [moved, hx, h, WorkSharing.executed, WorkSharing.spawned] using htotal
  | exec id =>
    by_cases hlast : (b.sharing.sharedTasks id).getLast? = some task
    · -- The task was in a run queue, so that the wrapper was scheduled.
      simp only [WorkSharing.executed, WorkSharing.spawned, hlast, h, Option.toList_some,
        List.count_singleton_self, List.count_nil] at htotal
      cases hwrapper : b.wrapper with
      | scheduled =>
        rw [hwrapper] at htotal
        simpa [moved, hlast, Wrapper.queued, Wrapper.hasWritten] using htotal
      | notSpawned | suspended | polled | written | stopping | done =>
        rw [hwrapper] at htotal
        cases htotal
    · have hcount : (b.sharing.sharedTasks id).getLast?.toList.count task = 0 := by
        rw [List.count_eq_zero, Option.mem_toList]
        exact hlast
      simpa [moved, hlast, h, hcount, WorkSharing.executed, WorkSharing.spawned] using htotal
  | registry x =>
    have hsame : WorkSharing.total n t task = b.wrapper.queued := by
      simpa [h, WorkSharing.executed, WorkSharing.spawned] using htotal
    cases x with
    | unlock =>
      rw [hsame, moved]
      cases b.wrapper <;> exact ⟨rfl, rfl⟩
    | register | stopExecutor | stopAllExecutors | setVersion | checkVersion | update =>
      exact ⟨hsame, rfl⟩
  | takeWork | takeBatch | gracefulStop | leave =>
    refine ⟨?_, rfl⟩
    simpa [moved, h, WorkSharing.executed, WorkSharing.spawned] using htotal

/-! ### The invariant -/

/-- Whether a step begins to stop the executor, by somebody else than the wrapper. -/
def Action.stops (id : ℕ) : Action τ R → Bool
  | .sharing (.registry a) => a.stops id
  | _ => false

/-- Nobody stops the executor of the call before the result is written; what happens before the
executor is registered does not matter. -/
def NotStopped (creator : ℕ) (b : BlockOn τ R) (a : Action τ R) : Prop :=
  a.stops creator = true →
    b.wrapper.hasWritten = true ∨ b.sharing.registry.phase creator = .unregistered

instance (creator : ℕ) (b : BlockOn τ R) (a : Action τ R) : Decidable (NotStopped creator b a) :=
  inferInstanceAs (Decidable (_ → _ ∨ _))

structure Blocked (level : ℕ → Option ℕ) (n creator : ℕ) (task : τ) (b : BlockOn τ R) : Prop where
  sharing : b.sharing.Sound level n
  total : WorkSharing.total n b.sharing task = b.wrapper.queued
  alive : b.wrapper.hasWritten = false → b.sharing.registry.StaysAlive creator
  place : b.wrapper.hasWritten = false → (b.sharing.place creator).hasLeft = false
  waiting : b.wrapper.hasWritten = false → b.returned = none
  written : b.wrapper.hasWritten = true → b.res.isSome = true
  returned : ∀ result, b.returned = some result → ∃ value, result = .ok value
  stray : b.strayWrites = []

theorem blocked_init : Blocked level n creator task (init : BlockOn τ R) where
  sharing := WorkSharing.sound_init
  total := by simp [init, WorkSharing.total, WorkSharing.init, WorkSharing.Place.tasks,
    Wrapper.queued]
  alive := fun _ => ⟨by rintro ⟨⟩, by rintro op ⟨⟩⟩
  place := fun _ => rfl
  waiting := fun _ => rfl
  written := by rintro ⟨⟩
  returned := by rintro result ⟨⟩
  stray := rfl

theorem Blocked.setWrapper {p : Wrapper} (h : Blocked level n creator task b)
    (hqueued : b.wrapper.queued = p.queued) (hp : b.wrapper.hasWritten = p.hasWritten) :
    Blocked level n creator task { b with wrapper := p } :=
  ⟨h.sharing, h.total.trans hqueued, fun hw => h.alive (hp.trans hw),
    fun hw => h.place (hp.trans hw), fun hw => h.waiting (hp.trans hw),
    fun hw => h.written (hp.trans hw), h.returned, h.stray⟩

theorem Blocked.sharing_step {x : WorkSharing.Action τ} {t : WorkSharing τ} {p : Wrapper}
    (h : Blocked level n creator task b) (hstep : b.sharing.step level n x = some t)
    (htotal : WorkSharing.total n t task = p.queued)
    (hp : p.hasWritten = b.wrapper.hasWritten)
    (hstops : ∀ y, x = .registry y → y.stops creator = true → b.wrapper.hasWritten = true ∨
      b.sharing.registry.phase creator = .unregistered) :
    Blocked level n creator task { b with sharing := t, wrapper := p } := by
  have heffect := WorkSharing.effect_of_step h.sharing hstep
  refine ⟨h.sharing.effect heffect, htotal, fun hw => ?_, fun hw => ?_, fun hw => ?_, fun hw => ?_,
    h.returned, h.stray⟩
  · have hwritten := hp.symm.trans hw
    have halive := h.alive hwritten
    cases heffect with
    | @registry y r step register checkVersion =>
      refine halive.effect (Executors.effect_of_step step) fun hy => ?_
      rcases hstops y rfl hy with htrue | hun
      · rw [hwritten] at htrue
        cases htrue
      · exact h.sharing.registry.not_mem_order hun
    | spawn | exec | idle | pop | enter | exit | skip | batch | stopAlone | stop | leaveAlone
    | leave => exact halive
  · have hwritten := hp.symm.trans hw
    exact WorkSharing.hasLeft_effect h.sharing heffect (h.alive hwritten).global (h.place hwritten)
  · exact h.waiting (hp.symm.trans hw)
  · exact h.written (hp.symm.trans hw)

theorem Blocked.effect (h : Blocked level n creator task b) (hC : NotStopped creator b a)
    (heffect : Effect level n creator task b a c) : Blocked level n creator task c := by
  cases heffect with
  | @sharing x t allows step =>
    have htotal := WorkSharing.total_of_effect h.sharing
      (WorkSharing.effect_of_step h.sharing step) task
    obtain ⟨hqueued, hwritten⟩ := moved_spec allows htotal h.total
    refine h.sharing_step step hqueued hwritten ?_
    rintro y rfl
    exact hC
  | @resume id suspended =>
    exact h.setWrapper (by rw [suspended]; rfl) (by rw [suspended]; rfl)
  | @pending id polled =>
    exact h.setWrapper (by rw [polled]; rfl) (by rw [polled]; rfl)
  | @ready id result polled =>
    have hnone : b.returned = none := h.waiting (by rw [polled]; rfl)
    have hwrite : b.writeResult result = { b with res := some result } := by
      simp [writeResult, hnone]
    have htotal := h.total
    rw [polled] at htotal
    rw [hwrite]
    exact ⟨h.sharing, htotal, by rintro ⟨⟩, by rintro ⟨⟩, by rintro ⟨⟩, fun _ => rfl, h.returned,
      h.stray⟩
  | @stopExecutor id t written step =>
    have htrue : b.wrapper.hasWritten = true := by rw [written]; rfl
    have htotal := WorkSharing.total_of_effect h.sharing
      (WorkSharing.effect_of_step h.sharing step) task
    refine h.sharing_step step ?_ htrue.symm fun _ _ _ => .inl htrue
    rw [h.total, written] at htotal
    exact htotal
  | ret place returned =>
    have htrue : b.wrapper.hasWritten = true := by
      by_contra hfalse
      have hplace := h.place (Bool.not_eq_true _ ▸ hfalse)
      rw [place] at hplace
      cases hplace
    obtain ⟨value, hvalue⟩ := Option.isSome_iff_exists.mp (h.written htrue)
    refine ⟨h.sharing, h.total, h.alive, h.place, ?_, h.written, ?_, h.stray⟩
    · intro hfalse
      rw [htrue] at hfalse
      cases hfalse
    · rintro result ⟨⟩
      exact ⟨value, by rw [hvalue]; rfl⟩

theorem blocked (h : Reach (step level n creator task) (NotStopped creator) init b) :
    Blocked level n creator task b :=
  h.invariant blocked_init fun _ _ _ _ hb hC hstep => hb.effect hC (effect_of_step hstep)

/-- **The result is written before the call returns.**  For every number of executors, all levels
and every interleaving in which nobody stops the executor of the call before its future has written
the result, the future never writes after `run_and_block_on_shared` has returned, and what
`run_and_block_on_shared` returns is a result. -/
theorem writes_before_return (level : ℕ → Option ℕ) (n creator : ℕ) (task : τ) {b : BlockOn τ R}
    (h : Reach (step level n creator task) (NotStopped creator) init b) :
    b.strayWrites = [] ∧ ∀ result, b.returned = some result → ∃ value, result = .ok value :=
  ⟨(blocked h).stray, (blocked h).returned⟩

/-- The call spawns its future on `a`, then `a` and `b` are registered and update their images. -/
def startCall (a b : ℕ) (x : τ) : List (Action τ R) :=
  .sharing (.spawn a x false) :: (WorkSharing.startBoth a b).map .sharing

/-- `a` flushes the task of the wrapper, and `b` takes and polls it until the future is ready; then
`a` finds out that it was stopped, and the call returns. -/
def readyElsewhere (a b : ℕ) (x y z : τ) (result : R) : List (Action τ R) :=
  startCall a b x ++
    [.sharing (.spawn a y false), .sharing (.spawn a z false), .sharing (.takeWork b false 1),
      .sharing (.takeBatch b false), .sharing (.takeBatch b false), .sharing (.exec b),
      .sharing (.exec b), .pending, .resume b, .ready result, .stopExecutor] ++
    (Executors.publish 2 ++ Executors.runCheck a).map (.sharing ∘ .registry) ++
    [.sharing (.gracefulStop a), .sharing (.leave a), .ret]

/-- The call returns the result. -/
theorem writes_before_return_readyElsewhere :
    ∃ b : BlockOn (Fin 3) ℕ,
      Reach (step (fun _ => some 1) 2 0 0) (NotStopped 0) init b ∧
      b.returned = some (.ok 7) ∧ b.strayWrites = [] := by
  have hreach : Reach (step (fun _ => some 1) 2 0 0) (NotStopped 0) (init : BlockOn (Fin 3) ℕ) _ :=
    reach_of_execWhere (readyElsewhere 0 1 0 1 2 7) rfl
  exact ⟨_, hreach, rfl, (writes_before_return (fun _ => some 1) 2 0 0 hreach).1⟩

/-- Somebody stops `a` before it has polled the task of the wrapper; `a` leaves the task to `b` and
the call returns, and then `b` takes and polls the task, and the future is ready. -/
def stoppedTooEarly (a b : ℕ) (x : τ) (result : R) : List (Action τ R) :=
  startCall a b x ++ (WorkSharing.stopOne a 2).map .sharing ++
    [.sharing (.leave a), .ret, .sharing (.takeWork b false 1), .sharing (.exec b), .ready result]

/-- The call has returned an error, and then the result is written. -/
theorem stray_write :
    ∃ b : BlockOn (Fin 1) ℕ,
      exec (step (fun _ => some 1) 2 0 0) init (stoppedTooEarly 0 1 0 7) = some b ∧
      b.returned = some (.error stoppedMessage) ∧ b.strayWrites = [7] :=
  ⟨_, rfl, rfl, rfl⟩

end BlockOn

end Orengine.Runtime
