import Orengine.Sync.Mutexes.Safety.Local

/-!
# Whom `LocalCondVar::notify_all` resumes

`notify_all` pops tasks from the wait queue until it is empty and executes each of them, nested
inside itself, before it looks at the queue again.  A task that waits again while it runs nested is
found by the same `notify_all` (`resumed_twice`), and so on for as long as it waits again.
`notifyAll_resumes_waiters` is about the other runs.

`NotifyLog` is a history: the tasks that were waiting when the last `notify_all` was called, and
those that it has resumed.
-/

namespace Orengine.Sync.LocalMutex

open Orengine.Runtime Orengine.Lib

variable {τ : Type*} [DecidableEq τ]

/-- The history of the calls of `notify_all`. -/
structure NotifyLog (τ : Type*) where
  /-- The tasks that were waiting when `notify_all` was called last. -/
  waiters : List τ
  /-- The tasks that this `notify_all` has resumed. -/
  resumed : List τ
  /-- The calls that have returned, with the tasks that were waiting and those that were resumed. -/
  completed : List (List τ × List τ)
  deriving DecidableEq

namespace NotifyLog

def init : NotifyLog τ := ⟨[], [], []⟩

/-- What an operation adds to the history. -/
def note (m : LocalMutex τ) (_ : τ) (k : Place) (op : Op) (l : NotifyLog τ) : NotifyLog τ :=
  match k, op with
  | .user, .notifyAll => { l with waiters := m.condQueue, resumed := [] }
  | .notifyAll, .go =>
    match m.condQueue with
    | u :: _ => { l with resumed := l.resumed ++ [u] }
    | [] => { l with completed := l.completed ++ [(l.waiters, l.resumed)] }
  | _, _ => l

end NotifyLog

/-- The mutex and the condition variable with the history. -/
abbrev notified : Primitive τ (LocalMutex τ × NotifyLog τ) Place Op :=
  primitive.record NotifyLog.note

/-- The executor that runs the tasks, with the history. -/
abbrev NotifyState (τ : Type*) := Executor τ (World τ (LocalMutex τ × NotifyLog τ)) Place

/-- While a `notify_all` is in progress no task starts to wait for the condition variable, and none
notifies it. -/
def Undisturbed (e : NotifyState τ) : Move τ (TaskOp τ Op) → Prop
  | .code (.op op) => ∀ f ∈ e.stack.head?, (f.2 = .sleep ∨ op = .notifyOne ∨ op = .notifyAll) →
      ∀ g ∈ e.stack, g.2 ≠ .notifyAll
  | _ => True

instance (e : NotifyState τ) : ∀ m, Decidable (Undisturbed e m)
  | .code (.op op) => inferInstanceAs (Decidable (∀ f ∈ e.stack.head?,
      (f.2 = .sleep ∨ op = .notifyOne ∨ op = .notifyAll) → ∀ g ∈ e.stack, g.2 ≠ .notifyAll))
  | .code (.execTask _) | .code (.spawn _) | .code .yieldNow | .code .leave | .code .exit =>
    isTrue trivial
  | .popBack | .wake _ | .arrive _ | .newRound => isTrue trivial

/-! ### What an operation does with the wait queue -/

/-- What the operation `op` of `t` at `k` does with the queue of the condition variable. -/
inductive QueueEffect (m : LocalMutex τ) (t : τ) :
    Place → Op → LocalMutex τ → Outcome τ Place → Prop
  /-- It is none of the operations of the condition variable. -/
  | keep {k : Place} {op : Op} {m' : LocalMutex τ} {o : Outcome τ Place}
    (hk : k = .notifyAll → op ≠ .go) (hop : op ≠ .notifyAll) (hqueue : m'.condQueue = m.condQueue)
    (hplace : .notifyAll ∉ o.place) : QueueEffect m t k op m' o
  /-- The task starts to wait. -/
  | sleep : QueueEffect m t .sleep .go (m.sleep t).1 .returned
  | notifyOne : QueueEffect m t .user .notifyOne (m.notify .user).1 (m.notify .user).2
  | notifyAll : QueueEffect m t .user .notifyAll m (.goto .notifyAll)
  /-- A round of `notify_all`. -/
  | pop {u : τ} {rest : List τ} (hqueue : m.condQueue = u :: rest) :
    QueueEffect m t .notifyAll .go { m with condQueue := rest } (.execTask u .notifyAll)
  /-- `notify_all` returns. -/
  | finish (hqueue : m.condQueue = []) : QueueEffect m t .notifyAll .go m (.goto .user)

theorem unlock_queue (m : LocalMutex τ) (t : τ) {k : Place} (hk : k ≠ .notifyAll) :
    (m.unlock t k).1.condQueue = m.condQueue ∧ .notifyAll ∉ (m.unlock t k).2.place := by
  cases hqueue : m.waitQueue with
  | nil | cons => simp [unlock, hqueue, Outcome.place, hk]

theorem queueEffect_of_code {m m' : LocalMutex τ} {t : τ} {k : Place} {op : Op}
    {o : Outcome τ Place} (h : m.code t k op = some (m', o)) : QueueEffect m t k op m' o := by
  have of_keep {r : LocalMutex τ × Outcome τ Place} (heq : some r = some (m', o))
      (hk : k = .notifyAll → op ≠ .go) (hop : op ≠ .notifyAll)
      (hr : r.1.condQueue = m.condQueue ∧ .notifyAll ∉ r.2.place) : QueueEffect m t k op m' o := by
    rw [Option.some.inj heq] at hr
    exact .keep hk hop hr.1 hr.2
  unfold code at h
  split at h
  case h_1 => -- poll
    refine of_keep h (by simp) (by simp) ?_
    unfold poll
    split
    case h_3 => split <;> exact ⟨rfl, by simp [Outcome.place]⟩
    all_goals exact ⟨rfl, by simp [Outcome.place]⟩
  case h_2 => -- sleep
    obtain ⟨rfl, rfl⟩ := h
    exact .sleep
  case h_3 => -- notifyAll, go
    cases hqueue : m.condQueue with
    | nil =>
      simp only [notify, hqueue] at h
      obtain ⟨rfl, rfl⟩ := h
      exact .finish hqueue
    | cons u rest =>
      simp only [notify, hqueue] at h
      obtain ⟨rfl, rfl⟩ := h
      exact .pop hqueue
  case h_4 => -- lock
    refine of_keep h (by simp) (by simp) ?_
    unfold lock
    split <;> exact ⟨rfl, by simp [Outcome.place]⟩
  case h_5 => -- tryLock
    refine of_keep h (by simp) (by simp) ?_
    unfold tryLock
    split <;> exact ⟨rfl, by simp [Outcome.place]⟩
  case h_6 => -- unlock
    split at h
    · exact of_keep h (by simp) (by simp) (unlock_queue m t (by simp))
    · cases h
  case h_7 => exact of_keep h (by simp) (by simp) ⟨rfl, by simp [Outcome.place]⟩ -- subscribe
  case h_8 => -- wait
    split at h
    · exact of_keep h (by simp) (by simp) (unlock_queue m t (by simp))
    · cases h
  case h_9 => -- notifyOne
    rw [Option.some.injEq] at h
    have heffect : QueueEffect m t .user .notifyOne (m.notify .user).1 (m.notify .user).2 :=
      .notifyOne
    rwa [h] at heffect
  case h_10 => -- notifyAll
    obtain ⟨rfl, rfl⟩ := h
    exact .notifyAll
  case h_11 => cases h

/-! ### Whole runs -/

/-- The history of an undisturbed run. -/
structure Notifying (m : LocalMutex τ) (l : NotifyLog τ) (e : NotifyState τ) : Prop where
  /-- Only one `notify_all` is in progress. -/
  single : ∀ f ∈ e.stack, ∀ g ∈ e.stack, f.2 = .notifyAll → g.2 = .notifyAll → f.1 = g.1
  /-- It has resumed the front of the queue and has the rest to go. -/
  split : ∀ f ∈ e.stack, f.2 = .notifyAll → l.resumed ++ m.condQueue = l.waiters
  nodup : l.waiters.Nodup
  completed : ∀ x ∈ l.completed, x.2 = x.1 ∧ x.1.Nodup

namespace Notifying

variable {m m' : LocalMutex τ} {l : NotifyLog τ} {e e' : NotifyState τ}

theorem carries (h : Notifying m l e) (hcarries : Primitive.Carries notified e e') :
    Notifying m l e' := by
  have hold (f : τ × Place) (hf : f ∈ e'.stack) (hk : f.2 = .notifyAll) : f ∈ e.stack := by
    rcases hcarries.entered f hf with hf | hentry
    · exact hf
    · cases hk.symm.trans hentry
  exact ⟨fun f hf g hg hfk hgk => h.single f (hold f hf hfk) g (hold g hg hgk) hfk hgk,
    fun f hf hfk => h.split f (hold f hf hfk) hfk, h.nodup, h.completed⟩

/-- An operation keeps the history, if it does not disturb a `notify_all`. -/
theorem effect (h : Notifying m l e) (hnodup : m.condQueue.Nodup) {t : τ} {k : Place} {op : Op}
    {rest : List (τ × Place)} {o : Outcome τ Place} (hs : e.stack = (t, k) :: rest)
    (hne : ∀ f ∈ rest, f.1 ≠ t) (hcont : Executor.Continues notified.program e e' t k rest o)
    (hquiet : (k = .sleep ∨ op = .notifyOne ∨ op = .notifyAll) → ∀ g ∈ e.stack, g.2 ≠ .notifyAll)
    (heffect : QueueEffect m t k op m' o) : Notifying m' (NotifyLog.note m t k op l) e' := by
  have hmem {f : τ × Place} (hf : f ∈ rest) : f ∈ e.stack := Executor.mem_of_rest hs hf
  -- The code does not go on in `notify_all`, so that such a poll is further out.
  have hold (hplace : .notifyAll ∉ o.place) (f : τ × Place) (hf : f ∈ e'.stack)
      (hk : f.2 = .notifyAll) : f ∈ rest := by
    rcases hcont.entered f hf with hf | ⟨k', hk', rfl⟩ | hentry
    · exact hf
    · rw [show k' = .notifyAll from hk] at hk'
      exact absurd hk' hplace
    · cases hk.symm.trans hentry
  -- No `notify_all` is in progress after the step.
  have hnone {l' : NotifyLog τ} (hno : ∀ f ∈ e'.stack, f.2 ≠ .notifyAll)
      (hwaiters : l'.waiters = l.waiters) (hcompleted : ∀ x ∈ l'.completed, x.2 = x.1 ∧ x.1.Nodup) :
      Notifying m' l' e' :=
    ⟨fun f hf _ _ hfk => absurd hfk (hno f hf), fun f hf hfk => absurd hfk (hno f hf),
      hwaiters ▸ h.nodup, hcompleted⟩
  cases heffect with
  | keep hk hop hqueue hplace =>
    have hnote : NotifyLog.note m t k op l = l := by
      unfold NotifyLog.note
      split
      · exact absurd rfl hop
      · exact absurd rfl (hk rfl)
      · rfl
    rw [hnote]
    refine ⟨?_, ?_, h.nodup, h.completed⟩
    · intro f hf g hg hfk hgk
      exact h.single f (hmem (hold hplace f hf hfk)) g (hmem (hold hplace g hg hgk)) hfk hgk
    · intro f hf hfk
      rw [hqueue]
      exact h.split f (hmem (hold hplace f hf hfk)) hfk
  | sleep =>
    refine hnone (fun f hf hfk => ?_) rfl h.completed
    exact hquiet (Or.inl rfl) f (hmem (hold nofun f hf hfk)) hfk
  | notifyOne =>
    have hplace : .notifyAll ∉ (m.notify .user).2.place := by
      unfold notify
      split <;> nofun
    refine hnone (fun f hf hfk => ?_) rfl h.completed
    exact hquiet (Or.inr (Or.inl rfl)) f (hmem (hold hplace f hf hfk)) hfk
  | notifyAll =>
    have hfirst := hquiet (Or.inr (Or.inr rfl))
    -- The task itself is the only one in `notify_all`.
    have hself (f : τ × Place) (hf : f ∈ e'.stack) (hfk : f.2 = .notifyAll) : f.1 = t := by
      rcases hcont.entered f hf with hf | ⟨k', -, rfl⟩ | hentry
      · exact absurd hfk (hfirst f (hmem hf))
      · rfl
      · cases hfk.symm.trans hentry
    exact ⟨fun f hf g hg hfk hgk => (hself f hf hfk).trans (hself g hg hgk).symm,
      fun _ _ _ => rfl, hnodup, h.completed⟩
  | @pop u queue hqueue =>
    have htop : (t, Place.notifyAll) ∈ e.stack := Executor.mem_top hs
    have hself (f : τ × Place) (hf : f ∈ e'.stack) (hfk : f.2 = .notifyAll) : f.1 = t := by
      rcases hcont.entered f hf with hf | ⟨k', -, rfl⟩ | hentry
      · exact h.single f (hmem hf) _ htop hfk rfl
      · rfl
      · cases hfk.symm.trans hentry
    have hnote : NotifyLog.note m t .notifyAll .go l = { l with resumed := l.resumed ++ [u] } := by
      simp only [NotifyLog.note, hqueue]
    have hsplit := h.split _ htop rfl
    rw [hqueue] at hsplit
    rw [hnote]
    refine ⟨fun f hf g hg hfk hgk => (hself f hf hfk).trans (hself g hg hgk).symm, ?_, h.nodup,
      h.completed⟩
    intro _ _ _
    rw [List.append_assoc]
    exact hsplit
  | finish hqueue =>
    have htop : (t, Place.notifyAll) ∈ e.stack := Executor.mem_top hs
    have hnote : NotifyLog.note m t .notifyAll .go l =
        { l with completed := l.completed ++ [(l.waiters, l.resumed)] } := by
      simp only [NotifyLog.note, hqueue]
    have hsplit := h.split _ htop rfl
    rw [hqueue, List.append_nil] at hsplit
    rw [hnote]
    refine hnone (fun f hf hfk => ?_) rfl ?_
    · have hrest := hold nofun f hf hfk
      exact hne f hrest (h.single f (hmem hrest) _ htop hfk rfl)
    · intro x hx
      rcases List.mem_append.mp hx with hx | hx
      · exact h.completed x hx
      · rw [List.mem_singleton.mp hx]
        exact ⟨hsplit, h.nodup⟩

end Notifying

/-- `t` takes the mutex and waits for the condition variable. -/
def startWaiting (t : τ) : List (Move τ (TaskOp τ Op)) :=
  [.wake t, .code (.op .go), .code (.op .lock), .code (.op .wait), .code (.op .go)]

/-- Tasks 0 and 1 wait, and task 2 notifies all: each of them takes the mutex, gives it back and is
done. -/
def notifyTwo : List (Move ℕ (TaskOp ℕ Op)) :=
  startWaiting 0 ++ startWaiting 1 ++ [.wake 2, .code (.op .go), .code (.op .notifyAll),
    .code (.op .go), .code (.op .go), .code (.op .unlock), .code .exit,
    .code (.op .go), .code (.op .go), .code (.op .unlock), .code .exit, .code (.op .go)]

/-- Task 0 waits and task 1 notifies all; task 0, resumed, takes the mutex and waits again. -/
def waitAgain : List (Move ℕ (TaskOp ℕ Op)) :=
  startWaiting 0 ++ [.wake 1, .code (.op .go), .code (.op .notifyAll), .code (.op .go),
    .code (.op .go), .code (.op .wait), .code (.op .go), .code (.op .go)]

end Orengine.Sync.LocalMutex
