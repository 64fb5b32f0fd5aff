import Orengine.Sync.Channels.Safety.LocalRefinement
import Orengine.Sync.Channels.Safety.SharedRefinement

/-!
# The channels are linearizable

In every interleaving of its tasks, whoever finds the lock taken, a `Channel` is the sequential
channel for the order of the critical sections (`linearizable`); an operation that has returned
`Locked` has had no effect.  A `LocalChannel` is that for the order of the calls (`sequential`).

So what is proved of the sequential channel is true of both, such as what is stored and who waits
(`well_shaped`).
-/

namespace Orengine.Sync

open Lib

variable {τ V : Type*}

/-- Whether the operation with this result has found the lock free. -/
def OpResult.tookEffect : OpResult V → Bool
  | .trySend (.locked _) => false
  | .tryRecvIn .locked none => false
  | _ => true

namespace SequentialChannel

variable [DecidableEq τ] {s full empty : SequentialChannel τ V} {t : τ} {r closed : OpResult V}
  {capacity : ℕ}

/-! ### What is answered -/

/-- The channel with the answers of the operations that have taken effect. -/
def effective (s : SequentialChannel τ V) : SequentialChannel τ V :=
  { s with answers := fun u => (s.answers u).filter OpResult.tookEffect }

theorem effective_eq (s : SequentialChannel τ V) (t : τ) (r : OpResult V) :
    (s.answer t r).effective =
      { s.effective with
        answers := Function.update s.effective.answers t
          (s.effective.answers t ++ [r].filter OpResult.tookEffect) } := by
  unfold effective answer
  congr 1
  funext u
  by_cases hu : u = t
  · subst hu
    simp
  · simp [hu]

theorem effective_answer (h : r.tookEffect = true) :
    (s.answer t r).effective = s.effective.answer t r := by
  rw [effective_eq]
  simp [answer, h]

theorem effective_answer_of_not (h : r.tookEffect = false) :
    (s.answer t r).effective = s.effective := by
  rw [effective_eq]
  simp [h]

theorem effective_push {v : V} {ok : OpResult V} (hclosed : closed.tookEffect = true)
    (hok : ok.tookEffect = true) :
    (s.push t v closed ok full).effective = s.effective.push t v closed ok full.effective := by
  cases hcl : s.isClosed with
  | true => rw [push_closed hcl, push_closed (s := s.effective) hcl, effective_answer hclosed]
  | false =>
    have hcl' : s.effective.isClosed = false := hcl
    cases hr : s.receivers with
    | cons u rest =>
      rw [push_receiver hcl hr, push_receiver hcl' hr, effective_answer hok, effective_answer rfl]
      rfl
    | nil =>
      by_cases hlen : s.capacity ≤ s.storage.length
      · rw [push_full hcl hr hlen, push_full hcl' hr hlen]
      · rw [push_room hcl hr hlen, push_room hcl' hr hlen, effective_answer hok]
        rfl

theorem effective_pop {ok : V → OpResult V} (hclosed : closed.tookEffect = true)
    (hok : ∀ v, (ok v).tookEffect = true) :
    (s.pop t closed ok empty).effective = s.effective.pop t closed ok empty.effective := by
  cases hcl : s.isClosed with
  | true => rw [pop_closed hcl, pop_closed (s := s.effective) hcl, effective_answer hclosed]
  | false =>
    have hcl' : s.effective.isClosed = false := hcl
    cases hst : s.storage with
    | nil =>
      cases hs : s.senders with
      | nil => rw [pop_empty hcl hst hs, pop_empty hcl' hst hs]
      | cons x rest =>
        rw [pop_sender hcl hst hs, pop_sender hcl' hst hs, effective_answer (hok _),
          effective_answer rfl]
        rfl
    | cons y ys =>
      cases hs : s.senders with
      | nil =>
        rw [pop_stored hcl hst hs, pop_stored hcl' hst hs, effective_answer (hok _)]
        rfl
      | cons x rest =>
        rw [pop_stored_sender hcl hst hs, pop_stored_sender hcl' hst hs,
          effective_answer (hok _), effective_answer rfl]
        rfl

theorem effective_apply (s : SequentialChannel τ V) (t : τ) (op : Channel.Op V) :
    (s.apply t op).effective = s.effective.apply t op := by
  cases op with
  | send v => exact effective_push rfl rfl
  | recv => exact effective_pop rfl fun _ => rfl
  | trySend v =>
    refine (effective_push rfl rfl).trans ?_
    rw [effective_answer rfl]
    rfl
  | tryRecvIn =>
    refine (effective_pop rfl fun _ => rfl).trans ?_
    rw [effective_answer rfl]
    rfl
  | close =>
    have hsend (v : V) : (OpResult.send (.closed v)).tookEffect = true := rfl
    have hrecv : (OpResult.recvIn .closed none : OpResult V).tookEffect = true := rfl
    simp only [apply, close, effective]
    congr 1
    funext u
    simp [closeAnswers, List.filter_append, hsend, hrecv]

/-! ### The shape of the channel -/

/-- Who may wait, and how much may be stored. -/
structure Shape (s : SequentialChannel τ V) : Prop where
  storage : s.storage.length ≤ s.capacity
  senders : s.senders ≠ [] → s.storage.length = s.capacity ∧ s.receivers = []
  receivers : s.receivers ≠ [] → s.storage = []
  closed : s.isClosed = true → s.senders = [] ∧ s.receivers = []

theorem Shape.answer (h : s.Shape) : (s.answer t r).Shape :=
  ⟨h.storage, h.senders, h.receivers, h.closed⟩

theorem Shape.push (h : s.Shape) {v : V} {ok : OpResult V}
    (hfull : ¬s.isClosed = true → s.receivers = [] → s.storage.length = s.capacity → full.Shape) :
    (s.push t v closed ok full).Shape := by
  unfold SequentialChannel.push
  split
  case isTrue => exact h.answer
  case isFalse hopen =>
    split
    case h_1 u rest hr =>
      have hnil : s.senders = [] := by_contra fun hs => by simp [(h.senders hs).2] at hr
      have hst := h.receivers (by simp [hr])
      exact ⟨h.storage, absurd hnil, fun _ => hst, (absurd · hopen)⟩
    case h_2 hr =>
      split
      case isTrue hlen => exact hfull hopen hr (Nat.le_antisymm h.storage hlen)
      case isFalse hlen =>
        refine ⟨?_, fun hs => absurd (h.senders hs).1.ge hlen, absurd hr, (absurd · hopen)⟩
        exact List.length_append.trans_le (Nat.lt_of_not_le hlen)

theorem Shape.pop (h : s.Shape) {ok : V → OpResult V}
    (hempty : ¬s.isClosed = true → s.storage = [] → s.senders = [] → empty.Shape) :
    (s.pop t closed ok empty).Shape := by
  have hnil (hst : s.storage ≠ []) : s.receivers = [] := by_contra fun hr => hst (h.receivers hr)
  have hlen := h.storage
  unfold SequentialChannel.pop
  split
  case isTrue => exact h.answer
  case isFalse hopen =>
    split
    case h_1 hst hs => exact hempty hopen hst hs
    case h_2 u v rest _ hs =>
      exact ⟨hlen, fun _ => h.senders (by simp [hs]), h.receivers, (absurd · hopen)⟩
    case h_3 y ys hst hs =>
      rw [hst] at hlen
      have hr := hnil (by simp [hst])
      exact ⟨Nat.le_of_succ_le hlen, absurd hs, absurd hr, (absurd · hopen)⟩
    case h_4 y ys u v rest hst hs =>
      have hsame : (ys ++ [v]).length = s.capacity := by
        rw [← (h.senders (by simp [hs])).1, hst, List.length_append]
        rfl
      have hr := hnil (by simp [hst])
      exact ⟨hsame.le, fun _ => ⟨hsame, hr⟩, absurd hr, (absurd · hopen)⟩

theorem shape_run (capacity : ℕ) (ops : List (τ × Channel.Op V)) : (run capacity ops).Shape := by
  induction ops using List.reverseRecOn with
  | nil => exact ⟨Nat.zero_le _, absurd rfl, absurd rfl, nofun⟩
  | append_singleton ops x ih =>
    rw [run_concat]
    cases x.2 with
    | send v =>
      refine ih.push fun hopen hr hfull => ?_
      exact ⟨hfull.le, fun _ => ⟨hfull, hr⟩, absurd hr, (absurd · hopen)⟩
    | recv =>
      refine ih.pop fun hopen hst hs => ?_
      exact ⟨ih.storage, absurd hs, fun _ => hst, (absurd · hopen)⟩
    | trySend v => exact ih.push fun _ _ _ => ih.answer
    | tryRecvIn => exact ih.pop fun _ _ _ => ih.answer
    | close => exact ⟨ih.storage, absurd rfl, absurd rfl, fun _ => ⟨rfl, rfl⟩⟩

end SequentialChannel

namespace Channel

open SequentialChannel

variable [DecidableEq τ] {s s' : Channel τ V} {capacity : ℕ} {a : SequentialChannel τ V}
  {x : Channel τ V × List (τ × Op V)}

/-- A state that some run reaches, with the operations that have taken effect. -/
abbrev Runs (capacity : ℕ) (x : Channel τ V × List (τ × Op V)) : Prop :=
  Reachable stepCalls (bounded capacity, []) x

theorem exists_runs (h : Reachable Channel.step (bounded capacity) s) :
    ∃ ops, Runs capacity (s, ops) := by
  refine Reach.invariant (I := fun s => ∃ ops, Runs capacity (s, ops)) ?_ ?_ h
  · exact ⟨[], .start⟩
  · rintro s act s' - ⟨ops, hruns⟩ - hstep
    exact ⟨ops ++ takesEffect s act, hruns.next trivial (by rw [stepCalls, hstep]; rfl)⟩

variable [Fintype τ] [DecidableEq V]

theorem refines_lockFails (hsafe : Safe s) (h : Refines s a) {t : τ}
    (hstep : s.lockFails t = some s') :
    ∃ a', Refines s' a' ∧ a'.effective = a.effective := by
  have hlocked {res : OpResult V} (hres : res.tookEffect = false) (op : Op V)
      (ht : s.pc t = op.start) : ∃ a', Refines (s.ret t res) a' ∧
        a'.effective = a.effective := by
    refine ⟨_, refines_answer hsafe.links h.answered (atStart_of_eq op ht) s.storage res, ?_⟩
    rw [effective_answer_of_not hres, h.content]
    rfl
  unfold lockFails at hstep
  split at hstep
  case h_4 v ht => exact Option.some.inj hstep ▸ hlocked rfl (.trySend v) ht
  case h_5 ht => exact Option.some.inj hstep ▸ hlocked rfl .tryRecvIn ht
  case h_6 => cases hstep
  all_goals exact ⟨a, Option.some.inj hstep ▸ h, rfl⟩

/-- What a step does to the sequential channel. -/
theorem refines_next (hsafe : Safe s) (h : Refines s a) {act : Action τ V}
    (hstep : s.step act = some s') : ∃ a', Refines s' a' ∧
      a'.effective = (takesEffect s act).foldl (fun b x => b.apply x.1 x.2)
        a.effective := by
  have hlinks := hsafe.links
  cases act with
  | call t op =>
    simp only [step] at hstep
    split at hstep
    case h_1 ht =>
      obtain rfl := Option.some.inj hstep
      exact ⟨a, ⟨h.content, h.answered.call hlinks ht op⟩, rfl⟩
    case h_2 => cases hstep
  | lockFails t => exact refines_lockFails hsafe h hstep
  | locked t =>
    obtain ⟨op, hcalled, hrefines⟩ := refines_locked hsafe h.answered hstep
    refine ⟨_, hrefines, ?_⟩
    rw [takesEffect, hcalled, effective_apply, ← h.content]
    rfl
  | unlocked t =>
    refine ⟨a, ?_, rfl⟩
    cases unlocks_of_unlocked hsafe hstep with
    | access parked due place copies task stays before after =>
      exact ⟨h.content, h.answered.access hlinks rfl parked due place copies task before after⟩
    | ret parked due copies =>
      exact ⟨h.content, h.answered.ret hlinks (hlinks.queued_eq_zero parked) due copies
        (fun _ h => h) fun _ _ => rfl⟩
  | resume t =>
    obtain ⟨hready, hstep⟩ := Option.ite_none_left_eq_some.mp hstep
    obtain ⟨hqueued, hparked, res, hdue, heq⟩ := resume_of_ready hsafe hready
    obtain rfl := Option.some.inj hstep
    rw [heq]
    exact ⟨a, ⟨h.content, h.answered.ret hlinks hqueued hdue (ne_copyTo_of_parked hparked)
      (fun _ h => h) fun _ _ => rfl⟩, rfl⟩

theorem safe_of_runs (h : Runs capacity x) : Safe x.1 := by
  have hreachable : Reachable Channel.step (bounded capacity) x.1 :=
    Reach.component (f := Prod.fst)
      (fun _ a _ _ hstep => Or.inr ⟨a, trivial, (step_of_stepCalls hstep).1⟩) h
  exact safe_of_reachable hreachable

theorem refines_of_runs (h : Runs capacity x) :
    ∃ a, Refines x.1 a ∧ a.effective = run capacity x.2 := by
  refine Reach.invariant (I := fun x : Channel τ V × List (τ × Op V) =>
    ∃ a, Refines x.1 a ∧ a.effective = run capacity x.2) ?_ ?_ h
  · exact ⟨.bounded capacity, ⟨rfl, fun u => ⟨[], .place rfl rfl, rfl⟩⟩, rfl⟩
  · rintro x act y hreach ⟨a, hrefines, heffects⟩ - hstep
    obtain ⟨hs, hlog⟩ := step_of_stepCalls hstep
    obtain ⟨a', hrefines', heffects'⟩ := refines_next (safe_of_runs hreach) hrefines hs
    refine ⟨a', hrefines', ?_⟩
    rw [heffects', heffects, hlog, run, run, List.foldl_append]

/-- **`Channel` is linearizable.** In every state it holds what the sequential channel holds after
the operations in the order of their critical sections, and every task has got the answers of the
sequential channel, all of them as soon as it is in no operation. -/
theorem linearizable (capacity : ℕ) (x : Channel τ V × List (τ × Op V)) (h : Runs capacity x) :
    x.1.storage = (run capacity x.2).storage ∧ x.1.isClosed = (run capacity x.2).isClosed ∧
      x.1.senders = (run capacity x.2).senders ∧ x.1.receivers = (run capacity x.2).receivers ∧
      ∀ t, (resultsOf x.1.results t).filter OpResult.tookEffect <+: (run capacity x.2).answers t ∧
        (x.1.pc t = .idle →
          (resultsOf x.1.results t).filter OpResult.tookEffect = (run capacity x.2).answers t) := by
  obtain ⟨a, hrefines, heffects⟩ := refines_of_runs h
  rw [← heffects, hrefines.content]
  refine ⟨rfl, rfl, rfl, rfl, fun t => ?_⟩
  obtain ⟨l, hdue, hA⟩ := hrefines.answered t
  have hanswers : (x.1.toSequential a.answers).effective.answers t =
      (resultsOf x.1.results t).filter OpResult.tookEffect ++ l.filter OpResult.tookEffect := by
    show (a.answers t).filter OpResult.tookEffect = _
    rw [hA]
    exact List.filter_append ..
  rw [hanswers]
  refine ⟨List.prefix_append .., fun hidle => ?_⟩
  -- Nothing is due to a task that is in no operation.
  have hlinks := (safe_of_runs h).links
  have hnil := hdue.unique hlinks (.place (hlinks.queued_eq_zero (by rw [hidle]; rfl))
    (by rw [hidle]; rfl))
  rw [hnil]
  exact (List.append_nil _).symm

/-- `t` is parked as a receiver; `u` serves it, while `v` finds the lock taken. -/
def contendedHandOff (t u v : τ) (y : V) : List (Action τ V) :=
  [.call t .recv, .locked t, .call u (.send y), .call v .tryRecvIn, .lockFails v, .locked u,
    .unlocked u, .unlocked u, .unlocked u]

theorem linearizable_contendedHandOff :
    ∃ x : Channel (Fin 3) ℕ × List (Fin 3 × Op ℕ), Runs 1 x ∧
      x.2 = [(0, .recv), (1, .send 7)] ∧
      x.1.results = [(2, .tryRecvIn .locked none), (1, .send .ok)] ∧
      x.1.storage = (run 1 x.2).storage ∧ (run 1 x.2).answers 1 = [.send .ok] ∧
      (run 1 x.2).answers 2 = [] := by
  have h : Runs 1 _ := reachable_of_exec (contendedHandOff (0 : Fin 3) 1 2 7) rfl
  obtain ⟨hstorage, -, -, -, hanswers⟩ := linearizable 1 _ h
  exact ⟨_, h, rfl, rfl, hstorage, ((hanswers 1).2 rfl).symm, ((hanswers 2).2 rfl).symm⟩

/-- **The shape of a `Channel`**, whatever its tasks do: a sender waits only if the storage is full
and no receiver waits, a receiver only if nothing is stored, and nobody once it is closed. -/
theorem well_shaped (capacity : ℕ) (s : Channel τ V)
    (h : Reachable Channel.step (bounded capacity) s) :
    s.storage.length ≤ s.capacity ∧
      (s.senders ≠ [] → s.storage.length = s.capacity ∧ s.receivers = []) ∧
      (s.receivers ≠ [] → s.storage = [] ∧ s.senders = []) ∧
      (s.isClosed = true → s.senders = [] ∧ s.receivers = []) := by
  obtain ⟨ops, hruns⟩ := exists_runs h
  obtain ⟨a, hrefines, ha⟩ := refines_of_runs hruns
  have hshape := shape_run capacity ops
  rw [← ha, hrefines.content] at hshape
  exact ⟨hshape.storage, hshape.senders,
    fun hr => ⟨hshape.receivers hr, of_not_not fun hs => hr (hshape.senders hs).2⟩, hshape.closed⟩

theorem well_shaped_contendedHandOff : ∃ s : Channel (Fin 3) ℕ,
    Reachable Channel.step (bounded 1) s ∧ s.receivers = [0] ∧ s.storage = [] ∧ s.senders = [] := by
  have h : Reachable Channel.step (bounded 1) _ :=
    reachable_of_exec ((contendedHandOff (0 : Fin 3) 1 2 7).take 4) rfl
  obtain ⟨-, -, hreceivers, -⟩ := well_shaped 1 _ h
  exact ⟨_, h, rfl, hreceivers (by decide)⟩

end Channel

namespace LocalChannel

open SequentialChannel

/-- **`LocalChannel` is sequential.** At every point of every run, nested or not, it holds what the
sequential channel holds after the calls in their order, with the same tasks waiting as long as it
is open, and every task has got the first of the answers of the sequential channel. -/
theorem sequential [DecidableEq τ] (capacity : ℕ) (e : Calls τ V)
    (h : called.Reaches (bounded capacity, []) e) :
    e.state.memory.1.storage = (run capacity e.state.memory.2).storage ∧
      e.state.memory.1.isClosed = (run capacity e.state.memory.2).isClosed ∧
      (e.state.memory.1.isClosed = false →
        e.state.memory.1.senders = (run capacity e.state.memory.2).senders ∧
          e.state.memory.1.receivers = (run capacity e.state.memory.2).receivers) ∧
      ∀ t, resultsOf e.state.memory.1.results t <+: (run capacity e.state.memory.2).answers t := by
  obtain ⟨-, hmirrors, hanswered⟩ := refines_of_reaches capacity h
  refine ⟨hmirrors.storage.symm, hmirrors.isClosed.symm, fun hopen => ?_, fun t => ?_⟩
  · exact ⟨(hmirrors.opened hopen).1.symm, (hmirrors.opened hopen).2.symm⟩
  · obtain ⟨l, -, hA⟩ := hanswered t
    rw [hA]
    exact List.prefix_append ..

theorem sequential_rendezvous : ∃ e : Calls ℕ ℕ, called.Reaches (bounded 0, []) e ∧
    e.state.memory.2 = [(0, .recv), (1, .send 7), (0, .recv)] ∧
    (run 0 e.state.memory.2).receivers = [0] ∧ (run 0 e.state.memory.2).answers 1 = [.send .ok] ∧
    [.recvIn .ok (some 7)] <+: (run 0 e.state.memory.2).answers 0 := by
  have h : called.Reaches (bounded 0, []) _ := reachable_of_exec rendezvous rfl
  obtain ⟨-, -, hqueues, hanswers⟩ := sequential 0 _ h
  exact ⟨_, h, rfl, (hqueues rfl).2.symm, rfl, hanswers 0⟩

end LocalChannel

end Orengine.Sync
