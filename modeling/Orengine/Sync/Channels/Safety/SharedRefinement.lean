import Orengine.Sync.Channels.Safety.Shared
import Orengine.Sync.Channels.Sequential

/-!
# `Channel` refines the sequential channel

An operation of a `Channel` takes effect in its critical section.  After it, the task that made the
operation and the one that it serves still have steps to make before they return; `Due` says what
they will return.  `refines_of_reach`: as long as nobody finds the lock taken, what a task has got
together with what is due to it is what the sequential channel has answered, after the operations
in the order of their critical sections.

The account rests on `Links`: whoever was taken out of a queue is referred to once.
-/

namespace Orengine.Sync.Channel

open Lib SequentialChannel

variable {τ V : Type*} [DecidableEq τ]

/-! ### The operations in their order -/

/-- The operation whose critical section a task at this place is about to run. -/
def Pc.called : Pc τ V → Option (Op V)
  | .send v => some (.send v)
  | .recv => some .recv
  | .trySend v => some (.trySend v)
  | .tryRecvIn => some .tryRecvIn
  | .close => some .close
  | _ => none

/-- The operation that takes effect in a step. -/
def takesEffect (s : Channel τ V) : Action τ V → List (τ × Op V)
  | .locked t => ((s.pc t).called.map fun op => (t, op)).toList
  | _ => []

/-- One step of the channel with the operations that have taken effect, in their order. -/
def stepCalls (x : Channel τ V × List (τ × Op V)) (a : Action τ V) :
    Option (Channel τ V × List (τ × Op V)) :=
  (x.1.step a).map fun s => (s, x.2 ++ takesEffect x.1 a)

/-- A step in which nobody finds the lock taken. -/
def Uncontended (_ : Channel τ V × List (τ × Op V)) (a : Action τ V) : Prop :=
  ∀ t, a ≠ .lockFails t

/-- A state that a run without contention reaches, with the operations that have taken effect. -/
abbrev ReachesCalls (capacity : ℕ) (x : Channel τ V × List (τ × Op V)) : Prop :=
  Reach stepCalls Uncontended (bounded capacity, []) x

theorem step_of_stepCalls {x y : Channel τ V × List (τ × Op V)} {a : Action τ V}
    (h : stepCalls x a = some y) : x.1.step a = some y.1 ∧ y.2 = x.2 ++ takesEffect x.1 a := by
  simp only [stepCalls, Option.map_eq_some_iff] at h
  obtain ⟨s, hs, rfl⟩ := h
  exact ⟨hs, rfl⟩

theorem reachable_of_reachesCalls {capacity : ℕ} {x : Channel τ V × List (τ × Op V)}
    (h : ReachesCalls capacity x) : Reachable Channel.step (bounded capacity) x.1 := by
  refine Reach.component (f := Prod.fst) (fun x a y _ hstep => Or.inr ⟨a, trivial, ?_⟩) h
  exact (step_of_stepCalls hstep).1

/-! ### What is due to a task -/

/-- What is due to a task at this place that is in no queue.  A receiver whose slot has not been
written cannot tell. -/
def Pc.due : Pc τ V → Option (List (OpResult V))
  | .copyTo _ _ op => some [op.ok]
  | .tellReceiver _ op => some [op.ok]
  | .execReceiver _ op => some [op.ok]
  | .copyFrom _ v op => some [op.ok v]
  | .tellSender _ v op => some [op.ok v]
  | .execSender _ v op => some [op.ok v]
  | .sendParked .wokenByClose v => some [.send (.closed v)]
  | .sendParked _ _ => some [.send .ok]
  | .recvParked .wokenByClose _ => some [.recvIn .closed none]
  | .recvParked .wokenToReturnReady slot => some [.recvIn .ok slot]
  | .recvParked .firstCall (some v) => some [.recvIn .ok (some v)]
  | .recvParked .firstCall none => none
  | _ => some []

/-- What is due to a task. -/
inductive Due (S : List (τ × V)) (R : List τ) (pc : τ → Pc τ V) (t : τ) : List (OpResult V) → Prop
  | queued (h : 0 < queued S R t) : Due S R pc t []
  /-- A task is about to write to the slot of `t`. -/
  | copied {p : τ} {v : V} {op : Sending} (h : pc p = .copyTo t v op) :
    Due S R pc t [.recvIn .ok (some v)]
  | place {l : List (OpResult V)} (hqueued : queued S R t = 0) (hpc : (pc t).due = some l) :
    Due S R pc t l

section Refs

variable {S S' : List (τ × V)} {R R' : List τ} {pc pc' : τ → Pc τ V} {t r u p : τ} {v : V}
  {l l' : List (OpResult V)} {x k b : Pc τ V} {op : Sending}

theorem Due.frame (h : Due S R pc u l) (hqueued : Channel.queued S' R' u = Channel.queued S R u)
    (hpc : pc' u = pc u) (hcopy : ∀ p v op, pc p = .copyTo u v op → pc' p = .copyTo u v op) :
    Due S' R' pc' u l := by
  cases h with
  | queued h => exact .queued (hqueued ▸ h)
  | copied h => exact .copied (hcopy _ _ _ h)
  | place hzero hdue => exact .place (hqueued.trans hzero) (hpc ▸ hdue)

theorem refersTo_copyTo (h : pc p = .copyTo r v op) : (pc p).refersTo r ≠ 0 := by
  simp [h, Pc.refersTo]

variable [Fintype τ] {ready parkings resumptions : τ → ℕ}

theorem Links.queued_le_one (h : Links S R pc ready parkings resumptions) (u : τ) :
    queued S R u ≤ 1 := by
  have hrefs := h.refs_eq u
  have hle := Pc.parked_le_one (pc u)
  unfold refs at hrefs
  omega

theorem Links.queued_eq_zero_of_refersTo (h : Links S R pc ready parkings resumptions)
    (hp : (pc p).refersTo r ≠ 0) : queued S R r = 0 := by
  have hrefs := h.refs_eq r
  have hle := Pc.parked_le_one (pc r)
  have htally := le_tally (Pc.refersTo r) pc p
  unfold refs at hrefs
  omega

/-- **What is due to a task is determined.** -/
theorem Due.unique (hlinks : Links S R pc ready parkings resumptions) (h : Due S R pc t l)
    (h' : Due S R pc t l') : l = l' := by
  have hrefs := hlinks.refs_eq t
  have hle := Pc.parked_le_one (pc t)
  unfold refs at hrefs
  -- A task for which somebody has a value is in no queue, and its slot is empty.
  have hcopied {p : τ} {v : V} {op : Sending} (hp : pc p = .copyTo t v op) :
      Channel.queued S R t = 0 ∧ (pc t).due = none := by
    refine ⟨hlinks.queued_eq_zero_of_refersTo (refersTo_copyTo hp), ?_⟩
    have hneeds := (hlinks.served t).pointer p (refersTo_copyTo hp)
    rw [hp] at hneeds
    have hpc : pc t = .recvParked .firstCall none := hneeds
    rw [hpc]
    rfl
  cases h with
  | queued hq =>
    cases h' with
    | queued _ => rfl
    | copied hp =>
      have hzero := (hcopied hp).1
      omega
    | place hzero _ => omega
  | @copied p v op hp =>
    cases h' with
    | queued hq =>
      have hzero := (hcopied hp).1
      omega
    | @copied q w op' hq =>
      have hpq : p = q := eq_of_tally_le_one (f := Pc.refersTo t) (g := pc) (by omega)
        (Nat.pos_of_ne_zero (refersTo_copyTo hp)) (Nat.pos_of_ne_zero (refersTo_copyTo hq))
      rw [← hpq, hp] at hq
      cases hq
      rfl
    | place _ hdue => cases (hcopied hp).2.symm.trans hdue
  | place hzero hdue =>
    cases h' with
    | queued hq => omega
    | copied hp => cases (hcopied hp).2.symm.trans hdue
    | place _ hdue' => exact Option.some.inj (hdue.symm.trans hdue')

/-- What every task has got and what is due to it are the answers `A`. -/
def Answered (S : List (τ × V)) (R : List τ) (pc : τ → Pc τ V) (results : List (τ × OpResult V))
    (A : τ → List (OpResult V)) : Prop :=
  ∀ u, ∃ l, Due S R pc u l ∧ A u = resultsOf results u ++ l

namespace Answered

variable {results results' : List (τ × OpResult V)} {A A' : τ → List (OpResult V)}
  {res res' : OpResult V}

omit [Fintype τ] in
/-- Who has a value for `u` still has it when a task moves that has none for it. -/
theorem copyTo_update (ht : ∀ v op, pc t ≠ .copyTo u v op) (k : Pc τ V) (p : τ) (v : V)
    (op : Sending) (hp : pc p = .copyTo u v op) : Function.update pc t k p = .copyTo u v op := by
  have hpt : p ≠ t := by
    rintro rfl
    exact ht v op hp
  rw [Function.update_of_ne hpt, hp]

variable (h : Answered S R pc results A) (hlinks : Links S R pc ready parkings resumptions)

include h hlinks

/-- The rule for a step: it is enough to look at the tasks that it touches, and there at what was
due and what is due now. -/
theorem next (T : τ → Prop)
    (htouched : ∀ u, T u → ∃ l l', Due S R pc u l ∧ Due S' R' pc' u l' ∧
      (A u = resultsOf results u ++ l → A' u = resultsOf results' u ++ l'))
    (hothers : ∀ u, ¬T u → queued S' R' u = queued S R u ∧ pc' u = pc u ∧
      (∀ p v op, pc p = .copyTo u v op → pc' p = .copyTo u v op) ∧
      resultsOf results' u = resultsOf results u ∧ A' u = A u) :
    Answered S' R' pc' results' A' := by
  intro u
  obtain ⟨l, hdue, hA⟩ := h u
  by_cases hu : T u
  · obtain ⟨l₁, l', hdue₁, hdue', hnext⟩ := htouched u hu
    rw [hdue.unique hlinks hdue₁] at hA
    exact ⟨l', hdue', hnext hA⟩
  · obtain ⟨hqueued, hpc, hcopy, hresults, hA'⟩ := hothers u hu
    exact ⟨l, hdue.frame hqueued hpc hcopy, by rw [hA', hresults, hA]⟩

theorem call (ht : pc t = .idle) (op : Op V) :
    Answered S R (Function.update pc t op.start) results A := by
  have hqueued := hlinks.queued_eq_zero (t := t) (by rw [ht]; rfl)
  refine h.next hlinks (· = t) ?_ fun u hu => ?_
  · rintro u rfl
    refine ⟨[], [], .place hqueued (by rw [ht]; rfl), .place hqueued ?_, id⟩
    rw [Function.update_self]
    cases op <;> rfl
  · exact ⟨rfl, Function.update_of_ne hu _ _, copyTo_update (by simp [ht]) _, rfl, rfl⟩

theorem ret (hqueued : queued S R t = 0) (hdue : (pc t).due = some l)
    (hcopy : ∀ u v op, pc t ≠ .copyTo u v op) (hA : ∀ rs, A t = rs ++ l → A' t = rs ++ [res])
    (hothers : ∀ u, u ≠ t → A' u = A u) :
    Answered S R (Function.update pc t .idle) (results ++ [(t, res)]) A' := by
  refine h.next hlinks (· = t) ?_ fun u hu => ?_
  · rintro u rfl
    refine ⟨l, [], .place hqueued hdue, .place hqueued ?_, fun h => ?_⟩
    · rw [Function.update_self]
      rfl
    · rw [hA _ h, resultsOf_concat_self, List.append_nil]
  · exact ⟨rfl, Function.update_of_ne hu _ _, copyTo_update (hcopy u) _,
      resultsOf_concat_of_ne _ hu res, hothers u hu⟩

theorem park (hparked : (pc t).parked = 0) (hdue : (pc t).due = some [])
    (hcopy : ∀ u v op, pc t ≠ .copyTo u v op) (hself : 0 < queued S' R' t)
    (hothers : ∀ u, u ≠ t → queued S' R' u = queued S R u) (k : Pc τ V) :
    Answered S' R' (Function.update pc t k) results A := by
  refine h.next hlinks (· = t) ?_ fun u hu => ?_
  · rintro u rfl
    exact ⟨[], [], .place (hlinks.queued_eq_zero hparked) hdue, .queued hself, id⟩
  · exact ⟨hothers u hu, Function.update_of_ne hu _ _, copyTo_update (hcopy u) _, rfl, rfl⟩

/-- A task to which nothing is due takes `r` out of the queues, and both have their answers. -/
theorem serve (hparked : (pc t).parked = 0) (hdue : (pc t).due = some [])
    (hcopy : ∀ u v op, pc t ≠ .copyTo u v op) (htr : t ≠ r)
    (hqueued : ∀ u, queued S R u = queued S' R' u + oneAt r u) (hk : k.due = some [res])
    (hr : Due S' R' (Function.update pc t k) r [res']) (hA : A' t = A t ++ [res])
    (hA' : A' r = A r ++ [res']) (hothers : ∀ u, u ≠ t → u ≠ r → A' u = A u) :
    Answered S' R' (Function.update pc t k) results A' := by
  have hzero := hlinks.queued_eq_zero hparked
  refine h.next hlinks (fun u => u = t ∨ u = r) ?_ fun u hu => ?_
  · rintro u (rfl | rfl)
    · refine ⟨[], [res], .place hzero hdue, .place ?_ (by rw [Function.update_self, hk]),
        fun h => ?_⟩
      · have := hqueued u
        omega
      · rw [hA, h, List.append_nil]
    · refine ⟨[], [res'], .queued ?_, hr, fun h => ?_⟩
      · rw [hqueued, oneAt_self]
        exact Nat.succ_pos _
      · rw [hA', h, List.append_nil]
  · obtain ⟨hut, hur⟩ := not_or.mp hu
    refine ⟨?_, Function.update_of_ne hut _ _, copyTo_update (hcopy u) _, rfl, hothers u hut hur⟩
    rw [hqueued, oneAt_of_ne (Ne.symm hur), Nat.add_zero]

theorem access (hx : pc t = x) (hparked : x.parked = 0) (hdue : x.due = some [res])
    (hk : k.due = some [res]) (hcopy : ∀ u v op, x = .copyTo u v op → u = r)
    (hr : (pc r).parked = 1) (hold : Due S R pc r l)
    (hnew : Due S R (Function.update (Function.update pc r b) t k) r l) :
    Answered S R (Function.update (Function.update pc r b) t k) results A := by
  have hzero := hlinks.queued_eq_zero (t := t) (by rw [hx, hparked])
  refine h.next hlinks (fun u => u = t ∨ u = r) ?_ fun u hu => ?_
  · rintro u (rfl | rfl)
    · exact ⟨[res], [res], .place hzero (by rw [hx, hdue]),
        .place hzero (by rw [Function.update_self, hk]), id⟩
    · exact ⟨l, l, hold, hnew, id⟩
  · obtain ⟨hut, hur⟩ := not_or.mp hu
    refine ⟨rfl, ?_, fun p v op hp => ?_, rfl, rfl⟩
    · rw [Function.update_of_ne hut, Function.update_of_ne hur]
    · have hpr : p ≠ r := by
        rintro rfl
        rw [hp] at hr
        cases hr
      have hpt : p ≠ t := by
        rintro rfl
        exact hur (hcopy u v op (hx.symm.trans hp))
      rw [Function.update_of_ne hpt, Function.update_of_ne hpr, hp]

end Answered

/-! ### The refinement -/

/-- The content of the channel with the answers `A`. -/
def toSequential (s : Channel τ V) (A : τ → List (OpResult V)) : SequentialChannel τ V :=
  ⟨s.storage, s.isClosed, s.capacity, s.senders, s.receivers, A⟩

/-- The channel with the tasks that use it refines the sequential channel. -/
structure Refines (s : Channel τ V) (a : SequentialChannel τ V) : Prop where
  content : a = s.toSequential a.answers
  answered : Answered s.senders s.receivers s.pc s.results a.answers

/-- A task at the start of an operation. -/
structure Pc.AtStart (x : Pc τ V) : Prop where
  parked : x.parked = 0
  due : x.due = some []
  copies : ∀ u v op, x ≠ .copyTo u v op

omit [Fintype τ] [DecidableEq τ] in
theorem atStart_of_eq {x : Pc τ V} (op : Op V) (h : x = op.start) : x.AtStart := by
  rw [h]
  cases op <;> exact ⟨rfl, rfl, nofun⟩

section Locked

variable {s : Channel τ V} {A : τ → List (OpResult V)}
  (hlinks : Links s.senders s.receivers s.pc s.ready s.parkings s.resumptions)
  (h : Answered s.senders s.receivers s.pc s.results A) (ht : (s.pc t).AtStart)

include hlinks h ht

theorem refines_answer (storage : List V) (res : OpResult V) :
    Refines ({ s with storage := storage }.ret t res)
      ({ s.toSequential A with storage := storage }.answer t res) := by
  refine ⟨rfl, h.ret hlinks (hlinks.queued_eq_zero ht.parked) ht.due ht.copies (fun rs hA => ?_)
    fun u hu => ?_⟩
  · rw [List.append_nil] at hA
    rw [answers_answer_self, ← hA]
    rfl
  · exact answers_answer_of_ne _ hu res

theorem refines_serveReceiver {rest : List τ} (hr : s.receivers = r :: rest) (v : V)
    (op : Sending) :
    Refines ({ s with receivers := rest }.goto t (.copyTo r v op))
      (({ s.toSequential A with receivers := rest }.answer r (.recvIn .ok (some v))).answer t
        op.ok) := by
  have hpc := (hlinks.served r).receiver (by simp [hr])
  have htr : t ≠ r := Ne.symm (ne_of_parked ht.parked (by rw [hpc]; rfl))
  refine ⟨rfl, h.serve hlinks ht.parked ht.due ht.copies htr (queued_receivers hr) rfl
    (.copied (Function.update_self ..)) ?_ ?_ ?_⟩
  · rw [answers_answer_self, answers_answer_of_ne _ htr]
    rfl
  · rw [answers_answer_of_ne _ htr.symm, answers_answer_self]
    rfl
  · intro u hut hur
    rw [answers_answer_of_ne _ hut, answers_answer_of_ne _ hur]
    rfl

theorem refines_serveSender {rest : List (τ × V)} (hs : s.senders = (u, v) :: rest)
    {res : OpResult V} (hk : k.due = some [res]) (storage : List V) :
    Refines ({ s with storage := storage, senders := rest }.goto t k)
      (({ s.toSequential A with storage := storage, senders := rest }.answer u (.send .ok)).answer t
        res) := by
  have hpc := (hlinks.served u).sender v (by simp [hs])
  have htu : t ≠ u := Ne.symm (ne_of_parked ht.parked (by rw [hpc]; rfl))
  have hdue : Due rest s.receivers (Function.update s.pc t k) u [.send .ok] := by
    refine .place ?_ ?_
    · have hle := hlinks.queued_le_one u
      rw [queued_senders hs, oneAt_self] at hle
      exact Nat.le_zero.mp (Nat.le_of_succ_le_succ hle)
    · rw [Function.update_of_ne htu.symm, hpc]
      rfl
  refine ⟨rfl, h.serve hlinks ht.parked ht.due ht.copies htu (queued_senders hs) hk hdue ?_ ?_ ?_⟩
  · rw [answers_answer_self, answers_answer_of_ne _ htu]
    rfl
  · rw [answers_answer_of_ne _ htu.symm, answers_answer_self]
    rfl
  · intro w hwt hwu
    rw [answers_answer_of_ne _ hwt, answers_answer_of_ne _ hwu]
    rfl

theorem refines_parkSender (v : V) : Refines (s.parkSender t v)
    { s.toSequential A with senders := s.senders ++ [(t, v)] } := by
  refine ⟨rfl, h.park hlinks ht.parked ht.due ht.copies ?_ (fun u hu => ?_) _⟩
  · exact queued_pos_of_mem_senders (List.mem_append_right _ (List.mem_singleton.mpr rfl))
  · simp [Channel.parkSender, goto, queued, List.count_append, count_singleton_eq_oneAt,
      oneAt_of_ne (Ne.symm hu)]

theorem refines_parkReceiver : Refines (s.parkReceiver t)
    { s.toSequential A with receivers := s.receivers ++ [t] } := by
  refine ⟨rfl, h.park hlinks ht.parked ht.due ht.copies ?_ (fun u hu => ?_) _⟩
  · exact queued_pos_of_mem_receivers (List.mem_append_right _ (List.mem_singleton.mpr rfl))
  · simp [Channel.parkReceiver, goto, queued, List.count_append, count_singleton_eq_oneAt,
      oneAt_of_ne (Ne.symm hu)]

/-- A sending operation; `full` is what it does without a receiver and without room. -/
theorem refines_pushLocked (v : V) (closed : OpResult V) (op : Sending) {full : Channel τ V}
    {full' : SequentialChannel τ V} (hfull : Refines full full') :
    Refines (s.pushLocked t v closed op full)
      ((s.toSequential A).push t v closed op.ok full') := by
  unfold pushLocked
  split
  case isTrue hclosed =>
    rw [push_closed hclosed]
    exact refines_answer hlinks h ht s.storage _
  case isFalse hopen =>
    have hopen : (s.toSequential A).isClosed = false := Bool.eq_false_iff.mpr hopen
    split
    case h_1 r rest hr =>
      rw [push_receiver hopen hr]
      exact refines_serveReceiver hlinks h ht hr v op
    case h_2 hr =>
      split
      case isTrue hlen =>
        rw [push_full hopen hr hlen]
        exact hfull
      case isFalse hroom =>
        rw [push_room hopen hr hroom]
        exact refines_answer hlinks h ht (s.storage ++ [v]) _

theorem refines_sendLocked (v : V) :
    Refines (s.sendLocked t v) ((s.toSequential A).apply t (.send v)) := by
  rw [sendLocked_eq, SequentialChannel.apply]
  exact refines_pushLocked hlinks h ht v _ .send (refines_parkSender hlinks h ht v)

theorem refines_trySendLocked (v : V) :
    Refines (s.trySendLocked t v) ((s.toSequential A).apply t (.trySend v)) := by
  rw [trySendLocked_eq, SequentialChannel.apply]
  exact refines_pushLocked hlinks h ht v _ .trySend (refines_answer hlinks h ht s.storage _)

theorem refines_recvStored (hopen : s.isClosed = false) {y : V} {ys : List V}
    (hst : s.storage = y :: ys) (op : Receiving) (closed : OpResult V)
    (empty : SequentialChannel τ V) :
    Refines (s.recvStored t y ys op) ((s.toSequential A).pop t closed op.ok empty) := by
  have hopen : (s.toSequential A).isClosed = false := hopen
  have hst : (s.toSequential A).storage = y :: ys := hst
  unfold recvStored
  split
  case h_1 u v rest hs =>
    rw [pop_stored_sender hopen hst hs]
    exact refines_serveSender hlinks h ht hs rfl (ys ++ [v])
  case h_2 hs =>
    rw [pop_stored hopen hst hs]
    exact refines_answer hlinks h ht ys _

/-- A receiving operation; `empty` is what it does without a value and without a sender. -/
theorem refines_popLocked (closed : OpResult V) (op : Receiving) {empty : Channel τ V}
    {empty' : SequentialChannel τ V} (hempty : Refines empty empty') :
    Refines (s.popLocked t closed op empty)
      ((s.toSequential A).pop t closed op.ok empty') := by
  unfold popLocked
  split
  case isTrue hclosed =>
    rw [pop_closed hclosed]
    exact refines_answer hlinks h ht s.storage _
  case isFalse hopen =>
    have hopen : (s.toSequential A).isClosed = false := Bool.eq_false_iff.mpr hopen
    split
    case h_1 hst =>
      split
      case h_1 u v rest hs =>
        rw [pop_sender hopen hst hs]
        exact refines_serveSender hlinks h ht hs rfl s.storage
      case h_2 hs =>
        rw [pop_empty hopen hst hs]
        exact hempty
    case h_2 y ys hst => exact refines_recvStored hlinks h ht hopen hst op _ _

theorem refines_recvLocked : Refines (s.recvLocked t) ((s.toSequential A).apply t .recv) := by
  rw [recvLocked_eq, SequentialChannel.apply]
  exact refines_popLocked hlinks h ht _ .recvIn (refines_parkReceiver hlinks h ht)

theorem refines_tryRecvInLocked :
    Refines (s.tryRecvInLocked t) ((s.toSequential A).apply t .tryRecvIn) := by
  rw [tryRecvInLocked_eq, SequentialChannel.apply]
  exact refines_popLocked hlinks h ht _ .tryRecvIn (refines_answer hlinks h ht s.storage _)

end Locked

/-! ### `close` -/

section Close

variable [DecidableEq V] {s : Channel τ V} {A : τ → List (OpResult V)}

theorem drainSenders_spec : ∀ (l : List (τ × V)) (s : Channel τ V), Safe s → s.senders = l →
    ∃ pc ready, drainSenders l s = { s with senders := [], pc := pc, ready := ready } ∧
      (∀ u v, (u, v) ∈ l → pc u = .sendParked .wokenByClose v) ∧
      ∀ u, u ∉ l.map Prod.fst → pc u = s.pc u
  | [], s, _, hs => by
    have hsame : { s with senders := [] } = s := by rw [← hs]
    exact ⟨s.pc, s.ready, hsame.symm, nofun, fun _ _ => rfl⟩
  | (u, x) :: rest, s, h, hs => by
    rw [drainSenders, (h.writeSendState_eq hs).2]
    obtain ⟨pc, ready, heq, htold, hothers⟩ := drainSenders_spec rest _ (h.drainSender hs) rfl
    have hrest : u ∉ rest.map Prod.fst := by
      have hle := h.links.queued_le_one u
      simp only [queued, hs, List.map_cons, count_cons_eq_oneAt, oneAt_self] at hle
      exact List.count_eq_zero.mp (by omega)
    refine ⟨pc, ready, heq, fun w v hw => ?_, fun w hw => ?_⟩
    · rcases List.mem_cons.mp hw with heq | hw
      · obtain ⟨rfl, rfl⟩ := Prod.mk.inj heq
        exact (hothers w hrest).trans (Function.update_self ..)
      · exact htold w v hw
    · obtain ⟨hwu, hw⟩ := not_or.mp (mt List.mem_cons.mpr hw)
      exact (hothers w hw).trans (Function.update_of_ne hwu _ _)

theorem drainReceivers_spec : ∀ (l : List τ) (s : Channel τ V), Safe s → s.receivers = l →
    ∃ pc ready, drainReceivers l s = { s with receivers := [], pc := pc, ready := ready } ∧
      (∀ u ∈ l, pc u = .recvParked .wokenByClose none) ∧ ∀ u, u ∉ l → pc u = s.pc u
  | [], s, _, hr => by
    have hsame : { s with receivers := [] } = s := by rw [← hr]
    exact ⟨s.pc, s.ready, hsame.symm, nofun, fun _ _ => rfl⟩
  | r :: rest, s, h, hr => by
    rw [drainReceivers, (h.writeRecvState_eq hr).2]
    obtain ⟨pc, ready, heq, htold, hothers⟩ := drainReceivers_spec rest _ (h.drainReceiver hr) rfl
    have hrest : r ∉ rest := by
      have hle := h.links.queued_le_one r
      simp only [queued, hr, count_cons_eq_oneAt, oneAt_self] at hle
      exact List.count_eq_zero.mp (by omega)
    refine ⟨pc, ready, heq, fun w hw => ?_, fun w hw => ?_⟩
    · rcases List.mem_cons.mp hw with rfl | hw
      · exact (hothers w hrest).trans (Function.update_self ..)
      · exact htold w hw
    · obtain ⟨hwr, hw⟩ := not_or.mp (mt List.mem_cons.mpr hw)
      exact (hothers w hw).trans (Function.update_of_ne hwr _ _)

/-- What `close` does: whoever is in a queue is told, and nobody else moves. -/
theorem closeLocked_spec (h : Safe s) (t : τ) :
    ∃ pc ready, s.closeLocked t =
      { s with isClosed := true, senders := [], receivers := [], pc := pc, ready := ready } ∧
      pc t = .idle ∧
      (∀ u v, u ≠ t → (u, v) ∈ s.senders → pc u = .sendParked .wokenByClose v) ∧
      (∀ u, u ≠ t → u ∈ s.receivers → pc u = .recvParked .wokenByClose none) ∧
      ∀ u, u ≠ t → u ∉ s.senders.map Prod.fst → u ∉ s.receivers → pc u = s.pc u := by
  have hclosed : Safe { s with isClosed := true } := ⟨h.links, h.noStray, h.conserved⟩
  obtain ⟨hsafe, hreceivers, -⟩ := Safe.drainSenders s.senders _ hclosed rfl
  obtain ⟨pc, ready, heq, htold, hothers⟩ := drainSenders_spec s.senders _ hclosed rfl
  obtain ⟨pc', ready', heq', htold', hothers'⟩ := drainReceivers_spec s.receivers _ hsafe hreceivers
  have hpc : (drainSenders s.senders { s with isClosed := true }).pc = pc := by rw [heq]
  rw [hpc] at hothers'
  refine ⟨Function.update pc' t .idle, ready', ?_, Function.update_self .., ?_, ?_, ?_⟩
  · rw [closeLocked, heq', heq]
    rfl
  · intro u v hut hu
    -- A sender is no receiver.
    have hr : u ∉ s.receivers := by
      intro hmem
      cases ((h.links.served u).sender v hu).symm.trans ((h.links.served u).receiver hmem)
    rw [Function.update_of_ne hut, hothers' u hr, htold u v hu]
  · intro u hut hu
    rw [Function.update_of_ne hut, htold' u hu]
  · intro u hut hs hr
    rw [Function.update_of_ne hut, hothers' u hr, hothers u hs]

theorem refines_closeLocked (hsafe : Safe s)
    (h : Answered s.senders s.receivers s.pc s.results A) (ht : s.pc t = .close) :
    Refines (s.closeLocked t) ((s.toSequential A).apply t .close) := by
  have hone (u : τ) : (s.senders.map Prod.fst).count u + s.receivers.count u ≤ 1 :=
    hsafe.links.queued_le_one u
  have hzero := hsafe.links.queued_eq_zero (t := t) (by rw [ht]; rfl)
  have hparked {u : τ} (hu : (s.pc u).parked = 1) : u ≠ t := ne_of_parked (by rw [ht]; rfl) hu
  obtain ⟨pc, ready, heq, hidle, hsenders, hreceivers, hothers⟩ := closeLocked_spec hsafe t
  rw [heq]
  -- Whoever is in no queue gets no answer.
  have hnone {u : τ} (hs : u ∉ s.senders.map Prod.fst) (hr : u ∉ s.receivers) :
      ((s.toSequential A).apply t .close).answers u = A u := by
    show A u ++ closeAnswers s.senders s.receivers u = A u
    rw [closeAnswers_of_not_mem hs hr, List.append_nil]
  suffices hanswered : Answered [] [] pc s.results ((s.toSequential A).apply t .close).answers from
    ⟨rfl, hanswered⟩
  refine h.next hsafe.links
    (fun u => u = t ∨ u ∈ s.senders.map Prod.fst ∨ u ∈ s.receivers) ?_ fun u hu => ?_
  · rintro u (rfl | hu | hu)
    · obtain ⟨hs, hr⟩ := not_mem_of_queued_eq_zero hzero
      refine ⟨[], [], .place hzero (by rw [ht]; rfl), .place rfl (by rw [hidle]; rfl), fun hA => ?_⟩
      rw [hnone hs hr, hA]
    · obtain ⟨⟨u, v⟩, hmem, rfl⟩ := List.mem_map.mp hu
      have hpc := (hsafe.links.served u).sender v hmem
      have hut := hparked (u := u) (by rw [hpc]; rfl)
      refine ⟨[], [.send (.closed v)], .queued (queued_pos_of_mem_senders hmem),
        .place rfl (by rw [hsenders u v hut hmem]; rfl), fun hA => ?_⟩
      show A u ++ closeAnswers s.senders s.receivers u = _
      rw [closeAnswers_of_sender hmem (hone u), hA, List.append_nil]
    · have hpc := (hsafe.links.served u).receiver hu
      have hut := hparked (u := u) (by rw [hpc]; rfl)
      refine ⟨[], [.recvIn .closed none], .queued (queued_pos_of_mem_receivers hu),
        .place rfl (by rw [hreceivers u hut hu]; rfl), fun hA => ?_⟩
      show A u ++ closeAnswers s.senders s.receivers u = _
      rw [closeAnswers_of_receiver hu (hone u), hA, List.append_nil]
  · obtain ⟨hut, hu⟩ := not_or.mp hu
    obtain ⟨hs, hr⟩ := not_or.mp hu
    refine ⟨?_, hothers u hut hs hr, fun p v op hp => ?_, rfl, hnone hs hr⟩
    · simp [queued, List.count_eq_zero.mpr hs, List.count_eq_zero.mpr hr]
    · -- The task that has a value for `u` is in no queue either.
      have hpt : p ≠ t := by
        rintro rfl
        cases ht.symm.trans hp
      have hqueued := hsafe.links.queued_eq_zero (t := p) (by rw [hp]; rfl)
      obtain ⟨hps, hpr⟩ := not_mem_of_queued_eq_zero hqueued
      rw [hothers p hpt hps hpr, hp]

end Close

/-! ### Whole runs -/

section Runs

variable [DecidableEq V] {s s' : Channel τ V} {A : τ → List (OpResult V)}

theorem refines_locked (hsafe : Safe s) (h : Answered s.senders s.receivers s.pc s.results A)
    (hstep : s.locked t = some s') : ∃ op, (s.pc t).called = some op ∧
      Refines s' ((s.toSequential A).apply t op) := by
  unfold locked at hstep
  split at hstep
  case h_1 v ht =>
    refine ⟨.send v, by rw [ht]; rfl, Option.some.inj hstep ▸ ?_⟩
    exact refines_sendLocked hsafe.links h (atStart_of_eq (.send v) ht) v
  case h_2 ht =>
    refine ⟨.recv, by rw [ht]; rfl, Option.some.inj hstep ▸ ?_⟩
    exact refines_recvLocked hsafe.links h (atStart_of_eq .recv ht)
  case h_3 v ht =>
    refine ⟨.trySend v, by rw [ht]; rfl, Option.some.inj hstep ▸ ?_⟩
    exact refines_trySendLocked hsafe.links h (atStart_of_eq (.trySend v) ht) v
  case h_4 ht =>
    refine ⟨.tryRecvIn, by rw [ht]; rfl, Option.some.inj hstep ▸ ?_⟩
    exact refines_tryRecvInLocked hsafe.links h (atStart_of_eq .tryRecvIn ht)
  case h_5 ht =>
    refine ⟨.close, by rw [ht]; rfl, Option.some.inj hstep ▸ ?_⟩
    exact refines_closeLocked hsafe h ht
  case h_6 => cases hstep

/-- How many steps a task at this place has before it, apart from the poll of the task that it
serves. -/
def Pc.work : Pc τ V → ℕ
  | .copyTo _ _ _ => 4
  | .copyFrom _ _ _ => 4
  | .tellReceiver _ _ => 3
  | .tellSender _ _ _ => 3
  | .execReceiver _ _ => 2
  | .execSender _ _ _ => 2
  | _ => 0

/-- What a step after the critical section can do: the task accesses the future of another one, to
which the same is due as before, or it returns what is due to it. -/
inductive Unlocks (s : Channel τ V) (t : τ) : Channel τ V → Prop
  | access {k b : Pc τ V} {r : τ} {res : OpResult V} {l : List (OpResult V)}
    (parked : (s.pc t).parked = 0) (due : (s.pc t).due = some [res]) (place : k.due = some [res])
    (copies : ∀ u v op, s.pc t = .copyTo u v op → u = r) (task : (s.pc r).parked = 1)
    (stays : b.parked = 1) (before : Due s.senders s.receivers s.pc r l)
    (after : Due s.senders s.receivers (Function.update (Function.update s.pc r b) t k) r l)
    (work : k.work < (s.pc t).work) : Unlocks s t ((s.goto r b).goto t k)
  | ret {r : τ} {res : OpResult V} (parked : (s.pc t).parked = 0)
    (due : (s.pc t).due = some [res]) (copies : ∀ u v op, s.pc t ≠ .copyTo u v op)
    (work : (s.pc t).work = 2) : Unlocks s t ((s.wake r).ret t res)

omit [DecidableEq V] in
/-- A task tells another one whose place then says what is due to it. -/
theorem unlocks_tell
    (hlinks : Links s.senders s.receivers s.pc s.ready s.parkings s.resumptions)
    (hx : (s.pc t).PointsTo r) (hcopy : ∀ u v op, s.pc t ≠ .copyTo u v op) {res : OpResult V}
    (hdue : (s.pc t).due = some [res]) (hk : k.due = some [res]) (hr : (s.pc r).parked = 1)
    (hb : b.parked = 1) (hsame : ∃ l, (s.pc r).due = some l ∧ b.due = some l)
    (hwork : k.work < (s.pc t).work) : Unlocks s t ((s.goto r b).goto t k) := by
  obtain ⟨l, hbefore, hafter⟩ := hsame
  have htr : r ≠ t := ne_of_parked hx.parked hr
  have hqueued : queued s.senders s.receivers r = 0 :=
    hlinks.queued_eq_zero_of_refersTo (p := t) (by rw [hx.refersTo, oneAt_self]; exact one_ne_zero)
  refine .access hx.parked hdue hk (fun u v op h => absurd h (hcopy u v op)) hr hb
    (.place hqueued hbefore) (.place hqueued ?_) hwork
  rw [Function.update_of_ne htr, Function.update_self, hafter]

theorem unlocks_of_unlocked (hsafe : Safe s) (hstep : s.unlocked t = some s') :
    Unlocks s t s' := by
  have hlinks := hsafe.links
  cases hsafe.serves hstep with
  | @copyTo r _ _ ht hr =>
    have htr : r ≠ t := by
      rintro rfl
      cases hr.symm.trans ht
    have hqueued := hlinks.queued_eq_zero_of_refersTo (refersTo_copyTo ht)
    refine .access (by rw [ht]; rfl) (by rw [ht]; rfl) rfl ?_ (by rw [hr]; rfl) rfl (.copied ht)
      (.place hqueued ?_) (by rw [ht]; exact Nat.lt_succ_self _)
    · intro u v' op' h
      cases ht.symm.trans h
      rfl
    · rw [Function.update_of_ne htr, Function.update_self]
      rfl
  | tellReceiver ht hr | copyFrom ht hr | tellSender ht hr =>
    exact unlocks_tell hlinks (by rw [ht]; exact ⟨rfl, fun _ => rfl⟩) (by simp [ht])
      (by rw [ht]; rfl) rfl (by rw [hr]; rfl) rfl ⟨_, by rw [hr]; rfl, rfl⟩
      (by rw [ht]; exact Nat.lt_succ_self _)
  | execReceiver ht | execSender ht =>
    exact .ret (by rw [ht]; rfl) (by rw [ht]; rfl) (by simp [ht]) (by rw [ht]; rfl)

/-- A task that was given to an executor returns what is due to it when it is polled. -/
theorem resume_of_ready (hsafe : Safe s) (hready : s.ready t ≠ 0) :
    queued s.senders s.receivers t = 0 ∧ (s.pc t).parked = 1 ∧ ∃ res,
      (s.pc t).due = some [res] ∧ s.resume t = { s with
        ready := Function.update s.ready t (s.ready t - 1)
        resumptions := Function.update s.resumptions t (s.resumptions t + 1) }.ret t res := by
  have hwoken := (hsafe.links.served t).woken hready
  have hqueued : queued s.senders s.receivers t = 0 := by
    have hrefs := hsafe.links.refs_eq t
    have hle := Pc.parked_le_one (s.pc t)
    unfold refs at hrefs
    omega
  refine ⟨hqueued, Pc.parked_of_woken hwoken, ?_⟩
  unfold resume
  generalize hpc : s.pc t = b at hwoken
  cases hwoken with
  | sender | closedSender | receiver | closedReceiver => exact ⟨_, rfl, by simp only [hpc]⟩

omit [DecidableEq τ] [Fintype τ] [DecidableEq V] in
theorem ne_copyTo_of_parked (h : (pc t).parked = 1) (u : τ) (v : V) (op : Sending) :
    pc t ≠ .copyTo u v op := by
  intro heq
  rw [heq] at h
  cases h

/-- **Every step of the channel is one of the sequential channel, or none.** -/
theorem refines_step {calls : List (τ × Op V)} {capacity : ℕ} (hsafe : Safe s)
    (h : Refines s (SequentialChannel.run capacity calls)) {act : Action τ V}
    (hlock : ∀ t, act ≠ .lockFails t) (hstep : s.step act = some s') :
    Refines s' (SequentialChannel.run capacity (calls ++ takesEffect s act)) := by
  obtain ⟨hcontent, hanswered⟩ := h
  have hlinks := hsafe.links
  set A := (SequentialChannel.run capacity calls).answers with hA
  cases act with
  | call t op =>
    simp only [step] at hstep
    split at hstep
    case h_1 ht =>
      obtain rfl := Option.some.inj hstep
      have hlog : takesEffect s (.call t op) = [] := rfl
      rw [hlog, List.append_nil]
      exact ⟨hcontent, hanswered.call hlinks ht op⟩
    case h_2 => cases hstep
  | lockFails t => exact absurd rfl (hlock t)
  | locked t =>
    obtain ⟨op, hcalled, hrefines⟩ := refines_locked hsafe hanswered hstep
    have hlog : takesEffect s (.locked t) = [(t, op)] := by
      rw [takesEffect, hcalled]
      rfl
    rw [hlog, run_concat, hcontent]
    exact hrefines
  | unlocked t =>
    have hlog : takesEffect s (.unlocked t) = [] := rfl
    rw [hlog, List.append_nil]
    cases unlocks_of_unlocked hsafe hstep with
    | access parked due place copies task stays before after work =>
      exact ⟨hcontent, hanswered.access hlinks rfl parked due place copies task before after⟩
    | ret parked due copies work =>
      exact ⟨hcontent, hanswered.ret hlinks (hlinks.queued_eq_zero parked) due copies
        (fun _ h => h) fun _ _ => rfl⟩
  | resume t =>
    have hlog : takesEffect s (.resume t) = [] := rfl
    rw [hlog, List.append_nil]
    obtain ⟨hready, hstep⟩ := Option.ite_none_left_eq_some.mp hstep
    obtain ⟨hqueued, hparked, res, hdue, heq⟩ := resume_of_ready hsafe hready
    obtain rfl := Option.some.inj hstep
    rw [heq]
    exact ⟨hcontent, hanswered.ret hlinks hqueued hdue (ne_copyTo_of_parked hparked)
      (fun _ h => h) fun _ _ => rfl⟩

/-- **`Channel` refines the sequential channel**, in every interleaving in which nobody finds the
lock taken. -/
theorem refines_of_reach {capacity : ℕ} {x : Channel τ V × List (τ × Op V)}
    (h : ReachesCalls capacity x) : Refines x.1 (SequentialChannel.run capacity x.2) := by
  refine Reach.invariant (I := fun x : Channel τ V × List (τ × Op V) =>
    Refines x.1 (SequentialChannel.run capacity x.2)) ?_ ?_ h
  · exact ⟨rfl, fun u => ⟨[], .place rfl rfl, rfl⟩⟩
  · intro x act y hreach hrefines hlock hstep
    obtain ⟨hs, hlog⟩ := step_of_stepCalls hstep
    rw [hlog]
    exact refines_step (safe_of_reachable (reachable_of_reachesCalls hreach)) hrefines hlock hs

/-! ### When no task is left to run -/

/-- No task is in the middle of an operation, and no task waits for an executor. -/
def Quiet (s : Channel τ V) : Prop :=
  ∀ t, s.ready t = 0 ∧ (s.pc t = .idle ∨ (s.pc t).parked = 1)

/-- What is seen of the channel: an operation is pending as long as its task is inside it. -/
def observed (s : Channel τ V) : Observed τ V where
  results := resultsOf s.results
  pending t := s.pc t ≠ .idle
  storage := s.storage
  isClosed := s.isClosed
  senders := s.senders
  receivers := s.receivers

/-- Nothing is due to anybody, and the channel shows what the sequential channel shows. -/
theorem observed_of_quiet {capacity : ℕ} {x : Channel τ V × List (τ × Op V)}
    (h : ReachesCalls capacity x) (hquiet : Quiet x.1) :
    x.1.observed = (SequentialChannel.run capacity x.2).observed := by
  obtain ⟨hcontent, hanswered⟩ := refines_of_reach h
  have hlinks := (safe_of_reachable (reachable_of_reachesCalls h)).links
  -- Nobody refers to a parked task any more but the queues.
  have htally (t : τ) : tally (Pc.refersTo t) x.1.pc = 0 := by
    refine tally_eq_zero_iff.mpr fun p => ?_
    rcases (hquiet p).2 with hp | hp
    · rw [hp]
      rfl
    · exact Pc.refersTo_of_parked hp t
  have hqueued (t : τ) : queued x.1.senders x.1.receivers t = (x.1.pc t).parked := by
    have hrefs := hlinks.refs_eq t
    rw [refs, htally, (hquiet t).1] at hrefs
    exact hrefs
  rw [hcontent]
  refine Observed.ext (funext fun t => ?_) (funext fun t => propext ?_) rfl rfl rfl rfl
  · obtain ⟨l, hdue, hA⟩ := hanswered t
    refine Eq.trans ?_ hA.symm
    show resultsOf x.1.results t = _
    have hnil : Due x.1.senders x.1.receivers x.1.pc t [] := by
      rcases (hquiet t).2 with ht | ht
      · exact .place (by rw [hqueued, ht]; rfl) (by rw [ht]; rfl)
      · exact .queued (by rw [hqueued, ht]; exact Nat.one_pos)
    rw [hdue.unique hlinks hnil, List.append_nil]
  · show x.1.pc t ≠ .idle ↔ t ∈ x.1.senders.map Prod.fst ∨ t ∈ x.1.receivers
    rw [← List.count_pos_iff, ← List.count_pos_iff, ← Nat.add_pos_iff_pos_or_pos]
    show _ ↔ 0 < queued x.1.senders x.1.receivers t
    rw [hqueued]
    rcases (hquiet t).2 with ht | ht
    · simp [ht, Pc.parked]
    · rw [ht]
      refine ⟨fun _ => Nat.one_pos, fun _ hidle => ?_⟩
      rw [hidle] at ht
      cases ht

end Runs

end Refs

end Orengine.Sync.Channel
