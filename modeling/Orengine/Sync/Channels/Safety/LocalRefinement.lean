import Orengine.Sync.Channels.Safety.Close
import Orengine.Sync.Channels.Sequential

/-!
# `LocalChannel` refines the sequential channel

An operation of a `LocalChannel` that serves a parked task answers it only when that task is polled,
nested inside the operation or later, and the operation itself returns after that.  `Due` says what
the channel owes to a task.  `refines_of_reaches`: what a task has got together with what is due to
it is what the sequential channel has answered, after the operations in the order in which they were
made.

`Tidy` is about the tasks that await a future: whoever is in a queue or in the drain of a `close`
has been polled once, and everybody else who awaits a future was told and is about to be polled.  So
when no task is left to run nothing is due (`observed_of_idle`).
-/

namespace Orengine.Sync

open Orengine.Runtime Orengine.Lib SequentialChannel

/-- What is due to a task that awaits this future. -/
def Waiting.due {V : Type*} (isClosed : Bool) : Waiting V → List (OpResult V)
  | .send .firstCall v => if isClosed then [.send (.closed v)] else []
  | .recv .firstCall _ => if isClosed then [.recvIn .closed none] else []
  | w => [w.closedAnswer]

theorem Waiting.due_closed {V : Type*} (w : Waiting V) : w.due true = [w.closedAnswer] := by
  cases w with
  | send state | recv state => cases state <;> rfl

theorem Waiting.due_of_told {V : Type*} {w : Waiting V} (h : ¬w.IsFirstCall) (isClosed : Bool) :
    w.due isClosed = [w.closedAnswer] := by
  cases w with
  | send state | recv state =>
    cases state with
    | firstCall => exact absurd rfl h
    | wokenToReturnReady | wokenByClose => rfl

theorem Waiting.due_of_firstCall {V : Type*} {w : Waiting V} (h : w.IsFirstCall) :
    w.due false = [] := by
  cases w with
  | send state | recv state =>
    obtain rfl : state = .firstCall := h
    rfl

theorem Waiting.closedAnswer_byClose {V : Type*} {w : Waiting V} (h : w.IsFirstCall) :
    w.byClose.closedAnswer = w.closedAnswer := by
  cases w with
  | send state | recv state =>
    obtain rfl : state = .firstCall := h
    rfl

namespace LocalChannel

variable {τ V : Type*} [DecidableEq τ]

/-! ### The operations in their order -/

/-- The operation that a task calls, if it does not just go on. -/
def Op.called : Op V → Option (Channel.Op V)
  | .send v => some (.send v)
  | .recv => some .recv
  | .trySend v => some (.trySend v)
  | .tryRecvIn => some .tryRecvIn
  | .close => some .close
  | .go => none

/-- The operations that were called, in their order. -/
def noteCall (_ : LocalChannel τ V) (t : τ) (_ : Place τ V) (op : Op V)
    (calls : List (τ × Channel.Op V)) : List (τ × Channel.Op V) :=
  calls ++ (op.called.map fun op => (t, op)).toList

/-- The channel with the operations that were called. -/
abbrev called : Primitive τ (LocalChannel τ V × List (τ × Channel.Op V)) (Place τ V) (Op V) :=
  primitive.record noteCall

/-- The executor that runs the tasks of a channel, with the operations that were called. -/
abbrev Calls (τ V : Type*) :=
  Executor τ (World τ (LocalChannel τ V × List (τ × Channel.Op V))) (Place τ V)

/-! ### The tasks that await a future -/

/-- The tasks in the queues and the futures that they await. -/
def parked (c : LocalChannel τ V) : List (τ × Waiting V) :=
  c.senders.map (fun x => (x.1, .send .firstCall x.2)) ++
    c.receivers.map fun u => (u, .recv .firstCall none)

/-- The tasks in the drain of a `close` and the futures that they await. -/
def drained : Place τ V → List (τ × Waiting V)
  | .closeSenders rest => rest.map fun x => (x.1, .send .firstCall x.2)
  | .closeReceivers rest => rest.map fun u => (u, .recv .firstCall none)
  | _ => []

theorem holds_pos_of_parked {c : LocalChannel τ V} {x : τ × Waiting V} (h : x ∈ parked c) :
    0 < holds c x.1 := by
  rcases List.mem_append.mp h with h | h
  · obtain ⟨y, hy, rfl⟩ := List.mem_map.mp h
    exact holds_pos_of_sender hy
  · obtain ⟨u, hu, rfl⟩ := List.mem_map.mp h
    exact holds_pos_of_receiver hu

variable {k : Place τ V}

theorem held_pos_of_drained {x : τ × Waiting V} (h : x ∈ drained k) : 0 < held k x.1 := by
  cases k with
  | closeSenders rest =>
    obtain ⟨y, hy, rfl⟩ := List.mem_map.mp h
    exact List.count_pos_iff.mpr (List.mem_map_of_mem hy)
  | closeReceivers rest =>
    obtain ⟨u, hu, rfl⟩ := List.mem_map.mp h
    exact List.count_pos_iff.mpr hu
  | poll | user | finish => cases h

/-- What is known of the tasks that await a future of the channel. -/
structure Tidy (c : LocalChannel τ V) (e : Calls τ V) : Prop where
  parked : ∀ x ∈ parked c, c.waiting x.1 = some x.2
  drained : ∀ f ∈ e.stack, ∀ x ∈ drained f.2, c.waiting x.1 = some x.2
  /-- A task awaits no future inside an operation or between two. -/
  inside : ∀ f ∈ e.stack, f.2 ≠ .poll → c.waiting f.1 = none
  /-- A task that awaits a future is in a queue or in a drain, or was told and is about to be
  polled. -/
  accounted : ∀ u w, c.waiting u = some w → (u, w) ∈ LocalChannel.parked c ∨
    (∃ f ∈ e.stack, (u, w) ∈ LocalChannel.drained f.2) ∨
    e.Scheduled called.program u ∧ ¬w.IsFirstCall

/-! ### What an operation can do -/

/-- The operation at this place returns `r` now. -/
inductive Returns (c : LocalChannel τ V) (t : τ) : Place τ V → OpResult V → Prop
  | finish (r : OpResult V) : Returns c t (.finish r) r
  | user (r : OpResult V) : Returns c t .user r
  | poll {w : Waiting V} (hw : c.waiting t = some w) (htold : ¬w.IsFirstCall) :
    Returns c t .poll w.closedAnswer

/-- What the code of `t` at a place does to the tasks that await a future, and what the answers `A`
of the sequential channel become. -/
inductive Effect (c : LocalChannel τ V) (t : τ) (A : τ → List (OpResult V)) :
    Place τ V → LocalChannel τ V → Outcome τ (Place τ V) → (τ → List (OpResult V)) → Prop
  /-- Tasks are taken from the queues to a drain, if at all. -/
  | goto {k k' : Place τ V} {c' : LocalChannel τ V} {A' : τ → List (OpResult V)}
    (poll : k = .poll → c.waiting t = none) (hk : ∀ r, k ≠ .finish r)
    (place : k' ≠ .poll ∧ ∀ r, k' ≠ .finish r)
    (waiting : c'.waiting = c.waiting) (results : c'.results = c.results)
    (tasks : ∀ x, x ∈ parked c ∨ x ∈ drained k ↔ x ∈ parked c' ∨ x ∈ drained k')
    (answers : ∀ u, (c.waiting u = none → A' u = A u) ∧ ∀ w rs, c.waiting u = some w →
      A u = rs ++ w.due c.isClosed → A' u = rs ++ w.due c'.isClosed) :
    Effect c t A k c' (.goto k') A'
  | ret {k : Place τ V} {c' : LocalChannel τ V} {r : OpResult V} {A' : τ → List (OpResult V)}
    (returns : Returns c t k r) (waiting : c'.waiting = Function.update c.waiting t none)
    (results : c'.results = c.results ++ [(t, r)]) (closed : c'.isClosed = c.isClosed)
    (tasks : parked c' = parked c) (self : A' t = if k.isUser then A t ++ [r] else A t)
    (answers : ∀ u, u ≠ t → A' u = A u) :
    Effect c t A k c' (.goto .user) A'
  /-- `u` is taken from the queues and told, and the operation will return `r`. -/
  | serve {c' : LocalChannel τ V} {u : τ} {w w' : Waiting V} {r : OpResult V}
    {A' : τ → List (OpResult V)} (opened : c.isClosed = false) (task : (u, w) ∈ parked c)
    (firstCall : w.IsFirstCall) (waiting : c'.waiting = Function.update c.waiting u (some w'))
    (told : ¬w'.IsFirstCall) (results : c'.results = c.results) (closed : c'.isClosed = c.isClosed)
    (tasks : ∀ x ∈ parked c', x ∈ parked c) (others : ∀ x ∈ parked c, x.1 ≠ u → x ∈ parked c')
    (self : A' t = A t ++ [r]) (server : A' u = A u ++ [w'.closedAnswer])
    (answers : ∀ v, v ≠ t → v ≠ u → A' v = A v) :
    Effect c t A .user c' (.execTask u (.finish r)) A'
  /-- `u` is taken from the drain and told. -/
  | drain {k k' : Place τ V} {c' : LocalChannel τ V} {u : τ} {w : Waiting V}
    (isClosed : c.isClosed = true) (task : drained k = (u, w) :: drained k')
    (hk : k ≠ .poll) (place : k' ≠ .poll ∧ ∀ r, k' ≠ .finish r) (firstCall : w.IsFirstCall)
    (waiting : c'.waiting = Function.update c.waiting u (some w.byClose))
    (results : c'.results = c.results) (closed : c'.isClosed = c.isClosed)
    (tasks : parked c' = parked c) :
    Effect c t A k c' (.execTask u k') A
  /-- The task waits in a queue. -/
  | park {c' : LocalChannel τ V} {w : Waiting V} (opened : c.isClosed = false)
    (firstCall : w.IsFirstCall) (waiting : c'.waiting = Function.update c.waiting t (some w))
    (results : c'.results = c.results) (closed : c'.isClosed = c.isClosed)
    (tasks : ∀ x, x ∈ parked c' ↔ x ∈ parked c ∨ x = (t, w)) :
    Effect c t A .user c' .returned A

/-- What the ownership law says about the task `t` of the innermost poll, which is at `k`. -/
structure Owned (c : LocalChannel τ V) (t : τ) (k : Place τ V) (rest : List (τ × Place τ V)) :
    Prop where
  task : ∀ f ∈ rest, f.1 ≠ t
  parked : ∀ w, (t, w) ∉ parked c
  drained : ∀ f ∈ (t, k) :: rest, ∀ w, (t, w) ∉ drained f.2
  /-- A task in the queues or in the drain of this place is in no other drain. -/
  other : ∀ u w, (u, w) ∈ LocalChannel.parked c ∨ (u, w) ∈ LocalChannel.drained k →
    ∀ f ∈ rest, ∀ w, (u, w) ∉ LocalChannel.drained f.2

theorem owned_of_total {e : Calls τ V}
    (h : ∀ u, (custody.record noteCall).ownership.total e u ≤ 1) {t : τ}
    {rest : List (τ × Place τ V)} (hs : e.stack = (t, k) :: rest) :
    Owned e.state.memory.1 t k rest where
  task f hf := (custody.record noteCall).ownership.ne_of_mem_rest h hs hf
  parked w hw := by
    have hzero := (custody.record noteCall).ownership.holds_running_eq_zero h hs
    have hpos : 0 < holds e.state.memory.1 t := holds_pos_of_parked hw
    have hholds : holds e.state.memory.1 t = 0 := Nat.eq_zero_of_add_eq_zero_right hzero
    omega
  drained f hf w hw := by
    have hzero := (custody.record noteCall).ownership.held_running_eq_zero h hs (hs ▸ hf)
    have hpos : 0 < held f.2 t := held_pos_of_drained hw
    have hheld : held f.2 t = 0 := hzero
    omega
  other u w huw f hf w' hw' := by
    have hle := h u
    have hsum : held f.2 u ≤ (rest.map fun f => held f.2 u).sum :=
      List.le_sum_of_mem (List.mem_map_of_mem (f := fun f : τ × Place τ V => held f.2 u) hf)
    have hpos : 0 < held f.2 u := held_pos_of_drained hw'
    have hholds : 0 < holds e.state.memory.1 u + held k u := by
      rcases huw with hmem | hmem
      · have := holds_pos_of_parked hmem
        exact Nat.add_pos_left this _
      · have := held_pos_of_drained hmem
        exact Nat.add_pos_right _ this
    simp only [Ownership.total, Custody.ownership, Custody.worldHolds, Custody.record, custody, hs,
      List.map_cons, List.sum_cons] at hle
    omega

/-- A task that an operation executes is neither in the queues nor in the drain any more. -/
theorem not_mem_of_execTask {e : Calls τ V}
    (h : ∀ u, (custody.record noteCall).ownership.total e u ≤ 1) {t u : τ} {k' : Place τ V}
    {rest : List (τ × Place τ V)} (hs : e.stack = (t, k) :: rest) {op : Op V}
    {c' : LocalChannel τ V} (hcode : e.state.memory.1.code t k op = some (c', .execTask u k'))
    (w : Waiting V) : (u, w) ∉ parked c' ∧ (u, w) ∉ drained k' := by
  have hle := h u
  have hcount := code_le hcode u
  simp only [Ownership.total, Custody.ownership, Custody.worldHolds, Custody.record, custody, hs,
    List.map_cons, List.sum_cons, count_cons_eq_oneAt] at hle
  simp only [Outcome.places, oneAt_self] at hcount
  refine ⟨fun hmem => ?_, fun hmem => ?_⟩
  · have hpos : 0 < holds c' u := holds_pos_of_parked hmem
    omega
  · have hpos : 0 < held k' u := held_pos_of_drained hmem
    omega

namespace Tidy

variable {c c' : LocalChannel τ V} {e e' : Calls τ V} {t : τ} {k : Place τ V}
  {rest : List (τ × Place τ V)} {o : Outcome τ (Place τ V)}

theorem carries (h : Tidy c e) (hcarries : Primitive.Carries called e e') : Tidy c e' := by
  refine ⟨h.parked, fun f hf => ?_, fun f hf hne => ?_, fun u w hw => ?_⟩
  · rcases hcarries.entered f hf with hf | hf
    · exact h.drained f hf
    · rw [hf]
      exact nofun
  · rcases hcarries.entered f hf with hf | hf
    · exact h.inside f hf hne
    · exact absurd hf hne
  · rcases h.accounted u w hw with hmem | ⟨f, hf, hmem⟩ | ⟨hscheduled, htold⟩
    · exact Or.inl hmem
    · refine Or.inr (Or.inl ⟨f, hcarries.kept f hf ?_, hmem⟩)
      -- The task's own code has nobody in a drain.
      cases hk : f.2 with
      | user =>
        rw [hk] at hmem
        cases hmem
      | _ => rfl
    · exact Or.inr (Or.inr ⟨hcarries.scheduled u hscheduled, htold⟩)

/-- An operation in terms of the frames: what is known about the place where it goes on and about
everybody's future is enough. -/
theorem frames (h : Tidy c e) (hs : e.stack = (t, k) :: rest)
    (hcont : Executor.Continues called.program e e' t k rest o)
    (hparked : ∀ x ∈ LocalChannel.parked c', c'.waiting x.1 = some x.2)
    (hplace : ∀ k' ∈ o.place, (∀ x ∈ LocalChannel.drained k', c'.waiting x.1 = some x.2) ∧
      c'.waiting t = none)
    (hrest : ∀ f ∈ rest, (∀ x ∈ LocalChannel.drained f.2, c'.waiting x.1 = c.waiting x.1) ∧
      (c.waiting f.1 = none → c'.waiting f.1 = none))
    (haccounted : ∀ u w, c'.waiting u = some w → (u, w) ∈ LocalChannel.parked c' ∨
      (∃ f ∈ e'.stack, (u, w) ∈ LocalChannel.drained f.2) ∨
      e'.Scheduled called.program u ∧ ¬w.IsFirstCall) : Tidy c' e' := by
  have hmem {f : τ × Place τ V} (hf : f ∈ rest) : f ∈ e.stack := Executor.mem_of_rest hs hf
  refine ⟨hparked, fun f hf x hx => ?_, fun f hf hne => ?_, haccounted⟩
  · rcases hcont.entered f hf with hf | ⟨k', hk', rfl⟩ | hf
    · rw [(hrest f hf).1 x hx]
      exact h.drained f (hmem hf) x hx
    · exact (hplace k' hk').1 x hx
    · rw [hf] at hx
      cases hx
  · rcases hcont.entered f hf with hf | ⟨k', hk', rfl⟩ | hf
    · exact (hrest f hf).2 (h.inside f (hmem hf) hne)
    · exact (hplace k' hk').2
    · exact absurd hf hne

/-- Where a task is that awaited a future, and whose future is as it was. -/
theorem kept (h : Tidy c e) (hs : e.stack = (t, k) :: rest)
    (hcont : Executor.Continues called.program e e' t k rest o) {u : τ} {w : Waiting V}
    (hw : c.waiting u = some w) (hut : k = .poll → u ≠ t) :
    ((u, w) ∈ LocalChannel.parked c ∨ (u, w) ∈ LocalChannel.drained k) ∨
    (∃ f ∈ e'.stack, (u, w) ∈ LocalChannel.drained f.2) ∨
    e'.Scheduled called.program u ∧ ¬w.IsFirstCall := by
  rcases h.accounted u w hw with hmem | ⟨f, hf, hmem⟩ | ⟨hscheduled, htold⟩
  · exact Or.inl (Or.inl hmem)
  · rw [hs] at hf
    rcases List.mem_cons.mp hf with rfl | hf
    · exact Or.inl (Or.inr hmem)
    · exact Or.inr (Or.inl ⟨f, hcont.kept f hf, hmem⟩)
  · refine Or.inr (Or.inr ⟨hcont.scheduled u ?_ hscheduled, htold⟩)
    intro heq
    obtain ⟨rfl, rfl⟩ := Prod.mk.inj heq
    exact hut rfl rfl

theorem others (h : Tidy c e) (howned : Owned c t k rest) {x : Option (Waiting V)}
    (hwaiting : c'.waiting = Function.update c.waiting t x) :
    (∀ u, u ≠ t → c'.waiting u = c.waiting u) ∧
    (∀ y ∈ LocalChannel.parked c, c'.waiting y.1 = some y.2) ∧
    ∀ f ∈ rest, (∀ y ∈ LocalChannel.drained f.2, c'.waiting y.1 = c.waiting y.1) ∧
      (c.waiting f.1 = none → c'.waiting f.1 = none) := by
  have hother (u : τ) (hu : u ≠ t) : c'.waiting u = c.waiting u := by
    rw [hwaiting, Function.update_of_ne hu]
  refine ⟨hother, ?_, fun f hf => ⟨?_, fun hnone => ?_⟩⟩
  · rintro ⟨u, w⟩ hy
    have hu : u ≠ t := by
      rintro rfl
      exact howned.parked w hy
    exact (hother u hu).trans (h.parked _ hy)
  · rintro ⟨u, w⟩ hy
    refine hother u ?_
    rintro rfl
    exact howned.drained f (List.mem_cons_of_mem _ hf) w hy
  · rw [hother _ (howned.task f hf)]
    exact hnone

/-- A task that is in the queues or in the drain of this place is told and executed. -/
theorem tell (h : Tidy c e) (hs : e.stack = (t, k) :: rest) (howned : Owned c t k rest)
    {u : τ} {w w' : Waiting V} {k' : Place τ V}
    (hcont : Executor.Continues called.program e e' t k rest (.execTask u k'))
    (htask : (u, w) ∈ LocalChannel.parked c ∨ (u, w) ∈ LocalChannel.drained k) (hk : k ≠ .poll)
    (hexec : e'.Scheduled called.program u ∧
      ∀ w, (u, w) ∉ LocalChannel.parked c' ∧ (u, w) ∉ LocalChannel.drained k')
    (hwaiting : c'.waiting = Function.update c.waiting u (some w')) (htold : ¬w'.IsFirstCall)
    (htasks : ∀ x, x ∈ LocalChannel.parked c' ∨ x ∈ LocalChannel.drained k' →
      x ∈ LocalChannel.parked c ∨ x ∈ LocalChannel.drained k)
    (hothers : ∀ x, x ∈ LocalChannel.parked c ∨ x ∈ LocalChannel.drained k → x.1 ≠ u →
      x ∈ LocalChannel.parked c' ∨ x ∈ LocalChannel.drained k') : Tidy c' e' := by
  have htop : (t, k) ∈ e.stack := Executor.mem_top hs
  obtain ⟨hscheduled, hgone⟩ := hexec
  have hother {v : τ} (hv : v ≠ u) : c'.waiting v = c.waiting v := by
    rw [hwaiting, Function.update_of_ne hv]
  have hu : c.waiting u = some w := by
    rcases htask with hmem | hmem
    · exact h.parked _ hmem
    · exact h.drained _ htop _ hmem
  have hnone {v : τ} (hv : c.waiting v = none) : v ≠ u := by
    rintro rfl
    cases hv.symm.trans hu
  have hknown (x : τ × Waiting V)
      (hx : x ∈ LocalChannel.parked c' ∨ x ∈ LocalChannel.drained k') :
      c'.waiting x.1 = some x.2 := by
    have hne : x.1 ≠ u := by
      rintro rfl
      rcases hx with hx | hx
      · exact (hgone x.2).1 hx
      · exact (hgone x.2).2 hx
    rw [hother hne]
    rcases htasks x hx with hx | hx
    · exact h.parked x hx
    · exact h.drained _ htop x hx
  have ht := h.inside _ htop hk
  refine h.frames hs hcont (fun x hx => hknown x (Or.inl hx)) ?_ ?_ ?_
  · rintro _ ⟨⟩
    exact ⟨fun x hx => hknown x (Or.inr hx), by rw [hother (hnone ht)]; exact ht⟩
  · intro f hf
    refine ⟨?_, fun hf' => ?_⟩
    · rintro ⟨v, w₀⟩ hx
      refine hother ?_
      rintro rfl
      exact howned.other v w htask f hf w₀ hx
    · rw [hother (hnone hf')]
      exact hf'
  · intro v w₀ hw
    by_cases hv : v = u
    · subst hv
      rw [hwaiting, Function.update_self] at hw
      cases hw
      exact Or.inr (Or.inr ⟨hscheduled, htold⟩)
    · rw [hother hv] at hw
      rcases h.kept hs hcont hw (fun hpoll => absurd hpoll hk) with hmem | hrest
      · rcases hothers (v, w₀) hmem hv with hmem | hmem
        · exact Or.inl hmem
        · exact Or.inr (Or.inl ⟨(t, k'), hcont.place k' rfl, hmem⟩)
      · exact Or.inr hrest

/-- **An operation keeps the tasks that await a future tidy.** -/
theorem effect (h : Tidy c e) (hs : e.stack = (t, k) :: rest) (howned : Owned c t k rest)
    {A A' : τ → List (OpResult V)}
    (hcont : Executor.Continues called.program e e' t k rest o)
    (hexec : ∀ u k', o = .execTask u k' → e'.Scheduled called.program u ∧
      ∀ w, (u, w) ∉ LocalChannel.parked c' ∧ (u, w) ∉ LocalChannel.drained k')
    (heffect : Effect c t A k c' o A') : Tidy c' e' := by
  have htop : (t, k) ∈ e.stack := Executor.mem_top hs
  cases heffect with
  | @goto k k' c' A' poll hk place waiting results tasks =>
    have hnone : c.waiting t = none := by
      by_cases hpoll : k = .poll
      · exact poll hpoll
      · exact h.inside _ htop hpoll
    have hknown (x : τ × Waiting V)
        (hx : x ∈ LocalChannel.parked c' ∨ x ∈ LocalChannel.drained k') :
        c.waiting x.1 = some x.2 := by
      rcases (tasks x).mpr hx with hx | hx
      · exact h.parked x hx
      · exact h.drained _ htop x hx
    refine h.frames hs hcont ?_ ?_ ?_ ?_
    · intro x hx
      rw [waiting]
      exact hknown x (Or.inl hx)
    · rintro _ ⟨⟩
      rw [waiting]
      exact ⟨fun x hx => hknown x (Or.inr hx), hnone⟩
    · intro f hf
      rw [waiting]
      exact ⟨fun _ _ => rfl, id⟩
    · intro u w hw
      rw [waiting] at hw
      have hut : k = .poll → u ≠ t := by
        rintro - rfl
        cases hnone.symm.trans hw
      rcases h.kept hs hcont hw hut with hmem | hrest
      · rcases (tasks (u, w)).mp hmem with hmem | hmem
        · exact Or.inl hmem
        · exact Or.inr (Or.inl ⟨(t, k'), hcont.place k' rfl, hmem⟩)
      · exact Or.inr hrest
  | @ret k c' r A' returns waiting results closed tasks =>
    have hdrained : LocalChannel.drained k = [] := by cases returns <;> rfl
    obtain ⟨hother, hparked, hrest⟩ := h.others howned waiting
    have hself : c'.waiting t = none := by rw [waiting, Function.update_self]
    refine h.frames hs hcont ?_ ?_ hrest ?_
    · intro x hx
      rw [tasks] at hx
      exact hparked x hx
    · rintro _ ⟨⟩
      exact ⟨nofun, hself⟩
    · intro u w hw
      have hu : u ≠ t := by
        rintro rfl
        cases hself.symm.trans hw
      rw [hother u hu] at hw
      rcases h.kept hs hcont hw (fun _ => hu) with hmem | hrest
      · rw [hdrained, ← tasks] at hmem
        exact Or.inl (hmem.resolve_right nofun)
      · exact Or.inr hrest
  | @serve c' u w w' r A' opened task firstCall waiting told results closed tasks others =>
    refine h.tell hs howned hcont (Or.inl task) (by simp) (hexec u _ rfl) waiting told ?_ ?_
    · rintro x (hx | hx)
      · exact Or.inl (tasks x hx)
      · cases hx
    · rintro x (hx | hx) hne
      · exact Or.inl (others x hx hne)
      · cases hx
  | @drain k k' c' u w isClosed task hk place firstCall waiting results closed tasks =>
    have htold : ¬w.byClose.IsFirstCall := by cases w <;> exact nofun
    have hmem : (u, w) ∈ LocalChannel.drained k := by
      rw [task]
      exact List.mem_cons_self ..
    refine h.tell hs howned hcont (Or.inr hmem) hk (hexec u _ rfl) waiting htold ?_ ?_
    · rintro x (hx | hx)
      · exact Or.inl (tasks ▸ hx)
      · rw [task]
        exact Or.inr (List.mem_cons_of_mem _ hx)
    · rintro x (hx | hx) hne
      · exact Or.inl (tasks ▸ hx)
      · rw [task] at hx
        rcases List.mem_cons.mp hx with rfl | hx
        · exact absurd rfl hne
        · exact Or.inr hx
  | @park c' w opened firstCall waiting results closed tasks =>
    obtain ⟨hother, hparked, hrest⟩ := h.others howned waiting
    have hself : c'.waiting t = some w := by rw [waiting, Function.update_self]
    refine h.frames hs hcont ?_ nofun hrest ?_
    · rintro ⟨u, w₀⟩ hx
      rcases (tasks _).mp hx with hx | hx
      · exact hparked _ hx
      · obtain ⟨rfl, rfl⟩ := Prod.mk.inj hx
        exact hself
    · intro u w₀ hw
      by_cases hu : u = t
      · subst hu
        cases hself.symm.trans hw
        exact Or.inl ((tasks _).mpr (Or.inr rfl))
      · rw [hother u hu] at hw
        rcases h.kept hs hcont hw (fun _ => hu) with hmem | hrest
        · exact Or.inl ((tasks _).mpr (Or.inl (hmem.resolve_right nofun)))
        · exact Or.inr hrest

end Tidy

/-! ### What is due to a task -/

/-- What is due to a task: the result of an operation that goes on, or of the future that the task
awaits. -/
inductive Due (c : LocalChannel τ V) (stack : List (τ × Place τ V)) (t : τ) :
    List (OpResult V) → Prop
  | outside (hw : c.waiting t = none) (hf : ∀ r, (t, .finish r) ∉ stack) : Due c stack t []
  | finish {r : OpResult V} (hf : (t, .finish r) ∈ stack) : Due c stack t [r]
  | waiting {w : Waiting V} (hw : c.waiting t = some w) : Due c stack t (w.due c.isClosed)

/-- What every task has got and what is due to it are the answers `A`. -/
def Answered (c : LocalChannel τ V) (stack : List (τ × Place τ V)) (A : τ → List (OpResult V)) :
    Prop :=
  ∀ u, ∃ l, Due c stack u l ∧ A u = resultsOf c.results u ++ l

/-- What is due to the task of the innermost poll. -/
def Place.due : Place τ V → List (OpResult V)
  | .finish r => [r]
  | _ => []

namespace Answered

variable {c c' : LocalChannel τ V} {e e' : Calls τ V} {t : τ} {k : Place τ V}
  {rest : List (τ × Place τ V)} {o : Outcome τ (Place τ V)} {A A' : τ → List (OpResult V)}

theorem carries (h : Answered c e.stack A) (hcarries : Primitive.Carries called e e') :
    Answered c e'.stack A := by
  intro u
  obtain ⟨l, hdue, hA⟩ := h u
  refine ⟨l, ?_, hA⟩
  cases hdue with
  | outside hw hf =>
    refine .outside hw fun r hmem => ?_
    rcases hcarries.entered _ hmem with hmem | hmem
    · exact hf r hmem
    · cases hmem
  | finish hf => exact .finish (hcarries.kept _ hf rfl)
  | waiting hw => exact .waiting hw

/-- What a task that runs has got. -/
theorem top (h : Answered c e.stack A) (htidy : Tidy c e) (hs : e.stack = (t, k) :: rest)
    (howned : Owned c t k rest) (hk : k ≠ .poll) : A t = resultsOf c.results t ++ k.due := by
  have htop : (t, k) ∈ e.stack := Executor.mem_top hs
  obtain ⟨l, hdue, hA⟩ := h t
  rw [hA]
  congr 1
  cases hdue with
  | outside hw hf =>
    cases k with
    | finish r => exact absurd htop (hf r)
    | _ => rfl
  | @finish r hf =>
    rw [hs] at hf
    rcases List.mem_cons.mp hf with heq | hf
    · rw [← (Prod.mk.inj heq).2]
      rfl
    · exact absurd rfl (howned.task _ hf)
  | waiting hw => cases (htidy.inside _ htop hk).symm.trans hw

/-- What a task that awaits a future has got. -/
theorem awaited (h : Answered c e.stack A) (htidy : Tidy c e) {u : τ} {w : Waiting V}
    (hw : c.waiting u = some w) : A u = resultsOf c.results u ++ w.due c.isClosed := by
  obtain ⟨l, hdue, hA⟩ := h u
  rw [hA]
  congr 1
  cases hdue with
  | outside hw' hf => cases hw'.symm.trans hw
  | finish hf => cases (htidy.inside _ hf (by simp)).symm.trans hw
  | waiting hw' => rw [Option.some.inj (hw'.symm.trans hw)]

theorem frame {u : τ} {l : List (OpResult V)} (hdue : Due c e.stack u l) (hu : u ≠ t)
    (hs : e.stack = (t, k) :: rest) (hcont : Executor.Continues called.program e e' t k rest o)
    (hwaiting : c'.waiting u = c.waiting u) (hclosed : c'.isClosed = c.isClosed) :
    Due c' e'.stack u l := by
  cases hdue with
  | outside hw hf =>
    refine .outside (hwaiting.trans hw) fun r hmem => ?_
    rcases hcont.entered _ hmem with hmem | ⟨k', -, heq⟩ | hmem
    · exact hf r (Executor.mem_of_rest hs hmem)
    · exact hu (Prod.mk.inj heq).1
    · cases hmem
  | finish hf =>
    rw [hs] at hf
    rcases List.mem_cons.mp hf with heq | hf
    · exact absurd (Prod.mk.inj heq).1 hu
    · exact .finish (hcont.kept _ hf)
  | waiting hw =>
    rw [← hclosed]
    exact .waiting (hwaiting.trans hw)

/-- A task that goes on inside the channel's code, or outside of it. -/
theorem goesOn (howned : Owned c t k rest)
    (hcont : Executor.Continues called.program e e' t k rest o) {k' : Place τ V}
    (hk' : k' ∈ o.place) (hwaiting : c'.waiting t = none) : Due c' e'.stack t k'.due := by
  have hplace := hcont.place k' hk'
  cases k' with
  | finish r => exact .finish hplace
  | poll | user | closeSenders | closeReceivers =>
    refine .outside hwaiting fun r hmem => ?_
    rcases hcont.entered _ hmem with hmem | ⟨k'', hk'', heq⟩ | hmem
    · exact howned.task _ hmem rfl
    · rw [← (Prod.mk.inj heq).2] at hk''
      cases Option.some.inj (hk'.symm.trans hk'')
    · cases hmem

/-- **An operation keeps the account of what is due.** -/
theorem effect (h : Answered c e.stack A) (htidy : Tidy c e)
    (hs : e.stack = (t, k) :: rest) (howned : Owned c t k rest)
    (hcont : Executor.Continues called.program e e' t k rest o)
    (heffect : Effect c t A k c' o A') : Answered c' e'.stack A' := by
  have htop : (t, k) ∈ e.stack := Executor.mem_top hs
  intro v
  obtain ⟨l, hdue, hA⟩ := h v
  cases heffect with
  | @goto k k' c' A' poll hk place waiting results tasks answers =>
    have hstack : ∀ r, (v, .finish r) ∈ e'.stack ↔ (v, .finish r) ∈ e.stack := by
      intro r
      rw [hs]
      constructor
      · intro hmem
        rcases hcont.entered _ hmem with hmem | ⟨k'', hk'', heq⟩ | hmem
        · exact List.mem_cons_of_mem _ hmem
        · rw [← (Prod.mk.inj heq).2] at hk''
          exact absurd (Option.some.inj hk'') (place.2 r)
        · cases hmem
      · intro hmem
        rcases List.mem_cons.mp hmem with heq | hmem
        · exact absurd (Prod.mk.inj heq).2.symm (hk r)
        · exact hcont.kept _ hmem
    rw [results]
    cases hdue with
    | outside hw hf =>
      refine ⟨[], .outside (waiting ▸ hw) fun r hmem => hf r ((hstack r).mp hmem), ?_⟩
      rw [(answers v).1 hw, hA]
    | @finish r hf =>
      have hw : c.waiting v = none := htidy.inside _ hf (by simp)
      exact ⟨[r], .finish ((hstack r).mpr hf), by rw [(answers v).1 hw, hA]⟩
    | @waiting w hw =>
      exact ⟨_, .waiting (waiting ▸ hw), (answers v).2 w _ hw hA⟩
  | @ret k c' r A' returns waiting results closed tasks self answers =>
    by_cases hv : v = t
    · subst hv
      have hnone : c'.waiting v = none := by rw [waiting, Function.update_self]
      refine ⟨[], goesOn howned hcont rfl hnone, ?_⟩
      rw [self, results, resultsOf_concat_self, List.append_nil]
      cases returns with
      | finish => exact h.top htidy hs howned (by simp)
      | user =>
        rw [h.top htidy hs howned (by simp)]
        simp [Place.isUser, Place.due]
      | poll hw htold =>
        rw [h.awaited htidy hw, Waiting.due_of_told htold]
        rfl
    · refine ⟨l, frame hdue hv hs hcont ?_ closed, ?_⟩
      · rw [waiting, Function.update_of_ne hv]
      · rw [answers v hv, hA, results, resultsOf_concat_of_ne _ hv]
  | @serve c' u w w' r A' opened task firstCall waiting told results closed tasks others self
      server answers =>
    have ht : c.waiting t = none := htidy.inside _ htop (by simp)
    have hu : c.waiting u = some w := htidy.parked _ task
    have htu : t ≠ u := by
      rintro rfl
      cases ht.symm.trans hu
    rw [results]
    by_cases hv : v = t
    · subst hv
      have hnone : c'.waiting v = none := by rw [waiting, Function.update_of_ne htu, ht]
      have hplace : .finish r ∈ (Outcome.execTask u (Place.finish (τ := τ) r)).place := rfl
      refine ⟨[r], goesOn howned hcont hplace hnone, ?_⟩
      rw [self, h.top htidy hs howned (by simp)]
      simp [Place.due]
    · by_cases hvu : v = u
      · subst hvu
        have hself : c'.waiting v = some w' := by rw [waiting, Function.update_self]
        refine ⟨w'.due c'.isClosed, .waiting hself, ?_⟩
        -- Nothing was due to it in the queue.
        rw [server, Waiting.due_of_told told, h.awaited htidy hu, opened,
          Waiting.due_of_firstCall firstCall, List.append_nil]
      · refine ⟨l, frame hdue hv hs hcont ?_ closed, ?_⟩
        · rw [waiting, Function.update_of_ne hvu]
        · rw [answers v hv hvu, hA]
  | @drain k k' c' u w isClosed task hk place firstCall waiting results closed tasks =>
    have ht : c.waiting t = none := htidy.inside _ htop hk
    have hmem : (u, w) ∈ LocalChannel.drained k := by
      rw [task]
      exact List.mem_cons_self ..
    have hu : c.waiting u = some w := htidy.drained _ htop _ hmem
    have htu : t ≠ u := by
      rintro rfl
      cases ht.symm.trans hu
    rw [results]
    by_cases hv : v = t
    · subst hv
      have hnone : c'.waiting v = none := by rw [waiting, Function.update_of_ne htu, ht]
      have hdue : k.due = k'.due := by
        have hk' : k'.due = [] := by
          cases k' with
          | finish r => exact absurd rfl (place.2 r)
          | _ => rfl
        rw [hk']
        cases k with
        | finish r => cases hmem
        | _ => rfl
      exact ⟨_, goesOn howned hcont rfl hnone, by rw [h.top htidy hs howned hk, hdue]⟩
    · by_cases hvu : v = u
      · subst hvu
        have hself : c'.waiting v = some w.byClose := by rw [waiting, Function.update_self]
        refine ⟨_, .waiting hself, ?_⟩
        rw [h.awaited htidy hu, closed, isClosed, Waiting.due_closed, Waiting.due_closed,
          Waiting.closedAnswer_byClose firstCall]
      · refine ⟨l, frame hdue hv hs hcont ?_ closed, hA⟩
        rw [waiting, Function.update_of_ne hvu]
  | @park c' w opened firstCall waiting results closed tasks =>
    rw [results]
    by_cases hv : v = t
    · subst hv
      have hself : c'.waiting v = some w := by rw [waiting, Function.update_self]
      refine ⟨_, .waiting hself, ?_⟩
      rw [closed, opened, Waiting.due_of_firstCall firstCall]
      exact h.top htidy hs howned (by simp)
    · refine ⟨l, frame hdue hv hs hcont ?_ closed, hA⟩
      rw [waiting, Function.update_of_ne hv]

end Answered

/-! ### The refinement -/

/-- The sequential channel has the same content; it has nobody waiting once it is closed. -/
structure Mirrors (c : LocalChannel τ V) (a : SequentialChannel τ V) : Prop where
  storage : a.storage = c.storage
  isClosed : a.isClosed = c.isClosed
  capacity : a.capacity = c.capacity
  opened : c.isClosed = false → a.senders = c.senders ∧ a.receivers = c.receivers
  closed : c.isClosed = true → a.senders = [] ∧ a.receivers = []

omit [DecidableEq τ] in
theorem Mirrors.full_iff {c : LocalChannel τ V} {a : SequentialChannel τ V} (h : Mirrors c a) :
    a.capacity ≤ a.storage.length ↔ c.capacity ≤ c.storage.length := by
  rw [h.capacity, h.storage]

section Effects

variable {c d : LocalChannel τ V} {t u : τ} {v : V} {a x : SequentialChannel τ V}

theorem effect_ret (d : LocalChannel τ V) (x : SequentialChannel τ V)
    (hwaiting : d.waiting = c.waiting) (hresults : d.results = c.results)
    (hclosed : d.isClosed = c.isClosed) (htasks : parked d = parked c)
    (hx : x.answers = a.answers) (r : OpResult V) :
    Effect c t a.answers .user (d.ret t r) (.goto .user) (x.answer t r).answers := by
  refine .ret (.user r) ?_ ?_ hclosed htasks ?_ fun w hw => ?_
  · rw [← hwaiting]
    rfl
  · rw [← hresults]
    rfl
  · rw [answers_answer_self, hx]
    rfl
  · rw [answers_answer_of_ne _ hw, hx]

/-- The task that is served and the one that serves it have their answers. -/
theorem answers_serve (htu : t ≠ u) (hx : x.answers = a.answers) (r r' : OpResult V) :
    ((x.answer u r').answer t r).answers t = a.answers t ++ [r] ∧
    ((x.answer u r').answer t r).answers u = a.answers u ++ [r'] ∧
    ∀ w, w ≠ t → w ≠ u → ((x.answer u r').answer t r).answers w = a.answers w := by
  refine ⟨?_, ?_, fun w hwt hwu => ?_⟩
  · rw [answers_answer_self, answers_answer_of_ne _ htu, hx]
  · rw [answers_answer_of_ne _ htu.symm, answers_answer_self,
      hx]
  · rw [answers_answer_of_ne _ hwt, answers_answer_of_ne _ hwu,
      hx]

theorem effect_serveReceiver (d : LocalChannel τ V) (x : SequentialChannel τ V)
    (hopen : c.isClosed = false) {rest : List τ} (hr : c.receivers = u :: rest)
    (hw : c.waiting u = some (.recv .firstCall none)) (htu : t ≠ u)
    (hwaiting : d.waiting = c.waiting) (hresults : d.results = c.results)
    (hclosed : d.isClosed = c.isClosed) (hsenders : d.senders = c.senders)
    (hx : x.answers = a.answers) (r : OpResult V) :
    Effect c t a.answers .user (d.serveReceiver u rest v) (.execTask u (.finish r))
      ((x.answer u (.recvIn .ok (some v))).answer t r).answers := by
  obtain ⟨hself, hserver, hothers⟩ := answers_serve htu hx r (.recvIn .ok (some v))
  have hparked : parked (d.serveReceiver u rest v) =
      c.senders.map (fun x => (x.1, .send .firstCall x.2)) ++
        rest.map fun u => (u, .recv .firstCall none) := by
    rw [← hsenders]
    rfl
  have hbefore : parked c = c.senders.map (fun x => (x.1, .send .firstCall x.2)) ++
      (u, .recv .firstCall none) :: rest.map fun u => (u, .recv .firstCall none) := by
    rw [parked, hr, List.map_cons]
  have htold : ¬(Waiting.recv .wokenToReturnReady (some v)).IsFirstCall := nofun
  refine .serve (w := .recv .firstCall none) hopen ?_ rfl ?_ htold hresults hclosed ?_ ?_ hself
    hserver hothers
  · rw [hbefore]
    exact List.mem_append_right _ (List.mem_cons_self ..)
  · simp [serveReceiver, writeSlot, writeRecvState, hwaiting, hw]
  · intro y hy
    rw [hparked] at hy
    rw [hbefore]
    exact (List.sublist_cons_self _ _).append_left _ |>.subset hy
  · intro y hy hne
    rw [hbefore] at hy
    rw [hparked]
    rcases List.mem_append.mp hy with hy | hy
    · exact List.mem_append_left _ hy
    · rcases List.mem_cons.mp hy with rfl | hy
      · exact absurd rfl hne
      · exact List.mem_append_right _ hy

variable {rest : List (τ × V)}

theorem effect_serveSender (hopen : c.isClosed = false) (hs : c.senders = (u, v) :: rest)
    (hw : c.waiting u = some (.send .firstCall v)) (htu : t ≠ u) (hx : x.answers = a.answers)
    (r : OpResult V) (storage handed : List V) :
    Effect c t a.answers .user
      ({ c with storage := storage, senders := rest, handed := handed }.writeSendState u
        .wokenToReturnReady) (.execTask u (.finish r))
      ((x.answer u (.send .ok)).answer t r).answers := by
  obtain ⟨hself, hserver, hothers⟩ := answers_serve htu hx r (.send .ok)
  have hbefore : parked c = (u, .send .firstCall v) ::
      (rest.map (fun x => (x.1, .send .firstCall x.2)) ++
        c.receivers.map fun u => (u, .recv .firstCall none)) := by
    rw [parked, hs, List.map_cons, List.cons_append]
  have htold : ¬(Waiting.send .wokenToReturnReady v).IsFirstCall := nofun
  refine .serve (w := .send .firstCall v) hopen ?_ rfl ?_ htold rfl rfl ?_ ?_ hself hserver hothers
  · rw [hbefore]
    exact List.mem_cons_self ..
  · simp [writeSendState, hw]
  · intro y hy
    rw [hbefore]
    exact List.mem_cons_of_mem _ hy
  · intro y hy hne
    rw [hbefore] at hy
    rcases List.mem_cons.mp hy with rfl | hy
    · exact absurd rfl hne
    · exact hy

/-- An operation that `t` has called does what the sequential channel does. -/
structure Simulates (c : LocalChannel τ V) (t : τ) (a : SequentialChannel τ V)
    (r : LocalChannel τ V × Outcome τ (Place τ V)) (a' : SequentialChannel τ V) : Prop where
  effect : Effect c t a.answers .user r.1 r.2 a'.answers
  mirrors : Mirrors r.1 a'

omit [DecidableEq τ] in
theorem waiting_sender (hparked : ∀ x ∈ parked c, c.waiting x.1 = some x.2)
    (hs : c.senders = (u, v) :: rest) : c.waiting u = some (.send .firstCall v) := by
  refine hparked (u, .send .firstCall v) ?_
  simp [parked, hs]

omit [DecidableEq τ] in
theorem waiting_receiver (hparked : ∀ x ∈ parked c, c.waiting x.1 = some x.2)
    {rest : List τ} (hr : c.receivers = u :: rest) :
    c.waiting u = some (.recv .firstCall none) := by
  refine hparked (u, .recv .firstCall none) ?_
  simp [parked, hr]

omit [DecidableEq τ] in
theorem ne_of_waiting {w : Waiting V} (ht : c.waiting t = none) (hu : c.waiting u = some w) :
    t ≠ u := by
  rintro rfl
  cases ht.symm.trans hu

theorem simulates_closed (hm : Mirrors c a) (r : OpResult V) :
    Simulates c t a (c.ret t r, .goto .user) (a.answer t r) :=
  ⟨effect_ret c a rfl rfl rfl rfl rfl r,
    ⟨hm.storage, hm.isClosed, hm.capacity, hm.opened, hm.closed⟩⟩

theorem simulates_store (hm : Mirrors c a) (hopen : c.isClosed = false) (r : OpResult V) :
    Simulates c t a ({ c.accept v with storage := c.storage ++ [v] }.ret t r, .goto .user)
      ({ a with storage := a.storage ++ [v] }.answer t r) := by
  refine ⟨effect_ret (c := c) (a := a) { c.accept v with storage := c.storage ++ [v] }
    { a with storage := a.storage ++ [v] } rfl rfl rfl rfl rfl r, ?_⟩
  refine ⟨?_, hm.isClosed, hm.capacity, fun _ => hm.opened hopen, hm.closed⟩
  show a.storage ++ [v] = c.storage ++ [v]
  rw [hm.storage]

/-! The task `t` is outside of the channel's code and awaits nothing. -/

variable (hm : Mirrors c a) (hparked : ∀ x ∈ parked c, c.waiting x.1 = some x.2)
  (ht : c.waiting t = none)

include hm hparked ht

theorem simulates_serveReceiver (hopen : c.isClosed = false) {rest : List τ}
    (hr : c.receivers = u :: rest) (r : OpResult V) :
    Simulates c t a ((c.accept v).serveReceiver u rest v, .execTask u (.finish r))
      (({ a with receivers := rest }.answer u (.recvIn .ok (some v))).answer t r) := by
  have hw := waiting_receiver hparked hr
  refine ⟨effect_serveReceiver (c.accept v) { a with receivers := rest } hopen hr hw
    (ne_of_waiting ht hw) rfl rfl rfl rfl rfl r, ?_⟩
  refine ⟨hm.storage, hm.isClosed, hm.capacity, fun _ => ⟨(hm.opened hopen).1, rfl⟩, fun h => ?_⟩
  cases hopen.symm.trans h

theorem simulates_send (v : V) : Simulates c t a (c.send t v) (a.apply t (.send v)) := by
  cases hclosed : c.isClosed with
  | true =>
    rw [send, if_pos hclosed, sendFirstCall, if_pos hclosed, SequentialChannel.apply,
      push_closed (hm.isClosed.trans hclosed)]
    exact simulates_closed hm _
  | false =>
    have haccept : (c.accept v).isClosed = false := hclosed
    have hopen := hm.isClosed.trans hclosed
    obtain ⟨hsenders, hreceivers⟩ := hm.opened hclosed
    rw [send, if_neg (by simp [hclosed]), SequentialChannel.apply]
    rcases sendFirstCall_cases (c.accept v) t v with ⟨htrue, -⟩ | ⟨-, u, rest, hr, heq⟩ |
      ⟨-, hr, hfull, heq⟩ | ⟨-, hr, hroom, heq⟩
    · cases htrue.symm.trans haccept
    · rw [heq, push_receiver hopen (hreceivers.trans hr)]
      exact simulates_serveReceiver hm hparked ht hclosed hr _
    · rw [heq, push_full hopen (hreceivers.trans hr) (hm.full_iff.mpr hfull)]
      refine ⟨?_, hm.storage, hm.isClosed, hm.capacity, fun _ => ⟨?_, hreceivers⟩, fun h => ?_⟩
      · refine .park (w := .send .firstCall v) hclosed rfl rfl rfl rfl fun x => ?_
        simp [parked, parkSender, accept, eq_comm, or_assoc, or_comm]
      · show a.senders ++ [(t, v)] = c.senders ++ [(t, v)]
        rw [hsenders]
      · cases hclosed.symm.trans h
    · rw [heq, push_room hopen (hreceivers.trans hr) (mt hm.full_iff.mp hroom)]
      exact simulates_store hm hclosed _

theorem simulates_trySend (v : V) :
    Simulates c t a (c.trySend t v) (a.apply t (.trySend v)) := by
  cases hclosed : c.isClosed with
  | true =>
    rw [trySend, if_pos hclosed, SequentialChannel.apply,
      push_closed (hm.isClosed.trans hclosed)]
    exact simulates_closed hm _
  | false =>
    have hopen := hm.isClosed.trans hclosed
    have hreceivers := (hm.opened hclosed).2
    rw [trySend, if_neg (by simp [hclosed]), SequentialChannel.apply]
    cases hr : c.receivers with
    | cons u rest =>
      rw [push_receiver hopen (hreceivers.trans hr)]
      exact simulates_serveReceiver hm hparked ht hclosed hr _
    | nil =>
      by_cases hfull : c.capacity ≤ c.storage.length
      · rw [push_full hopen (hreceivers.trans hr) (hm.full_iff.mpr hfull)]
        simp only [hfull, if_true]
        exact simulates_closed hm _
      · rw [push_room hopen (hreceivers.trans hr) (mt hm.full_iff.mp hfull)]
        simp only [hfull, if_false]
        exact simulates_store hm hclosed _

/-- A receiving operation takes the value of the first sender, or a stored one, which the value of
the first sender replaces. -/
theorem simulates_serveSender (hopen : c.isClosed = false) (hs : c.senders = (u, v) :: rest)
    (r : OpResult V) {storage stored : List V} (hstored : stored = storage) (handed : List V) :
    Simulates c t a
      ({ c with storage := storage, senders := rest, handed := handed }.writeSendState u
        .wokenToReturnReady, .execTask u (.finish r))
      (({ a with storage := stored, senders := rest }.answer u (.send .ok)).answer t r) := by
  have hw := waiting_sender hparked hs
  refine ⟨effect_serveSender hopen hs hw (ne_of_waiting ht hw) rfl r storage handed, ?_⟩
  refine ⟨hstored, hm.isClosed, hm.capacity, fun _ => ⟨rfl, (hm.opened hopen).2⟩, fun h => ?_⟩
  cases hopen.symm.trans h

theorem simulates_recvStored (hopen : c.isClosed = false) {y : V} {ys : List V}
    (hst : c.storage = y :: ys) (closed : OpResult V) (ok : V → OpResult V)
    (empty : SequentialChannel τ V) :
    Simulates c t a (c.recvStored t y ys (ok y)) (a.pop t closed ok empty) := by
  have hopen' := hm.isClosed.trans hopen
  have hst' := hm.storage.trans hst
  have hsenders := (hm.opened hopen).1
  rcases recvStored_cases c t y ys (ok y) with ⟨u, v, rest, hs, heq⟩ | ⟨hs, heq⟩
  · rw [heq, pop_stored_sender hopen' hst' (hsenders.trans hs)]
    exact simulates_serveSender hm hparked ht hopen hs _ rfl _
  · rw [heq, pop_stored hopen' hst' (hsenders.trans hs)]
    exact ⟨effect_ret (c := c) (a := a) { c with storage := ys, handed := c.handed ++ [y] }
      { a with storage := ys } rfl rfl rfl rfl rfl _,
      ⟨rfl, hm.isClosed, hm.capacity, fun _ => hm.opened hopen, hm.closed⟩⟩

theorem simulates_recvFromSender (hopen : c.isClosed = false) (hst : c.storage = [])
    (hs : c.senders = (u, v) :: rest) (closed : OpResult V) (ok : V → OpResult V)
    (empty : SequentialChannel τ V) :
    Simulates c t a (c.recvFromSender u v rest (ok v)) (a.pop t closed ok empty) := by
  have hst' := hm.storage.trans hst
  rw [pop_sender (hm.isClosed.trans hopen) hst' ((hm.opened hopen).1.trans hs)]
  exact simulates_serveSender hm hparked ht hopen hs (ok v) hm.storage (c.handed ++ [v])

theorem simulates_recv : Simulates c t a (c.recvFirstCall t) (a.apply t .recv) := by
  rcases recvFirstCall_cases c t with ⟨hclosed, heq⟩ | ⟨hopen, u, v, rest, hst, hs, heq⟩ |
    ⟨hopen, hst, hs, heq⟩ | ⟨hopen, y, ys, hst, heq⟩ <;> rw [heq, SequentialChannel.apply]
  · rw [pop_closed (hm.isClosed.trans hclosed)]
    exact simulates_closed hm _
  · exact simulates_recvFromSender hm hparked ht hopen hst hs _ (fun v => .recvIn .ok (some v)) _
  · obtain ⟨hsenders, hreceivers⟩ := hm.opened hopen
    rw [pop_empty (hm.isClosed.trans hopen) (hm.storage.trans hst)
      (hsenders.trans hs)]
    refine ⟨?_, hm.storage, hm.isClosed, hm.capacity, fun _ => ⟨hsenders, ?_⟩, fun h => ?_⟩
    · refine .park (w := .recv .firstCall none) hopen rfl rfl rfl rfl fun x => ?_
      simp [parked, parkReceiver, or_assoc]
    · show a.receivers ++ [t] = c.receivers ++ [t]
      rw [hreceivers]
    · cases hopen.symm.trans h
  · exact simulates_recvStored hm hparked ht hopen hst _ (fun v => .recvIn .ok (some v)) _

theorem simulates_tryRecvIn : Simulates c t a (c.tryRecvIn t) (a.apply t .tryRecvIn) := by
  rw [SequentialChannel.apply]
  cases hclosed : c.isClosed with
  | true =>
    rw [tryRecvIn, if_pos hclosed, pop_closed (hm.isClosed.trans hclosed)]
    exact simulates_closed hm _
  | false =>
    rw [tryRecvIn, if_neg (by simp [hclosed])]
    cases hst : c.storage with
    | cons y ys =>
      exact simulates_recvStored hm hparked ht hclosed hst _ (fun v => .tryRecvIn .ok (some v)) _
    | nil =>
      cases hs : c.senders with
      | cons x rest =>
        exact simulates_recvFromSender hm hparked ht hclosed hst hs _
          (fun v => .tryRecvIn .ok (some v)) _
      | nil =>
        rw [pop_empty (hm.isClosed.trans hclosed) (hm.storage.trans hst)
          ((hm.opened hclosed).1.trans hs)]
        exact simulates_closed hm _

end Effects

section Refinement

variable {c c' : LocalChannel τ V} {e e' : Calls τ V} {a : SequentialChannel τ V} {t : τ}
  {k : Place τ V} {rest : List (τ × Place τ V)} {op : Op V} {o : Outcome τ (Place τ V)}

/-- The channel with the tasks that use it refines the sequential channel. -/
structure Refines (c : LocalChannel τ V) (e : Calls τ V) (a : SequentialChannel τ V) : Prop where
  tidy : Tidy c e
  mirrors : Mirrors c a
  answered : Answered c e.stack a.answers

variable {w : Waiting V}

theorem Tidy.told_of_poll (h : Tidy c e) (hs : e.stack = (t, .poll) :: rest)
    (howned : Owned c t .poll rest) (hw : c.waiting t = some w) : ¬w.IsFirstCall := by
  rcases h.accounted t w hw with hmem | ⟨f, hf, hmem⟩ | ⟨-, htold⟩
  · exact absurd hmem (howned.parked w)
  · exact absurd hmem (howned.drained f (hs ▸ hf) w)
  · exact htold

theorem poll_of_told (hw : c.waiting t = some w) (htold : ¬w.IsFirstCall) :
    c.poll t = (c.ret t w.closedAnswer, .goto .user) := by
  unfold poll
  rw [hw]
  cases w with
  | send state | recv state =>
    cases state with
    | firstCall => exact absurd rfl htold
    | wokenToReturnReady | wokenByClose => rfl

theorem Tidy.not_queued (h : Tidy c e) {u : τ} (hu : ∀ w, c.waiting u = some w → ¬w.IsFirstCall) :
    u ∉ c.senders.map Prod.fst ∧ u ∉ c.receivers := by
  refine ⟨fun hmem => ?_, fun hmem => ?_⟩
  · obtain ⟨x, hx, rfl⟩ := List.mem_map.mp hmem
    exact hu _ (h.parked (x.1, .send .firstCall x.2)
      (List.mem_append_left _ (List.mem_map_of_mem hx))) rfl
  · exact hu _ (h.parked (u, .recv .firstCall none)
      (List.mem_append_right _ (List.mem_map_of_mem hmem))) rfl

/-- The first `close` answers everybody in the queues and nobody else. -/
theorem answers_close (h : Tidy c e) (hholds : ∀ u, holds c u ≤ 1) (hm : Mirrors c a)
    (hclosing : ∀ f ∈ e.stack, Closing c f.2) (hopen : c.isClosed = false) (u : τ) :
    (c.waiting u = none → a.close.answers u = a.answers u) ∧
      ∀ w rs, c.waiting u = some w → a.answers u = rs ++ w.due c.isClosed →
        a.close.answers u = rs ++ w.due true := by
  obtain ⟨hsenders, hreceivers⟩ := hm.opened hopen
  have hcount (u : τ) : (c.senders.map Prod.fst).count u + c.receivers.count u ≤ 1 := hholds u
  have hclose : a.close.answers u =
      a.answers u ++ closeAnswers c.senders c.receivers u := by
    rw [← hsenders, ← hreceivers]
    rfl
  rw [hclose]
  refine ⟨fun hw => ?_, fun w rs hw hA => ?_⟩
  · obtain ⟨hs, hr⟩ := h.not_queued (u := u) (by simp [hw])
    rw [closeAnswers_of_not_mem hs hr, List.append_nil]
  · rw [hA, hopen, Waiting.due_closed]
    rcases h.accounted u w hw with hmem | ⟨f, hf, hmem⟩ | ⟨-, htold⟩
    · rcases List.mem_append.mp hmem with hmem | hmem
      · obtain ⟨x, hx, heq⟩ := List.mem_map.mp hmem
        obtain ⟨rfl, rfl⟩ := Prod.mk.inj heq
        have hdue : Waiting.due false (.send .firstCall x.2) = [] := rfl
        rw [closeAnswers_of_sender hx (hcount x.1), hdue, List.append_nil]
        rfl
      · obtain ⟨x, hx, heq⟩ := List.mem_map.mp hmem
        obtain ⟨rfl, rfl⟩ := Prod.mk.inj heq
        have hdue : Waiting.due false (.recv .firstCall none : Waiting V) = [] := rfl
        rw [closeAnswers_of_receiver hx (hcount x), hdue, List.append_nil]
        rfl
    · -- A drain is there only when the channel is closed.
      have hk := hclosing f hf
      cases hplace : f.2 with
      | closeSenders | closeReceivers =>
        rw [hplace] at hk
        cases hopen.symm.trans hk
      | poll | user | finish =>
        rw [hplace] at hmem
        cases hmem
    · obtain ⟨hs, hr⟩ := h.not_queued (u := u) fun w' hw' => by
        rw [Option.some.inj (hw'.symm.trans hw)]
        exact htold
      rw [closeAnswers_of_not_mem hs hr, Waiting.due_of_told htold,
        List.append_nil]

theorem simulates_close (h : Tidy c e) (hholds : ∀ u, holds c u ≤ 1) (hm : Mirrors c a)
    (hclosing : ∀ f ∈ e.stack, Closing c f.2) :
    Simulates c t a ({ c with isClosed := true, senders := [] }, .goto (.closeSenders c.senders))
      (a.apply t .close) := by
  refine ⟨.goto nofun nofun ⟨nofun, nofun⟩ rfl rfl ?_ fun u => ?_, hm.storage, rfl, hm.capacity,
    nofun, fun _ => ⟨rfl, rfl⟩⟩
  · intro x
    simp [parked, drained, or_comm]
  · cases hclosed : c.isClosed with
    | false => exact hclosed ▸ answers_close h hholds hm hclosing hclosed u
    | true =>
      obtain ⟨hsenders, hreceivers⟩ := hm.closed hclosed
      have hclose : (a.apply t .close).answers u = a.answers u := by
        show a.answers u ++ closeAnswers a.senders a.receivers u = a.answers u
        rw [hsenders, hreceivers, closeAnswers_of_not_mem (by simp) (by simp),
          List.append_nil]
      rw [hclose]
      exact ⟨fun _ => rfl, fun _ _ _ hA => hA⟩

/-- The task goes on inside the channel's code; everybody has the answers that it had. -/
theorem effect_go (h : Tidy c e) (hs : e.stack = (t, k) :: rest) (howned : Owned c t k rest)
    (hk : Closing c k) (hcode : c.code t k .go = some (c', o)) (hm : Mirrors c a) :
    Effect c t a.answers k c' o a.answers ∧ Mirrors c' a := by
  have hA (u : τ) : (c.waiting u = none → a.answers u = a.answers u) ∧ ∀ (w : Waiting V) rs,
      c.waiting u = some w → a.answers u = rs ++ w.due c.isClosed →
        a.answers u = rs ++ w.due c.isClosed :=
    ⟨fun _ => rfl, fun _ _ _ hA => hA⟩
  have htop : (t, k) ∈ e.stack := Executor.mem_top hs
  obtain ⟨hstorage, hclosed, hcapacity, hopened, hempty⟩ := id hm
  cases k with
  | poll =>
    obtain hcode : c.poll t = (c', o) := Option.some.inj hcode
    cases hw : c.waiting t with
    | none =>
      have heq : c.poll t = (c, .goto .user) := by simp only [poll, hw]
      obtain ⟨rfl, rfl⟩ := Prod.mk.inj (heq.symm.trans hcode)
      exact ⟨.goto (fun _ => hw) (by simp) ⟨by simp, by simp⟩ rfl rfl (fun _ => Iff.rfl) hA, hm⟩
    | some w =>
      have htold := h.told_of_poll hs howned hw
      obtain ⟨rfl, rfl⟩ := Prod.mk.inj ((poll_of_told hw htold).symm.trans hcode)
      exact ⟨.ret (.poll hw htold) rfl rfl rfl rfl rfl fun _ _ => rfl, hstorage, hclosed, hcapacity,
        hopened, hempty⟩
  | user => cases hcode
  | finish r =>
    obtain ⟨rfl, rfl⟩ := of_some hcode
    exact ⟨.ret (.finish r) rfl rfl rfl rfl rfl fun _ _ => rfl, hstorage, hclosed, hcapacity,
      hopened, hempty⟩
  | closeSenders l =>
    have hc : c.isClosed = true := hk
    cases l with
    | nil =>
      obtain ⟨rfl, rfl⟩ := of_some hcode
      refine ⟨.goto (by simp) (by simp) ⟨by simp, by simp⟩ rfl rfl (fun x => ?_) hA, hstorage,
        hclosed, hcapacity, fun hopen => ?_, hempty⟩
      · simp [parked, drained]
      · cases hc.symm.trans hopen
    | cons x l =>
      obtain ⟨rfl, rfl⟩ := of_some hcode
      have hw : c.waiting x.1 = some (.send .firstCall x.2) :=
        h.drained _ htop (x.1, .send .firstCall x.2) (List.mem_cons_self ..)
      refine ⟨.drain (w := .send .firstCall x.2) hc rfl (by simp) ⟨by simp, by simp⟩ rfl ?_ rfl rfl
        rfl, hstorage, hclosed, hcapacity, hopened, hempty⟩
      simp [writeSendState, hw, Waiting.byClose]
  | closeReceivers l =>
    have hc : c.isClosed = true := hk
    cases l with
    | nil =>
      obtain ⟨rfl, rfl⟩ := of_some hcode
      exact ⟨.goto (by simp) (by simp) ⟨by simp, by simp⟩ rfl rfl (fun x => Iff.rfl) hA, hm⟩
    | cons x l =>
      obtain ⟨rfl, rfl⟩ := of_some hcode
      have hw : c.waiting x = some (.recv .firstCall none) :=
        h.drained _ htop (x, .recv .firstCall none) (List.mem_cons_self ..)
      refine ⟨.drain (w := .recv .firstCall none) hc rfl (by simp) ⟨by simp, by simp⟩ rfl ?_ rfl rfl
        rfl, hstorage, hclosed, hcapacity, hopened, hempty⟩
      simp [writeRecvState, hw, Waiting.byClose]

/-- The sequential channel after an operation, or the same one when the task just goes on. -/
def applied (a : SequentialChannel τ V) (t : τ) (op : Op V) : SequentialChannel τ V :=
  op.called.elim a (a.apply t)

theorem run_noteCall (capacity : ℕ) (c : LocalChannel τ V) (t : τ) (k : Place τ V) (op : Op V)
    (calls : List (τ × Channel.Op V)) :
    SequentialChannel.run capacity (noteCall c t k op calls) =
      applied (SequentialChannel.run capacity calls) t op := by
  unfold noteCall applied
  cases op.called with
  | none => rw [Option.map_none, Option.toList_none, List.append_nil, Option.elim_none]
  | some op => exact run_concat capacity calls t op

theorem user_of_call (hcode : c.code t k op = some (c', o)) (hop : op ≠ .go) : k = .user := by
  unfold code at hcode
  split at hcode
  case h_12 => cases hcode
  all_goals first
    | rfl
    | exact absurd rfl hop

/-- **What the code of the channel can do.** -/
theorem effect_of_code (h : Refines c e a) (hs : e.stack = (t, k) :: rest)
    (howned : Owned c t k rest) (hholds : ∀ u, holds c u ≤ 1)
    (hclosing : ∀ f ∈ e.stack, Closing c f.2) (hcode : c.code t k op = some (c', o)) :
    Effect c t a.answers k c' o (applied a t op).answers ∧ Mirrors c' (applied a t op) := by
  have htop : (t, k) ∈ e.stack := Executor.mem_top hs
  have hparked := h.tidy.parked
  have hm := h.mirrors
  have of_simulates (hk : k = .user) {r : LocalChannel τ V × Outcome τ (Place τ V)}
      {a' : SequentialChannel τ V} (hsimulates : Simulates c t a r a')
      (hr : some r = some (c', o)) :
      Effect c t a.answers k c' o a'.answers ∧ Mirrors c' a' := by
    obtain rfl := Option.some.inj hr
    subst hk
    exact ⟨hsimulates.effect, hsimulates.mirrors⟩
  -- A task calls an operation from outside of the channel's code.
  have hcall (hop : op ≠ .go) : k = .user ∧ c.waiting t = none := by
    have hk := user_of_call hcode hop
    exact ⟨hk, h.tidy.inside _ htop (by simp [hk])⟩
  cases op with
  | go => exact effect_go h.tidy hs howned (hclosing _ htop) hcode hm
  | send v =>
    obtain ⟨rfl, ht⟩ := hcall (by simp)
    exact of_simulates rfl (simulates_send hm hparked ht v) hcode
  | recv =>
    obtain ⟨rfl, ht⟩ := hcall (by simp)
    exact of_simulates rfl (simulates_recv hm hparked ht) hcode
  | trySend v =>
    obtain ⟨rfl, ht⟩ := hcall (by simp)
    exact of_simulates rfl (simulates_trySend hm hparked ht v) hcode
  | tryRecvIn =>
    obtain ⟨rfl, ht⟩ := hcall (by simp)
    exact of_simulates rfl (simulates_tryRecvIn hm hparked ht) hcode
  | close =>
    obtain ⟨rfl, -⟩ := hcall (by simp)
    exact of_simulates rfl (simulates_close h.tidy hholds hm hclosing) hcode

theorem total_le_one_of_reaches {capacity : ℕ} (h : called.Reaches (bounded capacity, []) e)
    (u : τ) : (custody.record noteCall).ownership.total e u ≤ 1 := by
  have hzero (u : τ) : (custody.record noteCall).holds
      ((bounded capacity : LocalChannel τ V), []) u = 0 := rfl
  exact (custody.record noteCall).total_le_one hzero h u

/-- **`LocalChannel` refines the sequential channel**, at every point of every run, nested or not:
the two have the same content, and what every task has got and what is due to it is what the
sequential channel has answered. -/
theorem refines_of_reaches (capacity : ℕ) (h : called.Reaches (bounded capacity, []) e) :
    Refines e.state.memory.1 e (SequentialChannel.run capacity e.state.memory.2) := by
  have hentry : called.isUser (called : Primitive τ _ _ (Op V)).entry = false := rfl
  refine Reach.invariant (I := fun e => Refines e.state.memory.1 e
    (SequentialChannel.run capacity e.state.memory.2)) ?_ ?_ h
  · exact ⟨⟨nofun, nofun, nofun, nofun⟩, ⟨rfl, rfl, rfl, fun _ => ⟨rfl, rfl⟩, nofun⟩,
      fun u => ⟨[], .outside rfl nofun, rfl⟩⟩
  · intro e m e' hreach hrefines _ hstep
    rcases Primitive.move_cases hentry hstep with
      ⟨op, t, k, rest, s, o, -, hs, hcode, rfl⟩ | hcarries
    · have htotal := total_le_one_of_reaches hreach
      have howned := owned_of_total htotal hs
      have hclosing := (fifo_of_reaches (Primitive.reaches_of_record hreach)).2
      obtain ⟨hop, hnote⟩ := Primitive.code_of_record hcode
      have hone (u : τ) : holds e.state.memory.1 u ≤ 1 := by
        have hle := ((custody.record noteCall).ownership.holds_le_total e u).trans (htotal u)
        exact (Nat.le_add_right _ _).trans hle
      obtain ⟨heffect, hmirrors⟩ := effect_of_code hrefines hs howned hone hclosing hop
      have hcont := Executor.continues_afterCode (P := called.program) hs
        { e.state with memory := s } o
      rw [Executor.afterCode_state, hnote]
      have hrun : SequentialChannel.run capacity (noteCall e.state.memory.1 t k op
          e.state.memory.2) = applied (SequentialChannel.run capacity e.state.memory.2) t op :=
        run_noteCall capacity _ t k op _
      rw [hrun]
      refine ⟨hrefines.tidy.effect hs howned hcont ?_ heffect, hmirrors,
        hrefines.answered.effect hrefines.tidy hs howned hcont heffect⟩
      rintro u k' rfl
      exact ⟨Executor.scheduled_afterCode_execTask _ _ _ _ _ _,
        not_mem_of_execTask htotal hs hop⟩
    · rw [hcarries.memory]
      exact ⟨hrefines.tidy.carries hcarries, hrefines.mirrors, hrefines.answered.carries hcarries⟩

/-! ### When no task is left to run -/

/-- What is seen of the channel: an operation is pending as long as its task awaits a future. -/
def observed (c : LocalChannel τ V) : Observed τ V where
  results := resultsOf c.results
  pending t := c.waiting t ≠ none
  storage := c.storage
  isClosed := c.isClosed
  senders := c.senders
  receivers := c.receivers

omit [DecidableEq τ] in
theorem firstCall_of_parked {u : τ} (h : (u, w) ∈ parked c) : w.IsFirstCall := by
  rcases List.mem_append.mp h with h | h
  · obtain ⟨x, -, heq⟩ := List.mem_map.mp h
    rw [← (Prod.mk.inj heq).2]
    rfl
  · obtain ⟨x, -, heq⟩ := List.mem_map.mp h
    rw [← (Prod.mk.inj heq).2]
    rfl

/-- When no task is left to run nothing is due to anybody, and the channel shows what the sequential
channel shows. -/
theorem observed_of_idle (capacity : ℕ) (h : called.Reaches (bounded capacity, []) e)
    (hstack : e.stack = []) (htasks : e.localTasks = []) :
    e.state.memory.1.observed = (SequentialChannel.run capacity e.state.memory.2).observed := by
  obtain ⟨htidy, hmirrors, hanswered⟩ := refines_of_reaches capacity h
  set c := e.state.memory.1 with hc
  have hclosed (h' : c.isClosed = true) : c.senders = [] ∧ c.receivers = [] := by
    obtain ⟨hsenders, hreceivers⟩ := queues_of_closed (Primitive.reaches_of_record h) h'
    refine ⟨hsenders, ?_⟩
    by_contra hne
    obtain ⟨t, rest, hf⟩ := hreceivers hne
    have hf : (t, Place.closeSenders rest) ∈ e.stack := hf
    rw [hstack] at hf
    cases hf
  have hparked (u : τ) (w : Waiting V) (hw : c.waiting u = some w) : (u, w) ∈ parked c := by
    rcases htidy.accounted u w hw with hmem | ⟨f, hf, -⟩ | ⟨hu | hu, -⟩
    · exact hmem
    · rw [hstack] at hf
      cases hf
    · rw [htasks] at hu
      cases hu
    · rw [hstack] at hu
      cases hu
  have hqueues : c.senders = (SequentialChannel.run capacity e.state.memory.2).senders ∧
      c.receivers = (SequentialChannel.run capacity e.state.memory.2).receivers := by
    cases hopen : c.isClosed with
    | false => exact ⟨(hmirrors.opened hopen).1.symm, (hmirrors.opened hopen).2.symm⟩
    | true =>
      rw [(hclosed hopen).1, (hclosed hopen).2, (hmirrors.closed hopen).1,
        (hmirrors.closed hopen).2]
      exact ⟨rfl, rfl⟩
  refine Observed.ext (funext fun t => ?_) (funext fun t => propext ?_) hmirrors.storage.symm
    hmirrors.isClosed.symm hqueues.1 hqueues.2
  · obtain ⟨l, hdue, hA⟩ := hanswered t
    refine Eq.trans ?_ hA.symm
    show resultsOf c.results t = _
    cases hdue with
    | outside => rw [List.append_nil]
    | finish hf =>
      rw [hstack] at hf
      cases hf
    | @waiting w hw =>
      -- It waits in a queue, so that the channel is open and nothing is due.
      have hmem := hparked t w hw
      have hopen : c.isClosed = false := by
        by_contra hne
        obtain ⟨hsenders, hreceivers⟩ := hclosed (by simpa using hne)
        simp [parked, hsenders, hreceivers] at hmem
      rw [hopen, Waiting.due_of_firstCall (firstCall_of_parked hmem), List.append_nil]
  · show c.waiting t ≠ none ↔ _ ∈ (SequentialChannel.run capacity e.state.memory.2).senders.map _ ∨
      _ ∈ (SequentialChannel.run capacity e.state.memory.2).receivers
    rw [← hqueues.1, ← hqueues.2]
    constructor
    · intro hne
      obtain ⟨w, hw⟩ := Option.ne_none_iff_exists'.mp hne
      rcases List.mem_append.mp (hparked t w hw) with hmem | hmem
      · obtain ⟨x, hx, heq⟩ := List.mem_map.mp hmem
        exact Or.inl (List.mem_map.mpr ⟨x, hx, (Prod.mk.inj heq).1⟩)
      · obtain ⟨x, hx, heq⟩ := List.mem_map.mp hmem
        exact Or.inr ((Prod.mk.inj heq).1 ▸ hx)
    · rintro hmem hnone
      obtain ⟨hs, hr⟩ := htidy.not_queued (u := t) (by simp [hnone])
      exact hmem.elim hs hr

end Refinement

end LocalChannel

end Orengine.Sync
