import Orengine.Sync.Channels.Safety.Local

/-!
# Closing a `LocalChannel`

`structure_of_reaches` is about the storage and the queues in every run, and `close_answers_parked`
about the tasks that were parked when the channel was first closed.

The tasks that `close` executes run nested inside it and may use the same channel, `close`
included.  A task that was parked goes through three stages (`Stage`): it is in the drain of a
`close`, or in the queue of the receivers that a `close` will drain; it is about to be polled; it
has its answer.  That no task is in two drains is the ownership law of the executor.

`CloseLog` is a history: what the first `close` found, and whom the closed channel has executed.
-/

namespace Orengine.Sync

open Orengine.Runtime Orengine.Lib

/-- The future, told by `close`. -/
def Waiting.byClose {V : Type*} : Waiting V → Waiting V
  | .send _ v => .send .wokenByClose v
  | .recv _ slot => .recv .wokenByClose slot

namespace LocalChannel

variable {τ V : Type*} [DecidableEq τ]

/-! ### The history -/

/-- The history of a channel's closing. -/
structure CloseLog (τ V : Type*) where
  /-- The channel as the first `close` found it. -/
  closedAt : Option (LocalChannel τ V)
  /-- How many times operations of the closed channel have executed each task. -/
  resumed : τ → ℕ
  /-- A `close` has returned. -/
  returned : Bool

namespace CloseLog

def init : CloseLog τ V := ⟨none, fun _ => 0, false⟩

/-- One more execution of the task that the outcome executes, if it executes one. -/
def count (resumed : τ → ℕ) : Outcome τ (Place τ V) → τ → ℕ
  | .execTask u _ => Function.update resumed u (resumed u + 1)
  | _ => resumed

/-- What an operation adds to the history. -/
def note (c : LocalChannel τ V) (t : τ) (k : Place τ V) (op : Op V) (l : CloseLog τ V) :
    CloseLog τ V where
  closedAt :=
    match op with
    | .close => if c.isClosed then l.closedAt else some c
    | _ => l.closedAt
  resumed :=
    if c.isClosed then (c.code t k op).elim l.resumed fun r => count l.resumed r.2 else l.resumed
  returned :=
    match k with
    | .closeReceivers [] => true
    | _ => l.returned

end CloseLog

/-- The channel with the history of its closing. -/
abbrev logged : Primitive τ (LocalChannel τ V × CloseLog τ V) (Place τ V) (Op V) :=
  primitive.record CloseLog.note

/-! ### The structure of the channel -/

/-- The relation between the storage and the queues. -/
structure Shape (capacity : ℕ) (c : LocalChannel τ V) : Prop where
  capacity_eq : c.capacity = capacity
  bound : c.storage.length ≤ capacity
  sender : c.senders ≠ [] → c.storage.length = capacity ∧ c.receivers = []
  receiver : c.receivers ≠ [] → c.storage = [] ∧ c.senders = []

namespace Shape

variable {capacity : ℕ} {c : LocalChannel τ V}

theorem ret (h : Shape capacity c) (t : τ) (r : OpResult V) : Shape capacity (c.ret t r) :=
  ⟨h.capacity_eq, h.bound, h.sender, h.receiver⟩

omit [DecidableEq τ] in
theorem accepts (h : Shape capacity c) (accepted : List V) :
    Shape capacity { c with accepted := accepted } :=
  ⟨h.capacity_eq, h.bound, h.sender, h.receiver⟩

theorem writeSendState (h : Shape capacity c) (u : τ) (state : SendCallState) :
    Shape capacity (c.writeSendState u state) :=
  ⟨h.capacity_eq, h.bound, h.sender, h.receiver⟩

theorem writeRecvState (h : Shape capacity c) (u : τ) (state : RecvCallState) :
    Shape capacity (c.writeRecvState u state) :=
  ⟨h.capacity_eq, h.bound, h.sender, h.receiver⟩

omit [DecidableEq τ] in
/-- A value is stored while no receiver is parked and there is room: then no sender is parked. -/
theorem store (h : Shape capacity c) (hr : c.receivers = [])
    (hroom : ¬c.capacity ≤ c.storage.length) (v : V) :
    Shape capacity { c with storage := c.storage ++ [v] } := by
  have hs : c.senders = [] := by
    by_contra hne
    exact hroom (Nat.le_of_eq (h.capacity_eq.trans (h.sender hne).1.symm))
  have hbound := h.capacity_eq
  refine ⟨h.capacity_eq, ?_, fun hne => absurd hs hne, fun hne => absurd hr hne⟩
  rw [List.length_append, List.length_singleton]
  omega

omit [DecidableEq τ] in
theorem popReceiver (h : Shape capacity c) {u : τ} {rest : List τ} (hr : c.receivers = u :: rest) :
    Shape capacity { c with receivers := rest } := by
  obtain ⟨hst, hs⟩ := h.receiver (by simp [hr])
  exact ⟨h.capacity_eq, h.bound, fun hne => absurd hs hne, fun _ => ⟨hst, hs⟩⟩

theorem serveReceiver (h : Shape capacity c) {u : τ} {rest : List τ} (hr : c.receivers = u :: rest)
    (v : V) : Shape capacity (c.serveReceiver u rest v) := by
  obtain ⟨hcap, hbound, hsender, hreceiver⟩ := h.popReceiver hr
  exact ⟨hcap, hbound, hsender, hreceiver⟩

/-- **Every operation keeps the structure**, wherever in the nesting of operations it runs. -/
theorem code (h : Shape capacity c) {c' : LocalChannel τ V} {t : τ} {k : Place τ V} {op : Op V}
    {o : Outcome τ (Place τ V)} (hcode : c.code t k op = some (c', o)) : Shape capacity c' := by
  have ⟨hcap, hbound, hsender, hreceiver⟩ := h
  cases does_of_code hcode with
  | idle | closeReceivers => exact h
  | answer | finish | refuse => exact h.ret t _
  | @serveReceiver _ _ _ accepted _ _ _ _ hr => exact (h.accepts accepted).serveReceiver hr _
  | parkSender _ _ hr hfull =>
    -- The sender is parked behind a full storage.
    refine ⟨hcap, hbound, fun _ => ⟨?_, hr⟩, fun hne => absurd hr hne⟩
    change c.storage.length = capacity
    omega
  | @store _ _ _ accepted _ _ hr hroom => exact ((h.accepts accepted).store hr hroom _).ret t _
  | @moveUp _ _ _ _ x v xs hst u rest hs =>
    -- One value leaves the storage and one comes in.
    obtain ⟨hfull, hr⟩ := hsender (by simp [hs])
    rw [hst, List.length_cons] at hfull
    have hlen : (xs ++ [v]).length = capacity := by
      rw [List.length_append, List.length_singleton]
      exact hfull
    exact ⟨hcap, Nat.le_of_eq hlen, fun _ => ⟨hlen, hr⟩, fun hne => absurd hr hne⟩
  | takeStored _ _ hst hs =>
    have hr : c.receivers = [] := by
      by_contra hne
      simp [(hreceiver hne).1] at hst
    rw [hst, List.length_cons] at hbound
    exact ⟨hcap, Nat.le_of_succ_le hbound, fun hne => absurd hs hne, fun hne => absurd hr hne⟩
  | takeSent _ _ _ hs =>
    obtain ⟨hfull, hr⟩ := hsender (by simp [hs])
    exact ⟨hcap, hbound, fun _ => ⟨hfull, hr⟩, fun hne => absurd hr hne⟩
  | parkReceiver _ _ hst hs => exact ⟨hcap, hbound, fun hne => absurd hs hne, fun _ => ⟨hst, hs⟩⟩
  | closeSender u => exact h.writeSendState u _
  | closeSenders =>
    exact ⟨hcap, hbound, fun hne => ⟨(hsender hne).1, rfl⟩, fun hne => absurd rfl hne⟩
  | closeReceiver u => exact h.writeRecvState u _
  | close => exact ⟨hcap, hbound, fun hne => absurd rfl hne, fun hne => ⟨(hreceiver hne).1, rfl⟩⟩

end Shape

omit [DecidableEq τ] in
theorem shape_bounded (capacity : ℕ) : Shape capacity (bounded capacity : LocalChannel τ V) :=
  ⟨rfl, Nat.zero_le _, fun hne => absurd rfl hne, fun hne => absurd rfl hne⟩

/-! ### What an operation of a closed channel can do -/

/-- The effect of the code of `t` at a place of a closed channel. -/
inductive ClosedEffect (c : LocalChannel τ V) (t : τ) :
    Place τ V → LocalChannel τ V → Outcome τ (Place τ V) → Prop
  /-- The task awaits no future of the channel. -/
  | idle (hw : c.waiting t = none) : ClosedEffect c t .poll c (.goto .user)
  /-- The future that the task awaits is ready. -/
  | answer {w : Waiting V} (hw : c.waiting t = some w) :
    ClosedEffect c t .poll (c.ret t w.closedAnswer) (.goto .user)
  /-- An operation returns at once, or after the task that it executed. -/
  | ret {k : Place τ V} (r : OpResult V) (hk : k = .user ∨ k = .finish r) :
    ClosedEffect c t k (c.ret t r) (.goto .user)
  | sender (u : τ) (v : V) (rest : List (τ × V)) :
    ClosedEffect c t (.closeSenders ((u, v) :: rest)) (c.writeSendState u .wokenByClose)
      (.execTask u (.closeSenders rest))
  | senders : ClosedEffect c t (.closeSenders []) { c with receivers := [] }
      (.goto (.closeReceivers c.receivers))
  | receiver (u : τ) (rest : List τ) :
    ClosedEffect c t (.closeReceivers (u :: rest)) (c.writeRecvState u .wokenByClose)
      (.execTask u (.closeReceivers rest))
  | receivers : ClosedEffect c t (.closeReceivers []) c (.goto .user)
  /-- The channel is closed once more. -/
  | close : ClosedEffect c t .user { c with isClosed := true, senders := [] }
      (.goto (.closeSenders c.senders))

variable {c c' p : LocalChannel τ V} {t u : τ} {k : Place τ V} {o : Outcome τ (Place τ V)}

/-- **What an operation of a closed channel can do.** -/
theorem closedEffect_of_code (hc : c.isClosed = true) {op : Op V}
    (h : c.code t k op = some (c', o)) : ClosedEffect c t k c' o := by
  cases does_of_code h with
  | idle hw => exact .idle hw
  | answer hw => exact .answer hw
  | finish r => exact .ret r (Or.inr rfl)
  | refuse => exact .ret _ (Or.inl rfl)
  | closeSender u v rest => exact .sender u v rest
  | closeSenders => exact .senders
  | closeReceiver u rest => exact .receiver u rest
  | closeReceivers => exact .receivers
  | close => exact .close
  | serveReceiver _ hopen | parkSender _ hopen | store _ hopen | moveUp _ hopen
  | takeStored _ hopen | takeSent _ hopen | parkReceiver _ hopen => cases hc.symm.trans hopen

/-! ### The tasks that were parked -/

/-- The results that `u` has been given since the channel was `p`. -/
def answers (p c : LocalChannel τ V) (u : τ) : List (OpResult V) :=
  ((c.results.drop p.results.length).filter fun x => x.1 = u).map Prod.snd

theorem answers_ret_self (h : p.results <+: c.results) (t : τ) (r : OpResult V) :
    answers p (c.ret t r) t = answers p c t ++ [r] := by
  simp [answers, ret, List.drop_append_of_le_length h.length_le]

theorem answers_ret_of_ne (h : p.results <+: c.results) (hne : u ≠ t) (r : OpResult V) :
    answers p (c.ret t r) u = answers p c u := by
  simp [answers, ret, List.drop_append_of_le_length h.length_le, Ne.symm hne]

theorem holds_pos_of_sender {v : V} (h : (u, v) ∈ p.senders) : 0 < holds p u :=
  Nat.add_pos_left (List.count_pos_iff.mpr (List.mem_map_of_mem (f := Prod.fst) h)) _

theorem holds_pos_of_receiver (h : u ∈ p.receivers) : 0 < holds p u :=
  Nat.add_pos_right _ (List.count_pos_iff.mpr h)

/-- Nothing has been accepted, handed over, stored or parked since the channel was `p`. -/
structure Frozen (p c : LocalChannel τ V) : Prop where
  accepted : c.accepted = p.accepted
  handed : c.handed = p.handed
  storage : c.storage = p.storage
  senders : c.senders = []
  receivers : c.receivers = p.receivers ∨ c.receivers = []
  results : p.results <+: c.results

/-- The executor that runs the tasks of a channel, with the history. -/
abbrev State (τ V : Type*) := Executor τ (World τ (LocalChannel τ V × CloseLog τ V)) (Place τ V)

variable {e e' : State τ V}

/-- A `close` in progress is going to execute `u`. -/
def Draining (c : LocalChannel τ V) (e : State τ V) (u : τ) : Prop :=
  (∃ f ∈ e.stack, 0 < held f.2 u) ∨
    (u ∈ c.receivers ∧ ∃ t rest, (t, Place.closeSenders rest) ∈ e.stack)

/-- The stage that a task has reached which was parked with the future `w`. -/
inductive Stage (p c : LocalChannel τ V) (resumed : τ → ℕ) (e : State τ V) (u : τ)
    (w : Waiting V) : Prop
  | parked (hresumed : resumed u = 0) (hdraining : Draining c e u)
    (hwaiting : c.waiting u = some w) (hanswers : answers p c u = [])
  | scheduled (hresumed : resumed u = 1) (hscheduled : e.Scheduled logged.program u)
    (hwaiting : c.waiting u = some w.byClose) (hanswers : answers p c u = [])
  | answered (hresumed : resumed u = 1) (rest : List (OpResult V))
    (hanswers : answers p c u = w.byClose.closedAnswer :: rest)

/-- A task stays at its stage if what its stage says of it stays. -/
theorem Stage.mono {resumed resumed' : τ → ℕ} {w : Waiting V} (h : Stage p c resumed e u w)
    (hresumed : resumed' u = resumed u) (hwaiting : c'.waiting u = c.waiting u)
    (hanswers : answers p c' u = answers p c u) (hdraining : Draining c e u → Draining c' e' u)
    (hscheduled : c.waiting u = some w.byClose → e.Scheduled logged.program u →
      e'.Scheduled logged.program u) : Stage p c' resumed' e' u w := by
  cases h with
  | parked hr hd hw ha =>
    exact .parked (hresumed.trans hr) (hdraining hd) (hwaiting.trans hw) (hanswers.trans ha)
  | scheduled hr hs hw ha =>
    exact .scheduled (hresumed.trans hr) (hscheduled hw hs) (hwaiting.trans hw) (hanswers.trans ha)
  | answered hr rest ha => exact .answered (hresumed.trans hr) rest (hanswers.trans ha)

theorem Stage.head_of_idle {resumed : τ → ℕ} {w : Waiting V} (h : Stage p c resumed e u w)
    (hstack : e.stack = []) (htasks : e.localTasks = []) :
    resumed u = 1 ∧ (answers p c u).head? = some w.byClose.closedAnswer := by
  cases h with
  | parked _ hdraining _ _ =>
    rcases hdraining with ⟨f, hf, -⟩ | ⟨-, t, rest, hf⟩
    · simp [hstack] at hf
    · simp [hstack] at hf
  | scheduled _ hscheduled _ _ => simp [Executor.Scheduled, hstack, htasks] at hscheduled
  | answered hresumed rest hanswers => exact ⟨hresumed, by rw [hanswers]; rfl⟩

/-- The tasks in a drain were parked and have not been executed since. -/
def Drains (p : LocalChannel τ V) (resumed : τ → ℕ) : Place τ V → Prop
  | .closeSenders rest => ∀ x ∈ rest, x ∈ p.senders ∧ resumed x.1 = 0
  | .closeReceivers rest => ∀ u ∈ rest, u ∈ p.receivers ∧ resumed u = 0
  | _ => True

/-- The state of a channel that was closed when it was `p`. -/
structure AfterClose (p c : LocalChannel τ V) (resumed : τ → ℕ) (e : State τ V) : Prop where
  closed : c.isClosed = true
  fits : ∀ u, Fits p.senders p.receivers u (p.waiting u)
  frozen : Frozen p c
  /-- The `close` that will drain the receivers is in progress. -/
  pending : c.receivers ≠ [] → ∃ t rest, (t, Place.closeSenders rest) ∈ e.stack
  unresumed : ∀ u ∈ c.receivers, resumed u = 0
  drains : ∀ f ∈ e.stack, Drains p resumed f.2
  stage : ∀ u w, 0 < holds p u → p.waiting u = some w → Stage p c resumed e u w

namespace AfterClose

variable {p c c' : LocalChannel τ V} {resumed resumed' : τ → ℕ} {e e' : State τ V} {t u : τ}
  {k : Place τ V} {rest : List (τ × Place τ V)} {o : Outcome τ (Place τ V)}

/-- A move that does not run an operation. -/
theorem carries (h : AfterClose p c resumed e) (hcarries : Primitive.Carries logged e e') :
    AfterClose p c resumed e' := by
  have hclose {t : τ} {rest : List (τ × V)} (hf : (t, Place.closeSenders rest) ∈ e.stack) :
      (t, Place.closeSenders rest) ∈ e'.stack := hcarries.kept _ hf rfl
  refine ⟨h.closed, h.fits, h.frozen, ?_, h.unresumed, ?_, ?_⟩
  · intro hne
    obtain ⟨t, rest, hf⟩ := h.pending hne
    exact ⟨t, rest, hclose hf⟩
  · intro f hf
    rcases hcarries.entered f hf with hf | hf
    · exact h.drains f hf
    · rw [hf]
      trivial
  · intro u w hu hw
    refine (h.stage u w hu hw).mono rfl rfl rfl ?_ fun _ => hcarries.scheduled u
    rintro (⟨f, hf, hheld⟩ | ⟨hr, t, rest, hf⟩)
    · refine Or.inl ⟨f, hcarries.kept f hf ?_, hheld⟩
      -- The task's own code holds nobody.
      cases hk : f.2 with
      | user =>
        rw [hk] at hheld
        exact absurd hheld (Nat.lt_irrefl 0)
      | _ => rfl
    · exact Or.inr ⟨hr, t, rest, hclose hf⟩

/-- A `close` that drains the senders goes on, if the code that ran was not its own or leaves it in
the loop. -/
theorem closing_continues (hs : e.stack = (t, k) :: rest) {o : Runtime.Outcome τ (Place τ V)}
    (hcont : Executor.Continues logged.program e e' t k rest o)
    (hkind : ∀ r, k = .closeSenders r → ∃ r', (t, Place.closeSenders r') ∈ e'.stack) :
    (∃ t rest, (t, Place.closeSenders rest) ∈ e.stack) →
      ∃ t rest, (t, Place.closeSenders rest) ∈ e'.stack := by
  rintro ⟨t', rest', hf⟩
  rw [hs] at hf
  rcases List.mem_cons.mp hf with heq | hf
  · exact ⟨t, hkind rest' (Prod.mk.inj heq).2.symm⟩
  · exact ⟨t', rest', hcont.kept _ hf⟩

variable {k' : Place τ V}

/-- The drains after a piece of code: those of the others, and the one that it goes on with. -/
theorem drains_of_entered (hcont : Executor.Continues logged.program e e' t k rest o)
    (hrest : ∀ f ∈ rest, Drains p resumed f.2) (hplace : ∀ k' ∈ o.place, Drains p resumed k') :
    ∀ f ∈ e'.stack, Drains p resumed f.2 := by
  intro f hf
  rcases hcont.entered f hf with hf | ⟨k', hk', rfl⟩ | hf
  · exact hrest f hf
  · exact hplace k' hk'
  · rw [hf]
    trivial

/-- The polls in progress after a piece of code at a place that drains nobody. -/
theorem frames_goto (h : AfterClose p c resumed e) (hs : e.stack = (t, k) :: rest)
    (hcont : Executor.Continues logged.program e e' t k rest (.goto k')) (hk : ∀ u, held k u = 0)
    (hkind : ∀ r, k ≠ .closeSenders r) (hk' : Drains p resumed k') :
    ((∃ t rest, (t, Place.closeSenders rest) ∈ e.stack) →
        ∃ t rest, (t, Place.closeSenders rest) ∈ e'.stack) ∧
      (∀ f ∈ e'.stack, Drains p resumed f.2) ∧ ∀ u, Draining c e u → Draining c e' u := by
  have hclose := closing_continues hs hcont fun r hr => absurd hr (hkind r)
  refine ⟨hclose, ?_, ?_⟩
  · refine drains_of_entered hcont (fun f hf => h.drains f (Executor.mem_of_rest hs hf)) ?_
    rintro k'' ⟨⟩
    exact hk'
  · rintro u (⟨f, hf, hheld⟩ | ⟨hr, hf⟩)
    · rw [hs] at hf
      rcases List.mem_cons.mp hf with rfl | hf
      · rw [hk u] at hheld
        exact absurd hheld (Nat.lt_irrefl 0)
      · exact Or.inl ⟨f, hcont.kept _ hf, hheld⟩
    · exact Or.inr ⟨hr, hclose hf⟩

theorem same (h : AfterClose p c resumed e) (hs : e.stack = (t, k) :: rest)
    (hcont : Executor.Continues logged.program e e' t k rest (.goto k')) (hk : ∀ u, held k u = 0)
    (hkind : ∀ r, k ≠ .closeSenders r) (hk' : Drains p resumed k')
    (hpoll : k = .poll → c.waiting t = none) : AfterClose p c resumed e' := by
  obtain ⟨hclose, hdrains, hdraining⟩ := h.frames_goto hs hcont hk hkind hk'
  refine ⟨h.closed, h.fits, h.frozen, fun hne => hclose (h.pending hne), h.unresumed, hdrains, ?_⟩
  intro u w hu hw
  refine (h.stage u w hu hw).mono rfl rfl rfl (hdraining u) fun hwaiting => hcont.scheduled u ?_
  rintro heq
  obtain ⟨rfl, rfl⟩ := Prod.mk.inj heq
  rw [hpoll rfl] at hwaiting
  cases hwaiting

theorem ret (h : AfterClose p c resumed e) (hmem : e.state.memory.1 = c)
    (htotal : ∀ u, (custody.record CloseLog.note).ownership.total e u ≤ 1)
    (hs : e.stack = (t, k) :: rest)
    (hcont : Executor.Continues logged.program e e' t k rest (.goto .user))
    (hk : ∀ u, held k u = 0) (hkind : ∀ r, k ≠ .closeSenders r) {r : OpResult V}
    (hpoll : k = .poll → ∀ w, c.waiting t = some w → r = w.closedAnswer) :
    AfterClose p (c.ret t r) resumed e' := by
  obtain ⟨hclose, hdrains, hdraining⟩ := h.frames_goto hs hcont hk hkind trivial
  have hres := h.frozen.results
  have hfrozen : Frozen p (c.ret t r) :=
    ⟨h.frozen.accepted, h.frozen.handed, h.frozen.storage, h.frozen.senders, h.frozen.receivers,
      hres.trans (List.prefix_append ..)⟩
  refine ⟨h.closed, h.fits, hfrozen, fun hne => hclose (h.pending hne), h.unresumed, hdrains, ?_⟩
  intro u w hu hw
  by_cases hut : u = t
  · subst hut
    cases h.stage u w hu hw with
    | parked _ hd _ _ =>
      -- A task that runs is in no drain and in no queue.
      rcases hd with ⟨f, hf, hheld⟩ | ⟨hr, -⟩
      · have hzero := (custody.record CloseLog.note).ownership.held_running_eq_zero htotal hs hf
        exact absurd hzero (Nat.ne_of_gt hheld)
      · have hzero := (custody.record CloseLog.note).ownership.holds_running_eq_zero htotal hs
        have hholds : holds e.state.memory.1 u = 0 := Nat.eq_zero_of_add_eq_zero_right hzero
        rw [hmem] at hholds
        exact absurd hr (not_mem_of_holds_eq_zero hholds).2
    | scheduled hresumed hscheduled hwaiting hanswers =>
      have hentry := (custody.record CloseLog.note).ownership.eq_entry_of_scheduled htotal hs
        hscheduled
      refine .answered hresumed [] ?_
      rw [answers_ret_self hres, hanswers, hpoll hentry _ hwaiting]
      rfl
    | answered hresumed rest hanswers =>
      refine .answered hresumed (rest ++ [r]) ?_
      rw [answers_ret_self hres, hanswers]
      rfl
  · refine (h.stage u w hu hw).mono rfl (Function.update_of_ne hut ..)
      (answers_ret_of_ne hres hut r) (hdraining u) fun _ => hcont.scheduled u ?_
    exact fun heq => hut (Prod.mk.inj heq).1

theorem drains_update {v : τ} {n : ℕ} (hv : held k v = 0) (h : Drains p resumed k) :
    Drains p (Function.update resumed v n) k := by
  cases k with
  | closeSenders rest =>
    intro x hx
    have hne : x.1 ≠ v := by
      rintro rfl
      exact List.count_eq_zero.mp hv (List.mem_map_of_mem hx)
    rw [Function.update_of_ne hne]
    exact h x hx
  | closeReceivers rest =>
    intro u hu
    have hne : u ≠ v := by
      rintro rfl
      exact List.count_eq_zero.mp hv hu
    rw [Function.update_of_ne hne]
    exact h u hu
  | poll | user | finish r => trivial

theorem waiting_of_unresumed (h : AfterClose p c resumed e) (hu : 0 < holds p u) {w : Waiting V}
    (hw : p.waiting u = some w) (hzero : resumed u = 0) : c.waiting u = some w := by
  cases h.stage u w hu hw with
  | parked _ _ hwaiting _ => exact hwaiting
  | scheduled hone | answered hone => cases hzero.symm.trans hone

theorem resume (h : AfterClose p c resumed e) (hs : e.stack = (t, k) :: rest) {v : τ}
    {w : Waiting V} (hcont : Executor.Continues logged.program e e' t k rest (.execTask v k'))
    (hscheduled : e'.Scheduled logged.program v) (hholds : 0 < holds p v)
    (hw : p.waiting v = some w) (hresumed : resumed v = 0)
    (hheld : ∀ u, held k u = held k' u + oneAt v u)
    (hkind : ∀ r, k = .closeSenders r → ∃ r', k' = .closeSenders r') (hk' : Drains p resumed k')
    (hself : held k' v = 0) (hothers : v ∉ c.receivers ∧ ∀ f ∈ rest, held f.2 v = 0) :
    AfterClose p { c with waiting := Function.update c.waiting v (some w.byClose) }
      (Function.update resumed v (resumed v + 1)) e' := by
  have hclose : (∃ t rest, (t, Place.closeSenders rest) ∈ e.stack) →
      ∃ t rest, (t, Place.closeSenders rest) ∈ e'.stack := by
    refine closing_continues hs hcont fun r hr => ?_
    obtain ⟨r', rfl⟩ := hkind r hr
    exact ⟨r', hcont.place _ rfl⟩
  refine ⟨h.closed, h.fits, ?_, fun hne => hclose (h.pending hne), ?_, ?_, ?_⟩
  · exact ⟨h.frozen.accepted, h.frozen.handed, h.frozen.storage, h.frozen.senders,
      h.frozen.receivers, h.frozen.results⟩
  · intro u hu
    have hne : u ≠ v := by
      rintro rfl
      exact hothers.1 hu
    rw [Function.update_of_ne hne]
    exact h.unresumed u hu
  · refine drains_of_entered hcont (fun f hf =>
      drains_update (hothers.2 f hf) (h.drains f (Executor.mem_of_rest hs hf))) ?_
    rintro k'' ⟨⟩
    exact drains_update hself hk'
  · intro u w' hu hw'
    by_cases huv : u = v
    · subst huv
      obtain rfl : w = w' := Option.some.inj (hw.symm.trans hw')
      cases h.stage u w hu hw' with
      | parked _ _ hwaiting hanswers =>
        exact .scheduled (by rw [Function.update_self, hresumed]) hscheduled
          (Function.update_self ..) hanswers
      | scheduled hone | answered hone => cases hresumed.symm.trans hone
    · refine (h.stage u w' hu hw').mono (Function.update_of_ne huv ..)
        (Function.update_of_ne huv ..) rfl ?_ fun _ => hcont.scheduled u ?_
      · rintro (⟨f, hf, hpos⟩ | ⟨hr, hf⟩)
        · rw [hs] at hf
          rcases List.mem_cons.mp hf with rfl | hf
          · refine Or.inl ⟨(t, k'), hcont.place k' rfl, ?_⟩
            have heq := hheld u
            rw [oneAt_of_ne (Ne.symm huv)] at heq
            change 0 < held k u at hpos
            change 0 < held k' u
            omega
          · exact Or.inl ⟨f, hcont.kept _ hf, hpos⟩
        · exact Or.inr ⟨hr, hclose hf⟩
      · -- The code that runs is a drain, not the start of a poll.
        rintro heq
        have hzero := hheld v
        rw [← (Prod.mk.inj heq).2, oneAt_self] at hzero
        exact absurd hzero (Nat.ne_of_lt (Nat.succ_pos _))

/-- The senders are drained, and `close` takes the receivers out of their queue. -/
theorem takeReceivers (h : AfterClose p c resumed e)
    (hs : e.stack = (t, .closeSenders []) :: rest)
    (hcont : Executor.Continues logged.program e e' t (.closeSenders []) rest
      (.goto (.closeReceivers c.receivers))) :
    AfterClose p { c with receivers := [] } resumed e' := by
  refine ⟨h.closed, h.fits, ?_, fun hne => absurd rfl hne, nofun, ?_, ?_⟩
  · exact ⟨h.frozen.accepted, h.frozen.handed, h.frozen.storage, h.frozen.senders, Or.inr rfl,
      h.frozen.results⟩
  · refine drains_of_entered hcont (fun f hf => h.drains f (Executor.mem_of_rest hs hf)) ?_
    rintro k'' ⟨⟩ u hu
    refine ⟨?_, h.unresumed u hu⟩
    rcases h.frozen.receivers with heq | heq
    · exact heq ▸ hu
    · rw [heq] at hu
      cases hu
  · intro u w hu hw
    refine (h.stage u w hu hw).mono rfl rfl rfl ?_ fun _ => hcont.scheduled u nofun
    rintro (⟨f, hf, hheld⟩ | ⟨hr, -⟩)
    · rw [hs] at hf
      rcases List.mem_cons.mp hf with rfl | hf
      · exact absurd hheld (Nat.lt_irrefl 0)
      · exact Or.inl ⟨f, hcont.kept _ hf, hheld⟩
    · exact Or.inl ⟨_, hcont.place _ rfl, List.count_pos_iff.mpr hr⟩

theorem start (hfifo : Fifo c) (hopen : c.isClosed = false) (hresumed : ∀ u, resumed u = 0)
    (hcont : Executor.Continues logged.program e e' t .user rest (.goto (.closeSenders c.senders)))
    (hclosing : ∀ f ∈ rest, Closing c f.2) :
    AfterClose c { c with isClosed := true, senders := [] } resumed e' := by
  have hframe : (t, Place.closeSenders c.senders) ∈ e'.stack := hcont.place _ rfl
  refine ⟨rfl, hfifo.fits, ⟨rfl, rfl, rfl, rfl, Or.inl rfl, List.prefix_rfl⟩,
    fun _ => ⟨t, _, hframe⟩, fun u _ => hresumed u, ?_, ?_⟩
  · refine drains_of_entered hcont (fun f hf => ?_) ?_
    · -- No other `close` is in progress.
      have hclosed := hclosing f hf
      cases hk : f.2 with
      | closeSenders r | closeReceivers r =>
        rw [hk] at hclosed
        cases hclosed.symm.trans hopen
      | poll | user | finish r => trivial
    · rintro k' ⟨⟩ x hx
      exact ⟨hx, hresumed x.1⟩
  · intro u w hu hw
    refine .parked (hresumed u) ?_ hw ?_
    · by_cases hr : u ∈ c.receivers
      · exact Or.inr ⟨hr, t, _, hframe⟩
      · refine Or.inl ⟨_, hframe, ?_⟩
        rw [holds, List.count_eq_zero.mpr hr] at hu
        exact hu
    · simp [answers]

/-- **An operation of the closed channel keeps the stages** of the tasks that were parked. -/
theorem effect (h : AfterClose p c resumed e) (hmem : e.state.memory.1 = c)
    (htotal : ∀ u, (custody.record CloseLog.note).ownership.total e u ≤ 1)
    (hs : e.stack = (t, k) :: rest)
    (hcont : Executor.Continues logged.program e e' t k rest o)
    (hexec : ∀ u k', o = .execTask u k' → e'.Scheduled logged.program u)
    (heffect : ClosedEffect c t k c' o) : AfterClose p c' (CloseLog.count resumed o) e' := by
  have hdrain : Drains p resumed k := h.drains (t, k) (Executor.mem_top hs)
  -- A task at the front of a drain is nowhere else.
  have halone {v : τ} {k' : Place τ V} (hheld : ∀ u, held k u = held k' u + oneAt v u) :
      held k' v = 0 ∧ v ∉ c.receivers ∧ ∀ f ∈ rest, held f.2 v = 0 := by
    have hfront := hheld v
    rw [oneAt_self] at hfront
    obtain ⟨hone, hzero, hrest⟩ := (custody.record CloseLog.note).ownership.eq_zero_of_held_running
      (htotal v) hs (hfront.symm ▸ Nat.succ_pos _ : 0 < held k v)
    have hholds : holds e.state.memory.1 v = 0 := Nat.eq_zero_of_add_eq_zero_right hzero
    rw [hmem] at hholds
    change held k v = 1 at hone
    exact ⟨by omega, (not_mem_of_holds_eq_zero hholds).2, hrest⟩
  cases heffect with
  | idle hw => exact h.same hs hcont (fun _ => rfl) (by simp) trivial (fun _ => hw)
  | answer hw =>
    refine h.ret hmem htotal hs hcont (fun _ => rfl) (by simp) ?_
    intro _ w hw'
    rw [Option.some.inj (hw.symm.trans hw')]
  | ret r hk =>
    rcases hk with rfl | rfl
    · exact h.ret hmem htotal hs hcont (fun _ => rfl) (by simp) (by simp)
    · exact h.ret hmem htotal hs hcont (fun _ => rfl) (by simp) (by simp)
  | sender u v rest' =>
    obtain ⟨hsender, hzero⟩ := hdrain (u, v) (List.mem_cons_self ..)
    obtain ⟨state, hw⟩ := (h.fits u).sender v hsender
    have hholds := holds_pos_of_sender hsender
    have hheld (u' : τ) : held (.closeSenders ((u, v) :: rest')) u' =
        held (.closeSenders rest' : Place τ V) u' + oneAt u u' := by
      simp only [held, List.map_cons, count_cons_eq_oneAt]
    obtain ⟨hself, hothers⟩ := halone hheld
    have hafter := h.resume hs hcont (hexec u _ rfl) hholds hw hzero hheld
      (fun _ _ => ⟨rest', rfl⟩) (fun x hx => hdrain x (List.mem_cons_of_mem _ hx)) hself hothers
    simp only [writeSendState, h.waiting_of_unresumed hholds hw hzero]
    exact hafter
  | senders => exact h.takeReceivers hs hcont
  | receiver u rest' =>
    obtain ⟨hreceiver, hzero⟩ := hdrain u (List.mem_cons_self ..)
    obtain ⟨state, slot, hw⟩ := (h.fits u).receiver hreceiver
    have hholds := holds_pos_of_receiver hreceiver
    have hheld (u' : τ) : held (.closeReceivers (u :: rest') : Place τ V) u' =
        held (.closeReceivers rest' : Place τ V) u' + oneAt u u' := by
      simp only [held, count_cons_eq_oneAt]
    obtain ⟨hself, hothers⟩ := halone hheld
    have hafter := h.resume hs hcont (hexec u _ rfl) hholds hw hzero hheld (by simp)
      (fun x hx => hdrain x (List.mem_cons_of_mem _ hx)) hself hothers
    simp only [writeRecvState, h.waiting_of_unresumed hholds hw hzero]
    exact hafter
  | receivers => exact h.same hs hcont (fun _ => rfl) (by simp) trivial (by simp)
  | close =>
    have hsame : ({ c with isClosed := true, senders := [] } : LocalChannel τ V) = c := by
      rw [← h.closed, ← h.frozen.senders]
    rw [hsame]
    refine h.same hs hcont (fun _ => rfl) (by simp) ?_ (by simp)
    rw [h.frozen.senders]
    simp [Drains]

end AfterClose

/-! ### The queue of the receivers -/

/-- No receiver is parked once a `close` has taken the receivers out of their queue. -/
structure Drained (c : LocalChannel τ V) (returned : Bool) (e : State τ V) : Prop where
  frame : ∀ t rest, (t, Place.closeReceivers rest) ∈ e.stack → c.receivers = []
  returned : returned = true → c.receivers = []

theorem Drained.carries {returned : Bool} (h : Drained c returned e)
    (hcarries : Primitive.Carries logged e e') : Drained c returned e' := by
  refine ⟨?_, h.returned⟩
  intro t rest hf
  rcases hcarries.entered _ hf with hf | hf
  · exact h.frame t rest hf
  · cases hf

theorem Drained.effect {l : CloseLog τ V} {op : Op V} {rest : List (τ × Place τ V)}
    (h : Drained c l.returned e) (hs : e.stack = (t, k) :: rest)
    (hcont : Executor.Continues logged.program e e' t k rest o)
    (heffect : ClosedEffect c t k c' o) : Drained c' (CloseLog.note c t k op l).returned e' := by
  have htop {r : List τ} (hk : k = .closeReceivers r) : c.receivers = [] :=
    h.frame t r (by rw [hs, hk]; exact List.mem_cons_self ..)
  -- The queue only loses tasks, and is empty where the code goes on with them.
  have hqueue : (c.receivers = [] → c'.receivers = []) ∧
      ∀ r, .closeReceivers r ∈ o.place → c'.receivers = [] := by
    cases heffect with
    | idle | answer | ret | sender | receivers | close => exact ⟨id, by rintro r ⟨⟩⟩
    | senders => exact ⟨fun _ => rfl, fun _ _ => rfl⟩
    | receiver => exact ⟨id, fun _ _ => htop rfl⟩
  refine ⟨?_, ?_⟩
  · intro t' r hf
    rcases hcont.entered _ hf with hf | ⟨k', hk', heq⟩ | hf
    · exact hqueue.1 (h.frame t' r (Executor.mem_of_rest hs hf))
    · rw [← (Prod.mk.inj heq).2] at hk'
      exact hqueue.2 r hk'
    · cases hf
  · intro hreturned
    refine hqueue.1 ?_
    unfold CloseLog.note at hreturned
    dsimp only at hreturned
    split at hreturned
    · exact htop rfl
    · exact h.returned hreturned

/-! ### Whole runs -/

theorem isClosed_of_code {op : Op V} (h : c.code t k op = some (c', o)) (hop : op ≠ .close) :
    c'.isClosed = c.isClosed := by
  cases does_of_code h with
  | close => exact absurd rfl hop
  | _ => rfl

/-- The channel and its history agree. -/
structure Agrees (e : State τ V) : Prop where
  before : e.state.memory.2.closedAt = none →
    e.state.memory.1.isClosed = false ∧ (∀ u, e.state.memory.2.resumed u = 0) ∧
      e.state.memory.2.returned = false
  after : ∀ p, e.state.memory.2.closedAt = some p →
    AfterClose p e.state.memory.1 e.state.memory.2.resumed e ∧
      Drained e.state.memory.1 e.state.memory.2.returned e

theorem Agrees.carries (h : Agrees e) (hcarries : Primitive.Carries logged e e') : Agrees e' := by
  refine ⟨?_, ?_⟩
  · rw [hcarries.memory]
    exact h.before
  · intro p hp
    rw [hcarries.memory] at hp ⊢
    obtain ⟨hafter, hdrained⟩ := h.after p hp
    exact ⟨hafter.carries hcarries, hdrained.carries hcarries⟩

/-- An operation keeps the agreement. -/
theorem Agrees.op (h : Agrees e)
    (htotal : ∀ u, (custody.record CloseLog.note).ownership.total e u ≤ 1)
    (hfifo : e.state.memory.1.isClosed = false → Fifo e.state.memory.1)
    (hclosing : ∀ f ∈ e.stack, Closing e.state.memory.1 f.2) {op : Op V}
    {rest : List (τ × Place τ V)} (hs : e.stack = (t, k) :: rest)
    (hcode : e.state.memory.1.code t k op = some (c', o)) :
    Agrees (e.afterCode logged.program t rest
      { e.state with memory := (c', CloseLog.note e.state.memory.1 t k op e.state.memory.2) }
      o) := by
  obtain ⟨⟨⟨c, l⟩, away⟩, stack, tasks, series⟩ := e
  dsimp only at *
  subst hs
  have hcont := Executor.continues_afterCode (P := logged.program)
    (e := ⟨⟨(c, l), away⟩, (t, k) :: rest, tasks, series⟩) rfl
    ⟨(c', CloseLog.note c t k op l), away⟩ o
  cases hclosed : c.isClosed with
  | true =>
    have heffect := closedEffect_of_code hclosed hcode
    have hlog : (CloseLog.note c t k op l).closedAt = l.closedAt := by
      cases op <;> simp [CloseLog.note, hclosed]
    have hresumed : (CloseLog.note c t k op l).resumed = CloseLog.count l.resumed o := by
      simp [CloseLog.note, hclosed, hcode]
    refine ⟨?_, ?_⟩
    · intro hnone
      rw [Executor.afterCode_state] at hnone
      have hopen := (h.before (hlog.symm.trans hnone)).1
      cases hclosed.symm.trans hopen
    · intro p hp
      rw [Executor.afterCode_state] at hp ⊢
      obtain ⟨hafter, hdrained⟩ := h.after p (hlog.symm.trans hp)
      refine ⟨?_, hdrained.effect rfl hcont heffect⟩
      rw [hresumed]
      refine hafter.effect rfl htotal rfl hcont ?_ heffect
      rintro u k' rfl
      exact Executor.scheduled_afterCode_execTask ..
  | false =>
    have hnone : l.closedAt = none := by
      cases hp : l.closedAt with
      | none => rfl
      | some p => cases ((h.after p hp).1.closed).symm.trans hclosed
    obtain ⟨-, hzero, hreturned⟩ := h.before hnone
    -- No `close` is in progress.
    have hnoClose {t' : τ} {r : List τ} (hf : (t', .closeReceivers r) ∈ (t, k) :: rest) :
        False := by
      cases (hclosing _ hf).symm.trans hclosed
    have hkept : (CloseLog.note c t k op l).resumed = l.resumed := by
      simp [CloseLog.note, hclosed]
    have hrunning : (CloseLog.note c t k op l).returned = false := by
      unfold CloseLog.note
      dsimp only
      split
      · exact (hnoClose (List.mem_cons_self ..)).elim
      · exact hreturned
    by_cases hop : op = .close
    · subst hop
      have hlog : (CloseLog.note c t k .close l).closedAt = some c := by
        simp [CloseLog.note, hclosed]
      cases k with
      | user =>
        obtain ⟨rfl, rfl⟩ := hcode
        refine ⟨?_, ?_⟩
        · intro hp
          rw [Executor.afterCode_state] at hp
          cases hlog.symm.trans hp
        · intro p hp
          rw [Executor.afterCode_state] at hp ⊢
          obtain rfl : c = p := Option.some.inj (hlog.symm.trans hp)
          refine ⟨?_, ?_, ?_⟩
          · rw [hkept]
            exact .start (hfifo hclosed) hclosed hzero hcont
              (fun f hf => hclosing f (List.mem_cons_of_mem _ hf))
          · intro t' r hf
            rcases hcont.entered _ hf with hf | ⟨k', hk', heq⟩ | hf
            · exact (hnoClose (List.mem_cons_of_mem _ hf)).elim
            · rw [← (Prod.mk.inj heq).2] at hk'
              cases hk'
            · cases hf
          · intro htrue
            cases htrue.symm.trans hrunning
      | poll | finish => cases hcode
      | closeSenders r | closeReceivers r => cases r <;> cases hcode
    · have hlog : (CloseLog.note c t k op l).closedAt = l.closedAt := by
        cases op with
        | close => exact absurd rfl hop
        | _ => rfl
      refine ⟨?_, ?_⟩
      · intro _
        rw [Executor.afterCode_state]
        refine ⟨(isClosed_of_code hcode hop).trans hclosed, fun u => ?_, hrunning⟩
        rw [hkept]
        exact hzero u
      · intro p hp
        rw [Executor.afterCode_state] at hp
        cases (hlog.symm.trans hp).symm.trans hnone

theorem agrees_of_reaches {capacity : ℕ} (h : logged.Reaches (bounded capacity, CloseLog.init) e) :
    Agrees e := by
  refine Reach.invariant (I := Agrees)
    ⟨fun _ => ⟨rfl, fun _ => rfl, rfl⟩, fun _ hp => by cases hp⟩ ?_ h
  intro e m e' hreach hagrees _ hstep
  have htotal := (custody.record CloseLog.note).total_le_one
    (fun u => by simp [Custody.record, custody, holds, bounded]) hreach.reachable
  obtain ⟨hfifo, hclosing⟩ := fifo_of_reaches (Primitive.reaches_of_record hreach.reachable)
  rcases Primitive.move_cases rfl hstep with ⟨op, t, k, rest, s, o, -, hs, hcode, rfl⟩ | hcarries
  · obtain ⟨hop, hnote⟩ := Primitive.code_of_record hcode
    have hafter := hagrees.op htotal hfifo hclosing hs hop
    rwa [← hnote] at hafter
  · exact hagrees.carries hcarries

/-- The queues of a closed channel: those of the senders are empty, and if a receiver is parked the
`close` that will drain it is in progress. -/
theorem queues_of_closed {capacity : ℕ} {e : Executor τ (World τ (LocalChannel τ V)) (Place τ V)}
    (h : primitive.Reaches (bounded capacity) e) (hclosed : e.state.memory.isClosed = true) :
    e.state.memory.senders = [] ∧ (e.state.memory.receivers ≠ [] →
      ∃ t rest, (t, Place.closeSenders rest) ∈ e.stack) := by
  obtain ⟨e, hreach, rfl⟩ := Primitive.exists_record CloseLog.note CloseLog.init h
  have hagrees := agrees_of_reaches hreach
  cases hp : e.state.memory.2.closedAt with
  | none => cases hclosed.symm.trans (hagrees.before hp).1
  | some p =>
    have hafter := (hagrees.after p hp).1
    exact ⟨hafter.frozen.senders, hafter.pending⟩

/-- **The structure of a channel.** In every run of any tasks over a channel of any capacity, before
and after it is closed and at every point where a task runs nested inside an operation: the storage
is within the capacity, parked senders and parked receivers exclude each other and are there only
while the storage is full or empty, and when a `close` has returned nobody is parked. -/
theorem structure_of_reaches (capacity : ℕ) {e : State τ V}
    (h : logged.Reaches (bounded capacity, CloseLog.init) e) :
    Shape capacity e.state.memory.1 ∧
    (e.state.memory.2.returned = true →
      e.state.memory.1.senders = [] ∧ e.state.memory.1.receivers = []) := by
  have hagrees := agrees_of_reaches h
  refine ⟨?_, ?_⟩
  · refine Primitive.memory_invariant (J := fun s => Shape capacity s.1) (shape_bounded capacity)
      ?_ h
    intro s t k op s' o hshape hcode
    exact hshape.code (Primitive.code_of_record hcode).1
  · intro hreturned
    cases hp : e.state.memory.2.closedAt with
    | none => cases hreturned.symm.trans (hagrees.before hp).2.2
    | some p =>
      obtain ⟨hafter, hdrained⟩ := hagrees.after p hp
      exact ⟨hafter.frozen.senders, hdrained.returned hreturned⟩

/-- Two senders are parked on a channel without storage when a third task closes it; the first of
them closes it again and the second sends again, both nested inside the `close`. -/
def closeNested : List (Move ℕ (TaskOp ℕ (Op ℕ))) :=
  [.wake 0, .code (.op .go), .code (.op (.send 5)), .wake 1, .code (.op .go), .code (.op (.send 6)),
    .wake 2, .code (.op .go), .code (.op .close), .code (.op .go), .code (.op .go),
    .code (.op .close), .code (.op .go), .code (.op .go), .code .exit, .code (.op .go),
    .code (.op .go), .code (.op (.send 9)), .code .exit, .code (.op .go), .code (.op .go),
    .code .exit]

theorem structure_of_closeNested :
    ∃ e : State ℕ ℕ, logged.Reaches (bounded 0, CloseLog.init) e ∧
      e.state.memory.2.returned = true ∧ Shape 0 e.state.memory.1 ∧
      e.state.memory.1.senders = [] ∧ e.state.memory.1.receivers = [] := by
  have h : logged.Reaches (bounded 0, CloseLog.init) _ := reachable_of_exec closeNested rfl
  have hstructure := structure_of_reaches 0 h
  exact ⟨_, h, rfl, hstructure.1, hstructure.2 rfl⟩

/-- No task is stuck inside an operation. -/
theorem exists_code_step (e : State τ V) (hs : e.stack ≠ []) :
    ∃ choice e', e.step logged.program (.code choice) = some e' := by
  obtain ⟨⟨t, k⟩, rest, hstack⟩ := List.exists_cons_of_ne_nil hs
  have hgo (hcode : ∃ r, e.state.memory.1.code t k .go = some r) :
      ∃ choice e', e.step logged.program (.code choice) = some e' := by
    obtain ⟨r, hr⟩ := hcode
    refine ⟨.op .go, ?_⟩
    simp only [Executor.step, hstack, Primitive.program, Primitive.taskCode, Primitive.record,
      primitive, hr, Option.map_some, Option.some.injEq, exists_eq']
  cases k with
  | user =>
    refine ⟨.exit, ?_⟩
    simp [Executor.step, hstack, Primitive.program, Primitive.taskCode, Primitive.record, primitive,
      Place.isUser]
  | poll | finish => exact hgo ⟨_, rfl⟩
  | closeSenders r | closeReceivers r => cases r <;> exact hgo ⟨_, rfl⟩

/-- **Closing a channel.** Let the channel be `p` when it is first closed, in any run of any tasks
over it.  From then on nothing is accepted, handed over, stored or parked.  Every sender and every
receiver parked in `p` is executed by the closed channel once, after which its next poll returns
`Closed`, to a sender with its own value; until it is executed a `close` in progress has it in its
drain.  So each has its answer when no task is left to run, and no task is stuck before. -/
theorem close_answers_parked (capacity : ℕ) {e : State τ V}
    (h : logged.Reaches (bounded capacity, CloseLog.init) e) {p : LocalChannel τ V}
    (hp : e.state.memory.2.closedAt = some p) :
    Frozen p e.state.memory.1 ∧
    (∀ u v, (u, v) ∈ p.senders →
      ∃ state, Stage p e.state.memory.1 e.state.memory.2.resumed e u (.send state v)) ∧
    (∀ u ∈ p.receivers,
      ∃ state slot, Stage p e.state.memory.1 e.state.memory.2.resumed e u (.recv state slot)) ∧
    (e.stack = [] → e.localTasks = [] →
      (∀ u v, (u, v) ∈ p.senders → e.state.memory.2.resumed u = 1 ∧
        (answers p e.state.memory.1 u).head? = some (.send (.closed v))) ∧
      ∀ u ∈ p.receivers, e.state.memory.2.resumed u = 1 ∧
        (answers p e.state.memory.1 u).head? = some (.recvIn .closed none)) ∧
    (e.stack ≠ [] → ∃ choice e', e.step logged.program (.code choice) = some e') := by
  have hafter := ((agrees_of_reaches h).after p hp).1
  have hsender (u : τ) (v : V) (hu : (u, v) ∈ p.senders) :
      ∃ state, Stage p e.state.memory.1 e.state.memory.2.resumed e u (.send state v) := by
    obtain ⟨state, hw⟩ := (hafter.fits u).sender v hu
    exact ⟨state, hafter.stage u _ (holds_pos_of_sender hu) hw⟩
  have hreceiver (u : τ) (hu : u ∈ p.receivers) :
      ∃ state slot, Stage p e.state.memory.1 e.state.memory.2.resumed e u (.recv state slot) := by
    obtain ⟨state, slot, hw⟩ := (hafter.fits u).receiver hu
    exact ⟨state, slot, hafter.stage u _ (holds_pos_of_receiver hu) hw⟩
  refine ⟨hafter.frozen, hsender, hreceiver, ?_, exists_code_step e⟩
  intro hstack htasks
  refine ⟨?_, ?_⟩
  · intro u v hu
    obtain ⟨state, hstage⟩ := hsender u v hu
    exact hstage.head_of_idle hstack htasks
  · intro u hu
    obtain ⟨state, slot, hstage⟩ := hreceiver u hu
    exact hstage.head_of_idle hstack htasks

/-- Both senders of `closeNested` have their own values back. -/
theorem close_answers_closeNested :
    ∃ (e : State ℕ ℕ) (p : LocalChannel ℕ ℕ), logged.Reaches (bounded 0, CloseLog.init) e ∧
      e.state.memory.2.closedAt = some p ∧ p.senders = [(0, 5), (1, 6)] ∧
      (∀ u v, (u, v) ∈ p.senders → e.state.memory.2.resumed u = 1 ∧
        (answers p e.state.memory.1 u).head? = some (.send (.closed v))) := by
  have h : logged.Reaches (bounded 0, CloseLog.init) _ := reachable_of_exec closeNested rfl
  exact ⟨_, _, h, rfl, rfl, ((close_answers_parked 0 h rfl).2.2.2.1 rfl rfl).1⟩

end LocalChannel

end Orengine.Sync
