import Orengine.Sync.Channels.Local

/-!
# `LocalChannel` is a lossless FIFO

`Does` lists what the code can do at each place.  `custody` says that no operation puts a task into
two places, so that a task which is being polled is in neither queue.  `Fifo` is the invariant of
the memory: next to the order itself (`fifo_of_reachable`) it says that a receiver is parked only in
front of an empty channel, and that a future in the state `FirstCall` belongs to a parked task, so
that no value is sent twice.
-/

namespace Orengine.Sync

open Orengine.Runtime Orengine.Lib

/-- What a poll of the future returns when the channel is closed. -/
def Waiting.closedAnswer {V : Type*} : Waiting V → OpResult V
  | .send .wokenToReturnReady _ => .send .ok
  | .send _ v => .send (.closed v)
  | .recv .wokenToReturnReady slot => .recvIn .ok slot
  | .recv _ _ => .recvIn .closed none

/-- The future has been polled once and has not been answered. -/
def Waiting.IsFirstCall {V : Type*} : Waiting V → Prop
  | .send state _ => state = .firstCall
  | .recv state _ => state = .firstCall

/-- The results of operations that have done nothing. -/
def OpResult.Refuses {V : Type*} : OpResult V → Prop
  | .send (.closed _) | .trySend (.closed _) | .trySend (.full _) => True
  | .recvIn .closed none | .tryRecvIn .closed none | .tryRecvIn .empty none => True
  | _ => False

namespace LocalChannel

variable {τ V : Type*} [DecidableEq τ]

/-! ### What an operation can do -/

theorem sendFirstCall_cases (c : LocalChannel τ V) (t : τ) (v : V) :
    (c.isClosed = true ∧ c.sendFirstCall t v = (c.ret t (.send (.closed v)), .goto .user)) ∨
    (c.isClosed = false ∧ ∃ u rest, c.receivers = u :: rest ∧
      c.sendFirstCall t v = (c.serveReceiver u rest v, .execTask u (.finish (.send .ok)))) ∨
    (c.isClosed = false ∧ c.receivers = [] ∧ c.capacity ≤ c.storage.length ∧
      c.sendFirstCall t v = (c.parkSender t v, .returned)) ∨
    (c.isClosed = false ∧ c.receivers = [] ∧ ¬c.capacity ≤ c.storage.length ∧
      c.sendFirstCall t v =
        ({ c with storage := c.storage ++ [v] }.ret t (.send .ok), .goto .user)) := by
  unfold sendFirstCall
  cases hclosed : c.isClosed with
  | true => exact Or.inl ⟨rfl, by simp⟩
  | false =>
    right
    cases hr : c.receivers with
    | cons u rest => exact Or.inl ⟨rfl, u, rest, rfl, by simp⟩
    | nil =>
      by_cases hfull : c.capacity ≤ c.storage.length
      · exact Or.inr (Or.inl ⟨rfl, rfl, hfull, by simp [hfull]⟩)
      · exact Or.inr (Or.inr ⟨rfl, rfl, hfull, by simp [hfull]⟩)

theorem recvFirstCall_cases (c : LocalChannel τ V) (t : τ) :
    (c.isClosed = true ∧ c.recvFirstCall t = (c.ret t (.recvIn .closed none), .goto .user)) ∨
    (c.isClosed = false ∧ ∃ u v rest, c.storage = [] ∧ c.senders = (u, v) :: rest ∧
      c.recvFirstCall t = c.recvFromSender u v rest (.recvIn .ok (some v))) ∨
    (c.isClosed = false ∧ c.storage = [] ∧ c.senders = [] ∧
      c.recvFirstCall t = (c.parkReceiver t, .returned)) ∨
    (c.isClosed = false ∧ ∃ x xs, c.storage = x :: xs ∧
      c.recvFirstCall t = c.recvStored t x xs (.recvIn .ok (some x))) := by
  unfold recvFirstCall
  cases hclosed : c.isClosed with
  | true => exact Or.inl ⟨rfl, by simp⟩
  | false =>
    right
    cases hst : c.storage with
    | cons x xs => exact Or.inr (Or.inr ⟨rfl, x, xs, rfl, by simp⟩)
    | nil =>
      cases hs : c.senders with
      | cons s rest => exact Or.inl ⟨rfl, s.1, s.2, rest, rfl, rfl, by simp⟩
      | nil => exact Or.inr (Or.inl ⟨rfl, rfl, rfl, by simp⟩)

theorem recvStored_cases (c : LocalChannel τ V) (t : τ) (x : V) (xs : List V) (r : OpResult V) :
    (∃ u v rest, c.senders = (u, v) :: rest ∧
      c.recvStored t x xs r =
        ({ c with storage := xs ++ [v], senders := rest, handed := c.handed ++ [x] }.writeSendState
          u .wokenToReturnReady, .execTask u (.finish r))) ∨
    (c.senders = [] ∧
      c.recvStored t x xs r =
        ({ c with storage := xs, handed := c.handed ++ [x] }.ret t r, .goto .user)) := by
  unfold recvStored
  cases hs : c.senders with
  | cons s rest => exact Or.inl ⟨s.1, s.2, rest, rfl, rfl⟩
  | nil => exact Or.inr ⟨rfl, by simp⟩

/-- What the channel has accepted when `t` at this place tries to send `v`: a call accepts its
value, and a poll of a future in its first call does not do so again. -/
inductive Offers (c : LocalChannel τ V) (t : τ) (v : V) : Place τ V → List V → Prop
  | call : Offers c t v .user (c.accepted ++ [v])
  | again (hw : c.waiting t = some (.send .firstCall v)) : Offers c t v .poll c.accepted

/-- `t` at this place tries to receive. -/
inductive Asks (c : LocalChannel τ V) (t : τ) : Place τ V → Prop
  | call : Asks c t .user
  | again {slot : Option V} (hw : c.waiting t = some (.recv .firstCall slot)) : Asks c t .poll

/-- **What the code of `t` at a place can do.** -/
inductive Does (c : LocalChannel τ V) (t : τ) :
    Place τ V → Op V → LocalChannel τ V → Outcome τ (Place τ V) → Prop
  /-- The task awaits no future of the channel. -/
  | idle {op : Op V} (hw : c.waiting t = none) : Does c t .poll op c (.goto .user)
  /-- The future that the task awaits is ready. -/
  | answer {op : Op V} {w : Waiting V} (hw : c.waiting t = some w)
    (h : w.IsFirstCall → c.isClosed = true) :
    Does c t .poll op (c.ret t w.closedAnswer) (.goto .user)
  /-- An operation returns after the task that it executed, ... -/
  | finish {op : Op V} (r : OpResult V) : Does c t (.finish r) op (c.ret t r) (.goto .user)
  /-- ... or at once. -/
  | refuse {op : Op V} {r : OpResult V} (hr : r.Refuses) :
    Does c t .user op (c.ret t r) (.goto .user)
  | serveReceiver {k : Place τ V} {op : Op V} {v : V} {accepted : List V}
    (hv : Offers c t v k accepted) (hopen : c.isClosed = false) {u : τ} {rest : List τ}
    (hr : c.receivers = u :: rest) {r : OpResult V} (hsent : r = .send .ok ∨ r = .trySend .ok) :
    Does c t k op ({ c with accepted := accepted }.serveReceiver u rest v)
      (.execTask u (.finish r))
  | parkSender {k : Place τ V} {op : Op V} {v : V} {accepted : List V}
    (hv : Offers c t v k accepted) (hopen : c.isClosed = false) (hr : c.receivers = [])
    (hfull : c.capacity ≤ c.storage.length) :
    Does c t k op ({ c with accepted := accepted }.parkSender t v) .returned
  | store {k : Place τ V} {op : Op V} {v : V} {accepted : List V} (hv : Offers c t v k accepted)
    (hopen : c.isClosed = false) (hr : c.receivers = [])
    (hroom : ¬c.capacity ≤ c.storage.length) {r : OpResult V}
    (hsent : r = .send .ok ∨ r = .trySend .ok) :
    Does c t k op ({ c with accepted := accepted, storage := c.storage ++ [v] }.ret t r)
      (.goto .user)
  /-- The front of the storage is received, and the first parked sender moves up. -/
  | moveUp {k : Place τ V} {op : Op V} (hk : Asks c t k) (hopen : c.isClosed = false) {x v : V}
    {xs : List V} (hst : c.storage = x :: xs) {u : τ} {rest : List (τ × V)}
    (hs : c.senders = (u, v) :: rest) {r : OpResult V}
    (hgot : r = .recvIn .ok (some x) ∨ r = .tryRecvIn .ok (some x)) :
    Does c t k op ({ c with storage := xs ++ [v], senders := rest, handed := c.handed ++ [x] }
      |>.writeSendState u .wokenToReturnReady) (.execTask u (.finish r))
  | takeStored {k : Place τ V} {op : Op V} (hk : Asks c t k) (hopen : c.isClosed = false) {x : V}
    {xs : List V} (hst : c.storage = x :: xs) (hs : c.senders = []) {r : OpResult V}
    (hgot : r = .recvIn .ok (some x) ∨ r = .tryRecvIn .ok (some x)) :
    Does c t k op ({ c with storage := xs, handed := c.handed ++ [x] }.ret t r) (.goto .user)
  | takeSent {k : Place τ V} {op : Op V} (hk : Asks c t k) (hopen : c.isClosed = false)
    (hst : c.storage = []) {u : τ} {v : V} {rest : List (τ × V)}
    (hs : c.senders = (u, v) :: rest) {r : OpResult V}
    (hgot : r = .recvIn .ok (some v) ∨ r = .tryRecvIn .ok (some v)) :
    Does c t k op ({ c with senders := rest, handed := c.handed ++ [v] }
      |>.writeSendState u .wokenToReturnReady) (.execTask u (.finish r))
  | parkReceiver {k : Place τ V} {op : Op V} (hk : Asks c t k) (hopen : c.isClosed = false)
    (hst : c.storage = []) (hs : c.senders = []) : Does c t k op (c.parkReceiver t) .returned
  | closeSender {op : Op V} (u : τ) (v : V) (rest : List (τ × V)) :
    Does c t (.closeSenders ((u, v) :: rest)) op (c.writeSendState u .wokenByClose)
      (.execTask u (.closeSenders rest))
  | closeSenders {op : Op V} : Does c t (.closeSenders []) op { c with receivers := [] }
      (.goto (.closeReceivers c.receivers))
  | closeReceiver {op : Op V} (u : τ) (rest : List τ) :
    Does c t (.closeReceivers (u :: rest)) op (c.writeRecvState u .wokenByClose)
      (.execTask u (.closeReceivers rest))
  | closeReceivers {op : Op V} : Does c t (.closeReceivers []) op c (.goto .user)
  | close : Does c t .user .close { c with isClosed := true, senders := [] }
      (.goto (.closeSenders c.senders))

section Does

variable {c c' : LocalChannel τ V} {t : τ} {k : Place τ V} {op : Op V}
  {o : Outcome τ (Place τ V)}

theorem does_sendFirstCall {v : V} {accepted : List V} (hv : Offers c t v k accepted)
    (hopen : c.isClosed = false) :
    Does c t k op ({ c with accepted := accepted }.sendFirstCall t v).1
      ({ c with accepted := accepted }.sendFirstCall t v).2 := by
  rcases sendFirstCall_cases { c with accepted := accepted } t v with ⟨hclosed, -⟩ |
    ⟨-, u, rest, hr, heq⟩ | ⟨-, hr, hfull, heq⟩ | ⟨-, hr, hroom, heq⟩
  · cases hopen.symm.trans hclosed
  · rw [heq]
    exact .serveReceiver hv hopen hr (.inl rfl)
  · rw [heq]
    exact .parkSender hv hopen hr hfull
  · rw [heq]
    exact .store hv hopen hr hroom (.inl rfl)

theorem does_recvStored (hk : Asks c t k) (hopen : c.isClosed = false) {x : V} {xs : List V}
    (hst : c.storage = x :: xs) {r : OpResult V}
    (hgot : r = .recvIn .ok (some x) ∨ r = .tryRecvIn .ok (some x)) :
    Does c t k op (c.recvStored t x xs r).1 (c.recvStored t x xs r).2 := by
  rcases recvStored_cases c t x xs r with ⟨u, v, rest, hs, heq⟩ | ⟨hs, heq⟩ <;> rw [heq]
  · exact .moveUp hk hopen hst hs hgot
  · exact .takeStored hk hopen hst hs hgot

theorem does_recvFirstCall (hk : Asks c t k) (hopen : c.isClosed = false) :
    Does c t k op (c.recvFirstCall t).1 (c.recvFirstCall t).2 := by
  rcases recvFirstCall_cases c t with ⟨hclosed, -⟩ | ⟨-, u, v, rest, hst, hs, heq⟩ |
    ⟨-, hst, hs, heq⟩ | ⟨-, x, xs, hst, heq⟩
  · cases hopen.symm.trans hclosed
  · rw [heq]
    exact .takeSent hk hopen hst hs (.inl rfl)
  · rw [heq]
    exact .parkReceiver hk hopen hst hs
  · rw [heq]
    exact does_recvStored hk hopen hst (.inl rfl)

theorem does_poll (c : LocalChannel τ V) (t : τ) :
    Does c t .poll op (c.poll t).1 (c.poll t).2 := by
  unfold poll
  split
  case h_1 hw => exact .idle hw
  case h_2 v hw =>
    cases hclosed : c.isClosed with
    | true =>
      rw [sendFirstCall, if_pos hclosed]
      exact .answer hw fun _ => hclosed
    | false => exact does_sendFirstCall (.again hw) hclosed
  case h_5 slot hw =>
    cases hclosed : c.isClosed with
    | true =>
      rw [recvFirstCall, if_pos hclosed]
      exact .answer hw fun _ => hclosed
    | false => exact does_recvFirstCall (.again hw) hclosed
  case h_3 hw | h_4 hw | h_6 hw | h_7 hw => exact .answer hw nofun

theorem does_trySend (c : LocalChannel τ V) (t : τ) (v : V) :
    Does c t .user op (c.trySend t v).1 (c.trySend t v).2 := by
  unfold trySend
  split
  case isTrue => exact .refuse trivial
  case isFalse hopen =>
    have hopen := Bool.eq_false_of_not_eq_true hopen
    split
    case h_1 u rest hr => exact .serveReceiver .call hopen hr (.inr rfl)
    case h_2 hr =>
      split
      case isTrue => exact .refuse trivial
      case isFalse hroom => exact .store .call hopen hr hroom (.inr rfl)

theorem does_tryRecvIn (c : LocalChannel τ V) (t : τ) :
    Does c t .user op (c.tryRecvIn t).1 (c.tryRecvIn t).2 := by
  unfold tryRecvIn
  split
  case isTrue => exact .refuse trivial
  case isFalse hopen =>
    have hopen := Bool.eq_false_of_not_eq_true hopen
    split
    case h_1 hst =>
      split
      case h_1 u v rest hs => exact .takeSent .call hopen hst hs (.inr rfl)
      case h_2 => exact .refuse trivial
    case h_2 x xs hst => exact does_recvStored .call hopen hst (.inr rfl)

theorem does_of_code (h : c.code t k op = some (c', o)) : Does c t k op c' o := by
  have of_eq {r : LocalChannel τ V × Outcome τ (Place τ V)} (hr : Does c t k op r.1 r.2)
      (heq : some r = some (c', o)) : Does c t k op c' o := by
    rw [Option.some.inj heq] at hr
    exact hr
  unfold code at h
  split at h
  case h_1 => exact of_eq (does_poll c t) h
  case h_2 r => exact of_eq (.finish r) h
  case h_3 u v rest => exact of_eq (.closeSender u v rest) h
  case h_4 => exact of_eq .closeSenders h
  case h_5 u rest => exact of_eq (.closeReceiver u rest) h
  case h_6 => exact of_eq .closeReceivers h
  case h_7 v =>
    refine of_eq ?_ h
    unfold send
    split
    case isTrue hclosed =>
      rw [sendFirstCall, if_pos hclosed]
      exact .refuse trivial
    case isFalse hopen => exact does_sendFirstCall .call (Bool.eq_false_of_not_eq_true hopen)
  case h_8 =>
    refine of_eq ?_ h
    cases hclosed : c.isClosed with
    | true =>
      rw [recvFirstCall, if_pos hclosed]
      exact .refuse trivial
    | false => exact does_recvFirstCall .call hclosed
  case h_9 v => exact of_eq (does_trySend c t v) h
  case h_10 => exact of_eq (does_tryRecvIn c t) h
  case h_11 => exact of_eq .close h
  case h_12 => cases h

end Does

/-! ### Every task is in one place -/

/-- The places of a task in the channel's memory. -/
def holds (c : LocalChannel τ V) (u : τ) : ℕ :=
  (c.senders.map Prod.fst).count u + c.receivers.count u

/-- The places of a task in a suspended `close`. -/
def held : Place τ V → τ → ℕ
  | .closeSenders rest, u => (rest.map Prod.fst).count u
  | .closeReceivers rest, u => rest.count u
  | _, _ => 0

/-- An operation of `t` that does not come from a suspended `close` makes no more of a task. -/
def Conserves (c : LocalChannel τ V) (t : τ)
    (r : LocalChannel τ V × Outcome τ (Place τ V)) : Prop :=
  ∀ u, holds r.1 u + r.2.places held t u ≤ holds c u + oneAt t u

theorem conserves_ret (c : LocalChannel τ V) (t : τ) (r : OpResult V) :
    Conserves c t (c.ret t r, .goto .user) := by
  intro u
  simp [holds, ret, Outcome.places, held]

variable {c c' : LocalChannel τ V} {t : τ} {k : Place τ V} {op : Op V} {o : Outcome τ (Place τ V)}

/-- Only a suspended `close` puts a task of its own somewhere. -/
theorem conserves_of_does (h : Does c t k op c' o) (hk : ∀ u, held k u = 0) :
    Conserves c t (c', o) := by
  cases h with
  | idle | closeReceivers =>
    intro u
    simp [Outcome.places, held]
  | answer | finish | refuse => exact conserves_ret c t _
  | store => exact conserves_ret { c with accepted := _, storage := _ } t _
  | takeStored => exact conserves_ret { c with storage := _, handed := _ } t _
  | serveReceiver hv hopen hr =>
    intro u
    simp only [holds, serveReceiver, writeRecvState, writeSlot, Outcome.places, held, hr,
      count_cons_eq_oneAt]
    omega
  | parkSender =>
    intro u
    simp only [holds, parkSender, Outcome.places, List.map_append, List.map_cons, List.map_nil,
      List.count_append, count_singleton_eq_oneAt]
    omega
  | moveUp hk hopen hst hs | takeSent hk hopen hst hs =>
    intro u
    simp only [holds, writeSendState, Outcome.places, held, hs, List.map_cons, count_cons_eq_oneAt]
    omega
  | parkReceiver =>
    intro u
    simp only [holds, parkReceiver, Outcome.places, List.count_append, count_singleton_eq_oneAt]
    omega
  | closeSender u | closeReceiver u =>
    have hzero := hk u
    simp [held] at hzero
  | closeSenders | close =>
    intro u
    simp only [holds, Outcome.places, held, List.map_nil, List.count_nil]
    omega

theorem code_le (h : c.code t k op = some (c', o)) (u : τ) :
    holds c' u + o.places held t u ≤ holds c u + held k u + oneAt t u := by
  have hdoes := does_of_code h
  have hconserves (hk : ∀ u, held k u = 0) := conserves_of_does hdoes hk u
  cases hdoes with
  | closeSender =>
    simp only [holds, writeSendState, Outcome.places, held, List.map_cons, count_cons_eq_oneAt]
    omega
  | closeReceiver =>
    simp only [holds, writeRecvState, Outcome.places, held, count_cons_eq_oneAt]
    omega
  | serveReceiver hv | parkSender hv | store hv => cases hv <;> exact hconserves fun _ => rfl
  | moveUp hk | takeStored hk | takeSent hk | parkReceiver hk =>
    cases hk <;> exact hconserves fun _ => rfl
  | _ => exact hconserves fun _ => rfl

/-- The places of the tasks that use the channel. -/
def custody : Custody (primitive (τ := τ) (V := V)) where
  holds := holds
  held := held
  entry_held _ := rfl
  code_le := code_le

/-! ### The futures of the parked tasks -/

/-- The future `x` that `u` awaits fits the queues: if `u` is parked it is a future of the right
kind with the queued value, and if it has been polled and not been answered then `u` is
parked. -/
structure Fits (senders : List (τ × V)) (receivers : List τ) (u : τ) (x : Option (Waiting V)) :
    Prop where
  sender : ∀ v, (u, v) ∈ senders → ∃ state, x = some (.send state v)
  receiver : u ∈ receivers → ∃ state slot, x = some (.recv state slot)
  firstCall_send : ∀ v, x = some (.send .firstCall v) → u ∈ senders.map Prod.fst
  firstCall_recv : ∀ slot, x = some (.recv .firstCall slot) → u ∈ receivers

variable {S S' : List (τ × V)} {R R' : List τ}

omit [DecidableEq τ] in
theorem fits_of_not_mem {u : τ} {x : Option (Waiting V)} (hS : u ∉ S.map Prod.fst) (hR : u ∉ R)
    (hsend : ∀ v, x ≠ some (.send .firstCall v))
    (hrecv : ∀ slot, x ≠ some (.recv .firstCall slot)) : Fits S R u x :=
  ⟨fun _ hv => absurd (List.mem_map_of_mem hv) hS, fun hu => absurd hu hR,
    fun v hx => absurd hx (hsend v), fun slot hx => absurd hx (hrecv slot)⟩

theorem fits_update {w : τ → Option (Waiting V)} (h : ∀ u, Fits S R u (w u))
    {x : Option (Waiting V)} (hS : ∀ u v, u ≠ t → ((u, v) ∈ S' ↔ (u, v) ∈ S))
    (hR : ∀ u, u ≠ t → (u ∈ R' ↔ u ∈ R)) (ht : Fits S' R' t x) (u : τ) :
    Fits S' R' u (Function.update w t x u) := by
  by_cases hut : u = t
  · subst hut
    simpa using ht
  · rw [Function.update_of_ne hut]
    refine ⟨fun v hv => (h u).sender v ((hS u v hut).mp hv),
      fun hu => (h u).receiver ((hR u hut).mp hu), ?_,
      fun slot hx => (hR u hut).mpr ((h u).firstCall_recv slot hx)⟩
    intro v hx
    obtain ⟨⟨u', v'⟩, hmem, rfl⟩ := List.mem_map.mp ((h u).firstCall_send v hx)
    exact List.mem_map_of_mem ((hS u' v' hut).mpr hmem)

/-! ### First in, first out -/

/-- The state of an open channel. -/
structure Fifo (c : LocalChannel τ V) : Prop where
  order : c.handed ++ c.storage ++ c.senders.map Prod.snd = c.accepted
  /-- A receiver is parked only while there is no value for it. -/
  idle : c.receivers ≠ [] → c.storage = [] ∧ c.senders = []
  /-- A sender is parked only while there is no room for its value. -/
  full : c.senders ≠ [] → c.capacity ≤ c.storage.length
  fits : ∀ u, Fits c.senders c.receivers u (c.waiting u)

theorem not_mem_of_holds_eq_zero (ht : holds c t = 0) :
    t ∉ c.senders.map Prod.fst ∧ t ∉ c.receivers := by
  unfold holds at ht
  exact ⟨List.count_eq_zero.mp (by omega), List.count_eq_zero.mp (by omega)⟩

namespace Fifo

variable {c : LocalChannel τ V} {t u : τ} {v x : V}

theorem ret (h : Fifo c) (ht : holds c t = 0) (r : OpResult V) : Fifo (c.ret t r) := by
  obtain ⟨hS, hR⟩ := not_mem_of_holds_eq_zero ht
  exact ⟨h.order, h.idle, h.full,
    fits_update h.fits (fun _ _ _ => Iff.rfl) (fun _ _ => Iff.rfl)
      (fits_of_not_mem hS hR (by simp) (by simp))⟩

omit [DecidableEq τ] in
/-- A value goes to the back of the storage when no receiver is parked and there is room: then
no sender is parked before it. -/
theorem store (h : Fifo c) (hr : c.receivers = []) (hroom : ¬c.capacity ≤ c.storage.length)
    (v : V) : Fifo { c.accept v with storage := c.storage ++ [v] } := by
  have hs : c.senders = [] := by
    by_contra hne
    exact hroom (h.full hne)
  refine ⟨?_, ?_, ?_, h.fits⟩
  · simp [accept, ← h.order, hs]
  · intro hne
    exact absurd hr hne
  · intro hne
    exact absurd hs hne

/-- A value goes straight to the front receiver: nothing is stored or queued before it. -/
theorem serveReceiver (h : Fifo c) {rest : List τ} (hr : c.receivers = u :: rest)
    (hu : holds c u ≤ 1) (v : V) : Fifo ((c.accept v).serveReceiver u rest v) := by
  obtain ⟨hst, hs⟩ := h.idle (by simp [hr])
  obtain ⟨state, slot, hw⟩ := (h.fits u).receiver (by simp [hr])
  -- `u` was in one place, the front of the queue.
  have hrest : u ∉ rest := by
    simp only [holds, hr, count_cons_eq_oneAt, oneAt, if_pos] at hu
    exact List.count_eq_zero.mp (by omega)
  refine ⟨?_, ?_, ?_, ?_⟩
  · simp [LocalChannel.serveReceiver, writeRecvState, writeSlot, accept, ← h.order, hst, hs]
  · intro _
    exact ⟨hst, hs⟩
  · intro hne
    exact absurd hs hne
  · simp only [LocalChannel.serveReceiver, writeRecvState, writeSlot, accept, hw,
      Function.update_self, Function.update_idem]
    refine fits_update h.fits (fun _ _ _ => Iff.rfl) ?_
      (fits_of_not_mem (by simp [hs]) hrest (by simp) (by simp))
    intro u' hne
    simp [hr, hne]

theorem parkSender (h : Fifo c) (hr : c.receivers = []) (hfull : c.capacity ≤ c.storage.length)
    (ht : holds c t = 0) (v : V) : Fifo ((c.accept v).parkSender t v) := by
  refine ⟨?_, fun hne => absurd hr hne, fun _ => hfull, ?_⟩
  · simp [LocalChannel.parkSender, accept, ← h.order]
  · refine fits_update h.fits ?_ (fun _ _ => Iff.rfl) ?_
    · intro u x hne
      simp [LocalChannel.parkSender, accept, hne]
    · obtain ⟨hS, hR⟩ := not_mem_of_holds_eq_zero ht
      refine ⟨?_, fun hu => absurd hu hR, by simp [LocalChannel.parkSender], by simp⟩
      intro x hx
      rcases List.mem_append.mp hx with hx | hx
      · exact absurd (List.mem_map_of_mem hx) hS
      · simp only [List.mem_singleton, Prod.mk.injEq, true_and] at hx
        exact ⟨_, by rw [hx]⟩

theorem parkReceiver (h : Fifo c) (hst : c.storage = []) (hs : c.senders = [])
    (ht : holds c t = 0) : Fifo (c.parkReceiver t) := by
  refine ⟨h.order, fun _ => ⟨hst, hs⟩, h.full, ?_⟩
  refine fits_update h.fits (fun _ _ _ => Iff.rfl) ?_ ?_
  · intro u hne
    simp [LocalChannel.parkReceiver, hne]
  · have hS := (not_mem_of_holds_eq_zero ht).1
    exact ⟨fun x hx => absurd (List.mem_map_of_mem hx) hS, fun _ => ⟨_, _, rfl⟩, by simp,
      by simp [LocalChannel.parkReceiver]⟩

omit [DecidableEq τ] in
theorem receivers_eq_nil (h : Fifo c) (hvalue : c.storage ≠ [] ∨ c.senders ≠ []) :
    c.receivers = [] := by
  by_contra hne
  obtain ⟨hst, hs⟩ := h.idle hne
  rcases hvalue with hvalue | hvalue
  · exact hvalue hst
  · exact hvalue hs

variable {rest : List (τ × V)}

/-- The front sender `u` leaves the queue and is told so; the futures still fit. -/
theorem fits_pop_sender (h : Fifo c) (hs : c.senders = (u, v) :: rest) (hu : holds c u ≤ 1)
    (u' : τ) : Fits rest c.receivers u' ((c.writeSendState u .wokenToReturnReady).waiting u') := by
  obtain ⟨state, hw⟩ := (h.fits u).sender v (by simp [hs])
  have hr := h.receivers_eq_nil (Or.inr (by simp [hs]))
  -- `u` was in one place, the front of the queue.
  have hrest : u ∉ rest.map Prod.fst := by
    simp only [holds, hs, List.map_cons, count_cons_eq_oneAt, oneAt, if_pos] at hu
    exact List.count_eq_zero.mp (by omega)
  simp only [writeSendState, hw]
  refine fits_update h.fits ?_ (fun _ _ => Iff.rfl)
    (fits_of_not_mem hrest (by simp [hr]) (by simp) (by simp)) u'
  intro u'' x hne
  simp [hs, hne]

/-- The front of the storage is handed over and the first parked sender moves up, so that the
storage stays full. -/
theorem moveUp (h : Fifo c) {xs : List V} (hst : c.storage = x :: xs)
    (hs : c.senders = (u, v) :: rest) (hu : holds c u ≤ 1) :
    Fifo ({ c with storage := xs ++ [v], senders := rest, handed := c.handed ++ [x] }
      |>.writeSendState u .wokenToReturnReady) := by
  have hr := h.receivers_eq_nil (Or.inl (by simp [hst]))
  have hfull := h.full (by simp [hs])
  refine ⟨?_, fun hne => absurd hr hne, fun _ => ?_, h.fits_pop_sender hs hu⟩
  · simp [writeSendState, ← h.order, hst, hs]
  · simpa [writeSendState, hst] using hfull

omit [DecidableEq τ] in
theorem takeStored (h : Fifo c) {xs : List V} (hst : c.storage = x :: xs) (hs : c.senders = []) :
    Fifo { c with storage := xs, handed := c.handed ++ [x] } := by
  have hr := h.receivers_eq_nil (Or.inl (by simp [hst]))
  refine ⟨?_, fun hne => absurd hr hne, fun hne => absurd hs hne, h.fits⟩
  simp [← h.order, hst]

theorem takeSent (h : Fifo c) (hst : c.storage = []) (hs : c.senders = (u, v) :: rest)
    (hu : holds c u ≤ 1) : Fifo ({ c with senders := rest, handed := c.handed ++ [v] }
      |>.writeSendState u .wokenToReturnReady) := by
  have hr := h.receivers_eq_nil (Or.inr (by simp [hs]))
  have hfull := h.full (by simp [hs])
  refine ⟨?_, fun hne => absurd hr hne, fun _ => hfull, h.fits_pop_sender hs hu⟩
  simp [writeSendState, ← h.order, hst, hs]

/-- A suspended first call of an open channel is not polled: its task is parked. -/
theorem firstCall_not_running (h : Fifo c) (ht : holds c t = 0) :
    (∀ v, c.waiting t ≠ some (.send .firstCall v)) ∧
      ∀ slot, c.waiting t ≠ some (.recv .firstCall slot) := by
  obtain ⟨hS, hR⟩ := not_mem_of_holds_eq_zero ht
  exact ⟨fun v hw => hS ((h.fits t).firstCall_send v hw),
    fun slot hw => hR ((h.fits t).firstCall_recv slot hw)⟩

/-- A task that runs and tries to send has just called the operation. -/
theorem eq_of_offers (h : Fifo c) (ht : holds c t = 0) {k : Place τ V} {accepted : List V}
    (hv : Offers c t v k accepted) : accepted = c.accepted ++ [v] := by
  cases hv with
  | call => rfl
  | again hw => exact absurd hw ((h.firstCall_not_running ht).1 v)

end Fifo

/-! ### Whole runs -/

/-- A `close` is in progress only once the channel is closed. -/
def Closing (c : LocalChannel τ V) : Place τ V → Prop
  | .closeSenders _ => c.isClosed = true
  | .closeReceivers _ => c.isClosed = true
  | _ => True

/-- An operation other than `close`: it neither opens nor closes the channel and goes on at a
place outside `close`. -/
def Quiet (c : LocalChannel τ V) (r : LocalChannel τ V × Outcome τ (Place τ V)) : Prop :=
  r.1.isClosed = c.isClosed ∧ ∀ k ∈ r.2.place, ∀ d : LocalChannel τ V, Closing d k

/-- No code opens a closed channel, and the places of `close` are reached by `close` only. -/
theorem closing_code (h : c.code t k op = some (c', o)) :
    (c.isClosed = true → c'.isClosed = true) ∧
      (Closing c k → ∀ k' ∈ o.place, Closing c' k') := by
  by_cases hquiet : Quiet c (c', o)
  · exact ⟨fun hc => hquiet.1.trans hc, fun _ k' hk' => hquiet.2 k' hk' c'⟩
  · cases does_of_code h with
    | closeSender | closeSenders | closeReceiver | closeReceivers | close =>
      simp [Outcome.place, Closing, writeSendState, writeRecvState]
    | _ => exact absurd ⟨rfl, by simp [Outcome.place, Closing]⟩ hquiet

/-- **An operation keeps the order**, wherever in the nesting of operations it runs. -/
theorem fifo_code (hfifo : c.isClosed = false → Fifo c) (hk : Closing c k)
    (hholds : ∀ u, holds c u ≤ 1) (ht : holds c t = 0) (h : c.code t k op = some (c', o))
    (hopen' : c'.isClosed = false) : Fifo c' := by
  -- No code opens a closed channel, so that the channel was open before.
  have hopen : c.isClosed = false := by
    by_contra hne
    simp [(closing_code h).1 (by simpa using hne)] at hopen'
  have hf := hfifo hopen
  cases does_of_code h with
  | idle => exact hf
  | answer | finish | refuse => exact hf.ret ht _
  | serveReceiver hv _ hr =>
    obtain rfl := hf.eq_of_offers ht hv
    exact hf.serveReceiver hr (hholds _) _
  | parkSender hv _ hr hfull =>
    obtain rfl := hf.eq_of_offers ht hv
    exact hf.parkSender hr hfull ht _
  | store hv _ hr hroom =>
    obtain rfl := hf.eq_of_offers ht hv
    exact (hf.store hr hroom _).ret ht _
  | moveUp _ _ hst hs => exact hf.moveUp hst hs (hholds _)
  | takeStored _ _ hst hs => exact (hf.takeStored hst hs).ret ht _
  | takeSent _ _ hst hs => exact hf.takeSent hst hs (hholds _)
  | parkReceiver _ _ hst hs => exact hf.parkReceiver hst hs ht
  | closeSender | closeSenders | closeReceiver | closeReceivers =>
    -- a `close` is in progress on a closed channel only
    simp [Closing, hopen] at hk
  | close => cases hopen'

/-- In every state of every run the channel is in order as long as it is open, and a `close` is in
progress only once it is closed. -/
theorem fifo_of_reaches {capacity : ℕ} {e : Executor τ (World τ (LocalChannel τ V)) (Place τ V)}
    (h : primitive.Reaches (bounded capacity) e) :
    (e.state.memory.isClosed = false → Fifo e.state.memory) ∧
      ∀ f ∈ e.stack, Closing e.state.memory f.2 := by
  refine (custody (τ := τ) (V := V)).invariant (J := fun c => c.isClosed = false → Fifo c)
    (K := Closing) ?_ ?_ ?_ ?_ ?_ h
  · intro u
    simp [custody, holds, bounded]
  · intro _
    exact ⟨rfl, by simp [bounded], by simp [bounded],
      fun u => fits_of_not_mem (by simp [bounded]) (by simp [bounded]) (by simp [bounded])
        (by simp [bounded])⟩
  · intro c
    trivial
  · intro c t k op c' o hf hk hholds ht hcode
    exact ⟨fifo_code hf hk hholds ht hcode, (closing_code hcode).2 hk⟩
  · intro c t k op c' o hcode k' hk'
    -- A suspended `close` finds the channel still closed, whatever ran nested inside it.
    cases k' with
    | closeSenders | closeReceivers => exact (closing_code hcode).1 hk'
    | _ => trivial

/-- **First in, first out.** In every run of any tasks over an open channel of any capacity,
including all nestings of operations inside each other, the values handed to receivers, the
stored values and the values of the parked senders are, in this order, the values accepted so
far. -/
theorem fifo_of_reachable (capacity : ℕ)
    {e : Executor τ (World τ (LocalChannel τ V)) (Place τ V)}
    (h : primitive.Reaches (bounded capacity) e) (hopen : e.state.memory.isClosed = false) :
    e.state.memory.handed ++ e.state.memory.storage ++ e.state.memory.senders.map Prod.snd
      = e.state.memory.accepted :=
  ((fifo_of_reaches h).1 hopen).order

/-- A receiver is parked on a channel without storage, a sender serves it nested inside its own
`send`, and the receiver parks there again. -/
def rendezvous : List (Move ℕ (TaskOp ℕ (Op ℕ))) :=
  [.wake 0, .code (.op .go), .code (.op .recv), .wake 1, .code (.op .go), .code (.op (.send 7)),
    .code (.op .go), .code (.op .recv)]

theorem fifo_of_rendezvous :
    ∃ e : Executor ℕ (World ℕ (LocalChannel ℕ ℕ)) (Place ℕ ℕ),
      primitive.Reaches (bounded 0) e ∧ e.state.memory.accepted = [7] ∧
      e.stack = [(1, .finish (.send .ok))] ∧
      e.state.memory.handed ++ e.state.memory.storage ++ e.state.memory.senders.map Prod.snd
        = e.state.memory.accepted := by
  have h : primitive.Reaches (bounded 0) _ := reachable_of_exec rendezvous rfl
  exact ⟨_, h, rfl, rfl, fifo_of_reachable 0 h rfl⟩

end LocalChannel

end Orengine.Sync
