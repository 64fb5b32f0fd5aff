import Orengine.Lib.Reach
import Orengine.Lib.Tally
import Orengine.Sync.Channels.Shared

/-!
# Safety of `Channel`

The steps that an operation makes after it has released the lock access the future of another
task.  They are safe because of a counting law: `Links` says that each parked task has exactly
one reference to it (a queue holds it, one task is about to access it, or it was given to an
executor once), that a task which is not parked has none, and that whoever holds the reference
finds the task's future in the state it expects.  Each kind of step has one lemma about `Links`, and
`safe_of_reachable` follows for every interleaving.

`exactly_one_place_and_one_resumption` adds the law of conservation for the values.
-/

namespace Orengine.Sync.Channel

open Lib

variable {τ V : Type*} [DecidableEq τ]

/-! ### What the operations have in common -/

section Common

variable (s : Channel τ V) (t : τ)

/-- `send` and `try_send`, with what they do if there is neither a receiver nor room. -/
def pushLocked (v : V) (closed : OpResult V) (op : Sending) (full : Channel τ V) : Channel τ V :=
  if s.isClosed then s.ret t closed
  else match s.receivers with
    | r :: rest => { s with receivers := rest }.goto t (.copyTo r v op)
    | [] =>
      if s.capacity ≤ s.storage.length then full
      else { s with storage := s.storage ++ [v] }.ret t op.ok

/-- `recv` and `try_recv_in`, with what they do if there is neither a value nor a sender. -/
def popLocked (closed : OpResult V) (op : Receiving) (empty : Channel τ V) : Channel τ V :=
  if s.isClosed then s.ret t closed
  else match s.storage with
    | [] =>
      match s.senders with
      | (u, v) :: rest => { s with senders := rest }.goto t (.copyFrom u v op)
      | [] => empty
    | x :: xs => s.recvStored t x xs op

theorem sendLocked_eq (v : V) :
    s.sendLocked t v = s.pushLocked t v (.send (.closed v)) .send (s.parkSender t v) := rfl

theorem trySendLocked_eq (v : V) :
    s.trySendLocked t v =
      s.pushLocked t v (.trySend (.closed v)) .trySend (s.ret t (.trySend (.full v))) := rfl

theorem recvLocked_eq :
    s.recvLocked t = s.popLocked t (.recvIn .closed none) .recvIn (s.parkReceiver t) := rfl

theorem tryRecvInLocked_eq :
    s.tryRecvInLocked t =
      s.popLocked t (.tryRecvIn .closed none) .tryRecvIn (s.ret t (.tryRecvIn .empty none)) := rfl

end Common

/-! ### References to parked tasks -/

/-- Whether a task at this place is about to access the future of `t`. -/
def Pc.refersTo (t : τ) : Pc τ V → ℕ
  | .copyTo r _ _ => oneAt r t
  | .tellReceiver r _ => oneAt r t
  | .execReceiver r _ => oneAt r t
  | .copyFrom u _ _ => oneAt u t
  | .tellSender u _ _ => oneAt u t
  | .execSender u _ _ => oneAt u t
  | _ => 0

/-- Whether a task at this place is parked. -/
def Pc.parked : Pc τ V → ℕ
  | .sendParked _ _ => 1
  | .recvParked _ _ => 1
  | _ => 0

/-- What a task at the first place has to find: the second is where the task is whose future it
accesses. -/
def Pc.Needs : Pc τ V → Pc τ V → Prop
  | .copyTo _ _ _, b => b = .recvParked .firstCall none
  | .tellReceiver _ _, b => ∃ v, b = .recvParked .firstCall (some v)
  | .execReceiver _ _, b => ∃ v, b = .recvParked .wokenToReturnReady (some v)
  | .copyFrom _ v _, b => b = .sendParked .firstCall v
  | .tellSender _ _ _, b => ∃ v, b = .sendParked .firstCall v
  | .execSender _ _ _, b => ∃ v, b = .sendParked .wokenToReturnReady v
  | _, _ => True

/-- The task is parked and its call state has been written; a receiver that is told that its slot
was written has a value there. -/
inductive Pc.Woken : Pc τ V → Prop
  | sender (v : V) : Pc.Woken (.sendParked .wokenToReturnReady v)
  | closedSender (v : V) : Pc.Woken (.sendParked .wokenByClose v)
  | receiver (v : V) : Pc.Woken (.recvParked .wokenToReturnReady (some v))
  | closedReceiver : Pc.Woken (.recvParked .wokenByClose none)

/-- A task at this place is neither parked nor about to access a future. -/
structure Pc.Free (a : Pc τ V) : Prop where
  parked : a.parked = 0
  refersTo : ∀ u, a.refersTo u = 0

/-- A task at this place is about to access the future of `r`, and of no other task. -/
structure Pc.PointsTo (a : Pc τ V) (r : τ) : Prop where
  parked : a.parked = 0
  refersTo : ∀ u, a.refersTo u = oneAt r u

omit [DecidableEq τ] in
theorem Pc.parked_of_woken {b : Pc τ V} (h : b.Woken) : b.parked = 1 := by
  cases h <;> rfl

theorem Pc.refersTo_of_parked {b : Pc τ V} (h : b.parked = 1) (u : τ) : b.refersTo u = 0 := by
  cases b with
  | sendParked _ _ => rfl
  | recvParked _ _ => rfl
  | _ => simp [Pc.parked] at h

omit [DecidableEq τ] in
theorem Pc.parked_le_one (b : Pc τ V) : b.parked ≤ 1 := by
  cases b <;> simp [Pc.parked]

variable {S S' : List (τ × V)} {R R' : List τ} {pc pc' : τ → Pc τ V} {ready ready' : τ → ℕ}
  {t r u p : τ} {k b : Pc τ V} {v : V}

/-- Whoever refers to `t` finds what it needs if `t` is at `b`. -/
structure Served (S : List (τ × V)) (R : List τ) (pc : τ → Pc τ V) (ready : τ → ℕ) (t : τ)
    (b : Pc τ V) : Prop where
  sender : ∀ v, (t, v) ∈ S → b = .sendParked .firstCall v
  receiver : t ∈ R → b = .recvParked .firstCall none
  pointer : ∀ p, (pc p).refersTo t ≠ 0 → (pc p).Needs b
  woken : ready t ≠ 0 → b.Woken

theorem Served.frame (h : Served S R pc ready t b)
    (hS : ∀ v, (t, v) ∈ S' → (t, v) ∈ S) (hR : t ∈ R' → t ∈ R)
    (hpc : ∀ p, (pc' p).refersTo t ≠ 0 → pc' p = pc p) (hready : ready' t = ready t) :
    Served S' R' pc' ready' t b where
  sender v hv := h.sender v (hS v hv)
  receiver ht := h.receiver (hR ht)
  pointer p hp := by
    have hp' := hp
    rw [hpc p hp] at hp' ⊢
    exact h.pointer p hp'
  woken ht := h.woken (hready ▸ ht)

/-- The number of places of `t` in the queues. -/
def queued (S : List (τ × V)) (R : List τ) (t : τ) : ℕ := (S.map Prod.fst).count t + R.count t

theorem queued_senders (h : S = (r, v) :: S') (u : τ) :
    queued S R u = queued S' R u + oneAt r u := by
  simp only [queued, h, List.map_cons, count_cons_eq_oneAt]
  omega

theorem queued_receivers (h : R = r :: R') (u : τ) :
    queued S R u = queued S R' u + oneAt r u := by
  simp only [queued, h, count_cons_eq_oneAt]
  omega

theorem queued_pos_of_mem_senders (h : (t, v) ∈ S) : 0 < queued S R t :=
  Nat.add_pos_left (List.count_pos_iff.mpr (List.mem_map_of_mem (f := Prod.fst) h)) _

theorem queued_pos_of_mem_receivers (h : t ∈ R) : 0 < queued S R t :=
  Nat.add_pos_right _ (List.count_pos_iff.mpr h)

theorem not_mem_of_queued_eq_zero (h : queued S R t = 0) : t ∉ S.map Prod.fst ∧ t ∉ R := by
  unfold queued at h
  exact ⟨List.count_eq_zero.mp (by omega), List.count_eq_zero.mp (by omega)⟩

theorem update_succ (ready : τ → ℕ) (r u : τ) :
    Function.update ready r (ready r + 1) u = ready u + oneAt r u := by
  by_cases hur : u = r
  · subst hur
    rw [Function.update_self, oneAt_self]
  · rw [Function.update_of_ne hur, oneAt_of_ne (Ne.symm hur), Nat.add_zero]

theorem served_of_queued_eq_zero (h : queued S R t = 0)
    (hpointer : ∀ p, (pc p).refersTo t ≠ 0 → (pc p).Needs b) (hwoken : ready t ≠ 0 → b.Woken) :
    Served S R pc ready t b := by
  obtain ⟨hsenders, hreceivers⟩ := not_mem_of_queued_eq_zero h
  exact ⟨fun _ hv => absurd (List.mem_map_of_mem hv) hsenders, fun ht => absurd ht hreceivers,
    hpointer, hwoken⟩

/-- A task that moves to a place without a reference to `u` leaves the others to `u` alone. -/
theorem pointer_update (hk : k.refersTo u = 0) (p : τ)
    (hp : (Function.update pc t k p).refersTo u ≠ 0) : Function.update pc t k p = pc p := by
  by_cases hpt : p = t
  · rw [hpt, Function.update_self] at hp
    exact absurd hk hp
  · rw [Function.update_of_ne hpt]

theorem parked_update (pc : τ → Pc τ V) (hk : k.parked = (pc t).parked) (u : τ) :
    (Function.update pc t k u).parked = (pc u).parked := by
  by_cases hut : u = t
  · rw [hut, Function.update_self, hk]
  · rw [Function.update_of_ne hut]

omit [DecidableEq τ] in
theorem ne_of_parked (ht : (pc t).parked = 0) (hu : (pc u).parked = 1) : u ≠ t := by
  rintro rfl
  rw [ht] at hu
  cases hu

section Refs

variable [Fintype τ]

/-- The number of references to `t`. -/
def refs (S : List (τ × V)) (R : List τ) (pc : τ → Pc τ V) (ready : τ → ℕ) (t : τ) : ℕ :=
  queued S R t + tally (Pc.refersTo t) pc + ready t

theorem served_of_refs_eq_zero (h : refs S R pc ready t = 0) (b : Pc τ V) :
    Served S R pc ready t b := by
  unfold refs at h
  refine served_of_queued_eq_zero (by omega) (fun p hp => ?_) fun ht => ?_
  · have := le_tally (Pc.refersTo t) pc p
    omega
  · omega

theorem served_of_pointer (h : refs S R pc ready t ≤ 1) (hp : (pc p).refersTo t ≠ 0)
    (hneeds : (pc p).Needs b) : Served S R pc ready t b := by
  unfold refs at h
  have hle := le_tally (Pc.refersTo t) pc p
  refine served_of_queued_eq_zero (by omega) (fun q hq => ?_) fun ht => ?_
  · have hqp : q = p := eq_of_tally_le_one (f := Pc.refersTo t) (g := pc) (by omega)
      (by omega) (by omega)
    rwa [hqp]
  · omega

theorem served_of_update (h : refs S R (Function.update pc p k) ready t ≤ 1) (hk : k.PointsTo t)
    (hneeds : k.Needs b) :
    Served S R (Function.update pc p k) ready t b := by
  refine served_of_pointer (p := p) h ?_ ?_
  · rw [Function.update_self, hk.refersTo, oneAt_self]
    exact Nat.one_ne_zero
  · rwa [Function.update_self]

theorem served_of_ready (h : refs S R pc ready t ≤ 1) (ht : ready t ≠ 0)
    (hwoken : b.Woken) : Served S R pc ready t b := by
  unfold refs at h
  refine served_of_queued_eq_zero (by omega) (fun p hp => ?_) fun _ => hwoken
  have := le_tally (Pc.refersTo t) pc p
  omega

/-! ### One lemma for each kind of step -/

/-- **Every parked task has exactly one reference**, which finds what it needs, and every other
task has none.  Also, each resumption ended a parking. -/
structure Links (S : List (τ × V)) (R : List τ) (pc : τ → Pc τ V)
    (ready parkings resumptions : τ → ℕ) : Prop where
  refs_eq : ∀ t, refs S R pc ready t = (pc t).parked
  served : ∀ t, Served S R pc ready t (pc t)
  resumed : ∀ t, resumptions t + (pc t).parked = parkings t

namespace Links

variable {parkings resumptions : τ → ℕ} (h : Links S R pc ready parkings resumptions)

include h

/-- A step that parks and resumes nobody and passes references on: it is enough to look at the
parked tasks, since nobody refers to any other task. -/
theorem of_parked (hparked : ∀ u, (pc' u).parked = (pc u).parked)
    (hrefs : ∀ u, refs S' R' pc' ready' u = refs S R pc ready u)
    (hserved : ∀ u, (pc u).parked = 1 → refs S' R' pc' ready' u ≤ 1 →
      Served S' R' pc' ready' u (pc' u)) :
    Links S' R' pc' ready' parkings resumptions := by
  have hrefs_eq (u : τ) : refs S' R' pc' ready' u = (pc u).parked := by
    rw [hrefs, h.refs_eq]
  refine ⟨fun u => ?_, fun u => ?_, fun u => ?_⟩
  · rw [hrefs_eq, hparked]
  · have hle := Pc.parked_le_one (pc u)
    by_cases hu : (pc u).parked = 1
    · exact hserved u hu (hrefs_eq u ▸ hle)
    -- Nobody refers to a task that is not parked.
    · apply served_of_refs_eq_zero
      rw [hrefs_eq]
      omega
  · rw [hparked, h.resumed]

theorem queued_eq_zero (ht : (pc t).parked = 0) : queued S R t = 0 := by
  have hrefs := h.refs_eq t
  rw [ht, refs] at hrefs
  omega

theorem move (ht : (pc t).Free) (hk : k.Free) :
    Links S R (Function.update pc t k) ready parkings resumptions := by
  apply h.of_parked (parked_update pc (hk.parked.trans ht.parked.symm))
  · intro u
    have htally := tally_update (Pc.refersTo u) pc t k
    rw [ht.refersTo, hk.refersTo] at htally
    unfold refs
    omega
  · intro u hu _
    rw [Function.update_of_ne (ne_of_parked ht.parked hu)]
    exact (h.served u).frame (fun _ hv => hv) id (pointer_update (hk.refersTo u)) rfl

theorem park (ht : (pc t).Free) (hb : b.parked = 1)
    (hqueued : ∀ u, queued S' R' u = queued S R u + oneAt t u)
    (hS : ∀ u v, u ≠ t → (u, v) ∈ S' → (u, v) ∈ S) (hR : ∀ u, u ≠ t → u ∈ R' → u ∈ R)
    (hSt : ∀ v, (t, v) ∈ S' → b = .sendParked .firstCall v)
    (hRt : t ∈ R' → b = .recvParked .firstCall none) :
    Links S' R' (Function.update pc t b) ready (Function.update parkings t (parkings t + 1))
      resumptions := by
  have hrefs (u : τ) :
      refs S' R' (Function.update pc t b) ready u = refs S R pc ready u + oneAt t u := by
    have htally := tally_update (Pc.refersTo u) pc t b
    rw [ht.refersTo, Pc.refersTo_of_parked hb] at htally
    have hq := hqueued u
    unfold refs
    omega
  have hzero : refs S R pc ready t = 0 := by rw [h.refs_eq, ht.parked]
  refine ⟨fun u => ?_, fun u => ?_, fun u => ?_⟩ <;> by_cases hut : u = t
  · rw [hrefs, hut, hzero, oneAt_self, Function.update_self, hb]
  · rw [hrefs, oneAt_of_ne (Ne.symm hut), Function.update_of_ne hut, h.refs_eq, Nat.add_zero]
  · subst hut
    -- Before, nobody referred to `t`, so that what was served then is served at any place.
    have hold := served_of_refs_eq_zero hzero b
    rw [Function.update_self]
    refine ⟨hSt, hRt, fun p hp => ?_, hold.woken⟩
    have heq := pointer_update (Pc.refersTo_of_parked hb u) p hp
    rw [heq] at hp ⊢
    exact hold.pointer p hp
  · rw [Function.update_of_ne hut]
    exact (h.served u).frame (fun v => hS u v hut) (hR u hut)
      (pointer_update (Pc.refersTo_of_parked hb u)) rfl
  · have hres := h.resumed t
    rw [ht.parked] at hres
    rw [hut, Function.update_self, Function.update_self, hb]
    omega
  · rw [Function.update_of_ne hut, Function.update_of_ne hut, h.resumed]

/-- `r` is taken out of the queues: the task that takes it gets the reference. -/
theorem pop (ht : (pc t).Free) (hk : k.PointsTo r) (hneeds : k.Needs (pc r))
    (hqueued : ∀ u, queued S R u = queued S' R' u + oneAt r u)
    (hS : ∀ u v, (u, v) ∈ S' → (u, v) ∈ S) (hR : ∀ u ∈ R', u ∈ R) :
    Links S' R' (Function.update pc t k) ready parkings resumptions := by
  apply h.of_parked (parked_update pc (hk.parked.trans ht.parked.symm))
  · intro u
    have htally := tally_update (Pc.refersTo u) pc t k
    rw [ht.refersTo, hk.refersTo] at htally
    have hq := hqueued u
    unfold refs
    omega
  · intro u hu hle
    rw [Function.update_of_ne (ne_of_parked ht.parked hu)]
    by_cases hur : u = r
    · -- The reference of the queue is now that of `t`.
      subst hur
      exact served_of_update hle hk hneeds
    · refine (h.served u).frame (fun v => hS u v) (hR u) (pointer_update ?_) rfl
      rw [hk.refersTo, oneAt_of_ne (Ne.symm hur)]

/-- The task with the reference to `r` moves `r` from one parked place to another and keeps the
reference. -/
theorem access (ht : (pc t).PointsTo r) (hk : k.PointsTo r) (hr : (pc r).parked = 1)
    (hb : b.parked = 1) (hneeds : k.Needs b) :
    Links S R (Function.update (Function.update pc r b) t k) ready parkings resumptions := by
  have htr : t ≠ r := Ne.symm (ne_of_parked ht.parked hr)
  apply h.of_parked
  · intro u
    rw [parked_update _ (by rw [Function.update_of_ne htr, hk.parked, ht.parked]),
      parked_update pc (hb.trans hr.symm)]
  · intro u
    have hfirst := tally_update (Pc.refersTo u) pc r b
    have hsecond := tally_update (Pc.refersTo u) (Function.update pc r b) t k
    rw [Pc.refersTo_of_parked hr, Pc.refersTo_of_parked hb] at hfirst
    rw [Function.update_of_ne htr, ht.refersTo, hk.refersTo] at hsecond
    unfold refs
    omega
  · intro u hu hle
    rw [Function.update_of_ne (ne_of_parked ht.parked hu)]
    by_cases hur : u = r
    · subst hur
      rw [Function.update_self]
      exact served_of_update hle hk hneeds
    · rw [Function.update_of_ne hur]
      refine (h.served u).frame (fun _ hv => hv) id (fun p hp => ?_) rfl
      have hkeep : Function.update (Function.update pc r b) t k p = Function.update pc r b p :=
        pointer_update (by rw [hk.refersTo, oneAt_of_ne (Ne.symm hur)]) p hp
      rw [hkeep] at hp ⊢
      exact pointer_update (Pc.refersTo_of_parked hb u) p hp

theorem wake (ht : (pc t).PointsTo r) (hk : k.Free) (hr : (pc r).Woken) :
    Links S R (Function.update pc t k) (Function.update ready r (ready r + 1)) parkings
      resumptions := by
  apply h.of_parked (parked_update pc (hk.parked.trans ht.parked.symm))
  · intro u
    have htally := tally_update (Pc.refersTo u) pc t k
    rw [ht.refersTo, hk.refersTo] at htally
    have hready := update_succ ready r u
    unfold refs
    omega
  · intro u hu hle
    rw [Function.update_of_ne (ne_of_parked ht.parked hu)]
    by_cases hur : u = r
    · -- The reference of `t` is now that of the executor.
      subst hur
      apply served_of_ready hle ?_ hr
      rw [Function.update_self]
      exact Nat.succ_ne_zero _
    · exact (h.served u).frame (fun _ hv => hv) id (pointer_update (hk.refersTo u))
        (Function.update_of_ne hur _ _)

/-- `close` takes `r` out of the queues, writes its call state and gives it to an executor. -/
theorem drain (hr : (pc r).parked = 1) (hb : b.Woken)
    (hqueued : ∀ u, queued S R u = queued S' R' u + oneAt r u)
    (hS : ∀ u v, (u, v) ∈ S' → (u, v) ∈ S) (hR : ∀ u ∈ R', u ∈ R) :
    Links S' R' (Function.update pc r b) (Function.update ready r (ready r + 1)) parkings
      resumptions := by
  have hbp := Pc.parked_of_woken hb
  apply h.of_parked (parked_update pc (hbp.trans hr.symm))
  · intro u
    have htally := tally_update (Pc.refersTo u) pc r b
    rw [Pc.refersTo_of_parked hr, Pc.refersTo_of_parked hbp] at htally
    have hq := hqueued u
    have hready := update_succ ready r u
    unfold refs
    omega
  · intro u _ hle
    by_cases hur : u = r
    · -- The reference of the queue is now that of the executor.
      subst hur
      rw [Function.update_self]
      apply served_of_ready hle ?_ hb
      rw [Function.update_self]
      exact Nat.succ_ne_zero _
    · rw [Function.update_of_ne hur]
      exact (h.served u).frame (hS u) (hR u) (pointer_update (Pc.refersTo_of_parked hbp u))
        (Function.update_of_ne hur _ _)

theorem resume (ht : ready t ≠ 0) (hk : k.Free) :
    Links S R (Function.update pc t k) (Function.update ready t (ready t - 1)) parkings
      (Function.update resumptions t (resumptions t + 1)) := by
  have hparked := Pc.parked_of_woken ((h.served t).woken ht)
  have hrefs (u : τ) : refs S R (Function.update pc t k) (Function.update ready t (ready t - 1)) u
      + oneAt t u = refs S R pc ready u := by
    have htally := tally_update (Pc.refersTo u) pc t k
    rw [Pc.refersTo_of_parked hparked, hk.refersTo] at htally
    unfold refs
    by_cases hut : u = t
    · subst hut
      rw [Function.update_self, oneAt_self]
      omega
    · rw [Function.update_of_ne hut, oneAt_of_ne (Ne.symm hut)]
      omega
  refine ⟨fun u => ?_, fun u => ?_, fun u => ?_⟩ <;> have hu := hrefs u <;>
    rw [h.refs_eq] at hu <;> by_cases hut : u = t
  · subst hut
    rw [oneAt_self, hparked] at hu
    rw [Function.update_self, hk.parked]
    omega
  · rw [oneAt_of_ne (Ne.symm hut)] at hu
    rwa [Function.update_of_ne hut]
  · subst hut
    -- The reference that the executor had was the only one.
    rw [oneAt_self, hparked] at hu
    exact served_of_refs_eq_zero (by omega) _
  · rw [Function.update_of_ne hut]
    exact (h.served u).frame (fun _ hv => hv) id (pointer_update (hk.refersTo u))
      (Function.update_of_ne hut _ _)
  · have hres := h.resumed t
    rw [hparked] at hres
    rw [hut, Function.update_self, Function.update_self, hk.parked]
    omega
  · rw [Function.update_of_ne hut, Function.update_of_ne hut, h.resumed]

end Links

/-! ### The places of a value -/

section Values

variable [DecidableEq V]

/-- How often a task at this place has `v` with it as the caller that passed it. -/
def Pc.withCaller (v : V) : Pc τ V → ℕ
  | .send x => oneAt x v
  | .trySend x => oneAt x v
  | .sendParked .wokenByClose x => oneAt x v
  | _ => 0

/-- How often a task at this place has `v` on its way to a receiver: it is about to be copied to
the receiver's slot, or is in the slot already. -/
def Pc.inTransit (v : V) : Pc τ V → ℕ
  | .copyTo _ x _ => oneAt x v
  | .copyFrom _ x _ => oneAt x v
  | .tellSender _ x _ => oneAt x v
  | .execSender _ x _ => oneAt x v
  | .recvParked _ (some x) => oneAt x v
  | _ => 0

/-- How often a result delivers `v` to the receiver it is returned to. -/
def delivers (v : V) : OpResult V → ℕ
  | .recvIn _ (some x) => oneAt x v
  | .tryRecvIn _ (some x) => oneAt x v
  | _ => 0

/-- How often a result gives `v` back to its caller. -/
def givesBack (v : V) : OpResult V → ℕ
  | .send (.closed x) => oneAt x v
  | .trySend (.full x) => oneAt x v
  | .trySend (.locked x) => oneAt x v
  | .trySend (.closed x) => oneAt x v
  | _ => 0

/-- The number of places of `v`: with its caller, in the storage, with a parked sender, in transit
to a receiver, delivered, and given back. -/
def places (s : Channel τ V) (v : V) : ℕ :=
  tally (Pc.withCaller v) s.pc + s.storage.count v + (s.senders.map Prod.snd).count v
    + tally (Pc.inTransit v) s.pc + (s.results.map fun r => delivers v r.2).sum
    + (s.results.map fun r => givesBack v r.2).sum

/-- How often a task at this place has `v` with it. -/
def Pc.carries (v : V) (a : Pc τ V) : ℕ := a.withCaller v + a.inTransit v

/-- How often a result has `v` in it. -/
def resultCarries (v : V) (r : OpResult V) : ℕ := delivers v r + givesBack v r

omit [DecidableEq τ] in
theorem places_eq (s : Channel τ V) (v : V) :
    places s v = tally (Pc.carries v) s.pc + s.storage.count v + (s.senders.map Prod.snd).count v
      + (s.results.map fun r => resultCarries v r.2).sum := by
  have htally : tally (Pc.carries v) s.pc = _ :=
    tally_add (Pc.withCaller v) (Pc.inTransit v) s.pc
  have hresults : (s.results.map fun r => resultCarries v r.2).sum
      = (s.results.map fun r => delivers v r.2).sum
        + (s.results.map fun r => givesBack v r.2).sum := List.sum_map_add
  unfold places
  omega

structure Safe (s : Channel τ V) : Prop where
  links : Links s.senders s.receivers s.pc s.ready s.parkings s.resumptions
  noStray : s.stray = false
  conserved : ∀ v, places s v = s.passed.count v

namespace Safe

variable {s : Channel τ V} {x y : V}

/-- What becomes of the places of a value when `t` moves to `k` and a result may be returned. -/
theorem places_goto (s : Channel τ V) (t : τ) (k : Pc τ V) (v : V) :
    places (s.goto t k) v + (s.pc t).carries v = places s v + k.carries v := by
  have htally := tally_update (Pc.carries v) s.pc t k
  simp only [places_eq, goto]
  omega

theorem places_ret (s : Channel τ V) (t : τ) (r : OpResult V) (v : V) :
    places (s.ret t r) v + (s.pc t).carries v = places s v + resultCarries v r := by
  have htally := tally_update (Pc.carries v) s.pc t .idle
  have hidle : (Pc.idle : Pc τ V).carries v = 0 := rfl
  simp only [places_eq, ret, goto, List.map_append, List.sum_append, List.map_cons, List.map_nil,
    List.sum_cons, List.sum_nil]
  omega

omit [Fintype τ] [DecidableEq V] in
theorem free_idle : (Pc.idle : Pc τ V).Free := ⟨rfl, fun _ => rfl⟩

omit [Fintype τ] [DecidableEq V] in
/-- A task that has not yet entered its critical section refers to nobody. -/
theorem free_of_start {p : Pc τ V} (op : Op V) (h : p = op.start) : p.Free := by
  rw [h]
  cases op <;> exact ⟨rfl, fun _ => rfl⟩

theorem moveTo (h : Safe s) (ht : (s.pc t).Free) (hk : k.Free)
    (hcarries : ∀ v, (s.pc t).carries v = k.carries v) : Safe (s.goto t k) := by
  refine ⟨h.links.move ht hk, h.noStray, fun v => ?_⟩
  have hplaces := places_goto s t k v
  rw [hcarries] at hplaces
  exact (Nat.add_right_cancel hplaces).trans (h.conserved v)

theorem ret (h : Safe s) (ht : (s.pc t).Free) {r : OpResult V}
    (hcarries : ∀ v, (s.pc t).carries v = resultCarries v r) : Safe (s.ret t r) := by
  refine ⟨h.links.move ht free_idle, h.noStray, fun v => ?_⟩
  have hplaces := places_ret s t r v
  have hold := h.conserved v
  rw [hcarries] at hplaces
  simp only [Channel.ret, goto] at hplaces ⊢
  omega

theorem store (h : Safe s) (ht : (s.pc t).Free) (hcarries : ∀ v, (s.pc t).carries v = oneAt x v)
    {r : OpResult V} (hr : ∀ v, resultCarries v r = 0) :
    Safe ({ s with storage := s.storage ++ [x] }.ret t r) := by
  refine ⟨h.links.move ht free_idle, h.noStray, fun v => ?_⟩
  have hplaces := places_ret { s with storage := s.storage ++ [x] } t r v
  have hold := h.conserved v
  rw [hr, hcarries] at hplaces
  simp only [places_eq, Channel.ret, goto, List.count_append, count_singleton_eq_oneAt]
    at hplaces hold ⊢
  omega

variable {ys : List V} {rest : List (τ × V)} {s' : Channel τ V}

theorem take (h : Safe s) (ht : (s.pc t).Free) (hcarries : ∀ v, (s.pc t).carries v = 0)
    (hst : s.storage = y :: ys) {r : OpResult V} (hr : ∀ v, resultCarries v r = oneAt y v) :
    Safe ({ s with storage := ys }.ret t r) := by
  refine ⟨h.links.move ht free_idle, h.noStray, fun v => ?_⟩
  have hplaces := places_ret { s with storage := ys } t r v
  have hold := h.conserved v
  rw [hr, hcarries] at hplaces
  simp only [places_eq, Channel.ret, goto, hst, count_cons_eq_oneAt] at hplaces hold ⊢
  omega

theorem parkSender (h : Safe s) (ht : s.pc t = .send x) : Safe (s.parkSender t x) := by
  have hfree := free_of_start (.send x) ht
  obtain ⟨hsenders, hreceivers⟩ := not_mem_of_queued_eq_zero (h.links.queued_eq_zero hfree.parked)
  refine ⟨h.links.park hfree rfl ?_ ?_ (fun _ _ hu => hu) ?_ fun hmem => absurd hmem hreceivers,
    h.noStray, fun v => ?_⟩
  · intro u
    simp only [Channel.parkSender, goto, queued, List.map_append, List.map_cons, List.map_nil,
      List.count_append, count_singleton_eq_oneAt]
    omega
  · intro u v hut hu
    simpa [Channel.parkSender, hut] using hu
  · intro v hv
    rcases List.mem_append.mp hv with hv | hv
    · exact absurd (List.mem_map_of_mem hv) hsenders
    · simp only [List.mem_singleton, Prod.mk.injEq, true_and] at hv
      rw [hv]
  · have hplaces := places_goto s t (.sendParked .firstCall x) v
    have hold := h.conserved v
    simp only [places_eq, Channel.parkSender, goto, Pc.carries, Pc.withCaller, Pc.inTransit, ht,
      List.map_append, List.map_cons, List.map_nil, List.count_append, count_singleton_eq_oneAt]
      at hplaces hold ⊢
    omega

theorem parkReceiver (h : Safe s) (ht : s.pc t = .recv) : Safe (s.parkReceiver t) := by
  have hfree := free_of_start .recv ht
  obtain ⟨hsenders, -⟩ := not_mem_of_queued_eq_zero (h.links.queued_eq_zero hfree.parked)
  refine ⟨h.links.park hfree rfl ?_ (fun _ _ _ hu => hu) ?_
    (fun _ hv => absurd (List.mem_map_of_mem hv) hsenders) (fun _ => rfl), h.noStray, fun v => ?_⟩
  · intro u
    simp only [Channel.parkReceiver, goto, queued, List.count_append, count_singleton_eq_oneAt]
    omega
  · intro u hut hu
    simpa [Channel.parkReceiver, hut] using hu
  · have hplaces := places_goto s t (.recvParked .firstCall none) v
    have hold := h.conserved v
    simp only [places_eq, Channel.parkReceiver, goto, Pc.carries, Pc.withCaller, Pc.inTransit, ht]
      at hplaces hold ⊢
    omega

theorem popReceiver (h : Safe s) (ht : (s.pc t).Free)
    (hcarries : ∀ v, (s.pc t).carries v = oneAt x v) {rest : List τ}
    (hr : s.receivers = r :: rest) (op : Sending) :
    Safe ({ s with receivers := rest }.goto t (.copyTo r x op)) := by
  refine ⟨h.links.pop ht ⟨rfl, fun _ => rfl⟩ ?_ (queued_receivers hr) (fun _ _ hu => hu)
    (fun _ hu => hr ▸ .tail _ hu), h.noStray, fun v => ?_⟩
  · exact (h.links.served r).receiver (by simp [hr])
  · have hplaces := places_goto { s with receivers := rest } t (.copyTo r x op) v
    have hold := h.conserved v
    rw [hcarries] at hplaces
    simp only [places_eq, goto, Pc.carries, Pc.withCaller, Pc.inTransit] at hplaces hold ⊢
    omega

theorem popSender (h : Safe s) (ht : (s.pc t).Free) (hcarries : ∀ v, (s.pc t).carries v = 0)
    (hs : s.senders = (u, x) :: rest) (op : Receiving) :
    Safe ({ s with senders := rest }.goto t (.copyFrom u x op)) := by
  refine ⟨h.links.pop ht ⟨rfl, fun _ => rfl⟩ ?_ (queued_senders hs) (fun _ _ hu => hs ▸ .tail _ hu)
    (fun _ hu => hu), h.noStray, fun v => ?_⟩
  · exact (h.links.served u).sender x (by simp [hs])
  · have hplaces := places_goto { s with senders := rest } t (.copyFrom u x op) v
    have hold := h.conserved v
    rw [hcarries] at hplaces
    simp only [places_eq, goto, Pc.carries, Pc.withCaller, Pc.inTransit, hs, List.map_cons,
      count_cons_eq_oneAt] at hplaces hold ⊢
    omega

theorem popSenderStored (h : Safe s) (ht : (s.pc t).Free) (hcarries : ∀ v, (s.pc t).carries v = 0)
    (hst : s.storage = y :: ys) (hs : s.senders = (u, x) :: rest) (op : Receiving) :
    Safe ({ s with storage := ys ++ [x], senders := rest }.goto t (.tellSender u y op)) := by
  refine ⟨h.links.pop ht ⟨rfl, fun _ => rfl⟩ ?_ (queued_senders hs) (fun _ _ hu => hs ▸ .tail _ hu)
    (fun _ hu => hu), h.noStray, fun v => ?_⟩
  · exact ⟨x, (h.links.served u).sender x (by simp [hs])⟩
  · have hplaces :=
      places_goto { s with storage := ys ++ [x], senders := rest } t (.tellSender u y op) v
    have hold := h.conserved v
    rw [hcarries] at hplaces
    simp only [places_eq, goto, Pc.carries, Pc.withCaller, Pc.inTransit, hst, hs, List.map_cons,
      List.count_append, count_cons_eq_oneAt, List.count_nil] at hplaces hold ⊢
    omega

/-! ### The steps after a critical section -/

theorem needs (h : Safe s) (ht : s.pc t = k) (hk : k.refersTo r ≠ 0) :
    k.Needs (s.pc r) := by
  rw [← ht] at hk ⊢
  exact (h.links.served r).pointer t hk

theorem places_access (s : Channel τ V) (htr : t ≠ r) (b k : Pc τ V) (v : V) :
    places ((s.goto r b).goto t k) v + (s.pc t).carries v + (s.pc r).carries v
      = places s v + k.carries v + b.carries v := by
  have hfirst := places_goto s r b v
  have hsecond := places_goto (s.goto r b) t k v
  have hpc : (s.goto r b).pc t = s.pc t := Function.update_of_ne htr _ _
  rw [hpc] at hsecond
  omega

theorem access (h : Safe s) {x k b : Pc τ V} (hpc : s.pc t = x) (ht : x.PointsTo r)
    (hk : k.PointsTo r) (hr : (s.pc r).parked = 1) (hb : b.parked = 1) (hneeds : k.Needs b)
    (hcarries : ∀ v, (s.pc t).carries v + (s.pc r).carries v = k.carries v + b.carries v) :
    Safe ((s.goto r b).goto t k) := by
  subst hpc
  refine ⟨h.links.access ht hk hr hb hneeds, h.noStray, fun v => ?_⟩
  have htr : t ≠ r := Ne.symm (ne_of_parked ht.parked hr)
  have hplaces := places_access s htr b k v
  have hold := h.conserved v
  have hc := hcarries v
  have hpassed : ((s.goto r b).goto t k).passed = s.passed := rfl
  rw [hpassed]
  omega

theorem wake (h : Safe s) {x : Pc τ V} (hpc : s.pc t = x) (ht : x.PointsTo r)
    (hr : (s.pc r).Woken) {res : OpResult V}
    (hcarries : ∀ v, (s.pc t).carries v = resultCarries v res) : Safe ((s.wake r).ret t res) := by
  subst hpc
  refine ⟨h.links.wake ht free_idle hr, h.noStray, fun v => ?_⟩
  have hplaces := places_ret (s.wake r) t res v
  have hold := h.conserved v
  have hc := hcarries v
  simp only [places_eq, Channel.ret, goto, Channel.wake] at hplaces hold ⊢
  omega

/-- What a step after the critical section can do: the task finds the future of the one that it
serves as it needs it. -/
inductive Serves (s : Channel τ V) (t : τ) : Channel τ V → Prop
  | copyTo {r : τ} {x : V} {op : Sending} (ht : s.pc t = .copyTo r x op)
    (hr : s.pc r = .recvParked .firstCall none) :
    Serves s t ((s.goto r (.recvParked .firstCall (some x))).goto t (.tellReceiver r op))
  | tellReceiver {r : τ} {x : V} {op : Sending} (ht : s.pc t = .tellReceiver r op)
    (hr : s.pc r = .recvParked .firstCall (some x)) :
    Serves s t ((s.goto r (.recvParked .wokenToReturnReady (some x))).goto t (.execReceiver r op))
  | execReceiver {r : τ} {x : V} {op : Sending} (ht : s.pc t = .execReceiver r op)
    (hr : s.pc r = .recvParked .wokenToReturnReady (some x)) : Serves s t ((s.wake r).ret t op.ok)
  | copyFrom {u : τ} {x : V} {op : Receiving} (ht : s.pc t = .copyFrom u x op)
    (hu : s.pc u = .sendParked .firstCall x) :
    Serves s t ((s.goto u (.sendParked .firstCall x)).goto t (.tellSender u x op))
  | tellSender {u : τ} {x y : V} {op : Receiving} (ht : s.pc t = .tellSender u y op)
    (hu : s.pc u = .sendParked .firstCall x) :
    Serves s t ((s.goto u (.sendParked .wokenToReturnReady x)).goto t (.execSender u y op))
  | execSender {u : τ} {x y : V} {op : Receiving} (ht : s.pc t = .execSender u y op)
    (hu : s.pc u = .sendParked .wokenToReturnReady x) : Serves s t ((s.wake u).ret t (op.ok y))

theorem serves (h : Safe s) (hstep : s.unlocked t = some s') : Serves s t s' := by
  have hself (u : τ) : oneAt u u ≠ 0 := by simp
  unfold Channel.unlocked at hstep
  split at hstep
  case h_1 r x op ht =>
    have hr : s.pc r = .recvParked .firstCall none := h.needs ht (hself r)
    obtain rfl := Option.some.inj hstep
    simp only [writeSlot, hr]
    exact .copyTo ht hr
  case h_2 r op ht =>
    obtain ⟨x, hr⟩ := h.needs ht (hself r)
    obtain rfl := Option.some.inj hstep
    simp only [writeRecvState, hr]
    exact .tellReceiver ht hr
  case h_3 r op ht =>
    obtain ⟨x, hr⟩ := h.needs ht (hself r)
    exact Option.some.inj hstep ▸ .execReceiver ht hr
  case h_4 u x op ht =>
    have hu : s.pc u = .sendParked .firstCall x := h.needs ht (hself u)
    obtain rfl := Option.some.inj hstep
    -- Reading the value changes nothing, which is a move of `u` to where it is.
    have hread : s.readValue u = s.goto u (.sendParked .firstCall x) := by
      have hsame : s.goto u (.sendParked .firstCall x) = s := by
        rw [goto, ← hu, Function.update_eq_self]
      rw [hsame, readValue, hu]
    rw [hread]
    exact .copyFrom ht hu
  case h_5 u y op ht =>
    obtain ⟨x, hu⟩ := h.needs ht (hself u)
    obtain rfl := Option.some.inj hstep
    simp only [writeSendState, hu]
    exact .tellSender ht hu
  case h_6 u y op ht =>
    obtain ⟨x, hu⟩ := h.needs ht (hself u)
    exact Option.some.inj hstep ▸ .execSender ht hu
  case h_7 => cases hstep

theorem unlocked (h : Safe s) (hstep : s.unlocked t = some s') : Safe s' := by
  cases h.serves hstep with
  | copyTo ht hr =>
    refine h.access ht ⟨rfl, fun _ => rfl⟩ ⟨rfl, fun _ => rfl⟩ (by rw [hr]; rfl) rfl ⟨_, rfl⟩
      fun v => ?_
    simp only [ht, hr, Pc.carries, Pc.withCaller, Pc.inTransit]
    omega
  | tellReceiver ht hr | copyFrom ht hr | tellSender ht hr =>
    refine h.access ht ⟨rfl, fun _ => rfl⟩ ⟨rfl, fun _ => rfl⟩ (by rw [hr]; rfl) rfl ⟨_, rfl⟩
      fun v => ?_
    simp only [ht, hr, Pc.carries, Pc.withCaller, Pc.inTransit]
  | @execReceiver r x op ht hr =>
    refine h.wake ht ⟨rfl, fun _ => rfl⟩ (hr ▸ .receiver x) fun v => ?_
    cases op <;> simp [ht, Pc.carries, Pc.withCaller, Pc.inTransit, resultCarries, delivers,
      givesBack, Sending.ok]
  | @execSender u x y op ht hu =>
    refine h.wake ht ⟨rfl, fun _ => rfl⟩ (hu ▸ .sender x) fun v => ?_
    cases op <;> simp [ht, Pc.carries, Pc.withCaller, Pc.inTransit, resultCarries, delivers,
      givesBack, Receiving.ok]

/-! ### The critical sections -/

theorem pushLocked (h : Safe s) (hfree : (s.pc t).Free)
    (hcarries : ∀ v, (s.pc t).carries v = oneAt x v) {closed : OpResult V}
    (hclosed : ∀ v, resultCarries v closed = oneAt x v) (op : Sending) {full : Channel τ V}
    (hfull : Safe full) : Safe (s.pushLocked t x closed op full) := by
  unfold Channel.pushLocked
  split
  case isTrue => exact h.ret hfree fun v => by rw [hcarries, hclosed]
  case isFalse =>
    split
    case h_1 r rest hr => exact h.popReceiver hfree hcarries hr op
    case h_2 =>
      split
      case isTrue => exact hfull
      case isFalse =>
        refine h.store hfree hcarries fun v => ?_
        cases op <;> rfl

theorem sendLocked (h : Safe s) (ht : s.pc t = .send x) : Safe (s.sendLocked t x) := by
  rw [sendLocked_eq]
  refine h.pushLocked (free_of_start (.send x) ht) (fun v => ?_) (fun v => ?_) .send
    (h.parkSender ht)
  · rw [ht]
    rfl
  · simp [resultCarries, delivers, givesBack]

theorem trySendLocked (h : Safe s) (ht : s.pc t = .trySend x) : Safe (s.trySendLocked t x) := by
  have hfree := free_of_start (.trySend x) ht
  have hcarries (v : V) : (s.pc t).carries v = oneAt x v := by rw [ht]; rfl
  rw [trySendLocked_eq]
  refine h.pushLocked hfree hcarries (fun v => ?_) .trySend (h.ret hfree fun v => ?_)
  · simp [resultCarries, delivers, givesBack]
  · rw [hcarries]
    simp [resultCarries, delivers, givesBack]

omit [DecidableEq τ] [Fintype τ] in
theorem resultCarries_ok (op : Receiving) (x v : V) : resultCarries v (op.ok x) = oneAt x v := by
  cases op <;> simp [resultCarries, delivers, givesBack, Receiving.ok]

theorem recvStored (h : Safe s) (hfree : (s.pc t).Free) (hcarries : ∀ v, (s.pc t).carries v = 0)
    (hst : s.storage = y :: ys) (op : Receiving) : Safe (s.recvStored t y ys op) := by
  unfold Channel.recvStored
  split
  case h_1 u x rest hs => exact h.popSenderStored hfree hcarries hst hs op
  case h_2 => exact h.take hfree hcarries hst (resultCarries_ok op y)

theorem popLocked (h : Safe s) (hfree : (s.pc t).Free) (hcarries : ∀ v, (s.pc t).carries v = 0)
    {closed : OpResult V} (hclosed : ∀ v, resultCarries v closed = 0) (op : Receiving)
    {empty : Channel τ V} (hempty : Safe empty) : Safe (s.popLocked t closed op empty) := by
  unfold Channel.popLocked
  split
  case isTrue => exact h.ret hfree fun v => by rw [hcarries, hclosed]
  case isFalse =>
    split
    case h_1 =>
      split
      case h_1 u x rest hs => exact h.popSender hfree hcarries hs op
      case h_2 => exact hempty
    case h_2 x xs hst => exact h.recvStored hfree hcarries hst op

theorem recvLocked (h : Safe s) (ht : s.pc t = .recv) : Safe (s.recvLocked t) := by
  rw [recvLocked_eq]
  refine h.popLocked (free_of_start .recv ht) (fun v => ?_) (fun v => rfl) .recvIn
    (h.parkReceiver ht)
  rw [ht]
  rfl

theorem tryRecvInLocked (h : Safe s) (ht : s.pc t = .tryRecvIn) : Safe (s.tryRecvInLocked t) := by
  have hfree := free_of_start .tryRecvIn ht
  have hcarries (v : V) : (s.pc t).carries v = 0 := by rw [ht]; rfl
  rw [tryRecvInLocked_eq]
  refine h.popLocked hfree hcarries (fun v => rfl) .tryRecvIn (h.ret hfree fun v => ?_)
  rw [hcarries]
  rfl

theorem writeSendState_eq (h : Safe s) (hs : s.senders = (u, x) :: rest) :
    s.pc u = .sendParked .firstCall x ∧
      { s with senders := rest }.writeSendState u .wokenByClose =
        { s with senders := rest }.goto u (.sendParked .wokenByClose x) := by
  have hu : s.pc u = .sendParked .firstCall x := (h.links.served u).sender x (by simp [hs])
  refine ⟨hu, ?_⟩
  simp only [writeSendState, hu]

theorem writeRecvState_eq (h : Safe s) {rest : List τ} (hr : s.receivers = r :: rest) :
    s.pc r = .recvParked .firstCall none ∧
      { s with receivers := rest }.writeRecvState r .wokenByClose =
        { s with receivers := rest }.goto r (.recvParked .wokenByClose none) := by
  have hpc : s.pc r = .recvParked .firstCall none := (h.links.served r).receiver (by simp [hr])
  refine ⟨hpc, ?_⟩
  simp only [writeRecvState, hpc]

theorem drainSender (h : Safe s) (hs : s.senders = (u, x) :: rest) :
    Safe (({ s with senders := rest }.goto u (.sendParked .wokenByClose x)).wake u) := by
  obtain ⟨hu, -⟩ := h.writeSendState_eq hs
  refine ⟨h.links.drain (by rw [hu]; rfl) (.closedSender x) (queued_senders hs)
    (fun _ _ hu => hs ▸ .tail _ hu) (fun _ hu => hu), h.noStray, fun v => ?_⟩
  have hplaces := places_goto { s with senders := rest } u (.sendParked .wokenByClose x) v
  have hold := h.conserved v
  simp only [places_eq, Channel.wake, goto, Pc.carries, Pc.withCaller, Pc.inTransit, hu, hs,
    List.map_cons, count_cons_eq_oneAt] at hplaces hold ⊢
  omega

theorem drainReceiver (h : Safe s) {rest : List τ} (hr : s.receivers = r :: rest) :
    Safe (({ s with receivers := rest }.goto r (.recvParked .wokenByClose none)).wake r) := by
  obtain ⟨hpc, -⟩ := h.writeRecvState_eq hr
  refine ⟨h.links.drain (by rw [hpc]; rfl) .closedReceiver (queued_receivers hr) (fun _ _ hu => hu)
    (fun _ hu => hr ▸ .tail _ hu), h.noStray, fun v => ?_⟩
  have hplaces := places_goto { s with receivers := rest } r (.recvParked .wokenByClose none) v
  have hold := h.conserved v
  simp only [places_eq, Channel.wake, goto, Pc.carries, Pc.withCaller, Pc.inTransit, hpc]
    at hplaces hold ⊢
  omega

/-- The loop over the senders keeps the receivers, and the task in `close` where it is. -/
theorem drainSenders : ∀ (l : List (τ × V)) (s : Channel τ V), Safe s → s.senders = l →
    Safe (drainSenders l s) ∧ (Channel.drainSenders l s).receivers = s.receivers ∧
      ∀ t, s.pc t = .close → (Channel.drainSenders l s).pc t = .close
  | [], _, h, _ => ⟨h, rfl, fun _ ht => ht⟩
  | (u, x) :: rest, s, h, hs => by
    obtain ⟨hu, hwrite⟩ := h.writeSendState_eq hs
    rw [Channel.drainSenders, hwrite]
    -- The induction goes on from the state after one round, which is safe.
    obtain ⟨hsafe, hreceivers, hpc⟩ := drainSenders rest _ (h.drainSender hs) rfl
    refine ⟨hsafe, hreceivers, fun t ht => hpc t ?_⟩
    have htu : t ≠ u := by
      rintro rfl
      simp [hu] at ht
    simpa [Channel.wake, goto, htu] using ht

/-- The loop over the receivers keeps the task in `close` where it is. -/
theorem drainReceivers : ∀ (l : List τ) (s : Channel τ V), Safe s → s.receivers = l →
    Safe (drainReceivers l s) ∧
      ∀ t, s.pc t = .close → (Channel.drainReceivers l s).pc t = .close
  | [], _, h, _ => ⟨h, fun _ ht => ht⟩
  | r :: rest, s, h, hr => by
    obtain ⟨hpcr, hwrite⟩ := h.writeRecvState_eq hr
    rw [Channel.drainReceivers, hwrite]
    obtain ⟨hsafe, hpc⟩ := drainReceivers rest _ (h.drainReceiver hr) rfl
    refine ⟨hsafe, fun t ht => hpc t ?_⟩
    have htr : t ≠ r := by
      rintro rfl
      simp [hpcr] at ht
    simpa [Channel.wake, goto, htr] using ht

theorem closeLocked (h : Safe s) (ht : s.pc t = .close) : Safe (s.closeLocked t) := by
  have hclosed : Safe { s with isClosed := true } := ⟨h.links, h.noStray, h.conserved⟩
  -- `close` has not moved while it drained the queues.
  obtain ⟨hsenders, hreceivers, hpc⟩ := drainSenders s.senders _ hclosed rfl
  obtain ⟨hsafe, hpc'⟩ := drainReceivers s.receivers _ hsenders hreceivers
  have ht' := hpc' t (hpc t ht)
  exact hsafe.moveTo (free_of_start .close ht') free_idle (fun v => by rw [ht']; rfl)

/-! ### Whole runs -/

theorem call (h : Safe s) (ht : s.pc t = .idle) (op : Op V) :
    Safe { s.goto t op.start with passed := s.passed ++ op.passes } := by
  refine ⟨h.links.move (by rw [ht]; exact free_idle) (free_of_start op rfl), h.noStray, fun v => ?_⟩
  have hplaces := places_goto s t op.start v
  have hold := h.conserved v
  have hidle : (Pc.idle : Pc τ V).carries v = 0 := rfl
  have hcarries : (op.start : Pc τ V).carries v = op.passes.count v := by
    cases op <;> simp [Op.start, Op.passes, Pc.carries, Pc.withCaller, Pc.inTransit,
      count_singleton_eq_oneAt]
  rw [ht] at hplaces
  simp only [places_eq, List.count_append] at hplaces hold ⊢
  omega

theorem resume (h : Safe s) (ht : s.ready t ≠ 0) : Safe (s.resume t) := by
  have hwoken := (h.links.served t).woken ht
  -- A woken future returns what the call state says; nothing else is left to distinguish.
  have hret {res : OpResult V} (hcarries : ∀ v, (s.pc t).carries v = resultCarries v res) :
      Safe ({ s with
        ready := Function.update s.ready t (s.ready t - 1)
        resumptions := Function.update s.resumptions t (s.resumptions t + 1) }.ret t res) := by
    refine ⟨h.links.resume ht free_idle, h.noStray, fun v => ?_⟩
    have hplaces := places_ret s t res v
    have hold := h.conserved v
    have hc := hcarries v
    simp only [places_eq, Channel.ret, goto] at hplaces hold ⊢
    omega
  generalize hpc : s.pc t = b at hwoken
  unfold Channel.resume
  cases hwoken with
  | sender | closedReceiver =>
    simp only [hpc]
    exact hret (fun v => by rw [hpc]; rfl)
  | closedSender | receiver =>
    simp only [hpc]
    refine hret (fun v => ?_)
    simp [hpc, Pc.carries, Pc.withCaller, Pc.inTransit, resultCarries, delivers, givesBack]

theorem locked (h : Safe s) (hstep : s.locked t = some s') : Safe s' := by
  unfold Channel.locked at hstep
  split at hstep
  case h_1 x ht => exact Option.some.inj hstep ▸ h.sendLocked ht
  case h_2 ht => exact Option.some.inj hstep ▸ h.recvLocked ht
  case h_3 x ht => exact Option.some.inj hstep ▸ h.trySendLocked ht
  case h_4 ht => exact Option.some.inj hstep ▸ h.tryRecvInLocked ht
  case h_5 ht => exact Option.some.inj hstep ▸ h.closeLocked ht
  case h_6 => cases hstep

theorem lockFails (h : Safe s) (hstep : s.lockFails t = some s') : Safe s' := by
  unfold Channel.lockFails at hstep
  split at hstep
  case h_4 x ht =>
    refine Option.some.inj hstep ▸ h.ret (free_of_start (.trySend x) ht) (fun v => ?_)
    simp [ht, Pc.carries, Pc.withCaller, Pc.inTransit, resultCarries, delivers, givesBack]
  case h_5 ht =>
    refine Option.some.inj hstep ▸ h.ret (free_of_start .tryRecvIn ht) (fun v => ?_)
    rw [ht]
    rfl
  case h_6 => cases hstep
  all_goals exact Option.some.inj hstep ▸ h

theorem step {a : Action τ V} (h : Safe s) (hstep : s.step a = some s') : Safe s' := by
  cases a with
  | call t op =>
    simp only [Channel.step] at hstep
    split at hstep
    case h_1 ht => exact Option.some.inj hstep ▸ h.call ht op
    case h_2 => cases hstep
  | lockFails t => exact h.lockFails hstep
  | locked t => exact h.locked hstep
  | unlocked t => exact h.unlocked hstep
  | resume t =>
    simp only [Channel.step] at hstep
    split at hstep
    case isTrue => cases hstep
    case isFalse ht => exact Option.some.inj hstep ▸ h.resume ht

end Safe

theorem safe_bounded (capacity : ℕ) : Safe (bounded capacity : Channel τ V) := by
  have hzero (u : τ) : refs ([] : List (τ × V)) [] (fun _ => Pc.idle) (fun _ => 0) u = 0 := by
    have htally := tally_const_zero (ι := τ) (Pc.refersTo u) (Pc.idle : Pc τ V) rfl
    simp [refs, queued, htally]
  refine ⟨⟨hzero, fun t => served_of_refs_eq_zero (hzero t) _, fun _ => rfl⟩, rfl, fun v => ?_⟩
  have hcaller := tally_const_zero (ι := τ) (Pc.withCaller v) (Pc.idle : Pc τ V) rfl
  have htransit := tally_const_zero (ι := τ) (Pc.inTransit v) (Pc.idle : Pc τ V) rfl
  simp [places, bounded, hcaller, htransit]

theorem safe_of_reachable {capacity : ℕ} {s : Channel τ V}
    (h : Reachable Channel.step (bounded capacity) s) : Safe s :=
  Reach.invariant (safe_bounded capacity) (fun _ _ _ _ hsafe _ hstep => hsafe.step hstep) h

/-- **Every value is in one place, and every parked task is resumed once.** In every interleaving
of any number of tasks,

* each value passed to `send` or `try_send` is in exactly one place, as often as it was passed;
* a task that was given to an executor was given to it once, is parked, and its call state has
  been written;
* every resumption of a task ended a parking of it: the resumptions and the parking that lasts,
  if there is one, are as many as the parkings;
* no future was accessed that its task no longer awaits. -/
theorem exactly_one_place_and_one_resumption {capacity : ℕ} {s : Channel τ V}
    (h : Reachable Channel.step (bounded capacity) s) :
    (∀ v, places s v = s.passed.count v) ∧
      (∀ t, s.ready t ≤ 1 ∧ (s.ready t ≠ 0 → (s.pc t).Woken)) ∧
      (∀ t, s.resumptions t + (s.pc t).parked = s.parkings t) ∧
      s.stray = false := by
  have hsafe := safe_of_reachable h
  refine ⟨hsafe.conserved, fun t => ⟨?_, (hsafe.links.served t).woken⟩, hsafe.links.resumed,
    hsafe.noStray⟩
  -- A task has one reference at most, and `ready` counts among the references.
  have hrefs := hsafe.links.refs_eq t
  have hparked := Pc.parked_le_one (s.pc t)
  unfold refs at hrefs
  omega

end Values

end Refs

/-- `t` is parked as a receiver; `u` takes it out of the queue for its value `x`, `v` closes the
channel before the slot is written, and `u` goes on. -/
def closedDuringHandOff (t u v : τ) (x : V) : List (Action τ V) :=
  [.call t .recv, .locked t, .call u (.send x), .locked u, .call v .close, .locked v,
    .unlocked u, .unlocked u, .unlocked u, .resume t]

theorem one_place_closedDuringHandOff :
    ∃ s : Channel (Fin 3) ℕ, Reachable Channel.step (bounded 1) s ∧ s.passed = [7] ∧
      s.results = [(1, .send .ok), (0, .recvIn .ok (some 7))] ∧ places s 7 = [7].count 7 ∧
      s.resumptions 0 + (s.pc 0).parked = s.parkings 0 := by
  have h : Reachable Channel.step (bounded 1) _ :=
    reachable_of_exec (closedDuringHandOff (0 : Fin 3) 1 2 7) rfl
  obtain ⟨hplaces, -, hresumed, -⟩ := exactly_one_place_and_one_resumption h
  exact ⟨_, h, rfl, rfl, hplaces 7, hresumed 0⟩

end Orengine.Sync.Channel
