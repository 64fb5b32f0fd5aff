import Orengine.Lib.Tally
import Orengine.Io.Sys.Fallback.MioPoller

/-!
# The slots of `MioPoller`

A slot is in the pool or belongs to one socket that is registered (`Sound`).  Deregistering a
request and the first event with its token both give its slot back and unregister its socket
(`Sound.release`).  A second event with the same token gives the slot back once more, and the lookup
in `registered_sockets` fails (`lookup_fails`); `poller_sound` is about batches without one.
-/

namespace Orengine.Io.Mio

open Orengine.Lib
open scoped List

namespace MioPoller

variable {σ ι : Type*} {p q : MioPoller σ ι}

/-- The requests in flight: what is in the slots of the sockets that are registered. -/
def inFlight (p : MioPoller σ ι) : List (Request σ ι) := p.registry.filterMap fun x => p.memory x.2

/-- All slots: those of the requests in flight, and those in the pool. -/
def slots (p : MioPoller σ ι) : List ℕ := p.registry.map Prod.snd ++ p.requestSlots

/-- The poller when nothing has gone wrong. -/
structure Sound (p : MioPoller σ ι) : Prop where
  sockets : (p.registry.map Prod.fst).Nodup
  slots : p.slots.Nodup
  allocated : ∀ slot ∈ p.slots, slot < p.allocated
  stored : ∀ x ∈ p.registry, ∃ r, p.memory x.2 = some r ∧ r.rawSocket = x.1
  keys : ∀ rawSocket, rawSocket ∈ p.registeredSockets ↔ rawSocket ∈ p.registry.map Prod.fst

theorem sound_new : (new : MioPoller σ ι).Sound where
  sockets := List.nodup_nil
  slots := List.nodup_nil
  allocated := fun _ h => by cases h
  stored := fun _ h => by cases h
  keys := fun _ => Iff.rfl

/-- The slot of a new request is not that of a request in flight. -/
theorem writeRequestAndGetPtr_spec (h : p.Sound) (r : Request σ ι) :
    (p.writeRequestAndGetPtr r).2.registry = p.registry ∧
      (p.writeRequestAndGetPtr r).2.registeredSockets = p.registeredSockets ∧
      (p.writeRequestAndGetPtr r).2.memory =
        Function.update p.memory (p.writeRequestAndGetPtr r).1 (some r) ∧
      ((p.writeRequestAndGetPtr r).1 :: (p.writeRequestAndGetPtr r).2.slots).Nodup ∧
      ∀ slot ∈ (p.writeRequestAndGetPtr r).1 :: (p.writeRequestAndGetPtr r).2.slots,
        slot < (p.writeRequestAndGetPtr r).2.allocated := by
  have hslots := h.slots
  have hallocated := h.allocated
  unfold writeRequestAndGetPtr
  unfold slots at hslots hallocated ⊢
  split
  case h_1 slot rest hpool =>
    rw [hpool] at hslots hallocated
    refine ⟨rfl, rfl, rfl, List.perm_middle.nodup_iff.mp hslots, fun k hk => ?_⟩
    exact hallocated k (List.perm_middle.mem_iff.mpr hk)
  case h_2 hpool =>
    refine ⟨rfl, rfl, rfl, List.nodup_cons.mpr ⟨fun hmem => ?_, hslots⟩, fun k hk => ?_⟩
    · exact Nat.lt_irrefl _ (hallocated _ hmem)
    · rcases List.mem_cons.mp hk with rfl | hk
      · exact Nat.lt_succ_self _
      · exact Nat.lt_succ_of_lt (hallocated k hk)

/-- The tokens of the other events stay when a request is released. -/
theorem mem_tokens_of_perm {x : σ × ℕ} (hperm : (x :: q.registry).Perm p.registry) {token : ℕ}
    (hmem : token ∈ p.registry.map Prod.snd) (hne : token ≠ x.2) :
    token ∈ q.registry.map Prod.snd := by
  have htokens := (hperm.map Prod.snd).mem_iff.mpr hmem
  exact (List.mem_cons.mp htokens).resolve_left hne

theorem filterMap_update {l : List (σ × ℕ)} {f : ℕ → Option (Request σ ι)} {slot : ℕ}
    (hslot : slot ∉ l.map Prod.snd) (r : Request σ ι) :
    l.filterMap (fun x => Function.update f slot (some r) x.2) = l.filterMap fun x => f x.2 := by
  apply List.filterMap_congr
  intro x hx
  have hne : x.2 ≠ slot := fun heq => hslot (heq ▸ List.mem_map_of_mem hx)
  exact Function.update_of_ne hne _ _

variable [DecidableEq σ]

theorem Sound.register (h : p.Sound) {r : Request σ ι}
    (hfree : r.rawSocket ∉ p.registry.map Prod.fst) :
    (p.register r).Sound ∧ (p.register r).inFlight = p.inFlight ++ [r] := by
  obtain ⟨hregistry, hkeys, hmemory, hnodup, hallocated⟩ := writeRequestAndGetPtr_spec h r
  unfold MioPoller.register
  revert hregistry hkeys hmemory hnodup hallocated
  -- From here on only what the specification says about the slot counts.
  generalize p.writeRequestAndGetPtr r = written
  obtain ⟨slot, q⟩ := written
  rintro hregistry hkeys hmemory hnodup hallocated
  have hslot : slot ∉ p.registry.map Prod.snd := by
    intro hmem
    apply (List.nodup_cons.mp hnodup).1
    rw [← hregistry] at hmem
    exact List.mem_append_left _ hmem
  have hperm : ((q.registry ++ [(r.rawSocket, slot)]).map Prod.snd ++ q.requestSlots).Perm
      (slot :: q.slots) := by
    rw [List.map_append, List.append_assoc]
    exact List.perm_middle
  refine ⟨⟨?_, ?_, ?_, ?_, ?_⟩, ?_⟩
  · show ((q.registry ++ [(r.rawSocket, slot)]).map Prod.fst).Nodup
    rw [hregistry, List.map_append]
    exact h.sockets.append (List.nodup_singleton _) (List.disjoint_singleton.mpr hfree)
  · exact hperm.nodup_iff.mpr hnodup
  · exact fun k hk => hallocated k (hperm.mem_iff.mp hk)
  · show ∀ x ∈ q.registry ++ [(r.rawSocket, slot)], ∃ r, q.memory x.2 = some r ∧ _
    intro x hx
    rw [hmemory]
    rcases List.mem_append.mp hx with hx | hx
    · rw [hregistry] at hx
      have hne : x.2 ≠ slot := fun heq => hslot (heq ▸ List.mem_map_of_mem hx)
      rw [Function.update_of_ne hne]
      exact h.stored x hx
    · obtain rfl := List.mem_singleton.mp hx
      exact ⟨r, Function.update_self .., rfl⟩
  · intro rawSocket
    show rawSocket ∈ insert r.rawSocket q.registeredSockets ↔
      rawSocket ∈ (q.registry ++ [(r.rawSocket, slot)]).map Prod.fst
    rw [hkeys, hregistry, List.map_append, List.mem_append, Finset.mem_insert, h.keys, or_comm]
    exact or_congr_right List.mem_singleton.symm
  · show (q.registry ++ [(r.rawSocket, slot)]).filterMap (fun x => q.memory x.2) = _
    rw [hregistry, hmemory, List.filterMap_append, filterMap_update hslot]
    simp [inFlight]

/-- **A request in flight is released**: its slot goes to the pool and its socket is
unregistered. -/
theorem Sound.release (h : p.Sound) {x : σ × ℕ} (hx : x ∈ p.registry) :
    ∃ r, p.memory x.2 = some r ∧ r.rawSocket = x.1 ∧
      ∃ q, (p.releaseRequestSlot x.2).2.deregisterSocket x.1 = some q ∧ q.Sound ∧
        q.memory = p.memory ∧ x.1 ∉ q.registeredSockets ∧ (x :: q.registry).Perm p.registry ∧
        (r :: q.inFlight).Perm p.inFlight := by
  obtain ⟨r, hr, hsocket⟩ := h.stored x hx
  have hkey : x.1 ∈ p.registeredSockets := (h.keys x.1).mpr (List.mem_map_of_mem hx)
  have hperm : (x :: p.registry.filter fun y => y.1 ≠ x.1).Perm p.registry :=
    perm_cons_filter h.sockets hx
  have hsub {y : σ × ℕ} (hy : y ∈ p.registry.filter fun y => y.1 ≠ x.1) : y ∈ p.registry :=
    (List.mem_filter.mp hy).1
  have hslots : ((p.registry.filter fun y => y.1 ≠ x.1).map Prod.snd ++
      x.2 :: p.requestSlots).Perm p.slots := by
    refine List.perm_middle.trans ?_
    exact (hperm.map Prod.snd).append_right p.requestSlots
  refine ⟨r, hr, hsocket, _, if_pos hkey, ⟨?_, ?_, ?_, ?_, ?_⟩, rfl, ?_, hperm, ?_⟩
  · exact h.sockets.sublist (List.filter_sublist.map Prod.fst)
  · exact hslots.nodup_iff.mpr h.slots
  · exact fun k hk => h.allocated k (hslots.mem_iff.mp hk)
  · exact fun y hy => h.stored y (hsub hy)
  · intro rawSocket
    show rawSocket ∈ p.registeredSockets.erase x.1 ↔
      rawSocket ∈ (p.registry.filter fun y => y.1 ≠ x.1).map Prod.fst
    rw [Finset.mem_erase, h.keys, List.mem_map, List.mem_map]
    constructor
    · rintro ⟨hne, y, hy, rfl⟩
      exact ⟨y, List.mem_filter.mpr ⟨hy, decide_eq_true hne⟩, rfl⟩
    · rintro ⟨y, hy, rfl⟩
      exact ⟨of_decide_eq_true (List.mem_filter.mp hy).2, y, hsub hy, rfl⟩
  · exact Finset.notMem_erase x.1 _
  · have hcons : (x :: p.registry.filter fun y => y.1 ≠ x.1).filterMap (fun y => p.memory y.2) =
        r :: (p.registry.filter fun y => y.1 ≠ x.1).filterMap fun y => p.memory y.2 :=
      List.filterMap_cons_some hr
    exact hcons ▸ hperm.filterMap fun y => p.memory y.2

/-! ### A batch of events -/

theorem pollEvent_release {e : Event} {r : Request σ ι} (hr : p.memory e.token = some r)
    (hq : (p.releaseRequestSlot e.token).2.deregisterSocket r.rawSocket = some q) :
    p.pollEvent e = some (q, e.isOk, r) := by
  unfold pollEvent
  simp only [releaseRequestSlot] at hq ⊢
  rw [hr]
  show Option.map _ _ = _
  rw [hq]
  rfl

/-- **A batch whose tokens are different** reports as many requests in flight, and these are not in
flight any more. -/
theorem Sound.poll (h : p.Sound) {events : List Event} (hnodup : (events.map Event.token).Nodup)
    (hmem : ∀ e ∈ events, e.token ∈ p.registry.map Prod.snd) :
    ∃ q requests, p.poll events = some (q, requests) ∧ q.Sound ∧
      (requests.map Prod.snd ++ q.inFlight).Perm p.inFlight := by
  induction events generalizing p with
  | nil => exact ⟨p, [], rfl, h, .refl _⟩
  | cons e events ih =>
    obtain ⟨hnot, hnodup⟩ := List.nodup_cons.mp hnodup
    obtain ⟨x, hx, htoken⟩ := List.mem_map.mp (hmem e List.mem_cons_self)
    obtain ⟨r, hr, hsocket, q, hq, hsound, -, -, hperm, hflight⟩ := h.release hx
    have hevent : p.pollEvent e = some (q, e.isOk, r) :=
      pollEvent_release (htoken ▸ hr) (by rw [← htoken, hsocket]; exact hq)
    have hrest : ∀ e' ∈ events, e'.token ∈ q.registry.map Prod.snd := by
      intro e' he'
      refine mem_tokens_of_perm hperm (hmem e' (List.mem_cons_of_mem e he')) fun heq => hnot ?_
      rw [← htoken, ← heq]
      exact List.mem_map_of_mem he'
    obtain ⟨q', requests, hpoll, hsound', hperm'⟩ := ih hsound hnodup hrest
    refine ⟨q', (e.isOk, r) :: requests, ?_, hsound', ?_⟩
    · simp only [MioPoller.poll, hevent, hpoll]
      rfl
    · exact (hperm'.cons r).trans hflight

/-- An event whose request has a socket that is not registered any more makes the poll fail. -/
theorem poll_eq_none {events : List Event} {e : Event} (he : e ∈ events) {r : Request σ ι}
    (hr : p.memory e.token = some r) (hsocket : r.rawSocket ∉ p.registeredSockets) :
    p.poll events = none := by
  induction events generalizing p with
  | nil => cases he
  | cons e' events ih =>
    simp only [MioPoller.poll]
    split
    case h_1 => rfl
    case h_2 q x hevent =>
      -- The event is a later one, and what it finds has not got better.
      unfold pollEvent releaseRequestSlot at hevent
      split at hevent
      case h_2 => cases hevent
      case h_1 r' p' hread =>
        obtain ⟨hr', rfl⟩ := Prod.mk.inj hread
        obtain ⟨q', hq', heq⟩ := Option.map_eq_some_iff.mp hevent
        obtain ⟨rfl, -⟩ := Prod.mk.inj heq
        unfold deregisterSocket at hq'
        split at hq'
        case isFalse => cases hq'
        case isTrue hkey =>
          obtain rfl := Option.some.inj hq'
          have hlater : e ∈ events := by
            rcases List.mem_cons.mp he with rfl | he
            · rw [hr] at hr'
              obtain rfl := Option.some.inj hr'
              exact absurd hkey hsocket
            · exact he
          refine Option.map_eq_none_iff.mpr (ih hlater hr ?_)
          exact fun hmem => hsocket (Finset.mem_of_mem_erase hmem)

/-- **A batch with two events for one token** makes the poll fail. -/
theorem Sound.poll_eq_none (h : p.Sound) {events : List Event}
    (hdup : ¬(events.map Event.token).Nodup)
    (hmem : ∀ e ∈ events, e.token ∈ p.registry.map Prod.snd) : p.poll events = none := by
  induction events generalizing p with
  | nil => exact absurd List.nodup_nil hdup
  | cons e events ih =>
    obtain ⟨x, hx, htoken⟩ := List.mem_map.mp (hmem e List.mem_cons_self)
    obtain ⟨r, hr, hsocket, q, hq, hsound, hmemory, hgone, hperm, -⟩ := h.release hx
    have hevent : p.pollEvent e = some (q, e.isOk, r) :=
      pollEvent_release (htoken ▸ hr) (by rw [← htoken, hsocket]; exact hq)
    have hrest : q.poll events = none := by
      by_cases hagain : e.token ∈ events.map Event.token
      · -- The first event has unregistered the socket of the second one.
        obtain ⟨e', he', heq⟩ := List.mem_map.mp hagain
        refine MioPoller.poll_eq_none he' (r := r) ?_ (hsocket ▸ hgone)
        rw [hmemory, heq, ← htoken]
        exact hr
      · apply ih hsound
        · exact fun hnodup => hdup (List.nodup_cons.mpr ⟨hagain, hnodup⟩)
        · intro e' he'
          refine mem_tokens_of_perm hperm (hmem e' (List.mem_cons_of_mem e he')) fun heq => ?_
          apply hagain
          rw [← htoken, ← heq]
          exact List.mem_map_of_mem he'
    simp only [MioPoller.poll, hevent, hrest]
    rfl

end MioPoller

/-! ### Whole runs -/

/-- Whether a batch has no two events with the same token. -/
def Action.Distinct {σ ι : Type*} : Action σ ι → Prop
  | .poll events => (events.map Event.token).Nodup
  | _ => True

instance {σ ι : Type*} : DecidablePred (Action.Distinct (σ := σ) (ι := ι))
  | .poll events => inferInstanceAs (Decidable (events.map Event.token).Nodup)
  | .register _ => inferInstanceAs (Decidable True)
  | .deregister _ _ => inferInstanceAs (Decidable True)

namespace System

variable {σ ι : Type*} [DecidableEq σ] {s t : System σ ι} {a : Action σ ι}

/-- The poller is sound, no lookup has failed, and every request that was registered was reported
or deregistered once or is in flight. -/
structure InOrder (s : System σ ι) : Prop where
  sound : s.poller.Sound
  once : s.registered.Perm (s.reported ++ s.deregistered ++ s.poller.inFlight)
  found : s.panicked = false

theorem InOrder.step (h : s.InOrder) (hdistinct : a.Distinct) (hstep : s.step a = some t) :
    t.InOrder := by
  unfold System.step at hstep
  rw [if_neg (by rw [h.found]; decide)] at hstep
  cases a with
  | register r =>
    obtain ⟨hfree, hstep⟩ := Option.ite_none_left_eq_some.mp hstep
    obtain rfl := Option.some.inj hstep
    obtain ⟨hsound, hflight⟩ := h.sound.register hfree
    refine ⟨hsound, ?_, h.found⟩
    show s.registered ++ [r] ~ s.reported ++ s.deregistered ++ (s.poller.register r).inFlight
    rw [hflight, ← List.append_assoc]
    exact h.once.append_right [r]
  | deregister rawSocket slot =>
    simp only [System.deregister] at hstep
    split at hstep
    case isFalse => cases hstep
    case isTrue hmem =>
      obtain ⟨r, hr, -, q, hq, hsound, -, -, -, hflight⟩ := h.sound.release hmem
      rw [show s.poller.deregister rawSocket slot = some q from hq, hr] at hstep
      obtain rfl := Option.some.inj hstep
      refine ⟨hsound, h.once.trans ?_, h.found⟩
      calc
        s.reported ++ s.deregistered ++ s.poller.inFlight
        _ ~ s.reported ++ s.deregistered ++ (r :: q.inFlight) := hflight.symm.append_left _
        _ = s.reported ++ (s.deregistered ++ [r]) ++ q.inFlight := by simp
  | poll events =>
    simp only [System.poll] at hstep
    split at hstep
    case isFalse => cases hstep
    case isTrue hmem =>
      obtain ⟨q, requests, hpoll, hsound, hflight⟩ := h.sound.poll hdistinct hmem
      rw [hpoll] at hstep
      obtain rfl := Option.some.inj hstep
      refine ⟨hsound, h.once.trans ?_, h.found⟩
      calc
        s.reported ++ s.deregistered ++ s.poller.inFlight
        _ ~ s.reported ++ s.deregistered ++ (requests.map Prod.snd ++ q.inFlight) :=
          hflight.symm.append_left _
        _ = s.reported ++ (s.deregistered ++ requests.map Prod.snd) ++ q.inFlight := by
          simp only [List.append_assoc]
        _ ~ s.reported ++ (requests.map Prod.snd ++ s.deregistered) ++ q.inFlight :=
          (List.perm_append_comm.append_left _).append_right _
        _ = s.reported ++ requests.map Prod.snd ++ s.deregistered ++ q.inFlight := by
          simp only [List.append_assoc]

/-- **The slots of the poller.** As long as no batch has two events with the same token, every slot
belongs to at most one request in flight, every request that was registered was reported or
deregistered once or is in flight, and no lookup has failed; and the next poll fails exactly if its
batch has two events with the same token. -/
theorem poller_sound (h : Reach step (fun _ a => a.Distinct) new s) :
    s.poller.slots.Nodup ∧ s.registered ~ s.reported ++ s.deregistered ++ s.poller.inFlight ∧
      s.panicked = false ∧ ∀ events, s.CanReport events →
        ∃ t, s.step (.poll events) = some t ∧
          (t.panicked = true ↔ ¬(events.map Event.token).Nodup) := by
  have hinv : s.InOrder :=
    h.invariant ⟨MioPoller.sound_new, .refl _, rfl⟩ fun _ _ _ _ hi hC hstep => hi.step hC hstep
  refine ⟨hinv.sound.slots, hinv.once, hinv.found, fun events hmem => ?_⟩
  have hpoll : s.step (.poll events) = s.poll events := if_neg (by rw [hinv.found]; decide)
  rw [hpoll]
  unfold System.poll
  rw [if_pos hmem]
  by_cases hnodup : (events.map Event.token).Nodup
  · obtain ⟨q, requests, hq, -⟩ := hinv.sound.poll hnodup hmem
    rw [hq]
    refine ⟨_, rfl, fun hpanic => ?_, fun hnot => absurd hnodup hnot⟩
    rw [show _ = s.panicked from rfl, hinv.found] at hpanic
    cases hpanic
  · rw [hinv.sound.poll_eq_none hnodup hmem]
    exact ⟨_, rfl, fun _ => hnodup, fun _ => rfl⟩

/-- Two sockets get ready together, one of them with an error; a third request is deregistered, and
its slot is used again. -/
theorem poller_sound_three :
    ∃ s : System ℕ ℕ, s.reported = [⟨1, 11⟩, ⟨0, 10⟩] ∧ s.deregistered = [⟨2, 12⟩] ∧
      s.poller.registry = [(0, 0)] ∧ s.poller.requestSlots = [1, 2] ∧ s.poller.slots.Nodup ∧
      s.registered ~ s.reported ++ s.deregistered ++ s.poller.inFlight := by
  have hreach : Reach step (fun _ a => a.Distinct) (new : System ℕ ℕ) _ :=
    reach_of_execWhere [.register ⟨0, 10⟩, .register ⟨1, 11⟩, .register ⟨2, 12⟩, .deregister 2 2,
      .poll [⟨1, false, true, false⟩, ⟨0, true, false, false⟩], .register ⟨0, 13⟩] rfl
  obtain ⟨hslots, honce, -⟩ := poller_sound hreach
  exact ⟨_, rfl, rfl, rfl, rfl, hslots, honce⟩

/-- **A lookup fails.** One socket is registered, and a batch has an event because it can be read
and one because it can be written. -/
theorem lookup_fails :
    ∃ s : System ℕ ℕ, Reachable step new s ∧ s.registered = [⟨0, 10⟩] ∧ s.panicked = true := by
  have hreach : Reachable step (new : System ℕ ℕ) _ :=
    reachable_of_exec [.register ⟨0, 10⟩,
      .poll [⟨0, false, true, false⟩, ⟨0, false, false, true⟩]] rfl
  exact ⟨_, hreach, rfl, rfl⟩

end System

end Orengine.Io.Mio
