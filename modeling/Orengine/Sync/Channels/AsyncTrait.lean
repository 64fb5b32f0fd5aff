import Orengine.Sync.Channels.Safety.Linearizable

/-!
# `recv_in` and `try_recv_in`

The receiving operations of `AsyncReceiver` into a slot that holds a value.  Both drop that value
first and then call the operation on the pointer to the slot, which writes to it only if it returns
`Ok`.  A `Slot` remembers every value that was ever written to it and how many times each was
dropped.  A call that returns `Empty`, `Locked` or `Closed` leaves a dropped value behind, which the
next call or the owner drops again (`slot_sound_iff`).

What a channel does for a call is a `Call`.
-/

namespace Orengine.Sync

open Orengine.Runtime Orengine.Lib

variable {τ V : Type*}

/-! ### What a channel does for a call -/

/-- What a channel has for a `try_recv_in_ptr`. -/
inductive Offer (V : Type*) where
  /-- It is open and unlocked, and this value is next. -/
  | value (v : V)
  /-- It is open and unlocked, and there is no value. -/
  | nothing
  /-- Its lock is taken. -/
  | locked
  /-- It is closed. -/
  | closed
  deriving DecidableEq

/-- A call with what the channel does for it. -/
inductive Call (V : Type*) where
  /-- `recv_in`: the channel has this value for it, or is closed before it has one. -/
  | recvIn (value : Option V)
  | tryRecvIn (offer : Offer V)
  deriving DecidableEq

namespace Call

/-- The value that the channel has for the call. -/
def value : Call V → Option V
  | .recvIn value => value
  | .tryRecvIn (.value v) => some v
  | .tryRecvIn _ => none

/-- The result of the operation on the pointer, with the value that it has written. -/
def result : Call V → OpResult V
  | .recvIn (some v) => .recvIn .ok (some v)
  | .recvIn none => .recvIn .closed none
  | .tryRecvIn (.value v) => .tryRecvIn .ok (some v)
  | .tryRecvIn .nothing => .tryRecvIn .empty none
  | .tryRecvIn .locked => .tryRecvIn .locked none
  | .tryRecvIn .closed => .tryRecvIn .closed none

end Call

/-! ### The slot -/

/-- The memory behind a slot: the values that were written to it, the last one first, and how many
times each was dropped. -/
structure Slot (V : Type*) where
  values : List (V × ℕ)
  deriving DecidableEq

namespace Slot

/-- The slot of an owner that has put `v` into it. -/
def new (v : V) : Slot V := ⟨[(v, 0)]⟩

/-- `drop_in_place(slot)`. -/
def dropInPlace (s : Slot V) : Slot V :=
  match s.values with
  | [] => s
  | (v, n) :: rest => ⟨(v, n + 1) :: rest⟩

/-- `slot.write(value)`, which drops nothing. -/
def write (s : Slot V) (v : V) : Slot V := ⟨(v, 0) :: s.values⟩

/-- `recv_in_ptr` and `try_recv_in_ptr`, as far as the slot is concerned. -/
def receive (s : Slot V) (value : Option V) : Slot V := value.elim s s.write

def recvIn (s : Slot V) (value : Option V) : Slot V := s.dropInPlace.receive value

def tryRecvIn (s : Slot V) (offer : Offer V) : Slot V :=
  s.dropInPlace.receive (Call.tryRecvIn offer).value

def call (s : Slot V) : Call V → Slot V
  | .recvIn value => s.recvIn value
  | .tryRecvIn offer => s.tryRecvIn offer

/-- The slot after a sequence of calls. -/
def run (s : Slot V) (calls : List (Call V)) : Slot V := calls.foldl call s

/-- The slot holds a value that was not dropped. -/
def Live (s : Slot V) : Prop := ∃ v, s.values.head? = some (v, 0)

/-- After every call the slot holds a live value, and when its owner has dropped it at the end every
value that was ever in it has been dropped once. -/
def Sound (v : V) (calls : List (Call V)) : Prop :=
  (∀ n ≤ calls.length, ((new v).run (calls.take n)).Live) ∧
    ∀ x ∈ ((new v).run calls).dropInPlace.values, x.2 = 1

theorem call_eq (s : Slot V) (c : Call V) : s.call c = s.dropInPlace.receive c.value := by
  cases c <;> rfl

/-- Only the last value has not been dropped. -/
def Fresh (s : Slot V) : Prop := ∃ v rest, s.values = (v, 0) :: rest ∧ ∀ x ∈ rest, x.2 = 1

theorem fresh_new (v : V) : (new v).Fresh := ⟨v, [], rfl, nofun⟩

variable {s : Slot V} {c : Call V}

theorem Fresh.live (h : s.Fresh) : s.Live := by
  obtain ⟨v, rest, hs, -⟩ := h
  exact ⟨v, by rw [hs]; rfl⟩

theorem Fresh.dropInPlace (h : s.Fresh) : ∀ x ∈ s.dropInPlace.values, x.2 = 1 := by
  obtain ⟨v, rest, hs, hrest⟩ := h
  intro x hx
  rw [Slot.dropInPlace, hs] at hx
  rcases List.mem_cons.mp hx with rfl | hx
  · rfl
  · exact hrest x hx

theorem Fresh.call (h : s.Fresh) (hc : c.value.isSome) : (s.call c).Fresh := by
  obtain ⟨v, hv⟩ := Option.isSome_iff_exists.mp hc
  rw [call_eq, hv]
  exact ⟨v, s.dropInPlace.values, rfl, h.dropInPlace⟩

theorem Fresh.run (h : s.Fresh) {calls : List (Call V)} (hcalls : ∀ c ∈ calls, c.value.isSome) :
    (s.run calls).Fresh := by
  induction calls generalizing s with
  | nil => exact h
  | cons c calls ih =>
    exact ih (h.call (hcalls c (List.mem_cons_self ..)))
      (fun c' hc' => hcalls c' (List.mem_cons_of_mem _ hc'))

theorem not_live_call (s : Slot V) (hc : c.value = none) : ¬(s.call c).Live := by
  rw [call_eq, hc]
  rintro ⟨v, hv⟩
  change s.dropInPlace.values.head? = some (v, 0) at hv
  unfold dropInPlace at hv
  split at hv
  · simp_all
  · simp at hv

theorem run_take_succ (s : Slot V) {calls : List (Call V)} {n : ℕ} (h : calls[n]? = some c) :
    s.run (calls.take (n + 1)) = (s.run (calls.take n)).call c := by
  rw [run, List.take_add_one, h, Option.toList_some, List.foldl_append]
  rfl

end Slot

/-- **When a slot is sound.** For every value that a slot holds at first and every sequence of
`recv_in` and `try_recv_in` on it, the slot is sound exactly when the channel has a value for every
one of these calls. -/
theorem slot_sound_iff (v : V) (calls : List (Call V)) :
    Slot.Sound v calls ↔ ∀ c ∈ calls, c.value.isSome := by
  constructor
  · rintro ⟨hlive, -⟩ c hc
    by_contra hnone
    obtain ⟨n, hn⟩ := List.mem_iff_getElem?.mp hc
    have hlt : n < calls.length := (List.getElem?_eq_some_iff.mp hn).1
    have hafter := hlive (n + 1) hlt
    rw [Slot.run_take_succ _ hn] at hafter
    exact Slot.not_live_call _ (by simpa using hnone) hafter
  · intro hcalls
    refine ⟨fun n _ => ?_, ((Slot.fresh_new v).run hcalls).dropInPlace⟩
    have htake : ∀ c ∈ calls.take n, c.value.isSome :=
      fun c hc => hcalls c (List.mem_of_mem_take hc)
    exact ((Slot.fresh_new v).run htake).live

namespace LocalChannel

/-- A task takes from an empty channel. -/
def takeFromEmpty : List (Move ℕ (TaskOp ℕ (Op ℕ))) :=
  [.wake 0, .code (.op .go), .code (.op .tryRecvIn)]

/-- With a slot that holds 7, `takeFromEmpty` leaves a dropped value in it, which its owner drops
again. -/
theorem empty_slot_dropped_twice :
    ∃ e : Executor ℕ (World ℕ (LocalChannel ℕ ℕ)) (Place ℕ ℕ),
      primitive.Reaches (bounded 1) e ∧
      e.state.memory.results = [(0, (Call.tryRecvIn .nothing).result)] ∧
      ¬((Slot.new 7).tryRecvIn .nothing).Live ∧
      ((Slot.new 7).tryRecvIn .nothing).dropInPlace.values = [(7, 2)] ∧
      ¬Slot.Sound 7 [.tryRecvIn .nothing] := by
  have h : primitive.Reaches (bounded 1) _ := reachable_of_exec takeFromEmpty rfl
  refine ⟨_, h, rfl, Slot.not_live_call (Slot.new 7) (c := .tryRecvIn .nothing) rfl, rfl, ?_⟩
  rintro ⟨hlive, -⟩
  exact Slot.not_live_call (Slot.new 7) (c := .tryRecvIn .nothing) rfl (hlive 1 (Nat.le_refl 1))

end LocalChannel

end Orengine.Sync
