import Orengine.Sync.Channels.Shared
import Mathlib.Data.List.Count

/-!
# The sequential channel

What a channel is for, without tasks that run: an operation takes effect at once, and whoever it
serves has its answer at once.  A `SequentialChannel` is a function of the operations in the order
in which they take effect (`run`), and both channels of the library refine it.
-/

namespace Orengine.Sync

/-- The results of one task, in their order. -/
def resultsOf {τ V : Type*} [DecidableEq τ] (results : List (τ × OpResult V)) (t : τ) :
    List (OpResult V) :=
  (results.filter fun x => x.1 = t).map Prod.snd

/-- What is seen of a channel and of the tasks that use it when no task is left to run. -/
@[ext] structure Observed (τ V : Type*) where
  /-- The results of the operations of each task that have returned. -/
  results : τ → List (OpResult V)
  /-- The tasks whose operation has not returned. -/
  pending : τ → Prop
  storage : List V
  isClosed : Bool
  /-- The parked senders with their values, and the parked receivers, in their order. -/
  senders : List (τ × V)
  receivers : List τ

/-- A channel whose operations take effect at once. -/
structure SequentialChannel (τ V : Type*) where
  /-- The stored values, the first one to be received first. -/
  storage : List V
  isClosed : Bool
  capacity : ℕ
  /-- The senders that wait for room, the first one to be served first. -/
  senders : List (τ × V)
  /-- The receivers that wait for a value, the first one to be served first. -/
  receivers : List τ
  /-- The answers that each task has got. -/
  answers : τ → List (OpResult V)

namespace SequentialChannel

variable {τ V : Type*} [DecidableEq τ]

def bounded (capacity : ℕ) : SequentialChannel τ V := ⟨[], false, capacity, [], [], fun _ => []⟩

/-- `t` gets an answer. -/
def answer (s : SequentialChannel τ V) (t : τ) (r : OpResult V) : SequentialChannel τ V :=
  { s with answers := Function.update s.answers t (s.answers t ++ [r]) }

/-- An operation that sends `v`; it ends in `full` if there is neither a receiver nor room. -/
def push (s : SequentialChannel τ V) (t : τ) (v : V) (closed ok : OpResult V)
    (full : SequentialChannel τ V) : SequentialChannel τ V :=
  if s.isClosed then s.answer t closed
  else match s.receivers with
    | u :: rest => ({ s with receivers := rest }.answer u (.recvIn .ok (some v))).answer t ok
    | [] =>
      if s.capacity ≤ s.storage.length then full
      else { s with storage := s.storage ++ [v] }.answer t ok

/-- An operation that receives a value; it ends in `empty` if there is neither a stored value nor a
sender. -/
def pop (s : SequentialChannel τ V) (t : τ) (closed : OpResult V) (ok : V → OpResult V)
    (empty : SequentialChannel τ V) : SequentialChannel τ V :=
  if s.isClosed then s.answer t closed
  else match s.storage, s.senders with
    | [], [] => empty
    | [], (u, v) :: rest => ({ s with senders := rest }.answer u (.send .ok)).answer t (ok v)
    | x :: xs, [] => { s with storage := xs }.answer t (ok x)
    -- the value of the first sender takes the place of the one that is received
    | x :: xs, (u, v) :: rest =>
      ({ s with storage := xs ++ [v], senders := rest }.answer u (.send .ok)).answer t (ok x)

/-- What `close` answers to the tasks that wait. -/
def closeAnswers (senders : List (τ × V)) (receivers : List τ) (u : τ) : List (OpResult V) :=
  (senders.filter fun x => x.1 = u).map (fun x => .send (.closed x.2)) ++
    (receivers.filter (· = u)).map fun _ => .recvIn .closed none

/-- All tasks that wait are told, and nobody waits any more. -/
def close (s : SequentialChannel τ V) : SequentialChannel τ V :=
  { s with
    isClosed := true
    senders := []
    receivers := []
    answers := fun u => s.answers u ++ closeAnswers s.senders s.receivers u }

/-- An operation of `t`. -/
def apply (s : SequentialChannel τ V) (t : τ) : Channel.Op V → SequentialChannel τ V
  | .send v =>
    s.push t v (.send (.closed v)) (.send .ok) { s with senders := s.senders ++ [(t, v)] }
  | .recv =>
    s.pop t (.recvIn .closed none) (fun v => .recvIn .ok (some v))
      { s with receivers := s.receivers ++ [t] }
  | .trySend v =>
    s.push t v (.trySend (.closed v)) (.trySend .ok) (s.answer t (.trySend (.full v)))
  | .tryRecvIn =>
    s.pop t (.tryRecvIn .closed none) (fun v => .tryRecvIn .ok (some v))
      (s.answer t (.tryRecvIn .empty none))
  | .close => s.close

/-- The channel after these operations. -/
def run (capacity : ℕ) (ops : List (τ × Channel.Op V)) : SequentialChannel τ V :=
  ops.foldl (fun s x => s.apply x.1 x.2) (bounded capacity)

/-- What is seen of the channel: an operation is pending as long as its task waits. -/
def observed (s : SequentialChannel τ V) : Observed τ V where
  results := s.answers
  pending t := t ∈ s.senders.map Prod.fst ∨ t ∈ s.receivers
  storage := s.storage
  isClosed := s.isClosed
  senders := s.senders
  receivers := s.receivers

theorem run_concat (capacity : ℕ) (ops : List (τ × Channel.Op V)) (t : τ) (op : Channel.Op V) :
    run capacity (ops ++ [(t, op)]) = (run capacity ops).apply t op := by
  simp [run]

/-! ### What an operation does -/

section Cases

variable {s : SequentialChannel τ V} {t u : τ} {v x : V} {xs : List V} {rest : List (τ × V)}
  {closed : OpResult V} {full empty : SequentialChannel τ V}

theorem push_closed (h : s.isClosed = true) (ok : OpResult V) :
    s.push t v closed ok full = s.answer t closed := by
  simp [push, h]

theorem push_receiver (h : s.isClosed = false) {rest : List τ} (hr : s.receivers = u :: rest)
    (ok : OpResult V) : s.push t v closed ok full =
      ({ s with receivers := rest }.answer u (.recvIn .ok (some v))).answer t ok := by
  simp [push, h, hr]

theorem push_full (h : s.isClosed = false) (hr : s.receivers = [])
    (hfull : s.capacity ≤ s.storage.length) (ok : OpResult V) :
    s.push t v closed ok full = full := by
  simp [push, h, hr, hfull]

theorem push_room (h : s.isClosed = false) (hr : s.receivers = [])
    (hroom : ¬s.capacity ≤ s.storage.length) (ok : OpResult V) :
    s.push t v closed ok full = { s with storage := s.storage ++ [v] }.answer t ok := by
  simp [push, h, hr, hroom]

theorem pop_closed (h : s.isClosed = true) (ok : V → OpResult V) :
    s.pop t closed ok empty = s.answer t closed := by
  simp [pop, h]

theorem pop_empty (h : s.isClosed = false) (hst : s.storage = []) (hs : s.senders = [])
    (ok : V → OpResult V) : s.pop t closed ok empty = empty := by
  simp [pop, h, hst, hs]

theorem pop_sender (h : s.isClosed = false) (hst : s.storage = [])
    (hs : s.senders = (u, v) :: rest) (ok : V → OpResult V) : s.pop t closed ok empty =
      ({ s with senders := rest }.answer u (.send .ok)).answer t (ok v) := by
  simp [pop, h, hst, hs]

theorem pop_stored (h : s.isClosed = false) (hst : s.storage = x :: xs) (hs : s.senders = [])
    (ok : V → OpResult V) :
    s.pop t closed ok empty = { s with storage := xs }.answer t (ok x) := by
  simp [pop, h, hst, hs]

theorem pop_stored_sender (h : s.isClosed = false) (hst : s.storage = x :: xs)
    (hs : s.senders = (u, v) :: rest) (ok : V → OpResult V) : s.pop t closed ok empty =
      ({ s with storage := xs ++ [v], senders := rest }.answer u (.send .ok)).answer t (ok x) := by
  simp [pop, h, hst, hs]

end Cases

/-! ### Answers -/

theorem answers_answer_self (s : SequentialChannel τ V) (t : τ) (r : OpResult V) :
    (s.answer t r).answers t = s.answers t ++ [r] := by
  simp [answer]

theorem answers_answer_of_ne (s : SequentialChannel τ V) {t u : τ} (h : u ≠ t) (r : OpResult V) :
    (s.answer t r).answers u = s.answers u := by
  simp [answer, h]

theorem closeAnswers_of_not_mem {S : List (τ × V)} {R : List τ} {u : τ}
    (hS : u ∉ S.map Prod.fst) (hR : u ∉ R) : closeAnswers S R u = [] := by
  have hsenders : (S.filter fun x => x.1 = u) = [] := by
    rw [List.filter_eq_nil_iff]
    intro x hx heq
    exact hS (List.mem_map.mpr ⟨x, hx, of_decide_eq_true heq⟩)
  have hreceivers : R.filter (· = u) = [] := by
    rw [List.filter_eq_nil_iff]
    intro x hx heq
    exact hR (of_decide_eq_true heq ▸ hx)
  rw [closeAnswers, hsenders, hreceivers]
  rfl

theorem closeAnswers_of_sender {S : List (τ × V)} {R : List τ} {u : τ} {v : V} (h : (u, v) ∈ S)
    (hone : (S.map Prod.fst).count u + R.count u ≤ 1) :
    closeAnswers S R u = [.send (.closed v)] := by
  obtain ⟨before, after, rfl⟩ := List.append_of_mem h
  simp only [List.map_append, List.map_cons, List.count_append, List.count_cons_self] at hone
  have hbefore : u ∉ before.map Prod.fst := List.count_eq_zero.mp (by omega)
  have hafter : u ∉ after.map Prod.fst := List.count_eq_zero.mp (by omega)
  have hR : u ∉ R := List.count_eq_zero.mp (by omega)
  have hsplit : closeAnswers (before ++ (u, v) :: after) R u =
      closeAnswers before [] u ++ .send (.closed v) :: closeAnswers after R u := by
    simp [closeAnswers, List.filter_append]
  rw [hsplit, closeAnswers_of_not_mem hbefore List.not_mem_nil, closeAnswers_of_not_mem hafter hR]
  rfl

theorem closeAnswers_of_receiver {S : List (τ × V)} {R : List τ} {u : τ} (h : u ∈ R)
    (hone : (S.map Prod.fst).count u + R.count u ≤ 1) :
    closeAnswers S R u = [.recvIn .closed none] := by
  have hpos := List.count_pos_iff.mpr h
  have hS : u ∉ S.map Prod.fst := List.count_eq_zero.mp (by omega)
  have hR : R.filter (· = u) = [u] := by
    have hfilter := List.filter_beq (l := R) u
    rw [show R.count u = 1 by omega] at hfilter
    exact hfilter
  have hsplit : closeAnswers S R u = closeAnswers S [] u ++
      (R.filter (· = u)).map fun _ => .recvIn .closed none := by
    simp [closeAnswers]
  rw [hsplit, closeAnswers_of_not_mem hS List.not_mem_nil, hR]
  rfl

end SequentialChannel

section ResultsOf

variable {τ V : Type*} [DecidableEq τ]

theorem resultsOf_concat_self (results : List (τ × OpResult V)) (t : τ) (r : OpResult V) :
    resultsOf (results ++ [(t, r)]) t = resultsOf results t ++ [r] := by
  simp [resultsOf, List.filter_append]

theorem resultsOf_concat_of_ne (results : List (τ × OpResult V)) {t u : τ} (h : u ≠ t)
    (r : OpResult V) : resultsOf (results ++ [(t, r)]) u = resultsOf results u := by
  simp [resultsOf, List.filter_append, Ne.symm h]

end ResultsOf

end Orengine.Sync
