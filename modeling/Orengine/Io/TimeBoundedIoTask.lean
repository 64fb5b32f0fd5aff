import Orengine.Lib.SortedMap

/-!
# Requests with a deadline

A worker keeps the requests with a deadline in a `BTreeSet` of `TimeBoundedIoTask`s.  These are
compared by their deadlines alone: the set is a map from deadlines to requests, and a request whose
deadline is taken gets the next free nanosecond.  The future of the request remembers the deadline
that it has got, and removes *the entry with this deadline* when it is resumed, unless its result is
an error of the kind `TimedOut`.

Instants are numbers of nanoseconds.
-/

namespace Orengine.Io

open Orengine.Lib

/-- `std::io::ErrorKind`, as far as the code tells errors apart. -/
inductive ErrorKind where
  | timedOut
  | other
  deriving DecidableEq

/-- Whether `poll_for_time_bounded_io_request` calls `deregister_time_bounded_io_task` for a request
with this result. -/
def mustDeregister : Except ErrorKind ℕ → Bool
  | .ok _ => true
  | .error kind => kind != .timedOut

abbrev TimeBoundedIoTaskQueue (ι : Type*) := SortedMap ℕ ι

namespace TimeBoundedIoTaskQueue

variable {ι : Type*} {q : TimeBoundedIoTaskQueue ι} {d e now : ℕ} {i j : ι}

/-- The deadline that a new request gets: the loop adds a nanosecond as long as there is an entry
for the deadline. -/
def freeDeadline (q : TimeBoundedIoTaskQueue ι) (deadline : ℕ) : ℕ :=
  q.vacantFrom q.entries.length deadline

/-- `register_time_bounded_io_task` of the `io_uring` worker, `register_deadline` of the fallback
worker: the deadline that the request gets, and the queue with its entry. -/
def register (q : TimeBoundedIoTaskQueue ι) (i : ι) (deadline : ℕ) :
    ℕ × TimeBoundedIoTaskQueue ι :=
  (q.freeDeadline deadline, q.insert (q.freeDeadline deadline) i)

/-- What a future with a deadline does to the queue when it is resumed with a result. -/
def deregisterAfter (q : TimeBoundedIoTaskQueue ι) (ret : Except ErrorKind ℕ) :
    Option ℕ → TimeBoundedIoTaskQueue ι
  | none => q
  | some deadline => if mustDeregister ret then q.erase deadline else q

/-- The loop of `check_deadlines` of the `io_uring` worker, in some number of rounds: the entries
that it takes out, and those that it leaves. -/
def takeExpired (now : ℕ) : ℕ → TimeBoundedIoTaskQueue ι →
    List (ℕ × ι) × TimeBoundedIoTaskQueue ι
  | 0, q => ([], q)
  | n + 1, q =>
    match q.popFirst with
    | none => ([], q)
    | some ((deadline, i), rest) =>
      if deadline ≤ now then
        ((deadline, i) :: (takeExpired now n rest).1, (takeExpired now n rest).2)
      else ([], rest.insert deadline i)

theorem le_freeDeadline (q : TimeBoundedIoTaskQueue ι) (d : ℕ) : d ≤ q.freeDeadline d :=
  q.le_vacantFrom _ d

theorem freeDeadline_vacant (q : TimeBoundedIoTaskQueue ι) (d : ℕ) :
    q.contains (q.freeDeadline d) = false :=
  q.contains_vacantFrom d

theorem mem_register : (d, i) ∈ (q.register j e).2 ↔
    (d, i) = (q.freeDeadline e, j) ∨ (d, i) ∈ q :=
  SortedMap.mem_insert_of_vacant (q.freeDeadline_vacant e)

/-- The loop takes out the entries whose deadline has come, and leaves the others. -/
theorem mem_takeExpired {n : ℕ} (hn : q.entries.length ≤ n) :
    ((d, i) ∈ (takeExpired now n q).1 ↔ (d, i) ∈ q ∧ d ≤ now) ∧
      ((d, i) ∈ (takeExpired now n q).2 ↔ (d, i) ∈ q ∧ now < d) := by
  induction n generalizing q with
  | zero =>
    have hnil : q.entries = [] := List.length_eq_zero_iff.mp (Nat.le_zero.mp hn)
    simp [takeExpired, SortedMap.mem_def, hnil]
  | succ n ih =>
    rw [takeExpired]
    split
    case h_1 hpop =>
      have hnil : q.entries = [] := SortedMap.popFirst_eq_none.mp hpop
      simp [SortedMap.mem_def, hnil]
    case h_2 first j rest hpop =>
      have hentries : q.entries = (first, j) :: rest.entries := SortedMap.popFirst_eq_some.mp hpop
      have hmem : (d, i) ∈ q ↔ (d, i) = (first, j) ∨ (d, i) ∈ rest := SortedMap.mem_popFirst hpop
      split
      case isTrue hle =>
        have hlen : rest.entries.length ≤ n := by
          rw [hentries, List.length_cons] at hn
          exact Nat.le_of_succ_le_succ hn
        obtain ⟨hout, hleft⟩ := ih hlen
        rw [List.mem_cons, hout, hleft, hmem]
        constructor
        · constructor
          · rintro (heq | ⟨hrest, hd⟩)
            · obtain ⟨rfl, rfl⟩ := Prod.mk.inj heq
              exact ⟨.inl rfl, hle⟩
            · exact ⟨.inr hrest, hd⟩
          · rintro ⟨heq | hrest, hd⟩
            · exact .inl heq
            · exact .inr ⟨hrest, hd⟩
        · constructor
          · rintro ⟨hrest, hd⟩
            exact ⟨.inr hrest, hd⟩
          · rintro ⟨heq | hrest, hd⟩
            · obtain ⟨rfl, rfl⟩ := Prod.mk.inj heq
              omega
            · exact ⟨hrest, hd⟩
      case isFalse hgt =>
        -- The first entry is not due, so none is; it is inserted again.
        have hall : (d, i) ∈ q → now < d := by
          intro h
          rcases hmem.mp h with heq | hrest
          · obtain ⟨rfl, rfl⟩ := Prod.mk.inj heq
            exact Nat.lt_of_not_le hgt
          · have := SortedMap.lt_of_popFirst hpop hrest
            dsimp only at this
            omega
        have hback : rest.insert first j = q := SortedMap.insert_popFirst hpop
        rw [hback]
        constructor
        · constructor
          · intro h
            cases h
          · rintro ⟨h, hd⟩
            exact absurd (hall h) (Nat.not_lt.mpr hd)
        · exact ⟨fun h => ⟨h, hall h⟩, And.left⟩

/-- A deregistration takes out nothing but the entry with the deadline. -/
theorem mem_deregisterAfter {ret : Except ErrorKind ℕ} {deadline : Option ℕ} :
    (d, i) ∈ q.deregisterAfter ret deadline ↔
      (d, i) ∈ q ∧ ¬(deadline = some d ∧ mustDeregister ret = true) := by
  cases deadline with
  | none => simp [deregisterAfter]
  | some e =>
    rw [deregisterAfter]
    split
    case isTrue h =>
      rw [SortedMap.mem_erase]
      simp [h, eq_comm]
    case isFalse h => simp [h]

end TimeBoundedIoTaskQueue

end Orengine.Io
