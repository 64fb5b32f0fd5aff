import Mathlib.Algebra.Order.BigOperators.Group.List
import Mathlib.Data.List.Range
import Orengine.Io.Exact

/-!
# The loops transfer every byte once

`transfers_exactly` is about operations that transfer between one byte and as many as they were
asked for.  The proofs are about the loop over natural numbers, `natLoop`, which the loops over
`u32` and over `usize` agree with (`unfixed_exactLoop`).

A read at the end returns `Ok(0)`, and the loop goes on (`returns_error_iff`, `never_returns`).
-/

namespace Orengine.Io

variable {ε : Type*}

/-! ### The loop over natural numbers -/

/-- The loop, with numbers that do not overflow. -/
def natLoop (len : ℕ) (request : ℕ → Request) : ℕ → List (Except ε ℕ) → Run ε
  | done, [] => if done < len then ⟨[], .waits (request done)⟩ else ⟨[], .ok⟩
  | done, result :: results =>
    if done < len then
      match result with
      | .ok n => (natLoop len request (done + n) results).cons (request done) n
      | .error e => ⟨[], .error (request done) e⟩
    else ⟨[], .ok⟩

/-- The rest of a buffer, from `done` on. -/
def natRequest (operation : Operation) (offset : Option (BitVec 64)) (deadline : Option ℕ)
    (len done : ℕ) : Request where
  operation := operation
  fixedIndex := none
  start := done
  len := BitVec.ofNat 32 (len - done)
  offset := offset.map fun o => o + BitVec.ofNat 64 done
  deadline := deadline

/-- No operation has transferred more than it was asked for. -/
def Run.Fits (r : Run ε) : Prop := ∀ p ∈ r.completed, p.2 ≤ p.1.len.toNat

/-- The end, whether the buffer is fixed or not. -/
def Ending.unfixed : Ending ε → Ending ε
  | .ok => .ok
  | .error q e => .error q.unfixed e
  | .waits q => .waits q.unfixed

/-- The call, whether the buffer is fixed or not. -/
def Run.unfixed (r : Run ε) : Run ε :=
  ⟨r.completed.map fun p => (p.1.unfixed, p.2), r.ending.unfixed⟩

theorem Run.requests_unfixed (r : Run ε) : r.unfixed.requests = r.requests.map Request.unfixed := by
  obtain ⟨completed, ending⟩ := r
  cases ending <;> simp [Run.requests, Run.unfixed, Ending.unfixed, Ending.request?]

theorem Run.total_unfixed (r : Run ε) : r.unfixed.total = r.total := by
  simp [Run.total, Run.unfixed, Function.comp_def]

variable {r : Run ε} {results : List (Except ε ℕ)} {len rest : ℕ}

theorem Run.fits_unfixed : r.unfixed.Fits ↔ r.Fits := List.forall_mem_map

theorem transfers_unfixed (cursor : ℕ) (completed : List (Request × ℕ)) :
    transfers cursor (completed.map fun p => (p.1.unfixed, p.2)) = transfers cursor completed := by
  induction completed generalizing cursor with
  | nil => rfl
  | cons p completed ih =>
    simp only [List.map_cons, transfers]
    rw [ih]
    rfl

theorem Run.Fits.of_cons {q : Request} {n : ℕ} (h : (r.cons q n).Fits) : n ≤ q.len.toNat ∧ r.Fits :=
  List.forall_mem_cons.mp h

/-- **The loop over machine words agrees with that over numbers** as long as no operation transfers
more than it was asked for, in one of them. -/
theorem unfixed_exactLoop {w : ℕ} {len : BitVec w} {request : BitVec w → Request}
    {request' : ℕ → Request} (hrequest : ∀ d ≤ len, (request d).unfixed = request' d.toNat)
    (hlen : ∀ d ≤ len, (request d).len.toNat ≤ len.toNat - d.toNat) {done : BitVec w}
    (hdone : done ≤ len) (hfits : (exactLoop len request done results).Fits ∨ (natLoop len.toNat
    request' done.toNat results).Fits) :
    (exactLoop len request done results).unfixed =
      natLoop len.toNat request' done.toNat results := by
  induction results generalizing done with
  | nil =>
    unfold exactLoop natLoop
    simp only [BitVec.lt_def]
    split
    · rw [← hrequest done hdone]
      rfl
    · rfl
  | cons result results ih =>
    unfold exactLoop natLoop at hfits ⊢
    simp only [BitVec.lt_def] at hfits ⊢
    split
    case isFalse => rfl
    case isTrue hlt =>
      rw [if_pos hlt, if_pos hlt] at hfits
      cases result with
      | error e =>
        rw [← hrequest done hdone]
        rfl
      | ok n =>
        dsimp only at hfits ⊢
        have hn : n ≤ (request done).len.toNat := by
          rcases hfits with hfits | hfits
          · exact hfits.of_cons.1
          · have := hfits.of_cons.1
            rwa [← hrequest done hdone] at this
        -- The sum does not overflow: it is at most the length of the buffer.
        have hsum : done.toNat + n ≤ len.toNat := by
          have := hlen done hdone
          omega
        have hnext : (done + BitVec.ofNat w n).toNat = done.toNat + n := by
          rw [BitVec.toNat_add, BitVec.toNat_ofNat, Nat.add_mod_mod]
          exact Nat.mod_eq_of_lt (Nat.lt_of_le_of_lt hsum len.isLt)
        rw [← hnext] at hfits ⊢
        have hih := ih (BitVec.le_def.mpr (hnext ▸ hsum))
          (hfits.imp (fun h => h.of_cons.2) fun h => h.of_cons.2)
        rw [← hih, ← hrequest done hdone]
        rfl

section NatLoop

variable {operation : Operation} {offset : Option (BitVec 64)} {deadline : Option ℕ}
  {request : ℕ → Request} {done : ℕ}

/-- The request that a loop makes is that for the rest of the buffer. -/
theorem unfixed_bytesRequest {len done : BitVec 64} (hdone : done ≤ len) :
    (bytesRequest operation offset deadline len done).unfixed =
      natRequest operation offset deadline len.toNat done.toNat := by
  have hlen : (len - done).setWidth 32 = BitVec.ofNat 32 (len.toNat - done.toNat) := by
    rw [← BitVec.ofNat_toNat, BitVec.toNat_sub_of_le hdone]
  have hoffset : BitVec.ofNat 64 done.toNat = done := by
    rw [BitVec.ofNat_toNat, BitVec.setWidth_eq]
  simp only [bytesRequest, natRequest, Request.unfixed, hlen, hoffset]

theorem unfixed_fixedRequest (fixedIndex : BitVec 16) {len done : BitVec 32} (hdone : done ≤ len) :
    (fixedRequest operation offset deadline fixedIndex len done).unfixed =
      natRequest operation offset deadline len.toNat done.toNat := by
  have hlen : len - done = BitVec.ofNat 32 (len.toNat - done.toNat) := by
    rw [← BitVec.toNat_sub_of_le hdone, BitVec.ofNat_toNat, BitVec.setWidth_eq]
  simp only [fixedRequest, natRequest, Request.unfixed, hlen, BitVec.ofNat_toNat]

theorem unfixed_exactBytes (len : BitVec 64)
    (hfits : (exactBytes operation offset deadline len results).Fits ∨
      (natLoop len.toNat (natRequest operation offset deadline len.toNat) 0 results).Fits) :
    (exactBytes operation offset deadline len results).unfixed =
      natLoop len.toNat (natRequest operation offset deadline len.toNat) 0 results := by
  refine unfixed_exactLoop (fun d hd => unfixed_bytesRequest hd) ?_ (BitVec.le_def.mpr (by simp))
    hfits
  intro d hd
  -- The cast to `u32` can only make it shorter.
  rw [← BitVec.toNat_sub_of_le hd]
  exact Nat.le_trans (Nat.le_of_eq (BitVec.toNat_setWidth ..)) (Nat.mod_le ..)

theorem unfixed_exactBuffer (buf : FixedBuffer)
    (hfits : (exactBuffer operation offset deadline buf results).Fits ∨
      (natLoop buf.lenU32.toNat (natRequest operation offset deadline buf.lenU32.toNat) 0
        results).Fits) :
    (exactBuffer operation offset deadline buf results).unfixed =
      natLoop buf.lenU32.toNat (natRequest operation offset deadline buf.lenU32.toNat) 0
        results := by
  unfold exactBuffer at hfits ⊢
  split at hfits
  case isTrue hfixed =>
    rw [if_pos hfixed]
    refine unfixed_exactLoop (fun d hd => unfixed_fixedRequest buf.fixedIndex hd) ?_
      (BitVec.le_def.mpr (by simp)) hfits
    intro d hd
    exact Nat.le_of_eq (BitVec.toNat_sub_of_le hd)
  case isFalse hfixed =>
    have hlen : buf.lenBytes.toNat = buf.lenU32.toNat := by
      unfold FixedBuffer.lenBytes
      rw [BitVec.toNat_setWidth]
      exact Nat.mod_eq_of_lt (Nat.lt_trans buf.lenU32.isLt (by decide))
    rw [if_neg hfixed]
    rw [← hlen] at hfits ⊢
    exact unfixed_exactBytes buf.lenBytes hfits

/-! ### What the loop does -/

theorem Run.total_cons (q : Request) (n : ℕ) (r : Run ε) : (r.cons q n).total = n + r.total :=
  List.sum_cons

theorem le_total_of_ok (h : (natLoop len request done results).ending = .ok) :
    len ≤ done + (natLoop len request done results).total := by
  fun_induction natLoop len request done results with
  | case1 => cases h
  | case2 done hge => exact Nat.le_trans (Nat.le_of_not_lt hge) (Nat.le_add_right ..)
  | case3 done results hlt n ih =>
    rw [Run.total_cons, ← Nat.add_assoc]
    exact ih h
  | case4 => cases h
  | case5 done result results hge =>
    exact Nat.le_trans (Nat.le_of_not_lt hge) (Nat.le_add_right ..)

theorem exists_request {p : Request × ℕ} (h : p ∈ (natLoop len request done results).completed) :
    ∃ d, p.1 = request d := by
  fun_induction natLoop len request done results with
  | case1 => cases h
  | case2 => cases h
  | case3 done results hlt n ih =>
    rcases List.mem_cons.mp h with rfl | hmem
    · exact ⟨done, rfl⟩
    · exact ih hmem
  | case4 => cases h
  | case5 => cases h

/-- If no operation goes beyond a bound, neither does the loop. -/
theorem add_total_le {bound : ℕ} (hstart : ∀ d, (request d).start = d) (hdone : done ≤ bound)
    (h : ∀ p ∈ (natLoop len request done results).completed, p.2 ≤ bound - p.1.start) :
    done + (natLoop len request done results).total ≤ bound := by
  fun_induction natLoop len request done results with
  | case1 => exact hdone
  | case2 => exact hdone
  | case3 done results hlt n ih =>
    obtain ⟨hn, hrest⟩ := List.forall_mem_cons.mp h
    rw [hstart] at hn
    rw [Run.total_cons, ← Nat.add_assoc]
    exact ih (by omega) hrest
  | case4 => exact hdone
  | case5 => exact hdone

theorem results_eq (len : ℕ) (request : ℕ → Request) (done : ℕ) (results : List (Except ε ℕ)) :
    ∃ rest, results =
        (natLoop len request done results).completed.map (fun p => .ok p.2) ++ rest ∧
      (∀ q, (natLoop len request done results).ending = .waits q →
        rest = [] ∧ done + (natLoop len request done results).total < len) ∧
      ∀ q e, (natLoop len request done results).ending = .error q e →
        ∃ later, rest = .error e :: later := by
  fun_induction natLoop len request done results with
  | case1 done hlt => exact ⟨[], rfl, fun _ _ => ⟨rfl, hlt⟩, nofun⟩
  | case2 => exact ⟨[], rfl, nofun, nofun⟩
  | case3 done results hlt n ih =>
    obtain ⟨rest, hresults, hwaits, herror⟩ := ih
    refine ⟨rest, congrArg (.ok n :: ·) hresults, fun q hq => ?_, herror⟩
    rw [Run.total_cons, ← Nat.add_assoc]
    exact hwaits q hq
  | case4 done results hlt e =>
    refine ⟨.error e :: results, rfl, nofun, fun q e' h => ?_⟩
    cases h
    exact ⟨results, rfl⟩
  | case5 done result results => exact ⟨_, rfl, nofun, nofun⟩

/-- If the operations find the cursor where the loop is, the bytes are transferred in order, each
once, between the same places of the buffer and of the stream or the file. -/
theorem transfers_natLoop {cursor : ℕ → ℕ} {place : ℕ → Position}
    (hstart : ∀ d, (request d).start = d)
    (hplace : ∀ d k, (request d).position (cursor d) k = place (d + k))
    (hcursor : ∀ d n, cursor d + (request d).advance n = cursor (d + n)) :
    transfers (cursor done) (natLoop len request done results).completed =
      (List.range (natLoop len request done results).total).map fun i =>
        (done + i, place (done + i)) := by
  fun_induction natLoop len request done results with
  | case1 => rfl
  | case2 => rfl
  | case3 done results hlt n ih =>
    have hfirst : (List.range n).map (fun k =>
        ((request done).start + k, (request done).position (cursor done) k)) =
        (List.range n).map fun k => (done + k, place (done + k)) := by
      simp only [hstart, hplace]
    rw [Run.total_cons, List.range_add, List.map_append, List.map_map]
    show _ ++ transfers (cursor done + _) _ = _
    rw [hcursor, ih, hfirst]
    simp only [Function.comp_def, Nat.add_assoc]
  | case4 => rfl
  | case5 => rfl

/-- The loop does not go beyond the buffer, and ends with `Ok` when it is done. -/
theorem total_natLoop
    (hfits : (natLoop len (natRequest operation offset deadline len) 0 results).Fits) :
    (natLoop len (natRequest operation offset deadline len) 0 results).total ≤ len ∧
      ((natLoop len (natRequest operation offset deadline len) 0 results).ending = .ok →
        (natLoop len (natRequest operation offset deadline len) 0 results).total = len) := by
  have hle :
      0 + (natLoop len (natRequest operation offset deadline len) 0 results).total ≤ len := by
    refine add_total_le (fun _ => rfl) (Nat.zero_le len) fun p hp => ?_
    obtain ⟨d, hd⟩ := exists_request hp
    calc p.2
        ≤ p.1.len.toNat := hfits p hp
      _ = (BitVec.ofNat 32 (len - d)).toNat := by rw [hd]; rfl
      _ ≤ len - d := by rw [BitVec.toNat_ofNat]; exact Nat.mod_le ..
      _ = len - p.1.start := by rw [hd]; rfl
  rw [Nat.zero_add] at hle
  refine ⟨hle, fun hok => ?_⟩
  have hge := le_total_of_ok hok
  rw [Nat.zero_add] at hge
  exact Nat.le_antisymm hle hge

end NatLoop

/-! ### The methods -/

/-- The methods that transfer a whole buffer and move the cursor, or do not need it. -/
inductive Method where
  | readExact
  | preadExact (offset : BitVec 64)
  | writeAll
  | pwriteAll (offset : BitVec 64)
  | recvExact
  | sendAll

namespace Method

def run : Method → FixedBuffer → List (Except ε ℕ) → Run ε
  | .readExact, buf => Io.readExact buf
  | .preadExact offset, buf => Io.preadExact buf offset
  | .writeAll, buf => Io.writeAll buf
  | .pwriteAll offset, buf => Io.pwriteAll buf offset
  | .recvExact, buf => Io.recvExact buf
  | .sendAll, buf => Io.sendAll buf

/-- The method for a slice of bytes. -/
def runBytes : Method → BitVec 64 → List (Except ε ℕ) → Run ε
  | .readExact, len => readBytesExact len
  | .preadExact offset, len => preadBytesExact len offset
  | .writeAll, len => writeAllBytes len
  | .pwriteAll offset, len => pwriteAllBytes len offset
  | .recvExact, len => recvBytesExact len
  | .sendAll, len => sendAllBytes len

def operation : Method → Operation
  | .readExact => .read
  | .preadExact _ => .pread
  | .writeAll => .write
  | .pwriteAll _ => .pwrite
  | .recvExact => .recv
  | .sendAll => .send

/-- Where in the file the method begins, if not at the cursor. -/
def offset : Method → Option (BitVec 64)
  | .preadExact offset => some offset
  | .pwriteAll offset => some offset
  | _ => none

def position (m : Method) (i : ℕ) : Position :=
  match m.offset with
  | none => .stream i
  | some o => .file (o + BitVec.ofNat 64 i)

/-- How far the cursor has moved when `done` bytes are done. -/
def cursor (m : Method) (done : ℕ) : ℕ :=
  match m.offset with
  | none => done
  | some _ => 0

/-- The method for a buffer of some length, with numbers that do not overflow. -/
def natRun (m : Method) (len : ℕ) (results : List (Except ε ℕ)) : Run ε :=
  natLoop len (natRequest m.operation m.offset none len) 0 results

theorem run_eq (m : Method) (buf : FixedBuffer) (results : List (Except ε ℕ)) :
    m.run buf results = exactBuffer m.operation m.offset none buf results := by
  cases m <;> rfl

theorem runBytes_eq (m : Method) (len : BitVec 64) (results : List (Except ε ℕ)) :
    m.runBytes len results = exactBytes m.operation m.offset none len results := by
  cases m <;> rfl

theorem unfixed_run {m : Method} {buf : FixedBuffer} {results : List (Except ε ℕ)}
    (hfits : (m.run buf results).Fits ∨ (m.natRun buf.lenU32.toNat results).Fits) :
    (m.run buf results).unfixed = m.natRun buf.lenU32.toNat results := by
  rw [run_eq] at hfits ⊢
  exact unfixed_exactBuffer buf hfits

theorem unfixed_runBytes {m : Method} {len : BitVec 64} {results : List (Except ε ℕ)}
    (hfits : (m.runBytes len results).Fits ∨ (m.natRun len.toNat results).Fits) :
    (m.runBytes len results).unfixed = m.natRun len.toNat results := by
  rw [runBytes_eq] at hfits ⊢
  exact unfixed_exactBytes len hfits

theorem cursor_zero (m : Method) : m.cursor 0 = 0 := by
  cases m <;> rfl

theorem position_natRequest (m : Method) (len d k : ℕ) :
    (natRequest m.operation m.offset none len d).position (m.cursor d) k = m.position (d + k) := by
  cases m with
  | preadExact o | pwriteAll o =>
    show Position.file (o + BitVec.ofNat 64 d + BitVec.ofNat 64 k) = .file _
    rw [BitVec.add_assoc, ← BitVec.ofNat_add]
  | _ => rfl

theorem advance_natRequest (m : Method) (len d n : ℕ) :
    m.cursor d + (natRequest m.operation m.offset none len d).advance n = m.cursor (d + n) := by
  cases m <;> rfl

end Method

/-- Each operation that has succeeded has transferred something, and not more than it was asked
for. -/
def Run.Valid (r : Run ε) : Prop := ∀ p ∈ r.completed, 0 < p.2 ∧ p.2 ≤ p.1.len.toNat

theorem Run.Valid.fits (h : r.Valid) : r.Fits := fun p hp => (h p hp).2

theorem Run.Valid.length_le (h : r.Valid) : r.completed.length ≤ r.total := by
  have hone : ∀ n ∈ r.completed.map Prod.snd, 1 ≤ n := by
    intro n hn
    obtain ⟨p, hp, rfl⟩ := List.mem_map.mp hn
    exact (h p hp).1
  calc r.completed.length
      = (r.completed.map Prod.snd).length := (List.length_map ..).symm
    _ ≤ r.total := List.length_le_sum_of_one_le _ hone

/-- What a call has done that is given some results, for a buffer of some length. -/
structure Transferred (len : ℕ) (position : ℕ → Position) (results : List (Except ε ℕ))
    (r : Run ε) : Prop where
  /-- The first bytes of the buffer were transferred, each once and at its place. -/
  bytes : transfers 0 r.completed = (List.range r.total).map fun i => (i, position i)
  /-- `Ok` is for the whole buffer. -/
  ok : r.ending = .ok → r.total = len
  /-- The first error ends the call, after what the results before it have transferred. -/
  error (q : Request) (e : ε) : r.ending = .error q e →
    ∃ later, results = r.completed.map (fun p => .ok p.2) ++ .error e :: later
  /-- The call waits only after all results, for a part of the buffer that is not done. -/
  waits (q : Request) : r.ending = .waits q →
    results = r.completed.map (fun p => .ok p.2) ∧ r.total < len
  /-- The call has ended after as many results as the buffer has bytes. -/
  ends (q : Request) : len ≤ results.length → r.ending ≠ .waits q

theorem transfers_natRun (m : Method) (len : ℕ) (results : List (Except ε ℕ)) :
    transfers 0 (m.natRun len results).completed =
      (List.range (m.natRun len results).total).map fun i => (i, m.position i) := by
  have hbytes : transfers (m.cursor 0) (m.natRun len results).completed =
      (List.range (m.natRun len results).total).map fun i => (0 + i, m.position (0 + i)) :=
    transfers_natLoop (fun _ => rfl) (m.position_natRequest len) (m.advance_natRequest len)
  simpa only [m.cursor_zero, Nat.zero_add] using hbytes

theorem transferred_natRun (m : Method) (hvalid : (m.natRun len results).Valid) :
    Transferred len m.position results (m.natRun len results) := by
  obtain ⟨rest, hresults, hwaits, herror⟩ :=
    results_eq len (natRequest m.operation m.offset none len) 0 results
  have hall : ∀ q, (m.natRun len results).ending = .waits q →
      results = (m.natRun len results).completed.map (fun p => .ok p.2) ∧
        (m.natRun len results).total < len := by
    intro q hq
    obtain ⟨hrest, hlt⟩ := hwaits q hq
    rw [hrest, List.append_nil] at hresults
    rw [Nat.zero_add] at hlt
    exact ⟨hresults, hlt⟩
  constructor
  case bytes => exact transfers_natRun m len results
  case ok => exact (total_natLoop hvalid.fits).2
  case error =>
    intro q e hq
    obtain ⟨later, hlater⟩ := herror q e hq
    exact ⟨later, hlater ▸ hresults⟩
  case waits => exact hall
  case ends =>
    intro q hlen hq
    obtain ⟨hresults, hlt⟩ := hall q hq
    have hlength := congrArg List.length hresults
    rw [List.length_map] at hlength
    have := hvalid.length_le
    omega

/-- It makes no difference for what a call has done whether the buffer is fixed. -/
theorem Transferred.of_unfixed {position : ℕ → Position}
    (h : Transferred len position results r.unfixed) : Transferred len position results r := by
  have hoks : r.unfixed.completed.map (fun p => (.ok p.2 : Except ε ℕ)) =
      r.completed.map fun p => .ok p.2 := List.map_map
  constructor
  case bytes =>
    rw [← transfers_unfixed, ← r.total_unfixed]
    exact h.bytes
  case ok =>
    intro hok
    rw [← r.total_unfixed]
    exact h.ok (congrArg Ending.unfixed hok)
  case error =>
    intro q e hq
    rw [← hoks]
    exact h.error q.unfixed e (congrArg Ending.unfixed hq)
  case waits =>
    intro q hq
    rw [← hoks, ← r.total_unfixed]
    exact h.waits q.unfixed (congrArg Ending.unfixed hq)
  case ends =>
    intro q hlen hq
    exact h.ends q.unfixed hlen (congrArg Ending.unfixed hq)

theorem Run.valid_unfixed : r.unfixed.Valid ↔ r.Valid := List.forall_mem_map

/-- **The methods transfer every byte once.** If each operation that succeeds transfers between one
byte and as many as it was asked for, then they transfer the bytes of a buffer in order, each once
and at its place; and they start the same operations for a fixed buffer as for another one. -/
theorem transfers_exactly (m : Method) (results : List (Except ε ℕ)) :
    (∀ buf : FixedBuffer, (m.run buf results).Valid →
      Transferred buf.lenU32.toNat m.position results (m.run buf results)) ∧
    (∀ len : BitVec 64, (m.runBytes len results).Valid →
      Transferred len.toNat m.position results (m.runBytes len results)) ∧
    ∀ buf buf' : FixedBuffer, buf.lenU32 = buf'.lenU32 → (m.run buf results).Valid →
      (m.run buf results).requests.map Request.unfixed =
        (m.run buf' results).requests.map Request.unfixed := by
  refine ⟨fun buf hvalid => ?_, fun len hvalid => ?_, fun buf buf' hlen hvalid => ?_⟩
  · have heq := Method.unfixed_run (.inl hvalid.fits)
    apply Transferred.of_unfixed
    rw [heq]
    exact transferred_natRun m (heq ▸ Run.valid_unfixed.mpr hvalid)
  · have heq := Method.unfixed_runBytes (.inl hvalid.fits)
    apply Transferred.of_unfixed
    rw [heq]
    exact transferred_natRun m (heq ▸ Run.valid_unfixed.mpr hvalid)
  · have heq := Method.unfixed_run (.inl hvalid.fits)
    have hfits : (m.natRun buf'.lenU32.toNat results).Fits := by
      rw [← hlen, ← heq]
      exact Run.fits_unfixed.mpr hvalid.fits
    have heq' := Method.unfixed_run (.inr hfits)
    rw [← Run.requests_unfixed, ← Run.requests_unfixed, heq, heq', hlen]

/-- Five bytes at offset 512 are read in two operations, into a fixed buffer and into another one,
and an error comes after two of them. -/
theorem transfers_exactly_two_reads :
    Transferred 5 (Method.preadExact 512).position [.ok 2, .ok 3]
        ((Method.preadExact 512).run ⟨5, 0, true⟩ [.ok 2, .ok 3] : Run Unit) ∧
      Transferred 5 (Method.preadExact 512).position [.ok 2, .error ()]
        ((Method.preadExact 512).runBytes 5 [.ok 2, .error ()] : Run Unit) ∧
      ((Method.preadExact 512).run ⟨5, 0, true⟩ [.ok 2, .ok 3] : Run Unit).requests.map
          Request.unfixed =
        ((Method.preadExact 512).run ⟨5, 0, false⟩ [.ok 2, .ok 3] : Run Unit).requests.map
          Request.unfixed :=
  ⟨(transfers_exactly _ _).1 ⟨5, 0, true⟩ (by unfold Run.Valid; decide),
    (transfers_exactly _ _).2.1 5 (by unfold Run.Valid; decide),
    (transfers_exactly _ _).2.2 _ _ rfl (by unfold Run.Valid; decide)⟩

/-! ### Reading to the end -/

/-- The first results of a sequence. -/
def firsts (results : ℕ → Except ε ℕ) (k : ℕ) : List (Except ε ℕ) := (List.range k).map results

/-- The operations that have succeeded have read from a content of which there are `rest` bytes
where the call begins: at most those that are left, and nothing only at the end. -/
def Run.ReadsFrom (rest : ℕ) (r : Run ε) : Prop :=
  ∀ p ∈ r.completed, p.2 ≤ p.1.len.toNat ∧ p.2 ≤ rest - p.1.start ∧
    (p.2 = 0 ↔ p.1.len.toNat = 0 ∨ rest ≤ p.1.start)

theorem Run.readsFrom_unfixed : r.unfixed.ReadsFrom rest ↔ r.ReadsFrom rest := List.forall_mem_map

theorem Run.ReadsFrom.fits (h : r.ReadsFrom rest) : r.Fits :=
  fun p hp => (h p hp).1

/-- A call that reads from less than the buffer does not return `Ok`, and it returns an error if it
is given one. -/
theorem natRun_short (m : Method) (hshort : rest < len)
    (hreads : (m.natRun len results).ReadsFrom rest) :
    (m.natRun len results).ending ≠ .ok ∧
      ((∃ q e, (m.natRun len results).ending = .error q e) ↔ ∃ e, .error e ∈ results) := by
  have htotal : 0 + (m.natRun len results).total ≤ rest :=
    add_total_le (fun _ => rfl) (Nat.zero_le rest) fun p hp => (hreads p hp).2.1
  have hnot : (m.natRun len results).ending ≠ .ok := by
    intro hok
    have hge : len ≤ 0 + (m.natRun len results).total := le_total_of_ok hok
    omega
  obtain ⟨later, hresults, hwaits, herror⟩ :=
    results_eq len (natRequest m.operation m.offset none len) 0 results
  refine ⟨hnot, ?_, ?_⟩
  · rintro ⟨q, e, hq⟩
    obtain ⟨_, hlater⟩ := herror q e hq
    rw [hresults, hlater]
    exact ⟨e, List.mem_append_right _ List.mem_cons_self⟩
  · rintro ⟨e, he⟩
    cases hend : (m.natRun len results).ending with
    | ok => exact absurd hend hnot
    | error q e' => exact ⟨q, e', rfl⟩
    | waits q =>
      -- Otherwise all the results are numbers of bytes.
      obtain ⟨hnil, -⟩ := hwaits q hend
      rw [hresults, hnil, List.append_nil] at he
      obtain ⟨p, -, hp⟩ := List.mem_map.mp he
      cases hp

/-- A call that does not return `Ok`, and that returns an error after finitely many operations if
and only if one of them fails. -/
structure EndsIffError (run : List (Except ε ℕ) → Run ε) (results : ℕ → Except ε ℕ) : Prop where
  notOk (k : ℕ) : (run (firsts results k)).ending ≠ .ok
  error_iff : (∃ k q e, (run (firsts results k)).ending = .error q e) ↔ ∃ k e, results k = .error e

theorem endsIffError_of_unfixed (m : Method) (hshort : rest < len)
    {run : List (Except ε ℕ) → Run ε} {results : ℕ → Except ε ℕ}
    (hreads : ∀ k, (run (firsts results k)).ReadsFrom rest)
    (heq : ∀ k, (run (firsts results k)).unfixed = m.natRun len (firsts results k)) :
    EndsIffError run results := by
  have hnat (k : ℕ) := natRun_short m hshort (heq k ▸ Run.readsFrom_unfixed.mpr (hreads k))
  constructor
  case notOk =>
    intro k hok
    exact (hnat k).1 (heq k ▸ congrArg Ending.unfixed hok)
  case error_iff =>
    constructor
    · rintro ⟨k, q, e, hq⟩
      obtain ⟨e', he'⟩ := (hnat k).2.mp ⟨q.unfixed, e, heq k ▸ congrArg Ending.unfixed hq⟩
      obtain ⟨j, -, hj⟩ := List.mem_map.mp he'
      exact ⟨j, e', hj⟩
    · rintro ⟨k, e, he⟩
      have hmem : .error e ∈ firsts results (k + 1) :=
        List.mem_map.mpr ⟨k, List.mem_range.mpr (Nat.lt_succ_self k), he⟩
      obtain ⟨q, e', hend⟩ := (hnat (k + 1)).2.mpr ⟨e, hmem⟩
      rw [← heq (k + 1)] at hend
      cases hrun : (run (firsts results (k + 1))).ending with
      | ok | waits => rw [Run.unfixed, hrun] at hend; cases hend
      | error q' e'' => exact ⟨k + 1, q', e'', hrun⟩

/-- **A read beyond the end** never returns `Ok`, and it returns an error if and only if an
operation fails: the end alone does not end it. -/
theorem returns_error_iff (m : Method) (rest : ℕ) (results : ℕ → Except ε ℕ) :
    (∀ buf : FixedBuffer, rest < buf.lenU32.toNat →
      (∀ k, (m.run buf (firsts results k)).ReadsFrom rest) → EndsIffError (m.run buf) results) ∧
    ∀ len : BitVec 64, rest < len.toNat →
      (∀ k, (m.runBytes len (firsts results k)).ReadsFrom rest) →
        EndsIffError (m.runBytes len) results := by
  constructor
  · intro buf hshort hreads
    exact endsIffError_of_unfixed m hshort hreads fun k =>
      Method.unfixed_run (.inl (hreads k).fits)
  · intro len hshort hreads
    exact endsIffError_of_unfixed m hshort hreads fun k =>
      Method.unfixed_runBytes (.inl (hreads k).fits)

/-- One byte of two is received, and then an operation fails. -/
theorem returns_error_iff_failed_read :
    EndsIffError (Method.recvExact.run ⟨2, 0, true⟩)
      (fun k => if k = 0 then .ok 1 else .error () : ℕ → Except Unit ℕ) := by
  refine (returns_error_iff _ 1 _).1 ⟨2, 0, true⟩ (by decide) fun k => ?_
  have hcompleted : (Method.recvExact.run ⟨2, 0, true⟩
      (firsts (fun k => if k = 0 then .ok 1 else .error () : ℕ → Except Unit ℕ) k)).completed =
      if k = 0 then [] else [(fixedRequest .recv none none 0 2 0, 1)] := by
    rcases k with _ | _ | k
    · rfl
    · rfl
    · rw [firsts, List.range_succ_eq_map, List.range_succ_eq_map]
      rfl
  unfold Run.ReadsFrom
  rw [hcompleted]
  split <;> decide

/-- Reads of nothing leave the loop where it is. -/
theorem exactLoop_replicate {w : ℕ} {len done : BitVec w} (request : BitVec w → Request)
    (hlt : done < len) (k : ℕ) :
    exactLoop len request done (List.replicate k (.ok 0 : Except ε ℕ)) =
      ⟨List.replicate k (request done, 0), .waits (request done)⟩ := by
  induction k with
  | zero =>
    rw [List.replicate_zero, exactLoop, if_pos hlt]
    rfl
  | succ k ih =>
    have hnext : done + BitVec.ofNat w 0 = done := BitVec.add_zero done
    rw [List.replicate_succ, exactLoop, if_pos hlt, hnext, ih]
    rfl

/-- **A call that does not return.** `read_exact` reads one byte from an empty file; each operation
is at the end and returns 0. -/
theorem never_returns :
    ∃ results : ℕ → Except Unit ℕ,
      (∀ k, (readExact ⟨1, 0, true⟩ (firsts results k)).ReadsFrom 0) ∧
      ∀ k, ∃ q, (readExact ⟨1, 0, true⟩ (firsts results k)).ending = .waits q := by
  have hrun : ∀ k, readExact ⟨1, 0, true⟩ (firsts (fun _ => (.ok 0 : Except Unit ℕ)) k) =
      ⟨List.replicate k (fixedRequest .read none none 0 1 0, 0),
        .waits (fixedRequest .read none none 0 1 0)⟩ := by
    intro k
    have hfirsts : firsts (fun _ => (.ok 0 : Except Unit ℕ)) k = List.replicate k (.ok 0) := by
      rw [firsts, List.map_const', List.length_range]
    rw [hfirsts]
    exact exactLoop_replicate _ (by decide) k
  refine ⟨fun _ => .ok 0, fun k p hp => ?_, fun k => ⟨_, by rw [hrun]⟩⟩
  rw [hrun] at hp
  obtain rfl := List.eq_of_mem_replicate hp
  decide

end Orengine.Io
