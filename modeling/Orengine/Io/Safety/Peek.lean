import Orengine.Io.Safety.Exact

/-!
# Peeking a whole buffer

`peek_exact` is the same loop as `recv_exact`, but a peek does not move the cursor: the buffer holds
in the end the prefixes of the stream that the operations have copied, one after the other
(`fill_peek`).  So it holds the first bytes of the stream if and only if each operation copies what
stands in the stream at its place anyway (`peek_holds_first_bytes_iff`).
-/

namespace Orengine.Io

variable {ε α : Type*}

/-- The buffer after some operations, each of which copies from the cursor on. -/
def fill (stream : List α) : ℕ → List α → List (Request × ℕ) → List α
  | _, buf, [] => buf
  | cursor, buf, (q, n) :: completed =>
    fill stream (cursor + q.advance n)
      (buf.take q.start ++ (stream.drop cursor).take n ++ buf.drop (q.start + n)) completed

/-- The operations that have succeeded have copied bytes that had arrived: when the operation `k`
was done, `arrived k` bytes of the stream. -/
def Run.Peeks (arrived : ℕ → ℕ) (r : Run ε) : Prop :=
  ∀ k q n, r.completed[k]? = some (q, n) → 0 < n ∧ n ≤ q.len.toNat ∧ n ≤ arrived k

/-- As long as the buffer is not full, each peek copies what stands in the stream at its place. -/
def CopiesInPlace (stream : List α) (len : ℕ) : ℕ → List (Except ε ℕ) → Prop
  | done, .ok n :: results =>
    done < len → stream.take n = (stream.drop done).take n ∧
      CopiesInPlace stream len (done + n) results
  | _, _ => True

/-- The methods that peek a whole buffer. -/
inductive PeekMethod where
  | peekExact (buf : FixedBuffer)
  | peekBytesExact (len : BitVec 64)
  | peekExactWithDeadline (buf : FixedBuffer) (deadline : ℕ)
  | peekBytesExactWithDeadline (len : BitVec 64) (deadline : ℕ)

namespace PeekMethod

/-- The method, for the results of the operations. -/
def run : PeekMethod → List (Except ε ℕ) → Run ε
  | .peekExact buf => Io.peekExact buf
  | .peekBytesExact len => Io.peekBytesExact len
  | .peekExactWithDeadline buf deadline => Io.peekExactWithDeadline buf deadline
  | .peekBytesExactWithDeadline len deadline => Io.peekBytesExactWithDeadline len deadline

def len : PeekMethod → ℕ
  | .peekExact buf => buf.lenU32.toNat
  | .peekBytesExact len => len.toNat
  | .peekExactWithDeadline buf _ => buf.lenU32.toNat
  | .peekBytesExactWithDeadline len _ => len.toNat

def deadline : PeekMethod → Option ℕ
  | .peekExact _ => none
  | .peekBytesExact _ => none
  | .peekExactWithDeadline _ deadline => some deadline
  | .peekBytesExactWithDeadline _ deadline => some deadline

theorem unfixed_run {m : PeekMethod} {results : List (Except ε ℕ)} (hfits : (m.run results).Fits) :
    (m.run results).unfixed =
      natLoop m.len (natRequest .peek none m.deadline m.len) 0 results := by
  cases m with
  | peekExact buf | peekExactWithDeadline buf => exact unfixed_exactBuffer buf (.inl hfits)
  | peekBytesExact len | peekBytesExactWithDeadline len =>
    exact unfixed_exactBytes len (.inl hfits)

end PeekMethod

/-! ### What the buffer holds -/

theorem fill_unfixed (stream : List α) (cursor : ℕ) (buf : List α)
    (completed : List (Request × ℕ)) :
    fill stream cursor buf (completed.map fun p => (p.1.unfixed, p.2)) =
      fill stream cursor buf completed := by
  induction completed generalizing cursor buf with
  | nil => rfl
  | cons p completed ih => exact ih _ _

/-- What some operations copy that do not move the cursor: prefixes of the stream. -/
def copies (stream : List α) (completed : List (Request × ℕ)) : List α :=
  (completed.map fun p => stream.take p.2).flatten

theorem copies_unfixed (stream : List α) (r : Run ε) :
    copies stream r.unfixed.completed = copies stream r.completed :=
  congrArg List.flatten List.map_map

/-- What is before the end of a copy and what is behind it. -/
theorem take_drop_copy {buf x : List α} {d n : ℕ} (hx : x.length = n) (hd : d + n ≤ buf.length) :
    (buf.take d ++ x ++ buf.drop (d + n)).length = buf.length ∧
      (buf.take d ++ x ++ buf.drop (d + n)).take (d + n) = buf.take d ++ x ∧
      ∀ k, (buf.take d ++ x ++ buf.drop (d + n)).drop (d + n + k) = buf.drop (d + n + k) := by
  have hlength : (buf.take d ++ x).length = d + n := by
    rw [List.length_append, List.length_take, hx]
    omega
  refine ⟨?_, List.take_left' hlength, fun k => ?_⟩
  · rw [List.length_append, hlength, List.length_drop]
    omega
  · rw [← List.drop_drop, List.drop_left' hlength, List.drop_drop]

/-- **What a loop of peeks leaves in the buffer**: behind what is done, one prefix of the stream
after the other. -/
theorem fill_natLoop {stream : List α} {len : ℕ} {request : ℕ → Request}
    (hstart : ∀ d, (request d).start = d) (hadvance : ∀ d n, (request d).advance n = 0) {done : ℕ}
    {results : List (Except ε ℕ)}
    (hstream : ∀ p ∈ (natLoop len request done results).completed, p.2 ≤ stream.length)
    {buf : List α} (hbuf : done + (natLoop len request done results).total ≤ buf.length) :
    fill stream 0 buf (natLoop len request done results).completed =
      buf.take done ++ copies stream (natLoop len request done results).completed ++
        buf.drop (done + (natLoop len request done results).total) := by
  have hnil (buf : List α) (done : ℕ) : buf = buf.take done ++ [] ++ buf.drop (done + 0) := by
    rw [List.append_nil, Nat.add_zero, List.take_append_drop]
  fun_induction natLoop len request done results generalizing buf with
  | case1 done => exact hnil buf done
  | case2 done => exact hnil buf done
  | case3 done results hlt n ih =>
    obtain ⟨hn, hrest⟩ := List.forall_mem_cons.mp hstream
    rw [Run.total_cons, ← Nat.add_assoc] at hbuf ⊢
    have hx : (stream.take n).length = n := List.length_take_of_le hn
    obtain ⟨hlength, htake, hdrop⟩ := take_drop_copy hx (Nat.le_trans (Nat.le_add_right ..) hbuf)
    show fill stream (0 + (request done).advance n) (buf.take (request done).start ++
      (stream.drop 0).take n ++ buf.drop ((request done).start + n)) _ = _
    rw [hadvance, hstart, List.drop_zero, ih hrest (hlength ▸ hbuf), htake, hdrop]
    simp only [copies, Run.cons, List.map_cons, List.flatten_cons, List.append_assoc]
  | case4 done => exact hnil buf done
  | case5 done => exact hnil buf done

/-- A copy stands at its place, and so does what comes behind. -/
theorem take_append_eq_iff {stream l : List α} {done n total : ℕ} (hn : n ≤ stream.length) :
    stream.take n ++ l = (stream.drop done).take (n + total) ↔
      stream.take n = (stream.drop done).take n ∧
        l = (stream.drop (done + n)).take total := by
  have hlength : (stream.take n).length = n := List.length_take_of_le hn
  rw [List.take_add, List.drop_drop]
  constructor
  · intro h
    -- The stream does not end before: what is copied is not longer than what is there.
    have hge : n ≤ ((stream.drop done).take n).length := by
      have hle := congrArg List.length h
      simp only [List.length_append, List.length_take, List.length_drop] at hle ⊢
      omega
    refine List.append_inj h ?_
    rw [hlength]
    exact Nat.le_antisymm hge (List.length_take_le ..)
  · rintro ⟨hn, rfl⟩
    rw [hn]

/-- The first peek fills the buffer, and there are no others. -/
theorem copiesInPlace_of_fills (stream : List α) (len : ℕ) (results : List (Except ε ℕ)) :
    CopiesInPlace stream len 0 (.ok len :: results) := by
  refine fun _ => ⟨by rw [List.drop_zero], ?_⟩
  rcases results with _ | ⟨n | e, results⟩
  · trivial
  · trivial
  · exact fun hlt => absurd hlt (by omega)

/-- **When the copies are the stream.** -/
theorem copies_natLoop_iff {stream : List α} {len : ℕ} {request : ℕ → Request} {done : ℕ}
    {results : List (Except ε ℕ)}
    (hstream : ∀ p ∈ (natLoop len request done results).completed, p.2 ≤ stream.length)
    (hok : (natLoop len request done results).ending = .ok) :
    copies stream (natLoop len request done results).completed =
        (stream.drop done).take (natLoop len request done results).total ↔
      CopiesInPlace stream len done results := by
  fun_induction natLoop len request done results with
  | case1 => cases hok
  | case2 done => exact iff_of_true rfl trivial
  | case3 done results hlt n ih =>
    obtain ⟨hn, hrest⟩ := List.forall_mem_cons.mp hstream
    rw [Run.total_cons]
    show stream.take n ++ copies stream _ = _ ↔ _
    rw [take_append_eq_iff hn, ih hrest hok, CopiesInPlace]
    exact ⟨fun h _ => h, fun h => h hlt⟩
  | case4 => cases hok
  | case5 done result results hge =>
    refine iff_of_true rfl ?_
    cases result with
    | ok n => exact fun hlt => absurd hlt hge
    | error e => trivial

namespace PeekMethod

variable {m : PeekMethod} {results : List (Except ε ℕ)} {arrived : ℕ → ℕ} {stream buf : List α}

theorem fits (h : (m.run results).Peeks arrived) : (m.run results).Fits := by
  intro p hp
  obtain ⟨k, hk⟩ := List.mem_iff_getElem?.mp hp
  exact (h k p.1 p.2 hk).2.1

theorem advance_eq_zero (h : (m.run results).Peeks arrived) {p : Request × ℕ}
    (hp : p ∈ (m.run results).completed) : p.1.advance p.2 = 0 := by
  have hmem : (p.1.unfixed, p.2) ∈ (m.run results).unfixed.completed := List.mem_map_of_mem hp
  rw [unfixed_run (fits h)] at hmem
  obtain ⟨d, hd⟩ := exists_request hmem
  show p.1.unfixed.advance p.2 = 0
  rw [show p.1.unfixed = _ from hd]
  rfl

theorem le_length (harrived : ∀ k, arrived k ≤ stream.length) (h : (m.run results).Peeks arrived)
    {p : Request × ℕ} (hp : p ∈ (m.run results).completed) : p.2 ≤ stream.length := by
  obtain ⟨k, hk⟩ := List.mem_iff_getElem?.mp hp
  exact Nat.le_trans (h k p.1 p.2 hk).2.2 (harrived k)

theorem le_length_unfixed (harrived : ∀ k, arrived k ≤ stream.length)
    (h : (m.run results).Peeks arrived) :
    ∀ p ∈ (m.run results).unfixed.completed, p.2 ≤ stream.length := by
  intro p hp
  obtain ⟨p', hp', rfl⟩ := List.mem_map.mp hp
  exact (le_length harrived h hp' : p'.2 ≤ stream.length)

theorem total_eq_of_ok (h : (m.run results).Peeks arrived) (hok : (m.run results).ending = .ok) :
    (m.run results).total = m.len := by
  have heq := unfixed_run (fits h)
  rw [← Run.total_unfixed, heq]
  apply (total_natLoop (heq ▸ Run.fits_unfixed.mpr (fits h))).2
  rw [← heq]
  exact congrArg Ending.unfixed hok

/-- **What the buffer holds after `Ok`**: the prefixes that the operations have copied. -/
theorem fill_peek (harrived : ∀ k, arrived k ≤ stream.length) (hbuf : buf.length = m.len)
    (h : (m.run results).Peeks arrived) (hok : (m.run results).ending = .ok) :
    fill stream 0 buf (m.run results).completed = copies stream (m.run results).completed := by
  have htotal : (m.run results).unfixed.total = buf.length := by
    rw [Run.total_unfixed, total_eq_of_ok h hok, hbuf]
  have hstream := le_length_unfixed harrived h
  rw [← fill_unfixed, ← copies_unfixed]
  rw [unfixed_run (fits h)] at htotal hstream
  show fill stream 0 buf (m.run results).unfixed.completed = _
  rw [unfixed_run (fits h), fill_natLoop (fun _ => rfl) (fun _ _ => rfl) hstream (by omega),
    htotal, Nat.zero_add, List.drop_length, List.append_nil, List.take_zero, List.nil_append]

/-- **When the buffer holds the first bytes.** Nothing is consumed in any case. -/
theorem peek_holds_first_bytes_iff (m : PeekMethod) (results : List (Except ε ℕ))
    (arrived : ℕ → ℕ) (stream buf : List α) (harrived : ∀ k, arrived k ≤ stream.length)
    (hbuf : buf.length = m.len) (h : (m.run results).Peeks arrived)
    (hok : (m.run results).ending = .ok) :
    (fill stream 0 buf (m.run results).completed = stream.take m.len ∧
        consumed (m.run results).completed = 0) ↔ CopiesInPlace stream m.len 0 results := by
  have hconsumed : consumed (m.run results).completed = 0 := by
    apply List.sum_eq_zero
    intro x hx
    obtain ⟨p, hp, rfl⟩ := List.mem_map.mp hx
    exact advance_eq_zero h hp
  have hrun := unfixed_run (fits h)
  have hiff := copies_natLoop_iff (hrun ▸ le_length_unfixed harrived h)
    (hrun ▸ congrArg Ending.unfixed hok)
  rw [← hrun, copies_unfixed, Run.total_unfixed, total_eq_of_ok h hok, List.drop_zero] at hiff
  rw [and_iff_left hconsumed, fill_peek harrived hbuf h hok, hiff]

/-- A peek of three bytes of a stream, all of which have arrived. -/
theorem peek_holds_first_bytes_iff_three :
    fill [1, 2, 3, 4] 0 [0, 0, 0]
        ((peekExact ⟨3, 0, true⟩).run [.ok 3] : Run Unit).completed = [1, 2, 3] ∧
      consumed ((peekExact ⟨3, 0, true⟩).run [.ok 3] : Run Unit).completed = 0 := by
  refine (peek_holds_first_bytes_iff (peekExact ⟨3, 0, true⟩) [.ok 3] (fun _ => 4) [1, 2, 3, 4]
    [0, 0, 0] (fun _ => Nat.le_refl 4) rfl ?_ rfl).mpr (copiesInPlace_of_fills _ 3 [])
  rintro (_ | k) q n hk
  · cases hk
    decide
  · cases hk

/-- **The first byte twice.** The two bytes of a stream arrive one after the other.  The second
operation copies the first byte again. -/
theorem peek_repeats_first_byte :
    ((peekBytesExact 2).run [.ok 1, .ok 1] : Run Unit).Peeks (fun k => min (k + 1) 2) ∧
      ((peekBytesExact 2).run [.ok 1, .ok 1] : Run Unit).ending = .ok ∧
      fill [1, 2] 0 [0, 0] ((peekBytesExact 2).run [.ok 1, .ok 1] : Run Unit).completed =
        [1, 1] := by
  refine ⟨?_, rfl, rfl⟩
  rintro (_ | _ | k) q n hk
  · cases hk
    decide
  · cases hk
    decide
  · cases hk

end PeekMethod

end Orengine.Io
