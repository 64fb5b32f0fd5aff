import Orengine.Runtime.Executor.Polling
import Orengine.Utils.Safety.ProgressiveTimeout

/-!
# Every timeout of `must_poll` is below one second

`END_DUR_MICROS` of an executor is its first duration times a power of two, so that its timeout
does not get longer than that (`le_end_of_pow`); shifted by two bits it is about half a second.
-/

namespace Orengine.Runtime

open Orengine.Lib

variable {p : ProgressiveTimeout}

/-- What a round does with the timeout: it is doubled or reset, and what is passed to `must_poll` is
at most the timeout that is shifted by two bits. -/
theorem waitForWork_spec (p : ProgressiveTimeout) (r : RoundEnd) :
    (∃ t, loopStep p r = some t ∧ (t = p.double ∨ t = .new)) ∧
      ∀ d, r.wait p = .mustPoll (some d) → d ≤ p.shifted 2 := by
  obtain ⟨worker, hasCpuWork, nearestTimeout⟩ := r
  unfold loopStep RoundEnd.wait waitForWork
  cases hasCpuWork with
  | true =>
    rcases worker with _ | _ | _
    · cases nearestTimeout <;> exact ⟨⟨_, rfl, .inr rfl⟩, by rintro d ⟨⟩⟩
    · exact ⟨⟨_, rfl, .inr rfl⟩, by rintro d ⟨⟩⟩
    · exact ⟨⟨_, rfl, .inr rfl⟩, by rintro d ⟨⟩⟩
  | false =>
    rcases worker with _ | _ | _
    · cases nearestTimeout with
      | none => exact ⟨⟨_, rfl, .inl rfl⟩, by rintro d ⟨⟩⟩
      | some nearest => exact ⟨⟨_, rfl, .inr rfl⟩, by rintro d ⟨⟩⟩
    · cases nearestTimeout <;> exact ⟨⟨_, rfl, .inl rfl⟩, by rintro d ⟨⟩⟩
    · refine ⟨?_, fun d hd => ?_⟩
      · cases nearestTimeout <;> exact ⟨_, rfl, .inl rfl⟩
      · cases nearestTimeout with
        | none =>
          cases hd
          exact le_rfl
        | some nearest =>
          cases hd
          exact min_le_right ..

theorem reachable_of_loopStep (overflowChecks : Bool) (h : Reachable loopStep .new p) :
    Reachable (Utils.ProgressiveTimeout.step overflowChecks) .new p := by
  refine h.invariant .start ?_
  intro p r t _ hp _ hstep
  obtain ⟨⟨t', ht, hcases⟩, -⟩ := waitForWork_spec p r
  obtain rfl : t' = t := Option.some.inj (ht.symm.trans hstep)
  rcases hcases with rfl | rfl
  · exact .next hp trivial (show p.step overflowChecks .timeout = _ from rfl)
  · exact .start

/-- **The timeouts of `must_poll`.** In every run of the loop no shift of the `u64` loses a bit,
each timeout that is passed to `must_poll` is below one second, and the kernel gets it as a valid
number of nanoseconds. -/
theorem must_poll_timeouts_valid (overflowChecks : Bool) (h : Reachable loopStep .new p)
    (r : RoundEnd) :
    (p.timeoutWithShift overflowChecks 2).2 =
      some (p.double.currentDurationMs.toNat * 4 * 1000) ∧
    ∀ d, r.wait p = .mustPoll (some d) →
      d < 1000000000 ∧ ∃ timespec : Io.IoUring.Timespec,
        Io.IoUring.lastSubmission (some d) = .submitWithArgs 1 timespec ∧
        timespec.sec = 0 ∧ timespec.nsec.toNat = d ∧ timespec.nsec.toNat < 1000000000 := by
  have hreach := reachable_of_loopStep overflowChecks h
  have hle : p.double.currentDurationMs.toNat ≤ 131072 :=
    Utils.ProgressiveTimeout.le_end_of_pow (k := 12) (by decide) (by decide)
      (hreach.next trivial (show p.step overflowChecks .timeout = _ from rfl))
  have hshift : p.shifted 2 = p.double.currentDurationMs.toNat * 4 * 1000 := by
    show (p.double.currentDurationMs <<< 2).toNat * 1000 = _
    rw [UInt64.toNat_shiftLeft, Nat.shiftLeft_eq]
    exact congrArg (· * 1000) (Nat.mod_eq_of_lt (by simp; omega))
  refine ⟨?_, fun d hd => ?_⟩
  · rw [← hshift, Utils.ProgressiveTimeout.timeoutWithShift, if_neg (by simp)]
  · have hlt : d < 1000000000 := by
      have hd := (waitForWork_spec p r).2 d hd
      omega
    have hsize : d < UInt32.size := hlt.trans (by decide)
    have hnsec : (UInt32.ofNat d).toNat = d := UInt32.toNat_ofNat_of_lt' hsize
    exact ⟨hlt, _, rfl, rfl, hnsec, hnsec.trans_lt hlt⟩

/-- After eleven idle rounds the timeout has its longest duration. -/
theorem must_poll_timeouts_valid_longest :
    ∃ p, Reachable loopStep .new p ∧
      RoundEnd.wait ⟨some true, false, none⟩ p = .mustPoll (some 524288000) ∧
      (UInt32.ofNat 524288000).toNat < 1000000000 := by
  obtain ⟨p, hexec, hpoll⟩ : ∃ p,
      exec loopStep .new (List.replicate 11 ⟨some true, false, none⟩) = some p ∧
      RoundEnd.wait ⟨some true, false, none⟩ p = .mustPoll (some 524288000) := ⟨_, rfl, rfl⟩
  have h := reachable_of_exec _ hexec
  obtain ⟨-, timespec, heq, -, -, hlt⟩ := (must_poll_timeouts_valid true h _).2 _ hpoll
  cases heq
  exact ⟨p, h, hpoll, hlt⟩

end Orengine.Runtime
