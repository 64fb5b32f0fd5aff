import Mathlib.Algebra.Order.Ring.Nat
import Mathlib.Data.Nat.Find
import Orengine.Lib.Reach
import Orengine.Utils.ProgressiveTimeout

/-!
# How long a `ProgressiveTimeout` gets

The duration is doubled while it is less than `END_DUR_MICROS`, and not compared with it afterwards.
So after any calls it is the first duration times a power of two, and every smaller power gave less
than `END_DUR_MICROS` (`exists_pow_of_reachable`); and as many timeouts in a row bring it there
(`reachable_pow`).  `timeout_le_end_iff` says when it does not exceed `END_DUR_MICROS`.
-/

namespace Orengine.Utils.ProgressiveTimeout

open Orengine.Lib

variable {startDur endDur : UInt64} {overflowChecks : Bool}
  {p : ProgressiveTimeout startDur endDur}

/-- The duration before the first call, in microseconds. -/
def firstDuration (startDur : UInt64) : ℕ := max (startDur.toNat / 2) 1

theorem toNat_new :
    (new : ProgressiveTimeout startDur endDur).currentDurationMs.toNat =
      firstDuration startDur := by
  have hhalf : (startDur >>> 1).toNat = startDur.toNat / 2 := by
    simp [UInt64.toNat_shiftRight, Nat.shiftRight_eq_div_pow]
  rw [firstDuration, ← hhalf]
  show (if startDur >>> 1 ≤ 1 then 1 else startDur >>> 1 : UInt64).toNat = _
  split
  case isTrue h => exact (max_eq_right (UInt64.le_iff_toNat_le.mp h)).symm
  case isFalse h =>
    have hlt : 1 < (startDur >>> 1).toNat := UInt64.lt_iff_toNat_lt.mp (UInt64.not_le.mp h)
    exact (max_eq_left hlt.le).symm

theorem one_le_firstDuration (startDur : UInt64) : 1 ≤ firstDuration startDur :=
  le_max_right _ _

/-- The doubling does not overflow. -/
theorem toNat_double (h : endDur.toNat < 2 ^ 62) :
    p.double.currentDurationMs.toNat =
      if p.currentDurationMs.toNat < endDur.toNat then p.currentDurationMs.toNat * 2
      else p.currentDurationMs.toNat := by
  unfold double
  by_cases hlt : p.currentDurationMs < endDur
  · have hnat : p.currentDurationMs.toNat < endDur.toNat := UInt64.lt_iff_toNat_lt.mp hlt
    rw [if_pos hlt, if_pos hnat, UInt64.toNat_shiftLeft, Nat.shiftLeft_eq]
    exact Nat.mod_eq_of_lt (by simp; omega)
  · rw [if_neg hlt, if_neg (mt UInt64.lt_iff_toNat_lt.mpr hlt)]

theorem step_cases {call : Call} {t : ProgressiveTimeout startDur endDur}
    (h : p.step overflowChecks call = some t) : t = p.double ∨ t = new := by
  cases call with
  | timeout | timeoutWithShift => exact .inl (Option.some.inj h).symm
  | reset => exact .inr (Option.some.inj h).symm

/-- **The durations after any calls.** -/
theorem exists_pow_of_reachable (hend : endDur.toNat < 2 ^ 62)
    (h : Reachable (step overflowChecks) new p) :
    ∃ j, p.currentDurationMs.toNat = firstDuration startDur * 2 ^ j ∧
      ∀ i < j, firstDuration startDur * 2 ^ i < endDur.toNat := by
  have hnew : ∃ j, (new : ProgressiveTimeout startDur endDur).currentDurationMs.toNat =
      firstDuration startDur * 2 ^ j ∧ ∀ i < j, firstDuration startDur * 2 ^ i < endDur.toNat :=
    ⟨0, by rw [toNat_new, pow_zero, Nat.mul_one], fun i hi => absurd hi (Nat.not_lt_zero i)⟩
  refine h.invariant (I := fun p => ∃ j, p.currentDurationMs.toNat =
    firstDuration startDur * 2 ^ j ∧
      ∀ i < j, firstDuration startDur * 2 ^ i < endDur.toNat) hnew ?_
  rintro p call t - ⟨j, hj, hless⟩ - hstep
  rcases step_cases hstep with rfl | rfl
  · rw [toNat_double hend]
    split
    case isTrue hlt =>
      refine ⟨j + 1, by rw [hj, pow_succ, Nat.mul_assoc], fun i hi => ?_⟩
      rcases Nat.lt_succ_iff_lt_or_eq.mp hi with hi | rfl
      · exact hless i hi
      · rwa [← hj]
    case isFalse => exact ⟨j, hj, hless⟩
  · exact hnew

/-- As many timeouts in a row. -/
theorem reachable_pow (overflowChecks : Bool) (hend : endDur.toNat < 2 ^ 62) {k : ℕ}
    (hless : ∀ i < k, firstDuration startDur * 2 ^ i < endDur.toNat) :
    ∃ p : ProgressiveTimeout startDur endDur,
      Reachable (step overflowChecks) new p ∧
        p.currentDurationMs.toNat = firstDuration startDur * 2 ^ k := by
  induction k with
  | zero => exact ⟨new, .start, by rw [toNat_new, pow_zero, Nat.mul_one]⟩
  | succ k ih =>
    obtain ⟨p, hp, hk⟩ := ih fun i hi => hless i (Nat.lt_succ_of_lt hi)
    refine ⟨p.double, .next hp trivial (show p.step overflowChecks .timeout = _ from rfl), ?_⟩
    rw [toNat_double hend, if_pos (hk ▸ hless k (Nat.lt_succ_self k)), hk, pow_succ, Nat.mul_assoc]

/-- A power of two that is reached does not exceed one that is `END_DUR_MICROS`. -/
theorem le_end_of_pow (hend : endDur.toNat < 2 ^ 62) {k : ℕ}
    (hk : endDur.toNat = firstDuration startDur * 2 ^ k)
    (h : Reachable (step overflowChecks) new p) :
    p.currentDurationMs.toNat ≤ endDur.toNat := by
  obtain ⟨j, hj, hless⟩ := exists_pow_of_reachable hend h
  have hle : j ≤ k := by
    by_contra hlt
    exact absurd (hless k (Nat.lt_of_not_le hlt)) (hk ▸ Nat.lt_irrefl _)
  rw [hj, hk]
  exact Nat.mul_le_mul_left _ (Nat.pow_le_pow_right Nat.two_pos hle)

theorem exists_reaches_end (overflowChecks : Bool) (startDur : UInt64)
    (hend : endDur.toNat < 2 ^ 62) :
    ∃ (p : ProgressiveTimeout startDur endDur) (k : ℕ),
      Reachable (step overflowChecks) new p ∧
        p.currentDurationMs.toNat = firstDuration startDur * 2 ^ k ∧
        endDur.toNat ≤ firstDuration startDur * 2 ^ k := by
  have hexists : ∃ k, endDur.toNat ≤ firstDuration startDur * 2 ^ k := by
    refine ⟨endDur.toNat, Nat.lt_two_pow_self.le.trans ?_⟩
    exact Nat.le_mul_of_pos_left _ (one_le_firstDuration startDur)
  -- The first such power is reached, since all smaller ones are doubled.
  obtain ⟨p, hp, hk⟩ := reachable_pow overflowChecks hend
    fun i hi => Nat.lt_of_not_le (Nat.find_min hexists hi)
  exact ⟨p, _, hp, hk, Nat.find_spec hexists⟩

/-- **How long a timeout gets.** After any calls, `timeout` returns less than twice
`END_DUR_MICROS`; and it never returns more than `END_DUR_MICROS` exactly if this is the first
duration times a power of two. -/
theorem timeout_le_end_iff (overflowChecks : Bool) (startDur endDur : UInt64)
    (hstart : 0 < startDur.toNat) (hle : startDur.toNat ≤ endDur.toNat)
    (hend : endDur.toNat < 2 ^ 62) :
    (∀ p : ProgressiveTimeout startDur endDur,
      Reachable (step overflowChecks) new p → p.timeout.2 < 2 * fromMicros endDur) ∧
    ((∀ p : ProgressiveTimeout startDur endDur,
      Reachable (step overflowChecks) new p → p.timeout.2 ≤ fromMicros endDur) ↔
      ∃ k, endDur.toNat = firstDuration startDur * 2 ^ k) := by
  -- What a timeout returns is the duration in the state after it.
  have hnext {p : ProgressiveTimeout startDur endDur}
      (h : Reachable (step overflowChecks) new p) :
      Reachable (step overflowChecks) new p.timeout.1 :=
    .next h trivial (show p.step overflowChecks .timeout = _ from rfl)
  refine ⟨fun p h => ?_, fun hbound => ?_, ?_⟩
  · obtain ⟨j, hj, hless⟩ := exists_pow_of_reachable hend (hnext h)
    have hlt : firstDuration startDur * 2 ^ j < 2 * endDur.toNat := by
      cases j with
      | zero =>
        unfold firstDuration
        omega
      | succ i =>
        have hi := hless i (Nat.lt_succ_self i)
        rw [pow_succ, ← Nat.mul_assoc]
        omega
    show p.timeout.1.currentDurationMs.toNat * 1000 < 2 * (endDur.toNat * 1000)
    omega
  · obtain ⟨p, k, hp, hk, hge⟩ := exists_reaches_end overflowChecks startDur hend
    have hkept : p.timeout.1.currentDurationMs.toNat = p.currentDurationMs.toNat := by
      rw [timeout, toNat_double hend, if_neg (by omega)]
    have hle : p.timeout.1.currentDurationMs.toNat * 1000 ≤ endDur.toNat * 1000 := hbound p hp
    exact ⟨k, by omega⟩
  · rintro ⟨k, hk⟩ p h
    exact Nat.mul_le_mul_right 1000 (le_end_of_pow hend hk (hnext h))

/-- With the durations of the source's own test the timeout comes to the end of its range and stays
there. -/
theorem timeout_le_end_sixteenfold :
    (∃ p : ProgressiveTimeout 100 1600, Reachable (step true) new p ∧
      p.timeout.2 = fromMicros 1600) ∧
    ∀ p : ProgressiveTimeout 100 1600, Reachable (step true) new p →
      p.timeout.2 ≤ fromMicros 1600 := by
  refine ⟨⟨_, reachable_of_exec [.timeout, .timeoutWithShift 2, .timeout, .timeout, .timeout] rfl,
    by decide⟩, ?_⟩
  exact (timeout_le_end_iff true 100 1600 (by decide) (by decide) (by decide)).2.mpr ⟨5, by decide⟩

/-- The second timeout is longer than `END_DUR_MICROS`. -/
theorem timeout_exceeds_end :
    ∃ p : ProgressiveTimeout 100 150, Reachable (step true) new p ∧
      p.timeout.2 = fromMicros 200 ∧ fromMicros 150 < p.timeout.2 :=
  ⟨_, reachable_of_exec [.timeout] rfl, by decide, by decide⟩

end Orengine.Utils.ProgressiveTimeout
