import Mathlib.Data.Nat.Notation
import Mathlib.Data.Option.Basic
import Mathlib.Logic.Function.Basic

/-!
# Runs of a labelled transition function

A system is given by a step function `step : σ → α → Option σ`: the label `a` says which party
moves and what it chooses, and `none` means that the move is not possible in this state.
`Reach step C s₀ s` says that `s` is reached from `s₀` by steps each of which meets the
condition `C` in the state it is taken from; `Reachable` drops the condition.

`Reach.invariant` is the induction of every safety proof, and `exec` runs a schedule, so that a
state can be shown reachable by evaluating it (`reachable_of_exec`, `reach_of_execWhere`).
-/

namespace Orengine.Lib

variable {σ α : Type*}

/-- The states reached from `s₀` by steps that all meet `C`. -/
inductive Reach (step : σ → α → Option σ) (C : σ → α → Prop) (s₀ : σ) : σ → Prop
  | start : Reach step C s₀ s₀
  | next {s t : σ} {a : α} : Reach step C s₀ s → C s a → step s a = some t → Reach step C s₀ t

/-- The states reached from `s₀` by any steps. -/
def Reachable (step : σ → α → Option σ) (s₀ : σ) : σ → Prop :=
  Reach step (fun _ _ => True) s₀

variable {s s₀ t : σ} {step : σ → α → Option σ}

theorem of_guard {p : Prop} [Decidable p] (h : (if p then some s else none) = some t) :
    p ∧ t = s := by
  rw [Option.ite_none_right_eq_some, Option.some.injEq] at h
  exact ⟨h.1, h.2.symm⟩

theorem of_some {β : Type*} {p : α × β} {a : α} {b : β} (h : some p = some (a, b)) :
    a = p.1 ∧ b = p.2 := by
  rw [Option.some.inj h]
  exact ⟨rfl, rfl⟩

namespace Reach

variable {step : σ → α → Option σ} {C D : σ → α → Prop} {s₀ s : σ} {I : σ → Prop}

/-- **The invariant rule.** What holds at the start and is kept by every step from a reached
state holds in every reached state. -/
theorem invariant (h₀ : I s₀)
    (hstep : ∀ s a t, Reach step C s₀ s → I s → C s a → step s a = some t → I t)
    (h : Reach step C s₀ s) : I s := by
  induction h with
  | start => exact h₀
  | next hs hC ht ih => exact hstep _ _ _ hs ih hC ht

theorem mono (hCD : ∀ s a, C s a → D s a) (h : Reach step C s₀ s) : Reach step D s₀ s := by
  induction h with
  | start => exact .start
  | next _ hC ht ih => exact .next ih (hCD _ _ hC) ht

/-- **The component rule.** If every step of a system either leaves a component alone or is a step
of it, then every run of the system is one of the component. -/
theorem component {ρ β : Type*} {step' : ρ → β → Option ρ} {D : ρ → β → Prop} {f : σ → ρ}
    (hstep : ∀ s a t, C s a → step s a = some t →
      f t = f s ∨ ∃ b, D (f s) b ∧ step' (f s) b = some (f t))
    (h : Reach step C s₀ s) : Reach step' D (f s₀) (f s) := by
  induction h with
  | start => exact .start
  | next _ hC ht ih =>
    rcases hstep _ _ _ hC ht with heq | ⟨b, hD, hb⟩
    · rw [heq]
      exact ih
    · exact .next ih hD hb

/-- **The progress rule.** If a run can be made longer with less left to do as long as the goal `Q`
is not met, then some run meets it. -/
theorem exists_of_measure {Q : σ → Prop} (μ : σ → ℕ)
    (hstep : ∀ s, Reach step C s₀ s → I s → ¬Q s → ∃ t, Reach step C s₀ t ∧ I t ∧ μ t < μ s)
    (h : Reach step C s₀ s) (hI : I s) : ∃ t, Reach step C s₀ t ∧ I t ∧ Q t := by
  -- The induction is on what is left to do.
  induction hn : μ s using Nat.strongRecOn generalizing s with
  | ind n ih =>
    by_cases hQ : Q s
    · exact ⟨s, h, hI, hQ⟩
    · obtain ⟨t, ht, hIt, hlt⟩ := hstep s h hI hQ
      exact ih (μ t) (hn ▸ hlt) ht hIt rfl

theorem reachable (h : Reach step C s₀ s) : Reachable step s₀ s :=
  h.mono fun _ _ _ => trivial

end Reach

/-! ### Schedules -/

/-- Run a schedule from `s`; `none` if some step of it is not possible. -/
def exec (step : σ → α → Option σ) : σ → List α → Option σ
  | s, [] => some s
  | s, a :: as => (step s a).bind fun t => exec step t as

/-- Run a schedule from `s`, stopping with `none` at the first step that does not meet `C`. -/
def execWhere (step : σ → α → Option σ) (C : σ → α → Prop) [∀ s a, Decidable (C s a)] :
    σ → List α → Option σ
  | s, [] => some s
  | s, a :: as => if C s a then (step s a).bind fun t => execWhere step C t as else none

theorem exec_append (step : σ → α → Option σ) (s : σ) (as bs : List α) :
    exec step s (as ++ bs) = (exec step s as).bind fun t => exec step t bs := by
  induction as generalizing s with
  | nil => rfl
  | cons a as ih =>
    rw [List.cons_append, exec, exec, Option.bind_assoc]
    congr 1
    funext t
    exact ih t

theorem reach_exec {as : List α} (hs : Reachable step s₀ s) (h : exec step s as = some t) :
    Reachable step s₀ t := by
  induction as generalizing s with
  | nil =>
    rw [exec, Option.some.injEq] at h
    exact h ▸ hs
  | cons a as ih =>
    rw [exec, Option.bind_eq_some_iff] at h
    obtain ⟨u, hu, ht⟩ := h
    exact ih (.next hs trivial hu) ht

theorem reachable_of_exec (as : List α) (h : exec step s₀ as = some t) : Reachable step s₀ t :=
  reach_exec .start h

theorem reach_execWhere {C : σ → α → Prop} [∀ s a, Decidable (C s a)] {as : List α}
    (hs : Reach step C s₀ s) (h : execWhere step C s as = some t) : Reach step C s₀ t := by
  induction as generalizing s with
  | nil =>
    rw [execWhere, Option.some.injEq] at h
    exact h ▸ hs
  | cons a as ih =>
    rw [execWhere] at h
    split at h
    case isTrue hC =>
      rw [Option.bind_eq_some_iff] at h
      obtain ⟨u, hu, ht⟩ := h
      exact ih (.next hs hC hu) ht
    case isFalse => cases h

theorem reach_of_execWhere {C : σ → α → Prop} [∀ s a, Decidable (C s a)] (as : List α)
    (h : execWhere step C s₀ as = some t) : Reach step C s₀ t :=
  reach_execWhere .start h

/-! ### All states of a run -/

/-- `P` holds in every state of the run of a schedule from `s`, as far as the run goes. -/
def Always (step : σ → α → Option σ) (P : σ → Prop) : σ → List α → Prop
  | s, [] => P s
  | s, a :: as => P s ∧ ∀ t, step s a = some t → Always step P t as

/-- No step of the run of a schedule from `s` meets `B`. -/
def Never (step : σ → α → Option σ) (B : σ → α → Prop) : σ → List α → Prop
  | _, [] => True
  | s, a :: as => ∀ t, step s a = some t → ¬B s a ∧ Never step B t as

/-- If a step from a state with `P` keeps `P` exactly when it does not meet `B`, then `P` holds
all along a run exactly when no step of it meets `B`. -/
theorem always_iff_never {P : σ → Prop} {B : σ → α → Prop}
    (hstep : ∀ s a t, Reachable step s₀ s → P s → step s a = some t → (P t ↔ ¬B s a))
    (hs : Reachable step s₀ s) (hP : P s) (as : List α) :
    Always step P s as ↔ Never step B s as := by
  induction as generalizing s with
  | nil => exact ⟨fun _ => trivial, fun _ => hP⟩
  | cons a as ih =>
    constructor
    · rintro ⟨-, halways⟩ t ht
      have hPt : P t := by
        cases as with
        | nil => exact halways t ht
        | cons b bs => exact (halways t ht).1
      exact ⟨(hstep s a t hs hP ht).mp hPt, (ih (.next hs trivial ht) hPt).mp (halways t ht)⟩
    · intro hnever
      refine ⟨hP, fun t ht => ?_⟩
      obtain ⟨hB, hrest⟩ := hnever t ht
      exact (ih (.next hs trivial ht) ((hstep s a t hs hP ht).mpr hB)).mpr hrest

end Orengine.Lib
