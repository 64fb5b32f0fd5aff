import Orengine.Lib.Reach
import Orengine.Sync.RWLocks.Shared
import Mathlib.Data.List.Basic

/-!
# Safety of `RWLock`

`Sound` ties `number_of_readers` to the guards that exist.  A value that `try_read` has loaded may
be old, but the exchange succeeds only if it is the value again.  The blind store of `write_unlock`
and the `fetch_sub` of `read_unlock` are made by a task that still has the guard.  `exclusion` is
what this means for every run.
-/

namespace Orengine.Sync.RWLock

open Lib

variable {τ : Type*} [DecidableEq τ]

structure Sound (s : RWLock τ) : Prop where
  counts : (s.writeGuards = [] ∧ s.numberOfReaders = s.readGuards.length) ∨
    (∃ t, s.writeGuards = [t]) ∧ s.readGuards = [] ∧ s.numberOfReaders = -1
  /-- The value that a `try_read` has loaded is not negative. -/
  loaded : ∀ t n, s.pc t = .readCas n → 0 ≤ n
  /-- Whoever is in an unlock function has a guard. -/
  reads : ∀ t, s.pc t = .readUnlock → t ∈ s.readGuards
  writes : ∀ t, s.pc t = .writeUnlock → t ∈ s.writeGuards
  not_panicked : s.panicked = false

variable {s s' : RWLock τ} {t : τ}

theorem Sound.goto (h : s.Sound) {k : Pc} (hload : ∀ n, k = .readCas n → 0 ≤ n)
    (hread : k = .readUnlock → t ∈ s.readGuards) (hwrite : k = .writeUnlock → t ∈ s.writeGuards) :
    (s.goto t k).Sound := by
  -- Every condition on the places holds for `t` by assumption and for the others as before.
  have hpc {P : τ → Pc → Prop} (ht : P t k) (hs : ∀ u, P u (s.pc u)) (u : τ) :
      P u ((s.goto t k).pc u) := by
    by_cases hut : u = t
    · rw [hut]
      simpa [RWLock.goto] using ht
    · simpa [RWLock.goto, hut] using hs u
  exact ⟨h.counts, hpc (P := fun _ x => ∀ n, x = .readCas n → 0 ≤ n) hload h.loaded,
    hpc (P := fun u x => x = .readUnlock → u ∈ s.readGuards) hread h.reads,
    hpc (P := fun u x => x = .writeUnlock → u ∈ s.writeGuards) hwrite h.writes, h.not_panicked⟩

theorem Sound.change (h : s.Sound) (hcounts : (s'.writeGuards = [] ∧ s'.numberOfReaders =
    s'.readGuards.length) ∨ (∃ u, s'.writeGuards = [u]) ∧ s'.readGuards = [] ∧ s'.numberOfReaders
    = -1) (hidle : s'.pc t = .idle) (hothers : ∀ u ≠ t, s'.pc u = s.pc u)
    (hreads : ∀ u ≠ t, u ∈ s.readGuards → u ∈ s'.readGuards)
    (hwrites : ∀ u ≠ t, u ∈ s.writeGuards → u ∈ s'.writeGuards)
    (hpanicked : s'.panicked = s.panicked) : s'.Sound := by
  have hpc {P : τ → Pc → Prop} (ht : P t .idle) (hs : ∀ u ≠ t, P u (s.pc u)) (u : τ) :
      P u (s'.pc u) := by
    by_cases hut : u = t
    · rw [hut, hidle]
      exact ht
    · rw [hothers u hut]
      exact hs u hut
  refine ⟨hcounts, hpc (P := fun _ x => ∀ n, x = .readCas n → 0 ≤ n) ?_ fun u _ => h.loaded u,
    hpc (P := fun u x => x = .readUnlock → u ∈ s'.readGuards) ?_ fun u hut hu => ?_,
    hpc (P := fun u x => x = .writeUnlock → u ∈ s'.writeGuards) ?_ fun u hut hu => ?_,
    hpanicked.trans h.not_panicked⟩
  · simp
  · simp
  · exact hreads u hut (h.reads u hu)
  · simp
  · exact hwrites u hut (h.writes u hu)

theorem goto_pc_self (s : RWLock τ) (t : τ) (k : Pc) : (s.goto t k).pc t = k := by
  simp [RWLock.goto]

theorem goto_pc_of_ne (s : RWLock τ) {u : τ} (k : Pc) (hut : u ≠ t) :
    (s.goto t k).pc u = s.pc u := by
  simp [RWLock.goto, hut]

theorem Sound.readLoad (h : s.Sound) (t : τ) : (s.readLoad t).Sound := by
  unfold RWLock.readLoad
  split
  case isTrue hpos =>
    refine h.goto (fun n hn => ?_) (by simp) (by simp)
    rw [← Pc.readCas.inj hn]
    exact hpos
  case isFalse => exact h.goto (by simp) (by simp) (by simp)

/-- The exchange of `try_read` succeeds only if there is no writer, however old its load is. -/
theorem Sound.readCas (h : s.Sound) {n : ℤ} (hn : 0 ≤ n) : (s.readCas t n).Sound := by
  unfold RWLock.readCas
  split
  case isTrue heq =>
    refine h.change (Or.inl ?_) (goto_pc_self _ t _) (fun u hut => goto_pc_of_ne _ _ hut)
      (fun u _ hu => List.mem_cons_of_mem t hu) (fun u _ hu => hu) rfl
    rcases h.counts with ⟨hempty, hcount⟩ | ⟨-, -, hneg⟩
    · refine ⟨hempty, ?_⟩
      show n + 1 = ((t :: s.readGuards).length : ℤ)
      rw [List.length_cons]
      omega
    · omega
  case isFalse => exact h.goto (by simp) (by simp) (by simp)

theorem Sound.tryWrite (h : s.Sound) (ht : s.pc t = .idle) : (s.tryWrite t).Sound := by
  unfold RWLock.tryWrite
  split
  case isTrue hzero =>
    refine h.change (t := t) (Or.inr ?_) ht (fun _ _ => rfl) (fun _ _ => id)
      (fun u _ hu => List.mem_cons_of_mem t hu) rfl
    rcases h.counts with ⟨hempty, hcount⟩ | ⟨-, -, hneg⟩
    · have hnone : s.readGuards = [] := List.eq_nil_of_length_eq_zero (by omega)
      exact ⟨⟨t, by rw [hempty]⟩, hnone, rfl⟩
    · omega
  case isFalse => exact h

omit [DecidableEq τ] in
theorem Sound.of_mem_readGuards (h : s.Sound) (ht : t ∈ s.readGuards) :
    s.writeGuards = [] ∧ s.numberOfReaders = s.readGuards.length ∧ 0 < s.readGuards.length := by
  rcases h.counts with ⟨hempty, hcount⟩ | ⟨-, hempty, -⟩
  · exact ⟨hempty, hcount, List.length_pos_of_mem ht⟩
  · rw [hempty] at ht
    cases ht

omit [DecidableEq τ] in
theorem Sound.of_mem_writeGuards (h : s.Sound) (ht : t ∈ s.writeGuards) :
    s.writeGuards = [t] ∧ s.readGuards = [] ∧ s.numberOfReaders = -1 := by
  rcases h.counts with ⟨hempty, -⟩ | ⟨⟨u, hu⟩, hempty, hneg⟩
  · rw [hempty] at ht
    cases ht
  · rw [hu, List.mem_singleton] at ht
    rw [ht]
    exact ⟨hu, hempty, hneg⟩

theorem Sound.go (h : s.Sound) (hgo : s.go t = some s') : s'.Sound := by
  unfold RWLock.go at hgo
  split at hgo
  case h_1 => cases hgo
  case h_2 => exact Option.some.inj hgo ▸ h.readLoad t
  case h_3 n hpc => exact Option.some.inj hgo ▸ h.readCas (h.loaded t n hpc)
  case h_4 hpc =>
    obtain ⟨hempty, hcount, hpos⟩ := h.of_mem_readGuards (h.reads t hpc)
    rw [← Option.some.inj hgo]
    refine h.change (Or.inl ⟨hempty, ?_⟩) (goto_pc_self _ t _) (fun u hut => goto_pc_of_ne _ _ hut)
      (fun u hut hu => (List.mem_erase_of_ne hut).mpr hu) (fun u _ hu => hu) rfl
    show s.numberOfReaders - 1 = ((s.readGuards.erase t).length : ℤ)
    rw [List.length_erase_of_mem (h.reads t hpc)]
    omega
  case h_5 hpc =>
    obtain ⟨hsingle, hempty, -⟩ := h.of_mem_writeGuards (h.writes t hpc)
    rw [← Option.some.inj hgo]
    refine h.change (Or.inl ⟨?_, ?_⟩) (goto_pc_self _ t _) (fun u hut => goto_pc_of_ne _ _ hut)
      (fun u _ hu => hu) (fun u hut hu => (List.mem_erase_of_ne hut).mpr hu) rfl
    · show s.writeGuards.erase t = []
      rw [hsingle, List.erase_cons_head]
    · show (0 : ℤ) = (s.readGuards.length : ℤ)
      rw [hempty]
      rfl

theorem Sound.step {a : Action τ} (h : s.Sound) (hstep : s.step a = some s') : s'.Sound := by
  cases a with
  | tryRead t =>
    simp only [RWLock.step, Option.ite_none_right_eq_some, Option.some.injEq] at hstep
    exact hstep.2 ▸ h.readLoad t
  | tryWrite t =>
    simp only [RWLock.step, Option.ite_none_right_eq_some, Option.some.injEq] at hstep
    exact hstep.2 ▸ h.tryWrite hstep.1
  | readUnlock t =>
    obtain ⟨⟨-, ht⟩, rfl⟩ := of_guard hstep
    obtain ⟨-, hcount, hpos⟩ := h.of_mem_readGuards ht
    have hassert : (s.debugAssert (s.numberOfReaders != 0 && s.numberOfReaders > 0)).Sound := by
      refine ⟨h.counts, h.loaded, h.reads, h.writes, ?_⟩
      have hgt : 0 < s.numberOfReaders := by omega
      have hne : s.numberOfReaders ≠ 0 := by omega
      simp [debugAssert, h.not_panicked, hgt, hne]
    exact hassert.goto (by simp) (fun _ => ht) (by simp)
  | writeUnlock t =>
    obtain ⟨⟨-, ht⟩, rfl⟩ := of_guard hstep
    obtain ⟨-, -, hneg⟩ := h.of_mem_writeGuards ht
    have hassert : (s.debugAssert (s.numberOfReaders != 0 && s.numberOfReaders < 0)).Sound := by
      refine ⟨h.counts, h.loaded, h.reads, h.writes, ?_⟩
      simp [debugAssert, h.not_panicked, hneg]
    exact hassert.goto (by simp) (by simp) (fun _ => ht)
  | giveRead t u =>
    obtain ⟨⟨hidle, ht⟩, rfl⟩ := of_guard hstep
    obtain ⟨hempty, hcount, hpos⟩ := h.of_mem_readGuards ht
    refine h.change (t := t) (Or.inl ⟨hempty, ?_⟩) hidle (fun _ _ => rfl)
      (fun v hvt hv => List.mem_cons_of_mem u ((List.mem_erase_of_ne hvt).mpr hv))
      (fun _ _ => id) rfl
    show s.numberOfReaders = ((u :: s.readGuards.erase t).length : ℤ)
    rw [List.length_cons, List.length_erase_of_mem ht]
    omega
  | giveWrite t u =>
    obtain ⟨⟨hidle, ht⟩, rfl⟩ := of_guard hstep
    obtain ⟨hsingle, hempty, hneg⟩ := h.of_mem_writeGuards ht
    refine h.change (t := t) (Or.inr ⟨⟨u, ?_⟩, hempty, hneg⟩) hidle (fun _ _ => rfl) (fun _ _ => id)
      (fun v hvt hv => List.mem_cons_of_mem u ((List.mem_erase_of_ne hvt).mpr hv)) rfl
    show u :: s.writeGuards.erase t = [u]
    rw [hsingle, List.erase_cons_head]
  | go t => exact h.go hstep

theorem sound_of_reachable (h : Reachable RWLock.step new s) : s.Sound := by
  refine Reach.invariant (I := Sound) ?_ (fun s a s' _ hs _ hstep => hs.step hstep) h
  exact ⟨Or.inl ⟨rfl, rfl⟩, by simp [new], by simp [new], by simp [new], rfl⟩

/-- **Readers and writers exclude each other** in every interleaving: there is at most one write
guard and no read guard, or no write guard.  `number_of_readers` is -1 if there is a write guard
and else the number of read guards, and no debug assertion of the unlock functions fails. -/
theorem exclusion {s : RWLock τ} (h : Reachable RWLock.step new s) :
    (s.writeGuards.length ≤ 1 ∧ s.readGuards = [] ∨ s.writeGuards = []) ∧
    s.numberOfReaders = (if s.writeGuards = [] then (s.readGuards.length : ℤ) else -1) ∧
    s.panicked = false := by
  have hsound := sound_of_reachable h
  refine ⟨?_, ?_, hsound.not_panicked⟩
  · rcases hsound.counts with ⟨hempty, -⟩ | ⟨⟨t, ht⟩, hempty, -⟩
    · exact Or.inr hempty
    · exact Or.inl ⟨by rw [ht]; simp, hempty⟩
  · rcases hsound.counts with ⟨hempty, hcount⟩ | ⟨⟨t, ht⟩, -, hneg⟩
    · rw [if_pos hempty, hcount]
    · rw [if_neg (by simp [ht]), hneg]

/-- `t` loads 0 in `try_read`; `u` writes and is done, and `v` reads; then the exchange of `t`
fails, and it begins again. -/
def staleLoad (t u v : τ) : List (Action τ) :=
  [.tryRead t, .tryWrite u, .writeUnlock u, .go u, .tryRead v, .go v, .go t, .go t, .go t]

/-- After that there are two read guards. -/
theorem exclusion_staleLoad :
    ∃ s : RWLock (Fin 3), Reachable RWLock.step new s ∧ s.readGuards = [0, 2] ∧
      s.writeGuards = [] ∧ s.numberOfReaders = 2 ∧ s.panicked = false := by
  refine ⟨_, reachable_of_exec (staleLoad 0 1 2) rfl, rfl, rfl, ?_⟩
  exact (exclusion (reachable_of_exec (staleLoad 0 1 2) rfl)).2

end Orengine.Sync.RWLock
