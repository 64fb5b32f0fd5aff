import Mathlib.Data.List.Perm.Basic
import Orengine.Runtime.Executor.Config

/-!
# The statistics of the configurations

The counters of the io worker also count the configurations whose validation has panicked in the
second check, after the first one had counted them; nobody subtracts these.  So when all
configurations have been dropped, one without an io worker is still refused (`refused_alone`).
`counters_exact_iff`: without such a panic the counters are exact.
-/

namespace Orengine.Runtime

open Orengine.Lib

namespace ConfigStats.Part

/-- The counter of the configurations that have the part, or of those that do not. -/
def get (p : Part) (isEnabled : Bool) : ℕ := if isEnabled then p.enabled else p.disabled

/-- One configuration more. -/
def add (p : Part) (isEnabled : Bool) : Part :=
  if isEnabled then { p with enabled := p.enabled + 1 } else { p with disabled := p.disabled + 1 }

theorem uncount_add (p : Part) (isEnabled : Bool) : (p.add isEnabled).uncount isEnabled = p := by
  cases isEnabled <;> rfl

/-- A check counts the configuration, unless the other counter is not zero. -/
theorem count_eq (p : Part) (isEnabled : Bool) (message message' : String) :
    p.count isEnabled message message' =
      if p.get (!isEnabled) = 0 then .ok (p.add isEnabled)
      else .error (if isEnabled then message else message') := by
  cases isEnabled with
  | true =>
    show (if p.disabled ≠ 0 then _ else _) = if p.disabled = 0 then _ else _
    rw [ite_not]
    rfl
  | false =>
    show (if p.enabled ≠ 0 then _ else _) = if p.enabled = 0 then _ else _
    rw [ite_not]
    rfl

end ConfigStats.Part

variable {γ : Type*} {c v : Config γ} {stats stats' : ConfigStats} {s t : Configs γ}
  {a : Configs.Action γ}

/-! ### The classes of the live configurations -/

/-- How many of the configurations with work sharing have a part, and how many have not. -/
def census (f : Config γ → Bool) (l : List (Config γ)) : ConfigStats.Part where
  enabled := l.countP fun c => c.isWorkSharingEnabled && f c
  disabled := l.countP fun c => c.isWorkSharingEnabled && !f c

theorem census_perm {f : Config γ → Bool} {l l' : List (Config γ)} (h : l.Perm l') :
    census f l = census f l' := by
  unfold census
  rw [h.countP_eq, h.countP_eq]

theorem census_cons_of_enabled {f : Config γ → Bool} (h : c.isWorkSharingEnabled = true)
    (l : List (Config γ)) : census f (c :: l) = (census f l).add (f c) := by
  unfold census ConfigStats.Part.add
  cases hf : f c <;> simp [h, hf]

theorem census_cons_of_disabled {f : Config γ → Bool} (h : c.isWorkSharingEnabled = false)
    (l : List (Config γ)) : census f (c :: l) = census f l := by
  unfold census
  simp [h]

theorem get_census_eq_zero {f : Config γ → Bool} {l : List (Config γ)} {b : Bool} :
    (census f l).get b = 0 ↔ ∀ v ∈ l, v.isWorkSharingEnabled = true → f v ≠ b := by
  cases b <;> simp [census, ConfigStats.Part.get, List.countP_eq_zero]

/-- Two configurations with work sharing that differ in a part. -/
def Incompatible (c v : Config γ) : Prop :=
  c.isWorkSharingEnabled = true ∧ v.isWorkSharingEnabled = true ∧
    (v.ioWorkerConfig.isSome = !c.ioWorkerConfig.isSome ∨
      v.isThreadPoolEnabled = !c.isThreadPoolEnabled)

/-! ### `validate` and `drop` -/

/-- **What `validate` does.** -/
inductive Validates (c : Config γ) (stats : ConfigStats) :
    Except String (Config γ) → ConfigStats → Prop
  | unshared (hshared : c.isWorkSharingEnabled = false) : Validates c stats (.ok c) stats
  | counted (hshared : c.isWorkSharingEnabled = true)
      (hio : stats.ioWorker.get (!c.ioWorkerConfig.isSome) = 0)
      (hpool : stats.threadPool.get (!c.isThreadPoolEnabled) = 0) :
      Validates c stats (.ok c)
        ⟨stats.ioWorker.add c.ioWorkerConfig.isSome, stats.threadPool.add c.isThreadPoolEnabled⟩
  | first (message : String) (hshared : c.isWorkSharingEnabled = true)
      (hio : stats.ioWorker.get (!c.ioWorkerConfig.isSome) ≠ 0) :
      Validates c stats (.error message) stats
  /-- The configuration was counted for the io worker. -/
  | second (message : String) (hshared : c.isWorkSharingEnabled = true)
      (hio : stats.ioWorker.get (!c.ioWorkerConfig.isSome) = 0)
      (hpool : stats.threadPool.get (!c.isThreadPoolEnabled) ≠ 0) :
      Validates c stats (.error message)
        { stats with ioWorker := stats.ioWorker.add c.ioWorkerConfig.isSome }

theorem countIoWorker_eq (c : Config γ) (stats : ConfigStats) :
    c.countIoWorker stats = if stats.ioWorker.get (!c.ioWorkerConfig.isSome) = 0 then
        .ok { stats with ioWorker := stats.ioWorker.add c.ioWorkerConfig.isSome }
      else .error (if c.ioWorkerConfig.isSome then Config.anAttemptWithIoWorker
        else Config.anAttemptWithoutIoWorker) := by
  unfold Config.countIoWorker
  rw [ConfigStats.Part.count_eq]
  split <;> rfl

theorem countThreadPool_eq (c : Config γ) (stats : ConfigStats) :
    c.countThreadPool stats = if stats.threadPool.get (!c.isThreadPoolEnabled) = 0 then
        .ok { stats with threadPool := stats.threadPool.add c.isThreadPoolEnabled }
      else .error (if c.isThreadPoolEnabled then Config.anAttemptWithThreadPool
        else Config.anAttemptWithoutThreadPool) := by
  unfold Config.countThreadPool
  rw [ConfigStats.Part.count_eq]
  split <;> rfl

theorem validates (c : Config γ) (stats : ConfigStats) :
    Validates c stats (c.validate stats).1 (c.validate stats).2 := by
  unfold Config.validate
  cases hshared : c.isWorkSharingEnabled with
  | false => exact .unshared hshared
  | true =>
    rw [if_pos rfl, countIoWorker_eq]
    by_cases hio : stats.ioWorker.get (!c.ioWorkerConfig.isSome) = 0
    · rw [if_pos hio]
      simp only [countThreadPool_eq]
      by_cases hpool : stats.threadPool.get (!c.isThreadPoolEnabled) = 0
      · rw [if_pos hpool]
        exact .counted hshared hio hpool
      · rw [if_neg hpool]
        exact .second _ hshared hio hpool
    · rw [if_neg hio]
      exact .first _ hshared hio

namespace Configs

/-! ### Whole runs -/

/-- The counters of the io worker count those whose validation has panicked too late as well. -/
structure Counted (s : Configs γ) : Prop where
  ioWorker : s.stats.ioWorker = census (·.ioWorkerConfig.isSome) (s.live ++ s.leaked)
  threadPool : s.stats.threadPool = census Config.isThreadPoolEnabled s.live
  shared : ∀ c ∈ s.leaked, c.isWorkSharingEnabled = true

theorem counted_new : (new : Configs γ).Counted := ⟨rfl, rfl, fun _ h => by cases h⟩

theorem Counted.validate (hs : s.Counted) (hstep : s.step (.validate c) = some t) :
    t.Counted := by
  have hvalidates := validates c s.stats
  have hfirst := countIoWorker_eq c s.stats
  -- A configuration that was counted for the io worker is live, or leaked.
  have hio (hshared : c.isWorkSharingEnabled = true) {l : List (Config γ)}
      (hl : l.Perm (c :: (s.live ++ s.leaked))) :
      s.stats.ioWorker.add c.ioWorkerConfig.isSome = census (·.ioWorkerConfig.isSome) l := by
    rw [hs.ioWorker, census_perm hl, census_cons_of_enabled hshared]
  simp only [step] at hstep
  rcases hresult : c.validate s.stats with ⟨result, stats⟩
  rw [hresult] at hvalidates hstep
  have hlive : (s.live ++ [c] ++ s.leaked).Perm (c :: (s.live ++ s.leaked)) := by
    rw [List.append_assoc]
    exact List.perm_middle
  cases hvalidates with
  | unshared hshared =>
    obtain rfl := Option.some.inj hstep
    refine ⟨?_, ?_, hs.shared⟩
    · show s.stats.ioWorker = _
      rw [hs.ioWorker, census_perm hlive, census_cons_of_disabled hshared]
    · show s.stats.threadPool = _
      rw [hs.threadPool, census_perm (List.perm_append_singleton c s.live),
        census_cons_of_disabled hshared]
  | counted hshared hzero hpool =>
    obtain rfl := Option.some.inj hstep
    refine ⟨hio hshared hlive, ?_, hs.shared⟩
    show s.stats.threadPool.add c.isThreadPoolEnabled = _
    rw [hs.threadPool, census_perm (List.perm_append_singleton c s.live),
      census_cons_of_enabled hshared]
  | first message hshared hzero =>
    rw [hfirst, if_neg hzero] at hstep
    obtain rfl := Option.some.inj hstep
    exact ⟨hs.ioWorker, hs.threadPool, hs.shared⟩
  | second message hshared hzero hpool =>
    rw [hfirst, if_pos hzero] at hstep
    obtain rfl := Option.some.inj hstep
    refine ⟨hio hshared ?_, hs.threadPool, fun c' hc' => ?_⟩
    · show (s.live ++ (s.leaked ++ [c])).Perm _
      rw [← List.append_assoc]
      exact List.perm_append_singleton c _
    · rcases List.mem_append.mp hc' with hc' | hc'
      · exact hs.shared c' hc'
      · obtain rfl := List.mem_singleton.mp hc'
        exact hshared

theorem Counted.drop (hs : s.Counted) {i : ℕ} (hstep : s.step (.drop i) = some t) : t.Counted := by
  obtain ⟨v, hv, rfl⟩ := Option.map_eq_some_iff.mp hstep
  obtain ⟨hlt, rfl⟩ := List.getElem?_eq_some_iff.mp hv
  have hperm : (s.live[i] :: s.live.eraseIdx i).Perm s.live := List.getElem_cons_eraseIdx_perm hlt
  have hio : s.stats.ioWorker =
      census (·.ioWorkerConfig.isSome) (s.live[i] :: (s.live.eraseIdx i ++ s.leaked)) :=
    hs.ioWorker.trans (census_perm (hperm.append_right s.leaked)).symm
  have hpool : s.stats.threadPool =
      census Config.isThreadPoolEnabled (s.live[i] :: s.live.eraseIdx i) :=
    hs.threadPool.trans (census_perm hperm).symm
  refine ⟨?_, ?_, hs.shared⟩
  · show (s.live[i].drop s.stats).ioWorker = _
    unfold Config.drop
    cases hshared : s.live[i].isWorkSharingEnabled with
    | true =>
      rw [census_cons_of_enabled hshared] at hio
      rw [if_pos rfl, hio]
      exact ConfigStats.Part.uncount_add ..
    | false =>
      rw [census_cons_of_disabled hshared] at hio
      exact hio
  · show (s.live[i].drop s.stats).threadPool = _
    unfold Config.drop
    cases hshared : s.live[i].isWorkSharingEnabled with
    | true =>
      rw [census_cons_of_enabled hshared] at hpool
      rw [if_pos rfl, hpool]
      exact ConfigStats.Part.uncount_add ..
    | false =>
      rw [census_cons_of_disabled hshared] at hpool
      exact hpool

/-- The counters are those of the live configurations. -/
def Exact (s : Configs γ) : Prop :=
  s.stats = ⟨census (·.ioWorkerConfig.isSome) s.live, census Config.isThreadPoolEnabled s.live⟩

theorem Counted.exact_iff (hs : s.Counted) : s.Exact ↔ s.leaked = [] := by
  constructor
  · intro hexact
    have hio : census (·.ioWorkerConfig.isSome) (s.live ++ s.leaked) =
        census (·.ioWorkerConfig.isSome) s.live :=
      hs.ioWorker.symm.trans (congrArg ConfigStats.ioWorker hexact)
    -- A leaked configuration is in one of the two classes.
    cases hleaked : s.leaked with
    | nil => rfl
    | cons c rest =>
      have hshared := hs.shared c (hleaked ▸ List.mem_cons_self)
      have henabled := congrArg ConfigStats.Part.enabled hio
      have hdisabled := congrArg ConfigStats.Part.disabled hio
      simp only [census, List.countP_append, Nat.add_eq_left, List.countP_eq_zero, hleaked,
        List.forall_mem_cons, hshared, Bool.true_and] at henabled hdisabled
      cases hf : c.ioWorkerConfig.isSome <;> simp [hf] at henabled hdisabled
  · intro hnil
    have hio := hs.ioWorker
    rw [hnil, List.append_nil] at hio
    unfold Exact
    rw [← hio, ← hs.threadPool]

/-- With exact counters `validate` panics exactly if some live configuration is not compatible. -/
theorem Exact.panics_iff (h : s.Exact) (c : Config γ) :
    (∃ message, (c.validate s.stats).1 = .error message) ↔ ∃ v ∈ s.live, Incompatible c v := by
  have hvalidates := validates c s.stats
  have hio : s.stats.ioWorker.get (!c.ioWorkerConfig.isSome) = 0 ↔
      ∀ v ∈ s.live, v.isWorkSharingEnabled = true →
        v.ioWorkerConfig.isSome ≠ !c.ioWorkerConfig.isSome := by
    rw [h]
    exact get_census_eq_zero
  have hpool : s.stats.threadPool.get (!c.isThreadPoolEnabled) = 0 ↔
      ∀ v ∈ s.live, v.isWorkSharingEnabled = true →
        v.isThreadPoolEnabled ≠ !c.isThreadPoolEnabled := by
    rw [h]
    exact get_census_eq_zero
  rcases hresult : c.validate s.stats with ⟨result, stats⟩
  rw [hresult] at hvalidates
  constructor
  · rintro ⟨message, rfl⟩
    cases hvalidates with
    | first _ hshared hother =>
      rw [Ne, hio] at hother
      push Not at hother
      obtain ⟨v, hv, hvshared, hdiff⟩ := hother
      exact ⟨v, hv, hshared, hvshared, .inl hdiff⟩
    | second _ hshared _ hother =>
      rw [Ne, hpool] at hother
      push Not at hother
      obtain ⟨v, hv, hvshared, hdiff⟩ := hother
      exact ⟨v, hv, hshared, hvshared, .inr hdiff⟩
  · rintro ⟨v, hv, hshared, hvshared, hdiff⟩
    cases hvalidates with
    | unshared hunshared =>
      rw [hunshared] at hshared
      cases hshared
    | counted _ hzeroio hzeropool =>
      rcases hdiff with hdiff | hdiff
      · exact absurd hdiff (hio.mp hzeroio v hv hvshared)
      · exact absurd hdiff (hpool.mp hzeropool v hv hvshared)
    | first message | second message => exact ⟨message, rfl⟩

/-- **The counters.**  After any sequence of validations, some of which may have panicked, and
drops, the counters are those of the live configurations exactly if no validation has panicked in
the second check, and then `validate` panics exactly if there is a live configuration that is not
compatible; and no drop of a live configuration subtracts from zero. -/
theorem counters_exact_iff (h : Reachable step new s) :
    (s.Exact ↔ s.leaked = []) ∧
      (s.leaked = [] → ∀ c : Config γ,
        (∃ message, (c.validate s.stats).1 = .error message) ↔ ∃ v ∈ s.live, Incompatible c v) ∧
      ∀ v ∈ s.live, v.isWorkSharingEnabled = true →
        1 ≤ s.stats.ioWorker.get v.ioWorkerConfig.isSome ∧
          1 ≤ s.stats.threadPool.get v.isThreadPoolEnabled := by
  have hs : s.Counted := by
    apply h.invariant (I := Counted) counted_new
    intro s a t _ hs _ hstep
    cases a with
    | validate c => exact hs.validate hstep
    | drop i => exact hs.drop hstep
  refine ⟨hs.exact_iff, fun hnil => (hs.exact_iff.mpr hnil).panics_iff, fun v hv hshared => ?_⟩
  constructor
  · rw [hs.ioWorker, Nat.one_le_iff_ne_zero, Ne, get_census_eq_zero]
    exact fun hall => hall v (List.mem_append_left _ hv) hshared rfl
  · rw [hs.threadPool, Nat.one_le_iff_ne_zero, Ne, get_census_eq_zero]
    exact fun hall => hall v hv hshared rfl

/-- A configuration without an io worker is refused while the default one is live. -/
theorem counters_exact_iff_default :
    ∃ s : Configs Unit, Reachable step new s ∧ s.live = [Config.default ()] ∧ s.Exact ∧
      ∃ message, ((Config.default ()).disableIoWorker.validate s.stats).1 = .error message := by
  have hreach : Reachable step (new : Configs Unit) _ :=
    reachable_of_exec [.validate (Config.default ()), .validate (Config.default ()).disableIoWorker]
      rfl
  obtain ⟨hexact, hpanics, -⟩ := counters_exact_iff hreach
  refine ⟨_, hreach, rfl, hexact.mpr rfl, (hpanics rfl _).mpr ⟨_, List.mem_singleton_self _, ?_⟩⟩
  exact ⟨rfl, rfl, .inl rfl⟩

/-- **A configuration is refused though it is alone.**  The default configuration is live, and one
without a thread pool is refused.  Then the default one is dropped; no configuration is live, but
one without an io worker is refused. -/
theorem refused_alone :
    ∃ s : Configs Unit, Reachable step new s ∧ s.live = [] ∧ s.stats.ioWorker = ⟨1, 0⟩ ∧
      ∃ message, ((Config.default ()).disableIoWorker.validate s.stats).1 = .error message := by
  have hreach : Reachable step (new : Configs Unit) _ :=
    reachable_of_exec [.validate (Config.default ()),
      .validate ((Config.default ()).setNumbersOfBlockingWorkers 0), .drop 0] rfl
  exact ⟨_, hreach, rfl, rfl, _, rfl⟩

end Configs

end Orengine.Runtime
