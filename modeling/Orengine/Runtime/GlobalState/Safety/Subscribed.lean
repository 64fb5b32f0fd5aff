import Orengine.Runtime.GlobalState.Subscribed
import Orengine.Lib.Reach

/-!
# The image of an executor that has processed its version is up to date

A version is published before the change of the global state is finished, and marked as processed
before the lock is taken.  That no change falls between the two is an invariant on the versions: an
executor that is outside of its check has not processed the version of the operation in progress
(`Progress.processed_le`), because it would have had to wait for the lock.
-/

namespace Orengine.Runtime

open Orengine.Utils Orengine.Lib

namespace GlobalState

variable {g : GlobalState} {i : ℕ}

theorem mem_keys_register {id : ℕ} {hasList : Bool} :
    i ∈ (g.registerLocalExecutor id hasList).alive.keys ↔ i = id ∨ i ∈ g.alive.keys := by
  simp only [registerLocalExecutor, VecMap.mem_keys, VecMap.get_insert]
  by_cases h : i = id
  · simp [h]
  · simp [h]

theorem mem_keys_stopExecutor {id : ℕ} :
    i ∈ (g.stopExecutor id).alive.keys ↔ i ≠ id ∧ i ∈ g.alive.keys := by
  simp only [stopExecutor, VecMap.mem_keys, VecMap.get_retain]
  cases g.alive.get i with
  | none => simp
  | some v => simp

theorem not_mem_keys_stopAllExecutors : i ∉ g.stopAllExecutors.alive.keys := by
  simp [stopAllExecutors, VecMap.mem_keys, VecMap.get_retain]

theorem get_remake {V : Type*} (g : GlobalState) (value : ℕ → V) (m : VecMap V) (k : ℕ) :
    (g.remake value m).get k = if k ∈ g.alive.keys then some (value k) else none :=
  VecMap.get_foldl_insert value g.alive.keys m.clear k

theorem mem_keys_remake {V : Type*} (g : GlobalState) (value : ℕ → V) (m : VecMap V) (k : ℕ) :
    k ∈ (g.remake value m).keys ↔ k ∈ g.alive.keys := by
  rw [VecMap.mem_keys, get_remake]
  by_cases h : k ∈ g.alive.keys
  · simp [h]
  · simp [h]

variable (hasList : ℕ → Bool)

/-- Whether an executor is alive and shares its work. -/
def shares (g : GlobalState) (id : ℕ) : Bool := decide (id ∈ g.alive.keys) && hasList id

/-- The global state is the one of the executors that were registered in this order. -/
structure Consistent (g : GlobalState) (order : List ℕ) : Prop where
  nodup : order.Nodup
  alive : ∀ i ∈ g.alive.keys, i ∈ order
  lists : g.lists = order.filter (g.shares hasList)

variable {hasList} {g : GlobalState} {order : List ℕ} {id : ℕ}

theorem Consistent.registerLocalExecutor (h : g.Consistent hasList order) (hid : id ∉ order) :
    (g.registerLocalExecutor id (hasList id)).Consistent hasList (order ++ [id]) where
  nodup := by
    refine h.nodup.append (List.nodup_singleton id) ?_
    intro i hi hi'
    exact hid (List.mem_singleton.mp hi' ▸ hi)
  alive := by
    intro i hi
    rcases mem_keys_register.mp hi with rfl | hi
    · exact List.mem_append_right _ (List.mem_singleton_self i)
    · exact List.mem_append_left _ (h.alive i hi)
  lists := by
    -- The executors registered before share as they did.
    have hold : order.filter ((g.registerLocalExecutor id (hasList id)).shares hasList) =
        g.lists := by
      rw [h.lists]
      refine List.filter_congr fun i hi => ?_
      have hne : i ≠ id := fun heq => hid (heq ▸ hi)
      simp [shares, mem_keys_register, hne]
    have hself : (g.registerLocalExecutor id (hasList id)).shares hasList id = hasList id := by
      simp [shares, mem_keys_register]
    rw [List.filter_append, hold, List.filter_singleton, hself]
    show (if hasList id then g.lists ++ [id] else g.lists) = _
    cases hasList id with
    | true => rfl
    | false => simp

theorem Consistent.stopExecutor (h : g.Consistent hasList order) (id : ℕ) :
    (g.stopExecutor id).Consistent hasList order where
  nodup := h.nodup
  alive := fun i hi => h.alive i (mem_keys_stopExecutor.mp hi).2
  lists := by
    show g.lists.filter (· != id) = _
    rw [h.lists, List.filter_filter]
    refine List.filter_congr fun i _ => ?_
    by_cases hi : i = id
    · simp [shares, mem_keys_stopExecutor, hi]
    · simp [shares, mem_keys_stopExecutor, hi]

theorem Consistent.stopAllExecutors (h : g.Consistent hasList order) :
    g.stopAllExecutors.Consistent hasList order where
  nodup := h.nodup
  alive := fun i hi => absurd hi not_mem_keys_stopAllExecutors
  lists := by
    symm
    refine List.filter_eq_nil_iff.mpr fun i _ => ?_
    simp [shares, not_mem_keys_stopAllExecutors]

end GlobalState

open GlobalState

namespace SubscribedState

/-- The lookup finds an executor that has a list, and what comes after it moves to the front. -/
theorem validateTasksLists_append (before after : List ℕ) {id : ℕ} (h : id ∉ before) :
    validateTasksLists (before ++ id :: after) id = some (after ++ before) := by
  have hidx : (before ++ id :: after).idxOf? id = some before.length := by
    rw [List.idxOf?_eq_some_iff]
    refine ⟨by simp, by simp, ?_⟩
    intro j hj
    rw [List.getElem_append_left hj]
    intro heq
    exact h (heq ▸ List.getElem_mem hj)
  simp only [validateTasksLists, hidx]
  split
  case isTrue hlen =>
    obtain ⟨rfl, rfl⟩ : before = [] ∧ after = [] := by
      simpa [← Nat.add_assoc] using hlen
    rfl
  case isFalse =>
    rw [List.eraseIdx_append_of_length_le le_rfl, Nat.sub_self, List.eraseIdx_cons_zero,
      List.rotate_append_length_eq]

variable (hasList : ℕ → Bool)

/-- The image of an executor is up to date. -/
structure Fresh (g : GlobalState) (order : List ℕ) (id : ℕ) (s : SubscribedState) : Prop where
  stopped : id ∉ g.alive.keys → s.isStopped = true
  lists : id ∈ g.alive.keys → ∀ tasksLists, s.tasksLists = some tasksLists →
    ∃ before after, order = before ++ id :: after ∧
      tasksLists = after.filter (g.shares hasList) ++ before.filter (g.shares hasList)
  executors : id ∈ g.alive.keys → ∀ i, i ∈ s.executorsTaskLists.keys ↔ i ∈ g.alive.keys

variable {hasList} {g : GlobalState} {order : List ℕ} {id : ℕ} {s : SubscribedState}

/-- What `validate_tasks_lists` makes of the lists of a global state in which the executor is alive
and has a list. -/
theorem validateTasksLists_lists (h : g.Consistent hasList order) (halive : id ∈ g.alive.keys)
    (hlist : hasList id = true) :
    ∃ before after, order = before ++ id :: after ∧ validateTasksLists g.lists id =
      some (after.filter (g.shares hasList) ++ before.filter (g.shares hasList)) := by
  obtain ⟨before, after, rfl⟩ := List.append_of_mem (h.alive id halive)
  refine ⟨before, after, rfl, ?_⟩
  have hbefore : id ∉ before := by
    intro hmem
    exact (List.nodup_append.mp h.nodup).2.2 id hmem id List.mem_cons_self rfl
  have hself : g.shares hasList id = true := by simp [shares, halive, hlist]
  rw [h.lists, List.filter_append, List.filter_cons_of_pos hself]
  exact validateTasksLists_append _ _ fun hmem => hbefore (List.mem_filter.mp hmem).1

/-- An image only lists other executors that were registered. -/
def Listed (order : List ℕ) (id : ℕ) (s : SubscribedState) : Prop :=
  ∀ tasksLists, s.tasksLists = some tasksLists → ∀ i ∈ tasksLists, i ∈ order ∧ i ≠ id

theorem listed_of_image {f : ℕ → Bool} {before after : List ℕ} (horder : order.Nodup)
    (heq : order = before ++ id :: after)
    (hs : s.tasksLists = some (after.filter f ++ before.filter f)) : s.Listed order id := by
  rintro tasksLists hlists i hi
  cases hs.symm.trans hlists
  have hmem : i ∈ after ∨ i ∈ before := by
    rcases List.mem_append.mp hi with hi | hi
    · exact .inl (List.mem_filter.mp hi).1
    · exact .inr (List.mem_filter.mp hi).1
  obtain ⟨-, hafter, hdisjoint⟩ := List.nodup_append.mp (heq ▸ horder)
  rcases hmem with hi | hi
  · refine ⟨by simp [heq, hi], ?_⟩
    rintro rfl
    exact (List.nodup_cons.mp hafter).1 hi
  · refine ⟨by simp [heq, hi], ?_⟩
    rintro rfl
    exact hdisjoint i hi i List.mem_cons_self rfl

/-- The lookup of a registration finds the list that was pushed just before. -/
theorem exists_register (h : g.Consistent hasList order) (hid : id ∉ order)
    (hnone : s.tasksLists = none) :
    ∃ s', s.register (g.registerLocalExecutor id (hasList id)) id (hasList id) = some s' ∧
      s'.currentVersion = g.version + 1 ∧ s'.processedVersion = s.processedVersion ∧
      s'.tasksLists.isSome = hasList id ∧ s'.Listed order id ∧ s'.isStopped = false := by
  cases hlist : hasList id with
  | false =>
    refine ⟨_, rfl, rfl, rfl, ?_, ?_, rfl⟩
    · show s.tasksLists.isSome = false
      rw [hnone]
      rfl
    · intro tasksLists hlists
      cases hnone.symm.trans hlists
  | true =>
    have hcons := h.registerLocalExecutor hid
    rw [hlist] at hcons
    obtain ⟨before, after, horder, hvalid⟩ :=
      validateTasksLists_lists hcons (mem_keys_register.mpr (.inl rfl)) hlist
    simp only [register, if_true, hvalid]
    refine ⟨_, rfl, rfl, rfl, rfl, ?_, rfl⟩
    intro tasksLists hlists i hi
    obtain ⟨hmem, hne⟩ := listed_of_image hcons.nodup horder rfl tasksLists hlists i hi
    rcases List.mem_append.mp hmem with hmem | hmem
    · exact ⟨hmem, hne⟩
    · exact absurd (List.mem_singleton.mp hmem) hne

/-- The locked part of a check brings the image up to date. -/
theorem exists_update (h : g.Consistent hasList order)
    (hlist : s.tasksLists.isSome = hasList id) (hlisted : s.Listed order id)
    (hstopped : s.isStopped = true → id ∉ g.alive.keys) :
    ∃ s', s.update g id = some s' ∧ s'.currentVersion = s.currentVersion ∧
      s'.processedVersion = s.processedVersion ∧ s'.tasksLists.isSome = hasList id ∧
      s'.Listed order id ∧ (s'.isStopped = true → id ∉ g.alive.keys) ∧
      Fresh hasList g order id s' := by
  simp only [update]
  by_cases halive : id ∈ g.alive.keys
  · rw [if_pos (by simpa using halive)]
    by_cases hsome : s.tasksLists.isSome = true
    · obtain ⟨before, after, horder, hvalid⟩ :=
        validateTasksLists_lists h halive (hlist ▸ hsome)
      rw [if_pos hsome, hvalid]
      refine ⟨_, rfl, rfl, rfl, hlist ▸ hsome.symm, listed_of_image h.nodup horder rfl,
        hstopped, absurd halive, ?_, ?_⟩
      · rintro - tasksLists ⟨⟩
        exact ⟨before, after, horder, rfl⟩
      · intro _ i
        exact mem_keys_remake _ _ _ i
    · rw [if_neg hsome]
      refine ⟨_, rfl, rfl, rfl, hlist, hlisted, hstopped, absurd halive, ?_, ?_⟩
      · intro _ tasksLists heq
        have hnone : s.tasksLists = some tasksLists := heq
        rw [hnone] at hsome
        exact absurd rfl hsome
      · intro _ i
        exact mem_keys_remake _ _ _ i
  · rw [if_neg (by simpa using halive)]
    exact ⟨_, rfl, rfl, rfl, hlist, hlisted, fun _ => halive, fun _ => rfl,
      fun h => absurd h halive, fun h => absurd h halive⟩

end SubscribedState

open SubscribedState

namespace Executors

variable (hasList : ℕ → Bool)

/-- The version of the last operation, finished or not. -/
def latest (w : Executors) : ℕ :=
  match w.pending with
  | none => w.global.version
  | some op => op.result.version

/-- What holds while an operation has the lock. -/
structure Progress (w : Executors) (op : Operation) : Prop where
  consistent : op.result.Consistent hasList (w.order ++ op.registers.toList)
  version : op.result.version = w.global.version + 1
  alive : ∀ i ∈ op.result.alive.keys, i ∈ w.global.alive.keys ∨ op.registers = some i
  registers : ∀ i, w.phase i = .registering ↔ op.registers = some i
  registered : ∀ i, op.registers = some i → (w.states i).currentVersion = op.result.version
  nodup : op.stores.Nodup
  /-- The executors that are not to be stored to any more have the new version. -/
  stored : ∀ i ∈ w.global.alive.keys, i ∉ op.stores →
    (w.states i).currentVersion = op.result.version
  /-- Nobody outside of a check has processed the new version. -/
  processed_le : ∀ i v, w.phase i = .running → (w.states i).processedVersion = some v →
    v ≤ w.global.version

structure Sound (w : Executors) : Prop where
  panicked : w.panicked = false
  consistent : w.global.Consistent hasList w.order
  mem_order : ∀ i, i ∈ w.order ↔ w.phase i = .running ∨ w.phase i = .checking
  unregistered : ∀ i, w.phase i = .unregistered → (w.states i).tasksLists = none
  unprocessed : ∀ i, w.phase i = .unregistered ∨ w.phase i = .registering →
    (w.states i).processedVersion = none
  isSome_lists : ∀ i, w.phase i ≠ .unregistered → (w.states i).tasksLists.isSome = hasList i
  listed : ∀ i, (w.states i).Listed w.order i
  stopped : ∀ i, (w.states i).isStopped = true → i ∈ w.order ∧ i ∉ w.global.alive.keys
  current_le : ∀ i, w.phase i ≠ .unregistered → (w.states i).currentVersion ≤ w.latest
  processed_le : ∀ i v, (w.states i).processedVersion = some v → v ≤ (w.states i).currentVersion
  free : w.pending = none → (∀ i, w.phase i ≠ .registering) ∧
    ∀ i ∈ w.global.alive.keys, (w.states i).currentVersion = w.global.version
  busy : ∀ op, w.pending = some op → Progress hasList w op
  fresh : ∀ i, w.phase i = .running →
    (w.states i).processedVersion = some (w.states i).currentVersion →
    Fresh hasList w.global w.order i (w.states i)

/-- What the invariant says of one executor. -/
structure SoundAt (g : GlobalState) (order : List ℕ) (latest i : ℕ) (s : SubscribedState)
    (p : Phase) : Prop where
  mem_order : i ∈ order ↔ p = .running ∨ p = .checking
  unregistered : p = .unregistered → s.tasksLists = none
  unprocessed : p = .unregistered ∨ p = .registering → s.processedVersion = none
  isSome_lists : p ≠ .unregistered → s.tasksLists.isSome = hasList i
  listed : s.Listed order i
  stopped : s.isStopped = true → i ∈ order ∧ i ∉ g.alive.keys
  current_le : p ≠ .unregistered → s.currentVersion ≤ latest
  processed_le : ∀ v, s.processedVersion = some v → v ≤ s.currentVersion
  fresh : p = .running → s.processedVersion = some s.currentVersion → Fresh hasList g order i s

variable {hasList} {w : Executors}

theorem sound_init : Sound hasList .init where
  panicked := rfl
  consistent := ⟨List.nodup_nil, fun i hi => absurd hi List.not_mem_nil, rfl⟩
  mem_order := fun i => by simp [init]
  unregistered := fun i _ => rfl
  unprocessed := fun i _ => rfl
  isSome_lists := fun i hi => absurd rfl hi
  listed := by rintro i tasksLists ⟨⟩
  stopped := by rintro i ⟨⟩
  current_le := fun i hi => absurd rfl hi
  processed_le := by rintro i v ⟨⟩
  free := fun _ => ⟨fun i hi => Phase.noConfusion hi, fun i hi => absurd hi List.not_mem_nil⟩
  busy := by rintro op ⟨⟩
  fresh := fun i hi => Phase.noConfusion hi

variable {i id : ℕ} {g : GlobalState} {s : SubscribedState} {p : Phase} {w' : Executors}
  {a : Action}

theorem Sound.not_mem_order (h : Sound hasList w) (hi : w.phase i = .unregistered) :
    i ∉ w.order := by
  rw [h.mem_order, hi]
  simp

theorem latest_of_none (h : w.pending = none) : w.latest = w.global.version := by
  rw [latest, h]

/-- What an executor that is registered has processed, if nobody has the lock. -/
theorem Sound.le_version {v : ℕ} (h : Sound hasList w) (hfree : w.pending = none)
    (hi : w.phase i ≠ .unregistered) (hv : (w.states i).processedVersion = some v) :
    v ≤ w.global.version := by
  have hle := h.current_le i hi
  rw [latest_of_none hfree] at hle
  exact (h.processed_le i v hv).trans hle

theorem Sound.stop (h : Sound hasList w) (hfree : w.pending = none)
    (hg : g.Consistent hasList w.order) (hversion : g.version = w.global.version + 1)
    (halive : ∀ i ∈ g.alive.keys, i ∈ w.global.alive.keys) :
    Sound hasList { w with pending := some ⟨g, w.global.alive.keys, none⟩ } where
  panicked := h.panicked
  consistent := h.consistent
  mem_order := h.mem_order
  unregistered := h.unregistered
  unprocessed := h.unprocessed
  isSome_lists := h.isSome_lists
  listed := h.listed
  stopped := h.stopped
  current_le := by
    intro i hi
    have hle := h.current_le i hi
    rw [latest_of_none hfree] at hle
    show (w.states i).currentVersion ≤ g.version
    omega
  processed_le := h.processed_le
  free := by rintro ⟨⟩
  busy := by
    rintro op ⟨⟩
    refine ⟨?_, hversion, fun i hi => .inl (halive i hi), ?_, ?_,
      w.global.alive.keys_nodup, fun i hi hnot => absurd hi hnot, ?_⟩
    · rw [Option.toList_none, List.append_nil]
      exact hg
    · intro i
      constructor
      · intro hi
        exact absurd hi ((h.free hfree).1 i)
      · rintro ⟨⟩
    · rintro i ⟨⟩
    · intro i v hi hv
      have hne : w.phase i ≠ .unregistered := fun hun => Phase.noConfusion (hi.symm.trans hun)
      exact h.le_version hfree hne hv
  fresh := h.fresh

theorem forall_set {P : ℕ → SubscribedState → Phase → Prop} (hid : P id s p)
    (hother : ∀ i, P i (w.states i) (w.phase i)) (i : ℕ) :
    P i ((w.set id s p).states i) ((w.set id s p).phase i) := by
  simp only [set]
  by_cases hi : i = id
  · subst hi
    rw [Function.update_self, Function.update_self]
    exact hid
  · rw [Function.update_of_ne hi, Function.update_of_ne hi]
    exact hother i

theorem Sound.at (h : Sound hasList w) (i : ℕ) :
    SoundAt hasList w.global w.order w.latest i (w.states i) (w.phase i) :=
  ⟨h.mem_order i, h.unregistered i, h.unprocessed i, h.isSome_lists i, h.listed i, h.stopped i,
    h.current_le i, h.processed_le i, h.fresh i⟩

theorem sound_of_at (hpanicked : w.panicked = false)
    (hconsistent : w.global.Consistent hasList w.order)
    (hat : ∀ i, SoundAt hasList w.global w.order w.latest i (w.states i) (w.phase i))
    (hfree : w.pending = none → (∀ i, w.phase i ≠ .registering) ∧
      ∀ i ∈ w.global.alive.keys, (w.states i).currentVersion = w.global.version)
    (hbusy : ∀ op, w.pending = some op → Progress hasList w op) : Sound hasList w :=
  ⟨hpanicked, hconsistent, fun i => (hat i).mem_order, fun i => (hat i).unregistered,
    fun i => (hat i).unprocessed, fun i => (hat i).isSome_lists, fun i => (hat i).listed,
    fun i => (hat i).stopped, fun i => (hat i).current_le, fun i => (hat i).processed_le, hfree,
    hbusy, fun i => (hat i).fresh⟩

theorem Sound.register (h : Sound hasList w) (hphase : w.phase id = .unregistered)
    (hfree : w.pending = none) (hcurrent : s.currentVersion = w.global.version + 1)
    (hprocessed : s.processedVersion = none) (hlist : s.tasksLists.isSome = hasList id)
    (hlisted : s.Listed w.order id) (hstopped : s.isStopped = false) :
    Sound hasList ({ w with
      pending := some ⟨w.global.registerLocalExecutor id (hasList id),
        (w.global.registerLocalExecutor id (hasList id)).alive.keys, some id⟩ }.set
      id s .registering) := by
  refine sound_of_at h.panicked h.consistent ?_ (by rintro ⟨⟩) ?_
  · refine forall_set (P := SoundAt hasList w.global w.order (w.global.version + 1)) ?_ fun i => ?_
    · exact
        { mem_order := by simp [h.mem_order, hphase]
          unregistered := by simp
          unprocessed := fun _ => hprocessed
          isSome_lists := fun _ => hlist
          listed := hlisted
          stopped := by simp [hstopped]
          current_le := fun _ => hcurrent.le
          processed_le := by simp [hprocessed]
          fresh := by simp }
    · -- Another executor is as it was, and its version is at most the one before the operation.
      refine { h.at i with current_le := fun hi => ?_ }
      have hle := h.current_le i hi
      rw [latest_of_none hfree] at hle
      exact hle.trans (Nat.le_succ _)
  · rintro op ⟨⟩
    refine ⟨h.consistent.registerLocalExecutor (h.not_mem_order hphase), rfl, ?_, ?_, ?_,
      VecMap.keys_nodup _, ?_, ?_⟩
    · intro i hi
      rcases mem_keys_register.mp hi with rfl | hi
      · exact .inr rfl
      · exact .inl hi
    · intro i
      by_cases hi : i = id
      · simp [set, hi]
      · simpa [set, hi, Ne.symm hi] using (h.free hfree).1 i
    · rintro i ⟨⟩
      simp [set, hcurrent, registerLocalExecutor]
    · intro i hi hnot
      exact absurd (mem_keys_register.mpr (.inr hi)) hnot
    · refine forall_set (P := fun _ s p => ∀ v, p = .running → s.processedVersion = some v →
        v ≤ w.global.version) (by simp) ?_
      intro i v hrun hv
      have hne : w.phase i ≠ .unregistered := by
        rw [hrun]
        decide
      exact h.le_version hfree hne hv

theorem Sound.set (h : Sound hasList w) (hphase : w.phase id = .running ∨ w.phase id = .checking)
    (hp : p = .running ∨ p = .checking) (hlist : s.tasksLists.isSome = hasList id)
    (hlisted : s.Listed w.order id) (hstopped : s.isStopped = true → id ∉ w.global.alive.keys)
    (hcurrent : s.currentVersion = (w.states id).currentVersion)
    (hprocessed : ∀ v, s.processedVersion = some v → v ≤ s.currentVersion) (hrunning : p =
    .running → w.pending = none ∧ (s.processedVersion = some s.currentVersion → Fresh hasList
    w.global w.order id s)) : Sound hasList (w.set id s p) := by
  have hun : w.phase id ≠ .unregistered := by rcases hphase with h | h <;> simp [h]
  have hpun : p ≠ .unregistered := by rcases hp with h | h <;> simp [h]
  have hpreg : p ≠ .registering := by rcases hp with h | h <;> simp [h]
  have hreg : w.phase id ≠ .registering := by rcases hphase with h | h <;> simp [h]
  have horder : id ∈ w.order := (h.mem_order id).mpr hphase
  have hstates : ∀ i, ((w.set id s p).states i).currentVersion = (w.states i).currentVersion :=
    forall_set (P := fun i s _ => s.currentVersion = (w.states i).currentVersion) hcurrent
      fun _ => rfl
  have hregistering : ∀ i, (w.set id s p).phase i = .registering ↔ w.phase i = .registering :=
    forall_set (P := fun i _ p => p = .registering ↔ w.phase i = .registering)
      (iff_of_false hpreg hreg) fun _ => Iff.rfl
  refine sound_of_at h.panicked h.consistent ?_ ?_ ?_
  · refine forall_set (P := SoundAt hasList w.global w.order w.latest) ?_ h.at
    exact
      { mem_order := iff_of_true horder hp
        unregistered := fun hun => absurd hun hpun
        unprocessed := by simp [hpun, hpreg]
        isSome_lists := fun _ => hlist
        listed := hlisted
        stopped := fun hs => ⟨horder, hstopped hs⟩
        current_le := fun _ => hcurrent.le.trans (h.current_le id hun)
        processed_le := hprocessed
        fresh := fun hrun => (hrunning hrun).2 }
  · intro hnone
    obtain ⟨hfree, hversion⟩ := h.free hnone
    refine ⟨fun i hi => hfree i ((hregistering i).mp hi), fun i hi => ?_⟩
    rw [hstates]
    exact hversion i hi
  · intro op hop
    have hb := h.busy op hop
    refine ⟨hb.consistent, hb.version, hb.alive, fun i => (hregistering i).trans (hb.registers i),
      fun i hi => (hstates i).trans (hb.registered i hi), hb.nodup,
      fun i hi hnot => (hstates i).trans (hb.stored i hi hnot), ?_⟩
    refine forall_set (P := fun _ s p => ∀ v, p = .running → s.processedVersion = some v →
      v ≤ w.global.version) ?_ hb.processed_le
    -- Nobody ends a check while an operation has the lock.
    intro v hrun
    have hnone : w.pending = none := (hrunning hrun).1
    rw [show w.pending = some op from hop] at hnone
    cases hnone

theorem Sound.setVersion {rest : List ℕ} {registers : Option ℕ} (h : Sound hasList w)
    (hop : w.pending = some ⟨g, id :: rest, registers⟩) :
    Sound hasList { w with
      states := Function.update w.states id { w.states id with currentVersion := g.version }
      pending := some ⟨g, rest, registers⟩ } := by
  have hb := h.busy _ hop
  have hlatest : w.latest = g.version := by rw [latest, hop]
  have hversion : g.version = w.global.version + 1 := hb.version
  -- Only the version of one executor changes.
  have hset {P : ℕ → SubscribedState → Prop}
      (hid : P id { w.states id with currentVersion := g.version })
      (hother : ∀ i, P i (w.states i)) (i : ℕ) :
      P i (Function.update w.states id { w.states id with currentVersion := g.version } i) :=
    (Function.forall_update_iff w.states P).mpr ⟨hid, fun i _ => hother i⟩ i
  refine sound_of_at h.panicked h.consistent ?_ (by rintro ⟨⟩) ?_
  · refine hset (P := fun i s => SoundAt hasList w.global w.order g.version i s (w.phase i)) ?_
      fun i => hlatest ▸ h.at i
    refine { h.at id with current_le := fun _ => le_rfl, processed_le := ?_, fresh := ?_ }
    · intro v hv
      have hne : w.phase id ≠ .unregistered := by
        intro hun
        rw [h.unprocessed id (.inl hun)] at hv
        cases hv
      have hle := h.current_le id hne
      rw [hlatest] at hle
      exact (h.processed_le id v hv).trans hle
    · -- The executor has not processed this version: it is behind now.
      intro hrun hv
      have hle := hb.processed_le id g.version hrun hv
      omega
  · rintro op ⟨⟩
    refine ⟨hb.consistent, hb.version, hb.alive, hb.registers, ?_, hb.nodup.of_cons, ?_, ?_⟩
    · exact hset (P := fun i s => registers = some i → s.currentVersion = g.version)
        (fun _ => rfl) hb.registered
    · intro i halive hnot
      by_cases hi : i = id
      · simp [hi]
      · simpa [hi] using hb.stored i halive (by simp [hi, hnot])
    · exact hset (P := fun i s => ∀ v, w.phase i = .running → s.processedVersion = some v →
        v ≤ w.global.version) (hb.processed_le id) hb.processed_le

theorem Sound.unlock {registers : Option ℕ} (h : Sound hasList w)
    (hop : w.pending = some ⟨g, [], registers⟩) :
    Sound hasList { w with
      global := g
      pending := none
      phase := fun id => if registers = some id then .running else w.phase id
      order := w.order ++ registers.toList } := by
  have hb := h.busy _ hop
  have hlatest : w.latest = g.version := by rw [latest, hop]
  have hversion : g.version = w.global.version + 1 := hb.version
  refine sound_of_at h.panicked hb.consistent (fun i => ?_) (fun _ => ⟨fun i => ?_, fun i hi => ?_⟩)
    (by rintro op ⟨⟩)
  · have hlisted : (w.states i).Listed (w.order ++ registers.toList) i := by
      intro tasksLists hlists j hj
      have hlisted := h.listed i tasksLists hlists j hj
      exact ⟨List.mem_append_left _ hlisted.1, hlisted.2⟩
    have hstopped : (w.states i).isStopped = true →
        i ∈ w.order ++ registers.toList ∧ i ∉ g.alive.keys := by
      intro hi
      obtain ⟨horder, hdead⟩ := h.stopped i hi
      refine ⟨List.mem_append_left _ horder, fun halive => ?_⟩
      rcases hb.alive i halive with halive | hreg
      · exact hdead halive
      · rw [h.mem_order, (hb.registers i).mpr hreg] at horder
        simp at horder
    by_cases hi : registers = some i
    · -- The executor that was registered has not processed any version.
      have hphase : w.phase i = .registering := (hb.registers i).mpr hi
      have hne : w.phase i ≠ .unregistered := by simp [hphase]
      have hnew := h.unprocessed i (.inr hphase)
      simp only [hi, if_true]
      exact
        { mem_order := by simp
          unregistered := by simp
          unprocessed := by simp
          isSome_lists := fun _ => h.isSome_lists i hne
          listed := hi ▸ hlisted
          stopped := hi ▸ hstopped
          current_le := fun _ => (h.current_le i hne).trans hlatest.le
          processed_le := h.processed_le i
          fresh := by simp [hnew] }
    · simp only [hi, if_false]
      refine
        { h.at i with
          mem_order := by simp [hi, h.mem_order i]
          listed := hlisted
          stopped := hstopped
          current_le := fun hne => (h.current_le i hne).trans hlatest.le
          fresh := fun hrun hv => ?_ }
      have hle : (w.states i).currentVersion ≤ w.global.version := hb.processed_le i _ hrun hv
      -- An executor that was alive has the new version, and is behind.
      have hdead : i ∉ w.global.alive.keys := by
        intro halive
        have heq : (w.states i).currentVersion = g.version := hb.stored i halive List.not_mem_nil
        omega
      have hdead' : i ∉ g.alive.keys := by
        intro halive
        rcases hb.alive i halive with halive | hreg
        · exact hdead halive
        · exact hi hreg
      exact ⟨fun _ => (h.fresh i hrun hv).stopped hdead, fun halive => absurd halive hdead',
        fun halive => absurd halive hdead'⟩
  · by_cases hi : registers = some i
    · simp [hi]
    · simp [hi, hb.registers i]
  · rcases hb.alive i hi with halive | hreg
    · exact hb.stored i halive List.not_mem_nil
    · exact hb.registered i hreg

inductive Effect (hasList : ℕ → Bool) (w : Executors) : Action → Executors → Prop
  | register {id : ℕ} {s : SubscribedState} (phase : w.phase id = .unregistered)
    (free : w.pending = none)
    (state : (w.states id).register (w.global.registerLocalExecutor id (hasList id)) id
      (hasList id) = some s) :
    Effect hasList w (.register id) ({ w with
      pending := some ⟨w.global.registerLocalExecutor id (hasList id),
        (w.global.registerLocalExecutor id (hasList id)).alive.keys, some id⟩ }.set
      id s .registering)
  | registerFails {id : ℕ} (phase : w.phase id = .unregistered)
    (state : (w.states id).register (w.global.registerLocalExecutor id (hasList id)) id
      (hasList id) = none) :
    Effect hasList w (.register id) { w with panicked := true }
  | stopExecutor (id : ℕ) (free : w.pending = none) :
    Effect hasList w (.stopExecutor id)
      { w with pending := some ⟨w.global.stopExecutor id, w.global.alive.keys, none⟩ }
  | stopAllExecutors (free : w.pending = none) :
    Effect hasList w .stopAllExecutors
      { w with pending := some ⟨w.global.stopAllExecutors, w.global.alive.keys, none⟩ }
  | setVersion {g : GlobalState} {id : ℕ} {rest : List ℕ} {registers : Option ℕ}
    (op : w.pending = some ⟨g, id :: rest, registers⟩) :
    Effect hasList w .setVersion { w with
      states := Function.update w.states id { w.states id with currentVersion := g.version }
      pending := some ⟨g, rest, registers⟩ }
  | unlock {g : GlobalState} {registers : Option ℕ} (op : w.pending = some ⟨g, [], registers⟩) :
    Effect hasList w .unlock { w with
      global := g
      pending := none
      phase := fun id => if registers = some id then .running else w.phase id
      order := w.order ++ registers.toList }
  | processed {id : ℕ} : Effect hasList w (.checkVersion id) w
  | checkVersion {id : ℕ} (phase : w.phase id = .running) :
    Effect hasList w (.checkVersion id) (w.set id
      { w.states id with processedVersion := some (w.states id).currentVersion } .checking)
  | update {id : ℕ} {s : SubscribedState} (phase : w.phase id = .checking)
    (free : w.pending = none) (state : (w.states id).update w.global id = some s) :
    Effect hasList w (.update id) (w.set id s .running)
  | updateFails {id : ℕ} (phase : w.phase id = .checking)
    (state : (w.states id).update w.global id = none) :
    Effect hasList w (.update id) { w with panicked := true }

theorem effect_of_step (hstep : w.step hasList a = some w') : Effect hasList w a w' := by
  cases a with
  | register id =>
    obtain ⟨hif, hstep⟩ := Option.ite_none_right_eq_some.mp hstep
    split at hstep
    case h_1 hs =>
      cases hstep
      exact .registerFails hif.1 hs
    case h_2 s hs =>
      cases hstep
      exact .register hif.1 (Option.isNone_iff_eq_none.mp hif.2) hs
  | stopExecutor id =>
    obtain ⟨hif, rfl⟩ := of_guard hstep
    exact .stopExecutor id (Option.isNone_iff_eq_none.mp hif)
  | stopAllExecutors =>
    obtain ⟨hif, rfl⟩ := of_guard hstep
    exact .stopAllExecutors (Option.isNone_iff_eq_none.mp hif)
  | setVersion =>
    simp only [step] at hstep
    split at hstep
    case h_1 hop =>
      cases hstep
      exact .setVersion hop
    case h_2 => cases hstep
  | unlock =>
    simp only [step] at hstep
    split at hstep
    case h_1 hop =>
      cases hstep
      exact .unlock hop
    case h_2 => cases hstep
  | checkVersion id =>
    obtain ⟨hphase, hstep⟩ := Option.ite_none_right_eq_some.mp hstep
    split at hstep
    · cases hstep
      exact .processed
    · cases hstep
      exact .checkVersion hphase
  | update id =>
    obtain ⟨hif, hstep⟩ := Option.ite_none_right_eq_some.mp hstep
    split at hstep
    case h_1 hs =>
      cases hstep
      exact .updateFails hif.1 hs
    case h_2 s hs =>
      cases hstep
      exact .update hif.1 (Option.isNone_iff_eq_none.mp hif.2) hs

theorem Sound.effect (h : Sound hasList w) (heffect : Effect hasList w a w') :
    Sound hasList w' := by
  cases heffect with
  | @register id s phase free state =>
    obtain ⟨s', hs, hcurrent, hprocessed, hlist, hlisted, hstopped⟩ :=
      exists_register h.consistent (h.not_mem_order phase) (h.unregistered id phase)
    cases state.symm.trans hs
    exact h.register phase free hcurrent (hprocessed.trans (h.unprocessed id (.inl phase)))
      hlist hlisted hstopped
  | @registerFails id phase state =>
    obtain ⟨s', hs, -⟩ :=
      exists_register h.consistent (h.not_mem_order phase) (h.unregistered id phase)
    cases state.symm.trans hs
  | stopExecutor id free =>
    exact h.stop free (h.consistent.stopExecutor id) rfl
      fun i hi => (mem_keys_stopExecutor.mp hi).2
  | stopAllExecutors free =>
    exact h.stop free h.consistent.stopAllExecutors rfl
      fun i hi => absurd hi not_mem_keys_stopAllExecutors
  | setVersion op => exact h.setVersion op
  | unlock op => exact h.unlock op
  | processed => exact h
  | @checkVersion id phase =>
    refine h.set (.inl phase) (.inr rfl) (h.isSome_lists id (by simp [phase])) (h.listed id)
      (fun hs => (h.stopped id hs).2) rfl ?_ ?_
    · rintro v ⟨⟩
      exact le_rfl
    · rintro ⟨⟩
  | @update id s phase free state =>
    obtain ⟨s', hs, hcurrent, hprocessed, hlist, hlisted, hstopped, hfresh⟩ :=
      exists_update h.consistent (h.isSome_lists id (by simp [phase])) (h.listed id)
        fun hs => (h.stopped id hs).2
    cases state.symm.trans hs
    refine h.set (.inr phase) (.inl rfl) hlist hlisted hstopped hcurrent ?_ ?_
    · intro v hv
      rw [hcurrent]
      exact h.processed_le id v (hprocessed ▸ hv)
    · exact fun _ => ⟨free, fun _ => hfresh⟩
  | @updateFails id phase state =>
    obtain ⟨s', hs, -⟩ :=
      exists_update h.consistent (h.isSome_lists id (by simp [phase])) (h.listed id)
        fun hs => (h.stopped id hs).2
    cases state.symm.trans hs

theorem Sound.step (h : Sound hasList w) (hstep : w.step hasList a = some w') : Sound hasList w' :=
  h.effect (effect_of_step hstep)

theorem sound (h : Reachable (step hasList) .init w) : Sound hasList w :=
  h.invariant sound_init fun _ _ _ _ hw _ hstep => hw.step hstep

/-! ### What a step leaves alone -/

theorem global_of_step (hstep : w.step hasList a = some w') :
    (w'.global = w.global ∧ w'.order = w.order) ∨
    a = .unlock ∧ ∃ op, w.pending = some op ∧ w'.global = op.result ∧
      w'.order = w.order ++ op.registers.toList := by
  cases effect_of_step hstep with
  | unlock op => exact .inr ⟨rfl, _, op, rfl, rfl⟩
  | register | registerFails | stopExecutor | stopAllExecutors | setVersion | processed
  | checkVersion | update | updateFails => exact .inl ⟨rfl, rfl⟩

/-- An executor that was registered stays so, and once it is not alive it never is again. -/
theorem Sound.order_alive_of_step (h : Sound hasList w) (hstep : w.step hasList a = some w')
    (hi : i ∈ w.order) : i ∈ w'.order ∧ (i ∈ w'.global.alive.keys → i ∈ w.global.alive.keys) := by
  rcases global_of_step hstep with ⟨hglobal, horder⟩ | ⟨-, op, hop, hglobal, horder⟩
  · rw [hglobal, horder]
    exact ⟨hi, id⟩
  · rw [hglobal, horder]
    refine ⟨List.mem_append_left _ hi, fun halive => ?_⟩
    rcases (h.busy op hop).alive i halive with halive | hreg
    · exact halive
    · -- The executor that is registered now was not registered before.
      rw [h.mem_order, ((h.busy op hop).registers i).mpr hreg] at hi
      simp at hi

theorem set_of_ne (h : i ≠ id) :
    (w.set id s p).states i = w.states i ∧ (w.set id s p).phase i = w.phase i :=
  ⟨Function.update_of_ne h _ _, Function.update_of_ne h _ _⟩

theorem phase_of_step (hstep : w.step hasList a = some w') (h : Sound hasList w)
    (hi : w.phase i = .unregistered) (ha : a ≠ .register i) : w'.phase i = .unregistered := by
  cases effect_of_step hstep with
  | @register id | @checkVersion id | @update id =>
    have hne : i ≠ id := by
      rintro rfl
      simp_all
    rw [(set_of_ne hne).2]
    exact hi
  | registerFails | stopExecutor | stopAllExecutors | setVersion | processed | updateFails =>
    exact hi
  | @unlock g registers op =>
    have hne : registers ≠ some i := by
      intro hreg
      rw [((h.busy _ op).registers i).mpr hreg] at hi
      cases hi
    simpa [hne] using hi

/-- What a step does to an executor that is registered: its image changes only when it updates it,
and only if it is alive. -/
theorem image_of_step (hstep : w.step hasList a = some w')
    (hi : w.phase i = .running ∨ w.phase i = .checking) :
    (w'.phase i = .running ∨ w'.phase i = .checking) ∧
    ((w'.states i).tasksLists = (w.states i).tasksLists ∨
      a = .update i ∧ w.phase i = .checking ∧ i ∈ w.global.alive.keys) ∧
    (w.phase i = .running → a ≠ .checkVersion i → w'.phase i = .running) := by
  have hsame : ∀ {w' : Executors}, w'.phase i = w.phase i → w'.states i = w.states i →
      (w'.phase i = .running ∨ w'.phase i = .checking) ∧
      ((w'.states i).tasksLists = (w.states i).tasksLists ∨
        a = .update i ∧ w.phase i = .checking ∧ i ∈ w.global.alive.keys) ∧
      (w.phase i = .running → a ≠ .checkVersion i → w'.phase i = .running) := by
    intro w' hphase hstate
    rw [hphase, hstate]
    exact ⟨hi, .inl rfl, fun h _ => h⟩
  cases effect_of_step hstep with
  | @register id s phase =>
    have hne : i ≠ id := by
      rintro rfl
      simp_all
    exact hsame (set_of_ne hne).2 (set_of_ne hne).1
  | registerFails | stopExecutor | stopAllExecutors | processed | updateFails =>
    exact hsame rfl rfl
  | @setVersion g id rest registers op =>
    refine ⟨hi, .inl ?_, fun h _ => h⟩
    by_cases hid : i = id
    · simp [hid]
    · simp [hid]
  | @unlock g registers op =>
    by_cases hreg : registers = some i
    · simp [hreg]
    · simpa [hreg] using hi
  | @checkVersion id phase =>
    by_cases hne : i = id
    · subst hne
      simp [Executors.set]
    · exact hsame (set_of_ne hne).2 (set_of_ne hne).1
  | @update id s phase free state =>
    by_cases hne : i = id
    · subst hne
      simp only [Executors.set, Function.update_self]
      refine ⟨.inl trivial, ?_, fun _ _ => trivial⟩
      by_cases halive : i ∈ w.global.alive.keys
      · exact .inr ⟨trivial, phase, halive⟩
      · simp only [SubscribedState.update] at state
        rw [if_neg (by simpa using halive)] at state
        cases state
        exact .inl rfl
    · exact hsame (set_of_ne hne).2 (set_of_ne hne).1

/-- An executor that is outside of its check and has processed its version. -/
def Processed (w : Executors) (i : ℕ) : Prop :=
  w.phase i = .running ∧ (w.states i).processedVersion = some (w.states i).currentVersion

/-- Such an executor does not update its image before a version is stored again. -/
theorem Processed.step (h : w.Processed i) (hstep : w.step hasList a = some w')
    (ha : a ≠ .setVersion) : w'.Processed i ∧ a ≠ .update i := by
  have hsame : ∀ {w' : Executors}, w'.phase i = w.phase i → w'.states i = w.states i →
      w'.Processed i := by
    intro w' hphase hstate
    rw [Processed, hphase, hstate]
    exact h
  cases a with
  | setVersion => exact absurd rfl ha
  | checkVersion id =>
    refine ⟨?_, by rintro ⟨⟩⟩
    obtain ⟨-, hstep⟩ := Option.ite_none_right_eq_some.mp hstep
    split at hstep
    case isTrue =>
      cases hstep
      exact h
    case isFalse hbehind =>
      cases hstep
      have hne : i ≠ id := by
        rintro rfl
        exact hbehind h.2
      exact hsame (set_of_ne hne).2 (set_of_ne hne).1
  | register id =>
    refine ⟨?_, by rintro ⟨⟩⟩
    cases effect_of_step hstep with
    | register phase =>
      have hne : i ≠ id := by
        rintro rfl
        rw [h.1] at phase
        cases phase
      exact hsame (set_of_ne hne).2 (set_of_ne hne).1
    | registerFails => exact hsame rfl rfl
  | update id =>
    have hne : w.phase id = .checking → i ≠ id := by
      rintro hphase rfl
      rw [h.1] at hphase
      cases hphase
    cases effect_of_step hstep with
    | update phase =>
      refine ⟨hsame (set_of_ne (hne phase)).2 (set_of_ne (hne phase)).1, fun heq => ?_⟩
      cases heq
      exact hne phase rfl
    | updateFails phase =>
      refine ⟨hsame rfl rfl, fun heq => ?_⟩
      cases heq
      exact hne phase rfl
  | stopExecutor id | stopAllExecutors =>
    refine ⟨?_, by rintro ⟨⟩⟩
    cases effect_of_step hstep
    exact hsame rfl rfl
  | unlock =>
    refine ⟨?_, by rintro ⟨⟩⟩
    cases effect_of_step hstep with
    | @unlock g registers op =>
      by_cases hreg : registers = some i
      · exact ⟨if_pos hreg, h.2⟩
      · exact hsame (if_neg hreg) rfl

/-- In every interleaving, an executor that is outside of its check and has processed its version
knows whether it was stopped; and if it is alive, then its image is that of the global state, with
the lists of the executors registered after it first.  The lookup in `validate_tasks_lists` never
fails. -/
theorem image_up_to_date (h : Reachable (step hasList) .init w) :
    w.panicked = false ∧
    ∀ id, w.phase id = .running →
      (w.states id).processedVersion = some (w.states id).currentVersion →
      (id ∉ w.global.alive.keys → (w.states id).isStopped = true) ∧
      (id ∈ w.global.alive.keys →
        (∀ tasksLists, (w.states id).tasksLists = some tasksLists →
          ∃ before after, w.order = before ++ id :: after ∧
            tasksLists = after.filter (w.global.shares hasList) ++
              before.filter (w.global.shares hasList)) ∧
        ∀ i, i ∈ (w.states id).executorsTaskLists.keys ↔ i ∈ w.global.alive.keys) := by
  have hs := sound h
  refine ⟨hs.panicked, ?_⟩
  intro id hrun hprocessed
  have hfresh := hs.fresh id hrun hprocessed
  exact ⟨hfresh.stopped, fun halive => ⟨hfresh.lists halive, hfresh.executors halive⟩⟩

/-- The steps of an operation that stores its version into the states of `k` executors. -/
def publish (k : ℕ) : List Action := List.replicate k .setVersion ++ [.unlock]

/-- The executor registers itself; with it there are `k` alive executors. -/
def runRegister (id k : ℕ) : List Action := .register id :: publish k

/-- One of `k` alive executors is stopped. -/
def runStop (id k : ℕ) : List Action := .stopExecutor id :: publish k

/-- The executor checks its version and updates its image. -/
def runCheck (id : ℕ) : List Action := [.checkVersion id, .update id]

/-- `u`, `t` and `v` are registered, and `t` loads its version; then `u` is stopped, and only now
`t` gets the lock.  It finds its version changed, and checks again. -/
def lateUpdate (t u v : ℕ) : List Action :=
  runRegister u 1 ++ runRegister t 2 ++ runRegister v 3 ++ [.checkVersion t] ++ runStop u 3 ++
    [.update t] ++ runCheck t

/-- After that only the list of `v` is in the image of `t`. -/
theorem image_up_to_date_lateUpdate :
    ∃ w, Reachable (step fun _ => true) .init w ∧ w.phase 1 = .running ∧
      (w.states 1).processedVersion = some (w.states 1).currentVersion ∧
      (w.states 1).tasksLists = some [2] ∧
      (1 ∈ w.global.alive.keys →
        ∀ i, i ∈ (w.states 1).executorsTaskLists.keys ↔ i ∈ w.global.alive.keys) := by
  have hreach : Reachable (step fun _ => true) .init _ :=
    reachable_of_exec (lateUpdate 1 0 2) rfl
  refine ⟨_, hreach, rfl, rfl, rfl, fun halive => ?_⟩
  exact (((image_up_to_date hreach).2 1 rfl rfl).2 halive).2

end Executors

end Orengine.Runtime
