import Orengine.Runtime.GlobalState.Registry
import Orengine.Runtime.GlobalState.Safety.Subscribed

/-!
# When the keys of the maps of executors are close enough

The length of the vector of a map follows from the keys that were inserted (`grow`), since nothing
shortens it but `clear`.  So `Near` says of a list of keys whether they can be inserted one after
the other.  The map of the global state sees the ids in the order of the registrations, whatever was
stopped in between; the other two see the alive ids from the beginning, every time.
-/

namespace Orengine.Runtime

open Orengine.Utils Orengine.Lib

/-- The length of the vector of a map after the insertion of a key. -/
def grow (length key : ℕ) : ℕ :=
  if length ≤ key then max (key + 1) (length * 12 / 10) else length

/-- All of the keys can be inserted into a vector of this length, one after the other. -/
def Near : ℕ → List ℕ → Prop
  | _, [] => True
  | length, key :: keys => key < length + 100 ∧ Near (grow length key) keys

theorem length_insert {V : Type*} (m : VecMap V) (key : ℕ) (value : V) :
    (m.insert key value).1.inner.length = grow m.inner.length key := by
  simp only [VecMap.insert, grow, List.length_set]
  split
  · rw [List.length_append, List.length_replicate]
    omega
  · rfl

theorem isSome_insertAll (m : VecMap Unit) (keys : List ℕ) :
    (insertAll m keys).isSome ↔ Near m.inner.length keys := by
  induction keys generalizing m with
  | nil => simp [insertAll, exec, Near]
  | cons key keys ih =>
    rw [insertAll, exec, Near, ← length_insert m key ()]
    by_cases hkey : key < m.inner.length + 100
    · rw [VecMap.step, if_pos hkey, Option.map_some, Option.bind_some]
      simp only [hkey, true_and]
      exact ih _
    · rw [VecMap.step, if_neg hkey]
      simp [hkey]

theorem near_concat (length : ℕ) (keys : List ℕ) (key : ℕ) :
    Near length (keys ++ [key]) ↔ Near length keys ∧ key < keys.foldl grow length + 100 := by
  induction keys generalizing length with
  | nil => simp [Near]
  | cons k keys ih => simp only [List.cons_append, Near, ih, List.foldl_cons, and_assoc]

theorem near_of_lt {keys : List ℕ} (h : ∀ key ∈ keys, key < 100) (length : ℕ) :
    Near length keys := by
  induction keys generalizing length with
  | nil => trivial
  | cons key keys ih =>
    rw [List.forall_mem_cons] at h
    exact ⟨by omega, ih h.2 _⟩

namespace Executors

variable {hasList : ℕ → Bool} {w w' : Executors} {a : Action}

/-- The length of the vector of alive executors, after the operation in progress. -/
def aliveLength (w : Executors) : ℕ :=
  ((w.pending.map Operation.result).getD w.global).alive.inner.length

theorem aliveLength_of_none (h : w.pending = none) :
    w.aliveLength = w.global.alive.inner.length := by
  rw [aliveLength, h]
  rfl

theorem aliveLength_of_step (h : Sound hasList w) (hstep : w.step hasList a = some w') :
    (∃ id, a = .register id ∧ w.pending = none ∧ w'.aliveLength = grow w.aliveLength id) ∨
      (∀ id, a ≠ .register id) ∧ w'.aliveLength = w.aliveLength := by
  have hpanicked := (h.step hstep).panicked
  cases effect_of_step hstep with
  | @register id s phase free =>
    refine .inl ⟨id, rfl, free, ?_⟩
    rw [aliveLength_of_none free]
    exact length_insert _ _ _
  | registerFails | updateFails => cases hpanicked
  | stopExecutor id free | stopAllExecutors free =>
    refine .inr ⟨by rintro i ⟨⟩, ?_⟩
    rw [aliveLength_of_none free]
    exact List.length_mapIdx
  | setVersion op | unlock op =>
    refine .inr ⟨by rintro i ⟨⟩, ?_⟩
    rw [aliveLength, aliveLength, op]
    rfl
  | processed | checkVersion | update => exact .inr ⟨by rintro i ⟨⟩, rfl⟩

end Executors

namespace Registry

variable {hasList : ℕ → Bool} {s t : Registry} {a : Action}

theorem step_cases (h : s.step hasList a = some t) :
    s.failed = false ∧ (t = { s with freeExecutorId := s.freeExecutorId + 1 } ∨
      ∃ b w, s.created b = true ∧ s.executors.step hasList b = some w ∧
        t.freeExecutorId = s.freeExecutorId ∧ t.registered = s.registered ++ registers b ∧
        t.images = s.images ++ s.newImages b ∧ t.failed = !s.asserts b ∧
        t.executors = if s.asserts b then w else s.executors) := by
  cases a with
  | create =>
    rw [step, Option.ite_none_left_eq_some, Bool.not_eq_true, Option.some.injEq] at h
    exact ⟨h.1, .inl h.2.symm⟩
  | executor b =>
    obtain ⟨⟨hfailed, hcreated⟩, h⟩ := Option.ite_none_right_eq_some.mp h
    obtain ⟨w, hw, rfl⟩ := Option.map_eq_some_iff.mp h
    refine ⟨hfailed, .inr ⟨b, w, hcreated, hw, ?_⟩⟩
    cases s.asserts b with
    | true => exact ⟨rfl, rfl, rfl, hfailed, rfl⟩
    | false => exact ⟨rfl, rfl, rfl, rfl, rfl⟩

theorem sound_executors (h : Reachable (step hasList) .init s) :
    Executors.Sound hasList s.executors := by
  refine Executors.sound (h.component (f := executors) fun s a t _ hstep => ?_)
  obtain ⟨-, rfl | ⟨b, w, -, hw, -, -, -, -, heq⟩⟩ := step_cases hstep
  · exact .inl rfl
  · rw [heq]
    split
    · exact .inr ⟨b, trivial, hw⟩
    · exact .inl rfl

/-- The executors that are registered have been created, and so have those that are inserted. -/
structure Created (s : Registry) : Prop where
  phase : ∀ i, s.executors.phase i ≠ .unregistered → i < s.freeExecutorId
  registered : ∀ i ∈ s.registered, i < s.freeExecutorId
  images : ∀ ids ∈ s.images, ∀ i ∈ ids, i < s.freeExecutorId

theorem created_of_reachable (h : Reachable (step hasList) .init s) : s.Created := by
  refine h.invariant ⟨fun i hi => absurd rfl hi, by simp [init], by simp [init]⟩ ?_
  rintro s a t hs ⟨hphase, hregistered, himages⟩ - hstep
  have hsound := sound_executors hs
  obtain ⟨-, rfl | ⟨b, w, hcreated, hw, hfree, hreg, himg, -, hex⟩⟩ := step_cases hstep
  · exact ⟨fun i hi => Nat.lt_succ_of_lt (hphase i hi),
      fun i hi => Nat.lt_succ_of_lt (hregistered i hi),
      fun ids hids i hi => Nat.lt_succ_of_lt (himages ids hids i hi)⟩
  · have hid : ∀ id, b = .register id → id < s.freeExecutorId := by
      rintro id rfl
      exact of_decide_eq_true hcreated
    refine ⟨fun i hi => ?_, fun i hi => ?_, fun ids hids i hi => ?_⟩
    · rw [hfree]
      by_cases hun : s.executors.phase i = .unregistered
      · refine hid i (by_contra fun hne => hi ?_)
        rw [hex]
        split
        · exact Executors.phase_of_step hw hsound hun hne
        · exact hun
      · exact hphase i hun
    · rw [hreg, List.mem_append] at hi
      rw [hfree]
      rcases hi with hi | hi
      · exact hregistered i hi
      · cases b with
        | register id => exact List.mem_singleton.mp hi ▸ hid id rfl
        | _ => cases hi
    · rw [himg, List.mem_append] at hids
      rw [hfree]
      rcases hids with hids | hids
      · exact himages ids hids i hi
      · cases b with
        | update id =>
          simp only [newImages] at hids
          split at hids
          · rw [List.mem_singleton.mp hids] at hi
            apply hphase
            rcases (hsound.mem_order i).mp (hsound.consistent.alive i hi) with h | h <;> simp [h]
          · cases hids
        | _ => cases hids

/-- Every insertion so far has found its key near enough. -/
def AllNear (registered : List ℕ) (images : List (List ℕ)) : Prop :=
  Near 0 registered ∧ ∀ ids ∈ images, Near 0 ids

/-- The assertions of a step, if all before have held. -/
theorem asserts_iff {b : Executors.Action} {w : Executors}
    (hsound : Executors.Sound hasList s.executors) (hw : s.executors.step hasList b = some w)
    (hlength : s.executors.aliveLength = s.registered.foldl grow 0)
    (hnear : AllNear s.registered s.images) :
    s.asserts b = true ↔ AllNear (s.registered ++ registers b) (s.images ++ s.newImages b) := by
  cases b with
  | register id =>
    obtain ⟨id, ⟨⟩, hfree, -⟩ | ⟨hne, -⟩ := Executors.aliveLength_of_step hsound hw
    · rw [asserts, isSome_insertAll, ← Executors.aliveLength_of_none hfree, hlength, AllNear,
        registers, near_concat]
      simp only [newImages, List.append_nil, Near, and_true, hnear.1, true_and]
      exact ⟨fun h => ⟨h, hnear.2⟩, And.left⟩
    · exact absurd rfl (hne id)
  | update id =>
    simp only [asserts, List.all_eq_true, Bool.and_eq_true, isSome_insertAll, AllNear, registers,
      List.append_nil, List.mem_append]
    constructor
    · intro h
      refine ⟨hnear.1, fun ids hids => ?_⟩
      rcases hids with hids | hids
      · exact hnear.2 ids hids
      · exact (h ids hids).1
    · intro h ids hids
      exact ⟨h.2 ids (.inr hids), h.2 ids (.inr hids)⟩
  | _ => simp [asserts, registers, newImages, hnear]

/-- What has been inserted says how long the vector of alive executors is and whether an assertion
has failed. -/
structure Measured (s : Registry) : Prop where
  length : s.failed = false → s.executors.aliveLength = s.registered.foldl grow 0
  near : s.failed = false ↔ AllNear s.registered s.images

theorem measured_of_reachable (h : Reachable (step hasList) .init s) : s.Measured := by
  refine h.invariant ⟨fun _ => rfl, by simp [init, AllNear, Near]⟩ ?_
  rintro s a t hs ⟨hlength, hnear⟩ - hstep
  have hsound := sound_executors hs
  obtain ⟨hfailed, rfl | ⟨b, w, -, hw, -, hreg, himg, hfail, hex⟩⟩ := step_cases hstep
  · exact ⟨hlength, hnear⟩
  · have hlength := hlength hfailed
    have hasserts := asserts_iff hsound hw hlength (hnear.mp hfailed)
    refine ⟨fun hb => ?_, ?_⟩
    · rw [hfail, Bool.not_eq_false'] at hb
      rw [hreg, hex, if_pos hb]
      rcases Executors.aliveLength_of_step hsound hw with ⟨id, rfl, -, heq⟩ | ⟨hne, heq⟩
      · rw [heq, hlength, registers, List.foldl_append]
        rfl
      · have hnil : registers b = [] := by
          cases b with
          | register id => exact absurd rfl (hne id)
          | _ => rfl
        rw [heq, hlength, hnil, List.append_nil]
    · rw [hreg, himg, hfail, Bool.not_eq_false']
      exact hasserts

/-- **The assertion of `insert`.** In every history of creations, registrations, stops and updates,
the assertion has held so far exactly if the ids that were registered, and for every image the
ids that were alive then, have been near enough to each other.  In particular it never fails as long
as at most a hundred executors were created. -/
theorem insert_asserts_iff (h : Reachable (step hasList) .init s) :
    (s.failed = false ↔ Near 0 s.registered ∧ ∀ ids ∈ s.images, Near 0 ids) ∧
      (s.freeExecutorId ≤ 100 → s.failed = false) := by
  have hnear := (measured_of_reachable h).near
  refine ⟨hnear, fun hle => hnear.mpr ?_⟩
  have hcreated := created_of_reachable h
  exact ⟨near_of_lt (fun i hi => (hcreated.registered i hi).trans_le hle) 0,
    fun ids hids => near_of_lt (fun i hi => (hcreated.images ids hids i hi).trans_le hle) 0⟩

/-- Two executors are created and registered, the second one first, and one of them makes its
image. -/
theorem insert_asserts_iff_two :
    ∃ s, Reachable (step fun _ => true) .init s ∧ s.registered = [1, 0] ∧ s.images = [[0, 1]] ∧
      s.freeExecutorId ≤ 100 ∧ s.failed = false := by
  have h : Reachable (step fun _ => true) .init _ :=
    reachable_of_exec ([.create, .create] ++ (Executors.runRegister 1 1 ++
      Executors.runRegister 0 2 ++ Executors.runCheck 0).map .executor) rfl
  exact ⟨_, h, rfl, rfl, by decide, (insert_asserts_iff h).2 (by decide)⟩

/-- After `n` executors were created. -/
def afterCreate (n : ℕ) : Registry := { init with freeExecutorId := n }

theorem reachable_afterCreate (hasList : ℕ → Bool) (n : ℕ) :
    Reachable (step hasList) .init (afterCreate n) := by
  induction n with
  | zero => exact .start
  | succ n ih => exact .next (a := .create) ih trivial rfl

set_option maxRecDepth 2000 in
/-- Of 101 executors the last one is the first to register itself.  Or it is the second one, and
makes its image when the first one was stopped: the assertions of the registrations have held. -/
theorem insert_asserts_fails :
    (∃ s, Reachable (step fun _ => true) .init s ∧ s.failed = true ∧ s.registered = [100]) ∧
    ∃ s, Reachable (step fun _ => true) .init s ∧ s.failed = true ∧ s.registered = [50, 100] ∧
      s.images = [[100]] := by
  have h := reachable_afterCreate (fun _ => true) 101
  constructor
  · have hexec : exec (step fun _ => true) (afterCreate 101) [.executor (.register 100)] =
        some _ := rfl
    exact ⟨_, reach_exec h hexec, rfl, rfl⟩
  · have hexec : exec (step fun _ => true) (afterCreate 101)
        ((Executors.runRegister 50 1 ++ Executors.runRegister 100 2 ++ Executors.runStop 50 2 ++
          Executors.runCheck 100).map .executor) = some _ := rfl
    exact ⟨_, reach_exec h hexec, rfl, rfl, rfl⟩

end Registry

end Orengine.Runtime
