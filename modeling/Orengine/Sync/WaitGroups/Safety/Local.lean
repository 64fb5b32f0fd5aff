import Orengine.Sync.WaitGroups.Nested

/-!
# Whom `LocalWaitGroup::done` resumes

The loop of `done` reads the slots of the vector one by one while the tasks that it has resumed may
push to the same slots.  If more tasks register meanwhile than have been resumed, an unread slot is
overwritten (`waiter_lost`); and an `add` that lets the vector grow takes the unread slots away.

In the runs in which the unread slots are left alone (`done_resumes_registered`), a round of the
loop reads what the slot held when the loop began (`Intact`).  So they are also runs of the
primitive `ideal`, whose loop reads a list of its own, and for this one the ownership law holds in
general (`custody`).
-/

namespace Orengine.Sync.LocalWaitGroup

open Orengine.Runtime Orengine.Lib

variable {τ : Type*} [DecidableEq τ]

/-! ### The slots -/

omit [DecidableEq τ] in
theorem registered_push (g : LocalWaitGroup τ) (t : τ) :
    (g.push t).registered = g.registered ++ [t] := by
  by_cases hlen : g.len ≤ g.slots.length
  · have htake : (g.slots.take g.len).length = g.len := List.length_take_of_le hlen
    simp [registered, push, List.take_append, htake]
  · have htake : g.slots.take g.len = g.slots := List.take_of_length_le (by omega)
    have hdrop : g.slots.drop (g.len + 1) = [] := List.drop_of_length_le (by omega)
    rw [registered, registered, push, htake, hdrop]
    refine List.take_of_length_le ?_
    change (g.slots ++ [t]).length ≤ g.len + 1
    rw [List.length_append, List.length_singleton]
    omega

variable {g : LocalWaitGroup τ} {k : Place τ} {op : Op} {m m' : Tasks τ} {t : τ}
  {o : Outcome τ (Place τ)} {e : Executor τ (World τ (Tasks τ)) (Place τ)} {capacity : ℕ}

omit [DecidableEq τ] in
theorem len_push (h : g.len ≤ g.slots.length) (t : τ) :
    (g.push t).len ≤ (g.push t).slots.length := by
  simp only [push, List.length_append, List.length_take_of_le h, List.length_cons]
  omega

omit [DecidableEq τ] in
theorem slots_push (h : g.len ≤ g.slots.length) (t : τ) {j : ℕ} (hj : g.len < j) :
    (g.push t).slots[j]? = g.slots[j]? := by
  have htake : (g.slots.take g.len).length = g.len := List.length_take_of_le h
  obtain ⟨d, rfl⟩ : ∃ d, j = g.len + 1 + d := ⟨j - (g.len + 1), by omega⟩
  rw [push, List.getElem?_append_right (by omega), htake,
    show g.len + 1 + d - g.len = d + 1 by omega, List.getElem?_cons_succ, List.getElem?_drop]

omit [DecidableEq τ] in
/-- A `done` keeps the registered tasks, or drains them all. -/
theorem done_cases (g : LocalWaitGroup τ) :
    (g.done.1.registered = g.registered ∧ g.done.2 = 0) ∨
      (g.done.1.registered = [] ∧ g.done.2 = g.len ∧ g.done.1.count = 0) := by
  unfold done
  split
  · exact Or.inr ⟨rfl, rfl, rfl⟩
  · exact Or.inl ⟨rfl, rfl⟩

omit [DecidableEq τ] in
theorem done_slots (g : LocalWaitGroup τ) : g.done.1.slots = g.slots := by
  unfold done
  split <;> rfl

omit [DecidableEq τ] in
theorem done_len (h : g.len ≤ g.slots.length) :
    g.done.1.len ≤ g.done.1.slots.length ∧ g.done.2 ≤ g.slots.length := by
  unfold done
  split
  · exact ⟨Nat.zero_le _, h⟩
  · exact ⟨h, Nat.zero_le _⟩

/-! ### What an operation can do -/

/-- Whether the operation registers its task. -/
def Tasks.registers (m : Tasks τ) (t : τ) : Place τ → Op → Bool
  | .poll, .go => m.waiting t && m.group.count != 0
  | .user, .wait => m.group.count != 0
  | _, _ => false

/-- Whether the operation lets the vector grow. -/
def Tasks.grows (m : Tasks τ) : Place τ → Op → Bool
  | .user, .add n => decide (m.group.capacity < m.group.count + n)
  | _, _ => false

/-- The effect of the operation `op` of `t` at a place, with `read` for the slots of the loop. -/
inductive Effect (read : LocalWaitGroup τ → List τ → ℕ → Option τ) (m : Tasks τ) (t : τ) :
    Place τ → Op → Tasks τ → Outcome τ (Place τ) → Prop
  | keep {k : Place τ} {op : Op} {m' : Tasks τ} (hk : k = .poll ∨ k = .user)
    (hslots : m'.group.slots = m.group.slots) (hlen : m'.group.len = m.group.len) :
    Effect read m t k op m' (.goto .user)
  | grow {n : ℕ} {m' : Tasks τ} (hop : m.grows .user (.add n) = true)
    (hslots : m'.group.slots = m.group.slots.take m.group.len)
    (hlen : m'.group.len = m.group.len) : Effect read m t .user (.add n) m' (.goto .user)
  | register {k : Place τ} {op : Op} {m' : Tasks τ} (hk : k = .poll ∨ k = .user)
    (hop : m.registers t k op = true) (hgroup : m'.group = m.group.push t) :
    Effect read m t k op m' .returned
  | done : Effect read m t .user .done { m with group := m.group.done.1 }
      (.goto (.drain 0 m.group.done.2 (m.group.slots.take m.group.done.2) []))
  | round {i stop : ℕ} {waiters resumed : List τ} {u : τ} (hi : i < stop)
    (hread : read m.group waiters i = some u) :
    Effect read m t (.drain i stop waiters resumed) .go m
      (.execTask u (.drain (i + 1) stop waiters (resumed ++ [u])))
  | finish {i stop : ℕ} {waiters resumed : List τ} (hi : ¬i < stop) :
    Effect read m t (.drain i stop waiters resumed) .go m (.goto .user)

variable {read : LocalWaitGroup τ → List τ → ℕ → Option τ}

theorem effect_of_pollWait (m : Tasks τ) (t : τ) (hk : k = .poll ∨ k = .user)
    (hop : m.group.count ≠ 0 → m.registers t k op = true) :
    Effect read m t k op (m.pollWait t).1 (m.pollWait t).2 := by
  unfold Tasks.pollWait pollWait
  by_cases hcount : m.group.count = 0
  · rw [if_neg (not_not.mpr hcount)]
    exact .keep hk rfl rfl
  · rw [if_pos hcount]
    exact .register hk (hop hcount) rfl

theorem effect_of_code (h : m.codeWith read t k op = some (m', o)) : Effect read m t k op m' o := by
  unfold Tasks.codeWith at h
  split at h
  case h_1 => -- poll
    rw [Option.some.injEq] at h
    unfold Tasks.poll at h
    split at h
    case isTrue hwaiting =>
      have hop : m.group.count ≠ 0 → m.registers t .poll .go = true := fun hcount => by
        simp [Tasks.registers, hwaiting, hcount]
      have heffect : Effect read m t .poll .go _ _ := effect_of_pollWait m t (Or.inl rfl) hop
      rwa [h] at heffect
    case isFalse =>
      obtain ⟨rfl, rfl⟩ := h
      exact .keep (Or.inl rfl) rfl rfl
  case h_2 n => -- add
    obtain ⟨rfl, rfl⟩ := h
    by_cases hgrow : m.group.capacity < m.group.count + n
    · refine .grow (decide_eq_true hgrow) ?_ ?_ <;> simp only [add, if_pos hgrow] <;> rfl
    · refine .keep (Or.inr rfl) ?_ ?_ <;> simp only [add, if_neg hgrow]
  case h_3 => -- done
    unfold Tasks.done at h
    split at h
    · obtain ⟨rfl, rfl⟩ := h
      exact .done
    · cases h
  case h_4 => -- wait
    rw [Option.some.injEq] at h
    have hop : m.group.count ≠ 0 → m.registers t .user .wait = true := fun hcount => by
      simp [Tasks.registers, hcount]
    have heffect : Effect read m t .user .wait _ _ := effect_of_pollWait m t (Or.inr rfl) hop
    rwa [h] at heffect
  case h_5 i stop waiters resumed => -- a round of the loop
    unfold Tasks.drain at h
    split at h
    case isTrue hi =>
      obtain ⟨u, hu, heq⟩ := Option.map_eq_some_iff.mp h
      obtain ⟨rfl, rfl⟩ := heq
      exact .round hi hu
    case isFalse hi =>
      obtain ⟨rfl, rfl⟩ := h
      exact .finish hi
  case h_6 => cases h

/-! ### The loop that reads a list of its own -/

/-- The wait group whose `done` remembers the tasks that it has to resume. -/
def ideal : Primitive τ (Tasks τ) (Place τ) Op where
  entry := .poll
  isUser := Place.isUser
  code := Tasks.codeWith fun _ waiters i => waiters[i]?

theorem effect_of_ideal (h : ideal.code m t k op = some (m', o)) :
    Effect (fun _ waiters i => waiters[i]?) m t k op m' o :=
  effect_of_code h

theorem effect_of_primitive (h : primitive.code m t k op = some (m', o)) :
    Effect (fun g _ i => g.slots[i]?) m t k op m' o :=
  effect_of_code h

/-- The places of a task in the memory. -/
def holds (m : Tasks τ) (u : τ) : ℕ := m.group.registered.count u

/-- The places of a task in a loop of `done`. -/
def held : Place τ → τ → ℕ
  | .drain i _ waiters _, u => (waiters.drop i).count u
  | _, _ => 0

omit [DecidableEq τ] in
theorem registered_eq_of_grow {g' : LocalWaitGroup τ} (hslots : g'.slots = g.slots.take g.len)
    (hlen : g'.len = g.len) : g'.registered = g.registered := by
  rw [registered, registered, hslots, hlen, List.take_take, Nat.min_self]

theorem code_le (h : ideal.code m t k op = some (m', o)) (u : τ) :
    holds m' u + o.places held t u ≤ holds m u + held k u + oneAt t u := by
  cases effect_of_ideal h with
  | keep hk hslots hlen =>
    have hreg : m'.group.registered = m.group.registered := by
      rw [registered, registered, hslots, hlen]
    simp only [holds, hreg, Outcome.places, held]
    omega
  | grow _ hslots hlen =>
    simp only [holds, registered_eq_of_grow hslots hlen, Outcome.places, held]
    omega
  | register hk hop hgroup =>
    simp only [holds, hgroup, registered_push, List.count_append, count_singleton_eq_oneAt,
      Outcome.places]
    omega
  | done =>
    rcases done_cases m.group with ⟨hreg, hzero⟩ | ⟨hreg, hall, -⟩
    · simp only [holds, hreg, hzero, Outcome.places, held, List.take_zero, List.drop_nil,
        List.count_nil]
      omega
    · have hwaiters : m.group.slots.take m.group.done.2 = m.group.registered := by
        rw [hall, registered]
      simp only [holds, hreg, hwaiters, Outcome.places, held, List.drop_zero, List.count_nil]
      omega
  | @round i stop waiters resumed v hi hread =>
    have hdrop : waiters.drop i = v :: waiters.drop (i + 1) := by
      obtain ⟨hlt, hget⟩ := List.getElem?_eq_some_iff.mp hread
      rw [List.drop_eq_getElem_cons hlt, hget]
    simp only [holds, Outcome.places, held, hdrop, count_cons_eq_oneAt]
    omega
  | finish hi =>
    simp only [holds, Outcome.places, held]
    omega

/-- The places of the tasks that use the group. -/
def custody : Custody (ideal (τ := τ)) where
  holds := holds
  held := held
  entry_held _ := rfl
  code_le := code_le

/-- A loop has resumed the first `i` of its tasks. -/
def Resumes : Place τ → Prop
  | .drain i stop waiters resumed =>
    resumed = waiters.take i ∧ waiters.Nodup ∧ waiters.length = stop ∧ i ≤ stop
  | _ => True

theorem resumes_of_reaches (h : ideal.Reaches (.new capacity) e) :
    e.state.memory.group.len ≤ e.state.memory.group.slots.length ∧
      ∀ f ∈ e.stack, Resumes f.2 := by
  refine (custody (τ := τ)).invariant (J := fun m => m.group.len ≤ m.group.slots.length)
    (K := fun _ => Resumes) (fun _ => rfl) (Nat.le_refl 0) (fun _ => trivial) ?_ ?_ h
  · intro m t k op m' o hlen hk hholds _ hcode
    cases effect_of_ideal hcode with
    | keep _ hslots hlen' =>
      refine ⟨by rw [hslots, hlen']; exact hlen, ?_⟩
      rintro k' ⟨⟩
      trivial
    | grow _ hslots hlen' =>
      refine ⟨by rw [hslots, hlen', List.length_take_of_le hlen], ?_⟩
      rintro k' ⟨⟩
      trivial
    | register _ _ hgroup =>
      refine ⟨by rw [hgroup]; exact len_push hlen t, nofun⟩
    | done =>
      refine ⟨(done_len hlen).1, ?_⟩
      rintro k' ⟨⟩
      refine ⟨rfl, ?_, List.length_take_of_le (done_len hlen).2, Nat.zero_le _⟩
      -- The registered tasks are different, because none is in two places.
      have hnodup : m.group.registered.Nodup := List.nodup_iff_count_le_one.mpr hholds
      rcases done_cases m.group with ⟨-, hzero⟩ | ⟨-, hall, -⟩
      · rw [hzero]
        exact List.nodup_nil
      · rw [hall]
        exact hnodup
    | @round i stop waiters resumed u hi hread =>
      refine ⟨hlen, ?_⟩
      rintro k' ⟨⟩
      obtain ⟨rfl, hnodup, hstop, -⟩ := hk
      refine ⟨?_, hnodup, hstop, hi⟩
      rw [List.take_add_one]
      change waiters[i]? = some u at hread
      rw [hread]
      rfl
    | finish _ =>
      refine ⟨hlen, ?_⟩
      rintro k' ⟨⟩
      trivial
  · intro m t k op m' o _ k' hk'
    exact hk'

/-! ### The loop that reads the storage -/

/-- The next slot is one that the loop has read, or the loop has read all of its slots. -/
def Behind (len : ℕ) : Place τ → Prop
  | .drain i stop _ _ => i < stop → len < i
  | _ => True

instance (len : ℕ) : ∀ k : Place τ, Decidable (Behind len k)
  | .drain i stop _ _ => inferInstanceAs (Decidable (i < stop → len < i))
  | .poll | .user => isTrue trivial

/-- The loop has read all of its slots. -/
def AllRead : Place τ → Prop
  | .drain i stop _ _ => stop ≤ i
  | _ => True

instance : ∀ k : Place τ, Decidable (AllRead k)
  | .drain i stop _ _ => inferInstanceAs (Decidable (stop ≤ i))
  | .poll | .user => isTrue trivial

/-- No task registers in a slot that a loop in progress has not read, and no `add` lets the vector
grow then. -/
def KeepsUnread (e : Executor τ (World τ (Tasks τ)) (Place τ)) : Move τ (TaskOp τ Op) → Prop
  | .code (.op op) => ∀ f ∈ e.stack.head?, ∀ g ∈ e.stack,
      (e.state.memory.registers f.1 f.2 op = true → Behind e.state.memory.group.len g.2) ∧
      (e.state.memory.grows f.2 op = true → AllRead g.2)
  | _ => True

instance (e : Executor τ (World τ (Tasks τ)) (Place τ)) : ∀ m, Decidable (KeepsUnread e m)
  | .code (.op op) => inferInstanceAs (Decidable (∀ f ∈ e.stack.head?, ∀ g ∈ e.stack,
      (e.state.memory.registers f.1 f.2 op = true → Behind e.state.memory.group.len g.2) ∧
      (e.state.memory.grows f.2 op = true → AllRead g.2)))
  | .code (.execTask _) | .code (.spawn _) | .code .yieldNow | .code .leave | .code .exit =>
    isTrue trivial
  | .popBack | .wake _ | .arrive _ | .newRound => isTrue trivial

/-- The slots that a loop has not read are as they were when it began. -/
def Intact (g : LocalWaitGroup τ) : Place τ → Prop
  | .drain i stop waiters _ => ∀ j, i ≤ j → j < stop → g.slots[j]? = waiters[j]?
  | _ => True

theorem code_eq_ideal (h : Intact m.group k) (t : τ) (op : Op) :
    primitive.code m t k op = ideal.code m t k op := by
  cases k with
  | poll | user => cases op <;> rfl
  | drain i stop waiters resumed =>
    cases op with
    | go =>
      simp only [primitive, ideal, Tasks.code, Tasks.codeWith, Tasks.drain]
      split
      case isTrue hi => rw [h i (Nat.le_refl i) hi]
      case isFalse => rfl
    | add | done | wait => rfl

theorem step_eq_ideal (h : ∀ f ∈ e.stack, Intact e.state.memory.group f.2)
    (m : Move τ (TaskOp τ Op)) : e.step primitive.program m = e.step ideal.program m :=
  Primitive.step_congr (P := primitive) (Q := ideal) rfl rfl
    (fun f hf op => code_eq_ideal (h f hf) f.1 op) m

omit [DecidableEq τ] in
/-- An operation keeps the unread slots, if it neither registers its task in one of them nor lets
the vector grow. -/
theorem intact_effect (hlen : m.group.len ≤ m.group.slots.length)
    (heffect : Effect read m t k op m' o) (hk : Intact m.group k) :
    (∀ k' ∈ o.place, Intact m'.group k') ∧
      ∀ k', (m.registers t k op = true → Behind m.group.len k') ∧
        (m.grows k op = true → AllRead k') → Intact m.group k' → Intact m'.group k' := by
  -- Only the slots matter.
  have hsame {k' : Place τ} (hslots : m'.group.slots = m.group.slots) (hk' : Intact m.group k') :
      Intact m'.group k' := by
    cases k' with
    | drain i stop waiters resumed =>
      intro j hij hj
      rw [hslots]
      exact hk' j hij hj
    | _ => trivial
  cases heffect with
  | keep _ hslots _ =>
    refine ⟨?_, fun k' _ hk' => hsame hslots hk'⟩
    rintro k' ⟨⟩
    trivial
  | grow hop =>
    refine ⟨?_, fun k' hread _ => ?_⟩
    · rintro k' ⟨⟩
      trivial
    · cases k' with
      | drain i stop waiters resumed =>
        intro j hij hj
        exact absurd (hread.2 hop) (Nat.not_le.mpr (hij.trans_lt hj))
      | _ => trivial
  | register _ hop hgroup =>
    refine ⟨nofun, fun k' hbehind hk' => ?_⟩
    rw [hgroup]
    cases k' with
    | drain i stop waiters resumed =>
      intro j hij hj
      have hlt : m.group.len < i := hbehind.1 hop (by omega)
      rw [slots_push hlen t (by omega)]
      exact hk' j hij hj
    | _ => trivial
  | done =>
    refine ⟨?_, fun k' _ hk' => hsame (done_slots m.group) hk'⟩
    rintro k' ⟨⟩
    intro j _ hj
    rw [done_slots, List.getElem?_take_of_lt hj]
  | @round i stop waiters resumed u hi hread =>
    refine ⟨?_, fun k' _ hk' => hk'⟩
    rintro k' ⟨⟩
    exact fun j hij hj => hk j (Nat.le_of_succ_le hij) hj
  | finish _ =>
    refine ⟨?_, fun k' _ hk' => hk'⟩
    rintro k' ⟨⟩
    trivial

/-- The run is also one of the loop that reads a list of its own. -/
theorem ideal_of_reach
    (h : Reach (Executor.step primitive.program) KeepsUnread (Primitive.init (.new capacity)) e) :
    ideal.Reaches (.new capacity) e ∧ ∀ f ∈ e.stack, Intact e.state.memory.group f.2 := by
  refine Reach.invariant (I := fun e : Executor τ (World τ (Tasks τ)) (Place τ) =>
    ideal.Reaches (.new capacity) e ∧ ∀ f ∈ e.stack, Intact e.state.memory.group f.2)
    ⟨.start, nofun⟩ ?_ h
  rintro e m e' - ⟨hideal, hintact⟩ hkeeps hstep
  rw [step_eq_ideal hintact] at hstep
  refine ⟨.next hideal trivial hstep, ?_⟩
  intro f hf
  rcases Primitive.move_cases rfl hstep with ⟨op, t, k, rest, s, o, rfl, hs, hcode, rfl⟩ | hcarries
  · have htop : (t, k) ∈ e.stack := Executor.mem_top hs
    obtain ⟨hplace, hothers⟩ := intact_effect (resumes_of_reaches hideal).1
      (effect_of_ideal hcode) (hintact _ htop)
    rw [Executor.afterCode_state]
    rcases Executor.of_mem_afterCode hf with hrest | ⟨k', hk', rfl⟩ | hentry
    · have hmem : f ∈ e.stack := Executor.mem_of_rest hs hrest
      exact hothers f.2 (hkeeps (t, k) (by simp [hs]) f hmem) (hintact f hmem)
    · exact hplace k' hk'
    · rw [hentry]
      trivial
  · rw [hcarries.memory]
    rcases hcarries.entered f hf with hf | hentry
    · exact hintact f hf
    · rw [hentry]
      trivial

/-- What a move does with the registered tasks: nothing, or it registers the running task, or it
hands all of them to the loop of a `done` that has brought the counter to 0. -/
theorem registered_step {e' : Executor τ (World τ (Tasks τ)) (Place τ)} {m : Move τ (TaskOp τ Op)}
    (hstep : e.step primitive.program m = some e') :
    e'.state.memory.group.registered = e.state.memory.group.registered ∨
    (∃ t, e'.state.memory.group.registered = e.state.memory.group.registered ++ [t]) ∨
    (e'.state.memory.group.registered = [] ∧ e'.state.memory.group.count = 0 ∧
      ∃ t, (t, Place.drain 0 e.state.memory.group.len e.state.memory.group.registered []) ∈
        e'.stack) := by
  rcases Primitive.move_cases rfl hstep with ⟨op, t, k, rest, s, o, rfl, hs, hcode, rfl⟩ | hcarries
  · rw [Executor.afterCode_state]
    cases effect_of_primitive hcode with
    | keep _ hslots hlen =>
      left
      rw [registered, registered, hslots, hlen]
    | grow _ hslots hlen => exact Or.inl (registered_eq_of_grow hslots hlen)
    | register _ _ hgroup =>
      right; left
      exact ⟨t, by rw [hgroup, registered_push]⟩
    | done =>
      rcases done_cases e.state.memory.group with ⟨hreg, -⟩ | ⟨hreg, hall, hcount⟩
      · exact Or.inl hreg
      · refine Or.inr (Or.inr ⟨hreg, hcount, t, ?_⟩)
        rw [hall]
        exact Executor.mem_afterCode_place rfl t rest _
    | round | finish => exact Or.inl rfl
  · rw [hcarries.memory]
    exact Or.inl rfl

/-- Tasks 0 and 1 wait for task 2, and task 0, resumed, adds a unit and waits again. -/
def registerAgain : List (Move ℕ (TaskOp ℕ Op)) :=
  [.wake 2, .code (.op .go), .code (.op (.add 1)), .code .yieldNow,
    .wake 0, .code (.op .go), .code (.op .wait), .wake 1, .code (.op .go), .code (.op .wait),
    .popBack, .code (.op .go), .code (.op .done), .code (.op .go), .code (.op .go),
    .code (.op (.add 1)), .code (.op .wait), .code (.op .go)]

/-- Tasks 0 and 1 wait for task 2; task 0, resumed, adds a unit and executes tasks 3 and 4, which
wait as well. -/
def overwrite : List (Move ℕ (TaskOp ℕ Op)) :=
  [.wake 2, .code (.op .go), .code (.op (.add 1)), .code .yieldNow,
    .wake 0, .code (.op .go), .code (.op .wait), .wake 1, .code (.op .go), .code (.op .wait),
    .popBack, .code (.op .go), .code (.op .done), .code (.op .go), .code (.op .go),
    .code (.op (.add 1)), .code (.execTask 3), .code (.op .go), .code (.op .wait),
    .code (.execTask 4), .code (.op .go), .code (.op .wait), .code .exit,
    .code (.op .go), .code (.op .go)]

end Orengine.Sync.LocalWaitGroup
