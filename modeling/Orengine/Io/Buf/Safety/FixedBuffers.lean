import Mathlib.Logic.Equiv.Basic
import Mathlib.Tactic.Common
import Orengine.Io.Buf.Moment
import Orengine.Io.Buf.Safety.Buffer

/-!
# Who has the fixed buffers

A part of an operation permutes the indices among the holders (`exists_perm_of_change`), which keeps
that each has exactly one holder, whatever operations are nested in each other.  The operations are
made of such parts (`leads_of_step`), and `fixed_buffers_owned` follows.
-/

namespace Orengine.Io.Buf

open Lib

variable {uninit : ℕ → ℕ → UInt8}

namespace Moment

variable {m t : Moment}

/-! ### Moving buffers -/

theorem index_setLenUnchecked (b : Buffer) (n : ℕ) : (b.setLenUnchecked n).index = b.index := by
  cases b <;> rfl

theorem getElem?_reverse_cons (b : Buffer) (rest : List Buffer) (i : ℕ) :
    (b :: rest).reverse[i]? = if i = rest.length then some b else rest.reverse[i]? := by
  rw [List.reverse_cons, List.getElem?_append, List.length_reverse]
  split
  case isTrue hlt => rw [if_neg (Nat.ne_of_lt hlt)]
  case isFalse hle =>
    split
    case isTrue heq =>
      rw [heq, Nat.sub_self]
      rfl
    case isFalse hne =>
      rw [List.getElem?_eq_none, List.getElem?_eq_none]
      · rw [List.length_reverse]
        omega
      · rw [List.length_singleton]
        omega

/-- Two holders have exchanged what they have. -/
def Exchanged (m t : Moment) (x y : Holder) : Prop :=
  ∀ z, t.buffer z = m.buffer (Equiv.swap x y z)

variable {x y : Holder} {b : Buffer} {cap h i k : ℕ} {memory : Memory}

theorem exchanged_of_eq (hx : t.buffer x = m.buffer y) (hy : t.buffer y = m.buffer x)
    (h : ∀ z, z ≠ x → z ≠ y → t.buffer z = m.buffer z) : Exchanged m t x y := by
  intro z
  by_cases hzx : z = x
  · rw [hzx, Equiv.swap_apply_left, hx]
  · by_cases hzy : z = y
    · rw [hzy, Equiv.swap_apply_right, hy]
    · rw [Equiv.swap_apply_of_ne_of_ne hzx hzy, h z hzx hzy]

theorem Exchanged.symm (h : Exchanged m t x y) : Exchanged t m x y := by
  intro z
  rw [h, Equiv.swap_apply_self]

theorem exchanged_of_pop (place : ℕ → Holder) {rest : List Buffer}
    (hm : ∀ i, m.buffer (place i) = (b :: rest).reverse[i]?)
    (ht : ∀ i, t.buffer (place i) = rest.reverse[i]?) (hmy : m.buffer y = none)
    (hty : t.buffer y = some b) (h : ∀ z, (∀ i, z ≠ place i) → z ≠ y → t.buffer z = m.buffer z) :
    Exchanged m t (place rest.length) y := by
  refine exchanged_of_eq ?_ ?_ fun z hlast hy => ?_
  · rw [ht, hmy]
    exact List.getElem?_eq_none (Nat.le_of_eq List.length_reverse)
  · rw [hty, hm, getElem?_reverse_cons, if_pos rfl]
  · by_cases hplace : ∃ i, z = place i
    · obtain ⟨i, rfl⟩ := hplace
      rw [ht, hm, getElem?_reverse_cons, if_neg]
      rintro rfl
      exact hlast rfl
    · exact h z (fun i hi => hplace ⟨i, hi⟩) hy

/-- A holder has another buffer with the same index, or none: there is the same fixed buffer with
another length, or no fixed one. -/
structure Replaced (m t : Moment) (x : Holder) : Prop where
  others (z : Holder) : z ≠ x → t.buffer z = m.buffer z
  index : t.index x = m.index x
  capacity (b : Buffer) : t.buffer x = some b → b.isFixed = true →
    ∃ b', m.buffer x = some b' ∧ b'.isFixed = true ∧ b'.capacity = b.capacity

/-- What comes into the pool was dropped by the code, and is fixed or has the default capacity. -/
structure Pooled (m t : Moment) : Prop where
  defaultBufferCap : t.memory.pool.defaultBufferCap = m.memory.pool.defaultBufferCap
  fixed (b : Buffer) : b ∈ t.memory.pool.poolOfFixedBuffers →
    b ∈ m.memory.pool.poolOfFixedBuffers ∨ ∃ h, m.buffers h = some b ∧ b.isFixed = true
  nonFixed (b : Buffer) : b ∈ t.memory.pool.poolOfNonFixedBuffers →
    b ∈ m.memory.pool.poolOfNonFixedBuffers ∨ b.capacity = m.memory.pool.defaultBufferCap

/-- **What a part of an operation can do.** -/
structure Change (m t : Moment) : Prop where
  holders : (∃ x y, Exchanged m t x y) ∨ ∃ x, Replaced m t x
  pooled : Pooled m t

theorem Pooled.of_eq (h : t.memory.pool = m.memory.pool) : Pooled m t :=
  ⟨congrArg BufPool.defaultBufferCap h, fun _ hb => .inl (h ▸ hb), fun _ hb => .inl (h ▸ hb)⟩

theorem Replaced.of_nonFixed {v : ByteBlock} (hx : m.buffer x = none)
    (ht : t.buffer x = some (.nonFixed v)) (h : ∀ z, z ≠ x → t.buffer z = m.buffer z) :
    Replaced m t x := by
  refine ⟨h, ?_, ?_⟩
  · rw [Moment.index, Moment.index, hx, ht]
    rfl
  · intro b hb hfixed
    rw [ht] at hb
    obtain rfl := Option.some.inj hb
    cases hfixed

theorem Replaced.of_setLen {n : ℕ} (hx : m.buffer x = some b)
    (ht : t.buffer x = some (b.setLenUnchecked n)) (h : ∀ z, z ≠ x → t.buffer z = m.buffer z) :
    Replaced m t x := by
  refine ⟨h, ?_, ?_⟩
  · rw [Moment.index, Moment.index, hx, ht]
    exact index_setLenUnchecked b n
  · intro b' hb' hfixed
    rw [ht] at hb'
    obtain rfl := Option.some.inj hb'
    refine ⟨b, hx, ?_, (Buffer.setLenUnchecked_capacity b n).symm⟩
    rwa [Buffer.setLenUnchecked_isFixed] at hfixed

theorem change_new {size : ℕ} {r : Memory × Buffer} (htaken : m.taken = none)
    (h : m.memory.newBuffer uninit size = some r) : Change m (m.hold r) := by
  obtain ⟨-, h⟩ := Option.ite_none_left_eq_some.mp h
  obtain rfl := Option.some.inj h
  refine ⟨.inr ⟨.operation, Replaced.of_nonFixed htaken rfl ?_⟩, .of_eq rfl⟩
  intro z hz
  cases z with
  | operation => exact absurd rfl hz
  | _ => rfl

theorem change_take {r : Memory × Buffer} (htaken : m.taken = none)
    (h : m.memory.getBufferWithAnyLen uninit = some r) : Change m (m.hold r) := by
  unfold Memory.getBufferWithAnyLen at h
  split at h
  case h_1 b rest hpool =>
    obtain rfl := Option.some.inj h
    have hm (i : ℕ) : m.buffer (.fixedPool i) = (b :: rest).reverse[i]? := by
      rw [← hpool]
      rfl
    refine ⟨.inl ⟨_, .operation, exchanged_of_pop .fixedPool hm (fun _ => rfl) htaken rfl ?_⟩, rfl,
      fun b' hb' => .inl ?_, fun _ => .inl⟩
    · intro z hplace hz
      cases z with
      | fixedPool i => exact absurd rfl (hplace i)
      | operation => exact absurd rfl hz
      | _ => rfl
    · rw [hpool]
      exact List.mem_cons_of_mem b hb'
  case h_2 hnone =>
    split at h
    case h_1 b rest hpool =>
      obtain rfl := Option.some.inj h
      have hm (i : ℕ) : m.buffer (.nonFixedPool i) = (b :: rest).reverse[i]? := by
        rw [← hpool]
        rfl
      refine ⟨.inl ⟨_, .operation, exchanged_of_pop .nonFixedPool hm (fun _ => rfl) htaken rfl ?_⟩,
        rfl, fun _ => .inl, fun b' hb' => .inl ?_⟩
      · intro z hplace hz
        cases z with
        | nonFixedPool i => exact absurd rfl (hplace i)
        | operation => exact absurd rfl hz
        | _ => rfl
      · rw [hpool]
        exact List.mem_cons_of_mem b hb'
    case h_2 => exact change_new htaken h

/-- The code has dropped the buffer `h`. -/
def dropped (m : Moment) (h : ℕ) (b : Buffer) : Moment :=
  { m with memory := m.memory.put b, buffers := Function.update m.buffers h none }

theorem dropped_code (m : Moment) (h : ℕ) (b : Buffer) : (m.dropped h b).buffer (.code h) = none :=
  Function.update_self ..

theorem dropped_code_of_ne (hne : Holder.code i ≠ .code h) (b : Buffer) :
    (m.dropped h b).buffer (.code i) = m.buffer (.code i) :=
  Function.update_of_ne (fun hi => hne (congrArg Holder.code hi)) ..

theorem pool_put_of_isFixed (h : b.isFixed = true) :
    (memory.put b).pool =
      { memory.pool with poolOfFixedBuffers := b :: memory.pool.poolOfFixedBuffers } := by
  rw [Memory.put, if_pos h]

theorem pool_put_of_capacity (h : b.isFixed = false)
    (hcap : b.capacity = memory.pool.defaultBufferCap) :
    (memory.put b).pool =
      { memory.pool with poolOfNonFixedBuffers := b :: memory.pool.poolOfNonFixedBuffers } := by
  rw [Memory.put, if_neg (Bool.eq_false_iff.mp h), if_pos hcap]

theorem pool_put_of_other (h : b.isFixed = false)
    (hcap : b.capacity ≠ memory.pool.defaultBufferCap) : (memory.put b).pool = memory.pool := by
  rw [Memory.put, if_neg (Bool.eq_false_iff.mp h), if_neg hcap]

theorem change_drop_fixed (hb : m.buffers h = some b) (hfixed : b.isFixed = true) :
    Change m (m.dropped h b) := by
  have hpool : (m.dropped h b).memory.pool = _ := pool_put_of_isFixed hfixed
  have hpush (i : ℕ) : (m.dropped h b).buffer (.fixedPool i) =
      (b :: m.memory.pool.poolOfFixedBuffers).reverse[i]? := by
    rw [Moment.buffer, hpool]
  have hpop := exchanged_of_pop (t := m) .fixedPool hpush (fun _ => rfl) (dropped_code m h b) hb ?_
  · refine ⟨.inl ⟨_, _, hpop.symm⟩, by rw [hpool], fun b' hb' => ?_, fun b' hb' => .inl ?_⟩
    · rw [hpool] at hb'
      rcases List.mem_cons.mp hb' with rfl | hb'
      · exact .inr ⟨h, hb, hfixed⟩
      · exact .inl hb'
    · rwa [hpool] at hb'
  · intro z hplace hz
    cases z with
    | fixedPool i => exact absurd rfl (hplace i)
    | nonFixedPool i => rw [Moment.buffer, Moment.buffer, hpool]
    | code i => exact (dropped_code_of_ne hz b).symm
    | operation => rfl

theorem change_drop_nonFixed (hb : m.buffers h = some b) (hfixed : b.isFixed = false)
    (hcap : b.capacity = m.memory.pool.defaultBufferCap) : Change m (m.dropped h b) := by
  have hpool : (m.dropped h b).memory.pool = _ := pool_put_of_capacity hfixed hcap
  have hpush (i : ℕ) : (m.dropped h b).buffer (.nonFixedPool i) =
      (b :: m.memory.pool.poolOfNonFixedBuffers).reverse[i]? := by
    rw [Moment.buffer, hpool]
  have hpop := exchanged_of_pop (t := m) .nonFixedPool hpush (fun _ => rfl) (dropped_code m h b) hb
    ?_
  · refine ⟨.inl ⟨_, _, hpop.symm⟩, by rw [hpool], fun b' hb' => .inl ?_, fun b' hb' => ?_⟩
    · rwa [hpool] at hb'
    · rw [hpool] at hb'
      rcases List.mem_cons.mp hb' with rfl | hb'
      · exact .inr hcap
      · exact .inl hb'
  · intro z hplace hz
    cases z with
    | fixedPool i => rw [Moment.buffer, Moment.buffer, hpool]
    | nonFixedPool i => exact absurd rfl (hplace i)
    | code i => exact (dropped_code_of_ne hz b).symm
    | operation => rfl

theorem change_drop_other (hb : m.buffers h = some b) (hfixed : b.isFixed = false)
    (hcap : b.capacity ≠ m.memory.pool.defaultBufferCap) : Change m (m.dropped h b) := by
  have hpool : (m.dropped h b).memory.pool = m.memory.pool := pool_put_of_other hfixed hcap
  refine ⟨.inr ⟨.code h, fun z hz => ?_, ?_, ?_⟩, .of_eq hpool⟩
  · cases z with
    | fixedPool | nonFixedPool => rw [Moment.buffer, Moment.buffer, hpool]
    | code i => exact dropped_code_of_ne hz b
    | operation => rfl
  · have hcode : m.buffer (.code h) = some b := hb
    rw [Moment.index, Moment.index, dropped_code, hcode]
    cases b with
    | fixed f => cases hfixed
    | nonFixed v => rfl
  · intro b' hb'
    rw [dropped_code] at hb'
    cases hb'

theorem change_drop (hb : m.buffers h = some b) : Change m (m.dropped h b) := by
  cases hfixed : b.isFixed with
  | true => exact change_drop_fixed hb hfixed
  | false =>
    by_cases hcap : b.capacity = m.memory.pool.defaultBufferCap
    · exact change_drop_nonFixed hb hfixed hcap
    · exact change_drop_other hb hfixed hcap

theorem change_of_step {a : Part} (h : m.step uninit a = some t) : Change m t := by
  cases a with
  | take =>
    obtain ⟨htaken, h⟩ := Option.ite_none_right_eq_some.mp h
    obtain ⟨r, hr, rfl⟩ := Option.map_eq_some_iff.mp h
    exact change_take htaken hr
  | new size =>
    obtain ⟨htaken, h⟩ := Option.ite_none_right_eq_some.mp h
    obtain ⟨r, hr, rfl⟩ := Option.map_eq_some_iff.mp h
    exact change_new htaken hr
  | setLenTaken len =>
    obtain ⟨b, hb, rfl⟩ := Option.map_eq_some_iff.mp h
    refine ⟨.inr ⟨.operation, Replaced.of_setLen hb rfl fun z hz => ?_⟩, .of_eq rfl⟩
    cases z with
    | operation => exact absurd rfl hz
    | _ => rfl
  | setLen i len =>
    obtain ⟨b, hb, rfl⟩ := Option.map_eq_some_iff.mp h
    refine ⟨.inr ⟨.code i, Replaced.of_setLen hb (Function.update_self ..) fun z hz => ?_⟩,
      .of_eq rfl⟩
    cases z with
    | code j => exact Function.update_of_ne (fun hj => hz (congrArg Holder.code hj)) ..
    | _ => rfl
  | copy ptr i bytes =>
    obtain ⟨heap, hheap, rfl⟩ := Option.map_eq_some_iff.mp h
    refine ⟨.inl ⟨.operation, .operation, fun z => ?_⟩, .of_eq rfl⟩
    rw [Equiv.swap_self]
    cases z <;> rfl
  | drop i =>
    obtain ⟨b, hb, rfl⟩ := Option.map_eq_some_iff.mp h
    exact change_drop hb
  | handOver i =>
    simp only [step] at h
    split at h
    case h_1 b hb hnone =>
      obtain rfl := Option.some.inj h
      refine ⟨.inl ⟨.code i, .operation, exchanged_of_eq ?_ ?_ fun z hcode hz => ?_⟩, .of_eq rfl⟩
      · exact (Function.update_self ..).trans hb.symm
      · exact hnone.symm
      · cases z with
        | code j => exact Function.update_of_ne (fun hj => hcode (congrArg Holder.code hj)) ..
        | operation => exact absurd rfl hz
        | _ => rfl
    case h_2 => cases h

/-! ### Exactly one holder -/

theorem exists_perm_of_change (h : Change m t) :
    ∃ e : Equiv.Perm Holder, ∀ x, t.index x = m.index (e x) := by
  rcases h.holders with ⟨x, y, hexchanged⟩ | ⟨x, hreplaced⟩
  · refine ⟨Equiv.swap x y, fun z => ?_⟩
    rw [Moment.index, Moment.index, hexchanged]
  · refine ⟨Equiv.refl Holder, fun z => ?_⟩
    by_cases hz : z = x
    · rw [hz]
      exact hreplaced.index
    · rw [Moment.index, Moment.index, hreplaced.others z hz]
      rfl

theorem existsUnique_of_perm {e : Equiv.Perm Holder} (he : ∀ x, t.index x = m.index (e x))
    (h : ∃! x, m.index x = some i) : ∃! x, t.index x = some i := by
  obtain ⟨x, hx, hunique⟩ := h
  refine ⟨e.symm x, ?_, fun y hy => ?_⟩
  · change t.index (e.symm x) = some i
    rw [he, Equiv.apply_symm_apply, hx]
  · have hey : m.index (e y) = some i := (he y).symm.trans hy
    rw [← hunique (e y) hey, Equiv.symm_apply_apply]

/-- What holds at every moment, for `k` fixed buffers and a default capacity. -/
structure Inv (k cap : ℕ) (m : Moment) : Prop where
  owner (i : ℕ) : i < k → ∃! x, m.index x = some i
  defaultBufferCap : m.memory.pool.defaultBufferCap = cap
  fixedPool (b : Buffer) : b ∈ m.memory.pool.poolOfFixedBuffers →
    b.isFixed = true ∧ b.capacity = cap
  nonFixedPool (b : Buffer) : b ∈ m.memory.pool.poolOfNonFixedBuffers → b.capacity = cap
  fixed (x : Holder) (b : Buffer) : m.buffer x = some b → b.isFixed = true → b.capacity = cap

theorem Inv.change (h : Inv k cap m) (hchange : Change m t) : Inv k cap t := by
  obtain ⟨hholders, hpooled⟩ := hchange
  refine ⟨fun i hi => ?_, hpooled.defaultBufferCap.trans h.defaultBufferCap, fun b hb => ?_,
    fun b hb => ?_, fun x b hb hfixed => ?_⟩
  · obtain ⟨e, he⟩ := exists_perm_of_change ⟨hholders, hpooled⟩
    exact existsUnique_of_perm he (h.owner i hi)
  · rcases hpooled.fixed b hb with hb | ⟨i, hi, hfixed⟩
    · exact h.fixedPool b hb
    · exact ⟨hfixed, h.fixed (.code i) b hi hfixed⟩
  · rcases hpooled.nonFixed b hb with hb | hcap
    · exact h.nonFixedPool b hb
    · exact hcap.trans h.defaultBufferCap
  · rcases hholders with ⟨y, z, hexchanged⟩ | ⟨y, hreplaced⟩
    · rw [hexchanged] at hb
      exact h.fixed _ b hb hfixed
    · by_cases hx : x = y
      · subst hx
        obtain ⟨b', hb', hfixed', hcap⟩ := hreplaced.capacity b hb hfixed
        rw [← hcap]
        exact h.fixed x b' hb' hfixed'
      · rw [hreplaced.others x hx] at hb
        exact h.fixed x b hb hfixed

theorem init_fixedPool (k cap i : ℕ) :
    (idle (.init k cap)).buffer (.fixedPool i) =
      if i < k then some (.fixed ⟨0, cap, i, i⟩) else none := by
  change ((List.range k).reverse.map fun i => Buffer.fixed ⟨0, cap, i, i⟩).reverse[i]? = _
  rw [← List.map_reverse, List.reverse_reverse, List.getElem?_map]
  split
  case isTrue hi =>
    rw [List.getElem?_range hi]
    rfl
  case isFalse hi =>
    rw [List.getElem?_eq_none (List.length_range.trans_le (Nat.not_lt.mp hi))]
    rfl

/-- At the start only the pool has buffers, the one of each index at its place. -/
theorem init_buffer (hb : (idle (.init k cap)).buffer x = some b) :
    ∃ i, x = .fixedPool i ∧ b = .fixed ⟨0, cap, i, i⟩ := by
  cases x with
  | fixedPool i =>
    rw [init_fixedPool] at hb
    split at hb
    case isTrue => exact ⟨i, rfl, (Option.some.inj hb).symm⟩
    case isFalse => cases hb
  | nonFixedPool | code | operation => cases hb

theorem inv_init (k cap : ℕ) : Inv k cap (idle (.init k cap)) := by
  refine ⟨fun i hi => ⟨.fixedPool i, ?_, fun x hx => ?_⟩, rfl, fun b hb => ?_, nofun, ?_⟩
  · change (idle (.init k cap)).index (.fixedPool i) = some i
    rw [Moment.index, init_fixedPool, if_pos hi]
    rfl
  · obtain ⟨b, hb, hindex⟩ := Option.bind_eq_some_iff.mp hx
    obtain ⟨j, rfl, rfl⟩ := init_buffer hb
    obtain rfl := Option.some.inj hindex
    rfl
  · obtain ⟨i, -, rfl⟩ := List.mem_map.mp hb
    exact ⟨rfl, rfl⟩
  · intro x b hb _
    obtain ⟨j, -, rfl⟩ := init_buffer hb
    rfl

theorem inv_of_reachable (h : Reachable (step uninit) (idle (.init k cap)) m) : Inv k cap m :=
  h.invariant (inv_init k cap) fun _ _ _ _ hinv _ hstep => hinv.change (change_of_step hstep)

/-! ### The operations are made of such parts -/

variable {s s' : System} {h : ℕ}

/-- Parts of operations lead from a moment to another. -/
def Leads (uninit : ℕ → ℕ → UInt8) (m t : Moment) : Prop :=
  ∃ parts, exec (step uninit) m parts = some t

theorem Leads.refl (m : Moment) : Leads uninit m m := ⟨[], rfl⟩

theorem Leads.trans {u : Moment} (h : Leads uninit m t) (h' : Leads uninit t u) :
    Leads uninit m u := by
  obtain ⟨parts, hparts⟩ := h
  obtain ⟨parts', hparts'⟩ := h'
  refine ⟨parts ++ parts', ?_⟩
  rw [exec_append, hparts]
  exact hparts'

theorem Leads.single {a : Part} (h : m.step uninit a = some t) : Leads uninit m t := by
  refine ⟨[a], ?_⟩
  rw [exec, h]
  rfl

section Parts

variable {memory : Memory} {buffers : ℕ → Option Buffer} {r : Memory × Buffer} {b : Buffer}

theorem leads_take (n : ℕ) (hr : memory.getBufferWithAnyLen uninit = some r) :
    Leads uninit ⟨memory, buffers, none⟩ ⟨r.1, buffers, some (r.2.setLenUnchecked n)⟩ := by
  have htake : step uninit ⟨memory, buffers, none⟩ .take = some ⟨r.1, buffers, some r.2⟩ := by
    rw [step, if_pos rfl, hr]
    rfl
  have hset : step uninit ⟨r.1, buffers, some r.2⟩ (.setLenTaken n) =
      some ⟨r.1, buffers, some (r.2.setLenUnchecked n)⟩ := rfl
  exact (Leads.single htake).trans (.single hset)

theorem leads_new {size : ℕ} (hr : memory.newBuffer uninit size = some r) :
    Leads uninit ⟨memory, buffers, none⟩ ⟨r.1, buffers, some r.2⟩ := by
  have hnew : step uninit ⟨memory, buffers, none⟩ (.new size) = some ⟨r.1, buffers, some r.2⟩ := by
    rw [step, if_pos rfl, hr]
    rfl
  exact .single hnew

theorem leads_get (hr : memory.get uninit = some r) :
    Leads uninit ⟨memory, buffers, none⟩ ⟨r.1, buffers, some r.2⟩ := by
  obtain ⟨r', hr', rfl⟩ := Option.map_eq_some_iff.mp hr
  exact leads_take 0 hr'

theorem leads_getFull (hr : memory.getFull uninit = some r) :
    Leads uninit ⟨memory, buffers, none⟩ ⟨r.1, buffers, some r.2⟩ := by
  obtain ⟨r', hr', rfl⟩ := Option.map_eq_some_iff.mp hr
  exact leads_take r'.2.capacity hr'

theorem leads_newBuf {size : ℕ} (hr : memory.newBuf uninit size = some r) :
    Leads uninit ⟨memory, buffers, none⟩ ⟨r.1, buffers, some r.2⟩ := by
  rw [Memory.newBuf] at hr
  split at hr
  case isTrue => exact leads_get hr
  case isFalse => exact leads_new hr

theorem leads_handOver (hname : buffers h = none) :
    Leads uninit ⟨memory, buffers, some b⟩
      ⟨memory, Function.update buffers h (some b), none⟩ := by
  refine .single (a := .handOver h) ?_
  simp only [step, hname]

theorem leads_setLen (n : ℕ) (hb : buffers h = some b) :
    Leads uninit ⟨memory, buffers, none⟩
      ⟨memory, Function.update buffers h (some (b.setLenUnchecked n)), none⟩ := by
  refine .single (a := .setLen h n) ?_
  simp only [step, hb, Option.map_some]

/-- `resize` takes the new buffer, copies the bytes, drops the old buffer and hands the new one
over. -/
theorem leads_resize {newSize : ℕ} (hb : buffers h = some b)
    (hr : memory.resize uninit b newSize = some r) :
    Leads uninit ⟨memory, buffers, none⟩
      ⟨r.1, Function.update buffers h (some r.2), none⟩ := by
  rw [Memory.resize] at hr
  split at hr
  case isTrue =>
    obtain rfl := Option.some.inj hr
    exact leads_setLen newSize hb
  case isFalse =>
    obtain ⟨⟨memory', newBuf⟩, hnew, hr⟩ := Option.bind_eq_some_iff.mp hr
    obtain ⟨bytes, hread, hr⟩ := Option.bind_eq_some_iff.mp hr
    obtain ⟨heap, hwrite, hr⟩ := Option.bind_eq_some_iff.mp hr
    obtain rfl := Option.some.inj hr
    set taken := newBuf.setLenUnchecked b.len with htaken
    have hset : step uninit ⟨memory', buffers, some newBuf⟩ (.setLenTaken b.len) =
        some ⟨memory', buffers, some taken⟩ := rfl
    have hcopy : step uninit ⟨memory', buffers, some taken⟩ (.copy taken.ptr 0 bytes) =
        some ⟨{ memory' with heap := heap }, buffers, some taken⟩ := by
      simp only [step, hwrite, Option.map_some]
    have hdrop : step uninit ⟨{ memory' with heap := heap }, buffers, some taken⟩ (.drop h) =
        some ⟨({ memory' with heap := heap } : Memory).put b, Function.update buffers h none,
          some taken⟩ := by
      simp only [step, hb, Option.map_some]
    have hover : Leads uninit ⟨({ memory' with heap := heap } : Memory).put b,
        Function.update buffers h none, some taken⟩ ⟨({ memory' with heap := heap } : Memory).put b,
        Function.update (Function.update buffers h none) h (some taken), none⟩ :=
      leads_handOver (Function.update_self h none buffers)
    rw [Function.update_idem] at hover
    exact (leads_newBuf hnew).trans ((Leads.single hset).trans
      ((Leads.single hcopy).trans ((Leads.single hdrop).trans hover)))

theorem leads_makeRoom {diffLen : ℕ} (hb : buffers h = some b)
    (hr : memory.makeRoom uninit b diffLen = some r) :
    Leads uninit ⟨memory, buffers, none⟩ ⟨r.1, Function.update buffers h (some r.2), none⟩ := by
  rw [Memory.makeRoom] at hr
  split at hr
  case isTrue => exact leads_resize hb hr
  case isFalse =>
    obtain rfl := Option.some.inj hr
    rw [← hb, Function.update_eq_self]
    exact Leads.refl _

theorem leads_append {bytes : List UInt8} (hb : buffers h = some b)
    (hr : memory.append uninit b bytes = some r) :
    Leads uninit ⟨memory, buffers, none⟩ ⟨r.1, Function.update buffers h (some r.2), none⟩ := by
  obtain ⟨⟨memory', b'⟩, hroom, hr⟩ := Option.bind_eq_some_iff.mp hr
  obtain ⟨heap, hwrite, hr⟩ := Option.bind_eq_some_iff.mp hr
  obtain rfl := Option.some.inj hr
  have hcopy : step uninit ⟨memory', Function.update buffers h (some b'), none⟩
      (.copy b'.ptr b'.len bytes) =
      some ⟨{ memory' with heap := heap }, Function.update buffers h (some b'), none⟩ := by
    simp only [step, hwrite, Option.map_some]
  have hset : Leads uninit
      ⟨{ memory' with heap := heap }, Function.update buffers h (some b'), none⟩
      ⟨{ memory' with heap := heap }, Function.update (Function.update buffers h (some b')) h
        (some (b'.addLen (toU32 bytes.length))), none⟩ :=
    leads_setLen _ (Function.update_self h (some b') buffers)
  rw [Function.update_idem] at hset
  exact (leads_makeRoom hb hroom).trans ((Leads.single hcopy).trans hset)

end Parts

/-- **The operations are made of such parts**, and nothing is taken between two of them. -/
theorem leads_of_step {a : System.Action} (hstep : s.step uninit a = some s') :
    Leads uninit (idle s) (idle s') := by
  cases a with
  | get h =>
    obtain ⟨hname, hstep⟩ := Option.ite_none_right_eq_some.mp hstep
    obtain ⟨r, hr, rfl⟩ := Option.map_eq_some_iff.mp hstep
    exact (leads_get hr).trans (leads_handOver hname)
  | getFull h =>
    obtain ⟨hname, hstep⟩ := Option.ite_none_right_eq_some.mp hstep
    obtain ⟨r, hr, rfl⟩ := Option.map_eq_some_iff.mp hstep
    exact (leads_getFull hr).trans (leads_handOver hname)
  | append h bytes =>
    obtain ⟨b, hb, hstep⟩ := Option.bind_eq_some_iff.mp hstep
    obtain ⟨r, hr, hstep⟩ := Option.bind_eq_some_iff.mp hstep
    obtain rfl := Option.some.inj hstep
    exact leads_append hb hr
  | clear h =>
    obtain ⟨b, hb, rfl⟩ := Option.map_eq_some_iff.mp hstep
    exact leads_setLen 0 hb
  | setLen h len =>
    obtain ⟨b, hb, rfl⟩ := Option.map_eq_some_iff.mp hstep
    rw [Buffer.setLen]
    split
    case h_1 b' hb' =>
      split at hb'
      case isTrue =>
        obtain rfl := Except.ok.inj hb'
        exact leads_setLen len hb
      case isFalse => cases hb'
    case h_2 => exact Leads.refl _
  | resize h newSize =>
    obtain ⟨b, hb, hstep⟩ := Option.bind_eq_some_iff.mp hstep
    obtain ⟨r, hr, hstep⟩ := Option.bind_eq_some_iff.mp hstep
    obtain rfl := Option.some.inj hstep
    exact leads_resize hb hr
  | release h =>
    obtain ⟨b, hb, rfl⟩ := Option.map_eq_some_iff.mp hstep
    refine .single (a := .drop h) ?_
    simp only [step, idle, hb, Option.map_some]
    rfl

/-! ### Fixed buffers first -/

theorem Inv.exists_fixed (uninit : ℕ → ℕ → UInt8) {n : ℕ} (hinv : Inv k cap m)
    (hn : m.index (.fixedPool n) = some i) :
    ∃ r, m.memory.getBufferWithAnyLen uninit = some r ∧ r.2.isFixed = true := by
  obtain ⟨b, hb, -⟩ := Option.bind_eq_some_iff.mp hn
  have hmem : b ∈ m.memory.pool.poolOfFixedBuffers :=
    List.mem_reverse.mp (List.mem_of_getElem? hb)
  obtain ⟨first, rest, hpool⟩ := List.exists_cons_of_ne_nil (List.ne_nil_of_mem hmem)
  have hfirst : first ∈ m.memory.pool.poolOfFixedBuffers := by
    rw [hpool]
    exact List.mem_cons_self
  unfold Memory.getBufferWithAnyLen
  rw [hpool]
  exact ⟨_, rfl, (hinv.fixedPool first hfirst).1⟩

end Moment

/-- **At every moment** each fixed buffer has exactly one holder, every buffer of the pool has the
default capacity, and whoever asks for a buffer while the pool has a fixed one gets a fixed one.
The operations of the code are made of such moments. -/
theorem fixed_buffers_owned (uninit : ℕ → ℕ → UInt8) (k cap : ℕ) :
    (∀ m, Reachable (Moment.step uninit) (.idle (.init k cap)) m →
      (∀ i < k, ∃! x, m.index x = some i) ∧
      (∀ b ∈ m.memory.pool.poolOfFixedBuffers ++ m.memory.pool.poolOfNonFixedBuffers,
        b.capacity = cap) ∧
      ∀ i n, m.index (.fixedPool n) = some i →
        (∃ r, m.memory.get uninit = some r ∧ r.2.isFixed = true) ∧
        (∃ r, m.memory.getFull uninit = some r ∧ r.2.isFixed = true) ∧
        ∃ r, m.memory.newBuf uninit cap = some r ∧ r.2.isFixed = true) ∧
    ∀ s a t, System.step uninit s a = some t →
      ∃ parts, exec (Moment.step uninit) (.idle s) parts = some (.idle t) := by
  refine ⟨fun m hm => ?_, fun s a t hstep => Moment.leads_of_step hstep⟩
  have hinv := Moment.inv_of_reachable hm
  refine ⟨hinv.owner, fun b hb => ?_, fun i n hn => ?_⟩
  · rcases List.mem_append.mp hb with hb | hb
    · exact (hinv.fixedPool b hb).2
    · exact hinv.nonFixedPool b hb
  · obtain ⟨r, hr, hfixed⟩ := hinv.exists_fixed uninit hn
    have hget : m.memory.get uninit = some (r.1, r.2.clear) := by
      rw [Memory.get, hr]
      rfl
    have hfull : m.memory.getFull uninit = some (r.1, r.2.setLenToCapacity) := by
      rw [Memory.getFull, hr]
      rfl
    have hnew : m.memory.newBuf uninit cap = some (r.1, r.2.clear) := by
      rw [Memory.newBuf, if_pos hinv.defaultBufferCap, hget]
    have hclear : r.2.clear.isFixed = true := by
      rw [Buffer.clear, Buffer.setLenUnchecked_isFixed, hfixed]
    refine ⟨⟨_, hget, hclear⟩, ⟨_, hfull, ?_⟩, ⟨_, hnew, hclear⟩⟩
    rw [Buffer.setLenToCapacity, Buffer.setLenUnchecked_isFixed, hfixed]

end Orengine.Io.Buf
