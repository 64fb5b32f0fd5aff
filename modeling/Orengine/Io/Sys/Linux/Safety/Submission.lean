import Mathlib.Data.List.Perm.Basic
import Mathlib.Data.List.Nodup
import Mathlib.Logic.Relation
import Orengine.Io.Sys.Linux.IoUring

/-!
# The submission ring and its backlog

Moving entries between the backlog, the ring and the kernel does not change `active` but for its
order: `Moves` is what `submit_and_poll` does to a worker, and `Shift` is a part of it.  So
`submission_entriesKept` says where the entries are.
-/

namespace Orengine.Io.IoUring

open Orengine.Lib Relation

namespace Worker

variable {ι : Type*} {w w' w'' : Worker ι}

/-! ### Moving entries -/

/-- `w'` has the entries of `w` at other places: the kernel may have taken some. -/
structure Moves (w w' : Worker ι) : Prop where
  active : w'.active.Perm w.active
  taken : ∃ l, w'.submitted = w.submitted ++ l ∧ w'.kernel = w.kernel ++ l
  completions : w'.completions = w.completions
  reaped : w'.reaped = w.reaped
  number : w'.numberOfActiveTasks = w.numberOfActiveTasks
  added : w'.added = w.added
  queue : w'.timeBoundedIoTaskQueue = w.timeBoundedIoTaskQueue
  size : w'.ringSize = w.ringSize
  fits : w'.ring.length ≤ w'.ringSize

theorem Moves.refl (h : w.ring.length ≤ w.ringSize) : w.Moves w where
  active := .refl _
  taken := ⟨[], (List.append_nil _).symm, (List.append_nil _).symm⟩
  completions := rfl
  reaped := rfl
  number := rfl
  added := rfl
  queue := rfl
  size := rfl
  fits := h

theorem Moves.trans (h : w.Moves w') (h' : w'.Moves w'') : w.Moves w'' where
  active := h'.active.trans h.active
  taken := by
    obtain ⟨l, hs, hk⟩ := h.taken
    obtain ⟨l', hs', hk'⟩ := h'.taken
    exact ⟨l ++ l', by rw [hs', hs, List.append_assoc], by rw [hk', hk, List.append_assoc]⟩
  completions := h'.completions.trans h.completions
  reaped := h'.reaped.trans h.reaped
  number := h'.number.trans h.number
  added := h'.added.trans h.added
  queue := h'.queue.trans h.queue
  size := h'.size.trans h.size
  fits := h'.fits

theorem moves_take (h : w.ring.length ≤ w.ringSize) (n : ℕ) : w.Moves (w.take n) where
  active := by
    -- The entries that were taken go behind those that are left and behind the kernel's.
    apply List.Perm.append_left
    have hring : w.ring = w.ring.take n ++ w.ring.drop n := (List.take_append_drop n w.ring).symm
    have hmove : (w.ring.drop n ++ (w.kernel ++ w.ring.take n)).Perm (w.ring ++ w.kernel) := by
      conv_rhs => rw [hring]
      rw [← List.append_assoc]
      exact (List.perm_append_comm).trans (by rw [List.append_assoc])
    have := hmove.append_right (w.completions.map Completion.entry)
    simpa only [take, List.append_assoc] using this
  taken := ⟨w.ring.take n, rfl, rfl⟩
  completions := rfl
  reaped := rfl
  number := rfl
  added := rfl
  queue := rfl
  size := rfl
  fits := by
    show (w.ring.drop n).length ≤ w.ringSize
    rw [List.length_drop]
    omega

theorem moves_push {x : Entry ι} {backlog : List (Entry ι)} (hbacklog : w.backlog = x :: backlog)
    (hroom : w.ring.length < w.ringSize) :
    w.Moves { w with backlog := backlog, ring := w.ring ++ [x] } := by
  constructor
  case active =>
    simp only [active, hbacklog, List.append_assoc, List.cons_append, List.nil_append]
    rw [← List.append_assoc, ← List.append_assoc backlog]
    exact List.perm_middle
  case taken => exact ⟨[], (List.append_nil _).symm, (List.append_nil _).symm⟩
  case fits =>
    show (w.ring ++ [x]).length ≤ w.ringSize
    rw [List.length_append, List.length_singleton]
    exact hroom
  all_goals rfl

/-- What `submit_and_poll` is made of: the kernel takes entries of the ring, and an entry of the
backlog goes to a ring that has room. -/
inductive Shift (w : Worker ι) : Worker ι → Prop
  | take (n : ℕ) : Shift w (w.take n)
  | push {x : Entry ι} {backlog : List (Entry ι)} (hbacklog : w.backlog = x :: backlog)
    (hroom : w.ring.length < w.ringSize) :
    Shift w { w with backlog := backlog, ring := w.ring ++ [x] }

theorem moves_of_shifts (hfits : w.ring.length ≤ w.ringSize) (h : ReflTransGen Shift w w') :
    w.Moves w' := by
  induction h with
  | refl => exact .refl hfits
  | tail _ hshift ih =>
    cases hshift with
    | take n => exact ih.trans (moves_take ih.fits n)
    | push hbacklog hroom => exact ih.trans (moves_push hbacklog hroom)

/-- A submission of the full ring frees a slot: there are two, of which one is published, or its
result says so. -/
abbrev Frees (w : Worker ι) (results : List SubmitResult) : Prop :=
  2 ≤ w.ringSize ∨ .ok 0 ∉ results

/-- A round that goes on has room for an entry. -/
theorem shifts_makeRoom {results results' : List SubmitResult} {b : Bool} {unpublished : ℕ}
    (hle : unpublished ≤ 1) (hfits : w.ring.length ≤ w.ringSize) (hfree : w.Frees results)
    (h : w.makeRoom unpublished results = some (w', b, results')) :
    ReflTransGen Shift w w' ∧ w'.backlog = w.backlog ∧
      (b = true → w'.ring.length < w'.ringSize) ∧ w'.Frees results' := by
  unfold makeRoom at h
  split at h
  case isTrue hroom =>
    obtain ⟨rfl, rfl, rfl⟩ : w = w' ∧ true = b ∧ results = results' := by simpa using h
    exact ⟨.refl, rfl, fun _ => hroom, hfree⟩
  case isFalse hfull =>
    have hrest {x : SubmitResult} {l : List SubmitResult} (heq : results = x :: l) : w.Frees l :=
      hfree.imp_right fun hnot hmem => hnot (heq ▸ List.mem_cons_of_mem x hmem)
    split at h
    case h_1 n l =>
      split at h
      case isTrue hn =>
        simp only [Option.some.injEq, Prod.mk.injEq] at h
        obtain ⟨rfl, rfl, rfl⟩ := h
        refine ⟨.single (.take _), rfl, fun _ => ?_, hrest rfl⟩
        have hpos : n ≠ 0 := by
          rintro rfl
          rcases hfree with htwo | hnot
          · have := hn.2 rfl
            omega
          · exact hnot List.mem_cons_self
        show (w.ring.drop _).length < w.ringSize
        rw [List.length_drop]
        omega
      case isFalse => cases h
    case h_2 l =>
      simp only [Option.some.injEq, Prod.mk.injEq] at h
      obtain ⟨rfl, rfl, rfl⟩ := h
      exact ⟨.refl, rfl, nofun, hrest rfl⟩
    case h_3 => cases h

theorem shifts_drainBacklog {backlog : List (Entry ι)} {results : List SubmitResult}
    {unpublished : ℕ} {r : ℕ × List SubmitResult} (hbacklog : w.backlog = backlog)
    (hle : unpublished ≤ 1) (hfits : w.ring.length ≤ w.ringSize) (hfree : w.Frees results)
    (h : drainBacklog backlog unpublished w results = some (w', r)) : ReflTransGen Shift w w' := by
  induction backlog generalizing w results unpublished with
  | nil =>
    simp only [drainBacklog, Option.map_eq_some_iff, Prod.exists, Prod.mk.injEq] at h
    obtain ⟨v, b, rest, hroom, rfl, -⟩ := h
    exact (shifts_makeRoom hle hfits hfree hroom).1
  | cons x backlog ih =>
    rw [drainBacklog] at h
    split at h
    case h_1 => cases h
    case h_2 v rest hroom =>
      obtain rfl : v = w' := (Prod.mk.inj (Option.some.inj h)).1
      exact (shifts_makeRoom hle hfits hfree hroom).1
    case h_3 v rest hroom =>
      obtain ⟨hshifts, hkept, hlt, hfree⟩ := shifts_makeRoom hle hfits hfree hroom
      have hpush : { v with backlog := backlog }.pushOrDrop x =
          { v with backlog := backlog, ring := v.ring ++ [x] } := by
        simp only [pushOrDrop, push, if_pos (hlt rfl)]
      rw [hpush, if_pos (hlt rfl)] at h
      have hgo := hshifts.tail (.push (hkept.trans hbacklog) (hlt rfl))
      exact hgo.trans (ih rfl le_rfl (moves_of_shifts hfits hgo).fits hfree h)

theorem shifts_submitAndPoll {results : List SubmitResult} {last : SubmitResult}
    (hfits : w.ring.length ≤ w.ringSize) (hfree : w.Frees results)
    (h : w.submitAndPoll results last = some w') : ReflTransGen Shift w w' := by
  unfold submitAndPoll at h
  split at h
  case h_2 => cases h
  case h_1 v unpublished hdrain =>
    have hshifts := shifts_drainBacklog rfl (Nat.zero_le 1) hfits hfree hdrain
    cases last with
    | ok n =>
      obtain ⟨-, h⟩ := Option.ite_none_right_eq_some.mp h
      exact Option.some.inj h ▸ hshifts.tail (.take n)
    | ebusy | etime => exact Option.some.inj h ▸ hshifts
    | error => cases h

/-! ### The account -/

/-- What a worker with so many slots, or more, keeps of the entries. -/
structure Accounted (least : ℕ) (w : Worker ι) : Prop where
  numbers : ((w.active ++ w.reaped).map Entry.number).Perm (List.range w.added)
  submitted : w.submitted.Perm (w.kernel ++ (w.completions.map Completion.entry ++ w.reaped))
  count : w.numberOfActiveTasks = w.active.length
  fits : w.ring.length ≤ w.ringSize
  size : least ≤ w.ringSize

variable {least : ℕ}

theorem accounted_new {n : ℕ} (hn : least ≤ n) : (new n : Worker ι).Accounted least where
  numbers := .refl _
  submitted := .refl _
  count := rfl
  fits := Nat.zero_le n
  size := hn

theorem Accounted.setQueue (h : w.Accounted least) (q : TimeBoundedIoTaskQueue ι) :
    (w.setQueue q).Accounted least := ⟨h.numbers, h.submitted, h.count, h.fits, h.size⟩

theorem Accounted.moves (h : w.Accounted least) (hm : w.Moves w') : w'.Accounted least where
  numbers := by
    rw [hm.added, hm.reaped]
    exact ((hm.active.append_right _).map _).trans h.numbers
  submitted := by
    obtain ⟨l, hs, hk⟩ := hm.taken
    rw [hs, hk, hm.completions, hm.reaped, List.append_assoc]
    refine (h.submitted.append_right l).trans ?_
    rw [List.append_assoc]
    exact List.perm_append_comm.append_left _
  count := by
    rw [hm.number, h.count]
    exact hm.active.length_eq.symm
  fits := hm.fits
  size := hm.size.symm ▸ h.size

/-- With two slots a submission loses nothing. -/
theorem Accounted.shifts_submitAndPoll (h : w.Accounted 2) {results : List SubmitResult}
    {last : SubmitResult} (hw : w.submitAndPoll results last = some w') :
    ReflTransGen Shift w w' := Worker.shifts_submitAndPoll h.fits (.inl h.size) hw

theorem Accounted.moves_submitAndPoll (h : w.Accounted 2) {results : List SubmitResult}
    {last : SubmitResult} (hw : w.submitAndPoll results last = some w') : w.Moves w' :=
  moves_of_shifts h.fits (h.shifts_submitAndPoll hw)

theorem addSqe_spec (w : Worker ι) (op : Op ι) :
    (w.addSqe op).active.Perm (⟨w.added, op⟩ :: w.active) ∧
      (w.addSqe op).numberOfActiveTasks = w.numberOfActiveTasks + 1 ∧
      (w.addSqe op).added = w.added + 1 ∧
      (w.addSqe op).timeBoundedIoTaskQueue = w.timeBoundedIoTaskQueue ∧
      (w.addSqe op).kernel = w.kernel ∧ (w.addSqe op).completions = w.completions ∧
      (w.addSqe op).submitted = w.submitted ∧ (w.addSqe op).reaped = w.reaped ∧
      (w.addSqe op).ringSize = w.ringSize := by
  unfold addSqe
  split
  case h_1 w' hpush =>
    obtain ⟨-, rfl⟩ := of_guard hpush
    refine ⟨?_, rfl, rfl, rfl, rfl, rfl, rfl, rfl, rfl⟩
    simp only [active, List.append_assoc, List.cons_append, List.nil_append]
    rw [← List.append_assoc, ← List.append_assoc w.backlog]
    exact List.perm_middle
  case h_2 =>
    refine ⟨?_, rfl, rfl, rfl, rfl, rfl, rfl, rfl, rfl⟩
    simp only [active, List.append_assoc, List.cons_append, List.nil_append]
    exact List.perm_middle

theorem addSqe_fits (h : w.ring.length ≤ w.ringSize) (op : Op ι) :
    (w.addSqe op).ring.length ≤ (w.addSqe op).ringSize := by
  unfold addSqe
  split
  case h_1 w' hpush =>
    obtain ⟨hroom, rfl⟩ := of_guard hpush
    show (w.ring ++ [_]).length ≤ w.ringSize
    rw [List.length_append, List.length_singleton]
    exact hroom
  case h_2 => exact h

theorem Accounted.addSqe (h : w.Accounted least) (op : Op ι) : (w.addSqe op).Accounted least := by
  obtain ⟨hactive, hnumber, hadded, -, hkernel, hcompletions, hsubmitted, hreaped, hsize⟩ :=
    w.addSqe_spec op
  constructor
  case numbers =>
    rw [hadded, hreaped, List.range_succ]
    refine ((hactive.append_right _).map _).trans ?_
    rw [List.cons_append, List.map_cons]
    exact (h.numbers.cons w.added).trans (List.perm_append_singleton _ _).symm
  case submitted =>
    rw [hsubmitted, hkernel, hcompletions, hreaped]
    exact h.submitted
  case count => rw [hnumber, hactive.length_eq, List.length_cons, h.count]
  case fits => exact addSqe_fits h.fits op
  case size => exact hsize.symm ▸ h.size

theorem Accounted.checkDeadlines (h : w.Accounted least) (startRoundTime : ℕ) :
    (w.checkDeadlines startRoundTime).Accounted least := by
  unfold Worker.checkDeadlines
  have hfold : ∀ (l : List (ℕ × ι)) (v : Worker ι), v.Accounted least →
      (l.foldl (fun w expired => w.cancelEntry expired.2) v).Accounted least := by
    intro l
    induction l with
    | nil => exact fun v hv => hv
    | cons x l ih => exact fun v hv => ih _ (hv.addSqe _)
  exact hfold _ _ (h.setQueue _)

theorem complete_spec {n : ℕ} {result : ℤ} (h : w.complete n result = some w') :
    (w'.kernel ++ w'.completions.map Completion.entry).Perm
        (w.kernel ++ w.completions.map Completion.entry) ∧
      w' = { w with kernel := w'.kernel, completions := w'.completions } := by
  simp only [complete, Option.map_eq_some_iff] at h
  obtain ⟨x, hx, rfl⟩ := h
  refine ⟨?_, rfl⟩
  obtain ⟨hn, rfl⟩ := List.getElem?_eq_some_iff.mp hx
  rw [List.map_append, List.map_singleton, ← List.append_assoc]
  refine (List.perm_append_singleton _ _).trans ?_
  rw [← List.cons_append]
  exact (List.getElem_cons_eraseIdx_perm hn).append_right _

theorem Accounted.complete {n : ℕ} {result : ℤ} (h : w.Accounted least)
    (hc : w.complete n result = some w') : w'.Accounted least := by
  obtain ⟨hperm, heq⟩ := complete_spec hc
  have hactive : w'.active.Perm w.active := by
    rw [heq]
    exact (hperm.append_left _).append_left _
  rw [heq] at hactive ⊢
  constructor
  case numbers => exact ((hactive.append_right _).map _).trans h.numbers
  case submitted =>
    refine h.submitted.trans ?_
    have := (hperm.append_right w.reaped).symm
    simpa only [List.append_assoc] using this
  case count => exact h.count.trans hactive.length_eq.symm
  case fits => exact h.fits
  case size => exact h.size

theorem Accounted.completions_le (h : w.Accounted least) :
    w.completions.length ≤ w.numberOfActiveTasks := by
  rw [h.count]
  simp only [active, List.length_append, List.length_map]
  omega

theorem Accounted.sync (h : w.Accounted least) : w.sync.Accounted least where
  numbers := by
    refine List.Perm.trans (List.Perm.map _ ?_) h.numbers
    simp only [Worker.sync, active, List.append_assoc, List.map_nil, List.nil_append]
    exact ((List.perm_append_comm.append_left _).append_left _).append_left _
  submitted := by
    have := h.submitted
    simp only [Worker.sync, List.map_nil, List.nil_append]
    exact this.trans (List.perm_append_comm.append_left _)
  count := by
    simp only [Worker.sync, h.count, active, List.length_append, List.length_map, List.map_nil,
      List.length_nil]
    omega
  fits := h.fits
  size := h.size

end Worker

/-! ### Steps -/

namespace System

section Set

variable {ε ι : Type*} [DecidableEq ε] {s : System ε ι} {least : ℕ}

theorem forall_set {p : ε → Executor ι → Prop} {e : ε} {x : Executor ι} :
    (∀ e', p e' ((s.set e x).executors e')) ↔ p e x ∧ ∀ e', e' ≠ e → p e' (s.executors e') :=
  Function.forall_update_iff s.executors p

def AllAccounted (least : ℕ) (s : System ε ι) : Prop :=
  ∀ e, (s.executors e).worker.Accounted least

theorem AllAccounted.set (h : s.AllAccounted least) (e : ε) {x : Executor ι}
    (hx : x.worker.Accounted least) : (s.set e x).AllAccounted least :=
  (forall_set (p := fun _ y => y.worker.Accounted least)).mpr ⟨hx, fun e' _ => h e'⟩

end Set

variable {ε ι : Type*} [DecidableEq ε] [DecidableEq ι] {s t : System ε ι} {a : Action ε ι}
  {least : ℕ}

/-- **What a step can do.** -/
inductive Effect (s : System ε ι) : Action ε ι → System ε ι → Prop
  | tick (nanos : ℕ) : Effect s (.tick nanos) { s with clock := s.clock + nanos }
  | newRound (e : ε) : Effect s (.newRound e) (s.set e ((s.executors e).newRound s.clock))
  | request (e : ε) (i : ι) (isLocal : Bool) (deadline : Option ℕ) (hnew : s.requests i = none) :
      Effect s (.request e i isLocal deadline)
        ((s.set e ((s.executors e).request i deadline).2).setRequest i
          ⟨e, isLocal, ((s.executors e).request i deadline).1, none, false⟩)
  | mustPoll (e : ε) (results : List SubmitResult) (last : SubmitResult) (w : Worker ι)
      (hidle : (s.executors e).phase = .idle)
      (hw : ((s.executors e).worker.checkDeadlines
        (s.executors e).startRoundTime).submitAndPoll results last = some w) :
      Effect s (.mustPoll e results last)
        (s.set e (((s.executors e).setWorker w).setPhase .submitted))
  | complete (e : ε) (n : ℕ) (result : ℤ) (w : Worker ι)
      (hw : (s.executors e).worker.complete n result = some w) :
      Effect s (.complete e n result) (s.set e ((s.executors e).setWorker w))
  | sync (e : ε) (hsubmitted : (s.executors e).phase = .submitted) :
      Effect s (.sync e)
        (s.set e (((s.executors e).setWorker (s.executors e).worker.sync).setPhase
          (.reaping (s.executors e).worker.completions)))
  | reapEnd (e : ε) (now : Bool) (hphase : (s.executors e).phase = .reaping []) :
      Effect s (.reap e now) (s.set e ((s.executors e).setPhase .idle))
  | reapCancel (e : ε) (now : Bool) (n : ℕ) (i : ι) (result : ℤ) (rest : List (Completion ι))
      (hphase : (s.executors e).phase = .reaping (⟨⟨n, .asyncCancel i⟩, result⟩ :: rest)) :
      Effect s (.reap e now) (s.set e ((s.executors e).setPhase (.reaping rest)))
  | reapRequest (e : ε) (now : Bool) (n : ℕ) (i : ι) (result : ℤ) (rest : List (Completion ι))
      (r : Request ε)
      (hphase : (s.executors e).phase = .reaping (⟨⟨n, .request i⟩, result⟩ :: rest))
      (hr : s.requests i = some r) :
      Effect s (.reap e now)
        ((s.set e ((s.executors e).setPhase (.reaping rest))).handle e i r (toRet result) now)
  | resume (e : ε) (i : ι) (r : Request ε) (ret : Except ErrorKind ℕ)
      (hr : s.requests i = some r) (hret : r.ret = some ret) (hfinished : r.isFinished = false)
      (hhome : r.isLocal = true → r.executor = e) :
      Effect s (.resume e i) (s.finish e i r ret)

theorem effect_of_step (h : s.step a = some t) : s.Effect a t := by
  cases a with
  | tick nanos => exact Option.some.inj h ▸ .tick nanos
  | newRound e => exact Option.some.inj h ▸ .newRound e
  | request e i isLocal deadline =>
    obtain ⟨hnew, h⟩ := Option.ite_none_left_eq_some.mp h
    rw [Option.not_isSome_iff_eq_none] at hnew
    exact Option.some.inj h ▸ .request e i isLocal deadline hnew
  | mustPoll e results last =>
    simp only [step, Executor.mustPoll, Option.map_eq_some_iff] at h
    obtain ⟨x, hx, rfl⟩ := h
    split at hx
    case h_1 hidle =>
      obtain ⟨w, hw, rfl⟩ := Option.map_eq_some_iff.mp hx
      exact .mustPoll e results last w hidle hw
    case h_2 => cases hx
  | complete e n result =>
    simp only [step, Option.map_eq_some_iff] at h
    obtain ⟨w, hw, rfl⟩ := h
    exact .complete e n result w hw
  | sync e =>
    simp only [step, Executor.sync, Option.map_eq_some_iff] at h
    obtain ⟨x, hx, rfl⟩ := h
    split at hx
    case h_1 hsubmitted => exact Option.some.inj hx ▸ .sync e hsubmitted
    case h_2 => cases hx
  | reap e now =>
    simp only [step, reap] at h
    split at h
    case h_1 hphase => exact Option.some.inj h ▸ .reapEnd e now hphase
    case h_2 n i result rest hphase =>
      exact Option.some.inj h ▸ .reapCancel e now n i result rest hphase
    case h_3 n i result rest hphase =>
      obtain ⟨r, hr, rfl⟩ := Option.map_eq_some_iff.mp h
      exact .reapRequest e now n i result rest r hphase hr
    case h_4 => cases h
  | resume e i =>
    simp only [step, resume] at h
    split at h
    case h_2 => cases h
    case h_1 r hr =>
      split at h
      case h_2 => cases h
      case h_1 ret hret =>
        obtain ⟨hopen, h⟩ := Option.ite_none_left_eq_some.mp h
        simp only [Bool.or_eq_true, Bool.and_eq_true, decide_eq_true_eq, not_or, not_and,
          Bool.not_eq_true, not_not] at hopen
        exact Option.some.inj h ▸ .resume e i r ret hr hret hopen.1 hopen.2

/-! ### Runs -/

/-- Every submission of a full ring that succeeds takes an entry. -/
def freesSlots {ε ι : Type*} : Action ε ι → Bool
  | .mustPoll _ results _ => .ok 0 ∉ results
  | _ => true

theorem AllAccounted.step (h : s.AllAccounted least)
    (hfree : 2 ≤ least ∨ freesSlots a = true) (hstep : s.step a = some t) :
    t.AllAccounted least := by
  cases effect_of_step hstep with
  | tick nanos => exact h
  | newRound e | reapEnd e | reapCancel e => exact h.set e (h e)
  | request e i isLocal deadline hnew =>
    cases deadline with
    | none => exact h.set e ((h e).addSqe _)
    | some deadline => exact h.set e (((h e).setQueue _).addSqe _)
  | mustPoll e results last w hidle hw =>
    have hchecked := (h e).checkDeadlines (s.executors e).startRoundTime
    have hfrees : Worker.Frees _ results := hfree.imp hchecked.size.trans' of_decide_eq_true
    exact h.set e (hchecked.moves (Worker.moves_of_shifts hchecked.fits
      (Worker.shifts_submitAndPoll hchecked.fits hfrees hw)))
  | complete e n result w hw => exact h.set e ((h e).complete hw)
  | sync e hsubmitted => exact h.set e (h e).sync
  | reapRequest e now n i result rest r hphase hr =>
    have hset : (s.set e ((s.executors e).setPhase (.reaping rest))).AllAccounted least :=
      h.set e (h e)
    unfold handle
    split
    · exact hset.set e ((hset e).setQueue _)
    · exact hset
  | resume e i r ret hr hret hfinished hhome => exact h.set e ((h e).setQueue _)

/-- How often an entry is in a list. -/
def occurrences (k : ℕ) (l : List (Entry ι)) : ℕ := (l.map Entry.number).count k

structure EntriesKept (w : Worker ι) : Prop where
  /-- What was added is in the backlog, in the ring, with the kernel or reaped, and in one of these
  places only. -/
  place : ∀ k, occurrences k w.backlog + occurrences k w.ring +
    occurrences k (w.kernel ++ w.completions.map Completion.entry) + occurrences k w.reaped =
      if k < w.added then 1 else 0
  /-- It is submitted once, when it goes to the kernel. -/
  submittedOnce : ∀ k, occurrences k w.submitted =
    occurrences k (w.kernel ++ w.completions.map Completion.entry) + occurrences k w.reaped
  /-- `number_of_active_tasks` is the number of the entries that were not reaped. -/
  activeTasks : w.numberOfActiveTasks = w.backlog.length + w.ring.length +
    (w.kernel ++ w.completions.map Completion.entry).length
  /-- `must_poll` does not take more off it. -/
  noUnderflow : w.completions.length ≤ w.numberOfActiveTasks

/-- **The entries of a worker.** In every run in which a submission of a full ring that succeeds
frees a slot, each worker keeps its entries. -/
theorem submission_entriesKept {numberOfEntries now : ℕ}
    (h : Reach step (fun _ a => freesSlots a = true) (init numberOfEntries now) s) (e : ε) :
    EntriesKept (s.executors e).worker := by
  have hall : s.AllAccounted 0 :=
    h.invariant (fun _ => Worker.accounted_new (Nat.zero_le _))
      fun _ _ _ _ hi hfree hstep => hi.step (.inr hfree) hstep
  have haccount := hall e
  generalize (s.executors e).worker = w at haccount ⊢
  constructor
  case place =>
    intro k
    have hcount := haccount.numbers.count_eq k
    rw [List.Nodup.count List.nodup_range] at hcount
    simp only [List.mem_range] at hcount
    rw [← hcount]
    simp only [occurrences, Worker.active, List.map_append, List.count_append]
    omega
  case submittedOnce =>
    intro k
    have hcount := (haccount.submitted.map Entry.number).count_eq k
    rw [occurrences, hcount]
    simp only [occurrences, List.map_append, List.count_append]
    omega
  case activeTasks =>
    rw [haccount.count]
    simp only [Worker.active, List.length_append]
    omega
  case noUnderflow => exact haccount.completions_le

/-- A full ring, a backlog, a completion and a task that adds an entry before it is handled. -/
theorem submission_entriesKept_backlog :
    ∃ s : System Unit (Fin 4), Reach step (fun _ a => freesSlots a = true) (init 1 0) s ∧
      (s.executors ()).worker.numberOfActiveTasks = 3 ∧ EntriesKept (s.executors ()).worker := by
  have hreach : Reach step (fun _ a => freesSlots a = true)
      (init 1 0 : System Unit (Fin 4)) _ :=
    reach_of_execWhere [.request () 0 true none, .request () 1 true none, .request () 2 false none,
      .mustPoll () [.ok 1, .ebusy] (.ok 0), .complete () 0 7, .sync (), .request () 3 true none,
      .reap () true] rfl
  exact ⟨_, hreach, rfl, submission_entriesKept hreach ()⟩

end System

end Orengine.Io.IoUring
