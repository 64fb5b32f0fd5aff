import Orengine.Lib.Tally
import Orengine.Runtime.LocalThreadPool.LocalThreadPool

/-!
# The pool runs each job once

`pool_accounted`: a job that is pushed to the pool is run once, and its task is put back into the
queue of the executor once, after the job has returned; `wait` is the number of the tasks that were
pushed and not put back; and from every state the threads and the polls of the executor can bring
all tasks back.

For each job the invariant (`Stage`) says in how many channels, threads and places of the list it
is; for each task that awaits its job (`Held`), that it is with the pool or in the queue of the
executor.  That the pool can always go on is a rank that each step of a thread lowers
(`exists_step_of_rank`).
-/

namespace Orengine.Runtime.LocalThreadPool

open Orengine.Lib

namespace ThreadWorker

variable {τ : Type*}

/-- How many jobs a thread has. -/
def size (w : ThreadWorker τ) : ℕ :=
  match w.phase with
  | .receiving => w.channel.length
  | .running _ => w.channel.length + 1
  | .pushing _ => w.channel.length + 1

/-- How many steps a thread needs for its jobs. -/
def rank (w : ThreadWorker τ) : ℕ :=
  match w.phase with
  | .receiving => 3 * w.channel.length
  | .running _ => 3 * w.channel.length + 2
  | .pushing _ => 3 * w.channel.length + 1

theorem size_le_rank (w : ThreadWorker τ) : w.size ≤ w.rank := by
  obtain ⟨channel, phase⟩ := w
  cases phase <;> simp only [size, rank] <;> omega

theorem size_append (channel : List (ThreadWorkerTask τ)) (x : ThreadWorkerTask τ) (p : Phase τ) :
    size ⟨channel ++ [x], p⟩ = size ⟨channel, p⟩ + 1 := by
  cases p <;> simp [size]

/-- The tasks whose jobs a thread has. -/
def tasks (w : ThreadWorker τ) : List τ :=
  match w.phase with
  | .receiving => w.channel.map ThreadWorkerTask.task
  | .running x => x.task :: w.channel.map ThreadWorkerTask.task
  | .pushing x => x.task :: w.channel.map ThreadWorkerTask.task

theorem length_tasks (w : ThreadWorker τ) : w.tasks.length = w.size := by
  obtain ⟨channel, phase⟩ := w
  cases phase <;> simp [tasks, size]

variable [DecidableEq τ]

theorem count_tasks_append (channel : List (ThreadWorkerTask τ)) (x : ThreadWorkerTask τ)
    (p : Phase τ) (u : τ) :
    (tasks ⟨channel ++ [x], p⟩).count u = (tasks ⟨channel, p⟩).count u + oneAt x.task u := by
  cases p <;> simp [tasks, count_cons_eq_oneAt, Nat.add_right_comm]

/-- How often a job is in the channel. -/
def inChannel (x : ThreadWorkerTask τ) (w : ThreadWorker τ) : ℕ := w.channel.count x

def runs (x : ThreadWorkerTask τ) (w : ThreadWorker τ) : ℕ :=
  match w.phase with
  | .receiving => 0
  | .running y => oneAt y x
  | .pushing _ => 0

/-- Whether the thread has run a job and pushes its task. -/
def pushes (x : ThreadWorkerTask τ) (w : ThreadWorker τ) : ℕ :=
  match w.phase with
  | .receiving => 0
  | .running _ => 0
  | .pushing y => oneAt y x

theorem inChannel_le_size (x : ThreadWorkerTask τ) (w : ThreadWorker τ) :
    w.inChannel x ≤ w.size := by
  have hcount : w.inChannel x ≤ w.channel.length := List.count_le_length
  unfold size
  split <;> omega

theorem runs_le_size (x : ThreadWorkerTask τ) (w : ThreadWorker τ) : w.runs x ≤ w.size := by
  obtain ⟨channel, phase⟩ := w
  cases phase with
  | receiving | pushing => exact Nat.zero_le _
  | running y => exact Nat.le_trans (oneAt_le_one y x) (Nat.le_add_left ..)

theorem pushes_le_size (x : ThreadWorkerTask τ) (w : ThreadWorker τ) : w.pushes x ≤ w.size := by
  obtain ⟨channel, phase⟩ := w
  cases phase with
  | receiving | running => exact Nat.zero_le _
  | pushing y => exact Nat.le_trans (oneAt_le_one y x) (Nat.le_add_left ..)

end ThreadWorker

namespace LocalThreadWorkerPool

variable {τ : Type*} {n : ℕ} [DecidableEq τ] {p q : LocalThreadWorkerPool τ n}

/-- How many jobs of a task are in the channels, with the threads and in the list. -/
def holds (p : LocalThreadWorkerPool τ n) (u : τ) : ℕ :=
  tally (fun w => w.tasks.count u) p.workers + (p.resultList.map ThreadWorkerTask.task).count u

theorem holds_of_change {i : Fin (n + 1)} {w : ThreadWorker τ} (hw : p.workers i = w)
    (w' : ThreadWorker τ) (hworkers : q.workers = Function.update p.workers i w') (u : τ) :
    q.holds u + (w.tasks.count u + (p.resultList.map ThreadWorkerTask.task).count u) =
      p.holds u + (w'.tasks.count u + (q.resultList.map ThreadWorkerTask.task).count u) := by
  have hupdate := tally_update (fun w => w.tasks.count u) p.workers i w'
  rw [hw] at hupdate
  unfold holds
  rw [hworkers]
  omega

theorem holds_push (p : LocalThreadWorkerPool τ n) (x : ThreadWorkerTask τ) (u : τ) :
    (p.push x).holds u = p.holds u + oneAt x.task u := by
  have hchange := holds_of_change (q := p.push x) rfl
    ⟨(p.workers p.nextWorker).channel ++ [x], (p.workers p.nextWorker).phase⟩ rfl u
  rw [ThreadWorker.count_tasks_append] at hchange
  change _ + ((p.workers p.nextWorker).tasks.count u + _) =
    _ + ((p.workers p.nextWorker).tasks.count u + _ + (p.resultList.map _).count u) at hchange
  omega

end LocalThreadWorkerPool

namespace System

variable {τ : Type*} {n : ℕ} [DecidableEq τ] {s t : System τ n} {a : Action τ n}
  {x y : ThreadWorkerTask τ}

/-! ### What a step can do -/

/-- **What a step can do.** -/
inductive Effect (s : System τ n) : Action τ n → System τ n → Prop
  | asyncify (u : τ) (hnew : s.futures u = none) (hmem : u ∉ s.localTasks) :
      Effect s (.asyncify u) ((s.setFuture u (some ⟨true⟩)).pushFnToThreadPool u)
  | spawn (u : τ) (hnew : s.futures u = none) :
      Effect s (.spawn u) { s with localTasks := s.localTasks ++ [u] }
  | execOther (u : τ) (hf : s.futures u = none) :
      Effect s (.exec u) { s with localTasks := s.localTasks.erase u }
  | execReady (u : τ) (hmem : u ∈ s.localTasks) (hf : (s.futures u).isSome) :
      Effect s (.exec u) ({ s with localTasks := s.localTasks.erase u }.setFuture u none)
  | execAgain (u : τ) (f : Asyncify) (hf : s.futures u = some f) (hcalled : f.wasCalled = false) :
      Effect s (.exec u)
        (({ s with localTasks := s.localTasks.erase u }.setFuture u
          (some ⟨true⟩)).pushFnToThreadPool u)
  | recv (i : Fin (n + 1)) (x : ThreadWorkerTask τ) (channel : List (ThreadWorkerTask τ))
      (hw : s.pool.workers i = ⟨x :: channel, .receiving⟩) :
      Effect s (.recv i) (s.setWorker i ⟨channel, .running x⟩ [.started x])
  | finish (i : Fin (n + 1)) (x : ThreadWorkerTask τ) (channel : List (ThreadWorkerTask τ))
      (hw : s.pool.workers i = ⟨channel, .running x⟩) :
      Effect s (.finish i) (s.setWorker i ⟨channel, .pushing x⟩ [.finished x])
  | pushResult (i : Fin (n + 1)) (x : ThreadWorkerTask τ) (channel : List (ThreadWorkerTask τ))
      (hw : s.pool.workers i = ⟨channel, .pushing x⟩) :
      Effect s (.pushResult i)
        (s.setPool ((s.pool.setWorker i ⟨channel, .receiving⟩).pushResult x))
  | pollIdle (hwait : s.pool.wait = 0) : Effect s .poll s
  | poll (hwait : s.pool.wait ≠ 0) :
      Effect s .poll
        { s with
            pool := ⟨s.pool.wait - s.pool.resultList.length, s.pool.workers, []⟩
            localTasks := s.pool.popAllInDeque s.localTasks
            log := s.log ++ s.pool.resultList.map .putBack }

omit [DecidableEq τ] in
/-- What `poll` does to the executor. -/
theorem poll_eq (s : System τ n) :
    s.poll =
      if s.pool.wait = 0 then s
      else
        { s with
            pool := ⟨s.pool.wait - s.pool.resultList.length, s.pool.workers, []⟩
            localTasks := s.pool.popAllInDeque s.localTasks
            log := s.log ++ s.pool.resultList.map .putBack } := by
  have hlength : (s.pool.popAllInDeque s.localTasks).length - s.localTasks.length =
      s.pool.resultList.length := by
    simp [LocalThreadWorkerPool.popAllInDeque]
  by_cases hwait : s.pool.wait = 0
  · simp only [poll, LocalThreadWorkerPool.poll, if_pos hwait]
  · simp only [poll, LocalThreadWorkerPool.poll, if_neg hwait, hlength]

theorem effect_of_step (h : s.step a = some t) : s.Effect a t := by
  cases a with
  | asyncify u =>
    simp only [step] at h
    split at h
    case isTrue hnew => exact Option.some.inj h ▸ .asyncify u hnew.1 hnew.2
    case isFalse => cases h
  | spawn u =>
    simp only [step] at h
    split at h
    case isTrue hnew => exact Option.some.inj h ▸ .spawn u hnew.1
    case isFalse => cases h
  | exec u =>
    simp only [step] at h
    split at h
    case isFalse => cases h
    case isTrue hmem =>
      obtain rfl := Option.some.inj h
      unfold exec
      cases hf : s.futures u with
      | none => exact .execOther u hf
      | some f =>
        obtain ⟨wasCalled⟩ := f
        cases wasCalled with
        | true => exact .execReady u hmem (by rw [hf]; rfl)
        | false => exact .execAgain u _ hf rfl
  | recv i =>
    simp only [step, recv] at h
    split at h
    case h_1 x channel hw => exact Option.some.inj h ▸ .recv i x channel hw
    case h_2 => cases h
  | finish i =>
    simp only [step, finish] at h
    split at h
    case h_1 channel x hw => exact Option.some.inj h ▸ .finish i x channel hw
    case h_2 => cases h
  | pushResult i =>
    simp only [step, pushResult] at h
    split at h
    case h_1 channel x hw => exact Option.some.inj h ▸ .pushResult i x channel hw
    case h_2 => cases h
  | poll =>
    obtain rfl := Option.some.inj h
    rw [poll_eq]
    split
    case isTrue hwait => exact .pollIdle hwait
    case isFalse hwait => exact .poll hwait

/-! ### Where a job is -/

def IsPushed (s : System τ n) (x : ThreadWorkerTask τ) : Prop := s.pushed[x.job]? = some x.task

/-- What the log has of a job. -/
def history (s : System τ n) (x : ThreadWorkerTask τ) : List (Event τ) :=
  s.log.filter fun e => e.about = x

/-- How often a job is in a channel, with a thread that runs it, and with a thread that has run it
or in the list of the pool. -/
structure Place (s : System τ n) (x : ThreadWorkerTask τ) (queued running done : ℕ) : Prop where
  queued : tally (ThreadWorker.inChannel x) s.pool.workers = queued
  running : tally (ThreadWorker.runs x) s.pool.workers = running
  done : tally (ThreadWorker.pushes x) s.pool.workers + s.pool.resultList.count x = done

/-- What happens to a job, in order. -/
def stages (x : ThreadWorkerTask τ) : List (Event τ) :=
  [.pushed x, .started x, .finished x, .putBack x]

/-- How far a job is, and where. -/
inductive Stage (s : System τ n) (x : ThreadWorkerTask τ) : Prop
  | new (hpushed : ¬s.IsPushed x) (hplace : s.Place x 0 0 0) (hlog : s.history x = [])
  | queued (hpushed : s.IsPushed x) (hplace : s.Place x 1 0 0)
      (hlog : s.history x = (stages x).take 1)
  | running (hpushed : s.IsPushed x) (hplace : s.Place x 0 1 0)
      (hlog : s.history x = (stages x).take 2)
  | done (hpushed : s.IsPushed x) (hplace : s.Place x 0 0 1)
      (hlog : s.history x = (stages x).take 3)
  | putBack (hpushed : s.IsPushed x) (hplace : s.Place x 0 0 0) (hlog : s.history x = stages x)

theorem Stage.congr (h : s.Stage x) (hpushed : t.IsPushed x ↔ s.IsPushed x)
    (hplace : ∀ q r d, s.Place x q r d → t.Place x q r d) (hlog : t.history x = s.history x) :
    t.Stage x := by
  cases h with
  | new hp hpl hl => exact .new (mt hpushed.mp hp) (hplace _ _ _ hpl) (hlog.trans hl)
  | queued hp hpl hl => exact .queued (hpushed.mpr hp) (hplace _ _ _ hpl) (hlog.trans hl)
  | running hp hpl hl => exact .running (hpushed.mpr hp) (hplace _ _ _ hpl) (hlog.trans hl)
  | done hp hpl hl => exact .done (hpushed.mpr hp) (hplace _ _ _ hpl) (hlog.trans hl)
  | putBack hp hpl hl => exact .putBack (hpushed.mpr hp) (hplace _ _ _ hpl) (hlog.trans hl)

/-- The next event of a job comes behind the earlier ones. -/
theorem history_next {k : ℕ} {e : Event τ} (h : s.history x = (stages x).take k)
    (hlog : t.log = s.log ++ [e]) (he : (stages x)[k]? = some e) :
    t.history x = (stages x).take (k + 1) := by
  have habout : ∀ e ∈ stages x, e.about = x := by simp [stages, Event.about]
  have hx : e.about = x := habout e (List.mem_of_getElem? he)
  unfold history at h ⊢
  rw [hlog, List.filter_append, h, List.filter_singleton, decide_eq_true hx, List.take_add_one, he]
  rfl

theorem history_of_not_about {l : List (Event τ)} (hlog : t.log = s.log ++ l)
    (hl : ∀ e ∈ l, e.about ≠ x) : t.history x = s.history x := by
  have hnone : l.filter (fun e => e.about = x) = [] := by
    apply List.filter_eq_nil_iff.mpr
    intro e he hx
    exact hl e he (of_decide_eq_true hx)
  unfold history
  rw [hlog, List.filter_append, hnone, List.append_nil]

/-! ### Where the steps bring a job -/

section Place

variable {q r d : ℕ} {i : Fin (n + 1)} {channel : List (ThreadWorkerTask τ)}

/-- **One thread changes**, and perhaps the list: what the job has less or more there is what its
counts lose or gain. -/
theorem Place.change (h : s.Place x q r d) {w : ThreadWorker τ} (hw : s.pool.workers i = w)
    (w' : ThreadWorker τ) (hworkers : t.pool.workers = Function.update s.pool.workers i w')
    {q' r' d' : ℕ}
    (hq : q' + w.inChannel x = q + w'.inChannel x) (hr : r' + w.runs x = r + w'.runs x)
    (hd : d' + (w.pushes x + s.pool.resultList.count x) =
      d + (w'.pushes x + t.pool.resultList.count x)) : t.Place x q' r' d' := by
  have hupdate (f : ThreadWorker τ → ℕ) :
      tally f t.pool.workers + f w = tally f s.pool.workers + f w' := by
    rw [hworkers, ← hw]
    exact tally_update f s.pool.workers i w'
  have hqueued := h.queued
  have hrunning := h.running
  have hdone := h.done
  refine ⟨?_, ?_, ?_⟩
  · have := hupdate (ThreadWorker.inChannel x)
    omega
  · have := hupdate (ThreadWorker.runs x)
    omega
  · have := hupdate (ThreadWorker.pushes x)
    omega

theorem Place.recv (h : s.Place x q r d) (hw : s.pool.workers i = ⟨y :: channel, .receiving⟩)
    (l : List (Event τ)) :
    oneAt y x ≤ q ∧
      (s.setWorker i ⟨channel, .running y⟩ l).Place x (q - oneAt y x) (r + oneAt y x) d := by
  have hle : oneAt y x ≤ q := by
    have hthread := le_tally (ThreadWorker.inChannel x) s.pool.workers i
    rw [hw, h.queued, ThreadWorker.inChannel, count_cons_eq_oneAt] at hthread
    omega
  refine ⟨hle, h.change hw ⟨channel, .running y⟩ rfl ?_ rfl rfl⟩
  simp only [ThreadWorker.inChannel, count_cons_eq_oneAt]
  omega

theorem Place.finish (h : s.Place x q r d) (hw : s.pool.workers i = ⟨channel, .running y⟩)
    (l : List (Event τ)) :
    oneAt y x ≤ r ∧
      (s.setWorker i ⟨channel, .pushing y⟩ l).Place x q (r - oneAt y x) (d + oneAt y x) := by
  have hle : oneAt y x ≤ r := by
    have hthread := le_tally (ThreadWorker.runs x) s.pool.workers i
    rw [hw, h.running] at hthread
    exact hthread
  refine ⟨hle, h.change hw ⟨channel, .pushing y⟩ rfl rfl ?_ ?_⟩
  · exact Nat.sub_add_cancel hle
  · simp only [ThreadWorker.pushes, setWorker, LocalThreadWorkerPool.setWorker]
    omega

theorem Place.pushResult (h : s.Place x q r d) (hw : s.pool.workers i = ⟨channel, .pushing y⟩) :
    (s.setPool ((s.pool.setWorker i ⟨channel, .receiving⟩).pushResult y)).Place x q r d := by
  refine h.change hw ⟨channel, .receiving⟩ rfl rfl rfl ?_
  simp only [ThreadWorker.pushes, setPool, LocalThreadWorkerPool.pushResult,
    LocalThreadWorkerPool.setWorker, List.count_append, count_singleton_eq_oneAt]
  omega

theorem Place.push (h : s.Place x q r d) (u : τ) :
    (s.pushFnToThreadPool u).Place x (q + oneAt ⟨u, s.pushed.length⟩ x) r d := by
  refine h.change (i := s.pool.nextWorker) rfl
    ⟨(s.pool.workers s.pool.nextWorker).channel ++ [⟨u, s.pushed.length⟩],
      (s.pool.workers s.pool.nextWorker).phase⟩ rfl ?_ rfl rfl
  simp only [ThreadWorker.inChannel, List.count_append, count_singleton_eq_oneAt]
  omega

end Place

/-! ### The stages -/

section Stage

variable {i : Fin (n + 1)} {channel : List (ThreadWorkerTask τ)}

theorem Stage.of_queued (h : s.Stage x)
    (hpos : 0 < tally (ThreadWorker.inChannel x) s.pool.workers) :
    s.IsPushed x ∧ s.Place x 1 0 0 ∧ s.history x = (stages x).take 1 := by
  cases h with
  | new _ hplace | running _ hplace | done _ hplace | putBack _ hplace =>
    exact absurd hplace.queued (Nat.ne_of_gt hpos)
  | queued hpushed hplace hlog => exact ⟨hpushed, hplace, hlog⟩

theorem Stage.of_running (h : s.Stage x) (hpos : 0 < tally (ThreadWorker.runs x) s.pool.workers) :
    s.IsPushed x ∧ s.Place x 0 1 0 ∧ s.history x = (stages x).take 2 := by
  cases h with
  | new _ hplace | queued _ hplace | done _ hplace | putBack _ hplace =>
    exact absurd hplace.running (Nat.ne_of_gt hpos)
  | running hpushed hplace hlog => exact ⟨hpushed, hplace, hlog⟩

theorem Stage.of_mem_resultList (h : s.Stage x) (hmem : x ∈ s.pool.resultList) :
    s.IsPushed x ∧ s.Place x 0 0 1 ∧ s.history x = (stages x).take 3 := by
  have hpos : tally (ThreadWorker.pushes x) s.pool.workers + s.pool.resultList.count x ≠ 0 := by
    have := List.count_pos_iff.mpr hmem
    omega
  cases h with
  | new _ hplace | queued _ hplace | running _ hplace | putBack _ hplace =>
    exact absurd hplace.done hpos
  | done hpushed hplace hlog => exact ⟨hpushed, hplace, hlog⟩

/-- One job goes on to its next stage, and the others stay where they are. -/
theorem Stage.next (h : ∀ x, s.Stage x) {e : Event τ} (hlog : t.log = s.log ++ [e])
    (he : e.about = y) (hself : t.Stage y)
    (hothers : ∀ x, y ≠ x → (t.IsPushed x ↔ s.IsPushed x) ∧
      ∀ q r d, s.Place x q r d → t.Place x q r d)
    (x : ThreadWorkerTask τ) : t.Stage x := by
  by_cases hx : y = x
  · exact hx ▸ hself
  · obtain ⟨hpushed, hplace⟩ := hothers x hx
    refine (h x).congr hpushed hplace (history_of_not_about hlog fun e' he' => ?_)
    rwa [List.mem_singleton.mp he', he]

theorem Stage.recv (h : ∀ x, s.Stage x) (hw : s.pool.workers i = ⟨y :: channel, .receiving⟩) :
    ∀ x, (s.setWorker i ⟨channel, .running y⟩ [.started y]).Stage x := by
  refine Stage.next (y := y) h rfl rfl ?_ fun x hx => ⟨Iff.rfl, fun q r d hplace => ?_⟩
  · have hpos := (Place.recv ⟨rfl, rfl, rfl⟩ hw [] (x := y)).1
    rw [oneAt_self] at hpos
    obtain ⟨hpushed, hplace, hlog⟩ := (h y).of_queued hpos
    have hnext := (hplace.recv hw [.started y]).2
    rw [oneAt_self] at hnext
    exact .running hpushed hnext (history_next hlog rfl rfl)
  · have hnext := (hplace.recv hw [.started y]).2
    rwa [oneAt_of_ne hx] at hnext

theorem Stage.finish (h : ∀ x, s.Stage x) (hw : s.pool.workers i = ⟨channel, .running y⟩) :
    ∀ x, (s.setWorker i ⟨channel, .pushing y⟩ [.finished y]).Stage x := by
  refine Stage.next (y := y) h rfl rfl ?_ fun x hx => ⟨Iff.rfl, fun q r d hplace => ?_⟩
  · have hpos := (Place.finish ⟨rfl, rfl, rfl⟩ hw [] (x := y)).1
    rw [oneAt_self] at hpos
    obtain ⟨hpushed, hplace, hlog⟩ := (h y).of_running hpos
    have hnext := (hplace.finish hw [.finished y]).2
    rw [oneAt_self] at hnext
    exact .done hpushed hnext (history_next hlog rfl rfl)
  · have hnext := (hplace.finish hw [.finished y]).2
    rwa [oneAt_of_ne hx] at hnext

theorem Stage.pushResult (h : s.Stage x) (hw : s.pool.workers i = ⟨channel, .pushing y⟩) :
    (s.setPool ((s.pool.setWorker i ⟨channel, .receiving⟩).pushResult y)).Stage x :=
  h.congr Iff.rfl (fun _ _ _ hplace => hplace.pushResult hw) rfl

omit [DecidableEq τ] in
theorem isPushed_push (u : τ) (x : ThreadWorkerTask τ) :
    (s.pushFnToThreadPool u).IsPushed x ↔ x = ⟨u, s.pushed.length⟩ ∨ s.IsPushed x := by
  obtain ⟨v, k⟩ := x
  show (s.pushed ++ [u])[k]? = some v ↔ _ ∨ s.pushed[k]? = some v
  rw [List.getElem?_append, ThreadWorkerTask.mk.injEq]
  split
  case isTrue hlt =>
    refine (or_iff_right ?_).symm
    rintro ⟨-, rfl⟩
    exact Nat.lt_irrefl _ hlt
  case isFalse hge =>
    rw [List.getElem?_eq_none (Nat.le_of_not_lt hge), or_iff_left (nofun)]
    rw [List.getElem?_singleton]
    split
    case isTrue hk =>
      have : k = s.pushed.length := by omega
      simp [this, eq_comm]
    case isFalse hk =>
      have : k ≠ s.pushed.length := by omega
      simp [this]

theorem Stage.push (h : ∀ x, s.Stage x) (u : τ) : ∀ x, (s.pushFnToThreadPool u).Stage x := by
  refine Stage.next (y := ⟨u, s.pushed.length⟩) h rfl rfl ?_ fun x hx =>
    ⟨?_, fun q r d hplace => ?_⟩
  · have hnot : ¬s.IsPushed ⟨u, s.pushed.length⟩ := by
      intro hpushed
      obtain ⟨hlt, -⟩ := List.getElem?_eq_some_iff.mp hpushed
      exact Nat.lt_irrefl _ hlt
    cases h ⟨u, s.pushed.length⟩ with
    | new _ hplace hlog =>
      have hnext := hplace.push u
      rw [oneAt_self] at hnext
      exact .queued ((isPushed_push u _).mpr (.inl rfl)) hnext (history_next hlog rfl rfl)
    | queued hpushed | running hpushed | done hpushed | putBack hpushed => exact absurd hpushed hnot
  · exact (isPushed_push u x).trans (or_iff_right (Ne.symm hx))
  · have hnext := hplace.push u
    rwa [oneAt_of_ne hx] at hnext

theorem Stage.poll (h : s.Stage x) (wait : ℕ) (localTasks : List τ) :
    Stage
      { s with
          pool := ⟨wait, s.pool.workers, []⟩
          localTasks := localTasks
          log := s.log ++ s.pool.resultList.map .putBack } x := by
  by_cases hx : x ∈ s.pool.resultList
  · obtain ⟨hpushed, hplace, hlog⟩ := h.of_mem_resultList hx
    -- It is there once, and with no thread any more.
    have hcount : s.pool.resultList.count x = 1 ∧
        tally (ThreadWorker.pushes x) s.pool.workers = 0 := by
      have hpos := List.count_pos_iff.mpr hx
      have hdone := hplace.done
      omega
    have hfilter : (s.pool.resultList.map Event.putBack).filter (fun e => e.about = x) =
        [.putBack x] := by
      rw [List.filter_map]
      show (s.pool.resultList.filter fun y => y = x).map Event.putBack = _
      rw [List.filter_eq, hcount.1]
      rfl
    refine .putBack hpushed ⟨hplace.queued, hplace.running, hcount.2⟩ ?_
    unfold history at hlog ⊢
    rw [List.filter_append, hlog, hfilter]
    rfl
  · refine h.congr Iff.rfl (fun q r d hplace => ⟨hplace.queued, hplace.running, ?_⟩) ?_
    · have hdone := hplace.done
      rw [List.count_eq_zero.mpr hx] at hdone
      exact hdone
    · refine history_of_not_about rfl fun e he => ?_
      obtain ⟨y, hy, rfl⟩ := List.mem_map.mp he
      rintro rfl
      exact hx hy

end Stage

/-! ### Where a task is -/

/-- A task that awaits an `Asyncify` is with the pool or in the queue of the executor, and once;
another one is not with the pool. -/
structure Held (s : System τ n) (u : τ) : Prop where
  waiting : (s.futures u).isSome → s.pool.holds u + s.localTasks.count u = 1
  other : s.futures u = none → s.pool.holds u = 0

namespace Held

variable {u v : τ}

theorem keep (h : s.Held u) (hf : t.futures u = s.futures u)
    (hpool : t.pool.holds u = s.pool.holds u)
    (hlocal : (s.futures u).isSome → t.localTasks.count u = s.localTasks.count u) : t.Held u where
  waiting hsome := by
    rw [hf] at hsome
    rw [hpool, hlocal hsome]
    exact h.waiting hsome
  other hnone := hpool.trans (h.other (hf.symm.trans hnone))

theorem setLocalTasks (h : s.Held u) (hnone : s.futures v = none) {l : List τ}
    (hl : u ≠ v → l.count u = s.localTasks.count u) : Held { s with localTasks := l } u := by
  refine h.keep rfl rfl fun hsome => hl ?_
  rintro rfl
  rw [hnone] at hsome
  cases hsome

theorem asyncify (h : s.Held u) (hnew : s.futures v = none) (hmem : v ∉ s.localTasks) :
    ((s.setFuture v (some ⟨true⟩)).pushFnToThreadPool v).Held u := by
  have hpush := s.pool.holds_push ⟨v, s.pushed.length⟩ u
  by_cases hu : u = v
  · subst hu
    rw [oneAt_self, h.other hnew] at hpush
    refine ⟨fun _ => ?_, fun hf => ?_⟩
    · exact congrArg₂ (· + ·) hpush (List.count_eq_zero.mpr hmem)
    · cases (Function.update_self u _ s.futures).symm.trans hf
  · rw [oneAt_of_ne (Ne.symm hu)] at hpush
    exact h.keep (Function.update_of_ne hu ..) hpush fun _ => rfl

theorem execReady (h : s.Held u) (hmem : v ∈ s.localTasks) (hf : (s.futures v).isSome) :
    ({ s with localTasks := s.localTasks.erase v }.setFuture v none).Held u := by
  by_cases hu : u = v
  · subst hu
    have hpos := List.count_pos_iff.mpr hmem
    have hone := h.waiting hf
    refine ⟨fun hsome => ?_, fun _ => (by omega : s.pool.holds u = 0)⟩
    have hnone : (Function.update s.futures u none u).isSome = true := hsome
    rw [Function.update_self] at hnone
    cases hnone
  · exact h.keep (Function.update_of_ne hu ..) rfl fun _ => List.count_erase_of_ne hu

theorem change (h : s.Held u) {i : Fin (n + 1)} {w : ThreadWorker τ}
    (hw : s.pool.workers i = w) (w' : ThreadWorker τ)
    (hworkers : t.pool.workers = Function.update s.pool.workers i w')
    (htasks : w.tasks.count u + (s.pool.resultList.map ThreadWorkerTask.task).count u =
      w'.tasks.count u + (t.pool.resultList.map ThreadWorkerTask.task).count u)
    (hf : t.futures = s.futures) (hlocal : t.localTasks = s.localTasks) : t.Held u := by
  have hchange := LocalThreadWorkerPool.holds_of_change hw w' hworkers u
  exact h.keep (congrFun hf u) (by omega) fun _ => by rw [hlocal]

theorem poll (h : s.Held u) (wait : ℕ) (log : List (Event τ)) :
    Held
      { s with
          pool := ⟨wait, s.pool.workers, []⟩
          localTasks := s.pool.popAllInDeque s.localTasks
          log := log } u where
  waiting hsome := by
    refine Eq.trans ?_ (h.waiting hsome)
    show tally _ s.pool.workers + 0 + (s.localTasks ++ _).count u =
      tally _ s.pool.workers + (s.pool.resultList.map _).count u + _
    rw [List.count_append]
    omega
  other hnone := Nat.eq_zero_of_add_eq_zero_right (h.other hnone)

end Held

/-! ### Whole runs -/

def putBacks (s : System τ n) : ℕ := (s.log.filter Event.isPutBack).length

omit [DecidableEq τ] in
theorem putBacks_append {l : List (Event τ)} (hlog : t.log = s.log ++ l) :
    t.putBacks = s.putBacks + (l.filter Event.isPutBack).length := by
  rw [putBacks, hlog, List.filter_append, List.length_append]
  rfl

/-- What holds in every run. -/
structure Sound (s : System τ n) : Prop where
  stage (x : ThreadWorkerTask τ) : s.Stage x
  held (u : τ) : s.Held u
  /-- A future that a task still awaits has invoked its call. -/
  called (u : τ) (f : Asyncify) : s.futures u = some f → f.wasCalled = true
  /-- `wait` counts the jobs of the threads and the tasks in the list. -/
  wait : s.pool.wait = tally ThreadWorker.size s.pool.workers + s.pool.resultList.length
  /-- `wait` counts the tasks that were pushed and not put back. -/
  outstanding : s.pushed.length = s.pool.wait + s.putBacks

theorem sound_init : (init : System τ n).Sound := by
  have hzero {f : ThreadWorker τ → ℕ} (hf : f ⟨[], .receiving⟩ = 0) :
      tally f (init : System τ n).pool.workers = 0 := tally_const_zero f _ hf
  refine ⟨fun x => .new nofun ⟨hzero rfl, hzero rfl, ?_⟩ rfl, fun u => ⟨nofun, fun _ => ?_⟩,
    nofun, ?_, rfl⟩
  · rw [hzero rfl]
    rfl
  · rw [LocalThreadWorkerPool.holds, hzero rfl]
    rfl
  · rw [hzero rfl]
    rfl

namespace Sound

theorem other (h : s.Sound) (hheld : ∀ u, t.Held u) (hpool : t.pool = s.pool)
    (hpushed : t.pushed = s.pushed) (hlog : t.log = s.log)
    (hfutures : ∀ u f, t.futures u = some f → s.futures u = some f ∨ f.wasCalled = true) :
    t.Sound where
  stage x := by
    refine (h.stage x).congr ?_ (fun q r d hplace => ?_) ?_
    · rw [IsPushed, hpushed, IsPushed]
    · exact ⟨hpool ▸ hplace.queued, hpool ▸ hplace.running, hpool ▸ hplace.done⟩
    · rw [history, hlog, history]
  held := hheld
  called u f hf := (hfutures u f hf).elim (h.called u f) id
  wait := by
    rw [hpool]
    exact h.wait
  outstanding := by
    rw [hpool, hpushed, putBacks, hlog]
    exact h.outstanding

theorem called_setFuture (u : τ) {f : Option Asyncify}
    (hf : ∀ g, f = some g → g.wasCalled = true) (v : τ) (g : Asyncify)
    (hg : Function.update s.futures u f v = some g) :
    s.futures v = some g ∨ g.wasCalled = true := by
  by_cases hv : v = u
  · subst hv
    rw [Function.update_self] at hg
    exact .inr (hf g hg)
  · rw [Function.update_of_ne hv] at hg
    exact .inl hg

/-- A thread changes, and perhaps the list, and the rest goes on as before. -/
theorem wait_of_change (h : s.Sound) {i : Fin (n + 1)} {w : ThreadWorker τ}
    (hw : s.pool.workers i = w) (w' : ThreadWorker τ)
    (hworkers : t.pool.workers = Function.update s.pool.workers i w')
    (hwait : t.pool.wait + (w.size + s.pool.resultList.length) =
      s.pool.wait + (w'.size + t.pool.resultList.length)) :
    t.pool.wait = tally ThreadWorker.size t.pool.workers + t.pool.resultList.length := by
  have hupdate := tally_update ThreadWorker.size s.pool.workers i w'
  have hold := h.wait
  rw [hw] at hupdate
  rw [hworkers]
  omega

theorem push (h : s.Sound) {u : τ} (hnew : s.futures u = none) (hmem : u ∉ s.localTasks) :
    ((s.setFuture u (some ⟨true⟩)).pushFnToThreadPool u).Sound where
  stage := Stage.push (s := s.setFuture u (some ⟨true⟩))
    (fun x => (h.stage x).congr Iff.rfl (fun _ _ _ hplace => ⟨hplace.1, hplace.2, hplace.3⟩) rfl) u
  held v := (h.held v).asyncify hnew hmem
  called v g hg :=
    (called_setFuture u (by rintro _ ⟨⟩; rfl) v g hg).elim (h.called v g) id
  wait := by
    refine h.wait_of_change (i := s.pool.nextWorker) rfl
      ⟨(s.pool.workers s.pool.nextWorker).channel ++ [⟨u, s.pushed.length⟩],
        (s.pool.workers s.pool.nextWorker).phase⟩ rfl ?_
    rw [ThreadWorker.size_append]
    show s.pool.wait + 1 + ((s.pool.workers s.pool.nextWorker).size + s.pool.resultList.length) =
      s.pool.wait + ((s.pool.workers s.pool.nextWorker).size + 1 + s.pool.resultList.length)
    omega
  outstanding := by
    rw [putBacks_append (s := s) rfl]
    show (s.pushed ++ [u]).length = s.pool.wait + 1 + (s.putBacks + 0)
    rw [List.length_append, h.outstanding, List.length_singleton]
    omega

end Sound

theorem Sound.step (h : s.Sound) (hstep : s.step a = some t) : t.Sound := by
  cases effect_of_step hstep with
  | asyncify u hnew hmem => exact h.push hnew hmem
  | spawn u hnew =>
    refine h.other (fun v => (h.held v).setLocalTasks hnew fun hv => ?_) rfl rfl rfl
      fun _ _ hf => .inl hf
    rw [List.count_append, count_singleton_eq_oneAt, oneAt_of_ne (Ne.symm hv), Nat.add_zero]
  | execOther u hnone =>
    exact h.other (fun v => (h.held v).setLocalTasks hnone fun hv => List.count_erase_of_ne hv)
      rfl rfl rfl fun _ _ hf => .inl hf
  | execReady u hmem hf =>
    exact h.other (fun v => (h.held v).execReady hmem hf) rfl rfl rfl
      (called_setFuture u nofun)
  | execAgain u f hf hcalled =>
    rw [h.called u f hf] at hcalled
    cases hcalled
  | recv i x channel hw =>
    refine ⟨Stage.recv h.stage hw, fun u => (h.held u).change hw _ rfl rfl rfl rfl, h.called,
      h.wait_of_change hw ⟨channel, .running x⟩ rfl rfl, ?_⟩
    rw [putBacks_append (s := s) rfl]
    exact h.outstanding
  | finish i x channel hw =>
    refine ⟨Stage.finish h.stage hw, fun u => (h.held u).change hw _ rfl rfl rfl rfl, h.called,
      h.wait_of_change hw ⟨channel, .pushing x⟩ rfl rfl, ?_⟩
    rw [putBacks_append (s := s) rfl]
    exact h.outstanding
  | pushResult i x channel hw =>
    refine ⟨fun y => (h.stage y).pushResult hw,
      fun u => (h.held u).change hw ⟨channel, .receiving⟩ rfl ?_ rfl rfl, h.called,
      h.wait_of_change hw ⟨channel, .receiving⟩ rfl ?_, h.outstanding⟩
    · simp only [ThreadWorker.tasks, setPool, LocalThreadWorkerPool.pushResult,
        LocalThreadWorkerPool.setWorker, List.map_append, List.count_append, List.map_singleton,
        count_cons_eq_oneAt, List.count_nil]
      omega
    show s.pool.wait + (channel.length + 1 + s.pool.resultList.length) =
      s.pool.wait + (channel.length + (s.pool.resultList ++ [x]).length)
    rw [List.length_append, List.length_singleton]
    omega
  | pollIdle => exact h
  | poll hwait =>
    have hold := h.wait
    refine ⟨fun y => (h.stage y).poll _ _, fun u => (h.held u).poll _ _, h.called, ?_, ?_⟩
    · show s.pool.wait - s.pool.resultList.length = tally ThreadWorker.size s.pool.workers + 0
      omega
    · have hfilter : (s.pool.resultList.map Event.putBack).filter Event.isPutBack =
          s.pool.resultList.map Event.putBack := by
        apply List.filter_eq_self.mpr
        intro e he
        obtain ⟨y, -, rfl⟩ := List.mem_map.mp he
        rfl
      rw [putBacks_append (s := s) rfl, hfilter, List.length_map]
      show s.pushed.length = s.pool.wait - s.pool.resultList.length + _
      rw [h.outstanding]
      omega

theorem sound_of_reachable (h : Reachable step (init : System τ n) s) : s.Sound :=
  h.invariant sound_init fun _ _ _ _ hi _ hstep => hi.step hstep

theorem Sound.holds_le_wait (h : s.Sound) (u : τ) : s.pool.holds u ≤ s.pool.wait := by
  rw [h.wait]
  refine Nat.add_le_add (tally_mono (fun w => ?_) _) ?_
  · rw [← w.length_tasks]
    exact List.count_le_length
  · rw [← List.length_map ThreadWorkerTask.task]
    exact List.count_le_length

/-- When nothing is outstanding, all that was pushed was run and put back. -/
theorem Sound.history_eq_of_wait (h : s.Sound) (hwait : s.pool.wait = 0) (hx : s.IsPushed x) :
    s.history x = stages x := by
  have hzero := h.wait
  have htally {f : ThreadWorker τ → ℕ} (hf : ∀ w, f w ≤ w.size) : tally f s.pool.workers = 0 := by
    have := tally_mono hf s.pool.workers
    omega
  have hcount := List.count_le_length (a := x) (l := s.pool.resultList)
  cases h.stage x with
  | new hnot => exact absurd hx hnot
  | queued _ hplace =>
    have := hplace.queued.symm.trans (htally (ThreadWorker.inChannel_le_size x))
    cases this
  | running _ hplace =>
    have := hplace.running.symm.trans (htally (ThreadWorker.runs_le_size x))
    cases this
  | done _ hplace =>
    have hdone := hplace.done
    rw [htally (ThreadWorker.pushes_le_size x)] at hdone
    omega
  | putBack _ _ hlog => exact hlog

/-! ### The pool can always go on -/

/-- A thread that has something to do can do it, and has less to do then. -/
theorem exists_step_of_rank (h : 0 < tally ThreadWorker.rank s.pool.workers) :
    ∃ (a : Action τ n) (t : System τ n), a.isPool = true ∧ s.step a = some t ∧
      t.pushed = s.pushed ∧
        tally ThreadWorker.rank t.pool.workers < tally ThreadWorker.rank s.pool.workers := by
  obtain ⟨i, hi⟩ := exists_of_tally_pos h
  have hupdate (w : ThreadWorker τ) := tally_update ThreadWorker.rank s.pool.workers i w
  generalize hw : s.pool.workers i = w at hi hupdate
  obtain ⟨channel, phase⟩ := w
  cases phase with
  | receiving =>
    cases channel with
    | nil => cases hi
    | cons x channel =>
      refine ⟨.recv i, s.setWorker i ⟨channel, .running x⟩ [.started x], rfl, ?_, rfl, ?_⟩
      · simp only [step, recv, hw]
      · have := hupdate ⟨channel, .running x⟩
        simp only [ThreadWorker.rank, List.length_cons] at this
        show tally _ (Function.update s.pool.workers i _) < _
        omega
  | running x =>
    refine ⟨.finish i, s.setWorker i ⟨channel, .pushing x⟩ [.finished x], rfl, ?_, rfl, ?_⟩
    · simp only [step, finish, hw]
    · have := hupdate ⟨channel, .pushing x⟩
      simp only [ThreadWorker.rank] at this
      show tally _ (Function.update s.pool.workers i _) < _
      omega
  | pushing x =>
    refine ⟨.pushResult i, s.setPool ((s.pool.setWorker i ⟨channel, .receiving⟩).pushResult x), rfl,
      ?_, rfl, ?_⟩
    · simp only [step, pushResult, hw]
    · have := hupdate ⟨channel, .receiving⟩
      simp only [ThreadWorker.rank] at this
      show tally _ (Function.update s.pool.workers i _) < _
      omega

theorem Sound.wait_poll (h : s.Sound) (hrank : tally ThreadWorker.rank s.pool.workers = 0) :
    s.poll.pool.wait = 0 := by
  have hsize : tally ThreadWorker.size s.pool.workers = 0 := by
    have := tally_mono ThreadWorker.size_le_rank s.pool.workers
    omega
  have hwait := h.wait
  rw [poll_eq]
  split
  case isTrue hzero => exact hzero
  case isFalse =>
    show s.pool.wait - s.pool.resultList.length = 0
    omega

omit [DecidableEq τ] in
theorem pushed_poll (s : System τ n) : s.poll.pushed = s.pushed := by
  rw [poll_eq]
  split <;> rfl

theorem exists_drained (h : s.Sound) :
    ∃ (as : List (Action τ n)) (t : System τ n), (∀ a ∈ as, a.isPool = true) ∧
      Lib.exec step s as = some t ∧ t.pushed = s.pushed ∧ t.pool.wait = 0 := by
  induction hrank : tally ThreadWorker.rank s.pool.workers using Nat.strongRecOn generalizing s with
  | ind k ih =>
    rcases Nat.eq_zero_or_pos k with rfl | hpos
    · refine ⟨[.poll], s.poll, ?_, rfl, pushed_poll s, h.wait_poll hrank⟩
      exact List.forall_mem_singleton.mpr rfl
    · obtain ⟨a, u, ha, hu, hpushed, hlt⟩ := exists_step_of_rank (hrank ▸ hpos)
      obtain ⟨as, t, has, ht, hpushed', hwait⟩ := ih _ (hrank ▸ hlt) (h.step hu) rfl
      refine ⟨a :: as, t, List.forall_mem_cons.mpr ⟨ha, has⟩, ?_, hpushed'.trans hpushed, hwait⟩
      rw [Lib.exec, hu]
      exact ht

/-- **What the pool guarantees.** -/
structure Accounted (s : System τ n) : Prop where
  /-- A job that was pushed is then run once and its task put back once, as far as this has
  happened, and in this order. -/
  history (x : ThreadWorkerTask τ) : s.IsPushed x → ∃ k, 0 < k ∧ s.history x = (stages x).take k
  /-- Nothing happens to what was not pushed. -/
  history_new (x : ThreadWorkerTask τ) : ¬s.IsPushed x → s.history x = []
  /-- A task that awaits its job is with the pool or, put back, in the queue of the executor, and in
  one of the two once. -/
  waiting (u : τ) : (s.futures u).isSome → s.pool.holds u + s.localTasks.count u = 1
  /-- `wait` is the number of the tasks that were pushed and not put back. -/
  outstanding : s.pushed.length = s.pool.wait + s.putBacks
  /-- The next `poll` does not subtract too much. -/
  noUnderflow : s.pool.resultList.length ≤ s.pool.wait
  /-- `poll` reports that there is no work only when all that was pushed was run and put back. -/
  poll (x : ThreadWorkerTask τ) : (s.pool.poll s.localTasks).1 = false → s.IsPushed x →
    s.history x = stages x
  /-- The threads and the polls of the executor can bring back what is outstanding. -/
  drains : ∃ (as : List (Action τ n)) (t : System τ n), (∀ a ∈ as, a.isPool = true) ∧
    Lib.exec step s as = some t ∧ t.pushed = s.pushed ∧
      (∀ x, t.IsPushed x → t.history x = stages x) ∧
      ∀ u, (t.futures u).isSome → t.localTasks.count u = 1

theorem Stage.history_eq_take (h : s.Stage x) (hx : s.IsPushed x) :
    ∃ k, 0 < k ∧ s.history x = (stages x).take k := by
  cases h with
  | new hnot => exact absurd hx hnot
  | queued _ _ hlog => exact ⟨1, Nat.one_pos, hlog⟩
  | running _ _ hlog => exact ⟨2, Nat.two_pos, hlog⟩
  | done _ _ hlog => exact ⟨3, Nat.succ_pos 2, hlog⟩
  | putBack _ _ hlog => exact ⟨4, Nat.succ_pos 3, hlog⟩

theorem Stage.history_eq_nil (h : s.Stage x) (hx : ¬s.IsPushed x) : s.history x = [] := by
  cases h with
  | new _ _ hlog => exact hlog
  | queued hpushed | running hpushed | done hpushed | putBack hpushed => exact absurd hpushed hx

theorem pool_accounted (h : Reachable step (init : System τ n) s) : s.Accounted := by
  have hsound := sound_of_reachable h
  constructor
  case history => exact fun x hx => (hsound.stage x).history_eq_take hx
  case history_new => exact fun x hx => (hsound.stage x).history_eq_nil hx
  case waiting => exact fun u => (hsound.held u).waiting
  case outstanding => exact hsound.outstanding
  case noUnderflow =>
    rw [hsound.wait]
    exact Nat.le_add_left ..
  case poll =>
    intro x hpoll hx
    refine hsound.history_eq_of_wait ?_ hx
    by_contra hwait
    rw [LocalThreadWorkerPool.poll, if_neg hwait] at hpoll
    cases hpoll
  case drains =>
    obtain ⟨as, t, has, ht, hpushed, hwait⟩ := exists_drained hsound
    have hdrained := sound_of_reachable (reach_exec h ht)
    refine ⟨as, t, has, ht, hpushed, fun x hx => hdrained.history_eq_of_wait hwait hx, ?_⟩
    intro u hu
    have hone := (hdrained.held u).waiting hu
    have hle := hdrained.holds_le_wait u
    omega

/-- Two tasks wait for two jobs; the thread of the first one has run its job and pushed the task. -/
theorem pool_accounted_two_jobs : ∃ s : System ℕ 1,
    Lib.exec step init [.asyncify 7, .asyncify 9, .recv 0, .finish 0, .recv 1, .pushResult 0] =
      some s ∧ s.pool.wait = 2 ∧ s.Accounted := by
  refine ⟨_, rfl, rfl, pool_accounted (reachable_of_exec ?_ ?_)⟩
  · exact [.asyncify 7, .asyncify 9, .recv 0, .finish 0, .recv 1, .pushResult 0]
  · rfl

end System

end Orengine.Runtime.LocalThreadPool
