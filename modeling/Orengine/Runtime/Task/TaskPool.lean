import Orengine.Runtime.Task.TaskData

/-!
# `TaskPool`: reuse of task allocations

`TaskPool` keeps the allocations of finished tasks in one stack for each size.  `acquire` takes
the top allocation of the size of the new future, writes the future into it and returns the task
*as it is*: with the vtable and the locality of the future that the allocation was made for.
`acquire_polls_future_iff` says for which histories this does no harm.
-/

namespace Orengine.Runtime

/-- A type that implements `Future<Output = ()>`, known by the address of its vtable.  The vtable
is in user space, so the top bit of the address is clear. -/
structure FutureType where
  /-- The address of the vtable. -/
  vtable : BitVec 64
  /-- The top bit is free for the locality flag. -/
  userSpace : vtable.msb = false

/-- A value of a future type. -/
structure Fut (V : Type*) where
  /-- The type `F`. -/
  type : FutureType
  /-- What the value consists of. -/
  value : V

/-- `Task`, without the fields of debug builds. -/
abbrev Task := TaskData

/-- `TaskPool`: the key is a size.  The head of a list is the end of the source's `Vec`. -/
structure TaskPool where
  storage : ℕ → Option (List Task)

/-- The task pool of an executor and the memory it writes to. -/
structure PoolWorld (V : Type*) where
  /-- The executor's `task_pool`. -/
  pool : TaskPool
  /-- The future that lies at an address, if any. -/
  heap : BitVec 64 → Option (Fut V)

namespace PoolWorld

variable {V : Type*}

/-- An executor starts with `TaskPool::default`. -/
def init (heap : BitVec 64 → Option (Fut V)) : PoolWorld V := ⟨⟨fun _ => none⟩, heap⟩

/-- What a poll of the task runs: `poll` of the vtable of its pointer, on the future that the
pointer points to. -/
def polled (w : PoolWorld V) (task : Task) : BitVec 64 × Option (Fut V) :=
  (task.futurePtr.vtable, w.heap task.futurePtr.data)

variable (sizeAt : BitVec 64 → ℕ)

/-- The stack of the size class of a future, `storage.entry(size).or_default()`. -/
def sizeClass (w : PoolWorld V) (size : ℕ) : List Task := (w.pool.storage size).getD []

/-- `TaskPool::acquire`.  `sizeAt` is the size that a vtable records, and `addr` is the address
that `Box::new` gives if it is called. -/
def acquire (w : PoolWorld V) (future : Fut V) (locality : Locality) (addr : BitVec 64) :
    Task × PoolWorld V :=
  let size := sizeAt future.type.vtable
  match w.sizeClass size with
  | task :: rest =>
    -- the popped task is returned with the pointer and the tag it has
    (task, ⟨⟨Function.update w.pool.storage size (some rest)⟩,
      Function.update w.heap task.futurePtr.data (some future)⟩)
  | [] =>
    (TaskData.new ⟨addr, future.type.vtable⟩ locality,
      ⟨⟨Function.update w.pool.storage size (some [])⟩,
        Function.update w.heap addr (some future)⟩)

def put (w : PoolWorld V) (task : Task) : PoolWorld V :=
  let size := sizeAt task.futurePtr.vtable
  match w.pool.storage size with
  | some pool => { w with pool := ⟨Function.update w.pool.storage size (some (task :: pool))⟩ }
  | none => { w with pool := ⟨Function.update w.pool.storage size (some [task])⟩ }

/-- A call made on the pool.  A `put` may bring a task that another executor has allocated. -/
inductive PoolCall (V : Type*) where
  | acquire (future : Fut V) (locality : Locality) (addr : BitVec 64)
  | put (task : Task)

def call (w : PoolWorld V) : PoolCall V → PoolWorld V
  | .acquire future locality addr => (w.acquire sizeAt future locality addr).2
  | .put task => w.put sizeAt task

def calls (w : PoolWorld V) (history : List (PoolCall V)) : PoolWorld V :=
  history.foldl (call sizeAt) w

/-- The task that `acquire` returns polls the future passed in, with that future's own vtable,
and has the locality passed in. -/
def PollsFuture (w : PoolWorld V) (future : Fut V) (locality : Locality) (addr : BitVec 64) :
    Prop :=
  let (task, w') := w.acquire sizeAt future locality addr
  w'.polled task = (future.type.vtable, some future) ∧ task.isLocal = locality.isLocal

/-- The size class of the future is empty, or the allocation on its top was made for the same
type and carries the same locality. -/
def TopFits (w : PoolWorld V) (future : Fut V) (locality : Locality) : Prop :=
  ∀ task ∈ (w.sizeClass (sizeAt future.type.vtable)).head?,
    task.futurePtr.vtable = future.type.vtable ∧ task.isLocal = locality.isLocal

/-! ### One `acquire` -/

theorem pollsFuture_of_fresh {w : PoolWorld V} {future : Fut V}
    (h : w.sizeClass (sizeAt future.type.vtable) = []) (locality : Locality) (addr : BitVec 64) :
    w.PollsFuture sizeAt future locality addr := by
  have hptr := TaskData.futurePtr_new ⟨addr, future.type.vtable⟩ locality future.type.userSpace
  have htag := TaskData.isLocal_new ⟨addr, future.type.vtable⟩ locality future.type.userSpace
  unfold PollsFuture acquire
  simp only [h, polled, hptr, htag, Function.update_self, and_self]

/-- A reused allocation is polled with the vtable and the locality it already had. -/
theorem pollsFuture_iff_of_reuse {w : PoolWorld V} {future : Fut V} {task : Task}
    {rest : List Task} (h : w.sizeClass (sizeAt future.type.vtable) = task :: rest)
    (locality : Locality) (addr : BitVec 64) :
    w.PollsFuture sizeAt future locality addr ↔
      task.futurePtr.vtable = future.type.vtable ∧ task.isLocal = locality.isLocal := by
  unfold PollsFuture acquire
  simp only [h, polled, Function.update_self, Prod.mk.injEq, and_true]

theorem pollsFuture_iff_topFits (w : PoolWorld V) (future : Fut V) (locality : Locality)
    (addr : BitVec 64) :
    w.PollsFuture sizeAt future locality addr ↔ w.TopFits sizeAt future locality := by
  unfold TopFits
  cases h : w.sizeClass (sizeAt future.type.vtable) with
  | nil =>
    simp only [List.head?_nil, Option.mem_def, reduceCtorEq, false_implies, implies_true, iff_true]
    exact pollsFuture_of_fresh sizeAt h locality addr
  | cons task rest =>
    rw [pollsFuture_iff_of_reuse sizeAt h]
    simp

/-! ### Whole histories -/

/-- **When `acquire` is right.** In a history of calls on a new pool every task that `acquire`
returns polls the future it was acquired for, with its own vtable and the requested locality, if
and only if every `acquire` of the history finds its size class empty or topped by an allocation
of the same type and locality. -/
theorem acquire_polls_future_iff (heap : BitVec 64 → Option (Fut V))
    (history : List (PoolCall V)) :
    (∀ before future locality addr after,
        history = before ++ .acquire future locality addr :: after →
        ((init heap).calls sizeAt before).PollsFuture sizeAt future locality addr) ↔
      ∀ before future locality addr after,
        history = before ++ .acquire future locality addr :: after →
        ((init heap).calls sizeAt before).TopFits sizeAt future locality := by
  constructor
  · intro h before future locality addr after hsplit
    exact (pollsFuture_iff_topFits sizeAt _ future locality addr).mp
      (h before future locality addr after hsplit)
  · intro h before future locality addr after hsplit
    exact (pollsFuture_iff_topFits sizeAt _ future locality addr).mpr
      (h before future locality addr after hsplit)

/-- Two future types of 8 bytes: a shared task of the first type finishes and is put back, and the
next `acquire`, of a local task of the second type, returns a task that would poll the new future
through the vtable of the first type, and that says it is shared. -/
theorem acquire_reuses_old_vtable_and_locality :
    let size : BitVec 64 → ℕ := fun _ => 8
    let first : Fut ℕ := ⟨⟨0x1000, rfl⟩, 1⟩
    let second : Fut ℕ := ⟨⟨0x2000, rfl⟩, 2⟩
    let task := ((init fun _ => none).acquire size first .shared 0x10).1
    let w := (init fun _ => none).calls size [.acquire first .shared 0x10, .put task]
    ¬ w.PollsFuture size second .local 0x20 ∧
      (w.acquire size second .local 0x20).1.futurePtr.vtable = 0x1000 ∧
      (w.acquire size second .local 0x20).1.isLocal = false := by
  intro size first second task w
  have htop : w.sizeClass (size second.type.vtable) = [task] := rfl
  refine ⟨?_, by decide, by decide⟩
  rw [pollsFuture_iff_of_reuse size htop]
  decide

end PoolWorld

end Orengine.Runtime
