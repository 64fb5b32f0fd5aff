import Orengine.Fs.DirBuilder

/-!
# `create_dir_all` next to other processes

A `Call` is a call of `create_dir_all` in progress while other processes make directories, and do
nothing else: before a `mkdir`, or between one that has failed and the `is_dir` that follows it.
Apart from that the call does what `Loop.round` does.

A `LawfulKernel` says what is known if only directories are made.  Nothing else is: a path may lead
through `.` and `..` or links, and `mkdir` may fail for any reason.

`errors` and `wasDir` are histories: the errors that it has seen, and whether the path has been a
directory at some moment.
-/

namespace Orengine.Fs

/-- Whether `mkdir` fails, and not because the directory above is missing. -/
def Kernel.refuses {σ : Type*} [Kernel σ] (fs : σ) (path : List UInt8) : Bool :=
  match mkdir fs path with
  | .ok _ => false
  | .error kind => kind != .notFound

/-- When directories are made, ... -/
class LawfulKernel (σ : Type*) [Kernel σ] : Prop where
  /-- ... what is a directory stays one, ... -/
  isDir_of_mkdir {fs fs' : σ} {path : List UInt8} (h : Kernel.mkdir fs path = .ok fs')
    {p : List UInt8} : Kernel.isDir fs p = true → Kernel.isDir fs' p = true
  /-- ... what cannot be made for another reason than a missing one above still cannot, ... -/
  refuses_of_mkdir {fs fs' : σ} {path : List UInt8} (h : Kernel.mkdir fs path = .ok fs')
    {p : List UInt8} : Kernel.refuses fs p = true → Kernel.refuses fs' p = true
  /-- ... and what was made cannot be made again. -/
  refuses_self {fs fs' : σ} {path : List UInt8} (h : Kernel.mkdir fs path = .ok fs') :
    Kernel.refuses fs' path = true

/-- Where a call of `create_dir_all` is. -/
inductive Stage where
  /-- It is about to call `mkdir`. -/
  | mkdir
  /-- `mkdir` has failed, and it is about to call `is_dir`. -/
  | isDir (kind : ErrorKind)
  | done (outcome : Outcome)
  deriving DecidableEq

structure Call (σ : Type*) where
  loop : Loop σ
  stage : Stage
  errors : List ErrorKind
  wasDir : Bool

namespace Call

inductive Action where
  /-- The call goes on to its next system call. -/
  | go
  /-- Another process makes a directory. -/
  | other (p : List UInt8)
  deriving DecidableEq

variable {σ : Type*} [Kernel σ]

def start (fs : σ) (path : List UInt8) (mode : UInt32) : Call σ where
  loop := .start fs path mode
  stage := if path = [] then .done .ok else .mkdir
  errors := []
  wasDir := Kernel.isDir fs path

/-- The call has seen an error. -/
def saw (c : Call σ) (kind : ErrorKind) : Call σ := { c with errors := c.errors ++ [kind] }

/-- `mkdir` has failed. -/
def ask (c : Call σ) (kind : ErrorKind) : Call σ :=
  { c with stage := .isDir kind, errors := c.errors ++ [kind] }

/-- A round of the loop is over. -/
def after (c : Call σ) (r : Loop σ × Option Outcome) : Call σ :=
  { c with loop := r.1, stage := r.2.elim .mkdir .done }

def setFs (c : Call σ) (fs : σ) : Call σ := { c with loop := { c.loop with fs := fs } }

variable (path : List UInt8) (mode : UInt32)

def go (c : Call σ) : Option (Call σ) :=
  match c.stage with
  | .mkdir =>
    match getOsPath c.loop.tmpPath with
    | .error e => some ((c.saw e.kind).after (c.loop, some (.err e)))
    | .ok osPath =>
      match Kernel.mkdir c.loop.fs osPath with
      | .ok fs => some (c.after (Loop.afterOk path mode (c.loop.make fs)))
      | .error .notFound => some ((c.saw .notFound).after (Loop.afterNotFound path c.loop))
      | .error kind => some (c.ask kind)
  | .isDir kind => some (c.after (Loop.afterError path c.loop kind))
  | .done _ => none

def other (c : Call σ) (p : List UInt8) : Option (Call σ) :=
  match c.stage, Kernel.mkdir c.loop.fs p with
  | .done _, _ => none
  | _, .ok fs => some (c.setFs fs)
  | _, .error _ => none

/-- Whether the path is a directory now. -/
def watch (c : Call σ) : Call σ := { c with wasDir := c.wasDir || Kernel.isDir c.loop.fs path }

def step (c : Call σ) : Action → Option (Call σ)
  | .go => (c.go path mode).map (watch path)
  | .other p => (c.other p).map (watch path)

/-- The next `mkdir` of the call gives this. -/
def Mkdir (c : Call σ) (r : Except ErrorKind σ) : Prop :=
  c.stage = .mkdir ∧
    ∃ osPath, getOsPath c.loop.tmpPath = .ok osPath ∧ Kernel.mkdir c.loop.fs osPath = r

/-- The call makes the directory of a cut of the path. -/
def MakesParent (c : Call σ) (a : Action) : Prop :=
  a = .go ∧ (∃ fs, c.Mkdir (.ok fs)) ∧ c.loop.pathStack ≠ []

/-- The directory of a cut is not made, with another error than `NotFound`, and the path is a
directory by now. -/
def Stalls (c : Call σ) (a : Action) : Prop :=
  a = .go ∧ (∃ kind, c.stage = .isDir kind) ∧ c.loop.pathStack ≠ [] ∧
    Kernel.isDir c.loop.fs path = true

/-- The directory above is missing, and `get_offset` does not find the cut before. -/
def Blocked (c : Call σ) (a : Action) : Prop :=
  a = .go ∧ c.Mkdir (.error .notFound) ∧ ∀ offset, getOffset c.loop.pathStack path ≠ .ok offset

end Call

end Orengine.Fs
