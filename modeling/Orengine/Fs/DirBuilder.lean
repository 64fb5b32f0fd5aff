import Mathlib.Logic.Function.Basic
import Orengine.Lib.Utf8

/-!
# `DirBuilder`

`create` with `recursive` makes a directory and those above it that are missing.  It tries to make
the directory itself; as long as this fails with `NotFound`, it cuts the path at the separator
before the last cut and pushes the index of the cut to a stack.  When a directory was made, it takes
the cuts back from the stack, one by one, and last the whole path.

A path is its bytes.  `path_string` is cut at an index of a byte, without a check that a character
begins there.  What `mkdir` and `is_dir` do is left to a `Kernel`.

`FileSystem` is one for paths without `.` and `..`, which it takes for names.  It has directories
and other files, each at a list of names from the root; what is there has a directory above it, and
so has the working directory.  Links, limits and permissions are left out, and nobody else changes
the file system.
-/

namespace Orengine.Fs

open Orengine.Lib (segments)
open Orengine.Lib.Utf8 (toStringLossy)

/-- `MAIN_SEPARATOR`, which is a slash. -/
def mainSeparator : UInt8 := 0x2F

def dot : UInt8 := 0x2E

def colon : UInt8 := 0x3A

abbrev Name := List UInt8

/-- `ErrorKind`, as far as it occurs. -/
inductive ErrorKind where
  | notFound
  | alreadyExists
  | notADirectory
  | invalidInput
  | invalidData
  /-- Any other kind. -/
  | other
  deriving DecidableEq

/-- An error, with the text that the source gives it. -/
structure Error where
  kind : ErrorKind
  message : Option String
  deriving DecidableEq

/-- What the loop asks of the operating system, in its states. -/
class Kernel (σ : Type*) where
  /-- Where a path leads; only a history has it. -/
  location : σ → List UInt8 → List Name
  mkdir : σ → List UInt8 → Except ErrorKind σ
  isDir : σ → List UInt8 → Bool

/-- What is at a place of the file system. -/
inductive Node where
  | dir
  | file
  deriving DecidableEq

/-! ### The file system -/

/-- A file system, and the working directory. -/
structure FileSystem where
  node : List Name → Option Node
  cwd : List Name
  root_dir : node [] = some .dir
  cwd_dir : node cwd = some .dir
  /-- What is somewhere is in a directory. -/
  parent_dir (loc : List Name) (name : Name) : node (loc ++ [name]) ≠ none → node loc = some .dir

namespace FileSystem

/-- Where a path begins. -/
def base (fs : FileSystem) (path : List UInt8) : List Name :=
  if path.head? = some mainSeparator then [] else fs.cwd

/-- Where a path leads. -/
def location (fs : FileSystem) (path : List UInt8) : List Name :=
  fs.base path ++ segments mainSeparator path

def isDir (fs : FileSystem) (path : List UInt8) : Bool := fs.node (fs.location path) = some .dir

section Insert

variable {fs : FileSystem} {loc : List Name}

/-- A directory is made: what is elsewhere stays. -/
theorem update_eq_some (hnone : fs.node loc = none) {loc' : List Name} {x : Node}
    (h : fs.node loc' = some x) : Function.update fs.node loc (some .dir) loc' = some x := by
  rw [Function.update_of_ne, h]
  rintro rfl
  rw [hnone] at h
  cases h

theorem update_parent_dir (hnone : fs.node loc = none)
    (hparent : fs.node loc.dropLast = some .dir) (loc' : List Name) (name : Name)
    (h : Function.update fs.node loc (some .dir) (loc' ++ [name]) ≠ none) :
    Function.update fs.node loc (some .dir) loc' = some .dir := by
  apply update_eq_some hnone
  by_cases hloc : loc' ++ [name] = loc
  · rwa [← hloc, List.dropLast_concat] at hparent
  · rw [Function.update_of_ne hloc] at h
    exact fs.parent_dir loc' name h

end Insert

/-- Make a directory where nothing is, in a directory. -/
def insert (fs : FileSystem) (loc : List Name) (hnone : fs.node loc = none)
    (hparent : fs.node loc.dropLast = some .dir) : FileSystem where
  node := Function.update fs.node loc (some .dir)
  cwd := fs.cwd
  root_dir := update_eq_some hnone fs.root_dir
  cwd_dir := update_eq_some hnone fs.cwd_dir
  parent_dir := update_parent_dir hnone hparent

/-- `mkdir` at a place. -/
def mkdirAt (fs : FileSystem) (loc : List Name) : Except ErrorKind FileSystem :=
  match hnone : fs.node loc with
  | some _ => .error .alreadyExists
  | none =>
    match hparent : fs.node loc.dropLast with
    | none => .error .notFound
    | some .file => .error .notADirectory
    | some .dir => .ok (fs.insert loc hnone hparent)

def mkdir (fs : FileSystem) (path : List UInt8) : Except ErrorKind FileSystem :=
  if path = [] then .error .notFound else fs.mkdirAt (fs.location path)

instance : Kernel FileSystem := ⟨location, mkdir, isDir⟩

end FileSystem

def getOsPath (path : List UInt8) : Except Error (List UInt8) :=
  if 0 ∈ path then .error ⟨.invalidInput, none⟩ else .ok path

/-! ### `get_offset` -/

/-- What `get_offset` gives. -/
inductive Offset where
  | ok (pathIndex : ℕ)
  | err
  /-- The index is less than 0, or there is no byte. -/
  | panic
  deriving DecidableEq

/-- Whether the loop of `get_offset` breaks at a byte with an error. -/
def isBlocked (bytes : List UInt8) (pathIndex : ℕ) : Bool :=
  if pathIndex == 1 || bytes[pathIndex]? == some dot || bytes[pathIndex]? == some colon then
    if bytes[pathIndex]? == some dot then
      pathIndex + 1 == bytes.length || bytes[pathIndex + 1]? == some mainSeparator
    else true
  else false

/-- The loop of `get_offset`. -/
def search (bytes : List UInt8) (pathIndex : ℕ) : Offset :=
  if bytes.length ≤ pathIndex then .panic
  else if isBlocked bytes pathIndex then .err
  else if bytes[pathIndex]? = some mainSeparator then .ok pathIndex
  else
    match pathIndex with
    | 0 => .panic
    | i + 1 => search bytes i

/-- `get_offset`; the last offset is the first of the list. -/
def getOffset (offsets : List ℕ) (path : List UInt8) : Offset :=
  match offsets with
  | [] => if path.length = 0 then .panic else search path (path.length - 1)
  | offset :: _ => if offset = 0 then .panic else search path (offset - 1)

/-! ### `create_dir_all` -/

/-- The variables of the loop of `create_dir_all`, the file system, and where `mkdir` has succeeded,
with the mode. -/
structure Loop (σ : Type*) where
  fs : σ
  tmpPath : List UInt8
  tmpMode : UInt32
  pathStack : List ℕ
  created : List (List Name × UInt32)

inductive Outcome where
  | ok
  | err (e : Error)
  | panic
  deriving DecidableEq

namespace Loop

variable {σ : Type*} [Kernel σ]

/-- `mkdir` succeeds. -/
def make (l : Loop σ) (fs : σ) : Loop σ :=
  { l with fs := fs, created := l.created ++ [(Kernel.location l.fs l.tmpPath, l.tmpMode)] }

/-- The loop goes on with another path. -/
def goTo (l : Loop σ) (tmpPath : List UInt8) (tmpMode : UInt32) (pathStack : List ℕ) : Loop σ :=
  { l with tmpPath := tmpPath, tmpMode := tmpMode, pathStack := pathStack }

/-- What the loop does when a directory was made. -/
def afterOk (path : List UInt8) (mode : UInt32) (l : Loop σ) : Loop σ × Option Outcome :=
  match l.pathStack with
  | [] => (l, some .ok)
  | [_] => (l.goTo path mode [], none)
  | _ :: offset :: rest =>
    (l.goTo ((toStringLossy path).take offset) l.tmpMode (offset :: rest), none)

/-- What the loop does when the directory above is missing. -/
def afterNotFound (path : List UInt8) (l : Loop σ) : Loop σ × Option Outcome :=
  match getOffset l.pathStack path with
  | .ok offset =>
    (l.goTo ((toStringLossy path).take offset) 0o777 (offset :: l.pathStack), none)
  | .err => (l, some (.err ⟨.invalidData, some "failed to create path tree"⟩))
  | .panic => (l, some .panic)

/-- What the loop does at another error. -/
def afterError (path : List UInt8) (l : Loop σ) (kind : ErrorKind) : Loop σ × Option Outcome :=
  if Kernel.isDir l.fs path then
    if l.pathStack.isEmpty then (l, some .ok) else (l, none)
  else (l, some (.err ⟨kind, none⟩))

def round (path : List UInt8) (mode : UInt32) (l : Loop σ) : Loop σ × Option Outcome :=
  match getOsPath l.tmpPath with
  | .error e => (l, some (.err e))
  | .ok osPath =>
    match Kernel.mkdir l.fs osPath with
    | .ok fs => afterOk path mode (l.make fs)
    | .error .notFound => afterNotFound path l
    | .error kind => afterError path l kind

/-- The loop, for so many rounds. -/
def run (path : List UInt8) (mode : UInt32) : ℕ → Loop σ → Option (Outcome × Loop σ)
  | 0, _ => none
  | fuel + 1, l =>
    match round path mode l with
    | (l, none) => run path mode fuel l
    | (l, some outcome) => some (outcome, l)

def start (fs : σ) (path : List UInt8) (mode : UInt32) : Loop σ := ⟨fs, path, mode, [], []⟩

end Loop

variable {σ : Type*} [Kernel σ]

/-- `create_dir_all`: how it ends, and the loop then. -/
def createDirAll (fuel : ℕ) (fs : σ) (path : List UInt8) (mode : UInt32) :
    Option (Outcome × Loop σ) :=
  if path = [] then some (.ok, .start fs path mode)
  else Loop.run path mode fuel (.start fs path mode)

structure DirBuilder where
  mode : UInt32
  recursive : Bool

namespace DirBuilder

def new : DirBuilder := ⟨0o666, false⟩

/-- `create` without `recursive`. -/
def createDir (fs : σ) (path : List UInt8) (mode : UInt32) : Outcome × Loop σ :=
  match getOsPath path with
  | .error e => (.err e, .start fs path mode)
  | .ok osPath =>
    match Kernel.mkdir fs osPath with
    | .ok fs' => (.ok, (Loop.start fs path mode).make fs')
    | .error kind => (.err ⟨kind, none⟩, .start fs path mode)

def create (b : DirBuilder) (fuel : ℕ) (fs : σ) (path : List UInt8) :
    Option (Outcome × Loop σ) :=
  if b.recursive then createDirAll fuel fs path b.mode else some (createDir fs path b.mode)

end DirBuilder

end Orengine.Fs
