import Mathlib.Data.List.Basic
import Jord.Foundations.Program
import Jord.Io.Lua

/-!
# The state of the process

The objects of the I/O library live in lists and are named by their positions: the
`LuaBoostFile` objects (`World.files`), the adapters (`World.adapters`, each in the userdata of a
VM) and the VMs. The singleton `LuaIOManager` is the three raw pointers to adapters.

* `World.view` forgets what only matters for input and output proper: the operating system, and
  which stream a file has. What keeps handles in order is a matter of the view.
* A function of the library is an `Eval`: it returns, raises a Lua error, or ends in a `Fault`, at
  which the language gives no meaning to the rest of the run.
-/

namespace Jord.Io

variable {ν Os : Type}

/-! ## Objects -/

/-- `details::LuaBoostFile`; `deleted` records that the object has been deleted. The constructors
leave `m_ErrorCode` without a value; zero stands for it. -/
structure BoostFile where
  fileName : Str
  fileHandle : Option Stream
  errorCode : ℤ
  ownsFile : Bool
  isStdFile : Bool
  deleted : Bool
  deriving DecidableEq

/-- `LuaFileAdapter`, in a userdata of the VM `owner`. `destroyed` records that the destructor has
run, `collected` that the collector has called the finaliser. -/
structure FileAdapter where
  owner : ℕ
  fileHandle : Option ℕ
  destroyed : Bool
  collected : Bool
  deriving DecidableEq

/-- The first upvalue of a line iterator: a userdata, or the address of an adapter. -/
inductive Upvalue (ν : Type)
  | full (v : LuaValue ν)
  | light (a : ℕ)
  deriving DecidableEq

/-- A closure of `LuaFileAdapter::lines_iterator`. -/
structure Iterator (ν : Type) where
  upvalue : Upvalue ν
  closeFile : Bool
  deriving DecidableEq

/-- The fields of a table. -/
abbrev Fields (ν : Type) := List (Str × LuaValue ν)

/-- The registry entries `__JORD_STDIN`, `__JORD_STDOUT` and `__JORD_STDERR`. -/
structure Registry (ν : Type) where
  stdin : LuaValue ν
  stdout : LuaValue ν
  stderr : LuaValue ν
  deriving DecidableEq

/-- A Lua VM: what its script holds in local variables, the tables and the line iterators it has
made, and its registry. -/
structure Vm (ν : Type) where
  isOpen : Bool
  locals : List (LuaValue ν)
  tables : List (Fields ν)
  iterators : List (Iterator ν)
  registry : Registry ν
  deriving DecidableEq

/-- The process. `stdInput`, `stdOutput` and `stdError` are the members of `LuaIOManager`, and
`openedFilesCount` is `LuaFileAdapter::opened_files_count`. -/
structure World (ν Os : Type) where
  os : Os
  files : List BoostFile
  adapters : List FileAdapter
  openedFilesCount : ℤ
  stdInput : Option ℕ
  stdOutput : Option ℕ
  stdError : Option ℕ
  vms : List (Vm ν)

/-! ## The view -/

/-- What of a file matters for its lifetime. -/
structure FileView where
  isOpen : Bool
  ownsFile : Bool
  isStdFile : Bool
  deleted : Bool
  deriving DecidableEq

/-- The process without the operating system. -/
structure View (ν : Type) where
  files : List FileView
  adapters : List FileAdapter
  openedFilesCount : ℤ
  stdInput : Option ℕ
  stdOutput : Option ℕ
  stdError : Option ℕ
  vms : List (Vm ν)
  deriving DecidableEq

/-- The view of a file: only whether it has a stream is left of `m_FileHandle`. -/
def BoostFile.view (x : BoostFile) : FileView :=
  ⟨x.fileHandle.isSome, x.ownsFile, x.isStdFile, x.deleted⟩

/-- The view of the process. -/
def World.view (w : World ν Os) : View ν :=
  ⟨w.files.map BoostFile.view, w.adapters, w.openedFilesCount, w.stdInput, w.stdOutput, w.stdError,
    w.vms⟩

/-! ## Outcomes -/

/-- What ends a run without a meaning, and a loop that has not come to its end. -/
inductive Fault
  /-- A stdio function is called with `NULL` for a stream. -/
  | nullFile
  /-- A member function is called through a `m_FileHandle` that is `NULL`. -/
  | nullHandle
  /-- A member function is called through a member of the singleton that is `NULL`. -/
  | nullAdapter
  /-- An adapter is used after its destructor has run. -/
  | destroyedAdapter
  /-- A `LuaAbstractFile` is used after it has been deleted. -/
  | deletedFile
  /-- A `LuaAbstractFile` is deleted again. -/
  | doubleDelete
  /-- A userdata of another class is used as an adapter. -/
  | foreignUserdata
  /-- A C++ exception leaves a function that Lua calls; Lua is compiled as C. -/
  | exception
  /-- A loop takes more rounds than the model follows. -/
  | unfinished
  deriving DecidableEq

/-- How a function of the library does not return: `luaL_error` with its message, an error about an
argument, or a fault. -/
inductive Exn
  | luaError (message : Str)
  | argError (narg : ℤ) (message : Str)
  | fault (f : Fault)
  deriving DecidableEq

/-- A function of the library. -/
abbrev Eval (ν Os α : Type) := EStateM Exn (World ν Os) α

/-- `luaL_error` -/
def luaError {α : Type} (message : Str) : Eval ν Os α := throw (.luaError message)

/-- `luaL_argerror` -/
def argError {α : Type} (narg : ℤ) (message : Str) : Eval ν Os α := throw (.argError narg message)

/-- `luaL_typerror` -/
def typeError {α : Type} (narg : ℤ) (expected : Str) (found : Option (LuaValue ν)) :
    Eval ν Os α :=
  argError narg (expected ++ Str.ascii " expected, got " ++ LuaValue.typeName found)

/-- The rest of the run has no meaning. -/
def fault {α : Type} (f : Fault) : Eval ν Os α := throw (.fault f)

/-- A call of the C library. -/
def sys {α : Type} (g : Os → α × Os) : Eval ν Os α := do
  let w ← get
  let (a, os) := g w.os
  set { w with os := os }
  return a

/-- A call of the C library that returns nothing. -/
def sysUnit (g : Os → Os) : Eval ν Os Unit := modify fun w => { w with os := g w.os }

/-- Replace the file at an address. -/
def modifyFile (f : ℕ) (g : BoostFile → BoostFile) : Eval ν Os Unit :=
  modify fun w => { w with files := w.files.modify f g }

/-- Replace the adapter at an address. -/
def modifyAdapter (a : ℕ) (g : FileAdapter → FileAdapter) : Eval ν Os Unit :=
  modify fun w => { w with adapters := w.adapters.modify a g }

/-- Replace a VM. -/
def modifyVm (l : ℕ) (g : Vm ν → Vm ν) : Eval ν Os Unit :=
  modify fun w => { w with vms := w.vms.modify l g }

/-- `if( c ) m` -/
def onlyIf (c : Bool) (m : Eval ν Os Unit) : Eval ν Os Unit := if c then m else pure ()

/-- Add to `opened_files_count`. -/
def count (k : ℤ) : Eval ν Os Unit :=
  modify fun w => { w with openedFilesCount := w.openedFilesCount + k }

end Jord.Io
