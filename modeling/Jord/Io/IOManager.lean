import Jord.Io.FileAdapter

/-!
# The `io` library

The functions of `LuaIOManager`, which keeps the default streams as raw pointers to adapters next
to the registry entries of each VM, and the creation and the end of a VM. `args` are the arguments
on the Lua stack of VM `l`.
-/

namespace Jord.Io

variable {ν Os : Type} (C : Platform ν Os)

/-- The functions in the table `io`. -/
inductive IoFunction
  | close
  | flush
  | input
  | lines
  | open
  | output
  | popen
  | read
  | tmpfile
  | type
  | write
  deriving DecidableEq

/-- The methods of a handle; `tostring` is a metamethod. -/
inductive Method
  | read
  | write
  | flush
  | close
  | lines
  | seek
  | setvbuf
  | isOpen
  | tostring
  deriving DecidableEq

namespace LuaIOManager

/-! ## Default streams -/

/-- A call through `m_StdInput`. -/
def stdInput : Eval ν Os ℕ := do
  match (← get).stdInput with
  | some a => return a
  | none => fault .nullAdapter

/-- A call through `m_StdOutput`. -/
def stdOutput : Eval ν Os ℕ := do
  match (← get).stdOutput with
  | some a => return a
  | none => fault .nullAdapter

/-- The registry of the calling VM. -/
def registry (l : ℕ) : Eval ν Os (Registry ν) := do
  return (← get).vms[l]?.elim ⟨.nil, .nil, .nil⟩ Vm.registry

/-- `m_StdInput = adapter`, and the registry entry. -/
def setInput (l a : ℕ) : Eval ν Os Unit := do
  modify fun w => { w with stdInput := some a }
  modifyVm l fun vm => { vm with registry := { vm.registry with stdin := .handle a } }

/-- `m_StdOutput = adapter`, and the registry entry. -/
def setOutput (l a : ℕ) : Eval ν Os Unit := do
  modify fun w => { w with stdOutput := some a }
  modifyVm l fun vm => { vm with registry := { vm.registry with stdout := .handle a } }

/-- `m_StdError = adapter`, and the registry entry. -/
def setError (l a : ℕ) : Eval ν Os Unit := do
  modify fun w => { w with stdError := some a }
  modifyVm l fun vm => { vm with registry := { vm.registry with stderr := .handle a } }

/-- `luaL_checkudata( l, narg, LuaFileAdapter::class_name )` -/
def checkUdata (narg : ℤ) (v : Option (LuaValue ν)) : Eval ν Os ℕ :=
  match v with
  | some (.handle a) => return a
  | v => typeError narg (Str.ascii "LuaFileAdapter") v

/-- `getFile` of the local file system, and what `input`, `output` and `lines` do with a file that
is not open. -/
def getOpenFile (filename mode : Str) : Eval ν Os ℕ := do
  let pf ← LuaBoostFile.construct C filename mode
  if !(← LuaBoostFile.isOpen pf) then
    let error ← LuaBoostFile.getLastError C pf
    LuaBoostFile.delete C pf
    luaError error
  else
    return pf

/-- `GetFilePointer`: the adapter to act on, with the rest of the arguments. -/
def getFilePointer (args : List (LuaValue ν)) (input : Bool) :
    Eval ν Os (ℕ × List (LuaValue ν)) := do
  match args with
  | [] => return (← if input then stdInput else stdOutput, [])
  | v :: args =>
    if v.isUserdata then
      return (← checkUdata 1 (some v), args)
    else
      luaError (Str.ascii "invalid parameter")

/-! ## The functions -/

/-- `close` -/
def close (args : List (LuaValue ν)) : Eval ν Os (List (LuaValue ν)) := do
  let (a, _) ← getFilePointer args false
  LuaFileAdapter.close C a

/-- `flush` -/
def flush : Eval ν Os (List (LuaValue ν)) := do LuaFileAdapter.flush C (← stdOutput)

/-- The adapter that `input` and `output` make the default: a new one for a file name, or the one
passed. -/
def chooseAdapter (l : ℕ) (mode : Str) (v : Option (LuaValue ν)) : Eval ν Os ℕ := do
  match LuaValue.toLString C v with
  | some filename => LuaFileAdapter.create l (← getOpenFile C (cstr filename) mode)
  | none => checkUdata 1 v

/-- What `input` and `output` do with an argument: `set` the default. -/
def replace (l : ℕ) (mode : Str) (set : ℕ → Eval ν Os Unit) (args : List (LuaValue ν)) :
    Eval ν Os Unit :=
  if LuaValue.isNoneOrNil args.head? then
    return
  else do
    set (← chooseAdapter C l mode args.head?)

/-- `input` -/
def input (l : ℕ) (args : List (LuaValue ν)) : Eval ν Os (List (LuaValue ν)) := do
  replace C l (Str.ascii "r") (setInput l) args
  return [(← registry l).stdin]

/-- `output` -/
def output (l : ℕ) (args : List (LuaValue ν)) : Eval ν Os (List (LuaValue ν)) := do
  replace C l (Str.ascii "w") (setOutput l) args
  return [(← registry l).stdout]

/-- `lines` -/
def lines (l : ℕ) (args : List (LuaValue ν)) : Eval ν Os (List (LuaValue ν)) := do
  match args.head? with
  | none => LuaFileAdapter.lines l (← stdInput) args
  | some v =>
    match LuaValue.toLString C (some v) with
    | some filename =>
      let a ← LuaFileAdapter.create l (← getOpenFile C (cstr filename) (Str.ascii "r"))
      -- the new userdata is on top of the stack
      LuaFileAdapter.lines l a (args ++ [.handle a])
    | none => luaError (Str.ascii "invalid parameter")

/-- `pathExists` of the local file system. -/
def pathExists (path : Str) : Eval ν Os Bool := do
  match ← sys (C.exists_ path) with
  | some result => return result
  | none => fault .exception

/-- `open` -/
def open_ (l : ℕ) (args : List (LuaValue ν)) : Eval ν Os (List (LuaValue ν)) := do
  let filename ← checkLString C 1 args[0]?
  let mode ← optLString C 2 args[1]? (Str.ascii "r")
  -- the local file system is the only provider registered: whatever `pathExists` returns, its
  -- `getFile` is called
  onlyIf (mode.head? = some 114) (discard (pathExists C (cstr filename)))
  let pf ← LuaBoostFile.construct C (cstr filename) (cstr mode)
  let a ← LuaFileAdapter.create l pf
  if !(← LuaBoostFile.isOpen pf) then
    LuaFileAdapter.reportError C a (Str.ascii "failed to open a file")
  else
    return [.handle a]

/-- `read` -/
def read (args : List (LuaValue ν)) : Eval ν Os (List (LuaValue ν)) := do
  LuaFileAdapter.read C (← stdInput) args

/-- `tmpfile`: `LuaBoostFilesystemProvider::getTempFile` is `const` and does not override
`LuaFilesystemProvider::getTempFile`, which returns `NULL`. -/
def tmpfile : Eval ν Os (List (LuaValue ν)) := luaError (Str.ascii "could not acquire temp file")

/-- `type` -/
def type (args : List (LuaValue ν)) : Eval ν Os (List (LuaValue ν)) := do
  match args.head? with
  | none => argError 1 (Str.ascii "value expected")
  | some (.handle a) =>
    match ← LuaFileAdapter.handle a with
    | none => return [.string (Str.ascii "closed file")]
    | some _ => return [.string (Str.ascii "file")]
  | some _ => return [.nil]

/-- `write` -/
def write (args : List (LuaValue ν)) : Eval ν Os (List (LuaValue ν)) := do
  LuaFileAdapter.write C (← stdOutput) args

/-- The functions as `open_library` registers them: `popen` is `LuaIOManager::read`. -/
def call (l : ℕ) (args : List (LuaValue ν)) : IoFunction → Eval ν Os (List (LuaValue ν))
  | .close => close C args
  | .flush => flush C
  | .input => input C l args
  | .lines => lines C l args
  | .open => open_ C l args
  | .output => output C l args
  | .popen => read C args
  | .read => read C args
  | .tmpfile => tmpfile
  | .type => type args
  | .write => write C args

/-! ## Methods -/

/-- `RegisterCustomClass<LuaFileAdapter>::Thunk` -/
def thunk (l : ℕ) (args : List (LuaValue ν)) (m : Method) : Eval ν Os (List (LuaValue ν)) := do
  let a ← checkUdata 1 args.head?
  let args := args.tail
  match m with
  | .read => LuaFileAdapter.read C a args
  | .write => LuaFileAdapter.write C a args
  | .flush => LuaFileAdapter.flush C a
  | .close => LuaFileAdapter.close C a
  | .lines => LuaFileAdapter.lines l a args
  | .seek => LuaFileAdapter.seek C a args
  | .setvbuf => LuaFileAdapter.setvbuf C a args
  | .isOpen => LuaFileAdapter.isOpen a
  | .tostring => LuaFileAdapter.tostring a

/-- `RegisterCustomClass<LuaFileAdapter>::GC`, which looks at the top of the stack; without
arguments this is the function itself. -/
def gc (args : List (LuaValue ν)) : Eval ν Os Unit := do
  LuaFileAdapter.destroy C (← checkUdata (-1) (some (args.getLast?.getD .function)))

/-! ## The life of a VM -/

/-- The files that the provider of the singleton constructs: `m_Stdin`, `m_Stdout`, `m_Stderr`. -/
def stdFiles : List BoostFile :=
  [⟨Str.ascii "stdin", some C.stdin, 0, false, true, false⟩,
    ⟨Str.ascii "stdout", some C.stdout, 0, false, true, false⟩,
    ⟨Str.ascii "stderr", some C.stderr, 0, false, true, false⟩]

/-- `getDefaultStdin` -/
def defaultStdin : ℕ := 0

/-- `getDefaultStdout` -/
def defaultStdout : ℕ := 1

/-- `getDefaultStderr` -/
def defaultStderr : ℕ := 2

/-- `setupStdFiles`: the default streams, and the fields of the table `io`. -/
def setupStdFiles (l : ℕ) : Eval ν Os Unit := do
  setInput l (← LuaFileAdapter.create l defaultStdin)
  setOutput l (← LuaFileAdapter.create l defaultStdout)
  setError l (← LuaFileAdapter.create l defaultStderr)
  modifyVm l fun vm => { vm with
    tables := [[(Str.ascii "stdin", vm.registry.stdin), (Str.ascii "stdout", vm.registry.stdout),
      (Str.ascii "stderr", vm.registry.stderr)]]
    locals := [.table 0] }

/-- `core_startvm`, as far as the library is concerned: `open_library` of a new VM. -/
def startvm : Eval ν Os Unit := do
  let w ← get
  set { w with vms := w.vms ++ [Vm.mk true [] [] [] ⟨.nil, .nil, .nil⟩] }
  setupStdFiles w.vms.length

/-- The collector finalises the userdata of an adapter. -/
def finalise (a : ℕ) : Eval ν Os Unit := do
  modifyAdapter a fun x => { x with collected := true }
  gc C [.handle a]

/-- The collector finalises several userdata. -/
def finaliseAll : List ℕ → Eval ν Os Unit
  | [] => return
  | a :: as => do
    finalise C a
    finaliseAll as

/-- The userdata of a VM that the collector has not finalised, the youngest first. -/
def uncollected (w : World ν Os) (l : ℕ) : List ℕ :=
  ((List.range w.adapters.length).filter fun a =>
    w.adapters[a]?.any fun x => x.owner == l && !x.collected).reverse

/-- `lua_close` -/
def luaClose (l : ℕ) : Eval ν Os Unit := do
  finaliseAll C (uncollected (← get) l)
  modifyVm l fun vm => { vm with isOpen := false }

end LuaIOManager

end Jord.Io
