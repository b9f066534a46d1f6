import Mathlib.Algebra.Group.Nat.Defs
import Jord.Io.BoostFile

/-!
# File handles

The member functions of `LuaFileAdapter`, on the adapter with address `this`. The arguments are the
values on the Lua stack, the handle itself taken off; the result is the list of values returned.
`l` is the VM that calls.
-/

namespace Jord.Io

variable {ν Os : Type} (C : Platform ν Os)

/-! ## Arguments -/

/-- `luaL_checklstring` -/
def checkLString (narg : ℤ) (v : Option (LuaValue ν)) : Eval ν Os Str :=
  match LuaValue.toLString C v with
  | some s => return s
  | none => typeError narg (Str.ascii "string") v

/-- `luaL_optlstring` -/
def optLString (narg : ℤ) (v : Option (LuaValue ν)) (d : Str) : Eval ν Os Str :=
  if LuaValue.isNoneOrNil v then return d else checkLString C narg v

/-- `luaL_optinteger` -/
def optInteger (narg : ℤ) (v : Option (LuaValue ν)) (d : ℤ) : Eval ν Os ℤ :=
  if LuaValue.isNoneOrNil v then
    return d
  else
    match v.bind (LuaValue.toNumber C) with
    | some n => return C.toInteger n
    | none => typeError narg (Str.ascii "number") v

/-- `luaL_checkoption`, for a list of names with the values they stand for. -/
def checkOption {α : Type} (narg : ℤ) (v : Option (LuaValue ν)) (d : Option Str)
    (options : List (Str × α)) : Eval ν Os α := do
  let name ← d.elim (checkLString C narg v) (optLString C narg v)
  match options.lookup (cstr name) with
  | some x => return x
  | none => argError narg (Str.ascii "invalid option '" ++ cstr name ++ Str.ascii "'")

/-- `LUAI_MAXCSTACK` -/
def maxCStack : ℕ := 8000

/-- `LUA_MINSTACK` -/
def minStack : ℕ := 20

/-- `luaL_checkstack`, with `top` values on the stack. -/
def checkStack (top space : ℕ) (message : Str) : Eval ν Os Unit :=
  if maxCStack < top + space then
    luaError (Str.ascii "stack overflow (" ++ message ++ Str.ascii ")")
  else
    return

namespace LuaFileAdapter

/-- The adapter with address `this`. -/
def adapter (this : ℕ) : Eval ν Os FileAdapter := do
  match (← get).adapters[this]? with
  | some x => if x.destroyed then fault .destroyedAdapter else return x
  | none => fault .destroyedAdapter

/-- `m_FileHandle` -/
def handle (this : ℕ) : Eval ν Os (Option ℕ) := return (← adapter this).fileHandle

/-! ## Results -/

/-- `reportError` -/
def reportError (this : ℕ) (message : Str) : Eval ν Os (List (LuaValue ν)) := do
  match ← handle this with
  | some f =>
    let fileName ← LuaBoostFile.getFileName f
    let lastError ← LuaBoostFile.getLastError C f
    let err ← LuaBoostFile.getLastErrorCode f
    let msg := fileName ++ Str.ascii " : " ++ message ++ Str.ascii " : " ++ lastError
    return [.nil, .string (cstr msg), .number (C.ofInteger err)]
  | none => return [.nil, .string (cstr message), .number (C.ofInteger (-1))]

/-- `reportResult` -/
def reportResult (this : ℕ) (successful : Bool) : Eval ν Os (List (LuaValue ν)) := do
  if successful then
    return [.boolean true]
  else
    match ← handle this with
    | some f => reportError C this (← LuaBoostFile.getLastError C f)
    | none => reportError C this (Str.ascii "io error")

/-! ## Reading -/

/-- A round of the loop of `read`, for the format in argument `narg`: whether it was successful, and
the value it pushes. Where `fscanf` assigns no number, the value that is pushed is replaced by
`nil` at the end, and `nil` stands for it here. -/
def readFormat (f : ℕ) (narg : ℤ) (v : LuaValue ν) : Eval ν Os (Bool × LuaValue ν) := do
  match LuaValue.toNumber C v with
  | some n =>
    if C.toSize n = 0 then
      if ← LuaBoostFile.isEOF C f then
        return (false, .nil)
      else
        return (true, .string [])
    else
      let (success, data) ← LuaBoostFile.read C f (C.toSize n)
      return (success, if success then .string data else .nil)
  | none =>
    match (LuaValue.toLString C (some v)).map cstr with
    | some (42 :: p) =>
      match p.head? with
      | some 110 =>
        let number ← LuaBoostFile.readNumber C f
        return (number.isSome, number.elim .nil .number)
      | some 108 =>
        let (success, line) ← LuaBoostFile.readLine C f []
        return (success, .string (cstr line))
      | some 97 =>
        let (_, data) ← LuaBoostFile.read C f (2 ^ 64 - 1)
        return (true, .string data)
      | _ => argError narg (Str.ascii "invalid format")
    | _ => argError narg (Str.ascii "invalid option")

/-- The loop of `read` over the formats from argument `narg` on: whether all were successful, and
the values pushed. -/
def readFormats (f : ℕ) : ℤ → List (LuaValue ν) → Eval ν Os (Bool × List (LuaValue ν))
  | _, [] => return (true, [])
  | narg, v :: args => do
    let (success, value) ← readFormat C f narg v
    if success then
      let (success, values) ← readFormats f (narg + 1) args
      return (success, value :: values)
    else
      return (false, [value])

/-- What `read` pushes. -/
def readValues (f : ℕ) (args : List (LuaValue ν)) : Eval ν Os (Bool × List (LuaValue ν)) := do
  match args with
  | [] =>
    let (success, line) ← LuaBoostFile.readLine C f []
    return (success, [.string (cstr line)])
  | _ :: _ =>
    checkStack args.length (args.length + minStack) (Str.ascii "too many arguments")
    readFormats C f 1 args

/-- `read` -/
def read (this : ℕ) (args : List (LuaValue ν)) : Eval ν Os (List (LuaValue ν)) := do
  match ← handle this with
  | none => luaError (Str.ascii "attempt to read a closed file")
  | some f =>
    if !(← LuaBoostFile.isOpen f) then luaError (Str.ascii "attempt to read a closed file") else
    let (success, values) ← readValues C f args
    if ← LuaBoostFile.hasFailed C f then
      reportError C this (Str.ascii "read failure")
    else
      return if success then values else values.dropLast ++ [.nil]

/-! ## Writing -/

/-- A round of the loop of `write`; nothing is written once a write has failed. -/
def writeArg (f : ℕ) (narg : ℤ) (status : Bool) : LuaValue ν → Eval ν Os Bool
  | .number n => if status then LuaBoostFile.writeNumber C f n else return false
  | v => do
    let s ← checkLString C narg (some v)
    if status then LuaBoostFile.writeBuffer C f s else return false

/-- The loop of `write` over the arguments from `narg` on. -/
def writeArgs (f : ℕ) : ℤ → List (LuaValue ν) → Bool → Eval ν Os Bool
  | _, [], status => return status
  | narg, v :: args, status => do
    writeArgs f (narg + 1) args (← writeArg C f narg status v)

/-- `write` -/
def write (this : ℕ) (args : List (LuaValue ν)) : Eval ν Os (List (LuaValue ν)) := do
  match ← handle this with
  | none => luaError (Str.ascii "attempt to write a closed file")
  | some f => reportResult C this (← writeArgs C f 1 args true)

/-- `flush` -/
def flush (this : ℕ) : Eval ν Os (List (LuaValue ν)) := do
  match ← handle this with
  | none => luaError (Str.ascii "attempt to flush a closed file")
  | some f => reportResult C this (← LuaBoostFile.flush C f)

/-! ## Closing -/

/-- `close` -/
def close (this : ℕ) : Eval ν Os (List (LuaValue ν)) := do
  match ← handle this with
  | none => luaError (Str.ascii "file is already closed")
  | some f =>
    if !(← LuaBoostFile.close C f) then luaError (Str.ascii "file is already closed") else
    count (-1)
    onlyIf (!(← LuaBoostFile.isStdFile f)) (LuaBoostFile.delete C f)
    modifyAdapter this fun x => { x with fileHandle := none }
    reportResult C this true

/-! ## Lines -/

/-- `lua_pushcclosure( l, lines_iterator, 2 )` -/
def pushIterator (l : ℕ) (it : Iterator ν) : Eval ν Os (LuaValue ν) := do
  let i := ((← get).vms[l]?.elim 0 fun vm => vm.iterators.length)
  modifyVm l fun vm => { vm with iterators := vm.iterators ++ [it] }
  return .iterator i

/-- The upvalues that `lines` chooses: a userdata on top of the stack is what the iterator reads
from, and is closed at the end; without one the iterator reads from the address of this adapter. -/
def lineIterator (this : ℕ) (args : List (LuaValue ν)) : Iterator ν :=
  match args.getLast? with
  | some v => if v.isUserdata then ⟨.full v, true⟩ else ⟨.light this, false⟩
  | none => ⟨.light this, false⟩

/-- `lines` -/
def lines (l this : ℕ) (args : List (LuaValue ν)) : Eval ν Os (List (LuaValue ν)) := do
  match ← handle this with
  | none => luaError (Str.ascii "attempt to read a closed file")
  | some f =>
    if !(← LuaBoostFile.isOpen f) then luaError (Str.ascii "attempt to read a closed file") else
    return [← pushIterator l (lineIterator this args)]

/-- The adapter that the first upvalue of an iterator is taken to be. -/
def upvalueAdapter : Upvalue ν → Option ℕ
  | .full (.handle a) => some a
  | .full _ => none
  | .light a => some a

/-- `lines_iterator` -/
def linesIterator (it : Iterator ν) : Eval ν Os (List (LuaValue ν)) := do
  match upvalueAdapter it.upvalue with
  | none => fault .foreignUserdata
  | some a =>
    match ← handle a with
    | none => fault .nullHandle
    | some f =>
      if !(← LuaBoostFile.isOpen f) then luaError (Str.ascii "file is closed") else
      let (success, line) ← LuaBoostFile.readLine C f []
      if success then
        return [.string (cstr line)]
      else
        onlyIf it.closeFile (discard (LuaBoostFile.close C f))
        return [.nil]

/-! ## Positions and buffers -/

/-- `seek` -/
def seek (this : ℕ) (args : List (LuaValue ν)) : Eval ν Os (List (LuaValue ν)) := do
  match ← handle this with
  | none => luaError (Str.ascii "attempt to seek a closed file")
  | some f =>
    let mode ← checkOption C 1 args[0]? (some (Str.ascii "cur"))
      [(Str.ascii "set", SeekMode.set), (Str.ascii "cur", .cur), (Str.ascii "end", .fromEnd)]
    let offset ← optInteger C 2 args[1]? 0
    let (result, position) ← LuaBoostFile.seek C f mode offset
    if !result then
      reportError C this (Str.ascii "seek failed")
    else
      return [.number (C.ofInteger position)]

/-- `setvbuf` -/
def setvbuf (this : ℕ) (args : List (LuaValue ν)) : Eval ν Os (List (LuaValue ν)) := do
  match ← handle this with
  | none => luaError (Str.ascii "attempt to setvbuf to a closed file")
  | some f =>
    let mode ← checkOption C 1 args[0]? none
      [(Str.ascii "no", VBufMode.no), (Str.ascii "full", .full), (Str.ascii "line", .line)]
    let size ← optInteger C 2 args[1]? C.bufferSize
    reportResult C this (← LuaBoostFile.setvbuf C f mode size)

/-! ## States -/

/-- `__tostring` -/
def tostring (this : ℕ) : Eval ν Os (List (LuaValue ν)) := do
  match ← handle this with
  | some f => return [.string (cstr (← LuaBoostFile.getFileName f))]
  | none => return [.string (Str.ascii "file (closed)")]

/-- `isOpen` -/
def isOpen (this : ℕ) : Eval ν Os (List (LuaValue ν)) :=
  return [.boolean (← handle this).isSome]

/-! ## Construction and destruction -/

/-- `CreateUDataClass( l, LuaFileAdapter, pf )` -/
def create (l f : ℕ) : Eval ν Os ℕ := do
  let x ← LuaBoostFile.object f
  onlyIf (x.fileHandle.isSome && !x.isStdFile) (count 1)
  let w ← get
  set { w with adapters := w.adapters ++ [FileAdapter.mk l (some f) false false] }
  return w.adapters.length

/-- `~LuaFileAdapter` -/
def destroy (this : ℕ) : Eval ν Os Unit := do
  match ← handle this with
  | none => modifyAdapter this fun x => { x with destroyed := true }
  | some f =>
    onlyIf (← LuaBoostFile.close C f) (count (-1))
    onlyIf (!(← LuaBoostFile.isStdFile f)) (LuaBoostFile.delete C f)
    modifyAdapter this fun x => { x with destroyed := true }

end LuaFileAdapter

end Jord.Io
