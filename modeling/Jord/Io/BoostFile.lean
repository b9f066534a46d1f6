import Jord.Io.World

/-!
# Files

The member functions of `details::LuaBoostFile`, on the object with address `this`. Each stdio
call passes `m_FileHandle` on, so that calling it while the member is `NULL` is a fault; only
`fflush` has a meaning for `NULL`.
-/

namespace Jord.Io.LuaBoostFile

variable {ν Os : Type} (C : Platform ν Os)

/-- The object with address `this`. -/
def object (this : ℕ) : Eval ν Os BoostFile := do
  match (← get).files[this]? with
  | some x => if x.deleted then fault .deletedFile else return x
  | none => fault .deletedFile

/-- `m_FileHandle`, passed to a stdio function. -/
def stream (this : ℕ) : Eval ν Os Stream := do
  match (← object this).fileHandle with
  | some s => return s
  | none => fault .nullFile

/-- `m_ErrorCode = errno` -/
def setError (this : ℕ) : Eval ν Os Unit := do
  let code := C.errno (← get).os
  modifyFile this fun x => { x with errorCode := code }

/-- `if( !result ) m_ErrorCode = errno; return result;` -/
def checked (this : ℕ) (result : Bool) : Eval ν Os Bool := do
  onlyIf (!result) (setError C this)
  return result

/-! ## Construction -/

/-- Put an object in the heap. -/
def create (x : BoostFile) : Eval ν Os ℕ := do
  let w ← get
  set { w with files := w.files ++ [x] }
  return w.files.length

/-- `new LuaBoostFile( path, mode )` -/
def construct (path mode : Str) : Eval ν Os ℕ := do
  let handle ← sys (C.fopen path mode)
  let this ← create ⟨path, handle, 0, true, false, false⟩
  onlyIf handle.isNone (setError C this)
  return this

/-- `m_OwnsFile && m_FileHandle && 0 == fclose( m_FileHandle )` -/
def fclose (x : BoostFile) : Eval ν Os Bool :=
  match x.ownsFile, x.fileHandle with
  | true, some s => sys (C.fclose s)
  | _, _ => pure false

/-- `delete` of a file: `~LuaBoostFile`, after which the object is gone. -/
def delete (this : ℕ) : Eval ν Os Unit := do
  match (← get).files[this]? with
  | none => fault .doubleDelete
  | some x =>
    if x.deleted then fault .doubleDelete else
    let _ ← fclose C x
    modifyFile this fun x => { x with deleted := true }

/-! ## Reading -/

/-- `readNumber`; the number is what `fscanf` assigns. -/
def readNumber (this : ℕ) : Eval ν Os (Option ν) := do
  let s ← stream this
  sysUnit (C.clearerr s)
  let number ← sys (C.fscanf s)
  let _ ← checked C this number.isSome
  return number

/-- The loop of `readLine`; `size` is the length of the line before the call. -/
def readLineLoop (this : ℕ) (s : Stream) (size : ℕ) : ℕ → Str → Eval ν Os (Bool × Str)
  | 0, _ => fault .unfinished
  | n + 1, line => do
    match ← sys (C.fgets C.bufferSize s) with
    | none =>
      let result ← checked C this (0 < line.length - size)
      return (result, line)
    | some buffer =>
      let chunk := cstr buffer
      if chunk.getLast? = some 10 then
        return (true, line ++ chunk.dropLast)
      else
        readLineLoop this s size n (line ++ chunk)

/-- `readLine` -/
def readLine (this : ℕ) (line : Str) : Eval ν Os (Bool × Str) := do
  let s ← stream this
  sysUnit (C.clearerr s)
  readLineLoop C this s line.length C.rounds line

/-- How much a round of `read` asks for. -/
def readCount (numBytes : ℕ) : ℕ := if numBytes < C.bufferSize then numBytes else C.bufferSize

/-- The loop of `read`; it returns the bytes read in its rounds. -/
def readLoop (s : Stream) : ℕ → ℕ → Str → Eval ν Os Str
  | 0, _, _ => fault .unfinished
  | n + 1, numBytes, data => do
    let bytes ← sys (C.fread (readCount C numBytes) s)
    if numBytes - bytes.length ≠ 0 ∧ bytes.length = readCount C numBytes then
      readLoop s n (numBytes - bytes.length) (data ++ bytes)
    else
      return data ++ bytes

/-- `read`, into an empty vector. -/
def read (this : ℕ) (numBytes : ℕ) : Eval ν Os (Bool × Str) := do
  let s ← stream this
  sysUnit (C.clearerr s)
  let data ← readLoop C s C.rounds numBytes []
  let result ← checked C this (0 < data.length)
  return (result, data)

/-- `isEOF` -/
def isEOF (this : ℕ) : Eval ν Os Bool := do
  let s ← stream this
  let c ← sys (C.getc s)
  sysUnit (C.ungetc c s)
  sysUnit (C.clearerr s)
  return c.isNone

/-! ## Writing -/

/-- `writeNumber` -/
def writeNumber (this : ℕ) (number : ν) : Eval ν Os Bool := do
  let s ← stream this
  let result ← sys (C.fprintf number s)
  checked C this result

/-- `writeBuffer` -/
def writeBuffer (this : ℕ) (data : Str) : Eval ν Os Bool := do
  let s ← stream this
  let written ← sys (C.fwrite data s)
  checked C this (written = data.length)

/-- `flush` -/
def flush (this : ℕ) : Eval ν Os Bool := do
  let x ← object this
  let result ← sys (C.fflush x.fileHandle)
  checked C this result

/-! ## Positions, buffers, states -/

/-- `seek`, with the position it returns. -/
def seek (this : ℕ) (mode : SeekMode) (offset : ℤ) : Eval ν Os (Bool × ℤ) := do
  let s ← stream this
  let result ← sys (C.fseek s offset mode)
  let _ ← checked C this result
  let position ← sys (C.ftell s)
  return (result, position)

/-- `setvbuf` -/
def setvbuf (this : ℕ) (mode : VBufMode) (size : ℤ) : Eval ν Os Bool := do
  let s ← stream this
  let result ← sys (C.setvbuf s mode size)
  checked C this result

/-- `hasFailed` -/
def hasFailed (this : ℕ) : Eval ν Os Bool := do
  let s ← stream this
  let err := C.ferror s (← get).os
  onlyIf err (setError C this)
  return err

/-- `getLastError` -/
def getLastError (this : ℕ) : Eval ν Os Str := return C.strerror (← object this).errorCode

/-- `getLastErrorCode` -/
def getLastErrorCode (this : ℕ) : Eval ν Os ℤ := return (← object this).errorCode

/-- `getFileName` -/
def getFileName (this : ℕ) : Eval ν Os Str := return (← object this).fileName

/-- `isOpen` -/
def isOpen (this : ℕ) : Eval ν Os Bool := return (← object this).fileHandle.isSome

/-- `isStdFile` -/
def isStdFile (this : ℕ) : Eval ν Os Bool := return (← object this).isStdFile

/-- `close`: whatever `fclose` returns, the member is `NULL` afterwards. -/
def close (this : ℕ) : Eval ν Os Bool := do
  let x ← object this
  let result ← checked C this (← fclose C x)
  modifyFile this fun x => { x with fileHandle := none }
  return result

end Jord.Io.LuaBoostFile
