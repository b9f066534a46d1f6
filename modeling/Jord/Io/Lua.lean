import Jord.Foundations.Bytes

/-!
# Lua values and the platform

Scripts see a file handle as a full userdata (`LuaValue.handle`), and the result of `lines` as a
function (`LuaValue.iterator`). `Platform` collects what the library is built on: the stdio
functions of the C library, which act on the state of the operating system, and the conversions of
Lua numbers.
-/

namespace Jord.Io

/-- A Lua value; `ν` is the type of numbers. Tables stand for whatever holds references of the
script: tables, closures of Lua functions, coroutines. -/
inductive LuaValue (ν : Type)
  | nil
  | boolean (b : Bool)
  | number (n : ν)
  | string (s : Str)
  | table (t : ℕ)
  /-- The userdata that holds a `LuaFileAdapter`. -/
  | handle (a : ℕ)
  /-- Any other full userdata. -/
  | userdata (u : ℕ)
  /-- A closure of `LuaFileAdapter::lines_iterator`. -/
  | iterator (i : ℕ)
  /-- Any other function. -/
  | function
  deriving DecidableEq

namespace LuaValue

variable {ν : Type}

/-- `lua_isuserdata` -/
def isUserdata : LuaValue ν → Bool
  | handle _ => true
  | userdata _ => true
  | _ => false

/-- A value that is not an object of the library and holds no reference to one. -/
def isPlain : LuaValue ν → Bool
  | table _ => false
  | handle _ => false
  | iterator _ => false
  | _ => true

/-- `lua_isnoneornil` of an argument. -/
def isNoneOrNil : Option (LuaValue ν) → Bool
  | none => true
  | some nil => true
  | some _ => false

/-- `luaL_typename` of an argument. -/
def typeName : Option (LuaValue ν) → Str
  | none => Str.ascii "no value"
  | some nil => Str.ascii "nil"
  | some (boolean _) => Str.ascii "boolean"
  | some (number _) => Str.ascii "number"
  | some (string _) => Str.ascii "string"
  | some (table _) => Str.ascii "table"
  | some (handle _) => Str.ascii "userdata"
  | some (userdata _) => Str.ascii "userdata"
  | some (iterator _) => Str.ascii "function"
  | some function => Str.ascii "function"

end LuaValue

/-- A `FILE*` other than `NULL`. -/
abbrev Stream := ℕ

/-- `LuaAbstractFile::SeekMode` -/
inductive SeekMode
  | set
  | cur
  | fromEnd
  deriving DecidableEq

/-- `LuaAbstractFile::VBufMode` -/
inductive VBufMode
  | no
  | full
  | line
  deriving DecidableEq

/-- The C library and the number conversions of Lua, on an operating system with states `Os`. A
function of the library returns a value and changes the state. -/
structure Platform (ν Os : Type) where
  stdin : Stream
  stdout : Stream
  stderr : Stream
  /-- The stream that `fopen` of a path in a mode gives; `none` is `NULL`. -/
  fopen : Str → Str → Os → Option Stream × Os
  /-- Whether `fclose` returns zero. -/
  fclose : Stream → Os → Bool × Os
  clearerr : Stream → Os → Os
  ferror : Stream → Os → Bool
  /-- The bytes that `fgets` stores before the terminating NUL; `none` is `NULL`. -/
  fgets : ℕ → Stream → Os → Option Str × Os
  fread : ℕ → Stream → Os → Str × Os
  /-- The number that `fscanf` assigns, when it returns 1. -/
  fscanf : Stream → Os → Option ν × Os
  /-- The character that `getc` returns; `none` is `EOF`. -/
  getc : Stream → Os → Option UInt8 × Os
  ungetc : Option UInt8 → Stream → Os → Os
  /-- Whether `fprintf` of a number returns a positive count. -/
  fprintf : ν → Stream → Os → Bool × Os
  /-- The number of bytes that `fwrite` writes. -/
  fwrite : Str → Stream → Os → ℕ × Os
  /-- Whether `fflush` returns zero; `none` is `NULL`, for which it flushes every stream. -/
  fflush : Option Stream → Os → Bool × Os
  /-- Whether `fseek` returns zero. -/
  fseek : Stream → ℤ → SeekMode → Os → Bool × Os
  ftell : Stream → Os → ℤ × Os
  /-- Whether `setvbuf` returns zero. -/
  setvbuf : Stream → VBufMode → ℤ → Os → Bool × Os
  /-- What `boost::filesystem::exists` of a path says; `none` is an exception. -/
  exists_ : Str → Os → Option Bool × Os
  errno : Os → ℤ
  strerror : ℤ → Str
  /-- `LUAL_BUFFERSIZE` -/
  bufferSize : ℕ
  /-- The number that a string is converted to (`luaO_str2d`). -/
  str2number : Str → Option ν
  /-- The string that a number is converted to (`LUA_NUMBER_FMT`). -/
  number2str : ν → Str
  /-- `size_t( n )` -/
  toSize : ν → ℕ
  /-- `lua_Integer( n )` -/
  toInteger : ν → ℤ
  ofInteger : ℤ → ν
  /-- How many rounds of a loop the model follows. -/
  rounds : ℕ

/-- A platform on which every file is the null device: a file can always be opened, with a new
stream, reading is at the end at once, and what is written disappears. The state is the number of
streams opened. -/
def nullDevice : Platform ℤ ℕ where
  stdin := 0
  stdout := 1
  stderr := 2
  fopen _ _ n := (some (n + 3), n + 1)
  fclose _ n := (true, n)
  clearerr _ n := n
  ferror _ _ := false
  fgets _ _ n := (none, n)
  fread _ _ n := ([], n)
  fscanf _ n := (none, n)
  getc _ n := (none, n)
  ungetc _ _ n := n
  fprintf _ _ n := (true, n)
  fwrite s _ n := (s.length, n)
  fflush _ n := (true, n)
  fseek _ _ _ n := (true, n)
  ftell _ n := (0, n)
  setvbuf _ _ _ n := (true, n)
  exists_ _ n := (some true, n)
  errno _ := 0
  strerror _ := Str.ascii "Success"
  bufferSize := 8192
  str2number _ := none
  number2str n := Str.signed n
  toSize n := n.toNat
  toInteger n := n
  ofInteger n := n
  rounds := 1

/-- The bytes of a C string: what comes before the first NUL. -/
def cstr (s : Str) : Str := s.takeWhile (· != 0)

namespace LuaValue

variable {ν Os : Type} (C : Platform ν Os)

/-- `lua_tonumber` where `lua_isnumber` holds, and `none` where it does not. -/
def toNumber : LuaValue ν → Option ν
  | number n => some n
  | string s => C.str2number s
  | _ => none

/-- `lua_tolstring` -/
def toLString : Option (LuaValue ν) → Option Str
  | some (string s) => some s
  | some (number n) => some (C.number2str n)
  | _ => none

end LuaValue

end Jord.Io
