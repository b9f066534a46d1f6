import Jord.Base.Heap
import Jord.Foundations.LuaChunk
import Jord.Foundations.Results
import Mathlib.Algebra.Ring.Nat
import Mathlib.Logic.Function.Basic

/-!
# Dumping a value

`table.dump`, which writes a value as a chunk that returns it. A table constructor is written where
a table is come to for the first time, and the path to this place is kept in `defined`; where it is
come to again `nil` is written, and an assignment that is put behind the constructor (`out`).
Functions are left out, and the fast mode has a module of its own.
-/

namespace Jord.Base

open LuaLexer (isSpace isName)
open LuaChunk (reserved)

/-- A value that is neither `nil` nor a table nor a function. `ρ` are the numbers. -/
inductive Atom (ρ : Type)
  | string (s : Str)
  | number (x : ρ)
  | boolean (b : Bool)
  | userdata (u : ℕ)
  | thread (t : ℕ)
  deriving DecidableEq

/-- What Lua does with numbers, and its `table.sort`. -/
structure Library (ρ : Type) where
  /-- `lua_number2str` -/
  numberText : ρ → Str
  /-- `lua_str2number` of a numeral -/
  numberOf : Str → ρ
  /-- the unary minus -/
  neg : ρ → ρ
  /-- `<` -/
  lt : ρ → ρ → Bool
  /-- an integer that is counted up from one -/
  natural : ℕ → ρ
  sort : (Ref (Atom ρ) → Ref (Atom ρ) → Bool) → List (Ref (Atom ρ)) → List (Ref (Atom ρ))

/-- The errors of a dump. -/
inductive DumpError
  /-- `Cannot dump userdata` -/
  | userdata
  /-- `Cannot dump threads` -/
  | threads
  /-- attempt to index a nil value -/
  | indexNil
  /-- attempt to concatenate a nil value -/
  | concatenateNil
  /-- The recursion is deeper than the model follows. -/
  | unfinished
  deriving DecidableEq

/-! ## Strings -/

/-- The characters of a string in `addquoted`. -/
def quotedChar (c : UInt8) : Str :=
  if c = 34 ∨ c = 92 ∨ c = 10 then [92, c]
  else if c = 13 then Str.ascii "\\r"
  else if c = 0 then Str.ascii "\\000"
  else [c]

/-- `string.format( "%q", s )` -/
def quoted (s : Str) : Str := 34 :: s.flatMap quotedChar ++ [34]

/-- `%s` of `string.format`: a string of less than a hundred characters ends at a NUL. -/
def formatString (s : Str) : Str := if 100 ≤ s.length then s else s.takeWhile (· != 0)

/-- `s:match "^getmetatable.*%)$"` -/
def isMetatablePath (s : Str) : Bool :=
  (Str.ascii "getmetatable").isPrefixOf s && (s.drop 12).getLast? == some 41

/-- `s:match "^%s*=%s*$"` -/
def isAssign (s : Str) : Bool :=
  (s.dropWhile isSpace).head? == some 61 && (s.dropWhile isSpace).tail.all isSpace

/-- `s:gsub( "%s*=%s*$", "" )` -/
def dropAssign : Str → Str
  | [] => []
  | c :: s => if isAssign (c :: s) then [] else c :: dropAssign s

/-- `s:sub( 1, -3 )` -/
def dropTwo (s : Str) : Str := s.take (s.length - 2)

/-- `s .. t`, where the first one may be `nil`. -/
def concat : Option Str → Str → Except DumpError Str
  | some s, t => .ok (s ++ t)
  | none, _ => .error .concatenateNil

/-! ## The dump -/

/-- The statements, the paths of the tables, and the keys of `keycache` that are tables. -/
structure DumpState where
  out : List Str
  defined : ℕ → Option Str
  keycache : ℕ → Option Str

variable {ρ : Type} [DecidableEq ρ]

/-- `type( value )` -/
def typeName : Ref (Atom ρ) → Str
  | .atom (.string _) => Str.ascii "string"
  | .atom (.number _) => Str.ascii "number"
  | .atom (.boolean _) => Str.ascii "boolean"
  | .atom (.userdata _) => Str.ascii "userdata"
  | .atom (.thread _) => Str.ascii "thread"
  | .table _ => Str.ascii "table"

/-- `tostring` of a boolean -/
def booleanText (b : Bool) : Str := if b then Str.ascii "true" else Str.ascii "false"

variable (lib : Library ρ)

/-- `cmpfct` -/
def cmpfct : Ref (Atom ρ) → Ref (Atom ρ) → Bool
  | .atom (.string s), .atom (.string t) => s < t
  | .atom (.number x), .atom (.number y) => lib.lt x y
  | a, b => typeName a < typeName b

/-- `keys` -/
def keys (t : Object (Atom ρ)) : List (Ref (Atom ρ)) :=
  lib.sort (cmpfct lib) (t.pairs.map Prod.fst)

/-- `fcts` of a value that is not a table -/
def dumpAtom : Atom ρ → Except DumpError Str
  | .string s => .ok (quoted s)
  | .number x => .ok (lib.numberText x)
  | .boolean b => .ok (booleanText b)
  | .userdata _ => .error .userdata
  | .thread _ => .error .threads

/-- `dumplua` as it is called: the value, `ident` and `path`. -/
abbrev Dumplua (ρ : Type) :=
  DumpState → Ref (Atom ρ) → ℕ → Option Str → Except DumpError (DumpState × Str)

/-- `test_defined` for a table that is defined as `text` -/
def testDefined (s : DumpState) (text : Str) : Option Str → Except DumpError DumpState
  | none => .error .indexNil
  | some path =>
    let statement :=
      if isMetatablePath path then
        Str.ascii "s" ++ formatString ((path.drop 1).dropLast) ++ Str.ascii ", " ++
          formatString text ++ Str.ascii ")\n"
      else path ++ Str.ascii " = " ++ text ++ Str.ascii "\n"
    .ok { s with out := s.out ++ [statement] }

/-- `keycache[key]`, where `make_key` makes what is not there. -/
def keycache (dumplua : Dumplua ρ) (s : DumpState) (key : Ref (Atom ρ)) :
    Except DumpError (DumpState × Str) :=
  let makeKey := (dumplua s key 0 none).map fun r =>
    (r.1, Str.ascii "[" ++ r.2 ++ Str.ascii "]=")
  match key with
  | .atom (.string k) =>
    if reserved.contains k then .ok (s, Str.ascii "[\"" ++ k ++ Str.ascii "\"] = ")
    else if isName k then .ok (s, k ++ Str.ascii "=")
    else makeKey
  | .table a =>
    match s.keycache a with
    | some k => .ok (s, k)
    | none =>
      makeKey.map fun r => ({ r.1 with keycache := Function.update r.1.keycache a r.2 }, r.2)
  | _ => makeKey

/-- The key of a field and the path to it, where `numidx` is the next index. -/
def dumpKey (dumplua : Dumplua ρ) (path : Option Str) (s : DumpState) (key : Ref (Atom ρ))
    (numidx : ℕ) : Except DumpError (DumpState × Str × Str) :=
  if key = .atom (.number (lib.natural numidx)) then do
    let subpath ← concat path (Str.ascii "[" ++ lib.numberText (lib.natural numidx) ++
      Str.ascii "]")
    return (s, [], subpath)
  else do
    let (s, k) ← keycache dumplua s key
    let subpath ← concat path
      ((if k.head? = some 91 then [] else Str.ascii ".") ++ dropAssign k)
    return (s, k, subpath)

/-- `dumplua` of a value that may be `nil`. -/
def dumpValue (dumplua : Dumplua ρ) (s : DumpState) (value : Option (Ref (Atom ρ))) (ident : ℕ)
    (path : Option Str) : Except DumpError (DumpState × Str) :=
  match value with
  | some r => dumplua s r ident path
  | none => .ok (s, Str.ascii "nil")

/-- The loop over the keys of a table, which collects the fields. -/
def dumpFields (dumplua : Dumplua ρ) (t : Object (Atom ρ)) (ident : ℕ) (path : Option Str) :
    List (Ref (Atom ρ)) → ℕ → DumpState → Except DumpError (DumpState × List Str)
  | [], _, s => .ok (s, [])
  | key :: ks, numidx, s => do
    let (s, k, subpath) ← dumpKey lib dumplua path s key numidx
    let (s, text) ← dumpValue dumplua s (t.rawget key) (ident + 1) subpath
    let next := if key = .atom (.number (lib.natural numidx)) then numidx + 1 else numidx
    let (s, fields) ← dumpFields dumplua t ident path ks next s
    return (s, (k ++ text) :: fields)

/-- What stands between two fields: a blank, or a new line where the text is long. -/
def separator (ident totallen : ℕ) : Str :=
  if 80 < totallen then 10 :: List.replicate (2 * (ident + 1)) 32 else [32]

/-- The fields in braces. -/
def braces (sep : Str) (fields : List Str) : Str :=
  Str.ascii "\x7b" ++ sep ++ (44 :: sep).intercalate fields ++ Str.ascii " " ++ dropTwo sep ++
    Str.ascii "\x7d"

/-- The call of `setmetatable`, if there is a metatable. -/
def withMetatable (sep str : Str) : Option Str → Str
  | none => str
  | some metastr =>
    Str.ascii "setmetatable(" ++ sep ++ str ++ Str.ascii "," ++ sep ++ metastr ++ dropTwo sep ++
      Str.ascii ")"

/-- The text of a table with its fields, and with its metatable. -/
def tableText (ident : ℕ) (fields : List Str) (metatable : Option Str) : Str :=
  let totallen := ((metatable.map fun m => m.length + 16).getD 0) +
    (fields.map fun f => f.length + 2).sum
  let sep := separator ident totallen
  withMetatable (dropTwo sep) (braces sep fields) metatable

/-- The metatable of a table, and `ident`, which grows with it. -/
def dumpMetatable (dumplua : Dumplua ρ) (ident : ℕ) (path : Option Str) :
    Option ℕ → DumpState → Except DumpError (DumpState × ℕ × Option Str)
  | none, s => .ok (s, ident, none)
  | some m, s => do
    let subpath ← concat path (Str.ascii ")")
    let (s, text) ← dumplua s (.table m) (ident + 1) (Str.ascii "getmetatable(" ++ subpath)
    return (s, ident + 1, some text)

variable (H : Heap (Atom ρ))

/-- `dumplua` -/
def dumplua : ℕ → Dumplua ρ
  | _, s, .atom x, _, _ => (dumpAtom lib x).map fun text => (s, text)
  | fuel, s, .table a, ident, path =>
    match s.defined a with
    | some text => (testDefined s text path).map fun s => (s, Str.ascii "nil")
    | none =>
      match fuel with
      | 0 => .error .unfinished
      | fuel + 1 => do
        let t := (H[a]?).getD ⟨[], none⟩
        let s := { s with defined := Function.update s.defined a path }
        let (s, ident, metatable) ← dumpMetatable (dumplua fuel) ident path t.metatable s
        let (s, fields) ← dumpFields lib (dumplua fuel) t ident path (keys lib t) 1 s
        return (s, tableText ident fields metatable)

/-- The beginning of the chunk, or of its last line. -/
def variableText : Option Str → Str
  | none => Str.ascii "return "
  | some name => if isName name then name ++ Str.ascii " = " else name

/-- `DataDumper` without the fast mode -/
def dataDumper (fuel : ℕ) (value : Option (Ref (Atom ρ))) (varname : Option Str)
    (ident : Option ℕ) : Except DumpError Str := do
  let (s, text) ← dumpValue (dumplua lib H fuel) ⟨[], fun _ => none, fun _ => none⟩ value
    (ident.getD 0) (some (Str.ascii "t"))
  if s.out = [] then return variableText varname ++ text
  else
    return Str.ascii "local t = " ++ text ++ Str.ascii "\n" ++ s.out.flatten ++
      variableText varname ++ Str.ascii "t"

end Jord.Base
