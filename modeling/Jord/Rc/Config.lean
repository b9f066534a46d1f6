import Jord.Foundations.LuaStack
import Jord.Rc.AddEntry
import Jord.Rc.Startup

/-!
# Parsing a config

`RCBuilder::parseConfig` evaluates a config file and goes through the table it gets, an element at a
time; `parceConfigElement` reads two optional fields of an element and calls `addEntry` for every
value in its field `entries`. Both loops are traversals with `lua_next` that keep their key on the
stack, and count their pushes and pops by hand.

`plan` is the list of what there is to do, read off the values alone, and `execute` does it. Two
kinds of values are not checked for: an `entries` that is no table and an entry that is neither a
table nor a string. A plan is `Sound` if the parser does not come to one, and `Robust` is what is
expected of the parser.

Evaluating the file and `addEntry` are parameters.
-/

namespace Jord.Rc

open LuaStack

variable {ν β : Type} [DecidableEq ν]

/-! ## The parser -/

/-- The arguments of a call of `addEntry`. -/
structure AddEntryCall where
  basePath : Str
  resourcePath : Str
  path : Str
  recursive : Bool
  deriving DecidableEq

/-- The builder, and the calls of `addEntry` that have returned. -/
structure ConfigData (β : Type) where
  builder : β
  calls : List AddEntryCall

/-- What the parser works with: the tables of the config, the number `1`, and `addEntry`, which
may throw. -/
structure ConfigApi (ν β : Type) extends Api ν where
  one : ν
  addEntry : AddEntryCall → β → β × Option Exn

/-- The program of the parser. -/
abbrev ConfigProgram (ν β α : Type) := LuaStack.Program ν (ConfigData β) Exn α

/-- The exception for data of another shape. -/
def unexpectedData : Exn := .rc (Str.ascii "Unexpected data in the config file")

namespace RCBuilder

variable (A : ConfigApi ν β)

/-- A call of `addEntry`. -/
def callAddEntry (c : AddEntryCall) : ConfigProgram ν β Unit := fun s =>
  match A.addEntry c s.data.builder with
  | (b, none) => .ok ((), ⟨s.stack, b, s.data.calls ++ [c]⟩)
  | (_, some e) => .error (.thrown e)

/-- The string at the top of the stack, if `lua_isstring` says that it is one. -/
def stringOr (default : Str) : ConfigProgram ν β Str := do
  if (← valueAt 1).isString then
    return cStr (← stdString (← toLString A.toApi))
  else
    return default

/-- `parceConfigElement` up to its loop: the base path and the resource path are read, and the
traversal of `entries` is begun. -/
def elementFields : ConfigProgram ν β (Str × Str) := do
  getField A.toApi (Str.ascii "base_path")
  let basePath ← stringOr A (Str.ascii ":/")
  pop 1
  getField A.toApi (Str.ascii "resource_path")
  let resourcePath ← stringOr A (Str.ascii ".")
  pop 1
  getField A.toApi (Str.ascii "entries")
  push .nil
  return (basePath, resourcePath)

/-- The path and the flag of an entry that is a table. -/
def tableEntry : ConfigProgram ν β (Str × Bool) := do
  push (.number A.one)
  getTable A.toApi
  let path ← stringOr A (Str.ascii ".")
  pop 1
  getField A.toApi (Str.ascii "recursive")
  let recursive := (← valueAt 1).toBoolean
  pop 1
  return (path, recursive)

/-- A round of the loop of `parceConfigElement`. -/
def entryRound (basePath resourcePath : Str) : ConfigProgram ν β Bool := do
  if ← next A.toApi then
    if (← valueAt 1).isTable then
      let (path, recursive) ← tableEntry A
      callAddEntry A ⟨basePath, resourcePath, path, recursive⟩
    else
      let path ← stdString (← toLString A.toApi)
      callAddEntry A ⟨basePath, resourcePath, cStr path, false⟩
    pop 1
    return true
  else
    return false

/-- `RCBuilder::parceConfigElement` -/
def parceConfigElement (fuel : ℕ) : ConfigProgram ν β Unit := do
  let (basePath, resourcePath) ← elementFields A
  loop fuel (entryRound A basePath resourcePath)
  pop 1

/-- A round of the loop of `parseConfig`. -/
def configRound (fuel : ℕ) : ConfigProgram ν β Bool := do
  if ← next A.toApi then
    if (← valueAt 1).isTable then
      parceConfigElement A fuel
      pop 1
      return true
    else
      stop (.thrown unexpectedData)
  else
    return false

/-- What `parseConfig` does with the values that the config file has returned. -/
def parseValues (fuel : ℕ) : ConfigProgram ν β Unit := do
  if (← valueAt 1).isTable then
    push .nil
    loop fuel (configRound A fuel)
  else
    stop (.thrown unexpectedData)

end RCBuilder

/-- The file system, the files that can be opened, and `luaL_dostring`: the error message, or the
values that the chunk returns, if it comes to an end. -/
structure ConfigSource (ν : Type) where
  files : FileTree
  opens : Str → Bool
  dostring : Str → Option (Except Str (List (Value ν)))

namespace RCBuilder

variable (A : ConfigApi ν β) (S : ConfigSource ν)

omit [DecidableEq ν] in
/-- The first half of `parseConfig`: the file is read and evaluated. -/
def readConfig (configPath : Str) : Except (Stop Exn) (List (Value ν)) :=
  match S.files.status configPath with
  | none => .error (.thrown (.rc (Str.ascii "Failed to find config file")))
  | some (.file (some bytes)) =>
    if S.opens configPath then
      match S.dostring (cStr (Str.ascii "return " ++ bytes)) with
      | none => .error .unfinished
      | some (.error message) => .error (.thrown (.rc (cStr message)))
      | some (.ok values) => .ok values
    else .error (.thrown (.rc (Str.ascii "Failed to open config file")))
  -- `file_size` throws
  | some _ => .error (.thrown .filesystem)

/-- `boost::filesystem::path::stem` -/
def stem (path : Str) : Str :=
  let name := PathLib.posix.filename path
  if name = Str.ascii "." || name = Str.ascii ".." || !name.contains 46 then name
  else (name.reverse.dropWhile (· ≠ 46)).tail.reverse

omit [DecidableEq ν] in
/-- The stack after the config file has returned: its values, the last on top, above the entry at
the base of a new `lua_State`. -/
def valueStack (values : List (Value ν)) : List (Value ν) := values.reverse ++ [.nil]

/-- `RCBuilder::parseConfig`, with the name of the module that it sets. -/
def parseConfig (fuel : ℕ) (configPath : Str) (b : β) :
    Except (Stop Exn) (ConfigData β × Str) :=
  match readConfig S configPath with
  | .error e => .error e
  | .ok values => (parseValues A fuel ⟨valueStack values, b, []⟩).map fun r =>
    (r.2.data, stem configPath)

/-! ## What there is to do -/

/-- The string under a key, if there is one. -/
def fieldOr (t : ℕ) (key : Value ν) (default : Str) : Str :=
  (((A.table t).get key).toLString A.toApi).elim default cStr

/-- The call that an entry asks for. -/
def entryCall (basePath resourcePath : Str) : Value ν → Option AddEntryCall
  | .table t => some ⟨basePath, resourcePath, fieldOr A t (.number A.one) (Str.ascii "."),
      ((A.table t).get (.string (Str.ascii "recursive"))).toBoolean⟩
  | v => (v.toLString A.toApi).map fun s => ⟨basePath, resourcePath, cStr s, false⟩

/-- The calls that an element asks for, one for each of its entries; `none` is an entry that asks
for none. -/
def elementCalls (element entries : ℕ) : List (Option AddEntryCall) :=
  (A.table entries).pairs.map fun p =>
    entryCall A (fieldOr A element (.string (Str.ascii "base_path")) (Str.ascii ":/"))
      (fieldOr A element (.string (Str.ascii "resource_path")) (Str.ascii ".")) p.2

end RCBuilder

/-- A step of the parser: a call, the exception for data of another shape, a traversal of an
`entries` that is no table, or an entry that is neither a table nor a string. -/
inductive ConfigStep
  | call (c : AddEntryCall)
  | unexpected
  | noTable
  | noString
  deriving DecidableEq

/-- The step for an entry, given the call that it asks for. -/
def ConfigStep.ofCall : Option AddEntryCall → ConfigStep
  | some c => .call c
  | none => .noString

namespace RCBuilder

variable (A : ConfigApi ν β) (S : ConfigSource ν)

/-- The steps for an element of the config. -/
def elementSteps : Value ν → List ConfigStep
  | .table element =>
    match (A.table element).get (.string (Str.ascii "entries")) with
    | .table entries => (elementCalls A element entries).map .ofCall
    | _ => [.noTable]
  | _ => [.unexpected]

/-- The steps for a config. -/
def plan (t : ℕ) : List ConfigStep := (A.table t).pairs.flatMap fun p => elementSteps A p.2

/-- Take the steps, up to the first that does not succeed. -/
def execute : List ConfigStep → ConfigData β → Except (Stop Exn) (ConfigData β)
  | [], d => .ok d
  | .call c :: steps, d =>
    match A.addEntry c d.builder with
    | (b, none) => execute steps ⟨b, d.calls ++ [c]⟩
    | (_, some e) => .error (.thrown e)
  | .unexpected :: _, _ => .error (.thrown unexpectedData)
  | .noTable :: _, _ => .error .nextOfNoTable
  | .noString :: _, _ => .error .nullString

/-- No traversal of a value that is no table, and no entry that is neither a table nor a string, is
come to: where a step throws, the steps behind it are not taken. -/
def Sound : List ConfigStep → β → Prop
  | [], _ => True
  | .call c :: steps, b =>
    match A.addEntry c b with
    | (b, none) => Sound steps b
    | (_, some _) => True
  | .unexpected :: _, _ => True
  | .noTable :: _, _ => False
  | .noString :: _, _ => False

/-- The calls that an element asks for, whatever it is. -/
def valueCalls : Value ν → List (Option AddEntryCall)
  | .table element =>
    match (A.table element).get (.string (Str.ascii "entries")) with
    | .table entries => elementCalls A element entries
    | _ => []
  | _ => []

/-- The calls that a config asks for, one for each value in the `entries` of each element. -/
def configCalls (t : ℕ) : List (Option AddEntryCall) :=
  (A.table t).pairs.flatMap fun p => valueCalls A p.2

/-- A round of the loop over the elements, up to the head of the loop over the entries. -/
def entriesBegin : ConfigProgram ν β (Str × Str) := do
  if (← next A.toApi) && (← valueAt 1).isTable then elementFields A
  else stop (.thrown unexpectedData)

/-- At the head of either loop, the key lies above the stack with which the loop was begun, on top
of which lies the table that it runs through. -/
def Balanced (fuel t : ℕ) (below : List (Value ν)) (s₀ : LuaStack.State ν (ConfigData β)) : Prop :=
  ∀ n s, Loop.Rounds (loopStep (configRound A fuel)) n s₀ s →
    (∃ key, s.stack = key :: .table t :: below) ∧
    ∀ basePath resourcePath s₁, entriesBegin A s = .ok ((basePath, resourcePath), s₁) →
      ∃ e below', s₁.stack = .nil :: .table e :: below' ∧
        ∀ m s₂, Loop.Rounds (loopStep (entryRound A basePath resourcePath)) m s₁ s₂ →
          ∃ key, s₂.stack = key :: .table e :: below'

omit [DecidableEq ν] in
/-- The config file is evaluated to its end, or not at all. -/
def Evaluates (configPath : Str) : Prop := readConfig S configPath ≠ .error .unfinished

/-- The parser is robust: if the config file is evaluated to its end, it throws, or it has made each
call that the config asks for, and every entry asks for one; and its loops are balanced. -/
def Robust (configPath : Str) (b : β) : Prop :=
  Evaluates S configPath → ∃ bound, ∀ fuel ≥ bound,
    ((∃ e, parseConfig A S fuel configPath b = .error (.thrown e)) ∨
      ∃ d values t, parseConfig A S fuel configPath b = .ok (d, stem configPath) ∧
        readConfig S configPath = .ok values ∧ values.getLast? = some (.table t) ∧
        d.calls.map some = configCalls A t) ∧
    ∀ values t, readConfig S configPath = .ok values → values.getLast? = some (.table t) →
      ∃ below, valueStack values = .table t :: below ∧
        Balanced A fuel t below ⟨.nil :: valueStack values, b, []⟩

end RCBuilder

end Jord.Rc
