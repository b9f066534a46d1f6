import Jord.Foundations.Machine
import Jord.Foundations.Reach
import Jord.Io.IOManager

/-!
# Runs of the process

What can happen: a VM is started or closed, the script of an open VM does something, or its
collector finalises a handle. Values that a call returns stay in local variables; the script moves
values between local variables and tables, and drops them, as it likes.

* `Vm.Reachable` and `Vm.Accessible` are what the collector keeps and what the script can get hold
  of: the upvalues of a line iterator are kept, but the script has no access to them.
* `exec` is one event, `machine` the machine of all runs and `script` that of one VM. A Lua error
  leaves the state that the call has reached; the script may catch it.
-/

namespace Jord.Io

variable {ν Os : Type} (C : Platform ν Os)

/-! ## References -/

namespace Vm

/-- The references that the VM itself holds. -/
def Root (vm : Vm ν) (v : LuaValue ν) : Prop :=
  v ∈ vm.locals ∨ v = vm.registry.stdin ∨ v = vm.registry.stdout ∨ v = vm.registry.stderr

instance [DecidableEq ν] (vm : Vm ν) (v : LuaValue ν) : Decidable (vm.Root v) :=
  inferInstanceAs (Decidable (_ ∨ _ ∨ _ ∨ _))

/-- A table refers to its fields. -/
inductive Field (vm : Vm ν) : LuaValue ν → LuaValue ν → Prop
  | mk {t : ℕ} {fields : Fields ν} {k : Str} {v : LuaValue ν} (ht : vm.tables[t]? = some fields)
      (hk : (k, v) ∈ fields) : Field vm (.table t) v

/-- A table refers to its fields, and a line iterator to its upvalue unless that is only an
address. -/
inductive Ref (vm : Vm ν) : LuaValue ν → LuaValue ν → Prop
  | field {x y : LuaValue ν} (h : vm.Field x y) : Ref vm x y
  | upvalue {i : ℕ} {it : Iterator ν} {v : LuaValue ν} (hi : vm.iterators[i]? = some it)
      (hv : it.upvalue = .full v) : Ref vm (.iterator i) v

/-- What the collector keeps. -/
def Reachable (vm : Vm ν) : LuaValue ν → Prop := Reach vm.Root vm.Ref

/-- What the script can get hold of. -/
def Accessible (vm : Vm ν) : LuaValue ν → Prop := Reach vm.Root vm.Field

end Vm

/-! ## Events -/

/-- What a script passes: a local variable, or a value that is no object of the library. -/
inductive Operand (ν : Type)
  | slot (i : ℕ)
  | constant (v : LuaValue ν) (h : v.isPlain)

/-- A string. -/
def Operand.string (s : Str) : Operand ν := .constant (.string s) rfl

/-- The value of an operand. -/
def Operand.eval (vm : Vm ν) : Operand ν → LuaValue ν
  | slot i => vm.locals[i]?.getD .nil
  | constant v _ => v

/-- What the script of a VM does, and its collector. -/
inductive Action (ν : Type)
  /-- A call of a function in the table `io`. -/
  | call (f : IoFunction) (args : List (Operand ν))
  /-- A call of a method. -/
  | method (m : Method) (args : List (Operand ν))
  /-- A call of a line iterator. -/
  | iterate (f : Operand ν)
  /-- A call of the metamethod `__gc`. -/
  | gc (args : List (Operand ν))
  /-- A new local variable. -/
  | declare (v : Operand ν)
  | assign (i : ℕ) (v : Operand ν)
  | newTable
  | getField (t : Operand ν) (k : Str)
  | setField (t : Operand ν) (k : Str) (v : Operand ν)
  /-- The collector finalises a handle. -/
  | collect (a : ℕ)

/-- What happens in the process. -/
inductive Event (ν : Type)
  | startvm
  | luaClose (l : ℕ)
  | action (l : ℕ) (act : Action ν)

/-! ## Steps -/

/-- The VM that an action is about. -/
def vmOf (l : ℕ) : Eval ν Os (Vm ν) :=
  return (← get).vms[l]?.getD (Vm.mk false [] [] [] ⟨.nil, .nil, .nil⟩)

/-- Keep values in new local variables. -/
def keep (l : ℕ) (vs : List (LuaValue ν)) : Eval ν Os Unit :=
  modifyVm l fun vm => { vm with locals := vm.locals ++ vs }

/-- The arguments of a call. -/
def evalArgs (l : ℕ) (args : List (Operand ν)) : Eval ν Os (List (LuaValue ν)) :=
  return args.map (Operand.eval (← vmOf l))

/-- A call of a value that is no function. -/
def attemptToCall {α : Type} : Eval ν Os α := luaError (Str.ascii "attempt to call a value")

/-- An access to a value that is no table. -/
def attemptToIndex {α : Type} : Eval ν Os α := luaError (Str.ascii "attempt to index a value")

/-- A table with a field set. -/
def setKey (fields : Fields ν) (k : Str) (v : LuaValue ν) : Fields ν :=
  (k, v) :: fields.filter (·.1 ≠ k)

/-- What an action does. -/
def perform (l : ℕ) : Action ν → Eval ν Os Unit
  | .call f args => do keep l (← LuaIOManager.call C l (← evalArgs l args) f)
  | .method m args => do keep l (← LuaIOManager.thunk C l (← evalArgs l args) m)
  | .iterate f => do
    let vm ← vmOf l
    match f.eval vm with
    | .iterator i =>
      match vm.iterators[i]? with
      | some it => keep l (← LuaFileAdapter.linesIterator C it)
      | none => attemptToCall
    | _ => attemptToCall
  | .gc args => do LuaIOManager.gc C (← evalArgs l args)
  | .declare v => do keep l [v.eval (← vmOf l)]
  | .assign i v => do
    let vm ← vmOf l
    modifyVm l fun vm' => { vm' with locals := vm'.locals.set i (v.eval vm) }
  | .newTable => modifyVm l fun vm => { vm with
      locals := vm.locals ++ [.table vm.tables.length]
      tables := vm.tables ++ [[]] }
  | .getField t k => do
    let vm ← vmOf l
    match t.eval vm with
    | .table t => keep l [((vm.tables[t]?.getD []).lookup k).getD .nil]
    | _ => attemptToIndex
  | .setField t k v => do
    let vm ← vmOf l
    match t.eval vm with
    | .table t =>
      modifyVm l fun vm' => { vm' with
        tables := vm'.tables.modify t fun fields => setKey fields k (v.eval vm) }
    | _ => attemptToIndex
  | .collect a => LuaIOManager.finalise C a

/-- The state after a call: a Lua error is caught by the script. -/
def outcome : EStateM.Result Exn (World ν Os) Unit → Except Fault (World ν Os)
  | .ok _ w => .ok w
  | .error (.fault f) _ => .error f
  | .error _ w => .ok w

/-- What an event does. -/
def exec (w : World ν Os) : Event ν → Except Fault (World ν Os)
  | .startvm => outcome (LuaIOManager.startvm w)
  | .luaClose l => outcome (LuaIOManager.luaClose C l w)
  | .action l act => outcome (perform C l act w)

/-- The VM is open. -/
def IsOpen (V : View ν) (l : ℕ) : Prop := ∃ vm, V.vms[l]? = some vm ∧ vm.isOpen

/-- The collector of a VM can finalise a handle that it has not finalised and that nothing refers
to. -/
structure Collectable (V : View ν) (l a : ℕ) : Prop where
  adapter : ∃ x, V.adapters[a]? = some x ∧ x.owner = l ∧ x.collected = false
  unreferenced : ∀ vm, V.vms[l]? = some vm → ¬ vm.Reachable (.handle a)

/-- Only open VMs act, and the collector only finalises what it may. -/
def Possible (V : View ν) : Event ν → Prop
  | .startvm => True
  | .luaClose l => IsOpen V l
  | .action l (.collect a) => IsOpen V l ∧ Collectable V l a
  | .action l _ => IsOpen V l

theorem Possible.isOpen {V : View ν} {l : ℕ} {act : Action ν} (h : Possible V (.action l act)) :
    IsOpen V l := by
  cases act with
  | collect a => exact h.1
  | _ => exact h

/-- The process: an event can happen where it is possible and its loops come to an end. -/
def machine : Machine (World ν Os) (Event ν) Fault where
  enabled w e := Possible w.view e ∧ exec C w e ≠ .error .unfinished
  step := exec C

/-- One VM: its script and its collector act. -/
def script (l : ℕ) : Machine (World ν Os) (Action ν) Fault where
  enabled w act := (machine C).enabled w (.action l act)
  step w act := exec C w (.action l act)

/-- The process before the first VM: `LuaIOManager` has been constructed. -/
def initial (os : Os) : World ν Os :=
  ⟨os, LuaIOManager.stdFiles C, [], 0, none, none, none, []⟩

variable {C}

theorem machine_enabled {w w' : World ν Os} {e : Event ν} (h : Possible w.view e)
    (hexec : exec C w e = .ok w') : (machine C).enabled w e :=
  ⟨h, by simp [hexec]⟩

theorem machine_enabled_fault {w : World ν Os} {e : Event ν} {f : Fault} (h : Possible w.view e)
    (hexec : exec C w e = .error f) (hf : f ≠ .unfinished) : (machine C).enabled w e :=
  ⟨h, by simpa [hexec] using hf⟩

/-- The process with one VM, on the null device. -/
def oneVm : World ℤ ℕ := (machine nullDevice).next (initial nullDevice 0) .startvm

end Jord.Io
