import Jord.Io.Evolution

/-!
# Calls that a collection interrupts

`Thunk` takes the handle of a method off the Lua stack before it calls the member function, and
`GetFilePointer` does so for `io.close`. A handle that the script has passed, and keeps nowhere
else, is without references from then on, and what the call pushes may set the collector going.

* A `Frame` is a call that has begun: its arguments are on the stack, where they count as local
  variables, and the handle taken off is only known by its address.
* `interruptible` is a VM in which the collector may act while a call is in progress, before the
  call has used its handle for the last time. Where it acts among several uses makes no difference:
  the next use is one of a dead handle (`resume_dead`).

A call of `__gc` allocates nothing before the destructor, and `io.open`, which takes the handle of a
file that cannot be opened off the stack, nothing between that and its last use.
-/

namespace Jord.Io

open Program

variable {ν Os : Type} {C : Platform ν Os} {w w' : World ν Os} {l a : ℕ} {vm : Vm ν}
  {act : Action ν}

/-! ## Calls in progress -/

namespace Action

/-- A call of a function of the library, other than `__gc`. -/
def isCall : Action ν → Bool
  | .call _ _ => true
  | .method _ _ => true
  | .iterate _ => true
  | _ => false

/-- What is on the stack: the arguments, and the line iterator that is called. -/
def operands : Action ν → List (Operand ν)
  | .call _ args => args
  | .method _ args => args
  | .iterate f => [f]
  | _ => []

/-- The first argument is taken off the stack. -/
def removesFirst : Action ν → Bool
  | .call .close _ => true
  | .method _ _ => true
  | _ => false

/-- The local variables from `base` on, for the operands of a call. -/
def slots (base : ℕ) (args : List (Operand ν)) : List (Operand ν) :=
  (List.range args.length).map fun i => .slot (base + i)

/-- The call with its arguments in the local variables from `base` on. -/
def onSlots (base : ℕ) : Action ν → Action ν
  | .call f args => .call f (slots base args)
  | .method m args => .method m (slots base args)
  | .iterate _ => .iterate (.slot base)
  | act => act

/-- The handle that is taken off the stack. -/
def self (vm : Vm ν) (act : Action ν) : Option ℕ :=
  if act.removesFirst then LuaValue.asHandle (act.operands.map (Operand.eval vm)).head? else none

end Action

/-- A call that has begun: what is to be done, with the arguments in `size` local variables from
`base` on, and the handle that has been taken off the stack. -/
structure Frame (ν : Type) where
  call : Action ν
  base : ℕ
  size : ℕ
  self : Option ℕ

/-- The process with the local variables of a VM changed. -/
def World.setLocals (l : ℕ) (g : List (LuaValue ν) → List (LuaValue ν)) (w : World ν Os) :
    World ν Os :=
  { w with vms := w.vms.modify l fun vm => { vm with locals := g vm.locals } }

/-- What a call leaves on the stack: its operands, without the handle that is taken off. -/
def stackValues (vm : Vm ν) (call : Action ν) : List (LuaValue ν) :=
  let vs := call.operands.map (Operand.eval vm)
  if (call.self vm).isSome then .nil :: vs.tail else vs

/-- A call begins, and the local variables `temporaries` have been for its operands only. -/
def enter (l : ℕ) (call : Action ν) (temporaries : List ℕ) (w : World ν Os) :
    World ν Os × Option (Frame ν) :=
  match w.vms[l]? with
  | none => (w, none)
  | some vm =>
    (w.setLocals l fun locals =>
      locals.mapIdx (fun i v => if i ∈ temporaries then .nil else v) ++ stackValues vm call,
    some ⟨call.onSlots vm.locals.length, vm.locals.length, call.operands.length, call.self vm⟩)

/-- The call has its handle. -/
def Frame.restore (fr : Frame ν) (l : ℕ) (w : World ν Os) : World ν Os :=
  w.setLocals l fun locals => fr.self.elim locals fun a => locals.set fr.base (.handle a)

/-- The arguments are gone after the call; what it returns stays. -/
def Frame.clear (fr : Frame ν) (l : ℕ) (w : World ν Os) : World ν Os :=
  w.setLocals l fun locals => locals.take fr.base ++ locals.drop (fr.base + fr.size)

/-- The call is done. -/
def resume (C : Platform ν Os) (l : ℕ) (fr : Frame ν) (w : World ν Os) :
    Except Fault (World ν Os) :=
  (exec C (fr.restore l w) (.action l fr.call)).map (fr.clear l)

/-- What happens in a VM: an action in one go, the beginning of a call, or the rest of it. -/
inductive Turn (ν : Type)
  | act (act : Action ν)
  | enter (call : Action ν) (temporaries : List ℕ)
  | resume

/-- Only the collector acts while a call is in progress. -/
def interruptible (C : Platform ν Os) (l : ℕ) :
    Machine (World ν Os × Option (Frame ν)) (Turn ν) Fault where
  enabled s
    | .act act => (s.2 = none ∨ ∃ a, act = .collect a) ∧ (script C l).enabled s.1 act
    | .enter call _ => s.2 = none ∧ IsOpen s.1.view l ∧ call.isCall
    | .resume => ∃ fr, s.2 = some fr ∧ resume C l fr s.1 ≠ .error .unfinished
  step s
    | .act act => (exec C s.1 (.action l act)).map fun w => (w, s.2)
    | .enter call temporaries => .ok (enter l call temporaries s.1)
    | .resume => s.2.elim (.ok s) fun fr => (resume C l fr s.1).map fun w => (w, none)

/-! ## What a call finds -/

/-- The operands are found in the local variables from `base` on. -/
theorem Action.slots_eval {base : ℕ} {args : List (Operand ν)} {locals vs : List (LuaValue ν)}
    (hbase : locals.length = base) (hvm : vm.locals = locals ++ vs)
    (hlength : vs.length = args.length) :
    (slots base args).map (Operand.eval vm) = vs := by
  refine List.ext_getElem (by simp [slots, hlength]) fun i hi hi' => ?_
  simp [slots, Operand.eval, hvm, ← hbase, hi']

theorem World.setLocals_vm {g : List (LuaValue ν) → List (LuaValue ν)}
    (hvm : w.view.vms[l]? = some vm) :
    (w.setLocals l g).view.vms[l]? = some { vm with locals := g vm.locals } :=
  View.modifyVm_self hvm

/-- The handle of the call, and the rest of its arguments. -/
theorem Action.self_eq_some {call : Action ν} (h : call.self vm = some a) :
    call.removesFirst ∧ ∃ vs, call.operands.map (Operand.eval vm) = .handle a :: vs := by
  unfold self at h
  split at h
  · next hremoves =>
    refine ⟨hremoves, ?_⟩
    cases hvs : call.operands.map (Operand.eval vm) with
    | nil =>
      rw [hvs] at h
      cases h
    | cons v vs =>
      rw [hvs] at h
      obtain rfl := Option.some.inj (LuaValue.eq_of_asHandle h)
      exact ⟨vs, rfl⟩
  · cases h

theorem Action.onSlots_removesFirst {call : Action ν} (h : call.removesFirst) (base : ℕ) :
    (call.onSlots base).removesFirst ∧
      (call.onSlots base).operands = slots base call.operands := by
  cases call with
  | call g args =>
    cases g with
    | close => exact ⟨rfl, rfl⟩
    | _ => cases h
  | method => exact ⟨rfl, rfl⟩
  | _ => cases h

/-- A call on a handle that is dead uses it. -/
theorem exec_dead {call : Action ν} {vs : List (LuaValue ν)} (hvm : w.view.vms[l]? = some vm)
    (hremoves : call.removesFirst) (hvs : call.operands.map (Operand.eval vm) = .handle a :: vs)
    (hdead : ¬ w.view.Alive a) : exec C w (.action l call) = .error .destroyedAdapter := by
  have hhandle := LuaFileAdapter.handle_dead hdead
  cases call with
  | call g args =>
    cases g with
    | close =>
      have hargs : args.map (Operand.eval vm) = .handle a :: vs := hvs
      rw [exec, perform, bind_of_ok (evalArgs_apply hvm args), hargs]
      exact congrArg outcome (bind_of_error (bind_of_error hhandle))
    | _ => cases hremoves
  | method m args =>
    have hargs : args.map (Operand.eval vm) = .handle a :: vs := hvs
    rw [exec, perform, bind_of_ok (evalArgs_apply hvm args), hargs]
    cases m <;> exact congrArg outcome (bind_of_error (bind_of_error hhandle))
  | _ => cases hremoves

/-- A call that finds its handle dead when it goes on uses it. -/
theorem resume_dead {call : Action ν} {temporaries : List ℕ} {fr : Frame ν}
    (hvm : w.view.vms[l]? = some vm) (hself : call.self vm = some a)
    (henter : (enter l call temporaries w).2 = some fr)
    (hvms : w'.view.vms[l]? = (enter l call temporaries w).1.view.vms[l]?)
    (hdead : ¬ w'.view.Alive a) : resume C l fr w' = .error .destroyedAdapter := by
  have hvm' : w.vms[l]? = some vm := hvm
  obtain ⟨hremoves, vs, hvs⟩ := Action.self_eq_some hself
  obtain ⟨hremoves', hoperands⟩ := Action.onSlots_removesFirst hremoves vm.locals.length
  have hstack : stackValues vm call = .nil :: vs := by
    rw [stackValues, hself, hvs]
    rfl
  unfold enter at henter hvms
  rw [hvm'] at henter hvms
  obtain rfl := Option.some.inj henter
  rw [World.setLocals_vm hvm, hstack] at hvms
  -- the handle is back in its place
  set locals := vm.locals.mapIdx fun i v => if i ∈ temporaries then LuaValue.nil else v with hl
  have hlength : locals.length = vm.locals.length := by rw [hl, List.length_mapIdx]
  have hrestored := World.setLocals_vm hvms
    (g := fun ls => ls.set vm.locals.length (.handle a))
  have hset : (locals ++ .nil :: vs).set vm.locals.length (.handle a) =
      locals ++ .handle a :: vs := by
    rw [← hlength, List.set_append_right _ _ (Nat.le_refl _), Nat.sub_self, List.set_cons_zero]
  rw [resume, Frame.restore, hself]
  refine congrArg (Except.map _) (exec_dead hrestored hremoves' (?_ : _ = .handle a :: vs) hdead)
  rw [hoperands]
  refine Action.slots_eval hlength hset ?_
  rw [← hvs, List.length_map]

end Jord.Io
