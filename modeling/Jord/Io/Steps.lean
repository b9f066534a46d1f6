import Jord.Io.Heap

/-!
# What an action does

`exec` of every action of a script, in terms of the view. `exec_tame` is about the actions that
close nothing; the others are `close`, calls of line iterators, and the destructor, called by hand
or by the collector.
-/

namespace Jord.Io

open Program

variable {ν Os : Type} {C : Platform ν Os} {F : Fault → Prop} {w w' : World ν Os} {l : ℕ}
  {vm : Vm ν}

/-! ## Primitives -/

theorem vmOf_apply (hvm : w.view.vms[l]? = some vm) : vmOf l w = .ok vm w := by
  have hvm' : w.vms[l]? = some vm := hvm
  rw [vmOf, bind_of_ok (get_apply w), hvm']
  rfl

theorem evalArgs_apply (hvm : w.view.vms[l]? = some vm) (args : List (Operand ν)) :
    evalArgs l args w = .ok (args.map (Operand.eval vm)) w := by
  rw [evalArgs, bind_of_ok (vmOf_apply hvm)]
  rfl

theorem keep_apply (l : ℕ) (vs : List (LuaValue ν)) (w : World ν Os) :
    ∃ w', keep l vs w = .ok ⟨⟩ w' ∧ w'.view = w.view.keep l vs :=
  ⟨_, rfl, rfl⟩

theorem modifyVm_apply (l : ℕ) (g : Vm ν → Vm ν) (w : World ν Os) :
    ∃ w', modifyVm l g w = .ok ⟨⟩ w' ∧ w'.view = w.view.modifyVm l g :=
  ⟨_, rfl, rfl⟩

theorem View.keep_nil (V : View ν) (l : ℕ) : V.keep l [] = V := by
  have : V.vms.modify l (fun vm => { vm with locals := vm.locals ++ [] }) = V.vms := by
    simp only [List.append_nil]
    exact List.modify_id ..
  rw [View.keep, View.modifyVm, this]

/-- Doing nothing is tame. -/
theorem tame_refl {V : View ν} (hvm : V.vms[l]? = some vm) : ∃ vm', Tame l V V vm vm' := by
  have h := tame_script hvm (g := fun vm => { vm with locals := vm.locals ++ [] })
    (fun _ _ _ => Vm.grows_keep (List.forall_mem_nil _)) rfl rfl
  change Tame l V (V.keep l []) vm _ at h
  rw [V.keep_nil] at h
  exact ⟨_, h⟩

/-- A Lua error leaves what the call has done. -/
theorem outcome_error {e : Exn} (he : ∀ f, e ≠ .fault f) :
    outcome (.error e w : EStateM.Result Exn (World ν Os) Unit) = .ok w := by
  cases e with
  | fault f => exact absurd rfl (he f)
  | luaError s => rfl
  | argError n s => rfl

/-! ## Actions that close nothing -/

/-- The action closes and destroys no handle. -/
def Action.isTame : Action ν → Bool
  | .call .close _ => false
  | .method .close _ => false
  | .iterate _ => false
  | .gc _ => false
  | .collect _ => false
  | _ => true

/-- The handles that a script can act on can be used. -/
structure VmServed (F : Fault → Prop) (V : View ν) (vm : Vm ν) : Prop where
  nonNull : F .nullAdapter ∨ ∀ d, (V.default d).isSome
  default : ∀ d a, V.default d = some a → Ready F V a
  accessible : ∀ a, vm.Accessible (.handle a) → Ready F V a

theorem accessible_arg {args : List (Operand ν)} {a : ℕ}
    (h : .handle a ∈ args.map (Operand.eval vm)) : vm.Accessible (.handle a) := by
  obtain ⟨o, -, ho⟩ := List.mem_map.1 h
  rcases Vm.known_eval (N := fun _ => False) o with hacc | hfresh
  · exact ho ▸ hacc
  · rw [ho] at hfresh
    cases hfresh with
    | plain h => cases h
    | handle h => exact h.elim

theorem VmServed.served (h : VmServed F w.view vm) (args : List (Operand ν)) :
    Served F w.view (args.map (Operand.eval vm)) :=
  ⟨h.nonNull, h.default, fun a ha => h.accessible a (accessible_arg ha)⟩

/-- A call with one of the effects, the results of which are kept. -/
theorem outcome_of_does {args : List (Operand ν)} {m : Eval ν Os (List (LuaValue ν))}
    (hvm : w.view.vms[l]? = some vm) (h : Does F l (args.map (Operand.eval vm)) w.view m) :
    (∃ w' vm', outcome ((m >>= keep l) w) = .ok w' ∧ Tame l w.view w'.view vm vm') ∨
      ∃ f, outcome ((m >>= keep l) w) = .error f ∧ F f := by
  have hshows := h w rfl
  have hargs : ∀ v ∈ args.map (Operand.eval vm), ∃ o, v = Operand.eval vm o := fun v hv => by
    obtain ⟨o, -, rfl⟩ := List.mem_map.1 hv
    exact ⟨o, rfl⟩
  cases hr : m w with
  | ok rs w₁ =>
    rw [hr] at hshows
    obtain ⟨w₂, h₂, hv₂⟩ := keep_apply l rs w₁
    obtain ⟨vm', htame⟩ := tame_effect hvm hargs hshows
    refine .inl ⟨w₂, vm', ?_, hv₂ ▸ htame⟩
    rw [bind_of_ok hr, h₂]
    rfl
  | error e w₁ =>
    rw [hr] at hshows
    by_cases he : ∃ f, e = .fault f
    · obtain ⟨f, rfl⟩ := he
      exact .inr ⟨f, by rw [bind_of_error hr]; rfl, hshows.2⟩
    · obtain ⟨vm', htame⟩ := tame_effect hvm hargs hshows.1
      rw [View.keep_nil] at htame
      refine .inl ⟨w₁, vm', ?_, htame⟩
      rw [bind_of_error hr, outcome_error fun f hf => he ⟨f, hf⟩]

/-- An action of the script on its own values. -/
theorem exec_script {act : Action ν} {g : Vm ν → Vm ν} (h : perform C l act w = modifyVm l g w)
    (hvm : w.view.vms[l]? = some vm) (hgrows : ∀ N H T, vm.Grows (g vm) N H T)
    (hopen : (g vm).isOpen = vm.isOpen) (hreg : (g vm).registry = vm.registry) :
    ∃ w' vm', exec C w (.action l act) = .ok w' ∧ Tame l w.view w'.view vm vm' := by
  obtain ⟨w', hw', hv⟩ := modifyVm_apply l g w
  exact ⟨w', g vm, by rw [exec, h, hw']; rfl, hv ▸ tame_script hvm hgrows hopen hreg⟩

/-- An error in an action of the script. -/
theorem exec_luaError {act : Action ν} {s : Str} (h : perform C l act w = .error (.luaError s) w)
    (hvm : w.view.vms[l]? = some vm) :
    ∃ w' vm', exec C w (.action l act) = .ok w' ∧ Tame l w.view w'.view vm vm' := by
  obtain ⟨vm', htame⟩ := tame_refl hvm
  exact ⟨w, vm', by rw [exec, h]; rfl, htame⟩

/-- **An action that closes nothing is tame**, or ends in one of the faults that it is allowed. -/
theorem exec_tame (hF : F .unfinished) (hE : F .exception) (hvm : w.view.vms[l]? = some vm)
    (hs : VmServed F w.view vm) {act : Action ν} (hact : act.isTame) :
    (∃ w' vm', exec C w (.action l act) = .ok w' ∧ Tame l w.view w'.view vm vm') ∨
      ∃ f, exec C w (.action l act) = .error f ∧ F f := by
  cases act with
  | call f args =>
    have hf : f ≠ .close := by
      rintro rfl
      cases hact
    have hdoes := LuaIOManager.call_does (C := C) hF hE (hs.served args) ⟨vm, hvm⟩ hf
    have := outcome_of_does hvm hdoes
    rwa [exec, perform, bind_of_ok (evalArgs_apply hvm args)]
  | method m args =>
    have hm : m ≠ .close := by
      rintro rfl
      cases hact
    have hdoes := LuaIOManager.thunk_does (C := C) (l := l) hF (hs.served args) hm
    have := outcome_of_does hvm hdoes
    rwa [exec, perform, bind_of_ok (evalArgs_apply hvm args)]
  | iterate f => cases hact
  | gc args => cases hact
  | collect a => cases hact
  | declare v =>
    exact .inl (exec_script (bind_of_ok (vmOf_apply hvm)) hvm
      (fun _ _ _ => Vm.grows_keep (List.forall_mem_singleton.2 (Vm.known_eval v))) rfl rfl)
  | assign i v =>
    exact .inl (exec_script (bind_of_ok (vmOf_apply hvm)) hvm
      (fun _ _ _ => Vm.grows_assign i v) rfl rfl)
  | newTable => exact .inl (exec_script rfl hvm (fun _ _ _ => Vm.grows_newTable) rfl rfl)
  | getField t k =>
    have hperform : perform C l (.getField t k) w = _ := bind_of_ok (vmOf_apply hvm)
    cases ht : t.eval vm with
    | table n =>
      rw [ht] at hperform
      exact .inl (exec_script hperform hvm (fun _ _ _ => Vm.grows_keep
        (List.forall_mem_singleton.2 (Vm.known_lookup (ht ▸ Vm.known_eval t) k))) rfl rfl)
    | _ =>
      rw [ht] at hperform
      exact .inl (exec_luaError hperform hvm)
  | setField t k v =>
    have hperform : perform C l (.setField t k v) w = _ := bind_of_ok (vmOf_apply hvm)
    cases ht : t.eval vm with
    | table n =>
      rw [ht] at hperform
      exact .inl (exec_script hperform hvm (fun _ _ _ => Vm.grows_setField v) rfl rfl)
    | _ =>
      rw [ht] at hperform
      exact .inl (exec_luaError hperform hvm)

end Jord.Io
