import Jord.Io.Evolution

/-!
# The default streams of several VMs

Calls without a handle go through the singleton, while `io.input()` and `io.output()` return what
is in the registry of the VM. `isolated_iff` says that the two are the same, for every VM that is
open, as long as no VM is started while another one is open, and only so long: `Owning`, by which a
VM refers to its own handles only, is the invariant that makes it exact.
-/

namespace Jord.Io

open Program

variable {ν Os : Type} {C : Platform ν Os} {w w' : World ν Os} {l l' a : ℕ} {vm vm' : Vm ν}
  {V V' : View ν} {e : Event ν}

/-! ## What calls without a handle act on -/

/-- The adapters that calls without a handle act on are those in the registry of the VM, and are
alive. -/
structure OwnStreams (w : World ν Os) (vm : Vm ν) : Prop where
  input : ∃ a, LuaIOManager.stdInput w = .ok a w ∧ vm.registry.stdin = .handle a ∧ w.view.Alive a
  output : ∃ a, LuaIOManager.stdOutput w = .ok a w ∧ vm.registry.stdout = .handle a ∧
    w.view.Alive a

/-- Each open VM acts on its own default streams. -/
def Isolated (w : World ν Os) : Prop :=
  ∀ (l : ℕ) vm, w.view.vms[l]? = some vm → vm.isOpen → OwnStreams w vm

/-- No VM is open. -/
def NoneOpen (V : View ν) : Prop := ∀ l, ¬ IsOpen V l

/-- A call through a member of the singleton. -/
theorem pointer_iff {p : Option ℕ} : (match p with
    | some a => pure a
    | none => fault .nullAdapter : Eval ν Os ℕ) w = .ok a w ↔ p = some a := by
  cases p with
  | none => exact ⟨fun h => (by cases h), fun h => (by cases h)⟩
  | some b =>
    constructor
    · intro h
      cases h
      rfl
    · rintro ⟨⟩
      rfl

theorem stdInput_iff : LuaIOManager.stdInput w = .ok a w ↔ w.view.stdInput = some a := by
  rw [LuaIOManager.stdInput, bind_of_ok (get_apply w)]
  exact pointer_iff

theorem stdOutput_iff : LuaIOManager.stdOutput w = .ok a w ↔ w.view.stdOutput = some a := by
  rw [LuaIOManager.stdOutput, bind_of_ok (get_apply w)]
  exact pointer_iff

/-- In terms of the view. -/
theorem ownStreams_iff : OwnStreams w vm ↔
    ∀ d, ∃ a, w.view.default d = some a ∧ vm.default d = .handle a ∧ w.view.Alive a := by
  constructor
  · rintro ⟨⟨a, ha, hin, halive⟩, b, hb, hout, hblive⟩ (_ | _)
    · exact ⟨a, stdInput_iff.1 ha, hin, halive⟩
    · exact ⟨b, stdOutput_iff.1 hb, hout, hblive⟩
  · intro h
    obtain ⟨a, ha, hin, halive⟩ := h .input
    obtain ⟨b, hb, hout, hblive⟩ := h .output
    exact ⟨⟨a, stdInput_iff.2 ha, hin, halive⟩, b, stdOutput_iff.2 hb, hout, hblive⟩

/-! ## Owners -/

/-- The handle is in VM `l`, and alive. -/
def Owns (V : View ν) (l a : ℕ) : Prop :=
  ∃ x, V.adapters[a]? = some x ∧ x.owner = l ∧ x.destroyed = false

/-- Open VMs refer to their own handles only, and these are alive. -/
def Owning (V : View ν) : Prop :=
  ∀ (l : ℕ) vm, V.vms[l]? = some vm → vm.isOpen → ∀ a, vm.Reachable (.handle a) → Owns V l a

theorem Owns.unique (h : Owns V l a) (h' : Owns V l' a) : l = l' := by
  obtain ⟨x, hx, rfl, -⟩ := h
  obtain ⟨z, hz, rfl, -⟩ := h'
  cases hx.symm.trans hz
  rfl

theorem Owns.alive (h : Owns V l a) : V.Alive a := by
  obtain ⟨x, hx, -, hd⟩ := h
  exact ⟨x, hx, hd⟩

theorem Owning.default (h : Owning V) (hvm : V.vms[l]? = some vm) (hopen : vm.isOpen) {d : Default}
    (ha : vm.default d = .handle a) : Owns V l a :=
  h l vm hvm hopen a (.root (ha ▸ vm.default_root d))

/-- Only one VM can be open as long as each acts on its own streams. -/
theorem Isolated.unique (hiso : Isolated w) (h : Owning w.view) (hvm : w.view.vms[l]? = some vm)
    (hopen : vm.isOpen) (hvm' : w.view.vms[l']? = some vm') (hopen' : vm'.isOpen) : l = l' := by
  obtain ⟨a, ha, hdefault, -⟩ := ownStreams_iff.1 (hiso l vm hvm hopen) .input
  obtain ⟨b, hb, hdefault', -⟩ := ownStreams_iff.1 (hiso l' vm' hvm' hopen') .input
  cases ha.symm.trans hb
  exact (h.default hvm hopen hdefault).unique (h.default hvm' hopen' hdefault')

/-- What is added keeps the owners that there are. -/
theorem Owns.start (h : Owns V l a) : Owns V.start l a := by
  obtain ⟨x, hx, h⟩ := h
  exact ⟨x, List.getElem?_append_left (List.getElem?_eq_some_iff.1 hx).1 ▸ hx, h⟩

theorem Evolves.owns (h : Evolves l V V' vm vm') (ha : Owns V l' a) : Owns V' l' a := by
  obtain ⟨x, hx, rfl, hd⟩ := ha
  obtain ⟨x', hx', howner, hd', -⟩ := h.old a x hx
  exact ⟨x', hx', howner, hd'.trans hd⟩

theorem Destroyed.owns {as : List ℕ} (h : Destroyed V V' as) (ha : Owns V l a) (hmem : a ∉ as) :
    Owns V' l a := by
  obtain ⟨x, hx, ha⟩ := ha
  exact ⟨x, (h.others a hmem).trans hx, ha⟩

/-- The VMs after a start: the old ones, and the new one. -/
theorem View.start_vms (h : V.start.vms[l]? = some vm) :
    V.vms[l]? = some vm ∨ l = V.vms.length ∧ vm = .start V.adapters.length := by
  rw [View.start, List.getElem?_append] at h
  split at h
  · exact .inl h
  · next hl =>
    have hlt : l - V.vms.length < 1 := (List.getElem?_eq_some_iff.1 h).1
    exact .inr ⟨by omega, List.mem_singleton.1 (List.mem_of_getElem? h)⟩

theorem Owning.start (h : Owning V) : Owning V.start := by
  intro l vm hvm hopen a ha
  rcases View.start_vms hvm with hold | ⟨rfl, rfl⟩
  · exact (h l vm hold hopen a ha).start
  · exact View.start_adapter ha

theorem Evolves.owning (hev : Evolves l V V' vm vm') (h : Owning V) : Owning V' := by
  intro l' z hz hopen a ha
  by_cases hl : l' = l
  · subst hl
    cases hev.after.symm.trans hz
    rcases hev.grows.reachable_handle ha with hold | hnew | hnew
    · exact hev.owns (h l' vm hev.before (hev.isOpen ▸ hopen) a hold)
    · exact hnew.adapter
    · exact hnew.adapter
  · exact hev.owns (h l' z (hev.others l' hl ▸ hz) hopen a ha)

/-- Handles that an open VM refers to are not destroyed. -/
theorem Owning.of_destroyed {as : List ℕ} (h : Owning V) (hdestroyed : Destroyed V V' as)
    (hspares : ∀ (l : ℕ) vm, V.vms[l]? = some vm → vm.isOpen →
      ∀ a, vm.Reachable (.handle a) → a ∉ as) :
    Owning V' := by
  intro l vm hvm hopen a ha
  rw [hdestroyed.vms] at hvm
  exact hdestroyed.owns (h l vm hvm hopen a ha) (hspares l vm hvm hopen a ha)

/-! ## Steps -/

/-- The event is a call of `__gc` by a script. -/
def Event.callsGc : Event ν → Bool
  | .action _ (.gc _) => true
  | _ => false

/-- The start of a VM gives the singleton the handles of that VM. -/
theorem isolated_start (howning : Owning w.view) (hv : w'.view = w.view.start) :
    Isolated w' ↔ NoneOpen w.view := by
  constructor
  · rintro hiso l ⟨vm, hvm, hopen⟩
    have hvm' : w'.view.vms[l]? = some vm := by
      rw [hv, View.start, List.getElem?_append_left (List.getElem?_eq_some_iff.1 hvm).1, hvm]
    obtain ⟨a, ha, hdefault, -⟩ := ownStreams_iff.1 (hiso l vm hvm' hopen) .input
    obtain ⟨x, hx, -⟩ := howning.default hvm hopen hdefault
    rw [hv] at ha
    cases ha
    simp at hx
  · intro hnone l vm hvm hopen
    rw [hv] at hvm
    rcases View.start_vms hvm with hold | ⟨rfl, rfl⟩
    · exact absurd ⟨vm, hold, hopen⟩ (hnone l)
    · apply ownStreams_iff.2
      intro d
      obtain ⟨a, ha, hdefault⟩ := synced_start w.view d
      rw [hv]
      exact ⟨a, ha, hdefault,
        (keeps_start w.view).handle a (.root (hdefault ▸ Vm.default_root d))⟩

/-- What the collector finalises, no open VM refers to. -/
theorem Owning.spares (h : Owning V) (hc : Collectable V l a) (hvm : V.vms[l']? = some vm)
    (hopen : vm.isOpen) {b : ℕ} (hb : vm.Reachable (.handle b)) : b ∉ [a] := by
  rw [List.mem_singleton]
  rintro rfl
  obtain ⟨x, hx, howner, -⟩ := hc.adapter
  obtain ⟨z, hz, hzowner, -⟩ := h l' vm hvm hopen b hb
  cases hx.symm.trans hz
  cases howner.symm.trans hzowner
  exact hc.unreferenced vm hvm hb

/-- The actions of a script, calls of `__gc` left out. -/
theorem action_cases {act : Action ν} (hok : w.view.Ok) (hvm : w.view.vms[l]? = some vm)
    (hgc : (Event.action l act).callsGc = false) (hexec : exec C w (.action l act) = .ok w') :
    (∃ vm', Evolves l w.view w'.view vm vm') ∨
      ∃ a, act = .collect a ∧ Finalised w.view w'.view [a] := by
  by_cases hact : act.isDestroying = false
  · exact .inl (exec_evolves hok hvm hact hexec)
  cases act with
  | gc args => cases hgc
  | collect a => exact .inr ⟨a, rfl, exec_collect_ok hok hexec⟩
  | _ => exact absurd rfl hact

/-- An action of an open VM. -/
theorem isolated_action {act : Action ν} (hok : w.view.Ok) (howning : Owning w.view)
    (hiso : Isolated w) (hp : Possible w.view (.action l act)) (hvm : w.view.vms[l]? = some vm)
    (hopen : vm.isOpen) (hgc : (Event.action l act).callsGc = false)
    (hexec : exec C w (.action l act) = .ok w') : Isolated w' ∧ w'.view.Ok ∧ Owning w'.view := by
  rcases action_cases hok hvm hgc hexec with ⟨vm', hev⟩ | ⟨a, rfl, hfinal⟩
  · have howning' := hev.owning howning
    refine ⟨fun l' z hz hzopen => ?_, hev.ok, howning'⟩
    by_cases hl : l' = l
    · subst hl
      cases hev.after.symm.trans hz
      apply ownStreams_iff.2
      intro d
      rcases hev.default d with ⟨hV, hdefault⟩ | ⟨a, ha, hdefault⟩
      · obtain ⟨a, ha, hvma, halive⟩ := ownStreams_iff.1 (hiso l' vm hvm hopen) d
        exact ⟨a, hV.trans ha, hdefault.trans hvma, hev.alive halive⟩
      · exact ⟨a, ha, hdefault, (howning'.default hz hzopen hdefault).alive⟩
    · exact absurd (hiso.unique howning (hev.others l' hl ▸ hz) hzopen hvm hopen) hl
  · have hspares : ∀ (l' : ℕ) z, w.view.vms[l']? = some z → z.isOpen → ∀ b,
        z.Reachable (.handle b) → b ∉ [a] := fun l' z hz hzopen b hb =>
      howning.spares hp.2 hz hzopen hb
    refine ⟨fun l' z hz hzopen => ?_, hfinal.ok,
      howning.of_destroyed hfinal.toDestroyed hspares⟩
    rw [hfinal.vms] at hz
    apply ownStreams_iff.2
    intro d
    obtain ⟨b, hb, hdefault, halive⟩ := ownStreams_iff.1 (hiso l' z hz hzopen) d
    have hmem : b ∉ [a] := hspares l' z hz hzopen b (.root (hdefault ▸ z.default_root d))
    exact ⟨b, (hfinal.default d).trans hb, hdefault, hfinal.alive_of_notMem halive hmem⟩

/-- The end of an open VM. -/
theorem isolated_luaClose (hok : w.view.Ok) (howning : Owning w.view) (hiso : Isolated w)
    (hopen : IsOpen w.view l) (hexec : exec C w (.luaClose l) = .ok w') :
    Isolated w' ∧ w'.view.Ok ∧ Owning w'.view := by
  obtain ⟨vm, hvm, hvmopen⟩ := hopen
  rcases exec_luaClose (C := C) hok l with ⟨w₁, V, h₁, hfinal, hv⟩ | ⟨h₁, -⟩
  · cases hexec.symm.trans h₁
    -- a VM that is open afterwards is another one
    have hother : ∀ (l' : ℕ) z, w'.view.vms[l']? = some z → z.isOpen →
        l' ≠ l ∧ w.view.vms[l']? = some z := by
      intro l' z hz hzopen
      rw [hv] at hz
      by_cases hl : l' = l
      · subst hl
        rw [View.modifyVm_self (hfinal.vms ▸ hvm)] at hz
        cases hz
        cases hzopen
      · rw [View.modifyVm_of_ne hl, hfinal.vms] at hz
        exact ⟨hl, hz⟩
    refine ⟨fun l' z hz hzopen => ?_, hv ▸ hfinal.ok.congr rfl rfl, fun l' z hz hzopen b hb => ?_⟩
    · obtain ⟨hl, hz⟩ := hother l' z hz hzopen
      exact absurd (hiso.unique howning hz hzopen hvm hvmopen) hl
    · obtain ⟨hl, hz⟩ := hother l' z hz hzopen
      have howns := howning l' z hz hzopen b hb
      rw [hv]
      apply hfinal.owns howns
      intro hmem
      obtain ⟨x, hx, howner, -⟩ := mem_uncollected.1 hmem
      obtain ⟨y, hy, rfl, -⟩ := howns
      cases hx.symm.trans hy
      exact hl howner
  · cases hexec.symm.trans h₁

/-! ## Runs -/

/-- **One event.** -/
theorem step_isolated (hok : w.view.Ok) (howning : Owning w.view) (hiso : Isolated w)
    (hen : (machine C).enabled w e) (hgc : e.callsGc = false) :
    ((e = .startvm → NoneOpen w.view) ↔ True ∧ ∀ w', exec C w e = .ok w' → Isolated w') ∧
      ∀ w', exec C w e = .ok w' → w'.view.Ok ∧ Owning w'.view := by
  cases e with
  | startvm =>
    obtain ⟨w₁, h₁, hv⟩ := exec_startvm (C := C) hok
    have hiff := isolated_start howning hv
    refine ⟨Machine.exact_of_ok (M := machine C) (P := Isolated) (s := w) (e := .startvm) h₁
      trivial ⟨fun h => hiff.2 (h rfl), fun h _ => hiff.1 h⟩, fun w' hw' => ?_⟩
    cases h₁.symm.trans hw'
    exact ⟨hv ▸ hok.start, hv ▸ howning.start⟩
  | luaClose l =>
    have hclose : ∀ w', exec C w (.luaClose l) = .ok w' → _ := fun w' hexec =>
      isolated_luaClose hok howning hiso hen.1 hexec
    exact ⟨⟨fun _ => ⟨trivial, fun w' h => (hclose w' h).1⟩, fun _ h => by cases h⟩,
      fun w' h => (hclose w' h).2⟩
  | action l act =>
    obtain ⟨vm, hvm, hopen⟩ := Possible.isOpen hen.1
    have haction : ∀ w', exec C w (.action l act) = .ok w' → _ := fun w' hexec =>
      isolated_action hok howning hiso hen.1 hvm hopen hgc hexec
    exact ⟨⟨fun _ => ⟨trivial, fun w' h => (haction w' h).1⟩, fun _ h => by cases h⟩,
      fun w' h => (haction w' h).2⟩

/-- **Each VM acts on its own streams** exactly as long as none is started while another is open. -/
theorem isolated_iff {os : Os} {es : List (Event ν)}
    (hrun : (machine C).Along (fun w e => (machine C).enabled w e ∧ e.callsGc = false)
      (initial C os) es) :
    (machine C).Along (fun w e => e = .startvm → NoneOpen w.view) (initial C os) es ↔
      (machine C).Throughout Isolated (initial C os) es := by
  have howning : Owning (initial C os).view := fun l vm hvm => by cases hvm
  have hiso : Isolated (initial C os) := fun l vm hvm => by cases hvm
  have h := Machine.along_iff (M := machine C) (G := fun _ _ => True)
    (I := fun w : World ν Os => w.view.Ok ∧ Owning w.view)
    (fun w e w' hI hP hen hexec _ => (step_isolated hI.1 hI.2 hP hen.1 hen.2).2 w' hexec)
    (fun w e hI hP hen => (step_isolated hI.1 hI.2 hP hen.1 hen.2).1)
    ⟨initial_ok C os, howning⟩ hiso hrun
  exact h.trans (and_iff_right (Machine.along_true _ _))

end Jord.Io
