import Jord.Io.Aftermath
import Jord.Io.Isolation

/-!
# What VMs do to each other

What the calls of a VM read, write and return depends on the handles that it refers to, on the
members of the singleton, and on the streams of the files behind them. `Undisturbed` says that
`io.input`, `io.output` and `lua_close` on one VM change none of these for another, nor the streams
of the standard files for a VM that is started later.

`isolation_iff` is about both: each open VM acts on its own default streams, and none disturbs
another, exactly as long as no VM is started while another one is open, and a `lua_close` that a
start follows finds the standard files without streams already. `Backed` is the invariant by which
any other `lua_close` takes their streams.
-/

namespace Jord.Io

open Program

variable {ν Os α β : Type} {C : Platform ν Os} {w w' : World ν Os} {k l a f : ℕ} {vm : Vm ν}
  {V V' : View ν} {e : Event ν} {es : List (Event ν)}

/-! ## What the calls of a VM depend on -/

/-- The stream of a file. -/
def World.streamOf (w : World ν Os) (f : ℕ) : Option Stream := w.files[f]?.bind BoostFile.fileHandle

/-- The event is a call of `io.input` or `io.output` in VM `k`, or closes it. -/
inductive Interferes (k : ℕ) : Event ν → Prop
  | input (args : List (Operand ν)) : Interferes k (.action k (.call .input args))
  | output (args : List (Operand ν)) : Interferes k (.action k (.call .output args))
  | luaClose : Interferes k (.luaClose k)

/-- What VM `l` refers to, and what its calls without a handle act on, is the same in `w` and
`w'`. -/
structure Unaffected (w w' : World ν Os) (l : ℕ) (vm : Vm ν) : Prop where
  same : w'.view.vms[l]? = w.view.vms[l]?
  default : ∀ d, w'.view.default d = w.view.default d
  handle : ∀ a, (vm.Reachable (.handle a) ∨ ∃ d, w.view.default d = some a) →
    w'.view.adapters[a]? = w.view.adapters[a]?
  stream : ∀ a f, (vm.Reachable (.handle a) ∨ ∃ d, w.view.default d = some a) →
    w.view.Has a f → w'.streamOf f = w.streamOf f

/-- A VM is started in the run. -/
def Starts (C : Platform ν Os) (w : World ν Os) (es : List (Event ν)) : Prop :=
  ¬ (machine C).Along (fun _ e => e ≠ .startvm) w es

/-- `io.input`, `io.output` and `lua_close` on a VM leave alone what the other open VMs depend on,
and the standard files of the VMs that are started later. -/
def Undisturbed (C : Platform ν Os) (w : World ν Os) (e : Event ν) (w' : World ν Os)
    (es : List (Event ν)) : Prop :=
  ∀ k, Interferes k e →
    (∀ l vm, l ≠ k → w.view.vms[l]? = some vm → vm.isOpen → Unaffected w w' l vm) ∧
      (Starts C w' es → ∀ f < 3, w'.streamOf f = w.streamOf f)

/-- A `lua_close` that a start follows finds the standard files without streams. -/
def ClosesLast (C : Platform ν Os) (w : World ν Os) (e : Event ν) (w' : World ν Os)
    (es : List (Event ν)) : Prop :=
  ∀ k, e = .luaClose k → Starts C w' es → ∀ f < 3, w.streamOf f = none

/-! ## Streams and views -/

theorem streamOf_isSome {y : FileView} (hy : w.view.files[f]? = some y) :
    (w.streamOf f).isSome = y.isOpen := by
  obtain ⟨x, hx, rfl⟩ := exists_file hy
  rw [World.streamOf, hx]
  rfl

theorem streamOf_eq_none {y : FileView} (hy : w.view.files[f]? = some y) :
    w.streamOf f = none ↔ y.isOpen = false := by
  rw [← streamOf_isSome hy, Option.isSome_eq_false_iff, Option.isNone_iff_eq_none]

/-! ## Calls that open a default stream -/

/-- The program leaves the first `n` files as they are. -/
abbrev KeepsFiles (n : ℕ) (files : List BoostFile) (m : Eval ν Os α) : Prop :=
  Program.Calm (fun w : World ν Os => w.files.take n) (fun _ => True) files m fun _ => True

namespace KeepsFiles

variable {n : ℕ} {files : List BoostFile} {m : Eval ν Os α} {g : α → Eval ν Os β}

theorem bind (hm : KeepsFiles n files m) (hg : ∀ a, KeepsFiles n files (g a)) :
    KeepsFiles n files (m >>= g) :=
  Program.Calm.bind hm fun a _ => hg a

theorem pure (a : α) : KeepsFiles n files (pure a : Eval ν Os α) := Program.Calm.pure trivial

theorem throw (e : Exn) : KeepsFiles n files (throw e : Eval ν Os α) := Program.Calm.throw trivial

theorem get : KeepsFiles n files (get : Eval ν Os (World ν Os)) :=
  Program.Calm.of_ok fun w _ => ⟨w, w, rfl, rfl, trivial⟩

theorem modify {g : World ν Os → World ν Os} (hg : ∀ w, (g w).files = w.files) :
    KeepsFiles n files (modify g : Eval ν Os Unit) :=
  Program.Calm.of_ok fun w _ => ⟨⟨⟩, g w, rfl, congrArg (List.take n) (hg w), trivial⟩

/-- A file that is opened is new. -/
theorem getOpenFile (filename mode : Str) (hn : files.length = n) :
    KeepsFiles n files (LuaIOManager.getOpenFile C filename mode : Eval ν Os ℕ) := by
  intro w hw
  have hle : n ≤ w.files.length := by
    rw [← hn, ← hw, List.length_take]
    exact Nat.min_le_right _ _
  have happend : ∀ x, (w.files ++ [x]).take n = files := fun x => by
    rw [List.take_append_of_le_length hle]
    exact hw
  cases hs : (C.fopen filename mode w.os).1 with
  | none =>
    obtain ⟨message, x, -, hrun⟩ := LuaIOManager.getOpenFile_error (C := C) hs
    rw [hrun]
    exact ⟨happend x, trivial⟩
  | some s =>
    obtain ⟨x, hx, hv, h₁⟩ := LuaBoostFile.construct_run (C := C) filename mode w
    have hd : x.deleted = false := congrArg FileView.deleted hv
    have hisOpen : LuaBoostFile.isOpen w.files.length
        (w.addFile (C.fopen filename mode w.os).2 x) = .ok x.fileHandle.isSome _ :=
      bind_of_ok (LuaBoostFile.object_apply (w.addFile_files _ x) hd)
    rw [LuaIOManager.getOpenFile, bind_of_ok h₁, bind_of_ok hisOpen, hx, hs]
    exact ⟨happend x, trivial⟩

theorem create (l f : ℕ) : KeepsFiles n files (LuaFileAdapter.create l f : Eval ν Os ℕ) := by
  refine bind ?_ fun x => bind ?_ fun _ => ?_
  · refine bind get fun w => ?_
    split
    · split
      · exact throw _
      · exact pure _
    · exact throw _
  · unfold onlyIf
    split
    · exact modify fun _ => rfl
    · exact pure _
  · exact Program.Calm.of_ok fun w _ => ⟨_, _, rfl, rfl, trivial⟩

theorem replace {l : ℕ} {mode : Str} {set : ℕ → Eval ν Os Unit} {args : List (LuaValue ν)}
    (hn : files.length = n) (hset : ∀ a, KeepsFiles n files (set a)) :
    KeepsFiles n files (LuaIOManager.replace C l mode set args) := by
  unfold LuaIOManager.replace
  split
  · exact pure _
  · refine bind ?_ hset
    unfold LuaIOManager.chooseAdapter
    split
    · exact bind (getOpenFile _ _ hn) fun _ => create _ _
    · unfold LuaIOManager.checkUdata
      split
      · exact pure _
      · exact throw _

end KeepsFiles

/-- `io.input` and `io.output` leave the files that there are alone. -/
theorem keepsFiles_perform {args : List (Operand ν)} {g : IoFunction} {n : ℕ}
    {files : List BoostFile} (hn : files.length = n) (hg : g = .input ∨ g = .output) :
    KeepsFiles n files (perform C k (.call g args)) := by
  refine .bind (.bind (.bind .get fun _ => .pure _) fun _ => .pure _) fun vs =>
    .bind ?_ fun _ => .modify fun _ => rfl
  have hregistry : KeepsFiles n files (LuaIOManager.registry k : Eval ν Os (Registry ν)) :=
    .bind .get fun _ => .pure _
  have hset : ∀ (h₁ : World ν Os → World ν Os) (h₂ : Vm ν → Vm ν),
      (∀ w, (h₁ w).files = w.files) → KeepsFiles n files
        ((do modify h₁; modifyVm k h₂) : Eval ν Os Unit) := fun h₁ h₂ hfiles =>
    .bind (.modify hfiles) fun _ => .modify fun _ => rfl
  rcases hg with rfl | rfl
  · exact .bind (.replace hn fun a => hset _ _ fun _ => rfl) fun _ =>
      .bind hregistry fun _ => .pure _
  · exact .bind (.replace hn fun a => hset _ _ fun _ => rfl) fun _ =>
      .bind hregistry fun _ => .pure _

theorem streamOf_of_call {args : List (Operand ν)} {g : IoFunction} (hg : g = .input ∨ g = .output)
    (hexec : exec C w (.action k (.call g args)) = .ok w') (hf : f < w.files.length) :
    w'.streamOf f = w.streamOf f := by
  have htake : w'.files.take w.files.length = w.files := by
    have hkeeps : KeepsFiles w.files.length w.files (perform C k (.call g args)) :=
      keepsFiles_perform rfl hg
    have h := hkeeps w List.take_length
    rw [exec] at hexec
    cases hr : perform C k (.call g args) w with
    | ok r w₁ =>
      rw [hr] at h hexec
      cases hexec
      exact h.1
    | error x w₁ =>
      rw [hr] at h hexec
      cases x with
      | fault => cases hexec
      | luaError =>
        cases hexec
        exact h.1
      | argError =>
        cases hexec
        exact h.1
  rw [World.streamOf, World.streamOf, ← List.getElem?_take_of_lt hf, htake]

/-! ## Standard files -/

/-- The handle has the standard file, and the collector of VM `l` has not finalised it. -/
def Backs (V : View ν) (l f a : ℕ) : Prop :=
  V.Has a f ∧ ∃ x, V.adapters[a]? = some x ∧ x.owner = l ∧ x.collected = false

/-- As long as a standard file has a stream, each open VM has a handle of it. -/
def Backed (V : View ν) : Prop :=
  ∀ f < 3, ∀ y, V.files[f]? = some y → y.isOpen = true → ∀ l, IsOpen V l → ∃ a, Backs V l f a

theorem Backs.mem_uncollected (h : Backs w.view l f a) : a ∈ LuaIOManager.uncollected w l :=
  Jord.Io.mem_uncollected.2 h.2

theorem Backs.start (h : Backs V l f a) : Backs V.start l f a := by
  obtain ⟨⟨x, hx, hhas⟩, z, hz, h⟩ := h
  have hold : V.start.adapters[a]? = V.adapters[a]? :=
    List.getElem?_append_left (List.getElem?_eq_some_iff.1 hx).1
  exact ⟨⟨x, hold.trans hx, hhas⟩, z, hold.trans hz, h⟩

theorem backs_start (V : View ν) (hf : f < 3) :
    Backs V.start V.vms.length f (V.adapters.length + f) := by
  have hnew : V.start.adapters[V.adapters.length + f]? =
      some ⟨V.vms.length, some f, false, false⟩ := by
    rw [View.start, List.getElem?_append_right (Nat.le_add_right _ _), Nat.add_sub_cancel_left]
    obtain rfl | rfl | rfl : f = 0 ∨ f = 1 ∨ f = 2 := by omega
    all_goals rfl
  exact ⟨⟨_, hnew, rfl, rfl⟩, _, hnew, rfl, rfl⟩

theorem Backed.start (h : Backed V) : Backed V.start := by
  rintro f hf y hy hopen l ⟨vm, hvm, hvmopen⟩
  rcases View.start_vms hvm with hold | ⟨rfl, -⟩
  · obtain ⟨a, ha⟩ := h f hf y hy hopen l ⟨vm, hold, hvmopen⟩
    exact ⟨a, ha.start⟩
  · exact ⟨_, backs_start V hf⟩

/-- A `lua_close` takes the streams of the standard files. -/
theorem Backed.luaClose (h : Backed w.view) (hok : w.view.Ok) (hopen : IsOpen w.view l)
    (hexec : exec C w (.luaClose l) = .ok w') (hf : f < 3) : w'.streamOf f = none := by
  obtain ⟨y, hy, -, -, hlive⟩ := hok.std f hf
  have hp : Possible w.view (.luaClose l : Event ν) := hopen
  obtain ⟨y', hy', hiff⟩ := exec_file hok hp hexec hy
  rw [streamOf_eq_none hy', Bool.eq_false_iff]
  intro hopen'
  obtain ⟨hyopen, hspares⟩ := hiff.1 hopen'
  obtain ⟨a, ha⟩ := h f hf y hy hyopen l hopen
  obtain ⟨z, hz, rfl⟩ := exists_file hy
  rcases exec_luaClose (C := C) hok l with ⟨w₁, V, h₁, hfinal, -⟩ | ⟨h₁, -⟩
  · exact hspares a z (.luaClose hfinal.alive ha.mem_uncollected ⟨ha.1, hz, hlive⟩)
  · cases hexec.symm.trans h₁

/-- A handle that has the file as before still backs it, unless it has been finalised. -/
theorem Backs.of_action {act : Action ν} (h : Backs w.view l f a) (hok : w.view.Ok)
    (hp : Possible w.view (.action k act)) (hgc : (Event.action k act).callsGc = false)
    (hexec : exec C w (.action k act) = .ok w')
    (hends : ∀ b y, ¬ Ends C w (.action k act) b f y) : Backs w'.view l f a := by
  obtain ⟨hhas, x, hx, howner, hcollected⟩ := h
  obtain ⟨vm, hvm, -⟩ := Possible.isOpen hp
  have hhas' : w'.view.Has a f :=
    (exec_keeps hok hp hexec hhas).resolve_right fun ⟨y, hy⟩ => hends a y hy
  refine ⟨hhas', ?_⟩
  rcases action_cases hok hvm hgc hexec with ⟨vm', hev⟩ | ⟨b, rfl, hfinal⟩
  · obtain ⟨x', hx', howner', -, hcollected'⟩ := hev.old a x hx
    exact ⟨x', hx', howner'.trans howner, hcollected'.trans hcollected⟩
  · by_cases hab : a = b
    · subst hab
      obtain ⟨z, hz, hd, -⟩ := hhas'
      exact absurd ⟨z, hz, hd⟩ (hfinal.dead a (List.mem_singleton_self a))
    · exact ⟨x, (hfinal.others a (by simpa using hab)).trans hx, howner, hcollected⟩

theorem step_backed (hok : w.view.Ok) (h : Backed w.view) (hp : Possible w.view e)
    (hgc : e.callsGc = false) (hexec : exec C w e = .ok w') : Backed w'.view := by
  cases e with
  | startvm =>
    obtain ⟨w₁, h₁, hv⟩ := exec_startvm (C := C) hok
    cases h₁.symm.trans hexec
    exact hv ▸ h.start
  | luaClose k =>
    intro f hf y hy hopen
    have hnone := h.luaClose hok hp hexec hf
    rw [streamOf_eq_none hy, hopen] at hnone
    cases hnone
  | action k act =>
    intro f hf y' hy' hopen' l hl
    obtain ⟨y, hy, -⟩ := hok.std f hf
    obtain ⟨z, hz, hiff⟩ := exec_file hok hp hexec hy
    cases hy'.symm.trans hz
    obtain ⟨hopen, hspares⟩ := hiff.1 hopen'
    have hlopen : IsOpen w.view l := by
      obtain ⟨vm, hvm, -⟩ := Possible.isOpen hp
      obtain ⟨vm', hvm', hvmopen⟩ := hl
      rcases action_cases hok hvm hgc hexec with ⟨vm'', hev⟩ | ⟨b, rfl, hfinal⟩
      · by_cases hlk : l = k
        · subst hlk
          cases hvm'.symm.trans hev.after
          exact ⟨vm, hvm, hev.isOpen ▸ hvmopen⟩
        · exact ⟨vm', hev.others l hlk ▸ hvm', hvmopen⟩
      · exact ⟨vm', hfinal.vms ▸ hvm', hvmopen⟩
    obtain ⟨a, ha⟩ := h f hf y hy hopen l hlopen
    exact ⟨a, ha.of_action hok hp hgc hexec hspares⟩

/-! ## Steps -/

/-- What is known of the states of a run in which each VM acts on its own streams. -/
structure Orderly (w : World ν Os) : Prop where
  ok : w.view.Ok
  owning : Owning w.view
  isolated : Isolated w
  backed : Backed w.view

/-- **One event**: only a `lua_close` can disturb a VM, and only one that is started later. -/
theorem undisturbed_iff (h : Orderly w) (hp : Possible w.view e)
    (hexec : exec C w e = .ok w') : ClosesLast C w e w' es ↔ Undisturbed C w e w' es := by
  -- no other VM is open
  have halone : ∀ {k}, Interferes k e → ∀ (l : ℕ) vm, l ≠ k → w.view.vms[l]? = some vm →
      vm.isOpen → Unaffected w w' l vm := by
    intro k hk l vm hl hvm hopen
    have hkopen : IsOpen w.view k := by
      cases hk with
      | luaClose => exact hp
      | _ => exact Possible.isOpen hp
    obtain ⟨vm', hvm', hopen'⟩ := hkopen
    exact absurd (h.isolated.unique h.owning hvm hopen hvm' hopen') hl
  have hlength : ∀ f < 3, f < w.files.length := fun f hf => by
    obtain ⟨y, hy, -⟩ := h.ok.std f hf
    obtain ⟨z, hz, -⟩ := exists_file hy
    exact (List.getElem?_eq_some_iff.1 hz).1
  constructor
  · intro hcloses k hk
    refine ⟨halone hk, fun hstarts f hf => ?_⟩
    cases hk with
    | input args => exact streamOf_of_call (.inl rfl) hexec (hlength f hf)
    | output args => exact streamOf_of_call (.inr rfl) hexec (hlength f hf)
    | luaClose =>
      exact (h.backed.luaClose h.ok hp hexec hf).trans (hcloses k rfl hstarts f hf).symm
  · rintro hsame k rfl hstarts f hf
    rw [← (hsame k .luaClose).2 hstarts f hf]
    exact h.backed.luaClose h.ok hp hexec hf

/-! ## Runs -/

theorem orderly_throughout {os : Os}
    (hrun : (machine C).Along (fun w e => (machine C).enabled w e ∧ e.callsGc = false)
      (initial C os) es)
    (hstarts : (machine C).Along (fun w e => e = .startvm → NoneOpen w.view) (initial C os) es) :
    (machine C).Throughout Orderly (initial C os) es := by
  have hinitial : Orderly (initial C os) :=
    { ok := initial_ok C os
      owning := fun l vm hvm => by cases hvm
      isolated := fun l vm hvm => by cases hvm
      backed := fun f hf y hy hopen l ⟨vm, hvm, _⟩ => by cases hvm }
  refine Machine.throughout_of_invariant (fun w e w' h hR hexec => ?_) hinitial
    (hrun.and hstarts)
  obtain ⟨⟨hen, hgc⟩, hnone⟩ := hR
  obtain ⟨hiff, hnext⟩ := step_isolated h.ok h.owning h.isolated hen hgc
  obtain ⟨hok, howning⟩ := hnext w' hexec
  exact ⟨hok, howning, (hiff.1 hnone).2 w' hexec, step_backed h.ok h.backed hen.1 hgc hexec⟩

/-- A second VM is started while the first one is open. -/
def secondVm : List (Event ℤ) := [.startvm, .startvm]

/-- A second VM is started after the first one has been closed. -/
def laterVm : List (Event ℤ) := [.startvm, .luaClose 0, .startvm]

theorem enabled_secondVm : (machine nullDevice).Along
    (fun w e => (machine nullDevice).enabled w e ∧ e.callsGc = false) (initial nullDevice 0)
    secondVm := by
  refine .cons ⟨machine_enabled trivial rfl, rfl⟩ rfl ?_
  exact .cons ⟨machine_enabled trivial rfl, rfl⟩ rfl trivial

theorem enabled_laterVm : (machine nullDevice).Along
    (fun w e => (machine nullDevice).enabled w e ∧ e.callsGc = false) (initial nullDevice 0)
    laterVm := by
  refine .cons ⟨machine_enabled trivial rfl, rfl⟩ rfl ?_
  refine .cons ⟨machine_enabled ⟨_, rfl, rfl⟩ rfl, rfl⟩ rfl ?_
  exact .cons ⟨machine_enabled trivial rfl, rfl⟩ rfl trivial

end Jord.Io
