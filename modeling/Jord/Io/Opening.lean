import Jord.Io.ReadErrors

/-!
# Calls that open a file

Five functions of the table `io` open a file. `opening_iff` says of each that it gives what it is to
give, a handle, a default stream or a line iterator, if the file can be opened, and that otherwise
it reports the failure and leaves everything else as it was. There are two exceptions: `io.tmpfile`
fails in any case, since `tmpfile` of the C library is never called, and `io.open` for reading asks
first whether the path exists, which may throw a C++ exception.
-/

namespace Jord.Io

open Program

variable {ν Os : Type} {C : Platform ν Os} {w w' : World ν Os} {l f : ℕ} {s : Stream}
  {x : BoostFile} {args : List (LuaValue ν)}

/-! ## What is promised -/

/-- What a call that opens a file is to give. -/
inductive Product
  | handle
  | default (d : Default)
  | iterator

/-- The mode that is passed to `io.open`. -/
def openMode (C : Platform ν Os) (args : List (LuaValue ν)) : Option Str :=
  if LuaValue.isNoneOrNil args[1]? then some (Str.ascii "r") else LuaValue.toLString C args[1]?

/-- `boost::filesystem::exists` throws where `io.open` calls it. -/
def ExistsThrows (C : Platform ν Os) (path mode : Str) (os : Os) : Prop :=
  mode.head? = some 114 ∧ (C.exists_ path os).1 = none

/-- The state in which `io.open` calls `fopen`. -/
def searched (C : Platform ν Os) (path mode : Str) (os : Os) : Os :=
  if mode.head? = some 114 then (C.exists_ path os).2 else os

/-- `boost::filesystem::exists` throws in a call of `io.open`. -/
def OpenThrows (C : Platform ν Os) (args : List (LuaValue ν)) (os : Os) : Prop :=
  ∃ name mode, LuaValue.toLString C args[0]? = some name ∧ openMode C args = some mode ∧
    ExistsThrows C (cstr name) mode os

/-- The call asks for a product, for which the open in the state `os` gives the stream. `tmpfile` is
the function of the C library. -/
inductive Asks (C : Platform ν Os) (tmpfile : Os → Option Stream × Os) (os : Os) :
    IoFunction → List (LuaValue ν) → Product → Option Stream → Prop
  | open {args : List (LuaValue ν)} {name mode : Str}
      (hname : LuaValue.toLString C args[0]? = some name) (hmode : openMode C args = some mode) :
      Asks C tmpfile os .open args .handle
        (C.fopen (cstr name) (cstr mode) (searched C (cstr name) mode os)).1
  | tmpfile {args : List (LuaValue ν)} : Asks C tmpfile os .tmpfile args .handle (tmpfile os).1
  | input {args : List (LuaValue ν)} {name : Str}
      (hname : LuaValue.toLString C args.head? = some name) :
      Asks C tmpfile os .input args (.default .input) (C.fopen (cstr name) (Str.ascii "r") os).1
  | output {args : List (LuaValue ν)} {name : Str}
      (hname : LuaValue.toLString C args.head? = some name) :
      Asks C tmpfile os .output args (.default .output) (C.fopen (cstr name) (Str.ascii "w") os).1
  | lines {args : List (LuaValue ν)} {name : Str}
      (hname : LuaValue.toLString C args.head? = some name) :
      Asks C tmpfile os .lines args .iterator (C.fopen (cstr name) (Str.ascii "r") os).1

/-- The values returned are the product, for the handle `a` of VM `l`. -/
inductive Product.Given (w : World ν Os) (l a : ℕ) : Product → List (LuaValue ν) → Prop
  | handle : Given w l a .handle [.handle a]
  | default {d : Default} {vm : Vm ν} (hd : w.view.default d = some a)
      (hvm : w.view.vms[l]? = some vm) (hr : vm.default d = .handle a) :
      Given w l a (.default d) [.handle a]
  | iterator {i : ℕ} {vm : Vm ν} (hvm : w.view.vms[l]? = some vm)
      (hi : vm.iterators[i]? = some ⟨.full (.handle a), true⟩) : Given w l a .iterator [.iterator i]

/-- The call gives the product, for a new handle with the stream `s`. -/
def Delivers (m : Eval ν Os (List (LuaValue ν))) (w : World ν Os) (l : ℕ) (p : Product)
    (s : Stream) : Prop :=
  ∃ vs w' f, m w = .ok vs w' ∧ Opened w' w.adapters.length f s ∧
    p.Given w' l w.adapters.length vs

/-- Default streams, handles, files and the count are as before; what is new comes after them. -/
structure Untouched (w w' : World ν Os) : Prop where
  files : w.files <+: w'.files
  adapters : w.adapters <+: w'.adapters
  count : w'.openedFilesCount = w.openedFilesCount
  stdInput : w'.stdInput = w.stdInput
  stdOutput : w'.stdOutput = w.stdOutput
  stdError : w'.stdError = w.stdError
  vms : w'.vms = w.vms

/-- The call returns `nil`, a message and a code, or raises an error, and does nothing else. -/
def FailsCleanly (m : Eval ν Os (List (LuaValue ν))) (w : World ν Os) : Prop :=
  ∃ w', Untouched w w' ∧ ((∃ vs, m w = .ok vs w' ∧ IsTriple vs) ∨
    ∃ message, m w = .error (.luaError message) w')

/-- The call succeeds exactly when the open does, and fails cleanly. -/
def KeepsPromise (m : Eval ν Os (List (LuaValue ν))) (w : World ν Os) (l : ℕ) (p : Product)
    (opened : Option Stream) : Prop :=
  (∀ s, opened = some s → Delivers m w l p s) ∧ (opened = none → FailsCleanly m w)

/-! ## New files and handles -/

theorem addFile_untouched (w : World ν Os) (os : Os) (x : BoostFile) :
    Untouched w (w.addFile os x) :=
  ⟨List.prefix_append _ _, List.prefix_refl _, rfl, rfl, rfl, rfl, rfl⟩

/-- A file that is not open does not count. -/
theorem addOpen_untouched (w : World ν Os) (l : ℕ) (os : Os) (hs : x.fileHandle = none) :
    Untouched w (w.addOpen l os x) := by
  refine ⟨List.prefix_append _ _, List.prefix_append _ _, ?_, rfl, rfl, rfl, rfl⟩
  simp [World.addOpen, World.addFile, World.addHandle, hs]

/-- The operating system is not looked at. -/
theorem Untouched.of_os {os : Os} (h : Untouched { w with os := os } w') : Untouched w w' :=
  ⟨h.files, h.adapters, h.count, h.stdInput, h.stdOutput, h.stdError, h.vms⟩

theorem addOpen_holds (w : World ν Os) (l : ℕ) (os : Os) (hd : x.deleted = false) :
    Holds (w.addOpen l os x) w.adapters.length w.files.length x where
  adapter := ⟨⟨l, some w.files.length, false, false⟩,
    by simp [World.addOpen, World.addFile, World.addHandle, World.view], rfl, rfl⟩
  file := w.addFile_files os x
  live := hd

/-- A file that is open, with its handle. -/
theorem addOpen_opened (w : World ν Os) (l : ℕ) (os : Os) (hd : x.deleted = false)
    (hs : x.fileHandle = some s) :
    Opened (w.addOpen l os x) w.adapters.length w.files.length s :=
  ⟨(addOpen_holds w l os hd).adapter, x, w.addFile_files os x, hd, hs⟩

namespace LuaIOManager

/-- A file that cannot be opened leaves nothing but itself. -/
theorem getOpenFile_cleanly {filename mode : Str} (h : (C.fopen filename mode w.os).1 = none) :
    ∃ message w', getOpenFile C filename mode w = .error (.luaError message) w' ∧
      Untouched w w' := by
  obtain ⟨message, x, -, hrun⟩ := getOpenFile_error h
  exact ⟨message, _, hrun, addFile_untouched w _ x⟩

/-- A file that can be opened, with a handle for it. -/
theorem getOpenFile_opened {filename mode : Str} (h : (C.fopen filename mode w.os).1 = some s)
    (l : ℕ) : ∃ w₁ w₂, getOpenFile C filename mode w = .ok w.files.length w₁ ∧
      LuaFileAdapter.create l w.files.length w₁ = .ok w.adapters.length w₂ ∧
      Opened w₂ w.adapters.length w.files.length s ∧ w₂.vms = w.vms := by
  obtain ⟨x, w₁, hs, hx, h₁, h₂⟩ := getOpenFile_create h l
  exact ⟨w₁, _, h₁, h₂, addOpen_opened w l _ (congrArg FileView.deleted hx) hs, rfl⟩

/-! ## The functions -/

theorem exists_apply (path : Str) (w : World ν Os) :
    sys (C.exists_ path) w = .ok (C.exists_ path w.os).1 { w with os := (C.exists_ path w.os).2 } :=
  rfl

theorem search_run {path mode : Str} (h : ¬ ExistsThrows C path mode w.os) :
    onlyIf (mode.head? = some 114) (discard (pathExists C path)) w =
      .ok ⟨⟩ { w with os := searched C path mode w.os } := by
  by_cases hr : mode.head? = some 114
  · obtain ⟨result, hresult⟩ := Option.ne_none_iff_exists'.1 fun hnone => h ⟨hr, hnone⟩
    have hexists : pathExists C path w = .ok result { w with os := (C.exists_ path w.os).2 } := by
      rw [pathExists, bind_of_ok (exists_apply _ w), hresult]
      rfl
    rw [onlyIf, if_pos (decide_eq_true hr), discard_apply hexists, searched, if_pos hr]
  · rw [onlyIf, if_neg (by simpa using hr), searched, if_neg hr]
    rfl

theorem search_throws {path mode : Str} (h : ExistsThrows C path mode w.os) :
    ∃ w', onlyIf (mode.head? = some 114) (discard (pathExists C path)) w =
      .error (.fault .exception) w' := by
  have hexists : pathExists C path w =
      .error (.fault .exception) { w with os := (C.exists_ path w.os).2 } := by
    rw [pathExists, bind_of_ok (exists_apply _ w), h.2]
    rfl
  exact ⟨_, by rw [onlyIf, if_pos (decide_eq_true h.1), discard_error hexists]⟩

theorem open_args {name mode : Str} (hname : LuaValue.toLString C args[0]? = some name)
    (hmode : openMode C args = some mode) (l : ℕ) : open_ C l args w =
      (do
        onlyIf (mode.head? = some 114) (discard (pathExists C (cstr name)))
        let pf ← LuaBoostFile.construct C (cstr name) (cstr mode)
        let a ← LuaFileAdapter.create l pf
        if !(← LuaBoostFile.isOpen pf) then
          LuaFileAdapter.reportError C a (Str.ascii "failed to open a file")
        else
          return [.handle a] : Eval ν Os (List (LuaValue ν))) w := by
  have hfirst : checkLString C 1 args[0]? w = .ok name w := by
    rw [checkLString, hname]
    rfl
  have hsecond : optLString C 2 args[1]? (Str.ascii "r") w = .ok mode w := by
    unfold openMode at hmode
    unfold optLString
    split at hmode
    · next hnone =>
      cases hmode
      rw [if_pos hnone]
      rfl
    · next hsome =>
      rw [if_neg hsome, checkLString, hmode]
      rfl
  rw [open_, bind_of_ok hfirst, bind_of_ok hsecond]

theorem open_throws {name mode : Str} (hname : LuaValue.toLString C args[0]? = some name)
    (hmode : openMode C args = some mode) (h : ExistsThrows C (cstr name) mode w.os) (l : ℕ) :
    ∃ w', open_ C l args w = .error (.fault .exception) w' := by
  obtain ⟨w', hw'⟩ := search_throws h
  exact ⟨w', by rw [open_args hname hmode, bind_of_error hw']⟩

theorem open_keepsPromise {name mode : Str} (hname : LuaValue.toLString C args[0]? = some name)
    (hmode : openMode C args = some mode) (h : ¬ ExistsThrows C (cstr name) mode w.os) (l : ℕ) :
    KeepsPromise (open_ C l args) w l .handle
      (C.fopen (cstr name) (cstr mode) (searched C (cstr name) mode w.os)).1 := by
  let w₀ := { w with os := searched C (cstr name) mode w.os }
  obtain ⟨x, w₁, hs, hx, h₁, -, h₂⟩ := construct_create (C := C) (cstr name) (cstr mode) l w₀
  have hd : x.deleted = false := congrArg FileView.deleted hx
  let w₂ := w₀.addOpen l (C.fopen (cstr name) (cstr mode) w₀.os).2 x
  have hholds : Holds w₂ w.adapters.length w.files.length x := addOpen_holds w₀ l _ hd
  have hisOpen : LuaBoostFile.isOpen w.files.length w₂ = .ok x.fileHandle.isSome w₂ :=
    bind_of_ok (LuaBoostFile.object_apply hholds.file hd)
  have hrun : open_ C l args w = (if !x.fileHandle.isSome then
      LuaFileAdapter.reportError C w.adapters.length (Str.ascii "failed to open a file") else
      pure [.handle w.adapters.length]) w₂ := by
    rw [open_args hname hmode, bind_of_ok (search_run h), bind_of_ok h₁, bind_of_ok h₂,
      bind_of_ok hisOpen]
  constructor
  · intro s hopen
    rw [hopen] at hs
    refine ⟨_, w₂, w.files.length, ?_, addOpen_opened w₀ l _ hd hs, .handle⟩
    rw [hrun, hs]
    rfl
  · intro hopen
    rw [hopen] at hs
    obtain ⟨vs, hreport, htriple⟩ := LuaFileAdapter.reportError_apply (C := C) hholds
      (Str.ascii "failed to open a file")
    refine ⟨w₂, (addOpen_untouched w₀ l _ hs).of_os, .inl ⟨vs, ?_, htriple⟩⟩
    rw [hrun, hs]
    exact hreport

/-- `input` and `output` of a name. -/
theorem replace_keepsPromise {mode name : Str} {set : ℕ → Eval ν Os Unit} {d : Default}
    (hset : ∀ a w, ∃ w', set a w = .ok ⟨⟩ w' ∧ w'.view = w.view.install l a d ∧
      w'.files = w.files)
    {k : Unit → Eval ν Os (List (LuaValue ν))}
    (hk : ∀ w vm, w.view.vms[l]? = some vm → k ⟨⟩ w = .ok [vm.default d] w)
    (hl : ∃ vm, w.view.vms[l]? = some vm)
    (hname : LuaValue.toLString C args.head? = some name) :
    KeepsPromise (replace C l mode set args >>= k) w l (.default d)
      (C.fopen (cstr name) mode w.os).1 := by
  obtain ⟨vm, hvm⟩ := hl
  have hsome : ¬ LuaValue.isNoneOrNil args.head? := by
    intro hnone
    unfold LuaValue.isNoneOrNil at hnone
    split at hnone
    · next h => simp [h, LuaValue.toLString] at hname
    · next h => simp [h, LuaValue.toLString] at hname
    · cases hnone
  have hchoose : chooseAdapter C l mode args.head? =
      getOpenFile C (cstr name) mode >>= LuaFileAdapter.create l := by
    rw [chooseAdapter, hname]
  rw [replace, if_neg hsome, hchoose]
  constructor
  · intro s hopen
    obtain ⟨w₁, w₂, h₁, h₂, hopened, hvms⟩ := getOpenFile_opened hopen l
    obtain ⟨w₃, h₃, hv₃, hf₃⟩ := hset w.adapters.length w₂
    have hvm₂ : w₂.view.vms[l]? = some vm := (congrArg (·[l]?) hvms).trans hvm
    obtain ⟨vm', hvm', hdefault⟩ := install_default hvm₂ w.adapters.length d
    have hnew : (getOpenFile C (cstr name) mode >>= LuaFileAdapter.create l) w =
        .ok w.adapters.length w₂ := (bind_of_ok h₁).trans h₂
    have hvm₃ : w₃.view.vms[l]? = some vm' := by rw [hv₃, hvm']
    refine ⟨[.handle w.adapters.length], w₃, w.files.length, ?_, ⟨?_, ?_⟩,
      .default ?_ hvm₃ hdefault⟩
    · rw [bind_of_ok ((bind_of_ok hnew).trans h₃), hk w₃ vm' hvm₃, hdefault]
    · rw [hv₃]
      cases d <;> exact hopened.adapter
    · obtain ⟨x, hx, hrest⟩ := hopened.streams
      exact ⟨x, (congrArg (·[w.files.length]?) hf₃).trans hx, hrest⟩
    · rw [hv₃]
      cases d <;> rfl
  · intro hopen
    obtain ⟨message, w₁, h₁, huntouched⟩ := getOpenFile_cleanly (C := C) hopen
    exact ⟨w₁, huntouched, .inr ⟨message, bind_of_error (bind_of_error (bind_of_error h₁))⟩⟩

theorem input_keepsPromise {name : Str} (hl : ∃ vm, w.view.vms[l]? = some vm)
    (hname : LuaValue.toLString C args.head? = some name) :
    KeepsPromise (input C l args) w l (.default .input)
      (C.fopen (cstr name) (Str.ascii "r") w.os).1 := by
  unfold input
  refine replace_keepsPromise (fun a w => ?_) (fun w vm hvm => ?_) hl hname
  · exact ⟨_, rfl, rfl, rfl⟩
  · rw [bind_of_ok (registry_apply hvm)]
    rfl

theorem output_keepsPromise {name : Str} (hl : ∃ vm, w.view.vms[l]? = some vm)
    (hname : LuaValue.toLString C args.head? = some name) :
    KeepsPromise (output C l args) w l (.default .output)
      (C.fopen (cstr name) (Str.ascii "w") w.os).1 := by
  unfold output
  refine replace_keepsPromise (fun a w => ?_) (fun w vm hvm => ?_) hl hname
  · exact ⟨_, rfl, rfl, rfl⟩
  · rw [bind_of_ok (registry_apply hvm)]
    rfl

/-- A file that can be opened, with a line iterator over a handle for it. -/
theorem lines_opened {name : Str} {vm : Vm ν} (hvm : w.view.vms[l]? = some vm)
    (hname : LuaValue.toLString C args.head? = some name)
    (h : (C.fopen (cstr name) (Str.ascii "r") w.os).1 = some s) :
    ∃ (w' : World ν Os) (V : View ν), lines C l args w = .ok [.iterator (V.iterators l)] w' ∧
      w'.view = V.addIterator l ⟨.full (.handle w.adapters.length), true⟩ ∧
      V.vms[l]? = some vm ∧ Opened w' w.adapters.length w.files.length s := by
  obtain ⟨w₁, w₂, h₁, h₂, hopened, hvms⟩ := getOpenFile_opened h l
  obtain ⟨x, hx, hd, hf⟩ := id hopened.adapter
  obtain ⟨y, hy, hs⟩ := hopened.holds
  obtain ⟨w₃, h₃, hv₃, hf₃⟩ := LuaFileAdapter.lines_apply (l := l)
    (args ++ [.handle w.adapters.length]) hx hd hf hy.view_file hy.live
    (by simp [BoostFile.view, hs])
  rw [LuaFileAdapter.lineIterator_concat] at hv₃
  refine ⟨w₃, w₂.view, ?_, hv₃, (congrArg (·[l]?) hvms).trans hvm, ?_, ?_⟩
  · rw [lines_of_name hname, bind_of_ok h₁, bind_of_ok h₂, h₃]
  · rw [hv₃]
    exact hopened.adapter
  · obtain ⟨z, hz, hrest⟩ := hopened.streams
    exact ⟨z, (congrArg (·[w.files.length]?) hf₃).trans hz, hrest⟩

theorem lines_keepsPromise {name : Str} (hl : ∃ vm, w.view.vms[l]? = some vm)
    (hname : LuaValue.toLString C args.head? = some name) :
    KeepsPromise (lines C l args) w l .iterator
      (C.fopen (cstr name) (Str.ascii "r") w.os).1 := by
  obtain ⟨vm, hvm⟩ := hl
  constructor
  · intro s hopen
    obtain ⟨w', V, hrun, hv, hV, hopened⟩ := lines_opened hvm hname hopen
    have hvm' := View.modifyVm_self (g := fun vm => { vm with
      iterators := vm.iterators ++ [⟨.full (.handle w.adapters.length), true⟩] }) hV
    have hi : V.iterators l = vm.iterators.length := by rw [View.iterators, hV]; rfl
    refine ⟨_, w', _, hrun, hopened, .iterator ((congrArg (·.vms[l]?) hv).trans hvm') ?_⟩
    simp [hi]
  · intro hopen
    obtain ⟨message, w₁, h₁, huntouched⟩ := getOpenFile_cleanly (C := C) hopen
    exact ⟨w₁, huntouched, .inr ⟨message, by rw [lines_of_name hname, bind_of_error h₁]⟩⟩

end LuaIOManager

theorem Untouched.refl (w : World ν Os) : Untouched w w :=
  ⟨List.prefix_refl _, List.prefix_refl _, rfl, rfl, rfl, rfl, rfl⟩

/-- `io.tmpfile` always fails, and does nothing. -/
theorem tmpfile_run (w : World ν Os) : ∃ message,
    (LuaIOManager.tmpfile : Eval ν Os (List (LuaValue ν))) w = .error (.luaError message) w :=
  ⟨_, rfl⟩

/-- A fault keeps no promise. -/
theorem not_keepsPromise {m : Eval ν Os (List (LuaValue ν))} {p : Product} {opened : Option Stream}
    {e : Fault} (h : m w = .error (.fault e) w') : ¬ KeepsPromise m w l p opened := by
  rintro ⟨hdelivers, hfails⟩
  cases opened with
  | some s =>
    obtain ⟨vs, w₁, f, hcall, -⟩ := hdelivers s rfl
    cases h.symm.trans hcall
  | none =>
    obtain ⟨w₁, -, ⟨vs, hcall, -⟩ | ⟨message, hcall⟩⟩ := hfails rfl
    · cases h.symm.trans hcall
    · cases h.symm.trans hcall

/-- **A call that opens a file keeps its promise**, unless it is `io.tmpfile` and there is a
temporary file, or it is `io.open` and an exception leaves it. -/
theorem opening_iff {tmpfile : Os → Option Stream × Os} {g : IoFunction} {p : Product}
    {opened : Option Stream} (hl : IsOpen w.view l) (h : Asks C tmpfile w.os g args p opened) :
    KeepsPromise (LuaIOManager.call C l args g) w l p opened ↔
      (g = .tmpfile → opened = none) ∧ (g = .open → ¬ OpenThrows C args w.os) := by
  obtain ⟨vm, hvm, -⟩ := hl
  have hplain : ∀ {g : IoFunction}, g ≠ .tmpfile → g ≠ .open →
      (g = .tmpfile → opened = none) ∧ (g = .open → ¬ OpenThrows C args w.os) :=
    fun ht ho => ⟨fun h => absurd h ht, fun h => absurd h ho⟩
  cases h with
  | @«open» _ name mode hname hmode =>
    by_cases hthrows : ExistsThrows C (cstr name) mode w.os
    · obtain ⟨w', hw'⟩ := LuaIOManager.open_throws hname hmode hthrows l
      exact iff_of_false (not_keepsPromise hw') fun h => h.2 rfl ⟨name, mode, hname, hmode, hthrows⟩
    · refine iff_of_true (LuaIOManager.open_keepsPromise hname hmode hthrows l)
        ⟨nofun, ?_⟩
      rintro - ⟨name', mode', hname', hmode', h⟩
      cases hname.symm.trans hname'
      cases hmode.symm.trans hmode'
      exact hthrows h
  | input hname =>
    exact iff_of_true (LuaIOManager.input_keepsPromise ⟨vm, hvm⟩ hname)
      (hplain (by decide) (by decide))
  | output hname =>
    exact iff_of_true (LuaIOManager.output_keepsPromise ⟨vm, hvm⟩ hname)
      (hplain (by decide) (by decide))
  | lines hname =>
    exact iff_of_true (LuaIOManager.lines_keepsPromise ⟨vm, hvm⟩ hname)
      (hplain (by decide) (by decide))
  | tmpfile =>
    obtain ⟨message, hrun⟩ := tmpfile_run w
    constructor
    · rintro ⟨hdelivers, -⟩
      refine ⟨fun _ => Option.eq_none_iff_forall_ne_some.2 fun s hs => ?_, nofun⟩
      obtain ⟨vs, w', f, hcall, -⟩ := hdelivers s hs
      cases hrun.symm.trans hcall
    · rintro ⟨hnone, -⟩
      refine ⟨fun s hs => ?_, fun _ => ⟨w, .refl w, .inr ⟨message, hrun⟩⟩⟩
      cases (hnone rfl).symm.trans hs

theorem opening_iff_nullDevice :
    KeepsPromise (LuaIOManager.call nullDevice 0 [.string (Str.ascii "a")] .open) oneVm 0 .handle
      (some 3) ↔ (IoFunction.open = .tmpfile → some 3 = none) ∧
        (IoFunction.open = .open → ¬ OpenThrows nullDevice [.string (Str.ascii "a")] oneVm.os) :=
  opening_iff ⟨_, rfl, rfl⟩ (show Asks nullDevice (fun n => (none, n)) oneVm.os .open
    [.string (Str.ascii "a")] .handle (some 3) from
      @Asks.open _ _ _ _ _ _ (Str.ascii "a") (Str.ascii "r") rfl rfl)

/-- `io.tmpfile` fails although there is a temporary file. -/
theorem opening_counterexample : ∃ p s,
    Asks nullDevice (fun n => (some (n + 3), n + 1)) oneVm.os .tmpfile [] p (some s) ∧
      ¬ KeepsPromise (LuaIOManager.call nullDevice 0 [] .tmpfile) oneVm 0 p (some s) := by
  refine ⟨.handle, 3, .tmpfile, fun h => ?_⟩
  obtain ⟨message, hrun⟩ := tmpfile_run oneVm
  obtain ⟨vs, w', f, hcall, -⟩ := h.1 3 rfl
  cases hrun.symm.trans hcall

end Jord.Io
