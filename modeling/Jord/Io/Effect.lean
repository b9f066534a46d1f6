import Jord.Io.Changes

/-!
# What a call can do

`Effect l args V V' rs` lists the ways in which a call in VM `l` that does not close a handle can
take the view from `V` to `V'` and return `rs`; a call that raises an error returns nothing.
`call_does` and `thunk_does` say that the functions of the table `io` and the methods do nothing
else.
-/

namespace Jord.Io

open Program

variable {ν Os α : Type} {C : Platform ν Os} {F : Fault → Prop} {V : View ν} {l : ℕ}
  {args : List (LuaValue ν)}

/-! ## Effects -/

/-- The default streams that a script can replace. -/
inductive Default
  | input
  | output
  deriving DecidableEq

/-- The registry entry of a default stream. -/
def Vm.default (vm : Vm ν) : Default → LuaValue ν
  | .input => vm.registry.stdin
  | .output => vm.registry.stdout

namespace View

/-- A default stream. -/
def default (V : View ν) : Default → Option ℕ
  | .input => V.stdInput
  | .output => V.stdOutput

theorem discharge_default (V : View ν) (a f : ℕ) (k : ℤ) (isStdFile : Bool)
    (g : FileAdapter → FileAdapter) (d : Default) :
    ((((V.closeFile f).count k).dropFile f isStdFile).modifyAdapter a g).default d =
      V.default d := by
  cases d <;> cases isStdFile <;> rfl

/-- Replace a default stream. -/
def install (V : View ν) (l a : ℕ) : Default → View ν
  | .input => V.setInput l a
  | .output => V.setOutput l a

/-- The number of line iterators that a VM has made. -/
def iterators (V : View ν) (l : ℕ) : ℕ := V.vms[l]?.elim 0 fun vm => vm.iterators.length

end View

/-- A line iterator of a handle: it holds a userdata that was passed and closes it, or knows only
the address of the handle, which was passed or is the default input. -/
inductive LineIterator (V : View ν) (args : List (LuaValue ν)) : Iterator ν → Prop
  | full {v : LuaValue ν} (hv : v ∈ args) (hu : v.isUserdata) : LineIterator V args ⟨.full v, true⟩
  | light {a : ℕ} (ha : .handle a ∈ args ∨ V.stdInput = some a) (halive : V.Alive a) :
      LineIterator V args ⟨.light a, false⟩

/-- What a call that closes no handle can do. -/
inductive Effect (l : ℕ) (args : List (LuaValue ν)) (V : View ν) :
    View ν → List (LuaValue ν) → Prop
  /-- Nothing. -/
  | plain {rs : List (LuaValue ν)} (h : AllPlain rs) : Effect l args V V rs
  /-- Return a default stream. -/
  | default {vm : Vm ν} (hvm : V.vms[l]? = some vm) (d : Default) :
      Effect l args V V [vm.default d]
  /-- A file could not be opened, and is deleted again. -/
  | wasted : Effect l args V (V.addFile ⟨false, true, false, true⟩) []
  /-- A file could not be opened, and its adapter is garbage. -/
  | failed {rs : List (LuaValue ν)} (h : AllPlain rs) : Effect l args V (V.openHandle l false) rs
  | opened : Effect l args V (V.openHandle l true) [.handle V.adapters.length]
  | installed {a : ℕ} (ha : .handle a ∈ args) (d : Default) :
      Effect l args V (V.install l a d) [.handle a]
  | openInstalled (d : Default) :
      Effect l args V ((V.openHandle l true).install l V.adapters.length d)
        [.handle V.adapters.length]
  | iterator {it : Iterator ν} (hit : LineIterator V args it) :
      Effect l args V (V.addIterator l it) [.iterator (V.iterators l)]
  | openIterator :
      Effect l args V
        ((V.openHandle l true).addIterator l ⟨.full (.handle V.adapters.length), true⟩)
        [.iterator (V.iterators l)]

/-- The result of a call shows one of the effects, or an error other than a fault outside of
`F`. -/
def Shows (F : Fault → Prop) (l : ℕ) (args : List (LuaValue ν)) (V : View ν) :
    EStateM.Result Exn (World ν Os) (List (LuaValue ν)) → Prop
  | .ok rs w' => Effect l args V w'.view rs
  | .error e w' => Effect l args V w'.view [] ∧ Allowed F e

/-- The program has one of the effects, and ends in no fault outside of `F`. -/
def Does (F : Fault → Prop) (l : ℕ) (args : List (LuaValue ν)) (V : View ν)
    (m : Eval ν Os (List (LuaValue ν))) : Prop :=
  ∀ w, w.view = V → Shows F l args V (m w)

theorem allPlain_nil : AllPlain ([] : List (LuaValue ν)) := List.forall_mem_nil _

theorem does_of_calm {m : Eval ν Os (List (LuaValue ν))} (h : CalmTo F V m AllPlain) :
    Does F l args V m := by
  intro w hw
  have := h w hw
  cases hr : m w with
  | ok rs w' =>
    rw [hr] at this
    have hv : w'.view = V := this.1
    exact hv ▸ Effect.plain this.2
  | error e w' =>
    rw [hr] at this
    have hv : w'.view = V := this.1
    exact ⟨hv ▸ Effect.plain allPlain_nil, this.2⟩

theorem does_bind {m : Eval ν Os α} {k : α → Eval ν Os (List (LuaValue ν))} {Q : α → Prop}
    (hm : CalmTo F V m Q) (hk : ∀ a, Q a → Does F l args V (k a)) : Does F l args V (m >>= k) := by
  intro w hw
  have h := hm w hw
  cases hr : m w with
  | ok a w' =>
    rw [hr] at h
    rw [bind_of_ok hr]
    exact hk a h.2 w' h.1
  | error e w' =>
    rw [hr] at h
    rw [bind_of_error hr]
    have hv : w'.view = V := h.1
    exact ⟨hv ▸ Effect.plain allPlain_nil, h.2⟩

/-- A run that returns, with its effect. -/
theorem does_ok {m : Eval ν Os (List (LuaValue ν))} {w w' : World ν Os} {V' : View ν}
    {rs : List (LuaValue ν)} (hm : m w = .ok rs w') (hv : w'.view = V')
    (h : Effect l args V V' rs) :
    Shows F l args V (m w) := by
  rw [hm]
  subst hv
  exact h

/-- A run that raises an error, with its effect. -/
theorem does_error {m : Eval ν Os (List (LuaValue ν))} {w w' : World ν Os} {V' : View ν}
    {e : Exn} (hm : m w = .error e w') (he : Allowed F e) (hv : w'.view = V')
    (h : Effect l args V V' []) : Shows F l args V (m w) := by
  rw [hm]
  subst hv
  exact ⟨h, he⟩

/-- The adapters that a call may act on can be used. -/
structure Served (F : Fault → Prop) (V : View ν) (args : List (LuaValue ν)) : Prop where
  nonNull : F .nullAdapter ∨ ∀ d, (V.default d).isSome
  default : ∀ d a, V.default d = some a → Ready F V a
  arg : ∀ a, .handle a ∈ args → Ready F V a

/-! ## Line iterators -/

namespace LuaFileAdapter

theorem lineIterator_spec {a : ℕ} {args' : List (LuaValue ν)} (hsub : args' ⊆ args)
    (ha : .handle a ∈ args ∨ V.stdInput = some a) (halive : V.Alive a) :
    LineIterator V args (lineIterator a args') := by
  unfold lineIterator
  split
  · next v hv =>
    split
    · next hu => exact .full (hsub (List.mem_of_getLast? hv)) hu
    · exact .light ha halive
  · exact .light ha halive

/-- `io.lines(name)` leaves the new userdata on top of the stack. -/
theorem lineIterator_concat (a : ℕ) (args : List (LuaValue ν)) (b : ℕ) :
    lineIterator a (args ++ [.handle b]) = ⟨.full (.handle b), true⟩ := by
  simp [lineIterator, LuaValue.isUserdata]

theorem pushIterator_apply (l : ℕ) (it : Iterator ν) (w : World ν Os) :
    ∃ w', pushIterator l it w = .ok (.iterator (w.view.iterators l)) w' ∧
      w'.view = w.view.addIterator l it ∧ w'.files = w.files :=
  ⟨_, rfl, rfl, rfl⟩

/-- Only a handle that is alive gets past the checks of a call. -/
theorem lines_does {a : ℕ} (h : Known F V a) {args' : List (LuaValue ν)}
    (ha : V.Alive a → LineIterator V args (lineIterator a args')) :
    Does F l args V (lines l a args' : Eval ν Os _) := by
  refine does_bind (calm_handle h) fun r ⟨x, hx, hd, hf⟩ => ?_
  cases r with
  | none => exact does_of_calm (calm_luaError _)
  | some f =>
    apply does_bind (LuaBoostFile.calm_isOpen (h.live x f hx hf))
    intro isOpen _
    split
    · exact does_of_calm (calm_luaError _)
    · rintro w rfl
      obtain ⟨w', hw', hv, -⟩ := pushIterator_apply l (lineIterator a args') w
      refine does_ok ?_ hv (.iterator (ha ⟨x, hx, hd⟩))
      rw [bind_of_ok hw', pure_apply]

/-- The handle of an open file gives an iterator. -/
theorem lines_apply {a f : ℕ} {w : World ν Os} {x : FileAdapter} {y : FileView}
    (args : List (LuaValue ν)) (hx : w.view.adapters[a]? = some x) (hd : x.destroyed = false)
    (hf : x.fileHandle = some f) (hy : w.view.files[f]? = some y) (hyd : y.deleted = false)
    (hopen : y.isOpen = true) :
    ∃ w', lines l a args w = .ok [.iterator (w.view.iterators l)] w' ∧
      w'.view = w.view.addIterator l (lineIterator a args) ∧ w'.files = w.files := by
  obtain ⟨w', hw', hv⟩ := pushIterator_apply l (lineIterator a args) w
  refine ⟨w', ?_, hv⟩
  rw [lines, bind_of_ok (handle_apply hx hd), hf]
  dsimp only
  rw [bind_of_ok (LuaBoostFile.isOpen_apply hy hyd), hopen, if_neg (by decide), bind_of_ok hw',
    pure_apply]

end LuaFileAdapter

/-! ## Opening files -/

namespace LuaIOManager

theorem openHandle_adapter (V : View ν) (l : ℕ) (b : Bool) :
    (V.openHandle l b).adapters[V.adapters.length]? =
      some ⟨l, some V.files.length, false, false⟩ := by
  simp [View.openHandle, View.addAdapter, View.addFile, View.count]

theorem openHandle_file (V : View ν) (l : ℕ) (b : Bool) :
    (V.openHandle l b).files[V.files.length]? = some ⟨b, true, false, false⟩ := by
  simp [View.openHandle, View.addAdapter, View.addFile, View.count]

theorem length_files (w : World ν Os) : w.files.length = w.view.files.length :=
  (List.length_map ..).symm

theorem addOpen_view (w : World ν Os) (l : ℕ) (os : Os) {x : BoostFile} {b : Bool}
    (hx : x.view = ⟨b, true, false, false⟩) : (w.addOpen l os x).view = w.view.openHandle l b := by
  have hopen : x.fileHandle.isSome = b := congrArg FileView.isOpen hx
  rw [World.addOpen, World.addHandle_view, World.addFile_view, hx, hopen, length_files]
  rfl

/-- A file that cannot be opened is deleted again. -/
theorem getOpenFile_error {filename mode : Str} {w : World ν Os}
    (h : (C.fopen filename mode w.os).1 = none) :
    ∃ message x, x.view = ⟨false, true, false, true⟩ ∧ getOpenFile C filename mode w =
      .error (.luaError message) (w.addFile (C.fopen filename mode w.os).2 x) := by
  obtain ⟨x, hs, hx, h₁⟩ := LuaBoostFile.construct_run (C := C) filename mode w
  rw [h] at hs hx
  have hd : x.deleted = false := congrArg FileView.deleted hx
  let w₁ := w.addFile (C.fopen filename mode w.os).2 x
  have hobject : LuaBoostFile.object w.files.length w₁ = .ok x w₁ :=
    LuaBoostFile.object_apply (w.addFile_files _ x) hd
  have hisOpen : LuaBoostFile.isOpen w.files.length w₁ = .ok false w₁ := by
    rw [LuaBoostFile.isOpen, bind_of_ok hobject, hs]
    rfl
  have herror : LuaBoostFile.getLastError C w.files.length w₁ = .ok (C.strerror x.errorCode) w₁ :=
    bind_of_ok hobject
  have hfclose : LuaBoostFile.fclose C x w₁ = .ok false w₁ := by
    rw [LuaBoostFile.fclose, hs]
    cases x.ownsFile <;> rfl
  have hdelete : LuaBoostFile.delete C w.files.length w₁ =
      .ok ⟨⟩ (w.addFile (C.fopen filename mode w.os).2 { x with deleted := true }) := by
    rw [LuaBoostFile.delete, bind_of_ok (get_apply w₁), w.addFile_files]
    simp only [hd, Bool.false_eq_true, if_false]
    rw [bind_of_ok hfclose]
    apply congrArg (EStateM.Result.ok PUnit.unit)
    simp only [World.addFile, w₁, modify_append_length]
  refine ⟨C.strerror x.errorCode, { x with deleted := true }, ?_, ?_⟩
  · exact congrArg (fun y : FileView => { y with deleted := true }) hx
  · rw [getOpenFile, bind_of_ok h₁, bind_of_ok hisOpen, if_pos (by decide), bind_of_ok herror,
      bind_of_ok hdelete]
    rfl

/-- `io.open` makes a handle whether or not the file can be opened. -/
theorem construct_create (filename mode : Str) (l : ℕ) (w : World ν Os) :
    ∃ x w₁, x.fileHandle = (C.fopen filename mode w.os).1 ∧
      x.view = ⟨(C.fopen filename mode w.os).1.isSome, true, false, false⟩ ∧
      LuaBoostFile.construct C filename mode w = .ok w.files.length w₁ ∧
      w₁.files[w.files.length]? = some x ∧
      LuaFileAdapter.create l w.files.length w₁ =
        .ok w.adapters.length (w.addOpen l (C.fopen filename mode w.os).2 x) := by
  obtain ⟨x, hs, hx, h₁⟩ := LuaBoostFile.construct_run (C := C) filename mode w
  have hd : x.deleted = false := congrArg FileView.deleted hx
  have hstd : x.isStdFile = false := congrArg FileView.isStdFile hx
  have hfile := w.addFile_files (C.fopen filename mode w.os).2 x
  refine ⟨x, _, hs, hx, h₁, hfile, ?_⟩
  rw [LuaFileAdapter.create_run hfile hd, hstd, Bool.not_false, Bool.and_true]
  rfl

/-- A file that is opened, with a handle for it. -/
theorem getOpenFile_create {filename mode : Str} {w : World ν Os} {s : Stream}
    (h : (C.fopen filename mode w.os).1 = some s) (l : ℕ) :
    ∃ x w₁, x.fileHandle = some s ∧ x.view = ⟨true, true, false, false⟩ ∧
      getOpenFile C filename mode w = .ok w.files.length w₁ ∧
      LuaFileAdapter.create l w.files.length w₁ =
        .ok w.adapters.length (w.addOpen l (C.fopen filename mode w.os).2 x) := by
  obtain ⟨x, w₁, hs, hx, h₁, hfile, h₂⟩ := construct_create (C := C) filename mode l w
  rw [h] at hs hx
  have hd : x.deleted = false := congrArg FileView.deleted hx
  have hisOpen : LuaBoostFile.isOpen w.files.length w₁ = .ok x.fileHandle.isSome w₁ :=
    bind_of_ok (LuaBoostFile.object_apply hfile hd)
  refine ⟨x, w₁, hs, hx, ?_, h₂⟩
  rw [getOpenFile, bind_of_ok h₁, bind_of_ok hisOpen, hs]
  rfl

/-! ## Default streams -/

theorem calm_stdInput (h : Served F V args) :
    CalmTo F V (stdInput : Eval ν Os ℕ) fun a => V.default .input = some a := by
  refine .bind (Q := fun w : World ν Os => w.stdInput = V.default .input) ?_ fun w hw => ?_
  · rintro w rfl
    exact ⟨rfl, rfl⟩
  · rw [hw]
    cases hd : V.default .input with
    | some a => exact .pure rfl
    | none => exact calm_fault (h.nonNull.resolve_right fun hall => by simpa [hd] using hall .input)

theorem calm_stdOutput (h : Served F V args) :
    CalmTo F V (stdOutput : Eval ν Os ℕ) fun a => V.default .output = some a := by
  refine .bind (Q := fun w : World ν Os => w.stdOutput = V.default .output) ?_ fun w hw => ?_
  · rintro w rfl
    exact ⟨rfl, rfl⟩
  · rw [hw]
    cases hd : V.default .output with
    | some a => exact .pure rfl
    | none =>
      exact calm_fault (h.nonNull.resolve_right fun hall => by simpa [hd] using hall .output)

theorem calm_checkUdata (n : ℤ) (v : Option (LuaValue ν)) :
    CalmTo F V (checkUdata n v : Eval ν Os ℕ) fun a => v = some (.handle a) := by
  unfold checkUdata
  split
  · exact .pure rfl
  · exact calm_typeError _ _ _

theorem registry_apply {w : World ν Os} {vm : Vm ν} (h : w.view.vms[l]? = some vm) :
    registry l w = .ok vm.registry w := by
  have h' : w.vms[l]? = some vm := h
  rw [registry, bind_of_ok (get_apply w), h']
  rfl

theorem install_default {V : View ν} {vm : Vm ν} (hvm : V.vms[l]? = some vm) (a : ℕ)
    (d : Default) : ∃ vm', (V.install l a d).vms[l]? = some vm' ∧ vm'.default d = .handle a := by
  cases d <;> simp [View.install, View.setInput, View.setOutput, View.modifyVm, hvm, Vm.default]

/-- Replacing a default stream, and returning what is in the registry then. -/
theorem replace_does {mode : Str} {set : ℕ → Eval ν Os Unit} {d : Default}
    (hset : ∀ a w, ∃ w', set a w = .ok ⟨⟩ w' ∧ w'.view = w.view.install l a d)
    {k : Unit → Eval ν Os (List (LuaValue ν))}
    (hk : ∀ w vm, w.view.vms[l]? = some vm → k ⟨⟩ w = .ok [vm.default d] w)
    (hl : ∃ vm, V.vms[l]? = some vm) :
    Does F l args V (replace C l mode set args >>= k) := by
  obtain ⟨vm, hvm⟩ := hl
  rintro w rfl
  unfold replace
  split
  · exact does_ok (hk w vm hvm) rfl (.default hvm d)
  -- what happens once the adapter is chosen
  have hinstall : ∀ {w₁ : World ν Os} {a : ℕ} {V' : View ν},
      chooseAdapter C l mode args.head? w = .ok a w₁ → w₁.view = V' → V'.vms = w.view.vms →
      Effect l args w.view (V'.install l a d) [.handle a] →
      Shows F l args w.view (((chooseAdapter C l mode args.head? >>= set) >>= k) w) := by
    rintro w₁ a _ hchoose rfl hvms heffect
    obtain ⟨w₂, h₂, hv₂⟩ := hset a w₁
    obtain ⟨vm', hvm', hdefault⟩ := install_default (hvms ▸ hvm) a d
    refine does_ok ?_ hv₂ heffect
    rw [bind_of_ok (show (chooseAdapter C l mode args.head? >>= set) w = .ok ⟨⟩ w₂ by
      rw [bind_of_ok hchoose, h₂]), hk w₂ vm' (by rw [hv₂]; exact hvm'), hdefault]
  cases hname : LuaValue.toLString C args.head? with
  | some filename =>
    have hchoose : chooseAdapter C l mode args.head? w =
        (getOpenFile C (cstr filename) mode >>= LuaFileAdapter.create l) w := by
      rw [chooseAdapter, hname]
    cases hopen : (C.fopen (cstr filename) mode w.os).1 with
    | some s =>
      obtain ⟨x, w₁, -, hx, h₁, h₂⟩ := getOpenFile_create hopen l
      exact hinstall (hchoose.trans ((bind_of_ok h₁).trans h₂)) (addOpen_view w l _ hx) rfl
        (.openInstalled d)
    | none =>
      obtain ⟨message, x, hx, h₁⟩ := getOpenFile_error hopen
      have hv₁ := (w.addFile_view (C.fopen (cstr filename) mode w.os).2 x).trans (by rw [hx])
      have herror := bind_of_error (k := set) (hchoose.trans (bind_of_error h₁))
      exact does_error (bind_of_error herror) trivial hv₁ .wasted
  | none =>
    have hchoose : chooseAdapter C l mode args.head? = checkUdata 1 args.head? := by
      rw [chooseAdapter, hname]
    have hcalm : CalmTo F w.view (checkUdata 1 args.head? : Eval ν Os ℕ) fun a =>
        args.head? = some (.handle a) := calm_checkUdata 1 args.head?
    rw [← hchoose] at hcalm
    cases hr : chooseAdapter C l mode args.head? w with
    | ok a w₁ =>
      obtain ⟨hv, ha⟩ := hcalm.ok hr
      exact hinstall hr hv rfl (.installed (List.mem_of_head? ha) d)
    | error e w₁ =>
      obtain ⟨hv, he⟩ := hcalm.error hr
      exact does_error (bind_of_error (bind_of_error hr)) he hv (.plain allPlain_nil)

theorem input_does (hl : ∃ vm, V.vms[l]? = some vm) : Does F l args V (input C l args) :=
  replace_does (fun _ _ => ⟨_, rfl, rfl⟩) (d := .input)
    (fun w vm hvm => by rw [bind_of_ok (registry_apply hvm)]; rfl) hl

theorem output_does (hl : ∃ vm, V.vms[l]? = some vm) : Does F l args V (output C l args) :=
  replace_does (fun _ _ => ⟨_, rfl, rfl⟩) (d := .output)
    (fun w vm hvm => by rw [bind_of_ok (registry_apply hvm)]; rfl) hl

/-! ## The functions and the methods -/

/-- `io.lines` of a name. -/
theorem lines_of_name {name : Str} (hname : LuaValue.toLString C args.head? = some name) :
    lines C l args = getOpenFile C (cstr name) (Str.ascii "r") >>= fun pf =>
      LuaFileAdapter.create l pf >>= fun a => LuaFileAdapter.lines l a (args ++ [.handle a]) := by
  cases hv : args.head? with
  | none => simp [hv, LuaValue.toLString] at hname
  | some v => simp [lines, hv, hv ▸ hname]

theorem lines_does (h : Served F V args) : Does F l args V (lines C l args) := by
  cases hv : args.head? with
  | none =>
    have hlines : lines C l args = stdInput >>= fun a => LuaFileAdapter.lines l a args := by
      rw [lines, hv]
    rw [hlines]
    apply does_bind (calm_stdInput h)
    intro a ha
    exact LuaFileAdapter.lines_does (h.default .input a ha).toKnown fun halive =>
      LuaFileAdapter.lineIterator_spec (List.Subset.refl _) (.inr ha) halive
  | some v =>
    cases hname : LuaValue.toLString C (some v) with
    | none =>
      have hlines : lines C l args = luaError (Str.ascii "invalid parameter") := by
        simp [lines, hv, hname]
      exact hlines ▸ does_of_calm (calm_luaError _)
    | some filename =>
      rw [lines_of_name (hv ▸ hname)]
      rintro w rfl
      cases hopen : (C.fopen (cstr filename) (Str.ascii "r") w.os).1 with
      | none =>
        obtain ⟨message, x, hx, h₁⟩ := getOpenFile_error hopen
        have hv₁ := (w.addFile_view (C.fopen (cstr filename) (Str.ascii "r") w.os).2 x).trans
          (by rw [hx])
        exact does_error (bind_of_error h₁) trivial hv₁ .wasted
      | some s =>
        obtain ⟨x, w₁, -, hx, h₁, h₂⟩ := getOpenFile_create hopen l
        have hv₂ := addOpen_view w l (C.fopen (cstr filename) (Str.ascii "r") w.os).2 hx
        obtain ⟨w₃, h₃, hv₃, -⟩ := LuaFileAdapter.lines_apply (l := l)
          (args ++ [.handle w.view.adapters.length]) (hv₂ ▸ openHandle_adapter _ _ _) rfl
          rfl (hv₂ ▸ openHandle_file _ _ _) rfl rfl
        rw [LuaFileAdapter.lineIterator_concat, hv₂] at hv₃
        rw [hv₂] at h₃
        exact does_ok ((bind_of_ok h₁).trans ((bind_of_ok h₂).trans h₃)) hv₃ .openIterator

theorem calm_pathExists (hF : F .exception) (path : Str) :
    Calm F V (pathExists C path : Eval ν Os Bool) := by
  refine .bind (calm_sys _) fun r _ => ?_
  cases r with
  | none => exact calm_fault hF
  | some result => exact .pure trivial

theorem open_does (hF : F .exception) : Does F l args V (open_ C l args) := by
  refine does_bind (calm_checkLString _ _) fun filename _ => does_bind (calm_optLString _ _ _)
    fun mode _ => does_bind (calm_onlyIf (calm_pathExists hF _).discard) fun _ _ => ?_
  rintro w rfl
  obtain ⟨x, w₁, -, hx, h₁, -, h₂⟩ := construct_create (C := C) (cstr filename) (cstr mode) l w
  have hv₂ := addOpen_view w l (C.fopen (cstr filename) (cstr mode) w.os).2 hx
  generalize w.addOpen l (C.fopen (cstr filename) (cstr mode) w.os).2 x = w₂ at h₂ hv₂
  rw [bind_of_ok h₁, bind_of_ok h₂]
  cases hopen : (C.fopen (cstr filename) (cstr mode) w.os).1.isSome with
  | true =>
    rw [hopen] at hv₂
    have hfile : w₂.view.files[w.files.length]? = some ⟨true, true, false, false⟩ :=
      length_files w ▸ hv₂ ▸ openHandle_file _ _ _
    refine does_ok ?_ hv₂ .opened
    rw [bind_of_ok (LuaBoostFile.isOpen_apply hfile rfl), if_neg (by decide)]
    rfl
  | false =>
    rw [hopen] at hv₂
    have hfile : w₂.view.files[w.view.files.length]? = some ⟨false, true, false, false⟩ :=
      hv₂ ▸ openHandle_file _ _ _
    have hknown : Known F w₂.view w.view.adapters.length := by
      refine ⟨.inr ⟨_, hv₂ ▸ openHandle_adapter _ _ _, rfl⟩, fun x f hx hf => ?_⟩
      rw [hv₂, openHandle_adapter] at hx
      cases hx
      cases hf
      exact .inr ⟨_, hfile, rfl⟩
    have hreport := LuaFileAdapter.calm_reportError (C := C) hknown
      (Str.ascii "failed to open a file")
    rw [bind_of_ok (LuaBoostFile.isOpen_apply (length_files w ▸ hfile) rfl), if_pos (by decide)]
    obtain ⟨r, hr⟩ : ∃ r, LuaFileAdapter.reportError C w.view.adapters.length
        (Str.ascii "failed to open a file") w₂ = r := ⟨_, rfl⟩
    cases r with
    | ok rs w₃ =>
      obtain ⟨hv₃, hrs⟩ := hreport.ok hr
      exact does_ok hr (hv₃.trans hv₂) (.failed hrs)
    | error e w₃ =>
      obtain ⟨hv₃, he⟩ := hreport.error hr
      exact does_error hr he (hv₃.trans hv₂) (.failed allPlain_nil)

theorem type_does (h : Served F V args) : Does F l args V (type args : Eval ν Os _) := by
  unfold type
  split
  · exact does_of_calm (calm_argError _ _)
  · next a ha =>
    refine does_of_calm (.bind (LuaFileAdapter.calm_handle
      (h.arg a (List.mem_of_head? ha)).toKnown) fun r _ => ?_)
    cases r <;> exact .pure (by simp [AllPlain, LuaValue.isPlain])
  · exact does_of_calm (.pure (by simp [AllPlain, LuaValue.isPlain]))

/-- **What a function of the table `io` does**, apart from `close`. -/
theorem call_does (hF : F .unfinished) (hE : F .exception) (h : Served F V args)
    (hl : ∃ vm, V.vms[l]? = some vm)
    {f : IoFunction} (hf : f ≠ .close) : Does F l args V (call C l args f) := by
  cases f with
  | close => contradiction
  | flush =>
    exact does_of_calm (.bind (calm_stdOutput h) fun a ha =>
      LuaFileAdapter.calm_flush (h.default .output a ha).toKnown)
  | input => exact input_does hl
  | lines => exact lines_does h
  | «open» => exact open_does hE
  | output => exact output_does hl
  | popen | read =>
    exact does_of_calm (.bind (calm_stdInput h) fun a ha =>
      LuaFileAdapter.calm_read hF (h.default .input a ha) args)
  | tmpfile => exact does_of_calm (calm_luaError _)
  | type => exact type_does h
  | write =>
    exact does_of_calm (.bind (calm_stdOutput h) fun a ha =>
      LuaFileAdapter.calm_write (h.default .output a ha) args)

/-- **What a method does**, apart from `close`. -/
theorem thunk_does (hF : F .unfinished) (h : Served F V args) {m : Method} (hm : m ≠ .close) :
    Does F l args V (thunk C l args m) := by
  apply does_bind (calm_checkUdata _ _)
  intro a ha
  have hmem := List.mem_of_head? ha
  have hready := h.arg a hmem
  cases m with
  | close => contradiction
  | read => exact does_of_calm (LuaFileAdapter.calm_read hF hready _)
  | write => exact does_of_calm (LuaFileAdapter.calm_write hready _)
  | flush => exact does_of_calm (LuaFileAdapter.calm_flush hready.toKnown)
  | lines =>
    exact LuaFileAdapter.lines_does hready.toKnown fun halive =>
      LuaFileAdapter.lineIterator_spec (fun _ => List.mem_of_mem_tail) (.inl hmem) halive
  | seek => exact does_of_calm (LuaFileAdapter.calm_seek hready _)
  | setvbuf => exact does_of_calm (LuaFileAdapter.calm_setvbuf hready _)
  | isOpen => exact does_of_calm (LuaFileAdapter.calm_isOpen hready.toKnown)
  | tostring => exact does_of_calm (LuaFileAdapter.calm_tostring hready.toKnown)

end LuaIOManager

end Jord.Io
