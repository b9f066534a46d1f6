import Jord.Io.Steps

/-!
# Actions that close

A call of `close` and a call of a line iterator can end in several ways; `CloseRun` and
`IterateRun` list them, with the state of the handle in which they happen and the change of the
view they make. `exec_close` and `exec_iterate` say which handle or iterator an action is about.
-/

namespace Jord.Io

open Program

variable {ν Os : Type} {C : Platform ν Os} {w w' : World ν Os} {l a f : ℕ} {vm : Vm ν}

/-! ## The state of a handle -/

/-- The handle is alive and has the file `f`, which is `y`. -/
structure Holds (w : World ν Os) (a f : ℕ) (y : BoostFile) : Prop where
  adapter : w.view.Has a f
  file : w.files[f]? = some y
  live : y.deleted = false

theorem Holds.view_file {y : BoostFile} (h : Holds w a f y) : w.view.files[f]? = some y.view := by
  rw [view_files, h.file]
  rfl

theorem Holds.alive {y : BoostFile} (h : Holds w a f y) : w.view.Alive a := by
  obtain ⟨x, hx, hd, -⟩ := h.adapter
  exact ⟨x, hx, hd⟩

theorem Holds.usable {F : Fault → Prop} {y : BoostFile} (h : Holds w a f y)
    (hopen : y.fileHandle.isSome) : Usable F w.view f :=
  ⟨.inr ⟨y.view, h.view_file, h.live⟩, .inr fun x hx => by
    cases h.view_file.symm.trans hx
    exact hopen⟩

/-- The handle has a stream. -/
def StreamOpen (V : View ν) (a : ℕ) : Prop :=
  ∃ f y, V.Has a f ∧ V.files[f]? = some y ∧ y.isOpen = true

/-- A handle is dead, or has no file, or has one. -/
theorem View.Ok.handle_cases (hok : w.view.Ok) (a : ℕ) :
    ¬ w.view.Alive a ∨ w.view.Released a ∨ ∃ f y, Holds w a f y := by
  by_cases halive : w.view.Alive a
  · obtain ⟨x, hx, hd⟩ := halive
    cases hf : x.fileHandle with
    | none => exact .inr (.inl ⟨x, hx, hd, hf⟩)
    | some f =>
      obtain ⟨y, hy, hyd⟩ := hok.file a f ⟨x, hx, hd, hf⟩
      obtain ⟨z, hz, rfl⟩ := exists_file hy
      exact .inr (.inr ⟨f, z, ⟨x, hx, hd, hf⟩, hz, hyd⟩)
  · exact .inl halive

theorem View.Released.not_has {V : View ν} (h : V.Released a) (f : ℕ) : ¬ V.Has a f := by
  obtain ⟨x, hx, -, hf⟩ := h
  rintro ⟨z, hz, -, hzf⟩
  cases hx.symm.trans hz
  simp [hf] at hzf

theorem View.Has.unique {V : View ν} {g : ℕ} (h : V.Has a f) (h' : V.Has a g) : f = g := by
  obtain ⟨x, hx, -, hf⟩ := h
  obtain ⟨z, hz, -, hg⟩ := h'
  cases hx.symm.trans hz
  exact Option.some.inj (hf.symm.trans hg)

theorem LuaFileAdapter.handle_dead (h : ¬ w.view.Alive a) :
    handle a w = .error (.fault .destroyedAdapter) w := by
  have hadapter : adapter a w = .error (.fault .destroyedAdapter) w := by
    rw [adapter, bind_of_ok (get_apply w)]
    cases hx : w.adapters[a]? with
    | none => rfl
    | some x =>
      have hd : x.destroyed = true := by
        by_contra hd
        exact h ⟨x, hx, Bool.eq_false_iff.2 hd⟩
      simp [hd, fault]
  exact bind_of_error hadapter

/-! ## Calls of `close` -/

/-- The ways in which closing the handle `a` can end. -/
inductive CloseRun (C : Platform ν Os) (l a : ℕ) (w : World ν Os) :
    Except Fault (World ν Os) → Prop
  | dead (h : ¬ w.view.Alive a) : CloseRun C l a w (.error .destroyedAdapter)
  /-- The handle has no file: an error. -/
  | again (h : w.view.Released a) : CloseRun C l a w (.ok w)
  /-- Closing the file fails: an error, and the stream is gone. -/
  | failed {f : ℕ} {y : BoostFile} {w' : World ν Os} (h : Holds w a f y)
      (hc : LuaBoostFile.closes C y w.os = false) (hv : w'.view = w.view.closeFile f) :
      CloseRun C l a w (.ok w')
  | closed {f : ℕ} {y : BoostFile} {w' : World ν Os} (h : Holds w a f y)
      (hc : LuaBoostFile.closes C y w.os = true)
      (hv : w'.view = (w.view.release a f y.isStdFile).keep l [.boolean true]) :
      CloseRun C l a w (.ok w')

/-- Closing a handle ends in one of these ways. -/
theorem closeRun (hok : w.view.Ok) (l a : ℕ) :
    CloseRun C l a w (outcome ((LuaFileAdapter.close C a >>= keep l) w)) := by
  rcases hok.handle_cases a with hdead | ⟨x, hx, hd, hf⟩ | ⟨f, y, h⟩
  · have hclose : LuaFileAdapter.close C a w = .error (.fault .destroyedAdapter) w :=
      bind_of_error (LuaFileAdapter.handle_dead hdead)
    rw [bind_of_error hclose]
    exact .dead hdead
  · rw [bind_of_error (LuaFileAdapter.close_none hx hd hf)]
    exact .again ⟨x, hx, hd, hf⟩
  · obtain ⟨x, hx, hd, hf⟩ := h.adapter
    cases hc : LuaBoostFile.closes C y w.os with
    | false =>
      obtain ⟨w₁, h₁, hv₁⟩ := LuaFileAdapter.close_error hx hd hf h.file h.live hc
      rw [bind_of_error h₁]
      exact .failed h hc hv₁
    | true =>
      obtain ⟨w₁, h₁, hv₁⟩ := LuaFileAdapter.close_ok hx hd hf h.file h.live hc
      obtain ⟨w₂, h₂, hv₂⟩ := keep_apply l [.boolean true] w₁
      rw [bind_of_ok h₁, h₂]
      exact .closed h hc (by rw [hv₂, hv₁])

/-- The handle that a value is. -/
def LuaValue.asHandle : Option (LuaValue ν) → Option ℕ
  | some (.handle a) => some a
  | _ => none

theorem LuaValue.eq_of_asHandle {v : Option (LuaValue ν)} (h : LuaValue.asHandle v = some a) :
    v = some (.handle a) := by
  unfold LuaValue.asHandle at h
  split at h
  · cases h
    rfl
  · cases h

/-- The handle that a call of `io.close` is about. -/
def closePointer (V : View ν) : List (LuaValue ν) → Option ℕ
  | [] => V.stdOutput
  | v :: _ => LuaValue.asHandle (some v)

/-- The handle that an action closes, if it is a call of `close`. -/
def closeTarget (V : View ν) (vm : Vm ν) : Action ν → Option ℕ
  | .call .close args => closePointer V (args.map (Operand.eval vm))
  | .method .close args => LuaValue.asHandle (args.map (Operand.eval vm)).head?
  | _ => none

/-- A script closes the default output, or a handle that it holds. -/
theorem closeTarget_cases {V : View ν} {act : Action ν} (h : closeTarget V vm act = some a) :
    V.default .output = some a ∨ vm.Accessible (.handle a) := by
  have harg : ∀ {args : List (Operand ν)} {v : LuaValue ν},
      v ∈ args.map (Operand.eval vm) → LuaValue.asHandle (some v) = some a →
        vm.Accessible (.handle a) := fun hv ha =>
    accessible_arg (Option.some.inj (LuaValue.eq_of_asHandle ha) ▸ hv)
  cases act with
  | call g args =>
    cases g with
    | close =>
      cases args with
      | nil => exact .inl h
      | cons o args => exact .inr (harg
        (show _ ∈ (o :: args).map (Operand.eval vm) from List.mem_cons_self) h)
    | _ => cases h
  | method m args =>
    cases m with
    | close =>
      cases args with
      | nil => cases h
      | cons o args => exact .inr (harg
        (show _ ∈ (o :: args).map (Operand.eval vm) from List.mem_cons_self) h)
    | _ => cases h
  | _ => cases h

/-- The action is a call of `close`. -/
def Action.isClose : Action ν → Bool
  | .call .close _ => true
  | .method .close _ => true
  | _ => false

/-- An error that is no fault, unless it is the call through a default output that is `NULL`. -/
def Refusal (V : View ν) (e : Exn) : Prop :=
  ∀ f, e = .fault f → f = .nullAdapter ∧ V.stdOutput = none

theorem refusal_luaError {V : View ν} {s : Str} : Refusal V (.luaError s) := fun _ h => by cases h

theorem refusal_argError {V : View ν} {n : ℤ} {s : Str} : Refusal V (.argError n s) :=
  fun _ h => by cases h

/-- `checkUdata` of a value that is no handle. -/
theorem checkUdata_error {n : ℤ} {v : Option (LuaValue ν)} (h : LuaValue.asHandle v = none) :
    ∃ e, Refusal w.view e ∧ (LuaIOManager.checkUdata n v : Eval ν Os ℕ) w = .error e w := by
  unfold LuaIOManager.checkUdata
  split
  · cases h
  · exact ⟨_, refusal_argError, rfl⟩

namespace LuaIOManager

/-- `io.close` closes its handle, or refuses. -/
theorem close_pointer (args : List (LuaValue ν)) (w : World ν Os) :
    (∃ a, closePointer w.view args = some a ∧ close C args w = LuaFileAdapter.close C a w) ∨
      closePointer w.view args = none ∧ ∃ e, Refusal w.view e ∧ close C args w = .error e w := by
  cases args with
  | nil =>
    cases ha : w.stdOutput with
    | some a =>
      have hstd : stdOutput w = .ok a w := by
        rw [stdOutput, bind_of_ok (get_apply w), ha]
        rfl
      refine .inl ⟨a, ha, ?_⟩
      have hpointer : getFilePointer ([] : List (LuaValue ν)) false w = .ok (a, []) w :=
        bind_of_ok hstd
      exact bind_of_ok hpointer
    | none =>
      have hstd : stdOutput w = .error (.fault .nullAdapter) w := by
        rw [stdOutput, bind_of_ok (get_apply w), ha]
        rfl
      refine .inr ⟨ha, .fault .nullAdapter, fun f hf => by cases hf; exact ⟨rfl, ha⟩, ?_⟩
      have hpointer : getFilePointer ([] : List (LuaValue ν)) false w =
          .error (.fault .nullAdapter) w := bind_of_error hstd
      exact bind_of_error hpointer
  | cons v args =>
    cases ha : LuaValue.asHandle (some v) with
    | some a =>
      cases LuaValue.eq_of_asHandle ha
      exact .inl ⟨a, rfl, rfl⟩
    | none =>
      refine .inr ⟨ha, ?_⟩
      have hpointer : ∃ e, Refusal w.view e ∧ getFilePointer (v :: args) false w = .error e w := by
        obtain ⟨e, he, hcheck⟩ := checkUdata_error (n := 1) (w := w) ha
        rw [getFilePointer]
        split
        · exact ⟨e, he, bind_of_error hcheck⟩
        · exact ⟨_, refusal_luaError, rfl⟩
      obtain ⟨e, he, hpointer⟩ := hpointer
      exact ⟨e, he, bind_of_error hpointer⟩

/-- The method `close` closes its handle, or refuses. -/
theorem thunk_close (args : List (LuaValue ν)) (w : World ν Os) :
    (∃ a, LuaValue.asHandle args.head? = some a ∧
        thunk C l args .close w = LuaFileAdapter.close C a w) ∨
      LuaValue.asHandle args.head? = none ∧
        ∃ e, Refusal w.view e ∧ thunk C l args .close w = .error e w := by
  cases ha : LuaValue.asHandle args.head? with
  | some a =>
    refine .inl ⟨a, rfl, ?_⟩
    rw [thunk, LuaValue.eq_of_asHandle ha]
    rfl
  | none =>
    obtain ⟨e, he, hcheck⟩ := checkUdata_error (n := 1) (w := w) ha
    exact .inr ⟨rfl, e, he, bind_of_error hcheck⟩

end LuaIOManager

/-- **A call of `close`** closes its target, or ends without a change. -/
theorem exec_close (hvm : w.view.vms[l]? = some vm) {act : Action ν} (hact : act.isClose) :
    (∃ a, closeTarget w.view vm act = some a ∧
      exec C w (.action l act) = outcome ((LuaFileAdapter.close C a >>= keep l) w)) ∨
    closeTarget w.view vm act = none ∧ (exec C w (.action l act) = .ok w ∨
      w.view.stdOutput = none ∧ exec C w (.action l act) = .error .nullAdapter) := by
  -- what the call does, from what its function does
  have hcall : ∀ {m : Eval ν Os (List (LuaValue ν))} {t : Option ℕ},
      exec C w (.action l act) = outcome ((m >>= keep l) w) → closeTarget w.view vm act = t →
      ((∃ a, t = some a ∧ m w = LuaFileAdapter.close C a w) ∨
        t = none ∧ ∃ e, Refusal w.view e ∧ m w = .error e w) →
      (∃ a, closeTarget w.view vm act = some a ∧
        exec C w (.action l act) = outcome ((LuaFileAdapter.close C a >>= keep l) w)) ∨
      closeTarget w.view vm act = none ∧ (exec C w (.action l act) = .ok w ∨
        w.view.stdOutput = none ∧ exec C w (.action l act) = .error .nullAdapter) := by
    rintro m t hexec ht (⟨a, ha, hm⟩ | ⟨hnone, e, he, hm⟩)
    · exact .inl ⟨a, ht.trans ha, by rw [hexec, bind_congr_left hm]⟩
    · refine .inr ⟨ht.trans hnone, ?_⟩
      rw [hexec, bind_of_error hm]
      cases e with
      | fault f =>
        obtain ⟨rfl, hnull⟩ := he f rfl
        exact .inr ⟨hnull, rfl⟩
      | luaError s => exact .inl rfl
      | argError n s => exact .inl rfl
  cases act with
  | call g args =>
    cases g with
    | close =>
      refine hcall ?_ rfl (LuaIOManager.close_pointer (args.map (Operand.eval vm)) w)
      rw [exec, perform, bind_of_ok (evalArgs_apply hvm args)]
      rfl
    | _ => cases hact
  | method m args =>
    cases m with
    | close =>
      refine hcall ?_ rfl (LuaIOManager.thunk_close (l := l) (args.map (Operand.eval vm)) w)
      rw [exec, perform, bind_of_ok (evalArgs_apply hvm args)]
    | _ => cases hact
  | _ => cases hact

/-! ## Calls of line iterators -/

/-- No line is left to read. -/
def AtEnd (C : Platform ν Os) (f : ℕ) (w : World ν Os) : Prop :=
  ∃ line w', LuaBoostFile.readLine C f [] w = .ok (false, line) w'

/-- The line iterator closes the file of its handle: it reads from it and is at the end. -/
structure Exhausts (C : Platform ν Os) (w : World ν Os) (it : Iterator ν) (a f : ℕ)
    (y : BoostFile) : Prop where
  upvalue : LuaFileAdapter.upvalueAdapter it.upvalue = some a
  holds : Holds w a f y
  isOpen : y.fileHandle.isSome
  closeFile : it.closeFile = true
  atEnd : AtEnd C f w

/-- The ways in which a call of the line iterator `it` can end. -/
inductive IterateRun (C : Platform ν Os) (l : ℕ) (it : Iterator ν) (w : World ν Os) :
    Except Fault (World ν Os) → Prop
  | foreign (h : LuaFileAdapter.upvalueAdapter it.upvalue = none) :
      IterateRun C l it w (.error .foreignUserdata)
  | dead {a : ℕ} (ha : LuaFileAdapter.upvalueAdapter it.upvalue = some a)
      (h : ¬ w.view.Alive a) : IterateRun C l it w (.error .destroyedAdapter)
  | released {a : ℕ} (ha : LuaFileAdapter.upvalueAdapter it.upvalue = some a)
      (h : w.view.Released a) : IterateRun C l it w (.error .nullHandle)
  | unfinished : IterateRun C l it w (.error .unfinished)
  /-- A line, the end of the file, or an error. -/
  | stays {a f : ℕ} {y : BoostFile} {w' : World ν Os} {vs : List (LuaValue ν)}
      (ha : LuaFileAdapter.upvalueAdapter it.upvalue = some a) (h : Holds w a f y)
      (hvs : AllPlain vs) (hv : w'.view = w.view.keep l vs)
      (hn : ∀ b g z, ¬ Exhausts C w it b g z) : IterateRun C l it w (.ok w')
  | ended {a f : ℕ} {y : BoostFile} {w' : World ν Os} (h : Exhausts C w it a f y)
      (hv : w'.view = (w.view.closeFile f).keep l [.nil]) : IterateRun C l it w (.ok w')

theorem discard_apply {α : Type} {m : Eval ν Os α} {x : α} (h : m w = .ok x w') :
    discard m w = .ok ⟨⟩ w' := by
  change EStateM.map _ m w = _
  rw [EStateM.map, h]

theorem discard_error {α : Type} {m : Eval ν Os α} {e : Exn} (h : m w = .error e w') :
    discard m w = .error e w' := by
  change EStateM.map _ m w = _
  rw [EStateM.map, h]

theorem Holds.unique {g : ℕ} {y z : BoostFile} (h : Holds w a f y) (h' : Holds w a g z) :
    f = g ∧ y = z := by
  obtain ⟨x, hx, -, hf⟩ := h.adapter
  obtain ⟨x', hx', -, hg⟩ := h'.adapter
  cases hx.symm.trans hx'
  cases hf.symm.trans hg
  exact ⟨rfl, Option.some.inj (h.file.symm.trans h'.file)⟩

section

variable {it : Iterator ν} {m : Eval ν Os (List (LuaValue ν))} {w₁ : World ν Os} {y : BoostFile}
  (ha : LuaFileAdapter.upvalueAdapter it.upvalue = some a) (h : Holds w a f y)
  (hn : ∀ b g z, ¬ Exhausts C w it b g z)
include ha h hn

/-- A call that leaves the handles alone. -/
theorem IterateRun.of_ok {vs : List (LuaValue ν)} (hm : m w = .ok vs w₁) (hvs : AllPlain vs)
    (hv : w₁.view = w.view) : IterateRun C l it w (outcome ((m >>= keep l) w)) := by
  obtain ⟨w₂, h₂, hv₂⟩ := keep_apply l vs w₁
  rw [bind_of_ok hm, h₂]
  exact .stays ha h hvs (by rw [hv₂, hv]) hn

/-- A call that raises an error and leaves the handles alone. -/
theorem IterateRun.of_error {e : Exn} (hm : m w = .error e w₁)
    (he : Allowed (· = .unfinished) e) (hv : w₁.view = w.view) :
    IterateRun C l it w (outcome ((m >>= keep l) w)) := by
  rw [bind_of_error hm]
  cases e with
  | fault g =>
    cases he
    exact .unfinished
  | luaError s => exact .stays ha h allPlain_nil (hv.trans (View.keep_nil _ _).symm) hn
  | argError n s => exact .stays ha h allPlain_nil (hv.trans (View.keep_nil _ _).symm) hn

end

namespace LuaFileAdapter

variable {it : Iterator ν} {y : BoostFile}

theorem linesIterator_foreign (ha : upvalueAdapter it.upvalue = none) :
    linesIterator C it w = .error (.fault .foreignUserdata) w := by
  rw [linesIterator, ha]
  rfl

section

variable (ha : upvalueAdapter it.upvalue = some a)
include ha

theorem linesIterator_dead (h : ¬ w.view.Alive a) :
    linesIterator C it w = .error (.fault .destroyedAdapter) w := by
  rw [linesIterator, ha]
  exact bind_of_error (handle_dead h)

theorem linesIterator_released (h : w.view.Released a) :
    linesIterator C it w = .error (.fault .nullHandle) w := by
  obtain ⟨x, hx, hd, hf⟩ := h
  rw [linesIterator, ha]
  dsimp only
  rw [bind_of_ok (handle_apply hx hd), hf]
  rfl

/-- What the iterator does once it has the file. -/
theorem linesIterator_holds (h : Holds w a f y) :
    linesIterator C it w = (if !y.fileHandle.isSome then luaError (Str.ascii "file is closed") else
      LuaBoostFile.readLine C f [] >>= fun r =>
        if r.1 then pure [.string (cstr r.2)] else
          onlyIf it.closeFile (discard (LuaBoostFile.close C f)) >>= fun _ => pure [.nil]) w := by
  obtain ⟨x, hx, hd, hf⟩ := h.adapter
  rw [linesIterator, ha]
  dsimp only
  rw [bind_of_ok (handle_apply hx hd), hf]
  dsimp only
  rw [bind_of_ok (LuaBoostFile.isOpen_apply h.view_file h.live)]
  rfl

theorem linesIterator_shut (h : Holds w a f y) (hopen : y.fileHandle = none) :
    linesIterator C it w = .error (.luaError (Str.ascii "file is closed")) w := by
  rw [linesIterator_holds ha h, hopen]
  rfl

theorem linesIterator_open (h : Holds w a f y) (hopen : y.fileHandle.isSome) :
    linesIterator C it w = (LuaBoostFile.readLine C f [] >>= fun r =>
      if r.1 then pure [.string (cstr r.2)] else
        onlyIf it.closeFile (discard (LuaBoostFile.close C f)) >>= fun _ => pure [.nil]) w := by
  rw [linesIterator_holds ha h, hopen]
  rfl

end

end LuaFileAdapter

/-- Calling a line iterator over an open file. -/
theorem iterateRun_open {it : Iterator ν} {y : BoostFile}
    (ha : LuaFileAdapter.upvalueAdapter it.upvalue = some a) (h : Holds w a f y)
    (hopen : y.fileHandle.isSome) :
    IterateRun C l it w (outcome ((LuaFileAdapter.linesIterator C it >>= keep l) w)) := by
  have hiter := LuaFileAdapter.linesIterator_open (C := C) ha h hopen
  have hread : Calm (· = .unfinished) w.view (LuaBoostFile.readLine C f []) :=
    LuaBoostFile.calm_readLine (F := (· = .unfinished)) rfl (h.usable hopen) []
  -- the iterator closes the file only when `readLine` fails
  have hexhausts : ∀ {b g z}, Exhausts C w it b g z → AtEnd C f w ∧ it.closeFile = true := by
    intro b g z hz
    cases ha.symm.trans hz.upvalue
    exact ⟨(h.unique hz.holds).1 ▸ hz.atEnd, hz.closeFile⟩
  cases hr : LuaBoostFile.readLine C f [] w with
  | error e w₁ =>
    obtain ⟨hv, he⟩ := hread.error hr
    refine .of_error ha h (fun b g z hz => ?_) (hiter.trans (bind_of_error hr)) he hv
    obtain ⟨line, w₂, h₂⟩ := (hexhausts hz).1
    cases hr.symm.trans h₂
  | ok r w₁ =>
    obtain ⟨hv, -⟩ := hread.ok hr
    obtain ⟨success, line⟩ := r
    rw [bind_of_ok hr] at hiter
    cases success with
    | true =>
      refine .of_ok ha h (fun b g z hz => ?_) hiter (List.forall_mem_singleton.2 rfl) hv
      obtain ⟨line, w₂, h₂⟩ := (hexhausts hz).1
      cases hr.symm.trans h₂
    | false =>
      cases hclose : it.closeFile with
      | false =>
        rw [hclose] at hiter
        refine .of_ok ha h (fun b g z hz => ?_) hiter (List.forall_mem_singleton.2 rfl) hv
        simpa [hclose] using hz.closeFile
      | true =>
        have hfile : w₁.view.files[f]? = some y.view := hv ▸ h.view_file
        obtain ⟨z, hz, hzy⟩ := exists_file hfile
        have hzd : z.deleted = false := (congrArg FileView.deleted hzy).trans h.live
        obtain ⟨w₂, h₂, hv₂⟩ := LuaBoostFile.close_apply (C := C) hz hzd
        obtain ⟨w₃, h₃, hv₃⟩ := keep_apply l [.nil] w₂
        rw [hclose] at hiter
        have hdone : LuaFileAdapter.linesIterator C it w = .ok [.nil] w₂ :=
          hiter.trans (bind_of_ok (discard_apply h₂))
        rw [bind_of_ok hdone, h₃]
        exact .ended ⟨ha, h, hopen, hclose, line, w₁, hr⟩ (by rw [hv₃, hv₂, hv])

/-- Calling a line iterator ends in one of these ways. -/
theorem iterateRun (hok : w.view.Ok) (l : ℕ) (it : Iterator ν) :
    IterateRun C l it w (outcome ((LuaFileAdapter.linesIterator C it >>= keep l) w)) := by
  cases ha : LuaFileAdapter.upvalueAdapter it.upvalue with
  | none =>
    rw [bind_of_error (LuaFileAdapter.linesIterator_foreign ha)]
    exact .foreign ha
  | some a =>
    rcases hok.handle_cases a with hdead | hreleased | ⟨f, y, h⟩
    · rw [bind_of_error (LuaFileAdapter.linesIterator_dead ha hdead)]
      exact .dead ha hdead
    · rw [bind_of_error (LuaFileAdapter.linesIterator_released ha hreleased)]
      exact .released ha hreleased
    · cases hopen : y.fileHandle with
      | none =>
        refine .of_error ha h (fun b g z hz => ?_)
          (LuaFileAdapter.linesIterator_shut ha h hopen) trivial rfl
        cases ha.symm.trans hz.upvalue
        have hyz := (h.unique hz.holds).2
        simpa [← hyz, hopen] using hz.isOpen
      | some s => exact iterateRun_open ha h (by simp [hopen])

/-- The line iterator that a value is. -/
def calledIterator (vm : Vm ν) : LuaValue ν → Option (Iterator ν)
  | .iterator i => vm.iterators[i]?
  | _ => none

/-- A script calls line iterators that it holds. -/
theorem calledIterator_accessible {o : Operand ν} {it : Iterator ν}
    (h : calledIterator vm (o.eval vm) = some it) :
    ∃ i, vm.Accessible (.iterator i) ∧ vm.iterators[i]? = some it := by
  cases hv : o.eval vm with
  | iterator i =>
    rw [hv] at h
    refine ⟨i, ?_, h⟩
    have hknown : vm.Known (fun _ => False) (o.eval vm) := Vm.known_eval o
    rcases hknown with hacc | hfresh
    · exact hv ▸ hacc
    · rw [hv] at hfresh
      cases hfresh with
      | plain h => cases h
      | iterator => simp [calledIterator] at h
  | _ =>
    rw [hv] at h
    cases h

/-- A call of a line iterator, or of another value. -/
theorem exec_iterate (hvm : w.view.vms[l]? = some vm) (o : Operand ν) :
    (∃ it, calledIterator vm (o.eval vm) = some it ∧ exec C w (.action l (.iterate o)) =
      outcome ((LuaFileAdapter.linesIterator C it >>= keep l) w)) ∨
    calledIterator vm (o.eval vm) = none ∧ exec C w (.action l (.iterate o)) = .ok w := by
  have hperform : perform C l (.iterate o) w = _ := bind_of_ok (vmOf_apply hvm)
  cases hv : o.eval vm with
  | iterator i =>
    cases hi : vm.iterators[i]? with
    | none =>
      rw [hv] at hperform
      simp only [hi] at hperform
      exact .inr ⟨hi, congrArg outcome hperform⟩
    | some it =>
      rw [hv] at hperform
      simp only [hi] at hperform
      exact .inl ⟨it, hi, congrArg outcome hperform⟩
  | _ =>
    rw [hv] at hperform
    exact .inr ⟨rfl, congrArg outcome hperform⟩

end Jord.Io
