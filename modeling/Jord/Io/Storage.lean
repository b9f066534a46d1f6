import Jord.Io.CountedReading
import Jord.Io.Opening
import Jord.Io.StreamOperations

/-!
# Files that are written and read back

A script that opens a file, writes to it through its handle and closes it, opens it again and reads
all of it. Each call is in an `assert`, so that the script ends with the first that fails.

* `Storage C saved out file` is what the C standard says of a file that is written, closed, opened
  again and read.
* `saveAndLoad_write` and `saveAndLoad_append`: what is read is what an `OutputStream` holds after
  the operations, if they are accepted and no call of the C library fails, and otherwise the script
  ends with an error, or with the exception that `boost::filesystem::exists` throws before the file
  is opened again.
-/

namespace Jord.Io

open Program

variable {ν Os : Type} {C : Platform ν Os} {w w' : World ν Os} {a f l : ℕ} {s : Stream}
  {out : Stream → Os → OutputStream} {file : Stream → Os → InputStream} {saved : Str → Os → Str}
  {ops : List (StreamOp ν)}

/-! ## The script -/

/-- `luaB_assert` -/
def luaAssert (C : Platform ν Os) : List (LuaValue ν) → Eval ν Os (List (LuaValue ν))
  | [] => argError 1 (Str.ascii "value expected")
  | .nil :: vs => do
    luaError (cstr (← optLString C 2 vs.head? (Str.ascii "assertion failed!")))
  | .boolean false :: vs => do
    luaError (cstr (← optLString C 2 vs.head? (Str.ascii "assertion failed!")))
  | v :: vs => return v :: vs

/-- The modes in which a script opens a file to write to it. -/
inductive OutputMode
  | write
  | append

/-- The mode, as `io.open` is passed it. -/
def OutputMode.name : OutputMode → Str
  | write => Str.ascii "w"
  | append => Str.ascii "a"

/-- `assert( io.open( name, mode ) )` -/
def openHandle (C : Platform ν Os) (l : ℕ) (name : LuaValue ν) (mode : Str) : Eval ν Os ℕ := do
  let vs ← luaAssert C (← LuaIOManager.open_ C l [name, .string mode])
  LuaIOManager.checkUdata 1 vs.head?

/-- The operations, one after the other. -/
def assertOps (C : Platform ν Os) (a : ℕ) : List (StreamOp ν) → Eval ν Os Unit
  | [] => return
  | op :: ops => do
    let _ ← luaAssert C (← op.run C a)
    assertOps C a ops

/-- The script. -/
def saveAndLoad (C : Platform ν Os) (l : ℕ) (name : LuaValue ν) (mode : OutputMode)
    (ops : List (StreamOp ν)) : Eval ν Os (List (LuaValue ν)) := do
  let a ← openHandle C l name mode.name
  assertOps C a ops
  let _ ← luaAssert C (← LuaFileAdapter.close C a)
  let b ← openHandle C l name (Str.ascii "r")
  LuaFileAdapter.read C b [.string (Str.ascii "*a")]

/-! ## The C library -/

/-- The stream with which a file is opened; `content` is what the file holds before. -/
def OutputMode.Begins (content : Str) : OutputMode → OutputStream → Prop
  | write, F => F = .empty
  | append, F => F.content = content ∧ F.append = true

/-- Files behave as the C standard says, and reading them meets no input error; `saved` is what they
hold while they are closed. -/
structure Storage (C : Platform ν Os) (saved : Str → Os → Str) (out : Stream → Os → OutputStream)
    (file : Stream → Os → InputStream) : Prop where
  create : ∀ path (mode : OutputMode) os s, (C.fopen path mode.name os).1 = some s →
    Writes C s (out s) ∧ mode.Begins (saved path os) (out s (C.fopen path mode.name os).2)
  close : ∀ path (mode : OutputMode) os s cs, (C.fopen path mode.name os).1 = some s →
    (runCalls C s cs (C.fopen path mode.name os).2).1 = true →
      (C.fclose s (runCalls C s cs (C.fopen path mode.name os).2).2).1 = true →
        saved path (C.fclose s (runCalls C s cs (C.fopen path mode.name os).2).2).2 =
          (out s (runCalls C s cs (C.fopen path mode.name os).2).2).content
  exists_ : ∀ path os, saved path (C.exists_ path os).2 = saved path os
  load : ∀ path os s, (C.fopen path (Str.ascii "r") os).1 = some s → Reads C s (file s) ∧
    (file s (C.fopen path (Str.ascii "r") os).2).rest = saved path os

/-! ## Steps of the script -/

/-- The program raises an error that is no fault. -/
def Raises {α : Type} (m : Eval ν Os α) (w : World ν Os) : Prop :=
  ∃ e w', m w = .error e w' ∧ ∀ g, e ≠ .fault g

section Raises

variable {α β : Type} {m : Eval ν Os α} {k : α → Eval ν Os β}

theorem Raises.luaError {message : Str} (h : m w = .error (.luaError message) w') : Raises m w :=
  ⟨_, w', h, fun _ hg => by cases hg⟩

theorem Raises.argError {n : ℤ} {message : Str} (h : m w = .error (.argError n message) w') :
    Raises m w := ⟨_, w', h, fun _ hg => by cases hg⟩

theorem Raises.bind (h : Raises m w) : Raises (m >>= k) w := by
  obtain ⟨e, w', hm, he⟩ := h
  exact ⟨e, w', bind_of_error hm, he⟩

theorem Raises.bind_ok {x : α} (hm : m w = .ok x w') (h : Raises (k x) w') :
    Raises (m >>= k) w := by
  obtain ⟨e, w'', hk, he⟩ := h
  exact ⟨e, w'', (bind_of_ok hm).trans hk, he⟩

end Raises

/-- `assert` of the error triple. -/
theorem luaAssert_triple {vs : List (LuaValue ν)} (h : IsTriple vs) (w : World ν Os) :
    Raises (luaAssert C vs) w := by
  obtain ⟨message, code, rfl⟩ := h
  have hrun : luaAssert C [.nil, .string message, .number code] w =
      .error (.luaError (cstr message)) w := rfl
  exact .luaError hrun

theorem OutputMode.cstr_name (mode : OutputMode) : cstr mode.name = mode.name := by
  cases mode <;> rfl

theorem openMode_string (name : LuaValue ν) (mode : Str) :
    openMode C [name, .string mode] = some mode := rfl

/-- `io.open` of a name, for which `fopen` gives the stream of the new file. -/
theorem LuaIOManager.open_apply {name : LuaValue ν} {path : Str}
    (hname : LuaValue.toLString C (some name) = some path) {mode : Str}
    (hthrows : ¬ ExistsThrows C (cstr path) mode w.os) (l : ℕ) {os : Os}
    (hos : searched C (cstr path) mode w.os = os) :
    ∃ (x : BoostFile) (w₀ : World ν Os), w₀.adapters = w.adapters ∧ w₀.os = os ∧
      x.fileHandle = (C.fopen (cstr path) (cstr mode) os).1 ∧
      x.view = ⟨(C.fopen (cstr path) (cstr mode) os).1.isSome, true, false, false⟩ ∧
      open_ C l [name, .string mode] w =
        (if !x.fileHandle.isSome then
          LuaFileAdapter.reportError C w.adapters.length (Str.ascii "failed to open a file")
        else pure [.handle w.adapters.length])
          (w₀.addOpen l (C.fopen (cstr path) (cstr mode) os).2 x) := by
  subst hos
  let w₀ := { w with os := searched C (cstr path) mode w.os }
  obtain ⟨x, w₁, hs, hx, h₁, -, h₂⟩ := construct_create (C := C) (cstr path) (cstr mode) l w₀
  have hd : x.deleted = false := congrArg FileView.deleted hx
  have hisOpen : LuaBoostFile.isOpen w.files.length
      (w₀.addOpen l (C.fopen (cstr path) (cstr mode) w₀.os).2 x) = .ok x.fileHandle.isSome _ :=
    bind_of_ok (LuaBoostFile.object_apply (addOpen_holds w₀ l _ hd).file hd)
  refine ⟨x, w₀, rfl, rfl, hs, hx, ?_⟩
  have hfirst : LuaValue.toLString C [name, .string mode][0]? = some path := hname
  rw [open_args hfirst (openMode_string name mode),
    bind_of_ok (search_run hthrows), bind_of_ok h₁, bind_of_ok h₂, bind_of_ok hisOpen]

/-- The handle has a file of its own, which has the stream. -/
structure OwnsStream (w : World ν Os) (a f : ℕ) (s : Stream) (y : BoostFile) : Prop where
  holds : Holds w a f y
  stream : y.fileHandle = some s
  view : y.view = ⟨true, true, false, false⟩

theorem OwnsStream.opened {y : BoostFile} (h : OwnsStream w a f s y) : Opened w a f s :=
  ⟨h.holds.adapter, y, h.holds.file, h.holds.live, h.stream⟩

theorem OwnsStream.congr {y : BoostFile} (h : OwnsStream w a f s y) (hw : w'.heap = w.heap) :
    ∃ z, OwnsStream w' a f s z := by
  have hfile : w'.heap.files[f]? = w.heap.files[f]? := by rw [hw]
  rw [heap_files, heap_files, h.holds.file] at hfile
  obtain ⟨z, hz, hzy⟩ := Option.map_eq_some_iff.1 hfile
  refine ⟨z, ⟨(h.opened.congr hw).adapter, hz, ?_⟩, ?_, ?_⟩
  · exact (congrArg BoostFile.deleted hzy).trans h.holds.live
  · exact (congrArg BoostFile.fileHandle hzy).trans h.stream
  · have hview := congrArg BoostFile.view hzy
    exact hview.trans h.view

/-- A handle that the script gets is one of a file that has just been opened, unless an exception
leaves `io.open`. -/
theorem openHandle_cases {name : LuaValue ν} {path : Str}
    (hname : LuaValue.toLString C (some name) = some path) {mode : Str}
    (hthrows : ¬ ExistsThrows C (cstr path) mode w.os) (l : ℕ) {os : Os}
    (hos : searched C (cstr path) mode w.os = os) :
    (∃ s w' f y, (C.fopen (cstr path) (cstr mode) os).1 = some s ∧
        openHandle C l name mode w = .ok w.adapters.length w' ∧
        w'.os = (C.fopen (cstr path) (cstr mode) os).2 ∧ OwnsStream w' w.adapters.length f s y) ∨
      ((C.fopen (cstr path) (cstr mode) os).1 = none ∧ Raises (openHandle C l name mode) w) := by
  obtain ⟨x, w₀, hadapters, hos₀, hs, hx, hrun⟩ := LuaIOManager.open_apply hname hthrows l hos
  have hd : x.deleted = false := congrArg FileView.deleted hx
  have hholds := addOpen_holds w₀ l (C.fopen (cstr path) (cstr mode) os).2 hd
  rw [← hadapters] at hrun ⊢
  cases hopen : (C.fopen (cstr path) (cstr mode) os).1 with
  | none =>
    rw [hopen] at hs
    obtain ⟨vs, hreport, htriple⟩ := LuaFileAdapter.reportError_apply (C := C) hholds
      (Str.ascii "failed to open a file")
    rw [hs] at hrun
    exact .inr ⟨rfl, .bind_ok (hrun.trans hreport) (.bind (luaAssert_triple htriple _))⟩
  | some s =>
    rw [hopen] at hs hx
    rw [hs] at hrun
    exact .inl ⟨s, _, w₀.files.length, x, rfl, (bind_of_ok hrun).trans rfl, rfl, hholds, hs, hx⟩

theorem openHandle_throws {name : LuaValue ν} {path mode : Str}
    (hname : LuaValue.toLString C (some name) = some path)
    (hthrows : ExistsThrows C (cstr path) mode w.os) (l : ℕ) :
    ∃ w', openHandle C l name mode w = .error (.fault .exception) w' := by
  have hfirst : LuaValue.toLString C [name, .string mode][0]? = some path := hname
  obtain ⟨w', hw'⟩ := LuaIOManager.open_throws hfirst (openMode_string name mode) hthrows l
  exact ⟨w', bind_of_error hw'⟩

theorem OutputMode.not_throws (mode : OutputMode) (path : Str) (os : Os) :
    ¬ ExistsThrows C path mode.name os ∧ searched C path mode.name os = os := by
  cases mode <;> exact ⟨fun h => absurd h.1 (by decide), if_neg (by decide)⟩

/-- `close` of a handle with a file of its own. -/
theorem LuaFileAdapter.close_cases {y : BoostFile} (h : OwnsStream w a f s y) :
    (∃ w', (C.fclose s w.os).1 = true ∧ close C a w = .ok [.boolean true] w' ∧
        w'.os = (C.fclose s w.os).2) ∨
      ((C.fclose s w.os).1 = false ∧ Raises (close C a) w) := by
  obtain ⟨x, hx, hd, hf⟩ := h.holds.adapter
  have howns : y.ownsFile = true := congrArg FileView.ownsFile h.view
  have hstd : y.isStdFile = false := congrArg FileView.isStdFile h.view
  have hcloses : LuaBoostFile.closes C y w.os = (C.fclose s w.os).1 := by
    rw [LuaBoostFile.closes, howns, h.stream]
  cases hc : (C.fclose s w.os).1 with
  | false =>
    obtain ⟨w', hw', -⟩ :=
      close_error (C := C) hx hd hf h.holds.file h.holds.live (hcloses.trans hc)
    exact .inr ⟨rfl, .luaError hw'⟩
  | true =>
    let w₁ : World ν Os := { w with
      os := (C.fclose s w.os).2
      files := w.files.modify f fun x => { x with fileHandle := none } }
    have hclose : LuaBoostFile.close C f w = .ok true w₁ := by
      have hfclose : LuaBoostFile.fclose C y w = .ok true { w with os := (C.fclose s w.os).2 } := by
        have hcall : sys (C.fclose s) w = .ok (C.fclose s w.os).1
          { w with os := (C.fclose s w.os).2 } := rfl
        rw [hc] at hcall
        rw [LuaBoostFile.fclose, howns, h.stream]
        exact hcall
      rw [LuaBoostFile.close, bind_of_ok (LuaBoostFile.object_apply h.holds.file h.holds.live),
        bind_of_ok hfclose]
      rfl
    let w₂ : World ν Os := { w₁ with openedFilesCount := w.openedFilesCount + -1 }
    have hfile : w₂.files[f]? = some { y with fileHandle := none } := by
      change (w.files.modify f _)[f]? = _
      rw [List.getElem?_modify_eq, h.holds.file]
      rfl
    have hisStd : LuaBoostFile.isStdFile f w₂ = .ok y.isStdFile w₂ := by
      have hobject := LuaBoostFile.object_apply hfile h.holds.live
      rw [LuaBoostFile.isStdFile, bind_of_ok hobject]
      rfl
    have hdelete : ∃ w₃, LuaBoostFile.delete C f w₂ = .ok ⟨⟩ w₃ ∧ w₃.os = w₂.os := by
      refine ⟨{ w₂ with files := w₂.files.modify f fun x => { x with deleted := true } }, ?_, rfl⟩
      have hlive := h.holds.live
      rw [LuaBoostFile.delete, bind_of_ok (get_apply w₂), hfile]
      simp only [hlive, Bool.false_eq_true, if_false]
      rw [LuaBoostFile.fclose, howns]
      rfl
    obtain ⟨w₃, h₃, hos₃⟩ := hdelete
    refine .inl ⟨{ w₃ with
      adapters := w₃.adapters.modify a fun x => { x with fileHandle := none } }, rfl, ?_, hos₃⟩
    have hcount : count (-1) w₁ = .ok ⟨⟩ w₂ := rfl
    rw [close, bind_of_ok (handle_apply hx hd), hf]
    dsimp only
    rw [bind_of_ok hclose, if_neg (by decide), bind_of_ok hcount, bind_of_ok hisStd, hstd]
    exact bind_of_ok h₃

theorem eq_ok_of_answer {r : EStateM.Result Exn (World ν Os) (List (LuaValue ν))}
    {vs : List (LuaValue ν)} (h : answer r = (.ok vs, w')) : r = .ok vs w' := by
  cases r with
  | ok vs' w₁ => cases h; rfl
  | error e w₁ => cases h

theorem eq_error_of_answer {r : EStateM.Result Exn (World ν Os) (List (LuaValue ν))} {e : Exn}
    (h : answer r = (.error e, w')) : r = .error e w' := by
  cases r with
  | ok vs w₁ => cases h
  | error e' w₁ => cases h; rfl

theorem luaAssert_returns {F : OutputStream} {op : StreamOp ν} {v : LuaValue ν}
    {os : Os} (hv : op.Returns C s os F v) (w : World ν Os) : luaAssert C [v] w = .ok [v] w := by
  cases hv <;> rfl

/-- The operations are accepted, and the calls of the C library that they make succeed. -/
structure Performed (C : Platform ν Os) (s : Stream) (ops : List (StreamOp ν)) (os : Os) :
    Prop where
  valid : ∀ op ∈ ops, op.Valid C
  calls : (runCalls C s (ops.flatMap (StreamOp.calls C)) os).1 = true

theorem performed_cons {op : StreamOp ν} {os : Os} : Performed C s (op :: ops) os ↔
    op.Valid C ∧ (runCalls C s (op.calls C) os).1 = true ∧
      Performed C s ops (runCalls C s (op.calls C) os).2 := by
  have hcalls : (runCalls C s ((op :: ops).flatMap (StreamOp.calls C)) os).1 = true ↔
      (runCalls C s (op.calls C) os).1 = true ∧ (runCalls C s (ops.flatMap (StreamOp.calls C))
        (runCalls C s (op.calls C) os).2).1 = true := by
    rw [List.flatMap_cons, runCalls_append]
    cases hop : (runCalls C s (op.calls C) os).1 with
    | true => simp
    | false => simp [hop]
  constructor
  · rintro ⟨hvalid, hall⟩
    obtain ⟨hop, hops⟩ := List.forall_mem_cons.1 hvalid
    exact ⟨hop, (hcalls.1 hall).1, hops, (hcalls.1 hall).2⟩
  · rintro ⟨hop, hfirst, hops, hrest⟩
    exact ⟨List.forall_mem_cons.2 ⟨hop, hops⟩, hcalls.2 ⟨hfirst, hrest⟩⟩

/-- The operations pass their assertions exactly if they are performed. -/
theorem assertOps_cases {out : Os → OutputStream} (hW : Writes C s out) (h : Opened w a f s)
    (ops : List (StreamOp ν)) :
    (∃ w', Performed C s ops w.os ∧ assertOps C a ops w = .ok ⟨⟩ w' ∧
        Leads w (runCalls C s (ops.flatMap (StreamOp.calls C)) w.os).2 w') ∨
      (¬ Performed C s ops w.os ∧ Raises (assertOps C a ops) w) := by
  induction ops generalizing w with
  | nil => exact .inl ⟨w, ⟨List.forall_mem_nil _, rfl⟩, rfl, rfl, rfl⟩
  | cons op ops ih =>
    obtain ⟨r, w₁, hrun, hleads, hr⟩ := StreamOp.run_performs hW h op
    rw [performed_cons, List.flatMap_cons, runCalls_append]
    generalize runCalls C s (op.calls C) w.os = call at hleads hr ⊢
    obtain ⟨good, os₁⟩ := call
    obtain ⟨hheap, rfl⟩ := hleads
    cases hr with
    | returns hop hv =>
      have hok := eq_ok_of_answer hrun
      have hassert := luaAssert_returns hv w₁
      rcases ih (h.congr hheap) with ⟨w', hperformed, hrest, hleads⟩ | ⟨hnot, hraises⟩
      · refine .inl ⟨w', ⟨hop, rfl, hperformed⟩, ?_, hleads.heap.trans hheap, hleads.os⟩
        rw [assertOps, bind_of_ok hok, bind_of_ok hassert, hrest]
      · exact .inr ⟨fun h => hnot h.2.2, .bind_ok hok (.bind_ok hassert hraises)⟩
    | fails hop hvs =>
      refine .inr ⟨fun h => Bool.false_ne_true h.2.1, ?_⟩
      exact .bind_ok (eq_ok_of_answer hrun) (.bind (luaAssert_triple hvs w₁))
    | refused hop =>
      exact .inr ⟨fun h => hop h.1, .bind (.argError (eq_error_of_answer hrun))⟩

/-! ## The round trip -/

/-- The state after the file has been written and closed. -/
def closedState (C : Platform ν Os) (path : Str) (mode : OutputMode) (ops : List (StreamOp ν))
    (os : Os) (s : Stream) : Os :=
  (C.fclose s (runCalls C s (ops.flatMap (StreamOp.calls C)) (C.fopen path mode.name os).2).2).2

/-- The calls of the C library that write the file succeed, for the stream `s`, and the operations
are accepted. -/
structure Saves (C : Platform ν Os) (path : Str) (mode : OutputMode) (ops : List (StreamOp ν))
    (os : Os) (s : Stream) : Prop where
  create : (C.fopen path mode.name os).1 = some s
  performed : Performed C s ops (C.fopen path mode.name os).2
  close : (C.fclose s (runCalls C s (ops.flatMap (StreamOp.calls C))
    (C.fopen path mode.name os).2).2).1 = true

/-- The file is written, and opened again. -/
def Succeeds (C : Platform ν Os) (path : Str) (mode : OutputMode) (ops : List (StreamOp ν))
    (os : Os) : Prop :=
  ∃ s t, Saves C path mode ops os s ∧
    ¬ ExistsThrows C path (Str.ascii "r") (closedState C path mode ops os s) ∧
    (C.fopen path (Str.ascii "r")
      (searched C path (Str.ascii "r") (closedState C path mode ops os s))).1 = some t

/-- The file is written, and `boost::filesystem::exists` throws before it is opened again. -/
def Throws (C : Platform ν Os) (path : Str) (mode : OutputMode) (ops : List (StreamOp ν))
    (os : Os) : Prop :=
  ∃ s, Saves C path mode ops os s ∧
    ExistsThrows C path (Str.ascii "r") (closedState C path mode ops os s)

/-- What the script comes to: the content of the file, an exception, or an error. -/
structure EndsWith (C : Platform ν Os) (l : ℕ) (name : LuaValue ν) (path : Str) (mode : OutputMode)
    (ops : List (StreamOp ν)) (w : World ν Os) (content : Str) : Prop where
  succeeds : Succeeds C path mode ops w.os →
    ∃ w', saveAndLoad C l name mode ops w = .ok [.string content] w'
  throws : Throws C path mode ops w.os →
    ∃ w', saveAndLoad C l name mode ops w = .error (.fault .exception) w'
  raises : ¬ Succeeds C path mode ops w.os → ¬ Throws C path mode ops w.os →
    Raises (saveAndLoad C l name mode ops) w

/-- A file that is not written. -/
theorem EndsWith.not_saves {name : LuaValue ν} {path content : Str} {mode : OutputMode}
    (h : ∀ s, ¬ Saves C path mode ops w.os s)
    (hraises : Raises (saveAndLoad C l name mode ops) w) :
    EndsWith C l name path mode ops w content where
  succeeds := fun ⟨s, _, hs, _⟩ => absurd hs (h s)
  throws := fun ⟨s, hs, _⟩ => absurd hs (h s)
  raises _ _ := hraises

theorem Saves.unique {path : Str} {mode : OutputMode} {os : Os} {t : Stream}
    (hs : Saves C path mode ops os s) (ht : Saves C path mode ops os t) : t = s :=
  Option.some.inj (ht.create.symm.trans hs.create)

/-- The first half of the script: the file is written and closed, or there is an error. -/
theorem save_cases (hS : Storage C saved out file) {name : LuaValue ν} {path : Str}
    (hname : LuaValue.toLString C (some name) = some path) (l : ℕ) (mode : OutputMode)
    (ops : List (StreamOp ν)) (w : World ν Os) {content : Str}
    (hcontent : ∀ F, mode.Begins (saved (cstr path) w.os) F →
      (ops.foldl (StreamOp.effect C) F).content = content) :
    (∃ s w', Saves C (cstr path) mode ops w.os s ∧
        w'.os = closedState C (cstr path) mode ops w.os s ∧ saved (cstr path) w'.os = content ∧
        saveAndLoad C l name mode ops w = (openHandle C l name (Str.ascii "r") >>= fun b =>
          LuaFileAdapter.read C b [.string (Str.ascii "*a")]) w') ∨
      ((∀ s, ¬ Saves C (cstr path) mode ops w.os s) ∧
        Raises (saveAndLoad C l name mode ops) w) := by
  obtain ⟨hnot, hsearched⟩ := mode.not_throws (C := C) (cstr path) w.os
  rcases openHandle_cases (C := C) hname hnot l hsearched with
    ⟨s, w₁, f, y, hopen, hrun₁, hos₁, howns⟩ | ⟨hnone, hraises⟩
  rotate_left
  · rw [mode.cstr_name] at hnone
    exact .inr ⟨fun s hs => (Option.some_ne_none s) (hs.create.symm.trans hnone), hraises.bind⟩
  rw [mode.cstr_name] at hopen hos₁
  obtain ⟨hW, hbegins⟩ := hS.create _ mode _ _ hopen
  rw [← hos₁] at hbegins
  rcases assertOps_cases hW howns.opened ops with ⟨w₂, hperformed, hrun₂, hleads⟩ |
    ⟨hunperformed, hraises⟩
  rotate_left
  · refine .inr ⟨fun t ht => ?_, .bind_ok hrun₁ hraises.bind⟩
    obtain rfl := Option.some.inj (ht.create.symm.trans hopen)
    exact hunperformed (hos₁ ▸ ht.performed)
  have hstream := hW.runCalls hperformed.calls
  have hcalls := hperformed.calls
  rw [List.foldl_flatMap] at hstream
  rw [hos₁] at hcalls
  have hos₂ := hleads.os
  rw [hos₁] at hos₂
  obtain ⟨z, howns₂⟩ := howns.congr hleads.heap
  rcases LuaFileAdapter.close_cases (C := C) howns₂ with ⟨w₃, hclosed, hrun₃, hos₃⟩ |
    ⟨hfalse, hraises⟩
  rotate_left
  · refine .inr ⟨fun t ht => ?_, .bind_ok hrun₁ (.bind_ok hrun₂ hraises.bind)⟩
    obtain rfl := Option.some.inj (ht.create.symm.trans hopen)
    rw [hos₂] at hfalse
    exact Bool.false_ne_true (hfalse.symm.trans ht.close)
  have hassert : luaAssert C [.boolean true] w₃ = .ok [.boolean true] w₃ := rfl
  rw [hos₂] at hclosed hos₃
  refine .inl ⟨s, w₃, ⟨hopen, hos₁ ▸ hperformed, hclosed⟩, hos₃, ?_, ?_⟩
  · rw [hos₃, hS.close _ mode _ _ _ hopen hcalls hclosed, ← hos₁, hstream]
    exact hcontent _ hbegins
  · rw [saveAndLoad, bind_of_ok hrun₁, bind_of_ok hrun₂, bind_of_ok hrun₃, bind_of_ok hassert]

/-- The script reads what its stream holds after the operations. -/
theorem saveAndLoad_ends (hS : Storage C saved out file) (hb : 1 ≤ C.bufferSize)
    (hstar : C.str2number (Str.ascii "*a") = none) {name : LuaValue ν} {path : Str}
    (hname : LuaValue.toLString C (some name) = some path) (l : ℕ) (mode : OutputMode)
    (ops : List (StreamOp ν)) (w : World ν Os) {content : Str} (hrounds : content.length < C.rounds)
    (hcontent : ∀ F, mode.Begins (saved (cstr path) w.os) F →
      (ops.foldl (StreamOp.effect C) F).content = content) :
    EndsWith C l name (cstr path) mode ops w content := by
  rcases save_cases hS hname l mode ops w hcontent with ⟨s, w₁, hsaves, hos₁, hsaved, hrun⟩ |
    ⟨hnot, hraises⟩
  rotate_left
  · exact .not_saves hnot hraises
  by_cases hthrows : ExistsThrows C (cstr path) (Str.ascii "r") w₁.os
  · obtain ⟨w₂, hw₂⟩ := openHandle_throws hname hthrows l
    rw [hos₁] at hthrows
    refine ⟨?_, fun _ => ⟨w₂, by rw [hrun, bind_of_error hw₂]⟩, fun _ h =>
      absurd ⟨s, hsaves, hthrows⟩ h⟩
    rintro ⟨s', t, hs', hnot, -⟩
    obtain rfl := hsaves.unique hs'
    exact absurd hthrows hnot
  have hnever : ¬ Throws C (cstr path) mode ops w.os := by
    rintro ⟨s', hs', h⟩
    obtain rfl := hsaves.unique hs'
    exact hthrows (hos₁ ▸ h)
  rcases openHandle_cases (C := C) hname hthrows l rfl with
    ⟨t, w₂, g, x, hload, hrun₂, hos₂, howns⟩ | ⟨hnone, hraises⟩
  · obtain ⟨hR, hrest⟩ := hS.load _ _ _ hload
    have hfile : (file t w₂.os).rest = content := by
      rw [hos₂]
      refine hrest.trans (Eq.trans ?_ hsaved)
      rw [searched, if_pos (by decide), hS.exists_]
    have hletter : IsLetter C 97 (.string (Str.ascii "*a") : LuaValue ν) := ⟨hstar, [], rfl⟩
    obtain ⟨w₃, hread, -, -⟩ :=
      read_all hR hb howns.opened (by rw [hfile]; exact hrounds) hletter
    rw [hfile] at hread
    refine ⟨fun _ => ⟨w₃, by rw [hrun, bind_of_ok hrun₂, hread]⟩, fun h => absurd h hnever,
      fun h => absurd ⟨s, t, hsaves, hos₁ ▸ hthrows, ?_⟩ h⟩
    rw [← hos₁]
    exact hload
  · refine ⟨?_, fun h => absurd h hnever, fun _ _ => by rw [Raises, hrun]; exact hraises.bind⟩
    rintro ⟨s', t, hs', -, hload⟩
    obtain rfl := hsaves.unique hs'
    rw [← hos₁] at hload
    exact absurd (hnone.symm.trans hload) (Option.some_ne_none t).symm

/-- **The round trip.** A script that makes a file, writes to it and seeks in it, and closes it,
reads back what its operations make of an empty stream, if the operations are accepted and no call
of the C library fails. Otherwise it ends with an error, or with an exception if `exists` throws. -/
theorem saveAndLoad_write (hS : Storage C saved out file) (hb : 1 ≤ C.bufferSize)
    (hstar : C.str2number (Str.ascii "*a") = none) {name : LuaValue ν} {path : Str}
    (hname : LuaValue.toLString C (some name) = some path) (l : ℕ) (ops : List (StreamOp ν))
    (w : World ν Os)
    (hrounds : (ops.foldl (StreamOp.effect C) .empty).content.length < C.rounds) :
    EndsWith C l name (cstr path) .write ops w (ops.foldl (StreamOp.effect C) .empty).content := by
  apply saveAndLoad_ends hS hb hstar hname l .write ops w hrounds
  rintro F rfl
  rfl

theorem diskDevice_fclose {d : Disk} (h : (diskDevice.fclose 3 d).1 = true) :
    (diskDevice.fclose 3 d).2.saved.1 = d.written.content := by
  have hclose : diskDevice.fclose 3 d = if h : d.written.content.length < 2 ^ 64 then
      (true, { d with saved := ⟨d.written.content, h⟩ }) else (false, d) := rfl
  by_cases hfits : d.written.content.length < 2 ^ 64
  · rw [hclose, dif_pos hfits]
  · rw [hclose, dif_neg hfits] at h
    cases h

theorem diskDevice_storage :
    Storage diskDevice (fun _ d => d.saved.1) (fun _ => Disk.written) fun _ => Disk.reading where
  create path mode d s _ := by
    refine ⟨diskDevice_writes s, ?_⟩
    cases mode with
    | write => rfl
    | append => exact ⟨rfl, rfl⟩
  close path mode d s cs hopen _ hclose := by
    obtain rfl : s = 3 := by
      cases mode with
      | write => exact (Option.some.inj hopen).symm
      | append => exact (Option.some.inj hopen).symm
    exact diskDevice_fclose hclose
  exists_ _ _ := rfl
  load path d s _ := ⟨diskDevice_reads s, rfl⟩

/-- Two writes with a move back in between. -/
def rewriteOps : List (StreamOp ℤ) :=
  [.write [.string [97, 98], .number 7], .seek [.string (Str.ascii "set"), .number 1],
    .write [.string [120]]]

/-- The disk does not fail. -/
theorem rewriteOps_succeeds (mode : OutputMode) : Succeeds diskDevice (cstr [102]) mode rewriteOps
    (diskVm (.ofContent [111] (by decide))).os := by
  have hvalid : ∀ op ∈ rewriteOps, op.Valid diskDevice := by
    intro op hop
    simp only [rewriteOps, List.mem_cons, List.not_mem_nil, or_false] at hop
    rcases hop with rfl | rfl | rfl
    · exact List.forall_mem_cons.2 ⟨rfl, List.forall_mem_cons.2 ⟨rfl, List.forall_mem_nil _⟩⟩
    · rfl
    · exact List.forall_mem_cons.2 ⟨rfl, List.forall_mem_nil _⟩
  have hexists : ∀ path d, ¬ ExistsThrows diskDevice path (Str.ascii "r") d := fun _ _ h => by
    cases h.2
  cases mode with
  | write => exact ⟨3, 4, ⟨rfl, ⟨hvalid, rfl⟩, rfl⟩, hexists _ _, rfl⟩
  | append => exact ⟨3, 4, ⟨rfl, ⟨hvalid, rfl⟩, rfl⟩, hexists _ _, rfl⟩

theorem saveAndLoad_write_disk : ∃ w', saveAndLoad diskDevice 0 (.string [102]) .write rewriteOps
    (diskVm (.ofContent [111] (by decide))) = .ok [.string [97, 120, 55]] w' :=
  (saveAndLoad_write diskDevice_storage (by decide) rfl rfl 0 rewriteOps _
    (by decide +kernel)).succeeds (rewriteOps_succeeds .write)

/-- Operations on a stream that appends. -/
theorem content_foldl_append {F : OutputStream} (h : F.append = true) (ops : List (StreamOp ν)) :
    (ops.foldl (StreamOp.effect C) F).content = F.content ++ ops.flatMap (StreamOp.text C) := by
  induction ops generalizing F with
  | nil => exact (List.append_nil _).symm
  | cons op ops ih =>
    obtain ⟨hcontent, happend⟩ := op.effect_append (C := C) h
    rw [List.foldl_cons, ih happend, hcontent, List.flatMap_cons, List.append_assoc]

/-- **A log.** A script that opens a file for appending reads back what there was before and the
texts it has written in their order, wherever it has moved in between, under the same conditions. -/
theorem saveAndLoad_append (hS : Storage C saved out file) (hb : 1 ≤ C.bufferSize)
    (hstar : C.str2number (Str.ascii "*a") = none) {name : LuaValue ν} {path : Str}
    (hname : LuaValue.toLString C (some name) = some path) (l : ℕ) (ops : List (StreamOp ν))
    (w : World ν Os)
    (hrounds : (saved (cstr path) w.os ++ ops.flatMap (StreamOp.text C)).length < C.rounds) :
    EndsWith C l name (cstr path) .append ops w
      (saved (cstr path) w.os ++ ops.flatMap (StreamOp.text C)) := by
  apply saveAndLoad_ends hS hb hstar hname l .append ops w hrounds
  rintro F ⟨hcontent, happend⟩
  rw [content_foldl_append happend, hcontent]

theorem saveAndLoad_append_disk : ∃ w', saveAndLoad diskDevice 0 (.string [102]) .append rewriteOps
    (diskVm (.ofContent [111] (by decide))) = .ok [.string [111, 97, 98, 55, 120]] w' :=
  (saveAndLoad_append diskDevice_storage (by decide) rfl rfl 0 rewriteOps _
    (by decide +kernel)).succeeds (rewriteOps_succeeds .append)

end Jord.Io
