import Jord.Io.Calm

/-!
# Functions that open, close and destroy

What the other functions do to the view. `View.closeFile`, `View.release`, `View.openHandle` and
so on are the changes; one lemma for each function and way to end says which change it makes.
-/

namespace Jord.Io

open Program

variable {ν Os : Type} {C : Platform ν Os}

/-! ## Changes of the view -/

namespace View

/-- `m_FileHandle` of a file becomes `NULL`. -/
def closeFile (V : View ν) (f : ℕ) : View ν :=
  { V with files := V.files.modify f fun x => { x with isOpen := false } }

/-- A file is deleted. -/
def deleteFile (V : View ν) (f : ℕ) : View ν :=
  { V with files := V.files.modify f fun x => { x with deleted := true } }

/-- A file that is not a standard file is deleted. -/
def dropFile (V : View ν) (f : ℕ) (isStdFile : Bool) : View ν :=
  if isStdFile then V else V.deleteFile f

/-- A new file. -/
def addFile (V : View ν) (x : FileView) : View ν := { V with files := V.files ++ [x] }

/-- A new adapter. -/
def addAdapter (V : View ν) (x : FileAdapter) : View ν := { V with adapters := V.adapters ++ [x] }

/-- A change of an adapter. -/
def modifyAdapter (V : View ν) (a : ℕ) (g : FileAdapter → FileAdapter) : View ν :=
  { V with adapters := V.adapters.modify a g }

/-- A change of a VM. -/
def modifyVm (V : View ν) (l : ℕ) (g : Vm ν → Vm ν) : View ν := { V with vms := V.vms.modify l g }

/-- A change of `opened_files_count`. -/
def count (V : View ν) (k : ℤ) : View ν := { V with openedFilesCount := V.openedFilesCount + k }

/-- A handle gives up its file. -/
def release (V : View ν) (a f : ℕ) (isStdFile : Bool) : View ν :=
  (((V.closeFile f).count (-1)).dropFile f isStdFile).modifyAdapter a fun x =>
    { x with fileHandle := none }

/-- The destructor of an adapter that has a file; `closed` is what closing the file returns. -/
def destroyWith (V : View ν) (a f : ℕ) (closed isStdFile : Bool) : View ν :=
  (((V.closeFile f).count (if closed then -1 else 0)).dropFile f isStdFile).modifyAdapter a
    fun x => { x with destroyed := true }

/-- A new file with a handle for it. -/
def openHandle (V : View ν) (l : ℕ) (isOpen : Bool) : View ν :=
  ((V.addFile ⟨isOpen, true, false, false⟩).count (if isOpen then 1 else 0)).addAdapter
    ⟨l, some V.files.length, false, false⟩

/-- The default input. -/
def setInput (V : View ν) (l a : ℕ) : View ν :=
  { V with stdInput := some a }.modifyVm l fun vm =>
    { vm with registry := { vm.registry with stdin := .handle a } }

/-- The default output. -/
def setOutput (V : View ν) (l a : ℕ) : View ν :=
  { V with stdOutput := some a }.modifyVm l fun vm =>
    { vm with registry := { vm.registry with stdout := .handle a } }

/-- A new line iterator. -/
def addIterator (V : View ν) (l : ℕ) (it : Iterator ν) : View ν :=
  V.modifyVm l fun vm => { vm with iterators := vm.iterators ++ [it] }

end View

/-! ## Primitives -/

theorem modify_append_length {α : Type} (xs : List α) (x : α) (g : α → α) :
    (xs ++ [x]).modify xs.length g = xs ++ [g x] := by
  rw [List.modify_eq_take_cons_drop (by simp)]
  simp

/-- The process after `fopen`, with a new file. -/
def World.addFile (w : World ν Os) (os : Os) (x : BoostFile) : World ν Os :=
  { w with
    os := os
    files := w.files ++ [x] }

/-- The process with a new handle of a file, counted by `k`. -/
def World.addHandle (w : World ν Os) (l f : ℕ) (k : ℤ) : World ν Os :=
  { w with
    adapters := w.adapters ++ [⟨l, some f, false, false⟩]
    openedFilesCount := w.openedFilesCount + k }

/-- The process with a new file and a handle for it. -/
def World.addOpen (w : World ν Os) (l : ℕ) (os : Os) (x : BoostFile) : World ν Os :=
  (w.addFile os x).addHandle l w.files.length (if x.fileHandle.isSome then 1 else 0)

@[simp] theorem World.addFile_files (w : World ν Os) (os : Os) (x : BoostFile) :
    (w.addFile os x).files[w.files.length]? = some x := by
  simp [World.addFile]

theorem World.addFile_view (w : World ν Os) (os : Os) (x : BoostFile) :
    (w.addFile os x).view = w.view.addFile x.view := by
  simp [World.addFile, World.view, View.addFile]

theorem World.addHandle_view (w : World ν Os) (l f : ℕ) (k : ℤ) :
    (w.addHandle l f k).view = (w.view.count k).addAdapter ⟨l, some f, false, false⟩ := rfl

theorem exists_file {w : World ν Os} {f : ℕ} {y : FileView} (h : w.view.files[f]? = some y) :
    ∃ x, w.files[f]? = some x ∧ x.view = y := by
  rw [view_files] at h
  exact Option.map_eq_some_iff.1 h

theorem onlyIf_count (b : Bool) (k : ℤ) (w : World ν Os) :
    ∃ w', onlyIf b (count k) w = .ok ⟨⟩ w' ∧ w'.view = w.view.count (if b then k else 0) := by
  cases b
  · exact ⟨w, rfl, by simp [World.view, View.count]⟩
  · exact ⟨_, rfl, rfl⟩

theorem modifyAdapter_apply (a : ℕ) (g : FileAdapter → FileAdapter) (w : World ν Os) :
    ∃ w', modifyAdapter a g w = .ok ⟨⟩ w' ∧ w'.view = w.view.modifyAdapter a g :=
  ⟨_, rfl, rfl⟩

/-! ## Files -/

namespace LuaBoostFile

variable {f : ℕ} {w : World ν Os} {x : BoostFile} {y : FileView}

/-- Whether closing the file succeeds: it is owned, it has a stream, and `fclose` returns zero. -/
def closes (C : Platform ν Os) (x : BoostFile) (os : Os) : Bool :=
  match x.ownsFile, x.fileHandle with
  | true, some s => (C.fclose s os).1
  | _, _ => false

theorem fclose_apply (x : BoostFile) (w : World ν Os) :
    ∃ w', fclose C x w = .ok (closes C x w.os) w' ∧ w'.view = w.view := by
  unfold fclose closes
  cases x.ownsFile <;> cases x.fileHandle
  all_goals exact ⟨_, rfl, rfl⟩

theorem setError_apply (f : ℕ) (w : World ν Os) :
    ∃ w', setError C f w = .ok ⟨⟩ w' ∧ w'.view = w.view :=
  ⟨_, rfl, ((calm_setError (F := fun _ => True)) w rfl).1⟩

theorem checked_apply (result : Bool) (f : ℕ) (w : World ν Os) :
    ∃ w', checked C f result w = .ok result w' ∧ w'.view = w.view := by
  cases result
  · obtain ⟨w', hw', hv⟩ := setError_apply (C := C) f w
    exact ⟨w', by rw [checked]; exact bind_of_ok hw', hv⟩
  · exact ⟨w, rfl, rfl⟩

theorem isStdFile_apply (hy : w.view.files[f]? = some y) (hd : y.deleted = false) :
    isStdFile f w = .ok y.isStdFile w := by
  obtain ⟨x, hx, rfl⟩ := exists_file hy
  exact bind_of_ok (object_apply hx hd)

theorem isOpen_apply (hy : w.view.files[f]? = some y) (hd : y.deleted = false) :
    isOpen f w = .ok y.isOpen w := by
  obtain ⟨x, hx, rfl⟩ := exists_file hy
  exact bind_of_ok (object_apply hx hd)

theorem close_apply (hx : w.files[f]? = some x) (hd : x.deleted = false) :
    ∃ w', close C f w = .ok (closes C x w.os) w' ∧ w'.view = w.view.closeFile f := by
  obtain ⟨w₁, h₁, hv₁⟩ := fclose_apply (C := C) x w
  obtain ⟨w₂, h₂, hv₂⟩ := checked_apply (C := C) (closes C x w.os) f w₁
  refine ⟨{ w₂ with files := w₂.files.modify f fun x => { x with fileHandle := none } }, ?_, ?_⟩
  · rw [close, bind_of_ok (object_apply hx hd), bind_of_ok h₁, bind_of_ok h₂]
    rfl
  · rw [← hv₁, ← hv₂]
    exact view_modifyFile w₂ f _ fun _ => rfl

theorem delete_apply (hy : w.view.files[f]? = some y) (hd : y.deleted = false) :
    ∃ w', delete C f w = .ok ⟨⟩ w' ∧ w'.view = w.view.deleteFile f := by
  obtain ⟨x, hx, rfl⟩ := exists_file hy
  obtain ⟨w₁, h₁, hv₁⟩ := fclose_apply (C := C) x w
  refine ⟨{ w₁ with files := w₁.files.modify f fun x => { x with deleted := true } }, ?_, ?_⟩
  · have hd' : x.deleted = false := hd
    rw [delete, bind_of_ok (get_apply w), hx]
    simp only [hd', Bool.false_eq_true, if_false]
    rw [bind_of_ok h₁]
    rfl
  · rw [← hv₁]
    exact view_modifyFile w₁ f _ fun _ => rfl

theorem drop_apply (hy : w.view.files[f]? = some y) (hd : y.deleted = false) :
    ∃ w', onlyIf (!y.isStdFile) (delete C f) w = .ok ⟨⟩ w' ∧
      w'.view = w.view.dropFile f y.isStdFile := by
  cases hstd : y.isStdFile
  · exact delete_apply hy hd
  · exact ⟨w, rfl, rfl⟩

/-- `fopen` decides whether the new file is open. -/
theorem construct_run (path mode : Str) (w : World ν Os) :
    ∃ x : BoostFile, x.fileHandle = (C.fopen path mode w.os).1 ∧
      x.view = ⟨(C.fopen path mode w.os).1.isSome, true, false, false⟩ ∧
      construct C path mode w = .ok w.files.length (w.addFile (C.fopen path mode w.os).2 x) := by
  let x : BoostFile := ⟨path, (C.fopen path mode w.os).1, 0, true, false, false⟩
  have hrun : construct C path mode w =
      (onlyIf (C.fopen path mode w.os).1.isNone (setError C w.files.length) >>= fun _ =>
        pure w.files.length) (w.addFile (C.fopen path mode w.os).2 x) := rfl
  cases hopen : (C.fopen path mode w.os).1 with
  | some s => exact ⟨x, hopen, by rw [← hopen]; rfl, by rw [hrun, hopen]; rfl⟩
  | none =>
    let y : BoostFile := { x with errorCode := C.errno (C.fopen path mode w.os).2 }
    refine ⟨y, hopen, by rw [← hopen]; rfl, ?_⟩
    rw [hrun, hopen]
    apply congrArg (EStateM.Result.ok w.files.length)
    simp only [World.addFile, modify_append_length, y]

end LuaBoostFile

/-! ## Handles -/

namespace View

@[simp] theorem closeFile_files (V : View ν) (f : ℕ) :
    (V.closeFile f).files[f]? = V.files[f]?.map fun x => { x with isOpen := false } := by
  simp [closeFile]

theorem closeFile_files_of_ne {V : View ν} {f g : ℕ} (h : f ≠ g) :
    (V.closeFile f).files[g]? = V.files[g]? := by
  simp [closeFile, h]

theorem dropFile_files (V : View ν) (f : ℕ) (isStdFile : Bool) :
    (V.dropFile f isStdFile).files[f]? =
      V.files[f]?.map fun x => { x with deleted := x.deleted || !isStdFile } := by
  cases isStdFile <;> simp [dropFile, deleteFile]

theorem dropFile_files_of_ne {V : View ν} {f g : ℕ} (h : f ≠ g) {isStdFile : Bool} :
    (V.dropFile f isStdFile).files[g]? = V.files[g]? := by
  cases isStdFile <;> simp [dropFile, deleteFile, h]

@[simp] theorem count_files (V : View ν) (k : ℤ) : (V.count k).files = V.files := rfl

@[simp] theorem modifyAdapter_files (V : View ν) (a : ℕ) (g : FileAdapter → FileAdapter) :
    (V.modifyAdapter a g).files = V.files := rfl

@[simp] theorem dropFile_adapters (V : View ν) (f : ℕ) (isStdFile : Bool) :
    (V.dropFile f isStdFile).adapters = V.adapters := by
  cases isStdFile <;> rfl

theorem modifyAdapter_adapters (V : View ν) (a : ℕ) (g : FileAdapter → FileAdapter) (b : ℕ) :
    (V.modifyAdapter a g).adapters[b]? =
      if a = b then V.adapters[b]?.map g else V.adapters[b]? := by
  rw [modifyAdapter, List.getElem?_modify]
  split <;> simp

@[simp] theorem dropFile_vms (V : View ν) (f : ℕ) (isStdFile : Bool) :
    (V.dropFile f isStdFile).vms = V.vms := by
  cases isStdFile <;> rfl

@[simp] theorem release_vms (V : View ν) (a f : ℕ) (isStdFile : Bool) :
    (V.release a f isStdFile).vms = V.vms :=
  dropFile_vms _ _ _

/-- The files after one of them has been given up. -/
theorem discharge_files (V : View ν) (a f : ℕ) (k : ℤ) (isStdFile : Bool)
    (g : FileAdapter → FileAdapter) (n : ℕ) :
    ((((V.closeFile f).count k).dropFile f isStdFile).modifyAdapter a g).files[n]? =
      V.files[n]?.map fun x => if f = n then
        { x with isOpen := false, deleted := x.deleted || !isStdFile } else x := by
  rw [modifyAdapter_files]
  by_cases hfn : f = n
  · subst hfn
    rw [dropFile_files, count_files, closeFile_files, Option.map_map]
    simp [Function.comp_def]
  · rw [dropFile_files_of_ne hfn, count_files, closeFile_files_of_ne hfn]
    simp [hfn]

/-- An adapter whose destructor has not run. -/
def Alive (V : View ν) (a : ℕ) : Prop := ∃ x, V.adapters[a]? = some x ∧ x.destroyed = false

/-- The handle is alive and has the file. -/
def Has (V : View ν) (a f : ℕ) : Prop :=
  ∃ x, V.adapters[a]? = some x ∧ x.destroyed = false ∧ x.fileHandle = some f

/-- The handle is alive and has no file. -/
def Released (V : View ν) (a : ℕ) : Prop :=
  ∃ x, V.adapters[a]? = some x ∧ x.destroyed = false ∧ x.fileHandle = none

end View

namespace LuaFileAdapter

open LuaBoostFile

variable {a f l : ℕ} {w : World ν Os} {x : FileAdapter} {y : BoostFile}

section

variable (hx : w.adapters[a]? = some x) (hd : x.destroyed = false)
include hx hd

theorem close_none (hf : x.fileHandle = none) :
    close C a w = .error (.luaError (Str.ascii "file is already closed")) w := by
  rw [close, bind_of_ok (handle_apply hx hd), hf]
  rfl

section

variable (hf : x.fileHandle = some f) (hy : w.files[f]? = some y) (hyd : y.deleted = false)
include hf hy hyd

/-- A close that fails has taken the stream away from the file. -/
theorem close_error (hc : closes C y w.os = false) :
    ∃ w', close C a w = .error (.luaError (Str.ascii "file is already closed")) w' ∧
      w'.view = w.view.closeFile f := by
  obtain ⟨w₁, h₁, hv₁⟩ := LuaBoostFile.close_apply (C := C) hy hyd
  refine ⟨w₁, ?_, hv₁⟩
  rw [close, bind_of_ok (handle_apply hx hd), hf]
  dsimp only
  rw [bind_of_ok h₁, hc]
  rfl

/-- A close that succeeds. -/
theorem close_ok (hc : closes C y w.os = true) :
    ∃ w', close C a w = .ok [.boolean true] w' ∧ w'.view = w.view.release a f y.isStdFile := by
  obtain ⟨w₁, h₁, hv₁⟩ := LuaBoostFile.close_apply (C := C) hy hyd
  obtain ⟨w₂, h₂, hv₂⟩ : ∃ w₂, count (-1) w₁ = .ok ⟨⟩ w₂ ∧ w₂.view = w₁.view.count (-1) :=
    ⟨_, rfl, rfl⟩
  have hfile : w₂.view.files[f]? = some ⟨false, y.ownsFile, y.isStdFile, y.deleted⟩ := by
    rw [hv₂, View.count, hv₁, View.closeFile_files, view_files, hy]
    rfl
  obtain ⟨w₃, h₃, hv₃⟩ := drop_apply (C := C) hfile hyd
  obtain ⟨w₄, h₄, hv₄⟩ := modifyAdapter_apply a (fun x => { x with fileHandle := none }) w₃
  refine ⟨w₄, ?_, ?_⟩
  · rw [close, bind_of_ok (handle_apply hx hd), hf]
    dsimp only
    rw [bind_of_ok h₁, hc, if_neg (by decide)]
    rw [bind_of_ok h₂, bind_of_ok (isStdFile_apply hfile hyd), bind_of_ok h₃, bind_of_ok h₄]
    rfl
  · rw [hv₄, hv₃, hv₂, hv₁]
    rfl

/-- The destructor of an adapter that has a file. -/
theorem destroy_some :
    ∃ w', destroy C a w = .ok ⟨⟩ w' ∧
      w'.view = w.view.destroyWith a f (closes C y w.os) y.isStdFile := by
  obtain ⟨w₁, h₁, hv₁⟩ := LuaBoostFile.close_apply (C := C) hy hyd
  obtain ⟨w₂, h₂, hv₂⟩ := onlyIf_count (closes C y w.os) (-1) w₁
  have hfile : w₂.view.files[f]? = some ⟨false, y.ownsFile, y.isStdFile, y.deleted⟩ := by
    rw [hv₂, View.count, hv₁, View.closeFile_files, view_files, hy]
    rfl
  obtain ⟨w₃, h₃, hv₃⟩ := drop_apply (C := C) hfile hyd
  obtain ⟨w₄, h₄, hv₄⟩ := modifyAdapter_apply a (fun x => { x with destroyed := true }) w₃
  refine ⟨w₄, ?_, ?_⟩
  · rw [destroy, bind_of_ok (handle_apply hx hd), hf]
    dsimp only
    rw [bind_of_ok h₁, bind_of_ok h₂, bind_of_ok (isStdFile_apply hfile hyd), bind_of_ok h₃, h₄]
  · rw [hv₄, hv₃, hv₂, hv₁]
    rfl

end

/-- The destructor of an adapter without a file. -/
theorem destroy_none (hf : x.fileHandle = none) :
    ∃ w', destroy C a w = .ok ⟨⟩ w' ∧
      w'.view = w.view.modifyAdapter a fun x => { x with destroyed := true } := by
  obtain ⟨w', h, hv⟩ := modifyAdapter_apply a (fun x => { x with destroyed := true }) w
  exact ⟨w', by rw [destroy, bind_of_ok (handle_apply hx hd), hf]; exact h, hv⟩

end

/-- A new adapter for a file. -/
theorem create_run {y : BoostFile} (hy : w.files[f]? = some y) (hd : y.deleted = false) (l : ℕ) :
    create l f w = .ok w.adapters.length
      (w.addHandle l f (if y.fileHandle.isSome && !y.isStdFile then 1 else 0)) := by
  rw [create, bind_of_ok (object_apply hy hd)]
  cases y.fileHandle.isSome && !y.isStdFile with
  | false =>
    apply congrArg (EStateM.Result.ok w.adapters.length)
    simp [World.addHandle]
  | true => rfl

end LuaFileAdapter

end Jord.Io
