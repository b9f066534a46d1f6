import Jord.Io.IOManager

/-!
# Functions that leave the handles alone

Input, output, positioning and the reporting of results change what the operating system holds and
error codes, but neither which files are open nor which handle has which file. `Calm F V m` says
so of `m`, started with view `V`, and that it ends in no fault but those in `F`. One lemma for each
function: its hypothesis says what the function relies on, unless the fault that follows is in
`F`.
-/

namespace Jord.Io

open Program

variable {ν Os α β : Type} {C : Platform ν Os} {F : Fault → Prop} {V : View ν}

/-- Lua errors, and the faults in `F`. -/
def Allowed (F : Fault → Prop) : Exn → Prop
  | .fault f => F f
  | _ => True

/-- From view `V`, the program leaves the view alone, returns only values in `Q` and ends in no
fault outside of `F`. -/
abbrev CalmTo (F : Fault → Prop) (V : View ν) (m : Eval ν Os α) (Q : α → Prop) : Prop :=
  Program.Calm World.view (Allowed F) V m Q

/-- From view `V`, the program leaves the view alone and ends in no fault outside of `F`. -/
abbrev Calm (F : Fault → Prop) (V : View ν) (m : Eval ν Os α) : Prop := CalmTo F V m fun _ => True

/-- Values that are no objects of the library. -/
def AllPlain (vs : List (LuaValue ν)) : Prop := ∀ v ∈ vs, v.isPlain

/-- The file can be used, unless using it after its deletion is in `F`. -/
def Live (F : Fault → Prop) (V : View ν) (f : ℕ) : Prop :=
  F .deletedFile ∨ ∃ x, V.files[f]? = some x ∧ x.deleted = false

/-- The file can be used for input and output. -/
def Usable (F : Fault → Prop) (V : View ν) (f : ℕ) : Prop :=
  Live F V f ∧ (F .nullFile ∨ ∀ x, V.files[f]? = some x → x.isOpen)

/-- The adapter can be used, and its file. -/
structure Known (F : Fault → Prop) (V : View ν) (a : ℕ) : Prop where
  adapter : F .destroyedAdapter ∨ ∃ x, V.adapters[a]? = some x ∧ x.destroyed = false
  live : ∀ x f, V.adapters[a]? = some x → x.fileHandle = some f → Live F V f

/-- The adapter can be used, and its file for input and output. -/
structure Ready (F : Fault → Prop) (V : View ν) (a : ℕ) : Prop extends Known F V a where
  file : ∀ x f, V.adapters[a]? = some x → x.fileHandle = some f → Usable F V f

/-! ## Primitives -/

theorem view_files (w : World ν Os) (f : ℕ) :
    w.view.files[f]? = w.files[f]?.map BoostFile.view :=
  List.getElem?_map ..

section Errors

variable {Q : α → Prop}

theorem calm_luaError (s : Str) : CalmTo F V (luaError s : Eval ν Os α) Q := .throw trivial

theorem calm_argError (n : ℤ) (s : Str) : CalmTo F V (argError n s : Eval ν Os α) Q :=
  .throw trivial

theorem calm_typeError (n : ℤ) (s : Str) (v : Option (LuaValue ν)) :
    CalmTo F V (typeError n s v : Eval ν Os α) Q := .throw trivial

theorem calm_fault {f : Fault} (hf : F f) : CalmTo F V (fault f : Eval ν Os α) Q := .throw hf

end Errors

theorem calm_get : Calm F V (get : Eval ν Os (World ν Os)) :=
  .of_ok fun s _ => ⟨s, s, rfl, rfl, trivial⟩

theorem calm_sys (g : Os → α × Os) : Calm F V (sys g : Eval ν Os α) :=
  .of_ok fun w _ => ⟨(g w.os).1, { w with os := (g w.os).2 }, rfl, rfl, trivial⟩

theorem calm_sysUnit (g : Os → Os) : Calm F V (sysUnit g : Eval ν Os Unit) :=
  .of_ok fun w _ => ⟨⟨⟩, { w with os := g w.os }, rfl, rfl, trivial⟩

/-- A change of a file, in the view. -/
theorem view_modifyFile (w : World ν Os) (f : ℕ) {g : BoostFile → BoostFile}
    (g' : FileView → FileView) (hg : ∀ x, (g x).view = g' x.view) :
    { w with files := w.files.modify f g }.view =
      { w.view with files := w.view.files.modify f g' } := by
  have : (w.files.modify f g).map BoostFile.view = (w.files.map BoostFile.view).modify f g' := by
    refine List.ext_getElem? fun n => ?_
    rw [List.getElem?_map, List.getElem?_modify, List.getElem?_modify, List.getElem?_map]
    cases w.files[n]? with
    | none => rfl
    | some x => by_cases h : f = n <;> simp [h, hg]
  simp [World.view, this]

/-- Changing what the view does not show. -/
theorem calm_modifyFile {f : ℕ} {g : BoostFile → BoostFile} (hg : ∀ x, (g x).view = x.view) :
    Calm F V (modifyFile f g : Eval ν Os Unit) := by
  refine .of_ok fun w _ => ⟨⟨⟩, _, rfl, ?_, trivial⟩
  rw [view_modifyFile w f id hg, List.modify_id]

theorem calm_onlyIf {c : Bool} {m : Eval ν Os Unit} (h : Calm F V m) : Calm F V (onlyIf c m) := by
  unfold onlyIf
  split
  · exact h
  · exact .pure trivial

/-! ## Files -/

namespace LuaBoostFile

variable {f : ℕ}

theorem object_apply {w : World ν Os} {x : BoostFile} (hx : w.files[f]? = some x)
    (hd : x.deleted = false) : object f w = .ok x w := by
  rw [object, bind_of_ok (get_apply w), hx]
  simp [hd]

theorem calm_object (h : Live F V f) :
    CalmTo F V (object f : Eval ν Os BoostFile) fun x =>
      V.files[f]? = some x.view ∧ x.deleted = false := by
  intro w hw
  have hfiles : V.files[f]? = w.files[f]?.map BoostFile.view := by rw [← hw, view_files]
  rw [object, bind_of_ok (get_apply w)]
  cases hx : w.files[f]? with
  | none => exact ⟨hw, h.resolve_right (by simp [hfiles, hx])⟩
  | some x =>
    cases hd : x.deleted with
    | true =>
      have hdead : F .deletedFile := h.resolve_right (by simp [hfiles, hx, BoostFile.view, hd])
      simpa [hd, fault] using ⟨hw, hdead⟩
    | false => simpa [hd, hfiles, hx] using hw

theorem calm_stream (h : Usable F V f) : Calm F V (stream f : Eval ν Os Stream) := by
  refine .bind (calm_object h.1) fun x hx => ?_
  cases hs : x.fileHandle with
  | some s => exact .pure trivial
  | none =>
    refine calm_fault (h.2.resolve_right fun hopen => ?_)
    simpa [BoostFile.view, hs] using hopen _ hx.1

theorem calm_setError : Calm F V (setError C f) :=
  .bind calm_get fun _ _ => calm_modifyFile fun _ => rfl

theorem calm_checked (result : Bool) : Calm F V (checked C f result) :=
  .bind (calm_onlyIf calm_setError) fun _ _ => .pure trivial

theorem calm_readNumber (h : Usable F V f) : Calm F V (readNumber C f) :=
  .bind (calm_stream h) fun _ _ => .bind (calm_sysUnit _) fun _ _ => .bind (calm_sys _) fun _ _ =>
    .bind (calm_checked _) fun _ _ => .pure trivial

theorem calm_readLineLoop (hF : F .unfinished) {s : Stream} {size n : ℕ} {line : Str} :
    Calm F V (readLineLoop C f s size n line) := by
  induction n generalizing line with
  | zero => exact calm_fault hF
  | succ n ih =>
    refine .bind (calm_sys _) fun buffer _ => ?_
    cases buffer with
    | none => exact .bind (calm_checked _) fun _ _ => .pure trivial
    | some buffer =>
      simp only
      split
      · exact .pure trivial
      · exact ih

theorem calm_readLine (hF : F .unfinished) (h : Usable F V f) (line : Str) :
    Calm F V (readLine C f line) :=
  .bind (calm_stream h) fun _ _ => .bind (calm_sysUnit _) fun _ _ => calm_readLineLoop hF

theorem calm_readLoop (hF : F .unfinished) {s : Stream} {n numBytes : ℕ} {data : Str} :
    Calm F V (readLoop C s n numBytes data) := by
  induction n generalizing numBytes data with
  | zero => exact calm_fault hF
  | succ n ih =>
    refine .bind (calm_sys _) fun bytes _ => ?_
    split
    · exact ih
    · exact .pure trivial

theorem calm_read (hF : F .unfinished) (h : Usable F V f) (numBytes : ℕ) :
    Calm F V (read C f numBytes) :=
  .bind (calm_stream h) fun _ _ => .bind (calm_sysUnit _) fun _ _ =>
    .bind (calm_readLoop hF) fun _ _ => .bind (calm_checked _) fun _ _ => .pure trivial

theorem calm_isEOF (h : Usable F V f) : Calm F V (isEOF C f) :=
  .bind (calm_stream h) fun _ _ => .bind (calm_sys _) fun _ _ => .bind (calm_sysUnit _) fun _ _ =>
    .bind (calm_sysUnit _) fun _ _ => .pure trivial

theorem calm_writeNumber (h : Usable F V f) (n : ν) : Calm F V (writeNumber C f n) :=
  .bind (calm_stream h) fun _ _ => .bind (calm_sys _) fun _ _ => calm_checked _

theorem calm_writeBuffer (h : Usable F V f) (s : Str) : Calm F V (writeBuffer C f s) :=
  .bind (calm_stream h) fun _ _ => .bind (calm_sys _) fun _ _ => calm_checked _

theorem calm_flush (h : Live F V f) : Calm F V (flush C f) :=
  .bind (calm_object h) fun _ _ => .bind (calm_sys _) fun _ _ => calm_checked _

theorem calm_seek (h : Usable F V f) (mode : SeekMode) (offset : ℤ) :
    Calm F V (seek C f mode offset) :=
  .bind (calm_stream h) fun _ _ => .bind (calm_sys _) fun _ _ => .bind (calm_checked _) fun _ _ =>
    .bind (calm_sys _) fun _ _ => .pure trivial

theorem calm_setvbuf (h : Usable F V f) (mode : VBufMode) (size : ℤ) :
    Calm F V (setvbuf C f mode size) :=
  .bind (calm_stream h) fun _ _ => .bind (calm_sys _) fun _ _ => calm_checked _

theorem calm_hasFailed (h : Usable F V f) : Calm F V (hasFailed C f) :=
  .bind (calm_stream h) fun _ _ => .bind calm_get fun _ _ =>
    .bind (calm_onlyIf calm_setError) fun _ _ => .pure trivial

theorem calm_getLastError (h : Live F V f) : Calm F V (getLastError C f) :=
  .bind (calm_object h) fun _ _ => .pure trivial

theorem calm_getLastErrorCode (h : Live F V f) :
    Calm F V (getLastErrorCode f : Eval ν Os ℤ) :=
  .bind (calm_object h) fun _ _ => .pure trivial

theorem calm_getFileName (h : Live F V f) : Calm F V (getFileName f : Eval ν Os Str) :=
  .bind (calm_object h) fun _ _ => .pure trivial

theorem calm_isOpen (h : Live F V f) : Calm F V (isOpen f : Eval ν Os Bool) :=
  .bind (calm_object h) fun _ _ => .pure trivial

end LuaBoostFile

/-! ## Arguments -/

theorem calm_checkLString (n : ℤ) (v : Option (LuaValue ν)) : Calm F V (checkLString C n v) := by
  unfold checkLString
  split
  · exact .pure trivial
  · exact calm_typeError _ _ _

theorem calm_optLString (n : ℤ) (v : Option (LuaValue ν)) (d : Str) :
    Calm F V (optLString C n v d) := by
  unfold optLString
  split
  · exact .pure trivial
  · exact calm_checkLString _ _

theorem calm_optInteger (n : ℤ) (v : Option (LuaValue ν)) (d : ℤ) :
    Calm F V (optInteger C n v d) := by
  unfold optInteger
  split
  · exact .pure trivial
  · split
    · exact .pure trivial
    · exact calm_typeError _ _ _

theorem calm_checkOption (n : ℤ) (v : Option (LuaValue ν)) (d : Option Str)
    (options : List (Str × α)) : Calm F V (checkOption C n v d options) := by
  have hname : Calm F V (d.elim (checkLString C n v) (optLString C n v)) := by
    cases d with
    | none => exact calm_checkLString _ _
    | some d => exact calm_optLString _ _ _
  apply hname.bind
  intro name _
  · split
    · exact .pure trivial
    · exact calm_argError _ _

theorem calm_checkStack (top space : ℕ) (message : Str) :
    Calm F V (checkStack top space message : Eval ν Os Unit) := by
  unfold checkStack
  split
  · exact calm_luaError _
  · exact .pure trivial

/-! ## Handles -/

namespace LuaFileAdapter

variable {a f : ℕ}

theorem adapter_apply {w : World ν Os} {x : FileAdapter} (hx : w.adapters[a]? = some x)
    (hd : x.destroyed = false) : adapter a w = .ok x w := by
  rw [adapter, bind_of_ok (get_apply w), hx]
  simp [hd]

theorem handle_apply {w : World ν Os} {x : FileAdapter} (hx : w.adapters[a]? = some x)
    (hd : x.destroyed = false) : handle a w = .ok x.fileHandle w := by
  rw [handle, bind_of_ok (adapter_apply hx hd), pure_apply]

theorem calm_handle (h : Known F V a) :
    CalmTo F V (handle a : Eval ν Os (Option ℕ)) fun r =>
      ∃ x, V.adapters[a]? = some x ∧ x.destroyed = false ∧ x.fileHandle = r := by
  have hadapter : CalmTo F V (adapter a : Eval ν Os FileAdapter) fun x =>
      V.adapters[a]? = some x ∧ x.destroyed = false := by
    intro w hw
    have hadapters : V.adapters[a]? = w.adapters[a]? := by rw [← hw]; rfl
    rw [adapter, bind_of_ok (get_apply w)]
    cases hx : w.adapters[a]? with
    | none => exact ⟨hw, h.adapter.resolve_right (by simp [hadapters, hx])⟩
    | some x =>
      cases hd : x.destroyed with
      | true =>
        have hdead : F .destroyedAdapter := h.adapter.resolve_right (by simp [hadapters, hx, hd])
        simpa [hd, fault] using ⟨hw, hdead⟩
      | false => simpa [hd, hadapters, hx] using hw
  exact hadapter.bind fun x hx => .pure ⟨x, hx.1, hx.2, rfl⟩

theorem calm_reportError (h : Known F V a) (message : Str) :
    CalmTo F V (reportError C a message) AllPlain := by
  refine .bind (calm_handle h) fun r ⟨x, hx, _, hf⟩ => ?_
  cases r with
  | none => exact .pure (by simp [AllPlain, LuaValue.isPlain])
  | some f =>
    have hlive := h.live x f hx hf
    exact .bind (LuaBoostFile.calm_getFileName hlive) fun _ _ =>
      .bind (LuaBoostFile.calm_getLastError hlive) fun _ _ =>
        .bind (LuaBoostFile.calm_getLastErrorCode hlive) fun _ _ =>
          .pure (by simp [AllPlain, LuaValue.isPlain])

theorem calm_reportResult (h : Known F V a) (successful : Bool) :
    CalmTo F V (reportResult C a successful) AllPlain := by
  unfold reportResult
  split
  · exact .pure (by simp [AllPlain, LuaValue.isPlain])
  · refine .bind (calm_handle h) fun r ⟨x, hx, _, hf⟩ => ?_
    cases r with
    | none => exact calm_reportError h _
    | some f =>
      exact .bind (LuaBoostFile.calm_getLastError (h.live x f hx hf)) fun _ _ =>
        calm_reportError h _

/-! ### Reading -/

theorem calm_readFormat (hF : F .unfinished) (h : Usable F V f) (n : ℤ) (v : LuaValue ν) :
    CalmTo F V (readFormat C f n v) fun r => r.2.isPlain := by
  unfold readFormat
  split
  · split
    · refine .bind (LuaBoostFile.calm_isEOF h) fun eof _ => ?_
      split
      · exact .pure rfl
      · exact .pure rfl
    · refine .bind (LuaBoostFile.calm_read hF h _) fun r _ => .pure ?_
      dsimp only
      split <;> rfl
  · split
    · split
      · refine .bind (LuaBoostFile.calm_readNumber h) fun number _ => .pure ?_
        cases number <;> rfl
      · exact .bind (LuaBoostFile.calm_readLine hF h _) fun _ _ => .pure rfl
      · exact .bind (LuaBoostFile.calm_read hF h _) fun _ _ => .pure rfl
      · exact calm_argError _ _
    · exact calm_argError _ _

theorem calm_readFormats (hF : F .unfinished) (h : Usable F V f) (n : ℤ)
    (args : List (LuaValue ν)) :
    CalmTo F V (readFormats C f n args) fun r => AllPlain r.2 := by
  induction args generalizing n with
  | nil => exact .pure (by simp [AllPlain])
  | cons v args ih =>
    refine .bind (calm_readFormat hF h n v) fun r hr => ?_
    dsimp only
    split
    · exact .bind (ih _) fun r' hr' => .pure (List.forall_mem_cons.2 ⟨hr, hr'⟩)
    · exact .pure (List.forall_mem_singleton.2 hr)

theorem calm_readValues (hF : F .unfinished) (h : Usable F V f) (args : List (LuaValue ν)) :
    CalmTo F V (readValues C f args) fun r => AllPlain r.2 := by
  cases args with
  | nil =>
    exact .bind (LuaBoostFile.calm_readLine hF h _) fun _ _ =>
      .pure (by simp [AllPlain, LuaValue.isPlain])
  | cons v args =>
    exact .bind (calm_checkStack _ _ _) fun _ _ => calm_readFormats hF h _ _

theorem calm_read (hF : F .unfinished) (h : Ready F V a) (args : List (LuaValue ν)) :
    CalmTo F V (read C a args) AllPlain := by
  refine .bind (calm_handle h.toKnown) fun r ⟨x, hx, _, hf⟩ => ?_
  cases r with
  | none => exact calm_luaError _
  | some f =>
    have hu := h.file x f hx hf
    refine .bind (LuaBoostFile.calm_isOpen hu.1) fun isOpen _ => ?_
    split
    · exact calm_luaError _
    · refine .bind (calm_readValues hF hu args) fun r hr => .bind (LuaBoostFile.calm_hasFailed hu)
        fun failed _ => ?_
      split
      · exact calm_reportError h.toKnown _
      · refine .pure ?_
        split
        · exact hr
        · refine List.forall_mem_append.2 ⟨fun v hv => hr v (List.dropLast_subset _ hv), ?_⟩
          exact List.forall_mem_singleton.2 rfl

/-! ### Writing -/

theorem calm_writeArg (h : Usable F V f) (n : ℤ) (status : Bool) (v : LuaValue ν) :
    Calm F V (writeArg C f n status v) := by
  unfold writeArg
  split
  · split
    · exact LuaBoostFile.calm_writeNumber h _
    · exact .pure trivial
  · refine .bind (calm_checkLString _ _) fun s _ => ?_
    split
    · exact LuaBoostFile.calm_writeBuffer h _
    · exact .pure trivial

theorem calm_writeArgs (h : Usable F V f) (n : ℤ) (args : List (LuaValue ν)) (status : Bool) :
    Calm F V (writeArgs C f n args status) := by
  induction args generalizing n status with
  | nil => exact .pure trivial
  | cons v args ih => exact .bind (calm_writeArg h n status v) fun _ _ => ih _ _

theorem calm_write (h : Ready F V a) (args : List (LuaValue ν)) :
    CalmTo F V (write C a args) AllPlain := by
  refine .bind (calm_handle h.toKnown) fun r ⟨x, hx, _, hf⟩ => ?_
  cases r with
  | none => exact calm_luaError _
  | some f =>
    exact .bind (calm_writeArgs (h.file x f hx hf) _ _ _) fun _ _ => calm_reportResult h.toKnown _

theorem calm_flush (h : Known F V a) : CalmTo F V (flush C a) AllPlain := by
  refine .bind (calm_handle h) fun r ⟨x, hx, _, hf⟩ => ?_
  cases r with
  | none => exact calm_luaError _
  | some f =>
    exact .bind (LuaBoostFile.calm_flush (h.live x f hx hf)) fun _ _ => calm_reportResult h _

/-! ### Positions, buffers, states -/

theorem calm_seek (h : Ready F V a) (args : List (LuaValue ν)) :
    CalmTo F V (seek C a args) AllPlain := by
  refine .bind (calm_handle h.toKnown) fun r ⟨x, hx, _, hf⟩ => ?_
  cases r with
  | none => exact calm_luaError _
  | some f =>
    refine .bind (calm_checkOption _ _ _ _) fun mode _ => .bind (calm_optInteger _ _ _)
      fun offset _ => .bind (LuaBoostFile.calm_seek (h.file x f hx hf) _ _) fun r _ => ?_
    rcases r with ⟨result, position⟩
    dsimp only
    split
    · exact calm_reportError h.toKnown _
    · exact .pure (by simp [AllPlain, LuaValue.isPlain])

theorem calm_setvbuf (h : Ready F V a) (args : List (LuaValue ν)) :
    CalmTo F V (setvbuf C a args) AllPlain := by
  refine .bind (calm_handle h.toKnown) fun r ⟨x, hx, _, hf⟩ => ?_
  cases r with
  | none => exact calm_luaError _
  | some f =>
    exact .bind (calm_checkOption _ _ _ _) fun mode _ => .bind (calm_optInteger _ _ _)
      fun size _ => .bind (LuaBoostFile.calm_setvbuf (h.file x f hx hf) _ _) fun _ _ =>
        calm_reportResult h.toKnown _

theorem calm_tostring (h : Known F V a) : CalmTo F V (tostring a : Eval ν Os _) AllPlain := by
  refine .bind (calm_handle h) fun r ⟨x, hx, _, hf⟩ => ?_
  cases r with
  | none => exact .pure (by simp [AllPlain, LuaValue.isPlain])
  | some f =>
    exact .bind (LuaBoostFile.calm_getFileName (h.live x f hx hf)) fun _ _ =>
      .pure (by simp [AllPlain, LuaValue.isPlain])

theorem calm_isOpen (h : Known F V a) : CalmTo F V (isOpen a : Eval ν Os _) AllPlain :=
  .bind (calm_handle h) fun _ _ => .pure (by simp [AllPlain, LuaValue.isPlain])

end LuaFileAdapter

end Jord.Io
