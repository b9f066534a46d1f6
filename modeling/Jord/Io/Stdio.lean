import Mathlib.Logic.Relation
import Jord.Foundations.InputStream
import Jord.Io.IOManager

/-!
# The C library, as far as reading goes

What is relied on of the functions that read a stream, and what the functions of `LuaBoostFile` do
with them.

* `Errors C s failures` counts the calls that fail with an input error, and `Reads C s file` is a
  stream without such errors, which behaves as the `InputStream` that `file` takes from the state.
* `Within T m w`: the program `m`, run in `w`, leaves all objects alone but for error codes, and
  takes the operating system to a state that `T` relates to the one before.
-/

namespace Jord.Io

open Program

variable {ν Os α β : Type} {C : Platform ν Os} {w w' : World ν Os} {f : ℕ} {s : Stream}

/-! ## Streams -/

/-- A call of a function that reads the stream. -/
inductive Attempt (C : Platform ν Os) (s : Stream) : Os → Os → Prop
  | fgets (os : Os) : Attempt C s os (C.fgets C.bufferSize s os).2
  | fread (n : ℕ) (os : Os) : Attempt C s os (C.fread n s os).2
  | fscanf (os : Os) : Attempt C s os (C.fscanf s os).2
  | getc (os : Os) : Attempt C s os (C.getc s os).2

/-- Calls of functions that read the stream. -/
abbrev Attempts (C : Platform ν Os) (s : Stream) : Os → Os → Prop :=
  Relation.ReflTransGen (Attempt C s)

/-- `failures` counts the calls that read the stream and fail with an input error: these, and no
other calls, set the error indicator. -/
structure Errors (C : Platform ν Os) (s : Stream) (failures : Os → ℕ) : Prop where
  attempt : ∀ os os', Attempt C s os os' →
    (failures os' = failures os ∧ C.ferror s os' = C.ferror s os) ∨
      (failures os' = failures os + 1 ∧ C.ferror s os' = true)
  clearerr : ∀ os, failures (C.clearerr s os) = failures os ∧ C.ferror s (C.clearerr s os) = false
  ungetc : ∀ c os, failures (C.ungetc c s os) = failures os

/-- Reading the stream never fails with an input error. -/
abbrev NoErrors (C : Platform ν Os) (s : Stream) : Prop := Errors C s fun _ => 0

/-- The stream behaves as the C standard says, without input errors; `file` is its state. -/
structure Reads (C : Platform ν Os) (s : Stream) (file : Os → InputStream) : Prop where
  clearerr : ∀ os, file (C.clearerr s os) = (file os).clearerr
  ferror : ∀ os, C.ferror s os = (file os).error
  fgets : ∀ n os, 2 ≤ n → (C.fgets n s os).1 = ((file os).fgets n).1 ∧
    file (C.fgets n s os).2 = ((file os).fgets n).2
  fgets_error : ∀ n os, (file (C.fgets n s os).2).error = (file os).error
  fread : ∀ n os, (C.fread n s os).1 = ((file os).fread n).1 ∧
    file (C.fread n s os).2 = ((file os).fread n).2
  /-- A number consists of bytes of the file. -/
  fscanf : ∀ os, ∃ n, (file os).Advances (file (C.fscanf s os).2) n ∧
    (file (C.fscanf s os).2).error = (file os).error
  getc : ∀ os, (C.getc s os).1 = (file os).getc.1 ∧ file (C.getc s os).2 = (file os).getc.2
  /-- The character that has just been read is put back. -/
  ungetc : ∀ b os, (C.getc s os).1 = some b →
    file (C.ungetc (some b) s (C.getc s os).2) = file os
  ungetc_eof : ∀ os, file (C.ungetc none s os) = file os

/-- A platform on which there is only one file, the state: all streams read from it, and what is
written disappears. -/
def fileDevice : Platform ℤ InputStream where
  stdin := 0
  stdout := 1
  stderr := 2
  fopen _ _ F := (some 3, F)
  fclose _ F := (true, F)
  clearerr _ F := F.clearerr
  ferror _ F := F.error
  fgets n _ F := F.fgets n
  fread n _ F := F.fread n
  fscanf _ F :=
    let digits := F.rest.takeWhile fun b => 48 ≤ b && b ≤ 57
    (if digits = [] then none else some (digits.foldl (fun n b => 10 * n + (b.toNat - 48 : ℤ)) 0),
      F.skip digits.length)
  getc _ F := F.getc
  ungetc c _ F := match c with
    | some _ => { F with position := F.position - 1, eof := false, atEnd := fun h => by cases h }
    | none => F
  fprintf _ _ F := (true, F)
  fwrite s _ F := (s.length, F)
  fflush _ F := (true, F)
  exists_ _ F := (some true, F)
  fseek _ _ _ F := (true, F)
  ftell _ F := (F.position, F)
  setvbuf _ _ _ F := (true, F)
  errno _ := 0
  strerror _ := Str.ascii "Success"
  bufferSize := 4
  str2number _ := none
  number2str n := Str.signed n
  toSize n := n.toNat
  toInteger n := n
  ofInteger n := n
  rounds := 8

theorem fileDevice_reads (s : Stream) : Reads fileDevice s id where
  clearerr _ := rfl
  ferror _ := rfl
  fgets _ _ _ := ⟨rfl, rfl⟩
  fgets_error _ _ := InputStream.fgets_error
  fread _ _ := ⟨rfl, rfl⟩
  fscanf F := ⟨_, F.advances_skip _, rfl⟩
  getc _ := ⟨rfl, rfl⟩
  ungetc b F h := by
    obtain ⟨hskip, heof, -⟩ := InputStream.getc_eq_some h
    change fileDevice.ungetc (some b) s F.getc.2 = F
    rw [hskip]
    cases F
    cases heof
    rfl
  ungetc_eof _ := rfl

/-- A stream that behaves as the standard says has no input errors. -/
theorem Reads.noErrors {file : Os → InputStream} (h : Reads C s file) : NoErrors C s where
  attempt os os' hos := by
    refine .inl ⟨rfl, ?_⟩
    rw [h.ferror, h.ferror]
    cases hos with
    | fgets => rw [h.fgets_error]
    | fread n => rw [(h.fread n _).2, InputStream.fread_error]
    | fscanf =>
      obtain ⟨n, -, herror⟩ := h.fscanf os
      exact herror
    | getc => rw [(h.getc _).2, InputStream.getc_error]
  clearerr os := ⟨rfl, by rw [h.ferror, h.clearerr]; rfl⟩
  ungetc _ _ := rfl

/-- Calls that read set the indicator if one of them fails. -/
theorem Errors.attempts {failures : Os → ℕ} {os os' : Os} (h : Errors C s failures)
    (hos : Attempts C s os os') : failures os ≤ failures os' ∧
      (C.ferror s os' = true ↔ C.ferror s os = true ∨ failures os < failures os') := by
  induction hos with
  | refl => exact ⟨Nat.le_refl _, by simp⟩
  | tail _ hstep ih =>
    rcases h.attempt _ _ hstep with ⟨hcount, hsame⟩ | ⟨hcount, htrue⟩
    · rw [hcount, hsame]
      exact ih
    · exact ⟨by omega, iff_of_true htrue (.inr (by omega))⟩

/-- After it has been cleared, the indicator tells whether a call has failed. -/
theorem Errors.cleared {failures : Os → ℕ} {os os' : Os} (h : Errors C s failures)
    (hos : Attempts C s (C.clearerr s os) os') : failures os ≤ failures os' ∧
      (C.ferror s os' = true ↔ failures os < failures os') := by
  obtain ⟨hle, hiff⟩ := h.attempts hos
  obtain ⟨hcount, hfalse⟩ := h.clearerr os
  rw [hcount] at hle hiff
  rw [hfalse] at hiff
  exact ⟨hle, by simpa using hiff⟩

/-- Without input errors the indicator is not set after it has been cleared. -/
theorem NoErrors.ferror {os os' : Os} (h : NoErrors C s)
    (hos : Attempts C s (C.clearerr s os) os') : C.ferror s os' = false := by
  have := (h.cleared hos).2
  simpa using this

/-! ## Programs that read -/

/-- The process but for error codes and the operating system. -/
def World.heap (w : World ν Os) : World ν Unit :=
  ⟨(), w.files.map fun x => { x with errorCode := 0 }, w.adapters, w.openedFilesCount, w.stdInput,
    w.stdOutput, w.stdError, w.vms⟩

/-- The file has the stream. -/
def Streams (w : World ν Os) (f : ℕ) (s : Stream) : Prop :=
  ∃ y, w.files[f]? = some y ∧ y.deleted = false ∧ y.fileHandle = some s

theorem heap_files (w : World ν Os) (f : ℕ) :
    w.heap.files[f]? = w.files[f]?.map fun x => { x with errorCode := 0 } :=
  List.getElem?_map ..

theorem Streams.congr (h : Streams w f s) (hw : w'.heap = w.heap) : Streams w' f s := by
  obtain ⟨y, hy, hd, hs⟩ := h
  have hfile : w'.heap.files[f]? = w.heap.files[f]? := by rw [hw]
  rw [heap_files, heap_files, hy] at hfile
  obtain ⟨z, hz, hzy⟩ := Option.map_eq_some_iff.1 hfile
  refine ⟨z, hz, ?_, ?_⟩
  · exact (congrArg BoostFile.deleted hzy).trans hd
  · exact (congrArg BoostFile.fileHandle hzy).trans hs

/-- The program `m` leaves the objects alone but for error codes, and relates the states of the
operating system. -/
def Within (T : Os → Os → Prop) (m : Eval ν Os α) (w : World ν Os) : Prop :=
  match m w with
  | .ok _ w' => w'.heap = w.heap ∧ T w.os w'.os
  | .error _ w' => w'.heap = w.heap ∧ T w.os w'.os

namespace Within

variable {T U : Os → Os → Prop} {m : Eval ν Os α} {k : α → Eval ν Os β}

theorem ok {a : α} (h : Within T m w) (hm : m w = .ok a w') : w'.heap = w.heap ∧ T w.os w'.os := by
  simpa only [Within, hm] using h

theorem error {e : Exn} (h : Within T m w) (hm : m w = .error e w') :
    w'.heap = w.heap ∧ T w.os w'.os := by
  simpa only [Within, hm] using h

theorem of_ok {a : α} (hm : m w = .ok a w') (hw : w'.heap = w.heap) (hT : T w.os w'.os) :
    Within T m w := by
  rw [Within, hm]
  exact ⟨hw, hT⟩

theorem of_error {e : Exn} (hm : m w = .error e w') (hw : w'.heap = w.heap) (hT : T w.os w'.os) :
    Within T m w := by
  rw [Within, hm]
  exact ⟨hw, hT⟩

/-- A program after one that returns. -/
theorem bind_ok {a : α} (hm : m w = .ok a w') (hw : w'.heap = w.heap) (hk : Within U (k a) w')
    (hT : ∀ os, U w'.os os → T w.os os) : Within T (m >>= k) w := by
  rw [Within, bind_of_ok hm]
  cases hr : k a w' with
  | ok b w'' => exact ⟨(hk.ok hr).1.trans hw, hT _ (hk.ok hr).2⟩
  | error e w'' => exact ⟨(hk.error hr).1.trans hw, hT _ (hk.error hr).2⟩

theorem bind (hm : Within T m w) (hk : ∀ a w', m w = .ok a w' → Within U (k a) w')
    (hT : ∀ os os', T w.os os → U os os' → T w.os os') : Within T (m >>= k) w := by
  cases hr : m w with
  | ok a w' =>
    exact bind_ok hr (hm.ok hr).1 (hk a w' hr) fun os => hT w'.os os (hm.ok hr).2
  | error e w' => exact of_error (bind_of_error hr) (hm.error hr).1 (hm.error hr).2

end Within

/-! ## Files -/

namespace LuaBoostFile

theorem stream_apply (h : Streams w f s) : stream f w = .ok s w := by
  obtain ⟨y, hy, hd, hs⟩ := h
  have hobject : object f w = .ok y w := by
    rw [object, bind_of_ok (get_apply w), hy]
    simp [hd]
  rw [stream, bind_of_ok hobject, hs]
  rfl

/-- An error code is all that `setError` changes. -/
theorem setError_heap (f : ℕ) (w : World ν Os) :
    ∃ w', setError C f w = .ok ⟨⟩ w' ∧ w'.heap = w.heap ∧ w'.os = w.os := by
  refine ⟨_, rfl, ?_, rfl⟩
  have hfiles : (w.files.modify f fun x => { x with errorCode := C.errno w.os }).map
      (fun x => { x with errorCode := 0 }) = w.files.map fun x => { x with errorCode := 0 } := by
    ext1 g
    rw [List.getElem?_map, List.getElem?_map, List.getElem?_modify]
    cases w.files[g]? with
    | none => rfl
    | some x => by_cases hfg : f = g <;> simp [hfg]
  simp only [World.heap]
  rw [hfiles]

theorem checked_heap (f : ℕ) (result : Bool) (w : World ν Os) :
    ∃ w', checked C f result w = .ok result w' ∧ w'.heap = w.heap ∧ w'.os = w.os := by
  cases result with
  | true => exact ⟨w, rfl, rfl, rfl⟩
  | false =>
    obtain ⟨w', hw', hheap, hos⟩ := setError_heap (C := C) f w
    exact ⟨w', by rw [checked]; exact bind_of_ok hw', hheap, hos⟩

theorem within_checked (f : ℕ) (result : Bool) (w : World ν Os) {T : Os → Os → Prop}
    (hT : T w.os w.os) : Within T (checked C f result) w := by
  obtain ⟨w', hw', hheap, hos⟩ := checked_heap (C := C) f result w
  exact .of_ok hw' hheap (hos ▸ hT)

/-- After `clearerr` only reading functions are called. -/
abbrev Cleared (C : Platform ν Os) (s : Stream) (os os' : Os) : Prop :=
  Attempts C s (C.clearerr s os) os'

/-- The beginning of the functions that read. -/
theorem within_clear {k : Stream → Eval ν Os α} (h : Streams w f s)
    (hk : Within (Attempts C s) (k s) { w with os := C.clearerr s w.os }) :
    Within (Cleared C s)
      (stream f >>= fun s => sysUnit (C.clearerr s) >>= fun _ => k s) w := by
  refine .bind_ok (stream_apply h) rfl ?_ fun _ h => h
  exact .bind_ok (U := Attempts C s) (T := Cleared C s) rfl rfl hk fun _ h => h

theorem within_readNumber (h : Streams w f s) : Within (Cleared C s) (readNumber C f) w := by
  refine within_clear h (.bind_ok rfl rfl (U := fun os os' => os' = os) ?_ ?_)
  · refine .bind (U := fun os os' => os' = os) (within_checked _ _ _ rfl) (fun _ _ _ => ?_) ?_
    · exact .of_ok rfl rfl rfl
    · rintro os os' rfl rfl
      rfl
  · rintro os rfl
    exact .single (.fscanf _)

theorem within_readLineLoop (f : ℕ) (s : Stream) (size n : ℕ) (line : Str) (w : World ν Os) :
    Within (Attempts C s) (readLineLoop C f s size n line) w := by
  induction n generalizing line w with
  | zero => exact .of_error rfl rfl .refl
  | succ n ih =>
    have hstep : Attempts C s w.os (C.fgets C.bufferSize s w.os).2 := .single (.fgets _)
    refine .bind_ok (U := Attempts C s) rfl rfl ?_ fun _ h => hstep.trans h
    cases (C.fgets C.bufferSize s w.os).1 with
    | none =>
      exact .bind (U := fun os os' => os' = os) (within_checked _ _ _ .refl)
        (fun _ _ _ => .of_ok rfl rfl rfl) fun os os' h hos => hos ▸ h
    | some buffer =>
      dsimp only
      split
      · exact .of_ok rfl rfl .refl
      · exact ih _ _

theorem within_readLine (h : Streams w f s) (line : Str) :
    Within (Cleared C s) (readLine C f line) w :=
  within_clear h (within_readLineLoop _ _ _ _ _ _)

theorem within_readLoop (s : Stream) (n numBytes : ℕ) (data : Str) (w : World ν Os) :
    Within (Attempts C s) (readLoop C s n numBytes data) w := by
  induction n generalizing numBytes data w with
  | zero => exact .of_error rfl rfl .refl
  | succ n ih =>
    have hstep : Attempts C s w.os (C.fread (readCount C numBytes) s w.os).2 :=
      .single (.fread _ _)
    refine .bind_ok (U := Attempts C s) rfl rfl ?_ fun _ h => hstep.trans h
    split
    · exact ih _ _ _
    · exact .of_ok rfl rfl .refl

theorem within_read (h : Streams w f s) (numBytes : ℕ) :
    Within (Cleared C s) (read C f numBytes) w := by
  apply within_clear h
  refine .bind (U := fun os os' => os' = os) (within_readLoop _ _ _ _ _) (fun data w' _ => ?_)
    fun os os' h hos => hos ▸ h
  refine .bind (U := fun os os' => os' = os) (within_checked _ _ _ rfl)
    (fun _ _ _ => .of_ok rfl rfl rfl) ?_
  rintro os os' rfl rfl
  rfl

/-- The probe for the end of the file. -/
theorem isEOF_apply (h : Streams w f s) : isEOF C f w = .ok (C.getc s w.os).1.isNone
    { w with os := C.clearerr s (C.ungetc (C.getc s w.os).1 s (C.getc s w.os).2) } := by
  rw [isEOF, bind_of_ok (stream_apply h)]
  rfl

/-- `hasFailed` looks at the error indicator. -/
theorem hasFailed_apply (h : Streams w f s) :
    ∃ w', hasFailed C f w = .ok (C.ferror s w.os) w' ∧ w'.heap = w.heap ∧ w'.os = w.os := by
  rw [hasFailed, bind_of_ok (stream_apply h), bind_of_ok (get_apply w)]
  cases C.ferror s w.os with
  | false => exact ⟨w, rfl, rfl, rfl⟩
  | true =>
    obtain ⟨w', hw', hheap, hos⟩ := setError_heap (C := C) f w
    exact ⟨w', bind_of_ok hw', hheap, hos⟩

theorem hasFailed_of_not (h : Streams w f s) (he : C.ferror s w.os = false) :
    hasFailed C f w = .ok false w := by
  rw [hasFailed, bind_of_ok (stream_apply h), bind_of_ok (get_apply w), he]
  rfl

end LuaBoostFile

end Jord.Io
