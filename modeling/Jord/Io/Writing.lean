import Jord.Foundations.OutputStream
import Jord.Io.ReadErrors

/-!
# Writing

The calls of the C library that write to a stream or move it, what is relied on of them, and how
`write` and `seek` make them.

* `OutputCall` is such a call, and `runCalls` makes one after the other, up to the first that fails.
* `Writes C s out` is a stream whose successful calls are those of an `OutputStream`. Of a call that
  fails nothing is said but that it fails.
* `writeArgs_run`: the loop of `write` makes the calls for its arguments.
-/

namespace Jord.Io

open Program

variable {ν Os : Type} {C : Platform ν Os} {w w' : World ν Os} {a f : ℕ} {s : Stream}
  {args : List (LuaValue ν)} {out : Os → OutputStream} {os : Os}

/-! ## Streams -/

/-- A call of the C library that writes to a stream or moves it. -/
inductive OutputCall (ν : Type)
  | fwrite (bs : Str)
  | fprintf (n : ν)
  | fflush
  /-- `fseek`, after which `ftell` is called in any case. -/
  | fseek (offset : ℤ) (mode : SeekMode)

/-- The position from which an offset counts. -/
def origin (F : OutputStream) : SeekMode → ℕ
  | .set => 0
  | .cur => F.position
  | .fromEnd => F.content.length

namespace OutputCall

/-- Whether the call succeeds, and the state after it. -/
def run (C : Platform ν Os) (s : Stream) (os : Os) : OutputCall ν → Bool × Os
  | fwrite bs => (decide ((C.fwrite bs s os).1 = bs.length), (C.fwrite bs s os).2)
  | fprintf n => C.fprintf n s os
  | fflush => C.fflush (some s) os
  | fseek offset mode =>
    ((C.fseek s offset mode os).1, (C.ftell s (C.fseek s offset mode os).2).2)

/-- What the call does to the stream if it succeeds. -/
def effect (C : Platform ν Os) (F : OutputStream) : OutputCall ν → OutputStream
  | fwrite bs => F.write bs
  | fprintf n => F.write (C.number2str n)
  | fflush => F
  | fseek offset mode => (F.moveTo (origin F mode + offset)).getD F

/-- The bytes that the call writes. -/
def text (C : Platform ν Os) : OutputCall ν → Str
  | fwrite bs => bs
  | fprintf n => C.number2str n
  | fflush => []
  | fseek _ _ => []

end OutputCall

/-- Calls one after the other, up to the first that fails. -/
def runCalls (C : Platform ν Os) (s : Stream) : List (OutputCall ν) → Os → Bool × Os
  | [], os => (true, os)
  | c :: cs, os => if (c.run C s os).1 then runCalls C s cs (c.run C s os).2 else c.run C s os

theorem runCalls_single (c : OutputCall ν) (os : Os) : runCalls C s [c] os = c.run C s os := by
  unfold runCalls
  split
  · next h => exact Prod.ext h.symm rfl
  · rfl

/-- Calls after others, which have all succeeded. -/
theorem runCalls_append (cs ds : List (OutputCall ν)) (os : Os) :
    runCalls C s (cs ++ ds) os = if (runCalls C s cs os).1 then
      runCalls C s ds (runCalls C s cs os).2 else runCalls C s cs os := by
  induction cs generalizing os with
  | nil => rfl
  | cons c cs ih =>
    rw [List.cons_append, runCalls, runCalls]
    cases hc : (c.run C s os).1 with
    | true => simpa using ih (c.run C s os).2
    | false => simp [hc]

/-- The stream behaves as the C standard says; `out` is its state. The state after a call that fails
is left open. -/
structure Writes (C : Platform ν Os) (s : Stream) (out : Os → OutputStream) : Prop where
  fwrite : ∀ bs os, (C.fwrite bs s os).1 = bs.length →
    out (C.fwrite bs s os).2 = (out os).write bs
  fprintf : ∀ n os, (C.fprintf n s os).1 = true →
    out (C.fprintf n s os).2 = (out os).write (C.number2str n)
  fflush : ∀ os, (C.fflush (some s) os).1 = true → out (C.fflush (some s) os).2 = out os
  fseek : ∀ offset mode os, (C.fseek s offset mode os).1 = true →
    (out os).moveTo (origin (out os) mode + offset) = some (out (C.fseek s offset mode os).2)
  /-- A position that cannot be told is `-1`. -/
  ftell : ∀ os, ((C.ftell s os).1 = -1 ∨ (C.ftell s os).1 = (out os).position) ∧
    out (C.ftell s os).2 = out os

/-- A call that succeeds. -/
theorem Writes.run (hW : Writes C s out) {c : OutputCall ν} (h : (c.run C s os).1 = true) :
    out (c.run C s os).2 = c.effect C (out os) := by
  cases c with
  | fwrite bs => exact hW.fwrite bs os (of_decide_eq_true h)
  | fprintf n => exact hW.fprintf n os h
  | fflush => exact hW.fflush os h
  | fseek offset mode =>
    rw [OutputCall.effect, hW.fseek offset mode os h]
    exact (hW.ftell _).2

/-- Calls that all succeed. -/
theorem Writes.runCalls (hW : Writes C s out) {cs : List (OutputCall ν)}
    (h : (runCalls C s cs os).1 = true) :
    out (runCalls C s cs os).2 = cs.foldl (OutputCall.effect C) (out os) := by
  induction cs generalizing os with
  | nil => rfl
  | cons c cs ih =>
    rw [Io.runCalls] at h ⊢
    cases hc : (c.run C s os).1 with
    | true =>
      rw [hc, if_pos rfl] at h
      rw [if_pos rfl, ih h, hW.run hc, List.foldl_cons]
    | false =>
      rw [hc, if_neg Bool.false_ne_true] at h
      exact absurd h (by rw [hc]; exact Bool.false_ne_true)

/-! ## Programs that write -/

/-- The program leaves the objects alone but for error codes. -/
structure Leads (w : World ν Os) (os : Os) (w' : World ν Os) : Prop where
  heap : w'.heap = w.heap
  os : w'.os = os

namespace LuaBoostFile

/-- A call of the C library, and the error code after it. -/
theorem checked_leads (f : ℕ) (b : Bool) (os : Os) (w : World ν Os) :
    ∃ w', checked C f b { w with os := os } = .ok b w' ∧ Leads w os w' := by
  obtain ⟨w', hw', hheap, hos⟩ := checked_heap (C := C) f b { w with os := os }
  exact ⟨w', hw', hheap, hos⟩

theorem writeBuffer_run (h : Streams w f s) (data : Str) :
    ∃ w', writeBuffer C f data w = .ok ((OutputCall.fwrite data).run C s w.os).1 w' ∧
      Leads w ((OutputCall.fwrite data).run C s w.os).2 w' := by
  rw [writeBuffer, bind_of_ok (stream_apply h)]
  exact checked_leads ..

theorem writeNumber_run (h : Streams w f s) (n : ν) :
    ∃ w', writeNumber C f n w = .ok ((OutputCall.fprintf n).run C s w.os).1 w' ∧
      Leads w ((OutputCall.fprintf n).run C s w.os).2 w' := by
  rw [writeNumber, bind_of_ok (stream_apply h)]
  exact checked_leads ..

theorem flush_run (h : Streams w f s) :
    ∃ w', flush C f w = .ok ((OutputCall.fflush : OutputCall ν).run C s w.os).1 w' ∧
      Leads w ((OutputCall.fflush : OutputCall ν).run C s w.os).2 w' := by
  obtain ⟨y, hy, hd, hs⟩ := h
  rw [flush, bind_of_ok (object_apply hy hd), hs]
  exact checked_leads ..

/-- The position after a `seek` is asked for even if it has failed. -/
theorem seek_run (h : Streams w f s) (mode : SeekMode) (offset : ℤ) :
    ∃ w', seek C f mode offset w = .ok (((OutputCall.fseek offset mode).run C s w.os).1,
        (C.ftell s (C.fseek s offset mode w.os).2).1) w' ∧
      Leads w ((OutputCall.fseek offset mode).run C s w.os).2 w' := by
  obtain ⟨w₁, hw₁, hleads⟩ := checked_leads (C := C) f (C.fseek s offset mode w.os).1
    (C.fseek s offset mode w.os).2 w
  refine ⟨{ w₁ with os := (C.ftell s w₁.os).2 }, ?_, hleads.heap, ?_⟩
  · rw [seek, bind_of_ok (stream_apply h), ← hleads.os]
    exact bind_of_ok hw₁
  · rw [hleads.os]
    rfl

end LuaBoostFile

/-! ## The arguments of `write` -/

/-- Every value is a string or a number. -/
def AllText (C : Platform ν Os) (args : List (LuaValue ν)) : Prop :=
  ∀ v ∈ args, (LuaValue.toLString C (some v)).isSome

/-- The calls that `write` makes for its arguments, up to the first that has no text. -/
def writeCalls : List (LuaValue ν) → List (OutputCall ν)
  | .number n :: vs => .fprintf n :: writeCalls vs
  | .string t :: vs => .fwrite t :: writeCalls vs
  | _ => []

namespace LuaFileAdapter

/-- A value has no text and is refused, or it has one, and there is a call that writes it. -/
theorem writeArg_cases (h : Streams w f s) (n : ℤ) (v : LuaValue ν) (vs : List (LuaValue ν)) :
    ((LuaValue.toLString C (some v)).isSome = false ∧ writeCalls (v :: vs) = [] ∧
        ∀ status, ∃ message, writeArg C f n status v w = .error (.argError n message) w) ∨
      ∃ c w', (LuaValue.toLString C (some v)).isSome = true ∧
        writeCalls (v :: vs) = c :: writeCalls vs ∧
        writeArg C f n true v w = .ok (c.run C s w.os).1 w' ∧ Leads w (c.run C s w.os).2 w' ∧
        ∀ w, writeArg C f n false v w = .ok false w := by
  cases v with
  | number k =>
    obtain ⟨w', hw', hleads⟩ := LuaBoostFile.writeNumber_run (C := C) h k
    exact .inr ⟨.fprintf k, w', rfl, rfl, hw', hleads, fun _ => rfl⟩
  | string t =>
    obtain ⟨w', hw', hleads⟩ := LuaBoostFile.writeBuffer_run (C := C) h t
    exact .inr ⟨.fwrite t, w', rfl, rfl, hw', hleads, fun _ => rfl⟩
  | _ => exact .inl ⟨rfl, rfl, fun _ => ⟨_, rfl⟩⟩

/-- What the loop of `write` comes to: it returns, or refuses an argument. -/
def LoopEnds (C : Platform ν Os) (f : ℕ) (n : ℤ) (args : List (LuaValue ν)) (status result : Bool)
    (w w' : World ν Os) : Prop :=
  (AllText C args ∧ writeArgs C f n args status w = .ok result w') ∨
    (¬ AllText C args ∧
      ∃ k message, writeArgs C f n args status w = .error (.argError k message) w')

theorem LoopEnds.refused {v : LuaValue ν} {n : ℤ} {status result : Bool} {message : Str}
    (hv : (LuaValue.toLString C (some v)).isSome = false)
    (hrun : writeArg C f n status v w = .error (.argError n message) w) :
    LoopEnds C f n (v :: args) status result w w := by
  refine .inr ⟨fun hall => ?_, n, message, bind_of_error hrun⟩
  have hsome := hall v List.mem_cons_self
  rw [hv] at hsome
  cases hsome

theorem LoopEnds.cons {v : LuaValue ν} {n : ℤ} {status b result : Bool} {w₁ : World ν Os}
    (hv : (LuaValue.toLString C (some v)).isSome = true)
    (hrun : writeArg C f n status v w = .ok b w₁)
    (h : LoopEnds C f (n + 1) args b result w₁ w') :
    LoopEnds C f n (v :: args) status result w w' := by
  have hcons : AllText C (v :: args) ↔ AllText C args :=
    List.forall_mem_cons.trans (and_iff_right hv)
  unfold LoopEnds
  rw [hcons, writeArgs, bind_of_ok hrun]
  exact h

/-- The rest of the loop of `write` after a failure: the arguments are still checked. -/
theorem writeArgs_stopped (h : Streams w f s) (n : ℤ) (args : List (LuaValue ν)) :
    LoopEnds C f n args false false w w := by
  induction args generalizing n with
  | nil => exact .inl ⟨List.forall_mem_nil _, rfl⟩
  | cons v args ih =>
    rcases writeArg_cases (C := C) h n v args with ⟨hv, -, hrefused⟩ |
      ⟨c, w', hv, -, -, -, hstopped⟩
    · obtain ⟨message, hrun⟩ := hrefused false
      exact .refused hv hrun
    · exact .cons hv (hstopped w) (ih (n + 1))

/-- **The loop of `write`** makes the calls for its arguments, and is refused at the first that has
no text. -/
theorem writeArgs_run (h : Streams w f s) (n : ℤ) (args : List (LuaValue ν)) :
    ∃ w', Leads w (runCalls C s (writeCalls args) w.os).2 w' ∧
      LoopEnds C f n args true (runCalls C s (writeCalls args) w.os).1 w w' := by
  induction args generalizing n w with
  | nil => exact ⟨w, ⟨rfl, rfl⟩, .inl ⟨List.forall_mem_nil _, rfl⟩⟩
  | cons v args ih =>
    rcases writeArg_cases (C := C) h n v args with ⟨hv, hcalls, hrefused⟩ |
      ⟨c, w₁, hv, hcalls, hrun, hleads, -⟩
    · obtain ⟨message, hrun⟩ := hrefused true
      rw [hcalls]
      exact ⟨w, ⟨rfl, rfl⟩, .refused hv hrun⟩
    · have hstreams := h.congr hleads.heap
      rw [hcalls, runCalls]
      cases hc : (c.run C s w.os).1 with
      | false =>
        rw [hc] at hrun
        rw [if_neg Bool.false_ne_true, hc]
        exact ⟨w₁, hleads, .cons hv hrun (writeArgs_stopped hstreams (n + 1) args)⟩
      | true =>
        rw [hc] at hrun
        obtain ⟨w', hrest, hend⟩ := ih hstreams (n + 1)
        rw [hleads.os] at hrest hend
        rw [if_pos rfl]
        exact ⟨w', ⟨hrest.heap.trans hleads.heap, hrest.os⟩, .cons hv hrun hend⟩

end LuaFileAdapter

/-! ## The arguments of `seek` -/

/-- The option that an argument with a default stands for. -/
def chosenOption {α : Type} (C : Platform ν Os) (v : Option (LuaValue ν)) (d : Str)
    (options : List (Str × α)) : Option α :=
  (if LuaValue.isNoneOrNil v then some d else LuaValue.toLString C v).bind fun name =>
    options.lookup (cstr name)

/-- The integer that an argument with a default stands for. -/
def chosenInteger (C : Platform ν Os) (v : Option (LuaValue ν)) (d : ℤ) : Option ℤ :=
  if LuaValue.isNoneOrNil v then some d else (v.bind (LuaValue.toNumber C)).map C.toInteger

/-- The mode and the offset that `seek` is asked for. -/
def seekRequest (C : Platform ν Os) (args : List (LuaValue ν)) : Option (SeekMode × ℤ) :=
  (chosenOption C args[0]? (Str.ascii "cur")
    [(Str.ascii "set", SeekMode.set), (Str.ascii "cur", .cur), (Str.ascii "end", .fromEnd)]).bind
      fun mode => (chosenInteger C args[1]? 0).map fun offset => (mode, offset)

theorem checkOption_apply {α : Type} (n : ℤ) (v : Option (LuaValue ν)) (d : Str)
    (options : List (Str × α)) (w : World ν Os) :
    (∃ x, chosenOption C v d options = some x ∧
        checkOption C n v (some d) options w = .ok x w) ∨
      (chosenOption C v d options = none ∧
        ∃ message, checkOption C n v (some d) options w = .error (.argError n message) w) := by
  unfold chosenOption checkOption
  have hname : (∃ name, (if LuaValue.isNoneOrNil v then some d else LuaValue.toLString C v) =
        some name ∧ optLString C n v d w = .ok name w) ∨
      ((if LuaValue.isNoneOrNil v then some d else LuaValue.toLString C v) = none ∧
        ∃ message, optLString C n v d w = .error (.argError n message) w) := by
    unfold optLString checkLString
    by_cases hnone : LuaValue.isNoneOrNil v
    · rw [if_pos hnone, if_pos hnone]
      exact .inl ⟨d, rfl, rfl⟩
    · rw [if_neg hnone, if_neg hnone]
      cases LuaValue.toLString C v with
      | none => exact .inr ⟨rfl, _, rfl⟩
      | some name => exact .inl ⟨name, rfl, rfl⟩
  rw [Option.elim_some]
  rcases hname with ⟨name, hname, hrun⟩ | ⟨hnone, message, hrun⟩
  · rw [hname, Option.bind_some, bind_of_ok hrun]
    cases options.lookup (cstr name) with
    | none => exact .inr ⟨rfl, _, rfl⟩
    | some x => exact .inl ⟨x, rfl, rfl⟩
  · rw [hnone]
    exact .inr ⟨rfl, message, bind_of_error hrun⟩

theorem optInteger_apply (n : ℤ) (v : Option (LuaValue ν)) (d : ℤ) (w : World ν Os) :
    (∃ k, chosenInteger C v d = some k ∧ optInteger C n v d w = .ok k w) ∨
      (chosenInteger C v d = none ∧
        ∃ message, optInteger C n v d w = .error (.argError n message) w) := by
  unfold chosenInteger optInteger
  by_cases hnone : LuaValue.isNoneOrNil v
  · rw [if_pos hnone, if_pos hnone]
    exact .inl ⟨d, rfl, rfl⟩
  · rw [if_neg hnone, if_neg hnone]
    cases v.bind (LuaValue.toNumber C) with
    | none => exact .inr ⟨rfl, _, rfl⟩
    | some k => exact .inl ⟨_, rfl, rfl⟩

/-! ## A disk -/

/-- A disk with one file: what it holds, the stream that writes it and the one that reads it. -/
structure Disk where
  saved : { bs : Str // bs.length < 2 ^ 64 }
  written : OutputStream
  reading : InputStream

/-- A disk with a file that is closed. -/
def Disk.ofContent (bs : Str) (h : bs.length < 2 ^ 64) : Disk := ⟨⟨bs, h⟩, .empty, .ofContent bs h⟩

/-- A platform on which all paths name the one file of the disk. Stream 3 writes to it, and stream 4
reads it. -/
def diskDevice : Platform ℤ Disk where
  stdin := 0
  stdout := 1
  stderr := 2
  fopen _ mode d :=
    if mode = Str.ascii "w" then (some 3, { d with saved := ⟨[], by decide⟩, written := .empty })
    else if mode = Str.ascii "a" then (some 3, { d with written := ⟨d.saved.1, 0, true⟩ })
    else (some 4, { d with reading := .ofContent d.saved.1 d.saved.2 })
  fclose s d :=
    if s = 3 then
      if h : d.written.content.length < 2 ^ 64 then
        (true, { d with saved := ⟨d.written.content, h⟩ })
      else (false, d)
    else (true, d)
  clearerr _ d := { d with reading := d.reading.clearerr }
  ferror _ d := d.reading.error
  fgets n _ d := ((d.reading.fgets n).1, { d with reading := (d.reading.fgets n).2 })
  fread n _ d := ((d.reading.fread n).1, { d with reading := (d.reading.fread n).2 })
  fscanf s d := ((fileDevice.fscanf s d.reading).1,
    { d with reading := (fileDevice.fscanf s d.reading).2 })
  getc _ d := (d.reading.getc.1, { d with reading := d.reading.getc.2 })
  ungetc c s d := { d with reading := fileDevice.ungetc c s d.reading }
  fprintf n _ d := (true, { d with written := d.written.write (Str.signed n) })
  fwrite bs _ d := (bs.length, { d with written := d.written.write bs })
  fflush _ d := (true, d)
  exists_ _ d := (some true, d)
  fseek _ offset mode d :=
    match d.written.moveTo (origin d.written mode + offset) with
    | some F => (true, { d with written := F })
    | none => (false, d)
  ftell _ d := (d.written.position, d)
  setvbuf _ _ _ d := (true, d)
  errno _ := 22
  strerror _ := Str.ascii "Invalid argument"
  bufferSize := 4
  str2number _ := none
  number2str n := Str.signed n
  toSize n := n.toNat
  toInteger n := n
  ofInteger n := n
  rounds := 64

theorem diskDevice_writes (s : Stream) : Writes diskDevice s Disk.written where
  fwrite _ _ _ := rfl
  fprintf _ _ _ := rfl
  fflush _ _ := rfl
  fseek offset mode d h := by
    have hseek : diskDevice.fseek s offset mode d =
        match d.written.moveTo (origin d.written mode + offset) with
        | some F => (true, { d with written := F })
        | none => (false, d) := rfl
    cases hmoved : d.written.moveTo (origin d.written mode + offset) with
    | none =>
      rw [hseek, hmoved] at h
      cases h
    | some F => rw [hseek, hmoved]
  ftell _ := ⟨.inr rfl, rfl⟩

theorem diskDevice_reads (s : Stream) : Reads diskDevice s Disk.reading where
  clearerr _ := rfl
  ferror _ := rfl
  fgets _ _ _ := ⟨rfl, rfl⟩
  fgets_error n d := (fileDevice_reads s).fgets_error n d.reading
  fread _ _ := ⟨rfl, rfl⟩
  fscanf d := (fileDevice_reads s).fscanf d.reading
  getc _ := ⟨rfl, rfl⟩
  ungetc b d h := (fileDevice_reads s).ungetc b d.reading h
  ungetc_eof _ := rfl

/-- The process with one VM, on a disk. -/
def diskVm (d : Disk) : World ℤ Disk := (machine diskDevice).next (initial diskDevice d) .startvm

theorem diskVm_opened (d : Disk) : Opened (diskVm d) 1 1 diskDevice.stdout :=
  ⟨⟨_, rfl, rfl, rfl⟩, _, rfl, rfl, rfl⟩

end Jord.Io
