import Jord.Io.Reading

/-!
# Reads that can fail

A stream that behaves as the C standard says, but any call that reads it may also fail with an input
error (`ReadsOrFails`). What `read` does for a format still comes to an end (`Reader.ends`): in a
loop, a call that fails returns nothing or less than it was asked for, which ends the loop, and no
call gives back bytes that have been read.
-/

namespace Jord.Io

open Program

variable {ν Os : Type} {C : Platform ν Os} {w w' : World ν Os} {f : ℕ} {s : Stream}
  {v : LuaValue ν} {file : Os → InputStream} {failures : Os → ℕ}

/-- A call that reads the stream has failed: it counts as a failure and has set the indicator. -/
structure Failed (file : Os → InputStream) (failures : Os → ℕ) (os os' : Os) : Prop where
  count : failures os' = failures os + 1
  error : (file os').error = true
  advances : ∃ n, (file os).Advances (file os') n

/-- The stream behaves as the C standard says, and any call that reads it may fail instead; `file`
is its state, and `failures` counts the calls that have failed. -/
structure ReadsOrFails (C : Platform ν Os) (s : Stream) (file : Os → InputStream)
    (failures : Os → ℕ) : Prop where
  clearerr : ∀ os, file (C.clearerr s os) = (file os).clearerr ∧
    failures (C.clearerr s os) = failures os
  ferror : ∀ os, C.ferror s os = (file os).error
  fgets : ∀ n os, 2 ≤ n → (failures (C.fgets n s os).2 = failures os ∧
      (C.fgets n s os).1 = ((file os).fgets n).1 ∧
      file (C.fgets n s os).2 = ((file os).fgets n).2) ∨
    (Failed file failures os (C.fgets n s os).2 ∧ (C.fgets n s os).1 = none)
  fread : ∀ n os, (failures (C.fread n s os).2 = failures os ∧
      (C.fread n s os).1 = ((file os).fread n).1 ∧
      file (C.fread n s os).2 = ((file os).fread n).2) ∨
    (Failed file failures os (C.fread n s os).2 ∧ (C.fread n s os).1.length < n)
  /-- A number consists of bytes of the file; one is assigned even where the read after it fails. -/
  fscanf : ∀ os, (failures (C.fscanf s os).2 = failures os ∧
      (file (C.fscanf s os).2).error = (file os).error ∧
      ∃ n, (file os).Advances (file (C.fscanf s os).2) n) ∨
    Failed file failures os (C.fscanf s os).2
  getc : ∀ os, (failures (C.getc s os).2 = failures os ∧ (C.getc s os).1 = (file os).getc.1 ∧
      file (C.getc s os).2 = (file os).getc.2) ∨
    (Failed file failures os (C.getc s os).2 ∧ (C.getc s os).1 = none)
  /-- The character that has just been read is put back. -/
  ungetc : ∀ b os, (C.getc s os).1 = some b →
    file (C.ungetc (some b) s (C.getc s os).2) = file os
  ungetc_eof : ∀ os, file (C.ungetc none s os) = file os
  ungetc_failures : ∀ c os, failures (C.ungetc c s os) = failures os

namespace ReadsOrFails

/-- The indicator of errors is set by the calls that fail, and by no others. -/
theorem errors (hr : ReadsOrFails C s file failures) (hb : 2 ≤ C.bufferSize) :
    Errors C s failures where
  attempt os os' hos := by
    rw [hr.ferror, hr.ferror]
    cases hos with
    | fgets =>
      rcases hr.fgets C.bufferSize os hb with ⟨hcount, -, hfile⟩ | ⟨hfailed, -⟩
      · exact .inl ⟨hcount, by rw [hfile, InputStream.fgets_error]⟩
      · exact .inr ⟨hfailed.count, hfailed.error⟩
    | fread n =>
      rcases hr.fread n os with ⟨hcount, -, hfile⟩ | ⟨hfailed, -⟩
      · exact .inl ⟨hcount, by rw [hfile, InputStream.fread_error]⟩
      · exact .inr ⟨hfailed.count, hfailed.error⟩
    | fscanf =>
      rcases hr.fscanf os with ⟨hcount, herror, -⟩ | hfailed
      · exact .inl ⟨hcount, herror⟩
      · exact .inr ⟨hfailed.count, hfailed.error⟩
    | getc =>
      rcases hr.getc os with ⟨hcount, -, hfile⟩ | ⟨hfailed, -⟩
      · exact .inl ⟨hcount, by rw [hfile, InputStream.getc_error]⟩
      · exact .inr ⟨hfailed.count, hfailed.error⟩
  clearerr os := ⟨(hr.clearerr os).2, by rw [hr.ferror, (hr.clearerr os).1]; rfl⟩
  ungetc := hr.ungetc_failures

theorem rest_clearerr (hr : ReadsOrFails C s file failures) (os : Os) :
    (file (C.clearerr s os)).rest = (file os).rest := by
  rw [(hr.clearerr os).1]
  rfl

end ReadsOrFails

/-- No bytes come back. -/
theorem Failed.rest_le {os os' : Os} (h : Failed file failures os os') :
    (file os').rest.length ≤ (file os).rest.length := by
  obtain ⟨n, hadv⟩ := h.advances
  rw [hadv.rest, List.length_drop]
  exact Nat.sub_le _ _

namespace LuaBoostFile

/-- The program comes to its end, and there are no more bytes to read than before. -/
def Ends {α : Type} (file : Os → InputStream) (m : Eval ν Os α) (w : World ν Os) : Prop :=
  ∃ r w', m w = .ok r w' ∧ (file w'.os).rest.length ≤ (file w.os).rest.length

theorem Ends.bind {α β : Type} {m : Eval ν Os α} {k : α → Eval ν Os β} (hm : Ends file m w)
    (hk : ∀ r w', m w = .ok r w' → (file w'.os).rest.length ≤ (file w.os).rest.length →
      Ends file (k r) w') : Ends file (m >>= k) w := by
  obtain ⟨r, w₁, hrun, hrest⟩ := hm
  obtain ⟨r', w₂, hrun', hrest'⟩ := hk r w₁ hrun hrest
  exact ⟨r', w₂, (bind_of_ok hrun).trans hrun', hrest'.trans hrest⟩

theorem Ends.pure {α : Type} (r : α) : Ends file (pure r : Eval ν Os α) w :=
  ⟨r, w, rfl, Nat.le_refl _⟩

theorem ends_checked (f : ℕ) (result : Bool) (w : World ν Os) :
    Ends file (checked C f result) w := by
  obtain ⟨w', hw', -, hos⟩ := checked_heap (C := C) f result w
  exact ⟨_, w', hw', by rw [hos]⟩

theorem ends_clear (hr : ReadsOrFails C s file failures) (w : World ν Os) :
    Ends file (sysUnit (C.clearerr s) : Eval ν Os Unit) w :=
  ⟨⟨⟩, _, rfl, (congrArg List.length (hr.rest_clearerr w.os)).le⟩

theorem ends_stream (h : Streams w f s) : Ends file (stream f : Eval ν Os Stream) w :=
  ⟨s, w, stream_apply h, Nat.le_refl _⟩

theorem ends_readNumber (hr : ReadsOrFails C s file failures) (h : Streams w f s) :
    Ends file (readNumber C f) w := by
  refine (ends_stream h).bind fun s' w₁ hs _ => ?_
  obtain ⟨rfl, rfl⟩ := EStateM.Result.ok.inj (hs.symm.trans (stream_apply h))
  refine (ends_clear hr w₁).bind fun _ w₂ _ _ => ?_
  have hscan : Ends file (sys (C.fscanf s') : Eval ν Os (Option ν)) w₂ := by
    refine ⟨_, _, rfl, ?_⟩
    rcases hr.fscanf w₂.os with ⟨-, -, n, hadv⟩ | hfailed
    · exact (congrArg List.length hadv.rest).trans_le (List.length_drop ▸ Nat.sub_le _ _)
    · exact hfailed.rest_le
  exact hscan.bind fun _ _ _ _ => (ends_checked f _ _).bind fun _ _ _ _ => .pure _

/-- The loop of `readLine` ends with a call that fails, at the latest. -/
theorem ends_readLineLoop (hr : ReadsOrFails C s file failures) (hb : 2 ≤ C.bufferSize)
    (f size n : ℕ) (line : Str) (w : World ν Os) (hn : (file w.os).rest.length < n) :
    Ends file (readLineLoop C f s size n line) w := by
  induction n generalizing line w with
  | zero => exact absurd hn (Nat.not_lt_zero _)
  | succ n ih =>
    set w₁ : World ν Os := { w with os := (C.fgets C.bufferSize s w.os).2 } with hw₁
    have hstep : (sys (C.fgets C.bufferSize s) : Eval ν Os (Option Str)) w =
        .ok (C.fgets C.bufferSize s w.os).1 w₁ := rfl
    have hnone (hle : (file w₁.os).rest.length ≤ (file w.os).rest.length)
        (h : (C.fgets C.bufferSize s w.os).1 = none) :
        Ends file (readLineLoop C f s size (n + 1) line) w := by
      refine Ends.bind ⟨_, w₁, hstep, hle⟩ fun r w₂ hr₂ _ => ?_
      obtain ⟨rfl, rfl⟩ := EStateM.Result.ok.inj (hr₂.symm.trans hstep)
      rw [h]
      exact (ends_checked f _ _).bind fun _ _ _ _ => .pure _
    have hsome {buffer : Str} (hlt : (file w₁.os).rest.length < (file w.os).rest.length)
        (h : (C.fgets C.bufferSize s w.os).1 = some buffer) :
        Ends file (readLineLoop C f s size (n + 1) line) w := by
      refine Ends.bind ⟨_, w₁, hstep, hlt.le⟩ fun r w₂ hr₂ _ => ?_
      obtain ⟨rfl, rfl⟩ := EStateM.Result.ok.inj (hr₂.symm.trans hstep)
      rw [h]
      dsimp only
      split
      · exact .pure _
      · exact ih _ _ (by omega)
    rcases hr.fgets C.bufferSize w.os hb with ⟨-, hbuffer, hfile⟩ | ⟨hfailed, hbuffer⟩
    · rcases InputStream.fgets_cases (F := file w.os) hb with ⟨-, hnull, hadv⟩ |
        ⟨tail, hrest, hline, hadv⟩ | ⟨chunk, hne, -, hchunk, hrest, -, -⟩
      · refine hnone ?_ (hbuffer.trans hnull)
        rw [hw₁, hfile, hadv.rest, List.length_drop]
        exact Nat.sub_le _ _
      · refine hsome ?_ (hbuffer.trans hline)
        have := congrArg List.length hrest
        rw [List.length_append, List.length_cons] at this
        rw [hw₁, hfile, hadv.rest, List.length_drop]
        omega
      · refine hsome ?_ (hbuffer.trans hchunk)
        have hlen := congrArg List.length hrest
        have hpos := List.length_pos_iff.2 hne
        rw [List.length_append] at hlen
        rw [hw₁, hfile]
        omega
    · exact hnone hfailed.rest_le hbuffer

theorem ends_readLine (hr : ReadsOrFails C s file failures) (hb : 2 ≤ C.bufferSize)
    (h : Streams w f s) (hrounds : (file w.os).rest.length < C.rounds) (line : Str) :
    Ends file (readLine C f line) w := by
  refine (ends_stream h).bind fun s' w₁ hs _ => ?_
  obtain ⟨rfl, rfl⟩ := EStateM.Result.ok.inj (hs.symm.trans (stream_apply h))
  exact (ends_clear hr w₁).bind fun _ w₂ _ hle =>
    ends_readLineLoop hr hb f _ _ line w₂ (hle.trans_lt hrounds)

/-- The loop of `read` goes on only after a call that has read all it was asked for. -/
theorem ends_readLoop (hr : ReadsOrFails C s file failures) (hb : 1 ≤ C.bufferSize)
    (n numBytes : ℕ) (data : Str) (w : World ν Os) (hn : (file w.os).rest.length < n) :
    Ends file (readLoop C s n numBytes data) w := by
  induction n generalizing numBytes data w with
  | zero => exact absurd hn (Nat.not_lt_zero _)
  | succ n ih =>
    set k := readCount C numBytes with hk
    set w₁ : World ν Os := { w with os := (C.fread k s w.os).2 } with hw₁
    have hstep : (sys (C.fread k s) : Eval ν Os Str) w = .ok (C.fread k s w.os).1 w₁ := rfl
    have hpos (h : 0 < numBytes) : 0 < k := by
      rw [hk, readCount]
      split <;> omega
    -- a call that reads all it was asked for has read it from the file
    have hread : (file w₁.os).rest.length ≤ (file w.os).rest.length ∧
        ((C.fread k s w.os).1.length = k →
          (file w₁.os).rest.length + k = (file w.os).rest.length) := by
      rcases hr.fread k w.os with ⟨-, hbytes, hfile⟩ | ⟨hfailed, hshort⟩
      · obtain ⟨htake, hadv⟩ := InputStream.fread_eq (F := file w.os) (n := k)
        rw [hbytes, htake, hw₁, hfile, hadv.rest, List.length_take, List.length_drop]
        omega
      · exact ⟨hfailed.rest_le, fun h => absurd h hshort.ne⟩
    refine Ends.bind ⟨_, w₁, hstep, hread.1⟩ fun r w₂ hr₂ _ => ?_
    obtain ⟨rfl, rfl⟩ := EStateM.Result.ok.inj (hr₂.symm.trans hstep)
    split
    · next hmore =>
      have hall := hread.2 hmore.2
      have := hpos (by omega)
      exact ih _ _ _ (by omega)
    · exact .pure _

theorem ends_read (hr : ReadsOrFails C s file failures) (hb : 1 ≤ C.bufferSize)
    (h : Streams w f s) (hrounds : (file w.os).rest.length < C.rounds) (numBytes : ℕ) :
    Ends file (read C f numBytes) w := by
  refine (ends_stream h).bind fun s' w₁ hs _ => ?_
  obtain ⟨rfl, rfl⟩ := EStateM.Result.ok.inj (hs.symm.trans (stream_apply h))
  exact (ends_clear hr w₁).bind fun _ w₂ _ hle =>
    (ends_readLoop hr hb _ numBytes [] w₂ (hle.trans_lt hrounds)).bind fun _ _ _ _ =>
      (ends_checked f _ _).bind fun _ _ _ _ => .pure _

/-- The probe for the end of the file puts back what it has read. -/
theorem ends_isEOF (hr : ReadsOrFails C s file failures) (h : Streams w f s) :
    Ends file (isEOF C f) w := by
  refine ⟨_, _, isEOF_apply h, ?_⟩
  rw [hr.rest_clearerr]
  cases hc : (C.getc s w.os).1 with
  | some b => exact (congrArg (fun F => F.rest.length) (hr.ungetc b w.os hc)).le
  | none =>
    rw [hr.ungetc_eof]
    rcases hr.getc w.os with ⟨-, hvalue, hfile⟩ | ⟨hfailed, -⟩
    · have hrest := InputStream.getc_eq_none.1 (hvalue.symm.trans hc)
      rw [hfile, InputStream.getc, hrest]
      exact (congrArg List.length InputStream.rest_toEnd).le.trans (Nat.zero_le _)
    · exact hfailed.rest_le

end LuaBoostFile

/-- What `read` does for a format comes to an end, whether calls fail or not. -/
theorem Reader.ends {m : ℕ → Eval ν Os (Bool × LuaValue ν)}
    (hr : ReadsOrFails C s file failures) (hb : 2 ≤ C.bufferSize) (h : Reader C v m)
    (hs : Streams w f s) (hrounds : (file w.os).rest.length < C.rounds) :
    LuaBoostFile.Ends file (m f) w := by
  cases h with
  | probe => exact (LuaBoostFile.ends_isEOF hr hs).bind fun _ _ _ _ => .pure _
  | count => exact (LuaBoostFile.ends_read hr (by omega) hs hrounds _).bind fun _ _ _ _ => .pure _
  | number => exact (LuaBoostFile.ends_readNumber hr hs).bind fun _ _ _ _ => .pure _
  | line => exact (LuaBoostFile.ends_readLine hr hb hs hrounds _).bind fun _ _ _ _ => .pure _
  | all => exact (LuaBoostFile.ends_read hr (by omega) hs hrounds _).bind fun _ _ _ _ => .pure _

end Jord.Io
