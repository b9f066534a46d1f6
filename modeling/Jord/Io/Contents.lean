import Mathlib.Data.List.TakeWhile
import Jord.Io.Stdio

/-!
# What is read of a file

`readLine` and `read` of a stream that behaves as the C standard says: they come to an end, and
return what the file has at the position.

* `readLine_apply`: a line without NUL is returned as it is. The chunks that `fgets` has stored are
  measured with `strlen`, so that nothing else is promised of a line with NUL.
* `read_apply`: as many bytes as there are, at most the number asked for.
-/

namespace Jord

/-- The bytes of a line with the newline that ends it. -/
def lineLength (bs : List UInt8) : ℕ := (line bs).length + if 10 ∈ bs then 1 else 0

theorem drop_line {bs l tail : List UInt8} (h : bs = l ++ 10 :: tail) :
    bs.drop (l.length + 1) = tail := by
  subst h
  simp

theorem not_mem_line (bs : List UInt8) : 10 ∉ line bs := by
  intro h
  have := List.mem_takeWhile_imp h
  simp at this

end Jord

namespace Jord.Io

open Program

variable {ν Os : Type} {C : Platform ν Os} {w : World ν Os} {f : ℕ} {s : Stream}
  {file : Os → InputStream}

/-! ## C strings -/

theorem zero_notMem_cstr (bs : Str) : 0 ∉ cstr bs := Str.zero_notMem_takeWhile bs

theorem cstr_eq_self {bs : Str} (h : 0 ∉ bs) : cstr bs = bs := Str.takeWhile_of_zero_notMem h

theorem mem_of_mem_cstr {bs : Str} {b : UInt8} (h : b ∈ cstr bs) : b ∈ bs :=
  (List.takeWhile_prefix _).subset h

theorem cstr_append_of_mem {bs : Str} (h : 0 ∈ bs) (cs : Str) : cstr (bs ++ cs) = cstr bs := by
  unfold cstr
  rw [List.takeWhile_append, if_neg]
  intro hlen
  have hself : bs.takeWhile (· != 0) = bs := (List.takeWhile_prefix _).eq_of_length hlen
  have := List.takeWhile_eq_self_iff.1 hself 0 h
  simp at this

/-! ## Lines -/

/-- What `readLine` makes of the bytes that are left, when it has read `acc` before: it returns the
line `l` and goes on by `n` bytes. A line with NUL is lost. -/
structure LineRead (rest acc : Str) (success : Bool) (l : Str) (n : ℕ) : Prop where
  noNul : 0 ∉ l
  exact : 0 ∉ line rest →
    l = acc ++ line rest ∧ n = lineLength rest ∧ (success = true ↔ rest ≠ [] ∨ acc ≠ [])

namespace LineRead

variable {rest acc l chunk tail : Str} {success : Bool} {n : ℕ}

theorem atEnd (hacc : 0 ∉ acc) : LineRead [] acc (0 < acc.length - 0) acc 0 where
  noNul := hacc
  exact _ := by simp [line, lineLength, List.length_pos_iff]

theorem newline (hacc : 0 ∉ acc) (hline : 0 ∉ line rest) (hrest : rest = line rest ++ 10 :: tail) :
    LineRead rest acc true (acc ++ line rest) ((line rest).length + 1) where
  noNul := by simp [hacc, hline]
  exact _ := by
    have hmem : 10 ∈ rest := by
      rw [hrest]
      simp
    refine ⟨rfl, by rw [lineLength, if_pos hmem], iff_of_true rfl (.inl ?_)⟩
    exact List.ne_nil_of_mem hmem

/-- Nothing more is promised of a line with NUL. -/
theorem lost (hline : 0 ∈ line rest) (hl : 0 ∉ l) : LineRead rest acc success l n :=
  ⟨hl, fun h => absurd hline h⟩

/-- A part of the line, after which it goes on. -/
theorem part (hne : chunk ≠ []) (hchunk : 10 ∉ chunk) (hline : line rest = chunk ++ line tail)
    (hrest : rest = chunk ++ tail) (h : LineRead tail (acc ++ cstr chunk) success l n) :
    LineRead rest acc success l (chunk.length + n) where
  noNul := h.noNul
  exact hnul := by
    rw [hline, List.mem_append, not_or] at hnul
    obtain ⟨hl, hn, hs⟩ := h.exact hnul.2
    rw [cstr_eq_self hnul.1] at hl hs
    refine ⟨by rw [hl, hline, List.append_assoc], ?_, hs.trans (iff_of_true ?_ ?_)⟩
    · rw [hn, lineLength, lineLength, hline, hrest, List.length_append, Nat.add_assoc]
      simp [hchunk]
    · exact .inr (List.append_ne_nil_of_right_ne_nil _ hne)
    · exact .inl (hrest ▸ List.append_ne_nil_of_left_ne_nil hne _)

end LineRead

namespace LuaBoostFile

/-- The loop of `readLine`, which has read `acc` so far. -/
theorem readLineLoop_apply (hr : Reads C s file) (hb : 2 ≤ C.bufferSize) (fuel : ℕ) (acc : Str)
    (hfuel : (file w.os).rest.length < fuel) (hacc : 0 ∉ acc) :
    ∃ success l w' n, readLineLoop C f s 0 fuel acc w = .ok (success, l) w' ∧
      (file w.os).Advances (file w'.os) n ∧ LineRead (file w.os).rest acc success l n := by
  induction fuel generalizing acc w with
  | zero => omega
  | succ fuel ih =>
    obtain ⟨hfgets, hnext⟩ := hr.fgets C.bufferSize w.os hb
    let w₁ : World ν Os := { w with os := (C.fgets C.bufferSize s w.os).2 }
    have hos₁ : ((file w.os).fgets C.bufferSize).2 = file w₁.os := hnext.symm
    have hcall : sys (C.fgets C.bufferSize s) w = .ok (C.fgets C.bufferSize s w.os).1 w₁ := rfl
    have hcases := InputStream.fgets_cases (F := file w.os) hb
    rw [hos₁] at hcases
    rw [readLineLoop, bind_of_ok hcall, hfgets]
    -- the next round, where the buffer does not end with a newline
    have hround : ∀ (chunk : Str) {k : ℕ}, 10 ∉ cstr chunk → 0 < k → k ≤ (file w.os).rest.length →
        (file w.os).Advances (file w₁.os) k → ∃ success l w' n,
          (if (cstr chunk).getLast? = some 10 then pure (true, acc ++ (cstr chunk).dropLast)
            else readLineLoop C f s 0 fuel (acc ++ cstr chunk)) w₁ = .ok (success, l) w' ∧
          (file w.os).Advances (file w'.os) (k + n) ∧
          LineRead (file w₁.os).rest (acc ++ cstr chunk) success l n := by
      intro chunk k hmem hk hle hadv
      rw [if_neg fun hlast => hmem (List.mem_of_getLast? hlast)]
      obtain ⟨success, l, w', n, hrun, hadv', hread⟩ := ih (w := w₁) (acc ++ cstr chunk)
        (by rw [hadv.rest, List.length_drop]; omega)
        (by simp [hacc, zero_notMem_cstr chunk])
      exact ⟨success, l, w', n, hrun, hadv.trans hadv', hread⟩
    rcases hcases with ⟨hrest, hnone, hadv⟩ | ⟨tail, htail, hsome, hadv⟩ |
      ⟨chunk, hne, hmem, hsome, hsplit, hline, hadv⟩
    · rw [hnone, hrest]
      obtain ⟨w₂, h₂, -, hos⟩ := checked_heap (C := C) f (0 < acc.length - 0) w₁
      exact ⟨_, acc, w₂, 0, bind_of_ok h₂, hos ▸ hadv, .atEnd hacc⟩
    · rw [hsome]
      by_cases hnul : 0 ∈ line (file w.os).rest
      · have hcstr := cstr_append_of_mem hnul [10]
        have hlen := congrArg List.length htail
        rw [List.length_append, List.length_cons] at hlen
        obtain ⟨success, l, w', n, hrun, hadv', hread⟩ := hround
          (line (file w.os).rest ++ [10])
          (by rw [hcstr]; exact fun h => not_mem_line _ (mem_of_mem_cstr h)) (by omega) (by omega)
          hadv
        exact ⟨success, l, w', _, hrun, hadv', .lost hnul hread.noNul⟩
      · have hcstr : cstr (line (file w.os).rest ++ [10]) = line (file w.os).rest ++ [10] :=
          cstr_eq_self (by simp [hnul])
        refine ⟨true, _, w₁, _, ?_, hadv, .newline hacc hnul htail⟩
        dsimp only
        rw [hcstr, if_pos (by simp), List.dropLast_concat]
        rfl
    · rw [hsome]
      obtain ⟨success, l, w', n, hrun, hadv', hread⟩ := hround chunk
        (fun h => hmem (mem_of_mem_cstr h)) (List.length_pos_iff.2 hne) (by rw [hsplit]; simp) hadv
      exact ⟨success, l, w', _, hrun, hadv', .part hne hmem hline hsplit hread⟩

/-- **`readLine`.** -/
theorem readLine_apply (hr : Reads C s file) (hb : 2 ≤ C.bufferSize) (h : Streams w f s)
    (hrounds : (file w.os).rest.length < C.rounds) :
    ∃ success l w' n, readLine C f [] w = .ok (success, l) w' ∧ w'.heap = w.heap ∧
      (file w.os).Advances (file w'.os) n ∧ LineRead (file w.os).rest [] success l n := by
  let w₁ : World ν Os := { w with os := C.clearerr s w.os }
  have hclear : file w₁.os = (file w.os).clearerr := hr.clearerr _
  obtain ⟨success, l, w', n, hrun, hadv, hread⟩ := readLineLoop_apply (f := f) (w := w₁) hr hb
    C.rounds [] (by rw [hclear]; exact hrounds) List.not_mem_nil
  rw [hclear] at hadv hread
  have hreadLine : readLine C f [] w = .ok (success, l) w' := by
    rw [readLine, bind_of_ok (stream_apply h)]
    exact hrun
  refine ⟨success, l, w', n, hreadLine, ((within_readLine h []).ok hreadLine).1, ?_, hread⟩
  have := (file w.os).advances_clearerr.trans hadv
  rwa [Nat.zero_add] at this

/-- The loop of `read`, which has read `data` so far. -/
theorem readLoop_apply (hr : Reads C s file) (hb : 1 ≤ C.bufferSize) (fuel numBytes : ℕ)
    (data : Str) (hfuel : (file w.os).rest.length < fuel) :
    ∃ w', readLoop C s fuel numBytes data w =
        .ok (data ++ (file w.os).rest.take numBytes) w' ∧
      (file w.os).Advances (file w'.os) (min numBytes (file w.os).rest.length) := by
  induction fuel generalizing numBytes data w with
  | zero => omega
  | succ fuel ih =>
    have hcount : readCount C numBytes ≤ numBytes := by
      unfold readCount
      split <;> omega
    generalize hk : readCount C numBytes = k at hcount
    obtain ⟨hfread, hnext⟩ := hr.fread k w.os
    obtain ⟨hbytes, hadv⟩ := InputStream.fread_eq (F := file w.os) (n := k)
    let w₁ : World ν Os := { w with os := (C.fread k s w.os).2 }
    have hcall : sys (C.fread k s) w = .ok ((file w.os).rest.take k) w₁ := by
      rw [← hbytes, ← hfread]
      rfl
    rw [← hnext] at hadv
    rw [readLoop, hk, bind_of_ok hcall, List.length_take]
    by_cases hmore :
        numBytes - min k (file w.os).rest.length ≠ 0 ∧ min k (file w.os).rest.length = k
    · rw [if_pos hmore, hmore.2]
      have hpos : 0 < k := by
        have hbuffer : k = numBytes ∨ k = C.bufferSize := by
          rw [← hk, readCount]
          split
          · exact .inl rfl
          · exact .inr rfl
        omega
      rw [hmore.2] at hadv
      obtain ⟨w', hrun, hadv'⟩ := ih (w := w₁) (numBytes - k) (data ++ (file w.os).rest.take k)
        (by rw [hadv.rest, List.length_drop]; omega)
      refine ⟨w', ?_, ?_⟩
      · rw [hrun, hadv.rest, List.append_assoc, ← List.take_add]
        congr 3
        omega
      · have := hadv.trans hadv'
        rw [hadv.rest, List.length_drop] at this
        convert this using 1
        omega
    · rw [if_neg hmore]
      refine ⟨w₁, ?_, ?_⟩
      · have htake : (file w.os).rest.take k = (file w.os).rest.take numBytes := by
          rw [List.take_eq_take_iff]
          omega
        rw [htake]
        rfl
      · convert hadv using 1
        omega

/-- **`read`.** -/
theorem read_apply (hr : Reads C s file) (hb : 1 ≤ C.bufferSize) (h : Streams w f s)
    (hrounds : (file w.os).rest.length < C.rounds) (numBytes : ℕ) :
    ∃ w', read C f numBytes w = .ok (0 < ((file w.os).rest.take numBytes).length,
        (file w.os).rest.take numBytes) w' ∧ w'.heap = w.heap ∧
      (file w.os).Advances (file w'.os) (min numBytes (file w.os).rest.length) := by
  let w₁ : World ν Os := { w with os := C.clearerr s w.os }
  have hclear : file w₁.os = (file w.os).clearerr := hr.clearerr _
  obtain ⟨w₂, hrun, hadv⟩ := readLoop_apply (w := w₁) hr hb C.rounds numBytes []
    (by rw [hclear]; exact hrounds)
  rw [hclear, List.nil_append] at hrun
  rw [hclear] at hadv
  obtain ⟨w₃, h₃, -, hos⟩ := checked_heap (C := C) f
    (0 < ((file w.os).rest.take numBytes).length) w₂
  have hread : read C f numBytes w = .ok (0 < ((file w.os).rest.take numBytes).length,
      (file w.os).rest.take numBytes) w₃ := by
    have hsys : sysUnit (C.clearerr s) w = .ok ⟨⟩ w₁ := rfl
    rw [read, bind_of_ok (stream_apply h), bind_of_ok hsys]
    exact (bind_of_ok hrun).trans (bind_of_ok h₃)
  refine ⟨w₃, hread, ((within_read h numBytes).ok hread).1, ?_⟩
  have hall := (file w.os).advances_clearerr.trans hadv
  rw [hos]
  rwa [Nat.zero_add] at hall

/-- Putting back what has just been read undoes reading it. -/
theorem ungetc_getc (hr : Reads C s file) (os : Os) :
    (file os).Advances (file (C.ungetc (C.getc s os).1 s (C.getc s os).2)) 0 := by
  cases hc : (C.getc s os).1 with
  | some b =>
    rw [hr.ungetc b os hc]
    exact .refl _
  | none =>
    have hrest : (file os).rest = [] := by
      rw [← InputStream.getc_eq_none, ← (hr.getc os).1]
      exact hc
    rw [hr.ungetc_eof, (hr.getc os).2, InputStream.getc, hrest]
    have hend := (file os).advances_toEnd
    rwa [hrest] at hend

/-- **The probe for the end of the file** leaves the position alone. -/
theorem isEOF_reads (hr : Reads C s file) (h : Streams w f s) :
    ∃ w', isEOF C f w = .ok ((file w.os).rest = []) w' ∧ w'.heap = w.heap ∧
      (file w.os).Advances (file w'.os) 0 := by
  have hvalue : (C.getc s w.os).1.isNone = decide ((file w.os).rest = []) := by
    rw [(hr.getc _).1, Bool.eq_iff_iff, Option.isNone_iff_eq_none, InputStream.getc_eq_none,
      decide_eq_true_iff]
  rw [← hvalue]
  refine ⟨_, isEOF_apply h, rfl, ?_⟩
  have hall := (ungetc_getc hr w.os).trans (InputStream.advances_clearerr _)
  rw [← hr.clearerr] at hall
  exact hall

/-- **`readNumber`** comes to an end. -/
theorem readNumber_returns (hr : Reads C s file) (h : Streams w f s) :
    ∃ number w' n, readNumber C f w = .ok number w' ∧ w'.heap = w.heap ∧
      (file w.os).Advances (file w'.os) n := by
  obtain ⟨n, hadv, -⟩ := hr.fscanf (C.clearerr s w.os)
  let w₁ : World ν Os := { w with os := (C.fscanf s (C.clearerr s w.os)).2 }
  have hsys : (sysUnit (C.clearerr s) >>= fun _ => sys (C.fscanf s)) w =
      .ok (C.fscanf s (C.clearerr s w.os)).1 w₁ := rfl
  obtain ⟨w₂, h₂, -, hos⟩ := checked_heap (C := C) f (C.fscanf s (C.clearerr s w.os)).1.isSome w₁
  have hread : readNumber C f w = .ok (C.fscanf s (C.clearerr s w.os)).1 w₂ := by
    rw [readNumber, bind_of_ok (stream_apply h)]
    exact bind_of_ok h₂
  refine ⟨_, w₂, n, hread, ((within_readNumber h).ok hread).1, ?_⟩
  rw [hr.clearerr] at hadv
  have hall := (file w.os).advances_clearerr.trans hadv
  rw [Nat.zero_add] at hall
  rwa [hos]

end LuaBoostFile

end Jord.Io
