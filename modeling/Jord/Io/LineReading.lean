import Jord.Io.CountedReading

/-!
# Reads of lines

`read('*l')`, `read()` and line iterators return the line at the position exactly if there is no NUL
in it, and a loop that copies a file line by line reproduces it exactly if there is no NUL in the
file (`lines_iff`).
-/

namespace Jord.Io

open Program

variable {ν Os : Type} {C : Platform ν Os} {w w' : World ν Os} {a f : ℕ} {s : Stream}
  {m : Eval ν Os (List (LuaValue ν))} {file : Os → InputStream}

/-! ## What is promised -/

/-- The ways to read a line from the handle `a`. -/
inductive LineReader (C : Platform ν Os) (a : ℕ) : Eval ν Os (List (LuaValue ν)) → Prop
  | read : LineReader C a (LuaFileAdapter.read C a [])
  | format {v : LuaValue ν} (hv : IsLetter C 108 v) : LineReader C a (LuaFileAdapter.read C a [v])
  | iterate {it : Iterator ν} (h : LuaFileAdapter.upvalueAdapter it.upvalue = some a) :
      LineReader C a (LuaFileAdapter.linesIterator C it)

/-- The value for a line, where `rest` is what is left. -/
def lineValue (rest : Str) : LuaValue ν := if rest = [] then .nil else .string (line rest)

/-- The line at the position is returned, and the position is after it; at the end of the file the
result is `nil`. -/
def YieldsLine (file : Os → InputStream) (m : Eval ν Os (List (LuaValue ν))) (w : World ν Os) :
    Prop :=
  ∃ w', m w = .ok [lineValue (file w.os).rest] w' ∧ ((file w.os).rest ≠ [] →
    (file w.os).Advances (file w'.os) (lineLength (file w.os).rest))

/-- Read lines up to the first `nil`, and collect them with a newline after each. -/
def copyLines (m : Eval ν Os (List (LuaValue ν))) : ℕ → Str → Eval ν Os Str
  | 0, _ => fault .unfinished
  | n + 1, out => do
    match ← m with
    | [.string l] => copyLines m n (out ++ l ++ [10])
    | _ => return out

/-- A file with its last line ended. -/
def ended (bs : Str) : Str := if bs = [] ∨ bs.getLast? = some 10 then bs else bs ++ [10]

/-! ## One line -/

/-- A line is read from an open handle: the result is the line, or `nil` if there is none. -/
theorem LineReader.run (hm : LineReader C a m) (hr : Reads C s file) (hb : 2 ≤ C.bufferSize)
    (h : Opened w a f s) (hrounds : (file w.os).rest.length < C.rounds) :
    ∃ success l w' n, m w = .ok [if success then .string l else .nil] w' ∧
      LineRead (file w.os).rest [] success l n ∧
      (success = true → w'.heap = w.heap ∧ (file w.os).Advances (file w'.os) n) := by
  obtain ⟨success, l, w₁, n, hline, hheap, hadv, hread⟩ :=
    LuaBoostFile.readLine_apply hr hb h.streams hrounds
  have hcstr : cstr l = l := cstr_eq_self hread.noNul
  have hferror : C.ferror s w₁.os = false := hr.noErrors.ferror
    ((LuaBoostFile.within_readLine h.streams []).ok hline).2
  cases hm with
  | read =>
    refine ⟨success, l, w₁, n, ?_, hread, fun _ => ⟨hheap, hadv⟩⟩
    have hvalues : LuaFileAdapter.readValues C f [] w = .ok (success, [.string (cstr l)]) w₁ :=
      bind_of_ok hline
    rw [LuaFileAdapter.read_apply h, bind_of_ok hvalues, hcstr,
      LuaFileAdapter.finish_apply (h.streams.congr hheap) hferror]
    cases success <;> rfl
  | @format v hv =>
    refine ⟨success, l, w₁, n, ?_, hread, fun _ => ⟨hheap, hadv⟩⟩
    have hround : LuaFileAdapter.readFormat C f 1 v w = .ok (success, .string (cstr l)) w₁ := by
      obtain ⟨hnone, p, hp⟩ := id hv
      rw [LuaFileAdapter.readFormat, hnone, hp]
      exact bind_of_ok hline
    rw [read_of_format hr h (.inr (.inr (.inl hv))) hround, hcstr]
  | @iterate it hit =>
    obtain ⟨y, hy, hs⟩ := h.holds
    have hiterate := (LuaFileAdapter.linesIterator_open hit hy (by rw [hs]; rfl)).trans
      (bind_of_ok hline)
    cases success with
    | true =>
      refine ⟨true, l, w₁, n, ?_, hread, fun _ => ⟨hheap, hadv⟩⟩
      rw [hiterate]
      dsimp only
      rw [if_pos rfl, hcstr]
      rfl
    | false =>
      -- a line iterator may close the file, whatever comes of it
      have hclose : ∃ w₂,
          onlyIf it.closeFile (discard (LuaBoostFile.close C f)) w₁ = .ok ⟨⟩ w₂ := by
        obtain ⟨z, hz, hzd, -⟩ := h.streams.congr hheap
        obtain ⟨w₂, h₂, -⟩ := LuaBoostFile.close_apply (C := C) hz hzd
        cases it.closeFile with
        | true => exact ⟨w₂, discard_apply h₂⟩
        | false => exact ⟨w₁, rfl⟩
      obtain ⟨w₂, h₂⟩ := hclose
      refine ⟨false, l, w₂, n, ?_, hread, fun h => by cases h⟩
      rw [hiterate]
      exact bind_of_ok h₂

/-- A line without NUL is returned as it is. -/
theorem LineReader.line (hm : LineReader C a m) (hr : Reads C s file) (hb : 2 ≤ C.bufferSize)
    (h : Opened w a f s) (hrounds : (file w.os).rest.length < C.rounds)
    (hnul : 0 ∉ line (file w.os).rest) :
    ∃ w', m w = .ok [lineValue (file w.os).rest] w' ∧ ((file w.os).rest ≠ [] →
      w'.heap = w.heap ∧ (file w.os).Advances (file w'.os) (lineLength (file w.os).rest)) := by
  obtain ⟨success, l, w', n, hrun, hread, hstate⟩ := hm.run hr hb h hrounds
  obtain ⟨hl, hn, hs⟩ := hread.exact hnul
  simp only [ne_eq, not_true_eq_false, or_false] at hs
  refine ⟨w', ?_, fun hne => hn ▸ hstate (hs.2 hne)⟩
  rw [hrun, hl, lineValue]
  by_cases hrest : (file w.os).rest = []
  · have hsuccess : success = false := Bool.eq_false_iff.2 fun h => hs.1 h hrest
    rw [hsuccess, if_pos hrest]
    rfl
  · rw [hs.2 hrest, if_neg hrest]
    rfl

/-- **One line**: it is returned exactly if there is no NUL in it. -/
theorem yieldsLine_iff (hm : LineReader C a m) (hr : Reads C s file) (hb : 2 ≤ C.bufferSize)
    (h : Opened w a f s) (hrounds : (file w.os).rest.length < C.rounds) :
    YieldsLine file m w ↔ 0 ∉ line (file w.os).rest := by
  constructor
  · rintro ⟨w₂, h₂, -⟩ hnul
    obtain ⟨success, l, w', n, hrun, hread, -⟩ := hm.run hr hb h hrounds
    have hne : (file w.os).rest ≠ [] := by
      intro hrest
      rw [hrest] at hnul
      exact List.not_mem_nil hnul
    obtain ⟨hvalue, -⟩ := EStateM.Result.ok.inj (hrun.symm.trans h₂)
    rw [lineValue, if_neg hne] at hvalue
    cases success with
    | false => cases hvalue
    | true =>
      obtain rfl : l = Jord.line (file w.os).rest := by simpa using hvalue
      exact hread.noNul hnul
  · intro hnul
    obtain ⟨w', hrun, hstate⟩ := hm.line hr hb h hrounds hnul
    exact ⟨w', hrun, fun hne => (hstate hne).2⟩

/-! ## All lines -/

theorem ended_ne_nil {bs : Str} (hne : bs ≠ []) :
    ended bs = if bs.getLast? = some 10 then bs else bs ++ [10] := by
  rw [ended]
  simp only [hne, false_or]

/-- A line comes with a newline, and what is after it follows. -/
theorem ended_append_newline (l tail : Str) :
    ended (l ++ 10 :: tail) = l ++ [10] ++ ended tail := by
  rw [ended_ne_nil (List.append_ne_nil_of_right_ne_nil _ (List.cons_ne_nil _ _)),
    List.getLast?_append]
  rcases List.eq_nil_or_concat tail with rfl | ⟨bs, b, rfl⟩
  · simp [ended]
  · rw [ended_ne_nil (by simp)]
    by_cases hlast : b = 10 <;> simp [hlast, List.getLast?_cons]

theorem lineLength_pos {bs : Str} (hne : bs ≠ []) : 0 < lineLength bs := by
  rcases line_cases bs with ⟨hmem, -⟩ | ⟨-, hline⟩
  · rw [lineLength, if_pos hmem]
    omega
  · rw [lineLength, hline]
    exact Nat.add_pos_left (List.length_pos_iff.2 hne) _

/-- The first line, and what is after it. -/
theorem ended_line {bs : Str} (hne : bs ≠ []) :
    ended bs = line bs ++ [10] ++ ended (bs.drop (lineLength bs)) := by
  rcases line_cases bs with ⟨hmem, tail, htail⟩ | ⟨hmem, hline⟩
  · rw [lineLength, if_pos hmem, drop_line htail, ← ended_append_newline, ← htail]
  · have hlast : bs.getLast? ≠ some 10 := fun h => hmem (List.mem_of_getLast? h)
    rw [lineLength, if_neg hmem, hline, ended_ne_nil hne, if_neg hlast, Nat.add_zero,
      List.drop_length, ended, if_pos (.inl rfl), List.append_nil]

/-- Lines without NUL are copied as they are. -/
theorem copyLines_eq (hm : LineReader C a m) (hr : Reads C s file) (hb : 2 ≤ C.bufferSize)
    (h : Opened w a f s) (hrounds : (file w.os).rest.length < C.rounds)
    (hnul : 0 ∉ (file w.os).rest) (fuel : ℕ) (hfuel : (file w.os).rest.length < fuel) (out : Str) :
    ∃ w', copyLines m fuel out w = .ok (out ++ ended (file w.os).rest) w' := by
  induction fuel generalizing w out with
  | zero => omega
  | succ fuel ih =>
    obtain ⟨w₁, hrun, hstate⟩ := hm.line hr hb h hrounds fun hmem =>
      hnul ((List.takeWhile_prefix _).subset hmem)
    rw [copyLines, bind_of_ok hrun, lineValue]
    by_cases hrest : (file w.os).rest = []
    · refine ⟨w₁, ?_⟩
      rw [if_pos hrest, hrest, ended, if_pos (.inl rfl), List.append_nil]
      rfl
    · rw [if_neg hrest]
      obtain ⟨hheap, hadv⟩ := hstate hrest
      have hdrop := hadv.rest
      have hpos := lineLength_pos hrest
      have hlen := List.length_pos_iff.2 hrest
      obtain ⟨w', hw'⟩ := ih (w := w₁) (h.congr hheap) (by rw [hdrop, List.length_drop]; omega)
        (by rw [hdrop]; exact fun hmem => hnul (List.mem_of_mem_drop hmem))
        (by rw [hdrop, List.length_drop]; omega) (out ++ line (file w.os).rest ++ [10])
      refine ⟨w', ?_⟩
      rw [ended_line hrest, ← hdrop]
      simpa only [List.append_assoc] using hw'

/-- A copy has no NUL. -/
theorem copyLines_noNul (hm : LineReader C a m) (hr : Reads C s file) (hb : 2 ≤ C.bufferSize)
    (h : Opened w a f s) (hrounds : (file w.os).rest.length < C.rounds) (fuel : ℕ) {out copy : Str}
    (hout : 0 ∉ out) (hcopy : copyLines m fuel out w = .ok copy w') : 0 ∉ copy := by
  induction fuel generalizing w out with
  | zero => cases hcopy
  | succ fuel ih =>
    obtain ⟨success, l, w₁, n, hrun, hread, hstate⟩ := hm.run hr hb h hrounds
    rw [copyLines, bind_of_ok hrun] at hcopy
    cases success with
    | false =>
      cases hcopy
      exact hout
    | true =>
      obtain ⟨hheap, hadv⟩ := hstate rfl
      refine ih (h.congr hheap) ?_ ?_ hcopy
      · rw [hadv.rest, List.length_drop]
        omega
      · simp [hout, hread.noNul]

/-- The copy is the rest of the file, up to a newline at the end. -/
def Copies (file : Os → InputStream) (m : Eval ν Os (List (LuaValue ν))) (w : World ν Os) : Prop :=
  ∃ w', copyLines m ((file w.os).rest.length + 1) [] w = .ok (ended (file w.os).rest) w'

/-- **All lines**: the copy is right exactly if there is no NUL in the file. -/
theorem copies_iff (hm : LineReader C a m) (hr : Reads C s file) (hb : 2 ≤ C.bufferSize)
    (h : Opened w a f s) (hrounds : (file w.os).rest.length < C.rounds) :
    Copies file m w ↔ 0 ∉ (file w.os).rest := by
  constructor
  · rintro ⟨w', hcopy⟩ hnul
    apply copyLines_noNul hm hr hb h hrounds _ List.not_mem_nil hcopy
    unfold ended
    split
    · exact hnul
    · exact List.mem_append_left _ hnul
  · intro hnul
    exact copyLines_eq hm hr hb h hrounds hnul _ (Nat.lt_succ_self _) []

/-- **Line reading loses nothing but NUL**, and what comes after it in a line. -/
theorem lines_iff (hm : LineReader C a m) (hr : Reads C s file) (hb : 2 ≤ C.bufferSize)
    (h : Opened w a f s) (hrounds : (file w.os).rest.length < C.rounds) :
    (YieldsLine file m w ↔ 0 ∉ line (file w.os).rest) ∧
      (Copies file m w ↔ 0 ∉ (file w.os).rest) :=
  ⟨yieldsLine_iff hm hr hb h hrounds, copies_iff hm hr hb h hrounds⟩

theorem lines_iff_textFile :
    (YieldsLine id (LuaFileAdapter.read fileDevice 0 [])
      (deviceVm (.ofContent [97, 98, 99, 100, 10, 101] (by decide))) ↔
        (0 : UInt8) ∉ [97, 98, 99, 100]) ∧
    (Copies id (LuaFileAdapter.read fileDevice 0 [])
      (deviceVm (.ofContent [97, 98, 99, 100, 10, 101] (by decide))) ↔
        (0 : UInt8) ∉ [97, 98, 99, 100, 10, 101]) :=
  lines_iff .read (fileDevice_reads _) (by decide) (deviceVm_opened _) (by decide)

/-- A NUL, and the rest of its line, get lost: of the line `a\0b` only `a` is left. -/
theorem lines_counterexample :
    ¬ YieldsLine id (LuaFileAdapter.read fileDevice 0 [])
        (deviceVm (.ofContent [97, 0, 98, 10, 99, 10] (by decide))) ∧
      ¬ Copies id (LuaFileAdapter.read fileDevice 0 [])
        (deviceVm (.ofContent [97, 0, 98, 10, 99, 10] (by decide))) := by
  have hread : ∃ w', LuaFileAdapter.read fileDevice 0 []
      (deviceVm (.ofContent [97, 0, 98, 10, 99, 10] (by decide))) = .ok [.string [97]] w' :=
    ⟨_, rfl⟩
  have hcopy : ∃ w', copyLines (LuaFileAdapter.read fileDevice 0 []) 7 []
      (deviceVm (.ofContent [97, 0, 98, 10, 99, 10] (by decide))) = .ok [97, 10, 99, 10] w' :=
    ⟨_, rfl⟩
  constructor
  · rintro ⟨w', hw', -⟩
    obtain ⟨w₁, h₁⟩ := hread
    cases h₁.symm.trans hw'
  · rintro ⟨w', hw'⟩
    obtain ⟨w₁, h₁⟩ := hcopy
    cases h₁.symm.trans hw'

end Jord.Io
