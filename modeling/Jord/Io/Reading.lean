import Jord.Io.Closing
import Jord.Io.Contents

/-!
# Reads of several formats

`LuaFileAdapter::read` with a list of formats does what one call after the other does with one
format each, up to the first that yields `nil` (`read_eq_readSequence`), as long as there is room
for the values on the Lua stack and no input error occurs.
-/

namespace Jord.Io

open Program

variable {ν Os : Type} {C : Platform ν Os} {w w' : World ν Os} {a f : ℕ} {s : Stream}
  {v value : LuaValue ν} {args : List (LuaValue ν)} {n : ℤ} {file : Os → InputStream}

/-! ## Open handles -/

/-- The handle is alive and has the file, which has the stream. -/
structure Opened (w : World ν Os) (a f : ℕ) (s : Stream) : Prop where
  adapter : w.view.Has a f
  streams : Streams w f s

theorem Opened.congr (h : Opened w a f s) (hw : w'.heap = w.heap) : Opened w' a f s := by
  refine ⟨?_, h.streams.congr hw⟩
  have hadapters : w'.adapters = w.adapters := by
    change w'.heap.adapters = w.heap.adapters
    rw [hw]
  obtain ⟨x, hx, hrest⟩ := h.adapter
  exact ⟨x, (congrArg (·[a]?) hadapters).trans hx, hrest⟩

theorem Opened.holds (h : Opened w a f s) : ∃ y, Holds w a f y ∧ y.fileHandle = some s := by
  obtain ⟨y, hy, hd, hs⟩ := h.streams
  exact ⟨y, ⟨h.adapter, hy, hd⟩, hs⟩

theorem Opened.usable {F : Fault → Prop} (h : Opened w a f s) : Usable F w.view f := by
  obtain ⟨y, hy, hs⟩ := h.holds
  exact hy.usable (Option.isSome_of_eq_some hs)

/-! ## Formats -/

/-- A count of zero. -/
def IsZero (C : Platform ν Os) (v : LuaValue ν) : Prop :=
  ∃ k, LuaValue.toNumber C v = some k ∧ C.toSize k = 0

/-- The value is a string, and no number, that begins with `*` and the letter. -/
def IsLetter (C : Platform ν Os) (c : UInt8) (v : LuaValue ν) : Prop :=
  LuaValue.toNumber C v = none ∧ ∃ p, (LuaValue.toLString C (some v)).map cstr = some (42 :: c :: p)

/-- A count, or a string that begins with `*n`, `*l` or `*a`. -/
def IsFormat (C : Platform ν Os) (v : LuaValue ν) : Prop :=
  (∃ k, LuaValue.toNumber C v = some k) ∨ IsLetter C 110 v ∨ IsLetter C 108 v ∨ IsLetter C 97 v

/-- What `read` does for a format. -/
inductive Reader (C : Platform ν Os) (v : LuaValue ν) : (ℕ → Eval ν Os (Bool × LuaValue ν)) → Prop
  | probe (hv : IsZero C v) : Reader C v fun f => LuaBoostFile.isEOF C f >>= fun eof =>
      pure (if eof then (false, .nil) else (true, .string []))
  | count {k : ν} (hk : LuaValue.toNumber C v = some k) (h : C.toSize k ≠ 0) : Reader C v fun f =>
      LuaBoostFile.read C f (C.toSize k) >>= fun r =>
        pure (r.1, if r.1 then .string r.2 else .nil)
  | number (hv : IsLetter C 110 v) : Reader C v fun f => LuaBoostFile.readNumber C f >>= fun r =>
      pure (r.isSome, r.elim .nil .number)
  | line (hv : IsLetter C 108 v) : Reader C v fun f => LuaBoostFile.readLine C f [] >>= fun r =>
      pure (r.1, .string (cstr r.2))
  | all (hv : IsLetter C 97 v) : Reader C v fun f =>
      LuaBoostFile.read C f (2 ^ 64 - 1) >>= fun r => pure (true, .string r.2)

theorem IsLetter.not_isZero {c : UInt8} (h : IsLetter C c v) : ¬ IsZero C v := by
  rintro ⟨k, hk, -⟩
  cases hk.symm.trans h.1

namespace LuaFileAdapter

/-- A round of `read` for a format. -/
theorem readFormat_reader (hv : IsFormat C v) :
    ∃ m, Reader C v m ∧ ∀ f n, readFormat C f n v = m f := by
  unfold readFormat
  rcases hv with ⟨k, hk⟩ | hletter
  · by_cases hsize : C.toSize k = 0
    · refine ⟨_, .probe ⟨k, hk, hsize⟩, fun f n => ?_⟩
      rw [hk]
      dsimp only
      rw [if_pos hsize]
      apply bind_congr
      intro eof
      cases eof <;> rfl
    · refine ⟨_, .count hk hsize, fun f n => ?_⟩
      rw [hk]
      dsimp only
      rw [if_neg hsize]
  · rcases hletter with hv | hv | hv
    · refine ⟨_, .number hv, fun f n => ?_⟩
      obtain ⟨hnone, p, hp⟩ := hv
      rw [hnone, hp]
      rfl
    · refine ⟨_, .line hv, fun f n => ?_⟩
      obtain ⟨hnone, p, hp⟩ := hv
      rw [hnone, hp]
      rfl
    · refine ⟨_, .all hv, fun f n => ?_⟩
      obtain ⟨hnone, p, hp⟩ := hv
      rw [hnone, hp]
      rfl

/-- What is no format is refused. -/
theorem readFormat_refused (hv : ¬ IsFormat C v) (f : ℕ) (n : ℤ) :
    ∃ message, readFormat C f n v = argError n message := by
  unfold readFormat
  cases hnumber : LuaValue.toNumber C v with
  | some k => exact absurd (.inl ⟨k, hnumber⟩) hv
  | none =>
    dsimp only
    split
    · next p hp =>
      split
      · next hhead =>
        obtain ⟨q, rfl⟩ := List.head?_eq_some_iff.1 hhead
        exact absurd (.inr (.inl ⟨hnumber, q, hp⟩)) hv
      · next hhead =>
        obtain ⟨q, rfl⟩ := List.head?_eq_some_iff.1 hhead
        exact absurd (.inr (.inr (.inl ⟨hnumber, q, hp⟩))) hv
      · next hhead =>
        obtain ⟨q, rfl⟩ := List.head?_eq_some_iff.1 hhead
        exact absurd (.inr (.inr (.inr ⟨hnumber, q, hp⟩))) hv
      · exact ⟨_, rfl⟩
    · exact ⟨_, rfl⟩

end LuaFileAdapter

namespace Reader

variable {m : ℕ → Eval ν Os (Bool × LuaValue ν)}

/-- A format that is successful yields a value. -/
theorem value_ne_nil (h : Reader C v m) (hr : m f w = .ok (true, value) w') : value ≠ .nil := by
  cases h with
  | probe =>
    obtain ⟨eof, w₁, -, hr⟩ := bind_eq_ok.1 hr
    cases eof <;> cases hr
    exact fun h => by cases h
  | count =>
    obtain ⟨⟨success, data⟩, w₁, -, hr⟩ := bind_eq_ok.1 hr
    cases success <;> cases hr
    exact fun h => by cases h
  | number =>
    obtain ⟨r, w₁, -, hr⟩ := bind_eq_ok.1 hr
    cases r <;> cases hr
    exact fun h => by cases h
  | line =>
    obtain ⟨⟨success, line⟩, w₁, -, hr⟩ := bind_eq_ok.1 hr
    cases hr
    exact fun h => by cases h
  | all =>
    obtain ⟨r, w₁, -, hr⟩ := bind_eq_ok.1 hr
    cases hr
    exact fun h => by cases h

/-- The state after the probe for the end of the file. -/
def probed (C : Platform ν Os) (s : Stream) (w : World ν Os) : World ν Os :=
  { w with os := C.clearerr s (C.ungetc (C.getc s w.os).1 s (C.getc s w.os).2) }

/-- A count of zero probes for the end of the file. -/
theorem zero (h : Reader C v m) (hz : IsZero C v) (hs : Streams w f s) : m f w =
    .ok (if (C.getc s w.os).1.isNone then (false, .nil) else (true, .string []))
      (probed C s w) := by
  cases h with
  | probe => exact bind_of_ok (LuaBoostFile.isEOF_apply hs)
  | count hk hne =>
    obtain ⟨k, hk', hzero⟩ := hz
    cases hk.symm.trans hk'
    exact absurd hzero hne
  | number hv => exact absurd hz hv.not_isZero
  | line hv => exact absurd hz hv.not_isZero
  | all hv => exact absurd hz hv.not_isZero

/-- Another format clears the indicators and reads. -/
theorem within (h : Reader C v m) (hz : ¬ IsZero C v) (hs : Streams w f s) :
    Within (LuaBoostFile.Cleared C s) (m f) w := by
  have hbind : ∀ {α : Type} {m : Eval ν Os α} {k : α → Bool × LuaValue ν},
      Within (LuaBoostFile.Cleared C s) m w →
        Within (LuaBoostFile.Cleared C s) (m >>= fun r => pure (k r)) w := fun hm =>
    .bind (U := fun os os' => os' = os) hm (fun _ _ _ => .of_ok rfl rfl rfl)
      fun os os' h hos => hos ▸ h
  cases h with
  | probe hv => exact absurd hv hz
  | count => exact hbind (LuaBoostFile.within_read hs _)
  | number => exact hbind (LuaBoostFile.within_readNumber hs)
  | line => exact hbind (LuaBoostFile.within_readLine hs _)
  | all => exact hbind (LuaBoostFile.within_read hs _)

/-- A format leaves the objects alone. -/
theorem heap {r : Bool × LuaValue ν} (h : Reader C v m) (hs : Streams w f s)
    (hr : m f w = .ok r w') : w'.heap = w.heap := by
  by_cases hz : IsZero C v
  · rw [h.zero hz hs] at hr
    cases hr
    rfl
  · exact ((h.within hz hs).ok hr).1

/-- Without input errors, no error is indicated afterwards. -/
theorem ferror {r : Bool × LuaValue ν} (he : NoErrors C s) (h : Reader C v m) (hs : Streams w f s)
    (hr : m f w = .ok r w') : C.ferror s w'.os = false := by
  by_cases hz : IsZero C v
  · rw [h.zero hz hs] at hr
    cases hr
    exact (he.clearerr _).2
  · exact he.ferror ((h.within hz hs).ok hr).2

/-- A format comes to an end. -/
theorem returns (hr : Reads C s file) (hb : 2 ≤ C.bufferSize) (h : Reader C v m)
    (hs : Streams w f s) (hrounds : (file w.os).rest.length < C.rounds) :
    ∃ r w' n, m f w = .ok r w' ∧ (file w.os).Advances (file w'.os) n := by
  cases h with
  | probe =>
    obtain ⟨w', hw', -, hadv⟩ := LuaBoostFile.isEOF_reads hr hs
    exact ⟨_, w', 0, bind_of_ok hw', hadv⟩
  | count =>
    obtain ⟨w', hw', -, hadv⟩ := LuaBoostFile.read_apply hr (by omega) hs hrounds _
    exact ⟨_, w', _, bind_of_ok hw', hadv⟩
  | number =>
    obtain ⟨r, w', n, hw', -, hadv⟩ := LuaBoostFile.readNumber_returns hr hs
    exact ⟨_, w', n, bind_of_ok hw', hadv⟩
  | line =>
    obtain ⟨success, l, w', n, hw', -, hadv, -⟩ := LuaBoostFile.readLine_apply hr hb hs hrounds
    exact ⟨_, w', n, bind_of_ok hw', hadv⟩
  | all =>
    obtain ⟨w', hw', -, hadv⟩ := LuaBoostFile.read_apply hr (by omega) hs hrounds _
    exact ⟨_, w', _, bind_of_ok hw', hadv⟩

end Reader

/-! ## Sequences of reads -/

/-- One call of `read` after the other, up to the first that yields `nil`. -/
def readSequence (C : Platform ν Os) (a : ℕ) : List (LuaValue ν) → Eval ν Os (List (LuaValue ν))
  | [] => return []
  | v :: args => do
    let values ← LuaFileAdapter.read C a [v]
    if LuaValue.isNoneOrNil values.head? then
      return values
    else
      return values ++ (← readSequence C a args)

/-- One format after the other, up to the first that is not successful. -/
def formatSequence (C : Platform ν Os) (f : ℕ) : List (LuaValue ν) → Eval ν Os (List (LuaValue ν))
  | [] => return []
  | v :: args => do
    let r ← LuaFileAdapter.readFormat C f 1 v
    if r.1 then
      return r.2 :: (← formatSequence C f args)
    else
      return [.nil]

namespace LuaFileAdapter

/-- The end of `read`. -/
def finish (C : Platform ν Os) (a f : ℕ) (success : Bool) (values : List (LuaValue ν)) :
    Eval ν Os (List (LuaValue ν)) := do
  if ← LuaBoostFile.hasFailed C f then
    reportError C a (Str.ascii "read failure")
  else
    return if success then values else values.dropLast ++ [.nil]

/-- `read` of an open handle. -/
theorem read_apply (h : Opened w a f s) (args : List (LuaValue ν)) :
    read C a args w = (readValues C f args >>= fun r => finish C a f r.1 r.2) w := by
  obtain ⟨x, hx, hd, hf⟩ := h.adapter
  obtain ⟨y, hy, hs⟩ := h.holds
  have hopen : LuaBoostFile.isOpen f w = .ok true w := by
    rw [LuaBoostFile.isOpen_apply hy.view_file hy.live, BoostFile.view, hs]
    rfl
  rw [read, bind_of_ok (handle_apply hx hd), hf]
  exact bind_of_ok hopen

/-- There is room on the stack for a few formats. -/
theorem checkStack_ok {top space : ℕ} (h : top + space ≤ maxCStack) (message : Str) :
    (checkStack top space message : Eval ν Os Unit) = pure ⟨⟩ :=
  if_neg (by omega)

/-- `read` with formats that have room on the stack. -/
theorem read_formats (h : Opened w a f s) (hne : args ≠ [])
    (hlen : 2 * args.length + minStack ≤ maxCStack) : read C a args w =
      (readFormats C f 1 args >>= fun r => finish C a f r.1 r.2) w := by
  rw [read_apply h]
  cases args with
  | nil => exact absurd rfl hne
  | cons v args =>
    rw [readValues, checkStack_ok (by omega)]
    rfl

/-- Where no error is indicated, the values are returned. -/
theorem finish_apply (h : Streams w f s) (he : C.ferror s w.os = false) (success : Bool)
    (values : List (LuaValue ν)) : finish C a f success values w =
      .ok (if success then values else values.dropLast ++ [.nil]) w := by
  rw [finish, bind_of_ok (LuaBoostFile.hasFailed_of_not h he)]
  rfl

/-- The loop of `read` goes through the formats one after the other. -/
theorem readFormats_sequence (he : NoErrors C s) (hargs : ∀ v ∈ args, IsFormat C v)
    (h : Streams w f s) (hquiet : args = [] → C.ferror s w.os = false) (n : ℤ) :
    (∃ e w', readFormats C f n args w = .error e w' ∧ formatSequence C f args w = .error e w') ∨
      ∃ success values w', readFormats C f n args w = .ok (success, values) w' ∧
        formatSequence C f args w =
          .ok (if success then values else values.dropLast ++ [.nil]) w' ∧
        (success = false → values ≠ []) ∧ w'.heap = w.heap ∧ C.ferror s w'.os = false := by
  induction args generalizing n w with
  | nil => exact .inr ⟨true, [], w, rfl, rfl, fun h => (by cases h), rfl, hquiet rfl⟩
  | cons v args ih =>
    obtain ⟨hv, hargs⟩ := List.forall_mem_cons.1 hargs
    obtain ⟨m, hm, hformat⟩ := readFormat_reader hv
    rw [readFormats, formatSequence, hformat, hformat]
    cases hr : m f w with
    | error e w₁ => exact .inl ⟨e, w₁, bind_of_error hr, bind_of_error hr⟩
    | ok r w₁ =>
      have hheap := hm.heap h hr
      have hferror := hm.ferror he h hr
      rw [bind_of_ok hr, bind_of_ok hr]
      cases hsuccess : r.1 with
      | false => exact .inr ⟨false, [r.2], w₁, by simp [hsuccess], rfl,
          fun _ => List.cons_ne_nil _ _, hheap, hferror⟩
      | true =>
        rcases ih (w := w₁) hargs (h.congr hheap) (fun _ => hferror) (n + 1) with
          ⟨e, w₂, hformats, hsequence⟩ |
          ⟨success, values, w₂, hformats, hsequence, hne, hheap₂, herr₂⟩
        · refine .inl ⟨e, w₂, ?_, bind_of_error hsequence⟩
          simp only [hsuccess, if_true]
          exact bind_of_error hformats
        · refine .inr ⟨success, r.2 :: values, w₂, ?_, ?_, fun _ => List.cons_ne_nil _ _,
            hheap₂.trans hheap, herr₂⟩
          · simp only [hsuccess, if_true]
            exact bind_of_ok hformats
          · refine (bind_of_ok hsequence).trans ?_
            cases success with
            | true => rfl
            | false => simp [List.dropLast_cons_of_ne_nil (hne rfl)]

/-- `read` of several formats goes through them one after the other. -/
theorem read_eq_formatSequence (he : NoErrors C s) (h : Opened w a f s) (hne : args ≠ [])
    (hargs : ∀ v ∈ args, IsFormat C v) (hlen : 2 * args.length + minStack ≤ maxCStack) :
    read C a args w = formatSequence C f args w := by
  rw [read_formats h hne hlen]
  rcases readFormats_sequence he hargs h.streams (fun h => absurd h hne) 1 with
    ⟨e, w', hformats, hsequence⟩ | ⟨success, values, w', hformats, hsequence, -, hheap, hferror⟩
  · rw [bind_of_error hformats, hsequence]
  · rw [bind_of_ok hformats, hsequence]
    exact finish_apply (h.streams.congr hheap) hferror success values

/-- `read` of one format. -/
theorem read_single (he : NoErrors C s) (h : Opened w a f s) (hv : IsFormat C v) :
    read C a [v] w =
      (readFormat C f 1 v >>= fun r => pure [if r.1 then r.2 else .nil]) w := by
  have hlen : 2 * [v].length + minStack ≤ maxCStack := by
    simp [minStack, maxCStack]
  rw [read_eq_formatSequence he h (List.cons_ne_nil v []) (List.forall_mem_singleton.2 hv) hlen,
    formatSequence]
  cases hr : readFormat C f 1 v w with
  | error e w₁ => rw [bind_of_error hr, bind_of_error hr]
  | ok r w₁ =>
    rw [bind_of_ok hr, bind_of_ok hr]
    cases hsuccess : r.1 <;> simp [formatSequence]

end LuaFileAdapter

/-- One call after the other goes through the formats one after the other. -/
theorem readSequence_eq (he : NoErrors C s) (h : Opened w a f s)
    (hargs : ∀ v ∈ args, IsFormat C v) :
    readSequence C a args w = formatSequence C f args w := by
  induction args generalizing w with
  | nil => rfl
  | cons v args ih =>
    obtain ⟨hv, hargs⟩ := List.forall_mem_cons.1 hargs
    obtain ⟨m, hm, hformat⟩ := LuaFileAdapter.readFormat_reader hv
    rw [readSequence, bind_congr_left (LuaFileAdapter.read_single he h hv), formatSequence, hformat]
    cases hr : m f w with
    | error e w₁ => rw [bind_of_error (bind_of_error hr), bind_of_error hr]
    | ok r w₁ =>
      have hsingle : (m f >>= fun r => pure [if r.1 then r.2 else .nil]) w =
          .ok [if r.1 then r.2 else .nil] w₁ := bind_of_ok hr
      rw [bind_of_ok hsingle, bind_of_ok hr]
      obtain ⟨success, value⟩ := r
      cases success with
      | false => rfl
      | true =>
        -- a value that is not `nil` goes on with the rest
        have hvalue : LuaValue.isNoneOrNil (some value) = false := by
          have hne := hm.value_ne_nil hr
          cases value <;> first | rfl | exact absurd rfl hne
        simp only [if_true, List.head?_cons, hvalue]
        rw [if_neg Bool.false_ne_true, bind_congr_left (ih (h.congr (hm.heap h.streams hr)) hargs)]
        rfl

/-- The values of `k` reads: one for each, or `nil` for the last one that has been done. -/
def Counted (values : List (LuaValue ν)) (k : ℕ) : Prop :=
  (values.length = k ∧ .nil ∉ values) ∨
    ∃ successes, values = successes ++ [.nil] ∧ .nil ∉ successes ∧ values.length ≤ k

/-- The formats come to an end, with a value for each that has been read. -/
theorem formatSequence_returns (hr : Reads C s file) (hb : 2 ≤ C.bufferSize)
    (h : Streams w f s) (hrounds : (file w.os).rest.length < C.rounds)
    (hargs : ∀ v ∈ args, IsFormat C v) :
    ∃ values w', formatSequence C f args w = .ok values w' ∧ Counted values args.length := by
  induction args generalizing w with
  | nil => exact ⟨[], w, rfl, .inl ⟨rfl, List.not_mem_nil⟩⟩
  | cons v args ih =>
    obtain ⟨hv, hargs⟩ := List.forall_mem_cons.1 hargs
    obtain ⟨m, hm, hformat⟩ := LuaFileAdapter.readFormat_reader hv
    obtain ⟨⟨success, value⟩, w₁, n, hrun, hadv⟩ := hm.returns hr hb h hrounds
    rw [formatSequence, hformat, bind_of_ok hrun]
    cases success with
    | false => exact ⟨[.nil], w₁, rfl, .inr ⟨[], rfl, List.not_mem_nil, by simp⟩⟩
    | true =>
      obtain ⟨values, w₂, hrest, hcount⟩ := ih (h.congr (hm.heap h hrun))
        (by rw [hadv.rest, List.length_drop]; omega) hargs
      have hvalue : .nil ∉ [value] := fun hmem =>
        hm.value_ne_nil hrun (List.mem_singleton.1 hmem).symm
      refine ⟨value :: values, w₂, bind_of_ok hrest, ?_⟩
      rcases hcount with ⟨hlen, hnil⟩ | ⟨successes, rfl, hnil, hlen⟩
      · exact .inl ⟨congrArg (· + 1) hlen, by simp_all⟩
      · exact .inr ⟨value :: successes, rfl, by simp_all, Nat.succ_le_succ hlen⟩

/-- **`read` of several formats is the sequence of its parts**, if there is room for them on the
stack; otherwise it is an error, and nothing is read. -/
theorem read_eq_readSequence (hr : Reads C s file) (hb : 2 ≤ C.bufferSize) (h : Opened w a f s)
    (hrounds : (file w.os).rest.length < C.rounds) (hne : args ≠ [])
    (hargs : ∀ v ∈ args, IsFormat C v) :
    (2 * args.length + minStack ≤ maxCStack → ∃ values w',
      LuaFileAdapter.read C a args w = .ok values w' ∧ readSequence C a args w = .ok values w' ∧
        Counted values args.length) ∧
    (maxCStack < 2 * args.length + minStack → LuaFileAdapter.read C a args w =
      .error (.luaError (Str.ascii "stack overflow (too many arguments)")) w) := by
  have he := hr.noErrors
  constructor
  · intro hlen
    obtain ⟨values, w', hsequence, hcount⟩ := formatSequence_returns hr hb h.streams hrounds hargs
    refine ⟨values, w', ?_, ?_, hcount⟩
    · rw [LuaFileAdapter.read_eq_formatSequence he h hne hargs hlen, hsequence]
    · rw [readSequence_eq he h hargs, hsequence]
  · intro hlen
    rw [LuaFileAdapter.read_apply h]
    cases args with
    | nil => exact absurd rfl hne
    | cons v args =>
      refine bind_of_error (bind_of_error ?_)
      rw [checkStack, if_pos (by omega)]
      rfl

/-! ## Examples -/

/-- The process with one VM, whose standard input is the file. -/
def deviceVm (F : InputStream) : World ℤ InputStream :=
  (machine fileDevice).next (initial fileDevice F) .startvm

theorem deviceVm_opened (F : InputStream) : Opened (deviceVm F) 0 0 fileDevice.stdin :=
  ⟨⟨_, rfl, rfl, rfl⟩, _, rfl, rfl, rfl⟩

theorem read_eq_readSequence_textFile :
    ∃ values w', LuaFileAdapter.read fileDevice 0 [.number 1, .string (Str.ascii "*l")]
        (deviceVm (.ofContent [97, 98, 10] (by decide))) = .ok values w' ∧
      readSequence fileDevice 0 [.number 1, .string (Str.ascii "*l")]
        (deviceVm (.ofContent [97, 98, 10] (by decide))) = .ok values w' ∧ Counted values 2 :=
  (read_eq_readSequence (fileDevice_reads _) (by decide) (deviceVm_opened _) (by decide) (by simp)
    (by
      refine List.forall_mem_cons.2 ⟨.inl ⟨1, rfl⟩, List.forall_mem_singleton.2 ?_⟩
      exact .inr (.inr (.inl ⟨rfl, [], rfl⟩)))).1 (by decide)

/-- Counts of zero succeed as long as the file goes on. -/
theorem readSequence_zeros {w : World ℤ InputStream} (h : Opened w a f s) (hrest : w.os.rest ≠ [])
    (k : ℕ) : ∃ w', readSequence fileDevice a (.replicate k (.number 0)) w =
      .ok (.replicate k (.string [])) w' := by
  have hzero : IsFormat fileDevice (.number (0 : ℤ)) := .inl ⟨0, rfl⟩
  rw [readSequence_eq (fileDevice_reads s).noErrors h
    fun v hv => List.eq_of_mem_replicate hv ▸ hzero]
  have hs := h.streams
  clear h
  induction k generalizing w with
  | zero => exact ⟨w, rfl⟩
  | succ k ih =>
    obtain ⟨w₁, h₁, hheap, hadv⟩ := LuaBoostFile.isEOF_reads (fileDevice_reads s) hs
    obtain ⟨w', hw'⟩ := ih (w := w₁) (by rw [show w₁.os.rest = _ from hadv.rest]; exact hrest)
      (hs.congr hheap)
    have hfirst : LuaFileAdapter.readFormat fileDevice f 1 (.number 0) w =
        .ok (true, .string []) w₁ := by
      have hprobe : LuaFileAdapter.readFormat fileDevice f 1 (.number 0) w = _ := bind_of_ok h₁
      rw [hprobe, if_neg (by simpa using hrest)]
      rfl
    rw [List.replicate_succ, formatSequence, bind_of_ok hfirst]
    exact ⟨w', bind_of_ok hw'⟩

/-- With 3991 formats `read` is an error, where one call after the other would succeed. -/
theorem read_counterexample :
    (∃ w', readSequence fileDevice 0 (.replicate 3991 (.number 0))
      (deviceVm (.ofContent [97, 98, 10] (by decide))) = .ok (.replicate 3991 (.string [])) w') ∧
    LuaFileAdapter.read fileDevice 0 (.replicate 3991 (.number 0))
        (deviceVm (.ofContent [97, 98, 10] (by decide))) =
      .error (.luaError (Str.ascii "stack overflow (too many arguments)"))
        (deviceVm (.ofContent [97, 98, 10] (by decide))) := by
  have hrest : (deviceVm (.ofContent [97, 98, 10] (by decide))).os.rest ≠ [] :=
    List.cons_ne_nil 97 [98, 10]
  refine ⟨readSequence_zeros (deviceVm_opened _) hrest 3991, ?_⟩
  rw [LuaFileAdapter.read_apply (deviceVm_opened _), List.replicate_succ]
  refine bind_of_error (bind_of_error ?_)
  rw [checkStack, List.length_cons, List.length_replicate, if_pos (by decide)]
  rfl

end Jord.Io
