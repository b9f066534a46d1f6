import Jord.Io.FailingReads
import Jord.Io.LineReading

/-!
# Input errors in `read`

`LuaFileAdapter::read` looks at the error indicator once, at the end, and every format clears it
before it reads. `reportsErrors_iff` says when an input error is reported: the last format that the
call gets to must have an error itself, and must not be a count of zero, which clears the indicator
after its probe, too.
-/

namespace Jord.Io

open Program

variable {ν Os α : Type} {C : Platform ν Os} {w w' : World ν Os} {a f : ℕ} {s : Stream}
  {v : LuaValue ν} {args : List (LuaValue ν)} {file : Os → InputStream} {failures : Os → ℕ}

/-! ## Formats -/

/-- What a round of `read` for a format comes to. -/
inductive FormatRun (C : Platform ν Os) (s : Stream) (file : Os → InputStream) (failures : Os → ℕ)
    (v : LuaValue ν) (w : World ν Os) :
    EStateM.Result Exn (World ν Os) (Bool × LuaValue ν) → Prop
  /-- An error in the reads of the format is still indicated, unless it is a count of zero. -/
  | value {success : Bool} {value : LuaValue ν} {w' : World ν Os} (hheap : w'.heap = w.heap)
      (hrest : (file w'.os).rest.length ≤ (file w.os).rest.length)
      (hiff : C.ferror s w'.os = true ↔ ¬ IsZero C v ∧ failures w.os < failures w'.os)
      (hvalue : success = true → value ≠ .nil) :
      FormatRun C s file failures v w (.ok (success, value) w')
  | refused {n : ℤ} {message : Str} :
      FormatRun C s file failures v w (.error (.argError n message) w)

theorem formatRun (hr : ReadsOrFails C s file failures) (hb : 2 ≤ C.bufferSize)
    (h : Streams w f s) (hrounds : (file w.os).rest.length < C.rounds) (n : ℤ) (v : LuaValue ν) :
    FormatRun C s file failures v w (LuaFileAdapter.readFormat C f n v w) := by
  have he := hr.errors hb
  by_cases hv : IsFormat C v
  · obtain ⟨m, hm, hformat⟩ := LuaFileAdapter.readFormat_reader hv
    obtain ⟨⟨success, value⟩, w', hrun, hrest⟩ := hm.ends hr hb h hrounds
    rw [hformat, hrun]
    refine .value (hm.heap h hrun) hrest ?_ fun hsuccess => ?_
    · by_cases hz : IsZero C v
      · rw [hm.zero hz h] at hrun
        obtain ⟨-, rfl⟩ := EStateM.Result.ok.inj hrun
        exact iff_of_false (by simp [Reader.probed, (he.clearerr _).2]) fun h => h.1 hz
      · exact (he.cleared ((hm.within hz h).ok hrun).2).2.trans (and_iff_right hz).symm
    · subst hsuccess
      exact hm.value_ne_nil hrun
  · obtain ⟨message, hmessage⟩ := LuaFileAdapter.readFormat_refused hv f n
    rw [hmessage]
    exact .refused

/-- A format, with the states before and after it. -/
structure Stage (ν Os : Type) where
  format : LuaValue ν
  before : World ν Os
  after : World ν Os

/-- The state in which a program ends. -/
def finalState : EStateM.Result Exn (World ν Os) α → World ν Os
  | .ok _ w => w
  | .error _ w => w

/-- The last format that the loop of `read` gets to. -/
def lastStage (C : Platform ν Os) (f : ℕ) :
    ℤ → LuaValue ν → List (LuaValue ν) → World ν Os → Stage ν Os
  | n, v, [], w => ⟨v, w, finalState (LuaFileAdapter.readFormat C f n v w)⟩
  | n, v, u :: args, w =>
    match LuaFileAdapter.readFormat C f n v w with
    | .ok (true, _) w' => lastStage C f (n + 1) u args w'
    | r => ⟨v, w, finalState r⟩

/-- A read of the last format fails, and the format is no count of zero. -/
def Stage.Fails (C : Platform ν Os) (failures : Os → ℕ) (st : Stage ν Os) : Prop :=
  ¬ IsZero C st.format ∧ failures st.before.os < failures st.after.os

/-- What the loop of `read` comes to. -/
inductive LoopRun (C : Platform ν Os) (s : Stream) (failures : Os → ℕ) (w : World ν Os)
    (st : Stage ν Os) : EStateM.Result Exn (World ν Os) (Bool × List (LuaValue ν)) → Prop
  | values {success : Bool} {values : List (LuaValue ν)} (hheap : st.after.heap = w.heap)
      (hiff : C.ferror s st.after.os = true ↔ st.Fails C failures)
      (hvalues : success = true → .nil ∉ values) :
      LoopRun C s failures w st (.ok (success, values) st.after)
  | refused {n : ℤ} {message : Str} (hsame : st.after = st.before) :
      LoopRun C s failures w st (.error (.argError n message) st.after)

theorem loopRun (hr : ReadsOrFails C s file failures) (hb : 2 ≤ C.bufferSize) (h : Streams w f s)
    (hrounds : (file w.os).rest.length < C.rounds) (n : ℤ) (v : LuaValue ν)
    (args : List (LuaValue ν)) : LoopRun C s failures w (lastStage C f n v args w)
      (LuaFileAdapter.readFormats C f n (v :: args) w) := by
  induction args generalizing n v w with
  | nil =>
    rw [LuaFileAdapter.readFormats, lastStage]
    have hrun := formatRun hr hb h hrounds n v
    generalize hr : LuaFileAdapter.readFormat C f n v w = r at hrun
    cases hrun with
    | @value success value w' hheap _ hiff hvalue =>
      rw [bind_of_ok hr]
      cases success with
      | true => exact .values hheap hiff fun _ hmem =>
          hvalue rfl (List.mem_singleton.1 hmem).symm
      | false => exact .values hheap hiff fun h => by cases h
    | refused =>
      rw [bind_of_error hr]
      exact .refused rfl
  | cons u args ih =>
    rw [LuaFileAdapter.readFormats, lastStage]
    have hrun := formatRun hr hb h hrounds n v
    generalize hr : LuaFileAdapter.readFormat C f n v w = r at hrun
    cases hrun with
    | @value success value w' hheap hrest hiff hvalue =>
      rw [bind_of_ok hr]
      cases success with
      | true =>
        have hloop := ih (h.congr hheap) (hrest.trans_lt hrounds) (n + 1) u
        dsimp only
        rw [if_pos rfl]
        generalize hr' : LuaFileAdapter.readFormats C f (n + 1) (u :: args) w' = r' at hloop
        cases hloop with
        | values hheap' hiff' hvalues =>
          rw [bind_of_ok hr']
          refine .values (hheap'.trans hheap) hiff' fun hsuccess hmem => ?_
          rcases List.mem_cons.1 hmem with hnil | hmem
          · exact hvalue rfl hnil.symm
          · exact hvalues hsuccess hmem
        | refused hsame =>
          rw [bind_of_error hr']
          exact .refused hsame
      | false => exact .values hheap hiff fun h => by cases h
    | refused =>
      rw [bind_of_error hr]
      exact .refused rfl

/-! ## Reports -/

/-- The error triple. -/
def IsTriple (vs : List (LuaValue ν)) : Prop :=
  ∃ message code, vs = [.nil, .string message, .number code]

/-- If a read fails during the call, the call returns the error triple. -/
def ReportsErrors (failures : Os → ℕ) (m : Eval ν Os (List (LuaValue ν))) (w : World ν Os) : Prop :=
  match m w with
  | .ok vs w' => failures w.os < failures w'.os → IsTriple vs
  | .error _ w' => ¬ failures w.os < failures w'.os

/-- If a read fails during the call, one of the last format does, and that is no count of zero. -/
def ErrorsLast (C : Platform ν Os) (failures : Os → ℕ) (f : ℕ) :
    List (LuaValue ν) → World ν Os → Prop
  | [], _ => True
  | v :: args, w => 2 * (args.length + 1) + minStack ≤ maxCStack →
    failures w.os < failures (lastStage C f 1 v args w).after.os →
      (lastStage C f 1 v args w).Fails C failures

/-- Values without `nil` are no error triple, nor are values that end with `nil`. -/
theorem not_isTriple {success : Bool} {values : List (LuaValue ν)}
    (h : success = true → .nil ∉ values) :
    ¬ IsTriple (if success then values else values.dropLast ++ [.nil]) := by
  rintro ⟨message, code, hvalues⟩
  cases success with
  | true =>
    rw [if_pos rfl] at hvalues
    exact h rfl (hvalues ▸ List.mem_cons_self)
  | false =>
    have hlast := congrArg List.getLast? hvalues
    simp at hlast

namespace LuaFileAdapter

theorem reportError_apply {y : BoostFile} (h : Holds w a f y) (message : Str) :
    ∃ vs, reportError C a message w = .ok vs w ∧ IsTriple vs := by
  obtain ⟨x, hx, hd, hf⟩ := h.adapter
  have hobject : LuaBoostFile.object f w = .ok y w := LuaBoostFile.object_apply h.file h.live
  have hname : LuaBoostFile.getFileName f w = .ok y.fileName w := bind_of_ok hobject
  have herror : LuaBoostFile.getLastError C f w = .ok (C.strerror y.errorCode) w :=
    bind_of_ok hobject
  have hcode : LuaBoostFile.getLastErrorCode f w = .ok y.errorCode w := bind_of_ok hobject
  rw [reportError, bind_of_ok (handle_apply hx hd), hf]
  dsimp only
  rw [bind_of_ok hname, bind_of_ok herror, bind_of_ok hcode]
  exact ⟨_, rfl, _, _, rfl⟩

/-- The end of `read` reports an error that is indicated, and nothing else. -/
theorem finish_run (h : Opened w a f s) (success : Bool) {values : List (LuaValue ν)}
    (hvalues : success = true → .nil ∉ values) :
    ∃ vs w', finish C a f success values w = .ok vs w' ∧ w'.os = w.os ∧
      (IsTriple vs ↔ C.ferror s w.os = true) := by
  obtain ⟨w₁, hfailed, hheap, hos⟩ := LuaBoostFile.hasFailed_apply (C := C) h.streams
  rw [finish, bind_of_ok hfailed]
  cases herror : C.ferror s w.os with
  | true =>
    obtain ⟨y, hy, -⟩ := (h.congr hheap).holds
    obtain ⟨vs, hreport, htriple⟩ := reportError_apply (C := C) hy (Str.ascii "read failure")
    exact ⟨vs, w₁, hreport, hos, iff_of_true htriple rfl⟩
  | false => exact ⟨_, w₁, rfl, hos, iff_of_false (not_isTriple hvalues) Bool.false_ne_true⟩

end LuaFileAdapter

/-- **Input errors are reported** exactly if, where there are any, one is in the reads for the last
format that the call gets to, and this is no count of zero. The call always comes to an end. -/
theorem reportsErrors_iff (hr : ReadsOrFails C s file failures) (hb : 2 ≤ C.bufferSize)
    (h : Opened w a f s) (hrounds : (file w.os).rest.length < C.rounds) :
    (∀ g w', LuaFileAdapter.read C a args w ≠ .error (.fault g) w') ∧
      (ReportsErrors failures (LuaFileAdapter.read C a args) w ↔
        ErrorsLast C failures f args w) := by
  unfold ReportsErrors
  rw [LuaFileAdapter.read_apply h]
  cases args with
  | nil =>
    obtain ⟨⟨success, l⟩, w₁, hline, -⟩ := LuaBoostFile.ends_readLine hr hb h.streams hrounds []
    obtain ⟨hheap, hcleared⟩ := (LuaBoostFile.within_readLine h.streams []).ok hline
    have hvalues : LuaFileAdapter.readValues C f [] w = .ok (success, [.string (cstr l)]) w₁ :=
      bind_of_ok hline
    have hnil : success = true → LuaValue.nil ∉ [(LuaValue.string (cstr l) : LuaValue ν)] := by
      simp
    obtain ⟨vs, w₂, hrun, hos, htriple⟩ := LuaFileAdapter.finish_run (C := C) (h.congr hheap)
      success hnil
    rw [bind_of_ok hvalues, hrun]
    refine ⟨fun _ _ h => (by cases h), iff_of_true ?_ trivial⟩
    dsimp only
    rw [hos, htriple]
    exact ((hr.errors hb).cleared hcleared).2.2
  | cons v args =>
    by_cases hlen : 2 * (args.length + 1) + minStack ≤ maxCStack
    · have hloop := loopRun hr hb h.streams hrounds 1 v args
      have hvalues : LuaFileAdapter.readValues C f (v :: args) =
          LuaFileAdapter.readFormats C f 1 (v :: args) := by
        rw [LuaFileAdapter.readValues, LuaFileAdapter.checkStack_ok (by simp; omega)]
        rfl
      rw [hvalues, ErrorsLast]
      generalize hst : lastStage C f 1 v args w = st at hloop ⊢
      generalize hr : LuaFileAdapter.readFormats C f 1 (v :: args) w = r at hloop
      cases hloop with
      | @values success values hheap hiff hnil =>
        obtain ⟨vs, w₂, hrun, hos, htriple⟩ := LuaFileAdapter.finish_run (C := C) (h.congr hheap)
          success hnil
        rw [bind_of_ok hr, hrun]
        refine ⟨fun _ _ h => (by cases h), ?_⟩
        dsimp only
        rw [hos, htriple, hiff]
        exact ⟨fun h _ => h, fun h => h hlen⟩
      | refused hsame =>
        rw [bind_of_error hr]
        refine ⟨fun _ _ h => (by cases h), fun h _ hgrown => absurd hgrown h, fun h hgrown => ?_⟩
        have hfails := (h hlen hgrown).2
        rw [hsame] at hfails
        exact Nat.lt_irrefl _ hfails
    · have hrefused : (LuaFileAdapter.readValues C f (v :: args) >>= fun r =>
          LuaFileAdapter.finish C a f r.1 r.2) w =
            .error (.luaError (Str.ascii "stack overflow (too many arguments)")) w := by
        refine bind_of_error (bind_of_error ?_)
        rw [checkStack, if_pos (by simp; omega)]
        rfl
      rw [hrefused]
      exact ⟨fun _ _ h => (by cases h),
        iff_of_true (Nat.lt_irrefl _) fun h => absurd h hlen⟩

/-! ## A device that fails now and then -/

/-- A file, for each of the next reads whether it fails, and how many have failed. -/
structure Flaky where
  stream : InputStream
  schedule : List Bool
  failures : ℕ

namespace Flaky

/-- The next read fails. -/
def failing (x : Flaky) : Bool := x.schedule.headD false

/-- The state after a read that has failed. -/
def fail (x : Flaky) : Flaky :=
  ⟨{ x.stream with error := true }, x.schedule.tail, x.failures + 1⟩

/-- The state after a read that has not failed. -/
def next (x : Flaky) (F : InputStream) : Flaky := ⟨F, x.schedule.tail, x.failures⟩

end Flaky

/-- A platform on which there is only one file, and reads fail as the schedule says. -/
def flakyDevice : Platform ℤ Flaky where
  stdin := 0
  stdout := 1
  stderr := 2
  fopen _ _ x := (some 3, x)
  fclose _ x := (true, x)
  clearerr _ x := { x with stream := x.stream.clearerr }
  ferror _ x := x.stream.error
  fgets n _ x :=
    if x.failing then (none, x.fail) else ((x.stream.fgets n).1, x.next (x.stream.fgets n).2)
  fread n _ x := if x.failing && n != 0 then ([], x.fail) else
    ((x.stream.fread n).1, x.next (x.stream.fread n).2)
  fscanf s x := if x.failing then (none, x.fail) else
    ((fileDevice.fscanf s x.stream).1, x.next (fileDevice.fscanf s x.stream).2)
  getc _ x := if x.failing then (none, x.fail) else (x.stream.getc.1, x.next x.stream.getc.2)
  ungetc c s x := { x with stream := fileDevice.ungetc c s x.stream }
  fprintf _ _ x := (true, x)
  fwrite s _ x := (s.length, x)
  fflush _ x := (true, x)
  exists_ _ x := (some true, x)
  fseek _ _ _ x := (true, x)
  ftell _ x := (x.stream.position, x)
  setvbuf _ _ _ x := (true, x)
  errno _ := 5
  strerror _ := Str.ascii "Input/output error"
  bufferSize := 8192
  str2number _ := none
  number2str n := Str.signed n
  toSize n := n.toNat
  toInteger n := n
  ofInteger n := n
  rounds := 8

theorem Flaky.failed_fail (x : Flaky) : Failed Flaky.stream Flaky.failures x x.fail :=
  ⟨rfl, rfl, 0, rfl, rfl⟩

theorem flakyDevice_reads (s : Stream) :
    ReadsOrFails flakyDevice s Flaky.stream Flaky.failures where
  clearerr _ := ⟨rfl, rfl⟩
  ferror _ := rfl
  fgets n x _ := by
    cases hx : x.failing with
    | true =>
      simp only [flakyDevice, hx, if_true]
      exact .inr ⟨x.failed_fail, trivial⟩
    | false =>
      simp only [flakyDevice, hx]
      exact .inl ⟨rfl, rfl, rfl⟩
  fread n x := by
    cases hx : x.failing && n != 0 with
    | true =>
      have hn : 0 < n := by
        simp at hx
        omega
      simp only [flakyDevice, hx, if_true]
      exact .inr ⟨x.failed_fail, hn⟩
    | false =>
      simp only [flakyDevice, hx]
      exact .inl ⟨rfl, rfl, rfl⟩
  fscanf x := by
    cases hx : x.failing with
    | true =>
      simp only [flakyDevice, hx, if_true]
      exact .inr x.failed_fail
    | false =>
      simp only [flakyDevice, hx]
      exact .inl ⟨rfl, rfl, _, x.stream.advances_skip _⟩
  getc x := by
    cases hx : x.failing with
    | true =>
      simp only [flakyDevice, hx, if_true]
      exact .inr ⟨x.failed_fail, trivial⟩
    | false =>
      simp only [flakyDevice, hx]
      exact .inl ⟨rfl, rfl, rfl⟩
  ungetc b x h := by
    cases hx : x.failing with
    | true =>
      simp only [flakyDevice, hx, if_true] at h
      cases h
    | false =>
      simp only [flakyDevice, hx] at h ⊢
      exact (fileDevice_reads s).ungetc b x.stream h
  ungetc_eof _ := rfl
  ungetc_failures _ _ := rfl

/-- The process with one VM, whose standard input is the file `ab`, with a schedule of failures. -/
def flakyVm (schedule : List Bool) : World ℤ Flaky :=
  (machine flakyDevice).next
    (initial flakyDevice ⟨.ofContent [97, 98, 10] (by decide), schedule, 0⟩) .startvm

theorem flakyVm_opened (schedule : List Bool) :
    Opened (flakyVm schedule) 0 0 flakyDevice.stdin :=
  ⟨⟨_, rfl, rfl, rfl⟩, _, rfl, rfl, rfl⟩

/-- The read for the first format fails, and the one for the second does not; or both fail. -/
theorem reportsErrors_iff_flakyDevice :
    ((∀ g w', LuaFileAdapter.read flakyDevice 0 [.string (Str.ascii "*a"),
          .string (Str.ascii "*l")] (flakyVm [true]) ≠ .error (.fault g) w') ∧
      (ReportsErrors Flaky.failures (LuaFileAdapter.read flakyDevice 0 [.string (Str.ascii "*a"),
          .string (Str.ascii "*l")]) (flakyVm [true]) ↔
        ErrorsLast flakyDevice Flaky.failures 0 [.string (Str.ascii "*a"),
          .string (Str.ascii "*l")] (flakyVm [true]))) ∧
    ((∀ g w', LuaFileAdapter.read flakyDevice 0 [.string (Str.ascii "*a"),
          .string (Str.ascii "*l")] (flakyVm [true, true]) ≠ .error (.fault g) w') ∧
      (ReportsErrors Flaky.failures (LuaFileAdapter.read flakyDevice 0 [.string (Str.ascii "*a"),
          .string (Str.ascii "*l")]) (flakyVm [true, true]) ↔
        ErrorsLast flakyDevice Flaky.failures 0 [.string (Str.ascii "*a"),
          .string (Str.ascii "*l")] (flakyVm [true, true]))) :=
  ⟨reportsErrors_iff (flakyDevice_reads _) (by decide) (flakyVm_opened _) (by decide),
    reportsErrors_iff (flakyDevice_reads _) (by decide) (flakyVm_opened _) (by decide)⟩

/-- The probe for the end of the file fails, and the call returns `nil`, as at the end. -/
theorem reportsErrors_counterexample :
    ¬ ReportsErrors Flaky.failures (LuaFileAdapter.read flakyDevice 0 [.number 0])
      (flakyVm [true]) := by
  have hread : ∃ w', LuaFileAdapter.read flakyDevice 0 [.number 0] (flakyVm [true]) =
      .ok [.nil] w' ∧ w'.os.failures = 1 := ⟨_, rfl, rfl⟩
  obtain ⟨w', hrun, hcount⟩ := hread
  unfold ReportsErrors
  rw [hrun]
  intro h
  obtain ⟨message, code, htriple⟩ := h (by rw [hcount]; decide)
  cases htriple

end Jord.Io
