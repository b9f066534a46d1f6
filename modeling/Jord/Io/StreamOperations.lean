import Jord.Io.Writing

/-!
# Operations on a stream

What `write`, `seek` and `flush` of an open handle do to its stream, whatever arguments they are
called with and whether or not the calls of the C library succeed.

* `StreamOp.calls` lists the calls that an operation makes, and `StreamOp.effect` is what it does to
  an `OutputStream`.
* `runOps_trace`: a script that goes on after errors makes the calls of its operations, and gets the
  answers that its stream stands for.
-/

namespace Jord.Io

open Program

variable {ν Os : Type} {C : Platform ν Os} {w w' : World ν Os} {a f : ℕ} {s : Stream}
  {args : List (LuaValue ν)} {out : Os → OutputStream} {os os' : Os}

/-! ## Operations -/

/-- A call of a method of a handle. -/
inductive StreamOp (ν : Type)
  | write (args : List (LuaValue ν))
  | seek (args : List (LuaValue ν))
  | flush

/-- How a call ends: with values, or with an error. -/
abbrev Answer (ν : Type) := Except Exn (List (LuaValue ν))

namespace StreamOp

/-- The operation on the handle `a`. -/
def run (C : Platform ν Os) (a : ℕ) : StreamOp ν → Eval ν Os (List (LuaValue ν))
  | write args => LuaFileAdapter.write C a args
  | seek args => LuaFileAdapter.seek C a args
  | flush => LuaFileAdapter.flush C a

/-- The arguments are accepted. -/
def Valid (C : Platform ν Os) : StreamOp ν → Prop
  | write args => AllText C args
  | seek args => (seekRequest C args).isSome
  | flush => True

/-- The calls of the C library that the operation makes if they succeed. -/
def calls (C : Platform ν Os) : StreamOp ν → List (OutputCall ν)
  | write args => writeCalls args
  | seek args => (seekRequest C args).elim [] fun r => [.fseek r.2 r.1]
  | flush => [.fflush]

/-- What the operation does to the stream if its calls succeed. -/
def effect (C : Platform ν Os) (F : OutputStream) (op : StreamOp ν) : OutputStream :=
  (op.calls C).foldl (OutputCall.effect C) F

/-- The bytes that the operation writes. -/
def text (C : Platform ν Os) : StreamOp ν → Str
  | write args => (writeCalls args).flatMap (OutputCall.text C)
  | seek _ => []
  | flush => []

/-- A `write` of several values is one write of their texts. -/
theorem effect_write (F : OutputStream) (args : List (LuaValue ν)) :
    (write args).effect C F = F.write ((write args).text C) := by
  change (writeCalls args).foldl (OutputCall.effect C) F =
    F.write ((writeCalls args).flatMap (OutputCall.text C))
  induction args generalizing F with
  | nil => exact F.write_nil.symm
  | cons v args ih =>
    cases v with
    | number n =>
      have hcalls : writeCalls (.number n :: args) = .fprintf n :: writeCalls args := rfl
      rw [hcalls, List.foldl_cons, ih, List.flatMap_cons, ← OutputStream.write_append]
      rfl
    | string t =>
      have hcalls : writeCalls (.string t :: args) = .fwrite t :: writeCalls args := rfl
      rw [hcalls, List.foldl_cons, ih, List.flatMap_cons, ← OutputStream.write_append]
      rfl
    | _ => exact F.write_nil.symm

/-- A stream that appends only ever grows, by the text of the operation. -/
theorem effect_append {F : OutputStream} (h : F.append = true) (op : StreamOp ν) :
    (op.effect C F).content = F.content ++ op.text C ∧ (op.effect C F).append = true := by
  cases op with
  | write args =>
    rw [effect_write]
    exact OutputStream.write_of_append h _
  | seek args =>
    rw [show (seek args).text C = [] from rfl, List.append_nil, effect, calls]
    cases seekRequest C args with
    | none => exact ⟨rfl, h⟩
    | some r =>
      obtain ⟨hcontent, happend⟩ := OutputStream.moveTo_getD (F := F) (origin F r.1 + r.2)
      exact ⟨hcontent, happend.trans h⟩
  | flush => exact ⟨(List.append_nil _).symm, h⟩

/-- The value that the operation returns in the state `os`, for the stream `F` that it leaves. The
position after a `seek` is what `ftell` says after `fseek`: that of the stream, or `-1`. -/
inductive Returns (C : Platform ν Os) (s : Stream) (os : Os) (F : OutputStream) :
    StreamOp ν → LuaValue ν → Prop
  | write (args : List (LuaValue ν)) : Returns C s os F (write args) (.boolean true)
  | seek {args : List (LuaValue ν)} {mode : SeekMode} {offset p : ℤ}
      (hr : seekRequest C args = some (mode, offset))
      (htold : (C.ftell s (C.fseek s offset mode os).2).1 = p) (hp : p = -1 ∨ p = F.position) :
      Returns C s os F (seek args) (.number (C.ofInteger p))
  | flush : Returns C s os F flush (.boolean true)

/-- The answer to the operation in the state `os`: `good` says whether its calls of the C library
succeed, and `F` is the stream that it leaves in this case. -/
inductive Answers (C : Platform ν Os) (s : Stream) (os : Os) (op : StreamOp ν) :
    (good : Bool) → (F : OutputStream) → Answer ν → Prop
  | returns {F : OutputStream} {v : LuaValue ν} (hop : op.Valid C) (hv : op.Returns C s os F v) :
      Answers C s os op true F (.ok [v])
  | fails {F : OutputStream} {vs : List (LuaValue ν)} (hop : op.Valid C) (hvs : IsTriple vs) :
      Answers C s os op false F (.ok vs)
  | refused {good : Bool} {F : OutputStream} {n : ℤ} {message : Str} (hop : ¬ op.Valid C) :
      Answers C s os op good F (.error (.argError n message))

end StreamOp

/-- The answer of a program, and the state in which it ends. -/
def answer : EStateM.Result Exn (World ν Os) (List (LuaValue ν)) → Answer ν × World ν Os
  | .ok vs w => (.ok vs, w)
  | .error e w => (.error e, w)

namespace LuaFileAdapter

theorem handle_opened (h : Opened w a f s) : handle a w = .ok (some f) w := by
  obtain ⟨x, hx, hd, hf⟩ := h.adapter
  rw [← hf]
  exact handle_apply hx hd

/-- The report of a result: `true`, or the error triple. -/
theorem reportResult_apply (h : Opened w a f s) (b : Bool) : ∃ vs, reportResult C a b w = .ok vs w ∧
    ((b = true ∧ vs = [.boolean true]) ∨ (b = false ∧ IsTriple vs)) := by
  cases b with
  | true => exact ⟨_, rfl, .inl ⟨rfl, rfl⟩⟩
  | false =>
    obtain ⟨y, hy, -⟩ := h.holds
    have herror : LuaBoostFile.getLastError C f w = .ok (C.strerror y.errorCode) w :=
      bind_of_ok (LuaBoostFile.object_apply hy.file hy.live)
    obtain ⟨vs, hreport, htriple⟩ := reportError_apply (C := C) hy (C.strerror y.errorCode)
    refine ⟨vs, ?_, .inr ⟨rfl, htriple⟩⟩
    rw [reportResult, if_neg Bool.false_ne_true, bind_of_ok (handle_opened h)]
    dsimp only
    rw [bind_of_ok herror, hreport]

end LuaFileAdapter

namespace StreamOp

/-- What is said of a call of a method: it makes its calls, and answers. -/
def Performs (C : Platform ν Os) (s : Stream) (out : Os → OutputStream) (op : StreamOp ν)
    (m : Eval ν Os (List (LuaValue ν))) (w : World ν Os) : Prop :=
  ∃ r w', answer (m w) = (r, w') ∧ Leads w (runCalls C s (op.calls C) w.os).2 w' ∧
    op.Answers C s w.os (runCalls C s (op.calls C) w.os).1 (op.effect C (out w.os)) r

/-- A call whose result is reported. -/
theorem performs_report {op : StreamOp ν} {m : Eval ν Os (List (LuaValue ν))} (h : Opened w a f s)
    (hop : op.Valid C)
    (hm : m w = LuaFileAdapter.reportResult C a (runCalls C s (op.calls C) w.os).1 w')
    (hleads : Leads w (runCalls C s (op.calls C) w.os).2 w')
    (hv : op.Returns C s w.os (op.effect C (out w.os)) (.boolean true)) :
    Performs C s out op m w := by
  obtain ⟨vs, hreport, hvs⟩ := LuaFileAdapter.reportResult_apply (C := C) (h.congr hleads.heap)
    (runCalls C s (op.calls C) w.os).1
  refine ⟨.ok vs, w', ?_, hleads, ?_⟩
  · rw [hm, hreport]
    rfl
  · rcases hvs with ⟨hgood, rfl⟩ | ⟨hgood, htriple⟩
    · rw [hgood]
      exact .returns hop hv
    · rw [hgood]
      exact .fails hop htriple

theorem write_performs (h : Opened w a f s) (args : List (LuaValue ν)) :
    Performs C s out (.write args) (LuaFileAdapter.write C a args) w := by
  obtain ⟨w', hleads, hend⟩ := LuaFileAdapter.writeArgs_run (C := C) h.streams 1 args
  have hwrite : LuaFileAdapter.write C a args w =
      (LuaFileAdapter.writeArgs C f 1 args true >>= LuaFileAdapter.reportResult C a) w := by
    rw [LuaFileAdapter.write, bind_of_ok (LuaFileAdapter.handle_opened h)]
  rcases hend with ⟨hall, hrun⟩ | ⟨hnot, k, message, hrun⟩
  · exact performs_report h hall (hwrite.trans (bind_of_ok hrun)) hleads (.write args)
  · refine ⟨.error (.argError k message), w', ?_, hleads, .refused hnot⟩
    rw [hwrite, bind_of_error hrun]
    rfl

theorem flush_performs (h : Opened w a f s) :
    Performs C s out .flush (LuaFileAdapter.flush C a) w := by
  obtain ⟨w', hrun, hleads⟩ := LuaBoostFile.flush_run (C := C) h.streams
  have hcalls := runCalls_single (C := C) (s := s) (.fflush : OutputCall ν) w.os
  rw [← hcalls] at hrun hleads
  have hvalid : Valid C (.flush : StreamOp ν) := trivial
  refine performs_report h hvalid ?_ hleads .flush
  rw [LuaFileAdapter.flush, bind_of_ok (LuaFileAdapter.handle_opened h)]
  exact bind_of_ok hrun

/-- A call of `seek` with arguments that are not accepted. -/
theorem seek_refused {n : ℤ} {message : Str} (hnone : seekRequest C args = none)
    (hrun : LuaFileAdapter.seek C a args w = .error (.argError n message) w) :
    Performs C s out (.seek args) (LuaFileAdapter.seek C a args) w := by
  refine ⟨.error (.argError n message), w, by rw [hrun]; rfl, ?_, .refused ?_⟩
  · rw [calls, hnone]
    exact ⟨rfl, rfl⟩
  · rw [Valid, hnone]
    exact Bool.false_ne_true

theorem seek_performs (hW : Writes C s out) (h : Opened w a f s) (args : List (LuaValue ν)) :
    Performs C s out (.seek args) (LuaFileAdapter.seek C a args) w := by
  rcases checkOption_apply (C := C) 1 args[0]? (Str.ascii "cur")
    [(Str.ascii "set", SeekMode.set), (Str.ascii "cur", .cur), (Str.ascii "end", .fromEnd)] w with
    ⟨mode, hmode, hfirst⟩ | ⟨hnone, message, hfirst⟩
  rotate_left
  · have hrun : LuaFileAdapter.seek C a args w = .error (.argError 1 message) w := by
      rw [LuaFileAdapter.seek, bind_of_ok (LuaFileAdapter.handle_opened h)]
      exact bind_of_error hfirst
    exact seek_refused (by rw [seekRequest, hnone]; rfl) hrun
  rcases optInteger_apply (C := C) 2 args[1]? 0 w with ⟨offset, hoffset, hsecond⟩ |
    ⟨hnone, message, hsecond⟩
  rotate_left
  · have hrun : LuaFileAdapter.seek C a args w = .error (.argError 2 message) w := by
      rw [LuaFileAdapter.seek, bind_of_ok (LuaFileAdapter.handle_opened h)]
      dsimp only
      rw [bind_of_ok hfirst, bind_of_error hsecond]
    exact seek_refused (by rw [seekRequest, hmode, hnone]; rfl) hrun
  have hrequest : seekRequest C args = some (mode, offset) := by
    rw [seekRequest, hmode, hoffset]
    rfl
  have hvalid : Valid C (.seek args) := by
    rw [Valid, hrequest]
    rfl
  have hcalls : calls C (.seek args) = [.fseek offset mode] := by
    rw [calls, hrequest]
    rfl
  obtain ⟨w', hrun, hleads⟩ := LuaBoostFile.seek_run (C := C) h.streams mode offset
  obtain ⟨p, hp⟩ : ∃ p, (C.ftell s (C.fseek s offset mode w.os).2).1 = p := ⟨_, rfl⟩
  have hseek : LuaFileAdapter.seek C a args w =
      (if !((OutputCall.fseek offset mode).run C s w.os).1 then
        LuaFileAdapter.reportError C a (Str.ascii "seek failed")
      else pure [.number (C.ofInteger p)]) w' := by
    rw [LuaFileAdapter.seek, bind_of_ok (LuaFileAdapter.handle_opened h)]
    dsimp only
    rw [bind_of_ok hfirst, bind_of_ok hsecond, bind_of_ok hrun, hp]
  unfold Performs
  rw [effect, hcalls, runCalls_single]
  cases hgood : ((OutputCall.fseek offset mode).run C s w.os).1 with
  | true =>
    rw [hgood] at hseek
    refine ⟨.ok [.number (C.ofInteger p)], w', by rw [hseek]; rfl, hleads,
      .returns hvalid (.seek hrequest hp ?_)⟩
    have hmoved := (hW.fseek offset mode w.os hgood)
    rw [List.foldl_cons, List.foldl_nil, OutputCall.effect, hmoved, Option.getD_some, ← hp]
    exact (hW.ftell _).1
  | false =>
    rw [hgood] at hseek
    obtain ⟨y, hy, -⟩ := (h.congr hleads.heap).holds
    obtain ⟨vs, hreport, htriple⟩ :=
      LuaFileAdapter.reportError_apply (C := C) hy (Str.ascii "seek failed")
    refine ⟨.ok vs, w', ?_, hleads, .fails hvalid htriple⟩
    rw [hseek]
    exact congrArg answer hreport

/-- **One operation.** -/
theorem run_performs (hW : Writes C s out) (h : Opened w a f s) (op : StreamOp ν) :
    Performs C s out op (op.run C a) w := by
  cases op with
  | write args => exact write_performs h args
  | seek args => exact seek_performs hW h args
  | flush => exact flush_performs h

end StreamOp

/-! ## Scripts -/

/-- A script that goes on after errors: its answers, and the state in which it ends. -/
def runOps (C : Platform ν Os) (a : ℕ) : List (StreamOp ν) → World ν Os →
    List (Answer ν) × World ν Os
  | [], w => ([], w)
  | op :: ops, w =>
    ((answer (op.run C a w)).1 :: (runOps C a ops (answer (op.run C a w)).2).1,
      (runOps C a ops (answer (op.run C a w)).2).2)

/-- The calls that a script makes of the C library, from `os` to `os'`, and the answers it gets;
`good` says whether all of the calls succeed. -/
inductive Trace (C : Platform ν Os) (s : Stream) (out : Os → OutputStream) :
    List (StreamOp ν) → (os : Os) → (good : Bool) → List (Answer ν) → (os' : Os) → Prop
  | nil (os : Os) : Trace C s out [] os true [] os
  | cons {op : StreamOp ν} {ops : List (StreamOp ν)} {os os' : Os} {good : Bool} {r : Answer ν}
      {rs : List (Answer ν)}
      (hr : op.Answers C s os (runCalls C s (op.calls C) os).1 (op.effect C (out os)) r)
      (hrest : Trace C s out ops (runCalls C s (op.calls C) os).2 good rs os') :
      Trace C s out (op :: ops) os ((runCalls C s (op.calls C) os).1 && good) (r :: rs) os'

/-- If all calls succeed, the operations are performed on the stream. -/
theorem Trace.stream {ops : List (StreamOp ν)} {good : Bool} {rs : List (Answer ν)}
    (hW : Writes C s out) (h : Trace C s out ops os good rs os') (hgood : good = true) :
    out os' = ops.foldl (StreamOp.effect C) (out os) := by
  induction h with
  | nil => rfl
  | cons hr hrest ih =>
    obtain ⟨hop, hgood⟩ := Bool.and_eq_true_iff.1 hgood
    rw [ih hgood, hW.runCalls hop, List.foldl_cons]
    rfl

/-- **A script that writes, seeks and flushes** makes the calls of its operations and gets their
answers; if the calls succeed its stream is what the operations make of it. All other objects stay
as they are. -/
theorem runOps_trace (hW : Writes C s out) (h : Opened w a f s) (ops : List (StreamOp ν)) :
    ∃ good, Trace C s out ops w.os good (runOps C a ops w).1 (runOps C a ops w).2.os ∧
      (good = true → out (runOps C a ops w).2.os = ops.foldl (StreamOp.effect C) (out w.os)) ∧
      (runOps C a ops w).2.heap = w.heap := by
  have htrace : ∃ good, Trace C s out ops w.os good (runOps C a ops w).1 (runOps C a ops w).2.os ∧
      (runOps C a ops w).2.heap = w.heap := by
    induction ops generalizing w with
    | nil => exact ⟨true, .nil _, rfl⟩
    | cons op ops ih =>
      obtain ⟨r, w₁, hrun, hleads, hr⟩ := StreamOp.run_performs hW h op
      obtain ⟨good, htrace, hheap⟩ := ih (h.congr hleads.heap)
      rw [hleads.os] at htrace
      rw [runOps, hrun]
      exact ⟨_, .cons hr htrace, hheap.trans hleads.heap⟩
  obtain ⟨good, htrace, hheap⟩ := htrace
  exact ⟨good, htrace, htrace.stream hW, hheap⟩

/-- Two texts, a move before the beginning, a write that is refused behind a text, and a flush. -/
def mixedOps : List (StreamOp ℤ) :=
  [.write [.string [97, 98], .number 7], .seek [.string (Str.ascii "cur"), .number (-4)],
    .write [.string [120], .nil], .flush]

theorem runOps_trace_diskDevice : ∃ good,
    Trace diskDevice diskDevice.stdout Disk.written mixedOps (diskVm (.ofContent [] (by decide))).os
        good (runOps diskDevice 1 mixedOps (diskVm (.ofContent [] (by decide)))).1
        (runOps diskDevice 1 mixedOps (diskVm (.ofContent [] (by decide)))).2.os ∧
      (good = true →
        (runOps diskDevice 1 mixedOps (diskVm (.ofContent [] (by decide)))).2.os.written =
          mixedOps.foldl (StreamOp.effect diskDevice) .empty) ∧
      (runOps diskDevice 1 mixedOps (diskVm (.ofContent [] (by decide)))).2.heap =
        (diskVm (.ofContent [] (by decide))).heap :=
  runOps_trace (diskDevice_writes _) (diskVm_opened _) mixedOps

end Jord.Io
