import Jord.Io.Aftermath
import Jord.Io.Opening

/-!
# What line iterators are bound to

`lineIterators_iff` is about the three ways to get a line iterator. The one of `f:lines(...)` is
bound to `f` and leaves it open exactly if no userdata is passed last (a handle of the same file
does no harm as long as the input goes on); the one of `io.lines()` always is; and the one of
`io.lines(name)` reads its own file, closes it at the end, and raises an error from then on.
-/

namespace Jord.Io

open Program

variable {ν Os α β : Type} {C : Platform ν Os} {w w' : World ν Os} {l a b f g : ℕ} {s : Stream}
  {vm : Vm ν} {it : Iterator ν} {y : BoostFile}

/-! ## Errors that are no Lua errors -/

/-- The program raises no Lua error. -/
def OnlyFaults (m : Eval ν Os α) : Prop :=
  Program.Calm (fun _ : World ν Os => ()) (fun e => ∃ g, e = Exn.fault g) () m fun _ => True

namespace OnlyFaults

theorem bind {m : Eval ν Os α} {k : α → Eval ν Os β} (hm : OnlyFaults m)
    (hk : ∀ a, OnlyFaults (k a)) : OnlyFaults (m >>= k) :=
  Program.Calm.bind hm fun a _ => hk a

theorem pure (a : α) : OnlyFaults (pure a : Eval ν Os α) := Program.Calm.pure trivial

theorem fault (g : Fault) : OnlyFaults (fault g : Eval ν Os α) := Program.Calm.throw ⟨g, rfl⟩

theorem sys (g : Os → α × Os) : OnlyFaults (sys g : Eval ν Os α) :=
  Program.Calm.of_ok fun _ _ => ⟨_, _, rfl, rfl, trivial⟩

theorem sysUnit (g : Os → Os) : OnlyFaults (sysUnit g : Eval ν Os Unit) :=
  Program.Calm.of_ok fun _ _ => ⟨_, _, rfl, rfl, trivial⟩

theorem checked (f : ℕ) (result : Bool) : OnlyFaults (LuaBoostFile.checked C f result) :=
  Program.Calm.of_ok fun w _ => by
    obtain ⟨w', hw', -⟩ := LuaBoostFile.checked_heap (C := C) f result w
    exact ⟨_, w', hw', rfl, trivial⟩

theorem stream (f : ℕ) : OnlyFaults (LuaBoostFile.stream f : Eval ν Os Stream) := by
  have hobject : OnlyFaults (LuaBoostFile.object f : Eval ν Os BoostFile) := by
    refine bind (Program.Calm.of_ok fun w _ => ⟨w, w, rfl, rfl, trivial⟩) fun w => ?_
    split
    · split
      · exact fault _
      · exact pure _
    · exact fault _
  apply bind hobject
  intro x
  split
  · exact pure _
  · exact fault _

theorem error {m : Eval ν Os α} {e : Exn} (h : OnlyFaults m) (hm : m w = .error e w') :
    ∃ g, e = .fault g := by
  have := h w rfl
  rw [hm] at this
  exact this.2

theorem readLineLoop (f : ℕ) (s : Stream) (size n : ℕ) (line : Str) :
    OnlyFaults (LuaBoostFile.readLineLoop C f s size n line) := by
  induction n generalizing line with
  | zero => exact fault _
  | succ n ih =>
    apply bind (sys _)
    intro buffer
    cases buffer with
    | none => exact bind (checked f _) fun _ => pure _
    | some buffer =>
      dsimp only
      split
      · exact pure _
      · exact ih _

theorem readLine (f : ℕ) (line : Str) : OnlyFaults (LuaBoostFile.readLine C f line) :=
  bind (stream f) fun _ => bind (sysUnit _) fun _ => readLineLoop _ _ _ _ _

end OnlyFaults

/-! ## One line -/

/-- One line from the file `f`, or `nil`. -/
def lineOf (C : Platform ν Os) (f : ℕ) : Eval ν Os (List (LuaValue ν)) := do
  let r ← LuaBoostFile.readLine C f []
  return [if r.1 then .string (cstr r.2) else .nil]

/-- A call of the iterator reads one line from the file `f`, and does nothing else: it calls only
functions that read the stream. -/
structure ReadsLine (C : Platform ν Os) (it : Iterator ν) (f : ℕ) (s : Stream) (w : World ν Os) :
    Prop where
  same : LuaFileAdapter.linesIterator C it w = lineOf C f w
  within : Within (LuaBoostFile.Cleared C s) (LuaFileAdapter.linesIterator C it) w

/-- While the handle `a` is open, the iterator reads from its file `f`. -/
def BoundTo (C : Platform ν Os) (it : Iterator ν) (a f : ℕ) (w : World ν Os) : Prop :=
  ∀ s, Opened w a f s → ReadsLine C it f s w

theorem ReadsLine.of_same (h : Opened w a f s)
    (hsame : LuaFileAdapter.linesIterator C it w = lineOf C f w) : ReadsLine C it f s w := by
  refine ⟨hsame, ?_⟩
  have hline : Within (LuaBoostFile.Cleared C s) (lineOf C f) w :=
    .bind (U := fun os os' => os' = os) (LuaBoostFile.within_readLine h.streams [])
      (fun _ _ _ => .of_ok rfl rfl rfl) fun os os' h hos => hos ▸ h
  rw [Within] at hline ⊢
  rwa [hsame]

/-- Reading a line of an open file only fails to come to an end. -/
theorem lineOf_error {e : Exn} (h : Opened w a f s) (hline : lineOf C f w = .error e w') :
    e = .fault .unfinished := by
  have honly : OnlyFaults (lineOf C f) :=
    .bind (.readLine f []) fun _ => .pure _
  have hread : Calm (· = .unfinished) w.view (LuaBoostFile.readLine C f []) :=
    LuaBoostFile.calm_readLine (F := (· = .unfinished)) rfl h.usable []
  have hcalm : Calm (· = .unfinished) w.view (lineOf C f) :=
    .bind hread fun _ _ => .pure trivial
  obtain ⟨g, rfl⟩ := honly.error hline
  exact congrArg Exn.fault (hcalm.error hline).2

/-- The handle is open if its file has a stream. -/
theorem View.Has.opened (hok : w.view.Ok) (h : w.view.Has a f) {y : FileView}
    (hy : w.view.files[f]? = some y) (hopen : y.isOpen = true) : ∃ s, Opened w a f s := by
  obtain ⟨z, hz, hlive⟩ := hok.file a f h
  cases hy.symm.trans hz
  obtain ⟨x, hx, rfl⟩ := exists_file hy
  obtain ⟨s, hs⟩ := Option.isSome_iff_exists.1 hopen
  exact ⟨s, h, x, hx, hlive, hs⟩

theorem Opened.isOpen (h : Opened w a f s) :
    ∃ y, w.view.files[f]? = some y ∧ y.isOpen = true := by
  obtain ⟨y, hy, hs⟩ := h.holds
  exact ⟨y.view, hy.view_file, by simp [BoostFile.view, hs]⟩

/-! ## Iterators of both kinds -/

/-- An iterator that only knows an address does nothing but read. -/
theorem boundTo_light (w : World ν Os) : BoundTo C ⟨.light a, false⟩ a f w := by
  intro s h
  obtain ⟨y, hy, hs⟩ := h.holds
  refine .of_same h ?_
  rw [LuaFileAdapter.linesIterator_open rfl hy (by simp [hs]), lineOf]
  refine congrFun (bind_congr fun r => ?_) w
  cases r.1 <;> rfl

/-- An iterator over a userdata does nothing but read before the end of the file. -/
theorem readsLine_full (h : Opened w b f s) (hend : ¬ AtEnd C f w) :
    ReadsLine C ⟨.full (.handle b), true⟩ f s w := by
  obtain ⟨y, hy, hs⟩ := h.holds
  refine .of_same h ?_
  rw [LuaFileAdapter.linesIterator_open rfl hy (by simp [hs]), lineOf]
  cases hr : LuaBoostFile.readLine C f [] w with
  | error e w₁ => rw [bind_of_error hr, bind_of_error hr]
  | ok r w₁ =>
    rw [bind_of_ok hr, bind_of_ok hr]
    obtain ⟨success, line⟩ := r
    cases success with
    | true => rfl
    | false => exact absurd ⟨line, w₁, hr⟩ hend

/-- At the end of the file it closes the file. -/
theorem linesIterator_atEnd (h : Opened w b f s) (hend : AtEnd C f w) :
    ∃ w', LuaFileAdapter.linesIterator C ⟨.full (.handle b), true⟩ w = .ok [.nil] w' ∧
      w'.view = w.view.closeFile f := by
  obtain ⟨y, hy, hs⟩ := h.holds
  obtain ⟨line, w₁, hr⟩ := hend
  obtain ⟨hheap, -⟩ := (LuaBoostFile.within_readLine h.streams []).ok hr
  obtain ⟨z, hz, hzd, -⟩ := h.streams.congr hheap
  obtain ⟨w₂, h₂, hv₂⟩ := LuaBoostFile.close_apply (C := C) hz hzd
  have hcalm : Calm (· = .unfinished) w.view (LuaBoostFile.readLine C f []) :=
    LuaBoostFile.calm_readLine (F := (· = .unfinished)) rfl h.usable []
  refine ⟨w₂, ?_, ?_⟩
  · rw [LuaFileAdapter.linesIterator_open rfl hy (by simp [hs]), bind_of_ok hr]
    exact bind_of_ok (discard_apply h₂)
  · rw [hv₂, (hcalm.ok hr).1]

/-- Reading a line leaves the file open. -/
theorem not_boundTo_atEnd (h : Opened w a f s) (hb : w.view.Has b f) (hend : AtEnd C f w) :
    ¬ BoundTo C ⟨.full (.handle b), true⟩ a f w := by
  intro hbound
  obtain ⟨w', hiter, hv⟩ := linesIterator_atEnd ⟨hb, h.streams⟩ hend
  have hheap := ((hbound s h).within.ok hiter).1
  obtain ⟨y, hy, hopen⟩ := (h.congr hheap).isOpen
  rw [hv, View.closeFile_files] at hy
  obtain ⟨z, -, rfl⟩ := Option.map_eq_some_iff.1 hy
  cases hopen

/-- The iterator cannot read a line: it raises an error, or worse. -/
theorem not_boundTo_error {e : Exn} (h : Opened w a f s)
    (hiter : LuaFileAdapter.linesIterator C it w = .error e w') (he : e ≠ .fault .unfinished) :
    ¬ BoundTo C it a f w := fun hbound =>
  he (lineOf_error h ((hbound s h).same.symm.trans hiter))

/-- An iterator over a handle that has lost its file raises an error, or worse. -/
theorem linesIterator_shutOff (hok : w.view.Ok)
    (hshut : ∀ g y, Holds w b g y → y.fileHandle = none) : ∃ e,
    LuaFileAdapter.linesIterator C ⟨.full (.handle b), true⟩ w = .error e w ∧
      e ≠ .fault .unfinished := by
  rcases hok.handle_cases b with hdead | hreleased | ⟨g, y, hholds⟩
  · exact ⟨_, LuaFileAdapter.linesIterator_dead rfl hdead, fun h => by cases h⟩
  · exact ⟨_, LuaFileAdapter.linesIterator_released rfl hreleased, fun h => by cases h⟩
  · exact ⟨_, LuaFileAdapter.linesIterator_shut rfl hholds (hshut g y hholds), fun h => by cases h⟩

/-! ## Runs -/

/-- Whatever happens later, the iterator reads from the file of the handle `a` while this is
open. -/
def StaysBoundTo (C : Platform ν Os) (it : Iterator ν) (a f : ℕ) (w : World ν Os) : Prop :=
  ∀ es, (machine C).Along (machine C).enabled w es →
    (machine C).Throughout (BoundTo C it a f) w es

/-- Whatever happens later, a line can be read from the file while the handle `a` is open. -/
def NeverEnds (C : Platform ν Os) (a f : ℕ) (w : World ν Os) : Prop :=
  ∀ es, (machine C).Along (machine C).enabled w es →
    (machine C).Throughout (fun w => ∀ s, Opened w a f s → ¬ AtEnd C f w) w es

/-- The last argument of `lines` does no harm: it is no userdata, or a handle of the file `f` of the
handle `a`, the input of which does not end. -/
def Harmless (C : Platform ν Os) (w : World ν Os) (a f : ℕ) : Option (LuaValue ν) → Prop
  | some (.handle b) => w.view.Has b f ∧ NeverEnds C a f w
  | some (.userdata _) => False
  | _ => True

theorem staysBoundTo_light (w : World ν Os) : StaysBoundTo C ⟨.light a, false⟩ a f w :=
  fun _ hes => Machine.throughout_of_invariant (fun _ _ w' _ _ _ => boundTo_light w')
    (boundTo_light w) hes

/-- A handle has its file as long as the file is open. -/
structure HasWhileOpen (b f : ℕ) (w : World ν Os) : Prop where
  ok : w.view.Ok
  file : ∃ y, w.view.files[f]? = some y ∧ (y.isOpen = true → w.view.Has b f)

theorem HasWhileOpen.step {e : Event ν} (h : HasWhileOpen b f w) (hen : (machine C).enabled w e)
    (hexec : exec C w e = .ok w') : HasWhileOpen b f w' := by
  obtain ⟨y, hy, hhas⟩ := h.file
  obtain ⟨y', hy', hopen⟩ := exec_file h.ok hen.1 hexec hy
  refine ⟨exec_ok h.ok hen.1 hexec, y', hy', fun hy'open => ?_⟩
  obtain ⟨hyopen, hnone⟩ := hopen.1 hy'open
  rcases exec_keeps h.ok hen.1 hexec (hhas hyopen) with hkept | ⟨z, hends⟩
  · exact hkept
  · exact absurd hends (hnone b z)

/-- A handle of the same file can be read from as long as the input does not end. -/
theorem staysBoundTo_same (hok : w.view.Ok) (h : Opened w a f s) (hb : w.view.Has b f) :
    StaysBoundTo C ⟨.full (.handle b), true⟩ a f w ↔ NeverEnds C a f w := by
  have hhas : ∀ es, (machine C).Along (machine C).enabled w es →
      (machine C).Throughout (fun w => ∀ s, Opened w a f s → w.view.Has b f) w es := by
    intro es hes
    obtain ⟨y, hy, -⟩ := h.isOpen
    refine (Machine.throughout_of_invariant (I := HasWhileOpen b f) (fun _ _ _ hI hen hstep =>
      hI.step hen hstep) ⟨hok, y, hy, fun _ => hb⟩ hes).mono fun w₁ hI s₁ h₁ => ?_
    obtain ⟨y, hy, hhas⟩ := hI.file
    obtain ⟨z, hz, hopen⟩ := h₁.isOpen
    cases hy.symm.trans hz
    exact hhas hopen
  constructor
  · intro hstays es hes
    refine ((hstays es hes).and (hhas es hes)).mono ?_
    rintro w₁ ⟨hbound, hown⟩ s₁ h₁ hend
    exact not_boundTo_atEnd h₁ (hown s₁ h₁) hend hbound
  · intro hnever es hes
    refine ((hnever es hes).and (hhas es hes)).mono ?_
    rintro w₁ ⟨hnot, hown⟩ s₁ h₁
    exact readsLine_full ⟨hown s₁ h₁, h₁.streams⟩ (hnot s₁ h₁)

/-! ## Closing another handle -/

/-- Closing a handle shuts it. -/
theorem close_shuts {o : Operand ν} {y : BoostFile} (hok : w.view.Ok)
    (hvm : w.view.vms[l]? = some vm) (ho : o.eval vm = .handle b) (hb : Holds w b g y) :
    ∃ w', exec C w (.action l (.method .close [o])) = .ok w' ∧
      Ends C w (.action l (.method .close [o])) b g y ∧
      ∀ k z, Holds w' b k z → z.fileHandle = none := by
  have ht : closeTarget w.view vm (.method .close [o]) = some b := by
    simp [closeTarget, ho, LuaValue.asHandle]
  have hends : Ends C w (.action l (.method .close [o])) b g y := .close hvm ht hb
  have hact : Action.isClose (.method .close [o]) := rfl
  rcases exec_close (C := C) hvm hact with ⟨c, hc, hexec⟩ | ⟨hnone, -⟩
  · cases ht.symm.trans hc
    have hrun := closeRun (C := C) hok l b
    rw [← hexec] at hrun
    obtain ⟨r, hr⟩ : ∃ r, exec C w (.action l (.method .close [o])) = r := ⟨_, rfl⟩
    rw [hr] at hrun ⊢
    cases hrun with
    | dead hdead => exact absurd hb.alive hdead
    | again hreleased => exact absurd hb.adapter (hreleased.not_has g)
    | @failed k u w' hk _ hv =>
      refine ⟨w', rfl, hends, fun j z hz => ?_⟩
      have hj : w.view.Has b j := by
        have := hz.adapter
        rwa [hv] at this
      obtain rfl := hj.unique hk.adapter
      have hfile := hz.view_file
      rw [hv, View.closeFile_files] at hfile
      obtain ⟨x, -, hx⟩ := Option.map_eq_some_iff.1 hfile
      have hopen : z.fileHandle.isSome = false := (congrArg FileView.isOpen hx).symm
      simpa using hopen
    | @closed k u w' hk _ hv =>
      refine ⟨w', rfl, hends, fun j z hz => ?_⟩
      have hj := hz.adapter
      rw [hv] at hj
      exact absurd rfl (has_release hj).2
  · cases hnone.symm.trans ht

/-- Closing the handle of another file shuts the iterator off. -/
theorem not_staysBoundTo_close {o : Operand ν} {y : BoostFile} (hok : w.view.Ok)
    (hvm : w.view.vms[l]? = some vm) (hopen : vm.isOpen) (ho : o.eval vm = .handle b)
    (h : Opened w a f s) (hb : Holds w b g y) (hfg : f ≠ g) :
    ¬ StaysBoundTo C ⟨.full (.handle b), true⟩ a f w := by
  intro hstays
  let e : Event ν := .action l (.method .close [o])
  obtain ⟨w', hexec, hends, hshut⟩ := close_shuts (C := C) hok hvm ho hb
  have hp : Possible w.view e := ⟨vm, hvm, hopen⟩
  have hok' : w'.view.Ok := exec_ok hok hp hexec
  -- the handle itself is still open
  obtain ⟨x, hx, hxopen⟩ := h.isOpen
  obtain ⟨x', hx', hiff⟩ := exec_file hok hp hexec hx
  have hx'open : x'.isOpen = true := hiff.2 ⟨hxopen, fun c z hz => hfg (hz.unique hends).2.1⟩
  have hhas : w'.view.Has a f := by
    rcases exec_keeps hok hp hexec h.adapter with hkept | ⟨z, hz⟩
    · exact hkept
    · exact absurd (hz.unique hends).2.1 hfg
  obtain ⟨s', h'⟩ := hhas.opened hok' hx' hx'open
  obtain ⟨e', hiter, he'⟩ := linesIterator_shutOff (C := C) hok' hshut
  have hbound := (hstays [e] ⟨machine_enabled hp hexec, fun _ _ => trivial⟩).2 w' hexec
  exact not_boundTo_error h' hiter he' hbound

/-! ## Reading a file to its end -/

/-- Nothing but a line iterator ends the handle `a`. -/
def OnOthers (C : Platform ν Os) (a : ℕ) (w : World ν Os) (e : Event ν) : Prop :=
  (machine C).enabled w e ∧ ∀ f y, Ends C w e a f y → ∃ l o, e = .action l (.iterate o)

/-- The handle has its file, which is closed. -/
structure Shut (w : World ν Os) (a f : ℕ) : Prop where
  has : w.view.Has a f
  file : ∃ y, w.view.files[f]? = some y ∧ y.isOpen = false

/-- Whatever happens later to other handles, the iterator raises an error. -/
def RaisesErrors (C : Platform ν Os) (it : Iterator ν) (a : ℕ) (w : World ν Os) : Prop :=
  ∀ es, (machine C).Along (OnOthers C a) w es → (machine C).Throughout (fun w =>
    LuaFileAdapter.linesIterator C it w = .error (.luaError (Str.ascii "file is closed")) w) w es

/-- The iterator reads from the file `f` of the handle `a`, closes this file and no other at the
end, and raises an error from then on. -/
inductive ReadsOwn (C : Platform ν Os) (it : Iterator ν) (a f : ℕ) (w : World ν Os) : Prop
  | line {s : Stream} (h : Opened w a f s) (hend : ¬ AtEnd C f w) (hline : ReadsLine C it f s w)
  | last {s : Stream} {w' : World ν Os} (h : Opened w a f s) (hend : AtEnd C f w)
      (hiter : LuaFileAdapter.linesIterator C it w = .ok [.nil] w')
      (hv : w'.view = w.view.closeFile f)
  | closed (h : Shut w a f) (hraises : RaisesErrors C it a w)

/-- Whatever happens later to other handles, the iterator reads its own file. -/
def StaysOwn (C : Platform ν Os) (it : Iterator ν) (a f : ℕ) (w : World ν Os) : Prop :=
  ∀ es, (machine C).Along (OnOthers C a) w es → (machine C).Throughout (ReadsOwn C it a f) w es

/-- A line iterator leaves handles with their files. -/
theorem iterate_has {o : Operand ν} (hok : w.view.Ok) (hvm : w.view.vms[l]? = some vm)
    (hexec : exec C w (.action l (.iterate o)) = .ok w') (ha : w.view.Has a f) :
    w'.view.Has a f := by
  rcases exec_iterate (C := C) hvm o with ⟨it, -, hiter⟩ | ⟨-, hiter⟩
  · have hrun := iterateRun (C := C) hok l it
    rw [← hiter, hexec] at hrun
    cases hrun with
    | stays _ _ _ hv =>
      rw [hv]
      exact ha
    | ended _ hv =>
      rw [hv]
      exact ha
  · cases hexec.symm.trans hiter
    exact ha

/-- The handle keeps its file. -/
theorem onOthers_has {e : Event ν} (hok : w.view.Ok) (he : OnOthers C a w e)
    (hexec : exec C w e = .ok w') (ha : w.view.Has a f) : w'.view.Has a f := by
  rcases exec_keeps hok he.1.1 hexec ha with hkept | ⟨y, hends⟩
  · exact hkept
  · obtain ⟨l, o, rfl⟩ := he.2 f y hends
    obtain ⟨vm, hvm, -⟩ := Possible.isOpen he.1.1
    exact iterate_has hok hvm hexec ha

/-- A handle stays shut. -/
theorem Shut.step {e : Event ν} (h : Shut w a f) (hok : w.view.Ok) (he : OnOthers C a w e)
    (hexec : exec C w e = .ok w') : Shut w' a f := by
  obtain ⟨y, hy, hshut⟩ := h.file
  obtain ⟨y', hy', hopen⟩ := exec_file hok he.1.1 hexec hy
  refine ⟨onOthers_has hok he hexec h.has, y', hy', Bool.eq_false_iff.2 fun hy'open => ?_⟩
  exact absurd (hopen.1 hy'open).1 (by simp [hshut])

/-- A handle that is shut cannot be read from. -/
theorem Shut.linesIterator (h : Shut w a f) (hok : w.view.Ok)
    (ha : LuaFileAdapter.upvalueAdapter it.upvalue = some a) :
    LuaFileAdapter.linesIterator C it w = .error (.luaError (Str.ascii "file is closed")) w := by
  obtain ⟨y, hy, hshut⟩ := h.file
  obtain ⟨z, hz, hlive⟩ := hok.file a f h.has
  cases hy.symm.trans hz
  obtain ⟨x, hx, rfl⟩ := exists_file hy
  have hnone : x.fileHandle = none := by simpa [BoostFile.view] using hshut
  exact LuaFileAdapter.linesIterator_shut ha ⟨h.has, hx, hlive⟩ hnone

theorem Shut.raisesErrors (h : Shut w a f) (hok : w.view.Ok)
    (ha : LuaFileAdapter.upvalueAdapter it.upvalue = some a) : RaisesErrors C it a w := fun _ hes =>
  (Machine.throughout_of_invariant (I := fun w => w.view.Ok ∧ Shut w a f)
    (fun _ _ _ hI he hexec => ⟨exec_ok hI.1 he.1.1 hexec, hI.2.step hI.1 he hexec⟩) ⟨hok, h⟩
    hes).mono fun _ hI => hI.2.linesIterator hI.1 ha

theorem staysOwn (hok : w.view.Ok) (h : w.view.Has a f) :
    StaysOwn C ⟨.full (.handle a), true⟩ a f w := by
  intro es hes
  refine (Machine.throughout_of_invariant (I := fun w => w.view.Ok ∧ w.view.Has a f)
    (fun _ _ _ hI he hexec => ⟨exec_ok hI.1 he.1.1 hexec, onOthers_has hI.1 he hexec hI.2⟩)
    ⟨hok, h⟩ hes).mono ?_
  rintro w₁ ⟨hok₁, h₁⟩
  obtain ⟨y, hy, -⟩ := hok₁.file a f h₁
  cases hopen : y.isOpen with
  | true =>
    obtain ⟨s, hs⟩ := h₁.opened hok₁ hy hopen
    by_cases hend : AtEnd C f w₁
    · obtain ⟨w', hiter, hv⟩ := linesIterator_atEnd hs hend
      exact .last hs hend hiter hv
    · exact .line hs hend (readsLine_full hs hend)
  | false =>
    have hshut : Shut w₁ a f := ⟨h₁, y, hy, hopen⟩
    exact .closed hshut (hshut.raisesErrors hok₁ rfl)

/-! ## Getting a line iterator -/

/-- The action succeeds, and what it returns last is the line iterator `it`. -/
structure Gets (C : Platform ν Os) (w : World ν Os) (l : ℕ) (act : Action ν) (it : Iterator ν)
    (w' : World ν Os) : Prop where
  exec : exec C w (.action l act) = .ok w'
  result : ∃ vm i, w'.view.vms[l]? = some vm ∧ vm.locals.getLast? = some (.iterator i) ∧
    vm.iterators[i]? = some it

/-- The process with a line iterator that a call has returned. -/
def View.getIterator (V : View ν) (l : ℕ) (it : Iterator ν) : View ν :=
  (V.addIterator l it).keep l [.iterator (V.iterators l)]

theorem View.getIterator_vms {V : View ν} (hvm : V.vms[l]? = some vm) (it : Iterator ν) :
    (V.getIterator l it).vms[l]? = some { vm with
      locals := vm.locals ++ [.iterator vm.iterators.length]
      iterators := vm.iterators ++ [it] } := by
  have hiterators : V.iterators l = vm.iterators.length := by rw [View.iterators, hvm]; rfl
  rw [View.getIterator, hiterators]
  exact View.modifyVm_self (View.modifyVm_self hvm)

/-- A call that returns a line iterator. -/
theorem gets_of_call {act : Action ν} {m : Eval ν Os (List (LuaValue ν))} {w₁ : World ν Os}
    {V : View ν} (hvm : V.vms[l]? = some vm)
    (hexec : exec C w (.action l act) = outcome ((m >>= keep l) w))
    (hm : m w = .ok [.iterator (V.iterators l)] w₁) (hv : w₁.view = V.addIterator l it) :
    ∃ w', Gets C w l act it w' ∧ w'.view = V.getIterator l it ∧ w'.files = w₁.files := by
  obtain ⟨w', hw', hv'⟩ : ∃ w', keep l [.iterator (V.iterators l)] w₁ = .ok ⟨⟩ w' ∧
      w'.view = w₁.view.keep l [.iterator (V.iterators l)] ∧ w'.files = w₁.files :=
    ⟨_, rfl, rfl, rfl⟩
  have hview : w'.view = V.getIterator l it := by rw [hv'.1, hv]; rfl
  have hvm' := View.getIterator_vms hvm it
  rw [← hview] at hvm'
  refine ⟨w', ⟨?_, _, vm.iterators.length, hvm', by simp, by simp⟩, hview, hv'.2⟩
  rw [hexec, bind_of_ok hm, hw']
  rfl

/-- A method `lines` of an open handle. -/
theorem gets_lines {os : List (Operand ν)} {args : List (LuaValue ν)}
    (hvm : w.view.vms[l]? = some vm) (hos : os.map (Operand.eval vm) = .handle a :: args)
    (h : Opened w a f s) :
    ∃ w', Gets C w l (.method .lines os) (LuaFileAdapter.lineIterator a args) w' ∧
      w'.view = w.view.getIterator l (LuaFileAdapter.lineIterator a args) := by
  obtain ⟨x, hx, hd, hf⟩ := h.adapter
  obtain ⟨y, hy, hs⟩ := h.holds
  obtain ⟨w₁, h₁, hv₁, -⟩ := LuaFileAdapter.lines_apply (l := l) args hx hd hf hy.view_file hy.live
    (by simp [BoostFile.view, hs])
  have hexec : exec C w (.action l (.method .lines os)) =
      outcome ((LuaFileAdapter.lines l a args >>= keep l) w) := by
    rw [exec, perform, bind_of_ok (evalArgs_apply hvm os), hos]
    rfl
  obtain ⟨w', hgets, hv, -⟩ := gets_of_call hvm hexec h₁ hv₁
  exact ⟨w', hgets, hv⟩

/-- `io.lines()` with an open default input. -/
theorem gets_lines_default (hvm : w.view.vms[l]? = some vm) (ha : w.view.stdInput = some a)
    (h : Opened w a f s) :
    ∃ w', Gets C w l (.call .lines []) ⟨.light a, false⟩ w' := by
  obtain ⟨x, hx, hd, hf⟩ := h.adapter
  obtain ⟨y, hy, hs⟩ := h.holds
  obtain ⟨w₁, h₁, hv₁, -⟩ := LuaFileAdapter.lines_apply (l := l) [] hx hd hf hy.view_file hy.live
    (by simp [BoostFile.view, hs])
  have hstd : LuaIOManager.stdInput w = .ok a w := by
    have ha' : w.stdInput = some a := ha
    rw [LuaIOManager.stdInput, bind_of_ok (get_apply w), ha']
    rfl
  have hexec : exec C w (.action l (.call .lines [])) =
      outcome ((LuaFileAdapter.lines l a [] >>= keep l) w) := by
    rw [exec, perform, bind_of_ok (evalArgs_apply hvm [])]
    exact congrArg outcome (bind_congr_left (bind_of_ok hstd))
  obtain ⟨w', hgets, -⟩ := gets_of_call hvm hexec h₁ hv₁
  exact ⟨w', hgets⟩

/-- `io.lines(name)`, if the file can be opened. -/
theorem gets_lines_name {os : List (Operand ν)} {name : Str} (hvm : w.view.vms[l]? = some vm)
    (hname : LuaValue.toLString C (os.map (Operand.eval vm)).head? = some name)
    (hopen : (C.fopen (cstr name) (Str.ascii "r") w.os).1 = some s) :
    ∃ w', Gets C w l (.call .lines os) ⟨.full (.handle w.adapters.length), true⟩ w' ∧
      Opened w' w.adapters.length w.files.length s := by
  obtain ⟨w₁, V, hrun, hv, hV, hopened⟩ := LuaIOManager.lines_opened hvm hname hopen
  have hexec : exec C w (.action l (.call .lines os)) =
      outcome ((LuaIOManager.lines C l (os.map (Operand.eval vm)) >>= keep l) w) := by
    rw [exec, perform, bind_of_ok (evalArgs_apply hvm os)]
    rfl
  obtain ⟨w', hgets, hview, hfiles⟩ := gets_of_call hV hexec hrun hv
  refine ⟨w', hgets, ?_, ?_⟩
  · have hhas := hopened.adapter
    rw [hv] at hhas
    rw [hview]
    exact hhas
  · obtain ⟨y, hy, hrest⟩ := hopened.streams
    exact ⟨y, (congrArg (·[w.files.length]?) hfiles).trans hy, hrest⟩

/-! ## The three calls -/

theorem getLast?_of_map_cons {os : List (Operand ν)} {v : LuaValue ν} {args : List (LuaValue ν)}
    {u : LuaValue ν} (hos : os.map (Operand.eval vm) = v :: args) (hu : args.getLast? = some u) :
    ∃ o : Operand ν, o.eval vm = u := by
  have hmem : u ∈ os.map (Operand.eval vm) := hos ▸ List.mem_cons_of_mem _ (List.mem_of_getLast? hu)
  obtain ⟨o, -, ho⟩ := List.mem_map.1 hmem
  exact ⟨o, ho⟩

/-- A handle that a script passes is still there after it has got a line iterator. -/
theorem eval_getIterator {o : Operand ν} {vs : List (LuaValue ν)} {its : List (Iterator ν)}
    (ho : o.eval vm = .handle b) :
    o.eval { vm with locals := vm.locals ++ vs, iterators := its } = .handle b := by
  cases o with
  | slot i =>
    simp only [Operand.eval] at ho ⊢
    cases hi : vm.locals[i]? with
    | none => simp [hi] at ho
    | some v =>
      rw [hi] at ho
      rw [List.getElem?_append_left (List.getElem?_eq_some_iff.1 hi).1, hi, ho]
  | constant v h => exact ho

/-- The line iterator of `f:lines(...)`. -/
theorem staysBoundTo_iff {os : List (Operand ν)} {args : List (LuaValue ν)} {vm₁ : Vm ν}
    {vs : List (LuaValue ν)} {its : List (Iterator ν)}
    (hok : w.view.Ok) (hvm : w.view.vms[l]? = some vm₁)
    (hvm₁ : vm₁ = { vm with locals := vm.locals ++ vs, iterators := its }) (hopen : vm₁.isOpen)
    (hos : os.map (Operand.eval vm) = .handle a :: args) (h : Opened w a f s) :
    StaysBoundTo C (LuaFileAdapter.lineIterator a args) a f w ↔
      Harmless C w a f args.getLast? := by
  unfold LuaFileAdapter.lineIterator
  cases hlast : args.getLast? with
  | none => exact iff_of_true (staysBoundTo_light w) trivial
  | some v =>
    cases v with
    | handle b =>
      change StaysBoundTo C ⟨.full (.handle b), true⟩ a f w ↔ w.view.Has b f ∧ NeverEnds C a f w
      by_cases hb : w.view.Has b f
      · rw [staysBoundTo_same hok h hb, and_iff_right hb]
      · refine iff_of_false (fun hstays => ?_) fun hharmless => hb hharmless.1
        -- before anything else happens
        have hnow : BoundTo C ⟨.full (.handle b), true⟩ a f w := hstays [] trivial
        rcases hok.handle_cases b with hdead | hreleased | ⟨g, y, hholds⟩
        · exact not_boundTo_error h (LuaFileAdapter.linesIterator_dead rfl hdead)
            (fun h => by cases h) hnow
        · exact not_boundTo_error h (LuaFileAdapter.linesIterator_released rfl hreleased)
            (fun h => by cases h) hnow
        · have hfg : f ≠ g := fun hfg => hb (hfg ▸ hholds.adapter)
          obtain ⟨o, ho⟩ := getLast?_of_map_cons hos hlast
          exact not_staysBoundTo_close hok hvm hopen (hvm₁ ▸ eval_getIterator ho) h hholds hfg
            hstays
    | userdata u =>
      refine iff_of_false (fun hstays => ?_) id
      exact not_boundTo_error h (LuaFileAdapter.linesIterator_foreign rfl) (fun h => by cases h)
        (hstays [] trivial)
    | _ => exact iff_of_true (staysBoundTo_light w) trivial

/-- **What line iterators are bound to.** -/
theorem lineIterators_iff (hw : Reached C w) (hvm : w.view.vms[l]? = some vm) (hopen : vm.isOpen) :
    (∀ os a args f s, os.map (Operand.eval vm) = .handle a :: args → Opened w a f s →
      ∃ it w', Gets C w l (.method .lines os) it w' ∧
        (StaysBoundTo C it a f w' ↔ Harmless C w' a f args.getLast?)) ∧
    (∀ a f s, w.view.stdInput = some a → Opened w a f s →
      ∃ it w', Gets C w l (.call .lines []) it w' ∧ StaysBoundTo C it a f w') ∧
    ∀ os name s, LuaValue.toLString C (os.map (Operand.eval vm)).head? = some name →
      (C.fopen (cstr name) (Str.ascii "r") w.os).1 = some s →
      ∃ it w' a f, Gets C w l (.call .lines os) it w' ∧ Opened w' a f s ∧
        (∀ b, ¬ w.view.Has b f) ∧ StaysOwn C it a f w' := by
  have hp : ∀ act, (∀ a, act ≠ .collect a) → Possible w.view (.action l act) := by
    intro act hact
    cases act with
    | collect a => exact absurd rfl (hact a)
    | _ => exact ⟨vm, hvm, hopen⟩
  refine ⟨?_, ?_, ?_⟩
  · intro os a args f s hos h
    obtain ⟨w', hgets, hv⟩ := gets_lines (C := C) hvm hos h
    have hok' : w'.view.Ok := exec_ok hw.ok (hp _ fun _ h => by cases h) hgets.exec
    have hvm' := View.getIterator_vms hvm (LuaFileAdapter.lineIterator a args)
    rw [← hv] at hvm'
    obtain ⟨y, hy, hyopen⟩ := h.isOpen
    have hhas : w'.view.Has a f := by
      rw [hv]
      exact h.adapter
    have hy' : w'.view.files[f]? = some y := by
      rw [hv]
      exact hy
    obtain ⟨s', h'⟩ := hhas.opened hok' hy' hyopen
    exact ⟨_, w', hgets, staysBoundTo_iff hok' hvm' rfl hopen hos h'⟩
  · intro a f s ha h
    obtain ⟨w', hgets⟩ := gets_lines_default (C := C) hvm ha h
    exact ⟨_, w', hgets, staysBoundTo_light w'⟩
  · intro os name s hname hfopen
    obtain ⟨w', hgets, hopened⟩ := gets_lines_name hvm hname hfopen
    have hok' : w'.view.Ok := exec_ok hw.ok (hp _ fun _ h => by cases h) hgets.exec
    refine ⟨_, w', _, _, hgets, hopened, fun b => ?_, staysOwn hok' hopened.adapter⟩
    rw [LuaIOManager.length_files]
    exact hw.ok.not_has_length b

/-- A VM on the null device with the handles of standard input and output in local variables. -/
def twoHandles : World ℤ ℕ :=
  let getStdin : Event ℤ := .action 0 (.getField (.slot 0) (Str.ascii "stdin"))
  let getStdout : Event ℤ := .action 0 (.getField (.slot 0) (Str.ascii "stdout"))
  (machine nullDevice).next ((machine nullDevice).next oneVm getStdin) getStdout

theorem twoHandles_reached : Reached nullDevice twoHandles := by
  refine ⟨0, .step (.step (.step .start (e := .startvm) (machine_enabled trivial rfl) rfl)
    (e := .action 0 (.getField (.slot 0) (Str.ascii "stdin"))) (machine_enabled ?_ rfl) rfl)
    (e := .action 0 (.getField (.slot 0) (Str.ascii "stdout"))) (machine_enabled ?_ rfl) rfl⟩
  · exact ⟨_, rfl, rfl⟩
  · exact ⟨_, rfl, rfl⟩

theorem twoHandles_opened : Opened twoHandles 0 0 nullDevice.stdin :=
  ⟨⟨_, rfl, rfl, rfl⟩, _, rfl, rfl, rfl⟩

/-- The local variables of the VM. -/
theorem twoHandles_vm : twoHandles.view.vms[0]? = some { (Vm.start 0 : Vm ℤ) with
    locals := [.table 0, .handle 0, .handle 1] } := rfl

theorem lineIterators_iff_twoHandles :
    (∃ it w', Gets nullDevice twoHandles 0 (.method .lines [.slot 1, .slot 2]) it w' ∧
      (StaysBoundTo nullDevice it 0 0 w' ↔ Harmless nullDevice w' 0 0 (some (.handle 1)))) ∧
    (∃ it w', Gets nullDevice twoHandles 0 (.call .lines []) it w' ∧
      StaysBoundTo nullDevice it 0 0 w') ∧
    ∃ it w' a f, Gets nullDevice twoHandles 0 (.call .lines [.string (Str.ascii "a")]) it w' ∧
      Opened w' a f 3 ∧ (∀ b, ¬ twoHandles.view.Has b f) ∧ StaysOwn nullDevice it a f w' := by
  obtain ⟨hmethod, hdefault, hname⟩ := lineIterators_iff twoHandles_reached twoHandles_vm rfl
  exact ⟨hmethod [.slot 1, .slot 2] 0 [.handle 1] 0 0 rfl twoHandles_opened,
    hdefault 0 0 0 rfl twoHandles_opened, hname [.string (Str.ascii "a")] (Str.ascii "a") 3 rfl rfl⟩

/-- The iterator of `io.stdin:lines(io.stdout)` reads from the standard output. -/
theorem lineIterators_counterexample :
    ∃ it w', Gets nullDevice twoHandles 0 (.method .lines [.slot 1, .slot 2]) it w' ∧
      ¬ StaysBoundTo nullDevice it 0 0 w' := by
  let act : Action ℤ := .method .lines [.slot 1, .slot 2]
  let w' := (machine nullDevice).next twoHandles (.action 0 act)
  have hexec : exec nullDevice twoHandles (.action 0 act) = .ok w' := rfl
  have hp : Possible twoHandles.view (.action 0 act) := ⟨_, twoHandles_vm, rfl⟩
  have hopened : Opened w' 0 0 nullDevice.stdin := ⟨⟨_, rfl, rfl, rfl⟩, _, rfl, rfl, rfl⟩
  have hholds : Holds w' 1 1 ⟨Str.ascii "stdout", some 1, 0, false, true, false⟩ :=
    ⟨⟨_, rfl, rfl, rfl⟩, rfl, rfl⟩
  have hvm : w'.view.vms[0]? = some { (Vm.start 0 : Vm ℤ) with
      locals := [.table 0, .handle 0, .handle 1, .iterator 0]
      iterators := [⟨.full (.handle 1), true⟩] } := rfl
  refine ⟨⟨.full (.handle 1), true⟩, w', ⟨hexec, _, 0, hvm, rfl, rfl⟩, ?_⟩
  exact not_staysBoundTo_close (o := .slot 2) (exec_ok twoHandles_reached.ok hp hexec) hvm rfl rfl
    hopened hholds (by decide)

end Jord.Io
