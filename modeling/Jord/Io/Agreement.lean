import Jord.Io.Evolution

/-!
# Whether a handle is open

A handle has two flags: its `m_FileHandle`, and the `m_FileHandle` of its file. What `io.type`,
`is_open` and `tostring` say, and which operations are refused, depends on the first; whether there
is a stream depends on the second. `agrees_iff` says when the two agree, and `agreement_iff` which
runs of one VM keep them in agreement.
-/

namespace Jord.Io

open Program

variable {ν Os : Type} {C : Platform ν Os} {w w' : World ν Os} {l a : ℕ} {vm : Vm ν} {V : View ν}
  {act : Action ν}

/-! ## One handle -/

/-- The handle is reported as open. -/
structure ReportsOpen (w : World ν Os) (a : ℕ) : Prop where
  type : LuaIOManager.type [.handle a] w = .ok [.string (Str.ascii "file")] w
  isOpen : LuaFileAdapter.isOpen a w = .ok [.boolean true] w
  tostring : ∃ f y, Holds w a f y ∧
    LuaFileAdapter.tostring a w = .ok [.string (cstr y.fileName)] w

/-- The handle is reported as closed. -/
structure ReportsClosed (w : World ν Os) (a : ℕ) : Prop where
  type : LuaIOManager.type [.handle a] w = .ok [.string (Str.ascii "closed file")] w
  isOpen : LuaFileAdapter.isOpen a w = .ok [.boolean false] w
  tostring : LuaFileAdapter.tostring a w = .ok [.string (Str.ascii "file (closed)")] w

/-- The operation raises a Lua error, and does nothing. -/
def Refuses {α : Type} (m : Eval ν Os α) (w : World ν Os) : Prop :=
  ∃ s, m w = .error (.luaError s) w

/-- Every operation on the handle is refused. -/
structure RefusesAll (C : Platform ν Os) (w : World ν Os) (a : ℕ) : Prop where
  read : ∀ args, Refuses (LuaFileAdapter.read C a args) w
  write : ∀ args, Refuses (LuaFileAdapter.write C a args) w
  flush : Refuses (LuaFileAdapter.flush C a) w
  close : Refuses (LuaFileAdapter.close C a) w
  lines : ∀ l args, Refuses (LuaFileAdapter.lines l a args) w
  seek : ∀ args, Refuses (LuaFileAdapter.seek C a args) w
  setvbuf : ∀ args, Refuses (LuaFileAdapter.setvbuf C a args) w

/-- The handle is reported as closed exactly when it has no stream, and then refuses all
operations. -/
structure Agrees (C : Platform ν Os) (w : World ν Os) (a : ℕ) : Prop where
  opened : StreamOpen w.view a → ReportsOpen w a
  closed : ¬ StreamOpen w.view a → ReportsClosed w a
  refuses : ¬ StreamOpen w.view a → RefusesAll C w a

/-- If the handle has a file, the file has a stream. -/
def Consistent (V : View ν) (a : ℕ) : Prop :=
  ∀ f y, V.Has a f → V.files[f]? = some y → y.isOpen = true

theorem View.Released.not_streamOpen (h : V.Released a) : ¬ StreamOpen V a := by
  rintro ⟨f, y, hf, -⟩
  exact h.not_has f hf

theorem View.Released.consistent (h : V.Released a) : Consistent V a :=
  fun f _ hf => absurd hf (h.not_has f)

theorem Holds.streamOpen_iff {f : ℕ} {y : BoostFile} (h : Holds w a f y) :
    StreamOpen w.view a ↔ y.fileHandle.isSome := by
  refine ⟨?_, fun hopen => ⟨f, y.view, h.adapter, h.view_file, hopen⟩⟩
  rintro ⟨g, u, hg, hu, hopen⟩
  obtain rfl := h.adapter.unique hg
  cases h.view_file.symm.trans hu
  exact hopen

theorem Holds.consistent_iff {f : ℕ} {y : BoostFile} (h : Holds w a f y) :
    Consistent w.view a ↔ y.fileHandle.isSome := by
  refine ⟨fun hc => hc f y.view h.adapter h.view_file, fun hopen g u hg hu => ?_⟩
  obtain rfl := h.adapter.unique hg
  cases h.view_file.symm.trans hu
  exact hopen

section

variable {r : Option ℕ} (hr : LuaFileAdapter.handle a w = .ok r w)
include hr

theorem type_apply : LuaIOManager.type [.handle a] w =
    .ok [.string (Str.ascii (if r.isSome then "file" else "closed file"))] w := by
  rw [LuaIOManager.type]
  refine (bind_of_ok hr).trans ?_
  cases r <;> rfl

theorem isOpen_apply : LuaFileAdapter.isOpen a w = .ok [.boolean r.isSome] w :=
  bind_of_ok hr

end

/-- A handle without a file says that it is closed, and refuses everything. -/
theorem View.Released.agrees (h : w.view.Released a) : Agrees C w a := by
  have hhandle : LuaFileAdapter.handle a w = .ok none w := by
    obtain ⟨x, hx, hd, hf⟩ := h
    rw [LuaFileAdapter.handle_apply hx hd, hf]
  refine ⟨fun hopen => absurd hopen h.not_streamOpen,
    fun _ => ⟨type_apply hhandle, isOpen_apply hhandle, bind_of_ok hhandle⟩, fun _ =>
      ⟨fun args => ?_, fun args => ?_, ?_, ?_, fun l args => ?_, fun args => ?_, fun args => ?_⟩⟩
  all_goals exact ⟨_, bind_of_ok hhandle⟩

/-- **A handle agrees** with its stream exactly when its file, if it has one, has a stream. -/
theorem agrees_iff (hok : w.view.Ok) (halive : w.view.Alive a) :
    Agrees C w a ↔ Consistent w.view a := by
  rcases hok.handle_cases a with hdead | hreleased | ⟨f, y, h⟩
  · exact absurd halive hdead
  · exact ⟨fun _ => hreleased.consistent, fun _ => hreleased.agrees⟩
  · have hhandle : LuaFileAdapter.handle a w = .ok (some f) w := by
      obtain ⟨x, hx, hd, hf⟩ := h.adapter
      rw [LuaFileAdapter.handle_apply hx hd, hf]
    rw [h.consistent_iff, ← h.streamOpen_iff]
    constructor
    · intro hagrees
      by_contra hclosed
      -- the handle reports that it is open
      have htype := (type_apply hhandle).symm.trans (hagrees.closed hclosed).type
      simp only [Option.isSome_some, if_true] at htype
      exact absurd htype (by simp [Str.ascii])
    · intro hopen
      refine ⟨fun _ => ⟨type_apply hhandle, isOpen_apply hhandle, f, y, h, ?_⟩,
        fun h => absurd hopen h, fun h => absurd hopen h⟩
      exact (bind_of_ok hhandle).trans (bind_of_ok (bind_of_ok
        (LuaBoostFile.object_apply h.file h.live)))

/-! ## Steps -/

/-- Handles that are there keep their files, and the files their streams. -/
theorem HeapGrows.consistent {V' : View ν} (hok : V.Ok) (h : HeapGrows l V V')
    (ha : V.Alive a) (hc : Consistent V a) : Consistent V' a := by
  intro f y hf hy
  obtain ⟨x, hx, -⟩ := ha
  have hlt := (List.getElem?_eq_some_iff.1 hx).1
  have hold := (h.has hf).resolve_right fun h => by omega
  obtain ⟨u, hu, -⟩ := hok.file a f hold
  have hfile : V'.files[f]? = V.files[f]? := by
    have hlt := (List.getElem?_eq_some_iff.1 hu).1
    cases h with
    | same hf => rw [hf]
    | wasted hf => rw [hf, List.getElem?_append_left hlt]
    | opened b hf => rw [hf, List.getElem?_append_left hlt]
  exact hc f y hold (hfile ▸ hy)

/-- A new handle that a script gets has a stream. -/
theorem NewHandle.consistent {V' : View ν} (h : NewHandle l V V' a) : Consistent V' a := by
  obtain ⟨rfl, hfiles, hadapters⟩ := h
  rintro f y ⟨x, hx, -, hf⟩ hy
  rw [hadapters, List.getElem?_append_right (Nat.le_refl _), Nat.sub_self] at hx
  cases hx
  cases hf
  rw [hfiles, List.getElem?_append_right (Nat.le_refl _), Nat.sub_self] at hy
  cases hy
  rfl

theorem consistent_closeFile {f : ℕ} (hf : ¬ V.Has a f) (hc : Consistent V a) :
    Consistent (V.closeFile f) a := by
  intro g y hg hy
  have hfg : f ≠ g := by
    rintro rfl
    exact hf hg
  exact hc g y hg (View.closeFile_files_of_ne hfg ▸ hy)

theorem not_consistent_closeFile {f : ℕ} {y : FileView} (hf : V.Has a f)
    (hy : V.files[f]? = some y) : ¬ Consistent (V.closeFile f) a := by
  intro hc
  have hfile : (V.closeFile f).files[f]? = some { y with isOpen := false } := by
    rw [View.closeFile_files, hy]
    rfl
  simpa using hc f _ hf hfile

theorem consistent_release {f b : ℕ} {isStdFile : Bool} (hu : V.UnsharedOn fun _ => True)
    (ha : V.Has a f) (hc : Consistent V b) : Consistent (V.release a f isStdFile) b := by
  intro g y hg hy
  obtain ⟨hg, hba⟩ := has_release hg
  have hfg : f ≠ g := by
    rintro rfl
    exact hba (hu b a f hg ha trivial)
  rw [View.release, View.discharge_files] at hy
  exact hc g y hg (by simpa [hfg] using hy)

/-! ## Runs of one VM -/

/-- Every handle that the script of the VM can get hold of agrees with its stream. -/
def AllAgree (C : Platform ν Os) (l : ℕ) (w : World ν Os) : Prop :=
  ∀ vm, w.view.vms[l]? = some vm → ∀ a, vm.Accessible (.handle a) → Agrees C w a

/-- The handle that an action flushes. -/
def flushTarget (V : View ν) (vm : Vm ν) : Action ν → Option ℕ
  | .call .flush _ => V.default .output
  | .method .flush args => LuaValue.asHandle (args.map (Operand.eval vm)).head?
  | _ => none

/-- A script flushes the default output, or a handle that it holds. -/
theorem flushTarget_cases (h : flushTarget V vm act = some a) :
    V.default .output = some a ∨ vm.Accessible (.handle a) := by
  cases act with
  | call g args => cases g <;> first | exact .inl h | cases h
  | method m args =>
    cases m with
    | flush => exact .inr (accessible_arg (List.mem_of_head? (LuaValue.eq_of_asHandle h)))
    | _ => cases h
  | _ => cases h

theorem flush_of_none (h : ∀ vm, flushTarget w.view vm act = none) (vm : Vm ν) (a f : ℕ)
    (y : BoostFile) (_ : w.view.vms[l]? = some vm) (ha : flushTarget w.view vm act = some a)
    (_ : Holds w a f y) : y.fileHandle.isSome := by
  rw [h vm] at ha
  cases ha

theorem flushTarget_of_isClose (hact : act.isClose) : flushTarget V vm act = none := by
  cases act with
  | call g args => cases g <;> first | rfl | cases hact
  | method m args => cases m <;> first | rfl | cases hact
  | _ => cases hact

/-- The action ends in no fault, unless `boost::filesystem::exists` throws, and passes no `NULL` to
`fflush`, where it is no fault; a line iterator the handle of which has no stream raises an
error. -/
structure Proper (C : Platform ν Os) (l : ℕ) (w : World ν Os) (act : Action ν) : Prop where
  noFault : ∀ f, f ≠ .exception → exec C w (.action l act) ≠ .error f
  flush : ∀ vm a f y, w.view.vms[l]? = some vm → flushTarget w.view vm act = some a →
    Holds w a f y → y.fileHandle.isSome
  iterator : ∀ o vm it a, act = .iterate o → w.view.vms[l]? = some vm →
    calledIterator vm (o.eval vm) = some it → LuaFileAdapter.upvalueAdapter it.upvalue = some a →
    ¬ StreamOpen w.view a → Refuses (LuaFileAdapter.linesIterator C it) w

/-- The script closes no handle the file of which cannot be closed. It calls no line iterator of a
handle that is closed or is no handle, and none that is about to close, at the end of the file, a
handle that the script can still get hold of. -/
def Cautious (C : Platform ν Os) (l : ℕ) (w : World ν Os) : Action ν → Prop
  | .iterate o => ∀ vm, w.view.vms[l]? = some vm → ∀ it, calledIterator vm (o.eval vm) = some it →
    ∃ a, LuaFileAdapter.upvalueAdapter it.upvalue = some a ∧ ¬ w.view.Released a ∧
      ∀ f y, Exhausts C w it a f y → ¬ vm.Accessible (.handle a)
  | act => ∀ vm, w.view.vms[l]? = some vm → ∀ a f y, closeTarget w.view vm act = some a →
    Holds w a f y → LuaBoostFile.closes C y w.os = true

/-- What is true besides in every state. -/
structure Steady (l : ℕ) (w : World ν Os) : Prop where
  ok : w.view.Ok
  unshared : w.view.UnsharedOn fun _ => True
  vm : ∃ vm, w.view.vms[l]? = some vm ∧ Synced w.view vm ∧ Keeps w.view vm

/-- Agreement, in terms of the view. -/
theorem allAgree_iff (hok : w.view.Ok) (hvm : w.view.vms[l]? = some vm) (hk : Keeps w.view vm) :
    AllAgree C l w ↔ ∀ a, vm.Accessible (.handle a) → Consistent w.view a := by
  constructor
  · intro h a ha
    exact (agrees_iff hok (hk.handle a ha.reachable)).1 (h vm hvm a ha)
  · intro h z hz a ha
    cases hvm.symm.trans hz
    exact (agrees_iff hok (hk.handle a ha.reachable)).2 (h a ha)

/-! ### One action -/

/-- The state after a call that returns plain values. -/
theorem allAgree_keep {W : View ν} {vs : List (LuaValue ν)} (hvm : w.view.vms[l]? = some vm)
    (hvs : AllPlain vs) (hW : W.vms = w.view.vms) (hv : w'.view = W.keep l vs) {vm' : Vm ν}
    (hev : Evolves l w.view w'.view vm vm') (hk : Keeps w.view vm) :
    AllAgree C l w' ↔ ∀ a, vm.Accessible (.handle a) → Consistent W a := by
  have hvm' : w'.view.vms[l]? = some { vm with locals := vm.locals ++ vs } := by
    rw [hv]
    exact View.modifyVm_self (hW ▸ hvm)
  cases hev.after.symm.trans hvm'
  rw [allAgree_iff hev.ok hvm' (hev.keeps hk)]
  have hsame : ∀ a, Consistent w'.view a ↔ Consistent W a := fun a => by
    rw [hv]
    exact Iff.rfl
  apply forall_congr'
  intro a
  rw [hsame]
  refine imp_congr_left ⟨fun ha => ?_, fun ha => ?_⟩
  · have hgrows : vm.Grows { vm with locals := vm.locals ++ vs } (fun _ => False) (fun _ => False)
        (fun _ => False) := Vm.grows_keep fun v hv => .inr (.plain (hvs v hv))
    exact (hgrows.accessible_handle ha).resolve_right id
  · refine Reach.mono (fun v hv => ?_) (fun x y hxy => ?_) ha
    · exact hv.imp (List.mem_append_left _) id
    · obtain ⟨ht, hk⟩ := hxy
      exact .mk ht hk

/-- A handle that has a stream, if it has a file, can be used. -/
theorem View.Ok.ready_of_consistent {F : Fault → Prop} (hok : V.Ok) (ha : V.Alive a)
    (hc : Consistent V a) : Ready F V a := by
  obtain ⟨x, hx, hd⟩ := ha
  have hlive : ∀ z f, V.adapters[a]? = some z → z.fileHandle = some f → V.Has a f := by
    intro z f hz hf
    cases hx.symm.trans hz
    exact ⟨x, hx, hd, hf⟩
  refine ⟨⟨.inr ⟨x, hx, hd⟩, fun z f hz hf => .inr (hok.file a f (hlive z f hz hf))⟩,
    fun z f hz hf => ⟨.inr (hok.file a f (hlive z f hz hf)), .inr fun y hy => ?_⟩⟩
  exact hc f y (hlive z f hz hf) hy

section

variable (hs : Steady l w) (hp : AllAgree C l w) (hvm : w.view.vms[l]? = some vm)
  (hkeeps : Keeps w.view vm)
include hs hp hvm hkeeps

theorem agree_iterate {o : Operand ν} (hen : (script C l).enabled w (.iterate o)) :
    Cautious C l w (.iterate o) ↔ Proper C l w (.iterate o) ∧
      ∀ w', exec C w (.action l (.iterate o)) = .ok w' → AllAgree C l w' := by
  have hcons := (allAgree_iff hs.ok hvm hkeeps).1 hp
  rcases exec_iterate (C := C) hvm o with ⟨it, hit, hexec⟩ | ⟨hnone, hexec⟩
  · obtain ⟨i, hacc, hi⟩ := calledIterator_accessible hit
    have hiff : Cautious C l w (.iterate o) ↔
        ∃ a, LuaFileAdapter.upvalueAdapter it.upvalue = some a ∧ ¬ w.view.Released a ∧
          ∀ f y, Exhausts C w it a f y → ¬ vm.Accessible (.handle a) := by
      refine ⟨fun h => h vm hvm it hit, fun h z hz it' hit' => ?_⟩
      cases hvm.symm.trans hz
      cases hit.symm.trans hit'
      exact h
    -- a line iterator of an open handle
    have hproper : ∀ {a f : ℕ} {y : BoostFile} {w'},
        LuaFileAdapter.upvalueAdapter it.upvalue = some a → Holds w a f y →
        exec C w (.action l (.iterate o)) = .ok w' → Proper C l w (.iterate o) := by
      intro a f y w' ha h hok
      refine ⟨fun g _ => by simp [hok], flush_of_none fun _ => rfl,
        fun o' z it' b ho hz hit' hb hclosed => ?_⟩
      cases ho
      cases hvm.symm.trans hz
      cases hit.symm.trans hit'
      cases ha.symm.trans hb
      have hnone : y.fileHandle = none := by
        simpa using mt h.streamOpen_iff.2 hclosed
      exact ⟨_, LuaFileAdapter.linesIterator_shut ha h hnone⟩
    have hrun := iterateRun (C := C) hs.ok l it
    obtain ⟨r, hr⟩ : ∃ r, exec C w (.action l (.iterate o)) = r := ⟨_, rfl⟩
    rw [← hexec, hr] at hrun
    have hev : Evolving (fun f => f ≠ .destroyedAdapter) l w.view vm r :=
      hrun.evolving hs.ok hvm (by decide) (by decide) (by decide) fun a ha =>
        .inr (hkeeps.iterator i it a hacc.reachable hi ha)
    cases hrun with
    | foreign hnone =>
      refine Machine.exact_of_error (M := script C l) hr
        (hiff.trans ⟨?_, fun h => absurd hr (h.noFault _ (by decide))⟩)
      rintro ⟨a, ha, -⟩
      simp [hnone] at ha
    | dead ha hdead => exact absurd (hkeeps.iterator i it _ hacc.reachable hi ha) hdead
    | released ha h =>
      refine Machine.exact_of_error (M := script C l) hr
        (hiff.trans ⟨?_, fun h => absurd hr (h.noFault _ (by decide))⟩)
      rintro ⟨b, hb, hnot, -⟩
      cases ha.symm.trans hb
      exact absurd h hnot
    | unfinished => exact absurd hr hen.2
    | stays ha h hvs hv hn =>
      obtain ⟨_, vm', ⟨⟩, hev⟩ := hev.resolve_right fun ⟨_, h, _⟩ => by cases h
      refine Machine.exact_of_ok (M := script C l) hr (hproper ha h hr)
        ⟨fun _ => (allAgree_keep hvm hvs rfl hv hev hkeeps).2 hcons,
          fun _ => hiff.2 ⟨_, ha, ?_, ?_⟩⟩
      · exact fun hreleased => hreleased.not_has _ h.adapter
      · exact fun f y hends => absurd hends (hn _ f y)
    | @ended a f y w' h hv =>
      obtain ⟨_, vm', ⟨⟩, hev⟩ := hev.resolve_right fun ⟨_, h, _⟩ => by cases h
      have hagree : AllAgree C l w' ↔ _ := allAgree_keep (W := w.view.closeFile f) hvm
        (List.forall_mem_singleton.2 rfl) rfl hv hev hkeeps
      refine Machine.exact_of_ok (M := script C l) hr (hproper h.upvalue h.holds hr)
        (hiff.trans (Iff.trans ?_ hagree.symm))
      constructor
      · rintro ⟨b, hb, -, hends⟩ c hc
        cases h.upvalue.symm.trans hb
        refine consistent_closeFile (fun hcf => ?_) (hcons c hc)
        obtain rfl := hs.unshared a c f h.holds.adapter hcf trivial
        exact hends f y h hc
      · intro hall
        refine ⟨a, h.upvalue, fun hreleased => hreleased.not_has f h.holds.adapter,
          fun _ _ _ hacc => ?_⟩
        exact not_consistent_closeFile h.holds.adapter h.holds.view_file (hall a hacc)
  · refine Machine.exact_of_ok (M := script C l) hexec
      ⟨fun f _ => by simp [hexec], flush_of_none fun _ => rfl, ?_⟩
      ⟨fun _ => hp, fun _ z hz it hit => ?_⟩
    · rintro o' z it a ⟨⟩ hz hit
      cases hvm.symm.trans hz
      simp [hnone] at hit
    · cases hvm.symm.trans hz
      simp [hnone] at hit

variable (hsynced : Synced w.view vm)
include hsynced

theorem agree_served {F : Fault → Prop} : VmServed F w.view vm := by
  have hcons := (allAgree_iff hs.ok hvm hkeeps).1 hp
  have hready : ∀ a, vm.Accessible (.handle a) → Ready F w.view a := fun a ha =>
    hs.ok.ready_of_consistent (hkeeps.handle a ha.reachable) (hcons a ha)
  refine ⟨.inr fun d => ?_, fun d a ha => hready a (hsynced.accessible ha), hready⟩
  obtain ⟨a, ha, -⟩ := hsynced d
  simp [ha]

theorem agree_tame (hen : (script C l).enabled w act) (hact : act.isTame) :
    Cautious C l w act ↔ Proper C l w act ∧
      ∀ w', exec C w (.action l act) = .ok w' → AllAgree C l w' := by
  have hcautious : Cautious C l w act := by
    cases act with
    | iterate o => cases hact
    | call f args => cases f <;> first | exact fun _ _ _ _ _ h => by cases h | cases hact
    | method m args => cases m <;> first | exact fun _ _ _ _ _ h => by cases h | cases hact
    | _ => exact fun _ _ _ _ _ h => by cases h
  have hproper : (∀ f, f ≠ .exception → exec C w (.action l act) ≠ .error f) →
      Proper C l w act := by
    intro h
    refine ⟨h, fun vm' a f y hvm' ha hholds => ?_, ?_⟩
    · cases hvm.symm.trans hvm'
      have hacc : vm.Accessible (.handle a) := (flushTarget_cases ha).elim hsynced.accessible id
      exact hholds.consistent_iff.1 ((allAgree_iff hs.ok hvm hkeeps).1 hp a hacc)
    · rintro o - - - rfl
      cases hact
  rcases exec_tame (F := fun f => f = .unfinished ∨ f = .exception) (C := C) (.inl rfl) (.inr rfl)
    hvm (agree_served hs hp hvm hkeeps hsynced) hact with ⟨w', vm', hexec, htame⟩ | ⟨f, hexec, hf⟩
  · have hev := htame.evolves hs.ok
    refine Machine.exact_of_ok (M := script C l) hexec (hproper fun f _ => by simp [hexec])
      ⟨fun _ => ?_, fun _ => hcautious⟩
    · refine (allAgree_iff hev.ok hev.after (hev.keeps hkeeps)).2 fun a ha => ?_
      rcases htame.grows.accessible_handle ha with hold | hnew
      · exact htame.heap.consistent hs.ok (hkeeps.handle a hold.reachable)
          ((allAgree_iff hs.ok hvm hkeeps).1 hp a hold)
      · exact hnew.consistent
  · refine Machine.exact_of_error (M := script C l) hexec (iff_of_true hcautious (hproper ?_))
    rintro g hg hexec'
    cases hexec.symm.trans hexec'
    exact hen.2 (hf.resolve_right hg ▸ hexec)

theorem agree_close (hact : act.isClose) :
    Cautious C l w act ↔ Proper C l w act ∧
      ∀ w', exec C w (.action l act) = .ok w' → AllAgree C l w' := by
  have hcons := (allAgree_iff hs.ok hvm hkeeps).1 hp
  have hproper : ∀ {r : Except Fault (World ν Os)}, exec C w (.action l act) = r →
      (∀ f, r ≠ .error f) → Proper C l w act := by
    rintro r rfl h
    refine ⟨fun f _ => h f, flush_of_none fun _ => flushTarget_of_isClose hact, ?_⟩
    rintro o - - - rfl
    cases hact
  have hiff : Cautious C l w act ↔ ∀ a f y, closeTarget w.view vm act = some a →
      Holds w a f y → LuaBoostFile.closes C y w.os = true := by
    have hthis : Cautious C l w act ↔ ∀ vm, w.view.vms[l]? = some vm → ∀ a f y,
        closeTarget w.view vm act = some a → Holds w a f y →
        LuaBoostFile.closes C y w.os = true := by
      cases act with
      | iterate o => cases hact
      | _ => exact Iff.rfl
    refine hthis.trans ⟨fun h => h vm hvm, fun h z hz => ?_⟩
    cases hvm.symm.trans hz
    exact h
  rcases exec_close (C := C) hvm hact with ⟨a, ha, hexec⟩ | ⟨hnone, hexec | ⟨hnull, -⟩⟩
  · have hacc : vm.Accessible (.handle a) := (closeTarget_cases ha).elim hsynced.accessible id
    have halive := hkeeps.handle a hacc.reachable
    have hrun := closeRun (C := C) hs.ok l a
    obtain ⟨r, hr⟩ : ∃ r, exec C w (.action l act) = r := ⟨_, rfl⟩
    rw [← hexec, hr] at hrun
    have hev : Evolving (fun _ => False) l w.view vm r :=
      hrun.evolving hs.ok hvm (.inr halive)
    cases hrun with
    | dead hdead => exact absurd halive hdead
    | again h =>
      refine Machine.exact_of_ok (M := script C l) hr (hproper hr (by simp))
        ⟨fun _ => hp, fun _ => hiff.2 fun b f y hb hholds => ?_⟩
      cases ha.symm.trans hb
      exact absurd hholds.adapter (h.not_has f)
    | @failed f y w' h hc hv =>
      obtain ⟨_, vm', ⟨⟩, hev⟩ := hev.resolve_right fun ⟨_, _, h⟩ => h
      refine Machine.exact_of_ok (M := script C l) hr (hproper hr (by simp))
        ⟨fun hcautious => ?_, fun hagree => ?_⟩
      · have := hiff.1 hcautious a f y ha h
        simp [hc] at this
      · rw [← View.keep_nil (w.view.closeFile f) l] at hv
        rw [allAgree_keep (W := w.view.closeFile f) hvm allPlain_nil rfl hv hev hkeeps] at hagree
        exact absurd (hagree a hacc) (not_consistent_closeFile h.adapter h.view_file)
    | @closed f y w' h hc hv =>
      obtain ⟨_, vm', ⟨⟩, hev⟩ := hev.resolve_right fun ⟨_, _, h⟩ => h
      refine Machine.exact_of_ok (M := script C l) hr (hproper hr (by simp))
        ⟨fun _ => ?_, fun _ => hiff.2 fun b g z hb hholds => ?_⟩
      · rw [allAgree_keep hvm (List.forall_mem_singleton.2 rfl) (View.release_vms _ _ _ _) hv hev
          hkeeps]
        exact fun b hb => consistent_release hs.unshared h.adapter (hcons b hb)
      · cases ha.symm.trans hb
        rw [← (h.unique hholds).2]
        exact hc
  · refine Machine.exact_of_ok (M := script C l) hexec (hproper hexec (by simp))
      ⟨fun _ => hp, fun _ => hiff.2 fun a _ _ ha => ?_⟩
    simp [hnone] at ha
  · obtain ⟨a, ha, -⟩ := hsynced .output
    cases ha.symm.trans hnull

end

/-- **One action.** The condition says exactly whether the action is proper and leaves all handles
in agreement with their streams. -/
theorem step_agree (hs : Steady l w) (hp : AllAgree C l w) (hen : (script C l).enabled w act)
    (hact : act.isDestroying = false) :
    Cautious C l w act ↔ Proper C l w act ∧
      ∀ w', exec C w (.action l act) = .ok w' → AllAgree C l w' := by
  obtain ⟨vm, hvm, hsynced, hkeeps⟩ := hs.vm
  rcases Action.kinds hact with htame | hclose | ⟨o, rfl⟩
  · exact agree_tame hs hp hvm hkeeps hsynced hen htame
  · exact agree_close hs hp hvm hkeeps hsynced hclose
  · exact agree_iterate hs hp hvm hkeeps hen

/-- What is true besides stays so, whatever the handles report. -/
theorem steady_step (hs : Steady l w) (hact : act.isDestroying = false)
    (hexec : exec C w (.action l act) = .ok w') : Steady l w' := by
  obtain ⟨vm, hvm, hsynced, hkeeps⟩ := hs.vm
  obtain ⟨vm', hev⟩ := exec_evolves hs.ok hvm hact hexec
  exact ⟨hev.ok, hev.unshared hs.ok hs.unshared, vm', hev.after, hev.synced hsynced,
    hev.keeps hkeeps⟩

/-- In the process with its first VM the handles are those of the standard files. -/
theorem has_initial_start {C : Platform ν Os} {os : Os} {f : ℕ}
    (h : (initial C os).view.start.Has a f) :
    f = a ∧ ∃ y, (initial C os).view.start.files[f]? = some y ∧ y.isOpen = true := by
  obtain ⟨x, hx, -, hf⟩ := h
  have ha : a < 3 := (List.getElem?_eq_some_iff.1 hx).1
  obtain rfl | rfl | rfl : a = 0 ∨ a = 1 ∨ a = 2 := by omega
  all_goals
    cases hx
    cases hf
    exact ⟨rfl, _, rfl, rfl⟩

/-- `io.close()`, which raises an error, and `io.write("x")`. -/
def closedOutput : List (Action ℤ) :=
  [.call .close [], .call .write [.string (Str.ascii "x")]]

namespace ClosedOutput

theorem enabled : (script nullDevice 0).Along
    (fun w act => (script nullDevice 0).enabled w act ∧ act.isDestroying = false) oneVm
    closedOutput := by
  refine .cons ⟨machine_enabled ⟨_, rfl, rfl⟩ rfl, rfl⟩ rfl ?_
  exact .fault ⟨machine_enabled_fault ⟨_, rfl, rfl⟩ rfl (by decide), rfl⟩ rfl

/-- The second call passes `NULL` to `fwrite`. -/
theorem not_proper : ¬ (script nullDevice 0).Along (Proper nullDevice 0) oneVm closedOutput := by
  intro h
  exact (h.tail rfl).1.noFault .nullFile (by decide) rfl

end ClosedOutput

end Jord.Io
