import Mathlib.Data.Finset.Card
import Mathlib.Data.Finset.Range
import Jord.Io.Aftermath

/-!
# The number of open files

`opened_files_count` goes up with every handle for an ordinary file that could be opened, and down
where `LuaBoostFile::close` returns `true`. `counting_iff` says when it is the number of handles
that have an ordinary file with a stream: the stream of such a file must not end otherwise, that is,
in an `fclose` that fails or at the end of the file of a line iterator. What has been counted too
much once stays (`excess` never decreases).
-/

namespace Jord.Io

open Program

variable {ν Os : Type} {C : Platform ν Os} {w w' : World ν Os} {l a f : ℕ} {vm : Vm ν}
  {V V' : View ν} {e : Event ν} {act : Action ν}

/-! ## Handles that count -/

namespace View

/-- The adapter has not been destroyed, and its file is no standard file and has a stream. -/
def counted (V : View ν) (a : ℕ) : Bool :=
  V.adapters[a]?.any fun x => !x.destroyed && x.fileHandle.any fun f =>
    V.files[f]?.any fun y => y.isOpen && !y.isStdFile

/-- The adapters that count. -/
def openHandles (V : View ν) : Finset ℕ :=
  (Finset.range V.adapters.length).filter fun a => V.counted a

/-- How much `opened_files_count` is above the number of adapters that count. -/
def excess (V : View ν) : ℤ := V.openedFilesCount - V.openHandles.card

theorem counted_iff : V.counted a = true ↔
    ∃ f y, V.Has a f ∧ V.files[f]? = some y ∧ y.isOpen = true ∧ y.isStdFile = false := by
  simp only [counted, Option.any_eq_true, Bool.and_eq_true, Bool.not_eq_true']
  constructor
  · rintro ⟨x, hx, hd, f, hf, y, hy, hopen, hstd⟩
    exact ⟨f, y, ⟨x, hx, hd, hf⟩, hy, hopen, hstd⟩
  · rintro ⟨f, y, ⟨x, hx, hd, hf⟩, hy, hopen, hstd⟩
    exact ⟨x, hx, hd, f, hf, y, hy, hopen, hstd⟩

theorem mem_openHandles : a ∈ V.openHandles ↔ V.counted a = true := by
  rw [openHandles, Finset.mem_filter, Finset.mem_range, and_iff_right_iff_imp]
  intro h
  obtain ⟨f, y, ⟨x, hx, -⟩, -⟩ := counted_iff.1 h
  exact (List.getElem?_eq_some_iff.1 hx).1

end View

theorem Holds.counted_iff {y : BoostFile} (h : Holds w a f y) :
    w.view.counted a = true ↔ y.fileHandle.isSome = true ∧ y.isStdFile = false := by
  rw [View.counted_iff]
  constructor
  · rintro ⟨g, z, hg, hz, hopen, hstd⟩
    obtain rfl := hg.unique h.adapter
    cases h.view_file.symm.trans hz
    exact ⟨hopen, hstd⟩
  · rintro ⟨hopen, hstd⟩
    exact ⟨f, y.view, h.adapter, h.view_file, hopen, hstd⟩

/-- Files that are added do not matter for the handles that there are. -/
theorem counted_of_append (hok : V.Ok) {ys : List FileView} (hfiles : V'.files = V.files ++ ys)
    (hhas : ∀ f, V'.Has a f ↔ V.Has a f) : V'.counted a = true ↔ V.counted a = true := by
  rw [View.counted_iff, View.counted_iff]
  apply exists₂_congr
  intro f y
  rw [hhas]
  refine and_congr_right fun h => and_congr_left fun _ => ?_
  obtain ⟨z, hz, -⟩ := hok.file a f h
  rw [hfiles, List.getElem?_append_left (List.getElem?_eq_some_iff.1 hz).1]

/-- New handles come after the old ones. -/
theorem has_of_append {xs : List FileAdapter} (hadapters : V'.adapters = V.adapters ++ xs)
    (ha : a < V.adapters.length) (f : ℕ) : V'.Has a f ↔ V.Has a f := by
  rw [View.Has, View.Has, hadapters, List.getElem?_append_left ha]

/-! ## Steps -/

/-- A step that ends no stream keeps the excess. -/
theorem HeapGrows.excess (h : HeapGrows l V V') (hok : V.Ok) : V'.excess = V.excess := by
  cases h with
  | same hf ha hc =>
    have hsame : V'.openHandles = V.openHandles := by
      ext a
      rw [View.mem_openHandles, View.mem_openHandles, View.counted, View.counted, hf, ha]
    rw [View.excess, View.excess, hsame, hc]
  | wasted hf ha hc =>
    have hsame : V'.openHandles = V.openHandles := by
      ext a
      rw [View.mem_openHandles, View.mem_openHandles]
      exact counted_of_append hok hf fun f => by rw [View.Has, View.Has, ha]
    rw [View.excess, View.excess, hsame, hc]
  | opened b hf ha hc =>
    have hold : ∀ a, a ≠ V.adapters.length → (V'.counted a = true ↔ V.counted a = true) := by
      intro a hne
      refine counted_of_append hok hf fun f => ⟨fun h => ?_, fun h => ?_⟩
      · have hlt : a < V'.adapters.length := by
          obtain ⟨x, hx, -⟩ := h
          exact (List.getElem?_eq_some_iff.1 hx).1
        rw [ha, List.length_append, List.length_singleton] at hlt
        exact (has_of_append ha (by omega) f).1 h
      · obtain ⟨x, hx, -⟩ := id h
        exact (has_of_append ha (List.getElem?_eq_some_iff.1 hx).1 f).2 h
    have hnew : V'.counted V.adapters.length = b := by
      simp [View.counted, ha, hf]
    have hnotMem : V.adapters.length ∉ V.openHandles := by
      simp [View.openHandles]
    rw [View.excess, View.excess, hc]
    cases b with
    | true =>
      have hset : V'.openHandles = insert V.adapters.length V.openHandles := by
        ext a
        rw [Finset.mem_insert, View.mem_openHandles, View.mem_openHandles]
        by_cases ha : a = V.adapters.length
        · simp [ha, hnew]
        · simp [ha, hold a ha]
      rw [hset, Finset.card_insert_of_notMem hnotMem]
      simp only [if_true]
      omega
    | false =>
      have hset : V'.openHandles = V.openHandles := by
        ext a
        rw [View.mem_openHandles]
        by_cases ha : a = V.adapters.length
        · simp [ha, hnew, hnotMem]
        · rw [hold a ha, View.mem_openHandles]
      rw [hset]
      simp

theorem Idle.excess (h : Idle V V') : V'.excess = V.excess := by
  have hsame : V'.openHandles = V.openHandles := by
    ext a
    rw [View.mem_openHandles, View.mem_openHandles, View.counted_iff, View.counted_iff, h.files]
    exact exists₂_congr fun f y => by rw [h.has a f]
  rw [View.excess, View.excess, hsame, h.count]

/-- The handle that loses its file no longer counts. -/
theorem Loses.openHandles (h : Loses V V' a f) (hok : V.Ok) (ha : V.Has a f) :
    V'.openHandles = V.openHandles.erase a := by
  ext b
  rw [Finset.mem_erase, View.mem_openHandles, View.mem_openHandles, View.counted_iff,
    View.counted_iff]
  -- the files of `V'` are those of `V`
  have hfile : ∀ {g : ℕ} {x'}, V'.files[g]? = some x' → ∃ x, V.files[g]? = some x ∧
      x'.isStdFile = x.isStdFile ∧ (x'.isOpen = true ↔ x.isOpen = true ∧ g ≠ f) := by
    intro g x' hx'
    have hlt : g < V.files.length := h.fresh ▸ (List.getElem?_eq_some_iff.1 hx').1
    obtain ⟨z, hz, hsame⟩ := h.file g _ (List.getElem?_eq_getElem hlt)
    cases hx'.symm.trans hz
    exact ⟨_, List.getElem?_eq_getElem hlt, hsame⟩
  constructor
  · rintro ⟨g, x', hg, hx', hopen, hstd⟩
    obtain ⟨x, hx, hxstd, hxopen⟩ := hfile hx'
    have hne : b ≠ a := by
      rintro rfl
      exact (hxopen.1 hopen).2 ((h.self g hg).unique ha)
    exact ⟨hne, g, x, (h.others b g hne).1 hg, hx, (hxopen.1 hopen).1, hxstd ▸ hstd⟩
  · rintro ⟨hne, g, x, hg, hx, hopen, hstd⟩
    obtain ⟨x', hx', hxstd, hxopen⟩ := h.file g x hx
    refine ⟨g, x', (h.others b g hne).2 hg, hx', hxopen.2 ⟨hopen, ?_⟩, hxstd.trans hstd⟩
    rintro rfl
    -- an ordinary file has one handle only
    have hg3 : 3 ≤ g := Nat.le_of_not_lt fun hlt => by
      simp [(hok.isStdFile_iff hx).2 hlt] at hstd
    exact hne (hok.unshared b a g hg ha hg3)

/-- A stream that ends without being counted adds to the excess. -/
theorem Loses.excess {y : BoostFile} {closed : Bool} {os : Os}
    (h : Loses w.view V' a f) (hok : w.view.Ok) (hholds : Holds w a f y)
    (hclosed : closed = true → LuaBoostFile.closes C y os = true)
    (hc : V'.openedFilesCount = w.view.openedFilesCount + if closed then -1 else 0) :
    w.view.excess ≤ V'.excess ∧ (V'.excess = w.view.excess ↔
      (y.fileHandle.isSome = true → y.isStdFile = false → closed = true)) := by
  have hcounted : closed = true → w.view.counted a = true := by
    intro hcl
    have hcloses := hclosed hcl
    have hsome : y.fileHandle.isSome = true := by
      unfold LuaBoostFile.closes at hcloses
      split at hcloses
      · next hs => rw [hs]; rfl
      · cases hcloses
    refine hholds.counted_iff.2 ⟨hsome, ?_⟩
    -- a standard file is not owned
    by_contra hstd
    obtain ⟨x, hx, -, howns, -⟩ := hok.std f
      ((hok.isStdFile_iff hholds.view_file).1 (Bool.not_eq_false _ ▸ hstd))
    cases hholds.view_file.symm.trans hx
    have howns : y.ownsFile = false := howns
    simp [LuaBoostFile.closes, howns] at hcloses
  have hset := h.openHandles hok hholds.adapter
  have hiff : (y.fileHandle.isSome = true → y.isStdFile = false → closed = true) ↔
      (w.view.counted a = true → closed = true) := by
    rw [hholds.counted_iff, and_imp]
  rw [hiff, View.excess, View.excess, hset, hc]
  by_cases ha : w.view.counted a = true
  · have hmem := View.mem_openHandles.2 ha
    have hpos : 0 < w.view.openHandles.card := Finset.card_pos.2 ⟨a, hmem⟩
    rw [Finset.card_erase_of_mem hmem]
    cases closed <;> simp [ha] <;> omega
  · rw [Finset.erase_eq_of_notMem fun hmem => ha (View.mem_openHandles.1 hmem)]
    cases closed with
    | true => exact absurd (hcounted rfl) ha
    | false => simp [ha]

theorem excess_start (hok : V.Ok) : V.start.excess = V.excess := by
  have hold : ∀ a, a < V.adapters.length → (V.start.counted a = true ↔ V.counted a = true) :=
    fun a ha => counted_of_append hok (List.append_nil _).symm (has_of_append rfl ha)
  have hsame : V.start.openHandles = V.openHandles := by
    ext a
    rw [View.mem_openHandles, View.mem_openHandles]
    by_cases ha : a < V.adapters.length
    · exact hold a ha
    · refine iff_of_false (fun h => ?_) fun h => ?_
      · obtain ⟨f, y, ⟨x, hx, -, hf⟩, hy, -, hstd⟩ := View.counted_iff.1 h
        rw [View.start, List.getElem?_append_right (Nat.le_of_not_lt ha)] at hx
        have hx := List.mem_of_getElem? hx
        simp only [List.mem_cons, List.not_mem_nil, or_false] at hx
        have hf3 : f < 3 := by
          rcases hx with rfl | rfl | rfl <;> cases hf <;> decide
        simp [(hok.isStdFile_iff hy).2 hf3] at hstd
      · obtain ⟨f, y, ⟨x, hx, -⟩, -⟩ := View.counted_iff.1 h
        exact ha (List.getElem?_eq_some_iff.1 hx).1
  rw [View.excess, View.excess, hsame]
  rfl

/-! ## The condition -/

/-- If the handle has an ordinary file with a stream, `fclose` returns zero. -/
def Settled (C : Platform ν Os) (w : World ν Os) (a : ℕ) : Prop :=
  ∀ f y, Holds w a f y → y.fileHandle.isSome = true → y.isStdFile = false →
    LuaBoostFile.closes C y w.os = true

/-- So it is when the collector finalises one handle after another. -/
def AllSettled (C : Platform ν Os) : List ℕ → World ν Os → Prop
  | [], _ => True
  | a :: as, w => Settled C w a ∧
    ∀ w', LuaIOManager.finalise C a w = .ok ⟨⟩ w' → AllSettled C as w'

/-- The event ends no stream of an ordinary file but in an `fclose` that returns zero; a line
iterator that closes its file at the end does not ask. -/
def Balanced (C : Platform ν Os) (w : World ν Os) : Event ν → Prop
  | .startvm => True
  | .luaClose l => (∀ a ∈ LuaIOManager.uncollected w l, w.view.Alive a) →
    AllSettled C (LuaIOManager.uncollected w l) w
  | .action l act => ∀ a f y, Ends C w (.action l act) a f y → y.fileHandle.isSome = true →
    y.isStdFile = false → act.counts C y w.os = true

/-- A handle that the collector finalises. -/
theorem finalise_excess (hok : w.view.Ok) (hexec : LuaIOManager.finalise C a w = .ok ⟨⟩ w') :
    w.view.excess ≤ w'.view.excess ∧ (w'.view.excess = w.view.excess ↔ Settled C w a) ∧
      w'.view.Ok := by
  have hfinal := exec_collect_ok (C := C) (l := 0) hok
    (show exec C w (.action 0 (.collect a)) = .ok w' by rw [exec_collect, hexec]; rfl)
  obtain ⟨w₁, h₁, hcases⟩ := finalise_aftermath (C := C) hok
    (hfinal.alive a (List.mem_singleton_self a))
  cases h₁.symm.trans hexec
  rcases hcases with ⟨hreleased, hidle⟩ | ⟨f, y, h, hloses, hcount⟩
  · refine ⟨hidle.excess.ge, iff_of_true hidle.excess fun f y h => ?_, hfinal.ok⟩
    exact absurd h.adapter (hreleased.not_has f)
  · obtain ⟨hle, hiff⟩ := hloses.excess hok h id hcount
    refine ⟨hle, hiff.trans ⟨fun hsettled g z hz => ?_, fun hsettled => hsettled f y h⟩, hfinal.ok⟩
    obtain ⟨rfl, rfl⟩ := h.unique hz
    exact hsettled

/-- Handles that the collector finalises one after another. -/
theorem finaliseAll_excess (as : List ℕ) (hok : w.view.Ok)
    (hexec : LuaIOManager.finaliseAll C as w = .ok ⟨⟩ w') :
    w.view.excess ≤ w'.view.excess ∧ (w'.view.excess = w.view.excess ↔ AllSettled C as w) := by
  induction as generalizing w with
  | nil =>
    cases hexec
    exact ⟨le_refl _, iff_of_true rfl trivial⟩
  | cons a as ih =>
    obtain ⟨⟨⟩, w₁, h₁, hrest⟩ := bind_eq_ok.1 hexec
    obtain ⟨hle, hiff, hok₁⟩ := finalise_excess hok h₁
    obtain ⟨hle', hiff'⟩ := ih hok₁ hrest
    refine ⟨hle.trans hle', fun h => ?_, fun ⟨hsettled, hall⟩ => ?_⟩
    · refine ⟨hiff.1 (by omega), fun w₂ h₂ => ?_⟩
      cases h₁.symm.trans h₂
      exact hiff'.1 (by omega)
    · exact (hiff'.2 (hall w₁ h₁)).trans (hiff.2 hsettled)

/-- **One event.** The excess never decreases, and stays the same exactly if the event is
balanced. -/
theorem exec_excess (hok : w.view.Ok) (hp : Possible w.view e) (hexec : exec C w e = .ok w') :
    w.view.excess ≤ w'.view.excess ∧ (w'.view.excess = w.view.excess ↔ Balanced C w e) := by
  cases e with
  | startvm =>
    obtain ⟨w₁, h₁, hv⟩ := exec_startvm (C := C) hok
    cases hexec.symm.trans h₁
    rw [hv, excess_start hok]
    exact ⟨le_refl _, iff_of_true rfl trivial⟩
  | luaClose l =>
    rw [exec, LuaIOManager.luaClose, bind_of_ok (get_apply w)] at hexec
    rcases finaliseAll_cases (C := C) (LuaIOManager.uncollected w l) hok with
      ⟨w₁, h₁, hfinal⟩ | ⟨⟨w₁, h₁⟩, -⟩
    · obtain ⟨w₂, h₂, hv⟩ := modifyVm_apply l (fun vm => { vm with isOpen := false }) w₁
      rw [bind_of_ok h₁, h₂] at hexec
      cases hexec
      obtain ⟨hle, hiff⟩ := finaliseAll_excess _ hok h₁
      have hsame : w'.view.excess = w₁.view.excess := by
        rw [hv]
        rfl
      rw [hsame]
      exact ⟨hle, hiff.trans ⟨fun h _ => h, fun h => h hfinal.alive⟩⟩
    · rw [bind_of_error h₁] at hexec
      cases hexec
  | action l act =>
    obtain ⟨vm, hvm, -⟩ := Possible.isOpen hp
    cases action_aftermath hok hvm hexec with
    | grows hn h =>
      exact ⟨(h.excess hok).ge, iff_of_true (h.excess hok) fun a f y h => absurd h (hn a f y)⟩
    | idle hn h => exact ⟨h.excess.ge, iff_of_true h.excess fun a f y h => absurd h (hn a f y)⟩
    | @ends a f y h hl hc =>
      have hcounts : act.counts C y w.os = true → LuaBoostFile.closes C y w.os = true := by
        cases act <;> first | exact id | exact fun h => by cases h
      obtain ⟨hle, hiff⟩ := hl.excess hok h.holds hcounts hc
      refine ⟨hle, hiff.trans ⟨fun hb b g z h' => ?_, fun hb => hb a f y h⟩⟩
      obtain ⟨rfl, rfl, rfl⟩ := h.unique h'
      exact hb

/-! ## Runs -/

/-- `opened_files_count` is the number of adapters that have not been destroyed and have an
ordinary file with a stream. -/
structure Accounts (w : World ν Os) : Prop where
  exact : w.openedFilesCount = w.view.openHandles.card
  nonneg : 0 ≤ w.openedFilesCount
  zero : (∀ a, w.view.counted a = false) → w.openedFilesCount = 0

theorem accounts_iff : Accounts w ↔ w.view.excess = 0 := by
  have hcount : w.view.openedFilesCount = w.openedFilesCount := rfl
  refine ⟨fun h => ?_, fun h => ?_⟩
  · rw [View.excess, hcount, h.exact, Int.sub_self]
  · rw [View.excess, hcount] at h
    refine ⟨by omega, by omega, fun hnone => ?_⟩
    have hempty : w.view.openHandles = ∅ := by
      apply Finset.eq_empty_of_forall_notMem
      intro a ha
      cases (hnone a).symm.trans (View.mem_openHandles.1 ha)
    rw [hempty, Finset.card_empty] at h
    omega

/-- The excess is zero before the first VM. -/
theorem excess_initial (C : Platform ν Os) (os : Os) : (initial C os).view.excess = 0 := rfl

/-- In every run, the count is not below the number of handles that count. -/
theorem throughout_excess {os : Os} {es : List (Event ν)}
    (hrun : (machine C).Along (machine C).enabled (initial C os) es) :
    (machine C).Throughout (fun w => w.view.Ok ∧ 0 ≤ w.view.excess) (initial C os) es := by
  refine Machine.throughout_of_invariant (fun w e w' h hen hexec => ?_)
    ⟨initial_ok C os, (excess_initial C os).ge⟩ hrun
  exact ⟨exec_ok h.1 hen.1 hexec, h.2.trans (exec_excess h.1 hen.1 hexec).1⟩

/-- **One event.** -/
theorem step_accounts (hok : w.view.Ok) (haccounts : Accounts w)
    (hen : (machine C).enabled w e) :
    Balanced C w e ↔ True ∧ ∀ w', exec C w e = .ok w' → Accounts w' := by
  obtain ⟨r, hr⟩ : ∃ r, exec C w e = r := ⟨_, rfl⟩
  cases r with
  | ok w' =>
    apply Machine.exact_of_ok (M := machine C) (P := Accounts) (s := w) (e := e) hr trivial
    rw [accounts_iff, ← accounts_iff.1 haccounts]
    exact (exec_excess hok hen.1 hr).2.symm
  | error f =>
    refine Machine.exact_of_error (M := machine C) (s := w) (e := e) hr (iff_of_true ?_ trivial)
    cases e with
    | startvm => trivial
    | luaClose l =>
      intro halive
      rcases exec_luaClose (C := C) hok l with ⟨w', V, hw', -⟩ | ⟨-, hnot⟩
      · cases hr.symm.trans hw'
      · exact absurd halive hnot
    | action l act =>
      intro a f y h
      obtain ⟨w', hw'⟩ := h.exec_ok hok hen
      cases hr.symm.trans hw'

/-- **Open files are accounted for** throughout a history of the process if and only if every event
of it is balanced. -/
theorem counting_iff {os : Os} {es : List (Event ν)}
    (hrun : (machine C).Along (machine C).enabled (initial C os) es) :
    (machine C).Along (Balanced C) (initial C os) es ↔
      (machine C).Throughout Accounts (initial C os) es := by
  have h := Machine.along_iff (M := machine C) (G := fun _ _ => True)
    (I := fun w : World ν Os => w.view.Ok)
    (fun w e w' hok _ hen hexec _ => exec_ok hok hen.1 hexec)
    (fun w e hok haccounts hen => step_accounts hok haccounts hen)
    (initial_ok C os) (accounts_iff.2 (excess_initial C os)) hrun
  exact h.trans (and_iff_right (Machine.along_true _ _))

/-! ## A line iterator that closes its file -/

/-- `for line in io.lines("f") do end` on an empty file. -/
def readThrough : List (Event ℤ) :=
  [.startvm, .action 0 (.call .lines [.string (Str.ascii "f")]),
    .action 0 (.iterate (.slot 1))]

namespace ReadThrough

/-- The state after `io.lines("f")`. -/
def opened : World ℤ ℕ := (machine nullDevice).next oneVm readThrough[1]

/-- The state after the loop. -/
def closed : World ℤ ℕ := (machine nullDevice).next opened readThrough[2]

theorem enabled : (machine nullDevice).Along (machine nullDevice).enabled (initial nullDevice 0)
    readThrough := by
  refine .cons (machine_enabled trivial rfl) (t := oneVm) rfl ?_
  refine .cons (machine_enabled ⟨_, rfl, rfl⟩ rfl) (t := opened) rfl ?_
  exact .cons (machine_enabled ⟨_, rfl, rfl⟩ rfl) (t := closed) rfl trivial

end ReadThrough

/-- The file is closed at its end, and still counted. -/
theorem counting_counterexample :
    (machine nullDevice).Along (machine nullDevice).enabled (initial nullDevice 0) readThrough ∧
      ¬ (machine nullDevice).Throughout Accounts (initial nullDevice 0) readThrough := by
  refine ⟨ReadThrough.enabled, fun h => ?_⟩
  have hclosed := ((h.2 oneVm rfl).2 ReadThrough.opened rfl).2 ReadThrough.closed rfl
  exact absurd hclosed.head.exact (by decide)

theorem counting_iff_readThrough :
    (machine nullDevice).Along (Balanced nullDevice) (initial nullDevice 0) readThrough ↔
      (machine nullDevice).Throughout Accounts (initial nullDevice 0) readThrough :=
  counting_iff ReadThrough.enabled

end Jord.Io
