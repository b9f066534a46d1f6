import Jord.Io.Aftermath

/-!
# The standard files

The three standard files are shared by all handles and all VMs. `standard_iff` says that they keep
their streams exactly as long as no event closes one of them; there is no other way to lose them,
and none of the ways to close a handle spares them.
-/

namespace Jord.Io

open Program

variable {ν Os : Type} {C : Platform ν Os} {w w' : World ν Os} {l a f : ℕ} {vm : Vm ν}
  {V V' : View ν} {e : Event ν} {act : Action ν}

/-- The standard files have streams. -/
def StdOpen (V : View ν) : Prop := ∀ f < 3, ∃ y, V.files[f]? = some y ∧ y.isOpen = true

/-- The event closes no standard file. -/
def SparesStd (C : Platform ν Os) (w : World ν Os) (e : Event ν) : Prop :=
  ∀ a f y, Ends C w e a f y → 3 ≤ f

/-- The standard files have streams, and so have the three handles of a VM that is started. -/
structure StdUsable (C : Platform ν Os) (w : World ν Os) : Prop where
  files : StdOpen w.view
  start : ∀ w', exec C w .startvm = .ok w' → ∀ d < 3,
    StreamOpen w'.view (w.view.adapters.length + d)

theorem StdOpen.start (h : StdOpen V) {d : ℕ} (hd : d < 3) :
    StreamOpen V.start (V.adapters.length + d) := by
  obtain ⟨y, hy, hopen⟩ := h d hd
  refine ⟨d, y, ⟨⟨V.vms.length, some d, false, false⟩, ?_, rfl, rfl⟩, hy, hopen⟩
  rw [View.start, List.getElem?_append_right (Nat.le_add_right _ _), Nat.add_sub_cancel_left]
  obtain rfl | rfl | rfl : d = 0 ∨ d = 1 ∨ d = 2 := by omega
  all_goals rfl

theorem stdUsable_iff (hok : w.view.Ok) : StdUsable C w ↔ StdOpen w.view := by
  refine ⟨fun h => h.files, fun h => ⟨h, fun w' hexec d hd => ?_⟩⟩
  obtain ⟨w₁, h₁, hv⟩ := exec_startvm (C := C) hok
  cases hexec.symm.trans h₁
  rw [hv]
  exact h.start hd

/-! ## Steps -/

theorem HeapGrows.stdOpen (h : HeapGrows l V V') (hstd : StdOpen V) : StdOpen V' := by
  intro f hf
  obtain ⟨y, hy, hopen⟩ := hstd f hf
  refine ⟨y, ?_, hopen⟩
  have hlt := (List.getElem?_eq_some_iff.1 hy).1
  cases h with
  | same hfiles => rw [hfiles, hy]
  | wasted hfiles => rw [hfiles, List.getElem?_append_left hlt, hy]
  | opened b hfiles => rw [hfiles, List.getElem?_append_left hlt, hy]

theorem Loses.stdOpen_iff (h : Loses V V' a f) (hstd : StdOpen V) : StdOpen V' ↔ 3 ≤ f := by
  constructor
  · intro hstd'
    by_contra hf
    obtain ⟨y, hy, -⟩ := hstd f (by omega)
    obtain ⟨y', hy', -, hopen⟩ := h.file f y hy
    obtain ⟨z, hz, hzopen⟩ := hstd' f (by omega)
    cases hy'.symm.trans hz
    exact (hopen.1 hzopen).2 rfl
  · intro hf g hg
    obtain ⟨y, hy, hyopen⟩ := hstd g hg
    obtain ⟨y', hy', -, hopen⟩ := h.file g y hy
    exact ⟨y', hy', hopen.2 ⟨hyopen, by omega⟩⟩

/-- What an action does to the standard files. -/
theorem Aftermath.stdOpen_iff (h : Aftermath C l act w w') (hstd : StdOpen w.view) :
    SparesStd C w (.action l act) ↔ StdOpen w'.view := by
  cases h with
  | grows hn h => exact iff_of_true (fun a f y h => absurd h (hn a f y)) (h.stdOpen hstd)
  | idle hn h =>
    refine iff_of_true (fun a f y h => absurd h (hn a f y)) fun f hf => ?_
    rw [h.files]
    exact hstd f hf
  | ends h hl =>
    rw [hl.stdOpen_iff hstd]
    exact ⟨fun hspares => hspares _ _ _ h, fun hf a g y h' => (h.unique h').2.1 ▸ hf⟩

/-- What `lua_close` does to the standard files. -/
theorem luaClose_stdOpen_iff (hok : w.view.Ok) (hstd : StdOpen w.view)
    (hexec : exec C w (.luaClose l) = .ok w') :
    SparesStd C w (.luaClose l) ↔ StdOpen w'.view := by
  rcases exec_luaClose (C := C) hok l with ⟨w₁, V, h₁, hfinal, hv⟩ | ⟨h₁, -⟩
  · cases hexec.symm.trans h₁
    have hfiles : w'.view.files = V.files := by rw [hv]; rfl
    constructor
    · intro hspares f hf
      obtain ⟨y, hy, hyopen⟩ := hstd f hf
      obtain ⟨y', hy', hopen⟩ := hfinal.file f y hy
      refine ⟨y', hfiles ▸ hy', hopen.2 ⟨hyopen, fun a ha x hx hxf => ?_⟩⟩
      -- a handle of the VM that has the file
      obtain ⟨z, hz, hd⟩ := hfinal.alive a ha
      cases hx.symm.trans hz
      obtain ⟨u, hu, -, -, hud⟩ := hok.std f hf
      obtain ⟨v, hv, rfl⟩ := exists_file hu
      have := hspares a f v (.luaClose hfinal.alive ha ⟨⟨x, hx, hd, hxf⟩, hv, hud⟩)
      omega
    · intro hstd' a f y h
      by_contra hf
      cases h with
      | luaClose halive ha h =>
        obtain ⟨y', hy', hopen⟩ := hfinal.file f y.view h.view_file
        obtain ⟨z, hz, hzopen⟩ := hstd' f (by omega)
        rw [hfiles] at hz
        cases hy'.symm.trans hz
        obtain ⟨x, hx, -, hxf⟩ := h.adapter
        exact (hopen.1 hzopen).2 a ha x hx hxf
  · cases hexec.symm.trans h₁

/-! ## Runs -/

/-- **One event.** -/
theorem step_stdUsable (hok : w.view.Ok) (hstd : StdUsable C w) (hen : (machine C).enabled w e) :
    SparesStd C w e ↔ True ∧ ∀ w', exec C w e = .ok w' → StdUsable C w' := by
  have hdone : ∀ {w'}, exec C w e = .ok w' → (SparesStd C w e ↔ StdOpen w'.view) →
      (SparesStd C w e ↔ True ∧ ∀ w', exec C w e = .ok w' → StdUsable C w') :=
    fun hexec hiff => Machine.exact_of_ok (M := machine C) (P := StdUsable C) (s := w) (e := e)
      hexec trivial (hiff.trans (stdUsable_iff (exec_ok hok hen.1 hexec)).symm)
  obtain ⟨r, hr⟩ : ∃ r, exec C w e = r := ⟨_, rfl⟩
  cases r with
  | error f =>
    refine Machine.exact_of_error (M := machine C) (s := w) (e := e) hr
      (iff_of_true (fun a g y h => ?_) trivial)
    obtain ⟨w', hw'⟩ := h.exec_ok hok hen
    cases hr.symm.trans hw'
  | ok w' =>
    apply hdone hr
    cases e with
    | startvm =>
      obtain ⟨w₁, h₁, hv⟩ := exec_startvm (C := C) hok
      cases hr.symm.trans h₁
      refine iff_of_true (fun a f y h => by cases h) ?_
      rw [hv]
      exact hstd.files
    | luaClose l => exact luaClose_stdOpen_iff hok hstd.files hr
    | action l act =>
      obtain ⟨vm, hvm, -⟩ := Possible.isOpen hen.1
      exact (action_aftermath hok hvm hr).stdOpen_iff hstd.files

/-- **The standard streams survive** a history of the process if and only if no event of it closes
a standard file. -/
theorem standard_iff {os : Os} {es : List (Event ν)}
    (hrun : (machine C).Along (machine C).enabled (initial C os) es) :
    (machine C).Along (SparesStd C) (initial C os) es ↔
      (machine C).Throughout (StdUsable C) (initial C os) es := by
  have hstd : StdOpen (initial C os).view := by
    intro f hf
    obtain rfl | rfl | rfl : f = 0 ∨ f = 1 ∨ f = 2 := by omega
    all_goals exact ⟨_, rfl, rfl⟩
  have h := Machine.along_iff (M := machine C) (G := fun _ _ => True)
    (I := fun w : World ν Os => w.view.Ok)
    (fun w e w' hok _ hen hexec _ => exec_ok hok hen.1 hexec)
    (fun w e hok hstd hen => step_stdUsable hok hstd hen)
    (initial_ok C os) ((stdUsable_iff (initial_ok C os)).2 hstd) hrun
  exact h.trans (and_iff_right (Machine.along_true _ _))

/-! ## A failed close -/

/-- A VM is started, and its script calls `io.close()`. -/
def failedClose : List (Event ℤ) := [.startvm, .action 0 (.call .close [])]

theorem enabled_failedClose : (machine nullDevice).Along (machine nullDevice).enabled
    (initial nullDevice 0) failedClose := by
  refine .cons (machine_enabled trivial rfl) rfl ?_
  exact .cons (machine_enabled ⟨_, rfl, rfl⟩ rfl) rfl trivial

/-- The close fails, and the standard output has no stream any more. -/
theorem standard_counterexample :
    (machine nullDevice).Along (machine nullDevice).enabled (initial nullDevice 0) failedClose ∧
      ¬ (machine nullDevice).Throughout (StdUsable nullDevice) (initial nullDevice 0)
        failedClose := by
  refine ⟨enabled_failedClose, fun h => ?_⟩
  obtain ⟨y, hy, hopen⟩ := ((h.2 _ rfl).2 _ rfl).head.files 1 (by decide)
  cases hy
  cases hopen

theorem standard_iff_failedClose :
    (machine nullDevice).Along (SparesStd nullDevice) (initial nullDevice 0) failedClose ↔
      (machine nullDevice).Throughout (StdUsable nullDevice) (initial nullDevice 0) failedClose :=
  standard_iff enabled_failedClose

end Jord.Io
