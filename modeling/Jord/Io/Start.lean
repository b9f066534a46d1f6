import Jord.Io.Heap
import Jord.Io.Steps

/-!
# The start of a VM

`core_startvm` adds three handles, one for each standard file, and a VM that refers to nothing
else (`exec_startvm`, `Vm.start_reachable`). `initial_ok` is about the process before the first VM.
-/

namespace Jord.Io

open Program

variable {ν Os : Type} {C : Platform ν Os} {w : World ν Os} {V : View ν} {f n : ℕ}

/-- A new VM, with the handles `n`, `n + 1` and `n + 2` for the standard files. -/
def Vm.start (n : ℕ) : Vm ν :=
  ⟨true, [.table 0],
    [[(Str.ascii "stdin", .handle n), (Str.ascii "stdout", .handle (n + 1)),
      (Str.ascii "stderr", .handle (n + 2))]],
    [], ⟨.handle n, .handle (n + 1), .handle (n + 2)⟩⟩

/-- The process with a new VM. -/
def View.start (V : View ν) : View ν :=
  { V with
    adapters := V.adapters ++ [⟨V.vms.length, some 0, false, false⟩,
      ⟨V.vms.length, some 1, false, false⟩, ⟨V.vms.length, some 2, false, false⟩]
    stdInput := some V.adapters.length
    stdOutput := some (V.adapters.length + 1)
    stdError := some (V.adapters.length + 2)
    vms := V.vms ++ [.start V.adapters.length] }

/-- A handle for a standard file does not count. -/
theorem create_std (hok : V.Ok) (hfiles : w.view.files = V.files) (l : ℕ)
    (hf : f < 3) :
    ∃ w', LuaFileAdapter.create l f w = .ok w.view.adapters.length w' ∧
      w'.view = w.view.addAdapter ⟨l, some f, false, false⟩ := by
  obtain ⟨y, hy, hstd, -, hd⟩ := hok.std f hf
  obtain ⟨x, hx, rfl⟩ := exists_file (hfiles ▸ hy)
  have hstd' : x.isStdFile = true := hstd
  refine ⟨_, LuaFileAdapter.create_run hx hd l, ?_⟩
  rw [hstd', Bool.not_true, Bool.and_false, if_neg Bool.false_ne_true, World.addHandle_view]
  exact congrArg (View.addAdapter · _) (by simp [View.count])

/-- **A VM can be started.** -/
theorem exec_startvm (hok : w.view.Ok) :
    ∃ w', exec C w .startvm = .ok w' ∧ w'.view = w.view.start := by
  let l := w.view.vms.length
  let w₀ : World ν Os := { w with vms := w.vms ++ [Vm.mk true [] [] [] ⟨.nil, .nil, .nil⟩] }
  obtain ⟨w₁, h₁, hv₁⟩ := create_std (w := w₀) hok rfl l (f := 0) (by decide)
  obtain ⟨w₂, h₂, hv₂⟩ : ∃ w₂, LuaIOManager.setInput l w₀.view.adapters.length w₁ = .ok ⟨⟩ w₂ ∧
    w₂.view = w₁.view.setInput l w₀.view.adapters.length := ⟨_, rfl, rfl⟩
  obtain ⟨w₃, h₃, hv₃⟩ := create_std (w := w₂) hok (by rw [hv₂, hv₁]; rfl) l (f := 1) (by decide)
  obtain ⟨w₄, h₄, hv₄⟩ : ∃ w₄, LuaIOManager.setOutput l w₂.view.adapters.length w₃ = .ok ⟨⟩ w₄ ∧
    w₄.view = w₃.view.setOutput l w₂.view.adapters.length := ⟨_, rfl, rfl⟩
  obtain ⟨w₅, h₅, hv₅⟩ := create_std (w := w₄) hok (by rw [hv₄, hv₃, hv₂, hv₁]; rfl) l (f := 2)
    (by decide)
  let g₅ : Vm ν → Vm ν := fun vm =>
    { vm with registry := { vm.registry with stderr := .handle w₄.view.adapters.length } }
  obtain ⟨w₆, h₆, hv₆⟩ : ∃ w₆, LuaIOManager.setError l w₄.view.adapters.length w₅ = .ok ⟨⟩ w₆ ∧
    w₆.view = { w₅.view with stdError := some w₄.view.adapters.length }.modifyVm l g₅ :=
      ⟨_, rfl, rfl⟩
  let g₆ : Vm ν → Vm ν := fun vm => { vm with
    tables := [[(Str.ascii "stdin", vm.registry.stdin), (Str.ascii "stdout", vm.registry.stdout),
      (Str.ascii "stderr", vm.registry.stderr)]]
    locals := [.table 0] }
  obtain ⟨w₇, h₇, hv₇⟩ := modifyVm_apply l g₆ w₆
  have hsetup : LuaIOManager.setupStdFiles l w₀ = .ok ⟨⟩ w₇ :=
    (bind_of_ok h₁).trans ((bind_of_ok h₂).trans ((bind_of_ok h₃).trans ((bind_of_ok h₄).trans
      ((bind_of_ok h₅).trans ((bind_of_ok h₆).trans h₇)))))
  refine ⟨w₇, congrArg outcome hsetup, ?_⟩
  have hw₀ : w₀.view = { w.view with
      vms := w.view.vms ++ [Vm.mk true [] [] [] ⟨.nil, .nil, .nil⟩] } := rfl
  have hn₂ : w₂.view.adapters.length = w.view.adapters.length + 1 := by
    simp [hv₂, hv₁, hw₀, View.setInput, View.modifyVm, View.addAdapter]
  have hn₄ : w₄.view.adapters.length = w.view.adapters.length + 2 := by
    simp [hv₄, hv₃, hn₂, View.setOutput, View.modifyVm, View.addAdapter]
  rw [hv₇, hv₆, hn₄, hv₅, hv₄, hn₂, hv₃, hv₂, hv₁, hw₀]
  simp only [g₅, g₆, l, hn₄, View.start, View.setInput, View.setOutput, View.modifyVm,
    View.addAdapter, modify_append_length, List.append_assoc]
  rfl

/-! ## What a new VM refers to -/

/-- A new VM refers to its three handles, and has no line iterators. -/
theorem Vm.start_reachable {v : LuaValue ν} (h : (Vm.start n : Vm ν).Reachable v) :
    v = .table 0 ∨ v = .handle n ∨ v = .handle (n + 1) ∨ v = .handle (n + 2) := by
  refine Reach.least (S := fun v => v = .table 0 ∨ v = .handle n ∨ v = .handle (n + 1) ∨
    v = .handle (n + 2)) (fun v hv => ?_) (fun u v hu huv => ?_) h
  · rcases hv with hv | rfl | rfl | rfl
    · exact .inl (List.mem_singleton.1 hv)
    · exact .inr (.inl rfl)
    · exact .inr (.inr (.inl rfl))
    · exact .inr (.inr (.inr rfl))
  · cases huv with
    | field h =>
      obtain ⟨ht, hk⟩ := h
      simp only [start] at ht
      have := List.mem_singleton.1 (List.mem_of_getElem? ht)
      subst this
      simp only [List.mem_cons, Prod.mk.injEq, List.not_mem_nil, or_false] at hk
      rcases hk with ⟨-, rfl⟩ | ⟨-, rfl⟩ | ⟨-, rfl⟩ <;> simp
    | upvalue hi => cases hi

/-- The handles of a new VM are alive. -/
theorem View.start_adapter {a : ℕ}
    (ha : (Vm.start V.adapters.length : Vm ν).Reachable (.handle a)) :
    ∃ x, V.start.adapters[a]? = some x ∧ x.owner = V.vms.length ∧ x.destroyed = false := by
  rcases Vm.start_reachable ha with h | h | h | h <;> cases h <;> simp [start]

theorem View.start_vm (V : View ν) :
    V.start.vms[V.vms.length]? = some (.start V.adapters.length) := by
  simp [start]

theorem View.Ok.start (hok : V.Ok) : V.start.Ok := by
  have hadd : ∀ {V' : View ν} {l f : ℕ}, V'.Ok → f < 3 →
      (V'.addAdapter ⟨l, some f, false, false⟩).Ok := by
    intro V' l f hok' hf
    obtain ⟨y, hy, -, -, hd⟩ := hok'.std f hf
    exact hok'.addAdapter hy hd fun h => absurd hf (Nat.not_lt_of_le h)
  have h := hadd (l := V.vms.length) (hadd (l := V.vms.length) (hadd (l := V.vms.length)
    hok (show 0 < 3 by decide)) (show 1 < 3 by decide)) (show 2 < 3 by decide)
  exact h.congr rfl (by simp [View.start, View.addAdapter])

/-! ## The process before the first VM -/

theorem initial_ok (C : Platform ν Os) (os : Os) : (initial C os).view.Ok where
  std f hf := by
    obtain rfl | rfl | rfl : f = 0 ∨ f = 1 ∨ f = 2 := by omega
    all_goals exact ⟨_, rfl, rfl, rfl, rfl⟩
  ordinary f x hf hx := by
    have := (List.getElem?_eq_some_iff.1 hx).1
    exact absurd hf (Nat.not_le_of_lt this)
  file a f h := by
    obtain ⟨x, hx, -⟩ := h
    cases hx
  unshared a b f h := by
    obtain ⟨x, hx, -⟩ := h
    cases hx

end Jord.Io
