import Jord.Io.Effect
import Jord.Io.Graph

/-!
# Steps that close nothing

`Tame l V V' vm vm'` collects what all steps of the script of VM `l` have in common that close no
handle: at most one file and one adapter are added, other VMs stay as they are, the graph of the VM
grows as `Vm.Grows` says, and a default stream is replaced in the singleton and the registry at the
same time. `tame_effect` shows it of every effect of a call, and `tame_script` of what a script
does with its own values.
-/

namespace Jord.Io

variable {ν : Type} {V V' : View ν} {l : ℕ} {vm vm' : Vm ν}

/-- At most one file and one adapter are added, and counted if the file is open. -/
inductive HeapGrows (l : ℕ) (V V' : View ν) : Prop
  | same (hf : V'.files = V.files) (ha : V'.adapters = V.adapters)
      (hc : V'.openedFilesCount = V.openedFilesCount)
  | wasted (hf : V'.files = V.files ++ [⟨false, true, false, true⟩])
      (ha : V'.adapters = V.adapters) (hc : V'.openedFilesCount = V.openedFilesCount)
  | opened (b : Bool) (hf : V'.files = V.files ++ [⟨b, true, false, false⟩])
      (ha : V'.adapters = V.adapters ++ [⟨l, some V.files.length, false, false⟩])
      (hc : V'.openedFilesCount = V.openedFilesCount + if b then 1 else 0)

/-- The adapter is new, in VM `l`, and its file is open. -/
structure NewHandle (l : ℕ) (V V' : View ν) (a : ℕ) : Prop where
  eq : a = V.adapters.length
  files : V'.files = V.files ++ [⟨true, true, false, false⟩]
  adapters : V'.adapters = V.adapters ++ [⟨l, some V.files.length, false, false⟩]

/-- A step of VM `l`, which is `vm` before and `vm'` afterwards, that closes nothing. -/
structure Tame (l : ℕ) (V V' : View ν) (vm vm' : Vm ν) : Prop where
  heap : HeapGrows l V V'
  before : V.vms[l]? = some vm
  after : V'.vms[l]? = some vm'
  others : ∀ l', l' ≠ l → V'.vms[l']? = V.vms[l']?
  isOpen : vm'.isOpen = vm.isOpen
  grows : vm.Grows vm' (NewHandle l V V') (NewHandle l V V') V.Alive
  default : ∀ d, (V'.default d = V.default d ∧ vm'.default d = vm.default d) ∨
    ∃ a, V'.default d = some a ∧ vm'.default d = .handle a

namespace View

/-- Keep values in new local variables. -/
def keep (V : View ν) (l : ℕ) (vs : List (LuaValue ν)) : View ν :=
  V.modifyVm l fun vm => { vm with locals := vm.locals ++ vs }

theorem modifyVm_self {g : Vm ν → Vm ν} (h : V.vms[l]? = some vm) :
    (V.modifyVm l g).vms[l]? = some (g vm) := by
  simp [modifyVm, h]

theorem modifyVm_of_ne {g : Vm ν → Vm ν} {l' : ℕ} (h : l' ≠ l) :
    (V.modifyVm l g).vms[l']? = V.vms[l']? := by
  simp [modifyVm, h.symm]

end View

/-- What a script does with its own values. -/
theorem tame_script {g : Vm ν → Vm ν} (hvm : V.vms[l]? = some vm)
    (hgrows : ∀ N H T, vm.Grows (g vm) N H T) (hopen : (g vm).isOpen = vm.isOpen)
    (hreg : (g vm).registry = vm.registry) : Tame l V (V.modifyVm l g) vm (g vm) where
  heap := .same rfl rfl rfl
  before := hvm
  after := View.modifyVm_self hvm
  others _ := View.modifyVm_of_ne
  isOpen := hopen
  grows := hgrows _ _ _
  default d := .inl ⟨by cases d <;> rfl, by cases d <;> simp [Vm.default, hreg]⟩

theorem known_default (d : Default) {N : ℕ → Prop} : vm.Known N (vm.default d) := by
  cases d
  · exact Vm.known_root (.inr (.inl rfl))
  · exact Vm.known_root (.inr (.inr (.inl rfl)))

/-- The registry with a default stream replaced. -/
def Registry.install (r : Registry ν) (a : ℕ) : Default → Registry ν
  | .input => { r with stdin := .handle a }
  | .output => { r with stdout := .handle a }

/-- A call that returns values, makes line iterators and sets the registry. -/
theorem tame_call {W : View ν} (rs : List (LuaValue ν)) (its : List (Iterator ν)) (r : Registry ν)
    (hvm : V.vms[l]? = some vm) (heap : HeapGrows l V W)
    (hself : W.vms[l]? = some
      { vm with locals := vm.locals ++ rs, iterators := vm.iterators ++ its, registry := r })
    (hothers : ∀ l', l' ≠ l → W.vms[l']? = V.vms[l']?)
    (hrs : ∀ v ∈ rs, vm.Known (NewHandle l V W) v)
    (hits : ∀ it ∈ its, vm.FreshIterator (NewHandle l V W) V.Alive it)
    (hreg : (r = vm.registry ∧ ∀ d, W.default d = V.default d) ∨
      ∃ a d, r = vm.registry.install a d ∧ vm.Known (NewHandle l V W) (.handle a) ∧
        ∀ d', W.default d' = if d' = d then some a else V.default d') :
    ∃ vm', Tame l V W vm vm' := by
  have hknown : vm.Known (NewHandle l V W) r.stdin ∧ vm.Known (NewHandle l V W) r.stdout ∧
      vm.Known (NewHandle l V W) r.stderr := by
    have herr : vm.Known (NewHandle l V W) vm.registry.stderr :=
      Vm.known_root (.inr (.inr (.inr rfl)))
    rcases hreg with ⟨rfl, -⟩ | ⟨a, d, rfl, ha, -⟩
    · exact ⟨known_default .input, known_default .output, herr⟩
    · cases d
      · exact ⟨ha, known_default .output, herr⟩
      · exact ⟨known_default .input, ha, herr⟩
  refine ⟨_, heap, hvm, hself, hothers, rfl,
    Vm.grows_call hrs hits hknown.1 hknown.2.1 hknown.2.2, fun d => ?_⟩
  rcases hreg with ⟨rfl, hd⟩ | ⟨a, d', rfl, -, hd⟩
  · exact .inl ⟨hd d, by cases d <;> rfl⟩
  · by_cases h : d = d'
    · subst h
      exact .inr ⟨a, by simp [hd], by cases d <;> rfl⟩
    · refine .inl ⟨by simp [hd, h], ?_⟩
      cases d <;> cases d' <;> first | rfl | contradiction

namespace View

theorem openHandle_vms (V : View ν) (l : ℕ) (b : Bool) : (V.openHandle l b).vms = V.vms := rfl

theorem install_vms (h : V.vms[l]? = some vm) (a : ℕ) (d : Default) :
    (V.install l a d).vms[l]? = some { vm with registry := vm.registry.install a d } := by
  cases d <;> exact modifyVm_self h

theorem install_others (a : ℕ) (d : Default) {l' : ℕ} (h : l' ≠ l) :
    (V.install l a d).vms[l']? = V.vms[l']? := by
  cases d <;> exact modifyVm_of_ne h

theorem install_defaults (a : ℕ) (d d' : Default) :
    (V.install l a d).default d' = if d' = d then some a else V.default d' := by
  cases d <;> cases d' <;> rfl

theorem keep_default (V : View ν) (l : ℕ) (vs : List (LuaValue ν)) (d : Default) :
    (V.keep l vs).default d = V.default d := by
  cases d <;> rfl

theorem install_heap (V : View ν) (a : ℕ) (d : Default) :
    (V.install l a d).files = V.files ∧ (V.install l a d).adapters = V.adapters ∧
      (V.install l a d).openedFilesCount = V.openedFilesCount := by
  cases d <;> exact ⟨rfl, rfl, rfl⟩

end View

/-- **The effects of a call are tame.** -/
theorem tame_effect {args rs : List (LuaValue ν)} (hvm : V.vms[l]? = some vm)
    (hargs : ∀ v ∈ args, ∃ o, v = Operand.eval vm o) (h : Effect l args V V' rs) :
    ∃ vm', Tame l V (V'.keep l rs) vm vm' := by
  have hargs' : ∀ {N : ℕ → Prop}, ∀ v ∈ args, vm.Known N v := fun v hv => by
    obtain ⟨o, rfl⟩ := hargs v hv
    exact Vm.known_eval o
  have hothers : ∀ {W : View ν} {vs : List (LuaValue ν)},
      (∀ l', l' ≠ l → W.vms[l']? = V.vms[l']?) →
      ∀ l', l' ≠ l → (W.keep l vs).vms[l']? = V.vms[l']? :=
    fun hW l' hl' => (View.modifyVm_of_ne hl').trans (hW l' hl')
  cases h with
  | plain h =>
    exact ⟨_, tame_script hvm (fun _ _ _ => Vm.grows_keep fun v hv => .inr (.plain (h v hv))) rfl
      rfl⟩
  | default hvm' d =>
    obtain rfl := Option.some.inj (hvm.symm.trans hvm')
    exact ⟨_, tame_script hvm (fun _ _ _ => Vm.grows_keep (List.forall_mem_singleton.2
      (known_default d))) rfl rfl⟩
  | wasted =>
    refine tame_call [] [] vm.registry hvm (.wasted rfl rfl rfl) ?_ (hothers fun _ _ => rfl)
      (List.forall_mem_nil _) (List.forall_mem_nil _) (.inl ⟨rfl, View.keep_default _ _ _⟩)
    rw [List.append_nil vm.iterators]
    exact View.modifyVm_self hvm
  | failed h =>
    refine tame_call _ [] vm.registry hvm (.opened false rfl rfl rfl) ?_ (hothers fun _ _ => rfl)
      (fun v hv => .inr (.plain (h v hv))) (List.forall_mem_nil _)
      (.inl ⟨rfl, View.keep_default _ _ _⟩)
    rw [List.append_nil vm.iterators]
    exact View.modifyVm_self hvm
  | opened =>
    refine tame_call _ [] vm.registry hvm (.opened true rfl rfl rfl) ?_ (hothers fun _ _ => rfl)
      (List.forall_mem_singleton.2 (.inr (.handle ⟨rfl, rfl, rfl⟩))) (List.forall_mem_nil _)
      (.inl ⟨rfl, View.keep_default _ _ _⟩)
    rw [List.append_nil vm.iterators]
    exact View.modifyVm_self hvm
  | @installed a ha d =>
    obtain ⟨hfiles, hadapters, hcount⟩ := View.install_heap (l := l) V a d
    refine tame_call _ [] (vm.registry.install a d) hvm (.same hfiles hadapters hcount) ?_
      (hothers fun _ => View.install_others a d)
      (List.forall_mem_singleton.2 (hargs' _ ha)) (List.forall_mem_nil _)
      (.inr ⟨a, d, rfl, hargs' _ ha, fun d' =>
        (View.keep_default _ _ _ _).trans (View.install_defaults a d d')⟩)
    rw [List.append_nil vm.iterators]
    exact View.modifyVm_self (View.install_vms hvm a d)
  | openInstalled d =>
    obtain ⟨hfiles, hadapters, hcount⟩ :=
      View.install_heap (l := l) (V.openHandle l true) V.adapters.length d
    have hnew : NewHandle l V (((V.openHandle l true).install l V.adapters.length d).keep l
        [.handle V.adapters.length]) V.adapters.length := ⟨rfl, hfiles, hadapters⟩
    refine tame_call _ [] (vm.registry.install V.adapters.length d) hvm
      (.opened true hfiles hadapters hcount) ?_ (hothers fun _ => View.install_others _ d)
      (List.forall_mem_singleton.2 (.inr (.handle hnew))) (List.forall_mem_nil _)
      (.inr ⟨_, d, rfl, .inr (.handle hnew), fun d' =>
        (View.keep_default _ _ _ _).trans (View.install_defaults _ d d')⟩)
    rw [List.append_nil vm.iterators]
    exact View.modifyVm_self (View.install_vms (View.openHandle_vms V l true ▸ hvm) _ d)
  | @iterator it hit =>
    refine tame_call _ [it] vm.registry hvm (.same rfl rfl rfl)
      (View.modifyVm_self (View.modifyVm_self hvm)) (hothers fun _ => View.modifyVm_of_ne)
      (List.forall_mem_singleton.2 ?_) (List.forall_mem_singleton.2 ?_)
      (.inl ⟨rfl, View.keep_default _ _ _⟩)
    · simp only [View.iterators, hvm, Option.elim]
      exact .inr .iterator
    · cases hit with
      | full hv hu => exact .full (hargs' _ hv)
      | light ha halive => exact .light halive
  | openIterator =>
    refine tame_call _ [_] vm.registry hvm (.opened true rfl rfl rfl)
      (View.modifyVm_self (View.modifyVm_self hvm)) (hothers fun _ => View.modifyVm_of_ne)
      (List.forall_mem_singleton.2 ?_)
      (List.forall_mem_singleton.2 (.full (.inr (.handle ⟨rfl, rfl, rfl⟩))))
      (.inl ⟨rfl, View.keep_default _ _ _⟩)
    simp only [View.iterators, hvm, Option.elim]
    exact .inr .iterator

end Jord.Io
