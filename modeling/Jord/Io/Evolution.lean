import Jord.Io.Destruction
import Jord.Io.Start

/-!
# Steps that destroy nothing

`Evolves l V V' vm vm'` is what every step of VM `l` has in common, closing included, as long as
it destroys no handle: handles that are there stay alive, and the graph of the VM grows by new
handles only. From it follow, once and for all, the invariants that are about which handles are
alive: `Keeps`, `Synced` and `Accounted`.
-/

namespace Jord.Io

open Program

variable {ν Os : Type} {C : Platform ν Os} {F : Fault → Prop} {V V' : View ν} {w : World ν Os}
  {l : ℕ} {vm vm' : Vm ν}

/-! ## What a step does -/

/-- The handle is new, alive, and belongs to VM `l`. -/
structure NewAlive (l : ℕ) (V V' : View ν) (a : ℕ) : Prop where
  new : V.adapters.length ≤ a
  adapter : ∃ x, V'.adapters[a]? = some x ∧ x.owner = l ∧ x.destroyed = false

/-- A step of VM `l`, which is `vm` before and `vm'` afterwards, that destroys nothing. -/
structure Evolves (l : ℕ) (V V' : View ν) (vm vm' : Vm ν) : Prop where
  before : V.vms[l]? = some vm
  after : V'.vms[l]? = some vm'
  others : ∀ l', l' ≠ l → V'.vms[l']? = V.vms[l']?
  isOpen : vm'.isOpen = vm.isOpen
  grows : vm.Grows vm' (NewAlive l V V') (NewAlive l V V') V.Alive
  default : ∀ d, (V'.default d = V.default d ∧ vm'.default d = vm.default d) ∨
    ∃ a, V'.default d = some a ∧ vm'.default d = .handle a
  old : ∀ (a : ℕ) x, V.adapters[a]? = some x → ∃ x', V'.adapters[a]? = some x' ∧
    x'.owner = x.owner ∧ x'.destroyed = x.destroyed ∧ x'.collected = x.collected
  new : ∀ (a : ℕ) x', V.adapters.length ≤ a → V'.adapters[a]? = some x' → x'.destroyed = false
  has : ∀ a f, V'.Has a f → V.Has a f ∨ a = V.adapters.length ∧ f = V.files.length
  ok : V'.Ok

/-- The adapters that there are stay as they are. -/
theorem HeapGrows.adapters (h : HeapGrows l V V') : ∃ xs, V'.adapters = V.adapters ++ xs ∧
    ∀ x ∈ xs, x.owner = l ∧ x.destroyed = false := by
  cases h with
  | same hf ha => exact ⟨[], by simp [ha], List.forall_mem_nil _⟩
  | wasted hf ha => exact ⟨[], by simp [ha], List.forall_mem_nil _⟩
  | opened b hf ha => exact ⟨_, ha, List.forall_mem_singleton.2 ⟨rfl, rfl⟩⟩

/-- A handle has the file that it had, or is new and has a new file. -/
theorem HeapGrows.has (h : HeapGrows l V V') {a f : ℕ} (hf : V'.Has a f) :
    V.Has a f ∨ a = V.adapters.length ∧ f = V.files.length := by
  cases h with
  | same _ ha => exact .inl (by rwa [View.Has, ha] at hf)
  | wasted _ ha => exact .inl (by rwa [View.Has, ha] at hf)
  | opened b _ ha =>
    apply View.has_addAdapter (l := l) (V := V)
    rwa [View.Has, ha] at hf

theorem NewHandle.newAlive {a : ℕ} (h : NewHandle l V V' a) : NewAlive l V V' a := by
  obtain ⟨rfl, hf, ha⟩ := h
  exact ⟨Nat.le_refl _, ⟨l, some V.files.length, false, false⟩, by simp [ha], rfl, rfl⟩

/-- New handles of one kind are new handles of a wider kind. -/
theorem Vm.Grows.mono {N N' T : ℕ → Prop} (h : vm.Grows vm' N N T) (hN : ∀ a, N a → N' a) :
    vm.Grows vm' N' N' T := by
  have hknown : ∀ v, vm.Known N v → vm.Known N' v := by
    rintro v (hv | hv)
    · exact .inl hv
    · refine .inr ?_
      cases hv with
      | plain h => exact .plain h
      | table => exact .table
      | iterator => exact .iterator
      | handle h => exact .handle (hN _ h)
  refine ⟨fun v hv => hknown v (h.root v hv), fun x y hxy => (h.field x y hxy).imp id (hknown y),
    fun i it hi => (h.iterator i it hi).imp id fun hit => ?_⟩
  cases hit with
  | full hv => exact .full (hknown _ hv)
  | light ha => exact .light ha

/-- A step that closes nothing destroys nothing. -/
theorem Tame.evolves (hok : V.Ok) (h : Tame l V V' vm vm') : Evolves l V V' vm vm' := by
  obtain ⟨xs, hadapters, hxs⟩ := h.heap.adapters
  refine ⟨h.before, h.after, h.others, h.isOpen, h.grows.mono fun a ha => ha.newAlive, h.default,
    fun a x hx => ⟨x, ?_, rfl, rfl, rfl⟩, fun a x' ha hx' => ?_, fun _ _ => h.heap.has,
    hok.of_heapGrows h.heap⟩
  · rw [hadapters, List.getElem?_append_left (List.getElem?_eq_some_iff.1 hx).1, hx]
  · rw [hadapters, List.getElem?_append_right ha] at hx'
    exact (hxs x' (List.mem_of_getElem? hx')).2

/-- A step that may close a handle, and returns plain values. -/
theorem evolves_keep {W : View ν} {vs : List (LuaValue ν)} (hvm : V.vms[l]? = some vm)
    (hvs : AllPlain vs) (hvms : W.vms = V.vms) (hdefault : ∀ d, W.default d = V.default d)
    (hadapters : ∀ a : ℕ, ∃ g : FileAdapter → FileAdapter, W.adapters[a]? = V.adapters[a]?.map g ∧
      ∀ x, (g x).owner = x.owner ∧ (g x).destroyed = x.destroyed ∧ (g x).collected = x.collected)
    (hhas : ∀ a f, W.Has a f → V.Has a f) (hok : W.Ok) :
    ∃ vm', Evolves l V (W.keep l vs) vm vm' := by
  refine ⟨{ vm with locals := vm.locals ++ vs }, hvm, View.modifyVm_self (hvms ▸ hvm),
    fun l' hl' => (View.modifyVm_of_ne hl').trans (hvms ▸ rfl), rfl,
    Vm.grows_keep fun v hv => .inr (.plain (hvs v hv)), fun d => .inl ⟨?_, by cases d <;> rfl⟩,
    fun a x hx => ?_, fun a x' ha hx' => ?_, fun a f h => .inl (hhas a f h), hok.congr rfl rfl⟩
  · rw [View.keep_default, hdefault]
  · obtain ⟨g, hg, hsame⟩ := hadapters a
    exact ⟨g x, by rw [View.keep, View.modifyVm, hg, hx]; rfl, hsame x⟩
  · obtain ⟨g, hg, -⟩ := hadapters a
    rw [View.keep, View.modifyVm, hg, List.getElem?_eq_none ha] at hx'
    cases hx'

/-! ## Closing -/

theorem has_release {a f b g : ℕ} {isStdFile : Bool} (h : (V.release a f isStdFile).Has b g) :
    V.Has b g ∧ b ≠ a := by
  constructor
  · obtain ⟨x, hx, hd⟩ := View.has_modifyAdapter (k := fun x => { x with fileHandle := none })
      (fun _ h => h) (fun _ _ h => by cases h) h
    rw [View.dropFile_adapters] at hx
    exact ⟨x, hx, hd⟩
  · rintro rfl
    exact View.not_has_modifyAdapter (fun _ _ => rfl) h

section

variable {vs : List (LuaValue ν)} (hok : V.Ok) (hvm : V.vms[l]? = some vm) (hvs : AllPlain vs)
include hok hvm hvs

theorem evolves_same : ∃ vm', Evolves l V (V.keep l vs) vm vm' :=
  evolves_keep hvm hvs rfl (fun _ => rfl) (fun _ => ⟨id, by simp, fun _ => ⟨rfl, rfl, rfl⟩⟩)
    (fun _ _ h => h) hok

theorem evolves_closeFile (f : ℕ) : ∃ vm', Evolves l V ((V.closeFile f).keep l vs) vm vm' :=
  evolves_keep hvm hvs rfl (fun d => by cases d <;> rfl)
    (fun _ => ⟨id, by simp [View.closeFile], fun _ => ⟨rfl, rfl, rfl⟩⟩) (fun _ _ h => h)
    (hok.closeFile f)

theorem evolves_release {a f : ℕ} {y : FileView} (ha : V.Has a f) (hy : V.files[f]? = some y) :
    ∃ vm', Evolves l V ((V.release a f y.isStdFile).keep l vs) vm vm' := by
  refine evolves_keep hvm hvs (View.release_vms _ _ _ _)
    (fun d => View.discharge_default _ _ _ _ _ _ d) (fun b => ?_)
    (fun _ _ h => (has_release h).1) (hok.release ha hy)
  by_cases hab : a = b
  · refine ⟨fun x => { x with fileHandle := none }, ?_, fun _ => ⟨rfl, rfl, rfl⟩⟩
    rw [View.release, View.modifyAdapter_adapters, if_pos hab, View.dropFile_adapters]
    rfl
  · refine ⟨id, ?_, fun _ => ⟨rfl, rfl, rfl⟩⟩
    rw [View.release, View.modifyAdapter_adapters, if_neg hab, View.dropFile_adapters,
      Option.map_id_apply]
    rfl

end

/-- The action destroys a handle. -/
def Action.isDestroying : Action ν → Bool
  | .gc _ => true
  | .collect _ => true
  | _ => false

/-- The kinds of actions that destroy nothing. -/
theorem Action.kinds {act : Action ν} (hact : act.isDestroying = false) :
    act.isTame ∨ act.isClose ∨ ∃ o, act = .iterate o := by
  cases act with
  | call g args => cases g <;> first | exact .inl rfl | exact .inr (.inl rfl)
  | method m args => cases m <;> first | exact .inl rfl | exact .inr (.inl rfl)
  | iterate o => exact .inr (.inr ⟨o, rfl⟩)
  | gc args => cases hact
  | collect a => cases hact
  | _ => exact .inl rfl

/-- What the line iterators of a VM read from is alive, unless using a dead handle is in `F`. -/
def LinesServed (F : Fault → Prop) (V : View ν) (vm : Vm ν) : Prop :=
  ∀ (i : ℕ) it a, vm.Reachable (.iterator i) → vm.iterators[i]? = some it →
    LuaFileAdapter.upvalueAdapter it.upvalue = some a → F .destroyedAdapter ∨ V.Alive a

/-- The step evolves, or ends in a fault in `F`. -/
def Evolving (F : Fault → Prop) (l : ℕ) (V : View ν) (vm : Vm ν)
    (r : Except Fault (World ν Os)) : Prop :=
  (∃ w' vm', r = .ok w' ∧ Evolves l V w'.view vm vm') ∨ ∃ f, r = .error f ∧ F f

section

variable {r : Except Fault (World ν Os)} {a : ℕ} (hok : w.view.Ok) (hvm : w.view.vms[l]? = some vm)
include hok hvm

/-- A step that leaves the handles alone. -/
theorem evolving_same {w' : World ν Os} {vs : List (LuaValue ν)} (hvs : AllPlain vs)
    (hv : w'.view = w.view.keep l vs) : Evolving F l w.view vm (.ok w') := by
  obtain ⟨vm', h⟩ := evolves_same hok hvm hvs
  exact .inl ⟨w', vm', rfl, hv ▸ h⟩

theorem CloseRun.evolving (h : CloseRun C l a w r)
    (halive : F .destroyedAdapter ∨ w.view.Alive a) : Evolving F l w.view vm r := by
  cases h with
  | dead hdead => exact .inr ⟨_, rfl, halive.resolve_right hdead⟩
  | again => exact evolving_same hok hvm allPlain_nil (View.keep_nil _ _).symm
  | failed _ _ hv =>
    obtain ⟨vm', h⟩ := evolves_closeFile hok hvm allPlain_nil _
    rw [View.keep_nil, ← hv] at h
    exact .inl ⟨_, vm', rfl, h⟩
  | closed h _ hv =>
    obtain ⟨vm', h⟩ := evolves_release hok hvm
      (show AllPlain [.boolean true] from List.forall_mem_singleton.2 rfl) h.adapter h.view_file
    exact .inl ⟨_, vm', rfl, hv ▸ h⟩

theorem IterateRun.evolving {it : Iterator ν} (h : IterateRun C l it w r) (hF : F .unfinished)
    (hnull : F .nullHandle) (hforeign : F .foreignUserdata)
    (halive : ∀ a, LuaFileAdapter.upvalueAdapter it.upvalue = some a →
      F .destroyedAdapter ∨ w.view.Alive a) : Evolving F l w.view vm r := by
  cases h with
  | foreign => exact .inr ⟨_, rfl, hforeign⟩
  | dead ha hdead => exact .inr ⟨_, rfl, (halive _ ha).resolve_right hdead⟩
  | released => exact .inr ⟨_, rfl, hnull⟩
  | unfinished => exact .inr ⟨_, rfl, hF⟩
  | stays _ _ hvs hv => exact evolving_same hok hvm hvs hv
  | ended _ hv =>
    obtain ⟨vm', h⟩ := evolves_closeFile hok hvm
      (show AllPlain [.nil] from List.forall_mem_singleton.2 rfl) _
    exact .inl ⟨_, vm', rfl, hv ▸ h⟩

/-- **An action that destroys nothing**, or ends in one of the faults that it is allowed. -/
theorem exec_evolving (hF : F .unfinished) (hE : F .exception) (hnull : F .nullHandle)
    (hforeign : F .foreignUserdata) (hs : VmServed F w.view vm) (hlines : LinesServed F w.view vm)
    {act : Action ν} (hact : act.isDestroying = false) :
    Evolving F l w.view vm (exec C w (.action l act)) := by
  rcases Action.kinds hact with htame | hclose | ⟨o, rfl⟩
  · rcases exec_tame hF hE hvm hs htame with ⟨w', vm', hexec, h⟩ | hfault
    · exact .inl ⟨w', vm', hexec, h.evolves hok⟩
    · exact .inr hfault
  · rcases exec_close (C := C) hvm hclose with ⟨a, ha, hexec⟩ | ⟨-, hexec | ⟨hnone, hexec⟩⟩
    · rw [hexec]
      refine (closeRun hok l a).evolving hok hvm ?_
      rcases closeTarget_cases ha with hd | hacc
      · exact (hs.default _ a hd).adapter
      · exact (hs.accessible a hacc).adapter
    · exact hexec ▸ evolving_same hok hvm allPlain_nil (View.keep_nil _ _).symm
    · refine .inr ⟨_, hexec, hs.nonNull.resolve_right fun hsome => ?_⟩
      simpa [View.default, hnone] using hsome .output
  · rcases exec_iterate (C := C) hvm o with ⟨it, hit, hexec⟩ | ⟨-, hexec⟩
    · rw [hexec]
      obtain ⟨i, hacc, hi⟩ := calledIterator_accessible hit
      exact (iterateRun hok l it).evolving hok hvm hF hnull hforeign
        fun a ha => hlines i it a hacc.reachable hi ha
    · exact hexec ▸ evolving_same hok hvm allPlain_nil (View.keep_nil _ _).symm

end

/-- Where all faults are allowed, every handle can be used. -/
theorem served_any (V : View ν) (vm : Vm ν) : VmServed (fun _ => True) V vm := by
  have hready : ∀ a, Ready (fun _ => True) V a := fun a =>
    ⟨⟨.inl trivial, fun _ _ _ _ => .inl trivial⟩, fun _ _ _ _ => ⟨.inl trivial, .inl trivial⟩⟩
  exact ⟨.inl trivial, fun _ a _ => hready a, fun a _ => hready a⟩

/-- An action that destroys nothing and ends in no fault. -/
theorem exec_evolves {w' : World ν Os} (hok : w.view.Ok) (hvm : w.view.vms[l]? = some vm)
    {act : Action ν} (hact : act.isDestroying = false)
    (hexec : exec C w (.action l act) = .ok w') : ∃ vm', Evolves l w.view w'.view vm vm' := by
  rcases exec_evolving (C := C) (F := fun _ => True) hok hvm trivial trivial trivial trivial
    (served_any _ _) (fun _ _ _ _ _ _ => .inl trivial) hact with ⟨w₁, vm', hw₁, hev⟩ | ⟨f, hf, -⟩
  · cases hexec.symm.trans hw₁
    exact ⟨vm', hev⟩
  · cases hexec.symm.trans hf

/-! ## Invariants -/

/-- Everything that a VM refers to is alive: its handles, and what its line iterators read from. -/
structure Keeps (V : View ν) (vm : Vm ν) : Prop where
  handle : ∀ a, vm.Reachable (.handle a) → V.Alive a
  iterator : ∀ (i : ℕ) it a, vm.Reachable (.iterator i) → vm.iterators[i]? = some it →
    LuaFileAdapter.upvalueAdapter it.upvalue = some a → V.Alive a

/-- The default streams of the singleton are those in the registry of the VM. -/
def Synced (V : View ν) (vm : Vm ν) : Prop :=
  ∀ d, ∃ a, V.default d = some a ∧ vm.default d = .handle a

/-- Only the collector destroys handles. -/
def Accounted (V : View ν) : Prop :=
  ∀ (a : ℕ) x, V.adapters[a]? = some x → x.destroyed = true → x.collected = true

theorem Vm.default_root (d : Default) : vm.Root (vm.default d) := by
  cases d
  · exact .inr (.inl rfl)
  · exact .inr (.inr (.inl rfl))

theorem Synced.accessible (h : Synced V vm) {d : Default} {a : ℕ} (ha : V.default d = some a) :
    vm.Accessible (.handle a) := by
  obtain ⟨b, hb, hdefault⟩ := h d
  cases ha.symm.trans hb
  exact .root (hdefault ▸ vm.default_root d)

/-- New handles that are alive, and addresses of such, do no harm. -/
theorem Keeps.of_grows {N T : ℕ → Prop} (hk : Keeps V vm) (h : vm.Grows vm' N N T)
    (hold : ∀ a, V.Alive a → V'.Alive a) (hN : ∀ a, N a → V'.Alive a)
    (hT : ∀ a, T a → V'.Alive a) : Keeps V' vm' := by
  have hhandle : ∀ a, vm'.Reachable (.handle a) → V'.Alive a := by
    intro a ha
    rcases h.reachable_handle ha with hreach | ha | ha
    · exact hold a (hk.handle a hreach)
    · exact hN a ha
    · exact hN a ha
  refine ⟨hhandle, fun i it a hi hit ha => ?_⟩
  cases hu : it.upvalue with
  | full v =>
    rw [hu] at ha
    cases v with
    | handle b =>
      cases ha
      exact hhandle _ (.ref hi (.upvalue hit hu))
    | _ => cases ha
  | light b =>
    rw [hu] at ha
    cases ha
    rcases h.light hi hit hu with ⟨hreach, hit'⟩ | hnew
    · exact hold _ (hk.iterator i it _ hreach hit' (by rw [hu]; rfl))
    · exact hT _ hnew

namespace Evolves

theorem alive (h : Evolves l V V' vm vm') {a : ℕ} (ha : V.Alive a) : V'.Alive a := by
  obtain ⟨x, hx, hd⟩ := ha
  obtain ⟨x', hx', -, hd', -⟩ := h.old a x hx
  exact ⟨x', hx', hd'.trans hd⟩

theorem keeps (h : Evolves l V V' vm vm') (hk : Keeps V vm) : Keeps V' vm' :=
  hk.of_grows h.grows (fun _ => h.alive) (fun _ ha => by
    obtain ⟨x, hx, -, hd⟩ := ha.adapter
    exact ⟨x, hx, hd⟩) fun _ => h.alive

theorem unshared (h : Evolves l V V' vm vm') (hok : V.Ok) {P : ℕ → Prop} (hu : V.UnsharedOn P) :
    V'.UnsharedOn P := by
  intro b c f hb hc hf
  rcases h.has b f hb with hb | ⟨hb, hbf⟩ <;> rcases h.has c f hc with hc | ⟨hc, hcf⟩
  · exact hu b c f hb hc hf
  · exact absurd (hcf ▸ hb) (hok.not_has_length b)
  · exact absurd (hbf ▸ hc) (hok.not_has_length c)
  · exact hb.trans hc.symm

theorem synced (h : Evolves l V V' vm vm') (hs : Synced V vm) : Synced V' vm' := by
  intro d
  rcases h.default d with ⟨hV, hvm⟩ | hnew
  · rw [hV, hvm]
    exact hs d
  · exact hnew

theorem accounted (h : Evolves l V V' vm vm') (ha : Accounted V) : Accounted V' := by
  intro a x' hx' hd
  rcases Nat.lt_or_ge a V.adapters.length with hlt | hge
  · obtain ⟨z, hz, -, hd', hc⟩ := h.old a _ (List.getElem?_eq_getElem hlt)
    cases hx'.symm.trans hz
    exact hc.trans (ha a _ (List.getElem?_eq_getElem hlt) (hd'.symm.trans hd))
  · rw [h.new a x' hge hx'] at hd
    cases hd

end Evolves

/-! ## A new VM -/

theorem keeps_start (V : View ν) : Keeps V.start (.start V.adapters.length) where
  handle a ha := by
    obtain ⟨x, hx, -, hd⟩ := View.start_adapter ha
    exact ⟨x, hx, hd⟩
  iterator i it a _ hit := by cases hit

theorem synced_start (V : View ν) : Synced V.start (.start V.adapters.length) := by
  intro d
  cases d <;> exact ⟨_, rfl, rfl⟩

theorem Accounted.start (h : Accounted V) : Accounted V.start := by
  intro a x hx hd
  rw [View.start, List.getElem?_append] at hx
  split at hx
  · exact h a x hx hd
  · have hx := List.mem_of_getElem? hx
    simp only [List.mem_cons, List.not_mem_nil, or_false] at hx
    rcases hx with rfl | rfl | rfl <;> cases hd

/-- The first VM of the process. -/
theorem first_vm {os : Os} {w₀ : World ν Os} (h₀ : exec C (initial C os) .startvm = .ok w₀) :
    w₀.view = (initial C os).view.start ∧ w₀.view.Ok ∧ Accounted w₀.view ∧
      ∃ vm, w₀.view.vms[0]? = some vm ∧ Synced w₀.view vm ∧ Keeps w₀.view vm := by
  obtain ⟨w', hexec, hv⟩ := exec_startvm (C := C) (initial_ok C os)
  cases h₀.symm.trans hexec
  refine ⟨hv, hv ▸ (initial_ok C os).start, ?_, .start 0, ?_, ?_, ?_⟩
  · rw [hv]
    exact Accounted.start fun a x hx _ => by cases hx
  · rw [hv]
    exact View.start_vm _
  · rw [hv]
    exact synced_start _
  · rw [hv]
    exact keeps_start _

end Jord.Io
