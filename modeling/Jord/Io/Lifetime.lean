import Jord.Io.Interruption

/-!
# The lifetime of handles

In a run of one VM nothing that has been destroyed is ever used, provided that the script does not
call `__gc` of a handle, and that the collector finalises neither a handle while a line iterator
knows its address, nor the handle of a call while that is in progress. `lifetime_iff` says that this
is exact: the first step that breaks the condition leaves the VM, or the call, with a handle that is
dead.
-/

namespace Jord.Io

open Program

variable {ν Os : Type} {C : Platform ν Os} {w w' : World ν Os} {l : ℕ} {vm : Vm ν} {V : View ν}
  {act : Action ν}

/-- Everything that the VM refers to is alive. -/
def AllAlive (l : ℕ) (w : World ν Os) : Prop := ∀ vm, w.view.vms[l]? = some vm → Keeps w.view vm

/-- Using what has been destroyed, or destroying it again. -/
inductive UseAfterDestruction : Fault → Prop
  | destroyedAdapter : UseAfterDestruction .destroyedAdapter
  | deletedFile : UseAfterDestruction .deletedFile
  | doubleDelete : UseAfterDestruction .doubleDelete

/-- The action uses nothing that has been destroyed, and destroys nothing again. -/
def UsesAlive (C : Platform ν Os) (l : ℕ) (w : World ν Os) (act : Action ν) : Prop :=
  ∀ f, UseAfterDestruction f → exec C w (.action l act) ≠ .error f

/-- The script does not call `__gc` of a handle, and the collector does not finalise a handle while
a line iterator of the VM knows its address. -/
def SparesAlive (l : ℕ) (w : World ν Os) : Action ν → Prop
  | .gc args => ∀ vm, w.view.vms[l]? = some vm →
    LuaValue.asHandle (args.map (Operand.eval vm)).getLast? = none
  | .collect a => ∀ vm, w.view.vms[l]? = some vm → ∀ (i : ℕ) it, vm.Reachable (.iterator i) →
    vm.iterators[i]? = some it → it.upvalue ≠ .light a
  | _ => True

/-- What is true besides while nothing has gone wrong. -/
structure Tended (l : ℕ) (w : World ν Os) : Prop where
  ok : w.view.Ok
  accounted : Accounted w.view
  synced : ∃ vm, w.view.vms[l]? = some vm ∧ Synced w.view vm

/-! ## Steps -/

/-- A handle that is alive can be used, if using a file without a stream is allowed. -/
theorem View.Ok.ready {F : Fault → Prop} (hok : V.Ok) (hF : F .nullFile) {a : ℕ}
    (ha : V.Alive a) : Ready F V a := by
  obtain ⟨x, hx, hd⟩ := ha
  have hlive : ∀ z f, V.adapters[a]? = some z → z.fileHandle = some f → Live F V f := by
    intro z f hz hf
    cases hx.symm.trans hz
    exact .inr (hok.file a f ⟨x, hx, hd, hf⟩)
  exact ⟨⟨.inr ⟨x, hx, hd⟩, hlive⟩, fun z f hz hf => ⟨hlive z f hz hf, .inl hF⟩⟩

/-- A step that destroys nothing uses nothing that is dead. -/
theorem step_evolving (ht : Tended l w) (hk : AllAlive l w) (hvm : w.view.vms[l]? = some vm)
    (hact : act.isDestroying = false) :
    Evolving (fun f => ¬ UseAfterDestruction f) l w.view vm (exec C w (.action l act)) := by
  obtain ⟨vm', hvm', hsynced⟩ := ht.synced
  cases hvm.symm.trans hvm'
  have hkeeps := hk vm hvm
  have hready : ∀ a, vm.Accessible (.handle a) →
      Ready (fun f => ¬ UseAfterDestruction f) w.view a := fun a ha =>
    ht.ok.ready (fun h => by cases h) (hkeeps.handle a ha.reachable)
  refine exec_evolving ht.ok hvm (fun h => by cases h) (fun h => by cases h) (fun h => by cases h)
    (fun h => by cases h) ⟨.inr fun d => ?_, fun d a ha => hready a (hsynced.accessible ha), hready⟩
    (fun i it a hi hit ha => .inr (hkeeps.iterator i it a hi hit ha)) hact
  obtain ⟨a, ha, -⟩ := hsynced d
  simp [ha]

/-- A call of `__gc` of a handle leaves the VM with a handle that is dead. -/
theorem step_gc (ht : Tended l w) (hk : AllAlive l w) (hvm : w.view.vms[l]? = some vm)
    (args : List (Operand ν)) :
    (LuaValue.asHandle (args.map (Operand.eval vm)).getLast? = none ∧
      exec C w (.action l (.gc args)) = .ok w) ∨
    LuaValue.asHandle (args.map (Operand.eval vm)).getLast? ≠ none ∧
      ∃ w', exec C w (.action l (.gc args)) = .ok w' ∧ ¬ AllAlive l w' := by
  rcases exec_gc (C := C) hvm args with ⟨a, ha, hexec⟩ | hnone
  · have hlast := LuaValue.eq_of_asHandle ha
    have hacc : vm.Accessible (.handle a) := accessible_arg (List.mem_of_getLast? hlast)
    obtain ⟨w', hw', hdestroyed, -⟩ := destroy_alive (C := C) ht.ok
      ((hk vm hvm).handle a hacc.reachable)
    refine .inr ⟨by rw [ha]; exact Option.some_ne_none a, w', by rw [hexec, hw']; rfl,
      fun hk' => ?_⟩
    exact hdestroyed.dead a (List.mem_singleton_self a)
      ((hk' vm (hdestroyed.vms ▸ hvm)).handle a hacc.reachable)
  · exact .inl hnone

/-- The collector finalises a handle; what else the VM refers to stays alive, unless a line iterator
knows the address of the handle. -/
theorem step_collect {a : ℕ} (ht : Tended l w) (hk : AllAlive l w)
    (hvm : w.view.vms[l]? = some vm) (hc : Collectable w.view l a) :
    ∃ w', exec C w (.action l (.collect a)) = .ok w' ∧ Finalised w.view w'.view [a] ∧
      (AllAlive l w' ↔ SparesAlive l w (.collect a)) := by
  obtain ⟨x, hx, -, hcollected⟩ := hc.adapter
  have hd : x.destroyed = false := by
    by_contra hd
    have := ht.accounted a x hx (Bool.not_eq_false _ ▸ hd)
    simp [this] at hcollected
  obtain ⟨w', hw', hfinal⟩ := finalise_alive (C := C) ht.ok ⟨x, hx, hd⟩
  have hdead := hfinal.dead a (List.mem_singleton_self a)
  have hkeeps := hk vm hvm
  have hvm' : w'.view.vms[l]? = some vm := hfinal.vms ▸ hvm
  refine ⟨w', by rw [exec_collect, hw']; rfl, hfinal, ?_, fun hspares z hz => ?_⟩
  · intro hk' z hz i it hi hit hlight
    cases hvm.symm.trans hz
    exact hdead ((hk' vm hvm').iterator i it a hi hit (by rw [hlight]; rfl))
  · cases hvm'.symm.trans hz
    have hne : ∀ b, vm.Reachable (.handle b) → b ∉ [a] := fun b hb hba =>
      hc.unreferenced vm hvm (List.mem_singleton.1 hba ▸ hb)
    refine ⟨fun b hb => hfinal.alive_of_notMem (hkeeps.handle b hb) (hne b hb),
      fun i it b hi hit hb => hfinal.alive_of_notMem (hkeeps.iterator i it b hi hit hb) ?_⟩
    rw [List.mem_singleton]
    rintro rfl
    cases hu : it.upvalue with
    | full v =>
      rw [hu] at hb
      cases v with
      | handle c =>
        cases hb
        exact hne _ (.ref hi (.upvalue hit hu)) (List.mem_singleton_self _)
      | _ => cases hb
    | light c =>
      rw [hu] at hb
      cases hb
      exact hspares vm hvm i it hi hit hu

theorem Tended.of_evolves {vm' : Vm ν} (ht : Tended l w) (h : Evolves l w.view w'.view vm vm') :
    Tended l w' := by
  obtain ⟨vm₀, hvm₀, hsynced⟩ := ht.synced
  cases h.before.symm.trans hvm₀
  exact ⟨h.ok, h.accounted ht.accounted, vm', h.after, h.synced hsynced⟩

theorem Tended.of_finalised {as : List ℕ} (ht : Tended l w) (h : Finalised w.view w'.view as) :
    Tended l w' := by
  obtain ⟨vm, hvm, hsynced⟩ := ht.synced
  refine ⟨h.ok, fun b x hx hd => ?_, vm, h.vms ▸ hvm, fun d => h.default d ▸ hsynced d⟩
  by_cases hb : b ∈ as
  · exact h.collected b hb x hx
  · exact ht.accounted b x (h.others b hb ▸ hx) hd

theorem usesAlive_of_ok (hexec : exec C w (.action l act) = .ok w') : UsesAlive C l w act :=
  fun f _ => by simp [hexec]

/-- **One action.** The condition says exactly whether the action uses nothing that is dead and
leaves everything alive that the VM refers to. -/
theorem step_alive (ht : Tended l w) (hk : AllAlive l w) (hen : (script C l).enabled w act) :
    (SparesAlive l w act ↔ UsesAlive C l w act ∧
      ∀ w', exec C w (.action l act) = .ok w' → AllAlive l w') ∧
    ∀ w', exec C w (.action l act) = .ok w' → AllAlive l w' → Tended l w' := by
  obtain ⟨vm, hvm, -⟩ := ht.synced
  by_cases hact : act.isDestroying = false
  · have hspares : SparesAlive l w act := by
      cases act <;> first | exact trivial | cases hact
    rcases step_evolving ht hk hvm hact with ⟨w₁, vm₁, hexec, hev⟩ | ⟨f, hexec, hf⟩
    · have hk₁ : AllAlive l w₁ := fun vm' hvm' => by
        cases hev.after.symm.trans hvm'
        exact hev.keeps (hk vm hvm)
      exact Machine.exact_inv_of_ok (M := script C l) hexec (usesAlive_of_ok hexec)
        (iff_of_true hspares hk₁) fun _ => ht.of_evolves hev
    · refine Machine.exact_inv_of_error (M := script C l) hexec (iff_of_true hspares ?_)
      intro g hg h
      cases hexec.symm.trans h
      exact hf hg
  · cases act with
    | gc args =>
      have hiff : SparesAlive l w (.gc args) ↔
          LuaValue.asHandle (args.map (Operand.eval vm)).getLast? = none := by
        refine ⟨fun h => h vm hvm, fun h z hz => ?_⟩
        cases hvm.symm.trans hz
        exact h
      rcases step_gc (C := C) ht hk hvm args with ⟨hnone, hexec⟩ | ⟨hsome, w₁, hexec, hnot⟩
      · exact Machine.exact_inv_of_ok (M := script C l) hexec (usesAlive_of_ok hexec)
          (iff_of_true (hiff.2 hnone) hk) fun _ => ht
      · exact Machine.exact_inv_of_ok (M := script C l) hexec (usesAlive_of_ok hexec)
          (iff_of_false (mt hiff.1 hsome) hnot) fun h => absurd h hnot
    | collect a =>
      obtain ⟨w₁, hexec, hfinal, hiff⟩ := step_collect (C := C) ht hk hvm hen.1.2
      exact Machine.exact_inv_of_ok (M := script C l) hexec (usesAlive_of_ok hexec) hiff.symm
        fun _ => ht.of_finalised hfinal
    | _ => exact absurd rfl hact

/-! ## Calls in progress -/

/-- Everything that the VM refers to is alive, and so is the handle of a call in progress. -/
structure NothingDead (l : ℕ) (s : World ν Os × Option (Frame ν)) : Prop where
  vm : AllAlive l s.1
  call : ∀ fr a, s.2 = some fr → fr.self = some a → s.1.view.Alive a

/-- What happens uses nothing that has been destroyed, and destroys nothing again. -/
def TurnUsesAlive (C : Platform ν Os) (l : ℕ) (s : World ν Os × Option (Frame ν)) (t : Turn ν) :
    Prop :=
  ∀ f, UseAfterDestruction f → (interruptible C l).step s t ≠ .error f

/-- An action spares what is alive, and the handle of a call in progress. -/
def TurnSpares (l : ℕ) (s : World ν Os × Option (Frame ν)) : Turn ν → Prop
  | .act act => SparesAlive l s.1 act ∧
    ∀ fr a, s.2 = some fr → fr.self = some a → act ≠ .collect a
  | _ => True

/-- What is true besides; no call in progress is one of `__gc`. -/
structure Attended (l : ℕ) (s : World ν Os × Option (Frame ν)) : Prop where
  tended : Tended l s.1
  call : ∀ fr, s.2 = some fr → fr.call.isDestroying = false

theorem Tended.setLocals (ht : Tended l w) (g : List (LuaValue ν) → List (LuaValue ν)) :
    Tended l (w.setLocals l g) := by
  obtain ⟨vm, hvm, hsynced⟩ := ht.synced
  exact ⟨ht.ok.congr rfl rfl, ht.accounted, _, World.setLocals_vm hvm, fun d => by
    obtain ⟨a, ha, hdefault⟩ := hsynced d
    cases d <;> exact ⟨a, ha, hdefault⟩⟩

/-- New local variables that hold what the script knows, or handles that are alive. -/
theorem AllAlive.setLocals {g : List (LuaValue ν) → List (LuaValue ν)} (hk : AllAlive l w)
    (hg : ∀ vm, w.view.vms[l]? = some vm → ∀ v ∈ g vm.locals, vm.Known w.view.Alive v) :
    AllAlive l (w.setLocals l g) := by
  intro z hz
  obtain ⟨vm, hvm, rfl⟩ := Option.map_eq_some_iff.1 ((List.getElem?_modify_eq _ l _).symm.trans hz)
  exact (hk vm hvm).of_grows (N := w.view.Alive) (T := fun _ => False)
    (Vm.grows_script (hg vm hvm) Vm.field_of_getElem?) (fun _ h => h) (fun _ h => h)
    fun _ h => h.elim

/-- A call begins. -/
theorem enter_alive {s : World ν Os × Option (Frame ν)} {call : Action ν} {temporaries : List ℕ}
    (ht : Attended l s) (hs : NothingDead l s) (hcall : call.isCall) :
    NothingDead l (enter l call temporaries s.1) ∧ Attended l (enter l call temporaries s.1) := by
  obtain ⟨vm, hvm, -⟩ := ht.tended.synced
  have hvm' : s.1.vms[l]? = some vm := hvm
  have hdestroying : ∀ base, (call.onSlots base).isDestroying = false := fun base => by
    cases call <;> first | rfl | cases hcall
  unfold enter
  rw [hvm']
  dsimp only
  have htended := ht.tended.setLocals fun locals =>
    locals.mapIdx (fun i v => if i ∈ temporaries then .nil else v) ++ stackValues vm call
  refine ⟨⟨hs.vm.setLocals fun z hz v hv => ?_, fun fr a hfr ha => ?_⟩, htended,
    fun fr hfr => ?_⟩
  · cases hvm.symm.trans hz
    rcases List.mem_append.1 hv with hv | hv
    · obtain ⟨i, hi, rfl⟩ := List.mem_mapIdx.1 hv
      split
      · exact Vm.known_nil
      · exact Vm.known_local (List.getElem_mem hi)
    · have hvs : ∀ v ∈ call.operands.map (Operand.eval vm), vm.Known s.1.view.Alive v := by
        intro v hv
        obtain ⟨o, -, rfl⟩ := List.mem_map.1 hv
        exact Vm.known_eval o
      unfold stackValues at hv
      dsimp only at hv
      split at hv
      · rcases List.mem_cons.1 hv with rfl | hv
        · exact Vm.known_nil
        · exact hvs v (List.mem_of_mem_tail hv)
      · exact hvs v hv
  · obtain rfl := Option.some.inj hfr
    obtain ⟨-, vs, hvs⟩ := Action.self_eq_some ha
    have hacc : vm.Accessible (.handle a) := accessible_arg (hvs ▸ List.mem_cons_self)
    exact (hs.vm vm hvm).handle a hacc.reachable
  · obtain rfl := Option.some.inj hfr
    exact hdestroying _

/-- The rest of a call that has its handle. -/
theorem resume_alive {fr : Frame ν} (ht : Tended l w) (hk : AllAlive l w)
    (hself : ∀ a, fr.self = some a → w.view.Alive a) (hcall : fr.call.isDestroying = false) :
    (∃ w', resume C l fr w = .ok w' ∧ AllAlive l w' ∧ Tended l w') ∨
      ∃ f, resume C l fr w = .error f ∧ ¬ UseAfterDestruction f := by
  have hk₁ : AllAlive l (fr.restore l w) := hk.setLocals fun vm _ v hv => by
    cases hfr : fr.self with
    | none =>
      rw [hfr] at hv
      exact Vm.known_local hv
    | some a =>
      rw [hfr] at hv
      rcases List.mem_or_eq_of_mem_set hv with hv | rfl
      · exact Vm.known_local hv
      · exact .inr (.handle (hself a hfr))
  have ht₁ : Tended l (fr.restore l w) := ht.setLocals _
  obtain ⟨vm, hvm, -⟩ := ht₁.synced
  rcases step_evolving (C := C) ht₁ hk₁ hvm hcall with ⟨w₂, vm₂, hexec, hev⟩ | ⟨f, hexec, hf⟩
  · have hk₂ : AllAlive l w₂ := fun z hz => by
      cases hev.after.symm.trans hz
      exact hev.keeps (hk₁ vm hvm)
    refine .inl ⟨fr.clear l w₂, by rw [resume, hexec]; rfl, hk₂.setLocals fun z _ v hv => ?_,
      (ht₁.of_evolves hev).setLocals _⟩
    rcases List.mem_append.1 hv with hv | hv
    · exact Vm.known_local (List.mem_of_mem_take hv)
    · exact Vm.known_local (List.mem_of_mem_drop hv)
  · exact .inr ⟨f, by rw [resume, hexec]; rfl, hf⟩

theorem turnUsesAlive_of_ok {s s' : World ν Os × Option (Frame ν)} {t : Turn ν}
    (hstep : (interruptible C l).step s t = .ok s') : TurnUsesAlive C l s t :=
  fun f _ => by simp [hstep]

/-- The condition says exactly whether the turn uses nothing that is dead and leaves everything
alive that the VM refers to, and the handle of a call in progress. -/
def ExactTurn (C : Platform ν Os) (l : ℕ) (s : World ν Os × Option (Frame ν)) (t : Turn ν) : Prop :=
  (TurnSpares l s t ↔ TurnUsesAlive C l s t ∧
    ∀ s', (interruptible C l).step s t = .ok s' → NothingDead l s') ∧
  ∀ s', (interruptible C l).step s t = .ok s' → NothingDead l s' → Attended l s'

/-- An action while no call is in progress. -/
theorem act_alive (ht : Attended l (w, none)) (hs : NothingDead l (w, none))
    (hen : (script C l).enabled w act) : ExactTurn C l (w, none) (.act act) := by
  obtain ⟨hiff, hnext⟩ := step_alive (C := C) ht.tended hs.vm hen
  have hspares : TurnSpares l (w, none) (.act act) ↔ SparesAlive l w act :=
    and_iff_left fun fr a h => by cases h
  have hstep : ∀ {r}, exec C w (.action l act) = r →
      (interruptible C l).step (w, none) (.act act) = r.map fun w => (w, none) := fun h => by
    rw [← h]
    rfl
  cases hexec : exec C w (.action l act) with
  | ok w₁ =>
    have hdone := hstep hexec
    refine Machine.exact_inv_of_ok hdone (turnUsesAlive_of_ok hdone) ?_ fun h =>
      ⟨hnext w₁ hexec h.vm, fun fr h => by cases h⟩
    rw [hspares, hiff]
    refine ⟨fun h => ⟨h.2 w₁ hexec, fun fr a h => by cases h⟩, fun h =>
      ⟨usesAlive_of_ok hexec, fun w' hw' => ?_⟩⟩
    cases hexec.symm.trans hw'
    exact h.vm
  | error f =>
    refine Machine.exact_inv_of_error (hstep hexec) ?_
    rw [hspares, hiff]
    constructor
    · intro h g hg hfault
      rw [hstep hexec] at hfault
      cases hfault
      exact h.1 _ hg hexec
    · refine fun h => ⟨fun g hg hfault => ?_, fun w' hw' => ?_⟩
      · cases hexec.symm.trans hfault
        exact h _ hg (hstep hexec)
      · cases hexec.symm.trans hw'

/-- A collection during a call. -/
theorem collect_alive {fr : Frame ν} {a : ℕ} (ht : Attended l (w, some fr))
    (hs : NothingDead l (w, some fr)) (hc : Collectable w.view l a) :
    ExactTurn C l (w, some fr) (.act (.collect a)) := by
  obtain ⟨vm, hvm, -⟩ := ht.tended.synced
  obtain ⟨w₁, hexec, hfinal, hiff⟩ := step_collect (C := C) ht.tended hs.vm hvm hc
  have hdone : (interruptible C l).step (w, some fr) (.act (.collect a)) = .ok (w₁, some fr) :=
    congrArg (Except.map _) hexec
  refine Machine.exact_inv_of_ok hdone (turnUsesAlive_of_ok hdone) ⟨fun h =>
    ⟨hiff.2 h.1, ?_⟩, fun h => ⟨hiff.1 h.vm, ?_⟩⟩ fun _ => ⟨ht.tended.of_finalised hfinal, ht.call⟩
  · rintro fr' b hfr hb
    have hne : b ∉ [a] := by
      rw [List.mem_singleton]
      rintro rfl
      exact h.2 fr' b hfr hb rfl
    exact hfinal.alive_of_notMem (hs.call fr' b hfr hb) hne
  · rintro fr' b hfr hb ⟨⟩
    exact hfinal.dead _ (List.mem_singleton_self _) (h.call fr' _ hfr hb)

/-- **One turn.** -/
theorem turn_alive {s : World ν Os × Option (Frame ν)} {t : Turn ν} (ht : Attended l s)
    (hs : NothingDead l s) (hen : (interruptible C l).enabled s t) : ExactTurn C l s t := by
  cases t with
  | act act =>
    obtain ⟨w, _ | fr⟩ := s
    · exact act_alive ht hs hen.2
    · obtain ⟨a, rfl⟩ := hen.1.resolve_left (by simp)
      exact collect_alive ht hs hen.2.1.2
  | enter call temporaries =>
    obtain ⟨hdead, hattended⟩ : NothingDead l (enter l call temporaries s.1) ∧
      Attended l (enter l call temporaries s.1) := enter_alive ht hs hen.2.2
    exact Machine.exact_inv_of_ok rfl (turnUsesAlive_of_ok rfl) (iff_of_true trivial hdead)
      fun _ => hattended
  | resume =>
    obtain ⟨fr, hfr, -⟩ := hen
    have hstep : (interruptible C l).step s .resume =
        (resume C l fr s.1).map fun w => (w, none) := by
      change s.2.elim _ _ = _
      rw [hfr]
      rfl
    rcases resume_alive (C := C) ht.tended hs.vm (fun a => hs.call fr a hfr) (ht.call fr hfr) with
      ⟨w', hw', hk', ht'⟩ | ⟨f, hw', hf⟩
    · have hdone : (interruptible C l).step s .resume = .ok (w', none) := by rw [hstep, hw']; rfl
      exact Machine.exact_inv_of_ok hdone (turnUsesAlive_of_ok hdone)
        (iff_of_true trivial ⟨hk', fun fr a h => by cases h⟩) fun _ =>
          ⟨ht', fun fr h => by cases h⟩
    · have hfault : (interruptible C l).step s .resume = .error f := by rw [hstep, hw']; rfl
      refine Machine.exact_inv_of_error hfault (iff_of_true trivial fun g hg h => ?_)
      cases hfault.symm.trans h
      exact hf hg

/-! ## Runs -/

/-- **Handle lifetime.** In a run of one VM, in which collections may interrupt calls, everything
that happens spares what is alive if and only if nothing uses what has been destroyed or destroys it
again, and in every state all that the VM refers to is alive, what its line iterators read from and
the handle of a call in progress included. -/
theorem lifetime_iff {os : Os} {w₀ : World ν Os} (h₀ : exec C (initial C os) .startvm = .ok w₀)
    {ts : List (Turn ν)}
    (hrun : (interruptible C 0).Along (interruptible C 0).enabled (w₀, none) ts) :
    (interruptible C 0).Along (TurnSpares 0) (w₀, none) ts ↔
      (interruptible C 0).Along (TurnUsesAlive C 0) (w₀, none) ts ∧
        (interruptible C 0).Throughout (NothingDead 0) (w₀, none) ts := by
  obtain ⟨-, hok, haccounted, vm, hvm, hsynced, hkeeps⟩ := first_vm h₀
  have hk : AllAlive 0 w₀ := fun z hz => by
    cases hvm.symm.trans hz
    exact hkeeps
  exact Machine.along_iff
    (fun s t s' ht hs hen hs' => (turn_alive ht hs hen).2 s' hs')
    (fun s t ht hs hen => (turn_alive ht hs hen).1)
    ⟨⟨hok, haccounted, vm, hvm, hsynced⟩, fun fr h => by cases h⟩
    ⟨hk, fun fr a h => by cases h⟩ hrun

/-! ## A line iterator that outlives its handle -/

/-- `f = io.open("f"); it = f:lines(); f = nil`, a collection, and a call of `it`. -/
def orphan : List (Turn ℤ) :=
  [.act (.call .open [.string (Str.ascii "f")]), .act (.method .lines [.slot 1]),
    .act (.assign 1 (.constant .nil rfl)), .act (.collect 3), .act (.iterate (.slot 2))]

/-- `io.open("f"):read()`, with a collection during the call of `read`. -/
def temporary : List (Turn ℤ) :=
  [.act (.call .open [.string (Str.ascii "f")]), .enter (.method .read [.slot 1]) [1],
    .act (.collect 3), .resume]

/-- What happens in the VM, on the null device. -/
abbrev nullVm : Machine (World ℤ ℕ × Option (Frame ℤ)) (Turn ℤ) Fault := interruptible nullDevice 0

theorem isOpen_of_vm {w : World ℤ ℕ} {vm : Vm ℤ} (h : w.view.vms[0]? = some vm) (hvm : vm.isOpen) :
    IsOpen w.view 0 :=
  ⟨vm, h, hvm⟩

namespace Orphan

/-- The state after `f:lines()`. -/
def iterating : World ℤ ℕ × Option (Frame ℤ) :=
  nullVm.next (nullVm.next (oneVm, none) orphan[0]) orphan[1]

/-- The state after `f = nil`. -/
def dropped : World ℤ ℕ × Option (Frame ℤ) := nullVm.next iterating orphan[2]

/-- The state after the collection. -/
def collected : World ℤ ℕ × Option (Frame ℤ) := nullVm.next dropped orphan[3]

theorem collectable : Collectable dropped.1.view 0 3 where
  adapter := ⟨_, rfl, rfl, rfl⟩
  unreferenced vm hvm := by
    have hvm' : dropped.1.view.vms[0]? = some { (Vm.start 0 : Vm ℤ) with
        locals := [.table 0, .nil, .iterator 0]
        iterators := [⟨.light 3, false⟩] } := rfl
    cases hvm'.symm.trans hvm
    exact Vm.not_reachable (by decide) (by decide) (by decide)

theorem enabled : nullVm.Along nullVm.enabled (oneVm, none) orphan := by
  refine .cons ⟨.inl rfl, machine_enabled (isOpen_of_vm rfl rfl) rfl⟩ rfl ?_
  refine .cons ⟨.inl rfl, machine_enabled (isOpen_of_vm rfl rfl) rfl⟩ (t := iterating) rfl ?_
  refine .cons ⟨.inl rfl, machine_enabled (isOpen_of_vm rfl rfl) rfl⟩ (t := dropped) rfl ?_
  refine .cons ⟨.inl rfl, machine_enabled ⟨isOpen_of_vm rfl rfl, collectable⟩ rfl⟩
    (t := collected) rfl ?_
  exact .fault ⟨.inl rfl, machine_enabled_fault (isOpen_of_vm rfl rfl) rfl (by decide)⟩ rfl

/-- The call uses the handle after its destruction. -/
theorem not_usesAlive : ¬ nullVm.Along (TurnUsesAlive nullDevice 0) (oneVm, none) orphan := by
  intro h
  have h₄ := (((h.tail rfl).tail (t := iterating) rfl).tail (t := dropped) rfl).tail
    (t := collected) rfl
  exact h₄.1 _ .destroyedAdapter rfl

end Orphan

namespace Temporary

/-- The state in the call of `read`. -/
def entered : World ℤ ℕ × Option (Frame ℤ) :=
  nullVm.next (nullVm.next (oneVm, none) temporary[0]) temporary[1]

/-- The state after the collection. -/
def collected : World ℤ ℕ × Option (Frame ℤ) := nullVm.next entered temporary[2]

theorem collectable : Collectable entered.1.view 0 3 where
  adapter := ⟨_, rfl, rfl, rfl⟩
  unreferenced vm hvm := by
    have hvm' : entered.1.view.vms[0]? = some { (Vm.start 0 : Vm ℤ) with
        locals := [.table 0, .nil, .nil] } := rfl
    cases hvm'.symm.trans hvm
    exact Vm.not_reachable (by decide) (by decide) (by decide)

theorem enabled : nullVm.Along nullVm.enabled (oneVm, none) temporary := by
  refine .cons ⟨.inl rfl, machine_enabled (isOpen_of_vm rfl rfl) rfl⟩ rfl ?_
  refine .cons ⟨rfl, isOpen_of_vm rfl rfl, rfl⟩ (t := entered) rfl ?_
  refine .cons ⟨.inr ⟨3, rfl⟩, machine_enabled ⟨isOpen_of_vm rfl rfl, collectable⟩ rfl⟩
    (t := collected) rfl ?_
  refine .fault (f := .destroyedAdapter) ⟨_, rfl, fun h => ?_⟩ rfl
  cases h

/-- The rest of the call uses the handle after its destruction. -/
theorem not_usesAlive : ¬ nullVm.Along (TurnUsesAlive nullDevice 0) (oneVm, none) temporary := by
  intro h
  have h₃ := ((h.tail rfl).tail (t := entered) rfl).tail (t := collected) rfl
  exact h₃.1 _ .destroyedAdapter rfl

end Temporary

/-- A run of one VM in which a line iterator reads from a handle that is dead, and one in which a
method does. -/
theorem lifetime_counterexample :
    exec nullDevice (initial nullDevice 0) .startvm = .ok oneVm ∧
      (nullVm.Along nullVm.enabled (oneVm, none) orphan ∧
        ¬ nullVm.Along (TurnUsesAlive nullDevice 0) (oneVm, none) orphan) ∧
      nullVm.Along nullVm.enabled (oneVm, none) temporary ∧
        ¬ nullVm.Along (TurnUsesAlive nullDevice 0) (oneVm, none) temporary :=
  ⟨rfl, ⟨Orphan.enabled, Orphan.not_usesAlive⟩, Temporary.enabled, Temporary.not_usesAlive⟩

theorem lifetime_iff_orphan :
    (nullVm.Along (TurnSpares 0) (oneVm, none) orphan ↔
      nullVm.Along (TurnUsesAlive nullDevice 0) (oneVm, none) orphan ∧
        nullVm.Throughout (NothingDead 0) (oneVm, none) orphan) ∧
    (nullVm.Along (TurnSpares 0) (oneVm, none) temporary ↔
      nullVm.Along (TurnUsesAlive nullDevice 0) (oneVm, none) temporary ∧
        nullVm.Throughout (NothingDead 0) (oneVm, none) temporary) :=
  ⟨lifetime_iff rfl Orphan.enabled, lifetime_iff rfl Temporary.enabled⟩

end Jord.Io
