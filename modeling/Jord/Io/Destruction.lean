import Mathlib.Data.List.Nodup
import Jord.Io.Closing

/-!
# Destruction

`Destroyed V V' as` is the change of the view when the handles `as` are destroyed, whether by the
metamethod `__gc`, by the collector or by `lua_close`.
-/

namespace Jord.Io

open Program

variable {ν Os : Type} {C : Platform ν Os} {w w' : World ν Os} {l a f : ℕ} {vm : Vm ν}

/-! ## Destruction -/

/-- The handles `as` are destroyed, and their files closed. -/
structure Destroyed (V V' : View ν) (as : List ℕ) : Prop where
  alive : ∀ a ∈ as, V.Alive a
  dead : ∀ a ∈ as, ¬ V'.Alive a
  others : ∀ b ∉ as, V'.adapters[b]? = V.adapters[b]?
  file : ∀ (f : ℕ) y, V.files[f]? = some y → ∃ y', V'.files[f]? = some y' ∧
    (y'.isOpen = true ↔ y.isOpen = true ∧
      ∀ a ∈ as, ∀ x, V.adapters[a]? = some x → x.fileHandle ≠ some f)
  vms : V'.vms = V.vms
  default : ∀ d, V'.default d = V.default d
  ok : V'.Ok

namespace Destroyed

variable {V V' V'' : View ν} {as : List ℕ}

theorem nil (hok : V.Ok) : Destroyed V V [] where
  alive _ h := by cases h
  dead _ h := by cases h
  others _ _ := rfl
  file f y hy := ⟨y, hy, by simp⟩
  vms := rfl
  default _ := rfl
  ok := hok

/-- Handles survive the destruction of others. -/
theorem alive_of_notMem (h : Destroyed V V' as) (ha : V.Alive a) (hmem : a ∉ as) : V'.Alive a := by
  obtain ⟨x, hx, hd⟩ := ha
  exact ⟨x, (h.others a hmem).trans hx, hd⟩

theorem cons (h : Destroyed V V' [a]) (h' : Destroyed V' V'' as) :
    Destroyed V V'' (a :: as) := by
  -- the handles that are destroyed later are others
  have hne : ∀ b ∈ as, b ≠ a := by
    rintro b hb rfl
    exact h.dead b (List.mem_singleton_self b) (h'.alive b hb)
  have hsame : ∀ b ∈ as, V'.adapters[b]? = V.adapters[b]? := fun b hb =>
    h.others b (by simpa using hne b hb)
  refine ⟨?_, ?_, fun b hb => ?_, fun f y hy => ?_, h'.vms.trans h.vms,
    fun d => (h'.default d).trans (h.default d), h'.ok⟩
  · refine List.forall_mem_cons.2 ⟨h.alive a (List.mem_singleton_self a), fun b hb => ?_⟩
    obtain ⟨x, hx, hd⟩ := h'.alive b hb
    exact ⟨x, hsame b hb ▸ hx, hd⟩
  · refine List.forall_mem_cons.2 ⟨?_, h'.dead⟩
    rintro ⟨x, hx, hd⟩
    have ha : a ∉ as := fun ha => hne a ha rfl
    exact h.dead a (List.mem_singleton_self a) ⟨x, h'.others a ha ▸ hx, hd⟩
  · rw [List.mem_cons, not_or] at hb
    exact (h'.others b hb.2).trans (h.others b (by simpa using hb.1))
  · obtain ⟨y', hy', hopen'⟩ := h.file f y hy
    obtain ⟨y'', hy'', hopen''⟩ := h'.file f y' hy'
    refine ⟨y'', hy'', ?_⟩
    rw [hopen'', hopen', List.forall_mem_singleton, List.forall_mem_cons, and_assoc]
    refine and_congr_right fun _ => and_congr_right fun _ => ?_
    exact forall₂_congr fun b hb => by rw [hsame b hb]

end Destroyed

/-- A handle is destroyed, and its file, if it has one, closed. -/
theorem Destroyed.single {V V' : View ν} {x : FileAdapter} (hx : V.adapters[a]? = some x)
    (hd : x.destroyed = false)
    (hadapters : V'.adapters = V.adapters.modify a fun x => { x with destroyed := true })
    (hfile : ∀ (f : ℕ) y, V.files[f]? = some y → ∃ y', V'.files[f]? = some y' ∧
      (y'.isOpen = true ↔ y.isOpen = true ∧ x.fileHandle ≠ some f))
    (hvms : V'.vms = V.vms) (hdefault : ∀ d, V'.default d = V.default d) (hok : V'.Ok) :
    Destroyed V V' [a] where
  alive := List.forall_mem_singleton.2 ⟨x, hx, hd⟩
  dead := by
    refine List.forall_mem_singleton.2 ?_
    rintro ⟨z, hz, hzd⟩
    rw [hadapters, List.getElem?_modify_eq, hx] at hz
    cases hz
    cases hzd
  others b hb := by
    have hab : a ≠ b := fun h => hb (List.mem_singleton.2 h.symm)
    simp [hadapters, hab]
  file f y hy := by
    obtain ⟨y', hy', hopen⟩ := hfile f y hy
    refine ⟨y', hy', hopen.trans (and_congr_right fun _ => ?_)⟩
    rw [List.forall_mem_singleton]
    constructor
    · intro hne z hz
      exact Option.some.inj (hx.symm.trans hz) ▸ hne
    · intro h
      exact h x hx
  vms := hvms
  default := hdefault
  ok := hok

/-- The destructor of a handle that is alive. -/
theorem destroy_alive (hok : w.view.Ok) (h : w.view.Alive a) :
    ∃ w', LuaFileAdapter.destroy C a w = .ok ⟨⟩ w' ∧ Destroyed w.view w'.view [a] ∧
      w'.view.adapters = w.view.adapters.modify a fun x => { x with destroyed := true } := by
  rcases hok.handle_cases a with hdead | ⟨x, hx, hd, hf⟩ | ⟨f, y, hholds⟩
  · exact absurd h hdead
  · obtain ⟨w', hw', hv⟩ := LuaFileAdapter.destroy_none (C := C) hx hd hf
    exact ⟨w', hw', hv ▸ .single hx hd rfl (fun g y hy => ⟨y, hy, by simp [hf]⟩) rfl
      (fun d => by cases d <;> rfl)
      (hok.modifyAdapter a (fun _ h => by cases h) fun _ _ h => h), hv ▸ rfl⟩
  · obtain ⟨x, hx, hd, hf⟩ := hholds.adapter
    obtain ⟨w', hw', hv⟩ := LuaFileAdapter.destroy_some (C := C) hx hd hf hholds.file hholds.live
    have hadapters : w'.view.adapters =
        w.view.adapters.modify a fun x => { x with destroyed := true } := by
      rw [hv, View.destroyWith, View.modifyAdapter, View.dropFile_adapters]
      rfl
    refine ⟨w', hw', .single hx hd hadapters (fun g z hz => ?_) ?_ (fun d => ?_)
      (hv ▸ hok.destroyWith hholds.adapter hholds.view_file _), hadapters⟩
    all_goals rw [hv]
    · rw [View.destroyWith, View.discharge_files, hz]
      refine ⟨_, rfl, ?_⟩
      by_cases hfg : f = g <;> simp [hfg, hf]
    · exact View.dropFile_vms _ _ _
    · exact View.discharge_default _ _ _ _ _ _ d

theorem destroy_dead (h : ¬ w.view.Alive a) :
    LuaFileAdapter.destroy C a w = .error (.fault .destroyedAdapter) w :=
  bind_of_error (LuaFileAdapter.handle_dead h)

/-! ## The metamethod and the collector -/

/-- A call of `__gc` by hand destroys the last argument. -/
theorem exec_gc (hvm : w.view.vms[l]? = some vm) (args : List (Operand ν)) :
    (∃ a, LuaValue.asHandle (args.map (Operand.eval vm)).getLast? = some a ∧
      exec C w (.action l (.gc args)) = outcome (LuaFileAdapter.destroy C a w)) ∨
    LuaValue.asHandle (args.map (Operand.eval vm)).getLast? = none ∧
      exec C w (.action l (.gc args)) = .ok w := by
  have hexec : exec C w (.action l (.gc args)) =
      outcome (LuaIOManager.gc C (args.map (Operand.eval vm)) w) := by
    rw [exec, perform, bind_of_ok (evalArgs_apply hvm args)]
  rw [hexec]
  cases ha : LuaValue.asHandle (args.map (Operand.eval vm)).getLast? with
  | some a =>
    refine .inl ⟨a, rfl, ?_⟩
    rw [LuaIOManager.gc, LuaValue.eq_of_asHandle ha]
    rfl
  | none =>
    refine .inr ⟨rfl, ?_⟩
    rw [LuaIOManager.gc]
    cases hv : (args.map (Operand.eval vm)).getLast? with
    | none => rfl
    | some v =>
      rw [hv] at ha
      cases v with
      | handle a => cases ha
      | _ => rfl

/-- The handles `as` are finalised by the collector. -/
structure Finalised (V V' : View ν) (as : List ℕ) : Prop extends Destroyed V V' as where
  collected : ∀ a ∈ as, ∀ x, V'.adapters[a]? = some x → x.collected = true

/-- The collector finalises a handle that is alive. -/
theorem finalise_alive (hok : w.view.Ok) (h : w.view.Alive a) :
    ∃ w', LuaIOManager.finalise C a w = .ok ⟨⟩ w' ∧ Finalised w.view w'.view [a] := by
  obtain ⟨x, hx, hd⟩ := h
  obtain ⟨w₁, h₁, hv₁⟩ := modifyAdapter_apply a (fun x => { x with collected := true }) w
  have hx₁ : w₁.view.adapters[a]? = some { x with collected := true } := by
    rw [hv₁, View.modifyAdapter_adapters, if_pos rfl, hx]
    rfl
  obtain ⟨w₂, h₂, hdestroyed, hadapters⟩ := destroy_alive (C := C)
    (hv₁ ▸ hok.modifyAdapter a (fun _ h => h) fun _ _ h => h) ⟨_, hx₁, hd⟩
  refine ⟨w₂, (bind_of_ok h₁).trans h₂, ⟨?_, hdestroyed.dead, fun b hb => ?_, fun f y hy => ?_,
    hdestroyed.vms.trans (hv₁ ▸ rfl), fun d => (hdestroyed.default d).trans ?_, hdestroyed.ok⟩, ?_⟩
  · exact List.forall_mem_singleton.2 ⟨x, hx, hd⟩
  · have hab : a ≠ b := fun h => hb (List.mem_singleton.2 h.symm)
    rw [hdestroyed.others b hb, hv₁, View.modifyAdapter_adapters, if_neg hab]
  · obtain ⟨y', hy', hopen⟩ := hdestroyed.file f y (hv₁ ▸ hy)
    refine ⟨y', hy', hopen.trans ?_⟩
    simp [hx, hx₁]
  · rw [hv₁]
    cases d <;> rfl
  · refine List.forall_mem_singleton.2 fun z hz => ?_
    rw [hadapters, List.getElem?_modify, hx₁] at hz
    simp at hz
    rw [← hz]

theorem finalise_dead (h : ¬ w.view.Alive a) :
    ∃ w', LuaIOManager.finalise C a w = .error (.fault .destroyedAdapter) w' := by
  obtain ⟨w₁, h₁, hv₁⟩ := modifyAdapter_apply a (fun x => { x with collected := true }) w
  have hdead : ¬ w₁.view.Alive a := by
    rintro ⟨x, hx, hd⟩
    rw [hv₁, View.modifyAdapter_adapters, if_pos rfl] at hx
    obtain ⟨z, hz, rfl⟩ := Option.map_eq_some_iff.1 hx
    exact h ⟨z, hz, hd⟩
  exact ⟨w₁, (bind_of_ok h₁).trans (destroy_dead hdead)⟩

theorem Finalised.cons {V V' V'' : View ν} {as : List ℕ} (h : Finalised V V' [a])
    (h' : Finalised V' V'' as) : Finalised V V'' (a :: as) where
  toDestroyed := h.toDestroyed.cons h'.toDestroyed
  collected := by
    refine List.forall_mem_cons.2 ⟨fun x hx => ?_, h'.collected⟩
    by_cases ha : a ∈ as
    · exact h'.collected a ha x hx
    · exact h.collected a (List.mem_singleton_self a) x (h'.others a ha ▸ hx)

/-- The collector finalises several handles; only a handle that is dead stops it. -/
theorem finaliseAll_cases (as : List ℕ) (hok : w.view.Ok) :
    (∃ w', LuaIOManager.finaliseAll C as w = .ok ⟨⟩ w' ∧ Finalised w.view w'.view as) ∨
      (∃ w', LuaIOManager.finaliseAll C as w = .error (.fault .destroyedAdapter) w') ∧
        ¬ ((∀ a ∈ as, w.view.Alive a) ∧ as.Nodup) := by
  induction as generalizing w with
  | nil => exact .inl ⟨w, rfl, .nil hok, fun _ h => by cases h⟩
  | cons a as ih =>
    by_cases halive : w.view.Alive a
    · obtain ⟨w₁, h₁, hfinal⟩ := finalise_alive (C := C) hok halive
      rcases ih hfinal.ok with ⟨w₂, h₂, hrest⟩ | ⟨⟨w₂, h₂⟩, hnot⟩
      · exact .inl ⟨w₂, (bind_of_ok h₁).trans h₂, hfinal.cons hrest⟩
      · refine .inr ⟨⟨w₂, (bind_of_ok h₁).trans h₂⟩, fun ⟨hall, hnodup⟩ => hnot ⟨?_, ?_⟩⟩
        · rw [List.nodup_cons] at hnodup
          intro b hb
          have hba : b ∉ [a] := fun h => hnodup.1 (List.mem_singleton.1 h ▸ hb)
          obtain ⟨x, hx, hd⟩ := hall b (List.mem_cons_of_mem a hb)
          exact ⟨x, hfinal.others b hba ▸ hx, hd⟩
        · exact (List.nodup_cons.1 hnodup).2
    · obtain ⟨w₁, h₁⟩ := finalise_dead (C := C) halive
      exact .inr ⟨⟨w₁, bind_of_error h₁⟩, fun h => halive (h.1 a List.mem_cons_self)⟩

theorem exec_collect (w : World ν Os) (l a : ℕ) :
    exec C w (.action l (.collect a)) = outcome (LuaIOManager.finalise C a w) := rfl

/-- A collection that ends in no fault. -/
theorem exec_collect_ok (hok : w.view.Ok) (hexec : exec C w (.action l (.collect a)) = .ok w') :
    Finalised w.view w'.view [a] := by
  by_cases halive : w.view.Alive a
  · obtain ⟨w₁, h₁, hfinal⟩ := finalise_alive (C := C) hok halive
    rw [exec_collect, h₁] at hexec
    cases hexec
    exact hfinal
  · obtain ⟨w₁, h₁⟩ := finalise_dead (C := C) halive
    rw [exec_collect, h₁] at hexec
    cases hexec

/-! ## The end of a VM -/

theorem mem_uncollected {b : ℕ} : b ∈ LuaIOManager.uncollected w l ↔
    ∃ x, w.view.adapters[b]? = some x ∧ x.owner = l ∧ x.collected = false := by
  have hlt : ∀ {x}, w.adapters[b]? = some x → b < w.adapters.length := fun hx =>
    (List.getElem?_eq_some_iff.1 hx).1
  rw [LuaIOManager.uncollected, List.mem_reverse, List.mem_filter, List.mem_range,
    Option.any_eq_true]
  constructor
  · rintro ⟨-, x, hx, h⟩
    exact ⟨x, hx, by simpa using h⟩
  · rintro ⟨x, hx, h⟩
    exact ⟨hlt hx, x, hx, by simpa using h⟩

theorem nodup_uncollected : (LuaIOManager.uncollected w l).Nodup :=
  List.nodup_reverse.2 (List.nodup_range.filter _)

/-- **`lua_close`** finalises all handles of the VM, unless one is dead already. -/
theorem exec_luaClose (hok : w.view.Ok) (l : ℕ) :
    (∃ w' V, exec C w (.luaClose l) = .ok w' ∧
        Finalised w.view V (LuaIOManager.uncollected w l) ∧
        w'.view = V.modifyVm l fun vm => { vm with isOpen := false }) ∨
      exec C w (.luaClose l) = .error .destroyedAdapter ∧
        ¬ ∀ a ∈ LuaIOManager.uncollected w l, w.view.Alive a := by
  rcases finaliseAll_cases (C := C) (LuaIOManager.uncollected w l) hok with
    ⟨w₁, h₁, hfinal⟩ | ⟨⟨w₁, h₁⟩, hnot⟩
  · obtain ⟨w₂, h₂, hv₂⟩ := modifyVm_apply l (fun vm => { vm with isOpen := false }) w₁
    refine .inl ⟨w₂, w₁.view, ?_, hfinal, hv₂⟩
    rw [exec, LuaIOManager.luaClose, bind_of_ok (get_apply w), bind_of_ok h₁, h₂]
    rfl
  · refine .inr ⟨?_, fun h => hnot ⟨h, nodup_uncollected⟩⟩
    rw [exec, LuaIOManager.luaClose, bind_of_ok (get_apply w), bind_of_error h₁]
    rfl

end Jord.Io
