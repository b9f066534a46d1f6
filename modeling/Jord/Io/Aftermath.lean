import Jord.Io.Evolution

/-!
# Streams that end

`Ends` lists the ways in which an event takes the file of a handle: a call of `close`, a line
iterator that closes its file at the end, and the destructor, called by hand, by the collector or
at the end of a VM. `action_aftermath` says that nothing else does, and what is left afterwards.
-/

namespace Jord.Io

open Program

variable {ν Os : Type} {C : Platform ν Os} {w w' : World ν Os} {l a b f g : ℕ} {vm : Vm ν}
  {V V' : View ν} {act : Action ν} {y z : BoostFile}

/-! ## The events -/

/-- The event closes the file `f`, which is `y`, of the handle `a`. -/
inductive Ends (C : Platform ν Os) (w : World ν Os) : Event ν → ℕ → ℕ → BoostFile → Prop
  | close {l a f : ℕ} {y : BoostFile} {vm : Vm ν} {act : Action ν}
      (hvm : w.view.vms[l]? = some vm) (ht : closeTarget w.view vm act = some a)
      (h : Holds w a f y) : Ends C w (.action l act) a f y
  | iterate {l a f : ℕ} {y : BoostFile} {vm : Vm ν} {o : Operand ν} {it : Iterator ν}
      (hvm : w.view.vms[l]? = some vm) (hit : calledIterator vm (o.eval vm) = some it)
      (h : Exhausts C w it a f y) : Ends C w (.action l (.iterate o)) a f y
  | gc {l a f : ℕ} {y : BoostFile} {vm : Vm ν} {args : List (Operand ν)}
      (hvm : w.view.vms[l]? = some vm)
      (ha : LuaValue.asHandle (args.map (Operand.eval vm)).getLast? = some a)
      (h : Holds w a f y) : Ends C w (.action l (.gc args)) a f y
  | collect {l a f : ℕ} {y : BoostFile} (h : Holds w a f y) :
      Ends C w (.action l (.collect a)) a f y
  /-- `lua_close` finalises all handles, provided that none is dead. -/
  | luaClose {l a f : ℕ} {y : BoostFile}
      (halive : ∀ b ∈ LuaIOManager.uncollected w l, w.view.Alive b)
      (ha : a ∈ LuaIOManager.uncollected w l) (h : Holds w a f y) : Ends C w (.luaClose l) a f y

theorem Ends.holds {e : Event ν} (h : Ends C w e a f y) : Holds w a f y := by
  cases h with
  | close _ _ h => exact h
  | iterate _ _ h => exact h.holds
  | gc _ _ h => exact h
  | collect h => exact h
  | luaClose _ _ h => exact h

/-- An action closes the file of one handle at most. -/
theorem Ends.unique (h : Ends C w (.action l act) a f y) (h' : Ends C w (.action l act) b g z) :
    a = b ∧ f = g ∧ y = z := by
  have hab : a = b := by
    cases h with
    | close hvm ht h =>
      cases h' with
      | close hvm' ht' h' =>
        cases hvm.symm.trans hvm'
        exact Option.some.inj (ht.symm.trans ht')
      | iterate => cases ht
      | gc => cases ht
      | collect => cases ht
    | iterate hvm hit h =>
      cases h' with
      | close _ ht' => cases ht'
      | iterate hvm' hit' h' =>
        cases hvm.symm.trans hvm'
        cases hit.symm.trans hit'
        exact Option.some.inj (h.upvalue.symm.trans h'.upvalue)
    | gc hvm ha h =>
      cases h' with
      | close _ ht' => cases ht'
      | gc hvm' ha' h' =>
        cases hvm.symm.trans hvm'
        exact Option.some.inj (ha.symm.trans ha')
    | collect h =>
      cases h' with
      | close _ ht' => cases ht'
      | collect h' => rfl
  subst hab
  exact ⟨rfl, h.holds.unique h'.holds⟩

/-! ## What is left -/

/-- The handle `a` has lost its file `f`, or the file its stream; all else is as before. -/
structure Loses (V V' : View ν) (a f : ℕ) : Prop where
  length : V'.adapters.length = V.adapters.length
  others : ∀ b g, b ≠ a → (V'.Has b g ↔ V.Has b g)
  self : ∀ g, V'.Has a g → V.Has a g
  fresh : V'.files.length = V.files.length
  file : ∀ (g : ℕ) x, V.files[g]? = some x → ∃ x', V'.files[g]? = some x' ∧
    x'.isStdFile = x.isStdFile ∧ (x'.isOpen = true ↔ x.isOpen = true ∧ g ≠ f)

/-- Handles and files are as before. -/
structure Idle (V V' : View ν) : Prop where
  length : V'.adapters.length = V.adapters.length
  has : ∀ b g, V'.Has b g ↔ V.Has b g
  files : V'.files = V.files
  count : V'.openedFilesCount = V.openedFilesCount

theorem loses_closeFile (V : View ν) (a f : ℕ) : Loses V (V.closeFile f) a f where
  length := rfl
  others _ _ _ := Iff.rfl
  self _ h := h
  fresh := by simp [View.closeFile]
  file g x hx := by
    by_cases hfg : f = g
    · subst hfg
      exact ⟨⟨false, x.ownsFile, x.isStdFile, x.deleted⟩, by rw [View.closeFile_files, hx]; rfl,
        rfl, by simp⟩
    · exact ⟨x, (View.closeFile_files_of_ne hfg).trans hx, rfl, by simp [Ne.symm hfg]⟩

theorem has_modifyAdapter_iff {k : FileAdapter → FileAdapter} (hba : b ≠ a) :
    (V.modifyAdapter a k).Has b g ↔ V.Has b g := by
  simp only [View.Has, View.modifyAdapter_adapters, if_neg hba.symm]

/-- A handle gives up its file, or is destroyed. -/
theorem loses_discharge (V : View ν) (a f : ℕ) (n : ℤ) (isStdFile : Bool)
    {k : FileAdapter → FileAdapter} (hk : ∀ x, (k x).destroyed = false → x.destroyed = false)
    (hf : ∀ x f, (k x).fileHandle = some f → x.fileHandle = some f) :
    Loses V ((((V.closeFile f).count n).dropFile f isStdFile).modifyAdapter a k) a f where
  length := by simp [View.modifyAdapter, View.closeFile, View.count]
  others b g hba := by
    rw [has_modifyAdapter_iff hba, View.Has, View.dropFile_adapters]
    rfl
  self g h := by
    obtain ⟨x, hx, h⟩ := View.has_modifyAdapter hk hf h
    rw [View.dropFile_adapters] at hx
    exact ⟨x, hx, h⟩
  fresh := by cases isStdFile <;> simp [View.modifyAdapter, View.dropFile, View.deleteFile,
    View.closeFile]
  file g x hx := by
    rw [View.discharge_files, hx]
    refine ⟨_, rfl, ?_, ?_⟩
    · split <;> rfl
    · by_cases hfg : f = g
      · simp [hfg]
      · simp [hfg, Ne.symm hfg]

theorem Loses.keep (h : Loses V V' a f) (l : ℕ) (vs : List (LuaValue ν)) :
    Loses V (V'.keep l vs) a f :=
  ⟨h.length, h.others, h.self, h.fresh, h.file⟩

theorem Idle.loses {W : View ν} (h : Idle V W) (h' : Loses W V' a f) : Loses V V' a f where
  length := h'.length.trans h.length
  others b g hba := (h'.others b g hba).trans (h.has b g)
  self g hg := (h.has a g).1 (h'.self g hg)
  fresh := h'.fresh.trans (by rw [h.files])
  file g x hx := h'.file g x (h.files ▸ hx)

theorem Idle.trans {W : View ν} (h : Idle V W) (h' : Idle W V') : Idle V V' where
  length := h'.length.trans h.length
  has b g := (h'.has b g).trans (h.has b g)
  files := h'.files.trans h.files
  count := h'.count.trans h.count

/-- A change of a handle that leaves its file alone. -/
theorem idle_modifyAdapter {k : FileAdapter → FileAdapter}
    (hk : ∀ g, (V.modifyAdapter a k).Has a g ↔ V.Has a g) : Idle V (V.modifyAdapter a k) where
  length := by simp [View.modifyAdapter]
  has b g := by
    by_cases hba : b = a
    · exact hba ▸ hk g
    · exact has_modifyAdapter_iff hba
  files := rfl
  count := rfl

/-! ## The destructor -/

/-- The destructor ends the stream of the handle, if it has a file. -/
theorem destroy_aftermath (hok : w.view.Ok) (h : w.view.Alive a) :
    ∃ w', LuaFileAdapter.destroy C a w = .ok ⟨⟩ w' ∧
      (w.view.Released a ∧ Idle w.view w'.view ∨ ∃ f y, Holds w a f y ∧
        Loses w.view w'.view a f ∧ w'.view.openedFilesCount =
          w.view.openedFilesCount + if LuaBoostFile.closes C y w.os then -1 else 0) := by
  rcases hok.handle_cases a with hdead | hreleased | ⟨f, y, hholds⟩
  · exact absurd h hdead
  · obtain ⟨x, hx, hd, hf⟩ := id hreleased
    obtain ⟨w', hw', hv⟩ := LuaFileAdapter.destroy_none (C := C) hx hd hf
    refine ⟨w', hw', .inl ⟨hreleased, hv ▸ idle_modifyAdapter fun g => ?_⟩⟩
    refine iff_of_false (fun hg => ?_) (hreleased.not_has g)
    exact hreleased.not_has g (View.has_modifyAdapter (k := fun x => { x with destroyed := true })
      (fun _ h => by cases h) (fun _ _ h => h) hg)
  · obtain ⟨x, hx, hd, hf⟩ := hholds.adapter
    obtain ⟨w', hw', hv⟩ := LuaFileAdapter.destroy_some (C := C) hx hd hf hholds.file hholds.live
    refine ⟨w', hw', .inr ⟨f, y, hholds, hv ▸ loses_discharge _ _ _ _ _ (fun _ h => by cases h)
      fun _ _ h => h, ?_⟩⟩
    rw [hv]
    cases y.isStdFile <;> rfl

/-- So does the collector. -/
theorem finalise_aftermath (hok : w.view.Ok) (h : w.view.Alive a) :
    ∃ w', LuaIOManager.finalise C a w = .ok ⟨⟩ w' ∧
      (w.view.Released a ∧ Idle w.view w'.view ∨ ∃ f y, Holds w a f y ∧
        Loses w.view w'.view a f ∧ w'.view.openedFilesCount =
          w.view.openedFilesCount + if LuaBoostFile.closes C y w.os then -1 else 0) := by
  let k : FileAdapter → FileAdapter := fun x => { x with collected := true }
  let w₁ : World ν Os := { w with adapters := w.adapters.modify a k }
  have h₁ : modifyAdapter a k w = .ok ⟨⟩ w₁ := rfl
  have hadapter : ∀ x, w₁.view.adapters[a]? = some x →
      ∃ z, w.view.adapters[a]? = some z ∧ k z = x := by
    intro x hx
    have hx' : (w.view.modifyAdapter a k).adapters[a]? = some x := hx
    rw [View.modifyAdapter_adapters, if_pos rfl] at hx'
    exact Option.map_eq_some_iff.1 hx'
  have hself : ∀ {x}, w.view.adapters[a]? = some x → w₁.view.adapters[a]? = some (k x) := by
    intro x hx
    change (w.view.modifyAdapter a k).adapters[a]? = _
    rw [View.modifyAdapter_adapters, if_pos rfl, hx]
    rfl
  have hidle : Idle w.view w₁.view := idle_modifyAdapter fun g => by
    constructor
    · rintro ⟨x, hx, hd, hf⟩
      obtain ⟨z, hz, rfl⟩ := hadapter x hx
      exact ⟨z, hz, hd, hf⟩
    · rintro ⟨x, hx, hd, hf⟩
      exact ⟨k x, hself hx, hd, hf⟩
  have hok₁ : w₁.view.Ok := hok.modifyAdapter a (fun _ h => h) fun _ _ h => h
  obtain ⟨x, hx, hd⟩ := h
  obtain ⟨w', hw', hcases⟩ := destroy_aftermath (C := C) hok₁ ⟨k x, hself hx, hd⟩
  refine ⟨w', (bind_of_ok h₁).trans hw', ?_⟩
  rcases hcases with ⟨⟨z, hz, hzd, hzf⟩, hidle'⟩ | ⟨f, y, hholds, hloses, hcount⟩
  · obtain ⟨u, hu, rfl⟩ := hadapter z hz
    exact .inl ⟨⟨u, hu, hzd, hzf⟩, hidle.trans hidle'⟩
  · exact .inr ⟨f, y, ⟨(hidle.has a f).1 hholds.adapter, hholds.file, hholds.live⟩,
      hidle.loses hloses, hcount⟩

/-! ## Actions -/

/-- The action counts the end of the stream of a file. -/
def Action.counts (C : Platform ν Os) (y : BoostFile) (os : Os) : Action ν → Bool
  | .iterate _ => false
  | _ => LuaBoostFile.closes C y os

/-- What an action leaves. -/
inductive Aftermath (C : Platform ν Os) (l : ℕ) (act : Action ν) (w w' : World ν Os) : Prop
  | grows (hn : ∀ a f y, ¬ Ends C w (.action l act) a f y) (h : HeapGrows l w.view w'.view)
  | idle (hn : ∀ a f y, ¬ Ends C w (.action l act) a f y) (h : Idle w.view w'.view)
  | ends {a f : ℕ} {y : BoostFile} (h : Ends C w (.action l act) a f y)
      (hl : Loses w.view w'.view a f)
      (hc : w'.view.openedFilesCount =
        w.view.openedFilesCount + if act.counts C y w.os then -1 else 0)

/-- An action that ends nothing. -/
theorem Aftermath.same (hn : ∀ a f y, ¬ Ends C w (.action l act) a f y) :
    Aftermath C l act w w :=
  .grows hn (.same rfl rfl rfl)

theorem aftermath_close (hok : w.view.Ok) (hvm : w.view.vms[l]? = some vm) (hact : act.isClose)
    (hexec : exec C w (.action l act) = .ok w') : Aftermath C l act w w' := by
  have hcounts : ∀ y, act.counts C y w.os = LuaBoostFile.closes C y w.os := fun y => by
    cases act <;> first | rfl | cases hact
  -- the event is about the target of the call
  have htarget : ∀ {a f y}, Ends C w (.action l act) a f y →
      closeTarget w.view vm act = some a ∧ Holds w a f y := by
    intro a f y h
    cases h with
    | close hvm' ht h =>
      cases hvm.symm.trans hvm'
      exact ⟨ht, h⟩
    | iterate => cases hact
    | gc => cases hact
    | collect => cases hact
  rcases exec_close (C := C) hvm hact with ⟨a, ha, hclose⟩ | ⟨hnone, hclose | ⟨-, hclose⟩⟩
  · have hrun := closeRun (C := C) hok l a
    rw [← hclose, hexec] at hrun
    cases hrun with
    | again hreleased =>
      refine .same fun b f y h => ?_
      obtain ⟨hb, hholds⟩ := htarget h
      cases ha.symm.trans hb
      exact hreleased.not_has f hholds.adapter
    | @failed f y _ h hc hv =>
      refine .ends (.close hvm ha h) (hv ▸ loses_closeFile _ _ _) ?_
      rw [hv, hcounts, hc]
      exact (Int.add_zero _).symm
    | @closed f y _ h hc hv =>
      refine .ends (.close hvm ha h) ?_ ?_
      · rw [hv]
        exact (loses_discharge w.view a f _ _ (k := fun x => { x with fileHandle := none })
          (fun _ h => h) fun _ _ h => by cases h).keep l _
      · rw [hv, hcounts, hc]
        cases y.isStdFile <;> rfl
  · cases hexec.symm.trans hclose
    refine .same fun b f y h => ?_
    cases hnone.symm.trans (htarget h).1
  · cases hexec.symm.trans hclose

theorem aftermath_iterate {o : Operand ν} (hok : w.view.Ok) (hvm : w.view.vms[l]? = some vm)
    (hexec : exec C w (.action l (.iterate o)) = .ok w') : Aftermath C l (.iterate o) w w' := by
  have hcalled : ∀ {a f y}, Ends C w (.action l (.iterate o)) a f y →
      ∃ it, calledIterator vm (o.eval vm) = some it ∧ Exhausts C w it a f y := by
    intro a f y h
    cases h with
    | close _ ht => cases ht
    | iterate hvm' hit h =>
      cases hvm.symm.trans hvm'
      exact ⟨_, hit, h⟩
  rcases exec_iterate (C := C) hvm o with ⟨it, hit, hiter⟩ | ⟨hnone, hiter⟩
  · have hrun := iterateRun (C := C) hok l it
    rw [← hiter, hexec] at hrun
    cases hrun with
    | stays ha h hvs hv hn =>
      refine .grows (fun a f y h => ?_) (hv ▸ .same rfl rfl rfl)
      obtain ⟨it', hit', hends⟩ := hcalled h
      cases hit.symm.trans hit'
      exact hn a f y hends
    | ended h hv =>
      refine .ends (.iterate hvm hit h) ?_ ?_
      · rw [hv]
        exact (loses_closeFile _ _ _).keep l _
      · rw [hv]
        exact (Int.add_zero _).symm
  · cases hexec.symm.trans hiter
    refine .same fun a f y h => ?_
    obtain ⟨it, hit, -⟩ := hcalled h
    simp [hnone] at hit

/-- A handle that is destroyed. -/
theorem Aftermath.of_destruction {m : Eval ν Os Unit} (hends : ∀ {b f y},
    Ends C w (.action l act) b f y → b = a ∧ Holds w b f y)
    (hthis : ∀ {f y}, Holds w a f y → Ends C w (.action l act) a f y)
    (hcounts : ∀ y, act.counts C y w.os = LuaBoostFile.closes C y w.os)
    (hexec : exec C w (.action l act) = outcome (m w)) (hdone : exec C w (.action l act) = .ok w')
    (hdead : ¬ w.view.Alive a → ∃ w', m w = .error (.fault .destroyedAdapter) w')
    (halive : w.view.Alive a → ∃ w', m w = .ok ⟨⟩ w' ∧
      (w.view.Released a ∧ Idle w.view w'.view ∨ ∃ f y, Holds w a f y ∧
        Loses w.view w'.view a f ∧ w'.view.openedFilesCount =
          w.view.openedFilesCount + if LuaBoostFile.closes C y w.os then -1 else 0)) :
    Aftermath C l act w w' := by
  by_cases ha : w.view.Alive a
  · obtain ⟨w₁, h₁, hcases⟩ := halive ha
    rw [hdone, h₁] at hexec
    cases hexec
    rcases hcases with ⟨hreleased, hidle⟩ | ⟨f, y, h, hloses, hcount⟩
    · refine .idle (fun b f y h => ?_) hidle
      obtain ⟨rfl, hholds⟩ := hends h
      exact hreleased.not_has f hholds.adapter
    · exact .ends (hthis h) hloses (by rw [hcount, hcounts])
  · obtain ⟨w₁, h₁⟩ := hdead ha
    rw [hdone, h₁] at hexec
    cases hexec

theorem aftermath_gc {args : List (Operand ν)} (hok : w.view.Ok)
    (hvm : w.view.vms[l]? = some vm) (hexec : exec C w (.action l (.gc args)) = .ok w') :
    Aftermath C l (.gc args) w w' := by
  have hlast : ∀ {b f y}, Ends C w (.action l (.gc args)) b f y →
      LuaValue.asHandle (args.map (Operand.eval vm)).getLast? = some b := by
    intro b f y h
    cases h with
    | close _ ht => cases ht
    | gc hvm' hb h =>
      cases hvm.symm.trans hvm'
      exact hb
  rcases exec_gc (C := C) hvm args with ⟨a, ha, hgc⟩ | ⟨hnone, hgc⟩
  · refine .of_destruction (a := a) (fun h => ⟨?_, h.holds⟩) (fun h => .gc hvm ha h)
      (fun _ => rfl) hgc hexec (fun h => ⟨w, destroy_dead h⟩) (destroy_aftermath hok)
    exact Option.some.inj ((hlast h).symm.trans ha)
  · cases hexec.symm.trans hgc
    refine .same fun b f y h => ?_
    cases hnone.symm.trans (hlast h)

theorem aftermath_collect (hok : w.view.Ok)
    (hexec : exec C w (.action l (.collect a)) = .ok w') :
    Aftermath C l (.collect a) w w' := by
  refine .of_destruction (a := a) (fun h => ⟨?_, h.holds⟩) .collect (fun _ => rfl)
    (exec_collect w l a) hexec finalise_dead (finalise_aftermath hok)
  cases h with
  | close _ ht => cases ht
  | collect => rfl

/-- **What an action leaves**, if it ends in no fault. -/
theorem action_aftermath (hok : w.view.Ok) (hvm : w.view.vms[l]? = some vm)
    (hexec : exec C w (.action l act) = .ok w') : Aftermath C l act w w' := by
  by_cases htame : act.isTame
  · rcases exec_tame (C := C) (F := fun _ => True) trivial trivial hvm (served_any _ _) htame with
      ⟨w₁, vm', h₁, h⟩ | ⟨f, h₁, -⟩
    · cases hexec.symm.trans h₁
      refine .grows (fun a f y hends => ?_) h.heap
      cases hends with
      | close _ ht _ =>
        cases act with
        | call g args => cases g <;> first | cases ht | cases htame
        | method m args => cases m <;> first | cases ht | cases htame
        | _ => cases ht
      | iterate => cases htame
      | gc => cases htame
      | collect => cases htame
    · cases hexec.symm.trans h₁
  by_cases hclose : act.isClose
  · exact aftermath_close hok hvm hclose hexec
  cases act with
  | iterate o => exact aftermath_iterate hok hvm hexec
  | call g args => cases g <;> first | exact absurd rfl htame | exact absurd rfl hclose
  | method m args => cases m <;> first | exact absurd rfl htame | exact absurd rfl hclose
  | gc args => exact aftermath_gc hok hvm hexec
  | collect a => exact aftermath_collect hok hexec
  | _ => exact absurd rfl htame

/-- An event that closes a file can be done. -/
theorem Ends.exec_ok {e : Event ν} (hok : w.view.Ok) (hen : (machine C).enabled w e)
    (h : Ends C w e a f y) : ∃ w', exec C w e = .ok w' := by
  cases h with
  | @close l _ _ _ vm act hvm ht h =>
    have hact : act.isClose := by
      cases act with
      | call g args => cases g <;> first | rfl | cases ht
      | method m args => cases m <;> first | rfl | cases ht
      | _ => cases ht
    rcases exec_close (C := C) hvm hact with ⟨b, hb, hclose⟩ | ⟨hnone, -⟩
    · cases ht.symm.trans hb
      have hrun := closeRun (C := C) hok l a
      rw [← hclose] at hrun
      obtain ⟨r, hr⟩ : ∃ r, exec C w (.action l act) = r := ⟨_, rfl⟩
      rw [hr] at hrun
      cases hrun with
      | dead hdead => exact absurd h.alive hdead
      | _ => exact ⟨_, hr⟩
    · cases hnone.symm.trans ht
  | @iterate l _ _ _ vm o it hvm hit h =>
    rcases exec_iterate (C := C) hvm o with ⟨it', hit', hiter⟩ | ⟨hnone, -⟩
    · cases hit.symm.trans hit'
      have hrun := iterateRun (C := C) hok l it
      rw [← hiter] at hrun
      obtain ⟨r, hr⟩ : ∃ r, exec C w (.action l (.iterate o)) = r := ⟨_, rfl⟩
      rw [hr] at hrun
      cases hrun with
      | foreign hnone => cases hnone.symm.trans h.upvalue
      | dead ha hdead =>
        cases ha.symm.trans h.upvalue
        exact absurd h.holds.alive hdead
      | released ha hreleased =>
        cases ha.symm.trans h.upvalue
        exact absurd h.holds.adapter (hreleased.not_has f)
      | unfinished => exact absurd hr hen.2
      | _ => exact ⟨_, hr⟩
    · cases hnone.symm.trans hit
  | gc hvm ha h =>
    rcases exec_gc (C := C) hvm _ with ⟨b, hb, hgc⟩ | ⟨hnone, -⟩
    · cases ha.symm.trans hb
      obtain ⟨w', hw', -⟩ := destroy_aftermath (C := C) hok h.alive
      exact ⟨w', by rw [hgc, hw']; rfl⟩
    · cases hnone.symm.trans ha
  | collect h =>
    obtain ⟨w', hw', -⟩ := finalise_aftermath (C := C) hok h.alive
    exact ⟨w', by rw [exec_collect, hw']; rfl⟩
  | luaClose halive ha h =>
    rcases exec_luaClose (C := C) hok _ with ⟨w', V, hw', -⟩ | ⟨-, hnot⟩
    · exact ⟨w', hw'⟩
    · exact absurd halive hnot

/-- **The heap stays in order**, whatever happens. -/
theorem exec_ok {e : Event ν} (hok : w.view.Ok) (hp : Possible w.view e)
    (hexec : exec C w e = .ok w') : w'.view.Ok := by
  cases e with
  | startvm =>
    obtain ⟨w₁, h₁, hv⟩ := exec_startvm (C := C) hok
    cases hexec.symm.trans h₁
    exact hv ▸ hok.start
  | luaClose l =>
    rcases exec_luaClose (C := C) hok l with ⟨w₁, V, h₁, hfinal, hv⟩ | ⟨h₁, -⟩
    · cases hexec.symm.trans h₁
      exact hv ▸ hfinal.ok.congr rfl rfl
    · cases hexec.symm.trans h₁
  | action l act =>
    obtain ⟨vm, hvm, -⟩ := Possible.isOpen hp
    by_cases hact : act.isDestroying = false
    · obtain ⟨vm', hev⟩ := exec_evolves hok hvm hact hexec
      exact hev.ok
    cases act with
    | gc args =>
      rcases exec_gc (C := C) hvm args with ⟨a, -, hgc⟩ | ⟨-, hgc⟩
      · by_cases halive : w.view.Alive a
        · obtain ⟨w₁, h₁, hdestroyed, -⟩ := destroy_alive (C := C) hok halive
          rw [hexec, h₁] at hgc
          cases hgc
          exact hdestroyed.ok
        · rw [hexec, destroy_dead halive] at hgc
          cases hgc
      · cases hexec.symm.trans hgc
        exact hok
    | collect a => exact (exec_collect_ok hok hexec).ok
    | _ => exact absurd rfl hact

/-- A state of the process. -/
def Reached (C : Platform ν Os) (w : World ν Os) : Prop :=
  ∃ os, (machine C).Reachable (initial C os) w

theorem Reached.ok (h : Reached C w) : w.view.Ok := by
  obtain ⟨os, hreach⟩ := h
  refine hreach.invariant (I := fun w => w.view.Ok) (initial_ok C os) ?_
  intro w e w' hok hen hexec
  exact exec_ok hok hen.1 hexec

/-! ## One handle and its file -/

/-- Files that are there stay as they are. -/
theorem HeapGrows.files (h : HeapGrows l V V') {y : FileView} (hy : V.files[f]? = some y) :
    V'.files[f]? = some y := by
  obtain ⟨ys, hys⟩ : ∃ ys, V'.files = V.files ++ ys := by
    cases h with
    | same hf => exact ⟨[], by rw [hf, List.append_nil]⟩
    | wasted hf => exact ⟨_, hf⟩
    | opened b hf => exact ⟨_, hf⟩
  rw [hys, List.getElem?_append_left (List.getElem?_eq_some_iff.1 hy).1, hy]

/-- A handle stays as it is. -/
theorem HeapGrows.keeps (h : HeapGrows l V V') (ha : V.Has a f) : V'.Has a f := by
  obtain ⟨x, hx, hhas⟩ := ha
  obtain ⟨xs, hxs, -⟩ := h.adapters
  exact ⟨x, by rw [hxs, List.getElem?_append_left (List.getElem?_eq_some_iff.1 hx).1, hx], hhas⟩

/-- **A file keeps its stream**, unless an event ends it. -/
theorem exec_file {e : Event ν} (hok : w.view.Ok) (hp : Possible w.view e)
    (hexec : exec C w e = .ok w') {y : FileView} (hy : w.view.files[f]? = some y) :
    ∃ y', w'.view.files[f]? = some y' ∧
      (y'.isOpen = true ↔ y.isOpen = true ∧ ∀ b z, ¬ Ends C w e b f z) := by
  cases e with
  | startvm =>
    obtain ⟨w₁, h₁, hv⟩ := exec_startvm (C := C) hok
    cases hexec.symm.trans h₁
    exact ⟨y, by rw [hv]; exact hy, (and_iff_left fun b z h => by cases h).symm⟩
  | luaClose l =>
    rcases exec_luaClose (C := C) hok l with ⟨w₁, V, h₁, hfinal, hv⟩ | ⟨h₁, -⟩
    · cases hexec.symm.trans h₁
      obtain ⟨y', hy', hopen⟩ := hfinal.file f y hy
      refine ⟨y', by rw [hv]; exact hy', hopen.trans (and_congr_right fun _ => ?_)⟩
      constructor
      · intro hnone b z h
        cases h with
        | luaClose halive hb h =>
          obtain ⟨x, hx, -, hxf⟩ := h.adapter
          exact hnone b hb x hx hxf
      · intro hnone b hb x hx hxf
        obtain ⟨x', hx', hd⟩ := hfinal.alive b hb
        cases hx.symm.trans hx'
        obtain ⟨u, hu, hlive⟩ := hok.file b f ⟨x, hx, hd, hxf⟩
        obtain ⟨z, hz, rfl⟩ := exists_file hu
        exact hnone b z (.luaClose hfinal.alive hb ⟨⟨x, hx, hd, hxf⟩, hz, hlive⟩)
    · cases hexec.symm.trans h₁
  | action l act =>
    obtain ⟨vm, hvm, -⟩ := Possible.isOpen hp
    cases action_aftermath hok hvm hexec with
    | grows hn h => exact ⟨y, h.files hy, (and_iff_left fun b z => hn b f z).symm⟩
    | idle hn h => exact ⟨y, by rw [h.files]; exact hy, (and_iff_left fun b z => hn b f z).symm⟩
    | @ends b g z h hl =>
      obtain ⟨y', hy', -, hopen⟩ := hl.file f y hy
      refine ⟨y', hy', hopen.trans (and_congr_right fun _ => ?_)⟩
      constructor
      · rintro hne c u hc
        exact hne (h.unique hc).2.1.symm
      · rintro hnone rfl
        exact hnone b z h

/-- **A handle keeps its file**, unless an event ends it. -/
theorem exec_keeps {e : Event ν} (hok : w.view.Ok) (hp : Possible w.view e)
    (hexec : exec C w e = .ok w') (ha : w.view.Has a f) :
    w'.view.Has a f ∨ ∃ y, Ends C w e a f y := by
  cases e with
  | startvm =>
    obtain ⟨w₁, h₁, hv⟩ := exec_startvm (C := C) hok
    cases hexec.symm.trans h₁
    obtain ⟨x, hx, hhas⟩ := id ha
    refine .inl ⟨x, ?_, hhas⟩
    rw [hv, View.start, List.getElem?_append_left (List.getElem?_eq_some_iff.1 hx).1, hx]
  | luaClose l =>
    rcases exec_luaClose (C := C) hok l with ⟨w₁, V, h₁, hfinal, hv⟩ | ⟨h₁, -⟩
    · cases hexec.symm.trans h₁
      by_cases hmem : a ∈ LuaIOManager.uncollected w l
      · obtain ⟨y, hy, hlive⟩ := hok.file a f ha
        obtain ⟨z, hz, rfl⟩ := exists_file hy
        exact .inr ⟨z, .luaClose hfinal.alive hmem ⟨ha, hz, hlive⟩⟩
      · obtain ⟨x, hx, hhas⟩ := ha
        refine .inl ⟨x, ?_, hhas⟩
        rw [hv]
        exact (hfinal.others a hmem).trans hx
    · cases hexec.symm.trans h₁
  | action l act =>
    obtain ⟨vm, hvm, -⟩ := Possible.isOpen hp
    cases action_aftermath hok hvm hexec with
    | grows _ h => exact .inl (h.keeps ha)
    | idle _ h => exact .inl ((h.has a f).2 ha)
    | @ends b g z h hl =>
      by_cases hab : a = b
      · subst hab
        obtain rfl := ha.unique h.holds.adapter
        exact .inr ⟨z, h⟩
      · exact .inl ((hl.others a f hab).2 ha)

end Jord.Io
