import Jord.Io.Tame

/-!
# The heap of files and handles

`View.Ok` is the invariant of the heap: the three standard files are there and are never deleted,
a handle that is alive has a file that is not deleted, and no two handles share a file that is not
a standard file. Every change keeps it.
-/

namespace Jord.Io

variable {ν : Type} {V V' : View ν} {l a f : ℕ} {P : ℕ → Prop}

namespace View

/-- No two handles share a file in `P`. -/
def UnsharedOn (P : ℕ → Prop) (V : View ν) : Prop :=
  ∀ a b f, V.Has a f → V.Has b f → P f → a = b

/-- The files and the handles are in order. -/
structure Ok (V : View ν) : Prop where
  std : ∀ f < 3, ∃ x, V.files[f]? = some x ∧ x.isStdFile = true ∧ x.ownsFile = false ∧
    x.deleted = false
  ordinary : ∀ (f : ℕ) x, 3 ≤ f → V.files[f]? = some x → x.isStdFile = false
  file : ∀ a f, V.Has a f → ∃ y, V.files[f]? = some y ∧ y.deleted = false
  unshared : V.UnsharedOn (3 ≤ ·)

/-- A new handle has a file that no other handle has. -/
theorem has_addAdapter {b g : ℕ} (h : (V.addAdapter ⟨l, some f, false, false⟩).Has b g) :
    V.Has b g ∨ b = V.adapters.length ∧ g = f := by
  obtain ⟨x, hx, hd, hf⟩ := h
  rw [View.addAdapter, List.getElem?_append] at hx
  split at hx
  · exact .inl ⟨x, hx, hd, hf⟩
  · next hb =>
    have hlt : b - V.adapters.length < 1 := (List.getElem?_eq_some_iff.1 hx).1
    obtain rfl := List.mem_singleton.1 (List.mem_of_getElem? hx)
    cases hf
    exact .inr ⟨by omega, rfl⟩

theorem UnsharedOn.shrink (h : V.UnsharedOn P) (hsub : ∀ b g, V'.Has b g → V.Has b g) :
    V'.UnsharedOn P :=
  fun a b f ha hb => h a b f (hsub a f ha) (hsub b f hb)

theorem UnsharedOn.addAdapter (h : V.UnsharedOn P) (hfree : P f → ∀ a, ¬ V.Has a f) :
    (V.addAdapter ⟨l, some f, false, false⟩).UnsharedOn P := by
  intro a b g ha hb hg
  rcases has_addAdapter ha with ha | ⟨rfl, rfl⟩ <;> rcases has_addAdapter hb with hb | ⟨rfl, hgf⟩
  · exact h a b g ha hb hg
  · exact absurd (hgf ▸ ha) (hfree (hgf ▸ hg) a)
  · exact absurd hb (hfree hg b)
  · rfl

theorem has_modifyAdapter {b g : ℕ} {k : FileAdapter → FileAdapter}
    (hk : ∀ x, (k x).destroyed = false → x.destroyed = false)
    (hf : ∀ x f, (k x).fileHandle = some f → x.fileHandle = some f)
    (h : (V.modifyAdapter a k).Has b g) : V.Has b g := by
  obtain ⟨x, hx, hd, hxf⟩ := h
  rw [modifyAdapter_adapters] at hx
  split at hx
  · obtain ⟨z, hz, rfl⟩ := Option.map_eq_some_iff.1 hx
    exact ⟨z, hz, hk z hd, hf z g hxf⟩
  · exact ⟨x, hx, hd, hxf⟩

/-- A handle that has given up its file has none. -/
theorem not_has_modifyAdapter {k : FileAdapter → FileAdapter}
    (hk : ∀ x, (k x).destroyed = false → (k x).fileHandle = none) :
    ¬ (V.modifyAdapter a k).Has a f := by
  rintro ⟨x, hx, hd, hf⟩
  rw [modifyAdapter_adapters, if_pos rfl] at hx
  obtain ⟨z, -, rfl⟩ := Option.map_eq_some_iff.1 hx
  simp [hk z hd] at hf

namespace Ok

/-- The standard files are the first three. -/
theorem isStdFile_iff (hok : V.Ok) {x : FileView} (hx : V.files[f]? = some x) :
    x.isStdFile = true ↔ f < 3 := by
  constructor
  · intro hstd
    by_contra hf
    simp [hok.ordinary f x (by omega) hx] at hstd
  · intro hf
    obtain ⟨y, hy, hstd, -⟩ := hok.std f hf
    cases hx.symm.trans hy
    exact hstd

/-- A change after which no handle has a file that it did not have, and every file that has been
deleted has no handle left. -/
theorem shrink (hok : V.Ok)
    (hfiles : ∀ f : ℕ, V'.files[f]? = V.files[f]? ∨ ∃ x x', V.files[f]? = some x ∧
      V'.files[f]? = some x' ∧ x'.isStdFile = x.isStdFile ∧ x'.ownsFile = x.ownsFile ∧
      (x'.deleted = x.deleted ∨ (3 ≤ f ∧ ∀ b, ¬ V'.Has b f)))
    (hsub : ∀ b f, V'.Has b f → V.Has b f) : V'.Ok where
  std f hf := by
    obtain ⟨x, hx, hstd, howns, hd⟩ := hok.std f hf
    rcases hfiles f with hsame | ⟨x₀, x', hx₀, hx', hs, ho, hdel⟩
    · exact ⟨x, hsame.trans hx, hstd, howns, hd⟩
    · cases hx.symm.trans hx₀
      exact ⟨x', hx', hs.trans hstd, ho.trans howns,
        (hdel.resolve_right fun h => by omega).trans hd⟩
  ordinary f x' hf hx' := by
    rcases hfiles f with hsame | ⟨x, x₀, hx, hx₀, hs, -⟩
    · exact hok.ordinary f x' hf (hsame.symm.trans hx')
    · cases hx'.symm.trans hx₀
      exact hs.trans (hok.ordinary f x hf hx)
  file b f hb := by
    obtain ⟨x, hx, hdel⟩ := hok.file b f (hsub b f hb)
    rcases hfiles f with hsame | ⟨x₀, x', hx₀, hx', -, -, hdel'⟩
    · exact ⟨x, hsame.trans hx, hdel⟩
    · cases hx.symm.trans hx₀
      exact ⟨x', hx', (hdel'.resolve_right fun h => h.2 b hb).trans hdel⟩
  unshared := hok.unshared.shrink hsub

theorem closeFile (hok : V.Ok) (f : ℕ) : (V.closeFile f).Ok := by
  refine hok.shrink (fun g => ?_) fun _ _ h => h
  by_cases hfg : f = g
  · subst hfg
    cases hx : V.files[f]? with
    | none => exact .inl (by simp [hx])
    | some x =>
      exact .inr ⟨x, ⟨false, x.ownsFile, x.isStdFile, x.deleted⟩, rfl,
        by rw [closeFile_files, hx]; rfl, rfl, rfl, .inl rfl⟩
  · exact .inl (closeFile_files_of_ne hfg)

/-- A handle that is alive gives up its file, or is destroyed. -/
theorem discharge (hok : V.Ok) {y : FileView} (ha : V.Has a f) (hy : V.files[f]? = some y) (k : ℤ)
    {g : FileAdapter → FileAdapter} (hg : ∀ x, (g x).destroyed = false → x.destroyed = false)
    (hgf : ∀ x f, (g x).fileHandle = some f → x.fileHandle = some f)
    (hnone : ∀ x, (g x).destroyed = false → (g x).fileHandle = none) :
    ((((V.closeFile f).count k).dropFile f y.isStdFile).modifyAdapter a g).Ok := by
  have hsub : ∀ b n,
      ((((V.closeFile f).count k).dropFile f y.isStdFile).modifyAdapter a g).Has b n →
        V.Has b n := by
    intro b n h
    obtain ⟨x, hx, h⟩ := has_modifyAdapter hg hgf h
    rw [dropFile_adapters] at hx
    exact ⟨x, hx, h⟩
  refine hok.shrink (fun n => ?_) hsub
  by_cases hfn : f = n
  · subst hfn
    refine .inr ⟨y, ⟨false, y.ownsFile, y.isStdFile, y.deleted || !y.isStdFile⟩, hy, ?_, rfl,
      rfl, ?_⟩
    · rw [discharge_files, hy]
      simp
    · by_cases hstd : y.isStdFile
      · exact .inl (by simp [hstd])
      · have hf3 : 3 ≤ f := Nat.le_of_not_lt fun h => hstd ((hok.isStdFile_iff hy).2 h)
        refine .inr ⟨hf3, fun b hb => ?_⟩
        -- only the handle itself had the file
        obtain rfl := hok.unshared a b f ha (hsub b f hb) hf3
        exact not_has_modifyAdapter hnone hb
  · exact .inl (by rw [discharge_files]; simp [hfn])

theorem release (hok : V.Ok) {y : FileView} (ha : V.Has a f) (hy : V.files[f]? = some y) :
    (V.release a f y.isStdFile).Ok :=
  hok.discharge ha hy _ (fun _ h => h) (fun _ _ h => by cases h) fun _ _ => rfl

theorem destroyWith (hok : V.Ok) {y : FileView} (ha : V.Has a f) (hy : V.files[f]? = some y)
    (closed : Bool) : (V.destroyWith a f closed y.isStdFile).Ok :=
  hok.discharge ha hy _ (fun _ h => by cases h) (fun _ _ h => h) fun _ h => by cases h

/-- A change of a handle that takes nothing but a file from it. -/
theorem modifyAdapter (hok : V.Ok) (a : ℕ) {g : FileAdapter → FileAdapter}
    (hg : ∀ x, (g x).destroyed = false → x.destroyed = false)
    (hgf : ∀ x f, (g x).fileHandle = some f → x.fileHandle = some f) : (V.modifyAdapter a g).Ok :=
  hok.shrink (fun _ => .inl rfl) fun _ _ h => has_modifyAdapter hg hgf h

/-- Only files and adapters matter. -/
theorem congr (hok : V.Ok) (hf : V'.files = V.files) (ha : V'.adapters = V.adapters) : V'.Ok := by
  refine hok.shrink (fun _ => .inl (by rw [hf])) fun b n h => ?_
  rwa [View.Has, ha] at h

/-- A new file that is not a standard file. -/
theorem addFile (hok : V.Ok) {x : FileView} (hx : x.isStdFile = false) : (V.addFile x).Ok where
  std f hf := by
    obtain ⟨y, hy, h⟩ := hok.std f hf
    exact ⟨y, List.getElem?_append_left (List.getElem?_eq_some_iff.1 hy).1 ▸ hy, h⟩
  ordinary f y hf hy := by
    rw [View.addFile, List.getElem?_append] at hy
    split at hy
    · exact hok.ordinary f y hf hy
    · obtain rfl := List.mem_singleton.1 (List.mem_of_getElem? hy)
      exact hx
  file a f h := by
    obtain ⟨y, hy, hyd⟩ := hok.file a f h
    exact ⟨y, List.getElem?_append_left (List.getElem?_eq_some_iff.1 hy).1 ▸ hy, hyd⟩
  unshared := hok.unshared

/-- A new handle for a file that no other handle has, or for a standard file. -/
theorem addAdapter (hok : V.Ok) {y : FileView} (hy : V.files[f]? = some y) (hd : y.deleted = false)
    (hfree : 3 ≤ f → ∀ a, ¬ V.Has a f) : (V.addAdapter ⟨l, some f, false, false⟩).Ok where
  std := hok.std
  ordinary := hok.ordinary
  file a g h := by
    rcases has_addAdapter h with h | ⟨-, rfl⟩
    · exact hok.file a g h
    · exact ⟨y, hy, hd⟩
  unshared := hok.unshared.addAdapter hfree

/-- A file that is not there yet has no handle. -/
theorem not_has_length (hok : V.Ok) (a : ℕ) : ¬ V.Has a V.files.length := by
  intro h
  obtain ⟨y, hy, -⟩ := hok.file a _ h
  simp at hy

theorem openHandle (hok : V.Ok) (l : ℕ) (b : Bool) : (V.openHandle l b).Ok := by
  have hfile : (V.addFile ⟨b, true, false, false⟩).Ok := hok.addFile rfl
  have hcount : ((V.addFile ⟨b, true, false, false⟩).count (if b then 1 else 0)).Ok :=
    hfile.congr rfl rfl
  exact hcount.addAdapter (y := ⟨b, true, false, false⟩) (by simp [View.addFile]) rfl
    fun _ => hok.not_has_length

theorem of_heapGrows (hok : V.Ok) (h : HeapGrows l V V') : V'.Ok := by
  cases h with
  | same hf ha => exact hok.congr hf ha
  | wasted hf ha => exact (hok.addFile (x := ⟨false, true, false, true⟩) rfl).congr hf ha
  | opened b hf ha => exact (hok.openHandle l b).congr hf ha

end Ok

end View

end Jord.Io
