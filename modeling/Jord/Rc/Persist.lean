import Jord.Rc.Layout

/-!
# Which packed files can be found

`addChild` overwrites what a directory holds under a name. A file that is added over a directory
therefore takes everything below the directory with it, while a directory that is walked into
where a file is makes `addFile` throw. And a component that is the root of a path, `/`, makes a
directory that no string leads to: `find` takes strings apart at slashes.

* `NothingLost` says that every file added is found under its path.
* `Harmless` is the condition on a call, and on the state before it, that keeps this so
  (`nothingLost_iff_harmless`).
-/

namespace Jord.Rc.RCBuilder

open Heap

variable (lib : PathLib)

/-- **No packed file is lost**: under the path of every call the tree has a file with the extent
that the last call with that path has recorded. -/
def NothingLost (calls : List AddFileCall) (b : RCBuilder) : Prop :=
  ∀ pre c post, calls = pre ++ c :: post →
    (∀ c' ∈ post, c'.virtualPath lib ≠ c.virtualPath lib) →
    ∃ n x, b.root.find b.heap (Str.ascii ":/" ++ Str.join (c.virtualPath lib)) = .ok (some n) ∧
      b.entriesList[pre.length]? = some x ∧ b.heap.entryOf n = some (.file ⟨x.offset, x.size⟩)

/-- The call names no component with a slash, and it does not put its file where a directory is. -/
def Harmless (b : RCBuilder) (c : AddFileCall) : Prop :=
  (∀ k ∈ c.virtualPath lib, Str.slash ∉ k) ∧ b.store (c.virtualPath lib) ≠ some .directory

variable {lib}

/-! ## Looking a virtual path up -/

theorem find_virtualPath {b : RCBuilder} (p : List Str) :
    b.root.find b.heap (Str.ascii ":/" ++ Str.join p) =
      .ok (b.heap.resolve b.root.rootDirectory (Str.split (Str.join p))) := by
  have hlen : ¬ (Str.ascii ":/" ++ Str.join p).length < 2 := by
    rw [List.length_append]
    exact Nat.not_lt.2 (Nat.le_add_right _ _)
  rw [Root.find, if_neg hlen, findRecursive_eq]
  rfl

theorem virtualPath_ne_nil (c : AddFileCall) : c.virtualPath lib ≠ [] := by
  simp [AddFileCall.virtualPath, virtualPath]

/-- Where the components have no slash, a file is found exactly where it is stored. -/
theorem find_file_iff {b : RCBuilder} {c : AddFileCall}
    (hc : ∀ k ∈ c.virtualPath lib, Str.slash ∉ k) (e : Extent) :
    (∃ n, b.root.find b.heap (Str.ascii ":/" ++ Str.join (c.virtualPath lib)) = .ok (some n) ∧
      b.heap.entryOf n = some (.file e)) ↔ b.store (c.virtualPath lib) = some (.file e) := by
  simp only [find_virtualPath, Str.split_join (virtualPath_ne_nil c) hc, Except.ok.injEq, store,
    store_eq_some]

/-- No directory below the top has an empty name. -/
def Named (b : RCBuilder) : Prop := ∀ p, b.store (p ++ [[]]) ≠ some .directory

/-- The directories that a call makes are proper prefixes of its path. -/
theorem prefix_names_of_ne {c : AddFileCall} {q : List Str} (hq : q <+: c.virtualPath lib)
    (hne : q ≠ c.virtualPath lib) : q <+: names (walked lib c.basePath c.path) := by
  rcases List.prefix_concat_iff.1 hq with rfl | hq
  · exact absurd rfl hne
  · exact hq

/-- A path with a slash in a component leads nowhere. -/
theorem find_eq_none_of_slash (hlib : lib.SlashFirst) {b : RCBuilder} (hb : Named b)
    {c : AddFileCall} (hc : ¬ ∀ k ∈ c.virtualPath lib, Str.slash ∉ k) :
    b.root.find b.heap (Str.ascii ":/" ++ Str.join (c.virtualPath lib)) = .ok none := by
  -- the first component with a slash starts with it, so it is split into an empty name and others
  obtain ⟨k, hk⟩ : ∃ k, (c.virtualPath lib).find? (fun k => Str.slash ∈ k) = some k := by
    by_contra hnone
    push Not at hc hnone
    obtain ⟨k, hk, hslash⟩ := hc
    have := List.find?_eq_none.1 (Option.eq_none_iff_forall_ne_some.2 hnone) k hk
    simp [hslash] at this
  obtain ⟨hslash, ts, us, hvp, hts⟩ := List.find?_eq_some_iff_append.1 hk
  have hmem : k ∈ c.virtualPath lib := List.mem_of_find?_eq_some hk
  have hhead : k.head? = some Str.slash := by
    simp only [decide_eq_true_eq] at hslash
    rcases List.mem_append.1 hmem with hmem | hmem
    · exact hlib.components _ k (List.mem_of_mem_filter hmem) hslash
    · obtain rfl := List.mem_singleton.1 hmem
      exact hlib.filename _ hslash
  obtain ⟨u, rfl⟩ : ∃ u, k = Str.slash :: u := by
    cases k with
    | nil => cases hhead
    | cons x u =>
      obtain rfl : x = Str.slash := by simpa using hhead
      exact ⟨u, rfl⟩
  obtain ⟨rest, hne, hsplit⟩ := Str.split_join_of_slash (fun t ht => by simpa using hts t ht) u us
  rw [find_virtualPath, hvp, hsplit]
  congr 1
  apply Option.eq_none_iff_forall_ne_some.2
  intro n hn
  rw [List.append_cons, resolve_append] at hn
  obtain ⟨d, hd, hrest⟩ := Option.bind_eq_some_iff.1 hn
  obtain ⟨t, rest, rfl⟩ := List.exists_cons_of_ne_nil hne
  obtain ⟨e, he, -⟩ := Option.bind_eq_some_iff.1 hrest
  exact hb ts (store_eq_directory hd (isDirectory_of_child he))

/-! ## Runs of calls -/

/-- What holds after any sequence of calls that return: the number of entries, the name of every
directory, and that a directory is the way to a file that was added. -/
structure Tracked (lib : PathLib) (calls : List AddFileCall) (b : RCBuilder) : Prop where
  ok : Ok b
  length : b.entriesList.length = calls.length
  named : Named b
  origin : ∀ p ≠ [], b.store p = some .directory →
    ∃ c ∈ calls, p <+: c.virtualPath lib ∧ p ≠ c.virtualPath lib

theorem tracked_initial : Tracked lib [] initial := by
  have hstore : ∀ p ≠ [], initial.store p = none := by
    intro p hp
    obtain ⟨k, p, rfl⟩ := List.exists_cons_of_ne_nil hp
    have : initial.heap.child initial.root.rootDirectory k = none := rfl
    simp [store, Heap.store, resolve_cons, this]
  refine ⟨initial_ok, rfl, fun p h => ?_, fun p hp h => ?_⟩
  · simp [hstore] at h
  · simp [hstore p hp] at h

theorem Tracked.addFile {calls : List AddFileCall} {b b' : RCBuilder} {c : AddFileCall} {e : Extent}
    {bytes : List UInt8} (hb : Tracked lib calls b)
    (hadd : Added lib c.fs b c.basePath c.rp c.path e bytes b') :
    Tracked lib (calls ++ [c]) b' := by
  refine ⟨hadd.ok, by simp [hadd.entries, hb.length], fun p h => ?_, fun p hp h => ?_⟩
  all_goals rw [hadd.store, PathStore.put] at h
  · split at h
    · cases h
    · next hne =>
      split at h
      · next hq =>
        -- the walk skips empty components
        have := (prefix_names_of_ne hq hne).subset (List.mem_append_right p List.mem_cons_self)
        simp [names, skipped] at this
      · split at h
        · cases h
        · exact hb.named p h
  · split at h
    · cases h
    · next hne =>
      split at h
      · next hq => exact ⟨c, by simp, hq, hne⟩
      · split at h
        · cases h
        · obtain ⟨c', hc', hpre⟩ := hb.origin p hp h
          exact ⟨c', List.mem_append_left _ hc', hpre⟩

theorem tracked_addFiles {calls : List AddFileCall} {b : RCBuilder}
    (h : addFiles lib returns initial calls = some b) : Tracked lib calls b := by
  induction calls using List.reverseRecOn generalizing b with
  | nil =>
    obtain rfl : initial = b := Option.some.inj h
    exact tracked_initial
  | append_singleton calls c ih =>
    rw [addFiles_append] at h
    obtain ⟨b₁, hpre, h⟩ := Option.bind_eq_some_iff.1 h
    obtain ⟨b₂, hc, hpost⟩ := addFiles_cons h
    obtain rfl : b₂ = b := Option.some.inj hpost
    obtain ⟨e, bytes, hadd⟩ := addFile_ok (ih hpre).ok hc
    exact (ih hpre).addFile hadd

/-- `NothingLost`, with the tree in place of the search for a string. -/
def Held (lib : PathLib) (calls : List AddFileCall) (b : RCBuilder) : Prop :=
  ∀ pre c post, calls = pre ++ c :: post →
    (∀ c' ∈ post, c'.virtualPath lib ≠ c.virtualPath lib) →
    ∃ x, b.entriesList[pre.length]? = some x ∧
      b.store (c.virtualPath lib) = some (.file ⟨x.offset, x.size⟩)

theorem nothingLost_iff_held {calls : List AddFileCall} {b : RCBuilder}
    (hslash : ∀ c ∈ calls, ∀ k ∈ c.virtualPath lib, Str.slash ∉ k) :
    NothingLost lib calls b ↔ Held lib calls b := by
  refine forall₃_congr fun pre c post => forall₂_congr fun hcalls _ => ?_
  have hc := hslash c (by simp [hcalls])
  constructor
  · rintro ⟨n, x, hfind, hx, hn⟩
    exact ⟨x, hx, (find_file_iff hc _).1 ⟨n, hfind, hn⟩⟩
  · rintro ⟨x, hx, hstore⟩
    obtain ⟨n, hfind, hn⟩ := (find_file_iff hc _).2 hstore
    exact ⟨n, x, hfind, hx, hn⟩

/-- The last call with the path of a call. -/
theorem exists_last {calls : List AddFileCall} {c : AddFileCall} (hc : c ∈ calls) :
    ∃ pre c' post, calls = pre ++ c' :: post ∧ c'.virtualPath lib = c.virtualPath lib ∧
      ∀ d ∈ post, d.virtualPath lib ≠ c'.virtualPath lib := by
  induction calls using List.reverseRecOn with
  | nil => cases hc
  | append_singleton calls d ih =>
    by_cases hd : d.virtualPath lib = c.virtualPath lib
    · exact ⟨calls, d, [], rfl, hd, by simp⟩
    · rcases List.mem_append.1 hc with hc | hc
      · obtain ⟨pre, c', post, rfl, heq, hlast⟩ := ih hc
        refine ⟨pre, c', post ++ [d], by simp, heq, fun x hx => ?_⟩
        rcases List.mem_append.1 hx with hx | hx
        · exact hlast x hx
        · obtain rfl := List.mem_singleton.1 hx
          exact heq ▸ hd
      · exact absurd (List.mem_singleton.1 hc ▸ rfl) hd

/-- **A harmless call loses nothing.** -/
theorem Held.addFile {calls : List AddFileCall} {b b' : RCBuilder} {c : AddFileCall} {e : Extent}
    {bytes : List UInt8} (hb : Tracked lib calls b) (hheld : Held lib calls b)
    (hdir : b.store (c.virtualPath lib) ≠ some .directory)
    (hadd : Added lib c.fs b c.basePath c.rp c.path e bytes b') : Held lib (calls ++ [c]) b' := by
  intro pre d post hcalls hlast
  rcases List.eq_nil_or_concat post with rfl | ⟨post, c', rfl⟩
  · -- the new call itself
    obtain ⟨rfl, rfl⟩ : calls = pre ∧ c = d := by
      have := List.append_inj' hcalls rfl
      exact ⟨this.1, by simpa using this.2⟩
    refine ⟨_, by rw [hadd.entries, ← hb.length, List.getElem?_concat_length], ?_⟩
    rw [hadd.store]
    exact PathStore.put_self
  · rw [List.concat_eq_append] at hcalls hlast
    obtain ⟨rfl, rfl⟩ : calls = pre ++ d :: post ∧ c = c' := by
      rw [← List.cons_append, ← List.append_assoc] at hcalls
      have := List.append_inj' hcalls rfl
      exact ⟨this.1, by simpa using this.2⟩
    obtain ⟨x, hx, hstore⟩ := hheld pre d post rfl fun c' hc' => hlast c' (by simp [hc'])
    have hne : c.virtualPath lib ≠ d.virtualPath lib := hlast c (by simp)
    refine ⟨x, ?_, ?_⟩
    · rw [hadd.entries, List.getElem?_append_left (List.getElem?_eq_some_iff.1 hx).1, hx]
    · rw [hadd.store]
      refine (PathStore.put_of_apart ?_ ?_).trans hstore
      · exact fun hq => hadd.noFile _ _ hq hne.symm hstore
      · rintro ⟨r, hr⟩
        have hr0 : r ≠ [] := by
          rintro rfl
          exact hne ((List.append_nil _).symm.trans hr)
        refine hdir (store_isTree b.heap b.root.rootDirectory _ r hr0 ?_)
        have := hstore
        rw [← hr] at this
        exact Option.ne_none_iff_exists'.2 ⟨_, this⟩

/-- A call that puts its file where a directory is loses a file. -/
theorem not_held_addFile {calls : List AddFileCall} {b b' : RCBuilder} {c : AddFileCall}
    {e : Extent} {bytes : List UInt8} (hb : Tracked lib calls b)
    (hdir : b.store (c.virtualPath lib) = some .directory)
    (hadd : Added lib c.fs b c.basePath c.rp c.path e bytes b') : ¬ Held lib (calls ++ [c]) b' := by
  intro hheld
  -- the directory was made for a file, whose last call is now without it
  obtain ⟨d, hd, hpre, hne⟩ := hb.origin _ (virtualPath_ne_nil c) hdir
  obtain ⟨pre, d', post, rfl, heq, hlast⟩ := exists_last hd
  rw [← heq] at hpre hne
  obtain ⟨x, -, hstore⟩ := hheld pre d' (post ++ [c]) (by simp) fun x hx => by
    rcases List.mem_append.1 hx with hx | hx
    · exact hlast x hx
    · exact List.mem_singleton.1 hx ▸ hne
  rw [hadd.store] at hstore
  exact absurd ((PathStore.put_of_below hpre hne.symm).symm.trans hstore) (by simp)

/-- While nothing is lost, the paths of all calls are free of slashes. -/
theorem NothingLost.slash (hlib : lib.SlashFirst) {calls : List AddFileCall} {b : RCBuilder}
    (hb : Tracked lib calls b) (h : NothingLost lib calls b) :
    ∀ c ∈ calls, ∀ k ∈ c.virtualPath lib, Str.slash ∉ k := by
  intro c hc
  by_contra hslash
  obtain ⟨pre, c', post, hcalls, heq, hlast⟩ := exists_last hc
  obtain ⟨n, x, hfind, -⟩ := h pre c' post hcalls hlast
  rw [find_eq_none_of_slash hlib hb.named (heq ▸ hslash)] at hfind
  cases hfind

/-- **When no packed file is lost.** In a run of calls that return, every file is found after every
call exactly if every call is harmless in the state before it. -/
theorem nothingLost_iff_harmless (hlib : lib.SlashFirst) {calls : List AddFileCall} {b : RCBuilder}
    (h : addFiles lib returns initial calls = some b) :
    (∀ pre post b₁, calls = pre ++ post → addFiles lib returns initial pre = some b₁ →
      NothingLost lib pre b₁) ↔
    ∀ pre c post b₁, calls = pre ++ c :: post → addFiles lib returns initial pre = some b₁ →
      Harmless lib b₁ c := by
  constructor
  · intro hall pre c post b₁ hcalls hpre
    subst hcalls
    rw [List.append_cons, addFiles_append, addFiles_append, hpre] at h
    obtain ⟨b₂, hone, -⟩ := Option.bind_eq_some_iff.1 h
    obtain ⟨b₂', hc, hpost⟩ := addFiles_cons hone
    obtain rfl : b₂' = b₂ := Option.some.inj hpost
    have ht₁ := tracked_addFiles hpre
    obtain ⟨e, bytes, hadd⟩ := addFile_ok ht₁.ok hc
    have hlost := hall (pre ++ [c]) post b₂' (by simp) (by rw [addFiles_append, hpre]; exact hone)
    have hslash := hlost.slash hlib (ht₁.addFile hadd)
    exact ⟨hslash c (by simp), fun hdir =>
      not_held_addFile ht₁ hdir hadd ((nothingLost_iff_held hslash).1 hlost)⟩
  · intro hall pre
    induction pre using List.reverseRecOn with
    | nil =>
      intro post b₁ _ _ pre c post' hnil
      simp at hnil
    | append_singleton pre c ih =>
      intro post b₂ hcalls hrun
      rw [addFiles_append] at hrun
      obtain ⟨b₁, hpre, hone⟩ := Option.bind_eq_some_iff.1 hrun
      obtain ⟨b₂', hc, hpost⟩ := addFiles_cons hone
      obtain rfl : b₂' = b₂ := Option.some.inj hpost
      have ht₁ := tracked_addFiles hpre
      obtain ⟨e, bytes, hadd⟩ := addFile_ok ht₁.ok hc
      have hslash : ∀ d ∈ pre ++ [c], ∀ k ∈ d.virtualPath lib, Str.slash ∉ k := by
        intro d hd
        obtain ⟨s, t, hst⟩ := List.append_of_mem (hcalls ▸ List.mem_append_left post hd)
        rw [hst, addFiles_append] at h
        obtain ⟨b', hs, -⟩ := Option.bind_eq_some_iff.1 h
        exact (hall s d t b' hst hs).1
      have hheld : Held lib pre b₁ := (nothingLost_iff_held fun d hd => hslash d (by simp [hd])).1
        (ih (c :: post) b₁ (by simpa using hcalls) hpre)
      have hharm := hall pre c post b₁ (by simpa using hcalls) hpre
      exact (nothingLost_iff_held hslash).2 (hheld.addFile ht₁ hharm.2 hadd)

/-- A file in a directory, and a file in place of the directory, from two resource paths. -/
def overwrites : List AddFileCall :=
  [⟨fun _ => some [1], Str.ascii ":/", Str.ascii "one", Str.ascii "a/b.lua"⟩,
    ⟨fun _ => some [2], Str.ascii ":/", Str.ascii "two", Str.ascii "a"⟩]

/-- The two calls return, and then the first file cannot be found. -/
theorem overwrites_lost :
    ∃ b, addFiles .posix returns initial overwrites = some b ∧
      ¬ NothingLost .posix overwrites b := by
  obtain ⟨b, hb⟩ := Option.isSome_iff_exists.1
    (show (addFiles .posix returns initial overwrites).isSome by decide)
  refine ⟨b, hb, fun h => ?_⟩
  have hnone : (addFiles .posix returns initial overwrites).map
      (fun b => b.root.find b.heap (Str.ascii ":/a/b.lua")) = some (.ok none) := by decide
  obtain ⟨n, x, hfind, -⟩ := h [] _ [_] rfl (by decide)
  rw [hb, Option.map_some, Option.some.injEq] at hnone
  cases hnone.symm.trans hfind

theorem nothingLost_iff_harmless_twoFiles :
    ∃ b, addFiles .posix returns initial twoFiles = some b ∧
      ((∀ pre post b₁, twoFiles = pre ++ post → addFiles .posix returns initial pre = some b₁ →
        NothingLost .posix pre b₁) ↔
      ∀ pre c post b₁, twoFiles = pre ++ c :: post →
        addFiles .posix returns initial pre = some b₁ → Harmless .posix b₁ c) := by
  obtain ⟨b, hb⟩ := Option.isSome_iff_exists.1
    (show (addFiles .posix returns initial twoFiles).isSome by decide)
  exact ⟨b, hb, nothingLost_iff_harmless PathLib.posix_slashFirst hb⟩

end Jord.Rc.RCBuilder
