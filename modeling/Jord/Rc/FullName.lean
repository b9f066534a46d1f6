import Jord.Rc.Constructed

/-!
# Full names

`getFullName` puts the names from the root down to a node together with nothing between them, and
`Root::find` takes strings apart at slashes. The two agree on the children of the root only
(`fullNamesFind_iff_flat`).
-/

namespace Jord.Rc

open Heap

/-! ## The full name of a node -/

/-- `getFullName` of the node returns `s`. -/
def FullName (h : Heap) (n : NodeId) (s : Str) : Prop :=
  ∃ bound, ∀ fuel ≥ bound, h.getFullName fuel n = some s

theorem FullName.unique {h : Heap} {n : NodeId} {s t : Str} (hs : FullName h n s)
    (ht : FullName h n t) : s = t := by
  obtain ⟨m, hm⟩ := hs
  obtain ⟨m', hm'⟩ := ht
  exact Option.some.inj ((hm _ (Nat.le_max_left m m')).symm.trans (hm' _ (Nat.le_max_right m m')))

theorem getFullName_succ {h : Heap} {n : NodeId} {name : Str} (hname : h.name? n = some name)
    (fuel : ℕ) : h.getFullName (fuel + 1) n =
      match h.parent? n with
      | none => some name
      | some p => (h.getFullName fuel p).map (· ++ name) := by
  cases hx : h[n]? with
  | none => simp [name?, hx] at hname
  | some x =>
    obtain rfl : x.name = name := by simpa [name?, hx] using hname
    cases hp : x.parent <;> simp [getFullName, parent?, hx, hp]

/-- **The full name of a node** is that of the root followed by the names on the way. -/
theorem fullName_of_resolve {h : Heap} (hok : Ok h) {root : NodeId}
    (hname : h.name? root = some (Str.ascii ":/")) (hparent : h.parent? root = none)
    {p : List Str} {n : NodeId} (hp : h.resolve root p = some n) :
    FullName h n (Str.ascii ":/" ++ p.flatten) := by
  refine ⟨p.length + 1, fun fuel hfuel => ?_⟩
  induction p using List.reverseRecOn generalizing n fuel with
  | nil =>
    obtain rfl : root = n := Option.some.inj hp
    obtain ⟨fuel, rfl⟩ : ∃ m, fuel = m + 1 := ⟨fuel - 1, by omega⟩
    rw [getFullName_succ hname, hparent]
    simp
  | append_singleton p k ih =>
    rw [resolve_concat] at hp
    obtain ⟨d, hd, hchild⟩ := Option.bind_eq_some_iff.1 hp
    rw [List.length_append, List.length_singleton] at hfuel
    obtain ⟨fuel, rfl⟩ : ∃ m, fuel = m + 1 := ⟨fuel - 1, by omega⟩
    rw [getFullName_succ (hok.name hchild), hok.parent hchild]
    simp [ih hd fuel (by omega)]

/-! ## Full names and lookup -/

/-- **`getFullName` and `find` are inverse** on the tree of a pack: every node below the root is
found under its full name, and two nodes have different full names. -/
def FullNamesFind (h : Heap) (r : Root) : Prop :=
  (∀ p ≠ [], ∀ n, h.resolve r.rootDirectory p = some n →
    ∃ s, FullName h n s ∧ r.find h s = .ok (some n)) ∧
  ∀ p ≠ [], ∀ q ≠ [], ∀ n n' s, h.resolve r.rootDirectory p = some n →
    h.resolve r.rootDirectory q = some n' → FullName h n s → FullName h n' s → n = n'

/-- Every node below the root directory is a child of it. -/
def Flat (h : Heap) (root : NodeId) : Prop := ∀ p n, h.resolve root p = some n → p.length ≤ 1

/-- A full name is looked up as one name. -/
theorem find_fullName {h : Heap} {r : Root} {p : List Str} (hslash : ∀ k ∈ p, Str.slash ∉ k) :
    r.find h (Str.ascii ":/" ++ p.flatten) = .ok (h.child r.rootDirectory p.flatten) := by
  have hlen : ¬ (Str.ascii ":/" ++ p.flatten).length < 2 := by
    rw [List.length_append]
    exact Nat.not_lt.2 (Nat.le_add_right _ _)
  rw [Root.find, if_neg hlen, findRecursive_eq]
  change Except.ok (h.resolve r.rootDirectory (Str.split p.flatten)) = _
  rw [Str.split_flatten hslash, resolve_cons]
  cases h.child r.rootDirectory p.flatten <;> rfl

/-- **When `getFullName` and `find` are inverse.** In a tree that the constructor builds from a
table whose names have no slash, they are exactly if every node below the root is a child of it. -/
theorem fullNamesFind_iff_flat {h : Heap} (hok : Ok h) {toc : List TOCItem} {root : RootId}
    {fuel : ℕ} {c : Root.Constructed} (hc : Root.construct fuel h root toc = some (.ok c))
    (hnames : ∀ i ∈ c.visited, i ≠ 0 → ∀ item, toc[i]? = some item →
      item.name ≠ [] ∧ Str.slash ∉ item.name) (baseAddress : List UInt8) :
    FullNamesFind c.heap ⟨baseAddress, c.rootDirectory⟩ ↔ Flat c.heap c.rootDirectory := by
  obtain ⟨hroot, hcon⟩ := Root.constructs_of_construct hok hc
  have hfull : ∀ {p n}, c.heap.resolve c.rootDirectory p = some n →
      FullName c.heap n (Str.ascii ":/" ++ p.flatten) := fun hp =>
    fullName_of_resolve hcon.ok (hroot ▸ hcon.name) (hroot ▸ hcon.parent) hp
  have hslash : ∀ p n, c.heap.resolve c.rootDirectory p = some n → ∀ k ∈ p, Str.slash ∉ k := by
    intro p
    induction p using List.reverseRecOn with
    | nil => simp
    | append_singleton p k ih =>
      intro n hn k' hk'
      rw [resolve_concat] at hn
      obtain ⟨d, hd, hchild⟩ := Option.bind_eq_some_iff.1 hn
      rcases List.mem_append.1 hk' with hk' | hk'
      · exact ih d hd k' hk'
      · obtain ⟨i, hi, hi0, item, hitem, rfl⟩ :=
          hcon.named d (hroot ▸ hcon.ok.le_resolve hd) k n hchild
        obtain rfl := List.mem_singleton.1 hk'
        exact (hnames i hi hi0 item hitem).2
  have hfind : ∀ p n, c.heap.resolve c.rootDirectory p = some n →
      (⟨baseAddress, c.rootDirectory⟩ : Root).find c.heap (Str.ascii ":/" ++ p.flatten) =
        .ok (c.heap.child c.rootDirectory p.flatten) := fun p n hp => find_fullName (hslash p n hp)
  constructor
  · rintro ⟨hall, -⟩ p n hp
    by_contra hlong
    -- the node that is found is a child of the root
    obtain ⟨s, hs, hfs⟩ := hall p (by rintro rfl; simp at hlong) n hp
    obtain rfl := hs.unique (hfull hp)
    rw [hfind p n hp, Except.ok.injEq] at hfs
    have hone : c.heap.resolve c.rootDirectory [p.flatten] = some n := by simp [resolve_cons, hfs]
    rw [hcon.ok.resolve_inj hp hone] at hlong
    simp at hlong
  · intro hflat
    have hchild : ∀ p ≠ [], ∀ n, c.heap.resolve c.rootDirectory p = some n →
        c.heap.child c.rootDirectory p.flatten = some n := by
      intro p hp0 n hp
      obtain ⟨k, p, rfl⟩ := List.exists_cons_of_ne_nil hp0
      obtain rfl : p = [] := by simpa using hflat _ n hp
      simpa [resolve_cons, Option.bind_fun_some] using hp
    refine ⟨fun p hp0 n hp => ⟨_, hfull hp, ?_⟩,
      fun p hp0 q hq0 n n' s hp hq hs hs' => ?_⟩
    · rw [hfind p n hp, hchild p hp0 n hp]
    · obtain rfl := hs.unique (hfull hp)
      have hflatten : p.flatten = q.flatten :=
        List.append_cancel_left (hs'.unique (hfull hq))
      have := hchild p hp0 n hp
      rw [hflatten, hchild q hq0 n' hq] at this
      exact (Option.some.inj this).symm

/-- A file `b` in the directory `a`, and a file `ab`. -/
def clash : List TOCItem :=
  [⟨.directory, Str.ascii ":/", 2, 0⟩, ⟨.directory, Str.ascii "a", 1, 0⟩,
    ⟨.file, Str.ascii "b", 0, 1⟩, ⟨.file, Str.ascii "ab", 1, 1⟩]

theorem names_clash : ∀ i ∈ [0, 1, 2, 3], i ≠ 0 → ∀ item, clash[i]? = some item →
    item.name ≠ [] ∧ Str.slash ∉ item.name := by
  simp [clash, Str.ascii, Str.slash]

/-- The tree of `clash`, with the nodes at `a/b` and at `ab`. -/
theorem construct_clash : ∃ c, Root.construct 4 [] 0 clash = some (.ok c) ∧
    c.visited = [0, 1, 2, 3] ∧
    c.heap.resolve c.rootDirectory [Str.ascii "a", Str.ascii "b"] = some 2 ∧
    c.heap.resolve c.rootDirectory [Str.ascii "ab"] = some 3 :=
  ⟨_, rfl, by decide, by decide, by decide⟩

/-- The two files of `clash` have one full name, and it leads to the second. -/
theorem clash_not_fullNamesFind : ∃ c, Root.construct 4 [] 0 clash = some (.ok c) ∧
    (∀ i ∈ c.visited, i ≠ 0 → ∀ item, clash[i]? = some item →
      item.name ≠ [] ∧ Str.slash ∉ item.name) ∧
    ¬ FullNamesFind c.heap ⟨[], c.rootDirectory⟩ := by
  obtain ⟨c, hc, hvisited, hb, hab⟩ := construct_clash
  obtain ⟨hroot, hcon⟩ := Root.constructs_of_construct ok_nil hc
  rw [hroot] at hb hab
  refine ⟨c, hc, hvisited ▸ names_clash, fun h => ?_⟩
  rw [hroot] at h
  have hname : FullName c.heap 2 (Str.ascii ":/ab") :=
    fullName_of_resolve hcon.ok hcon.name hcon.parent hb
  have hname' : FullName c.heap 3 (Str.ascii ":/ab") :=
    fullName_of_resolve hcon.ok hcon.name hcon.parent hab
  exact absurd (h.2 _ (by simp) _ (by simp) 2 3 _ hb hab hname hname') (by decide)

theorem fullNamesFind_iff_flat_clash : ∃ c, Root.construct 4 [] 0 clash = some (.ok c) ∧
    (FullNamesFind c.heap ⟨[], c.rootDirectory⟩ ↔ Flat c.heap c.rootDirectory) := by
  obtain ⟨c, hc, hvisited, -⟩ := construct_clash
  exact ⟨c, hc, fullNamesFind_iff_flat ok_nil hc (hvisited ▸ names_clash) []⟩

end Jord.Rc
