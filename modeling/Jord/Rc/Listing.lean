import Jord.Rc.Shape

/-!
# Listings and lookup

`Directory::find` with `recursive == true` finds the nodes that chains of children lead to, each
under the names on its chain (`find_iff_chain`). `Directory::getChildren` with `recursive == true`
lists these nodes, each once (`find_getChildren`).
-/

namespace Jord.Rc.Heap

variable {h h' : Heap} {d n c : ℕ} {order : Order} {pred : NodeId → Bool}

/-! ## Trees built by constructors -/

/-- Heaps built by constructors alone. A parent is a node that has been constructed before. -/
inductive FromConstructors : Heap → Prop
  | nil : FromConstructors []
  | directory {h h' : Heap} {name : Str} {parent : Option NodeId} {n : NodeId}
      (hb : FromConstructors h) (hp : ∀ p : ℕ, parent = some p → p < h.length)
      (hnew : h.newDirectory name parent = .ok (h', n)) : FromConstructors h'
  | file {h h' : Heap} {offset size : ℕ} {name : Str} {parent : Option NodeId} {n : NodeId}
      (hb : FromConstructors h) (hp : ∀ p : ℕ, parent = some p → p < h.length)
      (hnew : h.newFile offset size name parent = .ok (h', n)) : FromConstructors h'

/-- A new node that has no parent. -/
theorem Ok.concat (hok : Ok h) {x : Node} (hx : x.data.lookup = ∅) : Ok (h ++ [x]) := by
  have hget : ∀ {i : ℕ} {k : Str} {c : ℕ}, (h ++ [x]).child i k = some c →
      i < h.length ∧ h.child i k = some c := by
    intro i k c hc
    rcases Nat.lt_trichotomy i h.length with hlt | rfl | hgt
    · refine ⟨hlt, ?_⟩
      rwa [child, lookup, List.getElem?_append_left hlt] at hc
    · simp [child, lookup, hx] at hc
    · rw [child, lookup, List.getElem?_eq_none (by simp; omega)] at hc
      simp at hc
  have hold : ∀ {i : ℕ}, i < h.length → (h ++ [x])[i]? = h[i]? := fun hi =>
    List.getElem?_append_left hi
  constructor
  · exact fun hc => hok.lt (hget hc).2
  · intro i k c hc
    have := hok.lt_length (hget hc).2
    simp only [List.length_append]
    omega
  · intro i k c hc
    rw [name?, hold (hok.lt_length (hget hc).2)]
    exact hok.name (hget hc).2
  · intro i k c hc
    rw [parent?, hold (hok.lt_length (hget hc).2)]
    exact hok.parent (hget hc).2
  · intro i k c hc
    rw [owner?, owner?, hold (hok.lt_length (hget hc).2), hold (hget hc).1]
    exact hok.owner (hget hc).2

theorem Ok.newNode (hok : Ok h) {name : Str} {parent : Option NodeId} {data : NodeData}
    (hp : ∀ p : ℕ, parent = some p → p < h.length) (hdata : data.lookup = ∅)
    (hnew : h.newNode name parent data = .ok (h', n)) : Ok h' := by
  cases parent with
  | none =>
    cases hnew
    exact hok.concat hdata
  | some p =>
    by_cases hdir : h.isDirectory p
    · obtain ⟨h₁, hnew₁, hattached⟩ := newNode_attached hdir name data
      cases hnew.symm.trans hnew₁
      exact hok.attached hdir hdata hattached
    · have hdir' : (h ++ [⟨name, some p, none, data⟩] : Heap).isDirectory p = false := by
        rw [isDirectory, entryOf, List.getElem?_append_left (hp p rfl)]
        exact Bool.eq_false_iff.2 hdir
      simp [Heap.newNode, hdir'] at hnew

theorem FromConstructors.ok (hb : FromConstructors h) : Ok h := by
  induction hb with
  | nil => exact ok_nil
  | directory _ hp hnew ih => exact ih.newNode hp rfl hnew
  | file _ hp hnew ih => exact ih.newNode hp rfl hnew

/-! ## Chains -/

/-- The names `ks` lead from `d` to `n` along a non-empty chain of children, the intermediate nodes
of which are directories. -/
inductive Chain (h : Heap) : NodeId → List Str → NodeId → Prop
  | last {d c : NodeId} {k : Str} (hc : c ∈ h.children d) (hk : h.name? c = some k) :
      Chain h d [k] c
  | step {d c n : NodeId} {k : Str} {ks : List Str} (hc : c ∈ h.children d)
      (hk : h.name? c = some k) (hdir : h.isDirectory c) (hn : Chain h c ks n) :
      Chain h d (k :: ks) n

theorem child_iff_name (hok : Ok h) {k : Str} :
    h.child d k = some c ↔ c ∈ h.children d ∧ h.name? c = some k := by
  constructor
  · intro hc
    exact ⟨mem_children.2 ⟨k, hc⟩, hok.name hc⟩
  · rintro ⟨hmem, hk⟩
    obtain ⟨k', hc⟩ := mem_children.1 hmem
    obtain rfl : k' = k := Option.some.inj ((hok.name hc).symm.trans hk)
    exact hc

/-- A chain is a path that is not empty. -/
theorem chain_iff_resolve (hok : Ok h) {ks : List Str} :
    Chain h d ks n ↔ ks ≠ [] ∧ h.resolve d ks = some n := by
  constructor
  · intro hch
    induction hch with
    | last hc hk =>
      refine ⟨List.cons_ne_nil _ _, ?_⟩
      rw [resolve_cons, (child_iff_name hok).2 ⟨hc, hk⟩]
      rfl
    | step hc hk _ _ ih =>
      refine ⟨List.cons_ne_nil _ _, ?_⟩
      rw [resolve_cons, (child_iff_name hok).2 ⟨hc, hk⟩]
      exact ih.2
  · rintro ⟨hne, hn⟩
    induction ks generalizing d with
    | nil => exact absurd rfl hne
    | cons k ks ih =>
      obtain ⟨c, hc, hn⟩ := Option.bind_eq_some_iff.1 hn
      obtain ⟨hmem, hk⟩ := (child_iff_name hok).1 hc
      rcases ks with _ | ⟨k', ks⟩
      · cases hn
        exact .last hmem hk
      · obtain ⟨e, he, -⟩ := Option.bind_eq_some_iff.1 hn
        exact .step hmem hk (isDirectory_of_child he) (ih (List.cons_ne_nil _ _) hn)

/-- No name of a child contains a slash. That of a root may. -/
def PlainNames (h : Heap) : Prop :=
  ∀ p, ∀ n ∈ h.children p, ∀ k, h.name? n = some k → Str.slash ∉ k

theorem Chain.slash_notMem {ks : List Str} (hch : Chain h d ks n) (hnames : PlainNames h) :
    ∀ k ∈ ks, Str.slash ∉ k := by
  induction hch with
  | last hc hk =>
    intro k' hk'
    obtain rfl := List.mem_singleton.1 hk'
    exact hnames _ _ hc _ hk
  | step hc hk _ _ ih =>
    intro k' hk'
    rcases List.mem_cons.1 hk' with rfl | hk'
    · exact hnames _ _ hc _ hk
    · exact ih k' hk'

/-- **What `find` finds**: the node at the end of a chain, under the names on the chain. -/
theorem find_iff_chain (hok : Ok h) (hnames : PlainNames h) {s : Str} :
    h.findRecursive d s = some n ↔ ∃ ks, Chain h d ks n ∧ s = Str.join ks := by
  rw [findRecursive_eq]
  constructor
  · intro hn
    exact ⟨Str.split s, (chain_iff_resolve hok).2 ⟨Str.split_ne_nil s, hn⟩, (Str.join_split s).symm⟩
  · rintro ⟨ks, hch, rfl⟩
    obtain ⟨hne, hn⟩ := (chain_iff_resolve hok).1 hch
    rw [Str.split_join hne (hch.slash_notMem hnames), hn]

/-- A node is found under one string only. -/
theorem find_unique (hok : Ok h) {s t : Str} (hs : h.findRecursive d s = some n)
    (ht : h.findRecursive d t = some n) : s = t := by
  rw [findRecursive_eq] at hs ht
  rw [← Str.join_split s, ← Str.join_split t, hok.resolve_inj hs ht]

/-! ## Listings -/

theorem children_eq_nil (hok : Ok h) (hd : h.length ≤ d) : h.children d = [] := by
  apply List.eq_nil_iff_forall_not_mem.2
  intro c hc
  obtain ⟨k, hk⟩ := mem_children.1 hc
  have := hok.lt hk
  have := hok.lt_length hk
  omega

/-- A round of `getChildren`. -/
theorem getChildren_succ (fuel : ℕ) : getChildren order h pred true (fuel + 1) d =
    (order d (h.children d)).flatMap fun c => (if pred c then [c] else []) ++
      if h.isDirectory c then getChildren order h pred true fuel c else [] := rfl

theorem mem_order (horder : order.Valid) :
    c ∈ order d (h.children d) ↔ ∃ k, h.child d k = some c := by
  rw [(horder d _).mem_iff, mem_children]

theorem getChildren_eq_nil (hok : Ok h) (horder : order.Valid) (hd : h.length ≤ d) (fuel : ℕ) :
    getChildren order h pred true fuel d = [] := by
  cases fuel with
  | zero => rfl
  | succ fuel =>
    have hperm := horder d (h.children d)
    rw [children_eq_nil hok hd] at hperm
    rw [getChildren_succ, children_eq_nil hok hd, hperm.eq_nil]
    rfl

/-- Fuel that bounds the depth of the tree is enough. -/
theorem getChildren_stable (hok : Ok h) (horder : order.Valid) {fuel fuel' : ℕ}
    (hfuel : h.length ≤ d + fuel) (hfuel' : h.length ≤ d + fuel') :
    getChildren order h pred true fuel d = getChildren order h pred true fuel' d := by
  induction fuel generalizing d fuel' with
  | zero =>
    exact (getChildren_eq_nil hok horder hfuel _).trans (getChildren_eq_nil hok horder hfuel _).symm
  | succ fuel ih =>
    cases fuel' with
    | zero =>
      exact (getChildren_eq_nil hok horder hfuel' _).trans
        (getChildren_eq_nil hok horder hfuel' _).symm
    | succ fuel' =>
      rw [getChildren_succ, getChildren_succ]
      apply List.flatMap_congr
      intro c hc
      obtain ⟨k, hk⟩ := (mem_order horder).1 hc
      have hlt := hok.lt hk
      rw [ih (d := c) (by omega) (show h.length ≤ c + fuel' by omega)]

/-- The nodes listed are those below the directory that satisfy the predicate. -/
theorem mem_getChildren (hok : Ok h) (horder : order.Valid) {fuel : ℕ}
    (hfuel : h.length ≤ d + fuel) :
    n ∈ getChildren order h pred true fuel d ↔
      pred n = true ∧ ∃ ks ≠ [], h.resolve d ks = some n := by
  induction fuel generalizing d with
  | zero =>
    apply iff_of_false List.not_mem_nil
    rintro ⟨-, ks, hne, hn⟩
    obtain ⟨k, ks, rfl⟩ := List.exists_cons_of_ne_nil hne
    obtain ⟨c, hc, -⟩ := Option.bind_eq_some_iff.1 hn
    have hlt := hok.lt hc
    have hlength := hok.lt_length hc
    omega
  | succ fuel ih =>
    have hdeep : ∀ c k, h.child d k = some c →
        h.length ≤ c + fuel := by
      intro c k hc
      have hlt := hok.lt hc
      omega
    simp only [getChildren_succ, List.mem_flatMap, mem_order horder, List.mem_append]
    constructor
    · rintro ⟨c, ⟨k, hc⟩, hn | hn⟩
      · split at hn
        · next hpred =>
          obtain rfl := List.mem_singleton.1 hn
          exact ⟨hpred, [k], List.cons_ne_nil _ _, by rw [resolve_cons, hc]; rfl⟩
        · cases hn
      · split at hn
        · obtain ⟨hpred, ks, -, hks⟩ := (ih (hdeep c k hc)).1 hn
          exact ⟨hpred, k :: ks, List.cons_ne_nil _ _, by rw [resolve_cons, hc]; exact hks⟩
        · cases hn
    · rintro ⟨hpred, ks, hne, hn⟩
      obtain ⟨k, ks, rfl⟩ := List.exists_cons_of_ne_nil hne
      obtain ⟨c, hc, hn⟩ := Option.bind_eq_some_iff.1 hn
      refine ⟨c, ⟨k, hc⟩, ?_⟩
      rcases ks with _ | ⟨k', ks⟩
      · cases hn
        exact .inl (by simp [hpred])
      · obtain ⟨e, he, -⟩ := Option.bind_eq_some_iff.1 hn
        rw [if_pos (isDirectory_of_child he)]
        exact .inr ((ih (hdeep c k hc)).2 ⟨hpred, _, List.cons_ne_nil _ _, hn⟩)

/-- What a child contributes to a listing is at the child or below it. -/
theorem resolve_of_mem_round (hok : Ok h) (horder : order.Valid) {fuel : ℕ}
    (hfuel : h.length ≤ c + fuel) (hn : n ∈ (if pred c then [c] else []) ++
      if h.isDirectory c then getChildren order h pred true fuel c else []) :
    ∃ ks, h.resolve c ks = some n := by
  rcases List.mem_append.1 hn with hn | hn
  · split at hn
    · obtain rfl := List.mem_singleton.1 hn
      exact ⟨[], rfl⟩
    · cases hn
  · split at hn
    · obtain ⟨-, ks, -, hks⟩ := (mem_getChildren hok horder hfuel).1 hn
      exact ⟨ks, hks⟩
    · cases hn

/-- No node is listed twice. -/
theorem nodup_getChildren (hok : Ok h) (horder : order.Valid) {fuel : ℕ}
    (hfuel : h.length ≤ d + fuel) : (getChildren order h pred true fuel d).Nodup := by
  induction fuel generalizing d with
  | zero => exact List.nodup_nil
  | succ fuel ih =>
    have hdeep : ∀ c ∈ order d (h.children d), h.length ≤ c + fuel := by
      intro c hc
      obtain ⟨k, hk⟩ := (mem_order horder).1 hc
      have hlt := hok.lt hk
      omega
    rw [getChildren_succ, List.nodup_flatMap]
    constructor
    · intro c hc
      split <;> split
      · refine List.nodup_append.2 ⟨List.nodup_singleton c, ih (hdeep c hc), fun a ha b hb => ?_⟩
        -- a node does not list itself
        obtain ⟨-, ks, hne, hks⟩ := (mem_getChildren hok horder (hdeep c hc)).1 hb
        have hlt := hok.lt_resolve hne hks
        rintro rfl
        obtain rfl := List.mem_singleton.1 ha
        omega
      · simp
      · simpa using ih (hdeep c hc)
      · exact List.nodup_nil
    · have hnodup : (order d (h.children d)).Nodup := by
        have := nodup_name_childList hok horder d
        rw [childList_eq] at this
        exact this.of_map _
      refine hnodup.imp_of_mem fun {c c'} hc hc' hne n hn hn' => hne ?_
      obtain ⟨k, hk⟩ := (mem_order horder).1 hc
      obtain ⟨k', hk'⟩ := (mem_order horder).1 hc'
      obtain ⟨ks, hks⟩ := resolve_of_mem_round hok horder (hdeep c hc) hn
      obtain ⟨ks', hks'⟩ := resolve_of_mem_round hok horder (hdeep c' hc') hn'
      have hpath := hok.resolve_inj (d := d) (p := k :: ks) (q := k' :: ks')
        (by rw [resolve_cons, hk]; exact hks) (by rw [resolve_cons, hk']; exact hks')
      obtain rfl := (List.cons.inj hpath).1
      exact Option.some.inj (hk.symm.trans hk')

/-- `getChildren` of the directory appends the nodes `l`. -/
def Lists (order : Order) (h : Heap) (pred : NodeId → Bool) (d : NodeId) (l : List NodeId) : Prop :=
  ∃ bound, ∀ fuel ≥ bound, getChildren order h pred true fuel d = l

/-- **Lookup and enumeration agree.** -/
theorem find_getChildren (hb : FromConstructors h) (hnames : PlainNames h) (horder : order.Valid)
    (d : ℕ) (pred : NodeId → Bool) :
    (∀ s n, h.findRecursive d s = some n ↔ ∃ ks, Chain h d ks n ∧ s = Str.join ks) ∧
    ∃ l, Lists order h pred d l ∧ l.Nodup ∧
      (∀ n, n ∈ l ↔ pred n = true ∧ ∃ s, h.findRecursive d s = some n) ∧
      ∀ n ∈ l, ∃! s, h.findRecursive d s = some n := by
  have hok := hb.ok
  have hfind : ∀ n, (∃ ks ≠ [], h.resolve d ks = some n) ↔ ∃ s, h.findRecursive d s = some n := by
    intro n
    constructor
    · rintro ⟨ks, hne, hks⟩
      exact ⟨_, (find_iff_chain hok hnames).2 ⟨ks, (chain_iff_resolve hok).2 ⟨hne, hks⟩, rfl⟩⟩
    · rintro ⟨s, hs⟩
      obtain ⟨ks, hch, -⟩ := (find_iff_chain hok hnames).1 hs
      exact ⟨ks, (chain_iff_resolve hok).1 hch⟩
  have hmem : ∀ n, n ∈ getChildren order h pred true h.length d ↔
      pred n = true ∧ ∃ s, h.findRecursive d s = some n := fun n =>
    (mem_getChildren hok horder (by omega)).trans (and_congr_right fun _ => hfind n)
  refine ⟨fun s n => find_iff_chain hok hnames, _, ⟨h.length, fun fuel hfuel => ?_⟩,
    nodup_getChildren hok horder (by omega), hmem, fun n hn => ?_⟩
  · exact getChildren_stable hok horder (by omega) (by omega)
  · obtain ⟨-, s, hs⟩ := (hmem n).1 hn
    exact ⟨s, hs, fun t ht => find_unique hok ht hs⟩

/-- A file `b` in a directory `a`, below a root with the name that packs give it. -/
def twoLevels : Heap :=
  [⟨Str.ascii ":/", none, none, .directory ((∅ : Lookup).insert (Str.ascii "a") 1)⟩,
    ⟨Str.ascii "a", some 0, none, .directory ((∅ : Lookup).insert (Str.ascii "b") 2)⟩,
    ⟨Str.ascii "b", some 1, none, .file ⟨0, 1⟩⟩]

theorem twoLevels_fromConstructors : FromConstructors twoLevels := by
  have h₁ : newDirectory [] (Str.ascii ":/") none =
      .ok ([⟨Str.ascii ":/", none, none, .directory ∅⟩], 0) := rfl
  have h₂ : newDirectory [⟨Str.ascii ":/", none, none, .directory ∅⟩] (Str.ascii "a") (some 0) =
      .ok ([⟨Str.ascii ":/", none, none, .directory ((∅ : Lookup).insert (Str.ascii "a") 1)⟩,
        ⟨Str.ascii "a", some 0, none, .directory ∅⟩], 1) := rfl
  have h₃ : newFile [⟨Str.ascii ":/", none, none,
      .directory ((∅ : Lookup).insert (Str.ascii "a") 1)⟩,
      ⟨Str.ascii "a", some 0, none, .directory ∅⟩] 0 1 (Str.ascii "b") (some 1) =
        .ok (twoLevels, 2) := rfl
  exact .file (.directory (.directory .nil (by simp) h₁) (by simp) h₂) (by simp) h₃

theorem find_getChildren_twoLevels :
    (∀ s n, twoLevels.findRecursive 0 s = some n ↔ ∃ ks, Chain twoLevels 0 ks n ∧ s = Str.join ks) ∧
    ∃ l, Lists (fun _ l => l) twoLevels (fun _ => true) 0 l ∧ l.Nodup ∧
      (∀ n, n ∈ l ↔ true = true ∧ ∃ s, twoLevels.findRecursive 0 s = some n) ∧
      ∀ n ∈ l, ∃! s, twoLevels.findRecursive 0 s = some n := by
  have hplain : ∀ x ∈ twoLevels, x.parent ≠ none → Str.slash ∉ x.name := by decide
  have hnames : PlainNames twoLevels := by
    intro p n hn k hk
    obtain ⟨k', hchild⟩ := mem_children.1 hn
    have hparent := twoLevels_fromConstructors.ok.parent hchild
    obtain ⟨x, hx, rfl⟩ := Option.map_eq_some_iff.1 hk
    refine hplain x (List.mem_of_getElem? hx) fun hnone => ?_
    simp [parent?, hx, hnone] at hparent
  exact find_getChildren twoLevels_fromConstructors hnames (fun _ l => .refl l) 0 fun _ => true

end Jord.Rc.Heap
