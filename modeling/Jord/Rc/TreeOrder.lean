import Jord.Foundations.Walk
import Jord.Rc.Directory

/-!
# Trees in order

A node of a tree is linked three times: by the key in the lookup table of its directory, by its
parent pointer and by its owner pointer. `InOrder` says that the three agree below a node and that
no node is stored twice.

* The constructors and the destructor keep a tree in order (`inOrder_newNode`, `inOrder_destroy`).
* `setOwner` puts a tree in order whose nodes are in their places (`inOrder_setOwner`).
* `addChild` sets the parent pointer alone. It keeps the tree in order exactly if the child is
  `Addable` (`inOrder_addChild_iff`).
-/

namespace Jord.Rc

namespace NodeData

/-- The data of a node after its destructor. -/
def clear : NodeData → NodeData
  | .directory _ => .directory ∅
  | .file e => .file e

end NodeData

namespace Heap

/-- The destructor of a node gives up the nodes in its lookup table. -/
def destroy (h : Heap) (n : NodeId) : Heap := h.modify n fun y => { y with data := y.data.clear }

/-! ## Trees in order -/

/-- The node belongs to the tree below `root`. -/
def InTree (h : Heap) (root n : NodeId) : Prop := Visits h.child root n

/-- A node stored in the directory `d` under the key `k` has that name and that parent, and no
other directory stores it. -/
structure Placed (h : Heap) (d : NodeId) (k : Str) (n : NodeId) : Prop where
  name : h.name? n = some k
  parent : h.parent? n = some d
  only : ∀ e l, h.child e l = some n → e = d

/-- All nodes below a node are in their places. -/
def Linked (h : Heap) (root : NodeId) : Prop :=
  ∀ d k n, h.InTree root d → h.child d k = some n → h.Placed d k n

/-- The node has the owner `R` as well. -/
structure Kept (h : Heap) (R : RootId) (d : NodeId) (k : Str) (n : NodeId) : Prop
    extends h.Placed d k n where
  owner : h.owner? n = some R

/-- The representation invariant, for all directories from a node on. -/
def InOrder (h : Heap) (R : RootId) (root : NodeId) : Prop :=
  ∀ d k n, h.InTree root d → h.child d k = some n → h.Kept R d k n

/-- The directory `root` belongs to the `Root` object `R`, which alone refers to it; what is stored
anywhere are nodes. -/
structure Rooting (h : Heap) (R : RootId) (root : NodeId) : Prop where
  owner : h.owner? root = some R
  unstored : ∀ d k, h.child d k ≠ some root
  lt_length : ∀ {d k} {n : ℕ}, h.child d k = some n → n < h.length

/-- The heap after a constructor; one that throws leaves it as it was. -/
def constructed (h : Heap) (r : Except Exn (Heap × NodeId)) : Heap :=
  match r with
  | .ok (h', _) => h'
  | .error _ => h

/-- When the child `c` may be added to the directory `d`. If `d` is part of the tree, `c` has
its owner already, is stored in no other directory, and everything below it is in order. If not,
`c` is not part of the tree. -/
structure Addable (h : Heap) (R : RootId) (root d c : NodeId) : Prop where
  owner : h.InTree root d → h.owner? c = some R
  only : h.InTree root d → ∀ e l, h.child e l = some c → e = d
  below : h.InTree root d → h.InOrder R c
  outside : ¬h.InTree root d → ¬h.InTree root c

/-! ## What addChild and the destructor do to the links -/

section Links

variable {h : Heap} {d c : NodeId} {k : Str}

/-- A view of the nodes that does not see a change. -/
theorem map_get_modify {α : Type*} (f : Node → α) {change : Node → Node}
    (hf : ∀ y, f (change y) = f y) (h : Heap) (i n : ℕ) :
    (h.modify i change)[n]?.map f = h[n]?.map f := by
  rw [List.getElem?_modify]
  cases h[n]? with
  | none => rfl
  | some y => by_cases hn : i = n <;> simp [hn, hf]

/-- What a view of the nodes shows after `addChild` that sees neither tables nor parents. -/
theorem map_get_addChild (child : Option NodeId) {α : Type*} (f : Node → α)
    (hf : ∀ y p z, z.entry = y.data.entry → f ⟨y.name, p, y.owner, z⟩ = f y) (n : NodeId) :
    (h.addChild d child)[n]?.map f = h[n]?.map f := by
  unfold addChild
  cases child with
  | none => rfl
  | some c =>
    cases hc : h[c]? with
    | none => simp only [hc]
    | some x =>
      simp only [hc]
      rw [map_get_modify f fun y => hf y _ _ rfl,
        map_get_modify f fun y => hf y _ _ (NodeData.entry_insert ..)]

@[simp] theorem name?_addChild (child : Option NodeId) (n : NodeId) :
    (h.addChild d child).name? n = h.name? n :=
  map_get_addChild child Node.name (fun _ _ _ _ => rfl) n

@[simp] theorem owner?_addChild (child : Option NodeId) (n : NodeId) :
    (h.addChild d child).owner? n = h.owner? n :=
  congrArg Option.join (map_get_addChild child Node.owner (fun _ _ _ _ => rfl) n)

@[simp] theorem isDirectory_addChild (child : Option NodeId) (n : NodeId) :
    (h.addChild d child).isDirectory n = h.isDirectory n := by
  have := map_get_addChild (h := h) (d := d) child (fun x => x.data.entry)
    (fun _ _ _ hz => hz) n
  rw [isDirectory, isDirectory, entryOf, entryOf, this]

@[simp] theorem length_addChild (child : Option NodeId) :
    (h.addChild d child).length = h.length := by
  unfold addChild
  repeat' split
  all_goals simp

theorem parent?_addChild (hc : c < h.length) (n : NodeId) :
    (h.addChild d (some c)).parent? n = if n = c then some d else h.parent? n := by
  have hx : h[c]? = some h[c] := List.getElem?_eq_getElem hc
  simp only [parent?, addChild, hx, List.getElem?_modify]
  by_cases hn : n = c
  · subst hn
    simp [hx]
  · simp only [hn, Ne.symm hn, if_false]
    cases h[n]? with
    | none => rfl
    | some y => by_cases hdn : d = n <;> simp [hdn]

theorem exists_name (hc : c < h.length) : ∃ k, h.name? c = some k :=
  ⟨h[c].name, by rw [name?, List.getElem?_eq_getElem hc, Option.map_some]⟩

theorem child_addChild (hd : h.isDirectory d) (hc : h.name? c = some k) (e : NodeId) (l : Str) :
    (h.addChild d (some c)).child e l = if e = d ∧ l = k then some c else h.child e l := by
  obtain ⟨x, hx, rfl⟩ := Option.map_eq_some_iff.1 hc
  obtain ⟨y, hy⟩ : ∃ y, h[d]? = some y := ⟨_, List.getElem?_eq_getElem (lt_of_isDirectory hd)⟩
  have hlookup : (h.addChild d (some c)).lookup e =
      if e = d then (h.lookup d).insert x.name c else h.lookup e := by
    obtain ⟨_, _, _, t | _⟩ := y
    · simp only [lookup, addChild, hx, List.getElem?_modify]
      by_cases he : e = d
      · subst he
        by_cases hce : c = e <;> simp [hce, hy, NodeData.insert, NodeData.lookup]
      · cases hz : h[e]? with
        | none => simp [he]
        | some z => by_cases hce : c = e <;> simp [he, Ne.symm he, hce]
    · simp [isDirectory, entryOf, hy, NodeData.entry] at hd
  rw [child, hlookup]
  by_cases he : e = d
  · subst he
    by_cases hl : l = x.name
    · subst hl
      simp
    · simp [hl, child, AList.lookup_insert_ne hl]
  · simp [he, child]

theorem child_destroy (h : Heap) (m e : NodeId) (l : Str) :
    (h.destroy m).child e l = if e = m then none else h.child e l := by
  have hclear : ∀ x : NodeData, x.clear.lookup = ∅ := fun x => by cases x <;> rfl
  simp only [child, lookup, destroy, List.getElem?_modify]
  by_cases he : e = m
  · subst he
    cases h[e]? <;> simp [hclear]
  · simp [he, Ne.symm he]

theorem destroy_views (h : Heap) (m : NodeId) : Views h (h.destroy m) := by
  have hentry : ∀ z : NodeData, z.clear.entry = z.entry := fun z => by cases z <;> rfl
  refine ⟨by simp [destroy], fun n _ => ?_, fun n _ => ?_, fun n _ => ?_, fun n _ => ?_⟩
  · exact map_get_modify (fun x => x.data.entry) (fun y => hentry y.data) h m n
  · exact map_get_modify Node.name (fun _ => by rfl) h m n
  · exact congrArg Option.join (map_get_modify Node.parent (fun _ => by rfl) h m n)
  · exact congrArg Option.join (map_get_modify Node.owner (fun _ => by rfl) h m n)

/-- The three ways in which a constructor ends. -/
theorem constructed_newNode_cases {parent : Option NodeId} (hp : ∀ p ∈ parent, p < h.length)
    (name : Str) (data : NodeData) :
    h.constructed (h.newNode name parent data) = h ∨
      h.constructed (h.newNode name parent data) = h ++ [⟨name, none, none, data⟩] ∨
        ∃ p, h.isDirectory p ∧
          Attached h p name data (h.constructed (h.newNode name parent data)) := by
  cases parent with
  | none => exact .inr (.inl rfl)
  | some p =>
    by_cases hdir : h.isDirectory p
    · obtain ⟨h', hnew, ha⟩ := newNode_attached hdir name data
      rw [hnew]
      exact .inr (.inr ⟨p, hdir, ha⟩)
    · -- "Invalid parent node"
      have hdir' : (h ++ [⟨name, some p, none, data⟩] : Heap).isDirectory p = false := by
        rw [isDirectory, entryOf, List.getElem?_append_left (hp p rfl)]
        simpa [isDirectory, entryOf] using hdir
      refine .inl ?_
      simp only [newNode, hdir', constructed, Bool.false_eq_true, if_false]

end Links

/-! ## What keeps the order -/

section Order

variable {h h' : Heap} {R : RootId} {root d c n : NodeId} {k : Str}

/-- The order may be checked on any set that contains the root and is closed under the tables. -/
theorem inOrder_of_closed {S : NodeId → Prop} (hroot : S root)
    (hS : ∀ d k n, S d → h.child d k = some n → S n ∧ h.Kept R d k n) : h.InOrder R root := by
  intro d k n hd hn
  have hSd : S d := hd.mem hroot fun b k c hb hc => (hS b k c hb hc).1
  exact (hS d k n hSd hn).2

theorem InOrder.linked (hP : h.InOrder R root) : h.Linked root :=
  fun d k n hd hn => (hP d k n hd hn).toPlaced

/-- The tables form a tree where the nodes are in their places. -/
theorem Linked.rooted (hL : h.Linked root) (hR : h.Rooting R root) : Rooted h.child root := by
  refine ⟨fun _ => hR.unstored _ _, fun {a b k l c} ha hb hk hl => ?_⟩
  have hka := hL a k c ha hk
  have hlb := hL b l c hb hl
  exact ⟨hlb.only a k hk, Option.some.inj (hka.name.symm.trans hlb.name)⟩

/-- All nodes of a tree in order have its owner. -/
theorem InOrder.owner (hP : h.InOrder R root) (hR : h.Rooting R root) (hn : h.InTree root n) :
    h.owner? n = some R := by
  by_cases hne : n = root
  · exact hne ▸ hR.owner
  · obtain ⟨d, k, hd, hk⟩ := hn.last hne
    exact (hP d k n hd hk).owner

theorem Rooting.root_lt (hR : h.Rooting R root) : root < h.length := by
  by_contra hlt
  have := hR.owner
  simp [owner?, List.getElem?_eq_none (not_lt.1 hlt)] at this

/-! ### Constructors and destructors -/

theorem Kept.of_views (hk : h.Kept R d k n) (hv : Views h h') (hn : n < h.length)
    (honly : ∀ e l, h'.child e l = some n → h.child e l = some n) : h'.Kept R d k n where
  name := (hv.name n hn).trans hk.name
  parent := (hv.parent n hn).trans hk.parent
  owner := (hv.owner n hn).trans hk.owner
  only e l hc := hk.only e l (honly e l hc)

/-- The order does not suffer when tables lose entries. -/
theorem inOrder_of_sub (hP : h.InOrder R root) (hR : h.Rooting R root) (hv : Views h h')
    (hsub : ∀ e l n, h'.child e l = some n → h.child e l = some n) :
    h'.InOrder R root ∧ h'.Rooting R root := by
  constructor
  · apply inOrder_of_closed (S := h.InTree root) (Visits.refl _ _)
    intro e l n he hn
    have hn := hsub e l n hn
    exact ⟨he.edge hn, (hP e l n he hn).of_views hv (hR.lt_length hn) fun e' l' => hsub e' l' n⟩
  · exact ⟨(hv.owner root hR.root_lt).trans hR.owner,
      fun e l hc => hR.unstored e l (hsub e l root hc),
      fun hc => (hR.lt_length (hsub _ _ _ hc)).trans_le hv.le⟩

theorem inOrder_destroy (hP : h.InOrder R root) (hR : h.Rooting R root) (m : NodeId) :
    (h.destroy m).InOrder R root ∧ (h.destroy m).Rooting R root := by
  apply inOrder_of_sub hP hR (destroy_views h m)
  intro e l n hn
  rw [child_destroy] at hn
  split at hn
  · cases hn
  · exact hn

/-- A node constructed under a directory, in the tree or not. -/
theorem inOrder_attached {name : Str} {data : NodeData} (hP : h.InOrder R root)
    (hR : h.Rooting R root) (hp : h.isDirectory d) (hdata : data.lookup = ∅)
    (ha : Attached h d name data h') : h'.InOrder R root ∧ h'.Rooting R root := by
  have hcases : ∀ {e l n}, h'.child e l = some n →
      (e = d ∧ l = name ∧ n = h.length) ∨ (h.child e l = some n ∧ n < h.length) := by
    intro e l n hn
    rw [ha.child hp hdata] at hn
    split at hn
    · next he => exact .inl ⟨he.1, he.2, (Option.some.inj hn).symm⟩
    · split at hn
      · cases hn
      · exact .inr ⟨hn, hR.lt_length hn⟩
  -- only the directory stores the new node
  have hnew : ∀ e l, h'.child e l = some h.length → e = d := by
    intro e l hn
    rcases hcases hn with ⟨he, -⟩ | ⟨-, hlt⟩
    · exact he
    · exact absurd hlt (lt_irrefl _)
  constructor
  · apply inOrder_of_closed (S := fun n => h.InTree root n ∨ n = h.length) (.inl (Visits.refl _ _))
    intro e l n he hn
    rcases hcases hn with ⟨rfl, rfl, rfl⟩ | ⟨hn, hlt⟩
    · have hin : h.InTree root e := he.resolve_right ha.ne_length
      refine ⟨.inr rfl, ⟨?_, ?_, hnew⟩, ?_⟩
      · rw [ha.name?, if_pos rfl]
      · rw [ha.parent?, if_pos rfl]
      · rw [ha.owner?, if_pos rfl, hP.owner hR hin]
    · have hin : h.InTree root e := he.resolve_right fun heq => by
        have := ha.child hp hdata e l
        simp_all
      refine ⟨.inl (hin.edge hn), (hP e l n hin hn).of_views ha.views hlt fun e' l' hn' => ?_⟩
      rcases hcases hn' with ⟨-, -, rfl⟩ | ⟨hn', -⟩
      · exact absurd hlt (lt_irrefl _)
      · exact hn'
  · refine ⟨(ha.views.owner root hR.root_lt).trans hR.owner, fun e l hc => ?_, fun {e l n} hc => ?_⟩
    · rcases hcases hc with ⟨-, -, heq⟩ | ⟨hc, -⟩
      · exact absurd hR.root_lt (heq ▸ lt_irrefl _)
      · exact hR.unstored e l hc
    · rw [ha.length]
      rcases hcases hc with ⟨-, -, rfl⟩ | ⟨-, hlt⟩
      · exact Nat.lt_succ_self _
      · exact hlt.trans (Nat.lt_succ_self _)

/-- **The constructors keep a tree in order**, with and without a parent. -/
theorem inOrder_newNode {parent : Option NodeId} (hP : h.InOrder R root) (hR : h.Rooting R root)
    (hp : ∀ p ∈ parent, p < h.length) (name : Str) {data : NodeData} (hdata : data.lookup = ∅) :
    (h.constructed (h.newNode name parent data)).InOrder R root ∧
      (h.constructed (h.newNode name parent data)).Rooting R root := by
  rcases constructed_newNode_cases hp name data with heq | heq | ⟨p, hdir, ha⟩
  · rw [heq]
    exact ⟨hP, hR⟩
  · rw [heq]
    apply inOrder_of_sub hP hR (views_concat h _)
    intro e l n hn
    rw [child, lookup, List.getElem?_append] at hn
    split at hn
    · exact hn
    · -- the new node stores nothing
      rcases Nat.eq_zero_or_pos (e - h.length) with he | he
      · simp [he, hdata] at hn
      · simp [List.getElem?_eq_none (l := [_]) he] at hn
  · exact inOrder_attached hP hR hdir hdata ha

/-! ### setOwner -/

theorem resolve_eq_walk (h : Heap) (d : NodeId) (p : List Str) :
    h.resolve d p = walk h.child d p := by
  induction p generalizing d with
  | nil => rfl
  | cons k p ih => simp only [resolve_cons, walk, ih]

/-- The heap `h'` is `h` with the owner `R` for the nodes in `S`. -/
structure Reowned (R : RootId) (S : NodeId → Prop) (h h' : Heap) : Prop where
  inside : ∀ i : ℕ, S i → h'[i]? = h[i]?.map fun y => { y with owner := some R }
  outside : ∀ i : ℕ, ¬S i → h'[i]? = h[i]?

namespace Reowned

variable {S T : NodeId → Prop} {h'' : Heap}

/-- What a view of the nodes shows that does not see the owners. -/
theorem map_get (hr : Reowned R S h h') {α : Type*} (f : Node → α)
    (hf : ∀ y, f { y with owner := some R } = f y) (i : ℕ) : h'[i]?.map f = h[i]?.map f := by
  by_cases hi : S i
  · rw [hr.inside i hi]
    cases h[i]? <;> simp [hf]
  · rw [hr.outside i hi]

theorem child (hr : Reowned R S h h') : h'.child = h.child := by
  funext d k
  rw [Heap.child, Heap.child, lookup, lookup, hr.map_get _ fun _ => rfl]

theorem name? (hr : Reowned R S h h') (i : NodeId) : h'.name? i = h.name? i :=
  hr.map_get Node.name (fun _ => rfl) i

theorem parent? (hr : Reowned R S h h') (i : NodeId) : h'.parent? i = h.parent? i :=
  congrArg Option.join (hr.map_get Node.parent (fun _ => rfl) i)

theorem owner? (hr : Reowned R S h h') {i : ℕ} (hi : S i) (hlt : i < h.length) :
    h'.owner? i = some R := by
  rw [Heap.owner?, hr.inside i hi, List.getElem?_eq_getElem hlt]
  rfl

theorem length (hr : Reowned R S h h') : h'.length = h.length := by
  have hnone : ∀ i : ℕ, h'[i]? = none ↔ h[i]? = none := by
    intro i
    by_cases hi : S i
    · rw [hr.inside i hi, Option.map_eq_none_iff]
    · rw [hr.outside i hi]
  simp only [List.getElem?_eq_none_iff] at hnone
  exact le_antisymm ((hnone _).2 le_rfl) ((hnone _).1 le_rfl)

theorem congr (hr : Reowned R S h h') (hST : ∀ i, T i ↔ S i) : Reowned R T h h' :=
  ⟨fun i hi => hr.inside i ((hST i).1 hi), fun i hi => hr.outside i (mt (hST i).2 hi)⟩

theorem trans (hr : Reowned R S h h') (hr' : Reowned R T h' h'') :
    Reowned R (fun i => S i ∨ T i) h h'' := by
  constructor
  · intro i hi
    by_cases hT : T i
    · rw [hr'.inside i hT]
      by_cases hS : S i
      · rw [hr.inside i hS, Option.map_map]
        rfl
      · rw [hr.outside i hS]
    · rw [hr'.outside i hT, hr.inside i (hi.resolve_right hT)]
  · intro i hi
    obtain ⟨hS, hT⟩ := not_or.1 hi
    rw [hr'.outside i hT, hr.outside i hS]

end Reowned

/-- `setOwner` returns if no walk from the node is longer than the fuel, and gives the owner to
the nodes below. -/
theorem setOwner_reowned {fuel : ℕ}
    (hlen : ∀ p m, walk h.child n p = some m → p.length < fuel) :
    ∃ h', h.setOwner R fuel n = some h' ∧ Reowned R (h.InTree n) h h' := by
  induction fuel generalizing h n with
  | zero => exact absurd (hlen [] n rfl) (lt_irrefl _)
  | succ fuel ih =>
    -- the tables stay the same while the loop goes over the children
    have hloop : ∀ (l : List NodeId) (g : Heap), (∀ c ∈ l, ∃ k, h.child n k = some c) →
        g.child = h.child → ∃ g', l.foldlM (fun h c => setOwner R fuel h c) g = some g' ∧
          Reowned R (fun i => ∃ c ∈ l, h.InTree c i) g g' := by
      intro l
      induction l with
      | nil =>
        intro g _ _
        exact ⟨g, rfl, ⟨fun i hi => by simp at hi, fun i _ => rfl⟩⟩
      | cons c l ihl =>
        intro g hl hg
        obtain ⟨k, hk⟩ := hl c List.mem_cons_self
        have hlenc : ∀ p m, walk g.child c p = some m → p.length < fuel := by
          intro p m hp
          rw [hg] at hp
          exact Nat.lt_of_succ_lt_succ (hlen (k :: p) m (by rw [walk, hk, Option.bind_some, hp]))
        obtain ⟨g₁, hg₁, hr₁⟩ := ih hlenc
        obtain ⟨g', hg', hr'⟩ := ihl g₁ (fun c' hc' => hl c' (List.mem_cons_of_mem _ hc'))
          (hr₁.child.trans hg)
        refine ⟨g', by rw [List.foldlM_cons, hg₁]; exact hg', (hr₁.trans hr').congr fun i => ?_⟩
        rw [InTree, hg]
        simp only [List.mem_cons, exists_eq_or_imp, InTree]
    obtain ⟨g, hg, hr⟩ := hloop (h.children n) h (fun c hc => mem_children.1 hc) rfl
    refine ⟨g.modify n fun y => { y with owner := some R }, by rw [setOwner, hg]; rfl, ?_⟩
    have hself : Reowned R (· = n) g (g.modify n fun y => { y with owner := some R }) := by
      constructor
      · rintro i rfl
        simp
      · intro i hi
        rw [List.getElem?_modify_ne _ _ (Ne.symm hi)]
    apply (hr.trans hself).congr
    intro i
    simp only [InTree, mem_children]
    rw [Visits.head_iff, or_comm]
    constructor
    · rintro (⟨k, c, hk, hv⟩ | heq)
      · exact .inl ⟨c, ⟨k, hk⟩, hv⟩
      · exact .inr heq
    · rintro (⟨c, ⟨k, hk⟩, hv⟩ | heq)
      · exact .inl ⟨k, c, hk, hv⟩
      · exact .inr heq

/-- **`setOwner` puts a tree in order** whose nodes are in their places, whoever owned them. -/
theorem inOrder_setOwner (hL : h.Linked root) (hR : h.Rooting R root) :
    ∃ h', h.setOwner R h.length root = some h' ∧ h'.InOrder R root ∧ h'.Rooting R root := by
  have hlt : ∀ b, h.InTree root b → b < h.length := by
    intro b hb
    by_cases hne : b = root
    · exact hne ▸ hR.root_lt
    · obtain ⟨d, k, -, hk⟩ := hb.last hne
      exact hR.lt_length hk
  have hlen : ∀ p m, walk h.child root p = some m → p.length < h.length := by
    intro p m hp
    rw [← Finset.card_range h.length]
    exact (hL.rooted hR).length_lt_card (fun b hb => Finset.mem_range.2 (hlt b hb)) hp
  obtain ⟨h', hs, hr⟩ := setOwner_reowned (R := R) hlen
  refine ⟨h', hs, fun d k n hd hn => ?_, hr.owner? (Visits.refl _ _) hR.root_lt, ?_, ?_⟩
  · rw [InTree, hr.child] at hd
    rw [hr.child] at hn
    have hp := hL d k n hd hn
    refine ⟨⟨by rw [hr.name?, hp.name], by rw [hr.parent?, hp.parent], fun e l he => ?_⟩,
      hr.owner? (hd.edge hn) (hR.lt_length hn)⟩
    exact hp.only e l (by rw [← he, hr.child])
  · rw [hr.child]
    exact hR.unstored
  · rw [hr.child, hr.length]
    exact hR.lt_length

/-! ### addChild -/

theorem Kept.addChild {e : NodeId} {l : Str} (hk : h.Kept R e l n) (hd : h.isDirectory d)
    (hc : c < h.length) (hne : n = c → e = d) : (h.addChild d (some c)).Kept R e l n := by
  obtain ⟨k, hname⟩ := exists_name hc
  refine ⟨⟨by rw [name?_addChild, hk.name], ?_, fun e' l' hn => ?_⟩,
    by rw [owner?_addChild, hk.owner]⟩
  · rw [parent?_addChild hc]
    split
    · next heq => rw [hne heq]
    · exact hk.parent
  · rw [child_addChild hd hname] at hn
    split at hn
    · next he => exact he.1.trans (hne (Option.some.inj hn).symm).symm
    · exact hk.only e' l' hn

theorem Rooting.addChild {child : Option NodeId} (hR : h.Rooting R root) (hd : h.isDirectory d)
    (hc : ∀ c ∈ child, c < h.length ∧ c ≠ root) : (h.addChild d child).Rooting R root := by
  cases child with
  | none => exact hR
  | some c =>
    obtain ⟨hlt, hne⟩ := hc c rfl
    obtain ⟨k, hname⟩ := exists_name hlt
    refine ⟨by rw [owner?_addChild, hR.owner], fun e l he => ?_, fun {e l n} he => ?_⟩
    · rw [child_addChild hd hname] at he
      split at he
      · exact hne (Option.some.inj he)
      · exact hR.unstored e l he
    · rw [length_addChild]
      rw [child_addChild hd hname] at he
      split at he
      · exact Option.some.inj he ▸ hlt
      · exact hR.lt_length he

/-- A node that may be added keeps the tree in order. -/
theorem InOrder.addChild (hP : h.InOrder R root) (hd : h.isDirectory d) (hc : c < h.length)
    (ha : h.Addable R root d c) : (h.addChild d (some c)).InOrder R root := by
  obtain ⟨k, hname⟩ := exists_name hc
  by_cases hin : h.InTree root d
  · -- the nodes of the tree and those below the child
    have honly := ha.only hin
    apply inOrder_of_closed (S := fun n => h.InTree root n ∨ h.InTree c n) (.inl (Visits.refl _ _))
    intro e l n he hn
    rw [child_addChild hd hname] at hn
    split at hn
    · next heq =>
      obtain ⟨rfl, rfl⟩ := heq
      obtain rfl := Option.some.inj hn
      refine ⟨.inr (Visits.refl _ _), ⟨by rw [name?_addChild, hname],
        by rw [parent?_addChild hc, if_pos rfl], fun e' l' hn' => ?_⟩,
        by rw [owner?_addChild, ha.owner hin]⟩
      rw [child_addChild hd hname] at hn'
      split at hn'
      · next he' => exact he'.1
      · exact honly e' l' hn'
    · have hkept : h.Kept R e l n := by
        rcases he with he | he
        · exact hP e l n he hn
        · exact ha.below hin e l n he hn
      refine ⟨he.imp (·.edge hn) (·.edge hn), hkept.addChild hd hc fun heq => ?_⟩
      exact honly e l (heq ▸ hn)
  · -- the directory is outside of the tree, and so is the child
    apply inOrder_of_closed (S := h.InTree root) (Visits.refl _ _)
    intro e l n he hn
    have hed : ¬(e = d ∧ l = k) := fun heq => hin (heq.1 ▸ he)
    rw [child_addChild hd hname, if_neg hed] at hn
    exact ⟨he.edge hn, (hP e l n he hn).addChild hd hc fun heq =>
      absurd (heq ▸ he.edge hn) (ha.outside hin)⟩

/-- A node that was added without harm could be added. -/
theorem InOrder.addable (hP : h.InOrder R root) (hR : h.Rooting R root) (hd : h.isDirectory d)
    (hc : c < h.length) (hne : c ≠ root) (hP' : (h.addChild d (some c)).InOrder R root) :
    h.Addable R root d c := by
  obtain ⟨k, hname⟩ := exists_name hc
  have hR' : (h.addChild d (some c)).Rooting R root :=
    hR.addChild hd fun _ hc' => Option.some.inj hc' ▸ ⟨hc, hne⟩
  have hagree : ∀ e, e ≠ d → (h.addChild d (some c)).child e = h.child e := by
    intro e he
    funext l
    rw [child_addChild hd hname, if_neg fun heq => he heq.1]
  have hself : (h.addChild d (some c)).child d k = some c := by
    rw [child_addChild hd hname, if_pos ⟨rfl, rfl⟩]
  by_cases hin : h.InTree root d
  · have hin' : (h.addChild d (some c)).InTree root d := hin.of_agree_off hagree
    have hkept := hP' d k c hin' hself
    have honly : ∀ e l, h.child e l = some c → e = d := by
      intro e l he
      by_contra hed
      exact hed (hkept.only e l (by rw [hagree e hed, he]))
    -- the directory is not below its child
    have hback : ¬Visits h.child c d := fun hv =>
      (hP'.linked.rooted hR').not_visits hin' hself (hv.of_agree_off hagree)
    have howner : h.owner? c = some R := by rw [← hkept.owner, owner?_addChild]
    refine ⟨fun _ => howner, fun _ => honly, fun _ e l n he hn => ?_, fun hout => absurd hin hout⟩
    have hed : e ≠ d := fun heq => hback (heq ▸ he)
    have he' : (h.addChild d (some c)).InTree root e :=
      (hin'.edge hself).trans (he.of_agree fun b hb => hagree b fun heq => hback (heq ▸ hb))
    have hn' := hP' e l n he' (by rw [hagree e hed, hn])
    refine ⟨⟨by rw [← hn'.name, name?_addChild], ?_, fun e' l' hs => ?_⟩,
      by rw [← hn'.owner, owner?_addChild]⟩
    · have hnc : n ≠ c := fun heq => hed (honly e l (heq ▸ hn))
      rw [← hn'.parent, parent?_addChild hc, if_neg hnc]
    · by_cases hed' : e' = d
      · -- the directory itself stores the node already
        subst hed'
        exact ((hP e' l' n hin hs).only e l hn).symm
      · exact hn'.only e' l' (by rw [hagree e' hed', hs])
  · refine ⟨fun h => absurd h hin, fun h => absurd h hin, fun h => absurd h hin, fun _ hcin => ?_⟩
    obtain ⟨e, l, he, hl⟩ := hcin.last hne
    have hed : e ≠ d := fun heq => hin (heq ▸ he)
    have he' : (h.addChild d (some c)).InTree root e :=
      he.of_agree fun b hb => hagree b fun heq => hin (heq ▸ hb)
    have hparent := (hP' e l c he' (by rw [hagree e hed, hl])).parent
    rw [parent?_addChild hc, if_pos rfl] at hparent
    exact hed (Option.some.inj hparent).symm

/-- **`addChild` keeps a tree in order exactly if the child may be added.** -/
theorem inOrder_addChild_iff {child : Option NodeId} (hP : h.InOrder R root)
    (hR : h.Rooting R root) (hd : h.isDirectory d) (hc : ∀ c ∈ child, c < h.length ∧ c ≠ root) :
    (h.addChild d child).InOrder R root ↔ ∀ c ∈ child, h.Addable R root d c := by
  cases child with
  | none => simpa [addChild] using hP
  | some c =>
    obtain ⟨hlt, hne⟩ := hc c rfl
    simp only [Option.mem_some_iff, forall_eq']
    exact ⟨hP.addable hR hd hlt hne, hP.addChild hd hlt⟩

end Order

end Heap

end Jord.Rc
