import Jord.Foundations.Machine
import Jord.Rc.Overlay
import Jord.Rc.TreeOrder

/-!
# Changing a resource tree

What a program can do to the tree of a `Root` object from outside is the machine `operations`. Its
runs keep the tree in order exactly if every child is added where it may be (`along_safe_iff`).

The tree a constructor of `Root` returns is in order (`inOrder_of_construct`). What the order is for
is that the owner of a node that is found can be dereferenced (`owner_of_find`).
-/

namespace Jord.Rc.Heap

/-- `Directory::addChildren` -/
def addChildren (h : Heap) (d : NodeId) (children : List (Option NodeId)) : Heap :=
  children.foldl (fun h child => h.addChild d child) h

/-! ## The operations -/

/-- What a program can do from outside. -/
inductive Operation
  | newDirectory (name : Str) (parent : Option NodeId)
  | newFile (offset size : ℕ) (name : Str) (parent : Option NodeId)
  | addChild (d : NodeId) (child : Option NodeId)
  | addChildren (d : NodeId) (children : List (Option NodeId))
  /-- `setOwner` of the root directory, with the `Root` object it belongs to. -/
  | setOwner
  /-- A node is destroyed. In the program that happens when its last `NodePtr` is given up, within
  `addChild` for a node that is replaced; here it may happen at any time. -/
  | destroy (n : NodeId)

/-- A call of `setOwner` that does not return. -/
inductive Endless
  | setOwner

/-- The pointers that the operation is given point to nodes, and `addChild` is a member of
directories. No `NodePtr` points to the root directory: a `Root` object hands out a
`Directory*`. -/
def Callable (root : NodeId) (h : Heap) : Operation → Prop
  | .newDirectory _ parent => ∀ p ∈ parent, p < h.length
  | .newFile _ _ _ parent => ∀ p ∈ parent, p < h.length
  | .addChild d child => h.isDirectory d ∧ ∀ c ∈ child, c < h.length ∧ c ≠ root
  | .addChildren d children =>
    h.isDirectory d ∧ ∀ child ∈ children, ∀ c ∈ child, c < h.length ∧ c ≠ root
  | .setOwner => True
  | .destroy n => n ≠ root

/-- The operations on the heap with the tree of `R` below `root`. A call of `setOwner` that goes
deeper than there are nodes does not return. -/
def operations (R : RootId) (root : NodeId) : Machine Heap Operation Endless where
  enabled := Callable root
  step h
    | .newDirectory name parent => .ok (h.constructed (h.newDirectory name parent))
    | .newFile offset size name parent => .ok (h.constructed (h.newFile offset size name parent))
    | .addChild d child => .ok (h.addChild d child)
    | .addChildren d children => .ok (h.addChildren d children)
    | .setOwner =>
      match h.setOwner R h.length root with
      | none => .error .setOwner
      | some h' => .ok h'
    | .destroy n => .ok (h.destroy n)

/-- Each child may be added when its turn comes. -/
def EachAddable (R : RootId) (root d : NodeId) : Heap → List (Option NodeId) → Prop
  | _, [] => True
  | h, child :: children =>
    (∀ c ∈ child, h.Addable R root d c) ∧ EachAddable R root d (h.addChild d child) children

/-- The operations that keep the tree in order. -/
def Safe (R : RootId) (root : NodeId) (h : Heap) : Operation → Prop
  | .addChild d child => ∀ c ∈ child, h.Addable R root d c
  | .addChildren d children => EachAddable R root d h children
  | _ => True

/-- The operation returns, and `addChildren` has the tree in order after each of its calls of
`addChild`. -/
def Completes (R : RootId) (root : NodeId) (h : Heap) (o : Operation) : Prop :=
  (∃ h', (operations R root).step h o = .ok h') ∧
    ∀ d children, o = .addChildren d children →
      ∀ pre, pre <+: children → (h.addChildren d pre).InOrder R root

/-! ## Where trees come from, and what the order is for -/

/-- **The constructor of `Root` builds a tree in order.** -/
theorem inOrder_of_construct {h : Heap} (hok : Ok h) {toc : List TOCItem} {R : RootId} {fuel : ℕ}
    {c : Root.Constructed} (hc : Root.construct fuel h R toc = some (.ok c)) :
    c.heap.InOrder R c.rootDirectory ∧ c.heap.Rooting R c.rootDirectory := by
  obtain ⟨hroot, hcon⟩ := Root.constructs_of_construct hok hc
  rw [hroot]
  constructor
  · intro d k n hd hk
    obtain ⟨p, hp⟩ := hd
    rw [← resolve_eq_walk] at hp
    refine ⟨⟨hcon.ok.name hk, hcon.ok.parent hk, fun e l he => ?_⟩, ?_⟩
    · exact Option.some.inj ((hcon.ok.parent he).symm.trans (hcon.ok.parent hk))
    · rw [hcon.ok.owner hk, hcon.ok.owner_resolve hp, hcon.owner]
  · refine ⟨hcon.owner, fun d k hk => ?_, hcon.ok.lt_length⟩
    cases (hcon.ok.parent hk).symm.trans hcon.parent

/-- The tree of a `Root` object without entries. -/
theorem inOrder_withRoot (R : RootId) :
    (Root.withRoot [] R).InOrder R 0 ∧ (Root.withRoot [] R).Rooting R 0 := by
  have hc : Root.construct 0 [] R [⟨.directory, [], 0, 0⟩] =
      some (.ok ⟨Root.withRoot [] R, 0, 0, [0]⟩) := rfl
  exact inOrder_of_construct ok_nil hc

/-- **The owner of a node that is found can be dereferenced**, and is the `Root` object that was
searched. -/
theorem owner_of_find {P : Packs} {R : RootId} {r : Root} (hr : P.roots[R]? = some r)
    (hP : P.heap.InOrder R r.rootDirectory) (hR : P.heap.Rooting R r.rootDirectory) {path : Str}
    {n : NodeId} (hn : r.find P.heap path = .ok (some n)) : P.owner n = .ok r := by
  simp only [Root.find, findRecursive_eq, resolve_eq_walk] at hn
  split at hn
  · cases hn
  · have hin : P.heap.InTree r.rootDirectory n := ⟨_, Except.ok.inj hn⟩
    simp only [Packs.owner, hP.owner hR hin, hr]

section Runs

variable {h : Heap} {R : RootId} {root d : NodeId}

/-! ## addChildren -/

theorem Rooting.addChildren {children : List (Option NodeId)} (hR : h.Rooting R root)
    (hd : h.isDirectory d) (hc : ∀ child ∈ children, ∀ c ∈ child, c < h.length ∧ c ≠ root) :
    (h.addChildren d children).Rooting R root := by
  induction children generalizing h with
  | nil => exact hR
  | cons child children ih =>
    apply ih (hR.addChild hd (hc child List.mem_cons_self))
    · rw [isDirectory_addChild, hd]
    · intro child' hmem c hc'
      rw [length_addChild]
      exact hc child' (List.mem_cons_of_mem _ hmem) c hc'

/-- `addChildren` has the tree in order after each call of `addChild` exactly if each child may be
added when its turn comes. -/
theorem eachAddable_iff {children : List (Option NodeId)} (hP : h.InOrder R root)
    (hR : h.Rooting R root) (hd : h.isDirectory d)
    (hc : ∀ child ∈ children, ∀ c ∈ child, c < h.length ∧ c ≠ root) :
    EachAddable R root d h children ↔
      ∀ pre, pre <+: children → (h.addChildren d pre).InOrder R root := by
  induction children generalizing h with
  | nil =>
    refine ⟨fun _ pre hpre => ?_, fun _ => trivial⟩
    obtain rfl := List.prefix_nil.1 hpre
    exact hP
  | cons child children ih =>
    have hhead := hc child List.mem_cons_self
    have hadd := inOrder_addChild_iff hP hR hd hhead
    have hnext := fun hP' => ih (h := h.addChild d child) hP' (hR.addChild hd hhead)
      (by rw [isDirectory_addChild, hd])
      fun child' hmem c hc' => by
        rw [length_addChild]
        exact hc child' (List.mem_cons_of_mem _ hmem) c hc'
    constructor
    · rintro ⟨hchild, hrest⟩ pre hpre
      rcases pre with _ | ⟨child', pre⟩
      · exact hP
      · obtain ⟨rfl, htail⟩ := List.cons_prefix_cons.1 hpre
        exact (hnext (hadd.2 hchild)).1 hrest pre htail
    · intro hpre
      have hP' : (h.addChild d child).InOrder R root :=
        hpre [child] (List.cons_prefix_cons.2 ⟨rfl, List.nil_prefix⟩)
      exact ⟨hadd.1 hP', (hnext hP').2 fun pre hpre' =>
        hpre (child :: pre) (List.cons_prefix_cons.2 ⟨rfl, hpre'⟩)⟩

/-! ## Runs -/

/-- The operations that are not calls of `addChild` keep the order, and all keep the tree rooted. -/
theorem rooting_step {h' : Heap} {o : Operation} (hR : h.Rooting R root) (hP : h.InOrder R root)
    (ho : Callable root h o) (hs : (operations R root).step h o = .ok h') :
    h'.Rooting R root := by
  cases o with
  | newDirectory name parent =>
    obtain rfl := Except.ok.inj hs
    exact (inOrder_newNode hP hR ho name rfl).2
  | newFile offset size name parent =>
    obtain rfl := Except.ok.inj hs
    exact (inOrder_newNode hP hR ho name rfl).2
  | addChild d child =>
    obtain rfl := Except.ok.inj hs
    exact hR.addChild ho.1 ho.2
  | addChildren d children =>
    obtain rfl := Except.ok.inj hs
    exact hR.addChildren ho.1 ho.2
  | setOwner =>
    obtain ⟨h₁, hset, -, hR'⟩ := inOrder_setOwner hP.linked hR
    simp only [operations, hset, Except.ok.injEq] at hs
    exact hs ▸ hR'
  | destroy n =>
    obtain rfl := Except.ok.inj hs
    exact (inOrder_destroy hP hR n).2

/-- An operation is safe exactly if it completes with the tree in order. -/
theorem safe_iff_step {o : Operation} (hR : h.Rooting R root) (hP : h.InOrder R root)
    (ho : Callable root h o) :
    Safe R root h o ↔ Completes R root h o ∧
      ∀ h', (operations R root).step h o = .ok h' → h'.InOrder R root := by
  have hplain : ∀ {o : Operation} {h' : Heap}, (operations R root).step h o = .ok h' →
      (∀ d children, o ≠ .addChildren d children) → Completes R root h o :=
    fun hs hne => ⟨⟨_, hs⟩, fun d children heq => absurd heq (hne d children)⟩
  cases o with
  | newDirectory name parent =>
    exact Machine.exact_of_ok rfl (hplain rfl nofun)
      (iff_of_true trivial (inOrder_newNode hP hR ho name rfl).1)
  | newFile offset size name parent =>
    exact Machine.exact_of_ok rfl (hplain rfl nofun)
      (iff_of_true trivial (inOrder_newNode hP hR ho name rfl).1)
  | addChild d child =>
    exact Machine.exact_of_ok rfl (hplain rfl nofun) (inOrder_addChild_iff hP hR ho.1 ho.2).symm
  | addChildren d children =>
    have heach := eachAddable_iff hP hR ho.1 ho.2
    constructor
    · intro hsafe
      refine ⟨⟨⟨_, rfl⟩, fun d' children' heq pre hpre => ?_⟩, fun h' hs => ?_⟩
      · obtain ⟨rfl, rfl⟩ := Operation.addChildren.inj heq
        exact heach.1 hsafe pre hpre
      · obtain rfl := Except.ok.inj hs
        exact heach.1 hsafe children (List.prefix_refl _)
    · rintro ⟨⟨-, hcalls⟩, -⟩
      exact heach.2 (hcalls d children rfl)
  | setOwner =>
    obtain ⟨h', hset, hP', -⟩ := inOrder_setOwner hP.linked hR
    have hs : (operations R root).step h .setOwner = .ok h' := by
      simp only [operations, hset]
    exact Machine.exact_of_ok hs (hplain hs nofun) (iff_of_true trivial hP')
  | destroy n =>
    exact Machine.exact_of_ok rfl (hplain rfl nofun)
      (iff_of_true trivial (inOrder_destroy hP hR n).1)

/-- **Runs that keep a tree in order.** The tree of a `Root` object is in order after every
operation of a run, each call of `addChild` that `addChildren` makes included, exactly if every
child is added where it may be. -/
theorem along_safe_iff (hR : h.Rooting R root) (hP : h.InOrder R root) {os : List Operation}
    (hos : (operations R root).Along (Callable root) h os) :
    (operations R root).Along (Safe R root) h os ↔
      (operations R root).Along (Completes R root) h os ∧
        (operations R root).Throughout (fun h => h.InOrder R root) h os :=
  Machine.along_iff (fun _ _ _ hR hP ho hs _ => rooting_step hR hP ho hs)
    (fun _ _ hR hP ho => safe_iff_step hR hP ho) hR hP hos

/-- A tree with a directory and a file in it, which is then added once more where it is. -/
theorem along_safe_iff_again :
    let h := Root.withRoot [] 0
    let os := [.newDirectory (Str.ascii "a") (some 0), .newFile 0 1 (Str.ascii "f") (some 1),
      .addChild 1 (some 2)]
    (operations 0 0).Along (Safe 0 0) h os ↔ (operations 0 0).Along (Completes 0 0) h os ∧
      (operations 0 0).Throughout (fun h => h.InOrder 0 0) h os := by
  obtain ⟨hP, hR⟩ := inOrder_withRoot 0
  apply along_safe_iff hR hP
  refine .cons ?_ rfl (.cons ?_ rfl (.cons ⟨by decide, ?_⟩ rfl trivial))
  · rintro p ⟨⟩
    decide
  · rintro p ⟨⟩
    decide
  · rintro c ⟨⟩
    decide

/-- A file that is constructed without a parent and then added to the root directory has no
owner. -/
theorem along_safe_counterexample :
    let h := Root.withRoot [] 0
    let os := [.newFile 0 1 (Str.ascii "f") none, .addChild 0 (some 1)]
    h.Rooting 0 0 ∧ h.InOrder 0 0 ∧ (operations 0 0).Along (Callable 0) h os ∧
      ¬(operations 0 0).Throughout (fun h => h.InOrder 0 0) h os := by
  obtain ⟨hP, hR⟩ := inOrder_withRoot 0
  refine ⟨hR, hP, .cons nofun rfl (.cons ⟨by decide, ?_⟩ rfl trivial), fun hrun => ?_⟩
  · rintro c ⟨⟩
    decide
  · have hlast := (hrun.2 _ rfl).2 _ rfl
    have hkept := hlast 0 (Str.ascii "f") 1 (Visits.refl _ _) (by decide)
    exact absurd hkept.owner (by decide)

end Runs

end Jord.Rc.Heap
