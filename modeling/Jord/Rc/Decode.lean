import Jord.Foundations.Forest
import Jord.Rc.Root

/-!
# The table of contents of a forest, and its constructor

`tocItems` lists a forest in preorder, each directory with the number of its entries. The
constructor of `Root` run on such a list rebuilds the forest (`parse_rounds`): a subtree is consumed
by as many rounds as it has entries, and the stack is then as if the subtree had not been there.
`Built` is what the heap has gained.
-/

namespace Jord.Rc

/-- The items of a forest in preorder. -/
def tocItems : Forest Str Extent → List TOCItem
  | .nil => []
  | .leaf k e rest => ⟨.file, k, e.offset, e.size⟩ :: tocItems rest
  | .node k sub rest => ⟨.directory, k, sub.width, 0⟩ :: (tocItems sub ++ tocItems rest)

@[simp] theorem length_tocItems (F : Forest Str Extent) : (tocItems F).length = F.size := by
  induction F with
  | nil => rfl
  | leaf k e rest ih => simp [tocItems, Forest.size, ih]
  | node k sub rest ih₁ ih₂ => simp [tocItems, Forest.size, ih₁, ih₂]

namespace Heap

/-- Nodes whose subtree is untouched keep their tree. -/
theorem store_frame {h h' : Heap} (hok : Ok h) {n : ℕ} (hn : n < h.length)
    (hget : ∀ i < h.length, n ≤ i → h'[i]? = h[i]?) : h'.store n = h.store n := by
  have hres : ∀ p (c : ℕ), n ≤ c → c < h.length → h'.resolve c p = h.resolve c p := by
    intro p
    induction p with
    | nil => intros; rfl
    | cons k p ih =>
      intro c hnc hc
      have hchild : h'.child c k = h.child c k := by
        simp only [child, lookup, hget c hc hnc]
      simp only [resolve_cons, hchild]
      cases hk : h.child c k with
      | none => rfl
      | some e => exact ih e (hnc.trans (hok.lt hk).le) (hok.lt_length hk)
  funext p
  simp only [store, hres p n le_rfl hn]
  cases hp : h.resolve n p with
  | none => rfl
  | some c =>
    simp only [Option.bind_some, entryOf,
      hget c (hok.resolve_lt_length hn hp) (hok.le_resolve hp)]

/-- The heap `h'` is `h` with the forest `F` constructed under the directory `d`: the nodes of `h`
are as they were, but for the table of `d`. -/
structure Built (h : Heap) (d : NodeId) (F : Forest Str Extent) (h' : Heap) : Prop where
  ok : Ok h'
  views : Views h h'
  get : ∀ i < h.length, i ≠ d → h'[i]? = h[i]?
  child_old : ∀ k ∉ F.names, h'.child d k = h.child d k
  store_new : ∀ k ∈ F.names, ∀ ks, h'.store d (k :: ks) = F.entryAt (k :: ks)

namespace Built

theorem nil {h : Heap} (hok : Ok h) (d : NodeId) : Built h d .nil h :=
  ⟨hok, .refl h, fun _ _ _ => rfl, fun _ _ => rfl, fun _ hk => by simp [Forest.names] at hk⟩

variable {h h₁ h₂ h₃ : Heap} {d : ℕ} {k : Str} {sub rest : Forest Str Extent}

theorem leaf {e : Extent} (hd : h.isDirectory d)
    (ha : Attached h d k (.file e) h₁) (hk : k ∉ rest.names) (hb : Built h₁ d rest h₂) :
    Built h d (.leaf k e rest) h₂ := by
  have hl : h.length < h₁.length := by rw [ha.length]; exact Nat.lt_succ_self _
  have hne : ∀ n < h.length, n ≠ h.length := fun _ hn => Nat.ne_of_lt hn
  refine ⟨hb.ok, ha.views.trans hb.views, fun i hi hid => ?_, fun k' hk' => ?_,
    fun k' hk' ks => ?_⟩
  · rw [hb.get i (hi.trans hl) hid, ha.get_other i hid (hne i hi)]
  · simp only [Forest.names, List.mem_cons, not_or] at hk'
    rw [hb.child_old k' hk'.2, ha.child hd rfl]
    simp [hk'.1, ha.ne_length]
  · by_cases hkk : k' = k
    · subst hkk
      have hc : h₂.child d k' = some h.length := by
        rw [hb.child_old k' hk, ha.child hd rfl]
        simp
      have hnew : h₂[h.length]? = some ⟨k', some d, h.owner? d, .file e⟩ := by
        rw [hb.get _ hl ha.ne_length.symm, ha.get_new]
      have hnone : ∀ t, h₂.child h.length t = none := fun t => by
        simp [child, lookup, hnew, NodeData.lookup]
      cases ks with
      | nil => simp [store, resolve_cons, hc, Forest.entryAt, entryOf, hnew, NodeData.entry]
      | cons t ks => simp [store, resolve_cons, hc, Forest.entryAt, hnone]
    · simp only [Forest.names, List.mem_cons, hkk, false_or] at hk'
      rw [hb.store_new k' hk', Forest.entryAt, if_neg hkk]

theorem node (hd : h.isDirectory d)
    (ha : Attached h d k (.directory ∅) h₁) (hk : k ∉ rest.names)
    (hs : Built h₁ h.length sub h₂) (hb : Built h₂ d rest h₃) :
    Built h d (.node k sub rest) h₃ := by
  have hl : h.length < h₁.length := by rw [ha.length]; exact Nat.lt_succ_self _
  have hl₂ : h.length < h₂.length := hl.trans_le hs.views.le
  have hne : ∀ n < h.length, n ≠ h.length := fun _ hn => Nat.ne_of_lt hn
  refine ⟨hb.ok, (ha.views.trans hs.views).trans hb.views, fun i hi hid => ?_, fun k' hk' => ?_,
    fun k' hk' ks => ?_⟩
  · rw [hb.get i (hi.trans hl₂) hid, hs.get i (hi.trans hl) (hne i hi),
      ha.get_other i hid (hne i hi)]
  · simp only [Forest.names, List.mem_cons, not_or] at hk'
    have hget : h₂[d]? = h₁[d]? := hs.get d (ha.lt.trans hl) ha.ne_length
    rw [hb.child_old k' hk'.2, child, lookup, hget, ← lookup, ← child, ha.child hd rfl]
    simp [hk'.1, ha.ne_length]
  · by_cases hkk : k' = k
    · subst hkk
      have hget : h₂[d]? = h₁[d]? := hs.get d (ha.lt.trans hl) ha.ne_length
      have hc : h₃.child d k' = some h.length := by
        rw [hb.child_old k' hk, child, lookup, hget, ← lookup, ← child, ha.child hd rfl]
        simp
      -- the siblings that follow leave the subtree alone
      have hsub : h₃.store h.length = h₂.store h.length :=
        store_frame hs.ok hl₂ fun i hi hni => hb.get i hi (Nat.ne_of_gt (ha.lt.trans_le hni))
      have hstep : h₃.store d (k' :: ks) = h₂.store h.length ks := by
        rw [← hsub]
        simp [store, resolve_cons, hc]
      rw [hstep, Forest.entryAt, if_pos rfl]
      cases ks with
      | nil => simp [store, Forest.entryAt_nil, hs.views.entry _ hl, ha.entryOf, NodeData.entry]
      | cons t ks =>
        by_cases ht : t ∈ sub.names
        · exact hs.store_new t ht ks
        · rw [Forest.entryAt_of_notMem ht]
          simp [store, resolve_cons, hs.child_old t ht, ha.child hd rfl, ha.ne_length.symm]
    · simp only [Forest.names, List.mem_cons, hkk, false_or] at hk'
      rw [hb.store_new k' hk', Forest.entryAt, if_neg hkk]

/-- The tree below a directory that was empty. -/
theorem store_eq (hb : Built h d sub h₂) (hd : h.isDirectory d) (hempty : ∀ k, h.child d k = none) :
    h₂.store d = sub.entryAt := by
  funext p
  cases p with
  | nil =>
    simp only [Forest.entryAt_nil, store, resolve_nil, Option.bind_some]
    rw [hb.views.entry d (lt_of_isDirectory hd)]
    exact isDirectory_iff.1 hd
  | cons k ks =>
    by_cases hk : k ∈ sub.names
    · exact hb.store_new k hk ks
    · rw [Forest.entryAt_of_notMem hk]
      simp [store, resolve_cons, hb.child_old k hk, hempty]

end Built

end Heap

namespace Root

open Heap

theorem popFinished_of_pos {d : NodeId} {n : ℕ} (hn : 0 < n) (st : List (NodeId × ℕ)) :
    popFinished ((d, n) :: st) = (d, n) :: st := by
  obtain ⟨n, rfl⟩ := Nat.exists_eq_succ_of_ne_zero hn.ne'
  rfl

/-- **A forest is consumed by as many rounds as it has entries**: the heap gains the forest, the
counter of its directory loses the width of the forest, and the stack below is untouched. -/
theorem parse_rounds (toc : List TOCItem) (F : Forest Str Extent) (hF : F.Wf) :
    ∀ (h : Heap) (d : NodeId) (m : ℕ) (st : List (NodeId × ℕ)) (current : ℕ) (visited : List ℕ)
      (tail : List TOCItem), Ok h → h.isDirectory d →
      toc.drop (current + 1) = tocItems F ++ tail →
      ∃ h', Built h d F h' ∧ Loop.Rounds (parseStep toc) F.size
        ⟨h, popFinished ((d, F.width + m) :: st), current, visited⟩
        ⟨h', popFinished ((d, m) :: st), current + F.size,
          visited ++ List.range' (current + 1) F.size⟩ := by
  induction F with
  | nil =>
    intro h d m st current visited tail hok hd htoc
    refine ⟨h, .nil hok d, ?_⟩
    simpa [Forest.width, Forest.size] using Loop.Rounds.refl _
  | leaf k e rest ih =>
    intro h d m st current visited tail hok hd htoc
    obtain ⟨h₁, hnew, ha⟩ := newNode_attached hd k (.file e)
    have hd₁ : h₁.isDirectory d := by
      simpa [isDirectory, ha.entryOf, ha.ne_length] using hd
    have hitem : toc[current + 1]? = some ⟨.file, k, e.offset, e.size⟩ := by
      rw [← List.head?_drop, htoc]
      rfl
    have htail : toc.drop (current + 1 + 1) = tocItems rest ++ tail := by
      rw [← List.tail_drop, htoc]
      rfl
    obtain ⟨h₂, hb, hr⟩ := ih hF.2 h₁ d m st (current + 1) (visited ++ [current + 1]) tail
      (hok.attached hd rfl ha) hd₁ htail
    refine ⟨h₂, .leaf hd ha hF.1 hb, ?_⟩
    have hstep : parseStep toc ⟨h, popFinished ((d, rest.width + 1 + m) :: st), current, visited⟩ =
        .inl ⟨h₁, popFinished ((d, rest.width + m) :: st), current + 1,
          visited ++ [current + 1]⟩ := by
      rw [popFinished_of_pos (by omega), show rest.width + 1 + m = rest.width + m + 1 by omega]
      simp only [parseStep, hitem, newFile, TOCItem.offset]
      rw [hnew]
    have hall := Loop.Rounds.next hstep hr
    rw [Forest.size, Forest.width, List.range'_succ, ← Nat.add_assoc, Nat.add_right_comm current,
      List.append_cons]
    exact hall
  | node k sub rest ih₁ ih₂ =>
    intro h d m st current visited tail hok hd htoc
    obtain ⟨hk, hne, hsub, hrest⟩ := hF
    obtain ⟨h₁, hnew, ha⟩ := newNode_attached hd k (.directory ∅)
    have hd₁ : h₁.isDirectory d := by
      simpa [isDirectory, ha.entryOf, ha.ne_length] using hd
    have hitem : toc[current + 1]? = some ⟨.directory, k, sub.width, 0⟩ := by
      rw [← List.head?_drop, htoc]
      rfl
    have htail : toc.drop (current + 1 + 1) = tocItems sub ++ (tocItems rest ++ tail) := by
      rw [← List.tail_drop, htoc]
      simp [tocItems]
    have hwidth : sub.width ≠ 0 := fun h0 => hne (Forest.width_eq_zero.1 h0)
    -- the entries of the new directory, with the rest of `d` waiting below
    obtain ⟨h₂, hs, hr₁⟩ := ih₁ hsub h₁ h.length 0 ((d, rest.width + m) :: st) (current + 1)
      (visited ++ [current + 1]) (tocItems rest ++ tail) (hok.attached hd rfl ha)
      (by simp [isDirectory, ha.entryOf, NodeData.entry]) htail
    have hd₂ : h₂.isDirectory d := by
      rw [isDirectory, hs.views.entry d (by rw [ha.length]; exact ha.lt.trans (Nat.lt_succ_self _))]
      exact hd₁
    have htail₂ : toc.drop (current + 1 + sub.size + 1) = tocItems rest ++ tail := by
      have := congrArg (List.drop sub.size) htail
      rw [List.drop_drop, List.drop_left' (length_tocItems sub)] at this
      rw [← this]
      congr 1
      omega
    obtain ⟨h₃, hb, hr₂⟩ := ih₂ hrest h₂ d m st (current + 1 + sub.size)
      (visited ++ [current + 1] ++ List.range' (current + 1 + 1) sub.size) tail hs.ok hd₂ htail₂
    refine ⟨h₃, .node hd ha hk hs hb, ?_⟩
    have hstep : parseStep toc ⟨h, popFinished ((d, rest.width + 1 + m) :: st), current, visited⟩ =
        .inl ⟨h₁, popFinished ((h.length, sub.width + 0) :: (d, rest.width + m) :: st), current + 1,
          visited ++ [current + 1]⟩ := by
      rw [popFinished_of_pos (by omega), show rest.width + 1 + m = rest.width + m + 1 by omega]
      simp only [parseStep, hitem, newDirectory, TOCItem.entriesCount]
      rw [hnew]
      simp [hwidth]
    have hall := (Loop.Rounds.next hstep hr₁).trans hr₂
    have hvisited : visited ++ List.range' (current + 1) (sub.size + rest.size + 1) =
        visited ++ [current + 1] ++ List.range' (current + 1 + 1) sub.size ++
          List.range' (current + 1 + sub.size + 1) rest.size := by
      have happ := List.range'_append_1 (s := current + 1 + 1) (m := sub.size) (n := rest.size)
      rw [List.range'_succ, ← happ,
        show current + 1 + 1 + sub.size = current + 1 + sub.size + 1 by omega]
      simp
    rw [Forest.size, Forest.width, hvisited,
      show current + (sub.size + rest.size + 1) = current + 1 + sub.size + rest.size by omega,
      show sub.size + rest.size + 1 = sub.size + 1 + rest.size by omega]
    exact hall

/-- The heap with a fresh root directory owned by `self`. -/
def withRoot (h : Heap) (self : RootId) : Heap :=
  h ++ [⟨Str.ascii ":/", none, some self, .directory ∅⟩]

theorem length_withRoot (h : Heap) (self : RootId) : (withRoot h self).length = h.length + 1 := by
  simp [withRoot]

theorem withRoot_get {h : Heap} {self : RootId} {i : ℕ} (hi : i < h.length) :
    (withRoot h self)[i]? = h[i]? := List.getElem?_append_left hi

theorem withRoot_get_length (h : Heap) (self : RootId) :
    (withRoot h self)[h.length]? = some ⟨Str.ascii ":/", none, some self, .directory ∅⟩ := by
  simp [withRoot]

theorem setOwner_newRoot (h : Heap) (self : RootId) :
    (h ++ [⟨Str.ascii ":/", none, none, .directory ∅⟩] : Heap).setOwner self 1 h.length =
      some (withRoot h self) := by
  have hempty :
      (h ++ [⟨Str.ascii ":/", none, none, .directory ∅⟩] : Heap).children h.length = [] := by
    simp [children, lookup, NodeData.lookup]
  rw [setOwner, hempty]
  simp [withRoot, List.modify_eq_take_cons_drop]

theorem withRoot_child (h : Heap) (self : RootId) (d : ℕ) (k : Str) :
    (withRoot h self).child d k = h.child d k := by
  rcases Nat.lt_trichotomy d h.length with hd | rfl | hd
  · simp only [child, lookup, withRoot_get hd]
  · simp [child, lookup, withRoot_get_length, NodeData.lookup]
  · have h1 : (withRoot h self)[d]? = none :=
      List.getElem?_eq_none (by rw [length_withRoot]; exact hd)
    simp [child, lookup, h1, List.getElem?_eq_none hd.le]

theorem withRoot_ok {h : Heap} (hok : Ok h) (self : RootId) : Ok (withRoot h self) := by
  constructor <;> intro d k c hc <;> rw [withRoot_child] at hc
  · exact hok.lt hc
  · rw [length_withRoot]
    exact (hok.lt_length hc).trans (Nat.lt_succ_self _)
  · rw [name?, withRoot_get (hok.lt_length hc)]
    exact hok.name hc
  · rw [parent?, withRoot_get (hok.lt_length hc)]
    exact hok.parent hc
  · rw [owner?, owner?, withRoot_get (hok.lt_length hc),
      withRoot_get ((hok.lt hc).trans (hok.lt_length hc))]
    exact hok.owner hc

/-- The heap after the constructor of `root` has read the table of contents of the forest `F`. -/
structure Decoded (h : Heap) (root : RootId) (F : Forest Str Extent) (h' : Heap) : Prop where
  ok : Ok h'
  lt : h.length < h'.length
  get : ∀ i < h.length, h'[i]? = h[i]?
  name : h'.name? h.length = some (Str.ascii ":/")
  parent : h'.parent? h.length = none
  owner : h'.owner? h.length = some root
  store : h'.store h.length = F.entryAt

/-- **The constructor on the table of contents of a forest** rebuilds the forest. It looks at the
items of the forest once each and in order, and never at what follows them. -/
theorem construct_tocItems {h : Heap} (hok : Ok h) (self : RootId) (name : Str)
    {F : Forest Str Extent} (hF : F.Wf) (tail : List TOCItem) {fuel : ℕ} (hfuel : F.size < fuel) :
    ∃ h', construct fuel h self (⟨.directory, name, F.width, 0⟩ :: (tocItems F ++ tail)) =
        some (.ok ⟨h', h.length, F.size, List.range (F.size + 1)⟩) ∧ Decoded h self F h' := by
  set toc := (⟨.directory, name, F.width, 0⟩ : TOCItem) :: (tocItems F ++ tail) with htoc
  have hd : (withRoot h self).isDirectory h.length := by
    simp [isDirectory, entryOf, withRoot_get_length, NodeData.entry]
  have hempty : ∀ k, (withRoot h self).child h.length k = none := fun k => by
    simp [child, lookup, withRoot_get_length, NodeData.lookup]
  obtain ⟨h', hb, hr⟩ := parse_rounds toc F hF (withRoot h self) h.length 0 [] 0 [0] tail
    (withRoot_ok hok self) hd (by rw [htoc]; rfl)
  have hlt : h.length < (withRoot h self).length := by simp [length_withRoot]
  have hdec : Decoded h self F h' :=
    ⟨hb.ok, hlt.trans_le hb.views.le,
      fun i hi => by rw [hb.get i (hi.trans hlt) hi.ne, withRoot_get hi],
      by rw [hb.views.name _ hlt, name?, withRoot_get_length]; rfl,
      by rw [hb.views.parent _ hlt, parent?, withRoot_get_length]; rfl,
      by rw [hb.views.owner _ hlt, owner?, withRoot_get_length]; rfl, hb.store_eq hd hempty⟩
  refine ⟨h', ?_, hdec⟩
  have hnew : h.newDirectory (Str.ascii ":/") none =
      .ok (h ++ [⟨Str.ascii ":/", none, none, .directory ∅⟩], h.length) := rfl
  simp only [construct, htoc, List.getElem?_cons_zero, ne_eq, not_true_eq_false, if_false, hnew,
    setOwner_newRoot, Option.bind_eq_bind, Option.bind_some]
  by_cases hF0 : F = .nil
  · -- an empty pack: the constructor returns before its loop
    subst hF0
    obtain rfl : h' = withRoot h self := by
      cases hr
      rfl
    simp [Forest.width, Forest.size]
  · have hw : F.width ≠ 0 := fun hw => hF0 (Forest.width_eq_zero.1 hw)
    have hrun : Loop.run (parseStep toc) fuel ⟨withRoot h self, [(h.length, F.width)], 0, [0]⟩ =
        some (.ok ⟨h', [], F.size, List.range (F.size + 1)⟩) := by
      obtain ⟨m, rfl⟩ : ∃ m, fuel = F.size + (m + 1) := ⟨fuel - F.size - 1, by omega⟩
      rw [Nat.add_zero, popFinished_of_pos (Nat.pos_of_ne_zero hw), Nat.zero_add] at hr
      rw [hr.run]
      simp [Loop.run, parseStep, popFinished, List.range_eq_range', List.range'_succ]
    simp [hw, ← htoc, hrun, Except.map]

end Root

end Jord.Rc
