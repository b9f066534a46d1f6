import Jord.Rc.WriteFile

/-!
# The forest a table loop runs through

Given the order in which the tables are enumerated, the tree below a directory is a forest
(`Shape`). The forest has the paths of the tree (`Shape.entryAt_childList`) whatever the order is,
and the table loop of `writeFile` emits its items in preorder (`toc_rounds`).
-/

namespace Jord.Rc.Heap

open RCBuilder

/-- An enumeration visits every entry of a table exactly once. -/
def Order.Valid (order : Order) : Prop := ∀ d l, (order d l).Perm l

/-- The forest `F` is what the nodes of a list and everything below them look like. -/
inductive Shape (order : Order) (h : Heap) : List NodeId → Forest Str Extent → Prop
  | nil : Shape order h [] .nil
  | file {c : NodeId} {cs : List NodeId} {x : Node} {e : Extent} {F : Forest Str Extent}
      (hx : h[c]? = some x) (hd : x.data = .file e) (hcs : Shape order h cs F) :
      Shape order h (c :: cs) (.leaf x.name e F)
  | dir {c : NodeId} {cs : List NodeId} {x : Node} {l : Lookup} {S F : Forest Str Extent}
      (hx : h[c]? = some x) (hd : x.data = .directory l)
      (hs : Shape order h (childList order h c) S) (hcs : Shape order h cs F) :
      Shape order h (c :: cs) (.node x.name S F)

variable {order : Order} {h : Heap}

theorem childList_eq (order : Order) (h : Heap) (d : NodeId) :
    childList order h d = order d (h.children d) := by
  simp [childList, getChildren]

theorem mem_childList (horder : order.Valid) {d c : NodeId} :
    c ∈ childList order h d ↔ ∃ k, h.child d k = some c := by
  rw [childList_eq, (horder d _).mem_iff, mem_children]

/-- The names of the children of a directory are the keys of its table. -/
theorem map_name_children (hok : Ok h) (d : NodeId) :
    (h.children d).map h.name? = (h.lookup d).keys.map some := by
  simp only [children, AList.keys, List.keys, List.map_map]
  exact List.map_congr_left fun s hs => hok.name (d := d) (k := s.1) (AList.mem_lookup_iff.2 hs)

theorem nodup_name_childList (hok : Ok h) (horder : order.Valid) (d : NodeId) :
    ((childList order h d).map h.name?).Nodup := by
  rw [childList_eq, ((horder d _).map _).nodup_iff, map_name_children hok]
  exact (AList.keys_nodup _).map fun _ _ => Option.some.inj

/-- Looking a name up among the enumerated children is looking it up in the table. -/
theorem find?_childList (hok : Ok h) (horder : order.Valid) (d : NodeId) (k : Str) :
    (childList order h d).find? (fun c => h.name? c == some k) = h.child d k := by
  have hmem : ∀ c ∈ childList order h d, h.name? c = some k → h.child d k = some c := by
    intro c hc hk
    obtain ⟨k', hk'⟩ := (mem_childList horder).1 hc
    obtain rfl : k' = k := Option.some.inj ((hok.name hk').symm.trans hk)
    exact hk'
  cases hfind : (childList order h d).find? (fun c => h.name? c == some k) with
  | some c =>
    have hname := List.find?_some hfind
    exact (hmem c (List.mem_of_find?_eq_some hfind) (by simpa using hname)).symm
  | none =>
    refine (Option.eq_none_iff_forall_ne_some.2 fun c hc => ?_).symm
    have hnot := List.find?_eq_none.1 hfind c ((mem_childList horder).2 ⟨k, hc⟩)
    simp [hok.name hc] at hnot

/-- Every list of nodes has a shape: children are younger than their directory. -/
theorem exists_shape (hok : Ok h) (horder : order.Valid) (m : ℕ) (cs : List NodeId)
    (hcs : ∀ c ∈ cs, c < h.length ∧ h.length ≤ c + m) : ∃ F, Shape order h cs F := by
  induction m generalizing cs with
  | zero =>
    cases cs with
    | nil => exact ⟨.nil, .nil⟩
    | cons c cs =>
      have := hcs c (by simp)
      exact absurd this.1 (not_lt.2 this.2)
  | succ m ih =>
    induction cs with
    | nil => exact ⟨.nil, .nil⟩
    | cons c cs ihcs =>
      obtain ⟨F, hF⟩ := ihcs fun c' hc' => hcs c' (by simp [hc'])
      obtain ⟨hlt, hle⟩ := hcs c (by simp)
      obtain ⟨x, hx⟩ : ∃ x, h[c]? = some x := ⟨_, List.getElem?_eq_getElem hlt⟩
      cases hd : x.data with
      | file e => exact ⟨_, .file hx hd hF⟩
      | directory l =>
        obtain ⟨S, hS⟩ := ih (childList order h c) fun e he => by
          obtain ⟨k, hk⟩ := (mem_childList horder).1 he
          have hce := hok.lt hk
          exact ⟨hok.lt_length hk, by show h.length ≤ (e : ℕ) + m; omega⟩
        exact ⟨_, .dir hx hd hS hF⟩

namespace Shape

theorem width {cs : List NodeId} {F : Forest Str Extent} (hs : Shape order h cs F) :
    F.width = cs.length := by
  induction hs with
  | nil => rfl
  | file _ _ _ ih => simp [Forest.width, ih]
  | dir _ _ _ _ _ ih => simp [Forest.width, ih]

theorem map_names {cs : List NodeId} {F : Forest Str Extent} (hs : Shape order h cs F) :
    F.names.map some = cs.map h.name? := by
  induction hs with
  | nil => rfl
  | file hx _ _ ih => simp [Forest.names, ih, name?, hx]
  | dir hx _ _ _ _ ih => simp [Forest.names, ih, name?, hx]

/-- The paths of a shape. -/
theorem entryAt {cs : List NodeId} {F : Forest Str Extent} (hs : Shape order h cs F) (hok : Ok h)
    (horder : order.Valid) (k : Str) (ks : List Str) :
    F.entryAt (k :: ks) =
      (cs.find? fun c => h.name? c == some k).bind fun c => h.store c ks := by
  induction hs generalizing k ks with
  | nil => rfl
  | @file c cs x e F hx hd _ ih =>
    by_cases hk : k = x.name
    · have hfind : (c :: cs).find? (fun c => h.name? c == some k) = some c := by
        simp [name?, hx, hk]
      rw [hfind, Forest.entryAt, if_pos hk]
      cases ks with
      | nil => simp [Heap.store, entryOf, hx, hd, NodeData.entry]
      | cons t ks => simp [Heap.store, resolve_cons, child, lookup, hx, hd, NodeData.lookup]
    · have hfind : (c :: cs).find? (fun c => h.name? c == some k) =
          cs.find? (fun c => h.name? c == some k) := by
        simp [name?, hx, Ne.symm hk]
      rw [hfind, Forest.entryAt, if_neg hk, ih]
  | @dir c cs x l S F hx hd _ _ ihS ih =>
    by_cases hk : k = x.name
    · have hfind : (c :: cs).find? (fun c => h.name? c == some k) = some c := by
        simp [name?, hx, hk]
      rw [hfind, Forest.entryAt, if_pos hk]
      cases ks with
      | nil => simp [Forest.entryAt_nil, Heap.store, entryOf, hx, hd, NodeData.entry]
      | cons t ks =>
        rw [ihS, find?_childList hok horder]
        simp [Heap.store, resolve_cons, Option.bind_assoc]
    · have hfind : (c :: cs).find? (fun c => h.name? c == some k) =
          cs.find? (fun c => h.name? c == some k) := by
        simp [name?, hx, Ne.symm hk]
      rw [hfind, Forest.entryAt, if_neg hk, ih]

/-- **The shape of the children of a directory has the paths of the directory.** -/
theorem entryAt_childList {d : NodeId} {F : Forest Str Extent}
    (hs : Shape order h (childList order h d) F) (hok : Ok h) (horder : order.Valid)
    (hd : h.isDirectory d) : F.entryAt = h.store d := by
  funext p
  cases p with
  | nil => rw [Forest.entryAt_nil, store_eq_directory (resolve_nil h d) hd]
  | cons k ks =>
    rw [hs.entryAt hok horder, find?_childList hok horder]
    simp [Heap.store, resolve_cons, Option.bind_assoc]

/-- The shape of distinctly named nodes without empty directories below them is well formed. -/
theorem wf {cs : List NodeId} {F : Forest Str Extent} (hs : Shape order h cs F) (hok : Ok h)
    (horder : order.Valid) (hnodup : (cs.map h.name?).Nodup)
    (hne : ∀ c ∈ cs, ∀ p n, h.resolve c p = some n → h.isDirectory n →
      ∃ k e, h.child n k = some e) :
    F.Wf := by
  induction hs with
  | nil => trivial
  | @file c cs x e F hx hd hcs ih =>
    rw [List.map_cons, List.nodup_cons] at hnodup
    refine ⟨fun hmem => hnodup.1 ?_, ih hnodup.2 fun c' hc' => hne c' (by simp [hc'])⟩
    rw [← hcs.map_names, name?, hx]
    exact List.mem_map_of_mem hmem
  | @dir c cs x l S F hx hd hS hcs ihS ih =>
    rw [List.map_cons, List.nodup_cons] at hnodup
    have hchild : ∀ e ∈ childList order h c, ∃ k, h.child c k = some e := fun e he =>
      (mem_childList horder).1 he
    refine ⟨fun hmem => hnodup.1 ?_, fun hnil => ?_, ihS (nodup_name_childList hok horder c) ?_,
      ih hnodup.2 fun c' hc' => hne c' (by simp [hc'])⟩
    · rw [← hcs.map_names, name?, hx]
      exact List.mem_map_of_mem hmem
    · -- an empty subforest would be an empty directory
      have hcdir : h.isDirectory c := by simp [isDirectory, entryOf, hx, hd, NodeData.entry]
      obtain ⟨k, e, he⟩ := hne c (by simp) [] c rfl hcdir
      have hlen := hS.width
      rw [hnil, Forest.width] at hlen
      have hmem := (mem_childList horder).2 ⟨k, he⟩
      rw [List.eq_nil_of_length_eq_zero hlen.symm] at hmem
      cases hmem
    · intro e he p n hp hn
      obtain ⟨k, hk⟩ := hchild e he
      exact hne c (by simp) (k :: p) n (by simp [resolve_cons, hk, hp]) hn

end Shape

end Jord.Rc.Heap

namespace Jord.Rc.RCBuilder

open Heap

/-! ## The table loop -/

/-- The chunks written for a list of items, `n` items having been written before. -/
def tocChunks : ℕ → List TOCItem → List Chunk
  | _, [] => []
  | n, i :: is => itemBreak n ++ [.item i, .text (Str.ascii ", ")] ++ tocChunks (n + 1) is

theorem tocChunks_append (n : ℕ) (is js : List TOCItem) :
    tocChunks n (is ++ js) = tocChunks n is ++ tocChunks (n + is.length) js := by
  induction is generalizing n with
  | nil => simp [tocChunks]
  | cons i is ih => simp [tocChunks, ih, Nat.add_assoc, Nat.add_comm 1]

/-- **A shape is written in as many rounds as it has entries**, its items in preorder, and the stack
below is untouched. -/
theorem toc_rounds {order : Order} {h : Heap} {cs : List NodeId} {F : Forest Str Extent}
    (hs : Shape order h cs F) :
    ∀ (list : List NodeId) (i : ℕ) (st : List (List NodeId × ℕ)) (out : List Chunk) (n : ℕ),
      list.drop i = cs → i ≤ list.length →
      Loop.Rounds (tocStep order h) F.size ⟨out, n, popDone ((list, i) :: st)⟩
        ⟨out ++ tocChunks n (tocItems F), n + F.size, popDone ((list, list.length) :: st)⟩ := by
  induction hs with
  | nil =>
    intro list i st out n hdrop hi
    obtain rfl : i = list.length := le_antisymm hi (List.drop_eq_nil_iff.1 hdrop)
    simpa [tocItems, tocChunks, Forest.size] using Loop.Rounds.refl _
  | @file c cs x e F hx hd _ ih =>
    intro list i st out n hdrop hi
    have hget : list[i]? = some c := by rw [← List.head?_drop, hdrop]; rfl
    have hlt : i < list.length := (List.getElem?_eq_some_iff.1 hget).1
    have htail : list.drop (i + 1) = cs := by rw [← List.tail_drop, hdrop]; rfl
    have hr := ih list (i + 1) st (out ++ itemBreak n ++
      [.item ⟨.file, x.name, e.offset, e.size⟩, .text (Str.ascii ", ")]) (n + 1) htail hlt
    have hstep : tocStep order h ⟨out, n, popDone ((list, i) :: st)⟩ =
        .inl ⟨out ++ itemBreak n ++
          [.item ⟨.file, x.name, e.offset, e.size⟩, .text (Str.ascii ", ")], n + 1,
          popDone ((list, i + 1) :: st)⟩ := by
      rw [popDone, if_neg (not_le.2 hlt)]
      simp only [tocStep, hget, hx, hd]
    have hall := Loop.Rounds.next hstep hr
    rw [Forest.size, ← Nat.add_assoc, Nat.add_right_comm n]
    simpa [tocItems, tocChunks] using hall
  | @dir c cs x l S F hx hd hS _ ihS ih =>
    intro list i st out n hdrop hi
    have hget : list[i]? = some c := by rw [← List.head?_drop, hdrop]; rfl
    have hlt : i < list.length := (List.getElem?_eq_some_iff.1 hget).1
    have htail : list.drop (i + 1) = cs := by rw [← List.tail_drop, hdrop]; rfl
    set item : TOCItem := ⟨.directory, x.name, S.width, 0⟩ with hitem
    set out₁ := out ++ itemBreak n ++ [.item item, .text (Str.ascii ", ")] with hout₁
    have hr₁ := ihS (childList order h c) 0 ((list, i + 1) :: st) out₁ (n + 1) rfl (Nat.zero_le _)
    have hr₂ := ih list (i + 1) st (out₁ ++ tocChunks (n + 1) (tocItems S)) (n + 1 + S.size) htail
      hlt
    have hpop :
        popDone ((childList order h c, (childList order h c).length) :: (list, i + 1) :: st) =
          popDone ((list, i + 1) :: st) := by
      rw [popDone, if_pos le_rfl]
    have hstep : tocStep order h ⟨out, n, popDone ((list, i) :: st)⟩ =
        .inl ⟨out₁, n + 1, popDone ((childList order h c, 0) :: (list, i + 1) :: st)⟩ := by
      rw [popDone, if_neg (not_le.2 hlt)]
      simp only [tocStep, hget, hx, hd, hout₁, hitem, hS.width]
      by_cases hempty : (childList order h c).length = 0
      · -- an empty directory is not pushed
        simp [hempty, popDone]
      · simp [hempty]
    rw [hpop] at hr₁
    have hall := (Loop.Rounds.next hstep hr₁).trans hr₂
    have hn : n + (S.size + F.size + 1) = n + 1 + S.size + F.size := by omega
    rw [Forest.size, hn, show S.size + F.size + 1 = S.size + 1 + F.size by omega]
    simpa [tocItems, tocChunks, tocChunks_append, hout₁, hitem] using hall

end Jord.Rc.RCBuilder
