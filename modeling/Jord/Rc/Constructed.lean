import Jord.Rc.Decode

/-!
# Trees built by the constructor

`Decode` says what the constructor of `Root` makes of the table of contents of a forest. Here the
table is arbitrary: `constructs_of_construct` collects what holds of the tree whenever the
constructor returns.
-/

namespace Jord.Rc

open Heap

/-- The heap `h'` is what the constructor of `root` has made of the heap `h`: the old nodes and the
root directory are as they were when the loop started, and the nodes of the new tree are named by
items the loop has visited. -/
structure Constructs (toc : List TOCItem) (h : Heap) (root : RootId) (h' : Heap)
    (visited : List ℕ) : Prop where
  ok : Ok h'
  views : Views (Root.withRoot h root) h'
  named : ∀ d ≥ h.length, ∀ k c, h'.child d k = some c →
    ∃ i ∈ visited, i ≠ 0 ∧ ∃ item, toc[i]? = some item ∧ item.name = k

namespace Constructs

variable {toc : List TOCItem} {h h' h'' : Heap} {root : RootId} {visited : List ℕ}

theorem lt (hc : Constructs toc h root h' visited) : h.length < h'.length := by
  have := hc.views.le
  rw [Root.length_withRoot] at this
  exact this

theorem name (hc : Constructs toc h root h' visited) :
    h'.name? h.length = some (Str.ascii ":/") := by
  rw [hc.views.name _ (by simp [Root.length_withRoot])]
  simp [name?, Root.withRoot_get_length]

theorem parent (hc : Constructs toc h root h' visited) : h'.parent? h.length = none := by
  rw [hc.views.parent _ (by simp [Root.length_withRoot])]
  simp [parent?, Root.withRoot_get_length]

theorem owner (hc : Constructs toc h root h' visited) : h'.owner? h.length = some root := by
  rw [hc.views.owner _ (by simp [Root.length_withRoot])]
  simp [owner?, Root.withRoot_get_length]

/-- The nodes that were there before the constructor. -/
theorem views_old (hc : Constructs toc h root h' visited) : Views h h' :=
  (views_concat h _).trans hc.views

theorem owner_old (hc : Constructs toc h root h' visited) {n : ℕ} (hn : n < h.length) :
    h'.owner? n = h.owner? n :=
  hc.views_old.owner n hn

theorem name_old (hc : Constructs toc h root h' visited) {n : ℕ} (hn : n < h.length) :
    h'.name? n = h.name? n :=
  hc.views_old.name n hn

theorem parent_old (hc : Constructs toc h root h' visited) {n : ℕ} (hn : n < h.length) :
    h'.parent? n = h.parent? n :=
  hc.views_old.parent n hn

/-- The tree before the loop. -/
theorem withRoot (hok : Ok h) (toc : List TOCItem) (root : RootId) :
    Constructs toc h root (Root.withRoot h root) [0] := by
  refine ⟨Root.withRoot_ok hok root, .refl _, fun d hd k c hchild => ?_⟩
  rw [Root.withRoot_child] at hchild
  exact absurd ((hok.lt hchild).trans (hok.lt_length hchild)) (not_lt.2 hd)

/-- One more node below a directory of the tree. -/
theorem attached (hc : Constructs toc h root h' visited) {p : NodeId} {item : TOCItem} {i : ℕ}
    {data : NodeData} (hp : h'.isDirectory p) (hd : data.lookup = ∅)
    (ha : Attached h' p item.name data h'') (hi : i ≠ 0) (hitem : toc[i]? = some item) :
    Constructs toc h root h'' (visited ++ [i]) := by
  refine ⟨hc.ok.attached hp hd ha, hc.views.trans ha.views, fun d hroot k c hchild => ?_⟩
  rw [ha.child hp hd] at hchild
  split at hchild
  · next hk => exact ⟨i, by simp, hi, item, hitem, hk.2.symm⟩
  · split at hchild
    · cases hchild
    · obtain ⟨j, hj, hrest⟩ := hc.named d hroot k c hchild
      exact ⟨j, List.mem_append_left _ hj, hrest⟩

/-- An item without a node. -/
theorem skip (hc : Constructs toc h root h' visited) (i : ℕ) :
    Constructs toc h root h' (visited ++ [i]) := by
  refine ⟨hc.ok, hc.views, fun d hroot k c hchild => ?_⟩
  obtain ⟨j, hj, hrest⟩ := hc.named d hroot k c hchild
  exact ⟨j, List.mem_append_left _ hj, hrest⟩

end Constructs

namespace Root

theorem mem_popFinished {x : NodeId × ℕ} {st : List (NodeId × ℕ)} (hx : x ∈ popFinished st) :
    x ∈ st := by
  fun_induction popFinished st with
  | case1 d st ih => exact List.mem_cons_of_mem _ (ih hx)
  | case2 st => exact hx

/-- The invariant of the loop of the constructor. -/
structure Parsing (toc : List TOCItem) (h : Heap) (root : RootId) (s : ParserState) : Prop where
  constructs : Constructs toc h root s.heap s.visited
  directories : ∀ x ∈ s.state, s.heap.isDirectory x.1

theorem Parsing.step {toc : List TOCItem} {h₀ : Heap} {root : RootId} {s s' : ParserState}
    (hs : Parsing toc h₀ root s) (h : parseStep toc s = .inl s') : Parsing toc h₀ root s' := by
  obtain ⟨heap, state, current, visited⟩ := s
  obtain ⟨hc, hdir⟩ := hs
  rcases state with _ | ⟨⟨top, _ | count⟩, state⟩
  · simp [parseStep] at h
  · simp [parseStep] at h
  · have htop : heap.isDirectory top := hdir _ List.mem_cons_self
    have hstate : ∀ n, ∀ x ∈ (top, n) :: state, heap.isDirectory x.1 := by
      intro n x hx
      rcases List.mem_cons.1 hx with rfl | hx
      · exact htop
      · exact hdir x (List.mem_cons_of_mem _ hx)
    cases hitem : toc[current + 1]? with
    | none => simp [parseStep, hitem] at h
    | some item =>
      obtain ⟨type, name, n, size⟩ := item
      cases type with
      | directory =>
        obtain ⟨h₁, hnew, ha⟩ := newNode_attached htop name (.directory ∅)
        by_cases hn : n = 0
        · simp only [parseStep, hitem, TOCItem.entriesCount, hn, ne_eq, not_true_eq_false, if_false,
            Sum.inl.injEq] at h
          subst h
          exact ⟨hc.skip _, fun x hx => hstate _ x (mem_popFinished hx)⟩
        · simp only [parseStep, hitem, TOCItem.entriesCount, hn, ne_eq, not_false_eq_true, if_true,
            newDirectory, hnew, Sum.inl.injEq] at h
          subst h
          refine ⟨hc.attached htop rfl ha (Nat.succ_ne_zero _) hitem, fun x hx => ?_⟩
          rcases List.mem_cons.1 (mem_popFinished hx) with rfl | hx
          · simp [isDirectory, ha.entryOf, NodeData.entry]
          · have hx' := hstate _ x hx
            rw [isDirectory, ha.views.entry _ (lt_of_isDirectory hx')]
            exact hx'
      | file =>
        obtain ⟨h₁, hnew, ha⟩ := newNode_attached htop name (.file ⟨n, size⟩)
        simp only [parseStep, hitem, newFile, TOCItem.offset, hnew, Sum.inl.injEq] at h
        subst h
        refine ⟨hc.attached htop rfl ha (Nat.succ_ne_zero _) hitem, fun x hx => ?_⟩
        have hx' := hstate _ x (mem_popFinished hx)
        rw [isDirectory, ha.views.entry _ (lt_of_isDirectory hx')]
        exact hx'

/-- **What the constructor builds** from any table of contents on which it returns. -/
theorem constructs_of_construct {h : Heap} (hok : Ok h) {toc : List TOCItem} {root : RootId}
    {fuel : ℕ} {c : Constructed} (hc : construct fuel h root toc = some (.ok c)) :
    c.rootDirectory = h.length ∧ Constructs toc h root c.heap c.visited := by
  have hstart := Constructs.withRoot hok toc root
  cases hitem : toc[0]? with
  | none => simp [construct, hitem] at hc
  | some item =>
    have hnew : h.newDirectory (Str.ascii ":/") none =
        .ok (h ++ [⟨Str.ascii ":/", none, none, .directory ∅⟩], h.length) := rfl
    simp only [construct, hitem, hnew, setOwner_newRoot, Option.bind_eq_bind,
      Option.bind_some] at hc
    split_ifs at hc with htype hcount
    · cases hc
    · obtain rfl := Except.ok.inj (Option.some.inj hc)
      exact ⟨rfl, hstart⟩
    · obtain ⟨r, hrun, hr⟩ := Option.bind_eq_some_iff.1 hc
      have hdir : ∀ x ∈ [(h.length, item.entriesCount)], (withRoot h root).isDirectory x.1 := by
        simp [isDirectory, entryOf, withRoot_get_length, NodeData.entry]
      obtain ⟨s, hs, hend⟩ := Loop.run_invariant (fun _ _ => Parsing.step) ⟨hstart, hdir⟩ hrun
      obtain ⟨heap, state, current, visited⟩ := s
      cases r with
      | error f => cases hr
      | ok s' =>
        obtain rfl : ⟨heap, state, current, visited⟩ = s' := by
          rcases state with _ | ⟨⟨top, _ | count⟩, state⟩
          · simpa [parseStep] using hend
          · simp [parseStep] at hend
          · simp only [parseStep] at hend
            repeat' split at hend
            all_goals cases hend
        obtain rfl := Except.ok.inj (Option.some.inj hr)
        exact ⟨rfl, hs.constructs⟩

end Root

end Jord.Rc
