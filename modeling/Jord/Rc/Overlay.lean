import Jord.Rc.Constructed

/-!
# All registered packs together

`RCOwner` keeps the registered packs in the order of registration. `findNode` asks them one after
the other for a path and stops at the first that has a node there, of whatever kind. `rcLoad` loads
a file through it.

* `Reachable` are the states of the process: packs are constructed and registered in any order.
* `overlay` says what loading from all packs is for: the file of the first pack that has one.
* `rcLoad_eq_overlay_iff` says on which strings the two agree.
-/

namespace Jord.Rc

open Heap

/-- The state of the resource code of a process: the nodes, the `Root` objects by address, and
`RCOwner::m_Resources`. -/
structure Packs where
  heap : Heap
  roots : List Root
  resources : List RootId

/-- What `lua::rc_load` does: the error it returns with its message, or the chunk and the name it
hands to `luaL_loadbuffer`. -/
inductive Load
  | errFile (message : Str)
  | loadBuffer (chunk : List UInt8) (name : Str)
  deriving DecidableEq

namespace Packs

/-- The loop of `RCOwner::findNode` over the resources. -/
def findNodeIn (P : Packs) (path : Str) : List RootId → Except Fault (Option NodeId)
  | [] => .ok none
  | r :: resources =>
    match P.roots[r]? with
    | none => .error .nullPointer
    | some root =>
      match root.find P.heap path with
      | .error e => .error (.thrown e)
      | .ok (some node) => .ok (some node)
      | .ok none => findNodeIn P path resources

/-- `RCOwner::findNode` -/
def findNode (P : Packs) (path : Str) : Except Fault (Option NodeId) :=
  P.findNodeIn path P.resources

/-- `node->getOwner()`, dereferenced. -/
def owner (P : Packs) (node : NodeId) : Except Fault Root :=
  match P.heap.owner? node with
  | none => .error .uninitialised
  | some r =>
    match P.roots[r]? with
    | none => .error .nullPointer
    | some root => .ok root

/-- `RCOwner::getFilePointer` -/
def getFilePointer (P : Packs) : Option NodeId → Except Fault (Option Root.Pointer)
  | none => .ok none
  | some node => (P.owner node).map fun root => root.getFilePointer P.heap (some node)

/-- `RCOwner::getFileSize` -/
def getFileSize (P : Packs) : Option NodeId → Except Fault ℕ
  | none => .ok 0
  | some node => (P.owner node).map fun _ => Root.getFileSize P.heap (some node)

/-- The message of a load that finds nothing. -/
def failedToFind (name : Str) : Str := Str.ascii "Failed to find '" ++ name ++ Str.ascii "'"

/-- `lua::rc_load` -/
def rcLoad (P : Packs) (name : Str) : Except Fault Load := do
  let node ← P.findNode name
  let addr ← P.getFilePointer node
  match addr with
  | none => return .errFile (failedToFind name)
  | some addr =>
    let size ← P.getFileSize node
    return .loadBuffer (addr.read size) name

/-! ## States of the process -/

/-- Packs are constructed, by `new Root( toc, data )`, and registered by `add_resource`. -/
inductive Reachable : Packs → Prop
  | start : Reachable ⟨[], [], []⟩
  | newRoot {P : Packs} (hP : Reachable P) (toc : List TOCItem) (data : List UInt8) {fuel : ℕ}
      {c : Root.Constructed} (hc : Root.construct fuel P.heap P.roots.length toc = some (.ok c)) :
      Reachable ⟨c.heap, P.roots ++ [⟨data, c.rootDirectory⟩], P.resources⟩
  | addResource {P : Packs} (hP : Reachable P) {r : RootId} (hr : r < P.roots.length) :
      Reachable { P with resources := P.resources ++ [r] }

/-- The invariant of the process: every `Root` object owns its root directory, and what is
registered is a `Root` object. -/
structure Ok (P : Packs) : Prop where
  heap : Heap.Ok P.heap
  root : ∀ (r : ℕ) root, P.roots[r]? = some root →
    root.rootDirectory < P.heap.length ∧ P.heap.owner? root.rootDirectory = some r
  resources : ∀ r ∈ P.resources, r < P.roots.length

theorem Reachable.ok {P : Packs} (hP : Reachable P) : Ok P := by
  induction hP with
  | start => exact ⟨ok_nil, by simp, by simp⟩
  | @newRoot P _ toc data fuel c hc ih =>
    obtain ⟨hroot, hcon⟩ := Root.constructs_of_construct ih.heap hc
    refine ⟨hcon.ok, fun r root hr => ?_, fun r hr => ?_⟩
    · rcases Nat.lt_trichotomy r P.roots.length with hlt | rfl | hgt
      · rw [List.getElem?_append_left hlt] at hr
        obtain ⟨hdir, howner⟩ := ih.root r root hr
        exact ⟨hdir.trans hcon.lt, (hcon.owner_old hdir).trans howner⟩
      · obtain rfl := Option.some.inj (List.getElem?_concat_length.symm.trans hr)
        exact ⟨hroot ▸ hcon.lt, hroot ▸ hcon.owner⟩
      · rw [List.getElem?_eq_none (by rw [List.length_append]; exact hgt)] at hr
        cases hr
    · rw [List.length_append]
      exact (ih.resources r hr).trans (Nat.lt_succ_self _)
  | @addResource P _ r hr ih =>
    refine ⟨ih.heap, ih.root, fun r' hr' => ?_⟩
    rcases List.mem_append.1 hr' with hr' | hr'
    · exact ih.resources r' hr'
    · exact List.mem_singleton.1 hr' ▸ hr

/-! ## What loading is for -/

/-- What a pack has at a path, slashes between its components. -/
def entryAt (P : Packs) (q : Str) (r : RootId) : Option Entry :=
  P.roots[r]?.bind fun root => P.heap.store root.rootDirectory (Str.split q)

/-- The bytes of the file that a pack has at a path. -/
def fileAt (P : Packs) (q : Str) (r : RootId) : Option (List UInt8) :=
  match P.roots[r]?, P.entryAt q r with
  | some root, some (.file e) => some ((root.baseAddress.drop e.offset).take e.size)
  | _, _ => none

/-- Loading from all packs: a path with the prefix `:/` leads to the file of the first pack that has
one there. -/
def overlay (P : Packs) (s : Str) : Load :=
  if s.take 2 = Str.ascii ":/" then
    match P.resources.findSome? (P.fileAt (s.drop 2)) with
    | some chunk => .loadBuffer chunk s
    | none => .errFile (failedToFind s)
  else .errFile (failedToFind s)

/-- The first pack that has a node at `q` has a directory there, and another has a file. -/
def Shadowed (P : Packs) (q : Str) : Prop :=
  P.resources.findSome? (P.entryAt q) = some .directory ∧
    ∃ r ∈ P.resources, ∃ e, P.entryAt q r = some (.file e)

/-- The first pack that has a node at `q` has a file there. -/
def FileFirst (P : Packs) (q : Str) : Prop :=
  ∃ e, P.resources.findSome? (P.entryAt q) = some (.file e)

/-- The strings on which `rcLoad` loads as it is meant to: where anything is registered, the string
has two characters to cut off; behind the prefix `:/` no directory hides a file of another pack, and
behind any other two characters there is no file to be found first. -/
def Agrees (P : Packs) (s : Str) : Prop :=
  P.resources = [] ∨ 2 ≤ s.length ∧
    if s.take 2 = Str.ascii ":/" then ¬ P.Shadowed (s.drop 2) else ¬ P.FileFirst (s.drop 2)

/-! ## What loading does -/

/-- What a pack has at a path, as the node. -/
def nodeAt (P : Packs) (q : Str) (r : RootId) : Option NodeId :=
  P.roots[r]?.bind fun root => P.heap.resolve root.rootDirectory (Str.split q)

theorem entryAt_eq (P : Packs) (q : Str) (r : RootId) :
    P.entryAt q r = (P.nodeAt q r).bind P.heap.entryOf := by
  cases hr : P.roots[r]? <;> simp [entryAt, nodeAt, hr, Heap.store]

theorem findNodeIn_eq {P : Packs} {s : Str} (hs : 2 ≤ s.length) {rs : List RootId}
    (hrs : ∀ r ∈ rs, r < P.roots.length) :
    P.findNodeIn s rs = .ok (rs.findSome? (P.nodeAt (s.drop 2))) := by
  induction rs with
  | nil => rfl
  | cons r rs ih =>
    obtain ⟨hr, hrs⟩ := List.forall_mem_cons.1 hrs
    have hroot : P.roots[r]? = some P.roots[r] := List.getElem?_eq_getElem hr
    rw [findNodeIn, List.findSome?_cons, nodeAt, hroot]
    simp only [Root.find, if_neg (not_lt.2 hs), findRecursive_eq, Option.bind_some]
    cases P.heap.resolve P.roots[r].rootDirectory (Str.split (s.drop 2)) with
    | none => exact ih hrs
    | some n => rfl

theorem nodeAt_eq_some {P : Packs} {q : Str} {r : RootId} {n : NodeId}
    (hn : P.nodeAt q r = some n) : ∃ root, P.roots[r]? = some root ∧
      P.heap.resolve root.rootDirectory (Str.split q) = some n :=
  Option.bind_eq_some_iff.1 hn

/-- The node that a pack has at a path is live, and the pack owns it. -/
theorem live_of_nodeAt {P : Packs} (hP : Ok P) {q : Str} {r : RootId} {n : NodeId}
    (hn : P.nodeAt q r = some n) :
    ∃ root x, P.roots[r]? = some root ∧ P.owner n = .ok root ∧ P.heap.entryOf n = some x := by
  obtain ⟨root, hroot, hres⟩ := nodeAt_eq_some hn
  obtain ⟨hlt, howner⟩ := hP.root r root hroot
  have hnlt := hP.heap.resolve_lt_length hlt hres
  refine ⟨root, P.heap[n].data.entry, hroot, ?_, by simp [entryOf, List.getElem?_eq_getElem hnlt]⟩
  rw [owner, (hP.heap.owner_resolve hres).trans howner]
  simp only [hroot]

/-- What the first pack that has a node has there, by the node. -/
theorem findSome?_entryAt {P : Packs} (hP : Ok P) (q : Str) (rs : List RootId) :
    rs.findSome? (P.entryAt q) = (rs.findSome? (P.nodeAt q)).bind P.heap.entryOf := by
  induction rs with
  | nil => rfl
  | cons r rs ih =>
    rw [List.findSome?_cons, List.findSome?_cons, entryAt_eq]
    cases hn : P.nodeAt q r with
    | none => exact ih
    | some n =>
      obtain ⟨root, x, -, -, hx⟩ := live_of_nodeAt hP hn
      simp [hx]

theorem fileAt_eq_some_iff {P : Packs} {q : Str} {r : RootId} {chunk : List UInt8} :
    P.fileAt q r = some chunk ↔ ∃ root e, P.roots[r]? = some root ∧
      P.entryAt q r = some (.file e) ∧ chunk = (root.baseAddress.drop e.offset).take e.size := by
  rw [fileAt]
  split
  · next root e hroot he => simp [hroot, he, eq_comm]
  · next hnone =>
    simp only [reduceCtorEq, false_iff, not_exists, not_and]
    exact fun root e hroot he => (hnone root e hroot he).elim

/-- A path that leads nowhere in any pack, or to a directory in the first. -/
theorem rcLoad_errFile {P : Packs} (hP : Ok P) {s : Str} (hs : 2 ≤ s.length)
    (hfirst : ∀ e, P.resources.findSome? (P.entryAt (s.drop 2)) ≠ some (.file e)) :
    P.rcLoad s = .ok (.errFile (failedToFind s)) := by
  rw [findSome?_entryAt hP] at hfirst
  simp only [rcLoad, findNode, findNodeIn_eq hs hP.resources, Bind.bind, Except.bind]
  cases hn : P.resources.findSome? (P.nodeAt (s.drop 2)) with
  | none => rfl
  | some n =>
    obtain ⟨r, -, hr⟩ := List.exists_of_findSome?_eq_some hn
    obtain ⟨root, x, -, howner, hx⟩ := live_of_nodeAt hP hr
    cases x with
    | directory =>
      simp [getFilePointer, howner, Except.map, Root.getFilePointer, hx, Pure.pure, Except.pure]
    | file e => exact absurd (by simp [hn, hx]) (hfirst e)

/-- A path that leads to a file in the first pack that has a node there. -/
theorem rcLoad_file {P : Packs} (hP : Ok P) {s : Str} (hs : 2 ≤ s.length) {e : Extent}
    (hfirst : P.resources.findSome? (P.entryAt (s.drop 2)) = some (.file e)) :
    ∃ chunk, P.rcLoad s = .ok (.loadBuffer chunk s) ∧
      P.resources.findSome? (P.fileAt (s.drop 2)) = some chunk := by
  rw [findSome?_entryAt hP] at hfirst
  obtain ⟨n, hn, he⟩ := Option.bind_eq_some_iff.1 hfirst
  obtain ⟨pre, r, post, hres, hr, hpre⟩ := List.findSome?_eq_some_iff.1 hn
  obtain ⟨root, x, hroot, howner, -⟩ := live_of_nodeAt hP hr
  refine ⟨(root.baseAddress.drop e.offset).take e.size, ?_, ?_⟩
  · simp [rcLoad, findNode, findNodeIn_eq hs hP.resources, hn, getFilePointer, getFileSize, howner,
      Root.getFilePointer, Root.getFileSize, he, Root.Pointer.read, Bind.bind, Except.bind,
      Except.map, Pure.pure, Except.pure]
  · refine List.findSome?_eq_some_iff.2 ⟨pre, r, post, hres, ?_, fun r' hr' => ?_⟩
    · exact fileAt_eq_some_iff.2 ⟨root, e, hroot, by simp [entryAt_eq, hr, he], rfl⟩
    · apply Option.eq_none_iff_forall_ne_some.2
      intro chunk hchunk
      obtain ⟨_, e', -, he', -⟩ := fileAt_eq_some_iff.1 hchunk
      simp [entryAt_eq, hpre r' hr'] at he'

/-- Where no pack has a file, there is nothing to load. -/
theorem overlay_errFile {P : Packs} {s : Str}
    (hnone : ∀ r ∈ P.resources, ∀ e, P.entryAt (s.drop 2) r ≠ some (.file e)) :
    P.overlay s = .errFile (failedToFind s) := by
  have : P.resources.findSome? (P.fileAt (s.drop 2)) = none := by
    refine List.findSome?_eq_none_iff.2 fun r hr => ?_
    apply Option.eq_none_iff_forall_ne_some.2
    intro chunk hchunk
    obtain ⟨_, e, -, he, -⟩ := fileAt_eq_some_iff.1 hchunk
    exact hnone r hr e he
  simp [overlay, this]

/-- Where some pack has a file, there is a file to load. -/
theorem overlay_loadBuffer {P : Packs} {s : Str} (hcolon : s.take 2 = Str.ascii ":/") {r : RootId}
    (hr : r ∈ P.resources) {e : Extent} (he : P.entryAt (s.drop 2) r = some (.file e)) :
    ∃ chunk, P.overlay s = .loadBuffer chunk s := by
  obtain ⟨root, hroot, -⟩ := Option.bind_eq_some_iff.1 he
  have hchunk := fileAt_eq_some_iff.2 ⟨root, e, hroot, he, rfl⟩
  cases hfirst : P.resources.findSome? (P.fileAt (s.drop 2)) with
  | none =>
    rw [List.findSome?_eq_none_iff] at hfirst
    cases (hfirst r hr).symm.trans hchunk
  | some chunk => exact ⟨chunk, by simp [overlay, hcolon, hfirst]⟩

/-- **On which strings loading does what it is for.** -/
theorem rcLoad_eq_overlay_iff {P : Packs} (hP : Reachable P) (s : Str) :
    P.rcLoad s = .ok (P.overlay s) ↔ P.Agrees s := by
  have hok := hP.ok
  by_cases hres : P.resources = []
  · refine iff_of_true ?_ (.inl hres)
    rw [overlay_errFile (by simp [hres])]
    simp [rcLoad, findNode, hres, findNodeIn, getFilePointer, Bind.bind, Except.bind, Pure.pure,
      Except.pure]
  · by_cases hs : 2 ≤ s.length
    · simp only [Agrees, hres, hs, false_or, true_and]
      by_cases hfile : P.FileFirst (s.drop 2)
      · obtain ⟨e, he⟩ := hfile
        obtain ⟨chunk, hload, hchunk⟩ := rcLoad_file hok hs he
        rw [hload]
        by_cases hcolon : s.take 2 = Str.ascii ":/"
        · simp [overlay, hcolon, hchunk, Shadowed, he]
        · simp [overlay, hcolon, FileFirst, he]
      · rw [rcLoad_errFile hok hs fun e he => hfile ⟨e, he⟩]
        by_cases hcolon : s.take 2 = Str.ascii ":/"
        · rw [if_pos hcolon]
          refine ⟨fun h hshadow => ?_, fun h => ?_⟩
          · -- some pack has a file, which the packs together do not lead to
            obtain ⟨-, r, hr, e, he⟩ := hshadow
            obtain ⟨chunk, hchunk⟩ := overlay_loadBuffer hcolon hr he
            rw [hchunk] at h
            cases h
          · rw [overlay_errFile fun r hr e he => h ⟨?_, r, hr, e, he⟩]
            cases hfirst : P.resources.findSome? (P.entryAt (s.drop 2)) with
            | none => cases (List.findSome?_eq_none_iff.1 hfirst r hr).symm.trans he
            | some x =>
              cases x with
              | directory => rfl
              | file e' => exact absurd ⟨e', hfirst⟩ hfile
        · simp [overlay, hcolon, hfile]
    · refine iff_of_false (fun h => ?_) fun h => ?_
      · obtain ⟨r, rs, hrs⟩ := List.exists_cons_of_ne_nil hres
        obtain ⟨root, hr⟩ : ∃ root, P.roots[r]? = some root :=
          ⟨_, List.getElem?_eq_getElem (hok.resources r (hrs ▸ List.mem_cons_self))⟩
        simp [rcLoad, findNode, hrs, findNodeIn, hr, Root.find, not_le.1 hs, Bind.bind,
          Except.bind] at h
      · rcases h with h | h
        · exact hres h
        · exact hs h.1

/-- One registered pack with a file `a`. -/
theorem reachable_onePack : ∃ c, Root.construct 2 [] 0
      [⟨.directory, Str.ascii ":/", 1, 0⟩, ⟨.file, Str.ascii "a", 0, 1⟩] = some (.ok c) ∧
    Reachable ⟨c.heap, [⟨[7, 0], c.rootDirectory⟩], [0]⟩ := by
  obtain ⟨c, hc⟩ : ∃ c, Root.construct 2 [] 0
      [⟨.directory, Str.ascii ":/", 1, 0⟩, ⟨.file, Str.ascii "a", 0, 1⟩] = some (.ok c) := ⟨_, rfl⟩
  exact ⟨c, hc, .addResource (.newRoot .start _ [7, 0] hc) (Nat.zero_lt_one)⟩

/-- Loading from a string of one character throws. -/
theorem rcLoad_short : ∃ P s, Reachable P ∧ P.rcLoad s = .error (.thrown .outOfRange) ∧
    P.rcLoad s ≠ .ok (P.overlay s) := by
  obtain ⟨c, -, hP⟩ := reachable_onePack
  have hload : Packs.rcLoad ⟨c.heap, [⟨[7, 0], c.rootDirectory⟩], [0]⟩ (Str.ascii "a") =
      .error (.thrown .outOfRange) := rfl
  exact ⟨_, _, hP, hload, by simp [hload]⟩

/-- Two registered packs: the first has a file in a directory `a`, the second one a file `a`. -/
theorem reachable_twoPacks : ∃ P : Packs, Reachable P ∧
    P.rcLoad (Str.ascii ":/a") = .ok (.errFile (failedToFind (Str.ascii ":/a"))) ∧
    P.overlay (Str.ascii ":/a") = .loadBuffer [7] (Str.ascii ":/a") := by
  obtain ⟨c, hc⟩ : ∃ c, Root.construct 3 [] 0 [⟨.directory, Str.ascii ":/", 1, 0⟩,
      ⟨.directory, Str.ascii "a", 1, 0⟩, ⟨.file, Str.ascii "b", 0, 1⟩] = some (.ok c) := ⟨_, rfl⟩
  obtain ⟨d, hd⟩ : ∃ d, Root.construct 2 c.heap 1
      [⟨.directory, Str.ascii ":/", 1, 0⟩, ⟨.file, Str.ascii "a", 0, 1⟩] = some (.ok d) := by
    cases hc
    exact ⟨_, rfl⟩
  have hfirst : Reachable ⟨c.heap, [⟨[5, 0], c.rootDirectory⟩], [0]⟩ :=
    .addResource (.newRoot .start _ [5, 0] hc) Nat.zero_lt_one
  have hboth : Reachable ⟨d.heap, [⟨[5, 0], c.rootDirectory⟩, ⟨[7, 0], d.rootDirectory⟩], [0, 1]⟩ :=
    .addResource (.newRoot hfirst _ [7, 0] hd) Nat.one_lt_two
  cases hc
  cases hd
  exact ⟨_, hboth, rfl, rfl⟩

theorem rcLoad_eq_overlay_iff_twoPacks : ∃ P : Packs, Reachable P ∧
    (P.rcLoad (Str.ascii ":/a") = .ok (P.overlay (Str.ascii ":/a")) ↔ P.Agrees (Str.ascii ":/a")) ∧
      ¬ P.Agrees (Str.ascii ":/a") := by
  obtain ⟨P, hP, hload, hoverlay⟩ := reachable_twoPacks
  have hiff := rcLoad_eq_overlay_iff hP (Str.ascii ":/a")
  refine ⟨P, hP, hiff, fun h => ?_⟩
  have heq := hload.symm.trans (hiff.2 h)
  rw [hoverlay] at heq
  cases heq

end Packs

end Jord.Rc
