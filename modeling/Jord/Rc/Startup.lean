import Jord.Rc.FullName
import Jord.Rc.Listing
import Jord.Rc.Overlay

/-!
# Start-up

`core_open` registers the resource pack of the core, finds `:/lua/base`, lists the files below it
and looks each of them up again under its full name to load it. What it loads is compiled at best:
`rc_load` leaves the chunk on the stack, and nothing calls it (`coreOpen_bringsUp_iff`). `rc_run`,
which nothing uses, would (`rcRun_executes`).

The Lua machine is a parameter: what it rejects, and what a chunk does to its globals.
-/

namespace Jord.Rc

open Heap

/-! ## The Lua machine -/

/-- A value on the stack of a `lua_State`. -/
inductive Slot
  | string (s : Str)
  | function (chunk : List UInt8)
  | other
  deriving DecidableEq

/-- The status codes of the functions that load and call. -/
inductive Status
  | ok
  | errRun
  | errSyntax
  | errFile
  deriving DecidableEq

/-- The Lua machine: the message with which it rejects a chunk of a name, what a chunk does when it
is called, and what `core_open` writes to its environment and to `package.loaders`. -/
structure Lua (σ : Type*) where
  syntaxError : List UInt8 → Str → Option Str
  call : List UInt8 → σ → σ × Except Str (List Slot)
  addLoader : σ → σ

/-- A `lua_State`: the globals and the stack, its top first. `compiled` and `executed` record the
chunks that were handed to the compiler and those that were called. -/
structure LuaState (σ : Type*) where
  globals : σ
  stack : List Slot
  compiled : List (List UInt8)
  executed : List (List UInt8)

variable {σ : Type*}

namespace LuaState

/-- `lua_pushstring` -/
def push (L : LuaState σ) (s : Str) : LuaState σ := { L with stack := .string s :: L.stack }

/-- `luaL_loadbuffer` -/
def loadBuffer (lua : Lua σ) (L : LuaState σ) (chunk : List UInt8) (name : Str) :
    LuaState σ × Status :=
  let L := { L with compiled := L.compiled ++ [chunk] }
  match lua.syntaxError chunk name with
  | some message => (L.push message, .errSyntax)
  | none => ({ L with stack := .function chunk :: L.stack }, .ok)

/-- `lua_pcall( l, 0, LUA_MULTRET, 0 )` on a chunk. -/
def pcall (lua : Lua σ) (L : LuaState σ) : LuaState σ × Status :=
  match L.stack with
  | .function chunk :: stack =>
    let executed := L.executed ++ [chunk]
    match lua.call chunk L.globals with
    | (globals, .ok results) => (⟨globals, results ++ stack, L.compiled, executed⟩, .ok)
    | (globals, .error message) =>
      (⟨globals, .string message :: stack, L.compiled, executed⟩, .errRun)
  | _ => (L, .errRun)

/-- `lua::rc_load` -/
def rcLoad (lua : Lua σ) (P : Packs) (L : LuaState σ) (name : Str) :
    Except Fault (LuaState σ × Status) :=
  (P.rcLoad name).map fun
    | .errFile message => (L.push message, .errFile)
    | .loadBuffer chunk name => L.loadBuffer lua chunk name

/-- `lua::rc_run`: whether it failed. -/
def rcRun (lua : Lua σ) (P : Packs) (L : LuaState σ) (name : Str) :
    Except Fault (LuaState σ × Bool) :=
  (L.rcLoad lua P name).map fun
    | (L, .ok) => ((L.pcall lua).1, (L.pcall lua).2 != .ok)
    | (L, _) => (L, true)

end LuaState

/-! ## core_open -/

/-- The characters of a string that `c_str()` shows to a reader of C strings. -/
def cStr (s : Str) : Str := s.takeWhile (· != 0)

/-- `INIT_RESOURCE`: the pack that the constructor has built is registered behind the others. -/
def Packs.initResource (P : Packs) (c : Root.Constructed) (data : List UInt8) : Packs :=
  ⟨c.heap, P.roots ++ [⟨data, c.rootDirectory⟩], P.resources ++ [P.roots.length]⟩

/-- `dynamic_cast<rc::File*>` of the node is not null. -/
def Heap.isFile (h : Heap) (n : NodeId) : Bool :=
  match h.entryOf n with
  | some (.file _) => true
  | _ => false

/-- The loop of `core_open`: what `rc_load` returns is looked at and nothing follows from it. The
fuel bounds the length of the parent chains. -/
def loadFiles (lua : Lua σ) (P : Packs) (fuel : ℕ) :
    List NodeId → LuaState σ → Option (Except Fault (LuaState σ))
  | [], L => some (.ok L)
  | file :: files, L =>
    match P.heap.getFullName fuel file with
    | none => none
    | some scriptPath =>
      match L.rcLoad lua P (cStr scriptPath) with
      | .error e => some (.error e)
      | .ok (L, _) => loadFiles lua P fuel files L

/-- `core_open`, with the table of contents and the data of the pack of the core. The fuel bounds
its loops and its recursion. -/
def coreOpen (lua : Lua σ) (order : Order) (fuel : ℕ) (toc : List TOCItem) (data : List UInt8)
    (P : Packs) (L : LuaState σ) : Option (Except Fault (Packs × LuaState σ)) :=
  match Root.construct fuel P.heap P.roots.length toc with
  | none => none
  | some (.error e) => some (.error e)
  | some (.ok c) =>
    let P := P.initResource c data
    let L := { L with globals := lua.addLoader L.globals }
    match P.findNode (Str.ascii ":/lua/base") with
    | .error e => some (.error e)
    | .ok none => some (.ok (P, L))
    | .ok (some node) =>
      if P.heap.isDirectory node then
        (loadFiles lua P fuel (getChildren order P.heap P.heap.isFile true fuel node) L).map
          fun r => r.map fun L => (P, L)
      else some (.ok (P, L))

/-! ## What it is for -/

/-- The node is a file below `lua/base` of the tree. -/
def BaseFile (h : Heap) (root n : NodeId) : Prop :=
  (∃ p ≠ [], h.resolve root (Str.ascii "lua" :: Str.ascii "base" :: p) = some n) ∧ h.isFile n

/-- The bytes of a file. -/
def Heap.bytes (h : Heap) (data : List UInt8) (n : NodeId) : List UInt8 :=
  match h.entryOf n with
  | some (.file e) => (data.drop e.offset).take e.size
  | _ => []

/-- Between two states every base script is compiled from its own bytes, and run once. -/
def BringsUp (h : Heap) (root : NodeId) (data : List UInt8) (L L' : LuaState σ) : Prop :=
  ∃ (files : List NodeId) (compiled executed : List (List UInt8)), files.Nodup ∧
    (∀ n, n ∈ files ↔ BaseFile h root n) ∧
    L'.compiled = L.compiled ++ compiled ∧ L'.executed = L.executed ++ executed ∧
    ∀ n ∈ files, h.bytes data n ∈ compiled ∧
      executed.count (h.bytes data n) = (files.map (h.bytes data)).count (h.bytes data n)

/-! ## What loading does -/

namespace LuaState

variable {lua : Lua σ} {P : Packs} {L L' : LuaState σ}

/-- `luaL_loadbuffer` compiles and calls nothing. -/
theorem loadBuffer_logs (lua : Lua σ) (L : LuaState σ) (chunk : List UInt8) (name : Str) :
    (L.loadBuffer lua chunk name).1.compiled = L.compiled ++ [chunk] ∧
      (L.loadBuffer lua chunk name).1.executed = L.executed := by
  unfold loadBuffer
  cases lua.syntaxError chunk name <;> exact ⟨rfl, rfl⟩

/-- `rc_load` executes nothing. -/
theorem rcLoad_logs {name : Str} {status : Status} (h : L.rcLoad lua P name = .ok (L', status)) :
    L.compiled <+: L'.compiled ∧ L'.executed = L.executed := by
  unfold rcLoad at h
  cases hload : P.rcLoad name with
  | error e => simp [hload, Except.map] at h
  | ok load =>
    simp only [hload, Except.map, Except.ok.injEq] at h
    cases load with
    | errFile message =>
      cases h
      exact ⟨List.prefix_rfl, rfl⟩
    | loadBuffer chunk name' =>
      obtain ⟨hcompiled, hexecuted⟩ := L.loadBuffer_logs lua chunk name'
      change L.loadBuffer lua chunk name' = (L', status) at h
      rw [h] at hcompiled hexecuted
      exact ⟨hcompiled ▸ List.prefix_append _ _, hexecuted⟩

/-- `rc_run` would have executed what `rc_load` compiles. -/
theorem rcRun_executes {name name' : Str} {chunk : List UInt8}
    (hload : P.rcLoad name = .ok (.loadBuffer chunk name'))
    (hnone : lua.syntaxError chunk name' = none) :
    ∃ L' failed, L.rcRun lua P name = .ok (L', failed) ∧
      L'.compiled = L.compiled ++ [chunk] ∧ L'.executed = L.executed ++ [chunk] := by
  have hloaded : L.rcLoad lua P name = .ok (⟨L.globals, .function chunk :: L.stack,
      L.compiled ++ [chunk], L.executed⟩, .ok) := by
    simp [rcLoad, hload, Except.map, loadBuffer, hnone]
  refine ⟨_, _, by rw [rcRun, hloaded]; rfl, ?_, ?_⟩ <;>
  · unfold pcall
    dsimp only
    rcases lua.call chunk L.globals with ⟨globals, _ | _⟩ <;> rfl

end LuaState

/-- Loading under a name of two characters or more returns. -/
theorem Packs.rcLoad_returns {P : Packs} (hP : Packs.Ok P) {s : Str} (hs : 2 ≤ s.length) :
    ∃ load, P.rcLoad s = .ok load := by
  by_cases hfirst : ∃ e, P.resources.findSome? (P.entryAt (s.drop 2)) = some (.file e)
  · obtain ⟨e, he⟩ := hfirst
    obtain ⟨chunk, hload, -⟩ := Packs.rcLoad_file hP hs he
    exact ⟨_, hload⟩
  · exact ⟨_, Packs.rcLoad_errFile hP hs fun e he => hfirst ⟨e, he⟩⟩

/-- The name that `rc_load` gets from a full name keeps the prefix. -/
theorem two_le_length_cStr (s : Str) : 2 ≤ (cStr (Str.ascii ":/" ++ s)).length := by
  have : cStr (Str.ascii ":/" ++ s) = Str.ascii ":/" ++ cStr s := rfl
  rw [this, List.length_append]
  exact Nat.le_add_right _ _

/-- **The loop of `core_open`** ends, and nothing is executed. -/
theorem loadFiles_logs (lua : Lua σ) {P : Packs} (hP : Packs.Ok P) (files : List NodeId)
    (hfiles : ∀ n ∈ files, ∃ s, FullName P.heap n (Str.ascii ":/" ++ s)) (L : LuaState σ) :
    ∃ L' bound, (∀ m ≥ bound, loadFiles lua P m files L = some (.ok L')) ∧
      L.compiled <+: L'.compiled ∧ L'.executed = L.executed := by
  induction files generalizing L with
  | nil => exact ⟨L, 0, fun _ _ => rfl, List.prefix_rfl, rfl⟩
  | cons n files ih =>
    obtain ⟨hn, hfiles⟩ := List.forall_mem_cons.1 hfiles
    obtain ⟨s, bound, hs⟩ := hn
    obtain ⟨load, hload⟩ := Packs.rcLoad_returns hP (two_le_length_cStr s)
    obtain ⟨L₁, status, hL₁⟩ : ∃ L₁ status,
        L.rcLoad lua P (cStr (Str.ascii ":/" ++ s)) = .ok (L₁, status) := by
      rw [LuaState.rcLoad, hload]
      exact ⟨_, _, rfl⟩
    obtain ⟨hcompiled₁, hexecuted₁⟩ := LuaState.rcLoad_logs hL₁
    obtain ⟨L', bound', hrun, hcompiled, hexecuted⟩ := ih hfiles L₁
    refine ⟨L', max bound bound', fun m hm => ?_, hcompiled₁.trans hcompiled,
      hexecuted.trans hexecuted₁⟩
    rw [loadFiles, hs m (by omega)]
    simp only [hL₁]
    exact hrun m (by omega)

/-! ## The trees of the packs -/

namespace Packs

/-- Every pack has a root directory of the name `:/` without a parent. -/
theorem Reachable.rooted {P : Packs} (hP : Reachable P) : ∀ (r : ℕ) root, P.roots[r]? = some root →
    P.heap.name? root.rootDirectory = some (Str.ascii ":/") ∧
      P.heap.parent? root.rootDirectory = none := by
  induction hP with
  | start => simp
  | @newRoot P hP toc data fuel c hc ih =>
    obtain ⟨hroot, hcon⟩ := Root.constructs_of_construct hP.ok.heap hc
    intro r root hr
    rcases Nat.lt_trichotomy r P.roots.length with hlt | rfl | hgt
    · rw [List.getElem?_append_left hlt] at hr
      obtain ⟨hname, hparent⟩ := ih r root hr
      obtain ⟨hdir, -⟩ := hP.ok.root r root hr
      exact ⟨(hcon.name_old hdir).trans hname, (hcon.parent_old hdir).trans hparent⟩
    · obtain rfl := Option.some.inj (List.getElem?_concat_length.symm.trans hr)
      exact ⟨hroot ▸ hcon.name, hroot ▸ hcon.parent⟩
    · rw [List.getElem?_eq_none (by rw [List.length_append]; exact hgt)] at hr
      cases hr
  | addResource _ _ ih => exact ih

theorem Reachable.initResource {P : Packs} (hP : Reachable P) {toc : List TOCItem}
    (data : List UInt8) {fuel : ℕ} {c : Root.Constructed}
    (hc : Root.construct fuel P.heap P.roots.length toc = some (.ok c)) :
    Reachable (P.initResource c data) :=
  .addResource (.newRoot hP toc data hc) (by simp)

/-- Every node that a pack has at a path has a full name, which starts with `:/`. -/
theorem Reachable.fullName {P : Packs} (hP : Reachable P) {q : Str} {r : RootId} {d n : NodeId}
    (hd : P.nodeAt q r = some d) {ks : List Str} (hn : P.heap.resolve d ks = some n) :
    ∃ s, FullName P.heap n (Str.ascii ":/" ++ s) := by
  obtain ⟨root, hroot, hres⟩ := nodeAt_eq_some hd
  obtain ⟨hname, hparent⟩ := hP.rooted r root hroot
  have hpath : P.heap.resolve root.rootDirectory (Str.split q ++ ks) = some n := by
    rw [resolve_append, hres]
    exact hn
  exact ⟨_, fullName_of_resolve hP.ok.heap hname hparent hpath⟩

end Packs

/-- The second lookup: under its full name a node is looked for as one name, in the root of each
pack in turn. -/
theorem Packs.findNode_fullName {P : Packs} (hP : Packs.Ok P) {p : List Str}
    (hslash : ∀ k ∈ p, Str.slash ∉ k) : P.findNode (Str.ascii ":/" ++ p.flatten) =
      .ok (P.resources.findSome? fun r => P.roots[r]?.bind fun root =>
        P.heap.child root.rootDirectory p.flatten) := by
  have hlen : 2 ≤ (Str.ascii ":/" ++ p.flatten).length := by
    rw [List.length_append]
    exact Nat.le_add_right _ _
  rw [findNode, findNodeIn_eq hlen hP.resources]
  change Except.ok (P.resources.findSome? (P.nodeAt p.flatten)) = _
  unfold nodeAt
  simp only [Str.split_flatten hslash, resolve_cons, resolve_nil, Option.bind_fun_some]

/-- More fuel does not change what is constructed. -/
theorem Root.construct_mono {h : Heap} {self : RootId} {toc : List TOCItem} {m n : ℕ}
    {r : Except Fault Root.Constructed} (hr : Root.construct m h self toc = some r) (hmn : m ≤ n) :
    Root.construct n h self toc = some r := by
  unfold Root.construct at hr ⊢
  cases hitem : toc[0]? with
  | none => simpa only [hitem] using hr
  | some item =>
    have hnew : h.newDirectory (Str.ascii ":/") none =
        .ok (h ++ [⟨Str.ascii ":/", none, none, .directory ∅⟩], h.length) := rfl
    simp only [hitem, hnew, setOwner_newRoot, Option.bind_eq_bind, Option.bind_some] at hr ⊢
    split_ifs at hr ⊢
    · exact hr
    · exact hr
    · obtain ⟨s, hs, hr⟩ := Option.bind_eq_some_iff.1 hr
      rw [Loop.run_mono hs hmn]
      exact hr

/-- **A run of `core_open`** ends, and nothing is executed. -/
theorem coreOpen_logs {P : Packs} (hP : Packs.Reachable P) {toc : List TOCItem} {fuel : ℕ}
    {c : Root.Constructed} (hc : Root.construct fuel P.heap P.roots.length toc = some (.ok c))
    (data : List UInt8) (lua : Lua σ) {order : Order} (horder : order.Valid) (L : LuaState σ) :
    ∃ L' bound, (∀ m ≥ bound, coreOpen lua order m toc data P L =
        some (.ok (P.initResource c data, L'))) ∧
      L.compiled <+: L'.compiled ∧ L'.executed = L.executed := by
  have hP' := hP.initResource data hc
  set P' := P.initResource c data with hP'def
  set L₀ : LuaState σ := { L with globals := lua.addLoader L.globals } with hL₀
  have hfind := Packs.findNodeIn_eq (P := P') (s := Str.ascii ":/lua/base") (by decide)
    hP'.ok.resources
  have hstart : ∀ m ≥ fuel, Root.construct m P.heap P.roots.length toc = some (.ok c) := fun m hm =>
    Root.construct_mono hc hm
  cases hnode : P'.resources.findSome? (P'.nodeAt ((Str.ascii ":/lua/base").drop 2)) with
  | none =>
    refine ⟨L₀, fuel, fun m hm => ?_, List.prefix_rfl, rfl⟩
    simp only [coreOpen, hstart m hm, ← hP'def, Packs.findNode, hfind, hnode, hL₀]
  | some node =>
    by_cases hdir : P'.heap.isDirectory node
    · obtain ⟨r, -, hr⟩ := List.exists_of_findSome?_eq_some hnode
      have hok := hP'.ok.heap
      -- the listing is the same with any fuel that bounds the depth of the trees
      set files := getChildren order P'.heap P'.heap.isFile true P'.heap.length node with hfiles
      have hnames : ∀ n ∈ files, ∃ s, FullName P'.heap n (Str.ascii ":/" ++ s) := by
        intro n hn
        obtain ⟨-, ks, -, hks⟩ := (mem_getChildren hok horder (by omega)).1 hn
        exact hP'.fullName hr hks
      obtain ⟨L', bound, hrun, hlogs⟩ := loadFiles_logs lua hP'.ok files hnames L₀
      refine ⟨L', max fuel (max P'.heap.length bound), fun m hm => ?_, hlogs⟩
      have hstable : getChildren order P'.heap P'.heap.isFile true m node = files :=
        getChildren_stable hok horder (by omega) (by omega)
      simp only [coreOpen, hstart m (by omega), ← hP'def, Packs.findNode, hfind, hnode, hdir,
        if_true, hstable]
      rw [← hL₀, hrun m (by omega)]
      rfl
    · refine ⟨L₀, fuel, fun m hm => ?_, List.prefix_rfl, rfl⟩
      simp only [coreOpen, hstart m hm, ← hP'def, Packs.findNode, hfind, hnode, hL₀, hdir]
      rfl

/-- Nothing is brought up by a start that executes nothing, unless there is nothing to bring up. -/
theorem bringsUp_iff {h : Heap} {root : NodeId} {data : List UInt8} {L L' : LuaState σ}
    (hcompiled : L.compiled <+: L'.compiled) (hexecuted : L'.executed = L.executed) :
    BringsUp h root data L L' ↔ ∀ n, ¬ BaseFile h root n := by
  constructor
  · rintro ⟨files, compiled, executed, -, hfiles, -, hran, hall⟩ n hn
    obtain rfl : executed = [] := by simpa using hran.symm.trans hexecuted
    obtain ⟨-, hcount⟩ := hall n ((hfiles n).2 hn)
    have hmem : h.bytes data n ∈ files.map (h.bytes data) :=
      List.mem_map_of_mem ((hfiles n).2 hn)
    rw [List.count_nil] at hcount
    exact absurd hcount.symm (List.count_pos_iff.2 hmem).ne'
  · intro hnone
    obtain ⟨compiled, hcompiled⟩ := hcompiled
    exact ⟨[], compiled, [], List.nodup_nil, fun n => ⟨fun hn => (List.not_mem_nil hn).elim,
      fun hn => (hnone n hn).elim⟩, hcompiled.symm, by simp [hexecuted],
      fun n hn => (List.not_mem_nil hn).elim⟩

/-- **When the base scripts are brought up.** `core_open` returns and executes nothing, so it brings
up the scripts of a pack exactly if the pack has no file below `lua/base`. -/
theorem coreOpen_bringsUp_iff {P : Packs} (hP : Packs.Reachable P) {toc : List TOCItem} {fuel : ℕ}
    {c : Root.Constructed} (hc : Root.construct fuel P.heap P.roots.length toc = some (.ok c))
    (data : List UInt8) (lua : Lua σ) {order : Order} (horder : order.Valid) (L : LuaState σ) :
    ∃ L' bound, (∀ m ≥ bound, coreOpen lua order m toc data P L =
        some (.ok (P.initResource c data, L'))) ∧
      L'.executed = L.executed ∧
      (BringsUp c.heap c.rootDirectory data L L' ↔ ∀ n, ¬ BaseFile c.heap c.rootDirectory n) := by
  obtain ⟨L', bound, hrun, hcompiled, hexecuted⟩ := coreOpen_logs hP hc data lua horder L
  exact ⟨L', bound, hrun, hexecuted, bringsUp_iff hcompiled hexecuted⟩

/-- A pack with a script below `lua/base`. -/
def oneScript : List TOCItem :=
  [⟨.directory, Str.ascii ":/", 1, 0⟩, ⟨.directory, Str.ascii "lua", 1, 0⟩,
    ⟨.directory, Str.ascii "base", 1, 0⟩, ⟨.file, Str.ascii "copy.lua", 0, 3⟩]

theorem construct_oneScript : ∃ c, Root.construct 4 [] 0 oneScript = some (.ok c) ∧
    BaseFile c.heap c.rootDirectory 3 :=
  ⟨_, rfl, ⟨[Str.ascii "copy.lua"], List.cons_ne_nil _ _, by decide⟩, by decide⟩

/-- A machine that accepts and runs every chunk. -/
def accepting : Lua Unit := ⟨fun _ _ => none, fun _ g => (g, .ok []), id⟩

/-- A machine at its start. -/
def initial : LuaState Unit := ⟨(), [], [], []⟩

/-- Tables are enumerated as they are. -/
def inPlace : Order := fun _ l => l

theorem inPlace_valid : inPlace.Valid := fun _ l => .refl l

/-- The one script of the only pack is not run. -/
theorem coreOpen_not_bringsUp : ∃ (c : Root.Constructed) (L' : LuaState Unit) (bound : ℕ),
    Packs.Reachable ⟨[], [], []⟩ ∧ Root.construct 4 [] 0 oneScript = some (.ok c) ∧
    (∀ m ≥ bound, coreOpen accepting inPlace m oneScript (Str.ascii "x=1") ⟨[], [], []⟩ initial =
      some (.ok (Packs.initResource ⟨[], [], []⟩ c (Str.ascii "x=1"), L'))) ∧
    ¬ BringsUp c.heap c.rootDirectory (Str.ascii "x=1") initial L' := by
  obtain ⟨c, hc, hbase⟩ := construct_oneScript
  obtain ⟨L', bound, hrun, hcompiled, hexecuted⟩ := coreOpen_logs Packs.Reachable.start hc
    (Str.ascii "x=1") accepting inPlace_valid initial
  exact ⟨c, L', bound, .start, hc, hrun, fun hups =>
    (bringsUp_iff hcompiled hexecuted).1 hups 3 hbase⟩

theorem coreOpen_bringsUp_iff_oneScript : ∃ (c : Root.Constructed) (L' : LuaState Unit) (bound : ℕ),
    (∀ m ≥ bound, coreOpen accepting inPlace m oneScript (Str.ascii "x=1") ⟨[], [], []⟩ initial =
      some (.ok (Packs.initResource ⟨[], [], []⟩ c (Str.ascii "x=1"), L'))) ∧
    L'.executed = initial.executed ∧
    (BringsUp c.heap c.rootDirectory (Str.ascii "x=1") initial L' ↔
      ∀ n, ¬ BaseFile c.heap c.rootDirectory n) := by
  obtain ⟨c, hc, -⟩ := construct_oneScript
  exact ⟨c, coreOpen_bringsUp_iff Packs.Reachable.start hc (Str.ascii "x=1") accepting inPlace_valid
    initial⟩

end Jord.Rc
