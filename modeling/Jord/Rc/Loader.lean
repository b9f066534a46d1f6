import Jord.Foundations.Fields
import Jord.Rc.Startup

/-!
# The loader of modules

`rc_lua_loader` looks for the script of a module in the registered packs. The field `rcpath` of its
environment is a list of templates; in each of them the name of the module takes the place of every
question mark, and the first candidate that is a file is loaded.

The loop of `findfile` scans the path string and works on the stack of the `lua_State`. Its state is
a `Search`, which also records the candidates that were tried.

* `rounds_search`: after any number of rounds the stack holds one string above what `findfile` has
  put there before the loop.
* `rcLuaLoader_searches`: the loader searches through the candidates of its arguments. It reads
  these as C strings, so a name with a NUL is another name to it (`rcLuaLoader_nul`).
-/

namespace Jord.Rc

variable {σ : Type*}

/-! ## The model -/

/-- What ends a call of the loader other than by a return: `luaL_error`, with its message but for
the position in front of it, a fault of the resource code, or `lua_concat` of no strings. -/
inductive LoaderExn
  | luaError (message : Str)
  | fault (f : Fault)
  | concat
  deriving DecidableEq

/-- `lua_tostring`, read as a C string. A number stands as the string it is converted to. -/
def Slot.cString : Slot → Option Str
  | .string s => some (cStr s)
  | _ => none

namespace LuaState

/-- `lua_remove( L, -2 )` -/
def removeBelow (L : LuaState σ) : LuaState σ := { L with stack := L.stack.eraseIdx 1 }

/-- `lua_concat( L, 2 )` -/
def concat (L : LuaState σ) : Except LoaderExn (LuaState σ) :=
  match L.stack with
  | .string t :: .string s :: stack => .ok { L with stack := .string (s ++ t) :: stack }
  | _ => .error .concat

end LuaState

/-- `readable` -/
def readable (P : Packs) (filename : Str) : Except Fault Bool :=
  (P.findNode filename).map fun
    | some node => P.heap.isFile node
    | none => false

/-- `LUA_PATHSEP` -/
def pathSep : UInt8 := 59

/-- `LUA_PATH_MARK` -/
def pathMark : UInt8 := 63

/-- `luaL_gsub` with a pattern of one character. -/
def gsub (p : UInt8) (r s : Str) : Str := substitute p r s

/-- `pushnexttemplate`: the state with the template on the stack, and the rest of the path. -/
def pushNextTemplate (L : LuaState σ) (path : Str) : Option (LuaState σ × Str) :=
  (nextField pathSep path).map fun (template, rest) => (L.push template, rest)

/-- The line that a failed candidate adds to the error accumulator. -/
def noFile (filename : Str) : Str := Str.ascii "\n\tno file '" ++ filename ++ Str.ascii "'"

/-- The state of the loop of `findfile`; `tried` are the candidates so far. -/
structure Search (σ : Type*) where
  path : Str
  state : LuaState σ
  tried : List Str

/-- How the loop of `findfile` ends: with the candidate that is a file, or with `NULL`. -/
abbrev SearchResult (σ : Type*) := Except LoaderExn (Search σ × Option Str)

/-- One round of the loop of `findfile`. -/
def findfileRound (P : Packs) (name : Str) (s : Search σ) : Search σ ⊕ SearchResult σ :=
  match pushNextTemplate s.state s.path with
  | none => .inr (.ok (s, none))
  | some (L, path) =>
    match L.stack.head?.bind Slot.cString with
    | none => .inr (.error .concat)
    | some template =>
      let filename := gsub pathMark name template
      let L := (L.push filename).removeBelow
      let tried := s.tried ++ [filename]
      match readable P filename with
      | .error f => .inr (.error (.fault f))
      | .ok true => .inr (.ok (⟨path, L, tried⟩, some filename))
      | .ok false =>
        match ((L.push (noFile filename)).removeBelow).concat with
        | .error e => .inr (.error e)
        | .ok L => .inl ⟨path, L, tried⟩

/-- What `findfile` leaves below its loop: the name of the module with slashes, and `rcpath`. -/
def findfileBase (L : LuaState σ) (name : Str) (rcpath : Slot) : LuaState σ :=
  let L := L.push (gsub 46 (Str.ascii "/") name)
  { L with stack := rcpath :: L.stack }

/-- `findfile`; `rcpath` is the field of the environment. -/
def findfile (fuel : ℕ) (P : Packs) (L : LuaState σ) (name : Str) (rcpath : Slot) :
    Option (SearchResult σ) :=
  match rcpath.cString with
  | none => some (.error (.luaError (Str.ascii "'package.rcpath' must be a string")))
  | some path =>
    Loop.run (findfileRound P (gsub 46 (Str.ascii "/") name)) fuel
      ⟨path, (findfileBase L name rcpath).push [], []⟩

/-- The message of a script that is not accepted. -/
def loadError (name path message : Str) : Str :=
  Str.ascii "error loading module '" ++ name ++ Str.ascii "' from file '" ++ path ++
    Str.ascii "':\n\t" ++ message

/-- What a call of the loader leaves behind: the end of its search, and the values it returns;
`none` is `nil`. -/
structure Loaded (σ : Type*) where
  search : Search σ
  results : List (Option Slot)

/-- `rc_lua_loader`, called with the name of a module. -/
def rcLuaLoader (fuel : ℕ) (lua : Lua σ) (P : Packs) (L : LuaState σ) (name : Str)
    (rcpath : Slot) : Option (Except LoaderExn (Loaded σ)) :=
  (findfile fuel P { L with stack := [.string name] } (cStr name) rcpath).map fun
    | .error e => .error e
    | .ok (s, none) => .ok ⟨s, [none]⟩
    | .ok (s, some path) =>
      match s.state.rcLoad lua P path with
      | .error f => .error (.fault f)
      | .ok (L, .ok) => .ok ⟨{ s with state := L }, [L.stack.head?]⟩
      | .ok (L, _) => .error (.luaError (loadError (cStr name) path
          ((L.stack.head?.bind Slot.cString).getD (Str.ascii "(null)"))))

/-! ## What it is for -/

/-- The existence test succeeds. -/
def finds (P : Packs) (c : Str) : Bool :=
  match readable P c with
  | .ok b => b
  | .error _ => false

/-- The candidates of a name: the templates, with the name in the place of every question mark. -/
def candidates (name rcpath : Str) : List Str :=
  (fields pathSep rcpath).map (gsub pathMark (gsub 46 (Str.ascii "/") name))

/-- The loop of `findfile` at its start. -/
def searchStart (L : LuaState σ) (name rcpath : Str) : Search σ :=
  ⟨cStr rcpath, (findfileBase { L with stack := [.string name] } (cStr name)
    (.string rcpath)).push [], []⟩

/-- The loader searches through the candidates `cs`.

* `rounds`: after `n` failed candidates, one string stands above what was there before the loop.
* `notFound`: if no candidate is a file, all of them are tried and `nil` is returned.
* `found`: of the first candidate that is a file, the chunk is returned, or the error in it. -/
structure Searches (lua : Lua σ) (P : Packs) (L : LuaState σ) (name rcpath : Str)
    (cs : List Str) : Prop where
  rounds : ∀ n s, Loop.Rounds (findfileRound P (gsub 46 (Str.ascii "/") (cStr name))) n
    (searchStart L name rcpath) s → s.tried = cs.take n ∧
      s.state.stack = .string (s.tried.flatMap noFile) ::
        [.string rcpath, .string (gsub 46 (Str.ascii "/") (cStr name)), .string name]
  notFound : (∀ c ∈ cs, finds P c = false) → ∃ s, s.tried = cs ∧
    ∀ fuel > (cStr rcpath).length,
      rcLuaLoader fuel lua P L name (.string rcpath) = some (.ok ⟨s, [none]⟩)
  found : ∀ pre c post, cs = pre ++ c :: post → (∀ c' ∈ pre, finds P c' = false) →
    finds P c = true → ∃ node chunk, P.findNode c = .ok (some node) ∧ P.heap.isFile node = true ∧
      P.rcLoad c = .ok (.loadBuffer chunk c) ∧
      P.resources.findSome? (P.fileAt (c.drop 2)) = some chunk ∧
      match lua.syntaxError chunk c with
      | none => ∃ s, s.tried = pre ++ [c] ∧ s.state.compiled = L.compiled ++ [chunk] ∧
        ∀ fuel > (cStr rcpath).length, rcLuaLoader fuel lua P L name (.string rcpath) =
          some (.ok ⟨s, [some (.function chunk)]⟩)
      | some message => ∀ fuel > (cStr rcpath).length,
        rcLuaLoader fuel lua P L name (.string rcpath) =
          some (.error (.luaError (loadError (cStr name) c (cStr message))))

/-! ## The loop -/

section Loop

variable {P : Packs} {name : Str} {s s' : Search σ} {base : List Slot} {acc : Str}

/-- What a round does: the next template becomes a candidate, and a candidate that fails becomes a
line of the error accumulator. -/
theorem findfileRound_eq (hstack : s.state.stack = .string acc :: base) :
    findfileRound P name s = match nextField pathSep s.path with
      | none => .inr (.ok (s, none))
      | some (template, path) =>
        let c := gsub pathMark name (cStr template)
        match readable P c with
        | .error f => .inr (.error (.fault f))
        | .ok true => .inr (.ok (⟨path, { s.state with stack := .string c :: .string acc :: base },
            s.tried ++ [c]⟩, some c))
        | .ok false => .inl ⟨path, { s.state with stack := .string (acc ++ noFile c) :: base },
            s.tried ++ [c]⟩ := by
  unfold findfileRound pushNextTemplate
  cases nextField pathSep s.path with
  | none => rfl
  | some r =>
    obtain ⟨template, path⟩ := r
    simp only [Option.map_some, LuaState.push, List.head?_cons, Option.bind_some, Slot.cString,
      LuaState.removeBelow, hstack, List.eraseIdx_cons_succ, List.eraseIdx_cons_zero]
    cases readable P (gsub pathMark name (cStr template)) with
    | error f => rfl
    | ok b => cases b <;> rfl

/-- Between two rounds: the candidates tried have failed, each is a line of the accumulator, and the
rest of the path holds the templates of the others. -/
structure Searching (P : Packs) (L : LuaState σ) (name : Str) (base : List Slot) (cs : List Str)
    (s : Search σ) : Prop where
  nul : (0 : UInt8) ∉ s.path
  split : s.tried ++ (fields pathSep s.path).map (gsub pathMark name) = cs
  failed : ∀ c ∈ s.tried, finds P c = false
  stack : s.state.stack = .string (s.tried.flatMap noFile) :: base
  compiled : s.state.compiled = L.compiled

variable {L : LuaState σ} {cs : List Str}

theorem cStr_of_notMem {t : Str} (ht : 0 ∉ t) : cStr t = t := Str.takeWhile_of_zero_notMem ht

theorem zero_notMem_cStr (s : Str) : 0 ∉ cStr s := Str.zero_notMem_takeWhile s

/-- **A round of the search** comes to the end of the path, finds a file or goes on. -/
theorem Searching.round (hread : ∀ c ∈ cs, ∃ b, readable P c = .ok b)
    (hs : Searching P L name base cs s) :
    (s.tried = cs ∧ findfileRound P name s = .inr (.ok (s, none))) ∨
      ∃ c rest s', cs = s.tried ++ c :: rest ∧ s'.tried = s.tried ++ [c] ∧
        s'.state.compiled = L.compiled ∧
        if finds P c then findfileRound P name s = .inr (.ok (s', some c))
        else findfileRound P name s = .inl s' ∧ Searching P L name base cs s' ∧
          s'.path.length < s.path.length := by
  have hround : findfileRound P name s = _ := findfileRound_eq hs.stack
  have hsplit := hs.split
  rw [fields_eq] at hsplit
  cases hnext : nextField pathSep s.path with
  | none =>
    simp only [hnext, List.map_nil, List.append_nil] at hround hsplit
    exact .inl ⟨hsplit, hround⟩
  | some r =>
    obtain ⟨template, path⟩ := r
    obtain ⟨htemplate, hpath⟩ := subset_of_nextField hnext
    simp only [hnext, cStr_of_notMem fun hmem => hs.nul (htemplate hmem), List.map_cons]
      at hround hsplit
    set c := gsub pathMark name template with hc
    obtain ⟨b, hb⟩ := hread c (by rw [← hsplit]; simp)
    have hfinds : finds P c = b := by rw [finds, hb]
    rw [hb] at hround
    right
    cases b with
    | true =>
      refine ⟨c, _, ⟨path, { s.state with
        stack := .string c :: .string (s.tried.flatMap noFile) :: base }, s.tried ++ [c]⟩,
        hsplit.symm, rfl, hs.compiled, ?_⟩
      rw [hfinds, if_pos rfl]
      exact hround
    | false =>
      have hfailed : ∀ d ∈ s.tried ++ [c], finds P d = false := by
        intro d hd
        rcases List.mem_append.1 hd with hd | hd
        · exact hs.failed d hd
        · rwa [List.mem_singleton.1 hd]
      refine ⟨c, _, ⟨path, { s.state with
        stack := .string (s.tried.flatMap noFile ++ noFile c) :: base }, s.tried ++ [c]⟩,
        hsplit.symm, rfl, hs.compiled, ?_⟩
      rw [hfinds, if_neg Bool.false_ne_true]
      refine ⟨hround, ⟨fun hmem => hs.nul (hpath hmem), ?_, hfailed, ?_, hs.compiled⟩,
        length_lt_of_nextField hnext⟩
      · rw [← hsplit, List.append_assoc, List.singleton_append]
      · simp

/-- After any number of rounds. -/
theorem rounds_search (hread : ∀ c ∈ cs, ∃ b, readable P c = .ok b) {n : ℕ}
    (h : Loop.Rounds (findfileRound P name) n s s') (hs : Searching P L name base cs s) :
    Searching P L name base cs s' ∧ s'.tried.length = s.tried.length + n := by
  induction h with
  | refl s => exact ⟨hs, rfl⟩
  | @next n s s₁ s₂ hround hrounds ih =>
    rcases hs.round hread with ⟨-, hend⟩ | ⟨c, rest, s₁', -, htried, -, hcase⟩
    · cases hround.symm.trans hend
    · split at hcase
      · cases hround.symm.trans hcase
      · obtain ⟨hround', hs₁, -⟩ := hcase
        cases hround.symm.trans hround'
        obtain ⟨hs₂, hlength⟩ := ih hs₁
        refine ⟨hs₂, ?_⟩
        rw [hlength, htried, List.length_append, List.length_singleton]
        omega

/-- **The search comes to its end**: at the end of the path, or at the first file. -/
theorem run_search (hread : ∀ c ∈ cs, ∃ b, readable P c = .ok b)
    (hs : Searching P L name base cs s) :
    ((∀ c ∈ cs, finds P c = false) ∧ ∃ s', s'.tried = cs ∧
        ∀ fuel > s.path.length, Loop.run (findfileRound P name) fuel s = some (.ok (s', none))) ∨
      ∃ pre c post s', cs = pre ++ c :: post ∧ (∀ c' ∈ pre, finds P c' = false) ∧
        finds P c = true ∧ s'.tried = pre ++ [c] ∧ s'.state.compiled = L.compiled ∧
        ∀ fuel > s.path.length,
          Loop.run (findfileRound P name) fuel s = some (.ok (s', some c)) := by
  induction hlength : s.path.length using Nat.strong_induction_on generalizing s with
  | _ length ih =>
    subst hlength
    -- a loop that ends in this round needs fuel for one round
    have hlast : ∀ r, findfileRound P name s = .inr r → ∀ fuel > s.path.length,
        Loop.run (findfileRound P name) fuel s = some r := by
      intro r hr fuel hfuel
      obtain ⟨fuel, rfl⟩ : ∃ k, fuel = k + 1 := ⟨fuel - 1, by omega⟩
      exact Loop.run_inr hr fuel
    rcases hs.round hread with ⟨htried, hend⟩ | ⟨c, rest, s', hcs, htried, hcompiled, hcase⟩
    · exact .inl ⟨htried ▸ hs.failed, s, htried, hlast _ hend⟩
    · split at hcase
      · next hc =>
        exact .inr ⟨s.tried, c, rest, s', hcs, hs.failed, hc, htried, hcompiled, hlast _ hcase⟩
      · obtain ⟨hround, hs', hlt⟩ := hcase
        have hrun : ∀ r, (∀ fuel > s'.path.length,
            Loop.run (findfileRound P name) fuel s' = some r) → ∀ fuel > s.path.length,
            Loop.run (findfileRound P name) fuel s = some r := by
          intro r hr fuel hfuel
          obtain ⟨fuel, rfl⟩ : ∃ k, fuel = k + 1 := ⟨fuel - 1, by omega⟩
          rw [Loop.run_inl hround]
          exact hr fuel (by omega)
        rcases ih _ hlt hs' rfl with ⟨hnone, s₁, hs₁, h⟩ | ⟨pre, d, post, s₁, hcs', hpre, hd, hs₁,
          hcompiled', h⟩
        · exact .inl ⟨hnone, s₁, hs₁, hrun _ h⟩
        · exact .inr ⟨pre, d, post, s₁, hcs', hpre, hd, hs₁, hcompiled', hrun _ h⟩

end Loop

/-! ## The candidates -/

/-- A template that starts with `:/` gives a candidate that does. -/
theorem two_le_length_gsub {template : Str} (ht : template.take 2 = Str.ascii ":/") (name : Str) :
    2 ≤ (gsub pathMark name template).length := by
  obtain ⟨rest, rfl⟩ : ∃ rest, template = Str.ascii ":/" ++ rest :=
    ⟨template.drop 2, by rw [← ht, List.take_append_drop]⟩
  have hgsub : gsub pathMark name (Str.ascii ":/" ++ rest) =
      Str.ascii ":/" ++ gsub pathMark name rest := by
    rw [gsub, substitute, List.flatMap_append]
    rfl
  rw [hgsub, List.length_append]
  exact Nat.le_add_right _ _

/-- The existence test of a candidate returns. -/
theorem readable_eq {P : Packs} (hP : Packs.Ok P) {c : Str} (hc : 2 ≤ c.length) :
    readable P c = .ok (match P.resources.findSome? (P.nodeAt (c.drop 2)) with
      | some node => P.heap.isFile node
      | none => false) := by
  rw [readable, Packs.findNode, Packs.findNodeIn_eq hc hP.resources]
  rfl

/-- What the existence test has found is loaded. -/
theorem rcLoad_of_finds {P : Packs} (hP : Packs.Ok P) {c : Str} (hc : 2 ≤ c.length)
    (hfinds : finds P c = true) : ∃ node chunk, P.findNode c = .ok (some node) ∧
      P.heap.isFile node = true ∧ P.rcLoad c = .ok (.loadBuffer chunk c) ∧
      P.resources.findSome? (P.fileAt (c.drop 2)) = some chunk := by
  have hfind : P.findNode c = .ok (P.resources.findSome? (P.nodeAt (c.drop 2))) :=
    Packs.findNodeIn_eq hc hP.resources
  rw [finds, readable_eq hP hc] at hfinds
  cases hnode : P.resources.findSome? (P.nodeAt (c.drop 2)) with
  | none => simp [hnode] at hfinds
  | some node =>
    simp only [hnode] at hfinds hfind
    obtain ⟨e, he⟩ : ∃ e, P.heap.entryOf node = some (.file e) := by
      unfold Heap.isFile at hfinds
      split at hfinds
      · next e he => exact ⟨e, he⟩
      · cases hfinds
    have hentry : P.resources.findSome? (P.entryAt (c.drop 2)) = some (.file e) := by
      rw [Packs.findSome?_entryAt hP, hnode]
      exact he
    obtain ⟨chunk, hload, hchunk⟩ := Packs.rcLoad_file hP hc hentry
    exact ⟨node, chunk, hfind, hfinds, hload, hchunk⟩

/-- The first element with a property, and those before it, are determined by the list. -/
theorem first_unique {α : Type*} {p : α → Bool} {pre pre' post post' : List α} {c c' : α}
    (h : pre ++ c :: post = pre' ++ c' :: post') (hpre : ∀ x ∈ pre, p x = false) (hc : p c = true)
    (hpre' : ∀ x ∈ pre', p x = false) (hc' : p c' = true) : pre = pre' ∧ c = c' := by
  have htake {pre post : List α} {c : α} (hpre : ∀ x ∈ pre, p x = false) (hc : p c = true) :
      (pre ++ c :: post).takeWhile (fun x => !p x) = pre := by
    rw [List.takeWhile_append_of_pos (by simpa using hpre),
      List.takeWhile_cons_of_neg (by simpa using hc), List.append_nil]
  have heq : pre = pre' := by
    rw [← htake hpre hc, h, htake hpre' hc']
  subst heq
  exact ⟨rfl, (List.cons.inj (List.append_cancel_left h)).1⟩

/-! ## The loader -/

/-- **The order of the search.** The loader reads the name of the module and the path as C strings,
and searches through their candidates. -/
theorem rcLuaLoader_searches {P : Packs} (hP : Packs.Reachable P) (lua : Lua σ) (L : LuaState σ)
    (name rcpath : Str)
    (htemplates : ∀ t ∈ fields pathSep (cStr rcpath), t.take 2 = Str.ascii ":/") :
    Searches lua P L name rcpath (candidates (cStr name) (cStr rcpath)) := by
  set cs := candidates (cStr name) (cStr rcpath) with hcs
  have hlong : ∀ c ∈ cs, 2 ≤ c.length := by
    intro c hc
    obtain ⟨template, ht, rfl⟩ := List.mem_map.1 hc
    exact two_le_length_gsub (htemplates template ht) _
  have hread : ∀ c ∈ cs, ∃ b, readable P c = .ok b := fun c hc =>
    ⟨_, readable_eq hP.ok (hlong c hc)⟩
  set slashed := gsub 46 (Str.ascii "/") (cStr name) with hslashed
  have hstart : Searching P L slashed [.string rcpath, .string slashed, .string name] cs
      (searchStart L name rcpath) :=
    ⟨zero_notMem_cStr rcpath, rfl, fun _ hc => (List.not_mem_nil hc).elim, rfl, rfl⟩
  have hrun := run_search hread hstart
  have hpath : (searchStart L name rcpath).path = cStr rcpath := rfl
  have hfindfile : ∀ fuel, findfile fuel P { L with stack := [.string name] } (cStr name)
      (.string rcpath) =
      Loop.run (findfileRound P slashed) fuel (searchStart L name rcpath) := fun _ => rfl
  rw [hpath] at hrun
  constructor
  · intro n s hrounds
    obtain ⟨hs, hlength⟩ := rounds_search hread hrounds hstart
    refine ⟨?_, hs.stack⟩
    have hn : s.tried.length = n := hlength.trans (Nat.zero_add n)
    rw [← hs.split, ← hn, List.take_left]
  · intro hnone
    rcases hrun with ⟨-, s, hs, hrun⟩ | ⟨pre, c, post, -, hcs', -, hc, -⟩
    · refine ⟨s, hs, fun fuel hfuel => ?_⟩
      rw [rcLuaLoader, hfindfile, hrun fuel hfuel]
      rfl
    · rw [hnone c (by rw [hcs']; simp)] at hc
      cases hc
  · intro pre c post hsplit hpre hc
    have hmem : c ∈ cs := by
      rw [hsplit]
      simp
    obtain ⟨node, chunk, hnode, hfile, hload, hchunk⟩ := rcLoad_of_finds hP.ok (hlong c hmem) hc
    refine ⟨node, chunk, hnode, hfile, hload, hchunk, ?_⟩
    rcases hrun with ⟨hnone, -⟩ | ⟨pre', c', post', s, hcs', hpre', hc', hs, hcompiled, hrun⟩
    · rw [hnone c hmem] at hc
      cases hc
    obtain ⟨rfl, rfl⟩ := first_unique (hsplit.symm.trans hcs') hpre hc hpre' hc'
    have hbuffer : s.state.rcLoad lua P c = .ok (s.state.loadBuffer lua chunk c) := by
      simp only [LuaState.rcLoad, hload, Except.map]
    split
    · next hnone =>
      refine ⟨{ s with state := (s.state.loadBuffer lua chunk c).1 }, hs, ?_, fun fuel hfuel => ?_⟩
      · rw [(LuaState.loadBuffer_logs lua s.state chunk c).1, hcompiled]
      · rw [rcLuaLoader, hfindfile, hrun fuel hfuel, Option.map_some]
        simp [hbuffer, LuaState.loadBuffer, hnone]
    · next message hmessage =>
      intro fuel hfuel
      rw [rcLuaLoader, hfindfile, hrun fuel hfuel, Option.map_some]
      simp [hbuffer, LuaState.loadBuffer, hmessage, LuaState.push, Slot.cString]

/-- A table of contents with one file `a`. -/
def oneFileToc : List TOCItem :=
  [⟨.directory, Str.ascii ":/", 1, 0⟩, ⟨.file, Str.ascii "a", 0, 3⟩]

/-- One registered pack, whose file `a` holds the script `x=1`. -/
def onePack : Packs :=
  match Root.construct 2 [] 0 oneFileToc with
  | some (.ok c) => Packs.initResource ⟨[], [], []⟩ c (Str.ascii "x=1")
  | _ => ⟨[], [], []⟩

theorem onePack_reachable : Packs.Reachable onePack := by
  obtain ⟨c, hc⟩ : ∃ c, Root.construct 2 [] 0 oneFileToc = some (.ok c) := ⟨_, rfl⟩
  rw [onePack, hc]
  exact Packs.Reachable.start.initResource (Str.ascii "x=1") hc

theorem rcLuaLoader_searches_onePack : Searches accepting onePack initial (Str.ascii "x.a")
    (Str.ascii ";:/?.lua;;:/a;")
    (candidates (cStr (Str.ascii "x.a")) (cStr (Str.ascii ";:/?.lua;;:/a;"))) :=
  rcLuaLoader_searches onePack_reachable accepting initial _ _ (by decide)

/-- A name of three characters, the second of which is a NUL: the loader loads the script of the
module `a`. -/
theorem rcLuaLoader_nul : ¬ Searches accepting onePack initial [97, 0, 98] (Str.ascii ":/?")
    (candidates [97, 0, 98] (Str.ascii ":/?")) := by
  intro h
  obtain ⟨s, -, hnil⟩ := h.notFound (by decide)
  have hloads : ∃ s chunk, rcLuaLoader 4 accepting onePack initial [97, 0, 98]
      (.string (Str.ascii ":/?")) = some (.ok ⟨s, [some (.function chunk)]⟩) := ⟨_, _, rfl⟩
  obtain ⟨s', chunk, hloads⟩ := hloads
  have := hloads.symm.trans (hnil 4 (by decide))
  simp at this

end Jord.Rc
