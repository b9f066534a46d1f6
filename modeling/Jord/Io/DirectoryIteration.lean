import Jord.Io.World
import Jord.Rc.PathString

/-!
# Iterating over a directory

A `LuaBoostDirectory` has a `directory_iterator`, which stands for what it has still to enumerate.
`LuaDirectoryAdapter::entries` makes a closure of `directory_iterator` with two upvalues: the
adapter, and whether the next call is the first one.

The first call sets the iterator to the start of the directory, and no call moves it on. In a
directory with an entry every call gives the path of the first one (`calls_eq_ok`); in an empty one
the first call dereferences the end iterator (`getFirstEntry_endIterator`). `iteration_fails` draws
the conclusion for every directory.
-/

namespace Jord.Io

open Rc.PathLib Program

variable {ν : Type}

/-! ## Directories -/

/-- `details::LuaBoostDirectory` -/
structure BoostDirectory where
  currentIterator : List Str
  directoryPath : Str
  deriving DecidableEq

/-- `LuaDirectoryAdapter`; `none` is a `m_Handle` that is `NULL`. -/
structure DirectoryAdapter where
  handle : Option BoostDirectory
  deriving DecidableEq

/-- A closure of `LuaDirectoryAdapter::directory_iterator`. -/
structure DirectoryClosure (ν : Type) where
  upvalue : Upvalue ν
  first : Bool
  deriving DecidableEq

/-- How a function on directories does not return. -/
inductive DirectoryExn
  | luaError (message : Str)
  /-- An exception of `boost::filesystem` leaves the function. -/
  | filesystem
  /-- The end iterator is dereferenced. -/
  | endIterator
  /-- An object of another class is used as an adapter. -/
  | foreignUserdata
  deriving DecidableEq

/-- A function on directories; the adapters are named by their positions. -/
abbrev DirectoryEval (α : Type) := EStateM DirectoryExn (List DirectoryAdapter) α

namespace LuaBoostDirectory

variable (T : Rc.FileTree)

/-- The paths that a `directory_iterator` runs through. -/
def enumerate (path : Str) : List Str := (T.list path).map (posix.append path)

/-- The constructor: the iterator is the end iterator. -/
def create (path : Str) : BoostDirectory := ⟨[], cstr path⟩

/-- `getFirstEntry` -/
def getFirstEntry (d : BoostDirectory) : Except DirectoryExn (Str × BoostDirectory) :=
  if T.isDirectory d.directoryPath then
    match enumerate T d.directoryPath with
    | [] => .error .endIterator
    | path :: rest => .ok (path, { d with currentIterator := path :: rest })
  else .error .filesystem

/-- `getNextEntry` -/
def getNextEntry (d : BoostDirectory) : Except DirectoryExn (Str × BoostDirectory) :=
  match d.currentIterator with
  | [] => .ok ([], d)
  | path :: _ => .ok (path, d)

end LuaBoostDirectory

/-- `LuaBoostFilesystemProvider::getDirectory` -/
def getDirectory (T : Rc.FileTree) (path : Str) : Option BoostDirectory :=
  if T.isDirectory path then some (LuaBoostDirectory.create path) else none

namespace LuaDirectoryAdapter

variable (T : Rc.FileTree)

/-- `this->m_Handle` -/
def handle (this : ℕ) : DirectoryEval (Option BoostDirectory) := do
  match (← get)[this]? with
  | none => throw .foreignUserdata
  | some a => return a.handle

/-- `entries`: a userdata on top of the stack becomes the first upvalue; without one it is the
address of this adapter. -/
def entries (this : ℕ) (args : List (LuaValue ν)) : DirectoryEval (DirectoryClosure ν) := do
  match ← handle this with
  | none => throw (.luaError (Str.ascii "Invalid directory"))
  | some _ =>
    match args.getLast? with
    | some v => return if v.isUserdata then ⟨.full v, true⟩ else ⟨.light this, true⟩
    | none => return ⟨.light this, true⟩

/-- The adapter that the first upvalue is taken to be. -/
def upvalueAdapter : Upvalue ν → Option ℕ
  | .full (.userdata u) => some u
  | .full _ => none
  | .light a => some a

/-- `directory_iterator`, with the upvalues that it leaves behind. -/
def directoryIterator (c : DirectoryClosure ν) :
    DirectoryEval (LuaValue ν × DirectoryClosure ν) := do
  match upvalueAdapter c.upvalue with
  | none => throw .foreignUserdata
  | some a =>
    match ← handle a with
    | none => throw (.luaError (Str.ascii "Invalid directory"))
    | some d =>
      match if c.first then LuaBoostDirectory.getFirstEntry T d
        else LuaBoostDirectory.getNextEntry d with
      | .error e => throw e
      | .ok (path, d') =>
        modify fun s => s.set a ⟨some d'⟩
        return (if path.length > 0 then .string (cstr path) else .nil, { c with first := false })

/-- Some calls of the iterator, one after another. -/
def calls (c : DirectoryClosure ν) : ℕ → DirectoryEval (List (LuaValue ν))
  | 0 => return []
  | n + 1 => do
    let (v, c) ← directoryIterator T c
    return v :: (← calls c n)

/-- The rounds of a `for` loop of a script over the iterator, if it takes less than `fuel`. -/
def forLoop (c : DirectoryClosure ν) : ℕ → DirectoryEval (Option ℕ)
  | 0 => return none
  | fuel + 1 => do
    match ← directoryIterator T c with
    | (.nil, _) => return some 0
    | (_, c) => return (← forLoop c fuel).map (· + 1)

/-! ## What an iteration should do -/

/-- The calls of the iterator give the paths, each once, and then `nil` for ever. -/
def YieldsEntries (c : DirectoryClosure ν) (paths : List Str) (s : List DirectoryAdapter) : Prop :=
  ∃ order : List Str, order.Perm paths ∧ ∀ n, ∃ s', calls T c n s = .ok
    ((order.map (fun path => LuaValue.string (cstr path)) ++ List.replicate n LuaValue.nil).take n)
    s'

/-- A `for` loop over the iterator comes to its end after so many rounds. -/
def LoopEnds (c : DirectoryClosure ν) (rounds : ℕ) (s : List DirectoryAdapter) : Prop :=
  ∃ fuel s', forLoop T c fuel s = .ok (some rounds) s'

/-! ## What it does -/

variable {T} {c : DirectoryClosure ν} {s s' : List DirectoryAdapter} {a : ℕ} {d : BoostDirectory}
  {path : Str}

theorem handle_apply {x : DirectoryAdapter} (hx : s[a]? = some x) :
    handle a s = .ok x.handle s := by
  rw [handle, bind_of_ok (get_apply s), hx]
  rfl

theorem handle_error (hx : s[a]? = none) : handle a s = .error .foreignUserdata s := by
  rw [handle, bind_of_ok (get_apply s), hx]
  rfl

/-- What a `directory_iterator` runs through are no empty paths. -/
theorem ne_nil_of_mem_enumerate {dir : Str} (hdir : T.isDirectory dir = true)
    (hpath : path ∈ LuaBoostDirectory.enumerate T dir) : path ≠ [] := by
  obtain ⟨k, hk, rfl⟩ := List.mem_map.1 hpath
  simp only [Rc.FileTree.isDirectory, Rc.FileTree.status] at hdir
  cases hloc : T.locate dir with
  | none => simp [hloc] at hdir
  | some loc =>
    have hentry : T.entries.entryAt loc = some .directory := by
      rw [hloc] at hdir
      split at hdir <;> simp_all
    obtain ⟨S, hS, hproper⟩ := Forest.subAt_of_directory T.proper hentry
    have hnames : T.list dir = S.names := by
      simp [Rc.FileTree.list, hloc, hS]
    exact Rc.PathString.append_ne_nil (hproper.of_mem_names (hnames ▸ hk)).ne_nil

/-- A first call stays at the first entry. -/
theorem getFirstEntry_eq_ok {d' : BoostDirectory}
    (h : LuaBoostDirectory.getFirstEntry T d = .ok (path, d')) :
    path ≠ [] ∧ ∃ rest, d'.currentIterator = path :: rest := by
  unfold LuaBoostDirectory.getFirstEntry at h
  split_ifs at h with hdir
  split at h
  · cases h
  · next head rest hpaths =>
    cases h
    exact ⟨ne_nil_of_mem_enumerate hdir (hpaths ▸ List.mem_cons_self), rest, rfl⟩

/-- The closure is behind its first call, and its adapter stays at the entry `path`. -/
structure Stuck (c : DirectoryClosure ν) (path : Str) (s : List DirectoryAdapter) : Prop where
  first : c.first = false
  ne_nil : path ≠ []
  adapter : ∃ a d rest, upvalueAdapter c.upvalue = some a ∧ s[a]? = some ⟨some d⟩ ∧
    d.currentIterator = path :: rest

theorem directoryIterator_ok {d' : BoostDirectory} (ha : upvalueAdapter c.upvalue = some a)
    (hd : s[a]? = some ⟨some d⟩) (hne : path ≠ [])
    (hentry : (if c.first then LuaBoostDirectory.getFirstEntry T d
      else LuaBoostDirectory.getNextEntry d) = .ok (path, d')) :
    directoryIterator T c s =
      .ok (.string (cstr path), { c with first := false }) (s.set a ⟨some d'⟩) := by
  have hlength : path.length > 0 := List.length_pos_iff.2 hne
  simp only [directoryIterator, ha, bind_of_ok (handle_apply hd), hentry, hlength, if_true]
  rfl

/-- **Later calls do not move on.** -/
theorem Stuck.directoryIterator (h : Stuck c path s) :
    directoryIterator T c s = .ok (.string (cstr path), c) s := by
  obtain ⟨hfirst, hne, a, d, rest, ha, hd, hcurrent⟩ := h
  have hnext : LuaBoostDirectory.getNextEntry d = .ok (path, d) := by
    rw [LuaBoostDirectory.getNextEntry, hcurrent]
  have hset : s.set a ⟨some d⟩ = s := by
    obtain ⟨hlt, heq⟩ := List.getElem?_eq_some_iff.1 hd
    rw [← heq, List.set_getElem_self]
  have hclosure : { c with first := false } = c := by
    rw [← hfirst]
  have hentry : (if c.first then LuaBoostDirectory.getFirstEntry T d
      else LuaBoostDirectory.getNextEntry d) = .ok (path, d) := by
    rw [hfirst, if_neg Bool.false_ne_true, hnext]
  rw [directoryIterator_ok ha hd hne hentry, hset, hclosure]

/-- A first call that returns gets stuck. -/
theorem stuck_of_directoryIterator {v : LuaValue ν} {c' : DirectoryClosure ν}
    (hfirst : c.first = true) (h : directoryIterator T c s = .ok (v, c') s') :
    ∃ path, v = .string (cstr path) ∧ Stuck c' path s' := by
  cases ha : upvalueAdapter c.upvalue with
  | none =>
    simp only [directoryIterator, ha] at h
    cases h
  | some a =>
    cases hx : s[a]? with
    | none =>
      simp only [directoryIterator, ha, bind_of_error (handle_error hx)] at h
      cases h
    | some x =>
      obtain ⟨_ | d⟩ := x
      · simp only [directoryIterator, ha, bind_of_ok (handle_apply hx)] at h
        cases h
      · cases hentry : LuaBoostDirectory.getFirstEntry T d with
        | error e =>
          simp only [directoryIterator, ha, bind_of_ok (handle_apply hx), hfirst, if_true,
            hentry] at h
          cases h
        | ok r =>
          obtain ⟨path, d'⟩ := r
          obtain ⟨hne, rest, hcurrent⟩ := getFirstEntry_eq_ok hentry
          rw [directoryIterator_ok ha hx hne (by rw [hfirst, if_pos rfl, hentry])] at h
          cases h
          have hlt : a < s.length := (List.getElem?_eq_some_iff.1 hx).1
          exact ⟨path, rfl, rfl, hne, a, d', rest, ha, List.getElem?_set_self hlt, hcurrent⟩

theorem calls_succ {v : LuaValue ν} {c' : DirectoryClosure ν} (n : ℕ)
    (h : directoryIterator T c s = .ok (v, c') s') :
    calls T c (n + 1) s = (calls T c' n >>= fun vs => pure (v :: vs)) s' := by
  rw [calls, bind_of_ok h]

theorem forLoop_succ {x : Str} {c' : DirectoryClosure ν} (fuel : ℕ)
    (h : directoryIterator T c s = .ok (.string x, c') s') :
    forLoop T c (fuel + 1) s = (forLoop T c' fuel >>= fun r => pure (r.map (· + 1))) s' := by
  rw [forLoop, bind_of_ok h]

/-- Every call gives the path of the same entry. -/
theorem Stuck.calls (h : Stuck c path s) (n : ℕ) :
    calls T c n s = .ok (List.replicate n (.string (cstr path))) s := by
  induction n with
  | zero => rfl
  | succ n ih =>
    rw [calls_succ n h.directoryIterator, bind_of_ok ih]
    rfl

/-- A `for` loop does not come to an end. -/
theorem Stuck.forLoop (h : Stuck c path s) (fuel : ℕ) : forLoop T c fuel s = .ok none s := by
  induction fuel with
  | zero => rfl
  | succ fuel ih =>
    rw [forLoop_succ fuel h.directoryIterator, bind_of_ok ih]
    rfl

/-- From the first call on, every call gives the path of the same entry. -/
theorem calls_eq_ok {n : ℕ} {vs : List (LuaValue ν)} (hfirst : c.first = true)
    (h : calls T c n s = .ok vs s') : ∃ path, vs = List.replicate n (.string (cstr path)) := by
  cases n with
  | zero =>
    cases h
    exact ⟨[], rfl⟩
  | succ n =>
    obtain ⟨⟨v, c'⟩, s₁, hcall, -⟩ := bind_eq_ok.1 h
    obtain ⟨path, rfl, hstuck⟩ := stuck_of_directoryIterator hfirst hcall
    rw [calls_succ n hcall, bind_of_ok (hstuck.calls n)] at h
    cases h
    exact ⟨path, rfl⟩

theorem forLoop_eq_ok {fuel : ℕ} {rounds : Option ℕ} (hfirst : c.first = true)
    (h : forLoop T c fuel s = .ok rounds s') : rounds = none := by
  cases fuel with
  | zero =>
    cases h
    rfl
  | succ fuel =>
    obtain ⟨⟨v, c'⟩, s₁, hcall, -⟩ := bind_eq_ok.1 h
    obtain ⟨path, rfl, hstuck⟩ := stuck_of_directoryIterator hfirst hcall
    rw [forLoop_succ fuel hcall, bind_of_ok (hstuck.forLoop fuel)] at h
    cases h
    rfl

theorem not_yieldsEntries (hfirst : c.first = true) (paths : List Str) :
    ¬ YieldsEntries T c paths s := by
  rintro ⟨order, hperm, hcalls⟩
  -- the call after the last entry should give `nil`
  obtain ⟨s', h⟩ := hcalls (order.length + 1)
  obtain ⟨path, hpath⟩ := calls_eq_ok hfirst h
  have hnil := congrArg (·[order.length]?) hpath
  simp at hnil

theorem not_loopEnds (hfirst : c.first = true) (rounds : ℕ) : ¬ LoopEnds T c rounds s := by
  rintro ⟨fuel, s', h⟩
  cases forLoop_eq_ok hfirst h

/-- The closure that `entries` makes is before its first call. -/
theorem entries_apply (hd : s[a]? = some ⟨some d⟩) (args : List (LuaValue ν)) :
    ∃ c, entries a args s = .ok c s ∧ c.first = true := by
  rw [entries, bind_of_ok (handle_apply hd)]
  cases args.getLast? with
  | none => exact ⟨_, rfl, rfl⟩
  | some v =>
    refine ⟨_, rfl, ?_⟩
    split <;> rfl

/-- The end iterator is dereferenced in empty directories. -/
theorem getFirstEntry_endIterator (hdir : T.isDirectory d.directoryPath = true) :
    LuaBoostDirectory.getFirstEntry T d = .error .endIterator ↔
      LuaBoostDirectory.enumerate T d.directoryPath = [] := by
  rw [LuaBoostDirectory.getFirstEntry, if_pos hdir]
  split <;> simp_all

/-- **No iteration is complete, and none ends.** -/
theorem iteration_fails (T : Rc.FileTree) {s : List DirectoryAdapter} {this : ℕ}
    {d : BoostDirectory} (hd : s[this]? = some ⟨some d⟩)
    (hdir : T.isDirectory d.directoryPath = true) (args : List (LuaValue ν)) :
    ∃ c, entries this args s = .ok c s ∧
      ¬ YieldsEntries T c (LuaBoostDirectory.enumerate T d.directoryPath) s ∧
      ¬ LoopEnds T c (LuaBoostDirectory.enumerate T d.directoryPath).length s ∧
      (LuaBoostDirectory.getFirstEntry T d = .error .endIterator ↔
        LuaBoostDirectory.enumerate T d.directoryPath = []) := by
  obtain ⟨c, hc, hfirst⟩ := entries_apply hd args
  exact ⟨c, hc, not_yieldsEntries hfirst _, not_loopEnds hfirst _, getFirstEntry_endIterator hdir⟩

/-! ## A directory with one file -/

/-- The tree with the file `/d/a`, which is empty. -/
def oneFile : Rc.FileTree where
  entries := .node (Str.ascii "d") (.leaf (Str.ascii "a") (some []) .nil) .nil
  cwd := []
  proper := by
    have hd : Rc.FileName (Str.ascii "d") := by constructor <;> decide
    have ha : Rc.FileName (Str.ascii "a") := by constructor <;> decide
    exact ⟨hd, List.not_mem_nil, ⟨ha, List.not_mem_nil, trivial⟩, trivial⟩
  cwd_directory := rfl

/-- The adapter of the directory `/d`. -/
def oneAdapter : List DirectoryAdapter := [⟨getDirectory oneFile (Str.ascii "/d")⟩]

theorem iteration_fails_oneFile :
    ∃ c, entries 0 ([] : List (LuaValue ℤ)) oneAdapter = .ok c oneAdapter ∧
      ¬ YieldsEntries oneFile c (LuaBoostDirectory.enumerate oneFile (Str.ascii "/d")) oneAdapter ∧
      ¬ LoopEnds oneFile c (LuaBoostDirectory.enumerate oneFile (Str.ascii "/d")).length
        oneAdapter ∧
      (LuaBoostDirectory.getFirstEntry oneFile ⟨[], Str.ascii "/d"⟩ = .error .endIterator ↔
        LuaBoostDirectory.enumerate oneFile (Str.ascii "/d") = []) := by
  have hd : oneAdapter[0]? = some ⟨some ⟨[], Str.ascii "/d"⟩⟩ := by decide
  have hdir : oneFile.isDirectory (Str.ascii "/d") = true := by decide
  exact iteration_fails oneFile hd hdir []

/-- The iterator of a directory with one entry does not give its path once and then `nil`. -/
theorem iteration_counterexample :
    ¬ ∃ c s, entries 0 ([] : List (LuaValue ℤ)) oneAdapter = .ok c s ∧
      YieldsEntries oneFile c [Str.ascii "/d/a"] s := by
  rintro ⟨c, s, hc, hyields⟩
  have hd : oneAdapter[0]? = some ⟨some ⟨[], Str.ascii "/d"⟩⟩ := by decide
  obtain ⟨c', hc', hfirst⟩ := entries_apply hd ([] : List (LuaValue ℤ))
  cases hc'.symm.trans hc
  exact not_yieldsEntries hfirst _ hyields

end LuaDirectoryAdapter

end Jord.Io
