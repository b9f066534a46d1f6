import Jord.Rc.ConfigRobust
import Jord.Rc.Delivery

/-!
# The resource compiler

`main` of `rc` reads its options, parses the config file and writes the output file. Exceptions are
caught and printed; the exit code is 0 only if the output has been written.

* `rcMain_exitCode` says when that is so: the options are complete, the config asks for nothing but
  calls of `addEntry`, which all return, the output file can be opened, and the files that have been
  added can be read again.
* `rcMain_delivers` says what the output is good for: compiled and registered, it lets `rc_load`
  find the files.

Parsing the options is a parameter, and so is what the files hold when the output is written.
-/

namespace Jord.Rc

open LuaStack RCBuilder PathLib

/-- What `boost::program_options` makes of arguments that it accepts: their number, whether help is
asked for, and the two file names, empty where they are missing. -/
structure CommandLine where
  argc : ℕ
  help : Bool
  outputFile : Str
  configFile : Str

/-- How `main` ends: with the usage, with the message of an exception, or with an output file. -/
inductive Outcome
  | usage
  | failed (e : Exn)
  | written (out : List Chunk)

/-- The exit code of `main`. -/
def Outcome.exitCode : Outcome → ℕ
  | .usage => 1
  | .failed _ => 1
  | .written _ => 0

/-- What `main` is stopped by, other than by an exception that it catches. -/
inductive Crash
  | config (s : Stop Exn)
  | output (f : Fault)

/-- The usage is shown instead of anything else. -/
def CommandLine.incomplete (cl : CommandLine) : Bool :=
  cl.argc = 1 || cl.help || cl.outputFile = [] || cl.configFile = []

variable {ν : Type} [DecidableEq ν]

/-- `main` of `rc`. The files are read again, as `reread` has them, when the output file has been
opened, so that an output file that is among them is cut off. -/
def rcMain (A : ConfigApi ν RCBuilder) (S : ConfigSource ν) (opensOutput : Str → Bool)
    (reread : FileSystem) (order : Heap.Order) (fuel : ℕ) (cl : CommandLine) :
    Option (Except Crash Outcome) :=
  if cl.incomplete then some (.ok .usage)
  else
    match parseConfig A S fuel cl.configFile RCBuilder.initial with
    | .error (.thrown e) => some (.ok (.failed e))
    | .error .unfinished => none
    | .error s => some (.error (.config s))
    | .ok (d, name) =>
      match writeFile fuel order reread (opensOutput cl.outputFile)
          { d.builder with moduleName := name } with
      | none => none
      | some (.error (.thrown e)) => some (.ok (.failed e))
      | some (.error f) => some (.error (.output f))
      | some (.ok out) => some (.ok (.written out))

/-! ## The calls of `addFile` -/

section Calls

variable (T : FileTree)

/-- The call of `addFile` for a relative path. -/
def fileCall (c : AddEntryCall) (path : Str) : AddFileCall :=
  ⟨T.contents, c.basePath, c.resourcePath, path⟩

variable {T}

/-- Calls that return, as a sequence of calls. -/
theorem addFiles_of_makeCalls (c : AddEntryCall) {paths : List Str} :
    ∀ {b b' : RCBuilder}, makeCalls T c.basePath c.resourcePath paths b = (b', none) →
      addFiles posix returns b (paths.map (fileCall T c)) = some b' := by
  induction paths with
  | nil =>
    intro b b' h
    obtain rfl : b = b' := congrArg Prod.fst h
    rfl
  | cons path paths ih =>
    intro b b' h
    rw [makeCalls] at h
    rcases hadd : addFile posix T.contents b c.basePath c.resourcePath path with ⟨b₁, _ | e⟩
    · simp only [hadd] at h
      rw [List.map_cons, addFiles]
      simp only [fileCall, hadd]
      exact ih h
    · simp [hadd] at h

/-- The calls of `addFile` that the calls of `addEntry` in a config make, one after the other. -/
def CallsFor (T : FileTree) (cs : List AddEntryCall) (calls : List AddFileCall) : Prop :=
  ∃ callss : List (List AddFileCall),
    List.Forall₂ (fun c fs => ∃ paths : List Str, (∀ fuel > T.entries.size,
      entryCalls T c.resourcePath c.recursive fuel c.path = some paths) ∧
        fs = paths.map (fileCall T c)) cs callss ∧
      calls = callss.flatten

theorem CallsFor.fs {cs : List AddEntryCall} {calls : List AddFileCall} (h : CallsFor T cs calls) :
    ∀ f ∈ calls, f.fs = T.contents := by
  obtain ⟨callss, hcallss, rfl⟩ := h
  induction hcallss with
  | nil => simp
  | cons hpaths _ ih =>
    obtain ⟨paths, -, rfl⟩ := hpaths
    intro f hf
    rw [List.flatten_cons] at hf
    rcases List.mem_append.1 hf with hf | hf
    · obtain ⟨path, -, rfl⟩ := List.mem_map.1 hf
      rfl
    · exact ih f hf

omit [DecidableEq ν] in
/-- **The steps of a config that come to their end** have called `addFile`, entry by entry. -/
theorem callsFor_of_execute {A : ConfigApi ν RCBuilder}
    (hA : A.addEntry = addEntryOn T) {steps : List ConfigStep} :
    ∀ {d d' : ConfigData RCBuilder}, execute A steps d = .ok d' → ∃ cs calls,
      steps = cs.map .call ∧ CallsFor T cs calls ∧
        addFiles posix returns d.builder calls = some d'.builder := by
  induction steps with
  | nil =>
    intro d d' h
    obtain rfl : d = d' := Except.ok.inj h
    exact ⟨[], [], rfl, ⟨[], .nil, rfl⟩, rfl⟩
  | cons step steps ih =>
    intro d d' h
    cases step with
    | call c =>
      rw [execute] at h
      rcases hadd : A.addEntry c d.builder with ⟨b, _ | ex⟩
      · simp only [hadd] at h
        obtain ⟨cs, calls, rfl, ⟨callss, hcallss, rfl⟩, hcalls⟩ := ih h
        obtain ⟨paths, hpaths⟩ := exists_entryCalls T c.resourcePath c.path c.recursive
        have hmake : makeCalls T c.basePath c.resourcePath paths d.builder = (b, none) := by
          rw [← hadd, hA, addEntryOn]
          simp only [addEntry_of_entryCalls T c.basePath c.resourcePath
            (hpaths _ (Nat.lt_succ_self _)), Option.get_some]
        refine ⟨c :: cs, _, rfl, ⟨_ :: callss, .cons ⟨paths, hpaths, rfl⟩ hcallss, rfl⟩, ?_⟩
        rw [List.flatten_cons, addFiles_append, addFiles_of_makeCalls c hmake]
        exact hcalls
      · simp [hadd] at h
    | unexpected => cases h
    | noTable => cases h
    | noString => cases h

end Calls

/-! ## The exit code -/

section Exit

variable {A : ConfigApi ν RCBuilder} {S : ConfigSource ν} {opensOutput : Str → Bool}
  {reread : FileSystem} {order : Heap.Order} {cl : CommandLine} {d : ConfigData RCBuilder}

/-- The config is read, its value is a table, and what it asks for is executed to the end. -/
def Executes (A : ConfigApi ν RCBuilder) (S : ConfigSource ν) (configPath : Str)
    (d : ConfigData RCBuilder) : Prop :=
  ∃ values t, readConfig S configPath = .ok values ∧ values.getLast? = some (.table t) ∧
    execute A (plan A t) ⟨RCBuilder.initial, []⟩ = .ok d

/-- What an exit with the code 0 needs: both file names, a config that is executed to the end, an
output file that can be opened, and files that can be read to the sizes they have been added
with. -/
structure Succeeds (A : ConfigApi ν RCBuilder) (S : ConfigSource ν) (opensOutput : Str → Bool)
    (reread : FileSystem) (cl : CommandLine) : Prop where
  complete : cl.incomplete = false
  opens : opensOutput cl.outputFile = true
  executes : ∃ d, Executes A S cl.configFile d ∧ ∀ e ∈ d.builder.entriesList, Whole reread e

/-- What leads to undefined behaviour: a config with a step that is not sound, or a file that is too
short when it is read again. -/
structure Undefined (A : ConfigApi ν RCBuilder) (S : ConfigSource ν) (opensOutput : Str → Bool)
    (reread : FileSystem) (cl : CommandLine) : Prop where
  complete : cl.incomplete = false
  reached : (∃ values t, readConfig S cl.configFile = .ok values ∧
      values.getLast? = some (.table t) ∧ ¬ Sound A (plan A t) RCBuilder.initial) ∨
    (opensOutput cl.outputFile = true ∧
      ∃ d, Executes A S cl.configFile d ∧ Short reread d.builder.entriesList)

/-- How a run of `main` ends: not at all only if the config does not, in undefined behaviour only
for one of the two reasons, and with the exit code 0 only if all is well. -/
structure Exits (A : ConfigApi ν RCBuilder) (S : ConfigSource ν) (opensOutput : Str → Bool)
    (reread : FileSystem) (cl : CommandLine) (r : Option (Except Crash Outcome)) : Prop where
  endless : r = none ↔ cl.incomplete = false ∧ ¬ Evaluates S cl.configFile
  undefined : (∃ e, r = some (.error e)) ↔ Undefined A S opensOutput reread cl
  succeeds : (∃ o, r = some (.ok o) ∧ o.exitCode = 0) ↔ Succeeds A S opensOutput reread cl

theorem Executes.unique {configPath : Str} {d d' : ConfigData RCBuilder}
    (h : Executes A S configPath d) (h' : Executes A S configPath d') : d = d' := by
  obtain ⟨values, t, hread, hlast, hexec⟩ := h
  obtain ⟨values', t', hread', hlast', hexec'⟩ := h'
  obtain rfl := Except.ok.inj (hread.symm.trans hread')
  obtain rfl : t = t' := by simpa using hlast.symm.trans hlast'
  exact Except.ok.inj (hexec.symm.trans hexec')

/-- The end with an exception or the usage. -/
theorem Exits.failed {o : Outcome} (ho : o.exitCode ≠ 0)
    (hends : cl.incomplete = false → Evaluates S cl.configFile)
    (hdefined : ¬ Undefined A S opensOutput reread cl)
    (hfails : ¬ Succeeds A S opensOutput reread cl) :
    Exits A S opensOutput reread cl (some (.ok o)) where
  endless := iff_of_false (by simp) fun h => h.2 (hends h.1)
  undefined := iff_of_false (by rintro ⟨e, he⟩; cases he) hdefined
  succeeds := by
    refine iff_of_false ?_ hfails
    rintro ⟨o', ho', hcode⟩
    cases ho'
    exact ho hcode

variable (opensOutput reread) in
/-- A config that has been executed to the end, by a run of `main`. -/
theorem rcMain_of_executes (hA : A.addEntry = addEntryOn S.files) (horder : order.Valid)
    (hcl : cl.incomplete = false) (hd : Executes A S cl.configFile d) :
    ∃ toc bound, ∀ fuel ≥ bound, rcMain A S opensOutput reread order fuel cl = some (
      if opensOutput cl.outputFile then
        match writeData reread d.builder with
        | .ok data => .ok (.written (header :: toc ++ data ++ [trailer (stem cl.configFile)]))
        | .error (.thrown e) => .ok (.failed e)
        | .error f => .error (.output f)
      else .ok (.failed (.rc (Str.ascii "Failed to open the file for writing")))) := by
  obtain ⟨values, t, hread, hlast, hexec⟩ := hd
  obtain ⟨cs, calls, -, -, hadd⟩ := callsFor_of_execute hA hexec
  obtain ⟨F, hF, -, -⟩ := (addFiles_reached (addFiles_returns hadd)).exists_forest horder
  refine ⟨tocOutput F, max (F.size + 1) ((A.table t).pairs.length + (plan A t).length + 1),
    fun fuel hfuel => ?_⟩
  have hparse : parseConfig A S fuel cl.configFile RCBuilder.initial =
      .ok (d, stem cl.configFile) := by
    rw [parseConfig_eq hread hlast (by omega), hexec]
    rfl
  have htoc : writeToc fuel order { d.builder with moduleName := stem cl.configFile } =
      some (.ok (tocOutput F)) :=
    writeToc_eq (b := { d.builder with moduleName := stem cl.configFile }) hF (by omega)
  simp only [rcMain, hcl, hparse, Bool.false_eq_true, if_false]
  cases hopen : opensOutput cl.outputFile with
  | false => rfl
  | true =>
    have hdata : writeData reread { d.builder with moduleName := stem cl.configFile } =
        writeData reread d.builder := rfl
    simp only [writeFile, if_true, htoc, Option.map_some]
    cases hw : writeData reread d.builder with
    | ok data => simp [hdata, hw, Bind.bind, Except.bind, Pure.pure, Except.pure]
    | error f => cases f <;> simp [hdata, hw, Bind.bind, Except.bind]

/-- The end of a config that has been executed to the end. -/
theorem exits_of_executes (hA : A.addEntry = addEntryOn S.files) (horder : order.Valid)
    (hcl : cl.incomplete = false) (hd : Executes A S cl.configFile d) :
    ∃ bound, ∀ fuel ≥ bound,
      Exits A S opensOutput reread cl (rcMain A S opensOutput reread order fuel cl) := by
  obtain ⟨toc, bound, hrun⟩ := rcMain_of_executes opensOutput reread hA horder hcl hd
  refine ⟨bound, fun fuel hfuel => ?_⟩
  rw [hrun fuel hfuel]
  have hevaluates : Evaluates S cl.configFile := by
    obtain ⟨values, t, hread, -⟩ := hd
    exact evaluates_of_ok hread
  have hundefined : Undefined A S opensOutput reread cl ↔
      opensOutput cl.outputFile = true ∧ Short reread d.builder.entriesList := by
    constructor
    · rintro ⟨-, ⟨values, t, hread, hlast, hsound⟩ | ⟨hopen, d', hd', hshort⟩⟩
      · obtain ⟨values', t', hread', hlast', hexec⟩ := hd
        obtain rfl := Except.ok.inj (hread.symm.trans hread')
        obtain rfl : t = t' := by simpa using hlast.symm.trans hlast'
        rcases execute_of_not_sound (d := ⟨RCBuilder.initial, []⟩) hsound with h | h <;>
          cases hexec.symm.trans h
      · exact ⟨hopen, hd.unique hd' ▸ hshort⟩
    · exact fun h => ⟨hcl, .inr ⟨h.1, d, hd, h.2⟩⟩
  have hsucceeds : Succeeds A S opensOutput reread cl ↔
      opensOutput cl.outputFile = true ∧ ∀ e ∈ d.builder.entriesList, Whole reread e := by
    constructor
    · rintro ⟨-, hopen, d', hd', hwhole⟩
      exact ⟨hopen, hd.unique hd' ▸ hwhole⟩
    · exact fun h => ⟨hcl, h.1, d, hd, h.2⟩
  by_cases hopen : opensOutput cl.outputFile = true
  · rw [if_pos hopen]
    by_cases hwhole : ∀ e ∈ d.builder.entriesList, Whole reread e
    · obtain ⟨parts, hparts⟩ := exists_packed_iff.2 hwhole
      rw [writeData_eq hparts]
      exact ⟨iff_of_false (by simp) fun h => h.2 hevaluates,
        iff_of_false (by simp) fun h => not_short hwhole (hundefined.1 h).2,
        iff_of_true ⟨_, rfl, rfl⟩ (hsucceeds.2 ⟨hopen, hwhole⟩)⟩
    · have hfails : ¬ Succeeds A S opensOutput reread cl := fun h => hwhole (hsucceeds.1 h).2
      rcases writeEntries_error hwhole with ⟨hshort, hw⟩ | ⟨hshort, e, hw⟩
      · have hdata : writeData reread d.builder = .error .uninitialised := by
          simp [writeData, hw, Bind.bind, Except.bind]
        rw [hdata]
        exact ⟨iff_of_false (by simp) fun h => h.2 hevaluates,
          iff_of_true ⟨_, rfl⟩ (hundefined.2 ⟨hopen, hshort⟩), iff_of_false (by simp) hfails⟩
      · have hdata : writeData reread d.builder = .error (.thrown e) := by
          simp [writeData, hw, Bind.bind, Except.bind]
        rw [hdata]
        exact .failed Nat.one_ne_zero (fun _ => hevaluates) (fun h => hshort (hundefined.1 h).2)
          hfails
  · rw [if_neg hopen]
    exact .failed Nat.one_ne_zero (fun _ => hevaluates) (fun h => hopen (hundefined.1 h).1)
      fun h => hopen (hsucceeds.1 h).1

/-- A config whose value is not a table, or that is not read at all. -/
theorem exits_of_noTable (hcl : cl.incomplete = false)
    (hnone : ∀ values t, readConfig S cl.configFile = .ok values →
      values.getLast? ≠ some (.table t)) (fuel : ℕ) :
    Exits A S opensOutput reread cl (rcMain A S opensOutput reread order fuel cl) := by
  have hdefined : ¬ Undefined A S opensOutput reread cl := by
    rintro ⟨-, ⟨values, t, hread, hlast, -⟩ | ⟨-, d, ⟨values, t, hread, hlast, -⟩, -⟩⟩ <;>
      exact hnone values t hread hlast
  have hfails : ¬ Succeeds A S opensOutput reread cl := by
    rintro ⟨-, -, d, ⟨values, t, hread, hlast, -⟩, -⟩
    exact hnone values t hread hlast
  rw [rcMain, hcl, if_neg Bool.false_ne_true]
  cases hread : readConfig S cl.configFile with
  | error e =>
    rcases thrown_of_readConfig hread with ⟨e', rfl⟩ | rfl
    · simp only [parseConfig, hread]
      refine .failed Nat.one_ne_zero (fun _ h => ?_) hdefined hfails
      cases hread.symm.trans h
    · simp only [parseConfig, hread]
      exact ⟨iff_of_true rfl ⟨hcl, fun h => h hread⟩, iff_of_false (by simp) hdefined,
        iff_of_false (by simp) hfails⟩
  | ok values =>
    rw [parseConfig_unexpected hread fun t => hnone values t hread]
    exact .failed Nat.one_ne_zero (fun _ => evaluates_of_ok hread) hdefined hfails

/-- A config that is not executed to the end. -/
theorem exits_of_error (hcl : cl.incomplete = false) {values : List (Value ν)} {t : ℕ}
    (hread : readConfig S cl.configFile = .ok values) (hlast : values.getLast? = some (.table t))
    {e : Stop Exn} (hexec : execute A (plan A t) ⟨RCBuilder.initial, []⟩ = .error e) {fuel : ℕ}
    (hfuel : (A.table t).pairs.length + (plan A t).length < fuel) :
    Exits A S opensOutput reread cl (rcMain A S opensOutput reread order fuel cl) := by
  have hnot (d : ConfigData RCBuilder) : ¬ Executes A S cl.configFile d := by
    rintro ⟨values', t', hread', hlast', hexec'⟩
    obtain rfl := Except.ok.inj (hread.symm.trans hread')
    obtain rfl : t = t' := by simpa using hlast.symm.trans hlast'
    cases hexec.symm.trans hexec'
  have hfails : ¬ Succeeds A S opensOutput reread cl := fun h => by
    obtain ⟨d, hd, -⟩ := h.executes
    exact hnot d hd
  have hundefined : Undefined A S opensOutput reread cl ↔
      ¬ Sound A (plan A t) RCBuilder.initial := by
    constructor
    · rintro ⟨-, ⟨values', t', hread', hlast', hsound⟩ | ⟨-, d, hd, -⟩⟩
      · obtain rfl := Except.ok.inj (hread.symm.trans hread')
        obtain rfl : t = t' := by simpa using hlast.symm.trans hlast'
        exact hsound
      · exact absurd hd (hnot d)
    · exact fun hsound => ⟨hcl, .inl ⟨values, t, hread, hlast, hsound⟩⟩
  have hparse : parseConfig A S fuel cl.configFile RCBuilder.initial = .error e := by
    rw [parseConfig_eq hread hlast hfuel, hexec]
    rfl
  rw [rcMain, hcl, if_neg Bool.false_ne_true, hparse]
  have hends (f : Stop Exn) : (some (.error (.config f)) : Option (Except Crash Outcome)) = none ↔
      cl.incomplete = false ∧ ¬ Evaluates S cl.configFile :=
    iff_of_false (by simp) fun h => h.2 (evaluates_of_ok hread)
  by_cases hsound : Sound A (plan A t) RCBuilder.initial
  · obtain ⟨e', hexec'⟩ | ⟨d, hexec'⟩ :=
      execute_of_sound (d := (⟨RCBuilder.initial, []⟩ : ConfigData RCBuilder)) hsound
    · obtain rfl := Except.error.inj (hexec.symm.trans hexec')
      exact .failed Nat.one_ne_zero (fun _ => evaluates_of_ok hread)
        (fun h => hundefined.1 h hsound) hfails
    · cases hexec.symm.trans hexec'
  · rcases execute_of_not_sound (d := (⟨RCBuilder.initial, []⟩ : ConfigData RCBuilder)) hsound with
      hexec' | hexec' <;> obtain rfl := Except.error.inj (hexec.symm.trans hexec') <;>
      exact ⟨hends _, iff_of_true ⟨_, rfl⟩ (hundefined.2 hsound), iff_of_false (by simp) hfails⟩

/-- **The exit code of `rc`.** -/
theorem rcMain_exitCode (hA : A.addEntry = addEntryOn S.files) (horder : order.Valid)
    (opensOutput : Str → Bool) (reread : FileSystem) (cl : CommandLine) :
    ∃ bound, ∀ fuel ≥ bound,
      Exits A S opensOutput reread cl (rcMain A S opensOutput reread order fuel cl) := by
  by_cases hcl : cl.incomplete = false
  · by_cases htable : ∃ values t, readConfig S cl.configFile = .ok values ∧
        values.getLast? = some (.table t)
    · obtain ⟨values, t, hread, hlast⟩ := htable
      cases hexec : execute A (plan A t) ⟨RCBuilder.initial, []⟩ with
      | ok d => exact exits_of_executes hA horder hcl ⟨values, t, hread, hlast, hexec⟩
      | error e =>
        exact ⟨(A.table t).pairs.length + (plan A t).length + 1, fun fuel hfuel =>
          exits_of_error hcl hread hlast hexec (by omega)⟩
    · exact ⟨0, fun fuel _ => exits_of_noTable hcl
        (fun values t hread hlast => htable ⟨values, t, hread, hlast⟩) fuel⟩
  · refine ⟨0, fun fuel _ => ?_⟩
    rw [rcMain, if_pos (Bool.of_not_eq_false hcl)]
    exact .failed Nat.one_ne_zero (fun h => absurd h hcl) (fun h => hcl h.complete)
      fun h => hcl h.complete

/-! ## What the output is good for -/

variable (A S cl) in
/-- A config that has been parsed has been executed. -/
theorem executes_of_parseConfig : ∃ bound, ∀ fuel ≥ bound, ∀ d name,
    parseConfig A S fuel cl.configFile RCBuilder.initial = .ok (d, name) →
      name = stem cl.configFile ∧ Executes A S cl.configFile d := by
  cases hread : readConfig S cl.configFile with
  | error e =>
    refine ⟨0, fun fuel _ d name h => ?_⟩
    rw [parseConfig, hread] at h
    cases h
  | ok values =>
    by_cases htable : ∃ t, values.getLast? = some (.table t)
    · obtain ⟨t, hlast⟩ := htable
      refine ⟨(A.table t).pairs.length + (plan A t).length + 1, fun fuel hfuel d name h => ?_⟩
      rw [parseConfig_eq hread hlast (by omega)] at h
      cases hexec : execute A (plan A t) ⟨RCBuilder.initial, []⟩ with
      | error e =>
        rw [hexec] at h
        cases h
      | ok d' =>
        rw [hexec] at h
        obtain ⟨rfl, rfl⟩ := Prod.mk.inj (Except.ok.inj h)
        exact ⟨rfl, values, t, hread, hlast, hexec⟩
    · refine ⟨0, fun fuel _ d name h => ?_⟩
      rw [parseConfig_unexpected hread (fun t ht => htable ⟨t, ht⟩) fuel] at h
      cases h

/-- What the output of `main` has been made from, and what it is good for: if nothing stands against
it in the run of the builder (`Builds`), it can be compiled and registered as the next pack, with
which `rc_load` finds the packed files. -/
structure Delivers (A : ConfigApi ν RCBuilder) (T : FileTree) (reread : FileSystem) (name : Str)
    (t : ℕ) (out : List Chunk) (cs : List AddEntryCall) (calls : List AddFileCall)
    (b : RCBuilder) : Prop where
  config : plan A t = cs.map .call
  made : CallsFor T cs calls
  added : addFiles posix returns RCBuilder.initial calls = some b
  deployed : Builds posix calls b reread name → ∀ stores P, Deployed posix stores P →
    ∃ items data c bound, Declares out name items data ∧
      (∀ fuel ≥ bound, Root.construct fuel P.heap P.roots.length items = some (.ok c)) ∧
      Deployed posix (stores ++ [packed posix calls]) (P.initResource c data)

/-- **What the output of `rc` is good for.** An output that `main` has written comes from a config
with nothing but calls of `addEntry`, and it delivers the files that these calls have added. -/
theorem rcMain_delivers (hA : A.addEntry = addEntryOn S.files) (horder : order.Valid)
    (opensOutput : Str → Bool) (reread : FileSystem) (cl : CommandLine) :
    ∃ bound, ∀ fuel ≥ bound, ∀ out,
      rcMain A S opensOutput reread order fuel cl = some (.ok (.written out)) →
        ∃ values t cs calls b, readConfig S cl.configFile = .ok values ∧
          values.getLast? = some (.table t) ∧
          Delivers A S.files reread (stem cl.configFile) t out cs calls b := by
  obtain ⟨bound, hparse⟩ := executes_of_parseConfig A S cl
  refine ⟨bound, fun fuel hfuel out h => ?_⟩
  unfold rcMain at h
  split at h
  · cases h
  · split at h
    · cases h
    · cases h
    · cases h
    · next d name hp =>
      obtain ⟨rfl, values, t, hread, hlast, hd⟩ := hparse fuel hfuel d name hp
      obtain ⟨cs, calls, hplan, hcalls, hadd⟩ := callsFor_of_execute hA hd
      refine ⟨values, t, cs, calls, d.builder, hread, hlast, hplan, hcalls, hadd,
        fun hb stores P hP => ?_⟩
      obtain ⟨out', items, data, c, bound', hdecl, hrun, hdeployed⟩ := exists_deployed hP hb horder
      refine ⟨items, data, c, bound', ?_, fun m hm => (hrun m hm).2, hdeployed⟩
      cases hopen : opensOutput cl.outputFile with
      | false => simp [hopen, writeFile] at h
      | true =>
        rw [hopen] at h
        cases hw : writeFile fuel order reread true
            { d.builder with moduleName := stem cl.configFile } with
        | none => simp [hw] at h
        | some r =>
          have hmax := writeFile_mono (Nat.le_max_left fuel bound') hw
          rw [(hrun _ (Nat.le_max_right _ _)).1] at hmax
          obtain rfl := Option.some.inj hmax
          simp only [hw, Option.some.injEq, Except.ok.injEq, Outcome.written.injEq] at h
          exact h ▸ hdecl

end Exit

/-! ## A config with an entry -/

/-- The tree with the config file `/c` and the file `/res/a`. -/
def entryTree : FileTree where
  entries := .leaf (Str.ascii "c")
    (some (Str.ascii "\x7b \x7b entries = \x7b 'res' \x7d \x7d \x7d"))
    (.node (Str.ascii "res") (.leaf (Str.ascii "a") (some [104, 105]) .nil) .nil)
  cwd := []
  proper := ⟨by constructor <;> decide, by decide, by constructor <;> decide, by decide,
    ⟨by constructor <;> decide, by decide, trivial⟩, trivial⟩
  cwd_directory := rfl

/-- The chunk `return { { entries = { 'res' } } }` returns a table. -/
def entryConfig : ConfigSource ℤ := ⟨entryTree, fun _ => true, fun _ => some (.ok [.table 0])⟩

/-- A table with one pair. -/
def tableWith (key v : Value ℤ) (hkey : key ≠ .nil) : Table ℤ :=
  ⟨[(key, v)], List.nodup_singleton _, fun h => hkey (List.mem_singleton.1 h).symm⟩

/-- The table, its element, and the entries of the element. -/
def entryApi : ConfigApi ℤ RCBuilder where
  table t :=
    if t = 0 then tableWith (.number 1) (.table 1) nofun
    else if t = 1 then tableWith (.string (Str.ascii "entries")) (.table 2) nofun
    else tableWith (.number 1) (.string (Str.ascii "res")) nofun
  number2str := Str.signed
  one := 1
  addEntry := addEntryOn entryTree

/-- `rc -o o /c` -/
def entryLine : CommandLine := ⟨4, false, Str.ascii "o", Str.ascii "/c"⟩

theorem executes_entry : ∃ d, Executes entryApi entryConfig entryLine.configFile d ∧
    d.builder.entriesList = [⟨Str.ascii "./res/a", 2, 0⟩] := by
  have hentries : (execute entryApi (plan entryApi 0) ⟨RCBuilder.initial, []⟩).toOption.map
      (·.builder.entriesList) = some [⟨Str.ascii "./res/a", 2, 0⟩] := by decide +kernel
  obtain ⟨d, hd, hlist⟩ := Option.map_eq_some_iff.1 hentries
  refine ⟨d, ⟨[.table 0], 0, rfl, rfl, ?_⟩, hlist⟩
  cases hexec : execute entryApi (plan entryApi 0) ⟨RCBuilder.initial, []⟩ with
  | error e => simp [hexec, Except.toOption] at hd
  | ok d' =>
    rw [hexec] at hd
    exact congrArg Except.ok (Option.some.inj hd)

theorem succeeds_entry :
    Succeeds entryApi entryConfig (fun _ => true) entryTree.contents entryLine := by
  obtain ⟨d, hd, hlist⟩ := executes_entry
  refine ⟨rfl, rfl, d, hd, fun e he => ?_⟩
  rw [hlist, List.mem_singleton] at he
  exact ⟨[104, 105], by rw [he]; decide, by rw [he]; decide⟩

theorem rcMain_exitCode_entry : ∃ bound, ∀ fuel ≥ bound, ∃ o,
    rcMain entryApi entryConfig (fun _ => true) entryTree.contents inPlace fuel entryLine =
      some (.ok o) ∧ o.exitCode = 0 := by
  obtain ⟨bound, hexits⟩ := rcMain_exitCode (A := entryApi) (S := entryConfig) rfl inPlace_valid
    (fun _ => true) entryTree.contents entryLine
  exact ⟨bound, fun fuel hfuel => (hexits fuel hfuel).succeeds.2 succeeds_entry⟩

theorem rcMain_delivers_entry : ∃ fuel out values t cs calls b,
    rcMain entryApi entryConfig (fun _ => true) entryTree.contents inPlace fuel entryLine =
      some (.ok (.written out)) ∧
    readConfig entryConfig entryLine.configFile = .ok values ∧
    values.getLast? = some (.table t) ∧ cs ≠ [] ∧
    Delivers entryApi entryTree entryTree.contents (stem entryLine.configFile) t out cs calls
      b := by
  obtain ⟨bound, hdelivers⟩ := rcMain_delivers (A := entryApi) (S := entryConfig) rfl inPlace_valid
    (fun _ => true) entryTree.contents entryLine
  obtain ⟨d, hd, -⟩ := executes_entry
  obtain ⟨bound', hexits⟩ := exits_of_executes (A := entryApi) (S := entryConfig) rfl
    inPlace_valid rfl hd
  obtain ⟨o, ho, hcode⟩ := (hexits (max bound bound') (le_max_right _ _)).succeeds.2 succeeds_entry
  cases o with
  | usage => cases hcode
  | failed e => cases hcode
  | written out =>
    obtain ⟨values, t, cs, calls, b, hread, hlast, h⟩ := hdelivers _ (le_max_left _ _) out ho
    refine ⟨_, out, values, t, cs, calls, b, ho, hread, hlast, ?_, h⟩
    rintro rfl
    obtain rfl : [Value.table 0] = values := Except.ok.inj hread
    obtain rfl : 0 = t := by simpa using hlast
    exact absurd h.config (by decide)

end Jord.Rc
