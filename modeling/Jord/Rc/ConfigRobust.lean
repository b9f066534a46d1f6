import Jord.Rc.Collect
import Jord.Rc.ConfigLoops

/-!
# When the parser is robust

`parseConfig_eq` says that the parser executes the plan, and `parseConfig_iff` that it is robust
exactly if the plan is sound.
-/

namespace Jord.Rc.RCBuilder

open LuaStack

variable {ν β : Type} [DecidableEq ν] (A : ConfigApi ν β) (S : ConfigSource ν)

/-! ## Sound plans -/

section Sound

variable {A} {steps steps' : List ConfigStep} {d d' : ConfigData β}

omit [DecidableEq ν] in
theorem sound_append (h : Sound A (steps ++ steps') d.builder)
    (hexec : execute A steps d = .ok d') : Sound A steps' d'.builder := by
  induction steps generalizing d with
  | nil =>
    cases hexec
    exact h
  | cons step steps ih =>
    cases step with
    | call c =>
      rw [List.cons_append, Sound] at h
      rw [execute] at hexec
      rcases hadd : A.addEntry c d.builder with ⟨b, _ | ex⟩
      · simp only [hadd] at h hexec
        exact ih h hexec
      · simp [hadd] at hexec
    | unexpected => cases hexec
    | noTable => cases hexec
    | noString => cases hexec

omit [DecidableEq ν] in
/-- Steps that are sound come to their end or throw. -/
theorem execute_of_sound (h : Sound A steps d.builder) :
    (∃ e, execute A steps d = .error (.thrown e)) ∨ ∃ d', execute A steps d = .ok d' := by
  induction steps generalizing d with
  | nil => exact .inr ⟨d, rfl⟩
  | cons step steps ih =>
    cases step with
    | call c =>
      rw [Sound] at h
      rw [execute]
      rcases hadd : A.addEntry c d.builder with ⟨b, _ | ex⟩
      · simp only [hadd] at h ⊢
        exact ih h
      · exact .inl ⟨ex, by simp⟩
    | unexpected => exact .inl ⟨_, rfl⟩
    | noTable => exact h.elim
    | noString => exact h.elim

omit [DecidableEq ν] in
/-- Steps that are not sound end without a meaning. -/
theorem execute_of_not_sound (h : ¬ Sound A steps d.builder) :
    execute A steps d = .error .nextOfNoTable ∨ execute A steps d = .error .nullString := by
  induction steps generalizing d with
  | nil => exact absurd trivial h
  | cons step steps ih =>
    cases step with
    | call c =>
      rw [Sound] at h
      rw [execute]
      rcases hadd : A.addEntry c d.builder with ⟨b, _ | ex⟩
      · simp only [hadd] at h ⊢
        exact ih h
      · simp [hadd] at h
    | unexpected => exact absurd trivial h
    | noTable => exact .inl rfl
    | noString => exact .inr rfl

omit [DecidableEq ν] in
/-- Steps that come to their end are calls, and these have been made. -/
theorem calls_of_execute (h : execute A steps d = .ok d') :
    ∃ cs : List AddEntryCall, steps = cs.map .call ∧ d'.calls = d.calls ++ cs := by
  induction steps generalizing d with
  | nil =>
    cases h
    exact ⟨[], rfl, (List.append_nil _).symm⟩
  | cons step steps ih =>
    cases step with
    | call c =>
      rw [execute] at h
      rcases hadd : A.addEntry c d.builder with ⟨b, _ | ex⟩
      · simp only [hadd] at h
        obtain ⟨cs, rfl, hcalls⟩ := ih h
        exact ⟨c :: cs, rfl, by rw [hcalls, List.append_assoc]; rfl⟩
      · simp [hadd] at h
    | unexpected => cases h
    | noTable => cases h
    | noString => cases h

/-- Where all steps of an element are calls, they are those that it asks for. -/
theorem elementSteps_eq_map (v : Value ν) : elementSteps A v = (valueCalls A v).map .ofCall ∨
    .noTable ∈ elementSteps A v ∨ .unexpected ∈ elementSteps A v := by
  rcases v.isTable_cases with ⟨t, rfl⟩ | hv
  · rcases Value.isTable_cases ((A.table t).get (.string (Str.ascii "entries"))) with ⟨e, he⟩ | hv
    · exact .inl (by simp only [elementSteps, valueCalls, he])
    · exact .inr (.inl (by rw [elementSteps_noTable hv]; exact List.mem_singleton_self _))
  · right; right
    cases v <;> first | exact List.mem_singleton_self _ | cases hv

/-- A config whose steps are calls asks for these calls and no others. -/
theorem configCalls_of_plan {t : ℕ} {cs : List AddEntryCall}
    (h : configSteps A (A.table t).pairs = cs.map .call) : cs.map some = configCalls A t := by
  have hmem : ∀ step ∈ configSteps A (A.table t).pairs, ∃ c, step = .call c := by
    intro step hstep
    rw [h] at hstep
    obtain ⟨c, -, rfl⟩ := List.mem_map.1 hstep
    exact ⟨c, rfl⟩
  have hsteps : configSteps A (A.table t).pairs = (configCalls A t).map .ofCall := by
    rw [configCalls, List.map_flatMap, configSteps]
    apply List.flatMap_congr
    intro p hp
    have hsub : ∀ step ∈ elementSteps A p.2, ∃ c, step = .call c := fun step hstep =>
      hmem step (List.mem_flatMap.2 ⟨p, hp, hstep⟩)
    rcases elementSteps_eq_map p.2 with heq | hno | hun
    · exact heq
    · obtain ⟨c, hc⟩ := hsub _ hno
      cases hc
    · obtain ⟨c, hc⟩ := hsub _ hun
      cases hc
  have hinj : Function.Injective ConfigStep.ofCall := by
    rintro (_ | c) (_ | c') heq <;> first | rfl | cases heq <;> rfl
  have hcs : cs.map ConfigStep.call = (cs.map some).map ConfigStep.ofCall := by
    rw [List.map_map]
    rfl
  exact hinj.list_map (hcs.symm.trans (h.symm.trans hsteps))

/-- No `entries` that is no table is come to. -/
theorem entries_of_sound {t : ℕ} (h : Sound A (elementSteps A (.table t) ++ steps') d.builder) :
    ∃ e, (A.table t).get (.string (Str.ascii "entries")) = .table e := by
  rcases Value.isTable_cases ((A.table t).get (.string (Str.ascii "entries"))) with he | hv
  · exact he
  · rw [elementSteps_noTable hv] at h
    exact h.elim

/-- The loop over the entries is begun for an element that is a table. -/
theorem stack_of_entriesBegin {t : ℕ} {below : List (Value ν)} {rest : List (Value ν × Value ν)}
    {s s₁ : LuaStack.State ν (ConfigData β)} {fields : Str × Str}
    (hhead : AtHead A.toApi t below rest s) (h : entriesBegin A s = .ok (fields, s₁)) :
    ∃ p rest' element, rest = p :: rest' ∧ p.2 = .table element ∧
      s₁.stack = .nil :: (A.table element).get (.string (Str.ascii "entries")) ::
        .table element :: p.1 :: .table t :: below := by
  obtain ⟨stack, d⟩ := s
  obtain ⟨key, rfl, htraversing⟩ := hhead
  rw [entriesBegin] at h
  cases rest with
  | nil =>
    rw [bind_of_ok (next_nil A.toApi htraversing), bind_of_ok valueAt_one] at h
    cases h
  | cons p rest =>
    rw [bind_of_ok (next_cons A.toApi htraversing), bind_of_ok valueAt_one] at h
    rcases p.2.isTable_cases with ⟨element, hp⟩ | hv
    · rw [hp] at h
      change elementFields A _ = _ at h
      rw [elementFields_apply] at h
      cases h
      exact ⟨p, rest, element, rfl, hp, rfl⟩
    · rw [hv] at h
      cases h

/-- The loop over the entries stays at a head. -/
theorem stack_of_entryRounds {e m : ℕ} {below : List (Value ν)} {basePath resourcePath : Str}
    {s s' : LuaStack.State ν (ConfigData β)} (hs : s.stack = .nil :: .table e :: below)
    (h : Loop.Rounds (loopStep (entryRound A basePath resourcePath)) m s s') :
    ∃ key, s'.stack = key :: .table e :: below := by
  have hinv := h.invariant (I := fun s => ∃ rest, AtHead A.toApi e below rest s) ?_
    ⟨_, .nil, hs, .start _⟩
  · obtain ⟨rest, key, hstack, -⟩ := hinv
    exact ⟨key, hstack⟩
  · rintro s s' ⟨rest, hhead⟩ hround
    cases rest with
    | nil =>
      obtain ⟨stack, d⟩ := s
      obtain ⟨key, rfl, htraversing⟩ := hhead
      rw [loopStep, entryRound_nil htraversing] at hround
      cases hround
    | cons p rest =>
      have hcases : loopStep (entryRound A basePath resourcePath) s = _ ∨ _ :=
        loopStep_entry hhead
      rcases hcases with hend | ⟨s'', hround', hhead', -⟩
      · cases hend.symm.trans hround
      · cases hround'.symm.trans hround
        exact ⟨rest, hhead'⟩

/-- **The loops are balanced**, as long as the steps are sound. -/
theorem balanced_of_sound {fuel t : ℕ} {below : List (Value ν)}
    {s : LuaStack.State ν (ConfigData β)} {rest : List (Value ν × Value ν)}
    (hhead : AtHead A.toApi t below rest s)
    (hfuel : ∀ p ∈ rest, (elementSteps A p.2).length < fuel)
    (hsound : Sound A (configSteps A rest) s.data.builder) : Balanced A fuel t below s := by
  intro n s' hrounds
  -- what every round of the loop over the elements preserves
  have hinv := hrounds.invariant (I := fun s => ∃ rest, AtHead A.toApi t below rest s ∧
    (∀ p ∈ rest, (elementSteps A p.2).length < fuel) ∧
      Sound A (configSteps A rest) s.data.builder) ?_ ⟨rest, hhead, hfuel, hsound⟩
  · obtain ⟨rest, ⟨key, hstack, htraversing⟩, -, hsound⟩ := hinv
    refine ⟨⟨key, hstack⟩, ?_⟩
    intro basePath resourcePath s₁ hbegin
    obtain ⟨p, rest', element, rfl, hp, hstack₁⟩ :=
      stack_of_entriesBegin ⟨key, hstack, htraversing⟩ hbegin
    rw [configSteps, List.flatMap_cons, hp] at hsound
    obtain ⟨e, he⟩ := entries_of_sound hsound
    rw [he] at hstack₁
    exact ⟨e, _, hstack₁, fun m s₂ => stack_of_entryRounds hstack₁⟩
  · rintro ⟨stack, d⟩ s'' ⟨rest, ⟨key, rfl, htraversing⟩, hfuel, hsound⟩ hround
    cases rest with
    | nil =>
      rw [loopStep, configRound_nil htraversing] at hround
      cases hround
    | cons p rest =>
      obtain ⟨hp, hrest⟩ := List.forall_mem_cons.1 hfuel
      rw [loopStep, configRound_cons htraversing hp] at hround
      rw [configSteps, List.flatMap_cons] at hsound
      cases hexec : execute A (elementSteps A p.2) d with
      | error ex => simp [hexec, Except.map] at hround
      | ok d' =>
        rw [hexec] at hround
        cases hround
        exact ⟨rest, ⟨p.1, rfl, htraversing.step⟩, hrest, sound_append hsound hexec⟩

end Sound

/-! ## The parser executes the plan -/

section Parse

variable {A S} {values : List (Value ν)} {configPath : Str} {b : β} {t : ℕ}

omit [DecidableEq ν] in
theorem valueStack_of_getLast? (h : values.getLast? = some (.table t)) :
    ∃ below, valueStack values = .table t :: below := by
  obtain ⟨init, rfl⟩ := List.getLast?_eq_some_iff.1 h
  exact ⟨init.reverse ++ [.nil], by simp [valueStack]⟩

/-- The fuel with which the loops come to their end. -/
theorem length_elementSteps_le (A : ConfigApi ν β) {t : ℕ} {p : Value ν × Value ν}
    (hp : p ∈ (A.table t).pairs) : (elementSteps A p.2).length ≤ (plan A t).length := by
  obtain ⟨pre, post, hpairs⟩ := List.append_of_mem hp
  simp only [plan, hpairs, List.flatMap_append, List.flatMap_cons, List.length_append]
  omega

/-- **The parser executes the plan.** -/
theorem parseConfig_eq (hread : readConfig S configPath = .ok values)
    (hlast : values.getLast? = some (.table t)) {fuel : ℕ}
    (hfuel : (A.table t).pairs.length + (plan A t).length < fuel) :
    parseConfig A S fuel configPath b =
      (execute A (plan A t) ⟨b, []⟩).map fun d => (d, stem configPath) := by
  obtain ⟨below, hstack⟩ := valueStack_of_getLast? hlast
  have hloop : parseValues A fuel ⟨valueStack values, b, []⟩ =
      (execute A (plan A t) ⟨b, []⟩).map fun d => ((), ⟨.table t :: below, d⟩) := by
    have hsteps : ∀ p ∈ (A.table t).pairs, (elementSteps A p.2).length < fuel := fun p hp =>
      (length_elementSteps_le A hp).trans_lt (by omega)
    rw [hstack]
    exact loop_elements ⟨.nil, rfl, .start _⟩ (by omega) hsteps
  rw [parseConfig, hread]
  simp only [hloop]
  cases execute A (plan A t) ⟨b, []⟩ <;> rfl

/-- A config whose value is no table is refused. -/
theorem parseConfig_unexpected (hread : readConfig S configPath = .ok values)
    (hlast : ∀ t, values.getLast? ≠ some (.table t)) (fuel : ℕ) :
    parseConfig A S fuel configPath b = .error (.thrown unexpectedData) := by
  have hvalues : parseValues A fuel ⟨valueStack values, b, []⟩ =
      .error (.thrown unexpectedData) := by
    rcases List.eq_nil_or_concat values with rfl | ⟨init, v, rfl⟩
    · rfl
    · have hstack : valueStack (init ++ [v]) = v :: (init.reverse ++ [.nil]) := by
        simp [valueStack]
      rw [List.concat_eq_append, hstack, parseValues, bind_of_ok valueAt_one]
      rcases v.isTable_cases with ⟨t, rfl⟩ | hv
      · exact absurd (by simp) (hlast t)
      · rw [hv]
        rfl
  rw [parseConfig, hread]
  simp only [hvalues]
  rfl

omit [DecidableEq ν] in
/-- A file that is not evaluated is refused, unless its evaluation does not end. -/
theorem thrown_of_readConfig {e : Stop Exn} (h : readConfig S configPath = .error e) :
    (∃ e', e = .thrown e') ∨ e = .unfinished := by
  unfold readConfig at h
  split at h
  · exact .inl ⟨_, (Except.error.inj h).symm⟩
  · split_ifs at h
    · split at h
      · exact .inr (Except.error.inj h).symm
      · exact .inl ⟨_, (Except.error.inj h).symm⟩
      · cases h
    · exact .inl ⟨_, (Except.error.inj h).symm⟩
  · exact .inl ⟨_, (Except.error.inj h).symm⟩

omit [DecidableEq ν] in
theorem evaluates_of_ok (hread : readConfig S configPath = .ok values) :
    Evaluates S configPath := by
  rw [Evaluates, hread]
  exact nofun

/-- A config with sound steps is parsed robustly. -/
theorem robust_of_sound (hread : readConfig S configPath = .ok values)
    (hlast : values.getLast? = some (.table t)) (hsound : Sound A (plan A t) b) :
    Robust A S configPath b := by
  obtain ⟨below, hstack⟩ := valueStack_of_getLast? hlast
  refine fun _ => ⟨(A.table t).pairs.length + (plan A t).length + 1, fun fuel hfuel => ⟨?_, ?_⟩⟩
  · rw [parseConfig_eq hread hlast (by omega)]
    rcases execute_of_sound (d := ⟨b, []⟩) hsound with ⟨e, hexec⟩ | ⟨d, hexec⟩
    · exact .inl ⟨e, by rw [hexec]; rfl⟩
    · obtain ⟨cs, hplan, hcalls⟩ := calls_of_execute hexec
      refine .inr ⟨d, values, t, by rw [hexec]; rfl, hread, hlast, ?_⟩
      rw [hcalls, List.nil_append]
      exact configCalls_of_plan hplan
  · intro values' t' hread' hlast'
    obtain rfl := Except.ok.inj (hread.symm.trans hread')
    obtain rfl : t = t' := by simpa using hlast.symm.trans hlast'
    refine ⟨below, hstack, ?_⟩
    have hhead : AtHead A.toApi t below (A.table t).pairs
        ⟨.nil :: valueStack values, (⟨b, []⟩ : ConfigData β)⟩ := ⟨.nil, by rw [hstack], .start _⟩
    have hsteps : ∀ p ∈ (A.table t).pairs, (elementSteps A p.2).length < fuel := fun p hp =>
      (length_elementSteps_le A hp).trans_lt (by omega)
    exact balanced_of_sound hhead hsteps hsound

/-- A config with a step that is not sound is not. -/
theorem sound_of_robust (hread : readConfig S configPath = .ok values)
    (hlast : values.getLast? = some (.table t)) (h : Robust A S configPath b) :
    Sound A (plan A t) b := by
  by_contra hsound
  obtain ⟨bound, hrobust⟩ := h (evaluates_of_ok hread)
  set fuel := max bound ((A.table t).pairs.length + (plan A t).length + 1) with hfuel
  obtain ⟨hreturns, -⟩ := hrobust fuel (le_max_left _ _)
  rw [parseConfig_eq hread hlast (by omega)] at hreturns
  rcases execute_of_not_sound (d := ⟨b, []⟩) hsound with hexec | hexec
  · simp [hexec, Except.map] at hreturns
  · simp [hexec, Except.map] at hreturns

/-- **When the parser is robust.** -/
theorem parseConfig_iff (A : ConfigApi ν β) (S : ConfigSource ν) (configPath : Str) (b : β) :
    Robust A S configPath b ↔ ∀ values t, readConfig S configPath = .ok values →
      values.getLast? = some (.table t) → Sound A (plan A t) b := by
  constructor
  · exact fun h values t hread hlast => sound_of_robust hread hlast h
  · intro hsound
    cases hread : readConfig S configPath with
    | error e =>
      intro hevaluates
      rcases thrown_of_readConfig hread with ⟨e', rfl⟩ | rfl
      · refine ⟨0, fun fuel _ => ⟨.inl ⟨e', by rw [parseConfig, hread]⟩, fun values t h => ?_⟩⟩
        cases hread.symm.trans h
      · exact absurd hread hevaluates
    | ok values =>
      by_cases htable : ∃ t, values.getLast? = some (.table t)
      · obtain ⟨t, hlast⟩ := htable
        exact robust_of_sound hread hlast (hsound values t hread hlast)
      · have hnone : ∀ t, values.getLast? ≠ some (.table t) := fun t ht => htable ⟨t, ht⟩
        refine fun _ => ⟨0, fun fuel _ => ⟨.inl ⟨_, parseConfig_unexpected hread hnone fuel⟩, ?_⟩⟩
        intro values' t hread' hlast
        obtain rfl := Except.ok.inj (hread.symm.trans hread')
        exact absurd hlast (hnone t)

end Parse

/-! ## A config without entries -/

/-- `addEntry` on a file tree, with the fuel with which it comes to its end. -/
def addEntryOn (T : FileTree) (c : AddEntryCall) (b : RCBuilder) : RCBuilder × Option Exn :=
  (addEntry T c.basePath c.resourcePath c.recursive (T.entries.size + 1) c.path b).get
    (isSome_addEntry T c.basePath c.resourcePath c.path c.recursive b)

/-- The tree with the config file `/c`. -/
def configTree : FileTree where
  entries := .leaf (Str.ascii "c") (some (Str.ascii "{ {} }")) .nil
  cwd := []
  proper := ⟨by constructor <;> decide, List.not_mem_nil, trivial⟩
  cwd_directory := rfl

/-- The chunk `return { {} }` returns a table. -/
def emptyElement : ConfigSource ℤ := ⟨configTree, fun _ => true, fun _ => some (.ok [.table 0])⟩

/-- The table has one element, a table without fields. -/
def emptyElementApi : ConfigApi ℤ RCBuilder where
  table t := if t = 0 then ⟨[(.number 1, .table 1)], by decide, by decide⟩
    else ⟨[], by decide, by decide⟩
  number2str := Str.signed
  one := 1
  addEntry := addEntryOn configTree

/-- An element without `entries`: `lua_next` is called on `nil`. -/
theorem parseConfig_counterexample :
    ¬ Robust emptyElementApi emptyElement (Str.ascii "/c") RCBuilder.initial := by
  intro h
  have hread : readConfig emptyElement (Str.ascii "/c") = .ok [.table 0] := rfl
  have hsound : Sound emptyElementApi (plan emptyElementApi 0) RCBuilder.initial :=
    sound_of_robust hread rfl h
  have hplan : plan emptyElementApi 0 = [.noTable] := by decide
  rw [hplan] at hsound
  exact hsound

end Jord.Rc.RCBuilder
