import Jord.Rc.Config

/-!
# The loops of the parser take the steps of the plan

One lemma for each way a round of the loops of `parseConfig` and `parceConfigElement` goes, and from
them what the loops do (`loop_entries`, `loop_elements`): they take the steps that are still to
come.
-/

namespace Jord.Rc.RCBuilder

open LuaStack

variable {ν β : Type} [DecidableEq ν] {A : ConfigApi ν β} {key v : Value ν}
  {p : Value ν × Value ν} {rest : List (Value ν × Value ν)} {e : ℕ} {below : List (Value ν)}
  {d : ConfigData β} {basePath resourcePath : Str}

omit [DecidableEq ν] in
theorem stringOr_apply (v : Value ν) (default : Str) (stack : List (Value ν))
    (d : ConfigData β) : stringOr A default ⟨v :: stack, d⟩ =
      .ok ((v.toLString A.toApi).elim default cStr,
        ⟨(if v.isString then v.converted A.toApi else v) :: stack, d⟩) := by
  cases v <;> rfl

/-- An entry that is a table is read without a change of the stack. -/
theorem tableEntry_apply (t : ℕ) (stack : List (Value ν)) (d : ConfigData β) :
    tableEntry A ⟨.table t :: stack, d⟩ =
      .ok ((fieldOr A t (.number A.one) (Str.ascii "."),
        ((A.table t).get (.string (Str.ascii "recursive"))).toBoolean),
        ⟨.table t :: stack, d⟩) := by
  rw [tableEntry, bind_of_ok (push_apply _ _), bind_of_ok (getTable_table A.toApi),
    bind_of_ok (stringOr_apply _ _ _ _)]
  rfl

omit [DecidableEq ν] in
/-- A call, and then a pop. -/
theorem callAddEntry_pop (c : AddEntryCall) (v : Value ν) (stack : List (Value ν))
    (d : ConfigData β) : (do callAddEntry A c; pop 1; return true : ConfigProgram ν β Bool)
      ⟨v :: stack, d⟩ = match A.addEntry c d.builder with
        | (b, none) => .ok (true, ⟨stack, b, d.calls ++ [c]⟩)
        | (_, some ex) => .error (.thrown ex) := by
  rcases h : A.addEntry c d.builder with ⟨b, _ | ex⟩
  · have hcall : callAddEntry A c ⟨v :: stack, d⟩ = .ok ((), ⟨v :: stack, b, d.calls ++ [c]⟩) := by
      simp only [callAddEntry, h]
    rw [bind_of_ok hcall]
    rfl
  · have hcall : callAddEntry A c ⟨v :: stack, d⟩ = .error (.thrown ex) := by
      simp only [callAddEntry, h]
    exact bind_of_error hcall

/-- **A round of the loop over the entries** takes one step and leaves the next key behind. -/
theorem entryRound_cons (h : Traversing (A.table e) key (p :: rest)) :
    entryRound A basePath resourcePath ⟨key :: .table e :: below, d⟩ =
      match entryCall A basePath resourcePath p.2 with
      | some c =>
        match A.addEntry c d.builder with
        | (b, none) => .ok (true, ⟨p.1 :: .table e :: below, b, d.calls ++ [c]⟩)
        | (_, some ex) => .error (.thrown ex)
      | none => .error .nullString := by
  rw [entryRound, bind_of_ok (next_cons A.toApi h), if_pos rfl, bind_of_ok valueAt_one]
  obtain ⟨k, v⟩ := p
  cases v with
  | table t =>
    change (tableEntry A >>= _) _ = _
    rw [bind_of_ok (tableEntry_apply t _ d)]
    exact callAddEntry_pop _ _ _ d
  | string s => exact callAddEntry_pop _ _ _ d
  | number n => exact callAddEntry_pop _ _ _ d
  | nil => rfl
  | boolean b => rfl
  | function f => rfl
  | userdata u => rfl

/-- At the end of the traversal the table is left. -/
theorem entryRound_nil (h : Traversing (A.table e) key []) :
    entryRound A basePath resourcePath ⟨key :: .table e :: below, d⟩ =
      .ok (false, ⟨.table e :: below, d⟩) := by
  rw [entryRound, bind_of_ok (next_nil A.toApi h)]
  rfl

/-- The steps for the entries that are still to come. -/
def entrySteps (A : ConfigApi ν β) (basePath resourcePath : Str)
    (rest : List (Value ν × Value ν)) : List ConfigStep :=
  rest.map fun p => .ofCall (entryCall A basePath resourcePath p.2)

/-- At the head of the loop, a round takes the next step. -/
theorem loopStep_entry {s : LuaStack.State ν (ConfigData β)}
    (h : AtHead A.toApi e below (p :: rest) s) :
    (loopStep (entryRound A basePath resourcePath) s = .inr ((execute A
        (entrySteps A basePath resourcePath (p :: rest)) s.data).map fun d =>
          ⟨.table e :: below, d⟩)) ∨
      ∃ s', loopStep (entryRound A basePath resourcePath) s = .inl s' ∧
        AtHead A.toApi e below rest s' ∧
        execute A (entrySteps A basePath resourcePath rest) s'.data =
          execute A (entrySteps A basePath resourcePath (p :: rest)) s.data := by
  obtain ⟨stack, d⟩ := s
  obtain ⟨key, rfl, htraversing⟩ := h
  rw [loopStep, entryRound_cons htraversing, entrySteps, List.map_cons]
  cases hc : entryCall A basePath resourcePath p.2 with
  | none => exact .inl rfl
  | some c =>
    rcases hadd : A.addEntry c d.builder with ⟨b, _ | ex⟩
    · right
      refine ⟨⟨p.1 :: .table e :: below, b, d.calls ++ [c]⟩, by simp only [hadd],
        ⟨p.1, rfl, htraversing.step⟩, ?_⟩
      simp [execute, hadd, ConfigStep.ofCall, entrySteps]
    · exact .inl (by simp [execute, hadd, ConfigStep.ofCall, Except.map])

/-- **The loop over the entries** takes their steps. -/
theorem loop_entries {s : LuaStack.State ν (ConfigData β)} (h : AtHead A.toApi e below rest s)
    {fuel : ℕ} (hfuel : rest.length < fuel) :
    loop fuel (entryRound A basePath resourcePath) s =
      (execute A (entrySteps A basePath resourcePath rest) s.data).map fun d =>
        ((), ⟨.table e :: below, d⟩) := by
  have hrun : Loop.run (loopStep (entryRound A basePath resourcePath)) fuel s =
      some ((execute A (entrySteps A basePath resourcePath rest) s.data).map fun d =>
        ⟨.table e :: below, d⟩) := by
    apply Loop.run_list (AtHead A.toApi e below) _ _ _ h hfuel
    · rintro ⟨stack, d⟩ ⟨key, rfl, htraversing⟩
      rw [loopStep, entryRound_nil htraversing]
      rfl
    · intro p rest s hs
      rcases loopStep_entry hs with hend | ⟨s', hround, hhead, hexec⟩
      · exact .inl hend
      · exact .inr ⟨s', hround, hhead, by rw [hexec]⟩
  rw [loop, hrun]
  cases execute A (entrySteps A basePath resourcePath rest) s.data <;> rfl

/-- The fields of an element are read, and the traversal of `entries` is begun. -/
theorem elementFields_apply (t : ℕ) (stack : List (Value ν)) (d : ConfigData β) :
    elementFields A ⟨.table t :: stack, d⟩ =
      .ok ((fieldOr A t (.string (Str.ascii "base_path")) (Str.ascii ":/"),
          fieldOr A t (.string (Str.ascii "resource_path")) (Str.ascii ".")),
        ⟨.nil :: (A.table t).get (.string (Str.ascii "entries")) :: .table t :: stack, d⟩) := by
  rw [elementFields, bind_of_ok (getField_table A.toApi _), bind_of_ok (stringOr_apply _ _ _ _),
    bind_of_ok (pop_apply _ _), List.drop_one, List.tail_cons,
    bind_of_ok (getField_table A.toApi _), bind_of_ok (stringOr_apply _ _ _ _)]
  rfl

/-- A traversal of a value that is no table. -/
theorem loop_noTable (hv : v.isTable = false) {fuel : ℕ} (hfuel : 0 < fuel) :
    loop fuel (entryRound A basePath resourcePath) ⟨key :: v :: below, d⟩ =
      .error .nextOfNoTable := by
  have hround : loopStep (entryRound A basePath resourcePath) ⟨key :: v :: below, d⟩ =
      .inr (.error .nextOfNoTable) := by
    rw [loopStep, entryRound, bind_of_error (next_noTable A.toApi hv)]
  obtain ⟨fuel, rfl⟩ : ∃ k, fuel = k + 1 := ⟨fuel - 1, by omega⟩
  rw [loop, Loop.run_inr hround]
  rfl

/-- The steps for an element whose `entries` is a table. -/
theorem elementSteps_table {t : ℕ}
    (he : (A.table t).get (.string (Str.ascii "entries")) = .table e) :
    elementSteps A (.table t) =
      entrySteps A (fieldOr A t (.string (Str.ascii "base_path")) (Str.ascii ":/"))
        (fieldOr A t (.string (Str.ascii "resource_path")) (Str.ascii "."))
        (A.table e).pairs := by
  simp only [elementSteps, he, elementCalls, List.map_map]
  rfl

theorem elementSteps_noTable {t : ℕ}
    (hv : ((A.table t).get (.string (Str.ascii "entries"))).isTable = false) :
    elementSteps A (.table t) = [.noTable] := by
  rw [elementSteps]
  split
  · next he =>
    rw [he] at hv
    cases hv
  · rfl

/-- **`parceConfigElement`** takes the steps of the element and leaves the stack as it was. -/
theorem parceConfigElement_apply (t : ℕ) (stack : List (Value ν)) (d : ConfigData β) {fuel : ℕ}
    (hfuel : (elementSteps A (.table t)).length < fuel) :
    parceConfigElement A fuel ⟨.table t :: stack, d⟩ =
      (execute A (elementSteps A (.table t)) d).map fun d => ((), ⟨.table t :: stack, d⟩) := by
  rw [parceConfigElement, bind_of_ok (elementFields_apply t stack d)]
  set basePath := fieldOr A t (.string (Str.ascii "base_path")) (Str.ascii ":/")
  set resourcePath := fieldOr A t (.string (Str.ascii "resource_path")) (Str.ascii ".")
  change (loop fuel (entryRound A basePath resourcePath) >>= fun _ => pop 1) _ = _
  rcases Value.isTable_cases ((A.table t).get (.string (Str.ascii "entries"))) with ⟨e, he⟩ | hv
  · rw [elementSteps_table he] at hfuel ⊢
    rw [he]
    have hlength : (A.table e).pairs.length < fuel := by
      rwa [entrySteps, List.length_map] at hfuel
    have hhead : AtHead A.toApi e (.table t :: stack) (A.table e).pairs
        ⟨.nil :: .table e :: .table t :: stack, d⟩ := ⟨.nil, rfl, .start _⟩
    have hloop : loop fuel (entryRound A basePath resourcePath)
        ⟨.nil :: .table e :: .table t :: stack, d⟩ = _ := loop_entries hhead hlength
    cases hexec : execute A (entrySteps A basePath resourcePath (A.table e).pairs) d with
    | error ex =>
      rw [hexec] at hloop
      exact bind_of_error hloop
    | ok d' =>
      rw [hexec] at hloop
      rw [bind_of_ok hloop]
      rfl
  · rw [elementSteps_noTable hv]
    exact bind_of_error (loop_noTable hv (by omega))

omit [DecidableEq ν] in
theorem execute_append (steps steps' : List ConfigStep) (d : ConfigData β) :
    execute A (steps ++ steps') d = (execute A steps d).bind (execute A steps') := by
  induction steps generalizing d with
  | nil => rfl
  | cons step steps ih =>
    cases step with
    | call c =>
      rw [List.cons_append, execute, execute]
      rcases A.addEntry c d.builder with ⟨b, _ | ex⟩
      · exact ih _
      · rfl
    | unexpected => rfl
    | noTable => rfl
    | noString => rfl

/-- The steps for the elements that are still to come. -/
def configSteps (A : ConfigApi ν β) (rest : List (Value ν × Value ν)) : List ConfigStep :=
  rest.flatMap fun p => elementSteps A p.2

/-- **A round of the loop over the elements** takes the steps of one element. -/
theorem configRound_cons {fuel : ℕ} (h : Traversing (A.table e) key (p :: rest))
    (hfuel : (elementSteps A p.2).length < fuel) :
    configRound A fuel ⟨key :: .table e :: below, d⟩ =
      (execute A (elementSteps A p.2) d).map fun d => (true, ⟨p.1 :: .table e :: below, d⟩) := by
  rw [configRound, bind_of_ok (next_cons A.toApi h), if_pos rfl, bind_of_ok valueAt_one]
  obtain ⟨k, v⟩ := p
  rcases v.isTable_cases with ⟨t, rfl⟩ | hv
  · change (parceConfigElement A fuel >>= fun _ => pop 1 >>= fun _ => pure true) _ = _
    have helement := parceConfigElement_apply t (k :: .table e :: below) d hfuel
    cases hexec : execute A (elementSteps A (.table t)) d with
    | error ex =>
      rw [hexec] at helement
      exact bind_of_error helement
    | ok d' =>
      rw [hexec] at helement
      exact bind_of_ok helement
  · have hsteps : elementSteps A v = [.unexpected] := by
      cases v <;> first | rfl | cases hv
    rw [if_neg (by rw [hv]; exact Bool.false_ne_true)]
    rw [hsteps]
    rfl

theorem configRound_nil {fuel : ℕ} (h : Traversing (A.table e) key []) :
    configRound A fuel ⟨key :: .table e :: below, d⟩ = .ok (false, ⟨.table e :: below, d⟩) := by
  rw [configRound, bind_of_ok (next_nil A.toApi h)]
  rfl

/-- **The loop over the elements** takes the steps of the config. -/
theorem loop_elements {s : LuaStack.State ν (ConfigData β)} {fuel : ℕ}
    (h : AtHead A.toApi e below rest s) (hfuel : rest.length < fuel)
    (hsteps : ∀ p ∈ rest, (elementSteps A p.2).length < fuel) :
    loop fuel (configRound A fuel) s =
      (execute A (configSteps A rest) s.data).map fun d => ((), ⟨.table e :: below, d⟩) := by
  have hrun : Loop.run (loopStep (configRound A fuel)) fuel s =
      some ((execute A (configSteps A rest) s.data).map fun d => ⟨.table e :: below, d⟩) := by
    apply Loop.run_list (fun rest s => AtHead A.toApi e below rest s ∧
      ∀ p ∈ rest, (elementSteps A p.2).length < fuel) _ _ _ ⟨h, hsteps⟩ hfuel
    · rintro ⟨stack, d⟩ ⟨⟨key, rfl, htraversing⟩, -⟩
      rw [loopStep, configRound_nil htraversing]
      rfl
    · rintro p rest ⟨stack, d⟩ ⟨⟨key, rfl, htraversing⟩, hsteps⟩
      obtain ⟨hp, hrest⟩ := List.forall_mem_cons.1 hsteps
      rw [loopStep, configRound_cons htraversing hp, configSteps, List.flatMap_cons,
        execute_append]
      cases hexec : execute A (elementSteps A p.2) d with
      | error ex => exact .inl rfl
      | ok d' => exact .inr ⟨_, rfl, ⟨⟨p.1, rfl, htraversing.step⟩, hrest⟩, rfl⟩
  rw [loop, hrun]
  cases execute A (configSteps A rest) s.data <;> rfl

end Jord.Rc.RCBuilder
