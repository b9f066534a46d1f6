import Jord.Io.Process

/-!
# How the object graph of a VM grows

`Vm.Grows` compares a VM before and after a step: what the script holds afterwards it could get
hold of before, or it is new. `Grows.accessible`, `Grows.reachable` and `Grows.light` are what
follows for the whole graph.
-/

namespace Jord.Io

variable {ν : Type} {vm vm' : Vm ν} {N H T : ℕ → Prop}

namespace Vm

theorem Accessible.reachable {v : LuaValue ν} (h : vm.Accessible v) : vm.Reachable v :=
  Reach.mono (fun _ hx => hx) (fun _ _ hxy => .field hxy) h

/-- A value that nothing refers to directly. -/
theorem not_reachable {v : LuaValue ν} (hroot : ¬ vm.Root v)
    (hfield : ∀ fields ∈ vm.tables, ∀ p ∈ fields, p.2 ≠ v)
    (hupvalue : ∀ it ∈ vm.iterators, it.upvalue ≠ .full v) : ¬ vm.Reachable v := by
  refine fun h => Reach.least (S := (· ≠ v)) (fun x hx hxv => hroot (hxv ▸ hx))
    (fun x y _ hxy => ?_) h rfl
  cases hxy with
  | field h =>
    obtain ⟨ht, hk⟩ := h
    exact hfield _ (List.mem_of_getElem? ht) _ hk
  | upvalue hi hv =>
    rintro rfl
    exact hupvalue _ (List.mem_of_getElem? hi) hv

/-- A value that is new to a VM: no object, a new table or line iterator, or a handle in `N`. -/
inductive Fresh (vm : Vm ν) (N : ℕ → Prop) : LuaValue ν → Prop
  | plain {v : LuaValue ν} (h : v.isPlain) : Fresh vm N v
  | table : Fresh vm N (.table vm.tables.length)
  | iterator : Fresh vm N (.iterator vm.iterators.length)
  | handle {a : ℕ} (h : N a) : Fresh vm N (.handle a)

/-- A value that the script could get hold of, or that is new. -/
def Known (vm : Vm ν) (N : ℕ → Prop) (v : LuaValue ν) : Prop := vm.Accessible v ∨ vm.Fresh N v

/-- A line iterator that is new to a VM: its userdata is one that the script could get hold of, or
a new handle in `H`; its address is one in `T`. -/
inductive FreshIterator (vm : Vm ν) (H T : ℕ → Prop) : Iterator ν → Prop
  | full {v : LuaValue ν} {b : Bool} (h : vm.Known H v) : FreshIterator vm H T ⟨.full v, b⟩
  | light {a : ℕ} {b : Bool} (h : T a) : FreshIterator vm H T ⟨.light a, b⟩

/-- The VM has grown: the script may hold new handles in `N`, new line iterators hold new handles
in `H` and addresses in `T`. -/
structure Grows (vm vm' : Vm ν) (N H T : ℕ → Prop) : Prop where
  root : ∀ v, vm'.Root v → vm.Known N v
  field : ∀ x y, vm'.Field x y → vm.Field x y ∨ vm.Known N y
  iterator : ∀ (i : ℕ) it, vm'.iterators[i]? = some it →
    vm.iterators[i]? = some it ∨ vm.FreshIterator H T it

theorem not_field_of_fresh {x y : LuaValue ν} (hx : vm.Fresh N x) : ¬ vm.Field x y := by
  rintro ⟨ht, hk⟩
  cases hx with
  | plain h => cases h
  | table => simp at ht

namespace Grows

/-- What the script can get hold of afterwards. -/
theorem accessible (h : vm.Grows vm' N H T) {v : LuaValue ν} (hv : vm'.Accessible v) :
    vm.Known N v := by
  refine Reach.least (S := vm.Known N) h.root (fun x y hx hxy => ?_) hv
  rcases h.field x y hxy with hold | hnew
  · rcases hx with hx | hx
    · exact .inl (.ref hx hold)
    · exact absurd hold (not_field_of_fresh hx)
  · exact hnew

/-- What the collector keeps afterwards. -/
theorem reachable (h : vm.Grows vm' N H T) {v : LuaValue ν} (hv : vm'.Reachable v) :
    vm.Reachable v ∨ vm.Fresh (fun a => N a ∨ H a) v := by
  have hknown : ∀ {N' : ℕ → Prop} {v : LuaValue ν}, (∀ a, N' a → N a ∨ H a) → vm.Known N' v →
      vm.Reachable v ∨ vm.Fresh (fun a => N a ∨ H a) v := by
    rintro N' v hN' (hv | hv)
    · exact .inl hv.reachable
    · cases hv with
      | plain h => exact .inr (.plain h)
      | table => exact .inr .table
      | iterator => exact .inr .iterator
      | handle h => exact .inr (.handle (hN' _ h))
  refine Reach.least (S := fun v => vm.Reachable v ∨ vm.Fresh (fun a => N a ∨ H a) v)
    (fun x hx => hknown (fun _ => .inl) (h.root x hx)) (fun x y hx hxy => ?_) hv
  cases hxy with
  | field hxy =>
    rcases h.field x y hxy with hold | hnew
    · rcases hx with hx | hx
      · exact .inl (.ref hx (.field hold))
      · exact absurd hold (not_field_of_fresh hx)
    · exact hknown (fun _ => .inl) hnew
  | upvalue hi hv =>
    rcases h.iterator _ _ hi with hold | hnew
    · rcases hx with hx | hx
      · exact .inl (.ref hx (.upvalue hold hv))
      · cases hx with
        | plain h => cases h
        | iterator => simp at hold
    · cases hnew with
      | full h =>
        cases hv
        exact hknown (fun _ => .inr) h
      | light h => cases hv

theorem reachable_handle (h : vm.Grows vm' N H T) {a : ℕ} (ha : vm'.Reachable (.handle a)) :
    vm.Reachable (.handle a) ∨ N a ∨ H a := by
  rcases h.reachable ha with hold | hnew
  · exact .inl hold
  · cases hnew with
    | plain h => cases h
    | handle h => exact .inr h

theorem accessible_handle (h : vm.Grows vm' N H T) {a : ℕ} (ha : vm'.Accessible (.handle a)) :
    vm.Accessible (.handle a) ∨ N a := by
  rcases h.accessible ha with hold | hnew
  · exact .inl hold
  · cases hnew with
    | plain h => cases h
    | handle h => exact .inr h

/-- The addresses that reachable line iterators know afterwards. -/
theorem light (h : vm.Grows vm' N H T) {i a : ℕ} {it : Iterator ν}
    (hi : vm'.Reachable (.iterator i)) (hit : vm'.iterators[i]? = some it)
    (ha : it.upvalue = .light a) :
    (vm.Reachable (.iterator i) ∧ vm.iterators[i]? = some it) ∨ T a := by
  rcases h.iterator i it hit with hold | hnew
  · refine .inl ⟨(h.reachable hi).resolve_right fun hf => ?_, hold⟩
    cases hf with
    | plain h => cases h
    | iterator => simp at hold
  · cases hnew with
    | full h => cases ha
    | light h =>
      cases ha
      exact .inr h

end Grows

/-! ## Steps of a script -/

theorem known_root {v : LuaValue ν} (h : vm.Root v) : vm.Known N v := .inl (.root h)

theorem known_nil : vm.Known N (.nil : LuaValue ν) := .inr (.plain rfl)

theorem known_local {v : LuaValue ν} (h : v ∈ vm.locals) : vm.Known N v := known_root (.inl h)

theorem known_eval (o : Operand ν) : vm.Known N (o.eval vm) := by
  cases o with
  | slot i =>
    cases hv : vm.locals[i]? with
    | none => simpa [Operand.eval, hv] using known_nil
    | some v => simpa [Operand.eval, hv] using known_local (List.mem_of_getElem? hv)
  | constant v h => exact .inr (.plain h)

/-- A call: it returns values, makes line iterators and sets registry entries. -/
theorem grows_call {rs : List (LuaValue ν)} {its : List (Iterator ν)} {r : Registry ν}
    (hrs : ∀ v ∈ rs, vm.Known N v) (hits : ∀ it ∈ its, vm.FreshIterator H T it)
    (hin : vm.Known N r.stdin) (hout : vm.Known N r.stdout) (herr : vm.Known N r.stderr) :
    vm.Grows { vm with locals := vm.locals ++ rs, iterators := vm.iterators ++ its, registry := r }
      N H T where
  root v := by
    rintro (hv | rfl | rfl | rfl)
    · rcases List.mem_append.1 hv with hv | hv
      · exact known_local hv
      · exact hrs v hv
    · exact hin
    · exact hout
    · exact herr
  field x y h := by
    cases h with
    | mk ht hk => exact .inl (.mk ht hk)
  iterator i it h := by
    rw [List.getElem?_append] at h
    split at h
    · exact .inl h
    · exact .inr (hits it (List.mem_of_getElem? h))

/-- A change of local variables and tables. -/
theorem grows_script {locals : List (LuaValue ν)} {tables : List (Fields ν)}
    (hlocals : ∀ v ∈ locals, vm.Known N v)
    (htables : ∀ (t : ℕ) fields, tables[t]? = some fields → ∀ k v, (k, v) ∈ fields →
      vm.Field (.table t) v ∨ vm.Known N v) :
    vm.Grows { vm with locals := locals, tables := tables } N H T where
  root v := by
    rintro (hv | rfl | rfl | rfl)
    · exact hlocals v hv
    · exact known_root (.inr (.inl rfl))
    · exact known_root (.inr (.inr (.inl rfl)))
    · exact known_root (.inr (.inr (.inr rfl)))
  field x y h := by
    cases h with
    | mk ht hk => exact htables _ _ ht _ _ hk
  iterator i it h := .inl h

theorem field_of_getElem? (t : ℕ) (fields : Fields ν) (ht : vm.tables[t]? = some fields) (k : Str)
    (v : LuaValue ν) (hk : (k, v) ∈ fields) : vm.Field (.table t) v ∨ vm.Known N v :=
  .inl (.mk ht hk)

/-- New local variables. -/
theorem grows_keep {vs : List (LuaValue ν)} (h : ∀ v ∈ vs, vm.Known N v) :
    vm.Grows { vm with locals := vm.locals ++ vs } N H T :=
  grows_script (List.forall_mem_append.2 ⟨fun _ hv => known_local hv, h⟩) field_of_getElem?

theorem grows_assign (i : ℕ) (o : Operand ν) :
    vm.Grows { vm with locals := vm.locals.set i (o.eval vm) } N H T := by
  refine grows_script (fun v hv => ?_) field_of_getElem?
  rcases List.mem_or_eq_of_mem_set hv with hv | rfl
  · exact known_local hv
  · exact known_eval o

theorem grows_newTable :
    vm.Grows { vm with
      locals := vm.locals ++ [.table vm.tables.length]
      tables := vm.tables ++ [[]] } N H T := by
  refine grows_script (List.forall_mem_append.2 ⟨fun _ hv => known_local hv,
    List.forall_mem_singleton.2 (.inr .table)⟩) fun t fields ht k v hk => ?_
  rw [List.getElem?_append] at ht
  split at ht
  · exact .inl (.mk ht hk)
  · have := List.mem_of_getElem? ht
    simp_all

theorem known_lookup {t : ℕ} (ht : vm.Known N (.table t)) (k : Str) :
    vm.Known N (((vm.tables[t]?.getD []).lookup k).getD .nil) := by
  cases hfields : vm.tables[t]? with
  | none => exact known_nil
  | some fields =>
    cases hv : fields.lookup k with
    | none => simpa [hv] using known_nil
    | some v =>
      obtain ⟨l₁, l₂, hl, -⟩ := List.lookup_eq_some_iff.1 hv
      have hfield : vm.Field (.table t) v := .mk (k := k) hfields (by simp [hl])
      simp only [Option.getD_some, hv]
      rcases ht with ht | ht
      · exact .inl (.ref ht hfield)
      · exact absurd hfield (not_field_of_fresh ht)

theorem grows_setField {t : ℕ} {k : Str} (o : Operand ν) :
    vm.Grows { vm with
      tables := vm.tables.modify t fun fields => setKey fields k (o.eval vm) } N H T := by
  refine grows_script (fun _ hv => known_local hv) fun t' fields ht k' v hk => ?_
  rw [List.getElem?_modify] at ht
  obtain ⟨old, hold, hfields⟩ := Option.map_eq_some_iff.1 ht
  split at hfields
  · next htt =>
    subst hfields
    rcases List.mem_cons.1 hk with heq | hk
    · exact .inr ((Prod.mk.inj heq).2 ▸ known_eval o)
    · exact .inl (.mk hold (List.mem_of_mem_filter hk))
  · subst hfields
    exact .inl (.mk hold hk)

end Vm

end Jord.Io
