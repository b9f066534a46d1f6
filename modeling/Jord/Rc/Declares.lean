import Jord.Rc.Readable

/-!
# What a generated text declares

The text of a pack is read as declarations of C++ (`Declares`): of the two arrays, and of the
function that makes a `Root` of them. A text declares at most one pair of arrays
(`Declares.unique`), since the elements of an initializer list have a fixed number of tokens and are
followed by a comma or by the closing brace; what `writeFile` has written from a readable builder
declares the emitted items and the bytes of the files (`declares_output`), if the name of the module
can be the beginning of an identifier.
-/

namespace Jord.Rc

open Cpp

/-- The type `rc::RootPtr` and the name of the function that registers a pack. -/
def openSignature (moduleName : Str) : List Token :=
  [word "rc", sym ':', sym ':', word "RootPtr", .ident (moduleName ++ Str.ascii "_open"), sym '(',
    sym ')']

/-- The declaration and the definition of the function that registers a pack. -/
def openFunction (moduleName : Str) : List Token :=
  word "extern" :: openSignature moduleName ++ sym ';' :: openSignature moduleName ++
    [sym '\x7b', word "return", word "rc", sym ':', sym ':', word "RootPtr", sym '(', word "new",
      word "rc", sym ':', sym ':', word "Root", sym '(', word "__toc", sym ',', word "__data",
      sym ')', sym ')', sym ';', sym '\x7d']

/-- The emitted file, behind the comment and the directive at its beginning, declares the table
`items`, the array `data` and the function of the module. -/
def Declares (out : List Chunk) (moduleName : Str) (items : List TOCItem) (data : List UInt8) :
    Prop :=
  tokens (sourceText out.tail) = some (declaration items data ++ openFunction moduleName)

/-! ## Declarations are unambiguous -/

section Separated

variable {α : Type*} {f : α → List Token} {n : ℕ} {x y : Token}

/-- Elements of one length, separated by `x` and followed by `y`, are told apart. -/
theorem intercalate_inj (hf : Function.Injective f) (hlen : ∀ a, (f a).length = n)
    (hhead : ∀ a, (f a).head? ≠ some y) (hn : n ≠ 0) (hxy : x ≠ y) {l l' : List α}
    {s s' : List Token} (h : [x].intercalate (l.map f) ++ y :: s =
      [x].intercalate (l'.map f) ++ y :: s') : l = l' ∧ s = s' := by
  -- an element at the front is not the end
  have hfront : ∀ (a : α) (t u : List Token), f a ++ t ≠ y :: u := by
    intro a t u heq
    have hne : f a ≠ [] := fun hnil => hn ((hlen a).symm.trans (by rw [hnil, List.length_nil]))
    obtain ⟨z, zs, hz⟩ := List.exists_cons_of_ne_nil hne
    apply hhead a
    rw [hz] at heq ⊢
    rw [List.cons_append, List.cons.injEq] at heq
    rw [heq.1]
    rfl
  have hsplit : ∀ (a : α) (as : List α) (t : List Token), ∃ u,
      [x].intercalate ((a :: as).map f) ++ y :: t = f a ++ u ∧
      u = if as = [] then y :: t else x :: ([x].intercalate (as.map f) ++ y :: t) := by
    intro a as t
    cases as with
    | nil => exact ⟨y :: t, by simp, rfl⟩
    | cons b as => exact ⟨_, by simp [List.intercalate_cons_cons], rfl⟩
  induction l generalizing l' with
  | nil =>
    cases l' with
    | nil => simpa using h
    | cons a' l' =>
      obtain ⟨u, hu, -⟩ := hsplit a' l' s'
      rw [hu] at h
      exact absurd h.symm (hfront a' u s)
  | cons a l ih =>
    obtain ⟨u, hu, hul⟩ := hsplit a l s
    rw [hu] at h
    cases l' with
    | nil => exact absurd h (hfront a u s')
    | cons a' l' =>
      obtain ⟨u', hu', hul'⟩ := hsplit a' l' s'
      rw [hu'] at h
      obtain ⟨hfa, rfl⟩ := List.append_inj h ((hlen a).trans (hlen a').symm)
      obtain rfl := hf hfa
      rw [hul] at hul'
      split_ifs at hul' with hl hl' hl'
      · obtain rfl := hl
        obtain rfl := hl'
        exact ⟨rfl, (List.cons.inj hul').2⟩
      · exact absurd (List.cons.inj hul').1.symm hxy
      · exact absurd (List.cons.inj hul').1 hxy
      · obtain ⟨rfl, hs⟩ := ih (List.cons.inj hul').2
        exact ⟨rfl, hs⟩

end Separated

theorem typeName_injective : Function.Injective Chunk.typeName := by
  intro t t' h
  cases t <;> cases t' <;> first | rfl | exact absurd h (by decide)

theorem itemTokens_injective : Function.Injective itemTokens := by
  intro i i' h
  obtain ⟨type, name, count, size⟩ := i
  obtain ⟨type', name', count', size'⟩ := i'
  simp only [itemTokens, List.cons_append, List.cons.injEq, List.append_cancel_left_eq, true_and,
    and_true, Token.ident.injEq, Token.str.injEq, Token.int.injEq] at h
  obtain ⟨htype, rfl, rfl, rfl⟩ := h
  rw [typeName_injective htype]

/-- **A text declares one table and one array.** -/
theorem declaration_injective {items items' : List TOCItem} {bytes bytes' : List UInt8}
    {t t' : List Token} (h : declaration items bytes ++ t = declaration items' bytes' ++ t') :
    items = items' ∧ bytes = bytes' := by
  have hbyte : Function.Injective fun c : UInt8 => [Token.int c.toNat] := by
    intro c c' hc
    simp only [List.cons.injEq, Token.int.injEq, and_true] at hc
    exact UInt8.toNat_inj.1 hc
  simp only [declaration, arrayTokens, List.append_assoc, List.append_cancel_left_eq,
    List.cons_append, List.nil_append] at h
  obtain ⟨rfl, h⟩ := intercalate_inj (n := 18) itemTokens_injective (fun i => rfl)
    (fun i => by simp [itemTokens, sym]) (by decide) (by decide) h
  simp only [List.cons.injEq, true_and, List.append_cancel_left_eq] at h
  obtain ⟨rfl, -⟩ := intercalate_inj (n := 1) hbyte (fun c => rfl) (fun c => by simp [sym])
    (by decide) (by decide) h
  exact ⟨rfl, rfl⟩

theorem Declares.unique {out : List Chunk} {name name' : Str} {items items' : List TOCItem}
    {data data' : List UInt8} (h : Declares out name items data)
    (h' : Declares out name' items' data') : items = items' ∧ data = data' :=
  declaration_injective (Option.some.inj (h.symm.trans h'))

/-- The text of the function of the module is read as the function. -/
theorem yields_trailer {name : Str} (hname : Word name) :
    Yields (RCBuilder.trailer name).spliced (openFunction name) := by
  set f := name ++ Str.ascii "_open" with hf
  have hopen : Word f := hname.append (by decide +kernel) (by decide +kernel)
  have hne : f ≠ [] := by simp [hf, Str.ascii]
  have hsplit : (RCBuilder.trailer name).render = Str.ascii "extern rc::RootPtr " ++ (f ++
      (Str.ascii "();\n\n" ++ (Str.ascii "rc::RootPtr " ++ (f ++
        (Str.ascii "()\n\x7b\n\t" ++
          Str.ascii "return rc::RootPtr( new rc::Root( __toc, __data ) );\n\x7d\n"))))) := by
    simp [RCBuilder.trailer, Chunk.render, hf, Str.ascii]
  have hbackslash : backslash ∉ (RCBuilder.trailer name).render := by
    simp only [hsplit, List.mem_append, not_or]
    exact ⟨by decide, hopen.backslash_notMem, by decide, by decide, hopen.backslash_notMem,
      by decide, by decide⟩
  rw [Chunk.spliced, splice_of_notMem hbackslash, hsplit]
  have hextern : Reads .start (Str.ascii "extern rc::RootPtr ") .start
      [word "extern", word "rc", sym ':', sym ':', word "RootPtr"] := reads_iff.2 rfl
  have htype : Reads .start (Str.ascii "rc::RootPtr ") .start
      [word "rc", sym ':', sym ':', word "RootPtr"] := reads_iff.2 rfl
  have hprototype : Reads (.ident f) (Str.ascii "();\n\n") .start
      [.ident f, sym '(', sym ')', sym ';'] := reads_iff.2 rfl
  have hbegin : Reads (.ident f) (Str.ascii "()\n\x7b\n\t") .start
      [.ident f, sym '(', sym ')', sym '\x7b'] := reads_iff.2 rfl
  have hreturn : Reads .start
      (Str.ascii "return rc::RootPtr( new rc::Root( __toc, __data ) );\n\x7d\n") .start
      [word "return", word "rc", sym ':', sym ':', word "RootPtr", sym '(', word "new", word "rc",
        sym ':', sym ':', word "Root", sym '(', word "__toc", sym ',', word "__data", sym ')',
        sym ')', sym ';', sym '\x7d'] := reads_iff.2 (by decide)
  exact ⟨_, hextern.append ((reads_word hopen hne).append (hprototype.append (htype.append
    ((reads_word hopen hne).append (hbegin.append hreturn))))), rfl⟩

/-- The text of a readable builder declares the items of its forest and the bytes of its files. -/
theorem declares_output {b : RCBuilder} {fs : FileSystem} {F : Forest Str Extent}
    {parts : List (List UInt8)} (hwf : F.Wf) (hstore : F.entryAt = b.store)
    (hp : RCBuilder.Packed fs b.entriesList parts) (hread : RCBuilder.Readable fs b) {name : Str}
    (hname : Word name) :
    Declares (RCBuilder.header :: RCBuilder.tocOutput F ++
      RCBuilder.dataOutput (b.entriesList.zip parts) ++ [RCBuilder.trailer name]) name
      (RCBuilder.packItems F ++ [RCBuilder.sentinel]) (parts.flatten ++ [0]) := by
  have hparts : (b.entriesList.zip parts).flatMap Prod.snd = parts.flatten := by
    rw [List.flatMap_def, List.map_snd_zip hp.length_eq.ge]
  set body := RCBuilder.tocOutput F ++ RCBuilder.dataOutput (b.entriesList.zip parts) with hbody
  have hclosed : ∀ c ∈ body, c.Closed := closed_output F _
  have harrays : Yields (body.flatMap Chunk.spliced)
      (declaration (RCBuilder.packItems F ++ [RCBuilder.sentinel]) (parts.flatten ++ [0])) := by
    rw [← Chunk.splice_sourceText hclosed, ← tokens_eq_some_iff, ← hparts]
    apply (tokens_output_iff F _).2
    refine ⟨fun i hi => ?_, ?_⟩
    · obtain ⟨p, hi⟩ := (exists_name_iff hwf i.name).1 ⟨i, hi, rfl⟩
      exact hread.names p i.name (hstore ▸ hi)
    · apply (RCBuilder.forall_zip_packed_iff hp).2
      exact fun e he => ⟨hread.comments e he, hread.bytes e he⟩
  have htail : (RCBuilder.header :: RCBuilder.tocOutput F ++
      RCBuilder.dataOutput (b.entriesList.zip parts) ++ [RCBuilder.trailer name]).tail =
      body ++ [RCBuilder.trailer name] := rfl
  have hall : ∀ c ∈ body ++ [RCBuilder.trailer name], c.Closed :=
    List.forall_mem_append.2 ⟨hclosed, fun c hc => by
      rw [List.mem_singleton.1 hc]
      exact Chunk.closed_of_append (by decide) (by decide)⟩
  rw [Declares, htail, tokens_eq_some_iff, Chunk.splice_sourceText hall, List.flatMap_append,
    List.flatMap_singleton]
  exact harrays.append (yields_trailer hname)

end Jord.Rc
