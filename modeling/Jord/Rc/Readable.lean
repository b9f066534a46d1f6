import Jord.Rc.SourceText

/-!
# When the text of a pack means what the builder holds

`writeFile` inserts names and paths into the text as they are, and bytes as signed numbers. Read as
C++, the text declares what the builder holds exactly if nothing of this matters (`Readable`): names
have no quotes, backslashes and line ends, bytes are below 128, and the comment lines with the paths
of the entries are comments from end to end (`meansSource_iff_readable`).
-/

namespace Jord.Rc

open Cpp

/-! ## The chunks of the text -/

theorem closed_item (i : TOCItem) : (Chunk.item i).Closed := by
  have hne : itemRest i ≠ [] := by simp [itemRest, Str.ascii]
  have hsplit : Chunk.renderItem i = itemOpen i.type ++ i.name ++ [quote] ++ itemRest i := by
    rw [renderItem_eq]
    simp
  rw [Chunk.Closed, Chunk.render, hsplit]
  exact Chunk.closed_of_append hne (plain_itemRest i).getLast?_ne

theorem closed_number (i : ℤ) : (Chunk.number i).Closed :=
  Chunk.closed_of_append (decimal_ne_nil _) (plain_decimal _).getLast?_ne

theorem closed_entryComment (e : FileEntry) : (RCBuilder.entryComment e).Closed :=
  Chunk.closed_of_append (by decide) (by decide)

theorem closed_itemBreak {n : ℕ} {c : Chunk} (hc : c ∈ RCBuilder.itemBreak n) : c.Closed := by
  rw [RCBuilder.itemBreak] at hc
  split at hc
  · obtain rfl := List.mem_singleton.1 hc
    exact (by decide : (Str.ascii "\n\t").getLast? ≠ some backslash)
  · cases hc

theorem closed_byteBreak {n : ℕ} {c : Chunk} (hc : c ∈ RCBuilder.byteBreak n) : c.Closed := by
  rw [RCBuilder.byteBreak] at hc
  split at hc
  · obtain rfl := List.mem_singleton.1 hc
    exact (by decide : (Str.ascii "\n\t").getLast? ≠ some backslash)
  · cases hc

theorem closed_comma : (Chunk.text (Str.ascii ", ")).Closed :=
  (by decide : (Str.ascii ", ").getLast? ≠ some backslash)

theorem closed_tocChunks {n : ℕ} {is : List TOCItem} {c : Chunk}
    (hc : c ∈ RCBuilder.tocChunks n is) : c.Closed := by
  induction is generalizing n with
  | nil => cases hc
  | cons i is ih =>
    simp only [RCBuilder.tocChunks, List.mem_append, List.mem_cons, List.not_mem_nil,
      or_false] at hc
    rcases hc with (hc | rfl | rfl) | hc
    · exact closed_itemBreak hc
    · exact closed_item i
    · exact closed_comma
    · exact ih hc

theorem closed_byteChunks {n : ℕ} {bytes : List UInt8} {c : Chunk}
    (hc : c ∈ RCBuilder.byteChunks n bytes) : c.Closed := by
  induction bytes generalizing n with
  | nil => cases hc
  | cons i is ih =>
    simp only [RCBuilder.byteChunks, List.mem_append, List.mem_cons, List.not_mem_nil,
      or_false] at hc
    rcases hc with (hc | rfl | rfl) | hc
    · exact closed_byteBreak hc
    · exact closed_number _
    · exact closed_comma
    · exact ih hc

theorem closed_entryChunks {n : ℕ} {parts : List (FileEntry × List UInt8)} {c : Chunk}
    (hc : c ∈ RCBuilder.entryChunks n parts) : c.Closed := by
  induction parts generalizing n with
  | nil => cases hc
  | cons part parts ih =>
    simp only [RCBuilder.entryChunks, List.cons_append, List.mem_cons, List.mem_append] at hc
    rcases hc with rfl | hc | hc
    · exact closed_entryComment _
    · exact closed_byteChunks hc
    · exact ih hc

theorem closed_output (F : Forest Str Extent) (parts : List (FileEntry × List UInt8)) :
    ∀ c ∈ RCBuilder.tocOutput F ++ RCBuilder.dataOutput parts, c.Closed := by
  intro c hc
  simp only [RCBuilder.tocOutput, RCBuilder.dataOutput, List.mem_append, List.mem_cons,
    List.not_mem_nil, or_false] at hc
  rcases hc with ((((rfl | rfl | rfl) | hc) | hc) | rfl | rfl) | ((rfl | hc) | hc) | rfl | rfl
  · exact (by decide : (Str.ascii "static const rc::Root::TOCItem __toc[] = \x7b\n\t").getLast? ≠
      some backslash)
  · exact closed_item _
  · exact closed_comma
  · exact closed_tocChunks hc
  · exact closed_itemBreak hc
  · exact closed_item _
  · exact (by decide : (Str.ascii " \n\x7d;\n\n").getLast? ≠ some backslash)
  · exact (by decide : (Str.ascii "static const uint8_t __data[] = \x7b").getLast? ≠ some backslash)
  · exact closed_entryChunks hc
  · exact closed_byteBreak hc
  · exact closed_number _
  · exact (by decide : (Str.ascii "\n\x7d;\n\n").getLast? ≠ some backslash)

/-- The tokens that are meant, in the order in which the text is read. -/
theorem declaration_eq (F : Forest Str Extent) (bytes : List UInt8) :
    declaration (RCBuilder.packItems F ++ [RCBuilder.sentinel]) (bytes ++ [0]) =
      arrayHead itemType "__toc" ++
        (itemTokens ⟨.directory, Str.ascii ":/", F.width, 0⟩ ++ ([sym ','] ++
        ((tocItems F).flatMap (fun i => itemTokens i ++ [sym ',']) ++
          (itemTokens RCBuilder.sentinel ++ ([sym '\x7d', sym ';'] ++
            (arrayHead [word "uint8_t"] "__data" ++ (bytes.flatMap byteTokens ++
              [.int 0, sym '\x7d', sym ';']))))))) := by
  have hbytes : (bytes.map fun c => [Token.int c.toNat]).flatMap (· ++ [sym ',']) =
      bytes.flatMap byteTokens := by
    rw [List.flatMap_map]
    rfl
  have hitems : ((RCBuilder.packItems F).map itemTokens).flatMap (· ++ [sym ',']) =
      itemTokens ⟨.directory, Str.ascii ":/", F.width, 0⟩ ++ ([sym ','] ++
        (tocItems F).flatMap fun i => itemTokens i ++ [sym ',']) := by
    rw [List.flatMap_map, RCBuilder.packItems, List.flatMap_cons]
    simp
  rw [declaration, arrayTokens, arrayTokens, List.map_append, List.map_append, List.map_singleton,
    List.map_singleton, intercalate_concat, intercalate_concat, hbytes, hitems]
  simp

/-- The end of the text of the data array. -/
def dataEnd (n : ℕ) : Str :=
  (RCBuilder.byteBreak n).flatMap Chunk.spliced ++
    ((Chunk.number 0).spliced ++ (Chunk.text (Str.ascii "\n\x7d;\n\n")).spliced)

theorem yields_dataEnd (n : ℕ) : Yields (dataEnd n) [.int 0, sym '\x7d', sym ';'] :=
  (yields_byteBreak n).append (s := _) ⟨[.int 0, sym '\x7d', sym ';'], reads_iff.2 rfl, rfl⟩

/-- The text between the last item but one and the bytes. -/
def tocEnd (n : ℕ) (t : Str) : Str :=
  (RCBuilder.itemBreak n).flatMap Chunk.spliced ++ ((Chunk.item RCBuilder.sentinel).spliced ++
    ((Chunk.text (Str.ascii " \n\x7d;\n\n")).spliced ++
      ((Chunk.text (Str.ascii "static const uint8_t __data[] = \x7b")).spliced ++ t)))

/-- The whole text, in the order in which it is read. -/
theorem flatMap_output (F : Forest Str Extent) (parts : List (FileEntry × List UInt8)) :
    (RCBuilder.tocOutput F ++ RCBuilder.dataOutput parts).flatMap Chunk.spliced =
      (Chunk.text (Str.ascii "static const rc::Root::TOCItem __toc[] = \x7b\n\t")).spliced ++
        ((Chunk.item ⟨.directory, Str.ascii ":/", F.width, 0⟩).spliced ++
          ((Chunk.text (Str.ascii ", ")).spliced ++ (tocText 1 (tocItems F) ++
            tocEnd (1 + F.size) (entriesText 0 parts ++
              dataEnd (parts.flatMap Prod.snd).length)))) := by
  simp [RCBuilder.tocOutput, RCBuilder.dataOutput, tocText, tocEnd, entriesText, dataEnd]

/-- The entries are read as what is meant exactly if nothing adds tokens. -/
theorem yields_entriesText_iff (parts : List (FileEntry × List UInt8)) (n : ℕ) {t : Str}
    {y : List Token} (ht : Yields t y) :
    Yields (entriesText n parts ++ t) ((parts.flatMap Prod.snd).flatMap byteTokens ++ y) ↔
      ∀ part ∈ parts, Silent part.1 ∧ ∀ c ∈ part.2, c < 128 := by
  refine ⟨fun h => ?_, fun h => (yields_entriesText h n).append ht⟩
  obtain ⟨y', hy', -, hall⟩ := length_yields_entriesText h
  obtain rfl := ht.unique hy'
  have hlen : ∀ bytes : List UInt8, (bytes.flatMap byteTokens).length = 2 * bytes.length := by
    intro bytes
    induction bytes with
    | nil => rfl
    | cons c bytes ih =>
      rw [List.flatMap_cons, List.length_append, ih, List.length_cons]
      simp only [byteTokens, List.length_cons, List.length_nil]
      omega
  exact hall (by rw [List.length_append, hlen])

/-- **When the text means what the builder holds**: names are plain, bytes are below 128, and
comment lines are silent. -/
theorem tokens_output_iff (F : Forest Str Extent) (parts : List (FileEntry × List UInt8)) :
    tokens (sourceText (RCBuilder.tocOutput F ++ RCBuilder.dataOutput parts)) =
      some (declaration (RCBuilder.packItems F ++ [RCBuilder.sentinel])
        (parts.flatMap Prod.snd ++ [0])) ↔
    (∀ i ∈ tocItems F, Plain i.name) ∧ ∀ part ∈ parts, Silent part.1 ∧ ∀ c ∈ part.2, c < 128 := by
  have hhead : Yields
      (Chunk.text (Str.ascii "static const rc::Root::TOCItem __toc[] = \x7b\n\t")).spliced
      (arrayHead itemType "__toc") := ⟨arrayHead itemType "__toc", reads_iff.2 rfl, rfl⟩
  have hend : Yields (Chunk.text (Str.ascii " \n\x7d;\n\n")).spliced [sym '\x7d', sym ';'] :=
    ⟨[sym '\x7d', sym ';'], reads_iff.2 rfl, rfl⟩
  have hdata : Yields (Chunk.text (Str.ascii "static const uint8_t __data[] = \x7b")).spliced
      (arrayHead [word "uint8_t"] "__data") :=
    ⟨arrayHead [word "uint8_t"] "__data", reads_iff.2 rfl, rfl⟩
  have hroot : Plain (Str.ascii ":/") := plain_of_all rfl
  have hsentinel : Plain RCBuilder.sentinel.name := fun c hc => by cases hc
  rw [tokens_eq_some_iff, Chunk.splice_sourceText (closed_output F parts), flatMap_output,
    declaration_eq, yields_append_iff hhead, yields_append_iff (yields_item hroot),
    yields_append_iff yields_comma, tocEnd, yields_tocText_iff (begins_itemBreak _ _ _)]
  refine and_congr_right fun _ => ?_
  rw [← List.nil_append (itemTokens _ ++ _), yields_append_iff (yields_itemBreak _),
    yields_append_iff (yields_item hsentinel), yields_append_iff hend, yields_append_iff hdata,
    yields_entriesText_iff parts 0 (yields_dataEnd _)]

/-- The names of the items of a forest are the last names of its paths. -/
theorem exists_name_iff {F : Forest Str Extent} (hF : F.Wf) (k : Str) :
    (∃ i ∈ tocItems F, i.name = k) ↔ ∃ p, F.entryAt (p ++ [k]) ≠ none := by
  -- a path of the siblings does not begin with the name of the first entry
  have hrest : ∀ {k' : Str} {rest : Forest Str Extent}, k' ∉ rest.names →
      ∀ {x : Str} {q : List Str}, rest.entryAt (x :: q) ≠ none → x ≠ k' := by
    rintro k' rest hk' x q hx rfl
    exact hx (Forest.entryAt_of_notMem hk' q)
  have hpath : ∀ p : List Str, ∃ x q, p ++ [k] = x :: q := fun p =>
    List.exists_cons_of_ne_nil (by simp)
  induction F with
  | nil =>
    refine iff_of_false (by simp [tocItems]) fun ⟨p, hp⟩ => ?_
    obtain ⟨x, q, hq⟩ := hpath p
    exact hp (by rw [hq]; rfl)
  | leaf k' e rest ih =>
    simp only [tocItems, List.exists_mem_cons_iff, ih hF.2]
    constructor
    · rintro (rfl | ⟨p, hp⟩)
      · exact ⟨[], by simp [Forest.entryAt]⟩
      · refine ⟨p, ?_⟩
        obtain ⟨x, q, hq⟩ := hpath p
        rw [hq] at hp ⊢
        rwa [Forest.entryAt, if_neg (hrest hF.1 hp)]
    · rintro ⟨p, hp⟩
      obtain ⟨x, q, hq⟩ := hpath p
      rw [hq, Forest.entryAt] at hp
      split at hp
      · next hx =>
        split at hp
        · next hq0 =>
          subst hq0
          obtain ⟨rfl, rfl⟩ : p = [] ∧ k = x := by
            cases p <;> simp_all
          exact .inl hx.symm
        · exact absurd rfl hp
      · exact .inr ⟨p, hq ▸ hp⟩
  | node k' sub rest ih₁ ih₂ =>
    simp only [tocItems, List.exists_mem_cons_iff, List.mem_append, or_and_right, exists_or,
      ih₁ hF.2.2.1, ih₂ hF.2.2.2]
    constructor
    · rintro (rfl | ⟨p, hp⟩ | ⟨p, hp⟩)
      · exact ⟨[], by simp [Forest.entryAt, Forest.entryAt_nil]⟩
      · exact ⟨k' :: p, by simpa [Forest.entryAt] using hp⟩
      · refine ⟨p, ?_⟩
        obtain ⟨x, q, hq⟩ := hpath p
        rw [hq] at hp ⊢
        rwa [Forest.entryAt, if_neg (hrest hF.1 hp)]
    · rintro ⟨p, hp⟩
      rcases p with _ | ⟨x, p⟩
      · by_cases hk : k = k'
        · exact .inl hk.symm
        · exact .inr (.inr ⟨[], by simpa [Forest.entryAt, hk] using hp⟩)
      · rw [List.cons_append, Forest.entryAt] at hp
        split at hp
        · exact .inr (.inl ⟨p, hp⟩)
        · exact .inr (.inr ⟨x :: p, hp⟩)

namespace RCBuilder

/-- The bytes of the files of a builder, and the final zero. -/
def sourceBytes (fs : FileSystem) (b : RCBuilder) : List UInt8 :=
  b.entriesList.flatMap (fun e => ((fs e.path).getD []).take e.size) ++ [0]

/-- **The text of the two arrays means what the builder holds**: it consists of the declarations of
the emitted items and of the bytes of the files. -/
def MeansSource (order : Heap.Order) (fs : FileSystem) (b : RCBuilder) : Prop :=
  ∃ fuel toc data, writeToc fuel order b = some (.ok toc) ∧ writeData fs b = .ok data ∧
    tokens (sourceText (toc ++ data)) = some (declaration (Chunk.items toc) (sourceBytes fs b))

/-- Nothing that is inserted into the text changes its meaning: no name of a node has a quote, a
backslash or a line end, every byte is below 128, and no comment line with the path of a file has a
token. -/
structure Readable (fs : FileSystem) (b : RCBuilder) : Prop where
  names : ∀ p k, b.store (p ++ [k]) ≠ none → Plain k
  bytes : ∀ e ∈ b.entriesList, ∀ c ∈ ((fs e.path).getD []).take e.size, c < 128
  comments : ∀ e ∈ b.entriesList, Silent e

/-- A path without line ends makes a silent comment line. -/
theorem silent_of_notMem {e : FileEntry} (he : newline ∉ e.path) : Silent e := by
  set line := e.path ++ Str.ascii " " ++ Str.decimal e.size with hline
  have hlast : (Str.ascii "\n\t// " ++ line).getLast? ≠ some backslash := by
    rw [hline, ← List.append_assoc]
    exact Chunk.closed_of_append (decimal_ne_nil _) (plain_decimal _).getLast?_ne
  have hspliced : (entryComment e).spliced =
      Str.ascii "\n\t// " ++ splice line ++ Str.ascii "\n\t" := by
    have hrender : (entryComment e).render = Str.ascii "\n\t// " ++ line ++ Str.ascii "\n\t" := by
      simp [entryComment, Chunk.render, hline]
    rw [Chunk.spliced, hrender, splice_append_of_getLast? hlast,
      splice_append_of_getLast? (by decide)]
    rfl
  have hopen : Reads .start (Str.ascii "\n\t// ") .comment [] := reads_iff.2 rfl
  have hclose : Reads .comment (Str.ascii "\n\t") .start [] := reads_iff.2 rfl
  have hmid : newline ∉ splice line := fun h => by
    rcases List.mem_append.1 (mem_of_mem_splice h) with h | h
    · rcases List.mem_append.1 h with h | h
      · exact he h
      · exact absurd h (by decide)
    · exact (plain_decimal _ _ h).2.2 rfl
  rw [Silent, hspliced]
  exact (hopen.append (reads_comment hmid)).append hclose

/-- More fuel does not change the table. -/
theorem writeToc_mono {m n : ℕ} (hmn : m ≤ n) {order : Heap.Order} {b : RCBuilder}
    {r : Except Fault (List Chunk)} (h : writeToc m order b = some r) :
    writeToc n order b = some r := by
  obtain ⟨s, hs, hr⟩ := Option.map_eq_some_iff.1 h
  exact Option.map_eq_some_iff.2 ⟨s, Loop.run_mono hs hmn, hr⟩

/-- The table that `writeToc` ends with is that of the forest. -/
theorem eq_tocOutput {order : Heap.Order} {b : RCBuilder} {F : Forest Str Extent}
    (hF : Heap.Shape order b.heap (childList order b.heap b.root.rootDirectory) F) {fuel : ℕ}
    {toc : List Chunk} (h : writeToc fuel order b = some (.ok toc)) : toc = tocOutput F := by
  have hmax := writeToc_mono (Nat.le_max_left fuel (F.size + 1)) h
  rw [writeToc_eq hF (Nat.lt_of_succ_le (Nat.le_max_right _ _))] at hmax
  exact (Except.ok.inj (Option.some.inj hmax)).symm

theorem flatMap_zip_packed {fs : FileSystem} {entries : List FileEntry} {parts : List (List UInt8)}
    (hp : Packed fs entries parts) : (entries.zip parts).flatMap Prod.snd =
      entries.flatMap fun e => ((fs e.path).getD []).take e.size := by
  induction hp with
  | nil => rfl
  | cons he _ ih =>
    obtain ⟨input, hfs, -, rfl⟩ := he
    simp [ih, hfs]

theorem forall_zip_packed_iff {fs : FileSystem} {entries : List FileEntry}
    {parts : List (List UInt8)} (hp : Packed fs entries parts) :
    (∀ part ∈ entries.zip parts, Silent part.1 ∧ ∀ c ∈ part.2, c < 128) ↔
      ∀ e ∈ entries, Silent e ∧ ∀ c ∈ ((fs e.path).getD []).take e.size, c < 128 := by
  induction hp with
  | nil => simp
  | cons he _ ih =>
    obtain ⟨input, hfs, -, rfl⟩ := he
    rw [List.zip_cons_cons, List.forall_mem_cons, List.forall_mem_cons, ih, hfs, Option.getD_some]

/-- The text means what the builder holds exactly if the builder is readable. -/
theorem Reached.meansSource_iff {b : RCBuilder} (hb : Reached b) {order : Heap.Order}
    (horder : order.Valid) {fs : FileSystem} {data : List Chunk}
    (hdata : writeData fs b = .ok data) :
    MeansSource order fs b ↔ Readable fs b := by
  obtain ⟨F, hF, hwf, hstore⟩ := hb.exists_forest horder
  obtain ⟨parts, hparts⟩ := writeData_ok hdata
  have htokens := tokens_output_iff F (b.entriesList.zip parts)
  rw [flatMap_zip_packed hparts, forall_zip_packed_iff hparts] at htokens
  have hnames : (∀ i ∈ tocItems F, Plain i.name) ↔ ∀ p k, b.store (p ++ [k]) ≠ none → Plain k := by
    rw [← hstore]
    refine ⟨fun h p k hp => ?_, fun h i hi => ?_⟩
    · obtain ⟨i, hi, rfl⟩ := (exists_name_iff hwf k).2 ⟨p, hp⟩
      exact h i hi
    · obtain ⟨p, hp⟩ := (exists_name_iff hwf i.name).1 ⟨i, hi, rfl⟩
      exact h p i.name hp
  have hmeans : MeansSource order fs b ↔ tokens (sourceText (tocOutput F ++
      dataOutput (b.entriesList.zip parts))) =
        some (declaration (packItems F ++ [sentinel]) (sourceBytes fs b)) := by
    constructor
    · rintro ⟨fuel, toc, data', htoc, hdata', h⟩
      obtain rfl := eq_tocOutput hF htoc
      obtain rfl := Except.ok.inj ((writeData_eq hparts).symm.trans hdata')
      rwa [items_tocOutput] at h
    · exact fun h => ⟨F.size + 1, _, _, writeToc_eq hF (Nat.lt_succ_self _), writeData_eq hparts,
        by rwa [items_tocOutput]⟩
  rw [hmeans, sourceBytes, htokens, hnames]
  exact ⟨fun h => ⟨h.1, fun e he => (h.2 e he).2, fun e he => (h.2 e he).1⟩,
    fun h => ⟨h.names, fun e he => ⟨h.comments e he, h.bytes e he⟩⟩⟩

/-- **When the generated text means what the builder holds.** For a builder that calls of `addFile`
have led to and whose files can be read when it is written, it does exactly if nothing that is
inserted into the text changes its meaning. -/
theorem meansSource_iff_readable (lib : PathLib) {calls : List AddFileCall} {b : RCBuilder}
    (hb : addFiles lib returnsOrTreeError initial calls = some b) {order : Heap.Order}
    (horder : order.Valid) {fs : FileSystem} {data : List Chunk}
    (hdata : writeData fs b = .ok data) : MeansSource order fs b ↔ Readable fs b :=
  (addFiles_reached hb).meansSource_iff horder hdata

/-- A file with one byte that is not ASCII. -/
def oneByte : AddFileCall :=
  ⟨fun _ => some [200], Str.ascii ":/", Str.ascii "src", Str.ascii "a"⟩

/-- The initializer of the byte 200 is -56. -/
theorem oneByte_not_meansSource : ∃ b data,
    addFiles .posix returnsOrTreeError initial [oneByte] = some b ∧
      writeData oneByte.fs b = .ok data ∧ ¬ MeansSource (fun _ l => l) oneByte.fs b := by
  obtain ⟨b, hb⟩ := Option.isSome_iff_exists.1
    (show (addFiles .posix returnsOrTreeError initial [oneByte]).isSome by decide)
  have hentries : (addFiles .posix returnsOrTreeError initial [oneByte]).map (·.entriesList) =
      some [⟨Str.ascii "src/a", 1, 0⟩] := by decide
  rw [hb, Option.map_some, Option.some.injEq] at hentries
  have hpacked : Packed oneByte.fs b.entriesList [[200]] := by
    rw [hentries]
    exact .cons ⟨[200], rfl, le_rfl, rfl⟩ .nil
  refine ⟨b, _, hb, writeData_eq hpacked, fun h => ?_⟩
  have hreadable := ((addFiles_reached hb).meansSource_iff (fun _ _ => .refl _)
    (writeData_eq hpacked)).1 h
  have := hreadable.bytes ⟨Str.ascii "src/a", 1, 0⟩ (by simp [hentries]) 200 (by simp [oneByte])
  exact absurd this (by decide)

theorem meansSource_iff_readable_twoFiles : ∃ b data,
    addFiles .posix returnsOrTreeError initial twoFiles = some b ∧
      writeData (fun _ => some [1, 2]) b = .ok data ∧
      (MeansSource (fun _ l => l) (fun _ => some [1, 2]) b ↔
        Readable (fun _ => some [1, 2]) b) := by
  obtain ⟨b, hb⟩ := Option.isSome_iff_exists.1
    (show (addFiles .posix returnsOrTreeError initial twoFiles).isSome by decide)
  have hdata : (addFiles .posix returnsOrTreeError initial twoFiles).map
      (fun b => (writeData (fun _ => some [1, 2]) b).toOption.isSome) = some true := by decide
  rw [hb, Option.map_some, Option.some.injEq] at hdata
  cases hw : writeData (fun _ => some [1, 2]) b with
  | error f => simp [hw, Except.toOption] at hdata
  | ok data => exact ⟨b, data, hb, hw, meansSource_iff_readable .posix hb (fun _ _ => .refl _) hw⟩

end RCBuilder

end Jord.Rc
