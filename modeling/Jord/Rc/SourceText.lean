import Jord.Foundations.CppLiteral
import Jord.Rc.RoundTrip

/-!
# The text of the two arrays

What the table of contents and the data array are meant to declare (`declaration`), and how the
parts of the text are read as C++.

The table of contents is compared token by token, up to the first name that is not read as itself
(`yields_tocText_iff`). In the data array, whatever goes wrong adds tokens, so that it is enough to
count them (`length_yields_entriesText`).
-/

namespace Jord.Rc

open Cpp

/-! ## The declarations that are meant -/

/-- A token of one character. -/
def sym (c : Char) : Token := .punct (UInt8.ofNat c.toNat)

/-- An identifier. -/
def word (s : String) : Token := .ident (Str.ascii s)

/-- The name of the type `rc::Root::TOCItem`. -/
def itemType : List Token :=
  [word "rc", sym ':', sym ':', word "Root", sym ':', sym ':', word "TOCItem"]

/-- The initializer of an item. -/
def itemTokens (i : TOCItem) : List Token :=
  sym '\x7b' :: itemType ++ [sym ':', sym ':', .ident (Chunk.typeName i.type), sym ',', .str i.name,
    sym ',', .int i.count, sym ',', .int i.fileSize, sym '\x7d']

/-- The declaration of a constant array up to its initializers. -/
def arrayHead (type : List Token) (name : String) : List Token :=
  word "static" :: word "const" :: type ++ [word name, sym '[', sym ']', sym '=', sym '\x7b']

/-- The declaration of a constant array with its initializers. -/
def arrayTokens (type : List Token) (name : String) (elements : List (List Token)) : List Token :=
  arrayHead type name ++ [sym ','].intercalate elements ++ [sym '\x7d', sym ';']

/-- **The declarations of a table of contents and of a data array.** -/
def declaration (items : List TOCItem) (bytes : List UInt8) : List Token :=
  arrayTokens itemType "__toc" (items.map itemTokens) ++
    arrayTokens [word "uint8_t"] "__data" (bytes.map fun c => [.int c.toNat])

/-- The text of a stream. -/
def sourceText (out : List Chunk) : Str := out.flatMap Chunk.render

/-! ## Chunks and line splices -/

namespace Chunk

/-- The text of a chunk without line splices. -/
def spliced (c : Chunk) : Str := splice c.render

/-- The chunk does not end in the middle of a line splice. -/
def Closed (c : Chunk) : Prop := c.render.getLast? ≠ some backslash

theorem closed_of_append {s t : Str} (ht : t ≠ []) (hlast : t.getLast? ≠ some backslash) :
    (s ++ t).getLast? ≠ some backslash := by
  rw [List.getLast?_append_of_ne_nil _ ht]
  exact hlast

theorem splice_sourceText {out : List Chunk} (hout : ∀ c ∈ out, c.Closed) :
    splice (sourceText out) = out.flatMap spliced := by
  induction out with
  | nil => rfl
  | cons c out ih =>
    obtain ⟨hc, hout⟩ := List.forall_mem_cons.1 hout
    rw [sourceText, List.flatMap_cons, splice_append_of_getLast? hc, List.flatMap_cons, ← ih hout]
    rfl

end Chunk

/-! ## Items -/

/-- The text of an item up to its name. -/
def itemOpen (t : TOCItemType) : Str :=
  Str.ascii "\x7b rc::Root::TOCItem::" ++ Chunk.typeName t ++ Str.ascii ", \""

/-- The text of an item behind its name and the closing quote. -/
def itemRest (i : TOCItem) : Str :=
  Str.ascii ", " ++ Str.decimal i.count ++ Str.ascii ", " ++ Str.decimal i.fileSize ++
    Str.ascii " \x7d"

theorem renderItem_eq (i : TOCItem) :
    Chunk.renderItem i = itemOpen i.type ++ (i.name ++ quote :: itemRest i) := by
  have h : Str.ascii "\", " = quote :: Str.ascii ", " := rfl
  simp [Chunk.renderItem, itemOpen, itemRest, h]

theorem plain_itemRest (i : TOCItem) : Plain (itemRest i) := by
  refine Plain.append (.append (.append (.append ?_ (plain_decimal _)) ?_) (plain_decimal _)) ?_
  all_goals exact plain_of_all rfl

theorem backslash_notMem_itemOpen (t : TOCItemType) : backslash ∉ itemOpen t := by
  cases t <;> decide

/-- The text of an item without line splices. -/
theorem spliced_item (i : TOCItem) :
    (Chunk.item i).spliced = itemOpen i.type ++ (splice i.name ++ quote :: itemRest i) := by
  have hopen := splice_of_notMem (backslash_notMem_itemOpen i.type)
  have hrest : splice (quote :: itemRest i) = quote :: itemRest i := by
    apply splice_of_notMem
    intro h
    rcases List.mem_cons.1 h with h | h
    · exact absurd h (by decide)
    · exact (plain_itemRest i _ h).2.1 rfl
  have hquote : (quote :: itemRest i).head? ≠ some newline := fun h =>
    absurd (Option.some.inj h) (by decide)
  rw [Chunk.spliced, Chunk.render, renderItem_eq,
    splice_append_of_getLast? fun h => backslash_notMem_itemOpen i.type (List.mem_of_getLast? h),
    splice_append hquote, hopen, hrest]

/-- The tokens of an item before its name. -/
def itemOpenTokens (t : TOCItemType) : List Token :=
  sym '\x7b' :: itemType ++ [sym ':', sym ':', .ident (Chunk.typeName t), sym ',']

/-- The tokens of an item behind its name. -/
def itemRestTokens (i : TOCItem) : List Token :=
  [sym ',', .int i.count, sym ',', .int i.fileSize, sym '\x7d']

theorem itemTokens_eq (i : TOCItem) :
    itemTokens i = itemOpenTokens i.type ++ .str i.name :: itemRestTokens i := by
  simp [itemTokens, itemOpenTokens, itemRestTokens]

theorem reads_itemOpen (t : TOCItemType) :
    Reads .start (itemOpen t) (.str []) (itemOpenTokens t) := by
  cases t <;> exact reads_iff.2 rfl

theorem reads_itemRest (i : TOCItem) : Reads .start (itemRest i) .start (itemRestTokens i) := by
  have hcomma : Reads .start (Str.ascii ", ") .start [sym ','] := reads_iff.2 rfl
  have hint : ∀ n, Reads (.int n) (Str.ascii ", ") .start [.int n, sym ','] := fun n =>
    reads_iff.2 rfl
  have hend : ∀ n, Reads (.int n) (Str.ascii " \x7d") .start [.int n, sym '\x7d'] := fun n =>
    reads_iff.2 rfl
  exact (((hcomma.append (reads_decimal _)).append (hint _)).append (reads_decimal _)).append
    (hend _)

theorem evaluate_itemOpenTokens (t : TOCItemType) :
    (itemOpenTokens t).mapM Token.evaluate = some (itemOpenTokens t) := rfl

theorem evaluate_itemRestTokens (i : TOCItem) :
    (itemRestTokens i).mapM Token.evaluate = some (itemRestTokens i) := rfl

/-- **An item with a plain name is read as what is meant.** -/
theorem yields_item {i : TOCItem} (hi : Plain i.name) :
    Yields (Chunk.item i).spliced (itemTokens i) := by
  have hclose : Reads (.str i.name) [quote] .start [.str i.name] := fun out => rfl
  have hread := (reads_itemOpen i.type).append
    ((reads_plain hi []).append (hclose.append (reads_itemRest i)))
  refine ⟨itemOpenTokens i.type ++ .str i.name :: itemRestTokens i, ?_, ?_⟩
  · rw [spliced_item, hi.splice]
    simpa using hread
  · rw [itemTokens_eq, List.mapM_append, List.mapM_cons, evaluate_itemOpenTokens,
      evaluate_itemRestTokens]
    simp [Token.evaluate, hi.unescape]

/-- **An item with another name is not.** -/
theorem not_yields_item {i : TOCItem} (hi : ¬ Plain i.name) {t : Str}
    (ht : Shuts (itemRest i ++ t)) (y : List Token) :
    ¬ Yields ((Chunk.item i).spliced ++ t) (itemTokens i ++ y) := by
  rintro ⟨raw, hraw, heval⟩
  rw [spliced_item, List.append_assoc] at hraw
  obtain ⟨m, toks₁, toks₂, h₁, h₂, rfl⟩ := hraw.split
  obtain ⟨rfl, rfl⟩ := (reads_itemOpen i.type).unique h₁
  rw [List.append_assoc, List.cons_append] at h₂
  obtain ⟨tok, toks', rfl, htok⟩ := evaluate_ne_of_not_plain hi ht h₂
  rw [itemTokens_eq, List.append_assoc, List.mapM_append, evaluate_itemOpenTokens,
    Option.bind_eq_bind, Option.bind_some, List.mapM_cons] at heval
  obtain ⟨z, hz, heval⟩ := Option.bind_eq_some_iff.1 heval
  obtain ⟨v, hv, hz⟩ := Option.bind_eq_some_iff.1 hz
  obtain ⟨rest, -, hz⟩ := Option.bind_eq_some_iff.1 hz
  obtain rfl := Option.some.inj hz
  have := List.append_cancel_left (Option.some.inj heval)
  rw [List.cons_append, List.cons.injEq] at this
  exact htok (this.1 ▸ hv)

/-! ## The table of contents -/

/-- A text that begins with a line end or with an item. -/
def Begins (t : Str) : Prop := (∃ b, t = newline :: b) ∨ ∃ k b, t = itemOpen k ++ b

/-- What follows an item shuts its literal. -/
theorem Begins.shuts {t : Str} (ht : Begins t) (i : TOCItem) :
    Shuts (itemRest i ++ (Str.ascii ", " ++ t)) := by
  have hrest : Plain (itemRest i ++ Str.ascii ", ") :=
    (plain_itemRest i).append (plain_of_all rfl)
  rcases ht with ⟨b, rfl⟩ | ⟨k, b, rfl⟩
  · exact .inl ⟨_, b, (List.append_assoc ..).symm, hrest⟩
  · obtain ⟨a, ha, hopen⟩ : ∃ a, Plain a ∧ itemOpen k = a ++ [32, quote] := by
      refine ⟨Str.ascii "\x7b rc::Root::TOCItem::" ++ Chunk.typeName k ++ Str.ascii ",", ?_, ?_⟩
      · cases k <;> exact plain_of_all rfl
      · cases k <;> rfl
    refine .inr ⟨itemRest i ++ Str.ascii ", " ++ a, b, ?_, hrest.append ha⟩
    simp [hopen]

theorem flatMap_itemBreak (n : ℕ) : (RCBuilder.itemBreak n).flatMap Chunk.spliced =
    if n % RCBuilder.itemsPerString = 0 then Str.ascii "\n\t" else [] := by
  rw [RCBuilder.itemBreak]
  split <;> rfl

theorem yields_itemBreak (n : ℕ) : Yields ((RCBuilder.itemBreak n).flatMap Chunk.spliced) [] := by
  rw [flatMap_itemBreak]
  split <;> exact ⟨[], reads_iff.2 rfl, rfl⟩

theorem begins_itemBreak (n : ℕ) (i : TOCItem) (t : Str) :
    Begins ((RCBuilder.itemBreak n).flatMap Chunk.spliced ++ ((Chunk.item i).spliced ++ t)) := by
  rw [flatMap_itemBreak]
  split
  · exact .inl ⟨_, rfl⟩
  · rw [spliced_item, List.nil_append, List.append_assoc]
    exact .inr ⟨i.type, _, rfl⟩

theorem yields_comma : Yields (Chunk.text (Str.ascii ", ")).spliced [sym ','] :=
  ⟨[sym ','], reads_iff.2 rfl, rfl⟩

/-- The text of a list of items. -/
def tocText (n : ℕ) (is : List TOCItem) : Str := (RCBuilder.tocChunks n is).flatMap Chunk.spliced

theorem tocText_cons (n : ℕ) (i : TOCItem) (is : List TOCItem) (t : Str) :
    tocText n (i :: is) ++ t = (RCBuilder.itemBreak n).flatMap Chunk.spliced ++
      ((Chunk.item i).spliced ++ ((Chunk.text (Str.ascii ", ")).spliced ++
        (tocText (n + 1) is ++ t))) := by
  simp [tocText, RCBuilder.tocChunks]

theorem Begins.tocText {t : Str} (ht : Begins t) (n : ℕ) (is : List TOCItem) :
    Begins (tocText n is ++ t) := by
  cases is with
  | nil => exact ht
  | cons i is =>
    rw [tocText_cons]
    exact begins_itemBreak n i _

/-- **A list of items is read as what is meant** exactly if the names are plain. -/
theorem yields_tocText_iff {t : Str} (ht : Begins t) (y : List Token) (n : ℕ) (is : List TOCItem) :
    Yields (tocText n is ++ t) (is.flatMap (fun i => itemTokens i ++ [sym ',']) ++ y) ↔
      (∀ i ∈ is, Plain i.name) ∧ Yields t y := by
  induction is generalizing n with
  | nil => simp [tocText, RCBuilder.tocChunks]
  | cons i is ih =>
    rw [tocText_cons, List.flatMap_cons, List.append_assoc, List.append_assoc,
      ← List.nil_append (itemTokens i ++ _), yields_append_iff (yields_itemBreak n),
      List.forall_mem_cons, and_assoc, ← ih (n + 1)]
    by_cases hi : Plain i.name
    · rw [yields_append_iff (yields_item hi), yields_append_iff yields_comma]
      simp [hi]
    · refine iff_of_false (not_yields_item hi ?_ _) fun h => hi h.1
      exact (ht.tocText (n + 1) is).shuts i

/-! ## The data array -/

/-- The comment line of the entry has no token. -/
def Silent (e : FileEntry) : Prop :=
  Reads .start (RCBuilder.entryComment e).spliced .start []

/-- The tokens that are meant for a byte. -/
def byteTokens (c : UInt8) : List Token := [.int c.toNat, sym ',']

/-- The text of a byte. -/
def byteText (c : UInt8) : Str :=
  (Chunk.number (RCBuilder.charToInt c)).spliced ++ (Chunk.text (Str.ascii ", ")).spliced

theorem spliced_number (i : ℤ) : (Chunk.number i).spliced = Str.signed i := by
  apply splice_of_notMem
  intro h
  rcases List.mem_append.1 h with h | h
  · split at h <;> simp [backslash] at h
  · exact (plain_decimal _ _ h).2.1 rfl

theorem yields_decimal (n : ℕ) :
    Yields (Str.decimal n ++ (Chunk.text (Str.ascii ", ")).spliced) [.int n, sym ','] := by
  have hcomma : Reads (.int n) (Str.ascii ", ") .start [.int n, sym ','] := reads_iff.2 rfl
  exact ⟨_, (reads_decimal n).append hcomma, rfl⟩

/-- **A byte below 128 is read as itself.** -/
theorem yields_byteText {c : UInt8} (hc : c < 128) : Yields (byteText c) (byteTokens c) := by
  have hlt : c.toNat < 128 := hc
  have hsigned : Str.signed (RCBuilder.charToInt c) = Str.decimal c.toNat := by
    rw [RCBuilder.charToInt_eq, if_pos hlt, Str.signed, if_neg (by omega), Int.natAbs_natCast]
    rfl
  rw [byteText, spliced_number, hsigned]
  exact yields_decimal _

/-- **A byte from 128 on is read as a minus sign and a number.** -/
theorem yields_byteText_neg {c : UInt8} (hc : ¬ c < 128) :
    Yields (byteText c) [sym '-', .int (256 - c.toNat), sym ','] := by
  have hlt : ¬ c.toNat < 128 := hc
  have := c.toNat_lt
  have hsigned : Str.signed (RCBuilder.charToInt c) = [45] ++ Str.decimal (256 - c.toNat) := by
    rw [RCBuilder.charToInt_eq, if_neg hlt, Str.signed, if_pos (by omega)]
    congr 2
    omega
  have hminus : Yields [45] [sym '-'] := ⟨[sym '-'], reads_iff.2 rfl, rfl⟩
  rw [byteText, spliced_number, hsigned, List.append_assoc]
  exact hminus.append (yields_decimal _)

theorem flatMap_byteBreak (n : ℕ) : (RCBuilder.byteBreak n).flatMap Chunk.spliced =
    if n % RCBuilder.bytesPerRow = 0 then Str.ascii "\n\t" else [] := by
  rw [RCBuilder.byteBreak]
  split <;> rfl

theorem yields_byteBreak (n : ℕ) : Yields ((RCBuilder.byteBreak n).flatMap Chunk.spliced) [] := by
  rw [flatMap_byteBreak]
  split <;> exact ⟨[], reads_iff.2 rfl, rfl⟩

/-- The text of a list of bytes. -/
def bytesText (n : ℕ) (bytes : List UInt8) : Str :=
  (RCBuilder.byteChunks n bytes).flatMap Chunk.spliced

theorem bytesText_cons (n : ℕ) (c : UInt8) (bytes : List UInt8) :
    bytesText n (c :: bytes) =
      (RCBuilder.byteBreak n).flatMap Chunk.spliced ++ (byteText c ++ bytesText (n + 1) bytes) := by
  simp [bytesText, RCBuilder.byteChunks, byteText]

theorem yields_bytesText {bytes : List UInt8} (h : ∀ c ∈ bytes, c < 128) (n : ℕ) :
    Yields (bytesText n bytes) (bytes.flatMap byteTokens) := by
  induction bytes generalizing n with
  | nil => exact ⟨[], .nil _, rfl⟩
  | cons c bytes ih =>
    obtain ⟨hc, h⟩ := List.forall_mem_cons.1 h
    rw [bytesText_cons, List.flatMap_cons]
    exact (yields_byteBreak n).append ((yields_byteText hc).append (ih h _))

/-- The tokens of a list of bytes are at least two for each, and more if one is not below 128. -/
theorem length_yields_bytesText {bytes : List UInt8} {n : ℕ} {t : Str} {z : List Token}
    (h : Yields (bytesText n bytes ++ t) z) : ∃ y, Yields t y ∧
      2 * bytes.length + y.length ≤ z.length ∧
      (z.length ≤ 2 * bytes.length + y.length → ∀ c ∈ bytes, c < 128) := by
  induction bytes generalizing n z with
  | nil => exact ⟨z, h, by simp, by simp⟩
  | cons c bytes ih =>
    rw [bytesText_cons, List.append_assoc, List.append_assoc] at h
    obtain ⟨z, hz, rfl⟩ := (yields_byteBreak n).of_append h
    by_cases hc : c < 128
    · obtain ⟨z, hbytes, rfl⟩ := (yields_byteText hc).of_append hz
      obtain ⟨y, hy, hle, hsmall⟩ := ih hbytes
      simp only [byteTokens, List.length_append, List.length_cons, List.length_nil]
      refine ⟨y, hy, by omega, fun hlen => List.forall_mem_cons.2 ⟨hc, hsmall (by omega)⟩⟩
    · obtain ⟨z, hbytes, rfl⟩ := (yields_byteText_neg hc).of_append hz
      obtain ⟨y, hy, hle, -⟩ := ih hbytes
      simp only [List.length_append, List.length_cons, List.length_nil]
      exact ⟨y, hy, by omega, fun hlen => by omega⟩

/-- The text of the entries with their bytes. -/
def entriesText (n : ℕ) (parts : List (FileEntry × List UInt8)) : Str :=
  (RCBuilder.entryChunks n parts).flatMap Chunk.spliced

theorem entriesText_cons (n : ℕ) (part : FileEntry × List UInt8)
    (parts : List (FileEntry × List UInt8)) :
    entriesText n (part :: parts) = (RCBuilder.entryComment part.1).spliced ++
      (bytesText n part.2 ++ entriesText (n + part.2.length) parts) := by
  simp [entriesText, RCBuilder.entryChunks, bytesText]

theorem yields_entriesText {parts : List (FileEntry × List UInt8)}
    (h : ∀ part ∈ parts, Silent part.1 ∧ ∀ c ∈ part.2, c < 128) (n : ℕ) :
    Yields (entriesText n parts) ((parts.flatMap Prod.snd).flatMap byteTokens) := by
  induction parts generalizing n with
  | nil => exact ⟨[], .nil _, rfl⟩
  | cons part parts ih =>
    obtain ⟨⟨hsilent, hbytes⟩, h⟩ := List.forall_mem_cons.1 h
    rw [entriesText_cons, List.flatMap_cons, List.flatMap_append]
    exact (yields_nil_iff.2 hsilent).append ((yields_bytesText hbytes n).append (ih h _))

/-- Behind a comment line the lexer is outside of any token. -/
theorem reads_entryComment {e : FileEntry} {m : Mode} {toks : List Token}
    (h : Reads .start (RCBuilder.entryComment e).spliced m toks) : m = .start := by
  have hend : splice (Str.ascii "\n\t") = [newline, 9] := rfl
  have hlast : (Str.ascii "\n\t// " ++ e.path ++ Str.ascii " " ++ Str.decimal e.size).getLast? ≠
      some backslash := by
    rw [List.getLast?_append_of_ne_nil]
    · exact (plain_decimal _).getLast?_ne
    · exact decimal_ne_nil _
  rw [RCBuilder.entryComment, Chunk.spliced, Chunk.render,
    splice_append_of_getLast? hlast, hend] at h
  exact h.eq_start

/-- The tokens of the entries are at least two for each byte, and more if a byte is not below 128 or
a comment line is not silent. -/
theorem length_yields_entriesText {parts : List (FileEntry × List UInt8)} {n : ℕ} {t : Str}
    {z : List Token} (h : Yields (entriesText n parts ++ t) z) : ∃ y, Yields t y ∧
      2 * (parts.flatMap Prod.snd).length + y.length ≤ z.length ∧
      (z.length ≤ 2 * (parts.flatMap Prod.snd).length + y.length →
        ∀ part ∈ parts, Silent part.1 ∧ ∀ c ∈ part.2, c < 128) := by
  induction parts generalizing n z with
  | nil => exact ⟨z, h, by simp, by simp⟩
  | cons part parts ih =>
    rw [entriesText_cons, List.append_assoc, List.append_assoc] at h
    obtain ⟨x, z, hx, hz, rfl⟩ := h.of_append_of_start fun _ _ => reads_entryComment
    obtain ⟨z', hz', hle, hsmall⟩ := length_yields_bytesText hz
    obtain ⟨y, hy, hle', hrest⟩ := ih hz'
    simp only [List.flatMap_cons, List.length_append]
    refine ⟨y, hy, by omega, fun hlen => List.forall_mem_cons.2 ⟨⟨?_, hsmall (by omega)⟩,
      hrest (by omega)⟩⟩
    obtain rfl : x = [] := List.eq_nil_of_length_eq_zero (by omega)
    exact yields_nil_iff.1 hx

end Jord.Rc
