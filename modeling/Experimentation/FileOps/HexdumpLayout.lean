import Experimentation.FileOps.Hexdump

/-!
# Reading a dump back

A reader of a dump takes each of its lines apart at the bar in front of the characters: the first
word before it is the offset, the other ones are the bytes.  That gives back the bytes and their
offsets.  The bar itself is one column further to the right on a line of ten bytes, whose blank
between the two halves is printed with the cells and once more with the padding.
-/

namespace Experimentation.FileOps

open Semantics

/-- The byte of a cell of two digits. -/
def readCell (word : Text) : Option UInt8 :=
  if word.length = 2 then (readNumeral 16 word).map UInt8.ofNat else none

/-- The offset of a line and its bytes. -/
def readLine (line : Text) : Option (ℕ × List UInt8) := do
  let offset ← (words (beforeBar line)).head?
  let n ← readNumeral 16 offset
  let bytes ← (words (beforeBar line)).tail.mapM readCell
  return (n, bytes)

/-- The lines of a dump, taken apart. -/
def readDump (text : Text) : Option (List (ℕ × List UInt8)) := (lines text).mapM readLine

/-- What a dump is for: its lines give back the bytes with the offset of the first one of each line,
and their bars are in one column. -/
structure ReadsBack (o : Options) (file : List UInt8) (text : Text) : Prop where
  bytes : (readDump text).map (fun rows ↦ rows.flatMap Prod.snd) = some (dumped o file)
  offsets : ∀ rows, readDump text = some rows → ∀ before row after, rows = before ++ row :: after →
    row.1 = o.skip + (before.flatMap Prod.snd).length
  column : ∀ line ∈ lines text, ∀ line' ∈ lines text,
    (beforeBar line).length = (beforeBar line').length

/-! ## What is before the bar -/

section Line

variable {caps : Bool} {c : UInt8}

theorem digitValue_ne_none_of_mem_hex {width n : ℕ} (h : c ∈ hex caps width n) :
    digitValue c ≠ none :=
  digitValue_ne_none (by decide) (by decide) h

theorem hex_ne_nil (width n : ℕ) : hex caps width n ≠ [] :=
  List.append_ne_nil_of_right_ne_nil _ numeral_ne_nil

theorem length_hex {width n : ℕ} (hwidth : 0 < width) (h : n < 16 ^ width) :
    (hex caps width n).length = width :=
  length_padLeft ((length_numeral_le_iff (by decide) hwidth).2 h)

theorem readCell_hex (c : UInt8) : readCell (hex caps 2 c.toNat) = some c := by
  rw [readCell, if_pos (length_hex (by decide) c.toNat_lt), hex,
    readNumeral_padLeft (by decide) le_rfl]
  simp

theorem mem_cells {i : ℕ} {bytes : List UInt8} (h : c ∈ cells caps i bytes) :
    digitValue c ≠ none ∨ c = blank := by
  induction bytes generalizing i with
  | nil => exact absurd h List.not_mem_nil
  | cons b bytes ih =>
      rw [cells, cell, List.mem_append, List.mem_append, List.mem_cons] at h
      rcases h with (hhex | hblank | hmiddle) | hrest
      · exact .inl (digitValue_ne_none_of_mem_hex hhex)
      · exact .inr hblank
      · split_ifs at hmiddle
        · exact .inr (List.mem_singleton.1 hmiddle)
        · exact absurd hmiddle List.not_mem_nil
      · exact ih hrest

theorem mem_padding {i : ℕ} (h : c ∈ padding i) : c = blank := by
  obtain ⟨j, _, hj⟩ := List.mem_flatMap.1 h
  rcases List.mem_append.1 hj with hgap | hmiddle
  · have hgaps : ascii "   " = List.replicate 3 blank := by decide
    exact List.eq_of_mem_replicate (hgaps ▸ hgap)
  · split_ifs at hmiddle
    · exact List.mem_singleton.1 hmiddle
    · exact absurd hmiddle List.not_mem_nil

theorem words_cells (i : ℕ) (bytes : List UInt8) (t : Text) :
    words (cells caps i bytes ++ t) = bytes.map (fun c ↦ hex caps 2 c.toNat) ++ words t := by
  induction bytes generalizing i with
  | nil => rfl
  | cons b bytes ih =>
      have hblank : blank ∉ hex caps 2 b.toNat := fun h ↦
        digitValue_ne_none_of_mem_hex h (by decide)
      have hsplit : cells caps i (b :: bytes) ++ t = hex caps 2 b.toNat ++
          blank :: ((if i = bufSize / 2 - 1 then [blank] else []) ++
            (cells caps (i + 1) bytes ++ t)) := by
        simp [cells, cell]
      have hmiddle : ∀ c ∈ if i = bufSize / 2 - 1 then [blank] else [], c = blank := by
        split_ifs <;> simp
      rw [hsplit, words_append (hex_ne_nil 2 _) hblank, words_blanks hmiddle, ih, List.map_cons,
        List.cons_append]

theorem length_cells (i : ℕ) (bytes : List UInt8) : (cells caps i bytes).length =
    3 * bytes.length + if i ≤ 9 ∧ 9 < i + bytes.length then 1 else 0 := by
  induction bytes generalizing i with
  | nil =>
      rw [if_neg (by simp)]
      rfl
  | cons c bytes ih =>
      have hmiddle : (if i = bufSize / 2 - 1 then [blank] else []).length =
          if i = 9 then 1 else 0 := by
        split_ifs <;> simp_all [bufSize]
      rw [cells, cell, List.length_append, List.length_append, List.length_cons, hmiddle, ih,
        length_hex (by decide) c.toNat_lt, List.length_cons]
      split_ifs <;> omega

theorem length_padding (i : ℕ) :
    (padding i).length = 3 * (bufSize - i) + if 9 < bufSize - i then 1 else 0 := by
  rw [padding]
  induction bufSize - i with
  | zero => rfl
  | succ k ih =>
      have hmiddle : (ascii "   " ++ if k = bufSize / 2 - 1 then [blank] else []).length =
          if k = 9 then 4 else 3 := by
        split_ifs <;> simp_all [bufSize, ascii]
      rw [List.range_succ, List.flatMap_append, List.length_append, ih, List.flatMap_singleton, hmiddle]
      split_ifs <;> omega

theorem mem_beforeBar {row : ℕ × List UInt8} (h : c ∈ hex caps 8 row.1 ++
    blank :: (cells caps 0 row.2 ++ (padding row.2.length ++ [blank]))) :
    digitValue c ≠ none ∨ c = blank := by
  rw [List.mem_append, List.mem_cons, List.mem_append, List.mem_append, List.mem_singleton] at h
  rcases h with hoffset | hblank | hcells | hpadding | hblank
  · exact .inl (digitValue_ne_none_of_mem_hex hoffset)
  · exact .inr hblank
  · exact mem_cells hcells
  · exact .inr (mem_padding hpadding)
  · exact .inr hblank

theorem rowText_eq (row : ℕ × List UInt8) : rowText caps row =
    (hex caps 8 row.1 ++ blank :: (cells caps 0 row.2 ++ (padding row.2.length ++ [blank]))) ++
      bar :: ((row.2.take row.2.length).map character ++ [bar]) := by
  have hopen : ascii " |" = [blank, bar] := by decide
  have hclose : ascii "|" = [bar] := by decide
  rw [rowText, printLine, hopen, hclose]
  simp

theorem beforeBar_rowText (row : ℕ × List UInt8) : beforeBar (rowText caps row) =
    hex caps 8 row.1 ++ blank :: (cells caps 0 row.2 ++ (padding row.2.length ++ [blank])) := by
  rw [rowText_eq]
  apply beforeBar_append
  intro hbar
  exact absurd (mem_beforeBar hbar) (by decide)

theorem readLine_rowText (row : ℕ × List UInt8) : readLine (rowText caps row) = some row := by
  have hblank : blank ∉ hex caps 8 row.1 := fun h ↦ digitValue_ne_none_of_mem_hex h (by decide)
  have hgap : ∀ c ∈ padding row.2.length ++ [blank], c = blank := by
    intro c hc
    rcases List.mem_append.1 hc with hpadding | hlast
    · exact mem_padding hpadding
    · exact List.mem_singleton.1 hlast
  have hrest : words (padding row.2.length ++ [blank]) = [] := by
    simpa using words_blanks hgap []
  have hwords : words (beforeBar (rowText caps row)) =
      hex caps 8 row.1 :: row.2.map fun c ↦ hex caps 2 c.toNat := by
    rw [beforeBar_rowText, words_append (hex_ne_nil 8 _) hblank, words_cells, hrest, List.append_nil]
  have hnumber : readNumeral 16 (hex caps 8 row.1) = some row.1 :=
    readNumeral_padLeft (by decide) le_rfl 8
  have hbytes : (row.2.map fun c ↦ hex caps 2 c.toNat).mapM readCell = some row.2 :=
    mapM_map_eq_some fun c _ ↦ readCell_hex c
  simp [readLine, hwords, hnumber, hbytes]

example : rowText true (26, ascii "Hi") =
    ascii "0000001A 48 69                                                         |Hi|" := by
  decide

theorem length_beforeBar {row : ℕ × List UInt8} (hoffset : row.1 < 16 ^ 8)
    (hbytes : row.2.length ≤ bufSize) :
    (beforeBar (rowText caps row)).length = if row.2.length = 10 then 72 else 71 := by
  rw [beforeBar_rowText, List.length_append, List.length_cons, List.length_append,
    List.length_append, List.length_singleton, length_hex (by decide) hoffset, length_cells,
    length_padding]
  unfold bufSize at hbytes ⊢
  split_ifs <;> omega

theorem newline_notMem_rowText (row : ℕ × List UInt8) : newline ∉ rowText caps row := by
  have hcharacter : ∀ c, character c ≠ newline := by
    intro c
    unfold character
    split_ifs with hprint
    · exact fun h ↦ absurd (h ▸ hprint.1) (by decide)
    · decide
  rw [rowText_eq]
  intro h
  rcases List.mem_append.1 h with hbefore | hafter
  · exact absurd (mem_beforeBar hbefore) (by decide)
  rw [List.mem_cons, List.mem_append, List.mem_singleton] at hafter
  rcases hafter with hbar | hcharacters | hbar
  · exact absurd hbar (by decide)
  · obtain ⟨c, _, hc⟩ := List.mem_map.1 hcharacters
    exact hcharacter c hc
  · exact absurd hbar (by decide)

end Line

/-! ## All lines -/

namespace Rows

variable {offset : ℕ} {bytes : List UInt8} {rows : List (ℕ × List UInt8)}

theorem flatMap_eq (h : Rows offset bytes rows) : rows.flatMap Prod.snd = bytes := by
  induction h with
  | none => rfl
  | last h => simp
  | full h hrest ih => rw [List.flatMap_cons, ih]

theorem length_le (h : Rows offset bytes rows) : ∀ row ∈ rows, row.2.length ≤ bufSize := by
  induction h with
  | none => exact fun row hrow ↦ absurd hrow List.not_mem_nil
  | last h => simpa using h
  | full h hrest ih => exact List.forall_mem_cons.2 ⟨h.le, ih⟩

theorem offset_eq (h : Rows offset bytes rows) {before after : List (ℕ × List UInt8)}
    {row : ℕ × List UInt8} (heq : rows = before ++ row :: after) :
    row.1 = offset + (before.flatMap Prod.snd).length := by
  induction h generalizing before with
  | none => simp at heq
  | last h =>
      cases before with
      | nil =>
          rw [List.nil_append, List.cons.injEq] at heq
          rw [← heq.1]
          rfl
      | cons row' before => simp at heq
  | @full offset first bytes rows h hrest ih =>
      cases before with
      | nil =>
          rw [List.nil_append, List.cons.injEq] at heq
          rw [← heq.1]
          rfl
      | cons row' before =>
          rw [List.cons_append, List.cons.injEq] at heq
          rw [ih heq.2, ← heq.1, List.flatMap_cons, List.length_append, h, Nat.add_assoc]

theorem offset_le (h : Rows offset bytes rows) :
    ∀ row ∈ rows, row.1 ≤ offset + bytes.length := by
  intro row hrow
  obtain ⟨before, after, heq⟩ := List.append_of_mem hrow
  rw [h.offset_eq heq, ← h.flatMap_eq, heq, List.flatMap_append, List.length_append]
  omega

theorem exists_ten_iff (h : Rows offset bytes rows) :
    (∃ row ∈ rows, row.2.length = 10) ↔ bytes.length % bufSize = 10 := by
  induction h with
  | none => simp
  | last h =>
      unfold bufSize at *
      simp only [List.mem_singleton, exists_eq_left]
      omega
  | full h hrest ih =>
      simp only [List.mem_cons, exists_eq_or_imp, ih, List.length_append, h]
      unfold bufSize
      omega

theorem exists_ne_ten (h : Rows offset bytes rows) (hmany : 10 < bytes.length)
    (hten : bytes.length % bufSize = 10) : ∃ row ∈ rows, row.2.length ≠ 10 := by
  cases h with
  | none => exact absurd hmany (by simp)
  | last h =>
      unfold bufSize at *
      omega
  | @full _ first bytes rows h hrest =>
      refine ⟨(offset, first), List.mem_cons_self, ?_⟩
      rw [h]
      decide

/-- The only line of a dump of ten bytes. -/
theorem eq_of_length (h : Rows offset bytes rows) (hten : bytes.length = 10) :
    rows = [(offset, bytes)] := by
  cases h with
  | none => exact absurd hten (by simp)
  | last h => rfl
  | full h hrest =>
      rw [List.length_append, h] at hten
      unfold bufSize at hten
      omega

end Rows

section Dump

variable {o : Options} {file : List UInt8} {rows : List (ℕ × List UInt8)}

theorem lines_rowTexts (caps : Bool) (rows : List (ℕ × List UInt8)) :
    lines (unlines (rows.map (rowText caps))) = rows.map (rowText caps) := by
  apply lines_unlines
  intro line hline
  obtain ⟨row, _, rfl⟩ := List.mem_map.1 hline
  exact newline_notMem_rowText row

theorem readDump_rowTexts (caps : Bool) (rows : List (ℕ × List UInt8)) :
    readDump (unlines (rows.map (rowText caps))) = some rows := by
  rw [readDump, lines_rowTexts]
  exact mapM_map_eq_some fun row _ ↦ readLine_rowText row

/-- The bars of a dump are in one column just when no line of ten bytes follows another line. -/
theorem column_iff (hrows : Rows o.skip (dumped o file) rows)
    (hsmall : o.skip + (dumped o file).length < 16 ^ 8) :
    (∀ line ∈ rows.map (rowText o.caps), ∀ line' ∈ rows.map (rowText o.caps),
        (beforeBar line).length = (beforeBar line').length) ↔
      ¬ (10 < (dumped o file).length ∧ (dumped o file).length % bufSize = 10) := by
  have hcolumn : ∀ row ∈ rows, (beforeBar (rowText o.caps row)).length =
      if row.2.length = 10 then 72 else 71 := fun row hrow ↦
    length_beforeBar ((hrows.offset_le row hrow).trans_lt hsmall) (hrows.length_le row hrow)
  constructor
  · rintro h ⟨hmany, hten⟩
    obtain ⟨row, hrow, hlength⟩ := hrows.exists_ten_iff.2 hten
    obtain ⟨row', hrow', hlength'⟩ := hrows.exists_ne_ten hmany hten
    have hsame := h _ (List.mem_map_of_mem hrow) _ (List.mem_map_of_mem hrow')
    rw [hcolumn row hrow, hcolumn row' hrow', if_pos hlength, if_neg hlength'] at hsame
    omega
  · intro h line hline line' hline'
    obtain ⟨row, hrow, rfl⟩ := List.mem_map.1 hline
    obtain ⟨row', hrow', rfl⟩ := List.mem_map.1 hline'
    by_cases hten : (dumped o file).length % bufSize = 10
    · have honly : (dumped o file).length = 10 := by
        unfold bufSize at hten h
        omega
      rw [hrows.eq_of_length honly, List.mem_singleton] at hrow hrow'
      rw [hrow, hrow']
    · have hne : ∀ row ∈ rows, row.2.length ≠ 10 := fun row hrow hlength ↦
        hten (hrows.exists_ten_iff.1 ⟨row, hrow, hlength⟩)
      rw [hcolumn row hrow, hcolumn row' hrow', if_neg (hne row hrow), if_neg (hne row' hrow')]

theorem readsBack_rowTexts_iff (hrows : Rows o.skip (dumped o file) rows)
    (hsmall : o.skip + (dumped o file).length < 16 ^ 8) :
    ReadsBack o file (unlines (rows.map (rowText o.caps))) ↔
      ¬ (10 < (dumped o file).length ∧ (dumped o file).length % bufSize = 10) := by
  rw [← column_iff hrows hsmall]
  constructor
  · intro h
    have hcolumn := h.column
    rwa [lines_rowTexts] at hcolumn
  · intro hcolumn
    refine ⟨?_, ?_, ?_⟩
    · rw [readDump_rowTexts, Option.map_some, hrows.flatMap_eq]
    · intro rows' hread before row after heq
      rw [readDump_rowTexts, Option.some.injEq] at hread
      exact hrows.offset_eq (hread.trans heq)
    · rwa [lines_rowTexts]

theorem offsets_small (hfile : file.length < 2 ^ 31) (hskip : o.skip < 2 ^ 31) :
    o.skip + (dumped o file).length < 16 ^ 8 := by
  have hle := length_dumped_le o file
  omega

/-- A dump can be read back just when its last line is not one of ten bytes that follows others. -/
theorem hexdump_readsBack_iff (hfile : file.length < 2 ^ 31) (hskip : o.skip < 2 ^ 31) :
    (∃ text, hexdump o file = some text ∧ ReadsBack o file text) ↔
      ¬ (10 < (dumped o file).length ∧ (dumped o file).length % bufSize = 10) := by
  obtain ⟨rows, hrows, hrun⟩ := hexdump_rows hfile hskip
  rw [← readsBack_rowTexts_iff hrows (offsets_small hfile hskip), hrun]
  simp

end Dump

/-- A file that fills one line and a half, without its last byte. -/
theorem hexdump_readsBack_of_29 :
    ∃ text, hexdump ⟨false, -1, 0⟩ (List.replicate 29 7) = some text ∧
      ReadsBack ⟨false, -1, 0⟩ (List.replicate 29 7) text :=
  (hexdump_readsBack_iff (by decide) (by decide)).2 (by decide)

/-- A file that fills one line and a half: the bar of the second line is in another column. -/
theorem hexdump_not_readsBack_of_30 :
    ¬ ∃ text, hexdump ⟨false, -1, 0⟩ (List.replicate 30 7) = some text ∧
      ReadsBack ⟨false, -1, 0⟩ (List.replicate 30 7) text := by
  rintro ⟨text, hrun, hback⟩
  have hfile : (List.replicate 30 (7 : UInt8)).length < 2 ^ 31 := by decide
  obtain ⟨rows, hrows, hrun'⟩ := hexdump_rows (o := ⟨false, -1, 0⟩) hfile (by decide)
  rw [hrun, Option.some.injEq] at hrun'
  rw [hrun', readsBack_rowTexts_iff hrows (offsets_small (by decide) (by decide))] at hback
  exact hback (by decide)

end Experimentation.FileOps
