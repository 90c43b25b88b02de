import Shim.Sbat.Allocation

/-! # The formats of the SBAT parsers

`parse_sbat_section` and `parse_sbat_var_data` on a text with a NUL behind it: which texts they
accept, and what the block holds that they return. Where `parse_csv_data` goes on behind the first
NUL, the rows that it finds there are taken for rows of the text.
-/

namespace Shim

open Bytes ByteMap Lines

/-- Every row has the required columns, and none of its first `n` is empty. -/
def SbatFormat (required n : ℕ) (rows : List CsvRow) : Prop :=
  ∀ row ∈ rows, required ≤ row.length ∧ ∀ c ∈ row.take n, c ≠ []

instance (required n : ℕ) (rows : List CsvRow) : Decidable (SbatFormat required n rows) :=
  inferInstanceAs (Decidable (∀ row ∈ rows, required ≤ row.length ∧ ∀ c ∈ row.take n, c ≠ []))

/-- A parser that ends with `result`, on rows: it succeeds on its format, and the block that it
returns holds the rows. -/
structure Parses {α : Type} (required n : ℕ) (holds : α → List CsvRow → Prop)
    (result : Except EfiStatus α) (rows : List CsvRow) : Prop where
  accepts : (∃ r, result = .ok r) ↔ SbatFormat required n rows
  holds : ∀ r, result = .ok r → holds r rows

/-- The block of `parse_sbat_section` holds some rows. -/
structure SectionBlock.Holds (heap : ℕ → UInt8) (r : SectionBlock) (rows : List CsvRow) : Prop where
  nEntries : r.nEntries = rows.length
  /-- The entries are the rows, in order, with their strings in the block. -/
  entries : ∀ (k : ℕ) (row : CsvRow), rows[k]? = some row →
    EntryAt r.mem r.block (r.block + r.allocsz) (readLe r.mem (r.entries + 8 * k) 8) 6 row
  /-- The last string ends where the block does. -/
  cursor : r.strtab = r.block + r.allocsz
  /-- Nothing is written outside of the block. -/
  inside : ∀ a, a < r.block ∨ r.block + r.allocsz ≤ a → r.mem a = heap a

/-- The block of `parse_sbat_var_data` holds some rows. -/
structure VarBlock.Holds (heap : ℕ → UInt8) (r : VarBlock) (rows : List CsvRow) : Prop where
  length : r.entryList.length = rows.length
  /-- The entries are the rows, in order, with their strings in the block. -/
  entries : ∀ (k : ℕ) (row : CsvRow), rows[k]? = some row →
    ∃ entry, r.entryList[k]? = some entry ∧
      EntryAt r.mem r.block (r.block + r.allocsz) entry 3 row
  /-- The last string ends where the block does. -/
  cursor : r.strtab = r.block + r.allocsz
  /-- Nothing is written outside of the block. -/
  inside : ∀ a, a < r.block ∨ r.block + r.allocsz ≤ a → r.mem a = heap a

/-- `parse_sbat_section` on a buffer, taken to have these rows. -/
abbrev ParsesSection (pool : ZeroPool) (heap : ℕ → UInt8) (b : CsvBuffer) : List CsvRow → Prop :=
  Parses 6 6 (SectionBlock.Holds heap) (fillSbatSection pool heap b.mem (b.dataEnd + 1))

/-- `parse_sbat_var_data` on a buffer, taken to have these rows. -/
abbrev ParsesVarData (pool : ZeroPool) (heap : ℕ → UInt8) (b : CsvBuffer) : List CsvRow → Prop :=
  Parses 2 3 (VarBlock.Holds heap) (fillSbatVarData pool heap b.mem (b.dataEnd + 1))

/-- Both parsers accept exactly their formats, and return the rows of the text in one block that
they fill exactly. -/
def SbatParsersExact (pool : ZeroPool) (heap : ℕ → UInt8) (b : CsvBuffer) : Prop :=
  ParsesSection pool heap b (csvRows 6 b.text) ∧ ParsesVarData pool heap b (csvRows 3 b.text)

/-! ## The rows of a buffer -/

section Rows

variable {l line : List UInt8} {ls : List (List UInt8)} {n required : ℕ}

/-- The lines that the loop takes, with a byte behind each, are no longer than the text with one. -/
theorem LoopLines.sum_le (h : LoopLines l ls) :
    (ls.map fun line => line.length + 1).sum ≤ l.length + 1 := by
  induction h with
  | done => exact Nat.zero_le _
  | stop => exact Nat.zero_le _
  | blank => exact Nat.zero_le _
  | skip hds hne h ih =>
    simp only [List.length_append, List.length_cons]
    omega
  | last hds hrow hne =>
    simp only [List.map_cons, List.map_nil, List.sum_cons, List.sum_nil, List.length_append]
    omega
  | lastNul l hds hrow hne =>
    simp only [List.map_cons, List.map_nil, List.sum_cons, List.sum_nil, List.length_append]
    omega
  | row hds hrow hne hd h ih =>
    simp only [List.map_cons, List.sum_cons, List.length_append, List.length_cons]
    omega

/-- The columns of a line take no more than the line. -/
theorem rowSize_lineColumns_le (n : ℕ) (line : List UInt8) :
    rowSize (lineColumns n line) ≤ line.length + 1 := by
  rw [lineColumns]
  split_ifs
  · exact sum_fields_le comma n line
  · exact Nat.zero_le _

/-- There are no more of them than are asked for. -/
theorem length_lineColumns_le (n : ℕ) (line : List UInt8) : (lineColumns n line).length ≤ n := by
  rw [lineColumns]
  split_ifs
  · exact length_fields_le comma n line
  · exact Nat.zero_le _

/-- What the passes rely on in the rows of a buffer. -/
structure RowsFit (n : ℕ) (rows : List CsvRow) : Prop where
  length_le : ∀ row ∈ rows, row.length ≤ n
  nul : ∀ row ∈ rows, ∀ c ∈ row, 0 ∉ c
  small : rows.length + stringsSize rows < 2 ^ 40

/-- All rows together take no more than twice the text. -/
theorem length_add_stringsSize_le (n : ℕ) (ls : List (List UInt8)) :
    (ls.map (lineColumns n)).length + stringsSize (ls.map (lineColumns n)) ≤
      2 * (ls.map fun line => line.length + 1).sum := by
  induction ls with
  | nil => exact Nat.zero_le _
  | cons line ls ih =>
    have hline := rowSize_lineColumns_le n line
    simp only [List.map_cons, List.length_cons, List.sum_cons, stringsSize_cons] at ih ⊢
    omega

/-- Dropping the byte order mark makes nothing longer. -/
theorem length_dropBom_le (text : List UInt8) : (dropBom text).length ≤ text.length := by
  rw [dropBom]
  split_ifs
  · rw [List.length_drop]
    omega
  · exact le_rfl

/-- The rows of a buffer fit into memory. -/
theorem CsvBuffer.rowsFit (b : CsvBuffer) (hn : 0 < n) : RowsFit n (b.rows n) := by
  obtain ⟨ls, hlines, hrows⟩ := b.rows_eq hn
  refine ⟨fun row hrow => ?_, fun row hrow c hc => ?_, ?_⟩
  · rw [hrows] at hrow
    obtain ⟨line, -, rfl⟩ := List.mem_map.mp hrow
    exact length_lineColumns_le n line
  · rw [CsvBuffer.rows] at hrow
    split at hrow
    · obtain ⟨ps, -, rfl⟩ := List.mem_map.mp hrow
      obtain ⟨p, -, rfl⟩ := List.mem_map.mp hc
      exact zero_notMem_cstr _ p
    · cases hrow
  · have hsum := hlines.sum_le
    have hlen := length_add_stringsSize_le n ls
    have htext := length_dropBom_le (slice b.mem 0 b.dataEnd)
    have hsmall := b.small
    rw [length_slice] at htext
    rw [CsvBuffer.text] at hsum
    rw [hrows]
    omega

/-- Rows of `n` columns at most are in the format when the first pass lets them through. -/
theorem RowsFit.sbatFormat_iff {rows : List CsvRow} (h : RowsFit n rows) :
    SbatFormat required n rows ↔ ∀ row ∈ rows, RowOk required row := by
  refine forall₂_congr fun row hrow => ?_
  rw [List.take_of_length_le (h.length_le row hrow)]
  rfl

/-- Where a row needs two columns, one without a comma is refused in any case. -/
theorem sbatFormat_lineColumns (hrequired : 1 < required) (hn : 0 < n) (ls : List (List UInt8)) :
    (SbatFormat required n (ls.map (lineColumns n)) ↔
      SbatFormat required n (ls.map (fields comma n))) ∧
      (SbatFormat required n (ls.map (lineColumns n)) →
        ls.map (lineColumns n) = ls.map (fields comma n)) := by
  obtain ⟨n, rfl⟩ := Nat.exists_eq_succ_of_ne_zero hn.ne'
  have hcomma : ∀ line : List UInt8, comma ∉ line →
      ¬ (required ≤ (lineColumns (n + 1) line).length) ∧
        ¬ (required ≤ (fields comma (n + 1) line).length) := fun line h => by
    rw [lineColumns, if_neg h, fields_last h, List.length_nil, List.length_singleton]
    omega
  refine ⟨?_, fun h => List.map_congr_left fun line hline => ?_⟩
  · simp only [SbatFormat, List.forall_mem_map]
    refine forall₂_congr fun line _ => ?_
    by_cases h : comma ∈ line
    · rw [lineColumns, if_pos h]
    · exact iff_of_false (fun h' => (hcomma line h).1 h'.1) fun h' => (hcomma line h).2 h'.1
  · have hrow := (h _ (List.mem_map_of_mem hline)).1
    by_cases hmem : comma ∈ line
    · rw [lineColumns, if_pos hmem]
    · exact absurd hrow (hcomma line hmem).1

/-- What the parser accepts has the format, as far as the first NUL; and the rows are those of the
text, unless the parser goes on behind it. -/
theorem CsvBuffer.sbatFormat_csvRows (b : CsvBuffer) (hrequired : 1 < required) (hn : 0 < n) :
    (SbatFormat required n (b.rows n) → SbatFormat required n (csvRows n b.text)) ∧
      (resumes b.text = true → (csvRows n b.text).length < (b.rows n).length) ∧
      (resumes b.text = false → SbatFormat required n (csvRows n b.text) →
        b.rows n = csvRows n b.text) := by
  obtain ⟨ls, hlines, hrows⟩ := b.rows_eq hn
  obtain ⟨extra, rfl, hextra⟩ := hlines.eq_csvLines
  obtain ⟨hformat, heq⟩ := sbatFormat_lineColumns hrequired hn (csvLines b.text)
  rw [hrows, List.map_append, csvRows]
  refine ⟨fun h => hformat.mp fun row hrow => h row (List.mem_append_left _ hrow), fun hres => ?_,
    fun hres h => ?_⟩
  · have hpos := List.length_pos_iff.mpr (hextra.mpr hres)
    simp only [List.length_append, List.length_map]
    omega
  · have hnil : extra = [] := by
      by_contra hne
      rw [hextra.mp hne] at hres
      cases hres
    rw [hnil, List.map_nil, List.append_nil]
    exact heq (hformat.mpr h)

/-- The parser comes to the rows of the buffer. -/
theorem CsvBuffer.csvDataRows_eq (b : CsvBuffer) (hpos : 0 < b.dataEnd) (hn : 0 < n) :
    csvDataRows b.mem b.dataEnd n = .ok (b.rows n) := by
  rw [csvDataRows, CsvBuffer.rows]
  generalize hdata : parseCsvData b.mem b.dataEnd n = r
  cases r with
  | ok r => rfl
  | error e =>
    rw [parseCsvData_eq hpos.ne' hn.ne'] at hdata
    cases hdata

end Rows

/-! ## The block of a parser -/

section Block

variable {nFields entrySize entries entry strtab block allocsz : ℕ} {rows : List CsvRow}

/-- The second pass in a zeroed block that the table, the entries and the strings make up. -/
theorem RowsFit.fillRows_block (heap : ℕ → UInt8) (hfit : RowsFit nFields rows)
    (hlaid : Laid entrySize entries entry 0 strtab rows) (hentries : block ≤ entries)
    (hentry : block ≤ entry) (hend : strtab + stringsSize rows = block + allocsz)
    (hsize : 8 * nFields ≤ entrySize) (hpos : 0 < entrySize) :
    let r := fillRows entrySize entries rows (zero heap block allocsz) entry 0 strtab
    r.2 = block + allocsz ∧ (∀ a, a < block ∨ block + allocsz ≤ a → r.1 a = heap a) ∧
      ∀ (k : ℕ) (row : CsvRow), rows[k]? = some row →
        readLe r.1 (entries + 8 * k) 8 = entry + entrySize * k ∧
          EntryAt r.1 block (block + allocsz) (entry + entrySize * k) nFields row := by
  intro r
  have hentry_le := hlaid.entry_le
  have htable_le := hlaid.table_le
  have hlen : ∀ row ∈ rows, 8 * row.length ≤ entrySize := fun row hrow => by
    have := hfit.length_le row hrow
    omega
  refine ⟨?_, fun a ha => ?_, fun k row hk => ?_⟩
  · rw [← hend]
    exact fillRows_cursor entrySize entries rows _ entry 0 strtab
  · have hframe : r.1 a = zero heap block allocsz a :=
      fillRows_frame hlen (by omega) (by omega) (by omega)
    rw [hframe, zero, fill_outside ha]
  · have hzero : ∀ a, entry ≤ a → a < entry + entrySize * rows.length →
        zero heap block allocsz a = 0 := fun a ha ha' => by
      obtain ⟨i, rfl⟩ := Nat.exists_eq_add_of_le (hentry.trans ha)
      exact fill_inside (by omega)
    obtain ⟨hread, hat⟩ := fillRows_spec _ hlaid hsize hpos hfit.length_le hfit.nul hzero hk
    rw [Nat.zero_add] at hread
    exact ⟨hread, hat.mono (by omega) hend.le⟩

end Block

/-! ## The parsers -/

section Parsers

variable (pool : ZeroPool) (heap : ℕ → UInt8) {b : CsvBuffer}

/-- The block of `parse_sbat_section` for rows that it accepts. -/
def sectionBlock (pool : ZeroPool) (heap : ℕ → UInt8) (rows : List CsvRow) : SectionBlock :=
  let allocsz := (8 + sbatSectionEntrySize) * rows.length + stringsSize rows
  let block := pool.address allocsz
  let entry := block + 8 * rows.length
  let filled := fillRows sbatSectionEntrySize block rows (zero heap block allocsz) entry 0
    (entry + sbatSectionEntrySize * rows.length)
  ⟨filled.1, block, rows.length, block, allocsz, filled.2⟩

/-- The block of `parse_sbat_var_data` for rows that it accepts. -/
def varBlock (pool : ZeroPool) (heap : ℕ → UInt8) (rows : List CsvRow) : VarBlock :=
  let allocsz := (8 + sbatVarEntrySize) * rows.length + stringsSize rows
  let block := pool.address allocsz
  let entries := block + sbatVarEntrySize * rows.length
  let filled := fillRows sbatVarEntrySize entries rows (zero heap block allocsz) block 0
    (entries + 8 * rows.length)
  ⟨filled.1, (List.range rows.length).map fun i => block + sbatVarEntrySize * i, block, allocsz,
    filled.2⟩

/-- `parse_sbat_section` in memory: the block it fills, or the error. -/
theorem fillSbatSection_eq (hpos : 0 < b.dataEnd) :
    fillSbatSection pool heap b.mem (b.dataEnd + 1) =
      if ∀ row ∈ b.rows 6, RowOk 6 row then
        if b.rows 6 = [] then .ok ⟨heap, 0, 0, 0, 0, 0⟩
        else .ok (sectionBlock pool heap (b.rows 6))
      else .error .invalidParameter := by
  rw [fillSbatSection, if_neg (Nat.succ_ne_zero _), Nat.add_sub_cancel, sbatSectionColumns,
    b.csvDataRows_eq hpos (by decide)]
  dsimp only
  rw [sizeRows_eq]
  by_cases hok : ∀ row ∈ b.rows 6, RowOk 6 row
  · rw [if_pos hok, if_pos hok]
    dsimp only
    simp only [Nat.zero_add, List.length_eq_zero_iff]
    by_cases hnil : b.rows 6 = []
    · rw [if_pos hnil, if_pos hnil]
    · rw [if_neg hnil, if_neg hnil, if_neg (pool.ne_null _)]
      rfl
  · rw [if_neg hok, if_neg hok]

/-- `parse_sbat_var_data` in memory: the block it fills, or the error. -/
theorem fillSbatVarData_eq (hpos : 0 < b.dataEnd) :
    fillSbatVarData pool heap b.mem (b.dataEnd + 1) =
      if ∀ row ∈ b.rows 3, RowOk 2 row then .ok (varBlock pool heap (b.rows 3))
      else .error .invalidParameter := by
  rw [fillSbatVarData, if_neg (Nat.succ_ne_zero _), Nat.add_sub_cancel, sbatVarRequiredColumns,
    sbatVarColumns, b.csvDataRows_eq hpos (by decide)]
  dsimp only
  rw [sizeRows_eq]
  by_cases hok : ∀ row ∈ b.rows 3, RowOk 2 row
  · rw [if_pos hok, if_pos hok]
    dsimp only
    simp only [Nat.zero_add]
    rw [if_neg (pool.ne_null _)]
    rfl
  · rw [if_neg hok, if_neg hok]

/-- The table comes first, then the entries, then the strings. -/
theorem holds_sectionBlock {rows : List CsvRow} (hfit : RowsFit 6 rows) :
    (sectionBlock pool heap rows).Holds heap rows := by
  set r := sectionBlock pool heap rows with hr
  have hsmall := hfit.small
  have hall : r.allocsz = (8 + 48) * rows.length + stringsSize rows := rfl
  have hfits : r.block + r.allocsz ≤ 2 ^ 64 := pool.fits r.allocsz (by omega)
  have hlaid : Laid 48 r.block (r.block + 8 * rows.length) 0
      (r.block + 8 * rows.length + 48 * rows.length) rows :=
    ⟨.inl (by omega), le_rfl, by omega, by omega⟩
  have hend : r.block + 8 * rows.length + 48 * rows.length + stringsSize rows =
      r.block + r.allocsz := by omega
  obtain ⟨hcursor, hinside, hentries⟩ := hfit.fillRows_block heap hlaid le_rfl (by omega) hend
    (by decide) (by decide)
  refine ⟨rfl, fun k row hk => ?_, hcursor, hinside⟩
  obtain ⟨hread, hat⟩ := hentries k row hk
  have hentry : readLe r.mem (r.entries + 8 * k) 8 = r.block + 8 * rows.length + 48 * k := hread
  rw [hentry]
  exact hat

/-- The entries come first, then the table, then the strings. -/
theorem holds_varBlock {rows : List CsvRow} (hfit : RowsFit 3 rows) :
    (varBlock pool heap rows).Holds heap rows := by
  set r := varBlock pool heap rows with hr
  have hsmall := hfit.small
  have hall : r.allocsz = (8 + 40) * rows.length + stringsSize rows := rfl
  have hfits : r.block + r.allocsz ≤ 2 ^ 64 := pool.fits r.allocsz (by omega)
  have hlaid : Laid 40 (r.block + 40 * rows.length) r.block 0
      (r.block + 40 * rows.length + 8 * rows.length) rows :=
    ⟨.inr (by omega), by omega, by omega, by omega⟩
  have hend : r.block + 40 * rows.length + 8 * rows.length + stringsSize rows =
      r.block + r.allocsz := by omega
  obtain ⟨hcursor, hinside, hentries⟩ := hfit.fillRows_block heap hlaid (by omega) le_rfl hend
    (by decide) (by decide)
  refine ⟨?_, fun k row hk => ⟨r.block + 40 * k, ?_, (hentries k row hk).2⟩, hcursor, hinside⟩
  · change ((List.range rows.length).map _).length = _
    rw [List.length_map, List.length_range]
  · have hlt := (List.getElem?_eq_some_iff.mp hk).1
    change ((List.range rows.length).map fun i => r.block + 40 * i)[k]? = _
    rw [List.getElem?_map, List.getElem?_range hlt]
    rfl

/-- `parse_sbat_section` is exact for the rows that `parse_csv_data` finds. -/
theorem parsesSection_rows (hpos : 0 < b.dataEnd) : ParsesSection pool heap b (b.rows 6) := by
  have hfit := b.rowsFit (show 0 < 6 by decide)
  unfold ParsesSection
  rw [fillSbatSection_eq pool heap hpos]
  by_cases hok : ∀ row ∈ b.rows 6, RowOk 6 row
  · rw [if_pos hok]
    by_cases hnil : b.rows 6 = []
    · -- an accepted text without rows leaves everything as it was
      rw [if_pos hnil, hnil]
      refine ⟨iff_of_true ⟨_, rfl⟩ (by simp [SbatFormat]), fun r hr => ?_⟩
      obtain rfl := Except.ok.inj hr
      exact ⟨rfl, fun k row hk => by simp at hk, rfl, fun a _ => rfl⟩
    · rw [if_neg hnil]
      refine ⟨iff_of_true ⟨_, rfl⟩ (hfit.sbatFormat_iff.mpr hok), fun r hr => ?_⟩
      obtain rfl := Except.ok.inj hr
      exact holds_sectionBlock pool heap hfit
  · rw [if_neg hok]
    exact ⟨iff_of_false (by simp) fun h => hok (hfit.sbatFormat_iff.mp h), by simp⟩

/-- And so is `parse_sbat_var_data`. -/
theorem parsesVarData_rows (hpos : 0 < b.dataEnd) : ParsesVarData pool heap b (b.rows 3) := by
  have hfit := b.rowsFit (show 0 < 3 by decide)
  unfold ParsesVarData
  rw [fillSbatVarData_eq pool heap hpos]
  by_cases hok : ∀ row ∈ b.rows 3, RowOk 2 row
  · rw [if_pos hok]
    refine ⟨iff_of_true ⟨_, rfl⟩ (hfit.sbatFormat_iff.mpr hok), fun r hr => ?_⟩
    obtain rfl := Except.ok.inj hr
    exact holds_varBlock pool heap hfit
  · rw [if_neg hok]
    exact ⟨iff_of_false (by simp) fun h => hok (hfit.sbatFormat_iff.mp h), by simp⟩

/-- A parser that is exact for the rows found is exact for those of the text, unless these are in
its format and there are more behind the first NUL. -/
theorem Parses.csvRows_iff {α : Type} {required n : ℕ} {holds : α → List CsvRow → Prop}
    {result : Except EfiStatus α} (h : Parses required n holds result (b.rows n))
    (hlength : ∀ r rows rows', holds r rows → holds r rows' → rows.length = rows'.length)
    (hrequired : 1 < required) (hn : 0 < n) : Parses required n holds result (csvRows n b.text) ↔
      (resumes b.text = true → ¬ SbatFormat required n (csvRows n b.text)) := by
  obtain ⟨hformat, hmore, heq⟩ := b.sbatFormat_csvRows hrequired hn
  constructor
  · -- a block cannot hold both the rows of the text and more of them
    intro h' hres hin
    obtain ⟨r, hr⟩ := h'.accepts.mpr hin
    exact (hmore hres).ne (hlength r _ _ (h'.holds r hr) (h.holds r hr))
  · intro hcond
    by_cases hin : SbatFormat required n (csvRows n b.text)
    · have hres : resumes b.text = false := by simpa [hin] using hcond
      rw [← heq hres hin]
      exact h
    · -- nothing is accepted
      have hrefused : ∀ r, result ≠ .ok r := fun r hr => hin (hformat (h.accepts.mp ⟨r, hr⟩))
      exact ⟨iff_of_false (fun ⟨r, hr⟩ => hrefused r hr) hin, fun r hr => absurd hr (hrefused r)⟩

/-- A section is parsed by the grammar unless the code goes on behind its end. -/
theorem parsesSection_csvRows_iff (hpos : 0 < b.dataEnd) :
    ParsesSection pool heap b (csvRows 6 b.text) ↔
      (resumes b.text = true → ¬ SbatFormat 6 6 (csvRows 6 b.text)) :=
  (parsesSection_rows pool heap hpos).csvRows_iff
    (fun _ _ _ h h' => h.nEntries.symm.trans h'.nEntries) (by decide) (by decide)

/-- So are the data of a variable. -/
theorem parsesVarData_csvRows_iff (hpos : 0 < b.dataEnd) :
    ParsesVarData pool heap b (csvRows 3 b.text) ↔
      (resumes b.text = true → ¬ SbatFormat 2 3 (csvRows 3 b.text)) :=
  (parsesVarData_rows pool heap hpos).csvRows_iff
    (fun _ _ _ h h' => h.length.symm.trans h'.length) (by decide) (by decide)

/-- The section entry of a row of texts. -/
def sectionEntryOf (row : CsvRow) : SbatSectionEntry where
  componentName := row.getD 0 []
  componentGeneration := row.getD 1 []
  vendorName := row.getD 2 []
  vendorPackageName := row.getD 3 []
  vendorVersion := row.getD 4 []
  vendorUrl := row.getD 5 []

/-- The variable entry of a row of texts. -/
def varEntryOf (row : CsvRow) : SbatVarEntry where
  componentName := row.getD 0 []
  componentGeneration := row.getD 1 []
  sbatDatestamp := row[2]?

/-- A row is accepted if its columns are there and not empty. -/
theorem rowAccepted_iff (m : Mem) (required : ℕ) (row : List ℕ) :
    rowAccepted m required row = true ↔ RowOk required (row.map (cstr m)) := by
  simp only [rowAccepted, RowOk, Bool.and_eq_true, decide_eq_true_eq, List.all_eq_true,
    List.length_map, List.forall_mem_map]
  refine and_congr_right fun _ => forall₂_congr fun p _ => ?_
  by_cases h : peek m p = 0
  · simp [h, cstr_of_zero h]
  · simp [h, cstr_of_ne h]

/-- Without the block, the parsers return the entries of the same rows. -/
theorem parseSbatRows_eq_rows {α : Type} {entry : Mem → List ℕ → α} {entryOf : CsvRow → α}
    {n required : ℕ} (hentry : ∀ m row, entry m row = entryOf (row.map (cstr m)))
    (hpos : 0 < b.dataEnd) (hn : 0 < n) :
    parseSbatRows entry n required b.mem (b.dataEnd + 1) =
      if ∀ row ∈ b.rows n, RowOk required row then .ok ((b.rows n).map entryOf)
      else .error .invalidParameter := by
  have hdata := parseCsvData_eq (m := b.mem) hpos.ne' hn.ne'
  rw [CsvBuffer.rows, hdata]
  dsimp only
  rw [parseSbatRows_eq entry (Nat.succ_ne_zero _) hdata]
  refine ite_congr (propext ?_) (fun _ => ?_) fun _ => rfl
  · simp only [List.all_eq_true, rowAccepted_iff, List.forall_mem_map]
  · rw [List.map_map]
    exact congrArg _ (List.map_congr_left fun row _ => hentry _ row)

/-- `parse_sbat_section` by the rows of the buffer. -/
theorem parseSbatSection_eq_rows (hpos : 0 < b.dataEnd) :
    parseSbatSection b.mem (b.dataEnd + 1) =
      if ∀ row ∈ b.rows 6, RowOk 6 row then .ok ((b.rows 6).map sectionEntryOf)
      else .error .invalidParameter :=
  parseSbatRows_eq_rows (fun m row => by simp [sbatSectionEntry, sectionEntryOf, columnText]) hpos
    (by decide)

/-- `parse_sbat_var_data` by the rows of the buffer. -/
theorem parseSbatVarData_eq_rows (hpos : 0 < b.dataEnd) :
    parseSbatVarData b.mem (b.dataEnd + 1) =
      if ∀ row ∈ b.rows 3, RowOk 2 row then .ok ((b.rows 3).map varEntryOf)
      else .error .invalidParameter :=
  parseSbatRows_eq_rows (fun m row => by simp [sbatVarEntry, varEntryOf, columnText]) hpos
    (by decide)

/-- A text in the section's format is in the variable's. -/
theorem sbatFormat_of_section (text : List UInt8) (h : SbatFormat 6 6 (csvRows 6 text)) :
    SbatFormat 2 3 (csvRows 3 text) := by
  simp only [SbatFormat, csvRows, List.forall_mem_map] at h ⊢
  intro line hline
  obtain ⟨hlen, hne⟩ := h line hline
  have hfields : fields comma 3 line = (fields comma 6 line).take 3 := by
    rw [fields, fields, List.take_take]
    rfl
  rw [hfields, List.length_take, List.take_take]
  exact ⟨by omega, fun c hc => hne c (List.take_subset_take_left _ (by decide) hc)⟩

/-- The parsers are exact, exactly unless the parser goes on behind the first NUL of a text whose
rows are in the format. -/
theorem sbatParsersExact_iff (b : CsvBuffer) (hpos : 0 < b.dataEnd) :
    SbatParsersExact pool heap b ↔
      (resumes b.text = true → ¬ SbatFormat 2 3 (csvRows 3 b.text)) := by
  unfold SbatParsersExact
  rw [parsesSection_csvRows_iff pool heap hpos, parsesVarData_csvRows_iff pool heap hpos]
  exact ⟨And.right, fun h => ⟨fun hres hin => h hres (sbatFormat_of_section _ hin), h⟩⟩

/-- A pool that hands out one page. -/
def pagePool : ZeroPool := ⟨fun _ => 4096, fun _ => by decide, fun _ _ => by omega⟩

/-- `"a,1\nb,2,3"` -/
theorem sbatParsersExact_twoRows : SbatParsersExact pagePool (fun _ => 0)
    (csvBufferOf [97, 44, 49, 10, 98, 44, 50, 44, 51] (by decide)) :=
  (sbatParsersExact_iff pagePool (fun _ => 0) _ (by decide)).mpr (by decide +kernel)

/-- `"a,b,c,d,e,f\n\n\0x,y"`: the one row is in both formats. `parse_sbat_section` refuses the text,
and `parse_sbat_var_data` returns two entries. -/
theorem not_sbatParsersExact_blankLine : ¬ SbatParsersExact pagePool (fun _ => 0)
    (csvBufferOf [97, 44, 98, 44, 99, 44, 100, 44, 101, 44, 102, 10, 10, 0, 120, 44, 121]
      (by decide)) := by
  intro h
  have hsection := (parsesSection_csvRows_iff pagePool (fun _ => 0) (by decide)).mp h.1
  exact hsection (by decide +kernel) (by decide +kernel)

end Parsers

end Shim
