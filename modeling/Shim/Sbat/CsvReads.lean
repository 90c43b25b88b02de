import Shim.Common.Event
import Shim.Sbat.CsvGrammar

/-! # The accesses of the CSV parser

The bytes that `parse_csv_data` and its callees touch, in the order they do; a store counts as a
read of its byte. With a NUL at `data_end` all of them lie in the buffer, and the rows are those of
the grammar unless a line has no comma or the parser goes on behind the first NUL.
-/

namespace Shim

open Bytes Lines
open Event (Inside AllSound)

/-! ## The accesses -/

/-- The bytes that `strnchrnul` tests. -/
def strnchrnulRead (m : Mem) (s max : ℕ) (c : UInt8) : Event :=
  .read s (min (strnchrnulScan m c max s + 1) max)

/-- The delimiter loop of `strntoken`: each search, and the test of `*tokend`. -/
def strntokenScanReads (m : Mem) (str max : ℕ) (token : Option ℕ) (state : UInt8) :
    TokenScan → List UInt8 → List Event
  | _, [] => []
  | scan, delim :: delims =>
    let scan := strntokenStep m str max token state scan delim
    strnchrnulRead m str max delim :: .read scan.tokend 1 ::
      strntokenScanReads m str max token state scan delims

/-- `strntoken`. -/
def strntokenReads (m : Mem) (str max : ℕ) (delims : List UInt8) (token : Option ℕ)
    (state : UInt8) : List Event :=
  if max = 0 then []
  else
    let start : TokenScan :=
      ⟨str + (max - 1), false, token.isNone && max = 1 && peek m str = 0⟩
    let scan := delims.foldl (strntokenStep m str max token state) start
    (if token.isNone && max = 1 then [.read str 1] else []) ++
      strntokenScanReads m str max token state start delims ++
      if scan.isdelim then [.read scan.tokend 1] else []

/-- The column loop of `parse_csv_line`: the tokens, and `strlen` of each. -/
def parseCsvColumnsReads (m : Mem) : ℕ → ℕ → ℕ → Option ℕ → UInt8 → List Event
  | 0, _, _, _, _ => []
  | n + 1, next, max, token, state =>
    let r := strntoken m next max [comma] token state
    strntokenReads m next max [comma] token state ++
      if r.valid then
        let len := strlen r.mem next
        .read next (len + 1) ::
          parseCsvColumnsReads r.mem n (next + len + 1) (sub64 max (len + 1)) r.token r.state
      else []

/-- The delimiter skip. -/
def skipRowDelimsReads (m : Mem) : ℕ → ℕ → List Event
  | 0, _ => []
  | max + 1, line =>
    .read line 1 :: if peek m line ∈ rowDelims then skipRowDelimsReads m max (line + 1) else []

/-- The search for the end of a row. -/
def findRowEndReads (m : Mem) (line max : ℕ) : List Event :=
  rowDelims.map (strnchrnulRead m line max)

/-- The loop of `parse_csv_data`. -/
def parseCsvRowsReads (dataEnd nColumns : ℕ) : ℕ → Mem → ℕ → List Event
  | 0, _, _ => []
  | fuel + 1, m, line =>
    if line ≤ dataEnd then
      .read line 1 ::
        if peek m line ≠ 0 then
          let skip := skipRowDelims m (csvMax line dataEnd) line
          let end_ := findRowEnd m skip.1 skip.2 dataEnd
          let max := csvMax skip.1 end_
          let eof := peek m end_ = 0
          let m' := clear m end_
          skipRowDelimsReads m (csvMax line dataEnd) line ++ findRowEndReads m skip.1 skip.2 ++
            .read end_ 1 ::
            if skip.1 = dataEnd ∨ max = 0 then parseCsvRowsReads dataEnd nColumns fuel m' (end_ + 1)
            else
              let end_ := findRowEnd m' skip.1 max end_
              findRowEndReads m' skip.1 max ++
                parseCsvColumnsReads m' nColumns skip.1 max none 0 ++
                if eof then []
                else
                  let row := parseCsvLine m' skip.1 max nColumns
                  parseCsvRowsReads dataEnd nColumns fuel row.1 (end_ + 1)
        else []
    else []

/-- `parse_csv_data`, with the comparison of `is_utf8_bom`. -/
def parseCsvDataReads (m : Mem) (dataEnd nColumns : ℕ) : List Event :=
  if dataEnd = 0 ∨ nColumns = 0 then []
  else
    .read 0 (min 3 (csvMax 0 dataEnd)) ::
      parseCsvRowsReads dataEnd nColumns (dataEnd + 2) m (csvStart m dataEnd)

/-! ## They stay in the buffer -/

section Sound

variable {m : Mem} {size s str max : ℕ}

/-- The search for a character stays inside. -/
theorem strnchrnulRead_sound (h : s + max ≤ size) (c : UInt8) :
    (strnchrnulRead m s max c).Sound size := .inr (by omega)

/-- So does that for the delimiters of a token. -/
theorem strntokenScanReads_sound (h : str + max ≤ size) (token : Option ℕ) (state : UInt8)
    (delims : List UInt8) (scan : TokenScan) (hle : str ≤ scan.tokend) (hlt : scan.tokend < size) :
    AllSound size (strntokenScanReads m str max token state scan delims) := by
  induction delims generalizing scan with
  | nil => exact Event.allSound_nil
  | cons delim delims ih =>
    have hstep := strntokenStep_tokend m str max token state scan delim hle
    rw [strntokenScanReads]
    simp only [Event.allSound_cons]
    exact ⟨strnchrnulRead_sound h delim, .inr (by omega), ih _ hstep.1 (by omega)⟩

/-- So does taking a token. -/
theorem strntokenReads_sound (h : str + max ≤ size) (delims : List UInt8) (token : Option ℕ)
    (state : UInt8) : AllSound size (strntokenReads m str max delims token state) := by
  rw [strntokenReads]
  by_cases h0 : max = 0
  · rw [if_pos h0]
    exact Event.allSound_nil
  · rw [if_neg h0]
    simp only [Event.allSound_append]
    refine ⟨⟨?_, ?_⟩, ?_⟩
    · split_ifs
      · exact Event.allSound_cons.mpr ⟨.inr (by omega), Event.allSound_nil⟩
      · exact Event.allSound_nil
    · exact strntokenScanReads_sound h token state delims _ (by simp) (by simp only; omega)
    · have htokend := strntoken_fold_tokend m str max token state delims
        ⟨str + (max - 1), false, token.isNone && max = 1 && peek m str = 0⟩ (by simp)
      split_ifs
      · exact Event.allSound_cons.mpr ⟨.inr (by dsimp only at htokend ⊢; omega),
          Event.allSound_nil⟩
      · exact Event.allSound_nil

/-- The columns of a terminated line are read inside it. -/
theorem parseCsvColumnsReads_sound {next : ℕ} (h : next + max ≤ size) (hmax : max < 2 ^ 64)
    (hz : 0 < max → peek m (next + (max - 1)) = 0) (n : ℕ) (token : Option ℕ) (state : UInt8) :
    AllSound size (parseCsvColumnsReads m n next max token state) := by
  induction n generalizing m next max token state with
  | zero => exact Event.allSound_nil
  | succ n ih =>
    rw [parseCsvColumnsReads]
    refine Event.allSound_append.mpr ⟨strntokenReads_sound h [comma] token state, ?_⟩
    by_cases hv : (strntoken m next max [comma] token state).valid
    · have hpos := pos_of_valid hv
      have hlen := strlen_token_le (hz hpos) [comma] token state
      have hz' := strntoken_zero (hz hpos) next max [comma] token state
      rw [if_pos hv]
      dsimp only
      generalize strlen (strntoken m next max [comma] token state).mem next = len at hlen
      rw [sub64_of_le (by omega) hmax]
      refine Event.allSound_cons.mpr ⟨.inr (by omega), ih (by omega) (by omega) (fun _ => ?_) _ _⟩
      rw [show next + len + 1 + (max - (len + 1) - 1) = next + (max - 1) by omega]
      exact hz'
    · rw [if_neg hv]
      exact Event.allSound_nil

/-- So does passing over the ends of rows. -/
theorem skipRowDelimsReads_sound (max line : ℕ) (h : line + max ≤ size) :
    AllSound size (skipRowDelimsReads m max line) := by
  induction max generalizing line with
  | zero => exact Event.allSound_nil
  | succ max ih =>
    rw [skipRowDelimsReads]
    refine Event.allSound_cons.mpr ⟨.inr (by omega), ?_⟩
    split_ifs
    · exact ih (line + 1) (by omega)
    · exact Event.allSound_nil

/-- So does the search for the end of a row. -/
theorem findRowEndReads_sound (h : s + max ≤ size) : AllSound size (findRowEndReads m s max) := by
  intro e he
  obtain ⟨c, -, rfl⟩ := List.mem_map.mp he
  exact strnchrnulRead_sound h c

/-- The row loop stays in a buffer that ends in a NUL. -/
theorem parseCsvRowsReads_sound {line dataEnd : ℕ} (n : ℕ) (hend : dataEnd < 2 ^ 63) (fuel : ℕ)
    (hz : peek m dataEnd = 0) :
    AllSound (dataEnd + 1) (parseCsvRowsReads dataEnd n fuel m line) := by
  induction fuel generalizing m line with
  | zero => exact Event.allSound_nil
  | succ fuel ih =>
    rw [parseCsvRowsReads]
    by_cases hline : line ≤ dataEnd
    swap
    · rw [if_neg hline]
      exact Event.allSound_nil
    rw [if_pos hline]
    refine Event.allSound_cons.mpr ⟨.inr (by omega), ?_⟩
    by_cases hnul : peek m line ≠ 0
    swap
    · rw [if_neg hnul]
      exact Event.allSound_nil
    -- the byte at the end is a NUL, so the line starts in front of it
    have hlt : line < dataEnd := lt_of_le_of_ne hline (by rintro rfl; exact hnul hz)
    obtain ⟨l, hskip, hlinel, hl, -, -⟩ := skipRowDelims_stop hz hlt.le
    obtain ⟨e, he, hle, hed, -, -⟩ := findRowEnd_stop hz hl
    have hz' : peek (clear m e) dataEnd = 0 := by rw [peek_clear, hz, ite_self]
    rw [if_pos hnul, csvMax_of_lt hlt (by omega)]
    simp only [hskip, he, Event.allSound_append, Event.allSound_cons]
    refine ⟨⟨skipRowDelimsReads_sound _ _ (by omega), findRowEndReads_sound (by omega)⟩,
      .inr (by omega), ?_⟩
    by_cases hblank : l = dataEnd ∨ csvMax l e = 0
    · rw [if_pos hblank]
      exact ih hz'
    rw [if_neg hblank]
    -- a row of at least one byte
    have hlte : l < e := by
      refine lt_of_le_of_ne hle ?_
      rintro rfl
      exact hblank (.inr (csvMax_self l (by omega)))
    rw [csvMax_of_lt hlte (by omega)]
    simp only [Event.allSound_append]
    refine ⟨⟨findRowEndReads_sound (by omega), ?_⟩, ?_⟩
    · refine parseCsvColumnsReads_sound (by omega) (by omega) (fun _ => ?_) n none 0
      rw [show l + (e - l + 1 - 1) = e by omega, peek_clear_self]
    · split_ifs
      · exact Event.allSound_nil
      · exact ih (parseCsvColumns_zero hz' n _ _ none 0)

/-- So does the whole parser, where a NUL is behind the data. -/
theorem parseCsvDataReads_sound {dataEnd : ℕ} (n : ℕ) (hend : dataEnd < 2 ^ 63)
    (hz : peek m dataEnd = 0) : AllSound (dataEnd + 1) (parseCsvDataReads m dataEnd n) := by
  rw [parseCsvDataReads]
  split_ifs with h
  · exact Event.allSound_nil
  · rw [not_or] at h
    rw [csvMax_of_lt (Nat.pos_of_ne_zero h.1) (by omega)]
    exact Event.allSound_cons.mpr ⟨.inr (by omega), parseCsvRowsReads_sound n hend _ hz⟩

end Sound

/-! ## The grammar is implemented -/

/-- A text without the byte order mark that it starts with. -/
def dropBom (text : List UInt8) : List UInt8 :=
  if [0xef, 0xbb, 0xbf].isPrefixOf text then text.drop 3 else text

/-- A text in memory with a NUL at `data_end`. `strnchrnul` counts in an `unsigned int`, and the
sections that the parser is called on have 32-bit sizes. -/
structure CsvBuffer where
  mem : Mem
  dataEnd : ℕ
  small : dataEnd < 2 ^ 32
  nul : peek mem dataEnd = 0

namespace CsvBuffer

/-- The text that the grammar is about. -/
def text (b : CsvBuffer) : List UInt8 := dropBom (slice b.mem 0 b.dataEnd)

/-- The texts of the rows that the parser produces. -/
def rows (b : CsvBuffer) (n : ℕ) : List (List (List UInt8)) :=
  match parseCsvData b.mem b.dataEnd n with
  | .ok (m, rows) => rows.map (List.map (cstr m))
  | .error _ => []

end CsvBuffer

/-- The rows are those of the grammar, and no byte outside of the buffer is touched. -/
structure ImplementsGrammar (b : CsvBuffer) (n : ℕ) : Prop where
  rows : b.rows n = csvRows n b.text
  inside : AllSound (b.dataEnd + 1) (parseCsvDataReads b.mem b.dataEnd n)

section Grammar

variable {m : Mem} {dataEnd n : ℕ}

/-- The NUL at the end keeps a mark from being cut short. -/
theorem isUtf8Bom_iff (hz : peek m dataEnd = 0) :
    isUtf8Bom m (dataEnd + 1) = true ↔ [0xef, 0xbb, 0xbf].isPrefixOf (slice m 0 dataEnd) := by
  by_cases h3 : 3 ≤ dataEnd
  · rw [isUtf8Bom, min_eq_left (by omega), slice_cons m (by omega), slice_cons m (by omega),
      slice_cons m (by omega)]
    simp [List.range_succ, @eq_comm _ (peek m _)]
  · have hlen : ¬ [0xef, 0xbb, 0xbf].isPrefixOf (slice m 0 dataEnd) := by
      intro h
      have := (List.isPrefixOf_iff_prefix.mp h).length_le
      simp only [List.length_cons, List.length_nil, length_slice] at this
      omega
    refine iff_of_false (fun h => ?_) hlen
    have hlast := List.all_eq_true.mp h dataEnd (List.mem_range.mpr (by omega))
    rw [hz] at hlast
    obtain rfl | rfl | rfl : dataEnd = 0 ∨ dataEnd = 1 ∨ dataEnd = 2 := by omega
    all_goals exact absurd hlast (by decide)

/-- The parser starts behind the mark. -/
theorem slice_csvStart (hend : dataEnd < 2 ^ 63) (hz : peek m dataEnd = 0) :
    slice m (csvStart m dataEnd) dataEnd = dropBom (slice m 0 dataEnd) := by
  rcases Nat.eq_zero_or_pos dataEnd with rfl | hpos
  · rw [slice_of_le m (Nat.zero_le _), slice_of_le m le_rfl]
    rfl
  rw [csvStart, dropBom, csvMax_of_lt hpos (by omega), Nat.sub_zero]
  by_cases hbom : isUtf8Bom m (dataEnd + 1) = true
  · have hprefix := (isUtf8Bom_iff hz).mp hbom
    have hlen := (List.isPrefixOf_iff_prefix.mp hprefix).length_le
    simp only [List.length_cons, List.length_nil, length_slice] at hlen
    rw [if_pos hbom, if_pos hprefix, ← slice_append m (Nat.zero_le 3) (by omega),
      List.drop_left' (length_slice m 0 3)]
  · rw [if_neg hbom, if_neg fun h => hbom ((isUtf8Bom_iff hz).mpr h)]

/-- A line has the columns of the grammar exactly if it has a comma. -/
theorem lineColumns_eq_iff (hn : 0 < n) (line : List UInt8) :
    lineColumns n line = fields comma n line ↔ comma ∈ line := by
  obtain ⟨n, rfl⟩ := Nat.exists_eq_succ_of_ne_zero hn.ne'
  rw [lineColumns]
  by_cases h : comma ∈ line
  · simp [h]
  · rw [if_neg h, fields_last h]
    simp [h]

/-- The rows that the parser produces. -/
theorem CsvBuffer.rows_eq (b : CsvBuffer) (hn : 0 < n) :
    ∃ ls, LoopLines b.text ls ∧ b.rows n = ls.map (lineColumns n) := by
  have hsmall := b.small
  rw [CsvBuffer.rows, text]
  rcases Nat.eq_zero_or_pos b.dataEnd with hd | hpos
  · rw [hd, parseCsvData, if_pos (.inl rfl), slice_of_le _ le_rfl]
    exact ⟨[], .done, rfl⟩
  · rw [parseCsvData_eq hpos.ne' hn.ne', ← slice_csvStart (by omega) b.nul]
    exact parseCsvRows_lines hn.ne' (by omega)
      (by omega : b.dataEnd + 1 < csvStart b.mem b.dataEnd + (b.dataEnd + 2)) b.nul

/-- The parser implements the grammar when every line has a comma and no row stands behind a NUL
that it goes on from. -/
theorem implementsGrammar_iff (b : CsvBuffer) (hn : 0 < n) :
    ImplementsGrammar b n ↔ (∀ line ∈ csvLines b.text, comma ∈ line) ∧ resumes b.text = false := by
  obtain ⟨ls, hlines, hrows⟩ := b.rows_eq hn
  obtain ⟨extra, rfl, hextra⟩ := hlines.eq_csvLines
  have hextra' : resumes b.text = false ↔ extra = [] := by
    rw [← Bool.not_eq_true, ← hextra, not_ne_iff]
  have hsmall := b.small
  constructor
  · intro h
    have heq := h.rows
    rw [hrows, csvRows] at heq
    have hnil : extra = [] := by
      have hlen := congrArg List.length heq
      rw [List.length_map, List.length_map, List.length_append] at hlen
      exact List.eq_nil_of_length_eq_zero (by omega)
    rw [hnil, List.append_nil] at heq
    refine ⟨fun line hline => ?_, hextra'.mpr hnil⟩
    exact (lineColumns_eq_iff hn line).mp (List.map_inj_left.mp heq line hline)
  · rintro ⟨hcomma, hres⟩
    refine ⟨?_, parseCsvDataReads_sound n (by omega) b.nul⟩
    rw [hrows, hextra'.mp hres, List.append_nil, csvRows]
    exact List.map_congr_left fun line hline => (lineColumns_eq_iff hn line).mpr (hcomma line hline)

/-- The buffer of a text and the NUL behind it. -/
def csvBufferOf (text : List UInt8) (h : text.length < 2 ^ 32) : CsvBuffer :=
  ⟨text, text.length, h, peek_of_le le_rfl⟩

/-- `"\xef\xbb\xbfa,b\r\n\n,c,d,e\0f"` in three columns. -/
theorem implementsGrammar_twoLines : ImplementsGrammar
    (csvBufferOf [0xef, 0xbb, 0xbf, 97, 44, 98, 13, 10, 10, 44, 99, 44, 100, 44, 101, 0, 102]
      (by decide)) 3 :=
  (implementsGrammar_iff _ (by decide)).mpr ⟨by decide +kernel, by decide +kernel⟩

/-- `"a\n"` gives a row of no columns, and `"a,b\n\n\0c,d"` the row behind the NUL. -/
theorem not_implementsGrammar_noComma_blankLine :
    ¬ ImplementsGrammar (csvBufferOf [97, 10] (by decide)) 3 ∧
      ¬ ImplementsGrammar (csvBufferOf [97, 44, 98, 10, 10, 0, 99, 44, 100] (by decide)) 3 :=
  ⟨fun h => absurd h.rows (by decide +kernel), fun h => absurd h.rows (by decide +kernel)⟩

end Grammar

end Shim
