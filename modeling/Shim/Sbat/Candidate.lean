import Shim.Sbat.CsvReads
import Shim.Sbat.Level

/-! # A candidate and the variable it becomes

`parse_sbat_var` (sbat.c) parses a copy of its candidate, or the variable. The variable is read into
a zeroed buffer. The copy ends in a byte that the allocator left, which the parser takes for the
NUL: where it is the rest of a byte order mark, or a delimiter after a blank line, the two parses
part.
-/

namespace Shim

open Bytes Lines
open Event (AllSound)

/-! ## The two parses -/

/-- `parse_sbat_var` without a candidate. -/
def parseSbatVarStored (vars : Variables SbatVarName) (size read : Fault) :
    Except EfiStatus (List SbatVarEntry) :=
  match getVariableAttr vars .sbatLevel size read with
  | .error e => .error e
  | .ok v => parseSbatVarData v.data (v.data.length + 1)

/-- The check of the columns of a row: the first byte of each, and its `strlen`. -/
def rowReads (m : Mem) : List ℕ → List Event
  | [] => []
  | p :: row =>
    .read p 1 :: if peek m p ≠ 0 then .read p (strlen m p + 1) :: rowReads m row else []

/-- The pass of `parse_sbat_var_data` that finds out how much to allocate. -/
def rowsReads (m : Mem) : List (List ℕ) → List Event
  | [] => []
  | row :: rows =>
    if row.length < sbatVarRequiredColumns then []
    else
      rowReads m row ++ if rowAccepted m sbatVarRequiredColumns row then rowsReads m rows else []

/-- `parse_sbat_var_data`: the parser, the check of the rows, and `stpcpy` of their columns. -/
def parseSbatVarDataReads (m : Mem) (datasize : ℕ) : List Event :=
  if datasize = 0 then []
  else
    parseCsvDataReads m (datasize - 1) sbatVarColumns ++
      match parseCsvData m (datasize - 1) sbatVarColumns with
      | .error _ => []
      | .ok (m, rows) =>
        rowsReads m rows ++
          if rows.all (rowAccepted m sbatVarRequiredColumns) then
            rows.flatMap (List.map fun p => .read p (strlen m p + 1))
          else []

/-- The accesses of `parse_sbat_var` to its copy of the candidate. -/
def parseSbatVarReads (candidate : CString) (heap : List UInt8) : List Event :=
  parseSbatVarDataReads (candidate.bytes ++ heap) (candidate.bytes.length + 1)

/-- The parse of a candidate is that of the variable after `SetVariable` stored it, and stays in the
copy. -/
structure ParsesAsStored (candidate : CString) (heap : List UInt8) : Prop where
  same : ∀ (build : SbatBuild) (vars vars' : Variables SbatVarName),
    setVariable vars .sbatLevel (sbatLevelOf build candidate) none = (.success, vars') →
      parseSbatVar candidate heap = parseSbatVarStored vars' none none
  inside : AllSound (candidate.bytes.length + 1) (parseSbatVarReads candidate heap)

/-- `UTF8_BOM`. -/
def utf8Bom : List UInt8 := [0xef, 0xbb, 0xbf]

/-- The byte behind the copy makes the text another one: it completes a byte order mark, or is a
delimiter behind a blank line. -/
def Misleads (text : List UInt8) (next : UInt8) : Prop :=
  text ++ [next] <+: utf8Bom ∨ isRowDelim next = true ∧ endsBlank (dropBom text) = true

/-! ## A turn of the row loop -/

section Turn

variable {m a b : Mem} {line l e dataEnd n : ℕ}

/-- The ends of rows are passed over one by one. -/
theorem skipRowDelims_delims {k : ℕ} (x : ℕ) (hle : line ≤ k)
    (hds : ∀ c ∈ slice m line k, isRowDelim c = true) :
    skipRowDelims m (k - line + x) line = skipRowDelims m x k := by
  induction hk : k - line generalizing line with
  | zero =>
    obtain rfl : line = k := by omega
    rw [Nat.zero_add]
  | succ j ih =>
    rw [slice_cons m (by omega)] at hds
    obtain ⟨hd, hrest⟩ := List.forall_mem_cons.mp hds
    rw [show j + 1 + x = j + x + 1 by omega, skipRowDelims, if_pos (by simpa [isRowDelim] using hd)]
    exact ih (by omega) hrest (by omega)

/-- Behind the end nothing is read. -/
theorem parseCsvRowsReads_past {fuel : ℕ} (m : Mem) (h : dataEnd < line) :
    parseCsvRowsReads dataEnd n fuel m line = [] := by
  cases fuel with
  | zero => rfl
  | succ fuel => rw [parseCsvRowsReads, if_neg (by omega)]

/-- The row that the loop finds from `line` on: `[l, e)`, with delimiters in front of it. -/
structure RowAt (m : Mem) (dataEnd line l e : ℕ) : Prop where
  start : line ≤ l
  lt : l < e
  le : e ≤ dataEnd
  delims : ∀ c ∈ slice m line l, isRowDelim c = true
  plain : ∀ i, l ≤ i → i < e → Plain 0 isRowDelim (peek m i)
  stop : e < dataEnd → isRowDelim (peek m e) = true
  find : findRowEnd m l (dataEnd - l + 1) dataEnd = e

/-- In a text without a NUL there are delimiters only, or a row. -/
theorem exists_rowAt (hz : peek m dataEnd = 0) (hne : ∀ i, line ≤ i → i < dataEnd → peek m i ≠ 0)
    (hle : line ≤ dataEnd) :
    (∀ c ∈ slice m line dataEnd, isRowDelim c = true) ∨ ∃ l e, RowAt m dataEnd line l e := by
  obtain ⟨l, -, hlinel, hl, hds, hstop⟩ := skipRowDelims_stop hz hle
  rcases hl.eq_or_lt with rfl | hlt
  · exact .inl hds
  obtain ⟨e, he, hle', hed, hplain, hhit⟩ := findRowEnd_stop hz hl
  have hlte : l < e := by
    refine lt_of_le_of_ne hle' ?_
    rintro rfl
    rcases hhit with h | h
    · exact hne l hlinel hlt h
    · rw [hstop] at h
      cases h
  refine .inr ⟨l, e, hlinel, hlte, hed, hds, ?_, fun h => ?_, he⟩
  · exact fun i hi hie => hplain _ (mem_slice.mpr ⟨i, hi, hie, rfl⟩)
  · exact hhit.resolve_left (hne e (by omega) h)

namespace RowAt

/-- The byte at the end does not matter. -/
theorem congr (h : RowAt b dataEnd line l e) (hagree : AgreeBelow dataEnd a b) :
    RowAt a dataEnd line l e where
  start := h.start
  lt := h.lt
  le := h.le
  delims := by
    have := h.lt
    have := h.le
    rw [slice_congr fun i _ hi => hagree i (by omega)]
    exact h.delims
  plain := fun i hi hie => by
    rw [hagree i (lt_of_lt_of_le hie h.le)]
    exact h.plain i hi hie
  stop := fun hlt => by
    rw [hagree e hlt]
    exact h.stop hlt
  find := by
    have := h.lt
    have := h.le
    rw [findRowEnd_congr hagree l _ (by omega)]
    exact h.find

/-- A row does not start with a NUL. -/
theorem head_ne (h : RowAt m dataEnd line l e) : peek m line ≠ 0 := by
  rcases h.start.eq_or_lt with rfl | hlt
  · exact (h.plain line le_rfl h.lt).1
  · exact ne_zero_of_isRowDelim (h.delims _ (mem_slice.mpr ⟨line, le_rfl, hlt, rfl⟩))

/-- The search for a row comes to it, with the room that is left. -/
theorem skip (h : RowAt m dataEnd line l e) :
    skipRowDelims m (dataEnd - line + 1) line = (l, dataEnd - l + 1) := by
  have hstart := h.start
  have hlt := h.lt
  have hle := h.le
  rw [show dataEnd - line + 1 = l - line + (dataEnd - l + 1) by omega,
    skipRowDelims_delims _ hstart h.delims, skipRowDelims, if_neg]
  simpa [isRowDelim] using (h.plain l le_rfl hlt).2

/-- A row with its delimiter does not decide whether the text ends in a blank line. -/
theorem endsBlank_of_lt (h : RowAt m dataEnd line l e) (hlt : e < dataEnd) :
    endsBlank (slice m line dataEnd) = endsBlank (slice m (e + 1) dataEnd) := by
  have hstart := h.start
  have hle := h.lt
  rw [← slice_append m (show line ≤ e - 1 by omega) (show e - 1 ≤ dataEnd by omega),
    slice_cons m (show e - 1 < dataEnd by omega), show e - 1 + 1 = e by omega, slice_cons m hlt]
  exact endsBlank_complete _ (h.plain (e - 1) (by omega) (by omega)).2 (h.stop hlt)

/-- A row that reaches the end leaves no blank line. -/
theorem endsBlank_of_eq (h : RowAt m dataEnd line l dataEnd) :
    endsBlank (slice m line dataEnd) = false := by
  have hstart := h.start
  have hlt := h.lt
  rw [← slice_append m (show line ≤ dataEnd - 1 by omega) (show dataEnd - 1 ≤ dataEnd by omega),
    slice_cons m (show dataEnd - 1 < dataEnd by omega),
    slice_of_le m (show dataEnd ≤ dataEnd - 1 + 1 by omega)]
  exact endsBlank_plain _ (h.plain (dataEnd - 1) (by omega) (by omega)).2

/-- The loop takes the row, and goes on behind it. -/
theorem rows_eq (h : RowAt m dataEnd line l e) (hend : dataEnd < 2 ^ 63) (n fuel : ℕ) :
    parseCsvRows dataEnd n (fuel + 1) m line =
      let row := parseCsvLine (clear m e) l (e - l + 1) n
      if peek m e = 0 then (row.1, [row.2])
      else
        let rest := parseCsvRows dataEnd n fuel row.1 (e + 1)
        (rest.1, row.2 :: rest.2) := by
  have hstart := h.start
  have hlt := h.lt
  have hle := h.le
  have hblank : ¬ (l = dataEnd ∨ e - l + 1 = 0) := by omega
  rw [parseCsvRows, if_pos ⟨by omega, h.head_ne⟩, csvMax_of_lt (by omega) (by omega)]
  simp only [h.skip, h.find]
  rw [csvMax_of_lt hlt (by omega), if_neg hblank,
    findRowEnd_clear hlt.le (by omega : e < l + (dataEnd - l + 1)) h.find.symm]

/-- What the loop reads for the row, and behind it. -/
theorem reads_eq (h : RowAt m dataEnd line l e) (hend : dataEnd < 2 ^ 63) (n fuel : ℕ) :
    parseCsvRowsReads dataEnd n (fuel + 1) m line =
      .read line 1 :: (skipRowDelimsReads m (dataEnd - line + 1) line ++
        findRowEndReads m l (dataEnd - l + 1) ++ .read e 1 ::
          (findRowEndReads (clear m e) l (e - l + 1) ++
            parseCsvColumnsReads (clear m e) n l (e - l + 1) none 0 ++
            if peek m e = 0 then []
            else parseCsvRowsReads dataEnd n fuel
              (parseCsvLine (clear m e) l (e - l + 1) n).1 (e + 1))) := by
  have hstart := h.start
  have hlt := h.lt
  have hle := h.le
  have hblank : ¬ (l = dataEnd ∨ e - l + 1 = 0) := by omega
  rw [parseCsvRowsReads, if_pos (by omega), if_pos h.head_ne, csvMax_of_lt (by omega) (by omega)]
  simp only [h.skip, h.find]
  rw [csvMax_of_lt hlt (by omega), if_neg hblank,
    findRowEnd_clear hlt.le (by omega : e < l + (dataEnd - l + 1)) h.find.symm]

/-- The accesses up to the end of the row are in the buffer, whatever byte ends it. -/
theorem reads_sound_iff (h : RowAt m dataEnd line l e) (hend : dataEnd < 2 ^ 63) (n fuel : ℕ) :
    AllSound (dataEnd + 1) (parseCsvRowsReads dataEnd n (fuel + 1) m line) ↔
      (peek m e ≠ 0 → AllSound (dataEnd + 1) (parseCsvRowsReads dataEnd n fuel
        (parseCsvLine (clear m e) l (e - l + 1) n).1 (e + 1))) := by
  have hstart := h.start
  have hlt := h.lt
  have hle := h.le
  have hcolumns : AllSound (dataEnd + 1)
      (parseCsvColumnsReads (clear m e) n l (e - l + 1) none 0) := by
    refine parseCsvColumnsReads_sound (by omega) (by omega) (fun _ => ?_) n none 0
    rw [show l + (e - l + 1 - 1) = e by omega, peek_clear_self]
  rw [h.reads_eq hend]
  simp only [Event.allSound_cons, Event.allSound_append, hcolumns,
    @skipRowDelimsReads_sound m (dataEnd + 1) (dataEnd - line + 1) line (by omega),
    @findRowEndReads_sound m (dataEnd + 1) l (dataEnd - l + 1) (by omega),
    @findRowEndReads_sound (clear m e) (dataEnd + 1) l (e - l + 1) (by omega),
    show (Event.read line 1).Sound (dataEnd + 1) from .inr (by omega),
    show (Event.read e 1).Sound (dataEnd + 1) from .inr (by omega), true_and]
  split_ifs with hnul
  · exact iff_of_true Event.allSound_nil fun h => absurd hnul h
  · exact (imp_iff_right hnul).symm

end RowAt

end Turn

/-! ## The loop over the copy -/

section Loop

variable {a b : Mem} {line l e dataEnd n fuel : ℕ}

/-- Two memories after a row was cut that both have. -/
structure AfterRow (a b ra rb : Mem) (dataEnd e : ℕ) : Prop where
  agree : AgreeBelow dataEnd ra rb
  behind : ∀ i, e < i → peek ra i = peek a i
  behind' : ∀ i, e < i → peek rb i = peek b i
  nul : peek ra e = 0

/-- Both memories are the same behind the row. -/
theorem RowAt.after (h : RowAt b dataEnd line l e) (hn : n ≠ 0) (hend : dataEnd < 2 ^ 63)
    (hagree : AgreeBelow dataEnd a b) :
    AfterRow a b (parseCsvLine (clear a e) l (e - l + 1) n).1
        (parseCsvLine (clear b e) l (e - l + 1) n).1 dataEnd e ∧
      (parseCsvLine (clear a e) l (e - l + 1) n).2 =
        (parseCsvLine (clear b e) l (e - l + 1) n).2 ∧
      ∀ p ∈ (parseCsvLine (clear a e) l (e - l + 1) n).2, p ≤ e := by
  have hlt := h.lt
  have hle := h.le
  -- the columns of a row are a matter of its own bytes
  have hcut : ∀ {m : Mem}, RowAt m dataEnd line l e → Cut (clear m e) l e
      (parseCsvLine (clear m e) l (e - l + 1) n) (lineColumns n (slice (clear m e) l e)) :=
    fun h => parseCsvLine_columns hn hlt (by omega) (peek_clear_self _ e) fun i hi hie => by
      rw [peek_clear_ne _ (by omega)]
      exact (h.plain i hi hie).1
  have hz : 0 < e - l + 1 → peek (clear a e) (l + (e - l + 1 - 1)) = 0 := fun _ => by
    rw [show l + (e - l + 1 - 1) = e by omega, peek_clear_self]
  -- the bytes that differ are behind the row
  have hk : AgreeBelow (max dataEnd (e + 1)) (clear a e) (clear b e) := by
    rcases hle.lt_or_eq with hed | rfl
    · rw [max_eq_left hed]
      exact hagree.clear e
    · rw [max_eq_right (Nat.le_succ e)]
      exact hagree.clear_succ
  obtain ⟨hcols, hmem⟩ := parseCsvColumns_congr hk
    (show l + (e - l + 1) ≤ max dataEnd (e + 1) by omega) (by omega) hz n none 0
  refine ⟨⟨hmem.mono (le_max_left _ _), fun i hi => ?_, fun i hi => ?_, ?_⟩, hcols, fun p hp => ?_⟩
  · rw [(hcut (h.congr hagree)).frame i (.inr hi), peek_clear_ne a (by omega)]
  · rw [(hcut h).frame i (.inr hi), peek_clear_ne b (by omega)]
  · exact (hcut (h.congr hagree)).nul
  · have := (parseCsvColumns_bounds (by omega) hz n none 0 p hp).2
    omega

/-- Where no row is left, none is found. -/
theorem parseCsvRows_blank {m : Mem} (hend : dataEnd < 2 ^ 63) (hle : line ≤ dataEnd)
    (hds : ∀ c ∈ slice m line dataEnd, isRowDelim c = true)
    (hlast : line < dataEnd → isRowDelim (peek m dataEnd) = false) :
    (parseCsvRows dataEnd n fuel m line).2 = [] ∧
      AllSound (dataEnd + 1) (parseCsvRowsReads dataEnd n fuel m line) := by
  -- the row delimiters reach to the end, or the line is there already
  have hskip : ∃ x ≤ 1, skipRowDelims m (csvMax line dataEnd) line = (dataEnd, x) ∧
      line + csvMax line dataEnd ≤ dataEnd + 1 := by
    rcases hle.lt_or_eq with hlt | rfl
    · refine ⟨1, le_rfl, ?_, by rw [csvMax_of_lt hlt (by omega)]; omega⟩
      rw [csvMax_of_lt hlt (by omega), skipRowDelims_delims 1 hle hds, skipRowDelims, if_neg]
      simpa [isRowDelim] using hlast hlt
    · rw [csvMax_self line (by omega)]
      exact ⟨0, Nat.zero_le _, rfl, Nat.le_succ line⟩
  obtain ⟨x, hx, hskip, hmax⟩ := hskip
  have hfind : findRowEnd m dataEnd x dataEnd = dataEnd :=
    le_antisymm (findRowEnd_le _ _ _ _) (le_findRowEnd x le_rfl le_rfl)
  cases fuel with
  | zero => exact ⟨rfl, Event.allSound_nil⟩
  | succ fuel =>
    have hline : (Event.read line 1).Sound (dataEnd + 1) := .inr (by omega)
    rw [parseCsvRows, parseCsvRowsReads, if_pos hle]
    by_cases hnul : peek m line = 0
    · rw [if_neg (by simp [hnul]), if_neg (by simp [hnul])]
      exact ⟨rfl, Event.allSound_cons.mpr ⟨hline, Event.allSound_nil⟩⟩
    rw [if_pos ⟨hle, hnul⟩, if_pos hnul]
    simp only [hskip, hfind, true_or, if_true]
    -- so the next line is behind the end, and the loop stops
    rw [parseCsvRows_past _ (Nat.lt_succ_self _), parseCsvRowsReads_past _ (Nat.lt_succ_self _)]
    simp only [Event.allSound_cons, Event.allSound_append]
    refine ⟨trivial, hline, ⟨skipRowDelimsReads_sound _ _ hmax, ?_⟩, .inr le_rfl,
      Event.allSound_nil⟩
    exact findRowEndReads_sound (by omega)

/-- The rows of a memory `a` are those of the terminated `b`, and neither the parser nor a `strlen`
of a column leaves the buffer. -/
structure SameRows (dataEnd n fuel : ℕ) (a b : Mem) (line : ℕ) : Prop where
  inside : AllSound (dataEnd + 1) (parseCsvRowsReads dataEnd n fuel a line)
  rows : (parseCsvRows dataEnd n fuel a line).2 = (parseCsvRows dataEnd n fuel b line).2
  columns : ∀ row ∈ (parseCsvRows dataEnd n fuel a line).2, ∀ p ∈ row,
    ∃ q, p ≤ q ∧ q ≤ dataEnd ∧ peek (parseCsvRows dataEnd n fuel a line).1 q = 0

/-- A byte that is no delimiter, or does not follow a blank line, changes nothing. -/
theorem sameRows_of_not_misleads (hn : n ≠ 0) (hend : dataEnd < 2 ^ 63)
    (hagree : AgreeBelow dataEnd a b) (hz : peek b dataEnd = 0)
    (hne : ∀ i, line ≤ i → i < dataEnd → peek b i ≠ 0)
    (hok : isRowDelim (peek a dataEnd) = true → endsBlank (slice b line dataEnd) = false) :
    SameRows dataEnd n fuel a b line := by
  -- both memories agree in front of the end, and `b` has its NUL there
  induction fuel generalizing a b line with
  | zero => exact ⟨Event.allSound_nil, rfl, by simp [parseCsvRows]⟩
  | succ fuel ih =>
    rcases Nat.lt_or_ge dataEnd line with hpast | hle
    · rw [← Nat.not_le] at hpast
      refine ⟨?_, ?_, ?_⟩
      · rw [parseCsvRowsReads_past _ (by omega)]
        exact Event.allSound_nil
      · rw [parseCsvRows_past _ (by omega), parseCsvRows_past _ (by omega)]
      · rw [parseCsvRows_past _ (by omega)]
        simp
    -- nothing but ends of rows is left, or there is a row
    rcases exists_rowAt hz hne hle with hds | ⟨l, e, hrow⟩
    · have hsame : slice a line dataEnd = slice b line dataEnd :=
        slice_congr fun i _ hi => hagree i hi
      have hlast : line < dataEnd → isRowDelim (peek a dataEnd) = false := fun hlt => by
        refine Bool.eq_false_iff.mpr fun hdelim => ?_
        have := hok hdelim
        rw [endsBlank_delims hds (List.ne_nil_of_length_pos (by rw [length_slice]; omega))] at this
        cases this
      have hblank := @parseCsvRows_blank _ _ n (fuel + 1) a hend hle (by rwa [hsame]) hlast
      have hblank' := @parseCsvRows_blank _ _ n (fuel + 1) b hend hle hds fun _ => by rw [hz]; rfl
      refine ⟨hblank.2, by rw [hblank.1, hblank'.1], ?_⟩
      rw [hblank.1]
      simp
    have hrowA := hrow.congr hagree
    have hle' := hrow.le
    obtain ⟨hafter, hcols, hcolumns⟩ := hrow.after hn hend hagree
    have hrest : e < dataEnd → isRowDelim (peek a dataEnd) = true →
        endsBlank (slice (parseCsvLine (clear b e) l (e - l + 1) n).1 (e + 1) dataEnd) = false :=
      fun hlt hdelim => by
        rw [slice_congr fun i hi _ => hafter.behind' i (by omega), ← hrow.endsBlank_of_lt hlt]
        exact hok hdelim
    have hgo := hrowA.reads_sound_iff hend n fuel
    have hrowsA := hrowA.rows_eq hend n fuel
    have hrowsB := hrow.rows_eq hend n fuel
    dsimp only at hrowsA hrowsB
    rw [← hcols] at hrowsB
    generalize parseCsvLine (clear a e) l (e - l + 1) n = ra at *
    generalize parseCsvLine (clear b e) l (e - l + 1) n = rb at *
    rcases hle'.lt_or_eq with hlt | rfl
    · -- a row with its delimiter
      have hA : peek a e ≠ 0 := ne_zero_of_isRowDelim (hrowA.stop hlt)
      have hB : peek b e ≠ 0 := ne_zero_of_isRowDelim (hrow.stop hlt)
      have hrec := ih hafter.agree (by rw [hafter.behind' dataEnd hlt, hz])
        (fun i hi hid => by
          have := hrow.start
          have := hrow.lt
          rw [hafter.behind' i (by omega)]
          exact hne i (by omega) hid)
        (fun hdelim => hrest hlt (by rwa [hafter.behind dataEnd hlt] at hdelim))
      rw [if_neg hA] at hrowsA
      rw [if_neg hB] at hrowsB
      refine ⟨hgo.mpr fun _ => hrec.inside, ?_, ?_⟩
      · rw [hrowsA, hrowsB, hrec.rows]
      · rw [hrowsA]
        intro row hr p hp
        rcases List.mem_cons.mp hr with rfl | hr
        · refine ⟨e, hcolumns p hp, hle', ?_⟩
          rw [parseCsvRows_frame _ _ _ _ _ e (Nat.lt_succ_self e), hafter.nul]
        · exact hrec.columns row hr p hp
    · -- a row that the end of the text cuts off
      rw [parseCsvRowsReads_past _ (Nat.lt_succ_self e)] at hgo
      rw [parseCsvRows_past _ (Nat.lt_succ_self e), ite_self] at hrowsA
      rw [if_pos hz] at hrowsB
      refine ⟨hgo.mpr fun _ => Event.allSound_nil, by rw [hrowsA, hrowsB], ?_⟩
      rw [hrowsA]
      intro row hr p hp
      rw [List.mem_singleton.mp hr] at hp
      exact ⟨e, hcolumns p hp, le_rfl, hafter.nul⟩

/-- A delimiter behind a blank line sends the parser out of the buffer. -/
theorem not_sound_of_misleads (hn : n ≠ 0) (hend : dataEnd < 2 ^ 63)
    (hagree : AgreeBelow dataEnd a b) (hz : peek b dataEnd = 0)
    (hne : ∀ i, line ≤ i → i < dataEnd → peek b i ≠ 0)
    (hdelim : isRowDelim (peek a dataEnd) = true)
    (hblank : endsBlank (slice b line dataEnd) = true) (hfuel : dataEnd < line + fuel) :
    ¬ AllSound (dataEnd + 1) (parseCsvRowsReads dataEnd n fuel a line) := by
  have hlt : line < dataEnd := by
    by_contra hge
    rw [slice_of_le b (not_lt.mp hge)] at hblank
    cases hblank
  induction fuel generalizing a b line with
  | zero => omega
  | succ fuel ih =>
    rcases exists_rowAt hz hne hlt.le with hds | ⟨l, e, hrow⟩
    · -- the skip runs over the byte, and the row is looked for behind it
      have hskip : skipRowDelims a (dataEnd - line + 1) line = (dataEnd + 1, 0) := by
        have hmem : peek a dataEnd ∈ rowDelims := by simpa [isRowDelim] using hdelim
        rw [skipRowDelims_delims 1 hlt.le, skipRowDelims, if_pos hmem]
        · rfl
        · rwa [slice_congr fun i _ hi => hagree i hi]
      have hfind : findRowEnd a (dataEnd + 1) 0 dataEnd = dataEnd :=
        le_antisymm (findRowEnd_le _ _ _ _) (le_findRowEnd 0 (Nat.le_succ dataEnd) le_rfl)
      have hmax : csvMax (dataEnd + 1) dataEnd = 2 ^ 64 - 1 := by
        rw [csvMax, if_neg (by omega), sub64]
        omega
      have hhead : peek a line ≠ 0 := by
        rw [hagree line hlt]
        exact hne line le_rfl hlt
      rw [parseCsvRowsReads, if_pos hlt.le, if_pos hhead, csvMax_of_lt hlt (by omega)]
      simp only [hskip, hfind, hmax]
      rw [if_neg (by omega)]
      simp only [Event.allSound_cons, Event.allSound_append]
      rintro ⟨-, -, -, ⟨hreads, -⟩, -⟩
      rcases hreads _ (List.mem_map_of_mem (show (10 : UInt8) ∈ rowDelims by decide)) with h | h
      · omega
      · omega
    -- a row, and the blank line is behind it
    · have hlte : e < dataEnd := by
        refine lt_of_le_of_ne hrow.le ?_
        rintro rfl
        rw [hrow.endsBlank_of_eq] at hblank
        cases hblank
      have hstart := hrow.start
      have hrowlt := hrow.lt
      have hA : peek a e ≠ 0 := ne_zero_of_isRowDelim ((hrow.congr hagree).stop hlte)
      obtain ⟨hafter, -, -⟩ := hrow.after hn hend hagree
      have hblank' : endsBlank (slice (parseCsvLine (clear b e) l (e - l + 1) n).1 (e + 1)
          dataEnd) = true := by
        rw [slice_congr fun i hi _ => hafter.behind' i (by omega), ← hrow.endsBlank_of_lt hlte]
        exact hblank
      have hlt' : e + 1 < dataEnd := by
        by_contra hge
        rw [slice_of_le _ (not_lt.mp hge)] at hblank'
        cases hblank'
      rw [(hrow.congr hagree).reads_sound_iff hend]
      intro hsound
      refine ih hafter.agree (by rw [hafter.behind' dataEnd hlte, hz]) (fun i hi hid => ?_)
        (by rwa [hafter.behind dataEnd hlte]) hblank' (by omega) hlt' (hsound hA)
      rw [hafter.behind' i (by omega)]
      exact hne i (by omega) hid

end Loop

/-! ## The columns -/

section Columns

variable {m a b : Mem} {size : ℕ}

/-- Reading the columns of a row stays inside if each has its NUL inside. -/
theorem rowReads_sound {row : List ℕ} (h : ∀ p ∈ row, p + strlen m p < size) :
    AllSound size (rowReads m row) := by
  induction row with
  | nil => exact Event.allSound_nil
  | cons p row ih =>
    obtain ⟨hp, hrest⟩ := List.forall_mem_cons.mp h
    rw [rowReads]
    refine Event.allSound_cons.mpr ⟨.inr (by omega), ?_⟩
    split_ifs
    · exact Event.allSound_cons.mpr ⟨.inr (by omega), ih hrest⟩
    · exact Event.allSound_nil

/-- So does reading those of all rows. -/
theorem rowsReads_sound {rows : List (List ℕ)}
    (h : ∀ row ∈ rows, ∀ p ∈ row, p + strlen m p < size) : AllSound size (rowsReads m rows) := by
  induction rows with
  | nil => exact Event.allSound_nil
  | cons row rows ih =>
    obtain ⟨hrow, hrest⟩ := List.forall_mem_cons.mp h
    rw [rowsReads]
    split_ifs
    · exact Event.allSound_nil
    · exact Event.allSound_append.mpr ⟨rowReads_sound hrow, ih hrest⟩
    · exact Event.allSound_append.mpr ⟨rowReads_sound hrow, Event.allSound_nil⟩

/-- Rows that name the same texts are the same entries, or are refused alike. -/
theorem parseSbatVarData_congr {ra rb : Mem} {dataEnd : ℕ} {rows : List (List ℕ)}
    (ha : parseCsvData a dataEnd sbatVarColumns = .ok (ra, rows))
    (hb : parseCsvData b dataEnd sbatVarColumns = .ok (rb, rows))
    (htext : ∀ row ∈ rows, ∀ p ∈ row, SameText ra rb p) :
    parseSbatVarData a (dataEnd + 1) = parseSbatVarData b (dataEnd + 1) := by
  have hall : rows.all (rowAccepted ra sbatVarRequiredColumns) =
      rows.all (rowAccepted rb sbatVarRequiredColumns) := by
    rw [Bool.eq_iff_iff, List.all_eq_true, List.all_eq_true]
    exact forall₂_congr fun row hrow => by rw [rowAccepted_congr (htext row hrow)]
  have hentries : rows.map (sbatVarEntry ra) = rows.map (sbatVarEntry rb) :=
    List.map_congr_left fun row hrow => sbatVarEntry_congr (htext row hrow)
  rw [parseSbatVarData, parseSbatVarData, parseSbatRows_eq _ (Nat.succ_ne_zero _) ha,
    parseSbatRows_eq _ (Nat.succ_ne_zero _) hb, hall, hentries]

end Columns

/-! ## The byte order mark -/

section Mark

variable {text heap : List UInt8}

/-- The byte behind the text is the first of the heap. -/
theorem peek_append_length (text heap : List UInt8) :
    peek (text ++ heap) text.length = heap.headD 0 := by
  rw [peek_append_right le_rfl, Nat.sub_self]
  cases heap with
  | nil => rfl
  | cons next heap => rfl

/-- The text as a slice of itself. -/
theorem slice_length (text : List UInt8) : slice text 0 text.length = text := by
  refine List.ext_getElem (by simp) fun i _ hi => ?_
  simp [slice, peek, hi]

/-- A text shorter than the mark starts with one only together with the byte behind it. -/
theorem prefix_of_isUtf8Bom (hpos : 0 < text.length) (h3 : text.length < 3)
    (hbom : isUtf8Bom (text ++ heap) (text.length + 1) = true) :
    text ++ [heap.headD 0] <+: utf8Bom := by
  have hend := peek_append_length text heap
  rw [isUtf8Bom, List.all_eq_true] at hbom
  have h0 := hbom 0 (List.mem_range.mpr (by omega))
  have h1 := hbom 1 (List.mem_range.mpr (by omega))
  rcases text with _ | ⟨x, _ | ⟨y, _ | ⟨z, rest⟩⟩⟩
  · exact absurd hpos (Nat.lt_irrefl 0)
  · obtain rfl : x = 0xef := by simpa [peek] using h0
    have hlast : peek ([0xef] ++ heap) [(0xef : UInt8)].length = 0xbb := of_decide_eq_true h1
    rw [← hend, hlast]
    decide
  · have h2 := hbom 2 (List.mem_range.mpr (by simp))
    obtain rfl : x = 0xef := by simpa [peek] using h0
    obtain rfl : y = 0xbb := by simpa [peek] using h1
    have hlast : peek ([0xef, 0xbb] ++ heap) [(0xef : UInt8), 0xbb].length = 0xbf :=
      of_decide_eq_true h2
    rw [← hend, hlast]
    decide
  · simp only [List.length_cons] at h3
    omega

/-- A byte order mark is looked for in the text only, unless the heap completes it. -/
theorem csvStart_append (hpos : 0 < text.length) (hlen : text.length < 2 ^ 63)
    (hmark : ¬ text ++ [heap.headD 0] <+: utf8Bom) :
    csvStart (text ++ heap) text.length = csvStart text text.length := by
  rw [csvStart, csvStart]
  by_contra hne
  have hbom : isUtf8Bom (text ++ heap) (csvMax 0 text.length) ≠
      isUtf8Bom text (csvMax 0 text.length) := fun h => hne (by rw [h])
  obtain ⟨htrue, h3⟩ := isUtf8Bom_tail (fun i hi => peek_append_left hi) (peek_of_le le_rfl) hpos
    hlen hbom
  rw [csvMax_of_lt hpos (by omega)] at htrue
  exact hmark (prefix_of_isUtf8Bom hpos h3 htrue)

/-- The beginning of a mark is a row of no columns, the whole mark is no row. -/
theorem parseSbatVarData_of_prefix (hne : text ≠ [])
    (hmark : text ++ [heap.headD 0] <+: utf8Bom) :
    parseSbatVarData (text ++ heap) (text.length + 1) = .ok [] ∧
      parseSbatVarData text (text.length + 1) = .error .invalidParameter := by
  obtain ⟨rest, hrest⟩ := hmark
  cases heap with
  | nil =>
    match text, hrest with
    | [x], h => simp [utf8Bom] at h
    | [x, y], h => simp [utf8Bom] at h
    | x :: y :: z :: r, h => simp [utf8Bom] at h
  | cons next heap =>
    match text, hrest with
    | [x], h =>
      obtain ⟨rfl, rfl, -⟩ : x = 0xef ∧ next = 0xbb ∧ rest = [0xbf] := by simpa [utf8Bom] using h
      exact ⟨rfl, rfl⟩
    | [x, y], h =>
      obtain ⟨rfl, rfl, rfl, -⟩ : x = 0xef ∧ y = 0xbb ∧ next = 0xbf ∧ rest = [] := by
        simpa [utf8Bom] using h
      exact ⟨rfl, rfl⟩
    | x :: y :: z :: r, h => simp [utf8Bom] at h

end Mark

/-! ## Checking is reading back -/

section Candidate

variable {candidate : CString} {heap : List UInt8}

/-- Some bytes are read back as they were stored. -/
theorem parseSbatVarStored_of_ne_nil {build : SbatBuild} {vars vars' : Variables SbatVarName}
    (hne : candidate.bytes ≠ [])
    (hset : setVariable vars .sbatLevel (sbatLevelOf build candidate) none = (.success, vars')) :
    parseSbatVarStored vars' none none =
      parseSbatVarData candidate.bytes (candidate.bytes.length + 1) := by
  have hlen : (sbatLevelOf build candidate).data.length ≠ 0 := fun h =>
    hne (List.length_eq_zero_iff.mp h)
  rw [setVariable_of_ne_nil vars .sbatLevel hlen] at hset
  obtain rfl := (Prod.mk.inj hset).2
  have hget := @getVariableAttr_of_some _ (Function.update vars .sbatLevel
    (some (sbatLevelOf build candidate))) .sbatLevel none none (sbatLevelOf build candidate)
    (Function.update_self _ _ _) hne (by rintro ⟨e, h, -⟩; cases h) rfl
  rw [parseSbatVarStored, hget]
  rfl

/-- A candidate that does not mislead is parsed as it is stored. -/
theorem parsesAsStored_of_not_misleads (hne : candidate.bytes ≠ [])
    (hok : ¬ Misleads candidate.bytes (heap.headD 0)) : ParsesAsStored candidate heap := by
  obtain ⟨hmark, hblank⟩ := not_or.mp hok
  have hpos : 0 < candidate.bytes.length := List.length_pos_iff.mpr hne
  have hlen := candidate.size_lt
  have hagree : AgreeBelow candidate.bytes.length (candidate.bytes ++ heap) candidate.bytes :=
    fun i hi => peek_append_left hi
  have hz : peek candidate.bytes candidate.bytes.length = 0 := peek_of_le le_rfl
  have hstart := csvStart_append hpos (by omega) hmark
  have htext := slice_csvStart (by omega) hz
  rw [slice_length] at htext
  -- the rows are the same with and without the heap behind them
  have hsame : SameRows candidate.bytes.length sbatVarColumns (candidate.bytes.length + 2)
      (candidate.bytes ++ heap) candidate.bytes
      (csvStart candidate.bytes candidate.bytes.length) := by
    refine sameRows_of_not_misleads (by decide) (by omega) hagree hz (fun i _ hi => ?_) ?_
    · exact candidate.nonzero _ (peek_mem hi)
    · rw [peek_append_length, htext]
      exact fun hdelim => Bool.eq_false_iff.mpr fun h => hblank ⟨hdelim, h⟩
  obtain ⟨extra, -, hcolumns⟩ := parseCsvRows_initial sbatVarColumns (by omega) hagree hz
    (candidate.bytes.length + 2) (csvStart candidate.bytes candidate.bytes.length)
  have hA := parseCsvData_eq (m := candidate.bytes ++ heap) hpos.ne'
    (show sbatVarColumns ≠ 0 by decide)
  have hB := parseCsvData_eq (m := candidate.bytes) hpos.ne' (show sbatVarColumns ≠ 0 by decide)
  rw [hstart] at hA
  refine ⟨fun build vars vars' hset => ?_, ?_⟩
  · rw [parseSbatVarStored_of_ne_nil hne hset, parseSbatVar]
    refine parseSbatVarData_congr hA ?_ fun row hrow => hcolumns row (hsame.rows ▸ hrow)
    rw [hB, hsame.rows]
  -- every column has its NUL in the copy
  · have hstrlen : ∀ row ∈ (parseCsvRows candidate.bytes.length sbatVarColumns
        (candidate.bytes.length + 2) (candidate.bytes ++ heap)
        (csvStart candidate.bytes candidate.bytes.length)).2, ∀ p ∈ row,
        p + strlen (parseCsvRows candidate.bytes.length sbatVarColumns
          (candidate.bytes.length + 2) (candidate.bytes ++ heap)
          (csvStart candidate.bytes candidate.bytes.length)).1 p <
          candidate.bytes.length + 1 := fun row hrow p hp => by
      obtain ⟨q, hpq, hq, hnul⟩ := hsame.columns row hrow p hp
      have := strlen_le hpq hnul
      omega
    rw [parseSbatVarReads, parseSbatVarDataReads, if_neg (Nat.succ_ne_zero _), Nat.add_sub_cancel,
      hA, parseCsvDataReads, if_neg (by rw [not_or]; exact ⟨hpos.ne', by decide⟩),
      csvMax_of_lt hpos (by omega), hstart]
    simp only [Event.allSound_append, Event.allSound_cons]
    refine ⟨⟨.inr (by omega), hsame.inside⟩, rowsReads_sound hstrlen, ?_⟩
    split_ifs
    · intro e he
      obtain ⟨row, hrow, he⟩ := List.mem_flatMap.mp he
      obtain ⟨p, hp, rfl⟩ := List.mem_map.mp he
      exact .inr (by have := hstrlen row hrow p hp; omega)
    · exact Event.allSound_nil

/-- An empty candidate deletes the variable. -/
theorem not_parsesAsStored_nil (hnil : candidate.bytes = []) : ¬ ParsesAsStored candidate heap := by
  intro h
  let vars : Variables SbatVarName := fun _ => some (sbatLevelOf ⟨false, []⟩ sbatVarOriginal)
  have hset : setVariable vars .sbatLevel (sbatLevelOf ⟨false, []⟩ candidate) none =
      (.success, Function.update vars .sbatLevel none) :=
    setVariable_of_nil (List.length_eq_zero_iff.mpr hnil) (by simp [vars])
  have hstored : parseSbatVarStored (Function.update vars .sbatLevel none) none none =
      .error .notFound := rfl
  have hcopy : parseSbatVar candidate heap = .error .invalidParameter := by
    rw [parseSbatVar, hnil]
    rfl
  have hsame := h.same ⟨false, []⟩ vars _ hset
  rw [hcopy, hstored] at hsame
  cases hsame

/-- One that misleads is not. -/
theorem not_parsesAsStored_of_misleads (hne : candidate.bytes ≠ [])
    (hbad : Misleads candidate.bytes (heap.headD 0)) : ¬ ParsesAsStored candidate heap := by
  intro h
  by_cases hmark : candidate.bytes ++ [heap.headD 0] <+: utf8Bom
  · obtain ⟨hcopy, hstored⟩ := parseSbatVarData_of_prefix hne hmark
    have hset := setVariable_of_ne_nil (fun _ => none) SbatVarName.sbatLevel
      (v := sbatLevelOf ⟨false, []⟩ candidate) fun h => hne (List.length_eq_zero_iff.mp h)
    have hsame := h.same ⟨false, []⟩ _ _ hset
    rw [parseSbatVarStored_of_ne_nil hne hset, parseSbatVar, hcopy, hstored] at hsame
    cases hsame
  · obtain ⟨hdelim, hblank⟩ := hbad.resolve_left hmark
    have hpos : 0 < candidate.bytes.length := List.length_pos_iff.mpr hne
    have hlen := candidate.size_lt
    have hz : peek candidate.bytes candidate.bytes.length = 0 := peek_of_le le_rfl
    have hinside := h.inside
    rw [parseSbatVarReads, parseSbatVarDataReads, if_neg (Nat.succ_ne_zero _), Nat.add_sub_cancel,
      parseCsvDataReads, if_neg (by rw [not_or]; exact ⟨hpos.ne', by decide⟩),
      csvStart_append hpos (by omega) hmark] at hinside
    simp only [Event.allSound_append, Event.allSound_cons] at hinside
    refine not_sound_of_misleads (by decide) (by omega) (fun i hi => peek_append_left hi) hz
      (fun i _ hi => candidate.nonzero _ (peek_mem hi)) ?_ ?_ (by omega) hinside.1.2
    · rwa [peek_append_length]
    · rwa [slice_csvStart (by omega) hz, slice_length]

/-- A candidate is checked as it will be enforced, unless the byte behind its copy misleads the
parser. -/
theorem parsesAsStored_iff (candidate : CString) (heap : List UInt8) :
    ParsesAsStored candidate heap ↔
      candidate.bytes ≠ [] ∧ ¬ Misleads candidate.bytes (heap.headD 0) := by
  constructor
  · intro h
    have hne : candidate.bytes ≠ [] := fun hnil => not_parsesAsStored_nil hnil h
    exact ⟨hne, fun hbad => not_parsesAsStored_of_misleads hne hbad h⟩
  · rintro ⟨hne, hok⟩
    exact parsesAsStored_of_not_misleads hne hok

end Candidate

/-- `"sbat,1,2021030218\n\n"`: with a newline behind the copy, the text as stored is refused. -/
def blankLineCandidate : CString where
  bytes := sbatVarOriginal.bytes ++ [10]
  nonzero := by decide +kernel
  size_lt := by decide

/-- A line of heap is taken for one more blank line. -/
theorem not_parsesAsStored_blankLine : ¬ ParsesAsStored blankLineCandidate [10] := by
  intro h
  have hset := setVariable_of_ne_nil (fun _ => none) SbatVarName.sbatLevel
    (v := sbatLevelOf ⟨false, []⟩ blankLineCandidate) (by decide)
  have hsame := h.same ⟨false, []⟩ _ _ hset
  rw [parseSbatVarStored_of_ne_nil (by decide) hset] at hsame
  exact absurd hsame (by decide +kernel)

end Shim
