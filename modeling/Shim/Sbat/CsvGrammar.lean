import Mathlib.Order.MinMax
import Shim.Common.Lines
import Shim.Sbat.Csv

/-! # What the CSV parser finds

`parse_csv_data` against the grammar of its texts: the lines up to the first NUL, and the fields of
each. The loop of the parser goes by what is in front of `line`; `LoopLines` says which lines it
takes from that. It goes on behind a NUL that only delimiters stand before, and a line without a
comma has no columns.
-/

namespace Shim

open Bytes Lines

/-! ## The grammar -/

/-- A delimiter of rows. -/
def isRowDelim (b : UInt8) : Bool := b ∈ rowDelims

/-- The lines of a CSV text. -/
def csvLines (text : List UInt8) : List (List UInt8) := lines 0 isRowDelim text

/-- The rows of a CSV text, of `n` fields at most. -/
def csvRows (n : ℕ) (text : List UInt8) : List (List (List UInt8)) :=
  (csvLines text).map (fields comma n)

/-- The columns that the parser finds in a line. -/
def lineColumns (n : ℕ) (line : List UInt8) : List (List UInt8) :=
  if comma ∈ line then fields comma n line else []

/-- The lines that the loop takes from what is left. -/
inductive LoopLines : List UInt8 → List (List UInt8) → Prop
  | done : LoopLines [] []
  | stop (l) : LoopLines (0 :: l) []
  | blank {ds} (hds : ∀ d ∈ ds, isRowDelim d = true) (hne : ds ≠ []) : LoopLines ds []
  | skip {ds l ls} (hds : ∀ d ∈ ds, isRowDelim d = true) (hne : ds ≠ []) (h : LoopLines l ls) :
      LoopLines (ds ++ 0 :: l) ls
  | last {ds row} (hds : ∀ d ∈ ds, isRowDelim d = true)
      (hrow : ∀ b ∈ row, Plain 0 isRowDelim b) (hne : row ≠ []) : LoopLines (ds ++ row) [row]
  | lastNul {ds row} (l) (hds : ∀ d ∈ ds, isRowDelim d = true)
      (hrow : ∀ b ∈ row, Plain 0 isRowDelim b) (hne : row ≠ []) :
      LoopLines (ds ++ (row ++ 0 :: l)) [row]
  | row {ds row d l ls} (hds : ∀ d ∈ ds, isRowDelim d = true)
      (hrow : ∀ b ∈ row, Plain 0 isRowDelim b) (hne : row ≠ []) (hd : isRowDelim d = true)
      (h : LoopLines l ls) : LoopLines (ds ++ (row ++ d :: l)) (row :: ls)

/-! ## A token -/

section Token

variable {m : Mem} {s k max : ℕ} {c : UInt8}

/-- Where the search stops. -/
theorem strnchrnul_eq (hsk : s ≤ k) (hk : k < s + max) (hit : peek m k = 0 ∨ peek m k = c)
    (hmiss : ∀ i, s ≤ i → i < k → peek m i ≠ 0 ∧ peek m i ≠ c) : strnchrnul m s max c = k := by
  refine le_antisymm (strnchrnul_le_of_hit max hsk hk hit) ?_
  by_contra hlt
  have hstop := strnchrnul_hit (show strnchrnul m s max c + 1 < s + max by omega)
  obtain ⟨hnul, hne⟩ := hmiss _ (le_strnchrnul m s max c) (by omega)
  exact hstop.elim hnul hne

/-- `strntoken` with the one delimiter that columns have. -/
theorem strntoken_comma (m : Mem) (s : ℕ) (hmax : 0 < max) (token : Option ℕ) (state : UInt8) :
    let tokend := strnchrnul m s max comma
    strntoken m s max [comma] token state =
      if peek m tokend = comma then ⟨true, clear m tokend, some s, comma⟩
      else ⟨(token.isNone && max = 1 && peek m s = 0) || (token.isSome && comma = state), m,
        some s, state⟩ := by
  intro tokend
  have hbound := (strnchrnul_bounds m s comma hmax).2
  have hmin : (if tokend < s + (max - 1) then tokend else s + (max - 1)) = tokend := by
    split
    · rfl
    · omega
  unfold strntoken
  rw [if_neg hmax.ne']
  dsimp only [List.foldl_cons, List.foldl_nil, strntokenStep]
  change (if (false || decide (peek m (if tokend < s + (max - 1) then tokend else s + (max - 1)) =
    comma)) = true then _ else _) = _
  rw [hmin, Bool.false_or]
  by_cases hdelim : peek m tokend = comma
  · rw [if_pos (by simpa using hdelim), if_pos hdelim]
    simp only [hdelim]
  · rw [if_neg (by simpa using hdelim), if_neg hdelim]

end Token

/-! ## Columns -/

section Columns

variable {m : Mem} {next e max n : ℕ}

/-- The text up to the first comma, and what is behind. -/
theorem exists_first_comma (h : comma ∈ slice m next e) :
    ∃ k, next ≤ k ∧ k < e ∧ peek m k = comma ∧ comma ∉ slice m next k ∧
      slice m next e = slice m next k ++ comma :: slice m (k + 1) e := by
  obtain ⟨i, hle, hlt, hi⟩ := mem_slice.mp h
  have hex : ∃ k, next ≤ k ∧ peek m k = comma := ⟨i, hle, hi⟩
  classical
  obtain ⟨k, ⟨hk, hcomma⟩, hfirst⟩ : ∃ k, (next ≤ k ∧ peek m k = comma) ∧
      ∀ j < k, ¬ (next ≤ j ∧ peek m j = comma) :=
    ⟨Nat.find hex, Nat.find_spec hex, fun j => Nat.find_min hex⟩
  have hki : k ≤ i := not_lt.mp fun hik => hfirst i hik ⟨hle, hi⟩
  refine ⟨k, hk, by omega, hcomma, fun hmem => ?_, ?_⟩
  · obtain ⟨j, hj, hjk, hj'⟩ := mem_slice.mp hmem
    exact hfirst j hjk ⟨hj, hj'⟩
  · rw [← hcomma, ← slice_cons m (by omega), slice_append m hk (by omega)]

/-- Without room there are no columns. -/
theorem parseCsvColumns_max_zero (m : Mem) (n next : ℕ) (token : Option ℕ) (state : UInt8) :
    parseCsvColumns m n next 0 token state = (m, []) := by
  cases n with
  | zero => rfl
  | succ n => rfl

/-- The memory behind a line that was cut at its commas, and the texts of its columns. -/
structure Cut (m : Mem) (next e : ℕ) (r : Mem × List ℕ) (texts : List (List UInt8)) : Prop where
  frame : ∀ i, i < next ∨ e < i → peek r.1 i = peek m i
  nul : peek r.1 e = 0
  texts : r.2.map (cstr r.1) = texts

/-- A first column up to a comma at `k`, with the columns behind it. -/
theorem Cut.cons {k : ℕ} {r : Mem × List ℕ} {texts : List (List UInt8)}
    (hcut : Cut (clear m k) (k + 1) e r texts) (hle : next ≤ k) (hk : k < e)
    (hne : ∀ i, next ≤ i → i < k → peek m i ≠ 0) :
    Cut m next e (r.1, next :: r.2) (slice m next k :: texts) := by
  have hbelow : ∀ i, i < k + 1 → peek r.1 i = peek (clear m k) i :=
    fun i hi => hcut.frame i (.inl hi)
  refine ⟨fun i hi => ?_, hcut.nul, ?_⟩
  · rw [hcut.frame i (by omega), peek_clear_ne m (by omega)]
  · have hnul : peek r.1 k = 0 := by rw [hbelow k (by omega), peek_clear_self]
    have hsame : ∀ i, next ≤ i → i < k → peek r.1 i = peek m i := fun i _ hi => by
      rw [hbelow i (by omega), peek_clear_ne m (by omega)]
    rw [List.map_cons, hcut.texts,
      cstr_eq_slice hle hnul fun i hi hik => by rw [hsame i hi hik]; exact hne i hi hik,
      slice_congr hsame]

/-- A token up to a comma at `k`. -/
theorem parseCsvColumns_comma {k : ℕ} (hle : next ≤ k) (hk : k < e) (hmax : e - next + 1 < 2 ^ 64)
    (hcomma : peek m k = comma) (hfirst : comma ∉ slice m next k)
    (hne : ∀ i, next ≤ i → i < e → peek m i ≠ 0) (token : Option ℕ) (state : UInt8) :
    parseCsvColumns m (n + 1) next (e - next + 1) token state =
      ((parseCsvColumns (clear m k) n (k + 1) (e - (k + 1) + 1) (some next) comma).1,
        next :: (parseCsvColumns (clear m k) n (k + 1) (e - (k + 1) + 1) (some next) comma).2) := by
  have hstop : strnchrnul m next (e - next + 1) comma = k :=
    strnchrnul_eq hle (by omega) (.inr hcomma) fun i hi hik =>
      ⟨hne i hi (by omega), fun h => hfirst (mem_slice.mpr ⟨i, hi, hik, h⟩)⟩
  have htoken := strntoken_comma m next (Nat.succ_pos (e - next)) token state
  dsimp only at htoken
  rw [hstop, if_pos hcomma] at htoken
  have hlen : strlen (clear m k) next = k - next := by
    rw [strlen, cstr_eq_slice hle (peek_clear_self m k) fun i hi hik => ?_, length_slice]
    rw [peek_clear_ne m (by omega)]
    exact hne i hi (by omega)
  rw [parseCsvColumns, htoken]
  dsimp only
  rw [if_pos rfl, hlen, sub64_of_le (by omega) hmax, show next + (k - next) + 1 = k + 1 by omega,
    show e - next + 1 - (k - next + 1) = e - (k + 1) + 1 by omega]

/-- Without a comma, there is a token only behind one. -/
theorem parseCsvColumns_no_comma (hle : next ≤ e) (hmax : e - next + 1 < 2 ^ 64) (hz : peek m e = 0)
    (hnone : comma ∉ slice m next e) (hne : ∀ i, next ≤ i → i < e → peek m i ≠ 0)
    (token : Option ℕ) (state : UInt8) :
    parseCsvColumns m (n + 1) next (e - next + 1) token state =
      (m, if token.isNone ∧ next = e ∨ token.isSome ∧ state = comma then [next] else []) := by
  have hstop : strnchrnul m next (e - next + 1) comma = e :=
    strnchrnul_eq hle (by omega) (.inl hz) fun i hi hie =>
      ⟨hne i hi hie, fun h => hnone (mem_slice.mpr ⟨i, hi, hie, h⟩)⟩
  have htoken := strntoken_comma m next (Nat.succ_pos (e - next)) token state
  dsimp only at htoken
  rw [hstop, hz, if_neg (by decide)] at htoken
  have hlen : strlen m next = e - next := by
    rw [strlen, cstr_eq_slice hle hz hne, length_slice]
  have hvalid : (((token.isNone && (e - next + 1 = 1 : Bool) && (peek m next = 0 : Bool)) ||
      (token.isSome && (comma = state : Bool))) = true) ↔
        (token.isNone ∧ next = e ∨ token.isSome ∧ state = comma) := by
    simp only [Bool.or_eq_true, Bool.and_eq_true, decide_eq_true_eq, @eq_comm _ comma state]
    refine or_congr_left ⟨?_, ?_⟩
    · rintro ⟨⟨hno, hone⟩, -⟩
      exact ⟨hno, by omega⟩
    · rintro ⟨hno, heq⟩
      exact ⟨⟨hno, by omega⟩, by rw [heq, hz]⟩
  rw [parseCsvColumns, htoken]
  dsimp only
  by_cases hv : token.isNone ∧ next = e ∨ token.isSome ∧ state = comma
  · rw [if_pos (hvalid.mpr hv), if_pos hv, hlen, sub64_of_le (by omega) hmax,
      Nat.sub_self, parseCsvColumns_max_zero]
  · rw [if_neg (fun h => hv (hvalid.mp h)), if_neg hv]

/-- The columns behind a comma are fields. -/
theorem parseCsvColumns_fields (hle : next ≤ e) (hmax : e - next + 1 < 2 ^ 64) (hz : peek m e = 0)
    (hne : ∀ i, next ≤ i → i < e → peek m i ≠ 0) (t : ℕ) :
    Cut m next e (parseCsvColumns m n next (e - next + 1) (some t) comma)
      (fields comma n (slice m next e)) := by
  induction n generalizing m next t with
  | zero => exact ⟨fun _ _ => rfl, hz, rfl⟩
  | succ n ih =>
    by_cases hcomma : comma ∈ slice m next e
    · obtain ⟨k, hk, hke, hat, hfirst, hsplit⟩ := exists_first_comma hcomma
      have hrest : slice (clear m k) (k + 1) e = slice m (k + 1) e :=
        slice_congr fun i hi _ => peek_clear_ne m (by omega)
      rw [parseCsvColumns_comma hk hke hmax hat hfirst hne, hsplit, fields_succ hfirst, ← hrest]
      have hke' : k + 1 ≤ e := hke
      refine Cut.cons (ih hke' (by omega) ?_ ?_ next) hk hke fun i hi hik => hne i hi (by omega)
      · rw [peek_clear_ne m (by omega), hz]
      · intro i hi hie
        rw [peek_clear_ne m (by omega)]
        exact hne i (by omega) hie
    · rw [parseCsvColumns_no_comma hle hmax hz hcomma hne, if_pos (.inr ⟨rfl, rfl⟩),
        fields_last hcomma]
      exact ⟨fun _ _ => rfl, hz, congrArg (· :: []) (cstr_eq_slice hle hz hne)⟩

/-- The columns of a line. -/
theorem parseCsvLine_columns (hn : n ≠ 0) (hlt : next < e) (hmax : e - next + 1 < 2 ^ 64)
    (hz : peek m e = 0) (hne : ∀ i, next ≤ i → i < e → peek m i ≠ 0) :
    Cut m next e (parseCsvLine m next (e - next + 1) n) (lineColumns n (slice m next e)) := by
  obtain ⟨n, rfl⟩ := Nat.exists_eq_succ_of_ne_zero hn
  rw [parseCsvLine, lineColumns]
  by_cases hcomma : comma ∈ slice m next e
  · obtain ⟨k, hk, hke, hat, hfirst, hsplit⟩ := exists_first_comma hcomma
    have hrest : slice (clear m k) (k + 1) e = slice m (k + 1) e :=
      slice_congr fun i hi _ => peek_clear_ne m (by omega)
    have hke' : k + 1 ≤ e := hke
    rw [if_pos hcomma, parseCsvColumns_comma hk hke hmax hat hfirst hne, hsplit,
      fields_succ hfirst, ← hrest]
    refine Cut.cons (parseCsvColumns_fields hke' (by omega) ?_ ?_ next) hk hke
      fun i hi hik => hne i hi (by omega)
    · rw [peek_clear_ne m (by omega), hz]
    · intro i hi hie
      rw [peek_clear_ne m (by omega)]
      exact hne i (by omega) hie
  · rw [if_neg hcomma, parseCsvColumns_no_comma hlt.le hmax hz hcomma hne, if_neg]
    · exact ⟨fun _ _ => rfl, hz, rfl⟩
    · rintro (⟨-, heq⟩ | ⟨hsome, -⟩)
      · exact hlt.ne heq
      · cases hsome

end Columns

/-! ## Rows -/

section Rows

variable {m : Mem} {line dataEnd n : ℕ}

/-- A row ends at a carriage return or a line feed. -/
theorem isRowDelim_iff {b : UInt8} : isRowDelim b = true ↔ b = 13 ∨ b = 10 := by
  simp [isRowDelim, rowDelims]

/-- The skip stops at the first byte that is no delimiter, the NUL at the latest. -/
theorem skipRowDelims_stop (hz : peek m dataEnd = 0) (hle : line ≤ dataEnd) :
    ∃ l, skipRowDelims m (dataEnd - line + 1) line = (l, dataEnd - l + 1) ∧ line ≤ l ∧
      l ≤ dataEnd ∧ (∀ b ∈ slice m line l, isRowDelim b = true) ∧
      isRowDelim (peek m l) = false := by
  induction k : dataEnd - line generalizing line with
  | zero =>
    obtain rfl : line = dataEnd := by omega
    refine ⟨line, ?_, le_rfl, le_rfl, by simp [slice_of_le], by rw [hz]; rfl⟩
    rw [skipRowDelims, if_neg (by rw [hz]; decide), Nat.sub_self]
  | succ k ih =>
    rw [skipRowDelims]
    by_cases hdelim : peek m line ∈ rowDelims
    · obtain ⟨l, heq, hline, hl, hds, hstop⟩ := @ih (line + 1) (by omega) (by omega)
      rw [if_pos hdelim, heq]
      refine ⟨l, rfl, by omega, hl, ?_, hstop⟩
      rw [slice_cons m (by omega)]
      exact List.forall_mem_cons.mpr ⟨by simpa [isRowDelim] using hdelim, hds⟩
    · rw [if_neg hdelim, ← k]
      exact ⟨line, rfl, le_rfl, hle, by simp [slice_of_le], by simpa [isRowDelim] using hdelim⟩

/-- A row goes up to the first delimiter or NUL. -/
theorem findRowEnd_stop (hz : peek m dataEnd = 0) (hle : line ≤ dataEnd) :
    ∃ e, findRowEnd m line (dataEnd - line + 1) dataEnd = e ∧ line ≤ e ∧ e ≤ dataEnd ∧
      (∀ b ∈ slice m line e, Plain 0 isRowDelim b) ∧
      (peek m e = 0 ∨ isRowDelim (peek m e) = true) := by
  refine ⟨_, rfl, le_findRowEnd _ le_rfl hle, findRowEnd_le _ _ _ _, ?_, ?_⟩
  · intro b hb
    obtain ⟨i, hi, hlt, rfl⟩ := mem_slice.mp hb
    have hle' := findRowEnd_le m line (dataEnd - line + 1) dataEnd
    rw [findRowEnd_eq] at hlt hle'
    -- a hit at `i` would have ended the row there
    have hmiss : ∀ c : UInt8, i < strnchrnul m line (dataEnd - line + 1) c →
        peek m i ≠ 0 ∧ peek m i ≠ c := fun c hc => by
      rw [← not_or]
      intro hit
      have := strnchrnul_le_of_hit (dataEnd - line + 1) hi (by omega) hit
      omega
    obtain ⟨hnul, h10⟩ := hmiss 10 (by omega)
    have h13 := (hmiss 13 (by omega)).2
    exact ⟨hnul, by rw [Bool.eq_false_iff, Ne, isRowDelim_iff]; tauto⟩
  · rw [findRowEnd_eq, isRowDelim_iff]
    have h10 := @strnchrnul_hit m line (dataEnd - line + 1) 10
    have h13 := @strnchrnul_hit m line (dataEnd - line + 1) 13
    rcases min_choice (strnchrnul m line (dataEnd - line + 1) 10)
      (min (strnchrnul m line (dataEnd - line + 1) 13) dataEnd) with h | h
    · rw [h]
      by_cases hend : strnchrnul m line (dataEnd - line + 1) 10 = dataEnd
      · exact .inl (by rw [hend, hz])
      · have := h10 (by omega)
        tauto
    · rw [h]
      by_cases hend : strnchrnul m line (dataEnd - line + 1) 13 < dataEnd
      · rw [min_eq_left hend.le]
        have := h13 (by omega)
        tauto
      · rw [min_eq_right (not_lt.mp hend)]
        exact .inl hz

/-- The loop takes the lines that `LoopLines` says, and cuts each into its columns. -/
theorem parseCsvRows_lines (hn : n ≠ 0) (hend : dataEnd < 2 ^ 63) {fuel : ℕ}
    (hfuel : dataEnd + 1 < line + fuel) (hz : peek m dataEnd = 0) :
    ∃ ls, LoopLines (slice m line dataEnd) ls ∧
      (parseCsvRows dataEnd n fuel m line).2.map
        (List.map (cstr (parseCsvRows dataEnd n fuel m line).1)) = ls.map (lineColumns n) := by
  induction fuel generalizing m line with
  | zero =>
    rw [slice_of_le m (by omega)]
    exact ⟨[], .done, rfl⟩
  | succ fuel ih =>
    by_cases hlt : line < dataEnd
    swap
    · have hstop : ¬ (line ≤ dataEnd ∧ peek m line ≠ 0) := by
        rintro ⟨hle, hne⟩
        obtain rfl : line = dataEnd := by omega
        exact hne hz
      rw [slice_of_le m (by omega), parseCsvRows, if_neg hstop]
      exact ⟨[], .done, rfl⟩
    by_cases hnul : peek m line = 0
    · rw [slice_cons m hlt, hnul, parseCsvRows, if_neg (by simp [hnul])]
      exact ⟨[], .stop _, rfl⟩
    obtain ⟨l, hskip, hlinel, hl, hds, hstop⟩ := skipRowDelims_stop hz hlt.le
    obtain ⟨e, he, hle, hed, hplain, hhit⟩ := findRowEnd_stop hz hl
    rw [parseCsvRows, if_pos ⟨hlt.le, hnul⟩, csvMax_of_lt hlt (by omega)]
    simp only [hskip, he]
    rw [← slice_append m hlinel hl]
    have hz' : peek (clear m e) dataEnd = 0 := by rw [peek_clear, hz, ite_self]
    have hnext : slice (clear m e) (e + 1) dataEnd = slice m (e + 1) dataEnd :=
      slice_congr fun i hi _ => peek_clear_ne m (by omega)
    rcases hl.lt_or_eq with hlt' | rfl
    swap
    · -- only delimiters are left
      obtain rfl : e = l := by omega
      rw [if_pos (.inl rfl), slice_of_le m le_rfl, List.append_nil]
      rw [parseCsvRows_past _ (Nat.lt_succ_self e)]
      refine ⟨[], .blank hds ?_, rfl⟩
      exact List.ne_nil_of_length_pos (by rw [length_slice]; omega)
    by_cases hnul' : peek m l = 0
    · -- delimiters, and a NUL behind them
      obtain rfl : e = l := by
        by_contra hne
        exact (hplain _ (mem_slice.mpr ⟨l, le_rfl, by omega, rfl⟩)).1 hnul'
      rw [if_pos (.inr (csvMax_self e (by omega))), slice_cons m hlt', hnul', ← hnext]
      obtain ⟨ls, hlines, hrows⟩ := @ih _ (e + 1) (by omega) hz'
      refine ⟨ls, .skip hds ?_ hlines, hrows⟩
      rintro hnil
      have hlen := congrArg List.length hnil
      rw [length_slice, List.length_nil] at hlen
      obtain rfl : line = e := by omega
      exact hnul hnul'
    -- a row
    have hlte : l < e := by
      refine lt_of_le_of_ne hle ?_
      rintro rfl
      rcases hhit with h | h
      · exact hnul' h
      · rw [hstop] at h
        cases h
    have hne : slice m l e ≠ [] := List.ne_nil_of_length_pos (by rw [length_slice]; omega)
    have hblank : ¬ (l = dataEnd ∨ csvMax l e = 0) := by
      rw [csvMax_of_lt hlte (by omega)]
      omega
    rw [if_neg hblank, csvMax_of_lt hlte (by omega),
      findRowEnd_clear hle (by omega : e < l + (dataEnd - l + 1)) he.symm]
    have htext : slice (clear m e) l e = slice m l e :=
      slice_congr fun i _ hi => peek_clear_ne m (by omega)
    have hcut := parseCsvLine_columns hn hlte (by omega) (peek_clear_self m e) fun i hi hie => by
      rw [peek_clear_ne m (by omega)]
      exact (hplain _ (mem_slice.mpr ⟨i, hi, hie, rfl⟩)).1
    rw [htext] at hcut
    have hbounds : ∀ p ∈ (parseCsvLine (clear m e) l (e - l + 1) n).2, p ≤ e := fun p hp => by
      have := (parseCsvColumns_bounds (by omega) (fun _ => by
        rw [show l + (e - l + 1 - 1) = e by omega, peek_clear_self]) n none 0 p hp).2
      omega
    generalize parseCsvLine (clear m e) l (e - l + 1) n = r at hcut hbounds ⊢
    by_cases heof : peek m e = 0
    · rw [if_pos heof]
      refine ⟨[slice m l e], ?_, congrArg (· :: []) hcut.texts⟩
      rcases hed.lt_or_eq with hed' | rfl
      · rw [← slice_append m hle hed, slice_cons m hed', heof]
        exact .lastNul _ hds hplain hne
      · exact .last hds hplain hne
    · have hed' : e < dataEnd := lt_of_le_of_ne hed (by rintro rfl; exact heof hz)
      have hz'' : peek r.1 dataEnd = 0 := by rw [hcut.frame _ (.inr hed'), hz']
      have hrest : slice r.1 (e + 1) dataEnd = slice m (e + 1) dataEnd := by
        rw [← hnext]
        exact slice_congr fun i hi _ => hcut.frame i (.inr (by omega))
      rw [if_neg heof]
      obtain ⟨ls, hlines, hrows⟩ := @ih _ (e + 1) (by omega) hz''
      have hframe := parseCsvRows_frame dataEnd n fuel r.1 (e + 1)
      rw [hrest] at hlines
      refine ⟨slice m l e :: ls, ?_, ?_⟩
      · rw [← slice_append m hle hed, slice_cons m hed']
        exact .row hds hplain hne (hhit.resolve_left heof) hlines
      · rw [List.map_cons, List.map_cons, hrows, ← hcut.texts]
        refine congrArg (· :: _) (List.map_congr_left fun p hp => ?_)
        exact (cstr_congr hframe.symm (Nat.lt_succ_self e) (hbounds p hp) hcut.nul).symm

end Rows

/-! ## Behind the first NUL -/

/-- A row stands in what is left; `seen` says that a delimiter has been skipped. -/
def findsRow : Bool → List UInt8 → Bool
  | _, [] => false
  | seen, b :: l =>
    if b = 0 then seen && findsRow false l
    else if isRowDelim b then findsRow true l
    else true

/-- The text ends in a blank line: in two delimiters, or in one that is all of it. -/
def endsBlank (text : List UInt8) : Bool :=
  match text.reverse with
  | [] => false
  | [d] => isRowDelim d
  | d :: d' :: _ => isRowDelim d && isRowDelim d'

/-- The parser goes on behind the first NUL, and finds rows there. -/
def resumes (text : List UInt8) : Bool :=
  endsBlank (text.takeWhile (· ≠ 0)) && findsRow false ((text.dropWhile (· ≠ 0)).drop 1)

section Resumes

variable {ds row l : List UInt8} {d b : UInt8} {seen : Bool}

/-- Any other character is a row. -/
theorem findsRow_plain (h : Plain 0 isRowDelim b) : findsRow seen (b :: l) = true := by
  rw [findsRow, if_neg h.1, if_neg (by rw [h.2]; decide)]

/-- The end of a row is no NUL. -/
theorem ne_zero_of_isRowDelim (h : isRowDelim d = true) : d ≠ 0 := by
  rintro rfl
  cases h

/-- The ends of rows are passed over. -/
theorem findsRow_delims (hds : ∀ d ∈ ds, isRowDelim d = true) :
    findsRow seen (ds ++ l) = findsRow (seen || ds ≠ []) l := by
  induction ds generalizing seen with
  | nil => simp
  | cons d ds ih =>
    obtain ⟨hd, hrest⟩ := List.forall_mem_cons.mp hds
    rw [List.cons_append, findsRow, if_neg (ne_zero_of_isRowDelim hd), if_pos hd, ih hrest]
    simp

/-- Behind the end there is no row. -/
@[simp] theorem findsRow_nil : findsRow seen [] = false := by cases seen <;> rfl

/-- A row that is not empty is found. -/
theorem findsRow_row (hrow : ∀ b ∈ row, Plain 0 isRowDelim b) (hne : row ≠ []) :
    findsRow seen (row ++ l) = true := by
  obtain ⟨b, row, rfl⟩ := List.exists_cons_of_ne_nil hne
  exact findsRow_plain (hrow b List.mem_cons_self)

/-- What the loop takes is nothing unless a row is left. -/
theorem LoopLines.ne_nil_iff {ls : List (List UInt8)} (h : LoopLines l ls) :
    ls ≠ [] ↔ findsRow false l = true := by
  induction h with
  | done => simp
  | stop l => simp [findsRow]
  | blank hds hne =>
    rename_i ds
    rw [← List.append_nil ds, findsRow_delims hds]
    simp
  | skip hds hne h ih =>
    rw [ih, findsRow_delims hds, findsRow, if_pos rfl]
    simp [hne]
  | last hds hrow hne =>
    rename_i ds row
    rw [findsRow_delims hds, ← List.append_nil row, findsRow_row hrow hne]
    simp
  | lastNul l hds hrow hne =>
    rw [findsRow_delims hds, findsRow_row hrow hne]
    simp
  | row hds hrow hne hd h ih =>
    rw [findsRow_delims hds, findsRow_row hrow hne]
    simp

/-! A line that is complete does not decide whether the text ends in a blank one. -/

/-- Nothing but ends of rows is blank. -/
theorem endsBlank_delims (hds : ∀ d ∈ ds, isRowDelim d = true) (hne : ds ≠ []) :
    endsBlank ds = true := by
  have hrev : ∀ d ∈ ds.reverse, isRowDelim d = true := fun d hd => hds d (List.mem_reverse.mp hd)
  rw [endsBlank]
  match hr : ds.reverse with
  | [] => exact absurd (List.reverse_eq_nil_iff.mp hr) hne
  | [d] => exact hrev d (by simp [hr])
  | d :: d' :: r => simp [hrev d (by simp [hr]), hrev d' (by simp [hr])]

/-- A text that ends in another character is not. -/
theorem endsBlank_plain (pre : List UInt8) (hb : isRowDelim b = false) :
    endsBlank (pre ++ [b]) = false := by
  rw [endsBlank, List.reverse_append]
  match pre.reverse with
  | [] => simpa using hb
  | d :: r => simp [hb]

/-- Behind a whole row the rest decides. -/
theorem endsBlank_complete (pre : List UInt8) (hb : isRowDelim b = false)
    (hd : isRowDelim d = true) : endsBlank (pre ++ b :: d :: l) = endsBlank l := by
  rw [endsBlank, endsBlank, List.reverse_append, List.reverse_cons, List.reverse_cons]
  match l.reverse with
  | [] => simp [hb]
  | [c] => simp [hd]
  | c :: c' :: r => simp

/-- The first NUL of a text is behind a part that has none. -/
theorem resumes_append {pre : List UInt8} (hpre : ∀ b ∈ pre, b ≠ 0) :
    resumes (pre ++ l) = (endsBlank (pre ++ l.takeWhile (· ≠ 0)) &&
      findsRow false ((l.dropWhile (· ≠ 0)).drop 1)) := by
  have hpos : ∀ b ∈ pre, decide (b ≠ 0) = true := fun b hb => by simpa using hpre b hb
  rw [resumes, List.takeWhile_append_of_pos hpos, List.dropWhile_append_of_pos hpos]

/-- Without a NUL there is nothing behind it. -/
theorem resumes_of_no_nul (h : ∀ b ∈ l, b ≠ 0) : resumes l = false := by
  rw [← List.append_nil l, resumes_append h]
  simp

/-- Leading delimiters, a row and what ends it. -/
theorem lines_resumes_of_row (hds : ∀ d ∈ ds, isRowDelim d = true)
    (hrow : ∀ b ∈ row, Plain 0 isRowDelim b) (hne : row ≠ []) (hd : isRowDelim d = true) :
    csvLines (ds ++ (row ++ d :: l)) = row :: csvLines l ∧
      resumes (ds ++ (row ++ d :: l)) = resumes l := by
  constructor
  · rw [csvLines, lines_delims fun d hd => ⟨ne_zero_of_isRowDelim (hds d hd), hds d hd⟩,
      lines_row hrow hne (ne_zero_of_isRowDelim hd) hd]
    rfl
  · obtain ⟨row, b, rfl⟩ := (List.eq_nil_or_concat row).resolve_left hne
    have hb := hrow b (by simp)
    have hsplit : ∀ r, ds ++ (row.concat b ++ d :: r) = (ds ++ row) ++ b :: d :: r := by simp
    have hpre : ∀ c ∈ (ds ++ row) ++ [b, d], c ≠ 0 := by
      intro c hc
      simp only [List.mem_append, List.mem_cons, List.not_mem_nil, or_false] at hc
      rcases hc with (hc | hc) | rfl | rfl
      · exact ne_zero_of_isRowDelim (hds c hc)
      · exact (hrow c (by simp [hc])).1
      · exact hb.1
      · exact ne_zero_of_isRowDelim hd
    rw [hsplit, show (ds ++ row) ++ b :: d :: l = ((ds ++ row) ++ [b, d]) ++ l by simp,
      resumes_append hpre, List.append_assoc, List.cons_append, List.cons_append, List.nil_append,
      endsBlank_complete _ hb.2 hd, resumes]

/-- The loop takes the lines of the text, and more when it goes on behind the first NUL. -/
theorem LoopLines.eq_csvLines {ls : List (List UInt8)} (h : LoopLines l ls) :
    ∃ extra, ls = csvLines l ++ extra ∧ (extra ≠ [] ↔ resumes l = true) := by
  -- by the way the loop goes through the text
  induction h with
  | done => exact ⟨[], rfl, by simp [resumes]⟩
  | stop l => exact ⟨[], by simp [csvLines], by simp [resumes, endsBlank]⟩
  | blank hds hne =>
    rename_i ds
    have hnul : ∀ d ∈ ds, d ≠ 0 := fun d hd => ne_zero_of_isRowDelim (hds d hd)
    refine ⟨[], ?_, by simp [resumes_of_no_nul hnul]⟩
    rw [csvLines, ← List.append_nil ds, lines_delims fun d hd => ⟨hnul d hd, hds d hd⟩]
    rfl
  -- the loop goes on behind the NUL of a blank line
  | skip hds hne h ih =>
    rename_i ds l ls
    have hnul : ∀ d ∈ ds, d ≠ 0 := fun d hd => ne_zero_of_isRowDelim (hds d hd)
    refine ⟨ls, ?_, ?_⟩
    · rw [csvLines, lines_delims fun d hd => ⟨hnul d hd, hds d hd⟩, lines_nul, List.nil_append]
    · rw [h.ne_nil_iff, resumes_append hnul]
      simp [endsBlank_delims hds hne]
  | last hds hrow hne =>
    rename_i ds row
    have hlast := lines_last (l := []) hrow hne rfl
    rw [List.append_nil] at hlast
    refine ⟨[], ?_, ?_⟩
    · rw [csvLines, lines_delims fun d hd => ⟨ne_zero_of_isRowDelim (hds d hd), hds d hd⟩, hlast]
      rfl
    · rw [resumes_of_no_nul fun b hb => ?_]
      · simp
      · rcases List.mem_append.mp hb with hb | hb
        · exact ne_zero_of_isRowDelim (hds b hb)
        · exact (hrow b hb).1
  | lastNul l hds hrow hne =>
    rename_i ds row
    refine ⟨[], ?_, ?_⟩
    · rw [csvLines, lines_delims fun d hd => ⟨ne_zero_of_isRowDelim (hds d hd), hds d hd⟩,
        lines_last hrow hne (by simp)]
      rfl
    · obtain ⟨row, b, rfl⟩ := (List.eq_nil_or_concat row).resolve_left hne
      have hpre : ∀ c ∈ ds ++ row.concat b, c ≠ 0 := by
        intro c hc
        rcases List.mem_append.mp hc with hc | hc
        · exact ne_zero_of_isRowDelim (hds c hc)
        · exact (hrow c hc).1
      rw [← List.append_assoc, resumes_append hpre, List.takeWhile_cons_of_neg (by simp),
        List.append_nil, List.concat_eq_append, ← List.append_assoc,
        endsBlank_plain _ (hrow b (by simp)).2]
      simp
  | row hds hrow hne hd h ih =>
    obtain ⟨extra, rfl, hextra⟩ := ih
    obtain ⟨hlines, hresumes⟩ := lines_resumes_of_row (l := _) hds hrow hne hd
    exact ⟨extra, by rw [hlines, List.cons_append], by rw [hresumes, hextra]⟩

end Resumes

end Shim
