import Shim.Sbat.Verify

/-! # What follows the text

`parse_sbat_var` copies its candidate without the terminator, so the byte `parse_csv_data` takes
for it is whatever the allocator returned. Up to that byte the parse is the parse of the
terminated text: every row found there is found here with the same columns, and the unknown bytes
can only add rows behind them, or make the text look like a byte order mark.
-/

namespace Shim

open Bytes

/-- The C strings at `p` are the same text in both memories. -/
def SameText (m m' : Mem) (p : ℕ) : Prop :=
  ∃ q, p ≤ q ∧ peek m q = 0 ∧ AgreeBelow (q + 1) m m'

/-- The same text is the same string. -/
theorem SameText.cstr_eq {m m' : Mem} {p : ℕ} (h : SameText m m' p) : cstr m p = cstr m' p := by
  obtain ⟨q, hpq, hz, hagree⟩ := h
  exact cstr_congr hagree q.lt_succ_self hpq hz

/-- It starts with the same character. -/
theorem SameText.peek_eq {m m' : Mem} {p : ℕ} (h : SameText m m' p) : peek m p = peek m' p := by
  obtain ⟨q, hpq, -, hagree⟩ := h
  exact hagree p (by omega)

/-- Later writes behind the terminator change no text. -/
theorem SameText.of_frame {m m' a b : Mem} {p n : ℕ} (hpn : p < n)
    (hz : peek m (n - 1) = 0) (h : AgreeBelow n m m') (ha : AgreeBelow n a m)
    (hb : AgreeBelow n b m') : SameText a b p := by
  refine ⟨n - 1, by omega, ?_, ?_⟩
  · rw [ha _ (by omega), hz]
  · rw [show n - 1 + 1 = n by omega]
    exact (ha.trans h).trans hb.symm

/-- At the end of the text the skip either stops in both memories or, in the one whose last byte
is a delimiter, runs over that byte. -/
theorem skipRowDelims_tail {a b : Mem} {d : ℕ} (hagree : AgreeBelow d a b)
    (hb : peek b d = 0) (line max : ℕ) (hsum : line + max = d + 1) (hpos : 0 < max) :
    skipRowDelims a max line = skipRowDelims b max line ∧ 0 < (skipRowDelims b max line).2 ∨
      skipRowDelims b max line = (d, 1) ∧ skipRowDelims a max line = (d + 1, 0) := by
  induction max generalizing line with
  | zero => omega
  | succ max ih =>
    rw [skipRowDelims, skipRowDelims]
    by_cases hlt : line < d
    · rw [hagree line hlt]
      by_cases hdelim : peek b line ∈ rowDelims
      · rw [if_pos hdelim, if_pos hdelim]
        exact ih (line + 1) (by omega) (by omega)
      · rw [if_neg hdelim, if_neg hdelim]
        exact .inl ⟨rfl, Nat.succ_pos _⟩
    · obtain rfl : line = d := by omega
      obtain rfl : max = 0 := by omega
      rw [hb, if_neg (show (0 : UInt8) ∉ rowDelims by decide)]
      by_cases hdelim : peek a line ∈ rowDelims
      · rw [if_pos hdelim]
        exact .inr ⟨rfl, rfl⟩
      · rw [if_neg hdelim]
        exact .inl ⟨rfl, Nat.one_pos⟩

/-- The rows of the terminated text `b` come first among the rows of a memory `a` that agrees with
it before the terminator, and name the same texts. -/
theorem parseCsvRows_initial {d : ℕ} (nColumns : ℕ) {a b : Mem} (hd : d < 2 ^ 63)
    (hagree : AgreeBelow d a b) (hb : peek b d = 0) (fuel line : ℕ) :
    ∃ extra, (parseCsvRows d nColumns fuel a line).2 =
        (parseCsvRows d nColumns fuel b line).2 ++ extra ∧
      ∀ row ∈ (parseCsvRows d nColumns fuel b line).2, ∀ p ∈ row,
        SameText (parseCsvRows d nColumns fuel a line).1
          (parseCsvRows d nColumns fuel b line).1 p := by
  induction fuel generalizing a b line with
  | zero => exact ⟨[], rfl, by simp [parseCsvRows]⟩
  | succ fuel ih =>
    by_cases hline : line < d ∧ peek b line ≠ 0
    swap
    · -- the terminated text ends here
      have hstop : ¬ (line ≤ d ∧ peek b line ≠ 0) := by
        rintro ⟨hle, hne⟩
        rcases Nat.lt_or_eq_of_le hle with hlt | rfl
        · exact hline ⟨hlt, hne⟩
        · exact hne hb
      have hrows : parseCsvRows d nColumns (fuel + 1) b line = (b, []) := by
        rw [parseCsvRows, if_neg hstop]
      rw [hrows]
      exact ⟨_, rfl, by simp⟩
    obtain ⟨hlt, hne⟩ := hline
    have hgoA : line ≤ d ∧ peek a line ≠ 0 := ⟨by omega, by rwa [hagree line hlt]⟩
    have hgoB : line ≤ d ∧ peek b line ≠ 0 := ⟨by omega, hne⟩
    rw [parseCsvRows, parseCsvRows, if_pos hgoA, if_pos hgoB, csvMax_of_lt hlt (by omega)]
    dsimp only
    have hsum := skipRowDelims_sum b (d - line + 1) line
    rcases skipRowDelims_tail hagree hb line (d - line + 1) (by omega) (by omega)
      with ⟨hskip, hpos⟩ | ⟨hskip, -⟩
    swap
    · -- only blank lines are left, and the delimiters run over the end of the text
      have hend : findRowEnd b d 1 d = d :=
        le_antisymm (findRowEnd_le _ _ _ _) (le_findRowEnd 1 le_rfl le_rfl)
      simp only [hskip, hend, true_or, if_true]
      rw [parseCsvRows_past _ (Nat.lt_succ_self d)]
      exact ⟨_, rfl, by simp⟩
    rw [hskip]
    have hle := le_skipRowDelims b (d - line + 1) line
    generalize skipRowDelims b (d - line + 1) line = skip at hsum hpos hle ⊢
    obtain ⟨l, x⟩ := skip
    dsimp only at hsum hpos hle ⊢
    rw [findRowEnd_congr hagree l x (by omega)]
    have hend : l ≤ findRowEnd b l x d := le_findRowEnd x le_rfl (by omega)
    have hend_le := findRowEnd_le b l x d
    have hsecond : ∀ m : Mem, AgreeBelow d m b → l < findRowEnd b l x d →
        findRowEnd (clear m (findRowEnd b l x d)) l (findRowEnd b l x d - l + 1)
          (findRowEnd b l x d) = findRowEnd b l x d := by
      intro m hm hlt'
      exact findRowEnd_clear hend (by omega) (findRowEnd_congr hm l x (by omega) d).symm
    generalize findRowEnd b l x d = e at hend hend_le hsecond ⊢
    have hagree' : AgreeBelow d (clear a e) (clear b e) := hagree.clear e
    have hb' : peek (clear b e) d = 0 := by rw [peek_clear, hb, ite_self]
    by_cases hblank : l = d ∨ csvMax l e = 0
    · rw [if_pos hblank, if_pos hblank]
      exact ih hagree' hb' (e + 1)
    rw [if_neg hblank, if_neg hblank]
    have hle' : l < e := by
      rcases Nat.lt_or_eq_of_le hend with h | rfl
      · exact h
      · exact absurd (.inr (csvMax_self l (by omega))) hblank
    rw [csvMax_of_lt hle' (by omega), hsecond a hagree hle', hsecond b (.refl _ _) hle']
    -- the two rows are the same, and so is everything up to the end of the row
    have hk : AgreeBelow (max d (e + 1)) (clear a e) (clear b e) := by
      rcases Nat.lt_or_eq_of_le hend_le with h | rfl
      · rw [max_eq_left h]
        exact hagree'
      · rw [max_eq_right (Nat.le_succ e)]
        exact hagree.clear_succ
    have hz : ∀ m : Mem, 0 < e - l + 1 → peek (clear m e) (l + (e - l + 1 - 1)) = 0 := by
      intro m _
      rw [show l + (e - l + 1 - 1) = e by omega, peek_clear_self]
    obtain ⟨hcols, hmem⟩ := parseCsvColumns_congr hk
      (show l + (e - l + 1) ≤ max d (e + 1) by omega) (by omega) (hz a) nColumns none 0
    have hbounds := parseCsvColumns_bounds (show e - l + 1 < 2 ^ 64 by omega) (hz b)
      nColumns none 0
    have hzA := parseCsvColumns_zero (peek_clear_self a e) nColumns l (e - l + 1) none 0
    have hzB := parseCsvColumns_zero hb' nColumns l (e - l + 1) none 0
    simp only [parseCsvLine]
    rw [hcols]
    generalize parseCsvColumns (clear a e) nColumns l (e - l + 1) none 0 = ra at hmem hzA ⊢
    generalize parseCsvColumns (clear b e) nColumns l (e - l + 1) none 0 = rb at *
    have hrow : ∀ m m' : Mem, AgreeBelow (e + 1) m ra.1 → AgreeBelow (e + 1) m' rb.1 →
        ∀ p ∈ rb.2, SameText m m' p := by
      intro m m' hm hm' p hp
      have := hbounds p hp
      exact .of_frame (n := e + 1) (by omega) hzA (hmem.mono (by omega)) hm hm'
    by_cases heofB : peek b e = 0
    · rw [if_pos heofB]
      by_cases heofA : peek a e = 0
      · rw [if_pos heofA]
        refine ⟨[], rfl, fun row hr p hp => ?_⟩
        rw [List.mem_singleton.mp hr] at hp
        exact hrow _ _ (.refl _ _) (.refl _ _) p hp
      · rw [if_neg heofA]
        refine ⟨_, rfl, fun row hr p hp => ?_⟩
        rw [List.mem_singleton.mp hr] at hp
        exact hrow _ _ (parseCsvRows_frame _ _ _ _ _) (.refl _ _) p hp
    · have hed : e < d := lt_of_le_of_ne hend_le (by rintro rfl; exact heofB hb)
      rw [if_neg heofB, if_neg (by rwa [hagree e hed])]
      obtain ⟨extra, hrest, htext⟩ := ih (hmem.mono (le_max_left _ _)) hzB (e + 1)
      refine ⟨extra, congrArg _ hrest, fun row hr p hp => ?_⟩
      rcases List.mem_cons.mp hr with rfl | hr
      · exact hrow _ _ (parseCsvRows_frame _ _ _ _ _) (parseCsvRows_frame _ _ _ _ _) p hp
      · exact htext row hr p hp

/-! ## Entries of a candidate -/

/-- The entries of a payload as they are read back from a variable, where a NUL follows it; none
if it does not parse. -/
def payloadEntries (payload : List UInt8) : List SbatVarEntry :=
  match parseSbatVarData payload (payload.length + 1) with
  | .ok entries => entries
  | .error _ => []

/-- The texts of the columns are the same. -/
theorem columnText_congr {m m' : Mem} {row : List ℕ} (h : ∀ p ∈ row, SameText m m' p) (i : ℕ) :
    columnText m row i = columnText m' row i := by
  unfold columnText
  cases hp : row[i]? with
  | none => rfl
  | some p => simp [(h p (List.mem_of_getElem? hp)).cstr_eq]

/-- So is whether the row is accepted. -/
theorem rowAccepted_congr {m m' : Mem} {required : ℕ} {row : List ℕ}
    (h : ∀ p ∈ row, SameText m m' p) :
    rowAccepted m required row = rowAccepted m' required row := by
  have hall : (row.all fun p => peek m p ≠ 0) = row.all fun p => peek m' p ≠ 0 := by
    rw [Bool.eq_iff_iff, List.all_eq_true, List.all_eq_true]
    exact forall₂_congr fun p hp => by rw [(h p hp).peek_eq]
  rw [rowAccepted, rowAccepted, hall]

/-- So is the entry that is made of it. -/
theorem sbatVarEntry_congr {m m' : Mem} {row : List ℕ} (h : ∀ p ∈ row, SameText m m' p) :
    sbatVarEntry m row = sbatVarEntry m' row := by
  have hdate : row[2]?.map (cstr m) = row[2]?.map (cstr m') := by
    cases hp : row[2]? with
    | none => rfl
    | some p => simp [(h p (List.mem_of_getElem? hp)).cstr_eq]
  simp only [sbatVarEntry, columnText_congr h, hdate]

/-- A byte order mark is only missed by the terminated text when the text is shorter than one. -/
theorem isUtf8Bom_tail {a b : Mem} {d : ℕ} (hagree : AgreeBelow d a b) (hb : peek b d = 0)
    (hpos : 0 < d) (hd : d < 2 ^ 63) (hne : isUtf8Bom a (csvMax 0 d) ≠ isUtf8Bom b (csvMax 0 d)) :
    isUtf8Bom a (csvMax 0 d) = true ∧ d < 3 := by
  rw [csvMax_of_lt hpos (by omega)] at hne ⊢
  have h3 : d < 3 := by
    by_contra hge
    refine hne ?_
    rw [isUtf8Bom, isUtf8Bom, Bool.eq_iff_iff, List.all_eq_true, List.all_eq_true]
    refine forall₂_congr fun i hi => ?_
    rw [hagree i (by have := List.mem_range.mp hi; omega)]
  refine ⟨?_, h3⟩
  have hfalse : isUtf8Bom b (d - 0 + 1) = false := by
    rw [isUtf8Bom, List.all_eq_false]
    refine ⟨d, List.mem_range.mpr (by omega), ?_⟩
    interval_cases d <;> simp [hb]
  rw [hfalse] at hne
  exact Bool.not_eq_false _ ▸ hne

/-- A byte order mark cut short by the end of the payload is a row of no columns. -/
theorem payloadEntries_bom {payload : List UInt8} {heap : List UInt8} (hpos : 0 < payload.length)
    (h3 : payload.length < 3)
    (hbom : isUtf8Bom (payload ++ heap) (payload.length + 1) = true) :
    payloadEntries payload = [] := by
  rw [isUtf8Bom, List.all_eq_true] at hbom
  have h0 := hbom 0 (List.mem_range.mpr (by omega))
  have h1 := hbom 1 (List.mem_range.mpr (by omega))
  match payload, hpos, h3 with
  | [x], _, _ =>
    obtain rfl : x = 0xef := by simpa [peek] using h0
    rfl
  | [x, y], _, _ =>
    obtain rfl : x = 0xef := by simpa [peek] using h0
    obtain rfl : y = 0xbb := by simpa [peek] using h1
    rfl

/-- Rows that name the same texts, accepted in one memory, are the same entries in the other. -/
theorem parseSbatVarData_of_sameText {a b m : Mem} {size : ℕ} {rows : List (List ℕ)}
    (hdata : parseCsvData m size sbatVarColumns = .ok (b, rows))
    (htext : ∀ row ∈ rows, ∀ p ∈ row, SameText a b p)
    (hall : ∀ row ∈ rows, rowAccepted a sbatVarRequiredColumns row = true) :
    parseSbatVarData m (size + 1) = .ok (rows.map (sbatVarEntry a)) := by
  have hall' : rows.all (rowAccepted b sbatVarRequiredColumns) = true := by
    refine List.all_eq_true.mpr fun row hrow => ?_
    rw [← rowAccepted_congr (htext row hrow)]
    exact hall row hrow
  rw [← Nat.add_sub_cancel (n := size) (m := 1)] at hdata
  rw [parseSbatVarData, parseSbatRows_eq _ size.succ_ne_zero hdata, if_pos hall']
  exact congrArg _ (List.map_congr_left fun row hrow => (sbatVarEntry_congr (htext row hrow)).symm)

/-- Whatever follows the candidate in memory, the entries of the terminated candidate come first
among those the parse returns. -/
theorem payloadEntries_initial {payload heap : List UInt8} (hlen : payload.length < 2 ^ 31)
    {entries : List SbatVarEntry}
    (h : parseSbatVarData (payload ++ heap) (payload.length + 1) = .ok entries) :
    payloadEntries payload <+: entries := by
  have hagree : AgreeBelow payload.length (payload ++ heap) payload :=
    fun i hi => peek_append_left hi
  have hb : peek payload payload.length = 0 := peek_of_le le_rfl
  obtain ⟨m, rows, hdata, hall, rfl⟩ := parseSbatRows_ok h
  obtain ⟨hpos, hrows⟩ := parseCsvData_ok hdata
  rw [Nat.add_sub_cancel] at hpos hrows
  -- the heap's bytes complete a byte order mark, or they do not matter to it
  by_cases hbom : isUtf8Bom (payload ++ heap) (csvMax 0 payload.length) =
      isUtf8Bom payload (csvMax 0 payload.length)
  · have hstart : csvStart (payload ++ heap) payload.length = csvStart payload payload.length := by
      rw [csvStart, csvStart, hbom]
    rw [hstart] at hrows
    have hdata' := parseCsvData_eq (m := payload) (Nat.ne_of_gt hpos)
      (show sbatVarColumns ≠ 0 by decide)
    -- the rows of the payload come first, and their texts end in it
    obtain ⟨extra, hinitial, htext⟩ := parseCsvRows_initial sbatVarColumns
      (by omega) hagree hb (payload.length + 2) (csvStart payload payload.length)
    rw [← hrows] at hinitial htext
    dsimp only at hinitial htext
    rw [hinitial] at hall ⊢
    have hentries := parseSbatVarData_of_sameText hdata' htext fun row hrow =>
      List.all_eq_true.mp hall row (List.mem_append_left _ hrow)
    rw [payloadEntries, hentries, List.map_append]
    exact List.prefix_append _ _
  · obtain ⟨hA, h3⟩ := isUtf8Bom_tail hagree hb hpos (by omega) hbom
    rw [csvMax_of_lt hpos (by omega), Nat.sub_zero] at hA
    rw [payloadEntries_bom hpos h3 hA]
    exact List.nil_prefix

end Shim
