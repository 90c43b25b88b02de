import Shim.Common.Bytes
import Shim.Efi.Status

/-! # The CSV parser

`csv.c` and the tokenizer of `include/str.h`, over the memory the text is in. The parser cuts the
text in place: it overwrites delimiters by NUL and hands out offsets of the columns, so a row is
the list of the offsets of its columns. `data` is offset `0`; `size_t` arithmetic wraps at `2^64`.
-/

namespace Shim

open Bytes

/-! ## The tokenizer (include/str.h) -/

/-- The loop of `strnchrnul`: the first index below `max` whose byte is NUL or `c`, else `max`. -/
def strnchrnulScan (m : Mem) (c : UInt8) : ℕ → ℕ → ℕ
  | 0, _ => 0
  | max + 1, s => if peek m s = 0 ∨ peek m s = c then 0 else strnchrnulScan m c max (s + 1) + 1

/-- `strnchrnul`: where `c` or a NUL first occurs, or the last of the `max` bytes. -/
def strnchrnul (m : Mem) (s max : ℕ) (c : UInt8) : ℕ :=
  if max = 0 then s
  else
    let i := strnchrnulScan m c max s
    if i = max then s + (i - 1) else s + i

/-- What `strntoken` finds out about the text before it cuts it. -/
structure TokenScan where
  tokend : ℕ
  isdelim : Bool
  stateIsDelim : Bool

/-- One turn of the delimiter loop of `strntoken`. -/
def strntokenStep (m : Mem) (str max : ℕ) (token : Option ℕ) (state : UInt8)
    (scan : TokenScan) (delim : UInt8) : TokenScan :=
  let stateIsDelim := scan.stateIsDelim || (token.isSome && delim = state)
  let tmp := strnchrnul m str max delim
  let tokend := if tmp < scan.tokend then tmp else scan.tokend
  { tokend, isdelim := scan.isdelim || peek m tokend = delim, stateIsDelim }

/-- `strntoken`'s effects: its return value, the memory, `*token` and `*state`. -/
structure TokenResult where
  valid : Bool
  mem : Mem
  token : Option ℕ
  state : UInt8

/-- `strntoken`. -/
def strntoken (m : Mem) (str max : ℕ) (delims : List UInt8) (token : Option ℕ) (state : UInt8) :
    TokenResult :=
  if max = 0 then ⟨false, m, token, state⟩
  else
    -- "" with max = 1 and no token yet counts as standing right after a delimiter
    let start : TokenScan :=
      ⟨str + (max - 1), false, token.isNone && max = 1 && peek m str = 0⟩
    let scan := delims.foldl (strntokenStep m str max token state) start
    if scan.isdelim then ⟨true, clear m scan.tokend, some str, peek m scan.tokend⟩
    else ⟨scan.stateIsDelim, m, some str, state⟩

/-! ## Rows (csv.c) -/

/-- `','`. -/
def comma : UInt8 := 44

/-- The delimiters of rows, `"\r\n"`. -/
def rowDelims : List UInt8 := [13, 10]

/-- The column loop of `parse_csv_line`; `n` columns are still wanted. It stops at the first
invalid token, since `valid` is never set again. -/
def parseCsvColumns (m : Mem) : ℕ → ℕ → ℕ → Option ℕ → UInt8 → Mem × List ℕ
  | 0, _, _, _, _ => (m, [])
  | n + 1, next, max, token, state =>
    let r := strntoken m next max [comma] token state
    if r.valid then
      let len := strlen r.mem next
      let rest := parseCsvColumns r.mem n (next + len + 1) (sub64 max (len + 1)) r.token r.state
      (rest.1, next :: rest.2)
    else (r.mem, [])

/-- `parse_csv_line`: the memory after the cuts and the row's columns. -/
def parseCsvLine (m : Mem) (line max nColumns : ℕ) : Mem × List ℕ :=
  parseCsvColumns m nColumns line max none 0

/-- `is_utf8_bom`. -/
def isUtf8Bom (m : Mem) (max : ℕ) : Bool :=
  (List.range (min 3 max)).all fun i => peek m i = [0xef, 0xbb, 0xbf].getD i 0

/-- `max` as `parse_csv_data` computes it: the distance to `end`, `end` included. -/
def csvMax (line end_ : ℕ) : ℕ := sub64 end_ line + if line < end_ then 1 else 0

/-- The delimiter skip at the head of the loop: the new `line` and `max`. -/
def skipRowDelims (m : Mem) : ℕ → ℕ → ℕ × ℕ
  | 0, line => (line, 0)
  | max + 1, line =>
    if peek m line ∈ rowDelims then skipRowDelims m max (line + 1) else (line, max + 1)

/-- The search for the first row delimiter before `end`. -/
def findRowEnd (m : Mem) (line max end_ : ℕ) : ℕ :=
  rowDelims.foldl (fun e delim => min (strnchrnul m line max delim) e) end_

/-- The loop of `parse_csv_data`: the memory and the rows found. Each turn moves `line` forward,
so `fuel` past the end of the data is never used up. -/
def parseCsvRows (dataEnd nColumns : ℕ) : ℕ → Mem → ℕ → Mem × List (List ℕ)
  | 0, m, _ => (m, [])
  | fuel + 1, m, line =>
    if line ≤ dataEnd ∧ peek m line ≠ 0 then
      let skip := skipRowDelims m (csvMax line dataEnd) line
      let end_ := findRowEnd m skip.1 skip.2 dataEnd
      let max := csvMax skip.1 end_
      let eof := peek m end_ = 0
      let m := clear m end_
      if skip.1 = dataEnd ∨ max = 0 then parseCsvRows dataEnd nColumns fuel m (end_ + 1)
      else
        let end_ := findRowEnd m skip.1 max end_
        let row := parseCsvLine m skip.1 max nColumns
        if eof then (row.1, [row.2])
        else
          let rest := parseCsvRows dataEnd nColumns fuel row.1 (end_ + 1)
          (rest.1, row.2 :: rest.2)
    else (m, [])

/-- `parse_csv_data`, with the allocations succeeding. -/
def parseCsvData (m : Mem) (dataEnd nColumns : ℕ) : Except EfiStatus (Mem × List (List ℕ)) :=
  if dataEnd = 0 ∨ nColumns = 0 then .error .invalidParameter
  else
    let line := if isUtf8Bom m (csvMax 0 dataEnd) then 3 else 0
    .ok (parseCsvRows dataEnd nColumns (dataEnd + 2) m line)

/-! ## Where the tokenizer looks and writes -/

/-- The search stops at its bound. -/
theorem strnchrnulScan_le (m : Mem) (c : UInt8) (max s : ℕ) : strnchrnulScan m c max s ≤ max := by
  induction max generalizing s with
  | zero => exact Nat.le_refl _
  | succ max ih =>
    rw [strnchrnulScan]
    split
    · omega
    · have := ih (s + 1)
      omega

/-- A search in one byte stays there. -/
theorem strnchrnul_one (m : Mem) (s : ℕ) (c : UInt8) : strnchrnul m s 1 c = s := by
  simp only [strnchrnul, strnchrnulScan]
  split_ifs <;> simp_all

/-- The scan as a recursion on the bytes left. -/
theorem strnchrnul_succ_succ (m : Mem) (s max : ℕ) (c : UInt8) :
    strnchrnul m s (max + 2) c =
      if peek m s = 0 ∨ peek m s = c then s else strnchrnul m (s + 1) (max + 1) c := by
  simp only [strnchrnul]
  rw [strnchrnulScan]
  have hscan := strnchrnulScan_le m c (max + 1) (s + 1)
  by_cases h : peek m s = 0 ∨ peek m s = c
  · simp [h]
  · simp only [h, if_false, Nat.add_right_cancel_iff, Nat.succ_ne_zero]
    split_ifs <;> omega

/-- The result is one of the `max` bytes searched. -/
theorem strnchrnul_bounds (m : Mem) (s : ℕ) {max : ℕ} (c : UInt8) (h : 0 < max) :
    s ≤ strnchrnul m s max c ∧ strnchrnul m s max c < s + max := by
  have := strnchrnulScan_le m c max s
  simp only [strnchrnul]
  split_ifs <;> omega

/-- The search does not go back. -/
theorem le_strnchrnul (m : Mem) (s max : ℕ) (c : UInt8) : s ≤ strnchrnul m s max c := by
  cases max with
  | zero => simp [strnchrnul]
  | succ max => exact (strnchrnul_bounds m s c max.succ_pos).1

/-- The last byte searched does not influence the result. -/
theorem strnchrnul_congr {m m' : Mem} {n : ℕ} (h : AgreeBelow n m m') (s max : ℕ)
    (hs : s + max ≤ n + 1) (c : UInt8) : strnchrnul m s max c = strnchrnul m' s max c := by
  match max with
  | 0 => rfl
  | 1 => rw [strnchrnul_one, strnchrnul_one]
  | max + 2 =>
    rw [strnchrnul_succ_succ, strnchrnul_succ_succ, h s (by omega),
      strnchrnul_congr h (s + 1) (max + 1) (by omega) c]

/-- No NUL and no `c` stand before the result. -/
theorem strnchrnul_le_of_hit {m : Mem} {s j : ℕ} (max : ℕ) {c : UInt8} (hsj : s ≤ j)
    (hj : j < s + max) (hit : peek m j = 0 ∨ peek m j = c) : strnchrnul m s max c ≤ j := by
  match max with
  | 0 => omega
  | 1 => rw [strnchrnul_one]; exact hsj
  | max + 2 =>
    rw [strnchrnul_succ_succ]
    split
    · exact hsj
    · rename_i hmiss
      have hne : s ≠ j := by
        rintro rfl
        exact hmiss hit
      exact strnchrnul_le_of_hit (max + 1) (by omega) (by omega) hit

/-- Before the last byte the result is a NUL or `c`. -/
theorem strnchrnul_hit {m : Mem} {s max : ℕ} {c : UInt8}
    (h : strnchrnul m s max c + 1 < s + max) :
    peek m (strnchrnul m s max c) = 0 ∨ peek m (strnchrnul m s max c) = c := by
  match max with
  | 0 => exact absurd h (by simp [strnchrnul])
  | 1 => rw [strnchrnul_one] at h; omega
  | max + 2 =>
    rw [strnchrnul_succ_succ] at h ⊢
    by_cases hit : peek m s = 0 ∨ peek m s = c
    · simpa only [if_pos hit] using hit
    · rw [if_neg hit] at h ⊢
      exact strnchrnul_hit (by omega)

/-- The delimiter loop of `strntoken` only moves `tokend` back, and not before `str`. -/
theorem strntokenStep_tokend (m : Mem) (str max : ℕ) (token : Option ℕ) (state : UInt8)
    (scan : TokenScan) (delim : UInt8) (h : str ≤ scan.tokend) :
    str ≤ (strntokenStep m str max token state scan delim).tokend ∧
      (strntokenStep m str max token state scan delim).tokend ≤ scan.tokend := by
  have := le_strnchrnul m str max delim
  simp only [strntokenStep]
  split_ifs <;> omega

/-- The end of a token comes nearer with each delimiter. -/
theorem strntoken_fold_tokend (m : Mem) (str max : ℕ) (token : Option ℕ) (state : UInt8)
    (delims : List UInt8) (scan : TokenScan) (h : str ≤ scan.tokend) :
    str ≤ (delims.foldl (strntokenStep m str max token state) scan).tokend ∧
      (delims.foldl (strntokenStep m str max token state) scan).tokend ≤ scan.tokend := by
  induction delims generalizing scan with
  | nil => exact ⟨h, le_rfl⟩
  | cons delim delims ih =>
    have hstep := strntokenStep_tokend m str max token state scan delim h
    have hrest := ih _ hstep.1
    exact ⟨hrest.1, hrest.2.trans hstep.2⟩

/-- It depends on the bytes up to the bound only. -/
theorem strntoken_fold_congr {m m' : Mem} {n str max : ℕ} (hagree : AgreeBelow n m m')
    (hn : str + max ≤ n) (token : Option ℕ) (state : UInt8) (delims : List UInt8)
    (scan : TokenScan) (hlt : scan.tokend < n) :
    delims.foldl (strntokenStep m str max token state) scan =
      delims.foldl (strntokenStep m' str max token state) scan := by
  induction delims generalizing scan with
  | nil => rfl
  | cons delim delims ih =>
    have hstep : strntokenStep m str max token state scan delim =
        strntokenStep m' str max token state scan delim := by
      have htmp := strnchrnul_congr hagree str max (by omega) delim
      simp only [strntokenStep, htmp]
      split_ifs
      · rw [hagree _ (by omega)]
      · rw [hagree _ hlt]
    rw [List.foldl_cons, List.foldl_cons, hstep]
    refine ih _ ?_
    simp only [strntokenStep]
    split_ifs <;> omega

/-- `strntoken` writes at or after `str` only. -/
theorem strntoken_frame (m : Mem) (str max : ℕ) (delims : List UInt8) (token : Option ℕ)
    (state : UInt8) : AgreeBelow str (strntoken m str max delims token state).mem m := by
  unfold strntoken
  split_ifs with h0
  · exact .refl _ _
  · dsimp only
    split_ifs
    · exact agreeBelow_clear m (strntoken_fold_tokend m str max token state delims _ (by simp)).1
    · exact .refl _ _

/-- A terminator stays one. -/
theorem strntoken_zero {m : Mem} {i : ℕ} (h : peek m i = 0) (str max : ℕ) (delims : List UInt8)
    (token : Option ℕ) (state : UInt8) :
    peek (strntoken m str max delims token state).mem i = 0 := by
  unfold strntoken
  split_ifs
  · exact h
  · dsimp only
    split_ifs
    · rw [peek_clear, h, ite_self]
    · exact h

/-- `strntoken` is decided by its `max` bytes. -/
theorem strntoken_congr {m m' : Mem} {n str max : ℕ} (hagree : AgreeBelow n m m')
    (hn : str + max ≤ n) (delims : List UInt8) (token : Option ℕ) (state : UInt8) :
    (strntoken m str max delims token state).valid =
        (strntoken m' str max delims token state).valid ∧
      AgreeBelow n (strntoken m str max delims token state).mem
        (strntoken m' str max delims token state).mem ∧
      (strntoken m str max delims token state).token =
        (strntoken m' str max delims token state).token ∧
      (strntoken m str max delims token state).state =
        (strntoken m' str max delims token state).state := by
  unfold strntoken
  by_cases h0 : max = 0
  · simp only [h0, if_true]
    exact ⟨trivial, hagree, trivial, trivial⟩
  · have hstr : peek m str = peek m' str := hagree str (by omega)
    simp only [h0, if_false, hstr]
    rw [strntoken_fold_congr hagree hn token state delims _ (by dsimp only; omega)]
    have htokend := strntoken_fold_tokend m' str max token state delims
      ⟨str + (max - 1), false, token.isNone && max = 1 && peek m' str = 0⟩ (by simp)
    split_ifs
    · exact ⟨rfl, hagree.clear _, rfl, hagree _ (by dsimp only at htokend ⊢; omega)⟩
    · exact ⟨rfl, hagree, rfl, rfl⟩

/-! ## Columns -/

/-- The column loop writes at or after its first column only. -/
theorem parseCsvColumns_frame (m : Mem) (n next max : ℕ) (token : Option ℕ) (state : UInt8) :
    AgreeBelow next (parseCsvColumns m n next max token state).1 m := by
  induction n generalizing m next max token state with
  | zero => exact .refl _ _
  | succ n ih =>
    have htoken := strntoken_frame m next max [comma] token state
    rw [parseCsvColumns]
    split_ifs
    · exact ((ih _ _ _ _ _).mono (by omega)).trans htoken
    · exact htoken

/-- Cutting a line into columns keeps its NULs. -/
theorem parseCsvColumns_zero {m : Mem} {i : ℕ} (h : peek m i = 0) (n next max : ℕ)
    (token : Option ℕ) (state : UInt8) :
    peek (parseCsvColumns m n next max token state).1 i = 0 := by
  induction n generalizing m next max token state with
  | zero => exact h
  | succ n ih =>
    have htoken := strntoken_zero h next max [comma] token state
    rw [parseCsvColumns]
    split_ifs
    · exact ih htoken _ _ _ _
    · exact htoken

/-- A valid token leaves a terminator before the end of a terminated text. -/
theorem strlen_token_le {m : Mem} {next max : ℕ} (hz : peek m (next + (max - 1)) = 0)
    (delims : List UInt8) (token : Option ℕ) (state : UInt8) :
    strlen (strntoken m next max delims token state).mem next ≤ max - 1 := by
  have := strlen_le (Nat.le_add_right next (max - 1))
    (strntoken_zero hz next max delims token state)
  omega

/-- Without room there is no token. -/
theorem strntoken_max_zero (m : Mem) (next : ℕ) (delims : List UInt8) (token : Option ℕ)
    (state : UInt8) : (strntoken m next 0 delims token state).valid = false := rfl

/-- So a token that is found had room. -/
theorem pos_of_valid {m : Mem} {next max : ℕ} {delims : List UInt8} {token : Option ℕ}
    {state : UInt8} (hv : (strntoken m next max delims token state).valid) : 0 < max := by
  rcases Nat.eq_zero_or_pos max with rfl | hpos
  · exact absurd hv (by simp [strntoken_max_zero])
  · exact hpos

/-- The columns of a terminated line of `max` bytes are decided by these bytes. -/
theorem parseCsvColumns_congr {m m' : Mem} {k next max : ℕ} (hagree : AgreeBelow k m m')
    (hk : next + max ≤ k) (hmax : max < 2 ^ 64)
    (hz : 0 < max → peek m (next + (max - 1)) = 0) (n : ℕ) (token : Option ℕ) (state : UInt8) :
    (parseCsvColumns m n next max token state).2 =
        (parseCsvColumns m' n next max token state).2 ∧
      AgreeBelow k (parseCsvColumns m n next max token state).1
        (parseCsvColumns m' n next max token state).1 := by
  induction n generalizing m m' next max token state with
  | zero => exact ⟨rfl, hagree⟩
  | succ n ih =>
    -- both memories give the same token
    obtain ⟨hvalid, hmem, htoken, hstate⟩ :=
      strntoken_congr hagree hk [comma] token state
    rw [parseCsvColumns, parseCsvColumns]
    by_cases hv : (strntoken m next max [comma] token state).valid
    · have hpos := pos_of_valid hv
      have hlen := strlen_token_le (hz hpos) [comma] token state
      have hz' := strntoken_zero (hz hpos) next max [comma] token state
      -- and it has the same length in both, since its NUL is in front of `k`
      have hstr : strlen (strntoken m next max [comma] token state).mem next =
          strlen (strntoken m' next max [comma] token state).mem next := by
        rw [strlen, strlen, cstr_congr hmem (by omega) (Nat.le_add_right _ _) hz']
      simp only [hv, ← hvalid, ← hstr, ← htoken, ← hstate, if_true]
      generalize strlen (strntoken m next max [comma] token state).mem next = len at hlen
      rw [sub64_of_le (by omega) hmax]
      have hrest := ih hmem (show next + len + 1 + (max - (len + 1)) ≤ k by omega) (by omega)
        (fun hpos' => by
          rw [show next + len + 1 + (max - (len + 1) - 1) = next + (max - 1) by omega]
          exact hz')
        (strntoken m next max [comma] token state).token
        (strntoken m next max [comma] token state).state
      exact ⟨congrArg _ hrest.1, hrest.2⟩
    · simp only [hv, ← hvalid, if_false, Bool.false_eq_true]
      exact ⟨trivial, hmem⟩

/-- The columns lie in the line. -/
theorem parseCsvColumns_bounds {m : Mem} {next max : ℕ} (hmax : max < 2 ^ 64)
    (hz : 0 < max → peek m (next + (max - 1)) = 0) (n : ℕ) (token : Option ℕ) (state : UInt8) :
    ∀ p ∈ (parseCsvColumns m n next max token state).2, next ≤ p ∧ p < next + max := by
  induction n generalizing m next max token state with
  | zero => simp [parseCsvColumns]
  | succ n ih =>
    rw [parseCsvColumns]
    by_cases hv : (strntoken m next max [comma] token state).valid
    · have hpos := pos_of_valid hv
      have hlen := strlen_token_le (hz hpos) [comma] token state
      -- the NUL at the end is still there after the cut
      have hz' := strntoken_zero (hz hpos) next max [comma] token state
      simp only [hv, if_true]
      generalize strlen (strntoken m next max [comma] token state).mem next = len at hlen
      rw [sub64_of_le (by omega) hmax]
      intro p hp
      rcases List.mem_cons.mp hp with rfl | hp
      · omega
      · have hrest : 0 < max - (len + 1) →
            peek (strntoken m next max [comma] token state).mem
              (next + len + 1 + (max - (len + 1) - 1)) = 0 := by
          intro hpos'
          rw [show next + len + 1 + (max - (len + 1) - 1) = next + (max - 1) by omega]
          exact hz'
        have := ih (by omega) hrest _ _ p hp
        omega
    · simp [hv]

/-! ## Rows -/

/-- At the end there is no room. -/
theorem csvMax_self (line : ℕ) (h : line < 2 ^ 64) : csvMax line line = 0 := by
  simp [csvMax, sub64_of_le (Nat.le_refl line) h]

/-- In front of it there is the room up to it. -/
theorem csvMax_of_lt {line end_ : ℕ} (h : line < end_) (hend : end_ < 2 ^ 64) :
    csvMax line end_ = end_ - line + 1 := by
  rw [csvMax, sub64_of_le (by omega) hend, if_pos h]

/-- Passing over the ends of rows does not go back. -/
theorem le_skipRowDelims (m : Mem) (max line : ℕ) : line ≤ (skipRowDelims m max line).1 := by
  induction max generalizing line with
  | zero => exact Nat.le_refl _
  | succ max ih =>
    rw [skipRowDelims]
    split_ifs
    · exact (Nat.le_succ line).trans (ih (line + 1))
    · exact Nat.le_refl _

/-- Skipping moves `line` on by what it takes from `max`. -/
theorem skipRowDelims_sum (m : Mem) (max line : ℕ) :
    (skipRowDelims m max line).1 + (skipRowDelims m max line).2 = line + max := by
  induction max generalizing line with
  | zero => rfl
  | succ max ih =>
    rw [skipRowDelims]
    split_ifs
    · rw [ih]
      omega
    · rfl

/-- A row ends at the first of its delimiters, or at the end. -/
theorem findRowEnd_eq (m : Mem) (line max end_ : ℕ) :
    findRowEnd m line max end_ =
      min (strnchrnul m line max 10) (min (strnchrnul m line max 13) end_) := rfl

/-- It ends at the end at the latest. -/
theorem findRowEnd_le (m : Mem) (line max end_ : ℕ) : findRowEnd m line max end_ ≤ end_ := by
  rw [findRowEnd_eq]
  omega

/-- It does not end in front of its start. -/
theorem le_findRowEnd {m : Mem} {line end_ low : ℕ} (max : ℕ) (h : low ≤ line) (hend : low ≤ end_) :
    low ≤ findRowEnd m line max end_ := by
  have h10 := le_strnchrnul m line max 10
  have h13 := le_strnchrnul m line max 13
  rw [findRowEnd_eq]
  omega

/-- Where it ends depends on the bytes up to the bound only. -/
theorem findRowEnd_congr {m m' : Mem} {n : ℕ} (h : AgreeBelow n m m') (line max : ℕ)
    (hn : line + max ≤ n + 1) (end_ : ℕ) :
    findRowEnd m line max end_ = findRowEnd m' line max end_ := by
  rw [findRowEnd_eq, findRowEnd_eq, strnchrnul_congr h line max hn, strnchrnul_congr h line max hn]

/-- After the row has been cut at its end, the second search finds the same end. -/
theorem findRowEnd_clear {m : Mem} {line max dataEnd end_ : ℕ} (hline : line ≤ end_)
    (hend : end_ < line + max) (h : end_ = findRowEnd m line max dataEnd) :
    findRowEnd (clear m end_) line (end_ - line + 1) end_ = end_ := by
  refine le_antisymm (findRowEnd_le _ _ _ _) ?_
  rw [findRowEnd_eq] at h
  have hkeep : ∀ c : UInt8, end_ ≤ strnchrnul m line max c →
      end_ ≤ strnchrnul (clear m end_) line (end_ - line + 1) c := by
    intro c hc
    by_contra hlt
    rw [not_le] at hlt
    have hhit := strnchrnul_hit (show strnchrnul (clear m end_) line (end_ - line + 1) c + 1 <
      line + (end_ - line + 1) by omega)
    rw [peek_clear_ne m (by omega)] at hhit
    have hstart := le_strnchrnul (clear m end_) line (end_ - line + 1) c
    have := strnchrnul_le_of_hit max hstart (by omega) hhit
    omega
  rw [findRowEnd_eq]
  have h10 := hkeep 10 (by omega)
  have h13 := hkeep 13 (by omega)
  omega

/-- Behind the end there are no rows. -/
theorem parseCsvRows_past {d nColumns fuel line : ℕ} (m : Mem) (h : d < line) :
    parseCsvRows d nColumns fuel m line = (m, []) := by
  cases fuel with
  | zero => rfl
  | succ fuel => rw [parseCsvRows, if_neg (by omega)]

/-- The row loop writes at or after `line` only. -/
theorem parseCsvRows_frame (dataEnd nColumns fuel : ℕ) (m : Mem) (line : ℕ) :
    AgreeBelow line (parseCsvRows dataEnd nColumns fuel m line).1 m := by
  induction fuel generalizing m line with
  | zero => exact .refl _ _
  | succ fuel ih =>
    rw [parseCsvRows]
    by_cases hline : line ≤ dataEnd ∧ peek m line ≠ 0
    · rw [if_pos hline]
      dsimp only
      have hskip := le_skipRowDelims m (csvMax line dataEnd) line
      generalize skipRowDelims m (csvMax line dataEnd) line = skip at hskip
      have hend := le_findRowEnd (m := m) skip.2 hskip hline.1
      generalize findRowEnd m skip.1 skip.2 dataEnd = end_ at hend
      have hclear : AgreeBelow line (clear m end_) m := agreeBelow_clear m hend
      split_ifs
      · exact ((ih _ _).mono (by omega)).trans hclear
      · exact ((parseCsvColumns_frame _ _ _ _ _ _).mono hskip).trans hclear
      · have hend' := le_findRowEnd (m := clear m end_) (csvMax skip.1 end_) hskip hend
        exact ((ih _ _).mono (by omega)).trans
          (((parseCsvColumns_frame _ _ _ _ _ _).mono hskip).trans hclear)
    · rw [if_neg hline]
      exact .refl _ _

/-- Where `parse_csv_data` starts: behind a byte order mark. -/
def csvStart (m : Mem) (dataEnd : ℕ) : ℕ := if isUtf8Bom m (csvMax 0 dataEnd) then 3 else 0

/-- The rows start behind a byte order mark. -/
theorem parseCsvData_eq {m : Mem} {dataEnd nColumns : ℕ} (hd : dataEnd ≠ 0) (hn : nColumns ≠ 0) :
    parseCsvData m dataEnd nColumns =
      .ok ((parseCsvRows dataEnd nColumns (dataEnd + 2) m (csvStart m dataEnd)).1,
        (parseCsvRows dataEnd nColumns (dataEnd + 2) m (csvStart m dataEnd)).2) := by
  rw [parseCsvData, if_neg (by tauto), Prod.eta]
  rfl

/-- What is parsed is not empty. -/
theorem parseCsvData_ok {m : Mem} {dataEnd nColumns : ℕ} {r : Mem × List (List ℕ)}
    (h : parseCsvData m dataEnd nColumns = .ok r) :
    0 < dataEnd ∧ r = parseCsvRows dataEnd nColumns (dataEnd + 2) m (csvStart m dataEnd) := by
  by_cases h0 : dataEnd = 0 ∨ nColumns = 0
  · rw [parseCsvData, if_pos h0] at h
    cases h
  · rw [not_or] at h0
    rw [parseCsvData_eq h0.1 h0.2, Prod.eta] at h
    exact ⟨Nat.pos_of_ne_zero h0.1, (Except.ok.inj h).symm⟩

end Shim
