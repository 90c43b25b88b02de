import Shim.Sbat.CsvReads

/-! # The tokenizer on its own

`strntoken` (include/str.h) called again and again as `parse_csv_line` does, but for any delimiters
and without a limit on the tokens. Where the line ends in the last byte of the buffer and has a
delimiter, the tokens and the delimiters recorded behind them are the line. A delimiter in the last
byte leaves no byte to return the empty token behind it from.
-/

namespace Shim

open Bytes
open Event (AllSound)

/-! ## The iteration -/

/-- The calls from `next` on: the memory at the end, and for each token where it starts and the
state behind it. `none` where `fuel` calls are not enough. -/
def tokenLoop (delims : List UInt8) :
    (fuel : ℕ) → Mem → ℕ → ℕ → Option ℕ → UInt8 → Option (Mem × List (ℕ × UInt8))
  | 0, _, _, _, _, _ => none
  | fuel + 1, m, next, max, token, state =>
    let r := strntoken m next max delims token state
    if r.valid then
      let len := strlen r.mem next
      (tokenLoop delims fuel r.mem (next + len + 1) (sub64 max (len + 1)) r.token r.state).map
        fun rest => (rest.1, (next, r.state) :: rest.2)
    else some (r.mem, [])

/-- What the calls touch, and `strlen` of each token. -/
def tokenLoopReads (delims : List UInt8) :
    (fuel : ℕ) → Mem → ℕ → ℕ → Option ℕ → UInt8 → List Event
  | 0, _, _, _, _, _ => []
  | fuel + 1, m, next, max, token, state =>
    let r := strntoken m next max delims token state
    strntokenReads m next max delims token state ++
      if r.valid then
        let len := strlen r.mem next
        .read next (len + 1) ::
          tokenLoopReads delims fuel r.mem (next + len + 1) (sub64 max (len + 1)) r.token r.state
      else []

/-! ## One call -/

section Call

variable {m : Mem} {str max e : ℕ} {ds delims : List UInt8} {d : UInt8} {token : Option ℕ}
  {state : UInt8} {scan : TokenScan}

/-- What the loop over the delimiters `ds` has found: `tokend` is the first NUL or delimiter, or the
last byte. -/
structure Scanned (m : Mem) (str max : ℕ) (ds : List UInt8) (scan : TokenScan) : Prop where
  le : str ≤ scan.tokend
  lt : scan.tokend < str + max
  first : ds ≠ [] → ∀ i, str ≤ i → i < scan.tokend → peek m i ≠ 0 ∧ peek m i ∉ ds
  stops : scan.tokend + 1 < str + max → peek m scan.tokend = 0 ∨ peek m scan.tokend ∈ ds
  isdelim : scan.isdelim = true ↔ peek m scan.tokend ∈ ds

/-- Nothing that a search passed over is what it looks for. -/
theorem strnchrnul_miss {i : ℕ} {c : UInt8} (hi : str ≤ i) (hlt : i < strnchrnul m str max c)
    (hmax : 0 < max) : peek m i ≠ 0 ∧ peek m i ≠ c := by
  have hbounds := strnchrnul_bounds m str c hmax
  rw [← not_or]
  intro hit
  exact absurd (strnchrnul_le_of_hit max hi (by omega) hit) (not_le.mpr hlt)

/-- One delimiter more. -/
theorem Scanned.step (h : Scanned m str max ds scan) (token : Option ℕ) (state d : UInt8) :
    Scanned m str max (ds ++ [d]) (strntokenStep m str max token state scan d) := by
  have hle := h.le
  have hlt := h.lt
  have hmax : 0 < max := by omega
  have hbounds := strnchrnul_bounds m str d hmax
  by_cases htmp : strnchrnul m str max d < scan.tokend
  -- this delimiter stands in front of all found so far
  · have hstep : (strntokenStep m str max token state scan d).tokend = strnchrnul m str max d :=
      if_pos htmp
    have hhit := strnchrnul_hit (show strnchrnul m str max d + 1 < str + max by omega)
    have hds : ∀ i, str ≤ i → i < scan.tokend → peek m i ∉ ds := by
      intro i hi hio hmem
      exact (h.first (List.ne_nil_of_mem hmem) i hi hio).2 hmem
    refine ⟨by omega, by omega, fun _ i hi hio => ?_, fun _ => ?_, ?_⟩
    · rw [hstep] at hio
      have hmiss := strnchrnul_miss hi hio hmax
      simp only [List.mem_append, List.mem_singleton, not_or]
      exact ⟨hmiss.1, hds i hi (by omega), hmiss.2⟩
    · rw [hstep]
      exact hhit.imp_right fun hd => List.mem_append_right _ (List.mem_singleton.mpr hd)
    · -- a delimiter found further on is no longer the first
      change (scan.isdelim || decide (peek m (if _ then _ else _) = d)) = true ↔ _
      rw [hstep, if_pos htmp, Bool.or_eq_true, decide_eq_true_eq, List.mem_append,
        List.mem_singleton]
      refine ⟨fun hor => .inr (hor.elim (fun his => ?_) id), fun hor => .inr (hor.elim ?_ id)⟩
      · have hne := List.ne_nil_of_mem (h.isdelim.mp his)
        exact hhit.resolve_left (h.first hne _ hbounds.1 htmp).1
      · exact fun hmem => absurd hmem (hds _ hbounds.1 htmp)
  · have hstep : (strntokenStep m str max token state scan d).tokend = scan.tokend := if_neg htmp
    refine ⟨by omega, by omega, fun _ i hi hio => ?_, fun hend => ?_, ?_⟩
    · rw [hstep] at hio
      have hmiss := strnchrnul_miss hi (by omega : i < strnchrnul m str max d) hmax
      simp only [List.mem_append, List.mem_singleton, not_or]
      refine ⟨hmiss.1, fun hmem => ?_, hmiss.2⟩
      exact (h.first (List.ne_nil_of_mem hmem) i hi hio).2 hmem
    · rw [hstep] at hend ⊢
      exact (h.stops hend).imp_right (List.mem_append_left _)
    · change (scan.isdelim || decide (peek m (if _ then _ else _) = d)) = true ↔ _
      rw [hstep, if_neg htmp, Bool.or_eq_true, decide_eq_true_eq, List.mem_append,
        List.mem_singleton, h.isdelim]

/-- Many delimiters more. -/
theorem Scanned.foldl (h : Scanned m str max ds scan) (token : Option ℕ) (state : UInt8)
    (delims : List UInt8) : Scanned m str max (ds ++ delims)
      (delims.foldl (strntokenStep m str max token state) scan) := by
  induction delims generalizing ds scan with
  | nil => rwa [List.append_nil]
  | cons d delims ih =>
    have hrest := ih (h.step token state d)
    rwa [List.append_assoc, List.singleton_append] at hrest

/-- Where the loop starts: at the last byte. -/
theorem scanned_start (m : Mem) (str : ℕ) (hmax : 0 < max) (b : Bool) :
    Scanned m str max [] ⟨str + (max - 1), false, b⟩ :=
  ⟨Nat.le_add_right _ _, by dsimp only; omega, fun h => absurd rfl h, fun h => by
    dsimp only at h
    omega, by simp⟩

/-- Whether the state is one of the delimiters. -/
theorem stateIsDelim_foldl (m : Mem) (str max : ℕ) (token : Option ℕ) (state : UInt8)
    (delims : List UInt8) (scan : TokenScan) :
    (delims.foldl (strntokenStep m str max token state) scan).stateIsDelim =
      (scan.stateIsDelim || token.isSome && decide (state ∈ delims)) := by
  induction delims generalizing scan with
  | nil => simp
  | cons d delims ih =>
    rw [List.foldl_cons, ih]
    simp only [strntokenStep, List.mem_cons, Bool.decide_or, @eq_comm _ d state, Bool.or_assoc,
      Bool.and_or_distrib_left]

/-- A call that comes to a delimiter first. -/
theorem strntoken_of_delim (hle : str ≤ e) (hlt : e < str + max)
    (hfirst : ∀ i, str ≤ i → i < e → peek m i ≠ 0 ∧ peek m i ∉ delims)
    (hd : peek m e ∈ delims) (token : Option ℕ) (state : UInt8) :
    strntoken m str max delims token state = ⟨true, clear m e, some str, peek m e⟩ := by
  have hmax : 0 < max := by omega
  have hscan := (scanned_start m str hmax
    (token.isNone && decide (max = 1) && decide (peek m str = 0))).foldl token state delims
  rw [List.nil_append] at hscan
  have htokend : (delims.foldl (strntokenStep m str max token state) ⟨str + (max - 1), false,
      token.isNone && decide (max = 1) && decide (peek m str = 0)⟩).tokend = e := by
    rcases lt_trichotomy (delims.foldl (strntokenStep m str max token state) ⟨str + (max - 1),
      false, token.isNone && decide (max = 1) && decide (peek m str = 0)⟩).tokend e with h | h | h
    · have hmiss := hfirst _ hscan.le h
      exact ((hscan.stops (by omega)).elim hmiss.1 hmiss.2).elim
    · exact h
    · exact absurd hd (hscan.first (List.ne_nil_of_mem hd) e hle h).2
  have hisdelim := hscan.isdelim
  rw [htokend] at hisdelim
  unfold strntoken
  rw [if_neg hmax.ne']
  dsimp only
  rw [if_pos (hisdelim.mpr hd), htokend]

/-- A call that comes to no delimiter before a NUL. -/
theorem strntoken_of_no_delim (hmax : 0 < max)
    (h : ∀ i, str ≤ i → i < str + max → peek m i ∈ delims → ∃ j, str ≤ j ∧ j < i ∧ peek m j = 0)
    (token : Option ℕ) (state : UInt8) :
    strntoken m str max delims token state =
      ⟨token.isNone && decide (max = 1) && decide (peek m str = 0) ||
        token.isSome && decide (state ∈ delims), m, some str, state⟩ := by
  have hscan := (scanned_start m str hmax
    (token.isNone && decide (max = 1) && decide (peek m str = 0))).foldl token state delims
  rw [List.nil_append] at hscan
  have hnot : ¬ (delims.foldl (strntokenStep m str max token state) ⟨str + (max - 1), false,
      token.isNone && decide (max = 1) && decide (peek m str = 0)⟩).isdelim = true := by
    rw [hscan.isdelim]
    intro hd
    obtain ⟨j, hj, hjlt, hzero⟩ := h _ hscan.le hscan.lt hd
    exact (hscan.first (List.ne_nil_of_mem hd) j hj hjlt).1 hzero
  unfold strntoken
  rw [if_neg hmax.ne']
  dsimp only
  rw [if_neg hnot, stateIsDelim_foldl]

/-- Either kind of call. -/
theorem first_delim_or (m : Mem) (str max : ℕ) (delims : List UInt8) :
    (∃ e, str ≤ e ∧ e < str + max ∧ (∀ i, str ≤ i → i < e → peek m i ≠ 0 ∧ peek m i ∉ delims) ∧
      peek m e ∈ delims) ∨
    ∀ i, str ≤ i → i < str + max → peek m i ∈ delims → ∃ j, str ≤ j ∧ j < i ∧ peek m j = 0 := by
  rw [or_iff_not_imp_right]
  intro h
  push Not at h
  have hex : ∃ i, str ≤ i ∧ peek m i ∈ delims := by
    obtain ⟨i, hi, -, hd, -⟩ := h
    exact ⟨i, hi, hd⟩
  classical
  obtain ⟨e, ⟨hle, hd⟩, hleast⟩ : ∃ e, (str ≤ e ∧ peek m e ∈ delims) ∧
      ∀ i < e, ¬ (str ≤ i ∧ peek m i ∈ delims) :=
    ⟨Nat.find hex, Nat.find_spec hex, fun i => Nat.find_min hex⟩
  obtain ⟨i, hi, hlt, hid, hne⟩ := h
  have hei : e ≤ i := not_lt.mp fun hie => hleast i hie ⟨hi, hid⟩
  exact ⟨e, hle, by omega, fun j hj hje =>
    ⟨hne j hj (by omega), fun hmem => hleast j hje ⟨hj, hmem⟩⟩, hd⟩

end Call

/-! ## Runs -/

section Run

variable {m : Mem} {p e size fuel : ℕ} {delims : List UInt8} {token : Option ℕ} {state : UInt8}

/-- Without room the loop ends. -/
@[simp] theorem tokenLoop_zero (fuel : ℕ) (m : Mem) (next : ℕ) (token : Option ℕ) (state : UInt8) :
    tokenLoop delims (fuel + 1) m next 0 token state = some (m, []) := rfl

/-- A turn that cuts at a delimiter. -/
theorem tokenLoop_delim (hsize : size < 2 ^ 32) (hle : p ≤ e) (hlt : e < size)
    (hfirst : ∀ i, p ≤ i → i < e → peek m i ≠ 0 ∧ peek m i ∉ delims) (hd : peek m e ∈ delims)
    (fuel : ℕ) (token : Option ℕ) (state : UInt8) :
    tokenLoop delims (fuel + 1) m p (size - p) token state =
      (tokenLoop delims fuel (clear m e) (e + 1) (size - (e + 1)) (some p) (peek m e)).map
        fun rest => (rest.1, (p, peek m e) :: rest.2) := by
  have hlen : strlen (clear m e) p = e - p := by
    rw [strlen, cstr_eq_slice hle (peek_clear_self m e) fun i hi hie => ?_, length_slice]
    rw [peek_clear_ne m (by omega)]
    exact (hfirst i hi hie).1
  rw [tokenLoop, strntoken_of_delim hle (by omega) hfirst hd]
  dsimp only
  rw [if_pos rfl, hlen, sub64_of_le (by omega) (by omega), show p + (e - p) + 1 = e + 1 by omega,
    show size - p - (e - p + 1) = size - (e + 1) by omega]

/-- Every token with what is recorded behind it, joined: the last state does not count. -/
def joinTokens : List (List UInt8 × UInt8) → List UInt8
  | [] => []
  | [(text, _)] => text
  | (text, state) :: token :: tokens => text ++ state :: joinTokens (token :: tokens)

/-- The tokens with the delimiters between them. -/
theorem joinTokens_cons {text : List UInt8} {state : UInt8} {tokens : List (List UInt8 × UInt8)}
    (h : tokens ≠ []) :
    joinTokens ((text, state) :: tokens) = text ++ state :: joinTokens tokens := by
  cases tokens with
  | nil => exact absurd rfl h
  | cons token tokens => rfl

/-- The texts of the tokens in the memory at the end, and what is recorded behind each. -/
def tokenTexts (r : Mem × List (ℕ × UInt8)) : List (List UInt8 × UInt8) :=
  r.2.map fun t => (cstr r.1 t.1, t.2)

/-- A token that was cut is read back from the memory at the end. -/
theorem cstr_of_cut {m' : Mem} (hle : p ≤ e)
    (hne : ∀ i, p ≤ i → i < e → peek m i ≠ 0) (hframe : AgreeBelow (e + 1) m' (clear m e)) :
    cstr m' p = slice m p e := by
  have hsame : ∀ i, p ≤ i → i < e → peek m' i = peek m i := fun i _ hi => by
    rw [hframe i (by omega), peek_clear_ne m (by omega)]
  rw [cstr_eq_slice hle (by rw [hframe e (by omega), peek_clear_self])
    fun i hi hie => by rw [hsame i hi hie]; exact hne i hi hie, slice_congr hsame]

/-- A cut changes nothing in front of it. -/
theorem agreeBelow_of_cut {m' : Mem} (hle : p ≤ e) (hframe : AgreeBelow (e + 1) m' (clear m e)) :
    AgreeBelow p m' m :=
  (hframe.mono (by omega)).trans (agreeBelow_clear m hle)

/-- The number of delimiters in a text. -/
def countDelims (delims text : List UInt8) : ℕ := text.countP (· ∈ delims)

/-- A first delimiter, and those behind it. -/
theorem countDelims_slice (hle : p ≤ e) (hlt : e < size)
    (hfirst : ∀ i, p ≤ i → i < e → peek m i ≠ 0 ∧ peek m i ∉ delims) (hd : peek m e ∈ delims) :
    countDelims delims (slice m p size) = countDelims delims (slice m (e + 1) size) + 1 := by
  have hnone : (slice m p e).countP (· ∈ delims) = 0 := by
    refine List.countP_eq_zero.mpr fun b hb => ?_
    obtain ⟨i, hi, hie, rfl⟩ := mem_slice.mp hb
    simpa using (hfirst i hi hie).2
  rw [countDelims, ← slice_append m hle hlt.le, slice_cons m hlt, List.countP_append, hnone,
    List.countP_cons_of_pos (by simpa using hd), Nat.zero_add, countDelims]

/-- A cut changes nothing behind it. -/
theorem slice_clear (m : Mem) (e q : ℕ) : slice (clear m e) (e + 1) q = slice m (e + 1) q :=
  slice_congr fun i hi _ => peek_clear_ne m (by omega)

/-- The rest of a line that ends in the last byte, behind a delimiter or in front of one: the
induction goes from delimiter to delimiter. -/
theorem tokenLoop_line (hsize : size < 2 ^ 32) (hlt : p < size) (hz : peek m (size - 1) = 0)
    (hnul : 0 ∉ delims) (hne : ∀ i, p ≤ i → i < size - 1 → peek m i ≠ 0)
    (hstart : (token.isSome = true ∧ state ∈ delims) ∨
      (∃ b ∈ slice m p (size - 1), b ∈ delims) ∨ (token = none ∧ size = p + 1))
    (hfuel : size - p < fuel) :
    ∃ r, tokenLoop delims fuel m p (size - p) token state = some r ∧ AgreeBelow p r.1 m ∧
      joinTokens (tokenTexts r) = slice m p (size - 1) ∧
      r.2.length = countDelims delims (slice m p (size - 1)) + 1 := by
  -- one turn: up to the next delimiter, or to the NUL
  induction fuel generalizing m p token state with
  | zero => omega
  | succ fuel ih =>
    rcases first_delim_or m p (size - p) delims with ⟨e, hle, he, hfirst, hd⟩ | hnone
    -- the NUL at the end is no delimiter
    · have hlast : e < size - 1 := by
        refine lt_of_le_of_ne (by omega) ?_
        rintro rfl
        exact hnul (hz ▸ hd)
      obtain ⟨r, hr, hframe, hjoin, hcount⟩ := @ih (clear m e) (e + 1) (some p) (peek m e)
        (by omega) (by rw [peek_clear, hz, ite_self])
        (fun i hi hio => by rw [peek_clear_ne m (by omega)]; exact hne i (by omega) hio)
        (.inl ⟨rfl, hd⟩) (by omega)
      rw [slice_clear] at hjoin hcount
      refine ⟨(r.1, (p, peek m e) :: r.2), ?_, agreeBelow_of_cut hle hframe, ?_, ?_⟩
      · rw [tokenLoop_delim hsize hle (by omega) hfirst hd, hr, Option.map_some]
      · have hrest : tokenTexts r ≠ [] := by
          intro hempty
          rw [List.map_eq_nil_iff.mp hempty] at hcount
          cases hcount
        change joinTokens ((cstr r.1 p, peek m e) :: tokenTexts r) = _
        rw [joinTokens_cons hrest, cstr_of_cut hle (fun i hi hie => (hfirst i hi hie).1) hframe,
          hjoin, ← slice_cons m hlast, slice_append m hle hlast.le]
      · rw [List.length_cons, hcount, countDelims_slice hle hlast hfirst hd]
    · -- no delimiter: this is the last token, if it is one at all
      have hno : ∀ b ∈ slice m p (size - 1), b ∉ delims := by
        intro b hb hd
        obtain ⟨i, hi, hio, rfl⟩ := mem_slice.mp hb
        obtain ⟨j, hj, hji, hzero⟩ := hnone i hi (by omega) hd
        exact hne j hj (by omega) hzero
      have hvalid : (token.isNone && decide (size - p = 1) && decide (peek m p = 0) ||
          token.isSome && decide (state ∈ delims)) = true := by
        rcases hstart with ⟨hsome, hstate⟩ | ⟨b, hb, hd⟩ | ⟨rfl, rfl⟩
        · simp [hsome, hstate]
        · exact absurd hd (hno b hb)
        · simpa using hz
      have hlen : strlen m p = size - 1 - p := by
        rw [strlen, cstr_eq_slice (by omega) hz hne, length_slice]
      refine ⟨(m, [(p, state)]), ?_, .refl p m, ?_, ?_⟩
      · rw [tokenLoop, strntoken_of_no_delim (by omega) hnone]
        dsimp only
        rw [if_pos hvalid, hlen, sub64_of_le (by omega) (by omega),
          show size - p - (size - 1 - p + 1) = 0 by omega]
        obtain ⟨k, rfl⟩ : ∃ k, fuel = k + 1 := ⟨fuel - 1, by omega⟩
        rfl
      · exact cstr_eq_slice (by omega) hz hne
      · rw [countDelims, List.countP_eq_zero.mpr fun b hb => by simpa using hno b hb]
        rfl

/-- A buffer without a NUL that ends in a delimiter. -/
theorem tokenLoop_cut (hsize : size < 2 ^ 32) (hle : p ≤ size)
    (hlast : p < size → peek m (size - 1) ∈ delims)
    (hne : ∀ i, p ≤ i → i < size → peek m i ≠ 0) (hfuel : size - p < fuel) :
    ∃ r, tokenLoop delims fuel m p (size - p) token state = some r ∧ AgreeBelow p r.1 m ∧
      (tokenTexts r).flatMap (fun t => t.1 ++ [t.2]) = slice m p size ∧
      r.2.length = countDelims delims (slice m p size) := by
  induction fuel generalizing m p token state with
  | zero => omega
  | succ fuel ih =>
    rcases Nat.eq_or_lt_of_le hle with rfl | hlt
    · refine ⟨(m, []), ?_, .refl p m, (slice_of_le m le_rfl).symm, ?_⟩
      · rw [Nat.sub_self, tokenLoop_zero]
      · rw [slice_of_le m le_rfl]
        rfl
    rcases first_delim_or m p (size - p) delims with ⟨e, hpe, he, hfirst, hd⟩ | hnone
    · obtain ⟨r, hr, hframe, hjoin, hcount⟩ := @ih (clear m e) (e + 1) (some p) (peek m e)
        (by omega) (fun h => by rw [peek_clear_ne m (by omega)]; exact hlast hlt)
        (fun i hi hio => by rw [peek_clear_ne m (by omega)]; exact hne i (by omega) hio) (by omega)
      rw [slice_clear] at hjoin hcount
      refine ⟨(r.1, (p, peek m e) :: r.2), ?_, agreeBelow_of_cut hpe hframe, ?_, ?_⟩
      · rw [tokenLoop_delim hsize hpe (by omega) hfirst hd, hr, Option.map_some]
      · change (cstr r.1 p ++ [peek m e]) ++ (tokenTexts r).flatMap _ = _
        rw [hjoin, cstr_of_cut hpe (fun i hi hie => (hfirst i hi hie).1) hframe, List.append_assoc,
          List.singleton_append, ← slice_cons m (by omega), slice_append m hpe (by omega)]
      · rw [List.length_cons, hcount, countDelims_slice hpe (by omega) hfirst hd]
    · obtain ⟨j, hj, hji, hzero⟩ := hnone (size - 1) (by omega) (by omega) (hlast hlt)
      exact absurd hzero (hne j hj (by omega))

/-- The calls end and stay in a buffer whose last byte is a NUL or a delimiter: every token has a
NUL behind it there. -/
theorem tokenLoop_stays (hsize : size < 2 ^ 32) (hle : p ≤ size)
    (hlast : p < size → peek m (size - 1) = 0 ∨ peek m (size - 1) ∈ delims)
    (hfuel : size - p < fuel) :
    (tokenLoop delims fuel m p (size - p) token state).isSome = true ∧
      AllSound size (tokenLoopReads delims fuel m p (size - p) token state) := by
  induction fuel generalizing m p token state with
  | zero => omega
  | succ fuel ih =>
    have hreads : AllSound size (strntokenReads m p (size - p) delims token state) :=
      strntokenReads_sound (by omega) delims token state
    rw [tokenLoopReads]
    refine (and_congr_right fun _ => Event.allSound_append.trans (and_iff_right hreads)).mpr ?_
    rcases Nat.eq_or_lt_of_le hle with rfl | hlt
    -- nothing is left of the buffer
    · rw [Nat.sub_self, strntoken_max_zero]
      exact ⟨rfl, Event.allSound_nil⟩
    rcases first_delim_or m p (size - p) delims with ⟨e, hpe, he, hfirst, hd⟩ | hnone
    -- the token ends in front of a delimiter, which is set to NUL
    · have hrest := @ih (clear m e) (e + 1) (some p) (peek m e) (by omega)
        (fun h => by rw [peek_clear_ne m (by omega)]; exact hlast hlt) (by omega)
      have hlen : strlen (clear m e) p = e - p := by
        rw [strlen, cstr_eq_slice hpe (peek_clear_self m e) fun i hi hie => ?_, length_slice]
        rw [peek_clear_ne m (by omega)]
        exact (hfirst i hi hie).1
      rw [tokenLoop_delim hsize hpe (by omega) hfirst hd, Option.isSome_map,
        strntoken_of_delim hpe he hfirst hd]
      dsimp only
      rw [if_pos rfl, hlen, sub64_of_le (by omega) (by omega),
        show p + (e - p) + 1 = e + 1 by omega,
        show size - p - (e - p + 1) = size - (e + 1) by omega]
      exact ⟨hrest.1, Event.allSound_cons.mpr ⟨.inr (by omega), hrest.2⟩⟩
    -- no delimiter is in sight, so the text ends in the buffer
    · obtain ⟨z, hz, hzlt, hzero⟩ : ∃ z, p ≤ z ∧ z < size ∧ peek m z = 0 := by
        rcases hlast hlt with hzero | hd
        · exact ⟨size - 1, by omega, by omega, hzero⟩
        · obtain ⟨j, hj, hji, hzero⟩ := hnone (size - 1) (by omega) (by omega) hd
          exact ⟨j, hj, by omega, hzero⟩
      have hlen := strlen_le hz hzero
      rw [tokenLoop, strntoken_of_no_delim (by omega) hnone]
      dsimp only
      split_ifs with hvalid
      · generalize strlen m p = len at hlen
        rw [sub64_of_le (by omega) (by omega), show size - p - (len + 1) = size - (p + len + 1) by
          omega, Option.isSome_map]
        have hrest := @ih m (p + len + 1) (some p) state (by omega) (fun _ => hlast hlt) (by omega)
        exact ⟨hrest.1, Event.allSound_cons.mpr ⟨.inr (by omega), hrest.2⟩⟩
      · exact ⟨rfl, Event.allSound_nil⟩

/-- A line without a delimiter ends the calls at once. -/
theorem tokenLoop_no_delim (hpos : 0 < size)
    (hnone : ∀ i, i < size → peek m i ∈ delims → ∃ j, j < i ∧ peek m j = 0)
    (hlast : peek m (size - 1) ≠ 0) :
    tokenLoop delims (fuel + 1) m 0 size none state = some (m, []) ∧
      AllSound size (tokenLoopReads delims (fuel + 1) m 0 size none state) := by
  have hcall := @strntoken_of_no_delim m 0 size delims hpos (fun i _ hi hd => by
    obtain ⟨j, hj, hzero⟩ := hnone i (by omega) hd
    exact ⟨j, Nat.zero_le j, hj, hzero⟩) none state
  have hinvalid : ¬ ((none : Option ℕ).isNone && decide (size = 1) && decide (peek m 0 = 0) ||
      (none : Option ℕ).isSome && decide (state ∈ delims)) = true := by
    simp only [Option.isNone_none, Option.isSome_none, Bool.true_and, Bool.false_and, Bool.or_false,
      Bool.and_eq_true, decide_eq_true_eq, not_and]
    rintro rfl
    exact hlast
  rw [tokenLoop, tokenLoopReads, hcall]
  dsimp only
  rw [if_neg hinvalid, if_neg hinvalid, List.append_nil]
  exact ⟨rfl, strntokenReads_sound (by omega) delims none state⟩

end Run

/-! ## The contract -/

/-- A buffer of `max` bytes at the start of memory, and a string of delimiters. `strnchrnul` counts
in an `unsigned int`, and no text of 4 GiB is tokenized. -/
structure TokenBuffer where
  mem : Mem
  max : ℕ
  delims : List UInt8
  pos : 0 < max
  small : max < 2 ^ 32
  delims_ne : 0 ∉ delims

namespace TokenBuffer

variable (b : TokenBuffer)

/-- The bytes of the buffer. -/
def text : List UInt8 := slice b.mem 0 b.max

/-- The line: what is in front of the first NUL. -/
def line : List UInt8 := b.text.takeWhile (· ≠ 0)

/-- The calls, from the beginning of the buffer. -/
def run : Option (Mem × List (ℕ × UInt8)) := tokenLoop b.delims (b.max + 1) b.mem 0 b.max none 0

/-- The calls end, and touch no byte outside of the buffer. -/
def Stays : Prop :=
  b.run.isSome = true ∧ AllSound b.max (tokenLoopReads b.delims (b.max + 1) b.mem 0 b.max none 0)

/-- The contract: the calls end and stay in the buffer, the tokens joined by the recorded delimiters
are the line, and there is a token behind the last delimiter. -/
structure Contract : Prop where
  stays : b.Stays
  joined : ∀ r, b.run = some r → joinTokens (tokenTexts r) = b.line
  final : ∀ r, b.run = some r → 0 < countDelims b.delims b.line →
    r.2.length = countDelims b.delims b.line + 1

/-- The line ends in the last byte, and it has a delimiter unless it is empty. -/
def EndsLine : Prop :=
  b.text = b.line ++ [0] ∧ (b.line ≠ [] → 0 < countDelims b.delims b.line)

/-- The buffer has no NUL and ends in a delimiter. -/
def EndsCut : Prop := 0 ∉ b.text ∧ peek b.mem (b.max - 1) ∈ b.delims

/-- The contract but for the token behind the last delimiter: every token has its delimiter. -/
structure CutContract : Prop where
  stays : b.Stays
  joined : ∀ r, b.run = some r → (tokenTexts r).flatMap (fun t => t.1 ++ [t.2]) = b.text
  final : ∀ r, b.run = some r → r.2.length = countDelims b.delims b.text

/-- The text with the last byte of its room. -/
theorem text_eq : b.text = slice b.mem 0 (b.max - 1) ++ [peek b.mem (b.max - 1)] := by
  have hpos := b.pos
  have hlast : slice b.mem (b.max - 1) b.max = [peek b.mem (b.max - 1)] := by
    rw [slice_cons _ (by omega), slice_of_le _ (by omega)]
  rw [← hlast, slice_append _ (Nat.zero_le _) (by omega), text]

/-- A last byte that ends a token keeps the loop in its room. -/
theorem stays_of_last (h : peek b.mem (b.max - 1) = 0 ∨ peek b.mem (b.max - 1) ∈ b.delims) :
    b.Stays :=
  @tokenLoop_stays b.mem 0 b.max (b.max + 1) b.delims none 0 b.small (Nat.zero_le _) (fun _ => h)
    (by omega)

/-- A buffer whose line ends in the last byte. -/
theorem EndsLine.last {b : TokenBuffer} (h : b.EndsLine) :
    slice b.mem 0 (b.max - 1) = b.line ∧ peek b.mem (b.max - 1) = 0 := by
  have heq := b.text_eq.symm.trans h.1
  obtain ⟨hline, hlast⟩ := List.append_inj' heq rfl
  exact ⟨hline, by simpa using hlast⟩

/-- A line has no NUL. -/
theorem ne_zero_of_mem_line {b : TokenBuffer} {c : UInt8} (h : c ∈ b.line) : c ≠ 0 := by
  simpa using List.mem_takeWhile_imp h

/-- What stands in front of all NULs is in the line. -/
theorem mem_line {b : TokenBuffer} {i : ℕ} (hi : i < b.max)
    (hne : ∀ j, j ≤ i → peek b.mem j ≠ 0) : peek b.mem i ∈ b.line := by
  have hsplit := slice_append b.mem (Nat.zero_le (i + 1)) (show i + 1 ≤ b.max by omega)
  rw [line, text, ← hsplit, List.takeWhile_append_of_pos]
  · exact List.mem_append_left _ (mem_slice.mpr ⟨i, Nat.zero_le i, by omega, rfl⟩)
  · intro c hc
    obtain ⟨j, -, hj, rfl⟩ := mem_slice.mp hc
    simpa using hne j (by omega)

/-- A text whose line ends in its room meets the contract. -/
theorem contract_of_endsLine (h : b.EndsLine) : b.Contract := by
  obtain ⟨hslice, hlast⟩ := h.last
  have hpos := b.pos
  have hne : ∀ i, 0 ≤ i → i < b.max - 1 → peek b.mem i ≠ 0 := by
    intro i _ hi
    exact ne_zero_of_mem_line (hslice ▸ mem_slice.mpr ⟨i, Nat.zero_le i, hi, rfl⟩)
  have hstart : ((none : Option ℕ).isSome = true ∧ (0 : UInt8) ∈ b.delims) ∨
      (∃ c ∈ slice b.mem 0 (b.max - 1), c ∈ b.delims) ∨
        ((none : Option ℕ) = none ∧ b.max = 0 + 1) := by
    by_cases hempty : b.line = []
    · refine .inr (.inr ⟨rfl, ?_⟩)
      have hlen := congrArg List.length hslice
      rw [hempty, length_slice, List.length_nil] at hlen
      omega
    · obtain ⟨c, hc, hd⟩ := List.countP_pos_iff.mp (h.2 hempty)
      exact .inr (.inl ⟨c, hslice ▸ hc, by simpa using hd⟩)
  obtain ⟨r, hr, -, hjoin, hcount⟩ := @tokenLoop_line b.mem 0 b.max (b.max + 1) b.delims none 0
    b.small b.pos hlast b.delims_ne hne hstart (by omega)
  rw [hslice] at hjoin hcount
  have hrun : b.run = some r := hr
  refine ⟨b.stays_of_last (.inl hlast), fun r' hr' => ?_, fun r' hr' _ => ?_⟩
  all_goals obtain rfl := Option.some.inj (hrun.symm.trans hr')
  · exact hjoin
  · exact hcount

/-- So does one that is cut there. -/
theorem cutContract_of_endsCut (h : b.EndsCut) : b.CutContract := by
  obtain ⟨r, hr, -, hjoin, hcount⟩ := @tokenLoop_cut b.mem 0 b.max (b.max + 1) b.delims none 0
    b.small (Nat.zero_le _) (fun _ => h.2)
    (fun i hi hio hzero => h.1 (mem_slice.mpr ⟨i, hi, hio, hzero⟩)) (by omega)
  have hrun : b.run = some r := hr
  refine ⟨b.stays_of_last (.inr h.2), fun r' hr' => ?_, fun r' hr' => ?_⟩
  all_goals obtain rfl := Option.some.inj (hrun.symm.trans hr')
  · exact hjoin
  · exact hcount

/-- Without a delimiter the loop stays in its room. -/
theorem stays_of_no_delim (h : countDelims b.delims b.line = 0) : b.Stays := by
  by_cases hlast : peek b.mem (b.max - 1) = 0
  · exact b.stays_of_last (.inl hlast)
  · have hnone : ∀ i, i < b.max → peek b.mem i ∈ b.delims → ∃ j, j < i ∧ peek b.mem j = 0 := by
      intro i hi hd
      by_contra hno
      push Not at hno
      have hmem : peek b.mem i ∈ b.line := by
        refine mem_line hi fun j hj => ?_
        rcases Nat.eq_or_lt_of_le hj with rfl | hlt
        · exact fun hzero => b.delims_ne (hzero ▸ hd)
        · exact hno j hlt
      exact absurd (decide_eq_true hd) (List.countP_eq_zero.mp h _ hmem)
    have hrun := @tokenLoop_no_delim b.mem b.max b.max b.delims 0 b.pos hnone hlast
    exact ⟨by rw [run, hrun.1]; rfl, hrun.2⟩

/-- **The tokenizer.** Where the line ends in the last byte the contract is met. A delimiter in the
last byte has a token in front of it, and none behind. The calls end and stay in the buffer also if
they come to no delimiter. -/
theorem strntoken_contract :
    (b.EndsLine → b.Contract) ∧ (b.EndsCut → b.CutContract) ∧
      (peek b.mem (b.max - 1) = 0 ∨ peek b.mem (b.max - 1) ∈ b.delims ∨
        countDelims b.delims b.line = 0 → b.Stays) := by
  refine ⟨b.contract_of_endsLine, b.cutContract_of_endsCut, ?_⟩
  rintro (hzero | hd | hnone)
  · exact b.stays_of_last (.inl hzero)
  · exact b.stays_of_last (.inr hd)
  · exact b.stays_of_no_delim hnone

/-- A buffer that is all of memory, with `,` and `.` for delimiters. -/
def ofText (text : List UInt8) (hpos : 0 < text.length) (hsmall : text.length < 2 ^ 32) :
    TokenBuffer := ⟨text, text.length, [44, 46], hpos, hsmall, by decide⟩

/-- `a,.` and a NUL: three tokens. -/
theorem contract_dotted : (ofText [97, 44, 46, 0] (by decide) (by decide)).Contract :=
  (strntoken_contract (ofText [97, 44, 46, 0] (by decide) (by decide))).1
    ⟨by decide, fun _ => by decide⟩

/-- A delimiter in the last byte, as in the unit tests; no delimiter at all; a last byte that is
neither; and a NUL in between. -/
theorem not_contract_delimLast :
    ¬ (ofText [44] (by decide) (by decide)).Contract ∧
      ¬ (ofText [97, 0] (by decide) (by decide)).Contract ∧
      ¬ (ofText [44, 97] (by decide) (by decide)).Contract ∧
      ¬ (ofText [44, 0, 97, 0] (by decide) (by decide)).Contract := by
  refine ⟨fun h => ?_, fun h => ?_, fun h => ?_, fun h => ?_⟩
  · have hjoined := h.joined ([0], [(0, 44)]) (by decide)
    revert hjoined
    decide
  · have hjoined := h.joined ([97, 0], []) (by decide)
    revert hjoined
    decide
  · have hread := h.stays.2 (.read 1 2) (by decide)
    revert hread
    decide
  · have hjoined := h.joined ([0, 0, 97, 0], [(0, 44), (1, 44), (2, 44)]) (by decide)
    revert hjoined
    decide

end TokenBuffer

end Shim
