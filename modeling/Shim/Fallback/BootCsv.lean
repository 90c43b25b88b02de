import Mathlib.Data.List.TakeWhile
import Mathlib.Logic.Function.Basic
import Shim.Common.Lines
import Shim.Fallback.LoadOption

/-! # The lines of a boot file

`try_boot_csv` and `populate_stanza` (fallback.c:674-762). A line is cut out of the text in place,
and its fields out of the line: a field starts behind the comma or NUL that ended the one before.
Indices are those into the buffer; the text has a NUL behind it, and then the buffer is over.
-/

namespace Shim.BootCsv

open Lines

/-! ## The code -/

def comma : UInt16 := 0x2c

def isComma (c : UInt16) : Bool := c = comma

/-- `L'\r'` or `L'\n'`. -/
def isBreak (c : UInt16) : Bool := c = 0xd || c = 0xa

/-- The arguments of `add_to_boot_list` but for `dirname`. -/
structure StanzaCall where
  file : List UInt16
  label : List UInt16
  arguments : List UInt16
  deriving DecidableEq

/-- What is done with a line of `length` characters at `start`: the characters that are read or
written, and the call that is made. -/
structure Stanza where
  start : ℕ
  length : ℕ
  accesses : List ℕ
  call : Option StanzaCall

/-- `StrCSpn` with `left` characters up to the end of the buffer, or `none` behind it. -/
def strCSpn (b : ℕ → UInt16) (reject : UInt16 → Bool) : (left o : ℕ) → Option ℕ
  | 0, _ => none
  | left + 1, o =>
    if b o = 0 ∨ reject (b o) then some 0 else (strCSpn b reject left (o + 1)).map (· + 1)

/-- The string at an index. -/
def textAt (b : ℕ → UInt16) (size o : ℕ) : List UInt16 :=
  ((List.range (size + 1 - o)).map fun k => b (o + k)).takeWhile (· ≠ 0)

/-- The characters of a string from `o` to its end, or to a comma. -/
def charsOf (o n : ℕ) : List ℕ := List.range' o (n + 1)

/-- What is left of `populate_stanza` from the arguments on. -/
def populateArguments (b : ℕ → UInt16) (size csv comma0 comma1 : ℕ) :
    Option (List ℕ × (ℕ → UInt16) × Option StanzaCall) :=
  let label := csv + comma0 + 1
  let b := Function.update b (label + comma1) 0
  let arguments := csv + comma0 + 1 + comma1 + 1
  match strCSpn b isComma (size + 1 - arguments) arguments with
  | none => none
  | some comma2 =>
    let b := Function.update b (arguments + comma2) 0
    some (charsOf csv comma0 ++ charsOf label comma1 ++ charsOf arguments comma2, b,
      some ⟨textAt b size csv, textAt b size label, textAt b size arguments⟩)

/-- What is left of `populate_stanza` from the label on. -/
def populateLabel (b : ℕ → UInt16) (size csv comma0 : ℕ) :
    Option (List ℕ × (ℕ → UInt16) × Option StanzaCall) :=
  let b := Function.update b (csv + comma0) 0
  let label := csv + comma0 + 1
  match strCSpn b isComma (size + 1 - label) label with
  | none => none
  | some comma1 =>
    if comma1 = 0 then some (charsOf csv comma0 ++ charsOf label 0, b, none)
    else populateArguments b size csv comma0 comma1

/-- `populate_stanza`, for a string at `csv`: the accesses, the buffer after them, and the call;
`none` where it leaves the buffer. -/
def populateStanza (b : ℕ → UInt16) (size csv : ℕ) :
    Option (List ℕ × (ℕ → UInt16) × Option StanzaCall) :=
  match strCSpn b isComma (size + 1 - csv) csv with
  | none => none
  | some comma0 =>
    if comma0 = 0 then some (charsOf csv 0, b, none) else populateLabel b size csv comma0

/-- Skip the ends of lines. -/
def skipBreaks (b : ℕ → UInt16) : (left o : ℕ) → ℕ
  | 0, o => o
  | left + 1, o => if isBreak (b o) then skipBreaks b left (o + 1) else o

/-- The loop over the lines. A turn gets past a character at least. -/
def csvLoop (size : ℕ) : (fuel : ℕ) → (b : ℕ → UInt16) → (start : ℕ) → Option (List Stanza)
  | 0, _, _ => none
  | fuel + 1, b, start =>
    if b start = 0 then some []
    else
      let start := skipBreaks b (size + 1 - start) start
      match strCSpn b isBreak (size + 1 - start) start with
      | none => none
      | some l =>
        if l = 0 then if b start = 0 then some [] else csvLoop size fuel b (start + 1)
        else
          let c := b (start + l)
          match populateStanza (Function.update b (start + l) 0) size start with
          | none => none
          | some (accesses, b, call) =>
            (csvLoop size fuel (Function.update b (start + l) c) (start + l)).map
              (⟨start, l, accesses, call⟩ :: ·)

/-- `try_boot_csv`, for the text of the file: what is done with its lines. -/
def tryBootCsv (text : List UInt16) : Option (List Stanza) :=
  let b := fun i => text.getD i 0
  let start := if b 0 = 0xfeff then 1 else 0
  csvLoop text.length (text.length + 1) b start

/-! ## What is expected -/

/-- A line by itself: a file name, a label, and arguments where there are any. -/
def parseLine (line : List UInt16) : Option StanzaCall :=
  match fields comma 3 line with
  | file :: label :: rest =>
    if file = [] ∨ label = [] then none else some ⟨file, label, rest.headD []⟩
  | _ => none

/-- The text without a byte order mark. -/
def stripMark (text : List UInt16) : List UInt16 :=
  if text.head? = some 0xfeff then text.tail else text

/-- The lines of a file. -/
def bootLines (text : List UInt16) : List (List UInt16) := lines 0 isBreak (stripMark text)

/-- What is done with a line stays in the line and what ends it. -/
def Stanza.Local (z : Stanza) : Prop := ∀ o ∈ z.accesses, z.start ≤ o ∧ o ≤ z.start + z.length

/-- The calls are those of the lines, each by itself, and each line is worked on in its place. -/
def LinesIndependent (text : List UInt16) : Prop :=
  ∃ stanzas, tryBootCsv text = some stanzas ∧ (∀ z ∈ stanzas, z.Local) ∧
    stanzas.filterMap Stanza.call = (bootLines text).filterMap parseLine

/-! ## When it is met -/

/-- A line with a file name has a comma behind it, and one with a label another. -/
def CompleteLine (line : List UInt16) : Prop :=
  (fields comma 3 line).headD [] ≠ [] → 2 ≤ (fields comma 3 line).length ∧
    ((fields comma 3 line).getD 1 [] ≠ [] → 3 ≤ (fields comma 3 line).length)

/-! ## Texts in the buffer -/

section Texts

variable {b : ℕ → UInt16} {reject : UInt16 → Bool} {o size left : ℕ} {l l' row ds : List UInt16}

/-- The characters from an index on. -/
def HoldsText (b : ℕ → UInt16) (o : ℕ) (l : List UInt16) : Prop :=
  ∀ k (hk : k < l.length), b (o + k) = l[k]

/-- No text is held anywhere. -/
theorem holdsText_nil (b : ℕ → UInt16) (o : ℕ) : HoldsText b o [] :=
  fun k hk => absurd hk (Nat.not_lt_zero k)

/-- A text is held character by character. -/
theorem holdsText_cons {c : UInt16} :
    HoldsText b o (c :: l) ↔ b o = c ∧ HoldsText b (o + 1) l := by
  constructor
  · intro h
    refine ⟨h 0 (by simp), fun k hk => ?_⟩
    have := h (k + 1) (by simpa using hk)
    rwa [show o + (k + 1) = o + 1 + k by omega] at this
  · rintro ⟨hc, hl⟩ k hk
    cases k with
    | zero => exact hc
    | succ k =>
      have := hl k (by simpa using hk)
      rwa [show o + 1 + k = o + (k + 1) by omega] at this

/-- A text is held in two parts. -/
theorem holdsText_append :
    HoldsText b o (l ++ l') ↔ HoldsText b o l ∧ HoldsText b (o + l.length) l' := by
  induction l generalizing o with
  | nil => exact (and_iff_right (holdsText_nil b o)).symm
  | cons c l ih =>
    rw [List.cons_append, holdsText_cons, holdsText_cons, ih, and_assoc, List.length_cons,
      show o + 1 + l.length = o + (l.length + 1) by omega]

/-- Only the characters of the text matter. -/
theorem HoldsText.congr {b' : ℕ → UInt16} (h : HoldsText b o l)
    (hsame : ∀ i, o ≤ i → i < o + l.length → b' i = b i) : HoldsText b' o l := by
  intro k hk
  rw [hsame (o + k) (by omega) (by omega)]
  exact h k hk

/-- The search stops behind a row without the characters it looks for. -/
theorem strCSpn_eq (h : HoldsText b o row) (hrow : ∀ c ∈ row, c ≠ 0 ∧ reject c = false)
    (hend : b (o + row.length) = 0 ∨ reject (b (o + row.length)) = true)
    (hleft : row.length < left) : strCSpn b reject left o = some row.length := by
  induction row generalizing o left with
  | nil =>
    obtain ⟨left, rfl⟩ : ∃ m, left = m + 1 := ⟨left - 1, by simp at hleft; omega⟩
    rw [strCSpn, if_pos (by simpa using hend)]
    rfl
  | cons c row ih =>
    obtain ⟨left, rfl⟩ : ∃ m, left = m + 1 := ⟨left - 1, by omega⟩
    obtain ⟨hc, hrest⟩ := holdsText_cons.mp h
    obtain ⟨hplain, hall⟩ := List.forall_mem_cons.mp hrow
    rw [List.length_cons] at hend hleft
    rw [strCSpn, hc, if_neg (by simp [hplain.1, hplain.2]),
      ih hrest hall (by rwa [show o + 1 + row.length = o + (row.length + 1) by omega])
        (by omega)]
    rfl

/-- The breaks in front of a line are passed over. -/
theorem skipBreaks_eq (h : HoldsText b o ds) (hds : ∀ c ∈ ds, isBreak c = true)
    (hend : isBreak (b (o + ds.length)) = false) (hleft : ds.length < left) :
    skipBreaks b left o = o + ds.length := by
  induction ds generalizing o left with
  | nil =>
    obtain ⟨left, rfl⟩ : ∃ m, left = m + 1 := ⟨left - 1, by simp at hleft; omega⟩
    rw [skipBreaks, if_neg (by simpa using hend)]
    rfl
  | cons c ds ih =>
    obtain ⟨left, rfl⟩ : ∃ m, left = m + 1 := ⟨left - 1, by omega⟩
    obtain ⟨hc, hrest⟩ := holdsText_cons.mp h
    obtain ⟨hbreak, hall⟩ := List.forall_mem_cons.mp hds
    rw [List.length_cons] at hend hleft
    rw [skipBreaks, hc, if_pos hbreak,
      ih hrest hall (by rwa [show o + 1 + ds.length = o + (ds.length + 1) by omega]) (by omega),
      List.length_cons]
    omega

/-- A text up to its NUL is read as a whole. -/
theorem textAt_eq (h : HoldsText b o l) (hl : 0 ∉ l) (hend : b (o + l.length) = 0)
    (hsize : o + l.length ≤ size) : textAt b size o = l := by
  obtain ⟨m, hm⟩ : ∃ m, size + 1 - o = l.length + (m + 1) := ⟨size - o - l.length, by omega⟩
  have hmap : (List.range l.length).map (fun k => b (o + k)) = l := by
    refine List.ext_getElem (by simp) fun k hk hk' => ?_
    rw [List.getElem_map, List.getElem_range]
    exact h k hk'
  have hkept : ∀ c ∈ l, decide (c ≠ 0) = true := fun c hc => by
    have hne : c ≠ 0 := fun h => hl (h ▸ hc)
    simpa using hne
  rw [textAt, hm, List.range_add, List.map_append, hmap, List.takeWhile_append_of_pos hkept,
    List.range_succ_eq_map, List.map_cons, List.map_cons, List.takeWhile_cons_of_neg,
    List.append_nil]
  simpa using hend

end Texts

/-! ## A line -/

section Line

variable {b : ℕ → UInt16} {s size : ℕ} {row file label arguments : List UInt16}

/-- Where there is no comma, no character is one. -/
theorem isComma_of_notMem (h : comma ∉ row) : ∀ c ∈ row, isComma c = false := by
  intro c hc
  simpa [isComma] using ne_of_mem_of_not_mem hc h

/-- Such a row is passed over as a whole. -/
theorem plain_of_notMem (hnul : 0 ∉ row) (hcomma : comma ∉ row) :
    ∀ c ∈ row, c ≠ 0 ∧ isComma c = false :=
  fun c hc => ⟨ne_of_mem_of_not_mem hc hnul, isComma_of_notMem hcomma c hc⟩

/-- A field up to a comma. -/
theorem strCSpn_field (h : HoldsText b s (file ++ comma :: label)) (hnul : 0 ∉ file)
    (hcomma : comma ∉ file) (hsize : s + file.length ≤ size) :
    strCSpn b isComma (size + 1 - s) s = some file.length := by
  obtain ⟨hfile, hrest⟩ := holdsText_append.mp h
  refine strCSpn_eq hfile (plain_of_notMem hnul hcomma) (Or.inr ?_) (by omega)
  rw [(holdsText_cons.mp hrest).1]
  rfl

/-- A field up to the end of the line. -/
theorem strCSpn_end (h : HoldsText b s file) (hend : b (s + file.length) = 0) (hnul : 0 ∉ file)
    (hcomma : comma ∉ file) (hsize : s + file.length ≤ size) :
    strCSpn b isComma (size + 1 - s) s = some file.length :=
  strCSpn_eq h (plain_of_notMem hnul hcomma) (Or.inl hend) (by omega)

/-- The characters of a stretch, and the one behind it. -/
theorem mem_charsOf {o n k : ℕ} : k ∈ charsOf o n ↔ o ≤ k ∧ k ≤ o + n := by
  rw [charsOf, List.mem_range'_1]
  omega

/-- The result of a line leaves the buffer, or reads behind the line. -/
def LeavesLine (stop : ℕ) (r : Option (List ℕ × (ℕ → UInt16) × Option StanzaCall)) : Prop :=
  ∀ x, r = some x → ∃ o ∈ x.1, stop < o

/-- The result of a line stays in it, leaves what stands behind it as it is, and makes a call. -/
def StaysInLine (b : ℕ → UInt16) (start stop : ℕ) (call : Option StanzaCall)
    (r : Option (List ℕ × (ℕ → UInt16) × Option StanzaCall)) : Prop :=
  ∃ accesses b', r = some (accesses, b', call) ∧ (∀ o ∈ accesses, start ≤ o ∧ o ≤ stop) ∧
    ∀ i, stop ≤ i → b' i = b i

/-- A line without a file name. -/
theorem populateStanza_noFile (h : HoldsText b s (comma :: row)) {stop : ℕ} (hs : s ≤ stop)
    (hsize : s ≤ size) : StaysInLine b s stop none (populateStanza b size s) := by
  have hfile : strCSpn b isComma (size + 1 - s) s = some 0 :=
    strCSpn_field (show HoldsText b s ([] ++ comma :: row) from h) (by simp) (by simp) hsize
  refine ⟨charsOf s 0, b, by rw [populateStanza, hfile]; rfl, ?_, fun _ _ => rfl⟩
  intro o ho
  have := mem_charsOf.mp ho
  omega

/-- Behind a file name the label is looked for. -/
theorem populateStanza_label {comma0 : ℕ}
    (h : strCSpn b isComma (size + 1 - s) s = some comma0) (hne : comma0 ≠ 0) :
    populateStanza b size s = populateLabel b size s comma0 := by
  rw [populateStanza, h]
  exact if_neg hne

/-- The label is read behind a line without a comma. -/
theorem populateLabel_leaves (b : ℕ → UInt16) (size s comma0 : ℕ) :
    LeavesLine (s + comma0) (populateLabel b size s comma0) := by
  intro x hx
  have hfirst : ∀ n, s + comma0 + 1 ∈ charsOf (s + comma0 + 1) n :=
    fun n => mem_charsOf.mpr ⟨le_rfl, Nat.le_add_right _ _⟩
  refine ⟨s + comma0 + 1, ?_, Nat.lt_succ_self _⟩
  dsimp only [populateLabel, populateArguments] at hx
  split at hx
  · cases hx
  · split_ifs at hx with hzero
    · obtain rfl := Option.some.inj hx
      exact List.mem_append_right _ (hfirst 0)
    · split at hx
      · cases hx
      · obtain rfl := Option.some.inj hx
        exact List.mem_append_left _ (List.mem_append_right _ (hfirst _))

/-- The arguments are read behind a line whose label no comma ends. -/
theorem populateArguments_leaves (b : ℕ → UInt16) (size s comma0 comma1 : ℕ) :
    LeavesLine (s + comma0 + 1 + comma1) (populateArguments b size s comma0 comma1) := by
  intro x hx
  refine ⟨s + comma0 + 1 + comma1 + 1, ?_, Nat.lt_succ_self _⟩
  dsimp only [populateArguments] at hx
  split at hx
  · cases hx
  · obtain rfl := Option.some.inj hx
    exact List.mem_append_right _ (mem_charsOf.mpr ⟨le_rfl, Nat.le_add_right _ _⟩)

/-- The buffer with a string cut off. -/
def cutAt (b : ℕ → UInt16) (o : ℕ) : ℕ → UInt16 := Function.update b o 0

/-- What stands behind a separator is still there when the field before it is cut off. -/
theorem holdsText_cutAt (h : HoldsText b s (file ++ comma :: row)) :
    HoldsText (cutAt b (s + file.length)) (s + file.length + 1) row := by
  have hrow := (holdsText_cons.mp (holdsText_append.mp h).2).2
  exact hrow.congr fun i hi _ => Function.update_of_ne (by omega) _ _

/-- A line without a label. -/
theorem populateLabel_noLabel {comma0 stop : ℕ}
    (h : strCSpn (cutAt b (s + comma0)) isComma (size + 1 - (s + comma0 + 1)) (s + comma0 + 1) =
      some 0)
    (hstop : s + comma0 + 1 ≤ stop) :
    StaysInLine b s stop none (populateLabel b size s comma0) := by
  refine ⟨charsOf s comma0 ++ charsOf (s + comma0 + 1) 0, cutAt b (s + comma0), ?_, ?_, ?_⟩
  · dsimp only [populateLabel, cutAt] at h ⊢
    rw [h]
    rfl
  · intro o ho
    rcases List.mem_append.mp ho with ho | ho <;>
    · have := mem_charsOf.mp ho
      omega
  · intro i hi
    exact Function.update_of_ne (by omega) _ _

/-- Behind a label the arguments are looked for. -/
theorem populateLabel_arguments {comma0 comma1 : ℕ}
    (h : strCSpn (cutAt b (s + comma0)) isComma (size + 1 - (s + comma0 + 1)) (s + comma0 + 1) =
      some comma1) (hne : comma1 ≠ 0) :
    populateLabel b size s comma0 =
      populateArguments (cutAt b (s + comma0)) size s comma0 comma1 := by
  dsimp only [populateLabel, cutAt] at h ⊢
  rw [h]
  exact if_neg hne

/-- A line with a file name, a label and arguments. -/
theorem populateArguments_stays {comma0 comma1 comma2 stop : ℕ} (call : StanzaCall)
    (hfile : HoldsText b s call.file ∧ 0 ∉ call.file ∧ comma0 = call.file.length)
    (hlabel : HoldsText b (s + comma0 + 1) call.label ∧ 0 ∉ call.label ∧
      comma1 = call.label.length)
    (harguments : HoldsText b (s + comma0 + 1 + comma1 + 1) call.arguments ∧
      0 ∉ call.arguments ∧ comma2 = call.arguments.length)
    (hcut : b (s + comma0) = 0)
    (h : strCSpn (cutAt b (s + comma0 + 1 + comma1)) isComma
      (size + 1 - (s + comma0 + 1 + comma1 + 1)) (s + comma0 + 1 + comma1 + 1) = some comma2)
    (hstop : s + comma0 + 1 + comma1 + 1 + comma2 ≤ stop) (hsize : stop ≤ size)
    (hend : b stop = 0) :
    StaysInLine b s stop (some call) (populateArguments b size s comma0 comma1) := by
  obtain ⟨hfile, hfileNul, rfl⟩ := hfile
  obtain ⟨hlabel, hlabelNul, rfl⟩ := hlabel
  obtain ⟨harguments, hargumentsNul, rfl⟩ := harguments
  set label := s + call.file.length + 1 with hlabelEq
  set arguments := label + call.label.length + 1 with hargumentsEq
  set b' := cutAt (cutAt b (label + call.label.length)) (arguments + call.arguments.length)
  have hsame : ∀ i, i ≠ label + call.label.length → i ≠ arguments + call.arguments.length →
      b' i = b i := fun i h₁ h₂ => by
    rw [show b' i = _ from Function.update_of_ne h₂ _ _]
    exact Function.update_of_ne h₁ _ _
  -- the fields as they stand in the buffer afterwards, each with its end cut off
  have hfile' : textAt b' size s = call.file :=
    textAt_eq (hfile.congr fun i _ _ => hsame i (by omega) (by omega)) hfileNul
      ((hsame _ (by omega) (by omega)).trans hcut) (by omega)
  have hlabel' : textAt b' size label = call.label := by
    refine textAt_eq (hlabel.congr fun i _ _ => hsame i (by omega) (by omega)) hlabelNul ?_
      (by omega)
    rw [show b' _ = _ from Function.update_of_ne (by omega) _ _]
    exact Function.update_self _ _ _
  have harguments' : textAt b' size arguments = call.arguments :=
    textAt_eq (harguments.congr fun i _ _ => hsame i (by omega) (by omega)) hargumentsNul
      (Function.update_self _ _ _) (by omega)
  refine ⟨charsOf s call.file.length ++ charsOf label call.label.length ++
    charsOf arguments call.arguments.length, b', ?_, ?_, ?_⟩
  · dsimp only [populateArguments]
    rw [show strCSpn (Function.update b (label + call.label.length) 0) isComma
      (size + 1 - arguments) arguments = some call.arguments.length from h]
    change some (_, b', some (StanzaCall.mk (textAt b' size s) (textAt b' size label)
      (textAt b' size arguments))) = _
    rw [hfile', hlabel', harguments']
  · intro o ho
    rcases List.mem_append.mp ho with ho | ho
    · rcases List.mem_append.mp ho with ho | ho <;>
      · have := mem_charsOf.mp ho
        omega
    · have := mem_charsOf.mp ho
      omega
  · intro i hi
    by_cases hi' : i = arguments + call.arguments.length
    · rw [hi', show b' _ = _ from Function.update_self _ _ _]
      rw [← hend]
      congr 1
      omega
    · exact hsame i (by omega) hi'

/-! ### By itself -/

/-- A line without a file name is no entry. -/
theorem parseLine_noFile : parseLine (comma :: row) = none := by
  rw [parseLine, show comma :: row = [] ++ comma :: row from rfl, fields_succ List.not_mem_nil]
  cases fields comma 2 row <;> simp

/-- A line without a label is no entry. -/
theorem parseLine_noLabel {rest : List (List UInt16)} (hfile : comma ∉ file)
    (hrow : fields comma 2 row = [] :: rest) : parseLine (file ++ comma :: row) = none := by
  rw [parseLine, fields_succ hfile, hrow]
  simp

/-- A line with all three fields is an entry. -/
theorem parseLine_arguments (hfile : comma ∉ file) (hlabel : comma ∉ label) (hne : file ≠ [])
    (hlabelNe : label ≠ []) (hrow : fields comma 1 row = [arguments]) :
    parseLine (file ++ comma :: (label ++ comma :: row)) = some ⟨file, label, arguments⟩ := by
  rw [parseLine, fields_succ hfile, fields_succ hlabel, hrow]
  simp [hne, hlabelNe]

/-- The last field that is looked at, up to a comma or the end. -/
theorem exists_arguments (h : HoldsText b s row) (hend : b (s + row.length) = 0) (hnul : 0 ∉ row)
    (hsize : s + row.length ≤ size) : ∃ arguments, fields comma 1 row = [arguments] ∧
      0 ∉ arguments ∧ HoldsText b s arguments ∧ arguments.length ≤ row.length ∧
      strCSpn b isComma (size + 1 - s) s = some arguments.length := by
  by_cases hcomma : comma ∈ row
  · obtain ⟨arguments, rest, rfl, harguments⟩ := List.eq_append_cons_of_mem hcomma
    have hnul' : 0 ∉ arguments := fun hmem => hnul (List.mem_append_left _ hmem)
    rw [List.length_append] at hsize
    refine ⟨arguments, by rw [fields_succ harguments, fields_zero], hnul',
      (holdsText_append.mp h).1, by simp, strCSpn_field h hnul' harguments (by omega)⟩
  · exact ⟨row, fields_last hcomma, hnul, h, le_rfl, strCSpn_end h hend hnul hcomma hsize⟩

/-- Whether a line is worked on in its place, and as by itself, is whether it is complete. -/
def WorkedOn (b : ℕ → UInt16) (size s : ℕ) (row : List UInt16) : Prop :=
  (CompleteLine row ∧
    StaysInLine b s (s + row.length) (parseLine row) (populateStanza b size s)) ∨
  (¬CompleteLine row ∧ LeavesLine (s + row.length) (populateStanza b size s))

/-- A line without a comma is worked on inside of itself. -/
theorem workedOn_noComma (h : HoldsText b s row) (hend : b (s + row.length) = 0) (hnul : 0 ∉ row)
    (hcomma : comma ∉ row) (hne : row ≠ []) (hsize : s + row.length ≤ size) :
    WorkedOn b size s row := by
  have hlen : row.length ≠ 0 := by simpa using hne
  refine Or.inr ⟨?_, ?_⟩
  · rw [CompleteLine, fields_last hcomma]
    exact fun hc => absurd (hc hne).1 (by simp)
  · rw [populateStanza_label (strCSpn_end h hend hnul hcomma hsize) hlen]
    exact populateLabel_leaves b size s row.length

/-- A line without a file name is worked on inside of itself. -/
theorem workedOn_noFile (h : HoldsText b s (comma :: row)) (hsize : s ≤ size) :
    WorkedOn b size s (comma :: row) := by
  refine Or.inl ⟨?_, ?_⟩
  · rw [CompleteLine, show comma :: row = [] ++ comma :: row from rfl,
      fields_succ List.not_mem_nil]
    exact fun hc => absurd rfl hc
  · rw [parseLine_noFile]
    exact populateStanza_noFile h (Nat.le_add_right _ _) hsize

section Named

variable (h : HoldsText b s (file ++ comma :: row)) (hfile : comma ∉ file) (hfileNul : 0 ∉ file)
  (hfileNe : file ≠ []) (hrowNul : 0 ∉ row)
  (hend : b (s + file.length + 1 + row.length) = 0)
  (hsize : s + file.length + 1 + row.length ≤ size)

include h hfile hfileNul hfileNe hsize

/-- A line with a file name comes to its label. -/
theorem populateStanza_named : populateStanza b size s = populateLabel b size s file.length :=
  populateStanza_label (strCSpn_field h hfileNul hfile (by omega)) (by simpa using hfileNe)

include hrowNul hend

/-- A line with a file name whose label goes up to the end. -/
theorem workedOn_label (hcomma : comma ∉ row) : WorkedOn b size s (file ++ comma :: row) := by
  have hcut := holdsText_cutAt h
  have hendCut : cutAt b (s + file.length) (s + file.length + 1 + row.length) = 0 :=
    (Function.update_of_ne (by omega) _ _).trans hend
  have hlabel := strCSpn_end hcut hendCut hrowNul hcomma hsize
  have hstop : s + (file ++ comma :: row).length = s + file.length + 1 + row.length := by
    rw [List.length_append, List.length_cons]
    omega
  rw [WorkedOn, hstop, populateStanza_named h hfile hfileNul hfileNe hsize]
  by_cases hempty : row = []
  · subst hempty
    refine Or.inl ⟨?_, ?_⟩
    · rw [CompleteLine, fields_succ hfile, fields_last hcomma]
      simp
    · rw [parseLine_noLabel hfile (fields_last hcomma)]
      exact populateLabel_noLabel hlabel (Nat.le_add_right _ _)
  · refine Or.inr ⟨?_, ?_⟩
    · rw [CompleteLine, fields_succ hfile, fields_last hcomma]
      intro hc
      exact absurd ((hc hfileNe).2 hempty) (by simp)
    · rw [populateLabel_arguments hlabel (by simpa using hempty)]
      exact populateArguments_leaves _ _ _ _ _

end Named

/-- A line whose label a comma ends. -/
theorem workedOn_labelled (h : HoldsText b s (file ++ comma :: (label ++ comma :: row)))
    (hfile : comma ∉ file) (hfileNul : 0 ∉ file) (hfileNe : file ≠ []) (hlabel : comma ∉ label)
    (hlabelNul : 0 ∉ label) (hrowNul : 0 ∉ row)
    (hend : b (s + file.length + 1 + label.length + 1 + row.length) = 0)
    (hsize : s + file.length + 1 + label.length + 1 + row.length ≤ size) :
    WorkedOn b size s (file ++ comma :: (label ++ comma :: row)) := by
  have hcut := holdsText_cutAt h
  have hcut' := holdsText_cutAt hcut
  have hstop : s + (file ++ comma :: (label ++ comma :: row)).length =
      s + file.length + 1 + label.length + 1 + row.length := by
    simp only [List.length_append, List.length_cons]
    omega
  have hcsp := strCSpn_field hcut hlabelNul hlabel (by omega : _ ≤ size)
  have hendCut : cutAt b (s + file.length)
      (s + file.length + 1 + label.length + 1 + row.length) = 0 :=
    (Function.update_of_ne (by omega) _ _).trans hend
  rw [WorkedOn, hstop, populateStanza_named h hfile hfileNul hfileNe (by simp; omega)]
  -- an empty label ends the line
  by_cases hempty : label = []
  · subst hempty
    refine Or.inl ⟨?_, ?_⟩
    · rw [CompleteLine, fields_succ hfile, fields_succ List.not_mem_nil]
      simp
    · rw [parseLine_noLabel hfile (fields_succ List.not_mem_nil)]
      exact populateLabel_noLabel hcsp (by omega)
  obtain ⟨arguments, hfields, hnul, hholds, hle, hspn⟩ :=
    exists_arguments hcut' ((Function.update_of_ne (by omega) _ _).trans hendCut) hrowNul hsize
  refine Or.inl ⟨?_, ?_⟩
  · rw [CompleteLine, fields_succ hfile, fields_succ hlabel, hfields]
    simp
  · rw [populateLabel_arguments hcsp (by simpa using hempty),
      parseLine_arguments hfile hlabel hfileNe hempty hfields]
    -- the NUL behind the file name is outside all three fields
    have hfileCut : HoldsText (cutAt b (s + file.length)) s file :=
      (holdsText_append.mp h).1.congr fun i _ hi => Function.update_of_ne (by omega) _ _
    have hargumentsCut : HoldsText (cutAt b (s + file.length))
        (s + file.length + 1 + label.length + 1) arguments :=
      hholds.congr fun i hi _ => (Function.update_of_ne (by omega) _ _).symm
    obtain ⟨accesses, b', hrun, hin, hsame⟩ :=
      populateArguments_stays ⟨file, label, arguments⟩ ⟨hfileCut, hfileNul, rfl⟩
        ⟨(holdsText_append.mp hcut).1, hlabelNul, rfl⟩ ⟨hargumentsCut, hnul, rfl⟩
        (Function.update_self _ _ _) hspn (by dsimp only; omega) hsize hendCut
    refine ⟨accesses, b', hrun, hin, fun i hi => (hsame i hi).trans ?_⟩
    exact Function.update_of_ne (by omega) _ _

/-- Every line is worked on inside of itself. -/
theorem workedOn (h : HoldsText b s row) (hend : b (s + row.length) = 0) (hnul : 0 ∉ row)
    (hne : row ≠ []) (hsize : s + row.length ≤ size) : WorkedOn b size s row := by
  by_cases hcomma : comma ∈ row
  swap
  · exact workedOn_noComma h hend hnul hcomma hne hsize
  obtain ⟨file, row, rfl, hfile⟩ := List.eq_append_cons_of_mem hcomma
  rw [List.mem_append, List.mem_cons, not_or, not_or] at hnul
  obtain ⟨hfileNul, -, hnul⟩ := hnul
  rw [List.length_append, List.length_cons] at hend hsize
  by_cases hempty : file = []
  · subst hempty
    exact workedOn_noFile h (by omega)
  by_cases hcomma : comma ∈ row
  swap
  · exact workedOn_label h hfile hfileNul hempty hnul
      (by rwa [show s + file.length + 1 + row.length =
        s + (file.length + (row.length + 1)) by omega]) (by omega) hcomma
  obtain ⟨label, row, rfl, hlabel⟩ := List.eq_append_cons_of_mem hcomma
  rw [List.mem_append, List.mem_cons, not_or, not_or] at hnul
  obtain ⟨hlabelNul, -, hnul⟩ := hnul
  rw [List.length_append, List.length_cons] at hend hsize
  exact workedOn_labelled h hfile hfileNul hempty hlabel hlabelNul hnul
    (by rwa [show s + file.length + 1 + label.length + 1 + row.length =
      s + (file.length + (label.length + (row.length + 1) + 1)) by omega]) (by omega)

end Line

/-! ## A run -/

section Run

variable {b : ℕ → UInt16} {start size fuel : ℕ} {text row rest ds : List UInt16}
  {rows : List (List UInt16)} {z : Stanza} {r : Option (List Stanza)}

/-- A run stays in its lines, and its calls are those of the rows, each by itself. -/
def RunIndependent (r : Option (List Stanza)) (rows : List (List UInt16)) : Prop :=
  ∃ stanzas, r = some stanzas ∧ (∀ z ∈ stanzas, z.Local) ∧
    stanzas.filterMap Stanza.call = rows.filterMap parseLine

/-- Without lines there is nothing to mix up. -/
theorem runIndependent_nil : RunIndependent (some []) [] :=
  ⟨[], rfl, fun _ hz => absurd hz List.not_mem_nil, rfl⟩

/-- A line that is worked on by itself leaves the others to be. -/
theorem runIndependent_cons (hz : z.Local) (hcall : z.call = parseLine row) :
    RunIndependent (r.map (z :: ·)) (row :: rows) ↔ RunIndependent r rows := by
  constructor
  · rintro ⟨stanzas, hrun, hlocal, hcalls⟩
    obtain ⟨stanzas, rfl, rfl⟩ := Option.map_eq_some_iff.mp hrun
    refine ⟨stanzas, rfl, fun y hy => hlocal y (List.mem_cons_of_mem z hy), ?_⟩
    rw [List.filterMap_cons, List.filterMap_cons, hcall] at hcalls
    cases hline : parseLine row with
    | none => simpa only [hline] using hcalls
    | some call => simpa only [hline, List.cons.injEq, true_and] using hcalls
  · rintro ⟨stanzas, rfl, hlocal, hcalls⟩
    refine ⟨z :: stanzas, rfl, List.forall_mem_cons.mpr ⟨hz, hlocal⟩, ?_⟩
    rw [List.filterMap_cons, List.filterMap_cons, hcall, hcalls]

/-- A line that is not worked on by itself spoils the run. -/
theorem not_runIndependent (hz : ¬z.Local) : ¬RunIndependent (r.map (z :: ·)) rows := by
  rintro ⟨stanzas, hrun, hlocal, -⟩
  obtain ⟨stanzas, rfl, rfl⟩ := Option.map_eq_some_iff.mp hrun
  exact hz (hlocal z List.mem_cons_self)

/-- A line break is no NUL. -/
theorem isBreak_ne_zero {c : UInt16} (hc : isBreak c = true) : c ≠ 0 := by
  rintro rfl
  exact absurd hc (by decide)

/-- The rest of a text behind a line starts with the end of the line, where there is a rest. -/
theorem lines_row_rest (hrow : ∀ c ∈ row, Plain 0 isBreak c) (hne : row ≠ [])
    (hrest : ∀ c ∈ rest.head?, isBreak c = true) :
    lines 0 isBreak (row ++ rest) = row :: lines 0 isBreak rest := by
  cases rest with
  | nil => exact lines_last hrow hne rfl
  | cons c rest =>
    have hc : isBreak c = true := hrest c rfl
    rw [lines_row hrow hne (isBreak_ne_zero hc) hc, lines_delim (isBreak_ne_zero hc) hc]

/-- A text is ends of lines, a line without any, and a rest that starts with one. -/
theorem exists_line (text : List UInt16) (hnul : 0 ∉ text) : ∃ ds row rest,
    text = ds ++ (row ++ rest) ∧ (∀ c ∈ ds, isBreak c = true) ∧
      (∀ c ∈ row, Plain 0 isBreak c) ∧ (∀ c ∈ rest.head?, isBreak c = true) ∧
      (row = [] → rest = []) := by
  refine ⟨text.takeWhile isBreak, (text.dropWhile isBreak).takeWhile (!isBreak ·),
    (text.dropWhile isBreak).dropWhile (!isBreak ·), ?_, ?_, ?_, ?_, ?_⟩
  · rw [List.takeWhile_append_dropWhile, List.takeWhile_append_dropWhile]
  · exact fun c hc => List.mem_takeWhile_imp hc
  · intro c hc
    have hmem : c ∈ text := (List.dropWhile_sublist _).mem ((List.takeWhile_sublist _).mem hc)
    exact ⟨ne_of_mem_of_not_mem hmem hnul, by simpa using List.mem_takeWhile_imp hc⟩
  · intro c hc
    have := List.head?_dropWhile_not (!isBreak ·) (text.dropWhile isBreak)
    rw [Option.mem_def.mp hc] at this
    simpa using this
  · intro hrow
    have := List.head?_dropWhile_not isBreak text
    cases hrest : text.dropWhile isBreak with
    | nil => rfl
    | cons c rest =>
      rw [hrest] at this hrow
      have hc : isBreak c = false := by simpa using this
      rw [List.takeWhile_cons_of_pos (by simp [hc])] at hrow
      exact absurd hrow (by simp)

/-- A turn of the loop that finds a line. -/
theorem csvLoop_line (h : HoldsText b start (ds ++ (row ++ rest)))
    (hds : ∀ c ∈ ds, isBreak c = true) (hrow : ∀ c ∈ row, Plain 0 isBreak c) (hne : row ≠ [])
    (hend : b (start + ds.length + row.length) = 0 ∨
      isBreak (b (start + ds.length + row.length)) = true)
    (hsize : start + ds.length + row.length ≤ size) :
    csvLoop size (fuel + 1) b start =
      match populateStanza (cutAt b (start + ds.length + row.length)) size
        (start + ds.length) with
      | none => none
      | some (accesses, b', call) =>
        (csvLoop size fuel (Function.update b' (start + ds.length + row.length)
          (b (start + ds.length + row.length))) (start + ds.length + row.length)).map
            (⟨start + ds.length, row.length, accesses, call⟩ :: ·) := by
  obtain ⟨hbreaks, hline⟩ := holdsText_append.mp h
  obtain ⟨hrowText, -⟩ := holdsText_append.mp hline
  have hlen : row.length ≠ 0 := by simpa using hne
  -- the row starts where the line breaks end
  have hfirst : isBreak (b (start + ds.length)) = false := by
    obtain ⟨c, row, rfl⟩ := List.exists_cons_of_ne_nil hne
    rw [(holdsText_cons.mp hrowText).1]
    exact (hrow c List.mem_cons_self).2
  have hstart : b start ≠ 0 := by
    cases ds with
    | nil =>
      obtain ⟨c, row, rfl⟩ := List.exists_cons_of_ne_nil hne
      rw [show b start = c from (holdsText_cons.mp hrowText).1]
      exact (hrow c List.mem_cons_self).1
    | cons d ds =>
      rw [(holdsText_cons.mp hbreaks).1]
      exact isBreak_ne_zero (hds d List.mem_cons_self)
  rw [csvLoop, if_neg hstart]
  dsimp only
  rw [skipBreaks_eq hbreaks hds hfirst (by omega), strCSpn_eq hrowText hrow hend (by omega)]
  exact if_neg hlen

/-- The loop ends where nothing but ends of lines is left. -/
theorem csvLoop_over (h : HoldsText b start ds) (hds : ∀ c ∈ ds, isBreak c = true)
    (hend : b (start + ds.length) = 0) (hsize : start + ds.length ≤ size) :
    csvLoop size (fuel + 1) b start = some [] := by
  rw [csvLoop]
  split_ifs with hstart
  · rfl
  · have hspn : strCSpn b isBreak (size + 1 - (start + ds.length)) (start + ds.length) = some 0 :=
      strCSpn_eq (holdsText_nil _ _) (by simp) (Or.inl hend) (by simp; omega)
    dsimp only
    rw [skipBreaks_eq h hds (by rw [hend]; rfl) (by omega), hspn]
    dsimp only
    rw [if_pos rfl, if_pos hend]

/-- A run from a text on. -/
theorem csvLoop_iff (h : HoldsText b start text) (hnul : 0 ∉ text)
    (hend : b (start + text.length) = 0) (hsize : start + text.length ≤ size)
    (hfuel : text.length < fuel) :
    RunIndependent (csvLoop size fuel b start) (lines 0 isBreak text) ↔
      ∀ line ∈ lines 0 isBreak text, CompleteLine line := by
  induction fuel generalizing b start text with
  | zero => exact absurd hfuel (Nat.not_lt_zero _)
  | succ fuel ih =>
    obtain ⟨ds, row, rest, rfl, hds, hrow, hrest, hover⟩ := exists_line text hnul
    rw [lines_delims fun c hc => ⟨isBreak_ne_zero (hds c hc), hds c hc⟩]
    rw [List.length_append, List.length_append, ← Nat.add_assoc, ← Nat.add_assoc] at hend hsize
    rw [List.length_append, List.length_append] at hfuel
    by_cases hne : row = []
    · obtain rfl := hover hne
      subst hne
      rw [csvLoop_over (holdsText_append.mp h).1 hds hend hsize]
      exact iff_of_true runIndependent_nil fun line hline => absurd hline List.not_mem_nil
    obtain ⟨-, hline⟩ := holdsText_append.mp h
    obtain ⟨hrowText, hrestText⟩ := holdsText_append.mp hline
    rw [lines_row_rest hrow hne hrest, List.forall_mem_cons]
    have hstop : b (start + ds.length + row.length) = 0 ∨
        isBreak (b (start + ds.length + row.length)) = true := by
      cases rest with
      | nil => exact Or.inl hend
      | cons c rest =>
        rw [(holdsText_cons.mp hrestText).1]
        exact Or.inr (hrest c rfl)
    rw [csvLoop_line h hds hrow hne hstop (by omega)]
    have hwork : WorkedOn (cutAt b (start + ds.length + row.length)) size (start + ds.length)
        row :=
      workedOn (hrowText.congr fun i _ hi => Function.update_of_ne (by omega) _ _)
        (Function.update_self _ _ _) (fun hmem => (hrow 0 hmem).1 rfl) hne (by omega)
    obtain ⟨hcomplete, accesses, b', hrun, hin, hsame⟩ | ⟨hcomplete, hleaves⟩ := hwork
    · rw [hrun, and_iff_right hcomplete]
      dsimp only
      have hlocal : (Stanza.mk (start + ds.length) row.length accesses (parseLine row)).Local := hin
      refine (runIndependent_cons hlocal rfl).trans ?_
      -- the character behind the line is back, and what follows it has not changed
      have hsame' : ∀ i, start + ds.length + row.length ≤ i →
          Function.update b' (start + ds.length + row.length)
            (b (start + ds.length + row.length)) i = b i := by
        intro i hi
        by_cases hi' : i = start + ds.length + row.length
        · rw [hi', Function.update_self]
        · rw [Function.update_of_ne hi', hsame i hi]
          exact Function.update_of_ne hi' _ _
      refine ih (hrestText.congr fun i hi _ => hsame' i hi) ?_ ?_ (by omega) ?_
      · exact fun hmem => hnul (List.mem_append_right _ (List.mem_append_right _ hmem))
      · rw [hsame' _ (by omega), hend]
      · have : row.length ≠ 0 := by simpa using hne
        omega
    · refine iff_of_false ?_ fun hc => hcomplete hc.1
      cases hrun : populateStanza (cutAt b (start + ds.length + row.length)) size
          (start + ds.length) with
      | none => rintro ⟨stanzas, hsome, -⟩; exact absurd hsome (by simp)
      | some x =>
        obtain ⟨accesses, b', call⟩ := x
        obtain ⟨o, ho, hlt⟩ := hleaves _ hrun
        refine not_runIndependent fun hlocal => ?_
        have := (hlocal o ho).2
        dsimp only at this
        omega

end Run

/-! ## The file -/

section File

variable (text : List UInt16)

/-- The text up to where it ends. -/
def upToNul : List UInt16 := text.takeWhile (· ≠ 0)

/-- The lines end at the NUL. -/
theorem lines_upToNul : lines 0 isBreak (upToNul text) = lines 0 isBreak text := by
  rw [lines, lines, upToNul, List.takeWhile_takeWhile]
  simp

/-- In front of the NUL there is none. -/
theorem zero_notMem_upToNul : 0 ∉ upToNul text := by
  intro h
  simpa using List.mem_takeWhile_imp h

/-- What is held of a text is held up to its NUL. -/
theorem holdsText_upToNul {text : List UInt16} {b : ℕ → UInt16} {o : ℕ} (h : HoldsText b o text)
    (hend : b (o + text.length) = 0) :
    HoldsText b o (upToNul text) ∧ b (o + (upToNul text).length) = 0 := by
  have hsplit : text = upToNul text ++ text.dropWhile (· ≠ 0) :=
    (List.takeWhile_append_dropWhile).symm
  rw [hsplit] at h
  obtain ⟨hl, hrest⟩ := holdsText_append.mp h
  refine ⟨hl, ?_⟩
  cases hdrop : text.dropWhile (· ≠ 0) with
  | nil =>
    rw [hdrop, List.append_nil] at hsplit
    rwa [← hsplit]
  | cons c rest =>
    have hc := List.head?_dropWhile_not (fun c : UInt16 => decide (c ≠ 0)) text
    rw [hdrop] at hrest hc
    rw [(holdsText_cons.mp hrest).1]
    simpa using hc

/-- The buffer that holds a text. -/
theorem holdsText_getD (text : List UInt16) : HoldsText (fun i => text.getD i 0) 0 text := by
  intro k hk
  simp [hk]

/-- A byte order mark is passed over. -/
theorem tryBootCsv_mark (rest : List UInt16) : tryBootCsv (0xfeff :: rest) =
    csvLoop (rest.length + 1) (rest.length + 1 + 1) (fun i => (0xfeff :: rest).getD i 0) 1 := rfl

/-- Without one the loop starts at once. -/
theorem tryBootCsv_noMark (h : text.head? ≠ some 0xfeff) :
    tryBootCsv text = csvLoop text.length (text.length + 1) (fun i => text.getD i 0) 0 := by
  have hfirst : text.getD 0 0 ≠ 0xfeff := by
    cases text with
    | nil => exact by decide
    | cons c rest => simpa using h
  rw [tryBootCsv]
  dsimp only
  rw [if_neg hfirst]

/-- A run over the part of a file that is left from an index on. -/
theorem csvLoop_rest {start : ℕ} {rest : List UInt16}
    (hrest : HoldsText (fun i => text.getD i 0) start rest)
    (hlen : start + rest.length = text.length) :
    RunIndependent (csvLoop text.length (text.length + 1) (fun i => text.getD i 0) start)
      (lines 0 isBreak rest) ↔ ∀ line ∈ lines 0 isBreak rest, CompleteLine line := by
  have hle : (upToNul rest).length ≤ rest.length := (List.takeWhile_sublist _).length_le
  obtain ⟨htext, hstop⟩ := holdsText_upToNul hrest (by rw [hlen]; simp)
  rw [← lines_upToNul rest]
  exact csvLoop_iff htext (zero_notMem_upToNul rest) hstop (by omega) (by omega)

/-- The lines of a file are independent if and only if each with a file name has the commas that
end its name and, where there is one, its label. -/
theorem linesIndependent_iff :
    LinesIndependent text ↔ ∀ line ∈ bootLines text, CompleteLine line := by
  change RunIndependent (tryBootCsv text) (bootLines text) ↔ _
  by_cases hmark : text.head? = some 0xfeff
  · obtain ⟨rest, rfl⟩ := List.head?_eq_some_iff.mp hmark
    rw [tryBootCsv_mark, bootLines, stripMark, if_pos hmark]
    exact csvLoop_rest (0xfeff :: rest) (holdsText_cons.mp (holdsText_getD (0xfeff :: rest))).2
      (Nat.add_comm 1 rest.length)
  · rw [tryBootCsv_noMark text hmark, bootLines, stripMark, if_neg hmark]
    exact csvLoop_rest text (holdsText_getD text) (Nat.zero_add _)

/-- A line with a file name alone takes the next one for its label. -/
theorem not_linesIndependent_fileAlone :
    ¬LinesIndependent [0x61, 0xa, 0x62, 0x2c, 0x63, 0x2c] := by
  rintro ⟨stanzas, hrun, -, hcalls⟩
  have hrun' : (tryBootCsv [0x61, 0xa, 0x62, 0x2c, 0x63, 0x2c]).map
      (List.filterMap Stanza.call) =
        some [⟨[0x61], [0x62], [0x63]⟩, ⟨[0x62], [0x63], []⟩] := by decide
  rw [hrun, Option.map_some, hcalls] at hrun'
  exact absurd hrun' (by decide)

end File

end Shim.BootCsv
