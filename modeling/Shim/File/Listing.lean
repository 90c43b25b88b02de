import Mathlib.Algebra.GroupWithZero.Nat
import Mathlib.Data.List.GetD
import Shim.Common.Lines
import Shim.LoadOptions.ImagePath
import Shim.Trust.Unbundled

/-! # The entries of a directory

`simple_dir_filter` (lib/simple_file.c) walks the records of a directory, which lie one behind the
other in memory: once to count what is to be shown, once to put the names into an array. A filter is
compared with the words in front of the end of a name; where the name is shorter, these begin in the
fixed part of its record. Every read is one of a word of the records, and every name is written to a
place of the array; a walk that leaves either stops there.
-/

namespace Shim.Listing

open Trust (text16)

/-! ## The code -/

/-- A record (`EFI_FILE_INFO`): the words in front of `FileName`, and the name. -/
structure FileInfo where
  header : List UInt16
  fileName : List UInt16
  length_header : header.length = 40
  zero_notMem : 0 ∉ fileName

/-- `EFI_FILE_DIRECTORY` in the lowest word of `Attribute`. -/
def directoryBit (attributes : UInt16) : Bool := attributes &&& 0x10 ≠ 0

def FileInfo.isDirectory (f : FileInfo) : Bool := directoryBit (f.header.getD 36 0)

/-- The words of a record. -/
def FileInfo.words (f : FileInfo) : List UInt16 := f.header ++ (f.fileName ++ [0])

/-- The records of a directory, one behind the other. -/
def recordWords (files : List FileInfo) : List UInt16 := files.flatMap FileInfo.words

/-- What `simple_dir_read_all` comes to. -/
inductive DirectoryRead
  | refused (e : EfiError)
  | noMemory
  | listed (files : List FileInfo)

/-- The names of a directory, and whether each of them is in memory of its own. -/
structure DirNames where
  names : List (List UInt16)
  pooled : Bool

/-- What the allocations of `simple_dir_filter` answer; that of a name, by its index. -/
structure DirMemory where
  newfilter : Bool
  filterarr : Bool
  result : Bool
  name : ℕ → Bool

/-- How the walk over the records stops early: outside of its memory, or where there is no memory
for a name. -/
inductive DirStop
  | outside
  | noName (names : List (List UInt16))

/-- What `simple_dir_filter` comes to. It may return before it touches `*entries`; where the
directory is refused it frees what `*entries` points to; where there is no memory for the records
`*entries` is null; and otherwise it points to them. -/
inductive DirOutcome
  | early
  | refused (e : EfiError)
  | noRecords
  | noName (names : List (List UInt16))
  | listed (l : DirNames)

/-- What separates filters. -/
def bar : UInt16 := 0x7c

/-- `StrLen`, and the string itself: every word up to the NUL is read. -/
def stringFrom : List UInt16 → Except DirStop (List UInt16)
  | [] => .error .outside
  | c :: l => if c = 0 then .ok [] else (stringFrom l).map (c :: ·)

/-- `StrCmp` with a string finds no difference; it reads up to the first one. -/
def strCmpFrom : List UInt16 → List UInt16 → Except DirStop Bool
  | [], _ => .error .outside
  | c :: _, [] => .ok (c = 0)
  | c :: l, d :: s => if c = d ∧ c ≠ 0 then strCmpFrom l s else .ok false

section Code

variable (b : List UInt16) (m : DirMemory)

/-- `FileName` of the record at `ptr`. -/
def nameAt (ptr : ℕ) : Except DirStop (List UInt16) := stringFrom (b.drop (ptr + 40))

/-- `next->Attribute & EFI_FILE_DIRECTORY`. -/
def directoryAt (ptr : ℕ) : Except DirStop Bool :=
  match b[ptr + 36]? with
  | some attributes => .ok (directoryBit attributes)
  | none => .error .outside

/-- `StrCmp` at word `o`, which may lie in front of the records. -/
def sameAt (o : ℤ) (s : List UInt16) : Except DirStop Bool :=
  if o < 0 then .error .outside else strCmpFrom (b.drop o.toNat) s

/-- Where the next record starts. -/
def nextRecord (ptr len : ℕ) : ℕ := ptr + 40 + len + 1

/-- The loop over the filters: one ends the name, or it is that of a directory. -/
def passes (ptr len : ℕ) (directory : Except DirStop Bool) :
    (filters : List (List UInt16)) → Except DirStop Bool
  | [] => .ok false
  | s :: filters =>
    (sameAt b (ptr + 40 + len - s.length) s).bind fun same =>
      if same then .ok true
      else directory.bind fun d => if d then .ok true else passes ptr len directory filters

/-- The first loop over the records: `*count`. -/
def countLoop (filters : List (List UInt16)) : (tot ptr : ℕ) → Except DirStop ℕ
  | 0, _ => .ok 0
  | tot + 1, ptr =>
    (nameAt b ptr).bind fun name =>
      (passes b ptr name.length (directoryAt b ptr) filters).bind fun shown =>
        (countLoop filters tot (nextRecord ptr name.length)).map fun count =>
          if shown then count + 1 else count

/-- `(*result)[(*count)++] = s`. -/
def place (room : ℕ) (result : List (List UInt16)) (s : List UInt16) :
    Except DirStop (List (List UInt16)) :=
  if result.length < room then .ok (result ++ [s]) else .error .outside

/-- A name is copied into the array; the array gets a null pointer where there is no memory. -/
def append (room : ℕ) (result : List (List UInt16)) (s : List UInt16) :
    Except DirStop (List (List UInt16)) :=
  (place room result s).bind fun result' =>
    if m.name result.length then .ok result' else .error (.noName result)

/-- The last and the first entry change places; where there are none, it leaves the array. -/
def swapEnds (result : List (List UInt16)) : Except DirStop (List (List UInt16)) :=
  match result.getLast?, result.head? with
  | some last, some first => .ok ((result.set (result.length - 1) first).set 0 last)
  | _, _ => .error .outside

/-- What is added for the record at `ptr`. -/
def addRecord (filters : List (List UInt16)) (room ptr : ℕ) (name : List UInt16)
    (result : List (List UInt16)) : Except DirStop (List (List UInt16)) :=
  if name = text16 "." then .ok result
  else
    (directoryAt b ptr).bind fun directory =>
      if directory then append m room result (name ++ [ImagePath.slash])
      else
        (passes b ptr name.length (.ok false) filters).bind fun shown =>
          if shown then append m room result name else .ok result

/-- The second loop over the records: `*result`. -/
def fillLoop (filters : List (List UInt16)) (room : ℕ) :
    (tot ptr : ℕ) → List (List UInt16) → Except DirStop (List (List UInt16))
  | 0, _, result => .ok result
  | tot + 1, ptr, result =>
    (nameAt b ptr).bind fun name =>
      (addRecord b m filters room ptr name result).bind fun result =>
        (if name = text16 ".." then swapEnds result else .ok result).bind
          (fillLoop filters room tot (nextRecord ptr name.length))

/-- The entries of the array: there is one for a terminator, and for `"./"`. -/
def roomFor (count : ℕ) : ℕ := if count = 0 then 2 else count + 1

/-- `(*result)[*count] = NULL`. -/
def terminate (room : ℕ) (l : DirNames) : Except DirStop DirNames :=
  if l.names.length < room then .ok l else .error .outside

/-- What is done with `tot` records in `b`. The array is not checked: its first entry is written
through the null pointer where it could not be allocated. -/
def filterRecords (tot : ℕ) (filters : List (List UInt16)) : Except DirStop DirNames :=
  (countLoop b filters tot 0).bind fun count =>
    if !m.result then .error .outside
    else
      (fillLoop b m filters (roomFor count) tot 0 []).bind fun names =>
        -- the entry for an empty directory is a literal
        if names = [] then
          (place (roomFor count) [] (text16 "./")).bind fun names =>
            terminate (roomFor count) ⟨names, false⟩
        else terminate (roomFor count) ⟨names, true⟩

end Code

/-- `simple_dir_filter`; `none` where it leaves its memory. -/
def simpleDirFilter (m : DirMemory) (dir : DirectoryRead) (filter : List UInt16) :
    Option DirOutcome :=
  if !m.newfilter || !m.filterarr then some .early
  else
    match dir with
    | .refused e => some (.refused e)
    | .noMemory => some .noRecords
    | .listed files =>
      match filterRecords (recordWords files) m files.length (filter.splitOn bar) with
      | .ok l => some (.listed l)
      | .error (.noName names) => some (.noName names)
      | .error .outside => none

/-! ## What is shown -/

/-- The name ends in one of the filters. -/
def FileInfo.matched (filters : List (List UInt16)) (f : FileInfo) : Bool :=
  filters.any fun s => s.isSuffixOf f.fileName

/-- Counted is a directory, and a file whose name ends in a filter. -/
def FileInfo.counted (filters : List (List UInt16)) (f : FileInfo) : Bool :=
  f.isDirectory || f.matched filters

/-- Shown is what is counted, but for the directory itself. -/
def FileInfo.shown (filters : List (List UInt16)) (f : FileInfo) : Bool :=
  decide (f.fileName ≠ text16 ".") && f.counted filters

/-- The name as it is shown. -/
def FileInfo.label (f : FileInfo) : List UInt16 :=
  if f.isDirectory then f.fileName ++ [ImagePath.slash] else f.fileName

/-- The names that are to be shown. -/
def labels (filters : List (List UInt16)) (files : List FileInfo) : List (List UInt16) :=
  (files.filter (·.shown filters)).map FileInfo.label

/-- A record as firmware fills it in: no attribute has a bit in the highest word, and the name of
the parent is that of a directory. -/
structure FileInfo.Sound (f : FileInfo) : Prop where
  attributes : f.header.getD 39 0 = 0
  parent : f.fileName = text16 ".." → f.isDirectory = true

section Records

variable {pre post : List UInt16} {f : FileInfo} {s : List UInt16} {filters : List (List UInt16)}

/-- A string is read up to its NUL. -/
theorem stringFrom_append {t : List UInt16} (ht : 0 ∉ t) (post : List UInt16) :
    stringFrom (t ++ 0 :: post) = .ok t := by
  induction t with
  | nil => rfl
  | cons c t ih =>
    obtain ⟨hc, ht⟩ := not_or.mp (mt List.mem_cons.mpr ht)
    rw [List.cons_append, stringFrom, if_neg (Ne.symm hc), ih ht]
    rfl

/-- A string that ends with its NUL is compared as a whole. -/
theorem strCmpFrom_append {t : List UInt16} (ht : 0 ∉ t) (post s : List UInt16) :
    strCmpFrom (t ++ 0 :: post) s = .ok (decide (t = s)) := by
  induction t generalizing s with
  | nil =>
    cases s with
    | nil => rfl
    | cons d s => rw [List.nil_append, strCmpFrom, if_neg (by simp)]; rfl
  | cons c t ih =>
    obtain ⟨hc, ht⟩ := not_or.mp (mt List.mem_cons.mpr ht)
    cases s with
    | nil => simp [strCmpFrom, Ne.symm hc]
    | cons d s =>
      rw [List.cons_append, strCmpFrom]
      by_cases hd : c = d
      · rw [if_pos ⟨hd, Ne.symm hc⟩, ih ht, hd]
        simp
      · rw [if_neg fun h => hd h.1]
        simp [hd]

/-- A string that ends before the other one does is not the same, and not read any further. -/
theorem strCmpFrom_of_short {l : List UInt16} {k : ℕ} (h : l[k]? = some 0) (hk : k < s.length) :
    strCmpFrom l s = .ok false := by
  induction l generalizing s k with
  | nil => cases h
  | cons c l ih =>
    cases s with
    | nil => cases hk
    | cons d s =>
      rw [strCmpFrom]
      cases k with
      | zero =>
        obtain rfl : c = 0 := by simpa using h
        rw [if_neg (by simp)]
      | succ k =>
        split_ifs
        · exact ih (by simpa using h) (by simpa using hk)
        · rfl

/-- What is behind a word of the record. -/
theorem drop_words (o : ℕ) :
    (pre ++ (f.words ++ post)).drop (pre.length + o) = (f.words ++ post).drop o := by
  rw [List.drop_append, List.drop_eq_nil_of_le (Nat.le_add_right _ _), List.nil_append,
    Nat.add_sub_cancel_left]

/-- From inside a name, or from its start on, its rest and its NUL follow. -/
theorem drop_name {i : ℕ} (hi : i ≤ f.fileName.length) :
    (pre ++ (f.words ++ post)).drop (pre.length + (40 + i)) = f.fileName.drop i ++ (0 :: post) := by
  rw [drop_words, FileInfo.words, List.append_assoc, ← List.drop_drop, List.drop_append,
    List.drop_eq_nil_of_le (Nat.le_of_eq f.length_header), f.length_header, Nat.sub_self,
    List.drop_zero, List.nil_append, List.append_assoc, List.drop_append_of_le_length hi]
  rfl

/-- A word of the fixed part. -/
theorem getElem?_header {i : ℕ} (hi : i < 40) :
    (pre ++ (f.words ++ post))[pre.length + i]? = some (f.header.getD i 0) := by
  have hlt : i < f.header.length := by rwa [f.length_header]
  rw [List.getElem?_append_right (Nat.le_add_right _ _), Nat.add_sub_cancel_left, FileInfo.words,
    List.append_assoc, List.getElem?_append_left hlt, List.getD_eq_getElem?_getD,
    List.getElem?_eq_getElem hlt]
  rfl

/-- The name is read at the start of its record. -/
theorem nameAt_words : nameAt (pre ++ (f.words ++ post)) pre.length = .ok f.fileName := by
  rw [nameAt, ← Nat.add_zero 40, drop_name (Nat.zero_le _), List.drop_zero,
    stringFrom_append f.zero_notMem]

/-- So is the bit of a directory. -/
theorem directoryAt_words :
    directoryAt (pre ++ (f.words ++ post)) pre.length = .ok f.isDirectory := by
  rw [directoryAt, getElem?_header (by decide)]
  rfl

/-- The next record starts behind the NUL of the name. -/
theorem nextRecord_words : nextRecord pre.length f.fileName.length = (pre ++ f.words).length := by
  rw [nextRecord]
  simp [FileInfo.words, f.length_header]
  omega

/-- A filter is found exactly where it ends the name, also if it is longer. -/
theorem sameAt_words (hf : f.Sound) (hs : s.length ≤ 40) :
    sameAt (pre ++ (f.words ++ post))
        ((pre.length : ℤ) + 40 + (f.fileName.length : ℤ) - (s.length : ℤ)) s =
      .ok (s.isSuffixOf f.fileName) := by
  have hpos : ¬ (pre.length : ℤ) + 40 + (f.fileName.length : ℤ) - (s.length : ℤ) < 0 := by omega
  rw [sameAt, if_neg hpos]
  rcases Nat.lt_or_ge f.fileName.length s.length with hlt | hle
  · -- a longer filter starts in the fixed part, and the highest word of the attributes is a NUL
    have ho : ((pre.length : ℤ) + 40 + (f.fileName.length : ℤ) - (s.length : ℤ)).toNat =
        pre.length + (40 + f.fileName.length - s.length) := by omega
    have hzero : ((pre ++ (f.words ++ post)).drop (pre.length + (40 + f.fileName.length -
        s.length)))[39 - (40 + f.fileName.length - s.length)]? = some 0 := by
      rw [List.getElem?_drop, Nat.add_assoc, Nat.add_sub_cancel' (by omega),
        getElem?_header (by decide), hf.attributes]
    have hsuffix : s.isSuffixOf f.fileName = false := by
      rw [Bool.eq_false_iff, Ne, List.isSuffixOf_iff_suffix]
      exact fun h => absurd h.length_le (Nat.not_le.mpr hlt)
    rw [ho, strCmpFrom_of_short hzero (by omega), hsuffix]
  · have ho : ((pre.length : ℤ) + 40 + (f.fileName.length : ℤ) - (s.length : ℤ)).toNat =
        pre.length + (40 + (f.fileName.length - s.length)) := by omega
    have hrest : 0 ∉ f.fileName.drop (f.fileName.length - s.length) :=
      fun h => f.zero_notMem (List.mem_of_mem_drop h)
    rw [ho, drop_name (Nat.sub_le _ _), strCmpFrom_append hrest]
    congr 1
    rw [Bool.eq_iff_iff, decide_eq_true_eq, List.isSuffixOf_iff_suffix, List.suffix_iff_eq_drop,
      eq_comm]

/-- The loop over the filters finds one that ends the name; a directory meets the first one. -/
theorem passes_words (hf : f.Sound) (hfilters : ∀ s ∈ filters, s.length ≤ 40) (directory : Bool) :
    passes (pre ++ (f.words ++ post)) pre.length f.fileName.length (.ok directory) filters =
      .ok (decide (filters ≠ []) && directory || f.matched filters) := by
  induction filters with
  | nil => rfl
  | cons s filters ih =>
    obtain ⟨hs, hrest⟩ := List.forall_mem_cons.mp hfilters
    rw [passes, sameAt_words hf hs, ih hrest]
    cases hsame : s.isSuffixOf f.fileName <;> cases directory <;>
      simp [FileInfo.matched, hsame, Except.bind]

end Records

/-! ## The loops over the records -/

/-- The parent of a directory, as it is shown. -/
def parentLabel : List UInt16 := text16 "../"

theorem parentLabel_eq : text16 ".." ++ [ImagePath.slash] = parentLabel := by decide

section Loops

variable {m : DirMemory} {pre post : List UInt16} {f : FileInfo} {filters : List (List UInt16)}
  {files : List FileInfo} {room : ℕ} {result : List (List UInt16)}

/-- The records lie one behind the other. -/
theorem recordWords_cons (pre : List UInt16) (f : FileInfo) (files : List FileInfo) :
    pre ++ recordWords (f :: files) = pre ++ (f.words ++ recordWords files) := rfl

/-- The first loop counts what is to be counted. -/
theorem countLoop_records (hne : filters ≠ []) (hfilters : ∀ s ∈ filters, s.length ≤ 40)
    (hsound : ∀ f ∈ files, f.Sound) (pre : List UInt16) :
    countLoop (pre ++ recordWords files) filters files.length pre.length =
      .ok (files.countP (·.counted filters)) := by
  induction files generalizing pre with
  | nil => rfl
  | cons f files ih =>
    obtain ⟨hf, hrest⟩ := List.forall_mem_cons.mp hsound
    have hnonempty : decide (filters ≠ []) = true := decide_eq_true hne
    rw [recordWords_cons, List.length_cons, countLoop, nameAt_words, directoryAt_words,
      Except.bind, passes_words hf hfilters, Except.bind, nextRecord_words, ← List.append_assoc,
      ih hrest, Except.map, List.countP_cons, hnonempty, Bool.true_and]
    change Except.ok (if f.counted filters = true then _ else _) = _
    split <;> rfl

/-- Where there is room, the name of a record that is shown is added, or there is no memory. -/
theorem addRecord_words (hf : f.Sound) (hfilters : ∀ s ∈ filters, s.length ≤ 40)
    (hroom : f.shown filters = true → result.length < room) :
    addRecord (pre ++ (f.words ++ post)) m filters room pre.length f.fileName result =
      if f.shown filters then
        if m.name result.length then .ok (result ++ [f.label]) else .error (.noName result)
      else .ok result := by
  rw [addRecord, directoryAt_words]
  by_cases hname : f.fileName = text16 "."
  · rw [if_pos hname]
    simp [FileInfo.shown, hname]
  · rw [if_neg hname, Except.bind]
    have hshown : f.shown filters = f.counted filters := by simp [FileInfo.shown, hname]
    rw [hshown] at hroom ⊢
    cases hdirectory : f.isDirectory with
    | true =>
      have hcounted : f.counted filters = true := by simp [FileInfo.counted, hdirectory]
      rw [if_pos rfl, append, place, if_pos (hroom hcounted), hcounted, if_pos rfl,
        FileInfo.label, hdirectory, if_pos rfl]
      rfl
    | false =>
      have hcounted : f.counted filters = f.matched filters := by
        simp [FileInfo.counted, hdirectory]
      rw [hcounted] at hroom ⊢
      rw [if_neg Bool.false_ne_true, passes_words hf hfilters, Except.bind, Bool.and_false,
        Bool.false_or, FileInfo.label, hdirectory, if_neg Bool.false_ne_true]
      cases hmatches : f.matched filters with
      | true =>
        rw [if_pos rfl, if_pos rfl, append, place, if_pos (hroom hmatches)]
        rfl
      | false => rfl

/-- The entry that was added last comes to the front; the others are all still there. -/
theorem swapEnds_concat (result : List (List UInt16)) (x : List UInt16) :
    ∃ r, swapEnds (result ++ [x]) = .ok r ∧ r.Perm (result ++ [x]) ∧ r.head? = some x := by
  cases result with
  | nil => exact ⟨[x], rfl, .refl _, rfl⟩
  | cons y ys =>
    refine ⟨x :: (ys ++ [y]), ?_, ?_, rfl⟩
    · have hlast : (y :: (ys ++ [x])).getLast? = some x := List.getLast?_concat (l := y :: ys)
      rw [swapEnds, List.cons_append, hlast]
      simp
    · exact ((List.perm_append_singleton y ys).cons x).trans
        (List.perm_append_singleton x (y :: ys)).symm

/-- The label of the first record comes first, if it is shown. -/
theorem labels_cons (f : FileInfo) (files : List FileInfo) :
    labels filters (f :: files) =
      (if f.shown filters then [f.label] else []) ++ labels filters files := by
  rw [labels, List.filter_cons]
  split <;> rfl

/-- The loop has added all names that are shown, with the parent in front. -/
structure Filled (filters : List (List UInt16)) (files : List FileInfo)
    (result names : List (List UInt16)) : Prop where
  perm : names.Perm (result ++ labels filters files)
  parent : (result.head? = some parentLabel ∨ ∃ f ∈ files, f.fileName = text16 "..") →
    names.head? = some parentLabel

/-- The loop has stopped at a name that there was no memory for, and has added those before. -/
structure CutShort (m : DirMemory) (filters : List (List UInt16)) (files : List FileInfo)
    (result names : List (List UInt16)) : Prop where
  refused : m.name names.length = false
  missing : ∃ rest, rest ≠ [] ∧ (names ++ rest).Perm (result ++ labels filters files)

/-- A record in front is put where it belongs, and the rest is filled in behind it. -/
theorem Filled.cons {result' names : List (List UInt16)}
    (hperm : result'.Perm (result ++ if f.shown filters then [f.label] else []))
    (hparent : (result.head? = some parentLabel ∨ f.fileName = text16 "..") →
      result'.head? = some parentLabel)
    (h : Filled filters files result' names) : Filled filters (f :: files) result names where
  perm := by
    rw [labels_cons, ← List.append_assoc]
    exact h.perm.trans (hperm.append_right _)
  parent := by
    rintro (hhead | ⟨g, hg, hname⟩)
    · exact h.parent (.inl (hparent (.inl hhead)))
    · rcases List.mem_cons.mp hg with rfl | hg
      · exact h.parent (.inl (hparent (.inr hname)))
      · exact h.parent (.inr ⟨g, hg, hname⟩)

/-- A record in front was put into the array before the memory ran out. -/
theorem CutShort.cons {result' names : List (List UInt16)}
    (hperm : result'.Perm (result ++ if f.shown filters then [f.label] else []))
    (h : CutShort m filters files result' names) :
    CutShort m filters (f :: files) result names where
  refused := h.refused
  missing := by
    obtain ⟨rest, hrest, hall⟩ := h.missing
    refine ⟨rest, hrest, ?_⟩
    rw [labels_cons, ← List.append_assoc]
    exact hall.trans (hperm.append_right _)

/-- With room for what is shown and the terminator, the loop adds it all, or stops at the first
name that there is no memory for. -/
theorem fillLoop_records (room : ℕ) (hfilters : ∀ s ∈ filters, s.length ≤ 40)
    (hsound : ∀ f ∈ files, f.Sound) (pre : List UInt16) (result : List (List UInt16))
    (hroom : result.length + (labels filters files).length < room) :
    (∃ names, fillLoop (pre ++ recordWords files) m filters room files.length pre.length result =
        .ok names ∧ Filled filters files result names) ∨
      ∃ names, fillLoop (pre ++ recordWords files) m filters room files.length pre.length result =
        .error (.noName names) ∧ CutShort m filters files result names := by
  induction files generalizing pre result with
  | nil =>
    refine .inl ⟨result, rfl, ?_, ?_⟩
    · rw [labels, List.filter_nil, List.map_nil, List.append_nil]
    · rintro (h | ⟨f, hf, -⟩)
      · exact h
      · cases hf
  | cons f files ih =>
    obtain ⟨hf, hrest⟩ := List.forall_mem_cons.mp hsound
    rw [labels_cons, List.length_append] at hroom
    have hfits : f.shown filters = true → result.length < room := by
      intro hshown
      rw [hshown] at hroom
      simp at hroom
      omega
    rw [recordWords_cons, List.length_cons, fillLoop, nameAt_words, Except.bind,
      addRecord_words hf hfilters hfits, nextRecord_words, ← List.append_assoc pre]
    -- what the rest of the loop makes of the names after this record
    have hgoOn : ∀ result', result'.Perm (result ++ if f.shown filters then [f.label] else []) →
        ((result.head? = some parentLabel ∨ f.fileName = text16 "..") →
          result'.head? = some parentLabel) →
        (∃ names, fillLoop (pre ++ f.words ++ recordWords files) m filters room files.length
            (pre ++ f.words).length result' = .ok names ∧ Filled filters (f :: files) result names) ∨
          ∃ names, fillLoop (pre ++ f.words ++ recordWords files) m filters room files.length
            (pre ++ f.words).length result' = .error (.noName names) ∧
              CutShort m filters (f :: files) result names := by
      intro result' hperm hparent
      have hlen := hperm.length_eq
      rw [List.length_append] at hlen
      rcases ih hrest (pre ++ f.words) result' (by omega) with ⟨names, hfill, h⟩ | ⟨names, hfill, h⟩
      · exact .inl ⟨names, hfill, h.cons hperm hparent⟩
      · exact .inr ⟨names, hfill, h.cons hperm⟩
    by_cases hshown : f.shown filters = true
    · rw [if_pos hshown]
      simp only [hshown, if_true] at hgoOn hroom
      cases halloc : m.name result.length with
      | false =>
        refine .inr ⟨result, rfl, halloc, f.label :: labels filters files, List.cons_ne_nil _ _, ?_⟩
        rw [labels_cons, if_pos hshown]
        rfl
      | true =>
        rw [if_pos rfl, Except.bind]
        by_cases hparent : f.fileName = text16 ".."
        · -- its name has just been added, so it is the last one
          have hlabel : f.label = parentLabel := by
            rw [FileInfo.label, hf.parent hparent, if_pos rfl, hparent, parentLabel_eq]
          obtain ⟨r, hswap, hperm, hhead⟩ := swapEnds_concat result f.label
          rw [if_pos hparent, hswap]
          exact hgoOn r hperm fun _ => hhead.trans (congrArg some hlabel)
        · rw [if_neg hparent]
          refine hgoOn (result ++ [f.label]) (.refl _) ?_
          rintro (h | h)
          · rw [List.head?_append, h]
            rfl
          · exact absurd h hparent
    · rw [if_neg hshown, Except.bind]
      have hparent : f.fileName ≠ text16 ".." := by
        intro hparent
        have hname : text16 ".." ≠ text16 "." := by decide
        refine hshown ?_
        simp [FileInfo.shown, FileInfo.counted, hf.parent hparent, hparent, hname]
      rw [if_neg hparent]
      refine hgoOn result ?_ ?_
      · rw [if_neg hshown, List.append_nil]
      · rintro (h | h)
        · exact h
        · exact absurd h hparent

end Loops

/-! ## The whole function -/

section Whole

variable {m : DirMemory} {filter : List UInt16} {files : List FileInfo}

/-- What is shown is counted. -/
theorem length_labels_le (filters : List (List UInt16)) (files : List FileInfo) :
    (labels filters files).length ≤ files.countP (·.counted filters) := by
  rw [labels, List.length_map, ← List.countP_eq_length_filter]
  exact List.countP_mono_left fun f _ h => (Bool.and_eq_true_iff.mp h).2

/-- There is room for the entries and for the terminator. -/
theorem lt_roomFor (count : ℕ) : 1 < roomFor count ∧ count < roomFor count := by
  unfold roomFor
  split <;> omega

/-- The names of a directory: those of its directories, with a slash, and of the files that a filter
lets pass, each once, and `..` first. Only where there is nothing to show are the names not in
memory of their own. -/
structure ShowsAll (filters : List (List UInt16)) (files : List FileInfo) (l : DirNames) :
    Prop where
  names : if labels filters files = [] then l = ⟨[text16 "./"], false⟩
    else l.pooled = true ∧ l.names.Perm (labels filters files)
  parent : (∃ f ∈ files, f.fileName = text16 "..") → l.names.head? = some parentLabel

/-- With an array, the walk over the records shows all, or stops where there is no memory for a
name; it does not leave the records or the array. -/
theorem filterRecords_shows (hresult : m.result = true)
    (hfilters : ∀ s ∈ filter.splitOn bar, s.length ≤ 40) (hsound : ∀ f ∈ files, f.Sound) :
    (∃ l, filterRecords (recordWords files) m files.length (filter.splitOn bar) = .ok l ∧
        ShowsAll (filter.splitOn bar) files l) ∨
      ∃ names, filterRecords (recordWords files) m files.length (filter.splitOn bar) =
        .error (.noName names) ∧ CutShort m (filter.splitOn bar) files [] names := by
  have hne : filter.splitOn bar ≠ [] := List.splitOnP_ne_nil _ _
  have hcount := countLoop_records hne hfilters hsound []
  have hle := length_labels_le (filter.splitOn bar) files
  rw [List.nil_append, List.length_nil] at hcount
  rw [filterRecords, hcount, Except.bind, hresult, Bool.not_true, if_neg Bool.false_ne_true]
  obtain ⟨hone, hroom⟩ := lt_roomFor (files.countP (·.counted (filter.splitOn bar)))
  -- the second loop has room for what the first one counted
  have hfill := fillLoop_records (m := m) _ hfilters hsound [] [] (by
    rw [List.length_nil, Nat.zero_add]
    exact Nat.lt_of_le_of_lt hle hroom)
  rw [List.nil_append, List.length_nil] at hfill
  rcases hfill with ⟨names, hfill, hperm, hfront⟩ | ⟨names, hfill, hcut⟩
  · rw [List.nil_append] at hperm
    rw [hfill, Except.bind]
    left
    -- nothing to show: the one entry is the directory itself
    by_cases hnone : labels (filter.splitOn bar) files = []
    · obtain rfl : names = [] := (hnone ▸ hperm).eq_nil
      refine ⟨⟨[text16 "./"], false⟩, ?_, ?_, fun h => absurd (hfront (.inr h)) ?_⟩
      · rw [if_pos rfl, place, List.length_nil, if_pos (Nat.lt_of_succ_lt hone)]
        exact if_pos hone
      · rw [if_pos hnone]
      · exact fun h => by cases h
    · have hnames : names ≠ [] := fun h => hnone (h ▸ hperm).symm.eq_nil
      refine ⟨⟨names, true⟩, ?_, ?_, fun h => hfront (.inr h)⟩
      · rw [if_neg hnames, terminate, if_pos]
        exact Nat.lt_of_le_of_lt (hperm.length_eq.trans_le hle) hroom
      · rw [if_neg hnone]
        exact ⟨rfl, hperm⟩
  · rw [hfill]
    exact .inr ⟨names, rfl, hcut⟩

/-- Without an array, the first name is written through the null pointer. -/
theorem filterRecords_null (hresult : m.result = false)
    (hfilters : ∀ s ∈ filter.splitOn bar, s.length ≤ 40) (hsound : ∀ f ∈ files, f.Sound) :
    filterRecords (recordWords files) m files.length (filter.splitOn bar) = .error .outside := by
  have hne : filter.splitOn bar ≠ [] := List.splitOnP_ne_nil _ _
  have hcount := countLoop_records hne hfilters hsound []
  rw [List.nil_append, List.length_nil] at hcount
  rw [filterRecords, hcount, Except.bind, hresult]
  rfl

/-- What becomes of the records of a directory, by what can be allocated. -/
theorem simpleDirFilter_cases (m : DirMemory)
    (hfilters : ∀ s ∈ filter.splitOn bar, s.length ≤ 40) (hsound : ∀ f ∈ files, f.Sound) :
    (simpleDirFilter m (.listed files) filter = some .early ∧
        ¬ (m.newfilter = true ∧ m.filterarr = true)) ∨
      (simpleDirFilter m (.listed files) filter = none ∧
        m.newfilter = true ∧ m.filterarr = true ∧ m.result = false) ∨
      m.result = true ∧
        ((∃ names, simpleDirFilter m (.listed files) filter = some (.noName names) ∧
            CutShort m (filter.splitOn bar) files [] names) ∨
          ∃ l, simpleDirFilter m (.listed files) filter = some (.listed l) ∧
            ShowsAll (filter.splitOn bar) files l) := by
  unfold simpleDirFilter
  by_cases hearly : (!m.newfilter || !m.filterarr) = true
  · rw [if_pos hearly]
    refine .inl ⟨rfl, ?_⟩
    rintro ⟨hnew, harr⟩
    rw [hnew, harr] at hearly
    cases hearly
  · rw [if_neg hearly]
    obtain ⟨hnew, harr⟩ : m.newfilter = true ∧ m.filterarr = true := by simpa using hearly
    dsimp only
    -- the second loop writes to the list whether it was allocated or not
    cases hresult : m.result with
    | false =>
      rw [filterRecords_null hresult hfilters hsound]
      exact .inr (.inl ⟨rfl, hnew, harr, rfl⟩)
    | true =>
      refine .inr (.inr ⟨rfl, ?_⟩)
      rcases filterRecords_shows hresult hfilters hsound with ⟨l, hl, hshows⟩ | ⟨names, hcut, hshort⟩
      · rw [hl]
        exact .inr ⟨l, rfl, hshows⟩
      · rw [hcut]
        exact .inl ⟨names, rfl, hshort⟩

/-- What is listed is all that is to be shown. -/
theorem showsAll_of_listed (hfilters : ∀ s ∈ filter.splitOn bar, s.length ≤ 40)
    (hsound : ∀ f ∈ files, f.Sound) {l : DirNames}
    (h : simpleDirFilter m (.listed files) filter = some (.listed l)) :
    ShowsAll (filter.splitOn bar) files l := by
  rcases simpleDirFilter_cases m hfilters hsound with
    ⟨hdir, -⟩ | ⟨hdir, -⟩ | ⟨-, ⟨names, hdir, -⟩ | ⟨l', hdir, hshows⟩⟩ <;>
    rw [hdir] at h <;> cases h
  exact hshows

/-- `simple_dir_filter` leaves its memory exactly where it has no array. Its names are all that is
to be shown; it stops at a name only where there is no memory for it, and with memory it does not
stop. -/
theorem simpleDirFilter_shows (m : DirMemory)
    (hfilters : ∀ s ∈ filter.splitOn bar, s.length ≤ 40) (hsound : ∀ f ∈ files, f.Sound) :
    (simpleDirFilter m (.listed files) filter = none ↔
        m.newfilter = true ∧ m.filterarr = true ∧ m.result = false) ∧
      (∀ names, simpleDirFilter m (.listed files) filter = some (.noName names) →
        CutShort m (filter.splitOn bar) files [] names) ∧
      (∀ l, simpleDirFilter m (.listed files) filter = some (.listed l) →
        ShowsAll (filter.splitOn bar) files l) ∧
      (m.newfilter = true → m.filterarr = true → m.result = true → (∀ i, m.name i = true) →
        ∃ l, simpleDirFilter m (.listed files) filter = some (.listed l)) := by
  rcases simpleDirFilter_cases m hfilters hsound with
    ⟨hdir, hno⟩ | ⟨hdir, hnone⟩ | ⟨hresult, ⟨names, hdir, hshort⟩ | ⟨l, hdir, hshows⟩⟩
  · rw [hdir]
    refine ⟨iff_of_false (by simp) fun h => hno ⟨h.1, h.2.1⟩, by simp, by simp, ?_⟩
    exact fun hnew harr => absurd ⟨hnew, harr⟩ hno
  · rw [hdir]
    refine ⟨iff_of_true rfl hnone, by simp, by simp, fun _ _ hresult => ?_⟩
    rw [hnone.2.2] at hresult
    cases hresult
  · rw [hdir]
    refine ⟨by simp [hresult], fun names' h => ?_, by simp, fun _ _ _ hall => ?_⟩
    · obtain rfl : names = names' := by simpa using h
      exact hshort
    · have hno := hshort.refused
      rw [hall] at hno
      cases hno
  · rw [hdir]
    refine ⟨by simp [hresult], by simp, fun l' h => ?_, fun _ _ _ _ => ⟨l, rfl⟩⟩
    obtain rfl : l = l' := by simpa using h
    exact hshows

/-- A record with these attributes. -/
def recordOf (attributes : UInt16) (name : List UInt16) (hname : 0 ∉ name) : FileInfo where
  header := List.replicate 36 0 ++ [attributes, 0, 0, 0]
  fileName := name
  length_header := rfl
  zero_notMem := hname

theorem zero_notMem_dotDot : 0 ∉ text16 ".." := by decide

theorem zero_notMem_derFile : 0 ∉ text16 "k.der" := by decide

def dotDot : FileInfo := recordOf 0x10 (text16 "..") zero_notMem_dotDot

def derFile : FileInfo := recordOf 0x20 (text16 "k.der") zero_notMem_derFile

/-- Both records are as firmware fills them in. -/
theorem sound_derFile : ∀ f ∈ [derFile, dotDot], f.Sound := by
  intro f hf
  rcases List.mem_cons.mp hf with rfl | hf
  · exact ⟨by decide, by decide⟩
  · obtain rfl := List.mem_singleton.mp hf
    exact ⟨by decide, by decide⟩

/-- The empty filter is short. -/
theorem length_anyName : ∀ s ∈ ([] : List UInt16).splitOn bar, s.length ≤ 40 := by decide

/-- There is memory for everything. -/
def plenty : DirMemory := ⟨true, true, true, fun _ => true⟩

/-- A directory with a key file and with its parent. -/
theorem simpleDirFilter_shows_derFile :
    (simpleDirFilter plenty (.listed [derFile, dotDot]) [] = none ↔
        plenty.newfilter = true ∧ plenty.filterarr = true ∧ plenty.result = false) ∧
      (∀ names, simpleDirFilter plenty (.listed [derFile, dotDot]) [] = some (.noName names) →
        CutShort plenty (([] : List UInt16).splitOn bar) [derFile, dotDot] [] names) ∧
      (∀ l, simpleDirFilter plenty (.listed [derFile, dotDot]) [] = some (.listed l) →
        ShowsAll (([] : List UInt16).splitOn bar) [derFile, dotDot] l) ∧
      (plenty.newfilter = true → plenty.filterarr = true → plenty.result = true →
        (∀ i, plenty.name i = true) →
          ∃ l, simpleDirFilter plenty (.listed [derFile, dotDot]) [] = some (.listed l)) :=
  simpleDirFilter_shows plenty length_anyName sound_derFile

example : simpleDirFilter plenty (.listed [derFile, dotDot]) [] =
    some (.listed ⟨[text16 "../", text16 "k.der"], true⟩) := by rfl

end Whole

end Shim.Listing
