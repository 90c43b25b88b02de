import Shim.Common.ByteMap
import Shim.Sbat.CsvReads
import Shim.Sbat.Entries

/-! # Entries in one block

`parse_sbat_section` and `parse_sbat_var_data` with the memory they fill: a first pass over the rows
adds up what is needed, one block of that size is allocated, and a second pass puts the pointers,
the entries and the strings into it. A column is the C string it points to; the links of the list
of variable entries are kept as the list of their addresses.
-/

namespace Shim

open Bytes ByteMap Lines

/-- The texts of a row. -/
abbrev CsvRow := List (List UInt8)

/-! ## The passes -/

/-- The columns of a row in the first pass. -/
def sizeColumns : CsvRow → ℕ → Option ℕ
  | [], allocsz => some allocsz
  | column :: row, allocsz =>
    if column = [] then none else sizeColumns row (allocsz + (column.length + 1))

/-- The first pass: the size of the block and the number of entries, of `entrySize` bytes each. -/
def sizeRows (required entrySize : ℕ) : List CsvRow → ℕ → ℕ → Option (ℕ × ℕ)
  | [], allocsz, n => some (allocsz, n)
  | row :: rows, allocsz, n =>
    if row.length < required then none
    else
      match sizeColumns row (allocsz + 8 + entrySize) with
      | none => none
      | some allocsz => sizeRows required entrySize rows allocsz (n + 1)

/-- `stpcpy`: the memory, and where the terminator is. -/
def stpcpy (mem : ℕ → UInt8) (dest : ℕ) (src : List UInt8) : (ℕ → UInt8) × ℕ :=
  (storeString mem dest src, dest + src.length)

/-- The columns of a row in the second pass: each is copied to `strtab`, and the field of the entry
points there. -/
def fillColumns (entry : ℕ) : ℕ → CsvRow → (ℕ → UInt8) → ℕ → (ℕ → UInt8) × ℕ
  | _, [], mem, strtab => (mem, strtab)
  | i, column :: row, mem, strtab =>
    let copied := stpcpy (storeLe mem (entry + 8 * i) 8 strtab) strtab column
    fillColumns entry (i + 1) row copied.1 (copied.2 + 1)

/-- The second pass, with the table of pointers at `entries`. -/
def fillRows (entrySize entries : ℕ) : List CsvRow → (ℕ → UInt8) → ℕ → ℕ → ℕ → (ℕ → UInt8) × ℕ
  | [], mem, _, _, strtab => (mem, strtab)
  | row :: rows, mem, entry, n, strtab =>
    let filled := fillColumns entry 0 row mem strtab
    fillRows entrySize entries rows (storeLe filled.1 (entries + 8 * n) 8 entry)
      (entry + entrySize) (n + 1) filled.2

/-! ## The parsers -/

/-- Where `AllocateZeroPool` puts a block, when it succeeds. -/
structure ZeroPool where
  address : ℕ → ℕ
  ne_null : ∀ size, address size ≠ 0
  fits : ∀ size, size < 2 ^ 63 → address size + size ≤ 2 ^ 64

/-- `sizeof(struct sbat_section_entry)`. -/
def sbatSectionEntrySize : ℕ := 48

/-- `sizeof(struct sbat_var_entry)`: three pointers and the links of the list. -/
def sbatVarEntrySize : ℕ := 40

/-- What `parse_sbat_section` leaves: the memory, its results, and the block. -/
structure SectionBlock where
  mem : ℕ → UInt8
  entries : ℕ
  nEntries : ℕ
  block : ℕ
  allocsz : ℕ
  strtab : ℕ

/-- What `parse_sbat_var_data` leaves. -/
structure VarBlock where
  mem : ℕ → UInt8
  entryList : List ℕ
  block : ℕ
  allocsz : ℕ
  strtab : ℕ

/-- The rows of `parse_csv_data`, as the texts of their columns. -/
def csvDataRows (m : Mem) (dataEnd n : ℕ) : Except EfiStatus (List CsvRow) :=
  (parseCsvData m dataEnd n).map fun r => r.2.map (List.map (cstr r.1))

/-- `parse_sbat_section`, with the heap around its block. -/
def fillSbatSection (pool : ZeroPool) (heap : ℕ → UInt8) (m : Mem) (sectionSize : ℕ) :
    Except EfiStatus SectionBlock :=
  if sectionSize = 0 then .error .invalidParameter
  else
    match csvDataRows m (sectionSize - 1) sbatSectionColumns with
    | .error e => .error e
    | .ok rows =>
      match sizeRows sbatSectionColumns sbatSectionEntrySize rows 0 0 with
      | none => .error .invalidParameter
      | some (allocsz, n) =>
        -- nothing is allocated for an empty section
        if n = 0 then .ok ⟨heap, 0, 0, 0, 0, 0⟩
        else
          let block := pool.address allocsz
          if block = 0 then .error .outOfResources
          else
            let entry := block + 8 * n
            let filled := fillRows sbatSectionEntrySize block rows (zero heap block allocsz) entry 0
              (entry + sbatSectionEntrySize * n)
            .ok ⟨filled.1, block, n, block, allocsz, filled.2⟩

/-- `parse_sbat_var_data`, with the heap around its block. -/
def fillSbatVarData (pool : ZeroPool) (heap : ℕ → UInt8) (m : Mem) (datasize : ℕ) :
    Except EfiStatus VarBlock :=
  if datasize = 0 then .error .invalidParameter
  else
    match csvDataRows m (datasize - 1) sbatVarColumns with
    | .error e => .error e
    | .ok rows =>
      match sizeRows sbatVarRequiredColumns sbatVarEntrySize rows 0 0 with
      | none => .error .invalidParameter
      | some (allocsz, n) =>
        let block := pool.address allocsz
        if block = 0 then .error .outOfResources
        else
          let entries := block + sbatVarEntrySize * n
          let filled := fillRows sbatVarEntrySize entries rows (zero heap block allocsz) block 0
            (entries + 8 * n)
          .ok ⟨filled.1, (List.range n).map fun i => block + sbatVarEntrySize * i, block, allocsz,
            filled.2⟩

/-! ## Sizes -/

/-- A row that the first pass lets through. -/
def RowOk (required : ℕ) (row : CsvRow) : Prop := required ≤ row.length ∧ ∀ c ∈ row, c ≠ []

instance (required : ℕ) : DecidablePred (RowOk required) :=
  fun _ => inferInstanceAs (Decidable (_ ∧ _))

/-- The bytes of the strings of a row. -/
def rowSize (row : CsvRow) : ℕ := (row.map fun c => c.length + 1).sum

/-- The bytes of the strings of all rows. -/
def stringsSize (rows : List CsvRow) : ℕ := (rows.map rowSize).sum

section Sizes

variable {required entrySize : ℕ} {row : CsvRow} {rows : List CsvRow} {c : List UInt8}

/-- A column takes its text and a NUL. -/
@[simp] theorem rowSize_cons : rowSize (c :: row) = c.length + 1 + rowSize row := by
  rw [rowSize, List.map_cons, List.sum_cons, rowSize]

/-- The strings of a first row. -/
@[simp] theorem stringsSize_cons : stringsSize (row :: rows) = rowSize row + stringsSize rows := by
  rw [stringsSize, List.map_cons, List.sum_cons, stringsSize]

/-- A row is sized if none of its columns is empty. -/
theorem sizeColumns_eq (row : CsvRow) (allocsz : ℕ) :
    sizeColumns row allocsz = if ∀ c ∈ row, c ≠ [] then some (allocsz + rowSize row) else none := by
  induction row generalizing allocsz with
  | nil => simp [sizeColumns, rowSize]
  | cons c row ih =>
    rw [sizeColumns]
    by_cases hc : c = []
    · simp [hc]
    · rw [if_neg hc, ih, rowSize_cons, Nat.add_assoc]
      simp [hc]

/-- The first pass lets the rows through that are complete, and adds up their pointers, entries and
strings. -/
theorem sizeRows_eq (rows : List CsvRow) (allocsz n : ℕ) :
    sizeRows required entrySize rows allocsz n =
      if ∀ row ∈ rows, RowOk required row then
        some (allocsz + (8 + entrySize) * rows.length + stringsSize rows, n + rows.length)
      else none := by
  induction rows generalizing allocsz n with
  | nil => simp [sizeRows, stringsSize]
  | cons row rows ih =>
    rw [sizeRows, sizeColumns_eq]
    by_cases hlen : row.length < required
    · have hbad : ¬ RowOk required row := fun h => absurd h.1 (by omega)
      simp [hlen, hbad]
    rw [if_neg hlen]
    by_cases hne : ∀ c ∈ row, c ≠ []
    · have hok : RowOk required row := ⟨by omega, hne⟩
      rw [if_pos hne]
      dsimp only
      rw [ih]
      simp only [List.forall_mem_cons, hok, true_and, List.length_cons, stringsSize_cons]
      congr 3
      · rw [Nat.mul_succ]
        omega
      · omega
    · have hbad : ¬ RowOk required row := fun h => hne h.2
      rw [if_neg hne]
      simp [hbad]

end Sizes

/-! ## The filled block -/

/-- The entry at `entry` has the texts of a row: a pointer into `[lo, hi)` for each column, where
the text is with its terminator, and NULL for the fields behind them. -/
def EntryAt (mem : ℕ → UInt8) (lo hi entry nFields : ℕ) (row : CsvRow) : Prop :=
  ∀ i < nFields, match row[i]? with
    | some c =>
      let p := readLe mem (entry + 8 * i) 8
      lo ≤ p ∧ p + c.length < hi ∧ HasString mem p c
    | none => readLe mem (entry + 8 * i) 8 = 0

/-- Where the second pass still has to write: the entries, the table and the strings of the rows
that are left do not overlap. -/
structure Laid (entrySize entries entry n strtab : ℕ) (rows : List CsvRow) : Prop where
  apart : entries + 8 * (n + rows.length) ≤ entry ∨
    entry + entrySize * rows.length ≤ entries + 8 * n
  entry_le : entry + entrySize * rows.length ≤ strtab
  table_le : entries + 8 * (n + rows.length) ≤ strtab
  fits : strtab + stringsSize rows ≤ 2 ^ 64

section Fill

variable {mem mem' : ℕ → UInt8} {lo hi lo' hi' entrySize entries entry n strtab nFields a : ℕ}
  {row : CsvRow} {rows : List CsvRow} {c : List UInt8}

/-- An entry depends on its own fields and strings only. -/
theorem EntryAt.congr (h : EntryAt mem lo hi entry nFields row)
    (hfields : ∀ a, entry ≤ a → a < entry + 8 * nFields → mem' a = mem a)
    (hstrings : ∀ a, lo ≤ a → a < hi → mem' a = mem a) :
    EntryAt mem' lo hi entry nFields row := by
  intro i hi'
  have hread : readLe mem' (entry + 8 * i) 8 = readLe mem (entry + 8 * i) 8 :=
    readLe_eq fun a ha ha' => hfields a (by omega) (by omega)
  have hentry := h i hi'
  split at hentry
  · obtain ⟨hlo, hhi, hstring⟩ := hentry
    dsimp only
    rw [hread]
    exact ⟨hlo, hhi, hstring.congr fun a ha ha' => hstrings a (by omega) (by omega)⟩
  · rw [hread]
    exact hentry

/-- Its strings lie in any larger stretch. -/
theorem EntryAt.mono (h : EntryAt mem lo hi entry nFields row) (hlo : lo' ≤ lo) (hhi : hi ≤ hi') :
    EntryAt mem lo' hi' entry nFields row := by
  intro i hi''
  have hentry := h i hi''
  split at hentry
  · obtain ⟨hlo', hhi', hstring⟩ := hentry
    exact ⟨by omega, by omega, hstring⟩
  · exact hentry

/-- The entries behind the first one lie behind it. -/
theorem Laid.tail (h : Laid entrySize entries entry n strtab (row :: rows)) :
    Laid entrySize entries (entry + entrySize) (n + 1) (strtab + rowSize row) rows := by
  have hfits := h.fits
  have hentry := h.entry_le
  have htable := h.table_le
  have hapart := h.apart
  simp only [List.length_cons, Nat.mul_succ, stringsSize_cons] at hfits hentry htable hapart
  exact ⟨by omega, by omega, by omega, by omega⟩

/-! A row. -/

/-- Filling in a row takes as much as its size. -/
theorem fillColumns_cursor (entry i : ℕ) (row : CsvRow) (mem : ℕ → UInt8) (strtab : ℕ) :
    (fillColumns entry i row mem strtab).2 = strtab + rowSize row := by
  induction row generalizing i mem strtab with
  | nil => rfl
  | cons c row ih =>
    rw [fillColumns, ih, rowSize_cons, stpcpy]
    omega

/-- A row is written to its fields and to its strings. -/
theorem fillColumns_frame (i : ℕ) (hentry : a < entry + 8 * i ∨ entry + 8 * (i + row.length) ≤ a)
    (hstrtab : a < strtab ∨ strtab + rowSize row ≤ a) :
    (fillColumns entry i row mem strtab).1 a = mem a := by
  induction row generalizing i mem strtab with
  | nil => rfl
  | cons c row ih =>
    rw [List.length_cons] at hentry
    rw [rowSize_cons] at hstrtab
    rw [fillColumns, ih (i + 1) (by omega) (by rw [stpcpy]; dsimp only; omega), stpcpy]
    dsimp only
    rw [storeString, fill_outside (by omega), storeLe, fill_outside (by omega)]

/-- The fields that a row fills. -/
theorem fillColumns_spec (mem : ℕ → UInt8) (i : ℕ) (hle : entry + 8 * (i + row.length) ≤ strtab)
    (hfits : strtab + rowSize row ≤ 2 ^ 64) (hnul : ∀ c ∈ row, 0 ∉ c) {j : ℕ}
    (hc : row[j]? = some c) :
    let mem' := (fillColumns entry i row mem strtab).1
    let p := readLe mem' (entry + 8 * (i + j)) 8
    strtab ≤ p ∧ p + c.length < strtab + rowSize row ∧ HasString mem' p c := by
  induction row generalizing i j mem strtab with
  | nil => cases hc
  | cons c' row ih =>
    intro mem'
    rw [List.length_cons] at hle
    rw [rowSize_cons] at hfits
    have hcons : mem' = (fillColumns entry (i + 1) row
        (storeString (storeLe mem (entry + 8 * i) 8 strtab) strtab c')
        (strtab + c'.length + 1)).1 := rfl
    cases j with
    | zero =>
      obtain rfl : c' = c := Option.some.inj hc
      -- the first column stays as it was written
      have hkeep : ∀ a, a < entry + 8 * (i + 1) ∨ strtab ≤ a ∧ a < strtab + c'.length + 1 →
          mem' a = storeString (storeLe mem (entry + 8 * i) 8 strtab) strtab c' a := fun a ha => by
        rw [hcons]
        exact fillColumns_frame (i + 1) (by omega) (by omega)
      have hfield : ∀ a, entry + 8 * i ≤ a → a < entry + 8 * i + 8 →
          mem' a = storeLe mem (entry + 8 * i) 8 strtab a := fun a _ ha => by
        rw [hkeep a (by omega), storeString, fill_outside (by omega)]
      have hread : readLe mem' (entry + 8 * (i + 0)) 8 = strtab := by
        rw [Nat.add_zero, readLe_eq hfield, readLe_storeLe (by omega)]
      intro p
      have hp : p = strtab := hread
      rw [hp, rowSize_cons]
      refine ⟨le_rfl, by omega, ?_⟩
      exact (hasString_storeString (hnul c' List.mem_cons_self)).congr
        fun a ha ha' => hkeep a (by omega)
    | succ j =>
      have hle' : entry + 8 * (i + 1 + row.length) ≤ strtab + c'.length + 1 := by omega
      have hrest := ih (storeString (storeLe mem (entry + 8 * i) 8 strtab) strtab c') (i + 1) hle'
        (by omega) (fun c hc => hnul c (List.mem_cons_of_mem c' hc)) hc
      rw [← hcons] at hrest
      dsimp only at hrest
      rw [show i + 1 + j = i + (j + 1) by omega] at hrest
      intro p
      rw [rowSize_cons]
      exact ⟨by omega, by omega, hrest.2.2⟩

/-! All rows. -/

/-- So does filling in all of them. -/
theorem fillRows_cursor (entrySize entries : ℕ) (rows : List CsvRow) (mem : ℕ → UInt8)
    (entry n strtab : ℕ) :
    (fillRows entrySize entries rows mem entry n strtab).2 = strtab + stringsSize rows := by
  induction rows generalizing mem entry n strtab with
  | nil => rfl
  | cons row rows ih =>
    rw [fillRows, ih, fillColumns_cursor, stringsSize_cons]
    omega

/-- The rows are written to their entries, their part of the table and their strings. -/
theorem fillRows_frame (hfields : ∀ row ∈ rows, 8 * row.length ≤ entrySize)
    (hentry : a < entry ∨ entry + entrySize * rows.length ≤ a)
    (htable : a < entries + 8 * n ∨ entries + 8 * (n + rows.length) ≤ a)
    (hstrtab : a < strtab ∨ strtab + stringsSize rows ≤ a) :
    (fillRows entrySize entries rows mem entry n strtab).1 a = mem a := by
  induction rows generalizing mem entry n strtab with
  | nil => rfl
  | cons row rows ih =>
    obtain ⟨hrow, hrows⟩ := List.forall_mem_cons.mp hfields
    simp only [List.length_cons, Nat.mul_succ, stringsSize_cons] at hentry htable hstrtab
    rw [fillRows, fillColumns_cursor, ih hrows (by omega) (by omega) (by omega), storeLe,
      fill_outside (by omega), fillColumns_frame 0 (by omega) (by omega)]

/-- Every row has its entry, in the order of the table. -/
theorem fillRows_spec (mem : ℕ → UInt8) (h : Laid entrySize entries entry n strtab rows)
    (hsize : 8 * nFields ≤ entrySize) (hpos : 0 < entrySize)
    (hfields : ∀ row ∈ rows, row.length ≤ nFields) (hnul : ∀ row ∈ rows, ∀ c ∈ row, 0 ∉ c)
    (hzero : ∀ a, entry ≤ a → a < entry + entrySize * rows.length → mem a = 0) {k : ℕ}
    (hk : rows[k]? = some row) :
    let mem' := (fillRows entrySize entries rows mem entry n strtab).1
    readLe mem' (entries + 8 * (n + k)) 8 = entry + entrySize * k ∧
      EntryAt mem' strtab (strtab + stringsSize rows) (entry + entrySize * k) nFields row := by
  induction rows generalizing k mem entry n strtab with
  | nil => cases hk
  | cons row' rows ih =>
    intro mem'
    have htail := h.tail
    have hentry := h.entry_le
    have htable := h.table_le
    have hapart := h.apart
    have hfits := h.fits
    obtain ⟨hrow, hrows⟩ := List.forall_mem_cons.mp hfields
    obtain ⟨hrownul, hrowsnul⟩ := List.forall_mem_cons.mp hnul
    simp only [List.length_cons, Nat.mul_succ, stringsSize_cons] at hentry htable hapart hfits hzero
    have hcons : mem' = (fillRows entrySize entries rows
        (storeLe (fillColumns entry 0 row' mem strtab).1 (entries + 8 * n) 8 entry)
        (entry + entrySize) (n + 1) (strtab + rowSize row')).1 := by
      rw [← fillColumns_cursor entry 0 row' mem strtab]
      rfl
    have hlen : ∀ row ∈ rows, 8 * row.length ≤ entrySize := fun row hr => by
      have := hrows row hr
      omega
    cases k with
    | zero =>
      obtain rfl : row' = row := Option.some.inj hk
      -- what the first row wrote stays, also under its slot of the table
      have hkeep : ∀ a, (entry ≤ a ∧ a < entry + entrySize) ∨
          (strtab ≤ a ∧ a < strtab + rowSize row') →
          mem' a = (fillColumns entry 0 row' mem strtab).1 a := fun a ha => by
        rw [hcons, fillRows_frame hlen (by omega) (by omega) (by omega), storeLe,
          fill_outside (by omega)]
      refine ⟨?_, ?_⟩
      · have hslot : ∀ a, entries + 8 * n ≤ a → a < entries + 8 * n + 8 → mem' a =
            storeLe (fillColumns entry 0 row' mem strtab).1 (entries + 8 * n) 8 entry a :=
          fun a _ _ => by rw [hcons, fillRows_frame hlen (by omega) (by omega) (by omega)]
        rw [Nat.mul_zero, Nat.add_zero, Nat.add_zero, readLe_eq hslot, readLe_storeLe (by omega)]
      · have hat : EntryAt (fillColumns entry 0 row' mem strtab).1 strtab
            (strtab + rowSize row') entry nFields row' := by
          intro i hi
          cases hc : row'[i]? with
          | some c =>
            have hle : entry + 8 * (0 + row'.length) ≤ strtab := by omega
            have hspec := fillColumns_spec mem 0 hle (by omega) hrownul hc
            rw [Nat.zero_add] at hspec
            exact hspec
          | none =>
            have hi' : row'.length ≤ i := List.getElem?_eq_none_iff.mp hc
            change readLe (fillColumns entry 0 row' mem strtab).1 (entry + 8 * i) 8 = 0
            refine readLe_zero fun a ha ha' => ?_
            rw [fillColumns_frame 0 (by omega) (by omega), hzero a (by omega) (by omega)]
        have hat' := hat.congr (fun a ha ha' => hkeep a (.inl ⟨ha, by omega⟩))
          fun a ha ha' => hkeep a (.inr ⟨ha, ha'⟩)
        rw [Nat.mul_zero, Nat.add_zero, stringsSize_cons]
        exact hat'.mono le_rfl (by omega)
    | succ k =>
      have hrest := ih (storeLe (fillColumns entry 0 row' mem strtab).1 (entries + 8 * n) 8 entry)
        htail hrows hrowsnul (fun a ha ha' => ?_) hk
      · rw [← hcons] at hrest
        obtain ⟨hread, hat⟩ := hrest
        rw [show n + 1 + k = n + (k + 1) by omega, show entry + entrySize + entrySize * k =
          entry + entrySize * (k + 1) by rw [Nat.mul_succ]; omega] at hread
        rw [show entry + entrySize + entrySize * k = entry + entrySize * (k + 1) by
          rw [Nat.mul_succ]; omega] at hat
        rw [stringsSize_cons]
        exact ⟨hread, hat.mono (by omega) (by omega)⟩
      · rw [storeLe, fill_outside (by omega), fillColumns_frame 0 (by omega) (by omega),
          hzero a (by omega) (by omega)]

end Fill

end Shim
