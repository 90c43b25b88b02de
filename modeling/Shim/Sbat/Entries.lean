import Shim.Sbat.Csv

/-! # SBAT entries

`parse_sbat_section` and `parse_sbat_var_data` (sbat.c): the rows of a CSV text, turned into
section and variable entries. A row is refused when it has too few columns or an empty one.
-/

namespace Shim

open Bytes

/-- `struct sbat_section_entry`. -/
structure SbatSectionEntry where
  componentName : List UInt8
  componentGeneration : List UInt8
  vendorName : List UInt8
  vendorPackageName : List UInt8
  vendorVersion : List UInt8
  vendorUrl : List UInt8
  deriving DecidableEq, Repr

/-- `struct sbat_var_entry`; only the "sbat" version entry carries a datestamp. -/
structure SbatVarEntry where
  componentName : List UInt8
  componentGeneration : List UInt8
  sbatDatestamp : Option (List UInt8)
  deriving DecidableEq, Repr

/-- `SBAT_SECTION_COLUMNS`. -/
def sbatSectionColumns : ℕ := 6

/-- `SBAT_VAR_COLUMNS`. -/
def sbatVarColumns : ℕ := 3

/-- `SBAT_VAR_REQUIRED_COLUMNS`. -/
def sbatVarRequiredColumns : ℕ := sbatVarColumns - 1

/-- The row check both parsers make: enough columns, none of them empty. -/
def rowAccepted (m : Mem) (required : ℕ) (row : List ℕ) : Bool :=
  required ≤ row.length && row.all fun p => peek m p ≠ 0

/-- The text of column `i`, empty when the row has no such column. -/
def columnText (m : Mem) (row : List ℕ) (i : ℕ) : List UInt8 :=
  (row[i]?.map (cstr m)).getD []

/-- The section entry a row fills. -/
def sbatSectionEntry (m : Mem) (row : List ℕ) : SbatSectionEntry where
  componentName := columnText m row 0
  componentGeneration := columnText m row 1
  vendorName := columnText m row 2
  vendorPackageName := columnText m row 3
  vendorVersion := columnText m row 4
  vendorUrl := columnText m row 5

/-- The variable entry a row fills. -/
def sbatVarEntry (m : Mem) (row : List ℕ) : SbatVarEntry where
  componentName := columnText m row 0
  componentGeneration := columnText m row 1
  sbatDatestamp := row[2]?.map (cstr m)

/-- The part the two parsers share: parse `size` bytes of `m`, the last of which is meant to be the
terminator, check every row, build the entries. -/
def parseSbatRows {α : Type} (entry : Mem → List ℕ → α) (columns required : ℕ) (m : Mem)
    (size : ℕ) : Except EfiStatus (List α) :=
  if size = 0 then .error .invalidParameter
  else
    match parseCsvData m (size - 1) columns with
    | .error e => .error e
    | .ok (m, rows) =>
      if rows.all (rowAccepted m required) then .ok (rows.map (entry m))
      else .error .invalidParameter

/-- `parse_sbat_section`. -/
def parseSbatSection (m : Mem) (sectionSize : ℕ) : Except EfiStatus (List SbatSectionEntry) :=
  parseSbatRows sbatSectionEntry sbatSectionColumns sbatSectionColumns m sectionSize

/-- `parse_sbat_var_data`; the caller's list is replaced only when the parse succeeds. -/
def parseSbatVarData (m : Mem) (datasize : ℕ) : Except EfiStatus (List SbatVarEntry) :=
  parseSbatRows sbatVarEntry sbatVarColumns sbatVarRequiredColumns m datasize

/-- What a successful parse went through. -/
theorem parseSbatRows_ok {α : Type} {entry : Mem → List ℕ → α} {columns required size : ℕ}
    {m : Mem} {entries : List α}
    (h : parseSbatRows entry columns required m size = .ok entries) :
    ∃ m' rows, parseCsvData m (size - 1) columns = .ok (m', rows) ∧
      rows.all (rowAccepted m' required) = true ∧ entries = rows.map (entry m') := by
  unfold parseSbatRows at h
  by_cases hsize : size = 0
  · rw [if_pos hsize] at h
    cases h
  · rw [if_neg hsize] at h
    cases hdata : parseCsvData m (size - 1) columns with
    | error e =>
      rw [hdata] at h
      cases h
    | ok r =>
      obtain ⟨m', rows⟩ := r
      rw [hdata] at h
      by_cases hall : rows.all (rowAccepted m' required) = true
      · simp only [hall, if_true, Except.ok.injEq] at h
        exact ⟨m', rows, rfl, hall, h.symm⟩
      · simp only [hall] at h
        cases h

/-- A parse that accepts every row returns the entries of the rows. -/
theorem parseSbatRows_eq {α : Type} (entry : Mem → List ℕ → α) {columns required size : ℕ}
    {m m' : Mem} {rows : List (List ℕ)} (hsize : size ≠ 0)
    (hdata : parseCsvData m (size - 1) columns = .ok (m', rows)) :
    parseSbatRows entry columns required m size =
      if rows.all (rowAccepted m' required) then .ok (rows.map (entry m'))
      else .error .invalidParameter := by
  rw [parseSbatRows, if_neg hsize, hdata]

/-- A parse fails in one way. -/
theorem parseSbatRows_error {α : Type} {entry : Mem → List ℕ → α} {columns required size : ℕ}
    {m : Mem} {e : EfiStatus} (h : parseSbatRows entry columns required m size = .error e) :
    e = .invalidParameter := by
  unfold parseSbatRows at h
  split_ifs at h
  · exact (Except.error.inj h).symm
  · cases hdata : parseCsvData m (size - 1) columns with
    | error e' =>
      rw [hdata] at h
      unfold parseCsvData at hdata
      split_ifs at hdata
      cases hdata
      exact (Except.error.inj h).symm
    | ok r =>
      obtain ⟨m', rows⟩ := r
      rw [hdata] at h
      dsimp only at h
      split_ifs at h
      exact (Except.error.inj h).symm

end Shim
