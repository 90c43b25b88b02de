import Shim.Common.CText
import Shim.Sbat.Entries

/-! # SBAT verification

`verify_single_entry`, `verify_sbat_helper` (sbat.c) and `verify_sbat_section` (pe.c). The
generations are compared as `UINT16`, and each section entry is held against the first variable
entry of its component only.
-/

namespace Shim

open CText

/-- The digit loop of `AsciiStrDecimalToUintn`, `Result` so far in `acc`. -/
def decimalToUintn (acc : ℕ) : List UInt8 → ℕ
  | [] => acc
  | b :: s => if IsDigit b then decimalToUintn ((acc * 10 + digit b) % 2 ^ 64) s else acc

/-- `AsciiStrDecimalToUintn`, which `atoi` is: pad spaces, leading zeros, then digits. -/
def atoi (s : List UInt8) : ℕ :=
  decimalToUintn 0 ((s.dropWhile (fun b => b = 32 ∨ b = 9)).dropWhile (· = 48))

/-- The assignment of a number to a `UINT16`. -/
def uint16 (n : ℕ) : ℕ := n % 2 ^ 16

/-- `verify_single_entry`: the status and `*found`. -/
def verifySingleEntry (entry : SbatSectionEntry) (sbatVarEntry : SbatVarEntry) :
    EfiStatus × Bool :=
  if entry.componentName = sbatVarEntry.componentName then
    let sbatGen := uint16 (atoi entry.componentGeneration)
    let sbatVarGen := uint16 (atoi sbatVarEntry.componentGeneration)
    if sbatGen < sbatVarGen then (.securityViolation, true) else (.success, true)
  else (.success, false)

/-- The inner loop of `verify_sbat_helper`: it stops at an error and at the first match. -/
def verifyEntry (entry : SbatSectionEntry) : List SbatVarEntry → EfiStatus
  | [] => .success
  | v :: vs =>
    let r := verifySingleEntry entry v
    if r.1.isError then r.1 else if r.2 then r.1 else verifyEntry entry vs

/-- The outer loop of `verify_sbat_helper`. -/
def verifyEntries (localSbatVar : List SbatVarEntry) : List SbatSectionEntry → EfiStatus
  | [] => .success
  | e :: es =>
    let efiStatus := verifyEntry e localSbatVar
    if efiStatus.isError then efiStatus else verifyEntries localSbatVar es

/-- `verify_sbat_helper`. -/
def verifySbatHelper (localSbatVar : List SbatVarEntry) (entries : List SbatSectionEntry) :
    EfiStatus :=
  if localSbatVar.isEmpty then .success else verifyEntries localSbatVar entries

/-- `verify_sbat_section` (pe.c:341-401) over the global list `sbatVar`, with the allocation
succeeding; `none` is a section of no data. -/
def verifySbatSection (inProtocol : Bool) (sbatVar : List SbatVarEntry)
    (sbatBase : Option (List UInt8)) : EfiStatus :=
  if sbatVar.isEmpty then .success
  else
    match sbatBase with
    | none => if inProtocol then .success else .securityViolation
    | some data =>
      if data.isEmpty then if inProtocol then .success else .securityViolation
      else
        match parseSbatSection (data ++ [0]) (data.length + 1) with
        | .error e => e
        | .ok entries => verifySbatHelper sbatVar entries

/-! ## The decimal value `atoi` returns -/

/-- Digits are read as their number, if it fits. -/
theorem decimalToUintn_digits {l : List UInt8} (hl : ∀ b ∈ l, IsDigit b) (acc : ℕ)
    (h : acc * 10 ^ l.length + decimal l < 2 ^ 64) :
    decimalToUintn acc l = acc * 10 ^ l.length + decimal l := by
  induction l generalizing acc with
  | nil => simp [decimalToUintn]
  | cons b l ih =>
    have hb := hl b (by simp)
    have hval : acc * 10 ^ (b :: l).length + decimal (b :: l)
        = (acc * 10 + digit b) * 10 ^ l.length + decimal l := by
      rw [decimal_cons, List.length_cons, pow_succ]
      ring
    rw [hval] at h ⊢
    have hone : acc * 10 + digit b ≤ (acc * 10 + digit b) * 10 ^ l.length :=
      Nat.le_mul_of_pos_right _ (Nat.pow_pos (by decide))
    have hmod : (acc * 10 + digit b) % 2 ^ 64 = acc * 10 + digit b :=
      Nat.mod_eq_of_lt (by omega)
    rw [decimalToUintn, if_pos hb, hmod]
    exact ih (fun z hz => hl z (by simp [hz])) _ h

/-- Leading zeros count nothing. -/
theorem decimal_dropWhile_zero (l : List UInt8) : decimal (l.dropWhile (· = 48)) = decimal l := by
  induction l with
  | nil => rfl
  | cons b l ih =>
    by_cases hb : b = 48
    · subst hb
      rw [List.dropWhile_cons_of_pos (by simp), ih, decimal_cons]
      simp [digit]
    · rw [List.dropWhile_cons_of_neg (by simpa using hb)]

/-- On a string of digits that fits the type, `atoi` returns the number it denotes. -/
theorem atoi_digits {l : List UInt8} (hl : ∀ b ∈ l, IsDigit b) (h : decimal l < 2 ^ 64) :
    atoi l = decimal l := by
  have hspace : l.dropWhile (fun b => b = 32 ∨ b = 9) = l := by
    cases l with
    | nil => rfl
    | cons b l =>
      have hb := (hl b (by simp)).1
      refine List.dropWhile_cons_of_neg ?_
      have h32 : b ≠ 32 := by rintro rfl; exact absurd hb (by decide)
      have h9 : b ≠ 9 := by rintro rfl; exact absurd hb (by decide)
      simp [h32, h9]
  have hdrop : ∀ b ∈ l.dropWhile (· = 48), IsDigit b :=
    fun b hb => hl b ((List.dropWhile_sublist _).subset hb)
  rw [atoi, hspace, decimalToUintn_digits hdrop]
  · simp [decimal_dropWhile_zero]
  · simpa [decimal_dropWhile_zero] using h

/-! ## What the loops decide -/

/-- `v` is the first variable entry of `e`'s component, the one `e` is held against. -/
def FirstMatch (vs : List SbatVarEntry) (e : SbatSectionEntry) (v : SbatVarEntry) : Prop :=
  vs.find? (fun v => e.componentName = v.componentName) = some v

/-- `e` is behind its first match in the generations as `UINT16`. -/
def NarrowRevoked (vs : List SbatVarEntry) (e : SbatSectionEntry) : Prop :=
  ∃ v, FirstMatch vs e v ∧
    uint16 (atoi e.componentGeneration) < uint16 (atoi v.componentGeneration)

/-- Without entries nothing is revoked. -/
@[simp] theorem not_narrowRevoked_nil (e : SbatSectionEntry) : ¬ NarrowRevoked [] e := by
  rintro ⟨v, hv, -⟩
  simp [FirstMatch] at hv

/-- An entry of the same name decides. -/
theorem narrowRevoked_cons_of_eq {vs : List SbatVarEntry} {e : SbatSectionEntry}
    {v : SbatVarEntry} (h : e.componentName = v.componentName) :
    NarrowRevoked (v :: vs) e ↔
      uint16 (atoi e.componentGeneration) < uint16 (atoi v.componentGeneration) := by
  simp [NarrowRevoked, FirstMatch, h]

/-- An entry of another name is passed over. -/
theorem narrowRevoked_cons_of_ne {vs : List SbatVarEntry} {e : SbatSectionEntry}
    {v : SbatVarEntry} (h : e.componentName ≠ v.componentName) :
    NarrowRevoked (v :: vs) e ↔ NarrowRevoked vs e := by
  simp [NarrowRevoked, FirstMatch, h]

open Classical in
/-- The inner loop finds exactly the narrow revocations. -/
theorem verifyEntry_eq (vs : List SbatVarEntry) (e : SbatSectionEntry) :
    verifyEntry e vs = if NarrowRevoked vs e then .securityViolation else .success := by
  induction vs with
  | nil => simp [verifyEntry]
  | cons v vs ih =>
    by_cases hname : e.componentName = v.componentName
    · rw [verifyEntry, verifySingleEntry, if_pos hname, if_congr (narrowRevoked_cons_of_eq hname)
        rfl rfl]
      by_cases hlt : uint16 (atoi e.componentGeneration) < uint16 (atoi v.componentGeneration)
      · simp only [if_pos hlt]; rfl
      · simp only [if_neg hlt]; rfl
    · rw [verifyEntry, verifySingleEntry, if_neg hname, if_congr (narrowRevoked_cons_of_ne hname)
        rfl rfl]
      exact ih

open Classical in
/-- The outer loop reports whether some section entry is narrowly revoked. -/
theorem verifyEntries_eq (vs : List SbatVarEntry) (es : List SbatSectionEntry) :
    verifyEntries vs es =
      if ∃ e ∈ es, NarrowRevoked vs e then .securityViolation else .success := by
  induction es with
  | nil => simp [verifyEntries]
  | cons e es ih =>
    rw [verifyEntries, verifyEntry_eq, ih]
    by_cases h : NarrowRevoked vs e
    · simp [h, EfiStatus.isError]
    · simp [h]

open Classical in
/-- The helper refuses a component that is revoked, and nothing else. -/
theorem verifySbatHelper_eq (vs : List SbatVarEntry) (es : List SbatSectionEntry) :
    verifySbatHelper vs es =
      if ∃ e ∈ es, NarrowRevoked vs e then .securityViolation else .success := by
  unfold verifySbatHelper
  cases vs with
  | nil => simp
  | cons v vs => exact verifyEntries_eq (v :: vs) es

/-- `verify_sbat_helper` has two answers. -/
theorem verifySbatHelper_eq_violation_iff (vs : List SbatVarEntry) (es : List SbatSectionEntry) :
    verifySbatHelper vs es = .securityViolation ↔ ∃ e ∈ es, NarrowRevoked vs e := by
  classical
  rw [verifySbatHelper_eq]
  split <;> simp_all

/-- So it accepts what has no such component. -/
theorem verifySbatHelper_eq_success_iff (vs : List SbatVarEntry) (es : List SbatSectionEntry) :
    verifySbatHelper vs es = .success ↔ ¬ ∃ e ∈ es, NarrowRevoked vs e := by
  classical
  rw [verifySbatHelper_eq]
  split <;> simp_all

/-- What `verify_sbat_section` answers is success or an error. -/
theorem verifySbatSection_of_not_isError {inProtocol : Bool} {vs : List SbatVarEntry}
    {base : Option (List UInt8)} (h : ¬ (verifySbatSection inProtocol vs base).isError = true) :
    verifySbatSection inProtocol vs base = .success := by
  unfold verifySbatSection at h ⊢
  by_cases hvs : vs.isEmpty
  · rw [if_pos hvs]
  rw [if_neg hvs] at h ⊢
  cases base with
  | none => cases inProtocol <;> simp_all [EfiStatus.isError]
  | some data =>
    by_cases hdata : data.isEmpty
    · cases inProtocol <;> simp_all [EfiStatus.isError]
    simp only [hdata, if_false, Bool.false_eq_true] at h ⊢
    cases hparse : parseSbatSection (data ++ [0]) (data.length + 1) with
    | error e =>
      rw [hparse, show e = .invalidParameter from parseSbatRows_error hparse] at h
      exact absurd rfl h
    | ok entries =>
      rw [hparse] at h
      dsimp only at h ⊢
      rw [verifySbatHelper_eq_success_iff, ← verifySbatHelper_eq_violation_iff]
      intro hviolation
      rw [hviolation] at h
      exact h rfl

/-- Entries added behind a list revoke more, never less. -/
theorem NarrowRevoked.of_prefix {vs ws : List SbatVarEntry} {e : SbatSectionEntry}
    (hp : vs <+: ws) (h : NarrowRevoked vs e) : NarrowRevoked ws e := by
  obtain ⟨us, rfl⟩ := hp
  obtain ⟨v, hv, hlt⟩ := h
  refine ⟨v, ?_, hlt⟩
  rw [FirstMatch] at hv ⊢
  rw [List.find?_append, hv]
  rfl

/-- A section that passes against a list passes against every initial part of it. -/
theorem verifySbatSection_of_initial {inProtocol : Bool} {vs ws : List SbatVarEntry}
    {base : Option (List UInt8)} (hp : vs <+: ws)
    (h : verifySbatSection inProtocol ws base = .success) :
    verifySbatSection inProtocol vs base = .success := by
  unfold verifySbatSection at h ⊢
  by_cases hvs : vs.isEmpty
  · rw [if_pos hvs]
  · have hws : ¬ ws.isEmpty := by
      intro hws
      rw [List.isEmpty_iff] at hws hvs
      exact hvs (List.prefix_nil.mp (hws ▸ hp))
    rw [if_neg hws] at h
    rw [if_neg hvs]
    cases base with
    | none => exact h
    | some data =>
      by_cases hdata : data.isEmpty
      · simpa only [hdata, if_true] using h
      · simp only [hdata, if_false, Bool.false_eq_true] at h ⊢
        cases hparse : parseSbatSection (data ++ [0]) (data.length + 1) with
        | error e => rwa [hparse] at h
        | ok entries =>
          simp only [hparse, verifySbatHelper_eq_success_iff] at h ⊢
          rintro ⟨e, he, hrev⟩
          exact h ⟨e, he, hrev.of_prefix hp⟩

/-! ## Exactness -/

/-- A generation number: decimal digits whose value fits an `int`. -/
def DecimalGeneration (s : List UInt8) : Prop :=
  s ≠ [] ∧ (∀ b ∈ s, IsDigit b) ∧ decimal s < 2 ^ 31

instance (s : List UInt8) : Decidable (DecimalGeneration s) :=
  inferInstanceAs (Decidable (_ ∧ _))

/-- A generation is read as its number. -/
theorem DecimalGeneration.atoi_eq {s : List UInt8} (h : DecimalGeneration s) :
    atoi s = decimal s :=
  atoi_digits h.2.1 (by have := h.2.2; omega)

/-- The revocation rule of SBAT.md: some component of the section is behind a variable entry of
its name. -/
def Revoked (vs : List SbatVarEntry) (es : List SbatSectionEntry) : Prop :=
  ∃ e ∈ es, ∃ v ∈ vs, e.componentName = v.componentName ∧
    decimal e.componentGeneration < decimal v.componentGeneration

/-- Some component of the section is behind the first variable entry of its name, in the low
sixteen bits of the generations. -/
def FirstMatchRevoked (vs : List SbatVarEntry) (es : List SbatSectionEntry) : Prop :=
  ∃ e ∈ es, ∃ v, FirstMatch vs e v ∧
    decimal e.componentGeneration % 2 ^ 16 < decimal v.componentGeneration % 2 ^ 16

/-- `verify_sbat_helper` answers a violation for the revoked sections and success otherwise. -/
def RevocationExact (vs : List SbatVarEntry) (es : List SbatSectionEntry) : Prop :=
  (verifySbatHelper vs es = .securityViolation ↔ Revoked vs es) ∧
    (¬ Revoked vs es → verifySbatHelper vs es = .success)

/-- The first match is one of the entries. -/
theorem FirstMatch.mem {vs : List SbatVarEntry} {e : SbatSectionEntry} {v : SbatVarEntry}
    (h : FirstMatch vs e v) : v ∈ vs :=
  List.mem_of_find?_eq_some h

/-- It has the name of the component. -/
theorem FirstMatch.name_eq {vs : List SbatVarEntry} {e : SbatSectionEntry} {v : SbatVarEntry}
    (h : FirstMatch vs e v) : e.componentName = v.componentName := by
  simpa using List.find?_some h

/-- On decimal generations the helper decides the low-bits comparison with the first match. -/
theorem verifySbatHelper_eq_violation_iff_firstMatch {vs : List SbatVarEntry}
    {es : List SbatSectionEntry} (hes : ∀ e ∈ es, DecimalGeneration e.componentGeneration)
    (hvs : ∀ v ∈ vs, DecimalGeneration v.componentGeneration) :
    verifySbatHelper vs es = .securityViolation ↔ FirstMatchRevoked vs es := by
  rw [verifySbatHelper_eq_violation_iff]
  refine exists_congr fun e => and_congr_right fun he => exists_congr fun v =>
    and_congr_right fun hv => ?_
  rw [(hes e he).atoi_eq, (hvs v hv.mem).atoi_eq]
  rfl

/-- The helper is exact if and only if looking at first matches and low bits makes no difference
to whether the section is revoked. -/
theorem revocationExact_iff {vs : List SbatVarEntry} {es : List SbatSectionEntry}
    (hes : ∀ e ∈ es, DecimalGeneration e.componentGeneration)
    (hvs : ∀ v ∈ vs, DecimalGeneration v.componentGeneration) :
    RevocationExact vs es ↔ (FirstMatchRevoked vs es ↔ Revoked vs es) := by
  have hviolation := verifySbatHelper_eq_violation_iff_firstMatch hes hvs
  constructor
  · rintro ⟨h, -⟩
    exact hviolation.symm.trans h
  · intro h
    have hexact := hviolation.trans h
    refine ⟨hexact, fun hnot => ?_⟩
    rw [verifySbatHelper_eq_success_iff, ← verifySbatHelper_eq_violation_iff]
    exact fun hv => hnot (hexact.mp hv)

/-- The narrowing takes as much from the generation of a section entry as from that of the first
variable entry of its component; and no variable entry behind that one asks for more, unless the
section entry has it. -/
structure ComparedAlike (vs : List SbatVarEntry) (e : SbatSectionEntry) : Prop where
  sameBlock : ∀ v, FirstMatch vs e v →
    decimal e.componentGeneration / 2 ^ 16 = decimal v.componentGeneration / 2 ^ 16
  noneBehind : ∀ v, FirstMatch vs e v → ∀ w ∈ vs, w.componentName = v.componentName →
    decimal w.componentGeneration ≤ max (decimal v.componentGeneration)
      (decimal e.componentGeneration)

/-- On section entries that are all compared alike, the first match in its low bits decides. -/
theorem firstMatchRevoked_iff_revoked {vs : List SbatVarEntry} {es : List SbatSectionEntry}
    (h : ∀ e ∈ es, ComparedAlike vs e) : FirstMatchRevoked vs es ↔ Revoked vs es := by
  constructor
  · rintro ⟨e, he, v, hv, hlt⟩
    have hblock := (h e he).sameBlock v hv
    exact ⟨e, he, v, hv.mem, hv.name_eq, by omega⟩
  · rintro ⟨e, he, w, hw, hname, hlt⟩
    obtain ⟨v, hv⟩ : ∃ v, FirstMatch vs e v :=
      Option.isSome_iff_exists.mp (List.find?_isSome.mpr ⟨w, hw, by simpa using hname⟩)
    have hblock := (h e he).sameBlock v hv
    have hle := (h e he).noneBehind v hv w hw (hname.symm.trans hv.name_eq)
    exact ⟨e, he, v, hv, by omega⟩

/-- A section entry of the given component and generation. -/
def sectionEntry (component generation : String) : SbatSectionEntry :=
  ⟨ascii component, ascii generation, ascii "UEFI", ascii component, ascii "1", ascii "https://u"⟩

/-- A variable entry of the given component and generation. -/
def varEntry (component generation : String) : SbatVarEntry :=
  ⟨ascii component, ascii generation, none⟩

/-- Two components, one of them listed twice. -/
def twoComponents : List SbatVarEntry :=
  [varEntry "shim" "4", varEntry "grub" "65539", varEntry "shim" "2"]

end Shim
