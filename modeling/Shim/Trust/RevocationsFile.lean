import Shim.Sbat.Level
import Shim.Trust.Unbundled

/-! # The payloads of a revocations file

`load_revocations_file` (shim.c:1520-1588) on a file that was verified, with its status. The six
payloads are sections of a name and a minimum size each. `check_section` sets a pointer before it
looks at the size, so a section that it reports as too short still displaces an earlier one.
-/

namespace Shim.Trust

/-! ## The code -/

/-- The payloads that are looked for. -/
inductive Payload
  | sbata
  | sbatl
  | sspva
  | sspsa
  | sspvl
  | sspsl
  deriving DecidableEq

namespace Payload

/-- `section_name`. -/
def name : Payload → List UInt8
  | sbata => CText.ascii ".sbata" ++ [0, 0]
  | sbatl => CText.ascii ".sbatl" ++ [0, 0]
  | sspva => CText.ascii ".sspva" ++ [0, 0]
  | sspsa => CText.ascii ".sspsa" ++ [0, 0]
  | sspvl => CText.ascii ".sspvl" ++ [0, 0]
  | sspsl => CText.ascii ".sspsl" ++ [0, 0]

/-- `minsize`: `sizeof(SBAT_VAR_ORIGINAL)`, `SSPVER_SIZE` or `SSPSIG_SIZE`. -/
def minsize : Payload → ℕ
  | sbata | sbatl => sbatVarOriginal.bytes.length + 1
  | sspva | sspvl => 8
  | sspsa | sspsl => 131

/-- The payloads that are strings. -/
def isText : Payload → Bool
  | sbata | sbatl => true
  | _ => false

def all : List Payload := [sbata, sbatl, sspva, sspsa, sspvl, sspsl]

end Payload

/-- The call of `set_sbat_uefi_variable` for six pointers, if there is one. -/
def sbatCall (pointer : Payload → Option ℕ) : Option Action :=
  match pointer .sbata, pointer .sbatl with
  | some automatic, some latest => some (.setSbat automatic latest)
  | _, _ => none

/-- The call of `set_ssp_uefi_variable`. -/
def sspCall (pointer : Payload → Option ℕ) : Option Action :=
  if ((pointer .sspva).isSome && (pointer .sspsa).isSome) ||
      ((pointer .sspvl).isSome && (pointer .sspsl).isSome) then
    some (.setSsp (pointer .sspva) (pointer .sspsa) (pointer .sspvl) (pointer .sspsl))
  else none

/-- What `load_revocations_file` does, and its status. -/
structure RevocationsRun where
  actions : List Action
  status : EfiStatus

/-- `load_revocations_file`, with what reading and verifying `revocations.efi` answers and what the
two calls do. The status of a call is that of the ones before it no more. -/
def loadRevocations (call : Action → EfiStatus) : Except EfiStatus Image → RevocationsRun
  | .error e => ⟨[], e⟩
  | .ok image =>
    ⟨loadRevocationsFile (some image),
      (loadRevocationsFile (some image)).foldl (fun _ action => call action) .success⟩

/-! ## What is expected -/

section Expected

variable (image : Image)

/-- Where a section starts, if that is in the file. -/
def startOf (s : SectionHeader) : Option ℕ :=
  imageAddress image.data.base (intSize image.data.size) s.pointerToRawData

/-- The start of the last section of a payload in a section table. -/
def lastStart (sections : List SectionHeader) (k : Payload) : Option ℕ :=
  (sections.filter fun s => s.name = k.name).getLast?.bind (startOf image)

/-- The section is too short for a payload of its name. -/
def rejected (s : SectionHeader) : Bool :=
  Payload.all.any fun k => s.name = k.name && s.sizeOfRawData < k.minsize

/-- The section table without the sections that are too short. -/
def longEnough : List SectionHeader :=
  (sectionHeaders image.data image.context).filter fun s => !rejected s

/-- At `p` starts a section of the payload that is large enough, ends in the file, and has a NUL in
it where it is a string. -/
structure ValidPayload (k : Payload) (p : ℕ) : Prop where
  exists_section : ∃ s ∈ sectionHeaders image.data image.context, s.name = k.name ∧
    startOf image s = some p ∧ k.minsize ≤ s.sizeOfRawData ∧
    p + s.sizeOfRawData ≤ image.data.size ∧
    (k.isText = true → ∃ i < s.sizeOfRawData, image.data.byte (p + i) = 0)

/-- All pointers of a call are to valid payloads. -/
def Action.Valid : Action → Prop
  | .setSbat automatic latest =>
    ValidPayload image .sbata automatic ∧ ValidPayload image .sbatl latest
  | .setSsp versionAutomatic policyAutomatic versionLatest policyLatest =>
    (∀ p, versionAutomatic = some p → ValidPayload image .sspva p) ∧
      (∀ p, policyAutomatic = some p → ValidPayload image .sspsa p) ∧
      (∀ p, versionLatest = some p → ValidPayload image .sspvl p) ∧
      (∀ p, policyLatest = some p → ValidPayload image .sspsl p)
  | .loadCert _ _ => True

/-- Payloads are used only when valid: the pointers of the calls are to valid payloads; the calls
are those of a table without the sections that are too short; and where the SBAT update fails, so
does the function. -/
structure UsesValidPayloads (call : Action → EfiStatus) : Prop where
  valid : ∀ action ∈ (loadRevocations call (.ok image)).actions, action.Valid image
  absent : (loadRevocations call (.ok image)).actions =
    (sbatCall (lastStart image (longEnough image))).toList ++
      (sspCall (lastStart image (longEnough image))).toList
  status : ∀ automatic latest,
    .setSbat automatic latest ∈ (loadRevocations call (.ok image)).actions →
      (call (.setSbat automatic latest)).isError = true →
        (loadRevocations call (.ok image)).status.isError = true

/-! ## When it is met -/

/-- The two SBAT levels are there. -/
def HasSbat (pointer : Payload → Option ℕ) : Prop :=
  (pointer .sbata).isSome ∧ (pointer .sbatl).isSome

/-- A SkuSiPolicy is there, with its version. -/
def HasSsp (pointer : Payload → Option ℕ) : Prop :=
  (pointer .sspva).isSome ∧ (pointer .sspsa).isSome ∨
    (pointer .sspvl).isSome ∧ (pointer .sspsl).isSome

/-- The last section of the payload is not too short, or starts where the last one that is not does;
and where it starts, there is a valid payload. -/
structure PayloadFits (k : Payload) : Prop where
  last : lastStart image (sectionHeaders image.data image.context) k =
    lastStart image (longEnough image) k
  valid : ∀ p, lastStart image (sectionHeaders image.data image.context) k = some p →
    ValidPayload image k p

/-- The payloads fit wherever they are used, or would be without the sections that are too
short; and no update of the SkuSiPolicy that succeeds follows one of SBAT that fails. -/
structure PayloadsFit (call : Action → EfiStatus) : Prop where
  sbat : HasSbat (lastStart image (sectionHeaders image.data image.context)) ∨
    HasSbat (lastStart image (longEnough image)) →
      PayloadFits image .sbata ∧ PayloadFits image .sbatl
  ssp : HasSsp (lastStart image (sectionHeaders image.data image.context)) ∨
    HasSsp (lastStart image (longEnough image)) →
      PayloadFits image .sspva ∧ PayloadFits image .sspsa ∧
        PayloadFits image .sspvl ∧ PayloadFits image .sspsl
  status : ∀ sbat ssp,
    sbatCall (lastStart image (sectionHeaders image.data image.context)) = some sbat →
    sspCall (lastStart image (sectionHeaders image.data image.context)) = some ssp →
      (call sbat).isError = true → (call ssp).isError = true

end Expected

/-! ## The pointers -/

section Pointers

variable {image : Image} {f g : Payload → Option ℕ}

/-- A pointer that each section of a name sets is that of the last one. -/
theorem foldl_eq_getLast? (sections : List SectionHeader) (name : List UInt8)
    (start : SectionHeader → Option ℕ) :
    sections.foldl (fun pointer s => if s.name = name then start s else pointer) none =
      (sections.filter fun s => s.name = name).getLast?.bind start := by
  induction sections using List.reverseRecOn with
  | nil => rfl
  | append_singleton sections s ih =>
    rw [List.foldl_append, List.foldl_cons, List.foldl_nil, ih, List.filter_append]
    by_cases hname : s.name = name
    · rw [if_pos hname, List.filter_cons_of_pos (by simpa using hname), List.filter_nil,
        List.getLast?_concat, Option.bind_some]
    · rw [if_neg hname, List.filter_cons_of_neg (by simpa using hname), List.filter_nil,
        List.append_nil]

/-- The section that counts is the last one of its name. -/
theorem checkSection_name (image : Image) (k : Payload) :
    checkSection image k.name = lastStart image (sectionHeaders image.data image.context) k :=
  foldl_eq_getLast? _ _ _

/-- What is set: the SBAT level, and then the policy. -/
theorem loadRevocationsFile_eq (image : Image) :
    loadRevocationsFile (some image) =
      (sbatCall (lastStart image (sectionHeaders image.data image.context))).toList ++
        (sspCall (lastStart image (sectionHeaders image.data image.context))).toList := by
  have hsbat : ((sbatPayload image).elim [] fun payload => [.setSbat payload.1 payload.2]) =
      (sbatCall fun k => checkSection image k.name).toList := by
    unfold sbatPayload sbatCall
    dsimp only [Payload.name]
    cases checkSection image (CText.ascii ".sbata" ++ [0, 0]) with
    | none => rfl
    | some automatic =>
      cases checkSection image (CText.ascii ".sbatl" ++ [0, 0]) with
      | none => rfl
      | some latest => rfl
  have hssp : sspPayload image = (sspCall fun k => checkSection image k.name).toList := by
    rw [sspCall, apply_ite Option.toList]
    rfl
  rw [loadRevocationsFile, hsbat, hssp]
  simp only [checkSection_name]

/-! ## The calls -/

/-- The level is set if both of its sections are there. -/
theorem sbatCall_eq_some {action : Action} : sbatCall f = some action ↔
    ∃ automatic latest, f .sbata = some automatic ∧ f .sbatl = some latest ∧
      action = .setSbat automatic latest := by
  unfold sbatCall
  constructor
  · intro h
    split at h
    · exact ⟨_, _, ‹_›, ‹_›, (Option.some.inj h).symm⟩
    · cases h
  · rintro ⟨automatic, latest, hautomatic, hlatest, rfl⟩
    rw [hautomatic, hlatest]

/-- The policy is set if a version and its signers are there. -/
theorem sspCall_of_hasSsp (h : HasSsp f) :
    sspCall f = some (.setSsp (f .sspva) (f .sspsa) (f .sspvl) (f .sspsl)) :=
  if_pos (by simpa [HasSsp] using h)

/-- Otherwise it is not. -/
theorem sspCall_of_not_hasSsp (h : ¬ HasSsp f) : sspCall f = none :=
  if_neg (by simpa [HasSsp] using h)

/-- Without both sections no level is set. -/
theorem sbatCall_of_not_hasSbat (h : ¬ HasSbat f) : sbatCall f = none := by
  rw [Option.eq_none_iff_forall_ne_some]
  intro action haction
  obtain ⟨automatic, latest, hautomatic, hlatest, -⟩ := sbatCall_eq_some.mp haction
  exact h ⟨by rw [hautomatic]; rfl, by rw [hlatest]; rfl⟩

/-- With them the level is set. -/
theorem HasSbat.exists_sbatCall (h : HasSbat f) :
    ∃ automatic latest, f .sbata = some automatic ∧ f .sbatl = some latest ∧
      sbatCall f = some (.setSbat automatic latest) := by
  obtain ⟨automatic, hautomatic⟩ := Option.isSome_iff_exists.mp h.1
  obtain ⟨latest, hlatest⟩ := Option.isSome_iff_exists.mp h.2
  exact ⟨automatic, latest, hautomatic, hlatest,
    sbatCall_eq_some.mpr ⟨_, _, hautomatic, hlatest, rfl⟩⟩

/-- Two sets of pointers make the same SBAT call if they agree where they make one. -/
theorem sbatCall_eq_iff : sbatCall f = sbatCall g ↔
    (HasSbat f ∨ HasSbat g → f .sbata = g .sbata ∧ f .sbatl = g .sbatl) := by
  constructor
  · rintro h (hf | hg)
    · obtain ⟨automatic, latest, hautomatic, hlatest, hcall⟩ := hf.exists_sbatCall
      obtain ⟨_, _, hautomatic', hlatest', heq⟩ := sbatCall_eq_some.mp (h ▸ hcall)
      cases heq
      exact ⟨hautomatic.trans hautomatic'.symm, hlatest.trans hlatest'.symm⟩
    · obtain ⟨automatic, latest, hautomatic, hlatest, hcall⟩ := hg.exists_sbatCall
      obtain ⟨_, _, hautomatic', hlatest', heq⟩ := sbatCall_eq_some.mp (h ▸ hcall)
      cases heq
      exact ⟨hautomatic'.trans hautomatic.symm, hlatest'.trans hlatest.symm⟩
  · intro h
    by_cases hhas : HasSbat f ∨ HasSbat g
    · obtain ⟨hautomatic, hlatest⟩ := h hhas
      rw [sbatCall, hautomatic, hlatest, ← sbatCall]
    · obtain ⟨hf, hg⟩ := not_or.mp hhas
      rw [sbatCall_of_not_hasSbat hf, sbatCall_of_not_hasSbat hg]

/-- Two sets of pointers make the same SkuSiPolicy call if they agree where they make one. -/
theorem sspCall_eq_iff : sspCall f = sspCall g ↔
    (HasSsp f ∨ HasSsp g → f .sspva = g .sspva ∧ f .sspsa = g .sspsa ∧
      f .sspvl = g .sspvl ∧ f .sspsl = g .sspsl) := by
  constructor
  · intro h hhas
    by_cases hf : HasSsp f
    · by_cases hg : HasSsp g
      · rw [sspCall_of_hasSsp hf, sspCall_of_hasSsp hg] at h
        simpa using h
      · rw [sspCall_of_hasSsp hf, sspCall_of_not_hasSsp hg] at h
        cases h
    · rw [sspCall_of_not_hasSsp hf, sspCall_of_hasSsp (hhas.resolve_left hf)] at h
      cases h
  · intro h
    by_cases hhas : HasSsp f ∨ HasSsp g
    · obtain ⟨hsspva, hsspsa, hsspvl, hsspsl⟩ := h hhas
      rw [sspCall, hsspva, hsspsa, hsspvl, hsspsl, ← sspCall]
    · obtain ⟨hf, hg⟩ := not_or.mp hhas
      rw [sspCall_of_not_hasSsp hf, sspCall_of_not_hasSsp hg]

/-- Both calls are known from the list of them. -/
theorem eq_of_toList_append
    (h : (sbatCall f).toList ++ (sspCall f).toList = (sbatCall g).toList ++ (sspCall g).toList) :
    sbatCall f = sbatCall g ∧ sspCall f = sspCall g := by
  have hsbat : ∀ h : Payload → Option ℕ, ((sbatCall h).toList ++ (sspCall h).toList).find?
      (fun | .setSbat _ _ => true | _ => false) = sbatCall h := by
    intro h
    unfold sbatCall sspCall
    split <;> split <;> rfl
  have hssp : ∀ h : Payload → Option ℕ, ((sbatCall h).toList ++ (sspCall h).toList).find?
      (fun | .setSsp _ _ _ _ => true | _ => false) = sspCall h := by
    intro h
    unfold sbatCall sspCall
    split <;> split <;> rfl
  refine ⟨?_, ?_⟩
  · rw [← hsbat f, h, hsbat g]
  · rw [← hssp f, h, hssp g]

/-- The calls for pointers are valid if those that are passed are. -/
theorem forall_valid_iff : (∀ action ∈ (sbatCall f).toList ++ (sspCall f).toList,
    action.Valid image) ↔
      (HasSbat f → ∀ k ∈ [Payload.sbata, .sbatl], ∀ p, f k = some p → ValidPayload image k p) ∧
      (HasSsp f → ∀ k ∈ [Payload.sspva, .sspsa, .sspvl, .sspsl], ∀ p, f k = some p →
        ValidPayload image k p) := by
  simp only [List.mem_append, or_imp, forall_and, Option.mem_toList]
  refine and_congr ?_ ?_
  · by_cases hf : HasSbat f
    · obtain ⟨automatic, latest, hautomatic, hlatest, hcall⟩ := hf.exists_sbatCall
      simp [hf, hcall, hautomatic, hlatest, Action.Valid]
    · rw [sbatCall_of_not_hasSbat hf]
      exact iff_of_true (fun _ h => nomatch h) fun h => absurd h hf
  · by_cases hf : HasSsp f
    · simp [hf, sspCall_of_hasSsp hf, Action.Valid]
    · rw [sspCall_of_not_hasSsp hf]
      exact iff_of_true (fun _ h => nomatch h) fun h => absurd h hf

/-- The status is that of the last call. -/
theorem foldl_status (call : Action → EfiStatus) (a b : Option Action) :
    (a.toList ++ b.toList).foldl (fun _ action => call action) .success =
      (b <|> a).elim .success call := by
  cases a <;> cases b <;> rfl

end Pointers

/-! ## The result -/

/-- Payloads are used only when valid exactly if those that are used fit. -/
theorem usesValidPayloads_iff (image : Image) (call : Action → EfiStatus) :
    UsesValidPayloads image call ↔ PayloadsFit image call := by
  -- `f` are the sections the code takes, `g` those that are long enough
  obtain ⟨f, hf⟩ : ∃ f, lastStart image (sectionHeaders image.data image.context) = f := ⟨_, rfl⟩
  obtain ⟨g, hg⟩ : ∃ g, lastStart image (longEnough image) = g := ⟨_, rfl⟩
  have hactions : (loadRevocations call (.ok image)).actions =
      (sbatCall f).toList ++ (sspCall f).toList := by
    rw [← hf]
    exact loadRevocationsFile_eq image
  have hstatus : (loadRevocations call (.ok image)).status =
      (sspCall f <|> sbatCall f).elim .success call := by
    rw [← foldl_status, ← hactions]
    rfl
  have hfits : ∀ k, PayloadFits image k ↔
      f k = g k ∧ ∀ p, f k = some p → ValidPayload image k p := by
    intro k
    rw [← hf, ← hg]
    exact ⟨fun h => ⟨h.1, h.2⟩, fun h => ⟨h.1, h.2⟩⟩
  constructor
  · rintro ⟨hvalid, habsent, herror⟩
    rw [hactions, forall_valid_iff] at hvalid
    rw [hactions, hg] at habsent
    obtain ⟨hsbat, hssp⟩ := eq_of_toList_append habsent
    rw [sbatCall_eq_iff] at hsbat
    rw [sspCall_eq_iff] at hssp
    refine ⟨fun hhas => ?_, fun hhas => ?_, fun sbat ssp hcall hcall' hfailed => ?_⟩
    · rw [hf, hg] at hhas
      obtain ⟨hsbata, hsbatl⟩ := hsbat hhas
      have hused : HasSbat f := hhas.elim id fun h => by rwa [HasSbat, hsbata, hsbatl]
      have hpointers := hvalid.1 hused
      exact ⟨(hfits _).mpr ⟨hsbata, hpointers _ (by simp)⟩,
        (hfits _).mpr ⟨hsbatl, hpointers _ (by simp)⟩⟩
    · rw [hf, hg] at hhas
      obtain ⟨hsspva, hsspsa, hsspvl, hsspsl⟩ := hssp hhas
      have hused : HasSsp f :=
        hhas.elim id fun h => by rwa [HasSsp, hsspva, hsspsa, hsspvl, hsspsl]
      have hpointers := hvalid.2 hused
      exact ⟨(hfits _).mpr ⟨hsspva, hpointers _ (by simp)⟩,
        (hfits _).mpr ⟨hsspsa, hpointers _ (by simp)⟩,
        (hfits _).mpr ⟨hsspvl, hpointers _ (by simp)⟩,
        (hfits _).mpr ⟨hsspsl, hpointers _ (by simp)⟩⟩
    · rw [hf] at hcall hcall'
      obtain ⟨automatic, latest, -, -, rfl⟩ := sbatCall_eq_some.mp hcall
      have hfails := herror automatic latest (by simp [hactions, hcall]) hfailed
      rw [hstatus, hcall'] at hfails
      exact hfails
  · rintro ⟨hsbat, hssp, hfails⟩
    rw [hf, hg] at hsbat hssp
    rw [hf] at hfails
    -- the same sections are taken either way
    have hsame : sbatCall f = sbatCall g ∧ sspCall f = sspCall g := by
      rw [sbatCall_eq_iff, sspCall_eq_iff]
      refine ⟨fun hhas => ?_, fun hhas => ?_⟩
      · obtain ⟨hsbata, hsbatl⟩ := hsbat hhas
        exact ⟨((hfits _).mp hsbata).1, ((hfits _).mp hsbatl).1⟩
      · obtain ⟨hsspva, hsspsa, hsspvl, hsspsl⟩ := hssp hhas
        exact ⟨((hfits _).mp hsspva).1, ((hfits _).mp hsspsa).1, ((hfits _).mp hsspvl).1,
          ((hfits _).mp hsspsl).1⟩
    refine ⟨?_, ?_, fun automatic latest hmem hfailed => ?_⟩
    · rw [hactions, forall_valid_iff]
      refine ⟨fun hhas => ?_, fun hhas => ?_⟩
      · obtain ⟨hsbata, hsbatl⟩ := hsbat (.inl hhas)
        simpa using ⟨((hfits _).mp hsbata).2, ((hfits _).mp hsbatl).2⟩
      · obtain ⟨hsspva, hsspsa, hsspvl, hsspsl⟩ := hssp (.inl hhas)
        simpa using ⟨((hfits _).mp hsspva).2, ((hfits _).mp hsspsa).2, ((hfits _).mp hsspvl).2,
          ((hfits _).mp hsspsl).2⟩
    · rw [hactions, hsame.1, hsame.2, hg]
    · rw [hactions, List.mem_append, Option.mem_toList, Option.mem_toList] at hmem
      have hcall : sbatCall f = some (.setSbat automatic latest) := by
        refine hmem.resolve_right fun h => ?_
        unfold sspCall at h
        split at h <;> cases h
      rw [hstatus]
      cases hcall' : sspCall f with
      | none =>
        rw [hcall]
        exact hfailed
      | some ssp => exact hfails _ _ hcall hcall' hfailed

/-! ## A file with two automatic levels -/

/-- A `revocations.efi` whose last section is a second `.sbata`, of one byte. -/
def shortLevelData : Region := .ofFields 0x10000 417
  [(0, [0x4d, 0x5a]), (60, [64]), (64, [0x50, 0x45]), (68, [0x64, 0x86]), (70, [3]), (84, [160]),
   (88, [0x0b, 0x02]), (144, [0x00, 0x40]), (148, [0x70, 0x01]), (196, [6]),
   (248, CText.ascii ".sbata"), (256, [24]), (260, [0x00, 0x10]), (264, [24]), (268, [0x70, 0x01]),
   (284, [0x40, 0x00, 0x00, 0x42]),
   (288, CText.ascii ".sbatl"), (296, [24]), (300, [0x00, 0x20]), (304, [24]), (308, [0x88, 0x01]),
   (324, [0x40, 0x00, 0x00, 0x42]),
   (328, CText.ascii ".sbata"), (336, [1]), (340, [0x00, 0x30]), (344, [1]), (348, [0xa0, 0x01]),
   (364, [0x40, 0x00, 0x00, 0x42]),
   (368, CText.ascii "sbat,1,2023012900\nshim"), (392, CText.ascii "sbat,1,2024010900\nshim"),
   (416, CText.ascii "s")]

/-- The file, as it is read and verified. -/
def shortLevelImage : Image := ⟨shortLevelData, contextAt shortLevelData 64⟩

/-- The short section is rejected, and used. -/
theorem not_usesValidPayloads_shortLevel :
    readHeader platformX64 shortLevelData = .ok shortLevelImage.context ∧
      ¬ UsesValidPayloads shortLevelImage fun _ => .success := by
  refine ⟨by decide +kernel, fun h => ?_⟩
  have hactions : loadRevocationsFile (some shortLevelImage) = [.setSbat 416 392] := by
    decide +kernel
  have hvalid := h.valid (.setSbat 416 392) (by
    change _ ∈ loadRevocationsFile (some shortLevelImage)
    rw [hactions]
    exact List.mem_singleton_self _)
  obtain ⟨s, hs, -, hstart, hlong, -⟩ := hvalid.1.exists_section
  have hshort : ∀ s ∈ sectionHeaders shortLevelImage.data shortLevelImage.context,
      startOf shortLevelImage s = some 416 → s.sizeOfRawData < Payload.sbata.minsize := by
    decide +kernel
  exact absurd hlong (not_le.mpr (hshort s hs hstart))

end Shim.Trust
