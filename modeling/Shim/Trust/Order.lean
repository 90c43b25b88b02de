import Shim.Trust.Unbundled

/-! # Revocations before certificates

What the two passes over the directory come to: the revocations are loaded in front of every
certificate file exactly where the first pass gets to them, and on a directory that can be read the
second pass loads each certificate file once. On a network boot they are not loaded at all.
-/

namespace Shim.Trust

variable {medium : Medium} {d : Directory} {files : FileName → Option Image} {compliant : Bool}
  {buffersize : ℕ} {entries : List (Option Entry)}

/-! ## The property -/

/-- `revocations.efi` is there. -/
def Medium.present (medium : Medium) : Prop :=
  match medium.directory with
  | none => True
  | some d => ∃ e : Entry, some e ∈ d.entries ∧ isRevocations e.name = true

/-- Every entry is read, with a buffer of this size for the first one. -/
def readsAll (compliant : Bool) : ℕ → List (Option Entry) → Bool
  | _, [] => true
  | buffersize, entry :: rest =>
    match readEntry compliant buffersize entry with
    | none => false
    | some e => readsAll compliant e.size rest

/-- A directory whose three opens and whose reads all succeed, with a driver that says how large a
buffer it wants or with one that does not. A second pass behind `REVOCATIONFILE` starts with the
buffer of that entry. -/
structure Directory.Readable (d : Directory) : Prop where
  openVolume : d.openVolume = true
  openDir : d.openDir = true
  reopenDir : d.reopenDir = true
  reads : readsAll d.compliant 0 d.entries = true
  readsAgain : ∀ e : Entry, some e ∈ d.entries → isRevocations e.name = true →
    readsAll d.compliant e.size d.entries = true

/-- The certificate files loaded, in order. -/
def certsLoaded (actions : List Action) : List FileName :=
  actions.filterMap fun a => match a with
    | .loadCert name _ => some name
    | _ => none

/-- The certificate files of a directory that verify, in order. -/
def certFiles (files : FileName → Option Image) (entries : List (Option Entry)) : List FileName :=
  (entries.filterMap fun entry => entry.map Entry.name).filter fun name =>
    isCertificate name && (files name).isSome

/-- In secure mode the SBAT level payload of a `revocations.efi` that is there and verifies is set
before any certificate file is loaded, and each of these is loaded once where they can be read. -/
structure RevocationsFirst (medium : Medium) (actions : List Action) : Prop where
  revocations : medium.present → ∀ image, medium.files revocationFile = some image →
    ∀ payload, sbatPayload image = some payload → ∃ front back,
      actions = front ++ .setSbat payload.1 payload.2 :: back ∧ certsLoaded front = []
  certificates : ∀ d, medium.directory = some d → d.Readable →
    certsLoaded actions = certFiles medium.files d.entries

/-! ## The second pass -/

/-- A certificate file sets no SBAT level. -/
theorem setSbat_not_mem_loadCertFile {name : FileName} {file : Option Image} {a l : ℕ} :
    Action.setSbat a l ∉ loadCertFile name file := by
  cases file <;> simp [loadCertFile]

/-- Neither does the second pass. -/
theorem setSbat_not_mem_certificatePass {a l : ℕ} :
    Action.setSbat a l ∉ certificatePass files compliant buffersize entries := by
  induction entries generalizing buffersize with
  | nil => simp [certificatePass]
  | cons entry rest ih =>
    unfold certificatePass
    split
    · simp
    · rw [List.mem_append, not_or]
      refine ⟨?_, ih⟩
      split
      · exact setSbat_not_mem_loadCertFile
      · simp

/-- The files loaded in two parts. -/
theorem certsLoaded_append (as bs : List Action) :
    certsLoaded (as ++ bs) = certsLoaded as ++ certsLoaded bs := List.filterMap_append

/-- A certificate file is loaded if it verifies. -/
theorem certsLoaded_loadCertFile (name : FileName) (file : Option Image) :
    certsLoaded (loadCertFile name file) = if file.isSome then [name] else [] := by
  cases file <;> rfl

/-- What the reads of a whole directory are one by one. -/
theorem readsAll_cons {entry : Option Entry}
    (h : readsAll compliant buffersize (entry :: entries) = true) :
    ∃ e, entry = some e ∧ readEntry compliant buffersize entry = some e ∧
      readsAll compliant e.size entries = true := by
  unfold readsAll at h
  cases hread : readEntry compliant buffersize entry with
  | none => simp [hread] at h
  | some e =>
    simp only [hread] at h
    have hentry : entry = some e := (Option.filter_eq_some_iff.mp hread).1
    exact ⟨e, hentry, rfl, h⟩

/-- Where the reads succeed, the second pass loads each certificate file once. -/
theorem certsLoaded_certificatePass (h : readsAll compliant buffersize entries = true) :
    certsLoaded (certificatePass files compliant buffersize entries) = certFiles files entries := by
  induction entries generalizing buffersize with
  | nil => rfl
  | cons entry rest ih =>
    obtain ⟨e, rfl, hread, hrest⟩ := readsAll_cons h
    unfold certificatePass
    rw [hread]
    dsimp only
    rw [certsLoaded_append, ih hrest]
    unfold certFiles
    simp only [List.filterMap_cons, Option.map_some]
    by_cases hcert : isCertificate e.name = true
    · rw [if_pos hcert, certsLoaded_loadCertFile]
      by_cases hfile : (files e.name).isSome = true
      · rw [if_pos hfile, List.filter_cons_of_pos (by simp [hcert, hfile])]
        rfl
      · rw [if_neg hfile, List.filter_cons_of_neg (by simp [hfile])]
        rfl
    · rw [if_neg hcert, List.filter_cons_of_neg (by simp [hcert])]
      rfl

/-! ## The first pass -/

/-- The first pass gets to an entry named `REVOCATIONFILE`. -/
def getsToRevocations (compliant : Bool) : ℕ → List (Option Entry) → Bool
  | _, [] => false
  | buffersize, entry :: rest =>
    match readEntry compliant buffersize entry with
    | none => false
    | some e => isRevocations e.name || getsToRevocations compliant e.size rest

/-- Nothing is done in front of the revocations. -/
theorem revocationPass_of_gets (h : getsToRevocations d.compliant buffersize entries = true) :
    ∃ back, revocationPass files d buffersize entries =
      loadRevocationsFile (files revocationFile) ++ back := by
  induction entries generalizing buffersize with
  | nil => cases h
  | cons entry rest ih =>
    unfold getsToRevocations at h
    unfold revocationPass
    cases hread : readEntry d.compliant buffersize entry with
    | none =>
      simp only [hread] at h
      cases h
    | some e =>
      simp only [hread] at h ⊢
      by_cases hname : isRevocations e.name = true
      · rw [if_pos hname]
        exact ⟨_, rfl⟩
      · rw [if_neg hname]
        exact ih (by simpa [hname] using h)

/-- A first pass that does not get to the revocations sets no SBAT level. -/
theorem gets_of_setSbat_mem {a l : ℕ}
    (h : Action.setSbat a l ∈ revocationPass files d buffersize entries) :
    getsToRevocations d.compliant buffersize entries = true := by
  induction entries generalizing buffersize with
  | nil =>
    unfold revocationPass at h
    split at h
    · exact absurd h setSbat_not_mem_certificatePass
    · simp at h
  | cons entry rest ih =>
    unfold revocationPass at h
    unfold getsToRevocations
    cases hread : readEntry d.compliant buffersize entry with
    | none => simp [hread] at h
    | some e =>
      simp only [hread] at h ⊢
      by_cases hname : isRevocations e.name = true
      · simp [hname]
      · rw [if_neg hname] at h
        simp [ih h]

/-- The revocations are no certificate file. -/
theorem certsLoaded_loadRevocationsFile (file : Option Image) :
    certsLoaded (loadRevocationsFile file) = [] := by
  unfold loadRevocationsFile
  cases file with
  | none => rfl
  | some image =>
    dsimp only
    rw [certsLoaded_append]
    unfold sspPayload
    cases sbatPayload image <;> dsimp only <;> split <;> rfl

/-- Where the reads succeed, both passes together load each certificate file once. -/
theorem certsLoaded_revocationPass (hd : d.Readable)
    (h : readsAll d.compliant buffersize entries = true) (hentries : entries ⊆ d.entries) :
    certsLoaded (revocationPass files d buffersize entries) = certFiles files d.entries := by
  induction entries generalizing buffersize with
  | nil =>
    unfold revocationPass
    rw [if_pos hd.reopenDir]
    exact certsLoaded_certificatePass hd.reads
  | cons entry rest ih =>
    obtain ⟨e, rfl, hread, hrest⟩ := readsAll_cons h
    unfold revocationPass
    rw [hread]
    dsimp only
    by_cases hname : isRevocations e.name = true
    · -- the entry at hand is no certificate file, and the second pass goes over all of them
      rw [if_pos hname, if_pos hd.reopenDir, not_isCertificate_of_isRevocations hname,
        certsLoaded_append, certsLoaded_loadRevocationsFile]
      exact certsLoaded_certificatePass
        (hd.readsAgain e (hentries List.mem_cons_self) hname)
    · rw [if_neg hname]
      exact ih hrest (List.subset_of_cons_subset hentries)

/-! ## Both -/

/-- In secure mode, where a `revocations.efi` with an SBAT level payload is there and verifies, the
medium is a volume whose directory opens and is read up to it. -/
def GetsRevocations (medium : Medium) : Prop :=
  medium.present → ∀ image, medium.files revocationFile = some image →
    (sbatPayload image).isSome = true → ∃ d, medium.directory = some d ∧ d.openVolume = true ∧
      d.openDir = true ∧ getsToRevocations d.compliant 0 d.entries = true

/-- Revocations come first exactly if the directory is read up to them. -/
theorem revocationsFirst_iff (hsecure : medium.secure = true) :
    RevocationsFirst medium (loadUnbundledTrust medium) ↔ GetsRevocations medium := by
  constructor
  · intro h hpresent image hfile hpayload
    obtain ⟨payload, hpayload⟩ := Option.isSome_iff_exists.mp hpayload
    obtain ⟨front, back, hactions, -⟩ := h.revocations hpresent image hfile payload hpayload
    -- the level was set, so the directory was read and had the file
    have hmem : Action.setSbat payload.1 payload.2 ∈ loadUnbundledTrust medium := by
      rw [hactions]
      simp
    unfold loadUnbundledTrust at hmem
    cases hd : medium.directory with
    | none =>
      rw [hd] at hmem
      exact absurd hmem setSbat_not_mem_loadCertFile
    | some d =>
      rw [hd] at hmem
      dsimp only at hmem
      split at hmem
      · rename_i hopen
        simp only [Bool.and_eq_true] at hopen
        exact ⟨d, rfl, hopen.1.1, hopen.1.2, gets_of_setSbat_mem hmem⟩
      · simp at hmem
  · intro h
    refine ⟨fun hpresent image hfile payload hpayload => ?_, fun d hd hreadable => ?_⟩
    · obtain ⟨d, hd, hvolume, hdir, hgets⟩ := h hpresent image hfile (by simp [hpayload])
      -- the pass over the revocations comes first
      obtain ⟨back, hback⟩ : ∃ back, revocationPass medium.files _ _ _ = _ ++ back :=
        revocationPass_of_gets hgets
      refine ⟨[], sspPayload image ++ back, ?_, rfl⟩
      unfold loadUnbundledTrust
      rw [hd]
      dsimp only
      rw [hvolume, hdir, hsecure]
      simp [hback, loadRevocationsFile, hfile, hpayload]
    · unfold loadUnbundledTrust
      rw [hd]
      dsimp only
      rw [hreadable.openVolume, hreadable.openDir, hsecure]
      exact certsLoaded_revocationPass hreadable hreadable.reads (List.Subset.refl _)

/-! ## A volume and a network -/

/-- A `revocations.efi` with its two SBAT levels. -/
def revocationsData : Region := .ofFields 0x10000 376
  [(0, [0x4d, 0x5a]), (60, [64]), (64, [0x50, 0x45]), (68, [0x64, 0x86]), (70, [2]), (84, [160]),
   (88, [0x0b, 0x02]), (144, [0x00, 0x30]), (148, [0x48, 0x01]), (196, [6]),
   (248, CText.ascii ".sbata"), (256, [24]), (260, [0x00, 0x10]), (264, [24]), (268, [0x48, 0x01]),
   (284, [0x40, 0x00, 0x00, 0x42]),
   (288, CText.ascii ".sbatl"), (296, [24]), (300, [0x00, 0x20]), (304, [24]), (308, [0x60, 0x01]),
   (324, [0x40, 0x00, 0x00, 0x42]),
   (328, CText.ascii "sbat,1,2023012900\nshim,2"), (352, CText.ascii "sbat,1,2024010900\nshim,4")]

/-- The file, as it is read and verified. -/
def revocationsImage : Image := ⟨revocationsData, contextAt revocationsData 64⟩

/-- A medium with this file and nothing else that verifies. -/
def revocationsMedium (directory : Option Directory) : Medium where
  files := fun name => if name = revocationFile then some revocationsImage else none
  secure := true
  directory := directory

/-- A directory that lists a certificate file in front of the revocations. -/
def revocationsDirectory : Directory where
  openVolume := true
  openDir := true
  reopenDir := true
  entries := [some ⟨text16 "shim_certificate_1.efi", 126, by decide⟩,
    some ⟨revocationFile, 112, by decide⟩]
  compliant := true

/-- A volume with both files. -/
theorem revocationsFirst_volume : RevocationsFirst (revocationsMedium (some revocationsDirectory))
    (loadUnbundledTrust (revocationsMedium (some revocationsDirectory))) :=
  (revocationsFirst_iff rfl).mpr fun _ _ _ _ =>
    ⟨revocationsDirectory, rfl, rfl, rfl, by decide +kernel⟩

/-- Over a network the payload is not passed on. -/
theorem not_revocationsFirst_network :
    readHeader platformX64 revocationsData = .ok revocationsImage.context ∧
      ¬ RevocationsFirst (revocationsMedium none) (loadUnbundledTrust (revocationsMedium none)) := by
  refine ⟨by decide +kernel, fun h => ?_⟩
  have hpayload : sbatPayload revocationsImage = some (328, 352) := by decide +kernel
  obtain ⟨front, back, hactions, -⟩ := h.revocations trivial revocationsImage rfl _ hpayload
  have hmem : Action.setSbat 328 352 ∈ loadUnbundledTrust (revocationsMedium none) := by
    rw [hactions]
    simp
  exact absurd hmem setSbat_not_mem_loadCertFile

end Shim.Trust
