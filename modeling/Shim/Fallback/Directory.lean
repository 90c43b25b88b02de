import Shim.Fallback.BootCsv
import Shim.Fallback.BootOption
import Shim.Trust.Unbundled

/-! # The directories of the EFI system partition

`find_boot_options` (fallback.c) reads `\EFI`, and `find_boot_csv` each directory in it, for the boot
file of the architecture or the general one. Directories are read entry by entry, and each read may
fail. What is looked for is found wherever it is listed.
-/

namespace Shim

open BootCsv (StanzaCall Stanza tryBootCsv parseLine bootLines CompleteLine)
open Trust (text16 strCaseEq)

/-! ## What there is to read -/

/-- What the two `Read` calls for a directory entry give. -/
inductive DirRead (α : Type)
  | entry (x : α)
  | refused (e : EfiError)
  | noMemory

/-- What `Open` answers: a handle, or an error, or no handle in spite of a success. -/
inductive OpenAnswer
  | opened
  | nullHandle
  | refused (e : EfiError)

/-- A file of a vendor's directory, and what opening and reading it gives. -/
structure DirFile where
  name : List UInt16
  openFile : OpenAnswer
  content : Except EfiError (List UInt16)

/-- What the two `GetInfo` calls of `find_boot_csv` find out. -/
inductive InfoAnswer
  | refused (e : EfiError)
  | empty
  | noMemory
  | found (isDirectory : Bool)

/-- An entry of `\EFI`. -/
structure VendorDir where
  name : List UInt16
  isDirectory : Bool
  openDir : Fault
  info : InfoAnswer
  reads : List (DirRead DirFile)

/-- The volume: what `find_boot_options` returns if it does not come to reading, or the entries of
`\EFI`. -/
structure EfiVolume where
  unopened : Option EfiStatus
  reads : List (DirRead VendorDir)

/-! ## The code -/

/-- `read_file`, on what it reads. -/
def DirFile.readFile (f : DirFile) : Except EfiStatus (List UInt16) :=
  match f.content with
  | .error e => .error e.1
  | .ok text => if 1024 * 4096 < 2 * text.length then .error .badBufferSize else .ok text

/-- `try_boot_csv`, with the calls for its lines; `none` where a line is not worked on in its
buffer. -/
def DirFile.tryBootCsv (f : DirFile) : Option (EfiStatus × List StanzaCall) :=
  match f.readFile with
  | .error e => some (e, [])
  | .ok text => (BootCsv.tryBootCsv text).map fun stanzas =>
      (.success, stanzas.filterMap Stanza.call)

/-- A boot file is opened and worked on. -/
def DirFile.process (f : DirFile) : Option (EfiStatus × List StanzaCall) :=
  match f.openFile with
  | .refused e => some (e.1, [])
  | .nullHandle => some (.success, [])
  | .opened => f.tryBootCsv

/-- The name `boot.csv`, or that with the architecture in it. -/
def csvName (arch : List UInt16) : List UInt16 := text16 "boot" ++ arch ++ text16 ".csv"

/-- The loop over a vendor's directory: `bootcsv` and `bootarchcsv`. -/
def scanCsv (arch : List UInt16) :
    List (DirRead DirFile) → Option DirFile → Option DirFile →
      Except EfiStatus (Option DirFile × Option DirFile)
  | [], bootcsv, bootarchcsv => .ok (bootcsv, bootarchcsv)
  | .refused e :: _, _, _ => .error e.1
  | .noMemory :: _, _, _ => .error .outOfResources
  | .entry f :: reads, bootcsv, bootarchcsv =>
    let bootcsv := if bootcsv.isNone && strCaseEq f.name (csvName []) then some f else bootcsv
    let bootarchcsv :=
      if bootarchcsv.isNone && strCaseEq f.name (csvName arch) then some f else bootarchcsv
    scanCsv arch reads bootcsv bootarchcsv

/-- What `find_boot_csv` does with the files it has found. -/
def processCsv (bootcsv bootarchcsv : Option DirFile) : Option (EfiStatus × List StanzaCall) :=
  match bootarchcsv with
  | none =>
    match bootcsv with
    | none => some (.success, [])
    | some f => f.process.map fun r => (.success, r.2)
  | some f =>
    f.process.bind fun r =>
      match r.1.isError, bootcsv with
      | true, some f' => f'.process.map fun r' => (.success, r.2 ++ r'.2)
      | _, _ => some (.success, r.2)

/-- `find_boot_csv`. -/
def findBootCsv (arch : List UInt16) (d : VendorDir) : Option (EfiStatus × List StanzaCall) :=
  match d.info with
  | .refused e => some (e.1, [])
  | .empty => some (.success, [])
  | .noMemory => some (.outOfResources, [])
  | .found false => some (.success, [])
  | .found true =>
    match scanCsv arch d.reads none none with
    | .error e => some (e, [])
    | .ok (bootcsv, bootarchcsv) => processCsv bootcsv bootarchcsv

/-- A text that ends at its NUL has none in it. -/
theorem zero_notMem_takeWhile (text : List UInt16) (n : ℕ) :
    0 ∉ (text.takeWhile (· ≠ 0)).take n := by
  intro h
  simpa using List.mem_takeWhile_imp (List.mem_of_mem_take h)

/-- A field is cut to its size. -/
theorem length_take_lt (text : List UInt16) :
    ((text.takeWhile (· ≠ 0)).take (2 ^ 21 - 1)).length < 2 ^ 21 := by
  rw [List.length_take]
  omega

/-- A text as a field; the fields of a file that is read are texts of this kind. -/
def csvField (text : List UInt16) : CsvField :=
  ⟨(text.takeWhile (· ≠ 0)).take (2 ^ 21 - 1), zero_notMem_takeWhile text _, length_take_lt text⟩

/-- The arguments of `add_to_boot_list` for a line. -/
def bootEntry (dirname : List UInt16) (call : StanzaCall) : BootEntry :=
  ⟨dirname, call.file, csvField call.label, csvField call.arguments⟩

/-- A directory that is passed by. -/
def VendorDir.skipped (d : VendorDir) : Bool :=
  !d.isDirectory || d.name = text16 "." || d.name = text16 ".." || strCaseEq d.name (text16 "BOOT")

/-- The loop over `\EFI`: the status at its end, and the calls of `add_to_boot_list`. -/
def readVendors (arch : List UInt16) : List (DirRead VendorDir) → Option (EfiStatus × List BootEntry)
  | [] => some (.success, [])
  | .refused e :: _ => some (e.1, [])
  | .noMemory :: _ => some (.outOfResources, [])
  | .entry d :: reads =>
    if d.skipped || d.openDir.isSome then readVendors arch reads
    else
      (findBootCsv arch d).bind fun r =>
        if r.1 = .outOfResources then some (.outOfResources, r.2.map (bootEntry d.name))
        else (readVendors arch reads).map fun rest => (rest.1, r.2.map (bootEntry d.name) ++ rest.2)

/-- `find_boot_options`, up to `update_boot_order`. -/
def bootEntries (arch : List UInt16) (volume : EfiVolume) : Option (EfiStatus × List BootEntry) :=
  match volume.unopened with
  | some efiStatus => some (efiStatus, [])
  | none => readVendors arch volume.reads

/-! ## What is found -/

section Scan

variable {arch : List UInt16} {files files' : List DirFile} {f : DirFile}

/-- The first file of a name. -/
def fileNamed (name : List UInt16) (files : List DirFile) : Option DirFile :=
  files.find? fun f => strCaseEq f.name name

/-- Where every read gives an entry, the loop finds the first file of each name. -/
theorem scanCsv_entries (arch : List UInt16) (files : List DirFile)
    (bootcsv bootarchcsv : Option DirFile) :
    scanCsv arch (files.map .entry) bootcsv bootarchcsv =
      .ok (bootcsv.or (fileNamed (csvName []) files), bootarchcsv.or (fileNamed (csvName arch) files)) := by
  have hpick : ∀ (found : Option DirFile) (name : List UInt16) (f : DirFile) (rest : List DirFile),
      (if found.isNone && strCaseEq f.name name then some f else found).or (fileNamed name rest) =
        found.or (fileNamed name (f :: rest)) := by
    intro found name f rest
    cases found with
    | some g => rfl
    | none =>
      unfold fileNamed
      rw [List.find?_cons]
      cases strCaseEq f.name name <;> simp
  induction files generalizing bootcsv bootarchcsv with
  | nil => simp [scanCsv, fileNamed]
  | cons f files ih =>
    rw [List.map_cons, scanCsv, ih, hpick, hpick]

/-- The names differ in more than the case of their letters. -/
def UniqueNames (files : List DirFile) : Prop :=
  files.Pairwise fun f g => strCaseEq f.name g.name = false

/-- With names that are unique, a file is found by its name in any order. -/
theorem fileNamed_eq_some {name : List UInt16} (h : UniqueNames files) :
    fileNamed name files = some f ↔ f ∈ files ∧ strCaseEq f.name name = true := by
  constructor
  · intro hfind
    unfold fileNamed at hfind
    exact ⟨List.mem_of_find?_eq_some hfind, by simpa using List.find?_some hfind⟩
  · rintro ⟨hmem, hname⟩
    induction files with
    | nil => cases hmem
    | cons g files ih =>
      obtain ⟨hg, hrest⟩ := List.pairwise_cons.mp h
      unfold fileNamed
      rw [List.find?_cons]
      rcases List.mem_cons.mp hmem with rfl | hmem
      · rw [hname]
      · have hdiffer : strCaseEq g.name name = false := by
          have hgf := hg f hmem
          simp only [strCaseEq, decide_eq_true_eq, decide_eq_false_iff_not] at hname hgf ⊢
          rwa [← hname]
        rw [hdiffer]
        exact ih hrest hmem

/-- A file is found wherever it is listed. -/
theorem fileNamed_perm (h : UniqueNames files) (hperm : files'.Perm files) (name : List UInt16) :
    fileNamed name files' = fileNamed name files := by
  have hsymm : ∀ f g : DirFile, strCaseEq f.name g.name = false →
      strCaseEq g.name f.name = false := by
    intro f g hfg
    simpa [strCaseEq, eq_comm] using hfg
  have h' : UniqueNames files' := (hperm.pairwise_iff fun {f g} => hsymm f g).mpr h
  refine Option.ext fun f => ?_
  rw [fileNamed_eq_some h', fileNamed_eq_some h, hperm.mem_iff]

end Scan

/-! ## What is added -/

section Lines

open BootCsv (isBreak RunIndependent holdsText_getD holdsText_cons csvLoop_rest)

variable {text line : List UInt16} {call : StanzaCall}

/-- Where each line is complete, what is added of a file are its lines. -/
theorem tryBootCsv_calls (h : ∀ line ∈ bootLines text, CompleteLine line) :
    ∃ stanzas, BootCsv.tryBootCsv text = some stanzas ∧
      stanzas.filterMap Stanza.call = (bootLines text).filterMap parseLine := by
  have hrun : RunIndependent (BootCsv.tryBootCsv text) (bootLines text) := by
    by_cases hmark : text.head? = some 0xfeff
    · obtain ⟨rest, rfl⟩ := List.head?_eq_some_iff.mp hmark
      have hrest := holdsText_cons.mp (holdsText_getD (0xfeff :: rest))
      have hlen : 1 + rest.length = (0xfeff :: rest : List UInt16).length := Nat.add_comm 1 _
      rw [bootLines, BootCsv.stripMark, if_pos hmark] at h ⊢
      exact (csvLoop_rest (0xfeff :: rest) hrest.2 hlen).mpr h
    · rw [bootLines, BootCsv.stripMark, if_neg hmark] at h ⊢
      rw [BootCsv.tryBootCsv_noMark text hmark]
      exact (csvLoop_rest text (holdsText_getD text) (Nat.zero_add _)).mpr h
  obtain ⟨stanzas, htry, -, hcalls⟩ := hrun
  exact ⟨stanzas, htry, hcalls⟩

/-- The fields of a line that is added are shorter than the line, and have no NULs. -/
theorem length_parseLine (h : parseLine line = some call) :
    call.label.length < line.length ∧ call.arguments.length < line.length ∧
      (∀ c ∈ call.label, c ∈ line) ∧ ∀ c ∈ call.arguments, c ∈ line := by
  unfold parseLine at h
  have hsum := Lines.sum_fields_le BootCsv.comma 3 line
  have hmem : ∀ field ∈ Lines.fields BootCsv.comma 3 line, ∀ c ∈ field, c ∈ line :=
    fun _ hfield _ hc => Lines.mem_of_mem_fields hfield hc
  split at h
  · next file label rest hfields =>
    split_ifs at h with hempty
    obtain rfl := Option.some.inj h
    rw [hfields] at hsum hmem
    have hfile : file.length ≠ 0 := by simpa using fun hnil => hempty (.inl hnil)
    refine ⟨?_, ?_, hmem label (by simp), ?_⟩
    · simp at hsum ⊢
      omega
    · cases rest with
      | nil =>
        simp at hsum ⊢
        omega
      | cons arguments rest =>
        simp at hsum ⊢
        omega
    · cases rest with
      | nil => exact fun c hc => absurd hc List.not_mem_nil
      | cons arguments rest => exact hmem arguments (by simp)
  · cases h

/-- A text that is a field already is not changed. -/
theorem csvField_text (hnul : 0 ∉ text) (hlen : text.length < 2 ^ 21) :
    (csvField text).text = text := by
  have hall : text.takeWhile (fun c => decide (c ≠ 0)) = text :=
    List.takeWhile_eq_self_iff.mpr fun c hc => by simpa using ne_of_mem_of_not_mem hc hnul
  unfold csvField
  dsimp only
  rw [hall, List.take_of_length_le (by omega)]

/-- The texts of an entry. -/
def BootEntry.texts (x : BootEntry) : List (List UInt16) :=
  [x.dirname, x.filename, x.label.text, x.arguments.text]

/-- A line of a file that is read makes an entry of just its fields. -/
theorem texts_bootEntry (dirname : List UInt16) (hfits : 2 * text.length ≤ 1024 * 4096)
    (hline : line ∈ bootLines text) (hcall : parseLine line = some call) :
    (bootEntry dirname call).texts = [dirname, call.file, call.label, call.arguments] := by
  obtain ⟨hlabel, harguments, hlabelMem, hargumentsMem⟩ := length_parseLine hcall
  obtain ⟨hsub, hnul⟩ := Lines.sublist_of_mem_lines hline
  have hlen : line.length ≤ text.length := by
    refine hsub.length_le.trans ?_
    unfold BootCsv.stripMark
    split_ifs
    · exact (List.tail_sublist text).length_le
    · exact Nat.le_refl _
  unfold BootEntry.texts bootEntry
  dsimp only
  rw [csvField_text (fun h => hnul (hlabelMem 0 h)) (by omega),
    csvField_text (fun h => hnul (hargumentsMem 0 h)) (by omega)]

end Lines

/-! ## A volume without faults -/

/-- An entry of `\EFI` that can be read, with the names and texts of its files. -/
structure PlainDir where
  name : List UInt16
  isDirectory : Bool
  files : List (List UInt16 × List UInt16)

/-- The files as they are found. -/
def PlainDir.dirFiles (d : PlainDir) : List DirFile :=
  d.files.map fun f => ⟨f.1, .opened, .ok f.2⟩

/-- The directory as it is read. -/
def PlainDir.answers (d : PlainDir) : VendorDir where
  name := d.name
  isDirectory := d.isDirectory
  openDir := none
  info := .found true
  reads := d.dirFiles.map .entry

/-- The volume as it is read. -/
def plainVolume (dirs : List PlainDir) : EfiVolume := ⟨none, dirs.map fun d => .entry d.answers⟩

/-- The text of a file, unless it is too large. -/
def DirFile.text (f : DirFile) : Option (List UInt16) := f.readFile.toOption

/-- The boot file that counts: that of the architecture, if there is one that is not too large, and
the general one otherwise. -/
def PlainDir.bootText (arch : List UInt16) (d : PlainDir) : Option (List UInt16) :=
  ((fileNamed (csvName arch) d.dirFiles).bind DirFile.text).or
    ((fileNamed (csvName []) d.dirFiles).bind DirFile.text)

/-- The lines of the boot file that counts, with the name of the directory. -/
def PlainDir.entries (arch : List UInt16) (d : PlainDir) : List (List (List UInt16)) :=
  match d.bootText arch with
  | none => []
  | some text => ((bootLines text).filterMap parseLine).map fun call =>
      [d.name, call.file, call.label, call.arguments]

/-- Each line of the boot file that counts is complete. -/
def PlainDir.Complete (arch : List UInt16) (d : PlainDir) : Prop :=
  ∀ text, d.bootText arch = some text → ∀ line ∈ bootLines text, CompleteLine line

/-- The files of a directory, each name once, in another order. -/
structure SameFiles (d' d : PlainDir) : Prop where
  name : d'.name = d.name
  isDirectory : d'.isDirectory = d.isDirectory
  files : d'.files.Perm d.files
  unique : UniqueNames d.dirFiles

section Plain

variable {arch : List UInt16} {d d' : PlainDir} {dirs dirs' : List PlainDir}

/-- The boot file does not depend on the order of the files. -/
theorem SameFiles.bootText (h : SameFiles d' d) : d'.bootText arch = d.bootText arch := by
  have hperm : d'.dirFiles.Perm d.dirFiles := h.files.map _
  unfold PlainDir.bootText
  rw [fileNamed_perm h.unique hperm, fileNamed_perm h.unique hperm]

/-- Neither do the entries of the directory. -/
theorem SameFiles.entries (h : SameFiles d' d) : d'.entries arch = d.entries arch := by
  unfold PlainDir.entries
  rw [h.bootText, h.name]

/-- Nor whether all of it can be read. -/
theorem SameFiles.complete (h : SameFiles d' d) (hd : d.Complete arch) : d'.Complete arch := by
  unfold PlainDir.Complete
  rwa [h.bootText]

/-- What a file comes to that can be opened. -/
theorem process_of_text {f : DirFile} {text : List UInt16} (hopen : f.openFile = .opened)
    (htext : f.text = some text) (hlines : ∀ line ∈ bootLines text, CompleteLine line) :
    f.process = some (.success, (bootLines text).filterMap parseLine) := by
  obtain ⟨stanzas, htry, hcalls⟩ := tryBootCsv_calls hlines
  have hread : f.readFile = .ok text := by
    unfold DirFile.text at htext
    cases hread : f.readFile with
    | error e => simp [hread, Except.toOption] at htext
    | ok text' => simpa [hread, Except.toOption] using htext
  simp [DirFile.process, hopen, DirFile.tryBootCsv, hread, htry, hcalls]

/-- A file that cannot be read gives an error and no entries. -/
theorem process_of_none {f : DirFile} (hopen : f.openFile = .opened) (htext : f.text = none) :
    ∃ e : EfiStatus, f.process = some (e, []) ∧ e.isError = true := by
  unfold DirFile.text at htext
  cases hread : f.readFile with
  | ok text => simp [hread, Except.toOption] at htext
  | error e =>
    refine ⟨e, by simp [DirFile.process, hopen, DirFile.tryBootCsv, hread], ?_⟩
    unfold DirFile.readFile at hread
    split at hread
    · next e' _ =>
      rw [← Except.error.inj hread]
      exact e'.2
    · split_ifs at hread
      rw [← Except.error.inj hread]
      rfl

/-- A file that is found by its name is one that opened. -/
theorem opened_of_fileNamed {name : List UInt16} {f : DirFile}
    (h : fileNamed name d.dirFiles = some f) : f.openFile = .opened := by
  obtain ⟨g, -, rfl⟩ := List.mem_map.mp (List.mem_of_find?_eq_some h)
  rfl

/-- A text that counts is not too large. -/
theorem length_of_bootText {text : List UInt16} (h : d.bootText arch = some text) :
    2 * text.length ≤ 1024 * 4096 := by
  have hfits : ∀ {f : DirFile}, f.text = some text → 2 * text.length ≤ 1024 * 4096 := by
    intro f htext
    unfold DirFile.text DirFile.readFile at htext
    split at htext
    · cases htext
    · split_ifs at htext with hsize
      · cases htext
      · rw [← Option.some.inj htext]
        exact Nat.le_of_not_lt hsize
  unfold PlainDir.bootText at h
  rcases Option.or_eq_some_iff.mp h with h | ⟨-, h⟩
  all_goals
    obtain ⟨f, -, htext⟩ := Option.bind_eq_some_iff.mp h
    exact hfits htext

/-- Of a directory that can be read, the lines of the boot file that counts are added. -/
theorem findBootCsv_plain (hlines : d.Complete arch) :
    ∃ calls, findBootCsv arch d.answers = some (.success, calls) ∧
      (calls.map (bootEntry d.name)).map BootEntry.texts = d.entries arch := by
  have hscan : scanCsv arch d.answers.reads none none =
      .ok (fileNamed (csvName []) d.dirFiles, fileNamed (csvName arch) d.dirFiles) :=
    scanCsv_entries arch d.dirFiles none none
  have hfind : findBootCsv arch d.answers =
      processCsv (fileNamed (csvName []) d.dirFiles) (fileNamed (csvName arch) d.dirFiles) := by
    unfold findBootCsv
    rw [hscan]
    rfl
  have htexts : ∀ {text}, d.bootText arch = some text →
      (((bootLines text).filterMap parseLine).map (bootEntry d.name)).map BootEntry.texts =
        d.entries arch := by
    intro text htext
    unfold PlainDir.entries
    rw [htext, List.map_map]
    refine List.map_congr_left fun call hcall => ?_
    obtain ⟨line, hline, hparse⟩ := List.mem_filterMap.mp hcall
    exact texts_bootEntry d.name (length_of_bootText htext) hline hparse
  have hnone : d.bootText arch = none → d.entries arch = [] := by
    intro h
    unfold PlainDir.entries
    rw [h]
  rw [hfind]
  -- the general file counts where that of the architecture is missing or too large
  have hgeneral : ∀ {r : Option (EfiStatus × List StanzaCall)},
      (r = match fileNamed (csvName []) d.dirFiles with
        | none => some (.success, [])
        | some f => f.process.map fun r => (.success, r.2)) →
      d.bootText arch = (fileNamed (csvName []) d.dirFiles).bind DirFile.text →
      ∃ calls, r = some (.success, calls) ∧
        (calls.map (bootEntry d.name)).map BootEntry.texts = d.entries arch := by
    rintro _ rfl hcounts
    cases hboot : fileNamed (csvName []) d.dirFiles with
    | none =>
      rw [hboot] at hcounts
      exact ⟨[], rfl, (hnone hcounts).symm⟩
    | some f =>
      rw [hboot, Option.bind_some] at hcounts
      cases htext : f.text with
      | none =>
        obtain ⟨e, hprocess, -⟩ := process_of_none (opened_of_fileNamed hboot) htext
        rw [htext] at hcounts
        exact ⟨[], by simp [hprocess], (hnone hcounts).symm⟩
      | some text =>
        rw [htext] at hcounts
        have hprocess := process_of_text (opened_of_fileNamed hboot) htext (hlines text hcounts)
        exact ⟨_, by simp [hprocess], htexts hcounts⟩
  cases harch : fileNamed (csvName arch) d.dirFiles with
  | none =>
    refine hgeneral rfl ?_
    unfold PlainDir.bootText
    rw [harch]
    rfl
  | some f =>
    have hopen := opened_of_fileNamed harch
    cases htext : f.text with
    | some text =>
      have hcounts : d.bootText arch = some text := by
        unfold PlainDir.bootText
        rw [harch, Option.bind_some, htext]
        rfl
      have hprocess := process_of_text hopen htext (hlines text hcounts)
      refine ⟨_, ?_, htexts hcounts⟩
      simp [processCsv, hprocess]
    | none =>
      obtain ⟨e, hprocess, he⟩ := process_of_none hopen htext
      refine hgeneral ?_ ?_
      · cases hboot : fileNamed (csvName []) d.dirFiles with
        | none => simp [processCsv, hprocess]
        | some f' => simp [processCsv, hprocess, he]
      · unfold PlainDir.bootText
        rw [harch, Option.bind_some, htext]
        rfl

/-- What a boot from a volume without faults adds are the lines of the boot files that count, in
whatever order a directory lists its files; `.`, `..` and `BOOT` are passed by. -/
theorem bootEntries_plain (hfiles : List.Forall₂ SameFiles dirs' dirs)
    (hlines : ∀ d ∈ dirs, d.answers.skipped = false → d.Complete arch) :
    ∃ entries, bootEntries arch (plainVolume dirs') = some (.success, entries) ∧
      entries.map BootEntry.texts =
        (dirs.filter fun d => !d.answers.skipped).flatMap (PlainDir.entries arch) := by
  change ∃ entries, readVendors arch (dirs'.map fun d => .entry d.answers) =
    some (.success, entries) ∧ _
  induction hfiles with
  | nil => exact ⟨[], rfl, rfl⟩
  | @cons d' d dirs' dirs hsame hrest ih =>
    obtain ⟨entries, hread, htexts⟩ := ih fun d hd => hlines d (List.mem_cons_of_mem _ hd)
    -- the same directories are passed over
    have hskipped : d'.answers.skipped = d.answers.skipped := by
      have hname : d'.answers.name = d.answers.name := hsame.name
      have hdirectory : d'.answers.isDirectory = d.answers.isDirectory := hsame.isDirectory
      unfold VendorDir.skipped
      rw [hname, hdirectory]
    have hopen : d'.answers.openDir.isSome = false := rfl
    rw [List.map_cons, readVendors, hopen, Bool.or_false, hskipped]
    cases hskip : d.answers.skipped with
    | true =>
      refine ⟨entries, hread, ?_⟩
      rw [htexts, List.filter_cons_of_neg (by simp [hskip])]
    | false =>
      obtain ⟨calls, hfind, hcalls⟩ :=
        findBootCsv_plain (hsame.complete (hlines d List.mem_cons_self hskip))
      refine ⟨calls.map (bootEntry d'.name) ++ entries, ?_, ?_⟩
      · rw [if_neg Bool.false_ne_true, hfind, hread]
        rfl
      · rw [List.filter_cons_of_pos (by simp [hskip]), List.flatMap_cons, List.map_append, hcalls,
          hsame.entries, htexts]

/-- A vendor's directory with a loader and a boot file of one line. -/
def vendorDir : PlainDir where
  name := [0x64]
  isDirectory := true
  files := [([0x61], []), (text16 "BOOT.CSV", [0x61, 0x2c, 0x62, 0x2c, 0x63, 0xa])]

/-- A volume with the directory of a vendor. -/
theorem bootEntries_plain_vendorDir : ∃ entries,
    bootEntries (text16 "x64") (plainVolume [vendorDir]) = some (.success, entries) ∧
      entries.map BootEntry.texts =
        ([vendorDir].filter fun d => !d.answers.skipped).flatMap
          (PlainDir.entries (text16 "x64")) := by
  have hunique : UniqueNames vendorDir.dirFiles := by
    unfold UniqueNames
    decide
  have htext : vendorDir.bootText (text16 "x64") = some [0x61, 0x2c, 0x62, 0x2c, 0x63, 0xa] := by
    decide
  refine bootEntries_plain (.cons ⟨rfl, rfl, .refl _, hunique⟩ .nil) ?_
  intro d hd _ text hd'
  obtain rfl := List.mem_singleton.mp hd
  obtain rfl := Option.some.inj (htext.symm.trans hd')
  unfold CompleteLine
  decide

end Plain

end Shim
