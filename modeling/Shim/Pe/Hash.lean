import Shim.Pe.Header

/-! # The Authenticode digest of an image

`generate_hash` (pe.c). The digest is taken over a list of chunks of the file, each an offset and a
length, in the order they are fed to `Sha256Update` and `Sha1Update`.
-/

namespace Shim

/-- An offset and a length. -/
abbrev Chunk := ℕ × ℕ

/-- `check_size`: the chunk, if it lies in a file of `datasize` bytes. -/
def checkSize (datasize : ℕ) (chunk : Chunk) : Except EfiStatus Chunk := do
  failIf (datasize < chunk.1) .invalidParameter
  failIf (datasize < chunk.1 + chunk.2) .invalidParameter
  return chunk

/-- The three chunks of the headers: they leave out `CheckSum` and the certificate table entry. -/
def hashHeaders (datasize : ℕ) (context : Context) : Except EfiStatus (List Chunk) := do
  let checkSum := context.peHdr + 88
  let start ← checkSize datasize (0, checkSum)
  let middle ← checkSize datasize (checkSum + 4, sub32 context.secDir (checkSum + 4))
  let dd := context.secDir + 8
  let hashsize := sub32 context.sizeOfHeaders dd
  failIf (datasize < hashsize) .invalidParameter
  let rest ← checkSize datasize (dd, hashsize)
  return [start, middle, rest]

/-- With no section, the section table is looked at once more. -/
def checkNoSections (r : Region) (datasize : ℕ) (context : Context) : Except EfiStatus Unit := do
  let addr := r.u32 60 + 4 + 20 + r.u16 (context.peHdr + 20)
  failIf (context.numberOfSections = 0 ∧ imageAddress r.base datasize addr = none)
    .invalidParameter
  -- section0[nsections - 1] for nsections = 0
  failIf (context.numberOfSections = 0 ∧
    imageAddress r.base datasize ((addr + (2 ^ 64 - 40)) % 2 ^ 64) = none) .invalidParameter

/-- One section into the sorted table, held largest `PointerToRawData` first. -/
def insertSection (s : SectionHeader) : List SectionHeader → List SectionHeader
  | [] => [s]
  | t :: table =>
    if s.pointerToRawData < t.pointerToRawData then t :: insertSection s table else s :: t :: table

/-- The loop that validates the sections and sorts them. -/
def sortSections (base datasize : ℕ) (context : Context) :
    List SectionHeader → (sumOfSectionBytes : ℕ) → (table : List SectionHeader) →
      Except EfiStatus (List SectionHeader)
  | [], _, table => .ok table.reverse
  | s :: rest, sumOfSectionBytes, table => do
    let _ ← getSectionVma base context s
    failIf (sub32 (sub32 datasize context.sizeOfHeaders) sumOfSectionBytes < s.sizeOfRawData)
      .invalidParameter
    sortSections base datasize context rest (add32 sumOfSectionBytes s.sizeOfRawData)
      (insertSection s table)

/-- The loop that hashes the sorted sections: their chunks and `SumOfBytesHashed`. -/
def hashSections (base datasize : ℕ) :
    List SectionHeader → (sumOfBytesHashed : ℕ) → Except EfiStatus (List Chunk × ℕ)
  | [], sumOfBytesHashed => .ok ([], sumOfBytesHashed)
  | s :: rest, sumOfBytesHashed => do
    if s.sizeOfRawData = 0 then hashSections base datasize rest sumOfBytesHashed
    else
      failIf (imageAddress base datasize s.pointerToRawData = none) .invalidParameter
      failIf (sub32 datasize s.pointerToRawData < s.sizeOfRawData) .invalidParameter
      let chunk ← checkSize datasize (s.pointerToRawData, s.sizeOfRawData)
      let (chunks, sum) ← hashSections base datasize rest (add32 sumOfBytesHashed s.sizeOfRawData)
      return (chunk :: chunks, sum)

/-- The rest of the file up to the certificate table, where there is one. -/
def hashRest (r : Region) (datasize : ℕ) (context : Context) (sumOfBytesHashed : ℕ) :
    Except EfiStatus (List Chunk) := do
  let secSize := r.u32 (context.secDir + 4)
  if sumOfBytesHashed < datasize ∧ secSize ≠ 0 then
    let hashsize := sub32 (sub32 datasize secSize) sumOfBytesHashed
    failIf (datasize - sumOfBytesHashed < secSize ∨
      add32 sumOfBytesHashed hashsize ≠ r.u32 context.secDir) .invalidParameter
    let chunk ← checkSize datasize (sumOfBytesHashed, hashsize)
    return [chunk]
  else return []

/-- `generate_hash`: what it feeds to the digests. The context is one of `read_header`, for which
its assignment to `NumberOfSections` and `FirstSection` changes nothing the code uses. -/
def generateHash (r : Region) (datasize : ℕ) (context : Context) :
    Except EfiStatus (List Chunk) := do
  failIf (datasize ≤ 64 ∨ r.u16 0 ≠ dosSignature) .invalidParameter
  let headers ← hashHeaders datasize context
  checkNoSections r datasize context
  let table ← sortSections r.base datasize context (sectionHeaders r context) 0 []
  let (sections, sum) ← hashSections r.base datasize table context.sizeOfHeaders
  let rest ← hashRest r datasize context sum
  return headers ++ sections ++ rest

/-! ## Errors -/

/-- The check of a chunk fails with an error only. -/
theorem failsWithError_checkSize (datasize : ℕ) (chunk : Chunk) :
    FailsWithError (checkSize datasize chunk) :=
  (failsWithError_failIf _ rfl).bind fun _ => (failsWithError_failIf _ rfl).bind fun _ =>
    failsWith_ok _

/-- So does hashing the headers. -/
theorem failsWithError_hashHeaders (datasize : ℕ) (context : Context) :
    FailsWithError (hashHeaders datasize context) :=
  (failsWithError_checkSize _ _).bind fun _ => (failsWithError_checkSize _ _).bind fun _ =>
    (failsWithError_failIf _ rfl).bind fun _ => (failsWithError_checkSize _ _).bind fun _ =>
    failsWith_ok _

/-- So does the check of a section's place. -/
theorem failsWithError_getSectionVma (base : ℕ) (context : Context) (s : SectionHeader) :
    FailsWithError (getSectionVma base context s) :=
  (failsWithError_failIf _ rfl).bind fun _ => (failsWithError_failIf _ rfl).bind fun _ =>
    (failsWithError_failIf _ rfl).bind fun _ => (failsWithError_failIf _ rfl).bind fun _ =>
    failsWith_ok _

/-- So does sorting the sections. -/
theorem failsWithError_sortSections (base datasize : ℕ) (context : Context)
    (sections : List SectionHeader) (sum : ℕ) (table : List SectionHeader) :
    FailsWithError (sortSections base datasize context sections sum table) := by
  induction sections generalizing sum table with
  | nil => exact failsWith_ok _
  | cons s rest ih =>
    exact (failsWithError_getSectionVma _ _ _).bind fun _ =>
      (failsWithError_failIf _ rfl).bind fun _ => ih _ _

/-- So does hashing them. -/
theorem failsWithError_hashSections (base datasize : ℕ) (table : List SectionHeader) (sum : ℕ) :
    FailsWithError (hashSections base datasize table sum) := by
  induction table generalizing sum with
  | nil => exact failsWith_ok _
  | cons s rest ih =>
    unfold hashSections
    split
    · exact ih _
    · exact (failsWithError_failIf _ rfl).bind fun _ => (failsWithError_failIf _ rfl).bind fun _ =>
        (failsWithError_checkSize _ _).bind fun _ => (ih _).bind fun _ => failsWith_ok _

/-- So does hashing what is behind them. -/
theorem failsWithError_hashRest (r : Region) (datasize : ℕ) (context : Context) (sum : ℕ) :
    FailsWithError (hashRest r datasize context sum) := by
  unfold hashRest
  dsimp only
  split
  · exact (failsWithError_failIf _ rfl).bind fun _ => (failsWithError_checkSize _ _).bind fun _ =>
      failsWith_ok _
  · exact failsWith_ok _

/-- `generate_hash` succeeds or returns an error. -/
theorem failsWithError_generateHash (r : Region) (datasize : ℕ) (context : Context) :
    FailsWithError (generateHash r datasize context) :=
  (failsWithError_failIf _ rfl).bind fun _ => (failsWithError_hashHeaders _ _).bind fun _ =>
    ((failsWithError_failIf _ rfl).bind fun _ => failsWithError_failIf _ rfl).bind fun _ =>
    (failsWithError_sortSections _ _ _ _ _ _).bind fun _ =>
    (failsWithError_hashSections _ _ _ _).bind fun _ =>
    (failsWithError_hashRest _ _ _ _).bind fun _ => failsWith_ok _

/-! ## What is hashed -/

/-- The bytes a list of chunks covers, in order. -/
def chunkBytes (r : Region) (chunks : List Chunk) : List UInt8 :=
  chunks.flatMap fun chunk => r.bytes chunk.1 chunk.2

/-- The offsets a list of chunks covers. -/
def hashed (chunks : List Chunk) : Set ℕ := {i | ∃ c ∈ chunks, c.1 ≤ i ∧ i < c.1 + c.2}

/-- A section that is put in its place is added, and no other is lost. -/
theorem mem_insertSection {s t : SectionHeader} {table : List SectionHeader} :
    t ∈ insertSection s table ↔ t = s ∨ t ∈ table := by
  induction table with
  | nil => simp [insertSection]
  | cons u table ih =>
    unfold insertSection
    split
    · rw [List.mem_cons, ih, List.mem_cons, or_left_comm]
    · rw [List.mem_cons]

section Facts

variable {r : Region} {base datasize sum : ℕ} {context : Context} {s : SectionHeader}
  {sections table table' : List SectionHeader} {chunks : List Chunk}

/-- Sorting neither loses nor invents a section. -/
theorem mem_of_sortSections (h : sortSections base datasize context sections sum table = .ok table') :
    s ∈ table' ↔ s ∈ sections ∨ s ∈ table := by
  induction sections generalizing sum table with
  | nil =>
    obtain rfl : table.reverse = table' := by simpa [sortSections] using h
    simp
  | cons t sections ih =>
    unfold sortSections at h
    obtain ⟨_, -, h⟩ := exists_of_bind_ok h
    obtain ⟨_, -, h⟩ := exists_of_bind_ok h
    rw [ih h, mem_insertSection, List.mem_cons, or_left_comm, or_assoc]

/-- A chunk that passes lies in the file. -/
theorem checkSize_ok {chunk chunk' : Chunk} (h : checkSize datasize chunk = .ok chunk') :
    chunk' = chunk ∧ chunk.1 + chunk.2 ≤ datasize := by
  obtain ⟨_, -, h⟩ := exists_of_bind_ok h
  obtain ⟨_, hend, h⟩ := exists_of_bind_ok h
  have := not_of_failIf_ok hend
  exact ⟨(Except.ok.inj h).symm, by omega⟩

/-- Every section with raw data is hashed, and lies in the file. -/
theorem mem_of_hashSections {sum' : ℕ}
    (h : hashSections base datasize table sum = .ok (chunks, sum')) (hs : s ∈ table)
    (hraw : s.sizeOfRawData ≠ 0) :
    (s.pointerToRawData, s.sizeOfRawData) ∈ chunks ∧
      s.pointerToRawData + s.sizeOfRawData ≤ datasize := by
  induction table generalizing sum sum' chunks with
  | nil => simp at hs
  | cons t table ih =>
    unfold hashSections at h
    by_cases htraw : t.sizeOfRawData = 0
    · rw [if_pos htraw] at h
      rcases List.mem_cons.mp hs with rfl | hs
      · exact absurd htraw hraw
      · exact ih h hs
    · rw [if_neg htraw] at h
      obtain ⟨_, -, h⟩ := exists_of_bind_ok h
      obtain ⟨_, -, h⟩ := exists_of_bind_ok h
      obtain ⟨chunk, hchunk, h⟩ := exists_of_bind_ok h
      obtain ⟨⟨chunks', sum''⟩, hrest, h⟩ := exists_of_bind_ok h
      obtain ⟨rfl, hend⟩ := checkSize_ok hchunk
      obtain ⟨rfl, -⟩ : _ :: chunks' = chunks ∧ sum'' = sum' := Prod.mk.inj (Except.ok.inj h)
      rcases List.mem_cons.mp hs with rfl | hs
      · exact ⟨List.mem_cons_self, hend⟩
      · exact (ih hrest hs).imp_left (List.mem_cons_of_mem _)

/-- What a successful `generate_hash` says about the file: an MZ header, the headers hashed up to
the fields left out, and every section hashed. -/
structure HashFacts (r : Region) (datasize : ℕ) (context : Context) (chunks : List Chunk) :
    Prop where
  dos : r.u16 0 = dosSignature
  start : (0, context.peHdr + 88) ∈ chunks
  middle : (context.peHdr + 92, sub32 context.secDir (context.peHdr + 92)) ∈ chunks
  rest : (context.secDir + 8, sub32 context.sizeOfHeaders (context.secDir + 8)) ∈ chunks
  rest_le : context.secDir + 8 + sub32 context.sizeOfHeaders (context.secDir + 8) ≤ datasize
  sections : ∀ s ∈ sectionHeaders r context, s.sizeOfRawData ≠ 0 →
    (s.pointerToRawData, s.sizeOfRawData) ∈ chunks ∧
      s.pointerToRawData + s.sizeOfRawData ≤ datasize

/-- What is known when the digest is made. -/
theorem generateHash_facts (h : generateHash r datasize context = .ok chunks) :
    HashFacts r datasize context chunks := by
  unfold generateHash at h
  obtain ⟨_, hdos, h⟩ := exists_of_bind_ok h
  obtain ⟨headers, hheaders, h⟩ := exists_of_bind_ok h
  obtain ⟨_, -, h⟩ := exists_of_bind_ok h
  obtain ⟨table, htable, h⟩ := exists_of_bind_ok h
  obtain ⟨⟨sections, sum⟩, hsections, h⟩ := exists_of_bind_ok h
  obtain ⟨rest, -, h⟩ := exists_of_bind_ok h
  obtain rfl := Except.ok.inj h
  unfold hashHeaders at hheaders
  obtain ⟨start, hstart, hheaders⟩ := exists_of_bind_ok hheaders
  obtain ⟨middle, hmiddle, hheaders⟩ := exists_of_bind_ok hheaders
  obtain ⟨_, -, hheaders⟩ := exists_of_bind_ok hheaders
  obtain ⟨last, hlast, hheaders⟩ := exists_of_bind_ok hheaders
  obtain rfl := Except.ok.inj hheaders
  obtain ⟨rfl, -⟩ := checkSize_ok hstart
  obtain ⟨rfl, -⟩ := checkSize_ok hmiddle
  obtain ⟨rfl, hlast_le⟩ := checkSize_ok hlast
  have hnot := not_of_failIf_ok hdos
  rw [not_or, not_not] at hnot
  refine ⟨hnot.2, by simp, by simp, by simp, hlast_le, fun s hs hraw => ?_⟩
  have hmem : s ∈ table := (mem_of_sortSections htable).mpr (.inl hs)
  obtain ⟨hchunk, hle⟩ := mem_of_hashSections hsections hmem hraw
  exact ⟨by simp [hchunk], hle⟩

end Facts

end Shim
