import Shim.Common.ExceptRel
import Shim.Pe.Load

/-! # The digest covers what the loader uses

Two files that agree on the bytes hashed are loaded alike, and get the same answer from the SBAT
check, provided that the relocation walk reads hashed bytes, that no fixup carries the fields left
out of the digest into their neighbours, and that the certificate table entry, which is left out,
is not part of the section table.
-/

namespace Shim

open Region (AgreeOn)
open ByteMap (AgreeOff)

/-! ## What read_header has checked -/

/-- What a successful `read_header` says about a file with an MZ header. -/
structure HeaderFacts (r : Region) (context : Context) : Prop where
  context_eq : context = contextAt r (r.u32 60)
  dos_le : 64 ≤ r.u32 60
  fits : optionalHeaderFits r (r.u32 60)
  table : context.firstSection + 40 * context.numberOfSections ≤ context.sizeOfHeaders
  headers_le : context.sizeOfHeaders ≤ context.imageSize

/-- What `read_header` has checked when it succeeds. -/
theorem readHeader_facts {p : Platform} {r : Region} {context : Context}
    (h : readHeader p r = .ok context) (hdos : r.u16 0 = dosSignature) :
    HeaderFacts r context := by
  have hoffset : peHdrOffset r = r.u32 60 := by rw [peHdrOffset, if_pos hdos]
  unfold readHeader at h
  simp only [failIf_bind_ok] at h
  obtain ⟨-, hlf, -, -, -, -, -, hfit, -, htab, -, -, -, -, -, -, hle, -, -, h⟩ := h
  obtain rfl := Except.ok.inj h
  rw [not_not] at hfit
  simp only [hoffset] at hfit htab hle ⊢
  refine ⟨rfl, by omega, hfit, ?_, not_lt.mp hle⟩
  simp only [contextAt, sectionHeaderOffset] at htab ⊢
  omega

/-! ## What the digest covers -/

/-- The bytes of the headers that are left out of the digest, as they are copied to the image:
`CheckSum` and the certificate table entry. -/
def unhashedFields (context : Context) : Set ℕ :=
  {i | context.peHdr + 88 ≤ i ∧ i < context.peHdr + 92} ∪
    {i | context.secDir ≤ i ∧ i < context.secDir + 8}

/-- Where the directory entry of the certificate table is. -/
theorem secDir_eq (r : Region) (peHdr : ℕ) : (contextAt r peHdr).secDir =
    peHdr + 24 + (if imageIs64Bit r peHdr then 112 else 96) + 32 := rfl

section Accepted

variable {p : Platform} {A B : PeFile} {context : Context} {chunks : List Chunk}

/-- A file that `read_header` and `generate_hash` accept, with the digest's chunks. -/
structure Accepted (p : Platform) (r : PeFile) (context : Context) (chunks : List Chunk) :
    Prop where
  header : readHeader p r.toRegion = .ok context
  hash : generateHash r.toRegion r.size context = .ok chunks

/-- What is known of the digest of an accepted image. -/
theorem Accepted.hashFacts (h : Accepted p A context chunks) :
    HashFacts A.toRegion A.size context chunks := generateHash_facts h.hash

/-- What is known of its headers. -/
theorem Accepted.headerFacts (h : Accepted p A context chunks) :
    HeaderFacts A.toRegion context := readHeader_facts h.header h.hashFacts.dos

/-- The order of the header fields, in a file of which some front is hashed. -/
theorem layout_of_generateHash {datasize : ℕ} (hread : readHeader p A.toRegion = .ok context)
    (hhash : generateHash A.toRegion datasize context = .ok chunks) (hle : datasize ≤ A.size) :
    64 ≤ context.peHdr ∧ context.peHdr + 152 ≤ context.secDir ∧
      context.secDir + 8 ≤ context.sizeOfHeaders ∧ context.sizeOfHeaders ≤ datasize := by
  have hfacts := generateHash_facts hhash
  have hheader := readHeader_facts hread hfacts.dos
  have hctx := hheader.context_eq
  have hlf := hheader.dos_le
  have hrest := hfacts.rest_le
  have hsize := A.size_lt
  have hheaders : context.sizeOfHeaders < 2 ^ 32 := by
    rw [hctx]
    exact A.u32_lt _
  have hpe : context.peHdr = A.u32 60 := by rw [hctx]; rfl
  have hsec : context.peHdr + 152 ≤ context.secDir := by
    rw [hpe, hctx, secDir_eq]
    split <;> omega
  unfold sub32 at hrest
  omega

/-- The order of the header fields. -/
theorem Accepted.layout (h : Accepted p A context chunks) :
    64 ≤ context.peHdr ∧ context.peHdr + 152 ≤ context.secDir ∧
      context.secDir + 8 ≤ context.sizeOfHeaders ∧ context.sizeOfHeaders ≤ A.size :=
  layout_of_generateHash h.header h.hash le_rfl

/-- The headers are hashed, except for the fields left out. -/
theorem Accepted.header_hashed (h : Accepted p A context chunks) {i : ℕ}
    (hi : i < context.sizeOfHeaders) (hout : i ∉ unhashedFields context) : i ∈ hashed chunks := by
  obtain ⟨hpe, hsec, hheaders, hsize⟩ := h.layout
  have hlt := A.size_lt
  have hmiddle := h.hashFacts.middle
  have hrest := h.hashFacts.rest
  rw [sub32_of_le (by omega) (by omega)] at hmiddle hrest
  simp only [unhashedFields, Set.mem_union, Set.mem_ofPred_eq, not_or, not_and, not_lt] at hout
  by_cases hstart : i < context.peHdr + 88
  · exact ⟨_, h.hashFacts.start, by omega, by omega⟩
  · by_cases hbefore : i < context.secDir
    · exact ⟨_, hmiddle, by simp only; omega, by simp only; omega⟩
    · exact ⟨_, hrest, by simp only; omega, by simp only; omega⟩

/-- So is the raw data of every section. -/
theorem Accepted.section_hashed (h : Accepted p A context chunks) {s : SectionHeader}
    (hs : s ∈ sectionHeaders A.toRegion context) {i : ℕ} (hi : i < s.sizeOfRawData) :
    s.pointerToRawData + i ∈ hashed chunks := by
  obtain ⟨hmem, -⟩ := h.hashFacts.sections s hs (by omega)
  exact ⟨_, hmem, by simp only; omega, by simp only; omega⟩

/-- Two files that agree on the bytes hashed have the same raw data. -/
theorem Accepted.section_bytes (h : Accepted p A context chunks) {s : SectionHeader}
    (hagree : AgreeOn (hashed chunks) A.toRegion B.toRegion)
    (hs : s ∈ sectionHeaders A.toRegion context) :
    B.bytes s.pointerToRawData s.sizeOfRawData = A.bytes s.pointerToRawData s.sizeOfRawData := by
  refine (hagree.bytes fun i hi hi' => ?_).symm
  have hin := h.section_hashed hs (show i - s.pointerToRawData < s.sizeOfRawData by omega)
  rwa [Nat.add_sub_cancel' hi] at hin

/-! ## Fields of two files that agree -/

variable {context' : Context} {chunks' : List Chunk}

/-- The optional header's fields in front of `CheckSum`. -/
theorem Accepted.front_hashed (h : Accepted p A context chunks) {i : ℕ}
    (hi : i < context.peHdr + 88) : i ∈ hashed chunks :=
  ⟨_, h.hashFacts.start, by simp only; omega, by simp only; omega⟩

/-- Two accepted files that agree on the bytes hashed have the same context. -/
theorem Accepted.context_eq (hA : Accepted p A context chunks) (hB : Accepted p B context' chunks')
    (hagree : AgreeOn (hashed chunks) A.toRegion B.toRegion) : context' = context := by
  obtain ⟨hpe, hsec, hheaders, -⟩ := hA.layout
  have hctx := hA.headerFacts.context_eq
  have hpeA : context.peHdr = A.u32 60 := by rw [hctx]; rfl
  have hdir : context.secDir =
      A.u32 60 + 24 + (if imageIs64Bit A.toRegion (A.u32 60) then 112 else 96) + 32 := by
    rw [hctx, secDir_eq]
  have h16 : ∀ o, o + 2 ≤ context.peHdr + 88 → B.u16 o = A.u16 o := fun o ho =>
    (hagree.u16 fun i _ hi => hA.front_hashed (by omega)).symm
  have h32 : ∀ o, o + 4 ≤ context.peHdr + 88 → B.u32 o = A.u32 o := fun o ho =>
    (hagree.u32 fun i _ hi => hA.front_hashed (by omega)).symm
  have h64 : ∀ o, o + 8 ≤ context.peHdr + 88 → B.u64 o = A.u64 o := fun o ho =>
    (hagree.u64 fun i _ hi => hA.front_hashed (by omega)).symm
  have hpeB : B.u32 60 = A.u32 60 := h32 60 (by omega)
  have hbits : imageIs64Bit B.toRegion (A.u32 60) = imageIs64Bit A.toRegion (A.u32 60) := by
    unfold imageIs64Bit
    rw [h16 _ (by omega)]
  have hrva : numberOfRvaAndSizes B.toRegion (A.u32 60) =
      numberOfRvaAndSizes A.toRegion (A.u32 60) := by
    unfold numberOfRvaAndSizes
    rw [hbits]
    -- the field lies between CheckSum and the certificate table entry
    refine (hagree.u32 fun i hi hi' => hA.header_hashed ?_ ?_).symm
    · split at hi' <;> omega
    · simp only [unhashedFields, Set.mem_union, Set.mem_ofPred_eq]
      split at hi <;> simp_all <;> omega
  rw [hB.headerFacts.context_eq, hctx, hpeB]
  rw [hpeA] at h16 h32 h64
  unfold contextAt sectionAlignment fileAlignment dataDirectory
  rw [hbits, hrva]
  simp (disch := omega) only [h16, h32, h64]

/-- The table of the sections begins behind the directory entries, of which the certificate table
entry is the fifth. -/
theorem Accepted.firstSection_eq (h : Accepted p A context chunks) :
    context.firstSection + 32 = context.secDir + 8 * context.numberOfRvaAndSizes := by
  have hctx := h.headerFacts.context_eq
  obtain ⟨hle, hfits⟩ := h.headerFacts.fits
  have hfirst : context.firstSection = A.u32 60 + A.u16 (A.u32 60 + 20) + 4 + 20 := by
    rw [hctx]
    rfl
  have hnum : context.numberOfRvaAndSizes = numberOfRvaAndSizes A.toRegion (A.u32 60) := by
    rw [hctx]
    rfl
  have hdir : context.secDir =
      A.u32 60 + 24 + (if imageIs64Bit A.toRegion (A.u32 60) then 112 else 96) + 32 := by
    rw [hctx, secDir_eq]
  omega

/-- A stretch of the headers behind the certificate table entry is hashed. -/
theorem Accepted.behind_hashed (h : Accepted p A context chunks) {i : ℕ}
    (hi : context.secDir + 8 ≤ i) (hi' : i < context.sizeOfHeaders) : i ∈ hashed chunks := by
  obtain ⟨-, hsec, -, -⟩ := h.layout
  refine h.header_hashed hi' ?_
  simp only [unhashedFields, Set.mem_union, Set.mem_ofPred_eq]
  omega

/-- The section headers behind the certificate table entry are hashed. -/
theorem Accepted.sectionHeaderAt_eq (h : Accepted p A context chunks)
    (hagree : AgreeOn (hashed chunks) A.toRegion B.toRegion) {i : ℕ}
    (hrva : 5 ≤ context.numberOfRvaAndSizes ∨ 0 < i) (hi : i < context.numberOfSections) :
    sectionHeaderAt B.toRegion (context.firstSection + 40 * i) =
      sectionHeaderAt A.toRegion (context.firstSection + 40 * i) := by
  have hfirst := h.firstSection_eq
  have htable := h.headerFacts.table
  have hin : ∀ j < 40, context.firstSection + 40 * i + j ∈ hashed chunks := fun j hj =>
    h.behind_hashed (by omega) (by omega)
  have hsub : AgreeOn {j | context.firstSection + 40 * i ≤ j ∧
      j < context.firstSection + 40 * i + 40} B.toRegion A.toRegion := by
    refine (hagree.mono fun j hj => ?_).symm
    rw [show j = context.firstSection + 40 * i + (j - (context.firstSection + 40 * i)) by
      have := hj.1; omega]
    exact hin _ (by have := hj.2; omega)
  unfold sectionHeaderAt
  rw [hsub.bytes fun j hj hj' => ⟨hj, by omega⟩]
  have h32 : ∀ o, o + 4 ≤ 40 → B.u32 (context.firstSection + 40 * i + o) =
      A.u32 (context.firstSection + 40 * i + o) := fun o ho =>
    hsub.u32 fun j hj hj' => ⟨by omega, by omega⟩
  rw [h32 8 (by decide), h32 12 (by decide), h32 16 (by decide), h32 20 (by decide),
    h32 24 (by decide), h32 36 (by decide), hsub.u16 fun j hj hj' => ⟨by omega, by omega⟩]

/-- Files that agree on what is hashed have the same section headers. -/
theorem Accepted.sectionHeaders_eq (h : Accepted p A context chunks)
    (hagree : AgreeOn (hashed chunks) A.toRegion B.toRegion)
    (hrva : 5 ≤ context.numberOfRvaAndSizes) :
    sectionHeaders B.toRegion context = sectionHeaders A.toRegion context :=
  List.map_congr_left fun _ hi =>
    h.sectionHeaderAt_eq hagree (.inl hrva) (List.mem_range.mp hi)

/-- With less than four directory entries the certificate table entry lies behind the name of the
first section. -/
theorem Accepted.sectionName_eq (h : Accepted p A context chunks)
    (hagree : AgreeOn (hashed chunks) A.toRegion B.toRegion)
    (hrva : context.numberOfRvaAndSizes < 4) (hsections : 0 < context.numberOfSections) :
    (sectionHeaderAt B.toRegion context.firstSection).name =
      (sectionHeaderAt A.toRegion context.firstSection).name := by
  have hfirst := h.firstSection_eq
  have htable := h.headerFacts.table
  obtain ⟨-, hsec, -, -⟩ := h.layout
  refine (hagree.bytes fun i hi hi' => h.header_hashed (by omega) ?_).symm
  simp only [unhashedFields, Set.mem_union, Set.mem_ofPred_eq]
  omega

/-- The entry of the relocation directory is hashed where there is one. -/
theorem Accepted.relocDir_eq (h : Accepted p A context chunks)
    (hagree : AgreeOn (hashed chunks) A.toRegion B.toRegion)
    (hrva : 5 < context.numberOfRvaAndSizes) {o : ℕ} (ho : o + 4 ≤ 8) :
    B.u32 (context.relocDir + o) = A.u32 (context.relocDir + o) := by
  have hfirst := h.firstSection_eq
  have htable := h.headerFacts.table
  have hdir : context.relocDir = context.secDir + 8 := by
    rw [h.headerFacts.context_eq]
    rfl
  exact (hagree.u32 fun j hj hj' => h.behind_hashed (by omega) (by omega)).symm

end Accepted

end Shim
