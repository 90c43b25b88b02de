import Shim.Pe.Excluded
import Shim.Pe.HeaderReads

/-! # The byte stream of the digest

What a successful `generate_hash` feeds to the digests, as one stream: the headers without the
fields left out, the sections in the order of their raw data, and the rest of the file up to the
certificate table. Its unsigned subtractions are those of the source; two of them wrap on images
that it accepts, at an index of -1 and in the end of a section that lies outside the image.
-/

namespace Shim

open Event (AllSound)

/-! ## The stream -/

/-- A table is another one, sorted by `PointerToRawData`; what is equal keeps its order. -/
structure StablySorted (sections table : List SectionHeader) : Prop where
  perm : table.Perm sections
  sorted : table.Pairwise fun s t => s.pointerToRawData ≤ t.pointerToRawData
  stable : ∀ pointer, table.filter (fun s => s.pointerToRawData = pointer) =
    sections.filter fun s => s.pointerToRawData = pointer

section Stream

variable (r : Region) (datasize : ℕ) (context : Context)

/-- The headers up to `SizeOfHeaders` without `CheckSum` and the certificate table entry. -/
def headerBytes : List UInt8 :=
  ((List.range context.sizeOfHeaders).filter fun i =>
    ¬ (context.peHdr + 88 ≤ i ∧ i < context.peHdr + 92) ∧
      ¬ (context.secDir ≤ i ∧ i < context.secDir + 8)).map r.byte

/-- The raw data of the sections of a table that have some, in its order. -/
def sectionBytes (table : List SectionHeader) : List UInt8 :=
  (table.filter fun s => s.sizeOfRawData ≠ 0).flatMap fun s =>
    r.bytes s.pointerToRawData s.sizeOfRawData

/-- `SizeOfHeaders` and all raw data. -/
def hashedEnd : ℕ := context.sizeOfHeaders + rawBytes (sectionHeaders r context)

/-- Bytes remain, and there is a certificate table. -/
def HasRest : Prop := hashedEnd r context < datasize ∧ r.u32 (context.secDir + 4) ≠ 0

instance : Decidable (HasRest r datasize context) := inferInstanceAs (Decidable (_ ∧ _))

/-- The rest of the file up to the certificate table. -/
def restBytes : List UInt8 :=
  if HasRest r datasize context then
    r.bytes (hashedEnd r context) (r.u32 context.secDir - hashedEnd r context)
  else []

end Stream

/-! ## The subtractions -/

/-- A chunk is checked and fed to the digests. -/
def feed (datasize : ℕ) (chunk : Chunk) : Traced EfiStatus Chunk := do
  let chunk ← Traced.lift (checkSize datasize chunk)
  Traced.read chunk.1 chunk.2
  return chunk

/-- `hashHeaders`, with what it subtracts. -/
def hashHeadersTraced (datasize : ℕ) (context : Context) : Traced EfiStatus (List Chunk) := do
  let checkSum := context.peHdr + 88
  let start ← feed datasize (0, checkSum)
  Traced.subtract context.secDir (checkSum + 4)
  let middle ← feed datasize (checkSum + 4, sub32 context.secDir (checkSum + 4))
  let dd := context.secDir + 8
  Traced.subtract context.sizeOfHeaders dd
  let hashsize := sub32 context.sizeOfHeaders dd
  check (datasize < hashsize) .invalidParameter
  let rest ← feed datasize (dd, hashsize)
  return [start, middle, rest]

/-- `checkNoSections`, with what it subtracts: the addresses of `section0[-1]` and of `section0`. -/
def checkNoSectionsTraced (r : Region) (datasize : ℕ) (context : Context) :
    Traced EfiStatus Unit := do
  let addr := r.u32 60 + 4 + 20 + r.u16 (context.peHdr + 20)
  check (context.numberOfSections = 0 ∧ imageAddress r.base datasize addr = none)
    .invalidParameter
  Traced.eventWhen (context.numberOfSections = 0) (.subtract (r.base + addr - 40) (r.base + addr))
  check (context.numberOfSections = 0 ∧
    imageAddress r.base datasize ((addr + (2 ^ 64 - 40)) % 2 ^ 64) = none) .invalidParameter

/-- `sortSections`, with what it subtracts; the first one is in `get_section_vma`. -/
def sortSectionsTraced (base datasize : ℕ) (context : Context) :
    List SectionHeader → (sumOfSectionBytes : ℕ) → (table : List SectionHeader) →
      Traced EfiStatus (List SectionHeader)
  | [], _, table => pure table.reverse
  | s :: rest, sumOfSectionBytes, table => do
    Traced.subtract (add32 s.virtualAddress s.virtualSize) 1
    let _ ← Traced.lift (getSectionVma base context s)
    Traced.subtract datasize context.sizeOfHeaders
    Traced.subtract (sub32 datasize context.sizeOfHeaders) sumOfSectionBytes
    check (sub32 (sub32 datasize context.sizeOfHeaders) sumOfSectionBytes < s.sizeOfRawData)
      .invalidParameter
    sortSectionsTraced base datasize context rest (add32 sumOfSectionBytes s.sizeOfRawData)
      (insertSection s table)

/-- `hashSections`, with what it subtracts. -/
def hashSectionsTraced (base datasize : ℕ) :
    List SectionHeader → (sumOfBytesHashed : ℕ) → Traced EfiStatus (List Chunk × ℕ)
  | [], sumOfBytesHashed => pure ([], sumOfBytesHashed)
  | s :: rest, sumOfBytesHashed => do
    if s.sizeOfRawData = 0 then hashSectionsTraced base datasize rest sumOfBytesHashed
    else
      check (imageAddress base datasize s.pointerToRawData = none) .invalidParameter
      Traced.subtract datasize s.pointerToRawData
      check (sub32 datasize s.pointerToRawData < s.sizeOfRawData) .invalidParameter
      let chunk ← feed datasize (s.pointerToRawData, s.sizeOfRawData)
      let (chunks, sum) ←
        hashSectionsTraced base datasize rest (add32 sumOfBytesHashed s.sizeOfRawData)
      return (chunk :: chunks, sum)

/-- `hashRest`, with what it subtracts. -/
def hashRestTraced (r : Region) (datasize : ℕ) (context : Context) (sumOfBytesHashed : ℕ) :
    Traced EfiStatus (List Chunk) := do
  let secSize := r.u32 (context.secDir + 4)
  if sumOfBytesHashed < datasize ∧ secSize ≠ 0 then
    Traced.subtract datasize secSize
    Traced.subtract (sub32 datasize secSize) sumOfBytesHashed
    let hashsize := sub32 (sub32 datasize secSize) sumOfBytesHashed
    Traced.subtract datasize sumOfBytesHashed
    check (datasize - sumOfBytesHashed < secSize ∨
      add32 sumOfBytesHashed hashsize ≠ r.u32 context.secDir) .invalidParameter
    let chunk ← feed datasize (sumOfBytesHashed, hashsize)
    return [chunk]
  else return []

/-- `generate_hash`, with what it subtracts and what it feeds to the digests. -/
def generateHashTraced (r : Region) (datasize : ℕ) (context : Context) :
    Traced EfiStatus (List Chunk) := do
  check (datasize ≤ 64 ∨ r.u16 0 ≠ dosSignature) .invalidParameter
  let headers ← hashHeadersTraced datasize context
  checkNoSectionsTraced r datasize context
  let table ← sortSectionsTraced r.base datasize context (sectionHeaders r context) 0 []
  let (sections, sum) ← hashSectionsTraced r.base datasize table context.sizeOfHeaders
  let rest ← hashRestTraced r datasize context sum
  return headers ++ sections ++ rest

section Results

variable (r : Region) (base datasize : ℕ) (context : Context)

/-- Feeding a chunk is checking it. -/
@[simp] theorem result_feed (chunk : Chunk) :
    (feed datasize chunk).result = checkSize datasize chunk := by
  rw [feed, Traced.result_bind, Traced.result_lift]
  cases checkSize datasize chunk <;> rfl

/-- Recording the accesses does not change the headers' chunks. -/
@[simp] theorem result_hashHeadersTraced :
    (hashHeadersTraced datasize context).result = hashHeaders datasize context := by
  simp only [hashHeadersTraced, hashHeaders, Traced.result_bind, Traced.result_subtract,
    Traced.result_pure, result_check, result_feed]
  rfl

/-- Nor the check for sections. -/
@[simp] theorem result_checkNoSectionsTraced :
    (checkNoSectionsTraced r datasize context).result = checkNoSections r datasize context := by
  simp only [checkNoSectionsTraced, checkNoSections, Traced.result_bind, Traced.result_eventWhen,
    result_check]
  rfl

/-- Nor the order of the sections. -/
@[simp] theorem result_sortSectionsTraced (sections : List SectionHeader) (sum : ℕ)
    (table : List SectionHeader) :
    (sortSectionsTraced base datasize context sections sum table).result =
      sortSections base datasize context sections sum table := by
  induction sections generalizing sum table with
  | nil => rfl
  | cons s sections ih =>
    simp only [sortSectionsTraced, sortSections, Traced.result_bind, Traced.result_subtract,
      Traced.result_lift, result_check, ih]
    rfl

/-- Nor their chunks. -/
@[simp] theorem result_hashSectionsTraced (table : List SectionHeader) (sum : ℕ) :
    (hashSectionsTraced base datasize table sum).result = hashSections base datasize table sum := by
  induction table generalizing sum with
  | nil => rfl
  | cons s table ih =>
    unfold hashSectionsTraced hashSections
    split
    · exact ih sum
    · simp only [Traced.result_bind, Traced.result_subtract, result_check, result_feed, ih]
      rfl

/-- Nor those behind them. -/
@[simp] theorem result_hashRestTraced (sum : ℕ) :
    (hashRestTraced r datasize context sum).result = hashRest r datasize context sum := by
  unfold hashRestTraced hashRest
  dsimp only
  split
  · simp only [Traced.result_bind, Traced.result_subtract, result_check, result_feed]
    rfl
  · rfl

/-- Nor the whole digest. -/
theorem result_generateHashTraced :
    (generateHashTraced r datasize context).result = generateHash r datasize context := by
  simp only [generateHashTraced, generateHash, Traced.result_bind, result_check,
    result_hashHeadersTraced, result_checkNoSectionsTraced, result_sortSectionsTraced,
    result_hashSectionsTraced, result_hashRestTraced, Traced.result_pure]
  rfl

end Results

/-! ## Sorting -/

section Sorting

variable {base datasize sum : ℕ} {context : Context} {s : SectionHeader}
  {sections table table' : List SectionHeader}

/-- A section that is put in its place is added. -/
theorem insertSection_perm (s : SectionHeader) (table : List SectionHeader) :
    (insertSection s table).Perm (s :: table) := by
  induction table with
  | nil => exact .refl _
  | cons t table ih =>
    unfold insertSection
    split
    · exact (ih.cons t).trans (.swap s t table)
    · exact .refl _

/-- The table that is kept is sorted from the largest pointer on. -/
theorem insertSection_pairwise
    (h : table.Pairwise fun s t => t.pointerToRawData ≤ s.pointerToRawData) :
    (insertSection s table).Pairwise fun s t => t.pointerToRawData ≤ s.pointerToRawData := by
  induction table with
  | nil => exact List.pairwise_singleton _ _
  | cons t table ih =>
    obtain ⟨hhead, htail⟩ := List.pairwise_cons.mp h
    unfold insertSection
    split
    · refine List.pairwise_cons.mpr ⟨fun u hu => ?_, ih htail⟩
      rcases mem_insertSection.mp hu with rfl | hu
      · omega
      · exact hhead u hu
    · refine List.pairwise_cons.mpr ⟨fun u hu => ?_, h⟩
      rcases List.mem_cons.mp hu with rfl | hu
      · omega
      · have := hhead u hu
        omega

/-- A section goes in front of those with its pointer. -/
theorem filter_insertSection (s : SectionHeader) (table : List SectionHeader) (pointer : ℕ) :
    (insertSection s table).filter (fun t => t.pointerToRawData = pointer) =
      [s].filter (fun t => t.pointerToRawData = pointer) ++
        table.filter fun t => t.pointerToRawData = pointer := by
  induction table with
  | nil => rw [insertSection, List.filter_nil, List.append_nil]
  | cons t table ih =>
    unfold insertSection
    split
    · rw [List.filter_cons, ih, List.filter_cons (x := t)]
      by_cases hs : s.pointerToRawData = pointer
      · have ht : t.pointerToRawData ≠ pointer := by omega
        simp [hs, ht]
      · simp [hs]
    · exact List.filter_append [s] (t :: table)

/-- The loop sorts what it is given into the table. -/
theorem sortSections_spec
    (h : sortSections base datasize context sections sum table = .ok table')
    (htable : table.Pairwise fun s t => t.pointerToRawData ≤ s.pointerToRawData) :
    table'.Perm (sections ++ table) ∧
      (table'.Pairwise fun s t => s.pointerToRawData ≤ t.pointerToRawData) ∧
      ∀ pointer, table'.filter (fun s => s.pointerToRawData = pointer) =
        (table.filter fun s => s.pointerToRawData = pointer).reverse ++
          sections.filter fun s => s.pointerToRawData = pointer := by
  induction sections generalizing sum table with
  | nil =>
    obtain rfl := Except.ok.inj h
    refine ⟨List.reverse_perm table, List.pairwise_reverse.mpr htable, fun pointer => ?_⟩
    rw [List.filter_reverse, List.filter_nil, List.append_nil]
  | cons s sections ih =>
    unfold sortSections at h
    obtain ⟨_, -, h⟩ := exists_of_bind_ok h
    obtain ⟨_, -, h⟩ := exists_of_bind_ok h
    obtain ⟨hperm, hsorted, hstable⟩ := ih h (insertSection_pairwise htable)
    refine ⟨?_, hsorted, fun pointer => ?_⟩
    · have hinsert := (insertSection_perm s table).append_left sections
      exact (hperm.trans hinsert).trans List.perm_middle
    · rw [hstable, filter_insertSection, List.reverse_append, List.append_assoc]
      congr 1
      by_cases hs : s.pointerToRawData = pointer <;> simp [hs]

/-- The sections are sorted, and equal ones stay in their order. -/
theorem stablySorted_of_sortSections
    (h : sortSections base datasize context sections sum [] = .ok table') :
    StablySorted sections table' := by
  obtain ⟨hperm, hsorted, hstable⟩ := sortSections_spec h .nil
  exact ⟨by simpa using hperm, hsorted, fun pointer => by simpa using hstable pointer⟩

end Sorting

/-! ## The pieces of the stream -/

/-- A stretch, byte by byte. -/
theorem bytes_eq_map (r : Region) (o n : ℕ) : r.bytes o n = (List.range' o n).map r.byte := by
  rw [Region.bytes, List.range'_eq_map_range, List.map_map]
  rfl

/-- The headers, cut at the fields left out. -/
theorem headerBytes_eq {r : Region} {context : Context}
    (hsum : context.peHdr + 92 ≤ context.secDir)
    (hdir : context.secDir + 8 ≤ context.sizeOfHeaders) :
    headerBytes r context = r.bytes 0 (context.peHdr + 88) ++
      (r.bytes (context.peHdr + 92) (context.secDir - (context.peHdr + 92)) ++
        r.bytes (context.secDir + 8) (context.sizeOfHeaders - (context.secDir + 8))) := by
  -- the five pieces of the header, two of which are the fields left out
  have hcut : List.range context.sizeOfHeaders = List.range' 0 (context.peHdr + 88) ++
      (List.range' (context.peHdr + 88) 4 ++
        (List.range' (context.peHdr + 92) (context.secDir - (context.peHdr + 92)) ++
          (List.range' context.secDir 8 ++
            List.range' (context.secDir + 8) (context.sizeOfHeaders - (context.secDir + 8))))) := by
    have hsplit (s m n : ℕ) (h : s + m ≤ n) :
        List.range' s (n - s) = List.range' s m ++ List.range' (s + m) (n - (s + m)) := by
      rw [List.range'_append_1]
      congr 1
      omega
    have hmid := hsplit (context.peHdr + 92) (context.secDir - (context.peHdr + 92))
      context.sizeOfHeaders (by omega)
    rw [Nat.add_sub_cancel' hsum, hsplit context.secDir 8 _ hdir] at hmid
    rw [List.range_eq_range', ← Nat.sub_zero context.sizeOfHeaders,
      hsplit 0 (context.peHdr + 88) _ (by omega), Nat.zero_add,
      hsplit (context.peHdr + 88) 4 _ (by omega), hmid, Nat.sub_zero]
  have hkeep (o n : ℕ) (h : ∀ i, o ≤ i → i < o + n →
      ¬ (context.peHdr + 88 ≤ i ∧ i < context.peHdr + 92) ∧
        ¬ (context.secDir ≤ i ∧ i < context.secDir + 8)) :
      (List.range' o n).filter (fun i => ¬ (context.peHdr + 88 ≤ i ∧ i < context.peHdr + 92) ∧
        ¬ (context.secDir ≤ i ∧ i < context.secDir + 8)) = List.range' o n := by
    refine List.filter_eq_self.mpr fun i hi => ?_
    obtain ⟨hle, hlt⟩ := List.mem_range'_1.mp hi
    exact decide_eq_true (h i hle hlt)
  have hdrop (o n : ℕ) (h : ∀ i, o ≤ i → i < o + n →
      (context.peHdr + 88 ≤ i ∧ i < context.peHdr + 92) ∨
        (context.secDir ≤ i ∧ i < context.secDir + 8)) :
      (List.range' o n).filter (fun i => ¬ (context.peHdr + 88 ≤ i ∧ i < context.peHdr + 92) ∧
        ¬ (context.secDir ≤ i ∧ i < context.secDir + 8)) = [] := by
    refine List.filter_eq_nil_iff.mpr fun i hi => ?_
    obtain ⟨hle, hlt⟩ := List.mem_range'_1.mp hi
    have := h i hle hlt
    rw [decide_eq_true_eq]
    tauto
  rw [headerBytes, hcut]
  simp only [List.filter_append]
  rw [hkeep 0 _ (by intro i _ hi; omega), hdrop _ 4 (by intro i hle hi; omega),
    hkeep (context.peHdr + 92) _ (by intro i hle hi; omega), hdrop _ 8 (by intro i hle hi; omega),
    hkeep (context.secDir + 8) _ (by intro i hle hi; omega)]
  simp only [List.nil_append, List.map_append, bytes_eq_map]

section Pieces

variable {r : Region} {base datasize sum sum' : ℕ} {context : Context} {chunk : Chunk}
  {sections table table' : List SectionHeader} {chunks : List Chunk}

/-- A chunk that is fed to the digests lies in the file. -/
theorem allSound_feed_bind {β : Type} {f : Chunk → Traced EfiStatus β} {chunk' : Chunk}
    (h : checkSize datasize chunk = .ok chunk') :
    AllSound datasize (feed datasize chunk >>= f).events ↔ AllSound datasize (f chunk).events := by
  obtain ⟨rfl, hle⟩ := checkSize_ok h
  have hfeed : AllSound datasize (feed datasize chunk').events := by
    rw [feed, Traced.allSound_lift_bind h]
    exact Traced.allSound_event_bind.mpr ⟨.inr hle, Traced.allSound_pure⟩
  rw [Traced.allSound_bind ((result_feed datasize chunk').trans h)]
  exact and_iff_right hfeed

/-- A check that was passed leaves the rest. -/
theorem allSound_check_bind {β : Type} {c : Prop} [Decidable c] {e : EfiStatus} {u : Unit}
    {f : Unit → Traced EfiStatus β} (h : failIf c e = .ok u) :
    AllSound datasize (check c e >>= f).events ↔ AllSound datasize (f ()).events :=
  Traced.allSound_lift_bind h

/-- The chunks of the headers, where these are in order. -/
theorem hashHeaders_spec (h : hashHeaders datasize context = .ok chunks)
    (hsum : context.peHdr + 92 ≤ context.secDir)
    (hdir : context.secDir + 8 ≤ context.sizeOfHeaders) (hlt : context.sizeOfHeaders < 2 ^ 32) :
    AllSound datasize (hashHeadersTraced datasize context).events ∧
      chunkBytes r chunks = headerBytes r context ∧ ∀ c ∈ chunks, c.1 + c.2 ≤ datasize := by
  unfold hashHeaders at h
  obtain ⟨start, hstart, h⟩ := exists_of_bind_ok h
  obtain ⟨middle, hmiddle, h⟩ := exists_of_bind_ok h
  obtain ⟨_, hcheck, h⟩ := exists_of_bind_ok h
  obtain ⟨rest, hrest, h⟩ := exists_of_bind_ok h
  obtain rfl := Except.ok.inj h
  have hsound : AllSound datasize (hashHeadersTraced datasize context).events := by
    unfold hashHeadersTraced
    rw [allSound_feed_bind hstart]
    refine Traced.allSound_event_bind.mpr ⟨hsum, ?_⟩
    rw [allSound_feed_bind hmiddle]
    refine Traced.allSound_event_bind.mpr ⟨hdir, ?_⟩
    rw [allSound_check_bind hcheck, allSound_feed_bind hrest]
    exact Traced.allSound_pure
  obtain ⟨rfl, hstart_le⟩ := checkSize_ok hstart
  obtain ⟨rfl, hmiddle_le⟩ := checkSize_ok hmiddle
  obtain ⟨rfl, hrest_le⟩ := checkSize_ok hrest
  refine ⟨hsound, ?_, ?_⟩
  -- the differences do not wrap, so the chunks are the pieces
  · rw [headerBytes_eq hsum hdir, sub32_of_le hsum (by omega), sub32_of_le hdir hlt]
    simp [chunkBytes]
  · intro c hc
    simp only [List.mem_cons, List.not_mem_nil, or_false] at hc
    rcases hc with rfl | rfl | rfl
    · exact hstart_le
    · exact hmiddle_le
    · exact hrest_le

/-- An image without sections has the place of the section before its first computed. -/
theorem allSound_checkNoSectionsTraced (h : checkNoSections r datasize context = .ok ()) :
    AllSound datasize (checkNoSectionsTraced r datasize context).events ↔
      context.numberOfSections ≠ 0 := by
  obtain ⟨_, hfirst, hlast⟩ := exists_of_bind_ok h
  unfold checkNoSectionsTraced
  rw [allSound_check_bind hfirst]
  by_cases hzero : context.numberOfSections = 0
  · simp only [Traced.eventWhen, if_pos hzero]
    refine iff_of_false (fun hsound => ?_) (not_not.mpr hzero)
    have hwrap := (Traced.allSound_event_bind.mp hsound).1
    simp only [Event.sound_subtract] at hwrap
    omega
  · simp only [Traced.eventWhen, if_neg hzero]
    refine iff_of_true ?_ hzero
    rw [Traced.allSound_bind (a := ()) rfl]
    exact ⟨Event.allSound_nil, Event.allSound_nil⟩

/-- The validation of the sections wraps nothing but the end of a section. -/
theorem allSound_sortSectionsTraced
    (h : sortSections base datasize context sections sum table = .ok table')
    (hheaders : context.sizeOfHeaders ≤ datasize) (hlt : datasize < 2 ^ 32)
    (hsum : context.sizeOfHeaders + sum ≤ datasize) :
    AllSound datasize (sortSectionsTraced base datasize context sections sum table).events ↔
      ∀ s ∈ sections, (s.virtualAddress + s.virtualSize) % 2 ^ 32 ≠ 0 := by
  induction sections generalizing sum table with
  | nil => exact iff_of_true Traced.allSound_pure (fun _ hs => absurd hs List.not_mem_nil)
  | cons s sections ih =>
    unfold sortSections at h
    obtain ⟨_, hvma, h⟩ := exists_of_bind_ok h
    obtain ⟨_, hfits, h⟩ := exists_of_bind_ok h
    have hraw := not_of_failIf_ok hfits
    have hsub : sub32 datasize context.sizeOfHeaders = datasize - context.sizeOfHeaders :=
      sub32_of_le hheaders hlt
    rw [hsub, sub32_of_le (by omega) (by omega)] at hraw
    have hadd : add32 sum s.sizeOfRawData = sum + s.sizeOfRawData := Nat.mod_eq_of_lt (by omega)
    unfold sortSectionsTraced
    rw [Traced.subtract, Traced.allSound_event_bind, Traced.allSound_lift_bind hvma,
      Traced.subtract, Traced.allSound_event_bind, Traced.subtract, Traced.allSound_event_bind,
      allSound_check_bind hfits, hadd, ih (hadd ▸ h) (by omega), List.forall_mem_cons, hsub]
    simp only [Event.sound_subtract, add32]
    constructor
    · rintro ⟨hend, -, -, hrest⟩
      exact ⟨by omega, hrest⟩
    · rintro ⟨hend, hrest⟩
      exact ⟨by omega, hheaders, by omega, hrest⟩

/-- An address in the image is below its size. -/
theorem lt_of_imageAddress_ne_none {size address : ℕ}
    (h : imageAddress base size address ≠ none) : address < size := by
  by_contra hge
  exact h (if_pos (not_lt.mp hge))

/-- The loop over the sorted sections feeds their raw data in order. -/
theorem hashSections_spec (h : hashSections base datasize table sum = .ok (chunks, sum')) :
    AllSound datasize (hashSectionsTraced base datasize table sum).events ∧
      chunkBytes r chunks = sectionBytes r table ∧ ∀ c ∈ chunks, c.1 + c.2 ≤ datasize := by
  induction table generalizing sum sum' chunks with
  | nil =>
    obtain ⟨rfl, -⟩ := Prod.mk.inj (Except.ok.inj h)
    exact ⟨Traced.allSound_pure, rfl, fun c hc => absurd hc List.not_mem_nil⟩
  | cons s table ih =>
    unfold hashSections at h
    by_cases hraw : s.sizeOfRawData = 0
    -- a section without raw data adds nothing
    · rw [if_pos hraw] at h
      obtain ⟨hsound, hbytes, hin⟩ := ih h
      refine ⟨?_, ?_, hin⟩
      · rw [hashSectionsTraced, if_pos hraw]
        exact hsound
      · simpa [sectionBytes, hraw] using hbytes
    · rw [if_neg hraw] at h
      obtain ⟨_, haddress, h⟩ := exists_of_bind_ok h
      obtain ⟨_, hsize, h⟩ := exists_of_bind_ok h
      obtain ⟨chunk, hchunk, h⟩ := exists_of_bind_ok h
      obtain ⟨⟨chunks', sum''⟩, hrest, h⟩ := exists_of_bind_ok h
      obtain ⟨rfl, rfl⟩ : chunk :: chunks' = chunks ∧ sum'' = sum' :=
        Prod.mk.inj (Except.ok.inj h)
      obtain ⟨hsound, hbytes, hin⟩ := ih hrest
      -- the section was checked, so its raw data lie in the file
      have hpointer := lt_of_imageAddress_ne_none (not_of_failIf_ok haddress)
      refine ⟨?_, ?_, ?_⟩
      · rw [hashSectionsTraced, if_neg hraw, allSound_check_bind haddress, Traced.subtract,
          Traced.allSound_event_bind, allSound_check_bind hsize, allSound_feed_bind hchunk,
          Traced.allSound_bind ((result_hashSectionsTraced _ _ _ _).trans hrest)]
        exact ⟨hpointer.le, hsound, Traced.allSound_pure⟩
      · obtain ⟨rfl, -⟩ := checkSize_ok hchunk
        simpa [chunkBytes, sectionBytes, hraw] using hbytes
      · intro c hc
        rcases List.mem_cons.mp hc with rfl | hc
        · obtain ⟨rfl, hle⟩ := checkSize_ok hchunk
          exact hle
        · exact hin c hc

/-- The rest of the file goes up to a certificate table that ends it. -/
theorem hashRest_spec (h : hashRest r datasize context sum = .ok chunks) (hlt : datasize < 2 ^ 32) :
    AllSound datasize (hashRestTraced r datasize context sum).events ∧
      (∀ c ∈ chunks, c.1 + c.2 ≤ datasize) ∧
      chunkBytes r chunks = (if sum < datasize ∧ r.u32 (context.secDir + 4) ≠ 0 then
        r.bytes sum (r.u32 context.secDir - sum) else []) ∧
      (sum < datasize ∧ r.u32 (context.secDir + 4) ≠ 0 → sum ≤ r.u32 context.secDir ∧
        r.u32 context.secDir + r.u32 (context.secDir + 4) = datasize) := by
  unfold hashRest at h
  dsimp only at h
  by_cases hcond : sum < datasize ∧ r.u32 (context.secDir + 4) ≠ 0
  · rw [if_pos hcond] at h
    obtain ⟨_, hcheck, h⟩ := exists_of_bind_ok h
    obtain ⟨chunk, hchunk, h⟩ := exists_of_bind_ok h
    obtain rfl := Except.ok.inj h
    -- the table is no larger than the file, and the rest ends in front of it
    obtain ⟨hsize, hend⟩ := not_or.mp (not_of_failIf_ok hcheck)
    have hsub : sub32 datasize (r.u32 (context.secDir + 4)) =
        datasize - r.u32 (context.secDir + 4) := sub32_of_le (by omega) hlt
    have hhash : sub32 (datasize - r.u32 (context.secDir + 4)) sum =
        datasize - r.u32 (context.secDir + 4) - sum := sub32_of_le (by omega) (by omega)
    have hsound : AllSound datasize (hashRestTraced r datasize context sum).events := by
      unfold hashRestTraced
      dsimp only
      rw [if_pos hcond, Traced.subtract, Traced.allSound_event_bind, Traced.subtract,
        Traced.allSound_event_bind, Traced.subtract, Traced.allSound_event_bind,
        allSound_check_bind hcheck, allSound_feed_bind hchunk, hsub]
      simp only [Event.sound_subtract]
      exact ⟨by omega, by omega, by omega, Traced.allSound_pure⟩
    rw [hsub, hhash] at hend hchunk
    -- so the certificate table reaches to the end of the file
    have hva : r.u32 context.secDir = datasize - r.u32 (context.secDir + 4) := by
      rw [add32, Nat.mod_eq_of_lt (by omega)] at hend
      omega
    obtain ⟨rfl, hle⟩ := checkSize_ok hchunk
    refine ⟨hsound, ?_, ?_, fun _ => by omega⟩
    · intro c hc
      rw [List.mem_singleton.mp hc]
      exact hle
    · rw [if_pos hcond, hva]
      simp [chunkBytes]
  · rw [if_neg hcond] at h
    obtain rfl := Except.ok.inj h
    refine ⟨?_, fun c hc => absurd hc List.not_mem_nil, ?_, fun hpos => absurd hpos hcond⟩
    · unfold hashRestTraced
      dsimp only
      rw [if_neg hcond]
      exact Traced.allSound_pure
    · rw [if_neg hcond]
      rfl

end Pieces

/-! ## The whole -/

/-- The digest is taken over the stream: the headers, the sections and the rest. Everything that is
fed to it lies in the file, no subtraction wraps, and where there is a rest, the certificate table
ends the file. -/
structure HashesStream (r : Region) (datasize : ℕ) (context : Context) (chunks : List Chunk) :
    Prop where
  stream : ∃ table, StablySorted (sectionHeaders r context) table ∧
    chunkBytes r chunks =
      headerBytes r context ++ sectionBytes r table ++ restBytes r datasize context
  inside : ∀ c ∈ chunks, c.1 + c.2 ≤ datasize
  noWrap : AllSound datasize (generateHashTraced r datasize context).events
  tableAtEnd : HasRest r datasize context → hashedEnd r context ≤ r.u32 context.secDir ∧
    r.u32 context.secDir + r.u32 (context.secDir + 4) = datasize

/-- There is a section, and no section ends at a multiple of 4 GiB. -/
structure NoWrappingEnd (r : Region) (context : Context) : Prop where
  sections : context.numberOfSections ≠ 0
  ends : ∀ s ∈ sectionHeaders r context, (s.virtualAddress + s.virtualSize) % 2 ^ 32 ≠ 0

/-- What `generate_hash` hashes of some front of a file is the stream exactly if there is a section
and none ends at a multiple of 4 GiB; only that no subtraction wraps depends on it. -/
theorem hashesStream_iff {p : Platform} {A : PeFile} {datasize : ℕ} {context : Context}
    {chunks : List Chunk} (hread : readHeader p A.toRegion = .ok context)
    (hhash : generateHash A.toRegion datasize context = .ok chunks) (hle : datasize ≤ A.size) :
    HashesStream A.toRegion datasize context chunks ↔ NoWrappingEnd A.toRegion context := by
  obtain ⟨-, hsec, hdir, hheaders⟩ := layout_of_generateHash hread hhash hle
  have hlt : datasize < 2 ^ 32 := lt_of_le_of_lt hle A.size_lt
  -- the steps of the digest, each with its result
  unfold generateHash at hhash
  obtain ⟨_, hdos, h⟩ := exists_of_bind_ok hhash
  obtain ⟨headers, hhead, h⟩ := exists_of_bind_ok h
  obtain ⟨_, hnone, h⟩ := exists_of_bind_ok h
  obtain ⟨table, htable, h⟩ := exists_of_bind_ok h
  obtain ⟨⟨sections, sum⟩, hsections, h⟩ := exists_of_bind_ok h
  obtain ⟨rest, hrest, h⟩ := exists_of_bind_ok h
  obtain rfl := Except.ok.inj h
  obtain ⟨hraw, hsum_le⟩ := rawBytes_of_sortSections htable hheaders hlt (by omega)
  have hnil : rawBytes [] = 0 := rfl
  obtain ⟨hsum, -⟩ := sections_of_hashSections hsections (by omega)
  -- the sections end where the raw data of all of them end
  have hend : sum = hashedEnd A.toRegion context := by
    rw [hsum, hraw, hnil, Nat.add_zero]
    rfl
  obtain ⟨hheadSound, hheadBytes, hheadIn⟩ :=
    hashHeaders_spec (r := A.toRegion) hhead (by omega) hdir (by omega)
  obtain ⟨hsectionSound, hsectionBytes, hsectionIn⟩ := hashSections_spec (r := A.toRegion) hsections
  obtain ⟨hrestSound, hrestIn, hrestBytes, hatEnd⟩ := hashRest_spec hrest hlt
  rw [hend] at hrestBytes hatEnd
  -- every other access is sound, so the ends that may wrap decide
  have hwrap : AllSound datasize (generateHashTraced A.toRegion datasize context).events ↔
      NoWrappingEnd A.toRegion context := by
    unfold generateHashTraced
    rw [allSound_check_bind hdos,
      Traced.allSound_bind ((result_hashHeadersTraced _ _).trans hhead),
      Traced.allSound_bind ((result_checkNoSectionsTraced _ _ _).trans hnone),
      Traced.allSound_bind ((result_sortSectionsTraced _ _ _ _ _ _).trans htable),
      Traced.allSound_bind ((result_hashSectionsTraced _ _ _ _).trans hsections),
      Traced.allSound_bind ((result_hashRestTraced _ _ _ _).trans hrest),
      allSound_checkNoSectionsTraced hnone, allSound_sortSectionsTraced htable hheaders hlt hheaders]
    constructor
    · rintro ⟨-, hsome, hends, -⟩
      exact ⟨hsome, hends⟩
    · rintro ⟨hsome, hends⟩
      exact ⟨hheadSound, hsome, hends, hsectionSound, hrestSound, Traced.allSound_pure⟩
  constructor
  · intro hstream
    exact hwrap.mp hstream.noWrap
  · intro hends
    refine ⟨⟨table, stablySorted_of_sortSections htable, ?_⟩, ?_, hwrap.mpr hends, hatEnd⟩
    -- the chunks of the three steps are the stream
    · have happend : chunkBytes A.toRegion (headers ++ sections ++ rest) =
          chunkBytes A.toRegion headers ++ chunkBytes A.toRegion sections ++
            chunkBytes A.toRegion rest := by
        simp [chunkBytes]
      rw [happend, hheadBytes, hsectionBytes, hrestBytes]
      rfl
    · intro c hc
      rcases List.mem_append.mp hc with hc | hc
      · rcases List.mem_append.mp hc with hc | hc
        · exact hheadIn c hc
        · exact hsectionIn c hc
      · exact hrestIn c hc

theorem unsortedFile_size_lt : 376 < 2 ^ 32 := by decide

/-- An image of two sections, the raw data of the second one first, with eight bytes behind them and
a certificate table of eight bytes at the end. -/
def unsortedFile : PeFile where
  toRegion := .ofFields 0x10000 376
    [(0, [0x4d, 0x5a]), (60, [64]), (64, [0x50, 0x45]), (68, [0x64, 0x86]), (70, [2]), (84, [160]),
     (88, [0x0b, 0x02]), (104, [0x00, 0x10]), (144, [0x00, 0x30]), (148, [0x48, 0x01]), (196, [6]),
     (232, [0x70, 0x01]), (236, [8]),
     (256, [0x10]), (260, [0x00, 0x10]), (264, [16]), (268, [0x58, 0x01]), (287, [0x60]),
     (296, [0x10]), (300, [0x00, 0x20]), (304, [16]), (308, [0x48, 0x01]), (327, [0x40]),
     (328, [1, 2, 3]), (344, [4, 5, 6]), (360, [7, 8, 9])]
  size_lt := unsortedFile_size_lt
  room := PeFile.low_room

/-- Its sections are hashed in the order of their raw data, and the table is left out. -/
theorem hashesStream_unsortedFile :
    HashesStream unsortedFile.toRegion unsortedFile.size (contextAt unsortedFile.toRegion 64)
      [(0, 152), (156, 76), (240, 88), (328, 16), (344, 16), (360, 8)] :=
  (hashesStream_iff (p := platformX64) (by decide +kernel) (by decide +kernel) le_rfl).mpr
    ⟨by decide +kernel, by decide +kernel⟩

/-- An image without sections is hashed, after the address of `section0[-1]` was computed by a
subtraction that wraps. -/
theorem not_hashesStream_signedFile :
    Accepted platformX64 signedFile signedContext [(0, 152), (156, 76), (240, 0), (240, 96)] ∧
      ¬ HashesStream signedFile.toRegion signedFile.size signedContext
        [(0, 152), (156, 76), (240, 0), (240, 96)] := by
  refine ⟨⟨by decide +kernel, by decide +kernel⟩, fun h => ?_⟩
  have hwraps : ¬ ∀ e ∈ (generateHashTraced signedFile.toRegion signedFile.size signedContext).events,
      e.Sound signedFile.size := by decide +kernel
  exact hwraps h.noWrap

end Shim
