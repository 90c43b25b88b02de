import Shim.Efi.SignatureList

/-! # Lookup and membership

A database is well formed when it is some signature lists, laid out one behind the other. What
`check_db_hash_in_ram` and `check_db_cert_in_ram` find in it is compared with what its lists hold.
The search for a hash looks at every signature of every list. The search for a certificate looks
at the place of the first one, also where a list has none.
-/

namespace Shim

open Bytes (sub64 sub64_of_le)

/-- An `EFI_SIGNATURE_LIST` with a list header in front of its signatures. -/
structure HeadedList extends SignatureList where
  listHeader : List UInt8
  fits : toSignatureList.listSize + listHeader.length < 2 ^ 32

namespace HeadedList

variable (l : HeadedList)

/-- `SignatureListSize`. -/
def fullSize : ℕ := l.listSize + l.listHeader.length

/-- The four fields of the list. -/
def fields : List UInt8 :=
  l.type ++ Region.le32 l.fullSize ++ Region.le32 l.listHeader.length ++ Region.le32 l.size

def encodeFull : List UInt8 :=
  l.fields ++ (l.listHeader ++ l.sigs.flatMap SignatureData.encode)

end HeadedList

/-- The bytes of some lists. -/
def encodeLists (ls : List HeadedList) : List UInt8 := ls.flatMap HeadedList.encodeFull

/-- The lists with the offsets at which they lie, the first at `o`. -/
def placed (o : ℕ) : List HeadedList → List (ℕ × HeadedList)
  | [] => []
  | l :: ls => (o, l) :: placed (o + l.fullSize) ls

/-- A well-formed signature database in memory. -/
structure Database where
  region : Region
  lists : List HeadedList
  size_eq : region.size = (encodeLists lists).length
  holds : region.HoldsAt 0 (encodeLists lists)

/-- A certificate that the check takes: its DER length fits, and with it the signature verifies. -/
def Acceptable (verifies : List UInt8 → Bool) (cert : List UInt8) : Bool :=
  verifyX509 (Region.ofList 0 cert) 0 cert.length && verifies cert

namespace Database

variable (verifies : List UInt8 → Bool) (db : Database)

/-- Some list of the type holds the hash. -/
def HoldsHash (hash type : List UInt8) : Prop :=
  ∃ l ∈ db.lists, l.type = type ∧ ∃ s ∈ l.sigs, s.data = hash

/-- Some X.509 list holds an acceptable certificate. -/
def HoldsCert : Prop :=
  ∃ l ∈ db.lists, l.type = certTypeX509Guid ∧ ∃ s ∈ l.sigs, Acceptable verifies s.data

/-- Lookup is membership: the two searches come back and find what the database holds. The lists of
the type of a hash have signatures of the size of the hash. -/
structure LookupIsMembership : Prop where
  hash : ∀ hash type, (∀ l ∈ db.lists, l.type = type → l.size = 16 + hash.length) →
    ∃ s, checkDbHashInRam db.region hash type = some s ∧
      (s = .dataFound ↔ db.HoldsHash hash type)
  cert : ∃ s, checkDbCertInRam verifies db.region = some s ∧
    (s = .dataFound ↔ db.HoldsCert verifies)

/-- The first signature of some X.509 list is an acceptable certificate. -/
def CertFirst : Prop :=
  ∃ l ∈ db.lists, l.type = certTypeX509Guid ∧ ∃ s ∈ l.sigs.head?, Acceptable verifies s.data

/-- A signature of some X.509 list other than its first is an acceptable certificate. -/
def CertLater : Prop :=
  ∃ l ∈ db.lists, l.type = certTypeX509Guid ∧ ∃ s ∈ l.sigs.tail, Acceptable verifies s.data

/-- What lies behind some empty X.509 list reads as an acceptable certificate. -/
def CertBehind : Prop :=
  ∃ p ∈ placed 0 db.lists, p.2.type = certTypeX509Guid ∧ p.2.sigs = [] ∧
    Acceptable verifies (db.region.bytes (p.1 + p.2.fullSize + 16) (p.2.size - 16))

end Database

/-! ## The fields of a list -/

section Fields

variable {l : HeadedList} {d : Region} {o : ℕ}

/-- The fields in front of a list take 28 bytes. -/
@[simp] theorem HeadedList.length_fields : l.fields.length = 28 := by
  simp [HeadedList.fields, l.type_length]

/-- A list takes as many bytes as its size says. -/
@[simp] theorem HeadedList.length_encodeFull : l.encodeFull.length = l.fullSize := by
  have hsigs := length_flatMap_encode fun s hs => l.length_encode_of_mem hs
  simp only [HeadedList.encodeFull, HeadedList.fullSize, SignatureList.listSize,
    List.length_append, l.length_fields, hsigs]
  omega

/-- A list is no shorter than its fields. -/
theorem HeadedList.le_fullSize : 28 ≤ l.fullSize := le_trans l.le_listSize (Nat.le_add_right _ _)

/-- What a list that was laid out reads as. -/
structure HeadedList.ReadsAs (l : HeadedList) (d : Region) (o : ℕ) : Prop where
  type : signatureType d o = l.type
  listSize : signatureListSize d o = l.fullSize
  headerSize : signatureHeaderSize d o = l.listHeader.length
  size : signatureSize d o = l.size
  sigs : d.HoldsAt (o + 28 + l.listHeader.length) (l.sigs.flatMap SignatureData.encode)

/-- A list that is held is read with its own fields. -/
theorem HeadedList.readsAs (h : d.HoldsAt o l.encodeFull) : l.ReadsAs d o := by
  have hfits := l.fits
  have hheader : l.listHeader.length < 2 ^ 32 := by omega
  rw [HeadedList.encodeFull, Region.holdsAt_append, Region.holdsAt_append, l.length_fields] at h
  obtain ⟨hfields, -, hsigs⟩ := h
  simp only [HeadedList.fields, Region.holdsAt_append, List.length_append, Region.length_le32,
    l.type_length, Nat.reduceAdd] at hfields
  obtain ⟨⟨⟨htype, hlist⟩, hhead⟩, hsize⟩ := hfields
  exact ⟨htype.bytes l.type_length, hlist.u32 hfits, hhead.u32 hheader, hsize.u32 l.size_lt, hsigs⟩

namespace HeadedList.ReadsAs

variable (h : l.ReadsAs d o)

include h

/-- The count is that of the signatures. -/
theorem certCount_eq : certCount d o = l.sigs.length := by
  have hfits : l.fullSize < 2 ^ 32 := l.fits
  have hpos : 0 < l.size := lt_trans (by decide) l.size_gt
  have hfull : l.fullSize = 28 + l.sigs.length * l.size + l.listHeader.length := rfl
  rw [certCount, h.listSize, h.headerSize, h.size, sub64_of_le l.le_fullSize (by omega),
    sub64_of_le (by omega) (by omega), hfull,
    show 28 + l.sigs.length * l.size + l.listHeader.length - 28 - l.listHeader.length
      = l.sigs.length * l.size by omega, Nat.mul_div_cancel _ hpos]

/-- The size of the data is that of a signature without its owner. -/
theorem certSize_eq : certSize d o = l.size - 16 := by
  rw [certSize, h.size, sub64_of_le l.size_gt.le (lt_trans l.size_lt (by decide))]

/-- The data of a signature stands at the place of its index. -/
theorem data_eq {i : ℕ} (hi : i < l.sigs.length) :
    d.bytes (signatureAt d o i + 16) (l.size - 16) = (l.sigs[i]).data := by
  have hat := holdsAt_flatMap_encode (fun s hs => l.length_encode_of_mem hs) h.sigs hi
  obtain ⟨howner, hlen⟩ := l.uniform l.sigs[i] (List.getElem_mem hi)
  rw [SignatureData.encode, Region.holdsAt_append, howner] at hat
  rw [signatureAt, h.headerSize, h.size, hat.2.bytes (by omega)]

/-- A hash is found by its index exactly if a signature has it. -/
theorem exists_hash_iff {hash : List UInt8} (hsize : l.size = 16 + hash.length) :
    (∃ index < certCount d o, d.bytes (signatureAt d o index + 16) hash.length = hash) ↔
      ∃ s ∈ l.sigs, s.data = hash := by
  have hlen : l.size - 16 = hash.length := by omega
  rw [h.certCount_eq]
  constructor
  · rintro ⟨i, hi, heq⟩
    exact ⟨l.sigs[i], List.getElem_mem hi, by rw [← h.data_eq hi, hlen, heq]⟩
  · rintro ⟨s, hs, rfl⟩
    obtain ⟨i, hi, rfl⟩ := List.getElem_of_mem hs
    exact ⟨i, hi, by rw [← hlen, h.data_eq hi]⟩

end HeadedList.ReadsAs

end Fields

/-! ## The chain of lists -/

section Chain

variable {d : Region} {o fuel dbsize : ℕ} {ls : List HeadedList} {hit : ℕ → Option Bool}

/-- The lists lie one behind the other. -/
@[simp] theorem encodeLists_cons (l : HeadedList) (ls : List HeadedList) :
    encodeLists (l :: ls) = l.encodeFull ++ encodeLists ls := rfl

/-- Every list has its place. -/
theorem exists_placed {l : HeadedList} (hl : l ∈ ls) (o : ℕ) : ∃ o', (o', l) ∈ placed o ls := by
  induction ls generalizing o with
  | nil => cases hl
  | cons l' ls ih =>
    rcases List.mem_cons.mp hl with rfl | hl
    · exact ⟨o, List.mem_cons_self⟩
    · obtain ⟨o', ho'⟩ := ih hl (o + l'.fullSize)
      exact ⟨o', List.mem_cons_of_mem _ ho'⟩

/-- The list of a place is one of the lists, and it reads as such. -/
theorem of_mem_placed (h : d.HoldsAt o (encodeLists ls)) {p : ℕ × HeadedList}
    (hp : p ∈ placed o ls) : p.2 ∈ ls ∧ p.2.ReadsAs d p.1 := by
  induction ls generalizing o with
  | nil => cases hp
  | cons l ls ih =>
    rw [encodeLists_cons, Region.holdsAt_append, l.length_encodeFull] at h
    rcases List.mem_cons.mp hp with rfl | hp
    · exact ⟨List.mem_cons_self, HeadedList.readsAs h.1⟩
    · obtain ⟨hmem, hreads⟩ := ih h.2 hp
      exact ⟨List.mem_cons_of_mem _ hmem, hreads⟩

/-- The chain of `SignatureListSize` leads to the lists that were laid out. -/
theorem signatureListsFrom_eq (h : d.HoldsAt o (encodeLists ls))
    (hfuel : (encodeLists ls).length ≤ fuel) :
    signatureListsFrom d fuel o (encodeLists ls).length = (placed o ls).map Prod.fst := by
  induction ls generalizing o fuel with
  | nil => cases fuel <;> simp [signatureListsFrom, placed, encodeLists]
  | cons l ls ih =>
    rw [encodeLists_cons, Region.holdsAt_append, l.length_encodeFull] at h
    simp only [encodeLists_cons, List.length_append, l.length_encodeFull] at hfuel ⊢
    have hle := l.le_fullSize
    obtain ⟨fuel, rfl⟩ : ∃ k, fuel = k + 1 := ⟨fuel - 1, by omega⟩
    rw [signatureListsFrom, (HeadedList.readsAs h.1).listSize, if_pos (by omega),
      Nat.add_sub_cancel_left, ih h.2 (by omega), placed, List.map_cons]

/-- The walk comes back when every list has a size and every turn does. -/
theorem exists_scanDb (h : ∀ l ∈ signatureListsFrom d fuel o dbsize,
    hit l ≠ none ∧ signatureListSize d l ≠ 0) : ∃ s, scanDb hit d fuel o dbsize = some s := by
  induction fuel generalizing o dbsize with
  | zero => exact ⟨_, rfl⟩
  | succ fuel ih =>
    by_cases hin : 0 < dbsize ∧ signatureListSize d o ≤ dbsize
    · rw [signatureListsFrom, if_pos hin] at h
      obtain ⟨hhit, hsize⟩ := h o List.mem_cons_self
      obtain ⟨b, hb⟩ := Option.ne_none_iff_exists'.mp hhit
      rw [scanDb, if_pos hin, hb]
      cases b with
      | true => exact ⟨_, rfl⟩
      | false =>
        rw [if_neg hsize]
        exact ih fun l hl => h l (List.mem_cons_of_mem _ hl)
    · rw [scanDb, if_neg hin]
      exact ⟨_, rfl⟩

end Chain

/-! ## The two searches -/

/-- A certificate is judged by its bytes. -/
theorem certMatches_eq (verifies : List UInt8 → Bool) (d : Region) (o index : ℕ) :
    certMatches verifies d o index =
      Acceptable verifies (d.bytes (signatureAt d o index + 16) (certSize d o)) := by
  have hx509 (c n : ℕ) : verifyX509 d c n = verifyX509 (Region.ofList 0 (d.bytes c n)) 0 n := by
    by_cases hn : 4 ≤ n
    · have hbyte (i : ℕ) (hi : i < n) : (Region.ofList 0 (d.bytes c n)).byte i = d.byte (c + i) := by
        simp [Region.ofList, Region.bytes, List.getD_eq_getElem?_getD, hi]
      simp only [verifyX509, Nat.zero_add, hbyte 0 (by omega), hbyte 1 (by omega),
        hbyte 2 (by omega), hbyte 3 (by omega), Nat.add_zero]
    · simp [verifyX509, hn]
  rw [certMatches, Acceptable, hx509, Region.length_bytes]

namespace Database

variable {verifies : List UInt8 → Bool} (db : Database)

/-- The walk over the lists comes to the places of all of them. -/
theorem signatureLists_eq : signatureLists db.region = (placed 0 db.lists).map Prod.fst := by
  rw [signatureLists, db.size_eq]
  exact signatureListsFrom_eq db.holds le_rfl

/-- Every list is read at its place. -/
theorem readsAs {p : ℕ × HeadedList} (hp : p ∈ placed 0 db.lists) : p.2.ReadsAs db.region p.1 :=
  (of_mem_placed db.holds hp).2

/-- A property of the lists is one of what lies at their places. -/
theorem exists_list_iff {P : HeadedList → Prop} :
    (∃ l ∈ db.lists, P l) ↔ ∃ p ∈ placed 0 db.lists, P p.2 := by
  constructor
  · rintro ⟨l, hl, hP⟩
    obtain ⟨o, ho⟩ := exists_placed hl 0
    exact ⟨(o, l), ho, hP⟩
  · rintro ⟨p, hp, hP⟩
    exact ⟨p.2, (of_mem_placed db.holds hp).1, hP⟩

/-- No turn is caught in a list: it has a size, and its signatures have one. -/
theorem sizes_ne {o : ℕ} (ho : o ∈ signatureLists db.region) :
    signatureSize db.region o ≠ 0 ∧ signatureListSize db.region o ≠ 0 := by
  rw [db.signatureLists_eq] at ho
  obtain ⟨p, hp, rfl⟩ := List.mem_map.mp ho
  have hreads := db.readsAs hp
  have hsize := p.2.size_gt
  have hfull := p.2.le_fullSize
  rw [hreads.size, hreads.listSize]
  omega

/-- The search for a hash finds what the lists of its type hold. -/
theorem hash_lookup {hash type : List UInt8}
    (hsize : ∀ l ∈ db.lists, l.type = type → l.size = 16 + hash.length) :
    ∃ s, checkDbHashInRam db.region hash type = some s ∧
      (s = .dataFound ↔ db.HoldsHash hash type) := by
  obtain ⟨s, hs⟩ : ∃ s, checkDbHashInRam db.region hash type = some s := by
    refine exists_scanDb fun o ho => ⟨?_, (db.sizes_ne ho).2⟩
    simp [hashHit, (db.sizes_ne ho).1]
  refine ⟨s, hs, (checkDbHashInRam_found hs).trans ?_⟩
  rw [HashListed, db.signatureLists_eq, HoldsHash, db.exists_list_iff]
  constructor
  · rintro ⟨_, ho, htype, hlisted⟩
    obtain ⟨p, hp, rfl⟩ := List.mem_map.mp ho
    have hreads := db.readsAs hp
    rw [hreads.type] at htype
    exact ⟨p, hp, htype,
      (hreads.exists_hash_iff (hsize p.2 (of_mem_placed db.holds hp).1 htype)).mp hlisted⟩
  · rintro ⟨p, hp, htype, hlisted⟩
    have hreads := db.readsAs hp
    exact ⟨p.1, List.mem_map_of_mem hp, hreads.type.trans htype,
      (hreads.exists_hash_iff (hsize p.2 (of_mem_placed db.holds hp).1 htype)).mpr hlisted⟩

/-- What the search for a certificate tries in a list: its first signature, or what is behind. -/
theorem certMatches_first {p : ℕ × HeadedList} (hp : p ∈ placed 0 db.lists) :
    certMatches verifies db.region p.1 0 ↔ (∃ s ∈ p.2.sigs.head?, Acceptable verifies s.data) ∨
      (p.2.sigs = [] ∧
        Acceptable verifies (db.region.bytes (p.1 + p.2.fullSize + 16) (p.2.size - 16))) := by
  have hreads := db.readsAs hp
  rw [certMatches_eq, hreads.certSize_eq]
  by_cases hnil : p.2.sigs = []
  · have hat : signatureAt db.region p.1 0 = p.1 + p.2.fullSize := by
      rw [signatureAt, hreads.headerSize, HeadedList.fullSize, SignatureList.listSize, hnil,
        List.length_nil]
      omega
    simp [hat, hnil]
  · have hpos := List.length_pos_iff.mpr hnil
    rw [hreads.data_eq hpos]
    simp [hnil, List.head?_eq_getElem?, List.getElem?_eq_getElem hpos]

/-- The search for a certificate finds a first one, or what lies behind an empty list. -/
theorem cert_lookup (verifies : List UInt8 → Bool) :
    ∃ s, checkDbCertInRam verifies db.region = some s ∧
      (s = .dataFound ↔ db.CertFirst verifies ∨ db.CertBehind verifies) := by
  obtain ⟨s, hs⟩ : ∃ s, checkDbCertInRam verifies db.region = some s :=
    exists_scanDb fun o ho => ⟨by simp [certHit], (db.sizes_ne ho).2⟩
  refine ⟨s, hs, (checkDbCertInRam_found hs).trans ?_⟩
  rw [FirstCertListed, db.signatureLists_eq, CertFirst, db.exists_list_iff]
  constructor
  · rintro ⟨_, ho, htype, hmatch⟩
    obtain ⟨p, hp, rfl⟩ := List.mem_map.mp ho
    rw [(db.readsAs hp).type] at htype
    rcases (db.certMatches_first hp).mp hmatch with hfirst | hbehind
    · exact .inl ⟨p, hp, htype, hfirst⟩
    · exact .inr ⟨p, hp, htype, hbehind⟩
  · rintro (⟨p, hp, htype, hfirst⟩ | ⟨p, hp, htype, hbehind⟩)
    · exact ⟨p.1, List.mem_map_of_mem hp, (db.readsAs hp).type.trans htype,
        (db.certMatches_first hp).mpr (.inl hfirst)⟩
    · exact ⟨p.1, List.mem_map_of_mem hp, (db.readsAs hp).type.trans htype,
        (db.certMatches_first hp).mpr (.inr hbehind)⟩

/-- A certificate that verifies comes first in its list or later. -/
theorem holdsCert_iff (verifies : List UInt8 → Bool) :
    db.HoldsCert verifies ↔ db.CertFirst verifies ∨ db.CertLater verifies := by
  have hsplit (l : HeadedList) : (∃ s ∈ l.sigs, Acceptable verifies s.data) ↔
      (∃ s ∈ l.sigs.head?, Acceptable verifies s.data) ∨
        ∃ s ∈ l.sigs.tail, Acceptable verifies s.data := by
    cases l.sigs <;> simp
  simp only [HoldsCert, CertFirst, CertLater, hsplit, and_or_left, exists_or]

/-- Lookup is membership when a first certificate is found, or when none is held and none is read
behind an empty list. -/
theorem lookupIsMembership_iff (verifies : List UInt8 → Bool) (db : Database) :
    db.LookupIsMembership verifies ↔
      db.CertFirst verifies ∨ (db.CertLater verifies ↔ db.CertBehind verifies) := by
  obtain ⟨s, hs, hfound⟩ := db.cert_lookup verifies
  constructor
  · intro h
    obtain ⟨s', hs', hmember⟩ := h.cert
    obtain rfl : s' = s := Option.some.inj (hs'.symm.trans hs)
    rw [hfound, db.holdsCert_iff] at hmember
    tauto
  · intro h
    refine ⟨fun hash type hsize => db.hash_lookup hsize, s, hs, ?_⟩
    rw [hfound, db.holdsCert_iff]
    tauto

end Database

/-! ## A second certificate -/

/-- An X.509 list of two signatures; their certificates differ in their last byte. -/
def twoCerts : HeadedList where
  type := certTypeX509Guid
  size := 21
  sigs := [⟨List.replicate 16 0, [0x30, 0x82, 0, 1, 1]⟩, ⟨List.replicate 16 0, [0x30, 0x82, 0, 1, 2]⟩]
  type_length := length_certTypeX509Guid
  size_gt := by decide
  size_lt := by decide
  uniform := by decide
  listHeader := []
  fits := by decide

/-- A database of that list. -/
def twoCertsDb : Database where
  region := Region.ofList 0 (encodeLists [twoCerts])
  lists := [twoCerts]
  size_eq := rfl
  holds := by simpa using Region.holdsAt_ofList 0 [] (encodeLists [twoCerts]) []

/-- The certificate that made the signature stands second and is not found. -/
theorem not_lookupIsMembership_twoCerts :
    ¬ twoCertsDb.LookupIsMembership fun cert => cert = [0x30, 0x82, 0, 1, 2] := by
  intro h
  obtain ⟨s, hs, hfound⟩ := h.cert
  have hmissed : checkDbCertInRam (fun cert => cert = [0x30, 0x82, 0, 1, 2]) twoCertsDb.region =
      some .dataNotFound := by decide +kernel
  obtain rfl : s = .dataNotFound := Option.some.inj (hs.symm.trans hmissed)
  have hheld : twoCertsDb.HoldsCert fun cert => cert = [0x30, 0x82, 0, 1, 2] :=
    ⟨twoCerts, List.mem_singleton_self _, rfl, _, List.mem_cons_of_mem _ List.mem_cons_self, rfl⟩
  exact absurd (hfound.mpr hheld) (by decide)

end Shim
