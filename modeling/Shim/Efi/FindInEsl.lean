import Shim.Auth.Walkers
import Shim.Efi.SignatureList
import Shim.Efi.Status

/-! # Reading signature lists

`certlist_for_each_certentry` and `certentry_for_each_cert` (include/variables.h), and `find_in_esl`
(lib/variables.c), on lists that were laid out with their header and signatures of one size. A
signature is a string of bytes here, and may be too short for an owner.
-/

namespace Shim

open Bytes (sub64)

/-! ## The two loops -/

/-- `certentry_for_each_cert`: where the signatures from `c` on start. -/
def certStarts (step : ℕ) (hstep : 0 < step) (c stop : ℕ) : List ℕ :=
  if c < stop then c :: certStarts step hstep (c + step) stop else []
termination_by stop - c

/-- The signatures of the list at `o`. The loop does not come back from signatures of no size. -/
def certsAt (d : Region) (o : ℕ) : List (List UInt8) :=
  if h : 0 < signatureSize d o then
    (certStarts (signatureSize d o) h (signatureAt d o 0) (o + signatureListSize d o)).map fun c =>
      d.bytes c (signatureSize d o)
  else []

/-- The lists of some bytes with their types, by the two loops. -/
def decodeEsl (bytes : List UInt8) : List (List UInt8 × List (List UInt8)) :=
  let d := Region.ofList 0 bytes
  (signatureLists d).map fun o => (signatureType d o, certsAt d o)

/-- `find_in_esl`; `none` where it does not come back. -/
def findInEsl (data key : List UInt8) : Option EfiStatus :=
  let d := Region.ofList 0 data
  (scanDb (fun o => some (findTurn d o key).found) d d.size 0 d.size).map fun status =>
    if status = .dataFound then .success else .notFound

/-! ## A list that was laid out -/

/-- The header of a list of `count` signatures of `size` bytes. -/
def eslHeader (type : List UInt8) (count size : ℕ) : List UInt8 :=
  type ++ Region.le32 (28 + count * size) ++ Region.le32 0 ++ Region.le32 size

/-- A list of signatures of `size` bytes. -/
def esl (type : List UInt8) (size : ℕ) (sigs : List (List UInt8)) : List UInt8 :=
  eslHeader type sigs.length size ++ sigs.flatten

/-- What the loops find at `o` where a list was laid out. -/
structure EslAt (d : Region) (o : ℕ) (type : List UInt8) (size : ℕ) (sigs : List (List UInt8)) :
    Prop where
  type : signatureType d o = type
  listSize : signatureListSize d o = 28 + sigs.length * size
  headerSize : signatureHeaderSize d o = 0
  sigSize : signatureSize d o = size
  pos : 0 < size
  at_index : ∀ i (hi : i < sigs.length), d.bytes (o + 28 + i * size) size = sigs[i]

section Layout

variable {d : Region} {o size : ℕ} {type : List UInt8} {sigs : List (List UInt8)}

/-- Signatures of one size lie one behind the other. -/
theorem length_flatten_of_uniform (h : ∀ s ∈ sigs, s.length = size) :
    sigs.flatten.length = sigs.length * size := by
  rw [List.length_flatten, List.map_congr_left h, List.map_const', List.sum_replicate_nat]

/-- The header of a list takes 28 bytes. -/
theorem length_eslHeader (htype : type.length = 16) (count size : ℕ) :
    (eslHeader type count size).length = 28 := by
  simp [eslHeader, htype]

/-- A list takes its header and its signatures. -/
theorem length_esl (htype : type.length = 16) (h : ∀ s ∈ sigs, s.length = size) :
    (esl type size sigs).length = 28 + sigs.length * size := by
  rw [esl, List.length_append, length_eslHeader htype, length_flatten_of_uniform h]

/-- One of several strings of one length. -/
theorem bytes_of_holdsAt_flatten (h : ∀ s ∈ sigs, s.length = size)
    (hholds : d.HoldsAt o sigs.flatten) (i : ℕ) (hi : i < sigs.length) :
    d.bytes (o + i * size) size = sigs[i] := by
  induction sigs generalizing o i with
  | nil => exact absurd hi (Nat.not_lt_zero _)
  | cons s sigs ih =>
    rw [List.flatten_cons, Region.holdsAt_append, h s List.mem_cons_self] at hholds
    cases i with
    | zero =>
      rw [Nat.zero_mul, Nat.add_zero]
      exact hholds.1.bytes (h s List.mem_cons_self)
    | succ i =>
      have hrest := ih (fun s' hs' => h s' (List.mem_cons_of_mem _ hs')) hholds.2 i
        (Nat.lt_of_succ_lt_succ hi)
      rwa [Nat.add_assoc, Nat.add_comm size, ← Nat.succ_mul] at hrest

/-- A list that is held is read with its own fields. -/
theorem eslAt_of_holdsAt (htype : type.length = 16) (hpos : 0 < size)
    (h : ∀ s ∈ sigs, s.length = size) (hlt : 28 + sigs.length * size < 2 ^ 32)
    (hsize : size < 2 ^ 32) (hholds : d.HoldsAt o (esl type size sigs)) :
    EslAt d o type size sigs := by
  rw [esl, Region.holdsAt_append, length_eslHeader htype] at hholds
  obtain ⟨hheader, hsigs⟩ := hholds
  simp only [eslHeader, Region.holdsAt_append, List.length_append, Region.length_le32, htype,
    Nat.reduceAdd] at hheader
  obtain ⟨⟨⟨htypes, hlist⟩, hnone⟩, hsizes⟩ := hheader
  exact ⟨htypes.bytes htype, hlist.u32 hlt, hnone.u32 (by decide), hsizes.u32 hsize, hpos,
    bytes_of_holdsAt_flatten h hsigs⟩

/-- The loop comes to the start of every signature. -/
theorem certStarts_eq (hsize : 0 < size) (c n : ℕ) :
    certStarts size hsize c (c + n * size) = (List.range n).map fun i => c + i * size := by
  induction n generalizing c with
  | zero => rw [certStarts, if_neg (by omega), List.range_zero, List.map_nil]
  | succ n ih =>
    have hstop : c + (n + 1) * size = c + size + n * size := by
      rw [Nat.succ_mul]
      omega
    rw [certStarts, if_pos (by rw [Nat.succ_mul]; omega), hstop, ih, List.range_succ_eq_map,
      List.map_cons, List.map_map, Nat.zero_mul, Nat.add_zero]
    refine congrArg (c :: ·) (List.map_congr_left fun i _ => ?_)
    rw [Function.comp_apply, Nat.succ_mul]
    omega

variable (h : EslAt d o type size sigs)

include h

/-- The end of a list is that of its last signature. -/
theorem EslAt.stop : o + signatureListSize d o = signatureAt d o 0 + sigs.length * size := by
  rw [h.listSize, signatureAt, h.headerSize]
  omega

/-- The loop over the signatures visits all of them in order. -/
theorem EslAt.certsAt_eq : certsAt d o = sigs := by
  have hpos : 0 < signatureSize d o := h.sigSize.symm ▸ h.pos
  have hstarts : certStarts (signatureSize d o) hpos (signatureAt d o 0)
      (o + signatureListSize d o) =
        (List.range sigs.length).map fun i => o + 28 + i * size := by
    have hstart : signatureAt d o 0 = o + 28 := by
      rw [signatureAt, h.headerSize]
      omega
    rw [h.stop, hstart]
    simp only [h.sigSize, certStarts_eq]
  rw [certsAt, dif_pos hpos, hstarts, List.map_map, h.sigSize]
  refine List.ext_getElem (by simp) fun i _ hi => ?_
  simpa using h.at_index i hi

omit h in
/-- The search in a list meets every signature up to the one it finds. -/
theorem found_findCert {key : List UInt8} {step : ℕ} (hstep : 0 < step) {c stop : ℕ} :
    (findCert d key step hstep c stop).2 = true ↔
      ∃ i, c + i * step < stop ∧ d.bytes (c + i * step + 16) key.length = key := by
  induction c using findCert.induct d key step hstep stop with
  | case1 c hlt hmatch =>
    rw [findCert, if_pos hlt, if_pos hmatch]
    exact iff_of_true rfl ⟨0, by simpa using hlt, by simpa using hmatch⟩
  | case2 c hlt hmatch ih =>
    rw [findCert, if_pos hlt, if_neg hmatch]
    refine ih.trans ⟨?_, ?_⟩
    · rintro ⟨i, hi, hkey⟩
      refine ⟨i + 1, ?_, ?_⟩ <;> rw [Nat.succ_mul, Nat.add_comm (i * step), ← Nat.add_assoc]
      · exact hi
      · exact hkey
    · rintro ⟨i, hi, hkey⟩
      cases i with
      | zero => exact absurd (by simpa using hkey) hmatch
      | succ i =>
        rw [Nat.succ_mul, Nat.add_comm (i * step), ← Nat.add_assoc] at hi hkey
        exact ⟨i, hi, hkey⟩
  | case3 c hlt =>
    rw [findCert, if_neg hlt]
    refine iff_of_false Bool.false_ne_true ?_
    rintro ⟨i, hi, -⟩
    omega

/-- A turn of `find_in_esl` finds the key if it is the data of one of the signatures. -/
theorem EslAt.found_findTurn (key : List UInt8) : (findTurn d o key).found = true ↔
    size = key.length + 16 ∧ ∃ s ∈ sigs, s.drop 16 = key := by
  have hpos := h.pos
  by_cases hkey : size = key.length + 16
  · have hturn : (findTurn d o key).found = (findCert d key size hpos (signatureAt d o 0)
        (signatureAt d o 0 + sigs.length * size)).2 := by
      have hsize := h.sigSize.trans hkey
      rw [findTurn, dif_pos hsize, h.stop]
      simp only [h.sigSize]
    rw [hturn, found_findCert, and_iff_right hkey]
    -- the data of signature `i` behind its owner
    have hdata : ∀ i (hi : i < sigs.length),
        d.bytes (signatureAt d o 0 + i * size + 16) key.length = sigs[i].drop 16 := by
      intro i hi
      have hstart : signatureAt d o 0 = o + 28 := by
        rw [signatureAt, h.headerSize]
        omega
      have hsplit := d.bytes_add (o + 28 + i * size) 16 key.length
      rw [Nat.add_comm 16, ← hkey, h.at_index i hi] at hsplit
      rw [hsplit, List.drop_left' (Region.length_bytes _ _ _), hstart]
    constructor
    · rintro ⟨i, hi, heq⟩
      have hi : i < sigs.length := by
        by_contra hge
        have := Nat.mul_le_mul_right size (Nat.le_of_not_lt hge)
        omega
      exact ⟨sigs[i], List.getElem_mem hi, (hdata i hi).symm.trans heq⟩
    · rintro ⟨s, hs, heq⟩
      obtain ⟨i, hi, rfl⟩ := List.getElem_of_mem hs
      have hlt : i * size < sigs.length * size := Nat.mul_lt_mul_of_pos_right hi hpos
      exact ⟨i, by omega, (hdata i hi).trans heq⟩
  · have hsize : ¬ signatureSize d o = key.length + 16 := h.sigSize.symm ▸ hkey
    rw [findTurn, dif_neg hsize]
    exact iff_of_false Bool.false_ne_true fun h => hkey h.1

end Layout

/-! ## Whole variables -/

section Whole

variable {d : Region} {o size dbsize : ℕ} {type : List UInt8} {sigs : List (List UInt8)}

/-- A turn of the loop over the lists, at one that was laid out. -/
theorem EslAt.scanDb_eq (h : EslAt d o type size sigs) (hle : 28 + sigs.length * size ≤ dbsize)
    (fuel : ℕ) (key : List UInt8) :
    scanDb (fun o => some (findTurn d o key).found) d (fuel + 1) o dbsize =
      if size = key.length + 16 ∧ ∃ s ∈ sigs, s.drop 16 = key then some .dataFound
      else scanDb (fun o => some (findTurn d o key).found) d fuel (o + (28 + sigs.length * size))
        (dbsize - (28 + sigs.length * size)) := by
  rw [scanDb, if_pos (by rw [h.listSize]; omega)]
  by_cases hfound : size = key.length + 16 ∧ ∃ s ∈ sigs, s.drop 16 = key
  · rw [if_pos hfound, (h.found_findTurn key).mpr hfound]
  · have hmissed : (findTurn d o key).found = false :=
      Bool.eq_false_iff.mpr fun hf => hfound ((h.found_findTurn key).mp hf)
    rw [if_neg hfound, hmissed, h.listSize]
    dsimp only
    rw [if_neg (by omega)]

/-- Where a single list was laid out, the loops find its signatures. -/
theorem decodeEsl_esl (htype : type.length = 16) (hpos : 0 < size)
    (h : ∀ s ∈ sigs, s.length = size) (hlt : 28 + sigs.length * size < 2 ^ 32)
    (hsize : size < 2 ^ 32) : decodeEsl (esl type size sigs) = [(type, sigs)] := by
  have hholds : (Region.ofList 0 (esl type size sigs)).HoldsAt 0 (esl type size sigs) :=
    Region.holdsAt_ofList_zero 0 _
  have hat := eslAt_of_holdsAt htype hpos h hlt hsize hholds
  have hlists : signatureLists (Region.ofList 0 (esl type size sigs)) = [0] := by
    have hlen : (Region.ofList 0 (esl type size sigs)).size = 28 + sigs.length * size :=
      length_esl htype h
    obtain ⟨n, hn⟩ : ∃ n, 28 + sigs.length * size = n + 1 := ⟨27 + sigs.length * size, by omega⟩
    rw [signatureLists, hlen, hn, signatureListsFrom, if_pos (by rw [hat.listSize]; omega),
      hat.listSize, hn, Nat.sub_self]
    cases n <;> simp [signatureListsFrom]
  rw [decodeEsl, hlists, List.map_singleton, hat.type, hat.certsAt_eq]

/-- `find_in_esl` on a single list finds the data of its signatures. -/
theorem findInEsl_esl (htype : type.length = 16) (hpos : 0 < size)
    (h : ∀ s ∈ sigs, s.length = size) (hlt : 28 + sigs.length * size < 2 ^ 32)
    (hsize : size < 2 ^ 32) (key : List UInt8) : findInEsl (esl type size sigs) key =
      some (if size = key.length + 16 ∧ ∃ s ∈ sigs, s.drop 16 = key then .success
        else .notFound) := by
  have hholds : (Region.ofList 0 (esl type size sigs)).HoldsAt 0 (esl type size sigs) :=
    Region.holdsAt_ofList_zero 0 _
  have hat := eslAt_of_holdsAt htype hpos h hlt hsize hholds
  have hlen : (Region.ofList 0 (esl type size sigs)).size = 28 + sigs.length * size :=
    length_esl htype h
  obtain ⟨n, hn⟩ : ∃ n, 28 + sigs.length * size = n + 1 := ⟨27 + sigs.length * size, by omega⟩
  have hscan := hat.scanDb_eq (le_refl (28 + sigs.length * size)) n key
  rw [← hn] at hscan
  rw [findInEsl, hlen, hscan]
  by_cases hfound : size = key.length + 16 ∧ ∃ s ∈ sigs, s.drop 16 = key
  · rw [if_pos hfound, if_pos hfound]
    rfl
  · rw [if_neg hfound, if_neg hfound, Nat.sub_self]
    cases n <;> simp [scanDb]

/-- A well-formed list, as one of byte strings. -/
theorem SignatureList.eslAt {l : SignatureList} (h : d.HoldsAt o l.encode)
    (hlt : l.listSize < 2 ^ 32) :
    EslAt d o l.type l.size (l.sigs.map SignatureData.encode) := by
  have hencode : l.encode = esl l.type l.size (l.sigs.map SignatureData.encode) := by
    rw [esl, eslHeader, List.length_map, ← List.flatMap_def]
    rfl
  refine eslAt_of_holdsAt l.type_length (lt_trans (by decide) l.size_gt) ?_ ?_ l.size_lt
    (hencode ▸ h)
  · rintro _ hmem
    obtain ⟨s, hs, rfl⟩ := List.mem_map.mp hmem
    exact l.length_encode_of_mem hs
  · rwa [List.length_map]

/-- What a turn looks for in a well-formed list. -/
theorem SignatureList.hasData_iff (l : SignatureList) (key : List UInt8) :
    (l.size = key.length + 16 ∧ ∃ s ∈ l.sigs.map SignatureData.encode, s.drop 16 = key) ↔
      ∃ e ∈ l.entries, e.data = key := by
  have hdata : ∀ s ∈ l.sigs, s.encode.drop 16 = s.data := fun s hs =>
    List.drop_left' (l.uniform s hs).1
  constructor
  · rintro ⟨-, _, hmem, hkey⟩
    obtain ⟨s, hs, rfl⟩ := List.mem_map.mp hmem
    exact ⟨_, List.mem_map.mpr ⟨s, hs, rfl⟩, (hdata s hs).symm.trans hkey⟩
  · rintro ⟨_, he, hkey⟩
    obtain ⟨s, hs, rfl⟩ := List.mem_map.mp he
    have hlen := (l.uniform s hs).2
    dsimp only at hkey
    rw [hkey, Nat.add_comm] at hlen
    exact ⟨hlen.symm, s.encode, List.mem_map.mpr ⟨s, hs, rfl⟩, (hdata s hs).trans hkey⟩

/-- The search over laid out lists, from the first of them on. -/
theorem scanDb_encodeDb {ls : List SignatureList} (h : d.HoldsAt o (encodeDb ls)) {fuel : ℕ}
    (hsize : (encodeDb ls).length < 2 ^ 32) (hfuel : (encodeDb ls).length ≤ fuel)
    (key : List UInt8) :
    scanDb (fun o => some (findTurn d o key).found) d fuel o (encodeDb ls).length =
      if ∃ e ∈ entriesDb ls, e.data = key then some .dataFound else some .dataNotFound := by
  induction ls generalizing o fuel with
  | nil => cases fuel <;> simp [scanDb]
  | cons l ls ih =>
    rw [encodeDb_cons, Region.holdsAt_append, l.length_encode] at h
    rw [encodeDb_cons, List.length_append, l.length_encode] at hsize hfuel ⊢
    have hle := l.le_listSize
    obtain ⟨fuel, rfl⟩ : ∃ k, fuel = k + 1 := ⟨fuel - 1, by omega⟩
    have hat := SignatureList.eslAt h.1 (by omega)
    have hturn := hat.scanDb_eq (Nat.le_add_right _ (encodeDb ls).length) fuel key
    rw [List.length_map, ← SignatureList.listSize, Nat.add_sub_cancel_left,
      ih h.2 (by omega) (by omega)] at hturn
    rw [hturn, entriesDb_cons]
    simp only [l.hasData_iff, List.mem_append, or_and_right, exists_or]
    by_cases hl : ∃ e ∈ l.entries, e.data = key
    · rw [if_pos hl, if_pos (.inl hl)]
    · simp only [hl, false_or, if_false]

/-- `find_in_esl` on well-formed lists finds the data of their signatures. -/
theorem findInEsl_encodeDb {ls : List SignatureList} (hsize : (encodeDb ls).length < 2 ^ 32)
    (key : List UInt8) : findInEsl (encodeDb ls) key =
      some (if ∃ e ∈ entriesDb ls, e.data = key then .success else .notFound) := by
  have hholds : (Region.ofList 0 (encodeDb ls)).HoldsAt 0 (encodeDb ls) :=
    Region.holdsAt_ofList_zero 0 _
  have hscan := scanDb_encodeDb hholds hsize le_rfl key
  rw [findInEsl]
  change (scanDb _ _ (encodeDb ls).length 0 (encodeDb ls).length).map _ = _
  rw [hscan]
  by_cases hfound : ∃ e ∈ entriesDb ls, e.data = key
  · rw [if_pos hfound, if_pos hfound]
    rfl
  · rw [if_neg hfound, if_neg hfound]
    rfl

end Whole

end Shim
