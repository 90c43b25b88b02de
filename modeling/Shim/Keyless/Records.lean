import Mathlib.Logic.Relation
import Shim.Auth.Authentic
import Shim.Common.Event

/-! # Two walks over the certificate table

The record loop of `verify_buffer_authenticode` (shim.c) and that of `osign_parse_pkcs7`
(keyless-sign.c). Where the first one accepts a table, the second one visits the same records and
takes the last PKCS#7 record of those that were verified. On its own, behind `osign_verify`, it reads
the length of a record without a check that it lies in the file.
-/

namespace Shim

open Event (Inside AllSound)
open Relation (ReflTransGen)

section Walks

variable (r : Region) (context : Context)

/-- `SecDir->VirtualAddress`. -/
def tableStart : ℕ := r.u32 context.secDir

/-- `SecDir->Size`. -/
def tableSize : ℕ := r.u32 (context.secDir + 4)

/-- The record at `sig` has the type `WIN_CERT_TYPE_PKCS_SIGNED_DATA`. -/
def isPkcs7 (sig : ℕ) : Bool := r.u16 (sig + 6) = winCertTypePkcsSignedData

/-- The records that the loop of `verify_buffer_authenticode` gets past, of every type. -/
def certificateRecords : (fuel offset : ℕ) → Except EfiStatus (List ℕ)
  | 0, _ => .ok []
  | fuel + 1, offset =>
    if offset < tableSize r context then
      match imageAddress r.base r.size (tableStart r context + offset) with
      | none => .ok []
      | some sig => do
        checkCertificate r context offset sig
        let records ← certificateRecords fuel (alignValue8 (offset + r.u32 sig))
        return sig :: records
    else .ok []

/-- What the loop of `osign_parse_pkcs7` does: its events, the records it gets past, and `last_off`
as an address. -/
structure RecordWalk where
  events : List Event
  visited : List ℕ
  last : Option ℕ

/-- The loop of `osign_parse_pkcs7`; `none` where `fuel` turns are not enough. -/
def osignRecords : (fuel offset : ℕ) → (last : Option ℕ) → Option RecordWalk
  | 0, _, _ => none
  | fuel + 1, offset, last =>
    if offset < tableSize r context then
      match imageAddress r.base r.size (tableStart r context + offset) with
      | none => some ⟨[], [], last⟩
      | some w =>
        if r.u32 w < 8 ∨ tableSize r context - offset < r.u32 w then some ⟨[.read w 4], [], last⟩
        else
          (osignRecords fuel (alignValue8 (offset + r.u32 w))
            (if isPkcs7 r w then some w else last)).map fun rest =>
              ⟨.read w 4 :: .read (w + 6) 2 :: rest.events, w :: rest.visited, rest.last⟩
    else some ⟨[], [], last⟩

/-- `osign_parse_pkcs7` up to `d2i_PKCS7`: its events, and what it passes on; `none` where the loop
takes more turns than the table has bytes. The size of the file is a `UINTN` here, what is hashed an
`unsigned`. -/
def osignParseRun : Option (List Event × Except EfiStatus (List UInt8)) :=
  let ends := tableStart r context + tableSize r context
  if r.size < ends then some ([], .error .invalidParameter)
  else match generateHash r (ends % 2 ^ 32) context with
  | .error e => some ([], .error e)
  | .ok _ =>
    (osignRecords r context (tableSize r context + 1) 0 none).map fun walk =>
      match walk.last with
      | none => (walk.events, .error .notFound)
      | some sig =>
        (walk.events ++ [.read sig 4, .read (sig + 8) (r.u32 sig - 8)], .ok (certData r sig))

/-- The loop of `osign_parse_pkcs7` gets from the record at `o` to the place `o'`, both counted from
the start of the table. -/
def NextRecord (o o' : ℕ) : Prop :=
  o < tableSize r context ∧ 8 ≤ r.u32 (tableStart r context + o) ∧
    r.u32 (tableStart r context + o) ≤ tableSize r context - o ∧
    o' = alignValue8 (o + r.u32 (tableStart r context + o))

/-- The loop comes to the place `o` when it starts at `start`. -/
def RecordReached (start o : ℕ) : Prop := ReflTransGen (NextRecord r context) start o

end Walks

/-- A file in memory, of any size. -/
structure FileBuffer extends Region where
  room : base + size ≤ 2 ^ 64

/-- `osign_verify` gets to `osign_parse_pkcs7`: `osign_extract_data` has read the header, for which it
cuts the size of the file to an `unsigned`, and found a certificate table. -/
structure ReachesParse (p : Platform) (r : FileBuffer) (context : Context) : Prop where
  header : readHeader p { r.toRegion with size := r.size % 2 ^ 32 } = .ok context
  table : tableSize r.toRegion context ≠ 0

/-! ## The same records -/

section Agree

variable {r : Region} {context : Context} {fuel offset : ℕ} {visited : List ℕ}

/-- Rounding goes up. -/
theorem le_alignValue8 (n : ℕ) : n ≤ alignValue8 n := by
  unfold alignValue8
  omega

/-- A record that passes is in the table. -/
theorem checkCertificate_ok {sig : ℕ} (h : checkCertificate r context offset sig = .ok ()) :
    8 ≤ r.u32 sig ∧ r.u32 sig ≤ tableSize r context - offset := by
  unfold checkCertificate at h
  obtain ⟨_, -, h⟩ := exists_of_bind_ok h
  obtain ⟨_, -, h⟩ := exists_of_bind_ok h
  obtain ⟨_, hsize, h⟩ := exists_of_bind_ok h
  exact ⟨not_lt.mp (not_of_failIf_ok h), not_lt.mp (not_of_failIf_ok hsize)⟩

/-- The PKCS#7 records are those of the type. -/
theorem pkcs7Records_eq (r : Region) (context : Context) (fuel offset : ℕ) :
    pkcs7Records r context fuel offset =
      (certificateRecords r context fuel offset).map (List.filter (isPkcs7 r)) := by
  induction fuel generalizing offset with
  | zero => rfl
  | succ fuel ih =>
    unfold pkcs7Records certificateRecords
    by_cases hoff : offset < tableSize r context
    · rw [if_pos hoff, if_pos (show offset < r.u32 (context.secDir + 4) from hoff)]
      unfold tableStart
      rcases imageAddress r.base r.size (r.u32 context.secDir + offset) with _ | sig
      · rfl
      · dsimp only
        rcases checkCertificate r context offset sig with e | ⟨⟩
        · rfl
        · change (pkcs7Records r context fuel _ >>= _) = _
          rw [ih]
          rcases hrest : certificateRecords r context fuel (alignValue8 (offset + r.u32 sig)) with
            e | rest
          · simp [Except.map, Bind.bind, Except.bind]
          · by_cases htype : r.u16 (sig + 6) = winCertTypePkcsSignedData <;>
              simp [Except.map, Bind.bind, Except.bind, Pure.pure, Except.pure, isPkcs7, htype]
    · rw [if_neg hoff, if_neg (show ¬ offset < r.u32 (context.secDir + 4) from hoff)]
      rfl

/-- Where the first walk accepts the table, the second one visits the same records, and keeps the
last one of the type. -/
theorem osignRecords_of_certificateRecords
    (h : certificateRecords r context fuel offset = .ok visited)
    (hfuel : tableSize r context ≤ offset + fuel) (last : Option ℕ) :
    ∃ walk, osignRecords r context (fuel + 1) offset last = some walk ∧ walk.visited = visited ∧
      walk.last = ((visited.filter (isPkcs7 r)).getLast?).or last := by
  induction fuel generalizing offset visited last with
  | zero =>
    obtain rfl := Except.ok.inj h
    refine ⟨⟨[], [], last⟩, ?_, rfl, rfl⟩
    rw [osignRecords, if_neg (by omega)]
  | succ fuel ih =>
    unfold certificateRecords at h
    by_cases hoff : offset < tableSize r context
    · rw [if_pos hoff] at h
      rcases himage : imageAddress r.base r.size (tableStart r context + offset) with _ | sig
      · simp only [himage] at h
        obtain rfl := Except.ok.inj h
        refine ⟨⟨[], [], last⟩, ?_, rfl, rfl⟩
        rw [osignRecords, if_pos hoff, himage]
      · simp only [himage] at h
        obtain ⟨_, hcheck, h⟩ := exists_of_bind_ok h
        obtain ⟨rest, hrest, h⟩ := exists_of_bind_ok h
        obtain rfl := Except.ok.inj h
        -- a record that passes the check is not empty, so both loops go on
        obtain ⟨hmin, hmax⟩ := checkCertificate_ok hcheck
        have halign := le_alignValue8 (offset + r.u32 sig)
        obtain ⟨walk, hwalk, hvisited, hlast⟩ :=
          ih hrest (by omega) (if isPkcs7 r sig then some sig else last)
        refine ⟨⟨.read sig 4 :: .read (sig + 6) 2 :: walk.events, sig :: walk.visited, walk.last⟩,
          ?_, by rw [hvisited], ?_⟩
        · rw [osignRecords, if_pos hoff, himage]
          dsimp only
          rw [if_neg (by omega), hwalk]
          rfl
        · rw [hlast]
          cases htype : isPkcs7 r sig with
          | false => simp [htype]
          | true =>
            rw [List.filter_cons_of_pos htype, List.getLast?_cons, if_pos rfl]
            cases (rest.filter (isPkcs7 r)).getLast? <;> rfl
    · rw [if_neg hoff] at h
      obtain rfl := Except.ok.inj h
      refine ⟨⟨[], [], last⟩, ?_, rfl, rfl⟩
      rw [osignRecords, if_neg hoff]

end Agree

/-! ## What the second walk reads -/

section Reads

variable {r : FileBuffer} {context : Context} {fuel offset o : ℕ} {last : Option ℕ}
  {walk : RecordWalk}

/-- The address of a record in a table that lies in the file. -/
theorem FileBuffer.record_eq
    (hfile : tableStart r.toRegion context + tableSize r.toRegion context ≤ r.size)
    (hoff : offset < tableSize r.toRegion context) :
    imageAddress r.base r.size (tableStart r.toRegion context + offset) =
      some (tableStart r.toRegion context + offset) := by
  have hroom := r.room
  unfold imageAddress
  rw [if_neg (by omega), if_neg (by omega)]

/-- The walk ends: every turn that goes on gets ahead by eight bytes at least. -/
theorem exists_osignRecords (r : Region) (context : Context) {fuel offset : ℕ}
    (hfuel : tableSize r context ≤ offset + fuel) (last : Option ℕ) :
    ∃ walk, osignRecords r context (fuel + 1) offset last = some walk := by
  induction fuel generalizing offset last with
  | zero => exact ⟨_, by rw [osignRecords, if_neg (by omega)]⟩
  | succ fuel ih =>
    rw [osignRecords]
    by_cases hoff : offset < tableSize r context
    · rw [if_pos hoff]
      rcases imageAddress r.base r.size (tableStart r context + offset) with _ | w
      · exact ⟨_, rfl⟩
      · dsimp only
        by_cases hbad : r.u32 w < 8 ∨ tableSize r context - offset < r.u32 w
        · exact ⟨_, if_pos hbad⟩
        · have halign := le_alignValue8 (offset + r.u32 w)
          obtain ⟨rest, hrest⟩ := ih (show tableSize r context ≤ alignValue8 (offset + r.u32 w) + fuel
            by omega) (if isPkcs7 r w then some w else last)
          rw [if_neg hbad, hrest]
          exact ⟨_, rfl⟩
    · exact ⟨_, if_neg hoff⟩

/-- What the walk keeps is a record that lies in the file, or what it was given. -/
theorem last_of_osignRecords
    (hfile : tableStart r.toRegion context + tableSize r.toRegion context ≤ r.size)
    (h : osignRecords r.toRegion context fuel offset last = some walk) :
    walk.last = last ∨ ∃ sig, walk.last = some sig ∧ 8 ≤ r.u32 sig ∧ sig + r.u32 sig ≤ r.size := by
  induction fuel generalizing offset last walk with
  | zero => cases h
  | succ fuel ih =>
    rw [osignRecords] at h
    by_cases hoff : offset < tableSize r.toRegion context
    · rw [if_pos hoff, r.record_eq hfile hoff] at h
      dsimp only at h
      by_cases hbad : r.u32 (tableStart r.toRegion context + offset) < 8 ∨
          tableSize r.toRegion context - offset < r.u32 (tableStart r.toRegion context + offset)
      · rw [if_pos hbad] at h
        obtain rfl := Option.some.inj h
        exact .inl rfl
      · rw [if_neg hbad, Option.map_eq_some_iff] at h
        obtain ⟨rest, hrest, rfl⟩ := h
        rcases ih hrest with hlast | hkept
        · by_cases htype : isPkcs7 r.toRegion (tableStart r.toRegion context + offset)
          · rw [if_pos htype] at hlast
            exact .inr ⟨_, hlast, by omega, by omega⟩
          · rw [if_neg htype] at hlast
            exact .inl hlast
        · exact .inr hkept
    · rw [if_neg hoff] at h
      obtain rfl := Option.some.inj h
      exact .inl rfl

/-- The walk reads the file only, exactly if the length of every record it comes to is in the
file. -/
theorem allSound_osignRecords
    (hfile : tableStart r.toRegion context + tableSize r.toRegion context ≤ r.size)
    (h : osignRecords r.toRegion context fuel offset last = some walk) :
    AllSound r.size walk.events ↔ ∀ o, RecordReached r.toRegion context offset o →
      o < tableSize r.toRegion context → tableStart r.toRegion context + o + 4 ≤ r.size := by
  induction fuel generalizing offset last walk with
  | zero => cases h
  | succ fuel ih =>
    rw [osignRecords] at h
    by_cases hoff : offset < tableSize r.toRegion context
    · rw [if_pos hoff, r.record_eq hfile hoff] at h
      dsimp only at h
      by_cases hbad : r.u32 (tableStart r.toRegion context + offset) < 8 ∨
          tableSize r.toRegion context - offset < r.u32 (tableStart r.toRegion context + offset)
      · rw [if_pos hbad] at h
        obtain rfl := Option.some.inj h
        -- the record's length is read, and the walk ends
        simp only [Event.allSound_cons, Event.sound_read, Event.allSound_nil, and_true,
          Event.inside_iff_of_pos (show 0 < 4 by decide)]
        constructor
        · intro hread o ho _
          rcases ho.cases_head with rfl | ⟨_, ⟨-, hmin, hmax, -⟩, -⟩
          · exact hread
          · omega
        · intro hall
          exact hall offset .refl hoff
      · rw [if_neg hbad, Option.map_eq_some_iff] at h
        obtain ⟨rest, hrest, rfl⟩ := h
        -- the length is read once more, and the walk goes on behind the record
        have hnext : NextRecord r.toRegion context offset
            (alignValue8 (offset + r.u32 (tableStart r.toRegion context + offset))) :=
          ⟨hoff, by omega, by omega, rfl⟩
        simp only [Event.allSound_cons, Event.sound_read, ih hrest,
          Event.inside_iff_of_pos (show 0 < 4 by decide),
          Event.inside_iff_of_pos (show 0 < 2 by decide)]
        constructor
        · rintro ⟨hread, -, hall⟩ o ho ho'
          rcases ho.cases_head with rfl | ⟨_, ⟨-, -, -, rfl⟩, hrest⟩
          · exact hread
          · exact hall o hrest ho'
        · intro hall
          exact ⟨hall offset .refl hoff, by omega, fun o ho => hall o (ho.head hnext)⟩
    · rw [if_neg hoff] at h
      obtain rfl := Option.some.inj h
      refine iff_of_true Event.allSound_nil fun o ho ho' => ?_
      rcases ho.cases_head with rfl | ⟨_, ⟨hlt, -⟩, -⟩
      · exact absurd ho' hoff
      · exact absurd hlt hoff

end Reads

/-! ## The whole -/

section Whole

variable (r : FileBuffer) (context : Context)

/-- The two walkers agree: the second one visits the records that the first one accepts and passes
on the payload of the last one that was verified. On any file it comes back and reads the file
only. -/
structure WalkersAgree : Prop where
  same : ∀ v h ret method, verifySignatures v r.toRegion context h (tableSize r.toRegion context) 0
      .notFound = some (.ok ret, method) →
    ∃ visited walk run,
      certificateRecords r.toRegion context (tableSize r.toRegion context) 0 = .ok visited ∧
      (∀ sig ∈ visited.filter (isPkcs7 r.toRegion),
        (v.verifyOneSignature (certData r.toRegion sig) h).isSome) ∧
      osignRecords r.toRegion context (tableSize r.toRegion context + 1) 0 none = some walk ∧
      walk.visited = visited ∧ osignParseRun r.toRegion context = some run ∧
      ∀ payload, run.2 = .ok payload → ∃ sig,
        (visited.filter (isPkcs7 r.toRegion)).getLast? = some sig ∧
          payload = certData r.toRegion sig
  safe : ∃ run, osignParseRun r.toRegion context = some run ∧ AllSound r.size run.1

/-- Where `osign_parse_pkcs7` gets to its loop, the length of every record that the loop comes to
lies in the file. -/
def LengthsInFile : Prop :=
  tableStart r.toRegion context + tableSize r.toRegion context ≤ r.size →
    (∃ chunks, generateHash r.toRegion
      ((tableStart r.toRegion context + tableSize r.toRegion context) % 2 ^ 32) context = .ok chunks) →
      ∀ o, RecordReached r.toRegion context 0 o → o < tableSize r.toRegion context →
        tableStart r.toRegion context + o + 4 ≤ r.size

variable {r context}

/-- What is passed on is the record that was kept. -/
theorem osignParseRun_ok {run : List Event × Except EfiStatus (List UInt8)} {walk : RecordWalk}
    {payload : List UInt8} (hrun : osignParseRun r.toRegion context = some run)
    (hwalk : osignRecords r.toRegion context (tableSize r.toRegion context + 1) 0 none = some walk)
    (hpayload : run.2 = .ok payload) :
    ∃ sig, walk.last = some sig ∧ payload = certData r.toRegion sig := by
  unfold osignParseRun at hrun
  by_cases hfile : r.size < tableStart r.toRegion context + tableSize r.toRegion context
  · rw [if_pos hfile] at hrun
    obtain rfl := Option.some.inj hrun
    cases hpayload
  · rw [if_neg hfile] at hrun
    rcases hhash : generateHash r.toRegion ((tableStart r.toRegion context +
      tableSize r.toRegion context) % 2 ^ 32) context with e | chunks
    · simp only [hhash] at hrun
      obtain rfl := Option.some.inj hrun
      cases hpayload
    · simp only [hhash, hwalk, Option.map_some] at hrun
      obtain rfl := Option.some.inj hrun
      rcases hlast : walk.last with _ | sig
      · simp [hlast] at hpayload
      · simp only [hlast] at hpayload
        exact ⟨sig, rfl, (Except.ok.inj hpayload).symm⟩

/-- The run ends, and it reads the file only exactly if the lengths of the records are in it. -/
theorem exists_osignParseRun (r : FileBuffer) (context : Context) :
    ∃ run, osignParseRun r.toRegion context = some run ∧
      (AllSound r.size run.1 ↔ LengthsInFile r context) := by
  unfold osignParseRun
  by_cases hfile : r.size < tableStart r.toRegion context + tableSize r.toRegion context
  · rw [if_pos hfile]
    exact ⟨_, rfl, iff_of_true Event.allSound_nil fun hin => absurd hfile (not_lt.mpr hin)⟩
  · rw [if_neg hfile]
    rcases hhash : generateHash r.toRegion ((tableStart r.toRegion context +
      tableSize r.toRegion context) % 2 ^ 32) context with e | chunks
    · refine ⟨_, rfl, iff_of_true Event.allSound_nil fun _ hok => ?_⟩
      obtain ⟨chunks, hchunks⟩ := hok
      rw [hhash] at hchunks
      cases hchunks
    · obtain ⟨walk, hwalk⟩ := exists_osignRecords r.toRegion context
        (show tableSize r.toRegion context ≤ 0 + tableSize r.toRegion context by omega) none
      have hin : tableStart r.toRegion context + tableSize r.toRegion context ≤ r.size :=
        not_lt.mp hfile
      have hlengths : AllSound r.size walk.events ↔ LengthsInFile r context := by
        rw [allSound_osignRecords hin hwalk]
        exact ⟨fun h _ _ => h, fun h => h hin ⟨chunks, hhash⟩⟩
      simp only [hwalk, Option.map_some]
      rcases hlast : walk.last with _ | sig
      · exact ⟨_, rfl, hlengths⟩
      · refine ⟨_, rfl, ?_⟩
        obtain ⟨sig', hsig, hmin, hend⟩ := (last_of_osignRecords hin hwalk).resolve_left (by simp [hlast])
        obtain rfl : sig = sig' := Option.some.inj (hlast.symm.trans hsig)
        simp only [Event.allSound_append, hlengths, Event.allSound_cons, Event.sound_read,
          Event.allSound_nil, and_true, and_iff_left_iff_imp]
        exact fun _ => ⟨.inr (by omega), .inr (by omega)⟩

/-- What the loop of `verify_buffer_authenticode` accepts, with what it has verified. -/
theorem certificateRecords_of_verifySignatures {v : Verifier} {h : Digests} {ret : EfiStatus}
    {method : MethodChange} {r : Region} {fuel offset : ℕ} {ret₀ : EfiStatus}
    (hloop : verifySignatures v r context h fuel offset ret₀ = some (.ok ret, method)) :
    ∃ visited, certificateRecords r context fuel offset = .ok visited ∧
      ∀ sig ∈ visited.filter (isPkcs7 r), (v.verifyOneSignature (certData r sig) h).isSome := by
  obtain ⟨records, hrecords, hsome, -⟩ := (verifySignatures_finds hloop).2 ret rfl
  rw [pkcs7Records_eq] at hrecords
  rcases hvisited : certificateRecords r context fuel offset with e | visited
  · rw [hvisited] at hrecords
    cases hrecords
  · rw [hvisited] at hrecords
    obtain rfl := Except.ok.inj hrecords
    exact ⟨visited, rfl, hsome⟩

end Whole

/-! ## In the verification of an image -/

section Verification

variable {r : Region} {context : Context} {fuel offset : ℕ} {last : Option ℕ} {walk : RecordWalk}

/-- The walk comes to the last PKCS#7 record. -/
theorem lastPkcs7_eq {turns : ℕ} (h : osignRecords r context turns offset last = some walk)
    (hfuel : tableSize r context ≤ offset + fuel) :
    lastPkcs7 r context fuel offset last = walk.last := by
  -- both loops take the same records, each with its own count of turns
  induction turns generalizing fuel offset last walk with
  | zero => cases h
  | succ turns ih =>
    rw [osignRecords] at h
    by_cases hoff : offset < tableSize r context
    · obtain ⟨fuel, rfl⟩ : ∃ k, fuel = k + 1 := ⟨fuel - 1, by omega⟩
      rw [if_pos hoff] at h
      rw [lastPkcs7, if_pos (show offset < r.u32 (context.secDir + 4) from hoff)]
      unfold tableStart at h
      rcases himage : imageAddress r.base r.size (r.u32 context.secDir + offset) with _ | w
      · rw [himage] at h
        obtain rfl := Option.some.inj h
        rfl
      · rw [himage] at h
        dsimp only at h ⊢
        change (if r.u32 w < 8 ∨ tableSize r context - offset < r.u32 w then last else _) = _
        by_cases hbad : r.u32 w < 8 ∨ tableSize r context - offset < r.u32 w
        · rw [if_pos hbad] at h
          obtain rfl := Option.some.inj h
          exact if_pos hbad
        · rw [if_neg hbad, Option.map_eq_some_iff] at h
          obtain ⟨rest, hrest, rfl⟩ := h
          have halign := le_alignValue8 (offset + r.u32 w)
          rw [if_neg hbad, ← @ih fuel _ _ _ hrest (by omega)]
          simp only [isPkcs7, decide_eq_true_eq]
    · rw [if_neg hoff] at h
      obtain rfl := Option.some.inj h
      cases fuel with
      | zero => rfl
      | succ fuel => rw [lastPkcs7, if_neg (show ¬ offset < r.u32 (context.secDir + 4) from hoff)]

/-- For a table below 4 GiB, what is passed on is what the verification of an image asks about. -/
theorem osignParsePkcs7_eq (v : Verifier)
    {run : List Event × Except EfiStatus (List UInt8)} (hrun : osignParseRun r context = some run)
    (hsmall : tableStart r context + tableSize r context < 2 ^ 32) :
    osignParsePkcs7 v r context = (do
      let payload ← run.2
      let chunks ← generateHash r (tableStart r context + tableSize r context) context
      match v.extractVerificationData payload (v.digests r chunks) with
      | .error e => .error (e : EfiStatus)
      | .ok data => .ok data) := by
  unfold osignParseRun at hrun
  dsimp only at hrun
  rw [Nat.mod_eq_of_lt hsmall] at hrun
  change (do
    failIf (r.size < tableStart r context + tableSize r context) .invalidParameter
    let chunks ← generateHash r (tableStart r context + tableSize r context) context
    match lastPkcs7 r context (tableSize r context) 0 none with
    | none => .error .notFound
    | some sig =>
      match v.extractVerificationData (certData r sig) (v.digests r chunks) with
      | .error e => .error (e : EfiStatus)
      | .ok data => .ok data) = _
  -- the table reaches over the end of the file
  by_cases hfile : r.size < tableStart r context + tableSize r context
  · rw [if_pos hfile] at hrun
    obtain rfl := Option.some.inj hrun
    rw [failIf, if_pos hfile]
    rfl
  · rw [if_neg hfile] at hrun
    rw [failIf, if_neg hfile]
    rcases hhash : generateHash r (tableStart r context + tableSize r context) context with e | chunks
    · simp only [hhash] at hrun
      obtain rfl := Option.some.inj hrun
      rfl
    · simp only [hhash] at hrun
      obtain ⟨walk, hwalk, rfl⟩ := Option.map_eq_some_iff.mp hrun
      -- both walks remember the last record of the kind
      have hlast : lastPkcs7 r context (tableSize r context) 0 none = walk.last :=
        lastPkcs7_eq hwalk (by omega)
      rw [hlast]
      rcases walk.last with _ | sig
      · rfl
      · rfl

end Verification

/-! ## A table of one byte -/

/-- A small image whose certificate table is the last byte of the file. -/
def shortTable : FileBuffer where
  toRegion := .ofFields 0x10000 337
    [(0, [0x4d, 0x5a]), (60, [64]), (64, [0x50, 0x45]), (68, [0x64, 0x86]), (84, [152]),
     (88, [0x0b, 0x02]), (144, [0x00, 0x10]), (148, [240]), (196, [5]),
     (232, [0x50, 0x01, 0x00, 0x00, 0x01])]
  room := by decide

end Shim
