import Shim.Common.ByteMap
import Shim.Mok.Agreement
import Shim.Pe.Transfers

/-! # The configuration table

`import_mok_state` computes the size of the table in the loop of the first pass and fills it in a
loop of its own: a header and the data for each entry with data, and a header of NULs behind them.
`decodeTable` is how a reader takes it apart.
-/

namespace Shim.Mok

/-- `rtname8`. -/
def MokVar.rtname8 (v : MokVar) : List UInt8 := v.rtname.toList.map fun c => UInt8.ofNat c.toNat

/-- `config_template`: `name[256]` and `data_size`. -/
def configTemplate (name : List UInt8) (dataSize : ℕ) : List UInt8 :=
  (name.take 255 ++ List.replicate (256 - (name.take 255).length) 0) ++ Region.le64 dataSize

/-- `sizeof(config_template)`. -/
def templateSize : ℕ := 264

section Fill

/-- The pages from `config_table` on, and `p` as an offset into them. -/
structure Cursor where
  p : ℕ
  memory : ℕ → UInt8

/-- `CopyMem(p, bytes, n)` and `p += n`. -/
def Cursor.copy (c : Cursor) (bytes : List UInt8) : Cursor :=
  ⟨c.p + bytes.length, ByteMap.fill c.memory c.p bytes.length fun i => bytes.getD i 0⟩

/-- A turn of the loop that fills the table. -/
def fillStep (s : State) (c : Cursor) (v : MokVar) : Cursor :=
  if s.data v ≠ [] then
    (c.copy (configTemplate v.rtname8 (s.data v).length)).copy (s.data v)
  else c

/-- The loop over the entries, from zeroed pages on, and the empty header behind it. -/
def fillTable (s : State) : Cursor :=
  (mokStateVariables.foldl (fillStep s) ⟨0, fun _ => 0⟩).copy (List.replicate templateSize 0)

end Fill

section Size

variable (g : Globals) (f : Firmware)

/-- A turn of the first pass, with `config_sz`. -/
def sizedStep (acc : ℕ × EfiStatus × State) (v : MokVar) : ℕ × EfiStatus × State :=
  let next := firstPassStep g f acc.2 v
  (if next.2.data v ≠ [] then (acc.1 + (next.2.data v).length + templateSize) % 2 ^ 64 else acc.1,
    next)

/-- `config_sz` after the first pass. -/
def sizedPass (s : State) : ℕ × EfiStatus × State :=
  mokStateVariables.foldl (sizedStep g f) (0, .success, s)

/-- A table that was published: the size it was given, its pages, and how it was filled. -/
structure Published where
  configSz : ℕ
  npages : ℕ
  filled : Cursor

/-- The table of an import: nothing without data, or without pages. -/
def publishTable (s : State) : Option Published :=
  let passed := sizedPass g f s
  if passed.1 = 0 ∨ f.configPages = false then none
  else
    let configSz := (passed.1 + templateSize) % 2 ^ 64
    some ⟨configSz, alignValue configSz 4096 / 4096, fillTable passed.2.2⟩

end Size

/-- Taking the table in the pages apart, from the header at `o` on until an empty one. A header is
more than nothing, which bounds the fuel. -/
def decodeFrom (r : Region) : (fuel o : ℕ) → List (List UInt8 × List UInt8)
  | 0, _ => []
  | fuel + 1, o =>
    if r.bytes o templateSize = List.replicate templateSize 0 then []
    else
      let dataSize := r.u64 (o + 256)
      ((r.bytes o 256).takeWhile (· ≠ 0), r.bytes (o + templateSize) dataSize) ::
        decodeFrom r fuel (o + templateSize + dataSize)

/-- The records of a published table. -/
def decodeTable (t : Published) : List (List UInt8 × List UInt8) :=
  decodeFrom ⟨0, 4096 * t.npages, t.filled.memory⟩ (4096 * t.npages) 0

/-! ## Filling -/

/-- The record of an entry. -/
def record (s : State) (v : MokVar) : List UInt8 :=
  configTemplate v.rtname8 (s.data v).length ++ s.data v

/-- The entries with data, in the order of the table. -/
def withData (s : State) (vs : List MokVar) : List MokVar := vs.filter fun v => s.data v ≠ []

/-- A name that a template holds and that is read back. -/
structure PlainName (name : List UInt8) : Prop where
  ne_nil : name ≠ []
  length_le : name.length ≤ 255
  no_nul : 0 ∉ name

/-- The names of the variables are plain. -/
theorem plainName_rtname8 (v : MokVar) : PlainName v.rtname8 := by
  cases v <;> exact ⟨by decide, by decide, by decide⟩

/-- A template has its fixed size. -/
theorem length_configTemplate (name : List UInt8) (n : ℕ) :
    (configTemplate name n).length = templateSize := by
  simp [configTemplate, templateSize, List.length_take]
  omega

/-- The pages as a region. -/
def Cursor.region (c : Cursor) : Region := ⟨0, 0, c.memory⟩

/-- A copy is found where the cursor was, and nothing before it changes. -/
theorem Cursor.copy_spec (c : Cursor) (bytes : List UInt8) :
    (c.copy bytes).p = c.p + bytes.length ∧ (c.copy bytes).region.HoldsAt c.p bytes ∧
      ∀ i < c.p, (c.copy bytes).memory i = c.memory i := by
  refine ⟨rfl, ?_, fun i hi => if_neg (by omega)⟩
  rw [Region.holdsAt_iff]
  intro i hi
  have hin : c.p ≤ c.p + i ∧ c.p + i < c.p + bytes.length := by omega
  change ByteMap.fill c.memory c.p bytes.length (fun i => bytes.getD i 0) (c.p + i) = bytes[i]
  rw [ByteMap.fill, if_pos hin, Nat.add_sub_cancel_left]
  simp [hi]

/-- What the pages hold before a cursor is kept where they are not changed. -/
theorem Cursor.keeps {c c' : Cursor} {o : ℕ} {bytes : List UInt8} (h : c.region.HoldsAt o bytes)
    (hp : o + bytes.length ≤ c.p) (hkept : ∀ i < c.p, c'.memory i = c.memory i) :
    c'.region.HoldsAt o bytes :=
  h.congr fun i _ hi => (hkept i (by omega)).symm

/-- A step writes the record of its variable, and nothing in front of it. -/
theorem fillStep_spec (s : State) (c : Cursor) (v : MokVar) (hv : s.data v ≠ []) :
    (fillStep s c v).p = c.p + (record s v).length ∧
      (fillStep s c v).region.HoldsAt c.p (record s v) ∧
      ∀ i < c.p, (fillStep s c v).memory i = c.memory i := by
  obtain ⟨hp, hhead, hbefore⟩ :=
    c.copy_spec (configTemplate v.rtname8 (s.data v).length)
  obtain ⟨hp', hdata, hbefore'⟩ :=
    (c.copy (configTemplate v.rtname8 (s.data v).length)).copy_spec (s.data v)
  have hstep : fillStep s c v =
      (c.copy (configTemplate v.rtname8 (s.data v).length)).copy (s.data v) := if_pos hv
  rw [hstep, record, List.length_append, Region.holdsAt_append]
  refine ⟨by rw [hp', hp, Nat.add_assoc], ⟨?_, ?_⟩, fun i hi => ?_⟩
  · exact Cursor.keeps hhead hp.ge hbefore'
  · rwa [hp] at hdata
  · rw [hbefore' i (by omega), hbefore i hi]

/-- The loop lays the records of the entries with data end to end. -/
theorem foldl_fillStep (s : State) (vs : List MokVar) (c : Cursor) :
    let filled := vs.foldl (fillStep s) c
    filled.p = c.p + ((withData s vs).flatMap (record s)).length ∧
      filled.region.HoldsAt c.p ((withData s vs).flatMap (record s)) ∧
      ∀ i < c.p, filled.memory i = c.memory i := by
  induction vs generalizing c with
  | nil => exact ⟨rfl, Region.holdsAt_nil _ _, fun _ _ => rfl⟩
  | cons v vs ih =>
    by_cases hv : s.data v = []
    · have hstep : fillStep s c v = c := if_neg (not_not_intro hv)
      have hwith : withData s (v :: vs) = withData s vs := by simp [withData, hv]
      rw [List.foldl_cons, hstep, hwith]
      exact ih c
    · obtain ⟨hp, hrecord, hbefore⟩ := fillStep_spec s c v hv
      obtain ⟨hp', hrest, hbefore'⟩ := ih (fillStep s c v)
      have hwith : withData s (v :: vs) = v :: withData s vs := by simp [withData, hv]
      dsimp only
      rw [List.foldl_cons, hwith, List.flatMap_cons, List.length_append, Region.holdsAt_append]
      refine ⟨by rw [hp', hp, Nat.add_assoc], ⟨?_, ?_⟩, fun i hi => ?_⟩
      · exact Cursor.keeps hrecord hp.ge hbefore'
      · rwa [hp] at hrest
      · rw [hbefore' i (by omega), hbefore i hi]

/-- The bytes of the whole table. -/
def tableBytes (s : State) : List UInt8 :=
  (withData s mokStateVariables).flatMap (record s) ++ List.replicate templateSize 0

/-- The filled pages hold the table, and the cursor has counted its bytes. -/
theorem fillTable_spec (s : State) :
    (fillTable s).p = (tableBytes s).length ∧ (fillTable s).region.HoldsAt 0 (tableBytes s) := by
  obtain ⟨hp, hrecords, -⟩ := foldl_fillStep s mokStateVariables ⟨0, fun _ => 0⟩
  obtain ⟨hp', hend, hbefore⟩ := (mokStateVariables.foldl (fillStep s) ⟨0, fun _ => 0⟩).copy_spec
    (List.replicate templateSize 0)
  rw [Nat.zero_add] at hp
  rw [tableBytes, List.length_append, Region.holdsAt_append, Nat.zero_add, ← hp]
  exact ⟨hp', Cursor.keeps hrecords (by rw [hp, Nat.zero_add]) hbefore, hend⟩

/-! ## Taking apart -/

/-- The header of a record is read back. -/
theorem configTemplate_spec {r : Region} {o n : ℕ} {name : List UInt8} (hname : PlainName name)
    (hn : n < 2 ^ 64) (h : r.HoldsAt o (configTemplate name n)) :
    r.bytes o templateSize ≠ List.replicate templateSize 0 ∧
      (r.bytes o 256).takeWhile (· ≠ 0) = name ∧ r.u64 (o + 256) = n := by
  have htake : name.take 255 = name := List.take_of_length_le hname.length_le
  have hlen : (name ++ List.replicate (256 - name.length) (0 : UInt8)).length = 256 := by
    have := hname.length_le
    simp
    omega
  have hall := h.bytes (length_configTemplate name n)
  unfold configTemplate at h
  rw [htake, Region.holdsAt_append, hlen] at h
  refine ⟨?_, ?_, h.2.u64 hn⟩
  · rw [hall]
    intro hzero
    obtain ⟨b, rest, rfl⟩ := List.exists_cons_of_ne_nil hname.ne_nil
    have hb : b ∈ List.replicate templateSize (0 : UInt8) := by
      rw [← hzero, configTemplate, htake]
      simp
    rw [List.eq_of_mem_replicate hb] at hname
    exact hname.no_nul List.mem_cons_self
  · rw [h.1.bytes hlen, List.takeWhile_append_of_pos]
    · simp
    · intro b hb
      simp only [ne_eq, decide_not, Bool.not_eq_true', decide_eq_false_iff_not]
      rintro rfl
      exact hname.no_nul hb

/-- Records end to end, with an empty header behind them, are taken apart again. -/
theorem decodeFrom_records {r : Region} {s : State} {vs : List MokVar} {fuel o : ℕ}
    (hsize : ∀ v ∈ vs, (s.data v).length < 2 ^ 64)
    (h : r.HoldsAt o (vs.flatMap (record s) ++ List.replicate templateSize 0))
    (hfuel : (vs.flatMap (record s)).length ≤ fuel) :
    decodeFrom r fuel o = vs.map fun v => (v.rtname8, s.data v) := by
  induction vs generalizing fuel o with
  | nil =>
    cases fuel with
    | zero => rfl
    | succ fuel =>
      rw [decodeFrom, if_pos]
      · rfl
      · exact h.bytes (List.length_replicate ..)
  | cons v vs ih =>
    rw [List.flatMap_cons, record, List.append_assoc, List.append_assoc,
      Region.holdsAt_append, Region.holdsAt_append, length_configTemplate] at h
    obtain ⟨hhead, hdata, hrest⟩ := h
    have hlen : (record s v).length = templateSize + (s.data v).length := by
      rw [record, List.length_append, length_configTemplate]
    rw [List.flatMap_cons, List.length_append, hlen] at hfuel
    obtain ⟨fuel, rfl⟩ : ∃ k, fuel = k + 1 :=
      ⟨fuel - 1, by unfold templateSize at hfuel; omega⟩
    obtain ⟨hne, hname, hn⟩ := configTemplate_spec (plainName_rtname8 v)
      (hsize v List.mem_cons_self) hhead
    rw [decodeFrom, if_neg hne]
    dsimp only
    rw [hname, hn, hdata.bytes rfl, ih (fun w hw => hsize w (List.mem_cons_of_mem _ hw)) hrest
      (by unfold templateSize at hfuel; omega)]
    rfl

/-! ## The size -/

/-- What an entry adds to the table. -/
def recordSize (s : State) (v : MokVar) : ℕ :=
  if s.data v ≠ [] then (s.data v).length + templateSize else 0

/-- How long the records are is what the sizes add up to. -/
theorem length_records (s : State) (vs : List MokVar) :
    ((withData s vs).flatMap (record s)).length = (vs.map (recordSize s)).sum := by
  induction vs with
  | nil => rfl
  | cons v vs ih =>
    by_cases hv : s.data v = []
    · have hwith : withData s (v :: vs) = withData s vs := by simp [withData, hv]
      rw [hwith, ih, List.map_cons, List.sum_cons, recordSize, if_neg (not_not_intro hv),
        Nat.zero_add]
    · have hwith : withData s (v :: vs) = v :: withData s vs := by simp [withData, hv]
      rw [hwith, List.flatMap_cons, List.length_append, ih, List.map_cons, List.sum_cons,
        recordSize, if_pos hv, record, List.length_append, length_configTemplate]
      omega

section Sized

variable {g : Globals} {f : Firmware}

/-- The pass with the size is the first pass. -/
theorem foldl_sizedStep_snd (vs : List MokVar) (acc : ℕ × EfiStatus × State) :
    (vs.foldl (sizedStep g f) acc).2 = vs.foldl (firstPassStep g f) acc.2 := by
  induction vs generalizing acc with
  | nil => rfl
  | cons v vs ih => exact ih _

/-- The size computed on the way is that of the data at the end: the import of another entry does
not touch the data of one. -/
theorem foldl_sizedStep_fst {vs : List MokVar} (hnodup : vs.Nodup) (acc : ℕ × EfiStatus × State)
    (hsize : acc.1 + (vs.map (recordSize (vs.foldl (sizedStep g f) acc).2.2)).sum < 2 ^ 64) :
    (vs.foldl (sizedStep g f) acc).1 =
      acc.1 + (vs.map (recordSize (vs.foldl (sizedStep g f) acc).2.2)).sum := by
  induction vs generalizing acc with
  | nil => rfl
  | cons v vs ih =>
    obtain ⟨hv, hnodup⟩ := List.nodup_cons.mp hnodup
    rw [List.foldl_cons] at hsize ⊢
    set next := sizedStep g f acc v with hnext
    have hdata : (vs.foldl (sizedStep g f) next).2.2.data v = next.2.2.data v := by
      rw [foldl_sizedStep_snd]
      exact ((separate_firstPass g f).foldl_of_not_mem hv).data
    rw [List.map_cons, List.sum_cons] at hsize ⊢
    have hstep : next.1 = acc.1 + recordSize (vs.foldl (sizedStep g f) next).2.2 v := by
      have hval : next.1 = if next.2.2.data v ≠ [] then
          (acc.1 + (next.2.2.data v).length + templateSize) % 2 ^ 64 else acc.1 := rfl
      rw [recordSize, hdata] at hsize ⊢
      by_cases hnil : next.2.2.data v = []
      · rw [hval, if_neg (not_not_intro hnil), if_neg (not_not_intro hnil), Nat.add_zero]
      · rw [if_pos hnil] at hsize ⊢
        rw [hval, if_pos hnil, Nat.mod_eq_of_lt (by omega), Nat.add_assoc]
    have hrest := ih hnodup next (by omega)
    omega

end Sized

/-! ## The sizes of the data -/

/-- The sizes of what shim is built with and has read are 32-bit numbers. -/
structure Globals.Sized (g : Globals) : Prop where
  vendorAuthorized : g.vendorAuthorized.length < 2 ^ 32
  vendorDeauthorized : g.vendorDeauthorized.length < 2 ^ 32
  buildCert : g.buildCert.length < 2 ^ 32
  userCert : g.userCert.length < 2 ^ 32

section Lengths

variable {g : Globals} {f : Firmware} {v : MokVar}

/-- A list with one signature takes its header, the owner and the data. -/
theorem length_fillEslWithOneSignature {data type owner esl : List UInt8}
    (h : fillEslWithOneSignature data type owner = .ok esl) :
    esl.length = type.length + 12 + (owner.length + data.length) := by
  unfold fillEslWithOneSignature fillEsl at h
  split_ifs at h
  cases h
  simp
  omega

/-- The fields of a row are no longer than what they are set to. -/
theorem Globals.Sized.row (hg : g.Sized) (v : MokVar) :
    (v.row g).addend.length < 2 ^ 32 ∧ (v.row g).buildCert.length < 2 ^ 32 ∧
      (v.row g).userCert.length < 2 ^ 32 := by
  have hnil : ([] : List UInt8).length < 2 ^ 32 := by decide
  cases v with
  | mokList => exact ⟨hg.vendorAuthorized, hg.buildCert, hg.userCert⟩
  | mokListX => exact ⟨hg.vendorDeauthorized, hnil, hnil⟩
  | _ => exact ⟨hnil, hnil, hnil⟩

/-- The vendor's data are shorter than 2^34 bytes. -/
theorem length_vendorData (hg : g.Sized) {vendor : List UInt8}
    (h : vendorData (v.row g) = .ok vendor) : vendor.length < 2 ^ 34 := by
  obtain ⟨haddend, hbuild, huser⟩ := hg.row v
  unfold vendorData at h
  split_ifs at h
  · obtain ⟨addend, hadd, h⟩ := exists_of_bind_ok h
    obtain ⟨build, hbuildCert, h⟩ := exists_of_bind_ok h
    -- a certificate grows by the header of its list and the owner
    have haddlen : addend.length ≤ (v.row g).addend.length + 44 := by
      unfold addendData at hadd
      cases hcat : (v.row g).categorizeAddend with
      | db =>
        rw [hcat] at hadd
        cases hadd
        omega
      | x509 =>
        rw [hcat] at hadd
        have hlen := length_fillEslWithOneSignature hadd
        rw [show certTypeX509Guid.length = 16 from rfl, show shimLockGuid.length = 16 from rfl]
          at hlen
        omega
      | none =>
        rw [hcat] at hadd
        cases hadd
        simp
    have hbuildlen : build.length ≤ (v.row g).buildCert.length + 44 := by
      unfold buildCertData at hbuildCert
      split_ifs at hbuildCert
      · cases hbuildCert
        simp
      · have hlen := length_fillEslWithOneSignature hbuildCert
        rw [show certTypeX509Guid.length = 16 from rfl, show shimLockGuid.length = 16 from rfl]
          at hlen
        omega
    obtain rfl : addend ++ build ++ (v.row g).userCert = vendor := Except.ok.inj h
    rw [List.length_append, List.length_append]
    omega
  · cases h
    exact (by decide : 0 < 2 ^ 34)

/-- The data that mirroring leaves: none, what was there, the dummy, or all that is mirrored. -/
theorem mirrorOneMokVariable_data (g : Globals) (f : Firmware) (v : MokVar) (s : State) :
    let data := (mirrorOneMokVariable g f true v s).2.data v
    data = [] ∨ data = s.data v ∨ nullSha256Esl = .ok data ∨
      ∃ vendor, vendorData (v.row g) = .ok vendor ∧ data = vendor ++ s.data v := by
  intro data
  cases hvendor : vendorData (v.row g) with
  | error e =>
    refine .inr (.inl ?_)
    simp only [data, mirrorOneMokVariable, hvendor]
  | ok vendor =>
    -- on an early return the data are what they were, or were freed
    have hleft : (if vendor = [] then [] else s.data v) = [] ∨
        (if vendor = [] then [] else s.data v) = s.data v := by
      split
      · exact .inl rfl
      · exact .inr rfl
    cases hfull : (if (v.row g).keydb ∧ vendor ++ s.data v = [] then nullSha256Esl
      else .ok (vendor ++ s.data v) : Except EfiStatus (List UInt8)) with
    | error e =>
      simp only [data, mirrorOneMokVariable, hvendor, hfull, Function.update_self]
      exact hleft.imp_right .inl
    | ok fullData =>
      cases fullData with
      | nil =>
        simp only [data, mirrorOneMokVariable, hvendor, hfull, Function.update_self]
        exact hleft.imp_right .inl
      | cons byte rest =>
        cases hlogged : measureAndLog (v.row g) (f.answers true v)
          (mirrorData g f true v (byte :: rest) s.vars).1 with
        | error e =>
          simp only [data, mirrorOneMokVariable, hvendor, hfull, if_true, hlogged,
            Function.update_self]
          exact hleft.imp_right .inl
        | ok status =>
          simp only [data, mirrorOneMokVariable, hvendor, hfull, if_true, hlogged,
            Function.update_self]
          split_ifs at hfull
          · exact .inr (.inr (.inl hfull))
          · exact .inr (.inr (.inr ⟨vendor, rfl, (Except.ok.inj hfull).symm⟩))

/-- What an entry takes fits a variable. -/
theorem length_taken {s : State} (hs : s.data v = []) :
    ((takeMokState g f true v s).2.data v).length < 2 ^ 31 := by
  have hnil : ([] : List UInt8).length < 2 ^ 31 := by decide
  have hread : (readMokState g f true v s).1.length < 2 ^ 31 := by
    unfold readMokState
    rw [if_neg (not_not_intro hs)]
    split
    · split
      · exact (by decide : 1 < 2 ^ 31)
      · exact hnil
    · exact hnil
    · rename_i x _
      dsimp only
      split
      · exact hnil
      · exact x.size_lt
  unfold takeMokState
  dsimp only
  by_cases hdelete : (readMokState g f true v s).2 = true
  · rw [if_pos hdelete]
    simp
  · rw [if_neg hdelete]
    simpa using hread

/-- After the first pass the data of an entry is far from overflowing a 64-bit number. -/
theorem length_firstPass (hg : g.Sized) (vars : Variables MokName) :
    ((firstPass g f (.initial vars)).2.data v).length < 2 ^ 35 := by
  rw [(firstPass_entry f v _).data]
  have htaken := length_taken (g := g) (f := f) (v := v) (s := .initial vars) rfl
  set s := deleteFirst g f true v (takeMokState g f true v (.initial vars)).2 with hs
  have hdata : (importOneMokState g f true v (.initial vars)).2.data v =
      (mirrorOneMokVariable g f true v s).2.data v := by
    change (takeState g v _).data v = _
    rw [takeState_data]
  have hkept : s.data v = (takeMokState g f true v (.initial vars)).2.data v := by
    rw [hs, deleteFirst]
    split <;> rfl
  rw [hdata]
  rcases mirrorOneMokVariable_data g f v s with h | h | h | ⟨vendor, hvendor, h⟩
  · rw [h]
    exact (by decide : 0 < 2 ^ 35)
  · rw [h, hkept]
    omega
  · have hlen := length_fillEslWithOneSignature h
    rw [hlen]
    decide
  · have hlen := length_vendorData hg hvendor
    rw [h, List.length_append, hkept]
    omega

end Lengths

/-! ## The published table -/

section Published

variable {g : Globals} {f : Firmware}

/-- The table of an import that starts from the variables `vars`: its records are the entries with
data, its size is what was written, and it fits its pages. There is none only without data or
without pages. -/
def TableExact (g : Globals) (f : Firmware) (vars : Variables MokName) : Prop :=
  let s := (firstPass g f (.initial vars)).2
  match publishTable g f (.initial vars) with
  | none => withData s mokStateVariables = [] ∨ f.configPages = false
  | some t =>
    decodeTable t = (withData s mokStateVariables).map (fun v => (v.rtname8, s.data v)) ∧
      t.filled.p = t.configSz ∧ t.configSz ≤ 4096 * t.npages

/-- The pass that sizes is the first pass, and it comes to the size of the records. -/
theorem sizedPass_eq (hg : g.Sized) (vars : Variables MokName) :
    (sizedPass g f (.initial vars)).2 = firstPass g f (.initial vars) ∧
      (sizedPass g f (.initial vars)).1 = ((withData (firstPass g f (.initial vars)).2
        mokStateVariables).flatMap (record (firstPass g f (.initial vars)).2)).length ∧
      (sizedPass g f (.initial vars)).1 < 2 ^ 39 := by
  have hpass : (sizedPass g f (.initial vars)).2 = firstPass g f (.initial vars) :=
    foldl_sizedStep_snd _ _
  have hrecord : ∀ v, recordSize (firstPass g f (.initial vars)).2 v < 2 ^ 36 := by
    intro v
    have := length_firstPass (g := g) (f := f) (v := v) hg vars
    unfold recordSize templateSize
    split <;> omega
  -- seven records of less than 2^36 bytes
  have hsum : (mokStateVariables.map (recordSize (firstPass g f (.initial vars)).2)).sum < 2 ^ 39 := by
    simp only [mokStateVariables, List.map_cons, List.map_nil, List.sum_cons, List.sum_nil]
    have h0 := hrecord .mokList
    have h1 := hrecord .mokListX
    have h2 := hrecord .mokSBState
    have h3 := hrecord .mokDBState
    have h4 := hrecord .sbatLevel
    have h5 := hrecord .mokListTrusted
    have h6 := hrecord .mokPolicy
    omega
  have hsize : (sizedPass g f (.initial vars)).1 =
      0 + (mokStateVariables.map (recordSize (sizedPass g f (.initial vars)).2.2)).sum := by
    refine foldl_sizedStep_fst nodup_mokStateVariables _ ?_
    change 0 + (mokStateVariables.map (recordSize (sizedPass g f (.initial vars)).2.2)).sum < _
    rw [hpass]
    omega
  rw [hpass, Nat.zero_add] at hsize
  exact ⟨hpass, by rw [hsize, length_records], by rw [hsize]; exact hsum⟩

/-- There are no records without data. -/
theorem sizedPass_eq_zero_iff (hg : g.Sized) (vars : Variables MokName) :
    (sizedPass g f (.initial vars)).1 = 0 ↔
      withData (firstPass g f (.initial vars)).2 mokStateVariables = [] := by
  rw [(sizedPass_eq hg vars).2.1]
  constructor
  · intro hzero
    by_contra hdata
    obtain ⟨v, rest, hrest⟩ := List.exists_cons_of_ne_nil hdata
    rw [hrest, List.flatMap_cons, List.length_append, record, List.length_append,
      length_configTemplate] at hzero
    unfold templateSize at hzero
    omega
  · intro hnil
    rw [hnil]
    rfl

/-- A table that is published has the records, and fits its pages. -/
theorem decodeTable_publishTable (hg : g.Sized) {f : Firmware} {vars : Variables MokName}
    {t : Published} (ht : publishTable g f (.initial vars) = some t) :
    decodeTable t = (withData (firstPass g f (.initial vars)).2 mokStateVariables).map
        (fun v => (v.rtname8, (firstPass g f (.initial vars)).2.data v)) ∧
      t.filled.p = t.configSz ∧ t.configSz ≤ 4096 * t.npages := by
  obtain ⟨hpass, hsize, hlt⟩ := sizedPass_eq (f := f) hg vars
  unfold publishTable at ht
  dsimp only at ht
  split_ifs at ht
  obtain rfl := Option.some.inj ht
  rw [hpass]
  set s := (firstPass g f (.initial vars)).2 with hs
  obtain ⟨hp, hholds⟩ := fillTable_spec s
  have htable : (tableBytes s).length = (sizedPass g f (.initial vars)).1 + templateSize := by
    rw [tableBytes, List.length_append, List.length_replicate, hsize]
  -- the sum of the sizes does not wrap, and the pages hold it
  have hconfig : ((sizedPass g f (.initial vars)).1 + templateSize) % 2 ^ 64 =
      (tableBytes s).length := by
    rw [htable, Nat.mod_eq_of_lt]
    unfold templateSize
    omega
  have hpages : (tableBytes s).length ≤ 4096 * (alignValue (tableBytes s).length 4096 / 4096) := by
    rw [alignValue_page]
    · omega
    · rw [htable]
      unfold templateSize
      omega
  rw [hconfig]
  refine ⟨?_, hp, hpages⟩
  -- the records of the first pass, read back one after the other
  refine decodeFrom_records (fun v _ => ?_) (hholds.congr fun _ _ _ => rfl) ?_
  · have hlen : (s.data v).length < 2 ^ 35 := length_firstPass hg vars
    omega
  · change _ ≤ 4096 * (alignValue (tableBytes s).length 4096 / 4096)
    rw [← hsize]
    omega

/-- The configuration table round-trips and fits. -/
theorem tableExact (hg : g.Sized) (f : Firmware) (vars : Variables MokName) :
    TableExact g f vars := by
  unfold TableExact
  dsimp only
  cases ht : publishTable g f (.initial vars) with
  | none =>
    have hnone : (sizedPass g f (.initial vars)).1 = 0 ∨ f.configPages = false := by
      by_contra hsome
      rw [publishTable] at ht
      dsimp only at ht
      rw [if_neg hsome] at ht
      cases ht
    exact hnone.imp_left (sizedPass_eq_zero_iff hg vars).mp
  | some t => exact decodeTable_publishTable hg ht

/-- A shim without built-in data is of a usual size. -/
theorem sized_plain : Globals.plain.Sized := ⟨by decide, by decide, by decide, by decide⟩

/-- The table of a machine with three flags stored, and a mirror of the two empty databases. -/
theorem tableExact_switchedOff : TableExact .plain .quiet switchedOff :=
  tableExact sized_plain .quiet _

/-- The table of `importMokState` is what the published pages are taken apart into. -/
theorem configTable_decodes (hg : g.Sized) (f : Firmware) (vars : Variables MokName) :
    (importMokState g f (.initial vars)).configTable.map
        (List.map fun e => (e.name.toList.map fun c => UInt8.ofNat c.toNat, e.data)) =
      (publishTable g f (.initial vars)).map fun t => decodeTable t ++ [([], [])] := by
  have hzero := sizedPass_eq_zero_iff (f := f) hg vars
  have hconfig : (importMokState g f (.initial vars)).configTable =
      configTable f (firstPass g f (.initial vars)).2 := by
    unfold importMokState
    dsimp only
    rw [clearModes_initial]
  rw [hconfig]
  unfold configTable
  dsimp only
  by_cases hnone : (sizedPass g f (.initial vars)).1 = 0 ∨ f.configPages = false
  · have hpublish : publishTable g f (.initial vars) = none := if_pos hnone
    rw [hpublish, if_neg]
    · rfl
    · rintro ⟨hdata, hpages⟩
      exact hnone.elim (fun h => hdata (hzero.mp h)) fun h => by simp [h] at hpages
  · obtain ⟨t, ht⟩ : ∃ t, publishTable g f (.initial vars) = some t := ⟨_, if_neg hnone⟩
    obtain ⟨hdata, hpages⟩ := not_or.mp hnone
    rw [ht, if_pos ⟨fun h => hdata (hzero.mpr h), by simpa using hpages⟩, Option.map_some,
      Option.map_some, (decodeTable_publishTable hg ht).1]
    simp [withData, MokVar.rtname8]

end Published

end Shim.Mok
