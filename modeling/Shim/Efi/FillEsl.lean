import Shim.Efi.FindInEsl

/-! # Making signature lists

`fill_esl`, `fill_esl_with_one_signature`, `variable_create_esl` and
`variable_create_esl_with_one_signature` (lib/variables.c). Each is asked for the size first and
then fills a buffer of that size. `size_t` has 64 bits; the length of a single signature is given
as a `size_t` and handed on as a `uint32_t`.
-/

namespace Shim

/-- `EFI_GUID`. -/
abbrev Guid := {guid : List UInt8 // guid.length = 16}

/-- The status of a call, and what `out` and `*outlen` hold after it. -/
structure Filled where
  status : EfiStatus
  out : Option (List UInt8)
  outlen : Option ℕ

/-! ## The functions -/

/-- `fill_esl`. A null pointer is `none`; `firstSig` is the memory the signatures are copied from
and `out` the buffer as it is before. -/
def fillEsl (firstSig : Option Region) (howmany : ℕ) (type : Option Guid) (sigSize : ℕ)
    (out : Option (List UInt8)) (outlen : Option ℕ) : Filled :=
  let dataLen := howmany * sigSize % 2 ^ 64
  match type, outlen with
  | some type, some len =>
    if out.isSome ∧ firstSig.isNone ∨ howmany = 0 ∨ sigSize = 0 then
      ⟨.invalidParameter, out, outlen⟩
    else if (2 ^ 32 - 1 - 28) / sigSize < howmany then ⟨.invalidParameter, out, outlen⟩
    else
      let needed := 28 + dataLen
      match out, firstSig with
      | some buffer, some sigs =>
        if len < needed then ⟨.bufferTooSmall, out, some needed⟩
        else
          ⟨.success, some (type.1 ++ Region.le32 needed ++ Region.le32 0 ++ Region.le32 sigSize ++
            sigs.bytes 0 dataLen ++ buffer.drop needed), some needed⟩
      | _, _ => ⟨.bufferTooSmall, out, some needed⟩
  | _, _ => ⟨.invalidParameter, out, outlen⟩

/-- `fill_esl_with_one_signature`, with `sizeof(EFI_SIGNATURE_DATA) == 17`; `alloc` tells whether the
signature can be allocated. -/
def fillEslWithOneSignature (data : Region) (dataLen : ℕ) (type owner : Option Guid)
    (out : Option (List UInt8)) (outlen : Option ℕ) (alloc : Bool) : Filled :=
  let sigSize := (17 - 1 + dataLen) % 2 ^ 32
  if 2 ^ 32 - 1 - 17 + 1 < dataLen then ⟨.invalidParameter, out, outlen⟩
  else if out.isSome then
    if alloc then
      let sd := (owner.elim (List.replicate 16 0) Subtype.val) ++ data.bytes 0 dataLen
      fillEsl (some (Region.ofList 0 sd)) 1 type sigSize out outlen
    else ⟨.outOfResources, out, outlen⟩
  else fillEsl none 1 type sigSize out outlen

/-- `variable_create_esl`; `alloc` tells whether the list can be allocated. -/
def variableCreateEsl (firstSig : Option Region) (howmany : ℕ) (type : Option Guid) (sigSize : ℕ)
    (alloc : Bool) : Filled :=
  let query := fillEsl firstSig howmany type sigSize none (some 0)
  if query.status ≠ .bufferTooSmall then query
  else if alloc then
    fillEsl firstSig howmany type sigSize (some (List.replicate (query.outlen.getD 0) 0))
      query.outlen
  else ⟨.outOfResources, none, query.outlen⟩

/-- `variable_create_esl_with_one_signature`. The `size_t` that says how long the data is becomes a
`uint32_t` in the calls. -/
def variableCreateEslWithOneSignature (data : Region) (dataLen : ℕ) (type owner : Option Guid)
    (allocList allocSig : Bool) : Filled :=
  let query := fillEslWithOneSignature data (dataLen % 2 ^ 32) type owner none (some 0) allocSig
  if query.status ≠ .bufferTooSmall then query
  else if allocList then
    fillEslWithOneSignature data (dataLen % 2 ^ 32) type owner
      (some (List.replicate (query.outlen.getD 0) 0)) query.outlen allocSig
  else ⟨.outOfResources, none, query.outlen⟩

/-! ## The protocol of two calls -/

/-- An array of signatures of one size. -/
structure SignatureArray where
  size : ℕ
  sigs : List (List UInt8)
  size_lt : size < 2 ^ 32
  uniform : ∀ s ∈ sigs, s.length = size

/-- The array in memory. -/
def SignatureArray.memory (a : SignatureArray) : Region := Region.ofList 0 a.sigs.flatten

/-- A use of one of the functions: of `fill_esl` by a caller that asks for the size, with some
number in `*outlen`, and fills a buffer of that size, whatever it held; or of one of the two that
allocate. -/
inductive EslCall where
  | fillEsl (array : SignatureArray) (type : Guid) (outlen : ℕ) (buffer : ℕ → UInt8)
  | variableCreateEsl (array : SignatureArray) (type : Guid) (alloc : Bool)
  | variableCreateEslWithOneSignature (data : List UInt8) (type : Guid) (owner : Option Guid)
      (allocList allocSig : Bool)

namespace EslCall

/-- The list that is asked for: its type, the size of its signatures, and the signatures. -/
def asked : EslCall → Guid × ℕ × List (List UInt8)
  | fillEsl array type _ _ => (type, array.size, array.sigs)
  | variableCreateEsl array type _ => (type, array.size, array.sigs)
  | variableCreateEslWithOneSignature data type owner _ _ =>
    (type, 16 + data.length, [owner.elim (List.replicate 16 0) Subtype.val ++ data])

/-- The size query. -/
def query : EslCall → Filled
  | fillEsl array type outlen _ =>
    Shim.fillEsl (some array.memory) array.sigs.length (some type) array.size none (some outlen)
  | variableCreateEsl array type _ =>
    Shim.fillEsl (some array.memory) array.sigs.length (some type) array.size none (some 0)
  | variableCreateEslWithOneSignature data type owner _ allocSig =>
    fillEslWithOneSignature (Region.ofList 0 data) (data.length % 2 ^ 32) (some type) owner none
      (some 0) allocSig

/-- What comes out at last. -/
def made (call : EslCall) : Filled :=
  match call with
  | fillEsl array type _ buffer =>
    if call.query.status ≠ .bufferTooSmall then call.query
    else
      Shim.fillEsl (some array.memory) array.sigs.length (some type) array.size
        (some ((List.range (call.query.outlen.getD 0)).map buffer)) call.query.outlen
  | variableCreateEsl array type alloc =>
    Shim.variableCreateEsl (some array.memory) array.sigs.length (some type) array.size alloc
  | variableCreateEslWithOneSignature data type owner allocList allocSig =>
    Shim.variableCreateEslWithOneSignature (Region.ofList 0 data) data.length (some type) owner
      allocList allocSig

end EslCall

/-- The bytes are a list of `n` bytes with these signatures, for the loops and for `find_in_esl`. -/
structure Encodes (out : List UInt8) (n : ℕ) (type : Guid) (size : ℕ) (sigs : List (List UInt8)) :
    Prop where
  length : out.length = n
  lt : n < 2 ^ 32 ∧ size < 2 ^ 32
  listSize : signatureListSize (Region.ofList 0 out) 0 = n
  sigSize : signatureSize (Region.ofList 0 out) 0 = size
  decode : decodeEsl out = [(type.1, sigs)]
  find : ∀ key : List UInt8, key.length + 16 = size →
    findInEsl out key = some (if ∃ s ∈ sigs, s.drop 16 = key then .success else .notFound)

/-- The call fails, or it reports the size of what it makes and makes what is asked for. -/
def EslCall.RoundTrips (call : EslCall) : Prop :=
  call.made.status = .success → ∃ n out, call.query.outlen = some n ∧ call.made.outlen = some n ∧
    call.made.out = some out ∧ Encodes out n call.asked.1 call.asked.2.1 call.asked.2.2

/-- The data of a single signature has a length that a `uint32_t` can tell, or the call fails. -/
def EslCall.Tells : EslCall → Prop
  | fillEsl _ _ _ _ => True
  | variableCreateEsl _ _ _ => True
  | variableCreateEslWithOneSignature data _ _ allocList allocSig =>
    data.length < 2 ^ 32 ∨ allocList = false ∨ allocSig = false ∨
      2 ^ 32 - 45 < data.length % 2 ^ 32

/-! ## What the functions make -/

/-- The sizes that `fill_esl` accepts. -/
structure EslFits (howmany size : ℕ) : Prop where
  howmany_pos : 0 < howmany
  size_pos : 0 < size
  lt : 28 + howmany * size < 2 ^ 32

section Fill

variable (type : Guid) {howmany size len : ℕ} {firstSig : Option Region} {out : Option (List UInt8)}

/-- What fits passes the test against an overflow. -/
theorem EslFits.not_lt (h : EslFits howmany size) : ¬ (2 ^ 32 - 1 - 28) / size < howmany := by
  have hlt := h.lt
  rw [Nat.not_lt, Nat.le_div_iff_mul_le h.size_pos]
  omega

/-- What does not fit is refused, in either call. -/
theorem fillEsl_of_not_fits (h : ¬ EslFits howmany size) :
    (fillEsl firstSig howmany (some type) size out (some len)).status = .invalidParameter := by
  by_cases hzero : out.isSome ∧ firstSig.isNone ∨ howmany = 0 ∨ size = 0
  · simp only [fillEsl, if_pos hzero]
  · have hbig : (2 ^ 32 - 1 - 28) / size < howmany := by
      by_contra hle
      rw [Nat.not_lt, Nat.le_div_iff_mul_le (by omega)] at hle
      exact h ⟨by omega, by omega, by omega⟩
    simp only [fillEsl, if_neg hzero, if_pos hbig]

/-- The size query. -/
theorem fillEsl_query (h : EslFits howmany size) :
    fillEsl firstSig howmany (some type) size none (some len) =
      ⟨.bufferTooSmall, none, some (28 + howmany * size)⟩ := by
  have hzero : ¬ ((none : Option (List UInt8)).isSome ∧ firstSig.isNone ∨ howmany = 0 ∨ size = 0) := by
    have := h.howmany_pos
    have := h.size_pos
    rintro (⟨hsome, -⟩ | hzero)
    · exact absurd hsome Bool.false_ne_true
    · omega
  have hmod := Nat.mod_eq_of_lt (lt_trans (Nat.lt_of_add_left_lt h.lt) (by decide : 2 ^ 32 < 2 ^ 64))
  simp only [fillEsl, if_neg hzero, if_neg h.not_lt, hmod]

/-- Filling a buffer of the size that was reported. -/
theorem fillEsl_filled (h : EslFits howmany size) (sigs : Region) {buffer : List UInt8}
    (hbuffer : buffer.length = 28 + howmany * size) :
    fillEsl (some sigs) howmany (some type) size (some buffer) (some (28 + howmany * size)) =
      ⟨.success, some (eslHeader type.1 howmany size ++ sigs.bytes 0 (howmany * size)),
        some (28 + howmany * size)⟩ := by
  have hzero : ¬ ((some buffer).isSome ∧ (some sigs).isNone ∨ howmany = 0 ∨ size = 0) := by
    have := h.howmany_pos
    have := h.size_pos
    rintro (⟨-, hnone⟩ | hzero)
    · exact absurd hnone Bool.false_ne_true
    · omega
  have hmod := Nat.mod_eq_of_lt (lt_trans (Nat.lt_of_add_left_lt h.lt) (by decide : 2 ^ 32 < 2 ^ 64))
  have hdrop : buffer.drop (28 + howmany * size) = [] := List.drop_eq_nil_of_le hbuffer.le
  simp only [fillEsl, if_neg hzero, if_neg h.not_lt, hmod, lt_irrefl, if_false, hdrop,
    List.append_nil, eslHeader]

/-- A list that fits is what it is decoded to. -/
theorem encodes_esl {sigs : List (List UInt8)} (h : EslFits sigs.length size)
    (huniform : ∀ s ∈ sigs, s.length = size) :
    Encodes (esl type.1 size sigs) (28 + sigs.length * size) type size sigs := by
  have hlt : size < 2 ^ 32 := by
    have := Nat.le_mul_of_pos_left size h.howmany_pos
    have := h.lt
    omega
  have hholds : (Region.ofList 0 (esl type.1 size sigs)).HoldsAt 0 (esl type.1 size sigs) :=
    Region.holdsAt_ofList_zero 0 _
  have hat := eslAt_of_holdsAt type.2 h.size_pos huniform h.lt hlt hholds
  refine ⟨length_esl type.2 huniform, ⟨h.lt, hlt⟩, hat.listSize, hat.sigSize,
    decodeEsl_esl type.2 h.size_pos huniform h.lt hlt, fun key hkey => ?_⟩
  rw [findInEsl_esl type.2 h.size_pos huniform h.lt hlt]
  simp only [hkey, true_and]

/-- The array in memory is what is copied. -/
theorem SignatureArray.bytes_memory (a : SignatureArray) :
    a.memory.bytes 0 (a.sigs.length * a.size) = a.sigs.flatten := by
  have hholds : a.memory.HoldsAt 0 a.sigs.flatten := Region.holdsAt_ofList_zero 0 _
  exact hholds.bytes (length_flatten_of_uniform a.uniform)

/-- The two calls of `variable_create_esl`. -/
theorem variableCreateEsl_eq (h : EslFits howmany size) (sigs : Region) :
    variableCreateEsl (some sigs) howmany (some type) size true =
      ⟨.success, some (eslHeader type.1 howmany size ++ sigs.bytes 0 (howmany * size)),
        some (28 + howmany * size)⟩ := by
  simp only [variableCreateEsl, fillEsl_query type h, ne_eq, not_true_eq_false, if_false, if_true,
    Option.getD_some]
  exact fillEsl_filled type h sigs List.length_replicate

/-- The owner that is written: a missing one is noughts. -/
def ownerBytes (owner : Option Guid) : List UInt8 := owner.elim (List.replicate 16 0) Subtype.val

/-- An owner takes 16 bytes, also if it is left out. -/
theorem length_ownerBytes (owner : Option Guid) : (ownerBytes owner).length = 16 := by
  cases owner with
  | none => exact List.length_replicate
  | some guid => exact guid.2

/-- A signature that does not fit is refused, or not allocated. -/
theorem fillEslWithOneSignature_of_not_fits {data : Region} {dataLen : ℕ} {owner : Option Guid}
    (h : 2 ^ 32 - 45 < dataLen) (alloc : Bool) :
    (fillEslWithOneSignature data dataLen (some type) owner none (some len) alloc).status =
      .invalidParameter := by
  unfold fillEslWithOneSignature
  by_cases hbig : 2 ^ 32 - 1 - 17 + 1 < dataLen
  · simp only [if_pos hbig]
  · have hnot : ¬ EslFits 1 ((17 - 1 + dataLen) % 2 ^ 32) := by
      intro hfits
      have := hfits.lt
      omega
    simp only [if_neg hbig, Option.isSome_none, Bool.false_eq_true, if_false,
      fillEsl_of_not_fits type hnot]

/-- One signature of this length fits. -/
theorem eslFits_one {dataLen : ℕ} (h : dataLen ≤ 2 ^ 32 - 45) : EslFits 1 (16 + dataLen) :=
  ⟨Nat.one_pos, by omega, by omega⟩

/-- A signature that fits is laid out and handed on. -/
theorem fillEslWithOneSignature_eq {n : ℕ} (h : n ≤ 2 ^ 32 - 45) (data : Region)
    (owner : Option Guid) (alloc : Bool) :
    fillEslWithOneSignature data n (some type) owner out (some len) alloc =
      if out.isSome then
        if alloc then
          fillEsl (some (Region.ofList 0 (ownerBytes owner ++ data.bytes 0 n))) 1 (some type)
            (16 + n) out (some len)
        else ⟨.outOfResources, out, some len⟩
      else fillEsl none 1 (some type) (16 + n) out (some len) := by
  have hsmall : ¬ 2 ^ 32 - 1 - 17 + 1 < n := by omega
  have hsize : (17 - 1 + n) % 2 ^ 32 = 16 + n := by omega
  simp only [fillEslWithOneSignature, if_neg hsmall, hsize, ownerBytes]

/-- The two calls of `variable_create_esl_with_one_signature`: the low 32 bits of the length count. -/
theorem variableCreateEslWithOneSignature_eq {dataLen n : ℕ} (hn : dataLen % 2 ^ 32 = n)
    (h : n ≤ 2 ^ 32 - 45) (data : Region) (owner : Option Guid) :
    fillEslWithOneSignature data n (some type) owner none (some 0) true =
        ⟨.bufferTooSmall, none, some (28 + 1 * (16 + n))⟩ ∧
      variableCreateEslWithOneSignature data dataLen (some type) owner true true =
        ⟨.success, some (esl type.1 (16 + n) [ownerBytes owner ++ data.bytes 0 n]),
          some (28 + 1 * (16 + n))⟩ := by
  have hfits := eslFits_one h
  have hquery : fillEslWithOneSignature data n (some type) owner none (some 0) true =
      ⟨.bufferTooSmall, none, some (28 + 1 * (16 + n))⟩ :=
    (fillEslWithOneSignature_eq type h data owner true).trans (fillEsl_query type hfits)
  have hsd : (Region.ofList 0 (ownerBytes owner ++ data.bytes 0 n)).bytes 0 (1 * (16 + n)) =
      ownerBytes owner ++ data.bytes 0 n :=
    (Region.holdsAt_ofList_zero 0 _).bytes (by simp [length_ownerBytes])
  refine ⟨hquery, ?_⟩
  simp only [variableCreateEslWithOneSignature, hn, hquery, ne_eq, not_true_eq_false, if_false,
    if_true, Option.getD_some]
  rw [fillEslWithOneSignature_eq type h, Option.isSome_some, if_pos rfl, if_pos rfl,
    fillEsl_filled type hfits _ List.length_replicate, hsd, esl, List.flatten_singleton,
    List.length_singleton]

/-- A list that is made was allocated, and so was its signature. -/
theorem allocated_of_success {data : Region} {dataLen : ℕ} {owner : Option Guid}
    {allocList allocSig : Bool} (h : dataLen % 2 ^ 32 ≤ 2 ^ 32 - 45)
    (hstatus : (variableCreateEslWithOneSignature data dataLen (some type) owner allocList
      allocSig).status = .success) : allocList = true ∧ allocSig = true := by
  have hquery : fillEslWithOneSignature data (dataLen % 2 ^ 32) (some type) owner none (some 0)
      allocSig = ⟨.bufferTooSmall, none, some (28 + 1 * (16 + dataLen % 2 ^ 32))⟩ :=
    (fillEslWithOneSignature_eq type h data owner allocSig).trans (fillEsl_query type (eslFits_one h))
  simp only [variableCreateEslWithOneSignature, hquery, ne_eq, not_true_eq_false, if_false,
    fillEslWithOneSignature_eq type h, Option.isSome_some, if_true] at hstatus
  cases allocList <;> cases allocSig <;> first | exact ⟨rfl, rfl⟩ | cases hstatus

/-- A call that makes a list out of an array makes the list that was asked for. -/
theorem roundTrips_of_array (call : EslCall) {a : SignatureArray} (hasked :
    call.asked = (type, a.size, a.sigs))
    (hquery : EslFits a.sigs.length a.size →
      call.query.outlen = some (28 + a.sigs.length * a.size))
    (hmade : EslFits a.sigs.length a.size → call.made.status = .success →
      call.made = ⟨.success, some (esl type.1 a.size a.sigs), some (28 + a.sigs.length * a.size)⟩)
    (hrefused : ¬ EslFits a.sigs.length a.size → call.made.status ≠ .success) :
    call.RoundTrips := by
  intro hstatus
  have hfits : EslFits a.sigs.length a.size := by
    by_contra hnot
    exact hrefused hnot hstatus
  have hcall := hmade hfits hstatus
  refine ⟨_, _, hquery hfits, congrArg Filled.outlen hcall, congrArg Filled.out hcall, ?_⟩
  rw [hasked]
  exact encodes_esl type hfits a.uniform

/-- A list whose signature is longer than its size field can tell is not what was asked for. -/
theorem not_roundTrips_of_long (owner : Option Guid) {data : List UInt8}
    (hlen : 2 ^ 32 ≤ data.length) (hlow : data.length % 2 ^ 32 ≤ 2 ^ 32 - 45) :
    ¬ (EslCall.variableCreateEslWithOneSignature data type owner true true).RoundTrips := by
  intro h
  have hcall := (variableCreateEslWithOneSignature_eq type rfl hlow (Region.ofList 0 data) owner).2
  obtain ⟨_, _, -, -, -, hencodes⟩ := h (congrArg Filled.status hcall)
  have hlt : 16 + data.length < 2 ^ 32 := hencodes.lt.2
  omega

end Fill

/-- The array in memory, laid out behind its header. -/
theorem SignatureArray.eslHeader_append (a : SignatureArray) (type : Guid) :
    eslHeader type.1 a.sigs.length a.size ++ a.memory.bytes 0 (a.sigs.length * a.size) =
      esl type.1 a.size a.sigs := by
  rw [a.bytes_memory, esl]

/-- Making a list gives back what was asked for, or fails, unless the length of a single
signature is more than a `uint32_t` can tell and its low bits make a list. -/
theorem eslRoundTrips_iff (call : EslCall) : call.RoundTrips ↔ call.Tells := by
  cases call with
  | fillEsl a type outlen buffer =>
    refine iff_of_true (roundTrips_of_array type _ (a := a) rfl ?_ ?_ ?_) trivial
    · intro hfits
      simp only [EslCall.query, fillEsl_query type hfits]
    · intro hfits _
      simp only [EslCall.made, EslCall.query, fillEsl_query type hfits, ne_eq, not_true_eq_false,
        if_false, Option.getD_some]
      rw [fillEsl_filled type hfits a.memory (by simp), a.eslHeader_append]
    · intro hnot hstatus
      have hquery : (EslCall.fillEsl a type outlen buffer).query.status = .invalidParameter :=
        fillEsl_of_not_fits type hnot
      rw [EslCall.made, if_pos (by rw [hquery]; simp), hquery] at hstatus
      cases hstatus
  | variableCreateEsl a type alloc =>
    refine iff_of_true (roundTrips_of_array type _ (a := a) rfl ?_ ?_ ?_) trivial
    · intro hfits
      simp only [EslCall.query, fillEsl_query type hfits]
    · intro hfits hstatus
      cases alloc with
      | false => simp [EslCall.made, variableCreateEsl, fillEsl_query type hfits] at hstatus
      | true => rw [EslCall.made, variableCreateEsl_eq type hfits, a.eslHeader_append]
    · intro hnot hstatus
      have hquery : (fillEsl (some a.memory) a.sigs.length (some type) a.size none
        (some 0)).status = .invalidParameter := fillEsl_of_not_fits type hnot
      rw [EslCall.made, variableCreateEsl, if_pos (by rw [hquery]; simp), hquery] at hstatus
      cases hstatus
  -- the length of the data is taken modulo 2^32 here
  | variableCreateEslWithOneSignature data type owner allocList allocSig =>
    constructor
    · intro h
      by_contra hnot
      simp only [EslCall.Tells, not_or, Bool.not_eq_false] at hnot
      obtain ⟨hlen, rfl, rfl, hlow⟩ := hnot
      exact not_roundTrips_of_long type owner (Nat.not_lt.mp hlen) (Nat.not_lt.mp hlow) h
    · intro htells hstatus
      by_cases hlow : 2 ^ 32 - 45 < data.length % 2 ^ 32
      -- the query is refused, and nothing is made
      · have hquery : (fillEslWithOneSignature (Region.ofList 0 data) (data.length % 2 ^ 32)
            (some type) owner none (some 0) allocSig).status = .invalidParameter :=
          fillEslWithOneSignature_of_not_fits type hlow allocSig
        rw [EslCall.made, variableCreateEslWithOneSignature, if_pos (by rw [hquery]; simp),
          hquery] at hstatus
        cases hstatus
      · obtain ⟨rfl, rfl⟩ := allocated_of_success type (Nat.not_lt.mp hlow) hstatus
        have hlen : data.length < 2 ^ 32 := by
          rcases htells with h | h | h | h
          · exact h
          · cases h
          · cases h
          · exact absurd h hlow
        have hmod := Nat.mod_eq_of_lt hlen
        rw [hmod] at hlow
        obtain ⟨hquery, hcall⟩ := variableCreateEslWithOneSignature_eq type hmod
          (Nat.not_lt.mp hlow) (Region.ofList 0 data) owner
        have hdata : (Region.ofList 0 data).bytes 0 data.length = data :=
          (Region.holdsAt_ofList_zero 0 data).bytes rfl
        rw [hdata] at hcall
        refine ⟨_, _, ?_, congrArg Filled.outlen hcall, congrArg Filled.out hcall, ?_⟩
        · rw [EslCall.query, hmod, hquery]
        · exact encodes_esl type (eslFits_one (Nat.not_lt.mp hlow)) (by simp [length_ownerBytes])

/-- Data of 2^32 + 32 bytes becomes a list with a signature of 32. -/
theorem not_eslRoundTrips_long : ¬ (EslCall.variableCreateEslWithOneSignature
    (List.replicate (2 ^ 32 + 32) 1) ⟨certSha256Guid, rfl⟩ none true true).RoundTrips :=
  not_roundTrips_of_long _ _ (by rw [List.length_replicate]; omega)
    (by rw [List.length_replicate]; omega)

end Shim
