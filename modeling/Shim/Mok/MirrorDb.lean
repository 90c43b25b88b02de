import Shim.Mok.Table

/-! # Mirroring a key database

`fill_esl` and its callers (lib/variables.c), `get_max_var_sz`, `mirror_one_esl` and `mirror_mok_db`
(mok.c). A database that is too large for one variable is split: the first pass writes the first
piece to the mirror itself, the second pass skips a piece and writes the others to numbered
variables. Allocations succeed.
-/

namespace Shim.Mok

open Bytes (sub64)

/-! ## Making a signature list -/

/-- `fill_esl` into a buffer large enough, on the bytes of `howmany` signatures. -/
def fillEsl (sigs : List UInt8) (howmany : ℕ) (type : List UInt8) (sigSize : ℕ) :
    Except EfiStatus (List UInt8) :=
  if howmany = 0 ∨ sigSize = 0 then .error .invalidParameter
  else if (2 ^ 32 - 1 - 28) / sigSize < howmany then .error .invalidParameter
  else .ok (type ++ Region.le32 (28 + howmany * sigSize) ++ Region.le32 0 ++ Region.le32 sigSize ++
    sigs)

/-- `fill_esl_with_one_signature`, with `sizeof(EFI_SIGNATURE_DATA) == 17`. -/
def fillEslWithOneSignature (data type owner : List UInt8) : Except EfiStatus (List UInt8) :=
  if 2 ^ 32 - 1 - 17 + 1 < data.length then .error .invalidParameter
  else fillEsl (owner ++ data) 1 type (16 + data.length)

/-- `variable_create_esl`: the size is asked for, allocated and filled. -/
def variableCreateEsl (sigs : List UInt8) (howmany : ℕ) (type : List UInt8) (sigSize : ℕ) :
    Except EfiStatus (List UInt8) :=
  fillEsl sigs howmany type sigSize

/-- The dummy of `variable_create_esl_with_one_signature(null_sha256, ...)`. -/
def nullSha256Esl : Except EfiStatus (List UInt8) :=
  fillEslWithOneSignature (List.replicate 32 0) certSha256Guid shimLockGuid

/-! ## Space -/

/-- `get_max_var_sz`. Before UEFI 2 there is nothing to ask. -/
def getMaxVarSz (major : ℕ) (answer : Except EfiError VariableInfo) : Except EfiStatus ℕ :=
  if major < 2 then .ok 1024
  else match answer with
  | .error e => .error e.1
  | .ok info => .ok (if info.maxSize < info.remaining then info.maxSize else info.remaining)

/-- `max_var_sz` less what the name takes up. -/
def lessName (maxVarSz nameSize : ℕ) : ℕ :=
  if nameSize < maxVarSz then maxVarSz - nameSize else 0

/-- `howmany`: the signatures of a list that fit in one variable, out of those still to come. -/
def howManyFit (maxVarSz sigSize left : ℕ) : ℕ :=
  if 28 < maxVarSz then min ((maxVarSz - 28) / sigSize) (left / sigSize) else 0

/-! ## The loop -/

/-- `minsz`: a list header, an `EFI_SIGNATURE_DATA` and `SHA1_DIGEST_SIZE`. -/
def minSignatureSize : ℕ := 28 + 17 + 20

section Mirror

variable (major : ℕ) (v : MokVar) (a : Answers)

/-- `namen`: the mirror itself in the first pass, a numbered variable in the second. -/
def pieceName (onlyFirst : Bool) (i : ℕ) : MokName :=
  if onlyFirst then .rt v else .rtNumbered v i

/-- `mirror_one_esl`: `howmany` signatures at `esd` of the list at `esl`. -/
def mirrorOneEsl (vars : Variables MokName) (name : MokName) (fault : Fault) (d : Region)
    (esl esd howmany : ℕ) : EfiStatus × Variables MokName :=
  match variableCreateEsl (d.bytes esd (howmany * signatureSize d esl)) howmany
      (signatureType d esl) (signatureSize d esl) with
  | .error e => (e, vars)
  | .ok var => writeVariable vars name var bootserviceRuntime fault

/-- `esl`, `esl_end_pos` and `pos` once a turn has gone on to the next list where it has to. -/
def atList (d : Region) (pos : ℕ) : Option (ℕ × ℕ) → ℕ × ℕ × ℕ
  | some (esl, eslEnd) =>
    if eslEnd ≤ pos then (pos, pos + signatureListSize d pos, pos + 28) else (esl, eslEnd, pos)
  | none => (pos, pos + signatureListSize d pos, pos + 28)

/-- The loop of `mirror_mok_db`: its status and `did_one`, which only the first pass looks at. `esl`
is the list at hand with `esl_end_pos`. Each turn takes `pos` further, past the end at last, so
`fuel` is the size of the data and one more. -/
def mirrorLoop (onlyFirst : Bool) (d : Region) :
    (fuel turn i pos : ℕ) → Option (ℕ × ℕ) → Variables MokName →
      (EfiStatus × Bool) × Variables MokName
  | 0, _, _, _, _, vars => ((.success, false), vars)
  | fuel + 1, turn, i, pos, esl, vars =>
    if sub64 d.size pos < minSignatureSize then ((.success, false), vars)
    else
      let (esl, eslEnd, pos) := atList d pos esl
      if d.size ≤ pos then ((.success, false), vars)
      else if signatureListSize d esl = 0 ∨ signatureSize d esl = 0 then ((.success, false), vars)
      else match getMaxVarSz major (a.info (turn + 1)) with
        | .error e => ((e, false), vars)
        | .ok maxVarSz =>
          let howmany := howManyFit (lessName maxVarSz (pieceName v onlyFirst i).size)
            (signatureSize d esl) (sub64 eslEnd pos)
          -- nothing of this list fits, so it is left out
          if howmany = 0 then
            mirrorLoop onlyFirst d fuel (turn + 1) i eslEnd (some (esl, eslEnd)) vars
          -- the first piece is what the first pass is taken to have written
          else if onlyFirst = false ∧ i = 0 then
            mirrorLoop onlyFirst d fuel (turn + 1) (i + 1) (pos + howmany * signatureSize d esl)
              (some (esl, eslEnd)) vars
          else
            let (efiStatus, vars) :=
              mirrorOneEsl vars (pieceName v onlyFirst i) (a.set i) d esl pos howmany
            if efiStatus.isError then ((efiStatus, false), vars)
            else if onlyFirst then ((efiStatus, true), vars)
            else
              mirrorLoop onlyFirst d fuel (turn + 1) (i + 1)
                (pos + howmany * signatureSize d esl) (some (esl, eslEnd)) vars

/-- The dummy variable of a first pass that could write nothing. -/
def mirrorDummy (vars : Variables MokName) : EfiStatus × Variables MokName :=
  match nullSha256Esl with
  | .error e => (e, vars)
  | .ok var => writeVariable vars (.rt v) var bootserviceRuntime (a.set 0)

/-- `mirror_mok_db` where the whole database fits: the first pass has written it all. -/
def mirrorDirect (fullData : List UInt8) (onlyFirst : Bool) (vars : Variables MokName) :
    EfiStatus × Variables MokName :=
  if onlyFirst then writeVariable vars (.rt v) fullData bootserviceRuntime (a.set 0)
  else (.success, vars)

/-- `mirror_mok_db` where it does not. -/
def mirrorSplit (fullData : List UInt8) (onlyFirst : Bool) (vars : Variables MokName) :
    EfiStatus × Variables MokName :=
  let looped := mirrorLoop major v a onlyFirst (Region.ofList 0 fullData) (fullData.length + 1)
    0 0 0 none vars
  if looped.1.1.isError then (looped.1.1, looped.2)
  else if onlyFirst && !looped.1.2 then mirrorDummy v a looped.2
  else (looped.1.1, looped.2)

/-- `mirror_mok_db`. Firmware that cannot tell the space is trusted to have enough. -/
def mirrorMokDb (fullData : List UInt8) (onlyFirst : Bool) (vars : Variables MokName) :
    EfiStatus × Variables MokName :=
  match getMaxVarSz major (a.info 0) with
  | .error e => if e = .unsupported then mirrorDirect v a fullData onlyFirst vars else (e, vars)
  | .ok maxVarSz =>
    if fullData.length ≤ maxVarSz then mirrorDirect v a fullData onlyFirst vars
    else mirrorSplit major v a fullData onlyFirst vars

end Mirror

/-! ## What is written -/

/-- The mirror of an entry and the variables that it goes on in. -/
def mirrorNames (v : MokVar) : Set MokName := {n | n = .rt v ∨ ∃ i, n = .rtNumbered v i}

/-- A piece goes to one of the mirrors. -/
theorem pieceName_mem (v : MokVar) (onlyFirst : Bool) (i : ℕ) :
    pieceName v onlyFirst i ∈ mirrorNames v := by
  cases onlyFirst with
  | true => exact .inl rfl
  | false => exact .inr ⟨i, rfl⟩

/-- A list that is filled is not empty. -/
theorem fillEsl_ne_nil {sigs type esl : List UInt8} {howmany sigSize : ℕ}
    (h : fillEsl sigs howmany type sigSize = .ok esl) : esl ≠ [] := by
  unfold fillEsl at h
  split_ifs at h
  cases h
  simp [Region.le32]

section Writes

variable {major : ℕ} {v : MokVar} {a : Answers} {onlyFirst : Bool}

/-- A piece is written to a mirror only. -/
theorem writesOnly_mirrorOneEsl (i : ℕ) (fault : Fault) (d : Region) (esl esd howmany : ℕ) :
    WritesOnly (mirrorNames v) fun vars =>
      mirrorOneEsl vars (pieceName v onlyFirst i) fault d esl esd howmany := by
  unfold mirrorOneEsl
  cases hvar : variableCreateEsl _ howmany (signatureType d esl) (signatureSize d esl) with
  | error e => exact .answer _ e
  | ok var => exact .writeVariable (pieceName_mem v onlyFirst i) (fillEsl_ne_nil hvar) _ _

/-- So are all of them. -/
theorem writesOnly_mirrorLoop (d : Region) (fuel turn i pos : ℕ) (esl : Option (ℕ × ℕ)) :
    WritesOnly (mirrorNames v) (mirrorLoop major v a onlyFirst d fuel turn i pos esl) := by
  induction fuel generalizing turn i pos esl with
  | zero => exact .answer _ _
  | succ fuel ih =>
    change WritesOnly _ fun vars => mirrorLoop major v a onlyFirst d (fuel + 1) turn i pos esl vars
    unfold mirrorLoop
    refine .ite (fun _ => .answer _ _) fun _ => ?_
    obtain ⟨esl, eslEnd, pos⟩ := atList d pos esl
    refine .ite (fun _ => .answer _ _) fun _ => .ite (fun _ => .answer _ _) fun _ => ?_
    cases getMaxVarSz major (a.info (turn + 1)) with
    | error e => exact .answer _ _
    | ok maxVarSz =>
      refine .ite (fun _ => ih _ _ _ _) fun _ => .ite (fun _ => ih _ _ _ _) fun _ => ?_
      -- a piece is written, and unless that fails or is all to be done the loop goes on
      obtain ⟨efiStatus, writes, hwrites, heq⟩ :
          WritesOnly (mirrorNames v) fun vars => mirrorOneEsl vars (pieceName v onlyFirst i) _ d esl
            pos _ := writesOnly_mirrorOneEsl i (a.set i) d esl pos (howManyFit (lessName maxVarSz
              (pieceName v onlyFirst i).size) (signatureSize d esl) (sub64 eslEnd pos))
      simp only [heq]
      exact .ite (fun _ => (WritesOnly.answer _ _).after hwrites) fun _ =>
        .ite (fun _ => (WritesOnly.answer _ _).after hwrites) fun _ => (ih _ _ _ _).after hwrites

/-- So is the dummy. -/
theorem writesOnly_mirrorDummy : WritesOnly (mirrorNames v) (mirrorDummy v a) := by
  change WritesOnly _ fun vars => mirrorDummy v a vars
  unfold mirrorDummy
  cases hvar : nullSha256Esl with
  | error e => exact .answer _ e
  | ok var =>
    refine .writeVariable (.inl rfl) ?_ _ _
    unfold nullSha256Esl fillEslWithOneSignature at hvar
    split_ifs at hvar
    exact fillEsl_ne_nil hvar

/-- So is a database in one piece. -/
theorem writesOnly_mirrorDirect {fullData : List UInt8} (hdata : fullData ≠ []) :
    WritesOnly (mirrorNames v) (mirrorDirect v a fullData onlyFirst) :=
  .ite (fun _ => .writeVariable (.inl rfl) hdata _ _) fun _ => .answer _ _

/-- So is one that is split. -/
theorem writesOnly_mirrorSplit (fullData : List UInt8) :
    WritesOnly (mirrorNames v) (mirrorSplit major v a fullData onlyFirst) := by
  obtain ⟨⟨efiStatus, didOne⟩, writes, hwrites, heq⟩ :
      WritesOnly (mirrorNames v) (mirrorLoop major v a onlyFirst (Region.ofList 0 fullData)
        (fullData.length + 1) 0 0 0 none) := writesOnly_mirrorLoop _ _ _ _ _ _
  have hsplit : mirrorSplit major v a fullData onlyFirst = fun vars =>
      if efiStatus.isError then (efiStatus, applyWrites vars writes)
      else if onlyFirst && !didOne then mirrorDummy v a (applyWrites vars writes)
      else (efiStatus, applyWrites vars writes) := by
    funext vars
    simp only [mirrorSplit, heq]
  rw [hsplit]
  exact .ite (fun _ => (WritesOnly.answer _ _).after hwrites) fun _ =>
    .ite (fun _ => writesOnly_mirrorDummy.after hwrites)
      fun _ => (WritesOnly.answer _ _).after hwrites

/-- So is a database in either way. -/
theorem writesOnly_mirrorMokDb {fullData : List UInt8} (hdata : fullData ≠ []) :
    WritesOnly (mirrorNames v) (mirrorMokDb major v a fullData onlyFirst) := by
  cases hmax : getMaxVarSz major (a.info 0) with
  | error e =>
    have hdb : mirrorMokDb major v a fullData onlyFirst = fun vars =>
        if e = .unsupported then mirrorDirect v a fullData onlyFirst vars else (e, vars) := by
      funext vars
      simp only [mirrorMokDb, hmax]
    rw [hdb]
    exact .ite (fun _ => writesOnly_mirrorDirect hdata) fun _ => .answer _ _
  | ok maxVarSz =>
    have hdb : mirrorMokDb major v a fullData onlyFirst = fun vars =>
        if fullData.length ≤ maxVarSz then mirrorDirect v a fullData onlyFirst vars
        else mirrorSplit major v a fullData onlyFirst vars := by
      funext vars
      simp only [mirrorMokDb, hmax]
    rw [hdb]
    exact .ite (fun _ => writesOnly_mirrorDirect hdata) fun _ => writesOnly_mirrorSplit _

end Writes

end Shim.Mok
