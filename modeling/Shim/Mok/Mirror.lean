import Shim.Mok.Agreement
import Shim.Mok.Split

/-! # Reading a mirrored key database

What `MokListRT`, `MokListRT1` and so on show together after an import, against the certificates
that shim brings along and the stored database. The two passes of the import are to agree on how the
database is cut; the second one, though, has the first one's result for its data and puts shim's
own certificates in front of it once more.
-/

namespace Shim.Mok

/-- The list of the dummy entry: `null_sha256`. -/
def nullSha256List : SignatureList where
  type := certSha256Guid
  size := 48
  sigs := [⟨shimLockGuid, List.replicate 32 0⟩]
  type_length := length_certSha256Guid
  size_gt := SignatureList.lt_sha256Size
  size_lt := SignatureList.sha256Size_lt
  uniform := by decide

/-- The dummy is a list with one hash of nought. -/
theorem nullSha256Esl_eq : nullSha256Esl = .ok (encodeDb [nullSha256List]) := by decide

/-- What an entry for a key database is put together from, as signature lists. -/
structure KeyDb (g : Globals) (v : MokVar) (vars : Variables MokName) where
  addend : List SignatureList
  buildCert : List SignatureList
  userCert : List SignatureList
  stored : List SignatureList
  keydb : (v.row g).keydb = true
  addendData_eq : addendData (v.row g) = .ok (encodeDb addend)
  buildCertData_eq : buildCertData (v.row g) = .ok (encodeDb buildCert)
  userCert_eq : (v.row g).userCert = encodeDb userCert
  takenData_eq : takenData (v.row g) (vars (.stored v)) = encodeDb stored

/-- The signatures in the mirror and in the numbered variables up to the first that is not there,
in order. -/
def ReadsMirror (vars : Variables MokName) (v : MokVar) (sigs : List Signature) : Prop :=
  ∃ k, (∀ i < k, vars (.rtNumbered v (i + 1)) ≠ none) ∧ vars (.rtNumbered v (k + 1)) = none ∧
    signatures (contents vars (.rt v)) ++
      (List.range k).flatMap (fun i => signatures (contents vars (.rtNumbered v (i + 1)))) = sigs

namespace KeyDb

variable {g : Globals} {v : MokVar} {vars : Variables MokName} (db : KeyDb g v vars)

/-- What shim brings along. -/
def vendor : List SignatureList := db.addend ++ db.buildCert ++ db.userCert

/-- The whole database. -/
def lists : List SignatureList := db.vendor ++ db.stored

/-- The whole database, or the dummy entry that stands for an empty one. -/
def mirrored : List SignatureList := if db.lists = [] then [nullSha256List] else db.lists

/-- Mirroring loses nothing and duplicates nothing. -/
def Mirrored (f : Firmware) : Prop :=
  ReadsMirror (importMokState g f (.initial vars)).state.vars v (entriesDb db.lists)

/-- Both passes find room for all of their data in one variable, and no numbered variable is left
from before. -/
structure Whole (f : Firmware) : Prop where
  first : (encodeDb db.mirrored).length ≤ reported f.major ((f.answers true v).info 0)
  second : (encodeDb (db.vendor ++ db.mirrored)).length ≤
    reported f.major ((f.answers false v).info 0)
  unnumbered : vars (.rtNumbered v 1) = none

/-- Both passes cut the same data, into the same first piece `p`. The second pass goes on to the
pieces `ps`, and no variable numbered beyond them is left from before. -/
structure Cut (f : Firmware) (p : SignatureList) (ps : List SignatureList) : Prop where
  vendor : db.vendor = []
  first : reported f.major ((f.answers true v).info 0) < (encodeDb db.mirrored).length
  second : reported f.major ((f.answers false v).info 0) < (encodeDb db.mirrored).length
  firstPiece :
    FirstPiece (fun turn => roomFor f.major v (f.answers true v) true turn 0) 0 db.mirrored p
  pieces : Pieces (roomFor f.major v (f.answers false v) false) 0 0 ⟨false, db.mirrored⟩ (p :: ps)
  unnumbered : vars (.rtNumbered v (ps.length + 1)) = none

end KeyDb

/-! ## The imports of a key database -/

section Import

variable {g : Globals} {f : Firmware} {onlyFirst : Bool} {v : MokVar} {s : State}

/-- An import mirrors the whole data, and keeps it unless a TPM call fails. Then it keeps what it
had, or nothing where the buffer was taken over. -/
theorem mirrorOneMokVariable_keydb (hkeydb : (v.row g).keydb = true) {vendor full : List UInt8}
    (hvendor : vendorData (v.row g) = .ok vendor)
    (hfull : (if vendor ++ s.data v = [] then nullSha256Esl else .ok (vendor ++ s.data v)) =
      .ok full) (hne : full ≠ []) :
    let mirrored := (mirrorOneMokVariable g f onlyFirst v s).2
    (mirrored.data v = full ∨ mirrored.data v = if vendor = [] then [] else s.data v) ∧
      mirrored.vars = (mirrorMokDb f.major v (f.answers onlyFirst v) full onlyFirst s.vars).2 := by
  intro mirrored
  obtain ⟨b, rest, rfl⟩ := List.exists_cons_of_ne_nil hne
  have hdata : mirrorData g f onlyFirst v (b :: rest) s.vars =
      mirrorMokDb f.major v (f.answers onlyFirst v) (b :: rest) onlyFirst s.vars := if_pos hkeydb
  rw [← hdata]
  -- the variable is mirrored before the log, so a failed log leaves it there
  cases hlogged : (if onlyFirst then measureAndLog (v.row g) (f.answers onlyFirst v)
      (mirrorData g f onlyFirst v (b :: rest) s.vars).1
      else .ok (mirrorData g f onlyFirst v (b :: rest) s.vars).1 : Except _ _) with
  | ok ret =>
    have hmirrored : mirrored = { s with
        vars := (mirrorData g f onlyFirst v (b :: rest) s.vars).2
        data := Function.update s.data v (b :: rest) } := by
      simp only [mirrored, mirrorOneMokVariable, hvendor, hkeydb, true_and, hfull, hlogged]
    rw [hmirrored]
    exact ⟨.inl (Function.update_self _ _ _), rfl⟩
  | error e =>
    have hmirrored : mirrored = { s with
        vars := (mirrorData g f onlyFirst v (b :: rest) s.vars).2
        data := Function.update s.data v (if vendor = [] then [] else s.data v) } := by
      simp only [mirrored, mirrorOneMokVariable, hvendor, hkeydb, true_and, hfull, hlogged]
    rw [hmirrored]
    exact ⟨.inr (Function.update_self _ _ _), rfl⟩

/-- Taking a variable in touches no other. -/
theorem takeMokState_of_ne {n : MokName} (hn : n ≠ .stored v) :
    (takeMokState g f onlyFirst v s).2.vars n = s.vars n := by
  unfold takeMokState
  dsimp only
  by_cases hdelete : (readMokState g f onlyFirst v s).2 = true
  · rw [if_pos hdelete]
    exact delVariable_of_ne hn _
  · rw [if_neg hdelete]

/-- The deletion in front touches the mirror only. -/
theorem deleteFirst_of_ne {n : MokName} (hn : n ≠ .rt v) :
    (deleteFirst g f onlyFirst v s).vars n = s.vars n := by
  unfold deleteFirst
  split_ifs
  · exact delVariable_of_ne hn _
  · rfl

end Import

namespace KeyDb

variable {g : Globals} {f : Firmware} {v : MokVar} {vars : Variables MokName}
  (db : KeyDb g v vars)

/-- A key database is not one that is inverted. -/
theorem inverse_eq_false {g : Globals} {v : MokVar} (hkeydb : (v.row g).keydb = true) :
    (v.row g).inverse = false := by
  cases v with
  | mokListTrusted => cases hkeydb
  | _ => rfl

/-- The vendor's data are its lists. -/
theorem vendorData_eq : vendorData (v.row g) = .ok (encodeDb db.vendor) := by
  unfold vendorData
  rw [if_pos db.keydb, db.addendData_eq, db.buildCertData_eq, db.userCert_eq, vendor,
    encodeDb_append, encodeDb_append]
  rfl

/-- What is mirrored is never empty. -/
theorem mirrored_ne_nil : encodeDb db.mirrored ≠ [] := by
  intro hnil
  have hmirrored := encodeDb_eq_nil_iff.mp hnil
  unfold mirrored at hmirrored
  split_ifs at hmirrored with hlists
  exact hlists hmirrored

/-- The buffer that is mirrored: the whole database, or the dummy entry. -/
theorem fullData_eq : (if encodeDb db.vendor ++ encodeDb db.stored = [] then nullSha256Esl
    else .ok (encodeDb db.vendor ++ encodeDb db.stored)) = .ok (encodeDb db.mirrored) := by
  rw [← encodeDb_append, mirrored, lists]
  by_cases hnil : db.vendor ++ db.stored = []
  · rw [if_pos hnil, hnil, if_pos encodeDb_nil, nullSha256Esl_eq]
  · rw [if_neg hnil, if_neg fun h => hnil (encodeDb_eq_nil_iff.mp h)]

/-- The first pass mirrors the whole database. It hands it on, or where a TPM call fails no more
than what was stored. -/
theorem importOne_first (hf : f.VariablesSucceed) :
    ∃ before : Variables MokName, (∀ i, before (.rtNumbered v i) = vars (.rtNumbered v i)) ∧
      ((importOneMokState g f true v (.initial vars)).2.data v = encodeDb db.mirrored ∨
        (importOneMokState g f true v (.initial vars)).2.data v =
          if encodeDb db.vendor = [] then [] else encodeDb db.stored) ∧
      (importOneMokState g f true v (.initial vars)).2.vars =
        (mirrorMokDb f.major v (f.answers true v) (encodeDb db.mirrored) true before).2 := by
  obtain ⟨htaken, -⟩ := takeMokState_succeeds (g := g) (s := .initial vars) (hf true v) rfl
  obtain ⟨hdata, -⟩ :=
    deleteFirst_succeeds (g := g) (hf true v) (takeMokState g f true v (.initial vars)).2
  have hstored : (deleteFirst g f true v (takeMokState g f true v (.initial vars)).2).data v =
      encodeDb db.stored := by
    rw [hdata, htaken]
    exact db.takenData_eq
  have hfull := db.fullData_eq
  rw [← hstored] at hfull
  obtain ⟨hkept, hvars⟩ := @mirrorOneMokVariable_keydb g f true v _ db.keydb _ _
    db.vendorData_eq hfull db.mirrored_ne_nil
  rw [hstored] at hkept
  have hleft := congrFun (takeState_data g v
    (mirrorOneMokVariable g f true v (deleteFirst g f true v
      (takeMokState g f true v (.initial vars)).2)).2) v
  refine ⟨_, fun i => ?_, hkept.imp hleft.trans hleft.trans, (takeState_vars g v _).trans hvars⟩
  rw [deleteFirst_of_ne (by simp), takeMokState_of_ne (by simp)]
  rfl

/-- The stored variable after the first pass. -/
theorem stored_of_first (hf : f.VariablesSucceed) :
    (importOneMokState g f true v (.initial vars)).2.vars (.stored v) =
      keptStored (v.row g) (vars (.stored v)) := by
  obtain ⟨-, hstored, -⟩ := takeMokState_succeeds (g := g) (s := .initial vars) (hf true v) rfl
  exact (importOneMokState_stored f true (.initial vars)).trans hstored

/-- What the second pass takes: what it was handed on, or else what is stored, read once more. -/
theorem takeMokState_second (hf : f.VariablesSucceed) {s : State}
    (hstored : s.vars (.stored v) = keptStored (v.row g) (vars (.stored v)))
    (hs : s.data v = [] ∨ s.data v = encodeDb db.stored) :
    (takeMokState g f false v s).2.data v = encodeDb db.stored := by
  by_cases hnil : s.data v = []
  · obtain ⟨htaken, -⟩ := takeMokState_succeeds (g := g) (hf false v) hnil
    rw [htaken, hstored, ← db.takenData_eq]
    exact takenData_keptStored (inverse_eq_false db.keydb) _
  · rw [takeMokState_of_data f false hnil]
    exact hs.resolve_left hnil

/-- The second pass puts what shim brings along in front of the data it was handed on. Where a TPM
call failed in the first pass it starts over, and has the whole database once. -/
theorem importOne_second (hf : f.VariablesSucceed) {s : State}
    (hstored : s.vars (.stored v) = keptStored (v.row g) (vars (.stored v)))
    (hs : s.data v = encodeDb db.mirrored ∨
      s.data v = if encodeDb db.vendor = [] then [] else encodeDb db.stored) :
    ∃ second before, (second = db.vendor ++ db.mirrored ∨ second = db.mirrored) ∧
      (∀ n, n ≠ .stored v → before n = s.vars n) ∧
      (importOneMokState g f false v s).2.vars =
        (mirrorMokDb f.major v (f.answers false v) (encodeDb second) false before).2 := by
  have himported : (importOneMokState g f false v s).2.vars =
      (mirrorOneMokVariable g f false v (takeMokState g f false v s).2).2.vars :=
    takeState_vars g v _
  rcases hs with hs | hs
  -- the whole database was handed on
  · have hne : s.data v ≠ [] := hs ▸ db.mirrored_ne_nil
    have hfull : (if encodeDb db.vendor ++ s.data v = [] then nullSha256Esl
        else .ok (encodeDb db.vendor ++ s.data v)) =
          .ok (encodeDb (db.vendor ++ db.mirrored)) := by
      rw [if_neg fun h => hne (List.append_eq_nil_iff.mp h).2, hs, encodeDb_append]
    have hfull_ne : encodeDb (db.vendor ++ db.mirrored) ≠ [] := by
      rw [encodeDb_append]
      exact fun h => db.mirrored_ne_nil (List.append_eq_nil_iff.mp h).2
    obtain ⟨-, hvars⟩ := @mirrorOneMokVariable_keydb g f false v _ db.keydb _ _
      db.vendorData_eq hfull hfull_ne
    refine ⟨_, s.vars, .inl rfl, fun _ _ => rfl, ?_⟩
    rw [himported, takeMokState_of_data f false hne]
    exact hvars
  -- a TPM call failed
  · have htaken : (takeMokState g f false v s).2.data v = encodeDb db.stored :=
      db.takeMokState_second hf hstored (by rw [hs]; split <;> simp)
    have hfull := db.fullData_eq
    rw [← htaken] at hfull
    obtain ⟨-, hvars⟩ := @mirrorOneMokVariable_keydb g f false v _ db.keydb _ _
      db.vendorData_eq hfull db.mirrored_ne_nil
    refine ⟨_, (takeMokState g f false v s).2.vars, .inr rfl, fun n hn => takeMokState_of_ne hn, ?_⟩
    rw [himported]
    exact hvars

/-! ## What is read afterwards -/

/-- A variable that holds some lists shows their signatures. -/
theorem signatures_contents {n : MokName} {ls : List SignatureList} {left : Variables MokName}
    (h : contents left n = encodeDb ls) : signatures (contents left n) = entriesDb ls := by
  have hlt := contents_lt left n
  rw [h] at hlt ⊢
  exact signatures_encodeDb (by omega)

/-- Where all of it fits, the mirror is the whole database. -/
theorem readsMirror_whole (hf : f.VariablesSucceed)
    (hsize : (encodeDb db.mirrored).length < 2 ^ 31) (h : db.Whole f) : ReadsMirror
      (importOneMokState g f false v (importOneMokState g f true v (.initial vars)).2).2.vars v
      (entriesDb db.mirrored) := by
  obtain ⟨before, hbefore, hdata, hvars⟩ := db.importOne_first hf
  obtain ⟨hrt, hframe⟩ := mirrorMokDb_whole_first v before (hf true v).info
    (hf true v).set db.mirrored_ne_nil hsize h.first
  obtain ⟨second, before', hsecond, hbefore', hvars'⟩ :=
    db.importOne_second hf (stored_of_first hf) hdata
  have hfits : (encodeDb second).length ≤ reported f.major ((f.answers false v).info 0) := by
    have hwhole := h.second
    rcases hsecond with rfl | rfl
    · exact hwhole
    · rw [encodeDb_append, List.length_append] at hwhole
      omega
  rw [hvars', mirrorMokDb_whole_second _ _ (hf false v).info hfits]
  refine ⟨0, fun _ hi => absurd hi (Nat.not_lt_zero _), ?_, ?_⟩
  · rw [hbefore' _ (by simp), hvars, hframe _ (by simp), hbefore]
    exact h.unnumbered
  · rw [contents_congr (hbefore' (.rt v) (by simp)), hvars, signatures_contents hrt]
    exact List.append_nil _

/-- Where it is cut, the mirror and the numbered variables hold the pieces. -/
theorem readsMirror_cut (hf : f.VariablesSucceed)
    (hsize : (encodeDb db.mirrored).length < 2 ^ 31) {p : SignatureList} {ps : List SignatureList}
    (h : db.Cut f p ps) : ReadsMirror
      (importOneMokState g f false v (importOneMokState g f true v (.initial vars)).2).2.vars v
      (entriesDb db.mirrored) := by
  obtain ⟨before, hbefore, hdata, hvars⟩ := db.importOne_first hf
  obtain ⟨hrt, hframe⟩ := mirrorMokDb_cut_first v before (hf true v).info (hf true v).set
    hsize h.first h.firstPiece
  obtain ⟨second, before', hsecond, hbefore', hvars'⟩ :=
    db.importOne_second hf (stored_of_first hf) hdata
  -- without data of shim's own it is the same data both times
  obtain rfl : second = db.mirrored := by
    rw [h.vendor, List.nil_append] at hsecond
    exact hsecond.elim id id
  obtain ⟨hpieces, hothers⟩ := mirrorMokDb_cut_second v before' (hf false v).info
    (hf false v).set hsize h.second h.pieces
  rw [hvars']
  have hnumbered : ∀ i (hi : i < ps.length), contents (mirrorMokDb f.major v (f.answers false v)
      (encodeDb db.mirrored) false before').2 (.rtNumbered v (i + 1)) = encodeDb [ps[i]] := by
    intro i hi
    have hpiece := hpieces (i + 1) (Nat.succ_lt_succ hi) (by omega)
    rw [Nat.zero_add, List.getElem_cons_succ] at hpiece
    rw [hpiece]
    exact (List.append_nil _).symm
  refine ⟨ps.length, fun i hi hnone => ?_, ?_, ?_⟩
  · have hlen := congrArg List.length (hnumbered i hi)
    have hle := ps[i].le_listSize
    rw [contents, hnone, encodeDb_cons, List.length_append, SignatureList.length_encode,
      List.length_nil] at hlen
    omega
  · have hlast : ∀ j < (p :: ps).length, 0 < 0 + j →
        MokName.rtNumbered v (ps.length + 1) ≠ .rtNumbered v (0 + j) := by
      intro j hj _ heq
      have := (MokName.rtNumbered.inj heq).2
      rw [List.length_cons] at hj
      omega
    rw [hothers _ hlast, hbefore' _ (by simp), hvars, hframe _ (by simp), hbefore]
    exact h.unnumbered
  · have hmirror : contents (mirrorMokDb f.major v (f.answers false v) (encodeDb db.mirrored) false
        before').2 (.rt v) = encodeDb [p] := by
      rw [contents_congr (hothers (.rt v) fun _ _ _ => by simp),
        contents_congr (hbefore' (.rt v) (by simp)), hvars, hrt]
      exact (List.append_nil _).symm
    have hlater : (List.range ps.length).map (fun i => signatures (contents (mirrorMokDb f.major v
        (f.answers false v) (encodeDb db.mirrored) false before').2 (.rtNumbered v (i + 1)))) =
        ps.map SignatureList.entries := by
      refine List.ext_getElem (by simp) fun i hi _ => ?_
      have hi' : i < ps.length := by simpa using hi
      rw [List.getElem_map, List.getElem_range, List.getElem_map,
        signatures_contents (hnumbered i hi')]
      exact List.append_nil _
    have hpieces : entriesDb (p :: ps) = entriesDb db.mirrored := h.pieces.entries
    rw [signatures_contents hmirror, List.flatMap_def, hlater, ← hpieces]
    simp [entriesDb, List.flatMap_def]

/-- Mirroring loses nothing and duplicates nothing, where both passes find room for everything or
cut it alike; an empty database is mirrored as the dummy entry. -/
theorem readsMirror (hf : f.VariablesSucceed) (hsize : (encodeDb db.mirrored).length < 2 ^ 31)
    (h : db.Whole f ∨ ∃ p ps, db.Cut f p ps) :
    ReadsMirror (importMokState g f (.initial vars)).state.vars v (entriesDb db.mirrored) := by
  have hentry := importMokState_entry (g := g) f v vars
  have hrt := hentry.vars _ (rt_mem v)
  have hnumbered : ∀ i, (importMokState g f (.initial vars)).state.vars (.rtNumbered v i) = _ :=
    fun i => hentry.vars _ (.inr (.inr ⟨i, rfl⟩))
  have hread : ReadsMirror
      (importOneMokState g f false v (importOneMokState g f true v (.initial vars)).2).2.vars v
      (entriesDb db.mirrored) := by
    rcases h with h | ⟨p, ps, h⟩
    · exact db.readsMirror_whole hf hsize h
    · exact db.readsMirror_cut hf hsize h
  unfold ReadsMirror
  simp only [contents_congr hrt, contents_congr (hnumbered _), hnumbered]
  exact hread

end KeyDb

/-- Signatures that are as long as `minsz` and fit are cut alike, if the first piece is. -/
theorem KeyDb.exists_cut {g : Globals} {f : Firmware} {v : MokVar} {vars : Variables MokName}
    (db : KeyDb g v vars) (hvendor : db.vendor = []) (hsome : entriesDb db.mirrored ≠ [])
    (hfirst : reported f.major ((f.answers true v).info 0) < (encodeDb db.mirrored).length)
    (hsecond : reported f.major ((f.answers false v).info 0) < (encodeDb db.mirrored).length)
    (hlong : ∀ l ∈ db.mirrored, minSignatureSize ≤ l.size)
    (hfits : ∀ l ∈ db.mirrored, ∀ turn i,
      28 + l.size ≤ roomFor f.major v (f.answers false v) false turn i)
    (hsame : ∀ l ∈ db.mirrored, ∀ turn,
      fitting (roomFor f.major v (f.answers true v) true turn 0) l =
        fitting (roomFor f.major v (f.answers false v) false turn 0) l)
    (hunnumbered : ∀ i, vars (.rtNumbered v i) = none) : ∃ p ps, db.Cut f p ps := by
  obtain ⟨pieces, hpieces⟩ := exists_pieces ⟨false, db.mirrored⟩ hfits hlong
    (fun h => absurd h Bool.false_ne_true) 0 0
  cases pieces with
  | nil => exact absurd hpieces.entries.symm hsome
  | cons p ps =>
    exact ⟨p, ps, hvendor, hfirst, hsecond, hpieces.firstPiece hsame, hpieces, hunnumbered _⟩

/-! ## A database of three signatures -/

/-- Three signatures of a hundred bytes. -/
def threeSignatures : SignatureList where
  type := certTypeX509Guid
  size := 100
  sigs := [1, 2, 3].map fun b => ⟨shimLockGuid, List.replicate 84 b⟩
  type_length := length_certTypeX509Guid
  size_gt := by decide
  size_lt := by decide
  uniform := by decide

/-- Firmware with room for no more than two of them in a variable. -/
def Firmware.small : Firmware :=
  { Firmware.quiet with answers := fun _ _ => { Answers.quiet with info := fun _ => .ok ⟨260, 260⟩ } }

/-- `MokList` holds the three. -/
def threeStored : Variables MokName :=
  Function.update (fun _ => none) (.stored .mokList)
    (some ⟨encodeDb [threeSignatures], bootserviceNonVolatile, by decide +kernel⟩)

def threeDb : KeyDb .plain .mokList threeStored where
  addend := []
  buildCert := []
  userCert := []
  stored := [threeSignatures]
  keydb := rfl
  addendData_eq := rfl
  buildCertData_eq := rfl
  userCert_eq := rfl
  takenData_eq := by decide +kernel

/-- Two signatures fit into the first piece. -/
theorem cut_threeDb :
    threeDb.Cut .small (threeSignatures.take 2) [(threeSignatures.drop 2).take 1] where
  vendor := rfl
  first := by decide +kernel
  second := by decide +kernel
  firstPiece := .cut (by decide +kernel) (by decide +kernel)
  pieces := .cut (by decide +kernel) (by decide +kernel)
    (.cut (by decide +kernel) (by decide +kernel) (.stop (by decide +kernel) rfl))
  unnumbered := rfl

/-- Two are in `MokListRT` and the third is in `MokListRT1`. -/
theorem readsMirror_three :
    ReadsMirror (importMokState .plain .small (.initial threeStored)).state.vars .mokList
      threeSignatures.entries := by
  have hsucceeds : Firmware.small.VariablesSucceed :=
    fun _ _ => ⟨rfl, rfl, rfl, rfl, fun _ => rfl, fun _ => ⟨_, rfl⟩⟩
  have hmirrored : threeDb.mirrored = [threeSignatures] := if_neg (List.cons_ne_nil _ _)
  have hread := threeDb.readsMirror hsucceeds (by decide +kernel) (.inr ⟨_, _, cut_threeDb⟩)
  rwa [hmirrored, entriesDb_cons, entriesDb_nil, List.append_nil] at hread

/-! ## An empty database -/

/-- No key of shim's, and no `MokList`. -/
def emptyDb : KeyDb .plain .mokList fun _ => none where
  addend := []
  buildCert := []
  userCert := []
  stored := []
  keydb := rfl
  addendData_eq := rfl
  buildCertData_eq := rfl
  userCert_eq := rfl
  takenData_eq := rfl

/-- The mirror of an empty database shows the dummy entry. -/
theorem not_mirrored_empty : ¬ emptyDb.Mirrored .quiet := by
  rintro ⟨k, -, -, hread⟩
  have hdummy : signatures (contents
      (importMokState .plain .quiet (.initial fun _ => none)).state.vars (.rt .mokList)) ≠ [] := by
    decide +kernel
  exact hdummy (List.append_eq_nil_iff.mp hread).1

end Shim.Mok
