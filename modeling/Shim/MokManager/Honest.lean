import Shim.MokManager.Exact

/-! # What a success of MokManager promises

`store_keys` and `delete_keys` should return `EFI_SUCCESS` only for an authenticated change that
took effect, and leave the database alone otherwise. They keep to it except where a status is left
over from an earlier call: an Auth variable of another size, a read that is refused half way, and
a deletion that leaves nothing, whose write is not looked at. And what `delete_keys` writes back is
the requested content only where its search does right.
-/

namespace Shim

/-- Some password attempt matches the Auth variable. -/
def Matched (c : Crypto) (vars : Variables MokManagerVar) (authName : MokManagerVar)
    (data : List UInt8) (attempts : ℕ → List UInt16) : Prop :=
  ∃ v, vars authName = some v ∧ ∃ i < 3,
    (v.data.length = 172 ∧ acceptsFor c (some v.data) [] [] (attempts i) = true) ∨
      (v.data.length = 32 ∧ acceptsFor c none data v.data (attempts i) = true)

/-- The old content of a database that is kept. -/
def keptContent (vars : Variables MokManagerVar) (dbName : MokManagerVar) : List UInt8 :=
  match vars dbName with
  | none => []
  | some v => if runtimeAccess v.attrs then [] else v.data

/-- What `store_keys` is asked to leave in the database. -/
def requestedStore (vars : Variables MokManagerVar) (dbName : MokManagerVar)
    (mokNew : List UInt8) : List UInt8 :=
  if mokNew = [] then [] else keptContent vars dbName ++ mokNew

/-- What `delete_keys` is asked to leave in the database: the old entries without the requested
ones. Only a well-formed request asks for that, of a well-formed database; of an empty one nothing is
asked. -/
def RequestedDeletion (content : List UInt8) (mokDel : Region) (after : List UInt8) : Prop :=
  content = [] ∧ after = [] ∨ ∃ ls rs, content = encodeDb ls ∧ WellFormedKeys ls ∧
    HoldsKeys mokDel rs ∧ DeletionExact ls rs after

/-- `delete_keys` erases the list explicitly: it is runtime-accessible or cannot be parsed. -/
def Erased (vars : Variables MokManagerVar) (dbName : MokManagerVar) (heap : ℕ → UInt8) : Prop :=
  ∃ v, vars dbName = some v ∧
    (runtimeAccess v.attrs = true ∨ countKeys (listRegion v.data heap) = 0)

/-- `store_keys` comes back; a success is authenticated and took effect, an error changed nothing. -/
def StoreHonest (c : Crypto) (a : CommitAnswers) (vars : Variables MokManagerVar)
    (mokNew : List UInt8) (mokX : Bool) (attempts : ℕ → List UInt16) : Prop :=
  ∃ st vars', storeKeys c a vars mokNew true mokX attempts = some (st, vars') ∧
    (st = .success → Matched c vars (storeNames mokX).2 mokNew attempts ∧
      contents vars' (storeNames mokX).1 = requestedStore vars (storeNames mokX).1 mokNew) ∧
    (st.isError = true → vars' (storeNames mokX).1 = vars (storeNames mokX).1)

/-- The same for `delete_keys`, which may also have erased the list. -/
def DeleteHonest (c : Crypto) (a : CommitAnswers) (vars : Variables MokManagerVar)
    (mokDel : Region) (mokX : Bool) (attempts : ℕ → List UInt16) : Prop :=
  let r := deleteKeys c a vars mokDel mokX attempts
  (r.1 = .success →
    Matched c vars (deleteNames mokX).2 (mokDel.bytes 0 mokDel.size) attempts ∧
      RequestedDeletion (contents vars (deleteNames mokX).1) mokDel
        (contents r.2 (deleteNames mokX).1)) ∧
    (r.1.isError = true → r.2 (deleteNames mokX).1 = vars (deleteNames mokX).1 ∨
      r.2 (deleteNames mokX).1 = none ∧ Erased vars (deleteNames mokX).1 a.heap)

/-! ## When they keep to it -/

/-- An Auth variable that can be read has the size of one of the two formats. -/
def AuthSized (vars : Variables MokManagerVar) (authName : MokManagerVar) (fault : Fault) : Prop :=
  ∀ auth, readAuth vars authName fault = .ok auth → auth.length = 32 ∨ auth.length = 172

/-- `store_keys` does right after its read of the database is answered `EFI_NOT_FOUND`: nothing is
written, or no null pointer is copied and the new lists alone are all there is to keep. -/
def HarmlessNotFound (a : CommitAnswers) (vars : Variables MokManagerVar) (dbName : MokManagerVar)
    (mokNew : List UInt8) : Prop :=
  a.allocData = false ∨
    (runtimeAccess a.stack = true ∨ querySize vars dbName a.size ≠ .bufferTooSmall) ∧
      (keptContent vars dbName = [] ∨ a.write ≠ none ∨ 2 ^ 31 ≤ mokNew.length)

/-- The condition for `store_keys`. -/
def StoreSound (c : Crypto) (a : CommitAnswers) (vars : Variables MokManagerVar)
    (mokNew : List UInt8) (mokX : Bool) (attempts : ℕ → List UInt16) : Prop :=
  AuthSized vars (storeNames mokX).2 a.auth ∧
    (authenticate c vars (storeNames mokX).2 mokNew a.auth attempts = .ok () → mokNew ≠ [] →
      getVariableAttr vars (storeNames mokX).1 a.size a.read = .error .notFound →
        HarmlessNotFound a vars (storeNames mokX).1 mokNew)

/-- `delete_keys` comes to its write: the password is right, both lists are read and the search is
through, with these bytes to write. -/
def ComesToWrite (c : Crypto) (a : CommitAnswers) (vars : Variables MokManagerVar)
    (mokDel : Region) (mokX : Bool) (attempts : ℕ → List UInt16) (data : List UInt8) : Prop :=
  ∃ s delKey,
    authenticate c vars (deleteNames mokX).2 (mokDel.bytes 0 mokDel.size) a.auth attempts = .ok () ∧
      loadMokList a vars (deleteNames mokX).1 = .ok s ∧ loadRequest a vars mokDel = .ok delKey ∧
      encodeNodes (searchAndDestroy mokDel delKey s) = data

/-- There is memory for the bytes, and the firmware takes them. -/
def CommitAnswers.Takes (a : CommitAnswers) (data : List UInt8) : Prop :=
  a.allocData = true ∧ a.write = none ∧ data.length < 2 ^ 31

/-- The database and the request are well-formed, and the search does right on every list. -/
def SearchesRight (content : List UInt8) (mokDel : Region) : Prop :=
  ∃ ls rs, content = encodeDb ls ∧ WellFormedKeys ls ∧ HoldsKeys mokDel rs ∧
    ∀ l ∈ ls, ListDeletable rs l

/-- The condition for `delete_keys`. A deletion that leaves nothing reports success whatever its
write is answered. -/
def DeleteSound (c : Crypto) (a : CommitAnswers) (vars : Variables MokManagerVar)
    (mokDel : Region) (mokX : Bool) (attempts : ℕ → List UInt16) : Prop :=
  AuthSized vars (deleteNames mokX).2 a.auth ∧
    ∀ data, ComesToWrite c a vars mokDel mokX attempts data → data = [] ∨ a.Takes data →
      a.write = none ∧ SearchesRight (contents vars (deleteNames mokX).1) mokDel

/-! ## Authentication -/

section Authenticate

variable {c : Crypto} {vars : Variables MokManagerVar} {authName : MokManagerVar}
  {data : List UInt8} {fault : Fault} {attempts : ℕ → List UInt16}

/-- A password that is read is the one stored. -/
theorem readAuth_eq_ok {auth : List UInt8} (h : readAuth vars authName fault = .ok auth) :
    ∃ v, vars authName = some v ∧ v.data = auth := by
  unfold readAuth at h
  cases fault with
  | some e => cases h
  | none =>
    cases hv : vars authName with
    | none => simp [hv] at h
    | some v =>
      simp only [hv] at h
      split_ifs at h
      exact ⟨v, rfl, by simpa using h⟩

/-- One that is not read is reported as an error. -/
theorem readAuth_isError {e : EfiStatus} (h : readAuth vars authName fault = .error e) :
    e.isError = true := by
  unfold readAuth at h
  cases fault with
  | some e' =>
    obtain rfl : e'.1 = e := by simpa using h
    exact e'.2
  | none =>
    cases hv : vars authName with
    | none =>
      obtain rfl : EfiStatus.notFound = e := by simpa [hv] using h
      rfl
    | some v =>
      simp only [hv] at h
      split_ifs at h
      obtain rfl : EfiStatus.bufferTooSmall = e := by simpa using h
      rfl

/-- The loop ends well only if one of the attempts that are left is accepted. -/
theorem exists_of_passwordLoop {accepts : List UInt16 → Bool} {left failCount : ℕ}
    (h : passwordLoop accepts attempts left failCount = .success) :
    ∃ i < failCount + left, accepts (attempts i) = true := by
  induction left generalizing failCount with
  | zero => cases h
  | succ left ih =>
    rw [passwordLoop] at h
    split_ifs at h with hacc
    · exact ⟨failCount, by omega, hacc⟩
    · obtain ⟨i, hi, hacc'⟩ := ih h
      exact ⟨i, by omega, hacc'⟩

/-- The attempts end in a success or in a refusal. -/
theorem passwordLoop_eq (accepts : List UInt16 → Bool) (attempts : ℕ → List UInt16)
    (left failCount : ℕ) :
    passwordLoop accepts attempts left failCount = .success ∨
      passwordLoop accepts attempts left failCount = .accessDenied := by
  induction left generalizing failCount with
  | zero => exact .inr rfl
  | succ left ih =>
    rw [passwordLoop]
    split_ifs
    · exact .inl rfl
    · exact ih (failCount + 1)

/-- `match_password` fails with an error or has seen a password that matches. -/
theorem exists_of_matchPassword {pwCrypt auth : Option (List UInt8)}
    (h : (matchPassword c pwCrypt data auth attempts).isError ≠ true) :
    ∃ i < 3, (∃ pw, pwCrypt = some pw ∧ acceptsFor c (some pw) data [] (attempts i) = true) ∨
      ∃ au, auth = some au ∧ acceptsFor c none data au (attempts i) = true := by
  have hloop : ∀ {accepts : List UInt16 → Bool},
      (passwordLoop accepts attempts 3 0).isError ≠ true →
        ∃ i < 3, accepts (attempts i) = true := by
    intro accepts hne
    rcases passwordLoop_eq accepts attempts 3 0 with hs | hs
    · obtain ⟨i, hi, hacc⟩ := exists_of_passwordLoop hs
      exact ⟨i, by omega, hacc⟩
    · rw [hs] at hne
      exact absurd rfl hne
  unfold matchPassword at h
  cases pwCrypt with
  | some pw =>
    dsimp only at h
    split_ifs at h with hsize
    · exact absurd rfl h
    · obtain ⟨i, hi, hacc⟩ := hloop h
      exact ⟨i, hi, .inl ⟨pw, rfl, hacc⟩⟩
  | none =>
    cases auth with
    | none => exact absurd rfl h
    | some au =>
      obtain ⟨i, hi, hacc⟩ := hloop h
      exact ⟨i, hi, .inr ⟨au, rfl, hacc⟩⟩

/-- Who gets past the first part has entered a password that matches. -/
theorem matched_of_authenticate
    (h : authenticate c vars authName data fault attempts = .ok ()) :
    Matched c vars authName data attempts := by
  unfold authenticate at h
  cases hread : readAuth vars authName fault with
  | error e => simp [hread] at h
  | ok auth =>
    obtain ⟨v, hv, rfl⟩ := readAuth_eq_ok hread
    simp only [hread] at h
    split_ifs at h with hsize hlen herr herr
    · obtain ⟨i, hi, ⟨pw, hpw, hacc⟩ | ⟨au, hau, -⟩⟩ := exists_of_matchPassword herr
      · obtain rfl : v.data = pw := by simpa using hpw
        exact ⟨v, hv, i, hi, .inl ⟨hlen, hacc⟩⟩
      · cases hau
    · obtain ⟨i, hi, ⟨pw, hpw, -⟩ | ⟨au, hau, hacc⟩⟩ := exists_of_matchPassword herr
      · cases hpw
      · obtain rfl : v.data = au := by simpa using hau
        exact ⟨v, hv, i, hi, .inr ⟨by omega, hacc⟩⟩

/-- An early return is an error, unless the Auth variable is of another size. -/
theorem isError_of_authenticate {e : EfiStatus} (hsized : AuthSized vars authName fault)
    (h : authenticate c vars authName data fault attempts = .error e) : e.isError = true := by
  unfold authenticate at h
  cases hread : readAuth vars authName fault with
  | error e' =>
    obtain rfl : e' = e := by simpa [hread] using h
    exact readAuth_isError hread
  | ok auth =>
    have hlen := hsized auth hread
    simp only [hread] at h
    split_ifs at h with hsize
    · omega
    all_goals
      obtain rfl : EfiStatus.accessDenied = e := by simpa using h
      rfl

/-- With an Auth variable of another size the first part returns the success of its read, and no
password matches. -/
theorem authenticate_of_not_authSized (c : Crypto) (data : List UInt8)
    (attempts : ℕ → List UInt16) (h : ¬ AuthSized vars authName fault) :
    authenticate c vars authName data fault attempts = .error .success ∧
      ¬ Matched c vars authName data attempts := by
  simp only [AuthSized, not_forall, not_or] at h
  obtain ⟨auth, hread, h32, h172⟩ := h
  constructor
  · simp [authenticate, hread, h32, h172]
  · rintro ⟨v, hv, i, -, ⟨hlen, -⟩ | ⟨hlen, -⟩⟩
    all_goals
      obtain ⟨w, hw, rfl⟩ := readAuth_eq_ok hread
      obtain rfl : w = v := by simpa [hw] using hv
      contradiction

end Authenticate

/-! ## Storing -/

section Store

variable {c : Crypto} {a : CommitAnswers} {vars : Variables MokManagerVar} {mokNew : List UInt8}
  {mokX : Bool} {attempts : ℕ → List UInt16} {dbName : MokManagerVar}

/-- What a write of `data` is settled as: done, or failed with the database as it was. -/
def Settled (vars : Variables MokManagerVar) (dbName : MokManagerVar) (data : List UInt8)
    (r : EfiStatus × Variables MokManagerVar) : Prop :=
  (r.1.isError = true ∧ r.2 = vars) ∨ (r.1 = .success ∧ contents r.2 dbName = data)

/-- A write settles the variable, also where there is no memory for it. -/
theorem settled_alloc (data : List UInt8) (alloc : Bool) (fault : Fault) :
    Settled vars dbName data
      (if alloc then writeVariable vars dbName data nvBs fault else (.outOfResources, vars)) := by
  cases alloc with
  | true => exact writeVariable_cases vars dbName data nvBs fault
  | false => exact .inl ⟨rfl, rfl⟩

/-- `write_db` adds to what is kept, as long as it is not told `EFI_NOT_FOUND`. -/
theorem writeDb_settled (mokNew : List UInt8)
    (h : getVariableAttr vars dbName a.size a.read ≠ .error .notFound) :
    ∃ r, writeDb a vars dbName mokNew = some r ∧
      Settled vars dbName (keptContent vars dbName ++ mokNew) r := by
  unfold writeDb
  cases hread : getVariableAttr vars dbName a.size a.read with
  | ok v =>
    refine ⟨_, rfl, ?_⟩
    rw [keptContent, (getVariableAttr_eq_ok hread).1]
    exact settled_alloc _ _ _
  | error e =>
    have hne : e ≠ .notFound := fun he => h (he ▸ hread)
    refine ⟨(e, vars), ?_, .inl ⟨getVariableAttr_isError hread, rfl⟩⟩
    simp only [ne_eq, hne, not_false_eq_true, if_true]

/-- When it is told so, it writes the new lists alone, or copies from the null pointer. -/
theorem writeDb_notFound (mokNew : List UInt8)
    (h : getVariableAttr vars dbName a.size a.read = .error .notFound) :
    writeDb a vars dbName mokNew =
      if runtimeAccess a.stack = true ∨ querySize vars dbName a.size ≠ .bufferTooSmall then
        some (if a.allocData then writeVariable vars dbName mokNew nvBs a.write
          else (.outOfResources, vars))
      else if a.allocData then none else some (.outOfResources, vars) := by
  unfold writeDb
  rw [h]
  simp only [ne_eq, not_true_eq_false, if_false, List.nil_append]
  split_ifs <;> simp_all

/-- What is stored once the caller is authenticated. -/
def stored (a : CommitAnswers) (vars : Variables MokManagerVar) (dbName : MokManagerVar)
    (mokNew : List UInt8) : Option (EfiStatus × Variables MokManagerVar) :=
  if mokNew.length = 0 then some (writeVariable vars dbName [] nvBs a.write)
  else writeDb a vars dbName mokNew

/-- Behind the password `store_keys` is its write. -/
theorem storeKeys_of_authenticate
    (h : authenticate c vars (storeNames mokX).2 mokNew a.auth attempts = .ok ()) :
    storeKeys c a vars mokNew true mokX attempts =
      (stored a vars (storeNames mokX).1 mokNew).map
        fun r => if r.1.isError then r else (.success, r.2) := by
  simp only [storeKeys, if_true, h, stored]

/-- A result that is settled is honest if it is an error or what was requested. -/
theorem storeHonest_iff
    (h : authenticate c vars (storeNames mokX).2 mokNew a.auth attempts = .ok ())
    {r : EfiStatus × Variables MokManagerVar} {data : List UInt8}
    (hr : stored a vars (storeNames mokX).1 mokNew = some r)
    (hs : Settled vars (storeNames mokX).1 data r) :
    StoreHonest c a vars mokNew mokX attempts ↔
      r.1.isError = true ∨ data = requestedStore vars (storeNames mokX).1 mokNew := by
  have hkeys : storeKeys c a vars mokNew true mokX attempts =
      some (if r.1.isError then r else (.success, r.2)) := by
    rw [storeKeys_of_authenticate h, hr, Option.map_some]
  rcases hs with ⟨herr, hvars⟩ | ⟨hst, hdata⟩
  · rw [if_pos herr] at hkeys
    refine iff_of_true ⟨r.1, r.2, hkeys, fun hsucc => ?_, fun _ => by rw [hvars]⟩ (.inl herr)
    exact absurd hsucc (EfiStatus.ne_success_of_isError herr)
  · have herr : r.1.isError = false := by rw [hst]; rfl
    rw [if_neg (by simp [herr])] at hkeys
    constructor
    · rintro ⟨st, vars', hres, hsucc, -⟩
      obtain ⟨rfl, rfl⟩ : EfiStatus.success = st ∧ r.2 = vars' := by simpa [hkeys] using hres
      exact .inr (hdata ▸ (hsucc rfl).2)
    · rintro (herr' | rfl)
      · rw [herr] at herr'
        cases herr'
      · exact ⟨.success, r.2, hkeys, fun _ => ⟨matched_of_authenticate h, hdata⟩,
          fun he => absurd he Bool.false_ne_true⟩

/-- `store_keys` does what it says exactly under its condition. -/
theorem storeHonest_iff_storeSound :
    StoreHonest c a vars mokNew mokX attempts ↔ StoreSound c a vars mokNew mokX attempts := by
  by_cases hsized : AuthSized vars (storeNames mokX).2 a.auth
  · cases hauth : authenticate c vars (storeNames mokX).2 mokNew a.auth attempts with
    | error e =>
      -- an early return with an error
      have herr := isError_of_authenticate hsized hauth
      have hkeys : storeKeys c a vars mokNew true mokX attempts = some (e, vars) := by
        simp only [storeKeys, if_true, hauth]
      refine iff_of_true ⟨e, vars, hkeys, fun hs => ?_, fun _ => rfl⟩
        ⟨hsized, fun h => by rw [hauth] at h; cases h⟩
      exact absurd hs (EfiStatus.ne_success_of_isError herr)
    | ok u =>
      rw [StoreSound, and_iff_right hsized, forall_prop_of_true hauth]
      by_cases hnil : mokNew = []
      · -- a reset
        have hr : stored a vars (storeNames mokX).1 mokNew =
            some (writeVariable vars (storeNames mokX).1 [] nvBs a.write) := by
          rw [stored, if_pos (by simp [hnil])]
        refine iff_of_true ((storeHonest_iff hauth hr (writeVariable_cases _ _ _ _ _)).mpr
          (.inr ?_)) fun h => absurd hnil h
        rw [requestedStore, if_pos hnil]
      · have hstored : stored a vars (storeNames mokX).1 mokNew =
            writeDb a vars (storeNames mokX).1 mokNew := by
          rw [stored, if_neg (by simpa using hnil)]
        rw [forall_prop_of_true hnil]
        by_cases hread : getVariableAttr vars (storeNames mokX).1 a.size a.read = .error .notFound
        · rw [forall_prop_of_true hread, HarmlessNotFound]
          have hdb := writeDb_notFound mokNew hread
          by_cases hlone : runtimeAccess a.stack = true ∨
              querySize vars (storeNames mokX).1 a.size ≠ .bufferTooSmall
          · rw [if_pos hlone] at hdb
            rw [storeHonest_iff hauth (hstored.trans hdb) (settled_alloc mokNew _ _),
              and_iff_right hlone, requestedStore, if_neg hnil]
            cases a.allocData with
            | false => exact iff_of_true (.inl rfl) (.inl rfl)
            | true =>
              rw [if_pos rfl, writeVariable_isError_iff hnil, List.self_eq_append_left, or_comm]
              simp
          · rw [if_neg hlone] at hdb
            cases halloc : a.allocData with
            | false =>
              rw [halloc, if_neg Bool.false_ne_true] at hdb
              have hs : Settled vars (storeNames mokX).1 [] (.outOfResources, vars) :=
                .inl ⟨rfl, rfl⟩
              exact iff_of_true ((storeHonest_iff hauth (hstored.trans hdb) hs).mpr (.inl rfl))
                (.inl rfl)
            | true =>
              rw [halloc, if_pos rfl] at hdb
              refine iff_of_false ?_ (by simp [hlone])
              rintro ⟨st, vars', hres, -⟩
              rw [storeKeys_of_authenticate hauth, hstored, hdb] at hres
              cases hres
        · obtain ⟨r, hdb, hs⟩ := writeDb_settled mokNew hread
          refine iff_of_true ((storeHonest_iff hauth (hstored.trans hdb) hs).mpr (.inr ?_))
            fun h => absurd h hread
          rw [requestedStore, if_neg hnil]
  · -- the status of the read is returned
    obtain ⟨hearly, hno⟩ := authenticate_of_not_authSized c mokNew attempts hsized
    refine iff_of_false ?_ fun h => hsized h.1
    rintro ⟨st, vars', hres, hsucc, -⟩
    have hkeys : storeKeys c a vars mokNew true mokX attempts = some (.success, vars) := by
      simp only [storeKeys, if_true, hearly]
    obtain ⟨rfl, -⟩ : EfiStatus.success = st ∧ vars = vars' := by simpa [hkeys] using hres
    exact hno (hsucc rfl).1

end Store

/-! ## Deleting -/

section Delete

variable {c : Crypto} {a : CommitAnswers} {vars : Variables MokManagerVar} {mokDel : Region}
  {mokX : Bool} {attempts : ℕ → List UInt16} {dbName : MokManagerVar}

/-- The explicit erasure either goes through or changes nothing. -/
theorem erase_cases (fault : Fault) :
    (writeVariable vars dbName [] nvBs fault).2 dbName = vars dbName ∨
      (writeVariable vars dbName [] nvBs fault).2 dbName = none := by
  rcases writeVariable_cases vars dbName [] nvBs fault with ⟨-, hvars⟩ | ⟨hs, -⟩
  · exact .inl (by rw [hvars])
  · right
    rw [writeVariable, dif_pos (by decide)] at hs ⊢
    cases fault with
    | some e => exact absurd hs (EfiStatus.ne_success_of_isError e.2)
    | none =>
      by_cases hvar : vars dbName = none
      · rw [setVariable_of_nil_of_none rfl hvar] at hs
        cases hs
      · rw [setVariable_of_nil rfl hvar]
        exact Function.update_self _ _ _

/-- Where reading the list ends the deletion. -/
theorem loadMokList_error {r : EfiStatus × Variables MokManagerVar}
    (h : loadMokList a vars dbName = .error r) :
    (r.1.isError = true ∧ (r.2 dbName = vars dbName ∨ r.2 dbName = none ∧ Erased vars dbName a.heap)) ∨
      (r = (.success, vars) ∧ contents vars dbName = []) := by
  unfold loadMokList at h
  cases hread : getVariableAttr vars dbName a.size a.read with
  | error e =>
    rw [hread] at h
    cases h
    exact .inl ⟨rfl, .inl rfl⟩
  | ok v =>
    have hv := (getVariableAttr_eq_ok hread).1
    simp only [hread] at h
    -- attributes, empty variable, count, memory, in the order of the source
    split_ifs at h with hrt hnil hcount halloc
    · cases h
      exact .inl ⟨rfl, (erase_cases a.erase).imp_right fun hn => ⟨hn, v, hv, .inl hrt⟩⟩
    · cases h
      refine .inr ⟨rfl, ?_⟩
      rw [contents, hv]
      exact List.length_eq_zero_iff.mp hnil
    · cases h
      exact .inl ⟨rfl, (erase_cases a.erase).imp_right fun hn => ⟨hn, v, hv, .inr hcount⟩⟩
    · cases h
      exact .inl ⟨rfl, .inl rfl⟩
    · cases hbuild : buildMokList (listRegion v.data a.heap) with
      | none =>
        rw [hbuild] at h
        cases h
        exact .inl ⟨rfl, .inl rfl⟩
      | some mok =>
        rw [hbuild] at h
        cases h

/-- A list that is loaded is the one stored, and was counted. -/
theorem loadMokList_ok {s : Region × List MokListNode} (h : loadMokList a vars dbName = .ok s) :
    contents vars dbName ≠ [] ∧ vars dbName ≠ none ∧
      s.1 = listRegion (contents vars dbName) a.heap ∧ countKeys s.1 ≠ 0 ∧
      buildMokList s.1 = some s.2 := by
  unfold loadMokList at h
  cases hread : getVariableAttr vars dbName a.size a.read with
  | error e =>
    rw [hread] at h
    cases h
  | ok v =>
    have hv := (getVariableAttr_eq_ok hread).1
    simp only [hread] at h
    split_ifs at h with hrt hnil hcount halloc
    cases hbuild : buildMokList (listRegion v.data a.heap) with
    | none =>
      rw [hbuild] at h
      cases h
    | some mok =>
      rw [hbuild] at h
      cases h
      rw [contents, hv]
      exact ⟨fun hc => hnil (List.length_eq_zero_iff.mpr hc), by simp, rfl, hcount, hbuild⟩

/-- A request that cannot be loaded stops the deletion. -/
theorem loadRequest_error {r : EfiStatus × Variables MokManagerVar}
    (h : loadRequest a vars mokDel = .error r) : r = (.aborted, vars) := by
  unfold loadRequest at h
  split_ifs at h
  · exact (Except.error.inj h).symm
  · exact (Except.error.inj h).symm
  · cases hbuild : buildMokList mokDel with
    | none =>
      rw [hbuild] at h
      exact (Except.error.inj h).symm
    | some delKey =>
      rw [hbuild] at h
      cases h

/-- One that is loaded was counted. -/
theorem loadRequest_ok {delKey : List MokListNode} (h : loadRequest a vars mokDel = .ok delKey) :
    countKeys mokDel ≠ 0 ∧ buildMokList mokDel = some delKey := by
  unfold loadRequest at h
  split_ifs at h with hcount
  cases hbuild : buildMokList mokDel with
  | none =>
    rw [hbuild] at h
    cases h
  | some delKey' =>
    rw [hbuild] at h
    cases h
    exact ⟨hcount, rfl⟩

/-- The write fails and changes nothing, or is done; but a refused write of nothing is called a
success. -/
theorem writeBackMokList_cases {s : Region × List MokListNode} (hvar : vars dbName ≠ none) :
    let r := writeBackMokList a vars dbName s
    let data := encodeNodes s
    (r.1.isError = true ∧ r.2 = vars ∧ data ≠ [] ∧ ¬ a.Takes data) ∨
      (r.1 = .success ∧ contents r.2 dbName = data ∧ (data = [] ∨ a.Takes data) ∧
        a.write = none) ∨
      (r.1 = .success ∧ r.2 = vars ∧ data = [] ∧ a.write ≠ none) := by
  simp only [writeBackMokList]
  generalize encodeNodes s = data
  by_cases hnil : data = []
  -- an empty list is deleted, and the answer is not looked at
  · subst hnil
    simp only [List.length_nil, if_true]
    cases hwrite : a.write with
    | none =>
      exact .inr (.inl ⟨trivial, (writeVariable_success nvBs (.inr hvar) (by decide)).2,
        .inl trivial, rfl⟩)
    | some e =>
      refine .inr (.inr ⟨trivial, ?_, trivial, by simp⟩)
      rw [writeVariable, dif_pos (by decide)]
      rfl
  · have hlen : data.length ≠ 0 := by simpa using hnil
    simp only [if_neg hlen]
    cases halloc : a.allocData with
    -- no memory for the new list
    | false => exact .inl ⟨rfl, rfl, hnil, fun h => by rw [CommitAnswers.Takes, halloc] at h; cases h.1⟩
    | true =>
      simp only [Bool.not_true, Bool.false_eq_true, if_false]
      have herror := @writeVariable_isError_iff _ _ vars dbName data nvBs a.write hnil
      rcases writeVariable_cases vars dbName data nvBs a.write with ⟨herr, hvars⟩ | ⟨hs, hdata⟩
      · rw [if_pos herr]
        refine .inl ⟨herr, hvars, hnil, fun h => ?_⟩
        rcases herror.mp herr with hfault | hlong
        · exact hfault h.2.1
        · exact absurd h.2.2 (Nat.not_lt.mpr hlong)
      · have hok : ¬ (writeVariable vars dbName data nvBs a.write).1.isError = true := by
          rw [hs]
          exact Bool.false_ne_true
        obtain ⟨hfault, hshort⟩ := not_or.mp (mt herror.mpr hok)
        have hwrite : a.write = none := not_not.mp hfault
        rw [if_neg hok]
        exact .inr (.inl ⟨rfl, hdata, .inr ⟨halloc, hwrite, Nat.not_le.mp hshort⟩, hwrite⟩)

section Requested

variable {content : List UInt8} {heap : ℕ → UInt8} {mok delKey : List MokListNode}
  {ls rs : List SignatureList}

/-- The nodes of a well-formed database and of a well-formed request. -/
theorem nodes_of_wellFormed (hlt : (encodeDb ls).length < 2 ^ 31) (hls : WellFormedKeys ls)
    (hrs : HoldsKeys mokDel rs) (hcount : countKeys (listRegion (encodeDb ls) heap) ≠ 0)
    (hmok : buildMokList (listRegion (encodeDb ls) heap) = some mok)
    (hreq : countKeys mokDel ≠ 0) (hdel : buildMokList mokDel = some delKey) :
    (ls ≠ [] ∧ (∀ l ∈ ls, l.sigs ≠ []) ∧ ∀ r ∈ rs, r.sigs ≠ []) ∧
      mok = nodesFrom 0 ls ∧ delKey = nodesFrom 0 rs := by
  have hd := holdsKeys_listRegion heap hlt hls
  obtain ⟨hne, hlsne⟩ := hd.ne_nil_of_countKeys hcount
  obtain ⟨-, hrsne⟩ := hrs.ne_nil_of_countKeys hreq
  refine ⟨⟨hne, hlsne, hrsne⟩, ?_, ?_⟩
  · exact Option.some.inj (hmok.symm.trans (hd.buildMokList hlsne).2)
  · exact Option.some.inj (hdel.symm.trans (hrs.buildMokList hrsne).2)

/-- What the search leaves is the requested content exactly if it does right on every list. -/
theorem requestedDeletion_search_iff (hlt : content.length < 2 ^ 31) (hne : content ≠ [])
    (hcount : countKeys (listRegion content heap) ≠ 0)
    (hmok : buildMokList (listRegion content heap) = some mok)
    (hreq : countKeys mokDel ≠ 0) (hdel : buildMokList mokDel = some delKey) :
    RequestedDeletion content mokDel
        (encodeNodes (searchAndDestroy mokDel delKey (listRegion content heap, mok))) ↔
      SearchesRight content mokDel := by
  rw [RequestedDeletion, or_iff_right fun h => hne h.1]
  refine exists_congr fun ls => exists_congr fun rs => and_congr_right fun hcontent =>
    and_congr_right fun hls => and_congr_right fun hrs => ?_
  subst hcontent
  obtain ⟨⟨-, hlsne, hrsne⟩, rfl, rfl⟩ := nodes_of_wellFormed hlt hls hrs hcount hmok hreq hdel
  obtain ⟨sigs, hdec, hkeys, hlen⟩ :=
    decodes_searchAndDestroy (holdsKeys_listRegion heap hlt hls) hrs hlsne hrsne
  rw [deletionExact_iff_of_decodes hdec (lt_of_le_of_lt hlen (lt_trans hlt (by decide))), hkeys,
    flatMap_keptKeys_eq_iff hlsne hrsne]

/-- Where the search leaves nothing, something was requested; so the old content is not what was. -/
theorem not_requestedDeletion_self (hlt : content.length < 2 ^ 31) (hne : content ≠ [])
    (hcount : countKeys (listRegion content heap) ≠ 0)
    (hmok : buildMokList (listRegion content heap) = some mok)
    (hreq : countKeys mokDel ≠ 0) (hdel : buildMokList mokDel = some delKey)
    (hnil : encodeNodes (searchAndDestroy mokDel delKey (listRegion content heap, mok)) = []) :
    ¬ RequestedDeletion content mokDel content := by
  rintro (⟨h, -⟩ | ⟨ls, rs, rfl, hls, hrs, hexact⟩)
  · exact hne h
  obtain ⟨⟨hlist, hlsne, hrsne⟩, rfl, rfl⟩ :=
    nodes_of_wellFormed hlt hls hrs hcount hmok hreq hdel
  obtain ⟨sigs, hdec, hkeys, -⟩ :=
    decodes_searchAndDestroy (holdsKeys_listRegion heap hlt hls) hrs hlsne hrsne
  rw [hnil] at hdec
  obtain rfl : sigs = [] :=
    (hdec.eq_signatures (by decide)).trans (Decodes.nil.eq_signatures (by decide)).symm
  obtain ⟨l, hl⟩ := List.exists_mem_of_ne_nil ls hlist
  have hkept : keptKeys rs l = [] := List.flatMap_eq_nil_iff.mp hkeys.symm l hl
  obtain ⟨s, hs, hkey⟩ := exists_requested_of_keptKeys_eq_nil (hlsne l hl) hrsne hkept
  rw [deletionExact_iff_of_decodes ⟨ls, rfl, rfl⟩ (lt_trans hlt (by decide)),
    remaining_eq_self_iff] at hexact
  exact hexact s (List.mem_flatMap.mpr ⟨l, hl, hs⟩) hkey

end Requested

/-- The write back is honest exactly under the condition. -/
theorem deleteHonest_iff_of_written {s : Region × List MokListNode} {delKey : List MokListNode}
    (hauth : authenticate c vars (deleteNames mokX).2 (mokDel.bytes 0 mokDel.size) a.auth attempts =
      .ok ())
    (hlist : loadMokList a vars (deleteNames mokX).1 = .ok s)
    (hreq : loadRequest a vars mokDel = .ok delKey) :
    DeleteHonest c a vars mokDel mokX attempts ↔
      (encodeNodes (searchAndDestroy mokDel delKey s) = [] ∨
          a.Takes (encodeNodes (searchAndDestroy mokDel delKey s)) →
        a.write = none ∧ SearchesRight (contents vars (deleteNames mokX).1) mokDel) := by
  have hmatched := matched_of_authenticate hauth
  obtain ⟨hne, hvar, hregion, hcount, hbuild⟩ := loadMokList_ok hlist
  obtain ⟨hreqcount, hdel⟩ := loadRequest_ok hreq
  obtain ⟨d, mok⟩ := s
  dsimp only at hregion hcount hbuild
  subst hregion
  have hlt := contents_lt vars (deleteNames mokX).1
  have hright := requestedDeletion_search_iff hlt hne hcount hbuild hreqcount hdel
  have hself := not_requestedDeletion_self hlt hne hcount hbuild hreqcount hdel
  have hcases := writeBackMokList_cases (a := a) (s := searchAndDestroy mokDel delKey
    (listRegion (contents vars (deleteNames mokX).1) a.heap, mok)) hvar
  rw [DeleteHonest, deleteKeys, hauth]
  simp only [hlist, hreq]
  generalize writeBackMokList a vars (deleteNames mokX).1 (searchAndDestroy mokDel delKey
    (listRegion (contents vars (deleteNames mokX).1) a.heap, mok)) = r at hcases ⊢
  generalize encodeNodes (searchAndDestroy mokDel delKey
    (listRegion (contents vars (deleteNames mokX).1) a.heap, mok)) = data at hright hself hcases ⊢
  rcases hcases with ⟨herr, hvars, hdata, hno⟩ | ⟨hs, hdata, hdone, hwrite⟩ | ⟨hs, hvars, hnil, hfault⟩
  · -- nothing is promised, and nothing was written
    exact iff_of_true ⟨fun hs => absurd hs (EfiStatus.ne_success_of_isError herr),
      fun _ => .inl (by rw [hvars])⟩ fun h => (h.elim hdata hno).elim
  -- written: the success is honest where the search took out what was asked for
  · rw [forall_prop_of_true hdone, and_iff_right hwrite, ← hright, hdata, hs]
    simp only [forall_const, hmatched, true_and]
    exact and_iff_left fun he => absurd he Bool.false_ne_true
  · -- the refused write is reported as a success
    refine iff_of_false (fun h => ?_) fun h => hfault (h (.inl hnil)).1
    have := (h.1 hs).2
    rw [hvars] at this
    exact hself hnil this

/-- `delete_keys` does what it says exactly under its condition. -/
theorem deleteHonest_iff_deleteSound :
    DeleteHonest c a vars mokDel mokX attempts ↔ DeleteSound c a vars mokDel mokX attempts := by
  by_cases hsized : AuthSized vars (deleteNames mokX).2 a.auth
  · rw [DeleteSound, and_iff_right hsized]
    cases hauth : authenticate c vars (deleteNames mokX).2 (mokDel.bytes 0 mokDel.size) a.auth
      attempts with
    | error e =>
      -- refused: nothing changes
      have herr := isError_of_authenticate hsized hauth
      rw [DeleteHonest, deleteKeys, hauth]
      refine iff_of_true ⟨fun hs => absurd hs (EfiStatus.ne_success_of_isError herr),
        fun _ => .inl rfl⟩ ?_
      rintro data ⟨s, delKey, hok, -⟩
      rw [hauth] at hok
      cases hok
    | ok u =>
      cases hlist : loadMokList a vars (deleteNames mokX).1 with
      -- the list cannot be loaded
      | error r =>
        rw [DeleteHonest, deleteKeys, hauth]
        simp only [hlist]
        refine iff_of_true ?_ ?_
        · rcases loadMokList_error hlist with ⟨herr, hdb⟩ | ⟨rfl, hnil⟩
          · exact ⟨fun hs => absurd hs (EfiStatus.ne_success_of_isError herr), fun _ => hdb⟩
          · exact ⟨fun _ => ⟨matched_of_authenticate hauth, .inl ⟨hnil, hnil⟩⟩,
              fun herr => absurd herr Bool.false_ne_true⟩
        · rintro data ⟨s, delKey, -, hok, -⟩
          rw [hlist] at hok
          cases hok
      | ok s =>
        cases hreq : loadRequest a vars mokDel with
        -- the request cannot be loaded
        | error r =>
          obtain rfl := loadRequest_error hreq
          rw [DeleteHonest, deleteKeys, hauth]
          simp only [hlist, hreq]
          refine iff_of_true ⟨fun hs => EfiStatus.noConfusion hs, fun _ => .inl trivial⟩ ?_
          rintro data ⟨s', delKey, -, -, hok, -⟩
          rw [hreq] at hok
          cases hok
        | ok delKey =>
          -- the list is written back
          rw [deleteHonest_iff_of_written hauth hlist hreq]
          constructor
          · rintro h data ⟨s', delKey', -, hs', hdel', rfl⟩
            obtain rfl : s = s' := Except.ok.inj (hlist.symm.trans hs')
            obtain rfl : delKey = delKey' := Except.ok.inj (hreq.symm.trans hdel')
            exact h
          · exact fun h => h _ ⟨s, delKey, hauth, hlist, hreq, rfl⟩
  · obtain ⟨hearly, hno⟩ := authenticate_of_not_authSized c
      (mokDel.bytes 0 mokDel.size) attempts hsized
    refine iff_of_false ?_ fun h => hsized h.1
    rintro ⟨hsucc, -⟩
    rw [deleteKeys, hearly] at hsucc
    exact hno (hsucc rfl).1

end Delete

/-- Both functions keep to their word exactly under their conditions. -/
theorem mokManagerHonest_iff (c : Crypto) (a : CommitAnswers) (vars : Variables MokManagerVar)
    (mokNew : List UInt8) (mokDel : Region) (mokX : Bool) (attempts : ℕ → List UInt16) :
    (StoreHonest c a vars mokNew mokX attempts ↔ StoreSound c a vars mokNew mokX attempts) ∧
      (DeleteHonest c a vars mokDel mokX attempts ↔
        DeleteSound c a vars mokDel mokX attempts) :=
  ⟨storeHonest_iff_storeSound, deleteHonest_iff_deleteSound⟩

/-! ## Two runs that do not keep it -/

/-- A database of one certificate. -/
def oneCertDb : List UInt8 := encodeDb [certList [0x30] (by decide) (by decide)]

def oneCertNodes : List MokListNode := nodesFrom 0 [certList [0x30] (by decide) (by decide)]

/-- A request to delete that certificate. -/
def oneCertRequest : Region := Region.ofList 0 oneCertDb

/-- SHA-256 of the request and the password "a", which is what the run hashes. -/
def oneCertDigest : List UInt8 :=
  [0xc0, 0xd5, 0x30, 0x37, 0xdf, 0x99, 0xfe, 0xb0, 0x81, 0xec, 0x71, 0x24, 0x43, 0x36, 0xa9, 0x16,
    0x11, 0xb9, 0x3f, 0xc1, 0x03, 0x29, 0x5b, 0xf5, 0x22, 0x38, 0x80, 0xbe, 0x39, 0xbd, 0xa8, 0x07]

def oneCertCrypto : Crypto := ⟨fun _ => some oneCertDigest, fun _ _ _ => .error .unsupported⟩

/-- The list, the hash of the password to delete from it, and an Auth variable of one byte. -/
def oneCertVars : Variables MokManagerVar
  | .mokList => some ⟨oneCertDb, nvBs, by decide⟩
  | .mokDelAuth => some ⟨oneCertDigest, nvBs, by decide⟩
  | .mokAuth => some ⟨[0], nvBs, by decide⟩
  | _ => none

/-- Every call goes through but the write. -/
def writeRefused : CommitAnswers :=
  ⟨none, none, none, some ⟨.outOfResources, rfl⟩, none, true, true, true, 0, fun _ => 0⟩

/-- A store without any password, and a deletion whose write is refused: both report success. -/
theorem not_mokManagerHonest :
    ¬ StoreHonest oneCertCrypto writeRefused oneCertVars oneCertDb false (fun _ => []) ∧
      ¬ DeleteHonest oneCertCrypto writeRefused oneCertVars oneCertRequest false
        fun _ => [97] := by
  constructor
  · rw [storeHonest_iff_storeSound]
    rintro ⟨hsized, -⟩
    exact absurd (hsized [0] (by rfl)) (by decide)
  · rw [deleteHonest_iff_deleteSound]
    rintro ⟨-, hwrite⟩
    have hall : ComesToWrite oneCertCrypto writeRefused oneCertVars oneCertRequest false
        (fun _ => [97]) [] :=
      ⟨(listRegion oneCertDb fun _ => 0, oneCertNodes), oneCertNodes, by rfl, by rfl, by rfl,
        by decide +kernel⟩
    exact absurd (hwrite [] hall (.inl rfl)).1 (by decide)

end Shim
