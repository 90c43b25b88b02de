import Shim.MokManager.Menu

/-! # What the menu can do to the machine

Whatever the user chooses, the firmware answers and the files hold, the key lists, the states of the
toggles and the stored password change for a request whose password was entered. The exception is
an enrolment from disk, which asks for no password and adds one signature to `MokList`.
-/

namespace Shim

variable {c : Crypto} {t : TurnAnswers} {vars vars' : MenuVars} {q q' : MokRequests}
  {efiStatus : EfiStatus}

/-! ## What a prompt can change -/

/-- The bytes of a request, none for the null pointer. -/
def requestBytes (request : Option Region) : List UInt8 :=
  match request with
  | none => []
  | some r => r.bytes 0 r.size

/-- `MokNew` or `MokXNew`. -/
def MokRequests.new (q : MokRequests) (mokX : Bool) : Option Region :=
  if mokX then q.mokXNew else q.mokNew

/-- `MokDel` or `MokXDel`. -/
def MokRequests.del (q : MokRequests) (mokX : Bool) : Option Region :=
  if mokX then q.mokXDel else q.mokDel

/-- The items that put something into the list `mokX`, or erase it. -/
def storeItems (mokX : Bool) : List MokMenuItem :=
  if mokX then [.enrollMokX, .resetMokX] else [.enrollMok, .resetMok]

/-- The item that deletes from the list `mokX`. -/
def deleteItem (mokX : Bool) : MokMenuItem := if mokX then .deleteMokX else .deleteMok

/-- Who sits at the keyboard enters the password that goes with the item, one for the list. -/
def PasswordGiven (c : Crypto) (t : TurnAnswers) (keys : Variables MokManagerVar) (q : MokRequests)
    (item : MokMenuItem) (mokX : Bool) : Prop :=
  item ∈ storeItems mokX ∧
      Matched c keys (storeNames mokX).2 (requestBytes (q.new mokX)) t.attempts ∨
    item = deleteItem mokX ∧
      Matched c keys (deleteNames mokX).2 (requestBytes (q.del mokX)) t.attempts

/-- The request of a toggle prompt that `enter_mok_menu` holds. -/
def MokRequests.toggle (q : MokRequests) (p : Toggle) : Option Region :=
  match p.request with
  | .mokSB => q.mokSB
  | .mokDB => q.mokDB
  | .mokListTrustedNew => q.mokTML
  | _ => none

/-- Three characters of the password of a request are entered, one after the other. -/
def CharactersGiven (t : TurnAnswers) (request : Region) : Prop :=
  ∃ n pos1 pos2 pos3,
    (0 < pwLen request → (PromptPhase.compare pos1 pos2 pos3).Chosen (pwLen request)) ∧
      (t.toggle.entered n).toNat = togglePassword request pos1 ∧
      (t.toggle.entered (n + 1)).toNat = togglePassword request pos2 ∧
      (t.toggle.entered (n + 2)).toNat = togglePassword request pos3

/-- `MokPW` is confirmed: its password is entered, or it is empty and the user agrees. -/
def PasswordConfirmed (c : Crypto) (t : TurnAnswers) (mokPW : List UInt8) : Prop :=
  (∃ i < 3, mokPW.length = 172 ∧ acceptsFor c (some mokPW) [] [] (t.attempts i) = true ∨
      mokPW.length = 32 ∧ acceptsFor c none [] mokPW (t.attempts i) = true) ∨
    mokPW = List.replicate mokPW.length 0 ∧ t.yes = true

/-- A list that an enrolment from disk adds: the hash of a binary, or a certificate. -/
def DiskList (l : SignatureList) : Prop :=
  (∃ sha256, l = enrolledList sha256) ∨
    ∃ data hne hlt, l = certList data hne hlt ∧ 4 ≤ data.length ∧ data.length < 2 ^ 16 + 4

/-- Data is put behind the content of a database, or in its place. -/
def Adds (keys : Variables MokManagerVar) (dbName : MokManagerVar) (data : List UInt8)
    (keys' : Variables MokManagerVar) : Prop :=
  (∀ other, other ≠ dbName → keys' other = keys other) ∧
    (keys' dbName = keys dbName ∨
      ∃ pre, (pre = [] ∨ pre = contents keys dbName) ∧ contents keys' dbName = pre ++ data)

/-- A variable is left alone or deleted. -/
def OnlyErased {Name : Type} (vars vars' : Variables Name) (name : Name) : Prop :=
  vars' name = vars name ∨ vars' name = none

/-- Deleting a variable erases that one only. -/
theorem onlyErased_delVariable {Name : Type} [DecidableEq Name] (vars : Variables Name)
    (name other : Name) (fault : Fault) : OnlyErased vars (delVariable vars name fault).2 other := by
  by_cases hne : other = name
  · unfold delVariable setVariable
    cases fault with
    | some e => exact .inl rfl
    | none =>
      simp only [List.length_nil, if_true]
      split_ifs
      · exact .inr (by rw [hne]; exact Function.update_self _ _ _)
      · exact .inl rfl
  · exact .inl (delVariable_of_ne hne fault)

/-- What is erased or left twice is erased or left. -/
theorem OnlyErased.trans {Name : Type} {vars₁ vars₂ vars₃ : Variables Name} {name : Name}
    (h₁ : OnlyErased vars₁ vars₂ name) (h₂ : OnlyErased vars₂ vars₃ name) :
    OnlyErased vars₁ vars₃ name := by
  rcases h₂ with h₂ | h₂
  · exact h₁.imp h₂.trans h₂.trans
  · exact .inr h₂

/-- The variables that hold the hashes of passwords. -/
def authNames : List MokManagerVar := [.mokAuth, .mokDelAuth, .mokXAuth, .mokXDelAuth]

/-- The three toggles. -/
def toggles : List Toggle := [mokSbToggle, mokDbToggle, mokTmlToggle]

/-- The item of a toggle. -/
def Toggle.item (p : Toggle) : MokMenuItem :=
  match p.request with
  | .mokSB => .changeSb
  | .mokDB => .changeDb
  | _ => .changeTml

/-- What a turn changes of the variables that are protected, it changes for a password, or it adds a
list from disk to `MokList`. Requests and Auth variables are deleted at most. -/
structure TurnGuarded (c : Crypto) (t : TurnAnswers) (q : MokRequests) (item : MokMenuItem)
    (vars vars' : MenuVars) : Prop where
  mokListX : vars'.keys .mokListX = vars.keys .mokListX ∨ PasswordGiven c t vars.keys q item true
  mokList : vars'.keys .mokList = vars.keys .mokList ∨ PasswordGiven c t vars.keys q item false ∨
    (item = .keyEnroll ∨ item = .hashEnroll) ∧ t.yes = true ∧
      ∃ l, DiskList l ∧ Adds vars.keys .mokList l.encode vars'.keys
  state : ∀ p ∈ toggles, vars'.toggles p.state = vars.toggles p.state ∨
    item = p.item ∧ ∃ request, q.toggle p = some request ∧ CharactersGiven t request
  mokPWStore : vars'.requests .mokPWStore = vars.requests .mokPWStore ∨
    item = .setPw ∧ ∃ mokPW, q.mokPW = some mokPW ∧ PasswordConfirmed c t mokPW
  auth : ∀ authName ∈ authNames, OnlyErased vars.keys vars'.keys authName
  request : ∀ name, name ≠ .mokPWStore → OnlyErased vars.requests vars'.requests name
  toggleRequest : ∀ p ∈ toggles, OnlyErased vars.toggles vars'.toggles p.request

/-- A turn that touches nothing is guarded. -/
theorem TurnGuarded.refl (c : Crypto) (t : TurnAnswers) (q : MokRequests) (item : MokMenuItem)
    (vars : MenuVars) : TurnGuarded c t q item vars vars :=
  ⟨.inl rfl, .inl rfl, fun _ _ => .inl rfl, .inl rfl, fun _ _ => .inl rfl, fun _ _ => .inl rfl,
    fun _ _ => .inl rfl⟩

section Keys

variable {a : CommitAnswers} {keys keys' : Variables MokManagerVar} {dbName : MokManagerVar}
  {data : List UInt8} {mokX auth : Bool} {attempts : ℕ → List UInt16}
  {r : EfiStatus × Variables MokManagerVar}

/-- Nothing is added where nothing changes. -/
theorem Adds.refl (keys : Variables MokManagerVar) (dbName : MokManagerVar) (data : List UInt8) :
    Adds keys dbName data keys :=
  ⟨fun _ _ => rfl, .inl rfl⟩

/-- A write of the database keeps to it. -/
theorem adds_writeVariable {pre : List UInt8} (hpre : pre = [] ∨ pre = contents keys dbName)
    (fault : Fault) :
    Adds keys dbName data (writeVariable keys dbName (pre ++ data) nvBs fault).2 := by
  refine ⟨fun other hne => writeVariable_of_ne hne _ _ _, ?_⟩
  rcases writeVariable_cases keys dbName (pre ++ data) nvBs fault with ⟨-, heq⟩ | ⟨-, hdata⟩
  · exact .inl (congrFun heq dbName)
  · exact .inr ⟨pre, hpre, hdata⟩

/-- `write_db` keeps the old content or drops it, and adds the new lists. -/
theorem adds_writeDb (h : writeDb a keys dbName data = some r) : Adds keys dbName data r.2 := by
  -- what is written has the old list in front, or nothing
  have hwrite : ∀ {pre : List UInt8}, pre = [] ∨ pre = contents keys dbName →
      Adds keys dbName data (if a.allocData then writeVariable keys dbName (pre ++ data) nvBs a.write
        else (.outOfResources, keys)).2 := by
    intro pre hpre
    split_ifs
    · exact adds_writeVariable hpre a.write
    · exact .refl keys dbName data
  cases hread : getVariableAttr keys dbName a.size a.read with
  | ok v =>
    have hv : v.data = contents keys dbName := by
      simp only [contents, (getVariableAttr_eq_ok hread).1]
    simp only [writeDb, hread, Option.some.injEq] at h
    rw [← h]
    refine hwrite ?_
    split_ifs
    · exact .inl rfl
    · exact .inr hv
  | error e =>
    -- only a list that is not there yet is created
    by_cases hfound : e = .notFound
    · rw [hfound] at hread
      rw [writeDb_notFound data hread] at h
      split_ifs at h
      · obtain rfl := Option.some.inj h
        exact adds_writeVariable (.inl rfl) a.write
      all_goals
        obtain rfl := Option.some.inj h
        exact .refl keys dbName data
    · simp only [writeDb, hread, ne_eq, hfound, not_false_eq_true, if_true, Option.some.injEq] at h
      rw [← h]
      exact .refl keys dbName data

/-- `store_keys` does nothing, or it adds the new lists, and asks for the password if it has to. -/
theorem storeKeys_cases (h : storeKeys c a keys data auth mokX attempts = some r) :
    r.2 = keys ∨
      (auth = true → Matched c keys (storeNames mokX).2 data attempts) ∧
        Adds keys (storeNames mokX).1 data r.2 := by
  -- an empty request erases the list
  have hadds : ∀ {r' : Option (EfiStatus × Variables MokManagerVar)},
      (r' = if data.length = 0 then some (writeVariable keys (storeNames mokX).1 [] nvBs a.write)
        else writeDb a keys (storeNames mokX).1 data) →
      r'.map (fun r => if r.1.isError then r else (.success, r.2)) = some r →
        Adds keys (storeNames mokX).1 data r.2 := by
    intro r' hr' hmap
    obtain ⟨r₀, hr₀, rfl⟩ := Option.map_eq_some_iff.mp hmap
    have hsame : (if r₀.1.isError then r₀ else (.success, r₀.2)).2 = r₀.2 := by split_ifs <;> rfl
    rw [hsame]
    rw [hr₀] at hr'
    split_ifs at hr' with hlen
    · obtain rfl := Option.some.inj hr'
      obtain rfl := List.length_eq_zero_iff.mp hlen
      exact @adds_writeVariable keys _ [] [] (.inl rfl) a.write
    · exact adds_writeDb hr'.symm
  unfold storeKeys at h
  -- from the disk without a password, otherwise with the one of the request
  cases auth with
  | false => exact .inr ⟨fun h => absurd h Bool.false_ne_true, hadds rfl h⟩
  | true =>
    cases hauth : authenticate c keys (storeNames mokX).2 data a.auth attempts with
    | error e =>
      simp only [if_true, hauth, Option.some.injEq] at h
      exact .inl (by rw [← h])
    | ok u =>
      simp only [if_true, hauth] at h
      exact .inr ⟨fun _ => matched_of_authenticate hauth, hadds rfl h⟩

/-- With an Auth variable of one of the two formats, a success takes the password. -/
theorem storeKeys_matched (hsized : AuthSized keys (storeNames mokX).2 a.auth)
    (h : storeKeys c a keys data true mokX attempts = some r) (hr : ¬ r.1.isError = true) :
    Matched c keys (storeNames mokX).2 data attempts := by
  unfold storeKeys at h
  cases hauth : authenticate c keys (storeNames mokX).2 data a.auth attempts with
  | error e =>
    simp only [if_true, hauth, Option.some.injEq] at h
    rw [← h] at hr
    exact absurd (isError_of_authenticate hsized hauth) hr
  | ok u => exact matched_of_authenticate hauth

/-- `delete_keys` changes the database only, and for its password. -/
theorem deleteKeys_cases (c : Crypto) (a : CommitAnswers) (keys : Variables MokManagerVar)
    (mokDel : Region) (mokX : Bool) (attempts : ℕ → List UInt16) :
    let r := deleteKeys c a keys mokDel mokX attempts
    r.2 = keys ∨
      Matched c keys (deleteNames mokX).2 (mokDel.bytes 0 mokDel.size) attempts ∧
        ∀ other, other ≠ (deleteNames mokX).1 → r.2 other = keys other := by
  intro r
  cases hauth : authenticate c keys (deleteNames mokX).2 (mokDel.bytes 0 mokDel.size) a.auth
      attempts with
  | error e =>
    left
    simp only [r, deleteKeys, hauth]
  | ok u =>
    refine .inr ⟨matched_of_authenticate hauth, fun other hne => ?_⟩
    simp only [r, deleteKeys, hauth]
    cases hload : loadMokList a keys (deleteNames mokX).1 with
    -- a list that cannot be loaded may be erased, and nothing else is touched
    | error r' =>
      unfold loadMokList at hload
      cases hread : getVariableAttr keys (deleteNames mokX).1 a.size a.read with
      | error e =>
        simp only [hread, Except.error.injEq] at hload
        rw [← hload]
      | ok v =>
        simp only [hread] at hload
        split_ifs at hload
        · rw [← Except.error.inj hload]
          exact writeVariable_of_ne hne _ _ _
        · rw [← Except.error.inj hload]
        · rw [← Except.error.inj hload]
          exact writeVariable_of_ne hne _ _ _
        · rw [← Except.error.inj hload]
        · split at hload
          · rw [← Except.error.inj hload]
          · cases hload
    | ok s =>
      dsimp only
      cases hreq : loadRequest a keys mokDel with
      | error r' =>
        unfold loadRequest at hreq
        split_ifs at hreq
        · rw [← Except.error.inj hreq]
        · rw [← Except.error.inj hreq]
        · split at hreq
          · rw [← Except.error.inj hreq]
          · cases hreq
      -- the list is written back or erased
      | ok delKey =>
        dsimp only
        unfold writeBackMokList
        dsimp only
        split_ifs
        · exact writeVariable_of_ne hne _ _ _
        · rfl
        · exact writeVariable_of_ne hne _ _ _
        · exact writeVariable_of_ne hne _ _ _

end Keys

section Toggles

variable {p : Toggle} {request : Region} {toggleVars : Variables ToggleVar} {fuel : ℕ}
  {r : EfiStatus × Variables ToggleVar}

/-- The end of a prompt touches its request and its state only. -/
theorem toggleState_of_ne (a : PromptAnswers) {other : ToggleVar} (hrequest : other ≠ p.request)
    (hstate : other ≠ p.state) : (toggleState p request a toggleVars).2 other = toggleVars other := by
  unfold toggleState
  split_ifs
  · exact delVariable_of_ne hrequest a.erase
  all_goals
    dsimp only
    split_ifs
    · exact writeVariable_of_ne hstate _ _ _
    · exact writeVariable_of_ne hstate _ _ _

/-- Setting a toggle touches no request. -/
theorem toggleState_request (a : PromptAnswers) {name : ToggleVar} (hstate : name ≠ p.state) :
    OnlyErased toggleVars (toggleState p request a toggleVars).2 name := by
  unfold toggleState
  split_ifs
  · exact onlyErased_delVariable _ _ _ _
  all_goals
    dsimp only
    split_ifs
    · exact .inl (writeVariable_of_ne hstate _ _ _)
    · exact .inl (writeVariable_of_ne hstate _ _ _)

/-- A toggle prompt leaves the variables alone, or comes to its end behind three characters of the
password. -/
theorem togglePrompt_cases (h : togglePrompt p request t.toggle toggleVars fuel = some r) :
    r.2 = toggleVars ∨
      CharactersGiven t request ∧ r = toggleState p request t.toggle toggleVars := by
  obtain ⟨⟨turns, r'⟩, hrun, rfl⟩ := Option.map_eq_some_iff.mp h
  obtain ⟨s, hreaches, hstop⟩ := Loop.exists_reaches_stop hrun
  have hchosen : 0 < pwLen request → s.phase.Chosen (pwLen request) := fun hlen =>
    @Loop.Reaches.invariant _ _ _ _ (fun s => s.phase.Chosen (pwLen request)) _ _ hreaches trivial
      fun s₁ s₂ _ hs hnext => chosen_next hlen hs hnext
  obtain ⟨phase, failCount, drawn, asked⟩ := s
  unfold promptTurn at hstop
  cases phase with
  | check =>
    dsimp only at hstop
    split_ifs at hstop
    obtain rfl := Sum.inr.inj hstop
    exact .inl rfl
  | first => cases hstop
  | second pos1 => cases hstop
  | third pos1 pos2 => cases hstop
  | compare pos1 pos2 pos3 =>
    dsimp only at hstop
    split_ifs at hstop with hpool hmatch
    · obtain rfl := Sum.inr.inj hstop
      exact .inl rfl
    · obtain rfl := Sum.inr.inj hstop
      exact .inl rfl
    · simp only [not_or, not_not] at hmatch
      exact .inr ⟨⟨asked, pos1, pos2, pos3, hchosen, hmatch⟩, (Sum.inr.inj hstop).symm⟩

end Toggles

/-! ## What an item of the menu can change -/

/-- No request is the state of a toggle. -/
theorem toggles_request_ne {p p' : Toggle} (hp : p ∈ toggles) (hp' : p' ∈ toggles) :
    p.request ≠ p'.state := by
  simp only [toggles, List.mem_cons, List.not_mem_nil, or_false] at hp hp'
  rcases hp with rfl | rfl | rfl <;> rcases hp' with rfl | rfl | rfl <;>
    simp [mokSbToggle, mokDbToggle, mokTmlToggle]

/-- Each toggle has its own state. -/
theorem toggles_state_inj {p p' : Toggle} (hp : p ∈ toggles) (hp' : p' ∈ toggles)
    (h : p.state = p'.state) : p = p' := by
  simp only [toggles, List.mem_cons, List.not_mem_nil, or_false] at hp hp'
  rcases hp with rfl | rfl | rfl <;> rcases hp' with rfl | rfl | rfl <;>
    simp_all [mokSbToggle, mokDbToggle, mokTmlToggle]

/-- A toggle prompt keeps to what its turn may change. -/
theorem guarded_togglePart {p : Toggle} (hp : p ∈ toggles) {request : Region}
    (hrequest : q.toggle p = some request)
    (h : togglePart p t vars request = some (efiStatus, vars')) :
    TurnGuarded c t q p.item vars vars' := by
  obtain ⟨r, hr, heq⟩ := Option.map_eq_some_iff.mp h
  obtain ⟨-, rfl⟩ := Prod.mk.inj heq
  have hstate : ∀ p' ∈ toggles, r.2 p'.state = vars.toggles p'.state ∨
      p.item = p'.item ∧ ∃ request, q.toggle p' = some request ∧ CharactersGiven t request := by
    intro p' hp'
    rcases togglePrompt_cases hr with hsame | ⟨hgiven, rfl⟩
    · exact .inl (congrFun hsame p'.state)
    · by_cases heq : p' = p
      · rw [heq]
        exact .inr ⟨rfl, request, hrequest, hgiven⟩
      · exact .inl (toggleState_of_ne _ (toggles_request_ne hp hp').symm
          fun hne => heq (toggles_state_inj hp' hp hne))
  refine ⟨.inl rfl, .inl rfl, hstate, .inl rfl, fun _ _ => .inl rfl, fun _ _ => .inl rfl,
    fun p' hp' => ?_⟩
  rcases togglePrompt_cases hr with hsame | ⟨-, rfl⟩
  · exact .inl (congrFun hsame p'.request)
  · exact toggleState_request _ (toggles_request_ne hp' hp)

/-! ### Keys -/

/-- What a prompt about the list `mokX` changes of the variables of the keys. -/
structure KeysGuarded (c : Crypto) (t : TurnAnswers) (q : MokRequests) (item : MokMenuItem)
    (mokX : Bool) (keys keys' : Variables MokManagerVar) : Prop where
  list : keys' (storeNames mokX).1 = keys (storeNames mokX).1 ∨ PasswordGiven c t keys q item mokX
  other : keys' (storeNames !mokX).1 = keys (storeNames !mokX).1
  auth : ∀ authName ∈ authNames, OnlyErased keys keys' authName

/-- The lists are no passwords. -/
theorem notMem_authNames (mokX : Bool) : (storeNames mokX).1 ∉ authNames := by
  cases mokX <;> decide

/-- The password for storing is one of the passwords. -/
theorem storeNames_mem (mokX : Bool) : (storeNames mokX).2 ∈ authNames := by
  cases mokX <;> decide

/-- So is the one for deleting. -/
theorem deleteNames_mem (mokX : Bool) : (deleteNames mokX).2 ∈ authNames := by
  cases mokX <;> decide

/-- Both write the same list. -/
theorem deleteNames_fst (mokX : Bool) : (deleteNames mokX).1 = (storeNames mokX).1 := by
  cases mokX <;> rfl

/-- MOK and MOKX are two lists. -/
theorem storeNames_not_ne (mokX : Bool) : (storeNames !mokX).1 ≠ (storeNames mokX).1 := by
  cases mokX <;> decide

/-- The request to enrol is not that for a password. -/
theorem newRequest_ne (mokX : Bool) : RequestVar.mokPWStore ≠ newRequest mokX := by
  cases mokX <;> decide

/-- Neither is the request to delete. -/
theorem delRequest_ne (mokX : Bool) : RequestVar.mokPWStore ≠ delRequest mokX := by
  cases mokX <;> decide

section KeysGuarded

variable {item : MokMenuItem} {mokX : Bool} {keys keys' : Variables MokManagerVar}

/-- Keys that are not touched are guarded. -/
theorem KeysGuarded.refl (c : Crypto) (t : TurnAnswers) (q : MokRequests) (item : MokMenuItem)
    (mokX : Bool) (keys : Variables MokManagerVar) : KeysGuarded c t q item mokX keys keys :=
  ⟨.inl rfl, rfl, fun _ _ => .inl rfl⟩

/-- Only the database has changed, for a password. -/
theorem KeysGuarded.ofFrame (hgiven : PasswordGiven c t keys q item mokX)
    (hframe : ∀ other, other ≠ (storeNames mokX).1 → keys' other = keys other) :
    KeysGuarded c t q item mokX keys keys' := by
  refine ⟨.inr hgiven, hframe _ (storeNames_not_ne mokX), fun authName hauth => .inl ?_⟩
  refine hframe authName fun heq => notMem_authNames mokX ?_
  rwa [← heq]

/-- The Auth variable is deleted on top. -/
theorem KeysGuarded.delAuth (h : KeysGuarded c t q item mokX keys keys') {authName : MokManagerVar}
    (hauth : authName ∈ authNames) (fault : Fault) :
    KeysGuarded c t q item mokX keys (delVariable keys' authName fault).2 := by
  have hne : ∀ mokX, (storeNames mokX).1 ≠ authName := fun mokX heq =>
    notMem_authNames mokX (heq ▸ hauth)
  refine ⟨?_, ?_, fun other hother => (h.auth other hother).trans (onlyErased_delVariable _ _ _ _)⟩
  · rw [delVariable_of_ne (hne mokX)]
    exact h.list
  · rw [delVariable_of_ne (hne !mokX)]
    exact h.other

/-- The database itself is deleted on top, for a password. -/
theorem KeysGuarded.delList (h : KeysGuarded c t q item mokX keys keys')
    (hgiven : PasswordGiven c t keys q item mokX) (fault : Fault) :
    KeysGuarded c t q item mokX keys (delVariable keys' (storeNames mokX).1 fault).2 := by
  refine ⟨.inr hgiven, ?_,
    fun other hother => (h.auth other hother).trans (onlyErased_delVariable _ _ _ _)⟩
  rw [delVariable_of_ne (storeNames_not_ne mokX)]
  exact h.other

/-- Of the requests, one is deleted at most. -/
theorem KeysGuarded.turn (h : KeysGuarded c t q item mokX vars.keys keys')
    {requests : Variables RequestVar}
    (hpw : requests .mokPWStore = vars.requests .mokPWStore)
    (hrequests : ∀ name, OnlyErased vars.requests requests name) :
    TurnGuarded c t q item vars { vars with keys := keys', requests } := by
  cases mokX with
  | false =>
    exact ⟨.inl h.other, h.list.imp_right .inl, fun _ _ => .inl rfl, .inl hpw, h.auth,
      fun name _ => hrequests name, fun _ _ => .inl rfl⟩
  | true =>
    exact ⟨h.list, .inl h.other, fun _ _ => .inl rfl, .inl hpw, h.auth,
      fun name _ => hrequests name, fun _ _ => .inl rfl⟩

end KeysGuarded

/-- The prompt for a request to enrol. -/
theorem guarded_mokEnrollmentPrompt (mokX : Bool) {mokNew : Region} (hq : q.new mokX = some mokNew)
    {item : MokMenuItem} (hitem : item ∈ storeItems mokX)
    (h : mokEnrollmentPrompt c t vars mokNew true mokX = some (efiStatus, vars')) :
    TurnGuarded c t q item vars vars' := by
  simp only [mokEnrollmentPrompt, if_true] at h
  split_ifs at h with hlist hyes
  · obtain ⟨-, rfl⟩ := Prod.mk.inj (Option.some.inj h)
    exact .refl c t q _ vars
  · obtain ⟨-, rfl⟩ := Prod.mk.inj (Option.some.inj h)
    exact .refl c t q _ vars
  obtain ⟨r, hr, heq⟩ := Option.map_eq_some_iff.mp h
  have hkeys : KeysGuarded c t q item mokX vars.keys r.2 := by
    rcases storeKeys_cases hr with hsame | ⟨hmatched, hframe, -⟩
    · rw [hsame]
      exact .refl c t q _ mokX vars.keys
    · refine .ofFrame (.inl ⟨hitem, ?_⟩) hframe
      rw [hq]
      exact hmatched rfl
  split_ifs at heq
  · obtain ⟨-, rfl⟩ := Prod.mk.inj heq
    exact hkeys.turn rfl fun _ => .inl rfl
  · obtain ⟨-, rfl⟩ := Prod.mk.inj heq
    exact (hkeys.delAuth (storeNames_mem mokX) _).turn (delVariable_of_ne (newRequest_ne mokX) _)
      fun _ => onlyErased_delVariable _ _ _ _

/-- The prompt to erase a list, which the menu offers for an Auth variable of one of the two formats
and without a request to enrol. -/
theorem guarded_mokResetPrompt (mokX : Bool) (hq : q.new mokX = none) {item : MokMenuItem}
    (hitem : item ∈ storeItems mokX)
    (hsized : AuthSized vars.keys (storeNames mokX).2 t.commit.auth)
    (h : mokResetPrompt c t vars mokX = some (efiStatus, vars')) :
    TurnGuarded c t q item vars vars' := by
  unfold mokResetPrompt at h
  split_ifs at h with hyes
  · obtain ⟨-, rfl⟩ := Prod.mk.inj (Option.some.inj h)
    exact .refl c t q _ vars
  obtain ⟨r, hr, heq⟩ := Option.map_eq_some_iff.mp h
  have hgiven : Matched c vars.keys (storeNames mokX).2 [] t.attempts →
      PasswordGiven c t vars.keys q item mokX := by
    intro hmatched
    left
    rw [hq]
    exact ⟨hitem, hmatched⟩
  have hkeys : KeysGuarded c t q item mokX vars.keys r.2 := by
    rcases storeKeys_cases hr with hsame | ⟨hmatched, hframe, -⟩
    · rw [hsame]
      exact .refl c t q _ mokX vars.keys
    · exact .ofFrame (hgiven (hmatched rfl)) hframe
  dsimp only at heq
  split_ifs at heq with herr
  · obtain ⟨-, rfl⟩ := Prod.mk.inj heq
    exact hkeys.turn rfl fun _ => .inl rfl
  · obtain ⟨-, rfl⟩ := Prod.mk.inj heq
    -- without an error the password was entered, so the list may go
    have hmatched := hgiven (storeKeys_matched hsized hr herr)
    exact ((hkeys.delAuth (storeNames_mem mokX) _).delList hmatched _).turn
      (delVariable_of_ne (newRequest_ne mokX) _) fun _ => onlyErased_delVariable _ _ _ _

/-- The prompt for a request to delete. -/
theorem guarded_mokDeletionPrompt (c : Crypto) (t : TurnAnswers) (vars : MenuVars) (mokX : Bool)
    {mokDel : Region} (hq : q.del mokX = some mokDel) :
    TurnGuarded c t q (deleteItem mokX) vars (mokDeletionPrompt c t vars mokDel mokX).2 := by
  unfold mokDeletionPrompt
  split_ifs with hlist hyes
  · exact .refl c t q _ vars
  · exact .refl c t q _ vars
  dsimp only
  have hkeys : KeysGuarded c t q (deleteItem mokX) mokX vars.keys
      (deleteKeys c t.commit vars.keys mokDel mokX t.attempts).2 := by
    rcases deleteKeys_cases c t.commit vars.keys mokDel mokX t.attempts with hsame | ⟨hmatched, hframe⟩
    · rw [hsame]
      exact .refl c t q _ mokX vars.keys
    · rw [deleteNames_fst] at hframe
      refine .ofFrame (.inr ⟨rfl, ?_⟩) hframe
      rw [hq]
      exact hmatched
  split_ifs
  · exact hkeys.turn rfl fun _ => .inl rfl
  · exact (hkeys.delAuth (deleteNames_mem mokX) _).turn (delVariable_of_ne (delRequest_ne mokX) _)
      fun _ => onlyErased_delVariable _ _ _ _

/-- The prompt for the password of MokManager itself. -/
theorem guarded_mokPwPrompt (c : Crypto) (t : TurnAnswers) (vars : MenuVars) {mokPW : List UInt8}
    (hq : q.mokPW = some mokPW) :
    TurnGuarded c t q .setPw vars (mokPwPrompt c t vars mokPW).2 := by
  have hturn : ∀ {requests : Variables RequestVar}, PasswordConfirmed c t mokPW →
      (∀ name, name ≠ .mokPWStore → OnlyErased vars.requests requests name) →
        TurnGuarded c t q .setPw vars { vars with requests } := fun hconfirmed hrequests =>
    ⟨.inl rfl, .inl rfl, fun _ _ => .inl rfl, .inr ⟨rfl, mokPW, hq, hconfirmed⟩,
      fun _ _ => .inl rfl, hrequests, fun _ _ => .inl rfl⟩
  unfold mokPwPrompt
  by_cases hsize : mokPW.length ≠ 32 ∧ mokPW.length ≠ 172
  · rw [if_pos hsize]
    exact .refl c t q _ vars
  rw [if_neg hsize]
  -- a request of zeros erases the password, and the user says yes
  by_cases hclear : mokPW = List.replicate mokPW.length 0
  · rw [if_pos hclear]
    split_ifs with hyes
    · exact .refl c t q _ vars
    · exact hturn (.inr ⟨hclear, by simpa using hyes⟩) fun name hne =>
        .trans (.inl (writeVariable_of_ne hne _ _ _)) (onlyErased_delVariable _ _ _ _)
  rw [if_neg hclear]
  dsimp only
  -- the loop over the attempts ended with one that matches
  have hconfirmed : ∀ {efiStatus : EfiStatus},
      efiStatus = (if mokPW.length = 172 then matchPassword c (some mokPW) [] none t.attempts
        else matchPassword c none [] (some mokPW) t.attempts) →
      efiStatus.isError ≠ true → PasswordConfirmed c t mokPW := by
    rintro _ rfl hok
    split_ifs at hok with hlen
    · obtain ⟨i, hi, ⟨pw, hpw, hacc⟩ | ⟨au, hau, -⟩⟩ := exists_of_matchPassword hok
      · obtain rfl := Option.some.inj hpw
        exact .inl ⟨i, hi, .inl ⟨hlen, hacc⟩⟩
      · cases hau
    · obtain ⟨i, hi, ⟨pw, hpw, -⟩ | ⟨au, hau, hacc⟩⟩ := exists_of_matchPassword hok
      · cases hpw
      · obtain rfl := Option.some.inj hau
        exact .inl ⟨i, hi, .inr ⟨by omega, hacc⟩⟩
  generalize hst : (if mokPW.length = 172 then matchPassword c (some mokPW) [] none t.attempts
    else matchPassword c none [] (some mokPW) t.attempts) = efiStatus
  split_ifs with herr hyes hset
  · exact .refl c t q _ vars
  · exact .refl c t q _ vars
  · exact hturn (hconfirmed hst.symm herr) fun name hne => .inl (writeVariable_of_ne hne _ _ _)
  · exact hturn (hconfirmed hst.symm herr) fun name hne =>
      .trans (.inl (writeVariable_of_ne hne _ _ _)) (onlyErased_delVariable _ _ _ _)

/-- `verify_certificate` accepts what is as long as two bytes say. -/
theorem length_of_verifyCertificate {construct : List UInt8 → Bool} {cert : List UInt8}
    (h : verifyCertificate construct cert = true) :
    4 ≤ cert.length ∧ cert.length < 2 ^ 16 + 4 := by
  unfold verifyCertificate at h
  dsimp only at h
  split_ifs at h with hshort hder hlen
  have h2 := ((Region.ofList 0 cert).byte 2).toNat_lt
  have h3 := ((Region.ofList 0 cert).byte 3).toNat_lt
  omega

/-- What an enrolment from disk comes to its prompt with is a list of one signature. -/
theorem exists_diskList {d : DiskAnswers} {hash : Bool} {mokbuffer : List UInt8}
    (h : fileRequest d hash = .inr mokbuffer) : ∃ l, DiskList l ∧ mokbuffer = l.encode := by
  unfold fileRequest at h
  cases hash with
  -- the digest of a file, or a certificate that passed the check
  | true =>
    simp only [if_true] at h
    cases hlocate : d.locate with
    | some e => simp [hlocate] at h
    | none =>
      simp only [hlocate] at h
      split_ifs at h
      cases hcontext : d.context with
      | some e => simp [hcontext] at h
      | none =>
        cases hhash : d.hash with
        | error e => simp [hcontext, hhash] at h
        | ok sha256 =>
          simp only [hcontext, hhash, Sum.inr.injEq] at h
          refine ⟨enrolledList sha256, .inl ⟨sha256, rfl⟩, ?_⟩
          rw [← h]
          simp [fileList, SignatureList.encode, SignatureList.header, SignatureList.listSize,
            SignatureData.encode, enrolledList, sha256.2]
  | false =>
    simp only [Bool.false_eq_true, if_false] at h
    split_ifs at h with halloc hverify
    obtain ⟨h4, h16⟩ := length_of_verifyCertificate (by simpa using hverify)
    have hne : d.data ≠ [] := List.ne_nil_of_length_pos (by omega)
    refine ⟨certList d.data hne (by omega), .inr ⟨_, hne, by omega, rfl, h4, h16⟩, ?_⟩
    have hsize : d.data.length + 44 = 28 + (d.data.length + 16) := by omega
    rw [← Sum.inr.inj h, fileList, hsize, Nat.add_comm 16]
    simp [SignatureList.encode, SignatureList.header, SignatureList.listSize,
      SignatureData.encode, certList]

/-- The enrolments from disk. -/
theorem guarded_mokDiskEnroll {hash : Bool} {item : MokMenuItem}
    (hitem : item = .keyEnroll ∨ item = .hashEnroll)
    (h : mokDiskEnroll c t vars hash = some (efiStatus, vars')) :
    TurnGuarded c t q item vars vars' := by
  -- where nothing was stored the keys are the same
  have hsame : ∀ {st : EfiStatus}, some (st, vars) = some (efiStatus, vars') →
      TurnGuarded c t q item vars vars' := by
    intro st heq
    obtain ⟨-, rfl⟩ := Prod.mk.inj (Option.some.inj heq)
    exact .refl c t q _ vars
  unfold mokDiskEnroll at h
  cases hname : t.disk.fileName with
  | none => exact hsame (by simpa only [hname] using h)
  | some fileName =>
    simp only [hname] at h
    by_cases hsuffix : (!hash && !checkDerSuffix fileName) = true
    · rw [if_pos hsuffix] at h
      exact hsame h
    rw [if_neg hsuffix] at h
    cases hopen : t.disk.openFile with
    | some e => exact hsame (by simpa only [hopen] using h)
    | none =>
      simp only [hopen] at h
      by_cases hempty : t.disk.data.length = 0
      · rw [if_pos hempty] at h
        exact hsame h
      rw [if_neg hempty] at h
      unfold enrollFile at h
      cases hreq : fileRequest t.disk hash with
      | inl st => exact hsame (by simpa only [hreq] using h)
      | inr mokbuffer =>
        obtain ⟨l, hl, rfl⟩ := exists_diskList hreq
        simp only [hreq, mokEnrollmentPrompt, Bool.false_eq_true, if_false] at h
        split_ifs at h with hlist hyes
        · exact hsame h
        · exact hsame h
        obtain ⟨r, hr, heq⟩ := Option.map_eq_some_iff.mp h
        have hbytes : (Region.ofList 0 l.encode).bytes 0 (Region.ofList 0 l.encode).size =
            l.encode := (Region.holdsAt_ofList_zero 0 l.encode).bytes rfl
        rw [hbytes] at hr
        have hvars : vars' = { vars with keys := r.2 } := by
          split_ifs at heq
          · exact (Prod.mk.inj heq).2.symm
          · exact (Prod.mk.inj heq).2.symm
        rw [hvars]
        -- no password is asked for: the user chose the file and said yes
        rcases storeKeys_cases hr with hkeys | ⟨-, hadds⟩
        · rw [hkeys]
          exact .refl c t q _ vars
        · refine ⟨.inl (hadds.1 _ (by decide)),
            .inr (.inr ⟨hitem, by simpa using hyes, l, hl, hadds⟩),
            fun _ _ => .inl rfl, .inl rfl, fun authName hauth => .inl (hadds.1 _ ?_),
            fun _ _ => .inl rfl, fun _ _ => .inl rfl⟩
          rintro rfl
          exact notMem_authNames false hauth

/-! ## One item -/

/-- A prompt that comes back clears its request if it succeeds. -/
theorem ItemOutcome.ofPrompt_eq_done {requests cleared : MokRequests}
    {r : Option (EfiStatus × MenuVars)}
    (h : ItemOutcome.ofPrompt requests cleared r = .done efiStatus vars' q') :
    r = some (efiStatus, vars') ∧ q' = if efiStatus.isError then requests else cleared := by
  unfold ItemOutcome.ofPrompt at h
  split at h
  · cases h
  · cases h
    exact ⟨rfl, rfl⟩

/-- An Auth variable that is present has one of the two formats. -/
theorem authSized_of_present {keys : Variables MokManagerVar} {fault : MokManagerVar → Fault}
    {authName : MokManagerVar} {authSize : ℕ}
    (h : (authProbe keys fault authName authSize).present = true) (fault' : Fault) :
    AuthSized keys authName fault' := by
  intro auth hread
  obtain ⟨v, hv, rfl⟩ := readAuth_eq_ok hread
  unfold authProbe at h
  cases hfault : fault authName with
  | some e => simp [hfault] at h
  | none =>
    simp only [hfault, hv] at h
    split_ifs at h
    simpa using h

/-- What is behind an item that the menu offers. -/
theorem of_mem_menuItems {p : AuthProbes} {item : MokMenuItem} (h : item ∈ menuItems q p) :
    (item = .resetMok → q.mokNew = none ∧ p.mokAuth.present = true) ∧
      (item = .resetMokX → q.mokXNew = none ∧ p.mokXAuth.present = true) := by
  unfold menuItems at h
  constructor
  · rintro rfl
    cases hnew : q.mokNew <;> cases hxnew : q.mokXNew <;> simp_all
  · rintro rfl
    cases hnew : q.mokNew <;> cases hxnew : q.mokXNew <;> simp_all

/-- The item of a turn keeps to what the turn may change. -/
theorem guarded_menuSwitch {fault : MokManagerVar → Fault} {authSize : ℕ} {item : MokMenuItem}
    (hitem : item ∈ menuItems q (authProbes vars.keys fault authSize))
    (h : menuSwitch c t vars q item = .done efiStatus vars' q') :
    TurnGuarded c t q item vars vars' := by
  have hoffer := of_mem_menuItems hitem
  cases item with
  | boot =>
    cases h
    exact .refl c t q _ vars
  -- an entry is offered only if its request is there, and its page asks for the password
  | resetMok =>
    obtain ⟨hnew, hpresent⟩ := hoffer.1 rfl
    exact guarded_mokResetPrompt false hnew (by simp [storeItems])
      (authSized_of_present hpresent _) (ItemOutcome.ofPrompt_eq_done h).1
  | resetMokX =>
    obtain ⟨hnew, hpresent⟩ := hoffer.2 rfl
    exact guarded_mokResetPrompt true hnew (by simp [storeItems])
      (authSized_of_present hpresent _) (ItemOutcome.ofPrompt_eq_done h).1
  | enrollMok =>
    cases hq : q.mokNew with
    | none => simp [menuSwitch, hq] at h
    | some mokNew =>
      simp only [menuSwitch, hq] at h
      exact guarded_mokEnrollmentPrompt false hq (by simp [storeItems])
        (ItemOutcome.ofPrompt_eq_done h).1
  | enrollMokX =>
    cases hq : q.mokXNew with
    | none => simp [menuSwitch, hq] at h
    | some mokXNew =>
      simp only [menuSwitch, hq] at h
      exact guarded_mokEnrollmentPrompt true hq (by simp [storeItems])
        (ItemOutcome.ofPrompt_eq_done h).1
  | deleteMok =>
    cases hq : q.mokDel with
    | none => simp [menuSwitch, hq] at h
    | some mokDel =>
      simp only [menuSwitch, hq] at h
      have heq := Option.some.inj (ItemOutcome.ofPrompt_eq_done h).1
      have := guarded_mokDeletionPrompt c t vars false hq
      rwa [heq] at this
  | deleteMokX =>
    cases hq : q.mokXDel with
    | none => simp [menuSwitch, hq] at h
    | some mokXDel =>
      simp only [menuSwitch, hq] at h
      have heq := Option.some.inj (ItemOutcome.ofPrompt_eq_done h).1
      have := guarded_mokDeletionPrompt c t vars true hq
      rwa [heq] at this
  | changeSb =>
    cases hq : q.mokSB with
    | none => simp [menuSwitch, hq] at h
    | some mokSB =>
      simp only [menuSwitch, hq] at h
      exact guarded_togglePart (p := mokSbToggle) (by simp [toggles]) hq
        (ItemOutcome.ofPrompt_eq_done h).1
  | changeDb =>
    cases hq : q.mokDB with
    | none => simp [menuSwitch, hq] at h
    | some mokDB =>
      simp only [menuSwitch, hq] at h
      exact guarded_togglePart (p := mokDbToggle) (by simp [toggles]) hq
        (ItemOutcome.ofPrompt_eq_done h).1
  | changeTml =>
    cases hq : q.mokTML with
    | none => simp [menuSwitch, hq] at h
    | some mokTML =>
      simp only [menuSwitch, hq] at h
      exact guarded_togglePart (p := mokTmlToggle) (by simp [toggles]) hq
        (ItemOutcome.ofPrompt_eq_done h).1
  | setPw =>
    cases hq : q.mokPW with
    | none => simp [menuSwitch, hq] at h
    | some mokPW =>
      simp only [menuSwitch, hq] at h
      have heq := Option.some.inj (ItemOutcome.ofPrompt_eq_done h).1
      have := guarded_mokPwPrompt c t vars hq
      rwa [heq] at this
  -- a disk needs no request: the user is at the machine
  | keyEnroll => exact guarded_mokDiskEnroll (.inl rfl) (ItemOutcome.ofPrompt_eq_done h).1
  | hashEnroll => exact guarded_mokDiskEnroll (.inr rfl) (ItemOutcome.ofPrompt_eq_done h).1

end Shim
