import Shim.MokManager.Exact
import Shim.MokManager.MenuSafety

/-! # Runs of the menu

A run of MokManager takes the requests out of the firmware and then a turn of the menu after the
other. What holds of a turn holds of a run: nothing that is protected changes before a password is
entered, and a request is carried out once at most. The Auth variables, which the menu reads
into a buffer whose size it sets only once, must fit that buffer.
-/

namespace Shim

open Loop (Next Reaches)

variable {c : Crypto} {t : TurnAnswers} {answers : ℕ → TurnAnswers} {vars vars' : MenuVars}
  {q q' : MokRequests} {s s' : MenuState} {efiStatus : EfiStatus}

/-- A turn that goes on has run the prompt of an item. -/
theorem menuTurn_next (h : Next (menuTurn c answers) s s') :
    ∃ item efiStatus vars requests,
      item ∈ menuItems s.requests (authProbes s.vars.keys (answers s.turn).authRead s.authSize) ∧
        menuSwitch c (answers s.turn) s.vars s.requests item = .done efiStatus vars requests ∧
        (menuTurn c answers s).1.item = some item ∧
        (menuTurn c answers s).1.status = some efiStatus ∧
        s' = { s with
          vars, requests
          authSize := (authProbes s.vars.keys (answers s.turn).authRead s.authSize).mokXDelAuth.authSize
          mokChanged := s.mokChanged || !efiStatus.isError
          turn := s.turn + 1 } := by
  unfold Next menuTurn at h
  unfold menuTurn
  dsimp only at h ⊢
  split_ifs at h ⊢ with halloc hchoice
  split at h
  · cases h
  · cases h
  · next item hboot hget =>
    have hmem := List.mem_of_getElem? hget
    cases hswitch : menuSwitch c (answers s.turn) s.vars s.requests item with
    | done efiStatus vars requests =>
      simp only [hswitch, Sum.inl.injEq] at h
      exact ⟨item, efiStatus, vars, requests, hmem, hswitch, rfl, rfl, h.symm⟩
    | internalError => simp [hswitch] at h
    | lost => simp [hswitch] at h

/-- A turn begins with the calls for the Auth variables. -/
theorem probes_menuTurn (c : Crypto) (answers : ℕ → TurnAnswers) (s : MenuState) :
    (menuTurn c answers s).1.probes =
      authProbes s.vars.keys (answers s.turn).authRead s.authSize := by
  unfold menuTurn
  dsimp only
  split_ifs
  · rfl
  · rfl
  · split <;> rfl

/-- No file is chosen. -/
def noFile : DiskAnswers :=
  ⟨none, none, [], none, true, none, .error ⟨.notFound, EfiStatus.isError_notFound⟩, fun _ => false⟩

/-- The user chooses an item, and no file. -/
def cancelTurn (authRead : MokManagerVar → Fault) (choice : ℤ) : TurnAnswers where
  authRead
  allocStrings := true
  allocItems := true
  choice
  allocKeys := true
  allocKeyStrings := true
  viewed := []
  yes := false
  commit := ⟨none, none, none, none, none, true, true, true, 0, fun _ => 0⟩
  attempts _ := []
  eraseRequest := none
  eraseAuth := none
  eraseList := none
  writePw := none
  toggle := ⟨fun _ => 0, fun _ => 0, fun _ => true, false, none, none⟩
  toggleTurns := 0
  disk := noFile

/-- All is well until the user cancels. -/
def allFound : CheckAnswers := ⟨fun _ => none, fun _ => none, fun _ => none, fun _ _ => 0⟩

def keyPressed : EntryAnswers := ⟨none, fun _ => [], none, none, none, fun _ => 5⟩

theorem length_pending_lt : ([0] : List UInt8).length < 2 ^ 31 := by decide

/-- A request to enrol, and no password for it. -/
def pendingVars : MenuVars where
  keys _ := none
  toggles _ := none
  requests name := if name = .mokNew then some ⟨[0], nvBs, length_pending_lt⟩ else none

/-- The user starts an enrolment from disk and cancels it, and leaves the menu. -/
def cancelAndLeave (turn : ℕ) : TurnAnswers := cancelTurn (fun _ => none) (if turn = 0 then 2 else -1)

/-! ## Runs -/

/-- The turn runs the prompt of a request, and the password of that request is entered. -/
def GivenAt (c : Crypto) (answers : ℕ → TurnAnswers) (s : MenuState) : Prop :=
  let t := answers s.turn
  ∃ item, (menuTurn c answers s).1.item = some item ∧
    ((∃ mokX, PasswordGiven c t s.vars.keys s.requests item mokX) ∨
      (∃ p ∈ toggles, item = p.item ∧
        ∃ request, s.requests.toggle p = some request ∧ CharactersGiven t request) ∨
      item = .setPw ∧ ∃ mokPW, s.requests.mokPW = some mokPW ∧ PasswordConfirmed c t mokPW)

/-- What is protected is as it was, and behind what `MokList` held, or in its place, there is what
has been enrolled from disk. -/
structure UntouchedSince (vars vars' : MenuVars) : Prop where
  mokListX : vars'.keys .mokListX = vars.keys .mokListX
  mokList : ∃ pre ls, (pre = [] ∨ pre = contents vars.keys .mokList) ∧ (∀ l ∈ ls, DiskList l) ∧
    contents vars'.keys .mokList = pre ++ encodeDb ls
  state : ∀ p ∈ toggles, vars'.toggles p.state = vars.toggles p.state
  mokPWStore : vars'.requests .mokPWStore = vars.requests .mokPWStore

theorem UntouchedSince.refl (vars : MenuVars) : UntouchedSince vars vars :=
  ⟨rfl, ⟨contents vars.keys .mokList, [], .inr rfl, fun _ h => absurd h List.not_mem_nil,
    (List.append_nil _).symm⟩, fun _ _ => rfl, rfl⟩

/-- Variables that are not touched twice are not touched. -/
theorem UntouchedSince.trans {vars₁ vars₂ vars₃ : MenuVars} (h₁ : UntouchedSince vars₁ vars₂)
    (h₂ : UntouchedSince vars₂ vars₃) : UntouchedSince vars₁ vars₃ := by
  refine ⟨h₂.mokListX.trans h₁.mokListX, ?_, fun p hp => (h₂.state p hp).trans (h₁.state p hp),
    h₂.mokPWStore.trans h₁.mokPWStore⟩
  obtain ⟨pre, ls, hpre, hls, hcontents⟩ := h₁.mokList
  obtain ⟨pre', ls', rfl | rfl, hls', hcontents'⟩ := h₂.mokList
  · exact ⟨[], ls', .inl rfl, hls', hcontents'⟩
  · refine ⟨pre, ls ++ ls', hpre, fun l hl => (List.mem_append.mp hl).elim (hls l) (hls' l), ?_⟩
    rw [hcontents', hcontents]
    simp [encodeDb]

/-- A turn without a password leaves what is protected untouched. -/
theorem UntouchedSince.turn {vars₀ : MenuVars} (h : UntouchedSince vars₀ s.vars)
    (hnext : Next (menuTurn c answers) s s') (hnone : ¬ GivenAt c answers s) :
    UntouchedSince vars₀ s'.vars := by
  obtain ⟨item, efiStatus, vars', requests, hitem, hswitch, hchosen, -, rfl⟩ := menuTurn_next hnext
  have hguard := guarded_menuSwitch hitem hswitch
  refine ⟨?_, ?_, fun p hp => ?_, ?_⟩
  · rw [← h.mokListX]
    exact hguard.mokListX.resolve_right fun hgiven => hnone ⟨item, hchosen, .inl ⟨true, hgiven⟩⟩
  · obtain ⟨pre, ls, hpre, hls, hcontents⟩ := h.mokList
    rcases hguard.mokList with hsame | hgiven | ⟨-, -, l, hl, -, hsame | ⟨pre', hpre', hadded⟩⟩
    · exact ⟨pre, ls, hpre, hls, (contents_congr hsame).trans hcontents⟩
    · exact absurd ⟨item, hchosen, .inl ⟨false, hgiven⟩⟩ hnone
    · exact ⟨pre, ls, hpre, hls, (contents_congr hsame).trans hcontents⟩
    · rcases hpre' with rfl | rfl
      -- what was there is dropped, as where an operating system can write it
      · exact ⟨[], [l], .inl rfl, by simpa using hl, by simpa [encodeDb] using hadded⟩
      · refine ⟨pre, ls ++ [l], hpre, ?_, ?_⟩
        · simpa [or_imp, forall_and] using ⟨hls, hl⟩
        · rw [hadded, hcontents]
          simp [encodeDb]
  · rw [← h.state p hp]
    refine (hguard.state p hp).resolve_right ?_
    rintro ⟨hp', hgiven⟩
    exact hnone ⟨item, hchosen, .inr (.inl ⟨p, hp, hp', hgiven⟩)⟩
  · rw [← h.mokPWStore]
    refine hguard.mokPWStore.resolve_right ?_
    rintro ⟨hpw, hconfirmed⟩
    exact hnone ⟨item, hchosen, .inr (.inr ⟨hpw, hconfirmed⟩)⟩

/-- Where the loop has come to, a password was entered on the way or nothing protected has been
touched. -/
theorem given_or_untouched (h : Reaches (menuTurn c answers) s s') :
    (∃ s₀ s₁, Reaches (menuTurn c answers) s s₀ ∧ Next (menuTurn c answers) s₀ s₁ ∧
        Reaches (menuTurn c answers) s₁ s' ∧ GivenAt c answers s₀) ∨
      UntouchedSince s.vars s'.vars := by
  induction h with
  | refl => exact .inr (.refl s.vars)
  | @tail s₂ s₃ hreaches hnext ih =>
    rcases ih with ⟨s₀, s₁, h₀, h₁, hrest, hgiven⟩ | huntouched
    · exact .inl ⟨s₀, s₁, h₀, h₁, hrest.tail hnext, hgiven⟩
    · by_cases hgiven : GivenAt c answers s₂
      · exact .inl ⟨s₂, s₃, hreaches, hnext, .refl, hgiven⟩
      · exact .inr (huntouched.turn hnext hgiven)

/-- The variables at the end of the menu, if it ends. -/
def MenuEnd.left : MenuEnd → Option MenuVars
  | .returned _ vars => some vars
  | .reset vars => some vars
  | .lost => none

/-- The menu leaves the variables as they are. -/
theorem left_menuOut (s : MenuState) (ret : EfiStatus) : (menuOut s ret).left = some s.vars := by
  unfold menuOut
  split_ifs <;> rfl

/-- The last turn changes no variable. -/
theorem left_of_menuTurn {r : MenuEnd} (h : (menuTurn c answers s).2 = .inr r) :
    r.left = none ∨ r.left = some s.vars := by
  unfold menuTurn at h
  dsimp only at h
  split_ifs at h
  · rw [← Sum.inr.inj h]
    exact .inr rfl
  · rw [← Sum.inr.inj h]
    exact .inr (left_menuOut s _)
  split at h
  · rw [← Sum.inr.inj h]
    exact .inl rfl
  · rw [← Sum.inr.inj h]
    exact .inr (left_menuOut s _)
  · split at h
    · cases h
    · rw [← Sum.inr.inj h]
      exact .inr (left_menuOut s _)
    · rw [← Sum.inr.inj h]
      exact .inl rfl

/-! ## From the requests to the end of the menu -/

section MokManager

variable {a : CheckAnswers} {entry : EntryAnswers}

/-- Taking a request erases it or leaves it. -/
theorem takeRequest_erases {Name : Type} [DecidableEq Name] (store : Variables Name) (name : Name)
    (size read erase : Fault) (other : Name) :
    OnlyErased store (takeRequest store name size read erase).2 other := by
  unfold takeRequest
  split
  · exact .inl rfl
  · exact onlyErased_delVariable _ _ _ _

/-- It touches no other variable. -/
theorem takeRequest_of_ne {Name : Type} [DecidableEq Name] (store : Variables Name)
    {name other : Name} (size read erase : Fault) (hne : other ≠ name) :
    (takeRequest store name size read erase).2 other = store other := by
  unfold takeRequest
  split
  · rfl
  · exact delVariable_of_ne hne _

/-- Taking a request touches nothing that is protected. -/
theorem UntouchedSince.takeKeyRequest {vars₀ : MenuVars} (h : UntouchedSince vars₀ vars)
    (a : CheckAnswers) {name : RequestVar} (hname : name ≠ .mokPWStore) :
    UntouchedSince vars₀ (takeKeyRequest a vars name).2 :=
  ⟨h.mokListX, h.mokList, h.state,
    (takeRequest_of_ne vars.requests _ _ _ hname.symm).trans h.mokPWStore⟩

/-- Taking the request for a toggle does not touch what is guarded. -/
theorem UntouchedSince.takeToggleRequest {vars₀ : MenuVars} (h : UntouchedSince vars₀ vars)
    (a : CheckAnswers) {p : Toggle} (hp : p ∈ toggles) :
    UntouchedSince vars₀ (takeToggleRequest a vars p.request).2 :=
  ⟨h.mokListX, h.mokList, fun p' hp' => (takeRequest_of_ne vars.toggles _ _ _
    (toggles_request_ne hp hp').symm).trans (h.state p' hp'), h.mokPWStore⟩

/-- Neither does taking all of them. -/
theorem untouched_checkMokRequest (a : CheckAnswers) (vars : MenuVars) :
    UntouchedSince vars (checkMokRequest a vars).2 := by
  have hnew := (UntouchedSince.refl vars).takeKeyRequest a (by decide : RequestVar.mokNew ≠ _)
  have hdel := hnew.takeKeyRequest a (by decide : RequestVar.mokDel ≠ _)
  have hsb := hdel.takeToggleRequest a (p := mokSbToggle) (by simp [toggles])
  have hpw := hsb.takeKeyRequest a (by decide : RequestVar.mokPW ≠ _)
  have hdb := hpw.takeToggleRequest a (p := mokDbToggle) (by simp [toggles])
  have html := hdb.takeToggleRequest a (p := mokTmlToggle) (by simp [toggles])
  have hxnew := html.takeKeyRequest a (by decide : RequestVar.mokXNew ≠ _)
  exact hxnew.takeKeyRequest a (by decide : RequestVar.mokXDel ≠ _)

/-- The countdown touches nothing but its own variable. -/
theorem drawCountdown_of_ne (store : Variables RequestVar) {name : RequestVar}
    (hname : name ≠ .mokTimeout) : (drawCountdown entry store).2 name = store name := by
  unfold drawCountdown
  split
  · rfl
  · exact delVariable_of_ne hname _

/-- So it touches nothing that is guarded. -/
theorem UntouchedSince.drawCountdown {vars₀ : MenuVars} (h : UntouchedSince vars₀ vars)
    (entry : EntryAnswers) : UntouchedSince vars₀
      { vars with requests := (Shim.drawCountdown entry vars.requests).2 } :=
  ⟨h.mokListX, h.mokList, h.state,
    (drawCountdown_of_ne vars.requests (by decide)).trans h.mokPWStore⟩

/-- Before its loop the menu changes no variable but `MokTimeout`. -/
theorem vars_enterMokMenu (c : Crypto) (entry : EntryAnswers) (vars : MenuVars)
    (q : MokRequests) :
    let v : MenuVars := { vars with requests := (drawCountdown entry vars.requests).2 }
    (∀ s, enterMokMenu c entry vars q = .inl s → s.vars = vars ∨ s.vars = v) ∧
      ∀ e, enterMokMenu c entry vars q = .inr e → e.left = some vars ∨ e.left = some v := by
  intro v
  unfold enterMokMenu
  -- the password failed, the menu was entered with it, or there is none
  cases verifyPw c entry vars.requests with
  | none =>
    refine ⟨fun s hs => ?_, fun e he => ?_⟩
    · cases hs
    · rw [← Sum.inr.inj he]
      exact .inl rfl
  | some isProtected =>
    cases isProtected with
    | true =>
      refine ⟨fun s hs => ?_, fun e he => ?_⟩
      · rw [← Sum.inl.inj hs]
        exact .inl rfl
      · cases he
    | false =>
      dsimp only
      by_cases hzero : (drawCountdown entry vars.requests).1 = 0
      · rw [if_pos hzero]
        refine ⟨fun s hs => ?_, fun e he => ?_⟩
        · cases hs
        · rw [← Sum.inr.inj he]
          exact .inr (left_menuOut (menuStart v q) _)
      · rw [if_neg hzero]
        refine ⟨fun s hs => ?_, fun e he => ?_⟩
        · rw [← Sum.inl.inj hs]
          exact .inr rfl
        · cases he

/-- A run of MokManager ends before the loop of the menu, or with the variables of a state that the
loop comes to. -/
theorem mokManager_cases {fuel : ℕ} {e : MenuEnd}
    (hrun : mokManager c a entry answers fuel vars = some e) (hleft : e.left = some vars') :
    let r := checkMokRequest a vars
    enterMokMenu c entry r.2 r.1 = .inr e ∨
      ∃ s₀ s, enterMokMenu c entry r.2 r.1 = .inl s₀ ∧ Reaches (menuTurn c answers) s₀ s ∧
        s.vars = vars' := by
  intro r
  unfold mokManager at hrun
  dsimp only at hrun
  cases henter : enterMokMenu c entry r.2 r.1 with
  | inr e' =>
    simp only [r] at henter
    simp only [henter, Option.some.injEq] at hrun
    exact .inl (by rw [hrun])
  | inl s₀ =>
    simp only [r] at henter
    simp only [henter] at hrun
    obtain ⟨⟨turns, e'⟩, hloop, rfl⟩ := Option.map_eq_some_iff.mp hrun
    obtain ⟨s, hreaches, hstop⟩ := Loop.exists_reaches_stop hloop
    refine .inr ⟨s₀, s, rfl, hreaches, ?_⟩
    rcases left_of_menuTurn hstop with hnone | hsome
    · cases hnone.symm.trans hleft
    · exact Option.some.inj (hsome.symm.trans hleft)

/-- A whole run of MokManager, whatever it is answered, leaves what is protected untouched unless in
one of its turns the password of a pending request is entered. -/
theorem mokManager_untouched {fuel : ℕ} {e : MenuEnd}
    (hrun : mokManager c a entry answers fuel vars = some e) (hleft : e.left = some vars') :
    (∃ s₀ s, enterMokMenu c entry (checkMokRequest a vars).2 (checkMokRequest a vars).1 = .inl s₀ ∧
        Reaches (menuTurn c answers) s₀ s ∧ GivenAt c answers s) ∨
      UntouchedSince vars vars' := by
  have hcheck := untouched_checkMokRequest a vars
  have hcountdown := hcheck.drawCountdown entry
  obtain ⟨hgo, hstop⟩ := vars_enterMokMenu c entry (checkMokRequest a vars).2
    (checkMokRequest a vars).1
  rcases mokManager_cases hrun hleft with henter | ⟨s₀, s, henter, hreaches, rfl⟩
  · refine .inr ?_
    rcases hstop e henter with h | h
    all_goals obtain rfl := Option.some.inj (h.symm.trans hleft)
    · exact hcheck
    · exact hcountdown
  · rcases given_or_untouched hreaches with ⟨s₁, -, h₁, -, -, hgiven⟩ | huntouched
    · exact .inl ⟨s₀, s₁, henter, h₁, hgiven⟩
    · refine .inr (UntouchedSince.trans ?_ huntouched)
      rcases hgo s₀ henter with h | h
      all_goals rw [h]
      · exact hcheck
      · exact hcountdown

/-- The user opens the menu and leaves it. -/
theorem exists_cancelRun : ∃ e vars',
    mokManager sampleCrypto allFound keyPressed cancelAndLeave 2 pendingVars = some e ∧
      e.left = some vars' := by
  have hsome : ((mokManager sampleCrypto allFound keyPressed cancelAndLeave 2 pendingVars).bind
      MenuEnd.left).isSome = true := rfl
  obtain ⟨vars', hvars⟩ := Option.isSome_iff_exists.mp hsome
  obtain ⟨e, hrun, hleft⟩ := Option.bind_eq_some_iff.mp hvars
  exact ⟨e, vars', hrun, hleft⟩

/-- In this run nothing is touched. -/
theorem mokManager_untouched_cancel : ∃ e vars',
    mokManager sampleCrypto allFound keyPressed cancelAndLeave 2 pendingVars = some e ∧
      e.left = some vars' ∧
      ((∃ s₀ s, enterMokMenu sampleCrypto keyPressed (checkMokRequest allFound pendingVars).2
          (checkMokRequest allFound pendingVars).1 = .inl s₀ ∧
        Reaches (menuTurn sampleCrypto cancelAndLeave) s₀ s ∧
        GivenAt sampleCrypto cancelAndLeave s) ∨ UntouchedSince pendingVars vars') := by
  obtain ⟨e, vars', hrun, hleft⟩ := exists_cancelRun
  exact ⟨e, vars', hrun, hleft, mokManager_untouched hrun hleft⟩

end MokManager

/-! ## Requests are carried out once -/

/-- The items with a request behind them, and the variable of the request. -/
def requestItems : List (MokMenuItem × (RequestVar ⊕ ToggleVar)) :=
  [(.enrollMok, .inl .mokNew), (.deleteMok, .inl .mokDel), (.changeSb, .inr .mokSB),
    (.setPw, .inl .mokPW), (.changeDb, .inr .mokDB), (.changeTml, .inr .mokListTrustedNew),
    (.enrollMokX, .inl .mokXNew), (.deleteMokX, .inl .mokXDel)]

/-- `enter_mok_menu` holds the request of the item. -/
def MokRequests.pending (q : MokRequests) : MokMenuItem → Bool
  | .enrollMok => q.mokNew.isSome
  | .deleteMok => q.mokDel.isSome
  | .changeSb => q.mokSB.isSome
  | .setPw => q.mokPW.isSome
  | .changeDb => q.mokDB.isSome
  | .changeTml => q.mokTML.isSome
  | .enrollMokX => q.mokXNew.isSome
  | .deleteMokX => q.mokXDel.isSome
  | _ => false

/-- The turn runs the prompt of the item, which returns no error. -/
def MenuTurn.succeeds (turn : MenuTurn) (item : MokMenuItem) : Bool :=
  turn.item = some item && turn.status.any fun efiStatus => !efiStatus.isError

/-- A prompt needs its request, and a success leaves it over. No request comes back. -/
theorem pending_menuSwitch {item : MokMenuItem}
    (h : menuSwitch c t vars q item = .done efiStatus vars' q') :
    (item ∈ requestItems.map Prod.fst → q.pending item = true) ∧
      (efiStatus.isError = false → q'.pending item = false) ∧
      ∀ other, q'.pending other = true → q.pending other = true := by
  have hover : ∀ {cleared : MokRequests} {r : Option (EfiStatus × MenuVars)},
      ItemOutcome.ofPrompt q cleared r = .done efiStatus vars' q' → cleared.pending item = false →
        (∀ other, cleared.pending other = true → q.pending other = true) →
        (efiStatus.isError = false → q'.pending item = false) ∧
          ∀ other, q'.pending other = true → q.pending other = true := by
    intro cleared r hdone hitem hothers
    obtain ⟨-, rfl⟩ := ItemOutcome.ofPrompt_eq_done hdone
    cases efiStatus.isError with
    | true => exact ⟨fun h => absurd h.symm Bool.false_ne_true, fun _ h => h⟩
    | false => exact ⟨fun _ => hitem, hothers⟩
  cases item with
  | boot =>
    cases h
    exact ⟨fun h => by simp [requestItems] at h, fun _ => rfl, fun _ h => h⟩
  | resetMok | resetMokX | keyEnroll | hashEnroll =>
    exact ⟨fun h => by simp [requestItems] at h, hover h rfl fun _ h => h⟩
  -- a request that is over leaves the others pending
  | enrollMok | deleteMok | enrollMokX | deleteMokX | changeSb | setPw | changeDb | changeTml =>
    simp only [menuSwitch] at h
    split at h
    · cases h
    · next hq =>
      refine ⟨fun _ => by simp [MokRequests.pending, hq], hover h rfl fun other => ?_⟩
      cases other <;> simp [MokRequests.pending]

/-- A turn whose prompt returns goes on. -/
theorem exists_next_of_status (h : (menuTurn c answers s).1.status = some efiStatus) :
    ∃ s', Next (menuTurn c answers) s s' := by
  unfold menuTurn at h
  unfold Next menuTurn
  dsimp only at h ⊢
  split_ifs at h ⊢
  split at h
  · cases h
  · cases h
  · cases hswitch : menuSwitch c (answers s.turn) s.vars s.requests _ with
    | done efiStatus vars requests =>
      exact ⟨_, rfl⟩
    | internalError => simp [hswitch, ItemOutcome.status] at h
    | lost => simp [hswitch, ItemOutcome.status] at h

/-- However often the user comes back to an item, its request is carried out once at most. -/
theorem menu_request_once {fuel : ℕ} {turns : List MenuTurn} {e : MenuEnd}
    (hrun : Loop.run (menuTurn c answers) fuel s = some (turns, e)) {item : MokMenuItem}
    (hitem : item ∈ requestItems.map Prod.fst) : turns.countP (·.succeeds item) ≤ 1 := by
  have hturn : ∀ {s s' : MenuState}, Next (menuTurn c answers) s s' →
      (((menuTurn c answers s).1.succeeds item) = true →
        s.requests.pending item = true ∧ s'.requests.pending item = false) ∧
          (s'.requests.pending item = true → s.requests.pending item = true) := by
    intro s s' hnext
    obtain ⟨chosen, efiStatus, vars, requests, -, hswitch, hchosen, hstatus, rfl⟩ :=
      menuTurn_next hnext
    obtain ⟨hneeds, hover, hback⟩ := pending_menuSwitch hswitch
    refine ⟨fun hsucceeds => ?_, hback item⟩
    simp only [MenuTurn.succeeds, hchosen, hstatus, Bool.and_eq_true, decide_eq_true_eq,
      Option.some.injEq, Option.any_some, Bool.not_eq_true'] at hsucceeds
    obtain ⟨rfl, hok⟩ := hsucceeds
    exact ⟨hneeds hitem, hover hok⟩
  have hsome : ∀ s, (menuTurn c answers s).1.succeeds item = true →
      ∃ s', Next (menuTurn c answers) s s' := by
    intro s hsucceeds
    cases hstatus : (menuTurn c answers s).1.status with
    | none => simp [MenuTurn.succeeds, hstatus] at hsucceeds
    | some efiStatus => exact exists_next_of_status hstatus
  refine Loop.countP_le_one (fun s => s.requests.pending item = true) (fun s h => ?_)
    (fun s s' hnext h => ?_) (fun s s' hnext h h' => h ((hturn hnext).2 h')) hrun
  · obtain ⟨s', hnext⟩ := hsome s h
    exact ((hturn hnext).1 h).1
  · rw [((hturn hnext).1 h).2]
    exact Bool.false_ne_true

/-- In this run nothing is enrolled. -/
theorem menu_request_once_cancel : ∃ turns e,
    Loop.run (menuTurn sampleCrypto cancelAndLeave) 2
        (menuStart pendingVars (checkMokRequest allFound pendingVars).1) = some (turns, e) ∧
      turns.countP (·.succeeds .enrollMok) ≤ 1 := by
  have hsome : (Loop.run (menuTurn sampleCrypto cancelAndLeave) 2
      (menuStart pendingVars (checkMokRequest allFound pendingVars).1)).isSome = true := rfl
  obtain ⟨⟨turns, e⟩, hrun⟩ := Option.isSome_iff_exists.mp hsome
  exact ⟨turns, e, hrun, menu_request_once hrun List.mem_cons_self⟩

/-! ## Requests are offered in one boot -/

section Consumed

variable {a : CheckAnswers} {entry : EntryAnswers}

/-- The variable of a request. -/
def MenuVars.request (vars : MenuVars) : RequestVar ⊕ ToggleVar → Option Variable
  | .inl name => vars.requests name
  | .inr name => vars.toggles name

/-- A variable that is deleted is gone. -/
theorem delVariable_eq_none {Name : Type} [DecidableEq Name] (store : Variables Name)
    (name : Name) : (delVariable store name none).2 name = none := by
  unfold delVariable setVariable
  simp only [List.length_nil, if_true]
  split_ifs with h
  · exact Function.update_self _ _ _
  · exact Option.not_isSome_iff_eq_none.mp h

/-- What a request is taken for is deleted with it. -/
theorem takeRequest_eq_none {Name : Type} [DecidableEq Name] {store : Variables Name} {name : Name}
    {size read : Fault} (h : (takeRequest store name size read none).1.isSome = true) :
    (takeRequest store name size read none).2 name = none := by
  unfold takeRequest at h ⊢
  split at h
  · cases h
  · exact delVariable_eq_none store name

/-- What is gone stays gone. -/
theorem OnlyErased.eq_none {Name : Type} {store store' : Variables Name} {name : Name}
    (h : OnlyErased store store' name) (hnone : store name = none) : store' name = none :=
  h.elim (·.trans hnone) id

/-- A variable that is gone stays away when other requests are taken. -/
theorem gone_takeKeyRequest (a : CheckAnswers) {name : RequestVar ⊕ ToggleVar}
    (h : vars.request name = none) (other : RequestVar) :
    (takeKeyRequest a vars other).2.request name = none := by
  cases name with
  | inl name => exact (takeRequest_erases vars.requests other _ _ _ name).eq_none h
  | inr name => exact h

/-- A request that is gone stays so while others are taken. -/
theorem gone_takeToggleRequest (a : CheckAnswers) {name : RequestVar ⊕ ToggleVar}
    (h : vars.request name = none) (other : ToggleVar) :
    (takeToggleRequest a vars other).2.request name = none := by
  cases name with
  | inl name => exact h
  | inr name => exact (takeRequest_erases vars.toggles other _ _ _ name).eq_none h

/-- A request for keys that is taken is gone, if it can be erased. -/
theorem taken_takeKeyRequest {name : RequestVar} (herase : a.erase (.inl name) = none)
    (h : (takeKeyRequest a vars name).1.isSome = true) :
    (takeKeyRequest a vars name).2.request (.inl name) = none := by
  unfold takeKeyRequest at h ⊢
  rw [herase] at h ⊢
  exact takeRequest_eq_none h

/-- So is the request for a toggle. -/
theorem taken_takeToggleRequest {name : ToggleVar} (herase : a.erase (.inr name) = none)
    (h : (takeToggleRequest a vars name).1.isSome = true) :
    (takeToggleRequest a vars name).2.request (.inr name) = none := by
  unfold takeToggleRequest at h ⊢
  rw [herase] at h ⊢
  exact takeRequest_eq_none h

/-- A request that `check_mok_request` finds is gone behind it. -/
theorem gone_checkMokRequest {item : MokMenuItem} {name : RequestVar ⊕ ToggleVar}
    (hname : (item, name) ∈ requestItems)
    (hpending : (checkMokRequest a vars).1.pending item = true) (herase : a.erase name = none) :
    (checkMokRequest a vars).2.request name = none := by
  simp only [requestItems, List.mem_cons, Prod.mk.injEq, List.not_mem_nil, or_false] at hname
  unfold checkMokRequest at hpending ⊢
  rcases hname with ⟨rfl, rfl⟩ | ⟨rfl, rfl⟩ | ⟨rfl, rfl⟩ | ⟨rfl, rfl⟩ | ⟨rfl, rfl⟩ | ⟨rfl, rfl⟩ |
    ⟨rfl, rfl⟩ | ⟨rfl, rfl⟩
  all_goals simp only [MokRequests.pending, Option.isSome_map] at hpending
  -- in the order of the items, and behind each the requests that are still to be taken
  · have h := taken_takeKeyRequest herase hpending
    have h := gone_takeToggleRequest a (gone_takeKeyRequest a h .mokDel) .mokSB
    have h := gone_takeToggleRequest a (gone_takeKeyRequest a h .mokPW) .mokDB
    have h := gone_takeToggleRequest a h .mokListTrustedNew
    exact gone_takeKeyRequest a (gone_takeKeyRequest a h .mokXNew) .mokXDel
  · have h := gone_takeToggleRequest a (taken_takeKeyRequest herase hpending) .mokSB
    have h := gone_takeToggleRequest a (gone_takeKeyRequest a h .mokPW) .mokDB
    have h := gone_takeToggleRequest a h .mokListTrustedNew
    exact gone_takeKeyRequest a (gone_takeKeyRequest a h .mokXNew) .mokXDel
  · have h := taken_takeToggleRequest herase hpending
    have h := gone_takeToggleRequest a (gone_takeKeyRequest a h .mokPW) .mokDB
    have h := gone_takeToggleRequest a h .mokListTrustedNew
    exact gone_takeKeyRequest a (gone_takeKeyRequest a h .mokXNew) .mokXDel
  · have h := gone_takeToggleRequest a (taken_takeKeyRequest herase hpending) .mokDB
    have h := gone_takeToggleRequest a h .mokListTrustedNew
    exact gone_takeKeyRequest a (gone_takeKeyRequest a h .mokXNew) .mokXDel
  · have h := gone_takeToggleRequest a (taken_takeToggleRequest herase hpending) .mokListTrustedNew
    exact gone_takeKeyRequest a (gone_takeKeyRequest a h .mokXNew) .mokXDel
  · have h := taken_takeToggleRequest herase hpending
    exact gone_takeKeyRequest a (gone_takeKeyRequest a h .mokXNew) .mokXDel
  · exact gone_takeKeyRequest a (taken_takeKeyRequest herase hpending) .mokXDel
  · exact taken_takeKeyRequest herase hpending

/-- A turn deletes requests, and writes none. -/
theorem gone_turn {name : RequestVar ⊕ ToggleVar} (hname : name ∈ requestItems.map Prod.snd)
    (h : s.vars.request name = none) (hnext : Next (menuTurn c answers) s s') :
    s'.vars.request name = none := by
  obtain ⟨item, efiStatus, vars, requests, hitem, hswitch, -, -, rfl⟩ := menuTurn_next hnext
  have hguard := guarded_menuSwitch hitem hswitch
  simp only [requestItems, List.map_cons, List.map_nil, List.mem_cons, List.not_mem_nil,
    or_false] at hname
  rcases hname with rfl | rfl | rfl | rfl | rfl | rfl | rfl | rfl
  · exact (hguard.request .mokNew (by simp)).eq_none h
  · exact (hguard.request .mokDel (by simp)).eq_none h
  · exact (hguard.toggleRequest mokSbToggle (by simp [toggles])).eq_none h
  · exact (hguard.request .mokPW (by simp)).eq_none h
  · exact (hguard.toggleRequest mokDbToggle (by simp [toggles])).eq_none h
  · exact (hguard.toggleRequest mokTmlToggle (by simp [toggles])).eq_none h
  · exact (hguard.request .mokXNew (by simp)).eq_none h
  · exact (hguard.request .mokXDel (by simp)).eq_none h

/-- A request that is found is offered in this boot only: whatever becomes of its prompt, the variable
is gone at the end of the run, if the firmware deletes it when it is asked to. -/
theorem request_consumed {fuel : ℕ} {e : MenuEnd}
    (hrun : mokManager c a entry answers fuel vars = some e) (hleft : e.left = some vars')
    {item : MokMenuItem} {name : RequestVar ⊕ ToggleVar} (hname : (item, name) ∈ requestItems)
    (hpending : (checkMokRequest a vars).1.pending item = true) (herase : a.erase name = none) :
    vars'.request name = none := by
  have hname' : name ∈ requestItems.map Prod.snd := List.mem_map_of_mem hname
  have hcheck := gone_checkMokRequest hname hpending herase
  -- the countdown deletes its own variable only
  have hcountdown : ∀ {v : MenuVars}, v.request name = none →
      MenuVars.request { v with requests := (drawCountdown entry v.requests).2 } name = none := by
    intro v hv
    cases name with
    | inl name =>
      refine (drawCountdown_of_ne v.requests ?_).trans hv
      rintro rfl
      simp [requestItems] at hname
    | inr name => exact hv
  obtain ⟨hgo, hstop⟩ := vars_enterMokMenu c entry (checkMokRequest a vars).2
    (checkMokRequest a vars).1
  rcases mokManager_cases hrun hleft with henter | ⟨s₀, s, henter, hreaches, rfl⟩
  · rcases hstop e henter with h | h
    all_goals obtain rfl := Option.some.inj (h.symm.trans hleft)
    · exact hcheck
    · exact hcountdown hcheck
  -- gone at the check, and no turn brings a request back
  · have hs₀ : s₀.vars.request name = none := by
      rcases hgo s₀ henter with h | h
      all_goals rw [h]
      · exact hcheck
      · exact hcountdown hcheck
    exact @Loop.Reaches.invariant _ _ _ _ (fun s => s.vars.request name = none) _ _ hreaches hs₀
      fun _ _ _ h hnext => gone_turn hname' h hnext

/-- In this run the request is gone. -/
theorem request_consumed_cancel : ∃ e vars',
    mokManager sampleCrypto allFound keyPressed cancelAndLeave 2 pendingVars = some e ∧
      e.left = some vars' ∧ vars'.request (.inl .mokNew) = none := by
  obtain ⟨e, vars', hrun, hleft⟩ := exists_cancelRun
  have hname : (MokMenuItem.enrollMok, Sum.inl RequestVar.mokNew) ∈ requestItems :=
    List.mem_cons_self
  exact ⟨e, vars', hrun, hleft, request_consumed hrun hleft hname rfl rfl⟩

end Consumed

end Shim
