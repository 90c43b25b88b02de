import Shim.MokManager.MenuRuns

/-! # The buffer and the array of the menu

Each turn of the menu reads the Auth variables into a buffer of 172 bytes and fills an array of
`menucount` items. `auth_size` is not set again before a read, so that what a read was refused for
is let through later: the buffer holds what is read exactly if no Auth variable is longer than it.
The array is filled to its end, and of the items it offers only a deletion can lack its request.
-/

namespace Shim

open Loop (Next Reaches)

variable {c : Crypto} {answers : ℕ → TurnAnswers} {keys : Variables MokManagerVar} {s : MenuState}
  {q : MokRequests} {p : AuthProbes}

/-- The four calls of a turn write into the buffer only. -/
structure AuthProbes.Fit (p : AuthProbes) : Prop where
  mokAuth : p.mokAuth.written ≤ passwordCryptSize
  mokDelAuth : p.mokDelAuth.written ≤ passwordCryptSize
  mokXAuth : p.mokXAuth.written ≤ passwordCryptSize
  mokXDelAuth : p.mokXDelAuth.written ≤ passwordCryptSize

/-- `auth_size` never says more than the buffer holds. -/
structure AuthSafe (s : MenuState) : Prop where
  authSize : s.authSize ≤ passwordCryptSize
  length : ∀ authName ∈ authNames,
    (contents s.vars.keys authName).length ≤ passwordCryptSize

/-! ## The calls -/

/-- A call writes no more than it is told, and leaves a size that fits too. -/
theorem authProbe_le (fault : MokManagerVar → Fault) {authName : MokManagerVar} {authSize n : ℕ}
    (hlen : (contents keys authName).length ≤ n) (hsize : authSize ≤ n) :
    (authProbe keys fault authName authSize).authSize ≤ n ∧
      (authProbe keys fault authName authSize).written ≤ n := by
  unfold authProbe
  unfold contents at hlen
  split
  · exact ⟨hsize, Nat.zero_le n⟩
  · exact ⟨hsize, Nat.zero_le n⟩
  · next v _ hv =>
    simp only [hv] at hlen
    split_ifs
    · exact ⟨hlen, Nat.zero_le n⟩
    · exact ⟨hlen, hlen⟩

/-- Passwords that fit into the buffer are read into it. -/
theorem fit_authProbes (fault : MokManagerVar → Fault) {authSize : ℕ}
    (hlen : ∀ authName ∈ authNames, (contents keys authName).length ≤ passwordCryptSize)
    (hsize : authSize ≤ passwordCryptSize) :
    (authProbes keys fault authSize).Fit ∧
      (authProbes keys fault authSize).mokXDelAuth.authSize ≤ passwordCryptSize := by
  have hauth := authProbe_le fault (hlen .mokAuth (by simp [authNames])) hsize
  have hdel := authProbe_le fault (hlen .mokDelAuth (by simp [authNames])) hauth.1
  have hx := authProbe_le fault (hlen .mokXAuth (by simp [authNames])) hdel.1
  have hxdel := authProbe_le fault (hlen .mokXDelAuth (by simp [authNames])) hx.1
  exact ⟨⟨hauth.2, hdel.2, hx.2, hxdel.2⟩, hxdel.1⟩

/-! ## The loop -/

/-- No turn changes an Auth variable other than by deleting it. -/
theorem AuthSafe.turn {s' : MenuState} (h : AuthSafe s) (hnext : Next (menuTurn c answers) s s') :
    AuthSafe s' := by
  obtain ⟨item, efiStatus, vars, requests, hitem, hswitch, -, -, rfl⟩ := menuTurn_next hnext
  refine ⟨(fit_authProbes _ h.length h.authSize).2, fun authName hname => ?_⟩
  rcases (guarded_menuSwitch hitem hswitch).auth authName hname with hsame | herased
  · rw [contents_congr hsame]
    exact h.length authName hname
  · simp only [contents, herased]
    exact Nat.zero_le _

/-- All calls are refused but the one for `authName`. -/
def refuseOthers (authName n : MokManagerVar) : Fault :=
  if n = authName then none else some ⟨.notFound, EfiStatus.isError_notFound⟩

/-- The last entry but one is that for a key on a disk. -/
theorem getElem?_keyEnroll (q : MokRequests) (p : AuthProbes) :
    (menuItems q p)[(menuItems q p).length - 2]? = some .keyEnroll := by
  have hlast : ∀ {α : Type} (items : List α) (a b : α),
      (items ++ [a, b])[(items ++ [a, b]).length - 2]? = some a := by
    intro α items a b
    rw [List.length_append, List.getElem?_append_right (by simp)]
    simp
  exact hlast _ _ _

/-- A user who picks no file comes back to the menu, with the size the calls have left. -/
theorem next_cancelTurn (s : MenuState) (authRead : MokManagerVar → Fault)
    (hanswers : answers s.turn = cancelTurn authRead
      ((menuItems s.requests (authProbes s.vars.keys authRead s.authSize)).length - 2 : ℕ)) :
    Next (menuTurn c answers) s
      { s with
        authSize := (authProbes s.vars.keys authRead s.authSize).mokXDelAuth.authSize
        turn := s.turn + 1 } := by
  unfold Next menuTurn
  have hitem := getElem?_keyEnroll s.requests (authProbes s.vars.keys authRead s.authSize)
  have hchoice : ¬ (cancelTurn authRead ((menuItems s.requests
      (authProbes s.vars.keys authRead s.authSize)).length - 2 : ℕ)).choice < 0 :=
    Int.not_lt.mpr (Int.natCast_nonneg _)
  rw [hanswers]
  dsimp only
  rw [if_neg (by simp [cancelTurn]), if_neg hchoice]
  simp [cancelTurn, hitem, menuSwitch, mokKeyEnroll, mokDiskEnroll, noFile,
    ItemOutcome.ofPrompt, MenuState.after]

/-- Of a variable that is too long the first call tells the size. -/
theorem authSize_refuseOthers {authName : MokManagerVar} (hname : authName ∈ authNames)
    {authSize : ℕ} (hlong : authSize < (contents keys authName).length) :
    (authProbes keys (refuseOthers authName) authSize).mokXDelAuth.authSize =
      (contents keys authName).length := by
  unfold contents at hlong ⊢
  cases hv : keys authName with
  | none => simp [hv] at hlong
  | some v =>
    simp only [hv] at hlong ⊢
    simp only [authNames, List.mem_cons, List.not_mem_nil, or_false] at hname
    rcases hname with rfl | rfl | rfl | rfl <;>
      simp [authProbes, authProbe, refuseOthers, hv, hlong]

/-- The second call writes the variable then. -/
theorem not_fit_refuseOthers {authName : MokManagerVar} (hname : authName ∈ authNames)
    (hlong : passwordCryptSize < (contents keys authName).length) :
    ¬ (authProbes keys (refuseOthers authName) (contents keys authName).length).Fit := by
  intro hfit
  unfold contents at hlong hfit
  cases hv : keys authName with
  | none => simp [hv] at hlong
  | some v =>
    simp only [hv] at hlong hfit
    refine absurd hlong (Nat.not_lt.mpr ?_)
    simp only [authNames, List.mem_cons, List.not_mem_nil, or_false] at hname
    rcases hname with rfl | rfl | rfl | rfl
    · simpa [authProbes, authProbe, refuseOthers, hv] using hfit.mokAuth
    · simpa [authProbes, authProbe, refuseOthers, hv] using hfit.mokDelAuth
    · simpa [authProbes, authProbe, refuseOthers, hv] using hfit.mokXAuth
    · simpa [authProbes, authProbe, refuseOthers, hv] using hfit.mokXDelAuth

/-- However the menu is used, what it reads of the Auth variables fits the buffer exactly if none of
them was longer than the buffer when the menu was entered. -/
theorem auth_fits_iff (c : Crypto) (vars : MenuVars) (q : MokRequests) :
    (∀ answers s, Reaches (menuTurn c answers) (menuStart vars q) s →
        (menuTurn c answers s).1.probes.Fit) ↔
      ∀ authName ∈ authNames, (contents vars.keys authName).length ≤ passwordCryptSize := by
  constructor
  · intro h authName hname
    by_contra hlong
    have hlong := Nat.lt_of_not_le hlong
    let authRead := refuseOthers authName
    let p := authProbes vars.keys authRead passwordCryptSize
    let answers : ℕ → TurnAnswers := fun _ =>
      cancelTurn authRead ((menuItems q p).length - 2 : ℕ)
    have hnext := @next_cancelTurn c answers (menuStart vars q) authRead rfl
    have hfit := h answers _ (.single hnext)
    rw [probes_menuTurn] at hfit
    refine not_fit_refuseOthers hname hlong ?_
    rwa [← authSize_refuseOthers hname hlong]
  · intro h answers s hreaches
    have hsafe : AuthSafe s :=
      hreaches.invariant ⟨Nat.le_refl _, h⟩ fun _ _ _ hs hnext => hs.turn hnext
    rw [probes_menuTurn]
    exact (fit_authProbes _ hsafe.length hsafe.authSize).1

/-! ## The items -/

/-- `menucount` counts what is filled in. -/
theorem length_menuItems (q : MokRequests) (p : AuthProbes) :
    (menuItems q p).length = menuCount q p := by
  have hif : ∀ (b : Prop) [Decidable b] (item : MokMenuItem),
      (if b then [item] else []).length = if b then 1 else 0 := by
    intro b _ item
    split_ifs <;> rfl
  unfold menuItems menuCount
  simp only [List.length_append, hif, List.length_cons, List.length_nil]
  omega

/-- A prompt that is begun does not end with the internal error. -/
theorem ItemOutcome.ofPrompt_ne (q cleared : MokRequests) (r : Option (EfiStatus × MenuVars)) :
    ItemOutcome.ofPrompt q cleared r ≠ .internalError := by
  cases r with
  | none => exact fun h => by cases h
  | some r => exact fun h => by cases h

/-- What it takes for an item to be in the array. -/
def Offered (q : MokRequests) (p : AuthProbes) : MokMenuItem → Prop
  | .resetMok => q.mokNew = none ∧ p.mokAuth.present = true
  | .resetMokX => q.mokXNew = none ∧ p.mokXAuth.present = true
  | .deleteMok => q.mokDel ≠ none ∨ p.mokDelAuth.present = true
  | .deleteMokX => q.mokXDel ≠ none ∨ p.mokXDelAuth.present = true
  | .enrollMok => q.mokNew ≠ none
  | .enrollMokX => q.mokXNew ≠ none
  | .changeSb => q.mokSB ≠ none
  | .setPw => q.mokPW ≠ none
  | .changeDb => q.mokDB ≠ none
  | .changeTml => q.mokTML ≠ none
  | .boot | .keyEnroll | .hashEnroll => True

/-- The menu has what is offered. -/
theorem mem_menuItems_iff {item : MokMenuItem} : item ∈ menuItems q p ↔ Offered q p item := by
  unfold menuItems
  cases hnew : q.mokNew <;> cases hxnew : q.mokXNew <;> cases item <;>
    simp [Offered, hnew, hxnew, Option.isSome_iff_ne_none]

/-- The internal error is for a request that is not held. -/
theorem menuSwitch_internalError_iff (c : Crypto) (t : TurnAnswers) (vars : MenuVars)
    (q : MokRequests) (item : MokMenuItem) :
    menuSwitch c t vars q item = .internalError ↔
      item ∈ requestItems.map Prod.fst ∧ q.pending item = false := by
  have hnever : ∀ {cleared : MokRequests} {r : Option (EfiStatus × MenuVars)},
      ItemOutcome.ofPrompt q cleared r = .internalError ↔ False :=
    iff_false_intro (ItemOutcome.ofPrompt_ne q _ _)
  cases item with
  | boot | resetMok | resetMokX | keyEnroll | hashEnroll =>
    simp [menuSwitch, hnever, requestItems]
  | enrollMok | deleteMok | enrollMokX | deleteMokX | changeSb | setPw | changeDb | changeTml =>
    simp only [menuSwitch, requestItems, MokRequests.pending]
    split
    · next h => simp [h]
    · next h => simp [hnever, h]

/-- An entry is acted on if there is memory for the menu and the choice is one of its lines. -/
theorem item_menuTurn_ne_none (c : Crypto) (answers : ℕ → TurnAnswers) (s : MenuState) :
    (menuTurn c answers s).1.item ≠ none ↔
      (answers s.turn).allocStrings = true ∧ (answers s.turn).allocItems = true ∧
        0 ≤ (answers s.turn).choice ∧
        (answers s.turn).choice < (menuItems s.requests
          (authProbes s.vars.keys (answers s.turn).authRead s.authSize)).length := by
  unfold menuTurn
  dsimp only
  -- no memory for the menu, or no choice: no item
  by_cases halloc : (!(answers s.turn).allocStrings || !(answers s.turn).allocItems) = true
  · rw [if_pos halloc]
    refine iff_of_false (fun h => h rfl) ?_
    rintro ⟨h₁, h₂, -⟩
    simp [h₁, h₂] at halloc
  rw [if_neg halloc]
  by_cases hchoice : (answers s.turn).choice < 0
  · rw [if_pos hchoice]
    exact iff_of_false (fun h => h rfl) fun h => absurd hchoice (Int.not_lt.mpr h.2.2.1)
  rw [if_neg hchoice]
  simp only [Bool.or_eq_true, Bool.not_eq_true', not_or, Bool.not_eq_false] at halloc
  generalize menuItems s.requests
    (authProbes s.vars.keys (answers s.turn).authRead s.authSize) = items
  cases hget : items[(answers s.turn).choice.toNat]? with
  | none =>
    have hle := List.getElem?_eq_none_iff.mp hget
    exact iff_of_false (fun h => h rfl) fun h => by omega
  | some item =>
    have hlt := (List.getElem?_eq_some_iff.mp hget).1
    refine iff_of_true ?_ ⟨halloc.1, halloc.2, Int.not_lt.mp hchoice, by omega⟩
    cases item <;> exact Option.some_ne_none _

/-- A turn of the menu chooses an item exactly if its memory is there and the choice is within
`menucount`. Of the items to choose from, the prompt finds its request missing only for a deletion,
offered on account of its Auth variable. -/
theorem menu_choice (c : Crypto) (answers : ℕ → TurnAnswers) (s : MenuState) :
    let t := answers s.turn
    let p := authProbes s.vars.keys t.authRead s.authSize
    ((menuTurn c answers s).1.item ≠ none ↔
        t.allocStrings = true ∧ t.allocItems = true ∧ 0 ≤ t.choice ∧
          t.choice < menuCount s.requests p) ∧
      ∀ item ∈ menuItems s.requests p,
        (menuSwitch c t s.vars s.requests item = .internalError ↔
          item = .deleteMok ∧ s.requests.mokDel = none ∧ p.mokDelAuth.present = true ∨
            item = .deleteMokX ∧ s.requests.mokXDel = none ∧ p.mokXDelAuth.present = true) := by
  intro t p
  constructor
  · rw [← length_menuItems]
    exact item_menuTurn_ne_none c answers s
  · intro item hitem
    have hoffered := mem_menuItems_iff.mp hitem
    rw [menuSwitch_internalError_iff]
    cases item with
    | boot | resetMok | resetMokX | keyEnroll | hashEnroll => simp [requestItems]
    | enrollMok | enrollMokX | changeSb | setPw | changeDb | changeTml =>
      simpa [Offered, requestItems, MokRequests.pending] using hoffered
    | deleteMok | deleteMokX =>
      simpa [requestItems, MokRequests.pending] using
        fun hnone => hoffered.resolve_left (not_not.mpr hnone)

end Shim
