import Shim.Common.Loop
import Shim.Common.Region
import Shim.MokManager.Commit

/-! # The toggle prompts

`mok_sb_prompt`, `mok_db_prompt` and `mok_tml_prompt` (MokManager.c) ask for three characters of the
password in a request variable before they change a state variable. The places of the characters
are remainders of random bytes by the `PWLen` of the request, and are drawn again until they differ.
A prompt is a loop that keeps a record of its draws and of the places it compares.
-/

namespace Shim

/-- The variables of the toggle prompts. -/
inductive ToggleVar
  | mokSB
  | mokSBState
  | mokDB
  | mokDBState
  | mokListTrustedNew
  | mokListTrusted
  deriving DecidableEq, Repr

/-- What the three prompts differ in: the request, the state, and the data that the state is set to
where the request says 0 and where it does not. -/
structure Toggle where
  request : ToggleVar
  state : ToggleVar
  whenZero : List UInt8
  otherwise : List UInt8

/-- The toggle of `mok_sb_prompt`. -/
def mokSbToggle : Toggle := ⟨.mokSB, .mokSBState, [1], []⟩

/-- The toggle of `mok_db_prompt`. -/
def mokDbToggle : Toggle := ⟨.mokDB, .mokDBState, [1], []⟩

/-- The toggle of `mok_tml_prompt`, where 0 deletes the state. -/
def mokTmlToggle : Toggle := ⟨.mokListTrustedNew, .mokListTrusted, [], [1]⟩

/-- `SB_PASSWORD_LEN`. -/
def sbPasswordLen : ℕ := 16

/-- `sizeof(MokSBvar)`, and of the two structures like it. -/
def toggleSize : ℕ := 8 + 2 * sbPasswordLen

/-- `PWLen`. -/
def pwLen (r : Region) : ℕ := r.u32 4

/-- `Password[pos]`. -/
def togglePassword (r : Region) (pos : ℕ) : ℕ := r.u16 (8 + 2 * pos)

/-- What a run is answered: the bytes of `RandomBytes`, the characters entered, whether `PoolPrint`
succeeds, what `console_yes_no` says, and the calls that are refused. -/
structure PromptAnswers where
  random : ℕ → UInt8
  entered : ℕ → UInt16
  poolPrint : ℕ → Bool
  yes : Bool
  erase : Fault
  write : Fault

/-- Where a prompt is. -/
inductive PromptPhase
  | check
  | first
  | second (pos1 : ℕ)
  | third (pos1 pos2 : ℕ)
  | compare (pos1 pos2 pos3 : ℕ)
  deriving DecidableEq

/-- Where a prompt is, with what it has used up so far. -/
structure PromptState where
  phase : PromptPhase
  failCount : ℕ
  drawn : ℕ
  asked : ℕ

/-- What a turn does: it draws a place other than those `taken`, or compares three places. -/
inductive PromptAct
  | check
  | draw (taken : List ℕ)
  | compare (pos1 pos2 pos3 : ℕ)

/-- The end of a prompt. -/
def toggleState (p : Toggle) (r : Region) (a : PromptAnswers) (vars : Variables ToggleVar) :
    EfiStatus × Variables ToggleVar :=
  if !a.yes then (.aborted, (delVariable vars p.request a.erase).2)
  else
    let data := if r.u32 0 = 0 then p.whenZero else p.otherwise
    let set := writeVariable vars p.state data nvBs a.write
    if set.1.isError then set else (.success, set.2)

/-- A turn of a prompt. -/
def promptTurn (p : Toggle) (r : Region) (a : PromptAnswers) (vars : Variables ToggleVar)
    (s : PromptState) : PromptAct × (PromptState ⊕ (EfiStatus × Variables ToggleVar)) :=
  let pos := (a.random s.drawn).toNat % pwLen r
  match s.phase with
  | .check =>
    (.check,
      if r.size ≠ toggleSize then .inr (.invalidParameter, vars)
      else .inl { s with phase := .first })
  | .first => (.draw [], .inl { s with phase := .second pos, drawn := s.drawn + 1 })
  | .second pos1 =>
    (.draw [pos1],
      .inl { s with
        phase := if pos = pos1 then .second pos1 else .third pos1 pos
        drawn := s.drawn + 1 })
  | .third pos1 pos2 =>
    (.draw [pos2, pos1],
      .inl { s with
        phase := if pos = pos2 ∨ pos = pos1 then .third pos1 pos2 else .compare pos1 pos2 pos
        drawn := s.drawn + 1 })
  | .compare pos1 pos2 pos3 =>
    (.compare pos1 pos2 pos3,
      if !(a.poolPrint s.asked && a.poolPrint (s.asked + 1) && a.poolPrint (s.asked + 2)) then
        .inr (.outOfResources, vars)
      else if (a.entered s.asked).toNat ≠ togglePassword r pos1 ∨
          (a.entered (s.asked + 1)).toNat ≠ togglePassword r pos2 ∨
          (a.entered (s.asked + 2)).toNat ≠ togglePassword r pos3 then
        if s.failCount + 1 < 3 then
          .inl { s with phase := .first, failCount := s.failCount + 1, asked := s.asked + 3 }
        else .inr (.accessDenied, vars)
      else .inr (toggleState p r a vars))

/-- Where a prompt starts. -/
def promptStart : PromptState := ⟨.check, 0, 0, 0⟩

/-- A prompt; `none` where `fuel` turns are not enough. -/
def togglePrompt (p : Toggle) (r : Region) (a : PromptAnswers) (vars : Variables ToggleVar)
    (fuel : ℕ) : Option (EfiStatus × Variables ToggleVar) :=
  (Loop.run (promptTurn p r a vars) fuel promptStart).map Prod.snd

/-- `mok_sb_prompt`. -/
def mokSbPrompt := togglePrompt mokSbToggle

/-- `mok_db_prompt`. -/
def mokDbPrompt := togglePrompt mokDbToggle

/-- `mok_tml_prompt`. -/
def mokTmlPrompt := togglePrompt mokTmlToggle

/-! ## Safe prompts -/

/-- No remainder by zero, no draw without a place to find, and three places of the password. -/
def PromptAct.Safe (len : ℕ) : PromptAct → Prop
  | .check => True
  | .draw taken => len ≠ 0 ∧ ∃ b : UInt8, b.toNat % len ∉ taken
  | .compare pos1 pos2 pos3 =>
    (pos1 ≠ pos2 ∧ pos1 ≠ pos3 ∧ pos2 ≠ pos3) ∧
      ∀ pos ∈ [pos1, pos2, pos3], pos < sbPasswordLen ∧ pos < len

/-- Every turn of every run of the three prompts on the request `r` is safe. -/
def PromptsSafe (r : Region) : Prop :=
  ∀ p ∈ [mokSbToggle, mokDbToggle, mokTmlToggle], ∀ a vars s,
    Loop.Reaches (promptTurn p r a vars) promptStart s → (promptTurn p r a vars s).1.Safe (pwLen r)

section Prompts

variable {p : Toggle} {r : Region} {a : PromptAnswers} {vars : Variables ToggleVar}
  {s s' : PromptState} {len : ℕ}

/-- The places chosen so far are different places of the password. -/
def PromptPhase.Chosen (len : ℕ) : PromptPhase → Prop
  | .check => True
  | .first => True
  | .second pos1 => pos1 < len
  | .third pos1 pos2 => pos1 < len ∧ pos2 < len ∧ pos1 ≠ pos2
  | .compare pos1 pos2 pos3 =>
    (pos1 < len ∧ pos2 < len ∧ pos3 < len) ∧ pos1 ≠ pos2 ∧ pos1 ≠ pos3 ∧ pos2 ≠ pos3

/-- A turn that goes on keeps the choices in the password. -/
theorem chosen_next (hlen : 0 < pwLen r) (h : s.phase.Chosen (pwLen r))
    (hnext : Loop.Next (promptTurn p r a vars) s s') : s'.phase.Chosen (pwLen r) := by
  obtain ⟨phase, failCount, drawn, asked⟩ := s
  have hpos : (a.random drawn).toNat % pwLen r < pwLen r := Nat.mod_lt _ hlen
  unfold Loop.Next promptTurn at hnext
  -- a drawn position is in the password, and another one is asked for until it is new
  cases phase with
  | check =>
    dsimp only at hnext
    split_ifs at hnext
    cases hnext
    trivial
  | first =>
    cases hnext
    exact hpos
  | second pos1 =>
    cases hnext
    dsimp only
    split_ifs with heq
    · exact h
    · exact ⟨h, hpos, fun h' => heq h'.symm⟩
  | third pos1 pos2 =>
    cases hnext
    dsimp only
    obtain ⟨h1, h2, hne⟩ := h
    split_ifs with heq
    · exact ⟨h1, h2, hne⟩
    · rw [not_or] at heq
      exact ⟨⟨h1, h2, hpos⟩, hne, fun h' => heq.2 h'.symm, fun h' => heq.1 h'.symm⟩
  | compare pos1 pos2 pos3 =>
    dsimp only at hnext
    split_ifs at hnext
    cases hnext
    trivial

/-- Three places leave one when two are taken. -/
theorem exists_place (hlen : 3 ≤ len) (pos1 pos2 : ℕ) :
    ∃ b : UInt8, b.toNat % len ≠ pos2 ∧ b.toNat % len ≠ pos1 := by
  have hsmall : ∀ b : UInt8, b.toNat < 3 → b.toNat % len = b.toNat :=
    fun b hb => Nat.mod_eq_of_lt (by omega)
  have h0 := hsmall 0 (by decide)
  have h1 := hsmall 1 (by decide)
  have h2 := hsmall 2 (by decide)
  by_cases hfree0 : 0 ≠ pos2 ∧ 0 ≠ pos1
  · exact ⟨0, by rw [h0]; exact hfree0⟩
  · by_cases hfree1 : 1 ≠ pos2 ∧ 1 ≠ pos1
    · exact ⟨1, by rw [h1]; exact hfree1⟩
    · refine ⟨2, ?_⟩
      rw [h2]
      change 2 ≠ pos2 ∧ 2 ≠ pos1
      omega

/-- A turn whose choices are in the password is safe. -/
theorem safe_of_chosen (hlen : 3 ≤ pwLen r) (hle : pwLen r ≤ sbPasswordLen)
    (h : s.phase.Chosen (pwLen r)) : (promptTurn p r a vars s).1.Safe (pwLen r) := by
  obtain ⟨phase, failCount, drawn, asked⟩ := s
  have hne : pwLen r ≠ 0 := by omega
  cases phase with
  | check => trivial
  | first => exact ⟨hne, 0, List.not_mem_nil⟩
  | second pos1 =>
    obtain ⟨b, hb, -⟩ := exists_place hlen pos1 pos1
    exact ⟨hne, b, by simpa using hb⟩
  | third pos1 pos2 =>
    obtain ⟨b, hb⟩ := exists_place hlen pos1 pos2
    exact ⟨hne, b, by simpa using hb⟩
  | compare pos1 pos2 pos3 =>
    obtain ⟨⟨h1, h2, h3⟩, hdiff⟩ := h
    refine ⟨hdiff, ?_⟩
    simp only [List.forall_mem_cons]
    exact ⟨⟨by omega, h1⟩, ⟨by omega, h2⟩, ⟨by omega, h3⟩, fun _ h => nomatch h⟩

/-- Answers that start with some random bytes. -/
def answersOf (bytes : List UInt8) : PromptAnswers :=
  ⟨fun i => bytes.getD i 0, fun _ => 0, fun _ => true, false, none, none⟩

/-- A request of the right size comes to the first question. -/
theorem reaches_first (hsize : r.size = toggleSize) :
    Loop.Reaches (promptTurn p r a vars) promptStart ⟨.first, 0, 0, 0⟩ := by
  refine .single ?_
  unfold Loop.Next promptTurn
  rw [promptStart]
  dsimp only
  rw [if_neg (not_not.mpr hsize)]

/-- Behind it comes the second one. -/
theorem reaches_second (hsize : r.size = toggleSize) :
    Loop.Reaches (promptTurn p r a vars) promptStart
      ⟨.second ((a.random 0).toNat % pwLen r), 0, 1, 0⟩ :=
  (reaches_first hsize).tail rfl

/-- And behind two different choices the third one. -/
theorem reaches_third (hsize : r.size = toggleSize)
    (hne : (a.random 1).toNat % pwLen r ≠ (a.random 0).toNat % pwLen r) :
    Loop.Reaches (promptTurn p r a vars) promptStart
      ⟨.third ((a.random 0).toNat % pwLen r) ((a.random 1).toNat % pwLen r), 0, 2, 0⟩ := by
  refine (reaches_second hsize).tail ?_
  unfold Loop.Next promptTurn
  dsimp only
  rw [if_neg hne]

/-- The prompts are safe exactly for requests whose password has a place for each of the three
characters and fits the array. -/
theorem promptsSafe_iff (r : Region) (hsize : r.size = toggleSize) :
    PromptsSafe r ↔ 3 ≤ pwLen r ∧ pwLen r ≤ sbPasswordLen := by
  constructor
  · intro h
    have hsb := fun a s hs => h mokSbToggle List.mem_cons_self a (fun _ => none) s hs
    have hne : pwLen r ≠ 0 := (hsb (answersOf []) _ (reaches_first hsize)).1
    have hone : pwLen r ≠ 1 := by
      intro hone
      obtain ⟨-, b, hb⟩ := hsb (answersOf []) _ (reaches_second hsize)
      rw [hone, Nat.mod_one, Nat.mod_one] at hb
      exact hb List.mem_cons_self
    have htwo : pwLen r ≠ 2 := by
      intro htwo
      obtain ⟨-, b, hb⟩ := hsb (answersOf [0, 1]) _
        (reaches_third hsize (by rw [htwo]; decide))
      rw [htwo] at hb
      have hlt : b.toNat % 2 < 2 := Nat.mod_lt _ (by decide)
      rcases Nat.mod_two_eq_zero_or_one b.toNat with h0 | h1
      · rw [h0] at hb
        exact hb (by decide)
      · rw [h1] at hb
        exact hb (by decide)
    refine ⟨by omega, ?_⟩
    by_contra hbig
    have hmod : ∀ n ≤ sbPasswordLen, n % pwLen r = n := fun n hn => Nat.mod_eq_of_lt (by omega)
    -- the bytes 16, 0 and 1 choose the place behind the array
    have hthird : Loop.Reaches (promptTurn mokSbToggle r (answersOf [16, 0, 1]) fun _ => none)
        promptStart ⟨.third (16 % pwLen r) (0 % pwLen r), 0, 2, 0⟩ := by
      refine reaches_third hsize ?_
      change 0 % pwLen r ≠ 16 % pwLen r
      rw [hmod 0 (by decide), hmod 16 (by decide)]
      decide
    rw [hmod 16 (by decide), hmod 0 (by decide)] at hthird
    have hcompare : Loop.Reaches (promptTurn mokSbToggle r (answersOf [16, 0, 1]) fun _ => none)
        promptStart ⟨.compare 16 0 1, 0, 3, 0⟩ := by
      refine hthird.tail ?_
      have h1 : ((answersOf [16, 0, 1]).random 2).toNat % pwLen r = 1 := hmod 1 (by decide)
      unfold Loop.Next promptTurn
      dsimp only
      rw [h1]
      rfl
    have hsafe := (hsb _ _ hcompare).2 16 List.mem_cons_self
    exact absurd hsafe.1 (by decide)
  · rintro ⟨hlen, hle⟩ p - a vars s hs
    refine safe_of_chosen hlen hle ?_
    exact @Loop.Reaches.invariant _ _ _ _ (fun s => s.phase.Chosen (pwLen r)) _ _ hs trivial
      fun s₁ s₂ _ h hnext => chosen_next (by omega) h hnext

/-- A request with a password of NULs. -/
def toggleRequest (state len : ℕ) : Region :=
  .ofList 0 (Region.le32 state ++ Region.le32 len ++ List.replicate 32 0)

/-- A password of eight characters. -/
theorem promptsSafe_eight : PromptsSafe (toggleRequest 1 8) :=
  (promptsSafe_iff _ rfl).mpr (by decide)

/-- A request without a password divides by zero. -/
theorem not_promptsSafe_zero : ¬ PromptsSafe (toggleRequest 1 0) := fun h =>
  (h mokSbToggle List.mem_cons_self (answersOf []) (fun _ => none) _ (reaches_first rfl)).1
    (by decide)

end Prompts

end Shim
