import Mathlib.Data.List.Forall2
import Shim.Common.Event
import Shim.Common.Loop
import Shim.MokManager.KeyList

/-! # Counting and building key lists

`count_keys` as a loop that keeps a record of what it reads, and what `build_mok_list` makes of data
that has been counted. The size field of a list is read before anything says that it is there, and
no check compares what a node takes with the size of its list.
-/

namespace Shim

open Event (AllSound)

/-- Where the loop of `count_keys` is. -/
structure CountState where
  o : ℕ
  dbsize : ℕ
  mokNum : ℕ

/-- A turn of the loop of `count_keys`. -/
def countTurn (d : Region) (s : CountState) : List Event × (CountState ⊕ ℕ) :=
  if s.dbsize = 0 then ([], .inr s.mokNum)
  else if s.dbsize < signatureListSize d s.o then ([.read (s.o + 16) 4], .inr s.mokNum)
  else if d.size < s.o + 28 ∨ signatureListSize d s.o = 0 then ([.read (s.o + 16) 4], .inr 0)
  else
    ([.read (s.o + 16) 4, .read s.o 28],
      if signatureListSize d s.o = 0 ∨ signatureListSize d s.o ≤ signatureSize d s.o then .inr 0
      else if ¬ isValidSiglist (signatureType d s.o) (signatureSize d s.o) then .inr 0
      else
        .inl ⟨s.o + signatureListSize d s.o, s.dbsize - signatureListSize d s.o, s.mokNum + 1⟩)

/-- Where the loop starts. -/
def countStart (d : Region) : CountState := ⟨0, d.size, 0⟩

/-! ## The lists -/

/-- The loop takes the list at `o`. -/
def Entered (d : Region) (o : ℕ) : Prop := o < d.size ∧ o + signatureListSize d o ≤ d.size

instance (d : Region) : DecidablePred (Entered d) := fun _ => inferInstanceAs (Decidable (_ ∧ _))

/-- `count_keys` counts the list at `o`. -/
def Counted (d : Region) (o : ℕ) : Prop :=
  o + 28 ≤ d.size ∧ 0 < signatureListSize d o ∧ signatureSize d o < signatureListSize d o ∧
    isValidSiglist (signatureType d o) (signatureSize d o) = true

instance (d : Region) : DecidablePred (Counted d) := fun _ => inferInstanceAs (Decidable (_ ∧ _))

/-- Where the lists that count lead to. -/
inductive CountReaches (d : Region) : ℕ → Prop
  | start : CountReaches d 0
  | next {o} (h : CountReaches d o) (hin : Entered d o) (hcounted : Counted d o) :
      CountReaches d (o + signatureListSize d o)

/-- The lists from `o` on, along their sizes. -/
def keyListsFrom (d : Region) : (fuel o : ℕ) → List ℕ
  | 0, _ => []
  | fuel + 1, o =>
    if Entered d o then
      o :: if signatureListSize d o = 0 then [] else keyListsFrom d fuel (o + signatureListSize d o)
    else []

/-- The lists of the data. -/
def keyLists (d : Region) : List ℕ := keyListsFrom d d.size 0

/-- The first signature of the list at `o`. -/
def firstCert (d : Region) (o : ℕ) : ℕ := o + 28 + signatureHeaderSize d o

/-- The node of the list at `o`. -/
def nodeAt (d : Region) (o : ℕ) : MokListNode := mokListNode d o (firstCert d o)

/-- `build_mok_list` returns NULL at the list at `o`. -/
def Refused (d : Region) (o : ℕ) : Prop :=
  d.size < firstCert d o + 17 ∨ signatureSize d o ≤ 16 ∨
    d.size - (nodeAt d o).mok.getD 0 < (nodeAt d o).mokSize

instance (d : Region) : DecidablePred (Refused d) := fun _ => inferInstanceAs (Decidable (_ ∨ _))

/-- The list at `o` has room for what its node takes: for the first certificate behind the header,
or for no header. -/
def RoomForNode (d : Region) (o : ℕ) : Prop :=
  if signatureType d o = certTypeX509Guid then
    28 + signatureHeaderSize d o + signatureSize d o ≤ signatureListSize d o
  else signatureHeaderSize d o = 0

instance (d : Region) : DecidablePred (RoomForNode d) := fun o => by
  unfold RoomForNode
  infer_instance

/-! ## The property -/

/-- The range of a node lies in the data and in the list at `o`. -/
def NodeInside (d : Region) (o : ℕ) (node : MokListNode) : Prop :=
  ∃ mok, node.mok = some mok ∧ mok + node.mokSize ≤ d.size ∧
    o ≤ mok ∧ mok + node.mokSize ≤ o + signatureListSize d o

/-- Counting ends and reads inside the data, and what is built of data that counts is a node inside
each of its lists, as many as were counted. -/
structure ListsAgree (d : Region) : Prop where
  counts : Loop.EndsWith (countTurn d) (AllSound d.size) (countStart d)
  builds : countKeys d ≠ 0 → ∀ mok, buildMokList d = some mok →
    mok.length = countKeys d ∧ List.Forall₂ (NodeInside d) (keyLists d) mok

/-! ## The loop of count_keys -/

section Count

variable {d : Region} {s s' : CountState} {o fuel mokNum : ℕ}

/-- The loop keeps to the data. -/
def CountInv (d : Region) (s : CountState) : Prop := s.o + s.dbsize = d.size

/-- The loop goes on behind a list that is counted. -/
theorem countTurn_next (hinv : CountInv d s) :
    Loop.Next (countTurn d) s s' ↔ Entered d s.o ∧ Counted d s.o ∧
      s' = ⟨s.o + signatureListSize d s.o, s.dbsize - signatureListSize d s.o, s.mokNum + 1⟩ := by
  have hsum : s.o + s.dbsize = d.size := hinv
  unfold Loop.Next countTurn Entered Counted
  split_ifs with h1 h2 h3 h4 h5
  · exact iff_of_false (fun h => nomatch h) fun h => by omega
  · exact iff_of_false (fun h => nomatch h) fun h => by omega
  · exact iff_of_false (fun h => nomatch h) fun h => by omega
  · exact iff_of_false (fun h => nomatch h) fun h => by omega
  · simp only [Sum.inl.injEq, @eq_comm _ _ s']
    exact ⟨fun h => ⟨by omega, ⟨by omega, by omega, by omega, h5⟩, h⟩, fun h => h.2.2⟩
  · exact iff_of_false (fun h => nomatch h) fun h => h5 h.2.1.2.2.2

/-- A turn reads inside exactly if there is room for the fields, or nothing left. -/
theorem countTurn_sound (hinv : CountInv d s) :
    AllSound d.size (countTurn d s).1 ↔ s.o = d.size ∨ s.o + 20 ≤ d.size := by
  have hsum : s.o + s.dbsize = d.size := hinv
  unfold countTurn
  by_cases h1 : s.dbsize = 0
  · rw [if_pos h1]
    simp only [Event.allSound_nil, true_iff]
    omega
  rw [if_neg h1]
  have h4 : (Event.read (s.o + 16) 4).Sound d.size ↔ s.o + 20 ≤ d.size :=
    Event.inside_iff_of_pos (by decide)
  have h28 : (Event.read s.o 28).Sound d.size ↔ s.o + 28 ≤ d.size :=
    Event.inside_iff_of_pos (by decide)
  by_cases h2 : s.dbsize < signatureListSize d s.o
  · rw [if_pos h2]
    simp only [Event.allSound_cons, h4, Event.allSound_nil, and_true]
    omega
  rw [if_neg h2]
  by_cases h3 : d.size < s.o + 28 ∨ signatureListSize d s.o = 0
  · rw [if_pos h3]
    simp only [Event.allSound_cons, h4, Event.allSound_nil, and_true]
    omega
  · rw [if_neg h3]
    simp only [Event.allSound_cons, h4, h28, Event.allSound_nil, and_true]
    omega

/-- A turn keeps the invariant and leaves less. -/
theorem CountInv.next (hinv : CountInv d s) (h : Loop.Next (countTurn d) s s') :
    CountInv d s' ∧ s'.dbsize < s.dbsize := by
  have hsum : s.o + s.dbsize = d.size := hinv
  obtain ⟨hin, hcounted, rfl⟩ := (countTurn_next hinv).mp h
  have := hin.2
  have := hcounted.2.1
  refine ⟨?_, ?_⟩
  · unfold CountInv
    dsimp only
    omega
  · dsimp only
    omega

/-- The loop comes to where the lists that count lead. -/
theorem exists_reaches_iff (d : Region) (o : ℕ) :
    (∃ s, Loop.Reaches (countTurn d) (countStart d) s ∧ s.o = o) ↔ CountReaches d o := by
  have hstart : CountInv d (countStart d) := Nat.zero_add _
  have hinv : ∀ s, Loop.Reaches (countTurn d) (countStart d) s → CountInv d s := fun s hs =>
    hs.invariant hstart fun _ _ _ h hnext => (h.next hnext).1
  constructor
  · rintro ⟨s, hs, rfl⟩
    exact @Loop.Reaches.invariant _ _ _ _ (fun s => CountReaches d s.o) _ _ hs .start
      fun s₁ s₂ hs₁ h hnext => by
        obtain ⟨hin, hcounted, rfl⟩ := (countTurn_next (hinv s₁ hs₁)).mp hnext
        exact h.next hin hcounted
  · intro h
    induction h with
    | start => exact ⟨_, .refl, rfl⟩
    | next h hin hcounted ih =>
      obtain ⟨s, hs, rfl⟩ := ih
      exact ⟨_, hs.tail ((countTurn_next (hinv s hs)).mpr ⟨hin, hcounted, rfl⟩), rfl⟩

/-- Counting ends, and reads inside the data exactly when the lists lead to no tail that is shorter
than the size field of a list. -/
theorem countTurn_endsWith (d : Region) :
    Loop.EndsWith (countTurn d) (AllSound d.size) (countStart d) ↔
      ∀ o, CountReaches d o → o = d.size ∨ o + 20 ≤ d.size := by
  have hstart : CountInv d (countStart d) := Nat.zero_add _
  have hinv : ∀ s, Loop.Reaches (countTurn d) (countStart d) s → CountInv d s := fun s hs =>
    hs.invariant hstart fun _ _ _ h hnext => (h.next hnext).1
  constructor
  · intro h o ho
    obtain ⟨s, hs, rfl⟩ := (exists_reaches_iff d o).mpr ho
    exact (countTurn_sound (hinv s hs)).mp (h.at_reached hs)
  · intro h
    refine Loop.endsWith_of_measure CountState.dbsize (fun s hs => ?_) fun s₁ s₂ hs₁ hnext =>
      ((hinv s₁ hs₁).next hnext).2
    exact (countTurn_sound (hinv s hs)).mpr (h s.o ((exists_reaches_iff d s.o).mp ⟨s, hs, rfl⟩))

/-- The loop computes `count_keys`. -/
theorem exists_run_eq_countKeysFrom (hinv : CountInv d s) (hfuel : s.dbsize < fuel) :
    ∃ turns, Loop.run (countTurn d) fuel s =
      some (turns, countKeysFrom d fuel s.o s.dbsize s.mokNum) := by
  induction fuel generalizing s with
  | zero => exact absurd hfuel (Nat.not_lt_zero _)
  | succ fuel ih =>
    cases hturn : (countTurn d s).2 with
    -- one turn, and the function goes on where the turn ends
    | inl s' =>
      have hnext : Loop.Next (countTurn d) s s' := hturn
      obtain ⟨hinv', hless⟩ := hinv.next hnext
      obtain ⟨turns, hrun⟩ := ih hinv' (by omega)
      have hsum : s.o + s.dbsize = d.size := hinv
      obtain ⟨⟨hlt, hle⟩, ⟨h28, hpos, hsize, hvalid⟩, rfl⟩ := (countTurn_next hinv).mp hnext
      rw [Loop.run_next hnext, hrun, countKeysFrom, if_pos (by omega), if_neg (by omega),
        if_neg (by omega), if_neg (not_not.mpr hvalid)]
      exact ⟨_, rfl⟩
    | inr n =>
      rw [Loop.run_stop hturn]
      refine ⟨_, congrArg (fun n => some (_, n)) ?_⟩
      unfold countTurn at hturn
      rw [countKeysFrom]
      -- the ways out, in the order of the source
      split_ifs at hturn with h1 h2 h3 h4 h5
      · cases hturn
        rw [if_neg (by omega)]
      · cases hturn
        rw [if_neg (by omega)]
      · cases hturn
        rw [if_pos (by omega), if_pos h3]
      · cases hturn
        rw [if_pos (by omega), if_neg h3, if_pos h4]
      · cases hturn
        rw [if_pos (by omega), if_neg h3, if_neg h4, if_pos h5]

end Count

/-! ## What is built -/

section Build

variable {d : Region} {o fuel dbsize mokNum : ℕ}

/-- A database counts the lists along their sizes, or nothing. -/
theorem countKeysFrom_eq_lists (hsum : o + dbsize = d.size) (hfuel : dbsize ≤ fuel) :
    countKeysFrom d fuel o dbsize mokNum =
      if ∀ o' ∈ keyListsFrom d fuel o, Counted d o' then mokNum + (keyListsFrom d fuel o).length
      else 0 := by
  induction fuel generalizing o dbsize mokNum with
  | zero => simp [countKeysFrom, keyListsFrom]
  | succ fuel ih =>
    have hentered : Entered d o ↔ 0 < dbsize ∧ signatureListSize d o ≤ dbsize := by
      unfold Entered
      omega
    rw [countKeysFrom, keyListsFrom]
    by_cases hin : 0 < dbsize ∧ signatureListSize d o ≤ dbsize
    swap
    · rw [if_neg hin, if_neg (hentered.not.mpr hin)]
      simp
    rw [if_pos hin, if_pos (hentered.mpr hin)]
    by_cases hcounted : Counted d o
    · obtain ⟨h28, hpos, hsize, hvalid⟩ := id hcounted
      rw [if_neg (by omega), if_neg (by omega), if_neg (not_not.mpr hvalid), if_neg hpos.ne',
        ih (by omega) (by omega)]
      simp only [List.forall_mem_cons, hcounted, true_and, List.length_cons]
      split_ifs
      · omega
      · rfl
    -- one list that is not counted makes the whole count zero
    · have hall : ¬ ∀ o' ∈ o :: if signatureListSize d o = 0 then []
          else keyListsFrom d fuel (o + signatureListSize d o), Counted d o' :=
        fun h => hcounted (h o List.mem_cons_self)
      rw [if_neg hall]
      split_ifs with h1 h2 h3
      · rfl
      · rfl
      · exact absurd ⟨by omega, by omega, by omega, h3⟩ hcounted
      · rfl

/-- Data that counts is built into the node of each list, unless one is refused. -/
theorem buildMokListFrom_eq_lists (hsum : o + dbsize = d.size) (hfuel : dbsize ≤ fuel)
    (hcounted : ∀ o' ∈ keyListsFrom d fuel o, Counted d o') :
    buildMokListFrom d fuel o dbsize =
      if ∀ o' ∈ keyListsFrom d fuel o, ¬ Refused d o' then
        some ((keyListsFrom d fuel o).map (nodeAt d))
      else none := by
  induction fuel generalizing o dbsize with
  | zero => simp [buildMokListFrom, keyListsFrom]
  | succ fuel ih =>
    -- the loop's test on what is left is the test on the position
    have hentered : Entered d o ↔ 0 < dbsize ∧ signatureListSize d o ≤ dbsize := by
      unfold Entered
      omega
    rw [keyListsFrom] at hcounted ⊢
    rw [buildMokListFrom]
    by_cases hin : 0 < dbsize ∧ signatureListSize d o ≤ dbsize
    swap
    · rw [if_neg hin, if_neg (hentered.not.mpr hin)]
      simp
    rw [if_pos (hentered.mpr hin)] at hcounted ⊢
    obtain ⟨⟨h28, hpos, -, -⟩, hrest⟩ := List.forall_mem_cons.mp hcounted
    rw [if_neg hpos.ne'] at hrest ⊢
    rw [if_pos hin, if_neg (by omega), ih (by omega) (by omega) hrest]
    by_cases hrefused : Refused d o
    -- one refused list refuses them all
    · have hall : ¬ ∀ o' ∈ o :: keyListsFrom d fuel (o + signatureListSize d o), ¬ Refused d o' :=
        fun h => h o List.mem_cons_self hrefused
      rw [if_neg hall]
      dsimp only
      split_ifs with h1 h2
      · rfl
      · rfl
      · rcases hrefused with h | h | h
        · exact absurd (.inl h) h1
        · exact absurd (.inr h) h1
        · exact absurd h h2
      · rfl
    · obtain ⟨hcert, hsig, hnode⟩ : ¬ d.size < firstCert d o + 17 ∧ ¬ signatureSize d o ≤ 16 ∧
          ¬ d.size - (nodeAt d o).mok.getD 0 < (nodeAt d o).mokSize := by
        unfold Refused at hrefused
        tauto
      change (if d.size < firstCert d o + 17 ∨ signatureSize d o ≤ 16 then none
        else if d.size - (nodeAt d o).mok.getD 0 < (nodeAt d o).mokSize then none
        else Option.map (nodeAt d o :: ·) _) = _
      rw [if_neg (not_or.mpr ⟨hcert, hsig⟩), if_neg hnode]
      simp only [List.forall_mem_cons, hrefused, not_false_eq_true, true_and, List.map_cons]
      split_ifs
      · rfl
      · rfl

/-- Turns that are not needed find no more lists. -/
theorem keyListsFrom_succ (hfuel : d.size - o ≤ fuel) :
    keyListsFrom d (fuel + 1) o = keyListsFrom d fuel o := by
  induction fuel generalizing o with
  | zero =>
    have hout : ¬ Entered d o := fun h => by
      have := h.1
      omega
    simp [keyListsFrom, hout]
  | succ fuel ih =>
    rw [keyListsFrom]
    conv_rhs => rw [keyListsFrom]
    by_cases hin : Entered d o
    · rw [if_pos hin, if_pos hin]
      by_cases hzero : signatureListSize d o = 0
      · rw [if_pos hzero, if_pos hzero]
      · rw [if_neg hzero, if_neg hzero, ih (by omega)]
    · rw [if_neg hin, if_neg hin]

/-- The loop computes `count_keys`. -/
theorem exists_run_eq_countKeys (d : Region) :
    ∃ turns, Loop.run (countTurn d) (d.size + 1) (countStart d) = some (turns, countKeys d) := by
  obtain ⟨turns, hrun⟩ := @exists_run_eq_countKeysFrom d (countStart d) (d.size + 1)
    (Nat.zero_add _) (Nat.lt_succ_self _)
  refine ⟨turns, hrun.trans (congrArg (fun n => some (turns, n)) ?_)⟩
  have hlong := @countKeysFrom_eq_lists d 0 (d.size + 1) d.size 0 (Nat.zero_add _) (Nat.le_succ _)
  rw [keyListsFrom_succ (by omega)] at hlong
  exact hlong.trans (countKeysFrom_eq_lists (Nat.zero_add _) le_rfl).symm

/-- A hash is at least as long as a SHA-224 one. -/
theorem le_shaSize {type : List UInt8} (h : isSha2Hash type = true) : 28 ≤ shaSize type := by
  have hsha : type = certSha224Guid ∨ type = certSha256Guid ∨ type = certSha384Guid ∨
      type = certSha512Guid := by simpa [isSha2Hash] using h
  rcases hsha with rfl | rfl | rfl | rfl
  all_goals decide

/-- A list of hashes that counts has room behind its fields. -/
theorem le_of_counted (h : Counted d o) (htype : signatureType d o ≠ certTypeX509Guid) :
    28 ≤ signatureListSize d o := by
  obtain ⟨-, -, hsize, hvalid⟩ := h
  unfold isValidSiglist at hvalid
  split_ifs at hvalid with h1 h2 h3
  · exact absurd h1.1 htype
  · have := le_shaSize (by simpa using h2 : isSha2Hash (signatureType d o) = true)
    omega

/-- A node that is built lies in the data, and in its list exactly when there is room for it. -/
theorem nodeInside_iff (hcounted : Counted d o) (hrefused : ¬ Refused d o) :
    NodeInside d o (nodeAt d o) ↔ RoomForNode d o := by
  obtain ⟨hcert, hsig, hnode⟩ : ¬ d.size < firstCert d o + 17 ∧ ¬ signatureSize d o ≤ 16 ∧
      ¬ d.size - (nodeAt d o).mok.getD 0 < (nodeAt d o).mokSize := by
    unfold Refused at hrefused
    tauto
  have hfirst : firstCert d o = o + 28 + signatureHeaderSize d o := rfl
  unfold NodeInside RoomForNode
  by_cases htype : signatureType d o = certTypeX509Guid
  · have heq : nodeAt d o =
        ⟨signatureSize d o - 16, some (firstCert d o + 16), signatureType d o⟩ := by
      rw [nodeAt, mokListNode, if_pos htype]
    rw [heq] at hnode ⊢
    simp only [Option.getD_some] at hnode
    rw [if_pos htype]
    simp only [Option.some.injEq, exists_eq_left']
    omega
  · have hlist := le_of_counted hcounted htype
    have hlt : signatureListSize d o < 2 ^ 32 := Region.u32_lt d _
    have heq : nodeAt d o =
        ⟨signatureListSize d o - 28, some (firstCert d o), signatureType d o⟩ := by
      rw [nodeAt, mokListNode, if_neg htype,
        show (signatureListSize d o + (2 ^ 32 - 28)) % 2 ^ 32 = signatureListSize d o - 28 by omega]
    rw [heq] at hnode ⊢
    simp only [Option.getD_some] at hnode
    rw [if_neg htype]
    simp only [Option.some.injEq, exists_eq_left']
    omega

/-- Counting and building are safe and agree exactly when no tail is cut short in its size field,
and, where every list counts and none is refused, every list has room for its node. -/
theorem listsAgree_iff (d : Region) :
    ListsAgree d ↔ (∀ o, CountReaches d o → o = d.size ∨ o + 20 ≤ d.size) ∧
      ((∀ o ∈ keyLists d, Counted d o ∧ ¬ Refused d o) → ∀ o ∈ keyLists d, RoomForNode d o) := by
  have hcount := @countKeysFrom_eq_lists d 0 d.size d.size 0 (Nat.zero_add _) le_rfl
  have hbuild := @buildMokListFrom_eq_lists d 0 d.size d.size (Nat.zero_add _) le_rfl
  change countKeys d =
    if ∀ o ∈ keyLists d, Counted d o then 0 + (keyLists d).length else 0 at hcount
  change (∀ o ∈ keyLists d, Counted d o) → buildMokList d =
    if ∀ o ∈ keyLists d, ¬ Refused d o then some ((keyLists d).map (nodeAt d)) else none at hbuild
  rw [Nat.zero_add] at hcount
  have hforall : (∀ o ∈ keyLists d, Counted d o ∧ ¬ Refused d o) →
      (List.Forall₂ (NodeInside d) (keyLists d) ((keyLists d).map (nodeAt d)) ↔
        ∀ o ∈ keyLists d, RoomForNode d o) := fun h => by
    rw [List.forall₂_map_right_iff, List.forall₂_same]
    exact forall₂_congr fun o ho => nodeInside_iff (h o ho).1 (h o ho).2
  constructor
  · rintro ⟨hcounts, hbuilds⟩
    refine ⟨(countTurn_endsWith d).mp hcounts, fun h => ?_⟩
    -- all lists are counted, so the second pass gets that many nodes
    have hcounted : ∀ o ∈ keyLists d, Counted d o := fun o ho => (h o ho).1
    rw [if_pos hcounted] at hcount
    by_cases hnil : keyLists d = []
    · simp [hnil]
    · have hne : countKeys d ≠ 0 := by
        rw [hcount]
        exact (List.length_pos_iff.mpr hnil).ne'
      refine (hforall h).mp (hbuilds hne _ ?_).2
      rw [hbuild hcounted, if_pos fun o ho => (h o ho).2]
  · rintro ⟨htail, hroom⟩
    refine ⟨(countTurn_endsWith d).mpr htail, fun hne mok hmok => ?_⟩
    -- the count is not zero, so all of them were counted
    have hcounted : ∀ o ∈ keyLists d, Counted d o := by
      by_contra h
      exact hne (by rw [hcount, if_neg h])
    rw [if_pos hcounted] at hcount
    rw [hbuild hcounted] at hmok
    split_ifs at hmok with hrefused
    obtain rfl := Option.some.inj hmok
    have hall : ∀ o ∈ keyLists d, Counted d o ∧ ¬ Refused d o :=
      fun o ho => ⟨hcounted o ho, hrefused o ho⟩
    exact ⟨by rw [hcount, List.length_map], (hforall hall).mpr (hroom hall)⟩

/-- Two X.509 lists of 60 bytes, the first with a header of 40. -/
def longHeader : Region :=
  .ofFields 0 120
    [(0, certTypeX509Guid), (16, Region.le32 60), (20, Region.le32 40), (24, Region.le32 17),
      (60, certTypeX509Guid), (76, Region.le32 60), (84, Region.le32 17)]

/-- One byte is read behind, and the node of a list with a header lies in the next list. -/
theorem not_listsAgree_byte_longHeader :
    ¬ ListsAgree (Region.ofList 0 [1]) ∧ ¬ ListsAgree longHeader := by
  constructor
  · intro h
    exact absurd (h.counts.at_reached .refl (.read 16 4) (by decide)) (by decide)
  · intro h
    have hnodes := (h.builds (by decide +kernel)
      [⟨1, some 84, certTypeX509Guid⟩, ⟨1, some 104, certTypeX509Guid⟩] (by decide +kernel)).2
    rw [show keyLists longHeader = [0, 60] by decide +kernel] at hnodes
    obtain ⟨mok, hmok, -, -, hle⟩ := (List.forall₂_cons.mp hnodes).1
    rw [show signatureListSize longHeader 0 = 60 by decide +kernel] at hle
    obtain rfl := Option.some.inj hmok
    exact absurd hle (by decide)

end Build

end Shim
