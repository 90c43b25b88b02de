import Shim.Mok.MirrorDb

/-! # Splitting a database

How a database that is too large for one variable is cut, told on its signature lists: every turn
takes as many signatures of the list at hand as fit. The loop of `mirror_mok_db` cuts the bytes of
the database like that, as long as it meets no signature that does not fit and leaves none behind
in the last few bytes.
-/

namespace Shim

namespace SignatureList

variable (l : SignatureList) (n : ℕ)

/-- The first signatures of a list. -/
def take : SignatureList :=
  { l with
    sigs := l.sigs.take n
    uniform := fun s hs => l.uniform s (List.mem_of_mem_take hs) }

/-- The other signatures of a list. -/
def drop : SignatureList :=
  { l with
    sigs := l.sigs.drop n
    uniform := fun s hs => l.uniform s (List.mem_of_mem_drop hs) }

/-- The first signatures of a list. -/
@[simp] theorem entries_take : (l.take n).entries = l.entries.take n := List.map_take

/-- The signatures behind them. -/
@[simp] theorem entries_drop : (l.drop n).entries = l.entries.drop n := List.map_drop

/-- A list has as many entries as signatures. -/
theorem length_entries : l.entries.length = l.sigs.length := List.length_map _

/-- How long the first signatures are. -/
theorem length_take_encode {n : ℕ} (hn : n ≤ l.sigs.length) :
    ((l.sigs.take n).flatMap SignatureData.encode).length = n * l.size := by
  rw [length_flatMap_encode fun s hs => l.length_encode_of_mem (List.mem_of_mem_take hs),
    List.length_take_of_le hn]

/-- A list without signatures has no entries. -/
theorem entries_of_sigs_nil (h : l.sigs = []) : l.entries = [] := by
  rw [entries, h, List.map_nil]

end SignatureList

namespace Mok

open Bytes (sub64 sub64_of_le)

/-! ## The pieces -/

/-- What is still to be cut. The header of a list that was begun is behind. -/
structure Rest where
  begun : Bool
  lists : List SignatureList

/-- The bytes of the rest. -/
def Rest.length (rest : Rest) : ℕ :=
  (encodeDb rest.lists).length - if rest.begun then 28 else 0

/-- The signatures of a list that fit into a variable with some room. -/
def fitting (room : ℕ) (l : SignatureList) : ℕ := howManyFit room l.size (l.sigs.length * l.size)

/-- What is left once `n` signatures of the list `l` are cut off. -/
def leave (l : SignatureList) (n : ℕ) (ls : List SignatureList) : Rest :=
  if n < l.sigs.length then ⟨true, l.drop n :: ls⟩ else ⟨false, ls⟩

/-- The rest is cut into the pieces `ps`, the first of them piece number `i`, from a turn on. The
room may change from turn to turn and from piece to piece. A list without signatures takes a turn
and makes no piece. Fewer than `minsz` bytes are not looked at, so no signature may lie there. -/
inductive Pieces (room : ℕ → ℕ → ℕ) : ℕ → ℕ → Rest → List SignatureList → Prop
  | stop {turn i : ℕ} {rest : Rest} (hshort : rest.length < minSignatureSize)
      (hnone : entriesDb rest.lists = []) : Pieces room turn i rest []
  | skip {turn i : ℕ} {l : SignatureList} {ls ps : List SignatureList}
      (hlong : minSignatureSize ≤ (Rest.mk false (l :: ls)).length) (hnone : l.sigs = [])
      (hrest : Pieces room (turn + 1) i ⟨false, ls⟩ ps) : Pieces room turn i ⟨false, l :: ls⟩ ps
  | cut {turn i : ℕ} {begun : Bool} {l : SignatureList} {ls ps : List SignatureList}
      (hlong : minSignatureSize ≤ (Rest.mk begun (l :: ls)).length)
      (hfits : 0 < fitting (room turn i) l)
      (hrest : Pieces room (turn + 1) (i + 1) (leave l (fitting (room turn i) l) ls) ps) :
      Pieces room turn i ⟨begun, l :: ls⟩ (l.take (fitting (room turn i) l) :: ps)

/-- The first piece of a database is `p`, from a turn on. -/
inductive FirstPiece (room : ℕ → ℕ) : ℕ → List SignatureList → SignatureList → Prop
  | skip {turn : ℕ} {l p : SignatureList} {ls : List SignatureList}
      (hlong : minSignatureSize ≤ (encodeDb (l :: ls)).length) (hnone : l.sigs = [])
      (hrest : FirstPiece room (turn + 1) ls p) : FirstPiece room turn (l :: ls) p
  | cut {turn : ℕ} {l : SignatureList} {ls : List SignatureList}
      (hlong : minSignatureSize ≤ (encodeDb (l :: ls)).length) (hfits : 0 < fitting (room turn) l) :
      FirstPiece room turn (l :: ls) (l.take (fitting (room turn) l))

/-- What is taken and what is left are the whole. -/
theorem entries_leave (l : SignatureList) (n : ℕ) (ls : List SignatureList) :
    (l.take n).entries ++ entriesDb (leave l n ls).lists = entriesDb (l :: ls) := by
  unfold leave
  by_cases hn : n < l.sigs.length
  · rw [if_pos hn, entriesDb_cons, entriesDb_cons, ← List.append_assoc, l.entries_take,
      l.entries_drop, List.take_append_drop]
  · have hle : l.entries.length ≤ n := by
      rw [l.length_entries]
      exact Nat.le_of_not_lt hn
    rw [if_neg hn, entriesDb_cons, l.entries_take, List.take_of_length_le hle]

/-- Cutting loses no signature, doubles none and keeps their order. -/
theorem Pieces.entries {room : ℕ → ℕ → ℕ} {turn i : ℕ} {rest : Rest} {ps : List SignatureList}
    (h : Pieces room turn i rest ps) : entriesDb ps = entriesDb rest.lists := by
  induction h with
  | stop _ hnone => rw [hnone, entriesDb_nil]
  | skip _ hnone _ ih => rw [ih, entriesDb_cons, SignatureList.entries_of_sigs_nil _ hnone,
      List.nil_append]
  | cut _ _ _ ih => rw [entriesDb_cons, ih, entries_leave]

/-- No more fit than there are. -/
theorem fitting_le (room : ℕ) (l : SignatureList) : fitting room l ≤ l.sigs.length := by
  have hpos : 0 < l.size := by
    have := l.size_gt
    omega
  unfold fitting howManyFit
  by_cases hroom : 28 < room
  · rw [if_pos hroom, Nat.mul_div_cancel _ hpos]
    exact Nat.min_le_right _ _
  · rw [if_neg hroom]
    exact Nat.zero_le _

/-- Of none, none fit. -/
theorem fitting_of_nil {l : SignatureList} (room : ℕ) (h : l.sigs = []) : fitting room l = 0 := by
  have hle := fitting_le room l
  rwa [h, List.length_nil, Nat.le_zero] at hle

/-- The first of the pieces is the one that a pass with the same room writes first. -/
theorem Pieces.firstPiece {room : ℕ → ℕ → ℕ} {room' : ℕ → ℕ} {turn : ℕ} {ls ps : List SignatureList}
    {p : SignatureList} (h : Pieces room turn 0 ⟨false, ls⟩ (p :: ps))
    (hsame : ∀ l ∈ ls, ∀ turn, fitting (room' turn) l = fitting (room turn 0) l) :
    FirstPiece room' turn ls p := by
  induction ls generalizing turn with
  | nil => cases h
  | cons l ls ih =>
    cases h with
    | skip hlong hnone hrest =>
      exact .skip hlong hnone (ih hrest fun l' hl' => hsame l' (List.mem_cons_of_mem _ hl'))
    | cut hlong hfits _ =>
      rw [← hsame l List.mem_cons_self] at hfits ⊢
      exact .cut hlong hfits

/-! ## Signatures that are long enough -/

/-- Where one of the signatures fits, the next turn cuts off some. -/
theorem fitting_pos {room : ℕ} {l : SignatureList} (hroom : 28 + l.size ≤ room)
    (hsigs : l.sigs ≠ []) : 0 < fitting room l := by
  have hpos : 0 < l.size := by
    have := l.size_gt
    omega
  rw [fitting, howManyFit, if_pos (by omega), Nat.mul_div_cancel _ hpos]
  exact lt_min (Nat.div_pos (by omega) hpos) (List.length_pos_iff.mpr hsigs)

/-- Signatures as long as `minsz` are not overlooked in the last few bytes. -/
theorem entriesDb_of_length_lt {ls : List SignatureList}
    (hlong : ∀ l ∈ ls, minSignatureSize ≤ l.size) (hshort : (encodeDb ls).length < minSignatureSize) :
    entriesDb ls = [] := by
  induction ls with
  | nil => rfl
  | cons l ls ih =>
    rw [encodeDb_cons, List.length_append, l.length_encode, SignatureList.listSize] at hshort
    have hsize := hlong l List.mem_cons_self
    have hnone : l.sigs = [] := by
      by_contra hsome
      have := Nat.le_mul_of_pos_left l.size (List.length_pos_iff.mpr hsome)
      omega
    rw [entriesDb_cons, l.entries_of_sigs_nil hnone,
      ih (fun l' hl' => hlong l' (List.mem_cons_of_mem _ hl')) (by omega), List.nil_append]

/-- Turns that are still to come, at most. -/
def Rest.turns (rest : Rest) : ℕ := (rest.lists.map fun l => l.sigs.length + 1).sum

/-- What is left takes fewer turns. -/
theorem turns_leave {l : SignatureList} {ls : List SignatureList} {n : ℕ} (begun : Bool)
    (hn : 0 < n) : (leave l n ls).turns < (Rest.mk begun (l :: ls)).turns := by
  unfold leave
  by_cases hlt : n < l.sigs.length
  · have hdrop : (l.drop n).sigs.length = l.sigs.length - n := List.length_drop
    simp only [if_pos hlt, Rest.turns, List.map_cons, List.sum_cons, hdrop]
    omega
  · simp only [if_neg hlt, Rest.turns, List.map_cons, List.sum_cons]
    omega

/-- The lists that are left have the sizes they had. -/
theorem size_of_mem_leave {l l' : SignatureList} {ls : List SignatureList} {n : ℕ}
    (h : l' ∈ (leave l n ls).lists) : ∃ l'' ∈ l :: ls, l''.size = l'.size := by
  unfold leave at h
  by_cases hlt : n < l.sigs.length
  · rw [if_pos hlt] at h
    rcases List.mem_cons.mp h with rfl | h
    · exact ⟨l, List.mem_cons_self, rfl⟩
    · exact ⟨l', List.mem_cons_of_mem _ h, rfl⟩
  · rw [if_neg hlt] at h
    exact ⟨l', List.mem_cons_of_mem _ h, rfl⟩

/-- A list that is begun has a signature left. -/
theorem begun_leave (l : SignatureList) (n : ℕ) (ls : List SignatureList)
    (h : (leave l n ls).begun = true) :
    ∃ l' ls', (leave l n ls).lists = l' :: ls' ∧ l'.sigs ≠ [] := by
  unfold leave at h ⊢
  by_cases hlt : n < l.sigs.length
  · rw [if_pos hlt]
    exact ⟨_, _, rfl, fun hnil => absurd (List.drop_eq_nil_iff.mp hnil) (Nat.not_le.mpr hlt)⟩
  · rw [if_neg hlt] at h
    exact absurd h Bool.false_ne_true

/-- Long signatures that all fit can be cut, however the room changes. -/
theorem exists_pieces {room : ℕ → ℕ → ℕ} (rest : Rest)
    (hfits : ∀ l ∈ rest.lists, ∀ turn i, 28 + l.size ≤ room turn i)
    (hlong : ∀ l ∈ rest.lists, minSignatureSize ≤ l.size)
    (hbegun : rest.begun = true → ∃ l ls, rest.lists = l :: ls ∧ l.sigs ≠ []) (turn i : ℕ) :
    ∃ ps, Pieces room turn i rest ps := by
  -- on the turns: a list without signatures is passed over, any other gets shorter
  induction hturns : rest.turns using Nat.strong_induction_on generalizing rest turn i with
  | _ _ ih =>
    obtain ⟨begun, lists⟩ := rest
    by_cases hrest : minSignatureSize ≤ (Rest.mk begun lists).length
    · cases lists with
      | nil => simp [Rest.length, minSignatureSize] at hrest
      | cons l ls =>
        have hls : ∀ l' ∈ ls, l' ∈ l :: ls := fun l' hl' => List.mem_cons_of_mem _ hl'
        by_cases hsigs : l.sigs = []
        · obtain rfl : begun = false := by
            by_contra hbegun'
            obtain ⟨_, _, heq, hsome⟩ := hbegun (Bool.eq_true_of_not_eq_false hbegun')
            cases heq
            exact hsome hsigs
          have hfewer : (Rest.mk false ls).turns < (Rest.mk false (l :: ls)).turns := by
            simp only [Rest.turns, List.map_cons, List.sum_cons]
            omega
          obtain ⟨ps, hps⟩ := ih _ (hturns ▸ hfewer) ⟨false, ls⟩
            (fun l' hl' => hfits l' (hls l' hl')) (fun l' hl' => hlong l' (hls l' hl'))
            (fun h => absurd h Bool.false_ne_true) (turn + 1) i rfl
          exact ⟨ps, .skip hrest hsigs hps⟩
        · have hcut := fitting_pos (hfits l List.mem_cons_self turn i) hsigs
          obtain ⟨ps, hps⟩ := ih _ (hturns ▸ turns_leave begun hcut) _
            (fun l' hl' turn i => by
              obtain ⟨l'', hl'', hsize⟩ := size_of_mem_leave hl'
              exact hsize ▸ hfits l'' hl'' turn i)
            (fun l' hl' => by
              obtain ⟨l'', hl'', hsize⟩ := size_of_mem_leave hl'
              exact hsize ▸ hlong l'' hl'')
            (begun_leave l _ ls) (turn + 1) (i + 1) rfl
          exact ⟨_, .cut hrest hcut hps⟩
    -- what is left is too short for a signature, so no list is left
    · refine ⟨[], .stop (Nat.lt_of_not_le hrest) ?_⟩
      cases begun with
      | false => exact entriesDb_of_length_lt hlong (Nat.lt_of_not_le hrest)
      | true =>
        obtain ⟨l, ls, rfl, hsome⟩ := hbegun rfl
        have hsize := hlong l List.mem_cons_self
        have := Nat.le_mul_of_pos_left l.size (List.length_pos_iff.mpr hsome)
        simp only [Rest.length, encodeDb_cons, List.length_append, SignatureList.length_encode,
          SignatureList.listSize, if_true] at hrest
        omega

/-! ## Where the loop stands -/

/-- Inside the list `l`, at the first of its signatures that are still to come. -/
structure AtList (d : Region) (l : SignatureList) (ls : List SignatureList) (esl eslEnd pos : ℕ) :
    Prop where
  type : signatureType d esl = l.type
  listSize : signatureListSize d esl ≠ 0
  sigSize : signatureSize d esl = l.size
  header : 28 ≤ pos
  stop : eslEnd = pos + l.sigs.length * l.size
  holds : d.HoldsAt pos (l.sigs.flatMap SignatureData.encode ++ encodeDb ls)
  size : d.size = eslEnd + (encodeDb ls).length

/-- At the start of a turn, with the rest to come: at a list that is still to be begun, or inside
one. -/
inductive Stands (d : Region) : Rest → ℕ → Option (ℕ × ℕ) → Prop
  | fresh {ls : List SignatureList} {pos : ℕ} {esl : Option (ℕ × ℕ)}
      (hdone : ∀ e, esl = some e → e.2 ≤ pos) (hholds : d.HoldsAt pos (encodeDb ls))
      (hsize : d.size = pos + (encodeDb ls).length) : Stands d ⟨false, ls⟩ pos esl
  | begun {l : SignatureList} {ls : List SignatureList} {pos esl eslEnd : ℕ}
      (hleft : l.sigs ≠ []) (hat : AtList d l ls esl eslEnd pos) :
      Stands d ⟨true, l :: ls⟩ pos (some (esl, eslEnd))

section Stands

variable {d : Region} {l : SignatureList} {ls : List SignatureList} {rest : Rest}
  {esl eslEnd pos n : ℕ} {at' : Option (ℕ × ℕ)}

/-- What is left reaches to the end of the data. -/
theorem Stands.size_eq (h : Stands d rest pos at') : d.size = pos + rest.length := by
  cases h with
  | fresh _ _ hsize => exact hsize
  | begun _ hat =>
    have hsize := hat.size
    have hstop := hat.stop
    simp only [Rest.length, encodeDb_cons, List.length_append, SignatureList.length_encode,
      SignatureList.listSize, if_true]
    omega

/-- A turn finds itself inside the next list of the rest. -/
theorem Stands.atList {begun : Bool} (h : Stands d ⟨begun, l :: ls⟩ pos at')
    (hsize : d.size < 2 ^ 32) :
    ∃ esl eslEnd pos', Mok.atList d pos at' = (esl, eslEnd, pos') ∧
      pos' = pos + (if begun then 0 else 28) ∧ AtList d l ls esl eslEnd pos' := by
  cases h with
  -- a new list: its header is read, and the position goes behind it
  | fresh hdone hholds hsizeEq =>
    have hnext : Mok.atList d pos at' = (pos, pos + signatureListSize d pos, pos + 28) := by
      cases at' with
      | none => rfl
      | some e => exact if_pos (hdone e rfl)
    rw [encodeDb_cons, Region.holdsAt_append, l.length_encode] at hholds
    rw [encodeDb_cons, List.length_append, l.length_encode] at hsizeEq
    obtain ⟨hhead, hsigs⟩ := l.holdsAt_encode.mp hholds.1
    obtain ⟨htype, hlist, -, hsig⟩ := l.fields hhead (by omega)
    have hle := l.le_listSize
    refine ⟨_, _, _, hnext, rfl, htype, by omega, hsig, by omega, ?_, ?_, ?_⟩
    · rw [hlist, SignatureList.listSize, Nat.add_assoc]
    · rw [Region.holdsAt_append]
      refine ⟨hsigs, ?_⟩
      rw [length_flatMap_encode fun s hs => l.length_encode_of_mem hs, Nat.add_assoc]
      exact hholds.2
    · rw [hlist, hsizeEq, Nat.add_assoc]
  -- the list is not finished
  | begun hleft hat =>
    rename_i esl eslEnd
    have hpos : 0 < l.sigs.length * l.size :=
      Nat.mul_pos (List.length_pos_iff.mpr hleft) (by have := l.size_gt; omega)
    have hnot : ¬ eslEnd ≤ pos := by
      rw [hat.stop]
      omega
    exact ⟨esl, eslEnd, pos, if_neg hnot, rfl, hat⟩

/-- Some signatures and what is behind them. -/
theorem AtList.split (h : AtList d l ls esl eslEnd pos) (hn : n ≤ l.sigs.length) :
    d.HoldsAt pos ((l.sigs.take n).flatMap SignatureData.encode) ∧
      d.HoldsAt (pos + n * l.size) ((l.sigs.drop n).flatMap SignatureData.encode ++ encodeDb ls) := by
  have hholds := h.holds
  rwa [← List.take_append_drop n l.sigs, List.flatMap_append, List.append_assoc,
    Region.holdsAt_append, l.length_take_encode hn] at hholds

/-- Where the loop goes on behind the signatures that are cut off. -/
theorem AtList.leave (h : AtList d l ls esl eslEnd pos) (hn : n ≤ l.sigs.length) :
    Stands d (Mok.leave l n ls) (pos + n * l.size) (some (esl, eslEnd)) := by
  have hholds := (h.split hn).2
  have hstop : eslEnd = pos + n * l.size + (l.drop n).sigs.length * l.size := by
    have hlength : (l.drop n).sigs.length = l.sigs.length - n := List.length_drop
    rw [h.stop, hlength, Nat.add_assoc, ← Nat.add_mul, Nat.add_sub_cancel' hn]
  unfold Mok.leave
  by_cases hlt : n < l.sigs.length
  · rw [if_pos hlt]
    refine .begun ?_ ⟨h.type, h.listSize, h.sigSize, ?_, hstop, hholds, h.size⟩
    · exact fun hnil => absurd (List.drop_eq_nil_iff.mp hnil) (Nat.not_le.mpr hlt)
    · exact Nat.le_trans h.header (Nat.le_add_right _ _)
  · have hnil : l.sigs.drop n = [] := List.drop_eq_nil_of_le (Nat.le_of_not_lt hlt)
    have hend : eslEnd = pos + n * l.size := by
      rw [hstop, show (l.drop n).sigs = [] from hnil, List.length_nil, Nat.zero_mul, Nat.add_zero]
    rw [if_neg hlt]
    refine .fresh ?_ ?_ ?_
    · rintro _ ⟨⟩
      exact hend.le
    · rwa [hnil, List.flatMap_nil, List.nil_append] at hholds
    · rw [← hend]
      exact h.size

end Stands

/-! ## The loop -/

/-- The maximum size of a variable that the firmware reports. -/
def reported (major : ℕ) (answer : Except EfiError VariableInfo) : ℕ :=
  match getMaxVarSz major answer with
  | .error _ => 0
  | .ok maxVarSz => maxVarSz

/-- What piece `i` may take up of a variable, as a turn of the loop finds it. -/
def roomFor (major : ℕ) (v : MokVar) (a : Answers) (onlyFirst : Bool) (turn i : ℕ) : ℕ :=
  lessName (reported major (a.info (turn + 1))) (pieceName v onlyFirst i).size

/-- The size that is used is the one reported. -/
theorem getMaxVarSz_eq {answer : Except EfiError VariableInfo} (h : ∃ info, answer = .ok info)
    (major : ℕ) : getMaxVarSz major answer = .ok (reported major answer) := by
  obtain ⟨info, rfl⟩ := h
  unfold reported getMaxVarSz
  by_cases hmajor : major < 2
  · simp only [if_pos hmajor]
  · simp only [if_neg hmajor]

/-- The numbered variables from `i` on hold the pieces `ps`; number 0 is not written, and no other
variable changes. -/
def WrotePieces (v : MokVar) (i : ℕ) (ps : List SignatureList) (vars vars' : Variables MokName) :
    Prop :=
  (∀ j (hj : j < ps.length), 0 < i + j →
    contents vars' (.rtNumbered v (i + j)) = (ps[j]).encode) ∧
  ∀ name, (∀ j < ps.length, 0 < i + j → name ≠ .rtNumbered v (i + j)) → vars' name = vars name

/-- Without pieces nothing is written. -/
theorem WrotePieces.nil (v : MokVar) (i : ℕ) (vars : Variables MokName) :
    WrotePieces v i [] vars vars :=
  ⟨fun _ hj => absurd hj (Nat.not_lt_zero _), fun _ _ => rfl⟩

/-- The first piece is passed over, or it was written before the others. -/
theorem WrotePieces.cons {v : MokVar} {i : ℕ} {p : SignatureList} {ps : List SignatureList}
    {vars vars₁ vars' : Variables MokName} (h : WrotePieces v (i + 1) ps vars₁ vars')
    (hfirst : 0 < i → contents vars₁ (.rtNumbered v i) = p.encode)
    (hframe : ∀ name, (0 < i → name ≠ .rtNumbered v i) → vars₁ name = vars name) :
    WrotePieces v i (p :: ps) vars vars' := by
  obtain ⟨hpieces, hothers⟩ := h
  refine ⟨fun j hj hpos => ?_, fun name hname => ?_⟩
  · cases j with
    | zero =>
      have hkept : vars' (.rtNumbered v i) = vars₁ (.rtNumbered v i) := by
        refine hothers _ fun j _ _ heq => ?_
        have := (MokName.rtNumbered.inj heq).2
        omega
      exact (contents_congr hkept).trans (hfirst hpos)
    | succ j =>
      have hat : i + (j + 1) = i + 1 + j := by omega
      rw [List.getElem_cons_succ, hat]
      exact hpieces j (Nat.lt_of_succ_lt_succ hj) (by omega)
  · have hlater : ∀ j < ps.length, 0 < i + 1 + j → name ≠ .rtNumbered v (i + 1 + j) := by
      intro j hj _
      rw [show i + 1 + j = i + (j + 1) by omega]
      exact hname (j + 1) (Nat.succ_lt_succ hj) (by omega)
    rw [hothers name hlater]
    exact hframe name fun hpos => hname 0 (Nat.succ_pos _) hpos

section Loop

variable {major : ℕ} {v : MokVar} {a : Answers} {onlyFirst : Bool} {d : Region}
  {l : SignatureList} {ls : List SignatureList} {esl eslEnd pos n : ℕ} {at' : Option (ℕ × ℕ)}
  {vars : Variables MokName}

/-- A piece is the list of the signatures that are cut off. -/
theorem AtList.mirrorOneEsl_eq (h : AtList d l ls esl eslEnd pos) (hpos : 0 < n)
    (hn : n ≤ l.sigs.length) (hsize : d.size < 2 ^ 32) (name : MokName) (fault : Fault) :
    mirrorOneEsl vars name fault d esl pos n =
      writeVariable vars name (l.take n).encode bootserviceRuntime fault := by
  have hmul := Nat.mul_le_mul_right l.size hn
  have hstop := h.stop
  have hend := h.size
  have hheader := h.header
  have hgt := l.size_gt
  have hsigs : (l.take n).sigs.length = n := List.length_take_of_le hn
  have hbytes : d.bytes pos (n * l.size) = (l.take n).sigs.flatMap SignatureData.encode :=
    (h.split hn).1.bytes (l.length_take_encode hn)
  have hfit : ¬ (2 ^ 32 - 1 - 28) / l.size < n := by
    rw [Nat.div_lt_iff_lt_mul (by omega)]
    omega
  have hcreate : variableCreateEsl (d.bytes pos (n * l.size)) n l.type l.size =
      .ok (l.take n).encode := by
    rw [variableCreateEsl, fillEsl, if_neg (by omega), if_neg hfit, hbytes, SignatureList.encode,
      SignatureList.header, SignatureList.listSize, hsigs]
    rfl
  rw [mirrorOneEsl, h.type, h.sigSize, hcreate]

/-- Where firmware writes it, the piece is all that is new. -/
theorem AtList.mirrorOneEsl_succeeds (h : AtList d l ls esl eslEnd pos) (hpos : 0 < n)
    (hn : n ≤ l.sigs.length) (hsize : d.size < 2 ^ 31) (vars : Variables MokName) (name : MokName) :
    ∃ written, mirrorOneEsl vars name none d esl pos n = (.success, written) ∧
      contents written name = (l.take n).encode ∧
      ∀ other, other ≠ name → written other = vars other := by
  have hmul := Nat.mul_le_mul_right l.size hn
  have hstop := h.stop
  have hend := h.size
  have hheader := h.header
  have hlen : (l.take n).encode.length = 28 + n * l.size := by
    rw [SignatureList.length_encode, SignatureList.listSize]
    exact congrArg (28 + · * l.size) (List.length_take_of_le hn)
  have hne : (l.take n).encode ≠ [] := by
    rw [← List.length_pos_iff]
    omega
  obtain ⟨hstatus, hcontents⟩ := @writeVariable_success _ _ vars name _
    bootserviceRuntime (.inl hne) (by omega)
  refine ⟨_, ?_, hcontents, fun other hother => writeVariable_of_ne hother _ _ _⟩
  rw [h.mirrorOneEsl_eq hpos hn (by omega), ← hstatus]

variable (major v onlyFirst vars)

/-- A turn of the loop with a list of the rest before it. -/
theorem mirrorLoop_turn (hinfo : ∀ i, ∃ info, a.info i = .ok info) {begun : Bool}
    (hstands : Stands d ⟨begun, l :: ls⟩ pos at') (hsize : d.size < 2 ^ 32)
    (hlong : minSignatureSize ≤ (Rest.mk begun (l :: ls)).length) (fuel turn i : ℕ) :
    ∃ esl eslEnd pos', pos' = pos + (if begun then 0 else 28) ∧ AtList d l ls esl eslEnd pos' ∧
      mirrorLoop major v a onlyFirst d (fuel + 1) turn i pos at' vars =
        let howmany := fitting (roomFor major v a onlyFirst turn i) l
        if howmany = 0 then
          mirrorLoop major v a onlyFirst d fuel (turn + 1) i eslEnd (some (esl, eslEnd)) vars
        else if onlyFirst = false ∧ i = 0 then
          mirrorLoop major v a onlyFirst d fuel (turn + 1) (i + 1) (pos' + howmany * l.size)
            (some (esl, eslEnd)) vars
        else
          let (efiStatus, vars) :=
            mirrorOneEsl vars (pieceName v onlyFirst i) (a.set i) d esl pos' howmany
          if efiStatus.isError then ((efiStatus, false), vars)
          else if onlyFirst then ((efiStatus, true), vars)
          else
            mirrorLoop major v a onlyFirst d fuel (turn + 1) (i + 1) (pos' + howmany * l.size)
              (some (esl, eslEnd)) vars := by
  obtain ⟨esl, eslEnd, pos', hatList, hpos', hat⟩ := hstands.atList hsize
  have hsizeEq := hstands.size_eq
  have hlong' : 65 ≤ (Rest.mk begun (l :: ls)).length := hlong
  have hle : pos' ≤ pos + 28 := by
    rw [hpos']
    split <;> omega
  -- none of the loop's tests ends it here
  have hleft : ¬ sub64 d.size pos < minSignatureSize := by
    rw [sub64_of_le (by omega) (by omega)]
    omega
  have hnotEnd : ¬ d.size ≤ pos' := by omega
  have hsig : ¬ (signatureListSize d esl = 0 ∨ signatureSize d esl = 0) := by
    rintro (h | h)
    · exact hat.listSize h
    · rw [hat.sigSize] at h
      have := l.size_gt
      omega
  have hstop := hat.stop
  have hend := hat.size
  -- what is left of the list
  have hstill : sub64 eslEnd pos' = l.sigs.length * l.size := by
    rw [sub64_of_le (by omega) (by omega)]
    omega
  refine ⟨esl, eslEnd, pos', hpos', hat, ?_⟩
  rw [mirrorLoop, if_neg hleft, hatList]
  dsimp only
  rw [if_neg hnotEnd, if_neg hsig, getMaxVarSz_eq (hinfo _), hat.sigSize, hstill]
  rfl

/-- A list without signatures takes a turn and writes nothing. -/
theorem mirrorLoop_skip (hinfo : ∀ i, ∃ info, a.info i = .ok info)
    (hstands : Stands d ⟨false, l :: ls⟩ pos at') (hsize : d.size < 2 ^ 32)
    (hlong : minSignatureSize ≤ (Rest.mk false (l :: ls)).length) (hnone : l.sigs = [])
    (fuel turn i : ℕ) :
    ∃ pos' at'', pos < pos' ∧ Stands d ⟨false, ls⟩ pos' at'' ∧
      mirrorLoop major v a onlyFirst d (fuel + 1) turn i pos at' vars =
        mirrorLoop major v a onlyFirst d fuel (turn + 1) i pos' at'' vars := by
  obtain ⟨esl, eslEnd, pos', hpos', hat, hturn⟩ := mirrorLoop_turn major v onlyFirst vars
    hinfo hstands hsize hlong fuel turn i
  have hstop := hat.stop
  have hholds := hat.holds
  rw [hnone, List.length_nil, Nat.zero_mul] at hstop
  rw [hnone, List.flatMap_nil, List.nil_append] at hholds
  refine ⟨eslEnd, some (esl, eslEnd), ?_, .fresh ?_ (hstop ▸ hholds) hat.size, ?_⟩
  · rw [if_neg Bool.false_ne_true] at hpos'
    omega
  · rintro _ ⟨⟩
    exact le_rfl
  · rw [hturn]
    exact if_pos (fitting_of_nil _ hnone)

/-- The second pass: all pieces but the first are written to the numbered variables. -/
theorem mirrorLoop_pieces (hinfo : ∀ i, ∃ info, a.info i = .ok info) (hset : ∀ i, a.set i = none)
    (hsize : d.size < 2 ^ 31) {turn i : ℕ} {rest : Rest} {ps : List SignatureList}
    (h : Pieces (roomFor major v a false) turn i rest ps) (hstands : Stands d rest pos at')
    {fuel : ℕ} (hfuel : d.size - pos < fuel) :
    WrotePieces v i ps vars (mirrorLoop major v a false d fuel turn i pos at' vars).2 := by
  induction h generalizing pos at' fuel vars with
  | stop hshort _ =>
    obtain ⟨fuel, rfl⟩ : ∃ k, fuel = k + 1 := ⟨fuel - 1, by omega⟩
    have hsizeEq := hstands.size_eq
    -- too little is left for another signature
    have hdone : sub64 d.size pos < minSignatureSize := by
      rw [sub64_of_le (by omega) (by omega)]
      omega
    rw [mirrorLoop, if_pos hdone]
    exact .nil v _ vars
  | skip hlong hnone _ ih =>
    obtain ⟨fuel, rfl⟩ : ∃ k, fuel = k + 1 := ⟨fuel - 1, by omega⟩
    obtain ⟨pos', at'', hlt, hnext, hturn⟩ := mirrorLoop_skip major v false vars hinfo
      hstands (by omega) hlong hnone fuel _ _
    have hsizeEq := hnext.size_eq
    rw [hturn]
    exact ih _ hnext (by omega)
  | @cut turn i begun l ls ps hlong hfits _ ih =>
    obtain ⟨fuel, rfl⟩ : ∃ k, fuel = k + 1 := ⟨fuel - 1, by omega⟩
    obtain ⟨esl, eslEnd, pos', hpos', hat, hturn⟩ := mirrorLoop_turn major v false vars hinfo
      hstands (by omega) hlong fuel turn i
    have hle := fitting_le (roomFor major v a false turn i) l
    have hnext := hat.leave hle
    have hsizeEq := hnext.size_eq
    have hforth : 0 < fitting (roomFor major v a false turn i) l * l.size :=
      Nat.mul_pos hfits (by have := l.size_gt; omega)
    have hfuel' : d.size - (pos' + fitting (roomFor major v a false turn i) l * l.size) < fuel := by
      omega
    rw [hturn]
    dsimp only
    rw [if_neg hfits.ne']
    -- the first piece is there from the pass before this one
    by_cases hi : i = 0
    · rw [if_pos ⟨rfl, hi⟩]
      exact (ih _ hnext hfuel').cons (fun hpos => absurd hi hpos.ne') fun _ _ => rfl
    · obtain ⟨written, hwritten, hcontents, hframe⟩ :=
        hat.mirrorOneEsl_succeeds hfits hle hsize vars (pieceName v false i)
      rw [if_neg (fun h => hi h.2), hset, hwritten]
      dsimp only
      rw [if_neg (by decide), if_neg Bool.false_ne_true]
      exact (ih _ hnext hfuel').cons (fun _ => hcontents) fun name hname =>
        hframe name (hname (Nat.pos_of_ne_zero hi))

/-- The first pass: the first piece is written to the mirror. -/
theorem mirrorLoop_firstPiece (hinfo : ∀ i, ∃ info, a.info i = .ok info)
    (hset : ∀ i, a.set i = none) (hsize : d.size < 2 ^ 31) {turn : ℕ} {p : SignatureList}
    (h : FirstPiece (fun turn => roomFor major v a true turn 0) turn ls p)
    (hstands : Stands d ⟨false, ls⟩ pos at') {fuel : ℕ} (hfuel : d.size - pos < fuel) :
    ∃ written, mirrorLoop major v a true d fuel turn 0 pos at' vars =
        ((.success, true), written) ∧
      contents written (.rt v) = p.encode ∧ ∀ name, name ≠ .rt v → written name = vars name := by
  induction h generalizing pos at' fuel with
  | skip hlong hnone _ ih =>
    obtain ⟨fuel, rfl⟩ : ∃ k, fuel = k + 1 := ⟨fuel - 1, by omega⟩
    obtain ⟨pos', at'', hlt, hnext, hturn⟩ := mirrorLoop_skip major v true vars hinfo
      hstands (by omega) hlong hnone fuel _ _
    have hsizeEq := hnext.size_eq
    rw [hturn]
    exact ih hnext (by omega)
  | @cut turn l ls hlong hfits =>
    obtain ⟨fuel, rfl⟩ : ∃ k, fuel = k + 1 := ⟨fuel - 1, by omega⟩
    obtain ⟨esl, eslEnd, pos', hpos', hat, hturn⟩ := mirrorLoop_turn major v true vars hinfo
      hstands (by omega) hlong fuel turn 0
    have hle := fitting_le (roomFor major v a true turn 0) l
    obtain ⟨written, hwritten, hcontents, hframe⟩ :=
      hat.mirrorOneEsl_succeeds hfits hle hsize vars (pieceName v true 0)
    refine ⟨written, ?_, hcontents, hframe⟩
    rw [hturn]
    dsimp only
    rw [if_neg hfits.ne', if_neg fun h => Bool.false_ne_true h.1.symm, hset, hwritten]
    rfl

end Loop

/-! ## The two passes over a database -/

section Passes

variable {major : ℕ} {v : MokVar} {a : Answers} {ls : List SignatureList} {vars : Variables MokName}

/-- The walk stands at the first list at first. -/
theorem stands_ofList (ls : List SignatureList) :
    Stands (Region.ofList 0 (encodeDb ls)) ⟨false, ls⟩ 0 none := by
  refine .fresh (fun _ he => nomatch he) ?_ (Nat.zero_add _).symm
  simpa using Region.holdsAt_ofList 0 [] (encodeDb ls) []

variable (v vars)

/-- The first pass over a database that fits writes all of it to the mirror. -/
theorem mirrorMokDb_whole_first (hinfo : ∀ i, ∃ info, a.info i = .ok info)
    (hset : ∀ i, a.set i = none) (hne : encodeDb ls ≠ []) (hsize : (encodeDb ls).length < 2 ^ 31)
    (hfits : (encodeDb ls).length ≤ reported major (a.info 0)) :
    let written := (mirrorMokDb major v a (encodeDb ls) true vars).2
    contents written (.rt v) = encodeDb ls ∧ ∀ name, name ≠ .rt v → written name = vars name := by
  intro written
  have hwritten : written =
      (writeVariable vars (.rt v) (encodeDb ls) bootserviceRuntime none).2 := by
    simp only [written, mirrorMokDb, getMaxVarSz_eq (hinfo 0), if_pos hfits, mirrorDirect, hset,
      if_true]
  rw [hwritten]
  exact ⟨(writeVariable_success bootserviceRuntime (.inl hne) hsize).2,
    fun name hname => writeVariable_of_ne hname _ _ _⟩

/-- The second pass over a database that fits has nothing to do. -/
theorem mirrorMokDb_whole_second (hinfo : ∀ i, ∃ info, a.info i = .ok info)
    (hfits : (encodeDb ls).length ≤ reported major (a.info 0)) :
    (mirrorMokDb major v a (encodeDb ls) false vars).2 = vars := by
  rw [mirrorMokDb, getMaxVarSz_eq (hinfo 0)]
  dsimp only
  rw [if_pos hfits]
  rfl

/-- The first pass over a database that does not fit writes its first piece to the mirror. -/
theorem mirrorMokDb_cut_first (hinfo : ∀ i, ∃ info, a.info i = .ok info)
    (hset : ∀ i, a.set i = none) (hsize : (encodeDb ls).length < 2 ^ 31)
    (hlong : reported major (a.info 0) < (encodeDb ls).length) {p : SignatureList}
    (h : FirstPiece (fun turn => roomFor major v a true turn 0) 0 ls p) :
    let written := (mirrorMokDb major v a (encodeDb ls) true vars).2
    contents written (.rt v) = p.encode ∧ ∀ name, name ≠ .rt v → written name = vars name := by
  intro written
  obtain ⟨vars', hloop, hcontents, hframe⟩ := mirrorLoop_firstPiece major v vars hinfo hset
    hsize h (stands_ofList ls) (Nat.lt_add_one (encodeDb ls).length)
  have hwritten : written = vars' := by
    simp only [written, mirrorMokDb, getMaxVarSz_eq (hinfo 0), if_neg (Nat.not_le.mpr hlong),
      mirrorSplit, hloop]
    rfl
  rw [hwritten]
  exact ⟨hcontents, hframe⟩

/-- Whatever the loop of the second pass answers, nothing is written after it. -/
theorem mirrorSplit_second (fullData : List UInt8) (vars : Variables MokName) :
    (mirrorSplit major v a fullData false vars).2 =
      (mirrorLoop major v a false (Region.ofList 0 fullData) (fullData.length + 1) 0 0 0 none
        vars).2 := by
  have hafter : ∀ (looped : (EfiStatus × Bool) × Variables MokName) dummy,
      (if looped.1.1.isError then (looped.1.1, looped.2)
        else if false && !looped.1.2 then dummy else (looped.1.1, looped.2)).2 = looped.2 := by
    intro looped dummy
    by_cases hstatus : looped.1.1.isError = true
    · rw [if_pos hstatus]
    · rw [if_neg hstatus, Bool.false_and, if_neg Bool.false_ne_true]
  unfold mirrorSplit
  exact hafter _ _

/-- The second pass over a database that does not fit writes its other pieces. -/
theorem mirrorMokDb_cut_second (hinfo : ∀ i, ∃ info, a.info i = .ok info)
    (hset : ∀ i, a.set i = none) (hsize : (encodeDb ls).length < 2 ^ 31)
    (hlong : reported major (a.info 0) < (encodeDb ls).length) {ps : List SignatureList}
    (h : Pieces (roomFor major v a false) 0 0 ⟨false, ls⟩ ps) :
    WrotePieces v 0 ps vars (mirrorMokDb major v a (encodeDb ls) false vars).2 := by
  have hloop := mirrorLoop_pieces major v vars hinfo hset hsize h (stands_ofList ls)
    (Nat.lt_add_one (encodeDb ls).length)
  have hwritten : mirrorMokDb major v a (encodeDb ls) false vars =
      mirrorSplit major v a (encodeDb ls) false vars := by
    simp only [mirrorMokDb, getMaxVarSz_eq (hinfo 0), if_neg (Nat.not_le.mpr hlong)]
  rw [hwritten, mirrorSplit_second]
  exact hloop

end Passes

end Mok

end Shim
