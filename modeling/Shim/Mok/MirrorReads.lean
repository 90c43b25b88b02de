import Shim.Common.Event
import Shim.Common.Loop
import Shim.Mok.MirrorDb

/-! # Splitting a database that is anything

The loop of `mirror_mok_db` (mok.c:404-463) over any bytes, turn by turn: what a turn reads and
subtracts, and the chunk it hands to `mirror_one_esl`. Behind the data lies whatever lies there. The
sizes in a list are taken as they come, so the loop does no harm only where they fit the data.
-/

namespace Shim.Mok

open Bytes (sub64 sub64_of_le)
open Event (Inside AllSound)

/-- `FullData`: any bytes in memory. -/
structure FullData extends Region where
  size_lt : size < 2 ^ 63

/-! ## The turns -/

/-- Where the loop stands: the turns so far, `i`, `pos`, `esl` with `esl_end_pos`, and the variables
of the firmware. -/
structure MirrorState where
  turn : ℕ
  i : ℕ
  pos : ℕ
  list : Option (ℕ × ℕ)
  vars : Variables MokName

/-- What `mirror_one_esl` is given of a list, and how much of that it copies. -/
structure Chunk where
  esl : ℕ
  eslEnd : ℕ
  start : ℕ
  copied : ℕ

/-- What is copied lies inside of the list and of the data. -/
def Chunk.Sound (size : ℕ) (c : Chunk) : Prop :=
  c.copied = 0 ∨
    c.esl + 28 ≤ c.start ∧ c.start + c.copied ≤ c.eslEnd ∧ c.start + c.copied ≤ size

/-- What a turn does. -/
structure MirrorTurn where
  events : List Event
  chunk : Option Chunk

/-- Nothing that the turn does goes wrong. -/
structure MirrorTurn.Sound (size : ℕ) (t : MirrorTurn) : Prop where
  events : AllSound size t.events
  chunk : ∀ c, t.chunk = some c → c.Sound size

/-- The size of a list is read where the loop comes to the list. -/
def arrival (pos : ℕ) : Option (ℕ × ℕ) → List Event
  | some (_, eslEnd) => if eslEnd ≤ pos then [.read (pos + 16) 4] else []
  | none => [.read (pos + 16) 4]

/-- The bytes that `mirror_one_esl` copies: none if `fill_esl` turns the call down. -/
def copied (d : Region) (esl esd howmany : ℕ) : ℕ :=
  match variableCreateEsl (d.bytes esd (howmany * signatureSize d esl)) howmany
      (signatureType d esl) (signatureSize d esl) with
  | .error _ => 0
  | .ok _ => howmany * signatureSize d esl

section Turn

variable (major : ℕ) (v : MokVar) (a : Answers) (onlyFirst : Bool) (d : Region)

/-- What is left of a variable for the signatures and their list header. -/
def roomLeft (s : MirrorState) (maxVarSz : ℕ) : ℕ :=
  lessName maxVarSz (pieceName v onlyFirst s.i).size

/-- `howmany`. -/
def taken (s : MirrorState) (esl eslEnd pos maxVarSz : ℕ) : ℕ :=
  howManyFit (roomLeft v onlyFirst s maxVarSz) (signatureSize d esl) (sub64 eslEnd pos)

/-- What is subtracted and divided for `howmany`. -/
def fitEvents (room sigSize eslEnd pos : ℕ) : List Event :=
  if 28 < room then [.subtract room 28, .subtract eslEnd pos, .divide sigSize] else []

/-- The rest of a turn, with signatures to come at `pos` in the list at `esl`; `before` is what the
turn has done so far. -/
def takeChunk (s : MirrorState) (esl eslEnd pos maxVarSz : ℕ) (before : List Event) :
    MirrorTurn × (MirrorState ⊕ (EfiStatus × Bool) × Variables MokName) :=
  let howmany := taken v onlyFirst d s esl eslEnd pos maxVarSz
  let events := before ++
    fitEvents (roomLeft v onlyFirst s maxVarSz) (signatureSize d esl) eslEnd pos
  let behind := (pos + howmany * signatureSize d esl) % 2 ^ 64
  if howmany = 0 then
    (⟨events, none⟩, .inl ⟨s.turn + 1, s.i, eslEnd, some (esl, eslEnd), s.vars⟩)
  else if onlyFirst = false ∧ s.i = 0 then
    (⟨events, none⟩, .inl ⟨s.turn + 1, s.i + 1, behind, some (esl, eslEnd), s.vars⟩)
  else
    let n := copied d esl pos howmany
    let turn : MirrorTurn := ⟨events ++ [.read esl 16, .read pos n], some ⟨esl, eslEnd, pos, n⟩⟩
    let (efiStatus, vars) :=
      mirrorOneEsl s.vars (pieceName v onlyFirst s.i) (a.set s.i) d esl pos howmany
    if efiStatus.isError then (turn, .inr ((efiStatus, false), vars))
    else if onlyFirst then (turn, .inr ((efiStatus, true), vars))
    else (turn, .inl ⟨s.turn + 1, s.i + 1, behind, some (esl, eslEnd), vars⟩)

/-- A turn of the loop: what it does, and where it goes on or what it ends with. -/
def mirrorTurn (s : MirrorState) :
    MirrorTurn × (MirrorState ⊕ (EfiStatus × Bool) × Variables MokName) :=
  let check := [.subtract d.size s.pos]
  if sub64 d.size s.pos < minSignatureSize then (⟨check, none⟩, .inr ((.success, false), s.vars))
  else
    let (esl, eslEnd, pos) := atList d s.pos s.list
    let came := check ++ arrival s.pos s.list
    if d.size ≤ pos then (⟨came, none⟩, .inr ((.success, false), s.vars))
    else
      let sizes := came ++ [.read (esl + 16) 4, .read (esl + 24) 4]
      if signatureListSize d esl = 0 ∨ signatureSize d esl = 0 then
        (⟨sizes, none⟩, .inr ((.success, false), s.vars))
      else match getMaxVarSz major (a.info (s.turn + 1)) with
        | .error e => (⟨sizes, none⟩, .inr ((e, false), s.vars))
        | .ok maxVarSz => takeChunk v a onlyFirst d s esl eslEnd pos maxVarSz sizes

/-- The loop starts at the first byte. -/
def MirrorState.first (vars : Variables MokName) : MirrorState := ⟨0, 0, 0, none, vars⟩

/-- The loop ends, and no turn of it does any harm. -/
def MirrorsSafely (vars : Variables MokName) : Prop :=
  Loop.EndsWith (mirrorTurn major v a onlyFirst d) (MirrorTurn.Sound d.size) (.first vars)

/-! ## When it is met -/

/-- The loop gets to taking signatures from the list at `esl`, with `maxVarSz` as the firmware's
answer. -/
structure ListEntered (s : MirrorState) (esl eslEnd pos maxVarSz : ℕ) : Prop where
  left : s.pos + minSignatureSize ≤ d.size
  atList : atList d s.pos s.list = (esl, eslEnd, pos)
  lt : pos < d.size
  listSize : signatureListSize d esl ≠ 0
  sigSize : signatureSize d esl ≠ 0
  query : getMaxVarSz major (a.info (s.turn + 1)) = .ok maxVarSz

/-- A list from which signatures are taken: the signatures begin before its end; if none are taken,
the list ends in the data; else those that are taken end in the data. -/
structure ChunkFits (room esl eslEnd pos : ℕ) : Prop where
  header : 28 < room → pos ≤ eslEnd
  skipped : howManyFit room (signatureSize d esl) (eslEnd - pos) = 0 → eslEnd ≤ d.size
  taken : howManyFit room (signatureSize d esl) (eslEnd - pos) ≠ 0 →
    pos + howManyFit room (signatureSize d esl) (eslEnd - pos) * signatureSize d esl ≤ d.size

/-- What a turn takes fits. -/
def TurnFits (s : MirrorState) : Prop :=
  ∀ esl eslEnd pos maxVarSz, ListEntered major a d s esl eslEnd pos maxVarSz →
    ChunkFits d (roomLeft v onlyFirst s maxVarSz) esl eslEnd pos

end Turn

/-! ## A turn -/

section OneTurn

variable {major : ℕ} {v : MokVar} {a : Answers} {onlyFirst : Bool} {d : Region} {s : MirrorState}
  {esl eslEnd pos maxVarSz : ℕ} {before : List Event}

/-- Where a loop without harm stands: in the data, and behind the header of the list at hand. -/
structure MirrorInv (d : Region) (s : MirrorState) : Prop where
  le : s.pos ≤ d.size
  list : ∀ esl eslEnd, s.list = some (esl, eslEnd) → s.pos < eslEnd →
    esl + 28 ≤ s.pos ∧ eslEnd = esl + signatureListSize d esl

/-- The list that a turn from `pos₀` on is at. -/
structure CameTo (d : Region) (pos₀ esl eslEnd pos : ℕ) : Prop where
  header : esl + 28 ≤ pos
  size : esl + 28 ≤ d.size
  le : pos₀ ≤ pos
  ends : eslEnd = esl + signatureListSize d esl
  ahead : signatureListSize d esl ≠ 0 → pos₀ < eslEnd

/-- The invariant holds at first. -/
theorem MirrorInv.first (d : Region) (vars : Variables MokName) : MirrorInv d (.first vars) :=
  ⟨Nat.zero_le _, fun _ _ h => nomatch h⟩

/-- A turn goes on with the list at hand, or comes to the next one. -/
theorem MirrorInv.cameTo (h : MirrorInv d s) (hleft : s.pos + minSignatureSize ≤ d.size)
    (hat : atList d s.pos s.list = (esl, eslEnd, pos)) :
    CameTo d s.pos esl eslEnd pos ∧ AllSound d.size (arrival s.pos s.list) := by
  have hleft : s.pos + 65 ≤ d.size := hleft
  have hread : AllSound d.size [.read (s.pos + 16) 4] :=
    Event.allSound_cons.mpr ⟨.inr (by omega), Event.allSound_nil⟩
  have hnew : CameTo d s.pos s.pos (s.pos + signatureListSize d s.pos) (s.pos + 28) :=
    ⟨le_rfl, by omega, by omega, rfl, fun hne => by omega⟩
  cases hlist : s.list with
  | none =>
    rw [hlist, atList] at hat
    cases hat
    exact ⟨hnew, hread⟩
  | some l =>
    rw [hlist, atList] at hat
    rw [arrival]
    by_cases hle : l.2 ≤ s.pos
    · rw [if_pos hle] at hat ⊢
      cases hat
      exact ⟨hnew, hread⟩
    · rw [if_neg hle] at hat ⊢
      cases hat
      obtain ⟨hheader, heslEnd⟩ := h.list _ _ hlist (by omega)
      exact ⟨⟨hheader, by omega, le_rfl, heslEnd, fun _ => by omega⟩, Event.allSound_nil⟩

/-- What is still to come of a list, if it is not exceeded. -/
theorem taken_eq (h : 28 < roomLeft v onlyFirst s maxVarSz → pos ≤ eslEnd) (hlt : eslEnd < 2 ^ 64) :
    taken v onlyFirst d s esl eslEnd pos maxVarSz =
      howManyFit (roomLeft v onlyFirst s maxVarSz) (signatureSize d esl) (eslEnd - pos) := by
  by_cases hroom : 28 < roomLeft v onlyFirst s maxVarSz
  · rw [taken, sub64_of_le (h hroom) hlt]
  · rw [taken, howManyFit, howManyFit, if_neg hroom, if_neg hroom]

/-- What fits is no more than what is left. -/
theorem howManyFit_mul_le (room sigSize left : ℕ) :
    howManyFit room sigSize left * sigSize ≤ left := by
  unfold howManyFit
  split
  · exact (Nat.mul_le_mul_right _ (min_le_right _ _)).trans (Nat.div_mul_le_self _ _)
  · rw [Nat.zero_mul]
    exact Nat.zero_le _

/-- `fill_esl` takes what fits a list. -/
theorem copied_eq (pos : ℕ) {howmany : ℕ} (hhowmany : howmany ≠ 0) (hsize : signatureSize d esl ≠ 0)
    (hle : howmany * signatureSize d esl ≤ 2 ^ 32 - 1 - 28) :
    copied d esl pos howmany = howmany * signatureSize d esl := by
  have hfits : ¬ (2 ^ 32 - 1 - 28) / signatureSize d esl < howmany := by
    rw [not_lt, Nat.le_div_iff_mul_le (Nat.pos_of_ne_zero hsize)]
    exact hle
  rw [copied, variableCreateEsl, fillEsl, if_neg (by tauto), if_neg hfits]

/-- A piece is not too long for the test of `fill_esl`. -/
theorem CameTo.chunk_le (h : CameTo d s.pos esl eslEnd pos) (room : ℕ) :
    howManyFit room (signatureSize d esl) (eslEnd - pos) * signatureSize d esl ≤
      2 ^ 32 - 1 - 28 := by
  have hmul := howManyFit_mul_le room (signatureSize d esl) (eslEnd - pos)
  have hlt : signatureListSize d esl < 2 ^ 32 := d.u32_lt _
  have hheader := h.header
  have hends := h.ends
  omega

/-- The search for how many fit is sound unless it is behind the end. -/
theorem allSound_fitEvents (size : ℕ) {room sigSize : ℕ} (hsigSize : sigSize ≠ 0) :
    AllSound size (fitEvents room sigSize eslEnd pos) ↔ (28 < room → pos ≤ eslEnd) := by
  unfold fitEvents
  by_cases hroom : 28 < room
  · rw [if_pos hroom]
    simp [hroom, hroom.le, hsigSize]
  · rw [if_neg hroom]
    exact iff_of_true Event.allSound_nil fun h => absurd h hroom

section TakeChunk

/-- A chunk is handed over unless there is none, or it is the one the first pass has written. -/
theorem takeChunk_fst : (takeChunk v a onlyFirst d s esl eslEnd pos maxVarSz before).1 =
    let events := before ++
      fitEvents (roomLeft v onlyFirst s maxVarSz) (signatureSize d esl) eslEnd pos
    let n := copied d esl pos (taken v onlyFirst d s esl eslEnd pos maxVarSz)
    if taken v onlyFirst d s esl eslEnd pos maxVarSz = 0 ∨ onlyFirst = false ∧ s.i = 0 then
      ⟨events, none⟩
    else ⟨events ++ [.read esl 16, .read pos n], some ⟨esl, eslEnd, pos, n⟩⟩ := by
  unfold takeChunk
  dsimp only
  by_cases hnone : taken v onlyFirst d s esl eslEnd pos maxVarSz = 0
  · rw [if_pos hnone, if_pos (.inl hnone)]
  rw [if_neg hnone]
  by_cases hfirst : onlyFirst = false ∧ s.i = 0
  · rw [if_pos hfirst, if_pos (.inr hfirst)]
  · rw [if_neg hfirst, if_neg (not_or_intro hnone hfirst)]
    split_ifs <;> rfl

/-- Where the loop goes on, it has left out the list or taken the chunk. -/
theorem takeChunk_next {s' : MirrorState}
    (h : (takeChunk v a onlyFirst d s esl eslEnd pos maxVarSz before).2 = .inl s') :
    s'.list = some (esl, eslEnd) ∧ s'.pos =
      if taken v onlyFirst d s esl eslEnd pos maxVarSz = 0 then eslEnd
      else
        (pos + taken v onlyFirst d s esl eslEnd pos maxVarSz * signatureSize d esl) % 2 ^ 64 := by
  unfold takeChunk at h
  dsimp only at h
  by_cases hnone : taken v onlyFirst d s esl eslEnd pos maxVarSz = 0
  · rw [if_pos hnone] at h ⊢
    obtain rfl := Sum.inl.inj h
    exact ⟨rfl, rfl⟩
  · rw [if_neg hnone] at h ⊢
    split_ifs at h
    · obtain rfl := Sum.inl.inj h
      exact ⟨rfl, rfl⟩
    · obtain rfl := Sum.inl.inj h
      exact ⟨rfl, rfl⟩

/-- Where no chunk is handed over, the loop goes on. -/
theorem exists_takeChunk_next (a : Answers) (before : List Event)
    (h : taken v onlyFirst d s esl eslEnd pos maxVarSz = 0 ∨ onlyFirst = false ∧ s.i = 0) :
    ∃ s', (takeChunk v a onlyFirst d s esl eslEnd pos maxVarSz before).2 = .inl s' := by
  unfold takeChunk
  dsimp only
  by_cases hnone : taken v onlyFirst d s esl eslEnd pos maxVarSz = 0
  · rw [if_pos hnone]
    exact ⟨_, rfl⟩
  · rw [if_neg hnone, if_pos (h.resolve_left hnone)]
    exact ⟨_, rfl⟩

/-- A chunk that fits does no harm, and the loop gets ahead. -/
theorem CameTo.takeChunk_sound (h : CameTo d s.pos esl eslEnd pos) (hsize : d.size < 2 ^ 63)
    (hlist : signatureListSize d esl ≠ 0) (hsig : signatureSize d esl ≠ 0)
    (hbefore : AllSound d.size before)
    (hfits : ChunkFits d (roomLeft v onlyFirst s maxVarSz) esl eslEnd pos) :
    (takeChunk v a onlyFirst d s esl eslEnd pos maxVarSz before).1.Sound d.size ∧
      ∀ s', (takeChunk v a onlyFirst d s esl eslEnd pos maxVarSz before).2 = .inl s' →
        MirrorInv d s' ∧ s.pos < s'.pos := by
  obtain ⟨hheader, hskipped, htaken⟩ := hfits
  have hends := h.ends
  have hlt : signatureListSize d esl < 2 ^ 32 := d.u32_lt _
  have hesl := h.header
  have heslSize := h.size
  have hchunk := h.chunk_le (roomLeft v onlyFirst s maxVarSz)
  have hmul := howManyFit_mul_le (roomLeft v onlyFirst s maxVarSz) (signatureSize d esl)
    (eslEnd - pos)
  have hevents := Event.allSound_append.mpr ⟨hbefore, (allSound_fitEvents _ hsig).mpr hheader⟩
  rw [← taken_eq hheader (by omega)] at hskipped htaken hchunk hmul
  have hpos : taken v onlyFirst d s esl eslEnd pos maxVarSz ≠ 0 →
      0 < taken v onlyFirst d s esl eslEnd pos maxVarSz * signatureSize d esl := fun hsome =>
    Nat.mul_pos (Nat.pos_of_ne_zero hsome) (Nat.pos_of_ne_zero hsig)
  constructor
  -- the reads of the turn
  · rw [takeChunk_fst]
    dsimp only
    by_cases hhanded :
        taken v onlyFirst d s esl eslEnd pos maxVarSz = 0 ∨ onlyFirst = false ∧ s.i = 0
    · rw [if_pos hhanded]
      exact ⟨hevents, fun c hc => nomatch hc⟩
    · obtain ⟨hsome, -⟩ := not_or.mp hhanded
      have hbehind := htaken hsome
      have hforth := hpos hsome
      rw [if_neg hhanded, copied_eq _ hsome hsig hchunk]
      constructor
      · refine Event.allSound_append.mpr ⟨hevents, ?_⟩
        simp only [Event.allSound_cons, Event.sound_read]
        exact ⟨.inr (by omega), .inr hbehind, Event.allSound_nil⟩
      · rintro _ ⟨⟩
        exact .inr ⟨hesl, by dsimp only; omega, hbehind⟩
  -- the state behind it
  · intro s' hs'
    obtain ⟨hlist', hpos'⟩ := takeChunk_next hs'
    have hle := h.le
    have hahead := h.ahead hlist
    have hinv : s'.pos ≤ d.size → eslEnd ≤ s'.pos ∨ esl + 28 ≤ s'.pos → MirrorInv d s' := by
      refine fun hle hat => ⟨hle, fun esl' eslEnd' hcons hmore => ?_⟩
      rw [hlist'] at hcons
      cases hcons
      exact ⟨hat.resolve_left (by omega), hends⟩
    by_cases hnone : taken v onlyFirst d s esl eslEnd pos maxVarSz = 0
    · have hend := hskipped hnone
      rw [if_pos hnone] at hpos'
      exact ⟨hinv (by omega) (.inl hpos'.ge), by omega⟩
    · have hbehind := htaken hnone
      have hforth := hpos hnone
      rw [if_neg hnone, Nat.mod_eq_of_lt (by omega)] at hpos'
      exact ⟨hinv (by omega) (.inr (by omega)), by omega⟩

/-- A turn that does no harm, and does not leave the data, takes a chunk that fits. -/
theorem CameTo.chunkFits (h : CameTo d s.pos esl eslEnd pos) (hsize : d.size < 2 ^ 63)
    (hlt : pos < d.size) (hsig : signatureSize d esl ≠ 0)
    (hsound : (takeChunk v a onlyFirst d s esl eslEnd pos maxVarSz before).1.Sound d.size)
    (hnext : ∀ s', (takeChunk v a onlyFirst d s esl eslEnd pos maxVarSz before).2 = .inl s' →
      s'.pos ≤ d.size) :
    ChunkFits d (roomLeft v onlyFirst s maxVarSz) esl eslEnd pos := by
  have hlist : signatureListSize d esl < 2 ^ 32 := d.u32_lt _
  have hends := h.ends
  have heslSize := h.size
  rw [takeChunk_fst] at hsound
  dsimp only at hsound
  -- the room is computed from the end of the list, so it must not be passed
  have hheader : 28 < roomLeft v onlyFirst s maxVarSz → pos ≤ eslEnd := by
    rw [← allSound_fitEvents d.size hsig]
    have hevents := hsound.events
    split at hevents
    · exact (Event.allSound_append.mp hevents).2
    · exact (Event.allSound_append.mp (Event.allSound_append.mp hevents).1).2
  have hchunk := h.chunk_le (roomLeft v onlyFirst s maxVarSz)
  have hmul := howManyFit_mul_le (roomLeft v onlyFirst s maxVarSz) (signatureSize d esl)
    (eslEnd - pos)
  refine ⟨hheader, ?_, ?_⟩
  all_goals rw [← taken_eq hheader (by omega)] at hchunk hmul ⊢
  · intro hnone
    -- nothing fits: the walk goes to the end of the list
    obtain ⟨s', hs'⟩ := exists_takeChunk_next a before (.inl hnone)
    have hpos' := (takeChunk_next hs').2
    rw [if_pos hnone] at hpos'
    exact hpos' ▸ hnext s' hs'
  · intro hsome
    by_cases hfirst : onlyFirst = false ∧ s.i = 0
    · obtain ⟨s', hs'⟩ := exists_takeChunk_next a before (.inr hfirst)
      have hpos' := (takeChunk_next hs').2
      rw [if_neg hsome, Nat.mod_eq_of_lt (by omega)] at hpos'
      exact hpos' ▸ hnext s' hs'
    -- the signatures were handed over, so they were read
    · have hhanded := not_or_intro hsome hfirst
      have hcopied := copied_eq pos hsome hsig hchunk
      rw [if_neg hhanded, hcopied] at hsound
      have hforth := Nat.mul_pos (Nat.pos_of_ne_zero hsome) (Nat.pos_of_ne_zero hsig)
      rcases hsound.chunk _ rfl with hzero | ⟨-, -, hle⟩
      · exact absurd hzero hforth.ne'
      · exact hle

end TakeChunk

/-- A turn starts with the comparison of what is left. -/
theorem le_of_mirrorTurn_sound (h : (mirrorTurn major v a onlyFirst d s).1.Sound d.size) :
    s.pos ≤ d.size := by
  -- a turn starts with this subtraction, whichever way it goes
  suffices ∃ rest, (mirrorTurn major v a onlyFirst d s).1.events = .subtract d.size s.pos :: rest by
    obtain ⟨rest, hevents⟩ := this
    have hsound := h.events
    rw [hevents, Event.allSound_cons] at hsound
    exact hsound.1
  unfold mirrorTurn
  by_cases hleft : sub64 d.size s.pos < minSignatureSize
  · rw [if_pos hleft]
    exact ⟨_, rfl⟩
  rw [if_neg hleft]
  obtain ⟨esl, eslEnd, pos⟩ := atList d s.pos s.list
  dsimp only
  by_cases hend : d.size ≤ pos
  · rw [if_pos hend]
    exact ⟨_, rfl⟩
  rw [if_neg hend]
  by_cases hsizes : signatureListSize d esl = 0 ∨ signatureSize d esl = 0
  · rw [if_pos hsizes]
    exact ⟨_, rfl⟩
  rw [if_neg hsizes]
  cases getMaxVarSz major (a.info (s.turn + 1)) with
  | error e => exact ⟨_, rfl⟩
  | ok maxVarSz =>
    dsimp only
    rw [takeChunk_fst]
    dsimp only
    split
    · exact ⟨_, rfl⟩
    · exact ⟨_, rfl⟩

/-- A turn from the data on either takes a chunk, or is the last one. -/
theorem MirrorInv.turn (major : ℕ) (v : MokVar) (a : Answers) (onlyFirst : Bool)
    (h : MirrorInv d s) (hsize : d.size < 2 ^ 63) :
    (∃ esl eslEnd pos maxVarSz before, ListEntered major a d s esl eslEnd pos maxVarSz ∧
      CameTo d s.pos esl eslEnd pos ∧ AllSound d.size before ∧
      mirrorTurn major v a onlyFirst d s =
        takeChunk v a onlyFirst d s esl eslEnd pos maxVarSz before) ∨
    (∀ esl eslEnd pos maxVarSz, ¬ ListEntered major a d s esl eslEnd pos maxVarSz) ∧
      (mirrorTurn major v a onlyFirst d s).1.Sound d.size ∧
      ∃ r, (mirrorTurn major v a onlyFirst d s).2 = .inr r := by
  have hsub : sub64 d.size s.pos = d.size - s.pos := sub64_of_le h.le (by omega)
  have hcheck : AllSound d.size [.subtract d.size s.pos] :=
    Event.allSound_cons.mpr ⟨h.le, Event.allSound_nil⟩
  unfold mirrorTurn
  -- too little is left for another signature
  by_cases hleft : sub64 d.size s.pos < minSignatureSize
  · rw [if_pos hleft]
    refine .inr ⟨fun esl eslEnd pos maxVarSz he => ?_, ⟨hcheck, by rintro _ ⟨⟩⟩, _, rfl⟩
    have := he.left
    omega
  rw [if_neg hleft]
  have hle := h.le
  obtain ⟨⟨esl, eslEnd, pos⟩, hat⟩ : ∃ at', atList d s.pos s.list = at' := ⟨_, rfl⟩
  obtain ⟨hcame, harrival⟩ := h.cameTo (by omega) hat
  have hesl := hcame.size
  have hsound := Event.allSound_append.mpr ⟨hcheck, harrival⟩
  have hentered : ∀ {esl' eslEnd' pos' maxVarSz},
      ListEntered major a d s esl' eslEnd' pos' maxVarSz →
        (esl', eslEnd', pos') = (esl, eslEnd, pos) := fun he => he.atList.symm.trans hat
  rw [hat]
  dsimp only
  -- the walk is at the end of the data
  by_cases hend : d.size ≤ pos
  · rw [if_pos hend]
    refine .inr ⟨fun _ _ _ _ he => ?_, ⟨hsound, by rintro _ ⟨⟩⟩, _, rfl⟩
    cases hentered he
    exact absurd he.lt (not_lt.mpr hend)
  rw [if_neg hend]
  have hreads : AllSound d.size [.read (esl + 16) 4, .read (esl + 24) 4] := by
    simp only [Event.allSound_cons, Event.sound_read]
    exact ⟨.inr (by omega), .inr (by omega), Event.allSound_nil⟩
  have hbefore := Event.allSound_append.mpr ⟨hsound, hreads⟩
  -- a list without a size is not gone into
  by_cases hsizes : signatureListSize d esl = 0 ∨ signatureSize d esl = 0
  · rw [if_pos hsizes]
    refine .inr ⟨fun _ _ _ _ he => ?_, ⟨hbefore, by rintro _ ⟨⟩⟩, _, rfl⟩
    cases hentered he
    exact hsizes.elim he.listSize he.sigSize
  rw [if_neg hsizes]
  cases hquery : getMaxVarSz major (a.info (s.turn + 1)) with
  | error e =>
    refine .inr ⟨fun _ _ _ _ he => ?_, ⟨hbefore, by rintro _ ⟨⟩⟩, _, rfl⟩
    have := hquery.symm.trans he.query
    cases this
  | ok maxVarSz =>
    obtain ⟨hlist, hsig⟩ := not_or.mp hsizes
    exact .inl ⟨esl, eslEnd, pos, maxVarSz, _,
      ⟨by omega, hat, not_le.mp hend, hlist, hsig, hquery⟩, hcame, hbefore, rfl⟩

/-- A turn that takes what fits does no harm, and the loop gets ahead in the data. -/
theorem MirrorInv.next (h : MirrorInv d s) (hsize : d.size < 2 ^ 63)
    (hfits : TurnFits major v a onlyFirst d s) :
    (mirrorTurn major v a onlyFirst d s).1.Sound d.size ∧
      ∀ s', Loop.Next (mirrorTurn major v a onlyFirst d) s s' →
        MirrorInv d s' ∧ s.pos < s'.pos := by
  rcases h.turn major v a onlyFirst hsize with
    ⟨esl, eslEnd, pos, maxVarSz, before, hentered, hcame, hbefore, hturn⟩ | ⟨-, hsound, r, hlast⟩
  · unfold Loop.Next
    rw [hturn]
    exact hcame.takeChunk_sound hsize hentered.listSize hentered.sigSize hbefore
      (hfits _ _ _ _ hentered)
  · refine ⟨hsound, fun s' hnext => ?_⟩
    have := hlast.symm.trans hnext
    cases this

/-- A turn that does no harm takes what fits, if the next one does no harm either. -/
theorem MirrorInv.turnFits (h : MirrorInv d s) (hsize : d.size < 2 ^ 63)
    (hsound : (mirrorTurn major v a onlyFirst d s).1.Sound d.size)
    (hnext : ∀ s', Loop.Next (mirrorTurn major v a onlyFirst d) s s' →
      (mirrorTurn major v a onlyFirst d s').1.Sound d.size) :
    TurnFits major v a onlyFirst d s := by
  intro esl eslEnd pos maxVarSz hentered
  rcases h.turn major v a onlyFirst hsize with
    ⟨esl', eslEnd', pos', maxVarSz', before, hentered', hcame, hbefore, hturn⟩ | ⟨hnot, -, -⟩
  · cases hentered.atList.symm.trans hentered'.atList
    cases hentered.query.symm.trans hentered'.query
    unfold Loop.Next at hnext
    rw [hturn] at hsound hnext
    exact hcame.chunkFits hsize hentered.lt hentered.sigSize hsound fun s' hs' =>
      le_of_mirrorTurn_sound (hnext s' hs')
  · exact absurd hentered (hnot _ _ _ _)

/-- A turn is one of the loop of the model that leaves out what it reads. -/
theorem mirrorLoop_of_mirrorTurn (h : MirrorInv d s) (hsize : d.size < 2 ^ 63)
    (hfits : TurnFits major v a onlyFirst d s) (fuel : ℕ) :
    mirrorLoop major v a onlyFirst d (fuel + 1) s.turn s.i s.pos s.list s.vars =
      (mirrorTurn major v a onlyFirst d s).2.elim
        (fun s' => mirrorLoop major v a onlyFirst d fuel s'.turn s'.i s'.pos s'.list s'.vars)
        id := by
  have hle := h.le
  rw [mirrorLoop, mirrorTurn]
  -- both go through the same tests in the same order
  by_cases hleft : sub64 d.size s.pos < minSignatureSize
  · rw [if_pos hleft, if_pos hleft]
    rfl
  rw [if_neg hleft, if_neg hleft]
  rw [sub64_of_le hle (by omega)] at hleft
  obtain ⟨⟨esl, eslEnd, pos⟩, hat⟩ : ∃ at', atList d s.pos s.list = at' := ⟨_, rfl⟩
  rw [hat]
  dsimp only
  by_cases hend : d.size ≤ pos
  · rw [if_pos hend, if_pos hend]
    rfl
  rw [if_neg hend, if_neg hend]
  by_cases hsizes : signatureListSize d esl = 0 ∨ signatureSize d esl = 0
  · rw [if_pos hsizes, if_pos hsizes]
    rfl
  rw [if_neg hsizes, if_neg hsizes]
  cases hquery : getMaxVarSz major (a.info (s.turn + 1)) with
  | error e => rfl
  | ok maxVarSz =>
    obtain ⟨hlist, hsig⟩ := not_or.mp hsizes
    have hchunk := hfits esl eslEnd pos maxVarSz
      ⟨by omega, hat, not_le.mp hend, hlist, hsig, hquery⟩
    have hlt : signatureListSize d esl < 2 ^ 32 := d.u32_lt _
    have hcame := (h.cameTo (by omega) hat).1
    have hends := hcame.ends
    have hesl := hcame.size
    have hmul := hcame.chunk_le (roomLeft v onlyFirst s maxVarSz)
    rw [← taken_eq hchunk.header (by omega)] at hmul
    -- the position does not wrap
    have hmod :
        (pos + taken v onlyFirst d s esl eslEnd pos maxVarSz * signatureSize d esl) % 2 ^ 64 =
          pos + taken v onlyFirst d s esl eslEnd pos maxVarSz * signatureSize d esl :=
      Nat.mod_eq_of_lt (by omega)
    dsimp only
    rw [takeChunk, hmod]
    rw [← roomLeft, ← taken]
    generalize taken v onlyFirst d s esl eslEnd pos maxVarSz = howmany
    by_cases hnone : howmany = 0
    · rw [if_pos hnone, if_pos hnone]
      rfl
    rw [if_neg hnone, if_neg hnone]
    by_cases hfirst : onlyFirst = false ∧ s.i = 0
    · rw [if_pos hfirst, if_pos hfirst]
      rfl
    rw [if_neg hfirst, if_neg hfirst]
    obtain ⟨efiStatus, vars⟩ :=
      mirrorOneEsl s.vars (pieceName v onlyFirst s.i) (a.set s.i) d esl pos howmany
    dsimp only
    by_cases herror : efiStatus.isError = true
    · rw [if_pos herror, if_pos herror]
      rfl
    rw [if_neg herror, if_neg herror]
    by_cases honly : onlyFirst = true
    · rw [if_pos honly, if_pos honly]
      rfl
    · rw [if_neg honly, if_neg honly]
      rfl

end OneTurn

/-! ## Whole runs -/

section Whole

variable {major : ℕ} {v : MokVar} {a : Answers} {onlyFirst : Bool}

/-- The loop is harmless exactly if what each of its turns takes fits. -/
theorem mirrorsSafely_iff (d : FullData) (vars : Variables MokName) :
    MirrorsSafely major v a onlyFirst d.toRegion vars ↔
      ∀ s, Loop.Reaches (mirrorTurn major v a onlyFirst d.toRegion) (.first vars) s →
        TurnFits major v a onlyFirst d.toRegion s := by
  constructor
  · intro hsafe s hs
    have hturn : ∀ s₁, Loop.Reaches (mirrorTurn major v a onlyFirst d.toRegion) (.first vars) s₁ →
        MirrorInv d.toRegion s₁ → TurnFits major v a onlyFirst d.toRegion s₁ := by
      intro s₁ hs₁ hinv
      exact hinv.turnFits d.size_lt (hsafe.at_reached hs₁) fun s' hs' =>
        hsafe.at_reached (hs₁.tail hs')
    have hinv : MirrorInv d.toRegion s := hs.invariant (.first _ vars) fun s₁ s₂ hs₁ hinv hnext =>
      ((hinv.next d.size_lt (hturn s₁ hs₁ hinv)).2 s₂ hnext).1
    exact hturn s hs hinv
  · intro hfits
    have hinv : ∀ s, Loop.Reaches (mirrorTurn major v a onlyFirst d.toRegion) (.first vars) s →
        MirrorInv d.toRegion s := by
      intro s hs
      exact hs.invariant (.first _ vars) fun s₁ s₂ hs₁ hinv hnext =>
        ((hinv.next d.size_lt (hfits s₁ hs₁)).2 s₂ hnext).1
    refine Loop.endsWith_of_measure (fun s => d.size - s.pos)
      (fun s hs => ((hinv s hs).next d.size_lt (hfits s hs)).1) fun s₁ s₂ hs₁ hnext => ?_
    obtain ⟨hinv', hlt⟩ := ((hinv s₁ hs₁).next d.size_lt (hfits s₁ hs₁)).2 s₂ hnext
    have hle := hinv'.le
    omega

/-- A loop without harm is that of the model that leaves out what it reads, whose positions are not
taken modulo 2^64. -/
theorem exists_run_eq_mirrorLoop {d : FullData} {s : MirrorState} (hinv : MirrorInv d.toRegion s)
    (hfits : ∀ s', Loop.Reaches (mirrorTurn major v a onlyFirst d.toRegion) s s' →
      TurnFits major v a onlyFirst d.toRegion s') {fuel : ℕ} (hfuel : d.size - s.pos < fuel) :
    ∃ turns, Loop.run (mirrorTurn major v a onlyFirst d.toRegion) fuel s = some (turns,
      mirrorLoop major v a onlyFirst d.toRegion fuel s.turn s.i s.pos s.list s.vars) := by
  induction fuel generalizing s with
  | zero => exact absurd hfuel (Nat.not_lt_zero _)
  | succ fuel ih =>
    have hstep := mirrorLoop_of_mirrorTurn hinv d.size_lt (hfits s .refl) fuel
    cases hturn : (mirrorTurn major v a onlyFirst d.toRegion s).2 with
    | inr r =>
      rw [hturn] at hstep
      rw [Loop.run_stop hturn, hstep]
      exact ⟨_, rfl⟩
    | inl s' =>
      have hnext : Loop.Next (mirrorTurn major v a onlyFirst d.toRegion) s s' := hturn
      obtain ⟨hinv', hlt⟩ := (hinv.next d.size_lt (hfits s .refl)).2 s' hnext
      have hle := hinv'.le
      obtain ⟨turns, hrun⟩ := ih hinv' (fun s'' hs'' => hfits s'' (hs''.head hnext)) (by omega)
      rw [hturn] at hstep
      rw [Loop.run_next hnext, hstep, hrun]
      exact ⟨_, rfl⟩

end Whole

/-- A hundred bytes that say to be a list of a thousand, with signatures of five hundred. -/
def longList : FullData where
  toRegion := Region.ofFields 0 100 [(16, Region.le32 1000), (24, Region.le32 500)]
  size_lt := by decide

/-- Firmware that does what it is asked, with little room for variables. -/
def littleRoom : Answers where
  size := none
  read := none
  erase := none
  eraseRt := none
  set := fun _ => none
  info := fun _ => .ok ⟨60, 60⟩
  measure := none
  log := none

/-- No signature fits, and the loop goes on behind the list, which is behind the data. -/
theorem not_mirrorsSafely_longList :
    ¬ MirrorsSafely 2 .mokList littleRoom true longList.toRegion fun _ => none := by
  intro hsafe
  have hnext : Loop.Next (mirrorTurn 2 .mokList littleRoom true longList.toRegion)
      (.first fun _ => none) ⟨1, 0, 1000, some (0, 1000), fun _ => none⟩ := rfl
  have hle := le_of_mirrorTurn_sound (hsafe.at_reached (.single hnext))
  exact absurd hle (by decide)

end Shim.Mok
