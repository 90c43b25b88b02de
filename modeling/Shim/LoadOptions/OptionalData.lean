import Shim.Common.Event
import Shim.Efi.Status
import Shim.LoadOptions.Format
import Shim.Pe.Header

/-! # The optional data of a load option

`get_load_option_optional_data` (load-options.c:110-219) over a buffer of `data_size` bytes, with what
it reads. Offsets are those from `data` on; behind the buffer lies whatever lies there.
-/

namespace Shim

open Event (Inside AllSound)
open Relation (ReflTransGen)

/-- A buffer whose size is a `UINT32`. -/
structure OptionBuffer extends Region where
  size_lt : size < 2 ^ 32

/-! ## The code -/

/-- `*od` and `*ods`. -/
structure OptionalDataOut where
  od : Option ℕ
  ods : ℕ
  deriving DecidableEq

/-- What a call does: the reads, the status, and the outputs after it. -/
structure OptionalDataRun where
  events : List Event
  status : EfiStatus
  out : OptionalDataOut

/-- The loop over the description: `cur` is at 6, and `left` bytes are left before `limit`. The
answer is `i` behind the loop. -/
def descriptionLoop (d : Region) : (left i : ℕ) → List Event × Except EfiStatus ℕ
  | 0, i => ([], .ok i)
  | left + 1, i =>
    let rest := descriptionLoop d left (i + 1)
    if i % 2 ≠ 0 then
      if d.byte (6 + i) ≠ 0 then ([.read (6 + i) 1], .error .invalidParameter)
      else (.read (6 + i) 1 :: rest.1, rest.2)
    else if d.byte (6 + i) = 0 then
      -- the end, if there is room for the second half of the terminator
      if left = 0 then ([.read (6 + i) 1], .error .invalidParameter)
      else if d.byte (6 + (i + 1)) ≠ 0 then
        ([.read (6 + i) 1, .read (6 + (i + 1)) 1], .error .invalidParameter)
      else ([.read (6 + i) 1, .read (6 + (i + 1)) 1], .ok (i + 1))
    else (.read (6 + i) 1 :: rest.1, rest.2)

/-- The loop over the device path at `cur`, and `i` behind it; `none` where `fuel` turns are not
enough. The length of a node is compared with `limit`, not with what is left of it. -/
def pathLoop (d : Region) (cur limit : ℕ) :
    (fuel i : ℕ) → Option (List Event × Except EfiStatus ℕ)
  | 0, _ => none
  | fuel + 1, i =>
    if sub32 limit i < 4 then some ([], .ok i)
    else
      let len := nodeLength d (cur + i)
      if len < 4 ∨ limit < len then some ([.read (cur + i) 4], .error .invalidParameter)
      else if IsEnd d (cur + i) then
        if len ≠ 4 then some ([.read (cur + i) 4], .error .invalidParameter)
        else some ([.read (cur + i) 4], .ok ((i + len) % 2 ^ 32))
      else
        (pathLoop d cur limit fuel ((i + len) % 2 ^ 32)).map fun rest =>
          (.read (cur + i) 4 :: rest.1, rest.2)

/-- The end of the function, with `i` behind the walk. -/
def takeRest (cur limit fplistlen : ℕ) (out : OptionalDataOut) (events : List Event) :
    Except EfiStatus ℕ → OptionalDataRun
  | .error e => ⟨events, e, out⟩
  | .ok i =>
    if i ≠ fplistlen then ⟨events, .invalidParameter, out⟩
    else ⟨events, .success, ⟨some (cur + i), sub32 limit i⟩⟩

/-- `get_load_option_optional_data`. -/
def getLoadOptionOptionalData (d : Region) (out : OptionalDataOut) (fuel : ℕ) :
    Option OptionalDataRun :=
  if d.size < 4 + 2 + 2 + 4 then some ⟨[], .invalidParameter, out⟩
  else
    let fplistlen := filePathListLength d
    if d.size - (4 + 2 + 4) < fplistlen then some ⟨[.read 4 2], .invalidParameter, out⟩
    else
      let limit := d.size - 6 - fplistlen
      let description := descriptionLoop d limit 0
      let events := .read 4 2 :: description.1
      match description.2 with
      | .error e => some ⟨events, e, out⟩
      | .ok i =>
        if limit < i + 1 then some ⟨events, .invalidParameter, out⟩
        -- the rest is the file path list
        else if i + 1 = limit then some ⟨events, .success, ⟨none, 0⟩⟩
        else
          let cur := 6 + (i + 1)
          let limit := limit - (i + 1) + fplistlen
          (pathLoop d cur limit fuel 0).map fun walked =>
            takeRest cur limit fplistlen out (events ++ walked.1) walked.2

/-! ## What is expected -/

/-- The outputs for the optional data of an option. -/
def EfiLoadOption.tail (option : EfiLoadOption) : OptionalDataOut where
  od := if option.optionalData = [] then none else some option.dataOffset
  ods := option.optionalData.length

/-- A run that does what it should: it reads inside of the buffer, succeeds on options only, with
their optional data as outputs, and leaves the outputs alone otherwise. -/
structure ExactRun (d : Region) (out : OptionalDataOut) (run : OptionalDataRun) : Prop where
  inside : AllSound d.size run.events
  exact : run.status = .success ↔ ∃ option, IsOption d option
  tail : ∀ option, IsOption d option → run.out = option.tail
  unchanged : run.status ≠ .success → run.out = out

/-- The function comes back from the buffer, and does what it should. -/
def ParsesExactly (d : Region) : Prop :=
  ∀ out, ∃ fuel run, getLoadOptionOptionalData d out fuel = some run ∧ ExactRun d out run

/-! ## When it is met -/

section Condition

variable (d : Region)

/-- The code gets to the file path list, at `m`. -/
structure ReachesPath (m : ℕ) : Prop where
  size : 12 ≤ d.size
  room : filePathListLength d + 10 ≤ d.size
  description : DescriptionAt d 6 m
  le : m + filePathListLength d ≤ d.size

/-- The walk over the nodes from `m` on goes from the one at `o` to `o'`: `i` wraps at 2^32. -/
structure WalkStep (m o o' : ℕ) : Prop where
  inside : o + 4 ≤ d.size
  not_end : ¬ IsEnd d o
  length : 4 ≤ nodeLength d o
  length_le : nodeLength d o ≤ d.size - m
  next : o' = m + (o - m + nodeLength d o) % 2 ^ 32

/-- The walk from `m` on comes to `o`. -/
def Walked (m o : ℕ) : Prop := ReflTransGen (WalkStep d m) m o

/-- There is optional data behind the file path list at `m`: no node of the walk reaches past the
buffer, the walk ends, not at the end of the list without an end node, nor before it by a wrap. -/
structure WalkFits (m : ℕ) : Prop where
  inside : ∀ o o', Walked d m o → WalkStep d m o o' → o' ≤ d.size
  ends : ∃ o, Walked d m o ∧ ∀ o', ¬ WalkStep d m o o'
  tail : d.size < m + filePathListLength d + 4 → ¬ Walked d m (m + filePathListLength d)
  wrap : ∀ o, Walked d m o → IsEnd d o → nodeLength d o = 4 → o + 4 = m + filePathListLength d →
    PathAt d m (m + filePathListLength d)

/-- The buffer is no option with an empty description and less than two bytes of optional data;
without optional data, the rest is a device path; with optional data, the walk fits. -/
structure ParseCondition : Prop where
  roomy : ∀ option, IsOption d option → option.description = [] → 2 ≤ option.optionalData.length
  bare : ∀ m, ReachesPath d m → m + filePathListLength d = d.size → PathAt d m d.size
  walk : ∀ m, ReachesPath d m → m + filePathListLength d < d.size → WalkFits d m

end Condition

/-! ## The description -/

section Description

variable {d : Region}

/-- The loop fails with one status, and reads below `limit`. -/
theorem descriptionLoop_reads (left i size : ℕ) (h : 6 + i + left ≤ size) :
    AllSound size (descriptionLoop d left i).1 ∧
      ∀ e, (descriptionLoop d left i).2 = .error e → e = .invalidParameter := by
  induction left generalizing i with
  | zero => exact ⟨Event.allSound_nil, fun e he => by cases he⟩
  | succ left ih =>
    obtain ⟨hreads, hstatus⟩ := ih (i + 1) (by omega)
    have hread : Inside size (6 + i) 1 := .inr (by omega)
    have hinvalid : ∀ e : EfiStatus,
        (Except.error .invalidParameter : Except EfiStatus ℕ) = .error e → e = .invalidParameter :=
      fun e he => (Except.error.inj he).symm
    unfold descriptionLoop
    -- the second byte of a character, or the first
    by_cases hodd : i % 2 ≠ 0
    · rw [if_pos hodd]
      by_cases hbyte : d.byte (6 + i) ≠ 0
      · rw [if_pos hbyte]
        exact ⟨by simpa using hread, hinvalid⟩
      · rw [if_neg hbyte]
        exact ⟨Event.allSound_cons.mpr ⟨hread, hreads⟩, hstatus⟩
    · rw [if_neg hodd]
      by_cases hbyte : d.byte (6 + i) = 0
      · rw [if_pos hbyte]
        by_cases hleft : left = 0
        · rw [if_pos hleft]
          exact ⟨by simpa using hread, hinvalid⟩
        · have hnext : Inside size (6 + (i + 1)) 1 := .inr (by omega)
          rw [if_neg hleft]
          by_cases hsecond : d.byte (6 + (i + 1)) ≠ 0
          · rw [if_pos hsecond]
            exact ⟨by simp [hread, hnext], hinvalid⟩
          · rw [if_neg hsecond]
            exact ⟨by simp [hread, hnext], fun e he => by cases he⟩
      · rw [if_neg hbyte]
        exact ⟨Event.allSound_cons.mpr ⟨hread, hreads⟩, hstatus⟩

/-- A character of the description: two turns of the loop. -/
theorem descriptionLoop_char {left i : ℕ} (hi : i % 2 = 0) (hbyte : d.byte (6 + i) ≠ 0) :
    (descriptionLoop d (left + 2) i).2 =
      if d.byte (6 + (i + 1)) ≠ 0 then .error .invalidParameter
      else (descriptionLoop d left (i + 2)).2 := by
  have hodd : (i + 1) % 2 ≠ 0 := by omega
  rw [descriptionLoop, if_neg (by omega), if_neg hbyte]
  dsimp only
  rw [descriptionLoop, if_pos hodd]
  by_cases hsecond : d.byte (6 + (i + 1)) ≠ 0
  · rw [if_pos hsecond, if_pos hsecond]
  · rw [if_neg hsecond, if_neg hsecond]

/-- The loop stops before `limit` exactly at the end of a description. -/
theorem descriptionLoop_spec (left i j : ℕ) (hi : i % 2 = 0) :
    ((descriptionLoop d left i).2 = .ok j ∧ j < i + left) ↔
      DescriptionAt d (6 + i) (6 + (j + 1)) ∧ j < i + left := by
  -- two bytes at a time, as the characters are stored
  induction left using Nat.twoStepInduction generalizing i with
  | zero =>
    constructor
    · rintro ⟨hok, hlt⟩
      obtain rfl := Except.ok.inj hok
      omega
    · rintro ⟨hdescription, hlt⟩
      have := hdescription.lt
      omega
  | one =>
    refine iff_of_false ?_ ?_
    · rintro ⟨hok, hlt⟩
      rw [descriptionLoop, if_neg (by omega)] at hok
      by_cases hbyte : d.byte (6 + i) = 0
      · rw [if_pos hbyte, if_pos rfl] at hok
        cases hok
      · rw [if_neg hbyte] at hok
        obtain rfl := Except.ok.inj hok
        omega
    · rintro ⟨hdescription, hlt⟩
      have := hdescription.lt
      omega
  | more left ih _ =>
    rw [descriptionAt_cases]
    by_cases hbyte : d.byte (6 + i) = 0
    · by_cases hsecond : d.byte (6 + (i + 1)) ≠ 0
      · refine iff_of_false ?_ fun h => hsecond h.1.1
        rintro ⟨hok, -⟩
        rw [descriptionLoop, if_neg (by omega), if_pos hbyte, if_neg (by omega),
          if_pos hsecond] at hok
        cases hok
      · rw [descriptionLoop, if_neg (by omega), if_pos hbyte, if_neg (by omega), if_neg hsecond]
        refine and_congr_left' ⟨fun hok => ?_, ?_⟩
        · obtain rfl := Except.ok.inj hok
          exact ⟨not_not.mp hsecond, .inl ⟨hbyte, rfl⟩⟩
        · rintro ⟨-, ⟨-, hstop⟩ | ⟨hne, -⟩⟩
          · exact congrArg Except.ok (by omega)
          · exact absurd hbyte hne
    · rw [descriptionLoop_char hi hbyte]
      by_cases hsecond : d.byte (6 + (i + 1)) ≠ 0
      · rw [if_pos hsecond]
        exact iff_of_false (fun h => by cases h.1) fun h => hsecond h.1.1
      · have hnext := ih (i + 2) (by omega)
        rw [Nat.add_assoc, Nat.add_comm 2 left] at hnext
        rw [if_neg hsecond, hnext]
        refine and_congr_left' ⟨fun h => ⟨not_not.mp hsecond, .inr ⟨hbyte, h⟩⟩, ?_⟩
        rintro ⟨-, ⟨hnul, -⟩ | ⟨-, hrest⟩⟩
        · exact absurd hnul hbyte
        · exact hrest

end Description

/-! ## The walk over the nodes -/

section Walk

variable {d : Region} {m o : ℕ}

/-- The walk stops at `o`. -/
def Stuck (d : Region) (m o : ℕ) : Prop := ∀ o', ¬ WalkStep d m o o'

/-- What the loop answers where it stops. -/
def walkResult (d : Region) (m o : ℕ) : Except EfiStatus ℕ :=
  if d.size < o + 4 then .ok (o - m)
  else if nodeLength d o < 4 ∨ d.size - m < nodeLength d o then .error .invalidParameter
  else if nodeLength d o ≠ 4 then .error .invalidParameter
  else .ok (o - m + 4)

/-- A node leads to one place. -/
theorem WalkStep.unique {o₁ o₂ : ℕ} (h : WalkStep d m o o₁) (h' : WalkStep d m o o₂) : o₁ = o₂ :=
  h.next.trans h'.next.symm

/-- A step does not go back behind the start. -/
theorem WalkStep.le {o' : ℕ} (h : WalkStep d m o o') : m ≤ o' := by
  rw [h.next]
  exact Nat.le_add_right _ _

/-- Neither does the walk. -/
theorem Walked.le (h : Walked d m o) : m ≤ o := by
  rcases h.cases_tail with rfl | ⟨_, -, hstep⟩
  · exact le_rfl
  · exact hstep.le

/-- A walk stops at one place. -/
theorem Stuck.unique {o' : ℕ} (h : Walked d m o) (hstuck : Stuck d m o) (h' : Walked d m o')
    (hstuck' : Stuck d m o') : o = o' := by
  have hunique : Relator.RightUnique (WalkStep d m) := fun _ _ _ => WalkStep.unique
  rcases ReflTransGen.total_of_right_unique hunique h h' with hle | hle
  · rcases hle.cases_head with heq | ⟨_, hstep, -⟩
    · exact heq
    · exact absurd hstep (hstuck _)
  · rcases hle.cases_head with heq | ⟨_, hstep, -⟩
    · exact heq.symm
    · exact absurd hstep (hstuck' _)

/-- The walk is stuck at a node that does not fit and at an end. -/
theorem stuck_iff : Stuck d m o ↔
    d.size < o + 4 ∨ nodeLength d o < 4 ∨ d.size - m < nodeLength d o ∨ IsEnd d o := by
  constructor
  · intro h
    by_contra hnot
    simp only [not_or, Nat.not_lt] at hnot
    exact h _ ⟨hnot.1, hnot.2.2.2, hnot.2.1, hnot.2.2.1, rfl⟩
  · rintro h o' hstep
    have := hstep.inside
    have := hstep.length
    have := hstep.length_le
    rcases h with h | h | h | h
    · omega
    · omega
    · omega
    · exact hstep.not_end h

/-- The loop at a node where it stops. -/
theorem pathLoop_stop (hsize : d.size < 2 ^ 32) (hm : m ≤ o) (ho : o ≤ d.size)
    (hstuck : Stuck d m o) (fuel : ℕ) :
    ∃ events, pathLoop d m (d.size - m) (fuel + 1) (o - m) = some (events, walkResult d m o) ∧
      AllSound d.size events := by
  have hsub : sub32 (d.size - m) (o - m) = d.size - m - (o - m) := sub32_of_le (by omega) (by omega)
  have hat : m + (o - m) = o := by omega
  by_cases hout : d.size < o + 4
  · refine ⟨[], ?_, Event.allSound_nil⟩
    rw [pathLoop, if_pos (by omega), walkResult, if_pos hout]
  have hread : AllSound d.size [.read o 4] :=
    Event.allSound_cons.mpr ⟨.inr (by omega), Event.allSound_nil⟩
  refine ⟨[.read o 4], ?_, hread⟩
  rw [pathLoop, if_neg (by omega), walkResult, if_neg hout, hat]
  dsimp only
  by_cases hlen : nodeLength d o < 4 ∨ d.size - m < nodeLength d o
  · rw [if_pos hlen, if_pos hlen]
  have hend : IsEnd d o := by
    rcases stuck_iff.mp hstuck with h | h | h | h
    · exact absurd h hout
    · exact absurd (.inl h) hlen
    · exact absurd (.inr h) hlen
    · exact h
  rw [if_neg hlen, if_neg hlen, if_pos hend]
  by_cases hfour : nodeLength d o ≠ 4
  · rw [if_pos hfour, if_pos hfour]
  · rw [if_neg hfour, if_neg hfour, not_not.mp hfour, Nat.mod_eq_of_lt (by omega)]

/-- The loop at a node where it goes on. -/
theorem pathLoop_step (hsize : d.size < 2 ^ 32) (hm : m ≤ o) {o' : ℕ} (hstep : WalkStep d m o o')
    (fuel : ℕ) : pathLoop d m (d.size - m) (fuel + 1) (o - m) =
      (pathLoop d m (d.size - m) fuel (o' - m)).map fun rest => (.read o 4 :: rest.1, rest.2) := by
  have hin := hstep.inside
  have hlen := hstep.length
  have hle := hstep.length_le
  have hsub : sub32 (d.size - m) (o - m) = d.size - m - (o - m) := sub32_of_le (by omega) (by omega)
  have hat : m + (o - m) = o := by omega
  have hnext : o' - m = (o - m + nodeLength d o) % 2 ^ 32 := by
    rw [hstep.next, Nat.add_sub_cancel_left]
  rw [pathLoop, if_neg (by omega), hat]
  dsimp only
  rw [if_neg (by omega), if_neg hstep.not_end, ← hnext]

/-- A loop that has left the buffer reads outside of it. -/
theorem pathLoop_outside {limit i fuel : ℕ} (hlt : limit < i) (hnear : i < limit + 2 ^ 16)
    {run : List Event × Except EfiStatus ℕ}
    (h : pathLoop d m limit fuel i = some run) : .read (m + i) 4 ∈ run.1 := by
  cases fuel with
  | zero => cases h
  | succ fuel =>
    have hsub : ¬ sub32 limit i < 4 := by
      unfold sub32
      omega
    rw [pathLoop, if_neg hsub] at h
    dsimp only at h
    by_cases hlen : nodeLength d (m + i) < 4 ∨ limit < nodeLength d (m + i)
    · rw [if_pos hlen] at h
      exact Option.some.inj h ▸ List.mem_cons_self
    rw [if_neg hlen] at h
    by_cases hend : IsEnd d (m + i)
    · rw [if_pos hend] at h
      by_cases hfour : nodeLength d (m + i) ≠ 4
      · rw [if_pos hfour] at h
        exact Option.some.inj h ▸ List.mem_cons_self
      · rw [if_neg hfour] at h
        exact Option.some.inj h ▸ List.mem_cons_self
    · rw [if_neg hend, Option.map_eq_some_iff] at h
      obtain ⟨rest, -, rfl⟩ := h
      exact List.mem_cons_self

/-- Where no step leaves the buffer and the walk stops, the loop comes to its end. -/
theorem exists_pathLoop (hsize : d.size < 2 ^ 32)
    (hinside : ∀ o o', Walked d m o → WalkStep d m o o' → o' ≤ d.size) {stop : ℕ}
    (h : ReflTransGen (WalkStep d m) o stop) (hstuck : Stuck d m stop) (hwalked : Walked d m o)
    (ho : o ≤ d.size) :
    ∃ fuel events, pathLoop d m (d.size - m) fuel (o - m) = some (events, walkResult d m stop) ∧
      AllSound d.size events := by
  induction h using ReflTransGen.head_induction_on with
  | refl => exact ⟨1, pathLoop_stop hsize hwalked.le ho hstuck 0⟩
  | head hstep _ ih =>
    obtain ⟨fuel, events, hrest, hsound⟩ := ih (hwalked.tail hstep) (hinside _ _ hwalked hstep)
    refine ⟨fuel + 1, _, by rw [pathLoop_step hsize hwalked.le hstep, hrest, Option.map_some], ?_⟩
    exact Event.allSound_cons.mpr ⟨.inr hstep.inside, hsound⟩

/-- A loop that comes to its end without harm stays in the buffer. -/
theorem of_pathLoop (hsize : d.size < 2 ^ 32) {fuel : ℕ} {run : List Event × Except EfiStatus ℕ}
    (hm : m ≤ o) (ho : o ≤ d.size) (h : pathLoop d m (d.size - m) fuel (o - m) = some run)
    (hsound : AllSound d.size run.1) :
    (∀ a b, ReflTransGen (WalkStep d m) o a → WalkStep d m a b → b ≤ d.size) ∧
      ∃ stop, ReflTransGen (WalkStep d m) o stop ∧ Stuck d m stop ∧ run.2 = walkResult d m stop := by
  induction fuel generalizing o run with
  | zero => cases h
  | succ fuel ih =>
    -- the walk is over, or there is a next node
    by_cases hstuck : Stuck d m o
    · obtain ⟨events, hrun, -⟩ := pathLoop_stop hsize hm ho hstuck fuel
      rw [h] at hrun
      obtain rfl := Option.some.inj hrun
      refine ⟨fun a b ha hab => ?_, o, .refl, hstuck, rfl⟩
      rcases ha.cases_head with rfl | ⟨_, hstep, -⟩
      · exact absurd hab (hstuck _)
      · exact absurd hstep (hstuck _)
    · obtain ⟨o', hstep⟩ : ∃ o', WalkStep d m o o' := by
        by_contra hnone
        exact hstuck fun o' hstep => hnone ⟨o', hstep⟩
      rw [pathLoop_step hsize hm hstep, Option.map_eq_some_iff] at h
      obtain ⟨rest, hrest, rfl⟩ := h
      obtain ⟨-, hrestSound⟩ := Event.allSound_cons.mp hsound
      have hlong : nodeLength d o < 2 ^ 16 := d.u16_lt _
      have hnext := hstep.next
      -- otherwise the next turn would read behind the option
      have ho' : o' ≤ d.size := by
        by_contra hout
        have hmem := pathLoop_outside (by omega) (by omega) hrest
        have hread : Inside d.size (m + (o' - m)) 4 := hrestSound _ hmem
        rw [Event.inside_iff_of_pos (by decide)] at hread
        omega
      obtain ⟨hstay, stop, hstop, hat, hresult⟩ := ih hstep.le ho' hrest hrestSound
      refine ⟨fun a b ha hab => ?_, stop, hstop.head hstep, hat, hresult⟩
      rcases ha.cases_head with rfl | ⟨_, hstep', ha⟩
      · exact hab.unique hstep ▸ ho'
      · obtain rfl := hstep'.unique hstep
        exact hstay a b ha hab

end Walk

/-! ## The parts of an option -/

section Option

variable {d : Region} {m : ℕ} {option : EfiLoadOption}

/-- The optional data reach to the end. -/
theorem IsOption.dataOffset_add (h : IsOption d option) :
    option.dataOffset + option.optionalData.length = d.size := by
  rw [← h.2]
  simp only [EfiLoadOption.encode, EfiLoadOption.dataOffset, EfiLoadOption.pathOffset,
    List.length_append, option.attributes_length, Region.length_le16]

/-- A description with its NUL. -/
theorem length_encodeDescription (description : List UInt8) :
    (encodeDescription description).length = 2 * description.length + 2 := by
  induction description with
  | nil => rfl
  | cons c description ih =>
    rw [encodeDescription, List.flatMap_cons, List.append_assoc, List.length_append,
      ← encodeDescription, ih, List.length_cons, List.length_cons, List.length_cons,
      List.length_nil]
    omega

/-- A path has at least its end node. -/
theorem PathAt.le {start stop : ℕ} (h : PathAt d start stop) : start + 4 ≤ stop := by
  obtain ⟨o, hreached, -, -, rfl⟩ := h
  exact Nat.add_le_add_right hreached.le 4

/-- Where the path of an option starts. -/
theorem EfiLoadOption.pathOffset_eq : option.pathOffset = 2 * option.description.length + 8 := by
  rw [EfiLoadOption.pathOffset, length_encodeDescription]
  omega

/-- An option is long enough for its list, and in most cases for the first checks. -/
theorem IsOption.reachesPath (h : IsOption d option)
    (hroomy : option.description = [] → 2 ≤ option.optionalData.length) :
    ReachesPath d option.pathOffset := by
  obtain ⟨hat, hoffset⟩ := h.optionAt
  have hdata := h.dataOffset_add
  have hpath := hat.path.le
  have hdescription := option.pathOffset_eq
  refine ⟨by omega, ?_, hat.description, hat.le⟩
  by_cases hnil : option.description = []
  · have := hroomy hnil
    omega
  · have := List.length_pos_iff.mpr hnil
    omega

/-- Behind the first checks, an option with no description has two bytes of optional data. -/
theorem ReachesPath.roomy (h : ReachesPath d m) (hoption : IsOption d option)
    (hnil : option.description = []) : 2 ≤ option.optionalData.length := by
  obtain ⟨hat, hoffset⟩ := hoption.optionAt
  have hroom := h.room
  have hdata := hoption.dataOffset_add
  have hdescription := option.pathOffset_eq
  rw [hnil, List.length_nil] at hdescription
  omega

/-- Where the code gets to the list, the buffer is an option exactly if the list is a device path. -/
theorem ReachesPath.exists_option_iff (h : ReachesPath d m) :
    (∃ option, IsOption d option) ↔ PathAt d m (m + filePathListLength d) := by
  constructor
  · rintro ⟨option, hoption⟩
    obtain ⟨hat, -⟩ := hoption.optionAt
    exact hat.description.unique h.description ▸ hat.path
  · intro hpath
    obtain ⟨option, hoption, -⟩ := (⟨h.description, hpath, h.le⟩ : OptionAt d m).exists_isOption
    exact ⟨option, hoption⟩

/-- The optional data is what is behind the list. -/
theorem ReachesPath.tail_eq (h : ReachesPath d m) (hoption : IsOption d option) :
    option.tail = ⟨if m + filePathListLength d = d.size then none
      else some (m + filePathListLength d), d.size - (m + filePathListLength d)⟩ := by
  obtain ⟨hat, hoffset⟩ := hoption.optionAt
  have hdata := hoption.dataOffset_add
  rw [hat.description.unique h.description] at hoffset
  rw [hoffset] at hdata
  have hlen : option.optionalData.length = d.size - (m + filePathListLength d) := by omega
  have hnil : option.optionalData = [] ↔ m + filePathListLength d = d.size := by
    rw [← List.length_eq_zero_iff, hlen]
    omega
  rw [EfiLoadOption.tail, hlen, hoffset]
  simp only [hnil]

end Option

/-! ## The whole function -/

section Whole

variable {d : Region} {m : ℕ}

/-- A buffer that is refused before the list is looked at. -/
theorem getLoadOptionOptionalData_refused (h : ∀ m, ¬ ReachesPath d m) (out : OptionalDataOut)
    (fuel : ℕ) : ∃ events, AllSound d.size events ∧
      getLoadOptionOptionalData d out fuel = some ⟨events, .invalidParameter, out⟩ := by
  unfold getLoadOptionOptionalData
  by_cases hshort : d.size < 4 + 2 + 2 + 4
  · exact ⟨[], Event.allSound_nil, by rw [if_pos hshort]⟩
  rw [if_neg hshort]
  have hread : Inside d.size 4 2 := .inr (by omega)
  by_cases hroom : d.size - (4 + 2 + 4) < filePathListLength d
  · exact ⟨[.read 4 2], by simpa using hread, by rw [if_pos hroom]⟩
  dsimp only
  rw [if_neg hroom]
  obtain ⟨hreads, hstatus⟩ :=
    descriptionLoop_reads (d := d) (d.size - 6 - filePathListLength d) 0 d.size (by omega)
  refine ⟨.read 4 2 :: _, Event.allSound_cons.mpr ⟨hread, hreads⟩, ?_⟩
  cases hloop : (descriptionLoop d (d.size - 6 - filePathListLength d) 0).2 with
  | error e => rw [hstatus e hloop]
  | ok i =>
    have hlong : d.size - 6 - filePathListLength d < i + 1 := by
      by_contra hle
      have hat := (descriptionLoop_spec (d := d) _ 0 i rfl).mp ⟨hloop, by omega⟩
      exact h _ ⟨by omega, by omega, hat.1, by omega⟩
    dsimp only
    rw [if_pos hlong]

/-- A buffer whose list is looked at, unless nothing is behind it. -/
theorem getLoadOptionOptionalData_reaches (h : ReachesPath d m) (out : OptionalDataOut)
    (fuel : ℕ) : ∃ events, AllSound d.size events ∧ getLoadOptionOptionalData d out fuel =
      if m + filePathListLength d = d.size then some ⟨events, .success, ⟨none, 0⟩⟩
      else (pathLoop d m (d.size - m) fuel 0).map fun walked =>
        takeRest m (d.size - m) (filePathListLength d) out (events ++ walked.1) walked.2 := by
  have hsize := h.size
  have hroom := h.room
  have hle := h.le
  have hm := h.description.lt
  obtain ⟨i, rfl⟩ : ∃ i, m = 6 + (i + 1) := ⟨m - 7, by omega⟩
  obtain ⟨hreads, -⟩ :=
    descriptionLoop_reads (d := d) (d.size - 6 - filePathListLength d) 0 d.size (by omega)
  have hloop := ((descriptionLoop_spec (d := d) (d.size - 6 - filePathListLength d) 0 i rfl).mpr
    ⟨h.description, by omega⟩).1
  refine ⟨.read 4 2 :: _, Event.allSound_cons.mpr ⟨.inr (by omega), hreads⟩, ?_⟩
  unfold getLoadOptionOptionalData
  rw [if_neg (by omega)]
  dsimp only
  rw [if_neg (by omega), hloop]
  dsimp only
  rw [if_neg (by omega)]
  by_cases hbare : 6 + (i + 1) + filePathListLength d = d.size
  · rw [if_pos hbare, if_pos (by omega)]
  · have hlimit : d.size - 6 - filePathListLength d - (i + 1) + filePathListLength d =
        d.size - (6 + (i + 1)) := by omega
    rw [if_neg hbare, if_neg (by omega), hlimit]

/-- A run that ends in a refusal. -/
theorem exactRun_refused {out : OptionalDataOut} {events : List Event}
    (hreads : AllSound d.size events) (hnone : ¬ ∃ option, IsOption d option) :
    ExactRun d out ⟨events, .invalidParameter, out⟩ :=
  ⟨hreads, iff_of_false (by simp) hnone, fun option h => absurd ⟨option, h⟩ hnone, fun _ => rfl⟩

/-- A buffer that is refused early is no option, except for a short one. -/
theorem parsesExactly_of_refused (h : ∀ m, ¬ ReachesPath d m) :
    ParsesExactly d ↔ ParseCondition d := by
  have hcondition : ParseCondition d ↔ ¬ ∃ option, IsOption d option := by
    constructor
    · rintro hcondition ⟨option, hoption⟩
      exact h _ (hoption.reachesPath (hcondition.roomy option hoption))
    · intro hnone
      exact ⟨fun option hoption => absurd ⟨option, hoption⟩ hnone,
        fun m hm => absurd hm (h m), fun m hm => absurd hm (h m)⟩
  rw [hcondition]
  constructor
  · intro hexact
    obtain ⟨fuel, run, hrun, hexact⟩ := hexact ⟨none, 0⟩
    obtain ⟨events, -, hrefused⟩ := getLoadOptionOptionalData_refused h ⟨none, 0⟩ fuel
    rw [hrefused] at hrun
    obtain rfl := Option.some.inj hrun
    exact fun hsome => absurd (hexact.exact.mpr hsome) (by simp)
  · intro hnone out
    obtain ⟨events, hreads, hrefused⟩ := getLoadOptionOptionalData_refused h out 0
    exact ⟨0, _, hrefused, exactRun_refused hreads hnone⟩

/-- Where nothing is behind the list, the list is not looked at. -/
theorem ReachesPath.parsesExactly_bare (h : ReachesPath d m)
    (hbare : m + filePathListLength d = d.size) : ParsesExactly d ↔ PathAt d m d.size := by
  have hoption := h.exists_option_iff
  rw [hbare] at hoption
  rw [← hoption]
  constructor
  · intro hexact
    obtain ⟨fuel, run, hrun, hexact⟩ := hexact ⟨none, 0⟩
    obtain ⟨events, -, hreaches⟩ := getLoadOptionOptionalData_reaches h ⟨none, 0⟩ fuel
    rw [hreaches, if_pos hbare] at hrun
    obtain rfl := Option.some.inj hrun
    exact hexact.exact.mp rfl
  · intro hsome out
    obtain ⟨events, hreads, hreaches⟩ := getLoadOptionOptionalData_reaches h out 0
    rw [if_pos hbare] at hreaches
    refine ⟨0, _, hreaches, hreads, iff_of_true rfl hsome, fun option hoption => ?_,
      fun hne => absurd rfl hne⟩
    rw [h.tail_eq hoption, if_pos hbare, hbare, Nat.sub_self]

/-- The nodes of a device path before a given place are walked over. -/
theorem walked_of_nodeReached {o : ℕ} (hsize : d.size < 2 ^ 32) (h : NodeReached d m o)
    (ho : o ≤ d.size) : Walked d m o := by
  induction h with
  | refl => exact .refl
  | @tail b c hreached hnext ih =>
    have hlen := hnext.length
    have hc := hnext.next
    have hb := NodeReached.le hreached
    refine (ih (by omega)).tail ⟨by omega, hnext.not_end, hlen, by omega, ?_⟩
    rw [Nat.mod_eq_of_lt (by omega)]
    omega

/-- A device path that ends where the list does is where the walk stops. -/
theorem PathAt.exists_walked {stop : ℕ} (hsize : d.size < 2 ^ 32) (h : PathAt d m stop)
    (hstop : stop ≤ d.size) :
    ∃ o, Walked d m o ∧ Stuck d m o ∧ stop = o + 4 ∧ walkResult d m o = .ok (stop - m) := by
  obtain ⟨o, hreached, hend, hlen, rfl⟩ := h
  have hle := hreached.le
  refine ⟨o, walked_of_nodeReached hsize hreached (by omega),
    stuck_iff.mpr (.inr (.inr (.inr hend))), rfl, ?_⟩
  rw [walkResult, if_neg (by omega), if_neg (by omega), if_neg (not_not_intro hlen)]
  exact congrArg Except.ok (by omega)

/-- What a run with a walk over the list answers. -/
theorem takeRest_success_iff (cur limit fplistlen : ℕ) (out : OptionalDataOut)
    (events : List Event) {result : Except EfiStatus ℕ}
    (h : ∀ e, result = .error e → e = .invalidParameter) :
    ((takeRest cur limit fplistlen out events result).status = .success ↔ result = .ok fplistlen) ∧
      ((takeRest cur limit fplistlen out events result).status ≠ .success →
        (takeRest cur limit fplistlen out events result).out = out) := by
  cases result with
  | error e =>
    obtain rfl := h e rfl
    exact ⟨iff_of_false (by simp [takeRest]) (by simp), fun _ => rfl⟩
  | ok i =>
    by_cases hi : i ≠ fplistlen
    · rw [takeRest, if_pos hi]
      exact ⟨iff_of_false (by simp) (by simpa using hi), fun _ => rfl⟩
    · rw [takeRest, if_neg hi]
      exact ⟨iff_of_true rfl (by simpa using hi), fun hne => absurd rfl hne⟩

/-- A walk that fails says that the parameter is invalid. -/
theorem walkResult_error {o : ℕ} {e : EfiStatus} (h : walkResult d m o = .error e) :
    e = .invalidParameter := by
  unfold walkResult at h
  split_ifs at h
  · exact (Except.error.inj h).symm
  · exact (Except.error.inj h).symm

/-- Where something is behind the list, a walk that stops decides. -/
theorem ReachesPath.exactRun_iff (h : ReachesPath d m) (hsize : d.size < 2 ^ 32)
    (hlt : m + filePathListLength d < d.size) {stop : ℕ} {events : List Event}
    (hreads : AllSound d.size events) (out : OptionalDataOut) :
    ExactRun d out (takeRest m (d.size - m) (filePathListLength d) out events
      (walkResult d m stop)) ↔
        (walkResult d m stop = .ok (filePathListLength d) ↔
          PathAt d m (m + filePathListLength d)) := by
  obtain ⟨hsuccess, hunchanged⟩ := takeRest_success_iff m (d.size - m) (filePathListLength d) out
    events (fun e he => walkResult_error (d := d) (m := m) (o := stop) he)
  constructor
  · intro hexact
    rw [← h.exists_option_iff, ← hexact.exact, hsuccess]
  · intro hiff
    have hexact := hsuccess.trans (hiff.trans h.exists_option_iff.symm)
    refine ⟨?_, hexact, fun option hoption => ?_, hunchanged⟩
    · cases walkResult d m stop with
      | error e => exact hreads
      | ok i =>
        rw [takeRest]
        split_ifs <;> exact hreads
    · have hresult := hsuccess.mp (hexact.mpr ⟨option, hoption⟩)
      have hrest : sub32 (d.size - m) (filePathListLength d) =
          d.size - (m + filePathListLength d) := by
        rw [sub32_of_le (by omega) (by omega)]
        omega
      rw [h.tail_eq hoption, if_neg hlt.ne, hresult, takeRest, if_neg (not_not_intro rfl), hrest]

/-- What is left is taken without a read. -/
theorem takeRest_events (cur limit fplistlen : ℕ) (out : OptionalDataOut) (events : List Event)
    (result : Except EfiStatus ℕ) :
    (takeRest cur limit fplistlen out events result).events = events := by
  cases result with
  | error e => rfl
  | ok i =>
    rw [takeRest]
    split_ifs <;> rfl

/-- An option that has its path is parsed right exactly if the walk fits. -/
theorem ReachesPath.parsesExactly_walk (h : ReachesPath d m) (hsize : d.size < 2 ^ 32)
    (hlt : m + filePathListLength d < d.size) : ParsesExactly d ↔ WalkFits d m := by
  have hm : m ≤ d.size := by omega
  constructor
  · intro hexact
    obtain ⟨fuel, run, hrun, hexact⟩ := hexact ⟨none, 0⟩
    obtain ⟨events, hreads, hreaches⟩ := getLoadOptionOptionalData_reaches h ⟨none, 0⟩ fuel
    rw [hreaches, if_neg hlt.ne, Option.map_eq_some_iff] at hrun
    obtain ⟨walked, hwalk, rfl⟩ := hrun
    have hsound := hexact.inside
    rw [takeRest_events, Event.allSound_append] at hsound
    rw [← Nat.sub_self m] at hwalk
    obtain ⟨hinside, stop, hstop, hstuck, hresult⟩ := of_pathLoop hsize le_rfl hm hwalk hsound.2
    rw [hresult, h.exactRun_iff hsize hlt (Event.allSound_append.mpr hsound)] at hexact
    -- where the walk's result is the length, there is a path of that length
    have hdecides : ∀ o, Walked d m o → Stuck d m o →
        walkResult d m o = .ok (filePathListLength d) → PathAt d m (m + filePathListLength d) := by
      intro o ho hstuck' hok
      obtain rfl := hstuck'.unique ho hstop hstuck
      exact hexact.mp hok
    refine ⟨hinside, ⟨stop, hstop, hstuck⟩, fun htail hwalked => ?_, fun o ho hend hlen hat => ?_⟩
    · have hstuck' : Stuck d m (m + filePathListLength d) := stuck_iff.mpr (.inl htail)
      have hpath := hdecides _ hwalked hstuck'
        (by rw [walkResult, if_pos htail, Nat.add_sub_cancel_left])
      obtain ⟨o, ho, hends, hat, -⟩ := hpath.exists_walked hsize h.le
      have := hends.unique ho hwalked hstuck'
      omega
    · have hle := Walked.le ho
      refine hdecides o ho (stuck_iff.mpr (.inr (.inr (.inr hend)))) ?_
      rw [walkResult, if_neg (by omega), if_neg (by omega), if_neg (not_not_intro hlen)]
      exact congrArg Except.ok (by omega)
  -- the walk stays inside and ends, and its result decides
  · intro hfits out
    obtain ⟨stop, hstop, hstuck⟩ := hfits.ends
    obtain ⟨fuel, events', hwalk, hsound⟩ :=
      exists_pathLoop hsize hfits.inside hstop hstuck .refl hm
    rw [Nat.sub_self] at hwalk
    obtain ⟨events, hreads, hreaches⟩ := getLoadOptionOptionalData_reaches h out fuel
    rw [if_neg hlt.ne, hwalk, Option.map_some] at hreaches
    refine ⟨fuel, _, hreaches, ?_⟩
    rw [h.exactRun_iff hsize hlt (Event.allSound_append.mpr ⟨hreads, hsound⟩)]
    have hle := Walked.le hstop
    constructor
    · intro hok
      by_cases hout : d.size < stop + 4
      · rw [walkResult, if_pos hout] at hok
        have hat : stop = m + filePathListLength d := by
          have := Except.ok.inj hok
          omega
        exact absurd (hat ▸ hstop) (hfits.tail (hat ▸ hout))
      · rw [walkResult, if_neg hout] at hok
        split_ifs at hok with hbad hlen
        have hend : IsEnd d stop := by
          rcases stuck_iff.mp hstuck with hs | hs | hs | hs
          · exact absurd hs hout
          · exact absurd (.inl hs) hbad
          · exact absurd (.inr hs) hbad
          · exact hs
        have := Except.ok.inj hok
        exact hfits.wrap stop hstop hend (not_not.mp hlen) (by omega)
    · intro hpath
      obtain ⟨o, ho, hends, -, hresult⟩ := hpath.exists_walked hsize h.le
      obtain rfl := hends.unique ho hstop hstuck
      rw [hresult, Nat.add_sub_cancel_left]

/-- The function does what it should exactly on the buffers that meet the condition. -/
theorem parsesExactly_iff (d : OptionBuffer) :
    ParsesExactly d.toRegion ↔ ParseCondition d.toRegion := by
  by_cases hreaches : ∃ m, ReachesPath d.toRegion m
  · obtain ⟨m, hm⟩ := hreaches
    have hunique : ∀ m', ReachesPath d.toRegion m' → m' = m :=
      fun m' hm' => hm'.description.unique hm.description
    have hroomy : ∀ option, IsOption d.toRegion option → option.description = [] →
        2 ≤ option.optionalData.length := fun option hoption => hm.roomy hoption
    rcases hm.le.eq_or_lt with hbare | hlt
    · rw [hm.parsesExactly_bare hbare]
      refine ⟨fun hpath => ⟨hroomy, ?_, ?_⟩, fun hcondition => hcondition.bare m hm hbare⟩
      · intro m' hm' _
        exact hunique m' hm' ▸ hpath
      · intro m' hm' hlt
        rw [hunique m' hm'] at hlt
        exact absurd hbare hlt.ne
    · rw [hm.parsesExactly_walk d.size_lt hlt]
      refine ⟨fun hfits => ⟨hroomy, ?_, ?_⟩, fun hcondition => hcondition.walk m hm hlt⟩
      · intro m' hm' hbare
        rw [hunique m' hm'] at hbare
        exact absurd hbare hlt.ne
      · intro m' hm' _
        exact hunique m' hm' ▸ hfits
  · exact parsesExactly_of_refused fun m hm => hreaches ⟨m, hm⟩

end Whole

/-- A load option whose list is two nodes, of which the second has a length of 10 bytes, where the
buffer has 6. -/
def longNode : OptionBuffer where
  toRegion := Region.ofList 0 [1, 0, 0, 0, 8, 0, 0, 0, 4, 4, 4, 0, 4, 4, 10, 0, 0x61, 0x62]
  size_lt := by decide

/-- The next node is looked for behind the buffer. -/
theorem not_parsesExactly_longNode : ¬ ParsesExactly longNode.toRegion := by
  intro h
  have hreaches : ReachesPath longNode.toRegion 8 :=
    ⟨by decide, by decide, .nul (by decide) (by decide), by decide⟩
  have hfits := (hreaches.parsesExactly_walk longNode.size_lt (by decide)).mp h
  have hfirst : WalkStep longNode.toRegion 8 8 12 :=
    ⟨by decide, by decide, by decide, by decide, by decide⟩
  have hsecond : WalkStep longNode.toRegion 8 12 22 :=
    ⟨by decide, by decide, by decide, by decide, by decide⟩
  exact absurd (hfits.inside 12 22 (.single hfirst) hsecond) (by decide)

end Shim
