import Shim.Common.Run
import Shim.Efi.Status

/-! # Measuring a variable once

`tpm_measure_variable` with the table of what was measured, and `tpm_log_event_raw` under it
(tpm.c). What the firmware answers, and which allocations succeed, comes with every call. The table
is an array of records of which the first `measuredcount` are filled; an access outside of it, or to
a record that is not filled, has no result.
-/

namespace Shim.Tpm

open Runs

/-! ## tpm_log_event_raw -/

/-- The answers of the confidential computing protocol. -/
structure CcAnswers where
  mapPcr : EfiStatus
  event : Bool
  log : EfiStatus

/-- The answers of a TPM 2.0: `get_capability` with what it fills in. -/
structure Tpm2Answers where
  getCapability : EfiStatus
  oldCaps : Bool
  treePresent : Bool
  tpmPresent : Bool
  event : Bool
  log : EfiStatus

/-- An answer of `status_check`. -/
structure StatusCheck where
  status : EfiStatus
  deactivated : Bool
  present : Bool

/-- The answers of a TPM 1.2, which is located and checked twice. -/
structure TpmAnswers where
  first : StatusCheck
  locateAgain : EfiStatus
  second : StatusCheck
  event : Bool
  log : EfiStatus

/-- The answers in a call: each protocol that is located, or the error in its place. -/
structure LogAnswers where
  cc : Option CcAnswers
  tpm2 : Option Tpm2Answers
  tpm : Except EfiStatus TpmAnswers

/-- What comes of an event: the status, whether a TPM took it, and `tpm_defective`. -/
structure LogResult where
  status : EfiStatus
  taken : Bool
  defective : Bool

/-- `cc_log_event_raw`. -/
def ccLogEventRaw (cc : Option CcAnswers) : EfiStatus :=
  match cc with
  | none => .success
  | some a => if a.mapPcr.isError then .notFound else if a.event then a.log else .outOfResources

/-- `tpm_present`. -/
def tpmPresent (defective : Bool) (c : StatusCheck) : Bool :=
  !defective && !c.status.isError && !c.deactivated && c.present

/-- `tpm2_present`. -/
def tpm2Present (a : Tpm2Answers) : Bool := a.oldCaps && a.treePresent || a.tpmPresent

/-- What `tpm_log_event_raw` comes to where there is no TPM; `requireTpm` is `REQUIRE_TPM`. -/
def noTpm (requireTpm defective : Bool) : LogResult :=
  ⟨if requireTpm then .notFound else .success, false, defective⟩

/-- The event for a TPM 2.0. -/
def logTpm2 (requireTpm defective : Bool) (t : Tpm2Answers) : LogResult :=
  if t.getCapability.isError then
    if t.getCapability = .notFound then noTpm requireTpm defective
    else ⟨t.getCapability, false, defective⟩
  else if ¬ tpm2Present t then noTpm requireTpm defective
  else if ¬ t.event then ⟨.outOfResources, false, defective⟩
  else ⟨t.log, !t.log.isError, defective⟩

/-- The event for a TPM 1.2. -/
def logTpm (requireTpm defective : Bool) (t : TpmAnswers) : LogResult :=
  if ¬ tpmPresent defective t.first then noTpm requireTpm defective
  else if t.locateAgain.isError then ⟨.success, false, defective⟩
  else if ¬ tpmPresent defective t.second then ⟨.success, false, defective⟩
  else if ¬ t.event then ⟨.outOfResources, false, defective⟩
  -- the TPM is considered defective from now on
  else if t.log = .unsupported then ⟨.success, false, true⟩
  else ⟨t.log, !t.log.isError, defective⟩

/-- `tpm_log_event_raw` without a hash. -/
def logEventRaw (requireTpm defective : Bool) (a : LogAnswers) : LogResult :=
  if (ccLogEventRaw a.cc).isError then ⟨ccLogEventRaw a.cc, false, defective⟩
  else
    match a.tpm2, a.tpm with
    | some t, _ => logTpm2 requireTpm defective t
    | none, .ok t => logTpm requireTpm defective t
    | none, .error status =>
      if status = .notFound then noTpm requireTpm defective else ⟨status, false, defective⟩

/-! ## The table -/

/-- What a record describes: the name, the vendor, and the data with its size. -/
structure Measurement where
  name : List UInt16
  guid : List UInt8
  data : List UInt8
  deriving DecidableEq

/-- The globals of tpm.c, and what the calls have done: those whose event came back without an
error, and those whose event a TPM took. -/
structure State where
  measuredCount : ℕ
  measuredData : Option (List (Option Measurement))
  tpmDefective : Bool
  measured : List Measurement
  logged : List Measurement

/-- Nothing is measured yet. -/
def State.initial : State := ⟨0, none, false, [], []⟩

/-- Which allocations of `tpm_record_data_measurement` succeed. -/
structure RecordAllocations where
  table : Bool
  name : Bool
  guid : Bool
  data : Bool

/-- A call of `tpm_measure_variable` with all that its outcome depends on. -/
structure Call where
  triple : Measurement
  varLog : Bool
  answers : LogAnswers
  allocations : RecordAllocations

/-- The loop of `tpm_data_measured`. -/
def dataMeasured (measuredData : Option (List (Option Measurement))) (x : Measurement) :
    (count i : ℕ) → Option Bool
  | 0, _ => some false
  | count + 1, i =>
    match measuredData.bind (·[i]?) with
    | some (some record) =>
      if record = x then some true else dataMeasured measuredData x count (i + 1)
    | _ => none

/-- The table with room for another record: a first one, or a copy of the records there are. -/
def growTable (s : State) (allocated : Bool) : Option (Option (List (Option Measurement))) :=
  match s.measuredData with
  | none => some (if allocated then some [none] else none)
  | some slots =>
    if s.measuredCount ≤ slots.length then
      some (if allocated then some (slots.take s.measuredCount ++ [none]) else none)
    else none

/-- `tpm_record_data_measurement`. -/
def recordDataMeasurement (s : State) (x : Measurement) (a : RecordAllocations) :
    Option (EfiStatus × State) :=
  match growTable s a.table with
  | none => none
  | some none => some (.outOfResources, { s with measuredData := none })
  | some (some slots) =>
    if s.measuredCount < slots.length then
      if a.name ∧ a.guid ∧ a.data then
        some (.success, { s with
          measuredData := some (slots.set s.measuredCount (some x))
          measuredCount := s.measuredCount + 1 })
      else
        -- some of the pointers are there, but the record does not count
        some (.outOfResources, { s with measuredData := some slots })
    else none

/-- The state after an event was logged. -/
def State.afterLog (s : State) (x : Measurement) (r : LogResult) : State :=
  { s with
    tpmDefective := r.defective
    measured := if r.status.isError then s.measured else s.measured ++ [x]
    logged := if r.taken then s.logged ++ [x] else s.logged }

/-- `tpm_measure_variable`. -/
def measureVariable (requireTpm : Bool) (s : State) (c : Call) : Option (EfiStatus × State) :=
  match dataMeasured s.measuredData c.triple s.measuredCount 0 with
  | none => none
  | some true => some (.success, s)
  | some false =>
    if ¬ c.varLog then some (.outOfResources, s)
    else
      let r := logEventRaw requireTpm s.tpmDefective c.answers
      let s := s.afterLog c.triple r
      if r.status.isError then some (r.status, s)
      else recordDataMeasurement s c.triple c.allocations

/-- The state after a call; there is none after an access outside of the table. -/
def step (requireTpm : Bool) (s : Option State) (c : Call) : Option State :=
  s.bind fun s => (measureVariable requireTpm s c).map Prod.snd

/-! ## What is expected -/

/-- The table holds `measuredcount` records, each of something that was measured. -/
def State.TableValid (s : State) : Prop :=
  ∃ records : List Measurement, records.length = s.measuredCount ∧
    (s.measuredData.getD []).take s.measuredCount = records.map some ∧
      ∀ x ∈ records, x ∈ s.measured

/-- No access was outside of the table, nothing was logged twice, and the table is valid. -/
def MeasuredOnce (s : Option State) : Prop := ∃ t, s = some t ∧ t.logged.Nodup ∧ t.TableValid

/-! ## When it is met -/

def RecordAllocations.all (a : RecordAllocations) : Bool := a.table && a.name && a.guid && a.data

/-- A call that comes to its record: the table, if there is something in it, gets its room; and
what a TPM took is recorded. -/
def Recorded (requireTpm : Bool) (s : Option State) (c : Call) : Prop :=
  ∀ t, s = some t → dataMeasured t.measuredData c.triple t.measuredCount 0 = some false →
    c.varLog = true → (logEventRaw requireTpm t.tpmDefective c.answers).status.isError = false →
      (t.measuredCount = 0 ∨ c.allocations.table = true) ∧
        ((logEventRaw requireTpm t.tpmDefective c.answers).taken = true →
          c.allocations.all = true)

/-! ## The log -/

section Log

variable (requireTpm defective : Bool)

/-- What a TPM took came back without an error. -/
def LogResult.Honest (r : LogResult) : Prop := r.taken = true → r.status.isError = false

/-- A log that does not take the event is honest about it. -/
theorem honest_of_not_taken (status : EfiStatus) : (LogResult.mk status false defective).Honest :=
  fun h => absurd h Bool.false_ne_true

/-- So is one that takes it and says so. -/
theorem honest_taken (status : EfiStatus) :
    (LogResult.mk status (!status.isError) defective).Honest := by
  intro h
  simpa using h

/-- The log of a TPM 2 is honest. -/
theorem honest_logTpm2 (t : Tpm2Answers) : (logTpm2 requireTpm defective t).Honest := by
  unfold logTpm2
  split_ifs <;> first | exact honest_of_not_taken _ _ | exact honest_taken _ _

/-- So is that of a TPM 1. -/
theorem honest_logTpm (t : TpmAnswers) : (logTpm requireTpm defective t).Honest := by
  unfold logTpm
  split_ifs <;> first | exact honest_of_not_taken _ _ | exact honest_taken _ _

/-- So is the choice between them. -/
theorem honest_logEventRaw (a : LogAnswers) : (logEventRaw requireTpm defective a).Honest := by
  rw [logEventRaw]
  split_ifs
  · exact honest_of_not_taken _ _
  · cases a.tpm2 with
    | some t => exact honest_logTpm2 requireTpm defective t
    | none =>
      cases a.tpm with
      | ok t => exact honest_logTpm requireTpm defective t
      | error status =>
        dsimp only
        split_ifs
        · exact honest_of_not_taken _ _
        · exact honest_of_not_taken _ _

end Log

/-! ## The table and its records -/

section Table

variable {s : State} {x : Measurement} {records : List Measurement} {a : RecordAllocations}

/-- The table holds these records. -/
def State.Holds (s : State) (records : List Measurement) : Prop :=
  records.length = s.measuredCount ∧
    (s.measuredData.getD []).take s.measuredCount = records.map some

/-- The search from an index on looks at the records from there on. -/
theorem dataMeasured_eq (measuredData : Option (List (Option Measurement))) (x : Measurement)
    (before rest : List Measurement)
    (h : (measuredData.getD []).take (before.length + rest.length) = (before ++ rest).map some) :
    dataMeasured measuredData x rest.length before.length = some (decide (x ∈ rest)) := by
  induction rest generalizing before with
  | nil => simp [dataMeasured]
  | cons r rest ih =>
    have hentry : measuredData.bind (·[before.length]?) = some (some r) := by
      have hget := congrArg (fun slots => slots[before.length]?) h
      change ((measuredData.getD []).take _)[before.length]? = _[before.length]? at hget
      rw [List.getElem?_take_of_lt (by simp)] at hget
      cases measuredData with
      | none => simp at hget
      | some slots => simpa using hget
    have hrest := ih (before ++ [r]) (by
      rw [List.append_assoc, List.singleton_append, List.length_append, List.length_singleton,
        ← h, List.length_cons, Nat.add_assoc, Nat.add_comm 1])
    rw [List.length_cons, dataMeasured, hentry]
    dsimp only
    by_cases hr : r = x
    · rw [if_pos hr]
      simp [hr]
    · rw [if_neg hr]
      rw [List.length_append, List.length_singleton] at hrest
      rw [hrest]
      simp [Ne.symm hr]

/-- The search in the table finds what is recorded. -/
theorem State.Holds.dataMeasured (h : s.Holds records) (x : Measurement) :
    dataMeasured s.measuredData x s.measuredCount 0 = some (decide (x ∈ records)) := by
  rw [← h.1]
  refine dataMeasured_eq s.measuredData x [] records ?_
  rw [List.length_nil, Nat.zero_add, h.1, h.2]
  rfl

/-- The table has at least as many places as records. -/
theorem State.Holds.count_le (h : s.Holds records) :
    s.measuredCount ≤ (s.measuredData.getD []).length := by
  have hlen := congrArg List.length h.2
  rw [List.length_take, List.length_map, h.1] at hlen
  omega

/-- The table that grows keeps its records, and has room behind them. -/
theorem State.Holds.growTable (h : s.Holds records) :
    growTable s true = some (some (records.map some ++ [none])) := by
  have hle := h.count_le
  obtain ⟨hlen, htake⟩ := h
  rw [Tpm.growTable]
  cases hdata : s.measuredData with
  | none =>
    rw [hdata] at htake hle
    have hzero : records = [] := by
      rw [← List.length_eq_zero_iff, hlen]
      exact Nat.le_zero.mp hle
    rw [hzero]
    rfl
  | some slots =>
    rw [hdata] at htake hle
    dsimp only [Option.getD_some] at htake hle ⊢
    rw [if_pos hle, htake]
    rfl

/-- Without memory the table is not grown. -/
theorem State.Holds.growTable_refused (h : s.Holds records) :
    Tpm.growTable s false = some none := by
  have hle := h.count_le
  rw [Tpm.growTable]
  cases hdata : s.measuredData with
  | none => rfl
  | some slots =>
    rw [hdata] at hle
    exact if_pos hle

/-- A record that gets all its memory is the last of the table. -/
theorem State.Holds.record (h : s.Holds records) (ha : a.all = true) :
    ∃ s', recordDataMeasurement s x a = some (.success, s') ∧ s'.Holds (records ++ [x]) ∧
      s'.measured = s.measured ∧ s'.logged = s.logged := by
  obtain ⟨⟨⟨htable, hname⟩, hguid⟩, hdata⟩ := by simpa [RecordAllocations.all] using ha
  have hcount := h.1
  rw [recordDataMeasurement, htable, h.growTable]
  dsimp only
  rw [if_pos (by simp [hcount]), if_pos ⟨hname, hguid, hdata⟩]
  refine ⟨_, rfl, ⟨by simp [hcount], ?_⟩, rfl, rfl⟩
  dsimp only [Option.getD_some]
  have hset : (records.map some ++ [none]).set s.measuredCount (some x) =
      (records ++ [x]).map some := by
    rw [← hcount, List.set_append_right _ _ (by simp)]
    simp
  rw [hset, List.take_of_length_le (by simp [hcount])]

/-- Whatever is refused, the records stay, unless the table itself is lost with some in it. -/
theorem State.Holds.record_kept (h : s.Holds records) (hkept : s.measuredCount = 0 ∨ a.table = true)
    (ha : a.all = false) :
    ∃ status s', recordDataMeasurement s x a = some (status, s') ∧ s'.Holds records ∧
      s'.measured = s.measured ∧ s'.logged = s.logged := by
  have hcount := h.1
  by_cases htable : a.table = true
  · rw [recordDataMeasurement, htable, h.growTable]
    dsimp only
    have hpart : ¬(a.name = true ∧ a.guid = true ∧ a.data = true) := by
      simpa [RecordAllocations.all, htable, and_assoc] using ha
    rw [if_pos (by simp [hcount]), if_neg hpart]
    refine ⟨_, _, rfl, ⟨hcount, ?_⟩, rfl, rfl⟩
    dsimp only [Option.getD_some]
    rw [← hcount]
    simp
  · have hzero := hkept.resolve_right htable
    rw [recordDataMeasurement, Bool.eq_false_iff.mpr htable, h.growTable_refused]
    refine ⟨_, _, rfl, ⟨hcount, ?_⟩, rfl, rfl⟩
    have hnil : records = [] := List.length_eq_zero_iff.mp (hcount.trans hzero)
    rw [hnil]
    simp

end Table

/-! ## Runs -/

section Runs

variable {requireTpm : Bool} {s : State} {c : Call}

/-- Everything a TPM took has a record, once, and every record is of something measured. -/
structure Inv (s : State) : Prop where
  logged_nodup : s.logged.Nodup
  records : ∃ records, s.Holds records ∧ (∀ x ∈ records, x ∈ s.measured) ∧
    ∀ x ∈ s.logged, x ∈ records

/-- Under the invariant nothing is logged twice. -/
theorem Inv.measuredOnce (h : Inv s) : MeasuredOnce (some s) := by
  obtain ⟨hnodup, records, hholds, hmeasured, -⟩ := h
  exact ⟨s, rfl, hnodup, records, hholds.1, hholds.2, hmeasured⟩

/-- The invariant holds at first. -/
theorem inv_initial : Inv .initial :=
  ⟨List.nodup_nil, [], ⟨rfl, rfl⟩, fun _ hx => absurd hx List.not_mem_nil,
    fun _ hx => absurd hx List.not_mem_nil⟩

/-- A new event is logged once. -/
theorem nodup_afterLog {x : Measurement} {r : LogResult} (h : s.logged.Nodup)
    (hx : x ∉ s.logged) : (s.afterLog x r).logged.Nodup := by
  dsimp only [State.afterLog]
  split_ifs
  · refine List.nodup_append.mpr ⟨h, by simp, fun a ha b hb => ?_⟩
    rw [List.mem_singleton.mp hb]
    exact ne_of_mem_of_not_mem ha hx
  · exact h

/-- Nothing else is logged with it. -/
theorem mem_logged_afterLog {x y : Measurement} {r : LogResult}
    (h : y ∈ (s.afterLog x r).logged) : y ∈ s.logged ∨ y = x := by
  dsimp only [State.afterLog] at h
  split_ifs at h
  · simpa using h
  · exact .inl h

/-- A call that records what was logged keeps the invariant. -/
theorem Inv.step (h : Inv s) (hc : Recorded requireTpm (some s) c) :
    ∃ t, Tpm.step requireTpm (some s) c = some t ∧ Inv t := by
  obtain ⟨hnodup, records, hholds, hmeasured, hlogged⟩ := h
  have hsame : Inv s := ⟨hnodup, records, hholds, hmeasured, hlogged⟩
  -- the list of records is the memory of what was measured
  have hfound := hholds.dataMeasured c.triple
  have hrecorded := hc s rfl
  rw [Tpm.step, Option.bind_some, measureVariable]
  rw [hfound] at hrecorded ⊢
  by_cases hmem : c.triple ∈ records
  · -- measured before
    rw [decide_eq_true hmem]
    exact ⟨s, rfl, hsame⟩
  rw [decide_eq_false hmem] at hrecorded ⊢
  dsimp only
  by_cases hvarLog : c.varLog = true
  swap
  -- the event cannot be allocated
  · rw [if_pos hvarLog]
    exact ⟨s, rfl, hsame⟩
  rw [if_neg (not_not.mpr hvarLog)]
  set r := logEventRaw requireTpm s.tpmDefective c.answers with hr
  have hholds' : (s.afterLog c.triple r).Holds records := hholds
  by_cases herr : r.status.isError = true
  · -- no TPM took it
    have htaken : r.taken = false := by
      by_contra htaken
      have hhonest := honest_logEventRaw requireTpm s.tpmDefective c.answers
        (Bool.not_eq_false _ ▸ htaken)
      rw [← hr, herr] at hhonest
      cases hhonest
    rw [if_pos herr]
    refine ⟨_, rfl, ?_, records, hholds', ?_, ?_⟩
    · simpa [State.afterLog, htaken] using hnodup
    · simpa [State.afterLog, herr] using hmeasured
    · simpa [State.afterLog, htaken] using hlogged
  rw [if_neg herr]
  have hok : r.status.isError = false := by simpa using herr
  obtain ⟨hkept, hall⟩ := hrecorded rfl hvarLog hok
  have hlog : (s.afterLog c.triple r).measured = s.measured ++ [c.triple] := by
    simp [State.afterLog, hok]
  have hmeasured' : ∀ x ∈ records, x ∈ s.measured ++ [c.triple] := fun x hx =>
    List.mem_append_left _ (hmeasured x hx)
  by_cases ha : c.allocations.all = true
  · -- recorded
    obtain ⟨t, hrun, ht, htm, htl⟩ := hholds'.record (x := c.triple) ha
    rw [hrun]
    refine ⟨t, rfl, ?_, records ++ [c.triple], ht, ?_, ?_⟩
    · rw [htl]
      exact nodup_afterLog hnodup fun hx => hmem (hlogged _ hx)
    · rw [htm, hlog]
      intro x hx
      rcases List.mem_append.mp hx with hx | hx
      · exact hmeasured' x hx
      · exact List.mem_append_right _ hx
    · rw [htl]
      intro x hx
      rcases mem_logged_afterLog hx with hx | rfl
      · exact List.mem_append_left _ (hlogged x hx)
      · exact List.mem_append_right _ List.mem_cons_self
  · -- not recorded, and no TPM took it
    have htaken : r.taken = false := by
      by_contra htaken
      exact ha (hall (by simpa using htaken))
    have hsameLog : (s.afterLog c.triple r).logged = s.logged := by
      simp [State.afterLog, htaken]
    obtain ⟨status, t, hrun, ht, htm, htl⟩ :=
      hholds'.record_kept (x := c.triple) hkept (by simpa using ha)
    rw [hrun]
    refine ⟨t, rfl, ?_, records, ht, ?_, ?_⟩
    · rw [htl, hsameLog]
      exact hnodup
    · rw [htm, hlog]
      exact hmeasured'
    · rw [htl, hsameLog]
      exact hlogged

/-- The invariant, where the run has not gone outside of the table. -/
def RunInv (o : Option State) : Prop := ∃ t, o = some t ∧ Inv t

/-- Whatever is measured, refused and logged: as long as what a TPM took is recorded, and a table
with records in it gets its room, nothing is logged twice, and the table stays valid. -/
theorem measuredOnce_along (requireTpm : Bool) (calls : List Call)
    (h : Along (Tpm.step requireTpm) (Recorded requireTpm) (some .initial) calls) :
    MeasuredOnce (run (Tpm.step requireTpm) (some .initial) calls) := by
  have hinv : RunInv (run (Tpm.step requireTpm) (some .initial) calls) := by
    refine run_invariant ?_ ⟨_, rfl, inv_initial⟩ h
    rintro _ c ⟨s, rfl, hs⟩ hc
    exact hs.step hc
  obtain ⟨t, hrun, ht⟩ := hinv
  rw [hrun]
  exact ht.measuredOnce

end Runs

/-! ### Allocations that fail -/

/-- A TPM 2.0 that takes every event, and nothing else. -/
def taking : LogAnswers where
  cc := none
  tpm2 := some ⟨.success, false, false, true, true, .success⟩
  tpm := .error .notFound

/-- A call for a variable of some name, with these allocations. -/
def call (name : UInt16) (a : RecordAllocations) : Call :=
  ⟨⟨[name], List.replicate 16 0, [1, 2, 3]⟩, true, taking, a⟩

/-- Everything is allocated. -/
def allocated : RecordAllocations := ⟨true, true, true, true⟩

/-- Three calls, two of them the same. -/
theorem measuredOnce_allocated : MeasuredOnce (run (step false) (some .initial)
    [call 0x61 allocated, call 0x61 allocated, call 0x62 allocated]) := by
  have hrecorded : ∀ o name, Recorded false o (call name allocated) :=
    fun _ _ _ _ _ _ _ => ⟨.inr rfl, fun _ => rfl⟩
  exact measuredOnce_along false _ ⟨hrecorded _ _, hrecorded _ _, hrecorded _ _, trivial⟩

/-- Without memory for the data of its record a variable is logged a second time; and without
memory for a second record the table is lost, and the next search is outside of it. -/
theorem not_measuredOnce_refused :
    ¬ MeasuredOnce (run (step false) (some .initial)
      [call 0x61 ⟨true, true, true, false⟩, call 0x61 allocated]) ∧
    ¬ MeasuredOnce (run (step false) (some .initial)
      [call 0x61 allocated, call 0x62 ⟨false, true, true, true⟩, call 0x63 allocated]) := by
  constructor
  · rintro ⟨t, hrun, hnodup, -⟩
    have hlogged : (run (step false) (some .initial)
        [call 0x61 ⟨true, true, true, false⟩, call 0x61 allocated]).map State.logged =
          some [(call 0x61 allocated).triple, (call 0x61 allocated).triple] := by decide
    rw [hrun] at hlogged
    rw [Option.some.inj hlogged] at hnodup
    exact absurd hnodup (by decide)
  · rintro ⟨t, hrun, -⟩
    have hlost : (run (step false) (some .initial)
        [call 0x61 allocated, call 0x62 ⟨false, true, true, true⟩, call 0x63 allocated]).isNone :=
      by decide
    rw [hrun] at hlost
    exact absurd hlost Bool.false_ne_true

end Shim.Tpm
