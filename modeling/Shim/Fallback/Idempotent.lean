import Shim.Fallback.BootOption

/-! # Adding a boot option twice

A boot option is kept by everything `fallback` does, and the option `add_boot_option` writes is one
that `find_boot_option` recognises, whatever is listed before it. So an entry that was added once
is found from then on; and an entry that could not be added, because no number is free or there is
nothing to write, is not added later either.
-/

namespace Shim

open Runs

/-! ## Finding -/

section Find

variable {vars : Variables VariableKey} {data : List UInt8} {size : ℕ} {keys : List VariableKey}

/-- The search succeeds on the first variable it takes for the option. -/
theorem searchOptions_isOk_iff :
    (∃ n, searchOptions vars data size keys = .ok n) ↔ ∃ k ∈ keys, IsBootName k.name ∧
      ∃ v, vars ⟨k.name, gvGuid⟩ = some v ∧ isOption data size v.data = true := by
  induction keys with
  | nil => simp [searchOptions]
  | cons k keys ih =>
    simp only [List.mem_cons, exists_eq_or_imp]
    rw [← ih]
    by_cases hname : IsBootName k.name
    · rw [searchOptions, if_neg (not_not.mpr hname)]
      cases hvar : vars ⟨k.name, gvGuid⟩ with
      | none => simp
      | some v =>
        by_cases hoption : isOption data size v.data = true
        · simp [hname, hoption]
        · simp [hoption]
    · rw [searchOptions, if_pos hname]
      simp [hname]

/-- A variable of the store is taken for the option. -/
def OptionPresent (s : VariableStore) (data : List UInt8) (size : ℕ) : Prop :=
  ∃ name v, IsBootName name ∧ s.vars ⟨name, gvGuid⟩ = some v ∧ isOption data size v.data = true

/-- An option that is present is found, in whatever order the variables are listed. -/
theorem findBootOption_isOk_iff (s : VariableStore) (e : Enumeration) (dp : List DevicePathNode)
    (label arguments : CsvField) :
    (∃ n, findBootOption s e dp label arguments = .ok n) ↔
      OptionPresent s (expectedOption dp label arguments) (expectedSize dp label arguments) := by
  unfold findBootOption
  rw [searchOptions_isOk_iff]
  constructor
  · rintro ⟨k, -, hname, v, hv, hoption⟩
    exact ⟨k.name, v, hname, hv, hoption⟩
  · rintro ⟨name, v, hname, hv, hoption⟩
    refine ⟨⟨name, gvGuid⟩, (e.perm s.keys).mem_iff.mpr ?_, hname, v, hv, hoption⟩
    rw [s.mem_keys, hv]
    rfl

/-- An option that is written is as long as its size says, modulo 2^32. -/
theorem length_writtenOption (dp : List DevicePathNode) (label arguments : CsvField) :
    (writtenOption dp label arguments).length = writtenSize dp label arguments % 2 ^ 32 := by
  rw [writtenOption, List.length_take]
  refine min_eq_left ((Nat.mod_le _ _).trans (le_of_eq ?_))
  simp only [List.length_append, length_wideBytes, Region.length_le32, field16, List.length_cons,
    List.length_nil]
  rw [writtenSize, devicePathSize]

/-- The option that is written is one that is recognised. -/
theorem isOption_writtenOption {dp : List DevicePathNode} {label arguments : CsvField}
    (hsize : writtenSize dp label arguments % 2 ^ 32 < 2 ^ 31) :
    isOption (expectedOption dp label arguments) (expectedSize dp label arguments)
      (writtenOption dp label arguments) = true := by
  have hlen := length_writtenOption dp label arguments
  have hmasked : calcMaskedBootOptionSize (expectedSize dp label arguments) =
      expectedSize dp label arguments + 24 := by
    rw [expectedSize_eq]
    exact Nat.mod_eq_of_lt (by omega)
  rw [← expectedSize_eq] at hlen
  rw [isOption, hmasked, hlen, if_neg (by omega), if_neg (not_not.mpr rfl), expectedOption_eq]
  exact decide_eq_true rfl

end Find

/-! ## What is kept -/

section Keep

variable {fileDevicePath : List UInt16 → List DevicePathNode} {s : FallbackState} {e : Enumeration}
  {x : BootEntry} {dp full : List DevicePathNode} {label arguments : CsvField}

/-- The digits of a name are hexadecimal. -/
theorem isxdigit_hexDigit {n : ℕ} (h : n < 16) : isxdigit (hexDigit n) := by
  revert n
  decide

/-- The names `add_boot_option` tries are names of boot options. -/
theorem isBootName_bootName (i : ℕ) : IsBootName (bootName i) := by
  refine ⟨rfl, rfl, ?_⟩
  intro c hc
  have hdigit : ∀ n, isxdigit (hexDigit (n % 16)) := fun n =>
    isxdigit_hexDigit (Nat.mod_lt n (by decide))
  have hdrop : (bootName i).drop 4 = [hexDigit (i / 4096 % 16), hexDigit (i / 256 % 16),
      hexDigit (i / 16 % 16), hexDigit (i % 16)] := rfl
  rw [hdrop] at hc
  simp only [List.mem_cons, List.not_mem_nil, or_false] at hc
  rcases hc with rfl | rfl | rfl | rfl <;> exact hdigit _

/-- No other variable changes. -/
theorem VariableStore.set_of_ne {st : VariableStore} {k j : VariableKey} (h : j ≠ k)
    (data : List UInt8) (attrs : ℕ) : (st.set k data attrs).2.vars j = st.vars j :=
  writeVariable_of_ne h data attrs none

/-- The boot options of one store are those of another. -/
def KeepsOptions (st st' : VariableStore) : Prop :=
  ∀ name v, IsBootName name → st.vars ⟨name, gvGuid⟩ = some v → st'.vars ⟨name, gvGuid⟩ = some v

/-- No variable is there that was not there before. -/
def CreatesNothing (st st' : VariableStore) : Prop :=
  ∀ k, (st'.vars k).isSome = true → (st.vars k).isSome = true

/-- The number of a new option is free, and those before it from the counter on are not. -/
theorem freeOption_eq_some {vars : Variables VariableKey} {counter i : ℕ}
    (h : freeOption vars counter = some i) : vars ⟨bootName i, gvGuid⟩ = none ∧
      ∀ j, counter ≤ j → j < i → (vars ⟨bootName j, gvGuid⟩).isSome = true := by
  unfold freeOption at h
  obtain ⟨hfree, as, bs, hsplit, hbefore⟩ := List.find?_eq_some_iff_append.mp h
  refine ⟨by simpa using hfree, fun j hj hji => ?_⟩
  have hmem : j ∈ as := by
    have hpair : (List.range' counter (2 ^ 16 - counter)).Pairwise (· < ·) :=
      List.pairwise_lt_range'
    have hi : i ∈ List.range' counter (2 ^ 16 - counter) := by
      rw [hsplit]
      simp
    have hrange : j ∈ List.range' counter (2 ^ 16 - counter) := by
      rw [List.mem_range'_1] at hi ⊢
      omega
    rw [hsplit] at hpair hrange
    rcases List.mem_append.mp hrange with hmem | hmem
    · exact hmem
    · rcases List.mem_cons.mp hmem with rfl | hmem
      · omega
      · have hlt := (List.pairwise_cons.mp (List.pairwise_append.mp hpair).2.1).1 j hmem
        omega
  have htaken := hbefore j hmem
  rw [Option.isSome_iff_ne_none]
  simpa using htaken

/-- Where no number is found, all of them from the counter on are taken. -/
theorem freeOption_eq_none {vars : Variables VariableKey} {counter : ℕ} :
    freeOption vars counter = none ↔ ∀ j, counter ≤ j → j < 2 ^ 16 →
      (vars ⟨bootName j, gvGuid⟩).isSome = true := by
  unfold freeOption
  rw [List.find?_eq_none]
  refine forall_congr' fun j => ?_
  rw [List.mem_range'_1, Option.isSome_iff_ne_none]
  constructor
  · intro h hj hlt
    simpa using h ⟨hj, by omega⟩
  · rintro h ⟨hj, hlt⟩
    simpa using h hj (by omega)

/-- What `add_boot_option` does to the variables and the counter: there is no number left; or there
is one, and the option is written under it, or is nothing that can be written. -/
theorem addBootOption_cases (s : FallbackState) (dp full : List DevicePathNode)
    (label arguments : CsvField) :
    let s' := (addBootOption s dp full label arguments).2
    (freeOption s.store.vars s.counter = none ∧ s'.store = s.store ∧
      s'.counter = max s.counter (2 ^ 16)) ∨
    ∃ i, freeOption s.store.vars s.counter = some i ∧ s'.counter = i ∧
      (2 ^ 31 ≤ writtenSize dp label arguments % 2 ^ 32 ∧ s'.store = s.store ∨
        writtenSize dp label arguments % 2 ^ 32 < 2 ^ 31 ∧
          s'.store = (s.store.set ⟨bootName i, gvGuid⟩ (writtenOption dp label arguments)
            bootAttributes).2) := by
  unfold addBootOption
  cases hfree : freeOption s.store.vars s.counter with
  | none => exact .inl ⟨rfl, rfl, rfl⟩
  | some i =>
    refine .inr ⟨i, rfl, ?_⟩
    dsimp only
    by_cases hsize : 2 ^ 31 ≤ writtenSize dp label arguments % 2 ^ 32
    · rw [if_pos hsize]
      exact ⟨rfl, .inl ⟨hsize, rfl⟩⟩
    · rw [if_neg hsize]
      split_ifs <;> exact ⟨rfl, .inr ⟨not_le.mp hsize, rfl⟩⟩

/-- An option that is added leaves the others. -/
theorem keepsOptions_addBootOption (s : FallbackState) (dp full : List DevicePathNode)
    (label arguments : CsvField) :
    KeepsOptions s.store (addBootOption s dp full label arguments).2.store := by
  intro name v _ hv
  rcases addBootOption_cases s dp full label arguments with
    ⟨-, hstore, -⟩ | ⟨i, hfree, -, ⟨-, hstore⟩ | ⟨-, hstore⟩⟩
  · rw [hstore, hv]
  · rw [hstore, hv]
  · have hne : (⟨name, gvGuid⟩ : VariableKey) ≠ ⟨bootName i, gvGuid⟩ := by
      intro heq
      rw [heq, (freeOption_eq_some hfree).1] at hv
      cases hv
    rw [hstore, VariableStore.set_of_ne hne, hv]

/-- `add_to_boot_list` writes no variable but through `add_boot_option`. -/
theorem addToBootList_cases (fileDevicePath : List UInt16 → List DevicePathNode)
    (s : FallbackState) (e : Enumeration) (x : BootEntry) :
    let full := fileDevicePath (makeFullPath x.dirname x.filename)
    let s' := (addToBootList fileDevicePath s e x).2
    ((∃ n, findBootOption s.store e (bootDevicePath full) x.label x.arguments = .ok n) ∧
      s'.store = s.store ∧ s'.counter = s.counter) ∨
    ((¬ ∃ n, findBootOption s.store e (bootDevicePath full) x.label x.arguments = .ok n) ∧
      s' = (addBootOption s (bootDevicePath full) full x.label x.arguments).2) := by
  intro full s'
  cases hfind : findBootOption s.store e (bootDevicePath full) x.label x.arguments with
  | error status =>
    refine .inr ⟨?_, ?_⟩
    · rintro ⟨n, hn⟩
      cases hn
    · simp only [s', addToBootList]
      rw [hfind]
  | ok option =>
    refine .inl ⟨⟨option, rfl⟩, ?_⟩
    simp only [s', addToBootList]
    rw [hfind]
    dsimp only
    cases putFirst (s.keepFirst full x.arguments).bootOrder option <;> exact ⟨rfl, rfl⟩

/-- The name of `BootOrder` is not that of an option. -/
theorem ne_bootOrderKey {name : List UInt16} (h : IsBootName name) :
    (⟨name, gvGuid⟩ : VariableKey) ≠ bootOrderKey := by
  intro heq
  have hname : name = wide "BootOrder" := congrArg VariableKey.name heq
  rw [hname] at h
  exact absurd h (by decide)

/-- Every event keeps the boot options. -/
theorem keepsOptions_fallbackStep (fileDevicePath : List UInt16 → List DevicePathNode)
    (s : FallbackState) (event : FallbackEvent) :
    KeepsOptions s.store (fallbackStep fileDevicePath s event).store := by
  intro name v hname hv
  cases event with
  | addToBootList e x =>
    rcases addToBootList_cases fileDevicePath s e x with ⟨-, hstore, -⟩ | ⟨-, heq⟩
    · rw [fallbackStep, hstore, hv]
    · rw [fallbackStep, heq]
      exact keepsOptions_addBootOption s _ _ _ _ name v hname hv
  | updateBootOrder =>
    have hne := ne_bootOrderKey hname
    rw [fallbackStep, updateBootOrder]
    dsimp only
    rw [VariableStore.set_of_ne hne]
    split_ifs
    · rw [VariableStore.set_of_ne hne, hv]
    · exact hv
  | boot => exact hv

/-- A run changes no option that is there. -/
theorem keepsOptions_run (fileDevicePath : List UInt16 → List DevicePathNode)
    (s : FallbackState) (es : List FallbackEvent) :
    KeepsOptions s.store (run (fallbackStep fileDevicePath) s es).store := by
  induction es generalizing s with
  | nil => exact fun _ _ _ hv => hv
  | cons event es ih =>
    intro name v hname hv
    exact ih _ name v hname (keepsOptions_fallbackStep fileDevicePath s event name v hname hv)

/-! ## The counter -/

/-- The numbers the counter has passed are taken. -/
def CounterBehind (s : FallbackState) : Prop :=
  ∀ i < s.counter, i < 2 ^ 16 → (s.store.vars ⟨bootName i, gvGuid⟩).isSome = true

/-- Taken numbers stay taken. -/
theorem KeepsOptions.taken {st st' : VariableStore} (h : KeepsOptions st st') {i : ℕ}
    (hi : (st.vars ⟨bootName i, gvGuid⟩).isSome = true) :
    (st'.vars ⟨bootName i, gvGuid⟩).isSome = true := by
  obtain ⟨v, hv⟩ := Option.isSome_iff_exists.mp hi
  rw [h (bootName i) v (isBootName_bootName i) hv]
  rfl

/-- The counter stays behind the free numbers. -/
theorem CounterBehind.addBootOption (h : CounterBehind s) :
    CounterBehind (addBootOption s dp full label arguments).2 := by
  have hkeeps := keepsOptions_addBootOption s dp full label arguments
  intro j hj hlt
  refine hkeeps.taken ?_
  by_cases hbefore : j < s.counter
  · exact h j hbefore hlt
  rcases addBootOption_cases s dp full label arguments with ⟨hnone, -⟩ | ⟨i, hfree, hcounter, -⟩
  · exact freeOption_eq_none.mp hnone j (not_lt.mp hbefore) hlt
  · rw [hcounter] at hj
    exact (freeOption_eq_some hfree).2 j (not_lt.mp hbefore) hj

/-- Every event leaves the counter behind taken numbers. -/
theorem CounterBehind.step (h : CounterBehind s) (event : FallbackEvent) :
    CounterBehind (fallbackStep fileDevicePath s event) := by
  have hkeeps := keepsOptions_fallbackStep fileDevicePath s event
  cases event with
  | addToBootList e x =>
    rcases addToBootList_cases fileDevicePath s e x with ⟨-, -, hcounter⟩ | ⟨-, heq⟩
    · intro j hj hlt
      rw [fallbackStep, hcounter] at hj
      exact hkeeps.taken (h j hj hlt)
    · rw [fallbackStep, heq]
      exact h.addBootOption
  | updateBootOrder => exact fun j hj hlt => hkeeps.taken (h j hj hlt)
  | boot => exact fun j hj => absurd hj (Nat.not_lt_zero j)

/-- So it does in every run from a boot. -/
theorem counterBehind_run (fileDevicePath : List UInt16 → List DevicePathNode)
    (store : VariableStore) (es : List FallbackEvent) :
    CounterBehind (run (fallbackStep fileDevicePath) (.boot store) es) := by
  refine run_invariant (C := fun _ _ => True) (fun s event h _ => h.step event)
    (fun j hj => absurd hj (Nat.not_lt_zero j)) ?_
  rw [along_iff]
  exact fun _ _ _ _ => trivial

/-! ## Adding twice -/

/-- The entry needs no variable any more, or never gets one: its option is present, or no number is
free, or there is nothing that can be written. -/
def EntrySettled (fileDevicePath : List UInt16 → List DevicePathNode) (x : BootEntry)
    (st : VariableStore) : Prop :=
  let dp := bootDevicePath (fileDevicePath (makeFullPath x.dirname x.filename))
  OptionPresent st (expectedOption dp x.label x.arguments) (expectedSize dp x.label x.arguments) ∨
    (∀ i < 2 ^ 16, (st.vars ⟨bootName i, gvGuid⟩).isSome = true) ∨
    writtenOption dp x.label x.arguments = [] ∨
    2 ^ 31 ≤ writtenSize dp x.label x.arguments % 2 ^ 32

/-- What is settled stays so. -/
theorem EntrySettled.keep {st st' : VariableStore} (h : EntrySettled fileDevicePath x st)
    (hkeeps : KeepsOptions st st') : EntrySettled fileDevicePath x st' := by
  rcases h with ⟨name, v, hname, hv, hoption⟩ | hfull | hnothing
  · exact .inl ⟨name, v, hname, hkeeps name v hname hv, hoption⟩
  · exact .inr (.inl fun i hi => hkeeps.taken (hfull i hi))
  · exact .inr (.inr hnothing)

/-- Writing no bytes under a name that is free changes nothing. -/
theorem VariableStore.set_nil {st : VariableStore} {k : VariableKey} (h : st.vars k = none)
    (attrs : ℕ) : (st.set k [] attrs).2.vars = st.vars :=
  congrArg Prod.snd (setVariable_of_nil_of_none (v := ⟨[], attrs, by decide⟩) rfl h)

/-- What is written is there. -/
theorem VariableStore.set_of_ne_nil (st : VariableStore) (k : VariableKey) {data : List UInt8}
    (hdata : data ≠ []) (hlen : data.length < 2 ^ 31) (attrs : ℕ) :
    ∃ v, (st.set k data attrs).2.vars k = some v ∧ v.data = data := by
  have hcontents : contents (writeVariable st.vars k data attrs none).2 k = data :=
    (writeVariable_success attrs (.inl hdata) hlen).2
  unfold contents at hcontents
  cases hvar : (writeVariable st.vars k data attrs none).2 k with
  | none =>
    rw [hvar] at hcontents
    exact absurd hcontents.symm hdata
  | some v =>
    rw [hvar] at hcontents
    exact ⟨v, hvar, hcontents⟩

/-- What comes of an entry: its option is present, or nothing has changed and never will. -/
theorem CounterBehind.outcome (h : CounterBehind s)
    (fileDevicePath : List UInt16 → List DevicePathNode) (e : Enumeration) (x : BootEntry) :
    let dp := bootDevicePath (fileDevicePath (makeFullPath x.dirname x.filename))
    let st := (addToBootList fileDevicePath s e x).2.store
    OptionPresent st (expectedOption dp x.label x.arguments) (expectedSize dp x.label x.arguments) ∨
    st.vars = s.store.vars ∧
      ((∀ i < 2 ^ 16, (st.vars ⟨bootName i, gvGuid⟩).isSome = true) ∨
        writtenOption dp x.label x.arguments = [] ∨
        2 ^ 31 ≤ writtenSize dp x.label x.arguments % 2 ^ 32) := by
  intro dp st
  rcases addToBootList_cases fileDevicePath s e x with ⟨hfound, hstore, -⟩ | ⟨-, heq⟩
  · rw [show st = s.store from hstore]
    exact .inl ((findBootOption_isOk_iff _ _ _ _ _).mp hfound)
  have hst : st = (Shim.addBootOption s dp (fileDevicePath (makeFullPath x.dirname x.filename))
      x.label x.arguments).2.store := congrArg FallbackState.store heq
  rcases addBootOption_cases s dp (fileDevicePath (makeFullPath x.dirname x.filename)) x.label
    x.arguments with ⟨hnone, hstore, -⟩ | ⟨i, hfree, -, ⟨hsize, hstore⟩ | ⟨hsize, hstore⟩⟩
  · rw [hst, hstore]
    -- every number is taken: those in front of the counter were seen before
    refine .inr ⟨rfl, .inl fun j hj => ?_⟩
    by_cases hbefore : j < s.counter
    · exact h j hbefore hj
    · exact freeOption_eq_none.mp hnone j (not_lt.mp hbefore) hj
  · rw [hst, hstore]
    exact .inr ⟨rfl, .inr (.inr hsize)⟩
  · rw [hst, hstore]
    -- an empty option deletes a variable that is not there
    by_cases hnil : writtenOption dp x.label x.arguments = []
    · rw [hnil]
      exact .inr ⟨VariableStore.set_nil (freeOption_eq_some hfree).1 _, .inr (.inl rfl)⟩
    · have hlen := length_writtenOption dp x.label x.arguments
      obtain ⟨v, hvar, hdata⟩ := VariableStore.set_of_ne_nil s.store
        ⟨bootName i, gvGuid⟩ hnil (hlen ▸ hsize) bootAttributes
      refine .inl ⟨bootName i, v, isBootName_bootName i, hvar, ?_⟩
      rw [hdata]
      exact isOption_writtenOption hsize

/-- An entry that was added once is settled. -/
theorem CounterBehind.settled (h : CounterBehind s)
    (fileDevicePath : List UInt16 → List DevicePathNode) (e : Enumeration) (x : BootEntry) :
    EntrySettled fileDevicePath x (addToBootList fileDevicePath s e x).2.store := by
  rcases h.outcome fileDevicePath e x with hpresent | ⟨-, hnever⟩
  · exact .inl hpresent
  · exact .inr hnever

/-- Nothing is created for an entry that is settled. -/
theorem EntrySettled.createsNothing (h : EntrySettled fileDevicePath x s.store) (e : Enumeration) :
    CreatesNothing s.store (addToBootList fileDevicePath s e x).2.store := by
  intro k hk
  rcases addToBootList_cases fileDevicePath s e x with ⟨-, hstore, -⟩ | ⟨hfind, heq⟩
  · rwa [hstore] at hk
  rw [heq] at hk
  rcases addBootOption_cases s (bootDevicePath (fileDevicePath (makeFullPath x.dirname x.filename)))
    (fileDevicePath (makeFullPath x.dirname x.filename)) x.label x.arguments with
    ⟨-, hstore, -⟩ | ⟨i, hfree, -, ⟨-, hstore⟩ | ⟨hsize, hstore⟩⟩
  · rwa [hstore] at hk
  · rwa [hstore] at hk
  · have hnone := (freeOption_eq_some hfree).1
    rcases h with hpresent | hfull | hnil | hlarge
    · exact absurd ((findBootOption_isOk_iff _ e _ _ _).mpr hpresent) hfind
    · -- the number found is below the end of the range
      have hi : i < 2 ^ 16 := by
        have hmem := List.mem_of_find?_eq_some hfree
        rw [List.mem_range'_1] at hmem
        omega
      have htaken := hfull i hi
      rw [hnone] at htaken
      cases htaken
    · -- writing no bytes under a name that is free changes nothing
      rw [hstore, hnil] at hk
      rwa [VariableStore.set_nil hnone] at hk
    · omega

/-- An entry that was added once is not added again: nothing is created the second time, and if
something was the first time, its option is found. -/
def AddedOnce (fileDevicePath : List UInt16 → List DevicePathNode) (s : FallbackState)
    (x : BootEntry) (first again : Enumeration) (between : List FallbackEvent) : Prop :=
  let dp := bootDevicePath (fileDevicePath (makeFullPath x.dirname x.filename))
  let s' := (addToBootList fileDevicePath s first x).2
  let t := run (fallbackStep fileDevicePath) s' between
  CreatesNothing t.store (addToBootList fileDevicePath t again x).2.store ∧
    (¬ CreatesNothing s.store s'.store →
      ∃ n, findBootOption t.store again dp x.label x.arguments = .ok n)

/-- After an entry was added, whatever else is added, ordered and booted, and in whatever order the
variables are listed, adding it again creates no variable. -/
theorem addedOnce (fileDevicePath : List UInt16 → List DevicePathNode) (store : VariableStore)
    (before between : List FallbackEvent) (x : BootEntry) (first again : Enumeration) :
    AddedOnce fileDevicePath (run (fallbackStep fileDevicePath) (.boot store) before) x first again
      between := by
  have hbehind := counterBehind_run fileDevicePath store before
  set s := run (fallbackStep fileDevicePath) (.boot store) before
  have hkeeps := keepsOptions_run fileDevicePath (addToBootList fileDevicePath s first x).2 between
  refine ⟨((hbehind.settled fileDevicePath first x).keep hkeeps).createsNothing again, fun hcreated => ?_⟩
  rw [findBootOption_isOk_iff]
  rcases hbehind.outcome fileDevicePath first x with
    ⟨name, v, hname, hv, hoption⟩ | ⟨hsame, -⟩
  · exact ⟨name, v, hname, hkeeps name v hname hv, hoption⟩
  · refine absurd (fun k hk => ?_) hcreated
    rwa [hsame] at hk

end Keep

end Shim
