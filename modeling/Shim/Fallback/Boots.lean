import Shim.Fallback.BootOrder
import Shim.Fallback.Directory

/-! # Boots through `fallback`

A boot takes the order from the firmware, adds the entries of the volume and stores the order
(`efi_main` and `find_boot_options` of fallback.c). An order that lists options that are there, each
once, stays one through any number of boots, whatever the volumes hold and answer; it loses nothing,
and what the volumes ask for is listed. A volume that has been booted from asks for nothing new.
-/

namespace Shim

open Runs
open Trust (text16)

/-! ## The code -/

/-- The entries are added one after the other, with an order of the variables for each; `none` where
a call does not return. -/
def addEntries (fileDevicePath : List UInt16 → List DevicePathNode) (order : ℕ → Enumeration) :
    ℕ → FallbackState → List BootEntry → Option FallbackState
  | _, s, [] => some s
  | i, s, x :: xs =>
    match addToBootList fileDevicePath s (order i) x with
    | (none, _) => none
    | (some _, s') => addEntries fileDevicePath order (i + 1) s' xs

/-- What a boot finds: the volume, and the orders in which the firmware lists its variables. -/
structure BootAnswers where
  volume : EfiVolume
  order : ℕ → Enumeration

/-- `find_boot_options`. -/
def findBootOptions (fileDevicePath : List UInt16 → List DevicePathNode) (arch : List UInt16)
    (b : BootAnswers) (s : FallbackState) : Option (EfiStatus × FallbackState) :=
  (bootEntries arch b.volume).bind fun r =>
    (addEntries fileDevicePath b.order 0 s r.2).map fun s =>
      (r.1, if !r.1.isError && s.bootOrder ≠ [] then updateBootOrder s else s)

/-- The variables after boots of `fallback`, one after the other. -/
def fallbackBoots (fileDevicePath : List UInt16 → List DevicePathNode) (arch : List UInt16) :
    List BootAnswers → VariableStore → Option VariableStore
  | [], store => some store
  | b :: boots, store =>
    (findBootOptions fileDevicePath arch b (.boot store)).bind fun r =>
      fallbackBoots fileDevicePath arch boots r.2.store

/-! ## What is expected -/

/-- The order lists options that are there, each once, and the names of options are spelled as
`fallback` spells them. -/
structure ConsistentStore (st : VariableStore) : Prop where
  nodup : (storedOrder st).Nodup
  listed : ∀ n ∈ storedOrder st, (st.vars ⟨bootName n, gvGuid⟩).isSome = true
  canonical : ∀ name, IsBootName name → (st.vars ⟨name, gvGuid⟩).isSome = true →
    ∃ i < 2 ^ 16, name = bootName i

/-- The option of an entry is there and listed; or it never gets one, since no number is free or
there is nothing that can be written. -/
def EntryListed (fileDevicePath : List UInt16 → List DevicePathNode) (x : BootEntry)
    (st : VariableStore) (order : List ℕ) : Prop :=
  let dp := bootDevicePath (fileDevicePath (makeFullPath x.dirname x.filename))
  (∃ name v, IsBootName name ∧ st.vars ⟨name, gvGuid⟩ = some v ∧
      isOption (expectedOption dp x.label x.arguments) (expectedSize dp x.label x.arguments)
        v.data = true ∧ optionNumber name ∈ order) ∨
    (∀ i < 2 ^ 16, (st.vars ⟨bootName i, gvGuid⟩).isSome = true) ∨
    writtenSize dp x.label x.arguments % 2 ^ 32 = 0 ∨
    2 ^ 31 ≤ writtenSize dp x.label x.arguments % 2 ^ 32

/-- What holds of the state as entries are added. -/
structure ListingSound (s : FallbackState) : Prop where
  sound : OrderSound s
  listed : ∀ n ∈ s.bootOrder, (s.store.vars ⟨bootName n, gvGuid⟩).isSome = true
  store : ConsistentStore s.store

section Boots

variable {fileDevicePath : List UInt16 → List DevicePathNode} {arch : List UInt16}
  {order : ℕ → Enumeration} {s s' : FallbackState} {st st' st'' : VariableStore}
  {e : Enumeration} {x : BootEntry} {xs : List BootEntry}

/-! ## An entry -/

/-- The digit of a value has that value. -/
theorem hexValue_hexDigit {n : ℕ} (h : n < 16) : hexValue (hexDigit n) = n := by
  revert n
  decide

/-- The number in a name is the one it is made of. -/
theorem optionNumber_bootName {i : ℕ} (h : i < 2 ^ 16) : optionNumber (bootName i) = i := by
  have hdigit : ∀ n, hexValue (hexDigit (n % 16)) = n % 16 := fun n =>
    hexValue_hexDigit (Nat.mod_lt n (by decide))
  have hdrop : (bootName i).drop 4 = [hexDigit (i / 4096 % 16), hexDigit (i / 256 % 16),
      hexDigit (i / 16 % 16), hexDigit (i % 16)] := rfl
  rw [optionNumber, hdrop]
  simp only [List.foldl_cons, List.foldl_nil, hdigit]
  omega

/-- Nothing leaves the order, and only the number that is moved is new. -/
theorem mem_movedFirst {l : List ℕ} {o : Option ℕ} {n : ℕ} :
    n ∈ movedFirst l o ↔ o = some n ∨ n ∈ l := by
  cases o with
  | none => simp [movedFirst]
  | some m =>
    by_cases hnm : n = m
    · simp [movedFirst, hnm]
    · simp [movedFirst, hnm, Ne.symm hnm]

/-- The option that a call is about is there afterwards. -/
theorem option_of_affected {n : ℕ} (h : affectedOption fileDevicePath s e x = some n) :
    let dp := bootDevicePath (fileDevicePath (makeFullPath x.dirname x.filename))
    ∃ name v, IsBootName name ∧
      (addToBootList fileDevicePath s e x).2.store.vars ⟨name, gvGuid⟩ = some v ∧
      isOption (expectedOption dp x.label x.arguments) (expectedSize dp x.label x.arguments)
        v.data = true ∧ optionNumber name = n := by
  intro dp
  unfold affectedOption at h
  dsimp only at h
  rcases addToBootList_cases fileDevicePath s e x with ⟨⟨m, hfind⟩, hstore, -⟩ | ⟨hmissing, heq⟩
  -- found: the variable is there already
  · rw [hfind] at h
    obtain rfl := Option.some.inj h
    rw [hstore]
    exact exists_of_searchOptions hfind
  · split at h
    · next m hfind => exact absurd ⟨m, hfind⟩ hmissing
    · split_ifs at h with herr
      -- created: the write succeeded, and stored the option
      have hlt := freeOption_lt h
      rcases addBootOption_order s dp (fileDevicePath (makeFullPath x.dirname x.filename)) x.label
        x.arguments with ⟨herr', -, -⟩ | ⟨-, hpos, hsize, -⟩
      · exact absurd herr' herr
      rcases addBootOption_cases s dp (fileDevicePath (makeFullPath x.dirname x.filename)) x.label
        x.arguments with ⟨hnone, -⟩ | ⟨i, hi, -, ⟨hlarge, -⟩ | ⟨-, hstore⟩⟩
      · rw [h] at hnone
        cases hnone
      · exact absurd hsize (Nat.not_lt.mpr hlarge)
      · obtain rfl := Option.some.inj (hi.symm.trans h)
        have hlen := length_writtenOption dp x.label x.arguments
        have hne : writtenOption dp x.label x.arguments ≠ [] :=
          List.ne_nil_of_length_pos (by omega)
        obtain ⟨v, hvar, hdata⟩ := VariableStore.set_of_ne_nil s.store ⟨bootName i, gvGuid⟩ hne
          (by omega) bootAttributes
        refine ⟨bootName i, v, isBootName_bootName i, ?_, ?_, optionNumber_bootName hlt⟩
        · rw [heq, hstore, hvar]
        · rw [hdata]
          exact isOption_writtenOption hsize

/-- The names of options stay spelled as they are. -/
theorem canonical_addToBootList
    (h : ∀ name, IsBootName name → (s.store.vars ⟨name, gvGuid⟩).isSome = true →
      ∃ i < 2 ^ 16, name = bootName i)
    (fileDevicePath : List UInt16 → List DevicePathNode) (e : Enumeration) (x : BootEntry) :
    ∀ name, IsBootName name →
      ((addToBootList fileDevicePath s e x).2.store.vars ⟨name, gvGuid⟩).isSome = true →
        ∃ i < 2 ^ 16, name = bootName i := by
  intro name hname hvar
  rcases addToBootList_cases fileDevicePath s e x with ⟨-, hstore, -⟩ | ⟨-, heq⟩
  · rw [hstore] at hvar
    exact h name hname hvar
  rw [heq] at hvar
  rcases addBootOption_cases s _ _ x.label x.arguments with
    ⟨-, hstore, -⟩ | ⟨i, hfree, -, ⟨-, hstore⟩ | ⟨-, hstore⟩⟩
  · rw [hstore] at hvar
    exact h name hname hvar
  · rw [hstore] at hvar
    exact h name hname hvar
  · by_cases hi : name = bootName i
    · exact ⟨i, freeOption_lt hfree, hi⟩
    · have hne : (⟨name, gvGuid⟩ : VariableKey) ≠ ⟨bootName i, gvGuid⟩ :=
        fun heq => hi (congrArg VariableKey.name heq)
      rw [hstore, VariableStore.set_of_ne hne] at hvar
      exact h name hname hvar

/-- Where all that is listed is there, a new option gets a number that is not listed. -/
theorem ListingSound.orderKept (h : ListingSound s)
    (fileDevicePath : List UInt16 → List DevicePathNode) (e : Enumeration) (x : BootEntry) :
    OrderKept fileDevicePath s (.addToBootList e x) := by
  refine h.sound.addToBootList_iff.mpr fun _ _ _ n hn hlisted => ?_
  have hvar := h.listed n hlisted
  rw [hn.2.1] at hvar
  cases hvar

/-- Adding an entry moves its number to the front. -/
theorem ListingSound.addToBootList (h : ListingSound s)
    (fileDevicePath : List UInt16 → List DevicePathNode) (e : Enumeration) (x : BootEntry) :
    ∃ status, Shim.addToBootList fileDevicePath s e x =
        (some status, (Shim.addToBootList fileDevicePath s e x).2) ∧
      (Shim.addToBootList fileDevicePath s e x).2.bootOrder =
        movedFirst s.bootOrder (affectedOption fileDevicePath s e x) := by
  obtain ⟨status, s', hrun, horder, -⟩ := h.orderKept fileDevicePath e x
  rw [addToBootListArray_eq] at hrun
  obtain ⟨status', hstatus, heq⟩ := Option.map_eq_some_iff.mp hrun
  obtain ⟨-, rfl⟩ := Prod.mk.inj heq
  exact ⟨status', Prod.ext hstatus rfl, horder⟩

/-- An entry keeps what is listed sound. -/
theorem ListingSound.step (h : ListingSound s)
    (fileDevicePath : List UInt16 → List DevicePathNode) (e : Enumeration) (x : BootEntry) :
    ListingSound (Shim.addToBootList fileDevicePath s e x).2 := by
  have hkeeps := keepsOptions_fallbackStep fileDevicePath s (.addToBootList e x)
  have hcanonical := canonical_addToBootList h.store.canonical fileDevicePath e x
  have hstored := storedOrder_addToBootList fileDevicePath s e x
  obtain ⟨-, -, horder⟩ := h.addToBootList fileDevicePath e x
  refine ⟨h.sound.step (h.orderKept fileDevicePath e x), fun n hn => ?_, ?_, fun n hn => ?_,
    hcanonical⟩
  · rw [horder] at hn
    rcases mem_movedFirst.mp hn with hn | hn
    · obtain ⟨name, v, hname, hvar, -, hnumber⟩ := option_of_affected hn
      obtain ⟨i, hi, rfl⟩ := hcanonical name hname (by rw [hvar]; rfl)
      rw [optionNumber_bootName hi] at hnumber
      rw [← hnumber, hvar]
      rfl
    · exact hkeeps.taken (h.listed n hn)
  · rw [hstored]
    exact h.store.nodup
  · rw [hstored] at hn
    exact hkeeps.taken (h.store.listed n hn)

/-- An entry that is added is listed. -/
theorem ListingSound.entryListed (h : ListingSound s)
    (fileDevicePath : List UInt16 → List DevicePathNode) (e : Enumeration) (x : BootEntry) :
    let s' := (Shim.addToBootList fileDevicePath s e x).2
    EntryListed fileDevicePath x s'.store s'.bootOrder := by
  intro s'
  obtain ⟨-, -, horder⟩ := h.addToBootList fileDevicePath e x
  cases haffected : affectedOption fileDevicePath s e x with
  -- found or created: its number is the first of the order
  | some n =>
    obtain ⟨name, v, hname, hvar, hoption, hnumber⟩ := option_of_affected haffected
    refine .inl ⟨name, v, hname, hvar, hoption, ?_⟩
    rw [horder, hnumber]
    exact mem_movedFirst.mpr (.inl haffected)
  | none =>
    right
    unfold affectedOption at haffected
    dsimp only at haffected
    split at haffected
    · cases haffected
    · next status hfind =>
      rcases addBootOption_order s (bootDevicePath (fileDevicePath (makeFullPath x.dirname
        x.filename))) (fileDevicePath (makeFullPath x.dirname x.filename)) x.label x.arguments with
        ⟨-, -, hnone | hnothing⟩ | ⟨hok, -, -, i, hfree, -⟩
      -- no number is free
      · left
        intro i hi
        have hkeeps := keepsOptions_fallbackStep fileDevicePath s (.addToBootList e x)
        refine hkeeps.taken ?_
        by_cases hbefore : i < s.counter
        · exact h.sound.behind i hbefore hi
        · exact freeOption_eq_none.mp hnone i (Nat.not_lt.mp hbefore) hi
      · exact .inr hnothing
      · rw [if_neg (by rw [hok]; exact Bool.false_ne_true), hfree] at haffected
        cases haffected

/-- What is listed stays so as options and the order grow. -/
theorem EntryListed.keep {order order' : List ℕ} (h : EntryListed fileDevicePath x st order)
    (hkeeps : KeepsOptions st st') (horder : ∀ n ∈ order, n ∈ order') :
    EntryListed fileDevicePath x st' order' := by
  rcases h with ⟨name, v, hname, hvar, hoption, hlisted⟩ | hfull | hnothing
  · exact .inl ⟨name, v, hname, hkeeps name v hname hvar, hoption, horder _ hlisted⟩
  · exact .inr (.inl fun i hi => hkeeps.taken (hfull i hi))
  · exact .inr (.inr hnothing)

/-- Options that are kept twice are kept. -/
theorem KeepsOptions.trans (h : KeepsOptions st st') (h' : KeepsOptions st' st'') :
    KeepsOptions st st'' :=
  fun name v hname hvar => h' name v hname (h name v hname hvar)

/-! ## The entries of a volume -/

/-- From a sound state on the entries are added, nothing is lost, and each entry is listed. -/
theorem ListingSound.addEntries (h : ListingSound s)
    (fileDevicePath : List UInt16 → List DevicePathNode) (order : ℕ → Enumeration) (i : ℕ)
    (xs : List BootEntry) :
    ∃ s', Shim.addEntries fileDevicePath order i s xs = some s' ∧ ListingSound s' ∧
      KeepsOptions s.store s'.store ∧ (∀ n ∈ s.bootOrder, n ∈ s'.bootOrder) ∧
      storedOrder s'.store = storedOrder s.store ∧
      ∀ x ∈ xs, EntryListed fileDevicePath x s'.store s'.bootOrder := by
  induction xs generalizing s i with
  | nil =>
    exact ⟨s, rfl, h, fun _ _ _ hvar => hvar, fun _ hn => hn, rfl,
      fun x hx => absurd hx List.not_mem_nil⟩
  | cons x xs ih =>
    obtain ⟨status, hrun, horder⟩ := h.addToBootList fileDevicePath (order i) x
    obtain ⟨s', hrest, hsound, hkeeps, hmem, hstored, hlisted⟩ :=
      ih (h.step fileDevicePath (order i) x) (i + 1)
    have hkeeps₁ := keepsOptions_fallbackStep fileDevicePath s (.addToBootList (order i) x)
    refine ⟨s', ?_, hsound, hkeeps₁.trans hkeeps, fun n hn => hmem n ?_, ?_, ?_⟩
    · rw [Shim.addEntries, hrun]
      exact hrest
    · rw [horder]
      exact mem_movedFirst.mpr (.inr hn)
    · exact hstored.trans (storedOrder_addToBootList fileDevicePath s (order i) x)
    · intro y hy
      rcases List.mem_cons.mp hy with rfl | hy
      · exact (h.entryListed fileDevicePath (order i) y).keep hkeeps hmem
      · exact hlisted y hy

/-- A boot from a consistent store starts sound. -/
theorem listingSound_boot (h : ConsistentStore st) : ListingSound (.boot st) := by
  refine ⟨orderSound_boot h.nodup, fun n hn => ?_, h⟩
  rw [boot_bootOrder] at hn
  exact h.listed n hn

/-- Storing the order touches no option. -/
theorem keepsOptions_updateBootOrder (s : FallbackState) :
    KeepsOptions s.store (updateBootOrder s).store :=
  keepsOptions_fallbackStep (fun _ => []) s .updateBootOrder

/-- Storing the order keeps the options, and a sound order is consistent when it is stored. -/
theorem ListingSound.consistent_update (h : ListingSound s) :
    ConsistentStore (updateBootOrder s).store := by
  have hkeeps := keepsOptions_updateBootOrder s
  have hstored := h.sound.storedOrder_update
  refine ⟨?_, fun n hn => ?_, fun name hname hvar => ?_⟩
  · rw [hstored]
    exact h.sound.nodup
  · rw [hstored] at hn
    exact hkeeps.taken (h.listed n hn)
  · refine h.store.canonical name hname ?_
    have hne := ne_bootOrderKey hname
    unfold updateBootOrder at hvar
    dsimp only at hvar
    rw [VariableStore.set_of_ne hne] at hvar
    split_ifs at hvar
    · rwa [VariableStore.set_of_ne hne] at hvar
    · exact hvar

/-- One boot. -/
theorem findBootOptions_consistent (h : ConsistentStore st)
    (fileDevicePath : List UInt16 → List DevicePathNode) (b : BootAnswers)
    (hentries : (bootEntries arch b.volume).isSome = true) :
    ∃ r, findBootOptions fileDevicePath arch b (.boot st) = some r ∧ ConsistentStore r.2.store ∧
      KeepsOptions st r.2.store ∧ (∀ n ∈ storedOrder st, n ∈ storedOrder r.2.store) ∧
      ∀ status entries, bootEntries arch b.volume = some (status, entries) →
        status.isError = false →
          ∀ x ∈ entries, EntryListed fileDevicePath x r.2.store (storedOrder r.2.store) := by
  obtain ⟨⟨status, entries⟩, hread⟩ := Option.isSome_iff_exists.mp hentries
  obtain ⟨s, hadd, hsound, hkeeps, hmem, hstored, hlisted⟩ :=
    (listingSound_boot h).addEntries fileDevicePath b.order 0 entries
  rw [boot_bootOrder] at hmem
  have hsame : ∀ {status' entries'}, bootEntries arch b.volume = some (status', entries') →
      status = status' ∧ entries = entries' :=
    fun h => Prod.mk.inj (Option.some.inj (hread.symm.trans h))
  refine ⟨_, by rw [findBootOptions, hread, Option.bind_some, hadd, Option.map_some], ?_⟩
  by_cases hupdate : (!status.isError && decide (s.bootOrder ≠ [])) = true
  · dsimp only
    rw [if_pos hupdate]
    have hkeeps' := keepsOptions_updateBootOrder s
    rw [hsound.sound.storedOrder_update]
    refine ⟨hsound.consistent_update, hkeeps.trans hkeeps', hmem,
      fun status' entries' heq _ x hx => ?_⟩
    obtain ⟨-, rfl⟩ := hsame heq
    exact (hlisted x hx).keep hkeeps' fun _ hn => hn
  · dsimp only
    rw [if_neg hupdate, hstored]
    refine ⟨hsound.store, hkeeps, fun _ hn => hn, fun status' entries' heq hok x hx => ?_⟩
    obtain ⟨rfl, rfl⟩ := hsame heq
    -- nothing is listed
    have hnil : s.bootOrder = [] := by simpa [hok] using hupdate
    refine (hlisted x hx).keep (fun _ _ _ hvar => hvar) fun n hn => ?_
    rw [hnil] at hn
    cases hn

/-- However often a machine is booted, from whatever volumes: an order that lists options that are
there, each once, stays one, no option and no place in the order is lost, and every entry of a volume
that could be read is listed unless it can have no option. -/
theorem fallbackBoots_consistent (h : ConsistentStore st) (boots : List BootAnswers)
    (hentries : ∀ b ∈ boots, (bootEntries arch b.volume).isSome = true) :
    ∃ st', fallbackBoots fileDevicePath arch boots st = some st' ∧ ConsistentStore st' ∧
      KeepsOptions st st' ∧ (∀ n ∈ storedOrder st, n ∈ storedOrder st') ∧
      ∀ b ∈ boots, ∀ status entries, bootEntries arch b.volume = some (status, entries) →
        status.isError = false →
          ∀ x ∈ entries, EntryListed fileDevicePath x st' (storedOrder st') := by
  induction boots generalizing st with
  | nil =>
    exact ⟨st, rfl, h, fun _ _ _ hvar => hvar, fun _ hn => hn,
      fun b hb => absurd hb List.not_mem_nil⟩
  | cons b boots ih =>
    obtain ⟨hb, hboots⟩ := List.forall_mem_cons.mp hentries
    obtain ⟨r, hrun, hr, hkeeps, hmem, hlisted⟩ :=
      findBootOptions_consistent h fileDevicePath b hb
    obtain ⟨st', hrest, hst', hkeeps', hmem', hlisted'⟩ := ih hr hboots
    refine ⟨st', ?_, hst', hkeeps.trans hkeeps', fun n hn => hmem' n (hmem n hn), ?_⟩
    · rw [fallbackBoots, hrun]
      exact hrest
    · intro b' hb'
      rcases List.mem_cons.mp hb' with rfl | hb'
      · exact fun status entries heq hok x hx =>
          (hlisted status entries heq hok x hx).keep hkeeps' hmem'
      · exact hlisted' b' hb'

/-! ## Booting again -/

/-- Entries that have been added are settled. -/
theorem settled_addEntries {i : ℕ} (h : CounterBehind s)
    (hadd : addEntries fileDevicePath order i s xs = some s') :
    KeepsOptions s.store s'.store ∧ ∀ x ∈ xs, EntrySettled fileDevicePath x s'.store := by
  induction xs generalizing s i with
  | nil =>
    obtain rfl := Option.some.inj hadd
    exact ⟨fun _ _ _ hvar => hvar, fun x hx => absurd hx List.not_mem_nil⟩
  | cons x xs ih =>
    rw [addEntries] at hadd
    split at hadd
    · cases hadd
    · next status s₁ hrun =>
      have hs₁ : s₁ = (addToBootList fileDevicePath s (order i) x).2 := by rw [hrun]
      have hbehind : CounterBehind s₁ := by
        rw [hs₁]
        exact h.step (.addToBootList (order i) x)
      have hkeeps : KeepsOptions s.store s₁.store := by
        rw [hs₁]
        exact keepsOptions_fallbackStep fileDevicePath s (.addToBootList (order i) x)
      obtain ⟨hrest, hsettled⟩ := ih hbehind hadd
      refine ⟨hkeeps.trans hrest, fun y hy => ?_⟩
      rcases List.mem_cons.mp hy with rfl | hy
      · have hy := h.settled fileDevicePath (order i) y
        rw [← hs₁] at hy
        exact hy.keep hrest
      · exact hsettled y hy

/-- For entries that are settled nothing is created. -/
theorem createsNothing_addEntries {i : ℕ} (h : ∀ x ∈ xs, EntrySettled fileDevicePath x s.store)
    (hadd : addEntries fileDevicePath order i s xs = some s') :
    CreatesNothing s.store s'.store := by
  induction xs generalizing s i with
  | nil =>
    obtain rfl := Option.some.inj hadd
    exact fun _ hk => hk
  | cons x xs ih =>
    obtain ⟨hx, hxs⟩ := List.forall_mem_cons.mp h
    rw [addEntries] at hadd
    split at hadd
    · cases hadd
    · next status s₁ hrun =>
      have hs₁ : s₁ = (addToBootList fileDevicePath s (order i) x).2 := by rw [hrun]
      have hkeeps : KeepsOptions s.store s₁.store := by
        rw [hs₁]
        exact keepsOptions_fallbackStep fileDevicePath s (.addToBootList (order i) x)
      have hfirst : CreatesNothing s.store s₁.store := by
        rw [hs₁]
        exact hx.createsNothing (order i)
      exact fun k hk => hfirst k (ih (fun y hy => (hxs y hy).keep hkeeps) hadd k hk)

/-- Behind the entries the order may be stored. -/
theorem findBootOptions_cases {b : BootAnswers} {r : EfiStatus × FallbackState}
    (h : findBootOptions fileDevicePath arch b s = some r) :
    ∃ status entries s', bootEntries arch b.volume = some (status, entries) ∧
      addEntries fileDevicePath b.order 0 s entries = some s' ∧
      (r.2 = s' ∨ r.2 = updateBootOrder s') := by
  obtain ⟨⟨status, entries⟩, hread, hmap⟩ := Option.bind_eq_some_iff.mp h
  obtain ⟨s', hadd, rfl⟩ := Option.map_eq_some_iff.mp hmap
  refine ⟨status, entries, s', hread, hadd, ?_⟩
  dsimp only
  split_ifs
  · exact .inr rfl
  · exact .inl rfl

/-- The counter starts at nought. -/
theorem counterBehind_boot (st : VariableStore) : CounterBehind (.boot st) :=
  fun j hj => absurd hj (Nat.not_lt_zero j)

/-- What a boot adds is settled behind it. -/
theorem settled_findBootOptions {b : BootAnswers} {r : EfiStatus × FallbackState}
    (h : findBootOptions fileDevicePath arch b (.boot st) = some r) :
    KeepsOptions st r.2.store ∧
      ∀ status entries, bootEntries arch b.volume = some (status, entries) →
        ∀ x ∈ entries, EntrySettled fileDevicePath x r.2.store := by
  obtain ⟨status, entries, s', hread, hadd, hs'⟩ := findBootOptions_cases h
  obtain ⟨hkeeps, hsettled⟩ := settled_addEntries (counterBehind_boot st) hadd
  have hlast : KeepsOptions s'.store r.2.store := by
    rcases hs' with heq | heq
    · rw [heq]
      exact fun _ _ _ hvar => hvar
    · rw [heq]
      exact keepsOptions_updateBootOrder s'
  refine ⟨hkeeps.trans hlast, fun status' entries' heq x hx => ?_⟩
  obtain ⟨-, rfl⟩ := Prod.mk.inj (Option.some.inj (hread.symm.trans heq))
  exact (hsettled x hx).keep hlast

/-- What any of the boots has added is settled behind the last. -/
theorem settled_fallbackBoots {boots : List BootAnswers}
    (h : fallbackBoots fileDevicePath arch boots st = some st') :
    KeepsOptions st st' ∧
      ∀ b ∈ boots, ∀ status entries, bootEntries arch b.volume = some (status, entries) →
        ∀ x ∈ entries, EntrySettled fileDevicePath x st' := by
  induction boots generalizing st with
  | nil =>
    obtain rfl := Option.some.inj h
    exact ⟨fun _ _ _ hvar => hvar, fun b hb => absurd hb List.not_mem_nil⟩
  | cons b boots ih =>
    obtain ⟨r, hfirst, hrest⟩ := Option.bind_eq_some_iff.mp h
    obtain ⟨hkeeps, hsettled⟩ := settled_findBootOptions hfirst
    obtain ⟨hkeeps', hsettled'⟩ := ih hrest
    refine ⟨hkeeps.trans hkeeps', fun b' hb' => ?_⟩
    rcases List.mem_cons.mp hb' with rfl | hb'
    · exact fun status entries heq x hx => (hsettled status entries heq x hx).keep hkeeps'
    · exact hsettled' b' hb'

/-- A volume that has been booted from before, with whatever boots in between, gets no new option:
neither where its entries are found under another spelling, nor where they could not be added. -/
theorem fallbackBoots_again {boots : List BootAnswers} {b again : BootAnswers}
    (hboots : fallbackBoots fileDevicePath arch boots st = some st') (hb : b ∈ boots)
    (hvolume : again.volume = b.volume)
    (hagain : fallbackBoots fileDevicePath arch [again] st' = some st'') :
    ∀ name, IsBootName name →
      ((st''.vars ⟨name, gvGuid⟩).isSome = true ↔ (st'.vars ⟨name, gvGuid⟩).isSome = true) := by
  intro name hname
  obtain ⟨r, hfind, hlast⟩ := Option.bind_eq_some_iff.mp hagain
  obtain rfl := Option.some.inj hlast
  obtain ⟨status, entries, s', hread, hadd, hs'⟩ := findBootOptions_cases hfind
  rw [hvolume] at hread
  have hsettled := (settled_fallbackBoots hboots).2 b hb status entries hread
  -- the entries were all added by the boot that read the same volume
  have hcreates := createsNothing_addEntries hsettled hadd
  -- and the order is another variable
  have hsame : r.2.store.vars ⟨name, gvGuid⟩ = s'.store.vars ⟨name, gvGuid⟩ := by
    rcases hs' with heq | heq
    · rw [heq]
    · have hne := ne_bootOrderKey hname
      rw [heq, updateBootOrder]
      dsimp only
      rw [VariableStore.set_of_ne hne]
      split_ifs
      · rw [VariableStore.set_of_ne hne]
      · rfl
  constructor
  · intro hvar
    rw [hsame] at hvar
    exact hcreates ⟨name, gvGuid⟩ hvar
  · intro hvar
    obtain ⟨v, hv⟩ := Option.isSome_iff_exists.mp hvar
    rw [(settled_findBootOptions hfind).1 name v hname hv]
    rfl

end Boots

/-! ### Two boots of a volume -/

/-- A volume with one boot file. -/
def vendorBoot : BootAnswers := ⟨plainVolume [vendorDir], fun _ => asMade⟩

/-- The options of the other system are consistent. -/
theorem consistent_orderedStore : ConsistentStore orderedStore where
  nodup := by decide
  listed := isSome_orderedStore
  canonical := by
    intro name hname hvar
    have hne : (⟨name, gvGuid⟩ : VariableKey) ≠ bootOrderKey := ne_bootOrderKey hname
    by_cases h : (⟨name, gvGuid⟩ : VariableKey) = ⟨bootName 0, gvGuid⟩ ∨
        (⟨name, gvGuid⟩ : VariableKey) = ⟨bootName 3, gvGuid⟩
    · rcases h with h | h
      · exact ⟨0, by decide, congrArg VariableKey.name h⟩
      · exact ⟨3, by decide, congrArg VariableKey.name h⟩
    · have hvars : orderedStore.vars ⟨name, gvGuid⟩ = none :=
        (if_neg hne).trans (if_neg h)
      rw [hvars] at hvar
      cases hvar

/-- The volume is read to its end. -/
theorem isSome_vendorBoot : (bootEntries (text16 "x64") vendorBoot.volume).isSome = true := by
  decide

/-- One boot, with the options of another system there. -/
theorem fallbackBoots_consistent_vendorBoot :
    ∃ st, fallbackBoots diskPath (text16 "x64") [vendorBoot] orderedStore = some st ∧
      ConsistentStore st ∧ KeepsOptions orderedStore st ∧
      (∀ n ∈ storedOrder orderedStore, n ∈ storedOrder st) ∧
      ∀ b ∈ [vendorBoot], ∀ status entries,
        bootEntries (text16 "x64") b.volume = some (status, entries) → status.isError = false →
          ∀ x ∈ entries, EntryListed diskPath x st (storedOrder st) :=
  fallbackBoots_consistent consistent_orderedStore [vendorBoot] (by simp [isSome_vendorBoot])

/-- The same boot twice. -/
theorem fallbackBoots_again_vendorBoot :
    ∃ st st', fallbackBoots diskPath (text16 "x64") [vendorBoot] orderedStore = some st ∧
      fallbackBoots diskPath (text16 "x64") [vendorBoot] st = some st' ∧
      ∀ name, IsBootName name →
        ((st'.vars ⟨name, gvGuid⟩).isSome = true ↔ (st.vars ⟨name, gvGuid⟩).isSome = true) := by
  obtain ⟨r, hfirst, hconsistent, -⟩ := findBootOptions_consistent consistent_orderedStore diskPath
    vendorBoot isSome_vendorBoot
  obtain ⟨r', hsecond, -⟩ := findBootOptions_consistent hconsistent diskPath vendorBoot
    isSome_vendorBoot
  have hboots : fallbackBoots diskPath (text16 "x64") [vendorBoot] orderedStore =
      some r.2.store := by
    rw [fallbackBoots, hfirst]
    rfl
  have hagain : fallbackBoots diskPath (text16 "x64") [vendorBoot] r.2.store =
      some r'.2.store := by
    rw [fallbackBoots, hsecond]
    rfl
  exact ⟨r.2.store, r'.2.store, hboots, hagain,
    fallbackBoots_again hboots List.mem_cons_self rfl hagain⟩

end Shim
