import Mathlib.Data.Finset.Card
import Shim.Fallback.Idempotent

/-! # The boot order

`set_boot_order`, `update_boot_order`, `add_boot_option` and `add_to_boot_list` (fallback.c) with
the arrays they build the order in. Every entry that is stored is checked to be inside of its array,
and so is every stretch that is copied. The arrays come to what `addToBootList` and
`updateBootOrder` say; the order is what is looked at here.
-/

namespace Shim

open Runs

/-! ## Arrays -/

section Arrays

variable {α : Type*}

/-- `a[i] = v`, or `none` outside of the array. -/
def setEntry (a : List α) (i : ℕ) (v : α) : Option (List α) :=
  if i < a.length then some (a.set i v) else none

/-- `CopyMem` of `n` entries between two arrays, or `none` where one of them ends before. -/
def copyEntries (dst : List α) (d : ℕ) (src : List α) (o n : ℕ) : Option (List α) :=
  if d + n ≤ dst.length ∧ o + n ≤ src.length then
    some (dst.take d ++ (src.drop o).take n ++ dst.drop (d + n))
  else none

/-- The first entry is replaced. -/
theorem setEntry_zero (a : List α) (b v : α) : setEntry (b :: a) 0 v = some (v :: a) :=
  if_pos (Nat.succ_pos _)

/-- A stretch is copied over one of its length. -/
theorem copyEntries_eq (pre old post before l after : List α) (h : old.length = l.length) :
    copyEntries (pre ++ old ++ post) pre.length (before ++ l ++ after) before.length l.length =
      some (pre ++ l ++ post) := by
  rw [copyEntries, if_pos (by simp only [List.length_append]; omega)]
  congr 1
  have hpost : (pre ++ old ++ post).drop (pre.length + l.length) = post := by
    rw [← h, ← List.length_append, List.drop_left]
  rw [hpost, List.append_assoc pre, List.take_left, List.append_assoc before, List.drop_left,
    List.take_left]

end Arrays

/-! ## The code -/

/-- The loop of `add_boot_option` over the entries of the old order. -/
def copyOrder (bootOrder : List ℕ) : (count j : ℕ) → List ℕ → Option (List ℕ)
  | 0, _, newBootOrder => some newBootOrder
  | count + 1, j, newBootOrder => do
    let entry ← bootOrder[j]?
    let newBootOrder ← setEntry newBootOrder (j + 1) entry
    copyOrder bootOrder count (j + 1) newBootOrder

/-- The new order of `add_boot_option`. -/
def prependNew (bootOrder : List ℕ) (i : ℕ) : Option (List ℕ) := do
  let newBootOrder := List.replicate (bootOrder.length + 1) 0
  let newBootOrder ← setEntry newBootOrder 0 (i % 2 ^ 16)
  copyOrder bootOrder bootOrder.length 0 newBootOrder

/-- `add_boot_option`, with the new order built in an array. -/
def addBootOptionArray (s : FallbackState) (dp full : List DevicePathNode)
    (label arguments : CsvField) : Option (EfiStatus × FallbackState) :=
  match freeOption s.store.vars s.counter with
  | none => some (.outOfResources, { s with counter := max s.counter (2 ^ 16) })
  | some i =>
    let s := { s with counter := i }
    if 2 ^ 31 ≤ writtenSize dp label arguments % 2 ^ 32 then some (.outOfResources, s)
    else
      let s := s.keepFirst full arguments
      let r := s.store.set ⟨bootName i, gvGuid⟩ (writtenOption dp label arguments) bootAttributes
      if r.1.isError then some (r.1, { s with store := r.2 })
      else
        (prependNew s.bootOrder i).map fun bootOrder =>
          (.success, { s with store := r.2, bootOrder })

/-- The search for the option in the order; the index is a `UINT16`. After `2 ^ 16` turns it is
back where it was, and the loop does not end. -/
def searchOrder (bootOrder : List ℕ) (option : ℕ) : (fuel bootnum : ℕ) → Option ℕ
  | 0, _ => none
  | fuel + 1, bootnum =>
    if bootnum < bootOrder.length then
      if bootOrder[bootnum]? = some option then some bootnum
      else searchOrder bootOrder option fuel ((bootnum + 1) % 2 ^ 16)
    else some bootnum

/-- The new order of `add_to_boot_list` for an option that was found. -/
def reorder (bootOrder : List ℕ) (option : ℕ) : Option (List ℕ) := do
  let bootnum ← searchOrder bootOrder option (2 ^ 16) 0
  if bootnum = bootOrder.length then
    -- prepend the option and copy the rest
    let newBootOrder := List.replicate (bootOrder.length + 1) 0
    let newBootOrder ← setEntry newBootOrder 0 option
    copyEntries newBootOrder 1 bootOrder 0 bootOrder.length
  else
    -- put first and slice the rest
    let newBootOrder := List.replicate bootOrder.length 0
    let newBootOrder ← setEntry newBootOrder 0 option
    let newBootOrder ← copyEntries newBootOrder 1 bootOrder 0 bootnum
    copyEntries newBootOrder (1 + bootnum) bootOrder (bootnum + 1)
      (bootOrder.length - bootnum - 1)

/-- `add_to_boot_list`, with the new order built in an array; `none` where an access is outside of
an array, or the call does not return. -/
def addToBootListArray (fileDevicePath : List UInt16 → List DevicePathNode) (s : FallbackState)
    (e : Enumeration) (x : BootEntry) : Option (EfiStatus × FallbackState) :=
  let full := fileDevicePath (makeFullPath x.dirname x.filename)
  let dp := bootDevicePath full
  match findBootOption s.store e dp x.label x.arguments with
  | .error status =>
    (addBootOptionArray s dp full x.label x.arguments).map fun r => (status, r.2)
  | .ok option =>
    let s := s.keepFirst full x.arguments
    (reorder s.bootOrder option).map fun bootOrder => (.success, { s with bootOrder })

/-- `update_boot_order`, with the copy it stores. -/
def updateBootOrderArray (s : FallbackState) : Option FallbackState := do
  let newBootOrder := List.replicate s.bootOrder.length 0
  let newBootOrder ← copyEntries newBootOrder 0 s.bootOrder 0 s.bootOrder.length
  let deleted := if (s.store.vars bootOrderKey).isSome then (s.store.set bootOrderKey [] 0).2
    else s.store
  return { s with
    store := (deleted.set bootOrderKey (newBootOrder.flatMap field16) bootAttributes).2 }

/-! ## Numbers of options -/

/-- A free number has four digits. -/
theorem freeOption_lt {vars : Variables VariableKey} {counter i : ℕ}
    (h : freeOption vars counter = some i) : i < 2 ^ 16 := by
  have hmem := List.mem_of_find?_eq_some h
  rw [List.mem_range'_1] at hmem
  omega

/-- A digit has four bits. -/
theorem hexValue_lt {c : UInt16} (h : isxdigit c) : hexValue c < 16 := by
  unfold isxdigit at h
  unfold hexValue
  split_ifs <;> omega

/-- So many digits are so many times four bits. -/
theorem foldl_hexValue_lt {l : List UInt16} (h : ∀ c ∈ l, isxdigit c) (n : ℕ) :
    l.foldl (fun n c => n * 16 + hexValue c) n < (n + 1) * 16 ^ l.length := by
  induction l generalizing n with
  | nil => simp
  | cons c l ih =>
    obtain ⟨hc, hl⟩ := List.forall_mem_cons.mp h
    have hdigit := hexValue_lt hc
    calc (c :: l).foldl (fun n c => n * 16 + hexValue c) n
        = l.foldl (fun n c => n * 16 + hexValue c) (n * 16 + hexValue c) := rfl
      _ < (n * 16 + hexValue c + 1) * 16 ^ l.length := ih hl _
      _ ≤ ((n + 1) * 16) * 16 ^ l.length := Nat.mul_le_mul_right _ (by omega)
      _ = (n + 1) * 16 ^ (c :: l).length := by
          rw [List.length_cons, Nat.pow_succ, Nat.mul_assoc, Nat.mul_comm 16]

/-- The number in a name has sixteen bits. -/
theorem optionNumber_lt {name : List UInt16} (h : IsBootName name) :
    optionNumber name < 2 ^ 16 := by
  have hlt := foldl_hexValue_lt h.2.2 0
  rwa [List.length_drop, h.1] at hlt

/-- The number that is found is that of an option. -/
theorem exists_of_searchOptions {vars : Variables VariableKey} {data : List UInt8} {size n : ℕ}
    {keys : List VariableKey} (h : searchOptions vars data size keys = .ok n) :
    ∃ name v, IsBootName name ∧ vars ⟨name, gvGuid⟩ = some v ∧ isOption data size v.data = true ∧
      optionNumber name = n := by
  induction keys with
  | nil => cases h
  | cons k keys ih =>
    by_cases hname : IsBootName k.name
    · rw [searchOptions, if_neg (not_not.mpr hname)] at h
      cases hvar : vars ⟨k.name, gvGuid⟩ with
      | none => exact ih (by simpa only [hvar] using h)
      | some v =>
        simp only [hvar] at h
        split_ifs at h with hoption
        · exact ⟨k.name, v, hname, hvar, hoption, Except.ok.inj h⟩
        · exact ih h
    · rw [searchOptions, if_pos hname] at h
      exact ih h

/-- So it has sixteen bits too. -/
theorem searchOptions_lt {vars : Variables VariableKey} {data : List UInt8} {size n : ℕ}
    {keys : List VariableKey} (h : searchOptions vars data size keys = .ok n) : n < 2 ^ 16 := by
  obtain ⟨name, -, hname, -, -, rfl⟩ := exists_of_searchOptions h
  exact optionNumber_lt hname

/-! ## The arrays come to the lists -/

section Refine

variable {bootOrder pre post : List ℕ} {option : ℕ}

/-- The loop replaces what is left of the new order. -/
theorem copyOrder_eq (before l : List ℕ) {i : ℕ} {old : List ℕ} (h : old.length = l.length) :
    copyOrder (before ++ l) l.length before.length (i :: before ++ old) =
      some (i :: before ++ l) := by
  induction l generalizing before old with
  | nil => rw [List.length_eq_zero_iff.mp h]; rfl
  | cons a l ih =>
    obtain ⟨b, old, rfl⟩ := List.exists_cons_of_length_eq_add_one h
    have hentry : (before ++ a :: l)[before.length]? = some a := by simp
    have hset : setEntry (i :: before ++ b :: old) (before.length + 1) a =
        some (i :: before ++ a :: old) := by
      rw [setEntry, if_pos (by simp)]
      simp
    rw [List.length_cons, copyOrder, hentry, Option.bind_eq_bind, Option.bind_some, hset,
      Option.bind_eq_bind, Option.bind_some]
    have hrest := ih (before ++ [a]) (Nat.succ.inj h)
    simpa [List.append_assoc] using hrest

/-- A new number is put in front of the array. -/
theorem prependNew_eq (bootOrder : List ℕ) {i : ℕ} (hi : i < 2 ^ 16) :
    prependNew bootOrder i = some (i :: bootOrder) := by
  rw [prependNew, Nat.mod_eq_of_lt hi, List.replicate_succ, setEntry_zero]
  exact copyOrder_eq [] bootOrder (List.length_replicate)

/-- The search from an index on: the option is there, or the end of the order is, or neither comes
before the index is back at the start. -/
theorem searchOrder_eq (before rest : List ℕ) {fuel : ℕ} (hfuel : before.length + fuel = 2 ^ 16) :
    searchOrder (before ++ rest) option fuel before.length =
      if option ∈ rest.take fuel then some (before.length + rest.idxOf option)
      else if rest.length < fuel then some (before.length + rest.length)
      else none := by
  induction fuel generalizing before rest with
  | zero => simp [searchOrder]
  | succ fuel ih =>
    cases rest with
    | nil => simp [searchOrder]
    | cons c rest =>
      have hentry : (before ++ c :: rest)[before.length]? = some c := by simp
      rw [searchOrder, if_pos (by simp), hentry]
      by_cases hc : c = option
      · simp [hc]
      -- the index has 16 bits, and the list is no longer than that
      · have hback : searchOrder (before ++ c :: rest) option fuel ((before.length + 1) % 2 ^ 16) =
            searchOrder (before ++ c :: rest) option fuel (before.length + 1) := by
          cases fuel with
          | zero => rfl
          | succ fuel => rw [Nat.mod_eq_of_lt (by omega)]
        have hrest := ih (before ++ [c]) rest
          (by rw [List.length_append, List.length_singleton]; omega)
        rw [List.append_assoc, List.singleton_append, List.length_append, List.length_singleton]
          at hrest
        have hmem : option ∈ (c :: rest).take (fuel + 1) ↔ option ∈ rest.take fuel := by
          simp [Ne.symm hc]
        rw [if_neg (by simpa using hc), hback, hrest]
        simp only [hmem, List.idxOf_cons_ne _ hc, List.length_cons, Nat.add_lt_add_iff_right,
          Nat.add_assoc, Nat.succ_eq_add_one, Nat.add_comm 1]

/-- An option that is not listed is put before the others. -/
theorem reorder_of_end (h : searchOrder bootOrder option (2 ^ 16) 0 = some bootOrder.length) :
    reorder bootOrder option = some (option :: bootOrder) := by
  rw [reorder, h, Option.bind_eq_bind, Option.bind_some, if_pos rfl, List.replicate_succ]
  dsimp only
  rw [setEntry_zero]
  have hcopy := copyEntries_eq [option] (List.replicate bootOrder.length 0) [] [] bootOrder []
    List.length_replicate
  simpa using hcopy

/-- An option that is listed is taken out and put before the others. -/
theorem reorder_of_split
    (h : searchOrder (pre ++ option :: post) option (2 ^ 16) 0 = some pre.length) :
    reorder (pre ++ option :: post) option = some (option :: (pre ++ post)) := by
  have hlen : (pre ++ option :: post).length = pre.length + post.length + 1 := by
    rw [List.length_append, List.length_cons]
    omega
  have hfirst : copyEntries (option :: List.replicate (pre.length + post.length) 0) 1
      (pre ++ option :: post) 0 pre.length =
        some (option :: (pre ++ List.replicate post.length 0)) := by
    have hcopy := copyEntries_eq [option] (List.replicate pre.length 0)
      (List.replicate post.length 0) [] pre (option :: post) List.length_replicate
    rwa [List.append_assoc, List.replicate_append_replicate] at hcopy
  have hsecond : copyEntries (option :: (pre ++ List.replicate post.length 0)) (1 + pre.length)
      (pre ++ option :: post) (pre.length + 1) post.length = some (option :: (pre ++ post)) := by
    have hcopy := copyEntries_eq (option :: pre) (List.replicate post.length 0) []
      (pre ++ [option]) post [] List.length_replicate
    simpa [Nat.add_comm] using hcopy
  have hrest : pre.length + post.length + 1 - pre.length - 1 = post.length := by omega
  rw [reorder, h, Option.bind_eq_bind, Option.bind_some, if_neg (by omega), hlen,
    List.replicate_succ, hrest]
  dsimp only
  rw [setEntry_zero, Option.bind_eq_bind, Option.bind_some, hfirst, Option.bind_some, hsecond]

/-- The array is what `putFirst` says. -/
theorem reorder_eq (bootOrder : List ℕ) (option : ℕ) :
    reorder bootOrder option = putFirst bootOrder option := by
  have hsearch : searchOrder bootOrder option (2 ^ 16) 0 =
      if option ∈ bootOrder.take (2 ^ 16) then some (0 + bootOrder.idxOf option)
      else if bootOrder.length < 2 ^ 16 then some (0 + bootOrder.length) else none :=
    searchOrder_eq [] bootOrder (Nat.zero_add _)
  rw [putFirst]
  split_ifs at hsearch ⊢ with hlisted hshort
  · obtain ⟨pre, post, rfl, hpre⟩ :=
      List.eq_append_cons_of_mem ((List.take_sublist _ _).mem hlisted)
    rw [List.idxOf_append_of_notMem hpre, List.idxOf_cons_self, Nat.zero_add] at hsearch
    rw [reorder_of_split hsearch, List.erase_append_right _ hpre, List.erase_cons_head]
  · rw [Nat.zero_add] at hsearch
    exact reorder_of_end hsearch
  · rw [reorder, hsearch]
    rfl

/-- `add_boot_option` on the array is the one on the list. -/
theorem addBootOptionArray_eq (s : FallbackState) (dp full : List DevicePathNode)
    (label arguments : CsvField) :
    addBootOptionArray s dp full label arguments =
      some (addBootOption s dp full label arguments) := by
  rw [addBootOptionArray, addBootOption]
  cases hfree : freeOption s.store.vars s.counter with
  | none => rfl
  | some i =>
    have hi : i < 2 ^ 16 := freeOption_lt hfree
    dsimp only
    split_ifs
    · rfl
    · rfl
    · rw [prependNew_eq _ hi]
      rfl

/-- The arrays come to the lists, where the call returns. -/
theorem addToBootListArray_eq (fileDevicePath : List UInt16 → List DevicePathNode)
    (s : FallbackState) (e : Enumeration) (x : BootEntry) :
    addToBootListArray fileDevicePath s e x =
      (addToBootList fileDevicePath s e x).1.map
        fun status => (status, (addToBootList fileDevicePath s e x).2) := by
  rw [addToBootListArray, addToBootList]
  dsimp only
  cases findBootOption s.store e (bootDevicePath (fileDevicePath (makeFullPath x.dirname
      x.filename))) x.label x.arguments with
  | error status =>
    dsimp only
    rw [addBootOptionArray_eq]
    rfl
  | ok option =>
    dsimp only
    rw [reorder_eq]
    cases putFirst (s.keepFirst _ x.arguments).bootOrder option <;> rfl

/-- `update_boot_order` on the array is the one on the list. -/
theorem updateBootOrderArray_eq (s : FallbackState) :
    updateBootOrderArray s = some (updateBootOrder s) := by
  have hcopy := copyEntries_eq [] (List.replicate s.bootOrder.length 0) [] [] s.bootOrder []
    List.length_replicate
  rw [List.nil_append, List.append_nil, List.nil_append, List.append_nil] at hcopy
  rw [updateBootOrderArray]
  dsimp only
  rw [show copyEntries (List.replicate s.bootOrder.length 0) 0 s.bootOrder 0 s.bootOrder.length =
    some s.bootOrder from hcopy]
  rfl

end Refine

/-! ## What is expected -/

/-- The numbers `BootOrder` has. -/
def storedOrder (store : VariableStore) : List ℕ := bootOrderOf (contents store.vars bootOrderKey)

/-- The number a call is about: that of the option it finds, or of the one it creates. -/
def affectedOption (fileDevicePath : List UInt16 → List DevicePathNode) (s : FallbackState)
    (e : Enumeration) (x : BootEntry) : Option ℕ :=
  let full := fileDevicePath (makeFullPath x.dirname x.filename)
  let dp := bootDevicePath full
  match findBootOption s.store e dp x.label x.arguments with
  | .ok option => some option
  | .error _ =>
    if (addBootOption s dp full x.label x.arguments).1.isError then none
    else freeOption s.store.vars s.counter

/-- An order with a number first, and the others as they were. -/
def movedFirst (bootOrder : List ℕ) : Option ℕ → List ℕ
  | none => bootOrder
  | some n => n :: bootOrder.filter (· ≠ n)

/-- A call puts the option it is about first, loses nothing and repeats nothing; and what is stored
is the order. -/
def OrderKept (fileDevicePath : List UInt16 → List DevicePathNode) (s : FallbackState) :
    FallbackEvent → Prop
  | .addToBootList e x => ∃ status s', addToBootListArray fileDevicePath s e x = some (status, s') ∧
      s'.bootOrder = movedFirst s.bootOrder (affectedOption fileDevicePath s e x) ∧
      s'.bootOrder.Nodup
  | .updateBootOrder => ∃ s', updateBootOrderArray s = some s' ∧
      storedOrder s'.store = s.bootOrder
  | .boot => True

/-! ## When it is met -/

/-- The least number that no variable has. -/
def LeastFree (store : VariableStore) (n : ℕ) : Prop :=
  n < 2 ^ 16 ∧ store.vars ⟨bootName n, gvGuid⟩ = none ∧
    ∀ j < n, (store.vars ⟨bootName j, gvGuid⟩).isSome = true

/-- Where an entry needs a new variable, and there is something that can be written, the order does
not have the least free number yet. -/
def NumberUnlisted (fileDevicePath : List UInt16 → List DevicePathNode) (s : FallbackState) :
    FallbackEvent → Prop
  | .addToBootList _ x =>
    let dp := bootDevicePath (fileDevicePath (makeFullPath x.dirname x.filename))
    ¬ OptionPresent s.store (expectedOption dp x.label x.arguments)
      (expectedSize dp x.label x.arguments) →
    0 < writtenSize dp x.label x.arguments % 2 ^ 32 →
    writtenSize dp x.label x.arguments % 2 ^ 32 < 2 ^ 31 →
    ∀ n, LeastFree s.store n → n ∉ s.bootOrder
  | _ => True

/-! ## The invariant -/

/-- The orders, in memory and stored, have each number once. -/
structure OrderSound (s : FallbackState) : Prop where
  behind : CounterBehind s
  nodup : s.bootOrder.Nodup
  lt : ∀ n ∈ s.bootOrder, n < 2 ^ 16
  stored : (storedOrder s.store).Nodup

section Orders

variable {l : List ℕ} {n : ℕ} {data : List UInt8} {st : VariableStore}

/-- The numbers of an order have sixteen bits. -/
theorem bootOrderOf_lt (data : List UInt8) : ∀ n ∈ bootOrderOf data, n < 2 ^ 16 := by
  intro n hn
  obtain ⟨i, -, rfl⟩ := List.mem_map.mp hn
  exact Region.u16_lt _ _

/-- A number takes two bytes. -/
theorem length_flatMap_field16 (l : List ℕ) : (l.flatMap field16).length = 2 * l.length := by
  have hfield : ∀ n ∈ l, (field16 n).length = 2 := fun _ _ => rfl
  rw [List.length_flatMap, List.map_congr_left hfield, List.map_const', List.sum_replicate_nat,
    Nat.mul_comm]

/-- The numbers that are stored are read back. -/
theorem map_u16 {r : Region} {p : ℕ} (h : r.HoldsAt p (l.flatMap field16))
    (hl : ∀ n ∈ l, n < 2 ^ 16) : (List.range l.length).map (fun i => r.u16 (p + 2 * i)) = l := by
  induction l generalizing p with
  | nil => rfl
  | cons n l ih =>
    obtain ⟨hn, hl⟩ := List.forall_mem_cons.mp hl
    rw [List.flatMap_cons, Region.holdsAt_append] at h
    obtain ⟨hfirst, hrest⟩ := h
    rw [List.length_cons, List.range_succ_eq_map, List.map_cons, List.map_map]
    congr 1
    · exact Region.HoldsAt.u16 hfirst hn
    · refine Eq.trans (List.map_congr_left fun i _ => ?_) (ih hrest hl)
      change r.u16 (p + 2 * (i + 1)) = r.u16 (p + 2 + 2 * i)
      rw [show p + 2 * (i + 1) = p + 2 + 2 * i by omega]

/-- What is stored of an order is the order. -/
theorem bootOrderOf_flatMap (hl : ∀ n ∈ l, n < 2 ^ 16) : bootOrderOf (l.flatMap field16) = l := by
  have hmap := map_u16 (Region.holdsAt_ofList_zero 0 (l.flatMap field16)) hl
  rw [bootOrderOf, length_flatMap_field16, Nat.mul_div_cancel_left _ (by decide)]
  simpa using hmap

/-- An order without repetitions is no longer than there are numbers. -/
theorem length_le_of_nodup (hnodup : l.Nodup) (hlt : ∀ n ∈ l, n < 2 ^ 16) :
    l.length ≤ 2 ^ 16 := by
  have hsub : l.toFinset ⊆ Finset.range (2 ^ 16) := fun n hn =>
    Finset.mem_range.mpr (hlt n (List.mem_toFinset.mp hn))
  have hcard := Finset.card_le_card hsub
  rwa [List.toFinset_card_of_nodup hnodup, Finset.card_range] at hcard

/-- Moving a number to the front doubles none. -/
theorem nodup_movedFirst (h : l.Nodup) : ∀ o, (movedFirst l o).Nodup
  | none => h
  | some n => List.nodup_cons.mpr ⟨by simp, h.filter _⟩

/-- A number that is not listed is put in front. -/
theorem movedFirst_of_notMem (h : n ∉ l) : movedFirst l (some n) = n :: l := by
  rw [movedFirst, List.filter_eq_self.mpr]
  intro m hm
  simpa using ne_of_mem_of_not_mem hm h

/-- In an order without repetitions the search comes to an end. -/
theorem putFirst_eq (hnodup : l.Nodup) (hlt : ∀ n ∈ l, n < 2 ^ 16) (hn : n < 2 ^ 16) :
    putFirst l n = some (movedFirst l (some n)) := by
  have hlen := length_le_of_nodup hnodup hlt
  rw [putFirst, List.take_of_length_le hlen]
  by_cases hmem : n ∈ l
  · rw [if_pos hmem, hnodup.erase_eq_filter, movedFirst]
    congr 2
    refine List.filter_congr fun m _ => ?_
    simp [bne, beq_eq_decide]
  · have hshort : l.length < 2 ^ 16 := by
      have hall := length_le_of_nodup (List.nodup_cons.mpr ⟨hmem, hnodup⟩)
        (List.forall_mem_cons.mpr ⟨hn, hlt⟩)
      exact hall
    rw [if_neg hmem, if_pos hshort, movedFirst_of_notMem hmem]

/-- Writing no bytes leaves no variable. -/
theorem VariableStore.set_nil_self (st : VariableStore) (k : VariableKey) (attrs : ℕ) :
    (st.set k [] attrs).2.vars k = none := by
  by_cases h : st.vars k = none
  · rw [VariableStore.set_nil h, h]
  · change (writeVariable st.vars k [] attrs none).2 k = none
    rw [writeVariable, dif_pos (by decide), setVariable_of_nil rfl h]
    exact Function.update_self _ _ _

end Orders

/-! ## A call -/

section Call

variable {fileDevicePath : List UInt16 → List DevicePathNode} {s : FallbackState} {e : Enumeration}
  {x : BootEntry} {dp full : List DevicePathNode} {label arguments : CsvField}

/-- The number that is taken is the least free one. -/
theorem CounterBehind.freeOption_iff (h : CounterBehind s) {n : ℕ} :
    freeOption s.store.vars s.counter = some n ↔ LeastFree s.store n := by
  have hleast : ∀ {m}, freeOption s.store.vars s.counter = some m → LeastFree s.store m := by
    intro m hm
    have hlt := freeOption_lt hm
    obtain ⟨hfree, hbefore⟩ := freeOption_eq_some hm
    refine ⟨hlt, hfree, fun j hj => ?_⟩
    -- the numbers in front of the counter are taken, those behind it are looked at
    by_cases hpassed : j < s.counter
    · exact h j hpassed (hj.trans hlt)
    · exact hbefore j (not_lt.mp hpassed) hj
  refine ⟨hleast, fun hn => ?_⟩
  obtain ⟨hlt, hfree, hbefore⟩ := hn
  cases hm : freeOption s.store.vars s.counter with
  | none =>
    have hpassed : s.counter ≤ n := by
      by_contra hcounter
      have htaken := h n (not_le.mp hcounter) hlt
      rw [hfree] at htaken
      cases htaken
    have htaken := freeOption_eq_none.mp hm n hpassed hlt
    rw [hfree] at htaken
    cases htaken
  | some m =>
    obtain ⟨-, hfree', hbefore'⟩ := hleast hm
    rcases lt_trichotomy m n with hmn | rfl | hnm
    · have htaken := hbefore m hmn
      rw [hfree'] at htaken
      cases htaken
    · rfl
    · have htaken := hbefore' n hnm
      rw [hfree] at htaken
      cases htaken

/-- What `add_boot_option` does to the order: there is no number left, or nothing that can be
written, and the order stays; or the number is put before the others. -/
theorem addBootOption_order (s : FallbackState) (dp full : List DevicePathNode)
    (label arguments : CsvField) :
    let r := addBootOption s dp full label arguments
    (r.1.isError = true ∧ r.2.bootOrder = s.bootOrder ∧
      (freeOption s.store.vars s.counter = none ∨ writtenSize dp label arguments % 2 ^ 32 = 0 ∨
        2 ^ 31 ≤ writtenSize dp label arguments % 2 ^ 32)) ∨
    (r.1.isError = false ∧ 0 < writtenSize dp label arguments % 2 ^ 32 ∧
      writtenSize dp label arguments % 2 ^ 32 < 2 ^ 31 ∧
        ∃ i, freeOption s.store.vars s.counter = some i ∧ r.2.bootOrder = i :: s.bootOrder) := by
  intro r
  have hr : r = addBootOption s dp full label arguments := rfl
  rw [addBootOption] at hr
  cases hfree : freeOption s.store.vars s.counter with
  | none =>
    rw [hfree] at hr
    rw [hr]
    exact .inl ⟨rfl, rfl, .inl rfl⟩
  | some i =>
    rw [hfree] at hr
    dsimp only at hr
    have hnone := (freeOption_eq_some hfree).1
    have hlen := length_writtenOption dp label arguments
    -- the size is cut to 32 bits before the variable is written
    by_cases hlarge : 2 ^ 31 ≤ writtenSize dp label arguments % 2 ^ 32
    · rw [if_pos hlarge] at hr
      rw [hr]
      exact .inl ⟨rfl, rfl, .inr (.inr hlarge)⟩
    rw [if_neg hlarge, FallbackState.keepFirst] at hr
    dsimp only at hr
    by_cases hnil : writtenOption dp label arguments = []
    · -- there is nothing to write, and no variable to delete
      have hstatus : (s.store.set ⟨bootName i, gvGuid⟩ [] bootAttributes).1 = .notFound :=
        congrArg Prod.fst
          (setVariable_of_nil_of_none (v := ⟨[], bootAttributes, by decide⟩) rfl hnone)
      rw [hnil, if_pos (by rw [hstatus]; rfl)] at hr
      rw [hnil] at hlen
      rw [hr]
      refine .inl ⟨?_, rfl, .inr (.inl hlen.symm)⟩
      dsimp only
      rw [hstatus]
      rfl
    · have hpos : 0 < writtenSize dp label arguments % 2 ^ 32 := by
        rw [← hlen]
        exact List.length_pos_of_ne_nil hnil
      have hstatus : (s.store.set ⟨bootName i, gvGuid⟩ (writtenOption dp label arguments)
          bootAttributes).1 = .success :=
        (writeVariable_success bootAttributes (.inl hnil) (by omega)).1
      rw [if_neg (by rw [hstatus]; exact Bool.false_ne_true)] at hr
      rw [hr]
      exact .inr ⟨rfl, hpos, not_le.mp hlarge, i, rfl, rfl⟩

/-- A call keeps the order if and only if a new option has a number that is not listed. -/
theorem OrderSound.addToBootList_iff (h : OrderSound s) :
    OrderKept fileDevicePath s (.addToBootList e x) ↔
      NumberUnlisted fileDevicePath s (.addToBootList e x) := by
  set full := fileDevicePath (makeFullPath x.dirname x.filename) with hfull
  set dp := bootDevicePath full with hdp
  rw [OrderKept, addToBootListArray_eq, NumberUnlisted, ← hfull, ← hdp,
    ← findBootOption_isOk_iff s.store e]
  cases hfind : findBootOption s.store e dp x.label x.arguments with
  -- a variable has the option: its number is moved to the front
  | ok option =>
    refine iff_of_true ?_ fun hmissing => absurd ⟨option, rfl⟩ hmissing
    have hput := putFirst_eq h.nodup h.lt (searchOptions_lt hfind)
    have hrun : addToBootList fileDevicePath s e x = (some .success,
        { s.keepFirst full x.arguments with
          bootOrder := movedFirst s.bootOrder (some option) }) := by
      rw [addToBootList, ← hfull, ← hdp, hfind]
      dsimp only
      rw [show putFirst (s.keepFirst full x.arguments).bootOrder option = _ from hput]
    have haffected : affectedOption fileDevicePath s e x = some option := by
      rw [affectedOption, ← hfull, ← hdp, hfind]
    rw [hrun, haffected]
    exact ⟨_, _, rfl, rfl, nodup_movedFirst h.nodup (some option)⟩
  -- a new variable is needed
  | error status =>
    have hmissing : ¬∃ n, (Except.error status : Except EfiStatus ℕ) = .ok n := by
      rintro ⟨n, hn⟩
      cases hn
    have hrun : addToBootList fileDevicePath s e x =
        (some status, (addBootOption s dp full x.label x.arguments).2) := by
      rw [addToBootList, ← hfull, ← hdp, hfind]
    have haffected : affectedOption fileDevicePath s e x =
        if (addBootOption s dp full x.label x.arguments).1.isError then none
        else freeOption s.store.vars s.counter := by
      rw [affectedOption, ← hfull, ← hdp, hfind]
    rw [hrun, haffected, Option.map_some]
    have hexists : ∀ {P : FallbackState → Prop} {s' : FallbackState},
        (∃ status' t, some (status, s') = some (status', t) ∧ P t) ↔ P s' := by
      intro P s'
      constructor
      · rintro ⟨_, _, heq, hP⟩
        obtain ⟨rfl, rfl⟩ := Prod.mk.inj (Option.some.inj heq)
        exact hP
      · exact fun hP => ⟨status, s', rfl, hP⟩
    rw [hexists, imp_iff_right hmissing]
    rcases addBootOption_order s dp full x.label x.arguments with
      ⟨herr, horder, hnothing⟩ | ⟨hok, hpos, hlt, i, hfree, horder⟩
    · -- nothing is created
      rw [herr, if_pos rfl, horder]
      refine iff_of_true ⟨rfl, h.nodup⟩ fun hpos hlt n hn => ?_
      rcases hnothing with hnone | hzero | hlarge
      · rw [h.behind.freeOption_iff.mpr hn] at hnone
        cases hnone
      · omega
      · omega
    · rw [hok, if_neg Bool.false_ne_true, horder, hfree, imp_iff_right hpos, imp_iff_right hlt]
      constructor
      · rintro ⟨-, hnodup⟩ n hn
        obtain rfl := Option.some.inj (hfree.symm.trans (h.behind.freeOption_iff.mpr hn))
        exact (List.nodup_cons.mp hnodup).1
      · intro hunlisted
        have hi := hunlisted i (h.behind.freeOption_iff.mp hfree)
        rw [movedFirst_of_notMem hi]
        exact ⟨rfl, List.nodup_cons.mpr ⟨hi, h.nodup⟩⟩

/-- What is stored is the order. -/
theorem OrderSound.storedOrder_update (h : OrderSound s) :
    storedOrder (updateBootOrder s).store = s.bootOrder := by
  set deleted := if (s.store.vars bootOrderKey).isSome then (s.store.set bootOrderKey [] 0).2
    else s.store with hdeleted
  have hstore : (updateBootOrder s).store =
    (deleted.set bootOrderKey (s.bootOrder.flatMap field16) bootAttributes).2 := rfl
  have hnone : deleted.vars bootOrderKey = none := by
    rw [hdeleted]
    split_ifs with hvar
    · exact VariableStore.set_nil_self _ _ _
    · simpa using hvar
  rw [storedOrder, hstore]
  by_cases hnil : s.bootOrder = []
  · rw [hnil, List.flatMap_nil, contents, VariableStore.set_nil_self]
    rfl
  · have hlen := length_le_of_nodup h.nodup h.lt
    have hbytes := length_flatMap_field16 s.bootOrder
    have hpos : 0 < s.bootOrder.length := List.length_pos_of_ne_nil hnil
    have hdata : s.bootOrder.flatMap field16 ≠ [] := List.ne_nil_of_length_pos (by omega)
    have hcontents : contents (deleted.set bootOrderKey (s.bootOrder.flatMap field16)
        bootAttributes).2.vars bootOrderKey = s.bootOrder.flatMap field16 :=
      (writeVariable_success bootAttributes (.inl hdata) (by omega)).2
    rw [hcontents, bootOrderOf_flatMap h.lt]

/-- Storing the order keeps it. -/
theorem OrderSound.updateBootOrder (h : OrderSound s) :
    OrderKept fileDevicePath s .updateBootOrder :=
  ⟨_, updateBootOrderArray_eq s, h.storedOrder_update⟩

/-! ## Runs -/

/-- A boot starts with the order that is stored. -/
theorem boot_bootOrder (store : VariableStore) :
    (FallbackState.boot store).bootOrder = storedOrder store := by
  rw [FallbackState.boot, storedOrder, contents]
  cases store.vars bootOrderKey <;> rfl

/-- Adding an entry does not store the order. -/
theorem storedOrder_addToBootList (fileDevicePath : List UInt16 → List DevicePathNode)
    (s : FallbackState) (e : Enumeration) (x : BootEntry) :
    storedOrder (addToBootList fileDevicePath s e x).2.store = storedOrder s.store := by
  have hsame : (addToBootList fileDevicePath s e x).2.store.vars bootOrderKey =
      s.store.vars bootOrderKey := by
    rcases addToBootList_cases fileDevicePath s e x with ⟨-, hstore, -⟩ | ⟨-, heq⟩
    · rw [hstore]
    · rw [heq]
      rcases addBootOption_cases s _ _ x.label x.arguments with
        ⟨-, hstore, -⟩ | ⟨i, -, -, ⟨-, hstore⟩ | ⟨-, hstore⟩⟩
      · rw [hstore]
      · rw [hstore]
      · rw [hstore, VariableStore.set_of_ne (ne_bootOrderKey (isBootName_bootName i)).symm]
  rw [storedOrder, storedOrder, contents_congr hsame]

/-- The number of an entry has sixteen bits. -/
theorem affectedOption_lt {n : ℕ} (h : affectedOption fileDevicePath s e x = some n) :
    n < 2 ^ 16 := by
  rw [affectedOption] at h
  split at h
  · rename_i hfind
    obtain rfl := Option.some.inj h
    exact searchOptions_lt hfind
  · split_ifs at h
    exact freeOption_lt h

/-- So have the numbers of the order behind it. -/
theorem lt_of_mem_movedFirst {l : List ℕ} {o : Option ℕ} (hl : ∀ n ∈ l, n < 2 ^ 16)
    (ho : ∀ n, o = some n → n < 2 ^ 16) : ∀ n ∈ movedFirst l o, n < 2 ^ 16 := by
  cases o with
  | none => exact hl
  | some m =>
    refine List.forall_mem_cons.mpr ⟨ho m rfl, fun n hn => ?_⟩
    exact hl n (List.mem_of_mem_filter hn)

/-- A boot from an order without repetitions starts sound. -/
theorem orderSound_boot {store : VariableStore} (hnodup : (storedOrder store).Nodup) :
    OrderSound (.boot store) where
  behind := fun j hj => absurd hj (Nat.not_lt_zero j)
  nodup := by rwa [boot_bootOrder]
  lt := by
    rw [boot_bootOrder]
    exact bootOrderOf_lt _
  stored := hnodup

/-- The orders stay sound as long as they are kept. -/
theorem OrderSound.step (h : OrderSound s) {event : FallbackEvent}
    (hkept : OrderKept fileDevicePath s event) :
    OrderSound (fallbackStep fileDevicePath s event) := by
  have hbehind : CounterBehind (fallbackStep fileDevicePath s event) := h.behind.step event
  cases event with
  | addToBootList e x =>
    obtain ⟨status, s', hrun, horder, hnodup⟩ := hkept
    rw [addToBootListArray_eq] at hrun
    obtain ⟨_, -, heq⟩ := Option.map_eq_some_iff.mp hrun
    obtain ⟨-, rfl⟩ := Prod.mk.inj heq
    refine ⟨hbehind, hnodup, ?_, ?_⟩
    · intro n hn
      rw [fallbackStep, horder] at hn
      exact lt_of_mem_movedFirst h.lt (fun _ => affectedOption_lt) n hn
    · rw [fallbackStep, storedOrder_addToBootList]
      exact h.stored
  | updateBootOrder =>
    refine ⟨hbehind, h.nodup, h.lt, ?_⟩
    rw [fallbackStep, h.storedOrder_update]
    exact h.nodup
  | boot =>
    have hsound := orderSound_boot h.stored
    exact ⟨hbehind, hsound.nodup, hsound.lt, hsound.stored⟩

/-- A call on a sound state keeps the order exactly if its number is not listed. -/
theorem OrderSound.orderKept_iff (h : OrderSound s) (event : FallbackEvent) :
    OrderKept fileDevicePath s event ↔ NumberUnlisted fileDevicePath s event := by
  cases event with
  | addToBootList e x => exact h.addToBootList_iff
  | updateBootOrder => exact iff_of_true h.updateBootOrder trivial
  | boot => exact iff_of_true trivial trivial

/-- Whatever is added, stored and booted, from a boot with an order without repetitions on: every
call keeps the order if and only if no new option gets a number that is listed already. -/
theorem orderKept_along (fileDevicePath : List UInt16 → List DevicePathNode)
    (store : VariableStore) (hnodup : (storedOrder store).Nodup) (events : List FallbackEvent) :
    Along (fallbackStep fileDevicePath) (OrderKept fileDevicePath) (.boot store) events ↔
      Along (fallbackStep fileDevicePath) (NumberUnlisted fileDevicePath) (.boot store) events := by
  refine along_iff_of_invariant ?_ ?_ (orderSound_boot hnodup)
  · intro s event h hunlisted
    exact h.step ((h.orderKept_iff event).mpr hunlisted)
  · intro s event h
    exact h.orderKept_iff event

end Call

/-! ### A number without its variable -/

/-- The device path of a file on a disk. -/
def diskPath (_ : List UInt16) : List DevicePathNode :=
  [⟨4, 1, List.replicate 38 0, by decide, by decide⟩, ⟨4, 4, [0x61, 0, 0, 0], by decide, by decide⟩]

/-- The variables are listed in the order they were made. -/
def asMade : Enumeration := ⟨id, fun keys => List.Perm.refl keys⟩

/-- The first line of a boot file: `a` is called `b`. -/
def firstEntry : BootEntry where
  dirname := [0x64]
  filename := [0x61]
  label := ⟨[0x62], by decide, by decide⟩
  arguments := ⟨[], CsvField.nil_no_nul, CsvField.nil_length_lt⟩

/-- The options 0 and 3 of another system, in the order 3, 0. -/
def orderedStore : VariableStore where
  vars := fun k =>
    if k = bootOrderKey then some ⟨[3, 0, 0, 0], bootAttributes, by decide⟩
    else if k = ⟨bootName 0, gvGuid⟩ ∨ k = ⟨bootName 3, gvGuid⟩ then
      some ⟨[1, 0, 0, 0, 4, 0], bootAttributes, by decide⟩
    else none
  keys := [⟨bootName 3, gvGuid⟩, bootOrderKey, ⟨bootName 0, gvGuid⟩]
  mem_keys := fun k => by
    by_cases hk : k = bootOrderKey
    · simp [hk]
    · by_cases h : k = ⟨bootName 0, gvGuid⟩ ∨ k = ⟨bootName 3, gvGuid⟩
      · simp [hk, h, or_comm]
      · simp [hk, h]
        tauto

/-- Every listed number has its variable. -/
theorem isSome_orderedStore : ∀ n ∈ storedOrder orderedStore,
    (orderedStore.vars ⟨bootName n, gvGuid⟩).isSome = true := by
  have horder : storedOrder orderedStore = [3, 0] := by decide
  rw [horder]
  decide

/-- An order with the number 0, and no variable of that number. -/
def staleStore : VariableStore where
  vars := fun k => if k = bootOrderKey then some ⟨[0, 0], bootAttributes, by decide⟩ else none
  keys := [bootOrderKey]
  mem_keys := fun k => by by_cases hk : k = bootOrderKey <;> simp [hk]

/-- There is no variable of any option. -/
theorem staleStore_vars {name : List UInt16} (h : IsBootName name) :
    staleStore.vars ⟨name, gvGuid⟩ = none := if_neg (ne_bootOrderKey h)

/-- The entry gets the number 1, which the order does not have. -/
theorem orderKept_along_orderedStore :
    Along (fallbackStep diskPath) (OrderKept diskPath) (.boot orderedStore)
      [.addToBootList asMade firstEntry, .updateBootOrder, .boot] := by
  refine (orderKept_along diskPath orderedStore (by decide) _).mpr ⟨?_, trivial, trivial, trivial⟩
  intro _ _ _ n hfree hn
  rw [boot_bootOrder] at hn
  have hvar : orderedStore.vars ⟨bootName n, gvGuid⟩ = none := hfree.2.1
  have hsome := isSome_orderedStore n hn
  rw [hvar] at hsome
  cases hsome

/-- The number of the variable that is gone is given away again, and is then listed twice. -/
theorem not_orderKept_stale : (storedOrder staleStore).Nodup ∧
    ¬ OrderKept diskPath (.boot staleStore) (.addToBootList asMade firstEntry) := by
  have hnodup : (storedOrder staleStore).Nodup := by decide
  refine ⟨hnodup, fun hkept => ?_⟩
  have hunlisted := (orderSound_boot hnodup).addToBootList_iff.mp hkept
  refine hunlisted ?_ (by decide) (by decide) 0 ?_ (by decide)
  · rintro ⟨name, v, hname, hv, -⟩
    rw [show (FallbackState.boot staleStore).store.vars ⟨name, gvGuid⟩ = none from
      staleStore_vars hname] at hv
    cases hv
  · exact ⟨by decide, staleStore_vars (isBootName_bootName 0),
      fun j hj => absurd hj (Nat.not_lt_zero j)⟩

end Shim
