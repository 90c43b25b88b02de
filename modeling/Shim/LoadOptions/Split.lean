import Shim.Common.ByteMap
import Shim.LoadOptions.ImagePath
import Shim.LoadOptions.OptionalData

/-! # The name of the second stage

`split_load_options` (load-options.c:263-300), which cuts a name off load options in place, and
`parse_load_options` (load-options.c:305-461) over it. Offsets are those into the load options;
sizes count bytes, and characters have two of them, at any offset.
-/

namespace Shim.LoadOptions

open ImagePath (strnCaseCmp toInt)

/-! ## The code -/

/-- `L' '`. -/
def space : ℕ := 0x20

/-- Data and its size: an offset, or `none` for `NULL`. -/
structure Span where
  start : Option ℕ
  size : ℕ
  deriving DecidableEq

/-- The offsets of the characters that are read or written, the load options after the call, the
offset that is returned, and `*remaining` with `*remaining_size`. -/
structure SplitRun where
  accesses : List ℕ
  memory : Region
  arg0 : Option ℕ
  remaining : Span

/-- Skip spaces, with `left` characters to go. -/
def skipSpaces (d : Region) : (left o : ℕ) → List ℕ × ℕ
  | 0, o => ([], o)
  | left + 1, o =>
    if d.u16 o ≠ space then ([o], o)
    else
      let rest := skipSpaces d left (o + 2)
      (o :: rest.1, rest.2)

/-- Where a name ends. -/
def findEnd (d : Region) : (left o : ℕ) → List ℕ × Option ℕ
  | 0, _ => ([], none)
  | left + 1, o =>
    if d.u16 o = space ∨ d.u16 o = 0 then ([o], some o)
    else
      let rest := findEnd d left (o + 2)
      (o :: rest.1, rest.2)

/-- A NUL is written over a character. -/
def storeNul (d : Region) (o : ℕ) : Region := { d with byte := ByteMap.zero d.byte o 2 }

/-- What is left of data behind an offset. -/
def suffix (o stop : ℕ) : Span := ⟨if 0 < stop - o then some o else none, stop - o⟩

/-- `split_load_options`. -/
def splitLoadOptions (d : Region) (data dataSize : ℕ) (remaining : Span) : SplitRun :=
  let skipped := skipSpaces d (dataSize / 2) data
  let start := skipped.2
  let found := findEnd d ((dataSize - (start - data)) / 2) start
  match found.2 with
  | none => ⟨skipped.1 ++ found.1, d, none, remaining⟩
  | some o =>
    ⟨skipped.1 ++ found.1 ++ [o], storeNul d o, some start, suffix (o + 2) (data + dataSize)⟩

/-- `BDS_GUID`. -/
def bdsGuid : List UInt8 :=
  Region.le32 0x8108ac4e ++ Region.le16 0x9f11 ++ Region.le16 0x4d59 ++
    [0x85, 0x0e, 0xe2, 0x1a, 0x52, 0x2c, 0x59, 0xb2]

/-- What is known of the image that shim was loaded as: its load options, the text of its path,
and what `generate_path_from_image_path` makes of a name. -/
structure LoadedImage where
  options : OptionBuffer
  dppath : Option (List UInt16)
  generatePath : List UInt16 → Except EfiStatus (List UInt16)

/-- The string at an offset. -/
def stringAt (d : Region) (o : ℕ) : List UInt16 :=
  ((List.range ((d.size - o) / 2)).map fun k => UInt16.ofNat (d.u16 (o + 2 * k))).takeWhile (· ≠ 0)

/-- `is_our_path`. -/
def isOurPath (li : LoadedImage) (path : List UInt16) : Bool :=
  match li.dppath with
  | none => false
  | some dppath =>
    match li.generatePath path with
    | .error _ => true
    | .ok pathName => strnCaseCmp (toInt dppath.length).toNat dppath pathName = 0

/-- The load options, `LoadOptions` and `LoadOptionsSize`, `loader_str`, `second_stage` where it is
set, and what the second stage is handed. -/
structure ParseRun where
  memory : Region
  options : Span
  loaderStr : Option ℕ
  secondStage : Option ℕ
  handed : Option Span
  status : EfiStatus

/-- The size without a GUID that a firmware puts at the end. -/
def trimmedSize (d : Region) : ℕ :=
  if 16 < d.size ∧ d.bytes (d.size - 16) 16 = bdsGuid then d.size - 16 else d.size

/-- The options that are split are chosen. -/
def finishParse (memory : Region) (options remaining : Span) : ParseRun :=
  let split := splitLoadOptions memory (options.start.getD 0) options.size remaining
  match split.arg0 with
  | none => ⟨split.memory, options, none, none, none, .success⟩
  | some o =>
    ⟨split.memory, options, some o, if split.memory.u16 o ≠ 0 then some o else none,
      some split.remaining, .success⟩

/-- The options are no load option, and have been split: their first name is left out if it is the
path of shim itself. -/
def skipOwnPath (li : LoadedImage) (whole : Span) (split : SplitRun) : ParseRun :=
  match split.arg0 with
  | none => finishParse split.memory whole split.remaining
  | some o =>
    if isOurPath li (stringAt split.memory o) then
      finishParse split.memory split.remaining split.remaining
    else finishParse split.memory whole split.remaining

/-- The end of `parse_load_options`, with what `get_load_option_optional_data` answers. What
`remaining` and `remaining_size` start as is not looked at. -/
def chooseOptions (li : LoadedImage) (d : Region) (optional : OptionalDataRun) : ParseRun :=
  let options : Span := ⟨optional.out.od, optional.out.ods⟩
  if optional.status.isError then
    skipOwnPath li options
      (splitLoadOptions d (options.start.getD 0) options.size ⟨none, 0⟩)
  else finishParse d options ⟨none, 0⟩

/-- A call that leaves everything alone. -/
def untouched (d : Region) (size : ℕ) (status : EfiStatus) : ParseRun :=
  ⟨d, ⟨some 0, size⟩, none, none, none, status⟩

/-- `parse_load_options`; `none` where `fuel` turns are not enough for the device path of a load
option. -/
def parseLoadOptions (li : LoadedImage) (fuel : ℕ) : Option ParseRun :=
  let d := li.options.toRegion
  if d.size % 2 ≠ 0 then some (untouched d d.size .success)
  else if d.size = 0 then some (untouched d d.size .success)
  else if d.size < 2 then some (untouched d d.size .badBufferSize)
  else
    let size := trimmedSize d
    if d.u16 0 = 0 then some (untouched d size .success)
    else
      (getLoadOptionOptionalData { d with size := size } ⟨some 0, size⟩ fuel).map
        (chooseOptions li { d with size := size })

/-! ## What is expected -/

section Expected

variable (d : Region) (data dataSize : ℕ)

/-- A character that ends a name. -/
def EndsName (o : ℕ) : Prop := d.u16 o = space ∨ d.u16 o = 0

instance (o : ℕ) : Decidable (EndsName d o) := inferInstanceAs (Decidable (_ ∨ _))

/-- Behind `spaces` leading spaces there is a name of `length` characters, and what ends it. -/
structure NameAt (spaces length : ℕ) : Prop where
  leading : ∀ k < spaces, d.u16 (data + 2 * k) = space
  first : d.u16 (data + 2 * spaces) ≠ space
  name : ∀ k < length, ¬ EndsName d (data + 2 * (spaces + k))
  ends : EndsName d (data + 2 * (spaces + length))
  inside : 2 * (spaces + length + 1) ≤ dataSize

/-- A run that cuts off the name, if there is one, and does nothing else. -/
structure SplitsRight (remaining : Span) (run : SplitRun) : Prop where
  inside : ∀ o ∈ run.accesses, data ≤ o ∧ o + 2 ≤ data + dataSize
  found : ∀ spaces length, NameAt d data dataSize spaces length →
    run.arg0 = some (data + 2 * spaces) ∧
      run.memory = storeNul d (data + 2 * (spaces + length)) ∧
      run.remaining = suffix (data + 2 * (spaces + length + 1)) (data + dataSize)
  missing : (∀ spaces length, ¬ NameAt d data dataSize spaces length) →
    run.arg0 = none ∧ run.memory = d ∧ run.remaining = remaining
  again : ∀ remaining', let run' := splitLoadOptions run.memory data dataSize remaining'
    run'.arg0 = run.arg0 ∧ run'.memory = run.memory ∧
      (run.arg0 ≠ none → run'.remaining = run.remaining)

end Expected

/-- The string at an offset is `name`. -/
def HasName (d : Region) (o : ℕ) (name : List UInt16) : Prop :=
  (∀ k (hk : k < name.length), d.u16 (o + 2 * k) = name[k].toNat) ∧ 0 ∉ name ∧
    d.u16 (o + 2 * name.length) = 0

/-- What the second stage is handed is what is behind the name of the loader up to `stop`; the name
is that of the second stage unless it is empty. -/
def HandsSuffix (stop : ℕ) (run : ParseRun) : Prop :=
  (∀ handed, run.handed = some handed → ∃ o name, run.loaderStr = some o ∧
    HasName run.memory o name ∧ o + 2 * (name.length + 1) ≤ stop ∧
      handed = suffix (o + 2 * (name.length + 1)) stop ∧
      run.secondStage = if name = [] then none else some o) ∧
  (run.handed = none → run.loaderStr = none ∧ run.secondStage = none)

/-! ## Splitting -/

section Splitting

variable {d : Region} {data dataSize left o : ℕ}

/-- The spaces in front of a name. -/
theorem skipSpaces_spec (d : Region) (left o : ℕ) : ∃ spaces ≤ left,
    (skipSpaces d left o).2 = o + 2 * spaces ∧ (∀ k < spaces, d.u16 (o + 2 * k) = space) ∧
      (spaces < left → d.u16 (o + 2 * spaces) ≠ space) := by
  induction left generalizing o with
  | zero => exact ⟨0, le_rfl, rfl, fun k hk => absurd hk (Nat.not_lt_zero k),
      fun h => absurd h (lt_irrefl 0)⟩
  | succ left ih =>
    rw [skipSpaces]
    by_cases hspace : d.u16 o ≠ space
    · rw [if_pos hspace]
      exact ⟨0, Nat.zero_le _, rfl, fun k hk => absurd hk (Nat.not_lt_zero k), fun _ => hspace⟩
    · obtain ⟨spaces, hle, hstart, hspaces, hfirst⟩ := ih (o + 2)
      rw [if_neg hspace]
      refine ⟨spaces + 1, by omega, ?_, ?_, ?_⟩
      · dsimp only
        rw [hstart]
        omega
      · intro k hk
        rcases Nat.eq_zero_or_pos k with rfl | hk0
        · exact not_not.mp hspace
        · have hnext := hspaces (k - 1) (by omega)
          rwa [show o + 2 + 2 * (k - 1) = o + 2 * k by omega] at hnext
      · intro hlt
        have hnext := hfirst (by omega)
        rwa [show o + 2 + 2 * spaces = o + 2 * (spaces + 1) by omega] at hnext

/-- The search for a name stays in the options. -/
theorem skipSpaces_inside (d : Region) (left o : ℕ) :
    ∀ a ∈ (skipSpaces d left o).1, o ≤ a ∧ a + 2 ≤ o + 2 * left := by
  induction left generalizing o with
  | zero => exact fun a ha => absurd ha List.not_mem_nil
  | succ left ih =>
    intro a ha
    rw [skipSpaces] at ha
    split_ifs at ha
    · obtain rfl := List.mem_singleton.mp ha
      omega
    · rcases List.mem_cons.mp ha with rfl | ha
      · omega
      · have := ih (o + 2) a ha
        omega

/-- The first character that ends a name. -/
theorem findEnd_spec (d : Region) (left o : ℕ) :
    (∃ length < left, (findEnd d left o).2 = some (o + 2 * length) ∧
      (∀ k < length, ¬ EndsName d (o + 2 * k)) ∧ EndsName d (o + 2 * length)) ∨
    (findEnd d left o).2 = none ∧ ∀ k < left, ¬ EndsName d (o + 2 * k) := by
  induction left generalizing o with
  | zero => exact .inr ⟨rfl, fun k hk => absurd hk (Nat.not_lt_zero k)⟩
  | succ left ih =>
    rw [findEnd]
    by_cases hend : d.u16 o = space ∨ d.u16 o = 0
    · rw [if_pos hend]
      exact .inl ⟨0, by omega, rfl, fun k hk => absurd hk (Nat.not_lt_zero k), hend⟩
    · rw [if_neg hend]
      have hshift : ∀ k, o + 2 + 2 * k = o + 2 * (k + 1) := fun k => by omega
      have hall : ∀ {n}, (∀ k < n, ¬ EndsName d (o + 2 + 2 * k)) →
          ∀ k < n + 1, ¬ EndsName d (o + 2 * k) := by
        intro n h k hk
        cases k with
        | zero => exact hend
        | succ k => exact hshift k ▸ h k (by omega)
      rcases ih (o + 2) with ⟨length, hlt, hfound, hname, hends⟩ | ⟨hnone, hname⟩
      · exact .inl ⟨length + 1, by omega, hshift length ▸ hfound, hall hname,
          hshift length ▸ hends⟩
      · exact .inr ⟨hnone, hall hname⟩

/-- So does the search for its end. -/
theorem findEnd_inside (d : Region) (left o : ℕ) :
    ∀ a ∈ (findEnd d left o).1, o ≤ a ∧ a + 2 ≤ o + 2 * left := by
  induction left generalizing o with
  | zero => exact fun a ha => absurd ha List.not_mem_nil
  | succ left ih =>
    intro a ha
    rw [findEnd] at ha
    split_ifs at ha
    · obtain rfl := List.mem_singleton.mp ha
      omega
    · rcases List.mem_cons.mp ha with rfl | ha
      · omega
      · have := ih (o + 2) a ha
        omega

/-- There is one name at most. -/
theorem NameAt.unique {s s' n n' : ℕ} (h : NameAt d data dataSize s n)
    (h' : NameAt d data dataSize s' n') : s = s' ∧ n = n' := by
  obtain rfl : s = s' := by
    rcases lt_trichotomy s s' with hlt | heq | hlt
    · exact absurd (h'.leading s hlt) h.first
    · exact heq
    · exact absurd (h.leading s' hlt) h'.first
  refine ⟨rfl, ?_⟩
  rcases lt_trichotomy n n' with hlt | heq | hlt
  · exact absurd h.ends (h'.name n hlt)
  · exact heq
  · exact absurd h'.ends (h.name n' hlt)

/-- What a split does: it cuts off the name, or finds none. -/
theorem splitLoadOptions_cases (d : Region) (data dataSize : ℕ) (remaining : Span) :
    (∃ s n accesses, NameAt d data dataSize s n ∧
      splitLoadOptions d data dataSize remaining = ⟨accesses, storeNul d (data + 2 * (s + n)),
        some (data + 2 * s), suffix (data + 2 * (s + n + 1)) (data + dataSize)⟩) ∨
    (∀ s n, ¬ NameAt d data dataSize s n) ∧ ∃ accesses,
      splitLoadOptions d data dataSize remaining = ⟨accesses, d, none, remaining⟩ := by
  -- behind the leading spaces, up to the next space or NUL
  obtain ⟨s, hle, hstart, hleading, hfirst⟩ := skipSpaces_spec d (dataSize / 2) data
  have hleft : (dataSize - (data + 2 * s - data)) / 2 = dataSize / 2 - s := by omega
  have hshift : ∀ k, data + 2 * s + 2 * k = data + 2 * (s + k) := fun k => by omega
  unfold splitLoadOptions
  dsimp only
  rw [hstart, hleft]
  rcases findEnd_spec d (dataSize / 2 - s) (data + 2 * s) with
    ⟨n, hlt, hfound, hname, hends⟩ | ⟨hnone, hname⟩
  · left
    rw [hfound]
    simp only [hshift] at hname hends ⊢
    exact ⟨s, n, _, ⟨hleading, hfirst (by omega), hname, hends, by omega⟩, rfl⟩
  · right
    rw [hnone]
    refine ⟨fun s' n' h => ?_, _, rfl⟩
    have hinside := h.inside
    -- a name could only start behind the same spaces
    have hs : s = s' := by
      rcases lt_trichotomy s s' with hlt | heq | hlt
      · exact absurd (h.leading s hlt) (hfirst (by omega))
      · exact heq
      · exact absurd (hleading s' hlt) h.first
    subst hs
    have hnot := hname n' (by omega)
    rw [hshift] at hnot
    exact hnot h.ends

/-- So does the whole split. -/
theorem splitLoadOptions_inside (d : Region) (data dataSize : ℕ) (remaining : Span) :
    ∀ o ∈ (splitLoadOptions d data dataSize remaining).accesses,
      data ≤ o ∧ o + 2 ≤ data + dataSize := by
  obtain ⟨s, hle, hstart, -, -⟩ := skipSpaces_spec d (dataSize / 2) data
  have hleft : (dataSize - (data + 2 * s - data)) / 2 = dataSize / 2 - s := by omega
  have hskip := skipSpaces_inside d (dataSize / 2) data
  have hfind := findEnd_inside d (dataSize / 2 - s) (data + 2 * s)
  have hreads : ∀ o ∈ (skipSpaces d (dataSize / 2) data).1 ++
      (findEnd d (dataSize / 2 - s) (data + 2 * s)).1, data ≤ o ∧ o + 2 ≤ data + dataSize := by
    intro o ho
    rcases List.mem_append.mp ho with ho | ho
    · have := hskip o ho
      omega
    · have := hfind o ho
      omega
  unfold splitLoadOptions
  dsimp only
  rw [hstart, hleft]
  rcases findEnd_spec d (dataSize / 2 - s) (data + 2 * s) with
    ⟨n, hlt, hfound, -, -⟩ | ⟨hnone, -⟩
  · rw [hfound]
    intro o ho
    rcases List.mem_append.mp ho with ho | ho
    · exact hreads o ho
    · obtain rfl := List.mem_singleton.mp ho
      omega
  · rw [hnone]
    exact hreads

/-! ## Splitting again -/

/-- The NUL is there. -/
theorem storeNul_u16_self (d : Region) (o : ℕ) : (storeNul d o).u16 o = 0 := by
  have hlow : (storeNul d o).byte o = 0 := @ByteMap.fill_inside d.byte o 2 (fun _ => 0) 0 (by omega)
  have hhigh : (storeNul d o).byte (o + 1) = 0 :=
    @ByteMap.fill_inside d.byte o 2 (fun _ => 0) 1 (by omega)
  rw [Region.u16, hlow, hhigh]
  rfl

/-- No other character is changed. -/
theorem storeNul_u16_of_ne {p : ℕ} (h : p + 2 ≤ o ∨ o + 2 ≤ p) :
    (storeNul d o).u16 p = d.u16 p := by
  have hkept : ∀ i, i < o ∨ o + 2 ≤ i → (storeNul d o).byte i = d.byte i :=
    fun i hi => @ByteMap.fill_outside d.byte o 2 (fun _ => 0) i hi
  rw [Region.u16, Region.u16, hkept p (by omega), hkept (p + 1) (by omega)]

/-- A second NUL in the same place changes nothing. -/
theorem storeNul_storeNul (d : Region) (o : ℕ) : storeNul (storeNul d o) o = storeNul d o := by
  have hbyte : ByteMap.zero (ByteMap.zero d.byte o 2) o 2 = ByteMap.zero d.byte o 2 := by
    funext i
    unfold ByteMap.zero ByteMap.fill
    split_ifs <;> rfl
  unfold storeNul
  dsimp only
  rw [hbyte]

/-- The name is still there when it has been cut off. -/
theorem NameAt.storeNul {s n : ℕ} (h : NameAt d data dataSize s n) :
    NameAt (storeNul d (data + 2 * (s + n))) data dataSize s n := by
  have hsame : ∀ k, k ≠ s + n →
      (LoadOptions.storeNul d (data + 2 * (s + n))).u16 (data + 2 * k) = d.u16 (data + 2 * k) :=
    fun k hk => storeNul_u16_of_ne (by omega)
  have hself := storeNul_u16_self d (data + 2 * (s + n))
  refine ⟨?_, ?_, ?_, .inr hself, h.inside⟩
  · intro k hk
    rw [hsame k (by omega)]
    exact h.leading k hk
  · rcases Nat.eq_zero_or_pos n with rfl | hn
    · rw [Nat.add_zero] at hself ⊢
      rw [hself]
      decide
    · rw [hsame s (by omega)]
      exact h.first
  · intro k hk
    unfold EndsName
    rw [hsame (s + k) (by omega)]
    exact h.name k hk

/-- A split does what it should. -/
theorem splitLoadOptions_right (d : Region) (data dataSize : ℕ) (remaining : Span) :
    SplitsRight d data dataSize remaining (splitLoadOptions d data dataSize remaining) := by
  have hinside := splitLoadOptions_inside d data dataSize remaining
  rcases splitLoadOptions_cases d data dataSize remaining with
    ⟨s, n, accesses, hname, heq⟩ | ⟨hnone, accesses, heq⟩
  · rw [heq] at hinside ⊢
    refine ⟨hinside, ?_, fun hc => absurd hname (hc s n), ?_⟩
    · intro s' n' hname'
      obtain ⟨rfl, rfl⟩ := hname.unique hname'
      exact ⟨rfl, rfl, rfl⟩
    · intro remaining'
      dsimp only
      have hname' := hname.storeNul
      rcases splitLoadOptions_cases (storeNul d (data + 2 * (s + n))) data dataSize remaining' with
        ⟨s', n', accesses', hname'', heq'⟩ | ⟨hnone, -⟩
      · obtain ⟨rfl, rfl⟩ := hname'.unique hname''
        rw [heq']
        exact ⟨rfl, storeNul_storeNul d _, fun _ => rfl⟩
      · exact absurd hname' (hnone s n)
  · rw [heq] at hinside ⊢
    refine ⟨hinside, fun s n h => absurd h (hnone s n), fun _ => ⟨rfl, rfl, rfl⟩, ?_⟩
    intro remaining'
    dsimp only
    rcases splitLoadOptions_cases d data dataSize remaining' with
      ⟨s, n, -, hname, -⟩ | ⟨-, accesses', heq'⟩
    · exact absurd hname (hnone s n)
    · rw [heq']
      exact ⟨rfl, rfl, fun hc => absurd rfl hc⟩

end Splitting

/-! ## What is handed on -/

section Handing

variable {d : Region} {stop : ℕ} {options remaining : Span}

/-- Data that goes up to `stop`, or no data. -/
def UpTo (stop : ℕ) (options : Span) : Prop :=
  options = ⟨none, 0⟩ ∨ ∃ o ≤ stop, options = ⟨some o, stop - o⟩

/-- A suffix goes up to the end. -/
theorem upTo_suffix {o : ℕ} (h : o ≤ stop) : UpTo stop (suffix o stop) := by
  unfold suffix
  rcases h.eq_or_lt with rfl | hlt
  · rw [Nat.sub_self, if_neg (lt_irrefl 0)]
    exact .inl rfl
  · rw [if_pos (by omega)]
    exact .inr ⟨o, h, rfl⟩

/-- A name that was cut off is a string. -/
theorem NameAt.hasName {data dataSize s n : ℕ} (h : NameAt d data dataSize s n) :
    ∃ name : List UInt16, name.length = n ∧
      HasName (LoadOptions.storeNul d (data + 2 * (s + n))) (data + 2 * s) name := by
  let name := (List.range n).map fun k => UInt16.ofNat (d.u16 (data + 2 * (s + k)))
  have hlen : name.length = n := by simp [name]
  have hget : ∀ k (hk : k < name.length), name[k].toNat = d.u16 (data + 2 * (s + k)) := by
    intro k hk
    simp only [name, List.getElem_map, List.getElem_range, UInt16.toNat_ofNat']
    exact Nat.mod_eq_of_lt (d.u16_lt _)
  refine ⟨name, hlen, ?_, ?_, ?_⟩
  · intro k hk
    rw [hget k hk, show data + 2 * s + 2 * k = data + 2 * (s + k) by omega]
    exact storeNul_u16_of_ne (by omega)
  · intro hzero
    obtain ⟨k, hk, heq⟩ := List.getElem_of_mem hzero
    have hnul := hget k hk
    rw [heq] at hnul
    exact h.name k (by omega) (.inr hnul.symm)
  · rw [hlen, show data + 2 * s + 2 * n = data + 2 * (s + n) by omega]
    exact storeNul_u16_self d _

/-- A name is empty if a NUL comes first. -/
theorem HasName.nil_iff {o : ℕ} {name : List UInt16} (h : HasName d o name) :
    name = [] ↔ d.u16 o = 0 := by
  cases name with
  | nil => exact iff_of_true rfl h.2.2
  | cons c name =>
    refine iff_of_false (List.cons_ne_nil _ _) fun hzero => ?_
    have hc := h.1 0 (by simp)
    rw [Nat.mul_zero, Nat.add_zero, hzero] at hc
    have hc : c = 0 := UInt16.toNat_inj.mp hc.symm
    exact h.2.1 (hc ▸ List.mem_cons_self)

/-- The split of options that go up to `stop`. -/
theorem finishParse_hands (d : Region) (remaining : Span) (h : UpTo stop options) :
    HandsSuffix stop (finishParse d options remaining) := by
  unfold finishParse
  dsimp only
  rcases splitLoadOptions_cases d (options.start.getD 0) options.size remaining with
    ⟨s, n, accesses, hname, heq⟩ | ⟨-, accesses, heq⟩
  · rw [heq]
    dsimp only
    have hinside := hname.inside
    obtain ⟨o, ho, hoptions⟩ : ∃ o ≤ stop, options = ⟨some o, stop - o⟩ := by
      refine h.resolve_left fun hnone => ?_
      rw [hnone] at hinside
      dsimp only at hinside
      omega
    subst hoptions
    dsimp only [Option.getD_some] at *
    obtain ⟨name, hlen, hstring⟩ := hname.hasName
    refine ⟨fun handed hhanded => ⟨o + 2 * s, name, rfl, hstring, by omega, ?_, ?_⟩,
      fun hc => by cases hc⟩
    · rw [← Option.some.inj hhanded, hlen, Nat.add_sub_of_le ho]
      exact congrArg (suffix · stop) (by omega)
    · rw [if_congr hstring.nil_iff rfl rfl, ite_not]
  · rw [heq]
    refine ⟨fun handed hhanded => ?_, fun _ => ⟨rfl, rfl⟩⟩
    cases hhanded

/-- A path that fails says that the parameter is invalid. -/
theorem pathLoop_error {cur limit fuel i : ℕ} {events : List Event} {e : EfiStatus}
    (h : pathLoop d cur limit fuel i = some (events, .error e)) : e = .invalidParameter := by
  induction fuel generalizing i events with
  | zero => cases h
  | succ fuel ih =>
    rw [pathLoop] at h
    dsimp only at h
    split_ifs at h
    · cases Option.some.inj h
    · cases Option.some.inj h
      rfl
    · cases Option.some.inj h
      rfl
    · cases Option.some.inj h
    · obtain ⟨rest, hrest, heq⟩ := Option.map_eq_some_iff.mp h
      obtain ⟨-, heq⟩ := Prod.mk.inj heq
      exact ih (hrest.trans (congrArg some (Prod.ext rfl heq)))

/-- What `get_load_option_optional_data` answers: a refusal with the outputs left alone, or data
that goes up to the end. -/
theorem getLoadOptionOptionalData_cases {out : OptionalDataOut} {fuel : ℕ} {run : OptionalDataRun}
    (hsize : d.size < 2 ^ 32) (h : getLoadOptionOptionalData d out fuel = some run) :
    run.status = .invalidParameter ∧ run.out = out ∨
      run.status = .success ∧ UpTo d.size ⟨run.out.od, run.out.ods⟩ := by
  by_cases hreaches : ∃ m, ReachesPath d m
  · obtain ⟨m, hm⟩ := hreaches
    obtain ⟨events, -, heq⟩ := getLoadOptionOptionalData_reaches hm out fuel
    rw [heq] at h
    split_ifs at h with hbare
    · obtain rfl := Option.some.inj h
      exact .inr ⟨rfl, .inl rfl⟩
    · obtain ⟨⟨walked, result⟩, hwalk, rfl⟩ := Option.map_eq_some_iff.mp h
      cases result with
      | error e =>
        obtain rfl := pathLoop_error hwalk
        exact .inl ⟨rfl, rfl⟩
      | ok i =>
        have hle := hm.le
        dsimp only
        rw [takeRest]
        split_ifs with hi
        · exact .inl ⟨rfl, rfl⟩
        · refine .inr ⟨rfl, .inr ⟨m + filePathListLength d, hle, ?_⟩⟩
          rw [not_not.mp hi, sub32_of_le (by omega) (by omega), Nat.sub_sub]
  · obtain ⟨events, -, heq⟩ :=
      getLoadOptionOptionalData_refused (fun m hm => hreaches ⟨m, hm⟩) out fuel
    rw [heq] at h
    obtain rfl := Option.some.inj h
    exact .inl ⟨rfl, rfl⟩

/-- Whatever is split in the end goes up to the end of the options. -/
theorem chooseOptions_hands (li : LoadedImage) {optional : OptionalDataRun}
    (h : optional.status = .invalidParameter ∧ optional.out = ⟨some 0, stop⟩ ∨
      optional.status = .success ∧ UpTo stop ⟨optional.out.od, optional.out.ods⟩) :
    HandsSuffix stop (chooseOptions li d optional) := by
  unfold chooseOptions
  rcases h with ⟨hstatus, hout⟩ | ⟨hstatus, hupto⟩
  · have hwhole : UpTo stop ⟨some 0, stop⟩ := .inr ⟨0, Nat.zero_le _, rfl⟩
    dsimp only
    rw [hstatus, hout, if_pos EfiStatus.isError_invalidParameter, Option.getD_some]
    rcases splitLoadOptions_cases d 0 stop ⟨none, 0⟩ with
      ⟨s, n, accesses, hname, heq⟩ | ⟨-, accesses, heq⟩
    · have hinside := hname.inside
      rw [heq, skipOwnPath]
      dsimp only
      split_ifs
      · rw [Nat.zero_add stop]
        exact finishParse_hands _ _ (upTo_suffix (by omega))
      · exact finishParse_hands _ _ hwhole
    · rw [heq]
      exact finishParse_hands _ _ hwhole
  · dsimp only
    rw [hstatus, if_neg (by decide)]
    exact finishParse_hands _ _ hupto

/-- Options that are not touched are handed on. -/
theorem untouched_hands (d : Region) (size : ℕ) (status : EfiStatus) :
    HandsSuffix stop (untouched d size status) := by
  refine ⟨fun handed hhanded => ?_, fun _ => ⟨rfl, rfl⟩⟩
  cases hhanded

/-- Trimming makes nothing longer. -/
theorem trimmedSize_le (d : Region) : trimmedSize d ≤ d.size := by
  unfold trimmedSize
  split_ifs <;> omega

end Handing

/-! ## The names of a second stage -/

/-- Names are split off options as they should, and what is behind the name of the loader, up to
`stop`, is what the second stage is handed. -/
structure SplitsNames (li : LoadedImage) (stop : ℕ) : Prop where
  split : ∀ d data dataSize remaining,
    SplitsRight d data dataSize remaining (splitLoadOptions d data dataSize remaining)
  handed : ∀ fuel run, parseLoadOptions li fuel = some run → HandsSuffix stop run
  stop_le : stop ≤ li.options.size
  returns : ∀ fuel, (getLoadOptionOptionalData
      { li.options.toRegion with size := trimmedSize li.options.toRegion }
      ⟨some 0, trimmedSize li.options.toRegion⟩ fuel).isSome → (parseLoadOptions li fuel).isSome

/-- A GUID at the end of the options is left out; else all that is behind the name is handed on. -/
theorem splitsNames_trimmed (li : LoadedImage) :
    SplitsNames li (trimmedSize li.options.toRegion) := by
  have hsize := li.options.size_lt
  have hle := trimmedSize_le li.options.toRegion
  refine ⟨splitLoadOptions_right, ?_, hle, ?_⟩
  · intro fuel run hrun
    unfold parseLoadOptions at hrun
    dsimp only at hrun
    -- an odd size, no options, fewer than two bytes and a NUL in front end it at once
    split_ifs at hrun
    · obtain rfl := Option.some.inj hrun
      exact untouched_hands _ _ _
    · obtain rfl := Option.some.inj hrun
      exact untouched_hands _ _ _
    · obtain rfl := Option.some.inj hrun
      exact untouched_hands _ _ _
    · obtain rfl := Option.some.inj hrun
      exact untouched_hands _ _ _
    · obtain ⟨optional, hoptional, rfl⟩ := Option.map_eq_some_iff.mp hrun
      exact chooseOptions_hands li
        (getLoadOptionOptionalData_cases (lt_of_le_of_lt hle hsize) hoptional)
  · intro fuel hsome
    unfold parseLoadOptions
    dsimp only
    split_ifs
    · rfl
    · rfl
    · rfl
    · rfl
    · rw [Option.isSome_map]
      exact hsome

/-- Two names and a GUID behind them. -/
def taggedOptions : LoadedImage where
  options :=
    { toRegion := Region.ofList 0 ([0x61, 0, 0x20, 0, 0x62, 0] ++ bdsGuid)
      size_lt := by decide }
  dppath := none
  generatePath := fun _ => .error .outOfResources

/-- The GUID is not handed on. -/
theorem not_splitsNames_tagged : ¬ SplitsNames taggedOptions taggedOptions.options.size := by
  intro h
  have hrun : (parseLoadOptions taggedOptions 0).map (·.handed) = some (some ⟨some 4, 2⟩) := by
    decide +kernel
  obtain ⟨run, hparse, hhanded⟩ := Option.map_eq_some_iff.mp hrun
  obtain ⟨o, name, -, -, -, heq, -⟩ := (h.handed 0 run hparse).1 _ hhanded
  have hsize : taggedOptions.options.size = 22 := rfl
  have hstart := congrArg Span.start heq
  have hlen := congrArg Span.size heq
  rw [hsize] at hstart hlen
  unfold suffix at hstart hlen
  dsimp only at hstart hlen
  rw [if_pos (by omega)] at hstart
  have := Option.some.inj hstart
  omega

end Shim.LoadOptions
