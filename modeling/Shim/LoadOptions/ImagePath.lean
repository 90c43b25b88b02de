import Shim.Common.Separators
import Shim.Common.Stretch
import Shim.Efi.Status
import Shim.Fallback.LoadOption

/-! # The path of the second stage

`generate_path_from_image_path` (load-options.c:16-104), with the characters it reads and writes in
the three strings it works on. Indices are kept as the code has them: `i` and `pathlen` are of 32
bits without a sign, `last` of 32 bits with one. A string is the list of its characters.
-/

namespace Shim.ImagePath

open Separators
open Stretch (AllInside allInside_nil allInside_cons allInside_append)

/-- The strings: the text of shim's own path, the name that is given, and the result. -/
inductive Buffer where
  | bootpath
  | imagePath
  | pathName
  deriving DecidableEq

variable {sizes : Buffer → ℕ}

/-! ## The code -/

def slash : UInt16 := 0x2f

def backslash : UInt16 := 0x5c

/-- The text in front of a full path on the ESP. -/
def efiPrefix : List UInt16 := wide "\\EFI\\"

/-- A number as an `int`. -/
def toInt (n : ℤ) : ℤ := n.bmod (2 ^ 32)

/-- `StrSize`: the bytes of a string and of its terminator. -/
def wideSize (s : List UInt16) : ℕ := 2 * (s.length + 1)

/-- A small ASCII letter made a capital. -/
def upper (c : UInt16) : UInt16 := if 0x61 ≤ c ∧ c ≤ 0x7a then c - 32 else c

/-- `StrnCaseCmp` (ucs2.h): a string goes on with NULs. -/
def strnCaseCmp : ℕ → List UInt16 → List UInt16 → ℤ
  | 0, _, _ => 0
  | n + 1, s0, s1 =>
    let c0 := s0.headD 0
    let c1 := s1.headD 0
    if c0 = 0 ∨ c1 = 0 then (c1.toNat : ℤ) - c0.toNat
    else if upper c0 ≠ upper c1 then ((upper c1).toNat : ℤ) - (upper c0).toNat
    else strnCaseCmp n s0.tail s1.tail

/-- The string that a buffer of `size` characters holds. -/
def textOf (b : ℕ → UInt16) (size : ℕ) : List UInt16 :=
  ((List.range size).map b).takeWhile (· ≠ 0)

/-- Turn slashes into backslashes, with `left` characters to go. -/
def slashLoop (b : ℕ → UInt16) : (left i : ℕ) → List (Stretch Buffer) × (ℕ → UInt16)
  | 0, _ => ([], b)
  | left + 1, i =>
    let rest := slashLoop (if b i = slash then Function.update b i backslash else b) left (i + 1)
    (⟨.bootpath, i, 1⟩ :: rest.1, rest.2)

/-- Mark the character behind index `i`, or note its index in `last`. -/
def markStep (b : ℕ → UInt16) (last : ℤ) (i : ℕ) : (ℕ → UInt16) × ℤ :=
  if b (i + 1) = backslash ∧ b i = backslash then (Function.update b (i + 1) slash, last)
  else if last = -1 ∧ b (i + 1) = backslash then (b, toInt (i + 1 : ℕ))
  else (b, last)

/-- From the end on, mark the backslashes behind a backslash, and note the last other one. -/
def markLoop (b : ℕ → UInt16) (last : ℤ) : ℕ → List (Stretch Buffer) × (ℕ → UInt16) × ℤ
  | 0 => ([], b, last)
  | i + 1 =>
    let next := markStep b last i
    let rest := markLoop next.1 next.2 i
    (⟨.bootpath, (i + 1 : ℕ), 1⟩ ::
      ((if b (i + 1) = backslash then [⟨.bootpath, i, 1⟩] else []) ++ rest.1), rest.2)

/-- Close the gaps that the marked characters leave; there are `left` characters up to the end of
the buffer, and the string is over before it. -/
def packLoop (b : ℕ → UInt16) : (left i j : ℕ) → List (Stretch Buffer) × (ℕ → UInt16) × ℕ
  | 0, _, j => ([], b, j)
  | left + 1, i, j =>
    if b i = 0 then ([⟨.bootpath, i, 1⟩], b, j)
    else if b i = slash then
      let rest := packLoop b left (i + 1) j
      (⟨.bootpath, i, 1⟩ :: rest.1, rest.2)
    else
      let rest := packLoop (Function.update b j (b i)) left (i + 1) (j + 1)
      (⟨.bootpath, i, 1⟩ :: ⟨.bootpath, j, 1⟩ :: rest.1, rest.2)

section Directory

variable (boot : List UInt16)

/-- `pathlen`. -/
def pathlen : ℕ := boot.length % 2 ^ 32

/-- `bootpath` with its slashes turned. -/
def slashed : List (Stretch Buffer) × (ℕ → UInt16) :=
  slashLoop (fun i => boot.getD i 0) (pathlen boot) 0

/-- `bootpath` with its marks, and `last` before the first character is looked at. -/
def marked : List (Stretch Buffer) × (ℕ → UInt16) × ℤ :=
  markLoop (slashed boot).2 (-1) (pathlen boot)

/-- `last`. -/
def lastIndex : ℤ :=
  if (marked boot).2.2 = -1 ∧ (marked boot).2.1 0 = backslash then 0 else (marked boot).2.2

/-- `bootpath` as it is when its directory is left, or `none` where it is cut outside of itself. -/
def bootDirectory : List (Stretch Buffer) × Option (List UInt16) :=
  let size := boot.length + 1
  let last := lastIndex boot
  let cut := toInt (last + 1)
  let accesses := ⟨.bootpath, 0, size⟩ :: (slashed boot).1 ++ (marked boot).1 ++
    (if (marked boot).2.2 = -1 then [⟨.bootpath, 0, 1⟩] else []) ++ [⟨.bootpath, cut, 1⟩]
  if cut < 0 ∨ size ≤ cut then (accesses, none)
  else
    let b := Function.update (marked boot).2.1 cut.toNat 0
    if 0 < last then
      let packed := packLoop b size 0 0
      (accesses ++ packed.1 ++ [⟨.bootpath, packed.2.2, 1⟩],
        some (textOf (Function.update packed.2.1 packed.2.2 0) size))
    else (accesses, some (textOf b size))

end Directory

/-- Where the name goes on behind its last backslash. -/
def lastLoop : (image : List UInt16) → (i : ℕ) → (last : ℤ) → List (Stretch Buffer) × ℤ
  | [], _, last => ([], last)
  | c :: image, i, last =>
    let rest := lastLoop image (i + 1) (if c = backslash then toInt (i + 1 : ℕ) else last)
    (⟨.imagePath, i, 1⟩ :: rest.1, rest.2)

/-- The name behind its last backslash, or `none` where the loop over it does not end or the pointer
leaves it. -/
def imageTail (image : List UInt16) : List (Stretch Buffer) × Option (List UInt16) :=
  -- `i` is never as large as the length
  if 2 ^ 32 ≤ image.length then ([⟨.imagePath, 0, image.length + 1⟩], none)
  else
    let found := lastLoop image 0 0
    let accesses := ⟨.imagePath, 0, image.length + 1⟩ :: found.1
    if found.2 < 0 then (accesses ++ [⟨.imagePath, found.2, 1⟩], none)
    else
      let tail := image.drop found.2.toNat
      (accesses ++ [⟨.imagePath, found.2, tail.length + 1⟩], some tail)

/-- A call: the accesses, the characters that were allocated for the result, and the result, or
`none` where there is no saying what comes after. -/
structure PathRun where
  accesses : List (Stretch Buffer)
  allocated : ℕ
  result : Option (Except EfiStatus (List UInt16))

/-- The directory is not copied in front of a name that starts with it. -/
def copiedDirectory (dir tail : List UInt16) : List UInt16 :=
  if strnCaseCmp (toInt dir.length).toNat dir tail ≠ 0 then dir else []

/-- `*PathName` is put together, where `pool` answers for the allocation of a number of bytes. -/
def joinPath (dir tail : List UInt16) (pool : ℕ → Bool) (accesses : List (Stretch Buffer)) :
    PathRun :=
  let bytes := wideSize dir + wideSize tail
  if pool bytes then
    let copied := copiedDirectory dir tail
    ⟨accesses ++ [⟨.pathName, 0, 1⟩, ⟨.pathName, 0, copied.length + 1⟩,
      ⟨.pathName, copied.length, tail.length + 1⟩], bytes / 2, some (.ok (copied ++ tail))⟩
  else ⟨accesses, 0, some (.error .outOfResources)⟩

/-- `generate_path_from_image_path`, where `boot` is the text of the device path of the image. -/
def generatePathFromImagePath (boot image : List UInt16) (pool : ℕ → Bool) : PathRun :=
  if 5 < wideSize image ∧ efiPrefix <+: image then
    if pool (wideSize image) then
      ⟨[⟨.imagePath, 0, image.length + 1⟩, ⟨.pathName, 0, image.length + 1⟩], image.length + 1,
        some (.ok image)⟩
    else ⟨[⟨.imagePath, 0, image.length + 1⟩], 0, some (.error .outOfResources)⟩
  else
    let directory := bootDirectory boot
    match directory.2 with
    | none => ⟨directory.1, 0, none⟩
    | some dir =>
      let name := imageTail image
      match name.2 with
      | none => ⟨directory.1 ++ name.1, 0, none⟩
      | some tail => joinPath dir tail pool (directory.1 ++ name.1)

/-! ## What is expected -/

/-- A string without its terminator. -/
structure WideString where
  chars : List UInt16
  no_nul : 0 ∉ chars

/-- The separators of a device path text as backslashes. -/
def separated (boot : List UInt16) : List UInt16 :=
  boot.map fun c => if c = slash then backslash else c

/-- The directory of shim itself, with one backslash for every run of separators. -/
def directoryPart (boot : List UInt16) : List UInt16 :=
  squeeze backslash (upToLast backslash (separated boot))

/-- A full path is taken as it is; another name is looked for in the directory. -/
def expectedPath (boot image : List UInt16) : List UInt16 :=
  if efiPrefix <+: image ∧ efiPrefix.length < image.length then image
  else directoryPart boot ++ behindLast backslash image

/-- The characters of a string and its terminator. -/
def Buffer.size (boot image : List UInt16) (allocated : ℕ) : Buffer → ℕ
  | .bootpath => boot.length + 1
  | .imagePath => image.length + 1
  | .pathName => allocated

/-- The call stays inside of the strings, and comes back with the path, unless the pool has no room
for it. -/
structure RightRun (boot image : List UInt16) (pool : ℕ → Bool) (run : PathRun) : Prop where
  inside : AllInside (Buffer.size boot image run.allocated) run.accesses
  result : run.result = some (.ok (expectedPath boot image)) ∨
    run.result = some (.error .outOfResources) ∧ ∃ bytes, pool bytes = false

def PathRight (boot image : WideString) : Prop :=
  ∀ pool, RightRun boot.chars image.chars pool
    (generatePathFromImagePath boot.chars image.chars pool)

/-! ## When it is met -/

/-- The last run of separators starts where `last` can say so, and among the characters that
`pathlen` counts. -/
def BootCounted (boot : List UInt16) : Prop :=
  backslash ∈ separated boot →
    lastRun backslash (separated boot) + 1 < 2 ^ 31 ∧
      (lastRun backslash (separated boot) < pathlen boot ∨
        lastRun backslash (separated boot) = pathlen boot ∧
          boot[pathlen boot]? = some backslash)

/-- `i` can count the name, and `last` what is before its part behind the last backslash. -/
def ImageCounted (image : List UInt16) : Prop :=
  image.length < 2 ^ 32 ∧ (upToLast backslash image).length < 2 ^ 31

/-- The name is not `\EFI\` alone, unless this is the directory, and the counters are large enough
for the strings they are used for. -/
def PathCondition (boot image : List UInt16) : Prop :=
  if efiPrefix <+: image then image = efiPrefix → directoryPart boot = efiPrefix
  else BootCounted boot ∧ ImageCounted image

/-! ## The loops -/

section Loops

variable {b b' : ℕ → UInt16} {last : ℤ} {i j k n left : ℕ}

/-- The first loop replaces the slashes it comes to. -/
theorem slashLoop_apply : (slashLoop b left i).2 k =
    if i ≤ k ∧ k < i + left ∧ b k = slash then backslash else b k := by
  induction left generalizing b i with
  | zero =>
    rw [if_neg (by omega)]
    rfl
  | succ left ih =>
    rw [slashLoop]
    dsimp only
    rw [ih]
    by_cases hk : k = i
    · subst hk
      rw [if_neg (by omega)]
      by_cases hslash : b k = slash
      · rw [if_pos hslash, if_pos ⟨le_rfl, by omega, hslash⟩, Function.update_self]
      · rw [if_neg hslash, if_neg fun h => hslash h.2.2]
    · have hsame : (if b i = slash then Function.update b i backslash else b) k = b k := by
        split_ifs
        · exact Function.update_of_ne hk _ _
        · rfl
      rw [hsame]
      refine if_congr ?_ rfl rfl
      constructor
      · rintro ⟨h, h', h''⟩
        exact ⟨by omega, by omega, h''⟩
      · rintro ⟨h, h', h''⟩
        exact ⟨by omega, by omega, h''⟩

/-- It stays in the path. -/
theorem slashLoop_inside (h : i + left ≤ sizes .bootpath) :
    AllInside sizes (slashLoop b left i).1 := by
  induction left generalizing b i with
  | zero => exact allInside_nil
  | succ left ih =>
    refine allInside_cons.mpr ⟨?_, ih (by omega)⟩
    constructor <;> dsimp only <;> omega

/-- A backslash with none before it. -/
def StartsAt (b : ℕ → UInt16) (k : ℕ) : Prop := b k = backslash ∧ b (k - 1) ≠ backslash

instance (b : ℕ → UInt16) (k : ℕ) : Decidable (StartsAt b k) :=
  inferInstanceAs (Decidable (_ ∧ _))

/-- A step marks a backslash behind another one. -/
theorem markStep_apply : (markStep b last n).1 k =
    if k = n + 1 ∧ b (n + 1) = backslash ∧ b n = backslash then slash else b k := by
  unfold markStep
  by_cases hmark : b (n + 1) = backslash ∧ b n = backslash
  · rw [if_pos hmark]
    by_cases hk : k = n + 1
    · rw [if_pos ⟨hk, hmark⟩, hk]
      exact Function.update_self _ _ _
    · rw [if_neg fun h => hk h.1]
      exact Function.update_of_ne hk _ _
  · have hkept : ¬ (k = n + 1 ∧ b (n + 1) = backslash ∧ b n = backslash) := fun h => hmark h.2
    rw [if_neg hmark, if_neg hkept]
    split_ifs <;> rfl

/-- What is in front of it is not changed. -/
theorem markStep_apply_of_le (hk : k ≤ n) : (markStep b last n).1 k = b k := by
  rw [markStep_apply, if_neg fun h => by omega]

/-- It keeps the index of the first run that it comes to. -/
theorem markStep_last : (markStep b last n).2 =
    if last = -1 ∧ StartsAt b (n + 1) then toInt (n + 1 : ℕ) else last := by
  unfold markStep
  by_cases hmark : b (n + 1) = backslash ∧ b n = backslash
  · rw [if_pos hmark, if_neg fun h => h.2.2 hmark.2]
  · have hstart : last = -1 ∧ b (n + 1) = backslash ↔ last = -1 ∧ StartsAt b (n + 1) :=
      and_congr_right fun _ => ⟨fun h => ⟨h, fun h' => hmark ⟨h, h'⟩⟩, fun h => h.1⟩
    by_cases hc : last = -1 ∧ b (n + 1) = backslash
    · rw [if_neg hmark, if_pos hc, if_pos (hstart.mp hc)]
    · rw [if_neg hmark, if_neg hc, if_neg fun h => hc (hstart.mpr h)]

/-- The second loop marks every backslash behind another one. -/
theorem markLoop_apply : (markLoop b last n).2.1 k =
    if 0 < k ∧ k ≤ n ∧ b k = backslash ∧ b (k - 1) = backslash then slash else b k := by
  induction n generalizing b last with
  | zero =>
    rw [if_neg (by omega)]
    rfl
  | succ n ih =>
    change (markLoop (markStep b last n).1 (markStep b last n).2 n).2.1 k = _
    rw [ih]
    by_cases hk : k ≤ n
    · simp only [markStep_apply_of_le hk, markStep_apply_of_le (show k - 1 ≤ n by omega), hk,
        Nat.le_succ_of_le hk]
    · rw [if_neg (by omega), markStep_apply]
      refine if_congr ?_ rfl rfl
      constructor
      · rintro ⟨rfl, hmark⟩
        exact ⟨by omega, le_rfl, hmark⟩
      · rintro ⟨h, h', hmark⟩
        obtain rfl : k = n + 1 := by omega
        exact ⟨rfl, hmark⟩

/-- It stays in the path. -/
theorem markLoop_inside (h : n < sizes .bootpath) : AllInside sizes (markLoop b last n).1 := by
  induction n generalizing b last with
  | zero => exact allInside_nil
  | succ n ih =>
    refine allInside_cons.mpr ⟨?_, allInside_append.mpr ⟨?_, ih (by omega)⟩⟩
    · constructor <;> dsimp only <;> omega
    · split_ifs
      · refine allInside_cons.mpr ⟨?_, allInside_nil⟩
        constructor <;> dsimp only <;> omega
      · exact allInside_nil

/-- `last` depends on the characters up to `n`. -/
theorem markLoop_congr (h : ∀ k ≤ n, b k = b' k) :
    (markLoop b last n).2.2 = (markLoop b' last n).2.2 := by
  induction n generalizing b b' last with
  | zero => rfl
  | succ n ih =>
    have hstart : StartsAt b (n + 1) ↔ StartsAt b' (n + 1) := by
      unfold StartsAt
      rw [h (n + 1) le_rfl, Nat.add_sub_cancel, h n (by omega)]
    have hlast : (markStep b last n).2 = (markStep b' last n).2 := by
      rw [markStep_last, markStep_last]
      exact if_congr (and_congr_right fun _ => hstart) rfl rfl
    change (markLoop (markStep b last n).1 (markStep b last n).2 n).2.2 =
      (markLoop (markStep b' last n).1 (markStep b' last n).2 n).2.2
    rw [hlast]
    apply ih
    intro k hk
    rw [markStep_apply_of_le hk, markStep_apply_of_le hk, h k (by omega)]

/-- The index is that of the first step or of those behind it. -/
theorem markLoop_last_succ : (markLoop b last (n + 1)).2.2 =
    (markLoop b (if last = -1 ∧ StartsAt b (n + 1) then toInt (n + 1 : ℕ) else last) n).2.2 := by
  change (markLoop (markStep b last n).1 (markStep b last n).2 n).2.2 = _
  rw [markStep_last]
  apply markLoop_congr
  intro k hk
  exact markStep_apply_of_le hk

/-- An index that is found is kept. -/
theorem markLoop_last_of_ne (h : last ≠ -1) : (markLoop b last n).2.2 = last := by
  induction n with
  | zero => rfl
  | succ n ih => rw [markLoop_last_succ, if_neg fun hc => h hc.1, ih]

/-- Without a run there is no index. -/
theorem markLoop_last_of_none (h : ∀ k, 0 < k → k ≤ n → ¬ StartsAt b k) :
    (markLoop b last n).2.2 = last := by
  induction n with
  | zero => rfl
  | succ n ih =>
    rw [markLoop_last_succ, if_neg fun hc => h (n + 1) (by omega) le_rfl hc.2]
    exact ih fun k hk hkn => h k hk (by omega)

/-- `last` is where a run of backslashes starts. -/
theorem markLoop_last_cases : (markLoop b (-1) n).2.2 = -1 ∨
    ∃ k, 0 < k ∧ k ≤ n ∧ StartsAt b k ∧ (markLoop b (-1) n).2.2 = toInt k := by
  induction n with
  | zero => exact .inl rfl
  | succ n ih =>
    rw [markLoop_last_succ]
    by_cases hstart : StartsAt b (n + 1)
    · rw [if_pos ⟨rfl, hstart⟩]
      by_cases hne : toInt (n + 1 : ℕ) = -1
      · rw [hne]
        rcases ih with h | ⟨k, hk, hkn, h⟩
        · exact .inl h
        · exact .inr ⟨k, hk, by omega, h⟩
      · exact .inr ⟨n + 1, by omega, le_rfl, hstart, markLoop_last_of_ne hne⟩
    · rw [if_neg fun hc => hstart hc.2]
      rcases ih with h | ⟨k, hk, hkn, h⟩
      · exact .inl h
      · exact .inr ⟨k, hk, by omega, h⟩

/-- `last` is where the last run of backslashes starts. -/
theorem markLoop_last_eq (hk : 0 < k) (hkn : k ≤ n) (hstart : StartsAt b k)
    (hlast : ∀ k', k < k' → k' ≤ n → ¬ StartsAt b k') (hne : toInt k ≠ -1) :
    (markLoop b (-1) n).2.2 = toInt k := by
  induction n with
  | zero => omega
  | succ n ih =>
    rw [markLoop_last_succ]
    rcases hkn.eq_or_lt with rfl | hlt
    · rw [if_pos ⟨rfl, hstart⟩, markLoop_last_of_ne hne]
    · rw [if_neg fun hc => hlast (n + 1) hlt le_rfl hc.2]
      exact ih (by omega) fun k' h h' => hlast k' h (by omega)

/-- What is kept moves up to what was kept before. -/
theorem packLoop_spec {stop : ℕ} (hstop : b stop = 0) (hne : ∀ k < stop, b k ≠ 0)
    (hi : i ≤ stop) (hj : j ≤ i) (hleft : stop < i + left) :
    (List.range (packLoop b left i j).2.2).map (packLoop b left i j).2.1 =
      (List.range j).map b ++ ((List.range' i (stop - i)).map b).filter (· ≠ slash) := by
  induction left generalizing b i j with
  | zero => omega
  | succ left ih =>
    rw [packLoop]
    dsimp only
    rcases hi.eq_or_lt with rfl | hlt
    · rw [if_pos hstop, Nat.sub_self]
      simp
    · have hrange : stop - i = stop - (i + 1) + 1 := by omega
      rw [if_neg (hne i hlt), hrange, List.range'_succ, List.map_cons]
      by_cases hmark : b i = slash
      -- a mark is passed over
      · rw [if_pos hmark, List.filter_cons_of_neg (by simpa using hmark)]
        exact ih hstop hne hlt (by omega) (by omega)
      · rw [if_neg hmark, List.filter_cons_of_pos (by simpa using hmark)]
        -- the write stays behind the read, so what is left to read is unchanged
        have hbehind : ∀ k, j < k → Function.update b j (b i) k = b k :=
          fun k hk => Function.update_of_ne (by omega) _ _
        have hmoved := @ih (Function.update b j (b i)) (i + 1) (j + 1)
          (by rw [hbehind stop (by omega)]; exact hstop) ?_ hlt (by omega) (by omega)
        · rw [hmoved, List.range_succ, List.map_append, List.map_singleton, Function.update_self,
            List.append_assoc, List.singleton_append]
          congr 1
          · refine List.map_congr_left fun k hk => ?_
            exact Function.update_of_ne (by have := List.mem_range.mp hk; omega) _ _
          · congr 2
            refine List.map_congr_left fun k hk => hbehind k ?_
            have := (List.mem_range'_1.mp hk).1
            omega
        · intro k hk
          by_cases hkj : k = j
          · rw [hkj, Function.update_self]
            exact hne i hlt
          · rw [Function.update_of_ne hkj]
            exact hne k hk

/-- The third loop stays in the path. -/
theorem packLoop_inside {stop : ℕ} (hstop : b stop = 0) (hi : i ≤ stop) (hj : j ≤ i)
    (hsize : stop < sizes .bootpath) : AllInside sizes (packLoop b left i j).1 := by
  induction left generalizing b i j with
  | zero => exact allInside_nil
  | succ left ih =>
    have hread : Stretch.Inside sizes ⟨.bootpath, i, 1⟩ := by
      constructor <;> dsimp only <;> omega
    rw [packLoop]
    dsimp only
    by_cases hzero : b i = 0
    · rw [if_pos hzero]
      exact allInside_cons.mpr ⟨hread, allInside_nil⟩
    · have hlt : i < stop := lt_of_le_of_ne hi fun h => hzero (h ▸ hstop)
      rw [if_neg hzero]
      split_ifs
      · exact allInside_cons.mpr ⟨hread, ih hstop hlt (by omega)⟩
      · refine allInside_cons.mpr ⟨hread, allInside_cons.mpr ⟨?_, ih ?_ hlt (by omega)⟩⟩
        · constructor <;> dsimp only <;> omega
        · rw [Function.update_of_ne (by omega)]
          exact hstop

/-- A string that is over at index `j`. -/
theorem textOf_eq {size : ℕ} (hj : j < size) (hzero : b j = 0) (hne : ∀ k < j, b k ≠ 0) :
    textOf b size = (List.range j).map b := by
  obtain ⟨m, rfl⟩ : ∃ m, size = j + (m + 1) := ⟨size - j - 1, by omega⟩
  have hkept : ∀ c ∈ (List.range j).map b, decide (c ≠ 0) = true := by
    intro c hc
    obtain ⟨k, hk, rfl⟩ := List.mem_map.mp hc
    simpa using hne k (List.mem_range.mp hk)
  rw [textOf, List.range_add, List.map_append, List.takeWhile_append_of_pos hkept,
    List.range_succ_eq_map, List.map_cons, List.map_cons, List.takeWhile_cons_of_neg,
    List.append_nil]
  simpa using hzero

end Loops

/-! ## The directory -/

section DirectorySpec

variable {boot : List UInt16} {k : ℕ}

/-- A number of 32 bits is not changed. -/
theorem toInt_of_lt {n : ℤ} (h : -2 ^ 31 ≤ n) (h' : n < 2 ^ 31) : toInt n = n := by
  rw [toInt, Int.bmod_def]
  split_ifs <;> omega

/-- A larger one becomes negative. -/
theorem toInt_of_le {n : ℤ} (h : 2 ^ 31 ≤ n) (h' : n < 2 ^ 32) : toInt n = n - 2 ^ 32 := by
  rw [toInt, Int.bmod_def]
  split_ifs <;> omega

/-- The character at `k` is turned if it is to be, and looked at. -/
def Counted (boot : List UInt16) (k : ℕ) : Prop :=
  k < pathlen boot ∨ k = pathlen boot ∧ boot[pathlen boot]? = some backslash

/-- The length that is counted is no more than the length. -/
theorem pathlen_le (boot : List UInt16) : pathlen boot ≤ boot.length := Nat.mod_le _ _

/-- An index that is counted is one of the path. -/
theorem Counted.lt_length (h : Counted boot k) : k < boot.length := by
  rcases h with h | ⟨rfl, h⟩
  · exact lt_of_lt_of_le h (pathlen_le boot)
  · exact (List.getElem?_eq_some_iff.mp h).1

/-- It has 32 bits. -/
theorem Counted.lt_pow (h : Counted boot k) : k < 2 ^ 32 := by
  have hlt : pathlen boot < 2 ^ 32 := Nat.mod_lt _ (by decide)
  rcases h with h | ⟨rfl, -⟩
  · omega
  · exact hlt

/-- The index in front is counted as well. -/
theorem Counted.pred (h : Counted boot k) (hk : 0 < k) : k - 1 < pathlen boot := by
  rcases h with h | ⟨rfl, -⟩ <;> omega

/-- The path behind the first loop. -/
theorem slashed_apply (boot : List UInt16) (k : ℕ) : (slashed boot).2 k =
    if k < pathlen boot ∧ boot.getD k 0 = slash then backslash else boot.getD k 0 := by
  rw [slashed, slashLoop_apply]
  refine if_congr ?_ rfl rfl
  rw [Nat.zero_add]
  exact and_iff_right (Nat.zero_le k)

/-- Where `pathlen` counts, the separators are those of the text. -/
theorem getElem?_separated (h : Counted boot k) :
    (separated boot)[k]? = some ((slashed boot).2 k) := by
  have hlt := h.lt_length
  have hget : boot.getD k 0 = boot[k] := by
    rw [List.getD_eq_getElem?_getD, List.getElem?_eq_getElem hlt, Option.getD_some]
  rw [slashed_apply, hget, separated, List.getElem?_map, List.getElem?_eq_getElem hlt,
    Option.map_some]
  congr 1
  rcases h with h | ⟨rfl, h⟩
  · simp only [h, true_and]
  · rw [List.getElem?_eq_getElem hlt] at h
    rw [Option.some.inj h, if_neg (by decide), if_neg fun hc => absurd hc.2 (by decide)]

/-- A backslash that is looked at. -/
theorem counted_of_slashed (hk : k ≤ pathlen boot) (h : (slashed boot).2 k = backslash) :
    Counted boot k := by
  rcases hk.lt_or_eq with hlt | rfl
  · exact .inl hlt
  · refine .inr ⟨rfl, ?_⟩
    rw [slashed_apply, if_neg fun hc => absurd hc.1 (lt_irrefl _)] at h
    rw [List.getD_eq_getElem?_getD] at h
    cases hget : boot[pathlen boot]? with
    | none =>
      rw [hget] at h
      exact absurd h (by decide)
    | some c =>
      rw [hget] at h
      exact congrArg some h

/-- Where a run of backslashes starts. -/
theorem runStart_iff (h : Counted boot k) : RunStart backslash (separated boot) k ↔
    (slashed boot).2 k = backslash ∧ (k = 0 ∨ (slashed boot).2 (k - 1) ≠ backslash) := by
  have hat := getElem?_separated h
  constructor
  · rintro ⟨hstart, hbefore⟩
    refine ⟨Option.some.inj (hat.symm.trans hstart), ?_⟩
    rcases Nat.eq_zero_or_pos k with hk | hk
    · exact .inl hk
    · refine .inr fun hc => (hbefore.resolve_left (by omega)) ?_
      rw [getElem?_separated (.inl (h.pred hk)), hc]
  · rintro ⟨hstart, hbefore⟩
    refine ⟨hat.trans (congrArg some hstart), ?_⟩
    rcases Nat.eq_zero_or_pos k with hk | hk
    · exact .inl hk
    · refine .inr fun hc => (hbefore.resolve_left (by omega)) ?_
      rw [getElem?_separated (.inl (h.pred hk))] at hc
      exact Option.some.inj hc

/-- The first character is not marked. -/
theorem marked_zero (boot : List UInt16) : (marked boot).2.1 0 = (slashed boot).2 0 := by
  rw [marked, markLoop_apply, if_neg (by omega)]

/-- `last` is where a run of separators starts. -/
theorem lastIndex_cases (boot : List UInt16) : lastIndex boot = -1 ∨ ∃ k, Counted boot k ∧
    RunStart backslash (separated boot) k ∧ lastIndex boot = toInt k := by
  rcases markLoop_last_cases (b := (slashed boot).2) (n := pathlen boot) with
    hnone | ⟨k, hk, hkn, hstart, hlast⟩
  · rw [← marked] at hnone
    by_cases hzero : (marked boot).2.1 0 = backslash
    · have hslashed := marked_zero boot ▸ hzero
      have hcounted := counted_of_slashed (Nat.zero_le _) hslashed
      refine .inr ⟨0, hcounted, (runStart_iff hcounted).mpr ⟨hslashed, .inl rfl⟩, ?_⟩
      rw [lastIndex, if_pos ⟨hnone, hzero⟩]
      rfl
    · rw [lastIndex, if_neg fun h => hzero h.2]
      exact .inl hnone
  · have hcounted := counted_of_slashed hkn hstart.1
    have hrun := (runStart_iff hcounted).mpr ⟨hstart.1, .inr hstart.2⟩
    rw [← marked] at hlast
    by_cases hc : (marked boot).2.2 = -1 ∧ (marked boot).2.1 0 = backslash
    · have hslashed := marked_zero boot ▸ hc.2
      have hcounted := counted_of_slashed (Nat.zero_le _) hslashed
      refine .inr ⟨0, hcounted, (runStart_iff hcounted).mpr ⟨hslashed, .inl rfl⟩, ?_⟩
      rw [lastIndex, if_pos hc]
      rfl
    · rw [lastIndex, if_neg hc]
      exact .inr ⟨k, hcounted, hrun, hlast⟩

/-- Without a backslash there is no index. -/
theorem lastIndex_none (h : backslash ∉ separated boot) : lastIndex boot = -1 := by
  rcases lastIndex_cases boot with hnone | ⟨k, -, hrun, -⟩
  · exact hnone
  · exact absurd (List.mem_of_getElem? hrun.at_start) h

/-- `last` is where the last run of separators starts. -/
theorem lastIndex_lastRun (h : backslash ∈ separated boot)
    (hcounted : Counted boot (lastRun backslash (separated boot)))
    (hlt : lastRun backslash (separated boot) + 1 < 2 ^ 31) :
    lastIndex boot = lastRun backslash (separated boot) := by
  have hrun := runStart_lastRun h
  obtain ⟨hstart, hbefore⟩ := (runStart_iff hcounted).mp hrun
  have hlast : ∀ k, 0 < k → lastRun backslash (separated boot) < k → k ≤ pathlen boot →
      ¬ StartsAt (slashed boot).2 k := by
    intro k hpos hk hkn hc
    have hle := ((runStart_iff (counted_of_slashed hkn hc.1)).mpr ⟨hc.1, .inr hc.2⟩).le_lastRun
    omega
  have hcount : lastRun backslash (separated boot) ≤ pathlen boot := by
    rcases hcounted with h | h <;> omega
  generalize lastRun backslash (separated boot) = L at *
  have hint : toInt L = L := toInt_of_lt (by omega) (by omega)
  rcases Nat.eq_zero_or_pos L with rfl | hL
  · have hnone : (marked boot).2.2 = -1 :=
      markLoop_last_of_none fun k hk hkn => hlast k hk hk hkn
    rw [lastIndex, if_pos ⟨hnone, (marked_zero boot).trans hstart⟩]
    rfl
  · have hmarked : (marked boot).2.2 = L := by
      rw [← hint]
      exact markLoop_last_eq hL hcount ⟨hstart, hbefore.resolve_left (by omega)⟩
        (fun k hk hkn => hlast k (by omega) hk hkn) (by omega)
    rw [lastIndex, if_neg (by omega), hmarked]

/-- The characters up to one that is looked at. -/
theorem map_slashed (h : Counted boot k) :
    (List.range (k + 1)).map (slashed boot).2 = (separated boot).take (k + 1) := by
  have hlen : (separated boot).length = boot.length := List.length_map _
  have hlt := h.lt_length
  apply List.ext_getElem?
  intro n
  by_cases hn : n < k + 1
  · have hcounted : Counted boot n := by
      rcases (Nat.le_of_lt_succ hn).eq_or_lt with rfl | hlt
      · exact h
      · refine .inl (lt_of_lt_of_le hlt ?_)
        rcases h with h | ⟨rfl, -⟩ <;> omega
    rw [List.getElem?_take_of_lt hn, getElem?_separated hcounted]
    simp [hn]
  · rw [List.getElem?_eq_none (by simpa using hn), List.getElem?_eq_none (by simp; omega)]

/-- The first loop makes no NUL. -/
theorem slashed_ne_zero (hboot : 0 ∉ boot) (hk : k < boot.length) : (slashed boot).2 k ≠ 0 := by
  have hget : boot.getD k 0 = boot[k] := by
    rw [List.getD_eq_getElem?_getD, List.getElem?_eq_getElem hk, Option.getD_some]
  rw [slashed_apply, hget]
  split_ifs
  · decide
  · exact fun h => hboot (h ▸ List.getElem_mem hk)

/-- The path behind the second loop. -/
theorem marked_apply (boot : List UInt16) (k : ℕ) : (marked boot).2.1 k =
    if 0 < k ∧ k ≤ pathlen boot ∧ (slashed boot).2 k = backslash ∧
      (slashed boot).2 (k - 1) = backslash then slash else (slashed boot).2 k :=
  markLoop_apply

/-- The second loop makes no NUL. -/
theorem marked_ne_zero (hboot : 0 ∉ boot) (hk : k < boot.length) : (marked boot).2.1 k ≠ 0 := by
  rw [marked_apply]
  split_ifs
  · decide
  · exact slashed_ne_zero hboot hk

/-- The characters that are not marked, up to the start of a run. -/
theorem filter_marked_take (h : Counted boot k) (hrun : RunStart backslash (separated boot) k) :
    ((List.range (k + 1)).map (marked boot).2.1).filter (· ≠ slash) =
      squeeze backslash ((separated boot).take (k + 1)) := by
  have hk : k ≤ pathlen boot := by rcases h with h | ⟨rfl, -⟩ <;> omega
  rw [← map_slashed h]
  apply filter_marked
  · intro i hi
    rcases (Nat.le_of_lt_succ hi).eq_or_lt with rfl | hlt
    · rw [((runStart_iff h).mp hrun).1]
      decide
    · rw [slashed_apply]
      split_ifs with hc
      · decide
      · exact fun hs => hc ⟨by omega, hs⟩
  · intro i hi
    rw [marked_apply]
    have hip : i ≤ pathlen boot := by omega
    simp only [hip, true_and]

/-- The accesses up to the cut. -/
theorem bootDirectory_accesses {cut : ℤ} (hcut : 0 ≤ cut) (hlt : cut < boot.length + 1)
    (hsize : boot.length + 1 ≤ sizes .bootpath) :
    AllInside sizes (⟨.bootpath, 0, boot.length + 1⟩ :: (slashed boot).1 ++ (marked boot).1 ++
      (if (marked boot).2.2 = -1 then [⟨.bootpath, 0, 1⟩] else []) ++ [⟨.bootpath, cut, 1⟩]) := by
  have hlen := pathlen_le boot
  have hslashed : AllInside sizes (slashed boot).1 := slashLoop_inside (by omega)
  have hmarked : AllInside sizes (marked boot).1 := markLoop_inside (by omega)
  have hfirst : AllInside sizes
      (if (marked boot).2.2 = -1 then [⟨.bootpath, 0, 1⟩] else []) := by
    split_ifs
    · refine allInside_cons.mpr ⟨?_, allInside_nil⟩
      constructor <;> dsimp only <;> omega
    · exact allInside_nil
  refine allInside_append.mpr ⟨allInside_append.mpr ⟨allInside_append.mpr
    ⟨allInside_cons.mpr ⟨?_, hslashed⟩, hmarked⟩, hfirst⟩, allInside_cons.mpr ⟨?_, allInside_nil⟩⟩
  · constructor <;> dsimp only <;> omega
  · constructor <;> dsimp only <;> omega

variable (sizes) in
/-- A path that no separator was found in. -/
theorem bootDirectory_nil (hlast : lastIndex boot = -1)
    (hsize : boot.length + 1 ≤ sizes .bootpath) :
    (bootDirectory boot).2 = some [] ∧ AllInside sizes (bootDirectory boot).1 := by
  have hcut : toInt (lastIndex boot + 1) = 0 := by
    rw [hlast]
    rfl
  have htext : textOf (Function.update (marked boot).2.1 0 0) (boot.length + 1) = [] :=
    textOf_eq (by omega) (Function.update_self _ _ _) fun k hk => absurd hk (Nat.not_lt_zero k)
  unfold bootDirectory
  dsimp only
  rw [hcut, if_neg (by omega), if_neg (by omega)]
  exact ⟨congrArg some htext, bootDirectory_accesses le_rfl (by omega) hsize⟩

variable (sizes) in
/-- A path that is cut behind the start of a run. -/
theorem bootDirectory_run (hboot : 0 ∉ boot) (h : Counted boot k)
    (hrun : RunStart backslash (separated boot) k) (hlt : k + 1 < 2 ^ 31)
    (hlast : lastIndex boot = k) (hsize : boot.length + 1 ≤ sizes .bootpath) :
    (bootDirectory boot).2 = some (squeeze backslash ((separated boot).take (k + 1))) ∧
      AllInside sizes (bootDirectory boot).1 := by
  have hlen := h.lt_length
  have hcut : toInt (lastIndex boot + 1) = (k + 1 : ℕ) := by
    rw [hlast]
    exact toInt_of_lt (by omega) (by omega)
  have haccesses := @bootDirectory_accesses sizes boot (k + 1 : ℕ) (by omega) (by omega) hsize
  -- the path cut off behind the last run of backslashes
  set b := Function.update (marked boot).2.1 (k + 1) 0 with hb
  have hstop : b (k + 1) = 0 := Function.update_self _ _ _
  have hkept : ∀ i < k + 1, b i = (marked boot).2.1 i :=
    fun i hi => Function.update_of_ne (by omega) _ _
  have hne : ∀ i < k + 1, b i ≠ 0 := by
    intro i hi
    rw [hkept i hi]
    exact marked_ne_zero hboot (by omega)
  have hmap : (List.range (k + 1)).map b = (List.range (k + 1)).map (marked boot).2.1 :=
    List.map_congr_left fun i hi => hkept i (List.mem_range.mp hi)
  unfold bootDirectory
  dsimp only
  rw [hcut, if_neg (by omega), Int.toNat_natCast, ← hb]
  -- with one backslash only there is nothing to pack
  by_cases hk : 0 < lastIndex boot
  · have hpacked := @packLoop_spec b 0 0 (boot.length + 1) (k + 1) hstop hne
      (Nat.zero_le _) le_rfl (by omega)
    have hinside : AllInside sizes (packLoop b (boot.length + 1) 0 0).1 :=
      packLoop_inside hstop (Nat.zero_le _) le_rfl (by omega)
    rw [List.range_zero, List.map_nil, List.nil_append, Nat.sub_zero,
      ← List.range_eq_range'] at hpacked
    rw [if_pos hk]
    generalize packLoop b (boot.length + 1) 0 0 = packed at *
    -- the packed path is no longer than the cut one
    have hend : packed.2.2 ≤ k + 1 := by
      have hlength := congrArg List.length hpacked
      rw [List.length_map, List.length_range] at hlength
      rw [hlength]
      exact (List.length_filter_le _ _).trans (by simp)
    have htext : ∀ i < packed.2.2, Function.update packed.2.1 packed.2.2 0 i = packed.2.1 i :=
      fun i hi => Function.update_of_ne (by omega) _ _
    have hnul : ∀ i < packed.2.2, Function.update packed.2.1 packed.2.2 0 i ≠ 0 := by
      intro i hi
      have hmem : packed.2.1 i ∈ ((List.range (k + 1)).map b).filter (· ≠ slash) := by
        rw [← hpacked]
        exact List.mem_map_of_mem (List.mem_range.mpr hi)
      obtain ⟨m, hm, heq⟩ := List.mem_map.mp (List.mem_of_mem_filter hmem)
      rw [htext i hi, ← heq]
      exact hne m (List.mem_range.mp hm)
    constructor
    · refine congrArg some ?_
      rw [textOf_eq (by omega) (Function.update_self _ _ _) hnul,
        List.map_congr_left fun i hi => htext i (List.mem_range.mp hi), hpacked, hmap,
        filter_marked_take h hrun]
    · refine allInside_append.mpr ⟨allInside_append.mpr ⟨haccesses, hinside⟩,
        allInside_cons.mpr ⟨?_, allInside_nil⟩⟩
      constructor <;> dsimp only <;> omega
  · obtain rfl : k = 0 := by omega
    rw [if_neg hk]
    refine ⟨congrArg some ?_, haccesses⟩
    rw [textOf_eq (by omega) hstop hne, hmap, ← map_slashed h]
    exact congrArg ([·]) (marked_zero boot)

/-- A path that is cut outside of itself. -/
theorem bootDirectory_none (hlast : lastIndex boot = toInt k) (hk : k < 2 ^ 32)
    (hlt : 2 ^ 31 ≤ k + 1) (hne : lastIndex boot ≠ -1) : (bootDirectory boot).2 = none := by
  have hcut : toInt (lastIndex boot + 1) < 0 := by
    rw [hlast] at hne ⊢
    by_cases hmax : k + 1 = 2 ^ 31
    · rw [toInt_of_lt (n := k) (by omega) (by omega), toInt_of_le (by omega) (by omega)]
      omega
    · rw [toInt_of_le (n := k) (by omega) (by omega)] at hne ⊢
      rw [toInt_of_lt (by omega) (by omega)]
      omega
  unfold bootDirectory
  dsimp only
  rw [if_pos (.inl hcut)]

/-- The directory is right exactly where its last separator is counted. -/
theorem bootDirectory_iff (hboot : 0 ∉ boot) :
    (bootDirectory boot).2 = some (directoryPart boot) ↔ BootCounted boot := by
  have hnil : directoryPart boot = [] ↔ backslash ∉ separated boot :=
    squeeze_eq_nil.trans upToLast_eq_nil
  let sizes : Buffer → ℕ := fun _ => boot.length + 1
  constructor
  · intro hdir hmem
    have hsome : directoryPart boot ≠ [] := fun h => hnil.mp h hmem
    -- no backslash was found, or the last run of them starts at `k`
    by_cases hnone : lastIndex boot = -1
    · rw [(bootDirectory_nil sizes hnone le_rfl).1] at hdir
      exact absurd (Option.some.inj hdir).symm hsome
    · obtain ⟨k, hcounted, hrun, hlast⟩ := (lastIndex_cases boot).resolve_left hnone
      by_cases hlt : k + 1 < 2 ^ 31
      · have hint : lastIndex boot = k := hlast.trans (toInt_of_lt (by omega) (by omega))
        have hresult :=
          (bootDirectory_run sizes hboot hcounted hrun hlt hint le_rfl).1
        rw [hresult, directoryPart, squeeze_upToLast hmem] at hdir
        have heq := hrun.eq_lastRun (Option.some.inj hdir)
        exact heq ▸ ⟨hlt, hcounted.imp id fun h => ⟨h.1, h.2⟩⟩
      · rw [bootDirectory_none hlast hcounted.lt_pow (by omega) hnone] at hdir
        cases hdir
  · intro hcounted
    by_cases hmem : backslash ∈ separated boot
    · obtain ⟨hlt, hcounted⟩ := hcounted hmem
      -- the cut is at the start of the last run
      have hlast := lastIndex_lastRun hmem hcounted hlt
      rw [directoryPart, squeeze_upToLast hmem]
      exact (bootDirectory_run sizes hboot hcounted (runStart_lastRun hmem) hlt hlast
        le_rfl).1
    · rw [hnil.mpr hmem]
      exact (bootDirectory_nil sizes (lastIndex_none hmem) le_rfl).1

/-- So there is none in what the loops work on. -/
theorem zero_notMem_separated (hboot : 0 ∉ boot) : 0 ∉ separated boot := by
  intro h
  obtain ⟨c, hc, heq⟩ := List.mem_map.mp h
  split_ifs at heq
  · exact absurd heq (by decide)
  · exact hboot (heq ▸ hc)

/-- What a directory is to the rest of the function: short enough for an `int`, and if it is not
empty, a separator is in it. -/
structure IsDirectory (dir : List UInt16) : Prop where
  length_lt : dir.length < 2 ^ 31
  no_nul : 0 ∉ dir
  separator : dir = [] ∨ backslash ∈ dir

variable (sizes) in
/-- A directory that is come to is come to inside of the path. -/
theorem bootDirectory_inside (hboot : 0 ∉ boot) {dir : List UInt16}
    (h : (bootDirectory boot).2 = some dir) (hsize : boot.length + 1 ≤ sizes .bootpath) :
    AllInside sizes (bootDirectory boot).1 ∧ IsDirectory dir := by
  by_cases hnone : lastIndex boot = -1
  · obtain ⟨hdir, hinside⟩ := bootDirectory_nil sizes hnone hsize
    rw [hdir] at h
    obtain rfl := Option.some.inj h
    exact ⟨hinside, by simp, List.not_mem_nil, .inl rfl⟩
  · obtain ⟨k, hcounted, hrun, hlast⟩ := (lastIndex_cases boot).resolve_left hnone
    by_cases hlt : k + 1 < 2 ^ 31
    · have hint : lastIndex boot = k := hlast.trans (toInt_of_lt (by omega) (by omega))
      obtain ⟨hdir, hinside⟩ := bootDirectory_run sizes hboot hcounted hrun hlt hint hsize
      rw [hdir] at h
      obtain rfl := Option.some.inj h
      refine ⟨hinside, ?_, ?_, .inr ?_⟩
      · rw [← filter_marked_take hcounted hrun]
        have hle := List.length_filter_le (· ≠ slash) ((List.range (k + 1)).map (marked boot).2.1)
        rw [List.length_map, List.length_range] at hle
        omega
      · rw [mem_squeeze]
        exact fun hc => zero_notMem_separated hboot (List.mem_of_mem_take hc)
      · rw [mem_squeeze, ← map_slashed hcounted, List.mem_map]
        exact ⟨k, List.mem_range.mpr (Nat.lt_succ_self k), ((runStart_iff hcounted).mp hrun).1⟩
    · rw [bootDirectory_none hlast hcounted.lt_pow (by omega) hnone] at h
      cases h

end DirectorySpec

/-! ## The name -/

section Name

variable {image : List UInt16}

/-- The search for the last backslash stays in the image path. -/
theorem lastLoop_inside {i : ℕ} {last : ℤ} (h : i + image.length ≤ sizes .imagePath) :
    AllInside sizes (lastLoop image i last).1 := by
  induction image generalizing i last with
  | nil => exact allInside_nil
  | cons c image ih =>
    rw [List.length_cons] at h
    refine allInside_cons.mpr ⟨?_, ih (by omega)⟩
    constructor <;> dsimp only <;> omega

/-- A last character is the last backslash or changes nothing. -/
theorem lastLoop_concat (image : List UInt16) (c : UInt16) (i : ℕ) (last : ℤ) :
    (lastLoop (image ++ [c]) i last).2 =
      if c = backslash then toInt (i + image.length + 1 : ℕ) else (lastLoop image i last).2 := by
  induction image generalizing i last with
  | nil => rfl
  | cons c' image ih =>
    change (lastLoop (image ++ [c]) (i + 1) _).2 = _
    rw [ih, List.length_cons, show i + 1 + image.length + 1 = i + (image.length + 1) + 1 by omega]
    rfl

/-- Where the name goes on, as an `int`. -/
theorem lastLoop_eq (image : List UInt16) :
    (lastLoop image 0 0).2 = toInt (upToLast backslash image).length := by
  induction image using List.reverseRecOn with
  | nil => rfl
  | append_singleton image c ih =>
    rw [lastLoop_concat]
    by_cases hc : c = backslash
    · rw [if_pos hc, upToLast, List.rdropWhile_concat_neg _ _ _ (by simpa using hc),
        List.length_append, List.length_singleton, Nat.zero_add]
    · rw [if_neg hc, ih, upToLast, upToLast, List.rdropWhile_concat_pos _ _ _ (by simpa using hc)]

/-- What is behind the last backslash. -/
theorem drop_upToLast (image : List UInt16) :
    image.drop (upToLast backslash image).length = behindLast backslash image := by
  have hsplit : upToLast backslash image ++ behindLast backslash image = image :=
    List.rdropWhile_append_rtakeWhile
  have hdrop := @List.drop_left _ (upToLast backslash image) (behindLast backslash image)
  rwa [hsplit] at hdrop

/-- The directory is no longer than the path. -/
theorem length_upToLast_le (image : List UInt16) :
    (upToLast backslash image).length ≤ image.length :=
  (List.rdropWhile_prefix _ _).length_le

variable (sizes) in
/-- The tail is the right one where it is counted. -/
theorem imageTail_of_counted (h : ImageCounted image)
    (hsize : image.length + 1 ≤ sizes .imagePath) :
    (imageTail image).2 = some (behindLast backslash image) ∧
      AllInside sizes (imageTail image).1 := by
  obtain ⟨hlength, htail⟩ := h
  have hfound : (lastLoop image 0 0).2 = (upToLast backslash image).length := by
    rw [lastLoop_eq, toInt_of_lt (by omega) (by omega)]
  have hle := length_upToLast_le image
  have hinside : AllInside sizes (lastLoop image 0 0).1 := lastLoop_inside (by omega)
  unfold imageTail
  dsimp only
  rw [if_neg (by omega), hfound, if_neg (by omega), Int.toNat_natCast, drop_upToLast]
  refine ⟨rfl, allInside_append.mpr ⟨allInside_cons.mpr ⟨?_, hinside⟩,
    allInside_cons.mpr ⟨?_, allInside_nil⟩⟩⟩
  · constructor <;> dsimp only <;> omega
  · rw [← drop_upToLast, List.length_drop]
    constructor <;> dsimp only <;> omega

/-- Where it is not counted there is none. -/
theorem imageTail_none (h : ¬ ImageCounted image) : (imageTail image).2 = none := by
  unfold imageTail
  dsimp only
  by_cases hlength : 2 ^ 32 ≤ image.length
  · rw [if_pos hlength]
  · have htail : 2 ^ 31 ≤ (upToLast backslash image).length := by
      by_contra hlt
      exact h ⟨by omega, by omega⟩
    have hle := length_upToLast_le image
    rw [if_neg hlength, if_pos]
    rw [lastLoop_eq, toInt_of_le (by omega) (by omega)]
    omega

end Name

/-! ## The whole function -/

section Whole

variable {boot image dir tail : List UInt16} {pool : ℕ → Bool} {accesses : List (Stretch Buffer)}

/-- Folding the case makes no backslash. -/
theorem upper_ne_backslash {c : UInt16} (h : c ≠ backslash) : upper c ≠ backslash := by
  unfold upper
  split_ifs with hc
  · intro heq
    have hlow : 0x61 ≤ c.toNat := UInt16.le_iff_toNat_le.mp hc.1
    have hhigh : c.toNat ≤ 0x7a := UInt16.le_iff_toNat_le.mp hc.2
    have hnat : (c - 32).toNat = 0x5c := congrArg UInt16.toNat heq
    rw [UInt16.toNat_sub_of_le _ _ (UInt16.le_iff_toNat_le.mpr (by
      change 32 ≤ c.toNat
      omega))] at hnat
    have hnat : c.toNat - 32 = 0x5c := hnat
    omega
  · exact h

/-- One step of the comparison. -/
theorem strnCaseCmp_cons (n : ℕ) (c : UInt16) (s0 s1 : List UInt16) :
    strnCaseCmp (n + 1) (c :: s0) s1 =
      if c = 0 ∨ s1.headD 0 = 0 then ((s1.headD 0).toNat : ℤ) - c.toNat
      else if upper c ≠ upper (s1.headD 0) then ((upper (s1.headD 0)).toNat : ℤ) - (upper c).toNat
      else strnCaseCmp n s0 s1.tail := rfl

/-- A directory is no start of a name behind its last backslash. -/
theorem strnCaseCmp_ne_zero (hdir : backslash ∈ dir) (hnul : 0 ∉ dir) (htail : backslash ∉ tail) :
    strnCaseCmp dir.length dir tail ≠ 0 := by
  induction dir generalizing tail with
  | nil => cases hdir
  | cons c dir ih =>
    have hc : c ≠ 0 := fun h => hnul (h ▸ List.mem_cons_self)
    have hne : ∀ {x y : UInt16}, x ≠ y → (y.toNat : ℤ) - x.toNat ≠ 0 := by
      intro x y hxy heq
      exact hxy (UInt16.toNat_inj.mp (by omega))
    rw [List.length_cons, strnCaseCmp_cons]
    by_cases hover : c = 0 ∨ tail.headD 0 = 0
    · rw [if_pos hover, hover.resolve_left hc]
      exact hne hc
    · rw [if_neg hover]
      by_cases hupper : upper c = upper (tail.headD 0)
      · have htail' : backslash ∉ tail.tail := fun h => htail (List.mem_of_mem_tail h)
        rw [if_neg (not_not_intro hupper)]
        refine ih ?_ (fun h => hnul (List.mem_cons_of_mem _ h)) htail'
        rcases List.mem_cons.mp hdir with rfl | hmem
        · -- the name has no backslash to go with this one
          cases tail with
          | nil => exact absurd (.inr rfl) hover
          | cons t tail =>
            have ht : t ≠ backslash := fun h => htail (h ▸ List.mem_cons_self)
            exact absurd hupper.symm (upper_ne_backslash ht)
        · exact hmem
      · rw [if_pos hupper]
        exact hne hupper

/-- A directory is copied as it is. -/
theorem copiedDirectory_eq (hdir : IsDirectory dir) (htail : backslash ∉ tail) :
    copiedDirectory dir tail = dir := by
  have hint : (toInt dir.length).toNat = dir.length := by
    have := hdir.length_lt
    rw [toInt_of_lt (by omega) (by omega), Int.toNat_natCast]
  rw [copiedDirectory, hint]
  rcases hdir.separator with rfl | hmem
  · split_ifs <;> rfl
  · rw [if_pos (strnCaseCmp_ne_zero hmem hdir.no_nul htail)]

/-- The directory and the tail are joined, if there is memory. -/
theorem joinPath_result (hdir : IsDirectory dir) (htail : backslash ∉ tail) :
    (joinPath dir tail pool accesses).result = if pool (wideSize dir + wideSize tail) then
      some (.ok (dir ++ tail)) else some (.error .outOfResources) := by
  unfold joinPath
  dsimp only
  rw [copiedDirectory_eq hdir htail]
  split_ifs <;> rfl

/-- The parts fit into what is allocated for them. -/
theorem joinPath_inside (hdir : IsDirectory dir) (htail : backslash ∉ tail)
    (h : ∀ allocated, AllInside (Buffer.size boot image allocated) accesses) :
    AllInside (Buffer.size boot image (joinPath dir tail pool accesses).allocated)
      (joinPath dir tail pool accesses).accesses := by
  have hhalf : (wideSize dir + wideSize tail) / 2 = dir.length + tail.length + 2 := by
    unfold wideSize
    omega
  unfold joinPath
  dsimp only
  rw [copiedDirectory_eq hdir htail]
  split_ifs
  · dsimp only
    rw [hhalf]
    refine allInside_append.mpr ⟨h _, ?_⟩
    refine allInside_cons.mpr ⟨?_, allInside_cons.mpr ⟨?_, allInside_cons.mpr ⟨?_, allInside_nil⟩⟩⟩
    · constructor <;> dsimp only [Buffer.size] <;> omega
    · constructor <;> dsimp only [Buffer.size] <;> omega
    · constructor <;> dsimp only [Buffer.size] <;> omega
  · exact h _

/-- Behind the last backslash there is none. -/
theorem backslash_notMem_behindLast (image : List UInt16) :
    backslash ∉ behindLast backslash image := by
  intro h
  simpa using List.mem_rtakeWhile_imp h

/-- A full path. -/
theorem generatePath_efi (h : efiPrefix <+: image) :
    generatePathFromImagePath boot image pool = if pool (wideSize image) then
      ⟨[⟨.imagePath, 0, image.length + 1⟩, ⟨.pathName, 0, image.length + 1⟩], image.length + 1,
        some (.ok image)⟩
    else ⟨[⟨.imagePath, 0, image.length + 1⟩], 0, some (.error .outOfResources)⟩ := by
  have hlen : efiPrefix.length ≤ image.length := h.length_le
  have hlen : 5 ≤ image.length := hlen
  rw [generatePathFromImagePath, if_pos ⟨by unfold wideSize; omega, h⟩]

/-- A name with a directory and a tail. -/
theorem generatePath_join (h : ¬ efiPrefix <+: image) (hdir : (bootDirectory boot).2 = some dir)
    (htail : (imageTail image).2 = some tail) : generatePathFromImagePath boot image pool =
      joinPath dir tail pool ((bootDirectory boot).1 ++ (imageTail image).1) := by
  rw [generatePathFromImagePath, if_neg fun hc => h hc.2]
  dsimp only
  rw [hdir]
  dsimp only
  rw [htail]

variable (pool) in
/-- A path that is made has a directory and a tail. -/
theorem generatePath_cases (h : ¬ efiPrefix <+: image)
    (hresult : (generatePathFromImagePath boot image pool).result ≠ none) :
    ∃ dir tail, (bootDirectory boot).2 = some dir ∧ (imageTail image).2 = some tail := by
  rw [generatePathFromImagePath, if_neg fun hc => h hc.2] at hresult
  dsimp only at hresult
  cases hdir : (bootDirectory boot).2 with
  | none =>
    rw [hdir] at hresult
    exact absurd rfl hresult
  | some dir =>
    rw [hdir] at hresult
    dsimp only at hresult
    cases htail : (imageTail image).2 with
    | none =>
      rw [htail] at hresult
      exact absurd rfl hresult
    | some tail => exact ⟨dir, tail, rfl, rfl⟩

/-- A full path is right if the code is to take it. -/
theorem pathRight_efi {boot image : WideString} (h : efiPrefix <+: image.chars) :
    PathRight boot image ↔ (image.chars = efiPrefix → directoryPart boot.chars = efiPrefix) := by
  -- the image's path is taken as it is, also where it is the directory alone
  have hexpected : image.chars = expectedPath boot.chars image.chars ↔
      (image.chars = efiPrefix → directoryPart boot.chars = efiPrefix) := by
    unfold expectedPath
    by_cases himage : image.chars = efiPrefix
    · have htail : behindLast backslash efiPrefix = [] := by decide
      rw [himage, if_neg fun hc => lt_irrefl _ hc.2, htail, List.append_nil]
      exact ⟨fun heq _ => heq.symm, fun heq => (heq rfl).symm⟩
    · have hlt : efiPrefix.length < image.chars.length :=
        lt_of_le_of_ne h.length_le fun hlen => himage (h.eq_of_length hlen).symm
      rw [if_pos ⟨h, hlt⟩]
      exact iff_of_true rfl fun hc => absurd hc himage
  rw [← hexpected]
  constructor
  · intro hright
    have hresult := (hright fun _ => true).result
    rw [generatePath_efi h, if_pos rfl] at hresult
    rcases hresult with hresult | ⟨hresult, -⟩
    · exact Except.ok.inj (Option.some.inj hresult)
    · cases Option.some.inj hresult
  · intro heq pool
    rw [generatePath_efi h]
    by_cases hpool : pool (wideSize image.chars) = true
    · rw [if_pos hpool]
      refine ⟨?_, .inl (congrArg (some ∘ Except.ok) heq)⟩
      refine allInside_cons.mpr ⟨?_, allInside_cons.mpr ⟨?_, allInside_nil⟩⟩
      · constructor <;> dsimp only [Buffer.size] <;> omega
      · constructor <;> dsimp only [Buffer.size] <;> omega
    · rw [if_neg hpool]
      refine ⟨?_, .inr ⟨rfl, wideSize image.chars, Bool.eq_false_iff.mpr hpool⟩⟩
      refine allInside_cons.mpr ⟨?_, allInside_nil⟩
      constructor <;> dsimp only [Buffer.size] <;> omega

/-- Another name is right if the counters are large enough. -/
theorem pathRight_join {boot image : WideString} (h : ¬ efiPrefix <+: image.chars) :
    PathRight boot image ↔ BootCounted boot.chars ∧ ImageCounted image.chars := by
  have hexpected : expectedPath boot.chars image.chars =
      directoryPart boot.chars ++ behindLast backslash image.chars :=
    if_neg fun hc => h hc.1
  have htail := backslash_notMem_behindLast image.chars
  constructor
  · intro hright
    have hresult := (hright fun _ => true).result
    obtain ⟨dir, tail, hdir, himage⟩ := generatePath_cases (fun _ => true) h (by
      rcases hresult with hresult | ⟨hresult, -⟩ <;> rw [hresult] <;> exact Option.some_ne_none _)
    -- the tail is there only if the slashes of the image were counted
    have hcounted : ImageCounted image.chars := by
      by_contra hnot
      rw [imageTail_none hnot] at himage
      cases himage
    have hisDir := (bootDirectory_inside (fun _ => boot.chars.length + 1) boot.no_nul hdir
      le_rfl).2
    have heq := (imageTail_of_counted (fun _ => image.chars.length + 1) hcounted le_rfl).1
    rw [heq] at himage
    obtain rfl := Option.some.inj himage
    rw [generatePath_join h hdir heq, joinPath_result hisDir htail, if_pos rfl,
      hexpected] at hresult
    -- and the directory only if those of the boot path were
    refine ⟨(bootDirectory_iff boot.no_nul).mp ?_, hcounted⟩
    rcases hresult with hresult | ⟨hresult, -⟩
    · rw [hdir, List.append_cancel_right (Except.ok.inj (Option.some.inj hresult))]
    · cases Option.some.inj hresult
  · rintro ⟨hboot, himage⟩ pool
    have hdir := (bootDirectory_iff boot.no_nul).mpr hboot
    have hinside : ∀ allocated, AllInside (Buffer.size boot.chars image.chars allocated)
        ((bootDirectory boot.chars).1 ++ (imageTail image.chars).1) :=
      fun allocated => allInside_append.mpr ⟨(bootDirectory_inside _ boot.no_nul hdir le_rfl).1,
        (imageTail_of_counted _ himage le_rfl).2⟩
    have hisDir := (bootDirectory_inside (fun _ => boot.chars.length + 1) boot.no_nul hdir
      le_rfl).2
    have heq := (imageTail_of_counted (fun _ => image.chars.length + 1) himage le_rfl).1
    rw [generatePath_join h hdir heq]
    refine ⟨joinPath_inside hisDir htail hinside, ?_⟩
    rw [joinPath_result hisDir htail, hexpected]
    split_ifs with hpool
    · exact .inl rfl
    · exact .inr ⟨rfl, _, Bool.eq_false_iff.mpr hpool⟩

/-- The path is right exactly for the strings that meet the condition. -/
theorem pathRight_iff (boot image : WideString) :
    PathRight boot image ↔ PathCondition boot.chars image.chars := by
  unfold PathCondition
  split_ifs with h
  · exact pathRight_efi h
  · exact pathRight_join h

end Whole

/-- shim in a directory at the root of the ESP. -/
def rootDirectory : WideString := ⟨wide "\\boot\\shim.efi", by decide⟩

/-- The prefix of a full path, and nothing behind it. -/
def efiAlone : WideString := ⟨efiPrefix, by decide⟩

/-- `StrSize` counts bytes: the prefix alone is taken for a full path. -/
theorem not_pathRight_efiAlone : ¬ PathRight rootDirectory efiAlone := by
  intro h
  have hdir := (pathRight_efi (by decide)).mp h rfl
  exact absurd hdir (by decide)

end Shim.ImagePath
