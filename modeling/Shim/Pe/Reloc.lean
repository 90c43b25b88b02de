import Mathlib.Logic.Relation
import Shim.Pe.Outcome

/-! # What relocation reads and writes

The accesses of `relocate_coff` (pe-relocate.c), in the order they are made, also where it stops
with an error. Its two loops end, but it bounds its reads by the size of the image and not of the
file, and of a fixup it bounds the page only.
-/

namespace Shim

open Relation (ReflTransGen)

/-- A read of the file, or a write to the image by offset from `buffer`. -/
inductive Access where
  | read (o n : ℕ)
  | write (o n : ℕ)
  deriving DecidableEq

/-- Inside a file and an image of these sizes. A write of no bytes is none. -/
def Access.InBounds (fileSize imageSize : ℕ) : Access → Prop
  | .read o n => o + n ≤ fileSize
  | .write o n => n ≠ 0 → o + n ≤ imageSize

instance (fileSize imageSize : ℕ) : (a : Access) → Decidable (a.InBounds fileSize imageSize)
  | .read o n => inferInstanceAs (Decidable (o + n ≤ fileSize))
  | .write o n => inferInstanceAs (Decidable (n ≠ 0 → o + n ≤ imageSize))

/-- The loop over `n` entries at `o`: what it accesses, and how it ends. -/
def entriesWalk (r : Region) (adjust fixupBase : ℕ) :
    (n o : ℕ) → List Access × Except EfiStatus Unit
  | 0, _ => ([], .ok ())
  | n + 1, o =>
    match relocEntry adjust fixupBase (r.u16 o) with
    | .error e => ([.read o 2], .error e)
    | .ok f =>
      let rest := entriesWalk r adjust fixupBase n (o + 2)
      (.read o 2 :: .write f.offset f.width :: rest.1, rest.2)

/-- The loop over the blocks: what it accesses, and how it ends, `none` where the fuel is used up
before. -/
def blocksWalk (r : Region) (context : Context) (buffer adjust relocEnd : ℕ) :
    (fuel off : ℕ) → List Access × Option (Except EfiStatus Unit)
  | 0, off => ([], if off < relocEnd then none else some (.ok ()))
  | fuel + 1, off =>
    if off < relocEnd then
      match relocBlock r context buffer off with
      | .error e => ([.read off 8], some (.error e))
      | .ok fixupBase =>
        match entriesWalk r adjust fixupBase (relocCount r off) (off + 8) with
        | (accesses, .error e) => (.read off 8 :: accesses, some (.error e))
        | (accesses, .ok ()) =>
          let rest := blocksWalk r context buffer adjust relocEnd fuel (off + r.u32 (off + 4))
          (.read off 8 :: (accesses ++ rest.1), rest.2)
    else ([], some (.ok ()))

/-- `relocate_coff`: what it accesses, and how it ends. -/
def relocateWalk (r : Region) (context : Context) (buffer : ℕ) (s : SectionHeader) :
    List Access × Option (Except EfiStatus Unit) :=
  match relocTable r context s with
  | (none, none) => ([], some (.ok ()))
  | (some relocBase, some relocEnd) =>
    if relocAdjust context buffer = 0 then ([], some (.ok ()))
    else blocksWalk r context buffer (relocAdjust context buffer) relocEnd (relocDirSize r context)
      relocBase
  | _ => ([], some (.error .unsupported))

/-- The loops end, every read lies in the file and every fixup in the image. -/
structure RelocSafe (r : Region) (context : Context) (buffer : ℕ) (s : SectionHeader) : Prop where
  ends : (relocateWalk r context buffer s).2.isSome = true
  inBounds : ∀ a ∈ (relocateWalk r context buffer s).1, a.InBounds r.size context.imageSize

/-! ## The walk is the one that is applied -/

section Walk

variable {r : Region} {context : Context} {buffer adjust relocEnd fixupBase : ℕ}

/-- A block that is accepted is not empty. -/
theorem size_pos_of_relocBlock {off : ℕ} (h : relocBlock r context buffer off = .ok fixupBase) :
    0 < r.u32 (off + 4) := by
  unfold relocBlock at h
  simp only [failIf_bind_ok] at h
  omega

/-- The fixups among the accesses. -/
def writes (accesses : List Access) : List (ℕ × ℕ) :=
  accesses.filterMap fun a => match a with
    | .read _ _ => none
    | .write o n => some (o, n)

/-- The walk over the entries writes where their fixups are. -/
theorem entriesWalk_of_mapM {n o : ℕ} {fixups : List Fixup}
    (h : (List.range n).mapM (fun i => relocEntry adjust fixupBase (r.u16 (o + 2 * i))) =
      .ok fixups) :
    (entriesWalk r adjust fixupBase n o).2 = .ok () ∧
      writes (entriesWalk r adjust fixupBase n o).1 = fixups.map fun f => (f.offset, f.width) := by
  induction n generalizing o fixups with
  | zero =>
    obtain rfl := Except.ok.inj h
    exact ⟨rfl, rfl⟩
  | succ n ih =>
    rw [List.range_succ_eq_map, List.mapM_cons, List.mapM_map] at h
    obtain ⟨f, hf, h⟩ := exists_of_bind_ok h
    obtain ⟨rest, hrest, h⟩ := exists_of_bind_ok h
    obtain rfl := Except.ok.inj h
    rw [Nat.mul_zero, Nat.add_zero] at hf
    have hshift : (fun i => relocEntry adjust fixupBase (r.u16 (o + 2 + 2 * i))) =
        (fun i => relocEntry adjust fixupBase (r.u16 (o + 2 * i))) ∘ Nat.succ := by
      funext i
      simp only [Function.comp_apply]
      congr 2
      omega
    obtain ⟨hok, hwrites⟩ := ih (o := o + 2) (by rw [hshift]; exact hrest)
    unfold entriesWalk
    rw [hf]
    exact ⟨hok, by simpa [writes] using hwrites⟩

/-- The walk ends by itself: every block takes a byte of the table at least. -/
theorem isSome_blocksWalk {fuel off : ℕ} (hfuel : relocEnd ≤ off + fuel) :
    (blocksWalk r context buffer adjust relocEnd fuel off).2.isSome = true := by
  induction fuel generalizing off with
  | zero =>
    unfold blocksWalk
    rw [if_neg (by omega)]
    rfl
  | succ fuel ih =>
    unfold blocksWalk
    split
    · split
      · rfl
      · rename_i hblock
        split
        · rfl
        · have hsize := size_pos_of_relocBlock hblock
          exact ih (by omega)
    · rfl

/-- Where the relocation succeeds, its writes are the fixups it applies. -/
theorem blocksWalk_of_relocBlocks {fuel off : ℕ} {fixups : List Fixup}
    (h : relocBlocks r context buffer adjust relocEnd fuel off = .ok fixups) :
    writes (blocksWalk r context buffer adjust relocEnd fuel off).1 =
      fixups.map fun f => (f.offset, f.width) := by
  induction fuel generalizing off fixups with
  | zero =>
    obtain rfl := Except.ok.inj h
    rfl
  | succ fuel ih =>
    unfold relocBlocks at h
    unfold blocksWalk
    by_cases hend : off < relocEnd
    · rw [if_pos hend] at h ⊢
      obtain ⟨fixupBase, hblock, h⟩ := exists_of_bind_ok h
      obtain ⟨first, hentries, h⟩ := exists_of_bind_ok h
      obtain ⟨rest, hrest, h⟩ := exists_of_bind_ok h
      obtain rfl := Except.ok.inj h
      obtain ⟨hok, hfirst⟩ := entriesWalk_of_mapM hentries
      rw [hblock]
      dsimp only
      rw [show entriesWalk r adjust fixupBase (relocCount r off) (off + 8) =
        ((entriesWalk r adjust fixupBase (relocCount r off) (off + 8)).1, .ok ()) by rw [← hok]]
      have htail := ih hrest
      simp only [writes, List.filterMap_cons, List.filterMap_append, List.map_append] at *
      rw [hfirst, htail]
    · rw [if_neg hend] at h ⊢
      obtain rfl := Except.ok.inj h
      rfl

end Walk

/-! ## Bounds -/

section Bounds

variable {r : Region} {context : Context} {buffer adjust relocEnd fixupBase : ℕ}

/-- The entry at `o` lies in the file, and the bytes it has changed in the image. -/
structure EntryFits (r : Region) (context : Context) (adjust fixupBase o : ℕ) : Prop where
  read : o + 2 ≤ r.size
  fixup : ∀ f, relocEntry adjust fixupBase (r.u16 o) = .ok f → f.width ≠ 0 →
    f.offset + f.width ≤ context.imageSize

/-- The block at `off` has its header in the file, and fitting entries up to the first one of an
unknown type. -/
structure BlockFits (r : Region) (context : Context) (buffer adjust off : ℕ) : Prop where
  header : off + 8 ≤ r.size
  entries : ∀ fixupBase, relocBlock r context buffer off = .ok fixupBase →
    ∀ i < relocCount r off,
      (∀ j < i, (relocEntry adjust fixupBase (r.u16 (off + 8 + 2 * j))).isOk = true) →
        EntryFits r context adjust fixupBase (off + 8 + 2 * i)

/-- The block behind one that is accepted. -/
def NextBlock (r : Region) (context : Context) (buffer adjust relocEnd : ℕ) (off off' : ℕ) : Prop :=
  off < relocEnd ∧ off' = off + r.u32 (off + 4) ∧ ∃ fixupBase,
    relocBlock r context buffer off = .ok fixupBase ∧
      ∀ i < relocCount r off, (relocEntry adjust fixupBase (r.u16 (off + 8 + 2 * i))).isOk = true

/-- The entries are accessed in bounds exactly if they fit, up to the first of an unknown type. -/
theorem entriesWalk_inBounds_iff {n o : ℕ} :
    (∀ a ∈ (entriesWalk r adjust fixupBase n o).1, a.InBounds r.size context.imageSize) ↔
      ∀ i < n, (∀ j < i, (relocEntry adjust fixupBase (r.u16 (o + 2 * j))).isOk = true) →
        EntryFits r context adjust fixupBase (o + 2 * i) := by
  induction n generalizing o with
  | zero => simp [entriesWalk]
  | succ n ih =>
    have hshift : ∀ i, o + 2 * (i + 1) = o + 2 + 2 * i := fun i => by omega
    unfold entriesWalk
    rw [Nat.forall_lt_succ_left]
    cases hentry : relocEntry adjust fixupBase (r.u16 o) with
    | error e =>
      constructor
      · intro h
        -- the walk ends here, and only the entry itself was read
        have hread : o + 2 ≤ r.size := h (.read o 2) (by simp)
        refine ⟨fun _ => ⟨hread, fun f hf => ?_⟩, fun i _ hok => ?_⟩
        · rw [Nat.mul_zero, Nat.add_zero, hentry] at hf
          cases hf
        · -- behind an entry of an unknown type
          have hfirst := hok 0 (by omega)
          rw [Nat.mul_zero, Nat.add_zero, hentry] at hfirst
          cases hfirst
      · rintro ⟨hfirst, -⟩ a ha
        obtain rfl : a = .read o 2 := by simpa using ha
        exact (hfirst fun j hj => absurd hj (by omega)).read
    | ok f =>
      -- the entries behind the first, counted from it
      have htail : (∀ i < n, (∀ j < i + 1, (relocEntry adjust fixupBase
            (r.u16 (o + 2 * j))).isOk = true) → EntryFits r context adjust fixupBase
              (o + 2 * (i + 1))) ↔
          ∀ a ∈ (entriesWalk r adjust fixupBase n (o + 2)).1,
            a.InBounds r.size context.imageSize := by
        rw [ih]
        refine forall₂_congr fun i _ => ?_
        rw [Nat.forall_lt_succ_left, hshift]
        simp only [hshift, Nat.mul_zero, Nat.add_zero, hentry]
        exact ⟨fun h hok => h ⟨rfl, hok⟩, fun h hok => h hok.2⟩
      rw [htail]
      simp only [List.forall_mem_cons]
      constructor
      · rintro ⟨hread, hwrite, hrest⟩
        refine ⟨fun _ => ⟨hread, fun g hg => ?_⟩, hrest⟩
        rw [Nat.mul_zero, Nat.add_zero, hentry] at hg
        obtain rfl := Except.ok.inj hg
        exact hwrite
      · rintro ⟨hfirst, hrest⟩
        have hfits := hfirst fun j hj => absurd hj (by omega)
        exact ⟨hfits.read, hfits.fixup f hentry, hrest⟩

/-- It succeeds if every entry is of a kind that is known. -/
theorem entriesWalk_ok_iff {n o : ℕ} : (entriesWalk r adjust fixupBase n o).2 = .ok () ↔
    ∀ i < n, (relocEntry adjust fixupBase (r.u16 (o + 2 * i))).isOk = true := by
  induction n generalizing o with
  | zero => simp [entriesWalk]
  | succ n ih =>
    have hshift : ∀ i, o + 2 * (i + 1) = o + 2 + 2 * i := fun i => by omega
    unfold entriesWalk
    rw [Nat.forall_lt_succ_left]
    simp only [hshift, Nat.mul_zero, Nat.add_zero]
    cases hentry : relocEntry adjust fixupBase (r.u16 o) with
    | error e => simp [Except.isOk, Except.toBool]
    | ok f => simpa [Except.isOk, Except.toBool] using ih

/-- What holds of the blocks got to from `off` holds of that block and of those behind it. -/
theorem forall_reached_iff {off : ℕ} {P : ℕ → Prop} (hend : off < relocEnd) :
    (∀ off', ReflTransGen (NextBlock r context buffer adjust relocEnd) off off' →
        off' < relocEnd → P off') ↔
      P off ∧ ∀ next, NextBlock r context buffer adjust relocEnd off next →
        ∀ off', ReflTransGen (NextBlock r context buffer adjust relocEnd) next off' →
          off' < relocEnd → P off' := by
  constructor
  · intro h
    exact ⟨h off .refl hend, fun next hnext off' hreach => h off' (.head hnext hreach)⟩
  · rintro ⟨hfirst, hrest⟩ off' hreach hlt
    rcases hreach.cases_head with rfl | ⟨next, hnext, hreach⟩
    · exact hfirst
    · exact hrest next hnext off' hreach hlt

/-- A block fits if its head and all its writes do. -/
theorem blockFits_iff {off : ℕ} (hblock : relocBlock r context buffer off = .ok fixupBase) :
    BlockFits r context buffer adjust off ↔ off + 8 ≤ r.size ∧
      ∀ a ∈ (entriesWalk r adjust fixupBase (relocCount r off) (off + 8)).1,
        a.InBounds r.size context.imageSize := by
  rw [entriesWalk_inBounds_iff]
  constructor
  · intro h
    exact ⟨h.header, h.entries fixupBase hblock⟩
  · rintro ⟨hheader, hentries⟩
    refine ⟨hheader, fun base hbase => ?_⟩
    rw [hblock] at hbase
    obtain rfl := Except.ok.inj hbase
    exact hentries

/-- The table is accessed in bounds exactly if every block that is got to fits. -/
theorem blocksWalk_inBounds_iff {fuel off : ℕ} (hfuel : relocEnd ≤ off + fuel) :
    (∀ a ∈ (blocksWalk r context buffer adjust relocEnd fuel off).1,
        a.InBounds r.size context.imageSize) ↔
      ∀ off', ReflTransGen (NextBlock r context buffer adjust relocEnd) off off' →
        off' < relocEnd → BlockFits r context buffer adjust off' := by
  induction fuel generalizing off with
  | zero =>
    unfold blocksWalk
    refine ⟨fun _ off' hreach hlt => ?_, by simp⟩
    rcases hreach.cases_head with rfl | ⟨_, hnext, -⟩
    · omega
    · exact absurd hnext.1 (by omega)
  | succ fuel ih =>
    unfold blocksWalk
    by_cases hend : off < relocEnd
    · rw [if_pos hend, forall_reached_iff hend]
      cases hblock : relocBlock r context buffer off with
      | error e =>
        -- the block is refused once its header is read
        constructor
        · intro h
          refine ⟨⟨h (.read off 8) (by simp), fun base hbase => ?_⟩, fun next hnext => ?_⟩
          · rw [hblock] at hbase
            cases hbase
          · obtain ⟨-, -, base, hbase, -⟩ := hnext
            rw [hblock] at hbase
            cases hbase
        · rintro ⟨hfits, -⟩ a ha
          obtain rfl : a = .read off 8 := by simpa using ha
          exact hfits.header
      | ok fixupBase =>
        rw [blockFits_iff hblock]
        dsimp only
        have hok_iff : (entriesWalk r adjust fixupBase (relocCount r off) (off + 8)).2 = .ok () ↔ _ :=
          entriesWalk_ok_iff
        cases hwalk : entriesWalk r adjust fixupBase (relocCount r off) (off + 8) with
        | mk accesses result =>
          rw [hwalk] at hok_iff
          cases result with
          | error e =>
            have hlast : ∀ next, ¬ NextBlock r context buffer adjust relocEnd off next := by
              rintro next ⟨-, -, base, hbase, hentries⟩
              rw [hblock] at hbase
              obtain rfl := Except.ok.inj hbase
              cases hok_iff.mpr hentries
            simp only [List.forall_mem_cons]
            exact ⟨fun h => ⟨h, fun next hnext => absurd hnext (hlast next)⟩, fun h => h.1⟩
          | ok _ =>
            have hsize := size_pos_of_relocBlock hblock
            simp only [List.forall_mem_cons, List.forall_mem_append]
            rw [ih (by omega), ← and_assoc]
            refine and_congr_right fun _ => ?_
            constructor
            · rintro h next ⟨-, rfl, -⟩
              exact h
            · intro h
              exact h _ ⟨hend, rfl, fixupBase, hblock, hok_iff.mp rfl⟩
    · rw [if_neg hend]
      refine ⟨fun _ off' hreach hlt => ?_, by simp⟩
      rcases hreach.cases_head with rfl | ⟨_, hnext, -⟩
      · exact absurd hlt hend
      · exact absurd hnext.1 hend

end Bounds

/-! ## relocate_coff -/

section Relocate

variable {p : Platform} {r : Region} {context : Context} {address : ℕ} {m : ℕ → UInt8}
  {s : SectionHeader}

/-- Every block of the table, from `PointerToRawData` on, fits, if anything is relocated. -/
def TableFits (r : Region) (context : Context) (buffer : ℕ) (s : SectionHeader) : Prop :=
  ∀ relocBase relocEnd, relocTable r context s = (some relocBase, some relocEnd) →
    relocAdjust context buffer ≠ 0 → ∀ off,
      ReflTransGen (NextBlock r context buffer (relocAdjust context buffer) relocEnd) relocBase off →
        off < relocEnd → BlockFits r context buffer (relocAdjust context buffer) off

/-- The end of the table is less than `RelocDir->Size` behind its start, also where it wraps. -/
theorem relocEnd_le {relocBase relocEnd : ℕ} (hs : s ∈ sectionHeaders r context)
    (hsize : relocDirSize r context ≠ 0)
    (htable : relocTable r context s = (some relocBase, some relocEnd)) :
    relocEnd ≤ relocBase + relocDirSize r context := by
  obtain ⟨i, -, rfl⟩ := List.mem_map.mp hs
  obtain ⟨hbase, hend⟩ := Prod.mk.inj htable
  have heq : ∀ {size a b}, imageAddress r.base size a = some b → b = a := by
    intro size a b h
    unfold imageAddress at h
    split at h
    · cases h
    · split at h <;> cases h
      rfl
  have hptr := r.u32_lt (context.firstSection + 40 * i + 20)
  have hdir : relocDirSize r context < 2 ^ 32 := r.u32_lt _
  rw [heq hbase, heq hend]
  simp only [sectionHeaderAt, sub32, add32]
  omega

/-- Once `handle_image` gets to `relocate_coff`, relocation is safe exactly if the table fits. -/
theorem relocSafe_iff (h : ReachesReloc p r context address m s) :
    RelocSafe r context (alignValue address context.sectionAlignment) s ↔
      TableFits r context (alignValue address context.sectionAlignment) s := by
  generalize alignValue address context.sectionAlignment = buffer
  have hfuel : ∀ relocBase relocEnd, relocTable r context s = (some relocBase, some relocEnd) →
      relocEnd ≤ relocBase + relocDirSize r context := fun _ _ => relocEnd_le h.mem.1 h.dirSize
  unfold TableFits
  constructor
  · rintro ⟨-, hbounds⟩ relocBase relocEnd htable hadjust
    unfold relocateWalk at hbounds
    rw [htable] at hbounds
    dsimp only at hbounds
    rw [if_neg hadjust] at hbounds
    exact (blocksWalk_inBounds_iff (hfuel _ _ htable)).mp hbounds
  · intro hfits
    match htable : relocTable r context s with
    | (none, none) | (none, some _) | (some _, none) =>
      exact ⟨by simp [relocateWalk, htable], by simp [relocateWalk, htable]⟩
    | (some relocBase, some relocEnd) =>
      -- loaded where it was linked for: there is nothing to relocate
      by_cases hadjust : relocAdjust context buffer = 0
      · exact ⟨by simp [relocateWalk, htable, hadjust], by simp [relocateWalk, htable, hadjust]⟩
      · have hwalk : relocateWalk r context buffer s = blocksWalk r context buffer
            (relocAdjust context buffer) relocEnd (relocDirSize r context) relocBase := by
          unfold relocateWalk
          rw [htable]
          exact if_neg hadjust
        refine ⟨?_, ?_⟩
        · rw [hwalk]
          exact isSome_blocksWalk (hfuel _ _ htable)
        · rw [hwalk]
          exact (blocksWalk_inBounds_iff (hfuel _ _ htable)).mpr
            (hfits relocBase relocEnd htable hadjust)

end Relocate

/-! ## Two tables -/

/-- An image with a section for its code and a relocation section of `rawSize` bytes, which is the
end of the file. Its relocation directory is one block of twelve bytes. -/
def relocImage (rawSize : ℕ) (hraw : rawSize ≤ 12) : PeFile where
  toRegion := .ofFields 0x10000 (328 + rawSize)
    [(0, [0x4d, 0x5a]), (60, [64]), (64, [0x50, 0x45]), (68, [0x64, 0x86]), (70, [2]), (84, [160]),
     (88, [0x0b, 0x02]), (104, [0x00, 0x10]), (144, [0x00, 0x30]), (148, [0x48, 0x01]), (196, [6]),
     (240, [0x00, 0x20]), (244, [12]),
     (256, [0x00, 0x01]), (260, [0x00, 0x10]), (268, [0x48, 0x01]), (284, [0x20, 0x00, 0x00, 0x60]),
     (288, relocName), (296, [0x00, 0x10]), (300, [0x00, 0x20]), (304, [UInt8.ofNat rawSize]),
     (308, [0x48, 0x01]), (327, [0x42]),
     (328, [0x00, 0x10, 0x00, 0x00, 0x0c, 0x00, 0x00, 0x00])]
  size_lt := show 328 + rawSize < 2 ^ 32 by omega
  room := PeFile.low_room

/-- Its context and its relocation section. -/
def relocContext : Context := contextAt (relocImage 12 (by decide)).toRegion 64

def relocHeader (rawSize : ℕ) : SectionHeader :=
  ⟨relocName, 0x1000, 0x2000, rawSize, 328, 0, 0, 0x42000000⟩

/-- The loop over its sections finds it. -/
theorem reachesReloc_of_map {p : Platform} {r : Region} {context : Context} {address : ℕ}
    {m : ℕ → UInt8} {s : SectionHeader}
    (hloop : ((sectionHeaders r context).foldlM
      (loadSection p r context (alignValue address context.sectionAlignment)
        (relocDirVma r context (alignValue address context.sectionAlignment)))
      ⟨ByteMap.fill m 0 context.sizeOfHeaders r.byte, none, 0⟩).map LoadState.relocSection =
        .ok (some s))
    (hdeclared : 5 < context.numberOfRvaAndSizes) (hsize : relocDirSize r context ≠ 0) :
    ReachesReloc p r context address m s := by
  refine ⟨?_, hdeclared, hsize⟩
  cases hst : (sectionHeaders r context).foldlM
      (loadSection p r context (alignValue address context.sectionAlignment)
        (relocDirVma r context (alignValue address context.sectionAlignment)))
      ⟨ByteMap.fill m 0 context.sizeOfHeaders r.byte, none, 0⟩ with
  | error e =>
    rw [hst] at hloop
    cases hloop
  | ok st =>
    rw [hst] at hloop
    exact ⟨st, rfl, Except.ok.inj hloop⟩

/-- An image with one block of one entry. -/
theorem relocSafe_relocImage : RelocSafe (relocImage 12 (by decide)).toRegion relocContext
      (alignValue 0x200000 relocContext.sectionAlignment) (relocHeader 12) ∧
    TableFits (relocImage 12 (by decide)).toRegion relocContext
      (alignValue 0x200000 relocContext.sectionAlignment) (relocHeader 12) := by
  have hsafe : RelocSafe (relocImage 12 (by decide)).toRegion relocContext
      (alignValue 0x200000 relocContext.sectionAlignment) (relocHeader 12) :=
    ⟨by decide +kernel, by decide +kernel⟩
  refine ⟨hsafe, (relocSafe_iff (p := platformX64) (m := fun _ => 0) ?_).mp hsafe⟩
  exact reachesReloc_of_map (by decide +kernel) (by decide +kernel) (by decide +kernel)

/-- With the last four bytes cut off the file, the entries of the block are read behind its end. -/
theorem not_relocSafe_relocImage :
    Accepted platformX64 (relocImage 8 (by decide)) relocContext
        [(0, 152), (156, 76), (240, 88), (328, 8)] ∧
      ReachesReloc platformX64 (relocImage 8 (by decide)).toRegion relocContext 0x200000
        (fun _ => 0) (relocHeader 8) ∧
      ¬ RelocSafe (relocImage 8 (by decide)).toRegion relocContext
        (alignValue 0x200000 relocContext.sectionAlignment) (relocHeader 8) := by
  refine ⟨⟨by decide +kernel, by decide +kernel⟩,
    reachesReloc_of_map (by decide +kernel) (by decide +kernel) (by decide +kernel), fun h => ?_⟩
  exact absurd h.inBounds (by decide +kernel)

end Shim
