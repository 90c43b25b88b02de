import Shim.Efi.SignatureList

/-! # MokManager's key lists

`count_keys` and `build_mok_list` (MokManager.c) turn the bytes of a database into an array of
nodes, one for each signature list: the first certificate of an X.509 list, or all the signatures of
a hash list.
-/

namespace Shim

/-- `EFI_CERT_SHA224_GUID`. -/
def certSha224Guid : List UInt8 :=
  [0x33, 0x52, 0x6e, 0x0b, 0x5c, 0xa6, 0xc9, 0x44, 0x94, 0x07, 0xd9, 0xab, 0x83, 0xbf, 0xc8, 0xbd]

/-- `EFI_CERT_SHA384_GUID`. -/
def certSha384Guid : List UInt8 :=
  [0x07, 0x53, 0x3e, 0xff, 0xd0, 0x9f, 0xc8, 0x48, 0x85, 0xf1, 0x8a, 0xd5, 0x6c, 0x70, 0x1e, 0x01]

/-- `EFI_CERT_SHA512_GUID`. -/
def certSha512Guid : List UInt8 :=
  [0xae, 0x0f, 0x3e, 0x09, 0xc4, 0xa6, 0x50, 0x4f, 0x9f, 0x1b, 0xd4, 0x1e, 0x2b, 0x89, 0xc1, 0x9a]

/-- `is_sha2_hash`. -/
def isSha2Hash (type : List UInt8) : Bool :=
  type = certSha224Guid ∨ type = certSha256Guid ∨ type = certSha384Guid ∨ type = certSha512Guid

/-- `sha_size`. -/
def shaSize (type : List UInt8) : ℕ :=
  if type = certSha1Guid then 20
  else if type = certSha224Guid then 28
  else if type = certSha256Guid then 32
  else if type = certSha384Guid then 48
  else if type = certSha512Guid then 64
  else 0

/-- `is_valid_siglist`. -/
def isValidSiglist (type : List UInt8) (sigSize : ℕ) : Bool :=
  if type = certTypeX509Guid ∧ sigSize ≠ 0 then true
  else if ¬ isSha2Hash type then false
  else if sigSize ≠ shaSize type + 16 then false
  else true

/-- `MokListNode`; `mok` is an offset into the database, `none` the null pointer. -/
structure MokListNode where
  mokSize : ℕ
  mok : Option ℕ
  type : List UInt8
  deriving DecidableEq

/-- The loop of `count_keys`. A turn that goes on takes at least one byte off `dbsize`, which bounds
the fuel. -/
def countKeysFrom (d : Region) : (fuel o dbsize mokNum : ℕ) → ℕ
  | 0, _, _, mokNum => mokNum
  | fuel + 1, o, dbsize, mokNum =>
    if 0 < dbsize ∧ signatureListSize d o ≤ dbsize then
      if d.size < o + 28 ∨ signatureListSize d o = 0 then 0
      else if signatureListSize d o = 0 ∨ signatureListSize d o ≤ signatureSize d o then 0
      else if ¬ isValidSiglist (signatureType d o) (signatureSize d o) then 0
      else
        countKeysFrom d fuel (o + signatureListSize d o) (dbsize - signatureListSize d o)
          (mokNum + 1)
    else mokNum

/-- `count_keys`. -/
def countKeys (d : Region) : ℕ := countKeysFrom d d.size 0 d.size 0

/-- The node of the list at `o`, whose first signature is at `cert`. -/
def mokListNode (d : Region) (o cert : ℕ) : MokListNode :=
  if signatureType d o = certTypeX509Guid then
    ⟨signatureSize d o - 16, some (cert + 16), signatureType d o⟩
  else
    -- `MokSize` is 32 bits wide
    ⟨(signatureListSize d o + (2 ^ 32 - 28)) % 2 ^ 32, some cert, signatureType d o⟩

/-- The loop of `build_mok_list`. -/
def buildMokListFrom (d : Region) : (fuel o dbsize : ℕ) → Option (List MokListNode)
  | 0, _, _ => some []
  | fuel + 1, o, dbsize =>
    if 0 < dbsize ∧ signatureListSize d o ≤ dbsize then
      if d.size < o + 28 ∨ signatureListSize d o = 0 then none
      else
        let cert := o + 28 + signatureHeaderSize d o
        if d.size < cert + 17 ∨ signatureSize d o ≤ 16 then none
        else
          let node := mokListNode d o cert
          if d.size - node.mok.getD 0 < node.mokSize then none
          else
            (buildMokListFrom d fuel (o + signatureListSize d o)
              (dbsize - signatureListSize d o)).map (node :: ·)
    else some []

/-- `build_mok_list`, once the array of nodes has been allocated. -/
def buildMokList (d : Region) : Option (List MokListNode) := buildMokListFrom d d.size 0 d.size

/-! ## The array is as long as the count -/

/-- A count that is not nought passed its test. -/
theorem ne_zero_of_ite {c : Prop} [Decidable c] {n : ℕ} (h : (if c then 0 else n) ≠ 0) :
    ¬ c ∧ n ≠ 0 := by
  by_cases hc : c
  · rw [if_pos hc] at h
    exact absurd rfl h
  · rw [if_neg hc] at h
    exact ⟨hc, h⟩

/-- What is counted is what is built. -/
theorem countKeysFrom_eq {d : Region} {fuel o dbsize mokNum : ℕ}
    (h : countKeysFrom d fuel o dbsize mokNum ≠ 0) {mok : List MokListNode}
    (hmok : buildMokListFrom d fuel o dbsize = some mok) :
    countKeysFrom d fuel o dbsize mokNum = mokNum + mok.length := by
  induction fuel generalizing o dbsize mokNum mok with
  | zero =>
    obtain rfl : [] = mok := by simpa [buildMokListFrom] using hmok
    rfl
  | succ fuel ih =>
    rw [countKeysFrom] at h ⊢
    rw [buildMokListFrom] at hmok
    by_cases hin : 0 < dbsize ∧ signatureListSize d o ≤ dbsize
    · simp only [if_pos hin] at h hmok ⊢
      -- a database that counts passes the three checks of every list
      obtain ⟨h1, h⟩ := ne_zero_of_ite h
      obtain ⟨h2, h⟩ := ne_zero_of_ite h
      obtain ⟨h3, h⟩ := ne_zero_of_ite h
      rw [if_neg h1] at hmok
      rw [if_neg h1, if_neg h2, if_neg h3]
      split_ifs at hmok with h4 h5
      obtain ⟨rest, hrest, rfl⟩ := Option.map_eq_some_iff.mp hmok
      rw [ih h hrest, List.length_cons]
      omega
    · simp only [if_neg hin] at hmok ⊢
      obtain rfl : [] = mok := by simpa using hmok
      rfl

/-- `build_mok_list` fills the array it allocates for `count_keys` nodes. -/
theorem length_buildMokList {d : Region} (h : countKeys d ≠ 0) {mok : List MokListNode}
    (hmok : buildMokList d = some mok) : mok.length = countKeys d := by
  rw [countKeys, countKeysFrom_eq h hmok, Nat.zero_add]

/-! ## Well-formed databases -/

/-- A list of the kinds a MOK database has: certificates, or hashes of the size of their type. -/
def SignatureList.IsKeyList (l : SignatureList) : Prop :=
  l.type = certTypeX509Guid ∨ isSha2Hash l.type ∧ l.size = shaSize l.type + 16

instance (l : SignatureList) : Decidable l.IsKeyList := inferInstanceAs (Decidable (_ ∨ _))

/-- The lists are of these kinds. One without a signature declares a size all the same, and it is
the size of a hash or one that a certificate can have. -/
def WellFormedKeys (ls : List SignatureList) : Prop :=
  ∀ l ∈ ls, l.IsKeyList ∧ (l.sigs = [] → 28 ≤ l.size)

instance (ls : List SignatureList) : Decidable (WellFormedKeys ls) :=
  inferInstanceAs (Decidable (∀ l ∈ ls, _))

/-- The memory is a well-formed database. -/
structure HoldsKeys (d : Region) (ls : List SignatureList) : Prop where
  holds : d.HoldsAt 0 (encodeDb ls)
  size_eq : d.size = (encodeDb ls).length
  size_lt : d.size < 2 ^ 32
  keys : WellFormedKeys ls

/-- The node of a list that was laid out at `o`. -/
def SignatureList.node (l : SignatureList) (o : ℕ) : MokListNode :=
  if l.type = certTypeX509Guid then ⟨l.size - 16, some (o + 28 + 16), l.type⟩
  else ⟨l.sigs.length * l.size, some (o + 28), l.type⟩

/-- The nodes of lists that were laid out one after the other. -/
def nodesFrom : ℕ → List SignatureList → List MokListNode
  | _, [] => []
  | o, l :: ls => l.node o :: nodesFrom (o + l.listSize) ls

/-- A list of keys passes the test of its type and size. -/
theorem SignatureList.IsKeyList.isValidSiglist {l : SignatureList} (h : l.IsKeyList) :
    isValidSiglist l.type l.size = true := by
  have hpos := l.size_gt
  unfold Shim.isValidSiglist
  rcases h with hx | ⟨hsha, hsize⟩
  · rw [if_pos ⟨hx, by omega⟩]
  · split_ifs <;> simp_all

/-- A list with a signature is longer than the signature. -/
theorem SignatureList.size_lt_listSize {l : SignatureList} (h : l.sigs ≠ []) :
    28 + l.size ≤ l.listSize := by
  have hlen : 1 ≤ l.sigs.length := List.length_pos_iff.mpr h
  have := Nat.mul_le_mul_right l.size hlen
  unfold SignatureList.listSize
  omega

section Layout

variable {d : Region} {o fuel mokNum : ℕ} {ls : List SignatureList}

/-- Of a database of key lists all are counted. -/
theorem countKeysFrom_encodeDb (h : d.HoldsAt o (encodeDb ls)) (hend : d.size = o + (encodeDb ls).length)
    (hsize : (encodeDb ls).length < 2 ^ 32) (hkeys : ∀ l ∈ ls, l.IsKeyList ∧ l.sigs ≠ [])
    (hfuel : (encodeDb ls).length ≤ fuel) :
    countKeysFrom d fuel o (encodeDb ls).length mokNum = mokNum + ls.length := by
  induction ls generalizing o fuel mokNum with
  | nil => cases fuel <;> simp [countKeysFrom]
  | cons l ls ih =>
    obtain ⟨hkey, hne⟩ := hkeys l List.mem_cons_self
    rw [encodeDb_cons, Region.holdsAt_append] at h
    simp only [encodeDb_cons, List.length_append, l.length_encode] at h hend hsize hfuel ⊢
    have hlong := SignatureList.size_lt_listSize hne
    obtain ⟨fuel, rfl⟩ : ∃ k, fuel = k + 1 := ⟨fuel - 1, by omega⟩
    obtain ⟨htype, hlist, -, hsig⟩ := l.fields (l.holdsAt_encode.mp h.1).1 (by omega)
    rw [countKeysFrom, if_pos (by omega), if_neg (by omega), if_neg (by omega), htype, hsig,
      if_neg (by simp [hkey.isValidSiglist]), hlist, Nat.add_sub_cancel_left,
      ih h.2 (by omega) (by omega) (fun l' hl' => hkeys l' (List.mem_cons_of_mem _ hl')) (by omega),
      List.length_cons]
    omega

/-- A list without a signature, of signatures that are no shorter than its header, spoils the count. -/
theorem countKeysFrom_encodeDb_of_nil (h : d.HoldsAt o (encodeDb ls))
    (hend : d.size = o + (encodeDb ls).length) (hsize : (encodeDb ls).length < 2 ^ 32)
    (hkeys : WellFormedKeys ls) (hnil : ∃ l ∈ ls, l.sigs = [])
    (hfuel : (encodeDb ls).length ≤ fuel) :
    countKeysFrom d fuel o (encodeDb ls).length mokNum = 0 := by
  induction ls generalizing o fuel mokNum with
  | nil => simp at hnil
  | cons l ls ih =>
    rw [encodeDb_cons, Region.holdsAt_append] at h
    simp only [encodeDb_cons, List.length_append, l.length_encode] at h hend hsize hfuel ⊢
    have hlong := l.le_listSize
    obtain ⟨fuel, rfl⟩ : ∃ k, fuel = k + 1 := ⟨fuel - 1, by omega⟩
    obtain ⟨htype, hlist, -, hsig⟩ := l.fields (l.holdsAt_encode.mp h.1).1 (by omega)
    rw [countKeysFrom, if_pos (by omega), if_neg (by omega)]
    by_cases hlnil : l.sigs = []
    · have hbare : l.listSize = 28 := by simp [SignatureList.listSize, hlnil]
      have := (hkeys l List.mem_cons_self).2 hlnil
      rw [if_pos (by omega)]
    · have hlne := SignatureList.size_lt_listSize hlnil
      have hrest : ∃ l' ∈ ls, l'.sigs = [] := by
        obtain ⟨l', hl', hnil'⟩ := hnil
        rcases List.mem_cons.mp hl' with rfl | hl'
        · exact absurd hnil' hlnil
        · exact ⟨l', hl', hnil'⟩
      rw [if_neg (by omega), htype, hsig,
        if_neg (by simp [(hkeys l List.mem_cons_self).1.isValidSiglist]), hlist,
        Nat.add_sub_cancel_left, ih h.2 (by omega) (by omega)
          (fun l' hl' => hkeys l' (List.mem_cons_of_mem _ hl')) hrest (by omega)]

/-- A node has the fields of its list. -/
theorem mokListNode_eq {l : SignatureList} (h : d.HoldsAt o l.header)
    (hsize : l.listSize < 2 ^ 32) : mokListNode d o (o + 28) = l.node o := by
  obtain ⟨htype, hlist, -, hsig⟩ := l.fields h hsize
  have hmod : (l.listSize + (2 ^ 32 - 28)) % 2 ^ 32 = l.sigs.length * l.size := by
    unfold SignatureList.listSize at hsize ⊢
    omega
  rw [mokListNode, SignatureList.node, htype, hlist, hsig, hmod]

/-- The node lies inside its list. -/
theorem SignatureList.node_le {l : SignatureList} (h : l.sigs ≠ []) :
    (l.node o).mok.getD 0 + (l.node o).mokSize ≤ o + l.listSize := by
  have hlong := SignatureList.size_lt_listSize h
  have hpos := l.size_gt
  unfold SignatureList.node
  split_ifs
  · simp only [Option.getD_some]
    omega
  · simp only [Option.getD_some, SignatureList.listSize]
    omega

/-- Of a database all lists get a node. -/
theorem buildMokListFrom_encodeDb (h : d.HoldsAt o (encodeDb ls))
    (hend : d.size = o + (encodeDb ls).length) (hsize : (encodeDb ls).length < 2 ^ 32)
    (hne : ∀ l ∈ ls, l.sigs ≠ []) (hfuel : (encodeDb ls).length ≤ fuel) :
    buildMokListFrom d fuel o (encodeDb ls).length = some (nodesFrom o ls) := by
  induction ls generalizing o fuel with
  | nil => cases fuel <;> simp [buildMokListFrom, nodesFrom]
  | cons l ls ih =>
    have hlne := hne l List.mem_cons_self
    rw [encodeDb_cons, Region.holdsAt_append] at h
    simp only [encodeDb_cons, List.length_append, l.length_encode] at h hend hsize hfuel ⊢
    have hlong := SignatureList.size_lt_listSize hlne
    have hpos := l.size_gt
    obtain ⟨fuel, rfl⟩ : ∃ k, fuel = k + 1 := ⟨fuel - 1, by omega⟩
    have hhead := (l.holdsAt_encode.mp h.1).1
    obtain ⟨-, hlist, hheader, hsig⟩ := l.fields hhead (by omega)
    have hnode := SignatureList.node_le (o := o) hlne
    simp only [buildMokListFrom]
    rw [hheader, Nat.add_zero, mokListNode_eq hhead (by omega), if_pos (by omega),
      if_neg (by omega), if_neg (by omega), if_neg (by omega), hlist, Nat.add_sub_cancel_left,
      ih h.2 (by omega) (by omega) (fun l' hl' => hne l' (List.mem_cons_of_mem _ hl')) (by omega)]
    rfl

/-- A database in which no list is without a signature has a node for each of its lists. -/
theorem HoldsKeys.buildMokList (h : HoldsKeys d ls) (hne : ∀ l ∈ ls, l.sigs ≠ []) :
    countKeys d = ls.length ∧ Shim.buildMokList d = some (nodesFrom 0 ls) := by
  have hsize := h.size_lt
  have hend := h.size_eq
  rw [hend] at hsize
  unfold countKeys Shim.buildMokList
  rw [hend]
  constructor
  · rw [countKeysFrom_encodeDb h.holds (by omega) hsize
      (fun l hl => ⟨(h.keys l hl).1, hne l hl⟩) le_rfl, Nat.zero_add]
  · exact buildMokListFrom_encodeDb h.holds (by omega) hsize hne le_rfl

/-- Any other is not counted. -/
theorem HoldsKeys.countKeys_of_nil (h : HoldsKeys d ls) (hnil : ∃ l ∈ ls, l.sigs = []) :
    countKeys d = 0 := by
  have hsize := h.size_lt
  have hend := h.size_eq
  rw [hend] at hsize
  unfold countKeys
  rw [hend]
  exact countKeysFrom_encodeDb_of_nil h.holds (by omega) hsize h.keys hnil le_rfl

/-- A database that is counted has a list, and no list without a signature. -/
theorem HoldsKeys.ne_nil_of_countKeys (h : HoldsKeys d ls) (hcount : countKeys d ≠ 0) :
    ls ≠ [] ∧ ∀ l ∈ ls, l.sigs ≠ [] := by
  have hne : ∀ l ∈ ls, l.sigs ≠ [] := fun l hl hnil => hcount (h.countKeys_of_nil ⟨l, hl, hnil⟩)
  refine ⟨?_, hne⟩
  rintro rfl
  exact hcount (h.buildMokList hne).1

end Layout

end Shim
