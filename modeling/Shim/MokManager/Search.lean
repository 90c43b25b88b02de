import Shim.MokManager.KeyList
import Shim.Common.Sweep

/-! # Search and destroy

The loops of `delete_keys` (MokManager.c) over the nodes of a database and of a deletion request. A
certificate is removed by clearing its node, a hash by moving the rest of its list down over it; the
next search for the same hash is told where the last one ended.
-/

namespace Shim

open Sweep

/-- The memory a node points to; a null node has none. -/
def MokListNode.bytes (node : MokListNode) (d : Region) : List UInt8 :=
  d.bytes (node.mok.getD 0) node.mokSize

/-- Remove the key. -/
def MokListNode.clear (node : MokListNode) : MokListNode := { node with mok := none, mokSize := 0 }

/-- The body of the loop of `delete_cert`. -/
def MokListNode.deleteCert (key : List UInt8) (d : Region) (node : MokListNode) : MokListNode :=
  if node.type ≠ certTypeX509Guid then node
  else if node.mokSize = key.length ∧ node.bytes d = key then node.clear
  else node

/-- `delete_cert`. -/
def deleteCert (key : List UInt8) (s : Region × List MokListNode) : Region × List MokListNode :=
  (s.1, s.2.map (MokListNode.deleteCert key s.1))

/-- `match_hash`: the index starts at `start`, the pointer at the first hash. -/
def matchHash (d : Region) (hash : List UInt8) (start hashList listNum : ℕ) : Option ℕ :=
  ((List.range (listNum - start)).findIdx? fun i =>
    d.bytes (hashList + 16 + i * (hash.length + 16)) hash.length = hash).map (start + ·)

/-- The `while` loop of `delete_hash_in_list`, for a node whose memory starts at `mok`. A turn that
goes on takes one off `listNum`, which bounds the fuel. -/
def deleteHashLoop (hash : List UInt8) (mok : ℕ) :
    (fuel : ℕ) → Region → MokListNode → (listNum : ℕ) → Option ℕ → Region × MokListNode
  | 0, d, node, _, _ => (d, node)
  | _ + 1, d, node, _, none => (d, node)
  | fuel + 1, d, node, listNum, some delInd =>
    let sigSize := hash.length + 16
    if sigSize = node.mokSize then (d, node.clear)
    else
      let start := mok + delInd * sigSize
      let d := d.move start (start + sigSize) (node.mokSize - (delInd + 1) * sigSize)
      deleteHashLoop hash mok fuel d { node with mokSize := node.mokSize - sigSize } (listNum - 1)
        (matchHash d hash delInd mok (listNum - 1))

/-- The body of the `for` loop of `delete_hash_in_list`. -/
def deleteHashInNode (type hash : List UInt8) (d : Region) (node : MokListNode) :
    Region × MokListNode :=
  let sigSize := hash.length + 16
  if node.type ≠ type ∨ node.mokSize < sigSize then (d, node)
  else
    let mok := node.mok.getD 0
    let listNum := node.mokSize / sigSize
    deleteHashLoop hash mok listNum d node listNum (matchHash d hash 0 mok listNum)

/-- `delete_hash_in_list`. -/
def deleteHashInList (type hash : List UInt8) (d : Region) :
    List MokListNode → Region × List MokListNode
  | [] => (d, [])
  | node :: mok =>
    let r := deleteHashInNode type hash d node
    let rest := deleteHashInList type hash r.1 mok
    (rest.1, r.2 :: rest.2)

/-- `delete_hash_list`: the hashes of the request's node. -/
def deleteHashList (request : Region) (node : MokListNode) (s : Region × List MokListNode) :
    Region × List MokListNode :=
  let hashSize := shaSize node.type
  let sigSize := hashSize + 16
  if node.mokSize < sigSize then s
  else
    (List.range (node.mokSize / sigSize)).foldl (fun s i =>
      deleteHashInList node.type
        (request.bytes (node.mok.getD 0 + 16 + i * sigSize) hashSize) s.1 s.2) s

/-- The body of the search loop of `delete_keys`. -/
def deleteKey (request : Region) (s : Region × List MokListNode) (node : MokListNode) :
    Region × List MokListNode :=
  if node.type = certTypeX509Guid then deleteCert (node.bytes request) s
  else if isSha2Hash node.type then deleteHashList request node s
  else s

/-- The search loop of `delete_keys`. -/
def searchAndDestroy (request : Region) (delKey : List MokListNode)
    (s : Region × List MokListNode) : Region × List MokListNode :=
  delKey.foldl (deleteKey request) s

/-- What `write_back_mok_list` writes for a node. -/
def MokListNode.encode (d : Region) (node : MokListNode) : List UInt8 :=
  if node.mok = none then []
  else if node.type = certTypeX509Guid then
    node.type ++ Region.le32 (node.mokSize + 28 + 16) ++ Region.le32 0 ++
      Region.le32 (node.mokSize + 16) ++ shimLockGuid ++ node.bytes d
  else
    node.type ++ Region.le32 (node.mokSize + 28) ++ Region.le32 0 ++
      Region.le32 (shaSize node.type + 16) ++ node.bytes d

/-- The bytes that `write_back_mok_list` lays out. -/
def encodeNodes (s : Region × List MokListNode) : List UInt8 :=
  s.2.flatMap (MokListNode.encode s.1)

/-! ## Nodes and what they hold -/

/-- The node is of the type and holds the bytes, within `lo` and `hi`; no bytes are a null node. -/
structure NodeHolds (d : Region) (lo hi : ℕ) (type content : List UInt8) (node : MokListNode) :
    Prop where
  type_eq : node.type = type
  size_eq : node.mokSize = content.length
  null : content = [] → node.mok = none
  some : content ≠ [] → ∃ o, node.mok = some o ∧ lo ≤ o ∧ o + content.length ≤ hi ∧
    d.HoldsAt o content

section NodeHolds

variable {d d' : Region} {lo hi : ℕ} {type content : List UInt8} {node : MokListNode}

/-- A node depends on its own bytes only. -/
theorem NodeHolds.congr (h : NodeHolds d lo hi type content node)
    (hd : ∀ i, lo ≤ i → i < hi → d.byte i = d'.byte i) : NodeHolds d' lo hi type content node where
  type_eq := h.type_eq
  size_eq := h.size_eq
  null := h.null
  some hc := by
    obtain ⟨o, hmok, hlo, hhi, hat⟩ := h.some hc
    exact ⟨o, hmok, hlo, hhi, hat.congr fun i hi hi' => hd i (by omega) (by omega)⟩

/-- The bytes of a node are its content. -/
theorem NodeHolds.bytes (h : NodeHolds d lo hi type content node) : node.bytes d = content := by
  by_cases hc : content = []
  · subst hc
    rw [MokListNode.bytes, h.size_eq]
    rfl
  · obtain ⟨o, hmok, -, -, hat⟩ := h.some hc
    rw [MokListNode.bytes, hmok, h.size_eq]
    exact hat

/-- A node that is cleared has no content. -/
theorem NodeHolds.clear (h : NodeHolds d lo hi type content node) :
    NodeHolds d lo hi type [] node.clear where
  type_eq := h.type_eq
  size_eq := rfl
  null _ := rfl
  some hc := absurd rfl hc

/-- A certificate is removed if it is the key. -/
theorem NodeHolds.deleteCert (h : NodeHolds d lo hi type content node) (key : List UInt8) :
    NodeHolds d lo hi type (if type = certTypeX509Guid ∧ content = key then [] else content)
      (node.deleteCert key d) := by
  rw [MokListNode.deleteCert, h.type_eq, h.size_eq, h.bytes]
  by_cases htype : type = certTypeX509Guid
  · by_cases hkey : content = key
    · subst hkey
      rw [if_pos ⟨htype, rfl⟩, if_neg (not_not_intro htype), if_pos ⟨rfl, rfl⟩]
      exact h.clear
    · rw [if_neg fun hc => hkey hc.2, if_neg (not_not_intro htype), if_neg fun hc => hkey hc.2]
      exact h
  · rw [if_neg fun hc => htype hc.1, if_pos htype]
    exact h

end NodeHolds

/-! ## One hash in one node -/

section Hash

variable {hash : List UInt8} {sigs : List SignatureData} {d : Region} {o : ℕ}

/-- The signatures are hashes of the length of `hash`. -/
def HashSized (hash : List UInt8) (sigs : List SignatureData) : Prop :=
  ∀ s ∈ sigs, s.owner.length = 16 ∧ s.data.length = hash.length

/-- Every signature has the hash and its owner. -/
theorem HashSized.length_encode (h : HashSized hash sigs) :
    ∀ s ∈ sigs, s.encode.length = hash.length + 16 := by
  intro s hs
  obtain ⟨howner, hdata⟩ := h s hs
  rw [SignatureData.encode, List.length_append, howner, hdata, Nat.add_comm]

/-- All of them together. -/
theorem HashSized.length_flatMap (h : HashSized hash sigs) :
    (sigs.flatMap SignatureData.encode).length = sigs.length * (hash.length + 16) :=
  length_flatMap_encode h.length_encode

/-- Fewer signatures are of the same size. -/
theorem HashSized.of_sublist {sigs' : List SignatureData} (h : HashSized hash sigs)
    (hsub : sigs'.Sublist sigs) : HashSized hash sigs' :=
  fun s hs => h s (hsub.subset hs)

/-- The hash that `match_hash` compares. -/
theorem HashSized.bytes (h : HashSized hash sigs)
    (hat : d.HoldsAt o (sigs.flatMap SignatureData.encode)) {i : ℕ} (hi : i < sigs.length) :
    d.bytes (o + 16 + i * (hash.length + 16)) hash.length = (sigs[i]).data := by
  obtain ⟨howner, hdata⟩ := h sigs[i] (List.getElem_mem hi)
  have hsig := holdsAt_flatMap_encode h.length_encode hat hi
  rw [SignatureData.encode, Region.holdsAt_append, howner] at hsig
  rw [Nat.add_right_comm]
  exact hsig.2.bytes hdata

/-- `match_hash` finds what `matchFrom` finds. -/
theorem matchHash_eq (h : HashSized hash sigs)
    (hat : d.HoldsAt o (sigs.flatMap SignatureData.encode)) (start : ℕ) :
    matchHash d hash start o sigs.length = matchFrom (fun s => s.data = hash) start sigs := by
  have hmap : (List.range (sigs.length - start)).map (fun i => decide
        (d.bytes (o + 16 + i * (hash.length + 16)) hash.length = hash)) =
      (sigs.take (sigs.length - start)).map fun s => decide (s.data = hash) := by
    refine List.ext_getElem (by simp) fun i hi _ => ?_
    have hi' : i < sigs.length := by
      simp only [List.length_map, List.length_range] at hi
      omega
    simp only [List.getElem_map, List.getElem_range, List.getElem_take, h.bytes hat hi']
  rw [matchHash, matchFrom]
  congr 1
  have := congrArg (List.findIdx? id) hmap
  rwa [List.findIdx?_map, List.findIdx?_map, Function.id_comp, Function.id_comp] at this

/-- Nothing is left of the last one only. -/
theorem eraseIdx_eq_nil_iff {k : ℕ} (hk : k < sigs.length) :
    sigs.eraseIdx k = [] ↔ sigs.length = 1 := by
  rw [← List.length_eq_zero_iff, List.length_eraseIdx_of_lt hk]
  omega

/-- Moving the rest of the list down erases one signature. -/
theorem HashSized.move (h : HashSized hash sigs)
    (hat : d.HoldsAt o (sigs.flatMap SignatureData.encode)) {k : ℕ} (hk : k < sigs.length) :
    (d.move (o + k * (hash.length + 16)) (o + k * (hash.length + 16) + (hash.length + 16))
      (sigs.length * (hash.length + 16) - (k + 1) * (hash.length + 16))).HoldsAt o
        ((sigs.eraseIdx k).flatMap SignatureData.encode) := by
  have htake := h.of_sublist (List.take_sublist k sigs)
  have hdrop := h.of_sublist (List.drop_sublist (k + 1) sigs)
  have hlen := hdrop.length_flatMap
  rw [List.length_drop, Nat.sub_mul] at hlen
  have htakelen := htake.length_flatMap
  rw [List.length_take_of_le hk.le] at htakelen
  rw [← Sweep.take_cons_drop hk, List.flatMap_append, List.flatMap_cons, Region.holdsAt_append,
    Region.holdsAt_append, htakelen,
    h.length_encode _ (List.getElem_mem hk)] at hat
  obtain ⟨hfront, -, hback⟩ := hat
  rw [List.eraseIdx_eq_take_drop_succ, List.flatMap_append, Region.holdsAt_append, htakelen]
  constructor
  · refine hfront.congr fun i _ hi => ?_
    rw [Region.byte_move (by omega), if_neg (by omega)]
  · rw [← hlen]
    exact hback.move (by omega)

variable {lo hi : ℕ} {type : List UInt8} {node : MokListNode}

/-- The loop sweeps the list, and changes no byte outside it. -/
theorem deleteHashLoop_spec {fuel : ℕ} (start : ℕ) (hsized : HashSized hash sigs) (hne : sigs ≠ [])
    (hnode : NodeHolds d lo hi type (sigs.flatMap SignatureData.encode) node)
    (hmok : node.mok = some o) (hfuel : sigs.length ≤ fuel) :
    let r := deleteHashLoop hash o fuel d node sigs.length (matchHash d hash start o sigs.length)
    NodeHolds r.1 lo hi type
        ((sweep (fun s => s.data = hash) fuel start sigs).flatMap SignatureData.encode) r.2 ∧
      r.1.size = d.size ∧ ∀ i, ¬ (lo ≤ i ∧ i < hi) → r.1.byte i = d.byte i := by
  -- `match_hash` answers what the search for an equal signature from `start` on finds
  induction fuel generalizing d node sigs start with
  | zero => exact absurd (List.length_eq_zero_iff.mp (Nat.le_zero.mp hfuel)) hne
  | succ fuel ih =>
    have hlen := hsized.length_flatMap
    have hpos : 0 < sigs.length := List.length_pos_iff.mpr hne
    have hcontent : sigs.flatMap SignatureData.encode ≠ [] := by
      rw [← List.length_pos_iff, hlen]
      exact Nat.mul_pos hpos (by omega)
    obtain ⟨o', hmok', hlo, hhi, hat⟩ := hnode.some hcontent
    obtain rfl : o = o' := by simpa [hmok] using hmok'
    rw [matchHash_eq hsized hat]
    cases hmatch : matchFrom (fun s => decide (s.data = hash)) start sigs with
    | none =>
      -- no copy of the hash is left
      rw [sweep_none hmatch]
      exact ⟨hnode, rfl, fun _ _ => rfl⟩
    | some k =>
      obtain ⟨j, rfl, -, hk, -⟩ := exists_of_matchFrom hmatch
      rw [sweep_some hmatch]
      simp only [deleteHashLoop]
      have hsize : node.mokSize = sigs.length * (hash.length + 16) := by
        rw [hnode.size_eq, hlen]
      have hone : hash.length + 16 = node.mokSize ↔ sigs.length = 1 := by
        rw [hsize]
        constructor
        · intro h
          exact Nat.eq_of_mul_eq_mul_right (by omega : 0 < hash.length + 16) (by omega)
        · intro h
          rw [h, Nat.one_mul]
      by_cases hlast : sigs.length = 1
      · -- the only signature goes with its node
        have hnil := (eraseIdx_eq_nil_iff hk).mpr hlast
        rw [if_pos (hone.mpr hlast), hnil, sweep_none (matchFrom_eq_none (by simp))]
        exact ⟨hnode.clear, rfl, fun _ _ => rfl⟩
      -- the signatures behind move up by one, and the search goes on where it stood
      · rw [if_neg fun h => hlast (hone.mp h), hsize]
        have hmove := hsized.move hat hk
        have herase := hsized.of_sublist (List.eraseIdx_sublist sigs (start + j))
        have helen := List.length_eraseIdx_of_lt hk
        have hmul : sigs.length * (hash.length + 16) - (hash.length + 16) =
            (sigs.length - 1) * (hash.length + 16) := by
          rw [Nat.sub_mul, Nat.one_mul]
        have hle : (start + j + 1) * (hash.length + 16) ≤ sigs.length * (hash.length + 16) :=
          Nat.mul_le_mul_right _ hk
        rw [Nat.succ_mul] at hle
        generalize hd : d.move (o + (start + j) * (hash.length + 16))
          (o + (start + j) * (hash.length + 16) + (hash.length + 16))
          (sigs.length * (hash.length + 16) - (start + j + 1) * (hash.length + 16)) = d' at hmove ⊢
        -- the move stays in the array of the list
        have hout : ∀ i, ¬ (lo ≤ i ∧ i < hi) → d'.byte i = d.byte i := by
          intro i hi'
          rw [← hd, Region.byte_move (by omega), if_neg]
          rw [hlen] at hhi
          rw [Nat.succ_mul]
          omega
        have hnode' : NodeHolds d' lo hi type
            ((sigs.eraseIdx (start + j)).flatMap SignatureData.encode)
            { node with mokSize := (sigs.length - 1) * (hash.length + 16) } := by
          refine ⟨hnode.type_eq, ?_, ?_, ?_⟩
          · rw [herase.length_flatMap, helen]
          · intro h
            have := congrArg List.length h
            rw [herase.length_flatMap, helen, List.length_nil, Nat.mul_eq_zero] at this
            omega
          · intro _
            refine ⟨o, hmok, hlo, ?_, hmove⟩
            rw [herase.length_flatMap, helen, ← hmul]
            rw [hlen] at hhi
            omega
        rw [hmul, ← helen]
        have hne' : sigs.eraseIdx (start + j) ≠ [] := fun h => hlast ((eraseIdx_eq_nil_iff hk).mp h)
        rw [helen]
        have := ih (start + j) herase hne' hnode' hmok (by omega)
        rw [helen] at this
        refine ⟨this.1, ?_, fun i hi' => ?_⟩
        · rw [this.2.1, ← hd, Region.size_move]
        · rw [this.2.2 i hi', hout i hi']

end Hash

end Shim
