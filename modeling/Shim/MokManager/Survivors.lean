import Shim.MokManager.Search

/-! # What a deletion leaves

`Kept` is what a node holds: one certificate, or the hashes of a list. The search loop of
`delete_keys` acts on every node by itself, as `Kept.deleteAll` says, and the nodes that are left
encode to a well-formed database.
-/

namespace Shim

open Sweep

/-- What is left of a signature list; a certificate of no bytes has been removed. -/
inductive Kept
  | cert (data : List UInt8)
  | hashes (type : List UInt8) (sigs : List SignatureData)

namespace Kept

def type : Kept → List UInt8
  | cert _ => certTypeX509Guid
  | hashes type _ => type

/-- The bytes that the node points to. -/
def content : Kept → List UInt8
  | cert data => data
  | hashes _ sigs => sigs.flatMap SignatureData.encode

/-- The signatures that are written back. -/
def entries : Kept → List Signature
  | cert data => if data = [] then [] else [⟨certTypeX509Guid, shimLockGuid, data⟩]
  | hashes type sigs => sigs.map fun s => ⟨type, s.owner, s.data⟩

/-- Sizes are those of the type. -/
def Valid : Kept → Prop
  | cert data => data.length + 16 < 2 ^ 32
  | hashes type sigs => isSha2Hash type ∧
      ∀ s ∈ sigs, s.owner.length = 16 ∧ s.data.length = shaSize type

def deleteCert (key : List UInt8) : Kept → Kept
  | cert data => cert (if data = key then [] else data)
  | hashes type sigs => hashes type sigs

def deleteHash (type hash : List UInt8) : Kept → Kept
  | cert data => cert data
  | hashes t sigs =>
    hashes t (if t = type then sweep (fun s => s.data = hash) sigs.length 0 sigs else sigs)

end Kept

/-- The certificate that the node of an X.509 list points to. -/
def SignatureList.firstCert (l : SignatureList) : List UInt8 := (l.sigs.head?.map (·.data)).getD []

/-- What the node of a list holds. -/
def SignatureList.kept (l : SignatureList) : Kept :=
  if l.type = certTypeX509Guid then .cert l.firstCert else .hashes l.type l.sigs

/-- One list of the request. -/
def Kept.delete (k : Kept) (r : SignatureList) : Kept :=
  if r.type = certTypeX509Guid then k.deleteCert r.firstCert
  else r.sigs.foldl (fun k s => k.deleteHash r.type s.data) k

/-- The whole request. -/
def Kept.deleteAll (rs : List SignatureList) (k : Kept) : Kept := rs.foldl Kept.delete k

/-- The nodes hold `ks`, each in an area of its own from `o` on. -/
def HoldsAll (d : Region) : ℕ → List (ℕ × Kept) → List MokListNode → Prop
  | _, [], [] => True
  | o, (n, k) :: ks, node :: mok =>
    NodeHolds d o (o + n) k.type k.content node ∧ HoldsAll d (o + n) ks mok
  | _, _, _ => False

/-- A hash is no certificate. -/
theorem ne_x509_of_isSha2Hash {type : List UInt8} (h : isSha2Hash type = true) :
    type ≠ certTypeX509Guid := by
  rintro rfl
  exact absurd h (by decide)

/-! ## One node -/

section Node

variable {d : Region} {lo hi : ℕ} {type hash : List UInt8} {node : MokListNode} {k : Kept}

/-- Deleting a certificate keeps what is kept valid. -/
theorem Kept.Valid.deleteCert (hk : k.Valid) (key : List UInt8) : (k.deleteCert key).Valid := by
  cases k with
  | cert data =>
    simp only [Kept.deleteCert]
    split_ifs
    · exact (by decide : 0 + 16 < 2 ^ 32)
    · exact hk
  | hashes t sigs => exact hk

/-- So does deleting a hash. -/
theorem Kept.Valid.deleteHash (hk : k.Valid) (type hash : List UInt8) :
    (k.deleteHash type hash).Valid := by
  cases k with
  | cert data => exact hk
  | hashes t sigs =>
    simp only [Kept.deleteHash]
    split_ifs
    · exact ⟨hk.1, fun s hs => hk.2 s (sweep_sublist.subset hs)⟩
    · exact hk

/-- The body of `delete_cert`, on what the node holds. -/
theorem NodeHolds.keptDeleteCert (hk : k.Valid) (h : NodeHolds d lo hi k.type k.content node)
    (key : List UInt8) : NodeHolds d lo hi (k.deleteCert key).type (k.deleteCert key).content
      (node.deleteCert key d) := by
  have hnode := h.deleteCert key
  cases k with
  | cert data =>
    rw [Kept.type, if_congr (and_iff_right rfl) rfl rfl] at hnode
    exact hnode
  | hashes t sigs =>
    rw [Kept.type, if_neg fun hc => ne_x509_of_isSha2Hash hk.1 hc.1] at hnode
    exact hnode

/-- The body of `delete_hash_in_list`, on what the node holds. -/
theorem NodeHolds.keptDeleteHash (hk : k.Valid) (htype : isSha2Hash type = true)
    (hhash : hash.length = shaSize type) (h : NodeHolds d lo hi k.type k.content node) :
    let r := deleteHashInNode type hash d node
    NodeHolds r.1 lo hi (k.deleteHash type hash).type (k.deleteHash type hash).content r.2 ∧
      ∀ i, ¬ (lo ≤ i ∧ i < hi) → r.1.byte i = d.byte i := by
  -- a node of another type is left as it is
  have hother : k.type ≠ type → deleteHashInNode type hash d node = (d, node) := by
    intro hne
    rw [deleteHashInNode, if_pos (.inl (h.type_eq ▸ hne))]
  cases k with
  | cert data =>
    rw [hother (ne_x509_of_isSha2Hash htype).symm]
    exact ⟨h, fun _ _ => rfl⟩
  | hashes t sigs =>
    by_cases ht : t = type
    · subst ht
      have hsized : HashSized hash sigs := fun s hs => by
        rw [hhash]
        exact hk.2 s hs
      have hsize : node.mokSize = sigs.length * (hash.length + 16) :=
        h.size_eq.trans hsized.length_flatMap
      simp only [Kept.deleteHash, if_true]
      rcases eq_or_ne sigs [] with rfl | hne
      · rw [deleteHashInNode, if_pos (.inr (by rw [hsize]; simp))]
        exact ⟨h, fun _ _ => rfl⟩
      · have hpos : 0 < sigs.length := List.length_pos_iff.mpr hne
        have hge : hash.length + 16 ≤ node.mokSize := by
          rw [hsize]
          exact Nat.le_mul_of_pos_left _ hpos
        have hcontent : sigs.flatMap SignatureData.encode ≠ [] := by
          rw [← List.length_pos_iff, hsized.length_flatMap]
          exact Nat.mul_pos hpos (by omega)
        obtain ⟨o, hmok, -⟩ := h.some hcontent
        have hnum : node.mokSize / (hash.length + 16) = sigs.length := by
          rw [hsize, Nat.mul_div_cancel _ (by omega)]
        have hnot : ¬ (node.type ≠ t ∨ node.mokSize < hash.length + 16) :=
          not_or.mpr ⟨not_not_intro h.type_eq, Nat.not_lt.mpr hge⟩
        rw [deleteHashInNode, if_neg hnot]
        simp only [hnum, hmok, Option.getD_some]
        have hloop := deleteHashLoop_spec 0 hsized hne h hmok le_rfl
        exact ⟨hloop.1, hloop.2.2⟩
    · rw [hother ht, Kept.deleteHash, if_neg ht]
      exact ⟨h, fun _ _ => rfl⟩

end Node

/-! ## All nodes -/

section Nodes

variable {d d' : Region} {o : ℕ} {type hash : List UInt8} {ks : List (ℕ × Kept)}
  {mok : List MokListNode}

/-- The nodes depend on the bytes behind the start only. -/
theorem HoldsAll.congr (h : HoldsAll d o ks mok) (hd : ∀ i, o ≤ i → d.byte i = d'.byte i) :
    HoldsAll d' o ks mok := by
  induction ks generalizing o mok with
  | nil =>
    cases mok with
    | nil => trivial
    | cons node mok => exact h.elim
  | cons nk ks ih =>
    cases mok with
    | nil => exact h.elim
    | cons node mok => exact ⟨h.1.congr fun i hi _ => hd i hi, ih h.2 fun i hi => hd i (by omega)⟩

/-- Deleting a certificate is done node by node. -/
theorem HoldsAll.deleteCert (hks : ∀ nk ∈ ks, nk.2.Valid) (h : HoldsAll d o ks mok)
    (key : List UInt8) : HoldsAll d o (ks.map (Prod.map id (Kept.deleteCert key)))
      (mok.map (MokListNode.deleteCert key d)) := by
  induction ks generalizing o mok with
  | nil =>
    cases mok with
    | nil => trivial
    | cons node mok => exact h.elim
  | cons nk ks ih =>
    cases mok with
    | nil => exact h.elim
    | cons node mok =>
      exact ⟨h.1.keptDeleteCert (hks nk List.mem_cons_self) key,
        ih (fun nk' hnk' => hks nk' (List.mem_cons_of_mem _ hnk')) h.2⟩

/-- `delete_hash_in_list` acts on every node by itself: no area reaches into another. -/
theorem HoldsAll.deleteHash (hks : ∀ nk ∈ ks, nk.2.Valid) (htype : isSha2Hash type = true)
    (hhash : hash.length = shaSize type) (h : HoldsAll d o ks mok) :
    let r := deleteHashInList type hash d mok
    HoldsAll r.1 o (ks.map (Prod.map id (Kept.deleteHash type hash))) r.2 ∧
      ∀ i < o, r.1.byte i = d.byte i := by
  induction ks generalizing d o mok with
  | nil =>
    cases mok with
    | nil => exact ⟨trivial, fun _ _ => rfl⟩
    | cons node mok => exact h.elim
  | cons nk ks ih =>
    cases mok with
    | nil => exact h.elim
    | cons node mok =>
      obtain ⟨n, k⟩ := nk
      obtain ⟨hnode, hout⟩ :=
        h.1.keptDeleteHash (hks (n, k) List.mem_cons_self) htype hhash
      have hrest := h.2.congr fun i hi => (hout i (by omega)).symm
      obtain ⟨hall, hbelow⟩ :=
        ih (fun nk' hnk' => hks nk' (List.mem_cons_of_mem _ hnk')) hrest
      simp only [deleteHashInList]
      refine ⟨⟨hnode.congr fun i _ hi => (hbelow i hi).symm, hall⟩, fun i hi => ?_⟩
      rw [hbelow i (by omega), hout i (by omega)]

/-- Both deletions keep the sizes right. -/
theorem valid_map {f : Kept → Kept} (hks : ∀ nk ∈ ks, nk.2.Valid)
    (hf : ∀ k : Kept, k.Valid → (f k).Valid) : ∀ nk ∈ ks.map (Prod.map id f), nk.2.Valid := by
  intro nk hnk
  obtain ⟨nk', hmem, rfl⟩ := List.mem_map.mp hnk
  exact hf _ (hks nk' hmem)

end Nodes

/-! ## The whole search -/

section Search

variable {d request : Region} {o : ℕ} {ks : List (ℕ × Kept)} {s : Region × List MokListNode}
  {r : SignatureList} {rs : List SignatureList}

/-- The lists are of kinds that MokManager knows, and none is empty. -/
def KeyLists (ls : List SignatureList) : Prop := ∀ l ∈ ls, l.IsKeyList ∧ l.sigs ≠ []

instance (ls : List SignatureList) : Decidable (KeyLists ls) :=
  inferInstanceAs (Decidable (∀ l ∈ ls, _))

/-- A key list that is none of certificates is one of hashes of that size. -/
theorem SignatureList.IsKeyList.isSha2Hash {l : SignatureList} (h : l.IsKeyList)
    (hx : l.type ≠ certTypeX509Guid) :
    Shim.isSha2Hash l.type = true ∧ l.size = shaSize l.type + 16 := by
  rcases h with h | h
  · exact absurd h hx
  · exact h

/-- The first certificate is the data of the first signature. -/
theorem SignatureList.firstCert_eq {l : SignatureList} (h : l.sigs ≠ []) :
    l.firstCert = (l.sigs.head h).data := by
  rw [SignatureList.firstCert, List.head?_eq_some_head h]
  rfl

/-- The node of a list that was laid out holds the first certificate, or the hashes. -/
theorem nodeHolds_node {l : SignatureList} (hne : l.sigs ≠ []) (h : d.HoldsAt o l.encode) :
    NodeHolds d o (o + l.listSize) l.kept.type l.kept.content (l.node o) := by
  have hsigs := (l.holdsAt_encode.mp h).2
  have hlong := SignatureList.size_lt_listSize hne
  have hpos := l.size_gt
  by_cases hx : l.type = certTypeX509Guid
  -- of a certificate's list the node has the first signature only
  · have hhead := holdsAt_flatMap_encode (fun s hs => l.length_encode_of_mem hs) hsigs
      (List.length_pos_iff.mpr hne)
    obtain ⟨howner, hdata⟩ := l.uniform _ (List.head_mem hne)
    rw [← List.head_eq_getElem hne, Nat.zero_mul, Nat.add_zero, SignatureData.encode,
      Region.holdsAt_append, howner] at hhead
    rw [SignatureList.kept, SignatureList.node, if_pos hx, if_pos hx,
      SignatureList.firstCert_eq hne]
    refine ⟨hx, ?_, fun hnil => ?_, fun _ => ⟨_, rfl, by omega, ?_, hhead.2⟩⟩
    · simp only [Kept.content]
      omega
    · simp only [Kept.content] at hnil
      rw [hnil, List.length_nil] at hdata
      omega
    · simp only [Kept.content]
      omega
  · have hlen := length_flatMap_encode fun s hs => l.length_encode_of_mem hs
    have hnum : 0 < l.sigs.length := List.length_pos_iff.mpr hne
    have hmul : 0 < l.sigs.length * l.size := Nat.mul_pos hnum (by omega)
    rw [SignatureList.kept, SignatureList.node, if_neg hx, if_neg hx]
    refine ⟨rfl, hlen.symm, fun hnil => ?_, fun _ => ⟨_, rfl, by omega, ?_, hsigs⟩⟩
    · simp only [Kept.content] at hnil
      rw [hnil, List.length_nil] at hlen
      omega
    · simp only [Kept.content, hlen, SignatureList.listSize]
      omega

/-- At the start, every node holds what its list does. -/
theorem holdsAll_nodesFrom {ls : List SignatureList} (hls : ∀ l ∈ ls, l.sigs ≠ [])
    (h : d.HoldsAt o (encodeDb ls)) :
    HoldsAll d o (ls.map fun l => (l.listSize, l.kept)) (nodesFrom o ls) := by
  induction ls generalizing o with
  | nil => trivial
  | cons l ls ih =>
    rw [encodeDb_cons, Region.holdsAt_append, l.length_encode] at h
    exact ⟨nodeHolds_node (hls l List.mem_cons_self) h.1,
      ih (fun l' hl' => hls l' (List.mem_cons_of_mem _ hl')) h.2⟩

/-- A key list is kept as a valid one. -/
theorem SignatureList.IsKeyList.valid_kept {l : SignatureList} (h : l.IsKeyList) :
    l.kept.Valid := by
  have hlt := l.size_lt
  by_cases hx : l.type = certTypeX509Guid
  · rw [SignatureList.kept, if_pos hx]
    change l.firstCert.length + 16 < 2 ^ 32
    rcases eq_or_ne l.sigs [] with hnil | hne
    · rw [SignatureList.firstCert, hnil]
      decide
    · have := (l.uniform _ (List.head_mem hne)).2
      rw [SignatureList.firstCert_eq hne]
      omega
  · obtain ⟨hsha, hsize⟩ := h.isSha2Hash hx
    rw [SignatureList.kept, if_neg hx]
    refine ⟨hsha, fun s hs => ?_⟩
    obtain ⟨howner, hdata⟩ := l.uniform s hs
    exact ⟨howner, by omega⟩

/-- Two changes are one change. -/
theorem map_map_kept (f g : Kept → Kept) :
    (ks.map (Prod.map id f)).map (Prod.map id g) = ks.map (Prod.map id fun k => g (f k)) := by
  rw [List.map_map]
  rfl

/-- The hashes of one list of the request, one after the other. -/
theorem HoldsAll.deleteHashes {type : List UInt8} (htype : isSha2Hash type = true)
    {hashes : List (List UInt8)} (hhashes : ∀ h ∈ hashes, h.length = shaSize type)
    (hks : ∀ nk ∈ ks, nk.2.Valid) (h : HoldsAll s.1 0 ks s.2) :
    let s' := hashes.foldl (fun s hash => deleteHashInList type hash s.1 s.2) s
    HoldsAll s'.1 0
      (ks.map (Prod.map id fun k => hashes.foldl (fun k hash => k.deleteHash type hash) k)) s'.2 := by
  induction hashes generalizing s ks with
  | nil =>
    have hid : ks.map (Prod.map id fun k => k) = ks := List.map_id ks
    exact hid.symm ▸ h
  | cons hash hashes ih =>
    have hstep := (h.deleteHash hks htype (hhashes hash List.mem_cons_self)).1
    have := ih (fun h' hh' => hhashes h' (List.mem_cons_of_mem _ hh'))
      (valid_map hks fun k hk => hk.deleteHash type hash) hstep
    rw [map_map_kept] at this
    exact this

/-- One list of the request, by whichever of the two searches. -/
theorem deleteKey_spec (hkey : r.IsKeyList) (hne : r.sigs ≠ [])
    (hr : request.HoldsAt o r.encode) (hks : ∀ nk ∈ ks, nk.2.Valid) (h : HoldsAll s.1 0 ks s.2) :
    let s' := deleteKey request s (r.node o)
    HoldsAll s'.1 0 (ks.map (Prod.map id (Kept.delete · r))) s'.2 := by
  -- a certificate is compared as a whole, a list of hashes signature by signature
  have hnode := nodeHolds_node hne hr
  by_cases hx : r.type = certTypeX509Guid
  · have htype : (r.node o).type = certTypeX509Guid := by rw [SignatureList.node, if_pos hx, hx]
    have hbytes : (r.node o).bytes request = r.firstCert := by
      rw [hnode.bytes, SignatureList.kept, if_pos hx]
      rfl
    simp only [deleteKey, if_pos htype, hbytes, Kept.delete, if_pos hx]
    exact h.deleteCert hks r.firstCert
  · obtain ⟨hsha, hsize⟩ := hkey.isSha2Hash hx
    have htype : (r.node o).type = r.type := by rw [SignatureList.node, if_neg hx]
    have hmok : (r.node o).mok.getD 0 = o + 28 := by rw [SignatureList.node, if_neg hx]; rfl
    have hmokSize : (r.node o).mokSize = r.sigs.length * r.size := by
      rw [SignatureList.node, if_neg hx]
    have hnum : 0 < r.sigs.length := List.length_pos_iff.mpr hne
    have hle : r.size ≤ r.sigs.length * r.size := Nat.le_mul_of_pos_left _ hnum
    -- the code steps through the request by the size of a signature
    have hdata : (List.range r.sigs.length).map (fun i =>
        request.bytes (o + 28 + 16 + i * r.size) (shaSize r.type)) = r.sigs.map (·.data) := by
      have hsigs := (r.holdsAt_encode.mp hr).2
      refine List.ext_getElem (by simp) fun i hi _ => ?_
      have hi' : i < r.sigs.length := by simpa using hi
      have hsig := holdsAt_flatMap_encode (fun s hs => r.length_encode_of_mem hs) hsigs hi'
      obtain ⟨howner, hlen⟩ := r.uniform _ (List.getElem_mem hi')
      rw [SignatureData.encode, Region.holdsAt_append, howner] at hsig
      simp only [List.getElem_map, List.getElem_range]
      rw [Nat.add_right_comm]
      exact hsig.2.bytes (by omega)
    -- and deletes one hash after the other
    have hloop : deleteKey request s (r.node o) = (r.sigs.map (·.data)).foldl
        (fun s hash => deleteHashInList r.type hash s.1 s.2) s := by
      rw [deleteKey, htype, if_neg hx, if_pos hsha, deleteHashList]
      simp only [htype, hmokSize, ← hsize, if_neg (Nat.not_lt.mpr hle), hmok,
        Nat.mul_div_cancel _ (by omega : 0 < r.size)]
      rw [← hdata, List.foldl_map]
    have hdelete : (fun k => Kept.delete k r) = fun k =>
        (r.sigs.map (·.data)).foldl (fun k hash => k.deleteHash r.type hash) k := by
      funext k
      rw [Kept.delete, if_neg hx, List.foldl_map]
    have hlengths : ∀ hash ∈ r.sigs.map (·.data), hash.length = shaSize r.type := by
      intro hash hmem
      obtain ⟨sig, hsig, rfl⟩ := List.mem_map.mp hmem
      have := (r.uniform sig hsig).2
      omega
    rw [hloop, hdelete]
    exact h.deleteHashes hsha hlengths hks

/-- Deleting a list keeps what is kept valid. -/
theorem Kept.Valid.delete {k : Kept} (hk : k.Valid) (r : SignatureList) : (k.delete r).Valid := by
  rw [Kept.delete]
  split_ifs
  · exact hk.deleteCert r.firstCert
  · -- the invariant of the loop over the hashes
    have hloop : ∀ (sigs : List SignatureData) (k : Kept), k.Valid →
        (sigs.foldl (fun k s => k.deleteHash r.type s.data) k).Valid := by
      intro sigs
      induction sigs with
      | nil => exact fun k hk => hk
      | cons s sigs ih => exact fun k hk => ih _ (hk.deleteHash r.type s.data)
    exact hloop r.sigs k hk

/-- So does deleting all lists of a request. -/
theorem Kept.Valid.deleteAll {k : Kept} (hk : k.Valid) (rs : List SignatureList) :
    (k.deleteAll rs).Valid := by
  induction rs generalizing k with
  | nil => exact hk
  | cons r rs ih => exact ih (hk.delete r)

/-- The search loop of `delete_keys` leaves what the request leaves of every list. -/
theorem HoldsAll.searchAndDestroy (hrs : KeyLists rs) (hr : request.HoldsAt o (encodeDb rs))
    (hks : ∀ nk ∈ ks, nk.2.Valid) (h : HoldsAll s.1 0 ks s.2) :
    let s' := Shim.searchAndDestroy request (nodesFrom o rs) s
    HoldsAll s'.1 0 (ks.map (Prod.map id (Kept.deleteAll rs))) s'.2 := by
  induction rs generalizing o ks s with
  | nil =>
    have hid : ks.map (Prod.map id (Kept.deleteAll [])) = ks := List.map_id ks
    exact hid.symm ▸ h
  | cons r rs ih =>
    rw [encodeDb_cons, Region.holdsAt_append, r.length_encode] at hr
    obtain ⟨hkey, hne⟩ := hrs r List.mem_cons_self
    have hstep := deleteKey_spec hkey hne hr.1 hks h
    have := ih (fun r' hr' => hrs r' (List.mem_cons_of_mem _ hr')) hr.2
      (valid_map hks fun k hk => hk.delete r) hstep
    rw [map_map_kept] at this
    exact this

end Search

/-! ## Writing back -/

/-- The sizes of the hashes that are known. -/
theorem isSha2Hash_sizes {type : List UInt8} (h : isSha2Hash type = true) :
    type.length = 16 ∧ 0 < shaSize type ∧ shaSize type ≤ 64 := by
  simp only [isSha2Hash, decide_eq_true_eq] at h
  rcases h with rfl | rfl | rfl | rfl <;> decide

/-- The list that a certificate is written back as. -/
def certList (data : List UInt8) (hne : data ≠ []) (hlt : data.length + 16 < 2 ^ 32) :
    SignatureList where
  type := certTypeX509Guid
  size := data.length + 16
  sigs := [⟨shimLockGuid, data⟩]
  type_length := length_certTypeX509Guid
  size_gt := by
    have := List.length_pos_iff.mpr hne
    omega
  size_lt := hlt
  uniform := by
    intro s hs
    obtain rfl := List.mem_singleton.mp hs
    exact ⟨rfl, Nat.add_comm _ _⟩

/-- The list that hashes are written back as. -/
def hashList (type : List UInt8) (sigs : List SignatureData) (h : (Kept.hashes type sigs).Valid) :
    SignatureList where
  type := type
  size := shaSize type + 16
  sigs := sigs
  type_length := (isSha2Hash_sizes h.1).1
  size_gt := by
    have := (isSha2Hash_sizes h.1).2.1
    omega
  size_lt := by
    have := (isSha2Hash_sizes h.1).2.2
    omega
  uniform := by
    intro s hs
    obtain ⟨howner, hdata⟩ := h.2 s hs
    exact ⟨howner, by omega⟩

/-- A hash list without content has no signatures. -/
theorem Kept.content_hashes_eq_nil {type : List UInt8} {sigs : List SignatureData}
    (hk : (Kept.hashes type sigs).Valid) (h : (Kept.hashes type sigs).content = []) : sigs = [] := by
  cases sigs with
  | nil => rfl
  | cons s sigs =>
    have howner := (hk.2 s List.mem_cons_self).1
    have := congrArg List.length h
    simp only [Kept.content, List.flatMap_cons, SignatureData.encode, List.length_append,
      List.length_nil] at this
    omega

/-- What is written back for a node, in terms of what it holds. -/
theorem NodeHolds.encode_eq {d : Region} {lo hi : ℕ} {type content : List UInt8}
    {node : MokListNode} (h : NodeHolds d lo hi type content node) :
    node.encode d =
      if content = [] then []
      else if type = certTypeX509Guid then
        type ++ Region.le32 (content.length + 28 + 16) ++ Region.le32 0 ++
          Region.le32 (content.length + 16) ++ shimLockGuid ++ content
      else
        type ++ Region.le32 (content.length + 28) ++ Region.le32 0 ++
          Region.le32 (shaSize type + 16) ++ content := by
  by_cases hnil : content = []
  · rw [MokListNode.encode, if_pos (h.null hnil), if_pos hnil]
  · obtain ⟨o, hmok, -⟩ := h.some hnil
    rw [MokListNode.encode, if_neg (by simp [hmok]), h.type_eq, h.size_eq, h.bytes, if_neg hnil]

/-- What is written back for a node is one list, or nothing. -/
theorem decodes_encode {d : Region} {lo hi : ℕ} {k : Kept} {node : MokListNode} (hk : k.Valid)
    (h : NodeHolds d lo hi k.type k.content node) : Decodes (node.encode d) k.entries := by
  rcases eq_or_ne k.content [] with hnil | hne
  · have hentries : k.entries = [] := by
      cases k with
      | cert data => exact if_pos hnil
      | hashes t sigs =>
        rw [Kept.content_hashes_eq_nil hk hnil]
        rfl
    -- an empty node is left out of the new list
    rw [h.encode_eq, if_pos hnil, hentries]
    exact Decodes.nil
  · rw [h.encode_eq, if_neg hne]
    cases k with
    | cert data =>
      have hdata : data ≠ [] := hne
      have hlt : data.length + 16 < 2 ^ 32 := hk
      have hx : (Kept.cert data).type = certTypeX509Guid := rfl
      refine ⟨[certList data hdata hlt], ?_, ?_⟩
      · rw [if_pos hx]
        simp [Kept.type, Kept.content, certList, SignatureList.encode, SignatureList.header,
          SignatureList.listSize, SignatureData.encode, Nat.add_comm, Nat.add_left_comm]
      · simp [certList, SignatureList.entries, Kept.entries, hdata]
    | hashes t sigs =>
      have hlen : (sigs.flatMap SignatureData.encode).length = sigs.length * (shaSize t + 16) :=
        length_flatMap_encode fun s hs => (hashList t sigs hk).length_encode_of_mem hs
      have hx : (Kept.hashes t sigs).type ≠ certTypeX509Guid := ne_x509_of_isSha2Hash hk.1
      refine ⟨[hashList t sigs hk], ?_, ?_⟩
      · rw [if_neg hx]
        simp [Kept.type, Kept.content, hashList, SignatureList.encode, SignatureList.header,
          SignatureList.listSize, hlen, Nat.add_comm]
      · simp [hashList, SignatureList.entries, Kept.entries]

/-- The database that is written back. -/
theorem decodes_encodeNodes {d : Region} {o : ℕ} {ks : List (ℕ × Kept)} {mok : List MokListNode}
    (hks : ∀ nk ∈ ks, nk.2.Valid) (h : HoldsAll d o ks mok) :
    Decodes (encodeNodes (d, mok)) (ks.flatMap fun nk => nk.2.entries) := by
  induction ks generalizing o mok with
  | nil =>
    cases mok with
    | nil => exact Decodes.nil
    | cons node mok => exact h.elim
  | cons nk ks ih =>
    cases mok with
    | nil => exact h.elim
    | cons node mok =>
      exact (decodes_encode (hks nk List.mem_cons_self) h.1).append
        (ih (fun nk' hnk' => hks nk' (List.mem_cons_of_mem _ hnk')) h.2)

end Shim
