import Shim.MokManager.Commit
import Shim.MokManager.Survivors
import Mathlib.Data.List.Nodup

/-! # Exact deletion

`delete_keys` should remove the requested entries of a database and no others. It does so for lists
of one certificate, for requests that name one certificate a list, and for hash lists in which every
requested hash stands at the head, but for one. Where a hash stands twice further back, `match_hash`
answers the index of the wrong one; the certificates behind the first of a list are not looked at,
and not written back. A list without a signature has the whole database erased, or the whole request
refused.
-/

namespace Shim

open Sweep

/-- A database entry as a deletion request names it. -/
def Signature.key (s : Signature) : List UInt8 × List UInt8 := (s.type, s.data)

/-- The entries that a request names. -/
def requestKeys (rs : List SignatureList) : List (List UInt8 × List UInt8) :=
  (entriesDb rs).map Signature.key

/-- What is to remain of a list of entries. -/
def remaining (rs : List SignatureList) (sigs : List Signature) : List (List UInt8 × List UInt8) :=
  (sigs.map Signature.key).filter fun k => k ∉ requestKeys rs

/-- The bytes are the database with the requested entries removed. -/
def DeletionExact (ls rs : List SignatureList) (content : List UInt8) : Prop :=
  ∃ sigs, Decodes content sigs ∧ sigs.map Signature.key = remaining rs (entriesDb ls)

/-- The certificates that the search looks for. -/
def firstCerts (rs : List SignatureList) : List (List UInt8) :=
  (rs.filter fun r => r.type = certTypeX509Guid).map SignatureList.firstCert

/-- The hashes of one type that the search looks for. -/
def hashesOf (type : List UInt8) (rs : List SignatureList) : List (List UInt8) :=
  (rs.filter fun r => r.type = type).flatMap fun r => r.sigs.map (·.data)

/-- A list on which the search does right: of an X.509 list the certificates behind the first are
all requested, and the first is searched for if it is; of a hash list the sweeps for the requested
hashes are exact. -/
def ListDeletable (rs : List SignatureList) (l : SignatureList) : Prop :=
  if l.type = certTypeX509Guid then
    (∀ s ∈ l.sigs.tail, (certTypeX509Guid, s.data) ∈ requestKeys rs) ∧
      ((certTypeX509Guid, l.firstCert) ∈ requestKeys rs → l.firstCert ∈ firstCerts rs)
  else ExactAll (·.data) (hashesOf l.type rs) l.sigs

/-- A database with a list without a signature is erased, and a request that has one, or no list at
all, is not carried out; any other is carried out list by list. -/
def Deletable (ls rs : List SignatureList) : Prop :=
  if ∃ l ∈ ls, l.sigs = [] then ∀ s ∈ entriesDb ls, s.key ∈ requestKeys rs
  else if rs = [] ∨ ∃ r ∈ rs, r.sigs = [] then ∀ s ∈ entriesDb ls, s.key ∉ requestKeys rs
  else ∀ l ∈ ls, ListDeletable rs l

instance (rs : List SignatureList) (l : SignatureList) : Decidable (ListDeletable rs l) :=
  decidable_of_iff (if l.type = certTypeX509Guid then _ else _) Iff.rfl

instance (ls rs : List SignatureList) : Decidable (Deletable ls rs) :=
  decidable_of_iff (if ∃ l ∈ ls, l.sigs = [] then _ else _) Iff.rfl

/-! ## What the search leaves of one list -/

section List

variable {rs : List SignatureList} {l : SignatureList}

/-- A key is requested if a list of its type has its data. -/
theorem mem_requestKeys_iff {type data : List UInt8} :
    (type, data) ∈ requestKeys rs ↔ data ∈ hashesOf type rs := by
  simp only [requestKeys, entriesDb, hashesOf, SignatureList.entries, Signature.key, List.mem_map,
    List.mem_flatMap, List.mem_filter, decide_eq_true_eq]
  constructor
  · rintro ⟨sig, ⟨r, hr, s, hs, rfl⟩, heq⟩
    obtain ⟨rfl, rfl⟩ := Prod.mk.inj heq
    exact ⟨r, ⟨hr, rfl⟩, s, hs, rfl⟩
  · rintro ⟨r, ⟨hr, rfl⟩, s, hs, rfl⟩
    exact ⟨_, ⟨r, hr, s, hs, rfl⟩, rfl⟩

/-- The certificate of a first list. -/
theorem firstCerts_cons (r : SignatureList) : firstCerts (r :: rs) =
    if r.type = certTypeX509Guid then r.firstCert :: firstCerts rs else firstCerts rs := by
  unfold firstCerts
  split_ifs with hx <;> simp [hx]

/-- The hashes of a first list. -/
theorem hashesOf_cons (type : List UInt8) (r : SignatureList) : hashesOf type (r :: rs) =
    if r.type = type then r.sigs.map (·.data) ++ hashesOf type rs else hashesOf type rs := by
  unfold hashesOf
  split_ifs with ht <;> simp [ht]

/-- Hashes that are deleted leave a certificate. -/
theorem foldl_deleteHash_cert (data type : List UInt8) (sigs : List SignatureData) :
    sigs.foldl (fun k s => k.deleteHash type s.data) (Kept.cert data) = .cert data := by
  induction sigs with
  | nil => rfl
  | cons s sigs ih => exact ih

/-- They are swept for in lists of their type only. -/
theorem foldl_deleteHash_hashes (type type' : List UInt8) (rsigs sigs : List SignatureData) :
    rsigs.foldl (fun k s => k.deleteHash type' s.data) (Kept.hashes type sigs) =
      .hashes type (if type = type' then sweepAll (·.data) (rsigs.map (·.data)) sigs else sigs) := by
  induction rsigs generalizing sigs with
  | nil => simp [sweepAll]
  | cons s rsigs ih =>
    rw [List.foldl_cons, Kept.deleteHash, ih]
    split_ifs <;> rfl

/-- A certificate goes if it is searched for. -/
theorem deleteAll_cert (data : List UInt8) :
    (Kept.cert data).deleteAll rs = .cert (if data ∈ firstCerts rs then [] else data) := by
  induction rs generalizing data with
  | nil => rfl
  | cons r rs ih =>
    change ((Kept.cert data).delete r).deleteAll rs = _
    rw [Kept.delete, firstCerts_cons]
    split_ifs with hx hmem hmem
    · rw [Kept.deleteCert, ih]
      rcases List.mem_cons.mp hmem with rfl | hmem
      · rw [if_pos rfl, ite_self]
      · split_ifs <;> simp_all
    · rw [Kept.deleteCert, if_neg (List.ne_of_not_mem_cons hmem), ih,
        if_neg (List.not_mem_of_not_mem_cons hmem)]
    · rw [foldl_deleteHash_cert, ih, if_pos hmem]
    · rw [foldl_deleteHash_cert, ih, if_neg hmem]

/-- A hash list is swept for the hashes of its type. -/
theorem deleteAll_hashes {type : List UInt8} (hx : type ≠ certTypeX509Guid)
    (sigs : List SignatureData) : (Kept.hashes type sigs).deleteAll rs =
      .hashes type (sweepAll (·.data) (hashesOf type rs) sigs) := by
  induction rs generalizing sigs with
  | nil => rfl
  | cons r rs ih =>
    change ((Kept.hashes type sigs).delete r).deleteAll rs = _
    rw [Kept.delete, hashesOf_cons]
    by_cases hr : r.type = certTypeX509Guid
    · rw [if_pos hr, if_neg fun h => hx (h.symm.trans hr), Kept.deleteCert, ih]
    · rw [if_neg hr, foldl_deleteHash_hashes, ih]
      by_cases ht : type = r.type
      · rw [if_pos ht, if_pos ht.symm, sweepAll_append]
      · rw [if_neg ht, if_neg (Ne.symm ht)]

/-- The entries that the node of a list keeps. -/
def keptKeys (rs : List SignatureList) (l : SignatureList) : List (List UInt8 × List UInt8) :=
  (l.kept.deleteAll rs).entries.map Signature.key

/-- Of a certificate list the first certificate is kept, unless it is deleted. -/
theorem keptKeys_cert (hx : l.type = certTypeX509Guid) (hne : l.sigs ≠ []) :
    keptKeys rs l =
      if l.firstCert ∈ firstCerts rs then [] else [(certTypeX509Guid, l.firstCert)] := by
  have hcert : l.firstCert ≠ [] := by
    have hpos := l.size_gt
    have hlen := (l.uniform _ (List.head_mem hne)).2
    rw [SignatureList.firstCert_eq hne]
    rintro hnil
    rw [hnil, List.length_nil] at hlen
    omega
  rw [keptKeys, SignatureList.kept, if_pos hx, deleteAll_cert]
  split_ifs
  · rfl
  · rw [Kept.entries, if_neg hcert]
    rfl

/-- Of a hash list is kept what the sweeps leave. -/
theorem keptKeys_hashes (hx : l.type ≠ certTypeX509Guid) : keptKeys rs l =
    (sweepAll (·.data) (hashesOf l.type rs) l.sigs).map fun s => (l.type, s.data) := by
  rw [keptKeys, SignatureList.kept, if_neg hx, deleteAll_hashes hx, Kept.entries, List.map_map]
  rfl

/-- What is to remain of a list, by its keys. -/
theorem remaining_entries : remaining rs l.entries =
    (l.sigs.map fun s => (l.type, s.data)).filter fun k => k ∉ requestKeys rs := by
  rw [remaining, SignatureList.entries, List.map_map]
  rfl

/-- A list that is not empty starts with its first certificate. -/
theorem sigs_eq_cons (hne : l.sigs ≠ []) : ∃ owner, l.sigs = ⟨owner, l.firstCert⟩ :: l.sigs.tail := by
  refine ⟨(l.sigs.head hne).owner, ?_⟩
  rw [SignatureList.firstCert_eq hne]
  exact (List.cons_head_tail hne).symm

/-- What is searched for is requested. -/
theorem mem_requestKeys_of_firstCerts {data : List UInt8} (hrs : ∀ r ∈ rs, r.sigs ≠ [])
    (h : data ∈ firstCerts rs) : (certTypeX509Guid, data) ∈ requestKeys rs := by
  obtain ⟨r, hr, rfl⟩ := List.mem_map.mp h
  obtain ⟨hmem, htype⟩ := List.mem_filter.mp hr
  obtain ⟨owner, hsigs⟩ := sigs_eq_cons (hrs r hmem)
  rw [mem_requestKeys_iff, hashesOf, List.mem_flatMap]
  refine ⟨r, hr, ?_⟩
  rw [hsigs]
  exact List.mem_cons_self

/-- What is to remain of a hash list. -/
theorem remaining_hashes : remaining rs l.entries =
    (l.sigs.filter fun s => s.data ∉ hashesOf l.type rs).map fun s => (l.type, s.data) := by
  rw [remaining_entries, List.filter_map]
  congr 1
  refine List.filter_congr fun s _ => ?_
  simp [mem_requestKeys_iff]

/-- What is to remain of an X.509 list. -/
theorem remaining_certs (hx : l.type = certTypeX509Guid) (hne : l.sigs ≠ []) :
    remaining rs l.entries =
      (if (certTypeX509Guid, l.firstCert) ∈ requestKeys rs then []
        else [(certTypeX509Guid, l.firstCert)]) ++
      (l.sigs.tail.map fun s => (certTypeX509Guid, s.data)).filter fun k => k ∉ requestKeys rs := by
  obtain ⟨owner, hsigs⟩ := sigs_eq_cons hne
  rw [remaining_entries, hx, hsigs, List.map_cons, List.filter_cons]
  by_cases hreq : (certTypeX509Guid, l.firstCert) ∈ requestKeys rs <;> simp [hreq]

/-- A certificate stays that is not requested, or not searched for; nothing else is written back. -/
theorem keptKeys_cert_eq_iff (hx : l.type = certTypeX509Guid) (hne : l.sigs ≠ [])
    (hrs : ∀ r ∈ rs, r.sigs ≠ []) : keptKeys rs l = remaining rs l.entries ↔
      (∀ s ∈ l.sigs.tail, (certTypeX509Guid, s.data) ∈ requestKeys rs) ∧
        ((certTypeX509Guid, l.firstCert) ∈ requestKeys rs → l.firstCert ∈ firstCerts rs) := by
  have hrest : (l.sigs.tail.map fun s => (certTypeX509Guid, s.data)).filter
      (fun k => k ∉ requestKeys rs) = [] ↔
        ∀ s ∈ l.sigs.tail, (certTypeX509Guid, s.data) ∈ requestKeys rs := by
    rw [List.filter_eq_nil_iff, List.forall_mem_map]
    simp
  have hsearched : l.firstCert ∈ firstCerts rs →
      (certTypeX509Guid, l.firstCert) ∈ requestKeys rs := mem_requestKeys_of_firstCerts hrs
  rw [keptKeys_cert hx hne, remaining_certs hx hne, ← hrest]
  by_cases hreq : (certTypeX509Guid, l.firstCert) ∈ requestKeys rs
  · by_cases hmem : l.firstCert ∈ firstCerts rs
    · simp [hreq, hmem]
    · -- the certificate is left, and the entries behind it are not what it is
      simp only [hreq, hmem, if_true, if_false, List.nil_append, forall_const, and_false, iff_false]
      intro h
      have hself : (certTypeX509Guid, l.firstCert) ∈
          (l.sigs.tail.map fun s => (certTypeX509Guid, s.data)).filter
            fun k => k ∉ requestKeys rs := h ▸ List.mem_singleton_self _
      simpa [hreq] using (List.mem_filter.mp hself).2
  · have hmem : l.firstCert ∉ firstCerts rs := fun hmem => hreq (hsearched hmem)
    simp [hreq, hmem]

/-- A hash list is right exactly if the sweeps are. -/
theorem keptKeys_hashes_eq_iff (hx : l.type ≠ certTypeX509Guid) :
    keptKeys rs l = remaining rs l.entries ↔ ExactAll (·.data) (hashesOf l.type rs) l.sigs := by
  rw [keptKeys_hashes hx, remaining_hashes]
  refine Iff.trans ?_ sweepAll_eq_filter_iff
  constructor
  · intro h
    -- only the keys agree: but what is left has no requested hash, so it is all of the rest
    have hleft : ∀ s ∈ sweepAll (·.data) (hashesOf l.type rs) l.sigs,
        s.data ∉ hashesOf l.type rs := by
      intro s hs
      have hmem := List.mem_map_of_mem (f := fun s : SignatureData => (l.type, s.data)) hs
      rw [h] at hmem
      obtain ⟨s', hs', heq⟩ := List.mem_map.mp hmem
      rw [← (Prod.mk.inj heq).2]
      simpa using (List.mem_filter.mp hs').2
    have hself : (sweepAll (·.data) (hashesOf l.type rs) l.sigs).filter
        (fun s => s.data ∉ hashesOf l.type rs) = sweepAll (·.data) (hashesOf l.type rs) l.sigs := by
      rw [List.filter_eq_self]
      exact fun s hs => by simpa using hleft s hs
    have hsublist : (sweepAll (·.data) (hashesOf l.type rs) l.sigs).Sublist l.sigs :=
      sweepAll_sublist
    have hsub := hsublist.filter fun s => s.data ∉ hashesOf l.type rs
    rw [hself] at hsub
    refine (hsub.eq_of_length ?_).trans (List.filter_congr fun s _ => by simp)
    simpa using congrArg List.length h
  · intro h
    rw [h]
    exact congrArg _ (List.filter_congr fun s _ => by simp)

/-- The result on a list is right exactly if the search does right on it. -/
theorem keptKeys_eq_remaining_iff (hne : l.sigs ≠ []) (hrs : ∀ r ∈ rs, r.sigs ≠ []) :
    keptKeys rs l = remaining rs l.entries ↔ ListDeletable rs l := by
  by_cases hx : l.type = certTypeX509Guid
  · rw [ListDeletable, if_pos hx]
    exact keptKeys_cert_eq_iff hx hne hrs
  · rw [ListDeletable, if_neg hx]
    exact keptKeys_hashes_eq_iff hx

/-- Nothing that is kept was not there. -/
theorem keptKeys_sublist (hne : l.sigs ≠ []) :
    (keptKeys rs l).Sublist (l.sigs.map fun s => (l.type, s.data)) := by
  by_cases hx : l.type = certTypeX509Guid
  · obtain ⟨owner, hsigs⟩ := sigs_eq_cons hne
    rw [keptKeys_cert hx hne, hx, hsigs, List.map_cons]
    split_ifs
    · exact List.nil_sublist _
    · exact (List.nil_sublist _).cons_cons _
  · rw [keptKeys_hashes hx]
    exact sweepAll_sublist.map _

end List

/-! ## What the search leaves of a database -/

section Database

variable {ls rs : List SignatureList}

/-- What is to remain, list by list. -/
theorem remaining_entriesDb :
    remaining rs (entriesDb ls) = ls.flatMap fun l => remaining rs l.entries := by
  simp only [remaining, entriesDb, List.map_flatMap, List.filter_flatMap]

/-- Two concatenations agree only part by part, when the parts of one are parts of the other. -/
theorem eq_of_flatMap_eq {α β : Type*} {f g : α → List β} {l : List α}
    (hsub : ∀ a ∈ l, (f a).Sublist (g a)) (h : l.flatMap f = l.flatMap g) :
    ∀ a ∈ l, f a = g a := by
  induction l with
  | nil => simp
  | cons b l ih =>
    have hrest : (l.flatMap f).Sublist (l.flatMap g) := by
      clear ih h
      induction l with
      | nil => exact List.Sublist.refl _
      | cons c l ih =>
        rw [List.flatMap_cons, List.flatMap_cons]
        exact (hsub c (by simp)).append (ih fun a ha => hsub a (by
          rcases List.mem_cons.mp ha with rfl | ha
          · exact List.mem_cons_self
          · exact List.mem_cons_of_mem _ (List.mem_cons_of_mem _ ha)))
    rw [List.flatMap_cons, List.flatMap_cons] at h
    have hb := hsub b List.mem_cons_self
    have hlen := congrArg List.length h
    rw [List.length_append, List.length_append] at hlen
    have h1 := hb.length_le
    have h2 := hrest.length_le
    obtain ⟨hfb, hfl⟩ := List.append_inj h (by omega)
    intro a ha
    rcases List.mem_cons.mp ha with rfl | ha
    · exact hfb
    · exact ih (fun a' ha' => hsub a' (List.mem_cons_of_mem _ ha')) hfl a ha

/-- The result is right exactly if the search does right on every list. -/
theorem flatMap_keptKeys_eq_iff (hls : ∀ l ∈ ls, l.sigs ≠ []) (hrs : ∀ r ∈ rs, r.sigs ≠ []) :
    ls.flatMap (keptKeys rs) = remaining rs (entriesDb ls) ↔ ∀ l ∈ ls, ListDeletable rs l := by
  rw [remaining_entriesDb]
  constructor
  · intro h
    have hkept : ∀ l ∈ ls, ∀ k ∈ keptKeys rs l, k ∉ requestKeys rs := by
      intro l hl k hk
      have hmem : k ∈ ls.flatMap fun l => remaining rs l.entries := by
        rw [← h]
        exact List.mem_flatMap.mpr ⟨l, hl, hk⟩
      obtain ⟨l', -, hk'⟩ := List.mem_flatMap.mp hmem
      simpa using (List.mem_filter.mp hk').2
    -- what is kept of a list is part of what is to remain of it, so the parts agree one by one
    have hsub : ∀ l ∈ ls, (keptKeys rs l).Sublist (remaining rs l.entries) := by
      intro l hl
      have hself : (keptKeys rs l).filter (fun k => k ∉ requestKeys rs) = keptKeys rs l := by
        rw [List.filter_eq_self]
        exact fun k hk => by simpa using hkept l hl k hk
      rw [remaining_entries, ← hself]
      exact (keptKeys_sublist (hls l hl)).filter _
    exact fun l hl => (keptKeys_eq_remaining_iff (hls l hl) hrs).mp (eq_of_flatMap_eq hsub h l hl)
  · intro h
    simp only [List.flatMap_def]
    congr 1
    exact List.map_congr_left fun l hl => (keptKeys_eq_remaining_iff (hls l hl) hrs).mpr (h l hl)

/-- A list of which nothing is kept had a requested entry. -/
theorem exists_requested_of_keptKeys_eq_nil {l : SignatureList} (hne : l.sigs ≠ [])
    (hrs : ∀ r ∈ rs, r.sigs ≠ []) (h : keptKeys rs l = []) :
    ∃ s ∈ l.entries, s.key ∈ requestKeys rs := by
  by_cases hx : l.type = certTypeX509Guid
  · obtain ⟨owner, hsigs⟩ := sigs_eq_cons hne
    rw [keptKeys_cert hx hne] at h
    -- a certificate goes only if it was asked for
    have hmem : l.firstCert ∈ firstCerts rs := by
      by_contra hmem
      rw [if_neg hmem] at h
      cases h
    refine ⟨⟨l.type, owner, l.firstCert⟩, ?_, ?_⟩
    · rw [SignatureList.entries, hsigs]
      exact List.mem_cons_self
    · simpa [Signature.key, hx] using mem_requestKeys_of_firstCerts hrs hmem
  · -- sweeps for hashes that are not there leave the list as it is
    by_contra hno
    push Not at hno
    have hfilter : l.sigs.filter (fun s => s.data ∉ hashesOf l.type rs) = l.sigs := by
      rw [List.filter_eq_self]
      intro s hs
      have := hno ⟨l.type, s.owner, s.data⟩ (List.mem_map_of_mem hs)
      rw [Signature.key, mem_requestKeys_iff] at this
      simpa using this
    have hclean : sweepAll (·.data) (hashesOf l.type rs) l.sigs = l.sigs :=
      sweepAll_eq_self fun s hs => by
        rw [← hfilter] at hs
        simpa using (List.mem_filter.mp hs).2
    rw [keptKeys_hashes hx, hclean, List.map_eq_nil_iff] at h
    exact hne h

end Database

/-! ## Nothing grows -/

section Size

variable {rs : List SignatureList} {l : SignatureList} {d : Region} {lo hi o : ℕ} {k : Kept}
  {node : MokListNode} {ks : List (ℕ × Kept)} {mok : List MokListNode}

/-- How many bytes are written back for what a node holds. -/
def Kept.size : Kept → ℕ
  | .cert data => if data = [] then 0 else 44 + data.length
  | .hashes _ sigs => if sigs = [] then 0 else 28 + (sigs.flatMap SignatureData.encode).length

/-- A node is no larger than what it keeps. -/
theorem length_encode_le (hk : k.Valid) (h : NodeHolds d lo hi k.type k.content node) :
    (node.encode d).length ≤ k.size := by
  rcases eq_or_ne k.content [] with hnil | hne
  · rw [h.encode_eq, if_pos hnil, List.length_nil]
    exact Nat.zero_le _
  · rw [h.encode_eq, if_neg hne]
    cases k with
    | cert data =>
      have hdata : data ≠ [] := hne
      have hx : (Kept.cert data).type = certTypeX509Guid := rfl
      have hguids : certTypeX509Guid.length = 16 ∧ shimLockGuid.length = 16 := ⟨rfl, rfl⟩
      rw [if_pos hx, Kept.size, if_neg hdata]
      simp only [Kept.type, Kept.content, List.length_append, Region.length_le32, hguids.1,
        hguids.2]
      omega
    | hashes t sigs =>
      have hx : (Kept.hashes t sigs).type ≠ certTypeX509Guid := ne_x509_of_isSha2Hash hk.1
      have hsigs : sigs ≠ [] := by
        rintro rfl
        exact hne rfl
      have htype := (isSha2Hash_sizes hk.1).1
      rw [if_neg hx, Kept.size, if_neg hsigs]
      simp only [Kept.type, Kept.content, List.length_append, Region.length_le32, htype]
      omega

/-- Deleting makes no list larger. -/
theorem size_deleteAll_le (hne : l.sigs ≠ []) : (l.kept.deleteAll rs).size ≤ l.listSize := by
  by_cases hx : l.type = certTypeX509Guid
  · have hlong := SignatureList.size_lt_listSize hne
    have hlen := (l.uniform _ (List.head_mem hne)).2
    have hcert : (l.kept.deleteAll rs).size ≤ 44 + l.firstCert.length := by
      rw [SignatureList.kept, if_pos hx, deleteAll_cert]
      split_ifs with hmem
      · exact Nat.zero_le _
      · rw [Kept.size]
        split_ifs
        · exact Nat.zero_le _
        · exact le_rfl
    rw [SignatureList.firstCert_eq hne] at hcert
    omega
  · rw [SignatureList.kept, if_neg hx, deleteAll_hashes hx, Kept.size]
    split_ifs
    · exact Nat.zero_le _
    · rw [length_flatMap_encode fun s hs => l.length_encode_of_mem (sweepAll_sublist.subset hs)]
      exact Nat.add_le_add_left (Nat.mul_le_mul_right _ sweepAll_sublist.length_le) 28

/-- All nodes together are no larger than the lists. -/
theorem length_encodeNodes_le (hks : ∀ nk ∈ ks, nk.2.Valid ∧ nk.2.size ≤ nk.1)
    (h : HoldsAll d o ks mok) : (encodeNodes (d, mok)).length ≤ (ks.map Prod.fst).sum := by
  induction ks generalizing o mok with
  | nil =>
    cases mok with
    | nil => exact le_rfl
    | cons node mok => exact h.elim
  | cons nk ks ih =>
    cases mok with
    | nil => exact h.elim
    | cons node mok =>
      obtain ⟨hvalid, hsize⟩ := hks nk List.mem_cons_self
      have hnode := length_encode_le hvalid h.1
      have hrest := ih (fun nk' hnk' => hks nk' (List.mem_cons_of_mem _ hnk')) h.2
      have hcons : encodeNodes (d, node :: mok) = node.encode d ++ encodeNodes (d, mok) := rfl
      rw [hcons, List.length_append, List.map_cons, List.sum_cons]
      omega

end Size

/-! ## What is written back -/

section Search

variable {d mokDel : Region} {ls rs : List SignatureList}

/-- The nodes of a database, after the search, encode to the kept entries. -/
theorem decodes_searchAndDestroy (hd : HoldsKeys d ls) (hrequest : HoldsKeys mokDel rs)
    (hls : ∀ l ∈ ls, l.sigs ≠ []) (hrs : ∀ r ∈ rs, r.sigs ≠ []) :
    ∃ sigs, Decodes (encodeNodes (searchAndDestroy mokDel (nodesFrom 0 rs) (d, nodesFrom 0 ls)))
        sigs ∧ sigs.map Signature.key = ls.flatMap (keptKeys rs) ∧
      (encodeNodes (searchAndDestroy mokDel (nodesFrom 0 rs) (d, nodesFrom 0 ls))).length ≤
        (encodeDb ls).length := by
  have hvalid : ∀ nk ∈ ls.map fun l => (l.listSize, l.kept), nk.2.Valid := by
    intro nk hnk
    obtain ⟨l, hl, rfl⟩ := List.mem_map.mp hnk
    exact (hd.keys l hl).1.valid_kept
  -- the nodes hold the lists, and after the deletion what is left of them
  have hstart : HoldsAll d 0 (ls.map fun l => (l.listSize, l.kept)) (nodesFrom 0 ls) :=
    holdsAll_nodesFrom hls hd.holds
  have hend := hstart.searchAndDestroy (s := (d, nodesFrom 0 ls))
    (fun r hr => ⟨(hrequest.keys r hr).1, hrs r hr⟩) hrequest.holds hvalid
  have hvalid' := valid_map hvalid fun k hk => hk.deleteAll rs
  refine ⟨_, decodes_encodeNodes hvalid' hend, ?_, ?_⟩
  · simp only [List.flatMap_map, List.map_flatMap]
    rfl
  -- every node stays within the bytes of its list
  · have hsum : ((ls.map fun l => (l.listSize, l.kept)).map (Prod.map id (Kept.deleteAll rs))).map
        Prod.fst = ls.map SignatureList.listSize := by
      simp only [List.map_map]
      rfl
    have hdb : (ls.map SignatureList.listSize).sum = (encodeDb ls).length := by
      rw [encodeDb, List.length_flatMap]
      exact congrArg List.sum (List.map_congr_left fun l _ => l.length_encode.symm)
    have hle := length_encodeNodes_le (fun nk hnk => ⟨hvalid' nk hnk, ?_⟩) hend
    · rwa [hsum, hdb] at hle
    · obtain ⟨nk', hnk', rfl⟩ := List.mem_map.mp hnk
      obtain ⟨l, hl, rfl⟩ := List.mem_map.mp hnk'
      exact size_deleteAll_le (hls l hl)

/-- A database has one reading, so one list of entries decides whether the deletion is exact. -/
theorem deletionExact_iff_of_decodes {content : List UInt8} {sigs : List Signature}
    (hdec : Decodes content sigs) (hlt : content.length < 2 ^ 32) :
    DeletionExact ls rs content ↔ sigs.map Signature.key = remaining rs (entriesDb ls) := by
  constructor
  · rintro ⟨sigs', hdec', hkeys⟩
    rwa [hdec.eq_signatures hlt, ← hdec'.eq_signatures hlt]
  · exact fun h => ⟨sigs, hdec, h⟩

/-- Nothing is to remain if everything is requested. -/
theorem remaining_eq_nil_iff :
    remaining rs (entriesDb ls) = [] ↔ ∀ s ∈ entriesDb ls, s.key ∈ requestKeys rs := by
  simp [remaining, List.filter_eq_nil_iff]

/-- Everything is to remain if nothing of it is requested. -/
theorem remaining_eq_self_iff : (entriesDb ls).map Signature.key = remaining rs (entriesDb ls) ↔
    ∀ s ∈ entriesDb ls, s.key ∉ requestKeys rs := by
  rw [remaining, eq_comm, List.filter_eq_self]
  simp

/-- A database with a list has bytes. -/
theorem encodeDb_ne_nil (h : ls ≠ []) : encodeDb ls ≠ [] := by
  cases ls with
  | nil => exact absurd rfl h
  | cons l ls =>
    have := l.le_listSize
    rw [← List.length_pos_iff, encodeDb_cons, List.length_append, l.length_encode]
    omega

/-- The region starts with the data. -/
theorem holdsAt_listRegion (data : List UInt8) (heap : ℕ → UInt8) :
    (listRegion data heap).HoldsAt 0 data := by
  rw [Region.holdsAt_iff]
  intro i hi
  simp [listRegion, hi]

/-- A well-formed database is held as one. -/
theorem holdsKeys_listRegion (heap : ℕ → UInt8) (hlt : (encodeDb ls).length < 2 ^ 31)
    (hkeys : WellFormedKeys ls) : HoldsKeys (listRegion (encodeDb ls) heap) ls where
  holds := holdsAt_listRegion _ heap
  size_eq := rfl
  size_lt := lt_trans hlt (by decide)
  keys := hkeys

end Search

/-! ## The run of `delete_keys` -/

/-- Every firmware call and allocation succeeds. -/
def CommitAnswers.Succeeds (a : CommitAnswers) : Prop :=
  a.size = none ∧ a.read = none ∧ a.write = none ∧ a.erase = none ∧ a.allocData = true ∧
    a.allocMok = true ∧ a.allocDel = true

instance (a : CommitAnswers) : Decidable a.Succeeds :=
  inferInstanceAs (Decidable (_ ∧ _ ∧ _ ∧ _ ∧ _ ∧ _ ∧ _))

/-- A run that passes authentication, on a stored list that is not erased as compromised, with a
well-formed request, in which all calls succeed. -/
structure DeletionRun (c : Crypto) (a : CommitAnswers) (vars : Variables MokManagerVar)
    (mokDel : Region) (mokX : Bool) (attempts : ℕ → List UInt16) (ls rs : List SignatureList) :
    Prop where
  authenticated : authenticate c vars (deleteNames mokX).2 (mokDel.bytes 0 mokDel.size) a.auth
    attempts = .ok ()
  succeeds : a.Succeeds
  stored : ∃ v, vars (deleteNames mokX).1 = some v ∧ v.data = encodeDb ls ∧
    runtimeAccess v.attrs = false
  stored_keys : WellFormedKeys ls
  request : HoldsKeys mokDel rs

section Run

variable {c : Crypto} {a : CommitAnswers} {vars : Variables MokManagerVar} {mokDel : Region}
  {mokX : Bool} {attempts : ℕ → List UInt16} {ls rs : List SignatureList}

/-- What is stored is the database. -/
theorem DeletionRun.contents_eq (h : DeletionRun c a vars mokDel mokX attempts ls rs) :
    contents vars (deleteNames mokX).1 = encodeDb ls := by
  obtain ⟨v, hv, hdata, -⟩ := h.stored
  rw [contents, hv]
  exact hdata

/-- The region that is read holds it. -/
theorem DeletionRun.holdsKeys (h : DeletionRun c a vars mokDel mokX attempts ls rs) :
    HoldsKeys (listRegion (encodeDb ls) a.heap) ls :=
  holdsKeys_listRegion a.heap (h.contents_eq ▸ contents_lt vars _) h.stored_keys

/-- The list is read, and counted. -/
theorem DeletionRun.loadMokList_eq (h : DeletionRun c a vars mokDel mokX attempts ls rs)
    (hne : ls ≠ []) :
    (countKeys (listRegion (encodeDb ls) a.heap) = 0 → loadMokList a vars (deleteNames mokX).1 =
        .error (.aborted, (writeVariable vars (deleteNames mokX).1 [] nvBs none).2)) ∧
      ((∀ l ∈ ls, l.sigs ≠ []) → loadMokList a vars (deleteNames mokX).1 =
        .ok (listRegion (encodeDb ls) a.heap, nodesFrom 0 ls)) := by
  obtain ⟨hsize, hread, -, herase, -, hmok, -⟩ := h.succeeds
  obtain ⟨v, hv, hdata, hrt⟩ := h.stored
  have hdb := encodeDb_ne_nil hne
  have hget : getVariableAttr vars (deleteNames mokX).1 a.size a.read = .ok v := by
    refine getVariableAttr_of_some hv (hdata ▸ hdb) ?_ hread
    rw [hsize]
    rintro ⟨e, he, -⟩
    cases he
  have hlen : (encodeDb ls).length ≠ 0 := by simpa using hdb
  constructor
  · intro hcount
    rw [loadMokList, hget]
    simp only [hrt, hdata, hcount, herase, hlen, Bool.false_eq_true, if_false, if_true]
  · intro hls
    obtain ⟨hcount, hbuild⟩ := h.holdsKeys.buildMokList hls
    have hnum : ls.length ≠ 0 := by simpa using hne
    rw [loadMokList, hget]
    simp only [hrt, hdata, hcount, hbuild, hmok, hlen, Bool.not_true, Bool.false_eq_true, if_false,
      if_neg hnum]

/-- A database with a list without a signature is erased. -/
theorem DeletionRun.contents_of_bare (h : DeletionRun c a vars mokDel mokX attempts ls rs)
    (hbare : ∃ l ∈ ls, l.sigs = []) :
    contents (deleteKeys c a vars mokDel mokX attempts).2 (deleteNames mokX).1 = [] := by
  obtain ⟨v, hv, -⟩ := h.stored
  have hne : ls ≠ [] := by
    rintro rfl
    simp at hbare
  rw [deleteKeys, h.authenticated]
  simp only [(h.loadMokList_eq hne).1 (h.holdsKeys.countKeys_of_nil hbare)]
  exact (writeVariable_success nvBs (.inr (by simp [hv])) (by decide)).2

/-- An empty database is not read, and a request that does not count is not carried out. -/
theorem DeletionRun.eq_of_refused (h : DeletionRun c a vars mokDel mokX attempts ls rs)
    (hls : ∀ l ∈ ls, l.sigs ≠ []) (hnil : ls = [] ∨ rs = [] ∨ ∃ r ∈ rs, r.sigs = []) :
    (deleteKeys c a vars mokDel mokX attempts).2 = vars := by
  rw [deleteKeys, h.authenticated]
  by_cases hne : ls = []
  · obtain ⟨v, hv, hdata, -⟩ := h.stored
    have hget : getVariableAttr vars (deleteNames mokX).1 a.size a.read = .error .protocolError := by
      rw [h.succeeds.1]
      simp [getVariableAttr, querySize, hv, hdata, hne]
    simp only [loadMokList, hget]
  · have hcount : countKeys mokDel = 0 := by
      rcases hnil.resolve_left hne with rfl | hbare
      · exact (h.request.buildMokList (by simp)).1
      · exact h.request.countKeys_of_nil hbare
    rw [(h.loadMokList_eq hne).2 hls]
    simp only [loadRequest, hcount, if_true]

/-- Otherwise what the search leaves is written back. -/
theorem DeletionRun.contents_of_carried (h : DeletionRun c a vars mokDel mokX attempts ls rs)
    (hls : ∀ l ∈ ls, l.sigs ≠ []) (hrs : ∀ r ∈ rs, r.sigs ≠ []) (hlsne : ls ≠ [])
    (hrsne : rs ≠ []) :
    contents (deleteKeys c a vars mokDel mokX attempts).2 (deleteNames mokX).1 =
      encodeNodes (searchAndDestroy mokDel (nodesFrom 0 rs)
        (listRegion (encodeDb ls) a.heap, nodesFrom 0 ls)) := by
  obtain ⟨-, -, hwrite, -, halloc, -, hdel⟩ := h.succeeds
  obtain ⟨v, hv, -, -⟩ := h.stored
  obtain ⟨hcount, hrequest⟩ := h.request.buildMokList hrs
  obtain ⟨-, -, -, hlen⟩ := decodes_searchAndDestroy h.holdsKeys h.request hls hrs
  have hload : loadRequest a vars mokDel = .ok (nodesFrom 0 rs) := by
    rw [loadRequest, hcount, if_neg (by simpa using hrsne), hdel, hrequest]
    rfl
  rw [deleteKeys, h.authenticated]
  simp only [(h.loadMokList_eq hlsne).2 hls, hload]
  have hlt : (encodeDb ls).length < 2 ^ 31 := h.contents_eq ▸ contents_lt vars _
  generalize searchAndDestroy mokDel (nodesFrom 0 rs)
    (listRegion (encodeDb ls) a.heap, nodesFrom 0 ls) = s at hlen ⊢
  have hsucc := @writeVariable_success _ _ vars (deleteNames mokX).1 (encodeNodes s) nvBs
    (.inr (by simp [hv])) (lt_of_le_of_lt hlen hlt)
  rw [writeBackMokList, halloc, hwrite]
  split_ifs <;> simp_all

/-- `delete_keys` is exact when the search does right on every list, and only then. -/
theorem deletionExact_iff_deletable (h : DeletionRun c a vars mokDel mokX attempts ls rs) :
    DeletionExact ls rs
        (contents (deleteKeys c a vars mokDel mokX attempts).2 (deleteNames mokX).1) ↔
      Deletable ls rs := by
  have hlt := contents_lt (deleteKeys c a vars mokDel mokX attempts).2 (deleteNames mokX).1
  unfold Deletable
  split_ifs with hbare hrefused
  · rw [h.contents_of_bare hbare, deletionExact_iff_of_decodes Decodes.nil (by decide),
      ← remaining_eq_nil_iff, List.map_nil, eq_comm]
  · have hls : ∀ l ∈ ls, l.sigs ≠ [] := fun l hl hnil => hbare ⟨l, hl, hnil⟩
    rw [h.eq_of_refused hls (.inr hrefused), h.contents_eq] at hlt ⊢
    rw [deletionExact_iff_of_decodes ⟨ls, rfl, rfl⟩ (lt_trans hlt (by decide)),
      remaining_eq_self_iff]
  · have hls : ∀ l ∈ ls, l.sigs ≠ [] := fun l hl hnil => hbare ⟨l, hl, hnil⟩
    obtain ⟨hrsne, hrs⟩ := not_or.mp hrefused
    replace hrs : ∀ r ∈ rs, r.sigs ≠ [] := fun r hr hnil => hrs ⟨r, hr, hnil⟩
    by_cases hlsne : ls = []
    · rw [h.eq_of_refused hls (.inl hlsne), h.contents_eq, hlsne]
      exact iff_of_true ⟨[], Decodes.nil, rfl⟩ (by simp)
    · obtain ⟨sigs, hdec, hkeys, -⟩ := decodes_searchAndDestroy h.holdsKeys h.request hls hrs
      rw [h.contents_of_carried hls hrs hlsne hrsne] at hlt ⊢
      rw [deletionExact_iff_of_decodes hdec (lt_trans hlt (by decide)), hkeys,
        flatMap_keptKeys_eq_iff hls hrs]

end Run

/-! ## Two runs -/

/-- A list of SHA-256 hashes, each of one byte repeated. -/
def sampleHashes (ns : List UInt8) : SignatureList :=
  hashList certSha256Guid (ns.map fun n => ⟨shimLockGuid, List.replicate 32 n⟩) <| by
    refine ⟨by decide, fun s hs => ?_⟩
    obtain ⟨n, -, rfl⟩ := List.mem_map.mp hs
    exact ⟨rfl, List.length_replicate⟩

/-- A request to delete one hash. -/
def sampleRequest : Region := Region.ofList 0 (encodeDb [sampleHashes [1]])

/-- SHA-256 of the request and the password "a". -/
def sampleDigest : List UInt8 :=
  [0x3a, 0xb2, 0x84, 0xb4, 0x7a, 0xe9, 0x6e, 0x53, 0xe2, 0x9d, 0xb0, 0x77, 0x55, 0x44, 0x18, 0x90,
    0x56, 0xc8, 0x01, 0xea, 0x96, 0x41, 0xad, 0x7e, 0x53, 0x93, 0xea, 0xab, 0xd0, 0x0e, 0x18, 0xbb]

def sampleCrypto : Crypto := ⟨fun _ => some sampleDigest, fun _ _ _ => .error .unsupported⟩

/-- A few hashes fit into a variable. -/
theorem length_sampleHashes (ns : List UInt8) (h : ns.length < 100) :
    (encodeDb [sampleHashes ns]).length < 2 ^ 31 := by
  have hlen : (encodeDb [sampleHashes ns]).length = 28 + ns.length * 48 := by
    simp [SignatureList.listSize, sampleHashes, hashList, shaSize, certSha256Guid, certSha1Guid,
      certSha224Guid]
  omega

def sampleVars (ns : List UInt8) (h : ns.length < 100) : Variables MokManagerVar
  | .mokList => some ⟨encodeDb [sampleHashes ns], nvBs, length_sampleHashes ns h⟩
  | .mokDelAuth => some ⟨sampleDigest, nvBs, by decide⟩
  | _ => none

def allSucceed : CommitAnswers :=
  ⟨none, none, none, none, none, true, true, true, 0, fun _ => 0⟩

/-- The deletion of one hash from a list. -/
theorem deletionRun_sample (ns : List UInt8) (h : ns.length < 100) :
    DeletionRun sampleCrypto allSucceed (sampleVars ns h) sampleRequest false (fun _ => [97])
      [sampleHashes ns] [sampleHashes [1]] where
  authenticated := by rfl
  succeeds := by decide
  stored := ⟨_, rfl, rfl, show runtimeAccess nvBs = false by decide⟩
  stored_keys := by
    intro l hl
    obtain rfl := List.mem_singleton.mp hl
    exact ⟨.inr ⟨rfl, rfl⟩, fun _ => show 28 ≤ shaSize certSha256Guid + 16 by decide⟩
  request :=
    { holds := by
        have h := Region.holdsAt_ofList 0 [] (encodeDb [sampleHashes [1]]) []
        rwa [List.nil_append, List.append_nil] at h
      size_eq := rfl
      size_lt := by decide +kernel
      keys := by decide }

/-- Copies at the head of the list and one behind are all removed. -/
theorem deletionExact_sample : DeletionExact [sampleHashes [1, 1, 2, 1]] [sampleHashes [1]]
    (contents (deleteKeys sampleCrypto allSucceed (sampleVars [1, 1, 2, 1] (by decide)) sampleRequest
      false fun _ => [97]).2 .mokList) :=
  (deletionExact_iff_deletable (deletionRun_sample [1, 1, 2, 1] (by decide))).mpr (by decide +kernel)

/-- Of two copies behind another hash the second stays, and the last hash goes in its place. -/
theorem not_deletionExact_sample :
    DeletionRun sampleCrypto allSucceed (sampleVars [2, 1, 3, 1, 4] (by decide)) sampleRequest false
        (fun _ => [97]) [sampleHashes [2, 1, 3, 1, 4]] [sampleHashes [1]] ∧
      ¬ DeletionExact [sampleHashes [2, 1, 3, 1, 4]] [sampleHashes [1]]
        (contents (deleteKeys sampleCrypto allSucceed (sampleVars [2, 1, 3, 1, 4] (by decide))
          sampleRequest false fun _ => [97]).2 .mokList) := by
  have hrun := deletionRun_sample [2, 1, 3, 1, 4] (by decide)
  have hls : ∀ l ∈ [sampleHashes [2, 1, 3, 1, 4]], l.sigs ≠ [] := by decide
  have hrs : ∀ r ∈ [sampleHashes [1]], r.sigs ≠ [] := by decide
  obtain ⟨sigs, hdec, hkeys, -⟩ := decodes_searchAndDestroy hrun.holdsKeys hrun.request hls hrs
  have hlt := contents_lt (deleteKeys sampleCrypto allSucceed (sampleVars [2, 1, 3, 1, 4] (by decide))
    sampleRequest false fun _ => [97]).2 (deleteNames false).1
  refine ⟨hrun, fun hexact => ?_⟩
  rw [hrun.contents_of_carried hls hrs (by simp) (by simp)] at hlt
  rw [← show (deleteNames false).1 = .mokList from rfl,
    hrun.contents_of_carried hls hrs (by simp) (by simp),
    deletionExact_iff_of_decodes hdec (lt_trans hlt (by decide)), hkeys] at hexact
  exact absurd hexact (by decide +kernel)

end Shim
