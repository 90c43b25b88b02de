import Shim.Auth.Authentic

/-! # What verification does to `verification_method`

Only a hash on an allow list makes `verification_method` say `VERIFIED_BY_HASH`: the verification of
an image that is not accepted by its hash leaves it at that, or changes it to `VERIFIED_BY_CERT`.
-/

namespace Shim

open VerificationMethod

/-- The change does not make up an authorisation by hash. -/
def MethodChange.KeepsOffHash (change : MethodChange) : Prop :=
  ∀ method, method ≠ verifiedByHash → change method ≠ verifiedByHash

namespace MethodChange

theorem keepsOffHash_id : KeepsOffHash id := fun _ h => h

/-- Changes that keep off the hash do so one after the other. -/
theorem KeepsOffHash.comp {change change' : MethodChange} (h' : KeepsOffHash change')
    (h : KeepsOffHash change) : KeepsOffHash (change' ∘ change) :=
  fun method hm => h' _ (h method hm)

/-- An update to another method keeps off the hash. -/
theorem keepsOffHash_update {method : VerificationMethod} (hmethod : method ≠ verifiedByHash) :
    KeepsOffHash (updateVerificationMethod method) := by
  intro m hm
  unfold updateVerificationMethod
  split
  · exact hmethod
  · exact hm

/-- So does the method of a certificate. -/
theorem keepsOffHash_const : KeepsOffHash fun _ => verifiedByCert := by
  intro _ _ h
  cases h

end MethodChange

open MethodChange

variable {v : Verifier} {r : Region} {context : Context} {h : Digests} {certData : List UInt8}
  {status : EfiStatus} {change : MethodChange}

/-- Without a hash on an allow list, what `check_allowlist` finds is a certificate. -/
theorem keepsOffHash_of_mem_allowChecks {cert : Option (List UInt8)} (hnot : ¬ v.HashAllowed h)
    (hmem : (some .dataFound, change) ∈ v.allowChecks cert h) : KeepsOffHash change := by
  have hlisted : ∀ {var : Option Region} {hash type : List UInt8},
      some .dataFound = checkDbHash var hash type → ∃ d ∈ var, HashListed d hash type :=
    fun h => (decides_checkDbHash _ h.symm).mp rfl
  simp only [Verifier.allowChecks, List.mem_append] at hmem
  rcases hmem with (hdb | hvendor) | hmok
  · cases hignore : v.ignoreDb with
    | true => simp [hignore] at hdb
    | false =>
      simp only [hignore, Bool.false_eq_true, if_false, Verifier.dbChecks, List.mem_cons,
        Prod.mk.injEq, List.not_mem_nil, or_false] at hdb
      rcases hdb with ⟨hfound, -⟩ | ⟨hfound, -⟩ | ⟨-, rfl⟩
      · exact absurd (.inl ⟨hignore, .inl (hlisted hfound)⟩) hnot
      · exact absurd (.inl ⟨hignore, .inr (hlisted hfound)⟩) hnot
      · exact keepsOffHash_const
  · rcases hdb : v.vendorDb with _ | d
    · simp [Verifier.vendorDbChecks, hdb] at hvendor
    · simp only [Verifier.vendorDbChecks, hdb, List.mem_cons, Prod.mk.injEq, List.not_mem_nil,
        or_false] at hvendor
      rcases hvendor with ⟨hfound, -⟩ | ⟨-, rfl⟩
      · exact absurd (.inr (.inl ⟨d, hdb, (checkDbHashInRam_found hfound.symm).mp rfl⟩)) hnot
      · exact keepsOffHash_const
  · simp only [Verifier.mokListChecks, List.mem_cons, Prod.mk.injEq, List.not_mem_nil,
      or_false] at hmok
    rcases hmok with ⟨hfound, -⟩ | ⟨-, rfl⟩
    · exact absurd (.inr (.inr (hlisted hfound))) hnot
    · exact keepsOffHash_const

/-- The allow lists set the method of a hash only if the hash is allowed. -/
theorem keepsOffHash_checkAllowlist {cert : Option (List UInt8)} (hnot : ¬ v.HashAllowed h)
    (hst : v.checkAllowlist cert h = some (status, change)) : KeepsOffHash change := by
  obtain ⟨found, hfound, heq⟩ := Option.map_eq_some_iff.mp hst
  rcases found with _ | change'
  · obtain ⟨-, rfl⟩ := Prod.mk.injEq .. ▸ heq
    exact keepsOffHash_update (by decide)
  · obtain ⟨-, rfl⟩ := Prod.mk.injEq .. ▸ heq
    exact keepsOffHash_of_mem_allowChecks hnot (exists_of_firstFound hfound)

/-- So does the check of a signature. -/
theorem keepsOffHash_verifyOneSignature (hnot : ¬ v.HashAllowed h)
    (hst : v.verifyOneSignature certData h = some (status, change)) : KeepsOffHash change := by
  unfold Verifier.verifyOneSignature at hst
  obtain ⟨denied, -, hst⟩ := Option.bind_eq_some_iff.mp hst
  cases hdenied : denied.isError with
  | true =>
    obtain ⟨-, rfl⟩ : denied = status ∧ id = change := by simpa [hdenied] using hst
    exact keepsOffHash_id
  | false =>
    simp only [hdenied, Bool.false_eq_true, if_false] at hst
    obtain ⟨⟨allowed, change'⟩, hallowed, hst⟩ := Option.bind_eq_some_iff.mp hst
    have hkeeps := keepsOffHash_checkAllowlist hnot hallowed
    have hcert : KeepsOffHash (updateVerificationMethod verifiedByCert) :=
      keepsOffHash_update (by decide)
    obtain rfl | rfl : change = change' ∨ change = updateVerificationMethod verifiedByCert ∘ change' := by
      split at hst <;> [skip; split at hst <;> [skip; split at hst]] <;> simp_all
    · exact hkeeps
    · exact hcert.comp hkeeps

/-- So does the loop over the signatures. -/
theorem keepsOffHash_verifySignatures {fuel offset : ℕ} {ret : EfiStatus}
    {result : Except EfiStatus EfiStatus} (hnot : ¬ v.HashAllowed h)
    (hres : verifySignatures v r context h fuel offset ret = some (result, change)) :
    KeepsOffHash change := by
  induction fuel generalizing offset ret change with
  | zero =>
    obtain ⟨-, rfl⟩ : .ok ret = result ∧ id = change := by simpa [verifySignatures] using hres
    exact keepsOffHash_id
  | succ fuel ih =>
    rcases verifySignatures_cases hres with ⟨-, rfl, -⟩ | ⟨e, -, -, rfl⟩ |
      ⟨sig, -, -, -, ⟨-, status, change, change', hone, hrest, rfl⟩ | ⟨-, hrest⟩⟩
    · exact keepsOffHash_id
    · exact keepsOffHash_id
    · exact (ih hrest).comp (keepsOffHash_verifyOneSignature hnot hone)
    · exact ih hrest

/-- So does the whole check by signatures. -/
theorem keepsOffHash_verifyBySignature (hnot : ¬ v.HashAllowed h)
    (hres : verifyBySignature v r context h = some (status, change)) : KeepsOffHash change := by
  unfold verifyBySignature at hres
  dsimp only at hres
  split at hres
  · obtain ⟨-, rfl⟩ : _ ∧ id = change := by simpa using hres
    exact keepsOffHash_id
  · split at hres
    · obtain ⟨-, rfl⟩ : _ ∧ id = change := by simpa using hres
      exact keepsOffHash_id
    · obtain ⟨⟨result, change'⟩, hloop, hres⟩ := Option.bind_eq_some_iff.mp hres
      have hkeeps := keepsOffHash_verifySignatures hnot hloop
      rcases result with e | ret
      · obtain ⟨-, rfl⟩ : e = status ∧ change' = change := by simpa using hres
        exact hkeeps
      · obtain rfl : change' = change := by
          by_cases hhttp : (httpStatus v r context).isError <;> simp [hhttp] at hres <;> exact hres.2
        exact hkeeps

/-- The verification of an image that is not accepted by its hash makes up no authorisation by
hash. -/
theorem keepsOffHash_verifyBufferAuthenticode (hnot : ¬ AcceptedByHash v r context)
    (hres : verifyBufferAuthenticode v r context = some (status, change)) :
    KeepsOffHash change := by
  unfold verifyBufferAuthenticode at hres
  by_cases hsize : 2 ^ 31 ≤ r.size
  · rw [if_pos hsize] at hres
    obtain ⟨-, rfl⟩ : _ ∧ id = change := by simpa using hres
    exact keepsOffHash_id
  rw [if_neg hsize] at hres
  rcases hhash : generateHash r r.size context with e | chunks
  · obtain ⟨-, rfl⟩ : e = status ∧ id = change := by simpa [hhash] using hres
    exact keepsOffHash_id
  simp only [hhash] at hres
  obtain ⟨denied, hdenied, hres⟩ := Option.bind_eq_some_iff.mp hres
  rcases (Verifier.checkDenylist_spec hdenied).1 with rfl | rfl
  · obtain ⟨⟨allowed, change₁⟩, hallowed, hres⟩ := Option.bind_eq_some_iff.mp hres
    obtain ⟨hcases, hiff⟩ := Verifier.checkAllowlist_spec hallowed
    rcases hcases with rfl | rfl
    · exact absurd ⟨chunks, change₁, hhash, hdenied, hallowed⟩ hnot
    · have hclean : ¬ v.HashAllowed (v.digests r chunks) := by simpa using hiff
      obtain ⟨⟨status', change₂⟩, hsig, hres⟩ := Option.bind_eq_some_iff.mp hres
      obtain ⟨-, rfl⟩ : status' = status ∧ change₂ ∘ change₁ = change := by simpa using hres
      exact (keepsOffHash_verifyBySignature hclean hsig).comp
        (keepsOffHash_checkAllowlist hclean hallowed)
  · obtain ⟨-, rfl⟩ : _ ∧ id = change := by simpa using hres
    exact keepsOffHash_id

end Shim
