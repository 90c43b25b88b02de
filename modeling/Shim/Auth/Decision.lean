import Shim.Auth.Verify

/-! # The authentication decision

When `verify_buffer_authenticode` accepts an image, and when what it accepts is authentic. A
certificate is on a list wherever it stands in it; the code looks at the first one of every list
only, and it lets the keyless server answer for a signature the deny lists have turned down.
-/

namespace Shim

open VerificationMethod

/-! ## What the checks decide -/

/-- A check that comes back finds its data exactly if `P`. -/
def Decides (check : Option CheckStatus) (P : Prop) : Prop :=
  ∀ s, check = some s → (s = .dataFound ↔ P)

section Decides

variable {d : Region} {var : Option Region} {hash type : List UInt8} {verifies : List UInt8 → Bool}

/-- The walk for a hash decides whether it is listed. -/
theorem decides_checkDbHashInRam :
    Decides (checkDbHashInRam d hash type) (HashListed d hash type) :=
  fun _ h => checkDbHashInRam_found h

/-- The walk for a certificate decides whether a first one verifies. -/
theorem decides_checkDbCertInRam :
    Decides (checkDbCertInRam verifies d) (FirstCertListed verifies d) :=
  fun _ h => checkDbCertInRam_found h

/-- The same in a variable, if it is there. -/
theorem decides_checkDbHash :
    Decides (checkDbHash var hash type) (∃ d ∈ var, HashListed d hash type) := by
  intro s h
  cases var with
  | none =>
    obtain rfl : CheckStatus.varNotFound = s := by simpa [checkDbHash] using h
    simp
  | some d => simpa using checkDbHashInRam_found h

/-- The same for certificates in a variable. -/
theorem decides_checkDbCert :
    Decides (checkDbCert verifies var) (∃ d ∈ var, FirstCertListed verifies d) := by
  intro s h
  cases var with
  | none =>
    obtain rfl : CheckStatus.varNotFound = s := by simpa [checkDbCert] using h
    simp
  | some d => simpa using checkDbCertInRam_found h

/-- A check that is made only if there is a certificate. -/
theorem decides_ifCert {cert : Option (List UInt8)} {check : List UInt8 → Option CheckStatus}
    {P : List UInt8 → Prop} (h : ∀ c, Decides (check c) (P c)) :
    Decides (Verifier.ifCert cert check) (∃ c ∈ cert, P c) := by
  intro s hs
  cases cert with
  | none =>
    obtain rfl : CheckStatus.dataNotFound = s := by simpa [Verifier.ifCert] using hs
    simp
  | some c => simpa using h c s hs

/-- A list of checks that comes back finds something exactly if `P`. -/
def FirstDecides {α : Type} (checks : List (Option CheckStatus × α)) (P : Prop) : Prop :=
  ∀ res, firstFound checks = some res → (res.isSome ↔ P)

section

variable {α : Type} {check : Option CheckStatus} {a : α} {P Q : Prop}
  {checks checks' : List (Option CheckStatus × α)}

/-- Without checks nothing is found. -/
theorem firstDecides_nil : FirstDecides ([] : List (Option CheckStatus × α)) False := by
  intro res h
  obtain rfl : none = res := by simpa [firstFound] using h
  simp

/-- The first check comes before the others. -/
theorem FirstDecides.cons (hcheck : Decides check P) (h : FirstDecides checks Q) :
    FirstDecides ((check, a) :: checks) (P ∨ Q) := by
  intro res hres
  rcases check with _ | s
  · simp [firstFound] at hres
  · have hs := hcheck s rfl
    by_cases hfound : s = .dataFound
    · obtain rfl : some a = res := by simpa [firstFound, hfound] using hres
      simp [hs.mp hfound]
    · have hP : ¬ P := fun hP => hfound (hs.mpr hP)
      simp only [firstFound, hfound, if_false] at hres
      rw [h res hres, or_iff_right hP]

/-- Checks in sequence decide the disjunction of what the parts decide. -/
theorem FirstDecides.append (h : FirstDecides checks P) (h' : FirstDecides checks' Q) :
    FirstDecides (checks ++ checks') (P ∨ Q) := by
  intro res hres
  induction checks generalizing P with
  | nil =>
    have hP : ¬ P := by simpa using h none rfl
    rw [h' res hres, or_iff_right hP]
  | cons check checks ih =>
    obtain ⟨_ | s, a⟩ := check
    · simp [firstFound] at hres
    · by_cases hfound : s = .dataFound
      · obtain rfl : some a = res := by simpa [firstFound, hfound] using hres
        have hP : P := by simpa using h (some a) (by simp [firstFound, hfound])
        simp [hP]
      · simp only [List.cons_append, firstFound, hfound, if_false] at hres
        refine ih (fun res' hres' => h res' ?_) hres
        simpa [firstFound, hfound] using hres'

end

end Decides

/-! ## The lists -/

namespace Verifier

variable (v : Verifier) (certData : List UInt8) (h : Digests)

/-- The image is on a deny list by a hash: its SHA-256 on any, its SHA-1 on vendor_dbx or dbx. -/
def HashDenied : Prop :=
  HashListed v.vendorDeauthorized h.sha256 certSha256Guid ∨
    HashListed v.vendorDeauthorized h.sha1 certSha1Guid ∨
    (∃ d ∈ v.dbx, HashListed d h.sha256 certSha256Guid) ∨
    (∃ d ∈ v.dbx, HashListed d h.sha1 certSha1Guid) ∨
    ∃ d ∈ v.mokListX, HashListed d h.sha256 certSha256Guid

/-- The image is on an allow list by a hash. -/
def HashAllowed : Prop :=
  (v.ignoreDb = false ∧ ((∃ d ∈ v.db, HashListed d h.sha256 certSha256Guid) ∨
    ∃ d ∈ v.db, HashListed d h.sha1 certSha1Guid)) ∨
    (∃ d ∈ v.vendorDb, HashListed d h.sha256 certSha256Guid) ∨
    ∃ d ∈ v.mokListRT, HashListed d h.sha256 certSha256Guid

/-- The signature meets a certificate on a deny list, `listed` saying what being on a list is. -/
def denied (listed : (List UInt8 → Bool) → Region → Prop) : Prop :=
  listed (v.certVerifies certData h) v.vendorDeauthorized ∨
    (∃ d ∈ v.dbx, listed (v.certVerifies certData h) d) ∨
    ∃ d ∈ v.mokListX, listed (v.certVerifies certData h) d

/-- The signature verifies against a certificate on an allow list. -/
def allowed (listed : (List UInt8 → Bool) → Region → Prop) : Prop :=
  (v.ignoreDb = false ∧ ∃ d ∈ v.db, listed (v.certVerifies certData h) d) ∨
    (∃ d ∈ v.vendorDb, listed (v.certVerifies certData h) d) ∨
    ∃ d ∈ v.mokListRT, listed (v.certVerifies certData h) d

/-- The signature verifies against the build or the vendor certificate. -/
def builtIn : Prop :=
  v.builtInVerifies certData h v.buildCert ∨ v.builtInVerifies certData h v.vendorCert

/-- Some certificate of a deny list matches the signature. -/
def CertDenied : Prop := v.denied certData h CertListed

/-- The signature verifies against an allow-listed, build or vendor certificate. -/
def CertTrusted : Prop := v.allowed certData h CertListed ∨ v.builtIn certData h

/-- What the code finds of it: the first certificate of every list. -/
def PassesFirst : Prop :=
  ¬ v.denied certData h FirstCertListed ∧
    (v.allowed certData h FirstCertListed ∨ v.builtIn certData h)

variable {v certData h}

/-- The checks of `check_denylist`, in its order. -/
theorem firstDecides_denyChecks (cert : Option (List UInt8)) :
    FirstDecides (v.denyChecks cert h)
      (HashListed v.vendorDeauthorized h.sha256 certSha256Guid ∨
        HashListed v.vendorDeauthorized h.sha1 certSha1Guid ∨
        (∃ c ∈ cert, FirstCertListed (v.certVerifies c h) v.vendorDeauthorized) ∨
        (∃ d ∈ v.dbx, HashListed d h.sha256 certSha256Guid) ∨
        (∃ d ∈ v.dbx, HashListed d h.sha1 certSha1Guid) ∨
        (∃ c ∈ cert, ∃ d ∈ v.dbx, FirstCertListed (v.certVerifies c h) d) ∨
        (∃ d ∈ v.mokListX, HashListed d h.sha256 certSha256Guid) ∨
        (∃ c ∈ cert, ∃ d ∈ v.mokListX, FirstCertListed (v.certVerifies c h) d) ∨ False) :=
  .cons decides_checkDbHashInRam <| .cons decides_checkDbHashInRam <|
    .cons (decides_ifCert fun _ => decides_checkDbCertInRam) <| .cons decides_checkDbHash <|
    .cons decides_checkDbHash <| .cons (decides_ifCert fun _ => decides_checkDbCert) <|
    .cons decides_checkDbHash <| .cons (decides_ifCert fun _ => decides_checkDbCert)
      firstDecides_nil

/-- `check_denylist` goes by the hashes and by the first certificates. -/
theorem checkDenylist_spec {cert : Option (List UInt8)} {status : EfiStatus}
    (hst : v.checkDenylist cert h = some status) :
    (status = .success ∨ status = .securityViolation) ∧
      (status = .success ↔
        ¬ (v.HashDenied h ∨ ∃ c ∈ cert, v.denied c h FirstCertListed)) := by
  obtain ⟨found, hfound, rfl⟩ := Option.map_eq_some_iff.mp hst
  have hviolation : ∀ check ∈ v.denyChecks cert h, check.2 = .securityViolation := by
    simp [denyChecks]
  have hlist : found.isSome ↔ v.HashDenied h ∨ ∃ c ∈ cert, v.denied c h FirstCertListed := by
    rw [firstDecides_denyChecks cert found hfound]
    cases cert with
    | none => simp [HashDenied]
    | some c =>
      simp only [HashDenied, denied, Option.mem_def, Option.some.injEq, exists_eq_left']
      grind
  rw [← hlist]
  rcases found with _ | status
  · simp
  · obtain rfl := hviolation _ (exists_of_firstFound hfound)
    simp

/-- The checks against `db`, unless it is to be ignored. -/
theorem firstDecides_dbChecks (cert : Option (List UInt8)) :
    FirstDecides (if v.ignoreDb then [] else v.dbChecks cert h)
      (v.ignoreDb = false ∧ ((∃ d ∈ v.db, HashListed d h.sha256 certSha256Guid) ∨
        (∃ d ∈ v.db, HashListed d h.sha1 certSha1Guid) ∨
        (∃ c ∈ cert, ∃ d ∈ v.db, FirstCertListed (v.certVerifies c h) d) ∨ False)) := by
  cases v.ignoreDb with
  | true => simpa using firstDecides_nil
  | false =>
    simpa only [true_and, Bool.false_eq_true, if_false, dbChecks] using
      FirstDecides.cons decides_checkDbHash <| .cons decides_checkDbHash <|
        .cons (decides_ifCert fun _ => decides_checkDbCert) firstDecides_nil

/-- The checks against the vendor's list. -/
theorem firstDecides_vendorDbChecks (cert : Option (List UInt8)) :
    FirstDecides (v.vendorDbChecks cert h)
      ((∃ d ∈ v.vendorDb, HashListed d h.sha256 certSha256Guid) ∨
        (∃ c ∈ cert, ∃ d ∈ v.vendorDb, FirstCertListed (v.certVerifies c h) d) ∨ False) := by
  unfold vendorDbChecks
  cases v.vendorDb with
  | none => simpa using firstDecides_nil
  | some d =>
    simpa using FirstDecides.cons decides_checkDbHashInRam <|
      .cons (decides_ifCert fun _ => decides_checkDbCertInRam) firstDecides_nil

/-- The checks against `MokListRT`. -/
theorem firstDecides_mokListChecks (cert : Option (List UInt8)) :
    FirstDecides (v.mokListChecks cert h)
      ((∃ d ∈ v.mokListRT, HashListed d h.sha256 certSha256Guid) ∨
        (∃ c ∈ cert, ∃ d ∈ v.mokListRT, FirstCertListed (v.certVerifies c h) d) ∨ False) :=
  .cons decides_checkDbHash <| .cons (decides_ifCert fun _ => decides_checkDbCert) firstDecides_nil

/-- `check_allowlist` goes by the hashes and by the first certificates. -/
theorem checkAllowlist_spec {cert : Option (List UInt8)} {status : EfiStatus}
    {method : MethodChange} (hst : v.checkAllowlist cert h = some (status, method)) :
    (status = .success ∨ status = .notFound) ∧
      (status = .success ↔
        v.HashAllowed h ∨ ∃ c ∈ cert, v.allowed c h FirstCertListed) := by
  obtain ⟨found, hfound, heq⟩ := Option.map_eq_some_iff.mp hst
  have hlist : found.isSome ↔ v.HashAllowed h ∨ ∃ c ∈ cert, v.allowed c h FirstCertListed := by
    have hdecides := ((firstDecides_dbChecks (v := v) (h := h) cert).append
      (firstDecides_vendorDbChecks (v := v) (h := h) cert)).append
      (firstDecides_mokListChecks (v := v) (h := h) cert)
    rw [hdecides found hfound]
    cases cert <;> simp [HashAllowed, allowed] <;> grind
  rw [← hlist]
  rcases found with _ | method'
  · obtain ⟨rfl, rfl⟩ := Prod.mk.injEq .. ▸ heq
    simp
  · obtain ⟨rfl, rfl⟩ := Prod.mk.injEq .. ▸ heq
    simp

/-- One signature is let through exactly if its image is on no deny list and on an allow list by a
hash, or the first certificates let it through. -/
theorem verifyOneSignature_spec {certData : List UInt8} {status : EfiStatus}
    {method : MethodChange} (hst : v.verifyOneSignature certData h = some (status, method)) :
    status = .success ↔ ¬ v.HashDenied h ∧ ¬ v.denied certData h FirstCertListed ∧
      (v.HashAllowed h ∨ v.allowed certData h FirstCertListed ∨ v.builtIn certData h) := by
  unfold verifyOneSignature at hst
  obtain ⟨denied, hdenied, hst⟩ := Option.bind_eq_some_iff.mp hst
  obtain ⟨hdenied_cases, hdenied_iff⟩ := checkDenylist_spec hdenied
  simp only [Option.mem_def, Option.some.injEq, exists_eq_left', not_or] at hdenied_iff
  rcases hdenied_cases with rfl | rfl
  -- not denied: allowed by the lists, or by a certificate built in
  · have hclean := hdenied_iff.mp rfl
    obtain ⟨⟨allowed, change⟩, hallowed, hst⟩ := Option.bind_eq_some_iff.mp hst
    obtain ⟨hallowed_cases, hallowed_iff⟩ := checkAllowlist_spec hallowed
    simp only [Option.mem_def, Option.some.injEq, exists_eq_left'] at hallowed_iff
    rcases hallowed_cases with rfl | rfl
    · obtain ⟨rfl, -⟩ : EfiStatus.success = status ∧ change = method := by simpa using hst
      simp [hclean, ← or_assoc, hallowed_iff.mp rfl]
    · have hnot := mt hallowed_iff.mpr (by decide)
      rw [not_or] at hnot
      have hbuilt : status = .success ↔ v.builtIn certData h := by
        unfold builtIn
        cases hbuild : v.builtInVerifies certData h v.buildCert <;>
          cases hvendor : v.builtInVerifies certData h v.vendorCert <;>
          simp [hbuild, hvendor] at hst <;> simp [← hst.1]
      simp [hbuilt, hclean, hnot]
  · obtain ⟨rfl, -⟩ : EfiStatus.securityViolation = status ∧ id = method := by simpa using hst
    -- denied: nothing else is looked at
    have hdirty := mt hdenied_iff.mpr (by decide)
    rw [not_and_or] at hdirty
    simp only [reduceCtorEq, false_iff, not_and]
    intro hhash hcert
    exact absurd hdirty (by simp [hhash, hcert])

end Verifier

end Shim
