import Shim.Auth.Decision

/-! # Accepted images are authentic

The property `verify_buffer_authenticode` is there for, and exactly when it holds.
-/

namespace Shim

/-! ## The records of an image -/

/-- The PKCS#7 records of the certificate table, by the walk of `verify_buffer_authenticode`. -/
def pkcs7Records (r : Region) (context : Context) :
    (fuel offset : ℕ) → Except EfiStatus (List ℕ)
  | 0, _ => .ok []
  | fuel + 1, offset =>
    if offset < r.u32 (context.secDir + 4) then
      match imageAddress r.base r.size (r.u32 context.secDir + offset) with
      | none => .ok []
      | some sig => do
        checkCertificate r context offset sig
        let records ← pkcs7Records r context fuel (alignValue8 (offset + r.u32 sig))
        return if r.u16 (sig + 6) = winCertTypePkcsSignedData then sig :: records else records
    else .ok []

/-- `verify_one_signature` comes back with success for the record. -/
def Verifier.Passes (v : Verifier) (r : Region) (h : Digests) (sig : ℕ) : Prop :=
  ∃ method, v.verifyOneSignature (certData r sig) h = some (.success, method)

section Walk

variable {v : Verifier} {r : Region} {context : Context} {h : Digests} {fuel offset : ℕ}
  {ret : EfiStatus}

/-- The checks of a record fail with an error only. -/
theorem failsWithError_checkCertificate (r : Region) (context : Context) (offset sig : ℕ) :
    FailsWithError (checkCertificate r context offset sig) :=
  (failsWithError_failIf _ rfl).bind fun _ => (failsWithError_failIf _ rfl).bind fun _ =>
    (failsWithError_failIf _ rfl).bind fun _ => failsWithError_failIf _ rfl

/-- A record that passes its checks is listed if it is a PKCS#7 one, and the next one starts behind
it. -/
theorem pkcs7Records_step {sig : ℕ} {records : List ℕ}
    (hoff : offset < r.u32 (context.secDir + 4))
    (himage : imageAddress r.base r.size (r.u32 context.secDir + offset) = some sig)
    (hcheck : checkCertificate r context offset sig = .ok ())
    (hrest : pkcs7Records r context fuel (alignValue8 (offset + r.u32 sig)) = .ok records) :
    pkcs7Records r context (fuel + 1) offset = .ok
      (if r.u16 (sig + 6) = winCertTypePkcsSignedData then sig :: records else records) := by
  simp only [pkcs7Records, hoff, if_true, himage, hcheck, hrest]
  rfl

/-- What the loop over the records has found when it comes back. -/
def LoopFinds (v : Verifier) (r : Region) (context : Context) (h : Digests) (fuel offset : ℕ)
    (ret : EfiStatus) (result : Except EfiStatus EfiStatus) : Prop :=
  FailsWithError result ∧ ∀ ret', result = .ok ret' → ∃ records,
    pkcs7Records r context fuel offset = .ok records ∧
    (∀ sig ∈ records, (v.verifyOneSignature (certData r sig) h).isSome) ∧
    (ret' = .success ↔ ret = .success ∨ ∃ sig ∈ records, v.Passes r h sig)

/-- Without a PKCS#7 record the loop ends with the status it came with. -/
theorem loopFinds_nil (hnil : pkcs7Records r context fuel offset = .ok []) :
    LoopFinds v r context h fuel offset ret (.ok ret) := by
  refine ⟨failsWith_ok _, ?_⟩
  rintro ret' ⟨⟩
  exact ⟨[], hnil, by simp, by simp⟩

/-- One record more: it counts if it is a PKCS#7 record, and then a success is kept. -/
theorem LoopFinds.cons {sig : ℕ} {ret₀ : EfiStatus} {result : Except EfiStatus EfiStatus}
    (hoff : offset < r.u32 (context.secDir + 4))
    (himage : imageAddress r.base r.size (r.u32 context.secDir + offset) = some sig)
    (hcheck : checkCertificate r context offset sig = .ok ())
    (hrest : LoopFinds v r context h fuel (alignValue8 (offset + r.u32 sig)) ret result)
    (hsome : r.u16 (sig + 6) = winCertTypePkcsSignedData →
      (v.verifyOneSignature (certData r sig) h).isSome)
    (hret : ret = .success ↔ ret₀ = .success ∨
      (r.u16 (sig + 6) = winCertTypePkcsSignedData ∧ v.Passes r h sig)) :
    LoopFinds v r context h (fuel + 1) offset ret₀ result := by
  obtain ⟨hfails, hok⟩ := hrest
  refine ⟨hfails, fun ret' hret' => ?_⟩
  obtain ⟨records, hrecords, hall, hiff⟩ := hok ret' hret'
  refine ⟨_, pkcs7Records_step hoff himage hcheck hrecords, ?_, ?_⟩
  · intro s hs
    by_cases htype : r.u16 (sig + 6) = winCertTypePkcsSignedData
    · rw [if_pos htype] at hs
      rcases List.mem_cons.mp hs with rfl | hs
      · exact hsome htype
      · exact hall s hs
    · rw [if_neg htype] at hs
      exact hall s hs
  · rw [hiff, hret]
    by_cases htype : r.u16 (sig + 6) = winCertTypePkcsSignedData
    · simp only [htype, true_and, if_true, List.exists_mem_cons_iff, or_assoc]
    · simp only [htype, false_and, or_false, if_false]

/-- One turn of the loop: it stops, returns early at a bad record, or goes on past a good one. -/
theorem verifySignatures_cases {result : Except EfiStatus EfiStatus} {method : MethodChange}
    (hres : verifySignatures v r context h (fuel + 1) offset ret = some (result, method)) :
    (result = .ok ret ∧ method = id ∧ pkcs7Records r context (fuel + 1) offset = .ok []) ∨
    (∃ e, result = .error e ∧ e.isError ∧ method = id) ∨
    ∃ sig, offset < r.u32 (context.secDir + 4) ∧
      imageAddress r.base r.size (r.u32 context.secDir + offset) = some sig ∧
      checkCertificate r context offset sig = .ok () ∧
      ((r.u16 (sig + 6) = winCertTypePkcsSignedData ∧ ∃ status change change',
          v.verifyOneSignature (certData r sig) h = some (status, change) ∧
          verifySignatures v r context h fuel (alignValue8 (offset + r.u32 sig))
            (if ret ≠ .success then status else ret) = some (result, change') ∧
          method = change' ∘ change) ∨
        (r.u16 (sig + 6) ≠ winCertTypePkcsSignedData ∧
          verifySignatures v r context h fuel (alignValue8 (offset + r.u32 sig)) ret =
            some (result, method))) := by
  unfold verifySignatures at hres
  by_cases hoff : offset < r.u32 (context.secDir + 4)
  · rw [if_pos hoff] at hres
    -- outside of the image the walk ends with what it has
    rcases himage : imageAddress r.base r.size (r.u32 context.secDir + offset) with _ | sig
    · simp only [himage, Option.some.injEq, Prod.mk.injEq] at hres
      exact .inl ⟨hres.1.symm, hres.2.symm, by simp only [pkcs7Records, hoff, if_true, himage]⟩
    · simp only [himage] at hres
      -- a record that is too short or too long ends it with an error
      rcases hcheck : checkCertificate r context offset sig with e | ⟨⟩
      · simp only [hcheck, Option.some.injEq, Prod.mk.injEq] at hres
        exact .inr (.inl ⟨e, hres.1.symm, failsWithError_checkCertificate _ _ _ _ _ hcheck,
          hres.2.symm⟩)
      · simp only [hcheck] at hres
        refine .inr (.inr ⟨sig, hoff, rfl, hcheck, ?_⟩)
        -- records of other kinds are passed over
        by_cases htype : r.u16 (sig + 6) = winCertTypePkcsSignedData
        · rw [if_pos htype] at hres
          obtain ⟨⟨status, change⟩, hone, hres⟩ := Option.bind_eq_some_iff.mp hres
          obtain ⟨⟨result', change'⟩, hrest, hres⟩ := Option.bind_eq_some_iff.mp hres
          obtain ⟨rfl, rfl⟩ : result' = result ∧ change' ∘ change = method := by simpa using hres
          exact .inl ⟨htype, status, change, change', hone, hrest, rfl⟩
        · rw [if_neg htype] at hres
          exact .inr ⟨htype, hres⟩
  · rw [if_neg hoff] at hres
    obtain ⟨rfl, rfl⟩ : .ok ret = result ∧ id = method := by simpa using hres
    exact .inl ⟨rfl, rfl, by rw [pkcs7Records, if_neg hoff]⟩

/-- The loop over the certificate table ends in the way of its records. -/
theorem verifySignatures_finds {result : Except EfiStatus EfiStatus} {method : MethodChange}
    (hres : verifySignatures v r context h fuel offset ret = some (result, method)) :
    LoopFinds v r context h fuel offset ret result := by
  induction fuel generalizing offset ret result method with
  | zero =>
    obtain ⟨rfl, -⟩ : .ok ret = result ∧ id = method := by simpa [verifySignatures] using hres
    exact loopFinds_nil rfl
  | succ fuel ih =>
    rcases verifySignatures_cases hres with ⟨rfl, -, hnil⟩ | ⟨e, rfl, he, -⟩ |
      ⟨sig, hoff, himage, hcheck, ⟨htype, status, change, change', hone, hrest, -⟩ |
        ⟨htype, hrest⟩⟩
    · exact loopFinds_nil hnil
    · refine ⟨?_, by rintro ret' ⟨⟩⟩
      rintro _ ⟨⟩
      exact he
    · refine (ih hrest).cons hoff himage hcheck (fun _ => by simp [hone]) ?_
      have hpass : v.Passes r h sig ↔ status = .success := by simp [Verifier.Passes, hone]
      by_cases hret : ret = .success <;> simp [hret, htype, hpass]
    · exact (ih hrest).cons hoff himage hcheck (fun h => absurd h htype) (by simp [htype])

/-- A walk that succeeds past a record has succeeded on the rest. -/
theorem exists_pkcs7Records_rest {sig : ℕ} {records : List ℕ}
    (hoff : offset < r.u32 (context.secDir + 4))
    (himage : imageAddress r.base r.size (r.u32 context.secDir + offset) = some sig)
    (hrecords : pkcs7Records r context (fuel + 1) offset = .ok records) :
    checkCertificate r context offset sig = .ok () ∧ ∃ rest,
      pkcs7Records r context fuel (alignValue8 (offset + r.u32 sig)) = .ok rest ∧
      records = if r.u16 (sig + 6) = winCertTypePkcsSignedData then sig :: rest else rest := by
  rcases hcheck : checkCertificate r context offset sig with e | ⟨⟩
  · simp only [pkcs7Records, hoff, if_true, himage, hcheck] at hrecords
    cases hrecords
  · rcases hrest : pkcs7Records r context fuel (alignValue8 (offset + r.u32 sig)) with e | rest
    · simp only [pkcs7Records, hoff, if_true, himage, hcheck, hrest] at hrecords
      cases hrecords
    · have hstep := pkcs7Records_step hoff himage hcheck hrest
      exact ⟨rfl, rest, rfl, by simpa [hrecords] using hstep⟩

/-- The loop comes back where the walk does and every record's verification does. -/
theorem exists_verifySignatures {records : List ℕ}
    (hrecords : pkcs7Records r context fuel offset = .ok records)
    (hsome : ∀ sig ∈ records, (v.verifyOneSignature (certData r sig) h).isSome) :
    ∃ ret' method, verifySignatures v r context h fuel offset ret = some (.ok ret', method) := by
  induction fuel generalizing offset ret records with
  | zero => exact ⟨ret, id, rfl⟩
  | succ fuel ih =>
    unfold verifySignatures
    by_cases hoff : offset < r.u32 (context.secDir + 4)
    · rw [if_pos hoff]
      rcases himage : imageAddress r.base r.size (r.u32 context.secDir + offset) with _ | sig
      · exact ⟨ret, id, rfl⟩
      · obtain ⟨hcheck, rest, hrest, rfl⟩ := exists_pkcs7Records_rest hoff himage hrecords
        simp only [hcheck]
        by_cases htype : r.u16 (sig + 6) = winCertTypePkcsSignedData
        · rw [if_pos htype] at hsome ⊢
          obtain ⟨⟨status, change⟩, hone⟩ :=
            Option.isSome_iff_exists.mp (hsome sig List.mem_cons_self)
          obtain ⟨ret', change', hloop⟩ := @ih _ (if ret ≠ .success then status else ret) _ hrest
            fun s hs => hsome s (List.mem_cons_of_mem _ hs)
          refine ⟨ret', change' ∘ change, ?_⟩
          simp only [hone, Option.bind_eq_bind, Option.bind_some, hloop]
          rfl
        · rw [if_neg htype] at hsome ⊢
          exact ih hrest hsome
    · rw [if_neg hoff]
      exact ⟨ret, id, rfl⟩

end Walk

/-! ## The decision -/

/-- The run gets past the hash checks and through the loop over the records, with the digests `h`
and the records `records`, to the decision between the keyless server and the loop's result. -/
structure ReachesDecision (v : Verifier) (r : Region) (context : Context) (h : Digests)
    (records : List ℕ) : Prop where
  size_lt : r.size < 2 ^ 31
  hashed : ∃ chunks, generateHash r r.size context = .ok chunks ∧ h = v.digests r chunks
  notDenied : v.checkDenylist none h = some .success
  notAllowed : ∃ method, v.checkAllowlist none h = some (.notFound, method)
  signed : r.u32 (context.secDir + 4) ≠ 0
  table : r.u32 (context.secDir + 4) + r.u32 context.secDir ≤ r.size
  walk : pkcs7Records r context (r.u32 (context.secDir + 4)) 0 = .ok records
  returns : ∀ sig ∈ records, (v.verifyOneSignature (certData r sig) h).isSome

/-- The image is let through by a hash. -/
def AcceptedByHash (v : Verifier) (r : Region) (context : Context) : Prop :=
  ∃ chunks method, generateHash r r.size context = .ok chunks ∧
    v.checkDenylist none (v.digests r chunks) = some .success ∧
    v.checkAllowlist none (v.digests r chunks) = some (.success, method)

/-- `verify_buffer_authenticode` returns `EFI_SUCCESS`. -/
def Accepts (v : Verifier) (r : Region) (context : Context) : Prop :=
  ∃ method, verifyBufferAuthenticode v r context = some (.success, method)

variable {v : Verifier} {r : Region} {context : Context} {h : Digests} {records : List ℕ}

/-- `verifyBySignature` on a certificate table inside the file: the keyless server's word first,
then that of the loop. -/
theorem verifyBySignature_eq (hsigned : r.u32 (context.secDir + 4) ≠ 0)
    (htable : r.u32 (context.secDir + 4) + r.u32 context.secDir ≤ r.size) :
    verifyBySignature v r context h =
      (verifySignatures v r context h (r.u32 (context.secDir + 4)) 0 .notFound).map
        fun (result, method) => (match result with
          | .error e => e
          | .ok ret => if (httpStatus v r context).isError then ret else httpStatus v r context,
          method) := by
  unfold verifyBySignature
  simp only [hsigned, if_false, Nat.not_lt.mpr htable]
  rcases verifySignatures v r context h (r.u32 (context.secDir + 4)) 0 .notFound with
    _ | ⟨e | ret, method⟩
  · rfl
  · rfl
  · cases hhttp : (httpStatus v r context).isError <;> simp

/-- The run behind clean hash checks. -/
theorem verifyBufferAuthenticode_eq {chunks : List Chunk} {method : MethodChange}
    (hsize : r.size < 2 ^ 31) (hhash : generateHash r r.size context = .ok chunks)
    (hdenied : v.checkDenylist none (v.digests r chunks) = some .success)
    (hallowed : v.checkAllowlist none (v.digests r chunks) = some (.notFound, method)) :
    verifyBufferAuthenticode v r context =
      (verifyBySignature v r context (v.digests r chunks)).map
        fun (status, method') => (status, method' ∘ method) := by
  unfold verifyBufferAuthenticode
  simp only [Nat.not_le.mpr hsize, if_false, hhash, hdenied, hallowed, Option.bind_eq_bind,
    Option.bind_some]
  cases verifyBySignature v r context (v.digests r chunks) <;> simp

/-- At the decision the keyless server's word comes first, then that of the loop. -/
theorem ReachesDecision.accepts_iff (hreach : ReachesDecision v r context h records) :
    Accepts v r context ↔ httpStatus v r context = .success ∨
      (httpStatus v r context).isError ∧ ∃ sig ∈ records, v.Passes r h sig := by
  obtain ⟨chunks, hhash, rfl⟩ := hreach.hashed
  obtain ⟨method, hallowed⟩ := hreach.notAllowed
  obtain ⟨ret, change, hloop⟩ :
      ∃ ret change, verifySignatures _ _ _ _ _ _ .notFound = some (.ok ret, change) :=
    exists_verifySignatures hreach.walk hreach.returns
  obtain ⟨records', hrecords', -, hiff⟩ := (verifySignatures_finds hloop).2 ret rfl
  obtain rfl : records = records' := by simpa [hreach.walk] using hrecords'
  unfold Accepts
  rw [verifyBufferAuthenticode_eq hreach.size_lt hhash hreach.notDenied hallowed,
    verifyBySignature_eq hreach.signed hreach.table, hloop]
  cases hhttp : (httpStatus v r context).isError with
  | true => simpa [hhttp, EfiStatus.ne_success_of_isError hhttp] using hiff
  | false => simp

/-- A success behind the hash checks comes from the decision. -/
theorem reachesDecision_of_success {chunks : List Chunk} {method change : MethodChange}
    (hsize : r.size < 2 ^ 31) (hhash : generateHash r r.size context = .ok chunks)
    (hdenied : v.checkDenylist none (v.digests r chunks) = some .success)
    (hallowed : v.checkAllowlist none (v.digests r chunks) = some (.notFound, method))
    (hsig : verifyBySignature v r context (v.digests r chunks) = some (.success, change)) :
    ∃ records, ReachesDecision v r context (v.digests r chunks) records := by
  by_cases hsigned : r.u32 (context.secDir + 4) = 0
  · simp [verifyBySignature, hsigned] at hsig
  by_cases htable : r.size < r.u32 (context.secDir + 4) + r.u32 context.secDir
  · simp [verifyBySignature, hsigned, htable] at hsig
  rw [verifyBySignature_eq hsigned (Nat.not_lt.mp htable)] at hsig
  obtain ⟨⟨result, change'⟩, hloop, heq⟩ := Option.map_eq_some_iff.mp hsig
  obtain ⟨hfails, hok⟩ := verifySignatures_finds hloop
  rcases result with e | ret
  · have hstatus : e = .success := by simpa using congrArg Prod.fst heq
    simpa [hstatus] using hfails e rfl
  · obtain ⟨records, hwalk, hreturns, -⟩ := hok ret rfl
    exact ⟨records, hsize, ⟨chunks, hhash, rfl⟩, hdenied, ⟨method, hallowed⟩, hsigned,
      Nat.not_lt.mp htable, hwalk, hreturns⟩

/-- An accepted image was let through by a hash, or at the decision. -/
theorem accepts_cases (hacc : Accepts v r context) :
    AcceptedByHash v r context ∨ ∃ h records, ReachesDecision v r context h records := by
  obtain ⟨method, hacc⟩ := hacc
  by_cases hsize : 2 ^ 31 ≤ r.size
  · rw [verifyBufferAuthenticode, if_pos hsize] at hacc
    simp at hacc
  rcases hhash : generateHash r r.size context with e | chunks
  · simp only [verifyBufferAuthenticode, hsize, if_false, hhash, Option.some.injEq,
      Prod.mk.injEq] at hacc
    have := failsWithError_generateHash r r.size context e hhash
    simp [hacc.1] at this
  unfold verifyBufferAuthenticode at hacc
  simp only [hsize, if_false, hhash] at hacc
  obtain ⟨denied, hdenied, hacc⟩ := Option.bind_eq_some_iff.mp hacc
  rcases (Verifier.checkDenylist_spec hdenied).1 with rfl | rfl
  · obtain ⟨⟨allowed, change⟩, hallowed, hacc⟩ := Option.bind_eq_some_iff.mp hacc
    rcases (Verifier.checkAllowlist_spec hallowed).1 with rfl | rfl
    · exact .inl ⟨chunks, change, hhash, hdenied, hallowed⟩
    · obtain ⟨⟨status, change'⟩, hsig, hacc⟩ := Option.bind_eq_some_iff.mp hacc
      obtain ⟨rfl, -⟩ : status = .success ∧ change' ∘ change = method := by simpa using hacc
      exact .inr ⟨_, reachesDecision_of_success (Nat.not_le.mp hsize) hhash hdenied hallowed hsig⟩
  · simp at hacc

/-! ## Authentic images -/

/-- What acceptance promises: the image is on no deny list by a hash; and it is on an allow list by
a hash, or some signature that no deny-listed certificate matches verifies against an allow-listed,
build or vendor certificate, or the keyless server accepted a signature that no deny-listed
certificate matches. -/
def Authentic (v : Verifier) (r : Region) (context : Context) : Prop :=
  ∃ chunks, generateHash r r.size context = .ok chunks ∧
    ¬ v.HashDenied (v.digests r chunks) ∧
    (v.HashAllowed (v.digests r chunks) ∨
      (∃ records, pkcs7Records r context (r.u32 (context.secDir + 4)) 0 = .ok records ∧
        ∃ sig ∈ records, ¬ v.CertDenied (certData r sig) (v.digests r chunks) ∧
          v.CertTrusted (certData r sig) (v.digests r chunks)) ∨
      (httpStatus v r context = .success ∧
        ∃ sig ∈ lastPkcs7 r context (r.u32 (context.secDir + 4)) 0 none,
          ¬ v.CertDenied (certData r sig) (v.digests r chunks)))

/-- At every decision reached, some signature is good, or else nothing lets the image through: the
keyless server does not accept a deny-listed signature, and where it does not accept, the first
certificates of the lists let no signature through. -/
def NoLoophole (v : Verifier) (r : Region) (context : Context) : Prop :=
  ∀ h records, ReachesDecision v r context h records →
    (∃ sig ∈ records, ¬ v.CertDenied (certData r sig) h ∧ v.CertTrusted (certData r sig) h) ∨
    ((httpStatus v r context = .success →
        ∃ sig ∈ lastPkcs7 r context (r.u32 (context.secDir + 4)) 0 none,
          ¬ v.CertDenied (certData r sig) h) ∧
      ((httpStatus v r context).isError → ∀ sig ∈ records, ¬ v.PassesFirst (certData r sig) h))

/-- The hash checks behind a decision. -/
theorem ReachesDecision.hash_clean (hreach : ReachesDecision v r context h records) :
    ¬ v.HashDenied h ∧ ¬ v.HashAllowed h := by
  obtain ⟨method, hallowed⟩ := hreach.notAllowed
  constructor
  · simpa using (Verifier.checkDenylist_spec hreach.notDenied).2
  · simpa using (Verifier.checkAllowlist_spec hallowed).2

/-- At a decision, a record passes exactly if the first certificates let it through. -/
theorem ReachesDecision.passes_iff (hreach : ReachesDecision v r context h records) {sig : ℕ}
    (hsig : sig ∈ records) : v.Passes r h sig ↔ v.PassesFirst (certData r sig) h := by
  obtain ⟨⟨status, method⟩, hone⟩ := Option.isSome_iff_exists.mp (hreach.returns sig hsig)
  obtain ⟨hdenied, hallowed⟩ := hreach.hash_clean
  have hpasses : v.Passes r h sig ↔ status = .success := by simp [Verifier.Passes, hone]
  rw [hpasses, Verifier.verifyOneSignature_spec hone]
  simp [Verifier.PassesFirst, hdenied, hallowed]

/-- What is let through by a hash is authentic. -/
theorem AcceptedByHash.authentic (hacc : AcceptedByHash v r context) : Authentic v r context := by
  obtain ⟨chunks, method, hhash, hdenied, hallowed⟩ := hacc
  refine ⟨chunks, hhash, ?_, .inl ?_⟩
  · simpa using (Verifier.checkDenylist_spec hdenied).2
  · simpa using (Verifier.checkAllowlist_spec hallowed).2

/-- At a decision, authentic means authentic by a signature. -/
theorem ReachesDecision.authentic_iff (hreach : ReachesDecision v r context h records) :
    Authentic v r context ↔
      (∃ sig ∈ records, ¬ v.CertDenied (certData r sig) h ∧ v.CertTrusted (certData r sig) h) ∨
      (httpStatus v r context = .success ∧
        ∃ sig ∈ lastPkcs7 r context (r.u32 (context.secDir + 4)) 0 none,
          ¬ v.CertDenied (certData r sig) h) := by
  obtain ⟨hdenied, hallowed⟩ := hreach.hash_clean
  obtain ⟨chunks, hhash, rfl⟩ := hreach.hashed
  simp [Authentic, hhash, hreach.walk, hdenied, hallowed]

/-- `verify_buffer_authenticode` accepts authentic images only, exactly if there is no loophole. -/
theorem accepts_authentic_iff (v : Verifier) (r : Region) (context : Context) :
    (Accepts v r context → Authentic v r context) ↔ NoLoophole v r context := by
  constructor
  · intro hsafe h records hreach
    rw [hreach.accepts_iff, hreach.authentic_iff] at hsafe
    by_cases hgood : ∃ sig ∈ records,
        ¬ v.CertDenied (certData r sig) h ∧ v.CertTrusted (certData r sig) h
    · exact .inl hgood
    · rw [or_iff_right hgood] at hsafe
      refine .inr ⟨fun hhttp => (hsafe (.inl hhttp)).2, fun herror sig hsig hpass => ?_⟩
      have hhttp := (hsafe (.inr ⟨herror, sig, hsig, (hreach.passes_iff hsig).mpr hpass⟩)).1
      exact EfiStatus.ne_success_of_isError herror hhttp
  · intro hno hacc
    rcases accepts_cases hacc with hhash | ⟨h, records, hreach⟩
    · exact hhash.authentic
    · rw [hreach.authentic_iff]
      rcases hno h records hreach with hgood | ⟨hserver, hlocal⟩
      · exact .inl hgood
      · rcases hreach.accepts_iff.mp hacc with hhttp | ⟨herror, sig, hsig, hpass⟩
        · exact .inr ⟨hhttp, hserver hhttp⟩
        · exact absurd ((hreach.passes_iff hsig).mp hpass) (hlocal herror sig hsig)

/-! ## The loophole -/

/-- A dbx with one X.509 certificate. -/
def dbxWithCert : Region := .ofFields 0x20000 48
  [(0, certTypeX509Guid), (16, [48]), (24, [20]), (44, [0x30, 0x82, 0x00, 0x00])]

/-- Every signature verifies against the certificate in dbx, nothing is allow-listed, and the
keyless server accepts what it is asked about. -/
def deniedButRemote : Verifier where
  sha256 := fun _ => List.replicate 32 0
  sha1 := fun _ => List.replicate 20 0
  verifyEku := fun _ => true
  authenticodeVerify := fun _ _ _ => true
  extractVerificationData := fun _ _ => .ok ⟨[], [], []⟩
  osignHttpRequest := fun _ => .success
  vendorDeauthorized := .ofFields 0 0 []
  vendorDb := none
  db := none
  dbx := some dbxWithCert
  mokListRT := none
  mokListX := none
  ignoreDb := false
  buildCert := none
  vendorCert := none

/-- The only signature of the image is matched by a certificate in dbx, and the image is accepted
because the keyless server accepts that signature. -/
theorem not_accepts_authentic_remote :
    readHeader platformX64 signedImage = .ok signedContext ∧
      ¬ (Accepts deniedButRemote signedImage signedContext →
        Authentic deniedButRemote signedImage signedContext) := by
  refine ⟨by decide +kernel, fun hsafe => ?_⟩
  have hstatus : (verifyBufferAuthenticode deniedButRemote signedImage signedContext).map Prod.fst =
      some .success := by decide +kernel
  obtain ⟨⟨_, method⟩, hverdict, rfl⟩ := Option.map_eq_some_iff.mp hstatus
  obtain ⟨chunks, -, -, hauth⟩ := hsafe ⟨method, hverdict⟩
  have hdenied : ∀ c h, deniedButRemote.CertDenied c h :=
    fun c h => .inr (.inl ⟨dbxWithCert, rfl, 0, by decide +kernel, by decide +kernel, 0,
      by decide +kernel, Bool.and_eq_true_iff.mpr ⟨by decide +kernel, rfl⟩⟩)
  rcases hauth with hallowed | ⟨_, _, sig, _, hclean, _⟩ | ⟨_, sig, _, hclean⟩
  · simp [Verifier.HashAllowed, deniedButRemote] at hallowed
  · exact hclean (hdenied _ _)
  · exact hclean (hdenied _ _)

end Shim
