import Shim.Common.CText
import Shim.Common.Stretch
import Shim.MokManager.Commit

/-! # The buffers of the password methods

`password_crypt` and its methods (PasswordCrypt.c), and `crypt_blowfish_rn` as far as it goes over
its arguments (crypt_blowfish.c). The digests, what Blowfish makes of a key and a setting, and the
outcome of its self-test are parameters. A hash context is the bytes it was updated with. Behind the
structure may stand anything.
-/

namespace Shim.PasswordCrypt

open Stretch (Trail)

/-! ## The code -/

/-- The buffers: the fields of the structure before its salt, the salt, the password with its
terminator, the results of a method with its pools, and the hash of the caller. -/
inductive CryptBuffer where
  | fields
  | salt
  | password
  | altResult
  | tmpResult
  | pBytes
  | sBytes
  | result
  | hash
  deriving DecidableEq

/-- What the methods rely on, and whether the pools of a call are allocated. -/
structure CryptEnv where
  md5 : List UInt8 → List UInt8
  sha256 : List UInt8 → List UInt8
  sha512 : List UInt8 → List UInt8
  /-- The 61 characters that `BF_crypt` leaves for a key and a setting. -/
  blowfish : (key setting : List UInt8) → List UInt8
  /-- The self-test for the third character of a setting. -/
  selfTest : UInt8 → Bool
  pBytes : Bool
  sBytes : Bool

/-- What a method is called with: the password and the salt with their sizes, and the rounds. -/
structure CryptInput where
  key : List UInt8
  salt : List UInt8
  saltSize : ℕ
  rounds : ℕ

/-- `Update` with the first `n` bytes of a buffer. -/
def update (b : CryptBuffer) (bytes : List UInt8) (n : ℕ) (ctx : List UInt8) :
    Trail CryptBuffer (List UInt8) := do
  Trail.access b 0 n
  return ctx ++ bytes.take n

def CryptInput.updateKey (i : CryptInput) : List UInt8 → Trail CryptBuffer (List UInt8) :=
  update .password i.key i.key.length

def CryptInput.updateSalt (i : CryptInput) : List UInt8 → Trail CryptBuffer (List UInt8) :=
  update .salt i.salt i.saltSize

/-- `Final` into a buffer for a digest of `n` bytes. -/
def final (digest : List UInt8 → List UInt8) (b : CryptBuffer) (n : ℕ) (ctx : List UInt8) :
    Trail CryptBuffer (List UInt8) := do
  Trail.access b 0 n
  return digest ctx

/-- `for (cnt = key_len; cnt > n; cnt -= n)` with an update by the result, and what is left. -/
def updateWhole (n : ℕ) (altResult : List UInt8) :
    (fuel cnt : ℕ) → List UInt8 → Trail CryptBuffer (List UInt8)
  | 0, cnt, ctx => update .altResult altResult cnt ctx
  | fuel + 1, cnt, ctx =>
    if n < cnt then do
      let ctx ← update .altResult altResult n ctx
      updateWhole n altResult fuel (cnt - n) ctx
    else update .altResult altResult cnt ctx

/-- `for (cnt = key_len; cnt > 0; cnt >>= 1)` with an update for each bit. -/
def updateBits (one zero : List UInt8 → Trail CryptBuffer (List UInt8)) :
    (fuel cnt : ℕ) → List UInt8 → Trail CryptBuffer (List UInt8)
  | 0, _, ctx => pure ctx
  | fuel + 1, cnt, ctx =>
    if cnt = 0 then pure ctx
    else do
      let ctx ← (if cnt % 2 = 1 then one ctx else zero ctx)
      updateBits one zero fuel (cnt / 2) ctx

/-- `for (cnt = size; cnt >= n; cnt -= n)` with a copy of the result, and what is left; `filled` is
in the pool already. -/
def fillPool (b : CryptBuffer) (n : ℕ) (tmpResult : List UInt8) :
    (fuel cnt cp : ℕ) → (filled : List UInt8) → Trail CryptBuffer (List UInt8)
  | 0, cnt, cp, filled => do
    Trail.access .tmpResult 0 cnt
    Trail.access b cp cnt
    return filled ++ tmpResult.take cnt
  | fuel + 1, cnt, cp, filled =>
    if n ≤ cnt then do
      Trail.access .tmpResult 0 n
      Trail.access b cp n
      fillPool b n tmpResult fuel (cnt - n) (cp + n) (filled ++ tmpResult.take n)
    else do
      Trail.access .tmpResult 0 cnt
      Trail.access b cp cnt
      return filled ++ tmpResult.take cnt

/-- A round: `odd`, and `even` for the result, in turns, with `salt` and `key` between them. -/
def cryptRound (digest : List UInt8 → List UInt8) (n : ℕ)
    (salt key : List UInt8 → Trail CryptBuffer (List UInt8)) (cnt : ℕ) (altResult : List UInt8) :
    Trail CryptBuffer (List UInt8) := do
  let ctx ← (if cnt % 2 = 1 then key [] else update .altResult altResult n [])
  let ctx ← (if cnt % 3 ≠ 0 then salt ctx else pure ctx)
  let ctx ← (if cnt % 7 ≠ 0 then key ctx else pure ctx)
  let ctx ← (if cnt % 2 = 1 then update .altResult altResult n ctx else key ctx)
  final digest .altResult n ctx

/-- `CopyMem(hash, alt_result, n)`. -/
def copyHash (n : ℕ) (altResult : List UInt8) : Trail CryptBuffer (List UInt8) := do
  Trail.access .altResult 0 n
  Trail.access .hash 0 n
  return altResult.take n

/-- `md5_salt_prefix` without its terminator. -/
def md5SaltPrefix : List UInt8 := CText.ascii "$1$"

/-- `md5_crypt`. -/
def md5Crypt (e : CryptEnv) (i : CryptInput) : Trail CryptBuffer (List UInt8) := do
  let ctx ← i.updateKey []
  let ctx ← i.updateSalt (ctx ++ md5SaltPrefix)
  let altCtx ← i.updateKey []
  let altCtx ← i.updateSalt altCtx
  let altCtx ← i.updateKey altCtx
  let altResult ← final e.md5 .altResult 16 altCtx
  let ctx ← updateWhole 16 altResult i.key.length i.key.length ctx
  Trail.access .altResult 0 1
  let altResult := 0 :: altResult.tail
  let ctx ← updateBits (update .altResult altResult 1) (update .password i.key 1)
    i.key.length i.key.length ctx
  let altResult ← final e.md5 .altResult 16 ctx
  let altResult ← Trail.upTo (cryptRound e.md5 16 i.updateSalt i.updateKey) 1000 0 altResult
  copyHash 16 altResult

/-- `sha256_crypt` and `sha512_crypt`, which differ in the digest and its size. -/
def shaCrypt (digest : List UInt8 → List UInt8) (n : ℕ) (i : CryptInput) :
    Trail CryptBuffer (List UInt8) := do
  let ctx ← i.updateKey []
  let ctx ← i.updateSalt ctx
  let altCtx ← i.updateKey []
  let altCtx ← i.updateSalt altCtx
  let altCtx ← i.updateKey altCtx
  let altResult ← final digest .altResult n altCtx
  let ctx ← updateWhole n altResult i.key.length i.key.length ctx
  let ctx ← updateBits (update .altResult altResult n) i.updateKey i.key.length i.key.length ctx
  let altResult ← final digest .altResult n ctx
  let altCtx ← Trail.upTo (fun _ => i.updateKey) i.key.length 0 []
  let tmpResult ← final digest .tmpResult n altCtx
  let pBytes ← fillPool .pBytes n tmpResult i.key.length i.key.length 0 []
  Trail.access .altResult 0 1
  let altCtx ← Trail.upTo (fun _ => i.updateSalt) (16 + (altResult.headD 0).toNat) 0 []
  let tmpResult ← final digest .tmpResult n altCtx
  let sBytes ← fillPool .sBytes n tmpResult i.saltSize i.saltSize 0 []
  let altResult ← Trail.upTo (cryptRound digest n (update .sBytes sBytes i.saltSize)
    (update .pBytes pBytes i.key.length)) i.rounds 0 altResult
  copyHash n altResult

/-- `sha256_crypt`. -/
def sha256Crypt (e : CryptEnv) : CryptInput → Trail CryptBuffer (List UInt8) := shaCrypt e.sha256 32

/-- `sha512_crypt`. -/
def sha512Crypt (e : CryptEnv) : CryptInput → Trail CryptBuffer (List UInt8) := shaCrypt e.sha512 64

/-- Tests of characters of the setting, up to the first one that fails: where it looks and how far,
and whether it fails. -/
def readTests : List (ℕ × ℕ × Bool) → Trail CryptBuffer Bool
  | [] => pure true
  | (start, count, fails) :: tests => do
    Trail.access .salt start count
    if fails then pure false else readTests tests

/-- The tests of `BF_crypt` on `$2a$10$`; the subtypes are `a`, `x` and `y`. -/
def prefixTests (c : ℕ → UInt8) : List (ℕ × ℕ × Bool) :=
  [(0, 1, c 0 ≠ 0x24), (1, 1, c 1 ≠ 0x32), (2, 1, c 2 < 0x61), (2, 1, 0x7a < c 2),
    (2, 1, c 2 ≠ 0x61 ∧ c 2 ≠ 0x78 ∧ c 2 ≠ 0x79), (3, 1, c 3 ≠ 0x24), (4, 1, c 4 < 0x30),
    (4, 1, 0x33 < c 4), (5, 1, c 5 < 0x30), (5, 1, 0x39 < c 5), (4, 2, c 4 = 0x33 ∧ 0x31 < c 5),
    (6, 1, c 6 ≠ 0x24)]

/-- The exponent of `count`. -/
def bfCost (c : ℕ → UInt8) : ℕ := ((c 4).toNat - 48) * 10 + ((c 5).toNat - 48)

/-- A character that `BF_atoi64` has a value below 64 for. -/
def isBfChar (c : UInt8) : Bool :=
  0x2e ≤ c ∧ c ≤ 0x39 ∨ 0x41 ≤ c ∧ c ≤ 0x5a ∨ 0x61 ≤ c ∧ c ≤ 0x7a

/-- The characters that `BF_decode` takes for 16 bytes, in order. -/
def decodeTests (c : ℕ → UInt8) : List (ℕ × ℕ × Bool) :=
  (List.range 22).map fun k => (7 + k, 1, !isBfChar (c (7 + k)))

/-- How much of the key `BF_set_key` looks at: 72 characters, over and over from its start to its
terminator. -/
def keyReads (key : List UInt8) : ℕ := min 72 ((key.takeWhile (· ≠ 0)).length + 1)

/-- `BF_crypt` with a minimum of 16 rounds, over its key, its setting and its output. -/
def bfCrypt (e : CryptEnv) (i : CryptInput) : Trail CryptBuffer (Option (List UInt8)) := do
  let c := fun k => i.salt.getD k 0
  let good ← readTests (prefixTests c)
  if ¬ good then pure none
  else if 2 ^ bfCost c < 16 then pure none
  else do
    let decoded ← readTests (decodeTests c)
    if ¬ decoded then pure none
    else do
      Trail.access .password 0 (keyReads i.key)
      Trail.access .salt 0 28
      Trail.access .result 0 28
      Trail.access .salt 28 1
      Trail.access .result 28 1
      Trail.access .result 29 31
      Trail.access .result 60 1
      pure (some (e.blowfish i.key i.salt))

/-- `_crypt_output_magic`; what it writes is never used. -/
def cryptOutputMagic (i : CryptInput) : Trail CryptBuffer Unit := do
  Trail.access .result 0 3
  Trail.access .salt 0 1
  if i.salt.getD 0 0 = 0x2a then Trail.access .salt 1 1 else pure ()

/-- `crypt_blowfish_rn`. -/
def cryptBlowfishRn (e : CryptEnv) (i : CryptInput) : Trail CryptBuffer (Option (List UInt8)) := do
  cryptOutputMagic i
  match ← bfCrypt e i with
  | none =>
    if e.selfTest 0x61 then pure none
    else do
      cryptOutputMagic i
      pure none
  | some result =>
    Trail.access .salt 2 1
    if e.selfTest (i.salt.getD 2 0) then pure (some result)
    else do
      cryptOutputMagic i
      pure none

/-- `blowfish_crypt`; behind the result may stand anything. -/
def blowfishCrypt (e : CryptEnv) (i : CryptInput) :
    Trail CryptBuffer (Except EfiStatus (List UInt8)) := do
  match ← cryptBlowfishRn e i with
  | none => pure (.error .unsupported)
  | some result =>
    Trail.access .result (7 + 22) 61
    Trail.access .hash 0 61
    pure (.ok (result.drop (7 + 22)))

/-- What a method is called with for a password and a `PASSWORD_CRYPT`. -/
def cryptInput (password : List UInt8) (pwCrypt : Region) : CryptInput where
  key := password
  salt := pwCrypt.bytes 12 (pwCrypt.u16 10)
  saltSize := pwCrypt.u16 10
  rounds := pwCrypt.u64 2 % 2 ^ 32

/-- A method on its input. -/
def cryptMethod (e : CryptEnv) (method : ℕ) (i : CryptInput) :
    Trail CryptBuffer (Except EfiStatus (List UInt8)) :=
  match method with
  | 2 => do return .ok (← md5Crypt e i)
  | 3 => do
    Trail.access .fields 2 8
    return .ok (← sha256Crypt e i)
  | 4 => do
    Trail.access .fields 2 8
    return .ok (← sha512Crypt e i)
  | _ => blowfishCrypt e i

/-- `password_crypt`. -/
def cryptPassword (e : CryptEnv) (password : List UInt8) (pwCrypt : Region) :
    Trail CryptBuffer (Except EfiStatus (List UInt8)) := do
  Trail.access .fields 0 2
  match pwCrypt.u16 0 with
  | 0 | 1 => pure (.error .unsupported)
  | 2 | 3 | 4 => do
    Trail.access .fields 10 2
    cryptMethod e (pwCrypt.u16 0) (cryptInput password pwCrypt)
  | 5 => do
    Trail.access .fields 10 2
    if pwCrypt.u16 10 ≠ 7 + 22 + 1 then pure (.error .invalidParameter)
    else cryptMethod e 5 (cryptInput password pwCrypt)
  | _ => pure (.error .invalidParameter)

/-! ## What is expected -/

/-- A password that `match_password` takes. -/
structure EnteredPassword where
  text : List UInt16
  length_pos : 1 ≤ text.length
  length_le : text.length ≤ 256

/-- How large the buffers are. -/
def CryptBuffer.size (e : CryptEnv) (password : List UInt8) (pwCrypt : Region) : CryptBuffer → ℕ
  | .fields => 12
  | .salt => 32
  | .password => password.length + 1
  | .altResult => getHashSize (pwCrypt.u16 0)
  | .tmpResult => getHashSize (pwCrypt.u16 0)
  | .pBytes => if e.pBytes then password.length else 0
  | .sBytes => if e.sBytes then pwCrypt.u16 10 else 0
  | .result => 7 + 22 + 31 + 1
  | .hash => 128

/-- A call reads and writes inside of the buffers only. -/
def StaysInBuffers (e : CryptEnv) (password : EnteredPassword) (pwCrypt : Region) : Prop :=
  let key := asciiBytes password.text
  (cryptPassword e key pwCrypt).StaysIn (CryptBuffer.size e key pwCrypt)

/-! ## When it is met -/

/-- The setting has the form `BF_crypt` asks for. -/
def IsBfSetting (c : ℕ → UInt8) : Prop :=
  (∀ t ∈ prefixTests c, t.2.2 = false) ∧ 4 ≤ bfCost c ∧ ∀ k < 22, isBfChar (c (7 + k)) = true

instance (c : ℕ → UInt8) : Decidable (IsBfSetting c) := inferInstanceAs (Decidable (_ ∧ _ ∧ _))

/-- The characters of the salt. -/
def saltChar (pwCrypt : Region) (k : ℕ) : UInt8 := (pwCrypt.bytes 12 (pwCrypt.u16 10)).getD k 0

/-- The salt has room for the size given for it, the pools are allocated, and no hash comes of the
Blowfish method. -/
def FitsBuffers (e : CryptEnv) (pwCrypt : Region) : Prop :=
  let saltSize := pwCrypt.u16 10
  match pwCrypt.u16 0 with
  | 2 => saltSize ≤ 32
  | 3 | 4 => saltSize ≤ 32 ∧ e.pBytes = true ∧ (saltSize = 0 ∨ e.sBytes = true)
  | 5 => saltSize = 30 →
    ¬ (IsBfSetting (saltChar pwCrypt) ∧ e.selfTest (saltChar pwCrypt 2) = true)
  | _ => True

/-! ## Hash contexts -/

section Contexts

variable {sizes : CryptBuffer → ℕ} {n : ℕ} {altResult ctx : List UInt8} {i : CryptInput}

/-- An update reads as many bytes as it is told. -/
@[simp] theorem staysIn_update (b : CryptBuffer) (bytes : List UInt8) (n : ℕ) (ctx : List UInt8) :
    (update b bytes n ctx).StaysIn sizes ↔ n ≤ sizes b := by
  simp [update]

/-- An update by the key reads the password. -/
@[simp] theorem staysIn_updateKey :
    (i.updateKey ctx).StaysIn sizes ↔ i.key.length ≤ sizes .password := staysIn_update _ _ _ _

/-- An update by the salt reads the salt. -/
@[simp] theorem staysIn_updateSalt :
    (i.updateSalt ctx).StaysIn sizes ↔ i.saltSize ≤ sizes .salt := staysIn_update _ _ _ _

/-- A digest is written to a buffer that is large enough. -/
@[simp] theorem staysIn_final (digest : List UInt8 → List UInt8) (b : CryptBuffer) (n : ℕ)
    (ctx : List UInt8) : (final digest b n ctx).StaysIn sizes ↔ n ≤ sizes b := by
  simp [final]

/-- The hash is copied between two buffers that are large enough. -/
@[simp] theorem staysIn_copyHash :
    (copyHash n altResult).StaysIn sizes ↔ n ≤ sizes .altResult ∧ n ≤ sizes .hash := by
  simp [copyHash]

/-- The result is read up to its end at most. -/
theorem staysIn_updateWhole (hn : 0 < n) (hsize : n ≤ sizes .altResult) {fuel cnt : ℕ}
    (hfuel : cnt ≤ fuel) : (updateWhole n altResult fuel cnt ctx).StaysIn sizes := by
  induction fuel generalizing cnt ctx with
  | zero =>
    rw [updateWhole, staysIn_update]
    omega
  | succ fuel ih =>
    rw [updateWhole]
    split_ifs with h
    · rw [Trail.staysIn_bind, staysIn_update]
      exact ⟨hsize, ih (by omega)⟩
    · rw [staysIn_update]
      omega

/-- The loop over the bits stays where its updates do. -/
theorem staysIn_updateBits {one zero : List UInt8 → Trail CryptBuffer (List UInt8)}
    (hone : ∀ ctx, (one ctx).StaysIn sizes) (hzero : ∀ ctx, (zero ctx).StaysIn sizes)
    (fuel cnt : ℕ) : (updateBits one zero fuel cnt ctx).StaysIn sizes := by
  induction fuel generalizing cnt ctx with
  | zero => exact Trail.staysIn_pure _
  | succ fuel ih =>
    rw [updateBits]
    refine Trail.staysIn_ite (Trail.staysIn_pure _) ?_
    rw [Trail.staysIn_bind]
    exact ⟨Trail.staysIn_ite (hone ctx) (hzero ctx), ih _⟩

/-- A pool is filled up to the size it is to have. -/
theorem staysIn_fillPool {b : CryptBuffer} {tmpResult filled : List UInt8} (hn : 0 < n)
    (hsize : n ≤ sizes .tmpResult) {fuel cnt cp : ℕ} (hfuel : cnt ≤ fuel) :
    (fillPool b n tmpResult fuel cnt cp filled).StaysIn sizes ↔ cp + cnt ≤ sizes b := by
  induction fuel generalizing cnt cp filled with
  | zero =>
    rw [fillPool]
    simp
    omega
  | succ fuel ih =>
    rw [fillPool]
    split_ifs with h
    · simp only [Trail.staysIn_bind, Trail.staysIn_access, ih (show cnt - n ≤ fuel by omega)]
      omega
    · simp
      omega

/-- A round stays where its updates do. -/
theorem staysIn_cryptRound {digest : List UInt8 → List UInt8}
    {salt key : List UInt8 → Trail CryptBuffer (List UInt8)} (hsalt : ∀ c, (salt c).StaysIn sizes)
    (hkey : ∀ c, (key c).StaysIn sizes) (hsize : n ≤ sizes .altResult) (cnt : ℕ) :
    (cryptRound digest n salt key cnt altResult).StaysIn sizes := by
  have hresult : ∀ c, (update .altResult altResult n c).StaysIn sizes :=
    fun c => (staysIn_update _ _ _ _).mpr hsize
  rw [cryptRound]
  simp only [Trail.staysIn_bind, staysIn_final]
  have hnothing : ∀ c : List UInt8, (pure c : Trail CryptBuffer (List UInt8)).StaysIn sizes :=
    fun c => Trail.staysIn_pure c
  exact ⟨Trail.staysIn_ite (hkey _) (hresult _), Trail.staysIn_ite (hsalt _) (hnothing _),
    Trail.staysIn_ite (hkey _) (hnothing _), Trail.staysIn_ite (hresult _) (hkey _), hsize⟩

end Contexts

/-! ## Methods -/

section Methods

variable {sizes : CryptBuffer → ℕ} {n : ℕ} {e : CryptEnv} {i : CryptInput}

/-- MD5 stays inside if and only if the salt does. -/
theorem staysIn_md5Crypt (hkey : i.key.length < sizes .password) (hresult : 16 ≤ sizes .altResult)
    (hhash : 16 ≤ sizes .hash) :
    (md5Crypt e i).StaysIn sizes ↔ i.saltSize ≤ sizes .salt := by
  have hwhole : ∀ altResult ctx,
      (updateWhole 16 altResult i.key.length i.key.length ctx).StaysIn sizes :=
    fun _ _ => staysIn_updateWhole (by decide) hresult le_rfl
  have hbits : ∀ altResult ctx, (updateBits (update .altResult altResult 1)
      (update .password i.key 1) i.key.length i.key.length ctx).StaysIn sizes :=
    fun _ _ => staysIn_updateBits (fun _ => (staysIn_update _ _ _ _).mpr (by omega))
      (fun _ => (staysIn_update _ _ _ _).mpr (by omega)) _ _
  have hrounds : i.saltSize ≤ sizes .salt → ∀ altResult,
      (Trail.upTo (cryptRound e.md5 16 i.updateSalt i.updateKey) 1000 0 altResult).StaysIn sizes :=
    fun hsalt _ => Trail.staysIn_upTo (fun cnt _ =>
      staysIn_cryptRound (fun _ => staysIn_updateSalt.mpr hsalt)
        (fun _ => staysIn_updateKey.mpr hkey.le) hresult cnt) _ _ _
  rw [md5Crypt]
  simp only [Trail.staysIn_bind, staysIn_updateKey, staysIn_updateSalt, staysIn_final,
    staysIn_copyHash, Trail.staysIn_access]
  constructor
  · rintro ⟨-, hsalt, -⟩
    exact hsalt
  · intro hsalt
    exact ⟨hkey.le, hsalt, hkey.le, hsalt, hkey.le, hresult, hwhole _ _, by omega, hbits _ _,
      hresult, hrounds hsalt _, hresult, hhash⟩

/-- The SHA methods stay inside if and only if the salt does, and the pools are as large as what is
copied to them. -/
theorem staysIn_shaCrypt {digest : List UInt8 → List UInt8} (hn : 0 < n)
    (hkey : i.key.length ≤ sizes .password) (hresult : n ≤ sizes .altResult)
    (htmp : n ≤ sizes .tmpResult) (hhash : n ≤ sizes .hash) :
    (shaCrypt digest n i).StaysIn sizes ↔
      i.saltSize ≤ sizes .salt ∧ i.key.length ≤ sizes .pBytes ∧ i.saltSize ≤ sizes .sBytes := by
  -- the loops read the key and the digest only; the salt and the pools decide
  have hwhole : ∀ altResult ctx,
      (updateWhole n altResult i.key.length i.key.length ctx).StaysIn sizes :=
    fun _ _ => staysIn_updateWhole hn hresult le_rfl
  have hbits : ∀ altResult ctx, (updateBits (update .altResult altResult n) i.updateKey
      i.key.length i.key.length ctx).StaysIn sizes :=
    fun _ _ => staysIn_updateBits (fun _ => (staysIn_update _ _ _ _).mpr hresult)
      (fun _ => staysIn_updateKey.mpr hkey) _ _
  have hkeys : ∀ ctx, (Trail.upTo (fun _ => i.updateKey) i.key.length 0 ctx).StaysIn sizes :=
    fun _ => Trail.staysIn_upTo (fun _ _ => staysIn_updateKey.mpr hkey) _ _ _
  have hsalts : i.saltSize ≤ sizes .salt → ∀ m ctx,
      (Trail.upTo (fun _ => i.updateSalt) m 0 ctx).StaysIn sizes :=
    fun hsalt _ _ => Trail.staysIn_upTo (fun _ _ => staysIn_updateSalt.mpr hsalt) _ _ _
  have hrounds : i.key.length ≤ sizes .pBytes → i.saltSize ≤ sizes .sBytes →
      ∀ pBytes sBytes altResult, (Trail.upTo (cryptRound digest n
        (update .sBytes sBytes i.saltSize) (update .pBytes pBytes i.key.length)) i.rounds 0
          altResult).StaysIn sizes :=
    fun hp hs _ _ _ => Trail.staysIn_upTo (fun cnt _ =>
      staysIn_cryptRound (fun _ => (staysIn_update _ _ _ _).mpr hs)
        (fun _ => (staysIn_update _ _ _ _).mpr hp) hresult cnt) _ _ _
  rw [shaCrypt]
  simp only [Trail.staysIn_bind, staysIn_updateKey, staysIn_updateSalt, staysIn_final,
    staysIn_copyHash, Trail.staysIn_access, staysIn_fillPool hn htmp le_rfl, Nat.zero_add]
  constructor
  · rintro ⟨-, hsalt, -, -, -, -, -, -, -, -, -, hp, -, -, -, hs, -⟩
    exact ⟨hsalt, hp, hs⟩
  · rintro ⟨hsalt, hp, hs⟩
    exact ⟨hkey, hsalt, hkey, hsalt, hkey, hresult, hwhole _ _, hbits _ _, hresult, hkeys _, htmp,
      hp, by omega, hsalts hsalt _ _, htmp, hs, hrounds hp hs _ _ _, hresult, hhash⟩

end Methods

/-! ## Blowfish -/

section Blowfish

variable {sizes : CryptBuffer → ℕ} {e : CryptEnv} {i : CryptInput}

/-- The tests of a setting read the salt. -/
theorem staysIn_readTests {tests : List (ℕ × ℕ × Bool)}
    (h : ∀ t ∈ tests, t.1 + t.2.1 ≤ sizes .salt) : (readTests tests).StaysIn sizes := by
  induction tests with
  | nil => exact Trail.staysIn_pure _
  | cons t tests ih =>
    obtain ⟨hfirst, hrest⟩ := List.forall_mem_cons.mp h
    rw [readTests, Trail.staysIn_bind, Trail.staysIn_access]
    exact ⟨hfirst, Trail.staysIn_ite (Trail.staysIn_pure _) (ih hrest)⟩

/-- They pass if each of them does. -/
theorem value_readTests (tests : List (ℕ × ℕ × Bool)) :
    (readTests tests).value = true ↔ ∀ t ∈ tests, t.2.2 = false := by
  induction tests with
  | nil => simp [readTests, pure]
  | cons t tests ih =>
    obtain ⟨start, count, fails⟩ := t
    rw [List.forall_mem_cons, ← ih]
    cases fails with
    | false => exact (and_iff_right rfl).symm
    | true => exact iff_of_false Bool.false_ne_true fun h => Bool.false_ne_true h.1.symm

variable (hsalt : 29 ≤ sizes .salt)

include hsalt

/-- The tests of the prefix read inside of the salt. -/
theorem staysIn_prefixTests (c : ℕ → UInt8) : (readTests (prefixTests c)).StaysIn sizes := by
  refine staysIn_readTests ?_
  simp only [prefixTests, List.forall_mem_cons, List.not_mem_nil, IsEmpty.forall_iff, implies_true,
    and_true]
  omega

/-- So do those of the encoded salt. -/
theorem staysIn_decodeTests (c : ℕ → UInt8) : (readTests (decodeTests c)).StaysIn sizes := by
  refine staysIn_readTests fun t ht => ?_
  obtain ⟨k, hk, rfl⟩ := List.mem_map.mp ht
  have := List.mem_range.mp hk
  dsimp only
  omega

omit hsalt in
/-- These pass if 22 characters are of the alphabet. -/
theorem forall_decodeTests (c : ℕ → UInt8) :
    (∀ t ∈ decodeTests c, t.2.2 = false) ↔ ∀ k < 22, isBfChar (c (7 + k)) = true := by
  rw [decodeTests, List.forall_mem_map]
  simp

omit hsalt in
/-- The key is read up to its NUL at most. -/
theorem keyReads_le (key : List UInt8) : keyReads key ≤ key.length + 1 := by
  have hle : (key.takeWhile (· ≠ 0)).length ≤ key.length := (List.takeWhile_sublist _).length_le
  exact (min_le_right _ _).trans (Nat.succ_le_succ hle)

omit hsalt in
/-- A setting of the right form is encrypted with. -/
theorem value_bfCrypt : (bfCrypt e i).value =
    if IsBfSetting (fun k => i.salt.getD k 0) then some (e.blowfish i.key i.salt) else none := by
  set c := fun k => i.salt.getD k 0 with hc
  have hcost : 2 ^ bfCost c < 16 ↔ ¬ 4 ≤ bfCost c := by
    rw [show (16 : ℕ) = 2 ^ 4 from rfl, Nat.pow_lt_pow_iff_right (by decide), not_le]
  rw [bfCrypt]
  simp only [Trail.value_bind, Trail.value_ite, Trail.value_pure, value_readTests,
    forall_decodeTests, hcost, ← hc]
  by_cases hstart : ∀ t ∈ prefixTests c, t.2.2 = false
  · by_cases hc4 : 4 ≤ bfCost c
    · by_cases hdecode : ∀ k < 22, isBfChar (c (7 + k)) = true
      · rw [if_neg (not_not.mpr hstart), if_neg (not_not.mpr hc4), if_neg (not_not.mpr hdecode),
          if_pos ⟨hstart, hc4, hdecode⟩]
      · rw [if_neg (not_not.mpr hstart), if_neg (not_not.mpr hc4), if_pos hdecode,
          if_neg fun h => hdecode h.2.2]
    · rw [if_neg (not_not.mpr hstart), if_pos hc4, if_neg fun h => hc4 h.2.1]
  · rw [if_pos hstart, if_neg fun h => hstart h.1]

/-- The encryption stays in its buffers. -/
theorem staysIn_bfCrypt (hkey : i.key.length < sizes .password) (hresult : 61 ≤ sizes .result) :
    (bfCrypt e i).StaysIn sizes := by
  rw [bfCrypt]
  refine (Trail.staysIn_bind _ _).mpr ⟨staysIn_prefixTests hsalt _, ?_⟩
  refine Trail.staysIn_ite (Trail.staysIn_pure _) (Trail.staysIn_ite (Trail.staysIn_pure _) ?_)
  refine (Trail.staysIn_bind _ _).mpr ⟨staysIn_decodeTests hsalt _, ?_⟩
  refine Trail.staysIn_ite (Trail.staysIn_pure _) ?_
  have hreads := keyReads_le i.key
  simp only [Trail.staysIn_bind, Trail.staysIn_access, Trail.staysIn_pure, and_true]
  omega

/-- So does the mark of a failure. -/
theorem staysIn_cryptOutputMagic (hresult : 61 ≤ sizes .result) :
    (cryptOutputMagic i).StaysIn sizes := by
  rw [cryptOutputMagic]
  simp only [Trail.staysIn_bind, Trail.staysIn_access]
  refine ⟨by omega, by omega, Trail.staysIn_ite ?_ (Trail.staysIn_pure _)⟩
  rw [Trail.staysIn_access]
  omega

omit hsalt in
/-- A hash comes of a setting in form, if the self-test does not fail. -/
theorem value_cryptBlowfishRn : (cryptBlowfishRn e i).value =
    if IsBfSetting (fun k => i.salt.getD k 0) ∧ e.selfTest (i.salt.getD 2 0) = true then
      some (e.blowfish i.key i.salt)
    else none := by
  rw [cryptBlowfishRn, Trail.value_bind, Trail.value_bind, value_bfCrypt]
  by_cases hsetting : IsBfSetting (fun k => i.salt.getD k 0)
  · rw [if_pos hsetting]
    dsimp only
    rw [Trail.value_bind, Trail.value_ite]
    by_cases htest : e.selfTest (i.salt.getD 2 0) = true
    · rw [if_pos htest, if_pos ⟨hsetting, htest⟩]
      rfl
    · rw [if_neg htest, if_neg fun h => htest h.2]
      rfl
  · rw [if_neg hsetting, if_neg (not_and_of_not_left _ hsetting)]
    dsimp only
    rw [Trail.value_ite]
    exact ite_self _

/-- So does the whole call. -/
theorem staysIn_cryptBlowfishRn (hkey : i.key.length < sizes .password)
    (hresult : 61 ≤ sizes .result) : (cryptBlowfishRn e i).StaysIn sizes := by
  have hmagic := staysIn_cryptOutputMagic hsalt hresult (i := i)
  have hagain : (do cryptOutputMagic i; pure none : Trail CryptBuffer (Option (List UInt8))).StaysIn
      sizes := (Trail.staysIn_bind _ _).mpr ⟨hmagic, Trail.staysIn_pure _⟩
  rw [cryptBlowfishRn]
  refine (Trail.staysIn_bind _ _).mpr ⟨hmagic, (Trail.staysIn_bind _ _).mpr
    ⟨staysIn_bfCrypt hsalt hkey hresult, ?_⟩⟩
  cases (bfCrypt e i).value with
  | none => exact Trail.staysIn_ite (Trail.staysIn_pure _) hagain
  | some result =>
    refine (Trail.staysIn_bind _ _).mpr ⟨?_, Trail.staysIn_ite (Trail.staysIn_pure _) hagain⟩
    rw [Trail.staysIn_access]
    omega

/-- The copy of the hash goes behind the result. -/
theorem staysIn_blowfishCrypt (hkey : i.key.length < sizes .password)
    (hresult : sizes .result = 61) : (blowfishCrypt e i).StaysIn sizes ↔
      ¬(IsBfSetting (fun k => i.salt.getD k 0) ∧ e.selfTest (i.salt.getD 2 0) = true) := by
  rw [blowfishCrypt, Trail.staysIn_bind, value_cryptBlowfishRn,
    and_iff_right (staysIn_cryptBlowfishRn hsalt hkey hresult.ge)]
  by_cases hhash : IsBfSetting (fun k => i.salt.getD k 0) ∧ e.selfTest (i.salt.getD 2 0) = true
  · rw [if_pos hhash]
    refine iff_of_false ?_ (not_not.mpr hhash)
    dsimp only
    rw [Trail.staysIn_bind, Trail.staysIn_access]
    rintro ⟨hcopy, -⟩
    omega
  · rw [if_neg hhash]
    exact iff_of_true (Trail.staysIn_pure _) hhash

end Blowfish

/-! ## A call -/

section Call

variable (e : CryptEnv) (password : EnteredPassword) (pwCrypt : Region)

/-- A password has a byte for each character. -/
theorem length_asciiBytes (text : List UInt16) : (asciiBytes text).length = text.length := by
  simp [asciiBytes]

/-- The pool of the password is large enough if it is there. -/
theorem le_size_pBytes {key : List UInt8} (hkey : 0 < key.length) :
    key.length ≤ CryptBuffer.size e key pwCrypt .pBytes ↔ e.pBytes = true := by
  rw [CryptBuffer.size]
  split_ifs with h
  · exact iff_of_true le_rfl h
  · exact iff_of_false (by omega) h

/-- The pool of the salt is large enough if it is there, or if nothing is put into it. -/
theorem le_size_sBytes (key : List UInt8) :
    pwCrypt.u16 10 ≤ CryptBuffer.size e key pwCrypt .sBytes ↔
      pwCrypt.u16 10 = 0 ∨ e.sBytes = true := by
  rw [CryptBuffer.size]
  split_ifs with h
  · exact iff_of_true le_rfl (.inr h)
  · rw [Nat.le_zero]
    exact (or_iff_left h).symm

/-- The methods there are, and others. -/
theorem method_cases (method : ℕ) : method = 0 ∨ method = 1 ∨ method = 2 ∨ method = 3 ∨
    method = 4 ∨ method = 5 ∨ ∃ m, method = m + 6 := by
  by_cases h : method < 6
  · omega
  · exact .inr (.inr (.inr (.inr (.inr (.inr ⟨method - 6, by omega⟩)))))

/-- The hashes as `match_password` takes them. -/
def CryptEnv.crypto (e : CryptEnv) : Crypto where
  sha256 := fun data => some (e.sha256 data)
  crypt := fun method password pwCrypt =>
    (cryptMethod e method (cryptInput password pwCrypt)).value

/-- What a call computes is what `match_password` compares. -/
theorem value_cryptPassword (key : List UInt8) :
    (cryptPassword e key pwCrypt).value = passwordCrypt e.crypto key pwCrypt := by
  rw [cryptPassword, passwordCrypt, Trail.value_bind]
  rcases method_cases (pwCrypt.u16 0) with h | h | h | h | h | h | ⟨m, h⟩
  · simp only [h, Trail.value_pure]
  · simp only [h, Trail.value_pure]
  · simp only [h, Trail.value_bind]
    rfl
  · simp only [h, Trail.value_bind]
    rfl
  · simp only [h, Trail.value_bind]
    rfl
  · simp only [h, Trail.value_bind, Trail.value_ite, Trail.value_pure]
    rfl
  · simp only [h, Trail.value_pure]

variable {e password pwCrypt}

/-- A password is not empty. -/
theorem length_password_pos : 0 < (asciiBytes password.text).length := by
  rw [length_asciiBytes]
  exact password.length_pos

/-- The key of a call fits into its buffer with the terminator. -/
theorem length_key_lt {key : List UInt8} : (cryptInput key pwCrypt).key.length <
    CryptBuffer.size e key pwCrypt .password := Nat.lt_succ_self _

/-- For the three digests only the method itself matters. -/
theorem staysIn_method {method : ℕ} (h : pwCrypt.u16 0 = method) {key : List UInt8}
    (hmethod : 2 ≤ method) (hle : method ≤ 4) :
    (cryptPassword e key pwCrypt).StaysIn (CryptBuffer.size e key pwCrypt) ↔
      (cryptMethod e method (cryptInput key pwCrypt)).StaysIn (CryptBuffer.size e key pwCrypt) := by
  have hfirst : 0 + 2 ≤ CryptBuffer.size e key pwCrypt .fields := show 0 + 2 ≤ 12 by decide
  have hsaltSize : 10 + 2 ≤ CryptBuffer.size e key pwCrypt .fields := show 10 + 2 ≤ 12 by decide
  rw [cryptPassword, Trail.staysIn_bind, Trail.staysIn_access, and_iff_right hfirst]
  obtain rfl | rfl | rfl : method = 2 ∨ method = 3 ∨ method = 4 := by omega
  all_goals
    simp only [h, Trail.staysIn_bind, Trail.staysIn_access]
    exact and_iff_right hsaltSize

/-- The condition for MD5. -/
theorem staysInBuffers_md5 (h : pwCrypt.u16 0 = 2) :
    StaysInBuffers e password pwCrypt ↔ pwCrypt.u16 10 ≤ 32 := by
  have hresult : 16 ≤ CryptBuffer.size e (asciiBytes password.text) pwCrypt .altResult := by
    rw [CryptBuffer.size, h]
    decide
  rw [StaysInBuffers, staysIn_method h le_rfl (by decide), cryptMethod, Trail.staysIn_bind]
  refine (and_iff_left (Trail.staysIn_pure _)).trans ?_
  exact staysIn_md5Crypt length_key_lt hresult (show 16 ≤ 128 by decide)

/-- A SHA method on a call. -/
theorem staysIn_shaCrypt_size {digest : List UInt8 → List UInt8} {n : ℕ} (hn : 0 < n)
    (hle : n ≤ 128) (hsize : getHashSize (pwCrypt.u16 0) = n) :
    (shaCrypt digest n (cryptInput (asciiBytes password.text) pwCrypt)).StaysIn
        (CryptBuffer.size e (asciiBytes password.text) pwCrypt) ↔
      pwCrypt.u16 10 ≤ 32 ∧ e.pBytes = true ∧ (pwCrypt.u16 10 = 0 ∨ e.sBytes = true) := by
  rw [staysIn_shaCrypt hn length_key_lt.le hsize.ge hsize.ge hle]
  exact and_congr_right fun _ =>
    and_congr (le_size_pBytes e pwCrypt length_password_pos) (le_size_sBytes e pwCrypt _)

/-- The condition for both SHA methods. -/
theorem staysInBuffers_sha (h : pwCrypt.u16 0 = 3 ∨ pwCrypt.u16 0 = 4) :
    StaysInBuffers e password pwCrypt ↔
      pwCrypt.u16 10 ≤ 32 ∧ e.pBytes = true ∧ (pwCrypt.u16 10 = 0 ∨ e.sBytes = true) := by
  have hrounds : 2 + 8 ≤ CryptBuffer.size e (asciiBytes password.text) pwCrypt .fields :=
    show 2 + 8 ≤ 12 by decide
  rw [StaysInBuffers]
  rcases h with h | h
  all_goals
    rw [staysIn_method h (by decide) (by decide), cryptMethod, Trail.staysIn_bind,
      Trail.staysIn_access, and_iff_right hrounds, Trail.staysIn_bind]
    refine (and_iff_left (Trail.staysIn_pure _)).trans ?_
    exact staysIn_shaCrypt_size (by decide) (by decide) (by rw [h]; rfl)

/-- The condition for Blowfish. -/
theorem staysInBuffers_blowfish (h : pwCrypt.u16 0 = 5) :
    StaysInBuffers e password pwCrypt ↔ (pwCrypt.u16 10 = 30 →
      ¬(IsBfSetting (saltChar pwCrypt) ∧ e.selfTest (saltChar pwCrypt 2) = true)) := by
  have hfirst : 0 + 2 ≤ CryptBuffer.size e (asciiBytes password.text) pwCrypt .fields :=
    show 0 + 2 ≤ 12 by decide
  have hsaltSize : 10 + 2 ≤ CryptBuffer.size e (asciiBytes password.text) pwCrypt .fields :=
    show 10 + 2 ≤ 12 by decide
  rw [StaysInBuffers, cryptPassword, Trail.staysIn_bind, Trail.staysIn_access,
    and_iff_right hfirst]
  simp only [h, Trail.staysIn_bind, Trail.staysIn_access]
  rw [and_iff_right hsaltSize]
  by_cases hsize : pwCrypt.u16 10 = 30
  · rw [if_neg (not_not.mpr hsize), imp_iff_right hsize]
    exact staysIn_blowfishCrypt (show 29 ≤ 32 by decide) length_key_lt rfl
  · rw [if_pos hsize]
    exact iff_of_true (Trail.staysIn_pure _) fun h => absurd h hsize

/-- Without a method there is nothing to read but the number of the method. -/
theorem staysInBuffers_other (h : pwCrypt.u16 0 = 0 ∨ pwCrypt.u16 0 = 1 ∨
    ∃ m, pwCrypt.u16 0 = m + 6) : StaysInBuffers e password pwCrypt := by
  have hfirst : 0 + 2 ≤ CryptBuffer.size e (asciiBytes password.text) pwCrypt .fields :=
    show 0 + 2 ≤ 12 by decide
  rw [StaysInBuffers, cryptPassword, Trail.staysIn_bind, Trail.staysIn_access,
    and_iff_right hfirst]
  rcases h with h | h | ⟨m, h⟩ <;> simp only [h, Trail.staysIn_pure]

/-- A call stays in its buffers if and only if the salt has room for the size that is given for it,
the pools of the SHA methods are allocated, and no hash comes of the Blowfish method. -/
theorem staysInBuffers_iff (e : CryptEnv) (password : EnteredPassword) (pwCrypt : Region) :
    StaysInBuffers e password pwCrypt ↔ FitsBuffers e pwCrypt := by
  rw [FitsBuffers]
  rcases method_cases (pwCrypt.u16 0) with h | h | h | h | h | h | ⟨m, h⟩
  · simp only [h, iff_true]
    exact staysInBuffers_other (.inl h)
  · simp only [h, iff_true]
    exact staysInBuffers_other (.inr (.inl h))
  · simp only [h]
    exact staysInBuffers_md5 h
  · simp only [h]
    exact staysInBuffers_sha (.inl h)
  · simp only [h]
    exact staysInBuffers_sha (.inr h)
  · simp only [h]
    exact staysInBuffers_blowfish h
  · simp only [h, iff_true]
    exact staysInBuffers_other (.inr (.inr ⟨m, h⟩))

end Call

/-! ### Salts that are too long, and hashes of the Blowfish method -/

/-- A digest of nothing but zeros, and a self-test that goes well. -/
def sampleEnv : CryptEnv where
  md5 := fun _ => List.replicate 16 0
  sha256 := fun _ => List.replicate 32 0
  sha512 := fun _ => List.replicate 64 0
  blowfish := fun _ setting => setting.take 29 ++ List.replicate 31 0x2e ++ [0]
  selfTest := fun _ => true
  pBytes := true
  sBytes := true

/-- A structure with a method, an iteration count of 0, the size of a salt, and the salt. -/
def sampleCrypt (method saltSize : UInt8) (salt : List UInt8) : Region :=
  Region.ofList 0 ([method, 0] ++ List.replicate 8 0 ++ [saltSize, 0] ++ salt ++
    List.replicate (160 - salt.length) 0)

def samplePassword : EnteredPassword := ⟨[0x70, 0x77], by decide, by decide⟩

/-- A salt of 33 bytes is read past its array, and the copy of a Blowfish hash goes past the
result. -/
theorem not_staysInBuffers_sample :
    ¬StaysInBuffers sampleEnv samplePassword (sampleCrypt 2 33 []) ∧
    ¬StaysInBuffers sampleEnv samplePassword
      (sampleCrypt 5 30 (CText.ascii "$2a$10$abcdefghijklmnopqrstuu" ++ [0])) := by
  constructor
  · rw [staysInBuffers_md5 (by decide)]
    decide
  · rw [staysInBuffers_blowfish (by decide)]
    intro h
    exact h (by decide) ⟨by decide, rfl⟩

end Shim.PasswordCrypt
