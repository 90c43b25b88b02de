import Mathlib.Logic.Relation
import Shim.Auth.SignatureDb
import Shim.Common.Event

/-! # What the walkers of a database read

`check_db_cert_in_ram`, `check_db_hash_in_ram` (shim.c) and `find_in_esl` (lib/variables.c) take every
step length from the database. Their loop condition compares a size with the bytes to go, and
nothing else is checked: neither that a header lies in the buffer, nor that a size is not nought, nor
that a list has room for its header and its signatures.
-/

namespace Shim

open Bytes (sub64)
open Event (Inside AllSound)
open Relation (ReflTransGen)

/-- One turn of the loop over the lists: what it does, and whether it is the last one. -/
structure Turn where
  events : List Event
  found : Bool

section Walk

variable (turn : ℕ → Turn) (d : Region)

/-- The loop over the lists from the one at `o` on, with `dbsize` bytes to go; `none` where `fuel`
turns are not enough. -/
def walkLists : (fuel o dbsize : ℕ) → Option (List Event × Bool)
  | 0, _, _ => none
  | fuel + 1, o, dbsize =>
    if dbsize = 0 then some ([], false)
    -- The condition reads `SignatureListSize`.
    else if dbsize < signatureListSize d o then some ([.read (o + 16) 4], false)
    else if (turn o).found then some (.read (o + 16) 4 :: (turn o).events, true)
    else
      (walkLists fuel (o + signatureListSize d o) (dbsize - signatureListSize d o)).map fun rest =>
        (.read (o + 16) 4 ::
          ((turn o).events ++ .subtract dbsize (signatureListSize d o) :: rest.1), rest.2)

/-- The loop ends, and nothing it does goes wrong. -/
def WalkSafe : Prop :=
  ∃ fuel run, walkLists turn d fuel 0 d.size = some run ∧ AllSound d.size run.1

/-- The loop goes on from the list at `o` to the one at `o'`. -/
def NextList (o o' : ℕ) : Prop :=
  o < d.size ∧ signatureListSize d o ≤ d.size - o ∧ (turn o).found = false ∧
    o' = o + signatureListSize d o

/-- The loop comes to a list at `o` when it starts at `start`. -/
def ListReached (start o : ℕ) : Prop := ReflTransGen (NextList turn d) start o

/-- The list at `o` is harmless: its size is in the buffer, and if the list is too, so is its turn,
and the turn either is the last one or gets ahead. -/
structure ListFits (o : ℕ) : Prop where
  size : o + 20 ≤ d.size
  turn : signatureListSize d o ≤ d.size - o →
    AllSound d.size (turn o).events ∧ ((turn o).found = true ∨ 0 < signatureListSize d o)

end Walk

section WalkSafe

variable {turn : ℕ → Turn} {d : Region} {start o fuel : ℕ}

/-- A run that ends without harm has met harmless lists only. -/
theorem listFits_of_walkLists {run : List Event × Bool}
    (h : walkLists turn d fuel start (d.size - start) = some run) (hsound : AllSound d.size run.1)
    (ho : ListReached turn d start o) (hlt : o < d.size) : ListFits turn d o := by
  induction fuel generalizing start run with
  | zero => cases h
  | succ fuel ih =>
    unfold walkLists at h
    have hstart : start < d.size := by
      rcases ho.cases_head with rfl | ⟨_, hnext, -⟩
      · exact hlt
      · exact hnext.1
    rw [if_neg (by omega)] at h
    by_cases hbig : d.size - start < signatureListSize d start
    · rw [if_pos hbig] at h
      obtain rfl := Option.some.inj h
      rcases ho.cases_head with rfl | ⟨_, ⟨-, hle, -⟩, -⟩
      · refine ⟨?_, fun hle => absurd hle (by omega)⟩
        simpa [Inside, Nat.add_assoc] using hsound
      · omega
    rw [if_neg hbig] at h
    by_cases hfound : (turn start).found = true
    · rw [if_pos hfound] at h
      obtain rfl := Option.some.inj h
      rw [Event.allSound_cons] at hsound
      rcases ho.cases_head with rfl | ⟨_, ⟨-, -, hmissed, -⟩, -⟩
      · exact ⟨by simpa [Inside, Nat.add_assoc] using hsound.1, fun _ => ⟨hsound.2, .inl hfound⟩⟩
      · rw [hfound] at hmissed
        cases hmissed
    · rw [if_neg hfound, Option.map_eq_some_iff] at h
      obtain ⟨rest, hrest, rfl⟩ := h
      rw [Event.allSound_cons, Event.allSound_append, Event.allSound_cons] at hsound
      obtain ⟨hread, hevents, -, hrestSound⟩ := hsound
      rw [Nat.sub_sub] at hrest
      rcases ho.cases_head with rfl | ⟨_, ⟨-, -, -, rfl⟩, hnext⟩
      · refine ⟨by simpa [Inside, Nat.add_assoc] using hread, fun _ => ⟨hevents, .inr ?_⟩⟩
        by_contra hzero
        -- A list without a size leads to itself, with less fuel.
        have hzero : signatureListSize d start = 0 := by omega
        rw [hzero, Nat.add_zero] at hrest
        have hturn := (ih hrest hrestSound .refl).turn (by omega)
        rw [hzero] at hturn
        exact hfound (hturn.2.resolve_right (lt_irrefl 0))
      · exact ih hrest hrestSound hnext

/-- Harmless lists are left behind one after the other. -/
theorem exists_walkLists (hstart : start ≤ d.size)
    (h : ∀ o, ListReached turn d start o → o < d.size → ListFits turn d o) :
    ∃ fuel run, walkLists turn d fuel start (d.size - start) = some run ∧ AllSound d.size run.1 := by
  induction hn : d.size - start using Nat.strong_induction_on generalizing start with
  | _ n ih =>
    subst hn
    by_cases hend : d.size - start = 0
    · exact ⟨1, ([], false), by rw [walkLists, if_pos hend], Event.allSound_nil⟩
    have hfits := h start .refl (by omega)
    have hread : (Event.read (start + 16) 4).Sound d.size := .inr hfits.size
    by_cases hbig : d.size - start < signatureListSize d start
    · exact ⟨1, _, by rw [walkLists, if_neg hend, if_pos hbig], by simpa using hread⟩
    obtain ⟨hevents, hahead⟩ := hfits.turn (by omega)
    by_cases hfound : (turn start).found = true
    · refine ⟨1, _, by rw [walkLists, if_neg hend, if_neg hbig, if_pos hfound], ?_⟩
      exact Event.allSound_cons.mpr ⟨hread, hevents⟩
    have hpos := hahead.resolve_left hfound
    obtain ⟨fuel, rest, hrest, hsound⟩ := ih (d.size - (start + signatureListSize d start))
      (by omega) (by omega) (fun o ho => h o (ho.head ⟨by omega, by omega, by simpa using hfound, rfl⟩))
      rfl
    refine ⟨fuel + 1, _, by rw [walkLists, if_neg hend, if_neg hbig, if_neg hfound, Nat.sub_sub,
      hrest, Option.map_some], ?_⟩
    simp only [Event.allSound_cons, Event.allSound_append]
    exact ⟨hread, hevents, Nat.not_lt.mp hbig, hsound⟩

/-- A walk is safe when every list it reaches is harmless. -/
theorem walkSafe_iff : WalkSafe turn d ↔
    ∀ o, ListReached turn d 0 o → o < d.size → ListFits turn d o := by
  constructor
  · rintro ⟨fuel, run, hrun, hsound⟩ o ho hlt
    exact listFits_of_walkLists hrun hsound ho hlt
  · intro h
    exact exists_walkLists (Nat.zero_le _) h

end WalkSafe

/-! ## The walkers

The address of a field that is read again in one turn is listed once.
-/

section Turns

variable (d : Region) (o : ℕ)

/-- The comparisons of `count` signatures from `c` on; one that holds the hash is measured. -/
def compareCerts (hash : List UInt8) (step : ℕ) : (count c : ℕ) → List Event
  | 0, _ => []
  | count + 1, c =>
    .read (c + 16) hash.length ::
      if d.bytes (c + 16) hash.length = hash then [.read c step]
      else compareCerts hash step count (c + step)

/-- A turn of `check_db_hash_in_ram`. -/
def hashTurn (hash type : List UInt8) : Turn where
  events :=
    [.subtract (signatureListSize d o) 28, .read (o + 20) 4,
      .subtract (sub64 (signatureListSize d o) 28) (signatureHeaderSize d o), .read (o + 24) 4,
      .divide (signatureSize d o), .read o 16] ++
    if signatureType d o = type then
      compareCerts d hash (signatureSize d o) (certCount d o) (signatureAt d o 0)
    else []
  found := hashHit type hash d o = some true

/-- How many bytes of a certificate are looked at: those that `verify_x509` needs to refuse it, or
all when it is verified or, with `verbose`, dumped. -/
def certLooked (verbose : Bool) (cert size : ℕ) : ℕ :=
  if verifyX509 d cert size || verbose then size
  else if size < 4 then 0
  else if d.byte cert ≠ 0x30 then 1
  else if d.byte (cert + 1) ≠ 0x82 then 2
  else 4

/-- A turn of `check_db_cert_in_ram`; the certificate that is found is measured. -/
def certTurn (verbose : Bool) (verifies : List UInt8 → Bool) : Turn where
  events :=
    .read o 16 ::
    if signatureType d o = certTypeX509Guid then
      [.read (o + 20) 4, .read (o + 24) 4, .subtract (signatureSize d o) 16,
        .read (signatureAt d o 0 + 16) (certLooked d verbose (signatureAt d o 0 + 16) (certSize d o))] ++
      if certHit verifies d o = some true then [.read (signatureAt d o 0) (signatureSize d o)] else []
    else []
  found := certHit verifies d o = some true

/-- `certentry_for_each_cert` in `find_in_esl`: the comparisons from `c` on, and whether one holds
the key. -/
def findCert (key : List UInt8) (step : ℕ) (hstep : 0 < step) (c stop : ℕ) : List Event × Bool :=
  if c < stop then
    if d.bytes (c + 16) key.length = key then ([.read (c + 16) key.length], true)
    else
      let rest := findCert key step hstep (c + step) stop
      (.read (c + 16) key.length :: rest.1, rest.2)
  else ([], false)
termination_by stop - c

/-- A turn of `find_in_esl`. -/
def findTurn (key : List UInt8) : Turn :=
  if h : signatureSize d o = key.length + 16 then
    let certs := findCert d key (signatureSize d o) (by omega) (signatureAt d o 0)
      (o + signatureListSize d o)
    ⟨.read (o + 24) 4 :: .read (o + 20) 4 :: certs.1, certs.2⟩
  else ⟨[.read (o + 24) 4], false⟩

end Turns

/-- The three walkers, with their other arguments. -/
inductive Walker where
  | checkDbCertInRam (verbose : Bool) (verifies : List UInt8 → Bool)
  | checkDbHashInRam (hash type : List UInt8)
  | findInEsl (key : List UInt8)

def Walker.turn : Walker → Region → ℕ → Turn
  | .checkDbCertInRam verbose verifies, d, o => certTurn d o verbose verifies
  | .checkDbHashInRam hash type, d, o => hashTurn d o hash type
  | .findInEsl key, d, o => findTurn d o key

/-- The walker ends, and it divides by nothing that is nought, wraps no size and reads the
database only. -/
def Walker.Safe (w : Walker) (d : Region) : Prop := WalkSafe (w.turn d) d

/-! ## What each walker needs of a list -/

section Needs

variable (d : Region) (o : ℕ)

/-- The signature at `index` is compared: none before it has the data. -/
def Compared (data : List UInt8) (index : ℕ) : Prop :=
  ∀ j < index, d.bytes (signatureAt d o j + 16) data.length ≠ data

/-- `check_db_hash_in_ram` needs the header in the buffer, room in the list for it, a size of the
signatures, and room behind the start of a signature for the hash. -/
structure HashFits (hash type : List UInt8) : Prop where
  header : o + 28 ≤ d.size
  room : 28 + signatureHeaderSize d o ≤ signatureListSize d o
  size : 0 < signatureSize d o
  compared : signatureType d o = type → ∀ index < certCount d o, Compared d o hash index →
    Inside d.size (signatureAt d o index + 16) hash.length

/-- `check_db_cert_in_ram` needs of an X.509 list the header in the buffer, room for an owner in the
first signature, and the bytes of its certificate that it looks at in the buffer. -/
structure CertFits (verbose : Bool) : Prop where
  header : o + 28 ≤ d.size
  size : 16 ≤ signatureSize d o
  looked : Inside d.size (signatureAt d o 0 + 16)
    (certLooked d verbose (signatureAt d o 0 + 16) (certSize d o))

/-- `find_in_esl` needs the header in the buffer, and, where the size of the signatures is that of
the key, every one that starts before the end of the list. -/
structure FindFits (key : List UInt8) : Prop where
  header : o + 28 ≤ d.size
  compared : signatureSize d o = key.length + 16 → ∀ index,
    signatureAt d o index < o + signatureListSize d o → Compared d o key index →
      Inside d.size (signatureAt d o index + 16) key.length

end Needs

/-- What the walker needs of the list at `o`, which lies in the buffer. -/
def Walker.Fits (d : Region) (o : ℕ) : Walker → Prop
  | .checkDbCertInRam verbose _ => signatureType d o = certTypeX509Guid → CertFits d o verbose
  | .checkDbHashInRam hash type => HashFits d o hash type
  | .findInEsl key => FindFits d o key

/-- The list at `o` is in order for the walker: its size is in the buffer, and if the list is too, it
is as the walker needs it, and it has a size unless the walker stops there. -/
structure Walker.InOrder (w : Walker) (d : Region) (o : ℕ) : Prop where
  size : o + 20 ≤ d.size
  fits : signatureListSize d o ≤ d.size - o →
    w.Fits d o ∧ ((w.turn d o).found = true ∨ 0 < signatureListSize d o)

section Exact

variable {d : Region} {o : ℕ}

/-- The comparisons stay inside exactly if each that is made does, and so does what is measured. -/
theorem allSound_compareCerts {hash : List UInt8} {step count c size : ℕ} :
    AllSound size (compareCerts d hash step count c) ↔ ∀ index < count,
      (∀ j < index, d.bytes (c + j * step + 16) hash.length ≠ hash) →
        Inside size (c + index * step + 16) hash.length ∧
          (d.bytes (c + index * step + 16) hash.length = hash → Inside size (c + index * step) step) := by
  -- one signature: its bytes are read, and the whole of it once it matches
  induction count generalizing c with
  | zero => simp [compareCerts]
  | succ count ih =>
    have hshift (j : ℕ) : c + step + j * step = c + (j + 1) * step := by
      rw [Nat.succ_mul, Nat.add_assoc, Nat.add_comm step]
    rw [compareCerts, Event.allSound_cons, Event.sound_read]
    by_cases hmatch : d.bytes (c + 16) hash.length = hash
    · rw [if_pos hmatch]
      simp only [Event.allSound_cons, Event.sound_read, Event.allSound_nil, and_true]
      constructor
      · intro h index _ hcompared
        cases index with
        | zero => simpa using ⟨h.1, fun _ => h.2⟩
        | succ index => exact absurd (by simpa using hmatch) (hcompared 0 (Nat.succ_pos _))
      · intro h
        have h0 := h 0 (Nat.succ_pos _) (fun j hj => absurd hj (Nat.not_lt_zero j))
        rw [Nat.zero_mul, Nat.add_zero] at h0
        exact ⟨h0.1, h0.2 hmatch⟩
    · rw [if_neg hmatch, ih]
      simp only [hshift]
      constructor
      · rintro ⟨h0, h⟩ index hindex hcompared
        cases index with
        | zero => simpa [hmatch] using h0
        | succ index =>
          exact h index (by omega) fun j hj => hcompared (j + 1) (by omega)
      · intro h
        have h0 := h 0 (Nat.succ_pos _) (fun j hj => absurd hj (Nat.not_lt_zero j))
        refine ⟨by simpa using h0.1, fun index hindex hcompared => h (index + 1) (by omega) ?_⟩
        intro j hj
        cases j with
        | zero => simpa using hmatch
        | succ j => exact hcompared j (by omega)

/-- The same for the loop that goes on to an end. -/
theorem allSound_findCert {key : List UInt8} {step : ℕ} (hstep : 0 < step) {c stop size : ℕ} :
    AllSound size (findCert d key step hstep c stop).1 ↔ ∀ index, c + index * step < stop →
      (∀ j < index, d.bytes (c + j * step + 16) key.length ≠ key) →
        Inside size (c + index * step + 16) key.length := by
  -- found, another signature, the end of the list
  induction c using findCert.induct d key step hstep stop with
  | case1 c hlt hmatch =>
    rw [findCert, if_pos hlt, if_pos hmatch]
    simp only [Event.allSound_cons, Event.sound_read, Event.allSound_nil, and_true]
    constructor
    · intro h index _ hcompared
      cases index with
      | zero => simpa using h
      | succ index => exact absurd (by simpa using hmatch) (hcompared 0 (Nat.succ_pos _))
    · intro h
      simpa using h 0 (by simpa using hlt) fun j hj => absurd hj (Nat.not_lt_zero j)
  | case2 c hlt hmatch ih =>
    have hshift (j : ℕ) : c + step + j * step = c + (j + 1) * step := by
      rw [Nat.succ_mul, Nat.add_assoc, Nat.add_comm step]
    rw [findCert, if_pos hlt, if_neg hmatch, Event.allSound_cons, Event.sound_read, ih]
    simp only [hshift]
    constructor
    · rintro ⟨h0, h⟩ index hindex hcompared
      cases index with
      | zero => simpa using h0
      | succ index => exact h index hindex fun j hj => hcompared (j + 1) (by omega)
    · intro h
      refine ⟨by simpa using h 0 (by simpa using hlt) fun j hj => absurd hj (Nat.not_lt_zero j), ?_⟩
      intro index hindex hcompared
      refine h (index + 1) hindex fun j hj => ?_
      cases j with
      | zero => simpa using hmatch
      | succ j => exact hcompared j (by omega)
  | case3 c hlt =>
    rw [findCert, if_neg hlt]
    simp only [Event.allSound_nil, true_iff]
    intro index hindex
    omega

/-- The signatures of a list are as far apart as they are long. -/
theorem signatureAt_eq (d : Region) (o index : ℕ) :
    signatureAt d o index = signatureAt d o 0 + index * signatureSize d o := by
  simp [signatureAt]

/-- With room for its header, a list has room for the signatures that are counted. -/
theorem signatureAt_le {index : ℕ} (hroom : 28 + signatureHeaderSize d o ≤ signatureListSize d o)
    (hindex : index < certCount d o) :
    signatureAt d o index + signatureSize d o ≤ o + signatureListSize d o := by
  have hsize : signatureListSize d o < 2 ^ 32 := d.u32_lt _
  have hcount : certCount d o =
      (signatureListSize d o - 28 - signatureHeaderSize d o) / signatureSize d o := by
    have hlist : sub64 (signatureListSize d o) 28 = signatureListSize d o - 28 :=
      Bytes.sub64_of_le (by omega) (by omega)
    rw [certCount, hlist, Bytes.sub64_of_le (by omega) (by omega)]
  have hmul : (index + 1) * signatureSize d o ≤
      signatureListSize d o - 28 - signatureHeaderSize d o := by
    rw [hcount] at hindex
    exact le_trans (Nat.mul_le_mul_right _ hindex) (Nat.div_mul_le_self _ _)
  rw [Nat.succ_mul] at hmul
  rw [signatureAt]
  omega

/-- A turn of the search for a hash is sound exactly if what it reads fits. -/
theorem allSound_hashTurn {hash type : List UInt8}
    (hin : o + signatureListSize d o ≤ d.size) :
    AllSound d.size (hashTurn d o hash type).events ↔ HashFits d o hash type := by
  have hlist : signatureListSize d o < 2 ^ 32 := d.u32_lt _
  have hcompare : AllSound d.size (if signatureType d o = type then
      compareCerts d hash (signatureSize d o) (certCount d o) (signatureAt d o 0) else []) ↔
      (signatureType d o = type → ∀ index < certCount d o, Compared d o hash index →
        Inside d.size (signatureAt d o index + 16) hash.length ∧
          (d.bytes (signatureAt d o index + 16) hash.length = hash →
            Inside d.size (signatureAt d o index) (signatureSize d o))) := by
    by_cases htype : signatureType d o = type
    · rw [if_pos htype, imp_iff_right htype, allSound_compareCerts]
      simp only [← signatureAt_eq, Compared]
    · rw [if_neg htype]
      exact iff_of_true Event.allSound_nil fun h => absurd h htype
  simp only [hashTurn, Event.allSound_append, hcompare, Event.allSound_cons, Event.sound_read,
    Event.sound_subtract, Event.sound_divide, Event.allSound_nil, and_true]
  constructor
  · rintro ⟨⟨hsub, -, hsub', hread, hdivide, -⟩, hcompared⟩
    rw [Bytes.sub64_of_le hsub (by omega)] at hsub'
    refine ⟨by simpa [Inside, Nat.add_assoc] using hread, by omega, by omega, ?_⟩
    intro htype index hindex hbefore
    exact (hcompared htype index hindex hbefore).1
  · rintro ⟨hheader, hroom, hsize, hcompared⟩
    have hsub : 28 ≤ signatureListSize d o := by omega
    rw [Bytes.sub64_of_le hsub (by omega)]
    refine ⟨⟨hsub, .inr (by omega), by omega, .inr (by omega), by omega, .inr (by omega)⟩, ?_⟩
    intro htype index hindex hbefore
    refine ⟨hcompared htype index hindex hbefore, fun _ => .inr ?_⟩
    exact le_trans (signatureAt_le hroom hindex) hin

/-- A turn of the search for a certificate is sound exactly if what it reads fits. -/
theorem allSound_certTurn {verbose : Bool} {verifies : List UInt8 → Bool}
    (hsize : o + 20 ≤ d.size) : AllSound d.size (certTurn d o verbose verifies).events ↔
      (signatureType d o = certTypeX509Guid → CertFits d o verbose) := by
  -- the type is read in every case
  have htypeRead : Inside d.size o 16 := .inr (by omega)
  by_cases htype : signatureType d o = certTypeX509Guid
  · rw [imp_iff_right htype]
    simp only [certTurn, if_pos htype, Event.allSound_append, Event.allSound_cons, Event.sound_read,
      Event.sound_subtract, Event.allSound_nil, and_true, htypeRead, true_and]
    constructor
    · rintro ⟨⟨-, hread, hsub, hlooked⟩, -⟩
      exact ⟨by simpa [Inside, Nat.add_assoc] using hread, hsub, hlooked⟩
    · rintro ⟨hheader, hsub, hlooked⟩
      refine ⟨⟨.inr (by omega), .inr (by omega), hsub, hlooked⟩, ?_⟩
      by_cases hfound : certHit verifies d o = some true
      · -- A certificate that is found was verified, so that all its bytes were looked at.
        have hx509 : verifyX509 d (signatureAt d o 0 + 16) (certSize d o) = true := by
          simp only [certHit, certMatches, Option.some.injEq, decide_eq_true_eq,
            Bool.and_eq_true] at hfound
          exact hfound.2.1
        have hcert : certSize d o = signatureSize d o - 16 :=
          Bytes.sub64_of_le hsub (lt_trans (d.u32_lt _) (by decide))
        have hlen : 4 ≤ certSize d o := by
          simp only [verifyX509, decide_eq_true_eq] at hx509
          exact hx509.1
        simp only [certLooked, hx509, Bool.true_or, if_true, Event.inside_iff_of_pos
          (lt_of_lt_of_le (by decide) hlen)] at hlooked
        rw [if_pos hfound, Event.allSound_cons, Event.sound_read]
        exact ⟨.inr (by omega), Event.allSound_nil⟩
      · rw [if_neg hfound]
        exact Event.allSound_nil
  · simp [certTurn, htype, htypeRead]

/-- A turn of the search for a key is sound exactly if what it reads fits. -/
theorem allSound_findTurn {key : List UInt8} :
    AllSound d.size (findTurn d o key).events ↔ FindFits d o key := by
  have hread : Inside d.size (o + 24) 4 ↔ o + 28 ≤ d.size := by
    rw [Event.inside_iff_of_pos (by decide)]
  by_cases hkey : signatureSize d o = key.length + 16
  · simp only [findTurn, dif_pos hkey, Event.allSound_cons, Event.sound_read, hread,
      allSound_findCert, ← signatureAt_eq]
    constructor
    · rintro ⟨hheader, -, hcompared⟩
      exact ⟨hheader, fun _ => hcompared⟩
    · rintro ⟨hheader, hcompared⟩
      exact ⟨hheader, .inr (by omega), hcompared hkey⟩
  · simp only [findTurn, dif_neg hkey, Event.allSound_cons, Event.sound_read, hread,
      Event.allSound_nil, and_true]
    exact ⟨fun hheader => ⟨hheader, fun h => absurd h hkey⟩, fun h => h.header⟩

/-- A turn on a list that lies in the buffer is harmless exactly if the list is as it needs it. -/
theorem Walker.allSound_turn (w : Walker) (hsize : o + 20 ≤ d.size)
    (hin : o + signatureListSize d o ≤ d.size) :
    AllSound d.size (w.turn d o).events ↔ w.Fits d o := by
  cases w with
  | checkDbCertInRam => exact allSound_certTurn hsize
  | checkDbHashInRam => exact allSound_hashTurn hin
  | findInEsl => exact allSound_findTurn

/-- A walker is safe on a database exactly if every list that it reaches is in order for it. -/
theorem walkerSafe_iff (w : Walker) (d : Region) :
    w.Safe d ↔ ∀ o, ListReached (w.turn d) d 0 o → o < d.size → w.InOrder d o := by
  refine walkSafe_iff.trans (forall_congr' fun o => imp_congr_right fun _ => imp_congr_right ?_)
  intro hlt
  constructor
  · intro h
    refine ⟨h.size, fun hle => ⟨?_, (h.turn hle).2⟩⟩
    exact (w.allSound_turn h.size (by omega)).mp (h.turn hle).1
  · intro h
    refine ⟨h.size, fun hle => ⟨?_, (h.fits hle).2⟩⟩
    exact (w.allSound_turn h.size (by omega)).mpr (h.fits hle).1

/-- A list without a size is never left. -/
theorem walkLists_eq_none {turn : ℕ → Turn} {dbsize : ℕ} (hpos : 0 < dbsize)
    (hzero : signatureListSize d o = 0) (hmissed : (turn o).found = false) (fuel : ℕ) :
    walkLists turn d fuel o dbsize = none := by
  induction fuel with
  | zero => rfl
  | succ fuel ih =>
    rw [walkLists, if_neg (by omega), if_neg (by omega), if_neg (by simp [hmissed]), hzero,
      Option.map_eq_none_iff]
    exact ih

end Exact

/-! ## Walks and results -/

section Results

variable {turn : ℕ → Turn} {hit : ℕ → Option Bool} {d : Region} {o fuel dbsize : ℕ}

/-- A walk without harm has the result of the search. -/
theorem scanDb_of_walkLists (hfound : ∀ o, (turn o).found = decide (hit o = some true))
    (hnone : ∀ o, hit o = none → ¬ AllSound d.size (turn o).events) {run : List Event × Bool}
    (h : walkLists turn d fuel o dbsize = some run) (hsound : AllSound d.size run.1) {turns : ℕ}
    (hturns : dbsize ≤ turns) :
    scanDb hit d turns o dbsize = some (if run.2 then .dataFound else .dataNotFound) := by
  induction fuel generalizing o dbsize run turns with
  | zero => cases h
  | succ fuel ih =>
    -- nothing is left
    by_cases hend : dbsize = 0
    · subst hend
      rw [walkLists, if_pos rfl] at h
      obtain rfl := Option.some.inj h
      cases turns with
      | zero => rfl
      | succ turns => rw [scanDb, if_neg (by omega), if_neg (by decide)]
    obtain ⟨turns, rfl⟩ : ∃ k, turns = k + 1 := ⟨turns - 1, by omega⟩
    -- the list claims more than is left
    by_cases hbig : dbsize < signatureListSize d o
    · rw [walkLists, if_neg hend, if_pos hbig] at h
      obtain rfl := Option.some.inj h
      rw [scanDb, if_neg (by omega), if_neg Bool.false_ne_true]
    by_cases hlast : (turn o).found = true
    · rw [walkLists, if_neg hend, if_neg hbig, if_pos hlast] at h
      obtain rfl := Option.some.inj h
      rw [hfound, decide_eq_true_eq] at hlast
      rw [scanDb, if_pos (by omega), hlast]
      rfl
    -- a list of no size would keep the walk where it is
    · have hzero : signatureListSize d o ≠ 0 := by
        intro hzero
        rw [walkLists_eq_none (by omega) hzero (by simpa using hlast)] at h
        cases h
      rw [walkLists, if_neg hend, if_neg hbig, if_neg hlast, Option.map_eq_some_iff] at h
      obtain ⟨rest, hrest, rfl⟩ := h
      simp only [Event.allSound_cons, Event.allSound_append] at hsound
      obtain ⟨-, hevents, -, hrestSound⟩ := hsound
      have hmissed : hit o = some false := by
        rw [hfound, decide_eq_true_eq] at hlast
        rcases hhit : hit o with _ | _ | _
        · exact absurd hevents (hnone o hhit)
        · rfl
        · exact absurd hhit hlast
      rw [scanDb, if_pos (by omega), hmissed]
      exact (if_neg hzero).trans (ih hrest hrestSound (by omega))

/-- Where the walk for a hash is safe, the search comes back. -/
theorem exists_checkDbHashInRam {hash type : List UInt8}
    (h : (Walker.checkDbHashInRam hash type).Safe d) :
    ∃ s, checkDbHashInRam d hash type = some s := by
  obtain ⟨fuel, run, hrun, hsound⟩ := h
  refine ⟨_, scanDb_of_walkLists (fun _ => rfl) (fun o ho => ?_) hrun hsound le_rfl⟩
  have hzero : signatureSize d o = 0 := by
    by_contra hne
    simp [hashHit, hne] at ho
  simp [Walker.turn, hashTurn, hzero]

/-- Where the walk for a certificate is safe, the search comes back. -/
theorem exists_checkDbCertInRam {verbose : Bool} {verifies : List UInt8 → Bool}
    (h : (Walker.checkDbCertInRam verbose verifies).Safe d) :
    ∃ s, checkDbCertInRam verifies d = some s := by
  obtain ⟨fuel, run, hrun, hsound⟩ := h
  exact ⟨_, scanDb_of_walkLists (fun _ => rfl) (fun o ho => by cases ho) hrun hsound le_rfl⟩

end Results

/-! ## A list without a size -/

/-- 28 NUL bytes: a list whose sizes are all nought. -/
def emptyHeader : Region := Region.ofList 0 (List.replicate 28 0)

/-- None of the walkers comes back from them. -/
theorem not_walkerSafe_emptyHeader :
    ¬ (Walker.checkDbCertInRam false fun _ => false).Safe emptyHeader ∧
    ¬ (Walker.checkDbHashInRam (List.replicate 32 1) certSha256Guid).Safe emptyHeader ∧
    ¬ (Walker.findInEsl (List.replicate 32 1)).Safe emptyHeader := by
  have hnever (w : Walker) (hmissed : (w.turn emptyHeader 0).found = false) :
      ¬ w.Safe emptyHeader := by
    rintro ⟨fuel, run, hrun, -⟩
    rw [walkLists_eq_none (by decide) (by decide) hmissed] at hrun
    cases hrun
  refine ⟨hnever _ (by decide), hnever _ (by decide), hnever _ ?_⟩
  have hsize : signatureSize emptyHeader 0 ≠ (List.replicate 32 (1 : UInt8)).length + 16 := by decide
  simp only [Walker.turn, findTurn, dif_neg hsize]

end Shim
