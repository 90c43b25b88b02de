import Mathlib.Tactic.Ring
import Shim.Http.NextUri

/-! # The server of a DHCPv6 boot URL

`str2ip6` (netboot.c) takes the groups of an address from the left, and behind a `::` those on the
right from the end. `extract_tftp_info` gets the server and the path from the URL. A string is the
list of its characters, and a group what stands between two colons; indices are kept as they count,
with no wrap of the `UINT8`s in a string of `ip6str`.
-/

namespace Shim

open CText

/-! ## The code -/

def colon : UInt8 := 58

/-- The value of a character in `str2ns`. -/
def hexDigitValue (c : UInt8) : ℕ :=
  if 48 ≤ c.toNat ∧ c.toNat ≤ 57 then c.toNat - 48
  else if 65 ≤ c.toNat ∧ c.toNat ≤ 70 then c.toNat - 65 + 10
  else if 97 ≤ c.toNat ∧ c.toNat ≤ 102 then c.toNat - 97 + 10
  else 0

/-- `__builtin_bswap16`. -/
def htons (x : UInt16) : UInt16 := UInt16.ofNat (x.toNat % 256 * 256 + x.toNat / 256)

/-- `str2ns`. -/
def str2ns (str : List UInt8) : UInt16 :=
  htons (str.foldl (fun ret c => (ret <<< 4) + UInt16.ofNat (hexDigitValue c)) 0)

/-- The first loop of `str2ip6`, with what it has of a group: the groups that are stored in front of
the end or of a `::`, and the string behind the first colon of that. -/
def leftGroups : (p : ℤ) → (group : List UInt8) → List UInt8 → List (ℤ × UInt16) × List UInt8
  | _, _, [] => ([], [])
  | p, group, b :: rest =>
    if b ≠ colon then leftGroups p (group ++ [b]) rest
    else if rest.head? = some colon then ([(p, str2ns group)], rest)
    else ((p, str2ns group) :: (leftGroups (p + 1) [] rest).1, (leftGroups (p + 1) [] rest).2)

/-- The second loop, from the end of the string on. -/
def rightGroups : (p : ℤ) → (group : List UInt8) → (reversed : List UInt8) → List (ℤ × UInt16)
  | _, _, [] => []
  | p, group, a :: rest =>
    if a ≠ colon then rightGroups p (a :: group) rest
    else (p, str2ns group) :: rightGroups (p - 1) [] rest

/-- What `str2ip6` stores, with the indices. -/
def str2ip6Writes (str : List UInt8) : List (ℤ × UInt16) :=
  if str.count colon > 7 then []
  else
    let left := leftGroups 0 [] str
    left.1 ++ rightGroups 7 [] left.2.reverse

/-- `ip[p] = v`. -/
def storeGroup (ip : List UInt16) (w : ℤ × UInt16) : List UInt16 :=
  if 0 ≤ w.1 then ip.set w.1.toNat w.2 else ip

/-- The bytes of numbers in memory. -/
def memoryBytes (ip : List UInt16) : List UInt8 :=
  ip.flatMap fun x => [UInt8.ofNat (x.toNat % 256), UInt8.ofNat (x.toNat / 256)]

/-- `str2ip6`. -/
def str2ip6 (str : List UInt8) : List UInt8 :=
  memoryBytes ((str2ip6Writes str).foldl storeGroup (List.replicate 8 0))

/-- `sizeof(ip6str)`. -/
def ip6strSize : ℕ := 40

/-- `tftp_addr` and `full_path`. -/
structure TftpInfo where
  tftpAddr : List UInt8
  fullPath : List UInt8
  deriving DecidableEq

/-- `extract_tftp_info`; `none` is FALSE. The template takes the place of the last part of the path,
with the slash in front of it. `pool` tells for how many bytes `AllocateZeroPool` has memory; the
template is taken to have its own, which the code does not look at. -/
def extractTftpInfo (pool : ℕ → Bool) (url name : List UInt8) : Option TftpInfo :=
  if strncmp 7 url (ascii "tftp://") ≠ .eq then none
  else if (url.drop 7).head? ≠ some 91 then none
  else
    let start := url.drop 8
    let ip6str := start.takeWhile (· ≠ 93)
    if ip6str.length ≥ ip6strSize then none
    else if ip6str = start then none
    else
      let tftpAddr := str2ip6 ip6str
      if tftpAddr = List.replicate 16 0 then none
      else
        let path := start.drop (ip6str.length + 1)
        let template := translateSlashes name
        if pool (path.length + template.length + 1) then
          some ⟨tftpAddr, (path.rdropWhile (· ≠ slash)).dropLast ++ template⟩
        else none

/-! ## Textual addresses -/

/-- A hexadecimal digit of either case. -/
def IsHexDigit (c : UInt8) : Prop :=
  (48 ≤ c.toNat ∧ c.toNat ≤ 57) ∨ (65 ≤ c.toNat ∧ c.toNat ≤ 70) ∨ (97 ≤ c.toNat ∧ c.toNat ≤ 102)

instance : DecidablePred IsHexDigit := fun _ => inferInstanceAs (Decidable (_ ∨ _ ∨ _))

/-- A group of an address. -/
structure HexGroup where
  digits : List UInt8
  length_pos : 0 < digits.length
  length_le : digits.length ≤ 4
  hex : ∀ c ∈ digits, IsHexDigit c

/-- The number that a group stands for. -/
def HexGroup.value (g : HexGroup) : ℕ := Nat.ofDigits 16 (g.digits.map hexDigitValue).reverse

/-- Eight groups, or fewer with a `::` in the place of at least one. -/
inductive Ip6Text
  | full (groups : List HexGroup) (h : groups.length = 8)
  | compressed (left right : List HexGroup) (h : left.length + right.length ≤ 7)

/-- Strings with a colon between any two of them. -/
def joinColon : List (List UInt8) → List UInt8
  | [] => []
  | [s] => s
  | s :: t :: l => s ++ colon :: joinColon (t :: l)

/-- How an address is written. -/
def Ip6Text.text : Ip6Text → List UInt8
  | .full groups _ => joinColon (groups.map HexGroup.digits)
  | .compressed left right _ =>
    joinColon (left.map HexGroup.digits) ++ colon :: colon :: joinColon (right.map HexGroup.digits)

/-- The eight numbers of an address. -/
def Ip6Text.values : Ip6Text → List ℕ
  | .full groups _ => groups.map HexGroup.value
  | .compressed left right _ =>
    left.map HexGroup.value ++ List.replicate (8 - (left.length + right.length)) 0 ++
      right.map HexGroup.value

/-- Two bytes, the higher one first. -/
def networkBytes (n : ℕ) : List UInt8 := [UInt8.ofNat (n / 256), UInt8.ofNat (n % 256)]

/-- The sixteen bytes of an address. -/
def Ip6Text.denote (a : Ip6Text) : List UInt8 := a.values.flatMap networkBytes

/-- The URL of a file on the server. -/
def Ip6Text.url (a : Ip6Text) (path : List UInt8) : List UInt8 :=
  ascii "tftp://[" ++ a.text ++ 93 :: path

/-- The address is converted, and the server that a URL names is the one that is used, where there
is memory for the path; the unspecified address is refused. -/
structure Ip6Text.Contacted (a : Ip6Text) : Prop where
  converted : str2ip6 a.text = a.denote
  server : ∀ pool path name, pool (path.length + (translateSlashes name).length + 1) = true →
    (extractTftpInfo pool (a.url path) name).map TftpInfo.tftpAddr =
      if a.denote = List.replicate 16 0 then none else some a.denote

/-- The `::` is in front or behind, and stands for a single group. -/
def OuterSingle (left right : List HexGroup) : Prop :=
  left = [] ∧ right.length = 7 ∨ right = [] ∧ left.length = 7

/-- The groups that are not stored are nought: the last one of eight, and all seven of them if the
`::` is in front or behind. -/
def Ip6Text.LosesNothing : Ip6Text → Prop
  | .full groups _ => ∀ g ∈ groups.getLast?, g.value = 0
  | .compressed left right _ => OuterSingle left right → ∀ g ∈ left ++ right, g.value = 0

/-- A string that fits into `ip6str`. -/
abbrev Ip6Str := {s : List UInt8 // s.length < ip6strSize}

/-! ## Groups -/

section Groups

variable {l : List UInt8} {n : ℕ}

/-- A digit has four bits. -/
theorem hexDigitValue_lt (c : UInt8) : hexDigitValue c < 16 := by
  unfold hexDigitValue
  split_ifs <;> omega

/-- The sum of `str2ns` wraps at sixteen bits. -/
theorem toNat_foldl_digits (l : List UInt8) {ret : UInt16} (hret : ret.toNat = n % 2 ^ 16) :
    (l.foldl (fun (ret : UInt16) c => (ret <<< 4) + UInt16.ofNat (hexDigitValue c)) ret).toNat =
      l.foldl (fun n c => n * 16 + hexDigitValue c) n % 2 ^ 16 := by
  induction l generalizing n ret with
  | nil => exact hret
  | cons c l ih =>
    refine ih ?_
    rw [UInt16.toNat_add, UInt16.toNat_shiftLeft, UInt16.toNat_ofNat', Nat.shiftLeft_eq, hret]
    change (n % 2 ^ 16 * 2 ^ 4 % 2 ^ 16 + hexDigitValue c % 2 ^ 16) % 2 ^ 16 =
      (n * 16 + hexDigitValue c) % 2 ^ 16
    omega

/-- The digits of a group make its number. -/
theorem foldl_digits (l : List UInt8) (n : ℕ) :
    l.foldl (fun n c => n * 16 + hexDigitValue c) n =
      n * 16 ^ l.length + Nat.ofDigits 16 (l.map hexDigitValue).reverse := by
  induction l generalizing n with
  | nil => simp
  | cons c l ih =>
    rw [List.foldl_cons, ih, List.map_cons, List.reverse_cons, Nat.ofDigits_append,
      Nat.ofDigits_singleton, List.length_reverse, List.length_map, List.length_cons, Nat.pow_succ]
    ring

/-- A group has sixteen bits. -/
theorem HexGroup.value_lt (g : HexGroup) : g.value < 2 ^ 16 := by
  have hlt : g.value < 16 ^ g.digits.length := by
    have hbound := Nat.ofDigits_lt_base_pow_length (b := 16)
      (l := (g.digits.map hexDigitValue).reverse) (by decide) fun d hd => by
        obtain ⟨c, -, rfl⟩ := List.mem_map.mp (List.mem_reverse.mp hd)
        exact hexDigitValue_lt c
    simpa [value] using hbound
  exact hlt.trans_le (Nat.pow_le_pow_right (by decide) g.length_le)

/-- The two bytes change places. -/
theorem toNat_htons (x : UInt16) : (htons x).toNat = x.toNat % 256 * 256 + x.toNat / 256 := by
  have hx : x.toNat < 65536 := x.toNat_lt
  exact UInt16.toNat_ofNat_of_lt (show _ < 65536 by omega)

/-- A group is stored with its higher byte first. -/
theorem memoryBytes_str2ns (g : HexGroup) :
    memoryBytes [str2ns g.digits] = networkBytes g.value := by
  have hvalue := g.value_lt
  have hsum := @toNat_foldl_digits 0 g.digits 0 rfl
  rw [foldl_digits, Nat.zero_mul, Nat.zero_add] at hsum
  have hnat : (str2ns g.digits).toNat = g.value % 256 * 256 + g.value / 256 := by
    rw [str2ns, toNat_htons, hsum, ← HexGroup.value, Nat.mod_eq_of_lt hvalue]
  have hhigh : (str2ns g.digits).toNat % 256 = g.value / 256 := by omega
  have hlow : (str2ns g.digits).toNat / 256 = g.value % 256 := by omega
  simp [memoryBytes, networkBytes, hhigh, hlow]

/-- A number is known by its two bytes. -/
theorem networkBytes_injective {m n : ℕ} (hm : m < 2 ^ 16) (hn : n < 2 ^ 16)
    (h : networkBytes m = networkBytes n) : m = n := by
  simp only [networkBytes, List.cons.injEq, and_true] at h
  have hhigh := congrArg UInt8.toNat h.1
  have hlow := congrArg UInt8.toNat h.2
  simp only [UInt8.toNat_ofNat'] at hhigh hlow
  omega

/-- Numbers are known by their bytes. -/
theorem flatMap_networkBytes_injective {l l' : List ℕ} (hl : ∀ n ∈ l, n < 2 ^ 16)
    (hl' : ∀ n ∈ l', n < 2 ^ 16) (h : l.flatMap networkBytes = l'.flatMap networkBytes) :
    l = l' := by
  induction l generalizing l' with
  | nil =>
    cases l' with
    | nil => rfl
    | cons n l' => simp [networkBytes] at h
  | cons m l ih =>
    cases l' with
    | nil => simp [networkBytes] at h
    | cons n l' =>
      obtain ⟨hm, hl⟩ := List.forall_mem_cons.mp hl
      obtain ⟨hn, hl'⟩ := List.forall_mem_cons.mp hl'
      rw [List.flatMap_cons, List.flatMap_cons] at h
      obtain ⟨hfirst, hrest⟩ := List.append_inj h rfl
      rw [networkBytes_injective hm hn hfirst, ih hl hl' hrest]

end Groups

/-! ## The loops -/

section Scans

variable {s t rest group : List UInt8} {l : List (List UInt8)} {p : ℤ}

/-- A group in front of a colon or of the end. -/
theorem leftGroups_append (hs : colon ∉ s) :
    leftGroups p group (s ++ rest) = leftGroups p (group ++ s) rest := by
  induction s generalizing group with
  | nil => simp
  | cons b s ih =>
    obtain ⟨hb, hs⟩ := not_or.mp (List.mem_cons.not.mp hs)
    rw [List.cons_append, leftGroups, if_pos (Ne.symm hb), ih hs, List.append_assoc]
    rfl

/-- Behind a colon the characters are gathered from the right. -/
theorem rightGroups_append (hs : colon ∉ s) :
    rightGroups p group (s.reverse ++ rest) = rightGroups p (s ++ group) rest := by
  induction s using List.reverseRecOn generalizing group with
  | nil => simp
  | append_singleton s b ih =>
    obtain ⟨hs, hb⟩ := not_or.mp (List.mem_append.not.mp hs)
    rw [List.reverse_append, List.append_assoc, List.reverse_singleton, List.singleton_append,
      rightGroups, if_pos (by simpa [eq_comm] using hb), ih hs, List.append_assoc]
    rfl

/-- Values stored one after the other, from index `p` up. -/
def upWrites : ℤ → List UInt16 → List (ℤ × UInt16)
  | _, [] => []
  | p, v :: l => (p, v) :: upWrites (p + 1) l

/-- Values stored one after the other, from index `p` down. -/
def downWrites : ℤ → List UInt16 → List (ℤ × UInt16)
  | _, [] => []
  | p, v :: l => (p, v) :: downWrites (p - 1) l

/-- A text of groups starts with no colon. -/
theorem head?_joinColon (ht : t ≠ []) (hcolon : colon ∉ t) (l : List (List UInt8))
    (rest : List UInt8) : (joinColon (t :: l) ++ rest).head? ≠ some colon := by
  obtain ⟨c, t, rfl⟩ := List.exists_cons_of_ne_nil ht
  intro h
  have hc : c = colon := by
    cases l <;> simpa [joinColon] using h
  exact hcolon (hc ▸ List.mem_cons_self)

/-- The groups in front of a `::` are all stored. -/
theorem leftGroups_joinColon (hcolon : ∀ t ∈ s :: l, colon ∉ t) (hne : ∀ t ∈ l, t ≠ []) :
    leftGroups p [] (joinColon (s :: l) ++ colon :: colon :: rest) =
      (upWrites p ((s :: l).map str2ns), colon :: rest) := by
  induction l generalizing s p with
  | nil =>
    rw [joinColon, leftGroups_append (hcolon s List.mem_cons_self), List.nil_append, leftGroups]
    rfl
  | cons t l ih =>
    obtain ⟨hs, hcolon⟩ := List.forall_mem_cons.mp hcolon
    obtain ⟨ht, hne⟩ := List.forall_mem_cons.mp hne
    have hhead := head?_joinColon ht (hcolon t List.mem_cons_self) l (colon :: colon :: rest)
    rw [joinColon, List.append_assoc, leftGroups_append hs, List.nil_append, List.cons_append,
      leftGroups, if_neg (not_not.mpr rfl), if_neg hhead, ih hcolon hne]
    rfl

/-- Of groups without a `::` the last one is not stored. -/
theorem leftGroups_joinColon_end (hcolon : ∀ t ∈ s :: l, colon ∉ t) (hne : ∀ t ∈ l, t ≠ []) :
    leftGroups p [] (joinColon (s :: l)) =
      (upWrites p ((s :: l).dropLast.map str2ns), []) := by
  induction l generalizing s p with
  | nil =>
    have hscan := @leftGroups_append s [] [] p (hcolon s List.mem_cons_self)
    rw [List.append_nil] at hscan
    rw [joinColon, hscan]
    rfl
  | cons t l ih =>
    obtain ⟨hs, hcolon⟩ := List.forall_mem_cons.mp hcolon
    obtain ⟨ht, hne⟩ := List.forall_mem_cons.mp hne
    have hhead := head?_joinColon ht (hcolon t List.mem_cons_self) l []
    rw [List.append_nil] at hhead
    rw [joinColon, leftGroups_append hs, List.nil_append, leftGroups, if_neg (not_not.mpr rfl),
      if_neg hhead, ih hcolon hne, List.dropLast_cons_cons]
    rfl

/-- Values are stored one below the other. -/
theorem downWrites_append (p : ℤ) (l l' : List UInt16) :
    downWrites p (l ++ l') = downWrites p l ++ downWrites (p - l.length) l' := by
  induction l generalizing p with
  | nil => simp [downWrites]
  | cons v l ih =>
    rw [List.cons_append, downWrites, ih, downWrites, List.length_cons, List.cons_append,
      show p - 1 - (l.length : ℤ) = p - (l.length + 1 : ℕ) by omega]

/-- A group from the right is stored at its colon. -/
theorem rightGroups_reverse (hs : colon ∉ s) :
    rightGroups p [] ((colon :: s).reverse ++ rest) =
      (p, str2ns s) :: rightGroups (p - 1) [] rest := by
  rw [List.reverse_cons, List.append_assoc, rightGroups_append hs, List.append_nil,
    List.singleton_append, rightGroups, if_neg (not_not.mpr rfl)]

/-- The groups behind a `::` are all stored. -/
theorem rightGroups_joinColon (hcolon : ∀ t ∈ s :: l, colon ∉ t) :
    rightGroups p [] ((colon :: joinColon (s :: l)).reverse ++ rest) =
      downWrites p ((s :: l).map str2ns).reverse ++
        rightGroups (p - (l.length + 1 : ℕ)) [] rest := by
  induction l generalizing s rest with
  | nil =>
    rw [joinColon, rightGroups_reverse (hcolon s List.mem_cons_self)]
    rfl
  | cons t l ih =>
    obtain ⟨hs, hcolon⟩ := List.forall_mem_cons.mp hcolon
    have hfirst : ((s :: t :: l).map str2ns).reverse =
        ((t :: l).map str2ns).reverse ++ [str2ns s] := by simp
    rw [joinColon, ← List.cons_append, List.reverse_append, List.append_assoc, ih hcolon,
      rightGroups_reverse hs, hfirst, downWrites_append, List.append_assoc, List.length_reverse,
      List.length_map, List.length_cons,
      show p - ((l.length + 1 : ℕ) : ℤ) - 1 = p - (l.length + 1 + 1 : ℕ) by omega]
    rfl

/-- Values stored upwards take the place of those from there on. -/
theorem foldl_upWrites (pre post : List UInt16) {old vs : List UInt16}
    (h : old.length = vs.length) :
    (upWrites pre.length vs).foldl storeGroup (pre ++ old ++ post) = pre ++ vs ++ post := by
  induction vs generalizing pre old with
  | nil => rw [List.length_eq_zero_iff.mp h]; rfl
  | cons v vs ih =>
    obtain ⟨o, old, rfl⟩ := List.exists_cons_of_length_eq_add_one h
    have hset : storeGroup (pre ++ o :: old ++ post) (pre.length, v) =
        (pre ++ [v]) ++ old ++ post := by
      rw [storeGroup, if_pos (Int.natCast_nonneg _)]
      simp
    have hrest := ih (pre ++ [v]) (Nat.succ.inj h)
    rw [List.length_append, List.length_singleton, Nat.cast_add, Nat.cast_one] at hrest
    rw [upWrites, List.foldl_cons, hset, hrest]
    simp

/-- Values stored downwards take the place of those up to there, turned round. -/
theorem foldl_downWrites (pre post : List UInt16) {old vs : List UInt16}
    (h : old.length = vs.length) {p : ℤ} (hp : p + 1 = (pre.length + old.length : ℕ)) :
    (downWrites p vs).foldl storeGroup (pre ++ old ++ post) = pre ++ vs.reverse ++ post := by
  induction vs generalizing old post p with
  | nil => rw [List.length_eq_zero_iff.mp h]; rfl
  | cons v vs ih =>
    rcases List.eq_nil_or_concat' old with rfl | ⟨old, o, rfl⟩
    · cases h
    · rw [List.length_append, List.length_singleton] at h hp
      have hset : storeGroup (pre ++ (old ++ [o]) ++ post) (p, v) = pre ++ old ++ v :: post := by
        have hp' : p.toNat = pre.length + old.length := by omega
        rw [storeGroup, if_pos (by dsimp only; omega), hp']
        simp
      have hrest := @ih (v :: post) old (Nat.succ.inj h) (p - 1) (by omega)
      rw [downWrites, List.foldl_cons, hset, hrest]
      simp

/-- There is a colon between any two groups. -/
theorem count_joinColon (hcolon : ∀ t ∈ s :: l, colon ∉ t) :
    (joinColon (s :: l)).count colon = l.length := by
  induction l generalizing s with
  | nil => exact List.count_eq_zero.mpr (hcolon s List.mem_cons_self)
  | cons t l ih =>
    obtain ⟨hs, hcolon⟩ := List.forall_mem_cons.mp hcolon
    rw [joinColon, List.count_append, List.count_cons_self, List.count_eq_zero.mpr hs, ih hcolon,
      List.length_cons, Nat.zero_add]

end Scans

/-! ## The conversion -/

section Conversion

variable {l r : List (List UInt8)} {s t : List UInt8} {groups left right : List HexGroup}

/-- The bytes of values one behind the other. -/
theorem memoryBytes_append (ip ip' : List UInt16) :
    memoryBytes (ip ++ ip') = memoryBytes ip ++ memoryBytes ip' := List.flatMap_append

/-- Values of nought are bytes of nought. -/
theorem memoryBytes_replicate (n : ℕ) :
    memoryBytes (List.replicate n 0) = (List.replicate n 0).flatMap networkBytes := by
  induction n with
  | zero => rfl
  | succ n ih =>
    rw [List.replicate_succ, List.replicate_succ, List.flatMap_cons, ← ih]
    rfl

/-- The groups come to the bytes of their numbers. -/
theorem memoryBytes_groups (groups : List HexGroup) :
    memoryBytes ((groups.map HexGroup.digits).map str2ns) =
      (groups.map HexGroup.value).flatMap networkBytes := by
  induction groups with
  | nil => rfl
  | cons g groups ih =>
    rw [List.map_cons, List.map_cons, List.map_cons, List.flatMap_cons, ← ih,
      ← memoryBytes_str2ns, ← memoryBytes_append, List.singleton_append]

/-- Eight groups: the last one stays nought. -/
theorem str2ip6_joinColon (hcolon : ∀ t ∈ s :: l, colon ∉ t) (hne : ∀ t ∈ l, t ≠ [])
    (hlen : l.length = 7) :
    str2ip6 (joinColon (s :: l)) = memoryBytes ((s :: l).dropLast.map str2ns ++ [0]) := by
  have hcount := count_joinColon hcolon
  rw [str2ip6, str2ip6Writes, if_neg (by omega), leftGroups_joinColon_end hcolon hne]
  have hstore := @foldl_upWrites [] [0] (List.replicate 7 0) ((s :: l).dropLast.map str2ns)
    (by simp [hlen])
  simp only [List.reverse_nil, rightGroups, List.append_nil]
  exact congrArg memoryBytes hstore

/-- Fewer groups on both sides of a `::`, where there is one on each side or it is empty. -/
theorem str2ip6_compressed (hl : ∀ t ∈ s :: l, colon ∉ t) (hr : ∀ s ∈ t :: r, colon ∉ s)
    (hne : ∀ t ∈ l, t ≠ []) (hlen : l.length + r.length ≤ 5) :
    str2ip6 (joinColon (s :: l) ++ colon :: colon :: joinColon (t :: r)) =
      memoryBytes ((s :: l).map str2ns ++ List.replicate (6 - (l.length + r.length)) 0 ++
        (t :: r).map str2ns) := by
  have hcount : (joinColon (s :: l) ++ colon :: colon :: joinColon (t :: r)).count colon =
      l.length + (r.length + 2) := by
    rw [List.count_append, List.count_cons_self, List.count_cons_self, count_joinColon hl,
      count_joinColon hr]
  have hright := @rightGroups_joinColon t [] r 7 hr
  rw [List.append_nil] at hright
  rw [str2ip6, str2ip6Writes, if_neg (by omega), leftGroups_joinColon hl hne]
  simp only [hright, rightGroups, List.append_nil, List.foldl_append]
  -- eight zeros, with room for the groups at both ends
  have hzero : List.replicate 8 (0 : UInt16) = [] ++ List.replicate (l.length + 1) 0 ++
      (List.replicate (6 - (l.length + r.length)) 0 ++ List.replicate (r.length + 1) 0) := by
    rw [List.nil_append, List.replicate_append_replicate, List.replicate_append_replicate]
    congr 1
    omega
  -- the left groups from the front, the right ones from the end
  have hup := @foldl_upWrites [] (List.replicate (6 - (l.length + r.length)) 0 ++
    List.replicate (r.length + 1) 0) (List.replicate (l.length + 1) 0) ((s :: l).map str2ns)
    (by simp)
  have hdown := @foldl_downWrites ((s :: l).map str2ns ++
    List.replicate (6 - (l.length + r.length)) 0) [] (List.replicate (r.length + 1) 0)
    ((t :: r).map str2ns).reverse (by simp) 7 (by simp; omega)
  rw [List.append_nil, List.append_nil, List.reverse_reverse] at hdown
  refine congrArg memoryBytes (Eq.trans ?_ hdown)
  rw [hzero]
  refine (congrArg (List.foldl storeGroup · _) hup).trans ?_
  rw [List.nil_append, List.append_assoc]

/-- A group has no colon. -/
theorem HexGroup.colon_notMem (g : HexGroup) : colon ∉ g.digits := fun h =>
  absurd (g.hex colon h) (by decide)

/-- A group has a digit. -/
theorem HexGroup.digits_ne_nil (g : HexGroup) : g.digits ≠ [] :=
  List.ne_nil_of_length_pos g.length_pos

/-- Next to a `::` no group counts as an empty one. -/
def segments (groups : List HexGroup) : List (List UInt8) :=
  if groups.isEmpty then [[]] else groups.map HexGroup.digits

def segmentValues (groups : List HexGroup) : List ℕ :=
  if groups.isEmpty then [0] else groups.map HexGroup.value

/-- The segments are written as the groups are. -/
theorem joinColon_segments (groups : List HexGroup) :
    joinColon (segments groups) = joinColon (groups.map HexGroup.digits) := by
  cases groups <;> rfl

/-- The segments come to the bytes of their numbers. -/
theorem memoryBytes_segments (groups : List HexGroup) :
    memoryBytes ((segments groups).map str2ns) =
      (segmentValues groups).flatMap networkBytes := by
  cases groups with
  | nil => rfl
  | cons g groups => exact memoryBytes_groups (g :: groups)

/-- Segments are one string and more, without colons, and only the first may be empty. -/
theorem exists_segments (groups : List HexGroup) : ∃ s l, segments groups = s :: l ∧
    (∀ t ∈ s :: l, colon ∉ t) ∧ (∀ t ∈ l, t ≠ []) ∧ l.length = groups.length - 1 := by
  cases groups with
  | nil => exact ⟨[], [], rfl, by simp, by simp, rfl⟩
  | cons g groups =>
    refine ⟨g.digits, groups.map HexGroup.digits, rfl, ?_, ?_, by simp⟩
    · rw [← List.map_cons]
      intro t ht
      obtain ⟨g, -, rfl⟩ := List.mem_map.mp ht
      exact g.colon_notMem
    · intro t ht
      obtain ⟨g, -, rfl⟩ := List.mem_map.mp ht
      exact g.digits_ne_nil

/-- An empty group next to a `::` is one of those that it stands for. -/
theorem segmentValues_eq (h : left.length + right.length ≤ 7) (houter : ¬ OuterSingle left right) :
    segmentValues left ++
        List.replicate (6 - (left.length - 1 + (right.length - 1))) 0 ++ segmentValues right =
      left.map HexGroup.value ++ List.replicate (8 - (left.length + right.length)) 0 ++
        right.map HexGroup.value := by
  rw [OuterSingle, ← List.length_eq_zero_iff, ← List.length_eq_zero_iff] at houter
  -- an empty side counts as a group of zero
  cases left with
  | nil =>
    cases right with
    | nil => rfl
    | cons g right =>
      rw [List.length_cons] at h houter
      have hcount : 8 - (0 + (right.length + 1)) = 1 + (6 - (0 + right.length)) := by
        simp at houter
        omega
      change [0] ++ List.replicate (6 - (0 - 1 + right.length)) 0 ++ _ =
        [] ++ List.replicate (8 - (0 + (right.length + 1))) 0 ++ _
      rw [hcount, List.replicate_add]
      rfl
  | cons g left =>
    cases right with
    | nil =>
      rw [List.length_cons] at h houter
      have hcount : 8 - (left.length + 1 + 0) = 6 - (left.length + 0) + 1 := by
        simp at houter
        omega
      change _ ++ List.replicate (6 - (left.length + 0)) 0 ++ [0] =
        _ ++ List.replicate (8 - (left.length + 1 + 0)) 0 ++ []
      rw [hcount, List.replicate_succ', List.append_nil, List.append_assoc]
      rfl
    | cons g' right =>
      have hcount : 8 - ((g :: left).length + (g' :: right).length) =
          6 - ((g :: left).length - 1 + ((g' :: right).length - 1)) := by
        rw [List.length_cons, List.length_cons]
        omega
      rw [hcount]
      rfl

/-- The conversion is right unless there are too many colons. -/
theorem str2ip6_text_compressed (h : left.length + right.length ≤ 7)
    (houter : ¬ OuterSingle left right) : str2ip6 (Ip6Text.compressed left right h).text =
      (Ip6Text.compressed left right h).denote := by
  obtain ⟨s, l, hl, hlcolon, hlne, hllen⟩ := exists_segments left
  obtain ⟨t, r, hr, hrcolon, -, hrlen⟩ := exists_segments right
  have hfew : l.length + r.length ≤ 5 := by
    rw [OuterSingle, ← List.length_eq_zero_iff, ← List.length_eq_zero_iff] at houter
    omega
  have hconvert := str2ip6_compressed hlcolon hrcolon hlne hfew
  rw [← hl, ← hr, joinColon_segments, joinColon_segments, hllen, hrlen, memoryBytes_append,
    memoryBytes_append, memoryBytes_segments, memoryBytes_segments, memoryBytes_replicate,
    ← List.flatMap_append, ← List.flatMap_append, segmentValues_eq h houter] at hconvert
  exact hconvert

/-- Eight colons are too many. -/
theorem str2ip6_text_outer (h : left.length + right.length ≤ 7) (houter : OuterSingle left right) :
    str2ip6 (Ip6Text.compressed left right h).text =
      (List.replicate 8 0).flatMap networkBytes := by
  obtain ⟨s, l, hl, hlcolon, -, hllen⟩ := exists_segments left
  obtain ⟨t, r, hr, hrcolon, -, hrlen⟩ := exists_segments right
  rw [OuterSingle, ← List.length_eq_zero_iff, ← List.length_eq_zero_iff] at houter
  have hcount : (Ip6Text.compressed left right h).text.count colon > 7 := by
    rw [Ip6Text.text, ← joinColon_segments, ← joinColon_segments, hl, hr, List.count_append,
      List.count_cons_self, List.count_cons_self, count_joinColon hlcolon, count_joinColon hrcolon]
    omega
  rw [str2ip6, str2ip6Writes, if_pos hcount]
  exact memoryBytes_replicate 8

/-- Of eight groups the last one is not stored. -/
theorem str2ip6_text_full (h : groups.length = 8) : str2ip6 (Ip6Text.full groups h).text =
    ((groups.map HexGroup.value).dropLast ++ [0]).flatMap networkBytes := by
  obtain ⟨s, l, hl, hcolon, hne, hlen⟩ := exists_segments groups
  have hconvert := str2ip6_joinColon hcolon hne (by omega)
  have hgroups : segments groups = groups.map HexGroup.digits := by
    cases groups with
    | nil => cases h
    | cons g groups => rfl
  rw [← hl, joinColon_segments, hgroups, ← List.map_dropLast, memoryBytes_append,
    memoryBytes_groups] at hconvert
  rw [Ip6Text.text, hconvert, List.flatMap_append, ← List.map_dropLast]
  rfl

/-- The numbers of an address have sixteen bits. -/
theorem Ip6Text.values_lt (a : Ip6Text) : ∀ n ∈ a.values, n < 2 ^ 16 := by
  have hgroups (groups : List HexGroup) : ∀ n ∈ groups.map HexGroup.value, n < 2 ^ 16 := by
    intro n hn
    obtain ⟨g, -, rfl⟩ := List.mem_map.mp hn
    exact g.value_lt
  cases a with
  | full groups h => exact hgroups groups
  | compressed left right h =>
    intro n hn
    rcases List.mem_append.mp hn with hn | hn
    · rcases List.mem_append.mp hn with hn | hn
      · exact hgroups left n hn
      · rw [List.eq_of_mem_replicate hn]
        decide
    · exact hgroups right n hn

/-- The groups that are not written are nought. -/
theorem forall_values_eq_zero_iff (h : left.length + right.length ≤ 7) :
    (∀ n ∈ (Ip6Text.compressed left right h).values, n = 0) ↔
      ∀ g ∈ left ++ right, g.value = 0 := by
  simp only [Ip6Text.values, List.mem_append, List.mem_map, List.mem_replicate, or_imp, forall_and,
    forall_exists_index, and_imp, forall_apply_eq_imp_iff₂]
  exact ⟨fun hall => ⟨hall.1.1, hall.2⟩, fun hall => ⟨⟨hall.1, fun _ _ hn => hn⟩, hall.2⟩⟩

/-- The conversion is right exactly for the addresses that lose nothing. -/
theorem str2ip6_text_eq_iff (a : Ip6Text) : str2ip6 a.text = a.denote ↔ a.LosesNothing := by
  have hvalues := a.values_lt
  cases a with
  | full groups h =>
    rcases List.eq_nil_or_concat' groups with rfl | ⟨groups, g, rfl⟩
    · cases h
    -- eight groups: the code stores the first seven, and a zero
    have hstored : ∀ n ∈ groups.map HexGroup.value ++ [0], n < 2 ^ 16 := by
      intro n hn
      rcases List.mem_append.mp hn with hn | hn
      · exact hvalues n (by
          rw [Ip6Text.values, List.map_append]
          exact List.mem_append_left _ hn)
      · rw [List.mem_singleton.mp hn]
        decide
    rw [str2ip6_text_full, Ip6Text.LosesNothing, Ip6Text.denote, Ip6Text.values, List.map_append,
      List.map_singleton, List.dropLast_concat]
    rw [Ip6Text.values, List.map_append, List.map_singleton] at hvalues
    constructor
    · intro heq
      have hlast := List.append_cancel_left (flatMap_networkBytes_injective hstored hvalues heq)
      simpa [eq_comm] using hlast
    · intro hzero
      rw [hzero g (by simp)]
  | compressed left right h =>
    by_cases houter : OuterSingle left right
    -- a `::` at an end that stands for one group: only zeros are stored
    · have hlen : (Ip6Text.compressed left right h).values.length = 8 := by
        simp only [Ip6Text.values, List.length_append, List.length_map, List.length_replicate]
        omega
      have hzeros : ∀ n ∈ List.replicate 8 0, n < 2 ^ 16 := by decide
      rw [str2ip6_text_outer h houter, Ip6Text.denote]
      constructor
      · intro heq _ g hg
        have hall := (List.eq_replicate_iff.mp
          (flatMap_networkBytes_injective hzeros hvalues heq).symm).2
        exact (forall_values_eq_zero_iff h).mp hall g hg
      · intro hzero
        rw [List.eq_replicate_iff.mpr
          ⟨hlen, (forall_values_eq_zero_iff h).mpr (hzero houter)⟩]
    · exact iff_of_true (str2ip6_text_compressed h houter) fun h => absurd h houter

end Conversion

/-! ## The URL -/

section Url

variable {a : Ip6Text}

/-- The text has colons and the characters of its groups. -/
theorem mem_joinColon {c : UInt8} {l : List (List UInt8)} (hc : c ∈ joinColon l) :
    c = colon ∨ ∃ s ∈ l, c ∈ s := by
  induction l using joinColon.induct with
  | case1 => exact absurd hc List.not_mem_nil
  | case2 s => exact .inr ⟨s, List.mem_cons_self, hc⟩
  | case3 s t l ih =>
    rcases List.mem_append.mp hc with hc | hc
    · exact .inr ⟨s, List.mem_cons_self, hc⟩
    · rcases List.mem_cons.mp hc with hc | hc
      · exact .inl hc
      · exact (ih hc).imp_right fun ⟨u, hu, hcu⟩ => ⟨u, List.mem_cons_of_mem _ hu, hcu⟩

/-- Five characters are enough for a group and its colon. -/
theorem length_joinColon_le {l : List (List UInt8)} (hl : ∀ s ∈ l, s.length ≤ 4) :
    (joinColon l).length ≤ 5 * l.length - 1 := by
  induction l using joinColon.induct with
  | case1 => exact Nat.le_refl 0
  | case2 s => exact hl s List.mem_cons_self
  | case3 s t l ih =>
    obtain ⟨hs, hl⟩ := List.forall_mem_cons.mp hl
    have hrest := ih hl
    simp only [joinColon, List.length_append, List.length_cons] at hrest ⊢
    omega

/-- An address is of hexadecimal digits and colons. -/
theorem Ip6Text.mem_text {c : UInt8} (hc : c ∈ a.text) : c = colon ∨ IsHexDigit c := by
  have hgroups {groups : List HexGroup} (hc : c ∈ joinColon (groups.map HexGroup.digits)) :
      c = colon ∨ IsHexDigit c := by
    refine (mem_joinColon hc).imp_right ?_
    rintro ⟨s, hs, hcs⟩
    obtain ⟨g, -, rfl⟩ := List.mem_map.mp hs
    exact g.hex c hcs
  cases a with
  | full groups h => exact hgroups hc
  | compressed left right h =>
    rcases List.mem_append.mp hc with hc | hc
    · exact hgroups hc
    · rcases List.mem_cons.mp hc with hc | hc
      · exact .inl hc
      · exact (List.mem_cons.mp hc).elim .inl hgroups

/-- An address fits into `ip6str`. -/
theorem Ip6Text.length_text_lt (a : Ip6Text) : a.text.length < ip6strSize := by
  have hgroups (groups : List HexGroup) :
      (joinColon (groups.map HexGroup.digits)).length ≤ 5 * groups.length - 1 := by
    have hle := length_joinColon_le (l := groups.map HexGroup.digits) fun s hs => by
      obtain ⟨g, -, rfl⟩ := List.mem_map.mp hs
      exact g.length_le
    rwa [List.length_map] at hle
  cases a with
  | full groups h =>
    have hle := hgroups groups
    rw [h] at hle
    exact Nat.lt_succ_of_le hle
  | compressed left right h =>
    have hleft := hgroups left
    have hright := hgroups right
    simp only [Ip6Text.text, List.length_append, List.length_cons, ip6strSize]
    omega

/-- The server of a URL is what the text between the brackets is converted to, where there is memory
for the path. -/
theorem extractTftpInfo_url (a : Ip6Text) {pool : ℕ → Bool} (path name : List UInt8)
    (hpool : pool (path.length + (translateSlashes name).length + 1) = true) :
    (extractTftpInfo pool (a.url path) name).map TftpInfo.tftpAddr =
      if str2ip6 a.text = List.replicate 16 0 then none else some (str2ip6 a.text) := by
  have hscheme : strncmp 7 (a.url path) (ascii "tftp://") = .eq := by
    refine (strncmp_length_eq_iff (p := ascii "tftp://") (by decide) _).mpr ?_
    exact ⟨91 :: a.text ++ 93 :: path, rfl⟩
  have hbracket : (93 : UInt8) ∉ a.text := by
    intro h
    rcases Ip6Text.mem_text h with h | h <;> revert h <;> decide
  have hstart : (a.url path).drop 8 = a.text ++ 93 :: path := rfl
  have hopen : ((a.url path).drop 7).head? = some 91 := rfl
  have hip6str : ((a.url path).drop 8).takeWhile (· ≠ 93) = a.text := by
    have hinside : ∀ c ∈ a.text, decide (c ≠ 93) = true := fun c hc =>
      decide_eq_true (ne_of_mem_of_not_mem hc hbracket)
    rw [hstart, List.takeWhile_append_of_pos hinside,
      List.takeWhile_cons_of_neg (by decide), List.append_nil]
  have hends : a.text ≠ (a.url path).drop 8 := by
    intro h
    rw [hstart] at h
    exact absurd (List.append_right_eq_self.mp h.symm) (List.cons_ne_nil _ _)
  have hpath : ((a.url path).drop 8).drop (a.text.length + 1) = path := by
    rw [hstart, List.drop_append, List.drop_of_length_le (Nat.le_succ _), List.nil_append,
      Nat.add_sub_cancel_left, List.drop_one, List.tail_cons]
  rw [extractTftpInfo, if_neg (not_not.mpr hscheme), if_neg (not_not.mpr hopen)]
  simp only [hip6str, hpath]
  rw [if_neg (Nat.not_le.mpr a.length_text_lt), if_neg hends, if_pos hpool]
  split_ifs <;> rfl

end Url

/-! ## The result array -/

section Bounds

variable {p : ℤ} {group s : List UInt8} {w : ℤ × UInt16}

/-- The first loop leaves no more colons than there are. -/
theorem count_leftGroups_le : (leftGroups p group s).2.count colon ≤ s.count colon := by
  induction s generalizing p group with
  | nil => exact Nat.le_refl 0
  | cons b s ih =>
    rw [leftGroups]
    split_ifs
    · exact ih.trans ((List.sublist_cons_self b s).count_le colon)
    · exact (List.sublist_cons_self b s).count_le colon
    · exact ih.trans ((List.sublist_cons_self b s).count_le colon)

/-- The first loop stores from `p` up, one value for a colon. -/
theorem leftGroups_bounds (hw : w ∈ (leftGroups p group s).1) :
    p ≤ w.1 ∧ w.1 + 1 + (leftGroups p group s).2.count colon ≤ p + s.count colon := by
  induction s generalizing p group with
  | nil => cases hw
  | cons b s ih =>
    rw [leftGroups] at hw ⊢
    split_ifs at hw ⊢ with hb hpair
    · rw [List.count_cons_of_ne hb]
      exact ih hw
    · obtain rfl := not_not.mp hb
      rw [List.mem_singleton.mp hw, List.count_cons_self]
      dsimp only
      omega
    · obtain rfl := not_not.mp hb
      rw [List.count_cons_self]
      rcases List.mem_cons.mp hw with rfl | hw
      · have hle := @count_leftGroups_le (p + 1) [] s
        dsimp only
        omega
      · have hbounds := ih hw
        dsimp only
        omega

/-- The second loop stores from `p` down, one value for a colon. -/
theorem rightGroups_bounds (hw : w ∈ rightGroups p group s) :
    p - s.count colon < w.1 ∧ w.1 ≤ p := by
  induction s generalizing p group with
  | nil => cases hw
  | cons a s ih =>
    rw [rightGroups] at hw
    split_ifs at hw with ha
    · rw [List.count_cons_of_ne ha]
      exact ih hw
    · obtain rfl := not_not.mp ha
      rw [List.count_cons_self]
      rcases List.mem_cons.mp hw with rfl | hw
      · dsimp only
        omega
      · have hbounds := ih hw
        omega

/-- All values are stored into the array. -/
theorem str2ip6Writes_bounds (s : List UInt8) : ∀ w ∈ str2ip6Writes s, 0 ≤ w.1 ∧ w.1 < 8 := by
  intro w hw
  unfold str2ip6Writes at hw
  split_ifs at hw with hcount
  · cases hw
  · have hle := @count_leftGroups_le 0 [] s
    rcases List.mem_append.mp hw with hw | hw
    · have hbounds := leftGroups_bounds hw
      omega
    · have hbounds := rightGroups_bounds hw
      rw [List.count_reverse] at hbounds
      omega

end Bounds

/-- **The conversion of IPv6 addresses.** An address is converted, and the server it names is used,
exactly if no group that gets lost is other than nought; every value is stored into the array. -/
theorem contacted_iff (a : Ip6Text) (s : Ip6Str) :
    (a.Contacted ↔ a.LosesNothing) ∧ ∀ w ∈ str2ip6Writes s, 0 ≤ w.1 ∧ w.1 < 8 := by
  refine ⟨?_, str2ip6Writes_bounds s⟩
  rw [← str2ip6_text_eq_iff]
  refine ⟨Ip6Text.Contacted.converted, fun h => ⟨h, fun pool path name hpool => ?_⟩⟩
  rw [extractTftpInfo_url a path name hpool, h]

/-- A group of one digit. -/
def digitGroup (c : UInt8) (hc : IsHexDigit c) : HexGroup := ⟨[c], by simp, by simp, by simpa⟩

/-- `1:2:3:4:5:6:7:8`. -/
def oneToEight : Ip6Text := .full
  [digitGroup 49 (by decide), digitGroup 50 (by decide), digitGroup 51 (by decide),
    digitGroup 52 (by decide), digitGroup 53 (by decide), digitGroup 54 (by decide),
    digitGroup 55 (by decide), digitGroup 56 (by decide)] rfl

/-- The last two bytes are nought. -/
theorem not_contacted_oneToEight : ¬ oneToEight.Contacted := by
  intro h
  have hconverted := h.converted
  revert hconverted
  decide

end Shim
