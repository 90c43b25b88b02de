import Shim.Common.StringBuffer
import Shim.Common.Stretch
import Shim.Http.NextUri

/-! # The path of the loader on a DHCPv4 server

`parseDhcp4` (netboot.c) takes the boot file of one of three packets and puts the name of the loader
where the last part of it stands. What it reads and writes is recorded; a test that C cuts short is
recorded in full.
-/

namespace Shim

open Bytes
open Stretch (Trail)

/-- `'\\'`. -/
def backslash : UInt8 := 92

/-- One of the characters that `parseDhcp4` cuts a path at. -/
def IsSeparator (b : UInt8) : Prop := b = slash ∨ b = backslash

instance : DecidablePred IsSeparator := fun _ => inferInstanceAs (Decidable (_ ∨ _))

/-- `sizeof(BootpBootFile)`. -/
def bootFileSize : ℕ := 128

/-- `EFI_PXE_BASE_CODE_DHCPV4_PACKET`: the boot file and the address of the server. -/
structure Dhcp4Packet where
  bootpBootFile : Mem
  bootpSiAddr : List UInt8
  length_eq : bootpBootFile.length = bootFileSize

/-- Where a packet comes from. -/
inductive Dhcp4Source
  | dhcpAck
  | proxyOffer
  | pxeReply
  deriving DecidableEq

/-- `pxe->Mode`. -/
structure PxeMode where
  packet : Dhcp4Source → Dhcp4Packet
  proxyOfferReceived : Bool
  pxeReplyReceived : Bool

/-- A loader name: a string with no more than one separator in front. -/
structure LoaderName where
  text : List UInt8
  zero_notMem : 0 ∉ text
  single : ∀ a b rest, text = a :: b :: rest → ¬ (IsSeparator a ∧ IsSeparator b)

/-- The buffers of `parseDhcp4`. -/
inductive Dhcp4Buffer
  | bootFile (source : Dhcp4Source)
  | template
  | fullPath
  deriving DecidableEq

/-- What `parseDhcp4` leaves behind. -/
structure NetbootTarget where
  fullPath : Mem
  tftpAddr : List UInt8

/-! ## The code -/

/-- The first character of the boot file of a packet. -/
def PxeMode.firstOf (mode : PxeMode) (source : Dhcp4Source) : Trail Dhcp4Buffer UInt8 := do
  Trail.access (.bootFile source) 0 1
  return peek (mode.packet source).bootpBootFile 0

/-- The packet that is used: the proxy offer and the reply are for those before them that have no
boot file. -/
def PxeMode.selectPacket (mode : PxeMode) : Trail Dhcp4Buffer Dhcp4Source := do
  let ack ← mode.firstOf .dhcpAck
  let source := if mode.proxyOfferReceived ∧ ack = 0 then .proxyOffer else .dhcpAck
  let first ← mode.firstOf source
  let reply ← mode.firstOf .pxeReply
  return if mode.pxeReplyReceived ∧ first = 0 ∧ reply ≠ 0 then .pxeReply else source

/-- The loop that looks for a separator from `i` down. -/
def lastSeparator (source : Dhcp4Source) (dir : Mem) : (i : ℕ) → Trail Dhcp4Buffer (Option ℕ)
  | 0 => do
    Trail.access (.bootFile source) 0 1
    return if IsSeparator (peek dir 0) then some 0 else none
  | i + 1 => do
    Trail.access (.bootFile source) (i + 1) 1
    if IsSeparator (peek dir (i + 1)) then return some (i + 1) else lastSeparator source dir i

/-- `dir_len`. -/
def directoryLen (source : Dhcp4Source) (dir : Mem) : Trail Dhcp4Buffer ℕ := do
  let dirLen := strnlen dir 127
  Trail.access (.bootFile source) 0 (min (dirLen + 1) 127)
  let i ← lastSeparator source dir dirLen
  return i.elim 0 (· + 1)

/-- The separator behind the directory against the one in front of the template. -/
def joinSeparator (fullPath : Mem) (template : List UInt8) (dirLen : ℕ) :
    Trail Dhcp4Buffer (Mem × List UInt8) := do
  Trail.access .fullPath (dirLen - 1) 1
  Trail.access .template 0 1
  let fullPath :=
    if peek fullPath (dirLen - 1) = slash ∧ template.headD 0 = slash then
      clear fullPath (dirLen - 1)
    else fullPath
  if peek fullPath (dirLen - 1) = backslash ∧ template.headD 0 = slash then
    return (clear fullPath (dirLen - 1), template.set 0 backslash)
  else return (fullPath, template)

/-- The directory of the boot file in an empty buffer, and the template to put behind it. -/
def copyDirectory (source : Dhcp4Source) (dir : Mem) (template : List UInt8) (dirLen : ℕ) :
    Trail Dhcp4Buffer (Mem × List UInt8) := do
  let fullPath := List.replicate (dirLen + (template.length + 1)) 0
  if dirLen > 0 then do
    Trail.access (.bootFile source) 0 dirLen
    Trail.access .fullPath 0 dirLen
    joinSeparator (strncpy fullPath dir dirLen) template dirLen
  else return (fullPath, template)

/-- `strcat(full_path, template + template_ofs)`. -/
def appendTemplate (fullPath : Mem) (template : List UInt8) (templateOfs : ℕ) :
    Trail Dhcp4Buffer Mem := do
  let text := template.drop templateOfs
  Trail.access .template templateOfs (text.length + 1)
  Trail.access .fullPath 0 (strlen fullPath 0 + 1)
  Trail.access .fullPath (strlen fullPath 0) (text.length + 1)
  return strcat fullPath text

/-- The steps of `parseDhcp4` that fill `full_path`. -/
def fillFullPath (source : Dhcp4Source) (pkt : Dhcp4Packet) (template : List UInt8) (dirLen : ℕ) :
    Trail Dhcp4Buffer NetbootTarget := do
  let joined ← copyDirectory source pkt.bootpBootFile template dirLen
  Trail.access (.bootFile source) 0 1
  Trail.access .template 0 1
  let templateOfs :=
    if dirLen = 0 ∧ peek pkt.bootpBootFile 0 ≠ slash ∧ joined.2.headD 0 = slash then 1 else 0
  let fullPath ← appendTemplate joined.1 joined.2 templateOfs
  return ⟨fullPath, pkt.bootpSiAddr⟩

/-- `parseDhcp4`; `none` is `EFI_OUT_OF_RESOURCES`. `pool` tells for how many bytes
`AllocateZeroPool` has memory; the template is taken to have its own, which the code does not look
at. -/
def parseDhcp4 (pool : ℕ → Bool) (mode : PxeMode) (name : LoaderName) :
    Trail Dhcp4Buffer (Option NetbootTarget) := do
  let template := translateSlashes name.text
  Trail.access .template 0 (template.length + 1)
  let source ← mode.selectPacket
  let pkt := mode.packet source
  let dirLen ← directoryLen source pkt.bootpBootFile
  if pool (dirLen + (template.length + 1)) then do
    let target ← fillFullPath source pkt template dirLen
    return some target
  else return none

/-! ## What is expected -/

/-- The packet that `parseDhcp4` uses. -/
def PxeMode.selected (mode : PxeMode) : Dhcp4Packet := mode.packet mode.selectPacket.value

/-- The boot file up to its terminator, if it has one. -/
def Dhcp4Packet.bootFileText (pkt : Dhcp4Packet) : List UInt8 := cstr pkt.bootpBootFile 0

/-- The name of the loader with slashes only, and without one in front. -/
def LoaderName.plain (name : LoaderName) : List UInt8 :=
  (translateSlashes name.text).dropWhile (· = slash)

/-- How large the buffers are. -/
def Dhcp4Buffer.size (mode : PxeMode) (name : LoaderName) : Dhcp4Buffer → ℕ
  | .bootFile _ => bootFileSize
  | .template => name.text.length + 2
  | .fullPath =>
    (directoryLen mode.selectPacket.value mode.selected.bootpBootFile).value +
      ((translateSlashes name.text).length + 1)

/-- The loader in the directory of a boot file, with the separator that the boot file has there. -/
def JoinedPath (bootFile loader path : List UInt8) : Prop :=
  (∃ dir sep file, bootFile = dir ++ sep :: file ∧ IsSeparator sep ∧
    (∀ b ∈ file, ¬ IsSeparator b) ∧ path = dir ++ sep :: loader) ∨
  (∀ b ∈ bootFile, ¬ IsSeparator b) ∧ path = loader

/-- `full_path` is a string in its buffer, the loader in the directory of the boot file; there is no
separator more than the one between them. -/
structure PxeMode.Joins (mode : PxeMode) (name : LoaderName) (fullPath : Mem) : Prop where
  length_eq : fullPath.length = Dhcp4Buffer.fullPath.size mode name
  plain : ∀ b ∈ name.plain.head?, ¬ IsSeparator b
  path : ∃ path rest, fullPath = path ++ 0 :: rest ∧ 0 ∉ path ∧
    JoinedPath mode.selected.bootFileText name.plain path

/-! ## The loader name -/

section Names

variable {l : List UInt8} {name : LoaderName}

/-- A character that is no backslash is kept. -/
theorem translateSlashes_cons (c : UInt8) (l : List UInt8) (hc : c ≠ backslash) :
    translateSlashes (c :: l) = c :: translateSlashes l :=
  translateSlashes.eq_4 c l (fun _ h _ => hc h) hc

/-- A single backslash becomes a slash. -/
theorem translateSlashes_backslash (hl : ∀ rest, l ≠ backslash :: rest) :
    translateSlashes (backslash :: l) = slash :: translateSlashes l := translateSlashes.eq_3 l hl

/-- Every character that is left is one of the name and no backslash, or a slash. -/
theorem mem_translateSlashes {b : UInt8} (hb : b ∈ translateSlashes l) :
    b = slash ∨ b ∈ l ∧ b ≠ backslash := by
  induction l using translateSlashes.induct with
  | case1 => exact absurd hb List.not_mem_nil
  | case2 rest ih =>
    rcases List.mem_cons.mp hb with rfl | hb
    · exact .inl rfl
    · exact (ih hb).imp_right (And.imp_left fun h => List.mem_cons_of_mem _ (.tail _ h))
  | case3 rest hrest ih =>
    rw [translateSlashes.eq_3 rest hrest] at hb
    rcases List.mem_cons.mp hb with rfl | hb
    · exact .inl rfl
    · exact (ih hb).imp_right (And.imp_left (List.mem_cons_of_mem _))
  | case4 c rest hpair hc ih =>
    rw [translateSlashes.eq_4 c rest hpair hc] at hb
    rcases List.mem_cons.mp hb with rfl | hb
    · exact .inr ⟨List.mem_cons_self, hc⟩
    · exact (ih hb).imp_right (And.imp_left (List.mem_cons_of_mem _))

/-- A name does not get longer. -/
theorem length_translateSlashes_le (l : List UInt8) : (translateSlashes l).length ≤ l.length := by
  induction l using translateSlashes.induct with
  | case1 => exact le_rfl
  | case2 rest ih => exact (Nat.succ_le_succ ih).trans (Nat.le_succ _)
  | case3 rest hrest ih =>
    rw [translateSlashes.eq_3 rest hrest]
    exact Nat.succ_le_succ ih
  | case4 c rest hpair hc ih =>
    rw [translateSlashes.eq_4 c rest hpair hc]
    exact Nat.succ_le_succ ih

/-- A name that starts with no separator is not changed there. -/
theorem dropWhile_translateSlashes (hl : ∀ c ∈ l.head?, ¬ IsSeparator c) :
    (translateSlashes l).dropWhile (· = slash) = translateSlashes l := by
  cases l with
  | nil => rfl
  | cons c l =>
    have hc := not_or.mp (hl c rfl)
    rw [translateSlashes_cons c l hc.2, List.dropWhile_cons_of_neg (by simpa using hc.1)]

/-- The template has a slash in front or none. -/
theorem LoaderName.template_eq (name : LoaderName) : translateSlashes name.text =
    if (translateSlashes name.text).headD 0 = slash then slash :: name.plain else name.plain := by
  unfold plain
  rcases htext : name.text with _ | ⟨c, l⟩
  · rfl
  · have hrest (hc : IsSeparator c) : ∀ b ∈ l.head?, ¬ IsSeparator b := by
      intro b hb hsep
      cases l with
      | nil => cases hb
      | cons a l =>
        obtain rfl := Option.some.inj hb
        exact name.single _ _ _ htext ⟨hc, hsep⟩
    by_cases hc : IsSeparator c
    · have hslash : translateSlashes (c :: l) = slash :: translateSlashes l := by
        rcases hc with rfl | rfl
        · exact translateSlashes_cons slash l (by decide)
        · refine translateSlashes_backslash fun rest hl => ?_
          subst hl
          exact hrest (.inr rfl) backslash rfl (.inr rfl)
      rw [hslash, List.headD_cons, if_pos rfl, List.dropWhile_cons_of_pos (by simp),
        dropWhile_translateSlashes (hrest hc)]
    · have hne := not_or.mp hc
      rw [translateSlashes_cons c l hne.2, List.headD_cons, if_neg hne.1,
        List.dropWhile_cons_of_neg (by simpa using hne.1)]

/-- The plain name has slashes and characters of the name. -/
theorem LoaderName.mem_plain {b : UInt8} (hb : b ∈ name.plain) :
    b = slash ∨ b ∈ name.text ∧ b ≠ backslash :=
  mem_translateSlashes ((List.dropWhile_sublist _).subset hb)

/-- The plain name is a string. -/
theorem LoaderName.zero_notMem_plain (name : LoaderName) : 0 ∉ name.plain := by
  intro hzero
  rcases LoaderName.mem_plain hzero with h | h
  · cases h
  · exact name.zero_notMem h.1

/-- It starts with no separator. -/
theorem LoaderName.head_plain (name : LoaderName) : ∀ b ∈ name.plain.head?, ¬ IsSeparator b := by
  intro b hb
  have hhead := List.head?_dropWhile_not (· = slash) (translateSlashes name.text)
  rw [show (translateSlashes name.text).dropWhile (· = slash) = name.plain from rfl,
    Option.mem_def.mp hb] at hhead
  have hslash : b ≠ slash := by simpa using hhead
  rintro (h | h)
  · exact hslash h
  · rcases LoaderName.mem_plain (List.mem_of_head? hb) with h' | h'
    · exact hslash h'
    · exact h'.2 h

end Names

/-! ## The directory -/

section Directories

variable {source : Dhcp4Source} {dir : Mem} {i k : ℕ}

/-- The loop finds the last separator. -/
theorem lastSeparator_some (h : (lastSeparator source dir i).value = some k) :
    k ≤ i ∧ IsSeparator (peek dir k) ∧ ∀ j, k < j → j ≤ i → ¬ IsSeparator (peek dir j) := by
  induction i with
  | zero =>
    simp only [lastSeparator, Trail.value_bind, Trail.value_pure] at h
    split_ifs at h with hsep
    obtain rfl := Option.some.inj h
    exact ⟨le_rfl, hsep, fun j hj hj0 => by omega⟩
  | succ i ih =>
    simp only [lastSeparator, Trail.value_bind, Trail.value_ite, Trail.value_pure] at h
    split_ifs at h with hsep
    · obtain rfl := Option.some.inj h
      exact ⟨le_rfl, hsep, fun j hj hji => by omega⟩
    · obtain ⟨hk, hkey, hrest⟩ := ih h
      refine ⟨Nat.le_succ_of_le hk, hkey, fun j hj hji => ?_⟩
      rcases Nat.le_succ_iff.mp hji with hji | rfl
      · exact hrest j hj hji
      · exact hsep

/-- A loop that finds none has come by none. -/
theorem lastSeparator_none (h : (lastSeparator source dir i).value = none) :
    ∀ j ≤ i, ¬ IsSeparator (peek dir j) := by
  induction i with
  | zero =>
    simp only [lastSeparator, Trail.value_bind, Trail.value_pure] at h
    split_ifs at h with hsep
    intro j hj
    rwa [Nat.le_zero.mp hj]
  | succ i ih =>
    simp only [lastSeparator, Trail.value_bind, Trail.value_ite, Trail.value_pure] at h
    split_ifs at h with hsep
    intro j hj
    rcases Nat.le_succ_iff.mp hj with hj | rfl
    · exact ih h j hj
    · exact hsep

/-- The loop stays in the boot file. -/
theorem staysIn_lastSeparator {sizes : Dhcp4Buffer → ℕ} (hi : i < sizes (.bootFile source)) :
    (lastSeparator source dir i).StaysIn sizes := by
  induction i with
  | zero =>
    exact (Trail.staysIn_bind _ _).mpr ⟨(Trail.staysIn_access _ _ _).mpr hi, Trail.staysIn_pure _⟩
  | succ i ih =>
    refine (Trail.staysIn_bind _ _).mpr ⟨(Trail.staysIn_access _ _ _).mpr hi, ?_⟩
    exact Trail.staysIn_ite (Trail.staysIn_pure _) (ih (by omega))

/-- The length of a directory: it ends in the last separator of the boot file. -/
inductive DirectoryIs (bootFile : List UInt8) : ℕ → Prop where
  | cut {dir file : List UInt8} {sep : UInt8} (heq : bootFile = dir ++ sep :: file)
      (hsep : IsSeparator sep) (hfile : ∀ b ∈ file, ¬ IsSeparator b) :
      DirectoryIs bootFile (dir.length + 1)
  | none (h : ∀ b ∈ bootFile, ¬ IsSeparator b) : DirectoryIs bootFile 0

/-- The directory ends in the last separator of the boot file. -/
theorem directoryLen_spec (source : Dhcp4Source) (pkt : Dhcp4Packet) :
    DirectoryIs pkt.bootFileText (directoryLen source pkt.bootpBootFile).value := by
  set m := pkt.bootpBootFile
  set text := pkt.bootFileText
  obtain ⟨z, hm, hend⟩ : ∃ z, m = text ++ z ∧ peek m text.length = 0 := exists_eq_cstr_append m
  -- the field has 128 bytes, of which the last is not looked at
  have hlen : text.length ≤ 128 := by
    have hsize : m.length = 128 := pkt.length_eq
    have := congrArg List.length hm
    rw [List.length_append] at this
    exact (Nat.le.intro this.symm).trans hsize.le
  have hpeek : ∀ j (hj : j < text.length), peek m j = text[j] := by
    intro j hj
    rw [hm, peek_append_left hj, peek, List.getD_eq_getElem?_getD, List.getElem?_eq_getElem hj]
    rfl
  have hvalue : (directoryLen source m).value =
      (lastSeparator source m (min 127 text.length)).value.elim 0 (· + 1) := by
    rw [← show strnlen m 127 = min 127 text.length from strnlen_eq m 127]
    rfl
  rw [hvalue]
  rcases hloop : (lastSeparator source m (min 127 text.length)).value with _ | k
  · refine .none fun b hb => ?_
    obtain ⟨j, hj, rfl⟩ := List.mem_iff_getElem.mp hb
    rw [← hpeek j hj]
    exact lastSeparator_none hloop j
      (Nat.le_min.mpr ⟨by omega, Nat.le_of_lt hj⟩)
  · obtain ⟨hk, hsep, hlast⟩ := lastSeparator_some hloop
    -- the NUL is no separator
    have hkt : k < text.length := by
      refine Nat.lt_of_le_of_ne (hk.trans (Nat.min_le_right _ _)) fun heq => ?_
      rw [heq, hend] at hsep
      exact absurd hsep (by decide)
    have hcut : DirectoryIs text ((text.take k).length + 1) := by
      refine @DirectoryIs.cut text _ (text.drop (k + 1)) text[k] ?_ (hpeek k hkt ▸ hsep) ?_
      · rw [← List.drop_eq_getElem_cons hkt, List.take_append_drop]
      · intro b hb
        obtain ⟨j, hj, rfl⟩ := List.mem_iff_getElem.mp hb
        rw [List.length_drop] at hj
        rw [List.getElem_drop, ← hpeek _ (by omega)]
        exact hlast _ (by omega) (Nat.le_min.mpr ⟨by omega, by omega⟩)
    rwa [List.length_take_of_le (Nat.le_of_lt hkt)] at hcut

end Directories

/-! ## The path -/

section Paths

variable {source : Dhcp4Source} {m dir z template : List UInt8} {sep : UInt8}

/-- Only one of two separators stays, and it is that of the directory. -/
theorem value_joinSeparator (hsep : IsSeparator sep) (dir z template : List UInt8) :
    (joinSeparator (dir ++ sep :: z) template (dir.length + 1)).value =
      if template.headD 0 = slash then (dir ++ 0 :: z, sep :: template.tail)
      else (dir ++ sep :: z, template) := by
  simp only [joinSeparator, Trail.value_bind, Trail.value_ite, Trail.value_pure,
    Nat.add_sub_cancel, peek_append_length, clear_append]
  by_cases hslash : template.headD 0 = slash
  · obtain ⟨b, t, rfl⟩ : ∃ b t, template = b :: t := by
      cases template with
      | nil => cases hslash
      | cons b t => exact ⟨b, t, rfl⟩
    obtain rfl : b = slash := hslash
    rcases hsep with rfl | rfl
    · simp only [List.headD_cons, and_self, if_true, peek_append_length, List.tail_cons]
      exact if_neg (by decide)
    · have hne : backslash ≠ slash := by decide
      simp only [List.headD_cons, hne, false_and, if_false, peek_append_length, and_self, if_true,
        List.tail_cons, clear_append]
      rfl
  · simp only [hslash, and_false, if_false]

/-- The directory is copied, with room for the template behind it. -/
theorem value_copyDirectory (hm : (dir ++ [sep]) <+: m) (hzero : 0 ∉ dir ++ [sep]) :
    (copyDirectory source m template (dir.length + 1)).value =
      (joinSeparator (dir ++ sep :: List.replicate (template.length + 1) 0) template
        (dir.length + 1)).value := by
  have htake : m.take (dir.length + 1) = dir ++ [sep] := by
    obtain ⟨r, rfl⟩ := hm
    rw [List.take_append_of_le_length (by simp), List.take_of_length_le (by simp)]
  have hcopy := @strncpy_eq (List.replicate (dir.length + 1 + (template.length + 1)) 0) m
    (dir.length + 1) (by simpa using hm.length_le) (by
      rw [htake]
      exact fun b hb => ne_of_mem_of_not_mem hb hzero)
  rw [htake, List.drop_replicate, Nat.add_sub_cancel_left] at hcopy
  simp only [copyDirectory, gt_iff_lt, Nat.succ_pos, if_true, Trail.value_bind]
  rw [hcopy, List.append_assoc, List.singleton_append]

/-- What is in the buffer before the template is put behind it, and what is put there: together
they are the path, and they leave room for its terminator. -/
structure Joinable (path : List UInt8) (size : ℕ) (fullPath text : List UInt8) : Prop where
  holds : ∃ s rest, fullPath = s ++ 0 :: rest ∧ 0 ∉ s ∧ path = s ++ text
  length_eq : fullPath.length = size
  fits : path.length + 1 = size ∨ path.length + 2 = size

/-- What is put behind makes the path, with its terminator in the buffer. -/
theorem Joinable.appendTemplate {path fullPath text : List UInt8} {size : ℕ}
    (h : Joinable path size fullPath text) :
    ∃ rest, strcat fullPath text = path ++ 0 :: rest ∧ (strcat fullPath text).length = size ∧
      strlen fullPath 0 + (text.length + 1) ≤ size := by
  obtain ⟨⟨s, rest, rfl, hs, rfl⟩, hlen, hfits⟩ := h
  rw [List.length_append, List.length_cons] at hlen
  rw [List.length_append] at hfits
  rw [strcat_append_zero hs, strlen_append_zero hs]
  refine ⟨_, rfl, ?_, by omega⟩
  simp only [List.length_append, List.length_cons, List.length_drop]
  omega

/-- Behind a directory the template brings the name, with the separator where it has one. -/
theorem joinable_directory (hzero : 0 ∉ dir ++ [sep]) (hsep : IsSeparator sep)
    (name : LoaderName) :
    let template := translateSlashes name.text
    let joined := (joinSeparator (dir ++ sep :: List.replicate (template.length + 1) 0) template
      (dir.length + 1)).value
    Joinable (dir ++ sep :: name.plain) (dir.length + 1 + (template.length + 1)) joined.1
      joined.2 := by
  have htemplate := name.template_eq
  dsimp only
  rw [value_joinSeparator hsep]
  by_cases hslash : (translateSlashes name.text).headD 0 = slash
  · rw [if_pos hslash] at htemplate ⊢
    rw [htemplate]
    have hdir : 0 ∉ dir := fun h => hzero (List.mem_append_left _ h)
    exact ⟨⟨dir, _, rfl, hdir, rfl⟩, by simp; omega, .inr (by simp; omega)⟩
  · rw [if_neg hslash] at htemplate ⊢
    rw [htemplate]
    refine ⟨⟨dir ++ [sep], List.replicate name.plain.length 0, ?_, hzero, ?_⟩, ?_, ?_⟩
    · simp [List.replicate_succ]
    · simp
    · simp; omega
    · exact .inl (by simp; omega)

/-- With no directory the template comes without its separator. -/
theorem joinable_plain (name : LoaderName) :
    let template := translateSlashes name.text
    Joinable name.plain (template.length + 1) (List.replicate (template.length + 1) 0)
      (template.drop (if template.headD 0 = slash then 1 else 0)) := by
  have htemplate := name.template_eq
  dsimp only
  have hdrop : (translateSlashes name.text).drop
      (if (translateSlashes name.text).headD 0 = slash then 1 else 0) = name.plain := by
    split_ifs with hslash
    · rw [if_pos hslash] at htemplate
      rw [htemplate, List.drop_one, List.tail_cons]
    · rw [if_neg hslash] at htemplate
      rw [htemplate, List.drop_zero]
  rw [hdrop]
  refine ⟨⟨[], _, rfl, List.not_mem_nil, rfl⟩, by simp, ?_⟩
  rw [htemplate]
  split_ifs <;> simp

/-- What `parseDhcp4` has when it comes to `strcat`. -/
def joinedParts (mode : PxeMode) (name : LoaderName) : Mem × List UInt8 :=
  let source := mode.selectPacket.value
  let dir := mode.selected.bootpBootFile
  let dirLen := (directoryLen source dir).value
  let joined := (copyDirectory source dir (translateSlashes name.text) dirLen).value
  (joined.1, joined.2.drop
    (if dirLen = 0 ∧ peek dir 0 ≠ slash ∧ joined.2.headD 0 = slash then 1 else 0))

/-- The path is the two parts, one behind the other. -/
theorem value_fillFullPath (mode : PxeMode) (name : LoaderName) :
    (fillFullPath mode.selectPacket.value mode.selected (translateSlashes name.text)
      (directoryLen mode.selectPacket.value mode.selected.bootpBootFile).value).value.fullPath =
      strcat (joinedParts mode name).1 (joinedParts mode name).2 := rfl

/-- The parts are those of the path that is expected. -/
theorem joinable_joinedParts (mode : PxeMode) (name : LoaderName) :
    ∃ path, JoinedPath mode.selected.bootFileText name.plain path ∧ 0 ∉ path ∧
      Joinable path (Dhcp4Buffer.fullPath.size mode name) (joinedParts mode name).1
        (joinedParts mode name).2 := by
  have hdirectory := directoryLen_spec mode.selectPacket.value mode.selected
  have hzero : 0 ∉ mode.selected.bootFileText := zero_notMem_cstr _ _
  obtain ⟨z, hm, hend⟩ := exists_eq_cstr_append mode.selected.bootpBootFile
  unfold joinedParts Dhcp4Buffer.size
  dsimp only
  generalize (directoryLen mode.selectPacket.value mode.selected.bootpBootFile).value = dirLen
    at hdirectory ⊢
  cases hdirectory with
  -- the directory is kept with its separator, and the name put behind it
  | @cut dir file sep heq hsep hfile =>
    rw [heq, show dir ++ sep :: file = (dir ++ [sep]) ++ file by simp] at hzero
    have hdir : 0 ∉ dir ++ [sep] := fun h => hzero (List.mem_append_left _ h)
    have hprefix : (dir ++ [sep]) <+: mode.selected.bootpBootFile := by
      rw [hm, show cstr mode.selected.bootpBootFile 0 = dir ++ sep :: file from heq]
      exact ⟨file ++ z, by simp⟩
    refine ⟨dir ++ sep :: name.plain, .inl ⟨dir, sep, file, heq, hsep, hfile, rfl⟩, ?_, ?_⟩
    · rw [← List.singleton_append, ← List.append_assoc, List.mem_append, not_or]
      exact ⟨hdir, name.zero_notMem_plain⟩
    · rw [value_copyDirectory hprefix hdir, if_neg fun h => Nat.succ_ne_zero _ h.1,
        List.drop_zero]
      exact joinable_directory hdir hsep name
  -- no separator: the name stands alone
  | none h =>
    have hfirst : peek mode.selected.bootpBootFile 0 ≠ slash := by
      intro hslash
      rcases htext : cstr mode.selected.bootpBootFile 0 with _ | ⟨b, text⟩
      · rw [strlen, htext, List.length_nil, hslash] at hend
        exact absurd hend (by decide)
      · rw [hm, htext] at hslash
        exact h b (show b ∈ cstr mode.selected.bootpBootFile 0 from htext ▸ List.mem_cons_self)
          (.inl hslash)
    refine ⟨name.plain, .inr ⟨h, rfl⟩, name.zero_notMem_plain, ?_⟩
    have hcopy (template : List UInt8) : (copyDirectory mode.selectPacket.value
        mode.selected.bootpBootFile template 0).value =
        (List.replicate (template.length + 1) 0, template) := by
      simp [copyDirectory]
    rw [hcopy]
    simpa only [hfirst, ne_eq, not_false_eq_true, true_and, Nat.zero_add] using joinable_plain name

/-- The choice of the packet reads first characters only. -/
theorem staysIn_selectPacket (mode : PxeMode) (name : LoaderName) :
    mode.selectPacket.StaysIn (Dhcp4Buffer.size mode name) := by
  have hfirst : ∀ source, (mode.firstOf source).StaysIn (Dhcp4Buffer.size mode name) := by
    intro source
    exact (Trail.staysIn_bind _ _).mpr
      ⟨(Trail.staysIn_access _ _ _).mpr (show 0 + 1 ≤ 128 by decide), Trail.staysIn_pure _⟩
  simp only [PxeMode.selectPacket, Trail.staysIn_bind, Trail.staysIn_pure, and_true]
  exact ⟨hfirst _, hfirst _, hfirst _⟩

/-- The search for the directory stays in the boot file. -/
theorem staysIn_directoryLen (mode : PxeMode) (name : LoaderName) (source : Dhcp4Source)
    (dir : Mem) : (directoryLen source dir).StaysIn (Dhcp4Buffer.size mode name) := by
  have hlen := strnlen_eq dir 127
  simp only [directoryLen, Trail.staysIn_bind, Trail.staysIn_pure, and_true,
    Trail.staysIn_access]
  refine ⟨?_, staysIn_lastSeparator ?_⟩
  · show 0 + min (strnlen dir 127 + 1) 127 ≤ 128
    omega
  · show strnlen dir 127 < 128
    omega

/-- The template keeps its length. -/
theorem length_copyDirectory (source : Dhcp4Source) (dir template : List UInt8) (dirLen : ℕ) :
    (copyDirectory source dir template dirLen).value.2.length = template.length := by
  simp only [copyDirectory, joinSeparator, Trail.value_bind, Trail.value_ite, Trail.value_pure]
  split_ifs <;> simp

/-- The directory is no longer than the boot file. -/
theorem directoryLen_le (source : Dhcp4Source) (pkt : Dhcp4Packet) :
    (directoryLen source pkt.bootpBootFile).value ≤ bootFileSize := by
  have htext : pkt.bootFileText.length ≤ bootFileSize := by
    rw [← pkt.length_eq]
    exact (List.takeWhile_sublist _).length_le
  have hdirectory := directoryLen_spec source pkt
  generalize (directoryLen source pkt.bootpBootFile).value = dirLen at hdirectory ⊢
  cases hdirectory with
  | @cut dir file sep heq =>
    rw [heq, List.length_append, List.length_cons] at htext
    omega
  | none => exact Nat.zero_le _

/-- The directory is copied inside of both buffers. -/
theorem staysIn_copyDirectory {mode : PxeMode} {name : LoaderName} (source : Dhcp4Source)
    (dir : Mem) {template : List UInt8} {dirLen : ℕ} (hdir : dirLen ≤ bootFileSize)
    (hsize : dirLen + (template.length + 1) = Dhcp4Buffer.fullPath.size mode name) :
    (copyDirectory source dir template dirLen).StaysIn (Dhcp4Buffer.size mode name) := by
  have htemplate : 0 + 1 ≤ Dhcp4Buffer.template.size mode name := Nat.le_add_left _ _
  refine Trail.staysIn_ite ?_ (Trail.staysIn_pure _)
  simp only [joinSeparator, Trail.staysIn_bind, Trail.staysIn_access, ← hsize]
  refine ⟨?_, by omega, by omega, htemplate, ?_⟩
  · show 0 + dirLen ≤ bootFileSize
    omega
  · exact Trail.staysIn_ite (Trail.staysIn_pure _) (Trail.staysIn_pure _)

/-- `full_path` is filled inside of the buffers, with the loader in the directory of the boot
file. -/
theorem fillFullPath_spec (mode : PxeMode) (name : LoaderName) :
    let filled := fillFullPath mode.selectPacket.value mode.selected (translateSlashes name.text)
      (directoryLen mode.selectPacket.value mode.selected.bootpBootFile).value
    filled.StaysIn (Dhcp4Buffer.size mode name) ∧ mode.Joins name filled.value.fullPath := by
  obtain ⟨path, hpath, hzero, hjoinable⟩ := joinable_joinedParts mode name
  obtain ⟨rest, hvalue, hlen, hroom⟩ := hjoinable.appendTemplate
  refine ⟨?_, ?_⟩
  · have htext := length_translateSlashes_le name.text
    simp only [fillFullPath, appendTemplate, Trail.staysIn_bind, Trail.staysIn_access,
      Trail.staysIn_pure, and_true]
    refine ⟨staysIn_copyDirectory _ _ (directoryLen_le _ _) rfl, ?_, ?_, ?_, ?_, ?_⟩
    · exact (by decide : 0 + 1 ≤ bootFileSize)
    · exact Nat.le_add_left _ _
    · show _ ≤ name.text.length + 2
      rw [List.length_drop, length_copyDirectory]
      split_ifs <;> omega
    · refine Nat.le_trans ?_ hroom
      rw [Nat.zero_add]
      exact Nat.add_le_add_left (Nat.le_add_left _ _) _
    · exact hroom
  · rw [value_fillFullPath]
    exact ⟨hlen, name.head_plain, path, rest, hvalue, hzero, hpath⟩

/-- **The path of the loader.** `parseDhcp4` reads and writes inside of its buffers only, and leaves
the loader in the directory of the boot file, or nothing where there is no memory for it. -/
theorem parseDhcp4_spec (pool : ℕ → Bool) (mode : PxeMode) (name : LoaderName) :
    (parseDhcp4 pool mode name).StaysIn (Dhcp4Buffer.size mode name) ∧
      if pool (Dhcp4Buffer.fullPath.size mode name) then
        ∃ target, (parseDhcp4 pool mode name).value = some target ∧
          mode.Joins name target.fullPath
      else (parseDhcp4 pool mode name).value = none := by
  obtain ⟨hfills, hjoins⟩ := fillFullPath_spec mode name
  refine ⟨?_, ?_⟩
  · have htext := length_translateSlashes_le name.text
    have hlength : (translateSlashes name.text).length + 1 ≤ name.text.length + 2 := by omega
    simp only [parseDhcp4, Trail.staysIn_bind, Trail.staysIn_access]
    refine ⟨(Nat.zero_add _).trans_le hlength, staysIn_selectPacket mode name,
      staysIn_directoryLen mode name _ _, ?_⟩
    exact Trail.staysIn_ite ((Trail.staysIn_bind _ _).mpr ⟨hfills, Trail.staysIn_pure _⟩)
      (Trail.staysIn_pure _)
  · split_ifs with hpool
    · exact ⟨_, congrArg Trail.value (if_pos hpool), hjoins⟩
    · exact congrArg Trail.value (if_neg hpool)

end Paths

end Shim
