import Shim.Common.Bytes
import Shim.Common.Event
import Shim.Common.Loop

/-! # The boot file of a DHCPv6 packet

`get_v6_bootfile_url` goes through the options of a packet by the lengths that the packet itself
gives. A turn of its loop records what it reads; an offset is one into the option area.
-/

namespace Shim

open Bytes
open Event (AllSound)

/-- `sizeof(pkt->DhcpOptions)`. -/
def dhcpOptionsSize : ℕ := 1024

/-- `EFI_PXE_BASE_CODE_DHCPV6_PACKET`: its option area. -/
structure Dhcp6Packet where
  dhcpOptions : Mem
  length_eq : dhcpOptions.length = dhcpOptionsSize

/-- `sizeof(EFI_DHCP6_PACKET_OPTION)`: two 16-bit fields and one byte, padded. -/
def dhcp6OptionSize : ℕ := 6

/-- Two bytes, the higher one first: what `ntohs` makes of them. -/
def ntohsAt (m : Mem) (p : ℕ) : ℕ := (peek m p).toNat * 256 + (peek m (p + 1)).toNat

namespace Dhcp6Packet

variable (pkt : Dhcp6Packet)

/-- `ntohs(option->OpCode)`. -/
def opCode (optr : ℕ) : ℕ := ntohsAt pkt.dhcpOptions optr

/-- `ntohs(option->Length)`. -/
def optionLen (optr : ℕ) : ℕ := ntohsAt pkt.dhcpOptions (optr + 2)

/-- `option->Data`, as long as the option says. -/
def payload (optr : ℕ) : List UInt8 :=
  slice pkt.dhcpOptions (optr + 4) (optr + 4 + pkt.optionLen optr)

end Dhcp6Packet

/-- The reads of both tests of the code, and of the length. -/
def dhcp6HeaderReads (optr : ℕ) : List Event := [.read optr 2, .read optr 2, .read (optr + 2) 2]

/-- One turn of the loop of `get_v6_bootfile_url`. `pool` tells for how many bytes there is memory;
`AllocateZeroPool` leaves a NUL behind the copy. -/
def getV6BootfileUrlTurn (pool : ℕ → Bool) (pkt : Dhcp6Packet) (optr : ℕ) :
    List Event × (ℕ ⊕ Option Mem) :=
  if pkt.opCode optr = 0 then ([.read optr 2], .inr none)
  else if pkt.opCode optr = 59 then
    if optr + 4 + pkt.optionLen optr > dhcpOptionsSize then (dhcp6HeaderReads optr, .inr none)
    else if pool (pkt.optionLen optr + 1) then
      (dhcp6HeaderReads optr ++ [.read (optr + 4) (pkt.optionLen optr)],
        .inr (some (pkt.payload optr ++ [0])))
    else (dhcp6HeaderReads optr, .inr none)
  else if optr + (4 + pkt.optionLen optr) + dhcp6OptionSize > dhcpOptionsSize then
    (dhcp6HeaderReads optr, .inr none)
  else (dhcp6HeaderReads optr, .inl (optr + (4 + pkt.optionLen optr)))

/-- `get_v6_bootfile_url`, with what it reads in each turn. No turn starts behind the area. -/
def getV6BootfileUrl (pool : ℕ → Bool) (pkt : Dhcp6Packet) :
    Option (List (List Event) × Option Mem) :=
  Loop.run (getV6BootfileUrlTurn pool pkt) dhcpOptionsSize 0

/-! ## The options of a packet -/

/-- An option starts at this offset, and none before it is a boot file or of code 0. -/
inductive Dhcp6Packet.OptionAt (pkt : Dhcp6Packet) : ℕ → Prop where
  | first : pkt.OptionAt 0
  | next {p : ℕ} (hp : pkt.OptionAt p) (hzero : pkt.opCode p ≠ 0) (hurl : pkt.opCode p ≠ 59)
    (hfits : p + 4 + pkt.optionLen p + 4 ≤ dhcpOptionsSize) :
    pkt.OptionAt (p + 4 + pkt.optionLen p)

/-- The first boot file, with its payload inside of the area. -/
structure Dhcp6Packet.BootFileAt (pkt : Dhcp6Packet) (p : ℕ) : Prop where
  optionAt : pkt.OptionAt p
  opCode_eq : pkt.opCode p = 59
  fits : p + 4 + pkt.optionLen p ≤ dhcpOptionsSize

/-- What the scan has to give: a copy of the payload of the first boot file, `none` where there is
no such, and either if it starts in the last five bytes of the area. -/
structure Dhcp6Packet.IsBootFile (pkt : Dhcp6Packet) (pool : ℕ → Bool) (url : Option Mem) :
    Prop where
  copied : ∀ p, pkt.BootFileAt p → p + 5 < dhcpOptionsSize → pool (pkt.optionLen p + 1) →
    url = some (pkt.payload p ++ [0])
  of_some : ∀ text, url = some text → ∃ p, pkt.BootFileAt p ∧ text = pkt.payload p ++ [0]

section Scan

variable {pool : ℕ → Bool} {pkt : Dhcp6Packet} {p q : ℕ}

open Loop (Next Reaches)

/-- The loop goes on from an option of another code, to where its length says. -/
theorem getV6BootfileUrlTurn_next_iff :
    Next (getV6BootfileUrlTurn pool pkt) p q ↔
      pkt.opCode p ≠ 0 ∧ pkt.opCode p ≠ 59 ∧ q = p + 4 + pkt.optionLen p ∧
        q + 6 ≤ dhcpOptionsSize := by
  unfold Next getV6BootfileUrlTurn dhcp6OptionSize
  split_ifs with hzero hurl hbehind hpool hend
  · simp [hzero]
  · simp [hurl]
  · simp [hurl]
  · simp [hurl]
  · simp only [false_iff]
    omega
  · simp only [Sum.inl.injEq]
    omega

/-- The loop comes to an offset exactly if an option starts there that may have a byte of data. -/
theorem getV6BootfileUrlTurn_reaches_iff :
    Reaches (getV6BootfileUrlTurn pool pkt) 0 p ↔
      pkt.OptionAt p ∧ p + 6 ≤ dhcpOptionsSize := by
  constructor
  · intro h
    induction h with
    | refl => exact ⟨.first, by decide⟩
    | tail _ hnext ih =>
      obtain ⟨hzero, hurl, rfl, hend⟩ := getV6BootfileUrlTurn_next_iff.mp hnext
      exact ⟨.next ih.1 hzero hurl (by omega), hend⟩
  · rintro ⟨hp, hend⟩
    induction hp with
    | first => exact .refl
    | next _ hzero hurl _ ih =>
      exact (ih (by omega)).tail (getV6BootfileUrlTurn_next_iff.mpr ⟨hzero, hurl, rfl, hend⟩)

/-- A turn at an option that may have a byte of data reads inside of the area. -/
theorem getV6BootfileUrlTurn_sound (hend : p + 6 ≤ dhcpOptionsSize) :
    AllSound dhcpOptionsSize (getV6BootfileUrlTurn pool pkt p).1 := by
  have hcode : Event.Inside dhcpOptionsSize p 2 := .inr (by omega)
  have hheader : AllSound dhcpOptionsSize (dhcp6HeaderReads p) := by
    have hlen : Event.Inside dhcpOptionsSize (p + 2) 2 := .inr (by omega)
    simpa [dhcp6HeaderReads] using ⟨hcode, hlen⟩
  unfold getV6BootfileUrlTurn
  split_ifs with hzero hurl hbehind
  · simpa using hcode
  · exact hheader
  · have hpayload : Event.Inside dhcpOptionsSize (p + 4) (pkt.optionLen p) := .inr (by omega)
    simpa using ⟨hheader, hpayload⟩
  all_goals exact hheader

/-- A turn gives a copy exactly at a boot file for which there is memory. -/
theorem getV6BootfileUrlTurn_some_iff {text : Mem} :
    (getV6BootfileUrlTurn pool pkt p).2 = .inr (some text) ↔
      pkt.opCode p = 59 ∧ p + 4 + pkt.optionLen p ≤ dhcpOptionsSize ∧
        pool (pkt.optionLen p + 1) ∧ text = pkt.payload p ++ [0] := by
  unfold getV6BootfileUrlTurn
  split_ifs with hzero hurl hbehind hpool
  · simp [hzero]
  · simp only [Sum.inr.injEq, reduceCtorEq, false_iff]
    omega
  · simp [hurl, hpool, Nat.not_lt.mp hbehind, eq_comm]
  all_goals simp [*]

/-- **The option scan.** It ends, it reads inside of the option area only, and it gives the first
boot file of the packet. -/
theorem getV6BootfileUrl_spec (pool : ℕ → Bool) (pkt : Dhcp6Packet) :
    ∃ turns url, getV6BootfileUrl pool pkt = some (turns, url) ∧
      (∀ reads ∈ turns, AllSound dhcpOptionsSize reads) ∧ pkt.IsBootFile pool url := by
  have hturn : ∀ p, Reaches (getV6BootfileUrlTurn pool pkt) 0 p →
      AllSound dhcpOptionsSize (getV6BootfileUrlTurn pool pkt p).1 :=
    fun p hp => getV6BootfileUrlTurn_sound (getV6BootfileUrlTurn_reaches_iff.mp hp).2
  obtain ⟨turns, url, hrun, hsound⟩ := Loop.exists_run_of_measure (dhcpOptionsSize - 6 - ·) hturn
    (fun p q _ hnext => by
      obtain ⟨-, -, rfl, hend⟩ := getV6BootfileUrlTurn_next_iff.mp hnext
      omega)
    (show dhcpOptionsSize - 6 - 0 < dhcpOptionsSize by decide)
  obtain ⟨q, hq, hstop⟩ := Loop.exists_reaches_stop hrun
  refine ⟨turns, url, hrun, hsound, ?_, ?_⟩
  · intro p hp hlast hpool
    have hcopy := getV6BootfileUrlTurn_some_iff.mpr ⟨hp.opCode_eq, hp.fits, hpool, rfl⟩
    have hreaches : Reaches (getV6BootfileUrlTurn pool pkt) 0 p :=
      getV6BootfileUrlTurn_reaches_iff.mpr ⟨hp.optionAt, hlast⟩
    obtain rfl := hreaches.stop_unique hcopy hq hstop
    exact (Sum.inr.inj (hcopy.symm.trans hstop)).symm
  · rintro text rfl
    obtain ⟨hcode, hfits, -, htext⟩ := getV6BootfileUrlTurn_some_iff.mp hstop
    exact ⟨q, ⟨(getV6BootfileUrlTurn_reaches_iff.mp hq).1, hcode, hfits⟩, htext⟩

end Scan

end Shim
