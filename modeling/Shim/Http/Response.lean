import Mathlib.Data.List.GetD
import Shim.Common.ByteMap
import Shim.Common.CText
import Shim.Efi.Status

/-! # The response to a request

`receive_http_response` (httpboot.c) over what the firmware answers, response after response. The
buffer is a byte map over offsets from `*buffer`, and the copies into it are recorded. A length of
nought and a refused allocation leave through the error path with the status of the last call, which
succeeded; a response without a body does not get the loop any further.
-/

namespace Shim

open CText

/-! ## Headers -/

/-- `toupper`. -/
def toupper (c : UInt8) : UInt8 := if 97 ≤ c.toNat ∧ c.toNat ≤ 122 then c - 32 else c

/-- `strcasecmp`. -/
def strcasecmp : List UInt8 → List UInt8 → ℤ
  | [], b => (toupper 0).toNat - (toupper (b.headD 0)).toNat
  | x :: a, b =>
    if toupper x = toupper (b.headD 0) then strcasecmp a b.tail
    else (toupper x).toNat - (toupper (b.headD 0)).toNat

/-- The digit loop of `ascii_to_int`. -/
def asciiDigits (u : ℕ) : List UInt8 → ℕ
  | [] => u
  | c :: str => if IsDigit c then asciiDigits ((u * 10 + digit c) % 2 ^ 64) str else u

/-- `ascii_to_int`. -/
def asciiToInt (str : List UInt8) : ℕ := asciiDigits 0 (str.dropWhile (· = 32))

/-- The header names the length of the body. -/
def IsContentLength (h : List UInt8 × List UInt8) : Prop :=
  strcasecmp h.1 (ascii "Content-Length") = 0

instance (h : List UInt8 × List UInt8) : Decidable (IsContentLength h) :=
  inferInstanceAs (Decidable (_ = _))

/-- The loop over the headers, `*buf_size` so far in `bufSize`. -/
def announced (bufSize : ℕ) (headers : List (List UInt8 × List UInt8)) : ℕ :=
  headers.foldl (fun n h => if IsContentLength h then asciiToInt h.2 else n) bufSize

/-- The number at the start of a text, behind spaces. -/
def leadingNumber (str : List UInt8) : ℕ :=
  decimal ((str.dropWhile (· = 32)).takeWhile (fun c => decide (IsDigit c)))

/-- The length the headers state: the last word is the last header's. -/
def contentLength (headers : List (List UInt8 × List UInt8)) : Option ℕ :=
  (headers.filter fun h => decide (IsContentLength h)).getLast?.map fun h => leadingNumber h.2

/-- `ascii_to_int` keeps the low 64 bits. -/
theorem asciiDigits_eq (u : ℕ) (str : List UInt8) :
    asciiDigits (u % 2 ^ 64) str =
      (u * 10 ^ (str.takeWhile fun c => decide (IsDigit c)).length +
        decimal (str.takeWhile fun c => decide (IsDigit c))) % 2 ^ 64 := by
  induction str generalizing u with
  | nil => simp [asciiDigits, decimal]
  | cons c str ih =>
    by_cases hc : IsDigit c
    · have hmod : (u % 2 ^ 64 * 10 + digit c) % 2 ^ 64 = (u * 10 + digit c) % 2 ^ 64 := by omega
      rw [asciiDigits, if_pos hc, hmod, ih, List.takeWhile_cons_of_pos (by simpa using hc),
        decimal_cons, List.length_cons, pow_succ]
      congr 1
      ring
    · rw [asciiDigits, if_neg hc, List.takeWhile_cons_of_neg (by simpa using hc)]
      simp [decimal]

/-- A length is the leading number, modulo 2^64. -/
theorem asciiToInt_eq (str : List UInt8) : asciiToInt str = leadingNumber str % 2 ^ 64 := by
  have h := asciiDigits_eq 0 (str.dropWhile (· = 32))
  rw [Nat.zero_mod, Nat.zero_mul, Nat.zero_add] at h
  exact h

/-- What the loop over the headers leaves in `*buf_size`. -/
theorem announced_eq (bufSize : ℕ) (headers : List (List UInt8 × List UInt8)) :
    announced bufSize headers = (contentLength headers).elim bufSize (· % 2 ^ 64) := by
  induction headers using List.reverseRecOn with
  | nil => rfl
  | append_singleton headers h ih =>
    unfold announced contentLength at ih ⊢
    rw [List.foldl_append, List.filter_append, List.foldl_cons, List.foldl_nil]
    by_cases hlen : IsContentLength h
    · rw [if_pos hlen, List.filter_cons_of_pos (by simpa using hlen), List.filter_nil,
        List.getLast?_append, asciiToInt_eq]
      rfl
    · rw [if_neg hlen, List.filter_cons_of_neg (by simpa using hlen), List.filter_nil,
        List.append_nil]
      exact ih

/-! ## receive_http_response -/

/-- `HTTP_STATUS_200_OK`. -/
def httpStatus200Ok : ℕ := 3

/-- What one `http->Response` brings: the status of the call and of the token; for the first one the
status code and the headers; and at most as much of the body as `rx_buffer` holds. -/
structure HttpResponse where
  call : Fault
  token : Fault
  statusCode : ℕ
  headers : List (List UInt8 × List UInt8)
  body : List UInt8
  body_le : body.length ≤ 9216

/-- The error of the call, else of the token. -/
def HttpResponse.fault (r : HttpResponse) : Fault := r.call <|> r.token

/-- The other calls: an allocated pool has what was in the memory, and does not overlap `rx_buffer`
in the address space. -/
structure ReceiveAnswers where
  createEvent : Fault
  allocatePool : ℕ → Option (ℕ → UInt8)
  room : ∀ n m, allocatePool n = some m → n + 9216 ≤ 2 ^ 64

/-- The outcome: `status` is missing while the call waits for a further response; `copies` are the
places written in `*buffer`, `responses` the number of bodies copied there. -/
structure Received where
  status : Option EfiStatus
  buffer : Option (ℕ → UInt8)
  bufSize : ℕ
  copies : List (ℕ × ℕ)
  responses : ℕ

/-- The download so far. -/
structure Download where
  memory : ℕ → UInt8
  copies : List (ℕ × ℕ)
  responses : ℕ
  downloaded : ℕ

/-- Copy a body behind what was downloaded. -/
def Download.add (d : Download) (body : List UInt8) : Download where
  memory := ByteMap.fill d.memory d.downloaded body.length fun i => body.getD i 0
  copies := d.copies ++ [(d.downloaded, body.length)]
  responses := d.responses + 1
  downloaded := (d.downloaded + body.length) % 2 ^ 64

/-- Leave the download. -/
def Download.leave (d : Download) (bufSize : ℕ) (status : Option EfiStatus) : Received :=
  ⟨status, some d.memory, bufSize, d.copies, d.responses⟩

/-- The loop over the rest of the message. -/
def receiveRest (bufSize : ℕ) (d : Download) : List HttpResponse → Received
  | [] => d.leave bufSize (if d.downloaded < bufSize then none else some .success)
  | r :: rs =>
    if d.downloaded < bufSize then
      match r.fault with
      | some e => d.leave bufSize (some e.1)
      | none =>
        if bufSize < (r.body.length + d.downloaded) % 2 ^ 64 then
          d.leave bufSize (some .badBufferSize)
        else receiveRest bufSize (d.add r.body) rs
    else d.leave bufSize (some .success)

/-- Leave before there is a buffer. -/
def leaveEarly (bufSize : ℕ) (status : Option EfiStatus) : Received :=
  ⟨status, none, bufSize, [], 0⟩

/-- What `receive_http_response` does once the first response is there. -/
def receiveFirst (bufSize : ℕ) (a : ReceiveAnswers) (r : HttpResponse) (rs : List HttpResponse) :
    Received :=
  if r.statusCode ≠ httpStatus200Ok then leaveEarly bufSize (some .aborted)
  else
    let bufSize := announced bufSize r.headers
    if bufSize = 0 then leaveEarly bufSize (some .success)
    else if bufSize < r.body.length then leaveEarly bufSize (some .badBufferSize)
    else
      match a.allocatePool bufSize with
      | none => leaveEarly bufSize (some .success)
      | some m => receiveRest bufSize ((⟨m, [], 0, 0⟩ : Download).add r.body) rs

/-- `receive_http_response`, called with `*buf_size` and a NULL `*buffer`, over the responses the
firmware has for it. -/
def receiveHttpResponse (bufSize : ℕ) (a : ReceiveAnswers) (rs : List HttpResponse) : Received :=
  match a.createEvent with
  | some e => leaveEarly bufSize (some e.1)
  | none =>
    match rs with
    | [] => leaveEarly bufSize none
    | r :: rs =>
      match r.fault with
      | some e => leaveEarly bufSize (some e.1)
      | none => receiveFirst bufSize a r rs

/-! ## Following the download -/

section Download

variable {s : ℕ → HttpResponse} {bufSize : ℕ} {d : Download}

/-- The bodies of the first `k` responses. -/
def bodies (s : ℕ → HttpResponse) (k : ℕ) : List UInt8 := (List.range k).flatMap fun i => (s i).body

/-- The bodies come one behind the other. -/
theorem bodies_succ (s : ℕ → HttpResponse) (k : ℕ) : bodies s (k + 1) = bodies s k ++ (s k).body := by
  rw [bodies, List.range_succ, List.flatMap_append, List.flatMap_singleton]
  rfl

/-- What has come does not get less. -/
theorem length_bodies_mono (s : ℕ → HttpResponse) :
    Monotone fun k => (bodies s k).length := by
  refine monotone_nat_of_le_succ fun k => ?_
  rw [bodies_succ, List.length_append]
  exact Nat.le_add_right _ _

/-- The download follows the responses `s` into a buffer of `bufSize` bytes. -/
structure Download.Follows (s : ℕ → HttpResponse) (bufSize : ℕ) (d : Download) : Prop where
  downloaded : d.downloaded = (bodies s d.responses).length
  le : d.downloaded ≤ bufSize
  bytes : (List.range d.downloaded).map d.memory = bodies s d.responses
  copies : ∀ c ∈ d.copies, c.1 + c.2 ≤ bufSize
  arrived : ∀ i < d.responses, (s i).fault = none

/-- A list written behind the first `o` bytes. -/
theorem map_fill (m : ℕ → UInt8) (o : ℕ) (l : List UInt8) :
    (List.range (o + l.length)).map (ByteMap.fill m o l.length fun i => l.getD i 0) =
      (List.range o).map m ++ l := by
  apply List.ext_getElem
  · simp
  · intro i hi hi'
    rw [List.getElem_map, List.getElem_range]
    unfold ByteMap.fill
    rw [List.length_map, List.length_range] at hi
    by_cases ho : o ≤ i
    · rw [if_pos ⟨ho, hi⟩, List.getElem_append_right (by simpa using ho)]
      simp only [List.length_map, List.length_range]
      exact List.getD_eq_getElem _ _ _
    · rw [if_neg (fun h => ho h.1), List.getElem_append_left (by simpa using ho), List.getElem_map,
        List.getElem_range]

/-- A body that fits keeps the download at the responses. -/
theorem Download.Follows.add (h : d.Follows s bufSize) (hfault : (s d.responses).fault = none)
    (hfits : d.downloaded + (s d.responses).body.length ≤ bufSize) (hsize : bufSize < 2 ^ 64) :
    (d.add (s d.responses).body).Follows s bufSize := by
  have hwrap : (d.downloaded + (s d.responses).body.length) % 2 ^ 64 =
      d.downloaded + (s d.responses).body.length := Nat.mod_eq_of_lt (lt_of_le_of_lt hfits hsize)
  constructor
  · rw [Download.add, hwrap, bodies_succ, List.length_append, ← h.downloaded]
  · rw [Download.add, hwrap]
    exact hfits
  · rw [Download.add, hwrap, bodies_succ, ← h.bytes]
    exact map_fill _ _ _
  · intro c hc
    rcases List.mem_append.mp hc with hc | hc
    · exact h.copies c hc
    · rw [List.mem_singleton.mp hc]
      exact hfits
  · intro i hi
    rcases Nat.lt_succ_iff_lt_or_eq.mp hi with hi | rfl
    · exact h.arrived i hi
    · exact hfault

/-- How the loop can stand after `n` responses that begin at the one numbered `first`: it waits, it
has the whole body, or a response failed or brought too much. -/
inductive Download.Stands (s : ℕ → HttpResponse) (bufSize first n : ℕ) (d : Download) :
    Option EfiStatus → Prop
  | waits (hn : d.responses = first + n) (h : d.downloaded < bufSize) :
      Stands s bufSize first n d none
  | whole (h : d.downloaded = bufSize) : Stands s bufSize first n d (some .success)
  | fails (e : EfiStatus) (he : e.isError = true) (h : d.downloaded < bufSize)
      (hs : (s d.responses).fault ≠ none ∨ bufSize < (bodies s (d.responses + 1)).length) :
      Stands s bufSize first n d (some e)

/-- The loop follows the responses to where it stops or stands. -/
theorem receiveRest_spec (hsize : bufSize + 9216 ≤ 2 ^ 64) (hd : d.Follows s bufSize) (n : ℕ) :
    ∃ d' status, receiveRest bufSize d ((List.range' d.responses n).map s) =
        d'.leave bufSize status ∧ d'.Follows s bufSize ∧
      Download.Stands s bufSize d.responses n d' status := by
  induction n generalizing d with
  | zero =>
    refine ⟨d, _, rfl, hd, ?_⟩
    by_cases hlt : d.downloaded < bufSize
    · rw [if_pos hlt]
      exact .waits rfl hlt
    · rw [if_neg hlt]
      exact .whole (le_antisymm hd.le (not_lt.mp hlt))
  | succ n ih =>
    rw [List.range'_succ, List.map_cons, receiveRest]
    by_cases hlt : d.downloaded < bufSize
    · rw [if_pos hlt]
      cases hfault : (s d.responses).fault with
      | some e => exact ⟨d, _, rfl, hd, .fails e.1 e.2 hlt (.inl (by simp [hfault]))⟩
      | none =>
        -- the sum does not wrap
        have hbody := (s d.responses).body_le
        have hwrap : ((s d.responses).body.length + d.downloaded) % 2 ^ 64 =
            d.downloaded + (s d.responses).body.length := by
          rw [Nat.add_comm]
          exact Nat.mod_eq_of_lt (by omega)
        dsimp only
        rw [hwrap]
        by_cases hover : bufSize < d.downloaded + (s d.responses).body.length
        · rw [if_pos hover]
          refine ⟨d, _, rfl, hd, .fails _ rfl hlt (.inr ?_)⟩
          rwa [bodies_succ, List.length_append, ← hd.downloaded]
        · rw [if_neg hover]
          have hadd := hd.add hfault (not_lt.mp hover) (by omega)
          obtain ⟨d', status, heq, hd', hstands⟩ := ih hadd
          refine ⟨d', status, heq, hd', ?_⟩
          cases hstands with
          | waits hn h =>
            have hone : (d.add (s d.responses).body).responses = d.responses + 1 := rfl
            exact .waits (by omega) h
          | whole h => exact .whole h
          | fails e he h hs => exact .fails e he h hs
    · rw [if_neg hlt]
      exact ⟨d, _, rfl, hd, .whole (le_antisymm hd.le (not_lt.mp hlt))⟩

end Download

/-! ## The whole body, or an error -/

section Whole

variable {a : ReceiveAnswers} {s : ℕ → HttpResponse}

/-- `receive_http_response` as `http_fetch` calls it, over the first `n` responses. -/
def received (a : ReceiveAnswers) (s : ℕ → HttpResponse) (n : ℕ) : Received :=
  receiveHttpResponse 0 a ((List.range n).map s)

/-- The call returns; and it succeeds on a response of status 200 only, with a buffer of as many
bytes as the headers state, which are those of the bodies, and else returns an error. -/
def WholeOrError (a : ReceiveAnswers) (s : ℕ → HttpResponse) : Prop :=
  (∃ n, (received a s n).status ≠ none) ∧
  (∀ n, (received a s n).status = some .success →
    (s 0).statusCode = httpStatus200Ok ∧
      contentLength (s 0).headers = some (received a s n).bufSize ∧
      ∃ m, (received a s n).buffer = some m ∧
        (List.range (received a s n).bufSize).map m = bodies s (received a s n).responses) ∧
  (∀ n e, (received a s n).status = some e → e ≠ .success → e.isError = true) ∧
  ∀ n, ∀ c ∈ (received a s n).copies, c.1 + c.2 ≤ (received a s n).bufSize

/-- `*buf_size` behind the loop over the headers. -/
def announcedSize (s : ℕ → HttpResponse) : ℕ := announced 0 (s 0).headers

/-- The responses end the loop: one fails, or the bodies reach the length. -/
def Ends (s : ℕ → HttpResponse) : Prop :=
  ∃ k, (s k).fault ≠ none ∨ announcedSize s ≤ (bodies s (k + 1)).length

/-- The bodies reach the length exactly, before a response fails. -/
def Completes (s : ℕ → HttpResponse) : Prop :=
  ∃ k, (∀ i ≤ k, (s i).fault = none) ∧ (bodies s (k + 1)).length = announcedSize s

/-- A response of status 200 states a length other than nought, and if the first body is no longer
than that, the buffer is allocated, the responses end, and where they bring all of it the length
stated is a 64-bit number. -/
def WellAnnounced (a : ReceiveAnswers) (s : ℕ → HttpResponse) : Prop :=
  a.createEvent = none → (s 0).fault = none → (s 0).statusCode = httpStatus200Ok →
    announcedSize s ≠ 0 ∧
      ((s 0).body.length ≤ announcedSize s →
        (a.allocatePool (announcedSize s)).isSome ∧ Ends s ∧
          (Completes s → ∀ v, contentLength (s 0).headers = some v → v < 2 ^ 64))

/-- A length other than nought was in a header. -/
theorem contentLength_mod (h : announcedSize s ≠ 0) :
    ∃ v, contentLength (s 0).headers = some v ∧ announcedSize s = v % 2 ^ 64 := by
  unfold announcedSize at h ⊢
  rw [announced_eq] at h ⊢
  cases hlen : contentLength (s 0).headers with
  | none =>
    rw [hlen] at h
    exact absurd rfl h
  | some v => exact ⟨v, rfl, rfl⟩

/-- An announced size has 64 bits. -/
theorem announcedSize_lt (h : announcedSize s ≠ 0) : announcedSize s < 2 ^ 64 := by
  obtain ⟨v, -, hv⟩ := contentLength_mod h
  rw [hv]
  exact Nat.mod_lt _ (by norm_num)

/-- Without a turn nothing is received. -/
theorem received_zero (h : a.createEvent = none) : received a s 0 = leaveEarly 0 none := by
  simp [received, receiveHttpResponse, h]

/-- A first turn, and those behind it. -/
theorem received_succ (a : ReceiveAnswers) (s : ℕ → HttpResponse) (n : ℕ) :
    received a s (n + 1) =
      match a.createEvent with
      | some e => leaveEarly 0 (some e.1)
      | none =>
        match (s 0).fault with
        | some e => leaveEarly 0 (some e.1)
        | none => receiveFirst 0 a (s 0) ((List.range' 1 n).map s) := by
  unfold received receiveHttpResponse
  rw [List.range_eq_range', List.range'_succ, List.map_cons]

/-- What happens to a response of status 200. -/
theorem received_ok (hevent : a.createEvent = none) (hfault : (s 0).fault = none)
    (hstatus : (s 0).statusCode = httpStatus200Ok) (n : ℕ) :
    received a s (n + 1) =
      if announcedSize s = 0 then leaveEarly (announcedSize s) (some .success)
      else if announcedSize s < (s 0).body.length then
        leaveEarly (announcedSize s) (some .badBufferSize)
      else
        match a.allocatePool (announcedSize s) with
        | none => leaveEarly (announcedSize s) (some .success)
        | some m => receiveRest (announcedSize s)
            ((⟨m, [], 0, 0⟩ : Download).add (s 0).body) ((List.range' 1 n).map s) := by
  rw [received_succ, hevent, hfault]
  dsimp only
  rw [receiveFirst, if_neg (not_not.mpr hstatus)]
  rfl

/-- The download after the first response follows the responses. -/
theorem follows_first {m : ℕ → UInt8} (hfault : (s 0).fault = none)
    (hbody : (s 0).body.length ≤ announcedSize s) (hsize : announcedSize s < 2 ^ 64) :
    ((⟨m, [], 0, 0⟩ : Download).add (s 0).body).Follows s (announcedSize s) := by
  have h0 : (⟨m, [], 0, 0⟩ : Download).Follows s (announcedSize s) :=
    { downloaded := rfl
      le := Nat.zero_le _
      bytes := rfl
      copies := fun c hc => absurd hc List.not_mem_nil
      arrived := fun i hi => absurd hi (Nat.not_lt_zero i) }
  exact h0.add hfault (by rwa [Nat.zero_add]) hsize

/-- Runs that leave early, and with an error where they return, are in order. -/
theorem wholeOrError_of_early (hreturn : ∃ n, (received a s n).status ≠ none)
    (hearly : ∀ n, ∃ bufSize status, received a s n = leaveEarly bufSize status ∧
      ∀ e, status = some e → e.isError = true) : WholeOrError a s := by
  refine ⟨hreturn, fun n hn => ?_, fun n e hn _ => ?_, fun n c hc => ?_⟩
  · obtain ⟨bufSize, status, heq, herror⟩ := hearly n
    rw [heq] at hn
    exact absurd (herror _ hn) (by decide)
  · obtain ⟨bufSize, status, heq, herror⟩ := hearly n
    rw [heq] at hn
    exact herror e hn
  · obtain ⟨bufSize, status, heq, -⟩ := hearly n
    rw [heq] at hc
    exact absurd hc List.not_mem_nil

/-- The same where one status ends the call at the first response. -/
theorem wholeOrError_of_first {bufSize : ℕ} {e : EfiStatus} (hevent : a.createEvent = none)
    (he : e.isError = true) (h : ∀ n, received a s (n + 1) = leaveEarly bufSize (some e)) :
    WholeOrError a s := by
  refine wholeOrError_of_early ⟨1, by rw [h 0]; exact Option.some_ne_none e⟩ fun n => ?_
  cases n with
  | zero =>
    exact ⟨0, none, received_zero hevent, fun e' h' => by cases h'⟩
  | succ n => exact ⟨bufSize, some e, h n, fun e' h' => Option.some.inj h' ▸ he⟩

/-- A success without a buffer is not in order. -/
theorem not_wholeOrError_of_first {bufSize : ℕ}
    (h : received a s 1 = leaveEarly bufSize (some .success)) : ¬ WholeOrError a s := by
  rintro ⟨-, hwhole, -⟩
  have hsuccess := hwhole 1
  rw [h] at hsuccess
  obtain ⟨-, -, m, hbuffer, -⟩ := hsuccess rfl
  cases hbuffer

/-- What a run is, once the first response has led to a download. -/
structure RunDownloads (a : ReceiveAnswers) (s : ℕ → HttpResponse) : Prop where
  event : a.createEvent = none
  status : (s 0).statusCode = httpStatus200Ok
  pos : announcedSize s ≠ 0
  runs : ∀ n, ∃ d status, received a s (n + 1) = d.leave (announcedSize s) status ∧
    d.Follows s (announcedSize s) ∧ Download.Stands s (announcedSize s) 1 n d status

/-- A run does lead there where the first body fits and the buffer is allocated. -/
theorem runDownloads_of_allocated {m : ℕ → UInt8} (hevent : a.createEvent = none)
    (hfault : (s 0).fault = none) (hstatus : (s 0).statusCode = httpStatus200Ok)
    (hpos : announcedSize s ≠ 0) (hbody : (s 0).body.length ≤ announcedSize s)
    (halloc : a.allocatePool (announcedSize s) = some m) : RunDownloads a s := by
  refine ⟨hevent, hstatus, hpos, fun n => ?_⟩
  have hroom := a.room _ _ halloc
  have hspec := receiveRest_spec hroom (follows_first (m := m) hfault hbody (by omega)) n
  obtain ⟨d, status, heq, hfollows, hstands⟩ := hspec
  refine ⟨d, status, ?_, hfollows, hstands⟩
  rw [received_ok hevent hfault hstatus, if_neg hpos, if_neg (not_lt.mpr hbody), halloc]
  exact heq

/-- Bodies that reach a length other than nought are those of one response at least. -/
theorem exists_succ_of_bodies {k : ℕ} (h : (bodies s k).length ≠ 0) : ∃ j, k = j + 1 := by
  refine Nat.exists_eq_succ_of_ne_zero ?_
  rintro rfl
  exact h rfl

/-- Nothing is returned before the first response. -/
theorem RunDownloads.exists_succ (h : RunDownloads a s)
    (hreturn : ∃ n, (received a s n).status ≠ none) :
    ∃ n, (received a s (n + 1)).status ≠ none := by
  obtain ⟨n, hn⟩ := hreturn
  cases n with
  | zero =>
    rw [received_zero h.event] at hn
    exact absurd rfl hn
  | succ n => exact ⟨n, hn⟩

/-- A download that returns has been ended by the responses. -/
theorem RunDownloads.ends (h : RunDownloads a s) (hreturn : ∃ n, (received a s n).status ≠ none) :
    Ends s := by
  obtain ⟨n, hn⟩ := h.exists_succ hreturn
  obtain ⟨d, status, heq, hfollows, hstands⟩ := h.runs n
  rw [heq] at hn
  cases hstands with
  | waits => exact absurd rfl hn
  | whole hall =>
    have hlen := hfollows.downloaded.symm.trans hall
    obtain ⟨j, hj⟩ := exists_succ_of_bodies (hlen ▸ h.pos)
    exact ⟨j, .inr (by rw [← hj, hlen])⟩
  | fails e he hlt hs => exact ⟨d.responses, hs.imp_right le_of_lt⟩

/-- A download the responses end returns. -/
theorem RunDownloads.returns (h : RunDownloads a s) (hends : Ends s) :
    ∃ n, (received a s n).status ≠ none := by
  obtain ⟨k, hk⟩ := hends
  obtain ⟨d, status, heq, hfollows, hstands⟩ := h.runs (k + 1)
  refine ⟨k + 2, ?_⟩
  rw [heq]
  cases hstands with
  | waits hn hlt =>
    -- all of the first `k + 1` responses arrived, and have not reached the length
    rcases hk with hfault | hlen
    · exact absurd (hfollows.arrived k (by omega)) hfault
    · have hmono := length_bodies_mono s (show k + 1 ≤ d.responses by omega)
      have hdown := hfollows.downloaded
      dsimp only at hmono
      omega
  | whole => exact Option.some_ne_none _
  | fails => exact Option.some_ne_none _

/-- A download of responses that bring the whole body does not fail. -/
theorem RunDownloads.not_fails (hcomplete : Completes s) {d : Download}
    (hfollows : d.Follows s (announcedSize s)) (hlt : d.downloaded < announcedSize s)
    (hs : (s d.responses).fault ≠ none ∨
      announcedSize s < (bodies s (d.responses + 1)).length) : False := by
  obtain ⟨k, harrived, hlen⟩ := hcomplete
  have hdown := hfollows.downloaded
  by_cases hk : d.responses ≤ k
  · have hmono := length_bodies_mono s (show d.responses + 1 ≤ k + 1 by omega)
    dsimp only at hmono
    rcases hs with hfault | hover
    · exact hfault (harrived _ hk)
    · omega
  · have hmono := length_bodies_mono s (show k + 1 ≤ d.responses by omega)
    dsimp only at hmono
    omega

/-- A download is in order if and only if the responses end it, and a whole body has a length of 64
bits. -/
theorem RunDownloads.wholeOrError_iff_ends (h : RunDownloads a s) :
    WholeOrError a s ↔ Ends s ∧
      (Completes s → ∀ v, contentLength (s 0).headers = some v → v < 2 ^ 64) := by
  obtain ⟨v, hv, hmod⟩ := contentLength_mod h.pos
  constructor
  · rintro ⟨hreturn, hwhole, -, -⟩
    -- a whole body has the announced length, which has 64 bits
    refine ⟨h.ends hreturn, fun hcomplete w hw => ?_⟩
    obtain ⟨n, hn⟩ := h.exists_succ hreturn
    obtain ⟨d, status, heq, hfollows, hstands⟩ := h.runs n
    have hsuccess := hwhole (n + 1)
    rw [heq] at hn hsuccess
    cases hstands with
    | waits => exact absurd rfl hn
    | whole =>
      obtain ⟨-, hlen, -⟩ := hsuccess rfl
      have hsize := announcedSize_lt h.pos
      obtain rfl := Option.some.inj (hw.symm.trans hlen)
      exact hsize
    | fails e he hlt hs => exact (RunDownloads.not_fails hcomplete hfollows hlt hs).elim
  · rintro ⟨hends, hvalue⟩
    -- the four parts, each for any number of turns
    refine ⟨h.returns hends, fun n hn => ?_, fun n e hn hne => ?_, fun n c hc => ?_⟩
    · cases n with
      | zero =>
        rw [received_zero h.event] at hn
        cases hn
      | succ n =>
        obtain ⟨d, status, heq, hfollows, hstands⟩ := h.runs n
        rw [heq] at hn ⊢
        cases hstands with
        | waits => cases hn
        | whole hall =>
          have hlen := hfollows.downloaded.symm.trans hall
          obtain ⟨j, hj⟩ := exists_succ_of_bodies (hlen ▸ h.pos)
          have hlt := hvalue ⟨j, fun i hi => hfollows.arrived i (by omega), by rw [← hj, hlen]⟩ v hv
          refine ⟨h.status, ?_, d.memory, rfl, ?_⟩
          · rw [hv, ← Nat.mod_eq_of_lt hlt, ← hmod]
            rfl
          · have hbytes := hfollows.bytes
            rw [hall] at hbytes
            exact hbytes
        | fails e he =>
          obtain rfl := Option.some.inj hn
          exact absurd he (by decide)
    · cases n with
      | zero =>
        rw [received_zero h.event] at hn
        cases hn
      | succ n =>
        obtain ⟨d, status, heq, -, hstands⟩ := h.runs n
        rw [heq] at hn
        cases hstands with
        | waits => cases hn
        | whole => exact absurd (Option.some.inj hn).symm hne
        | fails e' he => exact Option.some.inj hn ▸ he
    · cases n with
      | zero =>
        rw [received_zero h.event] at hc
        exact absurd hc List.not_mem_nil
      | succ n =>
        obtain ⟨d, status, heq, hfollows, -⟩ := h.runs n
        rw [heq] at hc ⊢
        exact hfollows.copies c hc

/-- A response of status 200 is handled in order if and only if it is well announced. -/
theorem wholeOrError_iff_of_ok (hevent : a.createEvent = none) (hfault : (s 0).fault = none)
    (hstatus : (s 0).statusCode = httpStatus200Ok) :
    WholeOrError a s ↔ announcedSize s ≠ 0 ∧
      ((s 0).body.length ≤ announcedSize s →
        (a.allocatePool (announcedSize s)).isSome ∧ Ends s ∧
          (Completes s → ∀ v, contentLength (s 0).headers = some v → v < 2 ^ 64)) := by
  have hok := received_ok hevent hfault hstatus
  by_cases hpos : announcedSize s = 0
  · have hempty : received a s 1 = leaveEarly (announcedSize s) (some .success) :=
      (hok 0).trans (if_pos hpos)
    exact iff_of_false (not_wholeOrError_of_first hempty) fun h => h.1 hpos
  rw [and_iff_right hpos]
  by_cases hbody : (s 0).body.length ≤ announcedSize s
  · rw [imp_iff_right hbody]
    cases halloc : a.allocatePool (announcedSize s) with
    | none =>
      have hempty : received a s 1 = leaveEarly (announcedSize s) (some .success) := by
        rw [hok 0, if_neg hpos, if_neg (not_lt.mpr hbody), halloc]
      exact iff_of_false (not_wholeOrError_of_first hempty) fun h => by cases h.1
    | some m =>
      rw [(runDownloads_of_allocated hevent hfault hstatus hpos hbody halloc).wholeOrError_iff_ends]
      exact (and_iff_right rfl).symm
  · -- a first body that is too long is an error
    have herror : ∀ n, received a s (n + 1) =
        leaveEarly (announcedSize s) (some .badBufferSize) := by
      intro n
      rw [hok n, if_neg hpos, if_pos (not_le.mp hbody)]
    exact iff_of_true (wholeOrError_of_first hevent rfl herror) fun h => absurd h hbody

/-- The call is in order if and only if the response is well announced. -/
theorem wholeOrError_iff (a : ReceiveAnswers) (s : ℕ → HttpResponse) :
    WholeOrError a s ↔ WellAnnounced a s := by
  unfold WellAnnounced
  -- an event that fails, a first answer that fails, a status other than 200, and then the body
  cases hevent : a.createEvent with
  | some e =>
    have hall : ∀ n, received a s n = leaveEarly 0 (some e.1) := by
      intro n
      simp [received, receiveHttpResponse, hevent]
    refine iff_of_true (wholeOrError_of_early ⟨0, ?_⟩ fun n => ?_) fun h => by cases h
    · rw [hall 0]
      exact Option.some_ne_none _
    · exact ⟨0, some e.1, hall n, fun e' h => Option.some.inj h ▸ e.2⟩
  | none =>
    rw [imp_iff_right rfl]
    cases hfault : (s 0).fault with
    | some e =>
      have herror : ∀ n, received a s (n + 1) = leaveEarly 0 (some e.1) := by
        intro n
        rw [received_succ, hevent, hfault]
      exact iff_of_true (wholeOrError_of_first hevent e.2 herror) fun h => by cases h
    | none =>
      rw [imp_iff_right rfl]
      by_cases hstatus : (s 0).statusCode = httpStatus200Ok
      · rw [imp_iff_right hstatus]
        exact wholeOrError_iff_of_ok hevent hfault hstatus
      · have herror : ∀ n, received a s (n + 1) = leaveEarly 0 (some .aborted) := by
          intro n
          rw [received_succ, hevent, hfault]
          exact if_pos hstatus
        exact iff_of_true (wholeOrError_of_first hevent rfl herror) fun h => absurd h hstatus

/-- Firmware that allocates nothing and does the rest. -/
def ReceiveAnswers.noPool : ReceiveAnswers := ⟨none, fun _ => none, fun _ _ h => by cases h⟩

/-- A response of status 200 without headers and body. -/
def HttpResponse.bare : HttpResponse := ⟨none, none, httpStatus200Ok, [], [], by decide⟩

/-- Without a `Content-Length` the call succeeds with a NULL buffer. -/
theorem not_wholeOrError_bare : ¬ WholeOrError .noPool fun _ => .bare := by
  rintro ⟨-, hwhole, -⟩
  obtain ⟨-, -, m, hbuffer, -⟩ := hwhole 1 (by decide)
  exact absurd hbuffer (by simp [received, receiveHttpResponse, receiveFirst, HttpResponse.fault,
    HttpResponse.bare, ReceiveAnswers.noPool, announced, leaveEarly])

end Whole

end Shim
