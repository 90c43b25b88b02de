import Shim.Common.CText
import Shim.Efi.Status

/-! # HTTP boot

The part of httpboot.c between a file name and the request on the wire: the URI of the next file,
`send_http_request`, `http_fetch` and its two callers. The method and the body of a request are
globals that the keyless verification writes, so they are part of the state here. The firmware's
answers are inputs, one fault for each call; the requests handed to `http->Request` are recorded.
-/

namespace Shim

open CText

/-- The values of `EFI_HTTP_METHOD` the code uses; a global starts as `HttpMethodGet`. -/
inductive HttpMethod
  | get
  | post
  deriving DecidableEq, Repr

/-- `http_request_method`, `tx_body_json` and the static `uri` of httpboot.c. -/
structure HttpGlobals where
  httpRequestMethod : HttpMethod
  txBodyJson : Option (List UInt8)
  uri : Option (List UInt8)

/-- The globals when shim starts. -/
def HttpGlobals.init : HttpGlobals := ⟨.get, none, none⟩

/-- A request handed to the firmware (`EFI_HTTP_MESSAGE`). -/
structure HttpRequest where
  method : HttpMethod
  url : List UInt8
  headers : List (List UInt8 × List UInt8)
  bodyLength : ℕ
  body : Option (List UInt8)
  deriving DecidableEq

/-! ## URIs -/

/-- The length of the scheme, `http://` or `https://`. -/
def schemeLength (url : List UInt8) : Option ℕ :=
  if strncmp 7 url (ascii "http://") = .eq then some 7
  else if strncmp 8 url (ascii "https://") = .eq then some 8
  else none

/-- The loop of `generate_next_uri`: `path_len` ends behind the last slash. -/
def pathLength (count pathLen : ℕ) : List UInt8 → ℕ
  | [] => pathLen
  | c :: rest => pathLength (count + 1) (if c = 47 then count + 1 else pathLen) rest

/-- `generate_next_uri`. -/
def generateNextUri (currentUri nextLoader : List UInt8) : Except EfiStatus (List UInt8) :=
  match schemeLength currentUri with
  | none => .error .invalidParameter
  | some count =>
    .ok (currentUri.take (pathLength count 0 (currentUri.drop count)) ++ nextLoader)

/-- `extract_hostname`. -/
def extractHostname (url : List UInt8) : Except EfiStatus (List UInt8) :=
  match schemeLength url with
  | none => .error .invalidParameter
  | some start => .ok ((url.drop start).takeWhile (· ≠ 47))

/-- `translate_slashes`: one slash for a backslash or a pair of them. -/
def translateSlashes : List UInt8 → List UInt8
  | [] => []
  | 92 :: 92 :: rest => 47 :: translateSlashes rest
  | 92 :: rest => 47 :: translateSlashes rest
  | c :: rest => c :: translateSlashes rest

/-! ## Sending -/

/-- What the firmware answers to the calls of one `http_fetch`, in order; `urlAllocated` is the
allocation of the wide URL, `received` the outcome of `receive_http_response`. -/
structure FetchAnswers where
  openProtocol : Fault
  createChild : Fault
  handleProtocol : Fault
  configure : Fault
  urlAllocated : Bool
  createEvent : Fault
  request : Fault
  token : Fault
  received : Fault
  destroyChild : Fault

/-- The headers every request has. -/
def commonHeaders (hostname : List UInt8) : List (List UInt8 × List UInt8) :=
  [(ascii "Host", hostname), (ascii "Accept", ascii "*/*"),
    (ascii "User-Agent", ascii "UefiHttpBoot/1.0")]

/-- The headers added to a POST; `content_length` has room for fifteen digits. -/
def postHeaders (bodyLength : ℕ) : List (List UInt8 × List UInt8) :=
  [(ascii "Content-Type", ascii "application/json"),
    (ascii "Content-Length", (ascii (Nat.repr bodyLength)).take 15),
    (ascii "Accept-Encoding", ascii "gzip,deflate,br"), (ascii "Connection", ascii "keep-alive")]

/-- The message `send_http_request` builds. The length of a missing body is read as nought. -/
def httpMessage (g : HttpGlobals) (hostname uri : List UInt8) : HttpRequest :=
  match g.httpRequestMethod with
  | .get => ⟨.get, uri, commonHeaders hostname, 0, none⟩
  | .post =>
    let bodyLength := (g.txBodyJson.getD []).length
    ⟨.post, uri, commonHeaders hostname ++ postHeaders bodyLength, bodyLength, g.txBodyJson⟩

/-- `EFI_ERROR` of a call that may be refused. -/
def faultStatus : Fault → EfiStatus
  | none => .success
  | some e => e.1

/-- `send_http_request`: its status and the request it made, if it got there. -/
def sendHttpRequest (g : HttpGlobals) (hostname uri : List UInt8) (a : FetchAnswers) :
    EfiStatus × List HttpRequest :=
  if ¬ a.urlAllocated then (.outOfResources, [])
  else
    match a.createEvent with
    | some e => (e.1, [])
    | none =>
      let sent := [httpMessage g hostname uri]
      match a.request with
      | some e => (e.1, sent)
      | none => (faultStatus a.token, sent)

/-- `http_fetch`. -/
def httpFetch (g : HttpGlobals) (hostname uri : List UInt8) (a : FetchAnswers) :
    EfiStatus × List HttpRequest :=
  match a.openProtocol, a.createChild with
  | some e, _ => (e.1, [])
  | none, some e => (e.1, [])
  | none, none =>
    let r : EfiStatus × List HttpRequest :=
      match a.handleProtocol, a.configure with
      | some e, _ => (e.1, [])
      | none, some e => (e.1, [])
      | none, none =>
        let r := sendHttpRequest g hostname uri a
        if r.1.isError then r else (faultStatus a.received, r.2)
    if r.1.isError then r else (faultStatus a.destroyChild, r.2)

/-- What a boot download meets: whether the network card is found, and the firmware's answers. -/
structure DownloadAnswers where
  nicFound : Bool
  setIp : Fault
  fetch : FetchAnswers

/-- `httpboot_fetch_buffer`: status, globals and requests; the URI is used up. -/
def httpbootFetchBuffer (g : HttpGlobals) (name : List UInt8) (a : DownloadAnswers) :
    EfiStatus × HttpGlobals × List HttpRequest :=
  match g.uri with
  | none => (.notReady, g, [])
  | some uri =>
    let g' := { g with uri := none }
    match generateNextUri uri (translateSlashes name), extractHostname uri with
    | .error e, _ => (e, g', [])
    | .ok _, .error e => (e, g', [])
    | .ok nextUri, .ok hostname =>
      if ¬ a.nicFound then (.notFound, g', [])
      else
        match a.setIp with
        | some e => (e.1, g', [])
        | none =>
          let r := httpFetch g hostname nextUri a.fetch
          (r.1, g', r.2)

/-- `httpboot_fetch_buffer_uri`, for a URI that is not NULL. -/
def httpbootFetchBufferUri (g : HttpGlobals) (userUri : List UInt8) (a : FetchAnswers) :
    EfiStatus × List HttpRequest :=
  match extractHostname userUri with
  | .error e => (e, [])
  | .ok hostname => httpFetch g hostname userUri a

/-! ## What is sent -/

/-- The firmware lets a fetch get as far as its request. -/
def FetchAnswers.Reaches (a : FetchAnswers) : Prop :=
  a.openProtocol = none ∧ a.createChild = none ∧ a.handleProtocol = none ∧ a.configure = none ∧
    a.urlAllocated = true ∧ a.createEvent = none

instance (a : FetchAnswers) : Decidable a.Reaches := inferInstanceAs (Decidable (_ ∧ _))

/-- `send_http_request` makes the request the globals describe, if it makes one. -/
theorem sendHttpRequest_sent (g : HttpGlobals) (hostname uri : List UInt8) (a : FetchAnswers) :
    (sendHttpRequest g hostname uri a).2 =
      if a.urlAllocated = true ∧ a.createEvent = none then [httpMessage g hostname uri] else [] := by
  unfold sendHttpRequest
  cases a.urlAllocated with
  | false => simp
  | true =>
    cases a.createEvent with
    | some e => simp
    | none => cases a.request <;> simp

/-- What happens between the service binding and the child's end keeps the requests made. -/
theorem httpFetch_sent_of_child {g : HttpGlobals} {hostname uri : List UInt8} {a : FetchAnswers}
    (hopen : a.openProtocol = none) (hchild : a.createChild = none) :
    (httpFetch g hostname uri a).2 =
      if a.handleProtocol = none ∧ a.configure = none then (sendHttpRequest g hostname uri a).2
      else [] := by
  unfold httpFetch
  rw [hopen, hchild]
  dsimp only
  rcases a.handleProtocol with _ | e
  · rcases a.configure with _ | e
    · dsimp only
      by_cases hr : (sendHttpRequest g hostname uri a).1.isError = true
      · simp [hr]
      · simp only [hr, if_false, Bool.false_eq_true, and_self, if_true]
        split_ifs <;> rfl
    · simp [e.2]
  · simp [e.2]

/-- So does `http_fetch`. -/
theorem httpFetch_sent (g : HttpGlobals) (hostname uri : List UInt8) (a : FetchAnswers) :
    (httpFetch g hostname uri a).2 =
      if a.Reaches then [httpMessage g hostname uri] else [] := by
  by_cases hopen : a.openProtocol = none
  · by_cases hchild : a.createChild = none
    · rw [httpFetch_sent_of_child hopen hchild, sendHttpRequest_sent]
      by_cases hconf : a.handleProtocol = none ∧ a.configure = none
      · simp [FetchAnswers.Reaches, hopen, hchild, hconf]
      · rw [if_neg hconf, if_neg]
        rintro ⟨-, -, hh, hc, -⟩
        exact hconf ⟨hh, hc⟩
    · obtain ⟨e, he⟩ := Option.ne_none_iff_exists'.mp hchild
      simp [httpFetch, FetchAnswers.Reaches, hopen, he]
  · obtain ⟨e, he⟩ := Option.ne_none_iff_exists'.mp hopen
    simp [httpFetch, FetchAnswers.Reaches, he]

/-- A download in this state gets as far as its request. -/
def DownloadReaches (g : HttpGlobals) (a : DownloadAnswers) : Prop :=
  (∃ uri n, g.uri = some uri ∧ schemeLength uri = some n) ∧ a.nicFound = true ∧ a.setIp = none ∧
    a.fetch.Reaches

/-- A download makes at most one request, the one its globals describe. -/
theorem httpbootFetchBuffer_sent (g : HttpGlobals) (name : List UInt8) (a : DownloadAnswers) :
    ((httpbootFetchBuffer g name a).2.2 = [] ∧ ¬ DownloadReaches g a) ∨
      DownloadReaches g a ∧ ∃ hostname uri,
        (httpbootFetchBuffer g name a).2.2 = [httpMessage g hostname uri] := by
  unfold httpbootFetchBuffer
  cases huri : g.uri with
  | none => exact .inl ⟨rfl, by simp [DownloadReaches, huri]⟩
  | some uri =>
    cases hscheme : schemeLength uri with
    | none => exact .inl ⟨by simp [generateNextUri, hscheme], by
        simp [DownloadReaches, huri, hscheme]⟩
    | some n =>
      simp only [generateNextUri, extractHostname, hscheme]
      cases hnic : a.nicFound with
      | false => exact .inl ⟨rfl, by simp [DownloadReaches, hnic]⟩
      | true =>
        cases hip : a.setIp with
        | some e => exact .inl ⟨rfl, by simp [DownloadReaches, hip]⟩
        | none =>
          by_cases hreach : a.fetch.Reaches
          · refine .inr ⟨⟨⟨uri, n, huri, hscheme⟩, hnic, hip, hreach⟩,
              (uri.drop n).takeWhile (· ≠ 47),
              uri.take (pathLength n 0 (uri.drop n)) ++ translateSlashes name, ?_⟩
            simp only [not_true_eq_false, if_false, httpFetch_sent, if_pos hreach]
          · refine .inl ⟨?_, fun h => hreach h.2.2.2⟩
            simp [httpFetch_sent, hreach]

/-- A download only uses up the URI. -/
theorem httpbootFetchBuffer_globals (g : HttpGlobals) (name : List UInt8) (a : DownloadAnswers) :
    (httpbootFetchBuffer g name a).2.1.httpRequestMethod = g.httpRequestMethod := by
  unfold httpbootFetchBuffer
  cases g.uri with
  | none => rfl
  | some uri => dsimp only; split <;> (try split_ifs) <;> (try split) <;> rfl

end Shim
