import Shim.Common.Run
import Shim.Http.Boot

/-! # Remote verification and network boot

`osign_http_request` (keyless-sign.c) posts a signature to the verification server through
`send_http_get_request` (http-request.c), and does so by setting the two globals that
`send_http_request` reads. It frees the body afterwards and leaves the method as it is. A run
interleaves such verifications with boot downloads.
-/

namespace Shim

open CText Runs

/-! ## The request to the server -/

/-- What the firmware answers for one HTTP service binding handle; `ifaceInfo` says whether the
interface data is there, `hasAddr` whether it has an address. -/
structure HandleAnswers where
  printDevicePath : Fault
  openIp4 : Fault
  getData : Fault
  ifaceInfo : Bool
  hasAddr : Bool
  setPolicy : Fault
  waitAddr : Fault
  fetch : FetchAnswers

/-- One turn of the handle loop of `send_http_get_request`. -/
def visitHandle (g : HttpGlobals) (uri : List UInt8) (h : HandleAnswers) :
    EfiStatus × List HttpRequest :=
  match h.printDevicePath, h.openIp4, h.getData with
  | some e, _, _ => (e.1, [])
  | none, some e, _ => (e.1, [])
  | none, none, some e => (e.1, [])
  | none, none, none =>
    -- without interface data the turn ends with the status of the successful read
    if ¬ h.ifaceInfo then (.success, [])
    else if h.hasAddr then httpbootFetchBufferUri g uri h.fetch
    else
      match h.setPolicy, h.waitAddr with
      | some e, _ => (e.1, [])
      | none, some e => (e.1, [])
      | none, none => httpbootFetchBufferUri g uri h.fetch

/-- The handle loop: an error ends it, a success goes on to the next handle. -/
def visitHandles (g : HttpGlobals) (uri : List UInt8) (efiStatus : EfiStatus) :
    List HandleAnswers → EfiStatus × List HttpRequest
  | [] => (efiStatus, [])
  | h :: hs =>
    let r := visitHandle g uri h
    if r.1.isError then r
    else
      let rest := visitHandles g uri r.1 hs
      (rest.1, r.2 ++ rest.2)

/-- `send_http_get_request`; `none` when no HTTP binding appears in time. -/
def sendHttpGetRequest (g : HttpGlobals) (uri : List UInt8) :
    Option (List HandleAnswers) → EfiStatus × List HttpRequest
  | none => (.notFound, [])
  | some handles => visitHandles g uri .success handles

/-- The three base64 texts of a signature, each possibly NULL. -/
structure KeylessTexts where
  payload : Option (List UInt8)
  signature : Option (List UInt8)
  certificate : Option (List UInt8)

/-- The JSON of a signature. -/
def KeylessTexts.json (t : KeylessTexts) : List UInt8 :=
  ascii "\x7b\"certificate\":\"" ++ t.certificate.getD [] ++ ascii "\",\"payload\":\"" ++
    t.payload.getD [] ++ ascii "\",\"signature\":\"" ++ t.signature.getD [] ++ ascii "\"\x7d"

/-- `json_len`, the room for the body. -/
def KeylessTexts.jsonLen (t : KeylessTexts) : ℕ :=
  (t.certificate.getD []).length + (t.payload.getD []).length + (t.signature.getD []).length + 50000

/-- What a remote verification meets. -/
structure KeylessAnswers where
  jsonAllocated : Bool
  handles : Option (List HandleAnswers)

/-- `osign_http_request`: status, globals and requests. -/
def osignHttpRequest (g : HttpGlobals) (t : KeylessTexts) (a : KeylessAnswers) :
    EfiStatus × HttpGlobals × List HttpRequest :=
  let g := { g with httpRequestMethod := .post }
  if ¬ a.jsonAllocated then (.httpError, { g with txBodyJson := none }, [])
  else
    let g := { g with txBodyJson := some (t.json.take t.jsonLen) }
    let r := sendHttpGetRequest g (ascii "http://10.0.2.2:8080/verify") a.handles
    (r.1, { g with txBodyJson := none }, r.2)

/-! ## Interleavings -/

/-- What uses the globals: `find_httpboot` storing the URI of the boot device, a boot download, a
remote verification. -/
inductive HttpEvent
  | findHttpboot (uri : Option (List UInt8))
  | download (name : List UInt8) (a : DownloadAnswers)
  | keyless (t : KeylessTexts) (a : KeylessAnswers)

/-- The globals after an event. -/
def httpStep (g : HttpGlobals) : HttpEvent → HttpGlobals
  | .findHttpboot uri => { g with uri }
  | .download name a => (httpbootFetchBuffer g name a).2.1
  | .keyless t a => (osignHttpRequest g t a).2.1

/-- The requests an event makes. -/
def httpSent (g : HttpGlobals) : HttpEvent → List HttpRequest
  | .findHttpboot _ => []
  | .download name a => (httpbootFetchBuffer g name a).2.2
  | .keyless t a => (osignHttpRequest g t a).2.2

/-- Every request an event makes is what its sender intends: a GET without a body for a download,
a POST of the signature's JSON for a verification. -/
def SendsIntended (g : HttpGlobals) (e : HttpEvent) : Prop :=
  ∀ r ∈ httpSent g e,
    match e with
    | .findHttpboot _ => True
    | .download _ _ => r.method = .get ∧ r.body = none ∧ r.bodyLength = 0
    | .keyless t _ => r.method = .post ∧ r.body = some t.json ∧ r.bodyLength = t.json.length

/-- A remote verification. -/
def HttpEvent.IsKeyless : HttpEvent → Prop
  | .keyless _ _ => True
  | _ => False

/-- A download that gets as far as its request. -/
def Downloads (g : HttpGlobals) : HttpEvent → Prop
  | .download _ a => DownloadReaches g a
  | _ => False

/-! ## The sends of a verification -/

/-- The buffer has room for the whole JSON. -/
theorem KeylessTexts.json_take (t : KeylessTexts) : t.json.take t.jsonLen = t.json := by
  refine List.take_of_length_le ?_
  have hfixed : (ascii "\x7b\"certificate\":\"").length = 16 ∧
      (ascii "\",\"payload\":\"").length = 13 ∧ (ascii "\",\"signature\":\"").length = 15 ∧
      (ascii "\"\x7d").length = 2 := ⟨rfl, rfl, rfl, rfl⟩
  simp only [KeylessTexts.json, KeylessTexts.jsonLen, List.length_append, hfixed]
  omega

/-- What is fetched is asked for with this URI. -/
theorem httpbootFetchBufferUri_sent {g : HttpGlobals} {uri : List UInt8} {a : FetchAnswers}
    {r : HttpRequest} (h : r ∈ (httpbootFetchBufferUri g uri a).2) :
    ∃ hostname, r = httpMessage g hostname uri := by
  unfold httpbootFetchBufferUri at h
  cases hhost : extractHostname uri with
  | error e => simp [hhost] at h
  | ok hostname =>
    simp only [hhost, httpFetch_sent] at h
    split_ifs at h
    · exact ⟨hostname, List.mem_singleton.mp h⟩
    · exact absurd h List.not_mem_nil

/-- A handle is asked with this URI. -/
theorem visitHandle_sent {g : HttpGlobals} {uri : List UInt8} {h : HandleAnswers}
    {r : HttpRequest} (hr : r ∈ (visitHandle g uri h).2) :
    ∃ hostname, r = httpMessage g hostname uri := by
  unfold visitHandle at hr
  split at hr
  · exact absurd hr List.not_mem_nil
  · exact absurd hr List.not_mem_nil
  · exact absurd hr List.not_mem_nil
  · by_cases hiface : h.ifaceInfo = true
    · rw [if_neg (not_not.mpr hiface)] at hr
      split_ifs at hr
      · exact httpbootFetchBufferUri_sent hr
      · split at hr
        · exact absurd hr List.not_mem_nil
        · exact absurd hr List.not_mem_nil
        · exact httpbootFetchBufferUri_sent hr
    · rw [if_pos hiface] at hr
      exact absurd hr List.not_mem_nil

/-- On every handle the loop sends the message of the same globals. -/
theorem visitHandles_sent {g : HttpGlobals} {uri : List UInt8} {efiStatus : EfiStatus}
    {handles : List HandleAnswers} {r : HttpRequest}
    (hr : r ∈ (visitHandles g uri efiStatus handles).2) :
    ∃ hostname, r = httpMessage g hostname uri := by
  induction handles generalizing efiStatus with
  | nil => exact absurd hr List.not_mem_nil
  | cons h hs ih =>
    rw [visitHandles] at hr
    dsimp only at hr
    split_ifs at hr
    · exact visitHandle_sent hr
    · rcases List.mem_append.mp hr with hr | hr
      · exact visitHandle_sent hr
      · exact ih hr

/-- Every request of a verification is a POST of its JSON. -/
theorem osignHttpRequest_sent {g : HttpGlobals} {t : KeylessTexts} {a : KeylessAnswers}
    {r : HttpRequest} (hr : r ∈ (osignHttpRequest g t a).2.2) :
    r.method = .post ∧ r.body = some t.json ∧ r.bodyLength = t.json.length := by
  unfold osignHttpRequest at hr
  dsimp only at hr
  by_cases hjson : a.jsonAllocated = true
  · rw [if_neg (not_not.mpr hjson)] at hr
    cases hhandles : a.handles with
    | none => simp [hhandles, sendHttpGetRequest] at hr
    | some handles =>
      rw [hhandles] at hr
      obtain ⟨hostname, rfl⟩ := visitHandles_sent hr
      simp [httpMessage, KeylessTexts.json_take]
  · rw [if_pos hjson] at hr
    exact absurd hr List.not_mem_nil

/-- A request for a signature is a POST. -/
@[simp] theorem osignHttpRequest_method (g : HttpGlobals) (t : KeylessTexts) (a : KeylessAnswers) :
    (osignHttpRequest g t a).2.1.httpRequestMethod = .post := by
  unfold osignHttpRequest
  dsimp only
  split_ifs <;> rfl

/-! ## The method over a run -/

/-- Only a verification changes the method, and only to POST. -/
theorem httpStep_method (g : HttpGlobals) (e : HttpEvent) :
    (httpStep g e).httpRequestMethod = .post ↔ g.httpRequestMethod = .post ∨ e.IsKeyless := by
  cases e with
  | findHttpboot uri => simp [httpStep, HttpEvent.IsKeyless]
  | download name a => simp [httpStep, HttpEvent.IsKeyless, httpbootFetchBuffer_globals]
  | keyless t a => simp [httpStep, HttpEvent.IsKeyless]

/-- After a run the method is POST if and only if it was before or the run verified something. -/
theorem run_method (g : HttpGlobals) (es : List HttpEvent) :
    (run httpStep g es).httpRequestMethod = .post ↔
      g.httpRequestMethod = .post ∨ ∃ e ∈ es, e.IsKeyless := by
  induction es generalizing g with
  | nil => simp
  | cons e es ih =>
    rw [run_cons, ih, httpStep_method]
    simp only [List.mem_cons, exists_eq_or_imp, or_assoc]

/-- A step sends what it intends exactly if it is no download, or the method is GET. -/
theorem sendsIntended_iff (g : HttpGlobals) (e : HttpEvent) :
    SendsIntended g e ↔ (Downloads g e → g.httpRequestMethod = .get) := by
  cases e with
  | findHttpboot uri => simp [SendsIntended, httpSent, Downloads]
  | keyless t a =>
    simp only [Downloads, false_implies, iff_true]
    exact fun r hr => osignHttpRequest_sent hr
  | download name a =>
    simp only [SendsIntended, httpSent, Downloads]
    rcases httpbootFetchBuffer_sent g name a with ⟨hsent, hnot⟩ | ⟨hreach, hostname, uri, hsent⟩
    · simp [hsent, hnot]
    · rw [hsent]
      cases hmethod : g.httpRequestMethod <;> simp [httpMessage, hmethod, hreach]

/-- Over every interleaving, every request is what its sender intends if and only if no download
that gets as far as its request comes after a remote verification. -/
theorem sends_intended_iff (es : List HttpEvent) :
    Along httpStep SendsIntended .init es ↔
      ∀ pre e post, es = pre ++ e :: post → Downloads (run httpStep .init pre) e →
        ∀ e' ∈ pre, ¬ e'.IsKeyless := by
  rw [along_iff]
  refine forall₃_congr fun pre e post => forall_congr' fun _ => ?_
  rw [sendsIntended_iff]
  refine forall_congr' fun _ => ?_
  have hmethod := run_method .init pre
  have hinit : ¬ HttpGlobals.init.httpRequestMethod = .post := by decide
  rw [or_iff_right hinit] at hmethod
  cases hm : (run httpStep .init pre).httpRequestMethod with
  | get =>
    rw [hm] at hmethod
    simpa using hmethod
  | post =>
    rw [hm] at hmethod
    simpa using hmethod

/-- Firmware that carries out every call of a fetch. -/
def FetchAnswers.quiet : FetchAnswers :=
  ⟨none, none, none, none, true, none, none, none, none, none⟩

/-- A network boot whose first image was verified remotely, and the download of the next one. -/
def verifyThenDownload : List HttpEvent :=
  [.findHttpboot (some (ascii "http://h/shim.efi")), .keyless ⟨none, none, none⟩ ⟨true, none⟩,
    .download (ascii "grub.efi") ⟨true, none, .quiet⟩]

/-- The download after the verification is a POST without a body. -/
theorem not_sends_intended_download :
    ¬ Along httpStep SendsIntended .init verifyThenDownload := by
  rintro ⟨-, -, hdownload, -⟩
  have hpost : ∃ r ∈ httpSent (run httpStep .init (verifyThenDownload.take 2))
      (.download (ascii "grub.efi") ⟨true, none, .quiet⟩), r.method = .post ∧ r.body = none := by
    decide +kernel
  obtain ⟨r, hr, hmethod, -⟩ := hpost
  have hget := (hdownload r hr).1
  rw [hmethod] at hget
  cases hget

end Shim
