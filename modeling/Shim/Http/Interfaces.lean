import Shim.Http.Remote

/-! # The verdict over several interfaces

`send_http_get_request` visits the HTTP service binding handles in the order the firmware lists
them. What a handle's turn comes to is decided by its own configuration and fetch; the loop ends at
the first turn that fails and keeps the status of the last turn otherwise. A turn without interface
data counts as a success, and a success does not end the loop.
-/

namespace Shim

open CText

/-! ## One turn -/

/-- Every step of a fetch is carried out, and the response is received. -/
def FetchAnswers.Succeeds (a : FetchAnswers) : Prop :=
  a.Reaches ∧ a.request = none ∧ a.token = none ∧ a.received = none ∧ a.destroyChild = none

instance FetchAnswers.decidableSucceeds (a : FetchAnswers) : Decidable a.Succeeds :=
  inferInstanceAs (Decidable (_ ∧ _))

/-- The interface data of the handle is asked for without an error. -/
def HandleAnswers.Opened (h : HandleAnswers) : Prop :=
  h.printDevicePath = none ∧ h.openIp4 = none ∧ h.getData = none

instance (h : HandleAnswers) : Decidable h.Opened := inferInstanceAs (Decidable (_ ∧ _))

/-- The interface has an address, or gets one. -/
def HandleAnswers.Configured (h : HandleAnswers) : Prop :=
  h.Opened ∧ h.ifaceInfo = true ∧ (h.hasAddr = true ∨ h.setPolicy = none ∧ h.waitAddr = none)

instance (h : HandleAnswers) : Decidable h.Configured := inferInstanceAs (Decidable (_ ∧ _))

/-- The server accepts the request on this handle. -/
def HandleAnswers.Fetches (uri : List UInt8) (h : HandleAnswers) : Prop :=
  h.Configured ∧ schemeLength uri ≠ none ∧ h.fetch.Succeeds

instance (uri : List UInt8) (h : HandleAnswers) : Decidable (h.Fetches uri) :=
  inferInstanceAs (Decidable (_ ∧ _))

/-- There is no interface data on this handle. -/
def HandleAnswers.Idle (h : HandleAnswers) : Prop := h.Opened ∧ h.ifaceInfo = false

instance (h : HandleAnswers) : Decidable h.Idle := inferInstanceAs (Decidable (_ ∧ _))

/-- The configuration or the fetch fails on this handle. -/
def HandleAnswers.Fails (uri : List UInt8) (h : HandleAnswers) : Prop := ¬ h.Fetches uri ∧ ¬ h.Idle

section Turn

variable {g : HttpGlobals} {uri hostname : List UInt8} {a : FetchAnswers} {h : HandleAnswers}

/-- A fault is reported as an error. -/
theorem faultStatus_isError {f : Fault} (hf : f ≠ none) : (faultStatus f).isError = true := by
  cases f with
  | none => exact absurd rfl hf
  | some e => exact e.2

/-- The status of `send_http_request`. -/
theorem sendHttpRequest_isError_iff :
    (sendHttpRequest g hostname uri a).1.isError = true ↔
      ¬ (a.urlAllocated = true ∧ a.createEvent = none ∧ a.request = none ∧ a.token = none) := by
  unfold sendHttpRequest
  cases a.urlAllocated with
  | false => simp [EfiStatus.isError]
  | true =>
    cases a.createEvent with
    | some e => simp [e.2]
    | none =>
      cases a.request with
      | some e => simp [e.2]
      | none =>
        cases a.token with
        | some e => simp [faultStatus, e.2]
        | none => simp [faultStatus]

/-- A fetch that succeeds. -/
theorem httpFetch_of_succeeds (ha : a.Succeeds) :
    (httpFetch g hostname uri a).1 = .success := by
  obtain ⟨⟨hopen, hchild, hhandle, hconf, hurl, hevent⟩, hrequest, htoken, hreceived, hdestroy⟩ := ha
  have hsend : ¬ (sendHttpRequest g hostname uri a).1.isError = true := by
    rw [sendHttpRequest_isError_iff, not_not]
    exact ⟨hurl, hevent, hrequest, htoken⟩
  unfold httpFetch
  rw [hopen, hchild, hhandle, hconf]
  dsimp only
  rw [if_neg hsend, hreceived, hdestroy]
  rfl

/-- A fetch that does not is an error. -/
theorem httpFetch_isError (ha : ¬ a.Succeeds) :
    (httpFetch g hostname uri a).1.isError = true := by
  unfold httpFetch
  cases hopen : a.openProtocol with
  | some e => exact e.2
  | none =>
    cases hchild : a.createChild with
    | some e => exact e.2
    | none =>
      cases hhandle : a.handleProtocol with
      | some e => simp [e.2]
      | none =>
        cases hconf : a.configure with
        | some e => simp [e.2]
        | none =>
          dsimp only
          by_cases hsend : (sendHttpRequest g hostname uri a).1.isError = true
          · simp [hsend]
          · rw [if_neg hsend]
            by_cases hreceived : (faultStatus a.received).isError = true
            · simp [hreceived]
            · rw [if_neg hreceived]
              -- what is left to fail is the end of the child
              refine faultStatus_isError fun hdestroy => ha ?_
              rw [sendHttpRequest_isError_iff, not_not] at hsend
              obtain ⟨hurl, hevent, hrequest, htoken⟩ := hsend
              refine ⟨⟨hopen, hchild, hhandle, hconf, hurl, hevent⟩, hrequest, htoken, ?_, hdestroy⟩
              by_contra hne
              exact hreceived (faultStatus_isError hne)

/-- A turn that fetches sends its request and succeeds. -/
theorem visitHandle_of_fetches (hh : h.Fetches uri) :
    ∃ hostname, visitHandle g uri h = (.success, [httpMessage g hostname uri]) := by
  obtain ⟨⟨⟨hpath, hip, hdata⟩, hiface, haddr⟩, hscheme, hfetch⟩ := hh
  obtain ⟨start, hstart⟩ := Option.ne_none_iff_exists'.mp hscheme
  refine ⟨(uri.drop start).takeWhile (· ≠ 47), ?_⟩
  have hturn : visitHandle g uri h = httpbootFetchBufferUri g uri h.fetch := by
    unfold visitHandle
    rw [hpath, hip, hdata]
    dsimp only
    rw [if_neg (not_not.mpr hiface)]
    by_cases hhas : h.hasAddr = true
    · rw [if_pos hhas]
    · obtain ⟨hpolicy, hwait⟩ := haddr.resolve_left hhas
      rw [if_neg hhas, hpolicy, hwait]
  rw [hturn, httpbootFetchBufferUri, extractHostname, hstart]
  refine Prod.ext (httpFetch_of_succeeds hfetch) ?_
  rw [httpFetch_sent, if_pos hfetch.1]

/-- A turn without interface data sends nothing, and succeeds. -/
theorem visitHandle_of_idle (hh : h.Idle) : visitHandle g uri h = (.success, []) := by
  obtain ⟨⟨hpath, hip, hdata⟩, hiface⟩ := hh
  unfold visitHandle
  rw [hpath, hip, hdata]
  dsimp only
  rw [if_pos (by simp [hiface])]

/-- Every other turn is an error. -/
theorem visitHandle_of_fails (hh : h.Fails uri) : (visitHandle g uri h).1.isError = true := by
  obtain ⟨hfetch, hidle⟩ := hh
  -- the fetch fails, or the URI has no host
  have huri : h.Configured → (httpbootFetchBufferUri g uri h.fetch).1.isError = true := by
    intro hconf
    unfold httpbootFetchBufferUri extractHostname
    cases hscheme : schemeLength uri with
    | none => rfl
    | some start =>
      exact httpFetch_isError fun hs => hfetch ⟨hconf, by simp [hscheme], hs⟩
  unfold visitHandle
  cases hpath : h.printDevicePath with
  | some e => exact e.2
  | none =>
    cases hip : h.openIp4 with
    | some e => exact e.2
    | none =>
      cases hdata : h.getData with
      | some e => exact e.2
      | none =>
        have hopened : h.Opened := ⟨hpath, hip, hdata⟩
        have hiface : h.ifaceInfo = true := by
          by_contra hnot
          exact hidle ⟨hopened, by simpa using hnot⟩
        dsimp only
        rw [if_neg (not_not.mpr hiface)]
        by_cases hhas : h.hasAddr = true
        · rw [if_pos hhas]
          exact huri ⟨hopened, hiface, .inl hhas⟩
        · rw [if_neg hhas]
          cases hpolicy : h.setPolicy with
          | some e => exact e.2
          | none =>
            cases hwait : h.waitAddr with
            | some e => exact e.2
            | none => exact huri ⟨hopened, hiface, .inr ⟨hpolicy, hwait⟩⟩

end Turn

/-! ## The loop -/

section Handles

variable {g : HttpGlobals} {uri : List UInt8} {h : HandleAnswers} {l handles : List HandleAnswers}

/-- The requests of the turns of a list of handles. -/
def turnRequests (g : HttpGlobals) (uri : List UInt8) (l : List HandleAnswers) : List HttpRequest :=
  l.flatMap fun h => (visitHandle g uri h).2

/-- A turn that does not fail is a success. -/
theorem visitHandle_status (hh : ¬ h.Fails uri) : (visitHandle g uri h).1 = .success := by
  rw [HandleAnswers.Fails, ← not_or, not_not] at hh
  rcases hh with hfetch | hidle
  · obtain ⟨hostname, heq⟩ := visitHandle_of_fetches (g := g) hfetch
    rw [heq]
  · rw [visitHandle_of_idle hidle]

/-- Where no turn fails the loop takes them all. -/
theorem visitHandles_of_not_fails (hl : ∀ h ∈ l, ¬ h.Fails uri) :
    visitHandles g uri .success l = (.success, turnRequests g uri l) := by
  induction l with
  | nil => rfl
  | cons h l ih =>
    have hstatus := visitHandle_status (g := g) (hl h List.mem_cons_self)
    rw [visitHandles]
    dsimp only
    rw [if_neg (by rw [hstatus]; decide), hstatus,
      ih fun x hx => hl x (List.mem_cons_of_mem _ hx)]
    rfl

/-- A turn that fails makes the verdict an error. -/
theorem visitHandles_of_fails {efiStatus : EfiStatus} (hl : ∃ h ∈ l, h.Fails uri) :
    (visitHandles g uri efiStatus l).1.isError = true := by
  induction l generalizing efiStatus with
  | nil =>
    obtain ⟨h, hmem, -⟩ := hl
    exact absurd hmem List.not_mem_nil
  | cons h l ih =>
    rw [visitHandles]
    dsimp only
    by_cases herror : (visitHandle g uri h).1.isError = true
    · rw [if_pos herror]
      exact herror
    · rw [if_neg herror]
      refine ih ?_
      obtain ⟨x, hx, hfails⟩ := hl
      rcases List.mem_cons.mp hx with rfl | hx
      · exact absurd (visitHandle_of_fails hfails) herror
      · exact ⟨x, hx, hfails⟩

/-! ## The verdict -/

/-- `send_http_get_request` where the firmware lists these handles; it waits for one at least. -/
def remoteVerdict (g : HttpGlobals) (uri : List UInt8) (handles : List HandleAnswers) :
    EfiStatus × List HttpRequest :=
  sendHttpGetRequest g uri (if handles = [] then none else some handles)

/-- In whatever order the handles are listed, the verdict is a success if and only if the server
accepts the request on one of them, and nothing is sent behind the handle it accepts it on. -/
def VerdictRight (g : HttpGlobals) (uri : List UInt8) (handles : List HandleAnswers) : Prop :=
  ∀ hs, hs.Perm handles →
    ((remoteVerdict g uri hs).1 = .success ↔ ∃ h ∈ handles, h.Fetches uri) ∧
      ∀ pre h post, hs = pre ++ h :: post → h.Fetches uri →
        (remoteVerdict g uri hs).2 = (remoteVerdict g uri (pre ++ [h])).2

/-- There is no handle; or some handle fails and none fetches; or none fails and exactly one
fetches. -/
def OneVerdict (uri : List UInt8) (handles : List HandleAnswers) : Prop :=
  handles = [] ∨ (∃ h ∈ handles, h.Fails uri) ∧ (∀ h ∈ handles, ¬ h.Fetches uri) ∨
    (∀ h ∈ handles, ¬ h.Fails uri) ∧ handles.countP (fun h => h.Fetches uri) = 1

/-- Where no handle fails, every request is sent and the verdict is a success. -/
theorem remoteVerdict_of_not_fails (hne : handles ≠ []) (hl : ∀ h ∈ handles, ¬ h.Fails uri) :
    remoteVerdict g uri handles = (.success, turnRequests g uri handles) := by
  rw [remoteVerdict, if_neg hne]
  exact visitHandles_of_not_fails hl

/-- Where one fails, the verdict is an error. -/
theorem remoteVerdict_of_fails (hl : ∃ h ∈ handles, h.Fails uri) :
    (remoteVerdict g uri handles).1.isError = true := by
  have hne : handles ≠ [] := by
    rintro rfl
    obtain ⟨h, hmem, -⟩ := hl
    exact absurd hmem List.not_mem_nil
  rw [remoteVerdict, if_neg hne]
  exact visitHandles_of_fails hl

/-- Handles of which none fetches or fails send nothing. -/
theorem turnRequests_eq_nil (hfails : ∀ h ∈ l, ¬ h.Fails uri)
    (hl : ∀ h ∈ l, ¬ h.Fetches uri) : turnRequests g uri l = [] := by
  refine List.flatMap_eq_nil_iff.mpr fun h hh => ?_
  have hidle : h.Idle := by
    by_contra hnot
    exact hfails h hh ⟨hl h hh, hnot⟩
  rw [visitHandle_of_idle hidle]

/-- Where the verdict is right, a handle that fetches leaves no room for one that fails. -/
theorem VerdictRight.not_fails (hright : VerdictRight g uri handles)
    (hfetch : ∃ h ∈ handles, h.Fetches uri) : ∀ h ∈ handles, ¬ h.Fails uri := by
  intro f hf hfails
  have hsuccess := (hright handles (List.Perm.refl _)).1.mpr hfetch
  have herror := remoteVerdict_of_fails (g := g) ⟨f, hf, hfails⟩
  rw [hsuccess] at herror
  cases herror

/-- Nor for a second one that fetches: the request would be sent there too. -/
theorem VerdictRight.countP_eq (hright : VerdictRight g uri handles)
    (hfetch : ∃ h ∈ handles, h.Fetches uri) :
    handles.countP (fun h => h.Fetches uri) = 1 := by
  have hnofail := hright.not_fails hfetch
  obtain ⟨h, hh, hhf⟩ := hfetch
  obtain ⟨l, r, rfl⟩ := List.append_of_mem hh
  have hperm : (h :: (l ++ r)).Perm (l ++ h :: r) := List.perm_middle.symm
  rw [← hperm.countP_eq, List.countP_cons_of_pos (by simpa using hhf), Nat.add_eq_right,
    List.countP_eq_zero]
  intro x hx hxf
  -- the order that begins with the handle, and the one that ends with it
  have hfail : ∀ y ∈ h :: (l ++ r), ¬ y.Fails uri := fun y hy => hnofail y (hperm.subset hy)
  have hsent := (hright _ hperm).2 [] h (l ++ r) rfl hhf
  rw [remoteVerdict_of_not_fails (List.cons_ne_nil _ _) hfail, List.nil_append,
    remoteVerdict_of_not_fails (List.cons_ne_nil _ _) fun y hy =>
      hfail y (List.mem_singleton.mp hy ▸ List.mem_cons_self)] at hsent
  have hnil : turnRequests g uri (l ++ r) = [] := by
    simpa [turnRequests] using hsent
  obtain ⟨hostname, heq⟩ := visitHandle_of_fetches (g := g) (of_decide_eq_true hxf)
  have hempty := List.flatMap_eq_nil_iff.mp hnil x hx
  rw [heq] at hempty
  cases hempty

/-- The verdict is right for these lists of handles, and for no others. -/
theorem verdictRight_iff (g : HttpGlobals) (uri : List UInt8) (handles : List HandleAnswers) :
    VerdictRight g uri handles ↔ OneVerdict uri handles := by
  constructor
  · intro hright
    by_cases hne : handles = []
    · exact .inl hne
    by_cases hfetch : ∃ h ∈ handles, h.Fetches uri
    · exact .inr (.inr ⟨hright.not_fails hfetch, hright.countP_eq hfetch⟩)
    · refine .inr (.inl ⟨?_, fun h hh hf => hfetch ⟨h, hh, hf⟩⟩)
      by_contra hnone
      have hnofail : ∀ h ∈ handles, ¬ h.Fails uri := fun h hh hf => hnone ⟨h, hh, hf⟩
      refine hfetch ((hright handles (List.Perm.refl _)).1.mp ?_)
      rw [remoteVerdict_of_not_fails hne hnofail]
  · rintro (rfl | ⟨⟨f, hf, hfails⟩, hnone⟩ | ⟨hnofail, hone⟩) hs hperm
    · obtain rfl := List.Perm.eq_nil hperm
      refine ⟨by simp [remoteVerdict, sendHttpGetRequest], fun pre h post heq => ?_⟩
      simp at heq
    · have herror := remoteVerdict_of_fails (g := g) ⟨f, hperm.mem_iff.mpr hf, hfails⟩
      have hnofetch : ¬ ∃ h ∈ handles, h.Fetches uri := by
        rintro ⟨h, hh, hfetch⟩
        exact hnone h hh hfetch
      refine ⟨iff_of_false (fun hok => ?_) hnofetch, fun pre h post heq hfetch => ?_⟩
      · rw [hok] at herror
        cases herror
      · refine absurd hfetch (hnone h (hperm.mem_iff.mp ?_))
        rw [heq]
        exact List.mem_append_right _ List.mem_cons_self
    · have hfetch : ∃ h ∈ handles, h.Fetches uri := by
        obtain ⟨h, hh, hf⟩ := List.countP_pos_iff.mp (by rw [hone]; exact Nat.one_pos)
        exact ⟨h, hh, of_decide_eq_true hf⟩
      have hne : hs ≠ [] := by
        rintro rfl
        obtain ⟨h, hh, -⟩ := hfetch
        exact absurd (hperm.mem_iff.mpr hh) List.not_mem_nil
      have hfail : ∀ h ∈ hs, ¬ h.Fails uri := fun h hh => hnofail h (hperm.mem_iff.mp hh)
      rw [remoteVerdict_of_not_fails hne hfail]
      refine ⟨iff_of_true rfl hfetch, fun pre h post heq hhf => ?_⟩
      -- the handles behind the one that fetches are idle
      subst heq
      rw [remoteVerdict_of_not_fails (by simp) fun x hx => hfail x (by simp at hx ⊢; tauto)]
      have hcount := hperm.countP_eq (fun h => decide (h.Fetches uri))
      rw [hone, List.countP_append, List.countP_cons_of_pos (by simpa using hhf)] at hcount
      have hpost : post.countP (fun h => decide (h.Fetches uri)) = 0 := by omega
      have hidle : turnRequests g uri post = [] :=
        turnRequests_eq_nil (fun x hx => hfail x (by simp [hx])) fun x hx hxf =>
          List.countP_eq_zero.mp hpost x hx (by simpa using hxf)
      simp only [turnRequests, List.flatMap_append, List.flatMap_cons, List.flatMap_nil,
        List.append_nil] at hidle ⊢
      rw [hidle, List.append_nil]

/-- A handle with an address, on which the server accepts the request. -/
def HandleAnswers.online : HandleAnswers := ⟨none, none, none, true, true, none, none, .quiet⟩

/-- A handle that gets no address. -/
def HandleAnswers.offline : HandleAnswers :=
  ⟨none, none, none, true, false, none, some ⟨.notReady, rfl⟩, .quiet⟩

/-- Accepted on the first handle, the image is refused for the second. -/
theorem not_verdictRight_offline :
    ¬ VerdictRight .init (ascii "http://10.0.2.2:8080/verify") [.online, .offline] := by
  intro hright
  have hok := (hright _ (List.Perm.refl _)).1.mpr
    ⟨.online, List.mem_cons_self, by decide, by decide, by decide⟩
  exact absurd hok (by decide)

end Handles

end Shim
