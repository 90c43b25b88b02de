import Shim.Common.Separators
import Shim.Http.Boot

/-! # The next URI

`generate_next_uri` (httpboot.c) against the parts of a URI: the loader is fetched from the
directory of the current path, on the same server. The length that is kept counts from the start of
the URI, but only once a slash was seen behind the scheme.
-/

namespace Shim

open CText Separators

/-! ## The parts of a URI -/

/-- `'/'`. -/
def slash : UInt8 := 47

/-- A URI, cut up; the scheme has its `://`, and `rest` is the query and the fragment. -/
structure UriParts where
  scheme : List UInt8
  authority : List UInt8
  path : List UInt8
  rest : List UInt8

/-- The authority goes up to the first of `/`, `?` and `#`, the path up to one of the latter. -/
def uriParts (scheme text : List UInt8) : UriParts where
  scheme := scheme
  authority := text.takeWhile (· ∉ ascii "/?#")
  path := (text.dropWhile (· ∉ ascii "/?#")).takeWhile (· ∉ ascii "?#")
  rest := (text.dropWhile (· ∉ ascii "/?#")).dropWhile (· ∉ ascii "?#")

/-- The parts of a URI with one of the two schemes. -/
def cutUri (url : List UInt8) : Option UriParts :=
  if ascii "http://" <+: url then some (uriParts (ascii "http://") (url.drop 7))
  else if ascii "https://" <+: url then some (uriParts (ascii "https://") (url.drop 8))
  else none

/-- The directory of a path; that of no path is the root. -/
def directory (path : List UInt8) : List UInt8 :=
  if path = [] then [slash] else upToLast slash path

/-- The URI of a loader in the directory of the current path. -/
def UriParts.next (u : UriParts) (nextLoader : List UInt8) : List UInt8 :=
  u.scheme ++ u.authority ++ directory u.path ++ nextLoader

/-- The next URI is that of the loader, on the same server. -/
structure KeepsServer (currentUri nextLoader : List UInt8) (u : UriParts) : Prop where
  next : generateNextUri currentUri nextLoader = .ok (u.next nextLoader)
  server : ∃ v, cutUri (u.next nextLoader) = some v ∧ v.scheme = u.scheme ∧
    v.authority = u.authority
  hostname : extractHostname (u.next nextLoader) = extractHostname currentUri

/-- `generate_next_uri` stays on the server for every URI of the two schemes, and refuses the
others. -/
def StaysOnServer (currentUri nextLoader : List UInt8) : Prop :=
  match cutUri currentUri with
  | some u => KeepsServer currentUri nextLoader u
  | none => ∃ e, generateNextUri currentUri nextLoader = .error e ∧ e.isError = true

/-- The current URI has a path, and no slash behind it. -/
def SlashInPath (currentUri : List UInt8) : Prop :=
  ∀ u, cutUri currentUri = some u → u.path ≠ [] ∧ slash ∉ u.rest

/-! ## What is kept -/

section Parts

variable {url text loader : List UInt8}

/-- The loop counts up to the last slash. -/
theorem pathLength_eq (count pathLen : ℕ) (text : List UInt8) : pathLength count pathLen text =
    if slash ∈ text then count + (upToLast slash text).length else pathLen := by
  induction text generalizing count pathLen with
  | nil => rfl
  | cons c text ih =>
    rw [pathLength, ih, upToLast_cons, show (47 : UInt8) = slash from rfl]
    by_cases hmem : slash ∈ text
    · rw [if_pos hmem, if_pos (List.mem_cons_of_mem c hmem), if_pos hmem, List.length_cons]
      omega
    · by_cases hc : c = slash
      · rw [if_neg hmem, if_pos hc, if_neg hmem, if_pos hc, if_pos (hc ▸ List.mem_cons_self)]
        rfl
      · have hcons : slash ∉ c :: text := by
          rw [List.mem_cons, not_or]
          exact ⟨Ne.symm hc, hmem⟩
        rw [if_neg hmem, if_neg hc, if_neg hcons]

/-- The schemes that are known. -/
theorem schemeLength_eq (url : List UInt8) : schemeLength url =
    if ascii "http://" <+: url then some 7 else if ascii "https://" <+: url then some 8
      else none := by
  have hhttp := strncmp_length_eq_iff (p := ascii "http://") (by decide) url
  have hhttps := strncmp_length_eq_iff (p := ascii "https://") (by decide) url
  rw [schemeLength]
  exact ite_congr (propext hhttp) (fun _ => rfl) fun _ =>
    ite_congr (propext hhttps) (fun _ => rfl) fun _ => rfl

/-- A URI is its scheme, and what the functions look at behind it. -/
theorem cutUri_eq_some {u : UriParts} (h : cutUri url = some u) :
    ∃ scheme text, (scheme = ascii "http://" ∨ scheme = ascii "https://") ∧
      url = scheme ++ text ∧ u = uriParts scheme text := by
  rw [cutUri] at h
  split_ifs at h with hhttp hhttps
  · obtain ⟨text, rfl⟩ := hhttp
    exact ⟨_, text, .inl rfl, rfl, (Option.some.inj h).symm⟩
  · obtain ⟨text, rfl⟩ := hhttps
    exact ⟨_, text, .inr rfl, rfl, (Option.some.inj h).symm⟩

/-- One scheme is not the beginning of the other. -/
theorem cutUri_scheme {scheme : List UInt8}
    (h : scheme = ascii "http://" ∨ scheme = ascii "https://") (text : List UInt8) :
    cutUri (scheme ++ text) = some (uriParts scheme text) ∧
      schemeLength (scheme ++ text) = some scheme.length := by
  have hnot : ¬ ascii "http://" <+: ascii "https://" ++ text := by
    rintro ⟨r, hr⟩
    have hat := congrArg (fun l : List UInt8 => l[4]?) hr
    simp [ascii] at hat
  rw [cutUri, schemeLength_eq]
  rcases h with rfl | rfl
  · rw [if_pos (List.prefix_append _ _), if_pos (List.prefix_append _ _)]
    exact ⟨rfl, rfl⟩
  · rw [if_neg hnot, if_pos (List.prefix_append _ _), if_neg hnot,
      if_pos (List.prefix_append _ _)]
    exact ⟨rfl, rfl⟩

/-- A URI that cannot be cut has no scheme that is known. -/
theorem cutUri_eq_none (h : cutUri url = none) : schemeLength url = none := by
  rw [cutUri] at h
  rw [schemeLength_eq]
  split_ifs at h ⊢
  rfl

/-- The next URI as the code builds it. -/
theorem generateNextUri_eq {scheme : List UInt8}
    (h : scheme = ascii "http://" ∨ scheme = ascii "https://") (text loader : List UInt8) :
    generateNextUri (scheme ++ text) loader =
      .ok (if slash ∈ text then scheme ++ upToLast slash text ++ loader else loader) := by
  rw [generateNextUri, (cutUri_scheme h text).2]
  dsimp only
  rw [List.drop_left, pathLength_eq]
  by_cases hmem : slash ∈ text
  · rw [if_pos hmem, if_pos hmem, List.take_length_add_append,
      ← List.prefix_iff_eq_take.mp (prefix_upToLast slash text)]
  · rw [if_neg hmem, if_neg hmem]
    rfl

/-- The host name is the text up to the first slash. -/
theorem extractHostname_eq {scheme : List UInt8}
    (h : scheme = ascii "http://" ∨ scheme = ascii "https://") (text : List UInt8) :
    extractHostname (scheme ++ text) = .ok (text.takeWhile (· ≠ slash)) := by
  rw [extractHostname, (cutUri_scheme h text).2]
  dsimp only
  rw [List.drop_left]
  rfl

/-! ## The parts -/

/-- The parts of a URI are its text. -/
theorem uriParts_append (scheme text : List UInt8) :
    (uriParts scheme text).authority ++ ((uriParts scheme text).path ++
      (uriParts scheme text).rest) = text := by
  simp only [uriParts, List.takeWhile_append_dropWhile]

/-- The authority ends in front of a path, a query or a fragment. -/
theorem mem_authority {scheme : List UInt8} {c : UInt8}
    (h : c ∈ (uriParts scheme text).authority) : c ∉ ascii "/?#" := by
  have htrue := List.mem_takeWhile_imp h
  exact of_decide_eq_true htrue

/-- A path starts with a slash. -/
theorem exists_path_cons {scheme : List UInt8} (h : (uriParts scheme text).path ≠ []) :
    ∃ path, (uriParts scheme text).path = slash :: path := by
  obtain ⟨c, path, hpath⟩ := List.exists_cons_of_ne_nil h
  have hmem : c ∈ (uriParts scheme text).path := by rw [hpath]; exact List.mem_cons_self
  have htrue := List.mem_takeWhile_imp hmem
  have hc : c ∉ ascii "?#" := of_decide_eq_true htrue
  have hdrop : text.dropWhile (· ∉ ascii "/?#") ≠ [] := by
    intro hnil
    rw [uriParts, hnil] at h
    exact h rfl
  have hhead := List.head_dropWhile_not (· ∉ ascii "/?#") hdrop
  have hfirst : (text.dropWhile (· ∉ ascii "/?#")).head hdrop = c := by
    obtain ⟨d, r, hr⟩ := List.exists_cons_of_ne_nil hdrop
    simp only [uriParts, hr] at hpath
    rw [List.takeWhile_cons] at hpath
    split_ifs at hpath
    simp only [hr, List.head_cons]
    exact (List.cons.inj hpath).1
  rw [hfirst, decide_eq_false_iff_not, not_not] at hhead
  have hascii : ascii "/?#" = slash :: ascii "?#" := rfl
  rw [hascii, List.mem_cons] at hhead
  exact ⟨path, by rw [hpath, hhead.resolve_right hc]⟩

/-- What follows the path does not start with a slash. -/
theorem rest_head_ne {scheme rest : List UInt8} :
    (uriParts scheme text).rest ≠ slash :: rest := by
  intro h
  have hne : (uriParts scheme text).rest ≠ [] := by
    rw [h]
    exact List.cons_ne_nil _ _
  have hhead := List.head_dropWhile_not (· ∉ ascii "?#") hne
  simp only [uriParts] at h
  simp only [h, List.head_cons] at hhead
  exact absurd hhead (by decide)

end Parts

/-! ## Staying on the server -/

section Server

variable {scheme text loader : List UInt8}

/-- The part that is kept is that of the server and directory if the last slash is one of the
path. -/
theorem next_eq_iff (h : scheme = ascii "http://" ∨ scheme = ascii "https://") :
    generateNextUri (scheme ++ text) loader = .ok ((uriParts scheme text).next loader) ↔
      (uriParts scheme text).path ≠ [] ∧ slash ∉ (uriParts scheme text).rest := by
  have hsplit := uriParts_append scheme text
  have hauth : slash ∉ (uriParts scheme text).authority := fun hmem =>
    mem_authority hmem (by decide)
  have hpath := @exists_path_cons text scheme
  have hrest : ∀ r, (uriParts scheme text).rest ≠ slash :: r := fun r => rest_head_ne
  have hscheme : (uriParts scheme text).scheme = scheme := rfl
  rw [generateNextUri_eq h, UriParts.next, hscheme, Except.ok.injEq]
  generalize uriParts scheme text = u at *
  rw [← hsplit]
  by_cases hmem : slash ∈ u.rest
  · -- the slash of a query is taken for one of the path
    refine iff_of_false (fun heq => ?_) fun hok => hok.2 hmem
    rw [if_pos (List.mem_append_right _ (List.mem_append_right _ hmem)),
      upToLast_append, if_pos (List.mem_append_right _ hmem), upToLast_append, if_pos hmem,
      List.append_left_inj, List.append_assoc, List.append_right_inj, List.append_right_inj] at heq
    obtain ⟨c, r, hcons⟩ := List.exists_cons_of_ne_nil (mt upToLast_eq_nil.mp (not_not.mpr hmem))
    rw [directory] at heq
    split_ifs at heq with hnil
    · rw [hnil, List.nil_append, hcons] at heq
      obtain ⟨t, ht⟩ := prefix_upToLast slash u.rest
      rw [hcons, (List.cons.inj heq).1] at ht
      exact hrest _ ht.symm
    · have hlen := congrArg List.length heq
      have hle := (prefix_upToLast slash u.path).length_le
      rw [hcons, List.length_append, List.length_cons] at hlen
      omega
  by_cases hnil : u.path = []
  · -- only the scheme has slashes, and nothing is kept
    refine iff_of_false (fun heq => ?_) fun hok => hok.1 hnil
    rw [hnil, List.nil_append, if_neg (by simp [hauth, hmem]), directory, if_pos rfl] at heq
    have hlen := congrArg List.length heq
    simp only [List.length_append, List.length_singleton] at hlen
    omega
  -- the last slash is the last one of the path
  · obtain ⟨path, hcons⟩ := hpath hnil
    have hslash : slash ∈ u.path := hcons ▸ List.mem_cons_self
    refine iff_of_true ?_ ⟨hnil, hmem⟩
    rw [if_pos (by simp [hslash]), upToLast_append, if_pos (by simp [hslash]), upToLast_append,
      if_neg hmem, directory, if_neg hnil]
    simp only [List.append_assoc]

/-- Behind the authority there is a slash, in the directory as in the path. -/
theorem exists_directory_cons (hpath : (uriParts scheme text).path ≠ []) :
    ∃ r, directory (uriParts scheme text).path = slash :: r := by
  obtain ⟨path, hcons⟩ := exists_path_cons hpath
  rw [directory, if_neg hpath, hcons, upToLast_cons]
  split_ifs with hmem
  · exact ⟨_, rfl⟩
  · exact ⟨[], rfl⟩
  · rename_i hne
    exact absurd rfl hne

/-- A search for a slash stops behind the authority. -/
theorem takeWhile_authority {p : UInt8 → Bool}
    (hp : ∀ c ∈ (uriParts scheme text).authority, p c = true) (hslash : p slash = false)
    (r : List UInt8) : ((uriParts scheme text).authority ++ slash :: r).takeWhile p =
      (uriParts scheme text).authority := by
  rw [List.takeWhile_append_of_pos hp, List.takeWhile_cons_of_neg (by simp [hslash]),
    List.append_nil]

/-- A path keeps the server, whatever loader is asked for. -/
theorem keepsServer_iff {currentUri : List UInt8} {u : UriParts}
    (hcut : cutUri currentUri = some u) :
    KeepsServer currentUri loader u ↔ u.path ≠ [] ∧ slash ∉ u.rest := by
  obtain ⟨scheme, text, h, rfl, rfl⟩ := cutUri_eq_some hcut
  constructor
  · exact fun hkeeps => (next_eq_iff h).mp hkeeps.next
  · intro hok
    obtain ⟨r, hdir⟩ := exists_directory_cons hok.1
    obtain ⟨path, hpath⟩ := exists_path_cons hok.1
    have hnext : (uriParts scheme text).next loader =
        scheme ++ ((uriParts scheme text).authority ++ slash :: (r ++ loader)) := by
      rw [UriParts.next, hdir, List.append_assoc, List.append_assoc, List.cons_append]
      rfl
    have hhost : ∀ c ∈ (uriParts scheme text).authority, decide (c ≠ slash) = true := fun c hc =>
      decide_eq_true fun hslash => mem_authority hc (hslash ▸ by decide)
    refine ⟨(next_eq_iff h).mpr hok, ?_, ?_⟩
    · rw [hnext, (cutUri_scheme h _).1]
      exact ⟨_, rfl, rfl, takeWhile_authority (fun c hc => decide_eq_true (mem_authority hc))
        (by decide) _⟩
    · have htext := uriParts_append scheme text
      rw [hpath, List.cons_append] at htext
      rw [hnext, extractHostname_eq h, extractHostname_eq h,
        takeWhile_authority hhost (by decide)]
      conv_rhs => rw [← htext, takeWhile_authority hhost (by decide)]

end Server

/-- The next URI stays on the server when the last slash of the current one is in its path. -/
theorem staysOnServer_iff (currentUri nextLoader : List UInt8) :
    StaysOnServer currentUri nextLoader ↔ SlashInPath currentUri := by
  rw [StaysOnServer, SlashInPath]
  cases hcut : cutUri currentUri with
  | none =>
    refine iff_of_true ⟨.invalidParameter, ?_, rfl⟩ fun u hu => nomatch hu
    rw [generateNextUri, cutUri_eq_none hcut]
  | some u =>
    dsimp only
    rw [keepsServer_iff hcut]
    exact ⟨fun h v hv => Option.some.inj hv ▸ h, fun h => h u rfl⟩

/-- `"http://server"`: the next URI is `"grubx64.efi"`. -/
theorem not_staysOnServer_noPath :
    ¬ StaysOnServer (ascii "http://server") (ascii "grubx64.efi") := by
  rintro ⟨hnext, -, -⟩
  exact absurd hnext (by decide)

end Shim
