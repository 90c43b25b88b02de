import Shim.Common.Loop
import Shim.Common.Ownership
import Shim.File.Listing

/-! # The file dialog

`simple_file_selector` (lib/simple_file.c) lists a directory, lets the user choose, and goes on with
a directory that is chosen. The path is kept as a text only: a name is added behind it, and cut off
at its last backslash. The buffer a directory is read into is freed before the next one is read, and
the pointer to it kept.
-/

namespace Shim.Selector

open Listing (DirMemory DirNames DirOutcome DirectoryRead FileInfo ShowsAll bar derFile dotDot labels
  length_anyName parentLabel parentLabel_eq plenty recordOf showsAll_of_listed simpleDirFilter
  sound_derFile)
open Loop (Next Reaches)
open Ownership (Act AllSettled Deed deeds)
open Trust (text16)

/-! ## The code -/

/-- The path, the buffer `dmp` points to, freed or not, and how many turns there have been. A buffer
is known by the turn that allocates it. -/
structure SelectorState where
  name : List UInt16
  dmp : Option ℕ
  turn : ℕ

/-- The search for the last backslash, from index `i` on: it does not look at the first one. -/
def upLoop (name : List UInt16) : (i : ℕ) → ℕ
  | 0 => 1
  | i + 1 => if name.getD (i + 1) 0 = ImagePath.backslash then i + 1 else upLoop name i

/-- Where a path is cut off. -/
def upIndex (name : List UInt16) : ℕ := upLoop name name.length

/-- A path and what is put behind it. -/
def join (name selected : List UInt16) : List UInt16 :=
  if name.getLast? = some ImagePath.backslash then name ++ selected
  else name ++ ImagePath.backslash :: selected

/-- What the memory of the machine answers in a turn, to `simple_dir_filter` and to the allocation of
a path, and what the user chooses. -/
structure TurnAnswers where
  dir : DirMemory
  path : Bool
  select : ℤ

/-- What an entry leads to: a directory or, on the right, `*result`, if there is memory for its path.
There is no last character of an empty string. -/
def choose (alloc : Bool) (name selected : List UInt16) :
    Option (List UInt16 ⊕ Option (List UInt16)) :=
  match name.getLast?, selected.getLast? with
  | some _, some c =>
    if c ≠ ImagePath.slash then some (.inr (if alloc then some (join name selected) else none))
    else if selected = text16 "./" then some (.inl name)
    else if selected = parentLabel ∧ name ≠ [ImagePath.backslash] ∧
        name.drop (upIndex name) ≠ text16 ".." then
      some (.inl (name.take (upIndex name)))
    else if alloc then some (.inl (join name selected).dropLast)
    else some (.inr none)
  | _, _ => none

section Turn

variable (volume : List UInt16 → DirectoryRead) (filter : List UInt16) (answers : ℕ → TurnAnswers)

/-- The buffer of a turn that lists a directory. -/
def life (turn : ℕ) : List (Act ℕ) := [⟨.allocate, turn⟩, ⟨.use, turn⟩, ⟨.release, turn⟩]

/-- `FreePool(dmp)`, if it is not null. -/
def release (s : SelectorState) : List (Act ℕ) := s.dmp.toList.map (Act.mk .release)

/-- A turn: what is done to the buffers, and the next state or `*result`; `none` where it leaves its
memory. A directory that cannot be read has the last buffer freed, and so has one that is not read
because there is no memory for the filter. -/
def selectorTurn (s : SelectorState) :
    List (Act ℕ) × (SelectorState ⊕ Option (Option (List UInt16))) :=
  match simpleDirFilter (answers s.turn).dir (volume s.name) filter with
  | none => ([⟨.allocate, s.turn⟩], .inr none)
  | some .early => (release s, .inr (some none))
  | some (.refused _) => (release s, .inr (some none))
  | some .noRecords => ([], .inr (some none))
  | some (.noName _) => (life s.turn, .inr (some none))
  | some (.listed l) =>
    if (answers s.turn).select < 0 then (life s.turn, .inr (some none))
    else
      match l.names[(answers s.turn).select.toNat]?.bind
          (choose (answers s.turn).path s.name) with
      | none => (life s.turn, .inr none)
      | some (.inl name) => (life s.turn, .inl ⟨name, some s.turn, s.turn + 1⟩)
      | some (.inr path) => (life s.turn, .inr (some path))

end Turn

/-- MokManager starts at the root. -/
def selectorStart : SelectorState := ⟨[ImagePath.backslash], none, 0⟩

/-! ## Paths -/

/-- A name as a file system has it. -/
structure PlainName (c : List UInt16) : Prop where
  ne_nil : c ≠ []
  backslash_notMem : ImagePath.backslash ∉ c
  slash_notMem : ImagePath.slash ∉ c

/-- The names of a path, each behind a backslash. -/
def steps (cs : List (List UInt16)) : List UInt16 := cs.flatMap fun c => ImagePath.backslash :: c

/-- The text of the path of a directory. -/
def pathText (cs : List (List UInt16)) : List UInt16 :=
  if cs = [] then [ImagePath.backslash] else steps cs

section Paths

variable {cs : List (List UInt16)} {c : List UInt16}

theorem selfLabel_eq : text16 "./" = text16 "." ++ [ImagePath.slash] := by decide

/-- The last name comes behind the others. -/
theorem steps_concat (cs : List (List UInt16)) (c : List UInt16) :
    steps (cs ++ [c]) = steps cs ++ ImagePath.backslash :: c := by
  simp [steps]

/-- A path that is not the root is its names. -/
theorem pathText_concat (cs : List (List UInt16)) (c : List UInt16) :
    pathText (cs ++ [c]) = steps cs ++ ImagePath.backslash :: c := by
  rw [pathText, if_neg (by simp), steps_concat]

/-- A path has a text. -/
theorem pathText_ne_nil (cs : List (List UInt16)) : pathText cs ≠ [] := by
  rcases List.eq_nil_or_concat' cs with rfl | ⟨cs, c, rfl⟩
  · exact List.cons_ne_nil _ _
  · rw [pathText_concat]
    exact List.append_ne_nil_of_right_ne_nil _ (List.cons_ne_nil _ _)

/-- So it has a last character. -/
theorem exists_getLast? (cs : List (List UInt16)) : ∃ x, (pathText cs).getLast? = some x :=
  Option.ne_none_iff_exists'.mp (List.getLast?_eq_none_iff.not.mpr (pathText_ne_nil cs))

/-- Only the root has no names. -/
theorem steps_eq_nil : steps cs = [] ↔ cs = [] := by
  constructor
  · intro h
    rcases List.eq_nil_or_concat' cs with rfl | ⟨cs, c, rfl⟩
    · rfl
    · rw [steps_concat] at h
      simp at h
  · rintro rfl
    rfl

/-- A name goes behind a path as one step more. -/
theorem join_pathText (hplain : ∀ c ∈ cs, PlainName c) (x : List UInt16) :
    join (pathText cs) x = steps (cs ++ [x]) := by
  rcases List.eq_nil_or_concat' cs with rfl | ⟨cs, c, rfl⟩
  · simp [join, pathText, steps]
  · have hc := hplain c (by simp)
    have hlast : (pathText (cs ++ [c])).getLast? ≠ some ImagePath.backslash := by
      rw [pathText_concat, List.getLast?_append, List.getLast?_cons]
      rw [List.getLast?_eq_some_getLast hc.ne_nil]
      intro h
      have hmem := List.getLast_mem hc.ne_nil
      simp at h
      exact hc.backslash_notMem (h ▸ hmem)
    rw [join, if_neg hlast, pathText_concat, steps_concat, steps_concat]

/-- The search comes from inside the last name to the backslash in front of it, or to index 1. -/
theorem upLoop_concat (hc : ImagePath.backslash ∉ c) (l : List UInt16) (k : ℕ) :
    upLoop (l ++ ImagePath.backslash :: c) (l.length + k) = if l = [] then 1 else l.length := by
  -- `k` is the distance from the backslash in front of the name
  induction k with
  | zero =>
    cases l with
    | nil => rfl
    | cons x l =>
      have hget : (x :: l ++ ImagePath.backslash :: c).getD (l.length + 1) 0 =
          ImagePath.backslash := by
        refine (List.getD_append_right (x :: l) _ _ _ (Nat.le_refl _)).trans ?_
        simp
      rw [if_neg (List.cons_ne_nil _ _), Nat.add_zero, List.length_cons, upLoop, if_pos hget]
  | succ k ih =>
    have hget : (l ++ ImagePath.backslash :: c).getD (l.length + k + 1) 0 = c.getD k 0 := by
      rw [Nat.add_assoc, List.getD_append_right _ _ _ _ (Nat.le_add_right _ _),
        Nat.add_sub_cancel_left]
      rfl
    have hne : c.getD k 0 ≠ ImagePath.backslash := by
      intro h
      rcases Nat.lt_or_ge k c.length with hk | hk
      · rw [List.getD_eq_getElem _ _ hk] at h
        exact hc (h ▸ List.getElem_mem hk)
      · rw [List.getD_eq_default _ _ hk] at h
        exact absurd h (by decide)
    rw [← Nat.add_assoc, upLoop, hget, if_neg hne, ih]

/-- A path is cut off in front of its last name, or behind the first backslash. -/
theorem upIndex_pathText (hc : ImagePath.backslash ∉ c) (cs : List (List UInt16)) :
    upIndex (pathText (cs ++ [c])) = if cs = [] then 1 else (steps cs).length := by
  rw [upIndex, pathText_concat, List.length_append, upLoop_concat hc]
  simp only [steps_eq_nil]

/-- Going up takes the last name away. -/
theorem choose_up (alloc : Bool) (hc : PlainName c) (hparent : c ≠ text16 "..")
    (cs : List (List UInt16)) :
    choose alloc (pathText (cs ++ [c])) parentLabel = some (.inl (pathText cs)) := by
  have hroot : pathText (cs ++ [c]) ≠ [ImagePath.backslash] := by
    rw [pathText_concat]
    intro h
    have hlen := congrArg List.length h
    have hpos := List.length_pos_iff.mpr hc.ne_nil
    simp at hlen
    omega
  have hcut : (pathText (cs ++ [c])).take (upIndex (pathText (cs ++ [c]))) = pathText cs ∧
      (pathText (cs ++ [c])).drop (upIndex (pathText (cs ++ [c]))) ≠ text16 ".." := by
    rw [upIndex_pathText hc.backslash_notMem, pathText_concat]
    by_cases hcs : cs = []
    · subst hcs
      exact ⟨rfl, hparent⟩
    · rw [if_neg hcs, List.take_left, List.drop_left, pathText, if_neg hcs]
      refine ⟨rfl, fun h => ?_⟩
      have hhead : some ImagePath.backslash = some 0x2e := congrArg List.head? h
      exact absurd hhead (by decide)
  obtain ⟨x, hx⟩ := exists_getLast? (cs ++ [c])
  have hlast : parentLabel.getLast? = some ImagePath.slash := by decide
  have hdot : parentLabel ≠ text16 "./" := by decide
  rw [choose, hx, hlast]
  dsimp only
  rw [if_neg (not_not_intro rfl), if_neg hdot, if_pos ⟨rfl, hroot, hcut.2⟩, hcut.1]

/-- A directory that is chosen becomes the last name, if there is memory for the path. -/
theorem choose_down (alloc : Bool) (hplain : ∀ c ∈ cs, PlainName c) (hdot : c ≠ text16 ".")
    (hparent : c ≠ text16 "..") : choose alloc (pathText cs) (c ++ [ImagePath.slash]) =
      some (if alloc then .inl (pathText (cs ++ [c])) else .inr none) := by
  obtain ⟨x, hx⟩ := exists_getLast? cs
  have hstay : c ++ [ImagePath.slash] ≠ text16 "./" := fun h =>
    hdot (List.append_cancel_right (h.trans selfLabel_eq))
  have hup : c ++ [ImagePath.slash] ≠ parentLabel := fun h =>
    hparent (List.append_cancel_right (h.trans parentLabel_eq.symm))
  have hpath : (steps (cs ++ [c ++ [ImagePath.slash]])).dropLast = pathText (cs ++ [c]) := by
    rw [steps_concat, pathText_concat, ← List.cons_append, ← List.append_assoc,
      List.dropLast_concat]
  rw [choose, hx, List.getLast?_concat]
  dsimp only
  rw [if_neg (not_not_intro rfl), if_neg hstay, if_neg fun h => hup h.1, join_pathText hplain,
    hpath]
  split <;> rfl

/-- A file that is chosen is the result, if there is memory for its path. -/
theorem choose_file (alloc : Bool) (hplain : ∀ c ∈ cs, PlainName c) (hc : PlainName c) :
    choose alloc (pathText cs) c =
      some (.inr (if alloc then some (pathText (cs ++ [c])) else none)) := by
  obtain ⟨x, hx⟩ := exists_getLast? cs
  have hlast : c.getLast hc.ne_nil ≠ ImagePath.slash := fun h =>
    hc.slash_notMem (h ▸ List.getLast_mem hc.ne_nil)
  rw [choose, hx, List.getLast?_eq_some_getLast hc.ne_nil]
  dsimp only
  have hpath : pathText (cs ++ [c]) = steps (cs ++ [c]) := if_neg (by simp)
  rw [if_pos hlast, join_pathText hplain, hpath]

end Paths

/-! ## Where a run leads -/

/-- The directory at `cs` lists the file. -/
def Lists (volume : List UInt16 → DirectoryRead) (cs : List (List UInt16)) (f : FileInfo) : Prop :=
  ∃ files, volume (pathText cs) = .listed files ∧ f ∈ files

/-- Each name of the path is that of a directory which the one before it lists. -/
def Descends (volume : List UInt16 → DirectoryRead) (cs : List (List UInt16)) : Prop :=
  ∀ cs' c, cs' ++ [c] <+: cs → ∃ f, Lists volume cs' f ∧ f.isDirectory = true ∧ f.fileName = c

/-- The directories of a volume, wherever they can be read, are sound and have the names of a file
system, and the root has no parent. -/
structure SoundVolume (volume : List UInt16 → DirectoryRead) (filter : List UInt16) : Prop where
  filters : ∀ s ∈ filter.splitOn bar, s.length ≤ 40
  sound : ∀ {path files}, volume path = .listed files → ∀ f ∈ files, f.Sound
  plain : ∀ {path files}, volume path = .listed files → ∀ f ∈ files, PlainName f.fileName
  root : ∀ {files}, volume [ImagePath.backslash] = .listed files →
    ∀ f ∈ files, f.fileName ≠ text16 ".."

/-- The state is that of the directory at `cs`. -/
structure At (volume : List UInt16 → DirectoryRead) (cs : List (List UInt16))
    (s : SelectorState) : Prop where
  name : s.name = pathText cs
  descends : Descends volume cs
  plain : ∀ c ∈ cs, PlainName c
  noParent : ∀ c ∈ cs, c ≠ text16 ".."

section Runs

variable {volume : List UInt16 → DirectoryRead} {filter : List UInt16} {answers : ℕ → TurnAnswers}
  {cs : List (List UInt16)} {c x : List UInt16} {f : FileInfo} {files : List FileInfo}
  {s s' : SelectorState} {l : DirNames}

/-- Every directory on the way is one of the volume. -/
theorem Descends.up (h : Descends volume (cs ++ [c])) : Descends volume cs :=
  fun cs' c' hbelow => h cs' c' (hbelow.trans (List.prefix_append cs [c]))

/-- A directory that is listed is one of the volume. -/
theorem Descends.down (h : Descends volume cs) (hlists : Lists volume cs f)
    (hdirectory : f.isDirectory = true) : Descends volume (cs ++ [f.fileName]) := by
  intro cs' c' hbelow
  rcases List.prefix_concat_iff.mp hbelow with heq | hbelow
  · obtain ⟨rfl, hc⟩ := List.append_inj' heq rfl
    exact ⟨f, hlists, hdirectory, (List.singleton_injective hc).symm⟩
  · exact h cs' c' hbelow

/-- The dialog starts at the root. -/
theorem at_start : At volume [] selectorStart where
  name := rfl
  descends cs' c hbelow := by
    have hnil := List.prefix_nil.mp hbelow
    simp at hnil
  plain _ hc := absurd hc List.not_mem_nil
  noParent _ hc := absurd hc List.not_mem_nil

/-- What an entry of the names leads to: the same directory, its parent, one in it, a file, or
nothing for want of memory. -/
theorem choose_cases (hvolume : SoundVolume volume filter) (hat : At volume cs s)
    (hread : volume s.name = .listed files) (hshows : ShowsAll (filter.splitOn bar) files l)
    (alloc : Bool) (hx : x ∈ l.names) :
    choose alloc s.name x = some (.inl s.name) ∨
      (∃ cs' c, cs = cs' ++ [c] ∧ choose alloc s.name x = some (.inl (pathText cs'))) ∨
      (∃ f ∈ files, f.isDirectory = true ∧ f.fileName ≠ text16 ".." ∧
        choose alloc s.name x = some (.inl (pathText (cs ++ [f.fileName])))) ∨
      (∃ f ∈ files, f.isDirectory = false ∧ f.matched (filter.splitOn bar) = true ∧
        choose alloc s.name x = some (.inr (some (pathText (cs ++ [f.fileName]))))) ∨
      choose alloc s.name x = some (.inr none) := by
  have hnames := hshows.names
  split_ifs at hnames with hnone
  · -- nothing to show: the entry is the literal, and the path stays
    subst hnames
    obtain rfl := List.mem_singleton.mp hx
    refine .inl ?_
    obtain ⟨y, hy⟩ := exists_getLast? cs
    have hlast : (text16 "./").getLast? = some ImagePath.slash := by decide
    rw [choose, hat.name, hy, hlast]
    dsimp only
    rw [if_neg (not_not_intro rfl), if_pos rfl]
  · obtain ⟨f, hf, rfl⟩ := List.mem_map.mp (hnames.2.mem_iff.mp hx)
    obtain ⟨hmem, hshown⟩ := List.mem_filter.mp hf
    obtain ⟨hdot, hcounted⟩ := Bool.and_eq_true_iff.mp hshown
    have hplain := hvolume.plain hread f hmem
    rw [hat.name, FileInfo.label]
    cases hdirectory : f.isDirectory with
    | false =>
      rw [FileInfo.counted, hdirectory, Bool.false_or] at hcounted
      rw [if_neg Bool.false_ne_true, choose_file alloc hat.plain hplain]
      cases alloc with
      | false => exact .inr (.inr (.inr (.inr rfl)))
      | true => exact .inr (.inr (.inr (.inl ⟨f, hmem, hdirectory, hcounted, rfl⟩)))
    | true =>
      rw [if_pos rfl]
      by_cases hparent : f.fileName = text16 ".."
      -- up: the root lists no entry for its parent
      · rw [hparent, parentLabel_eq]
        rcases List.eq_nil_or_concat' cs with rfl | ⟨cs', c, rfl⟩
        · rw [hat.name] at hread
          exact absurd hparent (hvolume.root hread f hmem)
        · exact .inr (.inl ⟨cs', c, rfl, choose_up alloc (hat.plain c (by simp))
            (hat.noParent c (by simp)) cs'⟩)
      -- down into the directory
      · rw [choose_down alloc hat.plain (of_decide_eq_true hdot) hparent]
        cases alloc with
        | false => exact .inr (.inr (.inr (.inr rfl)))
        | true => exact .inr (.inr (.inl ⟨f, hmem, hdirectory, hparent, rfl⟩))

/-- The directory of the turn is not read, or cannot be: the buffer that `dmp` still points to is
freed. -/
def Unread (volume : List UInt16 → DirectoryRead) (answers : ℕ → TurnAnswers) (s : SelectorState) :
    Prop :=
  (answers s.turn).dir.newfilter = false ∨ (answers s.turn).dir.filterarr = false ∨
    ∃ e, volume s.name = .refused e

/-- What `simple_dir_filter` comes to, as far as the buffers are concerned. -/
theorem dirOutcome_cases (volume : List UInt16 → DirectoryRead) (filter : List UInt16)
    (answers : ℕ → TurnAnswers) (s : SelectorState) :
    (Unread volume answers s ∧
      (simpleDirFilter (answers s.turn).dir (volume s.name) filter = some .early ∨
        ∃ e, simpleDirFilter (answers s.turn).dir (volume s.name) filter = some (.refused e))) ∨
    ¬ Unread volume answers s ∧
      (simpleDirFilter (answers s.turn).dir (volume s.name) filter = some .noRecords ∨
        ∃ files, volume s.name = .listed files ∧
          (simpleDirFilter (answers s.turn).dir (volume s.name) filter = none ∨
            (∃ names,
              simpleDirFilter (answers s.turn).dir (volume s.name) filter = some (.noName names)) ∨
            ∃ l, simpleDirFilter (answers s.turn).dir (volume s.name) filter =
              some (.listed l))) := by
  unfold simpleDirFilter Unread
  generalize (answers s.turn).dir = m
  -- without memory for the filter the directory is not opened
  by_cases hearly : (!m.newfilter || !m.filterarr) = true
  · rw [if_pos hearly]
    refine .inl ⟨?_, .inl rfl⟩
    rcases Bool.or_eq_true_iff.mp hearly with h | h
    · exact .inl (by simpa using h)
    · exact .inr (.inl (by simpa using h))
  · rw [if_neg hearly]
    obtain ⟨hnew, harr⟩ : m.newfilter = true ∧ m.filterarr = true := by simpa using hearly
    cases hread : volume s.name with
    | refused e => exact .inl ⟨.inr (.inr ⟨e, rfl⟩), .inr ⟨e, rfl⟩⟩
    | noMemory => exact .inr ⟨by simp [hnew, harr], .inl rfl⟩
    | listed files =>
      refine .inr ⟨by simp [hnew, harr], .inr ⟨files, rfl, ?_⟩⟩
      dsimp only
      split
      · next l _ => exact .inr (.inr ⟨l, rfl⟩)
      · next names _ => exact .inr (.inl ⟨names, rfl⟩)
      · exact .inl rfl

/-- A turn ends where its directory is not read, leaves its memory, ends without a file, or follows
an entry of its directory. -/
theorem selectorTurn_cases (volume : List UInt16 → DirectoryRead) (filter : List UInt16)
    (answers : ℕ → TurnAnswers) (s : SelectorState) :
    (Unread volume answers s ∧
      selectorTurn volume filter answers s = (release s, .inr (some none))) ∨
    ¬ Unread volume answers s ∧
      ((selectorTurn volume filter answers s).2 = .inr none ∨
        (∃ acts, (acts = [] ∨ acts = life s.turn) ∧
          selectorTurn volume filter answers s = (acts, .inr (some none))) ∨
        ∃ files l x r, volume s.name = .listed files ∧
          simpleDirFilter (answers s.turn).dir (volume s.name) filter = some (.listed l) ∧
          x ∈ l.names ∧ choose (answers s.turn).path s.name x = some r ∧
          selectorTurn volume filter answers s =
            (life s.turn, r.elim (fun name => .inl ⟨name, some s.turn, s.turn + 1⟩)
              fun path => .inr (some path))) := by
  unfold selectorTurn
  rcases dirOutcome_cases volume filter answers s with
    ⟨hunread, hdir | ⟨e, hdir⟩⟩ | ⟨hunread, hdir | ⟨files, hread, hdir | ⟨names, hdir⟩ | ⟨l, hdir⟩⟩⟩
  · exact .inl ⟨hunread, by rw [hdir]⟩
  · exact .inl ⟨hunread, by rw [hdir]⟩
  · exact .inr ⟨hunread, .inr (.inl ⟨[], .inl rfl, by rw [hdir]⟩)⟩
  · exact .inr ⟨hunread, .inl (by rw [hdir])⟩
  · exact .inr ⟨hunread, .inr (.inl ⟨_, .inr rfl, by rw [hdir]⟩)⟩
  · refine .inr ⟨hunread, ?_⟩
    rw [hdir]
    dsimp only
    -- the user leaves the list
    by_cases hleave : (answers s.turn).select < 0
    · rw [if_pos hleave]
      exact .inr (.inl ⟨_, .inr rfl, rfl⟩)
    rw [if_neg hleave]
    -- an answer beyond the list is no entry
    cases hget : l.names[(answers s.turn).select.toNat]? with
    | none => exact .inl rfl
    | some x =>
      rw [Option.bind_some]
      cases hchoose : choose (answers s.turn).path s.name x with
      | none => exact .inl rfl
      | some r =>
        refine .inr (.inr ⟨files, l, x, r, hread, rfl, List.mem_of_getElem? hget, hchoose, ?_⟩)
        cases r <;> rfl

/-- A turn that goes on or returns a path has followed an entry of its directory. -/
theorem selectorTurn_followed (hgoes : (selectorTurn volume filter answers s).2 ≠ .inr none)
    (hpath : (selectorTurn volume filter answers s).2 ≠ .inr (some none)) :
    ∃ files l x r, volume s.name = .listed files ∧
      simpleDirFilter (answers s.turn).dir (volume s.name) filter = some (.listed l) ∧
      x ∈ l.names ∧ choose (answers s.turn).path s.name x = some r ∧
      selectorTurn volume filter answers s =
        (life s.turn, r.elim (fun name => .inl ⟨name, some s.turn, s.turn + 1⟩)
          fun path => .inr (some path)) := by
  rcases selectorTurn_cases volume filter answers s with
    ⟨-, hturn⟩ | ⟨-, hturn | ⟨acts, -, hturn⟩ | hfollowed⟩
  · exact absurd (congrArg Prod.snd hturn) hpath
  · exact absurd hturn hgoes
  · exact absurd (congrArg Prod.snd hturn) hpath
  · exact hfollowed

/-- A turn that goes on follows an entry, and frees the buffer it has read. -/
theorem selectorTurn_next (h : Next (selectorTurn volume filter answers) s s') :
    (∃ files l x, volume s.name = .listed files ∧
      simpleDirFilter (answers s.turn).dir (volume s.name) filter = some (.listed l) ∧
        x ∈ l.names ∧ choose (answers s.turn).path s.name x = some (.inl s'.name)) ∧
      s'.dmp = some s.turn ∧ s'.turn = s.turn + 1 ∧
        (selectorTurn volume filter answers s).1 = life s.turn := by
  unfold Next at h
  obtain ⟨files, l, x, r, hread, hlist, hx, hr, hturn⟩ :=
    selectorTurn_followed (by rw [h]; exact Sum.inl_ne_inr) (by rw [h]; exact Sum.inl_ne_inr)
  rw [hturn] at h ⊢
  cases r with
  | inl name =>
    obtain rfl := Sum.inl.inj h
    exact ⟨⟨files, l, x, hread, hlist, hx, hr⟩, rfl, rfl, rfl⟩
  | inr path => cases h

/-- A turn that comes to a file follows the entry of it. -/
theorem selectorTurn_file {path : List UInt16}
    (h : (selectorTurn volume filter answers s).2 = .inr (some (some path))) :
    ∃ files l x, volume s.name = .listed files ∧
      simpleDirFilter (answers s.turn).dir (volume s.name) filter = some (.listed l) ∧
        x ∈ l.names ∧ choose (answers s.turn).path s.name x = some (.inr (some path)) := by
  obtain ⟨files, l, x, r, hread, hlist, hx, hr, hturn⟩ :=
    selectorTurn_followed (by rw [h]; exact Sum.inr_injective.ne (Option.some_ne_none _))
      (by rw [h]; simp)
  rw [hturn] at h
  cases r with
  | inl name => cases h
  | inr path' =>
    obtain rfl : path' = some path := Option.some.inj (Sum.inr.inj h)
    exact ⟨files, l, x, hread, hlist, hx, hr⟩

/-- The names of a directory that is listed are all that is to be shown. -/
theorem SoundVolume.showsAll (hvolume : SoundVolume volume filter)
    (hread : volume s.name = .listed files)
    (hlist : simpleDirFilter (answers s.turn).dir (volume s.name) filter = some (.listed l)) :
    ShowsAll (filter.splitOn bar) files l := by
  rw [hread] at hlist
  exact showsAll_of_listed hvolume.filters (hvolume.sound hread) hlist

/-- A turn leads from the path of a directory to that of one. -/
theorem At.next (hvolume : SoundVolume volume filter) (hat : At volume cs s)
    (h : Next (selectorTurn volume filter answers) s s') : ∃ cs', At volume cs' s' := by
  obtain ⟨⟨files, l, x, hread, hlist, hx, hchoose⟩, -⟩ := selectorTurn_next h
  rcases choose_cases hvolume hat hread (hvolume.showsAll hread hlist) (answers s.turn).path hx with
    hcase | ⟨cs', c, rfl, hcase⟩ | ⟨f, hf, hdirectory, hparent, hcase⟩ | ⟨f, -, -, -, hcase⟩ | hcase
  · have hname := Sum.inl.inj (Option.some.inj (hchoose.symm.trans hcase))
    exact ⟨cs, hname.trans hat.name, hat.descends, hat.plain, hat.noParent⟩
  · have hname := Sum.inl.inj (Option.some.inj (hchoose.symm.trans hcase))
    exact ⟨cs', hname, hat.descends.up, fun c hc => hat.plain c (List.mem_append_left _ hc),
      fun c hc => hat.noParent c (List.mem_append_left _ hc)⟩
  · have hname := Sum.inl.inj (Option.some.inj (hchoose.symm.trans hcase))
    refine ⟨cs ++ [f.fileName], hname,
      hat.descends.down ⟨files, hat.name ▸ hread, hf⟩ hdirectory, fun c hc => ?_, fun c hc => ?_⟩
    · rcases List.mem_append.mp hc with hc | hc
      · exact hat.plain c hc
      · rw [List.mem_singleton.mp hc]
        exact hvolume.plain hread f hf
    · rcases List.mem_append.mp hc with hc | hc
      · exact hat.noParent c hc
      · rw [List.mem_singleton.mp hc]
        exact hparent
  · cases hchoose.symm.trans hcase
  · cases hchoose.symm.trans hcase

/-- Whatever is chosen, the dialog is at a directory of the volume. -/
theorem at_of_reaches (hvolume : SoundVolume volume filter)
    (h : Reaches (selectorTurn volume filter answers) selectorStart s) : ∃ cs, At volume cs s :=
  @Loop.Reaches.invariant _ _ _ _ (fun s => ∃ cs, At volume cs s) _ _ h ⟨[], at_start⟩
    fun _ _ _ hat hnext => hat.elim fun _ hat => hat.next hvolume hnext

/-- Whatever the user chooses, a path that the dialog returns leads from the root through
directories, each listed in the one before, to a file that the last one lists and a filter lets
pass. It has no `..` in it. -/
theorem selector_path (hvolume : SoundVolume volume filter) {fuel : ℕ}
    {turns : List (List (Act ℕ))} {path : List UInt16}
    (hrun : Loop.run (selectorTurn volume filter answers) fuel selectorStart =
      some (turns, some (some path))) :
    ∃ cs f, path = pathText (cs ++ [f.fileName]) ∧ Descends volume cs ∧ Lists volume cs f ∧
      f.isDirectory = false ∧ f.matched (filter.splitOn bar) = true ∧
        ∀ c ∈ cs, c ≠ text16 ".." := by
  obtain ⟨s, hreaches, hstop⟩ := Loop.exists_reaches_stop hrun
  obtain ⟨cs, hat⟩ := at_of_reaches hvolume hreaches
  obtain ⟨files, l, x, hread, hlist, hx, hchoose⟩ := selectorTurn_file hstop
  rcases choose_cases hvolume hat hread (hvolume.showsAll hread hlist) (answers s.turn).path hx with
    hcase | ⟨cs', c, -, hcase⟩ | ⟨f, -, -, -, hcase⟩ | ⟨f, hf, hdirectory, hmatches, hcase⟩ | hcase
  · cases hchoose.symm.trans hcase
  · cases hchoose.symm.trans hcase
  · cases hchoose.symm.trans hcase
  · exact ⟨cs, f, Option.some.inj (Sum.inr.inj (Option.some.inj (hchoose.symm.trans hcase))),
      hat.descends, ⟨files, hat.name ▸ hread, hf⟩, hdirectory, hmatches, hat.noParent⟩
  · cases hchoose.symm.trans hcase

theorem zero_notMem_keyDir : 0 ∉ text16 "d" := by decide

/-- A directory of keys. -/
def keyDir : FileInfo := recordOf 0x10 (text16 "d") zero_notMem_keyDir

/-- A volume with a directory in its root, and a key in that. -/
def keyVolume (path : List UInt16) : DirectoryRead :=
  if path = text16 "\\" then .listed [keyDir]
  else if path = text16 "\\d" then .listed [derFile, dotDot]
  else .refused ⟨.notFound, EfiStatus.isError_notFound⟩

/-- The directory is chosen, and then the key. -/
def keyChoice (turn : ℕ) : TurnAnswers := ⟨plenty, true, if turn = 0 then 0 else 1⟩

/-- The two directories of the volume. -/
theorem keyVolume_listed {path : List UInt16} (h : keyVolume path = .listed files) :
    files = [keyDir] ∨ path = text16 "\\d" ∧ files = [derFile, dotDot] := by
  unfold keyVolume at h
  split_ifs at h with hroot hdir
  · exact .inl (DirectoryRead.listed.inj h).symm
  · exact .inr ⟨hdir, (DirectoryRead.listed.inj h).symm⟩

/-- The volume is as firmware has it. -/
theorem sound_keyVolume : SoundVolume keyVolume [] where
  filters := length_anyName
  sound h f hf := by
    rcases keyVolume_listed h with rfl | ⟨-, rfl⟩
    · obtain rfl := List.mem_singleton.mp hf
      exact ⟨by decide, by decide⟩
    · exact sound_derFile f hf
  plain h f hf := by
    rcases keyVolume_listed h with rfl | ⟨-, rfl⟩
    · obtain rfl := List.mem_singleton.mp hf
      exact ⟨by decide, by decide, by decide⟩
    · rcases List.mem_cons.mp hf with rfl | hf
      · exact ⟨by decide, by decide, by decide⟩
      · obtain rfl := List.mem_singleton.mp hf
        exact ⟨by decide, by decide, by decide⟩
  root h f hf := by
    rcases keyVolume_listed h with rfl | ⟨hpath, rfl⟩
    · obtain rfl := List.mem_singleton.mp hf
      decide
    · exact absurd hpath (by decide)

/-- The user goes into the directory and takes the key file. -/
theorem run_keyVolume : Loop.run (selectorTurn keyVolume [] keyChoice) 2 selectorStart =
    some ([life 0, life 1], some (some (text16 "\\d\\k.der"))) := by decide

/-- The path that comes back is that of the key file. -/
theorem selector_path_keyVolume :
    ∃ cs f, text16 "\\d\\k.der" = pathText (cs ++ [f.fileName]) ∧ Descends keyVolume cs ∧
      Lists keyVolume cs f ∧ f.isDirectory = false ∧
        f.matched (([] : List UInt16).splitOn bar) = true ∧ ∀ c ∈ cs, c ≠ text16 ".." :=
  selector_path sound_keyVolume run_keyVolume

end Runs

/-! ## The buffers -/

section Buffers

variable {volume : List UInt16 → DirectoryRead} {filter : List UInt16} {answers : ℕ → TurnAnswers}
  {s s' : SelectorState} {fuel : ℕ} {turns : List (List (Act ℕ))} {r : Option (List UInt16)}

/-- The pointer is that to the buffer of the turn before. -/
def Stale (s : SelectorState) : Prop := s.dmp = if s.turn = 0 then none else some (s.turn - 1)

/-- A turn that goes on leaves the pointer to a buffer that is freed. -/
theorem stale_next (h : Next (selectorTurn volume filter answers) s s') : Stale s' := by
  obtain ⟨-, hdmp, hturn, -⟩ := selectorTurn_next h
  rw [Stale, hdmp, hturn, if_neg (Nat.succ_ne_zero _), Nat.add_sub_cancel]

/-- A run frees the buffer of each turn that goes on, and does what its last turn does. -/
theorem exists_acts (hs : Stale s)
    (hrun : Loop.run (selectorTurn volume filter answers) fuel s = some (turns, some r)) :
    ∃ k s', Reaches (selectorTurn volume filter answers) s s' ∧ Stale s' ∧ s'.turn = s.turn + k ∧
      (selectorTurn volume filter answers s').2 = .inr (some r) ∧
      turns.flatten =
        (List.range' s.turn k).flatMap life ++ (selectorTurn volume filter answers s').1 := by
  induction fuel generalizing s turns with
  | zero => cases hrun
  | succ fuel ih =>
    cases hturn : (selectorTurn volume filter answers s).2 with
    | inr r' =>
      rw [Loop.run_stop hturn] at hrun
      obtain ⟨rfl, rfl⟩ := Prod.mk.inj (Option.some.inj hrun)
      exact ⟨0, s, .refl, hs, rfl, hturn, by simp⟩
    | inl s₁ =>
      have hnext : Next (selectorTurn volume filter answers) s s₁ := hturn
      rw [Loop.run_next hnext, Option.map_eq_some_iff] at hrun
      obtain ⟨rest, hrun, heq⟩ := hrun
      obtain ⟨rfl, hr⟩ := Prod.mk.inj heq
      obtain ⟨-, -, hcount, hacts⟩ := selectorTurn_next hnext
      obtain ⟨k, s', hreaches, hs', hk, hstop, hflat⟩ :=
        ih (stale_next hnext) (hrun.trans (congrArg some (Prod.ext rfl hr)))
      refine ⟨k + 1, s', hreaches.head hnext, hs', ?_, hstop, ?_⟩
      · rw [hk, hcount]
        omega
      · rw [List.flatten_cons, hflat, hacts, hcount, List.range'_succ, List.flatMap_cons,
          List.append_assoc]

/-- A turn allocates, uses and frees its own buffer. -/
theorem deeds_life (b turn : ℕ) :
    deeds b (life turn) = if turn = b then [.allocate, .use, .release] else [] := by
  by_cases h : turn = b <;> simp [deeds, life, h]

/-- So do many turns, one buffer each. -/
theorem deeds_lives (b start k : ℕ) :
    deeds b ((List.range' start k).flatMap life) =
      if start ≤ b ∧ b < start + k then [.allocate, .use, .release] else [] := by
  induction k generalizing start with
  | zero =>
    rw [if_neg (by omega)]
    rfl
  | succ k ih =>
    rw [List.range'_succ, List.flatMap_cons, Ownership.deeds_append, deeds_life, ih]
    by_cases h : start = b
    · rw [if_pos h, if_neg (by omega), if_pos (by omega)]
      rfl
    · rw [if_neg h, List.nil_append]
      congr 1
      exact propext (by omega)

/-- A directory that is not read ends the run. -/
theorem selectorTurn_unread (h : Unread volume answers s) :
    (selectorTurn volume filter answers s).2 = .inr (some none) := by
  rcases selectorTurn_cases volume filter answers s with ⟨-, hturn⟩ | ⟨hread, -⟩
  · rw [hturn]
  · exact absurd h hread

/-- What the last turn of a run does to the buffers. -/
theorem last_turn (h : (selectorTurn volume filter answers s).2 = .inr (some r)) :
    Unread volume answers s ∧ (selectorTurn volume filter answers s).1 = release s ∨
      ¬ Unread volume answers s ∧
        ((selectorTurn volume filter answers s).1 = [] ∨
          (selectorTurn volume filter answers s).1 = life s.turn) := by
  rcases selectorTurn_cases volume filter answers s with
    ⟨hunread, hturn⟩ | ⟨hread, hturn | ⟨acts, hacts, hturn⟩ | ⟨_, _, _, _, _, _, _, _, hturn⟩⟩
  · rw [hturn]
    exact .inl ⟨hunread, rfl⟩
  · cases hturn.symm.trans h
  · rw [hturn]
    exact .inr ⟨hread, hacts⟩
  · rw [hturn]
    exact .inr ⟨hread, .inr rfl⟩

end Buffers

end Shim.Selector
