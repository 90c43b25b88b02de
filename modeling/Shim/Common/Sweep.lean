import Mathlib.Algebra.GroupWithZero.Nat
import Mathlib.Data.List.Basic
import Mathlib.Data.List.InsertIdx
import Mathlib.Data.List.TakeWhile
import Mathlib.Order.Nat
import Mathlib.Tactic.Common

/-! # Erasing matches one search at a time

`sweep p` erases elements of a list one by one. Each search starts counting at the index of the last
erasure, but it reads the list from its head: `matchFrom p start` answers `start` plus the position
of the first match. So a sweep is a filter as long as it erases at the head, and for one erasure
behind it; after that a match is never erased itself.

`sweepAll` sweeps a list for several keys in turn, and `ExactAll` says when that is a filter.
-/

namespace Sweep

variable {α : Type*} {p : α → Bool} {start fuel k : ℕ} {l : List α}

/-- The first match among the first `length - start` elements, counted from `start`. -/
def matchFrom (p : α → Bool) (start : ℕ) (l : List α) : Option ℕ :=
  ((l.take (l.length - start)).findIdx? p).map (start + ·)

/-- Erase what `matchFrom` finds, and go on from there. -/
def sweep (p : α → Bool) : (fuel start : ℕ) → List α → List α
  | 0, _, l => l
  | fuel + 1, start, l =>
    match matchFrom p start l with
    | none => l
    | some k => sweep p fuel k (l.eraseIdx k)

/-- Behind the matches at the head there is at most one more. -/
def Clean (p : α → Bool) (l : List α) : Prop := (l.dropWhile p).countP p ≤ 1

instance : Decidable (Clean p l) := inferInstanceAs (Decidable (_ ≤ _))

/-- A sweep that finds nothing leaves the list. -/
theorem sweep_none (h : matchFrom p start l = none) : sweep p fuel start l = l := by
  cases fuel with
  | zero => rfl
  | succ fuel => simp [sweep, h]

/-- A sweep that finds an element takes it out and goes on where it was. -/
theorem sweep_some (h : matchFrom p start l = some k) :
    sweep p (fuel + 1) start l = sweep p fuel k (l.eraseIdx k) := by
  simp [sweep, h]

/-- Nothing is found where nothing matches. -/
theorem matchFrom_eq_none (h : ∀ x ∈ l, ¬ p x) : matchFrom p start l = none := by
  rw [matchFrom, Option.map_eq_none_iff, List.findIdx?_eq_none_iff]
  intro x hx
  simpa using h x (List.mem_of_mem_take hx)

/-- A match is answered by its position, shifted by `start`. -/
theorem exists_of_matchFrom (h : matchFrom p start l = some k) :
    ∃ j, k = start + j ∧ ∃ hj : j < l.length, k < l.length ∧ p l[j] := by
  rw [matchFrom, Option.map_eq_some_iff] at h
  obtain ⟨j, hfind, rfl⟩ := h
  obtain ⟨hj, hp, -⟩ := List.findIdx?_eq_some_iff_getElem.mp hfind
  rw [List.length_take] at hj
  exact ⟨j, rfl, by omega, by omega, by simpa using hp⟩

/-- A sweep only takes elements out. -/
theorem sweep_sublist : (sweep p fuel start l).Sublist l := by
  induction fuel generalizing start l with
  | zero => exact List.Sublist.refl l
  | succ fuel ih =>
    rw [sweep]
    cases matchFrom p start l with
    | none => exact List.Sublist.refl l
    | some k => exact ih.trans (List.eraseIdx_sublist l k)

/-- Once the count does not start at the head, what is erased lies behind the match that was found,
so a match always stays. -/
theorem exists_mem_sweep (hstart : 0 < start) (h : ∃ x ∈ l, p x) :
    ∃ x ∈ sweep p fuel start l, p x := by
  induction fuel generalizing start l with
  | zero => exact h
  | succ fuel ih =>
    rw [sweep]
    cases hmatch : matchFrom p start l with
    | none => exact h
    | some k =>
      obtain ⟨j, rfl, hj, -, hp⟩ := exists_of_matchFrom hmatch
      refine ih (by omega) ⟨l[j], ?_, hp⟩
      rw [List.mem_eraseIdx_iff_getElem]
      exact ⟨j, hj, by omega, rfl⟩

/-- A search from the head answers the first match. -/
theorem matchFrom_zero_cons_of_pos {x : α} (hx : p x) : matchFrom p 0 (x :: l) = some 0 := by
  simp [matchFrom, List.findIdx?_cons, hx]

/-- A list is what is before an index, the element there, and what is behind it. -/
theorem take_cons_drop (hk : k < l.length) : l.take k ++ l[k] :: l.drop (k + 1) = l := by
  rw [← List.drop_eq_getElem_cons hk, List.take_append_drop]

/-- Without its first match, a list that has no other match is the filtered list. -/
theorem eraseIdx_eq_filter (hk : k < l.length) (hother : ∀ x ∈ l.eraseIdx k, ¬ p x) (hp : p l[k]) :
    l.eraseIdx k = l.filter fun x => ¬ p x := by
  have hkeep : (l.eraseIdx k).filter (fun x => ¬ p x) = l.eraseIdx k := by
    rw [List.filter_eq_self]
    intro x hx
    simpa using hother x hx
  have hsplit : (l.eraseIdx k).filter (fun x => ¬ p x) = l.filter fun x => ¬ p x := by
    conv_rhs => rw [← take_cons_drop hk, List.filter_append,
      List.filter_cons_of_neg (by simpa using hp)]
    rw [List.eraseIdx_eq_take_drop_succ, List.filter_append]
  rw [← hsplit, hkeep]

/-- Erasing a match leaves one match less. -/
theorem countP_eraseIdx (hk : k < l.length) (hp : p l[k]) :
    l.countP p = (l.eraseIdx k).countP p + 1 := by
  conv_lhs => rw [← take_cons_drop hk, List.countP_append, List.countP_cons_of_pos hp]
  rw [List.eraseIdx_eq_take_drop_succ, List.countP_append, Nat.add_assoc]

/-- A sweep of a clean list is a filter; a sweep of any other list leaves a match behind. -/
theorem sweep_spec (hfuel : l.length ≤ fuel) :
    (Clean p l → sweep p fuel 0 l = l.filter fun x => ¬ p x) ∧
      (¬ Clean p l → ∃ x ∈ sweep p fuel 0 l, p x) := by
  induction l generalizing fuel with
  | nil => exact ⟨fun _ => by rw [sweep_none (by rfl)]; rfl, fun h => absurd (by simp [Clean]) h⟩
  | cons x l ih =>
    obtain ⟨fuel, rfl⟩ : ∃ n, fuel = n + 1 := ⟨fuel - 1, by simp at hfuel; omega⟩
    by_cases hx : p x
    · -- the head is erased and the count stays at the head
      rw [sweep_some (matchFrom_zero_cons_of_pos hx), List.eraseIdx_cons_zero,
        List.filter_cons_of_neg (by simpa using hx), Clean, List.dropWhile_cons_of_pos hx]
      exact ih (by simpa using hfuel)
    · have hclean : Clean p (x :: l) ↔ (x :: l).countP p ≤ 1 := by
        rw [Clean, List.dropWhile_cons_of_neg hx]
      rw [hclean]
      cases hmatch : matchFrom p 0 (x :: l) with
      | none =>
        have hnone : ∀ y ∈ x :: l, ¬ p y := by
          rw [matchFrom, Option.map_eq_none_iff, List.findIdx?_eq_none_iff] at hmatch
          simpa using hmatch
        rw [sweep_none hmatch]
        refine ⟨fun _ => (List.filter_eq_self.mpr fun y hy => by simpa using hnone y hy).symm,
          fun hc => absurd (List.countP_eq_zero.mpr hnone) (by omega)⟩
      | some k =>
        obtain ⟨j, rfl, hj, -, hp⟩ := exists_of_matchFrom hmatch
        rw [Nat.zero_add] at hmatch
        have hj0 : 0 < j := by
          rcases Nat.eq_zero_or_pos j with rfl | h
          · exact absurd hp hx
          · exact h
        have hcount := countP_eraseIdx hj hp
        rw [sweep_some hmatch]
        constructor
        · intro hc
          have hother : ∀ y ∈ (x :: l).eraseIdx j, ¬ p y :=
            List.countP_eq_zero.mp (by omega)
          rw [sweep_none (matchFrom_eq_none hother)]
          exact eraseIdx_eq_filter hj hother hp
        · intro hc
          refine exists_mem_sweep hj0 ?_
          by_contra hother
          push Not at hother
          have := List.countP_eq_zero.mpr fun y hy => hother y hy
          omega

/-! ## What a sweep takes

A sweep takes the matches at the head, and the first match behind them. The second match there is
found again and again and never taken: each search takes what stands as far behind the last erasure
as that match stands behind the head.
-/

/-- Every `d`-th element, from index `k` on. -/
def every (d : ℕ) : (k : ℕ) → List α → List α
  | _, [] => []
  | 0, x :: l => x :: every d (d - 1) l
  | k + 1, _ :: l => every d k l

/-- The elements that `every` passes over. -/
def thin (d : ℕ) : (k : ℕ) → List α → List α
  | _, [] => []
  | 0, _ :: l => thin d (d - 1) l
  | k + 1, x :: l => x :: thin d k l

/-- The index of the second match; the length if there is none. -/
def secondIdx (p : α → Bool) (l : List α) : ℕ :=
  l.findIdx p + 1 + (l.drop (l.findIdx p + 1)).findIdx p

/-- What a sweep takes behind the matches at the head. -/
def struck (p : α → Bool) (l : List α) : List α :=
  every (secondIdx p (l.dropWhile p)) ((l.dropWhile p).findIdx p) (l.dropWhile p)

/-- What a sweep leaves. -/
def spared (p : α → Bool) (l : List α) : List α :=
  thin (secondIdx p (l.dropWhile p)) ((l.dropWhile p).findIdx p) (l.dropWhile p)

/-- Behind the end nothing is taken. -/
theorem thin_of_le {d : ℕ} (h : l.length ≤ k) : thin d k l = l := by
  induction l generalizing k with
  | nil => cases k <;> rfl
  | cons x l ih =>
    cases k with
    | zero => simp at h
    | succ k => rw [thin, ih (by simpa using h)]

/-- An element is taken, and the search goes on behind it. -/
theorem thin_of_lt {d : ℕ} (h : k < l.length) :
    thin d k l = l.take k ++ thin d (d - 1) (l.drop (k + 1)) := by
  induction l generalizing k with
  | nil => simp at h
  | cons x l ih =>
    cases k with
    | zero => simp [thin]
    | succ k => rw [thin, ih (by simpa using h), List.take_succ_cons, List.drop_succ_cons,
        List.cons_append]

/-- Thinning only takes elements out. -/
theorem thin_sublist {d : ℕ} : (thin d k l).Sublist l := by
  induction l generalizing k with
  | nil => cases k <;> exact List.Sublist.refl _
  | cons x l ih =>
    cases k with
    | zero => exact ih.cons x
    | succ k => exact ih.cons_cons x

/-- Each element is taken or left. -/
theorem countP_thin {d : ℕ} (r : α → Bool) :
    l.countP r = (every d k l).countP r + (thin d k l).countP r := by
  induction l generalizing k with
  | nil => cases k <;> rfl
  | cons x l ih =>
    cases k with
    | zero => rw [every, thin, List.countP_cons, List.countP_cons, ih (k := d - 1)]; omega
    | succ k => rw [every, thin, List.countP_cons, List.countP_cons, ih (k := k)]; omega

/-- The search in terms of the first match: it gives up `start` elements too early. -/
theorem matchFrom_eq_ite : matchFrom p start l =
    if l.findIdx p + start < l.length then some (start + l.findIdx p) else none := by
  have hle : l.findIdx p ≤ l.length := List.findIdx_le_length
  simp only [matchFrom, List.findIdx?_eq_guard_findIdx_lt, Option.guard, decide_eq_true_eq,
    List.findIdx_take, List.length_take]
  by_cases hlt : l.findIdx p + start < l.length
  · rw [if_pos hlt, if_pos (by omega), Option.map_some, min_eq_right (by omega)]
  · rw [if_neg hlt, if_neg (by omega), Option.map_none]

/-- An erasure behind the first match leaves it the first match. -/
theorem findIdx_eraseIdx_of_lt (h : l.findIdx p < k) (hk : k < l.length) :
    (l.eraseIdx k).findIdx p = l.findIdx p := by
  rw [List.eraseIdx_eq_take_drop_succ, List.findIdx_append, List.findIdx_take,
    List.length_take_of_le hk.le, min_eq_right h.le, if_pos h]

/-- An erasure of the first match leaves the second one. -/
theorem findIdx_eraseIdx_self (h : l.findIdx p < l.length) :
    (l.eraseIdx (l.findIdx p)).findIdx p = secondIdx p l - 1 := by
  rw [List.eraseIdx_eq_take_drop_succ, List.findIdx_append, List.findIdx_take,
    List.length_take_of_le h.le, min_self, if_neg (Nat.lt_irrefl _), secondIdx]
  omega

/-- Behind the head, every search takes an element as far on as the first match is from the head. -/
theorem sweep_eq_thin (hstart : 0 < start) (hfuel : l.length ≤ fuel) :
    sweep p fuel start l = l.take start ++ thin (l.findIdx p + 1) (l.findIdx p) (l.drop start) := by
  induction fuel generalizing start l with
  | zero =>
    obtain rfl := List.length_eq_zero_iff.mp (Nat.le_zero.mp hfuel)
    simp [sweep, thin]
  | succ fuel ih =>
    by_cases hin : l.findIdx p + start < l.length
    · -- the match itself stays the first one
      have hfirst : (l.eraseIdx (start + l.findIdx p)).findIdx p = l.findIdx p :=
        findIdx_eraseIdx_of_lt (by omega) (by omega)
      have hlen : (l.eraseIdx (start + l.findIdx p)).length = l.length - 1 :=
        List.length_eraseIdx_of_lt (by omega)
      have htake : (l.eraseIdx (start + l.findIdx p)).take (start + l.findIdx p) =
          l.take start ++ (l.drop start).take (l.findIdx p) := by
        rw [List.take_eraseIdx_eq_take_of_le _ _ _ le_rfl, List.take_add]
      have hdrop : (l.eraseIdx (start + l.findIdx p)).drop (start + l.findIdx p) =
          (l.drop start).drop (l.findIdx p + 1) := by
        rw [List.eraseIdx_eq_take_drop_succ, List.drop_left' (List.length_take_of_le (by omega)),
          List.drop_drop, Nat.add_assoc]
      have hthin := thin_of_lt (d := l.findIdx p + 1) (k := l.findIdx p) (l := l.drop start)
        (by rw [List.length_drop]; omega)
      rw [sweep_some (k := start + l.findIdx p) (by rw [matchFrom_eq_ite, if_pos hin]),
        ih (by omega) (by omega), hfirst, htake, hdrop, hthin, List.append_assoc,
        Nat.add_sub_cancel]
    · rw [sweep_none (by rw [matchFrom_eq_ite, if_neg hin]),
        thin_of_le (by rw [List.length_drop]; omega), List.take_append_drop]

/-- The whole sweep. -/
theorem sweep_eq_spared (hfuel : l.length ≤ fuel) : sweep p fuel 0 l = spared p l := by
  induction l generalizing fuel with
  | nil => rw [sweep_none (by rfl)]; rfl
  | cons x l ih =>
    obtain ⟨fuel, rfl⟩ : ∃ n, fuel = n + 1 := ⟨fuel - 1, by simp at hfuel; omega⟩
    by_cases hx : p x
    · -- the head is erased and the count stays at the head
      rw [sweep_some (matchFrom_zero_cons_of_pos hx), List.eraseIdx_cons_zero,
        ih (by simpa using hfuel), spared, spared, List.dropWhile_cons_of_pos hx]
    · rw [spared, List.dropWhile_cons_of_neg hx]
      have hpos : 0 < (x :: l).findIdx p := by
        rw [List.findIdx_cons, eq_false_of_ne_true hx]
        exact Nat.succ_pos _
      generalize hl : x :: l = l' at hfuel hpos ⊢
      have hsecond : secondIdx p l' = secondIdx p l' - 1 + 1 := by
        rw [secondIdx]
        omega
      by_cases hin : l'.findIdx p < l'.length
      · have hdrop : (l'.eraseIdx (l'.findIdx p)).drop (l'.findIdx p) =
            l'.drop (l'.findIdx p + 1) := by
          rw [List.eraseIdx_eq_take_drop_succ, List.drop_left' (List.length_take_of_le hin.le)]
        rw [sweep_some (k := l'.findIdx p) (by rw [matchFrom_eq_ite, if_pos (by omega), Nat.zero_add]),
          sweep_eq_thin hpos (by rw [List.length_eraseIdx_of_lt hin]; omega),
          findIdx_eraseIdx_self hin, hdrop, List.take_eraseIdx_eq_take_of_le _ _ _ le_rfl,
          ← hsecond, thin_of_lt hin]
      · rw [sweep_none (by rw [matchFrom_eq_ite, if_neg (by omega)]), thin_of_le (by omega)]

/-- Behind the matches at the head, each element is taken or left. -/
theorem countP_spared (r : α → Bool) :
    l.countP r = (l.takeWhile p).countP r + (struck p l).countP r + (spared p l).countP r := by
  have hsplit := congrArg (List.countP r) (List.takeWhile_append_dropWhile (p := p) (l := l))
  rw [List.countP_append] at hsplit
  rw [← hsplit, countP_thin (l := l.dropWhile p) r, ← Nat.add_assoc]
  rfl

/-- What a sweep spares is part of the list. -/
theorem spared_sublist : (spared p l).Sublist l := thin_sublist.trans (List.dropWhile_sublist p)

/-! ## Several keys -/

section Keys

variable {β : Type*} [DecidableEq β] {key : α → β} {q : β} {qs : List β}

/-- Sweep a list for the keys of `qs`, one after the other. -/
def sweepAll (key : α → β) (qs : List β) (l : List α) : List α :=
  qs.foldl (fun l q => sweep (fun x => key x = q) l.length 0 l) l

/-- Every sweep meets a clean list. -/
def CleanAll (key : α → β) : List β → List α → Prop
  | [], _ => True
  | q :: qs, l => Clean (fun x => key x = q) l ∧ CleanAll key qs (l.filter fun x => key x ≠ q)

instance decidableCleanAll : (qs : List β) → (l : List α) → Decidable (CleanAll key qs l)
  | [], _ => isTrue trivial
  | q :: qs, l =>
    have := decidableCleanAll qs (l.filter fun x => key x ≠ q)
    inferInstanceAs (Decidable (_ ∧ _))

/-- The first key is swept for first. -/
theorem sweepAll_cons : sweepAll key (q :: qs) l =
    sweepAll key qs (sweep (fun x => key x = q) l.length 0 l) := rfl

/-- Keys in two parts are swept for one part after the other. -/
theorem sweepAll_append (qs' : List β) :
    sweepAll key (qs ++ qs') l = sweepAll key qs' (sweepAll key qs l) := List.foldl_append

/-- All sweeps together only take elements out. -/
theorem sweepAll_sublist : (sweepAll key qs l).Sublist l := by
  induction qs generalizing l with
  | nil => exact List.Sublist.refl l
  | cons q qs ih => exact ih.trans sweep_sublist

/-- Keys that are not there take nothing. -/
theorem sweepAll_eq_self (h : ∀ x ∈ l, key x ∉ qs) : sweepAll key qs l = l := by
  induction qs with
  | nil => rfl
  | cons q qs ih =>
    rw [sweepAll_cons, sweep_none (matchFrom_eq_none fun x hx => by
      simpa using List.ne_of_not_mem_cons (h x hx))]
    exact ih fun x hx => List.not_mem_of_not_mem_cons (h x hx)

/-- On a clean list a sweep takes exactly what has its key. -/
theorem sweep_key_eq_filter (h : Clean (fun x => key x = q) l) :
    sweep (fun x => key x = q) l.length 0 l = l.filter fun x => key x ≠ q := by
  simpa using (sweep_spec le_rfl).1 h

/-- Where every sweep meets a clean list, all of them take exactly what has a key. -/
theorem sweepAll_eq_filter (h : CleanAll key qs l) :
    sweepAll key qs l = l.filter fun x => key x ∉ qs := by
  induction qs generalizing l with
  | nil => simp [sweepAll]
  | cons q qs ih =>
    rw [sweepAll_cons, sweep_key_eq_filter h.1, ih h.2, List.filter_filter]
    refine List.filter_congr fun x _ => ?_
    simp [not_or, Bool.and_comm]

/-- A key that no later sweep is for stays, or a later sweep leaves its own behind. -/
theorem exists_mem_sweepAll (hqs : qs.Nodup) (hq : q ∉ qs) (h : ∃ x ∈ l, key x = q) :
    ∃ x ∈ sweepAll key qs l, key x = q ∨ key x ∈ qs := by
  induction qs generalizing l q with
  | nil =>
    obtain ⟨x, hx, hkey⟩ := h
    exact ⟨x, hx, .inl hkey⟩
  | cons q' qs ih =>
    rw [sweepAll_cons]
    obtain ⟨hq', hnodup⟩ := List.nodup_cons.mp hqs
    by_cases hclean : Clean (fun x => key x = q') l
    · obtain ⟨x, hx, hkey⟩ := h
      have hstay : x ∈ sweep (fun x => key x = q') l.length 0 l := by
        rw [sweep_key_eq_filter hclean, List.mem_filter]
        refine ⟨hx, ?_⟩
        rw [hkey]
        simpa using List.ne_of_not_mem_cons hq
      obtain ⟨y, hy, hkey'⟩ := ih hnodup (List.not_mem_of_not_mem_cons hq) ⟨x, hstay, hkey⟩
      exact ⟨y, hy, hkey'.imp_right (List.mem_cons_of_mem _)⟩
    · obtain ⟨x, hx, hkey⟩ := (sweep_spec le_rfl).2 hclean
      obtain ⟨y, hy, hkey'⟩ := ih hnodup hq' ⟨x, hx, by simpa using hkey⟩
      refine ⟨y, hy, .inr ?_⟩
      rcases hkey' with rfl | hmem
      · exact List.mem_cons_self
      · exact List.mem_cons_of_mem _ hmem

/-- For distinct keys, no key is left only if every sweep met a clean list. -/
theorem cleanAll_of_forall (hqs : qs.Nodup) (h : ∀ x ∈ sweepAll key qs l, key x ∉ qs) :
    CleanAll key qs l := by
  induction qs generalizing l with
  | nil => trivial
  | cons q qs ih =>
    obtain ⟨hq, hnodup⟩ := List.nodup_cons.mp hqs
    rw [sweepAll_cons] at h
    have hclean : Clean (fun x => key x = q) l := by
      by_contra hclean
      obtain ⟨x, hx, hkey⟩ := (sweep_spec le_rfl).2 hclean
      obtain ⟨y, hy, hkey'⟩ := exists_mem_sweepAll hnodup hq ⟨x, hx, by simpa using hkey⟩
      exact h y hy (List.mem_cons.mpr hkey')
    rw [sweep_key_eq_filter hclean] at h
    exact ⟨hclean, ih hnodup fun x hx => List.not_mem_of_not_mem_cons (h x hx)⟩

/-- Of the elements with a key of `asked` the sweeps for `qs` take all, and they take no others. -/
def Heals (key : α → β) (asked : List β) : List β → List α → Prop
  | [], l => ∀ x ∈ l, key x ∉ asked
  | q :: qs, l => (∀ x ∈ struck (fun x => key x = q) l, key x ∈ asked) ∧
      Heals key asked qs (spared (fun x => key x = q) l)

instance decidableHeals (asked : List β) :
    (qs : List β) → (l : List α) → Decidable (Heals key asked qs l)
  | [], l => inferInstanceAs (Decidable (∀ x ∈ l, key x ∉ asked))
  | q :: qs, l =>
    have := decidableHeals asked qs (spared (fun x => key x = q) l)
    inferInstanceAs (Decidable (_ ∧ _))

/-- One sweep takes nothing but what is asked for exactly if the rest is still there. -/
theorem filter_spared_eq_iff {asked : List β} (hq : q ∈ asked) :
    ((spared (fun x => key x = q) l).filter (fun x => key x ∉ asked) =
        l.filter fun x => key x ∉ asked) ↔
      ∀ x ∈ struck (fun x => key x = q) l, key x ∈ asked := by
  have hcount := countP_spared (p := fun x => key x = q) (l := l) fun x => key x ∉ asked
  have hhead : (l.takeWhile fun x => key x = q).countP (fun x => key x ∉ asked) = 0 := by
    rw [List.countP_eq_zero]
    intro x hx
    have hkey : key x = q := by simpa using List.mem_takeWhile_imp hx
    simpa [hkey] using hq
  have hsub := (spared_sublist (p := fun x => key x = q) (l := l)).filter fun x => key x ∉ asked
  constructor
  · intro h
    have hlen := congrArg List.length h
    rw [← List.countP_eq_length_filter, ← List.countP_eq_length_filter] at hlen
    have hzero := List.countP_eq_zero.mp (show (struck (fun x => key x = q) l).countP
      (fun x => key x ∉ asked) = 0 by omega)
    exact fun x hx => by simpa using hzero x hx
  · intro h
    have hzero : (struck (fun x => key x = q) l).countP (fun x => key x ∉ asked) = 0 :=
      List.countP_eq_zero.mpr fun x hx => by simpa using h x hx
    refine hsub.eq_of_length ?_
    rw [← List.countP_eq_length_filter, ← List.countP_eq_length_filter]
    omega

/-- Sweeps are exact exactly if they heal what they break. -/
theorem sweepAll_eq_filter_iff_heals {asked : List β} (hqs : qs ⊆ asked) :
    sweepAll key qs l = l.filter (fun x => key x ∉ asked) ↔ Heals key asked qs l := by
  induction qs generalizing l with
  | nil =>
    rw [sweepAll, List.foldl_nil, Heals, eq_comm, List.filter_eq_self]
    simp
  | cons q qs ih =>
    obtain ⟨hq, hqs⟩ := List.cons_subset.mp hqs
    rw [sweepAll_cons, sweep_eq_spared le_rfl, Heals, ← filter_spared_eq_iff hq, ← ih hqs]
    constructor
    · intro h
      -- what the later sweeps leave is in what this one leaves
      have hsublist : (sweepAll key qs (spared (fun x => key x = q) l)).Sublist _ :=
        sweepAll_sublist
      rw [h] at hsublist
      have hsub := hsublist.filter fun x => key x ∉ asked
      rw [List.filter_filter] at hsub
      simp only [Bool.and_self] at hsub
      have hback := (spared_sublist (p := fun x => key x = q) (l := l)).filter
        fun x => key x ∉ asked
      have heq := hback.eq_of_length_le hsub.length_le
      exact ⟨heq, h.trans heq.symm⟩
    · rintro ⟨heq, h⟩
      exact h.trans heq

/-- Every sweep meets a clean list; or a key is swept for again, and the sweeps together take what
is asked for and no more. -/
def ExactAll (key : α → β) (qs : List β) (l : List α) : Prop :=
  CleanAll key qs l ∨ ¬ qs.Nodup ∧ Heals key qs qs l

instance : Decidable (ExactAll key qs l) := inferInstanceAs (Decidable (_ ∨ _))

/-- The sweeps take exactly what has a key if and only if they are exact by the list. -/
theorem sweepAll_eq_filter_iff :
    sweepAll key qs l = l.filter (fun x => key x ∉ qs) ↔ ExactAll key qs l := by
  constructor
  · intro h
    by_cases hnodup : qs.Nodup
    · refine .inl (cleanAll_of_forall hnodup fun x hx => ?_)
      rw [h] at hx
      simpa using (List.mem_filter.mp hx).2
    · exact .inr ⟨hnodup, (sweepAll_eq_filter_iff_heals (List.Subset.refl qs)).mp h⟩
  · rintro (hclean | ⟨-, hheals⟩)
    · exact sweepAll_eq_filter hclean
    · exact (sweepAll_eq_filter_iff_heals (List.Subset.refl qs)).mpr hheals

end Keys

end Sweep
