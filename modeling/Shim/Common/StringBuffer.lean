import Shim.Common.Bytes

/-! # Strings that are copied into a buffer

`strnlen`, `strncpy` and `strcat` on buffers that are lists of bytes. A buffer that holds a string
is written as that string, its terminator and what is behind it.
-/

namespace Bytes

/-- Put `l` into the buffer from offset `k` on. -/
def store (m : Mem) (k : ℕ) (l : List UInt8) : Mem := m.take k ++ l ++ m.drop (k + l.length)

/-- `strnlen(m, n)`. -/
def strnlen (m : Mem) (n : ℕ) : ℕ := ((m.take n).takeWhile (· ≠ 0)).length

/-- `strncpy(dest, src, n)`, with one terminator where there is room for it. -/
def strncpy (dest src : Mem) (n : ℕ) : Mem :=
  let text := (src.take n).takeWhile (· ≠ 0)
  store dest 0 (if text.length < n then text ++ [0] else text)

/-- `strcat(dest, src)`, for a string that is given without its terminator. -/
def strcat (dest : Mem) (src : List UInt8) : Mem := store dest (strlen dest 0) (src ++ [0])

variable {s l z : List UInt8} {k : ℕ}

/-- The byte behind a text. -/
theorem peek_append_length (s : List UInt8) (b : UInt8) (z : List UInt8) :
    peek (s ++ b :: z) s.length = b := by
  simp [peek]

/-- A buffer is the string in it, up to the first NUL. -/
theorem exists_eq_cstr_append (m : Mem) :
    ∃ z, m = cstr m 0 ++ z ∧ peek m (strlen m 0) = 0 := by
  have hsplit : cstr m 0 ++ m.dropWhile (· ≠ 0) = m := by
    rw [cstr, List.drop_zero, List.takeWhile_append_dropWhile]
  have hhead := List.head?_dropWhile_not (· ≠ 0) m
  refine ⟨m.dropWhile (· ≠ 0), hsplit.symm, ?_⟩
  rcases hrest : m.dropWhile (· ≠ 0) with _ | ⟨b, z⟩
  · rw [hrest, List.append_nil] at hsplit
    exact peek_of_le (by rw [strlen, hsplit])
  · rw [hrest] at hsplit hhead
    have hb : b = 0 := by simpa using hhead
    have hpeek := peek_append_length (cstr m 0) b z
    rw [hsplit] at hpeek
    rw [strlen, hpeek, hb]

/-- A bounded length is the length or the bound. -/
theorem strnlen_eq (m : Mem) (n : ℕ) : strnlen m n = min n (strlen m 0) := by
  rw [strnlen, ← List.take_takeWhile, List.length_take, strlen, cstr, List.drop_zero]

/-- A text with its terminator is read as a whole. -/
theorem cstr_append_zero (hs : 0 ∉ s) (z : List UInt8) : cstr (s ++ 0 :: z) 0 = s := by
  have hall : ∀ b ∈ s, decide (b ≠ 0) = true := fun b hb =>
    decide_eq_true (ne_of_mem_of_not_mem hb hs)
  rw [cstr, List.drop_zero, List.takeWhile_append_of_pos hall, List.takeWhile_cons]
  simp

/-- The length of a text with its terminator. -/
theorem strlen_append_zero (hs : 0 ∉ s) (z : List UInt8) : strlen (s ++ 0 :: z) 0 = s.length := by
  rw [strlen, cstr_append_zero hs]

/-- What is stored behind a part of the buffer leaves that part alone. -/
theorem store_append (s l z : List UInt8) :
    store (s ++ z) s.length l = s ++ l ++ z.drop l.length := by
  simp [store, List.drop_append]

/-- A string is put behind the one that the buffer holds. -/
theorem strcat_append_zero (hs : 0 ∉ s) (l z : List UInt8) :
    strcat (s ++ 0 :: z) l = s ++ l ++ 0 :: z.drop l.length := by
  rw [strcat, strlen_append_zero hs, store_append]
  simp

/-- Bytes without a terminator are copied as they are. -/
theorem strncpy_eq {dest src : Mem} {n : ℕ} (hlen : n ≤ src.length)
    (hsrc : ∀ b ∈ src.take n, b ≠ 0) : strncpy dest src n = src.take n ++ dest.drop n := by
  have htext : (src.take n).takeWhile (· ≠ 0) = src.take n :=
    List.takeWhile_eq_self_iff.mpr fun b hb => decide_eq_true (hsrc b hb)
  have hn : (src.take n).length = n := List.length_take_of_le hlen
  rw [strncpy]
  simp only [htext, hn, Nat.lt_irrefl, if_false, store, List.take_zero, List.nil_append,
    Nat.zero_add]

/-- Clearing the byte behind a text ends it there. -/
theorem clear_append (s : List UInt8) (b : UInt8) (z : List UInt8) :
    clear (s ++ b :: z) s.length = s ++ 0 :: z := by
  simp [clear]

end Bytes
