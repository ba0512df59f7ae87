import Mathlib.Data.List.Basic

/-!
# Byte buffers

An allocated array is the list of its elements. `readAt` and `writeAt` are the two directions of
`memcpy`; a range that leaves the array has no result. `block n i` is the `i`-th piece of `n`
elements.
-/

namespace CppExamples.Lib.Buffer

variable {α : Type*} {buf src : List α} {off n : Nat}

/-- The `n` elements from `off` on. -/
def readAt (buf : List α) (off n : Nat) : Option (List α) :=
  if off + n ≤ buf.length then some ((buf.drop off).take n) else none

/-- `src` copied to the place `off`. -/
def writeAt (buf : List α) (off : Nat) (src : List α) : Option (List α) :=
  if off + src.length ≤ buf.length then
    some (buf.take off ++ src ++ buf.drop (off + src.length))
  else none

/-- The `i`-th piece of `n` elements. -/
def block (n : Nat) (buf : List α) (i : Nat) : List α := (buf.drop (i * n)).take n

theorem readAt_zero (h : buf.length = n) : readAt buf 0 n = some buf := by
  simp [readAt, ← h]

theorem writeAt_zero (h : src.length = buf.length) : writeAt buf 0 src = some src := by
  simp [writeAt, h]

theorem readAt_eq_some {dst : List α} (h : readAt buf off n = some dst) :
    off + n ≤ buf.length ∧ dst.length = n := by
  unfold readAt at h
  split at h
  · cases h
    rw [List.length_take, List.length_drop]
    omega
  · cases h

theorem writeAt_eq_some {dst : List α} (h : writeAt buf off src = some dst) :
    off + src.length ≤ buf.length ∧ dst.length = buf.length := by
  unfold writeAt at h
  split at h
  · cases h
    simp only [List.length_append, List.length_take, List.length_drop]
    omega
  · cases h

/-- A copy from the beginning of one array to the beginning of another one. -/
theorem copy_eq_some {dst res : List α} :
    (readAt src 0 n).bind (fun bytes => writeAt dst 0 bytes) = some res ↔
      n ≤ src.length ∧ n ≤ dst.length ∧ src.take n ++ dst.drop n = res := by
  unfold readAt writeAt
  rw [Nat.zero_add, List.drop_zero]
  by_cases hsrc : n ≤ src.length
  · rw [if_pos hsrc, Option.bind_some, List.length_take, Nat.min_eq_left hsrc, Nat.zero_add,
      List.take_zero, List.nil_append]
    by_cases hdst : n ≤ dst.length
    · rw [if_pos hdst, Option.some.injEq]
      simp only [hsrc, hdst, true_and]
    · rw [if_neg hdst]
      simp [hdst]
  · rw [if_neg hsrc]
    simp [hsrc]

theorem block_length_le (n : Nat) (buf : List α) (i : Nat) : (block n buf i).length ≤ n := by
  rw [block, List.length_take]
  exact Nat.min_le_left _ _

/-- A buffer of `c` pieces has every piece below `c`. -/
theorem block_bound {c i : Nat} (hlen : buf.length = c * n) (hi : i < c) :
    i * n + n ≤ buf.length := by
  rw [hlen, ← Nat.succ_mul]
  exact Nat.mul_le_mul_right n hi

/-- The first element of a piece. -/
theorem getElem?_block_zero (hn : 0 < n) (i : Nat) : (block n buf i)[0]? = buf[i * n]? := by
  rw [block, List.getElem?_take_of_lt hn, List.getElem?_drop, Nat.add_zero]

theorem readAt_block {c i : Nat} (hlen : buf.length = c * n) (hi : i < c) :
    readAt buf (i * n) n = some (block n buf i) :=
  if_pos (block_bound hlen hi)

/-- A piece that begins at the same place before and after a copy has the same first elements. -/
theorem take_block_copy {m n' i : Nat} {rest : List α} (hoff : i * n' = i * n) (hle : n ≤ n')
    (hin : i * n + n ≤ m) (hm : m ≤ src.length) :
    (block n' (src.take m ++ rest) i).take n = block n src i := by
  have hlen : (src.take m).length = m := by
    rw [List.length_take]
    omega
  unfold block
  rw [hoff, List.take_take, Nat.min_eq_left hle, List.drop_append_of_le_length (by omega),
    List.take_append_of_le_length (by rw [List.length_drop]; omega), List.drop_take, List.take_take,
    Nat.min_eq_left (by omega)]

/-- Inside the range the copy, outside what was there. -/
theorem getElem?_splice (h : off + src.length ≤ buf.length) (m : Nat) :
    (buf.take off ++ src ++ buf.drop (off + src.length))[m]? =
      if off ≤ m ∧ m < off + src.length then src[m - off]? else buf[m]? := by
  have htake : (buf.take off).length = off := by rw [List.length_take]; omega
  by_cases hlow : m < off
  · rw [if_neg (by omega), List.append_assoc, List.getElem?_append_left (by omega),
      List.getElem?_take_of_lt hlow]
  · by_cases hhigh : m < off + src.length
    · rw [if_pos ⟨by omega, hhigh⟩, List.getElem?_append_left (by rw [List.length_append]; omega),
        List.getElem?_append_right (by omega), htake]
    · have hlen : (buf.take off ++ src).length = off + src.length := by
        rw [List.length_append, htake]
      rw [if_neg (by omega), List.getElem?_append_right (by omega), hlen, List.getElem?_drop]
      congr 1
      omega

/-- Copying to the `i`-th piece changes that piece and no other. -/
theorem writeAt_block {c i : Nat} (hlen : buf.length = c * n) (hi : i < c) (hsrc : src.length = n) :
    ∃ buf', writeAt buf (i * n) src = some buf' ∧ buf'.length = buf.length ∧
      ∀ j, block n buf' j = if j = i then src else block n buf j := by
  subst hsrc
  have hbound := block_bound hlen hi
  refine ⟨_, if_pos hbound, ?_, fun j => List.ext_getElem? fun m => ?_⟩
  · simp only [List.length_append, List.length_take, List.length_drop]
    omega
  · by_cases hm : m < src.length
    · simp only [block, List.getElem?_take_of_lt hm, List.getElem?_drop, getElem?_splice hbound]
      by_cases hji : j = i
      · subst hji
        rw [if_pos ⟨by omega, by omega⟩, if_pos rfl, Nat.add_sub_cancel_left]
      · have hout : ¬ (i * src.length ≤ j * src.length + m ∧
            j * src.length + m < i * src.length + src.length) := by
          -- the pieces `i` and `j` do not overlap
          rintro ⟨h₁, h₂⟩
          rcases Nat.lt_or_gt_of_ne hji with hlt | hgt
          · have := Nat.mul_le_mul_right src.length hlt
            rw [Nat.succ_mul] at this
            omega
          · have := Nat.mul_le_mul_right src.length hgt
            rw [Nat.succ_mul] at this
            omega
        rw [if_neg hout, if_neg hji, List.getElem?_take_of_lt hm, List.getElem?_drop]
    · have hnone : ∀ l : List α, l.length ≤ src.length → l[m]? = none :=
        fun l hl => List.getElem?_eq_none (by omega)
      rw [hnone _ (block_length_le _ _ _), hnone]
      split
      · exact Nat.le_refl _
      · exact block_length_le _ _ _

end CppExamples.Lib.Buffer
