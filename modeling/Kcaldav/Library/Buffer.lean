import Kcaldav.Library.CString
import Mathlib.Data.List.DropRight

/-! # Buffers edited in place

What a loop does to a buffer that it reads and writes by index: the byte under the
index, a move inside the buffer, and the stripping of white space from its end.
-/
namespace CString

/-- The byte at an index, of a buffer that ends in a NUL. -/
def byteAt (buf : Bytes) (i : Nat) : UInt8 := buf.getD i NUL

/-- `memmove(&buf[dst], &buf[src], n)`. -/
def memmove (buf : Bytes) (dst src n : Nat) : Bytes := buf.take dst ++ ((buf.drop src).take n ++ buf.drop (dst + n))

/-- The loop that writes a NUL over the last of the first `n` bytes while that is white
space: the buffer and what is left of the length. -/
def stripTrailing : Bytes → Nat → Bytes × Nat
  | buf, 0 => (buf, 0)
  | buf, n + 1 => if isSpace (byteAt buf n) then stripTrailing (buf.set n NUL) n else (buf, n + 1)

@[simp] theorem byteAt_append (out : Bytes) (c : UInt8) (w : Bytes) : byteAt (out ++ c :: w) out.length = c := by
  simp [byteAt]

/-- Moved one place to the left, the bytes up to the final NUL leave a second last one. -/
theorem memmove_left (out : Bytes) (a b : UInt8) (x : Bytes) :
    memmove (out ++ a :: b :: (x ++ [NUL])) out.length (out.length + 1) (x.length + 1) =
      out ++ b :: (x ++ [(b :: x).getLast (List.cons_ne_nil b x), NUL]) := by
  have hdrop : (out ++ a :: b :: (x ++ [NUL])).drop (out.length + 1) = (b :: x) ++ [NUL] := by
    rw [← List.drop_drop, List.drop_left]
    simp
  have hkept : (out ++ a :: b :: (x ++ [NUL])).drop (out.length + (x.length + 1)) =
      [(b :: x).getLast (List.cons_ne_nil b x), NUL] := by
    rw [← List.drop_drop, List.drop_left, List.drop_succ_cons]
    have hsplit : b :: (x ++ [NUL]) = (b :: x).dropLast ++ [(b :: x).getLast (List.cons_ne_nil b x), NUL] := by
      simpa using congrArg (· ++ [NUL]) (List.dropLast_append_getLast (List.cons_ne_nil b x)).symm
    have hlen : (b :: x).dropLast.length = x.length := by simp
    rw [hsplit, ← hlen, List.drop_left]
  have hlen : x.length + 1 = (b :: x).length := rfl
  unfold memmove
  rw [List.take_left, hdrop, hkept, hlen, List.take_left]
  simp

theorem stripTrailing_text (text w : Bytes) : ∃ w', stripTrailing (text ++ NUL :: w) text.length =
    (text.rdropWhile isSpace ++ NUL :: w', (text.rdropWhile isSpace).length) := by
  induction text using List.reverseRecOn generalizing w with
  | nil => exact ⟨w, rfl⟩
  | append_singleton text c ih =>
    rw [List.length_append, List.length_singleton, stripTrailing, List.append_assoc, List.singleton_append, byteAt_append]
    by_cases hc : isSpace c
    · obtain ⟨w', hw'⟩ := ih (NUL :: w)
      rw [if_pos hc, List.rdropWhile_concat_pos _ _ _ hc]
      refine ⟨w', ?_⟩
      rw [← hw']
      simp
    · rw [if_neg hc, List.rdropWhile_concat_neg _ _ _ hc]
      exact ⟨w, by simp⟩

/-- A NUL inside of the buffer stops the loop. -/
theorem stripTrailing_nul {text : Bytes} {n : Nat} (h : text.length < n) (w : Bytes) : ∃ w' m,
    stripTrailing (text ++ NUL :: w) n = (text ++ NUL :: w', m) ∧ text.length < m := by
  induction n generalizing w with
  | zero => omega
  | succ n ih =>
    rw [stripTrailing]
    by_cases hspace : isSpace (byteAt (text ++ NUL :: w) n)
    · have hlt : text.length < n := by
        rcases Nat.lt_or_eq_of_le (Nat.le_of_lt_succ h) with hlt | heq
        · exact hlt
        · rw [← heq, byteAt_append] at hspace
          exact absurd hspace (by decide)
      obtain ⟨k, rfl⟩ : ∃ k, n = text.length + (k + 1) := ⟨n - text.length - 1, by omega⟩
      have hset : (text ++ NUL :: w).set (text.length + (k + 1)) NUL = text ++ NUL :: w.set k NUL := by
        rw [List.set_append_right _ _ (by omega), Nat.add_sub_cancel_left, List.set_cons_succ]
      rw [if_pos hspace, hset]
      exact ih hlt _
    · rw [if_neg hspace]
      exact ⟨w, n + 1, rfl, h⟩

end CString
