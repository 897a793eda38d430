import Kcaldav.Caldav.Parse

/-! # Chunks of text

The buffer is written behind its length and ended by a NUL. Two chunks leave the memory
that one leaves, also what stands behind the NUL, so the parser makes of a document the
same request however the text of it is cut.
-/
namespace Kcaldav
open CString Markup

theorem Buf.ext {p q : Buf} (hbuf : p.buf = q.buf) (hsz : p.sz = q.sz) : p = q := by
  cases p
  cases q
  cases hbuf
  cases hsz
  rfl

@[simp] theorem bufappend_nil (p : Buf) : bufappend p [] = p := rfl

theorem bufappend_buf {s : Bytes} (h : s ≠ []) (p : Buf) :
    (bufappend p s).buf = p.buf.take p.sz ++ (s ++ NUL :: p.buf.drop (p.sz + s.length + 1)) := by
  rw [bufappend, if_neg (fun h' => h (List.length_eq_zero_iff.mp h'))]

theorem bufappend_sz (p : Buf) (s : Bytes) : (bufappend p s).sz = p.sz + s.length := by
  unfold bufappend
  split
  next h => omega
  next h => rfl

/-- What stands before the length after an append. -/
theorem bufappend_take (p : Buf) (s : Bytes) :
    (bufappend p s).buf.take (bufappend p s).sz = p.buf.take p.sz ++ s := by
  by_cases hs : s = []
  · subst hs
    simp
  · have hle := p.sz_le
    have hlen : (p.buf.take p.sz ++ s).length = p.sz + s.length := by
      rw [List.length_append, List.length_take, Nat.min_eq_left hle]
    rw [bufappend_buf hs, bufappend_sz, ← List.append_assoc, List.take_left' hlen]

theorem bufappend_append (p : Buf) (a b : Bytes) : bufappend (bufappend p a) b = bufappend p (a ++ b) := by
  by_cases ha : a = []
  · subst ha
    rfl
  by_cases hb : b = []
  · subst hb
    rw [bufappend_nil, List.append_nil]
  have hab : a ++ b ≠ [] := fun h => ha (List.append_eq_nil_iff.mp h).1
  apply Buf.ext
  · have hlen : (p.buf.take p.sz ++ a ++ [NUL]).length = p.sz + a.length + 1 := by
      have hle := p.sz_le
      rw [List.length_append, List.length_append, List.length_take, Nat.min_eq_left hle, List.length_singleton]
    -- the second chunk is written over the NUL of the first
    have hdrop : (bufappend p a).buf.drop ((bufappend p a).sz + b.length + 1) =
        p.buf.drop (p.sz + (a ++ b).length + 1) := by
      have hbuf : (bufappend p a).buf = p.buf.take p.sz ++ a ++ [NUL] ++ p.buf.drop (p.sz + a.length + 1) := by
        rw [bufappend_buf ha]
        simp
      have hsz : (bufappend p a).sz + b.length + 1 = (p.buf.take p.sz ++ a ++ [NUL]).length + b.length := by
        rw [hlen, bufappend_sz]
        omega
      rw [hbuf, hsz, List.drop_length_add_append, List.drop_drop, List.length_append]
      congr 1
      omega
    rw [bufappend_buf hb, bufappend_take, hdrop, bufappend_buf hab]
    simp only [List.append_assoc]
  · rw [bufappend_sz, bufappend_sz, bufappend_sz, List.length_append]
    omega

theorem parsebuffer_eq (p : DavParse) (s : Bytes) : parsebuffer p s = { p with buf := bufappend p.buf s } := by
  unfold parsebuffer
  split
  next h => rw [List.length_eq_zero_iff.mp h, bufappend_nil]
  next h => rfl

namespace DavParse

theorem step_text (p : DavParse) (t : Bytes) :
    p.step (.text t) = .ok { p with buf := if p.dflt then bufappend p.buf t else p.buf } := by
  obtain ⟨c, buf, handlers, dflt⟩ := p
  cases dflt with
  | false => rfl
  | true => exact congrArg Except.ok (parsebuffer_eq _ t)

theorem step_text_nil (p : DavParse) : p.step (.text []) = .ok p := by
  rw [step_text, bufappend_nil, ite_self]

theorem step_text_append (p : DavParse) (a b : Bytes) :
    (p.step (.text a) >>= fun q => q.step (.text b)) = p.step (.text (a ++ b)) := by
  rw [step_text, step_text]
  change step _ (.text b) = _
  rw [step_text]
  cases p.dflt with
  | false => rfl
  | true => simp only [if_true, bufappend_append]

end DavParse

/-- The request a document stands for does not depend on how its text is cut into chunks. -/
theorem caldavParse_rechunked {es es' : List (Event Bytes UInt8)} (h : Rechunked es es') : caldavParse es = caldavParse es' := by
  unfold caldavParse
  rw [run_rechunked DavParse.step_text_nil DavParse.step_text_append h]

theorem caldavParse_rechunked_href :
    caldavParse [.start (ascii "DAV::propfind"), .start (ascii "DAV::href"), .text (ascii "/j%"), .text [], .text (ascii "6Fe/"),
      .close (ascii "DAV::href"), .close (ascii "DAV::propfind")] =
    caldavParse [.start (ascii "DAV::propfind"), .text [], .start (ascii "DAV::href"), .text (ascii "/j%6Fe/"),
      .close (ascii "DAV::href"), .close (ascii "DAV::propfind")] :=
  caldavParse_rechunked rfl

end Kcaldav
