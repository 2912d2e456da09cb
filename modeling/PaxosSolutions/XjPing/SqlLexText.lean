import PaxosSolutions.XjPing.SqlLex
import Mathlib.Data.List.TakeWhile

/-!
# What the lexer reads and keeps

While there is room in the text buffer, the text of the token that is being read is what
has been taken from the statement, and a character that is put back is taken away from
one and comes before the other.
-/
namespace PaxosSolutions.XjPing

/-- The lexer is in a token that begins at `y` with the text `w`, and `t` is ahead. -/
structure Lexed (N : ℕ) (st : Lex) (t w : List UInt8) (y : ℕ) : Prop where
  size : st.size = N
  inside : st.outside = false
  yytext : st.yytext = y
  inptr : st.inptr = y + w.length
  text : ∀ i (h : i < w.length), st.textBuffer (y + i) = w[i]
  nonul : (0 : UInt8) ∉ t
  source : ∃ k, st.yysbuf ++ st.strptr = t ++ List.replicate k 0

variable {N y fuel : ℕ} {st : Lex} {t w d : List UInt8} {b c : UInt8} {mask : LexMask}

/-- A text with a character before it, which is none at its end. -/
def pushed (c : UInt8) (t : List UInt8) : List UInt8 := if c = 0 then t else c :: t

theorem pushed_head (h : (0 : UInt8) ∉ d) : pushed (d.headD 0) d.tail = d := by
  cases d with
  | nil => rfl
  | cons c d => exact if_neg fun hc : c = 0 => h (hc ▸ List.mem_cons_self)

/-! ### One character -/

/-- What `next` takes away -/
theorem next_source (h : ∃ k, st.yysbuf ++ st.strptr = t ++ List.replicate k 0) :
    st.next.1 = t.headD 0 ∧
      ∃ k, st.next.2.yysbuf ++ st.next.2.strptr = t.tail ++ List.replicate k 0 := by
  obtain ⟨k, hk⟩ := h
  unfold Lex.next
  cases hbuf : st.yysbuf with
  | cons b bs =>
      rw [hbuf, List.cons_append] at hk
      cases t with
      | cons c t =>
          obtain ⟨rfl, hrest⟩ := List.cons.inj hk
          exact ⟨rfl, k, hrest⟩
      | nil =>
          cases k with
          | zero => cases hk
          | succ k =>
              obtain ⟨rfl, hrest⟩ := List.cons.inj hk
              exact ⟨rfl, k, hrest⟩
  | nil =>
      rw [hbuf, List.nil_append] at hk
      cases hstr : st.strptr with
      | cons b bs =>
          rw [hstr] at hk
          cases t with
          | cons c t =>
              obtain ⟨rfl, hrest⟩ := List.cons.inj hk
              exact ⟨rfl, k, hrest⟩
          | nil =>
              cases k with
              | zero => cases hk
              | succ k =>
                  obtain ⟨rfl, hrest⟩ := List.cons.inj hk
                  exact ⟨rfl, k, hrest⟩
      | nil =>
          rw [hstr] at hk
          have ht : t = [] := (List.append_eq_nil_iff.mp hk.symm).1
          subst ht
          refine ⟨rfl, 0, ?_⟩
          dsimp only
          rw [hbuf, hstr]
          rfl

theorem next_rest (st : Lex) : st.next.2.size = st.size ∧ st.next.2.outside = st.outside ∧
    st.next.2.yytext = st.yytext ∧ st.next.2.inptr = st.inptr ∧
      st.next.2.textBuffer = st.textBuffer := by
  unfold Lex.next
  split <;> exact ⟨rfl, rfl, rfl, rfl, rfl⟩

theorem Lexed.input (h : Lexed N st t w y) (hroom : y + w.length + 1 < N) :
    st.input.1 = t.headD 0 ∧ Lexed N st.input.2 t.tail (w ++ [t.headD 0]) y := by
  obtain ⟨hc, hsource⟩ := next_source h.source
  obtain ⟨hsize, houtside, hyytext, hinptr, htext⟩ := next_rest st
  have hin : st.next.2.inptr = y + w.length := hinptr.trans h.inptr
  have hsz : st.next.2.size = N := hsize.trans h.size
  have hsave : st.input.2 =
      { (st.next.2.write (y + w.length) (t.headD 0)).write (y + w.length + 1) 0 with
        inptr := y + w.length + 1 } := by
    change st.next.2.save st.next.1 = _
    unfold Lex.save
    rw [hc, hin, if_pos (by omega)]
  refine ⟨hc, ?_⟩
  rw [hsave]
  refine ⟨hsz, ?_, hyytext.trans h.yytext, ?_, ?_, fun hmem => h.nonul (List.mem_of_mem_tail hmem),
    hsource⟩
  · change ((st.next.2.outside || decide (st.next.2.size ≤ y + w.length)) ||
      decide (st.next.2.size ≤ y + w.length + 1)) = false
    rw [houtside, h.inside, hsz]
    simp
    omega
  · change y + w.length + 1 = _
    rw [List.length_append, List.length_singleton, Nat.add_assoc]
  · intro i hi
    change Function.update (Function.update st.next.2.textBuffer (y + w.length) (t.headD 0))
      (y + w.length + 1) 0 (y + i) = _
    rw [List.length_append, List.length_singleton] at hi
    rw [Function.update_of_ne (by omega), List.getElem_append]
    split
    · next hlt => rw [Function.update_of_ne (by omega), htext, h.text i hlt]
    · next hge =>
        obtain rfl : i = w.length := by omega
        rw [Function.update_self]
        simp

theorem Lexed.dropChar (h : Lexed N st t (w ++ [b]) y) (hroom : y + w.length < N) :
    Lexed N st.dropChar t w y := by
  have hin : st.inptr - 1 = y + w.length := by
    rw [h.inptr, List.length_append, List.length_singleton]
    omega
  refine ⟨h.size, ?_, h.yytext, hin, ?_, h.nonul, h.source⟩
  · change (st.outside || decide (st.size ≤ st.inptr - 1)) = false
    rw [h.inside, h.size, hin]
    simp
    omega
  · intro i hi
    change Function.update st.textBuffer (st.inptr - 1) 0 (y + i) = _
    have htext := h.text i (by rw [List.length_append]; omega)
    rw [hin, Function.update_of_ne (by omega), htext, List.getElem_append_left hi]

theorem Lexed.unput (h : Lexed N st t (w ++ [b]) y) (hroom : y + w.length < N) (hc : c = 0 → t = []) :
    Lexed N (st.unput c) (pushed c t) w y := by
  have hin : st.inptr ≠ 0 := by
    rw [h.inptr, List.length_append, List.length_singleton]
    omega
  have hput : st.unput c = ({ st with yysbuf := c :: st.yysbuf } : Lex).dropChar := if_neg hin
  rw [hput]
  refine Lexed.dropChar (b := b) ⟨h.size, h.inside, h.yytext, h.inptr, h.text, ?_, ?_⟩ hroom
  · unfold pushed
    split
    · exact h.nonul
    · next hne => exact fun hmem => (List.mem_cons.mp hmem).elim (fun h0 => hne h0.symm) h.nonul
  · obtain ⟨k, hk⟩ := h.source
    change ∃ k, c :: (st.yysbuf ++ st.strptr) = _
    rw [hk]
    unfold pushed
    split
    · next h0 =>
        subst h0
        rw [hc rfl]
        exact ⟨k + 1, rfl⟩
    · exact ⟨k, rfl⟩

/-- The last character that was read is put back. -/
theorem Lexed.back (h : Lexed N st d.tail (w ++ [d.headD 0]) y) (hd : (0 : UInt8) ∉ d)
    (hroom : y + w.length < N) : Lexed N (st.unput (d.headD 0)) d w y := by
  have hput := h.unput hroom (c := d.headD 0) fun h0 => by
    cases d with
    | nil => rfl
    | cons c d => exact absurd (List.mem_cons.mpr (Or.inl h0.symm)) hd
  rwa [pushed_head hd] at hput

/-- A NUL comes over the last character of the text. -/
theorem Lexed.cut (h : Lexed N st t (w ++ [b]) y) (hroom : y + w.length < N) :
    Lexed N (st.write (st.inptr - 1) 0) t (w ++ [0]) y := by
  have hin : st.inptr - 1 = y + w.length := by
    rw [h.inptr, List.length_append, List.length_singleton]
    omega
  refine ⟨h.size, ?_, h.yytext, ?_, ?_, h.nonul, h.source⟩
  · change (st.outside || decide (st.size ≤ st.inptr - 1)) = false
    rw [h.inside, h.size, hin]
    simp
    omega
  · change st.inptr = _
    rw [h.inptr, List.length_append, List.length_append, List.length_singleton, List.length_singleton]
  · intro i hi
    change Function.update st.textBuffer (st.inptr - 1) 0 (y + i) = _
    rw [List.length_append, List.length_singleton] at hi
    rw [hin, List.getElem_append]
    split
    · next hlt =>
        have htext := h.text i (by rw [List.length_append]; omega)
        rw [Function.update_of_ne (by omega), htext, List.getElem_append_left hlt]
    · next hge =>
        obtain rfl : i = w.length := by omega
        rw [Function.update_self]
        simp

/-- A place of the text buffer is passed over. -/
theorem Lexed.pass (h : Lexed N st t w y) :
    Lexed N { st with inptr := st.inptr + 1 } t (w ++ [st.textBuffer (y + w.length)]) y := by
  refine ⟨h.size, h.inside, h.yytext, ?_, ?_, h.nonul, h.source⟩
  · change st.inptr + 1 = _
    rw [h.inptr, List.length_append, List.length_singleton, Nat.add_assoc]
  · intro i hi
    rw [List.length_append, List.length_singleton] at hi
    rw [List.getElem_append]
    split
    · next hlt => exact h.text i hlt
    · next hge =>
        obtain rfl : i = w.length := by omega
        simp

/-- The text of a token begins anew. -/
theorem Lexed.restart (h : Lexed N st t w y) : Lexed N { st with inptr := st.yytext } t [] y :=
  ⟨h.size, h.inside, h.yytext, h.yytext, fun i hi => absurd hi (Nat.not_lt_zero i), h.nonul, h.source⟩

theorem Lexed.ahead (h : Lexed N st t w y) : st.ahead = t := by
  obtain ⟨k, hk⟩ := h.source
  have hall (c : UInt8) (hc : c ∈ t) : decide (c ≠ 0) = true := by
    refine decide_eq_true fun h0 => h.nonul (h0 ▸ hc)
  unfold Lex.ahead
  rw [hk, List.takeWhile_append_of_pos hall]
  cases k with
  | zero => exact List.append_nil t
  | succ k =>
      rw [List.replicate_succ, List.takeWhile_cons]
      exact List.append_nil t

/-- The string at a place in the text of a token -/
theorem Lexed.cstr {a : List UInt8} (h : Lexed N st t (a ++ w ++ [0]) y) (hw : (0 : UInt8) ∉ w)
    (hroom : y + a.length + w.length < N) : st.cstr (y + a.length) = w := by
  have hlen : (a ++ w ++ [0]).length = a.length + w.length + 1 := by
    rw [List.length_append, List.length_append, List.length_singleton]
  obtain ⟨k, hk⟩ : ∃ k, N - (y + a.length) = w.length + 1 + k :=
    ⟨N - (y + a.length) - (w.length + 1), by omega⟩
  have hbytes : (List.range (w.length + 1)).map (fun i => st.textBuffer (y + a.length + i)) = w ++ [0] := by
    refine List.ext_getElem (by simp) fun i hi hi' => ?_
    rw [List.length_append, List.length_singleton] at hi'
    have htext := h.text (a.length + i) (by omega)
    rw [List.getElem_map, List.getElem_range, Nat.add_assoc, htext]
    simp only [List.append_assoc]
    rw [List.getElem_append_right (by omega)]
    simp
  have hall (c : UInt8) (hc : c ∈ w) : decide (c ≠ 0) = true := decide_eq_true fun h0 => hw (h0 ▸ hc)
  unfold Lex.cstr
  rw [h.size, hk, List.range_add, List.map_append, hbytes, List.append_assoc,
    List.takeWhile_append_of_pos hall]
  simp

end PaxosSolutions.XjPing
