import PaxosSolutions.Lib.Run
import PaxosSolutions.XjPing.SqlLexLoops
import Mathlib.Data.List.Induction
import Mathlib.Data.Nat.Digits.Defs

/-!
# The calls of the lexer

The callers give a text buffer of twice the size of the statement. While there is text,
every call leaves as much of it as the rest needs. At the end of the text a call needs
two places more, which are not always there.
-/
namespace PaxosSolutions.XjPing
open Lib

variable {N y fuel : ℕ} {st : Lex} {t w : List UInt8} {c : UInt8}

/-! ### Kinds of characters -/

theorem forall_byte {P : UInt8 → Prop} (h : ∀ n < 256, P (UInt8.ofNat n)) (c : UInt8) : P c := by
  have hc := h c.toNat c.toNat_lt
  rwa [UInt8.ofNat_toNat] at hc

theorem white_kind : ∀ c, aWhite c = true → c ≠ 0 ∧ aMore c = false ∧ whatIs c = .white :=
  forall_byte (by decide +kernel)

theorem kind_white : ∀ c, whatIs c = .white → aWhite c = true :=
  forall_byte (by decide +kernel)

theorem numb_has : ∀ c, whatIs c = .numb → LexMask.numb.has c = true :=
  forall_byte (by decide +kernel)

theorem quote_kind : A_QUOTE ≠ 0 ∧ aMore A_QUOTE = false ∧ whatIs A_QUOTE = .quote := by decide

theorem digit_kind : ∀ c, isDigit c = true → c ≠ 0 ∧ aMore c = false ∧ whatIs c = .numb :=
  forall_byte (by decide +kernel)

/-! ### One token -/

theorem tokenLoop_succ (fuel : ℕ) (st : Lex) : tokenLoop (fuel + 1) st =
    if st.input.1 = 0 then some (.eof, st.input.2)
    else if aMore st.input.1 then
      some (morePunct st.input.1 st.input.2.input.1 st.input.2.input.2)
    else
      match whatIs st.input.1 with
      | .white => tokenLoop fuel { st.input.2 with inptr := st.input.2.yytext }
      | .quote => clLiteral fuel st.input.2
      | .oneChar =>
          if st.input.1 = 46 then
            if whatIs st.input.2.input.1 = .numb then
              moreStr fuel .numb ((st.input.2.input.2.unput st.input.2.input.1).unput st.input.1)
            else some (.punct st.input.1, st.input.2.input.2.unput st.input.2.input.1)
          else some (.punct st.input.1, st.input.2)
      | .str => moreStr fuel .str st.input.2
      | .numb => moreStr fuel .numb (st.input.2.unput st.input.1)
      | .other => some (.eof, st.input.2) := rfl

/-- White characters are read over. -/
theorem tokenLoop_white (h : Lexed N st t [] y) (hroom : y + t.length + 1 < N) (hfuel : t.length + 1 < fuel) :
    ∃ fuel' st', tokenLoop fuel st = tokenLoop fuel' st' ∧ Lexed N st' (t.dropWhile aWhite) [] y ∧
      (t.dropWhile aWhite).length + 1 < fuel' := by
  induction t generalizing fuel st with
  | nil => exact ⟨fuel, st, rfl, h, hfuel⟩
  | cons c t ih =>
      by_cases hc : aWhite c = true
      · obtain ⟨fuel, rfl⟩ := Nat.exists_eq_succ_of_ne_zero (Nat.ne_zero_of_lt hfuel)
        rw [List.length_cons] at hroom hfuel
        obtain ⟨hread, hin⟩ := h.input (by rw [List.length_nil]; omega)
        obtain ⟨hc0, hmore, hkind⟩ := white_kind c hc
        obtain ⟨fuel', st', hloop, hst, hleft⟩ := ih hin.restart (by omega)
          (show t.length + 1 < fuel by omega)
        rw [List.dropWhile_cons_of_pos hc]
        refine ⟨fuel', st', ?_, hst, hleft⟩
        rw [← hloop, tokenLoop_succ, hread, List.headD_cons, if_neg hc0, hmore, hkind]
        rfl
      · rw [List.dropWhile_cons_of_neg hc]
        exact ⟨fuel, st, rfl, h, hfuel⟩

theorem twoChar_some {c d : UInt8} {tok : LexTok} (h : twoChar c d = some tok) : d ≠ 0 := by
  intro h0
  subst h0
  cases h

theorem morePunct_moves {d : UInt8} (h : Lexed N st t.tail [c, t.headD 0] y) (ht : (0 : UInt8) ∉ t)
    (hd : d = t.headD 0) (hroom : y + 1 < N) : Moves N (some (morePunct c d st)) (t.length + 1) y := by
  subst hd
  unfold morePunct
  cases htwo : twoChar c (t.headD 0) with
  | none =>
      have hback := h.back (w := [c]) ht hroom
      refine ⟨_, _, t, [c], rfl, hback, ?_⟩
      rw [List.length_singleton]
      omega
  | some tok =>
      cases t with
      | nil => exact absurd rfl (twoChar_some htwo)
      | cons d t =>
          refine ⟨tok, st, t, _, rfl, h, ?_⟩
          simp only [List.length_cons, List.length_nil]
          omega

/-- A token that begins with a character that is not white -/
theorem tokenLoop_cons (h : Lexed N st (c :: t) [] y) (hc : aWhite c = false)
    (hroom : y + t.length + 2 < N) (hmore : t ≠ [] → y + t.length + 3 < N) (hfuel : t.length + 2 < fuel) :
    Moves N (tokenLoop fuel st) (t.length + 1) y := by
  obtain ⟨fuel, rfl⟩ := Nat.exists_eq_succ_of_ne_zero (Nat.ne_zero_of_lt hfuel)
  obtain ⟨hread, hin⟩ := h.input (by rw [List.length_nil]; omega)
  rw [List.headD_cons] at hread
  have hc0 : c ≠ 0 := fun h0 => h.nonul (h0 ▸ List.mem_cons_self)
  have ht : (0 : UInt8) ∉ t := fun hmem => h.nonul (List.mem_cons_of_mem c hmem)
  rw [tokenLoop_succ, hread, if_neg hc0]
  change Lexed N st.input.2 t [c] y at hin
  have hnext := hin.input (by rw [List.length_singleton]; omega)
  have hlong : 1 < 1 + t.length → y + 1 + t.length + 2 < N := fun h1 => by
    have hpos := hmore (List.length_pos_iff.mp (by omega))
    omega
  by_cases ham : aMore c = true
  · rw [if_pos ham]
    exact morePunct_moves hnext.2 ht hnext.1 (by omega)
  rw [if_neg ham]
  cases hkind : whatIs c with
  | white => exact absurd (kind_white c hkind) (by rw [hc]; exact Bool.false_ne_true)
  | quote =>
      have hlit := clLiteral_moves hin (by rw [List.length_singleton]; omega) (show t.length < fuel by omega)
        (List.cons_ne_nil c [])
      rwa [List.length_singleton, Nat.add_comm] at hlit
  | str =>
      have hstr : Moves N (moreStr fuel .str st.input.2) ([c].length + t.length) y :=
        moreStr_moves hin (by rw [List.length_singleton]; omega) hlong
          (show t.length < fuel by omega) (Or.inl (List.cons_ne_nil c []))
      rwa [List.length_singleton, Nat.add_comm] at hstr
  | numb =>
      have hback := hin.back (w := []) (d := c :: t) h.nonul (by rw [List.length_nil]; omega)
      have htaken : (c :: t).takeWhile LexMask.numb.has ≠ [] := by
        rw [List.takeWhile_cons_of_pos (numb_has c hkind)]
        exact List.cons_ne_nil _ _
      have hstr := moreStr_moves hback (by rw [List.length_nil, List.length_cons]; omega)
        (fun h1 => by
          rw [List.length_nil, Nat.zero_add, List.length_cons] at h1
          have hpos := hmore (List.length_pos_iff.mp (by omega))
          rw [List.length_nil, List.length_cons]
          omega)
        (show (c :: t).length < fuel by rw [List.length_cons]; omega) (Or.inr (Or.inl htaken))
      rwa [List.length_nil, Nat.zero_add] at hstr
  | oneChar =>
      dsimp only
      by_cases hpoint : c = 46
      · subst hpoint
        have hback := hnext.2.back ht (by rw [List.length_singleton]; omega)
        rw [if_pos rfl, hnext.1]
        by_cases hnum : whatIs (t.headD 0) = .numb
        · have hback2 := hback.back (w := []) (d := 46 :: t) h.nonul (by rw [List.length_nil]; omega)
          have hfloat : isFloat .numb (46 :: t) = true := rfl
          have hstr := moreStr_moves hback2 (by rw [List.length_nil, List.length_cons]; omega)
            (fun h1 => by
              rw [List.length_nil, Nat.zero_add, List.length_cons] at h1
              have hpos := hmore (List.length_pos_iff.mp (by omega))
              rw [List.length_nil, List.length_cons]
              omega)
            (show (46 :: t).length < fuel by rw [List.length_cons]; omega) (Or.inr (Or.inr hfloat))
          rw [if_pos hnum]
          rwa [List.length_nil, Nat.zero_add] at hstr
        · rw [if_neg hnum]
          refine ⟨_, _, t, [46], rfl, hback, ?_⟩
          rw [List.length_singleton]
          omega
      · rw [if_neg hpoint]
        refine ⟨_, _, t, [c], rfl, hin, ?_⟩
        rw [List.length_singleton]
        omega
  | other =>
      refine ⟨_, _, t, [c], rfl, hin, ?_⟩
      rw [List.length_singleton]
      omega

theorem tokenLoop_quote (h : Lexed N st (A_QUOTE :: t) [] y) (hroom : y + 1 < N)
    (hfuel : t.length + 2 < fuel) : ∃ fuel' st', tokenLoop fuel st = clLiteral fuel' st' ∧
      Lexed N st' t [A_QUOTE] y ∧ t.length < fuel' := by
  obtain ⟨fuel, rfl⟩ := Nat.exists_eq_succ_of_ne_zero (Nat.ne_zero_of_lt hfuel)
  obtain ⟨hread, hin⟩ := h.input (by rwa [List.length_nil])
  rw [List.headD_cons] at hread
  refine ⟨fuel, st.input.2, ?_, hin, by omega⟩
  rw [tokenLoop_succ, hread, if_neg quote_kind.1, quote_kind.2.1, quote_kind.2.2]
  rfl

theorem tokenLoop_digit (h : Lexed N st (c :: t) [] y) (hc : isDigit c = true) (hroom : y + 1 < N)
    (hfuel : t.length + 2 < fuel) : ∃ fuel' st', tokenLoop fuel st = moreStr fuel' .numb st' ∧
      Lexed N st' (c :: t) [] y ∧ t.length + 1 < fuel' := by
  obtain ⟨fuel, rfl⟩ := Nat.exists_eq_succ_of_ne_zero (Nat.ne_zero_of_lt hfuel)
  obtain ⟨hread, hin⟩ := h.input (by rwa [List.length_nil])
  obtain ⟨hc0, hmore, hkind⟩ := digit_kind c hc
  have hback := hin.back (w := []) (d := c :: t) h.nonul (by rw [List.length_nil]; omega)
  rw [List.headD_cons] at hread hback
  refine ⟨fuel, _, ?_, hback, by omega⟩
  rw [tokenLoop_succ, hread, if_neg hc0, hmore, hkind]
  rfl

/-! ### One call -/

/-- Before a call with the text `t` ahead: the rest of the text buffer is twice as long. -/
structure Reading (N : ℕ) (st : Lex) (t : List UInt8) : Prop where
  size : st.size = N
  inside : st.outside = false
  nonul : (0 : UInt8) ∉ t
  source : ∃ k, st.yysbuf ++ st.strptr = t ++ List.replicate k 0
  room : t ≠ [] → st.inptr + 2 * t.length + 2 ≤ N

theorem reading_start {str : List UInt8} {buf : ℕ → UInt8} {size : ℕ} (h0 : (0 : UInt8) ∉ str)
    (hsize : 2 * (str.length + 1) ≤ size) : Reading size (Lex.start str buf size) str where
  size := rfl
  inside := rfl
  nonul := h0
  source := ⟨0, (List.append_nil str).symm⟩
  room _ := by
    change 0 + 2 * str.length + 2 ≤ size
    omega

theorem Reading.ahead (h : Reading N st t) : st.ahead = t := by
  have hlexed : Lexed N { st with yytext := st.inptr } t [] st.inptr :=
    ⟨h.size, h.inside, rfl, rfl, fun i hi => absurd hi (Nat.not_lt_zero i), h.nonul, h.source⟩
  exact hlexed.ahead

/-- A call with text ahead first reads over what is white. -/
theorem Reading.white (h : Reading N st t) (ht : t ≠ []) : ∃ fuel' st',
    readToken st = tokenLoop fuel' st' ∧ Lexed N st' (t.dropWhile aWhite) [] (st.inptr + 1) ∧
      (t.dropWhile aWhite).length + 1 < fuel' := by
  have hroom := h.room ht
  have hpos := List.length_pos_iff.mpr ht
  obtain ⟨k, hk⟩ := h.source
  have hlen := congrArg List.length hk
  rw [List.length_append, List.length_append] at hlen
  have hbegin : Lexed N { st with inptr := st.inptr + 1, yytext := st.inptr + 1 } t [] (st.inptr + 1) :=
    ⟨h.size, h.inside, rfl, rfl, fun i hi => absurd hi (Nat.not_lt_zero i), h.nonul, h.source⟩
  exact tokenLoop_white hbegin (by omega)
    (show t.length + 1 < st.yysbuf.length + st.strptr.length + 2 by omega)

/-- A call with text ahead writes inside of the text buffer, and leaves enough of it. -/
theorem Reading.call (h : Reading N st t) (ht : t ≠ []) : ∃ tok st' t',
    readToken st = some (tok, st') ∧ Reading N st' t' := by
  have hroom := h.room ht
  have hpos := List.length_pos_iff.mpr ht
  have hle := (List.dropWhile_sublist (l := t) aWhite).length_le
  obtain ⟨fuel, st1, hskip, hst1, hfuel⟩ := h.white ht
  have hmoves : Moves N (readToken st) t.length (st.inptr + 1) := by
    rw [hskip]
    cases hleft : t.dropWhile aWhite with
    | nil =>
        rw [hleft] at hst1 hfuel
        obtain ⟨fuel, rfl⟩ := Nat.exists_eq_succ_of_ne_zero (Nat.ne_zero_of_lt hfuel)
        obtain ⟨hread, hin⟩ := hst1.input (by rw [List.length_nil]; omega)
        refine ⟨.eof, _, _, _, ?_, hin, ?_⟩
        · rw [tokenLoop_succ, hread]
          rfl
        · change 1 + 1 + 2 * 0 ≤ 2 * t.length
          omega
    | cons c r =>
        rw [hleft] at hst1 hfuel hle
        rw [List.length_cons] at hle hfuel
        have hc : aWhite c = false := by
          have hhead := List.head?_dropWhile_not aWhite t
          rw [hleft] at hhead
          exact hhead
        obtain ⟨tok, st', t', w', hrun, hst', hsum⟩ := tokenLoop_cons hst1 hc (by omega)
          (fun hne => by
            have hr := List.length_pos_iff.mpr hne
            omega) (by omega)
        exact ⟨tok, st', t', w', hrun, hst', by omega⟩
  obtain ⟨tok, st', t', w', hrun, hst', hsum⟩ := hmoves
  refine ⟨tok, st', t', hrun, hst'.size, hst'.inside, hst'.nonul, hst'.source, fun _ => ?_⟩
  rw [hst'.inptr]
  omega

/-- At the end of the text a call writes two NULs, if the first one is inside. -/
theorem Reading.callEnd (h : Reading N st []) : ∃ st', readToken st = some (.eof, st') ∧
    st'.outside = decide (st.inptr + 2 = N) ∧ (st'.outside = false → Reading N st' []) := by
  generalize hst0 : ({ st with inptr := st.inptr + 1, yytext := st.inptr + 1 } : Lex) = st0
  have hin0 : st0.inptr = st.inptr + 1 := by rw [← hst0]
  have hsource0 : ∃ k, st0.yysbuf ++ st0.strptr = [] ++ List.replicate k 0 := by
    rw [← hst0]
    exact h.source
  have hsize0 : st0.size = N := by rw [← hst0, h.size]
  have hinside0 : st0.outside = false := by rw [← hst0, h.inside]
  obtain ⟨hread, hsource⟩ := next_source hsource0
  obtain ⟨hsize, houtside, -, hinptr, -⟩ := next_rest st0
  have hcall : readToken st = some (.eof, st0.input.2) := by
    unfold readToken
    rw [hst0, tokenLoop_succ]
    exact if_pos hread
  have hsave : st0.input.2 = st0.next.2.save 0 := by rw [← show st0.next.1 = 0 from hread]; rfl
  refine ⟨_, hcall, ?_⟩
  rw [hsave]
  unfold Lex.save
  rw [hinptr, hin0, hsize, hsize0]
  by_cases hroom : st.inptr + 1 < N
  · rw [if_pos hroom]
    have hwritten : ((st0.next.2.outside || decide (st0.next.2.size ≤ st.inptr + 1)) ||
        decide (st0.next.2.size ≤ st.inptr + 1 + 1)) = decide (st.inptr + 2 = N) := by
      rw [houtside, hinside0, hsize, hsize0, Bool.false_or, decide_eq_false (by omega), Bool.false_or]
      exact decide_eq_decide.mpr (by omega)
    refine ⟨hwritten, fun hinside => ?_⟩
    exact ⟨hsize.trans hsize0, hinside, List.not_mem_nil, hsource, fun hne => absurd rfl hne⟩
  · rw [if_neg hroom, houtside, hinside0, decide_eq_false (by omega)]
    refine ⟨rfl, fun _ => ?_⟩
    exact ⟨hsize.trans hsize0, houtside.trans hinside0, List.not_mem_nil, hsource,
      fun hne => absurd rfl hne⟩

/-! ### Numerals -/

def isHexDigit (c : UInt8) : Bool := isDigit c || (65 ≤ c && c ≤ 70) || (97 ≤ c && c ≤ 102)

def decDigit (c : UInt8) : ℕ := c.toNat - 48

def hexDigit (c : UInt8) : ℕ :=
  if isDigit c then c.toNat - 48 else if isUpper c then c.toNat - 55 else c.toNat - 87

def decValue (ds : List UInt8) : ℕ := Nat.ofDigits 10 (ds.reverse.map decDigit)

def hexValue (hs : List UInt8) : ℕ := Nat.ofDigits 16 (hs.reverse.map hexDigit)

theorem digit_value : ∀ c, isDigit c = true →
    c ≠ 95 ∧ c ≠ 88 ∧ c ≠ 120 ∧ (c.toNat : ℤ) - 48 = decDigit c :=
  forall_byte (by decide +kernel)

theorem hexDigit_value : ∀ c, isHexDigit c = true → c ≠ 95 ∧ c ≠ 88 ∧ c ≠ 120 ∧
    (if aStr c then 10 + (c.toNat : ℤ) - (if c < 97 then 65 else 97)
      else (c.toNat : ℤ) - 48) = hexDigit c :=
  forall_byte (by decide +kernel)

theorem strStep_dec (hc : isDigit c = true) (n : ℕ) :
    strStep (.numb, n) c = (.numb, ((decDigit c + 10 * n : ℕ) : ℤ)) := by
  obtain ⟨h95, h88, h120, hvalue⟩ := digit_value c hc
  have hsum : (n : ℤ) * 10 + ((c.toNat : ℤ) - 48) = ((decDigit c + 10 * n : ℕ) : ℤ) := by
    rw [hvalue]
    push_cast
    omega
  unfold strStep
  rw [← hsum]
  simp [h95, h88, h120]

theorem strStep_hexDigit (hc : isHexDigit c = true) (n : ℕ) :
    strStep (.hex, n) c = (.hex, ((hexDigit c + 16 * n : ℕ) : ℤ)) := by
  obtain ⟨h95, h88, h120, hvalue⟩ := hexDigit_value c hc
  have hsum : (n : ℤ) * 16 + (hexDigit c : ℤ) = ((hexDigit c + 16 * n : ℕ) : ℤ) := by
    push_cast
    omega
  unfold strStep
  rw [← hsum, ← hvalue]
  by_cases hstr : aStr c = true
  · simp [h95, h88, h120, hstr]
  · simp [h95, h88, h120, hstr]

theorem foldl_digits {b : ℕ} {mask : LexMask} {digit : UInt8 → ℕ} {ds : List UInt8}
    (hstep : ∀ d ∈ ds, ∀ n : ℕ, strStep (mask, n) d = (mask, ((digit d + b * n : ℕ) : ℤ))) :
    ds.foldl strStep (mask, 0) = (mask, ((Nat.ofDigits b (ds.reverse.map digit) : ℕ) : ℤ)) := by
  induction ds using List.reverseRecOn with
  | nil => rfl
  | append_singleton ds d ih =>
      have hlast := hstep d (List.mem_append_right ds List.mem_cons_self)
      have hinit := ih fun e he => hstep e (List.mem_append_left [d] he)
      rw [List.foldl_append, hinit, List.foldl_cons, List.foldl_nil, hlast, List.reverse_append]
      rfl

/-- What `more_str` takes of digits with a text behind them that goes on with none -/
theorem strEnd_append {ds rest : List UInt8} (hds : ∀ d ∈ ds, mNumb d = true)
    (hrest : ∀ d ∈ rest.head?, mNumb d = false) :
    strEnd .numb (ds ++ rest) = ds.foldl strStep (.numb, 0) ∧
      (ds ++ rest).dropWhile LexMask.numb.has = rest := by
  have htake : rest.takeWhile LexMask.numb.has = [] ∧ rest.dropWhile LexMask.numb.has = rest := by
    cases rest with
    | nil => exact ⟨rfl, rfl⟩
    | cons d rest =>
        have hd : ¬LexMask.numb.has d = true := by
          rw [show LexMask.numb.has d = false from hrest d rfl]
          exact Bool.false_ne_true
        exact ⟨List.takeWhile_cons_of_neg hd, List.dropWhile_cons_of_neg hd⟩
  refine ⟨?_, ?_⟩
  · unfold strEnd
    rw [List.takeWhile_append_of_pos (p := LexMask.numb.has) hds, htake.1, List.append_nil]
  · rw [List.dropWhile_append_of_pos (p := LexMask.numb.has) hds, htake.2]

theorem Reading.number {r : List UInt8} {v : ℕ} (h : Reading N st t) (hskip : t.dropWhile aWhite = c :: r)
    (hc : isDigit c = true) (hend : (strEnd .numb (c :: r)).2 = v) (hstr : (strEnd .numb (c :: r)).1 ≠ .str)
    (hfloat : isFloat .numb (c :: r) = false) (hv : v < 2 ^ 63) :
    ∃ st', readToken st = some (.snum v, st') := by
  have ht : t ≠ [] := fun hnil => by
    rw [hnil] at hskip
    cases hskip
  have hroom := h.room ht
  have hle := (List.dropWhile_sublist (l := t) aWhite).length_le
  rw [hskip, List.length_cons] at hle
  obtain ⟨fuel, st1, hwhite, hst1, hfuel⟩ := h.white ht
  rw [hskip] at hst1 hfuel
  rw [List.length_cons] at hfuel
  obtain ⟨fuel', st2, hdigit, hst2, hfuel2⟩ := tokenLoop_digit hst1 hc (by omega) (by omega)
  obtain ⟨tok, st', u, hrun, hst', hu, htok⟩ := moreStr_const hst2
    (by rw [List.length_nil, List.length_cons]; omega)
    (fun hne => by
      have hlen := length_mask .numb (c :: r)
      have hpos := List.length_pos_iff.mpr hne
      have hone : LexMask.numb.has c = true := numb_has c (digit_kind c hc).2.2
      rw [List.takeWhile_cons_of_pos hone, List.length_cons, List.length_cons] at hlen
      rw [List.length_nil, List.length_cons]
      omega)
    (show (c :: r).length < fuel' by rw [List.length_cons]; omega) hfloat
  have hwrap : (v : ℤ).bmod (2 ^ 64) = v := by
    rw [Int.bmod_eq_of_le (by omega) (by omega)]
  rw [htok hstr, hend, hwrap] at hrun
  exact ⟨st', by rw [hwhite, hdigit, hrun]⟩

theorem mNumb_hexDigit : ∀ c, isHexDigit c = true → mNumb c = true :=
  forall_byte (by decide +kernel)

theorem isHexDigit_of_isDigit : ∀ c, isDigit c = true → isHexDigit c = true :=
  forall_byte (by decide +kernel)

/-- A decimal numeral -/
structure DecNumeral (ds : List UInt8) : Prop where
  nonempty : ds ≠ []
  digits : ∀ d ∈ ds, isDigit d = true
  value : decValue ds < 2 ^ 63

/-- The digits of a hexadecimal numeral -/
structure HexNumeral (hs : List UInt8) : Prop where
  nonempty : hs ≠ []
  digits : ∀ d ∈ hs, isHexDigit d = true
  value : hexValue hs < 2 ^ 63

theorem Reading.dec {ds rest : List UInt8} (h : Reading N st t) (hds : DecNumeral ds)
    (hskip : t.dropWhile aWhite = ds ++ rest) (hrest : ∀ d ∈ rest.head?, mNumb d = false ∧ d ≠ 46) :
    ∃ st', readToken st = some (.snum (decValue ds), st') := by
  have hmask (d : UInt8) (hd : d ∈ ds) : mNumb d = true :=
    mNumb_hexDigit d (isHexDigit_of_isDigit d (hds.digits d hd))
  have hbehind (d : UInt8) (hd : d ∈ rest.head?) : mNumb d = false := (hrest d hd).1
  obtain ⟨hend, hdrop⟩ := strEnd_append hmask hbehind
  rw [foldl_digits fun d hd n => strStep_dec (hds.digits d hd) n] at hend
  have hpoint : isFloat .numb (ds ++ rest) = false := by
    unfold isFloat
    rw [hdrop]
    cases rest with
    | nil => exact Bool.and_false _
    | cons d rest =>
        rw [List.headD_cons, decide_eq_false (p := d = 46) (hrest d rfl).2]
        exact Bool.and_false _
  obtain ⟨d, ds', hcons⟩ := List.exists_cons_of_ne_nil hds.nonempty
  have hdigit := hds.digits d (by rw [hcons]; exact List.mem_cons_self)
  have hvalue := hds.value
  have hkey : t.dropWhile aWhite = d :: (ds' ++ rest) := by rw [hskip, hcons]; rfl
  have hsame : ds ++ rest = d :: (ds' ++ rest) := by rw [hcons]; rfl
  rw [hsame] at hend hpoint
  refine h.number hkey hdigit ?_ ?_ hpoint hvalue
  · rw [hend]
    rfl
  · rw [hend]
    exact LexMask.noConfusion

theorem Reading.hex {x : UInt8} {hs rest : List UInt8} (h : Reading N st t) (hhs : HexNumeral hs)
    (hx : x = 88 ∨ x = 120) (hskip : t.dropWhile aWhite = 48 :: x :: hs ++ rest)
    (hrest : ∀ d ∈ rest.head?, mNumb d = false) :
    ∃ st', readToken st = some (.snum (hexValue hs), st') := by
  have hmx : mNumb x = true := by
    rcases hx with rfl | rfl
    · decide
    · decide
  have hmark : strStep (strStep (.numb, 0) 48) x = (.hex, 0) := by
    rcases hx with rfl | rfl
    · decide
    · decide
  have hmask : ∀ d ∈ 48 :: x :: hs, mNumb d = true := by
    intro d hd
    rcases List.mem_cons.mp hd with rfl | hd
    · decide
    rcases List.mem_cons.mp hd with rfl | hd
    · exact hmx
    · exact mNumb_hexDigit d (hhs.digits d hd)
  obtain ⟨hend, hdrop⟩ := strEnd_append hmask hrest
  rw [List.foldl_cons, List.foldl_cons, hmark, foldl_digits fun d hd n => strStep_hexDigit (hhs.digits d hd) n]
    at hend
  have hpoint : isFloat .numb (48 :: x :: hs ++ rest) = false := by
    unfold isFloat
    rw [hend]
    rfl
  have hvalue := hhs.value
  refine h.number (r := x :: hs ++ rest) hskip (by decide) ?_ ?_ hpoint hvalue
  · change (strEnd .numb (48 :: x :: hs ++ rest)).2 = _
    rw [hend]
    rfl
  · change (strEnd .numb (48 :: x :: hs ++ rest)).1 ≠ _
    rw [hend]
    exact LexMask.noConfusion

/-! ### Literals in a statement -/

/-- A literal as it is written -/
def quoted (s : List UInt8) : List UInt8 := A_QUOTE :: doubled s ++ [A_QUOTE]

/-- A call gives a literal and leaves the text behind it. -/
def LiteralRead (st : Lex) (s rest : List UInt8) : Prop :=
  ∃ p st', readToken st = some (.sstring p, st') ∧ st'.cstr p = s ∧ st'.ahead = rest

/-- Neither a quote nor a lower case letter comes next. -/
def Behind (rest : List UInt8) : Prop := ∀ c ∈ rest.head?, c ≠ A_QUOTE ∧ isLower c = false

theorem mem_doubled {s : List UInt8} (h : c ∈ s) : c ∈ doubled s := by
  refine List.mem_flatMap.mpr ⟨c, h, ?_⟩
  split
  · exact List.mem_cons_self
  · exact List.mem_cons_self

theorem toUpper_same : ∀ c, toUpper c = c → isLower c = false :=
  forall_byte (by decide +kernel)

theorem modifyHead_toUpper {rest : List UInt8} :
    rest.modifyHead toUpper = rest ↔ ∀ c ∈ rest.head?, isLower c = false := by
  cases rest with
  | nil => exact ⟨fun _ c hc => absurd hc (Option.not_mem_none c), fun _ => rfl⟩
  | cons d rest =>
      constructor
      · intro hsame c hc
        cases hc
        exact toUpper_same d (List.cons.inj hsame).1
      · intro hlow
        have hd := hlow d rfl
        change toUpper d :: rest = d :: rest
        unfold toUpper
        rw [hd]
        rfl

/-- A call that finds a literal first -/
theorem Reading.quote {r : List UInt8} (h : Reading N st t) (hskip : t.dropWhile aWhite = A_QUOTE :: r) :
    ∃ fuel' st', readToken st = clLiteral fuel' st' ∧ Lexed N st' r [A_QUOTE] (st.inptr + 1) ∧
      r.length < fuel' ∧ st.inptr + 1 + 1 + r.length + 1 < N := by
  have ht : t ≠ [] := fun hnil => by
    rw [hnil] at hskip
    cases hskip
  have hroom := h.room ht
  have hle := (List.dropWhile_sublist (l := t) aWhite).length_le
  rw [hskip, List.length_cons] at hle
  obtain ⟨fuel, st1, hwhite, hst1, hfuel⟩ := h.white ht
  rw [hskip] at hst1 hfuel
  rw [List.length_cons] at hfuel
  obtain ⟨fuel', st2, hquote, hst2, hfuel2⟩ := tokenLoop_quote hst1 (by omega) (by omega)
  exact ⟨fuel', st2, hwhite.trans hquote, hst2, hfuel2, by omega⟩

theorem Reading.literal {s rest : List UInt8} (h : Reading N st t)
    (hskip : t.dropWhile aWhite = quoted s ++ rest) : LiteralRead st s rest ↔ Behind rest := by
  have hkey : t.dropWhile aWhite = A_QUOTE :: (doubled s ++ A_QUOTE :: rest) := by
    rw [hskip]
    change A_QUOTE :: (doubled s ++ [A_QUOTE] ++ rest) = _
    rw [List.append_assoc]
    rfl
  obtain ⟨fuel, st1, hcall, hst1, hfuel, hroom⟩ := h.quote hkey
  have hs : (0 : UInt8) ∉ s := fun hmem =>
    hst1.nonul (List.mem_append_left _ (mem_doubled hmem))
  have hread := litRead_doubled s (A_QUOTE :: rest)
  by_cases hq : rest.head? = some A_QUOTE
  · -- the quote behind the literal is taken for a part of it
    refine ⟨fun hlit => ?_, fun hbehind => absurd rfl (hbehind A_QUOTE hq).1⟩
    obtain ⟨p, st', hrun, -, hahead⟩ := hlit
    obtain ⟨r, rfl⟩ : ∃ r, rest = A_QUOTE :: r := List.head?_eq_some_iff.mp hq
    rw [litRead_two] at hread
    rw [hcall] at hrun
    cases hlast : (litRead r).2 with
    | none =>
        obtain ⟨tok, st2, w', hend, hst2, -, -⟩ := clLiteral_open hst1 hroom hfuel (List.cons_ne_nil _ _)
          (by rw [hread, hlast])
        rw [hrun] at hend
        cases hend
        rw [hst2.ahead] at hahead
        cases hahead
    | some u =>
        obtain ⟨st2, hend, hst2, hlen⟩ := clLiteral_closed hst1 hroom hfuel (r := u) (by rw [hread, hlast])
        rw [hrun] at hend
        cases hend
        have hshort := congrArg List.length hahead
        have hrest : litRest r = u := by rw [litRest, hlast]; rfl
        have hle := (litRest_suffix r).length_le
        rw [hst2.ahead, List.length_modifyHead, List.length_cons] at hshort
        rw [hrest] at hle
        omega
  · rw [litRead_close hq, List.append_nil] at hread
    obtain ⟨st2, hend, hst2, hlen⟩ := clLiteral_closed hst1 hroom hfuel (r := rest) (by rw [hread])
    rw [hread] at hst2 hlen
    have hcontent : st2.cstr (st.inptr + 1 + 1) = s := hst2.cstr (a := [A_QUOTE]) hs (by
      rw [List.length_singleton]
      omega)
    have hbehind : Behind rest ↔ rest.modifyHead toUpper = rest := by
      rw [modifyHead_toUpper]
      refine forall₂_congr fun c hc => and_iff_right fun hceq => hq (hceq ▸ hc)
    rw [hbehind, ← hst2.ahead]
    constructor
    · intro hlit
      obtain ⟨p, st', hrun, -, hahead⟩ := hlit
      rw [hcall, hend] at hrun
      cases hrun
      exact hahead
    · intro hsame
      exact ⟨_, st2, hcall.trans hend, hcontent, hsame⟩

/-! ### Every call of a run -/

/-- A call of the lexer -/
def lexStep (st : Lex) (_ : Unit) : Except Unit Lex :=
  match readToken st with
  | some (_, st) => .ok st
  | none => .error ()

/-- The text buffer does not end where a call at the end of the text puts its second NUL. -/
def HasRoom (st : Lex) : Prop := st.ahead = [] → st.inptr + 2 ≠ st.size

/-- A call ends, and writes nothing outside of the text buffer. -/
def Inside (st : Lex) : Prop := ∃ tok st', readToken st = some (tok, st') ∧ st'.outside = false

theorem Reading.inside_iff (h : Reading N st t) :
    (∃ tok st', readToken st = some (tok, st')) ∧ (Inside st ↔ HasRoom st) := by
  by_cases ht : t = []
  · subst ht
    obtain ⟨st', hrun, houtside, -⟩ := h.callEnd
    refine ⟨⟨_, _, hrun⟩, ?_⟩
    constructor
    · intro hinside hahead hend
      obtain ⟨tok, st2, hrun2, hno⟩ := hinside
      rw [hrun] at hrun2
      cases hrun2
      rw [houtside, ← h.size] at hno
      exact of_decide_eq_false hno hend
    · intro hroom
      refine ⟨_, st', hrun, ?_⟩
      rw [houtside, ← h.size]
      exact decide_eq_false (hroom h.ahead)
  · obtain ⟨tok, st', t', hrun, hst'⟩ := h.call ht
    refine ⟨⟨tok, st', hrun⟩, ?_⟩
    constructor
    · intro _ hahead
      rw [h.ahead] at hahead
      exact absurd hahead ht
    · intro _
      exact ⟨tok, st', hrun, hst'.inside⟩

/-- What one call keeps -/
theorem Reading.step {st' : Lex} (h : ∃ t, Reading N st t) (hroom : HasRoom st)
    (hstep : lexStep st () = .ok st') : ∃ t, Reading N st' t := by
  obtain ⟨t, h⟩ := h
  unfold lexStep at hstep
  by_cases ht : t = []
  · subst ht
    obtain ⟨st2, hrun, houtside, hkeeps⟩ := h.callEnd
    rw [hrun] at hstep
    cases hstep
    refine ⟨[], hkeeps ?_⟩
    rw [houtside, ← h.size]
    exact decide_eq_false (hroom h.ahead)
  · obtain ⟨tok, st2, t', hrun, hst2⟩ := h.call ht
    rw [hrun] at hstep
    cases hstep
    exact ⟨t', hst2⟩

/-- Before every call of a run whose calls had room for their NULs: the call ends; it
writes nothing outside of the text buffer if and only if it has room for its NULs; a
literal gives its content and leaves the text behind it if and only if neither a quote
nor a lower case letter is behind it; a numeral gives its value. -/
theorem readToken_right_iff {str : List UInt8} {buf : ℕ → UInt8} {size : ℕ} {calls : List Unit}
    (h0 : (0 : UInt8) ∉ str) (hsize : 2 * (str.length + 1) ≤ size)
    (hrun : run lexStep (Lex.start str buf size) calls = .ok st)
    (hroom : Along lexStep (fun st _ => HasRoom st) (Lex.start str buf size) calls) :
    (∃ tok st', readToken st = some (tok, st')) ∧ (Inside st ↔ HasRoom st) ∧
      (∀ s rest, st.ahead.dropWhile aWhite = quoted s ++ rest → (LiteralRead st s rest ↔ Behind rest)) ∧
      (∀ ds rest, DecNumeral ds → st.ahead.dropWhile aWhite = ds ++ rest →
        (∀ d ∈ rest.head?, mNumb d = false ∧ d ≠ 46) →
          ∃ st', readToken st = some (.snum (decValue ds), st')) ∧
      (∀ x hs rest, HexNumeral hs → (x = 88 ∨ x = 120) →
        st.ahead.dropWhile aWhite = 48 :: x :: hs ++ rest → (∀ d ∈ rest.head?, mNumb d = false) →
          ∃ st', readToken st = some (.snum (hexValue hs), st')) := by
  obtain ⟨t, hread⟩ : ∃ t, Reading size st t :=
    run_invariant (fun s i s' hs hC hstep => Reading.step hs hC hstep) ⟨str, reading_start h0 hsize⟩
      hroom hrun
  obtain ⟨hends, hinside⟩ := hread.inside_iff
  rw [hread.ahead]
  exact ⟨hends, hinside, fun s rest hskip => hread.literal hskip,
    fun ds rest hds hskip hrest => hread.dec hds hskip hrest,
    fun x hs rest hhs hx hskip hrest => hread.hex hhs hx hskip hrest⟩

/-- A literal before a semicolon -/
theorem readToken_right_quote :
    LiteralRead (Lex.start (quoted [97, 39] ++ [59]) (fun _ => 0) 14) [97, 39] [59] ∧
      Inside (Lex.start (quoted [97, 39] ++ [59]) (fun _ => 0) 14) := by
  have hright := readToken_right_iff (by decide) (by decide)
    (show run lexStep (Lex.start (quoted [97, 39] ++ [59]) (fun _ => 0) 14) [] = .ok _ from rfl) trivial
  have hbehind : Behind [59] := fun c hc => by
    obtain rfl : (59 : UInt8) = c := Option.some.inj hc
    decide
  refine ⟨(hright.2.2.1 _ _ rfl).mpr hbehind, hright.2.1.mpr fun hahead => ?_⟩
  exact absurd hahead (by decide)

/-- A statement that is empty is read outside of the text buffer, and the letter behind a
literal is not left as it is. -/
theorem readToken_not_right :
    (¬∀ (str : List UInt8) (buf : ℕ → UInt8) (size : ℕ), (0 : UInt8) ∉ str →
      2 * (str.length + 1) ≤ size → Inside (Lex.start str buf size)) ∧
    ¬∀ (s rest : List UInt8) (buf : ℕ → UInt8) (size : ℕ), (0 : UInt8) ∉ quoted s ++ rest →
      2 * ((quoted s ++ rest).length + 1) ≤ size →
        LiteralRead (Lex.start (quoted s ++ rest) buf size) s rest := by
  constructor
  · intro hall
    obtain ⟨tok, st', hrun, hinside⟩ := hall [] (fun _ => 0) 2 List.not_mem_nil (Nat.le_refl 2)
    have hwritten : (readToken (Lex.start [] (fun _ => 0) 2)).map (fun r => r.2.outside) = some true := by
      decide
    rw [hrun] at hwritten
    have houtside : st'.outside = true := Option.some.inj hwritten
    rw [hinside] at houtside
    cases houtside
  · intro hall
    obtain ⟨p, st', hrun, -, hahead⟩ := hall [97] [98] (fun _ => 0) 10 (by decide) (by decide)
    have hupper : (readToken (Lex.start (quoted [97] ++ [98]) (fun _ => 0) 10)).map (fun r => r.2.ahead) =
        some [66] := by
      decide
    rw [hrun] at hupper
    have hleft : st'.ahead = [66] := Option.some.inj hupper
    rw [hahead] at hleft
    exact absurd hleft (by decide)

end PaxosSolutions.XjPing
