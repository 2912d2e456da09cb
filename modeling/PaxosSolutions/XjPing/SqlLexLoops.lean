import PaxosSolutions.XjPing.SqlLexText

/-!
# What one token takes from the statement

A loop over a mask takes the longest text of its characters and the one behind it. The
loop of a literal takes what is before the closing quote, a quote for every two.
-/
namespace PaxosSolutions.XjPing

variable {N y fuel : ℕ} {st : Lex} {t w : List UInt8} {c : UInt8} {mask : LexMask} {x : LexMask × ℤ}

/-! ### The masks -/

theorem LexMask.has_zero (mask : LexMask) : mask.has 0 = false := by
  cases mask <;> decide

theorem strStep_has (x : LexMask × ℤ) (c : UInt8) : (strStep x c).1.has = x.1.has := by
  obtain ⟨mask, n⟩ := x
  cases mask with
  | str => rfl
  | numb =>
      unfold strStep
      split
      · rfl
      split
      · rfl
      rfl
  | hex =>
      unfold strStep
      split
      · rfl
      split
      · rfl
      split
      · split
        · rfl
        · rfl
      · rfl

theorem skipLoop_succ (mask : LexMask) (fuel : ℕ) (st : Lex) : skipLoop mask (fuel + 1) st =
    if mask.has st.input.1 then (skipLoop mask fuel st.input.2).map fun r => (st.input.1 :: r.1, r.2)
    else some ([], st.input.1, st.input.2) := rfl

theorem strLoop_succ (fuel : ℕ) (x : LexMask × ℤ) (st : Lex) : strLoop (fuel + 1) x st =
    if x.1.has st.input.1 then strLoop fuel (strStep x st.input.1) st.input.2
    else some (st.input.1, x, st.input.2) := rfl

theorem skipLoop_congr {m m' : LexMask} (h : m.has = m'.has) (fuel : ℕ) (st : Lex) :
    skipLoop m fuel st = skipLoop m' fuel st := by
  induction fuel generalizing st with
  | zero => rfl
  | succ fuel ih =>
      rw [skipLoop_succ, skipLoop_succ, h, ih st.input.2]

/-- The first loop of `more_str` takes what a loop over its mask takes. -/
theorem strLoop_eq (fuel : ℕ) (x : LexMask × ℤ) (st : Lex) :
    strLoop fuel x st = (skipLoop x.1 fuel st).map fun r => (r.2.1, r.1.foldl strStep x, r.2.2) := by
  induction fuel generalizing x st with
  | zero => rfl
  | succ fuel ih =>
      rw [strLoop_succ, skipLoop_succ]
      by_cases hc : x.1.has st.input.1 = true
      · rw [if_pos hc, if_pos hc, ih, skipLoop_congr (strStep_has x st.input.1), Option.map_map]
        rfl
      · rw [if_neg hc, if_neg hc]
        rfl

theorem skipLoop_spec (mask : LexMask) (h : Lexed N st t w y) (hroom : y + w.length + t.length + 1 < N)
    (hfuel : t.length < fuel) : ∃ st',
      skipLoop mask fuel st = some (t.takeWhile mask.has, (t.dropWhile mask.has).headD 0, st') ∧
        Lexed N st' (t.dropWhile mask.has).tail
          (w ++ t.takeWhile mask.has ++ [(t.dropWhile mask.has).headD 0]) y := by
  induction t generalizing fuel st w with
  | nil =>
      obtain ⟨fuel, rfl⟩ := Nat.exists_eq_succ_of_ne_zero (Nat.ne_zero_of_lt hfuel)
      obtain ⟨hc, hin⟩ := h.input (by omega)
      refine ⟨st.input.2, ?_, ?_⟩
      · rw [skipLoop_succ, hc, List.headD_nil, mask.has_zero]
        rfl
      · rw [List.takeWhile_nil, List.append_nil]
        exact hin
  | cons c t ih =>
      obtain ⟨fuel, rfl⟩ := Nat.exists_eq_succ_of_ne_zero (Nat.ne_zero_of_lt hfuel)
      rw [List.length_cons] at hroom hfuel
      obtain ⟨hc, hin⟩ := h.input (by omega)
      rw [List.headD_cons] at hc hin
      rw [List.tail_cons] at hin
      by_cases hm : mask.has c = true
      · obtain ⟨st', hloop, hst⟩ := ih hin (by rw [List.length_append, List.length_singleton]; omega)
          (Nat.lt_of_succ_lt_succ hfuel)
        rw [List.takeWhile_cons_of_pos hm, List.dropWhile_cons_of_pos hm]
        refine ⟨st', ?_, ?_⟩
        · rw [skipLoop_succ, hc, if_pos hm, hloop]
          rfl
        · rwa [List.append_assoc w, List.singleton_append] at hst
      · rw [List.takeWhile_cons_of_neg hm, List.dropWhile_cons_of_neg hm, List.append_nil]
        refine ⟨st.input.2, ?_, hin⟩
        rw [skipLoop_succ, hc, if_neg hm]
        rfl

/-! ### Names and numbers -/

/-- What is ahead when a loop over a mask has put its last character back -/
theorem skipLoop_back (mask : LexMask) (h : Lexed N st t w y) (hroom : y + w.length + t.length + 1 < N)
    (hfuel : t.length < fuel) : ∃ st',
      skipLoop mask fuel st = some (t.takeWhile mask.has, (t.dropWhile mask.has).headD 0, st') ∧
        Lexed N (st'.unput ((t.dropWhile mask.has).headD 0)) (t.dropWhile mask.has)
          (w ++ t.takeWhile mask.has) y := by
  obtain ⟨st', hloop, hst⟩ := skipLoop_spec mask h hroom hfuel
  refine ⟨st', hloop, hst.back ?_ ?_⟩
  · exact fun h0 => h.nonul ((List.dropWhile_sublist mask.has).subset h0)
  · have hlen := (List.takeWhile_sublist (l := t) mask.has).length_le
    rw [List.length_append]
    omega

/-- A constant that goes on with a name: the text grows by the name and a place before it. -/
theorem badConst_spec (h : Lexed N st t w y) (hroom : t ≠ [] → y + w.length + t.length + 2 < N)
    (hfuel : t.length < fuel) : ∃ st' u, badConst fuel (t.headD 0) st = some st' ∧
      Lexed N st' (t.dropWhile mStr) (w ++ u) y ∧
        u.length + 2 * (t.dropWhile mStr).length ≤ 2 * t.length := by
  unfold badConst
  cases t with
  | nil => exact ⟨st, [], rfl, by rwa [List.append_nil], Nat.le_refl 0⟩
  | cons c t =>
      by_cases hc : mStr c = true
      · have hlong := hroom (List.cons_ne_nil c t)
        obtain ⟨st', hloop, hst⟩ := skipLoop_back .str h.pass
          (by rw [List.length_append, List.length_singleton]; omega) hfuel
        rw [List.headD_cons, if_pos hc, hloop]
        rw [List.append_assoc, List.singleton_append] at hst
        refine ⟨_, _, rfl, hst, ?_⟩
        have hlen := congrArg List.length (List.takeWhile_append_dropWhile (p := mStr) (l := c :: t))
        rw [List.length_append, List.takeWhile_cons_of_pos hc, List.length_cons] at hlen
        change ((c :: t).takeWhile mStr).length + 1 + _ ≤ _
        rw [List.takeWhile_cons_of_pos hc, List.length_cons]
        omega
      · rw [List.headD_cons, if_neg hc, List.dropWhile_cons_of_neg hc]
        exact ⟨st, [], rfl, by rwa [List.append_nil], by rw [List.length_nil, Nat.zero_add]⟩

/-- What `more_str` has when its first loop ends -/
def strEnd (mask : LexMask) (t : List UInt8) : LexMask × ℤ := (t.takeWhile mask.has).foldl strStep (mask, 0)

/-- A number that goes on with a point -/
def isFloat (mask : LexMask) (t : List UInt8) : Bool :=
  (strEnd mask t).1 = .numb && (t.dropWhile mask.has).headD 0 = 46

/-- A call ends, and keeps what it has read in the text buffer. Twice what it takes from
`n` characters makes up for what it keeps and one place before it. -/
def Moves (N : ℕ) (o : Option (LexTok × Lex)) (n y : ℕ) : Prop :=
  ∃ tok st t w, o = some (tok, st) ∧ Lexed N st t w y ∧ 1 + w.length + 2 * t.length ≤ 2 * n

theorem length_mask (mask : LexMask) (t : List UInt8) :
    (t.takeWhile mask.has).length + (t.dropWhile mask.has).length = t.length := by
  rw [← List.length_append, List.takeWhile_append_dropWhile]

theorem moreStr_float (h : Lexed N st t w y) (hroom : y + w.length + t.length + 1 < N)
    (hfuel : t.length < fuel) (hfloat : isFloat mask t = true) :
    Moves N (moreStr fuel mask st) (w.length + t.length) y := by
  obtain ⟨st1, hloop, hst1⟩ := skipLoop_spec mask h hroom hfuel
  have hlen := length_mask mask t
  have hlen2 := length_mask .numb (t.dropWhile mask.has).tail
  have htail : (t.dropWhile mask.has).length = (t.dropWhile mask.has).tail.length + 1 := by
    unfold isFloat at hfloat
    cases hrest : t.dropWhile mask.has with
    | nil =>
        rw [hrest] at hfloat
        exact absurd ((Bool.and_eq_true _ _).mp hfloat).2 (by decide)
    | cons c rest => rfl
  obtain ⟨st2, hloop2, hst2⟩ := skipLoop_back .numb hst1
    (by simp only [List.length_append, List.length_singleton]; omega)
    (show (t.dropWhile mask.has).tail.length < fuel by omega)
  refine ⟨.sfloat (strEnd mask t).2 ((t.dropWhile mask.has).tail.takeWhile LexMask.numb.has),
    _, _, _, ?_, hst2, ?_⟩
  · unfold moreStr
    rw [strLoop_eq, hloop]
    change (if isFloat mask t = true then _ else _) = _
    rw [if_pos hfloat]
    change (skipLoop .numb fuel st1 >>= _) = _
    rw [hloop2]
    rfl
  · simp only [List.length_append, List.length_singleton]
    omega

theorem moreStr_const (h : Lexed N st t w y) (hroom : y + w.length + t.length + 1 < N)
    (hmore : t.dropWhile mask.has ≠ [] → y + w.length + t.length + 2 < N) (hfuel : t.length < fuel)
    (hfloat : isFloat mask t = false) : ∃ tok st' u,
      moreStr fuel mask st = some (tok, st') ∧
        Lexed N st' ((t.dropWhile mask.has).dropWhile mStr) (w ++ t.takeWhile mask.has ++ u) y ∧
        u.length + 2 * ((t.dropWhile mask.has).dropWhile mStr).length ≤ 2 * (t.dropWhile mask.has).length ∧
        ((strEnd mask t).1 ≠ .str → tok = .snum ((strEnd mask t).2.bmod (2 ^ 64))) := by
  obtain ⟨st1, hloop, hst1⟩ := skipLoop_back mask h hroom hfuel
  have hlen := length_mask mask t
  obtain ⟨st2, u, hbad, hst2, hu⟩ := badConst_spec hst1
    (fun hne => by
      have hlong := hmore hne
      rw [List.length_append]
      omega) (show _ < fuel by omega)
  have hend : moreStr fuel mask st = some (if (strEnd mask t).1 = .str then
      (((sqlkey (st2.cstr st2.yytext)).map LexTok.skey).getD (.sname st2.yytext), st2)
    else (.snum ((strEnd mask t).2.bmod (2 ^ 64)), st2)) := by
    unfold moreStr
    rw [strLoop_eq, hloop]
    change (if isFloat mask t = true then _ else _) = _
    rw [hfloat]
    change (badConst fuel _ _ >>= _) = _
    rw [hbad]
    change (if (strEnd mask t).1 = .str then _ else _) = _
    split
    · rfl
    · rfl
  by_cases hstr : (strEnd mask t).1 = .str
  · rw [if_pos hstr] at hend
    exact ⟨_, st2, u, hend, hst2, hu, fun hne => absurd hstr hne⟩
  · rw [if_neg hstr] at hend
    exact ⟨_, st2, u, hend, hst2, hu, fun _ => rfl⟩

/-- What `more_str` leaves. The text of its token is not empty. -/
theorem moreStr_moves (h : Lexed N st t w y) (hroom : y + w.length + t.length + 1 < N)
    (hmore : 1 < w.length + t.length → y + w.length + t.length + 2 < N) (hfuel : t.length < fuel)
    (hstart : w ≠ [] ∨ t.takeWhile mask.has ≠ [] ∨ isFloat mask t = true) :
    Moves N (moreStr fuel mask st) (w.length + t.length) y := by
  by_cases hfloat : isFloat mask t = true
  · exact moreStr_float h hroom hfuel hfloat
  · have hlen := length_mask mask t
    have htaken : 1 ≤ w.length + (t.takeWhile mask.has).length := by
      rcases hstart with hw | ht | hf
      · have hpos := List.length_pos_iff.mpr hw
        omega
      · have hpos := List.length_pos_iff.mpr ht
        omega
      · exact absurd hf hfloat
    obtain ⟨tok, st', u, hrun, hst, hu, -⟩ := moreStr_const h hroom
      (fun hne => by
        have hpos := List.length_pos_iff.mpr hne
        exact hmore (by omega)) hfuel (Bool.eq_false_iff.mpr hfloat)
    refine ⟨tok, st', _, _, hrun, hst, ?_⟩
    rw [List.length_append, List.length_append]
    omega

/-! ### Literals -/

/-- The content of a literal whose quote has been read, and what is behind it if it is
closed -/
def litRead : List UInt8 → List UInt8 × Option (List UInt8)
  | [] => ([], none)
  | [c] => if c = A_QUOTE then ([], some []) else ([c], none)
  | c :: d :: t =>
      if c = A_QUOTE then
        if d = A_QUOTE then (A_QUOTE :: (litRead t).1, (litRead t).2) else ([], some (d :: t))
      else (c :: (litRead (d :: t)).1, (litRead (d :: t)).2)

/-- A string with every quote doubled -/
def doubled (s : List UInt8) : List UInt8 := s.flatMap fun c => if c = A_QUOTE then [c, c] else [c]

theorem litRead_other (hc : c ≠ A_QUOTE) (t : List UInt8) :
    litRead (c :: t) = (c :: (litRead t).1, (litRead t).2) := by
  cases t with
  | nil => exact if_neg hc
  | cons d t => exact if_neg hc

theorem litRead_two (t : List UInt8) :
    litRead (A_QUOTE :: A_QUOTE :: t) = (A_QUOTE :: (litRead t).1, (litRead t).2) := rfl

theorem litRead_close (ht : t.head? ≠ some A_QUOTE) : litRead (A_QUOTE :: t) = ([], some t) := by
  cases t with
  | nil => rfl
  | cons d t => exact if_neg fun hd => ht (congrArg some hd)

theorem litRead_doubled (s t : List UInt8) :
    litRead (doubled s ++ t) = (s ++ (litRead t).1, (litRead t).2) := by
  induction s with
  | nil => rfl
  | cons c s ih =>
      change litRead ((if c = A_QUOTE then [c, c] else [c]) ++ doubled s ++ t) = _
      rw [List.append_assoc]
      by_cases hc : c = A_QUOTE
      · subst hc
        rw [if_pos rfl]
        change litRead (A_QUOTE :: A_QUOTE :: (doubled s ++ t)) = _
        rw [litRead_two, ih]
        rfl
      · rw [if_neg hc]
        change litRead (c :: (doubled s ++ t)) = _
        rw [litRead_other hc, ih]
        rfl

theorem literalLoop_succ (fuel : ℕ) (st : Lex) : literalLoop (fuel + 1) st =
    if st.input.1 = 0 then some (st.input.1, st.input.2)
    else if st.input.1 = A_QUOTE then
      if st.input.2.input.1 ≠ A_QUOTE then some (st.input.2.input.1, st.input.2.input.2)
      else literalLoop fuel st.input.2.input.2.dropChar
    else literalLoop fuel st.input.2 := rfl

/-- What is left behind a literal -/
def litRest (t : List UInt8) : List UInt8 := (litRead t).2.getD []

/-- What the loop of `cl_literal` has read last, from the content on -/
def litEnd (t : List UInt8) : List UInt8 :=
  if (litRead t).2 = none then [0] else [A_QUOTE, (litRest t).headD 0]

/-- The loop of `cl_literal` ends at `a` with the content, the quote and a character more. -/
structure LitEnds (N : ℕ) (o : Option (UInt8 × Lex)) (t w : List UInt8) (y : ℕ) : Prop where
  ends : ∃ st', o = some ((litRest t).headD 0, st') ∧
    Lexed N st' (litRest t).tail (w ++ (litRead t).1 ++ litEnd t) y
  length : (litRead t).1.length + (litEnd t).length + (litRest t).length ≤ t.length + 1

theorem head_ne_quote (ht : t.head? ≠ some A_QUOTE) : t.headD 0 ≠ A_QUOTE := by
  cases t with
  | nil => decide
  | cons d t => exact fun hd : d = A_QUOTE => ht (congrArg some hd)

theorem literalLoop_spec (h : Lexed N st t w y) (hroom : y + w.length + t.length + 1 < N)
    (hfuel : t.length < fuel) : LitEnds N (literalLoop fuel st) t w y := by
  induction fuel generalizing st t w with
  | zero => exact absurd hfuel (Nat.not_lt_zero _)
  | succ fuel ih =>
      obtain ⟨hc, hin⟩ := h.input (by omega)
      rw [literalLoop_succ, hc]
      cases t with
      | nil =>
          refine ⟨⟨st.input.2, rfl, ?_⟩, Nat.le_refl 1⟩
          change Lexed N st.input.2 [] (w ++ [] ++ [0]) y
          rwa [List.append_nil]
      | cons c t =>
          rw [List.length_cons] at hroom hfuel
          rw [List.headD_cons, List.tail_cons] at hin
          have hc0 : c ≠ 0 := fun h0 => h.nonul (h0 ▸ List.mem_cons_self)
          have hlen : (w ++ [c]).length = w.length + 1 := by
            rw [List.length_append, List.length_singleton]
          rw [List.headD_cons, if_neg hc0]
          by_cases hq : c = A_QUOTE
          · subst hq
            obtain ⟨hc2, hin2⟩ := hin.input (by omega)
            rw [if_pos rfl, hc2]
            by_cases ht : t.head? = some A_QUOTE
            · -- two quotes: the second one goes out of the text
              obtain ⟨r, rfl⟩ : ∃ r, t = A_QUOTE :: r := List.head?_eq_some_iff.mp ht
              rw [List.length_cons] at hroom hfuel
              rw [List.tail_cons] at hin2
              have hdrop := hin2.dropChar (by omega)
              obtain ⟨⟨st', hloop, hst⟩, hsum⟩ := ih hdrop (by omega) (by omega)
              rw [List.append_assoc w] at hst
              refine ⟨⟨st', hloop, hst⟩, ?_⟩
              change (litRead r).1.length + 1 + (litEnd r).length + (litRest r).length ≤ r.length + 1 + 1 + 1
              omega
            · rw [if_pos (head_ne_quote ht)]
              have hread := litRead_close ht
              have hrest : litRest (A_QUOTE :: t) = t := by rw [litRest, hread]; rfl
              have hend : litEnd (A_QUOTE :: t) = [A_QUOTE, t.headD 0] := by
                rw [litEnd, hread, hrest]
                rfl
              refine ⟨⟨st.input.2.input.2, ?_, ?_⟩, ?_⟩
              · rw [hrest]
              · rw [hrest, hend, hread, List.append_nil]
                rwa [List.append_assoc] at hin2
              · rw [hrest, hend, hread]
                change 0 + 2 + t.length ≤ t.length + 1 + 1
                omega
          · obtain ⟨⟨st', hloop, hst⟩, hsum⟩ := ih hin (by omega) (by omega)
            have hread := litRead_other hq t
            have hrest : litRest (c :: t) = litRest t := by rw [litRest, hread]; rfl
            have hend : litEnd (c :: t) = litEnd t := by rw [litEnd, hread, hrest]; rfl
            rw [if_neg hq]
            refine ⟨⟨st', ?_, ?_⟩, ?_⟩
            · rw [hrest, hloop]
            · rw [hrest, hend, hread]
              rwa [List.append_assoc w] at hst
            · rw [hrest, hend, hread, List.length_cons, List.length_cons]
              omega

theorem litRest_suffix (t : List UInt8) : litRest t <:+ t := by
  induction t using litRead.induct with
  | case1 => exact List.suffix_refl _
  | case2 => exact List.nil_suffix
  | case3 c hc =>
      rw [litRest, litRead_other hc]
      exact List.nil_suffix
  | case4 t ih =>
      rw [litRest, litRead_two]
      exact (ih.trans (List.suffix_cons _ _)).trans (List.suffix_cons _ _)
  | case5 d t hd =>
      have hclose : litRead (A_QUOTE :: d :: t) = ([], some (d :: t)) := if_neg hd
      rw [litRest, hclose]
      exact List.suffix_cons _ _
  | case6 c d t hc ih =>
      rw [litRest, litRead_other hc]
      exact ih.trans (List.suffix_cons _ _)

theorem toUpper_eq_zero (c : UInt8) (h : toUpper c = 0) : c = 0 := by
  unfold toUpper isLower at h
  grind

theorem pushed_toUpper (h : (0 : UInt8) ∉ t) :
    pushed (toUpper (t.headD 0)) t.tail = t.modifyHead toUpper := by
  cases t with
  | nil => rfl
  | cons c t =>
      exact if_neg fun hc : toUpper c = 0 => h (toUpper_eq_zero c hc ▸ List.mem_cons_self)

/-- A literal that is closed: the character behind it is put back in upper case. -/
theorem clLiteral_closed (h : Lexed N st t w y) (hroom : y + w.length + t.length + 1 < N)
    (hfuel : t.length < fuel) {r : List UInt8} (hr : (litRead t).2 = some r) : ∃ st',
      clLiteral fuel st = some (.sstring (y + 1), st') ∧
        Lexed N st' (r.modifyHead toUpper) (w ++ (litRead t).1 ++ [0]) y ∧
        (litRead t).1.length + 1 + r.length ≤ t.length := by
  have hrest : litRest t = r := by rw [litRest, hr]; rfl
  have hend : litEnd t = [A_QUOTE, r.headD 0] := by
    rw [litEnd, hr, hrest]
    rfl
  have hnonul : (0 : UInt8) ∉ r := fun hmem => h.nonul ((litRest_suffix t).subset (hrest ▸ hmem))
  obtain ⟨⟨st1, hloop, hst1⟩, hsum⟩ := literalLoop_spec h hroom hfuel
  rw [hrest] at hloop hst1 hsum
  rw [hend] at hst1 hsum
  change _ + 2 + _ ≤ _ at hsum
  have hsplit : w ++ (litRead t).1 ++ [A_QUOTE, r.headD 0] =
      w ++ (litRead t).1 ++ [A_QUOTE] ++ [r.headD 0] := (List.append_assoc _ [A_QUOTE] _).symm
  rw [hsplit] at hst1
  have hlen : (w ++ (litRead t).1 ++ [A_QUOTE]).length = w.length + (litRead t).1.length + 1 := by
    rw [List.length_append, List.length_append, List.length_singleton]
  have hput := hst1.unput (c := toUpper (r.headD 0)) (by omega) fun h0 => by
    have hhead := toUpper_eq_zero _ h0
    cases r with
    | nil => rfl
    | cons c r => exact absurd (List.mem_cons.mpr (Or.inl hhead.symm)) hnonul
  rw [pushed_toUpper hnonul] at hput
  have hcut := hput.cut (by rw [List.length_append]; omega)
  refine ⟨_, ?_, hcut, ?_⟩
  · unfold clLiteral
    rw [hloop, ← hput.yytext]
    rfl
  · omega

/-- A literal that is not closed ends with the statement. -/
theorem clLiteral_open (h : Lexed N st t w y) (hroom : y + w.length + t.length + 1 < N)
    (hfuel : t.length < fuel) (hw : w ≠ []) (hr : (litRead t).2 = none) : ∃ tok st' w',
      clLiteral fuel st = some (tok, st') ∧ Lexed N st' [] w' y ∧
        w'.length = w.length + (litRead t).1.length ∧ (litRead t).1.length ≤ t.length := by
  have hrest : litRest t = [] := by rw [litRest, hr]; rfl
  have hend : litEnd t = [0] := by
    rw [litEnd, hr]
    rfl
  obtain ⟨⟨st1, hloop, hst1⟩, hsum⟩ := literalLoop_spec h hroom hfuel
  rw [hrest] at hloop hst1 hsum
  rw [hend] at hst1 hsum
  change _ + 1 + 0 ≤ _ at hsum
  have hlen : (w ++ (litRead t).1).length = w.length + (litRead t).1.length := List.length_append
  have hput := hst1.unput (c := toUpper 0) (by omega) fun _ => rfl
  have hpushed : pushed (toUpper 0) [] = [] := if_pos (by decide)
  rw [List.tail_nil, hpushed] at hput
  have hne : w ++ (litRead t).1 ≠ [] := fun hnil => hw (List.append_eq_nil_iff.mp hnil).1
  rw [← List.dropLast_append_getLast hne] at hput
  have hpos := List.length_pos_iff.mpr hne
  have hcut := hput.cut (by rw [List.length_dropLast]; omega)
  refine ⟨.sstring ((st1.unput (toUpper 0)).yytext + 1), _, _, ?_, hcut, ?_, by omega⟩
  · unfold clLiteral
    rw [hloop]
    rfl
  · rw [List.length_append, List.length_dropLast, List.length_singleton]
    omega

theorem clLiteral_moves (h : Lexed N st t w y) (hroom : y + w.length + t.length + 1 < N)
    (hfuel : t.length < fuel) (hw : w ≠ []) : Moves N (clLiteral fuel st) (w.length + t.length) y := by
  have hpos := List.length_pos_iff.mpr hw
  cases hr : (litRead t).2 with
  | none =>
      obtain ⟨tok, st', w', hrun, hst, hlen, hcontent⟩ := clLiteral_open h hroom hfuel hw hr
      refine ⟨tok, st', [], w', hrun, hst, ?_⟩
      rw [List.length_nil]
      omega
  | some r =>
      obtain ⟨st', hrun, hst, hcontent⟩ := clLiteral_closed h hroom hfuel hr
      refine ⟨_, st', _, _, hrun, hst, ?_⟩
      rw [List.length_append, List.length_append, List.length_singleton, List.length_modifyHead]
      omega

end PaxosSolutions.XjPing
