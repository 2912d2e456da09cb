import PaxosSolutions.NWGadget.BTreeSlots

/-!
# What the operations leave on the pages

The three ways to insert into a full page leave the two halves of the row of
entries with the new one in it; what the four ways to help a page that has too
few leave is a row across two neighbours and the item between them, divided at
another place or put together.
-/
namespace PaxosSolutions.NWGadget
open Lib BTHeap

variable {α : Type} [Inhabited α]

/-- A row of entries with a new one after entry `R`. -/
def widened (e : ℕ → α × Option BTAddr) (R : ℕ) (x : α × Option BTAddr) (r : ℕ) :
    α × Option BTAddr :=
  if r ≤ R then e r else if r = R + 1 then x else e (r - 1)

/-- The row of the entries after entry `i`, whose child comes first. -/
def rowAfter (e : ℕ → α × Option BTAddr) (i r : ℕ) : α × Option BTAddr :=
  if r = 0 then (default, (e i).2) else e (i + r)

/-- The rows of two neighbours and the item between them in one. -/
def rowAcross (e : ℕ → α × Option BTAddr) (m : ℕ) (item : α) (f : ℕ → α × Option BTAddr) (r : ℕ) :
    α × Option BTAddr :=
  if r ≤ m then e r else if r = m + 1 then (item, (f 0).2) else f (r - m - 1)

/-- A page has `m` items in the row `e`, and its children know where they are. -/
structure Holds (h : BTHeap α) (p : BTAddr) (m : ℕ) (e : ℕ → α × Option BTAddr) : Prop where
  count : (h p).pM = m
  ent : ∀ r ≤ m, h.ent p r = e r
  link : ∀ r ≤ m, ∀ c, (e r).2 = some c → h.link c = (some p, r)

/-- No child is twice in a row. -/
def RowOnce (e : ℕ → α × Option BTAddr) (m : ℕ) : Prop :=
  ∀ r s c, r ≤ m → s ≤ m → (e r).2 = some c → (e s).2 = some c → r = s

/-- Outside of `P` the pages are as before, and the pages that are not in `C` say
the same of where they are. -/
structure Beside (h h' : BTHeap α) (P C : BTAddr → Prop) : Prop where
  ent : ∀ p, ¬ P p → ∀ r, h'.ent p r = h.ent p r
  count : ∀ p, ¬ P p → (h' p).pM = (h p).pM
  link : ∀ c, ¬ C c → h'.link c = h.link c

section Insert
variable {h : BTHeap α} {a b : BTAddr} {m n R : ℕ} {V : α} {pR : Option BTAddr}
  {e : ℕ → α × Option BTAddr}

theorem Holds.once (hh : Holds h a m e) : RowOnce e m := by
  intro r s c hr hs hcr hcs
  have hlink := (hh.link r hr c hcr).symm.trans (hh.link s hs c hcs)
  exact (Prod.mk.inj hlink).2

omit [Inhabited α] in
theorem widened_once (he : RowOnce e m) (hR : R ≤ m)
    (hnew : ∀ c, pR = some c → ∀ r ≤ m, (e r).2 ≠ some c) :
    RowOnce (widened e R (V, pR)) (m + 1) := by
  intro r s c hr hs hcr hcs
  unfold widened at hcr hcs
  split_ifs at hcr hcs with h₁ h₂ h₃ h₄ h₅ h₆ h₇ h₈
  · exact he r s c (by omega) (by omega) hcr hcs
  · exact absurd hcr (hnew c hcs r (by omega))
  · have := he r (s - 1) c (by omega) (by omega) hcr hcs
    omega
  · exact absurd hcs (hnew c hcr s (by omega))
  · omega
  · exact absurd hcs (hnew c hcr (s - 1) (by omega))
  · have := he (r - 1) s c (by omega) (by omega) hcr hcs
    omega
  · exact absurd hcr (hnew c hcs (r - 1) (by omega))
  · have := he (r - 1) (s - 1) c (by omega) (by omega) hcr hcs
    omega

/-- An entry is put into a page. -/
theorem insertAt_holds (hh : Holds h a m e) (hR : R ≤ m)
    (hnew : ∀ c, pR = some c → ∀ r ≤ m, (e r).2 ≠ some c) :
    Holds (BTree.insertAt a R V pR h) a (m + 1) (widened e R (V, pR)) ∧
      Beside h (BTree.insertAt a R V pR h) (· = a)
        (fun c => ∃ r ≤ m + 1, (widened e R (V, pR) r).2 = some c) := by
  let F : BTAddr → ℕ → α × Option BTAddr := fun p r =>
    if p = a ∧ r ≤ m + 1 then widened e R (V, pR) r else (default, none)
  have hFa : ∀ r ≤ m + 1, F a r = widened e R (V, pR) r := fun r hr => if_pos ⟨rfl, hr⟩
  have hF : Once F := by
    intro p r q s c hcr hcs
    simp only [F] at hcr hcs
    split_ifs at hcr hcs with h₁ h₂
    exact ⟨h₁.1.trans h₂.1.symm, widened_once hh.once hR hnew r s c h₁.2 h₂.2 hcr hcs⟩
  have hmove : Wrote F (slots a (R + 2) (R + 2 + (m + 1 - (R + 1)))) h
      (forDown m (R + 1) (fun i => btMove a (i + 1) a i) h) := by
    refine Wrote.down (f := fun i => i + 1) (g := fun i => i) hF (by omega) ?_ (by omega) ?_ ?_ ?_
    · intro i hi _
      omega
    · intro i hi _
      omega
    · intro i hi hm
      rw [hFa _ (by omega), hh.ent i hm]
      unfold widened
      rw [if_neg (by omega), if_neg (by omega), Nat.add_sub_cancel]
    · intro i j hi hij _ _
      omega
  have hset : Wrote F {(a, R + 1)} (forDown m (R + 1) (fun i => btMove a (i + 1) a i) h)
      ((forDown m (R + 1) (fun i => btMove a (i + 1) a i) h).btSet a (R + 1) V pR) := by
    refine Wrote.set (by omega) ?_
    rw [hFa _ (by omega)]
    unfold widened
    rw [if_neg (by omega), if_pos rfl]
  have hw := hmove.trans hF hset
  have hall : ∀ r ≤ m + 1, (a, r) ∉ slots a (R + 2) (R + 2 + (m + 1 - (R + 1))) ∪ {(a, R + 1)} →
      r ≤ R := by
    intro r hr hnot
    by_contra hlt
    refine hnot ?_
    by_cases hr1 : r = R + 1
    · exact .inr (by simp [hr1])
    · exact .inl ⟨rfl, by simp only; omega, by simp only; omega⟩
  have hwide : ∀ r ≤ R, widened e R (V, pR) r = e r := fun r hr => if_pos hr
  unfold BTree.insertAt
  simp only [hh.count]
  have hcount := hw.count a
  rw [hh.count] at hcount
  rw [hcount]
  refine ⟨⟨?_, ?_, ?_⟩, ⟨?_, ?_, ?_⟩⟩
  · rw [m_setM, if_pos rfl]
  · intro r hr
    rw [ent_setM, hw.table, hFa r hr]
    intro hnot
    have hle := hall r hr hnot
    rw [hFa r hr, hwide r hle, hh.ent r (by omega)]
  · intro r hr c hc
    rw [link_setM]
    refine hw.placed hF (by rw [hFa r hr]; exact hc) ?_
    intro hnot
    have hle := hall r hr hnot
    rw [hwide r hle] at hc
    exact hh.link r (by omega) c hc
  · intro p hp r
    rw [ent_setM, hw.kept]
    rintro (⟨h, -⟩ | h)
    · exact hp h
    · exact hp (Prod.mk.inj h).1
  · intro p hp
    rw [m_setM, if_neg hp, hw.count]
  · intro c hc
    rw [link_setM, hw.free]
    intro p r _ hcr
    simp only [F] at hcr
    split_ifs at hcr with hp
    exact hc ⟨r, hp.2, hcr⟩

theorem rowAfter_child (e : ℕ → α × Option BTAddr) (i r : ℕ) :
    (rowAfter e i r).2 = (e (i + r)).2 := by
  unfold rowAfter
  split_ifs with hr
  · rw [hr, Nat.add_zero]
  · rfl

theorem rowAfter_of_pos (hr : 1 ≤ R) : rowAfter e n R = e (n + R) := if_neg (by omega)

theorem pPages_eq (h : BTHeap α) (p : BTAddr) (r : ℕ) : (h p).pPages r = (h.ent p r).2 := rfl

theorem pItems_eq (h : BTHeap α) (p : BTAddr) (r : ℕ) : (h p).pItems r = (h.ent p (r + 1)).1 := by
  unfold ent
  rw [if_neg (by omega), Nat.add_sub_cancel]

/-- The rows of the two halves of a page that is split. -/
def splitRows (a b : BTAddr) (n : ℕ) (full : ℕ → α × Option BTAddr) (p : BTAddr) (r : ℕ) :
    α × Option BTAddr :=
  if p = a ∧ r ≤ n then full r
  else if p = b ∧ r ≤ n then rowAfter full (n + 1) r
  else (default, none)

theorem splitRows_left {full : ℕ → α × Option BTAddr} {r : ℕ} (hr : r ≤ n) :
    splitRows a b n full a r = full r := if_pos ⟨rfl, hr⟩

theorem splitRows_right {full : ℕ → α × Option BTAddr} {r : ℕ} (hab : b ≠ a) (hr : r ≤ n) :
    splitRows a b n full b r = rowAfter full (n + 1) r := by
  unfold splitRows
  rw [if_neg (mt And.left hab), if_pos ⟨rfl, hr⟩]

theorem splitRows_once {full : ℕ → α × Option BTAddr} (hfull : RowOnce full (2 * n + 1)) :
    Once (splitRows a b n full) := by
  intro p r q s c hcr hcs
  unfold splitRows at hcr hcs
  split_ifs at hcr with h₁ h₂
  · split_ifs at hcs with h₃ h₄
    · exact ⟨h₁.1.trans h₃.1.symm, hfull r s c (by omega) (by omega) hcr hcs⟩
    · rw [rowAfter_child] at hcs
      have := hfull r (n + 1 + s) c (by omega) (by omega) hcr hcs
      omega
  · rw [rowAfter_child] at hcr
    split_ifs at hcs with h₃ h₄
    · have := hfull (n + 1 + r) s c (by omega) (by omega) hcr hcs
      omega
    · rw [rowAfter_child] at hcs
      have := hfull (n + 1 + r) (n + 1 + s) c (by omega) (by omega) hcr hcs
      exact ⟨h₂.1.trans h₄.1.symm, by omega⟩

/-- Where the halves are written, and what is not written stays in its place. -/
theorem splitRows_holds {full : ℕ → α × Option BTAddr} {W : Set (BTAddr × ℕ)} {h' : BTHeap α}
    (hh : Holds h a (2 * n) e) (hab : b ≠ a) (hfull : RowOnce full (2 * n + 1))
    (hw : Wrote (splitRows a b n full) W h h') (hleft : ∀ r ≤ n, (a, r) ∉ W → full r = e r)
    (hright : ∀ r ≤ n, (b, r) ∈ W) (hsub : ∀ p r, (p, r) ∈ W → p = a ∨ p = b) :
    Holds ((h'.setM b n).setM a n) a n full ∧
      Holds ((h'.setM b n).setM a n) b n (rowAfter full (n + 1)) ∧
      Beside h ((h'.setM b n).setM a n) (fun p => p = a ∨ p = b)
        (fun c => ∃ r ≤ 2 * n + 1, (full r).2 = some c) := by
  have hF := splitRows_once (a := a) (b := b) hfull
  refine ⟨⟨?_, ?_, ?_⟩, ⟨?_, ?_, ?_⟩, ⟨?_, ?_, ?_⟩⟩
  · rw [m_setM, if_pos rfl]
  · intro r hr
    rw [ent_setM, ent_setM, hw.table, splitRows_left hr]
    intro hnot
    rw [splitRows_left hr, hleft r hr hnot, hh.ent r (by omega)]
  · intro r hr c hc
    rw [link_setM, link_setM]
    refine hw.placed hF (by rw [splitRows_left hr]; exact hc) ?_
    intro hnot
    rw [hleft r hr hnot] at hc
    exact hh.link r (by omega) c hc
  · rw [m_setM, if_neg hab, m_setM, if_pos rfl]
  · intro r hr
    rw [ent_setM, ent_setM, hw.done b r (hright r hr), splitRows_right hab hr]
  · intro r hr c hc
    rw [link_setM, link_setM]
    refine hw.link b r c (hright r hr) ?_
    rw [splitRows_right hab hr]
    exact hc
  · intro p hp r
    rw [ent_setM, ent_setM, hw.kept p r (mt (hsub p r) hp)]
  · intro p hp
    rw [m_setM, if_neg (mt .inl hp), m_setM, if_neg (mt .inr hp), hw.count]
  · intro c hc
    rw [link_setM, link_setM, hw.free]
    intro p r _ hcr
    unfold splitRows at hcr
    split_ifs at hcr with h₁ h₂
    · exact hc ⟨r, by omega, hcr⟩
    · rw [rowAfter_child] at hcr
      exact hc ⟨n + 1 + r, by omega, hcr⟩

end Insert

section Split
variable {h : BTHeap α} {a b : BTAddr} {n R : ℕ} {V : α} {pR : Option BTAddr}
  {e : ℕ → α × Option BTAddr}

/-- A full page with an entry more is split in halves. -/
theorem btSplit_holds (hh : Holds h a (2 * n) e) (hab : b ≠ a) (hR : R ≤ 2 * n)
    (hnew : ∀ c, pR = some c → ∀ r ≤ 2 * n, (e r).2 ≠ some c) {full : ℕ → α × Option BTAddr}
    (hfull : full = widened e R (V, pR)) {s : BTSplit α}
    (hs : s = btSplit n a b R V pR (e R).2 h) :
    s.up = (full (n + 1)).1 ∧ Holds s.heap a n full ∧ Holds s.heap b n (rowAfter full (n + 1)) ∧
      Beside h s.heap (fun p => p = a ∨ p = b)
        (fun c => ∃ r ≤ 2 * n + 1, (full r).2 = some c) := by
  have honce : RowOnce full (2 * n + 1) := hfull ▸ widened_once hh.once hR hnew
  have hF := splitRows_once (a := a) (b := b) honce
  have hlow : ∀ r ≤ R, full r = e r := fun r hr => hfull ▸ if_pos hr
  have hmid : full (R + 1) = (V, pR) := by
    rw [hfull]
    unfold widened
    rw [if_neg (by omega), if_pos rfl]
  have hhigh : ∀ i, R + 1 ≤ i → full (i + 1) = e i := by
    intro i hi
    rw [hfull]
    unfold widened
    rw [if_neg (by omega), if_neg (by omega), Nat.add_sub_cancel]
  subst hs
  unfold btSplit
  by_cases hRn : R ≤ n
  · simp only [if_pos hRn]
    -- the second half goes to the new page
    have hfirst : Wrote (splitRows a b n full) (slots b 1 (1 + (2 * n + 1 - (n + 1)))) h
        (forUp (n + 1) (2 * n) (fun i => btMove b (i - n) a i) h) := by
      refine Wrote.up (f := fun i => i - n) (g := fun i => i) hF (by omega) ?_ (by omega) ?_ ?_ ?_
      · intro i hi _
        omega
      · intro i hi _
        omega
      · intro i hi hm
        rw [splitRows_right hab (by omega), rowAfter_of_pos (by omega), hh.ent i hm,
          show n + 1 + (i - n) = i + 1 by omega, hhigh i (by omega)]
      · intro i j _ _ _ hq
        exact absurd hq hab.symm
    generalize forUp (n + 1) (2 * n) (fun i => btMove b (i - n) a i) h = h₁ at hfirst ⊢
    have hold : ∀ r ≤ 2 * n, h₁.ent a r = e r := by
      intro r hr
      rw [hfirst.kept a r fun hmem => hab hmem.1.symm, hh.ent r hr]
    by_cases hne : R ≠ n
    · simp only [if_pos hne]
      have hlt : R < n := by omega
      -- the last of the first half goes up, its child to the new page
      have hup : full (n + 1) = e n := hhigh n (by omega)
      have hset0 : Wrote (splitRows a b n full) {(b, 0)} h₁ (h₁.btSetN b 0 ((h₁ a).pPages n)) := by
        refine Wrote.setN ?_
        rw [splitRows_right hab (Nat.zero_le n), pPages_eq, hold n (by omega), ← hup]
        rfl
      have h₁₂ := hfirst.trans hF hset0
      generalize h₁.btSetN b 0 ((h₁ a).pPages n) = h₂ at h₁₂ ⊢
      have hshift : Wrote (splitRows a b n full) (slots a (R + 2) (R + 2 + (n - 1 + 1 - (R + 1)))) h₂
          (forDown (n - 1) (R + 1) (fun i => btMove a (i + 1) a i) h₂) := by
        refine Wrote.down (f := fun i => i + 1) (g := fun i => i) hF (by omega) ?_ (by omega) ?_ ?_ ?_
        · intro i hi _
          omega
        · intro i hi _
          omega
        · intro i hi hm
          rw [splitRows_left (by omega), hhigh i hi, h₁₂.kept a i, hh.ent i (by omega)]
          rintro (⟨hq, -⟩ | hq)
          · exact hab hq.symm
          · exact hab (Prod.mk.inj hq).1.symm
        · intro i j _ hij _ _
          omega
      have h₁₃ := h₁₂.trans hF hshift
      generalize forDown (n - 1) (R + 1) (fun i => btMove a (i + 1) a i) h₂ = h₃ at h₁₃ ⊢
      have hset : Wrote (splitRows a b n full) {(a, R + 1)} h₃ (h₃.btSet a (R + 1) V pR) :=
        Wrote.set (by omega) (by rw [splitRows_left (by omega), hmid])
      have h₁₄ := h₁₃.trans hF hset
      generalize h₃.btSet a (R + 1) V pR = h₄ at h₁₄ ⊢
      have hsetR : Wrote (splitRows a b n full) {(a, R)} h₄ (h₄.btSetN a R (e R).2) := by
        refine Wrote.setN ?_
        rw [splitRows_left (by omega), hlow R (Nat.le_refl R), h₁₄.kept a R, hh.ent R hR]
        simp [mem_slots, hab.symm]
      refine ⟨?_, splitRows_holds hh hab honce (h₁₄.trans hF hsetR) ?_ ?_ ?_⟩
      · rw [pItems_eq, Nat.sub_add_cancel (by omega), hold n (by omega), hup]
      · intro r hr hnot
        refine hlow r ?_
        by_contra hgt
        refine hnot ?_
        by_cases hr1 : r = R + 1
        · exact .inl (.inr (by simp [hr1]))
        · exact .inl (.inl (.inr ⟨rfl, by simp only; omega, by simp only; omega⟩))
      · intro r hr
        by_cases hr0 : r = 0
        · exact .inl (.inl (.inl (.inr (by simp [hr0]))))
        · exact .inl (.inl (.inl (.inl ⟨rfl, by simp only; omega, by simp only; omega⟩)))
      · rintro p r ((((⟨hp, -⟩ | hp) | ⟨hp, -⟩) | hp) | hp)
        · exact .inr hp
        · exact .inr (Prod.mk.inj hp).1
        · exact .inl hp
        · exact .inl (Prod.mk.inj hp).1
        · exact .inl (Prod.mk.inj hp).1
    · -- the new item goes up, and its child to the new page
      have hRn' : R = n := not_not.mp hne
      simp only [if_neg hne]
      rw [hRn'] at hmid hlow
      have hset0 : Wrote (splitRows a b n full) {(b, 0)} h₁ (h₁.btSetN b 0 pR) := by
        refine Wrote.setN ?_
        rw [splitRows_right hab (Nat.zero_le n)]
        change (default, (full (n + 1)).2) = _
        rw [hmid]
        rfl
      have h₁₂ := hfirst.trans hF hset0
      generalize h₁.btSetN b 0 pR = h₂ at h₁₂ ⊢
      have hsetn : Wrote (splitRows a b n full) {(a, n)} h₂ (h₂.btSetN a n (e R).2) := by
        refine Wrote.setN ?_
        rw [splitRows_left (Nat.le_refl n), hlow n (Nat.le_refl n), h₁₂.kept a n,
          hh.ent n (by omega), hRn']
        simp [mem_slots, hab.symm]
      refine ⟨by rw [hmid], splitRows_holds hh hab honce (h₁₂.trans hF hsetn) ?_ ?_ ?_⟩
      · intro r hr _
        exact hlow r hr
      · intro r hr
        by_cases hr0 : r = 0
        · exact .inl (.inr (by simp [hr0]))
        · exact .inl (.inl ⟨rfl, by simp only; omega, by simp only; omega⟩)
      · rintro p r ((⟨hp, -⟩ | hp) | hp)
        · exact .inr hp
        · exact .inr (Prod.mk.inj hp).1
        · exact .inl (Prod.mk.inj hp).1
  · simp only [if_neg hRn]
    have hgt : n + 1 ≤ R := by omega
    have hup : full (n + 1) = e (n + 1) := hlow (n + 1) hgt
    have hset0 : Wrote (splitRows a b n full) {(b, 0)} h (h.btSetN b 0 ((h a).pPages (n + 1))) := by
      refine Wrote.setN ?_
      rw [splitRows_right hab (Nat.zero_le n), pPages_eq, hh.ent (n + 1) (by omega), ← hup]
      rfl
    generalize h.btSetN b 0 ((h a).pPages (n + 1)) = h₁ at hset0 ⊢
    have hmove : Wrote (splitRows a b n full) (slots b (R + 1 - n) (R + 1 - n + (2 * n + 1 - (R + 1))))
        h₁ (forDown (2 * n) (R + 1) (fun i => btMove b (i - n) a i) h₁) := by
      refine Wrote.down (f := fun i => i - n) (g := fun i => i) hF (by omega) ?_ (by omega) ?_ ?_ ?_
      · intro i hi _
        omega
      · intro i hi _
        omega
      · intro i hi hm
        rw [splitRows_right hab (by omega), rowAfter_of_pos (by omega),
          show n + 1 + (i - n) = i + 1 by omega, hhigh i hi, hset0.kept a i, hh.ent i hm]
        simp [hab.symm]
      · intro i j _ _ _ hq
        exact absurd hq hab.symm
    have h₁₂ := hset0.trans hF hmove
    generalize forDown (2 * n) (R + 1) (fun i => btMove b (i - n) a i) h₁ = h₂ at h₁₂ ⊢
    have hset : Wrote (splitRows a b n full) {(b, R - n)} h₂ (h₂.btSet b (R - n) V pR) := by
      refine Wrote.set (by omega) ?_
      rw [splitRows_right hab (by omega), rowAfter_of_pos (by omega),
        show n + 1 + (R - n) = R + 1 by omega, hmid]
    have h₁₃ := h₁₂.trans hF hset
    generalize h₂.btSet b (R - n) V pR = h₃ at h₁₃ ⊢
    -- the left child is written before its item is
    let E : BTAddr → ℕ → α × Option BTAddr := fun p r =>
      if p = b ∧ r = R - n - 1 then ((h₃.ent b r).1, (e R).2) else splitRows a b n full p r
    have hleft : (splitRows a b n full b (R - n - 1)).2 = (e R).2 := by
      rw [splitRows_right hab (by omega), rowAfter_child, show n + 1 + (R - n - 1) = R by omega,
        hlow R (Nat.le_refl R)]
    have hEchild : ∀ p r, (E p r).2 = (splitRows a b n full p r).2 := by
      intro p r
      simp only [E]
      split_ifs with hpr
      · rw [hpr.1, hpr.2, hleft]
      · rfl
    have hE : Once E := by
      intro p r q s c hcr hcs
      rw [hEchild] at hcr hcs
      exact hF p r q s c hcr hcs
    have hfirst : ∀ p r, (p, r) ∈ {(b, 0)} ∪ slots b (R + 1 - n) (R + 1 - n + (2 * n + 1 - (R + 1))) ∪
        {(b, R - n)} → E p r = splitRows a b n full p r := by
      intro p r hmem
      simp only [E]
      split_ifs with hpr
      · have hr0 : r = 0 := by
          rcases hmem with (hmem | ⟨-, hlo, -⟩) | hmem
          · exact (Prod.mk.inj hmem).2
          · simp only at hlo
            omega
          · have := (Prod.mk.inj hmem).2
            omega
        rw [hpr.1, hr0, splitRows_right hab (Nat.zero_le n), ← hlow R (Nat.le_refl R),
          show R = n + 1 by omega]
        rfl
      · rfl
    have hsetN : Wrote E {(b, R - n - 1)} h₃ (h₃.btSetN b (R - n - 1) (e R).2) := by
      refine Wrote.setN ?_
      simp only [E]
      rw [if_pos ⟨trivial, trivial⟩]
    have h₁₄ := (h₁₃.congr hfirst).trans hE hsetN
    generalize h₃.btSetN b (R - n - 1) (e R).2 = h₄ at h₁₄ ⊢
    have hrest : Wrote (splitRows a b n full) (slots b 1 (1 + (R + 1 - (n + 2)))) h₄
        (forDown R (n + 2) (fun i => btMove b (i - n - 1) a i) h₄) := by
      refine Wrote.down (f := fun i => i - n - 1) (g := fun i => i) hF (by omega) ?_ (by omega) ?_ ?_ ?_
      · intro i hi _
        omega
      · intro i hi _
        omega
      · intro i hi hm
        rw [splitRows_right hab (by omega), rowAfter_of_pos (by omega),
          show n + 1 + (i - n - 1) = i by omega, hlow i hm, h₁₄.kept a i, hh.ent i (by omega)]
        simp [mem_slots, hab.symm]
      · intro i j _ _ _ hq
        exact absurd hq hab.symm
    have hw : Wrote (splitRows a b n full) _ h _ := h₁₄.over hF hrest ?_ fun p r _ => hEchild p r
    · refine ⟨?_, splitRows_holds hh hab honce hw ?_ ?_ ?_⟩
      · rw [pItems_eq, hh.ent (n + 1) (by omega), hup]
      · intro r hr _
        exact hlow r (by omega)
      · intro r hr
        by_cases hr0 : r = 0
        · exact .inl (.inl (.inl (.inl (by simp [hr0]))))
        by_cases hr1 : r < R - n
        · exact .inr ⟨rfl, by simp only; omega, by simp only; omega⟩
        by_cases hr2 : r = R - n
        · exact .inl (.inl (.inr (by simp [hr2])))
        · exact .inl (.inl (.inl (.inr ⟨rfl, by simp only; omega, by simp only; omega⟩)))
      · rintro p r ((((hp | ⟨hp, -⟩) | hp) | hp) | ⟨hp, -⟩)
        · exact .inr (Prod.mk.inj hp).1
        · exact .inr hp
        · exact .inr (Prod.mk.inj hp).1
        · exact .inr (Prod.mk.inj hp).1
        · exact .inr hp
    · -- a new page of its own has its first child already
      intro p r hmem hnot
      rcases hmem with hmem | hmem
      · exact hfirst p r hmem
      · obtain ⟨rfl, rfl⟩ := Prod.mk.inj hmem
        have hr0 : R - n - 1 = 0 := by
          by_contra hr0
          exact hnot ⟨rfl, by simp only; omega, by simp only; omega⟩
        exact hfirst p _ (.inl (.inl (by simp [hr0])))

end Split

end PaxosSolutions.NWGadget
