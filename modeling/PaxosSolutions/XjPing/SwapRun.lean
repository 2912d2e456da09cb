import PaxosSolutions.XjPing.SwapTiles

/-!
# Runs of the swap file

Along a run that splits no segment, swaps in below the mask of the handles and
joins on the left only with the first segment, the cells of the swap file stay
linked and no two free ones are neighbours. The live handles are the offsets of
the used cells.
-/
namespace PaxosSolutions.XjPing
open Lib

/-- The used cells under their offsets. -/
def liveOf : ℕ → List Cell → List (ℕ × List UInt8)
  | _, [] => []
  | off, c :: cs =>
      if c.used then (off, c.body) :: liveOf (off + c.size) cs else liveOf (off + c.size) cs

theorem liveOf_append (off : ℕ) (xs ys : List Cell) :
    liveOf off (xs ++ ys) = liveOf off xs ++ liveOf (endAt off xs) ys := by
  induction xs generalizing off with
  | nil => rfl
  | cons x xs ih =>
      simp only [List.cons_append, liveOf, endAt_cons, ih]
      split_ifs <;> rfl

theorem liveOf_bounds {off : ℕ} {cs : List Cell} {p : ℕ × List UInt8} (h : p ∈ liveOf off cs) :
    off ≤ p.1 ∧ p.1 + 8 + p.2.length ≤ endAt off cs := by
  induction cs generalizing off with
  | nil => cases h
  | cons c cs ih =>
      have hle := le_endAt (off + c.size) cs
      have hsz : c.size = 8 + c.body.length := rfl
      rw [endAt_cons]
      unfold liveOf at h
      split_ifs at h with hused
      · rcases List.mem_cons.mp h with rfl | h
        · exact ⟨le_refl _, by dsimp only; omega⟩
        · have hp := ih h
          exact ⟨by omega, hp.2⟩
      · have hp := ih h
        exact ⟨by omega, hp.2⟩

/-- A live handle is the offset of a used cell. -/
theorem liveOf_split {off : ℕ} {cs : List Cell} {p : ℕ × List UInt8} (h : p ∈ liveOf off cs) :
    ∃ pre c post, cs = pre ++ c :: post ∧ c.used = true ∧ p = (endAt off pre, c.body) := by
  induction cs generalizing off with
  | nil => cases h
  | cons c cs ih =>
      have hrest : p ∈ liveOf (off + c.size) cs →
          ∃ pre d post, c :: cs = pre ++ d :: post ∧ d.used = true ∧ p = (endAt off pre, d.body) := by
        intro h
        obtain ⟨pre, d, post, hcs, hd, hp⟩ := ih h
        exact ⟨c :: pre, d, post, by rw [hcs, List.cons_append], hd, by rw [hp, endAt_cons]⟩
      unfold liveOf at h
      split_ifs at h with hused
      · rcases List.mem_cons.mp h with rfl | h
        · exact ⟨[], c, cs, rfl, hused, rfl⟩
        · exact hrest h
      · exact hrest h

theorem liveOf_disjoint (off : ℕ) (cs : List Cell) :
    (liveOf off cs).Pairwise fun a b =>
      a.1 + 8 + a.2.length ≤ b.1 ∨ b.1 + 8 + b.2.length ≤ a.1 := by
  induction cs generalizing off with
  | nil => exact List.Pairwise.nil
  | cons c cs ih =>
      have hsz : c.size = 8 + c.body.length := rfl
      unfold liveOf
      split_ifs with hused
      · refine List.Pairwise.cons ?_ (ih _)
        intro p hp
        have hb := liveOf_bounds hp
        left
        dsimp only
        omega
      · exact ih _

theorem TakesLeft.liveOf {pre left : List Cell} {junk : List UInt8} (h : TakesLeft pre left junk) :
    XjPing.liveOf 0 pre = XjPing.liveOf 0 left := by
  rcases h with ⟨rfl, -, -⟩ | ⟨b, hb, rfl, -⟩
  · rfl
  · rw [liveOf_append]
    simp [XjPing.liveOf, hb]

theorem TakesRight.liveOf {prev off : ℕ} {post rest : List Cell} {junk : List UInt8}
    (h : TakesRight prev post rest junk) :
    XjPing.liveOf off post = XjPing.liveOf (off + junk.length) rest := by
  rcases h with ⟨rfl, rfl, -⟩ | ⟨f, hf, rfl, rfl⟩
  · rfl
  · rw [cell_bytes_length]
    simp [XjPing.liveOf, hf]

theorem TakesRight.endAt {prev off : ℕ} {post rest : List Cell} {junk : List UInt8}
    (h : TakesRight prev post rest junk) :
    XjPing.endAt (off + junk.length) rest = XjPing.endAt off post := by
  rcases h with ⟨rfl, rfl, -⟩ | ⟨f, -, rfl, rfl⟩
  · rfl
  · rw [cell_bytes_length, endAt_cons]

/-! ### What the heads show of the cells -/

theorem headsOf_append (prev off : ℕ) (xs ys : List Cell) (c : Cell) :
    (endAt off xs, ⟨lastAt prev off xs, c.len⟩) ∈ headsOf prev off (xs ++ c :: ys) := by
  induction xs generalizing prev off with
  | nil => exact List.mem_cons_self
  | cons x xs ih =>
      rw [List.cons_append, endAt_cons]
      exact List.mem_cons_of_mem _ (ih off (off + x.size))

theorem headsOf_linked (prev off : ℕ) (cs : List Cell) : PrevLinked prev (headsOf prev off cs) := by
  induction cs generalizing prev off with
  | nil => exact ⟨rfl, trivial⟩
  | cons c cs ih => exact ⟨rfl, ih off (off + c.size)⟩

theorem headsOf_head {prev off : ℕ} {cs : List Cell} :
    ∀ p ∈ (headsOf prev off cs).head?, p.2.pLen = firstLen cs := by
  intro p hp
  cases cs with
  | nil =>
      cases hp
      rfl
  | cons c cs =>
      cases hp
      rfl

theorem headsOf_apart {prev off : ℕ} {cs : List Cell}
    (h : cs.IsChain fun a b => a.used = true ∨ b.used = true) :
    (headsOf prev off cs).IsChain fun a b => ¬(a.2.pLen < 0 ∧ b.2.pLen < 0) := by
  induction cs generalizing prev off with
  | nil => exact List.IsChain.singleton _
  | cons c cs ih =>
      obtain ⟨hc, hcs⟩ := List.isChain_cons.mp h
      refine List.isChain_cons.mpr ⟨?_, ih hcs⟩
      rintro p hp ⟨hneg, hnext⟩
      rw [headsOf_head p hp] at hnext
      cases cs with
      | nil => exact absurd hnext (by simp [firstLen])
      | cons d cs =>
          have hfree := c.len_neg_iff.mp hneg
          have hfree' := d.len_neg_iff.mp hnext
          rcases hc d rfl with h | h
          · exact absurd h (by simp [hfree])
          · exact absurd h (by simp [hfree'])

theorem headsOf_used (prev off : ℕ) (cs : List Cell) :
    ((headsOf prev off cs).filter (0 < ·.2.pLen)).map (fun p => (p.1, p.2.pLen)) =
      (liveOf off cs).map fun l => (l.1, (l.2.length : ℤ)) := by
  induction cs generalizing prev off with
  | nil => rfl
  | cons c cs ih =>
      unfold headsOf liveOf
      cases hused : c.used with
      | true =>
          have hpos := c.len_pos_iff.mpr hused
          rw [List.filter_cons_of_pos (by simpa using hpos), List.map_cons, ih, Cell.len_used hused]
          rfl
      | false =>
          have hneg : ¬0 < c.len := by
            rw [c.len_pos_iff, hused]
            decide
          rw [List.filter_cons_of_neg (by simpa using hneg), ih]
          rfl

/-! ### The invariant -/

/-- The file is that of the cells, of which no two free ones are neighbours. -/
structure SwapInv (s : SwapState) (cs : List Cell) : Prop where
  bytes : s.fd.bytes = fileBytes 0 0 cs
  range : s.fd.bytes.length < 2 ^ 31
  apart : cs.IsChain fun a b => a.used = true ∨ b.used = true
  live : s.live.Perm (liveOf 0 cs)
  got : ∀ g ∈ s.got, g.2 = (g.1, (g.1.length : ℤ))

theorem SwapInv.segments {s : SwapState} {cs : List Cell} (h : SwapInv s cs) :
    s.segments = some (headsOf 0 0 cs) := by
  have hlen := fileBytes_length 0 0 cs
  have hle := length_le_endAt 0 cs
  have hrange := h.range
  unfold SwapState.segments
  rw [h.bytes] at hrange ⊢
  exact heads_fileBytes (by omega) (by omega) (by omega)

theorem SwapInv.integrity {s : SwapState} {cs : List Cell} (h : SwapInv s cs) :
    SwapIntegrity s := by
  refine ⟨headsOf 0 0 cs, h.segments, headsOf_linked 0 0 cs, headsOf_apart h.apart, ?_, ?_, h.got⟩
  · rw [headsOf_used]
    exact (h.live.map _).symm
  · exact h.live.symm.pairwise (liveOf_disjoint 0 cs) fun hab => Or.symm hab

theorem swapInitial_inv : SwapInv swapInitial [] where
  bytes := rfl
  range := by decide
  apart := List.IsChain.nil
  live := List.Perm.refl []
  got := by simp [swapInitial]

theorem swapOut_inv {s : SwapState} {cs : List Cell} {addrp : List UInt8} (h : SwapInv s cs)
    (hcall : SwapCall s (.swapOut addrp)) (hsafe : SwapSafe s (.swapOut addrp)) :
    ∃ t cs', swapStep s (.swapOut addrp) = .ok t ∧ SwapInv t cs' := by
  obtain ⟨hsize, hrange⟩ := hcall
  have hfit : ∀ c ∈ cs, c.used = false → c.body.length < addrp.length + 2 * 8 := by
    intro c hc hfree
    obtain ⟨pre, post, rfl⟩ := List.append_of_mem hc
    have hno := hsafe (endAt 0 pre, ⟨lastAt 0 0 pre, c.len⟩)
      (by rw [h.segments]; exact headsOf_append 0 0 pre post c)
    have hlen := Cell.len_free hfree
    have hneg := c.len_neg_iff.mpr hfree
    dsimp only at hno
    omega
  obtain ⟨fd', hout, hbytes⟩ := xjSwapOut_append hsize h.bytes h.range hfit
  have hlen := fileBytes_length 0 0 cs
  have hlen' := fileBytes_length 0 0 (cs ++ [⟨true, addrp, hsize⟩])
  rw [← h.bytes] at hlen
  rw [endAt_append, endAt_cons, endAt_nil] at hlen'
  refine ⟨{ s with fd := fd', live := (endAt 0 cs, addrp) :: s.live }, cs ++ [⟨true, addrp, hsize⟩],
    by rw [swapStep, hout]; rfl, hbytes, ?_, ?_, ?_, h.got⟩
  · rw [hbytes]
    simp only [Cell.size] at hlen'
    omega
  · refine List.isChain_append.mpr ⟨h.apart, List.IsChain.singleton _, ?_⟩
    intro a _ b hb
    cases hb
    exact .inr rfl
  · rw [liveOf_append]
    exact (h.live.cons _).trans (List.perm_append_singleton _ _).symm

/-- The free cell that takes the place of `c` and of what is joined with it. -/
def joined (jl jr : List UInt8) (prev : ℕ) (c : Cell) : Cell where
  used := false
  body := (jl ++ c.bytes prev ++ jr).drop 8
  body_pos := by
    have hpos := c.body_pos
    rw [List.length_drop, List.length_append, List.length_append, cell_bytes_length]
    unfold Cell.size
    omega

theorem joined_length (jl jr : List UInt8) (prev : ℕ) (c : Cell) :
    (joined jl jr prev c).body.length = c.body.length + jl.length + jr.length := by
  simp only [joined, List.length_drop, List.length_append, cell_bytes_length, Cell.size]
  omega

theorem joined_bytes (jl jr : List UInt8) (prev p : ℕ) (c : Cell) :
    (joined jl jr prev c).bytes p =
      XjSwapHead.bytes ⟨p, -(c.body.length + jl.length + jr.length : ℕ)⟩ ++
        (jl ++ c.bytes prev ++ jr).drop 8 := by
  have hfree : (joined jl jr prev c).used = false := rfl
  rw [Cell.bytes, Cell.len_free hfree, joined_length]
  rfl

/-- Where a free cell on the left is the first, the back link is that of the joined cell. -/
theorem TakesLeft.lastAt {pre left : List Cell} {junk : List UInt8} (h : TakesLeft pre left junk)
    (hfirst : ∀ b, b.used = false → pre = left ++ [b] → XjPing.endAt 0 left = 0) :
    XjPing.lastAt 0 0 pre = XjPing.lastAt 0 0 left := by
  rcases h with ⟨rfl, -, -⟩ | ⟨b, hb, rfl, -⟩
  · rfl
  · have hzero := hfirst b hb rfl
    have hle := length_le_endAt 0 left
    have hnil : left = [] := List.eq_nil_of_length_eq_zero (by omega)
    rw [hnil]
    rfl

theorem TakesLeft.getLast_used {pre left post : List Cell} {c : Cell} {junk : List UInt8}
    (h : TakesLeft pre left junk)
    (hapart : (pre ++ c :: post).IsChain fun a b => a.used = true ∨ b.used = true) :
    (left.IsChain fun a b => a.used = true ∨ b.used = true) ∧
      ∀ a ∈ left.getLast?, a.used = true := by
  have hpre := hapart.left_of_append
  rcases h with ⟨rfl, -, hlast⟩ | ⟨b, hb, rfl, -⟩
  · exact ⟨hpre, hlast⟩
  · refine ⟨hpre.left_of_append, ?_⟩
    intro a ha
    rcases (List.isChain_append.mp hpre).2.2 a ha b rfl with h | h
    · exact h
    · exact absurd h (by simp [hb])

theorem TakesRight.head_used {prev : ℕ} {pre post rest : List Cell} {c : Cell} {junk : List UInt8}
    (h : TakesRight prev post rest junk)
    (hapart : (pre ++ c :: post).IsChain fun a b => a.used = true ∨ b.used = true) :
    (rest.IsChain fun a b => a.used = true ∨ b.used = true) ∧
      ∀ b ∈ rest.head?, b.used = true := by
  have hpost := (List.isChain_cons.mp hapart.right_of_append).2
  rcases h with ⟨rfl, -, hhead⟩ | ⟨f, hf, rfl, -⟩
  · exact ⟨hpost, hhead⟩
  · obtain ⟨hnext, hrest⟩ := List.isChain_cons.mp hpost
    refine ⟨hrest, ?_⟩
    intro b hb
    rcases hnext b hb with h | h
    · exact absurd h (by simp [hf])
    · exact h

/-- Only the handle of the cell is at its offset. -/
theorem liveOf_filter {off : ℕ} {pre post : List Cell} {c : Cell} (hused : c.used = true) :
    (liveOf off (pre ++ c :: post)).filter (·.1 ≠ endAt off pre) =
      liveOf off pre ++ liveOf (endAt off pre + c.size) post := by
  have hsz : c.size = 8 + c.body.length := rfl
  rw [liveOf_append, List.filter_append]
  congr 1
  · refine List.filter_eq_self.mpr ?_
    intro p hp
    have hb := liveOf_bounds hp
    simp only [ne_eq, decide_eq_true_eq]
    omega
  · rw [liveOf, if_pos hused, List.filter_cons_of_neg (by simp)]
    refine List.filter_eq_self.mpr ?_
    intro p hp
    have hb := liveOf_bounds hp
    simp only [ne_eq, decide_eq_true_eq]
    omega

theorem swapIn_inv {s : SwapState} {cs : List Cell} {hp : ℕ} (h : SwapInv s cs)
    (hcall : SwapCall s (.swapIn hp)) (hsafe : SwapSafe s (.swapIn hp)) :
    ∃ t cs', swapStep s (.swapIn hp) = .ok t ∧ SwapInv t cs' := by
  obtain ⟨d, hd⟩ := Option.isSome_iff_exists.mp hcall
  have hmem : (hp, d) ∈ liveOf 0 cs := by
    obtain ⟨l₁, l₂, hl, -⟩ := List.lookup_eq_some_iff.mp hd
    exact h.live.mem_iff.mp (by rw [hl]; simp)
  obtain ⟨pre, c, post, rfl, hused, heq⟩ := liveOf_split hmem
  obtain ⟨rfl, rfl⟩ := Prod.mk.inj heq
  obtain ⟨left, rest, jl, jr, fd', hl, hr, hin, hbytes⟩ :=
    xjSwapIn_takes hused h.bytes h.range hsafe.1
  have hlast : lastAt 0 0 pre = lastAt 0 0 left := by
    refine hl.lastAt ?_
    rintro b hb rfl
    have hfirst := hsafe.2 (endAt 0 left, ⟨lastAt 0 0 left, b.len⟩)
    rw [h.segments, List.append_assoc] at hfirst
    refine hfirst (headsOf_append 0 0 left (c :: post) b) (b.len_neg_iff.mpr hb) ?_
    rw [endAt_append, endAt_cons, endAt_nil, Cell.len_free hb]
    simp only [Cell.size]
    omega
  have hlen := joined_length jl jr (lastAt 0 0 pre) c
  have hleft := hl.length
  have hsz : c.size = 8 + c.body.length := rfl
  have hend : endAt 0 left + (joined jl jr (lastAt 0 0 pre) c).size =
      endAt 0 pre + c.size + jr.length := by
    unfold Cell.size
    omega
  have hbytes' : fd'.bytes = fileBytes 0 0 (left ++ joined jl jr (lastAt 0 0 pre) c :: rest) := by
    rw [hbytes, fileBytes_append, fileBytes_cons, joined_bytes, hend, ← hlast]
    simp only [List.append_assoc]
  obtain ⟨hchain, hbefore⟩ := hl.getLast_used h.apart
  obtain ⟨hrest, hbehind⟩ := hr.head_used h.apart
  refine ⟨⟨fd', s.live.filter (·.1 ≠ endAt 0 pre), (c.body, c.body, c.body.length) :: s.got⟩,
    left ++ joined jl jr (lastAt 0 0 pre) c :: rest, by rw [swapStep, hd, hin]; rfl, hbytes', ?_, ?_,
    ?_, ?_⟩
  · have hold := fileBytes_length 0 0 (pre ++ c :: post)
    have hnew := fileBytes_length 0 0 (left ++ joined jl jr (lastAt 0 0 pre) c :: rest)
    have hrange := h.range
    rw [h.bytes] at hrange
    rw [endAt_append, endAt_cons] at hold
    rw [endAt_append, endAt_cons, hend, hr.endAt] at hnew
    rw [hbytes']
    omega
  · refine hchain.append (List.isChain_cons.mpr ⟨?_, hrest⟩) ?_
    · exact fun b hb => .inr (hbehind b hb)
    · exact fun a ha _ _ => .inl (hbefore a ha)
  · have hfilter := h.live.filter (fun l => decide (l.1 ≠ endAt 0 pre))
    rw [liveOf_filter hused, hl.liveOf, hr.liveOf] at hfilter
    rw [liveOf_append, liveOf, hend]
    exact hfilter
  · intro g hg
    rcases List.mem_cons.mp hg with rfl | hg
    · rfl
    · exact h.got g hg

theorem swapStep_inv {s : SwapState} {cs : List Cell} {i : SwapOp} (h : SwapInv s cs)
    (hcall : SwapCall s i) (hsafe : SwapSafe s i) :
    ∃ t cs', swapStep s i = .ok t ∧ SwapInv t cs' := by
  cases i with
  | swapOut addrp => exact swapOut_inv h hcall hsafe
  | swapIn hp => exact swapIn_inv h hcall hsafe

theorem swapRun_inv {s : SwapState} {cs : List Cell} {is : List SwapOp} (h : SwapInv s cs)
    (hcall : Along swapStep SwapCall s is) (hsafe : Along swapStep SwapSafe s is) :
    ∃ t cs', run swapStep s is = .ok t ∧ SwapInv t cs' := by
  induction is generalizing s cs with
  | nil => exact ⟨s, cs, rfl, h⟩
  | cons i is ih =>
      obtain ⟨u, cs', hu, hinv⟩ := swapStep_inv h hcall.1 hsafe.1
      obtain ⟨t, cs'', ht, hinv'⟩ := ih hinv (hcall.2 u hu) (hsafe.2 u hu)
      refine ⟨t, cs'', ?_, hinv'⟩
      rw [run, hu]
      exact ht

/-- A run of safe calls goes through, and keeps the swap file whole. -/
theorem swapRun_integrity (is : List SwapOp) (hcall : Along swapStep SwapCall swapInitial is)
    (hsafe : Along swapStep SwapSafe swapInitial is) :
    ∃ t, run swapStep swapInitial is = .ok t ∧ SwapIntegrity t := by
  obtain ⟨t, cs, ht, hinv⟩ := swapRun_inv swapInitial_inv hcall hsafe
  exact ⟨t, ht, hinv.integrity⟩

/-- Two segments are swapped out and the first is swapped in. -/
def swapSafeOps : List SwapOp := [.swapOut [1, 2], .swapOut [3], .swapIn 0, .swapOut [4, 5, 6]]

theorem swapRun_integrity_safe :
    ∃ t, run swapStep swapInitial swapSafeOps = .ok t ∧ SwapIntegrity t :=
  swapRun_integrity swapSafeOps (by decide +kernel) (by decide +kernel)

/-- A free segment is split, and the head behind it keeps its back link. -/
def swapSplitOps : List SwapOp :=
  [.swapOut (List.replicate 20 1), .swapOut [2], .swapIn 0, .swapOut [3]]

theorem swapSplit_not_integrity :
    ¬∀ is, Along swapStep SwapCall swapInitial is →
      ∃ t, run swapStep swapInitial is = .ok t ∧ SwapIntegrity t := by
  intro h
  obtain ⟨t, ht, hs, hsegs, hlinked, -⟩ := h swapSplitOps (by decide +kernel)
  have hbroken : (run swapStep swapInitial swapSplitOps).toOption.map
      (fun t => decide (PrevLinked 0 (t.segments.getD []))) = some false := by decide +kernel
  rw [ht, Except.toOption, Option.map_some, hsegs, Option.getD_some, decide_eq_true hlinked] at hbroken
  exact absurd hbroken (by decide)

end PaxosSolutions.XjPing
