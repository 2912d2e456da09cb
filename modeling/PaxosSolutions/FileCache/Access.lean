import PaxosSolutions.FileCache.Pieces

/-!
# What a request touches

Each piece of a request is copied between the buffer of its block and the data
of the client, and the checksums of the segments it meets are checked or made
anew. All of this stays in range where the request does not begin before the
file, which the cache does not look at.
-/
namespace PaxosSolutions

/-! ### The memory of a piece -/

/-- What is read or written of `b_pBuf`, of `b_pCksum64` and `b_pValid`, and of
the data of the client. -/
inductive Access where
  | buf (lo len : ℤ)
  | cksum (i : ℤ)
  | data (lo len : ℤ)
deriving DecidableEq, Repr

/-- The data of the client are `size` bytes. -/
def Access.InRange (c : BlockCacheCtrl) (size : ℤ) : Access → Prop
  | .buf lo len => 0 ≤ lo ∧ 0 ≤ len ∧ lo + len ≤ c.blockSize
  | .cksum i => 0 ≤ i ∧ i < c.bcSegmentNum
  | .data lo len => 0 ≤ lo ∧ 0 ≤ len ∧ lo + len ≤ size

/-- `for( i = lo; i < hi; i++ )` -/
def segments (lo hi : ℤ) : List ℤ := (List.range (hi - lo).toNat).map fun k : ℕ => lo + k

/-- `BlockCacheWrite` in one block. `nz` says which of `b_pCksum64` are not 0, and
`sz` and `ez` that the checksums before the change at both ends are not. -/
def writeAccesses (c : BlockCacheCtrl) (nz : ℤ → Bool) (sz ez : Bool) (p : Piece) : List Access :=
  let seg : ℤ := c.bcSegmentSize
  let r := p.sOff % 8
  let soffB := p.sOff - r
  let lenB := (p.len + r + 7) / 8 * 8
  let iS := soffB.tdiv seg
  let iE := (p.eOff - 1).tdiv seg
  let slen := toSize ((iS + 1) * seg - soffB)
  let elen := toSize (p.eOff - iE * seg)
  let copy : List Access := [.buf p.sOff p.len, .data p.dOff p.len]
  if !c.bcBCksum then copy
  else if iS = iE then
    let m := decide (lenB < seg / 2) && nz iS
    (if lenB < seg / 2 then [.cksum iS] else []) ++ (if m then [.buf soffB lenB] else []) ++ copy ++
      (if m && sz then [.buf soffB lenB, .cksum iS] else [.buf (seg * iS) seg, .cksum iS])
  else
    let s := decide (slen < seg / 2) && nz iS
    let e := decide (elen < seg / 2) && nz iE
    (if slen < seg / 2 then [.cksum iS] else []) ++ (if s then [.buf soffB slen] else []) ++
      (if elen < seg / 2 then [.cksum iE] else []) ++ (if e then [.buf (iE * seg) elen] else []) ++
      copy ++ (segments iS (iE + 1)).flatMap fun i =>
        if i = iS && s && sz then [.buf soffB slen, .cksum i]
        else if i = iE && e && ez then [.buf (iE * seg) elen, .cksum i]
        else [.buf (seg * i) seg, .cksum i]

/-- `BlockCacheRead` in one block. `due` says which checksums are to be looked at
again. -/
def readAccesses (c : BlockCacheCtrl) (nz due : ℤ → Bool) (p : Piece) : List Access :=
  let seg : ℤ := c.bcSegmentSize
  (if c.bcBCksum then
    (segments (p.sOff.tdiv seg) ((p.eOff + seg - 1).tdiv seg)).flatMap fun i =>
      .cksum i :: (if due i && nz i then [.buf (seg * i) seg] else [])
  else []) ++ (if 0 < p.len then [.data p.dOff p.len, .buf p.sOff p.len] else [])

variable {c : BlockCacheCtrl} {p : Piece} {size : ℤ} {a : Access}

theorem mem_segments {lo hi i : ℤ} : i ∈ segments lo hi ↔ lo ≤ i ∧ i < hi := by
  unfold segments
  simp only [List.mem_map, List.mem_range]
  constructor
  · rintro ⟨k, hk, rfl⟩
    omega
  · intro h
    exact ⟨(i - lo).toNat, by omega, by omega⟩

/-- A segment that begins in the buffer. -/
theorem segment_range {i : ℤ} (h₀ : 0 ≤ i) (hi : c.bcSegmentSize * i < c.blockSize) :
    i < c.bcSegmentNum ∧ 0 ≤ c.bcSegmentSize * i ∧
      c.bcSegmentSize * i + c.bcSegmentSize ≤ c.blockSize := by
  have hpos : (0 : ℤ) < c.bcSegmentSize := by exact_mod_cast c.size_pos
  have hnum : i < c.bcSegmentNum := by
    by_contra hge
    have := mul_le_mul_of_nonneg_left (not_lt.mp hge) hpos.le
    unfold BlockCacheCtrl.blockSize at hi
    omega
  refine ⟨hnum, mul_nonneg hpos.le h₀, ?_⟩
  calc (c.bcSegmentSize : ℤ) * i + c.bcSegmentSize = c.bcSegmentSize * (i + 1) := by ring
    _ ≤ c.bcSegmentSize * c.bcSegmentNum := mul_le_mul_of_nonneg_left (by omega) hpos.le

/-- The piece is within its block and the data of the client. -/
def Piece.Fits (c : BlockCacheCtrl) (size : ℤ) (p : Piece) : Prop :=
  0 ≤ p.sOff ∧ p.sOff < p.eOff ∧ p.eOff ≤ c.blockSize ∧
    0 ≤ p.dOff ∧ p.dOff + (p.eOff - p.sOff) ≤ size

theorem Piece.Fits.len (hp : p.Fits c size) : p.len = p.eOff - p.sOff := by
  obtain ⟨hs, hlt, he, -, -⟩ := hp
  have := c.blockSize_lt
  exact Piece.len_eq hlt (by omega)

theorem Piece.Fits.copy (hp : p.Fits c size) :
    Access.InRange c size (.buf p.sOff p.len) ∧ Access.InRange c size (.data p.dOff p.len) := by
  rw [hp.len]
  obtain ⟨hs, hlt, he, hd, hde⟩ := hp
  exact ⟨⟨hs, by omega, by omega⟩, hd, by omega, hde⟩

/-- A whole segment and its checksum. -/
theorem Access.segment {i : ℤ} (size : ℤ) (h₀ : 0 ≤ i) (hi : c.bcSegmentSize * i < c.blockSize) :
    Access.InRange c size (.buf (c.bcSegmentSize * i) c.bcSegmentSize) ∧
      Access.InRange c size (.cksum i) := by
  obtain ⟨hnum, hlo, hhi⟩ := segment_range h₀ hi
  exact ⟨⟨hlo, by omega, hhi⟩, h₀, hnum⟩

/-- The aligned bytes around a piece end in the buffer, as segments are aligned. -/
theorem Piece.Fits.aligned (h8 : 8 ∣ c.bcSegmentSize) (hp : p.Fits c size) :
    Access.InRange c size (.buf (p.sOff - p.sOff % 8) ((p.len + p.sOff % 8 + 7) / 8 * 8)) := by
  rw [hp.len]
  obtain ⟨hs, hlt, he, -, -⟩ := hp
  obtain ⟨k, hk⟩ := h8
  have hB : c.blockSize = 8 * (k * c.bcSegmentNum) := by
    unfold BlockCacheCtrl.blockSize
    rw [hk]
    push_cast
    ring
  rw [Access.InRange]
  omega

/-- The segments at both ends of a piece. -/
theorem Piece.Fits.ends (hp : p.Fits c size) :
    let iS := (p.sOff - p.sOff % 8).tdiv c.bcSegmentSize
    let iE := (p.eOff - 1).tdiv c.bcSegmentSize
    0 ≤ iS ∧ c.bcSegmentSize * iS ≤ p.sOff - p.sOff % 8 ∧
      p.sOff - p.sOff % 8 < c.bcSegmentSize * iS + c.bcSegmentSize ∧
      iS ≤ iE ∧ c.bcSegmentSize * iE < p.eOff ∧ p.eOff ≤ c.bcSegmentSize * iE + c.bcSegmentSize := by
  obtain ⟨hs, hlt, he, -, -⟩ := hp
  have hpos : (0 : ℤ) < c.bcSegmentSize := by exact_mod_cast c.size_pos
  rw [Int.tdiv_eq_ediv_of_nonneg (by omega), Int.tdiv_eq_ediv_of_nonneg (by omega)]
  have h₁ : (c.bcSegmentSize : ℤ) * ((p.sOff - p.sOff % 8) / c.bcSegmentSize) ≤ _ :=
    Int.mul_ediv_self_le hpos.ne'
  have h₂ := Int.lt_mul_ediv_self_add (x := p.sOff - p.sOff % 8) hpos
  have h₃ : (c.bcSegmentSize : ℤ) * ((p.eOff - 1) / c.bcSegmentSize) ≤ _ :=
    Int.mul_ediv_self_le hpos.ne'
  have h₄ := Int.lt_mul_ediv_self_add (x := p.eOff - 1) hpos
  exact ⟨Int.ediv_nonneg (by omega) hpos.le, h₁, h₂, Int.ediv_le_ediv hpos (by omega),
    by omega, by omega⟩

/-- Everything is in range. -/
def AllIn (c : BlockCacheCtrl) (size : ℤ) (as : List Access) : Prop := ∀ a ∈ as, a.InRange c size

theorem AllIn.nil : AllIn c size [] := fun _ ha => (List.not_mem_nil ha).elim

theorem AllIn.append {as bs : List Access} (ha : AllIn c size as) (hb : AllIn c size bs) :
    AllIn c size (as ++ bs) := List.forall_mem_append.mpr ⟨ha, hb⟩

theorem AllIn.ite {b : Prop} [Decidable b] {as bs : List Access} (ha : b → AllIn c size as)
    (hb : ¬ b → AllIn c size bs) : AllIn c size (if b then as else bs) := by
  split
  · exact ha ‹_›
  · exact hb ‹_›

theorem AllIn.one (ha : a.InRange c size) : AllIn c size [a] := List.forall_mem_singleton.mpr ha

theorem AllIn.two {b : Access} (ha : a.InRange c size) (hb : b.InRange c size) :
    AllIn c size [a, b] := List.forall_mem_cons.mpr ⟨ha, AllIn.one hb⟩

theorem AllIn.flatMap {is : List ℤ} {f : ℤ → List Access} (h : ∀ i ∈ is, AllIn c size (f i)) :
    AllIn c size (is.flatMap f) := by
  intro a ha
  obtain ⟨i, hi, ha⟩ := List.mem_flatMap.mp ha
  exact h i hi a ha

theorem writeAccesses_inRange {nz : ℤ → Bool} {sz ez : Bool}
    (h8 : c.bcBCksum = true → 8 ∣ c.bcSegmentSize) (hp : p.Fits c size) :
    AllIn c size (writeAccesses c nz sz ez p) := by
  obtain ⟨hiS, hiSle, hiSlt, hSE, hiElt, hiEle⟩ := hp.ends
  obtain ⟨hs₀, hlt, hle, -, -⟩ := id hp
  have hB := c.blockSize_lt
  have hcopy : AllIn c size [.buf p.sOff p.len, .data p.dOff p.len] := .two hp.copy.1 hp.copy.2
  unfold writeAccesses
  dsimp only
  generalize (p.sOff - p.sOff % 8).tdiv c.bcSegmentSize = iS at *
  generalize (p.eOff - 1).tdiv c.bcSegmentSize = iE at *
  have hS := Access.segment size hiS (by omega : c.bcSegmentSize * iS < c.blockSize)
  have hE := Access.segment size (by omega : 0 ≤ iE)
    (by omega : c.bcSegmentSize * iE < c.blockSize)
  refine .ite (fun _ => hcopy) fun hck => ?_
  have h8 := h8 (by simpa using hck)
  refine .ite (fun _ => ?_) fun hne => ?_
  · -- within one segment
    refine .append (.append (.append ?_ ?_) hcopy) ?_
    · exact .ite (fun _ => .one hS.2) fun _ => .nil
    · exact .ite (fun _ => .one (hp.aligned h8)) fun _ => .nil
    · exact .ite (fun _ => .two (hp.aligned h8) hS.2) fun _ => .two hS.1 hS.2
  · -- the segments from the first to the last
    have hSle : c.bcSegmentSize * iS + c.bcSegmentSize ≤ c.blockSize := (segment_range hiS
      (by omega)).2.2
    have hslen : toSize ((iS + 1) * c.bcSegmentSize - (p.sOff - p.sOff % 8)) =
        c.bcSegmentSize * iS + c.bcSegmentSize - (p.sOff - p.sOff % 8) := by
      rw [show (iS + 1) * (c.bcSegmentSize : ℤ) = c.bcSegmentSize * iS + c.bcSegmentSize by ring]
      exact toSize_eq (by omega) (by omega)
    have hE₀ : 0 ≤ c.bcSegmentSize * iE := hE.1.1
    have helen : toSize (p.eOff - iE * c.bcSegmentSize) = p.eOff - c.bcSegmentSize * iE := by
      rw [mul_comm]
      exact toSize_eq (by omega) (by omega)
    rw [hslen, helen, mul_comm iE]
    have hSw : Access.InRange c size (.buf (p.sOff - p.sOff % 8)
        (c.bcSegmentSize * iS + c.bcSegmentSize - (p.sOff - p.sOff % 8))) :=
      ⟨by omega, by omega, by omega⟩
    have hEw : Access.InRange c size (.buf (c.bcSegmentSize * iE)
        (p.eOff - c.bcSegmentSize * iE)) := ⟨hE.1.1, by omega, by omega⟩
    refine .append (.append (.append (.append (.append ?_ ?_) ?_) ?_) hcopy) ?_
    · exact .ite (fun _ => .one hS.2) fun _ => .nil
    · exact .ite (fun _ => .one hSw) fun _ => .nil
    · exact .ite (fun _ => .one hE.2) fun _ => .nil
    · exact .ite (fun _ => .one hEw) fun _ => .nil
    · refine .flatMap fun i hi => ?_
      obtain ⟨hlo, hhi⟩ := mem_segments.mp hi
      have hmul : c.bcSegmentSize * i ≤ c.bcSegmentSize * iE :=
        mul_le_mul_of_nonneg_left (by omega) (by omega)
      have hI := Access.segment size (by omega : 0 ≤ i)
        (by omega : c.bcSegmentSize * i < c.blockSize)
      exact .ite (fun _ => .two hSw hI.2) fun _ =>
        .ite (fun _ => .two hEw hI.2) fun _ => .two hI.1 hI.2

theorem readAccesses_inRange {nz due : ℤ → Bool} (hp : p.Fits c size) :
    AllIn c size (readAccesses c nz due p) := by
  obtain ⟨hs₀, hlt, hle, -, -⟩ := id hp
  have hpos : (0 : ℤ) < c.bcSegmentSize := by exact_mod_cast c.size_pos
  unfold readAccesses
  refine .append (.ite (fun _ => ?_) fun _ => .nil) (.ite (fun _ => .two hp.copy.2 hp.copy.1)
    fun _ => .nil)
  refine .flatMap fun i hi => ?_
  rw [mem_segments, Int.tdiv_eq_ediv_of_nonneg hs₀, Int.tdiv_eq_ediv_of_nonneg (by omega)] at hi
  have hi₀ : 0 ≤ i := (Int.ediv_nonneg hs₀ hpos.le).trans hi.1
  have hmul : c.bcSegmentSize * (i + 1) ≤ p.eOff + c.bcSegmentSize - 1 :=
    (mul_le_mul_of_nonneg_left (by omega) hpos.le).trans (Int.mul_ediv_self_le hpos.ne')
  rw [mul_add, mul_one] at hmul
  have hI := Access.segment size hi₀ (by omega : c.bcSegmentSize * i < c.blockSize)
  exact .append (.one hI.2) (.ite (fun _ => .one hI.1) fun _ => .nil)

/-! ### Requests -/

/-- What is passed on at a time is no longer than an `int` says, and does not
begin before the file or ends in it and begins with a block. -/
def BlockCacheCtrl.Served (c : BlockCacheCtrl) (off len : ℤ) : Prop :=
  min len c.maxSize < 2 ^ 31 ∧ c.Reaches off (min len c.maxSize)

instance (c : BlockCacheCtrl) (off len : ℤ) : Decidable (c.Served off len) :=
  inferInstanceAs (Decidable (_ ∧ (0 ≤ off ∨ c.blockSize ∣ off ∧ 0 < off + min len c.maxSize)))

/-- `FileCacheWRITE`: a write that fails is made again, after `FileCacheCreate`.
The pieces of both, and whether the last one ends well. `bFile` says that there
is a file. -/
def fileCacheWRITE (c : BlockCacheCtrl) (fuel : ℕ) (bFile : Bool) (off len : ℤ) :
    List Piece × Bool :=
  let r := c.request fuel off len 0
  let ret := if bFile && r.2 then toInt len else -1
  if ret < 0 then ((if bFile then r.1 else []) ++ r.1, r.2) else r

/-- What `FileCacheRead` makes of the size, `stSize` being that of the file. -/
def fileCacheReadSize (stSize off len : ℤ) : ℤ :=
  if toSize stSize < toSize (off + len) then
    if off < stSize then toSize (stSize - off) else 0
  else len

/-- `FileCacheRead`, that finds a file of `stSize` bytes or none. -/
def fileCacheRead (c : BlockCacheCtrl) (fuel : ℕ) (stSize : Option ℤ) (off len : ℤ) :
    List Piece × Bool :=
  match stSize with
  | none => ([], true)
  | some st => c.request fuel off (fileCacheReadSize st off len) 0

namespace BlockCacheCtrl

variable {off len dOff m : ℤ} {fuel : ℕ} {ps : List Piece}

theorem maxSize_pos (hc : c.geMaxCnt ≠ 1) : 0 < c.maxSize := by
  have hB := c.blockSize_pos
  have hlt := c.blockSize_lt
  unfold maxSize
  rcases Nat.eq_zero_or_pos c.geMaxCnt with h | h
  · rw [h, toSize_neg] <;> push_cast <;> omega
  · have hcnt := c.cnt_lt
    have hmul : c.blockSize * 1 ≤ c.blockSize * ((c.geMaxCnt : ℤ) - 1) :=
      mul_le_mul_of_nonneg_left (by omega) hB.le
    have hmul' : c.blockSize * ((c.geMaxCnt : ℤ) - 1) ≤ 2 ^ 25 * 2 ^ 31 :=
      mul_le_mul hlt.le (by omega) (by omega) (by decide)
    rw [toSize_eq (by omega) (by omega)]
    omega

theorem done_covers (h : Covers c.blockSize off m dOff ps) : done ps = toSize (toInt m) := by
  have := c.blockSize_lt
  unfold done
  rw [h.sum (by omega)]

/-- A request that is served is covered, with as much fuel as it is long. -/
theorem request_covers (hc : c.geMaxCnt ≠ 1) (hlen : 0 ≤ len) (hlo : -2 ^ 63 ≤ off)
    (hend : off + len < 2 ^ 63) (hd : 0 ≤ dOff) (hdlt : dOff + len < 2 ^ 63)
    (hs : len = 0 ∨ c.Served off len) :
    ∃ ps, Covers c.blockSize off len dOff ps ∧
      ∀ fuel : ℕ, len ≤ fuel → c.request fuel off len dOff = (ps, true) := by
  have hM := maxSize_pos hc
  obtain ⟨n, hn⟩ : ∃ n : ℕ, len.toNat = n := ⟨_, rfl⟩
  induction n using Nat.strong_induction_on generalizing off len dOff with
  | _ n ih =>
      by_cases h₀ : len = 0
      · refine ⟨[], h₀, fun fuel _ => ?_⟩
        unfold request
        rw [if_pos h₀]
      · obtain ⟨hm, hr⟩ := hs.resolve_left h₀
        have hcov := c.pieces_covers (by omega : 0 < min len c.maxSize) (by omega) hlo (by omega)
          hd (by omega) hr
        have hdone := done_covers hcov
        rw [show toInt (min len c.maxSize) = min len c.maxSize by unfold toInt; omega,
          toSize_eq (by omega) (by omega)] at hdone
        generalize hmm : min len c.maxSize = m at *
        have hnext : len - m = 0 ∨ c.Served (off + m) (len - m) := by
          refine or_iff_not_imp_left.mpr fun hne => ⟨by omega, .inl ?_⟩
          rcases hr with hr | ⟨-, hr⟩ <;> omega
        obtain ⟨qs, hq, hrun⟩ := ih (len - m).toNat (by omega) (by omega) (by omega) (by omega)
          (show 0 ≤ dOff + m by omega) (by omega) hnext rfl
        refine ⟨c.pieces off m dOff ++ qs, ?_, fun fuel hf => ?_⟩
        · have := hcov.append hq
          rwa [add_sub_cancel] at this
        · obtain ⟨f, rfl⟩ : ∃ f, fuel = f + 1 := ⟨fuel - 1, by omega⟩
          unfold request
          rw [if_neg h₀]
          dsimp only
          rw [hmm, hdone, if_neg (by omega), toOff_eq (by omega) (by omega),
            toSize_eq (by omega) (by omega), toOff_eq (by omega) (by omega),
            hrun f (by omega)]

/-- A request that ends well has a piece that begins where its data do. -/
theorem request_head (h₀ : len ≠ 0) (h : c.request fuel off len dOff = (ps, true)) :
    ∃ p qs, ps = p :: qs ∧ p.dOff = dOff := by
  unfold request at h
  rw [if_neg h₀] at h
  cases fuel with
  | zero => cases h
  | succ fuel =>
      dsimp only at h
      split at h
      · cases h
      · rename_i hdone
        obtain ⟨rfl, -⟩ := Prod.mk.inj h
        cases hp : c.pieces off (min len c.maxSize) dOff with
        | nil =>
            rw [hp] at hdone
            exact absurd rfl hdone
        | cons p qs =>
            refine ⟨p, _, rfl, ?_⟩
            unfold pieces blockPieces at hp
            dsimp only at hp
            split at hp
            · cases hp
            · cases hp
              rfl

/-- A request whose pieces are within their blocks does not begin before the
file, and is not passed on in parts longer than an `int` says. -/
theorem request_served {o : ℤ} (hc : c.geMaxCnt ≠ 1) (hB : 1 < c.blockSize) (hlen : 0 < len)
    (hlt : len < 2 ^ 63) (hlo : -2 ^ 63 ≤ off) (hend : off + len < 2 ^ 63)
    (h : c.request fuel off len 0 = (ps, true)) (hcov : Covers c.blockSize o m 0 ps) :
    c.Served off len ∧ min len c.maxSize ≤ m := by
  have hM := maxSize_pos hc
  unfold request at h
  rw [if_neg hlen.ne'] at h
  cases fuel with
  | zero => cases h
  | succ fuel =>
      dsimp only at h
      split at h
      · cases h
      · rename_i hdone
        obtain ⟨rfl, hrest⟩ := Prod.mk.inj h
        have hr : c.Reaches off (min len c.maxSize) := by
          by_contra hr
          obtain ⟨p, hp, hbad⟩ := c.pieces_out hB (by omega : 0 < min len c.maxSize) (by omega) hlo
            (by omega) hr
          obtain ⟨hs, he, -⟩ := hcov.mem (List.mem_append_left _ hp)
          exact hbad ⟨hs, he⟩
        have hfirst := c.pieces_covers (by omega : 0 < min len c.maxSize) (by omega) hlo (by omega)
          le_rfl (by omega) hr
        rw [done_covers hfirst] at hrest hcov
        have hBlt := c.blockSize_lt
        obtain ⟨l, hl, hq⟩ := hcov.split
        rw [← hl.sum (by omega), hfirst.sum (by omega)] at hq
        have hmle : min len c.maxSize ≤ len := min_le_left _ _
        unfold Served
        have hqlen := hq.nonneg
        generalize min len c.maxSize = l at *
        refine ⟨⟨?_, hr⟩, by omega⟩
        by_contra hge
        by_cases h₀ : toSize (len - toSize (toInt l)) = 0
        · unfold toSize toInt at h₀
          omega
        · generalize hreq : c.request fuel (toOff (off + toSize (toInt l)))
            (toSize (len - toSize (toInt l))) (toOff (0 + toSize (toInt l))) = r at hrest hq
          obtain ⟨rs, b⟩ := r
          cases hrest
          obtain ⟨p, qs, rfl, hp⟩ := request_head h₀ hreq
          have hd := hq.2.2.1
          rw [hp] at hd
          unfold toOff toSize toInt at hd
          omega

end BlockCacheCtrl

/-! ### Requests of clients -/

/-- `PFS_APPEND` -/
def pfsAppend : ℤ := -1

/-- A write of `len` bytes, at the end of the file if it says so, to a file of
`stSize` bytes or to a file that is to be made. -/
def WriteInRange (c : BlockCacheCtrl) (bFile : Bool) (stSize off len : ℤ) : Prop :=
  ∃ fuel ps, fileCacheWRITE c fuel bFile off len = (ps, true) ∧
    Covers c.blockSize (if off = pfsAppend then stSize else off) len 0 ps ∧
      ∀ nz sz ez, ∀ p ∈ ps, AllIn c len (writeAccesses c nz sz ez p)

/-- What a request has before the end of the file. -/
def readLeft (stSize off len : ℤ) : ℤ := max 0 (min len (stSize - off))

/-- A read of `len` bytes. -/
def ReadInRange (c : BlockCacheCtrl) (stSize : Option ℤ) (off len : ℤ) : Prop :=
  ∃ fuel ps, fileCacheRead c fuel stSize off len = (ps, true) ∧
    Covers c.blockSize off (stSize.elim 0 fun st => readLeft st off len) 0 ps ∧
      ∀ nz due, ∀ p ∈ ps, AllIn c len (readAccesses c nz due p)

variable {off len m o stSize : ℤ} {ps : List Piece}

theorem Covers.fits (h : Covers c.blockSize o m 0 ps) (hm : m ≤ len) (hp : p ∈ ps) :
    p.Fits c len := by
  obtain ⟨hs, hlt, he, hd, hdl⟩ := h.mem hp
  exact ⟨hs, hlt, he, hd, by omega⟩

theorem Covers.eq_nil (h : Covers c.blockSize o 0 0 ps) : ps = [] := by
  cases ps with
  | nil => rfl
  | cons p ps =>
      obtain ⟨-, -, -, -, hlt, -, h⟩ := h
      have := h.nonneg
      omega

/-- The pieces of a request do not follow one another twice. -/
theorem Covers.once (h : Covers c.blockSize o m 0 (ps ++ ps)) : ps = [] := by
  obtain ⟨l, hl, hm⟩ := h.split
  cases ps with
  | nil => rfl
  | cons p qs =>
      have hl₀ : l = 0 := by
        have := hl.2.1.symm.trans hm.2.1
        omega
      rw [hl₀] at hl
      exact hl.eq_nil

theorem fileCacheWRITE_of_ok {fuel : ℕ} (h : c.request fuel off len 0 = (ps, true))
    (hint : 0 ≤ toInt len) : fileCacheWRITE c fuel true off len = (ps, true) := by
  unfold fileCacheWRITE
  rw [h]
  exact if_neg (not_lt.mpr hint)

theorem fileCacheWRITE_ok {fuel : ℕ} {bFile : Bool}
    (h : fileCacheWRITE c fuel bFile off len = (ps, true)) :
    ∃ qs, c.request fuel off len 0 = (qs, true) ∧
      (ps = qs ∧ (bFile = true → 0 ≤ toInt len) ∨ ps = qs ++ qs) := by
  unfold fileCacheWRITE at h
  cases hr : c.request fuel off len 0 with
  | mk qs b =>
      rw [hr] at h
      refine ⟨qs, ?_⟩
      cases bFile with
      | false =>
          cases h
          exact ⟨rfl, .inl ⟨rfl, fun h => absurd h (by decide)⟩⟩
      | true =>
          by_cases hret : (if true && b then toInt len else -1) < 0
          · rw [if_pos hret] at h
            obtain ⟨rfl, rfl⟩ := Prod.mk.inj h
            exact ⟨rfl, .inr rfl⟩
          · rw [if_neg hret] at h
            cases h
            exact ⟨rfl, .inl ⟨rfl, fun _ => not_lt.mp hret⟩⟩

theorem write_in_range (h8 : c.bcBCksum = true → 8 ∣ c.bcSegmentSize) (hB : 1 < c.blockSize)
    (hc : c.geMaxCnt ≠ 1) (bFile : Bool) (stSize : ℤ) (hlen : 0 ≤ len) (hlt : len < 2 ^ 63)
    (hlo : -2 ^ 63 ≤ off) (hend : off + len < 2 ^ 63) :
    WriteInRange c bFile stSize off len ↔
      len = 0 ∨ c.Served off len ∧ (bFile = true → 0 ≤ toInt len) := by
  constructor
  · rintro ⟨fuel, ps, h, hcov, -⟩
    refine or_iff_not_imp_left.mpr fun h₀ => ?_
    obtain ⟨qs, hr, ⟨rfl, hint⟩ | rfl⟩ := fileCacheWRITE_ok h
    · exact ⟨(BlockCacheCtrl.request_served hc hB (by omega) hlt hlo hend hr hcov).1, hint⟩
    · obtain ⟨p, ps, rfl, -⟩ := BlockCacheCtrl.request_head h₀ hr
      cases hcov.once
  · intro hs
    have hreq : len = 0 ∨ c.Served off len := hs.imp_right And.left
    obtain ⟨ps, hcov, hrun⟩ :=
      BlockCacheCtrl.request_covers hc hlen hlo hend le_rfl (by omega) hreq
    have hrun := hrun len.toNat (by omega)
    have hplace : Covers c.blockSize (if off = pfsAppend then stSize else off) len 0 ps := by
      rcases hs with rfl | ⟨⟨-, hr⟩, -⟩
      · rw [hcov.eq_nil]
        rfl
      · rw [if_neg]
        · exact hcov
        · rintro rfl
          rcases hr with hr | ⟨hr, -⟩
          · exact absurd hr (by decide)
          · have : c.blockSize ≤ 1 := Int.le_of_dvd (by decide) (Int.dvd_neg.mpr hr)
            omega
    have hacc : ∀ nz sz ez, ∀ p ∈ ps, AllIn c len (writeAccesses c nz sz ez p) := fun nz sz ez p hp =>
      writeAccesses_inRange h8 (hcov.fits le_rfl hp)
    refine ⟨len.toNat, ps, ?_, hplace, hacc⟩
    cases bFile with
    | false => exact hrun
    | true =>
        refine fileCacheWRITE_of_ok hrun ?_
        rcases hs with rfl | ⟨-, hint⟩
        · decide
        · exact hint rfl

/-- The size that `FileCacheRead` goes by is what is left, unless the request ends
before the file. -/
theorem fileCacheReadSize_eq (hst : 0 ≤ stSize) (hstlt : stSize < 2 ^ 63)
    (hdist : stSize - off < 2 ^ 63) (hlen : 0 ≤ len) (hend : off + len < 2 ^ 64) :
    fileCacheReadSize stSize off len =
      if 0 ≤ off ∨ 0 ≤ off + len then readLeft stSize off len else stSize - off := by
  unfold fileCacheReadSize readLeft toSize
  split <;> split <;> (try split) <;> omega

theorem read_in_range (hB : 1 < c.blockSize)
    (hc : c.geMaxCnt ≠ 1) (hst : 0 ≤ stSize) (hstlt : stSize < 2 ^ 63) (hlo : -2 ^ 63 ≤ off)
    (hhi : off < 2 ^ 63) (hdist : stSize - off < 2 ^ 63) (hlen : 0 ≤ len) (hend : off + len < 2 ^ 64) :
    ReadInRange c (some stSize) off len ↔
      (0 ≤ off ∨ 0 ≤ off + len) ∧
        (readLeft stSize off len = 0 ∨ c.Served off (readLeft stSize off len)) := by
  have hleft : readLeft stSize off len ≤ len ∧ 0 ≤ readLeft stSize off len ∧
      off + readLeft stSize off len < 2 ^ 63 ∧ readLeft stSize off len < 2 ^ 63 := by
    unfold readLeft
    omega
  have hsize := fileCacheReadSize_eq hst hstlt hdist hlen hend
  constructor
  · rintro ⟨fuel, ps, h, hcov, -⟩
    change c.request fuel off (fileCacheReadSize stSize off len) 0 = _ at h
    rw [hsize] at h
    split at h
    · rename_i hin
      refine ⟨hin, or_iff_not_imp_left.mpr fun h₀ => ?_⟩
      exact (BlockCacheCtrl.request_served hc hB (by omega) (by omega) hlo (by omega) h hcov).1
    · -- what is passed on reaches the file, which the request does not
      rename_i hout
      obtain ⟨⟨-, hr⟩, hle⟩ := BlockCacheCtrl.request_served hc hB (by omega) hdist hlo (by omega)
        h hcov
      change _ ≤ readLeft stSize off len at hle
      rcases hr with hr | ⟨-, hr⟩ <;> omega
  · rintro ⟨hin, hs⟩
    rw [if_pos hin] at hsize
    obtain ⟨ps, hcov, hrun⟩ :=
      BlockCacheCtrl.request_covers hc hleft.2.1 hlo hleft.2.2.1 le_rfl (by omega) hs
    refine ⟨(readLeft stSize off len).toNat, ps, ?_, hcov, fun nz due p hp =>
      readAccesses_inRange (hcov.fits hleft.1 hp)⟩
    change c.request _ off (fileCacheReadSize stSize off len) 0 = _
    rw [hsize]
    exact hrun _ (by omega)

/-- A request of a client stays in range, is covered once and has an append put
at the end of the file if and only if no part that is passed on begins before
the file, but for one that begins with a block and ends in the file, or is
longer than an `int` says, and a read does not end before the file. -/
theorem requests_in_range (c : BlockCacheCtrl) (h8 : c.bcBCksum = true → 8 ∣ c.bcSegmentSize)
    (hB : 1 < c.blockSize) (hc : c.geMaxCnt ≠ 1) (off len : ℤ) (hlo : -2 ^ 63 ≤ off)
    (hhi : off < 2 ^ 63) (hlen : 0 ≤ len) :
    (∀ bFile stSize, len < 2 ^ 63 → off + len < 2 ^ 63 → (WriteInRange c bFile stSize off len ↔
      len = 0 ∨ c.Served off len ∧ (bFile = true → 0 ≤ toInt len))) ∧
    (∀ stSize, 0 ≤ stSize → stSize < 2 ^ 63 → stSize - off < 2 ^ 63 → off + len < 2 ^ 64 →
      (ReadInRange c (some stSize) off len ↔ (0 ≤ off ∨ 0 ≤ off + len) ∧
        (readLeft stSize off len = 0 ∨ c.Served off (readLeft stSize off len)))) ∧
    ReadInRange c none off len := by
  refine ⟨?_, ?_, ?_⟩
  · intro bFile stSize hlt hend
    exact write_in_range h8 hB hc bFile stSize hlen hlt hlo hend
  · intro stSize hst hstlt hdist hend
    exact read_in_range hB hc hst hstlt hlo hhi hdist hlen hend
  · exact ⟨0, [], rfl, rfl, fun _ _ p hp => (List.not_mem_nil hp).elim⟩

/-- 16 blocks of 64 KiB. -/
def sixteenBlocks : BlockCacheCtrl where
  geMaxCnt := 16
  bcSegmentSize := 4096
  bcSegmentNum := 16
  bcBCksum := true
  cnt_lt := by decide
  size_pos := by decide
  num_pos := by decide
  small := by decide

/-- One byte is appended. -/
theorem requests_in_range_append :
    ¬ ∀ (c : BlockCacheCtrl) (bFile : Bool) (stSize off len : ℤ), 0 ≤ stSize → 0 ≤ len →
      WriteInRange c bFile stSize off len := by
  intro h
  have h8 : sixteenBlocks.bcBCksum = true → 8 ∣ sixteenBlocks.bcSegmentSize := fun _ =>
    ⟨512, rfl⟩
  have happend := h sixteenBlocks true 0 pfsAppend 1 le_rfl (by decide)
  rw [write_in_range h8 (by decide) (by decide) true 0 (by decide) (by decide) (by decide)
    (by decide)] at happend
  revert happend
  decide

/-- A page behind the first is written and read. -/
theorem requests_in_range_page :
    WriteInRange sixteenBlocks true 4096 4096 4096 ∧
      ReadInRange sixteenBlocks (some 8192) 4096 4096 := by
  have hpage := requests_in_range sixteenBlocks (fun _ => ⟨512, rfl⟩) (by decide) (by decide) 4096
    4096 (by decide) (by decide) (by decide)
  exact ⟨(hpage.1 true 4096 (by decide) (by decide)).mpr (by decide),
    (hpage.2.1 8192 (by decide) (by decide) (by decide) (by decide)).mpr (by decide)⟩

end PaxosSolutions
