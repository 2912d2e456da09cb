import Mathlib.Data.Int.Order.Basic
import Mathlib.Tactic.Linarith
import Mathlib.Tactic.Ring

/-!
# The blocks of a request

A read or a write of the file cache goes block by block: a piece of the request
is what it has to do with one block. Offsets are signed and sizes are not, so
that their sums and differences are taken as the machine takes them.
-/
namespace PaxosSolutions

/-! ### Machine arithmetic -/

/-- `(off_t)x` -/
def toOff (x : ℤ) : ℤ := (x + 2 ^ 63) % 2 ^ 64 - 2 ^ 63

/-- `(size_t)x` -/
def toSize (x : ℤ) : ℤ := x % 2 ^ 64

/-- `(int)x` -/
def toInt (x : ℤ) : ℤ := (x + 2 ^ 31) % 2 ^ 32 - 2 ^ 31

theorem toOff_eq {x : ℤ} (hlo : -2 ^ 63 ≤ x) (hhi : x < 2 ^ 63) : toOff x = x := by
  unfold toOff
  omega

theorem toSize_eq {x : ℤ} (hlo : 0 ≤ x) (hhi : x < 2 ^ 64) : toSize x = x := by
  unfold toSize
  omega

theorem toSize_neg {x : ℤ} (hlo : -2 ^ 64 ≤ x) (hhi : x < 0) : toSize x = x + 2 ^ 64 := by
  unfold toSize
  omega

/-! ### The cache -/

/-- `BlockCacheCtrl_t`, as `FileCacheInit` sets it. `fc_FileSize` is an `int`
there, of 64 blocks. -/
structure BlockCacheCtrl where
  geMaxCnt : ℕ
  bcSegmentSize : ℕ
  bcSegmentNum : ℕ
  bcBCksum : Bool
  cnt_lt : geMaxCnt < 2 ^ 31
  size_pos : 0 < bcSegmentSize
  num_pos : 0 < bcSegmentNum
  small : bcSegmentSize * bcSegmentNum * 64 < 2 ^ 31

namespace BlockCacheCtrl

/-- `BLOCK_CACHE_SIZE` -/
def blockSize (c : BlockCacheCtrl) : ℤ := c.bcSegmentSize * c.bcSegmentNum

/-- `MAX_SIZE`, as it is compared with a `size_t`. `ge_MaxCnt` is 0 if there is
no bound. -/
def maxSize (c : BlockCacheCtrl) : ℤ := toSize (c.blockSize * (c.geMaxCnt - 1))

theorem blockSize_pos (c : BlockCacheCtrl) : 0 < c.blockSize := by
  have hs : (0 : ℤ) < c.bcSegmentSize := by exact_mod_cast c.size_pos
  have hn : (0 : ℤ) < c.bcSegmentNum := by exact_mod_cast c.num_pos
  exact mul_pos hs hn

theorem blockSize_lt (c : BlockCacheCtrl) : c.blockSize < 2 ^ 25 := by
  have h : (c.bcSegmentSize * c.bcSegmentNum * 64 : ℤ) < 2 ^ 31 := by exact_mod_cast c.small
  unfold blockSize
  omega

end BlockCacheCtrl

/-- What a request has to do with one block: `k_Offset`, `sOff`, `eOff` and `dOff`. -/
structure Piece where
  kOffset : ℤ
  sOff : ℤ
  eOff : ℤ
  dOff : ℤ
deriving DecidableEq, Repr

/-- `Len` -/
def Piece.len (p : Piece) : ℤ := toSize (p.eOff - p.sOff)

/-- The loop of `BlockCacheWrite` and `BlockCacheRead` from block `iB` on, for
as many turns. -/
def blockPieces (size : ℤ) : ℕ → ℤ → ℤ → ℤ → ℤ → List Piece
  | 0, _, _, _, _ => []
  | n + 1, iB, off, len, dOff =>
      let kOffset := toOff (size * iB)
      let p : Piece := ⟨kOffset, toOff (off - kOffset), min (toOff (off + len - kOffset)) size, dOff⟩
      p :: blockPieces size n (iB + 1) (toOff (off + p.len)) (toSize (len - p.len))
        (toOff (dOff + p.len))

/-- The pieces of `BlockCacheWrite` and `BlockCacheRead`: from `iBS` to `iBE`,
the last of which is divided without sign. -/
def BlockCacheCtrl.pieces (c : BlockCacheCtrl) (off len dOff : ℤ) : List Piece :=
  let iBS := off.tdiv c.blockSize
  let iBE := toOff (toSize (off + len - 1) / c.blockSize)
  blockPieces c.blockSize (iBE - iBS + 1).toNat iBS off len dOff

/-- What `BlockCacheWrite` and `BlockCacheRead` return, an `int`, as it is added
to offsets and sizes. -/
def BlockCacheCtrl.done (ps : List Piece) : ℤ := toSize (toInt (ps.map Piece.len).sum)

/-- The loop of `FileCacheWrite` and `FileCacheRead`: the pieces of what it
passes on, and whether it ends well. -/
def BlockCacheCtrl.request (c : BlockCacheCtrl) : ℕ → ℤ → ℤ → ℤ → List Piece × Bool
  | fuel, off, len, dOff =>
      if len = 0 then ([], true)
      else
        match fuel with
        | 0 => ([], false)
        | fuel + 1 =>
            let ps := c.pieces off (min len c.maxSize) dOff
            let l := BlockCacheCtrl.done ps
            if l = 0 then (ps, false)
            else
              let r := c.request fuel (toOff (off + l)) (toSize (len - l)) (toOff (dOff + l))
              (ps ++ r.1, r.2)

/-! ### What a request is to do -/

/-- The pieces are consecutive, each within its block, and make up the request
of `len` bytes at `off` whose data are at `dOff`. -/
def Covers (size : ℤ) : ℤ → ℤ → ℤ → List Piece → Prop
  | _, len, _, [] => len = 0
  | off, len, dOff, p :: ps =>
      size ∣ p.kOffset ∧ p.kOffset + p.sOff = off ∧ p.dOff = dOff ∧
        0 ≤ p.sOff ∧ p.sOff < p.eOff ∧ p.eOff ≤ size ∧
          Covers size (off + (p.eOff - p.sOff)) (len - (p.eOff - p.sOff))
            (dOff + (p.eOff - p.sOff)) ps

variable {B iB off len dOff m l : ℤ} {n : ℕ} {ps qs : List Piece}

theorem Covers.nonneg (h : Covers B off len dOff ps) : 0 ≤ len := by
  induction ps generalizing off len dOff with
  | nil => exact le_of_eq h.symm
  | cons p ps ih =>
      obtain ⟨-, -, -, -, hlt, -, h⟩ := h
      have := ih h
      omega

/-- A piece is within its block and within the data. -/
theorem Covers.mem (h : Covers B off len dOff ps) {p : Piece} (hp : p ∈ ps) :
    0 ≤ p.sOff ∧ p.sOff < p.eOff ∧ p.eOff ≤ B ∧
      dOff ≤ p.dOff ∧ p.dOff + (p.eOff - p.sOff) ≤ dOff + len := by
  induction ps generalizing off len dOff with
  | nil => cases hp
  | cons q ps ih =>
      obtain ⟨-, -, hd, hs, hlt, he, h⟩ := h
      rcases List.mem_cons.mp hp with rfl | hp
      · have := h.nonneg
        omega
      · have := ih h hp
        omega

theorem Covers.append (hp : Covers B off len dOff ps) (hq : Covers B (off + len) m (dOff + len) qs) :
    Covers B off (len + m) dOff (ps ++ qs) := by
  induction ps generalizing off len dOff with
  | nil =>
      cases hp
      simpa using hq
  | cons p ps ih =>
      obtain ⟨hk, ho, hd, hs, hlt, he, hp⟩ := hp
      refine ⟨hk, ho, hd, hs, hlt, he, ?_⟩
      rw [add_sub_right_comm]
      refine ih hp ?_
      rwa [add_add_sub_cancel, add_add_sub_cancel]

theorem Covers.split (h : Covers B off len dOff (ps ++ qs)) :
    ∃ m, Covers B off m dOff ps ∧ Covers B (off + m) (len - m) (dOff + m) qs := by
  induction ps generalizing off len dOff with
  | nil => exact ⟨0, rfl, by simpa using h⟩
  | cons p ps ih =>
      obtain ⟨hk, ho, hd, hs, hlt, he, h⟩ := h
      obtain ⟨m, hp, hq⟩ := ih h
      refine ⟨p.eOff - p.sOff + m, ⟨hk, ho, hd, hs, hlt, he, ?_⟩, ?_⟩
      · rwa [add_sub_cancel_left]
      · rwa [← add_assoc, ← add_assoc, ← sub_sub]

theorem Piece.len_eq {p : Piece} (hs : p.sOff < p.eOff) (hB : p.eOff - p.sOff < 2 ^ 64) :
    p.len = p.eOff - p.sOff :=
  toSize_eq (by omega) hB

theorem Covers.sum (h : Covers B off len dOff ps) (hB : B < 2 ^ 64) :
    (ps.map Piece.len).sum = len := by
  induction ps generalizing off len dOff with
  | nil => exact h.symm
  | cons p ps ih =>
      obtain ⟨-, -, -, hs, hlt, he, h⟩ := h
      rw [List.map_cons, List.sum_cons, ih h, Piece.len_eq hlt (by omega)]
      omega

/-! ### The loop over the blocks -/

/-- A turn of the loop that finds its offset in block `iB`. -/
theorem blockPieces_succ (hB : B < 2 ^ 25) (hlo : -2 ^ 63 ≤ B * iB) (hs : B * iB ≤ off)
    (hoff : off < B * iB + B) (hlen : 0 ≤ len) (hlt : len < 2 ^ 63) (hend : off + len < 2 ^ 63)
    (hspan : off + len - B * iB < 2 ^ 63) (hl : l = min (off + len - B * iB) B - (off - B * iB)) :
    blockPieces B (n + 1) iB off len dOff =
      ⟨B * iB, off - B * iB, min (off + len - B * iB) B, dOff⟩ ::
        blockPieces B n (iB + 1) (off + l) (len - l) (toOff (dOff + l)) := by
  have hk : toOff (B * iB) = B * iB := toOff_eq hlo (by omega)
  have hp : Piece.len ⟨B * iB, off - B * iB, min (off + len - B * iB) B, dOff⟩ = l := by
    rw [hl]
    exact toSize_eq (by dsimp only; omega) (by dsimp only; omega)
  rw [blockPieces]
  simp only [hk, toOff_eq (x := off - B * iB) (by omega) (by omega),
    toOff_eq (x := off + len - B * iB) (by omega) (by omega), hp]
  rw [toOff_eq (x := off + l) (by omega) (by omega), toSize_eq (by omega) (by omega)]

/-- As many turns as there are blocks in the request. -/
theorem blockPieces_covers (hB : B < 2 ^ 25) (hlo : -2 ^ 63 ≤ B * iB) (hs : B * iB ≤ off)
    (hoff : off < B * iB + B) (hlen : 0 < len) (hlt : len < 2 ^ 63) (hend : off + len < 2 ^ 63)
    (hspan : off + len - B * iB < 2 ^ 63) (hd : 0 ≤ dOff) (hdlt : dOff + len < 2 ^ 63)
    (hn : B * (iB + n - 1) < off + len) (hn' : off + len ≤ B * (iB + n)) :
    Covers B off len dOff (blockPieces B n iB off len dOff) := by
  induction n generalizing iB off len dOff with
  | zero =>
      simp only [Nat.cast_zero, add_zero] at hn'
      omega
  | succ n ih =>
      rw [blockPieces_succ hB hlo hs hoff hlen.le hlt hend hspan rfl]
      refine ⟨⟨iB, rfl⟩, by ring, rfl, by dsimp only; omega, by dsimp only; omega, min_le_right _ _,
        ?_⟩
      dsimp only
      rw [Nat.cast_succ, ← add_assoc] at hn'
      rw [Nat.cast_succ, ← add_assoc, add_sub_cancel_right] at hn
      by_cases hlast : off + len ≤ B * iB + B
      · -- the request ends in this block
        have hn₀ : n = 0 := by
          by_contra hne
          have : B * (iB + 1) ≤ B * (iB + n) :=
            mul_le_mul_of_nonneg_left (by omega) (by omega)
          rw [mul_add, mul_one] at this
          omega
        subst hn₀
        change len - _ = 0
        omega
      · have hnext : off + (min (off + len - B * iB) B - (off - B * iB)) = B * (iB + 1) := by
          rw [mul_add, mul_one]
          omega
        have hmul : B * (iB + 1) = B * iB + B := by ring
        rw [toOff_eq (by omega) (by omega), hnext]
        refine ih (by omega) (le_refl _) (by omega) (by omega) (by omega) (by omega) (by omega)
          (by omega) (by omega) ?_ ?_
        · rw [show iB + 1 + (n : ℤ) - 1 = iB + n by ring]
          omega
        · rw [show iB + 1 + (n : ℤ) = iB + n + 1 by ring]
          omega

/-- More turns than there are blocks in the request: the turn behind the last
has nothing to do, which no piece is. -/
theorem blockPieces_overrun (hB : B < 2 ^ 25) (hlo : -2 ^ 63 ≤ B * iB) (hs : B * iB ≤ off)
    (hoff : off < B * iB + B) (hlen : 0 < len) (hlt : len < 2 ^ 63) (hend : off + len < 2 ^ 63)
    (hspan : off + len - B * iB < 2 ^ 63) (hn : off + len ≤ B * (iB + n - 1)) :
    ∃ p ∈ blockPieces B n iB off len dOff, ¬ p.sOff < p.eOff := by
  induction n generalizing iB off len dOff with
  | zero =>
      have : B * (iB + (0 : ℕ) - 1) = B * iB - B := by
        rw [Nat.cast_zero]
        ring
      omega
  | succ n ih =>
      rw [blockPieces_succ hB hlo hs hoff hlen.le hlt hend hspan rfl]
      rw [Nat.cast_succ, ← add_assoc, add_sub_cancel_right] at hn
      by_cases hlast : off + len ≤ B * iB + B
      · cases n with
        | zero =>
            rw [Nat.cast_zero, add_zero] at hn
            omega
        | succ n =>
            refine ⟨_, List.mem_cons_of_mem _ List.mem_cons_self, ?_⟩
            have hrest : len - (min (off + len - B * iB) B - (off - B * iB)) = 0 := by omega
            dsimp only
            rw [hrest, add_zero]
            exact not_lt.mpr (min_le_left _ _)
      · have hnext : off + (min (off + len - B * iB) B - (off - B * iB)) = B * (iB + 1) := by
          rw [mul_add, mul_one]
          omega
        have hmul : B * (iB + 1) = B * iB + B := by ring
        rw [hnext]
        have hrest : B * (iB + 1) + (len - (min (off + len - B * iB) B - (off - B * iB))) ≤
            B * (iB + 1 + n - 1) := by
          rw [show iB + 1 + (n : ℤ) - 1 = iB + n by ring]
          omega
        refine (ih ?_ (le_refl _) ?_ ?_ ?_ ?_ ?_ hrest).imp fun p hp =>
          ⟨List.mem_cons_of_mem _ hp.1, hp.2⟩
        all_goals omega

namespace BlockCacheCtrl

variable (c : BlockCacheCtrl)

/-- A request that does not begin before the file, or ends in it and begins
with a block. -/
def Reaches (off len : ℤ) : Prop := 0 ≤ off ∨ c.blockSize ∣ off ∧ 0 < off + len

/-- The first block of such a request. -/
theorem Reaches.first (hlt : len < 2 ^ 63) (hlo : -2 ^ 63 ≤ off) (hend : off + len < 2 ^ 63)
    (hr : c.Reaches off len) :
    off.tdiv c.blockSize = off / c.blockSize ∧ -2 ^ 63 ≤ c.blockSize * (off / c.blockSize) ∧
      off + len - c.blockSize * (off / c.blockSize) < 2 ^ 63 := by
  rcases hr with hr | ⟨hr, -⟩
  · have hq : 0 ≤ c.blockSize * (off / c.blockSize) :=
      mul_nonneg c.blockSize_pos.le (Int.ediv_nonneg hr c.blockSize_pos.le)
    exact ⟨Int.tdiv_eq_ediv_of_nonneg hr, by omega, by omega⟩
  · rw [Int.mul_ediv_cancel' hr]
    exact ⟨Int.tdiv_eq_ediv_of_dvd hr, hlo, by omega⟩

theorem pieces_covers (hlen : 0 < len) (hlt : len < 2 ^ 63) (hlo : -2 ^ 63 ≤ off)
    (hend : off + len < 2 ^ 63) (hd : 0 ≤ dOff) (hdlt : dOff + len < 2 ^ 63)
    (hr : c.Reaches off len) : Covers c.blockSize off len dOff (c.pieces off len dOff) := by
  have hB := c.blockSize_pos
  have hBlt := c.blockSize_lt
  have hpos : 0 < off + len := by
    rcases hr with hr | ⟨-, hr⟩
    · omega
    · exact hr
  obtain ⟨hq, hklo, hspan⟩ := Reaches.first c hlt hlo hend hr
  have hele : c.blockSize * ((off + len - 1) / c.blockSize) ≤ off + len - 1 :=
    Int.mul_ediv_self_le hB.ne'
  have helt : off + len - 1 < c.blockSize * ((off + len - 1) / c.blockSize) + c.blockSize :=
    Int.lt_mul_ediv_self_add hB
  have he : toOff (toSize (off + len - 1) / c.blockSize) = (off + len - 1) / c.blockSize := by
    rw [toSize_eq (by omega) (by omega)]
    have h₀ := Int.ediv_nonneg (show 0 ≤ off + len - 1 by omega) hB.le
    have h₁ := Int.ediv_le_self c.blockSize (show 0 ≤ off + len - 1 by omega)
    exact toOff_eq (by omega) (by omega)
  have hqe : off / c.blockSize ≤ (off + len - 1) / c.blockSize := Int.ediv_le_ediv hB (by omega)
  have hn : (((off + len - 1) / c.blockSize - off / c.blockSize + 1).toNat : ℤ) =
      (off + len - 1) / c.blockSize - off / c.blockSize + 1 := Int.toNat_of_nonneg (by omega)
  unfold pieces
  rw [hq, he]
  refine blockPieces_covers hBlt hklo (Int.mul_ediv_self_le hB.ne') (Int.lt_mul_ediv_self_add hB)
    hlen hlt hend hspan hd hdlt ?_ ?_
  · rw [hn, show off / c.blockSize + ((off + len - 1) / c.blockSize - off / c.blockSize + 1) - 1 =
      (off + len - 1) / c.blockSize by ring]
    omega
  · rw [hn, show off / c.blockSize + ((off + len - 1) / c.blockSize - off / c.blockSize + 1) =
      (off + len - 1) / c.blockSize + 1 by ring, mul_add, mul_one]
    omega

/-- A request that begins before the file has a piece out of its block. -/
theorem pieces_out (hB : 1 < c.blockSize) (hlen : 0 < len) (hlt : len < 2 ^ 63)
    (hlo : -2 ^ 63 ≤ off) (hend : off + len < 2 ^ 63) (hr : ¬ c.Reaches off len) :
    ∃ p ∈ c.pieces off len dOff, ¬ (0 ≤ p.sOff ∧ p.sOff < p.eOff) := by
  obtain ⟨hneg, hr⟩ := not_or.mp hr
  have hBlt := c.blockSize_lt
  have hsize : 0 ≤ toSize (off + len - 1) ∧ toSize (off + len - 1) < 2 ^ 64 :=
    ⟨Int.emod_nonneg _ (by decide), Int.emod_lt_of_pos _ (by decide)⟩
  have he₀ := Int.ediv_nonneg hsize.1 c.blockSize_pos.le
  have hehalf : toSize (off + len - 1) / c.blockSize < 2 ^ 63 := by
    refine Int.ediv_lt_of_lt_mul c.blockSize_pos ?_
    nlinarith
  have he : toOff (toSize (off + len - 1) / c.blockSize) =
      toSize (off + len - 1) / c.blockSize := toOff_eq (by omega) hehalf
  unfold pieces
  by_cases hdvd : c.blockSize ∣ off
  · -- the last block is far behind the file, and the request ends before
    have hle : off + len ≤ 0 := not_lt.mp fun h => hr ⟨hdvd, h⟩
    have hmul : c.blockSize * (off / c.blockSize) = off := Int.mul_ediv_cancel' hdvd
    have hq : off / c.blockSize ≤ 0 := by
      by_contra hq
      have := mul_pos c.blockSize_pos (not_le.mp hq)
      omega
    rw [Int.tdiv_eq_ediv_of_dvd hdvd, he]
    refine (blockPieces_overrun hBlt (by omega) hmul.le (by omega) hlen hlt hend (by omega)
      ?_).imp fun p hp => ⟨hp.1, mt And.right hp.2⟩
    rw [Int.toNat_of_nonneg (by omega), show off / c.blockSize +
      (toSize (off + len - 1) / c.blockSize - off / c.blockSize + 1) - 1 =
        toSize (off + len - 1) / c.blockSize by ring]
    have := mul_nonneg c.blockSize_pos.le he₀
    omega
  · -- the first block begins behind the request
    have hq : off.tdiv c.blockSize = -(-off / c.blockSize) := by
      rw [← Int.tdiv_eq_ediv_of_nonneg (by omega), Int.neg_tdiv, neg_neg]
    have hq₀ := Int.ediv_nonneg (show 0 ≤ -off by omega) c.blockSize_pos.le
    have hle : c.blockSize * (-off / c.blockSize) ≤ -off := Int.mul_ediv_self_le (by omega)
    have hne : c.blockSize * (-off / c.blockSize) ≠ -off := fun h =>
      hdvd (Int.dvd_neg.mp ⟨_, h.symm⟩)
    have hlt' : -off < c.blockSize * (-off / c.blockSize) + c.blockSize :=
      Int.lt_mul_ediv_self_add c.blockSize_pos
    have hk₀ := mul_nonneg c.blockSize_pos.le hq₀
    obtain ⟨n, hn⟩ : ∃ n, (toSize (off + len - 1) / c.blockSize - -(-off / c.blockSize) +
        1).toNat = n + 1 := ⟨_, (Nat.succ_pred_eq_of_pos (by omega)).symm⟩
    dsimp only
    rw [he, hq, hn]
    refine ⟨_, List.mem_cons_self, ?_⟩
    have hsOff : toOff (off - toOff (c.blockSize * -(-off / c.blockSize))) < 0 := by
      rw [mul_neg, toOff_eq (x := -(c.blockSize * (-off / c.blockSize))) (by omega) (by omega),
        toOff_eq (by omega) (by omega)]
      omega
    dsimp only
    omega

end BlockCacheCtrl

end PaxosSolutions
