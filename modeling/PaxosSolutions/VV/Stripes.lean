import PaxosSolutions.VV.LockTable
import Mathlib.Data.List.Range
import Mathlib.Data.List.Nodup

/-!
# Stripes of a virtual volume

The units of a volume go round its stripes. A group of segments has one segment
for each stripe, and 128 units of each. A request is cut at the snap units, and a
piece goes to one segment, at the offset there of its first byte.
-/
namespace PaxosSolutions

def VV_STRIPE_MAX : ℕ := 8

/-- `B2U` -/
def b2u (b : ℕ) : ℕ := b / VV_UNIT_SIZE

/-- `B2UO` -/
def b2uo (b : ℕ) : ℕ := b % VV_UNIT_SIZE

/-- `B2SI` -/
def b2si (pVV : VV) (b : ℕ) : ℕ := b2u b % pVV.vvStripes

/-- `B2VO` -/
def b2vo (pVV : VV) (b : ℕ) : ℕ := b % pVV.vsSize

/-- `B2LU` -/
def b2lu (pVV : VV) (b : ℕ) : ℕ := b2vo pVV b / VV_UNIT_SIZE / pVV.vvStripes

/-- `B2LO` -/
def b2lo (pVV : VV) (b : ℕ) : ℕ := b2lu pVV b * VV_UNIT_SIZE + b2uo b

/-- The place of a byte: the group of segments, the segment, and the offset in it. -/
def stripePlace (pVV : VV) (b : ℕ) : ℕ × ℕ × ℕ := (b2vs pVV b, b2si pVV b, b2lo pVV b)

/-- `VS_Id_t` -/
structure VSId where
  vsVV : String
  vsVS : ℕ
  vsSI : ℕ
deriving DecidableEq, Repr

def LV_IO_FREE : ℕ := 1

/-- `LV_IO_t`, its buffer by the position in that of the request. -/
structure LVReq where
  flag : ℕ
  pBuf : ℕ
  len : ℕ
  off : ℕ
deriving DecidableEq, Repr

/-- What `LS_IOInsertReqIO` is given, and the segment. -/
structure SegmentReq where
  vs : VSId
  reqIo : LVReq
deriving DecidableEq, Repr

/-- `VVReadRequestVS` and `VVWriteRequestVS` up to their flag. `vs` is the number of
the group of segments. -/
def vvRequestVS (pVV : VV) (vs pBuff length offset flag : ℕ) : SegmentReq :=
  let off := b2uo offset
  { vs := ⟨pVV.dbName, vs, b2si pVV offset⟩
    reqIo :=
      { flag := flag
        pBuf := pBuff
        len := if VV_UNIT_SIZE < off + length then VV_UNIT_SIZE - off else length
        off := b2lo pVV offset } }

/-- `VVReadRequestVS` -/
def vvReadRequestVS (pVV : VV) (vs pBuff length offset : ℕ) : SegmentReq :=
  vvRequestVS pVV vs pBuff length offset 0

/-- `VVWriteRequestVS` -/
def vvWriteRequestVS (pVV : VV) (vs pBuff length offset flag : ℕ) : SegmentReq :=
  vvRequestVS pVV vs pBuff length offset flag

/-- The end of `VVReadRequestSnapUnitFormer` where there is a segment. -/
def readSnapUnit (pVV : VV) (pBuff off len : ℕ) : SegmentReq :=
  vvReadRequestVS pVV (b2vs pVV off) pBuff len off

/-- The end of `VVWriteRequestSnapUnit`. Where its unit is copied, the whole unit is
written from a buffer of its own. -/
def writeSnapUnit (pVV : VV) (copied : Bool) (pBuff off len : ℕ) : SegmentReq :=
  if copied then
    vvWriteRequestVS pVV (b2vs pVV off) 0 SNAP_UNIT_SIZE
      (SNAP_UNIT_SIZE * (off / SNAP_UNIT_SIZE)) LV_IO_FREE
  else vvWriteRequestVS pVV (b2vs pVV off) pBuff len off 0

/-- The places of the bytes of a request to a segment, in their order. -/
def SegmentReq.places (rq : SegmentReq) : List (ℕ × ℕ × ℕ) :=
  (List.range' rq.reqIo.off rq.reqIo.len).map fun lo => (rq.vs.vsVS, rq.vs.vsSI, lo)

/-! ### A byte and its place -/

variable {pVV : VV}

/-- The group of segments by the number of the unit. -/
theorem b2vs_eq (pVV : VV) (b : ℕ) : b2vs pVV b = b2u b / pVV.vvStripes / VV_UNITS := by
  have hsize : pVV.vsSize = VV_UNIT_SIZE * (pVV.vvStripes * VV_UNITS) := by
    unfold VV.vsSize VV_LS_SIZE
    rw [Nat.mul_assoc, Nat.mul_comm VV_UNITS]
  rw [b2vs, hsize, ← Nat.div_div_eq_div_mul, ← Nat.div_div_eq_div_mul, b2u]

/-- The unit in its segment by the number of the unit. -/
theorem b2lu_eq (pVV : VV) (b : ℕ) : b2lu pVV b = b2u b / pVV.vvStripes % VV_UNITS := by
  have hsize : pVV.vsSize = VV_UNIT_SIZE * (pVV.vvStripes * VV_UNITS) := by
    unfold VV.vsSize VV_LS_SIZE
    rw [Nat.mul_assoc, Nat.mul_comm VV_UNITS]
  rw [b2lu, b2vo, hsize, Nat.mod_mul_right_div_self, Nat.mod_mul_right_div_self, b2u]

theorem b2uo_lt (b : ℕ) : b2uo b < VV_UNIT_SIZE := Nat.mod_lt _ (by decide)

theorem b2lu_lt (pVV : VV) (b : ℕ) : b2lu pVV b < VV_UNITS := by
  rw [b2lu_eq]
  exact Nat.mod_lt _ (by decide)

theorem b2si_lt (hstripes : 1 ≤ pVV.vvStripes) (b : ℕ) : b2si pVV b < pVV.vvStripes :=
  Nat.mod_lt _ hstripes

theorem b2lo_lt (pVV : VV) (b : ℕ) : b2lo pVV b < VV_LS_SIZE := by
  have hlu := b2lu_lt pVV b
  have huo := b2uo_lt b
  unfold b2lo
  unfold VV_LS_SIZE VV_UNITS VV_UNIT_SIZE SNAP_UNIT_SIZE at *
  omega

theorem b2lo_div (pVV : VV) (b : ℕ) : b2lo pVV b / VV_UNIT_SIZE = b2lu pVV b := by
  have huo := b2uo_lt b
  unfold b2lo
  unfold VV_UNIT_SIZE SNAP_UNIT_SIZE at *
  omega

theorem b2lo_mod (pVV : VV) (b : ℕ) : b2lo pVV b % VV_UNIT_SIZE = b2uo b := by
  have huo := b2uo_lt b
  unfold b2lo
  unfold VV_UNIT_SIZE SNAP_UNIT_SIZE at *
  omega

/-- The byte at a place. -/
def placedByte (pVV : VV) (vs si lo : ℕ) : ℕ :=
  (((vs * VV_UNITS + lo / VV_UNIT_SIZE) * pVV.vvStripes + si) * VV_UNIT_SIZE) + lo % VV_UNIT_SIZE

theorem placedByte_stripePlace (pVV : VV) (b : ℕ) :
    placedByte pVV (b2vs pVV b) (b2si pVV b) (b2lo pVV b) = b := by
  have hgroup : b2vs pVV b * VV_UNITS + b2lu pVV b = b2u b / pVV.vvStripes := by
    rw [b2vs_eq, b2lu_eq, Nat.div_add_mod']
  have hunit : b2u b / pVV.vvStripes * pVV.vvStripes + b2si pVV b = b2u b :=
    Nat.div_add_mod' _ _
  calc placedByte pVV (b2vs pVV b) (b2si pVV b) (b2lo pVV b)
      = ((b2vs pVV b * VV_UNITS + b2lu pVV b) * pVV.vvStripes + b2si pVV b) * VV_UNIT_SIZE
          + b2uo b := by rw [placedByte, b2lo_div, b2lo_mod]
    _ = b2u b * VV_UNIT_SIZE + b2uo b := by rw [hgroup, hunit]
    _ = b := Nat.div_add_mod' _ _

theorem stripePlace_placedByte {vs si lo : ℕ} (hsi : si < pVV.vvStripes) (hlo : lo < VV_LS_SIZE) :
    stripePlace pVV (placedByte pVV vs si lo) = (vs, si, lo) := by
  have hmod : lo % VV_UNIT_SIZE < VV_UNIT_SIZE := Nat.mod_lt _ (by decide)
  have hpos : 0 < VV_UNIT_SIZE := by decide
  have hlu : lo / VV_UNIT_SIZE < VV_UNITS := (Nat.div_lt_iff_lt_mul hpos).mpr (by
    rw [Nat.mul_comm]
    exact hlo)
  have hb2u : b2u (placedByte pVV vs si lo)
      = (vs * VV_UNITS + lo / VV_UNIT_SIZE) * pVV.vvStripes + si := by
    rw [b2u, placedByte, Nat.mul_comm _ VV_UNIT_SIZE, Nat.mul_add_div hpos,
      Nat.div_eq_of_lt hmod, Nat.add_zero]
  have hb2uo : b2uo (placedByte pVV vs si lo) = lo % VV_UNIT_SIZE := by
    rw [b2uo, placedByte, Nat.mul_add_mod_of_lt hmod]
  have hrow : b2u (placedByte pVV vs si lo) / pVV.vvStripes
      = vs * VV_UNITS + lo / VV_UNIT_SIZE := by
    rw [hb2u, Nat.mul_comm _ pVV.vvStripes, Nat.mul_add_div (by omega),
      Nat.div_eq_of_lt hsi, Nat.add_zero]
  have hvs : b2vs pVV (placedByte pVV vs si lo) = vs := by
    rw [b2vs_eq, hrow, Nat.mul_comm, Nat.mul_add_div (by decide), Nat.div_eq_of_lt hlu,
      Nat.add_zero]
  have hsi' : b2si pVV (placedByte pVV vs si lo) = si := by
    rw [b2si, hb2u, Nat.mul_add_mod_of_lt hsi]
  have hlo' : b2lo pVV (placedByte pVV vs si lo) = lo := by
    rw [b2lo, b2lu_eq, hrow, Nat.mul_add_mod_of_lt hlu, hb2uo, Nat.div_add_mod']
  rw [stripePlace, hvs, hsi', hlo']

theorem stripePlace_injective (pVV : VV) : Function.Injective (stripePlace pVV) := by
  intro b b' h
  simp only [stripePlace, Prod.mk.injEq] at h
  obtain ⟨hvs, hsi, hlo⟩ := h
  rw [← placedByte_stripePlace pVV b, hvs, hsi, hlo, placedByte_stripePlace]

/-- Bytes of one unit follow each other in a segment. -/
theorem stripePlace_add (pVV : VV) {off k : ℕ} (hk : b2uo off + k < VV_UNIT_SIZE) :
    stripePlace pVV (off + k) = (b2vs pVV off, b2si pVV off, b2lo pVV off + k) := by
  have hunit : b2u (off + k) = b2u off := by
    unfold b2u
    unfold b2uo at hk
    unfold VV_UNIT_SIZE SNAP_UNIT_SIZE at *
    omega
  have hin : b2uo (off + k) = b2uo off + k := by
    unfold b2uo at *
    unfold VV_UNIT_SIZE SNAP_UNIT_SIZE at *
    omega
  simp only [stripePlace, b2vs_eq, b2si, b2lo, b2lu_eq, hunit, hin, Nat.add_assoc]

/-! ### Pieces of a request -/

/-- A request to a segment for a piece: all of it, inside the segment, and each byte
next to the one before. -/
structure SegmentReq.Straight (rq : SegmentReq) (pVV : VV) (off len : ℕ) : Prop where
  whole : rq.reqIo.len = len
  inside : rq.reqIo.off + len ≤ VV_LS_SIZE
  bytes : ∀ k < len, stripePlace pVV (off + k) = (rq.vs.vsVS, rq.vs.vsSI, rq.reqIo.off + k)

theorem SegmentReq.Straight.places {rq : SegmentReq} {off len : ℕ} (h : rq.Straight pVV off len) :
    rq.places = (List.range' off len).map (stripePlace pVV) := by
  unfold SegmentReq.places
  rw [h.whole, List.range'_eq_map_range, List.range'_eq_map_range, List.map_map, List.map_map]
  apply List.map_congr_left
  intro k hk
  exact (h.bytes k (List.mem_range.mp hk)).symm

/-- A piece inside a snap unit is inside a unit of a segment. -/
theorem vvRequestVS_straight (pVV : VV) (pBuff flag : ℕ) {off len : ℕ}
    (hin : off % SNAP_UNIT_SIZE + len ≤ SNAP_UNIT_SIZE) :
    (vvRequestVS pVV (b2vs pVV off) pBuff len off flag).Straight pVV off len := by
  have hunit : b2uo off + len ≤ VV_UNIT_SIZE := by
    unfold b2uo
    unfold VV_UNIT_SIZE SNAP_UNIT_SIZE at *
    omega
  refine ⟨if_neg (by omega), ?_, ?_⟩
  · have hlu := b2lu_lt pVV off
    change b2lo pVV off + len ≤ VV_LS_SIZE
    unfold b2lo
    unfold VV_LS_SIZE VV_UNITS VV_UNIT_SIZE SNAP_UNIT_SIZE at *
    omega
  · intro k hk
    exact stripePlace_add pVV (by omega)

/-- No piece crosses the end of its snap unit. -/
theorem snapPieces_inside {fuel off stop : ℕ} :
    ∀ p ∈ snapPieces fuel off stop, p.1 % SNAP_UNIT_SIZE + p.2 ≤ SNAP_UNIT_SIZE := by
  induction fuel generalizing off with
  | zero => simp [snapPieces]
  | succ fuel ih =>
      intro p hp
      unfold snapPieces at hp
      split_ifs at hp with hlt
      · rcases List.mem_cons.mp hp with rfl | hp
        · unfold SNAP_UNIT_SIZE
          dsimp only
          split_ifs <;> omega
        · exact ih p hp
      · cases hp

/-- The pieces are the range, in its order. -/
theorem snapPieces_tile {fuel off stop : ℕ} (hfuel : stop ≤ off + fuel) :
    (snapPieces fuel off stop).flatMap (fun p => List.range' p.1 p.2)
      = List.range' off (stop - off) := by
  induction fuel generalizing off with
  | zero =>
      rw [Nat.sub_eq_zero_of_le (by omega)]
      rfl
  | succ fuel ih =>
      unfold snapPieces
      split_ifs with hlt
      · dsimp only
        generalize hlen : (if stop < (off / SNAP_UNIT_SIZE + 1) * SNAP_UNIT_SIZE then stop - off
          else (off / SNAP_UNIT_SIZE + 1) * SNAP_UNIT_SIZE - off) = len
        have hpos : 0 < len ∧ off + len ≤ stop := by
          unfold SNAP_UNIT_SIZE at hlen
          split_ifs at hlen <;> omega
        rw [List.flatMap_cons, ih (by omega), List.range'_append_1]
        congr 1
        omega
      · rw [Nat.sub_eq_zero_of_le (by omega)]
        rfl

theorem readSnapUnit_straight (pVV : VV) (pBuff : ℕ) {off len : ℕ}
    (hin : off % SNAP_UNIT_SIZE + len ≤ SNAP_UNIT_SIZE) :
    (readSnapUnit pVV pBuff off len).Straight pVV off len :=
  vvRequestVS_straight pVV pBuff 0 hin

theorem writeSnapUnit_straight (pVV : VV) (pBuff : ℕ) {off len : ℕ}
    (hin : off % SNAP_UNIT_SIZE + len ≤ SNAP_UNIT_SIZE) :
    (writeSnapUnit pVV false pBuff off len).Straight pVV off len :=
  vvRequestVS_straight pVV pBuff 0 hin

/-- The unit that is written in place of a piece has the same group of segments. -/
theorem writeSnapUnit_copied (pVV : VV) (pBuff off len : ℕ) :
    (writeSnapUnit pVV true pBuff off len).Straight pVV
      (SNAP_UNIT_SIZE * (off / SNAP_UNIT_SIZE)) SNAP_UNIT_SIZE := by
  have hunit : b2u (SNAP_UNIT_SIZE * (off / SNAP_UNIT_SIZE)) = b2u off := by
    unfold b2u VV_UNIT_SIZE SNAP_UNIT_SIZE
    omega
  have hgroup : b2vs pVV off = b2vs pVV (SNAP_UNIT_SIZE * (off / SNAP_UNIT_SIZE)) := by
    rw [b2vs_eq, b2vs_eq, hunit]
  unfold writeSnapUnit
  rw [if_pos rfl, hgroup]
  exact vvRequestVS_straight pVV 0 LV_IO_FREE (by rw [Nat.mul_mod_right, Nat.zero_add])

/-- The bytes of a request, each at its place. -/
theorem readSnapUnits_places (pVV : VV) (pBuff : ℕ × ℕ → ℕ) (length offset : ℕ) :
    (pieces length offset).flatMap (fun p => (readSnapUnit pVV (pBuff p) p.1 p.2).places)
      = (List.range' offset length).map (stripePlace pVV) := by
  have htile : (pieces length offset).flatMap (fun p => List.range' p.1 p.2)
      = List.range' offset (offset + length - offset) := snapPieces_tile (le_refl _)
  rw [Nat.add_sub_cancel_left] at htile
  rw [← htile, List.map_flatMap]
  apply List.flatMap_congr
  intro p hp
  exact (readSnapUnit_straight pVV (pBuff p) (snapPieces_inside p hp)).places

/-- Bytes of a volume and places in its segments are in bijection, and the pieces of
a request keep to it. -/
theorem stripes_bijective (pVV : VV) (hstripes : 1 ≤ pVV.vvStripes)
    (hmax : pVV.vvStripes ≤ VV_STRIPE_MAX) :
    (∀ b, b2si pVV b < pVV.vvStripes ∧ b2si pVV b < VV_STRIPE_MAX ∧ b2lo pVV b < VV_LS_SIZE) ∧
    (∀ b b', b2vs pVV b = b2vs pVV b' → b2si pVV b = b2si pVV b' → b2lo pVV b = b2lo pVV b' →
      b = b') ∧
    (∀ vs si lo, si < pVV.vvStripes → lo < VV_LS_SIZE →
      ∃ b, b2vs pVV b = vs ∧ b2si pVV b = si ∧ b2lo pVV b = lo) ∧
    (∀ length offset, ∀ p ∈ pieces length offset, p.2 ≤ SNAP_UNIT_SIZE ∧ ∀ pBuff,
      (readSnapUnit pVV pBuff p.1 p.2).Straight pVV p.1 p.2 ∧
      (writeSnapUnit pVV false pBuff p.1 p.2).Straight pVV p.1 p.2 ∧
      (writeSnapUnit pVV true pBuff p.1 p.2).Straight pVV
        (SNAP_UNIT_SIZE * (p.1 / SNAP_UNIT_SIZE)) SNAP_UNIT_SIZE) ∧
    (∀ length offset,
      (pieces length offset).flatMap
          (fun p => (readSnapUnit pVV (p.1 - offset) p.1 p.2).places)
        = (List.range' offset length).map (stripePlace pVV) ∧
      ((pieces length offset).flatMap
          (fun p => (readSnapUnit pVV (p.1 - offset) p.1 p.2).places)).Nodup) := by
  refine ⟨?_, ?_, ?_, ?_, ?_⟩
  · intro b
    have hsi := b2si_lt hstripes b
    exact ⟨hsi, lt_of_lt_of_le hsi hmax, b2lo_lt pVV b⟩
  · intro b b' hvs hsi hlo
    apply stripePlace_injective pVV
    rw [stripePlace, hvs, hsi, hlo, stripePlace]
  · intro vs si lo hsi hlo
    have hplace : stripePlace pVV (placedByte pVV vs si lo) = (vs, si, lo) :=
      stripePlace_placedByte hsi hlo
    simp only [stripePlace, Prod.mk.injEq] at hplace
    exact ⟨_, hplace⟩
  · intro length offset p hp
    have hin := snapPieces_inside p hp
    exact ⟨by omega, fun pBuff => ⟨readSnapUnit_straight pVV pBuff hin,
      writeSnapUnit_straight pVV pBuff hin, writeSnapUnit_copied pVV pBuff p.1 p.2⟩⟩
  · intro length offset
    have hplaces := readSnapUnits_places pVV (fun p => p.1 - offset) length offset
    refine ⟨hplaces, ?_⟩
    rw [hplaces]
    exact (List.nodup_range' ..).map (stripePlace_injective pVV)

/-- Three stripes, which do not divide the 128 units of a segment. -/
theorem stripes_bijective_three :
    b2si ⟨"vv", 3⟩ 12582911 < 3 ∧ b2vs ⟨"vv", 3⟩ 12582911 = 0 ∧ b2lo ⟨"vv", 3⟩ 12582911 = 4194303 :=
  ⟨((stripes_bijective ⟨"vv", 3⟩ (by decide) (by decide)).1 12582911).1, by decide, by decide⟩

end PaxosSolutions
