import PaxosSolutions.Cache.BlockCache

/-!
# Blocks and ranges

A range of bytes has a part in each of the blocks it meets, and the parts one
after another are the range. A checksum that is corrected by that of the words
that change is the checksum of the buffer, or 0.
-/
namespace PaxosSolutions
open Lib NWGadget

/-! ### The range in its blocks -/

section
variable {bs offset size i j : ℕ}

theorem mul_add_bcOff (bs offset i : ℕ) : i * bs + bcOff bs offset i = max (i * bs) offset := by
  unfold bcOff
  split <;> omega

theorem bcRange_bounds (hS : offset / bs ≤ i) (hE : i ≤ (offset + size - 1) / bs) (hbs : 0 < bs) :
    offset < i * bs + bs ∧ i * bs ≤ offset + size - 1 := by
  have hlt := (Nat.div_lt_iff_lt_mul hbs).mp (Nat.lt_succ_of_le hS)
  rw [Nat.succ_mul] at hlt
  exact ⟨hlt, (Nat.le_div_iff_mul_le hbs).mp hE⟩

theorem bcOff_add_bcLen (hS : offset / bs ≤ i) (hE : i ≤ (offset + size - 1) / bs)
    (hs : 0 < size) (hbs : 0 < bs) :
    i * bs + bcOff bs offset i + bcLen bs offset size i = min (i * bs + bs) (offset + size) := by
  have hb := bcRange_bounds hS hE hbs
  unfold bcLen bcOff
  split_ifs <;> omega

/-- Each block of the range has a part of it. -/
theorem bcRange_ok (hS : offset / bs ≤ i) (hE : i ≤ (offset + size - 1) / bs) (hs : 0 < size)
    (hbs : 0 < bs) : bcOff bs offset i < bs ∧ 0 < bcLen bs offset size i ∧
      bcOff bs offset i + bcLen bs offset size i ≤ bs := by
  have hend := bcOff_add_bcLen hS hE hs hbs
  have hstart := mul_add_bcOff bs offset i
  have hb := bcRange_bounds hS hE hbs
  omega

/-- A byte of a block is in the part iff it is in the range. -/
theorem mem_bcRange (hS : offset / bs ≤ i) (hE : i ≤ (offset + size - 1) / bs) (hs : 0 < size)
    (hbs : 0 < bs) (hj : j < bs) :
    bcOff bs offset i ≤ j ∧ j < bcOff bs offset i + bcLen bs offset size i ↔
      offset ≤ i * bs + j ∧ i * bs + j < offset + size := by
  have hend := bcOff_add_bcLen hS hE hs hbs
  have hstart := mul_add_bcOff bs offset i
  omega

/-- A byte of the range is in one of its blocks. -/
theorem bcBlocks_of_mem (hbs : 0 < bs) (hj : j < bs) (hr : offset ≤ i * bs + j)
    (hr' : i * bs + j < offset + size) : i ∈ bcBlocks bs offset size := by
  have hS : offset / bs ≤ i := by
    apply Nat.lt_succ_iff.mp
    rw [Nat.div_lt_iff_lt_mul hbs, Nat.succ_mul]
    omega
  have hE : i ≤ (offset + size - 1) / bs := by
    rw [Nat.le_div_iff_mul_le hbs]
    omega
  unfold bcBlocks
  rw [List.mem_range'_1]
  omega

theorem mem_bcBlocks (hs : 0 < size) :
    i ∈ bcBlocks bs offset size ↔ offset / bs ≤ i ∧ i ≤ (offset + size - 1) / bs := by
  have hle : offset / bs ≤ (offset + size - 1) / bs := Nat.div_le_div_right (by omega)
  unfold bcBlocks
  rw [List.mem_range'_1]
  omega

/-- The parts of the range from the block `i` on are the rest of the range. -/
theorem flatMap_range' {n : ℕ} (f : ℕ → UInt8) (hbs : 0 < bs) (hs : 0 < size)
    (hi : offset / bs ≤ i) (hn : i + n = (offset + size - 1) / bs + 1) :
    ((List.range' i n).flatMap fun i => (List.range (bcLen bs offset size i)).map fun j =>
      f (i * bs + bcOff bs offset i + j)) =
        (List.range (offset + size - max (i * bs) offset)).map fun j =>
          f (max (i * bs) offset + j) := by
  induction n generalizing i with
  | zero =>
      have hlt : offset + size - 1 < i * bs := by
        rw [← Nat.div_lt_iff_lt_mul hbs]
        omega
      have hzero : offset + size - max (i * bs) offset = 0 := by omega
      rw [hzero]
      rfl
  | succ n ih =>
      have hE : i ≤ (offset + size - 1) / bs := by omega
      have hend := bcOff_add_bcLen hi hE hs hbs
      have hstart := mul_add_bcOff bs offset i
      have hbound := bcRange_bounds hi hE hbs
      rw [List.range'_succ, List.flatMap_cons, ih (by omega) (by omega), hstart, Nat.succ_mul]
      rcases Nat.lt_or_ge (i * bs + bs) (offset + size) with hlt | hge
      · have hnext : max (i * bs + bs) offset = max (i * bs) offset + bcLen bs offset size i := by
          omega
        have hlen : offset + size - max (i * bs) offset =
            bcLen bs offset size i + (offset + size - max (i * bs + bs) offset) := by
          omega
        rw [hlen, List.range_add, List.map_append, List.map_map, hnext]
        congr 2
        funext j
        simp [Nat.add_assoc]
      · have hzero : offset + size - max (i * bs + bs) offset = 0 := by omega
        have hlen : bcLen bs offset size i = offset + size - max (i * bs) offset := by omega
        rw [hzero, hlen]
        simp

/-- The parts of the range one after another are the range. -/
theorem flatMap_bcBlocks (f : ℕ → UInt8) (hbs : 0 < bs) (hs : 0 < size) :
    ((bcBlocks bs offset size).flatMap fun i => (List.range (bcLen bs offset size i)).map fun j =>
      f (i * bs + bcOff bs offset i + j)) = (List.range size).map fun j => f (offset + j) := by
  have hle : offset / bs ≤ (offset + size - 1) / bs := Nat.div_le_div_right (by omega)
  have hmul : offset / bs * bs ≤ offset := Nat.div_mul_le_self offset bs
  unfold bcBlocks
  rw [flatMap_range' f hbs hs le_rfl (by omega), Nat.max_eq_right hmul, Nat.add_sub_cancel_left]

/-- A block of the range that is not asked for is written over as a whole,
unless the range begins with it and ends within it. -/
theorem covered_of_not_ends (hbs : 0 < bs) (hsize : 0 < size)
    (hS : offset / bs ≤ i) (hE : i ≤ (offset + size - 1) / bs)
    (hends : bcBothEnds bs offset size i = false)
    (hone : offset / bs = (offset + size - 1) / bs → offset % bs = 0 → size % bs = 0) :
    bcOff bs offset i = 0 ∧ bcLen bs offset size i = bs := by
  have hbound := bcRange_bounds hS hE hbs
  have hend := bcOff_add_bcLen hS hE hsize hbs
  have hstart := mul_add_bcOff bs offset i
  have hdiv := Nat.div_add_mod offset bs
  have hends' : ¬ (i = offset / bs ∧ offset % bs ≠ 0) ∧ ¬ (i = (offset + size - 1) / bs ∧
      offset / bs ≠ (offset + size - 1) / bs ∧ (offset + size) % bs ≠ 0) := by
    simpa [bcBothEnds] using hends
  have hoff : offset ≤ i * bs := by
    rcases Nat.lt_or_ge (offset / bs) i with hlt | hge
    · have hmul : (offset / bs + 1) * bs ≤ i * bs := Nat.mul_le_mul_right bs hlt
      have hmod := Nat.mod_lt offset hbs
      rw [Nat.succ_mul, Nat.mul_comm] at hmul
      omega
    · have hi : i = offset / bs := by omega
      have hmod : offset % bs = 0 := by
        by_contra h
        exact hends'.1 ⟨hi, h⟩
      rw [hi, Nat.mul_comm]
      omega
  have hlast : i * bs + bs ≤ offset + size := by
    rcases Nat.lt_or_ge i ((offset + size - 1) / bs) with hlt | hge
    · have hmul := (Nat.le_div_iff_mul_le hbs).mp (Nat.succ_le_of_lt hlt)
      rw [Nat.succ_mul] at hmul
      omega
    · have hi : i = (offset + size - 1) / bs := by omega
      -- The end of the range is a multiple of the block size after the block's start.
      have hmod : (offset + size) % bs = 0 := by
        by_contra h
        by_cases hSE : offset / bs = (offset + size - 1) / bs
        · have hi' : i = offset / bs := by omega
          have h0 : offset % bs = 0 := by
            by_contra h0
            exact hends'.1 ⟨hi', h0⟩
          apply h
          rw [Nat.add_mod, h0, hone hSE h0]
          simp
        · exact hends'.2 ⟨hi, hSE, h⟩
      obtain ⟨q, hq⟩ := Nat.dvd_of_mod_eq_zero hmod
      have hlt : i < q := by
        by_contra hge
        have := Nat.mul_le_mul_left bs (Nat.le_of_not_lt hge)
        rw [Nat.mul_comm bs i] at this
        omega
      have := Nat.mul_le_mul_left bs (Nat.succ_le_of_lt hlt)
      rw [Nat.mul_succ, Nat.mul_comm bs i] at this
      omega
  omega

end

/-! ### Checksums of blocks -/

namespace CBlock
variable {bc : BCtrl} {b : CBlock} {off len now : ℕ} {pData : ℕ → UInt8}

/-- Where checksums are used, `b_Cksum64` is that of the buffer if there is one. -/
def Summed (bc : BCtrl) (b : CBlock) : Prop :=
  bc.bcBCksum = true → b.cksumed = true → b.bCksum64 ≠ 0 →
    b.bCksum64 = inCksum64 (b.bytes 0 bc.bcBlockSize) 0

theorem bytes_add (b : CBlock) (off m n : ℕ) :
    b.bytes off (m + n) = b.bytes off m ++ b.bytes (off + m) n := by
  unfold bytes
  rw [List.range_add, List.map_append, List.map_map]
  congr 2
  funext j
  simp [Nat.add_assoc]

theorem bytes_congr {b' : CBlock} (h : ∀ j, off ≤ j → j < off + len → b'.bPBuf j = b.bPBuf j) :
    b'.bytes off len = b.bytes off len := by
  apply List.map_congr_left
  intro j hj
  rw [List.mem_range] at hj
  exact h _ (by omega) (by omega)

theorem bytes_length : (b.bytes off len).length = len := by simp [bytes]

/-- The sum of a buffer is those of what is before, in and after a part that
begins with a word. -/
theorem byteSum_bytes {n : ℕ} (hoff : off % 8 = 0) (hle : off + len ≤ n) :
    byteSum 0 (b.bytes 0 n) = byteSum 0 (b.bytes 0 off) + byteSum 0 (b.bytes off len) +
      byteSum (off + len) (b.bytes (off + len) (n - (off + len))) := by
  have hn : n = off + len + (n - (off + len)) := by omega
  have hword : byteSum off (b.bytes off len) = byteSum 0 (b.bytes off len) := by
    have := byteSum_mul_eight (off / 8) (b.bytes off len)
    rwa [Nat.mul_div_cancel' (Nat.dvd_of_mod_eq_zero hoff)] at this
  conv_lhs => rw [hn]
  rw [bytes_add, bytes_add, byteSum_append, byteSum_append, List.length_append, bytes_length,
    bytes_length, Nat.zero_add, Nat.zero_add, hword]

theorem Summed.sumUp : (b.sumUp bc now).Summed bc := fun _ _ _ => rfl

/-- The checksum of a part is exchanged for that of what it becomes. -/
theorem subAdd_copy (b : CBlock) (pData : ℕ → UInt8) {b' : CBlock} {r : ℕ} (hr : r = off % 8)
    (hle : off + len ≤ bc.bcBlockSize) (hb' : b' = b.copyIn off len pData) :
    let c := inCksum64SubAdd (inCksum64 (b.bytes 0 bc.bcBlockSize) 0)
      (inCksum64 (b.bytes (off - r) (len + r)) 0) (inCksum64 (b'.bytes (off - r) (len + r)) 0)
    c = 0 ∨ c = inCksum64 (b'.bytes 0 bc.bcBlockSize) 0 := by
  have hword : (off - r) % 8 = 0 := by omega
  have hend : off - r + (len + r) = off + len := by omega
  have hfit : off - r + (len + r) ≤ bc.bcBlockSize := by omega
  have hsum (x : CBlock) := byteSum_bytes (b := x) hword hfit
  have hout (j : ℕ) (hj : ¬ (off ≤ j ∧ j < off + len)) : b'.bPBuf j = b.bPBuf j := by
    rw [hb']
    exact if_neg hj
  have hbefore : b'.bytes 0 (off - r) = b.bytes 0 (off - r) :=
    bytes_congr fun j _ hj => hout j (by omega)
  have hafter : b'.bytes (off - r + (len + r)) (bc.bcBlockSize - (off - r + (len + r))) =
      b.bytes (off - r + (len + r)) (bc.bcBlockSize - (off - r + (len + r))) :=
    bytes_congr fun j hj _ => hout j (by omega)
  apply inCksum64SubAdd_eq (by omega)
  · rw [hsum b, hsum b', hbefore, hafter]
    omega
  · rw [hsum b]
    omega

/-- A checksum that is to be taken anew need not be that of the buffer. -/
theorem Summed.copy (hb : b.doCksum = false → b.Summed bc) (hle : off + len ≤ bc.bcBlockSize) :
    (bcCopy bc off len now pData b).Summed bc := by
  have hsum : (if b.doCksum = true then b.sumUp bc now else b).Summed bc := by
    split
    · exact Summed.sumUp
    · rename_i hdo
      exact hb (by simpa using hdo)
  unfold bcCopy
  generalize (if b.doCksum = true then b.sumUp bc now else b) = x at hsum ⊢
  intro hon
  dsimp only
  rw [if_neg (by simp [hon])]
  split_ifs with hx
  · intro _ hne
    rcases subAdd_copy x pData rfl hle rfl with h | h
    · rw [← hsum hon hx.2 hx.1] at h
      exact absurd h hne
    · rw [← hsum hon hx.2 hx.1] at h
      exact h
  · exact fun _ _ => rfl

theorem copy_bPBuf : (bcCopy bc off len now pData b).bPBuf =
    fun j => if off ≤ j ∧ j < off + len then pData (j - off) else b.bPBuf j := by
  have hsum : (if b.doCksum = true then b.sumUp bc now else b).bPBuf = b.bPBuf := by
    split <;> rfl
  unfold bcCopy copyIn
  rw [← hsum]
  dsimp only
  split_ifs <;> rfl

theorem copy_dOwn : (bcCopy bc off len now pData b).dOwn = b.dOwn := by
  have hsum : (if b.doCksum = true then b.sumUp bc now else b).dOwn = b.dOwn := by
    split <;> rfl
  unfold bcCopy copyIn
  rw [← hsum]
  dsimp only
  split_ifs <;> rfl

/-- A block that has a delegation is that of the backing store. -/
structure Ok (bc : BCtrl) (content : ℕ → UInt8) (b : CBlock) : Prop where
  same : b.dOwn ≠ .none → ∀ j < bc.bcBlockSize, b.bPBuf j = content j
  idle : b.dOwn = .none → b.cksumed = false
  sum : b.Summed bc

theorem Ok.congr {content content' : ℕ → UInt8} (hb : b.Ok bc content)
    (h : ∀ j < bc.bcBlockSize, content' j = content j) : b.Ok bc content' where
  same ho j hj := (hb.same ho j hj).trans (h j hj).symm
  idle := hb.idle
  sum := hb.sum

theorem ok_of_none {content : ℕ → UInt8} (ho : b.dOwn = .none) (hc : b.cksumed = false) :
    b.Ok bc content where
  same h := absurd ho h
  idle _ := hc
  sum _ h := by simp [hc] at h

theorem ok_bcTerm {content : ℕ → UInt8} : b.bcTerm.Ok bc content := ok_of_none rfl rfl

theorem Ok.giveBack {content content' : ℕ → UInt8} (hb : b.Ok bc content) :
    b.giveBack.Ok bc content' := by
  unfold CBlock.giveBack
  split
  · rename_i ho
    exact ok_of_none ho (hb.idle ho)
  · exact ok_bcTerm

theorem giveBack_dOwn : b.giveBack.dOwn = .none := by
  unfold CBlock.giveBack
  split
  · assumption
  · rfl

/-- `BCReadDone` does not stop at a block whose checksum is right, and leaves its
buffer. -/
theorem Summed.check (now : ℕ) (hb : b.Summed bc) : ∃ b', bcCheck bc now b = .ok b' ∧ b'.Summed bc ∧
    b'.dOwn = b.dOwn ∧ b'.bPBuf = b.bPBuf := by
  unfold bcCheck
  split
  · exact ⟨b, rfl, hb, rfl, rfl⟩
  rename_i hon
  have hon : bc.bcBCksum = true := by simpa using hon
  rw [if_neg (fun h => h.2 (hb hon h.1.1 h.1.2.1))]
  refine ⟨_, rfl, ?_⟩
  generalize hx : (if b.cksumed = true ∧ b.bCksum64 ≠ 0 ∧ b.bValid < now then
    { b with bValid := now + bc.bcUsec } else b) = x
  have hxb : x.Summed bc ∧ x.dOwn = b.dOwn ∧ x.bPBuf = b.bPBuf := by
    rw [← hx]
    split
    · exact ⟨hb, rfl, rfl⟩
    · exact ⟨hb, rfl, rfl⟩
  obtain ⟨hsum, hown, hbuf⟩ := hxb
  split
  · exact ⟨fun _ _ _ => rfl, hown, hbuf⟩
  · exact ⟨hsum, hown, hbuf⟩

theorem Ok.check {content : ℕ → UInt8} (now : ℕ) (hb : b.Ok bc content) (ho : b.dOwn ≠ .none) :
    ∃ b', bcCheck bc now b = .ok b' ∧ b'.Ok bc content ∧ b'.dOwn = b.dOwn ∧
      b'.bPBuf = b.bPBuf := by
  obtain ⟨b', hrun, hsum, hown, hbuf⟩ := hb.sum.check now
  refine ⟨b', hrun, ⟨?_, ?_, hsum⟩, hown, hbuf⟩
  · rw [hown, hbuf]
    exact hb.same
  · intro hnone
    exact absurd (hown.symm.trans hnone) ho

end CBlock

end PaxosSolutions
