import PaxosSolutions.FileCache.Block
import PaxosSolutions.FileCache.Inodes

/-!
# Checksums of segments

A write exchanges the sum of a part of a segment, whatever part of a word it begins
and ends with. What is behind the end of a block is zero in its buffer and in its
file, so that the checksum of the last segment of a file is that of its block.
-/
namespace PaxosSolutions
open Lib NWGadget

/-! ### Blocks in their files -/

namespace BlockCacheCtrl

variable {c : BlockCacheCtrl} {k : BlockCacheKey} {f g : ℕ → UInt8} {i j l : ℕ}

theorem blockLen_eq (c : BlockCacheCtrl) : (c.blockLen : ℤ) = c.blockSize :=
  Nat.cast_mul _ _

theorem IsBlock.inCksumFile (hk : c.IsBlock k) : c.bcSegmentSize * c.inCksumFile k = c.inFile k := by
  have hdvd : c.blockLen ∣ c.inFile k := by
    rw [← Int.natCast_dvd_natCast, blockLen_eq]
    exact hk.dvd_inFile
  unfold BlockCacheCtrl.inCksumFile
  rw [Nat.mul_comm (_ / _), ← Nat.mul_assoc]
  exact Nat.mul_div_cancel' hdvd

theorem segSum_congr (h : ∀ x < c.bcSegmentSize, f (c.bcSegmentSize * i + x) = g (c.bcSegmentSize * j + x)) :
    c.segSum f i = c.segSum g j := by
  unfold segSum
  rw [bufBytes_congr h]

theorem lt_segments : i < c.segments l ↔ c.bcSegmentSize * i < l := by
  have hs := c.size_pos
  unfold segments
  rw [Nat.lt_div_iff_mul_lt hs]
  rw [Nat.mul_comm]
  omega

theorem segments_le (h : l ≤ c.blockLen) (hi : i < c.segments l) : i < c.bcSegmentNum := by
  rw [lt_segments] at hi
  exact Nat.lt_of_mul_lt_mul_left (hi.trans_le h)

/-- A segment of a block is within it. -/
theorem segment_le {x : ℕ} (hi : i < c.bcSegmentNum) (hx : x < c.bcSegmentSize) :
    c.bcSegmentSize * i + x < c.blockLen := by
  have := Nat.mul_le_mul_left c.bcSegmentSize (Nat.succ_le_of_lt hi)
  rw [Nat.mul_succ] at this
  unfold blockLen
  omega

end BlockCacheCtrl

variable {c : FileCacheCtrl}

def SegFile.Summed (c : FileCacheCtrl) (f : SegFile) : Prop :=
  ∀ j, f.cksum j ≠ 0 → f.cksum j = c.segSum f.data j

def BlockCache.Summed (c : FileCacheCtrl) (b : BlockCache) : Prop :=
  ∀ i, b.bPCksum64 i ≠ 0 → b.bPCksum64 i = c.segSum b.bPBuf i

theorem SegFile.summed_empty : SegFile.empty.Summed c := fun _ h => absurd rfl h

namespace GFdCtrl

variable {d d' : GFdCtrl} {k : BlockCacheKey} {x : ℕ}

/-- What the file of a block holds of it. -/
def stored (c : FileCacheCtrl) (k : BlockCacheKey) (x : ℕ) (d : GFdCtrl) : UInt8 :=
  match d.inode (c.segPath k) with
  | some i => (d.segFile i).data (c.inFile k + x)
  | none => 0

theorem Leads.stored (h : d.Leads d') (c : FileCacheCtrl) (k : BlockCacheKey) (x : ℕ) :
    d'.stored c k x = d.stored c k x ∨ d'.stored c k x = 0 := by
  unfold GFdCtrl.stored
  cases hi : d'.inode (c.segPath k) with
  | none => exact .inr rfl
  | some i =>
      dsimp only
      rcases h.inode _ i hi with ⟨hi, hf⟩ | he
      · rw [hi, hf]
        exact .inl rfl
      · rw [he]
        exact .inr rfl

theorem Leads.summed (h : d.Leads d') (hd : ∀ i, (d.segFile i).Summed c) (i : ℕ) :
    (d'.segFile i).Summed c := by
  rcases h.file i with hf | he
  · rw [hf]
    exact hd i
  · rw [he]
    exact SegFile.summed_empty

end GFdCtrl

/-- A block that is in its file, has checksums of its segments and nothing behind
its end. -/
structure BlockCache.Ok (c : FileCacheCtrl) (d : GFdCtrl) (b : BlockCache) : Prop where
  key : c.IsBlock b.bKey
  len : b.bLen ≤ c.blockLen
  summed : b.Summed c
  buf : ∀ x, b.bLen ≤ x → x < c.blockLen → b.bPBuf x = 0
  stored : ∀ x, b.bLen ≤ x → x < c.blockLen → d.stored c b.bKey x = 0

theorem BlockCache.Ok.leads {d d' : GFdCtrl} {b : BlockCache} (hb : b.Ok c d) (h : d.Leads d') :
    b.Ok c d' where
  key := hb.key
  len := hb.len
  summed := hb.summed
  buf := hb.buf
  stored x hx hxB := by
    rcases h.stored c b.bKey x with h | h
    · rw [h]
      exact hb.stored x hx hxB
    · exact h

/-! ### Loads and saves -/

namespace GFdCtrl

variable {d : GFdCtrl} {k k' : BlockCacheKey} {b : BlockCache} {now : ℤ}

/-- The segments of a block that is read are those of its file. -/
theorem segSum_load {f : SegFile} {l i : ℕ} (hk : c.IsBlock k)
    (hl : l = f.readLen (c.inFile k) c.blockLen) (hi : i < c.segments l) :
    c.segSum (fun x => if x < l then f.data (c.inFile k + x) else 0) i =
      c.segSum f.data (c.inCksumFile k + i) := by
  have hle : l ≤ c.blockLen := hl ▸ min_le_left _ _
  have hin : i < c.bcSegmentNum := BlockCacheCtrl.segments_le hle hi
  rw [BlockCacheCtrl.lt_segments] at hi
  refine BlockCacheCtrl.segSum_congr fun x hx => ?_
  rw [Nat.mul_add, hk.inCksumFile, Nat.add_assoc]
  split
  · rfl
  · rename_i hge
    have hlt := BlockCacheCtrl.segment_le hin hx
    refine (f.zero _ ?_).symm
    unfold SegFile.readLen at hl
    omega

theorem blockLoad_ok (hd : d.Ok) (hf : ∀ i, (d.segFile i).Summed c) (hk : c.IsBlock k) :
    Result (fun e => e ≠ FCFault.assertCksum)
      (fun r => d.Leads r.2 ∧ r.1.bKey = k ∧ r.1.Ok c r.2) (d.blockLoad c k now) := by
  obtain ⟨hle, hino⟩ := hd.gFdCacheGet (c := c) k false
  unfold GFdCtrl.blockLoad
  generalize d.gFdCacheGet c k false = r at hle hino ⊢
  obtain ⟨fd, d'⟩ := r
  cases fd with
  | none =>
      refine ⟨hle, rfl, hk, Nat.zero_le _, fun i hi => absurd rfl hi, fun _ _ _ => rfl, ?_⟩
      intro x _ _
      unfold GFdCtrl.stored
      rw [hino]
      rfl
  | some fd =>
      dsimp only
      generalize hl : (d'.segFile fd.ino).readLen (c.inFile k) c.blockLen = l
      have hsum (i : ℕ)
          (hi : (if c.bcBCksum ∧ i < c.segments l then
            (d'.segFile fd.ino).cksum (c.inCksumFile k + i) else 0) ≠ 0) :
          (if c.bcBCksum ∧ i < c.segments l then
            (d'.segFile fd.ino).cksum (c.inCksumFile k + i) else 0) =
            c.segSum (fun x => if x < l then (d'.segFile fd.ino).data (c.inFile k + x) else 0) i := by
        split at hi
        · rename_i hon
          rw [if_pos hon, segSum_load hk hl.symm hon.2]
          exact hle.summed hf _ _ hi
        · exact absurd rfl hi
      rw [if_pos fun i _ => hsum i]
      refine ⟨hle, rfl, hk, hl ▸ min_le_left _ _, hsum, fun x hx _ => if_neg (not_lt.mpr hx), ?_⟩
      intro x hx hxB
      unfold GFdCtrl.stored
      rw [hino]
      refine (d'.segFile fd.ino).zero _ ?_
      unfold SegFile.readLen at hl
      dsimp only at hx ⊢
      omega

/-- What the files hold after a block is stored. -/
theorem stored_blockStore (hd : d.Ok) (hb : b.bLen ≤ c.blockLen) (hk : c.IsBlock b.bKey)
    (hk' : c.IsBlock k') {x : ℕ} (hx : x < c.blockLen) :
    (d.blockStore c b).stored c k' x =
      if k' = b.bKey ∧ x < b.bLen then b.bPBuf x
      else (d.gFdCacheGet c b.bKey true).2.stored c k' x := by
  obtain ⟨hle, hino⟩ := hd.gFdCacheGet (c := c) b.bKey true
  obtain ⟨fd, hfd⟩ := gFdCacheGet_some (c := c) (k := b.bKey) d
  unfold GFdCtrl.blockStore
  generalize d.gFdCacheGet c b.bKey true = r at hle hino hfd ⊢
  obtain ⟨_, d'⟩ := r
  cases hfd
  dsimp only at hle hino ⊢
  unfold GFdCtrl.stored
  have hupd (f : ℕ → SegFile) : GFdCtrl.inode (c.segPath k') { d' with segFile := f } =
      d'.inode (c.segPath k') := rfl
  rw [hupd]
  cases hi : d'.inode (c.segPath k') with
  | none =>
      refine (if_neg fun h => ?_).symm
      rw [h.1, hino] at hi
      cases hi
  | some i =>
      dsimp only
      by_cases hfi : i = fd.ino
      · subst hfi
        have hp : c.segPath k' = c.segPath b.bKey := hle.ok.inj _ _ _ hi hino
        rw [Function.update_self]
        have hdata (f : SegFile) : (if c.bcBCksum = true then
            f.writeCksum (c.inCksumFile b.bKey) (c.segments b.bLen) b.bPCksum64 else f).data =
              f.data := by
          split
          · rfl
          · rfl
        rw [hdata]
        change (if _ then _ else _) = _
        by_cases hkk : k' = b.bKey
        · rw [hkk, Nat.add_sub_cancel_left]
          refine if_congr ?_ rfl rfl
          simp
        · have := hk'.apart hk hp hkk
          rw [← c.blockLen_eq] at this
          rw [if_neg (by omega), if_neg (fun h => hkk h.1)]
      · rw [Function.update_of_ne hfi]
        refine (if_neg fun h => ?_).symm
        rw [h.1, hino] at hi
        exact hfi (Option.some.inj hi).symm

end GFdCtrl

/-- A block with the sums of its segments is written to its file. -/
theorem SegFile.Summed.store {f : SegFile} {b : BlockCache} (hf : f.Summed c) (hb : b.Summed c)
    (hk : c.IsBlock b.bKey) (hlen : b.bLen ≤ c.blockLen)
    (hbuf : ∀ x, b.bLen ≤ x → x < c.blockLen → b.bPBuf x = 0)
    (hzero : ∀ x, b.bLen ≤ x → x < c.blockLen → f.data (c.inFile b.bKey + x) = 0) :
    ((f.write (c.inFile b.bKey) b.bLen b.bPBuf).writeCksum (c.inCksumFile b.bKey)
      (c.segments b.bLen) b.bPCksum64).Summed c := by
  have hin := hk.inCksumFile
  unfold SegFile.writeCksum SegFile.write
  intro j hj
  dsimp only at hj ⊢
  split at hj
  · rename_i hmem
    rw [if_pos hmem, hb _ hj]
    obtain ⟨i, rfl⟩ := Nat.exists_eq_add_of_le hmem.1
    have hi : i < c.bcSegmentNum := BlockCacheCtrl.segments_le hlen (by omega)
    rw [Nat.add_sub_cancel_left]
    refine BlockCacheCtrl.segSum_congr fun x hx => ?_
    have hlt := BlockCacheCtrl.segment_le hi hx
    rw [Nat.mul_add, hin, Nat.add_assoc]
    split
    · rw [Nat.add_sub_cancel_left]
    · -- both are zero behind the end of the block
      rw [hbuf _ (by omega) hlt, hzero _ (by omega) hlt]
  · rename_i hmem
    rw [if_neg hmem, hf j hj]
    refine BlockCacheCtrl.segSum_congr fun x hx => ?_
    rw [if_neg]
    rcases Nat.lt_or_ge j (c.inCksumFile b.bKey) with hlt | hge
    · have := Nat.mul_le_mul_left c.bcSegmentSize (Nat.succ_le_of_lt hlt)
      rw [Nat.mul_succ] at this
      omega
    · obtain ⟨i, rfl⟩ := Nat.exists_eq_add_of_le hge
      have hi : ¬ c.bcSegmentSize * i < b.bLen := fun h =>
        hmem ⟨hge, Nat.add_lt_add_left (BlockCacheCtrl.lt_segments.mpr h) _⟩
      rw [Nat.mul_add]
      omega

/-! ### The cache -/

/-- What the checksums rest on. -/
structure FileCache.Sound (c : FileCacheCtrl) (s : FileCache) : Prop where
  fds : s.bcFdCtrl.Ok
  files : ∀ i, (s.bcFdCtrl.segFile i).Summed c
  unique : Lru.Unique BlockCache.bKey s.geLnk
  blocks : ∀ b ∈ s.geLnk, b.Ok c s.bcFdCtrl

section
variable {s : FileCache} {d : GFdCtrl} {b b' : BlockCache} {k : BlockCacheKey} {now : ℤ}

theorem GFdCtrl.blockStore_ok (hon : c.bcBCksum = true) (hd : d.Ok)
    (hf : ∀ i, (d.segFile i).Summed c) (hb : b.Ok c d) :
    (d.blockStore c b).Ok ∧ ∀ i, ((d.blockStore c b).segFile i).Summed c := by
  obtain ⟨hle, hino⟩ := hd.gFdCacheGet (c := c) b.bKey true
  obtain ⟨fd, hfd⟩ := gFdCacheGet_some (c := c) (k := b.bKey) d
  have hb' := hb.leads hle
  unfold GFdCtrl.blockStore
  generalize d.gFdCacheGet c b.bKey true = r at hle hino hfd hb' ⊢
  obtain ⟨_, d'⟩ := r
  cases hfd
  dsimp only at hle hino hb' ⊢
  refine ⟨⟨hle.ok.unique, hle.ok.dir, hle.ok.inj, hle.ok.fresh⟩, fun i => ?_⟩
  by_cases hi : i = fd.ino
  · rw [hi, Function.update_self, if_pos hon]
    refine (hle.summed hf fd.ino).store hb'.summed hb'.key hb'.len hb'.buf fun x hx hxB => ?_
    have := hb'.stored x hx hxB
    unfold GFdCtrl.stored at this
    rwa [hino] at this
  · rw [Function.update_of_ne hi]
    exact hle.summed hf i

/-- Blocks are what they were after a block is stored. -/
theorem BlockCache.Ok.blockStore (hd : d.Ok) (hb : b.Ok c d) (hb' : b'.Ok c d)
    (hlen : b'.bKey = b.bKey → b.bLen ≤ b'.bLen) : b'.Ok c (d.blockStore c b) where
  key := hb'.key
  len := hb'.len
  summed := hb'.summed
  buf := hb'.buf
  stored x hx hxB := by
    obtain ⟨hle, -⟩ := hd.gFdCacheGet (c := c) b.bKey true
    rw [GFdCtrl.stored_blockStore hd hb.len hb.key hb'.key hxB, if_neg]
    · exact (hb'.leads hle).stored x hx hxB
    · rintro ⟨hk, hlt⟩
      have := hlen hk
      omega

namespace FileCache

theorem Sound.fewer (hs : s.Sound c) {bs : List BlockCache} (hsub : bs.Sublist s.geLnk)
    (ks : List BlockCacheKey) : Sound c { s with geLnk := bs, bcDirtyLnk := ks } :=
  ⟨hs.fds, hs.files, hs.unique.sublist (hsub.map _), fun b hb => hs.blocks b (hsub.subset hb)⟩

theorem Sound.leads (hs : s.Sound c) (h : s.bcFdCtrl.Leads d) :
    Sound c { s with bcFdCtrl := d } :=
  ⟨h.ok, h.summed hs.files, hs.unique, fun b hb => (hs.blocks b hb).leads h⟩

theorem Sound.set (hs : s.Sound c) (hb : b.Ok c s.bcFdCtrl) (ks : List BlockCacheKey) :
    Sound c { s with geLnk := Lru.set BlockCache.bKey b s.geLnk, bcDirtyLnk := ks } where
  fds := hs.fds
  files := hs.files
  unique := hs.unique.set
  blocks b' hb' := by
    rcases Lru.mem_set hb' with rfl | ⟨hb', -⟩
    · exact hb
    · exact hs.blocks b' hb'

/-- What `_BlockSave` leaves of the block and of the cache. -/
theorem blockSave_cases (bSave : Bool) (b : BlockCache) (s : FileCache) :
    ∃ ks v, s.blockSave c bSave b = ({ b with bDirty := v }, { s with bcDirtyLnk := ks }) ∨
      s.blockSave c bSave b = ({ b with bDirty := v },
        { s with bcDirtyLnk := ks, bcFdCtrl := s.bcFdCtrl.blockStore c b }) ∧ bSave = true := by
  unfold FileCache.blockSave
  split
  · dsimp only
    split
    · split
      · rename_i hsave
        exact ⟨_, _, .inr ⟨rfl, hsave⟩⟩
      · exact ⟨_, _, .inl rfl⟩
    · exact ⟨_, b.bDirty, .inl rfl⟩
  · exact ⟨s.bcDirtyLnk, b.bDirty, .inl rfl⟩

theorem Sound.blockSave (hon : c.bcBCksum = true) (hs : s.Sound c) (bSave : Bool)
    (hb : b ∈ s.geLnk) :
    (s.blockSave c bSave b).2.Sound c ∧ (s.blockSave c bSave b).2.geLnk = s.geLnk ∧
      (s.blockSave c bSave b).1.Ok c (s.blockSave c bSave b).2.bcFdCtrl ∧
      (s.blockSave c bSave b).1.bKey = b.bKey := by
  obtain ⟨ks, v, h | ⟨h, -⟩⟩ := blockSave_cases (c := c) bSave b s
  · rw [h]
    have hbo := hs.blocks b hb
    exact ⟨hs.fewer (List.Sublist.refl _) ks, rfl,
      ⟨hbo.key, hbo.len, hbo.summed, hbo.buf, hbo.stored⟩, rfl⟩
  · rw [h]
    have hbo := hs.blocks b hb
    obtain ⟨hok, hfiles⟩ := GFdCtrl.blockStore_ok hon hs.fds hs.files hbo
    have hstore := BlockCache.Ok.blockStore hs.fds hbo hbo fun _ => le_rfl
    refine ⟨⟨hok, hfiles, hs.unique, fun b' hb' => ?_⟩, rfl,
      ⟨hstore.key, hstore.len, hstore.summed, hstore.buf, hstore.stored⟩, rfl⟩
    refine BlockCache.Ok.blockStore hs.fds hbo (hs.blocks b' hb') fun hk => ?_
    rw [hs.unique.eq hb' hb hk]

theorem Sound.blockDrop (hon : c.bcBCksum = true) (hs : s.Sound c) (bSave : Bool)
    (hb : b ∈ s.geLnk) : (s.blockDrop c bSave b).Sound c := by
  obtain ⟨hs', hl, -, -⟩ := hs.blockSave hon bSave hb
  refine hs'.fewer ?_ _
  rw [hl]
  exact List.filter_sublist

theorem Sound.blockFlush (hon : c.bcBCksum = true) (hs : s.Sound c) (hb : b ∈ s.geLnk) :
    (s.blockFlush c b).Sound c := by
  obtain ⟨hs', -, hb', -⟩ := hs.blockSave hon true hb
  exact hs'.set hb' _

theorem Sound.blockCacheGet (hon : c.bcBCksum = true) (hs : s.Sound c) (hk : c.IsBlock k) :
    Result (fun e => e ≠ FCFault.assertCksum)
      (fun r => r.2.Sound c ∧ r.1 ∈ r.2.geLnk ∧ r.1.bKey = k) (s.blockCacheGet c k now) := by
  unfold FileCache.blockCacheGet
  split
  · rename_i b hf
    obtain ⟨hb, rfl⟩ := Lru.find_some hf
    refine ⟨⟨hs.fds, hs.files, hs.unique.use, fun b' hb' => ?_⟩, Lru.mem_use.mpr (.inr rfl), rfl⟩
    rcases Lru.mem_use.mp hb' with ⟨hb', -⟩ | rfl
    · exact hs.blocks b' hb'
    · exact hs.blocks _ hb
  · rename_i hnone
    have hroom : (s.blockRoom c).Sound c ∧ ∀ b ∈ (s.blockRoom c).geLnk, b.bKey ≠ k := by
      unfold FileCache.blockRoom
      split
      · exact ⟨hs, Lru.find_none.mp hnone⟩
      · split
        · exact ⟨hs, Lru.find_none.mp hnone⟩
        · rename_i b bs hl
          have hb : b ∈ s.geLnk := hl ▸ List.mem_cons_self
          exact ⟨hs.blockDrop hon true hb, fun b' hb' =>
            Lru.find_none.mp hnone b' (Lru.mem_without.mp hb').1⟩
    obtain ⟨hs', hno⟩ := hroom
    refine (GFdCtrl.blockLoad_ok hs'.fds hs'.files hk).map ?_
    rintro ⟨b, d⟩ ⟨hle, rfl, hb⟩
    refine ⟨⟨hle.ok, hle.summed hs'.files, hs'.unique.snoc hno, fun b' hb' => ?_⟩,
      List.mem_append_right _ List.mem_cons_self, rfl⟩
    rcases List.mem_append.mp hb' with hb' | hb'
    · exact (hs'.blocks b' hb').leads hle
    · rw [List.mem_singleton.mp hb']
      exact hb

end FileCache

/-! ### Writes and reads -/

namespace BlockCache

/-- What the part of a segment that is written leaves of its checksum. -/
theorem Summed.cksumUpdate {buf : ℕ → UInt8} {i off len : ℕ} (hb : b.Summed c)
    (hlo : c.bcSegmentSize * i ≤ off) (hword : (off - c.bcSegmentSize * i) % 8 = 0)
    (hhi : off + len ≤ c.bcSegmentSize * i + c.bcSegmentSize)
    (hout : ∀ x, c.bcSegmentSize * i ≤ x → x < c.bcSegmentSize * i + c.bcSegmentSize →
      x < off ∨ off + len ≤ x → buf x = b.bPBuf x) :
    b.cksumUpdate c buf i off len = 0 ∨ b.cksumUpdate c buf i off len = c.segSum buf i := by
  unfold BlockCache.cksumUpdate
  dsimp only
  split
  · rename_i hsum
    rw [hb i hsum.2]
    split
    · exact inCksum64SubAdd_part hlo hword hhi hout
    · exact .inr rfl
  · exact .inr (if_neg fun h => h rfl)

/-- A write leaves its segments with their sums. -/
theorem Summed.write {sOff eOff : ℕ} {pData : ℕ → UInt8} (hb : b.Summed c)
    (hon : c.bcBCksum = true) (hS : c.bcSegmentSize % 8 = 0) (hlt : sOff < eOff) :
    (b.write c sOff eOff pData now).Summed c := by
  intro i hi
  unfold BlockCache.write at hi ⊢
  simp only [hon, true_and] at hi ⊢
  generalize hbuf : (fun x => if sOff ≤ x ∧ x < eOff then pData (x - sOff) else b.bPBuf x) = buf
    at hi ⊢
  have hout (x : ℕ) (hx : x < sOff ∨ eOff ≤ x) : buf x = b.bPBuf x := by
    rw [← hbuf]
    exact if_neg (by omega)
  generalize hr : sOff % 8 = r at hi ⊢
  generalize hsoffB : sOff - r = soffB at hi ⊢
  generalize hS' : c.bcSegmentSize = S at hi ⊢
  have hSpos : 0 < S := hS' ▸ c.size_pos
  rw [hS'] at hS
  generalize hiS : soffB / S = iS at hi ⊢
  generalize hiE : (eOff - 1) / S = iE at hi ⊢
  have hsB : soffB % 8 = 0 := by omega
  have hmod (n : ℕ) : (S * n) % 8 = 0 := by rw [Nat.mul_mod, hS, Nat.zero_mul, Nat.zero_mod]
  -- where the first and the last segment begin and end
  have hS₀ := hmod iS
  have hE₀ := hmod iE
  have hSlo : S * iS ≤ soffB := hiS ▸ Nat.mul_div_le soffB S
  have hShi : soffB < S * iS + S := by
    rw [← hiS]
    exact Nat.lt_mul_div_succ soffB hSpos
  have hElo : S * iE ≤ eOff - 1 := hiE ▸ Nat.mul_div_le (eOff - 1) S
  have hEhi : eOff - 1 < S * iE + S := by
    rw [← hiE]
    exact Nat.lt_mul_div_succ (eOff - 1) hSpos
  have hseg (j : ℕ) (h : j < i) : S * j + S ≤ S * i := by
    have := Nat.mul_le_mul_left S (Nat.succ_le_of_lt h)
    rwa [Nat.mul_succ] at this
  have hseg' (j : ℕ) (h : i < j) : S * i + S ≤ S * j := by
    have := Nat.mul_le_mul_left S (Nat.succ_le_of_lt h)
    rwa [Nat.mul_succ] at this
  have hsucc : (iS + 1) * S = S * iS + S := by ring
  have hcomm : iE * S = S * iE := Nat.mul_comm iE S
  rw [hsucc, hcomm] at hi ⊢
  split at hi
  · rename_i hin
    rw [if_pos hin]
    split at hi
    · -- the whole write is in one segment
      rename_i hone
      rw [if_pos hone]
      obtain rfl : i = iS := by omega
      subst hone
      refine (hb.cksumUpdate (by rw [hS']; omega) (by rw [hS']; omega) (by rw [hS']; omega)
        ?_).resolve_left hi
      exact fun x _ _ hx => hout x (by omega)
    · rename_i hne
      rw [if_neg hne]
      split at hi
      · -- the first segment, from a word on
        rename_i hfirst
        subst hfirst
        rw [if_pos rfl]
        refine (hb.cksumUpdate (by rw [hS']; omega) (by rw [hS']; omega) (by rw [hS']; omega)
          ?_).resolve_left hi
        rw [hS']
        exact fun x _ _ hx => hout x (by omega)
      · rename_i hfirst
        rw [if_neg hfirst]
        split at hi
        · -- the last segment, up to any byte
          rename_i hlast
          subst hlast
          rw [if_pos rfl]
          refine (hb.cksumUpdate (by rw [hS']) (by rw [hS', Nat.sub_self]) (by rw [hS']; omega)
            ?_).resolve_left hi
          rw [hS']
          exact fun x _ _ hx => hout x (by omega)
        · rename_i hlast
          rw [if_neg hlast]
  · -- a segment that is not written
    rename_i hno
    rw [if_neg hno, hb i hi]
    refine BlockCacheCtrl.segSum_congr fun x hx => (hout _ ?_).symm
    rw [hS'] at hx ⊢
    rcases Nat.lt_or_ge i iS with h | h
    · have := hseg' iS h
      omega
    · have := hseg iE (by omega)
      omega

theorem Ok.write {sOff eOff : ℕ} {pData : ℕ → UInt8} (hb : b.Ok c d)
    (hon : c.bcBCksum = true) (hS : c.bcSegmentSize % 8 = 0) (hlt : sOff < eOff)
    (hle : eOff ≤ c.blockLen) : (b.write c sOff eOff pData now).Ok c d where
  key := hb.key
  len := max_le hb.len hle
  summed := hb.summed.write hon hS hlt
  buf x hx hxB := by
    have hx' := max_le_iff.mp hx
    exact (if_neg (by omega)).trans (hb.buf x hx'.1 hxB)
  stored x hx hxB := hb.stored x (max_le_iff.mp hx).1 hxB

/-- A checksum that is looked at is that of its segment. -/
theorem Ok.check {sOff eOff : ℕ} (hb : b.Ok c d) :
    Result (fun e => e ≠ FCFault.assertCksum) (fun b' => b'.Ok c d ∧ b'.bKey = b.bKey)
      (b.check c sOff eOff now) := by
  unfold BlockCache.check
  dsimp only
  split
  · rw [if_pos]
    · exact ⟨⟨hb.key, hb.len, hb.summed, hb.buf, hb.stored⟩, rfl⟩
    · intro i _ hi
      refine hb.summed i ?_
      simp at hi
      exact hi.2
  · exact ⟨hb, rfl⟩

/-- Zeros that are cut off do not show in the checksum. -/
theorem Ok.cut {l : ℕ} (hb : b.Ok c d) (hl : l < c.blockLen) (hmod : l % c.bcSegmentSize ≠ 0)
    (hzero : ∀ x < c.blockLen, l ≤ x → b.bPBuf x = 0 ∧ d.stored c b.bKey x = 0) :
    Result (fun e => e ≠ FCFault.assertCksum) (fun b' => b'.Ok c d ∧ b'.bKey = b.bKey)
      (b.cut c l) := by
  have hstart : c.bcSegmentSize * (l / c.bcSegmentSize) + l % c.bcSegmentSize = l :=
    Nat.div_add_mod l _
  have hrest : l - l / c.bcSegmentSize * c.bcSegmentSize = l % c.bcSegmentSize := by
    rw [Nat.mul_comm]
    omega
  have hlt := Nat.mod_lt l c.size_pos
  unfold BlockCache.cut
  dsimp only
  rw [hrest]
  split
  · rw [if_pos (by omega)]
    refine ⟨⟨hb.key, hl.le, fun i hi => ?_, fun x hx hxB => (hzero x hxB hx).1,
      fun x hx hxB => (hzero x hxB hx).2⟩, rfl⟩
    dsimp only at hi ⊢
    by_cases hiS : i = l / c.bcSegmentSize
    · have hin : l / c.bcSegmentSize < c.bcSegmentNum := Nat.div_lt_of_lt_mul hl
      rw [hiS, Function.update_self]
      refine inCksum64_part hlt.le fun x hx hx' => (hzero x ?_ (by omega)).1
      have := BlockCacheCtrl.segment_le (x := x - c.bcSegmentSize * (l / c.bcSegmentSize)) hin
        (by omega)
      omega
    · rw [Function.update_of_ne hiS] at hi ⊢
      exact hb.summed i hi
  · exact ⟨⟨hb.key, hl.le, hb.summed, fun x hx hxB => (hzero x hxB hx).1,
      fun x hx hxB => (hzero x hxB hx).2⟩, rfl⟩

end BlockCache

end

end PaxosSolutions
