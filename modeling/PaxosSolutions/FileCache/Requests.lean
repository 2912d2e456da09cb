import PaxosSolutions.FileCache.SegmentSums

/-!
# Requests and checksums

All that is asked of the cache leaves its segments with their checksums, in the cache
and in the files, but that a truncation within a cached block sums what is before its
end only, and asserts that there is something. The part behind the end stays in the
buffer, and in the file.
-/
namespace PaxosSolutions
open Lib NWGadget

/-- What is asked of the cache, and what its thread does. -/
inductive FCOp
  | create (name : String)
  | write (name : String) (off len : ℤ) (pData : ℕ → UInt8) (now : ℤ)
  | read (name : String) (off len now : ℤ)
  | truncate (name : String) (off : ℤ)
  | flush (name : String) (off size now : ℤ)
  | writeBack (now : ℤ)
  | purge (name : String)
  | purgeAll
  | delete (name : String)

/-- `FileCacheCreate` -/
def FileCache.fileCacheCreate (c : FileCacheCtrl) (name : String) (s : FileCache) : FileCache :=
  { s with bcFdCtrl := (s.bcFdCtrl.gFdMetaGet c name true).2 }

def fcStep (c : FileCacheCtrl) (s : FileCache) : FCOp → Except FCFault FileCache
  | .create name => .ok (s.fileCacheCreate c name)
  | .write name off len pData now => s.blockCacheWrite c name off len pData now
  | .read name off len now => (s.blockCacheRead c name off len now).map Prod.fst
  | .truncate name off => s.fileCacheTruncate c name off
  | .flush name off size now => s.fileCacheFlush c name off size now
  | .writeBack now => .ok (s.blockCacheWB c now)
  | .purge name => .ok (s.fileCachePurge c name)
  | .purgeAll => .ok (s.fileCachePurgeAll c)
  | .delete name => .ok (s.fileCacheDelete c name)

/-- Checksums that are there are those of whole segments, in the cache and in the
files. -/
def FileCache.Summed (c : FileCacheCtrl) (s : FileCache) : Prop :=
  (∀ b ∈ s.geLnk, b.Summed c) ∧ ∀ i, (s.bcFdCtrl.segFile i).Summed c

/-- A request that is in the file. -/
def InFile (off len : ℤ) : Prop := 0 ≤ off ∧ 0 < len ∧ off + len < 2 ^ 63

/-- A truncation that ends within the block ends within a segment, and cuts off nothing
but zeros. -/
def BlockCache.CutsZeros (c : FileCacheCtrl) (d : GFdCtrl) (off : ℤ) (b : BlockCache) : Prop :=
  b.bKey.kOffset < off → off < b.bKey.kOffset + c.blockSize →
    (off - b.bKey.kOffset).toNat % c.bcSegmentSize ≠ 0 ∧
      ∀ x < c.blockLen, (off - b.bKey.kOffset).toNat ≤ x →
        b.bPBuf x = 0 ∧ d.stored c b.bKey x = 0

/-- Reads, writes and flushes are of what is in the file, and truncations cut zeros off
the blocks of the cache. -/
def Uncut (c : FileCacheCtrl) (s : FileCache) : FCOp → Prop
  | .write _ off len _ _ => InFile off len
  | .read _ off len _ => InFile off len
  | .flush _ off size _ => InFile off size
  | .truncate name off => ∀ b ∈ s.geLnk, b.bKey.kName = name → b.CutsZeros c s.bcFdCtrl off
  | _ => True

variable {c : FileCacheCtrl} {s : FileCache} {name : String} {off len now : ℤ} {ps : List Piece}
  {pData : ℕ → UInt8}

theorem Covers.blocks {dOff : ℤ} (h : Covers c.blockSize off len dOff ps) (hoff : 0 ≤ off)
    (hend : off + len < 2 ^ 63) {p : Piece} (hp : p ∈ ps) :
    c.IsBlock ⟨name, p.kOffset⟩ ∧ p.Within c := by
  induction ps generalizing off len dOff with
  | nil => cases hp
  | cons q ps ih =>
      obtain ⟨hk, ho, -, hs, hlt, he, h⟩ := h
      rcases List.mem_cons.mp hp with rfl | hp
      · have hn := h.nonneg
        obtain ⟨m, hm⟩ := hk
        have hB := c.blockSize_pos
        have hm₀ : 0 ≤ m := by
          by_contra hneg
          have : c.blockSize * m ≤ c.blockSize * (-1) :=
            mul_le_mul_of_nonneg_left (by omega) hB.le
          omega
        have hk₀ : 0 ≤ p.kOffset := hm ▸ mul_nonneg hB.le hm₀
        exact ⟨⟨hk₀, by dsimp only; omega, ⟨m, hm⟩⟩, hs, hlt, he⟩
      · exact ih h (by omega) (by omega) hp

/-- The pieces of a request that is in the file. -/
theorem InFile.blocks (h : InFile off len) {p : Piece} (hp : p ∈ c.pieces off len 0) :
    c.IsBlock ⟨name, p.kOffset⟩ ∧ p.Within c := by
  obtain ⟨hoff, hlen, hend⟩ := h
  exact (c.pieces_covers hlen (by omega) (by omega) hend le_rfl (by omega) (.inl hoff)).blocks hoff
    hend hp

theorem Piece.Within.toNat {p : Piece} (h : p.Within c) :
    p.sOff.toNat < p.eOff.toNat ∧ p.eOff.toNat ≤ c.blockLen := by
  obtain ⟨hs, hlt, he⟩ := h
  rw [← c.blockLen_eq] at he
  omega

namespace FileCache

/-! ### Writes and reads -/

section
variable (hon : c.bcBCksum = true) (hS : c.bcSegmentSize % 8 = 0)
include hon

include hS in
theorem Sound.pieceWrite (hs : s.Sound c) {p : Piece} (hk : c.IsBlock ⟨name, p.kOffset⟩)
    (hp : p.Within c) :
    Result (fun e => e ≠ FCFault.assertCksum) (Sound c) (s.pieceWrite c name pData now p) := by
  refine (hs.blockCacheGet hon hk).bind ?_
  rintro ⟨b, s⟩ ⟨hs, hb, -⟩
  rw [if_pos hp]
  exact hs.set ((hs.blocks b hb).write hon hS hp.toNat.1 hp.toNat.2) _

include hS in
theorem Sound.blockCacheWrite (hs : s.Sound c) (h : InFile off len) :
    Result (fun e => e ≠ FCFault.assertCksum) (Sound c)
      (s.blockCacheWrite c name off len pData now) := by
  unfold FileCache.blockCacheWrite
  split
  · refine Result.along (C := fun _ p => c.IsBlock ⟨name, p.kOffset⟩ ∧ p.Within c)
      (fun s p hs hp => hs.pieceWrite hon hS hp.1 hp.2) hs ?_
    exact Along.of_forall fun p hp _ => h.blocks hp
  · exact FCFault.noConfusion

theorem Sound.pieceRead {r : FileCache × List UInt8} (hs : r.1.Sound c) {p : Piece}
    (hk : c.IsBlock ⟨name, p.kOffset⟩) (hp : p.Within c) :
    Result (fun e => e ≠ FCFault.assertCksum) (fun r => r.1.Sound c)
      (FileCache.pieceRead c name now r p) := by
  refine (hs.blockCacheGet hon hk).bind ?_
  rintro ⟨b, s⟩ ⟨hs, hb, -⟩
  rw [if_pos hp]
  exact (hs.blocks b hb).check.map fun b' hb' => hs.set hb'.1 s.bcDirtyLnk

theorem Sound.blockCacheRead (hs : s.Sound c) (h : InFile off len) :
    Result (fun e => e ≠ FCFault.assertCksum) (fun r => r.1.Sound c)
      (s.blockCacheRead c name off len now) := by
  unfold FileCache.blockCacheRead
  split
  · refine Result.along (C := fun _ p => c.IsBlock ⟨name, p.kOffset⟩ ∧ p.Within c)
      (I := fun r : FileCache × List UInt8 => r.1.Sound c)
      (fun r p hs hp => Sound.pieceRead hon hs hp.1 hp.2) hs ?_
    exact Along.of_forall fun p hp _ => h.blocks hp
  · exact FCFault.noConfusion

/-! ### Truncations -/

/-- The block of the loop leaves, is cut or stays, and nothing else changes. -/
theorem Sound.blockTruncate (hs : s.Sound c) {b : BlockCache} (hb : b ∈ s.geLnk)
    (hcut : b.bKey.kName = name → b.CutsZeros c s.bcFdCtrl off) :
    Result (fun e => e ≠ FCFault.assertCksum)
      (fun t => t.Sound c ∧ t.bcFdCtrl = s.bcFdCtrl ∧
        ∀ b' ∈ s.geLnk, b'.bKey ≠ b.bKey → b' ∈ t.geLnk) (s.blockTruncate c name off b) := by
  unfold FileCache.blockTruncate
  dsimp only
  split
  · exact ⟨hs, rfl, fun b' hb' _ => hb'⟩
  · rename_i hname
    split
    · refine ⟨hs.blockDrop hon false hb, ?_, fun b' hb' hne => Lru.mem_without.mpr ⟨?_, hne⟩⟩
      · obtain ⟨ks, v, h | ⟨-, h⟩⟩ := blockSave_cases (c := c) false b s
        · unfold FileCache.blockDrop
          rw [h]
        · cases h
      · exact hb'
    · rename_i hoff
      split
      · rename_i hl
        obtain ⟨hmod, hzero⟩ := hcut (not_not.mp hname) (by omega) (by omega)
        have hlt : (off - b.bKey.kOffset).toNat < c.blockLen := by
          rw [← c.blockLen_eq] at hl
          omega
        refine ((hs.blocks b hb).cut hlt hmod hzero).map fun b' hb' => ⟨hs.set hb'.1 _, rfl, ?_⟩
        intro b'' hb'' hne
        exact List.mem_map.mpr ⟨b'', hb'', if_neg fun h => hne (h.trans hb'.2)⟩
      · exact ⟨hs, rfl, fun b' hb' _ => hb'⟩

theorem Sound.truncateBlocks {bs : List BlockCache} (hs : s.Sound c)
    (hb : ∀ b ∈ bs, b ∈ s.geLnk) (hu : Lru.Unique BlockCache.bKey bs)
    (hcut : ∀ b ∈ bs, b.bKey.kName = name → b.CutsZeros c s.bcFdCtrl off) :
    Result (fun e => e ≠ FCFault.assertCksum) (Sound c) (run (FileCache.blockTruncate c name off) s bs) := by
  induction bs generalizing s with
  | nil => exact hs
  | cons b bs ih =>
      unfold run
      refine (hs.blockTruncate hon (hb b List.mem_cons_self) (hcut b List.mem_cons_self)).bind ?_
      rintro t ⟨ht, hd, hmem⟩
      have hne (b' : BlockCache) (hb' : b' ∈ bs) : b'.bKey ≠ b.bKey := fun h =>
        (List.nodup_cons.mp hu).1 (h ▸ List.mem_map_of_mem hb')
      refine ih ht (fun b' hb' => hmem b' (hb b' (List.mem_cons_of_mem b hb')) (hne b' hb')) hu.tail ?_
      rw [hd]
      exact fun b' hb' => hcut b' (List.mem_cons_of_mem b hb')

theorem Sound.fileCacheTruncate (hs : s.Sound c)
    (hcut : ∀ b ∈ s.geLnk, b.bKey.kName = name → b.CutsZeros c s.bcFdCtrl off) :
    Result (fun e => e ≠ FCFault.assertCksum) (Sound c) (s.fileCacheTruncate c name off) := by
  refine (hs.truncateBlocks hon (fun b hb => hb) hs.unique hcut).map fun t ht => ht.leads ?_
  have hfd := ht.fds.gFdCacheTruncate name off
  have hdir := hfd.trans (hfd.ok.gFdMetaTruncate c name off)
  have hget := hdir.trans (hdir.ok.gFdMetaGet c name false)
  exact hget.trans hget.ok.setSize

/-! ### Flushes, purges and deletions -/

omit hon in
/-- The blocks of a flush are blocks of the file. -/
theorem flushOffsets_isBlock (h : InFile off len) {kOffset : ℤ}
    (hk : kOffset ∈ flushOffsets c off len) :
    c.IsBlock ⟨name, kOffset⟩ := by
  obtain ⟨hoff, hlen, hend⟩ := h
  obtain ⟨i, hi, rfl⟩ := List.mem_map.mp hk
  rw [List.mem_range] at hi
  rw [Int.tdiv_eq_ediv_of_nonneg hoff, toSize_eq (by omega) (by omega)] at hi
  have hB := c.blockSize_pos
  have hq := Int.ediv_nonneg hoff hB.le
  have hle : c.blockSize * (off / c.blockSize + i) ≤ off + len - 1 :=
    calc c.blockSize * (off / c.blockSize + i)
        ≤ c.blockSize * ((off + len - 1) / c.blockSize) :=
          mul_le_mul_of_nonneg_left (by omega) hB.le
      _ ≤ off + len - 1 := Int.mul_ediv_self_le hB.ne'
  have h₀ : 0 ≤ c.blockSize * (off / c.blockSize + i) := mul_nonneg hB.le (by omega)
  rw [Int.tdiv_eq_ediv_of_nonneg hoff, toOff_eq (by omega) (by omega)]
  exact ⟨h₀, by dsimp only; omega, ⟨_, rfl⟩⟩

theorem Sound.fileCacheFlush (hs : s.Sound c) (h : InFile off len) :
    Result (fun e => e ≠ FCFault.assertCksum) (Sound c) (s.fileCacheFlush c name off len now) := by
  refine Result.map (P := Sound c) ?_ fun t ht => ht.leads ht.fds.gFdMetaFlush
  refine Result.along (C := fun _ kOffset => c.IsBlock ⟨name, kOffset⟩) ?_ hs
    (Along.of_forall fun kOffset hk _ => flushOffsets_isBlock h hk)
  intro s kOffset hs hk
  refine (hs.blockCacheGet hon hk).map ?_
  rintro ⟨b, s⟩ ⟨hs, hb, -⟩
  exact hs.blockFlush hon hb

theorem Sound.blockCacheWB (hs : s.Sound c) : (s.blockCacheWB c now).Sound c := by
  unfold FileCache.blockCacheWB
  split
  · exact hs
  · rename_i b hb
    obtain ⟨k, -, hf⟩ := Option.bind_eq_some_iff.mp hb
    split
    · have hs' := hs.blockFlush hon (Lru.find_some hf).1
      have hget := hs'.fds.gFdMetaGet c b.bKey.kName true
      refine hs'.leads ?_
      cases hm : ((s.blockFlush c b).bcFdCtrl.gFdMetaGet c b.bKey.kName true).1 with
      | none => exact hget
      | some m => exact hget.trans (hget.ok.fdMetaFlush m)
    · exact hs

theorem Sound.dropBlocks {bs : List BlockCache} (bSave : Bool) (p : BlockCache → Bool)
    (hs : s.Sound c) (hb : ∀ b ∈ bs, b ∈ s.geLnk) (hu : Lru.Unique BlockCache.bKey bs) :
    (bs.foldl (fun s b => if p b then s.blockDrop c (bSave && b.bDirty) b else s) s).Sound c := by
  induction bs generalizing s with
  | nil => exact hs
  | cons b bs ih =>
      rw [List.foldl_cons]
      split
      · refine ih (hs.blockDrop hon _ (hb b List.mem_cons_self)) (fun b' hb' => ?_) hu.tail
        refine Lru.mem_without.mpr ⟨hb b' (List.mem_cons_of_mem b hb'), fun h => ?_⟩
        exact (List.nodup_cons.mp hu).1 (h ▸ List.mem_map_of_mem hb')
      · exact ih hs (fun b' hb' => hb b' (List.mem_cons_of_mem b hb')) hu.tail

theorem Sound.blocksDrop (hs : s.Sound c) (bSave : Bool) (p : BlockCache → Bool) :
    (s.blocksDrop c bSave p).Sound c :=
  hs.dropBlocks hon bSave p (fun _ hb => hb) hs.unique

theorem Sound.fileCachePurge (hs : s.Sound c) : (s.fileCachePurge c name).Sound c := by
  have hs' := hs.blocksDrop hon true fun b => b.bKey.kName = name
  have hdel := hs'.fds.gFdCacheDelete name
  exact hs'.leads (hdel.trans hdel.ok.gFdMetaPurge)

theorem Sound.fileCachePurgeAll (hs : s.Sound c) : (s.fileCachePurgeAll c).Sound c := by
  have hs' := hs.blocksDrop hon true fun _ => true
  have hflush := GFdCtrl.Ok.foldl (fun _ m h => h.fdMetaFlush m) hs'.fds
    (s.blocksDrop c true fun _ => true).bcFdCtrl.fcMeta
  refine hs'.leads (hflush.trans ?_)
  exact hflush.ok.leads_fewer List.nodup_nil (fun _ h => absurd h List.not_mem_nil) (fun _ _ h => h)
    le_rfl rfl

theorem Sound.fileCacheDelete (hs : s.Sound c) : (s.fileCacheDelete c name).Sound c := by
  unfold FileCache.fileCacheDelete
  split
  · exact hs
  · have hs' := hs.blocksDrop hon false fun b => b.bKey.kName = name
    have hdel := hs'.fds.gFdCacheDelete name
    exact hs'.leads (hdel.trans (hdel.ok.gFdMetaDelete name))

/-! ### Runs -/

include hS in
theorem Sound.fcStep (hs : s.Sound c) (op : FCOp) (h : Uncut c s op) :
    Result (fun e => e ≠ FCFault.assertCksum) (Sound c) (PaxosSolutions.fcStep c s op) := by
  cases op with
  | create name => exact hs.leads (hs.fds.gFdMetaGet c name true)
  | write name off len pData now => exact hs.blockCacheWrite hon hS h
  | read name off len now => exact (hs.blockCacheRead hon h).map fun _ hr => hr
  | truncate name off => exact hs.fileCacheTruncate hon h
  | flush name off size now => exact hs.fileCacheFlush hon h
  | writeBack now => exact hs.blockCacheWB hon
  | purge name => exact hs.fileCachePurge hon
  | purgeAll => exact hs.fileCachePurgeAll hon
  | delete name => exact hs.fileCacheDelete hon

end

theorem Sound.summed (hs : s.Sound c) : s.Summed c := ⟨fun b hb => (hs.blocks b hb).summed, hs.files⟩

theorem sound_empty : Sound c {} where
  fds := by
    refine ⟨List.nodup_nil, fun _ h => absurd h List.not_mem_nil, fun _ _ _ h => ?_, fun _ _ h => ?_⟩
    · cases h
    · cases h
  files _ := SegFile.summed_empty
  unique := List.nodup_nil
  blocks _ h := absurd h List.not_mem_nil

end FileCache

/-- While truncations cut off zeros only, the checksums are those of the segments, and
those that are asserted agree. -/
theorem segments_summed (c : FileCacheCtrl) (ops : List FCOp) (hon : c.bcBCksum = true)
    (hS : c.bcSegmentSize % 8 = 0) (h : Along (fcStep c) (Uncut c) {} ops) :
    Result (fun e => e ≠ FCFault.assertCksum) (FileCache.Summed c) (run (fcStep c) {} ops) := by
  have hrun : Result (fun e => e ≠ FCFault.assertCksum) (FileCache.Sound c) (run (fcStep c) {} ops) :=
    Result.along (fun _ op hs hop => hs.fcStep hon hS op hop) FileCache.sound_empty h
  revert hrun
  cases run (fcStep c) {} ops with
  | error e => exact id
  | ok s => exact FileCache.Sound.summed

/-- A cache of blocks of two segments of a word. -/
def twoWords : FileCacheCtrl where
  geMaxCnt := 4
  bcSegmentSize := 8
  bcSegmentNum := 2
  bcBCksum := true
  cnt_lt := by decide
  size_pos := by decide
  num_pos := by decide
  small := by decide
  fdMax := 2
  bcUsecWB := 0

instance (c : FileCacheCtrl) (d : GFdCtrl) (off : ℤ) (b : BlockCache) :
    Decidable (b.CutsZeros c d off) :=
  inferInstanceAs (Decidable (_ → _ → _ ∧ ∀ _ < _, _ → _))

instance (c : FileCacheCtrl) (s : FileCache) (op : FCOp) : Decidable (Uncut c s op) :=
  match op with
  | .create _ => .isTrue trivial
  | .write _ off len _ _ => inferInstanceAs (Decidable (0 ≤ off ∧ 0 < len ∧ off + len < 2 ^ 63))
  | .read _ off len _ => inferInstanceAs (Decidable (0 ≤ off ∧ 0 < len ∧ off + len < 2 ^ 63))
  | .flush _ off len _ => inferInstanceAs (Decidable (0 ≤ off ∧ 0 < len ∧ off + len < 2 ^ 63))
  | .truncate name off => inferInstanceAs
      (Decidable (∀ b ∈ s.geLnk, b.bKey.kName = name → b.CutsZeros c s.bcFdCtrl off))
  | .writeBack _ => .isTrue trivial
  | .purge _ => .isTrue trivial
  | .purgeAll => .isTrue trivial
  | .delete _ => .isTrue trivial

theorem segments_summed_reload :
    Result (fun e => e ≠ FCFault.assertCksum) (FileCache.Summed twoWords) (run (fcStep twoWords) {}
      [.create "f", .write "f" 3 7 (fun x => UInt8.ofNat (x + 1)) 1, .truncate "f" 13, .purge "f",
        .read "f" 0 10 2]) :=
  segments_summed twoWords _ rfl rfl (by decide)

/-- A byte of 7 is cut off, and the checksum of the segment is that of what is left. -/
theorem segments_summed_cut : (∃ s, run (fcStep twoWords) {}
      [.create "f", .write "f" 0 5 (fun _ => 7) 1, .truncate "f" 4] = .ok s ∧
        ¬ s.Summed twoWords) ∧
    run (fcStep twoWords) {} [.create "f", .write "f" 0 16 (fun _ => 7) 1, .truncate "f" 8] =
      .error .assertCksum := by
  constructor
  · exact ⟨_, rfl, fun h => absurd (h.1 _ List.mem_cons_self 0 (by decide)) (by decide)⟩
  · rfl

end PaxosSolutions
