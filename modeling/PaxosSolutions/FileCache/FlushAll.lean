import PaxosSolutions.FileCache.Requests
import PaxosSolutions.NWGadget.GElmLoop

/-!
# All that is changed is flushed

`FileCacheFlushAll` has `GElmLoop` go through the links of the blocks that are
changed, with the offset of the link in a block. So the loop function is called
with an address in a block where it takes a block to begin, and what it looks at
there is not in the block.
-/
namespace PaxosSolutions
open Lib

/-- Where the blocks are, the link that heads those that are changed, and what a
`BlockCache_t` is made up of. Its first member is a `GElm_t`, its second the link. -/
structure BlockLayout where
  addr : BlockCacheKey → ℕ
  pHead : ℕ
  offDirtyLnk : ℕ
  size : ℕ
  pos : 0 < offDirtyLnk
  inside : 2 * offDirtyLnk < size

/-- The cache, and its links in memory. -/
structure BlockMem where
  cache : FileCache
  links : Links

/-- Where the loop function stops: on a block that is not there. -/
inductive LoopFault
  | wild
deriving DecidableEq, Repr

variable (c : FileCacheCtrl) (L : BlockLayout)

namespace BlockMem

/-- `_BlockLoop` of `GE_FLUSH_ALL` -/
def blockLoop (pElm : ℕ) (m : BlockMem) : Except LoopFault (ℤ × BlockMem) :=
  match m.cache.geLnk.find? fun b => L.addr b.bKey = pElm with
  | none => .error .wild
  | some b =>
      if b.bDirty then
        .ok (0, {
          cache := m.cache.blockFlush c b
          links :=
            if b.bKey ∈ m.cache.bcDirtyLnk then m.links.unlink (L.addr b.bKey + L.offDirtyLnk)
            else m.links })
      else .ok (0, m)

/-- `FileCacheFlushAll`, in at most so many turns of its loop. -/
def fileCacheFlushAll (fuel : ℕ) (m : BlockMem) : Option (Except LoopFault BlockMem) :=
  (gElmLoop links (blockLoop c L) L.pHead L.offDirtyLnk fuel m).map fun r =>
    r.map fun r =>
      { r.2 with cache := { r.2.cache with bcFdCtrl := r.2.cache.bcFdCtrl.gFdMetaFlushAll } }

/-- The changed blocks are linked, blocks do not meet, and what is known of two files
is kept in two. -/
structure Placed (m : BlockMem) : Prop where
  ring : m.links.Ring L.pHead (m.cache.bcDirtyLnk.map fun k => L.addr k + L.offDirtyLnk)
  held : ∀ k ∈ m.cache.bcDirtyLnk, ∃ b ∈ m.cache.geLnk, b.bKey = k
  apart : ∀ b ∈ m.cache.geLnk, ∀ b' ∈ m.cache.geLnk, b.bKey ≠ b'.bKey →
    L.addr b.bKey + L.size ≤ L.addr b'.bKey ∨ L.addr b'.bKey + L.size ≤ L.addr b.bKey
  metas : (m.cache.bcFdCtrl.fcMeta.map GFdMeta.ino).Nodup

end BlockMem

/-- A checksum of a block in its file. -/
def GFdCtrl.storedCksum (k : BlockCacheKey) (i : ℕ) (d : GFdCtrl) : UInt64 :=
  match d.inode (c.segPath k) with
  | some ino => (d.segFile ino).cksum (c.inCksumFile k + i)
  | none => 0

/-- The blocks that were changed are in their files with their checksums and are no
longer changed, and what was known of files is written. -/
structure Flushed (before after : FileCache) : Prop where
  clean : ∀ k ∈ before.bcDirtyLnk, k ∉ after.bcDirtyLnk ∧
    ∀ b ∈ after.geLnk, b.bKey = k → b.bDirty = false
  data : ∀ b ∈ before.geLnk, b.bKey ∈ before.bcDirtyLnk →
    (∀ x < b.bLen, after.bcFdCtrl.stored c b.bKey x = b.bPBuf x) ∧
      (c.bcBCksum = true → ∀ i < c.segments b.bLen,
        after.bcFdCtrl.storedCksum c b.bKey i = b.bPCksum64 i)
  metas : ∀ m ∈ before.bcFdCtrl.fcMeta, after.bcFdCtrl.metaFile m.ino = some m.stSize

variable {c L}

/-! ### What is known of files -/

namespace GFdCtrl

variable {ms : List GFdMeta} {d : GFdCtrl} {m : GFdMeta}

theorem flush_metaFile_of_notMem {i : ℕ} (h : i ∉ ms.map GFdMeta.ino) :
    (ms.foldl (fun d m => d.fdMetaFlush m) d).metaFile i = d.metaFile i := by
  induction ms generalizing d with
  | nil => rfl
  | cons m ms ih =>
      rw [List.map_cons, List.mem_cons, not_or] at h
      rw [List.foldl_cons, ih h.2]
      exact Function.update_of_ne h.1 _ _

theorem flush_metaFile (h : (ms.map GFdMeta.ino).Nodup) (hm : m ∈ ms) :
    (ms.foldl (fun d m => d.fdMetaFlush m) d).metaFile m.ino = some m.stSize := by
  induction ms generalizing d with
  | nil => cases hm
  | cons m' ms ih =>
      obtain ⟨hno, h⟩ := List.nodup_cons.mp h
      rw [List.foldl_cons]
      rcases List.mem_cons.mp hm with rfl | hm
      · rw [flush_metaFile_of_notMem hno]
        exact Function.update_self _ _ _
      · exact ih h hm

end GFdCtrl

/-! ### The loop -/

namespace BlockMem

variable {m : BlockMem} {fuel : ℕ}

/-- No block begins that far behind the link of another. -/
theorem Placed.blockLoop_wild (hm : m.Placed L) {k : BlockCacheKey} (hk : k ∈ m.cache.bcDirtyLnk) :
    m.blockLoop c L (L.addr k + L.offDirtyLnk + L.offDirtyLnk) = .error .wild := by
  have hnone : (m.cache.geLnk.find? fun b =>
      L.addr b.bKey = L.addr k + L.offDirtyLnk + L.offDirtyLnk) = none := by
    refine List.find?_eq_none.mpr fun b hb => ?_
    rw [decide_eq_true_eq]
    intro haddr
    obtain ⟨b', hb', rfl⟩ := hm.held k hk
    have hpos := L.pos
    have hin := L.inside
    by_cases hkey : b.bKey = b'.bKey
    · rw [hkey] at haddr
      omega
    · have := hm.apart b hb b' hb' hkey
      omega
  unfold BlockMem.blockLoop
  rw [hnone]

theorem Placed.flushAll_wild (hm : m.Placed L) (h : m.cache.bcDirtyLnk ≠ []) (hfuel : 0 < fuel) :
    m.fileCacheFlushAll c L fuel = some (.error .wild) := by
  have hring := hm.ring
  obtain ⟨k, ks, hks⟩ := List.exists_cons_of_ne_nil h
  have hwild := hm.blockLoop_wild (c := c) (hks ▸ List.mem_cons_self)
  rw [hks, List.map_cons] at hring
  obtain ⟨fuel, rfl⟩ := Nat.exists_eq_add_one_of_ne_zero (Nat.ne_of_gt hfuel)
  have hne : L.addr k + L.offDirtyLnk ≠ L.pHead := fun h =>
    (List.nodup_cons.mp hring.nodup).1 (h ▸ List.mem_cons_self)
  unfold BlockMem.fileCacheFlushAll gElmLoop forEachSafe
  dsimp only
  rw [hring.path.1, if_neg hne, hwild]
  rfl

theorem Placed.flushAll_nil (hm : m.Placed L) (h : m.cache.bcDirtyLnk = []) (hfuel : 0 < fuel) :
    m.fileCacheFlushAll c L fuel =
      some (.ok { m with cache := { m.cache with bcFdCtrl := m.cache.bcFdCtrl.gFdMetaFlushAll } }) := by
  have hring := hm.ring
  rw [h, List.map_nil] at hring
  obtain ⟨fuel, rfl⟩ := Nat.exists_eq_add_one_of_ne_zero (Nat.ne_of_gt hfuel)
  unfold BlockMem.fileCacheFlushAll gElmLoop forEachSafe
  dsimp only
  rw [hring.path.1, if_pos rfl]
  rfl

end BlockMem

/-- A loop over links is called with the elements where the link is their first member,
and so all that is changed is flushed where nothing is changed. -/
theorem flushAll_iff (c : FileCacheCtrl) (L : BlockLayout) (l : Links) (pHead off fuel : ℕ)
    (bases : List ℕ) (m : BlockMem) (hl : l.Ring pHead (bases.map (· + off))) (hm : m.Placed L)
    (hfuel : m.cache.bcDirtyLnk.length < fuel) :
    (CallsBases pHead off l bases ↔ off = 0 ∨ bases = []) ∧
      ((∃ t, m.fileCacheFlushAll c L fuel = some (.ok t) ∧ Flushed c m.cache t.cache) ↔
        m.cache.bcDirtyLnk = []) := by
  refine ⟨callsBases_iff hl, ?_, ?_⟩
  · rintro ⟨t, ht, -⟩
    by_contra hne
    rw [hm.flushAll_wild hne (Nat.zero_lt_of_lt hfuel)] at ht
    cases ht
  · intro hnil
    refine ⟨_, hm.flushAll_nil hnil (Nat.zero_lt_of_lt hfuel), ?_, ?_, ?_⟩
    · rw [hnil]
      exact fun k hk => absurd hk List.not_mem_nil
    · rw [hnil]
      exact fun b _ hk => absurd hk List.not_mem_nil
    · exact fun m' hm' => GFdCtrl.flush_metaFile hm.metas hm'

/-- One link, 80 bytes into a block at 4096, with its head at 16. -/
def oneLink : Links where
  next a := if a = 16 then 4176 else 16
  prev a := if a = 16 then 4176 else 16

def oneBlock : BlockLayout where
  addr _ := 4096
  pHead := 16
  offDirtyLnk := 80
  size := 1200
  pos := by decide
  inside := by decide

theorem oneLink_ring : oneLink.Ring 16 [4176] := ⟨⟨rfl, rfl, rfl, rfl⟩, by decide⟩

theorem flushAll_iff_meta : (CallsBases 16 80 oneLink [4096] ↔ 80 = 0 ∨ [4096] = []) ∧
    ((∃ t, BlockMem.fileCacheFlushAll twoWords oneBlock 1
        ⟨{ bcFdCtrl := { fcMeta := [⟨"f", 3, 0⟩] } }, ⟨fun _ => 16, fun _ => 16⟩⟩ = some (.ok t) ∧
      Flushed twoWords { bcFdCtrl := { fcMeta := [⟨"f", 3, 0⟩] } } t.cache) ↔ True) := by
  have h := flushAll_iff twoWords oneBlock oneLink 16 80 1 [4096]
    ⟨{ bcFdCtrl := { fcMeta := [⟨"f", 3, 0⟩] } }, ⟨fun _ => 16, fun _ => 16⟩⟩ oneLink_ring
    ⟨⟨⟨rfl, rfl⟩, by decide⟩, by decide, by decide, by decide⟩ (by decide)
  exact ⟨h.1, h.2.trans (iff_true_intro rfl)⟩

/-- A block is changed, and the loop function is called with an address where none begins. -/
theorem flushAll_iff_write : ¬ CallsBases 16 80 oneLink [4096] ∧
    ∃ s, run (fcStep twoWords) {} [.create "f", .write "f" 0 5 (fun _ => 7) 1] = .ok s ∧
      s.bcDirtyLnk = [⟨"f", 0⟩] ∧ BlockMem.Placed oneBlock ⟨s, oneLink⟩ ∧
        ∀ fuel, BlockMem.fileCacheFlushAll twoWords oneBlock (fuel + 1) ⟨s, oneLink⟩ =
          some (.error .wild) := by
  constructor
  · rw [callsBases_iff oneLink_ring]
    decide
  · exact ⟨_, rfl, by decide, ⟨oneLink_ring, by decide, by decide, by decide⟩, fun fuel => rfl⟩

end PaxosSolutions
