import PaxosSolutions.FileCache.Disk

/-!
# What paths lead to

A path leads to the file that is open under it, which may have been removed, or
else to that of the directory. No two paths lead to one file. What the cache of
open files does leaves a path with the file it had, or with an empty one.
-/
namespace PaxosSolutions
open Lib

/-! ### Keys -/

namespace BlockCacheCtrl

variable {c : BlockCacheCtrl} {k k' : BlockCacheKey}

/-- A block is a block of the file. -/
def IsBlock (c : BlockCacheCtrl) (k : BlockCacheKey) : Prop :=
  0 ≤ k.kOffset ∧ k.kOffset < 2 ^ 63 ∧ c.blockSize ∣ k.kOffset

theorem fileSize_pos (c : BlockCacheCtrl) : 0 < c.fileSize := by
  have := c.blockSize_pos
  unfold fileSize
  omega

theorem IsBlock.toSize (hk : c.IsBlock k) : toSize k.kOffset = k.kOffset :=
  toSize_eq hk.1 (by have := hk.2.1; omega)

theorem IsBlock.inFile (hk : c.IsBlock k) : (c.inFile k : ℤ) = k.kOffset % c.fileSize := by
  unfold BlockCacheCtrl.inFile
  rw [hk.toSize, Int.toNat_of_nonneg (Int.emod_nonneg _ c.fileSize_pos.ne')]

theorem IsBlock.dvd_inFile (hk : c.IsBlock k) : c.blockSize ∣ (c.inFile k : ℤ) := by
  rw [hk.inFile, Int.emod_def]
  exact Int.dvd_sub hk.2.2 (dvd_mul_of_dvd_left ⟨64, rfl⟩ _)

/-- Blocks of one segment file are blocks of one file, that many files from its
beginning. -/
theorem IsBlock.segPath (hk : c.IsBlock k) (hk' : c.IsBlock k') (h : c.segPath k = c.segPath k') :
    k.kName = k'.kName ∧ k.kOffset / c.fileSize = k'.kOffset / c.fileSize := by
  have hpos := c.fileSize_pos
  have hlt (k : BlockCacheKey) (hk : c.IsBlock k) :
      0 ≤ k.kOffset / c.fileSize ∧ toOff (k.kOffset / c.fileSize) = k.kOffset / c.fileSize := by
    have h₀ := Int.ediv_nonneg hk.1 hpos.le
    have h₁ := Int.ediv_le_self c.fileSize hk.1
    exact ⟨h₀, toOff_eq (by omega) (by have := hk.2.1; omega)⟩
  obtain ⟨h₀, he⟩ := hlt k hk
  obtain ⟨h₀', he'⟩ := hlt k' hk'
  simp only [BlockCacheCtrl.segPath, fileCacheIndex, hk.toSize, hk'.toSize, he, he',
    SegPath.mk.injEq] at h
  obtain ⟨hn, h0, h1, hb⟩ := h
  refine ⟨hn, ?_⟩
  rw [Int.tdiv_eq_ediv_of_nonneg h₀, Int.tdiv_eq_ediv_of_nonneg h₀',
    Int.tdiv_eq_ediv_of_nonneg (by omega), Int.tdiv_eq_ediv_of_nonneg (by omega)] at h0
  rw [Int.tdiv_eq_ediv_of_nonneg h₀, Int.tdiv_eq_ediv_of_nonneg h₀',
    Int.tmod_eq_emod_of_nonneg (by omega), Int.tmod_eq_emod_of_nonneg (by omega)] at h1
  rw [Int.tmod_eq_emod_of_nonneg h₀, Int.tmod_eq_emod_of_nonneg h₀'] at hb
  omega

/-- Two blocks of one segment file do not meet there. -/
theorem IsBlock.apart (hk : c.IsBlock k) (hk' : c.IsBlock k') (h : c.segPath k = c.segPath k')
    (hne : k ≠ k') : c.inFile k + c.blockSize ≤ c.inFile k' ∨ c.inFile k' + c.blockSize ≤ c.inFile k := by
  obtain ⟨hn, hq⟩ := hk.segPath hk' h
  have hne' : (c.inFile k : ℤ) ≠ c.inFile k' := by
    rw [hk.inFile, hk'.inFile]
    intro hr
    refine hne ?_
    have ho : k.kOffset = k'.kOffset := by
      rw [← Int.mul_ediv_add_emod k.kOffset c.fileSize, ← Int.mul_ediv_add_emod k'.kOffset c.fileSize,
        hq, hr]
    cases k
    cases k'
    simp_all
  obtain ⟨m, hm⟩ := hk.dvd_inFile
  obtain ⟨m', hm'⟩ := hk'.dvd_inFile
  have hB := c.blockSize_pos
  rw [hm, hm'] at hne' ⊢
  rcases lt_or_gt_of_ne (show m ≠ m' from fun h => hne' (h ▸ rfl)) with h | h
  · left
    nlinarith
  · right
    nlinarith

end BlockCacheCtrl

namespace GFdCtrl

variable {c : FileCacheCtrl} {d d' d'' : GFdCtrl} {k : BlockCacheKey} {p q : SegPath} {i : ℕ}
  {bCreate : Bool} {fd : GFd}

/-- What a path leads to. -/
def inode (p : SegPath) (d : GFdCtrl) : Option ℕ :=
  match Lru.find GFd.fPath p d.fcCtrl with
  | some fd => some fd.ino
  | none => d.segDir p

structure Ok (d : GFdCtrl) : Prop where
  unique : Lru.Unique GFd.fPath d.fcCtrl
  dir : ∀ fd ∈ d.fcCtrl, ∀ i, d.segDir fd.fPath = some i → i = fd.ino
  inj : ∀ p q i, d.inode p = some i → d.inode q = some i → p = q
  fresh : ∀ p i, d.inode p = some i → i < d.nextIno

theorem inode_open (h : Lru.Unique GFd.fPath d.fcCtrl) (hfd : fd ∈ d.fcCtrl) :
    d.inode fd.fPath = some fd.ino := by
  unfold inode
  rw [h.find hfd]

theorem inode_closed (h : ∀ fd ∈ d.fcCtrl, fd.fPath ≠ p) : d.inode p = d.segDir p := by
  unfold inode
  rw [Lru.find_none.mpr h]

/-- A path that is in the directory leads there. -/
theorem Ok.segDir (h : d.Ok) (hp : d.segDir p = some i) : d.inode p = some i := by
  unfold inode
  cases hf : Lru.find GFd.fPath p d.fcCtrl with
  | none => exact hp
  | some fd =>
      obtain ⟨hm, hk⟩ := Lru.find_some hf
      rw [h.dir fd hm i (hk ▸ hp)]

theorem inode_cases (h : d.inode p = some i) :
    (∃ fd ∈ d.fcCtrl, fd.fPath = p ∧ fd.ino = i) ∨ d.segDir p = some i := by
  unfold inode at h
  cases hf : Lru.find GFd.fPath p d.fcCtrl with
  | none =>
      rw [hf] at h
      exact .inr h
  | some fd =>
      rw [hf] at h
      obtain ⟨hm, hk⟩ := Lru.find_some hf
      exact .inl ⟨fd, hm, hk, Option.some.inj h⟩

/-- Files are closed or removed. -/
theorem Ok.fewer (h : d.Ok) (hu : Lru.Unique GFd.fPath d'.fcCtrl)
    (hfd : ∀ fd ∈ d'.fcCtrl, fd ∈ d.fcCtrl)
    (hdir : ∀ p i, d'.segDir p = some i → d.segDir p = some i) (hn : d.nextIno ≤ d'.nextIno) :
    d'.Ok ∧ ∀ p i, d'.inode p = some i → d.inode p = some i := by
  have hsub (p i) (hp : d'.inode p = some i) : d.inode p = some i := by
    rcases inode_cases hp with ⟨fd, hm, rfl, rfl⟩ | hp
    · exact inode_open h.unique (hfd fd hm)
    · exact h.segDir (hdir p i hp)
  refine ⟨⟨hu, fun fd hm i hi => h.dir fd (hfd fd hm) i (hdir _ i hi), fun p q i hp hq =>
    h.inj p q i (hsub p i hp) (hsub q i hq), fun p i hp => ?_⟩, hsub⟩
  exact (h.fresh p i (hsub p i hp)).trans_le hn

/-! ### Files that are kept -/

/-- A path has the file it had, or an empty one. -/
structure Leads (d d' : GFdCtrl) : Prop where
  ok : d'.Ok
  inode : ∀ p i, d'.inode p = some i →
    d.inode p = some i ∧ d'.segFile i = d.segFile i ∨ d'.segFile i = .empty
  file : ∀ i, d'.segFile i = d.segFile i ∨ d'.segFile i = .empty

theorem Ok.leads (h : d.Ok) : d.Leads d := ⟨h, fun _ _ hp => .inl ⟨hp, rfl⟩, fun _ => .inl rfl⟩

theorem Leads.trans (h : d.Leads d') (h' : d'.Leads d'') : d.Leads d'' where
  ok := h'.ok
  inode p i hp := by
    rcases h'.inode p i hp with ⟨hp, hf⟩ | he
    · rw [hf]
      exact h.inode p i hp
    · exact .inr he
  file i := by
    rcases h'.file i with hf | he
    · rw [hf]
      exact h.file i
    · exact .inr he

theorem Ok.leads_fewer (h : d.Ok) (hu : Lru.Unique GFd.fPath d'.fcCtrl)
    (hfd : ∀ fd ∈ d'.fcCtrl, fd ∈ d.fcCtrl)
    (hdir : ∀ p i, d'.segDir p = some i → d.segDir p = some i) (hn : d.nextIno ≤ d'.nextIno)
    (hf : d'.segFile = d.segFile) : d.Leads d' := by
  obtain ⟨hok, hsub⟩ := h.fewer hu hfd hdir hn
  exact ⟨hok, fun p i hp => .inl ⟨hsub p i hp, by rw [hf]⟩, fun i => .inl (by rw [hf])⟩

/-- What is known of files has nothing to do with their segments. -/
theorem Ok.leads_meta (h : d.Ok) (hc : d'.fcCtrl = d.fcCtrl) (hd : d'.segDir = d.segDir)
    (hn : d.nextIno ≤ d'.nextIno) (hf : d'.segFile = d.segFile) : d.Leads d' :=
  h.leads_fewer (hc ▸ h.unique) (fun _ hm => hc ▸ hm) (fun _ _ hp => hd ▸ hp) hn hf

/-- An open file is put behind those that are open. -/
theorem inode_snoc (hd : d'.fcCtrl = d.fcCtrl ++ [fd])
    (hno : ∀ fd' ∈ d.fcCtrl, fd'.fPath ≠ fd.fPath) (hu : Lru.Unique GFd.fPath d.fcCtrl)
    (hdir : ∀ q, q ≠ fd.fPath → d'.segDir q = d.segDir q) (q : SegPath) :
    d'.inode q = if q = fd.fPath then some fd.ino else d.inode q := by
  have hu' : Lru.Unique GFd.fPath d'.fcCtrl := hd ▸ hu.snoc hno
  split
  · rename_i hq
    subst hq
    exact inode_open hu' (hd ▸ List.mem_append_right _ List.mem_cons_self)
  · rename_i hq
    cases hf : Lru.find GFd.fPath q d.fcCtrl with
    | some fd' =>
        obtain ⟨hm, rfl⟩ := Lru.find_some hf
        rw [inode_open hu' (hd ▸ List.mem_append_left _ hm), inode_open hu hm]
    | none =>
        have hnone := Lru.find_none.mp hf
        rw [inode_closed hnone, inode_closed, hdir q hq]
        intro fd' hm
        rw [hd] at hm
        rcases List.mem_append.mp hm with hm | hm
        · exact hnone fd' hm
        · rw [List.mem_singleton.mp hm]
          exact Ne.symm hq

/-- What `_FdSet` opens: what is in the directory, or a new file. -/
theorem fdSet_cases (hs : d.fdSet c k bCreate = some (fd, d')) :
    fd.fPath = c.segPath k ∧ d'.fcCtrl = d.fcCtrl ++ [fd] ∧
      (d.segDir fd.fPath = some fd.ino ∧ d'.segDir = d.segDir ∧ d'.segFile = d.segFile ∧
          d'.nextIno = d.nextIno ∨
        d.segDir fd.fPath = none ∧ fd.ino = d.nextIno ∧
          d'.segDir = Function.update d.segDir fd.fPath (some fd.ino) ∧
          d'.segFile = Function.update d.segFile fd.ino .empty ∧ d'.nextIno = d.nextIno + 1) := by
  unfold GFdCtrl.fdSet at hs
  dsimp only at hs
  split at hs
  · rename_i hino
    obtain ⟨rfl, rfl⟩ := Prod.mk.inj (Option.some.inj hs)
    exact ⟨rfl, rfl, .inl ⟨hino, rfl, rfl, rfl⟩⟩
  · rename_i hnone
    split at hs
    · obtain ⟨rfl, rfl⟩ := Prod.mk.inj (Option.some.inj hs)
      exact ⟨rfl, rfl, .inr ⟨hnone, rfl, rfl, rfl, rfl⟩⟩
    · cases hs

theorem fdSet_none (hs : d.fdSet c k bCreate = none) : d.segDir (c.segPath k) = none := by
  unfold GFdCtrl.fdSet at hs
  dsimp only at hs
  split at hs
  · cases hs
  · assumption

/-- `_FdSet` of a path that is not open. -/
theorem Ok.fdSet (h : d.Ok) (hno : ∀ fd ∈ d.fcCtrl, fd.fPath ≠ c.segPath k)
    (hs : d.fdSet c k bCreate = some (fd, d')) :
    d.Leads d' ∧ d'.inode (c.segPath k) = some fd.ino := by
  obtain ⟨hp, hfc, hs⟩ := fdSet_cases hs
  rw [← hp] at hno ⊢
  have hdir (q : SegPath) (hq : q ≠ fd.fPath) : d'.segDir q = d.segDir q := by
    rcases hs with ⟨-, hs, -⟩ | ⟨-, -, hs, -⟩
    · rw [hs]
    · rw [hs, Function.update_of_ne hq]
  have hown (i : ℕ) (hi : d'.segDir fd.fPath = some i) : i = fd.ino := by
    rcases hs with ⟨hs, hs', -⟩ | ⟨-, -, hs, -⟩
    · rw [hs', hs] at hi
      exact (Option.some.inj hi).symm
    · rw [hs, Function.update_self] at hi
      exact (Option.some.inj hi).symm
  have hino := inode_snoc hfc hno h.unique hdir
  have hself : d'.inode fd.fPath = some fd.ino := by rw [hino, if_pos rfl]
  -- a path that leads elsewhere led there before
  have hold (q : SegPath) (i : ℕ) (hq : d'.inode q = some i) (hne : i ≠ fd.ino) :
      d.inode q = some i ∧ q ≠ fd.fPath := by
    rw [hino] at hq
    split at hq
    · exact absurd (Option.some.inj hq).symm hne
    · rename_i hqp
      exact ⟨hq, hqp⟩
  have hto (q : SegPath) (hq : d'.inode q = some fd.ino) : q = fd.fPath := by
    rw [hino] at hq
    split at hq
    · assumption
    · rcases hs with ⟨hs, -⟩ | ⟨-, hs, -⟩
      · exact h.inj _ _ _ hq (h.segDir hs)
      · exact absurd (h.fresh q _ hq) (by omega)
  have hfile (i : ℕ) : d'.segFile i = d.segFile i ∨ i = fd.ino ∧ d'.segFile i = .empty := by
    rcases hs with ⟨-, -, hs, -⟩ | ⟨-, -, -, hs, -⟩
    · exact .inl (by rw [hs])
    · by_cases hi : i = fd.ino
      · exact .inr ⟨hi, by rw [hs, hi, Function.update_self]⟩
      · exact .inl (by rw [hs, Function.update_of_ne hi])
  refine ⟨⟨⟨hfc ▸ h.unique.snoc hno, ?_, ?_, ?_⟩, ?_, fun i => (hfile i).imp_right And.right⟩, hself⟩
  · intro fd' hm i hi
    rw [hfc] at hm
    rcases List.mem_append.mp hm with hm | hm
    · exact h.dir fd' hm i (hdir _ (hno fd' hm) ▸ hi)
    · rw [List.mem_singleton.mp hm] at hi ⊢
      exact hown i hi
  · intro p q i hp hq
    by_cases hi : i = fd.ino
    · subst hi
      rw [hto p hp, hto q hq]
    · exact h.inj p q i (hold p i hp hi).1 (hold q i hq hi).1
  · intro p i hp
    by_cases hi : i = fd.ino
    · rcases hs with ⟨hs, -, -, hn⟩ | ⟨-, hs, -, -, hn⟩
      · rw [hi, hn]
        exact h.fresh _ _ (h.segDir hs)
      · omega
    · have := h.fresh p i (hold p i hp hi).1
      rcases hs with ⟨-, -, -, hn⟩ | ⟨-, -, -, -, hn⟩
      · omega
      · omega
  · intro p i hp
    by_cases hi : i = fd.ino
    · subst hi
      rcases hs with ⟨hs, -, hf, -⟩ | ⟨-, -, -, hf, -⟩
      · rw [hto p hp, hf]
        exact .inl ⟨h.segDir hs, rfl⟩
      · right
        rw [hf, Function.update_self]
    · rcases hfile i with hf | ⟨hf, -⟩
      · exact .inl ⟨(hold p i hp hi).1, hf⟩
      · exact absurd hf hi

theorem Ok.fdRoom (h : d.Ok) (hno : ∀ fd ∈ d.fcCtrl, fd.fPath ≠ p) :
    d.Leads (d.fdRoom c) ∧ ∀ fd ∈ (d.fdRoom c).fcCtrl, fd.fPath ≠ p := by
  unfold GFdCtrl.fdRoom
  split
  · exact ⟨h.leads, hno⟩
  · exact ⟨h.leads_fewer (h.unique.sublist ((List.tail_sublist _).map _))
      (fun _ hm => List.mem_of_mem_tail hm) (fun _ _ hp => hp) le_rfl rfl,
      fun fd hm => hno fd (List.mem_of_mem_tail hm)⟩

/-- What `GFdCacheGet` gets is what the path leads to. -/
theorem Ok.gFdCacheGet (h : d.Ok) (k : BlockCacheKey) (bCreate : Bool) :
    d.Leads (d.gFdCacheGet c k bCreate).2 ∧
      (d.gFdCacheGet c k bCreate).2.inode (c.segPath k) =
        (d.gFdCacheGet c k bCreate).1.map GFd.ino := by
  unfold GFdCtrl.gFdCacheGet
  split
  · rename_i fd hf
    obtain ⟨hm, hk⟩ := Lru.find_some hf
    have hu : Lru.Unique GFd.fPath (Lru.use GFd.fPath fd d.fcCtrl) := h.unique.use
    refine ⟨h.leads_fewer hu ?_ (fun _ _ hp => hp) le_rfl rfl, ?_⟩
    · intro fd' hm'
      rcases Lru.mem_use.mp hm' with ⟨hm', -⟩ | rfl
      · exact hm'
      · exact hm
    · rw [← hk]
      exact inode_open hu (Lru.mem_use.mpr (.inr rfl))
  · rename_i hnone
    obtain ⟨hle, hno⟩ := h.fdRoom (c := c) (Lru.find_none.mp hnone)
    split
    · rename_i fd d' hs
      obtain ⟨hle', hin⟩ := hle.ok.fdSet hno hs
      exact ⟨hle.trans hle', hin⟩
    · rename_i hs
      exact ⟨hle, (inode_closed hno).trans (fdSet_none hs)⟩

/-- A file that may be made is got. -/
theorem gFdCacheGet_some (d : GFdCtrl) : ∃ fd, (d.gFdCacheGet c k true).1 = some fd := by
  unfold GFdCtrl.gFdCacheGet
  split
  · exact ⟨_, rfl⟩
  · split
    · exact ⟨_, rfl⟩
    · rename_i hs
      unfold GFdCtrl.fdSet at hs
      dsimp only at hs
      split at hs
      · cases hs
      · cases hs

/-! ### What else changes the files -/

section
variable {name : String} {off size : ℤ} {m : GFdMeta}

theorem Ok.gFdCacheTruncate (h : d.Ok) (name : String) (off : ℤ) :
    d.Leads (d.gFdCacheTruncate name off) :=
  h.leads_fewer (h.unique.filter _) (fun _ hm => List.mem_of_mem_filter hm) (fun _ _ hp => hp) le_rfl
    rfl

theorem Ok.gFdCacheDelete (h : d.Ok) (name : String) : d.Leads (d.gFdCacheDelete name) :=
  h.leads_fewer (h.unique.filter _) (fun _ hm => List.mem_of_mem_filter hm) (fun _ _ hp => hp) le_rfl
    rfl

theorem Ok.gFdMetaTruncate (h : d.Ok) (c : FileCacheCtrl) (name : String) (off : ℤ) :
    d.Leads (d.gFdMetaTruncate c name off) := by
  refine h.leads_fewer h.unique (fun _ hm => hm) ?_ le_rfl rfl
  intro p i hp
  exact (Option.ite_none_left_eq_some.mp hp).2

theorem Ok.gFdMetaDelete (h : d.Ok) (name : String) : d.Leads (d.gFdMetaDelete name) := by
  refine h.leads_fewer h.unique (fun _ hm => hm) ?_ le_rfl rfl
  intro p i hp
  exact (Option.ite_none_left_eq_some.mp hp).2

theorem Ok.fdMetaFlush (h : d.Ok) (m : GFdMeta) : d.Leads (d.fdMetaFlush m) := h.leads_meta rfl rfl le_rfl rfl

theorem Ok.setSize (h : d.Ok) : d.Leads (d.setSize name size) := h.leads_meta rfl rfl le_rfl rfl

theorem Ok.fdMetaSet {stale : ℤ} (h : d.Ok) (hs : d.fdMetaSet name stale bCreate = some (m, d')) :
    d.Leads d' := by
  unfold GFdCtrl.fdMetaSet at hs
  split at hs
  · obtain ⟨-, rfl⟩ := Prod.mk.inj (Option.some.inj hs)
    exact h.leads_meta rfl rfl le_rfl rfl
  · split at hs
    · obtain ⟨-, rfl⟩ := Prod.mk.inj (Option.some.inj hs)
      exact h.leads_meta rfl rfl (Nat.le_succ _) rfl
    · cases hs

theorem Ok.metaRoom (h : d.Ok) : d.Leads (d.metaRoom c bCreate).2 := by
  unfold GFdCtrl.metaRoom
  split
  · exact h.leads
  · split
    · exact h.leads
    · split
      · exact h.leads_meta rfl rfl le_rfl rfl
      · exact h.leads_meta rfl rfl le_rfl rfl

theorem Ok.gFdMetaGet (h : d.Ok) (c : FileCacheCtrl) (name : String) (bCreate : Bool) :
    d.Leads (d.gFdMetaGet c name bCreate).2 := by
  unfold GFdCtrl.gFdMetaGet
  split
  · exact h.leads_meta rfl rfl le_rfl rfl
  · dsimp only
    split
    · rename_i hs
      exact h.metaRoom.trans (h.metaRoom.ok.fdMetaSet hs)
    · exact h.metaRoom

theorem Ok.foldl {f : GFdCtrl → GFdMeta → GFdCtrl} (hf : ∀ (d : GFdCtrl) m, d.Ok → d.Leads (f d m))
    (h : d.Ok) (ms : List GFdMeta) : d.Leads (ms.foldl f d) := by
  induction ms generalizing d with
  | nil => exact h.leads
  | cons m ms ih =>
      have hm := hf d m h
      exact hm.trans (ih hm.ok)

theorem Ok.gFdMetaFlush (h : d.Ok) : d.Leads (d.gFdMetaFlush name) := by
  refine Ok.foldl ?_ h _
  intro d m h
  split
  · exact h.fdMetaFlush m
  · exact h.leads

theorem Ok.gFdMetaPurge (h : d.Ok) : d.Leads (d.gFdMetaPurge name) :=
  h.gFdMetaFlush.trans (h.gFdMetaFlush.ok.leads_meta rfl rfl le_rfl rfl)

end

end GFdCtrl

end PaxosSolutions
