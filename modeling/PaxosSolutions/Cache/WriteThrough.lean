import PaxosSolutions.Cache.BlockRange

/-!
# Coherence of the block cache

A block under a delegation is that of the backing store. Within a request some
blocks are pending: their delegation is new, and they are filled or written
over as a whole before the request is done. A write that begins with a block
and ends within the same one asks for nothing, so it is only safe on a block
that is cached.
-/
namespace PaxosSolutions
open Lib NWGadget

/-! ### The caches -/

/-- The block `k` in the backing store -/
def storeBlock {N : Type} (bc : BCtrl) (store : N → ℕ → UInt8) (k : N × ℕ) (j : ℕ) : UInt8 :=
  store k.1 (k.2 * bc.bcBlockSize + j)

/-- The request is for a whole block. -/
def BCReq.Whole {N : Type} (bc : BCtrl) (rq : BCReq N) : Prop :=
  rq.rqOffset = rq.rqBlock.2 * bc.bcBlockSize ∧ rq.rqSize = bc.bcBlockSize

namespace BCSys
variable {C N : Type} [DecidableEq C] [DecidableEq N] {bc : BCtrl} {s t : BCSys C N} {c d : C}
  {k l : N × ℕ} {P Q : N × ℕ → Prop} {b : CBlock}

@[simp] theorem setBlock_self : (s.setBlock c k b).block c k = b := by simp [setBlock]

theorem setBlock_of_ne (h : ¬ (d = c ∧ l = k)) : (s.setBlock c k b).block d l = s.block d l := by
  unfold setBlock
  by_cases hd : d = c
  · subst hd
    have hl : l ≠ k := fun hl => h ⟨rfl, hl⟩
    simp [hl]
  · simp [hd]

/-- All blocks are in order but the pending ones `P` of the client `c`, and a
write delegation is the only one of its block. -/
structure Fits (bc : BCtrl) (c : C) (P : N × ℕ → Prop) (s : BCSys C N) : Prop where
  ok : ∀ d k, ¬ (d = c ∧ P k) → (s.block d k).Ok bc (storeBlock bc s.store k)
  pending : ∀ k, P k → (s.block c k).dOwn ≠ .none ∧ (s.block c k).cksumed = false
  alone : ∀ d e k, d ≠ e → (s.block d k).dOwn = .w → (s.block e k).dOwn = .none

omit [DecidableEq C] [DecidableEq N] in
theorem Fits.congr (hs : s.Fits bc c P) (h : ∀ k, Q k ↔ P k) : s.Fits bc c Q where
  ok d k hn := hs.ok d k (by rwa [← h])
  pending k hk := hs.pending k ((h k).mp hk)
  alone := hs.alone

/-- A block of `c` is exchanged for one with the same delegation. -/
theorem Fits.setBlock (hs : s.Fits bc c P) (ho : b.dOwn = (s.block c k).dOwn)
    (hb : ¬ Q k → b.Ok bc (storeBlock bc s.store k))
    (hp : Q k → b.dOwn ≠ .none ∧ b.cksumed = false) (h : ∀ l, l ≠ k → (Q l ↔ P l)) :
    (s.setBlock c k b).Fits bc c Q := by
  have hown (d : C) (l : N × ℕ) : ((s.setBlock c k b).block d l).dOwn = (s.block d l).dOwn := by
    by_cases hdl : d = c ∧ l = k
    · rw [hdl.1, hdl.2, setBlock_self, ho]
    · rw [setBlock_of_ne hdl]
  constructor
  · intro d l hn
    by_cases hdl : d = c ∧ l = k
    · obtain ⟨rfl, rfl⟩ := hdl
      rw [setBlock_self]
      exact hb fun hq => hn ⟨rfl, hq⟩
    · rw [setBlock_of_ne hdl]
      apply hs.ok d l
      rintro ⟨rfl, hl⟩
      have hlk : l ≠ k := fun hlk => hdl ⟨rfl, hlk⟩
      exact hn ⟨rfl, (h l hlk).mpr hl⟩
  · intro l hl
    by_cases hlk : l = k
    · subst hlk
      rw [setBlock_self]
      exact hp hl
    · rw [setBlock_of_ne fun h => hlk h.2]
      exact hs.pending l ((h l hlk).mp hl)
  · intro d e l hde hw
    rw [hown] at hw ⊢
    exact hs.alone d e l hde hw

/-- `c` gets the block `k` as `own`, and those who are in the way lose it. The
block is pending unless `c` had it. -/
theorem Fits.take (p : C → DlgOwn → Bool) (own : DlgOwn) (k : N × ℕ) (hs : s.Fits bc c P)
    (hc : ∀ o, p c o = false) (hown : own ≠ .none)
    (hp : ∀ d, d ≠ c → (s.block d k).dOwn = .none ∨ p d (s.block d k).dOwn = true ∨
      own = .r ∧ (s.block d k).dOwn = .r) :
    ((s.recallAll p k).setBlock c k (((s.recallAll p k).block c k).bcInit own)).Fits bc c
      fun l => P l ∨ l = k ∧ (s.block c k).dOwn = .none := by
  have hself : (s.recallAll p k).block c k = s.block c k := by simp [recallAll, hc]
  have hother (d : C) (hd : d ≠ c) :
      ((s.recallAll p k).setBlock c k (((s.recallAll p k).block c k).bcInit own)).block d k =
        if p d (s.block d k).dOwn then (s.block d k).bcTerm else s.block d k := by
    rw [setBlock_of_ne fun h => hd h.1]
    simp [recallAll]
  have hrest (d : C) (l : N × ℕ) (hl : l ≠ k) :
      ((s.recallAll p k).setBlock c k (((s.recallAll p k).block c k).bcInit own)).block d l =
        s.block d l := by
    rw [setBlock_of_ne fun h => hl h.2]
    simp [recallAll, hl]
  constructor
  · intro d l hn
    by_cases hl : l = k
    · subst hl
      by_cases hd : d = c
      · subst hd
        rw [setBlock_self, hself]
        have hnone : (s.block d l).dOwn ≠ .none := fun h => hn ⟨rfl, .inr ⟨rfl, h⟩⟩
        have hok := hs.ok d l fun h => hn ⟨rfl, .inl h.2⟩
        refine ⟨fun _ => hok.same hnone, fun _ => rfl, ?_⟩
        intro _ h
        cases h
      · rw [hother d hd]
        split
        · exact CBlock.ok_bcTerm
        · exact hs.ok d l fun h => hd h.1
    · rw [hrest d l hl]
      exact hs.ok d l fun h => hn ⟨h.1, .inl h.2⟩
  · intro l hl
    by_cases hlk : l = k
    · subst hlk
      rw [setBlock_self]
      exact ⟨hown, rfl⟩
    · rw [hrest c l hlk]
      exact hs.pending l (hl.resolve_right fun h => hlk h.1)
  · intro d e l hde hw
    by_cases hl : l = k
    · subst hl
      by_cases hd : d = c
      · subst hd
        rw [setBlock_self] at hw
        have hw : own = .w := hw
        rw [hother e (Ne.symm hde)]
        rcases hp e (Ne.symm hde) with h | h | ⟨h, -⟩
        · split
          · rfl
          · exact h
        · rw [if_pos h]
          rfl
        · rw [hw] at h
          cases h
      · rw [hother d hd] at hw
        rcases hp d hd with h | h | ⟨-, h⟩
        · split at hw
          · cases hw
          · rw [h] at hw
            cases hw
        · rw [if_pos h] at hw
          cases hw
        · split at hw
          · cases hw
          · rw [h] at hw
            cases hw
    · rw [hrest d l hl] at hw
      rw [hrest e l hl]
      exact hs.alone d e l hde hw

theorem Fits.fill {rq : BCReq N} (hs : s.Fits bc c P) (hrq : rq.Whole bc)
    (ho : (s.block c rq.rqBlock).dOwn ≠ .none) :
    (s.fill c rq).Fits bc c fun l => P l ∧ l ≠ rq.rqBlock := by
  apply hs.setBlock
  · rfl
  · intro _
    have hsame : ∀ j < bc.bcBlockSize,
        ((s.block c rq.rqBlock).copyIn 0 rq.rqSize fun j =>
          s.store rq.rqBlock.1 (rq.rqOffset + j)).bPBuf j = storeBlock bc s.store rq.rqBlock j := by
      intro j hj
      simp [CBlock.copyIn, hrq.1, hrq.2, hj, storeBlock]
    refine ⟨fun _ => hsame, fun h => absurd h ho, ?_⟩
    by_cases hP : P rq.rqBlock
    · intro _ h
      have h : (s.block c rq.rqBlock).cksumed = true := h
      rw [(hs.pending _ hP).2] at h
      cases h
    · intro hon h hne
      have hok := hs.ok c rq.rqBlock fun h => hP h.2
      rw [CBlock.bytes_congr (b := s.block c rq.rqBlock) fun j _ hj =>
        (hsame j (by omega)).trans (hok.same ho j (by omega)).symm]
      exact hok.sum hon h hne
  · rintro ⟨-, h⟩
    exact absurd rfl h
  · intro l hl
    exact ⟨fun h => h.1, fun h => ⟨h, hl⟩⟩

/-- A block that is locked for reading is pending if it was not cached. -/
theorem Fits.lockR (hs : s.Fits bc c P) (ho : (s.block c k).dOwn = .none) :
    ∃ t, s.lockR c k = (true, t) ∧ t.Fits bc c (fun l => P l ∨ l = k) ∧ t.store = s.store ∧
      (t.block c k).active = false ∧
      ∀ l, (s.block c l).dOwn ≠ .none → (t.block c l).dOwn ≠ .none := by
  refine ⟨_, if_neg (by simpa using ho), ?_, rfl, by simp [CBlock.bcInit], ?_⟩
  · have htake := hs.take (fun d own => d ≠ c ∧ own = .w) .r k (by simp) (by simp) (by
        intro d hd
        cases hown : (s.block d k).dOwn with
        | none => exact .inl rfl
        | r => exact .inr (.inr ⟨rfl, rfl⟩)
        | w => exact .inr (.inl (by simpa using hd)))
    apply htake.congr
    intro l
    simp [ho]
  · intro l hl
    by_cases hlk : l = k
    · rw [hlk, setBlock_self]
      simp [CBlock.bcInit]
    · rw [setBlock_of_ne fun h => hlk h.2]
      simpa [recallAll] using hl

/-- A block that is locked for writing is pending if it was not cached. -/
theorem Fits.lockW (hs : s.Fits bc c P) :
    (s.lockW c k).Fits bc c (fun l => P l ∨ l = k ∧ (s.block c k).dOwn = .none) ∧
      (s.lockW c k).store = s.store ∧ ((s.lockW c k).block c k).dOwn = .w ∧
      ∀ l, l ≠ k → ((s.lockW c k).block c l).dOwn = (s.block c l).dOwn := by
  unfold BCSys.lockW
  split
  · rename_i ho
    refine ⟨hs.congr ?_, rfl, ho, fun _ _ => rfl⟩
    intro l
    simp [ho]
  · refine ⟨?_, rfl, by simp [CBlock.bcInit], ?_⟩
    · apply hs.take _ _ _ (by simp) (by simp)
      intro d hd
      cases hown : (s.block d k).dOwn with
      | none => exact .inl rfl
      | r => exact .inr (.inl (by simpa using hd))
      | w => exact .inr (.inl (by simpa using hd))
    · intro l hl
      rw [setBlock_of_ne fun h => hl h.2]
      simp [recallAll]

omit [DecidableEq C] in
theorem writeStore_congr {name : N} {offset size : ℕ} {pData : ℕ → UInt8}
    (h : s.store = t.store) :
    (s.writeStore name offset size pData).store = (t.writeStore name offset size pData).store := by
  unfold writeStore
  rw [h]

@[simp] theorem fill_store (rq : BCReq N) : (s.fill c rq).store = s.store := rfl

@[simp] theorem setBlock_store : (s.setBlock c k b).store = s.store := rfl

theorem fill_dOwn (rq : BCReq N) (d : C) (l : N × ℕ) :
    ((s.fill c rq).block d l).dOwn = (s.block d l).dOwn := by
  unfold fill
  by_cases h : d = c ∧ l = rq.rqBlock
  · obtain ⟨rfl, rfl⟩ := h
    rw [setBlock_self]
    rfl
  · rw [setBlock_of_ne h]

/-- The block requests are filled: what they ask for is pending no more. -/
theorem Fits.fillAll {reqs : List (BCReq N)} (hs : s.Fits bc c P) (hrq : ∀ rq ∈ reqs, rq.Whole bc)
    (ho : ∀ rq ∈ reqs, (s.block c rq.rqBlock).dOwn ≠ .none) :
    (reqs.foldl (BCSys.fill c) s).Fits bc c (fun l => P l ∧ ∀ rq ∈ reqs, l ≠ rq.rqBlock) ∧
      (reqs.foldl (BCSys.fill c) s).store = s.store ∧
      ∀ d l, ((reqs.foldl (BCSys.fill c) s).block d l).dOwn = (s.block d l).dOwn := by
  induction reqs generalizing s P with
  | nil =>
      refine ⟨hs.congr ?_, rfl, fun _ _ => rfl⟩
      simp
  | cons rq reqs ih =>
      have hfill := hs.fill (hrq rq List.mem_cons_self) (ho rq List.mem_cons_self)
      obtain ⟨hfits, hstore, hown⟩ := ih hfill (fun r hr => hrq r (List.mem_cons_of_mem _ hr))
        (fun r hr => by
          rw [fill_dOwn]
          exact ho r (List.mem_cons_of_mem _ hr))
      rw [List.foldl_cons]
      refine ⟨hfits.congr ?_, hstore, fun d l => by rw [hown, fill_dOwn]⟩
      intro l
      simp [and_assoc]

end BCSys

section
variable {C N : Type} [DecidableEq C] [DecidableEq N] {bc : BCtrl} {s t : BCSys C N} {c : C}
  {name : N} {offset size now : ℕ} {P : N × ℕ → Prop} {is : List ℕ}

/-- `BCReadIO` asks for the blocks that were not cached. -/
theorem readIo_fits (name : N) (is : List ℕ) (hs : s.Fits bc c P) : ∃ reqs t,
    bcReadIo bc c name is s = .ok (reqs, t) ∧
    t.Fits bc c (fun l => P l ∨ ∃ rq ∈ reqs, l = rq.rqBlock) ∧ t.store = s.store ∧
      (∀ rq ∈ reqs, rq.Whole bc ∧ (t.block c rq.rqBlock).dOwn ≠ .none) ∧
      (∀ i ∈ is, (t.block c (name, i)).dOwn ≠ .none) ∧
      ∀ l, (s.block c l).dOwn ≠ .none → (t.block c l).dOwn ≠ .none := by
  induction is generalizing s P with
  | nil =>
      refine ⟨[], s, rfl, hs.congr ?_, rfl, by simp, by simp, fun _ h => h⟩
      simp
  | cons i is ih =>
      unfold bcReadIo
      by_cases ho : (s.block c (name, i)).dOwn = .none
      · obtain ⟨u, hlock, hu, hstore, hactive, hkeep⟩ := hs.lockR ho
        have hset : (u.setBlock c (name, i) (u.block c (name, i)).asked).Fits bc c
            fun l => P l ∨ l = (name, i) := by
          apply hu.setBlock
          · rfl
          · exact fun h => absurd (.inr rfl) h
          · exact fun _ => hu.pending _ (.inr rfl)
          · exact fun l _ => Iff.rfl
        obtain ⟨reqs, t, hrun, hfits, hstore', hreqs, hown, hkeep'⟩ := ih hset
        have hthis := hset.pending (name, i) (.inr rfl)
        refine ⟨⟨i * bc.bcBlockSize, bc.bcBlockSize, (name, i)⟩ :: reqs, t, ?_, hfits.congr ?_,
          hstore'.trans hstore, ?_, ?_, ?_⟩
        · simp only [hlock, Bool.true_eq_false, if_false, hactive, Bool.false_eq_true]
          rw [hrun]
          rfl
        · intro l
          simp [or_assoc]
        · intro rq hrq
          rcases List.mem_cons.mp hrq with rfl | hrq
          · exact ⟨⟨rfl, rfl⟩, hkeep' _ hthis.1⟩
          · exact hreqs rq hrq
        · intro j hj
          rcases List.mem_cons.mp hj with rfl | hj
          · exact hkeep' _ hthis.1
          · exact hown j hj
        · intro l hl
          apply hkeep'
          by_cases hlk : l = (name, i)
          · rw [hlk]
            exact hthis.1
          · rw [BCSys.setBlock_of_ne fun h => hlk h.2]
            exact hkeep l hl
      · have hlock : s.lockR c (name, i) = (false, s) := if_pos ho
        obtain ⟨reqs, t, hrun, hfits, hstore, hreqs, hown, hkeep⟩ := ih hs
        refine ⟨reqs, t, ?_, hfits, hstore, hreqs, ?_, hkeep⟩
        · simp [hlock, hrun]
        · intro j hj
          rcases List.mem_cons.mp hj with rfl | hj
          · exact hkeep _ ho
          · exact hown j hj

/-- What `BCReadDone` copies of blocks that are in order is in the backing store. -/
theorem readDone_fits (name : N) (offset size now : ℕ) (is : List ℕ) (hs : s.Fits bc c P)
    (hP : ∀ l, ¬ P l)
    (ho : ∀ i ∈ is, (s.block c (name, i)).dOwn ≠ .none)
    (hr : ∀ i ∈ is, bcOff bc.bcBlockSize offset i < bc.bcBlockSize ∧
      0 < bcLen bc.bcBlockSize offset size i ∧
      bcOff bc.bcBlockSize offset i + bcLen bc.bcBlockSize offset size i ≤ bc.bcBlockSize) :
    ∃ t, bcReadDone bc c name offset size now is s =
        .ok (is.flatMap fun i => (List.range (bcLen bc.bcBlockSize offset size i)).map fun j =>
          s.store name (i * bc.bcBlockSize + bcOff bc.bcBlockSize offset i + j), t) ∧
      t.Fits bc c P ∧ t.store = s.store := by
  induction is generalizing s with
  | nil => exact ⟨s, rfl, hs, rfl⟩
  | cons i is ih =>
      obtain ⟨hoff, hpos, hle⟩ := hr i List.mem_cons_self
      have hown := ho i List.mem_cons_self
      have hok := hs.ok c (name, i) fun h => hP _ h.2
      obtain ⟨b, hcheck, hb, hbown, hbuf⟩ := hok.check now hown
      have hset : (s.setBlock c (name, i) b).Fits bc c P := by
        apply hs.setBlock hbown (fun _ => hb) (fun h => absurd h (hP _))
        exact fun l _ => Iff.rfl
      have hown' : ∀ j ∈ is, ((s.setBlock c (name, i) b).block c (name, j)).dOwn ≠ .none := by
        intro j hj
        by_cases hij : j = i
        · rw [hij, BCSys.setBlock_self, hbown]
          exact hown
        · rw [BCSys.setBlock_of_ne (by simp [hij])]
          exact ho j (List.mem_cons_of_mem _ hj)
      obtain ⟨t, hrun, hfits, hstore⟩ := ih hset hown' fun j hj => hr j (List.mem_cons_of_mem _ hj)
      refine ⟨t, ?_, hfits, hstore⟩
      have hbytes : b.bytes (bcOff bc.bcBlockSize offset i) (bcLen bc.bcBlockSize offset size i) =
          (List.range (bcLen bc.bcBlockSize offset size i)).map fun j =>
            s.store name (i * bc.bcBlockSize + bcOff bc.bcBlockSize offset i + j) := by
        apply List.map_congr_left
        intro j hj
        rw [List.mem_range] at hj
        rw [hb.same (by rwa [hbown]) _ (by omega)]
        simp [storeBlock, Nat.add_assoc]
      have hrange : bcOff bc.bcBlockSize offset i < bc.bcBlockSize ∧
          0 < bcLen bc.bcBlockSize offset size i ∧
          bcLen bc.bcBlockSize offset size i ≤ bc.bcBlockSize := ⟨hoff, hpos, by omega⟩
      unfold bcReadDone
      rw [hcheck, List.flatMap_cons, ← hbytes]
      simp only [bind, Except.bind]
      rw [if_neg (by simpa using hrange)]
      rw [BCSys.setBlock_store] at hrun
      rw [hrun]

/-- A read returns the range of the backing store. -/
theorem read_fits (name : N) (offset now : ℕ) (hs : s.Fits bc c fun _ => False)
    (hbs : 0 < bc.bcBlockSize) (hsize : 0 < size) :
    ∃ t, bcRead bc c name offset size now s =
        .ok ((List.range size).map fun j => s.store name (offset + j), t) ∧
      t.Fits bc c (fun _ => False) ∧ t.store = s.store := by
  obtain ⟨reqs, u, hio, hu, hstore, hreqs, hown, -⟩ :=
    readIo_fits name (bcBlocks bc.bcBlockSize offset size) hs
  obtain ⟨hfits, hstore', hown'⟩ :=
    hu.fillAll (fun rq h => (hreqs rq h).1) (fun rq h => (hreqs rq h).2)
  have hnone : (reqs.foldl (BCSys.fill c) u).Fits bc c fun _ => False := by
    apply hfits.congr
    intro l
    simp only [false_or, false_iff]
    rintro ⟨⟨rq, hrq, hl⟩, hne⟩
    exact hne rq hrq hl
  obtain ⟨t, hdone, ht, hstore''⟩ := readDone_fits name offset size now
    (bcBlocks bc.bcBlockSize offset size) hnone (fun _ h => h)
    (fun i hi => by
      rw [hown']
      exact hown i hi)
    (fun i hi => by
      obtain ⟨hS, hE⟩ := (mem_bcBlocks hsize).mp hi
      exact bcRange_ok hS hE hsize hbs)
  refine ⟨t, ?_, ht, hstore''.trans (hstore'.trans hstore)⟩
  rw [hstore', hstore, flatMap_bcBlocks (s.store name) hbs hsize] at hdone
  unfold bcRead
  simp only [hio, bind, Except.bind]
  exact hdone

/-- The first turn of the loop of `BCWriteIO` -/
theorem writeIo_cons (name : N) (offset size i : ℕ) (is : List ℕ) (hs : s.Fits bc c P) :
    ∃ u : BCSys C N, u.Fits bc c (fun l => P l ∨ l = (name, i) ∧ (s.block c (name, i)).dOwn = .none) ∧
      u.store = s.store ∧ (u.block c (name, i)).dOwn = .w ∧
      (∀ l, l ≠ (name, i) → (u.block c l).dOwn = (s.block c l).dOwn) ∧
      (bcWriteIo bc c name offset size (i :: is) s).2 = (bcWriteIo bc c name offset size is u).2 ∧
      (bcWriteIo bc c name offset size (i :: is) s).1 =
        (if bcBothEnds bc.bcBlockSize offset size i then
          [⟨i * bc.bcBlockSize, bc.bcBlockSize, (name, i)⟩] else []) ++
            (bcWriteIo bc c name offset size is u).1 := by
  obtain ⟨hlock, hstore, hown, hother⟩ := hs.lockW (k := (name, i))
  by_cases hends : bcBothEnds bc.bcBlockSize offset size i = true
  · refine ⟨(s.lockW c (name, i)).setBlock c (name, i)
      ((s.lockW c (name, i)).block c (name, i)).asked, ?_, hstore, ?_, ?_, ?_, ?_⟩
    · apply hlock.setBlock
      · rfl
      · intro hn
        have hok := hlock.ok c (name, i) fun h => hn h.2
        refine ⟨hok.same, hok.idle, ?_⟩
        exact hok.sum
      · exact hlock.pending (name, i)
      · exact fun _ _ => Iff.rfl
    · rw [BCSys.setBlock_self]
      exact hown
    · intro l hl
      rw [BCSys.setBlock_of_ne fun h => hl h.2]
      exact hother l hl
    · simp [bcWriteIo, hends]
    · simp [bcWriteIo, hends]
  · refine ⟨s.lockW c (name, i), hlock, hstore, hown, hother, ?_, ?_⟩
    · simp [bcWriteIo, hends]
    · simp [bcWriteIo, hends]

/-- `BCWriteIO` has a write delegation on every block, and asks for the ends. -/
theorem writeIo_fits (name : N) (offset size : ℕ) (hs : s.Fits bc c P) (hnd : is.Nodup) :
    (bcWriteIo bc c name offset size is s).2.Fits bc c
        (fun l => P l ∨ ∃ i ∈ is, l = (name, i) ∧ (s.block c l).dOwn = .none) ∧
      (bcWriteIo bc c name offset size is s).2.store = s.store ∧
      (∀ i ∈ is, ((bcWriteIo bc c name offset size is s).2.block c (name, i)).dOwn = .w) ∧
      (∀ l, (∀ i ∈ is, l ≠ (name, i)) →
        ((bcWriteIo bc c name offset size is s).2.block c l).dOwn = (s.block c l).dOwn) ∧
      (∀ rq ∈ (bcWriteIo bc c name offset size is s).1, rq.Whole bc ∧
        ∃ i ∈ is, rq.rqBlock = (name, i)) ∧
      ∀ i ∈ is, bcBothEnds bc.bcBlockSize offset size i = true →
        ∃ rq ∈ (bcWriteIo bc c name offset size is s).1, rq.rqBlock = (name, i) := by
  induction is generalizing s P with
  | nil =>
      refine ⟨hs.congr ?_, rfl, by simp, fun _ _ => rfl, by simp [bcWriteIo], by simp⟩
      simp
  | cons i is ih =>
      obtain ⟨hi, hnd⟩ := List.nodup_cons.mp hnd
      obtain ⟨u, hu, hstore, hown, hother, hrun, hreqs⟩ :=
        writeIo_cons name offset size i is hs
      obtain ⟨hfits, hstore', hw, hkeep, hwhole, hask⟩ := ih hu hnd
      rw [hrun, hreqs]
      have hne : ∀ j ∈ is, (name, j) ≠ (name, i) := by
        intro j hj h
        cases h
        exact hi hj
      refine ⟨hfits.congr ?_, hstore'.trans hstore, ?_, ?_, ?_, ?_⟩
      · intro l
        constructor
        · rintro (h | ⟨j, hj, rfl, hnone⟩)
          · exact .inl (.inl h)
          · rcases List.mem_cons.mp hj with rfl | hj
            · exact .inl (.inr ⟨rfl, hnone⟩)
            · exact .inr ⟨j, hj, rfl, by rwa [hother _ (hne j hj)]⟩
        · rintro ((h | ⟨rfl, hnone⟩) | ⟨j, hj, rfl, hnone⟩)
          · exact .inl h
          · exact .inr ⟨i, List.mem_cons_self, rfl, hnone⟩
          · exact .inr ⟨j, List.mem_cons_of_mem _ hj, rfl, by rwa [← hother _ (hne j hj)]⟩
      · intro j hj
        rcases List.mem_cons.mp hj with rfl | hj
        · rw [hkeep _ fun m hm h => hne m hm h.symm]
          exact hown
        · exact hw j hj
      · intro l hl
        rw [hkeep l fun j hj => hl j (List.mem_cons_of_mem _ hj)]
        exact hother l (hl i List.mem_cons_self)
      · intro rq hrq
        rcases List.mem_append.mp hrq with hrq | hrq
        · split at hrq
          · rw [List.mem_singleton.mp hrq]
            exact ⟨⟨rfl, rfl⟩, i, List.mem_cons_self, rfl⟩
          · cases hrq
        · obtain ⟨h, j, hj, hrj⟩ := hwhole rq hrq
          exact ⟨h, j, List.mem_cons_of_mem _ hj, hrj⟩
      · intro j hj hends
        rcases List.mem_cons.mp hj with rfl | hj
        · rw [if_pos hends]
          exact ⟨_, List.mem_append_left _ (List.mem_singleton_self _), rfl⟩
        · obtain ⟨rq, hrq, hrj⟩ := hask j hj hends
          exact ⟨rq, List.mem_append_right _ hrq, hrj⟩

/-- What `BCWriteDone` does with the blocks from `i` on: each is copied to, and
no other block changes. -/
theorem writeDone_blocks (bc : BCtrl) (c : C) (name : N) (offset size now : ℕ) (pData : ℕ → UInt8)
    (s : BCSys C N) {n i p : ℕ} (hbs : 0 < bc.bcBlockSize)
    (hsize : 0 < size) (hi : offset / bc.bcBlockSize ≤ i)
    (hn : i + n = (offset + size - 1) / bc.bcBlockSize + 1)
    (hp : n ≠ 0 → p = max (i * bc.bcBlockSize) offset - offset) :
    ∃ t, bcWriteDone bc c name offset size now pData (List.range' i n) p s = .ok t ∧
      t.store = s.store ∧
      (∀ j, i ≤ j → j < i + n → t.block c (name, j) =
        bcCopy bc (bcOff bc.bcBlockSize offset j) (bcLen bc.bcBlockSize offset size j) now
          (fun q => pData (max (j * bc.bcBlockSize) offset - offset + q)) (s.block c (name, j))) ∧
      ∀ d l, ¬ (d = c ∧ ∃ j, i ≤ j ∧ j < i + n ∧ l = (name, j)) → t.block d l = s.block d l := by
  induction n generalizing i p s with
  | zero => exact ⟨s, rfl, rfl, fun j h1 h2 => by omega, fun _ _ _ => rfl⟩
  | succ n ih =>
      have hE : i ≤ (offset + size - 1) / bc.bcBlockSize := by omega
      obtain ⟨hoff, hpos, hle⟩ := bcRange_ok hi hE hsize hbs
      have hend := bcOff_add_bcLen hi hE hsize hbs
      have hstart := mul_add_bcOff bc.bcBlockSize offset i
      have hp := hp (by omega)
      have hp' : n ≠ 0 → p + bcLen bc.bcBlockSize offset size i =
          max ((i + 1) * bc.bcBlockSize) offset - offset := by
        intro hn0
        have hnext : (i + 1) * bc.bcBlockSize ≤ offset + size - 1 :=
          (Nat.le_div_iff_mul_le hbs).mp (by omega)
        have hbound := bcRange_bounds hi hE hbs
        rw [Nat.succ_mul] at hnext ⊢
        omega
      obtain ⟨t, hrun, hstore, hin, hout⟩ := ih (s.setBlock c (name, i)
        (bcCopy bc (bcOff bc.bcBlockSize offset i) (bcLen bc.bcBlockSize offset size i) now
          (fun q => pData (p + q)) (s.block c (name, i)))) (by omega) (by omega) hp'
      refine ⟨t, ?_, hstore, ?_, ?_⟩
      · rw [List.range'_succ]
        unfold bcWriteDone
        have hrange : bcOff bc.bcBlockSize offset i < bc.bcBlockSize ∧
            0 < bcLen bc.bcBlockSize offset size i ∧
            bcLen bc.bcBlockSize offset size i ≤ bc.bcBlockSize := ⟨hoff, hpos, by omega⟩
        rw [if_neg (by simpa using hrange)]
        exact hrun
      · intro j h1 h2
        by_cases hji : j = i
        · subst hji
          rw [hout _ _ (by
            rintro ⟨-, m, hm, -, h⟩
            cases h
            omega), BCSys.setBlock_self, hp]
        · rw [hin j (by omega) (by omega), BCSys.setBlock_of_ne (by simp [hji])]
      · intro d l hl
        rw [hout d l (by
          rintro ⟨rfl, j, h1, h2, rfl⟩
          exact hl ⟨rfl, j, by omega, by omega, rfl⟩), BCSys.setBlock_of_ne]
        rintro ⟨rfl, rfl⟩
        exact hl ⟨rfl, i, le_rfl, by omega, rfl⟩

/-- A write that begins with a block and ends within it is on a block that is
cached. -/
def WriteCached (bc : BCtrl) (c : C) (name : N) (offset size : ℕ) (s : BCSys C N) : Prop :=
  offset / bc.bcBlockSize = (offset + size - 1) / bc.bcBlockSize →
    offset % bc.bcBlockSize = 0 → size % bc.bcBlockSize = 0 ∨
      (s.block c (name, offset / bc.bcBlockSize)).dOwn ≠ .none

omit [DecidableEq C] in
/-- The backing store after the write, as a block sees it. -/
theorem storeBlock_writeStore (pData : ℕ → UInt8) (i q : ℕ) :
    storeBlock bc (s.writeStore name offset size pData).store (name, i) q =
      if offset ≤ i * bc.bcBlockSize + q ∧ i * bc.bcBlockSize + q < offset + size then
        pData (i * bc.bcBlockSize + q - offset)
      else storeBlock bc s.store (name, i) q := by
  simp [storeBlock, BCSys.writeStore]

omit [DecidableEq C] in
theorem storeBlock_writeStore_of_not_mem (pData : ℕ → UInt8) {l : N × ℕ} {q : ℕ}
    (hbs : 0 < bc.bcBlockSize) (hq : q < bc.bcBlockSize)
    (hl : ∀ i ∈ bcBlocks bc.bcBlockSize offset size, l ≠ (name, i)) :
    storeBlock bc (s.writeStore name offset size pData).store l q = storeBlock bc s.store l q := by
  obtain ⟨m, i⟩ := l
  by_cases hm : m = name
  · subst hm
    rw [storeBlock_writeStore, if_neg]
    rintro ⟨h1, h2⟩
    exact hl i (bcBlocks_of_mem hbs hq h1 h2) rfl
  · simp [storeBlock, BCSys.writeStore, hm]

omit [DecidableEq C] in
/-- A block that is copied to is that of the backing store after the write, if
it was in order or is written over as a whole. -/
theorem copy_ok {pData : ℕ → UInt8} {i : ℕ} {b : CBlock} (hbs : 0 < bc.bcBlockSize)
    (hsize : 0 < size) (hi : i ∈ bcBlocks bc.bcBlockSize offset size) (ho : b.dOwn ≠ .none)
    (hsum : b.Summed bc)
    (hb : b.Ok bc (storeBlock bc s.store (name, i)) ∨ bcOff bc.bcBlockSize offset i = 0 ∧
      bcLen bc.bcBlockSize offset size i = bc.bcBlockSize) :
    (bcCopy bc (bcOff bc.bcBlockSize offset i) (bcLen bc.bcBlockSize offset size i) now
      (fun q => pData (max (i * bc.bcBlockSize) offset - offset + q)) b).Ok bc
        (storeBlock bc (s.writeStore name offset size pData).store (name, i)) := by
  obtain ⟨hS, hE⟩ := (mem_bcBlocks hsize).mp hi
  obtain ⟨hoff, hpos, hle⟩ := bcRange_ok hS hE hsize hbs
  have hstart := mul_add_bcOff bc.bcBlockSize offset i
  constructor
  · intro _ q hq
    have hmem := mem_bcRange hS hE hsize hbs hq
    rw [CBlock.copy_bPBuf, storeBlock_writeStore]
    dsimp only
    by_cases hin : bcOff bc.bcBlockSize offset i ≤ q ∧
        q < bcOff bc.bcBlockSize offset i + bcLen bc.bcBlockSize offset size i
    · rw [if_pos hin, if_pos (hmem.mp hin)]
      congr 1
      omega
    · rw [if_neg hin, if_neg fun h => hin (hmem.mpr h)]
      rcases hb with hb | ⟨h0, hlen⟩
      · exact hb.same ho q hq
      · rw [h0, hlen] at hin
        omega
  · intro h
    rw [CBlock.copy_dOwn] at h
    exact absurd h ho
  · exact CBlock.Summed.copy (fun _ => hsum) hle

/-- A write keeps the caches in order. -/
theorem write_fits (now : ℕ) (pData : ℕ → UInt8) (hs : s.Fits bc c fun _ => False)
    (hbs : 0 < bc.bcBlockSize) (hsize : 0 < size) (hw' : WriteCached bc c name offset size s) :
    ∃ t, bcWrite bc c name offset size now pData s = .ok t ∧ t.Fits bc c (fun _ => False) ∧
      t.store = (s.writeStore name offset size pData).store := by
  have hnd : (bcBlocks bc.bcBlockSize offset size).Nodup := List.nodup_range'
  obtain ⟨hio, hstore, hown, hkeep, hwhole, hask⟩ :=
    writeIo_fits name offset size hs hnd
  generalize hreqs : (bcWriteIo bc c name offset size (bcBlocks bc.bcBlockSize offset size) s).1 =
    reqs at hwhole hask
  generalize hu : (bcWriteIo bc c name offset size (bcBlocks bc.bcBlockSize offset size) s).2 =
    u at hio hstore hown hkeep
  obtain ⟨hfits, hstore', hown'⟩ := hio.fillAll (fun rq h => (hwhole rq h).1) (fun rq h => by
    obtain ⟨-, i, hi, hrq⟩ := hwhole rq h
    rw [hrq, hown i hi]
    simp)
  generalize hv : reqs.foldl (BCSys.fill c) u = v at hfits hstore' hown'
  have hle : offset / bc.bcBlockSize ≤ (offset + size - 1) / bc.bcBlockSize :=
    Nat.div_le_div_right (by omega)
  obtain ⟨t, hdone, hstore'', hin, hout⟩ := writeDone_blocks bc c name offset size now pData v
    (n := (offset + size - 1) / bc.bcBlockSize - offset / bc.bcBlockSize + 1)
    hbs hsize le_rfl (by omega) (fun _ => rfl)
  refine ⟨t.writeStore name offset size pData, ?_, ?_, ?_⟩
  · have hp : max (offset / bc.bcBlockSize * bc.bcBlockSize) offset - offset = 0 := by
      have := Nat.div_mul_le_self offset bc.bcBlockSize
      omega
    rw [hp] at hdone
    unfold bcWrite
    dsimp only
    rw [hreqs, hu, hv]
    unfold bcBlocks
    rw [hdone]
    rfl
  · have hw (i : ℕ) (hi : i ∈ bcBlocks bc.bcBlockSize offset size) :
        (v.block c (name, i)).dOwn = .w := by
      rw [hown', hown i hi]
    have hrange (i : ℕ) : i ∈ bcBlocks bc.bcBlockSize offset size ↔ offset / bc.bcBlockSize ≤ i ∧
        i < offset / bc.bcBlockSize +
          ((offset + size - 1) / bc.bcBlockSize - offset / bc.bcBlockSize + 1) := by
      rw [mem_bcBlocks hsize]
      omega
    constructor
    · intro d l _
      by_cases hl : ∃ i ∈ bcBlocks bc.bcBlockSize offset size, l = (name, i)
      · obtain ⟨i, hi, rfl⟩ := hl
        by_cases hd : d = c
        · subst hd
          have hblock : (t.writeStore name offset size pData).block d (name, i) = _ :=
            hin i ((hrange i).mp hi).1 ((hrange i).mp hi).2
          have hne : (v.block d (name, i)).dOwn ≠ .none := by simp [hw i hi]
          have hold := hfits.ok d (name, i)
          rw [hblock, BCSys.writeStore_congr hstore'']
          by_cases hP : (False ∨ ∃ j ∈ bcBlocks bc.bcBlockSize offset size, (name, i) = (name, j) ∧
              (s.block d (name, i)).dOwn = .none) ∧ ∀ rq ∈ reqs, (name, i) ≠ rq.rqBlock
          · apply copy_ok hbs hsize hi hne
            · intro _ h
              rw [(hfits.pending _ hP).2] at h
              cases h
            · right
              obtain ⟨hS, hE⟩ := (mem_bcBlocks hsize).mp hi
              apply covered_of_not_ends hbs hsize hS hE
              · by_contra hends
                obtain ⟨rq, hrq, hri⟩ := hask i hi (by simpa using hends)
                exact hP.2 rq hrq hri.symm
              · intro hone h0
                have hi0 : i = offset / bc.bcBlockSize := by omega
                obtain hfull | hcached := hw' hone h0
                · exact hfull
                · obtain ⟨j, -, -, hnone⟩ := hP.1.resolve_left id
                  rw [hi0] at hnone
                  exact absurd hnone hcached
          · have hok := hold fun h => hP h.2
            exact copy_ok hbs hsize hi hne hok.sum (.inl hok)
        · have hblock : (t.writeStore name offset size pData).block d (name, i) =
              v.block d (name, i) := hout d (name, i) fun h => hd h.1
          rw [hblock]
          have hnone := hfits.alone c d (name, i) (Ne.symm hd) (hw i hi)
          exact CBlock.ok_of_none hnone ((hfits.ok d (name, i) fun h => hd h.1).idle hnone)
      · have hblock : (t.writeStore name offset size pData).block d l = v.block d l := by
          apply hout
          rintro ⟨-, i, h1, h2, h3⟩
          exact hl ⟨i, (hrange i).mpr ⟨h1, h2⟩, h3⟩
        rw [hblock, BCSys.writeStore_congr hstore'']
        apply (hfits.ok d l _).congr
        · intro q hq
          exact storeBlock_writeStore_of_not_mem pData hbs hq fun i hi h => hl ⟨i, hi, h⟩
        · rintro ⟨-, ⟨h | ⟨i, hi, h, -⟩, -⟩⟩
          · exact h
          · exact hl ⟨i, hi, h⟩
    · exact fun _ h => h.elim
    · have hsame (d : C) (l : N × ℕ) :
          ((t.writeStore name offset size pData).block d l).dOwn = (v.block d l).dOwn := by
        by_cases hl : d = c ∧ ∃ j, offset / bc.bcBlockSize ≤ j ∧ j < offset / bc.bcBlockSize +
            ((offset + size - 1) / bc.bcBlockSize - offset / bc.bcBlockSize + 1) ∧ l = (name, j)
        · obtain ⟨rfl, j, h1, h2, rfl⟩ := hl
          exact (congrArg CBlock.dOwn (hin j h1 h2)).trans CBlock.copy_dOwn
        · exact congrArg CBlock.dOwn (hout d l hl)
      intro d e l hde h
      rw [hsame] at h ⊢
      exact hfits.alone d e l hde h
  · rw [BCSys.writeStore_congr (hstore''.trans (hstore'.trans hstore))]

/-- No block is pending between requests. -/
def CachesOk (bc : BCtrl) (s : BCSys C N) : Prop := ∀ c, s.Fits bc c fun _ => False

omit [DecidableEq C] [DecidableEq N] in
theorem CachesOk.of_fits (hs : s.Fits bc c fun _ => False) : CachesOk bc s := fun _ =>
  { ok := fun d k _ => hs.ok d k fun h => h.2
    pending := fun _ h => h.elim
    alone := hs.alone }

/-- A block is exchanged for one without a delegation. -/
theorem CachesOk.clear {k : N × ℕ} {b : CBlock} (hs : CachesOk bc s) (ho : b.dOwn = .none)
    (hb : b.cksumed = false) : CachesOk bc (s.setBlock c k b) := by
  intro _
  constructor
  · intro d l _
    by_cases h : d = c ∧ l = k
    · obtain ⟨rfl, rfl⟩ := h
      rw [BCSys.setBlock_self]
      exact CBlock.ok_of_none ho hb
    · rw [BCSys.setBlock_of_ne h]
      exact (hs c).ok d l fun h => h.2
  · exact fun _ h => h.elim
  · intro d e l hde hw
    by_cases h : e = c ∧ l = k
    · obtain ⟨rfl, rfl⟩ := h
      rw [BCSys.setBlock_self]
      exact ho
    · rw [BCSys.setBlock_of_ne h]
      apply (hs c).alone d e l hde
      by_cases h' : d = c ∧ l = k
      · obtain ⟨rfl, rfl⟩ := h'
        rw [BCSys.setBlock_self, ho] at hw
        cases hw
      · rwa [BCSys.setBlock_of_ne h'] at hw

theorem CachesOk.giveBack {k : N × ℕ} (hs : CachesOk bc s) (l : N × ℕ) :
    CachesOk bc (s.setBlock c k (s.block c l).giveBack) := by
  have hok := (hs c).ok c l fun h => h.2
  have hgive : (s.block c l).giveBack.Ok bc (storeBlock bc s.store l) := hok.giveBack
  exact hs.clear CBlock.giveBack_dOwn (hgive.idle CBlock.giveBack_dOwn)

/-- The requests are for ranges that are not empty, and a write that begins
with a block and ends within it is on a block that is cached. -/
def BCOp.Safe (bc : BCtrl) (s : BCSys C N) : BCOp C N → Prop
  | .read _ _ _ size _ => 0 < size
  | .write c name offset size _ _ => 0 < size ∧ WriteCached bc c name offset size s
  | _ => True

theorem CachesOk.step {op : BCOp C N} (hs : CachesOk bc s) (hbs : 0 < bc.bcBlockSize)
    (hop : op.Safe bc s) : ∃ t, bcStep bc s op = .ok t ∧ CachesOk bc t := by
  cases op with
  | read c name offset size now =>
      obtain ⟨t, hread, ht, -⟩ := read_fits name offset now (hs c) hbs hop
      exact ⟨t, by simp [bcStep, hread, Except.map], CachesOk.of_fits ht⟩
  | write c name offset size now pData =>
      obtain ⟨t, hwrite, ht, -⟩ := write_fits now pData (hs c) hbs hop.1 hop.2
      exact ⟨t, hwrite, CachesOk.of_fits ht⟩
  | dlgRecall c k => exact ⟨_, rfl, hs.giveBack k⟩
  | alloc c k =>
      refine ⟨_, rfl, ?_⟩
      split
      · exact hs.clear rfl rfl
      · exact hs
  | reuse c k l =>
      refine ⟨_, rfl, ?_⟩
      split
      · have hok := (hs c).ok c l fun h => h.2
        have hgive : (s.block c l).giveBack.Ok bc (storeBlock bc s.store l) := hok.giveBack
        exact (hs.giveBack l).clear CBlock.giveBack_dOwn (hgive.idle CBlock.giveBack_dOwn)
      · exact hs

omit [DecidableEq C] [DecidableEq N] in
theorem cachesOk_start (store : N → ℕ → UInt8) : CachesOk bc (bcStart store : BCSys C N) := fun _ =>
  { ok := fun _ _ _ => CBlock.ok_of_none rfl rfl
    pending := fun _ h => h.elim
    alone := fun _ _ _ _ _ => rfl }

/-- A run along safe requests does not stop and keeps the caches in order. -/
theorem run_cachesOk {ops : List (BCOp C N)} (hs : CachesOk bc s) (hbs : 0 < bc.bcBlockSize)
    (hC : Along (bcStep bc) (fun s op => op.Safe bc s) s ops) :
    ∃ t, run (bcStep bc) s ops = .ok t ∧ CachesOk bc t := by
  induction ops generalizing s with
  | nil => exact ⟨s, rfl, hs⟩
  | cons op ops ih =>
      obtain ⟨u, hstep, hu⟩ := hs.step hbs hC.1
      obtain ⟨t, hrun, ht⟩ := ih hu (hC.2 u hstep)
      refine ⟨t, ?_, ht⟩
      unfold run
      rw [hstep]
      exact hrun

end

/-! ### Results -/

/-- After every run of safe requests every block that is cached is that of the
backing store, and a read returns the bytes of the backing store. -/
theorem blockCache_coherent {C N : Type} [DecidableEq C] [DecidableEq N] (bc : BCtrl)
    (hbs : 0 < bc.bcBlockSize) (store : N → ℕ → UInt8) (ops : List (BCOp C N))
    (hC : Along (bcStep bc) (fun s op => op.Safe bc s) (bcStart store) ops) :
    ∃ t, run (bcStep bc) (bcStart store) ops = .ok t ∧
      (∀ c k, (t.block c k).dOwn ≠ .none → ∀ j < bc.bcBlockSize,
        (t.block c k).bPBuf j = t.store k.1 (k.2 * bc.bcBlockSize + j)) ∧
      ∀ c name offset size now, 0 < size → (bcRead bc c name offset size now t).map Prod.fst =
        .ok ((List.range size).map fun j => t.store name (offset + j)) := by
  obtain ⟨t, hrun, ht⟩ := run_cachesOk (cachesOk_start store) hbs hC
  refine ⟨t, hrun, ?_, ?_⟩
  · intro c k ho
    exact ((ht c).ok c k fun h => h.2).same ho
  · intro c name offset size now hsize
    obtain ⟨u, hread, -⟩ := read_fits name offset now (ht c) hbs hsize
    rw [hread]
    rfl

/-- One byte is written at the start of a block of two that is not cached. -/
def shortWrite : List (BCOp ℕ ℕ) := [.write 1 0 0 1 0 fun _ => 1]

/-- The rest of the block is what the buffer held before. -/
theorem blockCache_not_coherent : ∃ t : BCSys ℕ ℕ,
    run (bcStep ⟨2, false, 0⟩) (bcStart fun _ _ => 9) shortWrite = .ok t ∧
      (t.block 1 (0, 0)).dOwn = .w ∧ (t.block 1 (0, 0)).bPBuf 1 = 0 ∧ t.store 0 1 = 9 ∧
      (bcRead ⟨2, false, 0⟩ 1 0 0 2 0 t).map Prod.fst = .ok [1, 0] :=
  ⟨_, rfl, rfl, rfl, rfl, rfl⟩

/-- The block is read first. -/
def readAndWrite : List (BCOp ℕ ℕ) := [.read 1 0 0 1 0, .write 1 0 0 1 0 fun _ => 1]

theorem blockCache_coherent_read : ∃ t : BCSys ℕ ℕ,
    run (bcStep ⟨2, false, 0⟩) (bcStart fun _ _ => 9) readAndWrite = .ok t ∧
      (bcRead ⟨2, false, 0⟩ 1 0 0 2 0 t).map Prod.fst = .ok [1, 9] := by
  have hC : Along (bcStep ⟨2, false, 0⟩) (fun s op => op.Safe ⟨2, false, 0⟩ s)
      (bcStart fun _ _ => 9) readAndWrite := by
    refine ⟨Nat.one_pos, ?_⟩
    intro t ht
    cases ht
    refine ⟨⟨Nat.one_pos, fun _ _ => .inr (by decide)⟩, fun _ _ => trivial⟩
  obtain ⟨t, hrun, -, hread⟩ := blockCache_coherent ⟨2, false, 0⟩ (by decide) _ readAndWrite hC
  refine ⟨t, hrun, ?_⟩
  rw [hread 1 0 0 2 0 (by decide)]
  cases hrun
  rfl

end PaxosSolutions
