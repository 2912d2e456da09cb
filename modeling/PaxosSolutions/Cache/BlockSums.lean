import PaxosSolutions.Cache.WriteThrough

/-!
# Checksums of the blocks of clients

`BCReadDone` looks at a block's checksum again and `BCWriteDone` corrects it. Both
leave every block with the checksum of its buffer or with none, whatever the ranges
are and whatever the replies to block requests put in the buffers in between.
-/
namespace PaxosSolutions
open Lib NWGadget

/-- The calls with any range, over any blocks, and around them whole requests, where
the backing store may have anything. -/
inductive DoneOp (C N : Type) where
  | readDone (c : C) (name : N) (offset size now : ℕ) (is : List ℕ)
  | writeDone (c : C) (name : N) (offset size now : ℕ) (pData : ℕ → UInt8) (is : List ℕ)
  | request (store : N → ℕ → UInt8) (op : BCOp C N)

section
variable {C N : Type} [DecidableEq C] [DecidableEq N]

def doneStep (bc : BCtrl) (s : BCSys C N) : DoneOp C N → Except BCFault (BCSys C N)
  | .readDone c name offset size now is =>
      (bcReadDone bc c name offset size now is s).map Prod.snd
  | .writeDone c name offset size now pData is =>
      bcWriteDone bc c name offset size now pData is 0 s
  | .request store op => bcStep bc { s with store := store } op

end

/-- The `ASSERT` on a checksum does not fail, and what comes out is as `P` says. -/
def SumsAgree {α : Type} (P : α → Prop) : Except BCFault α → Prop
  | .ok a => P a
  | .error e => e ≠ .assertCksum

section Agree
variable {α β : Type} {P P' : α → Prop} {Q : β → Prop} {x : Except BCFault α}
  {f : α → Except BCFault β}

theorem SumsAgree.bind (hx : SumsAgree P x) (hf : ∀ a, P a → SumsAgree Q (f a)) :
    SumsAgree Q (x >>= f) := by
  cases x with
  | error e => exact hx
  | ok a => exact hf a hx

theorem SumsAgree.map {g : α → β} (hx : SumsAgree P x) (hg : ∀ a, P a → Q (g a)) :
    SumsAgree Q (x.map g) := by
  cases x with
  | error e => exact hx
  | ok a => exact hg a hx

theorem SumsAgree.mono (hx : SumsAgree P x) (h : ∀ a, P a → P' a) : SumsAgree P' x := by
  cases x with
  | error e => exact hx
  | ok a => exact h a hx

end Agree

theorem CBlock.summed_of_not {bc : BCtrl} {b : CBlock} (h : b.cksumed = false) : b.Summed bc := by
  intro _ hck
  rw [h] at hck
  cases hck

theorem sumsAgree_assertRange {α : Type} {P : α → Prop} : SumsAgree P (.error .assertRange) := by
  intro h
  cases h

namespace BCSys
variable {C N : Type} [DecidableEq C] [DecidableEq N] {bc : BCtrl} {s t : BCSys C N} {c d : C}
  {k l : N × ℕ} {b : CBlock} {name : N} {offset size now p : ℕ} {is : List ℕ}

/-- Every block has the checksum of its buffer, or it is one of `is` and its checksum is
to be taken anew. -/
def SummedBut (bc : BCtrl) (c : C) (name : N) (is : List ℕ) (s : BCSys C N) : Prop :=
  ∀ d k, (s.block d k).Summed bc ∨ d = c ∧ (∃ i ∈ is, k = (name, i)) ∧ (s.block d k).doCksum = true

/-- Every block has the checksum of its buffer. -/
def AllSummed (bc : BCtrl) (s : BCSys C N) : Prop := ∀ d k, (s.block d k).Summed bc

omit [DecidableEq C] [DecidableEq N] in
theorem AllSummed.but (hs : s.AllSummed bc) (c : C) (name : N) (is : List ℕ) :
    s.SummedBut bc c name is := fun d k => .inl (hs d k)

omit [DecidableEq C] [DecidableEq N] in
theorem SummedBut.all (hs : s.SummedBut bc c name []) : s.AllSummed bc := by
  intro d k
  rcases hs d k with h | ⟨-, ⟨i, hi, -⟩, -⟩
  · exact h
  · cases hi

theorem AllSummed.setBlock (hs : s.AllSummed bc) (hb : b.Summed bc) :
    (s.setBlock c k b).AllSummed bc := by
  intro d l
  by_cases h : d = c ∧ l = k
  · obtain ⟨rfl, rfl⟩ := h
    rw [setBlock_self]
    exact hb
  · rw [setBlock_of_ne h]
    exact hs d l

omit [DecidableEq C] in
theorem AllSummed.recallAll (hs : s.AllSummed bc) (q : C → DlgOwn → Bool) :
    (s.recallAll q k).AllSummed bc := by
  intro d l
  unfold BCSys.recallAll
  dsimp only
  split
  · intro _ h
    cases h
  · exact hs d l

theorem bcOff_add_bcLen_le {bs i : ℕ} (hoff : bcOff bs offset i < bs) :
    bcOff bs offset i + bcLen bs offset size i ≤ bs := by
  unfold bcLen
  split <;> omega

/-- `BCReadDone` does not stop on a checksum. -/
theorem readDone_sums (name : N) (offset size now : ℕ) (is : List ℕ) (hs : s.AllSummed bc) :
    SumsAgree (fun r => r.2.AllSummed bc) (bcReadDone bc c name offset size now is s) := by
  induction is generalizing s with
  | nil => exact hs
  | cons i is ih =>
      obtain ⟨b, hcheck, hb, -⟩ := (hs c (name, i)).check now
      rw [bcReadDone, hcheck]
      change SumsAgree _ (if _ then _ else _)
      split
      · exact sumsAgree_assertRange
      · refine SumsAgree.bind (ih (hs.setBlock hb)) ?_
        intro r hr
        exact hr

/-- `BCWriteDone` takes the checksums anew that are to be. -/
theorem writeDone_sums (pData : ℕ → UInt8) (hs : s.SummedBut bc c name is) :
    SumsAgree (AllSummed bc) (bcWriteDone bc c name offset size now pData is p s) := by
  induction is generalizing s p with
  | nil => exact hs.all
  | cons i is ih =>
      rw [bcWriteDone]
      dsimp only
      split
      · exact sumsAgree_assertRange
      · rename_i hrange
        have hoff : bcOff bc.bcBlockSize offset i < bc.bcBlockSize := by
          by_contra h
          exact hrange fun hr => h hr.1
        refine ih ?_
        intro d k
        by_cases h : d = c ∧ k = (name, i)
        · obtain ⟨rfl, rfl⟩ := h
          rw [setBlock_self]
          refine .inl (CBlock.Summed.copy ?_ (bcOff_add_bcLen_le hoff))
          intro hdo
          rcases hs d (name, i) with h | ⟨-, -, h⟩
          · exact h
          · rw [hdo] at h
            cases h
        · rw [setBlock_of_ne h]
          rcases hs d k with h' | ⟨hd, ⟨j, hj, hk⟩, hdo⟩
          · exact .inl h'
          · refine .inr ⟨hd, ⟨j, ?_, hk⟩, hdo⟩
            refine List.mem_of_ne_of_mem ?_ hj
            rintro rfl
            exact h ⟨hd, hk⟩

/-- A block that is locked for reading has no checksum if it is new. -/
theorem lockR_sums (c : C) (k : N × ℕ) (hs : s.AllSummed bc) : (s.lockR c k).2.AllSummed bc ∧
    ((s.lockR c k).1 = true → ((s.lockR c k).2.block c k).cksumed = false) ∧
    ∀ l, (s.block c l).cksumed = false → ((s.lockR c k).2.block c l).cksumed = false := by
  unfold lockR
  split
  · refine ⟨hs, ?_, fun l h => h⟩
    intro h
    cases h
  · refine ⟨(hs.recallAll _).setBlock (CBlock.summed_of_not rfl), ?_, ?_⟩
    · intro _
      rw [setBlock_self]
      rfl
    · intro l hl
      by_cases h : l = k
      · subst h
        rw [setBlock_self]
        rfl
      · rw [setBlock_of_ne fun h' => h h'.2]
        unfold BCSys.recallAll
        dsimp only
        split
        · rfl
        · exact hl

theorem lockW_sums (c : C) (k : N × ℕ) (hs : s.AllSummed bc) : (s.lockW c k).AllSummed bc := by
  unfold lockW
  split
  · exact hs
  · exact (hs.recallAll _).setBlock (CBlock.summed_of_not rfl)

theorem readIo_sums (name : N) (is : List ℕ) (hs : s.AllSummed bc) :
    SumsAgree (fun r => r.2.AllSummed bc ∧ (∀ rq ∈ r.1, (r.2.block c rq.rqBlock).cksumed = false) ∧
      ∀ l, (s.block c l).cksumed = false → (r.2.block c l).cksumed = false)
      (bcReadIo bc c name is s) := by
  induction is generalizing s with
  | nil => exact ⟨hs, fun rq h => absurd h List.not_mem_nil, fun l h => h⟩
  | cons i is ih =>
      obtain ⟨hs₁, hnew, hkeep⟩ := lockR_sums c (name, i) hs
      rw [bcReadIo]
      generalize s.lockR c (name, i) = r at hs₁ hnew hkeep ⊢
      obtain ⟨bIo, s₁⟩ := r
      dsimp only at hs₁ hnew hkeep ⊢
      split
      · refine (ih hs₁).mono ?_
        intro r hr
        exact ⟨hr.1, hr.2.1, fun l h => hr.2.2 l (hkeep l h)⟩
      · rename_i hbIo
        have hnone := hnew (by simpa using hbIo)
        split
        · intro h
          cases h
        · have hs₂ : (s₁.setBlock c (name, i) (s₁.block c (name, i)).asked).AllSummed bc :=
            hs₁.setBlock (CBlock.summed_of_not hnone)
          have hkeep₂ : ∀ l, (s₁.block c l).cksumed = false →
              ((s₁.setBlock c (name, i) (s₁.block c (name, i)).asked).block c l).cksumed = false := by
            intro l hl
            by_cases h : l = (name, i)
            · subst h
              rw [setBlock_self]
              exact hl
            · rw [setBlock_of_ne fun h' => h h'.2]
              exact hl
          refine SumsAgree.bind (ih hs₂) ?_
          rintro ⟨reqs, u⟩ ⟨hu, hreqs, hrest⟩
          refine ⟨hu, ?_, fun l h => hrest l (hkeep₂ l (hkeep l h))⟩
          intro rq hrq
          rcases List.mem_cons.mp hrq with rfl | hrq
          · exact hrest _ (hkeep₂ _ hnone)
          · exact hreqs rq hrq

/-- A block request fills a buffer that has no checksum. -/
theorem fill_sums {reqs : List (BCReq N)} (hs : s.AllSummed bc)
    (hreqs : ∀ rq ∈ reqs, (s.block c rq.rqBlock).cksumed = false) :
    (reqs.foldl (BCSys.fill c) s).AllSummed bc := by
  induction reqs generalizing s with
  | nil => exact hs
  | cons rq reqs ih =>
      have hrq := hreqs rq List.mem_cons_self
      refine ih (hs.setBlock (CBlock.summed_of_not hrq)) ?_
      intro rq' h
      unfold fill
      by_cases hk : rq'.rqBlock = rq.rqBlock
      · rw [hk, setBlock_self]
        exact hrq
      · rw [setBlock_of_ne fun h' => hk h'.2]
        exact hreqs rq' (List.mem_cons_of_mem rq h)

/-- A block that `BCWriteIO` asked for. -/
def AskedFor (s : BCSys C N) (c : C) (k : N × ℕ) : Prop :=
  (s.block c k).dOwn = .w ∧ (s.block c k).doCksum = true

theorem lockW_own (s : BCSys C N) (c : C) (k : N × ℕ) : ((s.lockW c k).block c k).dOwn = .w := by
  unfold lockW
  split
  · assumption
  · rw [setBlock_self]
    rfl

theorem AskedFor.lockW (h : s.AskedFor c k) (l : N × ℕ) : (s.lockW c l).AskedFor c k := by
  unfold AskedFor BCSys.lockW at *
  split
  · exact h
  · rename_i hown
    have hkl : k ≠ l := by
      rintro rfl
      exact hown h.1
    rw [setBlock_of_ne fun h' => hkl h'.2]
    unfold BCSys.recallAll
    simp only [ne_eq, not_true_eq_false, decide_false, false_and, Bool.false_eq_true, and_false,
      if_false]
    exact h

theorem AskedFor.asked (h : s.AskedFor c k) (l : N × ℕ) :
    (s.setBlock c l (s.block c l).asked).AskedFor c k := by
  unfold AskedFor at *
  by_cases hkl : k = l
  · subst hkl
    rw [setBlock_self]
    exact ⟨h.1, rfl⟩
  · rw [setBlock_of_ne fun h' => hkl h'.2]
    exact h

theorem writeIo_sums (name : N) (offset size : ℕ) (is : List ℕ) (hs : s.AllSummed bc) :
    (bcWriteIo bc c name offset size is s).2.AllSummed bc ∧
      (∀ rq ∈ (bcWriteIo bc c name offset size is s).1, (∃ i ∈ is, rq.rqBlock = (name, i)) ∧
        (bcWriteIo bc c name offset size is s).2.AskedFor c rq.rqBlock) ∧
      ∀ k, s.AskedFor c k → (bcWriteIo bc c name offset size is s).2.AskedFor c k := by
  induction is generalizing s with
  | nil => exact ⟨hs, fun rq h => absurd h List.not_mem_nil, fun k h => h⟩
  | cons i is ih =>
      have hs₁ := lockW_sums c (name, i) hs
      have hown := lockW_own s c (name, i)
      rw [bcWriteIo]
      dsimp only
      split
      · have hs₂ : ((s.lockW c (name, i)).setBlock c (name, i)
            ((s.lockW c (name, i)).block c (name, i)).asked).AllSummed bc :=
          hs₁.setBlock (hs₁ c (name, i))
        have hasked : ((s.lockW c (name, i)).setBlock c (name, i)
            ((s.lockW c (name, i)).block c (name, i)).asked).AskedFor c (name, i) := by
          unfold AskedFor
          rw [setBlock_self]
          exact ⟨hown, rfl⟩
        obtain ⟨hu, hreqs, hrest⟩ := ih hs₂
        refine ⟨hu, ?_, fun k h => hrest k ((h.lockW _).asked _)⟩
        intro rq hrq
        rcases List.mem_cons.mp hrq with rfl | hrq
        · exact ⟨⟨i, List.mem_cons_self, rfl⟩, hrest _ hasked⟩
        · obtain ⟨⟨j, hj, hk⟩, h⟩ := hreqs rq hrq
          exact ⟨⟨j, List.mem_cons_of_mem i hj, hk⟩, h⟩
      · obtain ⟨hu, hreqs, hrest⟩ := ih hs₁
        refine ⟨hu, ?_, fun k h => hrest k (h.lockW _)⟩
        intro rq hrq
        obtain ⟨⟨j, hj, hk⟩, h⟩ := hreqs rq hrq
        exact ⟨⟨j, List.mem_cons_of_mem i hj, hk⟩, h⟩

/-- A block request fills a buffer whose checksum is to be taken anew. -/
theorem fill_asked {reqs : List (BCReq N)} (hs : s.SummedBut bc c name is)
    (hreqs : ∀ rq ∈ reqs, (∃ i ∈ is, rq.rqBlock = (name, i)) ∧ s.AskedFor c rq.rqBlock) :
    (reqs.foldl (BCSys.fill c) s).SummedBut bc c name is := by
  induction reqs generalizing s with
  | nil => exact hs
  | cons rq reqs ih =>
      obtain ⟨hmem, hask⟩ := hreqs rq List.mem_cons_self
      refine ih ?_ ?_
      · intro d k
        unfold fill
        by_cases h : d = c ∧ k = rq.rqBlock
        · obtain ⟨rfl, rfl⟩ := h
          rw [setBlock_self]
          exact .inr ⟨rfl, hmem, hask.2⟩
        · rw [setBlock_of_ne h]
          exact hs d k
      · intro rq' h
        obtain ⟨hmem', hask'⟩ := hreqs rq' (List.mem_cons_of_mem rq h)
        refine ⟨hmem', ?_⟩
        unfold fill AskedFor at *
        by_cases hk : rq'.rqBlock = rq.rqBlock
        · rw [hk, setBlock_self]
          exact hask
        · rw [setBlock_of_ne fun h' => hk h'.2]
          exact hask'

theorem giveBack_summed (hb : b.Summed bc) : b.giveBack.Summed bc := by
  unfold CBlock.giveBack
  split
  · exact hb
  · exact CBlock.summed_of_not rfl

/-- A request does not stop on a checksum and leaves every block with the right one. -/
theorem request_sums (op : BCOp C N) (hs : s.AllSummed bc) :
    SumsAgree (AllSummed bc) (bcStep bc s op) := by
  cases op with
  | read c name offset size now =>
      refine SumsAgree.map (P := fun r => r.2.AllSummed bc) ?_ fun r hr => hr
      refine SumsAgree.bind (readIo_sums name _ hs) ?_
      intro r hr
      exact readDone_sums name offset size now _ (fill_sums hr.1 hr.2.1)
  | write c name offset size now pData =>
      obtain ⟨hu, hreqs, -⟩ := writeIo_sums (c := c) name offset size
        (bcBlocks bc.bcBlockSize offset size) hs
      refine SumsAgree.bind (writeDone_sums pData (fill_asked (hu.but c name _) hreqs)) ?_
      intro t ht
      exact ht
  | dlgRecall c k => exact hs.setBlock (giveBack_summed (hs c k))
  | alloc c k =>
      change (if _ then _ else _ : BCSys C N).AllSummed bc
      split
      · exact hs.setBlock (CBlock.summed_of_not rfl)
      · exact hs
  | reuse c k l =>
      change (if _ then _ else _ : BCSys C N).AllSummed bc
      have hl := giveBack_summed (hs c l)
      split
      · exact (hs.setBlock hl).setBlock hl
      · exact hs

theorem doneStep_sums (op : DoneOp C N) (hs : s.AllSummed bc) :
    SumsAgree (AllSummed bc) (doneStep bc s op) := by
  cases op with
  | readDone c name offset size now is =>
      exact SumsAgree.map (readDone_sums name offset size now is hs) fun r hr => hr
  | writeDone c name offset size now pData is => exact writeDone_sums pData (hs.but c name is)
  | request store op =>
      have hs' : AllSummed bc { s with store := store } := hs
      exact request_sums op hs'

end BCSys

/-- In every run of `BCReadDone` and `BCWriteDone` with any ranges every block that has a
checksum has that of its whole buffer, or 0, and no checksum is found wrong. -/
theorem doneRun_summed {C N : Type} [DecidableEq C] [DecidableEq N] (bc : BCtrl)
    (store : N → ℕ → UInt8) (ops : List (DoneOp C N)) :
    (∀ t, run (doneStep bc) (bcStart store) ops = .ok t → ∀ c k, bc.bcBCksum = true →
      (t.block c k).cksumed = true → (t.block c k).bCksum64 = 0 ∨
        (t.block c k).bCksum64 = inCksum64 ((t.block c k).bytes 0 bc.bcBlockSize) 0) ∧
      run (doneStep bc) (bcStart store) ops ≠ .error .assertCksum := by
  have hstart : (bcStart store : BCSys C N).AllSummed bc := fun c k => CBlock.summed_of_not rfl
  have hrun : ∀ s : BCSys C N, s.AllSummed bc →
      SumsAgree (BCSys.AllSummed bc) (run (doneStep bc) s ops) := by
    induction ops with
    | nil => exact fun s hs => hs
    | cons op ops ih => exact fun s hs => SumsAgree.bind (BCSys.doneStep_sums op hs) ih
  have hend := hrun _ hstart
  constructor
  · intro t ht c k hon hck
    rw [ht] at hend
    by_cases hzero : (t.block c k).bCksum64 = 0
    · exact .inl hzero
    · exact .inr (hend c k hon hck hzero)
  · intro h
    rw [h] at hend
    exact hend rfl

end PaxosSolutions
