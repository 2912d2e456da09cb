import PaxosSolutions.Paxos.Life
import Mathlib.Order.Interval.Finset.Fin

/-!
# Execution in order

The slots of a page are decided in any order. Those that are decided from the
position of `NextDecide` on are the gaps, and what is executed is one sequence
number after the other.
-/
namespace PaxosSolutions
open NWGadget Lib Lib.Handler

/-- The decisions executed, in order. -/
def executed (o : List Out) : List Gap :=
  o.filterMap fun
    | .execute seq d c => some ⟨seq, d, c⟩
    | _ => none

/-- The commands reported as rejected, with their sequence numbers. -/
def rejected (o : List Out) : List (UInt32 × MetaCmd) :=
  o.filterMap fun
    | .notify _ .rejected seq _ _ c _ => some (seq, c)
    | _ => none

@[simp] theorem executed_append (o o' : List Out) :
    executed (o ++ o') = executed o ++ executed o' := List.filterMap_append ..

@[simp] theorem rejected_append (o o' : List Out) :
    rejected (o ++ o') = rejected o ++ rejected o' := List.filterMap_append ..

/-! ### Sequence numbers of a page -/

theorem toSeq_succ (page : UInt32) (j : ℕ) : toSeq page j + 1 = toSeq page (j + 1) := by
  unfold toSeq
  rw [UInt32.add_assoc]
  congr 1
  simp [Nat.toUInt32]

theorem toSeq_turn (page : UInt32) : toSeq page paxosMax = toSeq (page + 1) 0 := by
  unfold toSeq
  rw [UInt32.add_mul, UInt32.add_assoc]
  rfl

theorem cmp32_toSeq {page : UInt32} {a b : ℕ} (ha : a < 2 ^ 31) (hb : b < 2 ^ 31) :
    cmp32 (toSeq page a) (toSeq page b) = (a : ℤ) - b := by
  have h : toSeq page a - toSeq page b = a.toUInt32 - b.toUInt32 := by
    unfold toSeq
    grind
  have ha' : a.toUInt32.toNat = a := UInt32.toNat_ofNat_of_lt' (by simp only [UInt32.size]; omega)
  have hb' : b.toUInt32.toNat = b := UInt32.toNat_ofNat_of_lt' (by simp only [UInt32.size]; omega)
  unfold cmp32
  rw [h]
  change cmp32 a.toUInt32 b.toUInt32 = _
  rw [cmp32_of_lt (by omega) (by omega), ha', hb']

theorem toSeq_inj {page : UInt32} {a b : ℕ} (ha : a < 2 ^ 31) (hb : b < 2 ^ 31) :
    toSeq page a = toSeq page b ↔ a = b := by
  rw [← cmp32_eq_zero_iff, cmp32_toSeq ha hb]
  omega

namespace Replica

/-- What slot `k` says, as it is kept in the gap table. -/
def decision (p : Replica) (k : K) : Gap :=
  ⟨p.seq k, (p.slot k).pRndValue, (p.slot k).cMetaCmdRnd⟩

/-- The decided slots from `j` on. -/
def pending (p : Replica) (j : ℕ) : Finset K :=
  Finset.univ.filter fun k => j ≤ k.val ∧ (p.slot k).pMode = .decided

theorem mem_pending {p : Replica} {j : ℕ} {k : K} :
    k ∈ p.pending j ↔ j ≤ k.val ∧ (p.slot k).pMode = .decided := by
  simp [pending]

theorem seq_inj {p : Replica} {a b : ℕ} (ha : a ≤ 10) (hb : b ≤ 10) : p.seq a = p.seq b ↔ a = b :=
  toSeq_inj (by omega) (by omega)

theorem seq_succ (p : Replica) (j : ℕ) : p.seq j + 1 = p.seq (j + 1) := toSeq_succ ..

/-- `NextDecide` is the `j`-th sequence number of the page, and the gaps are
the decided slots from there on. -/
structure Waiting (p : Replica) (j : ℕ) : Prop where
  next : p.pNextDecide = p.seq j
  le : j ≤ paxosMax
  gaps : ∀ k : K, p.pGaps.valuesAt (p.seq k) = if k ∈ p.pending j then [p.decision k] else []
  rest : ∀ x, (∀ k : K, x ≠ p.seq k) → p.pGaps.valuesAt x = []
  count : p.pGaps.hCount = (p.pending j).card

namespace Waiting
variable {p : Replica} {j : ℕ}

/-- It speaks of the page, `NextDecide` and the gaps only. -/
theorem congr {q : Replica} (hw : p.Waiting j) (hnext : q.pNextDecide = p.pNextDecide)
    (hgaps : q.pGaps = p.pGaps) (hpage : q.page = p.page) (hslot : ∀ k, q.slot k = p.slot k) :
    q.Waiting j := by
  have hseq (i : ℕ) : q.seq i = p.seq i := by rw [seq, hpage]; rfl
  have hpend : q.pending j = p.pending j := by
    ext k
    rw [mem_pending, mem_pending, hslot]
  have hdec (k : K) : q.decision k = p.decision k := by rw [decision, decision, hseq, hslot]
  refine ⟨by rw [hnext, hw.next, hseq], hw.le, fun k => ?_, fun x hx => ?_, ?_⟩
  · rw [hgaps, hseq, hpend, hdec]
    exact hw.gaps k
  · rw [hgaps]
    exact hw.rest x fun k => hseq k ▸ hx k
  · rw [hgaps, hpend, hw.count]

theorem getItem_eq_none (hw : p.Waiting j) (h : ∀ k : K, k.val = j → (p.slot k).pMode ≠ .decided) :
    p.pGaps.getItem p.pNextDecide = none := by
  have hv : p.pGaps.valuesAt p.pNextDecide = [] := by
    rw [hw.next]
    rcases Nat.lt_or_ge j paxosMax with hj | hj
    · have := hw.gaps ⟨j, hj⟩
      rwa [if_neg fun hk => h ⟨j, hj⟩ rfl (mem_pending.mp hk).2] at this
    · refine hw.rest _ fun k hk => ?_
      have := (seq_inj hw.le k.isLt.le).mp hk
      omega
  have hg := Hash.getItem_value p.pGaps p.pNextDecide
  rw [hv] at hg
  simpa using hg

theorem getItem_eq (hw : p.Waiting j) {k : K} (hk : k.val = j) (hm : (p.slot k).pMode = .decided) :
    p.pGaps.getItem p.pNextDecide = some (p.pNextDecide, p.decision k) := by
  have hv := hw.gaps k
  rw [if_pos (mem_pending.mpr ⟨hk.ge, hm⟩), hk, ← hw.next] at hv
  have hg := Hash.getItem_value p.pGaps p.pNextDecide
  rw [hv] at hg
  obtain ⟨⟨x, g⟩, hx, rfl⟩ := Option.map_eq_some_iff.mp hg
  have hkey : x = p.pNextDecide := Hash.getItem_key hx
  rw [hx, hkey]

theorem pending_succ {k : K} (hk : k.val = j) : p.pending (j + 1) = (p.pending j).erase k := by
  ext k'
  have hiff : j + 1 ≤ k'.val ↔ k' ≠ k ∧ j ≤ k'.val := by
    rw [ne_eq, Fin.ext_iff]
    omega
  rw [mem_pending, Finset.mem_erase, mem_pending, hiff, and_assoc]

/-- One turn of the loop over the gaps. -/
theorem drop (hw : p.Waiting j) {k : K} (hk : k.val = j) (hm : (p.slot k).pMode = .decided) :
    Waiting
      { p with pNextDecide := p.pNextDecide + 1, pGaps := p.pGaps.removeItem p.pNextDecide }
      (j + 1) where
  next := by
    rw [hw.next]
    exact seq_succ p j
  le := by
    have := k.isLt
    omega
  gaps := fun k' => by
    change (p.pGaps.removeItem p.pNextDecide).valuesAt (p.seq k') =
      if k' ∈ p.pending (j + 1) then [p.decision k'] else []
    rw [Hash.valuesAt_removeItem, hw.next, pending_succ hk]
    by_cases h : k' = k
    · subst h
      rw [if_pos (by rw [hk]), ← hk, hw.gaps k', hk, if_pos (mem_pending.mpr ⟨hk.ge, hm⟩),
        if_neg (by simp)]
      rfl
    · have hne : p.seq k' ≠ p.seq j := by
        rw [← hk, ne_eq, seq_inj k'.isLt.le k.isLt.le, ← Fin.ext_iff]
        exact h
      rw [if_neg hne, hw.gaps k']
      simp [h]
  rest := fun x hx => by
    change (p.pGaps.removeItem p.pNextDecide).valuesAt x = []
    have hne : x ≠ p.seq j := hk ▸ hx k
    rw [Hash.valuesAt_removeItem, hw.next, if_neg hne, hw.rest x hx]
  count := by
    change p.pGaps.hCount - 1 = (p.pending (j + 1)).card
    rw [hw.count, pending_succ hk, Finset.card_erase_of_mem (mem_pending.mpr ⟨hk.ge, hm⟩)]

/-- With `NextDecide` not decided, fewer slots are waiting than are left. -/
theorem card_lt (hw : p.Waiting j) (hj : j < paxosMax)
    (h : ∀ k : K, k.val = j → (p.slot k).pMode ≠ .decided) : j + p.pGaps.hCount < paxosMax := by
  have hsub : p.pending j ⊆ Finset.univ.filter fun k : K => j < k.val := by
    intro k hk
    obtain ⟨h₁, h₂⟩ := mem_pending.mp hk
    simp only [Finset.mem_filter, Finset.mem_univ, true_and]
    exact lt_of_le_of_ne h₁ fun he => h k he.symm h₂
  have hcard := Finset.card_le_card hsub
  have hgt : (Finset.univ.filter fun k : K => j < k.val).card = paxosMax - 1 - j :=
    Fin.card_Ioi ⟨j, hj⟩ ▸ congrArg Finset.card (by ext k; simp [Fin.lt_def])
  rw [hw.count]
  omega

theorem zero_of_end (hw : p.Waiting paxosMax) : p.pGaps.hCount = 0 := by
  rw [hw.count, Finset.card_eq_zero]
  ext k
  simp only [mem_pending, Finset.notMem_empty, iff_false, not_and]
  intro h
  have := k.isLt
  omega

theorem empty_of_zero (hw : p.Waiting j) (hz : p.pGaps.hCount = 0) (x : UInt32) :
    p.pGaps.valuesAt x = [] := by
  have hpend : p.pending j = ∅ := Finset.card_eq_zero.mp (hw.count.symm.trans hz)
  by_cases h : ∃ k : K, x = p.seq k
  · obtain ⟨k, rfl⟩ := h
    rw [hw.gaps k, hpend, if_neg (Finset.notMem_empty k)]
  · exact hw.rest x fun k hk => h ⟨k, hk⟩

theorem getItem_of_zero (hw : p.Waiting j) (hz : p.pGaps.hCount = 0) (x : UInt32) :
    p.pGaps.getItem x = none := by
  have hg := Hash.getItem_value p.pGaps x
  rw [hw.empty_of_zero hz] at hg
  simpa using hg

/-! Slot `k` becomes decided. -/

section decide
variable {k : K} {f : Slot → Slot}

theorem pending_setSlot {i : ℕ} (hd : (f (p.slot k)).pMode = .decided) :
    (p.setSlot k f).pending i = if i ≤ k.val then insert k (p.pending i) else p.pending i := by
  ext k'
  by_cases h : k' = k
  · subst h
    rw [mem_pending, slot_setSlot_self]
    split_ifs with hi
    · simp [hi, hd]
    · simp [hi, mem_pending]
  · rw [mem_pending, slot_setSlot_of_ne h]
    split_ifs <;> simp [mem_pending, h]

theorem decision_setSlot {k' : K} (h : k' ≠ k) :
    (p.setSlot k f).decision k' = p.decision k' := by
  unfold decision
  rw [slot_setSlot_of_ne h]
  rfl

theorem gaps_setSlot (hw : p.Waiting j) {k' : K} (h : k' ≠ k) :
    p.pGaps.valuesAt (p.seq k') =
      if k' ∈ p.pending j then [(p.setSlot k f).decision k'] else [] := by
  rw [decision_setSlot h]
  exact hw.gaps k'

theorem valuesAt_of_notMem (hw : p.Waiting j) {k' : K} (h : k' ∉ p.pending j) :
    p.pGaps.valuesAt (p.seq k') = [] :=
  (hw.gaps k').trans (if_neg h)

/-- A slot below `NextDecide` changes nothing. -/
theorem below (hw : p.Waiting j) (hd : (f (p.slot k)).pMode = .decided) (hk : k.val < j) :
    (p.setSlot k f).Waiting j where
  next := hw.next
  le := hw.le
  rest := hw.rest
  count := by
    rw [pending_setSlot hd, if_neg (Nat.not_le.mpr hk)]
    exact hw.count
  gaps := fun k' => by
    rw [pending_setSlot hd, if_neg (Nat.not_le.mpr hk)]
    by_cases h : k' = k
    · subst h
      have hn : k' ∉ p.pending j := fun h => absurd (mem_pending.mp h).1 (Nat.not_le.mpr hk)
      rw [if_neg hn]
      exact hw.valuesAt_of_notMem hn
    · exact hw.gaps_setSlot h

/-- The slot of `NextDecide` is passed at once. -/
theorem passed (hw : p.Waiting j) (hd : (f (p.slot k)).pMode = .decided) (hk : k.val = j)
    (hu : (p.slot k).pMode ≠ .decided) :
    Waiting { p.setSlot k f with pNextDecide := p.pNextDecide + 1, pbSuppressAccept := false }
      (j + 1) := by
  have hpend : (p.setSlot k f).pending (j + 1) = p.pending j := by
    rw [pending_setSlot hd, if_neg (by omega), pending_succ hk, Finset.erase_eq_of_notMem]
    exact fun h => hu (mem_pending.mp h).2
  refine ⟨?_, ?_, fun k' => ?_, hw.rest, ?_⟩
  · change p.pNextDecide + 1 = p.seq (j + 1)
    rw [hw.next, seq_succ]
  · have := k.isLt
    omega
  · change p.pGaps.valuesAt (p.seq k') =
      if k' ∈ (p.setSlot k f).pending (j + 1) then [(p.setSlot k f).decision k'] else []
    rw [hpend]
    by_cases h : k' = k
    · subst h
      have hn : k' ∉ p.pending j := fun h => hu (mem_pending.mp h).2
      rw [if_neg hn]
      exact hw.valuesAt_of_notMem hn
    · exact hw.gaps_setSlot h
  · change p.pGaps.hCount = ((p.setSlot k f).pending (j + 1)).card
    rw [hpend, hw.count]

/-- A slot above `NextDecide` becomes a gap. -/
theorem parked (hw : p.Waiting j) (hd : (f (p.slot k)).pMode = .decided) (hk : j < k.val)
    (hu : (p.slot k).pMode ≠ .decided) :
    Waiting
      { p.setSlot k f with pGaps := p.pGaps.put (p.seq k) ((p.setSlot k f).decision k) } j := by
  have hn : k ∉ p.pending j := fun h => hu (mem_pending.mp h).2
  have hpend : (p.setSlot k f).pending j = insert k (p.pending j) := by
    rw [pending_setSlot hd, if_pos hk.le]
  refine ⟨hw.next, hw.le, fun k' => ?_, fun x hx => ?_, ?_⟩
  · change (p.pGaps.put (p.seq k) _).valuesAt (p.seq k') =
      if k' ∈ (p.setSlot k f).pending j then [(p.setSlot k f).decision k'] else []
    rw [hpend, Hash.valuesAt_put]
    by_cases h : k' = k
    · subst h
      rw [if_pos rfl, if_pos (Finset.mem_insert_self ..), hw.valuesAt_of_notMem hn]
      rfl
    · have hne : p.seq k' ≠ p.seq k := by
        rw [ne_eq, seq_inj k'.isLt.le k.isLt.le, ← Fin.ext_iff]
        exact h
      rw [if_neg hne, List.append_nil, hw.gaps_setSlot (f := f) h]
      simp [h]
  · change (p.pGaps.put (p.seq k) _).valuesAt x = []
    have hne : x ≠ p.seq k := hx k
    rw [Hash.valuesAt_put, if_neg hne, hw.rest x hx, List.append_nil]
  · change p.pGaps.hCount + 1 = ((p.setSlot k f).pending j).card
    rw [hpend, Finset.card_insert_of_notMem hn, hw.count]

end decide

end Waiting

/-- Between the steps of a replica: `NextDecide` is in the page and open, and
`SuccessCount` counts the slots before it and the gaps. -/
structure Ordered (p : Replica) (j : ℕ) : Prop extends p.Waiting j where
  lt : j < paxosMax
  open' : ∀ k : K, k.val = j → (p.slot k).pMode ≠ .decided
  total : p.pMulti.pSuccessCount = j + p.pGaps.hCount

end Replica

/-! ### The run of an execution -/

theorem execute_run (seq : UInt32) (d : Value) (c : MetaCmd) (s : Paxos) :
    ∃ o, execute seq d c s = ⟨.ok (), s, o⟩ ∧ executed o = [⟨seq, d, c⟩] ∧ rejected o = [] := by
  unfold execute
  rw [read_bind, bind_of_ok (emit_apply _ _)]
  split
  · exact ⟨_, rfl, rfl, rfl⟩
  · exact ⟨_, rfl, rfl, rfl⟩

/-- The slots from `i` on below `j`. -/
abbrev between (i j : ℕ) : List K := (allK.take j).drop i

theorem between_cons {j : ℕ} {k : K} (hj : k.val < j) :
    between k j = k :: between (k + 1) j := by
  have hlen : k.val < (allK.take j).length := by
    rw [List.length_take, List.length_finRange]
    exact lt_min hj k.isLt
  have hget : (allK.take j)[k.val] = k := by simp
  unfold between
  rw [List.drop_eq_getElem_cons hlen, hget]

/-- `o` executes the slots from `i` on below `j`, all of them decided. -/
structure Executes (p : Replica) (i j : ℕ) (o : List Out) : Prop where
  le : i ≤ j
  decided : ∀ k : K, i ≤ k.val → k.val < j → (p.slot k).pMode = .decided
  out : executed o = (between i j).map p.decision

theorem Executes.nothing (p : Replica) (j : ℕ) {o : List Out} (h : executed o = []) :
    Executes p j j o :=
  ⟨le_rfl, fun k h₁ h₂ => absurd h₁ (by omega), by simp [between, h]⟩

theorem Executes.cons {p : Replica} {k : K} {j : ℕ} {o₁ o : List Out}
    (hm : (p.slot k).pMode = .decided) (h₁ : executed o₁ = [p.decision k])
    (h : Executes p (k + 1) j o) : Executes p k j (o₁ ++ o) where
  le := by have := h.le; omega
  decided := fun k' h₂ h₃ => by
    by_cases hk : k' = k
    · rw [hk, hm]
    · exact h.decided k' (by have := Fin.val_ne_of_ne hk; omega) h₃
  out := by rw [executed_append, h₁, h.out, between_cons h.le, List.map_cons, List.singleton_append]

/-- The loop over the gaps goes on to the next open slot. -/
theorem execGaps_run (n : ℕ) (s : Paxos) (j : ℕ) (hw : s.Waiting j) (hn : s.pGaps.hCount ≤ n) :
    ∃ t o j', execGaps n s = ⟨.ok (), t, o⟩ ∧ Executes s.toReplica j j' o ∧ t.Waiting j' ∧
      (∀ k : K, k.val = j' → (t.slot k).pMode ≠ .decided) ∧
      j' + t.pGaps.hCount = j + s.pGaps.hCount ∧ t.pMulti = s.pMulti ∧ t.pMax = s.pMax ∧
      rejected o = [] := by
  induction n generalizing s j with
  | zero =>
      have hempty : s.pending j = ∅ :=
        Finset.card_eq_zero.mp (hw.count.symm.trans (Nat.le_zero.mp hn))
      refine ⟨s, [], j, rfl, .nothing _ _ rfl, hw, fun k hk hm => ?_, rfl, rfl, rfl, rfl⟩
      have hmem : k ∈ s.pending j := Replica.mem_pending.mpr ⟨hk.ge, hm⟩
      rw [hempty] at hmem
      exact Finset.notMem_empty k hmem
  | succ n ih =>
      unfold execGaps
      rw [read_bind]
      by_cases hopen : ∀ k : K, k.val = j → (s.slot k).pMode ≠ .decided
      · rw [hw.getItem_eq_none hopen]
        exact ⟨s, [], j, rfl, .nothing _ _ rfl, hw, hopen, rfl, rfl, rfl, rfl⟩
      obtain ⟨k, hk, hm⟩ : ∃ k : K, k.val = j ∧ (s.slot k).pMode = .decided := by
        simpa using hopen
      have hdrop := hw.drop hk hm
      have hcount : (s.pGaps.removeItem s.pNextDecide).hCount + 1 = s.pGaps.hCount := by
        have hpos : 0 < s.pGaps.hCount := by
          rw [hw.count]
          exact Finset.card_pos.mpr ⟨k, Replica.mem_pending.mpr ⟨hk.ge, hm⟩⟩
        change s.pGaps.hCount - 1 + 1 = _
        omega
      let s₁ := s.onReplica fun r =>
        { r with pNextDecide := r.pNextDecide + 1, pGaps := r.pGaps.removeItem r.pNextDecide }
      obtain ⟨t, o, j', hrun, hex, hwt, hidle, hsum, hmu, hmax, hrej⟩ :=
        ih s₁ (j + 1) hdrop (by change (s.pGaps.removeItem s.pNextDecide).hCount ≤ n; omega)
      obtain ⟨o₁, hrun₁, hex₁, hrej₁⟩ :=
        execute_run s.pNextDecide (s.decision k).gDecision (s.decision k).gMetaCmd s
      refine ⟨t, o₁ ++ o, j', ?_, ?_, hwt, hidle, ?_, hmu, hmax, by simp [hrej₁, hrej]⟩
      · rw [hw.getItem_eq hk hm]
        change (execute s.pNextDecide (s.decision k).gDecision (s.decision k).gMetaCmd >>= _) s = _
        rw [bind_of_ok hrun₁]
        change Outcome.mk (execGaps n s₁).val (execGaps n s₁).st (o₁ ++ (execGaps n s₁).out) = _
        rw [hrun]
      · rw [← hk] at hex ⊢
        refine .cons hm ?_ ⟨hex.le, hex.decided, hex.out⟩
        rw [hex₁, hw.next, ← hk]
        rfl
      · change j' + t.pGaps.hCount = j + 1 + (s.pGaps.removeItem s.pNextDecide).hCount at hsum
        omega

/-- The report of a request that lost slot `k`, unless the slot is behind
`NextDecide`. -/
def Replica.lost (p : Replica) (j : ℕ) (k : K) : List (UInt32 × MetaCmd) :=
  if j ≤ k.val ∧ (p.slot k).pInitValue.IsDefined ∧
      (p.slot k).pInitValue.vServer ≠ (p.slot k).pRndValue.vServer then
    [(p.seq k, (p.slot k).cMetaCmdInit)]
  else []

section
variable {p : Replica} {s : Paxos} {k : K} {f : Slot → Slot} {j : ℕ}

/-- The part of `ExecUp` that executes or keeps the decision. -/
theorem execEither_run (hs : s.toReplica = p.setSlot k f) (hw : p.Waiting j)
    (ho : ∀ k : K, k.val = j → (p.slot k).pMode ≠ .decided) (hj : j ≤ k.val)
    (hd : (f (p.slot k)).pMode = .decided) (hu : (p.slot k).pMode ≠ .decided) :
    ∃ t o j', (if cmp32 (s.seq k) s.pNextDecide = 0 then execNext k else execLater k) s =
        ⟨.ok (), t, o⟩ ∧ Executes s.toReplica j j' o ∧ t.Waiting j' ∧
      (∀ k : K, k.val = j' → (t.slot k).pMode ≠ .decided) ∧
      j' + t.pGaps.hCount = j + p.pGaps.hCount + 1 ∧ t.pMulti = s.pMulti ∧ t.pMax = s.pMax ∧
      rejected o = [] := by
  have hseq : s.seq k = p.seq k := by rw [hs]; rfl
  have hnext : s.pNextDecide = p.seq j := by rw [hs]; exact hw.next
  have hgaps : s.pGaps = p.pGaps := by rw [hs]; rfl
  have hcmp : cmp32 (s.seq k) s.pNextDecide = 0 ↔ k.val = j := by
    rw [cmp32_eq_zero_iff, hseq, hnext, Replica.seq_inj k.isLt.le hw.le]
  rcases Nat.lt_or_ge j k.val with hlt | hge
  · rw [if_neg (by rw [hcmp]; omega)]
    refine ⟨_, [], j, rfl, .nothing _ _ rfl, ?_, fun k' hk' => ?_, ?_, rfl, rfl, rfl⟩
    · have := hw.parked hd hlt hu
      rw [← hs, ← hgaps, ← hseq] at this
      exact this
    · change (s.slot k').pMode ≠ .decided
      rw [hs, Replica.slot_setSlot_of_ne (by rintro rfl; omega)]
      exact ho k' hk'
    · change j + (s.pGaps.put _ _).hCount = _
      rw [hgaps]
      rfl
  · have hk : k.val = j := by omega
    rw [if_pos (hcmp.mpr hk)]
    let s₁ := s.onReplica fun r =>
      { r with pNextDecide := r.pNextDecide + 1, pbSuppressAccept := false }
    have hw₁ : s₁.Waiting (j + 1) := by
      have hsame : p.pNextDecide = s.pNextDecide := hw.next.trans hnext.symm
      have := hw.passed hd hk hu
      rw [← hs, hsame] at this
      exact this
    obtain ⟨o₁, hrun₁, hex₁, hrej₁⟩ :=
      execute_run (s.seq k) (s.slot k).pRndValue (s.slot k).cMetaCmdRnd s₁
    obtain ⟨t, o, j', hrun, hex, hwt, hidle, hsum, hmu, hmax, hrej⟩ :=
      execGaps_run s.pGaps.hCount s₁ (j + 1) hw₁ le_rfl
    refine ⟨t, o₁ ++ o, j', ?_, ?_, hwt, hidle, ?_, hmu, hmax, by simp [hrej₁, hrej]⟩
    · unfold execNext modReplica
      rw [read_bind, modify_bind, bind_of_ok hrun₁, hrun]
    · rw [← hk] at hex ⊢
      refine .cons ?_ hex₁ ⟨hex.le, hex.decided, hex.out⟩
      rw [hs, Replica.slot_setSlot_self]
      exact hd
    · have : s₁.pGaps.hCount = p.pGaps.hCount := by rw [← hgaps]; rfl
      omega

theorem execUp_run (hs : s.toReplica = p.setSlot k f) (hw : p.Ordered j)
    (hd : (f (p.slot k)).pMode = .decided) (hu : (p.slot k).pMode ≠ .decided) :
    ∃ t o j', execUp k s = ⟨.ok (decide (j ≤ k.val)), t, o⟩ ∧ Executes s.toReplica j j' o ∧
      t.Waiting j' ∧ (∀ k : K, k.val = j' → (t.slot k).pMode ≠ .decided) ∧
      t.pMulti.pSuccessCount = j' + t.pGaps.hCount ∧ (k.val < j → j' = j) ∧
      t.page = s.page ∧ (∀ k, t.slot k = s.slot k) ∧ t.pMax = s.pMax ∧
      rejected o = s.lost j k := by
  let nextK (m : Multi) : Multi := { m with pNextK := max m.pNextK (k + 1) }
  let s₁ := s.onReplica (Replica.setMulti nextK)
  have hs₁ : s₁.toReplica = (p.setMulti nextK).setSlot k f := by
    change s.toReplica.setMulti nextK = _
    rw [hs]
    rfl
  have hnext : s.pNextDecide = p.seq j := by rw [hs]; exact hw.next
  have hseq : s.seq k = p.seq k := by rw [hs]; rfl
  have hcmp : cmp32 (s.seq k) s.pNextDecide = (k.val : ℤ) - j := by
    rw [hseq, hnext]
    have hk : k.val < 10 := k.isLt
    have hj : j < 10 := hw.lt
    exact cmp32_toSeq (by omega) (by omega)
  have hslot (k' : K) (h : k'.val = j) : (p.slot k').pMode ≠ .decided := hw.open' k' h
  rcases Nat.lt_or_ge k.val j with hlt | hge
  · refine ⟨s₁, [], j, ?_, .nothing _ _ rfl, ?_, fun k' hk' => ?_, ?_, fun _ => rfl, rfl,
      fun _ => rfl, rfl, ?_⟩
    · unfold execUp
      change (if cmp32 (s.seq k) s.pNextDecide < 0 then pure false else _ : PaxosM Bool) s₁ = _
      rw [if_pos (by omega), decide_eq_false (by omega)]
      rfl
    · refine (hw.toWaiting.below hd hlt).congr ?_ ?_ ?_ fun k' => ?_
      all_goals rw [hs₁]
      all_goals rfl
    · rw [hs₁, Replica.slot_setSlot_of_ne (by rintro rfl; omega)]
      exact hslot k' hk'
    · rw [hs₁]
      exact hw.total
    · unfold Replica.lost
      rw [if_neg (by omega)]
      rfl
  · have hw₁ : (p.setMulti nextK).Waiting j := hw.toWaiting.congr rfl rfl rfl fun _ => rfl
    obtain ⟨t, o, j', hrun, hex, hwt, hopen, hsum, hmu, hmax, hrej⟩ :=
      execEither_run hs₁ hw₁ hslot hge hd hu
    let note : PaxosM Unit := when ((s.slot k).pInitValue.IsDefined ∧
        (s.slot k).pInitValue.vServer ≠ (s.slot k).pRndValue.vServer) do
      emit (.notify (paxosMode (s.slot k).pInitValue) .rejected (s.seq k)
        (s.slot k).pInitValue.vServer (s.slot k).pInitValue.vEpoch (s.slot k).cMetaCmdInit s.pMyId)
    obtain ⟨o₁, hnote, hex₁, hrej₁⟩ : ∃ o₁, note s₁ = ⟨.ok (), s₁, o₁⟩ ∧ executed o₁ = [] ∧
        rejected o₁ = s.lost j k := by
      unfold note Handler.when Replica.lost
      by_cases hc : (s.slot k).pInitValue.IsDefined ∧
          (s.slot k).pInitValue.vServer ≠ (s.slot k).pRndValue.vServer
      · rw [if_pos hc, if_pos ⟨hge, hc⟩]
        exact ⟨_, rfl, rfl, rfl⟩
      · rw [if_neg hc, if_neg fun h => hc h.2]
        exact ⟨_, rfl, rfl, rfl⟩
    let t₁ := t.onReplica (Replica.setMulti fun m => { m with pSuccessCount := m.pSuccessCount + 1 })
    refine ⟨t₁, o₁ ++ o, j', ?_, ⟨hex.le, hex.decided, ?_⟩, ?_, hopen, ?_,
      fun h => absurd hge (by omega), ?_, ?_, hmax, ?_⟩
    · unfold execUp
      change (if cmp32 (s.seq k) s.pNextDecide < 0 then pure false else do
        note
        (if cmp32 (s₁.seq k) s₁.pNextDecide = 0 then execNext k else execLater k)
        modMulti fun m => { m with pSuccessCount := m.pSuccessCount + 1 }
        pure true : PaxosM Bool) s₁ = _
      rw [if_neg (by omega), decide_eq_true hge, bind_of_ok hnote, bind_of_ok hrun]
      unfold modMulti modReplica
      rw [modify_bind]
      simp [t₁]
    · rw [executed_append, hex₁]
      exact hex.out
    · exact hwt.congr rfl rfl rfl fun _ => rfl
    · change t.pMulti.pSuccessCount + 1 = j' + t.pGaps.hCount
      have htot : s₁.pMulti.pSuccessCount = j + p.pGaps.hCount := by
        rw [hs₁]
        exact hw.total
      rw [hmu, htot]
      change _ = j + p.pGaps.hCount + 1 at hsum
      omega
    · change t.pMulti.pPage = s.page
      rw [hmu]
      rfl
    · intro k'
      change t.pMulti.slots k' = s.slot k'
      rw [hmu]
      rfl
    · rw [rejected_append, hrej₁, hrej, List.append_nil]

/-- The page stays and its slots too, or it is through and the next begins. -/
def SamePage (s t : Replica) (j : ℕ) : Prop :=
  t.Ordered j ∧ t.page = s.page ∧ ∀ k, t.slot k = s.slot k

def TurnedPage (s t : Replica) : Prop :=
  t.Ordered 0 ∧ t.pGaps.hCount = 0 ∧ t.page = s.page + 1 ∧
    ∀ k, t.slot k = { pRndAccQuo := quorumInit s.pMax }

theorem updatePage_open {e : Env} {t : Paxos} (h : t.pMulti.pSuccessCount < paxosMax) :
    updatePage e t = ⟨.ok (), t, []⟩ := by
  unfold updatePage
  rw [read_bind, if_pos h]
  rfl

theorem updatePage_turned {e : Env} {t : Paxos} (hw : t.Waiting paxosMax)
    (h : ¬ t.pMulti.pSuccessCount < paxosMax) :
    ∃ u, updatePage e t = ⟨.ok (), u, []⟩ ∧ TurnedPage t.toReplica u.toReplica := by
  obtain ⟨lnk, -, hput⟩ := putPage_lnk e t
  refine ⟨_, updatePage_run h, ?_⟩
  rw [Paxos.onReplica_toReplica, hput]
  have hzero := hw.zero_of_end
  have hpend (q : Replica) (hq : ∀ k, (q.slot k).pMode = .none) : q.pending 0 = ∅ := by
    ext k
    simp [Replica.mem_pending, hq]
  refine ⟨⟨⟨?_, by simp, fun k => ?_, fun x _ => hw.empty_of_zero hzero x, ?_⟩, by simp,
    fun k _ => nofun, ?_⟩, hzero, rfl, fun k => rfl⟩
  · change t.pNextDecide = toSeq (t.page + 1) 0
    rw [hw.next, ← toSeq_turn]
    rfl
  · rw [hpend _ fun _ => rfl, if_neg (Finset.notMem_empty k)]
    exact hw.empty_of_zero hzero _
  · rw [hpend _ fun _ => rfl]
    exact hzero
  · exact (Nat.zero_add _).symm ▸ hzero.symm

theorem exec_run {e : Env} (hs : s.toReplica = p.setSlot k f) (hw : p.Ordered j)
    (hd : (f (p.slot k)).pMode = .decided) (hu : (p.slot k).pMode ≠ .decided)
    (hc : ¬ (f (p.slot k)).cMetaCmdRnd.IsEmpty) :
    ∃ t o j', exec k e s = ⟨.ok (), t, o⟩ ∧ Executes s.toReplica j j' o ∧
      rejected o = s.lost j k ∧
      (SamePage s.toReplica t.toReplica j' ∨
        j' = paxosMax ∧ TurnedPage s.toReplica t.toReplica) := by
  have hc' : ¬ (s.slot k).cMetaCmdRnd.IsEmpty := by
    rw [hs, Replica.slot_setSlot_self]
    exact hc
  obtain ⟨s₁, hs₁, hrun₁⟩ : ∃ s₁ : Paxos, s₁.toReplica = s.toReplica ∧
      exec k e s = (execUp k >>= fun done => when (done = true) (updatePage e)) s₁ := by
    unfold exec Handler.when
    rw [read_bind, require_of hc', pure_bind']
    split
    · exact ⟨{ s with pIssuedLast := 0, pCatchupNextDecide := s.pIssuedSeq + 1 }, rfl, rfl⟩
    · exact ⟨s, rfl, rfl⟩
  obtain ⟨t, o, j', hup, hex, hwt, hopen, htot, hbelow, hpage, hslot, hmax, hrej⟩ :=
    execUp_run (hs₁.trans hs) hw hd hu
  rw [hs₁] at hpage hslot hex hrej hmax
  rw [hrun₁, bind_of_ok hup]
  have hsame (hlt : j' < paxosMax) : SamePage s.toReplica t.toReplica j' :=
    ⟨⟨hwt, hlt, hopen, htot⟩, hpage, hslot⟩
  rcases Nat.lt_or_ge k.val j with hlt | hge
  · refine ⟨t, o, j', ?_, hex, hrej, .inl (hsame ?_)⟩
    · simp [Handler.when, Nat.not_le.mpr hlt]
    · rw [hbelow hlt]
      exact hw.lt
  · have hdone : when (decide (j ≤ k.val) = true) (updatePage e) = updatePage e := by
      rw [decide_eq_true hge]
      rfl
    rw [hdone]
    by_cases hlt : t.pMulti.pSuccessCount < paxosMax
    · rw [updatePage_open hlt]
      refine ⟨t, o, j', by simp, hex, hrej, .inl (hsame ?_)⟩
      omega
    · have hend : j' = paxosMax := by
        rcases Nat.lt_or_ge j' paxosMax with h | h
        · have := hwt.card_lt h hopen
          omega
        · exact le_antisymm hwt.le h
      obtain ⟨u, hrun, hord, hz, hpg, hsl⟩ := updatePage_turned (e := e) (hend ▸ hwt) hlt
      rw [hrun]
      refine ⟨u, o, j', by simp, hex, hrej, .inr ⟨hend, hord, hz, hpg.trans ?_, fun k' => ?_⟩⟩
      · rw [hpage]
      · rw [hsl, hmax]

end

end PaxosSolutions
