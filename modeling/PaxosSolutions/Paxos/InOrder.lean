import PaxosSolutions.Paxos.Decide

/-!
# Nothing is skipped

Over a whole life the executed sequence numbers are consecutive, and a page is
left only when all of its commands are executed.
-/
namespace PaxosSolutions
open NWGadget Lib

theorem length_between {i j : ℕ} (hj : j ≤ paxosMax) : (between i j).length = j - i := by
  simp [between, Nat.min_eq_left hj]

theorem getElem?_between {i j n : ℕ} (hj : j ≤ paxosMax) (hn : n < j - i) :
    (between i j)[n]? = some ⟨i + n, by omega⟩ := by
  simp only [between, List.getElem?_drop]
  rw [List.getElem?_take_of_lt (by omega), List.getElem?_eq_getElem (by simp; omega)]
  simp

theorem Replica.seq_add (p : Replica) (j n : ℕ) : p.seq (j + n) = p.seq j + n.toUInt32 := by
  unfold Replica.seq toSeq
  simp only [Nat.toUInt32]
  rw [UInt32.ofNat_add, UInt32.add_assoc]

section Executes
variable {p : Replica} {i j : ℕ} {o : List Out}

theorem Executes.length (h : Executes p i j o) (hj : j ≤ paxosMax) :
    (executed o).length = j - i := by
  rw [h.out, List.length_map, length_between hj]

theorem Executes.get (h : Executes p i j o) (hj : j ≤ paxosMax) {k : K} (hi : i ≤ k.val)
    (hk : k.val < j) : (executed o)[k.val - i]? = some (p.decision k) := by
  rw [h.out, List.getElem?_map, getElem?_between hj (by omega)]
  simp [Nat.add_sub_cancel' hi]

theorem Executes.seqs (h : Executes p i j o) (hj : j ≤ paxosMax) :
    (executed o).map (·.gSeq) = (List.range (j - i)).map fun n => p.seq i + n.toUInt32 := by
  rw [h.out, List.map_map]
  refine List.ext_getElem? fun n => ?_
  rcases Nat.lt_or_ge n (j - i) with hn | hn
  · rw [List.getElem?_map, getElem?_between hj hn, List.getElem?_map,
      List.getElem?_range hn]
    simp [Replica.decision, Replica.seq_add]
  · rw [List.getElem?_eq_none (by rwa [List.length_map, length_between hj]),
      List.getElem?_eq_none (by rwa [List.length_map, List.length_range])]

end Executes

/-- The state with the events so far, `NextDecide` having begun at `n`: the
executed sequence numbers are consecutive, and the last of them are those of
the page. -/
structure InOrder (n : UInt32) (o : List Out) (p : Replica) (j : ℕ) : Prop extends p.Ordered j where
  seqs : (executed o).map (·.gSeq) =
    (List.range (executed o).length).map fun i => n + i.toUInt32
  reached : p.pNextDecide = n + (executed o).length.toUInt32
  before : ∀ k : K, k.val < j → j - k ≤ (executed o).length →
    (p.slot k).pMode = .decided ∧
      (executed o)[(executed o).length - (j - k)]? = some (p.decision k)

/-- The events up to `ex` leave page `p` for `p'` with nothing of it left. -/
structure PageThrough (p p' : Replica) (ex : List Gap) : Prop where
  page : p'.page = p.page + 1
  next : p'.pNextDecide = toSeq p'.page 0
  count : p'.pGaps.hCount = 0
  gaps : ∀ x, p'.pGaps.getItem x = none
  all : ∀ k : K, paxosMax - k ≤ ex.length → ∃ g, ex[ex.length - (paxosMax - k)]? = some g ∧
    g.gSeq = p.seq k ∧ ((p.slot k).pMode = .decided → g = p.decision k)

namespace InOrder
variable {n : UInt32} {o o' : List Out} {p p' : Replica} {j : ℕ}

theorem calm (h : InOrder n o p j) (hc : p.Calm p') (ho : ∀ x ∈ o', x.Plain) :
    InOrder n (o ++ o') p' j := by
  have hex : executed (o ++ o') = executed o := by
    rw [executed_append, executed_of_plain ho, List.append_nil]
  have hseq (i : ℕ) : p'.seq i = p.seq i := by rw [Replica.seq, hc.page]; rfl
  have hmode (k : K) : (p'.slot k).pMode = .decided ↔ (p.slot k).pMode = .decided :=
    (hc.slot k).mode
  have hpend : p'.pending j = p.pending j := by
    ext k
    rw [Replica.mem_pending, Replica.mem_pending, hmode]
  have hdec {k : K} (hk : (p.slot k).pMode = .decided) : p'.decision k = p.decision k := by
    obtain ⟨hv, hcmd⟩ := (hc.slot k).keep hk
    rw [Replica.decision, Replica.decision, hseq, hv, hcmd]
  refine ⟨⟨⟨?_, h.le, fun k => ?_, fun x hx => ?_, ?_⟩, h.lt, fun k hk hm => ?_, ?_⟩, ?_, ?_,
    fun k hk hl => ?_⟩
  · rw [hc.next, h.next, hseq]
  · rw [hc.gaps, hseq, hpend, h.gaps k]
    by_cases hk : k ∈ p.pending j
    · rw [if_pos hk, if_pos hk, hdec (Replica.mem_pending.mp hk).2]
    · rw [if_neg hk, if_neg hk]
  · rw [hc.gaps]
    exact h.rest x fun k => hseq k ▸ hx k
  · rw [hc.gaps, hpend, h.count]
  · exact h.open' k hk ((hmode k).mp hm)
  · rw [hc.count, hc.gaps, h.total]
  · rw [hex, h.seqs]
  · rw [hc.next, hex, h.reached]
  · rw [hex] at hl ⊢
    obtain ⟨hm, hg⟩ := h.before k hk hl
    exact ⟨(hmode k).mpr hm, by rw [hg, hdec hm]⟩

/-- One decision goes on in order, and what it leaves is through. -/
theorem decides {k : K} {f : Slot → Slot} (h : InOrder n o p j) (hd : Decides k f p o' p') :
    ∃ j', Executes (p.setSlot k f) j j' o' ∧ rejected o' = (p.setSlot k f).lost j k ∧
      ((InOrder n (o ++ o') p' j' ∧ p'.page = p.page ∧
          ∀ k', p'.slot k' = (p.setSlot k f).slot k') ∨
        j' = paxosMax ∧ InOrder n (o ++ o') p' 0 ∧ PageThrough p p' (executed (o ++ o')) ∧
          ∀ k', p'.slot k' = freeSlot p.pMax) := by
  obtain ⟨s, e, hs, hv, rfl, rfl⟩ := hd.run
  obtain ⟨t, o', j', hrun, hex, hrej, hend⟩ :=
    exec_run (e := e) hs h.toOrdered hd.mode hd.open' hd.cmd
  rw [hrun] at hv ⊢
  refine ⟨j', hs ▸ hex, hs ▸ hrej, ?_⟩
  have hj' : j' ≤ paxosMax := by
    rcases hend with hsame | ⟨hj', -⟩
    · exact hsame.1.le
    · exact hj'.le
  have hlen : (executed (o ++ o')).length = (executed o).length + (j' - j) := by
    rw [executed_append, List.length_append, hex.length hj']
  have hpage : s.page = p.page := by rw [hs]; rfl
  have hsj : s.seq j = n + (executed o).length.toUInt32 := by
    rw [← h.reached, h.next, Replica.seq, hpage]
    rfl
  have hseqs : (executed (o ++ o')).map (·.gSeq) =
      (List.range (executed (o ++ o')).length).map fun i => n + i.toUInt32 := by
    rw [hlen, executed_append, List.map_append, h.seqs, hex.seqs hj', List.range_add,
      List.map_append, List.map_map, hsj]
    congr 2
    funext i
    simp only [Function.comp_apply, Nat.toUInt32]
    rw [UInt32.ofNat_add, UInt32.add_assoc]
  have hreached : s.seq j' = n + (executed (o ++ o')).length.toUInt32 := by
    have : s.seq j' = s.seq (j + (j' - j)) := by rw [Nat.add_sub_cancel' hex.le]
    rw [this, Replica.seq_add, hsj, hlen]
    simp only [Nat.toUInt32]
    rw [UInt32.ofNat_add, UInt32.add_assoc]
  -- every slot below `j'` that is not before the start is among the last executed
  have hbefore (k' : K) (hk : k'.val < j') (hl : j' - k' ≤ (executed (o ++ o')).length) :
      (s.slot k').pMode = .decided ∧
        (executed (o ++ o'))[(executed (o ++ o')).length - (j' - k')]? = some (s.decision k') := by
    rw [hlen] at hl ⊢
    rw [executed_append]
    rcases Nat.lt_or_ge k'.val j with hlt | hge
    · have hle := hex.le
      obtain ⟨hm, hg⟩ := h.before k' hlt (by omega)
      have hne : k' ≠ k := by
        rintro rfl
        exact hd.open' hm
      have hslot : s.slot k' = p.slot k' := by rw [hs, Replica.slot_setSlot_of_ne hne]
      refine ⟨by rw [hslot, hm], ?_⟩
      rw [List.getElem?_append_left (by omega), Replica.decision, Replica.seq, hpage, hslot]
      have : (executed o).length + (j' - j) - (j' - k') = (executed o).length - (j - k') := by omega
      rw [this, hg]
      rfl
    · refine ⟨hex.decided k' hge hk, ?_⟩
      rw [List.getElem?_append_right (by omega), ← hex.get hj' hge hk]
      congr 1
      omega
  rcases hend with ⟨hord, hpg, hslots⟩ | ⟨rfl, hord, hz, hpg, hslots⟩
  · refine .inl ⟨⟨hord, hseqs, ?_, fun k' hk hl => ?_⟩, hpg.trans hpage, fun k' => ?_⟩
    · rw [hord.next, Replica.seq, hpg]
      exact hreached
    · obtain ⟨hm, hg⟩ := hbefore k' hk hl
      rw [hslots, hg, Replica.decision, Replica.decision, hslots, Replica.seq, Replica.seq, hpg]
      exact ⟨hm, rfl⟩
    · rw [hslots, hs]
  · refine .inr ⟨rfl, ⟨hord, hseqs, ?_, fun k' hk => absurd hk (by omega)⟩,
      ⟨hpg.trans (by rw [hpage]), hord.next, hz, fun x => ?_, fun k' hl => ?_⟩, fun k' => ?_⟩
    · rw [hord.next, ← hreached, Replica.seq, hpg, ← toSeq_turn]
      rfl
    · exact hord.toWaiting.getItem_of_zero hz x
    · obtain ⟨hm, hg⟩ := hbefore k' k'.isLt hl
      refine ⟨_, hg, by rw [Replica.decision, Replica.seq, hpage]; rfl, fun hm => ?_⟩
      have hne : k' ≠ k := by
        rintro rfl
        exact hd.open' hm
      rw [Replica.decision, Replica.decision, Replica.seq, hpage, hs,
        Replica.slot_setSlot_of_ne hne]
      rfl
    · rw [hslots, hs]
      rfl

end InOrder

/-! ### Runs -/

/-- The page of `ρ` with its decisions. -/
structure Stays (ρ p : Replica) : Prop where
  page : p.page = ρ.page
  slot : ∀ k, (ρ.slot k).pMode = .decided →
    (p.slot k).pMode = .decided ∧ p.decision k = ρ.decision k

/-- The page after that of `ρ`, without a proposal yet. -/
structure Left (ρ p : Replica) (ex : List Gap) : Prop extends PageThrough ρ p ex where
  fresh : ∀ k, (p.slot k).pMode = .none ∧ (p.slot k).pSuppressed = false

theorem Stays.calm {ρ p p' : Replica} (h : Stays ρ p) (hc : p.Calm p') : Stays ρ p' := by
  refine ⟨hc.page.trans h.page, fun k hk => ?_⟩
  obtain ⟨hm, hdec⟩ := h.slot k hk
  obtain ⟨hv, hcmd⟩ := (hc.slot k).keep hm
  refine ⟨(hc.slot k).mode.mpr hm, ?_⟩
  rw [← hdec, Replica.decision, Replica.decision, Replica.seq, Replica.seq, hc.page, hv, hcmd]

theorem Left.calm {ρ p p' : Replica} {ex : List Gap} (h : Left ρ p ex) (hc : p.Calm p')
    (hf : ∀ k, (p'.slot k).pMode = .none ∧ (p'.slot k).pSuppressed = false) : Left ρ p' ex :=
  ⟨⟨hc.page.trans h.page, by rw [hc.next, hc.page, h.next], hc.gaps ▸ h.count,
    fun x => hc.gaps ▸ h.gaps x, h.all⟩, hf⟩

/-- A page that was just begun stays without a proposal to the end of the step. -/
theorem Move.fresh {ρ : Paxos} {i : Input} {e : Env} {p p' : Replica} {o : List Out}
    (h : Move ρ i e p o p') (hpage : p.page ≠ ρ.page)
    (hf : ∀ k, (p.slot k).pMode = .none ∧ (p.slot k).pSuppressed = false) :
    p.Calm p' ∧ (∀ x ∈ o, x.Plain) ∧
      ∀ k, (p'.slot k).pMode = .none ∧ (p'.slot k).pSuppressed = false := by
  have hnone {k : K} {m : StepMode} (hm : (p.slot k).pMode = m) (hne : m ≠ .none) : False :=
    hne (hm.symm.trans (hf k).1)
  cases h with
  | quiet h => exact ⟨.refl p, by simpa using h.plain, hf⟩
  | tellOld | tellDecided | requestFail | replyOk | tellLast => exact ⟨.refl p, by simp [Out.Plain], hf⟩
  | newRound _ hp | old _ hp | promise _ hp | gather _ hp | recast _ hp | takeCmd _ hp
  | learn _ hp | store _ hp | request _ hp | requestSole _ hp =>
      exact absurd (congrArg Replica.page hp) hpage
  | win _ hp => exact absurd (congrArg Replica.page hp) hpage
  | addAcc _ _ _ hm | decide _ _ _ hm | sole _ _ hm | soleFail _ _ hm => exact (hnone hm (by simp)).elim
  | @release k _ hs => exact absurd (hf k).2 (by rw [hs]; decide)
  | winSole =>
      have hslot (k : K) : p.pMulti.win.slots k = p.slot k := if_neg fun h => h.1 (hf k).1
      refine ⟨⟨rfl, rfl, rfl, rfl, rfl, rfl, fun k => Multi.win_calm k⟩, by simp, fun k => ?_⟩
      change (p.pMulti.win.slots k).pMode = .none ∧ (p.pMulti.win.slots k).pSuppressed = false
      rw [hslot]
      exact hf k

/-- One step of a replica goes on in order. A new page begins only when the
old one is through. -/
theorem moves_inOrder {n : UInt32} {o₀ o : List Out} {ρ : Paxos} {i : Input} {e : Env}
    {p : Replica} {j : ℕ} (h₀ : InOrder n o₀ ρ.toReplica j)
    (h : Moves ρ i e ρ.toReplica o p) :
    (∃ j, InOrder n (o₀ ++ o) p j) ∧
      (Stays ρ.toReplica p ∨ Left ρ.toReplica p (executed (o₀ ++ o))) := by
  refine h.invariant (I := fun o p => (∃ j, InOrder n (o₀ ++ o) p j) ∧
    (Stays ρ.toReplica p ∨ Left ρ.toReplica p (executed (o₀ ++ o)))) ?_ ?_
  · rw [List.append_nil]
    exact ⟨⟨j, h₀⟩, .inl ⟨rfl, fun _ hk => ⟨hk, rfl⟩⟩⟩
  rintro o p o' p' ⟨⟨j, hord⟩, hpage⟩ hmove
  rw [← List.append_assoc]
  rcases hpage with hs | hl
  swap
  · have hne : p.page ≠ ρ.page := by
      rw [hl.page]
      simp
    obtain ⟨hc, ho, hf⟩ := hmove.fresh hne hl.fresh
    refine ⟨⟨j, hord.calm hc ho⟩, .inr ?_⟩
    rw [executed_append, executed_of_plain ho, List.append_nil]
    exact hl.calm hc hf
  rcases hmove.calm_or_decides with ⟨hc, ho⟩ | ⟨k, f, o₁, o₂, rfl, ho₁, hd⟩
  · exact ⟨⟨j, hord.calm hc ho⟩, .inl (hs.calm hc)⟩
  · have hord₁ := hord.calm (.refl p) ho₁
    rw [← List.append_assoc]
    obtain ⟨j', -, -, ⟨hj', hpg, hslot⟩ | ⟨-, hj', hthrough, hslot⟩⟩ := hord₁.decides hd
    · refine ⟨⟨j', hj'⟩, .inl ⟨hpg.trans hs.page, fun k' hk' => ?_⟩⟩
      obtain ⟨hm, hdec⟩ := hs.slot k' hk'
      have hne : k' ≠ k := by
        rintro rfl
        exact hd.open' hm
      rw [hslot, Replica.slot_setSlot_of_ne hne]
      refine ⟨hm, ?_⟩
      rw [← hdec, Replica.decision, Replica.decision, Replica.seq, Replica.seq, hpg, hslot,
        Replica.slot_setSlot_of_ne hne]
    · refine ⟨⟨0, hj'⟩, .inr ⟨⟨hthrough.page.trans (by rw [hs.page]), hthrough.next,
        hthrough.count, hthrough.gaps, fun k' hl => ?_⟩, fun k' => by rw [hslot]; exact ⟨rfl, rfl⟩⟩⟩
      obtain ⟨g, hg, hseq, hdec⟩ := hthrough.all k' hl
      refine ⟨g, hg, hseq.trans (by rw [Replica.seq, Replica.seq, hs.page]), fun hk' => ?_⟩
      obtain ⟨hm, hdec'⟩ := hs.slot k' hk'
      rw [← hdec', hdec hm]

theorem toSeq_toPage (x : UInt32) : toSeq (toPage x) (toK x) = x := by
  have hx := x.toNat_lt
  unfold toSeq toPage toK
  rw [← UInt32.toNat_inj]
  simp only [UInt32.toNat_add, UInt32.toNat_mul, UInt32.toNat_div, Nat.toUInt32]
  rw [UInt32.toNat_ofNat_of_lt' (by simp only [UInt32.size]; omega)]
  change (x.toNat / 10 * 10 % 2 ^ 32 + x.toNat % 10) % 2 ^ 32 = x.toNat
  omega

theorem start_inOrder (mode : StartMode) (first : UInt32) (id core extension : ℕ)
    (active : ℕ → Bool) (usec : ℤ) (e : Env) :
    ∃ j, InOrder (paxosStart mode first (paxosInit id core extension active usec e)).pNextDecide []
      (paxosStart mode first (paxosInit id core extension active usec e)).toReplica j := by
  let s := paxosStart mode first (paxosInit id core extension active usec e)
  have hnone (k : K) : (s.slot k).pMode = .none := by cases mode <;> rfl
  have hgaps : s.pGaps = Hash.init 11 UInt32.toNat := by cases mode <;> rfl
  have hpend (j : ℕ) : s.pending j = ∅ := by
    ext k
    simp [Replica.mem_pending, hnone]
  obtain ⟨j, hj, hnext, hcount⟩ : ∃ j < paxosMax, s.pNextDecide = s.seq j ∧
      s.pMulti.pSuccessCount = j := by
    cases mode with
    | noSeq => exact ⟨0, by decide, rfl, rfl⟩
    | wait => exact ⟨0, by decide, rfl, rfl⟩
    | seq => exact ⟨toK first, (toK first).isLt, (toSeq_toPage first).symm, rfl⟩
  refine ⟨j, ⟨⟨hnext, hj.le, fun k => ?_, fun x _ => ?_, ?_⟩, hj, fun k _ => ?_, ?_⟩, rfl, ?_,
    fun k hk hl => absurd hl (by simp [executed]; omega)⟩
  · rw [hpend, if_neg (Finset.notMem_empty k), hgaps, Hash.valuesAt_init]
  · rw [hgaps, Hash.valuesAt_init]
  · rw [hpend, hgaps]
    rfl
  · rw [hnone]
    decide
  · rw [hcount, hgaps]
    rfl
  · simp [executed]

/-- A single server that begins with the last but one slot of a page. -/
def soleStart : Paxos := paxosStart .seq 8 (paxosInit 0 1 0 (fun _ => true) 20000 {})

/-- It takes its round and executes a request. -/
abbrev soleRound : Outcome Paxos Out Fault Unit := handle .detector {} soleStart
abbrev soleFirst : Outcome Paxos Out Fault Unit := handle (.request [98] false) {} soleRound.st

theorem sole_life :
    Life (fun _ _ _ => True) soleStart ([] ++ soleRound.out ++ soleFirst.out) (some soleFirst.st) :=
  .step (.step .start trivial rfl) trivial rfl

end PaxosSolutions
