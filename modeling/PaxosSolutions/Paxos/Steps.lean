import PaxosSolutions.Paxos.Casts

/-!
# Every step is a row of moves

The remaining handlers and the dispatcher. The result is `handle_goes`: what a
step of a replica puts out and leaves is what its moves put out and leave.
-/
namespace PaxosSolutions
open NWGadget Lib Lib.Handler

section
variable {ρ : Paxos} {i : Input} {e : Env}

/-! ### A single core server -/

/-- One core server in its round. -/
abbrev Sole (s : Paxos) : Prop := s.pMax = 1 ∧ s.aMode = .beginCast

theorem beginCast_sole {k : K} (hi : Casts i) :
    Does (Goes ρ i e) Sole (beginCast k e) fun _ => Sole := by
  intro s hs
  obtain ⟨hN, ha⟩ := hs
  by_cases hm : (s.slot k).pMode = .beginCast
  swap
  · rw [beginCast_idle hm]
    exact ⟨fun _ _ => ⟨Runs.refl _, hN, ha⟩, fun e he => (by cases he)⟩
  by_cases hc : CanCast s.toReplica k
  swap
  · rw [beginCast_error hm hc]
    exact ⟨fun _ h => (by cases h), fun _ _ => ⟨s, Runs.refl _⟩⟩
  let w := (castAt k e s).onReplica (Replica.setSlot k Slot.win)
  have hw : w.toReplica = s.toReplica.setSlot k fun x =>
      (x.cast s.pMyId s.curRnd (addUsec e.now s.dtSuccess)
        (ownAccept s ∧ x.pRndValue.vFrom = s.pMyId)).win := Replica.setSlot_setSlot ..
  have hslot : w.slot k = ((s.slot k).cast s.pMyId s.curRnd (addUsec e.now s.dtSuccess)
        (ownAccept s ∧ (s.slot k).pRndValue.vFrom = s.pMyId)).win := by
    rw [hw, Replica.slot_setSlot_self]
  have hcmd : (w.slot k).cMetaCmdRnd = (s.slot k).cMetaCmdRnd := by
    rw [hslot]
    unfold Slot.win Slot.cast Slot.vote
    split <;> rfl
  have hrun : beginCast k e s = ⟨(exec k e w).val, (exec k e w).st,
      castOuts s k ++ ownMark s.toReplica k s.curRnd :: (exec k e w).out⟩ := by
    unfold beginCast
    rw [read_bind, if_neg (not_not.mpr hm), bind_of_ok (castOrRedirect_run hc)]
    unfold modSlot modReplica Handler.when
    rw [modify_bind, if_pos hN, castAt_eq, bind_of_ok (emit_apply _ _), modify_bind]
    rfl
  rw [hrun]
  by_cases hempty : (s.slot k).cMetaCmdRnd.IsEmpty
  · rw [exec_error (by rwa [hcmd])]
    refine ⟨fun _ h => (by cases h), fun _ _ => ⟨s, .single (.soleFail (k := k)
      (w := ownAccept s) hi hN hm hempty fun x hx => ?_)⟩⟩
    rcases List.mem_append.mp hx with hx | hx
    · exact .inl (mem_castOuts hc hx)
    · exact .inr (List.mem_singleton.mp hx)
  · obtain ⟨o, t, hx, he⟩ := exec_ok (k := k) (s := w) (by rwa [hcmd]) e
    rw [hx]
    have hd : (w.slot k).pMode = .decided := by rw [hslot]; rfl
    refine ⟨fun _ _ => ⟨.single ?_, ?_⟩, fun _ h => (by cases h)⟩
    · rw [hw] at he
      exact .sole hi hN hm ha hempty (fun x hx => mem_castOuts hc hx) he
    · obtain ⟨-, h₂, -, h₄, -⟩ := he.frame hd
      exact ⟨h₂.trans hN, h₄.trans ha⟩

/-! ### The replies to a collection -/

theorem winCast_eq (me : ℕ) (d : ℤ) (own : Bool) (m : Multi) :
    m.win.castSome me d own allK = m.winCast me d own allK := by
  unfold Multi.castSome Multi.winCast
  congr 1
  funext k
  by_cases hs : (m.slots k).Open
  · have hw : m.win.slots k = { m.slots k with pMode := .beginCast } := if_pos hs
    simp only [hw, hs, List.mem_finRange, and_self, if_true]
    unfold Slot.cast
    split <;> rfl
  · have hw : m.win.slots k = m.slots k := if_neg hs
    have hm : ¬ ((m.slots k).pMode = .beginCast ∧ k ∈ allK) := by
      rintro ⟨h, -⟩
      exact hs ⟨by rw [h]; decide, by rw [h]; decide⟩
    simp only [hw, hs, hm, if_false]

theorem gatherLast_goes {fr : ℕ} {m : MsgLast} (hi : i = .recv fr (.last m)) :
    Does (Goes ρ i e) (fun s => s = ρ) (gatherLast fr m e) fun _ _ => True := by
  have hR := goes_compositional (ρ := ρ) (i := i) (e := e)
  refine Does.read fun s hs => ?_
  obtain rfl : ρ = s := hs.symm
  refine Does.ite (fun _ => Does.pure hR fun _ _ => trivial) fun ha => ?_
  refine Does.ite (fun _ => Does.pure hR fun _ _ => trivial) fun hr => ?_
  have ha := not_not.mp ha
  have hr := not_not.mp hr
  rw [← bind_assoc]
  refine Does.bind hR (Q := fun _ t => t.toReplica = ρ.toReplica.setMulti (Multi.gather fr m) ∧
    (t.AcceptsOwn ↔ ρ.AcceptsOwn)) (Does.of_run ?_) fun _ => ?_
  · intro v hv
    rw [hv]
    obtain ⟨t, o, hrun, hacc, hq, ht⟩ := gather_run (f := fr) (m := m) (e := e) ρ
    refine ⟨(), o, t, hrun, ?_, ht, hacc⟩
    have := (moves_quiet (ρ := ρ) (i := i) (e := e) hq).trans (.single (.gather hi rfl ha hr))
    unfold Goes
    rw [ht]
    simpa using this
  refine Does.read fun u hu => ?_
  obtain ⟨hu, hacc⟩ := hu
  refine Does.when hR (fun hq => ?_) fun _ _ _ => trivial
  let w : Paxos := { u.onReplica (Replica.setMulti Multi.win) with
    pElection := { u.pElection with eNewRndStart := false } }
  have hstart (x : PaxosM Unit) : (do
      Handler.modify fun p : Paxos =>
        { p with pElection := { p.pElection with eNewRndStart := false } }
      modMulti Multi.win
      x) u = x w := rfl
  intro v hv
  rw [hv, hstart]
  by_cases hN : u.pMax = 1
  · have hsole := Does.each hR (f := fun k => beginCast k e) (l := allK) fun k _ =>
      beginCast_sole (ρ := ρ) (i := i) (e := e) (k := k) (.inl ⟨fr, m, hi⟩)
    have hmove : Goes ρ i e u [] w := .single (.winSole hi hN (by rw [hu]; exact ha))
    obtain ⟨h₁, h₂⟩ := hsole w ⟨hN, rfl⟩
    refine ⟨fun a h => ⟨hR.trans hmove (h₁ a h).1, trivial⟩, fun er h => ?_⟩
    obtain ⟨t, ht⟩ := h₂ er h
    exact ⟨t, hR.trans hmove ht⟩
  · obtain ⟨ks, o, ho, ho', hrun⟩ := each_beginCast (e := e) allK w hN
    have hwopen (k : K) : (w.slot k).pMode = .beginCast ↔ (u.slot k).Open := by
      change (u.pMulti.win.slots k).pMode = .beginCast ↔ (u.slot k).Open
      unfold Multi.win
      simp only []
      split
      · next h => exact ⟨fun _ => h, fun _ => rfl⟩
      · next h =>
          refine ⟨fun h' => absurd ?_ h, fun h' => absurd h' h⟩
          rw [h']
          decide
    have hwval (k : K) : (w.slot k).pRndValue = (u.slot k).pRndValue ∧
        (w.slot k).cMetaCmdRnd = (u.slot k).cMetaCmdRnd := by
      change (u.pMulti.win.slots k).pRndValue = _ ∧ (u.pMulti.win.slots k).cMetaCmdRnd = _
      unfold Multi.win
      simp only []
      split <;> exact ⟨rfl, rfl⟩
    have hmove : Move ρ i e u.toReplica o (u.toReplica.setMulti
        (Multi.winCast u.pMyId (addUsec e.now u.dtSuccess) (ownAccept w) ks)) := by
      refine .win hi hu (by rw [hu]; exact ha) (by rw [hu]; exact hr) hq ?_ (fun x hx => ?_)
        fun k hk hopen hf hown => ?_
      · change decide (u.AcceptsOwn ∧ u.pMyId < u.pMax) = true ↔ _
        rw [decide_eq_true_eq, hacc]
      · obtain ⟨k, hk, hm, hx⟩ := ho x hx
        exact ⟨k, hk, (hwopen k).mp hm, hx.congr (hwval k).1.symm (hwval k).2.symm
          ⟨rfl, rfl, rfl, rfl⟩⟩
      · have := ho' k hk ((hwopen k).mpr hopen) ((hwval k).1 ▸ hf) hown
        unfold ownMark at this ⊢
        rwa [(hwval k).1, (hwval k).2] at this
    rcases hrun with ⟨h, hks⟩ | ⟨t, h⟩
    · rw [h]
      refine ⟨fun _ _ => ⟨.single ?_, trivial⟩, fun _ h => (by cases h)⟩
      subst hks
      convert hmove using 1
      exact congrArg (fun m => { u.toReplica with pMulti := m }) (winCast_eq ..)
    · rw [h]
      refine ⟨fun _ h => (by cases h), fun _ _ => ⟨u.onReplica (Replica.setMulti
        (Multi.winCast u.pMyId (addUsec e.now u.dtSuccess) (ownAccept w) ks)), .single hmove⟩⟩

/-! ### The other handlers of the leader -/

theorem beginCastRedirect_goes {fr : ℕ} {m : MsgBegin} (hi : i = .recv fr (.beginRedirect m)) :
    Does (Goes ρ i e) (At ρ.toReplica) (beginCastRedirect m e) fun _ _ => True := by
  have hR := goes_compositional (ρ := ρ) (i := i) (e := e)
  refine Does.read fun s hs => ?_
  refine Does.bind hR (Q := fun _ t => t.toReplica = ρ.toReplica ∧ s.page = m.bPage)
    (Does.require hR fun t ht hp => ⟨ht ▸ hs, hp⟩) fun _ => ?_
  refine Does.bind hR (Q := fun _ t => t.toReplica = ρ.toReplica ∧ s.page = m.bPage)
    (paxosValidate_still.goes fun r _ => r = ρ.toReplica ∧ s.page = m.bPage) fun ret => ?_
  refine Does.bind hR (Q := fun _ t => t.toReplica = ρ.toReplica ∧ s.page = m.bPage)
    (Does.require hR fun t ht _ => ht) fun _ => ?_
  rintro t ⟨ht, hp⟩
  have hpage : t.page = m.bPage := by rw [ht, ← hs]; exact hp
  by_cases hc : (t.slot m.bK).cMetaCmdRnd.IsEmpty
  · rw [sendBeginCast_error hc]
    exact ⟨fun _ h => (by cases h), fun _ _ => ⟨t, Runs.refl _⟩⟩
  · rw [sendBeginCast_run hc]
    refine ⟨fun _ _ => ⟨.single ?_, trivial⟩, fun _ h => (by cases h)⟩
    have hcast := Move.recast (ρ := ρ) (e := e) (p := t.toReplica) hi ht hpage hc
      (w := decide (t.pMyId = m.bTo ∧ ownAccept t = true))
      (o := (List.range t.pMax).flatMap (castOut t m.bK m.bTo m.bCurRnd))
      (fun h => (of_decide_eq_true h).1.symm) (fun x hx => ?_) fun h => ?_
    · convert hcast using 1
      unfold voteIf
      by_cases h : t.pMyId = m.bTo ∧ ownAccept t = true
      · simp only [h, and_self, if_true, decide_true]
        rfl
      · simp only [h, if_false, decide_false, Bool.false_eq_true]
        simp [Replica.setSlot, Replica.setMulti]
    · have := mem_castOut hx
      simpa only [decide_eq_true_eq] using this
    · obtain ⟨h₁, h₂⟩ := of_decide_eq_true h
      rw [← h₁]
      obtain ⟨h₃, h₄⟩ := of_decide_eq_true h₂
      exact ownMark_mem h₃ h₄

theorem sendSuccess_run {k : K} {s : Paxos} (hm : (s.slot k).pMode = .decided)
    (hc : ¬ (s.slot k).cMetaCmdRnd.IsEmpty) :
    ∃ o, sendSuccess k s = ⟨.ok (), s, o⟩ ∧ ∀ x ∈ o, IsSuccess s.toReplica k x := by
  unfold sendSuccess
  rw [read_bind, if_neg (not_not.mpr hm), require_of hc, pure_bind', each_send]
  refine ⟨_, rfl, fun x hx => ?_⟩
  obtain ⟨j, -, rfl⟩ := List.mem_map.mp hx
  exact ⟨j, _, rfl, rfl, rfl, rfl, rfl⟩

theorem sendSuccess_error {k : K} {s : Paxos} (hm : (s.slot k).pMode = .decided)
    (hc : (s.slot k).cMetaCmdRnd.IsEmpty) :
    sendSuccess k s = ⟨.error .sendSuccessCommand, s, []⟩ := by
  unfold sendSuccess
  rw [read_bind, if_neg (not_not.mpr hm), require_of_not (not_not.mpr hc), fail_bind]

theorem countAccept_goes {fr : ℕ} {m : MsgAccept} {r : Replica} (hi : i = .recv fr (.accept m))
    (hr : cmpRound r.curRnd m.aRound = 0) (hpage : r.page = m.aPage)
    (hm : (r.slot m.aK).pMode = .gatherAccept) :
    Does (Goes ρ i e) (At r) (countAccept fr m.aK e) fun _ _ => True := by
  have hR := goes_compositional (ρ := ρ) (i := i) (e := e)
  let q := r.setSlot m.aK fun s => { s with pRndAccQuo := quorumAdd s.pRndAccQuo fr }
  have hqm : (q.slot m.aK).pMode = .gatherAccept := by
    rw [Replica.slot_setSlot_self]
    exact hm
  refine Does.bind hR (Q := fun _ => At q) (modReplica_goes (.addAcc hi hr hpage hm)) fun _ => ?_
  refine Does.read fun s hs => Does.when hR (fun hq => ?_) fun _ _ _ => trivial
  obtain ⟨hme, hq⟩ := hq
  intro v hv
  rw [hv]
  let w := s.onReplica (Replica.setSlot m.aK fun s => { s with pMode := .decided })
  have hw : w.slot m.aK = { s.slot m.aK with pMode := .decided } :=
    Replica.slot_setSlot_self ..
  have hstart (x : PaxosM Unit) : (do
      modSlot m.aK fun s => { s with pMode := .decided }
      x) s = x w := rfl
  rw [hstart]
  by_cases hf : (s.slot m.aK).pRndValue.vFrom = s.pMyId
  swap
  · rw [require_of_not hf, fail_bind]
    exact ⟨fun _ h => (by cases h), fun _ _ => ⟨s, Runs.refl _⟩⟩
  rw [require_of hf, pure_bind]
  have hwm : (w.slot m.aK).pMode = .decided := by rw [hw]
  by_cases hc : (s.slot m.aK).cMetaCmdRnd.IsEmpty
  · rw [bind_of_error (sendSuccess_error hwm (by rw [hw]; exact hc))]
    exact ⟨fun _ h => (by cases h), fun _ _ => ⟨s, Runs.refl _⟩⟩
  obtain ⟨o, hsend, ho⟩ := sendSuccess_run hwm (by rw [hw]; exact hc)
  rw [bind_of_ok hsend]
  let u := w.onReplica (Replica.setSlot m.aK Slot.win)
  have hu : u.toReplica = s.toReplica.setSlot m.aK Slot.win := Replica.setSlot_setSlot ..
  have hexec := exec_ok (k := m.aK) (s := u)
    (by rw [hu, Replica.slot_setSlot_self]; exact hc) e
  obtain ⟨o', t, hx, he⟩ := hexec
  have hrun : (do
      modSlot m.aK fun s =>
        { s with
          pRndValue := { s.pRndValue with vFlags := { s.pRndValue.vFlags with normal := true } } }
      exec m.aK e : PaxosM Unit) w = ⟨.ok (), t, o'⟩ := by
    refine Eq.trans ?_ hx
    change exec m.aK e _ = exec m.aK e u
    congr 1
    refine congrArg (fun r => { s with toReplica := r }) ?_
    refine Replica.setSlot_congr ?_
    simp only [hw, Slot.win]
  rw [hrun]
  refine ⟨fun _ _ => ⟨.single ?_, trivial⟩, fun _ h => (by cases h)⟩
  rw [hu] at he
  rw [hs] at hme hq hf hc he ⊢
  refine .decide hi hr hpage hqm hme hq hf hc (fun x hx => ?_) he
  obtain ⟨j, ms, rfl, h₁, h₂, h₃, h₄⟩ := ho x hx
  rw [hw, ← hs] at *
  exact ⟨j, ms, rfl, h₁, h₂, h₃, h₄⟩

theorem gatherAccept_goes {fr : ℕ} {m : MsgAccept} (hi : i = .recv fr (.accept m)) :
    Does (Goes ρ i e) (At ρ.toReplica) (gatherAccept fr m e) fun _ _ => True := by
  have hR := goes_compositional (ρ := ρ) (i := i) (e := e)
  refine Does.read fun s hs => Does.ite (fun _ => Does.pure hR fun _ _ => trivial) fun hc => ?_
  rw [hs] at hc
  simp only [not_or, not_not, ne_eq, cmp32_eq_zero_iff] at hc
  obtain ⟨hr, hpage, hm⟩ := hc
  have hw {t} (ht : t = s) : At ρ.toReplica t := ht ▸ hs
  refine Does.ite (fun he => ?_) fun _ =>
    (countAccept_goes hi hr hpage hm).weaken fun t ht => hw ht
  refine Does.bind hR ((paxosValidate_still.at ρ.toReplica).weaken fun t ht => hw ht)
    fun refused => Does.ite (fun _ => Does.pure hR fun _ _ => trivial) fun _ => ?_
  rw [hs] at he
  have hme : s.pMyId = ρ.pMyId := congrArg Replica.pMyId hs
  rw [hme]
  refine Does.bind hR (modReplica_goes (.takeCmd hi rfl hr hpage hm he)) fun _ =>
    countAccept_goes hi hr hpage ?_
  rw [Replica.slot_setSlot_self]
  exact hm

theorem gatherOldRound_goes {fr : ℕ} {m : MsgOldRound} (hi : i = .recv fr (.oldRound m)) :
    Does (Goes ρ i e) (At ρ.toReplica) (gatherOldRound m) fun _ _ => True := by
  have hR := goes_compositional (ρ := ρ) (i := i) (e := e)
  refine Does.read fun s hs => Does.ite (fun _ => Does.pure hR fun _ _ => trivial) fun hc => ?_
  rw [hs] at hc
  exact (modReplica_goes (.old hi rfl (not_le.mp hc))).conseq (fun t ht => ht ▸ hs)
    fun _ _ _ => trivial

end

end PaxosSolutions
