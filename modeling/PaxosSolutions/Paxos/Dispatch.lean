import PaxosSolutions.Paxos.Steps

/-!
# The agent, the requests and the dispatcher as moves
-/
namespace PaxosSolutions
open NWGadget Lib Lib.Handler

section
variable {ρ : Paxos} {i : Input} {e : Env}

/-! ### The agent -/

/-- The replica after its promise. -/
abbrev promised (ρ : Paxos) (m : MsgCollect) : Replica :=
  ρ.setMulti fun mu => { mu with lCurRnd := m.cCurRnd }

theorem recvCollectBehind_goes {fr : ℕ} {m : MsgCollect} (hi : i = .recv fr (.collect m))
    (hr : cmpRound ρ.curRnd m.cCurRnd ≤ 0) (hp : cmp32 m.cPage ρ.page < 0) :
    Does (Goes ρ i e) (At (promised ρ m)) (recvCollectBehind fr m) fun _ _ => True := by
  have hR := goes_compositional (ρ := ρ) (i := i) (e := e)
  refine Does.read fun s hs => ?_
  cases hg : getPage s.toReplica m.cPage with
  | none => exact Does.pure hR fun _ _ => trivial
  | some mu =>
      rw [hs] at hg
      obtain ⟨hmu, hpage⟩ := getPage_some hg
      refine Does.bind hR (Q := fun _ t => At (promised ρ m) t ∧
        ∀ k ∈ allK, (mu.slots k).pMode = .decided) ?_ fun _ => ?_
      · refine (Does.each_forall hR (I := At (promised ρ m)) fun k _ => ?_).weaken
          fun t ht => ht ▸ hs
        refine Does.bind hR (Q := fun _ t => At (promised ρ m) t ∧ (mu.slots k).pMode = .decided)
          (Does.require hR fun t ht hm => ⟨ht, hm⟩) fun _ => ?_
        rintro t ⟨ht, hm⟩
        have hrpl : Does (Goes ρ i e) (At (promised ρ m))
            (do let _ ← catchupInstanceRpl fr (some mu) (toSeq mu.pPage k))
            fun _ t => At (promised ρ m) t ∧ (mu.slots k).pMode = .decided :=
          Does.bind hR (catchupInstanceRpl_goes hmu (.inr ⟨k, rfl⟩)) fun _ =>
            Does.pure hR fun _ h => ⟨h, hm⟩
        exact hrpl t ht
      · rintro t ⟨ht, hall⟩
        refine ((paxosSend_goes (.tellLast hi hr rfl ?_)).conseq (fun _ h => h)
          fun _ _ _ => trivial) t ht
        refine ⟨rfl, congrArg Replica.pNextDecide hs, .inl ⟨hp, mu, hg, rfl, fun k => ?_, rfl⟩⟩
        exact hall k (List.mem_finRange k)

theorem recvCollectAhead_goes {fr : ℕ} {m : MsgCollect} (hi : i = .recv fr (.collect m))
    (hr : cmpRound ρ.curRnd m.cCurRnd ≤ 0) (hp : 0 < cmp32 m.cPage ρ.page) :
    Does (Goes ρ i e) (At (promised ρ m)) (recvCollectAhead fr m e) fun _ _ => True := by
  have hR := goes_compositional (ρ := ρ) (i := i) (e := e)
  refine Does.read fun s hs => ?_
  have hstill : Stills (when (cmp32 m.cBackPage s.page ≤ 0) do
      Handler.modify fun p : Paxos => { p with pIssuedLast := 0 }
      catchupRequest fr m.cNextDecide e) :=
    Stills.when (Stills.bind (Stills.modify fun _ => ⟨rfl, Iff.rfl⟩) fun _ => catchupRequest_still)
  refine Does.bind hR ((hstill.at (promised ρ m)).weaken fun t ht => ht ▸ hs) fun _ => ?_
  refine (paxosSend_goes (.tellLast hi hr rfl ?_)).conseq (fun _ h => h) fun _ _ _ => trivial
  exact ⟨rfl, congrArg Replica.pNextDecide hs,
    .inr (.inl ⟨hp, congrArg Replica.page hs, rfl⟩)⟩

theorem recvCollectSame_goes {fr : ℕ} {m : MsgCollect} (hi : i = .recv fr (.collect m))
    (hr : cmpRound ρ.curRnd m.cCurRnd ≤ 0) (hp : m.cPage = ρ.page) :
    Does (Goes ρ i e) (At (promised ρ m)) (recvCollectSame fr m e) fun _ _ => True := by
  have hR := goes_compositional (ρ := ρ) (i := i) (e := e)
  refine Does.read fun s hs => ?_
  refine Does.bind hR (Q := fun _ => At (promised ρ m)) ?_ fun _ => ?_
  · refine (Does.each hR (I := At (promised ρ m)) fun k _ => ?_).weaken fun t ht => ht ▸ hs
    refine Does.read fun t ht => ?_
    refine Does.ite (fun _ => ?_) fun _ => Does.when hR (fun _ => ?_) fun _ u hu => hu ▸ ht
    · exact ((Stills.when catchupRequest_still).at (promised ρ m)).weaken fun u hu => hu ▸ ht
    · refine Does.bind hR (Q := fun _ => At (promised ρ m))
        (Does.require hR fun u hu _ => hu ▸ ht) fun _ => ?_
      refine Does.bind hR (catchupInstanceRpl_goes (.inl ?_) (.inr ⟨k, rfl⟩)) fun _ =>
        Does.pure hR fun _ h => h
      exact congrArg Replica.pMulti ht
  · refine (paxosSend_goes (.tellLast hi hr rfl ?_)).conseq (fun _ h => h) fun _ _ _ => trivial
    refine ⟨rfl, congrArg Replica.pNextDecide hs,
      .inr (.inr ⟨hp, congrArg Replica.page hs, ?_⟩)⟩
    change (fun k => lastSlot s.toReplica.pMyId (s.toReplica.slot k) (m.cPaxos k)) = _
    rw [hs]

theorem recvCollect_goes {fr : ℕ} {m : MsgCollect} (hi : i = .recv fr (.collect m)) :
    Does (Goes ρ i e) (At ρ.toReplica) (recvCollect fr m e) fun _ _ => True := by
  have hR := goes_compositional (ρ := ρ) (i := i) (e := e)
  refine Does.read fun s hs => ?_
  have hw {t} (ht : t = s) : At ρ.toReplica t := ht ▸ hs
  refine Does.ite (fun hr => ?_) fun _ => ?_
  · rw [hs] at hr
    refine Does.bind hR ((modReplica_goes (.promise hi rfl hr)).weaken fun t ht => hw ht)
      fun _ => ?_
    refine Does.ite (fun hp => ?_) fun h₁ => Does.ite (fun hp => ?_) fun h₂ => ?_
    · exact recvCollectBehind_goes hi hr (by rwa [hs] at hp)
    · exact recvCollectAhead_goes hi hr (by rwa [hs] at hp)
    · refine recvCollectSame_goes hi hr ?_
      rw [hs] at h₁ h₂
      exact cmp32_eq_zero_iff.mp (by omega)
  · refine (paxosSend_goes (r := ρ.toReplica) (.tellOld ?_)).conseq (fun t ht => hw ht)
      fun _ _ _ => trivial
    exact congrArg Replica.curRnd hs

theorem answerBegin_run {m : MsgBegin} {s : Paxos} :
    ∃ held o, answerBegin m e s =
      ⟨.ok (), s.onReplica (Replica.setSlot m.bK fun x =>
        { x with pSuppressed := x.pSuppressed || held }), o⟩ ∧
      ∀ x ∈ o, held = false ∧ ∃ a, x = .send m.bTo (.accept a) ∧ IsAccept s.toReplica m.bK a := by
  unfold answerBegin
  rw [read_bind]
  split
  · exact ⟨true, [], by simp [modSlot, modReplica], by simp⟩
  · let a : MsgAccept :=
      { aPage := s.page, aK := m.bK, aRound := (s.slot m.bK).pRndBallot,
        aValue := (s.slot m.bK).pRndValue, aMetaCmd := (s.slot m.bK).cMetaCmdRnd }
    have ha : IsAccept s.toReplica m.bK a := ⟨rfl, rfl, rfl, rfl, rfl⟩
    refine ⟨false, sendIf s m.bTo (.accept a), ?_, fun x hx => ⟨rfl, a, mem_sendIf hx, ha⟩⟩
    rw [paxosSend_run]
    simp [a, Paxos.onReplica, Replica.setSlot, Replica.setMulti]

theorem recvBegin_goes {fr : ℕ} {m : MsgBegin} (hi : i = .recv fr (.begin m)) :
    Does (Goes ρ i e) (At ρ.toReplica) (recvBegin fr m e) fun _ _ => True := by
  have hR := goes_compositional (ρ := ρ) (i := i) (e := e)
  refine Does.read fun s hs => ?_
  have hw {t} (ht : t = s) : At ρ.toReplica t := ht ▸ hs
  have hpure : Does (Goes ρ i e) (fun t => t = s) (pure () : PaxosM Unit) fun _ _ => True :=
    Does.pure hR fun _ _ => trivial
  refine Does.ite (fun _ => hpure) fun hsup => Does.ite (fun hr => ?_) fun _ => ?_
  swap
  · refine (paxosSend_goes (r := ρ.toReplica) (.tellOld ?_)).conseq (fun t ht => hw ht)
      fun _ _ _ => trivial
    exact congrArg Replica.curRnd hs
  refine Does.ite (fun _ => ?_) fun h₁ => Does.ite (fun _ => hpure) fun h₂ =>
    Does.ite (fun _ => hpure) fun hm => ?_
  · exact (Stills.any (Stills.when catchupRequest_still)).weaken fun _ _ => trivial
  refine Does.bind hR (Q := fun _ t => t.toReplica = ρ.toReplica ∧ ¬ m.bMetaCmd.IsEmpty)
    (Does.require hR fun t ht hc => ⟨hw ht, hc⟩) fun _ => ?_
  refine Does.bind hR (Q := fun _ t => t.toReplica = ρ.toReplica ∧ ¬ m.bMetaCmd.IsEmpty)
    (paxosValidate_still.goes fun r _ => r = ρ.toReplica ∧ ¬ m.bMetaCmd.IsEmpty)
    fun refused => ?_
  refine Does.ite (fun _ => ?_) fun _ => Does.of_run ?_
  · exact (Stills.any (paxosSend_still (m := .testNewRound) trivial)).weaken fun _ _ => trivial
  rintro t ⟨ht, hc⟩
  rw [hs] at hsup hr h₁ h₂ hm
  have hme : s.pMyId = t.pMyId := congrArg Replica.pMyId (hs.trans ht.symm)
  have hpg : s.page = t.page := congrArg Replica.page (hs.trans ht.symm)
  let w := t.onReplica (Replica.setSlot m.bK (Slot.store m t.pMyId))
  obtain ⟨held, o, hrun, ho⟩ := answerBegin_run (e := e) (m := m) (s := w)
  let u := t.onReplica (Replica.setSlot m.bK fun x =>
    { x.store m t.pMyId with pSuppressed := x.pSuppressed || held })
  have hu : w.onReplica (Replica.setSlot m.bK fun x =>
      { x with pSuppressed := x.pSuppressed || held }) = u :=
    congrArg (fun r => { t with toReplica := r }) (Replica.setSlot_setSlot ..)
  refine ⟨(), .accepted t.page m.bK m.bCurRnd { m.bValue with vFrom := t.pMyId } m.bMetaCmd :: o,
    u, ?_, .single (.store hi ht ?_ ?_ ?_ ?_ hc ho), trivial⟩
  · unfold modSlot modReplica
    rw [hme, hpg, modify_bind, bind_of_ok (emit_apply _ _)]
    change Outcome.mk (answerBegin m e w).val (answerBegin m e w).st
      ([_] ++ (answerBegin m e w).out) = _
    rw [hrun, hu]
    rfl
  · rw [ht]
    simpa using hsup
  · rw [ht]
    exact hr
  · rw [ht]
    exact cmp32_eq_zero_iff.mp (by omega)
  · rw [ht]
    exact hm

theorem recvSuccess_goes {fr : ℕ} {m : MsgSuccess} (hi : i = .recv fr (.success m)) :
    Does (Goes ρ i e) (At ρ.toReplica) (recvSuccess fr m e) fun _ _ => True := by
  have hR := goes_compositional (ρ := ρ) (i := i) (e := e)
  refine Does.read fun s hs => ?_
  have hw {t} (ht : t = s) : At ρ.toReplica t := ht ▸ hs
  refine Does.bind hR (Q := fun _ => At ρ.toReplica) (Does.require hR fun t ht _ => hw ht)
    fun _ => ?_
  have hpure : Does (Goes ρ i e) (At ρ.toReplica) (pure () : PaxosM Unit) fun _ _ => True :=
    Does.pure hR fun _ _ => trivial
  refine Does.ite (fun _ => ?_) fun h₁ => Does.ite (fun _ => hpure) fun h₂ =>
    Does.ite (fun _ => hpure) fun hm => ?_
  · exact (Stills.any (Stills.when catchupRequest_still)).weaken fun _ _ => trivial
  refine Does.bind hR ((Stills.ite (Stills.pure false) paxosValidate_still).at ρ.toReplica)
    fun refused => Does.ite (fun _ => hpure) fun _ => decide_goes fun hc o p' he => ?_
  rw [hs] at h₁ h₂ hm
  have hme : s.pMyId = ρ.pMyId := congrArg Replica.pMyId hs
  rw [hme] at he
  exact .learn (.inl ⟨m, hi, cmp32_eq_zero_iff.mp (by omega), rfl, rfl, rfl, rfl⟩) rfl hm hc he

/-! ### Requests -/

/-- The slot that `GetSlot` gives out. -/
def FreeSlot (p : Replica) (k : K) : Prop :=
  p.IsMyRnd ∧ p.page = toPage p.pNextDecide ∧ toK p.pNextDecide ≤ k ∧ (p.slot k).pMode = .none

theorem getSlot_goes {cmd : List UInt8} {validate : Bool} (hi : i = .request cmd validate)
    (hact : ρ.pActive = true) (hmas : ρ.pElection.eIamMaster = true) :
    Does (Goes ρ i e) (fun s => s = ρ) (getSlot e) fun a s => match a with
      | .slot k => s = ρ ∧ FreeSlot ρ.toReplica k
      | _ => True := by
  have hR := goes_compositional (ρ := ρ) (i := i) (e := e)
  refine Does.read fun s hs => ?_
  rw [hs]
  have hwait : Does (Goes ρ i e) (fun _ => True) (pure SlotAnswer.wait : PaxosM SlotAnswer)
      fun a s => match a with
        | .slot k => s = ρ ∧ FreeSlot ρ.toReplica k
        | _ => True :=
    Does.pure hR fun _ _ => trivial
  refine Does.ite (fun hmy => Does.ite (fun hpage => ?_) fun _ => hwait.weaken fun _ _ => trivial)
    fun hmy => Does.ite (fun hnew => ?_) fun _ => Does.pure hR fun _ _ => trivial
  · split
    · next k hk =>
        have hfree := List.find?_some hk
        simp only [decide_eq_true_eq] at hfree
        exact Does.pure hR fun t ht => ⟨ht, hmy, hpage, hfree⟩
    · exact hwait.weaken fun _ _ => trivial
  · refine Does.bind hR (Q := fun _ _ => True) (Does.when hR (fun ha => ?_) fun _ _ _ => trivial)
      fun _ => hwait
    refine (restartRound_goes ?_).weaken fun t ht => ht ▸ rfl
    rw [hi]
    exact ⟨hact, hmas, hmy, hnew, ha⟩

/-- `InitCommand`, `Continue` and `BeginCast` on a free slot. -/
theorem requestCast_goes {cmd : List UInt8} {validate : Bool} {k : K} {c : MetaCmd}
    (hi : i = .request cmd validate) (hfree : FreeSlot ρ.toReplica k) (hc : c.cOpaque = cmd) :
    Does (Goes ρ i e)
      (fun s => s.toReplica = ρ.toReplica ∧ (s.AcceptsOwn ↔ ρ.AcceptsOwn)) (do
        initCommand k c { validate := validate }
        if ← continueAt k then do
          beginCast k e
          emit (.reply .ok)
        else emit (.reply .rejected)) fun _ _ => True := by
  have hR := goes_compositional (ρ := ρ) (i := i) (e := e)
  rintro s ⟨hs, hacc⟩
  obtain ⟨hmy, hpage, hk, hm⟩ := hfree
  let t := s.onReplica (Replica.setSlot k (Slot.init s.pMyId { validate := validate } c))
  let q := t.onReplica (Replica.setSlot k (Slot.propose s.pElection.eEpoch .beginCast))
  have htk : t.slot k = (s.slot k).init s.pMyId { validate := validate } c :=
    Replica.slot_setSlot_self ..
  have hq : q.toReplica = s.toReplica.setSlot k fun x =>
      (x.init s.pMyId { validate := validate } c).propose s.pElection.eEpoch .beginCast :=
    Replica.setSlot_setSlot ..
  have hqk : q.slot k = ((s.slot k).init s.pMyId { validate := validate } c).propose
      s.pElection.eEpoch .beginCast := by
    rw [hq, Replica.slot_setSlot_self]
  have hinit : initCommand k c { validate := validate } s =
      ⟨.ok (), t, [.initCommand (s.seq k) c]⟩ := rfl
  have htmy : t.IsMyRnd := by
    change s.IsMyRnd
    rw [hs]
    exact hmy
  have htm : (t.slot k).pMode = .none := by
    rw [htk]
    change (s.slot k).pMode = .none
    rw [hs]
    exact hm
  by_cases he : c.IsEmpty
  · have hcont : continueAt k t = ⟨.error .initCommand, t, []⟩ := by
      unfold continueAt
      rw [read_bind, if_neg (by simp [htmy, htm]), require_of_not, fail_bind]
      rw [htk]
      exact not_not.mpr he
    rw [bind_of_ok hinit, bind_of_error hcont]
    exact ⟨fun _ h => (by cases h), fun _ _ => ⟨s, .single (.requestFail (hc ▸ hi) he)⟩⟩
  have hcont : continueAt k t = ⟨.ok true, q, []⟩ := by
    unfold continueAt
    rw [read_bind, if_neg (by simp [htmy, htm]), require_of]
    · rfl
    · rw [htk]
      exact he
  have hqm : (q.slot k).pMode = .beginCast := by
    rw [hqk]
    rfl
  have hqf : (q.slot k).pRndValue.vFrom = q.pMyId := by
    rw [hqk]
    rfl
  have hqc : CanCast q.toReplica k := fun _ => by
    rw [hqk]
    exact he
  have hreply : Does (Goes ρ i e) (fun _ => True) (emit (.reply .ok) : PaxosM Unit)
      fun _ _ => True :=
    Does.emit fun u _ => ⟨.single (.replyOk hi fun h => he (hc.trans h)), trivial⟩
  rw [bind_of_ok hinit, bind_of_ok hcont, if_pos rfl]
  by_cases hN : q.pMax = 1
  · have hmove : Goes ρ i e s [.initCommand (s.seq k) c] q := by
      unfold Goes
      rw [hq]
      refine .single (.requestSole hi hs hc hN ?_ ?_ ?_ ?_ he)
      all_goals rw [hs]
      exacts [hmy, hpage, hk, hm]
    have hsole := Does.bind hR (beginCast_sole (ρ := ρ) (i := i) (e := e) (k := k)
      (.inr ⟨cmd, validate, hi⟩)) fun _ =>
      hreply.weaken fun _ _ => trivial
    obtain ⟨h₁, h₂⟩ := hsole q ⟨hN, htmy.1⟩
    refine ⟨fun a h => ⟨hR.trans hmove (h₁ a h).1, trivial⟩, fun er h => ?_⟩
    obtain ⟨u, hu⟩ := h₂ er h
    exact ⟨u, hR.trans hmove hu⟩
  · have hcast : (castAt k e q).toReplica = q.toReplica.setSlot k
        (Slot.cast s.pMyId s.curRnd (addUsec e.now q.dtSuccess) (ownAccept q)) := by
      refine Replica.setSlot_congr ?_
      have hd : decide (ownAccept q = true ∧ (q.slot k).pRndValue.vFrom = q.pMyId) =
          ownAccept q := by
        rw [hqf]
        simp
      exact congrArg (Slot.cast s.pMyId s.curRnd _ · (q.slot k)) hd
    have hmove : Goes ρ i e s ([.initCommand (s.seq k) c] ++ castOuts q k) (castAt k e q) := by
      unfold Goes
      rw [hcast]
      refine .single (.request (w := ownAccept q) hi hs hc hN ?_ ?_ ?_ ?_ he ?_ hq
        (fun x hx => mem_castOuts hqc hx) fun ho => ownMark_mem_castOuts hqf ho)
      · rw [hs]
        exact hmy
      · rw [hs]
        exact hpage
      · rw [hs]
        exact hk
      · rw [hs]
        exact hm
      · change decide (s.AcceptsOwn ∧ s.pMyId < s.pMax) = true ↔ _
        rw [decide_eq_true_eq, hacc]
    rw [bind_of_ok (beginCast_run hN hqm hqc)]
    have hlast := hR.trans hmove (((hreply (castAt k e q) trivial).1 () rfl).1)
    exact ⟨fun _ _ => ⟨by simpa using hlast, trivial⟩, fun _ h => (by cases h)⟩

theorem paxosRequest_goes {cmd : List UInt8} {validate : Bool} (hi : i = .request cmd validate) :
    Does (Goes ρ i e) (fun s => s = ρ) (paxosRequest cmd validate e) fun _ _ => True := by
  have hR := goes_compositional (ρ := ρ) (i := i) (e := e)
  have hreply {code : NotifyCode} (h : code ≠ .ok) : Does (Goes ρ i e) (fun _ => True)
      (emit (.reply code) : PaxosM Unit) fun _ _ => True :=
    Stills.any (Stills.emit h)
  refine Does.read fun s hs => ?_
  refine Does.ite (fun _ => (hreply (by decide)).weaken fun _ _ => trivial) fun hact =>
    Does.ite (fun hmas => ?_) fun _ => (hreply (by decide)).weaken fun _ _ => trivial
  rw [hs] at hact hmas ⊢
  refine Does.bind hR (getSlot_goes hi (by simpa using hact) hmas) fun a => ?_
  cases a with
  | wait => exact Does.pure hR fun _ _ => trivial
  | rejected => exact hreply (by decide)
  | slot k =>
      by_cases hlen : cmd.length ≤ paxosCommandSize
      swap
      · simp only [hlen, dif_neg, not_false_iff]
        exact (hreply (by decide)).weaken fun _ _ => trivial
      simp only [hlen, dif_pos]
      rintro t ⟨rfl, hfree⟩
      have hslot : Does (Goes t i e) (fun s => s = t)
          (requestSlot k ⟨cmd, hlen⟩ { validate := validate } e) fun _ _ => True := by
        refine Does.read fun u hu => ?_
        have hval : Stills (if validate = true then
            paxosValidate .request (u.seq k)
              { vFlags := { validate := validate }, vServer := u.pMyId,
                vEpoch := u.pElection.eEpoch, vFrom := u.pMyId } ⟨cmd, hlen⟩ e
            else pure false) :=
          Stills.ite paxosValidate_still (Stills.pure _)
        refine Does.bind goes_compositional ((hval.goes fun r a =>
          r = t.toReplica ∧ (a ↔ t.AcceptsOwn)).weaken fun v hv => ?_) fun refused => ?_
        · rw [hv, hu]
          exact ⟨rfl, Iff.rfl⟩
        · have hreply : Stills (emit (.reply .rejected)) := Stills.emit (by simp [Out.Quiet])
          exact Does.ite (fun _ => (Stills.any hreply).weaken fun _ _ => trivial)
            fun _ => requestCast_goes hi hfree rfl
      exact hslot t rfl

/-! ### The other inputs -/

theorem recvAlive_goes {fr : ℕ} {m : MsgAlive} :
    Does (Goes ρ i e) (fun _ => True) (recvAlive fr m e) fun _ _ => True := by
  have hR := goes_compositional (ρ := ρ) (i := i) (e := e)
  refine Does.read fun s _ => Does.ite (fun _ => Does.pure hR fun _ _ => trivial) fun _ => ?_
  refine Does.bind hR (Q := fun _ _ => True)
    ((Stills.any (Stills.modify fun _ => ⟨rfl, Iff.rfl⟩)).weaken fun _ _ => trivial) fun _ =>
      Does.read fun t _ => ?_
  refine Does.bind hR (Q := fun _ _ => True) (Does.when hR (fun _ => ?_) fun _ _ _ => trivial)
    fun _ => ?_
  · exact Does.bind hR (Does.modify fun _ _ => ⟨Runs.refl _, trivial⟩) fun _ =>
      releaseSuppressedAccept_goes
  refine Stills.any (Stills.bind checkConnection_still fun con => ?_)
  split
  · exact Stills.when setLeader_still
  · exact Stills.when setLeader_still
  · exact Stills.read fun _ => Stills.bind (Stills.when setLeader_still) fun _ =>
      aliveCatchup_still
  · exact Stills.pure _

theorem paxosDetector_goes (hi : i = .detector) :
    Does (Goes ρ i e) (fun s => s = ρ) (paxosDetector e) fun _ _ => True := by
  have hR := goes_compositional (ρ := ρ) (i := i) (e := e)
  refine Does.bind hR (Q := fun _ _ => True) ?_ fun _ => Does.read fun s _ => ?_
  · refine Does.read fun s hs => ?_
    rw [hs]
    have hpure : Does (Goes ρ i e) (fun t => t = ρ) (pure () : PaxosM Unit) fun _ _ => True :=
      Does.pure hR fun _ _ => trivial
    refine Does.ite (fun _ => hpure) fun hmas => Does.ite (fun hmy => ?_) fun hmy => ?_
    · refine Does.when hR (fun hk => ?_) fun _ _ _ => trivial
      refine (restartRound_goes ?_).weaken fun t ht => ht ▸ rfl
      rw [hi]
      exact ⟨by simpa using hmas, by rw [if_pos hmy]; exact hk⟩
    · refine Does.when hR (fun hk => ?_) fun _ _ _ => trivial
      refine (restartRound_goes ?_).weaken fun t ht => ht ▸ rfl
      rw [hi]
      exact ⟨by simpa using hmas, by rw [if_neg hmy]; exact hk⟩
  · refine Does.bind hR (Q := fun _ _ => True) (Does.when hR
      (fun _ => Does.modify fun _ _ => ⟨Runs.refl _, trivial⟩) fun _ _ _ => trivial) fun _ => ?_
    refine Does.read fun t _ => Does.when hR (fun _ => ?_) fun _ _ _ => trivial
    exact releaseSuppressedAccept_goes.weaken fun _ _ => trivial

/-- What a step of a replica puts out and leaves is what its moves put out and
leave. -/
theorem handle_goes (ρ : Paxos) (i : Input) (e : Env) :
    Does (Goes ρ i e) (fun s => s = ρ) (handle i e) fun _ _ => True := by
  have hat : ∀ s, s = ρ → At ρ.toReplica s := fun s hs => hs ▸ rfl
  unfold handle
  cases hi : i with
  | recv fr m =>
      unfold receive
      cases m with
      | alive m => exact recvAlive_goes.weaken fun _ _ => trivial
      | catchupReq m => exact recvCatchupReq_goes.conseq hat fun _ _ _ => trivial
      | catchupRpl m => exact (recvCatchupRpl_goes rfl).weaken hat
      | catchupEnd =>
          refine Does.read fun s _ => Does.when goes_compositional (fun _ => ?_)
            fun _ _ _ => trivial
          exact releaseSuppressedAccept_goes.weaken fun _ _ => trivial
      | collect m => exact (recvCollect_goes rfl).weaken hat
      | last m => exact gatherLast_goes rfl
      | oldRound m => exact (gatherOldRound_goes rfl).weaken hat
      | begin m => exact (recvBegin_goes rfl).weaken hat
      | beginRedirect m => exact (beginCastRedirect_goes rfl).weaken hat
      | accept m => exact (gatherAccept_goes rfl).weaken hat
      | success m => exact (recvSuccess_goes rfl).weaken hat
      | testNewRound =>
          have hstart : StartsRound ρ (.recv fr .testNewRound) e := trivial
          exact (restartRound_goes hstart).weaken hat
  | request cmd validate => exact paxosRequest_goes rfl
  | detector => exact paxosDetector_goes rfl
  | heartbeat => exact (Stills.any heartbeat_still).weaken fun _ _ => trivial

end

end PaxosSolutions
