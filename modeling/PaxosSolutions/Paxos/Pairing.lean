import PaxosSolutions.Paxos.Acceptor
import PaxosSolutions.Paxos.Replies
import PaxosSolutions.Paxos.Waiting

/-!
# Values with their commands

A collection and its answers name a value without its command. The command of
an adopted value is fetched from the server that has it, and till then the slot
may hold the command of another value. Where no such slot takes over a value,
every command goes with the value it was proposed for, in all slots and in all
messages.
-/
namespace PaxosSolutions
open NWGadget Lib

/-- Which command a server proposed for a sequence number. -/
abbrev Proposals : Type := UInt32 → ℕ → MetaCmd → Prop

def Slot.Paired (P : Proposals) (q : UInt32) (s : Slot) : Prop :=
  ¬ s.cMetaCmdRnd.IsEmpty → P q s.pRndValue.vServer s.cMetaCmdRnd

/-- The slots of the page and of the retained pages. -/
def Replica.Paired (P : Proposals) (p : Replica) : Prop :=
  ∀ mu ∈ p.pMulti :: p.pMultiLnk, ∀ k : K, (mu.slots k).Paired P (toSeq mu.pPage k)

def Msg.Paired (P : Proposals) : Msg → Prop
  | .begin m => ¬ m.bMetaCmd.IsEmpty → P (toSeq m.bPage m.bK) m.bValue.vServer m.bMetaCmd
  | .accept m => ¬ m.aMetaCmd.IsEmpty → P (toSeq m.aPage m.aK) m.aValue.vServer m.aMetaCmd
  | .success m => ¬ m.sMetaCmd.IsEmpty → P (toSeq m.sPage m.sK) m.sValue.vServer m.sMetaCmd
  | .catchupRpl m => ¬ m.cMetaCmd.IsEmpty → P m.cSeq m.cPaxosI.pRndValue.vServer m.cMetaCmd
  | _ => True

/-- The reported proposal takes over the slot. -/
def Slot.Adopts (m : MsgPaxos) (s : Slot) : Prop :=
  m.mMode = .proposed ∧ s.pMode ≠ .decided ∧ cmpRound s.pRndBallot m.mRound ≤ 0 ∧
    m.mValue.IsDefined

instance (m : MsgPaxos) (s : Slot) : Decidable (s.Adopts m) :=
  inferInstanceAs (Decidable (_ ∧ _))

/-- No value is put beside the command of another one: a slot that has a
command adopts none of another server, a command is taken only for the value
that it comes with, and a page is collected before its numbers wrap. -/
def Input.KeepsPairs (s : Paxos) : Input → Prop
  | .recv _ (.last m) =>
      s.aMode = .gatherLast → cmpRound m.lRound s.curRnd = 0 → m.lPage = s.page →
        ∀ k, (s.slot k).Adopts (m.lPaxos k) → ¬ (s.slot k).cMetaCmdRnd.IsEmpty →
          (s.slot k).pRndValue.vServer = (m.lPaxos k).mValue.vServer
  | .recv _ (.accept m) =>
      cmpRound s.curRnd m.aRound = 0 → s.page = m.aPage → (s.slot m.aK).pMode = .gatherAccept →
        (s.slot m.aK).cMetaCmdRnd.IsEmpty →
          (s.slot m.aK).pRndValue.vServer = m.aValue.vServer
  | .recv _ (.collect m) => m.cPage.toNat * paxosMax + paxosMax ≤ 2 ^ 32
  | _ => True

instance (s : Paxos) : (i : Input) → Decidable (i.KeepsPairs s)
  | .recv _ (.last _) => inferInstanceAs (Decidable (_ → _ → _ → ∀ _, _))
  | .recv _ (.accept _) => inferInstanceAs (Decidable (_ → _ → _ → _ → _))
  | .recv _ (.collect _) => inferInstanceAs (Decidable (_ ≤ _))
  | .recv _ (.alive _) | .recv _ (.catchupReq _) | .recv _ (.catchupRpl _) | .recv _ .catchupEnd
  | .recv _ (.oldRound _) | .recv _ (.begin _) | .recv _ (.beginRedirect _) | .recv _ (.success _)
  | .recv _ .testNewRound | .request _ _ | .detector | .heartbeat => isTrue trivial

/-- What the input puts together is in `P` where what it comes from is. -/
def Input.Carries (P : Proposals) (s : Paxos) : Input → Prop
  | .recv _ (.last m) =>
      s.aMode = .gatherLast → cmpRound m.lRound s.curRnd = 0 → m.lPage = s.page →
        ∀ k, (s.slot k).Adopts (m.lPaxos k) → ¬ (s.slot k).cMetaCmdRnd.IsEmpty →
          P (s.seq k) (s.slot k).pRndValue.vServer (s.slot k).cMetaCmdRnd →
            P (s.seq k) (m.lPaxos k).mValue.vServer (s.slot k).cMetaCmdRnd
  | .recv _ (.accept m) =>
      cmpRound s.curRnd m.aRound = 0 → s.page = m.aPage → (s.slot m.aK).pMode = .gatherAccept →
        (s.slot m.aK).cMetaCmdRnd.IsEmpty → P (s.seq m.aK) m.aValue.vServer m.aMetaCmd →
          P (s.seq m.aK) (s.slot m.aK).pRndValue.vServer m.aMetaCmd
  | .recv _ (.collect m) =>
      ∀ (k : K) j c, P (toSeq m.cPage (toK (toSeq m.cPage k))) j c → P (toSeq m.cPage k) j c
  | _ => True

section
variable {P : Proposals} {k : K} {ρ : Paxos} {i : Input} {e : Env} {p p' : Replica} {o : List Out}

/-! ### Slots and pages -/

theorem Replica.Paired.slot (h : p.Paired P) (k : K) : (p.slot k).Paired P (p.seq k) :=
  h p.pMulti List.mem_cons_self k

/-- A slot with the same command and the value of the same server. -/
theorem Slot.Paired.congr {q : UInt32} {s s' : Slot} (h : s.Paired P q)
    (hc : s'.cMetaCmdRnd = s.cMetaCmdRnd)
    (hv : s'.pRndValue.vServer = s.pRndValue.vServer) : s'.Paired P q := by
  unfold Slot.Paired
  rw [hc, hv]
  exact h

/-- Another state of the page alone. -/
theorem Replica.Paired.setMulti {f : Multi → Multi} (h : p.Paired P)
    (hpage : (f p.pMulti).pPage = p.page)
    (hslot : ∀ k, ((f p.pMulti).slots k).Paired P (p.seq k)) : (p.setMulti f).Paired P := by
  intro mu hmu k
  rcases List.mem_cons.mp hmu with rfl | hmu
  · change ((f p.pMulti).slots k).Paired P (toSeq (f p.pMulti).pPage k)
    rw [hpage]
    exact hslot k
  · exact h mu (List.mem_cons_of_mem _ hmu) k

theorem Replica.Paired.setSlot {f : Slot → Slot} (h : p.Paired P)
    (hf : (f (p.slot k)).Paired P (p.seq k)) : (p.setSlot k f).Paired P := by
  refine h.setMulti rfl fun k' => ?_
  have hslot : (p.setSlot k f).slot k' = if k' = k then f (p.slot k) else p.slot k' :=
    Replica.slot_setSlot ..
  change ((p.setSlot k f).slot k').Paired P _
  rw [hslot]
  split
  · next heq => exact heq ▸ hf
  · exact h.slot k'

theorem ExecMove.paired (h : ExecMove k p o p') (hp : p.Paired P) : p'.Paired P := by
  cases h with
  | turn hlnk =>
      intro mu hmu k
      rcases List.mem_cons.mp hmu with rfl | hmu
      · exact fun hne => absurd rfl hne
      · exact hp mu (hlnk.subset hmu) k
  | nextK | count => exact hp.setMulti rfl hp.slot
  | _ => exact hp

theorem Execs.paired (h : Execs k p o p') (hm : (p.slot k).pMode = .decided) (hp : p.Paired P) :
    p'.Paired P :=
  (h.goes hm).invariant (I := fun _ q => q.Paired P) hp fun hq hmove => hmove.paired hq

/-! ### Outputs -/

/-- A message that is sent carries a value with its command. Replies of a
catch-up are looked at on their own. -/
def Out.Paired (P : Proposals) : Out → Prop
  | .send _ (.catchupRpl _) => True
  | .send _ m => m.Paired P
  | _ => True

theorem Out.Quiet.paired {x : Out} (h : x.Quiet) : x.Paired P := by
  cases x with
  | send d m => cases m <;> trivial
  | _ => trivial

theorem IsBegin.paired {bTo : ℕ} {r : Round} {m : MsgBegin} (h : IsBegin p k bTo r m)
    (hp : (p.slot k).Paired P (p.seq k)) : (Msg.begin m).Paired P := by
  obtain ⟨-, hpage, hk, -, hv, hc⟩ := h
  change ¬ m.bMetaCmd.IsEmpty → P (toSeq m.bPage m.bK) m.bValue.vServer m.bMetaCmd
  rw [hpage, hk, hv, hc]
  exact hp

theorem IsCast.paired {bTo : ℕ} {r : Round} {own : Bool} {x : Out} (h : IsCast p k bTo r own x)
    (hp : (p.slot k).Paired P (p.seq k)) : x.Paired P := by
  rcases h with ⟨d, m, rfl, -, hb⟩ | ⟨-, rfl⟩
  · exact hb.paired hp
  · trivial

theorem IsBeginCast.paired {own : Bool} {x : Out} (h : IsBeginCast p k own x)
    (hp : (p.slot k).Paired P (p.seq k)) : x.Paired P := by
  unfold IsBeginCast at h
  split at h
  · exact h.2.paired hp
  · obtain ⟨m, rfl, -⟩ := h
    trivial

theorem IsSuccess.paired {x : Out} (h : IsSuccess p k x)
    (hp : (p.slot k).Paired P (p.seq k)) : x.Paired P := by
  obtain ⟨d, m, rfl, hpage, hk, hv, hc⟩ := h
  change ¬ m.sMetaCmd.IsEmpty → P (toSeq m.sPage m.sK) m.sValue.vServer m.sMetaCmd
  rw [hpage, hk, hv, hc]
  exact hp

theorem IsAccept.paired {m : MsgAccept} (h : IsAccept p k m)
    (hp : (p.slot k).Paired P (p.seq k)) : (Msg.accept m).Paired P := by
  obtain ⟨hpage, hk, -, hv, hc⟩ := h
  change ¬ m.aMetaCmd.IsEmpty → P (toSeq m.aPage m.aK) m.aValue.vServer m.aMetaCmd
  rw [hpage, hk, hv, hc]
  exact hp

theorem Execs.out_paired (h : Execs k p o p') (hm : (p.slot k).pMode = .decided) :
    ∀ x ∈ o, x.Paired P := by
  refine (h.goes hm).forall_out fun hs x hx => ?_
  cases hs with
  | quiet h => rw [List.mem_singleton.mp hx]; exact h.paired
  | reject | execSlot | execGap => rw [List.mem_singleton.mp hx]; trivial
  | _ => cases hx

theorem Slot.cast_paired {q : UInt32} {s : Slot} (me : ℕ) (r : Round) (d : ℤ) (own : Bool)
    (h : s.Paired P q) : (s.cast me r d own).Paired P q := by
  refine h.congr ?_ ?_
  all_goals unfold Slot.cast Slot.vote; split <;> rfl

theorem FreeSlots.newRound (hf : FreeSlots p) (me : ℕ) (n : UInt32) (k : K) :
    (p.slot k).newRound me n = p.slot k := by
  unfold Slot.newRound
  split
  · next h =>
      have hdef := h.2
      rw [hf k h.1] at hdef
      exact absurd hdef Bool.false_ne_true
  · rfl

/-- What is adopted leaves the command of the slot with its value. -/
theorem Slot.adopt_paired {q : UInt32} {m : MsgPaxos} {s : Slot} (h : s.Paired P q)
    (hm : s.Adopts m → ¬ s.cMetaCmdRnd.IsEmpty → P q s.pRndValue.vServer s.cMetaCmdRnd →
      P q m.mValue.vServer s.cMetaCmdRnd) : (s.adopt m).Paired P q := by
  unfold Slot.adopt
  split
  · next ha =>
      intro hne
      change P q (if s.pMode = .none ∨ s.pRndValue.vServer ≠ m.mValue.vServer then m.mValue
        else s.pRndValue).vServer s.cMetaCmdRnd
      split
      · exact hm ha hne (h hne)
      · exact h hne
  · exact h

/-- A move keeps the commands with their values, in the slots and in what is
sent, where the input does. -/
theorem Move.paired (h : Move ρ i e p o p') (hi : i.Carries P ρ)
    (hin : ∀ fr m, i = .recv fr m → m.Paired P) (hf : FreeSlots p) (hp : p.Paired P)
    (hP : ∀ q c, .initCommand q c ∈ o → P q p.pMyId c) : p'.Paired P ∧ ∀ x ∈ o, x.Paired P := by
  cases h with
  | quiet h => exact ⟨hp, by simpa using h.paired⟩
  | tellOld | tellDecided | tellLast | requestFail | replyOk =>
      refine ⟨hp, fun x hx => ?_⟩
      rw [List.mem_singleton.mp hx]
      trivial
  | @newRound _ n o hs hp₀ hc hp' ho =>
      refine ⟨?_, fun x hx => ?_⟩
      · rw [hp']
        refine hp.setMulti rfl fun k => ?_
        change ((p.slot k).newRound _ _).Paired P _
        rw [hf.newRound]
        exact hp.slot k
      · obtain ⟨d, m, rfl, -⟩ := ho x hx
        trivial
  | old | promise => exact ⟨hp.setMulti rfl hp.slot, by simp⟩
  | @gather fr m hi' hp₀ ha hr =>
      subst hi'
      refine ⟨hp.setMulti rfl fun k => ?_, by simp⟩
      change (if m.lPage = p.pMulti.pPage then (p.slot k).adopt (m.lPaxos k) else p.slot k).Paired P _
      split
      · next hpage =>
          rw [hp₀] at ha hr hpage hp ⊢
          exact Slot.adopt_paired (hp.slot k) (hi ha hr hpage k)
      · exact hp.slot k
  | @win fr m d own ks o hi' hp₀ ha hr hq hown ho =>
      refine ⟨hp.setMulti rfl fun k => ?_, fun x hx => ?_⟩
      · change (if (p.slot k).Open then _ else _ : Slot).Paired P _
        split_ifs
        · exact Slot.cast_paired _ _ _ _ (hp.slot k)
        · exact hp.slot k
        · exact hp.slot k
      · obtain ⟨k, -, -, hx⟩ := ho x hx
        exact hx.paired (hp.slot k)
  | @recast fr m w o hi' hp₀ hpage hc hown ho =>
      refine ⟨hp.setSlot ?_, fun x hx => (ho x hx).paired (hp.slot m.bK)⟩
      split
      · exact hp.slot m.bK
      · exact hp.slot m.bK
  | @takeCmd fr m hi' hp₀ hr hpage hm hc =>
      subst hi'
      refine ⟨hp.setSlot fun hne => ?_, by simp⟩
      have hmsg := hin fr _ rfl hne
      rw [← hpage] at hmsg
      exact hp₀ ▸ hi (hp₀ ▸ hr) (hp₀ ▸ hpage) (hp₀ ▸ hm) (hp₀ ▸ hc) (hp₀ ▸ hmsg)
  | @addAcc fr m => exact ⟨hp.setSlot (hp.slot m.aK), by simp⟩
  | @decide _ fr m _ _ hi' hr hpage hm hme hq hv hc ho he =>
      have hdec : ((p.setSlot m.aK Slot.win).slot m.aK).pMode = .decided := by
        rw [Replica.slot_setSlot_self]
        rfl
      refine ⟨he.paired hdec (hp.setSlot (hp.slot m.aK)), fun x hx => ?_⟩
      rcases List.mem_append.mp hx with hx | hx
      · exact (ho x hx).paired (hp.slot m.aK)
      · exact he.out_paired hdec x hx
  | @learn _ fr k v c mark _ hi' hp₀ hm hc he =>
      have hdec : ((p.setSlot k (Slot.decide v c p.pMyId mark)).slot k).pMode = .decided := by
        rw [Replica.slot_setSlot_self]
        rfl
      refine ⟨he.paired hdec (hp.setSlot fun hne => ?_), he.out_paired hdec⟩
      change P (p.seq k) v.vServer c
      rcases hi' with ⟨m, hi', hpage, rfl, rfl, rfl, -⟩ | ⟨m, hi', hpage, rfl, rfl, rfl, -⟩
      · have hmsg := hin fr _ hi' hne
        rw [← hpage] at hmsg
        exact hmsg
      · have hmsg := hin fr _ hi' hne
        unfold Replica.seq
        rw [hpage, toSeq_toPage]
        exact hmsg
  | @store fr m held o hi' hp₀ hs hr hpage hm hc ho =>
      have hslot : (Slot.store m p.pMyId (p.slot m.bK)).Paired P (p.seq m.bK) := by
        intro hne
        have hmsg := hin fr _ hi' hne
        rw [← hpage] at hmsg
        exact hmsg
      refine ⟨hp.setSlot hslot, fun x hx => ?_⟩
      rcases List.mem_cons.mp hx with rfl | hx
      · trivial
      · obtain ⟨-, a, rfl, ha⟩ := ho x hx
        refine ha.paired ?_
        rw [Replica.slot_setSlot_self]
        exact hslot
  | @release k o hs hm ho =>
      refine ⟨hp.setSlot (hp.slot k), fun x hx => ?_⟩
      obtain ⟨d, a, rfl, ha⟩ := ho x hx
      exact ha.paired (hp.slot k)
  | @request q cmd v k c epoch d w o hi' hp₀ hcmd hN hmy hpage hk hm hc hown hq ho =>
      have hslot : (((p.slot k).init p.pMyId { validate := v } c).propose epoch .beginCast).Paired P
          (p.seq k) := fun _ => hP _ _ List.mem_cons_self
      have hqp : q.Paired P := by
        rw [hq]
        exact hp.setSlot hslot
      refine ⟨hqp.setSlot (Slot.cast_paired _ _ _ _ (hqp.slot k)), fun x hx => ?_⟩
      rcases List.mem_cons.mp hx with rfl | hx
      · trivial
      · exact (ho x hx).paired (hqp.slot k)
  | winSole =>
      refine ⟨hp.setMulti rfl fun k => ?_, by simp⟩
      change (if (p.slot k).pMode ≠ .none ∧ (p.slot k).pMode ≠ .decided then _ else _ :
        Slot).Paired P _
      split
      · exact hp.slot k
      · exact hp.slot k
  | @requestSole cmd v k c epoch =>
      refine ⟨hp.setSlot fun _ => hP _ _ List.mem_cons_self, fun x hx => ?_⟩
      rw [List.mem_singleton.mp hx]
      trivial
  | @sole _ k d w _ _ hi' hN hm ha hc ho he =>
      have hdec : ((p.setSlot k fun s => (s.cast p.pMyId p.curRnd d
          (w ∧ s.pRndValue.vFrom = p.pMyId)).win).slot k).pMode = .decided := by
        rw [Replica.slot_setSlot_self]
        rfl
      refine ⟨he.paired hdec (hp.setSlot ?_), fun x hx => ?_⟩
      · exact (Slot.cast_paired _ _ d _ (hp.slot k)).congr rfl rfl
      · rcases List.mem_append.mp hx with hx | hx
        · exact (ho x hx).paired (hp.slot k)
        · rcases List.mem_cons.mp hx with rfl | hx
          · trivial
          · exact he.out_paired hdec x hx
  | @soleFail k w o hi' hN hm hc ho =>
      refine ⟨hp, fun x hx => ?_⟩
      rcases ho x hx with hx | rfl
      · exact hx.paired (hp.slot k)
      · trivial

theorem Moves.paired (h : Moves ρ i e ρ.toReplica o p') (hi : i.Carries P ρ)
    (hin : ∀ fr m, i = .recv fr m → m.Paired P) (hf : FreeSlots ρ.toReplica)
    (hp : ρ.toReplica.Paired P) (hP : ∀ q c, .initCommand q c ∈ o → P q ρ.pMyId c) :
    p'.Paired P ∧ ∀ x ∈ o, x.Paired P := by
  have hinv := h.invariant (I := fun o p => p.pMyId = ρ.pMyId ∧ FreeSlots p ∧
    ((∀ q c, .initCommand q c ∈ o → P q ρ.pMyId c) → p.Paired P ∧ ∀ x ∈ o, x.Paired P))
    ⟨rfl, hf, fun _ => ⟨hp, by simp⟩⟩ ?_
  · exact hinv.2.2 hP
  rintro o p o' p' ⟨hme, hf, hold⟩ hmove
  refine ⟨hmove.setup.1.trans hme, hmove.freeSlots hf, fun hP => ?_⟩
  obtain ⟨hp, ho⟩ := hold fun q c hm => hP q c (List.mem_append_left _ hm)
  obtain ⟨hp', ho'⟩ := hmove.paired hi hin hf hp fun q c hm =>
    hme ▸ hP q c (List.mem_append_right _ hm)
  exact ⟨hp', fun x hx => (List.mem_append.mp hx).elim (ho x) (ho' x)⟩

/-- The numbers of a page that do not wrap point back at their slots. -/
theorem toSeq_toK {page : UInt32} {k : K} (h : page.toNat * paxosMax + paxosMax ≤ 2 ^ 32) :
    toSeq page (toK (toSeq page k)) = toSeq page k := by
  have hk : (k : ℕ) < 10 := k.isLt
  have hpage : page.toNat * 10 + 10 ≤ 2 ^ 32 := h
  have hseq : (toSeq page k).toNat = page.toNat * 10 + k := by
    unfold toSeq
    rw [UInt32.toNat_add, UInt32.toNat_mul]
    simp only [Nat.toUInt32]
    rw [UInt32.toNat_ofNat_of_lt' (by simp only [UInt32.size]; omega)]
    change (page.toNat * 10 % 2 ^ 32 + k) % 2 ^ 32 = _
    omega
  have hslot : ((toK (toSeq page k) : K) : ℕ) = k := by
    change (toSeq page k).toNat % 10 = k
    rw [hseq]
    omega
  rw [hslot]

theorem Input.KeepsPairs.carries (h : i.KeepsPairs ρ) : i.Carries P ρ := by
  cases i with
  | recv fr m =>
      cases m with
      | last m => exact fun ha hr hpage k had hne hP => h ha hr hpage k had hne ▸ hP
      | accept m => exact fun hr hpage hm hc hP => h hr hpage hm hc ▸ hP
      | collect m => exact fun k j c hP => toSeq_toK h ▸ hP
      | _ => trivial
  | _ => trivial

/-- A reply of a catch-up has the command of its value. -/
theorem Out.RplFrom.paired {m : MsgCatchupRpl} {x : Out} (hx : x.rpl = some m)
    (h : x.RplFrom (ρ.pMulti :: ρ.pMultiLnk) i) (hi : i.Carries P ρ)
    (hp : ρ.toReplica.Paired P) : (Msg.catchupRpl m).Paired P := by
  intro hne
  obtain ⟨mu, hmu, hv, hc, hseq⟩ := h m hx hne
  rw [hc] at hne
  have hslot := hp mu hmu (toK m.cSeq) hne
  change P m.cSeq m.cPaxosI.pRndValue.vServer m.cMetaCmd
  rw [hc, hv]
  rcases hseq with hpage | ⟨fr, c, rfl, hpage, k, hk⟩
  · rwa [hpage, toSeq_toPage] at hslot
  · rw [hpage, hk] at hslot
    rw [hk]
    exact hi k _ _ hslot

/-! ### Runs of a cell -/

/-- The commands that were passed to `InitCommand`. -/
def Sys.Proposed (S : Sys) : Proposals := fun q j c => (j, .initCommand q c) ∈ S.log

/-- Every command is with its value, at the running servers and on the way. -/
structure Sys.Paired (S : Sys) : Prop where
  me : ∀ s, S.up s = true → (S.srv s).pMyId = s
  free : ∀ s, S.up s = true → FreeSlots (S.srv s).toReplica
  srv : ∀ s, S.up s = true → (S.srv s).toReplica.Paired S.Proposed
  sent : ∀ x ∈ S.sent, x.msg.Paired S.Proposed

theorem Msg.Paired.mono {P' : Proposals} {m : Msg} (h : m.Paired P)
    (hle : ∀ q j c, P q j c → P' q j c) : m.Paired P' := by
  cases m <;> first | trivial | exact fun hne => hle _ _ _ (h hne)

theorem Replica.Paired.mono {P' : Proposals} (h : p.Paired P)
    (hle : ∀ q j c, P q j c → P' q j c) : p.Paired P' :=
  fun mu hmu k hne => hle _ _ _ (h mu hmu k hne)

theorem Config.init_paired (cfg : Config) : cfg.init.Paired := by
  have hserver : ∀ s, (cfg.server s).pMyId = s ∧
      (cfg.server s).toReplica.Paired cfg.init.Proposed := by
    intro s
    unfold Config.server
    cases cfg.mode s
    all_goals
      refine ⟨rfl, fun mu hmu k hne => ?_⟩
      rw [List.mem_singleton.mp hmu] at hne
      exact absurd rfl hne
  exact ⟨fun s _ => (hserver s).1, fun s _ => server_freeSlots cfg s, fun s _ => (hserver s).2,
    by simp [Config.init, Sys.sent]⟩

theorem Sys.mem_log_run {S : Sys} {s : ℕ} (hu : S.up s = true) {x : ℕ × Out} :
    x ∈ (S.run s i e).log ↔ x ∈ S.log ∨ x.1 = s ∧ x.2 ∈ (handle i e (S.srv s)).out := by
  have hlog : (S.run s i e).log = S.log ++ (handle i e (S.srv s)).out.map fun o => (s, o) := by
    unfold Sys.run
    rw [if_pos hu]
  rw [hlog, List.mem_append, List.mem_map]
  refine or_congr_right ⟨?_, ?_⟩
  · rintro ⟨y, hy, rfl⟩
    exact ⟨rfl, hy⟩
  · rintro ⟨rfl, hy⟩
    exact ⟨_, hy, rfl⟩

/-- The commands at the running servers and on the way are in `P`. -/
structure Sys.Keeps (P : Proposals) (S : Sys) : Prop where
  me : ∀ s, S.up s = true → (S.srv s).pMyId = s
  free : ∀ s, S.up s = true → FreeSlots (S.srv s).toReplica
  srv : ∀ s, S.up s = true → (S.srv s).toReplica.Paired P
  sent : ∀ x ∈ S.sent, x.msg.Paired P

/-- A step that carries the pairs at its server carries them in the cell. -/
theorem Sys.Keeps.run {P' : Proposals} {S : Sys} {a : Act} {s : ℕ} (h : S.Keeps P)
    (ha : S.input a = some (s, i, e)) (hu : S.up s = true) (hok : i.Carries P' (S.srv s))
    (hle : ∀ q j c, P q j c → P' q j c)
    (hP : ∀ q c, .initCommand q c ∈ (handle i e (S.srv s)).out → P' q s c) :
    (S.run s i e).Keeps P' := by
  obtain ⟨p, hmoves, hst⟩ := handle_moves (S.srv s) i e
  have hme := h.me s hu
  have hin : ∀ fr m, i = .recv fr m → m.Paired P' := by
    rintro fr m rfl
    by_cases hm : m = .testNewRound
    · rw [hm]
      trivial
    · exact (h.sent _ (Sys.input_recv ha hm)).mono hle
  have hold := (h.srv s hu).mono hle
  obtain ⟨hp, ho⟩ := hmoves.paired hok hin (h.free s hu) hold
    fun q c hm => hme.symm ▸ hP q c hm
  have hsetup : p.pMyId = s := hmoves.setup.1.trans hme
  have hfree : FreeSlots p :=
    hmoves.invariant (I := fun _ q => FreeSlots q) (h.free s hu) fun hq hmove => hmove.freeSlots hq
  refine ⟨fun s' hs' => ?_, fun s' hs' => ?_, fun s' hs' => ?_, fun x hx => ?_⟩
  · rcases Sys.up_run hu hst hs' with ⟨hup, ⟨hne, heq⟩ | ⟨heq, hp⟩⟩
    · rw [heq]
      exact h.me s' hup
    · exact (congrArg Replica.pMyId hp).trans (hsetup.trans heq.symm)
  · rcases Sys.up_run hu hst hs' with ⟨hup, ⟨hne, heq⟩ | ⟨heq, hp⟩⟩
    · rw [heq]
      exact h.free s' hup
    · rw [hp]
      exact hfree
  · rcases Sys.up_run hu hst hs' with ⟨hup, ⟨hne, heq⟩ | ⟨heq, heq'⟩⟩
    · rw [heq]
      exact (h.srv s' hup).mono hle
    · rw [heq']
      exact hp
  · rcases (Sys.mem_sent_run hu).mp hx with hx | ⟨hfr, hx⟩
    · exact (h.sent x hx).mono hle
    · cases hm : x.msg with
      | catchupRpl m =>
          rw [hm] at hx
          exact (handle_rpls _ i e _ hx).paired rfl hok hold
      | _ =>
          rw [hm] at hx
          exact ho _ hx

/-- Every step that keeps the pairs at its server keeps them in the cell. -/
theorem Sys.Paired.run {S : Sys} {a : Act} {s : ℕ} (h : S.Paired)
    (ha : S.input a = some (s, i, e)) (hu : S.up s = true) (hok : i.KeepsPairs (S.srv s)) :
    (S.run s i e).Paired := by
  have hkeeps : S.Keeps S.Proposed := ⟨h.me, h.free, h.srv, h.sent⟩
  obtain ⟨hme, hfree, hsrv, hsent⟩ := hkeeps.run ha hu hok.carries
    (fun q j c hp => (Sys.mem_log_run hu).mpr (.inl hp))
    fun q c hm => (Sys.mem_log_run hu).mpr (.inr ⟨rfl, hm⟩)
  exact ⟨hme, hfree, hsrv, hsent⟩

theorem Reachable.paired {cfg : Config} {S : Sys}
    (h : Reachable cfg (fun S s i _ => i.KeepsPairs (S.srv s)) S) : S.Paired := by
  induction h with
  | init => exact cfg.init_paired
  | step h ha hu hok ih => exact ih.run ha hu hok

end

/-- In every run in which no value is put beside the command of another one,
the command of a slot is the one that the server of its value passed to
`InitCommand` for its number, and so is the command of every message. -/
theorem command_of_value {cfg : Config} {S : Sys}
    (h : Reachable cfg (fun S s i _ => i.KeepsPairs (S.srv s)) S) :
    (∀ s, S.up s = true → ∀ k, ((S.srv s).slot k).pRndValue.IsDefined →
      ((S.srv s).slot k).Paired S.Proposed ((S.srv s).seq k)) ∧
    ∀ x ∈ S.sent, x.msg.Paired S.Proposed :=
  ⟨fun s hs k _ => (h.paired.srv s hs).slot k, h.paired.sent⟩

/-! ### Two leaders -/

theorem three_core : 0 < 3 := Nat.succ_pos 2

/-- Three core servers, of which server 1 is the oldest. -/
def rivalCell : Config where
  core := 3
  birth s := if s = 1 then -1 else 0
  core_pos := three_core

/-- Server 0 wins round (0,1) with server 2 and is asked for the command `a`.
Server 1 hears of the round, is elected, wins round (1,2) with server 2 and is
asked for `b`. Then server 0 collects once more, and server 1 answers. -/
def rivalActs (a b : List UInt8) : List Act :=
  [.heartbeat 0 {}, .newRound 0 {}, .deliver 5 {}, .deliver 6 {}, .request 0 a false {},
    .deliver 4 {}, .heartbeat 1 {}, .deliver 13 {}, .deliver 15 {}, .newRound 1 {},
    .deliver 17 {}, .deliver 18 {}, .request 1 b false {}, .newRound 0 {}, .deliver 21 {},
    .deliver 23 {}]

abbrev rivals (a b : List UInt8) : Sys := (rivalActs a b).foldl Sys.step rivalCell.init

theorem Reachable.acts {cfg : Config} {S : Sys} (h : Reachable cfg (fun _ _ _ _ => True) S)
    (as : List Act) : Reachable cfg (fun _ _ _ _ => True) (as.foldl Sys.step S) := by
  induction as generalizing S with
  | nil => exact h
  | cons a as ih => exact ih (h.act a fun _ _ _ _ => trivial)

/-- The run up to the first command: nothing is adopted. -/
abbrev rivalStart : Sys := ((rivalActs [97] [98]).take 5).foldl Sys.step rivalCell.init

theorem command_of_value_start :
    (∀ s, rivalStart.up s = true → ∀ k, ((rivalStart.srv s).slot k).pRndValue.IsDefined →
      ((rivalStart.srv s).slot k).Paired rivalStart.Proposed ((rivalStart.srv s).seq k)) ∧
    ∀ x ∈ rivalStart.sent, x.msg.Paired rivalStart.Proposed := by
  have hact {S : Sys} (h : Reachable rivalCell (fun S s i _ => i.KeepsPairs (S.srv s)) S) (a : Act)
      (ha : (S.input a).all (fun x => x.2.1.KeepsPairs (S.srv x.1)) = true) :
      Reachable rivalCell (fun S s i _ => i.KeepsPairs (S.srv s)) (S.step a) := by
    refine h.act a fun s i e hin => ?_
    rw [hin] at ha
    exact of_decide_eq_true ha
  have h₁ := hact (hact .init (.heartbeat 0 {}) (by decide +kernel)) (.newRound 0 {})
    (by decide +kernel)
  have h₂ := hact (hact h₁ (.deliver 5 {}) (by decide +kernel)) (.deliver 6 {}) (by decide +kernel)
  exact command_of_value (hact h₂ (.request 0 [97] false {}) (by decide +kernel))

def Out.proposal : Out → Option (UInt32 × MetaCmd)
  | .initCommand q c => some (q, c)
  | _ => none

theorem Sys.Proposed.mem {S : Sys} {q : UInt32} {j : ℕ} {c : MetaCmd} (h : S.Proposed q j c) :
    (j, q, c) ∈ S.log.filterMap fun x => x.2.proposal.map fun y => (x.1, y) :=
  List.mem_filterMap.mpr ⟨_, h, rfl⟩

/-- Server 0 adopts the value of server 1 and keeps its own command with it. -/
theorem command_of_other_value :
    ¬ ∀ (cfg : Config) (S : Sys), Reachable cfg (fun _ _ _ _ => True) S →
      (∀ s, S.up s = true → ∀ k, ((S.srv s).slot k).pRndValue.IsDefined →
        ((S.srv s).slot k).Paired S.Proposed ((S.srv s).seq k)) ∧
      ∀ x ∈ S.sent, x.msg.Paired S.Proposed := by
  intro h
  have hrun : Reachable rivalCell (fun _ _ _ _ => True) (rivals [97] [98]) :=
    Reachable.init.acts _
  have hslot := (h _ _ hrun).1 0 (by decide +kernel) 0 (by decide +kernel) (by decide +kernel)
  exact absurd hslot.mem (by decide +kernel)

end PaxosSolutions
