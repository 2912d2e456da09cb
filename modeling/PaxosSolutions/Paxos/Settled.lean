import PaxosSolutions.Paxos.Pairing

/-!
# Where decisions come from

A decision is made by a leader with a majority, or by the only core server. It
is passed on in `MSG_SUCCESS` and in the replies of a catch-up, it waits in the
gap table, and it is executed. What holds of every decision where it is made
holds of it on all of these ways.
-/
namespace PaxosSolutions
open NWGadget Lib

/-- What is said of a decision: the number and the command. -/
abbrev Decisions : Type := UInt32 → MetaCmd → Prop

def Slot.Settled (D : Decisions) (q : UInt32) (s : Slot) : Prop :=
  s.pMode = .decided → ¬ s.cMetaCmdRnd.IsEmpty ∧ D q s.cMetaCmdRnd

/-- The decided slots of all pages and the decisions that wait. -/
structure Replica.Settled (D : Decisions) (p : Replica) : Prop where
  slot : ∀ mu ∈ p.pMulti :: p.pMultiLnk, ∀ k : K, (mu.slots k).Settled D (toSeq mu.pPage k)
  gap : ∀ q, ∀ g ∈ p.pGaps.valuesAt q, D q g.gMetaCmd

def Msg.Settled (D : Decisions) : Msg → Prop
  | .success m => D (toSeq m.sPage m.sK) m.sMetaCmd
  | .catchupRpl m => ¬ m.cMetaCmd.IsEmpty → D m.cSeq m.cMetaCmd
  | _ => True

/-- A reply of a catch-up is from a decided slot; which one is looked at later. -/
def Out.Settled (D : Decisions) : Out → Prop
  | .execute q _ c => D q c
  | .send _ (.success m) => (Msg.success m).Settled D
  | .send _ (.catchupRpl m) => ¬ m.cMetaCmd.IsEmpty → m.cPaxosI.pMode = .decided
  | _ => True

/-- The leader of `p` has a majority for slot `k`, or it is alone. -/
def Replica.Chooses (p : Replica) (k : K) : Prop :=
  ¬ (p.slot k).cMetaCmdRnd.IsEmpty ∧
    (p.pMyId ∈ (p.slot k).pRndAccQuo.qMember ∧ quorumMajority (p.slot k).pRndAccQuo ∨ p.pMax = 1)

/-- Commands whatever server proposed them, as pairs. -/
abbrev Decisions.pairs (D : Decisions) : Proposals := fun q _ c => D q c

/-- A page that is collected ends before its numbers wrap. -/
def Input.Unwrapped : Input → Prop
  | .recv _ (.collect m) => m.cPage.toNat * paxosMax + paxosMax ≤ 2 ^ 32
  | _ => True

instance : (i : Input) → Decidable i.Unwrapped
  | .recv _ (.collect _) => inferInstanceAs (Decidable (_ ≤ _))
  | .recv _ (.last _) | .recv _ (.accept _) | .recv _ (.alive _) | .recv _ (.catchupReq _)
  | .recv _ (.catchupRpl _) | .recv _ .catchupEnd | .recv _ (.oldRound _) | .recv _ (.begin _)
  | .recv _ (.beginRedirect _) | .recv _ (.success _) | .recv _ .testNewRound | .request _ _
  | .detector | .heartbeat => isTrue trivial

section
variable {D : Decisions} {k : K} {ρ : Paxos} {i : Input} {e : Env} {p p' : Replica} {o : List Out}

namespace Replica.Settled

theorem page (h : p.Settled D) (k : K) : (p.slot k).Settled D (p.seq k) :=
  h.slot p.pMulti List.mem_cons_self k

/-- Another state of the page alone. -/
theorem setMulti {f : Multi → Multi} (h : p.Settled D) (hpage : (f p.pMulti).pPage = p.page)
    (hslot : ∀ k, ((f p.pMulti).slots k).Settled D (p.seq k)) : (p.setMulti f).Settled D := by
  refine ⟨fun mu hmu k => ?_, h.gap⟩
  rcases List.mem_cons.mp hmu with rfl | hmu
  · change ((f p.pMulti).slots k).Settled D (toSeq (f p.pMulti).pPage k)
    rw [hpage]
    exact hslot k
  · exact h.slot mu (List.mem_cons_of_mem _ hmu) k

theorem setSlot {f : Slot → Slot} (h : p.Settled D)
    (hf : (f (p.slot k)).Settled D (p.seq k)) : (p.setSlot k f).Settled D := by
  refine h.setMulti rfl fun k' => ?_
  have hslot : (p.setSlot k f).slot k' = if k' = k then f (p.slot k) else p.slot k' :=
    Replica.slot_setSlot ..
  change ((p.setSlot k f).slot k').Settled D _
  rw [hslot]
  split
  · next heq => exact heq ▸ hf
  · exact h.page k'

end Replica.Settled

/-! ### Execution -/

theorem Out.Quiet.settled {x : Out} (h : x.Quiet) : x.Settled D := by
  cases x with
  | send d m =>
      cases m with
      | catchupRpl m => exact fun hne => absurd h.2 hne
      | _ => trivial
  | execute => exact h.elim
  | _ => trivial

theorem ExecMove.settled (h : ExecMove k p o p') (hs : p.Settled D) :
    p'.Settled D ∧ ∀ x ∈ o, x.Settled D := by
  cases h with
  | @quiet x h =>
      refine ⟨hs, fun y hy => ?_⟩
      rw [List.mem_singleton.mp hy]
      exact h.settled
  | reject => exact ⟨hs, by simp [Out.Settled]⟩
  | execSlot hm => exact ⟨hs, by simpa [Out.Settled] using (hs.page k hm).2⟩
  | @execGap x g hg =>
      have hmem : g ∈ p.pGaps.valuesAt p.pNextDecide := by
        have hval := Hash.getItem_value p.pGaps p.pNextDecide
        rw [hg] at hval
        exact List.mem_of_head? hval.symm
      exact ⟨hs, by simpa [Out.Settled] using hs.gap _ g hmem⟩
  | nextK | count => exact ⟨hs.setMulti rfl hs.page, by simp⟩
  | advance => exact ⟨⟨hs.slot, hs.gap⟩, by simp⟩
  | drop =>
      refine ⟨⟨hs.slot, fun q g hg => hs.gap q g ?_⟩, by simp⟩
      rw [Hash.valuesAt_removeItem] at hg
      split at hg
      · next hq => exact hq ▸ List.mem_of_mem_tail hg
      · exact hg
  | park hm =>
      refine ⟨⟨hs.slot, fun q g hg => ?_⟩, by simp⟩
      rw [Hash.valuesAt_put] at hg
      rcases List.mem_append.mp hg with hg | hg
      · exact hs.gap q g hg
      · split at hg
        · next hq =>
            rw [List.mem_singleton.mp hg, hq]
            exact (hs.page k hm).2
        · cases hg
  | turn hlnk =>
      refine ⟨⟨fun mu hmu k => ?_, hs.gap⟩, by simp⟩
      rcases List.mem_cons.mp hmu with rfl | hmu
      · exact fun hm => nomatch hm
      · exact hs.slot mu (hlnk.subset hmu) k

theorem Execs.settled (h : Execs k p o p') (hm : (p.slot k).pMode = .decided)
    (hs : p.Settled D) : p'.Settled D ∧ ∀ x ∈ o, x.Settled D := by
  refine (h.goes hm).invariant (I := fun o q => q.Settled D ∧ ∀ x ∈ o, x.Settled D)
    ⟨hs, by simp⟩ ?_
  rintro o q o' q' ⟨hq, ho⟩ hmove
  obtain ⟨hq', ho'⟩ := hmove.settled hq
  exact ⟨hq', fun x hx => (List.mem_append.mp hx).elim (ho x) (ho' x)⟩

/-! ### Moves -/

theorem Slot.Settled.calm {q : UInt32} {s s' : Slot} (h : s.Settled D q) (hc : s.Calm s') :
    s'.Settled D q := by
  intro hm
  have hm' := hc.mode.mp hm
  rw [(hc.keep hm').2]
  exact h hm'

theorem Slot.Settled.of_ne {q : UInt32} {s : Slot} (h : s.pMode ≠ .decided) : s.Settled D q :=
  fun hm => absurd hm h

theorem IsCast.settled {bTo : ℕ} {r : Round} {own : Bool} {x : Out}
    (h : IsCast p k bTo r own x) : x.Settled D := by
  rcases h with ⟨j, m, rfl, -⟩ | ⟨-, rfl⟩ <;> trivial

theorem IsBeginCast.settled {own : Bool} {x : Out} (h : IsBeginCast p k own x) : x.Settled D := by
  unfold IsBeginCast at h
  split at h
  · exact h.2.settled
  · obtain ⟨m, rfl, -⟩ := h
    trivial

theorem Execs.cmd (h : Execs k p o p') : ¬ (p.slot k).cMetaCmdRnd.IsEmpty := by
  obtain ⟨s, e, rfl, hv, -, -⟩ := h
  intro hc
  rw [exec_error hc] at hv
  cases hv

/-- A decided slot is executed, or its decision waits. -/
theorem Execs.settles {f : Slot → Slot} (h : Execs k (p.setSlot k f) o p')
    (hm : (f (p.slot k)).pMode = .decided) (hs : p.Settled D)
    (hD : D (p.seq k) (f (p.slot k)).cMetaCmdRnd) : p'.Settled D ∧ ∀ x ∈ o, x.Settled D := by
  have hcmd := h.cmd
  rw [Replica.slot_setSlot_self] at hcmd
  exact h.settled (by rw [Replica.slot_setSlot_self, hm]) (hs.setSlot fun _ => ⟨hcmd, hD⟩)

/-- A move that chooses only what is in `D` keeps all decisions in `D`. -/
theorem Move.settled (h : Move ρ i e p o p') (hin : ∀ fr m, i = .recv fr m → m.Settled D)
    (hD : ∀ k, p.Chooses k → D (p.seq k) (p.slot k).cMetaCmdRnd) (hs : p.Settled D) :
    p'.Settled D ∧ ∀ x ∈ o, x.Settled D := by
  cases h with
  | @quiet x h =>
      refine ⟨hs, fun y hy => ?_⟩
      rw [List.mem_singleton.mp hy]
      exact h.settled
  | tellOld | tellLast | requestFail | replyOk => exact ⟨hs, by simp [Out.Settled]⟩
  | tellDecided h =>
      obtain ⟨-, mu, -, -, hm, -, hinst, -⟩ := h
      refine ⟨hs, fun x hx => ?_⟩
      rw [List.mem_singleton.mp hx]
      exact fun _ => hinst ▸ hm
  | newRound hi hp hc hp' ho =>
      refine ⟨?_, fun x hx => ?_⟩
      · rw [hp']
        exact hs.setMulti rfl fun k => (hs.page k).calm (Slot.newRound_calm ..)
      · obtain ⟨j, m, rfl, -⟩ := ho x hx
        trivial
  | old | promise => exact ⟨hs.setMulti rfl hs.page, by simp⟩
  | @gather fr m =>
      refine ⟨hs.setMulti rfl fun k => ?_, by simp⟩
      change (if m.lPage = p.pMulti.pPage then _ else _ : Slot).Settled D _
      split
      · exact (hs.page k).calm (Slot.adopt_calm ..)
      · exact hs.page k
  | win hi hp ha hr hq hown ho =>
      refine ⟨hs.setMulti rfl fun k => (hs.page k).calm (Multi.winCast_calm k), fun x hx => ?_⟩
      obtain ⟨k, -, -, hx⟩ := ho x hx
      exact hx.settled
  | @recast fr m w o hi hp hpage hc hown ho =>
      refine ⟨hs.setSlot ?_, fun x hx => (ho x hx).settled⟩
      split
      · exact hs.page m.bK
      · exact hs.page m.bK
  | takeCmd hi hp hr hpage hm | addAcc hi hr hpage hm =>
      exact ⟨hs.setSlot (.of_ne (by rw [hm]; decide)), by simp⟩
  | @decide _ fr m o₁ o₂ hi hr hpage hm hme hq hf hc ho he =>
      have hchosen := hD m.aK ⟨hc, .inl ⟨hme, hq⟩⟩
      obtain ⟨hs', ho'⟩ := he.settles rfl hs hchosen
      refine ⟨hs', fun x hx => (List.mem_append.mp hx).elim (fun hx => ?_) (ho' x)⟩
      obtain ⟨j, ms, rfl, hpage, hk, -, hcmd⟩ := ho x hx
      change D (toSeq ms.sPage ms.sK) ms.sMetaCmd
      rw [hpage, hk, hcmd]
      exact hchosen
  | @learn _ fr k v c mark _ hi hp hm hc he =>
      refine he.settles rfl hs ?_
      change D (p.seq k) c
      rcases hi with ⟨m, hi, hpage, rfl, -, rfl, -⟩ | ⟨m, hi, hpage, rfl, -, rfl, -⟩
      · unfold Replica.seq
        rw [hpage]
        exact hin fr _ hi
      · unfold Replica.seq
        rw [hpage, toSeq_toPage]
        exact hin fr _ hi hc
  | @store fr m held o hi hp hsup hr hpage hm hc ho =>
      refine ⟨hs.setSlot (.of_ne ?_), fun x hx => ?_⟩
      · change (if (p.slot m.bK).pMode = .none then .wait else (p.slot m.bK).pMode) ≠ .decided
        split
        · decide
        · exact hm
      · rcases List.mem_cons.mp hx with rfl | hx
        · trivial
        · obtain ⟨-, a, rfl, -⟩ := ho x hx
          trivial
  | @release k o hsup hm ho =>
      refine ⟨hs.setSlot (hs.page k), fun x hx => ?_⟩
      obtain ⟨j, a, rfl, -⟩ := ho x hx
      trivial
  | @request q cmd v k c epoch d w o hi hp hcmd hN hmy hpage hk hm hc hown hq ho =>
      refine ⟨?_, fun x hx => ?_⟩
      · rw [hq, Replica.setSlot_setSlot]
        exact hs.setSlot (.of_ne (Slot.cast_open ..).2)
      · rcases List.mem_cons.mp hx with rfl | hx
        · trivial
        · exact (ho x hx).settled
  | winSole => exact ⟨hs.setMulti rfl fun k => (hs.page k).calm (Multi.win_calm k), by simp⟩
  | requestSole =>
      exact ⟨hs.setSlot (.of_ne nofun), by simp [Out.Settled]⟩
  | @sole _ k d w o₁ o₂ hi hN hm ha hc ho he =>
      have hcast : ((p.slot k).cast p.pMyId p.curRnd d
          (w ∧ (p.slot k).pRndValue.vFrom = p.pMyId)).cMetaCmdRnd = (p.slot k).cMetaCmdRnd := by
        unfold Slot.cast Slot.vote
        split <;> rfl
      obtain ⟨hs', ho'⟩ := he.settles rfl hs (hcast.symm ▸ hD k ⟨hc, .inr hN⟩)
      refine ⟨hs', fun x hx => (List.mem_append.mp hx).elim (fun hx => (ho x hx).settled) ?_⟩
      intro hx
      rcases List.mem_cons.mp hx with rfl | hx
      · trivial
      · exact ho' x hx
  | soleFail hi hN hm hc ho =>
      refine ⟨hs, fun x hx => ?_⟩
      rcases ho x hx with hx | rfl
      · exact hx.settled
      · trivial

/-- A row of moves that choose only what is in `D`. -/
theorem moves_settled {J : Replica → Prop}
    (h : Runs (fun p o p' => J p ∧ Move ρ i e p o p') ρ.toReplica o p')
    (hin : ∀ fr m, i = .recv fr m → m.Settled D)
    (hD : ∀ p k, J p → p.Chooses k → D (p.seq k) (p.slot k).cMetaCmdRnd)
    (hs : ρ.toReplica.Settled D) : p'.Settled D ∧ ∀ x ∈ o, x.Settled D := by
  refine h.invariant (I := fun o q => q.Settled D ∧ ∀ x ∈ o, x.Settled D) ⟨hs, by simp⟩ ?_
  rintro o q o' q' ⟨hq, ho⟩ ⟨hJ, hmove⟩
  obtain ⟨hq', ho'⟩ := hmove.settled hin (hD q · hJ) hq
  exact ⟨hq', fun x hx => (List.mem_append.mp hx).elim (ho x) (ho' x)⟩

/-- A reply of a catch-up has the command of a decision. -/
theorem Out.RplFrom.settled {m : MsgCatchupRpl} {x : Out} (hx : x.rpl = some m)
    (h : x.RplFrom (ρ.pMulti :: ρ.pMultiLnk) i)
    (hm : ¬ m.cMetaCmd.IsEmpty → m.cPaxosI.pMode = .decided) (hi : i.Carries D.pairs ρ)
    (hs : ρ.toReplica.Settled D) : (Msg.catchupRpl m).Settled D := by
  intro hne
  obtain ⟨mu, hmu, hinst, hc, hseq⟩ := h m hx hne
  have hmode : (mu.slots (toK m.cSeq)).pMode = .decided := by
    rw [← hm hne, hinst]
  have hslot := (hs.slot mu hmu (toK m.cSeq) hmode).2
  change D m.cSeq m.cMetaCmd
  rw [hc]
  rcases hseq with hpage | ⟨fr, c, rfl, hpage, k, hk⟩
  · rwa [hpage, toSeq_toPage] at hslot
  · rw [hpage, hk] at hslot
    rw [hk]
    exact hi k 0 _ hslot

/-! ### Runs of a cell -/

/-- The decisions at the running servers, on the way and executed. -/
structure Sys.Settles (D : Decisions) (S : Sys) : Prop where
  srv : ∀ s, S.up s = true → (S.srv s).toReplica.Settled D
  sent : ∀ x ∈ S.sent, x.msg.Settled D
  done : ∀ s q d c, (s, .execute q d c) ∈ S.log → D q c

theorem Msg.Settled.mono {D' : Decisions} {m : Msg} (h : m.Settled D)
    (hle : ∀ q c, D q c → D' q c) : m.Settled D' := by
  cases m with
  | success m => exact hle _ _ h
  | catchupRpl m => exact fun hne => hle _ _ (h hne)
  | _ => trivial

theorem Replica.Settled.mono {D' : Decisions} (h : p.Settled D)
    (hle : ∀ q c, D q c → D' q c) : p.Settled D' :=
  ⟨fun mu hmu k hm => ⟨(h.slot mu hmu k hm).1, hle _ _ (h.slot mu hmu k hm).2⟩,
    fun q g hg => hle _ _ (h.gap q g hg)⟩

/-- A step that chooses only what is in `D'` keeps all decisions of the cell in `D'`. -/
theorem Sys.Settles.run {D' : Decisions} {J : Replica → Prop} {S : Sys} {a : Act} {s : ℕ}
    (h : S.Settles D) (ha : S.input a = some (s, i, e)) (hu : S.up s = true)
    (hok : i.Carries D'.pairs (S.srv s)) (hle : ∀ q c, D q c → D' q c)
    (hrow : ∀ p, Moves (S.srv s) i e (S.srv s).toReplica (handle i e (S.srv s)).out p →
      Runs (fun p o p' => J p ∧ Move (S.srv s) i e p o p') (S.srv s).toReplica
        (handle i e (S.srv s)).out p)
    (hD : ∀ p k, J p → p.Chooses k → D' (p.seq k) (p.slot k).cMetaCmdRnd) :
    (S.run s i e).Settles D' := by
  obtain ⟨p, hmoves, hst⟩ := handle_moves (S.srv s) i e
  have hin : ∀ fr m, i = .recv fr m → m.Settled D' := by
    rintro fr m rfl
    by_cases hm : m = .testNewRound
    · rw [hm]
      trivial
    · exact (h.sent _ (Sys.input_recv ha hm)).mono hle
  have hold := (h.srv s hu).mono hle
  obtain ⟨hp, ho⟩ := moves_settled (hrow p hmoves) hin hD hold
  refine ⟨fun s' hs' => ?_, fun x hx => ?_, fun s' q d c hx => ?_⟩
  · rcases Sys.up_run hu hst hs' with ⟨hup, ⟨hne, heq⟩ | ⟨heq, heq'⟩⟩
    · rw [heq]
      exact (h.srv s' hup).mono hle
    · rw [heq']
      exact hp
  · rcases (Sys.mem_sent_run hu).mp hx with hx | ⟨hfr, hx⟩
    · exact (h.sent x hx).mono hle
    · cases hm : x.msg with
      | catchupRpl m =>
          rw [hm] at hx
          exact (handle_rpls _ i e _ hx).settled rfl (ho _ hx) hok hold
      | success m =>
          rw [hm] at hx
          exact ho _ hx
      | _ => trivial
  · rcases (Sys.mem_log_run hu).mp hx with hx | ⟨-, hx⟩
    · exact hle q c (h.done s' q d c hx)
    · exact ho _ hx

theorem Config.server_settled (cfg : Config) (s : ℕ) : (cfg.server s).toReplica.Settled D := by
  unfold Config.server
  cases cfg.mode s
  all_goals
    refine ⟨fun mu hmu k hm => ?_, fun q g hg => ?_⟩
    · rw [List.mem_singleton.mp hmu] at hm
      cases hm
    · cases hg

theorem Config.init_settles (cfg : Config) : cfg.init.Settles D :=
  ⟨fun s _ => cfg.server_settled s, by simp [Config.init, Sys.sent], by simp [Config.init]⟩

/-- The states of a row in which all commands are in `P`. -/
structure Replica.Keeping (P : Proposals) (me : ℕ) (p : Replica) : Prop where
  me : p.pMyId = me
  free : FreeSlots p
  paired : p.Paired P

theorem Moves.keeping {P : Proposals} (h : Moves ρ i e ρ.toReplica o p') (hi : i.Carries P ρ)
    (hin : ∀ fr m, i = .recv fr m → m.Paired P) (hP : ∀ q c, .initCommand q c ∈ o → P q ρ.pMyId c)
    (hρ : ρ.toReplica.Keeping P ρ.pMyId) :
    p'.Keeping P ρ.pMyId ∧ Runs (fun p o p' => p.Keeping P ρ.pMyId ∧ Move ρ i e p o p')
      ρ.toReplica o p' := by
  have hrow := h.along (P := (· ∈ o)) hρ (fun _ hx => hx) fun {p o' p'} hp ho hmove => ?_
  · exact ⟨hrow.1, hrow.2.weaken fun hs => ⟨hs.1, hs.2.2⟩⟩
  refine ⟨hmove.setup.1.trans hp.me, hmove.freeSlots hp.free, ?_⟩
  exact (hmove.paired hi hin hp.free hp.paired fun q c hm => hp.me.symm ▸ hP q c (ho _ hm)).1

/-- The row of a step at a server of the cell. -/
theorem Sys.Keeps.row {P P' : Proposals} {S : Sys} {a : Act} {s : ℕ} (h : S.Keeps P)
    (ha : S.input a = some (s, i, e)) (hu : S.up s = true) (hok : i.Carries P' (S.srv s))
    (hle : ∀ q j c, P q j c → P' q j c)
    (hP : ∀ q c, .initCommand q c ∈ (handle i e (S.srv s)).out → P' q s c)
    (hm : Moves (S.srv s) i e (S.srv s).toReplica (handle i e (S.srv s)).out p) :
    Runs (fun p o p' => p.Keeping P' s ∧ Move (S.srv s) i e p o p') (S.srv s).toReplica
      (handle i e (S.srv s)).out p := by
  have hme := h.me s hu
  have hin : ∀ fr m, i = .recv fr m → m.Paired P' := by
    rintro fr m rfl
    by_cases hm : m = .testNewRound
    · rw [hm]
      trivial
    · exact (h.sent _ (Sys.input_recv ha hm)).mono hle
  have hrow := (hm.keeping hok hin (fun q c hm => hme.symm ▸ hP q c hm)
    ⟨rfl, h.free s hu, (h.srv s hu).mono hle⟩).2
  rwa [hme] at hrow

end

end PaxosSolutions
