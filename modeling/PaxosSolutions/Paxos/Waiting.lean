import PaxosSolutions.Paxos.InOrder

/-!
# A server that waits for a decision

A server that starts with `PAXOS_WAIT` has forgotten what it promised, so no
majority may count it before it has executed a decision. `RecvBegin` keeps to
that. The answer to a collection and the start of an own round do not look at
the flag, and as long as neither happens the server stays uncounted.
-/
namespace PaxosSolutions
open NWGadget Lib

/-- Not a reply that a leader counts. -/
def Out.Uncounting : Out → Prop
  | .send _ (.last _) | .send _ (.accept _) => False
  | _ => True

/-- No quorum that the replica keeps has the member `j`. -/
structure Uncounted (j : ℕ) (p : Replica) : Prop where
  inf : j ∉ p.infQuo.qMember
  acc : ∀ k, j ∉ (p.slot k).pRndAccQuo.qMember

/-- The slot is free or decided, and no accept of it was held back. -/
structure Slot.Idle (s : Slot) : Prop where
  mode : s.pMode = .none ∨ s.pMode = .decided
  suppressed : s.pSuppressed = false

/-- The replica leads no round, proposes nothing and is in none of its own
quorums. -/
structure Awaiting (p : Replica) : Prop where
  mode : p.aMode = .none
  own : Uncounted p.pMyId p
  slot : ∀ k, (p.slot k).Idle

/-- The collection is one that the replica answers with `LAST`. -/
def Input.AnswersLast (s : Paxos) : Input → Prop
  | .recv _ (.collect m) => cmpRound s.curRnd m.cCurRnd ≤ 0 ∧
      (cmp32 m.cPage s.page < 0 → getPage s.toReplica m.cPage ≠ none)
  | _ => False

section
variable {j : ℕ} {k : K} {ρ : Paxos} {i : Input} {e : Env} {p p' : Replica} {o : List Out}

theorem Out.Quiet.uncounting {x : Out} (h : x.Quiet) : x.Uncounting := by
  unfold Uncounting
  split
  · exact h
  · exact h
  · trivial

theorem IsCast.uncounting {bTo : ℕ} {r : Round} {own : Bool} {x : Out}
    (h : IsCast p k bTo r own x) : x.Uncounting := by
  rcases h with ⟨_, m, rfl, -⟩ | ⟨-, rfl⟩ <;> trivial

/-! ### Quorums of other servers -/

theorem Uncounted.slots {p p' : Replica} (h : Uncounted j p) (hinf : p'.infQuo = p.infQuo)
    (hslot : ∀ k, (p'.slot k).pRndAccQuo = (p.slot k).pRndAccQuo) : Uncounted j p' := by
  refine ⟨?_, fun k => ?_⟩
  · rw [hinf]
    exact h.inf
  · rw [hslot]
    exact h.acc k

theorem Uncounted.setSlot {f : Slot → Slot} (h : Uncounted j p)
    (hf : j ∉ (f (p.slot k)).pRndAccQuo.qMember) : Uncounted j (p.setSlot k f) := by
  refine ⟨h.inf, fun k' => ?_⟩
  by_cases hk : k' = k
  · rw [hk, Replica.slot_setSlot_self]
    exact hf
  · rw [Replica.slot_setSlot_of_ne hk]
    exact h.acc k'

theorem ExecMove.uncounted (h : ExecMove k p o p') (hu : Uncounted j p) : Uncounted j p' := by
  cases h with
  | turn h => exact ⟨hu.inf, fun _ => Finset.notMem_empty j⟩
  | _ => exact ⟨hu.inf, hu.acc⟩

theorem Execs.uncounted (h : Execs k p o p') (hm : (p.slot k).pMode = .decided)
    (hu : Uncounted j p) : Uncounted j p' :=
  (h.goes hm).invariant (I := fun _ q => Uncounted j q) hu fun hq hmove => hmove.uncounted hq

theorem quorumAdd_notMem {q : Quorum} {n : ℕ} (h : j ∉ q.qMember) (hne : n ≠ j) :
    j ∉ (quorumAdd q n).qMember := by
  rw [quorumAdd_member, Finset.mem_insert]
  rintro (rfl | hm)
  · exact hne rfl
  · exact h hm

theorem Slot.cast_notMem {s : Slot} {me : ℕ} {r : Round} {d : ℤ} {own : Bool}
    (h : j ∉ s.pRndAccQuo.qMember) (hne : me ≠ j) :
    j ∉ (s.cast me r d own).pRndAccQuo.qMember := by
  cases own with
  | false => exact h
  | true => exact quorumAdd_notMem h hne

theorem Slot.adopt_quo (m : MsgPaxos) (s : Slot) : (s.adopt m).pRndAccQuo = s.pRndAccQuo := by
  unfold Slot.adopt
  split <;> rfl

theorem Slot.newRound_quo (me : ℕ) (epoch : UInt32) (s : Slot) :
    (s.newRound me epoch).pRndAccQuo = s.pRndAccQuo := by
  unfold Slot.newRound
  split <;> rfl

theorem Multi.newRound_notMem {me max : ℕ} {n : UInt32} (m : Multi) (hne : me ≠ j) :
    j ∉ (m.newRound me max n).lRndInfQuo.qMember := by
  change j ∉ (if me < max then quorumAdd (quorumInit max) me else quorumInit max).qMember
  split
  · exact quorumAdd_notMem (Finset.notMem_empty j) hne
  · exact Finset.notMem_empty j

/-- A server that hears neither a reply nor an accept of `j` does not count it. -/
theorem Move.uncounted (h : Move ρ i e p o p') (hme : p.pMyId ≠ j)
    (hlast : ∀ m, i ≠ .recv j (.last m)) (haccept : ∀ m, i ≠ .recv j (.accept m))
    (hu : Uncounted j p) : Uncounted j p' := by
  cases h with
  | quiet | tellOld | tellDecided | tellLast | requestFail | replyOk | soleFail => exact hu
  | newRound hi hp hc hp' ho =>
      rw [hp']
      refine ⟨Multi.newRound_notMem _ hme, fun k => ?_⟩
      change j ∉ ((p.slot k).newRound _ _).pRndAccQuo.qMember
      rw [Slot.newRound_quo]
      exact hu.acc k
  | old | promise => exact ⟨hu.inf, hu.acc⟩
  | @gather fr m hi hp ha hr =>
      refine ⟨quorumAdd_notMem hu.inf ?_, fun k => ?_⟩
      · rintro rfl
        exact hlast m hi
      · change j ∉ (if m.lPage = p.pMulti.pPage then (p.slot k).adopt _ else p.slot k).pRndAccQuo.qMember
        split
        · rw [Slot.adopt_quo]
          exact hu.acc k
        · exact hu.acc k
  | win =>
      refine ⟨hu.inf, fun k => ?_⟩
      change j ∉ (if (p.slot k).Open then _ else _ : Slot).pRndAccQuo.qMember
      split_ifs
      · exact Slot.cast_notMem (hu.acc k) hme
      · exact hu.acc k
      · exact hu.acc k
  | @recast fr m w =>
      refine hu.setSlot ?_
      cases w with
      | false => exact hu.acc m.bK
      | true => exact quorumAdd_notMem (hu.acc m.bK) hme
  | @takeCmd fr m => exact hu.setSlot (hu.acc m.aK)
  | @addAcc fr m hi =>
      refine hu.setSlot (quorumAdd_notMem (hu.acc m.aK) ?_)
      rintro rfl
      exact haccept m hi
  | @decide _ fr m _ _ hi hr hpage hm hq hmaj hf hc ho he =>
      exact he.uncounted (by rw [Replica.slot_setSlot_self]; rfl) (hu.setSlot (hu.acc m.aK))
  | @learn _ fr k v c mark _ hi hp hm hc he =>
      exact he.uncounted (by rw [Replica.slot_setSlot_self]; rfl) (hu.setSlot (hu.acc k))
  | @store fr m => exact hu.setSlot (hu.acc m.bK)
  | @release k => exact hu.setSlot (hu.acc k)
  | @request q cmd validate k c epoch d w o hi hp hcmd hN hmy hpage hk hm hc hown hq =>
      rw [hq, Replica.setSlot_setSlot]
      exact hu.setSlot (Slot.cast_notMem (hu.acc k) hme)
  | winSole =>
      refine ⟨hu.inf, fun k => ?_⟩
      change j ∉ (if (p.slot k).pMode ≠ .none ∧ (p.slot k).pMode ≠ .decided then _ else _ :
        Slot).pRndAccQuo.qMember
      split <;> exact hu.acc k
  | @requestSole cmd validate k => exact hu.setSlot (hu.acc k)
  | @sole _ k d w _ _ hi hN hm ha hc ho he =>
      exact he.uncounted (by rw [Replica.slot_setSlot_self]; rfl)
        (hu.setSlot (Slot.cast_notMem (d := d) (hu.acc k) hme))

/-! ### The server itself -/

theorem Awaiting.congr (h : Awaiting p) (hme : p'.pMyId = p.pMyId) (hmode : p'.aMode = p.aMode)
    (hinf : p'.infQuo = p.infQuo) (hslot : ∀ k, p'.slot k = p.slot k) : Awaiting p' := by
  refine ⟨hmode.trans h.mode, ?_, fun k => hslot k ▸ h.slot k⟩
  rw [hme]
  exact h.own.slots hinf fun k => congrArg (·.pRndAccQuo) (hslot k)

theorem ExecMove.waiting (h : ExecMove k p o p') (hw : Awaiting p) :
    Awaiting p' ∧ ∀ x ∈ o, x.Uncounting := by
  obtain ⟨hme, -, -, hmode, -⟩ := h.frame
  have hown : Uncounted p'.pMyId p' := by
    rw [hme]
    exact h.uncounted hw.own
  cases h with
  | quiet h => exact ⟨hw, by simpa using h.uncounting⟩
  | reject | execSlot | execGap => exact ⟨hw, by simp [Out.Uncounting]⟩
  | nextK | drop | park | count | advance => exact ⟨⟨hw.mode, hown, hw.slot⟩, by simp⟩
  | turn h => exact ⟨⟨hw.mode, hown, fun _ => ⟨.inl rfl, rfl⟩⟩, by simp⟩

theorem Execs.waiting (h : Execs k p o p') (hm : (p.slot k).pMode = .decided) (hw : Awaiting p) :
    Awaiting p' ∧ ∀ x ∈ o, x.Uncounting := by
  refine (h.goes hm).invariant (I := fun o q => Awaiting q ∧ ∀ x ∈ o, x.Uncounting)
    ⟨hw, by simp⟩ ?_
  rintro o q o' q' ⟨hq, ho⟩ hmove
  obtain ⟨hq', ho'⟩ := hmove.waiting hq
  exact ⟨hq', fun x hx => (List.mem_append.mp hx).elim (ho x) (ho' x)⟩

/-- No execution sets the flag. -/
theorem Execs.still_waits (h : Execs k p o p') (hm : (p.slot k).pMode = .decided)
    (hflag : p'.pbSuppressAccept = true) : p.pbSuppressAccept = true := by
  refine (h.goes hm).invariant
    (I := fun _ q => q.pbSuppressAccept = true → p.pbSuppressAccept = true) id ?_ hflag
  intro o q o' q' hq hmove
  cases hmove with
  | advance => exact nofun
  | _ => exact hq

/-- The inputs that leave a waiting server out of every quorum. -/
structure Input.KeepsOut (s : Paxos) (i : Input) (e : Env) : Prop where
  last : ¬ i.AnswersLast s
  round : ¬ StartsRound s i e

theorem IsLast.answers {m : MsgCollect} {l : MsgLast} {fr : ℕ}
    (h : cmpRound ρ.curRnd m.cCurRnd ≤ 0)
    (hl : IsLast (ρ.setMulti fun mu => { mu with lCurRnd := m.cCurRnd }) m l) :
    Input.AnswersLast ρ (.recv fr (.collect m)) := by
  refine ⟨h, fun hlt hnone => ?_⟩
  rcases hl.2.2 with ⟨-, mu, hmu, -⟩ | ⟨hgt, -⟩ | ⟨heq, -⟩
  · change (if m.cPage = ρ.page then some _ else _) = some mu at hmu
    unfold getPage at hnone
    split at hnone
    · cases hnone
    · next hne =>
        rw [if_neg hne] at hmu
        exact absurd (hnone.symm.trans hmu) nofun
  · have hpage : (ρ.setMulti fun mu => { mu with lCurRnd := m.cCurRnd }).page = ρ.page := rfl
    rw [hpage] at hgt
    omega
  · have hpage : m.cPage = ρ.page := heq
    rw [hpage, cmp32_self] at hlt
    exact absurd hlt (lt_irrefl 0)

theorem Move.still_waits (h : Move ρ i e p o p') (hflag : p'.pbSuppressAccept = true) :
    p.pbSuppressAccept = true := by
  cases h with
  | newRound hi hp hc hp' =>
      rw [hp'] at hflag
      exact hflag
  | request hi hp hcmd hN hmy hpage hk hm hc hown hq =>
      rw [hq] at hflag
      exact hflag
  | decide hi hr hpage hm hq hmaj hf hc ho he =>
      exact he.still_waits (by rw [Replica.slot_setSlot_self]; rfl) hflag
  | learn hi hp hm hc he => exact he.still_waits (by rw [Replica.slot_setSlot_self]; rfl) hflag
  | sole hi hN hm ha hc ho he =>
      exact he.still_waits (by rw [Replica.slot_setSlot_self]; rfl) hflag
  | _ => exact hflag

/-- A move of a waiting server. -/
theorem Move.waiting (h : Move ρ i e p o p') (hi : i.KeepsOut ρ e)
    (hto : ∀ fr m, i = .recv fr (.beginRedirect m) → m.bTo ≠ p.pMyId)
    (hflag : p.pbSuppressAccept = true) (hw : Awaiting p) :
    Awaiting p' ∧ ∀ x ∈ o, x.Uncounting := by
  have ⟨hmode, hown, hslot⟩ := hw
  cases h with
  | quiet h => exact ⟨hw, by simpa using h.uncounting⟩
  | tellOld | tellDecided | requestFail | replyOk => exact ⟨hw, by simp [Out.Uncounting]⟩
  | newRound hs => exact absurd hs hi.round
  | old => exact ⟨⟨rfl, ⟨hown.inf, hown.acc⟩, hslot⟩, by simp⟩
  | promise => exact ⟨⟨hmode, ⟨hown.inf, hown.acc⟩, hslot⟩, by simp⟩
  | @tellLast fr m l hi' hr hp hl =>
      rw [hp] at hl
      have hans : Input.AnswersLast ρ (.recv fr (.collect m)) := hl.answers hr
      exact absurd (hi' ▸ hans) hi.last
  | gather hi' hp ha => exact absurd (hmode.symm.trans ha) nofun
  | win hi' hp ha => exact absurd (hmode.symm.trans ha) nofun
  | winSole hi' hN ha => exact absurd (hmode.symm.trans ha) nofun
  | @recast fr m w _ hi' hp hpage hc how ho =>
      have hfalse : w = false := Bool.eq_false_iff.mpr fun h => hto fr m hi' (how h)
      subst hfalse
      refine ⟨hw.congr rfl rfl rfl fun k => ?_, fun x hx => (ho x hx).uncounting⟩
      rw [Replica.slot_setSlot]
      split
      · next h => rw [h]; rfl
      · rfl
  | @takeCmd fr m hi' hp hr hpage hm =>
      rcases (hslot m.aK).mode with h | h <;> cases h.symm.trans hm
  | @addAcc fr m hi' hr hpage hm =>
      rcases (hslot m.aK).mode with h | h <;> cases h.symm.trans hm
  | @decide _ fr m _ _ hi' hr hpage hm =>
      rcases (hslot m.aK).mode with h | h <;> cases h.symm.trans hm
  | @learn _ fr k v c mark _ hi' hp hm hc he =>
      refine he.waiting (by rw [Replica.slot_setSlot_self]; rfl)
        ⟨hmode, hown.setSlot (hown.acc k), fun k' => ?_⟩
      by_cases hk : k' = k
      · rw [hk, Replica.slot_setSlot_self]
        exact ⟨.inr rfl, (hslot k).suppressed⟩
      · rw [Replica.slot_setSlot_of_ne hk]
        exact hslot k'
  | store hi' hp hs => exact absurd (hs.symm.trans hflag) nofun
  | @release k _ hs => exact absurd ((hslot k).suppressed.symm.trans hs) nofun
  | request hi' hp hcmd hN hmy => exact absurd (hmode.symm.trans hmy.1) nofun
  | requestSole hi' hp hcmd hN hmy => exact absurd (hmode.symm.trans hmy.1) nofun
  | sole hi' hN hm ha => exact absurd (hmode.symm.trans ha) nofun
  | @soleFail k _ _ hi' hN hm =>
      rcases (hslot k).mode with h | h <;> cases h.symm.trans hm

/-- A redirect asks another server to cast for its sender. -/
def Out.Redirects (me : ℕ) : Out → Prop
  | .send d (.beginRedirect m) => m.bTo = me ∧ d ≠ me
  | _ => True

theorem Out.Quiet.redirects {me : ℕ} {x : Out} (h : x.Quiet) : x.Redirects me := by
  unfold Redirects
  split
  · exact h.elim
  · trivial

theorem IsCast.redirects {me bTo : ℕ} {r : Round} {own : Bool} {x : Out}
    (h : IsCast p k bTo r own x) : x.Redirects me := by
  rcases h with ⟨_, m, rfl, -⟩ | ⟨-, rfl⟩ <;> trivial

theorem IsBeginCast.redirects {own : Bool} {x : Out} (h : IsBeginCast p k own x) :
    x.Redirects p.pMyId := by
  unfold IsBeginCast at h
  split at h
  · exact h.2.redirects
  · next hne =>
      obtain ⟨m, rfl, hto, -⟩ := h
      exact ⟨hto, hne⟩

theorem Execs.redirects {me : ℕ} (h : Execs k p o p') (hm : (p.slot k).pMode = .decided) :
    ∀ x ∈ o, x.Redirects me := by
  refine (h.goes hm).forall_out fun hs x hx => ?_
  cases hs with
  | quiet h => rw [List.mem_singleton.mp hx]; exact h.redirects
  | reject | execSlot | execGap => rw [List.mem_singleton.mp hx]; trivial
  | _ => cases hx

theorem Move.redirects (h : Move ρ i e p o p') : ∀ x ∈ o, x.Redirects p.pMyId := by
  cases h with
  | quiet h => simpa using h.redirects
  | tellOld | tellDecided | tellLast | requestFail | replyOk | requestSole => simp [Out.Redirects]
  | newRound hi hp hc hp' ho =>
      intro x hx
      obtain ⟨d, m, rfl, -⟩ := ho x hx
      trivial
  | win hi hp ha hr hq hown ho =>
      intro x hx
      obtain ⟨k, -, -, hx⟩ := ho x hx
      exact hx.redirects
  | recast hi hp hpage hc hown ho => exact fun x hx => (ho x hx).redirects
  | decide hi hr hpage hm hq hmaj hf hc ho he =>
      intro x hx
      rcases List.mem_append.mp hx with hx | hx
      · obtain ⟨d, m, rfl, -⟩ := ho x hx
        trivial
      · exact he.redirects (by rw [Replica.slot_setSlot_self]; rfl) x hx
  | learn hi hp hm hc he => exact he.redirects (by rw [Replica.slot_setSlot_self]; rfl)
  | store hi hp hs hr hpage hm hc ho =>
      intro x hx
      rcases List.mem_cons.mp hx with rfl | hx
      · trivial
      · obtain ⟨-, a, rfl, -⟩ := ho x hx
        trivial
  | release hs hm ho =>
      intro x hx
      obtain ⟨d, a, rfl, -⟩ := ho x hx
      trivial
  | @request q cmd validate k c epoch d w o hi hp hcmd hN hmy hpage hk hm hc hown hq ho =>
      intro x hx
      have hme : q.pMyId = p.pMyId := by rw [hq]; rfl
      rcases List.mem_cons.mp hx with rfl | hx
      · trivial
      · exact hme ▸ (ho x hx).redirects
  | sole hi hN hm ha hc ho he =>
      intro x hx
      rcases List.mem_append.mp hx with hx | hx
      · exact (ho x hx).redirects
      · rcases List.mem_cons.mp hx with rfl | hx
        · trivial
        · exact he.redirects (by rw [Replica.slot_setSlot_self]; rfl) x hx
  | soleFail hi hN hm hc ho =>
      intro x hx
      rcases ho x hx with hx | rfl
      · exact hx.redirects
      · trivial
  | _ => simp

/-- A step is a row of moves, and a step that returns ends where they end. -/
theorem handle_moves (s : Paxos) (i : Input) (e : Env) :
    ∃ p, Moves s i e s.toReplica (handle i e s).out p ∧
      ((handle i e s).val = .ok () → (handle i e s).st.toReplica = p) := by
  cases hv : (handle i e s).val with
  | ok => exact ⟨_, ((handle_goes s i e s rfl).1 () hv).1, fun _ => rfl⟩
  | error x =>
      obtain ⟨t, ht⟩ := (handle_goes s i e s rfl).2 x hv
      exact ⟨_, ht, nofun⟩

theorem Moves.setup {ρ : Paxos} {i : Input} {e : Env} {p p' : Replica} {o : List Out}
    (h : Moves ρ i e p o p') : p'.pMyId = p.pMyId ∧ p'.pMax = p.pMax := by
  refine h.invariant (I := fun _ q => q.pMyId = p.pMyId ∧ q.pMax = p.pMax) ⟨rfl, rfl⟩ ?_
  rintro o q o' q' ⟨h₁, h₂⟩ hmove
  exact ⟨hmove.setup.1.trans h₁, hmove.setup.2.trans h₂⟩

theorem Moves.redirects (h : Moves ρ i e p o p') : ∀ x ∈ o, x.Redirects p.pMyId := by
  have hinv := h.invariant
    (I := fun o q => q.pMyId = p.pMyId ∧ ∀ x ∈ o, x.Redirects p.pMyId) ⟨rfl, by simp⟩ ?_
  · exact hinv.2
  rintro o q o' q' ⟨hme, ho⟩ hmove
  refine ⟨hmove.setup.1.trans hme, fun x hx => (List.mem_append.mp hx).elim (ho x) fun hx => ?_⟩
  exact hme ▸ hmove.redirects x hx

theorem Moves.uncounted (h : Moves ρ i e p o p') (hme : p.pMyId ≠ j)
    (hlast : ∀ m, i ≠ .recv j (.last m)) (haccept : ∀ m, i ≠ .recv j (.accept m))
    (hu : Uncounted j p) : Uncounted j p' := by
  have hinv := h.invariant (I := fun _ q => q.pMyId = p.pMyId ∧ Uncounted j q) ⟨rfl, hu⟩ ?_
  · exact hinv.2
  rintro o q o' q' ⟨hq, hu⟩ hmove
  exact ⟨hmove.setup.1.trans hq, hmove.uncounted (hq ▸ hme) hlast haccept hu⟩

theorem Moves.waiting (h : Moves ρ i e ρ.toReplica o p') (hflag : p'.pbSuppressAccept = true)
    (hi : ρ.pbSuppressAccept = true → i.KeepsOut ρ e)
    (hto : ∀ fr m, i = .recv fr (.beginRedirect m) → m.bTo ≠ ρ.pMyId)
    (hw : ρ.pbSuppressAccept = true → Awaiting ρ.toReplica) :
    ρ.pbSuppressAccept = true ∧ Awaiting p' ∧ ∀ x ∈ o, x.Uncounting := by
  have hinv := h.invariant (I := fun o q => q.pMyId = ρ.pMyId ∧ (q.pbSuppressAccept = true →
    ρ.pbSuppressAccept = true ∧ Awaiting q ∧ ∀ x ∈ o, x.Uncounting))
    ⟨rfl, fun hf => ⟨hf, hw hf, by simp⟩⟩ ?_
  · exact hinv.2 hflag
  rintro o q o' q' ⟨hme, hq⟩ hmove
  refine ⟨hmove.setup.1.trans hme, fun hf => ?_⟩
  have hold := hmove.still_waits hf
  obtain ⟨hstart, hwq, ho⟩ := hq hold
  obtain ⟨hwq', ho'⟩ := hmove.waiting (hi hstart) (fun fr m h => hme ▸ hto fr m h) hold hwq
  exact ⟨hstart, hwq', fun x hx => (List.mem_append.mp hx).elim (ho x) (ho' x)⟩

/-! ### Runs of a cell -/

/-- The steps of server `j` do not bring it into a quorum while it waits. -/
def Sys.KeepsOut (j : ℕ) (S : Sys) (s : ℕ) (i : Input) (e : Env) : Prop :=
  s = j → (S.srv j).pbSuppressAccept = true → i.KeepsOut (S.srv j) e

/-- No running server counts `j`, and `j` has sent nothing to be counted. -/
structure Sys.Unheard (j : ℕ) (S : Sys) : Prop where
  sent : ∀ x ∈ S.sent, x.fr = j → (Out.send x.dst x.msg).Uncounting
  srv : ∀ s, S.up s = true → Uncounted j (S.srv s).toReplica

/-- The cell with server `j` in waiting. -/
structure Sys.KeptOut (j : ℕ) (S : Sys) : Prop where
  me : ∀ s, S.up s = true → (S.srv s).pMyId = s
  redirect : ∀ x ∈ S.sent, (Out.send x.dst x.msg).Redirects x.fr
  waiting : S.up j = true → (S.srv j).pbSuppressAccept = true →
    Awaiting (S.srv j).toReplica ∧ S.Unheard j

theorem Sys.mem_sent_run {S : Sys} {s : ℕ} (hu : S.up s = true) {x : Packet} :
    x ∈ (S.run s i e).sent ↔
      x ∈ S.sent ∨ x.fr = s ∧ .send x.dst x.msg ∈ (handle i e (S.srv s)).out := by
  have hlog : (S.run s i e).log = S.log ++ (handle i e (S.srv s)).out.map fun o => (s, o) := by
    unfold Sys.run
    rw [if_pos hu]
  rw [Sys.mem_sent, Sys.mem_sent, hlog, List.mem_append, List.mem_map]
  refine or_congr_right ⟨?_, ?_⟩
  · rintro ⟨y, hy, heq⟩
    cases heq
    exact ⟨rfl, hy⟩
  · rintro ⟨rfl, hy⟩
    exact ⟨_, hy, rfl⟩

/-- The input of a step comes from a packet that was sent, or it is none of the
messages that quorums and casts are made of. -/
theorem Sys.input_recv {S : Sys} {a : Act} {s : ℕ} {fr : ℕ} {m : Msg}
    (ha : S.input a = some (s, .recv fr m, e)) (hm : m ≠ .testNewRound) :
    ⟨fr, s, m⟩ ∈ S.sent := by
  cases a with
  | deliver n e' =>
      obtain ⟨x, hx, heq⟩ := Option.map_eq_some_iff.mp ha
      cases heq
      exact List.mem_of_getElem? hx
  | newRound s' e' =>
      cases ha
      exact absurd rfl hm
  | _ => cases ha

theorem Config.init_keptOut (cfg : Config) (j : ℕ) : cfg.init.KeptOut j := by
  have hserver : ∀ s, (cfg.server s).pMyId = s ∧ Awaiting (cfg.server s).toReplica ∧
      ∀ j, Uncounted j (cfg.server s).toReplica := by
    intro s
    unfold Config.server
    cases cfg.mode s <;>
      exact ⟨rfl, ⟨rfl, ⟨Finset.notMem_empty _, fun _ => Finset.notMem_empty _⟩,
        fun _ => ⟨.inl rfl, rfl⟩⟩, fun j => ⟨Finset.notMem_empty _, fun _ => Finset.notMem_empty _⟩⟩
  exact ⟨fun s _ => (hserver s).1, by simp [Config.init, Sys.sent], fun _ _ =>
    ⟨(hserver j).2.1, by simp [Config.init, Sys.sent], fun s _ => (hserver s).2.2 j⟩⟩

/-- A server that runs after a step ran before it, and only the one that took
the step has changed. -/
theorem Sys.up_run {S : Sys} {s s' : ℕ} (hu : S.up s = true)
    (hst : (handle i e (S.srv s)).val = .ok () → (handle i e (S.srv s)).st.toReplica = p)
    (hs' : (S.run s i e).up s' = true) :
    S.up s' = true ∧ (s' ≠ s ∧ (S.run s i e).srv s' = S.srv s' ∨
      s' = s ∧ ((S.run s i e).srv s').toReplica = p) := by
  cases hv : (handle i e (S.srv s)).val with
  | ok =>
      rw [Sys.run_ok hu hv] at hs' ⊢
      refine ⟨hs', ?_⟩
      by_cases heq : s' = s
      · subst heq
        exact .inr ⟨rfl, (congrArg Paxos.toReplica (Function.update_self ..)).trans (hst hv)⟩
      · exact .inl ⟨heq, Function.update_of_ne heq ..⟩
  | error x =>
      rw [Sys.run_error hu hv] at hs' ⊢
      change Function.update S.up s false s' = true at hs'
      have hne : s' ≠ s := by
        rintro rfl
        rw [Function.update_self] at hs'
        cases hs'
      rw [Function.update_of_ne hne] at hs'
      exact ⟨hs', .inl ⟨hne, Function.update_of_ne hne ..⟩⟩

/-- Every step keeps a waiting server out. -/
theorem Sys.KeptOut.run {S : Sys} {a : Act} {s : ℕ} (h : S.KeptOut j)
    (ha : S.input a = some (s, i, e)) (hu : S.up s = true) (hok : S.KeepsOut j s i e) :
    (S.run s i e).KeptOut j := by
  obtain ⟨p, hmoves, hst⟩ := handle_moves (S.srv s) i e
  have hme := h.me s hu
  have hsetup : p.pMyId = s := hmoves.setup.1.trans hme
  refine ⟨fun s' hs' => ?_, fun x hx => ?_, fun hj hflag => ?_⟩
  · rcases (Sys.up_run hu hst hs').2 with ⟨hne, heq⟩ | ⟨heq, hp⟩
    · rw [heq]
      exact h.me s' (Sys.up_run hu hst hs').1
    · exact (congrArg Replica.pMyId hp).trans (hsetup.trans heq.symm)
  · rcases (Sys.mem_sent_run hu).mp hx with hx | ⟨hfr, hx⟩
    · exact h.redirect x hx
    · rw [hfr, ← hme]
      exact hmoves.redirects _ hx
  · obtain ⟨hupj, hcase⟩ := Sys.up_run hu hst hj
    -- `j` waited before the step, and it waits after it
    have hwait : (S.srv j).pbSuppressAccept = true ∧ Awaiting ((S.run s i e).srv j).toReplica ∧
        (s = j → ∀ x ∈ (handle i e (S.srv s)).out, x.Uncounting) := by
      rcases hcase with ⟨hne, heq⟩ | ⟨rfl, hp⟩
      · rw [heq] at hflag ⊢
        exact ⟨hflag, (h.waiting hupj hflag).1, fun hs => absurd hs.symm hne⟩
      · have hf : p.pbSuppressAccept = true := hp ▸ hflag
        have hto : ∀ fr m, i = .recv fr (.beginRedirect m) → m.bTo ≠ (S.srv j).pMyId := by
          rintro fr m rfl
          obtain ⟨hto, hne⟩ := h.redirect _ (Sys.input_recv ha nofun)
          rw [hto, hme]
          exact Ne.symm hne
        obtain ⟨hold, hw, ho⟩ := hmoves.waiting hf (hok rfl) hto fun hold => (h.waiting hupj hold).1
        exact ⟨hold, hp ▸ hw, fun _ => ho⟩
    obtain ⟨hold, hw, ho⟩ := hwait
    obtain ⟨-, hsent, hsrv⟩ := h.waiting hupj hold
    refine ⟨hw, fun x hx hfr => ?_, fun s' hs' => ?_⟩
    · rcases (Sys.mem_sent_run hu).mp hx with hx | ⟨hs, hx⟩
      · exact hsent x hx hfr
      · exact ho (hs.symm.trans hfr) _ hx
    · rcases (Sys.up_run hu hst hs').2 with ⟨-, heq⟩ | ⟨rfl, hp⟩
      · rw [heq]
        exact hsrv s' (Sys.up_run hu hst hs').1
      · by_cases hsj : s' = j
        · subst hsj
          have hown := hw.own
          rw [show ((S.run s' i e).srv s').pMyId = s' from
            (congrArg Replica.pMyId hp).trans hsetup] at hown
          exact hown
        · rw [hp]
          refine hmoves.uncounted (fun heq => hsj (hme.symm.trans heq)) (fun m hi => ?_)
            (fun m hi => ?_) (hsrv s' hu)
          · subst hi
            exact hsent _ (Sys.input_recv ha nofun) rfl
          · subst hi
            exact hsent _ (Sys.input_recv ha nofun) rfl

theorem Reachable.keptOut {cfg : Config} {S : Sys} (h : Reachable cfg (Sys.KeepsOut j) S) :
    S.KeptOut j := by
  induction h with
  | init => exact cfg.init_keptOut j
  | step h ha hu hok ih => exact ih.run ha hu hok

end

/-- In every run in which a server that waits for its first decision is given
no collection that it answers and begins no round, it sends nothing that is
counted, and no server counts it. -/
theorem waiting_unheard {cfg : Config} {S : Sys} {j : ℕ}
    (h : Reachable cfg (Sys.KeepsOut j) S) (hup : S.up j = true)
    (hflag : (S.srv j).pbSuppressAccept = true) : S.Unheard j :=
  (h.keptOut.waiting hup hflag).2

/-! ### A restarted server -/

theorem Reachable.act {cfg : Config} {ok : Sys → ℕ → Input → Env → Prop} {S : Sys}
    (h : Reachable cfg ok S) (a : Act) (hok : ∀ s i e, S.input a = some (s, i, e) → ok S s i e) :
    Reachable cfg ok (S.step a) := by
  unfold Sys.step
  cases ha : S.input a with
  | none => exact h
  | some x =>
      obtain ⟨s, i, e⟩ := x
      by_cases hu : S.up s = true
      · exact h.step ha hu (hok s i e ha)
      · dsimp only
        rw [show S.run s i e = S from if_neg hu]
        exact h

/-- A step of another server is none of `j`. -/
theorem Reachable.other {cfg : Config} {S : Sys} {j s : ℕ}
    (h : Reachable cfg (Sys.KeepsOut j) S) (a : Act) (hs : (S.input a).map (·.1) = some s)
    (hne : s ≠ j) : Reachable cfg (Sys.KeepsOut j) (S.step a) := by
  refine h.act a fun s' i e ha hj => ?_
  rw [ha] at hs
  exact absurd ((Option.some.inj hs).symm.trans hj) hne

/-- Server 2 of three waits for its first decision. -/
def waitCell : Config where
  core := 3
  mode s := if s = 2 then .wait else .noSeq
  core_pos := Nat.succ_pos 2

/-- Server 0 begins a round. -/
abbrev waitRound : Sys := waitCell.init.step (.newRound 0 {})

/-- Server 1 answers, server 0 wins the round, and server 2 has its heartbeat. -/
abbrev waitWon : Sys :=
  ((waitRound.step (.deliver 0 {})).step (.deliver 2 {})).step (.heartbeat 2 {})

theorem waiting_unheard_won : waitWon.Unheard 2 := by
  have h₁ : Reachable waitCell (Sys.KeepsOut 2) waitRound :=
    Reachable.init.other (s := 0) _ (by decide +kernel) (by decide)
  have h₂ := h₁.other (s := 1) (.deliver 0 {}) (by decide +kernel) (by decide)
  have h₃ := h₂.other (s := 0) (.deliver 2 {}) (by decide +kernel) (by decide)
  have h₄ : Reachable waitCell (Sys.KeepsOut 2) waitWon := by
    refine h₃.act _ ?_
    intro s i e ha _ _
    cases ha
    exact ⟨id, id⟩
  exact waiting_unheard h₄ (by decide +kernel) (by decide +kernel)

/-- Server 2 answers the collection, and server 0 counts the answer. -/
abbrev waitCounted : Sys := (waitRound.step (.deliver 1 {})).step (.deliver 2 {})

theorem waiting_is_counted :
    ¬ ∀ (cfg : Config) (S : Sys) (j : ℕ), Reachable cfg (fun _ _ _ _ => True) S →
      S.up j = true → (S.srv j).pbSuppressAccept = true → S.Unheard j := by
  intro h
  have hrun : Reachable waitCell (fun _ _ _ _ => True) waitCounted :=
    ((Reachable.init.act _ fun _ _ _ _ => trivial).act _ fun _ _ _ _ => trivial).act _
      fun _ _ _ _ => trivial
  have hun := h waitCell waitCounted 2 hrun (by decide +kernel) (by decide +kernel)
  exact absurd (hun.srv 0 (by decide +kernel)).inf (by decide +kernel)

end PaxosSolutions
