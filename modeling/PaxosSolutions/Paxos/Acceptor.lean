import PaxosSolutions.Paxos.InOrder
import PaxosSolutions.Paxos.Rank

/-!
# What an acceptor keeps to

An acceptor answers a collection and stores a proposal by its promise
`CurRnd`, which a stored proposal does not raise. As long as no message falls
between the promise and what a slot has accepted, it does not go back behind
an accepted round.
-/
namespace PaxosSolutions
open NWGadget Lib

/-- The inputs of a replica that only accepts: it casts no proposal and learns
no decision. -/
def Input.Accepting : Input → Prop
  | .recv _ (.last _) | .recv _ (.beginRedirect _) | .recv _ (.accept _) | .recv _ (.success _)
  | .recv _ (.catchupRpl _) | .request _ _ => False
  | _ => True

/-- The message is not of a round that the promise lets through although an
open slot has accepted a stronger one. -/
def Input.Steady (s : Replica) : Input → Prop
  | .recv _ (.collect m) => m.cCurRnd.Small ∧ (cmpRound s.curRnd m.cCurRnd ≤ 0 →
      ∀ k, (s.slot k).pMode ≠ .decided → cmpRound (s.slot k).pRndBallot m.cCurRnd ≤ 0)
  | .recv _ (.begin m) => m.bCurRnd.Small ∧ (0 ≤ cmpRound m.bCurRnd s.curRnd → s.page = m.bPage →
      (s.slot m.bK).pMode ≠ .decided → cmpRound (s.slot m.bK).pRndBallot m.bCurRnd ≤ 0)
  | _ => True

/-- After an acceptance no lower round is accepted for the slot, and no lower
round is answered with `LAST`. -/
def Out.Respects : Out → Out → Prop
  | .accepted page k b _ _, .accepted page' k' r _ _ => page' = page → k' = k → 0 ≤ cmpRound r b
  | .accepted _ _ b _ _, .send _ (.last l) => 0 ≤ cmpRound l.lRound b
  | _, _ => True

/-- The acceptances so far are in open slots of the page, and none is above
the ballot of its slot. -/
structure Accepts (o : List Out) (p : Replica) : Prop where
  free : FreeSlots p
  order : o.Pairwise Out.Respects
  slot : ∀ page k b v c, .accepted page k b v c ∈ o →
    page = p.page ∧ (p.slot k).Open ∧ b.Small ∧ (p.slot k).pRndBallot.Small ∧
      b.rank ≤ (p.slot k).pRndBallot.rank

section
variable {o o' : List Out} {p p' : Replica}

/-- Neither an acceptance nor a reply to a collection. -/
def Out.Aside : Out → Prop
  | .accepted _ _ _ _ _ | .send _ (.last _) => False
  | _ => True

theorem Out.Aside.respects {x y : Out} (h : y.Aside) : x.Respects y := by
  unfold Respects
  split
  · exact h.elim
  · exact h.elim
  · trivial

theorem pairwise_of_aside (h : ∀ x ∈ o, x.Aside) : o.Pairwise Out.Respects :=
  List.pairwise_of_forall_mem_list fun _ _ _ hy => (h _ hy).respects

theorem Accepts.aside (h : Accepts o p) (hf : FreeSlots p') (ho : ∀ x ∈ o', x.Aside)
    (hpage : p'.page = p.page) (hs : ∀ k, (p.slot k).Open → (p'.slot k).Open ∧
      (p'.slot k).pRndBallot = (p.slot k).pRndBallot) : Accepts (o ++ o') p' where
  free := hf
  order := List.pairwise_append.mpr
    ⟨h.order, pairwise_of_aside ho, fun _ _ _ hy => (ho _ hy).respects⟩
  slot := fun page k b v c hm => by
    rcases List.mem_append.mp hm with hm | hm
    · obtain ⟨h₁, h₂, h₃, h₄, h₅⟩ := h.slot page k b v c hm
      obtain ⟨hopen, hb⟩ := hs k h₂
      rw [hb, hpage]
      exact ⟨h₁, hopen, h₃, h₄, h₅⟩
    · exact (ho _ hm).elim

theorem Out.Quiet.aside {x : Out} (h : x.Quiet) : x.Aside := by
  unfold Aside
  split
  · exact h
  · exact h
  · trivial

/-- A reply to a collection that no open slot is above. -/
theorem Accepts.tellLast {j : ℕ} {l : MsgLast} (h : Accepts o p) (hsmall : l.lRound.Small)
    (hle : ∀ k, (p.slot k).pMode ≠ .decided → cmpRound (p.slot k).pRndBallot l.lRound ≤ 0) :
    Accepts (o ++ [.send j (.last l)]) p where
  free := h.free
  order := by
    refine List.pairwise_append.mpr ⟨h.order, List.pairwise_singleton .., fun x hx y hy => ?_⟩
    rw [List.mem_singleton.mp hy]
    cases x with
    | accepted page k b v c =>
        obtain ⟨-, hopen, hb, hsb, hrank⟩ := h.slot page k b v c hx
        have := (cmpRound_le_iff hsb hsmall).mp (hle k hopen.2)
        exact (le_cmpRound_iff hsmall hb).mpr (hrank.trans this)
    | _ => trivial
  slot := fun page k b v c hm => by
    rcases List.mem_append.mp hm with hm | hm
    · exact h.slot page k b v c hm
    · cases List.mem_singleton.mp hm

/-- A proposal that its slot is not above is stored. -/
theorem Accepts.store {k : K} {r : Round} {v : Value} {c : MetaCmd} {f : Slot → Slot}
    (h : Accepts o p) (hf : FreeSlots (p.setSlot k f)) (hsmall : r.Small)
    (hm : (p.slot k).pMode ≠ .decided) (hle : cmpRound (p.slot k).pRndBallot r ≤ 0)
    (hopen : (f (p.slot k)).Open) (hb : (f (p.slot k)).pRndBallot = r)
    (ho : ∀ x ∈ o', x.Aside) :
    Accepts (o ++ .accepted p.page k r v c :: o') (p.setSlot k f) where
  free := hf
  order := by
    refine List.pairwise_append.mpr ⟨h.order, List.pairwise_cons.mpr
      ⟨fun y hy => (ho y hy).respects, pairwise_of_aside ho⟩, fun x hx y hy => ?_⟩
    rcases List.mem_cons.mp hy with rfl | hy
    swap
    · exact (ho y hy).respects
    cases x with
    | accepted page k' b v c =>
        obtain ⟨-, -, hsb, hsk, hrank⟩ := h.slot page k' b v c hx
        rintro - rfl
        exact (le_cmpRound_iff hsmall hsb).mpr (hrank.trans ((cmpRound_le_iff hsk hsmall).mp hle))
    | _ => trivial
  slot := fun page k' b v' c' hx => by
    change page = p.page ∧ _
    rcases List.mem_append.mp hx with hx | hx
    · obtain ⟨h₁, h₂, h₃, h₄, h₅⟩ := h.slot page k' b v' c' hx
      by_cases hk : k' = k
      · subst hk
        rw [Replica.slot_setSlot_self, hb]
        exact ⟨h₁, hopen, h₃, hsmall, h₅.trans ((cmpRound_le_iff h₄ hsmall).mp hle)⟩
      · rw [Replica.slot_setSlot_of_ne hk]
        exact ⟨h₁, h₂, h₃, h₄, h₅⟩
    · rcases List.mem_cons.mp hx with hx | hx
      · cases hx
        rw [Replica.slot_setSlot_self, hb]
        exact ⟨rfl, hopen, hsmall, hsmall, le_rfl⟩
      · exact (ho _ hx).elim

end

theorem Slot.newRound_of_open {s : Slot} (me : ℕ) (epoch : UInt32) (h : s.Open) :
    s.newRound me epoch = s := if_neg fun h' => h.1 h'.1

/-- One move of an acceptor. -/
theorem Move.accepts {ρ : Paxos} {i : Input} {e : Env} {p p' : Replica} {o₀ o : List Out}
    (h : Move ρ i e p o p') (hi : i.Accepting) (hst : i.Steady ρ.toReplica)
    (ha : Accepts o₀ p) : Accepts (o₀ ++ o) p' := by
  have hf := h.freeSlots ha.free
  cases h with
  | quiet h => exact ha.aside hf (by simpa using h.aside) rfl fun _ h => ⟨h, rfl⟩
  | tellOld | tellDecided => exact ha.aside hf (by simp [Out.Aside]) rfl fun _ h => ⟨h, rfl⟩
  | newRound _ _ _ hp' ho =>
      refine ha.aside hf (fun x hx => ?_) (by rw [hp']; rfl) fun k hopen => ?_
      · obtain ⟨j, m, rfl, -⟩ := ho x hx
        trivial
      · rw [hp']
        change ((p.slot k).newRound _ _).Open ∧ _
        rw [Slot.newRound_of_open _ _ hopen]
        exact ⟨hopen, congrArg (·.pRndBallot) (Slot.newRound_of_open _ _ hopen)⟩
  | old | promise => exact ha.aside hf (by simp) rfl fun _ h => ⟨h, rfl⟩
  | @tellLast fr m l hi' hr hp hl =>
      subst hi'
      refine ha.tellLast (hl.1 ▸ hst.1) fun k hm => ?_
      rw [hl.1]
      rw [hp] at hm ⊢
      exact hst.2 hr k hm
  | @store fr m held o hi' hp hs hr hpage hm hc ho =>
      subst hi'
      rw [hp] at hr hm hpage
      refine ha.store hf hst.1 (hp ▸ hm) (hp ▸ hst.2 hr hpage hm) ?_ rfl fun x hx => ?_
      · unfold Slot.store Slot.Open
        simp only []
        split
        · decide
        · next h => exact ⟨h, hp ▸ hm⟩
      · obtain ⟨-, a, rfl, -⟩ := ho x hx
        trivial
  | @release k _ hs hm ho =>
      refine ha.aside hf (fun x hx => ?_) rfl fun k' hopen => ?_
      · obtain ⟨j, a, rfl, -⟩ := ho x hx
        trivial
      · by_cases hk : k' = k
        · subst hk
          rw [Replica.slot_setSlot_self]
          exact ⟨hopen, rfl⟩
        · rw [Replica.slot_setSlot_of_ne hk]
          exact ⟨hopen, rfl⟩
  | learn hi' =>
      obtain ⟨m, rfl, -⟩ | ⟨m, rfl, -⟩ := hi' <;> exact hi.elim
  | sole hi' | soleFail hi' =>
      obtain ⟨fr, m, rfl⟩ | ⟨c, v, rfl⟩ := hi' <;> exact hi.elim
  | requestFail hi' | replyOk hi' | gather hi' | win hi' | recast hi' | takeCmd hi' | addAcc hi' | decide hi' | request hi'
  | winSole hi' | requestSole hi' =>
      subst hi'
      exact hi.elim

theorem Moves.accepts {ρ : Paxos} {i : Input} {e : Env} {p : Replica} {o₀ o : List Out}
    (h : Moves ρ i e ρ.toReplica o p) (hi : i.Accepting) (hst : i.Steady ρ.toReplica)
    (ha : Accepts o₀ ρ.toReplica) : Accepts (o₀ ++ o) p := by
  refine h.invariant (I := fun o p => Accepts (o₀ ++ o) p) (by simpa using ha) ?_
  intro o p o' p' ha hmove
  rw [← List.append_assoc]
  exact hmove.accepts hi hst ha

/-- In one step of an acceptor the ballot of an open slot does not fall. -/
theorem Move.ballot_le {ρ : Paxos} {i : Input} {e : Env} {p p' : Replica} {o : List Out}
    (h : Move ρ i e p o p') (hi : i.Accepting) (hst : i.Steady ρ.toReplica)
    (hf : FreeSlots ρ.toReplica) {k : K} (hm : (ρ.slot k).pMode ≠ .decided)
    (hle : cmpRound (ρ.slot k).pRndBallot (p.slot k).pRndBallot ≤ 0) :
    cmpRound (ρ.slot k).pRndBallot (p'.slot k).pRndBallot ≤ 0 := by
  cases h with
  | quiet | tellOld | tellDecided | old | promise | tellLast => exact hle
  | newRound _ hp _ hp' =>
      rw [hp'] at *
      change cmpRound _ ((p.slot k).newRound _ _).pRndBallot ≤ 0
      unfold Slot.newRound
      split
      · next h =>
          rw [hp] at h
          have hzero : (ρ.slot k).pRndBallot.rSeq = 0 := by rw [hf k h.1]; rfl
          exact cmpRound_zero_le hzero _
      · exact hle
  | @store fr m held o hi' hp hs hr hpage hmk hc ho =>
      subst hi'
      by_cases hk : k = m.bK
      · subst hk
        rw [Replica.slot_setSlot_self]
        rw [hp] at hr hpage
        exact hst.2 hr hpage hm
      · rwa [Replica.slot_setSlot_of_ne hk]
  | @release k' _ hs hmk ho =>
      by_cases hk : k = k'
      · subst hk
        rwa [Replica.slot_setSlot_self]
      · rwa [Replica.slot_setSlot_of_ne hk]
  | learn hi' =>
      obtain ⟨m, rfl, -⟩ | ⟨m, rfl, -⟩ := hi' <;> exact hi.elim
  | sole hi' | soleFail hi' =>
      obtain ⟨fr, m, rfl⟩ | ⟨c, v, rfl⟩ := hi' <;> exact hi.elim
  | requestFail hi' | replyOk hi' | gather hi' | win hi' | recast hi' | takeCmd hi' | addAcc hi' | decide hi' | request hi'
  | winSole hi' | requestSole hi' =>
      subst hi'
      exact hi.elim

theorem Moves.ballot_le {ρ : Paxos} {i : Input} {e : Env} {p : Replica} {o : List Out}
    (h : Moves ρ i e ρ.toReplica o p) (hi : i.Accepting) (hst : i.Steady ρ.toReplica)
    (hf : FreeSlots ρ.toReplica) {k : K} (hm : (ρ.slot k).pMode ≠ .decided) :
    cmpRound (ρ.slot k).pRndBallot (p.slot k).pRndBallot ≤ 0 := by
  have h₀ : cmpRound (ρ.slot k).pRndBallot (ρ.slot k).pRndBallot ≤ 0 := by
    rw [cmpRound_self]
  exact h.invariant (I := fun _ q => cmpRound (ρ.slot k).pRndBallot (q.slot k).pRndBallot ≤ 0) h₀
    fun hle hmove => hmove.ballot_le hi hst hf hm hle

/-- What holds of free slots holds in every life. -/
theorem Life.freeSlots {ok : Paxos → Input → Env → Prop} {s₀ : Paxos} {o : List Out}
    {s : Option Paxos} (h : Life ok s₀ o s) (h₀ : FreeSlots s₀.toReplica) :
    ∀ t ∈ s, FreeSlots t.toReplica := by
  obtain ⟨p, hp, hs⟩ := h.invariant (I := fun _ p => FreeSlots p) h₀ fun hp _ hm =>
    hm.invariant (I := fun _ p => FreeSlots p) hp fun hq hstep => hstep.freeSlots hq
  exact fun t ht => hs t ht ▸ hp

theorem server_freeSlots (cfg : Config) (j : ℕ) : FreeSlots (cfg.server j).toReplica := by
  intro k _
  unfold Config.server
  cases cfg.mode j <;> rfl

def staleCell : Config := { core := 3 }

/-- A proposal of the leader of round `r` for the first slot. -/
def staleBegin (r : Round) : Input :=
  .recv r.rId (.begin
    { bTo := r.rId, bPage := 0, bK := 0, bCurRnd := r,
      bValue := { vFlags := { defined := true }, vServer := r.rId, vFrom := r.rId },
      bMetaCmd := { cOpaque := [97] } })

def staleCollect (r : Round) : Input :=
  .recv r.rId (.collect
    { cCurRnd := r, cNextDecide := 0, cBackPage := 0, cPage := 0, cNextK := 0,
      cPaxos := fun _ => {} })

/-- Server 2 misses the collection of the second round and accepts its proposal. -/
abbrev staleFirst : Outcome Paxos Out Fault Unit :=
  handle (staleBegin ⟨1, 2⟩) {} (staleCell.server 2)

/-- Then the messages of the first round come in. -/
abbrev staleSecond : Outcome Paxos Out Fault Unit := handle (staleCollect ⟨0, 1⟩) {} staleFirst.st
abbrev staleThird : Outcome Paxos Out Fault Unit := handle (staleBegin ⟨0, 1⟩) {} staleSecond.st

/-- With the proposals the other way round nothing falls behind. -/
abbrev steadyFirst : Outcome Paxos Out Fault Unit :=
  handle (staleBegin ⟨0, 1⟩) {} (staleCell.server 2)
abbrev steadySecond : Outcome Paxos Out Fault Unit := handle (staleBegin ⟨1, 2⟩) {} steadyFirst.st

theorem steady_life :
    Life (fun s i _ => i.Accepting ∧ i.Steady s.toReplica) (staleCell.server 2)
      ([] ++ steadyFirst.out ++ steadySecond.out) (some steadySecond.st) :=
  .step (.step .start ⟨trivial, by decide, fun _ _ _ => by decide +kernel⟩ (by decide +kernel))
    ⟨trivial, by decide, fun _ _ _ => by decide +kernel⟩ (by decide +kernel)

theorem stale_life :
    Life (fun _ i _ => i.Accepting) (staleCell.server 2)
      ([] ++ staleFirst.out ++ staleSecond.out ++ staleThird.out) (some staleThird.st) :=
  .step (.step (.step .start trivial (by decide +kernel)) trivial (by decide +kernel)) trivial
    (by decide +kernel)

def Out.acceptance : Out → Option (UInt32 × K × Round)
  | .accepted page k r _ _ => some (page, k, r)
  | _ => none

theorem acceptances_of_respects {o : List Out} (h : o.Pairwise Out.Respects) :
    (o.filterMap Out.acceptance).Pairwise fun x y =>
      y.1 = x.1 → y.2.1 = x.2.1 → 0 ≤ cmpRound y.2.2 x.2.2 := by
  refine h.filterMap _ fun x y hxy a ha b hb => ?_
  cases x <;> cases ha
  cases y <;> cases hb
  exact hxy

end PaxosSolutions
