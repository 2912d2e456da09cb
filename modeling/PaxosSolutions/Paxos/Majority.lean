import PaxosSolutions.Paxos.Settled

/-!
# What is executed

A replica executes only commands that some server put up for the number. With
more than one core server a majority of them has accepted a proposal for the
number before.
-/
namespace PaxosSolutions
open NWGadget Lib

/-- Which servers have accepted a proposal for a number. -/
abbrev Votes : Type := UInt32 → ℕ → Prop

/-- Of `n` core servers only those that voted for number `q` are counted, and
server `me` holds back an accept only of its own vote. -/
structure Slot.Counts (V : Votes) (n me : ℕ) (q : UInt32) (s : Slot) : Prop where
  total : s.pRndAccQuo.qTotal = n
  votes : ∀ a ∈ s.pRndAccQuo.qMember, V q a
  held : s.pSuppressed = true → V q me

abbrev Replica.Counts (V : Votes) (p : Replica) : Prop :=
  ∀ k, (p.slot k).Counts V p.pMax p.pMyId (p.seq k)

/-- Server `me` has voted for what it accepts, and proposals go to core servers. -/
def Msg.Cast (V : Votes) (n me dst : ℕ) : Msg → Prop
  | .accept m => V (toSeq m.aPage m.aK) me
  | .begin _ => dst < n
  | _ => True

def Out.Cast (V : Votes) (n me : ℕ) : Out → Prop
  | .send dst m => m.Cast V n me dst
  | .accepted _ _ _ _ _ => me < n
  | _ => True

section
variable {V : Votes} {k : K} {ρ : Paxos} {i : Input} {e : Env} {p p' : Replica} {o : List Out}
  {n me : ℕ} {q : UInt32} {s s' : Slot}

/-! ### Slots -/

theorem freeSlot_counts : (freeSlot n).Counts V n me q :=
  ⟨rfl, fun a ha => absurd ha (Finset.notMem_empty a), fun hheld => absurd hheld Bool.false_ne_true⟩

theorem Slot.Counts.congr (h : s.Counts V n me q) (hquo : s'.pRndAccQuo = s.pRndAccQuo)
    (hheld : s'.pSuppressed = s.pSuppressed) : s'.Counts V n me q :=
  ⟨hquo ▸ h.total, hquo ▸ h.votes, hheld ▸ h.held⟩

theorem Slot.Counts.add (h : s.Counts V n me q) {a : ℕ} (ha : V q a)
    (hquo : s'.pRndAccQuo = quorumAdd s.pRndAccQuo a) (hheld : s'.pSuppressed = s.pSuppressed) :
    s'.Counts V n me q := by
  refine ⟨by rw [hquo, quorumAdd_total, h.total], fun b hb => ?_, hheld ▸ h.held⟩
  rw [hquo, quorumAdd_member] at hb
  rcases Finset.mem_insert.mp hb with rfl | hb
  · exact ha
  · exact h.votes b hb

theorem Slot.Counts.cast {r : Round} {d : ℤ} {own : Bool} (h : s.Counts V n me q)
    (hown : own = true → V q me) : (s.cast me r d own).Counts V n me q := by
  unfold Slot.cast
  split
  · next ho => exact h.add (hown ho) rfl rfl
  · exact h.congr rfl rfl

theorem Slot.adopt_counts {m : MsgPaxos} (h : s.Counts V n me q) : (s.adopt m).Counts V n me q := by
  unfold Slot.adopt
  split
  · exact h.congr rfl rfl
  · exact h

/-- A majority of the counted servers. -/
theorem Slot.Counts.majority (h : s.Counts V n me q) (hq : quorumMajority s.pRndAccQuo) :
    ∃ Q : Finset ℕ, n / 2 + 1 ≤ Q.card ∧ ∀ a ∈ Q, V q a := by
  refine ⟨s.pRndAccQuo.qMember, ?_, h.votes⟩
  rw [← s.pRndAccQuo.count_eq, ← h.total]
  exact hq

namespace Replica.Counts

theorem setMulti {f : Multi → Multi} (hpage : (f p.pMulti).pPage = p.page)
    (hslot : ∀ k, ((f p.pMulti).slots k).Counts V p.pMax p.pMyId (p.seq k)) :
    (p.setMulti f).Counts V := by
  intro k
  change ((f p.pMulti).slots k).Counts V p.pMax p.pMyId (toSeq (f p.pMulti).pPage k)
  rw [hpage]
  exact hslot k

theorem setSlot {f : Slot → Slot} (h : p.Counts V)
    (hf : (f (p.slot k)).Counts V p.pMax p.pMyId (p.seq k)) : (p.setSlot k f).Counts V := by
  refine setMulti rfl fun k' => ?_
  change ((p.setSlot k f).slot k').Counts V _ _ _
  rw [Replica.slot_setSlot]
  split
  · next hk => exact hk ▸ hf
  · exact h k'

end Replica.Counts

theorem Execs.counts (h : Execs k p o p') (hm : (p.slot k).pMode = .decided) (hc : p.Counts V) :
    p'.Counts V := by
  obtain ⟨hme, hmax, -⟩ := h.frame hm
  intro k'
  rw [hme, hmax]
  rcases h.slots hm with ⟨hpage, hslot⟩ | hslot
  · rw [hslot, Replica.seq, hpage]
    exact hc k'
  · rw [hslot]
    exact freeSlot_counts

/-! ### Outputs -/

theorem Out.Quiet.cast {x : Out} (h : x.Quiet) : x.Cast V n me := by
  cases x with
  | send d m => cases m <;> trivial
  | accepted => exact h.elim
  | _ => trivial

theorem IsCast.cast {bTo : ℕ} {r : Round} {own : Bool} {x : Out} (h : IsCast p k bTo r own x)
    (hown : own = true → me < p.pMax) : x.Cast V p.pMax me := by
  rcases h with ⟨j, m, rfl, hj, -⟩ | ⟨ho, rfl⟩
  · exact hj
  · exact hown ho

theorem IsBeginCast.cast {own : Bool} {x : Out} (h : IsBeginCast p k own x)
    (hown : own = true → me < p.pMax) : x.Cast V p.pMax me := by
  unfold IsBeginCast at h
  split at h
  · exact h.2.cast hown
  · obtain ⟨m, rfl, -⟩ := h
    trivial

theorem Execs.cast (h : Execs k p o p') (hm : (p.slot k).pMode = .decided) :
    ∀ x ∈ o, x.Cast V n me := by
  refine (h.goes hm).forall_out fun hs x hx => ?_
  cases hs with
  | quiet h => rw [List.mem_singleton.mp hx]; exact h.cast
  | reject | execSlot | execGap => rw [List.mem_singleton.mp hx]; trivial
  | _ => cases hx

/-! ### Moves -/

/-- A move of one of several core servers counts only votes. -/
theorem Move.counts (h : Move ρ i e p o p') (hN : p.pMax ≠ 1) (hf : FreeSlots p)
    (hV : ∀ page (k : K) r v c, .accepted page k r v c ∈ o → V (toSeq page k) p.pMyId)
    (hbegin : ∀ fr m, i = .recv fr (.begin m) → p.pMyId < p.pMax)
    (hto : ∀ fr m, i = .recv fr (.beginRedirect m) → m.bTo ≠ p.pMyId)
    (haccept : ∀ fr m, i = .recv fr (.accept m) → V (toSeq m.aPage m.aK) fr)
    (hp : p.Counts V) : p'.Counts V ∧ ∀ x ∈ o, x.Cast V p.pMax p.pMyId := by
  cases h with
  | quiet h => exact ⟨hp, by simpa using h.cast⟩
  | tellOld | tellDecided | tellLast | requestFail | replyOk =>
      exact ⟨hp, by simp [Out.Cast, Msg.Cast]⟩
  | @newRound _ epoch o hi hp₀ hc hp' ho =>
      refine ⟨?_, fun x hx => ?_⟩
      · rw [hp']
        refine .setMulti rfl fun k => ?_
        change ((p.slot k).newRound _ _).Counts V _ _ _
        rw [hf.newRound]
        exact hp k
      · obtain ⟨j, m, rfl, -⟩ := ho x hx
        trivial
  | old | promise => exact ⟨.setMulti rfl hp, by simp⟩
  | @gather fr m =>
      refine ⟨.setMulti rfl fun k => ?_, by simp⟩
      change (if m.lPage = p.pMulti.pPage then _ else _ : Slot).Counts V _ _ _
      split
      · exact Slot.adopt_counts (hp k)
      · exact hp k
  | @win fr m d own ks o hi hp₀ ha hr hq hown ho ho' =>
      refine ⟨.setMulti rfl fun k => ?_, fun x hx => ?_⟩
      · change (if (p.slot k).Open then _ else _ : Slot).Counts V _ _ _
        split_ifs with hopen hk
        · refine (hp k).cast fun hw => ?_
          obtain ⟨hw, hfrom⟩ := of_decide_eq_true hw
          exact hV _ k _ _ _ (ho' k hk hopen hfrom hw)
        · exact (hp k).congr rfl rfl
        · exact hp k
      · obtain ⟨k, -, -, hx⟩ := ho x hx
        exact hx.cast fun hw => (hown.mp hw).2
  | @recast fr m w o hi hp₀ hpage hc hown ho ho' =>
      have hw : w ≠ true := fun hw => hto fr m hi (hown hw)
      refine ⟨hp.setSlot ?_, fun x hx => (ho x hx).cast fun h => absurd h hw⟩
      rw [if_neg hw]
      exact hp m.bK
  | @takeCmd fr m => exact ⟨hp.setSlot ((hp m.aK).congr rfl rfl), by simp⟩
  | @addAcc fr m hi hr hpage hm =>
      refine ⟨hp.setSlot ((hp m.aK).add ?_ rfl rfl), by simp⟩
      have hvote := haccept fr m hi
      rwa [← hpage] at hvote
  | @decide _ fr m _ _ hi hr hpage hm hme hq hfrom hc ho he =>
      have hdec : ((p.setSlot m.aK Slot.win).slot m.aK).pMode = .decided := by
        rw [Replica.slot_setSlot_self]
        rfl
      refine ⟨he.counts hdec (hp.setSlot ((hp m.aK).congr rfl rfl)), fun x hx => ?_⟩
      rcases List.mem_append.mp hx with hx | hx
      · obtain ⟨j, m, rfl, -⟩ := ho x hx
        trivial
      · exact he.cast hdec x hx
  | @learn _ fr k v c mark _ hi hp₀ hm hc he =>
      have hdec : ((p.setSlot k (Slot.decide v c p.pMyId mark)).slot k).pMode = .decided := by
        rw [Replica.slot_setSlot_self]
        rfl
      exact ⟨he.counts hdec (hp.setSlot ((hp k).congr rfl rfl)), he.cast hdec⟩
  | @store fr m held o hi hp₀ hsup hr hpage hm hc ho =>
      have hvote : V (p.seq m.bK) p.pMyId := hV _ m.bK _ _ _ List.mem_cons_self
      refine ⟨hp.setSlot ⟨(hp m.bK).total, (hp m.bK).votes, fun _ => hvote⟩, fun x hx => ?_⟩
      rcases List.mem_cons.mp hx with rfl | hx
      · exact hbegin fr m hi
      · obtain ⟨-, a, rfl, hpage', hk, -⟩ := ho x hx
        change V (toSeq a.aPage a.aK) _
        rw [hpage', hk]
        exact hvote
  | @release k o hsup hm ho =>
      refine ⟨hp.setSlot ⟨(hp k).total, (hp k).votes, nofun⟩, fun x hx => ?_⟩
      obtain ⟨j, a, rfl, hpage, hk, -⟩ := ho x hx
      change V (toSeq a.aPage a.aK) _
      rw [hpage, hk]
      exact (hp k).held hsup
  | @request q cmd v k c epoch d w o hi hp₀ hcmd hN' hmy hpage hk hm hc hown hq ho ho' =>
      have hqmax : q.pMax = p.pMax := by rw [hq]; rfl
      refine ⟨?_, fun x hx => ?_⟩
      · rw [hq, Replica.setSlot_setSlot]
        refine hp.setSlot (Slot.Counts.cast ((hp k).congr rfl rfl) fun hw => ?_)
        have hmark := List.mem_cons_of_mem (.initCommand (p.seq k) c) (ho' hw)
        rw [hq] at hmark
        exact hV _ k _ _ _ hmark
      · rcases List.mem_cons.mp hx with rfl | hx
        · trivial
        · exact hqmax ▸ (ho x hx).cast fun hw => hqmax ▸ (hown.mp hw).2
  | winSole hi hN' | requestSole hi hp₀ hcmd hN' | sole hi hN' | soleFail hi hN' =>
      exact absurd hN' hN

/-- The states of a row whose acceptances are votes. -/
structure Replica.Counting (V : Votes) (n me : ℕ) (p : Replica) : Prop where
  me : p.pMyId = me
  max : p.pMax = n
  free : FreeSlots p
  counts : p.Counts V

theorem Move.counting (h : Move ρ i e p o p') (hN : n ≠ 1)
    (hV : ∀ page (k : K) r v c, .accepted page k r v c ∈ o → V (toSeq page k) me)
    (hbegin : ∀ fr m, i = .recv fr (.begin m) → me < n)
    (hto : ∀ fr m, i = .recv fr (.beginRedirect m) → m.bTo ≠ me)
    (haccept : ∀ fr m, i = .recv fr (.accept m) → V (toSeq m.aPage m.aK) fr)
    (hp : p.Counting V n me) : p'.Counting V n me ∧ ∀ x ∈ o, x.Cast V n me := by
  obtain ⟨rfl, rfl, hf, hc⟩ := hp
  obtain ⟨hc', ho⟩ := h.counts hN hf hV hbegin hto haccept hc
  exact ⟨⟨h.setup.1, h.setup.2, h.freeSlots hf, hc'⟩, ho⟩

/-! ### Runs of a cell -/

/-- Server `a` has accepted a proposal for number `q`. -/
def Sys.Voted (S : Sys) : Votes := fun q a =>
  ∃ page, ∃ k : K, ∃ r v c, toSeq page k = q ∧ (a, .accepted page k r v c) ∈ S.log

/-- In a cell of `n` core servers only votes are counted. -/
structure Sys.Counted (n : ℕ) (V : Votes) (S : Sys) : Prop where
  srv : ∀ s, S.up s = true → (S.srv s).toReplica.Counting V n s
  sent : ∀ x ∈ S.sent, (Out.send x.dst x.msg).Cast V n x.fr
  redirect : ∀ x ∈ S.sent, (Out.send x.dst x.msg).Redirects x.fr
  core : ∀ a page k r v c, (a, .accepted page k r v c) ∈ S.log → a < n

theorem Msg.Cast.mono {V' : Votes} {m : Msg} {dst : ℕ} (h : m.Cast V n me dst)
    (hle : ∀ q a, V q a → V' q a) : m.Cast V' n me dst := by
  cases m with
  | accept m => exact hle _ _ h
  | begin m => exact h
  | _ => trivial

theorem Replica.Counting.mono {V' : Votes} (h : p.Counting V n me)
    (hle : ∀ q a, V q a → V' q a) : p.Counting V' n me :=
  ⟨h.me, h.max, h.free, fun k => ⟨(h.counts k).total, fun a ha => hle _ _ ((h.counts k).votes a ha),
    fun hs => hle _ _ ((h.counts k).held hs)⟩⟩

/-- The row of a step at a server of the cell, whatever else holds in it. -/
theorem Sys.Counted.row {V' : Votes} {J : Replica → Prop} {S : Sys} {a : Act} {s : ℕ} (h : S.Counted n V)
    (hN : n ≠ 1) (ha : S.input a = some (s, i, e)) (hu : S.up s = true)
    (hle : ∀ q a, V q a → V' q a)
    (hV : ∀ page (k : K) r v c, .accepted page k r v c ∈ (handle i e (S.srv s)).out →
      V' (toSeq page k) s)
    (hm : Runs (fun p o p' => J p ∧ Move (S.srv s) i e p o p') (S.srv s).toReplica
      (handle i e (S.srv s)).out p) :
    p.Counting V' n s ∧ (∀ x ∈ (handle i e (S.srv s)).out, x.Cast V' n s) ∧
      Runs (fun p o p' => (J p ∧ p.Counting V' n s) ∧ Move (S.srv s) i e p o p')
        (S.srv s).toReplica (handle i e (S.srv s)).out p := by
  have hρ := (h.srv s hu).mono hle
  have hbegin : ∀ fr m, i = .recv fr (.begin m) → s < n := by
    rintro fr m rfl
    exact h.sent _ (Sys.input_recv ha nofun)
  have hto : ∀ fr m, i = .recv fr (.beginRedirect m) → m.bTo ≠ s := by
    rintro fr m rfl
    obtain ⟨hto, hne⟩ := h.redirect _ (Sys.input_recv ha nofun)
    exact hto.trans_ne (Ne.symm hne)
  have haccept : ∀ fr m, i = .recv fr (.accept m) → V' (toSeq m.aPage m.aK) fr := by
    rintro fr m rfl
    exact hle _ _ (h.sent _ (Sys.input_recv ha nofun))
  have hstep : ∀ {q o q'}, q.Counting V' n s → (∀ x ∈ o, x ∈ (handle i e (S.srv s)).out) →
      Move (S.srv s) i e q o q' → q'.Counting V' n s ∧ ∀ x ∈ o, x.Cast V' n s :=
    fun hq ho hmove => hmove.counting hN (fun page k r v c hx => hV page k r v c (ho _ hx))
      hbegin hto haccept hq
  obtain ⟨hp, hrow⟩ := hm.along (P := (· ∈ (handle i e (S.srv s)).out)) hρ (fun _ hx => hx)
    fun hq ho hmove => (hstep hq ho hmove.2).1
  exact ⟨hp, hrow.forall_out fun ⟨hq, ho, hmove⟩ => (hstep hq ho hmove.2).2,
    hrow.weaken fun ⟨hq, _, hJ, hmove⟩ => ⟨⟨hJ, hq⟩, hmove⟩⟩

theorem Sys.Voted.run {S : Sys} {s a : ℕ} {q : UInt32} (hu : S.up s = true) (h : S.Voted q a) :
    (S.run s i e).Voted q a := by
  obtain ⟨page, k, r, v, c, hq, hm⟩ := h
  exact ⟨page, k, r, v, c, hq, (Sys.mem_log_run hu).mpr (.inl hm)⟩

theorem Sys.voted_out {S : Sys} {s : ℕ} (hu : S.up s = true) (page : UInt32) (k : K) (r : Round)
    (v : Value) (c : MetaCmd) (h : .accepted page k r v c ∈ (handle i e (S.srv s)).out) :
    (S.run s i e).Voted (toSeq page k) s :=
  ⟨page, k, r, v, c, rfl, (Sys.mem_log_run hu).mpr (.inr ⟨rfl, h⟩)⟩

/-- Every step counts only votes. -/
theorem Sys.Counted.run {S : Sys} {a : Act} {s : ℕ} (h : S.Counted n S.Voted) (hN : n ≠ 1)
    (ha : S.input a = some (s, i, e)) (hu : S.up s = true) :
    (S.run s i e).Counted n (S.run s i e).Voted := by
  obtain ⟨p, hmoves, hst⟩ := handle_moves (S.srv s) i e
  have hle : ∀ q a, S.Voted q a → (S.run s i e).Voted q a := fun _ _ hq => hq.run hu
  obtain ⟨hp, ho, -⟩ := h.row (J := fun _ => True) hN ha hu hle (Sys.voted_out hu)
    (hmoves.weaken fun hm => ⟨trivial, hm⟩)
  refine ⟨fun s' hs' => ?_, fun x hx => ?_, fun x hx => ?_, fun b page k r v c hx => ?_⟩
  · rcases Sys.up_run hu hst hs' with ⟨hup, ⟨hne, heq⟩ | ⟨rfl, heq⟩⟩
    · rw [heq]
      exact (h.srv s' hup).mono hle
    · rw [heq]
      exact hp
  · rcases (Sys.mem_sent_run hu).mp hx with hx | ⟨hfr, hx⟩
    · exact Msg.Cast.mono (h.sent x hx) hle
    · rw [hfr]
      exact ho _ hx
  · rcases (Sys.mem_sent_run hu).mp hx with hx | ⟨hfr, hx⟩
    · exact h.redirect x hx
    · rw [hfr, ← (h.srv s hu).me]
      exact hmoves.redirects _ hx
  · rcases (Sys.mem_log_run hu).mp hx with hx | ⟨rfl, hx⟩
    · exact h.core b page k r v c hx
    · exact ho _ hx

theorem Config.init_counted (cfg : Config) : cfg.init.Counted cfg.core V := by
  refine ⟨fun s _ => ?_, by simp [Config.init, Sys.sent], by simp [Config.init, Sys.sent],
    by simp [Config.init]⟩
  change (cfg.server s).toReplica.Counting V cfg.core s
  have hfree := server_freeSlots cfg s
  have hserver : (cfg.server s).pMyId = s ∧ (cfg.server s).pMax = cfg.core ∧
      ∀ k, (cfg.server s).slot k = freeSlot cfg.core := by
    unfold Config.server
    cases cfg.mode s <;> exact ⟨rfl, rfl, fun _ => rfl⟩
  obtain ⟨hme, hmax, hslot⟩ := hserver
  refine ⟨hme, hmax, hfree, fun k => ?_⟩
  rw [hslot, hmax]
  exact freeSlot_counts

theorem Config.init_keeps {P : Proposals} (cfg : Config) : cfg.init.Keeps P := by
  obtain ⟨hme, hfree, -, -⟩ := cfg.init_paired
  refine ⟨hme, hfree, fun s _ mu hmu k hne => ?_, by simp [Config.init, Sys.sent]⟩
  have hmulti : mu = (cfg.server s).pMulti := by
    change mu ∈ (cfg.server s).pMulti :: (cfg.server s).pMultiLnk at hmu
    unfold Config.server at hmu ⊢
    cases hmode : cfg.mode s <;> rw [hmode] at hmu <;> exact List.mem_singleton.mp hmu
  have hempty : ∀ k, ((cfg.server s).pMulti.slots k).cMetaCmdRnd.IsEmpty := by
    unfold Config.server
    cases cfg.mode s <;> exact fun _ => rfl
  rw [hmulti] at hne
  exact absurd (hempty k) hne

/-! ### Commands that were put up -/

theorem Input.carries_any {D : Decisions} (h : ∀ q q' c, D q c → D q' c) :
    i.Carries D.pairs ρ := by
  cases i with
  | recv fr m =>
      cases m with
      | last m => exact fun _ _ _ _ _ _ hD => hD
      | accept m => exact fun _ _ _ _ hD => hD
      | collect m => exact fun _ _ c hD => h _ _ c hD
      | _ => trivial
  | _ => trivial

theorem Input.Unwrapped.carries {D : Decisions} (h : i.Unwrapped) : i.Carries D.pairs ρ := by
  cases i with
  | recv fr m =>
      cases m with
      | last m => exact fun _ _ _ _ _ _ hD => hD
      | accept m => exact fun _ _ _ _ hD => hD
      | collect m => exact fun k j c hD => toSeq_toK h ▸ hD
      | _ => trivial
  | _ => trivial

/-- Some server put the command up for number `q`. -/
def Sys.PutUp (S : Sys) : Decisions := fun q c => ∃ j, S.Proposed q j c

/-- Some server put the command up. -/
def Sys.Known (S : Sys) : Decisions := fun _ c => ∃ q, S.PutUp q c

/-- Some server put the command up for number `q`, and a majority of `n`
accepted a proposal for it. -/
def Sys.Backed (n : ℕ) (S : Sys) : Decisions := fun q c =>
  S.PutUp q c ∧ ∃ Q : Finset ℕ, n / 2 + 1 ≤ Q.card ∧ ∀ a ∈ Q, S.Voted q a

theorem Sys.PutUp.run {S : Sys} {s : ℕ} {q : UInt32} {c : MetaCmd} (hu : S.up s = true)
    (h : S.PutUp q c) : (S.run s i e).PutUp q c := by
  obtain ⟨j, hj⟩ := h
  exact ⟨j, (Sys.mem_log_run hu).mpr (.inl hj)⟩

theorem Sys.putUp_out {S : Sys} {s : ℕ} {q : UInt32} {c : MetaCmd} (hu : S.up s = true)
    (h : .initCommand q c ∈ (handle i e (S.srv s)).out) : (S.run s i e).PutUp q c :=
  ⟨s, (Sys.mem_log_run hu).mpr (.inr ⟨rfl, h⟩)⟩

theorem Reachable.known {cfg : Config} {S : Sys} (h : Reachable cfg (fun _ _ _ _ => True) S) :
    S.Keeps S.Known.pairs ∧ S.Settles S.Known := by
  induction h with
  | init => exact ⟨cfg.init_keeps, cfg.init_settles⟩
  | @step S a s i e h ha hu hok ih =>
      have hle : ∀ q c, S.Known q c → (S.run s i e).Known q c :=
        fun _ _ ⟨q, hq⟩ => ⟨q, hq.run hu⟩
      have hcar : ∀ ρ, i.Carries (S.run s i e).Known.pairs ρ :=
        fun _ => Input.carries_any fun _ _ _ hc => hc
      have hP : ∀ q c, .initCommand q c ∈ (handle i e (S.srv s)).out → (S.run s i e).Known q c :=
        fun q c hm => ⟨q, Sys.putUp_out hu hm⟩
      have hkeeps : (S.run s i e).Keeps (S.run s i e).Known.pairs :=
        ih.1.run ha hu (hcar _) (fun q _ c => hle q c) hP
      refine ⟨hkeeps, ih.2.run ha hu (hcar _) hle (fun p hm =>
        ih.1.row ha hu (hcar _) (fun q _ c => hle q c) hP hm) fun p k hp hchosen => ?_⟩
      exact hp.paired.slot k hchosen.1

theorem Reachable.backed {cfg : Config} {S : Sys} (hn : cfg.core ≠ 1)
    (h : Reachable cfg (fun _ _ i _ => i.Unwrapped) S) :
    S.Keeps S.PutUp.pairs ∧ S.Counted cfg.core S.Voted ∧ S.Settles (S.Backed cfg.core) := by
  induction h with
  | init => exact ⟨cfg.init_keeps, cfg.init_counted, cfg.init_settles⟩
  | @step S a s i e h ha hu hok ih =>
      obtain ⟨hkeeps, hcounted, hsettles⟩ := ih
      have hput : ∀ q c, S.PutUp q c → (S.run s i e).PutUp q c := fun q c hq => hq.run hu
      have hP : ∀ q c, .initCommand q c ∈ (handle i e (S.srv s)).out → (S.run s i e).PutUp q c :=
        fun q c hm => Sys.putUp_out hu hm
      have hle : ∀ q c, S.Backed cfg.core q c → (S.run s i e).Backed cfg.core q c :=
        fun q c ⟨hq, Q, hQ, hvotes⟩ => ⟨hq.run hu, Q, hQ, fun a ha => (hvotes a ha).run hu⟩
      have hkept : (S.run s i e).Keeps (S.run s i e).PutUp.pairs :=
        hkeeps.run ha hu hok.carries (fun q _ c => hput q c) hP
      refine ⟨hkept, hcounted.run hn ha hu, hsettles.run ha hu hok.carries hle
          (J := fun p => p.Keeping (S.run s i e).PutUp.pairs s ∧
            p.Counting (S.run s i e).Voted cfg.core s) (fun p hm => ?_) fun p k hp hchosen => ?_⟩
      · have hrow : Runs (fun p o p' => p.Keeping (S.run s i e).PutUp.pairs s ∧
            Move (S.srv s) i e p o p') (S.srv s).toReplica (handle i e (S.srv s)).out p :=
          hkeeps.row ha hu hok.carries (fun q _ c => hput q c) hP hm
        exact (hcounted.row hn ha hu (fun _ _ hq => hq.run hu) (Sys.voted_out hu) hrow).2.2
      · refine ⟨hp.1.paired.slot k hchosen.1, ?_⟩
        obtain ⟨-, hmaj⟩ | hone := hchosen.2
        · have hslot := hp.2.counts k
          rw [hp.2.max] at hslot
          exact hslot.majority hmaj
        · exact absurd (hp.2.max.symm.trans hone) hn

end

/-- In every run of a cell, whatever is delayed, reordered, repeated or lost and
whoever leads, a server executes only commands that were passed to
`InitCommand`. -/
theorem executed_known {cfg : Config} {S : Sys} (h : Reachable cfg (fun _ _ _ _ => True) S)
    {s : ℕ} {q : UInt32} {d : Value} {c : MetaCmd} (hx : (s, .execute q d c) ∈ S.log) :
    ∃ q' j, S.Proposed q' j c :=
  h.known.2.done s q d c hx

/-- In every run of a cell of several core servers in which no page is collected
whose numbers wrap, a command that is executed was put up for its number, and a
majority of the core servers has accepted a proposal for this number. -/
theorem executed_backed {cfg : Config} {S : Sys} (hn : cfg.core ≠ 1)
    (h : Reachable cfg (fun _ _ i _ => i.Unwrapped) S) {s : ℕ} {q : UInt32} {d : Value}
    {c : MetaCmd} (hx : (s, .execute q d c) ∈ S.log) :
    (∃ j, S.Proposed q j c) ∧ ∃ Q : Finset ℕ, cfg.core / 2 + 1 ≤ Q.card ∧
      ∀ a ∈ Q, a < cfg.core ∧ ∃ page, ∃ k : K, ∃ r v c', toSeq page k = q ∧
        (a, .accepted page k r v c') ∈ S.log := by
  obtain ⟨-, hcounted, hsettles⟩ := h.backed hn
  obtain ⟨hput, Q, hQ, hvotes⟩ := hsettles.done s q d c hx
  refine ⟨hput, Q, hQ, fun a ha => ?_⟩
  obtain ⟨page, k, r, v, c', hq, hm⟩ := hvotes a ha
  exact ⟨hcounted.core a page k r v c' hm, page, k, r, v, c', hq, hm⟩

/-! ### A first command -/

/-- Every input of the row meets `C`. -/
def Sys.Meets (C : Input → Prop) : Sys → List Act → Prop
  | _, [] => True
  | S, a :: as => (∀ x ∈ S.input a, C x.2.1) ∧ Sys.Meets C (S.step a) as

instance Sys.decidableMeets (C : Input → Prop) [DecidablePred C] : (S : Sys) →
    (as : List Act) → Decidable (S.Meets C as)
  | _, [] => isTrue trivial
  | S, a :: as =>
      have := Sys.decidableMeets C (S.step a) as
      inferInstanceAs (Decidable ((∀ x ∈ S.input a, C x.2.1) ∧ Sys.Meets C (S.step a) as))

theorem Reachable.meets {cfg : Config} {C : Input → Prop} {S : Sys} {as : List Act}
    (h : Reachable cfg (fun _ _ i _ => C i) S) (hC : S.Meets C as) :
    Reachable cfg (fun _ _ i _ => C i) (as.foldl Sys.step S) := by
  induction as generalizing S with
  | nil => exact h
  | cons a as ih => exact ih (h.act a fun s i e ha => hC.1 (s, i, e) ha) hC.2

/-- Three core servers. -/
def trioCell : Config where
  core := 3
  core_pos := three_core

/-- Server 0 wins a round with server 2 and executes the command `a`. -/
def trioActs : List Act :=
  [.heartbeat 0 {}, .newRound 0 {}, .deliver 5 {}, .deliver 6 {}, .request 0 [97] false {},
    .deliver 8 {}, .deliver 9 {}]

abbrev trio : Sys := trioActs.foldl Sys.step trioCell.init

theorem trio_runs : trioCell.init.Meets Input.Unwrapped trioActs ∧
    (executed (trio.outs 0)).map (·.gSeq) = [0] ∧
    ((trio.outs 0).filterMap Out.proposal).map (fun x => (x.1, x.2.cOpaque)) = [(0, [97])] := by
  decide +kernel

theorem trio_executes : ∃ d c, (0, .execute 0 d c) ∈ trio.log := by
  have hseq : 0 ∈ (executed (trio.outs 0)).map (·.gSeq) := by
    rw [trio_runs.2.1]
    exact List.mem_singleton_self 0
  obtain ⟨g, hg, h0⟩ := List.mem_map.mp hseq
  obtain ⟨x, hx, hxg⟩ := List.mem_filterMap.mp hg
  cases x with
  | execute q d c =>
      cases hxg
      cases h0
      exact ⟨d, c, Sys.mem_outs.mp hx⟩
  | _ => cases hxg

theorem executed_known_trio : ∃ d c, (0, .execute 0 d c) ∈ trio.log ∧ ∃ q' j, trio.Proposed q' j c := by
  obtain ⟨d, c, hx⟩ := trio_executes
  exact ⟨d, c, hx, executed_known (Reachable.init.acts trioActs) hx⟩

theorem executed_backed_trio : ∃ d c, (0, .execute 0 d c) ∈ trio.log ∧
    (∃ j, trio.Proposed 0 j c) ∧ ∃ Q : Finset ℕ, trioCell.core / 2 + 1 ≤ Q.card ∧
      ∀ a ∈ Q, a < trioCell.core ∧ ∃ page, ∃ k : K, ∃ r v c', toSeq page k = 0 ∧
        (a, .accepted page k r v c') ∈ trio.log := by
  obtain ⟨d, c, hx⟩ := trio_executes
  exact ⟨d, c, hx, executed_backed (by decide) (Reachable.init.meets trio_runs.1) hx⟩

end PaxosSolutions
