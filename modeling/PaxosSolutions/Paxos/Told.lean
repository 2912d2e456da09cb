import PaxosSolutions.Paxos.Majority

/-!
# What a server tells

A server tells of a decision when it executes it, when it has made it and when
a peer catches up, from the slots of its page and of the pages that it retains.
All that it ever tells of a number is the same.
-/
namespace PaxosSolutions
open NWGadget Lib Lib.Handler

/-- The number and the command of a decision that is told. -/
def Out.told : Out → Option (UInt32 × MetaCmd)
  | .execute q _ c => some (q, c)
  | .send _ (.success m) => some (toSeq m.sPage m.sK, m.sMetaCmd)
  | .send _ (.catchupRpl m) => if m.cMetaCmd.IsEmpty then none else some (m.cSeq, m.cMetaCmd)
  | _ => none

/-- One of the numbers of the first page from before the start. -/
def Before (n q : UInt32) : Prop := ∃ m : ℕ, 0 < m ∧ m < paxosMax ∧ q + m.toUInt32 = n

/-- The number was executed with the command. -/
def Ran (o : List Out) (q : UInt32) (c : MetaCmd) : Prop :=
  ∃ g ∈ executed o, g.gSeq = q ∧ g.gMetaCmd = c

/-- The command was executed, or it is in a decided slot that `NextDecide` has
not reached, or the number is from before the start. -/
def Backs (n : UInt32) (o : List Out) (p : Replica) (j : ℕ) : Decisions := fun q c =>
  Ran o q c ∨ (∃ k : K, j ≤ k.val ∧ q = p.seq k ∧ (p.slot k).pMode = .decided ∧
    (p.slot k).cMetaCmdRnd = c) ∨ Before n q

/-- A slot that `NextDecide` has passed. -/
def Passed (n : UInt32) (o : List Out) (q : UInt32) (s : Slot) : Prop :=
  Before n q ∨ s.pMode = .decided ∧ Ran o q s.cMetaCmdRnd

/-- The pages that were left. -/
def KeptPages (n : UInt32) (o : List Out) (lnk : List Multi) : Prop :=
  ∀ mu ∈ lnk, ∀ k : K, Passed n o (toSeq mu.pPage k) (mu.slots k)

section
variable {n : UInt32} {o o' : List Out} {p p' : Replica} {j j' : ℕ} {q : UInt32}
  {c : MetaCmd} {k : K}

/-- A slot before `NextDecide` that was not executed is from before the start. -/
theorem InOrder.before_start (h : InOrder n o p j) {i : ℕ} (hi : i < j)
    (hl : (executed o).length < j - i) : Before n (p.seq i) := by
  have hj : j < 10 := h.lt
  have hseq : p.seq i + (j - i).toUInt32 = n + (executed o).length.toUInt32 := by
    rw [← Replica.seq_add, Nat.add_sub_cancel' hi.le, ← h.next, h.reached]
  have hsplit : j - i = j - i - (executed o).length + (executed o).length := by omega
  rw [hsplit] at hseq
  simp only [Nat.toUInt32] at hseq
  rw [UInt32.ofNat_add, ← UInt32.add_assoc] at hseq
  refine ⟨j - i - (executed o).length, by omega, ?_, (UInt32.add_left_inj _).mp hseq⟩
  change _ < 10
  omega

theorem Ran.mono (h : Ran o q c) : Ran (o ++ o') q c := by
  obtain ⟨g, hg, hgq⟩ := h
  rw [Ran, executed_append]
  exact ⟨g, List.mem_append_left _ hg, hgq⟩

theorem Backs.calm (h : Backs n o p j q c) (hc : p.Calm p') : Backs n (o ++ o') p' j q c := by
  rcases h with hr | ⟨k, hk, hq, hm, hcmd⟩ | hb
  · exact .inl hr.mono
  · refine .inr (.inl ⟨k, hk, ?_, (hc.slot k).mode.mpr hm, ?_⟩)
    · rw [hq, Replica.seq, Replica.seq, hc.page]
    · rw [((hc.slot k).keep hm).2, hcmd]
  · exact .inr (.inr hb)

theorem KeptPages.mono {lnk : List Multi} (h : KeptPages n o lnk) : KeptPages n (o ++ o') lnk :=
  fun mu hmu k => (h mu hmu k).imp_right fun ⟨hm, hr⟩ => ⟨hm, hr.mono⟩

/-- A slot before `NextDecide` was passed. -/
theorem InOrder.passed (h : InOrder n o p j) (hk : k.val < j) : Passed n o (p.seq k) (p.slot k) := by
  rcases Nat.lt_or_ge (executed o).length (j - k) with hl | hl
  · exact .inl (h.before_start hk hl)
  · obtain ⟨hm, hg⟩ := h.before k hk hl
    exact .inr ⟨hm, _, List.mem_of_getElem? hg, rfl, rfl⟩

/-- What a decided slot of the page says. -/
theorem InOrder.backs (h : InOrder n o p j) (hm : (p.slot k).pMode = .decided) :
    Backs n o p j (p.seq k) (p.slot k).cMetaCmdRnd := by
  rcases Nat.lt_or_ge k.val j with hlt | hge
  · rcases h.passed hlt with hb | ⟨-, hr⟩
    · exact .inr (.inr hb)
    · exact .inl hr
  · exact .inr (.inl ⟨k, hge, rfl, hm, rfl⟩)

/-- All that a server holds is backed. -/
theorem InOrder.settled (h : InOrder n o p j) (hk : KeptPages n o p.pMultiLnk)
    (hs : p.Settled fun _ _ => True) : p.Settled (Backs n o p j) := by
  refine ⟨fun mu hmu k hm => ⟨(hs.slot mu hmu k hm).1, ?_⟩, fun q g hg => ?_⟩
  · rcases List.mem_cons.mp hmu with rfl | hmu
    · exact h.backs hm
    · rcases hk mu hmu k with hb | ⟨-, hr⟩
      · exact .inr (.inr hb)
      · exact .inl hr
  · by_cases hq : ∀ k : K, q ≠ p.seq k
    · rw [h.rest q hq] at hg
      cases hg
    · push Not at hq
      obtain ⟨k, rfl⟩ := hq
      rw [h.gaps] at hg
      split at hg
      · next hp =>
          obtain ⟨hjk, hm⟩ := Replica.mem_pending.mp hp
          rw [List.mem_singleton.mp hg]
          exact .inr (.inl ⟨k, hjk, rfl, hm, rfl⟩)
      · cases hg

/-! ### Executions -/

/-- The slots, the page and the list of pages. -/
abbrev pageView (s : Paxos) : (K → Slot) × UInt32 × List Multi := (s.slot, s.page, s.pMultiLnk)

theorem execute_pages {seq : UInt32} {d : Value} {c : MetaCmd} :
    Frames pageView (fun _ => True) (execute seq d c) :=
  Frames.read fun _ => Frames.bind (Frames.emit trivial) fun _ =>
    Frames.ite (Frames.emit trivial) (Frames.emit trivial)

theorem execGaps_pages (m : ℕ) : Frames pageView (fun _ => True) (execGaps m) := by
  induction m with
  | zero => exact Frames.pure _
  | succ m ih =>
      refine Frames.read fun p => ?_
      cases p.pGaps.getItem p.pNextDecide with
      | none => exact Frames.pure _
      | some x =>
          exact Frames.bind execute_pages fun _ => Frames.bind (Frames.modify fun _ => rfl) fun _ => ih

theorem execUp_pages : Frames pageView (fun _ => True) (execUp k) := by
  refine Frames.bind (Frames.modify fun _ => rfl) fun _ => Frames.read fun p => ?_
  refine Frames.ite (Frames.pure _) (Frames.bind (Frames.when (Frames.emit trivial)) fun _ => ?_)
  refine Frames.bind (Frames.ite ?_ (Frames.modify fun _ => rfl)) fun _ =>
    Frames.bind (Frames.modify fun _ => rfl) fun _ => Frames.pure _
  exact Frames.read fun p => Frames.bind (Frames.modify fun _ => rfl) fun _ =>
    Frames.bind execute_pages fun _ => execGaps_pages _

/-- An execution leaves the list of pages, or begins a page and puts the one
that was left before a first part of the list. -/
theorem Execs.pages (h : Execs k p o p') :
    p'.pMultiLnk = p.pMultiLnk ∧ p'.page = p.page ∨
      p'.page = p.page + 1 ∧ ∃ mu : Multi, mu.pPage = p.page ∧ mu.slots = p.pMulti.slots ∧
        p'.pMultiLnk <+: mu :: p.pMultiLnk := by
  have hcmd := h.cmd
  obtain ⟨s, e, rfl, -, -, rfl⟩ := h
  obtain ⟨s₁, hs₁, hrun₁⟩ : ∃ s₁ : Paxos, s₁.toReplica = s.toReplica ∧
      exec k e s = (execUp k >>= fun done => when (done = true) (updatePage e)) s₁ := by
    unfold exec Handler.when
    rw [read_bind, require_of hcmd, pure_bind']
    split
    · exact ⟨{ s with pIssuedLast := 0, pCatchupNextDecide := s.pIssuedSeq + 1 }, rfl, rfl⟩
    · exact ⟨s, rfl, rfl⟩
  obtain ⟨done, t, o', hup⟩ := execUp_total k s₁
  have hview := (execUp_pages (k := k) s₁).1
  rw [hup] at hview
  obtain ⟨hslot, hpg, hlnk⟩ : t.slot = s.slot ∧ t.page = s.page ∧ t.pMultiLnk = s.pMultiLnk := by
    rw [← hs₁]
    exact ⟨congrArg Prod.fst hview, congrArg (·.2.1) hview, congrArg (·.2.2) hview⟩
  rw [hrun₁, bind_of_ok hup]
  unfold Handler.when
  split
  swap
  · exact .inl ⟨hlnk, hpg⟩
  by_cases hc : t.pMulti.pSuccessCount < paxosMax
  · rw [updatePage_open hc]
    exact .inl ⟨hlnk, hpg⟩
  · obtain ⟨lnk, hl, hput⟩ := putPage_lnk e t
    rw [updatePage_run hc, Paxos.onReplica_toReplica, hput]
    refine .inr ⟨congrArg (· + 1) hpg, t.pMulti, hpg, hslot, ?_⟩
    rw [← hlnk]
    exact hl

/-- A slot that `NextDecide` has passed once one decision has gone on in order. -/
theorem InOrder.passed_decides {f : Slot → Slot} (h : InOrder n o p j) (hd : Decides k f p o' p')
    (hex : Executes (p.setSlot k f) j j' o') (hj' : j' ≤ paxosMax) {k' : K} (hk' : k'.val < j') :
    Passed n (o ++ o') (p.seq k') ((p.setSlot k f).slot k') := by
  rcases Nat.lt_or_ge k'.val j with hlt | hge
  · rcases h.passed hlt with hb | ⟨hm, hr⟩
    · exact .inl hb
    · have hne : k' ≠ k := by
        rintro rfl
        exact hd.open' hm
      rw [Replica.slot_setSlot_of_ne hne]
      exact .inr ⟨hm, hr.mono⟩
  · refine .inr ⟨hex.decided k' hge hk', (p.setSlot k f).decision k', ?_, rfl, rfl⟩
    rw [executed_append]
    exact List.mem_append_right _ (List.mem_of_getElem? (hex.get hj' hge hk'))

/-- The events so far and the state, with the pages that were left. -/
structure Kept (n : UInt32) (o : List Out) (p : Replica) (j : ℕ) : Prop
    extends InOrder n o p j where
  kept : KeptPages n o p.pMultiLnk

theorem Kept.calm (h : Kept n o p j) (hc : p.Calm p') (ho : ∀ x ∈ o', x.Plain)
    (hl : p'.pMultiLnk = p.pMultiLnk) : Kept n (o ++ o') p' j :=
  ⟨h.toInOrder.calm hc ho, hl ▸ h.kept.mono⟩

/-- One decision leaves all that is backed so, and is backed itself. -/
theorem Kept.decides {f : Slot → Slot} (h : Kept n o p j) (hd : Decides k f p o' p') :
    ∃ j', Kept n (o ++ o') p' j' ∧
      (∀ q c, Backs n o p j q c → Backs n (o ++ o') p' j' q c) ∧
      Backs n (o ++ o') p' j' (p.seq k) (f (p.slot k)).cMetaCmdRnd := by
  have hself : (p.setSlot k f).slot k = f (p.slot k) := Replica.slot_setSlot_self ..
  have hmode : ((p.setSlot k f).slot k).pMode = .decided := hself ▸ hd.mode
  -- a slot that is decided before is another one and stays
  have hkeep {k' : K} (hm : (p.slot k').pMode = .decided) :
      (p.setSlot k f).slot k' = p.slot k' := by
    refine Replica.slot_setSlot_of_ne ?_ ..
    rintro rfl
    exact hd.open' hm
  have hback {j' : ℕ} (hsame : ∀ k' : K, ((p.setSlot k f).slot k').pMode = .decided →
      Backs n (o ++ o') p' j' (p.seq k') ((p.setSlot k f).slot k').cMetaCmdRnd) :
      (∀ q c, Backs n o p j q c → Backs n (o ++ o') p' j' q c) ∧
        Backs n (o ++ o') p' j' (p.seq k) (f (p.slot k)).cMetaCmdRnd := by
    refine ⟨fun q c hb => ?_, hself ▸ hsame k hmode⟩
    rcases hb with hr | ⟨k', -, rfl, hm, rfl⟩ | hb
    · exact .inl hr.mono
    · have := hsame k' (by rw [hkeep hm, hm])
      rwa [hkeep hm] at this
    · exact .inr (.inr hb)
  have hpast {j' : ℕ} {k' : K} (hp : Passed n (o ++ o') (p.seq k') ((p.setSlot k f).slot k')) :
      Backs n (o ++ o') p' j' (p.seq k') ((p.setSlot k f).slot k').cMetaCmdRnd := by
    rcases hp with hb | ⟨-, hr⟩
    · exact .inr (.inr hb)
    · exact .inl hr
  obtain ⟨j', hex, -, ⟨hord, hpage, hslot⟩ | ⟨rfl, hord, -, -⟩⟩ := h.toInOrder.decides hd
  · have hseq (k' : K) : p'.seq k' = p.seq k' := by rw [Replica.seq, hpage]; rfl
    refine ⟨j', ⟨hord, ?_⟩, hback fun k' hm => ?_⟩
    · rcases hd.run.pages with ⟨hlnk, -⟩ | ⟨hnext, -⟩
      · rw [hlnk]
        exact h.kept.mono
      · have hsame : p.page + 1 = p.page := hnext.symm.trans hpage
        simp at hsame
    · rcases Nat.lt_or_ge k'.val j' with hlt | hge
      · exact hpast (h.toInOrder.passed_decides hd hex hord.le hlt)
      · exact .inr (.inl ⟨k', hge, (hseq k').symm, by rw [hslot, hm], by rw [hslot]⟩)
  · have hall (k' : K) := h.toInOrder.passed_decides hd hex le_rfl k'.isLt
    refine ⟨0, ⟨hord, fun mu hmu k' => ?_⟩, hback fun k' _ => hpast (hall k')⟩
    rcases hd.run.pages with ⟨hlnk, -⟩ | ⟨-, m, hpage, hslots, hl⟩
    · exact h.kept.mono mu (hlnk ▸ hmu) k'
    · rcases List.mem_cons.mp (hl.subset hmu) with rfl | hmu
      · rw [hpage, hslots]
        exact hall k'
      · exact h.kept.mono mu hmu k'

theorem Kept.row {f : Slot → Slot} {o₁ : List Out} (h : Kept n o p j) (ho₁ : ∀ x ∈ o₁, x.Plain)
    (hd : Decides k f p o' p') :
    ∃ j', Kept n (o ++ (o₁ ++ o')) p' j' ∧
      (∀ q c, Backs n o p j q c → Backs n (o ++ (o₁ ++ o')) p' j' q c) ∧
      Backs n (o ++ (o₁ ++ o')) p' j' (p.seq k) (f (p.slot k)).cMetaCmdRnd := by
  rw [← List.append_assoc]
  obtain ⟨j', hkept, hback, hnew⟩ := (h.calm (.refl p) ho₁ rfl).decides hd
  exact ⟨j', hkept, fun q c hb => hback q c (hb.calm (.refl p)), hnew⟩

/-! ### Steps -/

/-- Not an announcement of a decision. -/
def Out.Silent : Out → Prop
  | .send _ (.success _) => False
  | _ => True

theorem Out.Quiet.silent {x : Out} (h : x.Quiet) : x.Silent := by
  unfold Silent
  split
  · exact h.elim
  · trivial

theorem IsCast.silent {bTo : ℕ} {r : Round} {own : Bool} {x : Out}
    (h : IsCast p k bTo r own x) : x.Silent := by
  rcases h with ⟨_, m, rfl, -⟩ | ⟨-, rfl⟩ <;> trivial

theorem IsBeginCast.silent {own : Bool} {x : Out} (h : IsBeginCast p k own x) : x.Silent := by
  unfold IsBeginCast at h
  split at h
  · exact h.2.silent
  · obtain ⟨m, rfl, -⟩ := h
    trivial

theorem Execs.silent (h : Execs k p o p') (hm : (p.slot k).pMode = .decided) :
    ∀ x ∈ o, x.Silent := by
  refine (h.goes hm).forall_out fun hs x hx => ?_
  cases hs with
  | quiet h => rw [List.mem_singleton.mp hx]; exact h.silent
  | reject | execSlot | execGap => rw [List.mem_singleton.mp hx]; trivial
  | _ => cases hx

/-- A move keeps the pages and announces nothing, or it makes one decision and
announces only this. -/
theorem Move.keeps_or_tells {ρ : Paxos} {i : Input} {e : Env} (h : Move ρ i e p o p') :
    (p'.pMultiLnk = p.pMultiLnk ∧ ∀ x ∈ o, x.Silent) ∨
      ∃ k f o₁ o₂, o = o₁ ++ o₂ ∧ (∀ x ∈ o₁, x.Plain) ∧ Decides k f p o₂ p' ∧
        ∀ d m, .send d (.success m) ∈ o →
          toSeq m.sPage m.sK = p.seq k ∧ m.sMetaCmd = (f (p.slot k)).cMetaCmdRnd := by
  cases h with
  | quiet h => exact .inl ⟨rfl, by simpa using h.silent⟩
  | newRound hi hp hc hp' ho =>
      refine .inl ⟨by rw [hp']; rfl, fun x hx => ?_⟩
      obtain ⟨d, m, rfl, -⟩ := ho x hx
      trivial
  | win hi hp ha hr hq hown ho =>
      refine .inl ⟨rfl, fun x hx => ?_⟩
      obtain ⟨k, -, -, hx⟩ := ho x hx
      exact hx.silent
  | recast hi hp hpage hc hown ho => exact .inl ⟨rfl, fun x hx => (ho x hx).silent⟩
  | @decide _ fr m o₁ o₂ hi hr hpage hm hme hq hf hc ho he =>
      have hd : Decides m.aK Slot.win p o₂ p' := ⟨by rw [hm]; decide, rfl, hc, rfl, rfl, he⟩
      have hsilent := he.silent (by rw [Replica.slot_setSlot_self]; rfl)
      refine .inr ⟨m.aK, Slot.win, o₁, o₂, rfl, fun x hx => ?_, hd, fun d ms hx => ?_⟩
      · obtain ⟨j, ms, rfl, -⟩ := ho x hx
        trivial
      · rcases List.mem_append.mp hx with hx | hx
        · obtain ⟨j, ms', heq, hpg, hk, -, hcmd⟩ := ho _ hx
          cases heq
          exact ⟨by rw [hpg, hk]; rfl, hcmd⟩
        · exact (hsilent _ hx).elim
  | @learn _ fr k v c mark _ hi hp hm hc he =>
      have hsilent := he.silent (by rw [Replica.slot_setSlot_self]; rfl)
      exact .inr ⟨k, Slot.decide v c p.pMyId mark, [], _, rfl, by simp,
        ⟨hm, rfl, hc, rfl, rfl, he⟩, fun d m hx => (hsilent _ hx).elim⟩
  | store hi hp hs hr hpage hm hc ho =>
      refine .inl ⟨rfl, fun x hx => ?_⟩
      rcases List.mem_cons.mp hx with rfl | hx
      · trivial
      · obtain ⟨-, a, rfl, -⟩ := ho x hx
        trivial
  | release hs hm ho =>
      refine .inl ⟨rfl, fun x hx => ?_⟩
      obtain ⟨d, a, rfl, -⟩ := ho x hx
      trivial
  | request hi hp hcmd hN hmy hpage hk hm hc hown hq ho =>
      refine .inl ⟨by rw [hq]; rfl, fun x hx => ?_⟩
      rcases List.mem_cons.mp hx with rfl | hx
      · trivial
      · exact (ho x hx).silent
  | @sole _ k d own o₁ o₂ hi hN hm ha hc ho he =>
      have hsilent := he.silent (by rw [Replica.slot_setSlot_self]; rfl)
      refine .inr ⟨k, _, o₁ ++ [ownMark p k p.curRnd], o₂, by simp, fun x hx => ?_,
        ⟨by rw [hm]; decide, rfl, ?_, ?_, ?_, he⟩, fun d m hx => ?_⟩
      · rcases List.mem_append.mp hx with hx | hx
        · exact (ho x hx).plain
        · rw [List.mem_singleton.mp hx]
          trivial
      · unfold Slot.win Slot.cast Slot.vote
        split <;> exact hc
      · unfold Slot.win Slot.cast Slot.vote
        split <;> rfl
      · unfold Slot.win Slot.cast Slot.vote
        split <;> rfl
      · rcases List.mem_append.mp hx with hx | hx
        · exact (ho _ hx).silent.elim
        · rcases List.mem_cons.mp hx with hx | hx
          · cases hx
          · exact (hsilent _ hx).elim
  | soleFail hi hN hm hc ho =>
      refine .inl ⟨rfl, fun x hx => ?_⟩
      rcases ho x hx with hx | rfl
      · exact hx.silent
      · trivial
  | _ => exact .inl ⟨rfl, by simp [Out.Silent]⟩

/-- A row of moves from `ρ` with the events `o₀`, at `p` with `o` more. -/
structure Speaks (n : UInt32) (o₀ : List Out) (ρ : Replica) (j₀ : ℕ) (o : List Out) (p : Replica)
    (j : ℕ) : Prop where
  kept : Kept n (o₀ ++ o) p j
  back : ∀ q c, Backs n o₀ ρ j₀ q c → Backs n (o₀ ++ o) p j q c
  tells : ∀ d m, .send d (.success m) ∈ o →
    Backs n (o₀ ++ o) p j (toSeq m.sPage m.sK) m.sMetaCmd

theorem Speaks.move {ρ : Paxos} {i : Input} {e : Env} {o₀ : List Out} {r : Replica} {j₀ : ℕ}
    (h : Speaks n o₀ r j₀ o p j) (hm : Move ρ i e p o' p') :
    ∃ j', Speaks n o₀ r j₀ (o ++ o') p' j' := by
  have hsay {o'' : List Out} {p'' : Replica} {j'' : ℕ} (hkept : Kept n (o₀ ++ o ++ o'') p'' j'')
      (hback : ∀ q c, Backs n (o₀ ++ o) p j q c → Backs n (o₀ ++ o ++ o'') p'' j'' q c)
      (htell : ∀ d m, .send d (.success m) ∈ o'' →
        Backs n (o₀ ++ o ++ o'') p'' j'' (toSeq m.sPage m.sK) m.sMetaCmd) :
      Speaks n o₀ r j₀ (o ++ o'') p'' j'' := by
    rw [List.append_assoc] at hkept hback htell
    refine ⟨hkept, fun q c hb => hback q c (h.back q c hb), fun d m hx => ?_⟩
    rcases List.mem_append.mp hx with hx | hx
    · exact hback _ _ (h.tells d m hx)
    · exact htell d m hx
  rcases hm.keeps_or_tells with ⟨hlnk, hsilent⟩ | ⟨k, f, o₁, o₂, rfl, ho₁, hd, htell⟩
  · rcases hm.calm_or_decides with ⟨hc, ho⟩ | ⟨k, f, o₁, o₂, rfl, ho₁, hd⟩
    · exact ⟨j, hsay (h.kept.calm hc ho hlnk) (fun q c hb => hb.calm hc)
        fun d m hx => (hsilent _ hx).elim⟩
    · obtain ⟨j', hkept, hback, -⟩ := h.kept.row ho₁ hd
      exact ⟨j', hsay hkept hback fun d m hx => (hsilent _ hx).elim⟩
  · obtain ⟨j', hkept, hback, hnew⟩ := h.kept.row ho₁ hd
    refine ⟨j', hsay hkept hback fun d m hx => ?_⟩
    obtain ⟨hq, hc⟩ := htell d m hx
    rw [hq, hc]
    exact hnew

theorem Moves.speaks {ρ : Paxos} {i : Input} {e : Env} {o₀ : List Out}
    (h₀ : Kept n o₀ ρ.toReplica j) (h : Moves ρ i e ρ.toReplica o p) :
    ∃ j', Speaks n o₀ ρ.toReplica j o p j' := by
  refine h.invariant (I := fun o p => ∃ j', Speaks n o₀ ρ.toReplica j o p j') ⟨j, ?_⟩
    fun ⟨j', hs⟩ hm => hs.move hm
  exact ⟨by rwa [List.append_nil], fun q c hb => hb.calm (.refl _), fun d m hx => nomatch hx⟩

theorem Moves.commands {ρ : Paxos} {i : Input} {e : Env}
    (h : Moves ρ i e ρ.toReplica o p) (hs : ρ.toReplica.Settled fun _ _ => True) :
    p.Settled (fun _ _ => True) ∧ ∀ x ∈ o, x.Settled fun _ _ => True :=
  moves_settled (J := fun _ => True) (D := fun _ _ => True) (h.weaken fun hm => ⟨trivial, hm⟩)
    (fun fr m _ => by cases m <;> simp [Msg.Settled]) (fun _ _ _ _ => trivial) hs

/-- All that was told is backed. -/
structure Spoken (n : UInt32) (o : List Out) (p : Replica) (j : ℕ) : Prop
    extends Kept n o p j where
  settled : p.Settled fun _ _ => True
  told : ∀ x ∈ o, ∀ q c, x.told = some (q, c) → Backs n o p j q c

theorem Spoken.step {s : Paxos} {i : Input} {e : Env} (h : Spoken n o s.toReplica j)
    (hi : i.Unwrapped) {p : Replica} (hm : Moves s i e s.toReplica (handle i e s).out p) :
    ∃ j', Spoken n (o ++ (handle i e s).out) p j' := by
  obtain ⟨j', hs⟩ := hm.speaks h.toKept
  obtain ⟨hset, hout⟩ := hm.commands h.settled
  refine ⟨j', hs.kept, hset, fun x hx q c ht => ?_⟩
  rcases List.mem_append.mp hx with hx | hx
  · exact hs.back q c (h.told x hx q c ht)
  cases x with
  | execute q' d c' =>
      cases ht
      refine .inl ⟨⟨q, d, c⟩, ?_, rfl, rfl⟩
      rw [executed_append]
      exact List.mem_append_right _ (List.mem_filterMap.mpr ⟨_, hx, rfl⟩)
  | send d m =>
      cases m with
      | success m =>
          cases ht
          exact hs.tells d m hx
      | catchupRpl m =>
          have hne : ¬ m.cMetaCmd.IsEmpty := fun he => by simp [Out.told, he] at ht
          have hrpl : (Msg.catchupRpl m).Settled (Backs n o s.toReplica j) :=
            Out.RplFrom.settled (x := .send d (.catchupRpl m)) rfl (handle_rpls s i e _ hx)
              (hout _ hx) hi.carries (h.toInOrder.settled h.kept h.settled)
          have ht' : (m.cSeq, m.cMetaCmd) = (q, c) := by simpa [Out.told, hne] using ht
          cases ht'
          exact hs.back _ _ (hrpl hne)
      | _ => cases ht
  | _ => cases ht

/-- The numbers from `NextDecide` on are new until they come round. -/
theorem InOrder.fresh (h : InOrder n o p j)
    (hN : (executed o).length + paxosMax ≤ 2 ^ 32) {k : K} (hk : j ≤ k.val) :
    p.seq k ∉ (executed o).map (·.gSeq) := by
  have hseq : p.seq k = n + ((executed o).length + (k.val - j)).toUInt32 := by
    have : p.seq k = p.seq (j + (k.val - j)) := by rw [Nat.add_sub_cancel' hk]
    rw [this, Replica.seq_add, ← h.next, h.reached]
    simp only [Nat.toUInt32]
    rw [UInt32.ofNat_add, UInt32.add_assoc]
  have hk10 := k.isLt
  rw [h.seqs, hseq]
  intro hm
  obtain ⟨i, hi, he⟩ := List.mem_map.mp hm
  rw [List.mem_range] at hi
  have he := congrArg UInt32.toNat ((UInt32.add_right_inj _).mp he)
  simp only [Nat.toUInt32] at he
  rw [UInt32.toNat_ofNat_of_lt' (by simp only [UInt32.size]; omega),
    UInt32.toNat_ofNat_of_lt' (by simp only [UInt32.size]; omega)] at he
  omega

/-- Fewer than all numbers are executed once each. -/
theorem InOrder.nodup (h : InOrder n o p j)
    (hN : (executed o).length ≤ 2 ^ 32) : ((executed o).map (·.gSeq)).Nodup := by
  rw [h.seqs]
  refine List.Nodup.map_on (fun a ha b hb hab => ?_) List.nodup_range
  have ha : a < 2 ^ 32 := (List.mem_range.mp ha).trans_le hN
  have hb : b < 2 ^ 32 := (List.mem_range.mp hb).trans_le hN
  have hab := congrArg UInt32.toNat (UInt32.add_right_inj _ |>.mp hab)
  change (UInt32.ofNat a).toNat = (UInt32.ofNat b).toNat at hab
  rwa [UInt32.toNat_ofNat_of_lt' ha, UInt32.toNat_ofNat_of_lt' hb] at hab

/-- What is executed is not from before the start. -/
theorem InOrder.not_before (h : InOrder n o p j) (hN : (executed o).length + paxosMax ≤ 2 ^ 32)
    {g : Gap} (hg : g ∈ executed o) : ¬ Before n g.gSeq := by
  rintro ⟨m, hm, hlt, heq⟩
  have hlt : m < 10 := hlt
  have hseq : g.gSeq ∈ (executed o).map (·.gSeq) := List.mem_map_of_mem hg
  rw [h.seqs] at hseq
  obtain ⟨i, hi, hi'⟩ := List.mem_map.mp hseq
  rw [List.mem_range] at hi
  have hN : (executed o).length + 10 ≤ 2 ^ 32 := hN
  have hzero : (i + m).toUInt32 = 0 := by
    rw [← hi', UInt32.add_assoc] at heq
    simp only [Nat.toUInt32] at heq ⊢
    rw [UInt32.ofNat_add]
    exact (UInt32.add_right_inj n).mp (heq.trans (UInt32.add_zero n).symm)
  have hnat := congrArg UInt32.toNat hzero
  simp only [Nat.toUInt32] at hnat
  rw [UInt32.toNat_ofNat_of_lt' (by simp only [UInt32.size]; omega)] at hnat
  change i + m = 0 at hnat
  omega

end

theorem Config.server_inOrder (cfg : Config) (j : ℕ) :
    ∃ k, InOrder (cfg.server j).pNextDecide [] (cfg.server j).toReplica k := start_inOrder ..

theorem Config.server_lnk (cfg : Config) (j : ℕ) : (cfg.server j).pMultiLnk = [] := by
  unfold Config.server
  cases cfg.mode j <;> rfl

theorem Config.server_kept (cfg : Config) (j : ℕ) :
    ∃ k, Kept (cfg.server j).pNextDecide [] (cfg.server j).toReplica k := by
  obtain ⟨k, hord⟩ := cfg.server_inOrder j
  refine ⟨k, hord, ?_⟩
  rw [cfg.server_lnk]
  exact fun mu hmu => nomatch hmu

/-- In every life the invariant holds of some state, which is that of the
server unless it has stopped. -/
theorem Life.spoken {cfg : Config} {j : ℕ} {o : List Out} {s : Option Paxos}
    (h : Life (fun _ i _ => i.Unwrapped) (cfg.server j) o s) :
    ∃ p k, Spoken (cfg.server j).pNextDecide o p k ∧ ∀ t ∈ s, t.toReplica = p := by
  induction h with
  | start =>
      obtain ⟨k, hkept⟩ := cfg.server_kept j
      exact ⟨_, k, ⟨hkept, cfg.server_settled j, fun x hx => nomatch hx⟩, by simp⟩
  | @step o s i e h hok hv ih =>
      obtain ⟨p, k, hp, hs⟩ := ih
      rw [← hs s rfl] at hp
      obtain ⟨p', hm, hst⟩ := handle_moves s i e
      obtain ⟨k', hp'⟩ := hp.step hok hm
      refine ⟨p', k', hp', fun t ht => ?_⟩
      cases ht
      exact hst hv
  | @stop o s i e x h hok hv ih =>
      obtain ⟨p, k, hp, hs⟩ := ih
      rw [← hs s rfl] at hp
      obtain ⟨p', hm, -⟩ := handle_moves s i e
      obtain ⟨k', hp'⟩ := hp.step hok hm
      exact ⟨p', k', hp', by simp⟩

/-- In every life of a server in which no page is collected whose numbers wrap,
as long as the numbers do not come round: what it tells of a number, when it
executes it, announces its decision or answers a peer that catches up, is the
command that it executes for this number. -/
theorem one_voice {cfg : Config} {j : ℕ} {o : List Out} {s : Option Paxos}
    (h : Life (fun _ i _ => i.Unwrapped) (cfg.server j) o s)
    (hN : (executed o).length + paxosMax ≤ 2 ^ 32) {x : Out} (hx : x ∈ o) {q : UInt32}
    {c : MetaCmd} (ht : x.told = some (q, c)) {g : Gap} (hg : g ∈ executed o) (hq : g.gSeq = q) :
    g.gMetaCmd = c := by
  obtain ⟨p, k, hspoken, -⟩ := h.spoken
  rcases hspoken.told x hx q c ht with ⟨g', hg', hq', rfl⟩ | ⟨k', hk, hq', -⟩ | hb
  · have hnodup : ((executed o).map (·.gSeq)).Nodup := hspoken.toInOrder.nodup (by omega)
    rw [List.inj_on_of_nodup_map hnodup hg hg' (hq.trans hq'.symm)]
  · exact absurd (List.mem_map.mpr ⟨g, hg, hq.trans hq'⟩) (hspoken.toInOrder.fresh hN hk)
  · exact absurd (hq ▸ hb) (hspoken.toInOrder.not_before hN hg)

def Out.announced : Out → Option MsgSuccess
  | .send _ (.success m) => some m
  | _ => none

theorem trio_announces :
    ((trio.outs 0).filterMap Out.announced).map (fun m => toSeq m.sPage m.sK) = [0, 0] := by
  decide +kernel

/-- Server 0 announces its first command as it executes it. -/
theorem one_voice_trio : ∃ d m g, .send d (.success m) ∈ trio.outs 0 ∧ g ∈ executed (trio.outs 0) ∧
    g.gMetaCmd = m.sMetaCmd := by
  have hlife : Life (fun _ i _ => i.Unwrapped) (trioCell.server 0) (trio.outs 0)
      (if trio.up 0 then some (trio.srv 0) else none) :=
    (Reachable.init.meets trio_runs.1).lives (fun _ _ _ _ hC => hC) (by decide)
  have hzero : 0 ∈ ((trio.outs 0).filterMap Out.announced).map fun m => toSeq m.sPage m.sK :=
    trio_announces ▸ List.mem_cons_self
  obtain ⟨m, hm, h0⟩ := List.mem_map.mp hzero
  obtain ⟨x, hx, hxm⟩ := List.mem_filterMap.mp hm
  obtain ⟨d, rfl⟩ : ∃ d, x = .send d (.success m) := by
    cases x with
    | send d m' =>
        cases m' with
        | success m' =>
            cases hxm
            exact ⟨d, rfl⟩
        | _ => cases hxm
    | _ => cases hxm
  have hseq : 0 ∈ (executed (trio.outs 0)).map (·.gSeq) := trio_runs.2.1 ▸ List.mem_singleton_self 0
  obtain ⟨g, hg, hg0⟩ := List.mem_map.mp hseq
  have hN : (executed (trio.outs 0)).length + paxosMax ≤ 2 ^ 32 := by
    rw [← List.length_map (·.gSeq), trio_runs.2.1]
    decide
  exact ⟨d, m, g, hx, hg, one_voice hlife hN hx rfl hg (hg0.trans h0.symm)⟩

end PaxosSolutions
