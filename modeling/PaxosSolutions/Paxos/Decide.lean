import PaxosSolutions.Paxos.Order

/-!
# Moves that decide

A move either leaves the decided slots, `NextDecide` and the gaps alone, or it
decides one slot and executes from there.
-/
namespace PaxosSolutions
open NWGadget Lib Lib.Handler

/-- Neither executed nor reported as rejected. -/
def Out.Plain : Out → Prop
  | .execute _ _ _ => False
  | .notify _ code _ _ _ _ _ => code ≠ .rejected
  | _ => True

theorem executed_of_plain {o : List Out} (h : ∀ x ∈ o, x.Plain) : executed o = [] := by
  refine List.filterMap_eq_nil_iff.mpr fun x hx => ?_
  have := h x hx
  cases x <;> first | rfl | exact this.elim

theorem Out.Quiet.plain {x : Out} (h : x.Quiet) : x.Plain := by
  cases x <;> first | exact h | trivial

theorem IsCast.plain {p : Replica} {k : K} {bTo : ℕ} {r : Round} {own : Bool} {x : Out}
    (h : IsCast p k bTo r own x) : x.Plain := by
  rcases h with ⟨j, m, rfl, -⟩ | ⟨-, rfl⟩ <;> trivial

theorem IsBeginCast.plain {p : Replica} {k : K} {own : Bool} {x : Out}
    (h : IsBeginCast p k own x) : x.Plain := by
  unfold IsBeginCast at h
  split at h
  · exact h.2.plain
  · obtain ⟨m, rfl, -⟩ := h
    trivial

/-- A slot that nothing was proposed for. -/
def freeSlot (max : ℕ) : Slot := { pRndAccQuo := quorumInit max }

/-- A slot that is decided stays so with its value and command, no other one
becomes decided, a free one is left alone, and one in use keeps its initial
proposal. -/
structure Slot.Calm (s s' : Slot) : Prop where
  mode : s'.pMode = .decided ↔ s.pMode = .decided
  keep : s.pMode = .decided → s'.pRndValue = s.pRndValue ∧ s'.cMetaCmdRnd = s.cMetaCmdRnd
  free : s'.pMode = .none → s.pMode = .none ∧ (∀ n, s = freeSlot n → s' = s)
  init : s.pMode ≠ .none → s'.pInitValue = s.pInitValue ∧ s'.cMetaCmdInit = s.cMetaCmdInit

theorem Slot.Calm.refl (s : Slot) : s.Calm s :=
  ⟨Iff.rfl, fun _ => ⟨rfl, rfl⟩, fun h => ⟨h, fun _ _ => rfl⟩, fun _ => ⟨rfl, rfl⟩⟩

/-- A slot that is open before and in use after. -/
theorem Slot.Calm.of_open {s s' : Slot} (h : s.pMode ≠ .decided) (h' : s'.Open)
    (hi : s.pMode ≠ .none → s'.pInitValue = s.pInitValue ∧ s'.cMetaCmdInit = s.cMetaCmdInit) :
    s.Calm s' :=
  ⟨iff_of_false h'.2 h, fun hd => absurd hd h, fun hn => absurd hn h'.1, hi⟩

structure Replica.Calm (p p' : Replica) : Prop where
  me : p'.pMyId = p.pMyId
  max : p'.pMax = p.pMax
  next : p'.pNextDecide = p.pNextDecide
  gaps : p'.pGaps = p.pGaps
  page : p'.page = p.page
  count : p'.pMulti.pSuccessCount = p.pMulti.pSuccessCount
  slot : ∀ k, (p.slot k).Calm (p'.slot k)

theorem Replica.Calm.refl (p : Replica) : p.Calm p := ⟨rfl, rfl, rfl, rfl, rfl, rfl, fun _ => .refl _⟩

theorem Replica.Calm.setSlot {p : Replica} {k : K} {f : Slot → Slot}
    (h : (p.slot k).Calm (f (p.slot k))) : p.Calm (p.setSlot k f) := by
  refine ⟨rfl, rfl, rfl, rfl, rfl, rfl, fun k' => ?_⟩
  by_cases hk : k' = k
  · rw [hk, Replica.slot_setSlot_self]
    exact h
  · rw [Replica.slot_setSlot_of_ne hk]
    exact .refl _

/-- Slot `k` is decided by `f` and executed. -/
structure Decides (k : K) (f : Slot → Slot) (p : Replica) (o : List Out) (p' : Replica) : Prop where
  open' : (p.slot k).pMode ≠ .decided
  mode : (f (p.slot k)).pMode = .decided
  cmd : ¬ (f (p.slot k)).cMetaCmdRnd.IsEmpty
  init : (f (p.slot k)).pInitValue = (p.slot k).pInitValue
  initCmd : (f (p.slot k)).cMetaCmdInit = (p.slot k).cMetaCmdInit
  run : Execs k (p.setSlot k f) o p'

theorem Slot.newRound_calm (me : ℕ) (epoch : UInt32) (s : Slot) : s.Calm (s.newRound me epoch) := by
  unfold Slot.newRound
  split
  · next h => exact .of_open (by rw [h.1]; decide) ⟨nofun, nofun⟩ fun hn => absurd h.1 hn
  · exact .refl s

theorem Slot.adopt_calm (m : MsgPaxos) (s : Slot) : s.Calm (s.adopt m) := by
  unfold Slot.adopt
  split
  · next h => exact .of_open h.2.1 ⟨nofun, nofun⟩ fun _ => ⟨rfl, rfl⟩
  · exact .refl s

theorem Slot.cast_open (me : ℕ) (r : Round) (d : ℤ) (own : Bool) (s : Slot) :
    (s.cast me r d own).Open := ⟨nofun, nofun⟩

theorem Slot.cast_init (me : ℕ) (r : Round) (d : ℤ) (own : Bool) (s : Slot) :
    (s.cast me r d own).pInitValue = s.pInitValue ∧
      (s.cast me r d own).cMetaCmdInit = s.cMetaCmdInit := by
  unfold Slot.cast Slot.vote
  split <;> exact ⟨rfl, rfl⟩

theorem Multi.winCast_calm {me : ℕ} {d : ℤ} {own : Bool} {ks : List K} {m : Multi} (k : K) :
    (m.slots k).Calm ((m.winCast me d own ks).slots k) := by
  unfold Multi.winCast
  simp only []
  split_ifs with h₁ h₂
  · exact .of_open h₁.2 (Slot.cast_open ..) fun _ => Slot.cast_init ..
  · exact .of_open h₁.2 ⟨nofun, nofun⟩ fun _ => ⟨rfl, rfl⟩
  · exact .refl _

theorem Multi.win_calm {m : Multi} (k : K) : (m.slots k).Calm (m.win.slots k) := by
  unfold Multi.win
  simp only []
  split
  · next h => exact .of_open h.2 ⟨nofun, nofun⟩ fun _ => ⟨rfl, rfl⟩
  · exact .refl _

/-- What a move does to the decisions. -/
theorem Move.calm_or_decides {ρ : Paxos} {i : Input} {e : Env} {p p' : Replica} {o : List Out}
    (h : Move ρ i e p o p') :
    (p.Calm p' ∧ ∀ x ∈ o, x.Plain) ∨
      ∃ k f o₁ o₂, o = o₁ ++ o₂ ∧ (∀ x ∈ o₁, x.Plain) ∧ Decides k f p o₂ p' := by
  cases h with
  | quiet h => exact .inl ⟨.refl p, by simpa using h.plain⟩
  | tellOld | tellDecided => exact .inl ⟨.refl p, by simp [Out.Plain]⟩
  | newRound hi hp hc hp' ho =>
      refine .inl ⟨?_, fun x hx => ?_⟩
      · rw [hp']
        exact ⟨rfl, rfl, rfl, rfl, rfl, rfl, fun k => Slot.newRound_calm ..⟩
      · obtain ⟨j, m, rfl, -⟩ := ho x hx
        trivial
  | old | promise => exact .inl ⟨⟨rfl, rfl, rfl, rfl, rfl, rfl, fun _ => .refl _⟩, by simp⟩
  | tellLast => exact .inl ⟨.refl p, by simp [Out.Plain]⟩
  | @gather fr m hi hp ha hr =>
      refine .inl ⟨⟨rfl, rfl, rfl, rfl, rfl, rfl, fun k => ?_⟩, by simp⟩
      change (p.slot k).Calm (if m.lPage = p.pMulti.pPage then _ else _)
      split
      · exact Slot.adopt_calm ..
      · exact .refl _
  | win hi hp ha hr hq hown ho =>
      refine .inl ⟨⟨rfl, rfl, rfl, rfl, rfl, rfl, fun k => Multi.winCast_calm k⟩, fun x hx => ?_⟩
      obtain ⟨k, -, -, hx⟩ := ho x hx
      exact hx.plain
  | recast hi hp hpage hc hown ho =>
      refine .inl ⟨.setSlot ?_, fun x hx => (ho x hx).plain⟩
      split
      · refine ⟨Iff.rfl, fun _ => ⟨rfl, rfl⟩, fun hm => ⟨hm, fun n hn => ?_⟩, fun _ => ⟨rfl, rfl⟩⟩
        rw [hn] at hc
        exact absurd rfl hc
      · exact .refl _
  | takeCmd hi hp hr hpage hm | addAcc hi hr hpage hm =>
      exact .inl ⟨.setSlot (.of_open (by rw [hm]; decide) (by simp [Slot.Open, hm])
        fun _ => ⟨rfl, rfl⟩), by simp⟩
  | @decide _ fr m o₁ o₂ hi hr hpage hm hme hq hf hc ho he =>
      refine .inr ⟨m.aK, Slot.win, o₁, o₂, rfl, fun x hx => ?_, ?_⟩
      · obtain ⟨j, ms, rfl, -⟩ := ho x hx
        trivial
      · exact ⟨by rw [hm]; decide, rfl, hc, rfl, rfl, he⟩
  | @learn _ fr k v c mark _ hi hp hm hc he =>
      exact .inr ⟨k, Slot.decide v c p.pMyId mark, [], _, rfl, by simp, hm, rfl, hc, rfl, rfl, he⟩
  | @store fr m held o hi hp hs hr hpage hm hc ho =>
      refine .inl ⟨.setSlot (.of_open hm ?_ fun _ => ⟨rfl, rfl⟩), fun x hx => ?_⟩
      · unfold Slot.store Slot.Open
        simp only []
        split
        · decide
        · next h => exact ⟨h, hm⟩
      · rcases List.mem_cons.mp hx with rfl | hx
        · trivial
        · obtain ⟨-, a, rfl, -⟩ := ho x hx
          trivial
  | release hs hm ho =>
      refine .inl ⟨.setSlot ⟨Iff.rfl, fun _ => ⟨rfl, rfl⟩, fun hn => ⟨hn, fun n h => ?_⟩,
        fun _ => ⟨rfl, rfl⟩⟩, fun x hx => ?_⟩
      · rw [h] at hs
        cases hs
      · obtain ⟨j, a, rfl, -⟩ := ho x hx
        trivial
  | @request q _ _ k c epoch d own o hi hp hcmd hN hmy hpage hk hm hc hown hq ho =>
      refine .inl ⟨?_, fun x hx => ?_⟩
      · rw [hq, Replica.setSlot_setSlot]
        exact .setSlot (.of_open (by rw [hm]; decide) (Slot.cast_open ..)
          fun hn => absurd hm hn)
      · rcases List.mem_cons.mp hx with rfl | hx
        · trivial
        · exact (ho x hx).plain
  | requestFail | replyOk => exact .inl ⟨.refl p, by simp [Out.Plain]⟩
  | winSole hi hN ha =>
      exact .inl ⟨⟨rfl, rfl, rfl, rfl, rfl, rfl, fun k => Multi.win_calm k⟩, by simp⟩
  | requestSole hi hp hcmd hN hmy hpage hk hm hc =>
      exact .inl ⟨.setSlot (.of_open (by rw [hm]; decide) ⟨nofun, nofun⟩
        fun hn => absurd hm hn), by simp [Out.Plain]⟩
  | @sole _ k d own o₁ o₂ hi hN hm ha hc ho he =>
      refine .inr ⟨k, _, o₁ ++ [ownMark p k p.curRnd], o₂, by simp, fun x hx => ?_,
        by rw [hm]; decide, rfl, ?_, ?_, ?_, he⟩
      · rcases List.mem_append.mp hx with hx | hx
        · exact (ho x hx).plain
        · rw [List.mem_singleton.mp hx]
          trivial
      all_goals unfold Slot.win Slot.cast Slot.vote; split <;> first | rfl | exact hc
  | soleFail hi hN hm hc ho =>
      refine .inl ⟨.refl p, fun x hx => ?_⟩
      rcases ho x hx with hx | rfl
      · exact hx.plain
      · trivial

/-! ### The setup and free slots -/

/-- An execution leaves the slots or begins a new page. -/
theorem Execs.slots {k : K} {p p' : Replica} {o : List Out} (h : Execs k p o p')
    (hm : (p.slot k).pMode = .decided) :
    p'.page = p.page ∧ (∀ k', p'.slot k' = p.slot k') ∨ ∀ k', p'.slot k' = freeSlot p.pMax := by
  have hinv := (h.goes hm).invariant (I := fun _ q => q.pMax = p.pMax ∧
    (q.page = p.page ∧ (∀ k', q.slot k' = p.slot k') ∨ ∀ k', q.slot k' = freeSlot p.pMax))
    ⟨rfl, .inl ⟨rfl, fun _ => rfl⟩⟩ ?_
  · exact hinv.2
  rintro o q o' q' ⟨hmax, hq⟩ hmove
  refine ⟨hmove.frame.2.1.trans hmax, ?_⟩
  cases hmove with
  | turn h => exact .inr fun k' => congrArg freeSlot hmax
  | _ => exact hq

theorem Move.setup {ρ : Paxos} {i : Input} {e : Env} {p p' : Replica} {o : List Out}
    (h : Move ρ i e p o p') : p'.pMyId = p.pMyId ∧ p'.pMax = p.pMax := by
  rcases h.calm_or_decides with ⟨hc, -⟩ | ⟨k, f, o₁, o₂, -, -, hd⟩
  · exact ⟨hc.me, hc.max⟩
  · have hm : ((p.setSlot k f).slot k).pMode = .decided := by
      rw [Replica.slot_setSlot_self]
      exact hd.mode
    obtain ⟨h₁, h₂, -⟩ := hd.run.frame hm
    exact ⟨h₁, h₂⟩

/-- A free slot has nothing in it. -/
def FreeSlots (p : Replica) : Prop := ∀ k, (p.slot k).pMode = .none → p.slot k = freeSlot p.pMax

theorem Move.freeSlots {ρ : Paxos} {i : Input} {e : Env} {p p' : Replica} {o : List Out}
    (h : Move ρ i e p o p') (hf : FreeSlots p) : FreeSlots p' := by
  intro k hm
  rw [h.setup.2]
  rcases h.calm_or_decides with ⟨hc, -⟩ | ⟨k', f, o₁, o₂, -, -, hd⟩
  · obtain ⟨hm', hfree⟩ := (hc.slot k).free hm
    rw [hfree _ (hf k hm'), hf k hm']
  · have hmode : ((p.setSlot k' f).slot k').pMode = .decided := by
      rw [Replica.slot_setSlot_self]
      exact hd.mode
    rcases hd.run.slots hmode with ⟨-, hs⟩ | hs
    · rw [hs] at hm ⊢
      have hne : k ≠ k' := by
        rintro rfl
        rw [hmode] at hm
        cases hm
      rw [Replica.slot_setSlot_of_ne hne] at hm ⊢
      exact hf k hm
    · exact hs k

end PaxosSolutions
