import PaxosSolutions.Paxos.Handlers

/-!
# Casts as moves

`BeginCast` and what runs it: the reply that wins a round, and a request.
-/
namespace PaxosSolutions
open NWGadget Lib Lib.Handler

/-- The packet or mark for server `j`. -/
def castOut (s : Paxos) (k : K) (bTo : ℕ) (r : Round) (j : ℕ) : List Out :=
  if s.pMyId = bTo ∧ j = s.pMyId ∧ s.AcceptsOwn then [ownMark s.toReplica k r]
  else sendIf s j (.begin
    { bTo := bTo, bBackPage := s.pBackPage, bNextDecide := s.pNextDecide, bPage := s.page,
      bNextK := s.pMulti.pNextK, bK := k, bCurRnd := r,
      bValue := { (s.slot k).pRndValue with vFrom := s.pMyId },
      bMetaCmd := (s.slot k).cMetaCmdRnd })

def voteIf (c : Prop) [Decidable c] (k : K) (r : Round) (s : Paxos) : Paxos :=
  if c then s.onReplica (Replica.setSlot k (Slot.vote s.pMyId r)) else s

theorem sendBeginTo_run (k : K) (bTo : ℕ) (r : Round) (j : ℕ) (s : Paxos) :
    sendBeginTo k bTo r j s =
      ⟨.ok (), voteIf (s.pMyId = bTo ∧ j = s.pMyId ∧ s.AcceptsOwn) k r s,
        castOut s k bTo r j⟩ := by
  unfold sendBeginTo voteIf castOut
  rw [read_bind]
  split
  · rfl
  · exact paxosSend_run ..

theorem castOut_vote (s : Paxos) (k : K) (bTo : ℕ) (r : Round) :
    castOut (s.onReplica (Replica.setSlot k (Slot.vote s.pMyId r))) k bTo r =
      castOut s k bTo r := by
  funext j
  have hs : (s.onReplica (Replica.setSlot k (Slot.vote s.pMyId r))).slot k =
      (s.slot k).vote s.pMyId r := Replica.slot_setSlot_self ..
  unfold castOut ownMark
  simp only [hs]
  rfl

theorem vote_vote (s : Paxos) (k : K) (r : Round) :
    (s.onReplica (Replica.setSlot k (Slot.vote s.pMyId r))).onReplica
      (Replica.setSlot k (Slot.vote s.pMyId r)) =
      s.onReplica (Replica.setSlot k (Slot.vote s.pMyId r)) := by
  simp [Paxos.onReplica, Replica.setSlot, Replica.setMulti, Slot.vote, quorumAdd_of_mem]

theorem each_sendBeginTo (k : K) (bTo : ℕ) (r : Round) (js : List ℕ) (s : Paxos) :
    each (sendBeginTo k bTo r) js s =
      ⟨.ok (), voteIf (s.pMyId = bTo ∧ s.pMyId ∈ js ∧ s.AcceptsOwn) k r s,
        js.flatMap (castOut s k bTo r)⟩ := by
  induction js generalizing s with
  | nil => simp [each, voteIf]
  | cons j js ih =>
      change (sendBeginTo k bTo r j >>= fun _ => each (sendBeginTo k bTo r) js) s = _
      rw [bind_of_ok (sendBeginTo_run k bTo r j s), ih]
      by_cases hv : s.pMyId = bTo ∧ j = s.pMyId ∧ s.AcceptsOwn
      · have hsv : voteIf (s.pMyId = bTo ∧ j = s.pMyId ∧ s.AcceptsOwn) k r s =
            s.onReplica (Replica.setSlot k (Slot.vote s.pMyId r)) := if_pos hv
        have hacc : s.pMyId = bTo ∧ s.pMyId ∈ j :: js ∧ s.AcceptsOwn := by
          simp [hv.1, hv.2.2, hv.2.1]
        have hst : voteIf (s.pMyId = bTo ∧ s.pMyId ∈ j :: js ∧ s.AcceptsOwn) k r s =
            s.onReplica (Replica.setSlot k (Slot.vote s.pMyId r)) := if_pos hacc
        have hvv (c : Prop) [Decidable c] :
            voteIf c k r (s.onReplica (Replica.setSlot k (Slot.vote s.pMyId r))) =
              s.onReplica (Replica.setSlot k (Slot.vote s.pMyId r)) := by
          unfold voteIf
          split
          · exact vote_vote s k r
          · rfl
        simp only [hsv, hst, hvv, castOut_vote, List.flatMap_cons]
      · have hsv : voteIf (s.pMyId = bTo ∧ j = s.pMyId ∧ s.AcceptsOwn) k r s = s := if_neg hv
        have hiff : (s.pMyId = bTo ∧ s.pMyId ∈ j :: js ∧ s.AcceptsOwn) ↔
            (s.pMyId = bTo ∧ s.pMyId ∈ js ∧ s.AcceptsOwn) := by
          simp only [List.mem_cons]
          tauto
        rw [hsv, List.flatMap_cons]
        simp only [voteIf, hiff]

theorem mem_castOut {s : Paxos} {k : K} {bTo : ℕ} {r : Round} {x : Out}
    (hx : x ∈ (List.range s.pMax).flatMap (castOut s k bTo r)) :
    IsCast s.toReplica k bTo r (decide (s.pMyId = bTo ∧ s.AcceptsOwn ∧ s.pMyId < s.pMax)) x := by
  obtain ⟨j, hj, hx⟩ := List.mem_flatMap.mp hx
  have hlt := List.mem_range.mp hj
  unfold castOut at hx
  split_ifs at hx with h₁
  · rw [List.mem_singleton.mp hx]
    exact .inr ⟨decide_eq_true ⟨h₁.1, h₁.2.2, h₁.2.1 ▸ hlt⟩, rfl⟩
  · rw [mem_sendIf hx]
    exact .inl ⟨j, _, rfl, hlt, rfl, rfl, rfl, rfl, rfl, rfl⟩

theorem ownMark_mem {s : Paxos} {k : K} {r : Round} (h₁ : s.AcceptsOwn) (h₂ : s.pMyId < s.pMax) :
    ownMark s.toReplica k r ∈ (List.range s.pMax).flatMap (castOut s k s.pMyId r) :=
  List.mem_flatMap.mpr ⟨_, List.mem_range.mpr h₂, by simp [castOut, h₁]⟩

/-- Own acceptance is not held back. -/
abbrev ownAccept (s : Paxos) : Bool := decide (s.AcceptsOwn ∧ s.pMyId < s.pMax)

/-- `BeginCast` of a slot, when it returns. -/
abbrev castAt (k : K) (e : Env) (s : Paxos) : Paxos :=
  s.onReplica (Replica.setSlot k fun x =>
    x.cast s.pMyId s.curRnd (addUsec e.now s.dtSuccess)
      (ownAccept s ∧ x.pRndValue.vFrom = s.pMyId))

/-- What the sending part of `BeginCast` puts out. -/
def castOuts (s : Paxos) (k : K) : List Out :=
  if (s.slot k).pRndValue.vFrom ≠ s.pMyId then
    sendIf s (s.slot k).pRndValue.vFrom (.beginRedirect
      { bTo := s.pMyId, bPage := s.page, bK := k, bCurRnd := s.curRnd,
        bValue := (s.slot k).pRndValue })
  else (List.range s.pMax).flatMap (castOut s k s.pMyId s.curRnd)

/-- Slot `k` can be cast: the command is here or with another server. -/
def CanCast (s : Replica) (k : K) : Prop :=
  (s.slot k).pRndValue.vFrom = s.pMyId → ¬ (s.slot k).cMetaCmdRnd.IsEmpty

instance (s : Replica) (k : K) : Decidable (CanCast s k) := inferInstanceAs (Decidable (_ → _))

theorem mem_castOuts {s : Paxos} {k : K} {x : Out} (hc : CanCast s.toReplica k)
    (hx : x ∈ castOuts s k) : IsBeginCast s.toReplica k (ownAccept s) x := by
  unfold castOuts at hx
  unfold IsBeginCast
  by_cases hf : (s.slot k).pRndValue.vFrom = s.pMyId
  · rw [if_neg (not_not.mpr hf)] at hx
    rw [if_pos hf]
    refine ⟨hc hf, ?_⟩
    simpa using mem_castOut hx
  · rw [if_pos hf] at hx
    rw [if_neg hf]
    exact ⟨_, mem_sendIf hx, rfl, rfl, rfl, rfl, rfl⟩

theorem ownMark_mem_castOuts {s : Paxos} {k : K} (hf : (s.slot k).pRndValue.vFrom = s.pMyId)
    (ho : ownAccept s = true) : ownMark s.toReplica k s.curRnd ∈ castOuts s k := by
  unfold castOuts
  rw [if_neg (not_not.mpr hf)]
  obtain ⟨h₁, h₂⟩ := of_decide_eq_true ho
  exact ownMark_mem h₁ h₂

theorem sendBeginCast_run {k : K} {bTo : ℕ} {r : Round} {s : Paxos}
    (hc : ¬ (s.slot k).cMetaCmdRnd.IsEmpty) :
    sendBeginCast k bTo r s =
      ⟨.ok (), voteIf (s.pMyId = bTo ∧ ownAccept s = true) k r s,
        (List.range s.pMax).flatMap (castOut s k bTo r)⟩ := by
  unfold sendBeginCast
  rw [read_bind, require_of hc, pure_bind', each_sendBeginTo]
  have hiff : (s.pMyId = bTo ∧ s.pMyId ∈ List.range s.pMax ∧ s.AcceptsOwn) ↔
      (s.pMyId = bTo ∧ ownAccept s = true) := by
    simp only [List.mem_range, decide_eq_true_eq]
    tauto
  simp only [voteIf, hiff]

theorem sendBeginCast_error {k : K} {bTo : ℕ} {r : Round} {s : Paxos}
    (hc : (s.slot k).cMetaCmdRnd.IsEmpty) :
    sendBeginCast k bTo r s = ⟨.error .castCommand, s, []⟩ := by
  unfold sendBeginCast
  rw [read_bind, require_of_not (not_not.mpr hc), fail_bind]

theorem castOrRedirect_run {k : K} {s : Paxos} (hc : CanCast s.toReplica k) :
    castOrRedirect k s =
      ⟨.ok (), voteIf ((s.slot k).pRndValue.vFrom = s.pMyId ∧ ownAccept s = true) k s.curRnd s,
        castOuts s k⟩ := by
  unfold castOrRedirect castOuts
  rw [read_bind]
  by_cases hf : (s.slot k).pRndValue.vFrom = s.pMyId
  · rw [if_neg (not_not.mpr hf), if_neg (not_not.mpr hf), sendBeginCast_run (hc hf)]
    simp only [voteIf, hf, true_and]
  · rw [if_pos hf, if_pos hf, paxosSend_run]
    simp only [voteIf, hf, false_and, if_false]

theorem castOrRedirect_error {k : K} {s : Paxos} (hc : ¬ CanCast s.toReplica k) :
    castOrRedirect k s = ⟨.error .castCommand, s, []⟩ := by
  obtain ⟨hf, he⟩ := Classical.not_imp.mp hc
  unfold castOrRedirect
  rw [read_bind, if_neg (not_not.mpr hf), sendBeginCast_error (not_not.mp he)]

theorem castAt_eq (k : K) (e : Env) (s : Paxos) :
    (voteIf ((s.slot k).pRndValue.vFrom = s.pMyId ∧ ownAccept s = true) k s.curRnd s).onReplica
      (Replica.setSlot k fun x =>
        { x with pMode := .gatherAccept, pDeadline := addUsec e.now s.dtSuccess }) =
      castAt k e s := by
  unfold voteIf castAt
  by_cases h : (s.slot k).pRndValue.vFrom = s.pMyId ∧ ownAccept s = true
  · rw [if_pos h]
    refine congrArg (fun r => { s with toReplica := r }) ?_
    refine (Replica.setSlot_setSlot ..).trans (Replica.setSlot_congr ?_)
    have hd : decide (ownAccept s = true ∧ (s.slot k).pRndValue.vFrom = s.pMyId) = true :=
      decide_eq_true h.symm
    change _ = (s.slot k).cast _ _ _ (decide _)
    rw [hd]
    rfl
  · rw [if_neg h]
    refine congrArg (fun r => { s with toReplica := r }) (Replica.setSlot_congr ?_)
    have hd : decide (ownAccept s = true ∧ (s.slot k).pRndValue.vFrom = s.pMyId) = false :=
      decide_eq_false fun h' => h h'.symm
    change _ = (s.slot k).cast _ _ _ (decide _)
    rw [hd]
    rfl

/-- `BeginCast` with more than one core server. -/
theorem beginCast_run {k : K} {e : Env} {s : Paxos} (hN : s.pMax ≠ 1)
    (hm : (s.slot k).pMode = .beginCast) (hc : CanCast s.toReplica k) :
    beginCast k e s = ⟨.ok (), castAt k e s, castOuts s k⟩ := by
  unfold beginCast
  rw [read_bind, if_neg (not_not.mpr hm), bind_of_ok (castOrRedirect_run hc)]
  unfold modSlot modReplica Handler.when
  rw [modify_bind, if_neg hN, castAt_eq]
  simp

theorem beginCast_error {k : K} {e : Env} {s : Paxos} (hm : (s.slot k).pMode = .beginCast)
    (hc : ¬ CanCast s.toReplica k) : beginCast k e s = ⟨.error .castCommand, s, []⟩ := by
  unfold beginCast
  rw [read_bind, if_neg (not_not.mpr hm), bind_of_error (castOrRedirect_error hc)]

theorem beginCast_idle {k : K} {e : Env} {s : Paxos} (hm : (s.slot k).pMode ≠ .beginCast) :
    beginCast k e s = ⟨.ok (), s, []⟩ := by
  unfold beginCast
  rw [read_bind, if_pos hm]
  rfl

/-- What a cast puts out depends on the value and the command of its slot. -/
theorem IsBeginCast.congr {p q : Replica} {k : K} {own : Bool} {x : Out}
    (h : IsBeginCast p k own x) (hv : (q.slot k).pRndValue = (p.slot k).pRndValue)
    (hc : (q.slot k).cMetaCmdRnd = (p.slot k).cMetaCmdRnd)
    (hq : q.pMyId = p.pMyId ∧ q.pMax = p.pMax ∧ q.page = p.page ∧ q.curRnd = p.curRnd) :
    IsBeginCast q k own x := by
  obtain ⟨h₁, h₂, h₃, h₄⟩ := hq
  simp only [IsBeginCast, IsCast, IsBegin, IsRedirect, ownMark, hv, hc, h₁, h₂, h₃, h₄] at h ⊢
  exact h

/-- The casts of the slots in `ks`. -/
def Multi.castSome (me : ℕ) (d : ℤ) (own : Bool) (ks : List K) (m : Multi) : Multi :=
  { m with
    slots := fun k =>
      if (m.slots k).pMode = .beginCast ∧ k ∈ ks then
        (m.slots k).cast me m.lCurRnd d (own ∧ (m.slots k).pRndValue.vFrom = me)
      else m.slots k }

theorem castSome_nil (me : ℕ) (d : ℤ) (own : Bool) (m : Multi) : m.castSome me d own [] = m := by
  simp [Multi.castSome]

theorem castSome_idle {me : ℕ} {d : ℤ} {own : Bool} {k : K} {ks : List K} {m : Multi}
    (h : (m.slots k).pMode ≠ .beginCast) :
    m.castSome me d own (k :: ks) = m.castSome me d own ks := by
  unfold Multi.castSome
  congr 1
  funext k'
  by_cases hk : k' = k
  · subst hk
    rw [if_neg fun h' => h h'.1, if_neg fun h' => h h'.1]
  · simp only [List.mem_cons, hk, false_or]

theorem castSome_cons {k : K} {ks : List K} {e : Env} {s : Paxos}
    (h : (s.slot k).pMode = .beginCast) :
    (castAt k e s).pMulti.castSome s.pMyId (addUsec e.now s.dtSuccess) (ownAccept s) ks =
      s.pMulti.castSome s.pMyId (addUsec e.now s.dtSuccess) (ownAccept s) (k :: ks) := by
  unfold Multi.castSome
  have hm : (s.pMulti.slots k).pMode = .beginCast := h
  have hslot (k' : K) : (castAt k e s).pMulti.slots k' =
      if k' = k then (s.slot k).cast s.pMyId s.curRnd (addUsec e.now s.dtSuccess)
        (ownAccept s ∧ (s.slot k).pRndValue.vFrom = s.pMyId) else s.slot k' :=
    Replica.slot_setSlot ..
  have hslots : (fun k' => if ((castAt k e s).pMulti.slots k').pMode = .beginCast ∧ k' ∈ ks then
      ((castAt k e s).pMulti.slots k').cast s.pMyId (castAt k e s).pMulti.lCurRnd
        (addUsec e.now s.dtSuccess)
        (ownAccept s ∧ ((castAt k e s).pMulti.slots k').pRndValue.vFrom = s.pMyId)
      else (castAt k e s).pMulti.slots k') =
      fun k' => if (s.pMulti.slots k').pMode = .beginCast ∧ k' ∈ k :: ks then
        (s.pMulti.slots k').cast s.pMyId s.pMulti.lCurRnd (addUsec e.now s.dtSuccess)
          (ownAccept s ∧ (s.pMulti.slots k').pRndValue.vFrom = s.pMyId)
      else s.pMulti.slots k' := by
    funext k'
    simp only [hslot]
    by_cases hk : k' = k
    · subst hk
      have hmem : (s.pMulti.slots k').pMode = .beginCast ∧ k' ∈ k' :: ks := ⟨hm, by simp⟩
      rw [if_pos rfl, if_neg fun h' => nomatch h'.1]
      exact (if_pos hmem).symm
    · simp only [hk, if_false, List.mem_cons, false_or]
      rfl
  rw [hslots]
  rfl

/-- The loop over the casts, as far as it comes. -/
theorem each_beginCast {e : Env} (ks : List K) (s : Paxos) (hN : s.pMax ≠ 1) :
    ∃ ks' o,
      (∀ x ∈ o, ∃ k ∈ ks', (s.slot k).pMode = .beginCast ∧
        IsBeginCast s.toReplica k (ownAccept s) x) ∧
      (∀ k ∈ ks', (s.slot k).pMode = .beginCast → (s.slot k).pRndValue.vFrom = s.pMyId →
        ownAccept s = true → ownMark s.toReplica k s.curRnd ∈ o) ∧
      ((each (fun k => beginCast k e) ks s =
          ⟨.ok (), s.onReplica (Replica.setMulti (Multi.castSome s.pMyId
            (addUsec e.now s.dtSuccess) (ownAccept s) ks)), o⟩ ∧ ks' = ks) ∨
        ∃ t, each (fun k => beginCast k e) ks s = ⟨.error .castCommand, t, o⟩) := by
  induction ks generalizing s with
  | nil =>
      refine ⟨[], [], by simp, by simp, .inl ⟨?_, rfl⟩⟩
      simp only [Paxos.onReplica, Replica.setMulti, castSome_nil]
      rfl
  | cons k ks ih =>
      change ∃ ks' o, _ ∧ _ ∧
        (((beginCast k e >>= fun _ => each (fun k => beginCast k e) ks) s = _ ∧ _) ∨
          ∃ t, (beginCast k e >>= fun _ => each (fun k => beginCast k e) ks) s = _)
      by_cases hm : (s.slot k).pMode = .beginCast
      · by_cases hc : CanCast s.toReplica k
        · obtain ⟨ks', o, ho, ho', hrun⟩ := ih (castAt k e s) hN
          have hne {k'} (hk' : ((castAt k e s).slot k').pMode = .beginCast) : k' ≠ k := by
            rintro rfl
            simp [Slot.cast] at hk'
          have hslot {k'} (hk : k' ≠ k) : (castAt k e s).slot k' = s.slot k' :=
            Replica.slot_setSlot_of_ne hk ..
          rw [bind_of_ok (beginCast_run hN hm hc)]
          refine ⟨k :: ks', castOuts s k ++ o, fun x hx => ?_, fun k' hk' hm' hf hown => ?_, ?_⟩
          · rcases List.mem_append.mp hx with hx | hx
            · exact ⟨k, by simp, hm, mem_castOuts hc hx⟩
            · obtain ⟨k', hk', hm', hx⟩ := ho x hx
              have hs := hslot (hne hm')
              rw [hs] at hm'
              exact ⟨k', by simp [hk'], hm', hx.congr (by rw [hs]) (by rw [hs]) ⟨rfl, rfl, rfl, rfl⟩⟩
          · rw [List.mem_append]
            by_cases hk : k' = k
            · subst hk
              exact .inl (ownMark_mem_castOuts hf hown)
            · have hs := hslot hk
              have := ho' k' (by simpa [hk] using hk') (by rwa [hs]) (by rwa [hs]) hown
              unfold ownMark at this
              rw [hs] at this
              exact .inr this
          · rcases hrun with ⟨hr, rfl⟩ | ⟨t, hr⟩
            · refine .inl ⟨?_, rfl⟩
              rw [hr]
              refine congrArg (Outcome.mk _ · _) (congrArg (fun r => { s with toReplica := r }) ?_)
              exact congrArg (fun m => { s.toReplica with pMulti := m }) (castSome_cons hm)
            · exact .inr ⟨t, by rw [hr]⟩
        · exact ⟨[], [], by simp, by simp, .inr ⟨s, bind_of_error (beginCast_error hm hc)⟩⟩
      · obtain ⟨ks', o, ho, ho', hrun⟩ := ih s hN
        rw [bind_of_ok (beginCast_idle hm)]
        refine ⟨k :: ks', o, fun x hx => ?_, fun k' hk' hm' => ?_, ?_⟩
        · obtain ⟨k', hk', h⟩ := ho x hx
          exact ⟨k', by simp [hk'], h⟩
        · rcases List.mem_cons.mp hk' with rfl | hk'
          · exact absurd hm' hm
          · exact ho' k' hk' hm'
        · rcases hrun with ⟨hr, rfl⟩ | ⟨t, hr⟩
          · refine .inl ⟨?_, rfl⟩
            rw [hr]
            simp only [List.nil_append, Paxos.onReplica, Replica.setMulti]
            rw [castSome_idle hm]
          · exact .inr ⟨t, by rw [hr]; rfl⟩

/-! ### The replies to a collection -/

theorem catchupFire_total (e : Env) : Total (catchupFire e) :=
  Total.read fun _ => Total.ite (Total.modify _) (Total.bind (Total.modify _) fun _ =>
    Total.read fun _ => Total.when (Total.emit _))

theorem catchupRequest_total (j : ℕ) (nd : UInt32) (e : Env) : Total (catchupRequest j nd e) := by
  refine Total.read fun p => Total.ite (Total.pure _) (Total.ite (Total.pure _) (Total.ite ?_ ?_))
  · refine Total.ite ?_ (Total.ite ?_ (Total.pure _))
    · exact Total.bind (Total.modify _) fun _ => catchupFire_total e
    · exact Total.bind (Total.modify _) fun _ => Total.when (catchupFire_total e)
  · exact Total.bind (Total.modify _) fun _ => catchupFire_total e

theorem Stills.run {α : Type} {x : PaxosM α} (h : Stills x) (ht : Total x) (s : Paxos) :
    ∃ a t o, x s = ⟨.ok a, t, o⟩ ∧ Still s o t := by
  obtain ⟨a, t, o, hx⟩ := ht s
  have := ((h s trivial).1 a (by rw [hx])).1
  rw [hx] at this
  exact ⟨a, t, o, hx, this⟩

/-- The slots of `ks` after the adoptions. -/
def Multi.adoptSome (m : MsgLast) (ks : List K) (mu : Multi) : Multi :=
  { mu with
    slots := fun k => if k ∈ ks then (mu.slots k).adopt (m.lPaxos k) else mu.slots k }

theorem adoptSome_cons {m : MsgLast} {k : K} {ks : List K} (hk : k ∉ ks) (r : Replica) :
    (r.setSlot k (Slot.adopt (m.lPaxos k))).setMulti (Multi.adoptSome m ks) =
      r.setMulti (Multi.adoptSome m (k :: ks)) := by
  unfold Replica.setSlot Replica.setMulti Multi.adoptSome
  congr 2
  funext k'
  by_cases h : k' = k
  · subst h
    simp [hk]
  · simp [h]

theorem each_gatherSlot {f : ℕ} {m : MsgLast} {e : Env} (ks : List K) (hks : ks.Nodup)
    (s : Paxos) :
    ∃ t o, each (gatherSlot f m e) ks s = ⟨.ok (), t, o⟩ ∧ (t.AcceptsOwn ↔ s.AcceptsOwn) ∧
      (∀ x ∈ o, x.Quiet) ∧ t.toReplica = s.toReplica.setMulti (Multi.adoptSome m ks) := by
  induction ks generalizing s with
  | nil => exact ⟨s, [], rfl, Iff.rfl, by simp, by simp [Replica.setMulti, Multi.adoptSome]⟩
  | cons k ks ih =>
      obtain ⟨hk, hks⟩ := List.nodup_cons.mp hks
      obtain ⟨_, t₁, o₁, h₁, hr₁, ha₁, hq₁⟩ := (Stills.when catchupRequest_still).run
        (Total.when (catchupRequest_total f m.lNextDecide e)) s (x := when
          ((m.lPaxos k).mMode = .decided ∧ (s.slot k).pMode ≠ .decided) _)
      have hslot : gatherSlot f m e k s =
          ⟨.ok (), t₁.onReplica (Replica.setSlot k (Slot.adopt (m.lPaxos k))), o₁⟩ := by
        unfold gatherSlot
        rw [read_bind, bind_of_ok h₁]
        simp [modSlot, modReplica]
      obtain ⟨t, o, hrun, ha, hq, hr⟩ :=
        ih hks (t₁.onReplica (Replica.setSlot k (Slot.adopt (m.lPaxos k))))
      refine ⟨t, o₁ ++ o, ?_, ha.trans ha₁, fun x hx => ?_, ?_⟩
      · change (gatherSlot f m e k >>= fun _ => each (gatherSlot f m e) ks) s = _
        rw [bind_of_ok hslot, hrun]
      · rcases List.mem_append.mp hx with hx | hx
        · exact hq₁ x hx
        · exact hq x hx
      · rw [hr, Paxos.onReplica_toReplica, adoptSome_cons hk, hr₁]

/-- The first part of `GatherLast`. -/
theorem gather_run {f : ℕ} {m : MsgLast} {e : Env} (s : Paxos) :
    ∃ t o, (do
      modMulti fun mu => { mu with lRndInfQuo := quorumAdd mu.lRndInfQuo f }
      when (cmp32 m.lPage s.page = 0) (each (gatherSlot f m e) allK)) s = ⟨.ok (), t, o⟩ ∧
      (t.AcceptsOwn ↔ s.AcceptsOwn) ∧ (∀ x ∈ o, x.Quiet) ∧
      t.toReplica = s.toReplica.setMulti (Multi.gather f m) := by
  let s₁ := s.onReplica (Replica.setMulti fun mu =>
    { mu with lRndInfQuo := quorumAdd mu.lRndInfQuo f })
  have hrun (x : PaxosM Unit) : (do
      modMulti fun mu => { mu with lRndInfQuo := quorumAdd mu.lRndInfQuo f }
      x) s = x s₁ := rfl
  rw [hrun]
  by_cases hp : m.lPage = s.page
  · have hc : cmp32 m.lPage s.page = 0 := cmp32_eq_zero_iff.mpr hp
    obtain ⟨t, o, h, ha, hq, hr⟩ :=
      each_gatherSlot (f := f) (m := m) (e := e) allK (List.nodup_finRange _) s₁
    refine ⟨t, o, ?_, ha, hq, hr.trans ?_⟩
    · unfold Handler.when
      rw [if_pos hc, h]
    · have hp' : m.lPage = s.pMulti.pPage := hp
      simp [s₁, Paxos.onReplica, Replica.setMulti, Multi.adoptSome, Multi.gather, hp']
  · have hc : ¬ cmp32 m.lPage s.page = 0 := fun h => hp (cmp32_eq_zero_iff.mp h)
    refine ⟨s₁, [], ?_, Iff.rfl, by simp, ?_⟩
    · unfold Handler.when
      rw [if_neg hc]
      rfl
    · have hp' : ¬ m.lPage = s.pMulti.pPage := hp
      simp [s₁, Paxos.onReplica, Replica.setMulti, Multi.gather, hp']

end PaxosSolutions
