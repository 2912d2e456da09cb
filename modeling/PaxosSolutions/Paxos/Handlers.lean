import PaxosSolutions.Paxos.ExecMove

/-!
# Handlers as rows of moves

The handlers are followed once, from the state `ρ` in which a step begins:
here the catch-up, the decisions, the accepts that were held back and the
start of a round.
-/
namespace PaxosSolutions
open NWGadget Lib Lib.Handler

/-- The moves between the protocol parts. -/
def Goes (ρ : Paxos) (i : Input) (e : Env) (s : Paxos) (o : List Out) (t : Paxos) : Prop :=
  Moves ρ i e s.toReplica o t.toReplica

section Goes
variable {ρ : Paxos} {i : Input} {e : Env} {α : Type}

theorem goes_compositional : Compositional (Goes ρ i e) := ⟨fun _ => .refl _, Runs.trans⟩

theorem moves_quiet {p : Replica} {o : List Out} (h : ∀ x ∈ o, x.Quiet) : Moves ρ i e p o p := by
  induction o with
  | nil => exact .refl p
  | cons x xs ih =>
      exact (Runs.single (.quiet (h x (by simp)))).trans (ih fun y hy => h y (by simp [hy]))

theorem Still.goes {s t : Paxos} {o : List Out} (h : Still s o t) : Goes ρ i e s o t := by
  unfold Goes
  rw [h.1]
  exact moves_quiet h.2.2

/-- A handler that stands still keeps what is known of the protocol part and
of what holds back acceptance. -/
theorem Stills.goes {x : PaxosM α} (h : Stills x) (P : Replica → Prop → Prop) :
    Does (Goes ρ i e) (fun s => P s.toReplica s.AcceptsOwn) x
      fun _ s => P s.toReplica s.AcceptsOwn := by
  intro s hs
  obtain ⟨h₁, h₂⟩ := h s trivial
  refine ⟨fun a ha => ⟨(h₁ a ha).1.goes, ?_⟩, fun e he => ?_⟩
  · obtain ⟨hr, hacc, -⟩ := (h₁ a ha).1
    rw [hr, propext hacc]
    exact hs
  · obtain ⟨t, ht⟩ := h₂ e he
    exact ⟨t, ht.goes⟩

theorem Stills.at {x : PaxosM α} (h : Stills x) (r : Replica) :
    Does (Goes ρ i e) (At r) x fun _ => At r :=
  h.goes fun r' _ => r' = r

theorem Stills.any {x : PaxosM α} (h : Stills x) :
    Does (Goes ρ i e) (fun _ => True) x fun _ _ => True :=
  h.goes fun _ _ => True

end Goes

/-! ### Catch-up -/

/-- The packet for a peer that is active. -/
def sendIf (s : Paxos) (j : ℕ) (m : Msg) : List Out :=
  if (s.pServer j).sActive then [.send j m] else []

theorem mem_sendIf {s : Paxos} {j : ℕ} {m : Msg} {x : Out} (h : x ∈ sendIf s j m) :
    x = .send j m := by
  unfold sendIf at h
  split at h
  · exact List.mem_singleton.mp h
  · simp at h

theorem paxosSend_run (j : ℕ) (m : Msg) (s : Paxos) :
    paxosSend j m s = ⟨.ok (), s, sendIf s j m⟩ := by
  unfold paxosSend Handler.when sendIf
  rw [read_bind]
  split <;> rfl

theorem getPage_some {p : Replica} {page : UInt32} {mu : Multi} (h : getPage p page = some mu) :
    (mu = p.pMulti ∨ mu ∈ p.pMultiLnk) ∧ mu.pPage = page := by
  unfold getPage at h
  split at h
  · next hp =>
      cases h
      exact ⟨.inl rfl, hp.symm⟩
  · exact ⟨.inr (List.mem_of_find?_eq_some h), by simpa using List.find?_some h⟩

section Goes
variable {ρ : Paxos} {i : Input} {e : Env}

/-- One sent packet is one move. -/
theorem paxosSend_goes {r : Replica} {j : ℕ} {m : Msg} (h : Move ρ i e r [.send j m] r) :
    Does (Goes ρ i e) (At r) (paxosSend j m) fun _ => At r := by
  refine Does.read fun s hs => Does.when goes_compositional (fun _ => Does.emit ?_) ?_
  · rintro t rfl
    unfold Goes
    rw [hs]
    exact ⟨.single h, hs⟩
  · rintro - t rfl
    exact hs

/-- One change of the protocol part is one move. -/
theorem modReplica_goes {r : Replica} {f : Replica → Replica} (h : Move ρ i e r [] (f r)) :
    Does (Goes ρ i e) (At r) (modReplica f) fun _ => At (f r) := by
  refine Does.modify fun s hs => ?_
  unfold Goes At
  rw [Paxos.onReplica_toReplica, hs]
  exact ⟨.single h, rfl⟩

theorem catchupInstanceRpl_goes {r : Replica} {j : ℕ} {mu : Multi} {seq : UInt32}
    (hmu : mu = r.pMulti ∨ mu ∈ r.pMultiLnk)
    (hseq : mu.pPage = toPage seq ∨ ∃ k : K, seq = toSeq mu.pPage k) :
    Does (Goes ρ i e) (At r) (catchupInstanceRpl j (some mu) seq) fun _ => At r := by
  refine Does.read fun s hs => ?_
  refine Does.ite (fun _ => ?_) fun hm => Does.ite (fun _ => ?_) fun hc => ?_
  · exact Does.pure goes_compositional fun t ht => ht ▸ hs
  · exact Does.pure goes_compositional fun t ht => ht ▸ hs
  · refine Does.bind goes_compositional (Does.weaken (paxosSend_goes ?_) fun t ht => ht ▸ hs)
      fun _ => Does.pure goes_compositional fun _ h => h
    exact .tellDecided ⟨rfl, mu, hmu, hseq, not_not.mp hm, hc, rfl, rfl⟩

theorem catchupInstanceRpl_none_still {j : ℕ} {seq : UInt32} :
    Stills (catchupInstanceRpl j none seq) :=
  Stills.read fun _ => Stills.bind (paxosSend_still ⟨rfl, rfl⟩) fun _ => Stills.pure _

theorem catchupReqLoop_goes {r : Replica} {fr : ℕ} {seqTo : UInt32} (n : ℕ) (seq : UInt32)
    (found : Bool) :
    Does (Goes ρ i e) (At r) (catchupReqLoop fr seqTo n seq found) fun _ => At r := by
  induction n generalizing seq found with
  | zero => exact Does.pure goes_compositional fun _ h => h
  | succ n ih =>
      refine Does.read fun s hs => ?_
      have hrpl : Does (Goes ρ i e) (At r)
          (catchupInstanceRpl fr (getPage s.toReplica (toPage seq)) seq) fun _ => At r := by
        cases hg : getPage s.toReplica (toPage seq) with
        | none => exact catchupInstanceRpl_none_still.at r
        | some mu =>
            obtain ⟨hmu, hp⟩ := getPage_some hg
            exact catchupInstanceRpl_goes (by rwa [← hs]) (.inl hp)
      refine Does.bind goes_compositional (hrpl.weaken fun t ht => ht ▸ hs) fun ret => ?_
      have hnone : Stills (do let _ ← catchupInstanceRpl fr none seq) :=
        Stills.bind catchupInstanceRpl_none_still fun _ => Stills.pure _
      refine Does.bind goes_compositional
        (Does.when goes_compositional (fun _ => hnone.at r) fun _ _ h => h) fun _ => ?_
      exact Does.ite (fun _ => ih _ _) fun _ => Does.pure goes_compositional fun _ h => h

theorem recvCatchupReq_goes {fr : ℕ} {m : MsgCatchupReq} :
    Does (Goes ρ i e) (At ρ.toReplica) (recvCatchupReq fr m e) fun _ => At ρ.toReplica := by
  refine Does.bind goes_compositional (catchupReqLoop_goes _ _ _) fun found => ?_
  refine Does.when goes_compositional (fun _ => Does.modify fun s hs => ?_) fun _ _ h => h
  exact ⟨Runs.refl _, hs⟩

/-! ### Decisions -/

theorem execGaps_total (n : ℕ) : Total (execGaps n) := by
  induction n with
  | zero => exact Total.pure ()
  | succ n ih =>
      refine Total.read fun p => ?_
      split
      · exact Total.pure ()
      · refine Total.bind ?_ fun _ => Total.bind (Total.modify _) fun _ => ih
        exact Total.read fun _ => Total.bind (Total.emit _) fun _ =>
          Total.ite (Total.emit _) (Total.emit _)

theorem execUp_total (k : K) : Total (execUp k) := by
  refine Total.bind (Total.modify _) fun _ => Total.read fun p => ?_
  refine Total.ite (Total.pure _) (Total.bind (Total.when (Total.emit _)) fun _ => ?_)
  refine Total.bind (Total.ite ?_ (Total.modify _)) fun _ =>
    Total.bind (Total.modify _) fun _ => Total.pure _
  refine Total.read fun _ => Total.bind (Total.modify _) fun _ =>
    Total.bind ?_ fun _ => execGaps_total _
  exact Total.read fun _ => Total.bind (Total.emit _) fun _ =>
    Total.ite (Total.emit _) (Total.emit _)

/-- `Exec` returns whenever the slot has its command. -/
theorem exec_ok {k : K} {s : Paxos} (h : ¬ (s.slot k).cMetaCmdRnd.IsEmpty) (e : Env) :
    ∃ o t, exec k e s = ⟨.ok (), t, o⟩ ∧ Execs k s.toReplica o t.toReplica := by
  have ht : ∃ a t o, exec k e s = ⟨.ok a, t, o⟩ := by
    unfold exec
    rw [read_bind, require_of h, pure_bind']
    refine Total.bind (Total.when (Total.modify _)) (fun _ => ?_) s
    refine Total.bind (execUp_total k) fun done => Total.when (Total.read fun _ => ?_)
    exact Total.ite (Total.pure _) (Total.bind (Total.modify _) fun _ => Total.modify _)
  obtain ⟨a, t, o, hx⟩ := ht
  exact ⟨o, t, hx, s, e, rfl, by rw [hx], by rw [hx], by rw [hx]⟩

theorem exec_error {k : K} {s : Paxos} (h : (s.slot k).cMetaCmdRnd.IsEmpty) (e : Env) :
    exec k e s = ⟨.error .execCommand, s, []⟩ := by
  unfold exec
  rw [read_bind, require_of_not (not_not.mpr h), fail_bind]

/-- A slot that is set to decided and executed in one move. -/
theorem decide_goes {r : Replica} {k : K} {f : Slot → Slot}
    (h : ¬ (f (r.slot k)).cMetaCmdRnd.IsEmpty → ∀ o p', Execs k (r.setSlot k f) o p' →
      Move ρ i e r o p') :
    Does (Goes ρ i e) (At r) (do modSlot k f; exec k e) fun _ _ => True := by
  rintro s rfl
  have hb : (do modSlot k f; exec k e : PaxosM Unit) s =
      exec k e (s.onReplica (Replica.setSlot k f)) := rfl
  have hs : (s.onReplica (Replica.setSlot k f)).slot k = f (s.slot k) := by
    rw [Paxos.onReplica_toReplica, Replica.slot_setSlot_self]
  rw [hb]
  by_cases hc : (f (s.slot k)).cMetaCmdRnd.IsEmpty
  · rw [exec_error (by rwa [hs])]
    exact ⟨fun a ha => (by cases ha), fun e' _ => ⟨s, Runs.refl _⟩⟩
  · obtain ⟨o, t, hx, he⟩ := exec_ok (k := k) (s := s.onReplica (Replica.setSlot k f))
      (by rwa [hs]) e
    rw [hx]
    exact ⟨fun a _ => ⟨.single (h hc o _ he), trivial⟩, fun e' he' => (by cases he')⟩

theorem learnCatchupRpl_goes {fr : ℕ} {m : MsgCatchupRpl} (hi : i = .recv fr (.catchupRpl m)) :
    Does (Goes ρ i e) (At ρ.toReplica) (learnCatchupRpl m e) fun _ _ => True := by
  refine Does.read fun s hs => Does.ite (fun hc => ?_) fun _ =>
    Does.pure goes_compositional fun _ _ => trivial
  refine Does.bind goes_compositional
    ((paxosValidate_still.at ρ.toReplica).weaken fun t ht => ht ▸ hs) fun refused => ?_
  refine Does.ite (fun _ => Does.pure goes_compositional fun _ _ => trivial) fun _ => ?_
  rw [← bind_assoc]
  refine Does.bind goes_compositional (decide_goes fun hc' o p' he => ?_) fun _ =>
    Does.pure goes_compositional fun _ _ => trivial
  obtain ⟨hpage, hm⟩ := hc
  rw [hs] at hpage hm
  refine .learn (.inr ⟨m, hi, hpage, rfl, rfl, rfl, rfl⟩) rfl hm hc' ?_
  rwa [hs] at he

theorem takeCatchupRpl_goes {fr : ℕ} {m : MsgCatchupRpl} (hi : i = .recv fr (.catchupRpl m)) :
    Does (Goes ρ i e) (At ρ.toReplica) (takeCatchupRpl m e) fun _ _ => True := by
  refine Does.bind goes_compositional (learnCatchupRpl_goes hi) fun refused => ?_
  refine Stills.any (Stills.ite (Stills.pure _) (Stills.read fun p => ?_))
  exact Stills.ite catchupFinish_still (Stills.when catchupFire_still)

theorem recvCatchupRpl_goes {fr : ℕ} {m : MsgCatchupRpl} (hi : i = .recv fr (.catchupRpl m)) :
    Does (Goes ρ i e) (At ρ.toReplica) (recvCatchupRpl fr m e) fun _ _ => True := by
  refine Does.read fun s hs => ?_
  have htake : Does (Goes ρ i e) (· = s) (takeCatchupRpl m e) fun _ _ => True :=
    (takeCatchupRpl_goes hi).weaken fun t ht => ht ▸ hs
  refine Does.ite (fun _ => htake) fun _ => Does.ite (fun _ => ?_) fun _ =>
    Does.ite (fun _ => ?_) fun _ => htake
  · exact Does.pure goes_compositional fun _ _ => trivial
  · exact (Stills.any (Stills.bind (Stills.emit (by simp [Out.Quiet])) fun _ =>
      Stills.fail)).weaken fun _ _ => trivial

/-! ### Accepts that were held back -/

theorem releaseSlot_goes (k : K) :
    Does (Goes ρ i e) (fun _ => True) (do
      let p ← read
      let s := p.slot k
      when (s.pMode ≠ .decided ∧ s.pSuppressed) do
        modSlot k fun s => { s with pSuppressed := false }
        paxosSend s.pRndBallot.rId (.accept
          { aPage := p.page, aK := k, aRound := s.pRndBallot, aValue := s.pRndValue,
            aMetaCmd := s.cMetaCmdRnd })) fun _ _ => True := by
  refine Does.read fun s _ => Does.when goes_compositional (fun hc => ?_) fun _ _ _ => trivial
  refine Does.of_run fun t ht => ?_
  subst ht
  refine ⟨(), _, _, paxosSend_run .., ?_, trivial⟩
  refine .single (.release hc.2 hc.1 fun x hx => ?_)
  exact ⟨_, _, (mem_sendIf hx), rfl, rfl, rfl, rfl, rfl⟩

theorem releaseSuppressedAccept_goes :
    Does (Goes ρ i e) (fun _ => True) releaseSuppressedAccept fun _ _ => True :=
  Does.bind goes_compositional (Does.modify fun _ _ => ⟨Runs.refl _, trivial⟩) fun _ =>
    Does.each goes_compositional fun k _ => releaseSlot_goes k

/-! ### The leader -/

/-- A row of packets that do not depend on each other. -/
theorem each_send (f : ℕ → Msg) (js : List ℕ) (s : Paxos) :
    each (fun j => paxosSend j (f j)) js s =
      ⟨.ok (), s, (js.filter fun j => (s.pServer j).sActive).map fun j => .send j (f j)⟩ := by
  induction js with
  | nil => rfl
  | cons j js ih =>
      change (paxosSend j (f j) >>= fun _ => each (fun j => paxosSend j (f j)) js) s = _
      rw [bind_of_ok (paxosSend_run j (f j) s), ih]
      unfold sendIf
      split <;> simp [*]

theorem mem_others {p : Replica} {n j : ℕ} : j ∈ others p n ↔ j < n ∧ j ≠ p.pMyId := by
  simp [others]

theorem restartRound_goes (hi : StartsRound ρ i e) :
    Does (Goes ρ i e) (At ρ.toReplica) (restartRound e) fun _ _ => True := by
  intro s hs
  let p := s.onReplica (Replica.setMulti fun m => { m with lMode := .none })
  have hrun : restartRound e s = newRound e p := rfl
  by_cases hc : ∀ k, (p.slot k).pMode = .none → (p.slot k).pInitValue.IsDefined →
      ¬ (p.slot k).cMetaCmdInit.IsEmpty
  · let q : Paxos := { p.onReplica
        (Replica.setMulti (Multi.newRound p.pMyId p.pMax p.pElection.eEpoch)) with
      pNewRoundLast := e.time + p.dtNewRound }
    have hn : newRound e p =
        each (fun j => paxosSend j (.collect (msgCollect q))) (others q.toReplica q.pMax) q := by
      unfold newRound
      rw [read_bind, if_neg (by simp [p, Replica.aMode, Paxos.onReplica, Replica.setMulti]),
        require_of hc]
      rfl
    rw [hrun, hn, each_send]
    refine ⟨fun a _ => ⟨?_, trivial⟩, fun e' he' => (by cases he')⟩
    refine .single (.newRound (n := p.pElection.eEpoch) hi hs hc rfl fun x hx => ?_)
    obtain ⟨j, hj, rfl⟩ := List.mem_map.mp hx
    obtain ⟨hlt, hne⟩ := mem_others.mp (List.mem_of_mem_filter hj)
    exact ⟨j, _, rfl, hne, hlt, rfl, rfl, rfl⟩
  · have hn : newRound e p = ⟨.error .initCommand, p, []⟩ := by
      unfold newRound
      rw [read_bind, if_neg (by simp [p, Replica.aMode, Paxos.onReplica, Replica.setMulti]),
        require_of_not hc, fail_bind]
    rw [hrun, hn]
    exact ⟨fun a ha => (by cases ha), fun e' _ => ⟨s, Runs.refl _⟩⟩

end Goes

end PaxosSolutions
