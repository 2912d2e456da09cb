import PaxosSolutions.Lib.Frame
import PaxosSolutions.Paxos.Dispatch

/-!
# Where replies of a catch-up come from

Only a request of a catch-up and a collection are answered with decisions, and
the decision in such a reply is the one in the slot that its number points at.
-/
namespace PaxosSolutions
open NWGadget Lib Lib.Handler

/-- The reply of a catch-up that is sent. -/
def Out.rpl : Out → Option MsgCatchupRpl
  | .send _ (.catchupRpl m) => some m
  | _ => none

/-- No reply with a command. -/
def Out.NoRpl (o : Out) : Prop := ∀ m, o.rpl = some m → m.cMetaCmd.IsEmpty

abbrev NoRpls {α : Type} (x : PaxosM α) : Prop := Frames (fun _ => ()) Out.NoRpl x

section
variable {e : Env} {k : K} {j : ℕ}

theorem noRpl_of {o : Out} (h : o.rpl = none) : o.NoRpl := fun m hm => by cases h.symm.trans hm

theorem Out.Quiet.noRpl {o : Out} (h : o.Quiet) : o.NoRpl := by
  intro m hm
  unfold Out.rpl at hm
  split at hm
  · next d r =>
      cases hm
      exact h.2
  · cases hm

theorem Stills.noRpls {α : Type} {x : PaxosM α} (h : Stills x) : NoRpls x := by
  intro s
  refine ⟨rfl, fun o ho => ?_⟩
  obtain ⟨h₁, h₂⟩ := h s trivial
  cases hv : (x s).val with
  | ok a => exact ((h₁ a hv).1.2.2 o ho).noRpl
  | error er =>
      obtain ⟨t, ht⟩ := h₂ er hv
      exact (ht.2.2 o ho).noRpl

theorem noRpls_modify {g : Paxos → Paxos} : NoRpls (Handler.modify g) := Frames.modify fun _ => rfl

theorem noRpls_require {c : Prop} [Decidable c] {er : Fault} :
    NoRpls (require c er : PaxosM Unit) := Frames.ite (Frames.pure _) (Frames.fail er)

theorem noRpls_emit {o : Out} (h : o.rpl = none) : NoRpls (emit o : PaxosM Unit) :=
  Frames.emit (noRpl_of h)

theorem noRpls_send {m : Msg} (h : (Out.send j m).rpl = none) : NoRpls (paxosSend j m) :=
  Frames.read fun _ => Frames.when (noRpls_emit h)

/-! ### Executions -/

theorem execute_noRpls {seq : UInt32} {d : Value} {c : MetaCmd} : NoRpls (execute seq d c) :=
  Frames.read fun _ => Frames.bind (noRpls_emit rfl) fun _ =>
    Frames.ite (noRpls_emit rfl) (noRpls_emit rfl)

theorem execGaps_noRpls (n : ℕ) : NoRpls (execGaps n) := by
  induction n with
  | zero => exact Frames.pure _
  | succ n ih =>
      refine Frames.read fun p => ?_
      cases p.pGaps.getItem p.pNextDecide with
      | none => exact Frames.pure _
      | some x => exact Frames.bind execute_noRpls fun _ => Frames.bind noRpls_modify fun _ => ih

theorem execUp_noRpls : NoRpls (execUp k) := by
  refine Frames.bind noRpls_modify fun _ => Frames.read fun p => ?_
  refine Frames.ite (Frames.pure _) (Frames.bind (Frames.when (noRpls_emit rfl)) fun _ => ?_)
  refine Frames.bind (Frames.ite ?_ noRpls_modify) fun _ =>
    Frames.bind noRpls_modify fun _ => Frames.pure _
  exact Frames.read fun _ => Frames.bind noRpls_modify fun _ =>
    Frames.bind execute_noRpls fun _ => execGaps_noRpls _

theorem exec_noRpls : NoRpls (exec k e) := by
  refine Frames.read fun p => Frames.bind noRpls_require fun _ => ?_
  refine Frames.bind (Frames.when noRpls_modify) fun _ => Frames.bind execUp_noRpls fun _ => ?_
  refine Frames.when (Frames.read fun _ => Frames.ite (Frames.pure _) ?_)
  exact Frames.bind noRpls_modify fun _ => noRpls_modify

/-! ### The leader -/

theorem restartRound_noRpls : NoRpls (restartRound e) := by
  refine Frames.bind noRpls_modify fun _ => Frames.read fun _ => Frames.ite (Frames.pure _) ?_
  refine Frames.bind noRpls_require fun _ => Frames.bind noRpls_modify fun _ => ?_
  refine Frames.bind noRpls_modify fun _ => Frames.read fun _ => ?_
  exact Frames.each fun _ => noRpls_send rfl

theorem sendBeginCast_noRpls {bTo : ℕ} {r : Round} : NoRpls (sendBeginCast k bTo r) := by
  refine Frames.read fun _ => Frames.bind noRpls_require fun _ => Frames.each fun j => ?_
  refine Frames.read fun _ => Frames.ite ?_ (noRpls_send rfl)
  exact Frames.bind noRpls_modify fun _ => noRpls_emit rfl

theorem beginCast_noRpls : NoRpls (beginCast k e) := by
  refine Frames.read fun _ => Frames.ite (Frames.pure _) ?_
  refine Frames.bind (Frames.read fun _ => Frames.ite (noRpls_send rfl) sendBeginCast_noRpls)
    fun _ => Frames.bind noRpls_modify fun _ => ?_
  exact Frames.when (Frames.bind (noRpls_emit rfl) fun _ =>
    Frames.bind noRpls_modify fun _ => exec_noRpls)

theorem gatherLast_noRpls {fr : ℕ} {m : MsgLast} : NoRpls (gatherLast fr m e) := by
  refine Frames.read fun _ => Frames.ite (Frames.pure _) (Frames.ite (Frames.pure _) ?_)
  refine Frames.bind noRpls_modify fun _ => Frames.bind (Frames.when (Frames.each fun k => ?_))
    fun _ => Frames.read fun _ => Frames.when ?_
  · exact Frames.read fun _ => Frames.bind (Frames.when catchupRequest_still.noRpls) fun _ =>
      noRpls_modify
  · exact Frames.bind noRpls_modify fun _ => Frames.bind noRpls_modify fun _ =>
      Frames.each fun _ => beginCast_noRpls

theorem beginCastRedirect_noRpls {m : MsgBegin} : NoRpls (beginCastRedirect m e) :=
  Frames.read fun _ => Frames.bind noRpls_require fun _ =>
    Frames.bind paxosValidate_still.noRpls fun _ => Frames.bind noRpls_require fun _ =>
      sendBeginCast_noRpls

theorem countAccept_noRpls {fr : ℕ} : NoRpls (countAccept fr k e) := by
  refine Frames.bind noRpls_modify fun _ => Frames.read fun _ => Frames.when ?_
  refine Frames.bind noRpls_modify fun _ => Frames.bind noRpls_require fun _ => ?_
  refine Frames.bind (Frames.read fun _ => Frames.ite (Frames.pure _) ?_) fun _ =>
    Frames.bind noRpls_modify fun _ => exec_noRpls
  exact Frames.bind noRpls_require fun _ => Frames.each fun _ => noRpls_send rfl

theorem gatherAccept_noRpls {fr : ℕ} {m : MsgAccept} : NoRpls (gatherAccept fr m e) := by
  refine Frames.read fun _ => Frames.ite (Frames.pure _) (Frames.ite ?_ countAccept_noRpls)
  refine Frames.bind paxosValidate_still.noRpls fun _ => Frames.ite (Frames.pure _) ?_
  exact Frames.bind noRpls_modify fun _ => countAccept_noRpls

/-! ### The agent -/

theorem recvBegin_noRpls {fr : ℕ} {m : MsgBegin} : NoRpls (recvBegin fr m e) := by
  refine Frames.read fun _ => Frames.ite (Frames.pure _) (Frames.ite ?_ (noRpls_send rfl))
  refine Frames.ite (Frames.when catchupRequest_still.noRpls)
    (Frames.ite (Frames.pure _) (Frames.ite (Frames.pure _) ?_))
  refine Frames.bind noRpls_require fun _ => Frames.bind paxosValidate_still.noRpls fun _ => ?_
  refine Frames.ite (noRpls_send rfl) ?_
  refine Frames.bind noRpls_modify fun _ => Frames.bind (noRpls_emit rfl) fun _ => ?_
  exact Frames.read fun _ => Frames.ite noRpls_modify (noRpls_send rfl)

theorem recvSuccess_noRpls {fr : ℕ} {m : MsgSuccess} : NoRpls (recvSuccess fr m e) := by
  refine Frames.read fun _ => Frames.bind noRpls_require fun _ => ?_
  refine Frames.ite (Frames.when catchupRequest_still.noRpls)
    (Frames.ite (Frames.pure _) (Frames.ite (Frames.pure _) ?_))
  refine Frames.bind (Frames.ite (Frames.pure _) paxosValidate_still.noRpls) fun _ => ?_
  exact Frames.ite (Frames.pure _) (Frames.bind noRpls_modify fun _ => exec_noRpls)

theorem releaseSuppressedAccept_noRpls : NoRpls releaseSuppressedAccept :=
  Frames.bind noRpls_modify fun _ => Frames.each fun _ => Frames.read fun _ =>
    Frames.when (Frames.bind noRpls_modify fun _ => noRpls_send rfl)

theorem recvCatchupRpl_noRpls {fr : ℕ} {m : MsgCatchupRpl} : NoRpls (recvCatchupRpl fr m e) := by
  have htake : NoRpls (takeCatchupRpl m e) := by
    refine Frames.bind (Frames.read fun _ => Frames.ite ?_ (Frames.pure _)) fun _ => ?_
    · refine Frames.bind paxosValidate_still.noRpls fun _ => Frames.ite (Frames.pure _) ?_
      exact Frames.bind noRpls_modify fun _ => Frames.bind exec_noRpls fun _ => Frames.pure _
    · refine Frames.ite (Frames.pure _) (Frames.read fun _ => ?_)
      exact Frames.ite catchupFinish_still.noRpls (Frames.when catchupFire_still.noRpls)
  refine Frames.read fun _ => Frames.ite htake (Frames.ite (Frames.pure _) (Frames.ite ?_ htake))
  exact Frames.bind (noRpls_emit rfl) fun _ => Frames.fail _

/-! ### The other inputs -/

theorem paxosRequest_noRpls {cmd : List UInt8} {validate : Bool} :
    NoRpls (paxosRequest cmd validate e) := by
  refine Frames.read fun _ => Frames.ite (noRpls_emit rfl) (Frames.ite ?_ (noRpls_emit rfl))
  refine Frames.bind (Frames.read fun p => ?_) fun a => ?_
  · refine Frames.ite (Frames.ite ?_ (Frames.pure _)) (Frames.ite ?_ (Frames.pure _))
    · split
      · exact Frames.pure _
      · exact Frames.pure _
    · exact Frames.bind (Frames.when restartRound_noRpls) fun _ => Frames.pure _
  · cases a with
    | rejected => exact noRpls_emit rfl
    | wait => exact Frames.pure _
    | slot k =>
        dsimp only
        split
        · refine Frames.read fun _ => Frames.bind (Frames.ite paxosValidate_still.noRpls
            (Frames.pure _)) fun _ => Frames.ite (noRpls_emit rfl) ?_
          refine Frames.bind ?_ fun _ => Frames.bind ?_ fun _ => Frames.ite ?_ (noRpls_emit rfl)
          · exact Frames.read fun _ => Frames.bind noRpls_modify fun _ => noRpls_emit rfl
          · exact Frames.read fun _ => Frames.ite (Frames.pure _) (Frames.bind noRpls_require
              fun _ => Frames.bind noRpls_modify fun _ => Frames.pure _)
          · exact Frames.bind beginCast_noRpls fun _ => noRpls_emit rfl
        · exact noRpls_emit rfl

theorem paxosDetector_noRpls : NoRpls (paxosDetector e) := by
  refine Frames.bind (Frames.read fun _ => ?_) fun _ => Frames.read fun _ => ?_
  · exact Frames.ite (Frames.pure _) (Frames.ite (Frames.when restartRound_noRpls)
      (Frames.when restartRound_noRpls))
  · exact Frames.bind (Frames.when noRpls_modify) fun _ => Frames.read fun _ =>
      Frames.when releaseSuppressedAccept_noRpls

theorem recvAlive_noRpls {fr : ℕ} {m : MsgAlive} : NoRpls (recvAlive fr m e) := by
  refine Frames.read fun _ => Frames.ite (Frames.pure _) ?_
  refine Frames.bind noRpls_modify fun _ => Frames.read fun _ => ?_
  refine Frames.bind (Frames.when (Frames.bind noRpls_modify fun _ =>
    releaseSuppressedAccept_noRpls)) fun _ => Frames.bind checkConnection_still.noRpls fun con => ?_
  cases con with
  | disCon | conDis => exact Frames.when setLeader_still.noRpls
  | conCon =>
      exact Frames.read fun _ => Frames.bind (Frames.when setLeader_still.noRpls) fun _ =>
        aliveCatchup_still.noRpls
  | disDis => exact Frames.pure _

/-! ### The replies -/

/-- The reply has the decision in the slot that its number points at. The
number is of the slot's page, or it was made for a slot of the page that is
collected. -/
def Out.RplFrom (pages : List Multi) (i : Input) (o : Out) : Prop :=
  ∀ m, o.rpl = some m → ¬ m.cMetaCmd.IsEmpty → ∃ mu ∈ pages,
    m.cPaxosI = (mu.slots (toK m.cSeq)).toInstance ∧
      m.cMetaCmd = (mu.slots (toK m.cSeq)).cMetaCmdRnd ∧
      (mu.pPage = toPage m.cSeq ∨ ∃ fr c, i = .recv fr (.collect c) ∧ mu.pPage = c.cPage ∧
        ∃ k : K, m.cSeq = toSeq c.cPage k)

abbrev RplsFrom (pages : List Multi) (i : Input) (_ : Paxos) (o : List Out) (_ : Paxos) : Prop :=
  ∀ x ∈ o, x.RplFrom pages i

variable {pages : List Multi} {i : Input} {r : Replica} {α : Type}

theorem rpls_nil {s t : Paxos} : RplsFrom pages i s [] t := fun _ hx => absurd hx List.not_mem_nil

theorem rpls_compositional : Compositional (RplsFrom pages i) :=
  ⟨fun _ => rpls_nil, fun h₁ h₂ x hx => (List.mem_append.mp hx).elim (h₁ x) (h₂ x)⟩

theorem Out.NoRpl.rplFrom {o : Out} (h : o.NoRpl) : o.RplFrom pages i := by
  intro m hm hne
  exact absurd (h m hm) hne

theorem Stills.rpls {x : PaxosM α} (h : Stills x) :
    Does (RplsFrom pages i) (At r) x fun _ => At r := by
  intro s hs
  obtain ⟨h₁, h₂⟩ := h s trivial
  refine ⟨fun a ha => ?_, fun er her => ?_⟩
  · obtain ⟨hr, -, ho⟩ := (h₁ a ha).1
    exact ⟨fun o hx => (ho o hx).noRpl.rplFrom, hr.trans hs⟩
  · obtain ⟨t, ht⟩ := h₂ er her
    exact ⟨t, fun o hx => (ht.2.2 o hx).noRpl.rplFrom⟩

theorem NoRpls.rpls {x : PaxosM α} (h : NoRpls x) (s : Paxos) :
    ∀ o ∈ (x s).out, o.RplFrom pages i := fun o ho => ((h s).2 o ho).rplFrom

theorem paxosSend_rpls {m : Msg} (h : (Out.send j m).RplFrom pages i) :
    Does (RplsFrom pages i) (At r) (paxosSend j m) fun _ => At r := by
  refine Does.of_run fun s hs => ⟨(), _, s, paxosSend_run j m s, ?_, hs⟩
  intro x hx
  rw [mem_sendIf hx]
  exact h

theorem catchupInstanceRpl_rpls {seq : UInt32} {mu mu' : Multi} (hmu : mu' ∈ pages)
    (hslots : mu'.slots = mu.slots)
    (hseq : mu'.pPage = toPage seq ∨ ∃ fr c, i = .recv fr (.collect c) ∧ mu'.pPage = c.cPage ∧
      ∃ k : K, seq = toSeq c.cPage k) :
    Does (RplsFrom pages i) (At r) (catchupInstanceRpl j (some mu) seq) fun _ => At r := by
  have hR : Compositional (RplsFrom pages i) := rpls_compositional
  refine Does.read fun s hs => ?_
  have hs' : ∀ t, t = s → At r t := fun t ht => ht ▸ hs
  refine Does.ite (fun _ => Does.pure hR hs') fun _ => Does.ite (fun _ => Does.pure hR hs')
    fun _ => ?_
  refine Does.weaken (Does.bind hR (Q := fun _ => At r) (paxosSend_rpls ?_) fun _ =>
    Does.pure hR fun _ h => h) hs'
  intro m hm _
  cases hm
  rw [← hslots]
  exact ⟨mu', hmu, rfl, rfl, hseq⟩

theorem catchupReqLoop_rpls {fr : ℕ} {seqTo : UInt32} (n : ℕ) (seq : UInt32) (found : Bool) :
    Does (RplsFrom (r.pMulti :: r.pMultiLnk) i) (At r) (catchupReqLoop fr seqTo n seq found)
      fun _ => At r := by
  have hR : Compositional (RplsFrom (r.pMulti :: r.pMultiLnk) i) := rpls_compositional
  induction n generalizing seq found with
  | zero => exact Does.pure hR fun _ h => h
  | succ n ih =>
      refine Does.read fun s hs => ?_
      have hrpl : Does (RplsFrom (r.pMulti :: r.pMultiLnk) i) (At r)
          (catchupInstanceRpl fr (getPage s.toReplica (toPage seq)) seq) fun _ => At r := by
        cases hg : getPage s.toReplica (toPage seq) with
        | none => exact catchupInstanceRpl_none_still.rpls
        | some mu =>
            rw [show s.toReplica = r from hs] at hg
            obtain ⟨hmu, hpage⟩ := getPage_some hg
            exact catchupInstanceRpl_rpls (List.mem_cons.mpr hmu) rfl (.inl hpage)
      refine Does.bind hR (hrpl.weaken fun t ht => ht ▸ hs) fun ret => ?_
      have hnone : Stills (do let _ ← catchupInstanceRpl fr none seq) :=
        Stills.bind catchupInstanceRpl_none_still fun _ => Stills.pure _
      refine Does.bind hR (Does.when hR (fun _ => hnone.rpls) fun _ _ h => h) fun _ => ?_
      exact Does.ite (fun _ => ih _ _) fun _ => Does.pure hR fun _ h => h

theorem recvCatchupReq_rpls {fr : ℕ} {m : MsgCatchupReq} :
    Does (RplsFrom (r.pMulti :: r.pMultiLnk) i) (At r) (recvCatchupReq fr m e) fun _ => At r := by
  have hR : Compositional (RplsFrom (r.pMulti :: r.pMultiLnk) i) := rpls_compositional
  refine Does.bind hR (catchupReqLoop_rpls _ _ _) fun found => ?_
  exact Does.when hR (fun _ => Does.modify fun s hs => ⟨rpls_nil, hs⟩) fun _ _ h => h

/-- The collected page is answered with decisions of that page. -/
theorem collect_rpls {s : Paxos} {fr : ℕ} {m : MsgCollect} (hi : i = .recv fr (.collect m))
    {q : Replica} (hq : q = s.setMulti fun mu => { mu with lCurRnd := m.cCurRnd }) :
    Does (RplsFrom (s.pMulti :: s.pMultiLnk) i) (At q)
      (if cmp32 m.cPage s.page < 0 then recvCollectBehind fr m
        else if 0 < cmp32 m.cPage s.page then recvCollectAhead fr m e
        else recvCollectSame fr m e) fun _ _ => True := by
  have hR : Compositional (RplsFrom (s.pMulti :: s.pMultiLnk) i) := rpls_compositional
  have hsend : ∀ {l}, Does (RplsFrom (s.pMulti :: s.pMultiLnk) i) (At q) (paxosSend fr (.last l))
      fun _ _ => True := (paxosSend_rpls (noRpl_of rfl).rplFrom).conseq (fun _ h => h)
        fun _ _ _ => trivial
  refine Does.ite (fun hlt => ?_) fun _ => Does.ite (fun _ => ?_) fun hge => ?_
  · refine Does.read fun t ht => ?_
    have ht' : ∀ u, u = t → At q u := fun u hu => hu ▸ ht
    cases hg : getPage t.toReplica m.cPage with
    | none => exact Does.pure hR fun _ _ => trivial
    | some mu =>
        rw [show t.toReplica = q from ht, hq] at hg
        obtain ⟨hmu, hpage⟩ := getPage_some hg
        have hmem : mu ∈ s.pMultiLnk := by
          refine hmu.resolve_left ?_
          rintro rfl
          have heq : s.page = m.cPage := hpage
          rw [heq, cmp32_self] at hlt
          exact absurd hlt (lt_irrefl 0)
        refine Does.weaken (Does.bind hR (Q := fun _ => At q) (Does.each hR fun k _ => ?_)
          fun _ => hsend) ht'
        refine Does.bind hR (Q := fun _ => At q) (Does.require hR fun _ h _ => h) fun _ => ?_
        refine Does.bind hR (catchupInstanceRpl_rpls (List.mem_cons_of_mem _ hmem) rfl ?_) fun _ =>
          Does.pure hR fun _ h => h
        exact .inr ⟨fr, m, hi, hpage, k, by rw [hpage]⟩
  · refine Does.read fun t ht => ?_
    have ht' : ∀ u, u = t → At q u := fun u hu => hu ▸ ht
    refine Does.weaken (Does.bind hR (Q := fun _ => At q) (Does.when hR (fun _ => ?_)
      fun _ _ h => h) fun _ => hsend) ht'
    exact Does.bind hR (Q := fun _ => At q) (Does.modify fun u hu => ⟨rpls_nil, hu⟩) fun _ =>
      catchupRequest_still.rpls
  · refine Does.read fun t ht => ?_
    have ht' : ∀ u, u = t → At q u := fun u hu => hu ▸ ht
    have hpage : s.page = m.cPage := (cmp32_eq_zero_iff.mp (by omega)).symm
    refine Does.weaken (Does.bind hR (Q := fun _ => At q) (Does.each hR fun k _ => ?_)
      fun _ => hsend) ht'
    refine Does.read fun u hu => Does.weaken (P := At q) ?_ fun v hv => hv ▸ hu
    refine Does.ite (fun _ => ?_) fun _ => Does.when hR (fun _ => ?_) fun _ _ h => h
    · exact Does.when hR (fun _ => catchupRequest_still.rpls) fun _ _ h => h
    · refine Does.bind hR (Q := fun _ => At q) (Does.require hR fun _ h _ => h) fun _ => ?_
      have hmulti : u.pMulti = { s.pMulti with lCurRnd := m.cCurRnd } := by
        rw [show u.toReplica = q from hu, hq]
        rfl
      have hseq : u.seq k = toSeq m.cPage k := by
        unfold Replica.seq Replica.page
        rw [hmulti, ← hpage]
        rfl
      have hmem : s.pMulti ∈ s.pMulti :: s.pMultiLnk := List.mem_cons_self
      refine Does.bind hR (catchupInstanceRpl_rpls hmem ?_
        (.inr ⟨fr, m, hi, hpage, k, hseq⟩)) fun _ => Does.pure hR fun _ h => h
      rw [hmulti]

/-- Every reply of a step has a decision of the replica. -/
theorem handle_rpls (s : Paxos) (i : Input) (e : Env) :
    ∀ o ∈ (handle i e s).out, o.RplFrom (s.pMulti :: s.pMultiLnk) i := by
  have hdoes : ∀ {α : Type} {x : PaxosM α} {P : Paxos → Prop} {Q : α → Paxos → Prop} {t : Paxos},
      Does (RplsFrom (s.pMulti :: s.pMultiLnk) i) P x Q → P t →
      ∀ o ∈ (x t).out, o.RplFrom (s.pMulti :: s.pMultiLnk) i := by
    intro α x P Q t h ht
    obtain ⟨h₁, h₂⟩ := h t ht
    cases hv : (x t).val with
    | ok a => exact (h₁ a hv).1
    | error er =>
        obtain ⟨u, hu⟩ := h₂ er hv
        exact hu
  cases i with
  | recv fr m =>
      cases m with
      | alive m => exact recvAlive_noRpls.rpls s
      | catchupReq m => exact hdoes recvCatchupReq_rpls (P := At s.toReplica) rfl
      | catchupRpl m => exact recvCatchupRpl_noRpls.rpls s
      | catchupEnd =>
          exact NoRpls.rpls (Frames.read fun _ => Frames.when releaseSuppressedAccept_noRpls) s
      | collect m =>
          change ∀ o ∈ (recvCollect fr m e s).out, _
          unfold recvCollect
          rw [read_bind]
          by_cases hr : cmpRound s.curRnd m.cCurRnd ≤ 0
          · rw [if_pos hr]
            have hrun (x : PaxosM Unit) : (do
                modMulti fun mu => { mu with lCurRnd := m.cCurRnd }
                x) s = x (s.onReplica
                  (Replica.setMulti fun mu => { mu with lCurRnd := m.cCurRnd })) := rfl
            rw [hrun]
            exact hdoes (collect_rpls (s := s) rfl rfl) rfl
          · rw [if_neg hr]
            exact NoRpls.rpls (noRpls_send rfl) s
      | last m => exact gatherLast_noRpls.rpls s
      | oldRound m =>
          exact NoRpls.rpls (Frames.read fun _ => Frames.ite (Frames.pure _) noRpls_modify) s
      | begin m => exact recvBegin_noRpls.rpls s
      | beginRedirect m => exact beginCastRedirect_noRpls.rpls s
      | accept m => exact gatherAccept_noRpls.rpls s
      | success m => exact recvSuccess_noRpls.rpls s
      | testNewRound => exact restartRound_noRpls.rpls s
  | request cmd validate => exact paxosRequest_noRpls.rpls s
  | detector => exact paxosDetector_noRpls.rpls s
  | heartbeat => exact heartbeat_still.noRpls.rpls s

end

end PaxosSolutions
