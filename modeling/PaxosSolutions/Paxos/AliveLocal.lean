import PaxosSolutions.Lib.Frame
import PaxosSolutions.Paxos.Election

/-!
# Whom a heartbeat is about

The heartbeat of a server is there to say that this server is connected and how
far it is. Under page suppression the handler goes on with the last server of
its loop instead.
-/
namespace PaxosSolutions
open NWGadget Lib Lib.Handler

/-- `server_receive_alive` from its head. A packet from a new address makes the
peer active, and one for another server is dropped. -/
def serverReceiveAlive (fr dst : ℕ) (moved : Bool) (m : MsgAlive) (e : Env) : PaxosM Unit := do
  when (moved = true) (modify (Paxos.setServer fr fun s => { s with sActive := true }))
  let p ← read
  if dst ≠ p.pMyId then pure () else recvAlive fr m e

/-- The server whose record `pserver` points at after the flow control. -/
def aliveSubject (p : Paxos) (fr : ℕ) : ℕ :=
  if p.pbPageSuppress then ((others p.toReplica p.pMaximum).getLast?).getD fr else fr

/-- The time that `CheckConnection` will find in the record of server `j`. -/
def aliveToken (p : Paxos) (fr : ℕ) (m : MsgAlive) (j : ℕ) : ℤ :=
  if j = fr then m.aYourTime else (p.pServer j).sToken

/-- The scan over all cores is entered: the subject stays connected, and the
sender is ahead and has dropped the page. -/
def ScansCores (p : Paxos) (fr : ℕ) (m : MsgAlive) (e : Env) : Prop :=
  e.now < addUsec (aliveToken p fr m (aliveSubject p fr)) p.dtCon ∧
    (p.pServer (aliveSubject p fr)).sConnected = true ∧ m.aCatchup = true ∧ e.locked = false ∧
    cmp32 p.pNextDecide m.aNextDecide < 0 ∧ ¬ cmp32 m.aBackPage (toPage p.pNextDecide) ≤ 0

/-- `s_status` -/
def Paxos.status (p : Paxos) (j : ℕ) : Bool × Bool :=
  ((p.pServer j).sActive, (p.pServer j).sConnected)

/-- Other echoed times in the records of all servers but `fr`. -/
def Paxos.withTokens (fr : ℕ) (tok : ℕ → ℤ) (p : Paxos) : Paxos :=
  { p with
    pServer := fun j => if j = fr then p.pServer j else { p.pServer j with sToken := tok j } }

/-- A heartbeat of `fr` leaves the status of every other server, whatever time
that one has echoed, and asks no other for decisions. -/
def AliveLocal (p : Paxos) (fr dst : ℕ) (moved : Bool) (m : MsgAlive) (e : Env) : Prop :=
  ∀ tok : ℕ → ℤ,
    (¬ ScansCores (p.withTokens fr tok) fr m e → ∀ j ≠ fr,
      (serverReceiveAlive fr dst moved m e (p.withTokens fr tok)).st.status j = p.status j) ∧
    ∀ d c, .send d (.catchupReq c) ∈
      (serverReceiveAlive fr dst moved m e (p.withTokens fr tok)).out → d = fr

/-- The packet is not dropped. -/
def AliveTaken (p : Paxos) (fr dst : ℕ) (moved : Bool) : Prop :=
  dst = p.pMyId ∧ (moved = true ∨ (p.pServer fr).sActive = true)

/-! ### What the parts leave alone -/

/-- What the connection of a server is decided by. -/
def connView (p : Paxos) : (ℕ → (Bool × Bool) × ℤ) × UInt32 × ℤ :=
  (fun j => (p.status j, (p.pServer j).sToken), p.pNextDecide, p.pUnitUsec)

/-- A request of a catch-up goes to `j` only. -/
def AsksOnly (j : ℕ) (o : Out) : Prop := ∀ dst c, o = .send dst (.catchupReq c) → dst = j

section Frames
variable {j : ℕ} {e : Env}

/-- A write to the record of one server that is not to its connection. -/
theorem connView_update {p q : Paxos} {i : ℕ} {s : Server}
    (hq : q.pServer = Function.update p.pServer i s) (hnext : q.pNextDecide = p.pNextDecide)
    (husec : q.pUnitUsec = p.pUnitUsec)
    (hs : s.sActive = (p.pServer i).sActive ∧ s.sConnected = (p.pServer i).sConnected ∧
      s.sToken = (p.pServer i).sToken) : connView q = connView p := by
  unfold connView Paxos.status
  rw [hq, hnext, husec]
  congr 1
  funext k
  by_cases hk : k = i
  · simp only [hk, Function.update_self, hs]
  · simp only [Function.update_of_ne hk]

theorem paxosSend_frames {i : ℕ} {m : Msg} (hm : AsksOnly j (.send i m)) :
    Frames connView (AsksOnly j) (paxosSend i m) :=
  Frames.read fun _ => Frames.when (Frames.emit hm)

theorem modElection_frames {f : Election → Election} :
    Frames connView (AsksOnly j) (modElection f) := Frames.modify fun _ => rfl

theorem election_asksOnly {c : NotifyCode} {l : ℤ} {ep : UInt32} {fr : ℕ} :
    AsksOnly j (.election c l ep fr) := by
  intro dst c h
  cases h

theorem electLeader_frames {i : ℕ} : Frames connView (AsksOnly j) (electLeader i e) := by
  refine Frames.read fun p => ?_
  have hemit : ∀ {c l ep fr}, Frames connView (AsksOnly j) (emit (.election c l ep fr) : PaxosM _) :=
    Frames.emit election_asksOnly
  split
  · refine Frames.bind modElection_frames fun _ => ?_
    refine Frames.bind (Frames.when (Frames.bind modElection_frames fun _ => hemit)) fun _ => ?_
    refine Frames.bind (Frames.when (Frames.bind modElection_frames fun _ => hemit)) fun _ => ?_
    exact Frames.read fun _ => hemit
  · refine Frames.bind (Frames.when hemit) fun _ => ?_
    refine Frames.bind modElection_frames fun _ => ?_
    exact Frames.when (Frames.bind modElection_frames fun _ => hemit)

theorem myVote_frames : Frames connView (AsksOnly j) myVote := by
  refine Frames.read fun _ => Frames.bind (Frames.modify ?_) fun _ => Frames.pure _
  intro p
  exact connView_update rfl rfl rfl ⟨rfl, rfl, rfl⟩

theorem setLeader_frames {i : ℕ} : Frames connView (AsksOnly j) (setLeader i e) := by
  refine Frames.read fun _ => Frames.ite (Frames.pure _) (Frames.bind myVote_frames fun _ => ?_)
  refine Frames.bind (Frames.when (Frames.each fun _ => ?_)) fun _ => electLeader_frames
  refine Frames.read fun _ => paxosSend_frames ?_
  intro dst c h
  cases h

theorem releaseSuppressedAccept_frames :
    Frames connView (AsksOnly j) releaseSuppressedAccept := by
  refine Frames.bind (Frames.modify fun _ => rfl) fun _ => Frames.each fun k => ?_
  refine Frames.read fun _ => Frames.when (Frames.bind (Frames.modify fun _ => rfl) fun _ => ?_)
  refine paxosSend_frames ?_
  intro dst c h
  cases h

/-- The request goes to the server that was aimed at. -/
theorem catchupFire_frames (p : Paxos) (hp : p.pCatchupServer = j) :
    connView (catchupFire e p).st = connView p ∧ ∀ o ∈ (catchupFire e p).out, AsksOnly j o := by
  unfold catchupFire
  rw [read_bind]
  simp only []
  generalize (if p.pIssuedLast ≠ 0 then p.pIssuedSeq + 1 else p.pNextDecide) = seq
  by_cases hseq : 0 ≤ cmp32 seq p.pCatchupNextDecide
  · rw [if_pos hseq]
    exact ⟨rfl, by simp⟩
  · rw [if_neg hseq, modify_bind]
    have hask : ∀ c, AsksOnly j (.send p.pCatchupServer (.catchupReq c)) := by
      intro c dst c' h
      cases h
      exact hp
    obtain ⟨hview, hout⟩ := paxosSend_frames (hask _) _
    refine ⟨hview.trans ?_, hout⟩
    exact connView_update rfl rfl rfl ⟨rfl, rfl, rfl⟩

theorem catchupRequest_frames {nd : UInt32} :
    Frames connView (AsksOnly j) (catchupRequest j nd e) := by
  intro p
  unfold catchupRequest
  rw [read_bind]
  have hkeep : connView p = connView p ∧ ∀ o ∈ ([] : List Out), AsksOnly j o := ⟨rfl, by simp⟩
  have hfire : ∀ q : Paxos, q.pCatchupServer = j → connView q = connView p →
      connView (catchupFire e q).st = connView p ∧ ∀ o ∈ (catchupFire e q).out, AsksOnly j o := by
    intro q hq hview
    rw [← hview]
    exact catchupFire_frames q hq
  simp only []
  by_cases hstop : p.pCatchupStop = true
  · rw [if_pos hstop]
    exact hkeep
  rw [if_neg hstop]
  by_cases hconn : (p.pServer j).sConnected = false
  · rw [if_pos hconn]
    exact hkeep
  rw [if_neg hconn]
  by_cases hissued : p.pIssuedLast ≠ 0
  swap
  · rw [if_neg hissued, modify_bind]
    exact hfire _ rfl rfl
  rw [if_pos hissued]
  by_cases hlate : p.pIssuedLast < e.time
  · rw [if_pos hlate, modify_bind]
    exact hfire _ rfl rfl
  rw [if_neg hlate]
  by_cases hnd : 0 < cmp32 nd p.pCatchupNextDecide
  · rw [if_pos hnd, modify_bind]
    unfold Handler.when
    by_cases hzero : (p.pServer j).sIssuedTime = 0
    · rw [if_pos hzero]
      exact hfire _ rfl rfl
    · rw [if_neg hzero]
      exact hkeep
  · rw [if_neg hnd]
    exact hkeep

/-- Nothing is asked for on the scan. -/
theorem findCatchup_frames (js : List ℕ) :
    Frames (fun _ => ()) (AsksOnly j) (findCatchup e js) := by
  induction js with
  | nil => exact Frames.pure _
  | cons i js ih =>
      refine Frames.bind (Frames.read fun p => ?_) fun _ => Frames.read fun _ =>
        Frames.ite (Frames.pure _) ih
      refine Frames.ite (Frames.ite ?_ (Frames.pure _)) (Frames.ite ?_ (Frames.pure _))
      all_goals exact Frames.bind (Frames.modify fun _ => rfl) fun _ => Frames.pure _

end Frames

/-! ### The handler -/

/-- What a heartbeat tells is written down. -/
def Paxos.heard (fr : ℕ) (m : MsgAlive) (p : Paxos) : Paxos :=
  { p.setServer fr fun s =>
      { s with
        sElection := m.aElection, sLeader := m.aLeader, sEpoch := m.aEpoch,
        sYourTime := m.aMyTime, sBackPage := m.aBackPage, sNextDecide := m.aNextDecide,
        sToken := m.aYourTime }
    with
    pElection :=
      { p.pElection with
        eEpoch := if decide (0 < cmp32 m.aEpoch p.pElection.eEpoch) then m.aEpoch
          else p.pElection.eEpoch } }

/-- The flow control of the handler. -/
def aliveFlow : PaxosM Unit := do
  let p ← read
  when (p.pbPageSuppress = true ∧ cmp32 p.pBackPage (toPage (slowest p)) < 0) do
    modify fun p => { p with pbPageSuppress := false }
    releaseSuppressedAccept

/-- What follows from the connection of server `j`. -/
def aliveConn (j : ℕ) (m : MsgAlive) (e : Env) (core changed : Bool) : Con → PaxosM Unit
  | .disCon | .conDis => when (core = true) (setLeader j e)
  | .conCon => do
      let p ← read
      when (p.pMyId < p.pMax ∧ (changed ∨ p.pElection.eLeader < 0)) (setLeader j e)
      aliveCatchup j m e
  | .disDis => pure ()

theorem recvAlive_parts (p : Paxos) (fr : ℕ) (m : MsgAlive) (e : Env)
    (hp : (p.pServer fr).sActive = true) :
    ∃ core changed, recvAlive fr m e p =
      (aliveFlow >>= fun _ => checkConnection (aliveSubject p fr) e >>=
        aliveConn (aliveSubject p fr) m e core changed) (p.heard fr m) := by
  let core := decide (p.pMyId < p.pMax ∧ fr < p.pMax)
  refine ⟨core, decide (0 < cmp32 m.aEpoch p.pElection.eEpoch) ||
    if core then decide ((p.pServer fr).sLeader ≠ m.aLeader ∨ (p.pServer fr).sElection ≠ m.aElection)
    else e.changed, ?_⟩
  unfold recvAlive
  rw [read_bind]
  simp only []
  rw [if_neg (by rw [hp]; decide), modify_bind, read_bind]
  unfold aliveFlow
  rw [bind_assoc, read_bind]
  rfl

/-- `CheckConnection` writes whether the echoed time is recent. -/
theorem checkConnection_run (j : ℕ) (e : Env) (p : Paxos) :
    ∃ con t, checkConnection j e p = ⟨.ok con, t, []⟩ ∧
      (∀ i ≠ j, t.pServer i = p.pServer i) ∧ t.pNextDecide = p.pNextDecide ∧
      t.status j = ((p.status j).1,
        decide (e.now < addUsec (p.pServer j).sToken p.dtCon)) ∧
      (con = .conCon ↔ e.now < addUsec (p.pServer j).sToken p.dtCon ∧ (p.status j).2 = true) := by
  unfold checkConnection
  rw [read_bind]
  have hother : ∀ (f : Server → Server), ∀ i ≠ j, (p.setServer j f).pServer i = p.pServer i :=
    fun f i hi => Function.update_of_ne hi ..
  by_cases hnow : e.now < addUsec (p.pServer j).sToken p.dtCon
  · rw [if_pos hnow]
    cases hconn : (p.pServer j).sConnected with
    | false =>
        refine ⟨.disCon, p.setServer j fun s => { s with sConnected := true, sAutonomicLast := 0 },
          rfl, hother _, rfl, ?_, ?_⟩
        · simp [Paxos.status, Paxos.setServer, hnow]
        · simp [Paxos.status, hconn]
    | true =>
        refine ⟨.conCon, _, rfl, fun _ _ => rfl, rfl, ?_, ?_⟩
        · simp [Paxos.status, hconn, hnow]
        · simp [Paxos.status, hconn, hnow]
  · rw [if_neg hnow]
    cases hconn : (p.pServer j).sConnected with
    | false =>
        refine ⟨.disDis, _, rfl, fun _ _ => rfl, rfl, ?_, ?_⟩
        · simp [Paxos.status, hconn, hnow]
        · simp [hnow]
    | true =>
        refine ⟨.conDis, p.setServer j fun s => { s with sConnected := false }, rfl, hother _, rfl, ?_, ?_⟩
        · simp [Paxos.status, Paxos.setServer, hnow]
        · simp [hnow]

theorem aliveFlow_frames {j : ℕ} : Frames connView (AsksOnly j) aliveFlow :=
  Frames.read fun _ => Frames.when (Frames.bind (Frames.modify fun _ => rfl) fun _ =>
    releaseSuppressedAccept_frames)

theorem aliveFlow_total : Total aliveFlow := by
  refine Total.read fun _ => Total.when (Total.bind (Total.modify _) fun _ => ?_)
  refine Total.bind (Total.modify _) fun _ => Total.each fun k => Total.read fun _ => ?_
  refine Total.when (Total.bind (Total.modify _) fun _ => Total.read fun _ => ?_)
  exact Total.when (Total.emit _)

section Handler
variable {fr j : ℕ} {m : MsgAlive} {e : Env} {p : Paxos}

theorem aliveCatchup_asks : Frames (fun _ => ()) (AsksOnly j) (aliveCatchup j m e) := by
  refine Frames.read fun p => Frames.when (Frames.ite ?_ ?_)
  · exact fun s => ⟨rfl, (catchupRequest_frames s).2⟩
  · refine Frames.bind (findCatchup_frames _) fun _ => Frames.ite (Frames.pure _) ?_
    refine Frames.bind (Frames.emit ?_) fun _ => Frames.fail _
    intro dst c h
    cases h

/-- Without the scan only the subject is asked. -/
theorem aliveCatchup_keeps (h : m.aCatchup = true → e.locked = false →
    cmp32 p.pNextDecide m.aNextDecide < 0 → cmp32 m.aBackPage (toPage p.pNextDecide) ≤ 0) :
    connView (aliveCatchup j m e p).st = connView p := by
  unfold aliveCatchup
  rw [read_bind]
  unfold Handler.when
  by_cases hc : m.aCatchup = true ∧ e.locked = false ∧ cmp32 p.pNextDecide m.aNextDecide < 0
  · rw [if_pos hc, if_pos (h hc.1 hc.2.1 hc.2.2)]
    exact (catchupRequest_frames (j := j) p).1
  · rw [if_neg hc]
    rfl

theorem aliveConn_asks {core changed : Bool} (con : Con) :
    Frames (fun _ => ()) (AsksOnly j) (aliveConn j m e core changed con) := by
  have hset : Frames (fun _ => ()) (AsksOnly j) (setLeader j e) :=
    fun s => ⟨rfl, (setLeader_frames s).2⟩
  cases con with
  | disCon | conDis => exact Frames.when hset
  | conCon => exact Frames.read fun _ => Frames.bind (Frames.when hset) fun _ => aliveCatchup_asks
  | disDis => exact Frames.pure _

theorem aliveConn_keeps {core changed : Bool} {con : Con}
    (h : con = .conCon → m.aCatchup = true → e.locked = false →
      cmp32 p.pNextDecide m.aNextDecide < 0 → cmp32 m.aBackPage (toPage p.pNextDecide) ≤ 0) :
    connView (aliveConn j m e core changed con p).st = connView p := by
  cases con with
  | disCon | conDis => exact (Frames.when (setLeader_frames (j := j)) p).1
  | disDis => rfl
  | conCon =>
      change connView ((when _ (setLeader j e) >>= fun _ => aliveCatchup j m e) p).st = _
      have hset : Frames connView (AsksOnly j)
          (when (p.pMyId < p.pMax ∧ (changed = true ∨ p.pElection.eLeader < 0)) (setLeader j e)) :=
        Frames.when setLeader_frames
      obtain ⟨hview, -⟩ := hset p
      rw [bind_apply]
      unfold Handler.bind
      split
      · refine (aliveCatchup_keeps ?_).trans hview
        have hnext := congrArg (fun v => v.2.1) hview
        simp only [connView] at hnext
        rw [hnext]
        exact h rfl
      · exact hview

/-- The subject's connection is evaluated, that of every other server is kept
unless the cores are scanned, and only the subject is asked. -/
theorem recvAlive_subject (hp : (p.pServer fr).sActive = true) :
    (¬ ScansCores p fr m e →
      (∀ i ≠ aliveSubject p fr, (recvAlive fr m e p).st.status i = p.status i) ∧
      ((recvAlive fr m e p).st.status (aliveSubject p fr)).2 =
        decide (e.now < addUsec (aliveToken p fr m (aliveSubject p fr)) p.dtCon)) ∧
    ∀ o ∈ (recvAlive fr m e p).out, AsksOnly (aliveSubject p fr) o := by
  obtain ⟨core, changed, hrun⟩ := recvAlive_parts p fr m e hp
  generalize hj : aliveSubject p fr = j at *
  rw [hrun]
  obtain ⟨_, q, o, hflow⟩ := aliveFlow_total (p.heard fr m)
  have hq : connView q = connView (p.heard fr m) ∧ ∀ x ∈ o, AsksOnly j x := by
    have := aliveFlow_frames (j := j) (p.heard fr m)
    rw [hflow] at this
    exact this
  obtain ⟨con, t, hcheck, hother, hnext, hstatus, hcon⟩ := checkConnection_run j e q
  rw [bind_of_ok hflow, bind_of_ok hcheck]
  -- what the handler wrote down before is the token of the sender
  have hheard : ∀ i, (p.heard fr m).status i = p.status i ∧
      ((p.heard fr m).pServer i).sToken = aliveToken p fr m i := by
    intro i
    unfold Paxos.heard Paxos.status Paxos.setServer aliveToken
    by_cases hi : i = fr
    · simp [hi]
    · simp [hi, Function.update_of_ne]
  have hqi : ∀ i, q.status i = p.status i ∧ (q.pServer i).sToken = aliveToken p fr m i := by
    intro i
    have hi := congrArg (fun v => v.1 i) hq.1
    obtain ⟨hs, ht⟩ := Prod.mk.inj hi
    exact ⟨hs.trans (hheard i).1, ht.trans (hheard i).2⟩
  have hqnext : q.pNextDecide = p.pNextDecide := congrArg (fun v => v.2.1) hq.1
  have hqcon : q.dtCon = p.dtCon := by
    have husec : q.pUnitUsec = p.pUnitUsec := congrArg (fun v => v.2.2) hq.1
    unfold Paxos.dtCon Paxos.dtD
    rw [husec]
  rw [(hqi j).2, hqcon] at hstatus hcon
  rw [(hqi j).1] at hcon
  refine ⟨?_, ?_⟩
  · intro hscan
    have hkeeps : connView (aliveConn j m e core changed con t).st = connView t := by
      refine aliveConn_keeps ?_
      intro hc h₁ h₂ h₃
      by_contra h₄
      rw [hnext, hqnext] at h₃ h₄
      refine hscan ⟨?_, ?_, h₁, h₂, h₃, h₄⟩
      · rw [hj]
        exact (hcon.mp hc).1
      · rw [hj]
        exact (hcon.mp hc).2
    have hst : ∀ i, (aliveConn j m e core changed con t).st.status i = t.status i :=
      fun i => congrArg (fun v => (v.1 i).1) hkeeps
    refine ⟨?_, ?_⟩
    · intro i hi
      refine (hst i).trans ?_
      unfold Paxos.status
      rw [hother i hi]
      exact (hqi i).1
    · rw [hst, hstatus]
  · intro x hx
    rcases List.mem_append.mp hx with hx | hx
    · exact hq.2 x hx
    · rcases List.mem_append.mp hx with hx | hx
      · cases hx
      · exact (aliveConn_asks con t).2 x hx

/-- A packet from a new address makes the peer active. -/
def Paxos.woken (fr : ℕ) (moved : Bool) (p : Paxos) : Paxos :=
  if moved = true then p.setServer fr fun s => { s with sActive := true } else p

variable {dst : ℕ} {moved : Bool}

theorem woken_facts (fr : ℕ) (moved : Bool) (p : Paxos) :
    (∀ i, ((p.woken fr moved).pServer i).sConnected = (p.pServer i).sConnected ∧
      ((p.woken fr moved).pServer i).sToken = (p.pServer i).sToken ∧
      (i ≠ fr → (p.woken fr moved).status i = p.status i)) ∧
    ((p.woken fr moved).pServer fr).sActive = (moved || (p.pServer fr).sActive) := by
  unfold Paxos.woken
  cases moved with
  | false => exact ⟨fun i => ⟨rfl, rfl, fun _ => rfl⟩, rfl⟩
  | true =>
      rw [if_pos rfl]
      unfold Paxos.setServer Paxos.status
      refine ⟨?_, by simp⟩
      intro i
      by_cases hi : i = fr
      · simp [hi]
      · simp [Function.update_of_ne hi]

theorem woken_subject (fr : ℕ) (moved : Bool) (m : MsgAlive) (e : Env) (p : Paxos) :
    (p.woken fr moved).pMyId = p.pMyId ∧ aliveSubject (p.woken fr moved) fr = aliveSubject p fr ∧
      (ScansCores (p.woken fr moved) fr m e ↔ ScansCores p fr m e) := by
  have hsub : aliveSubject (p.woken fr moved) fr = aliveSubject p fr := by
    unfold Paxos.woken
    split <;> rfl
  have hrest : (p.woken fr moved).pMyId = p.pMyId ∧ (p.woken fr moved).dtCon = p.dtCon ∧
      (p.woken fr moved).pNextDecide = p.pNextDecide := by
    unfold Paxos.woken
    split <;> exact ⟨rfl, rfl, rfl⟩
  refine ⟨hrest.1, hsub, ?_⟩
  obtain ⟨hconn, htok, -⟩ := (woken_facts fr moved p).1 (aliveSubject p fr)
  unfold ScansCores aliveToken
  rw [hsub, hrest.2.1, hrest.2.2, hconn, htok]

theorem serverReceiveAlive_run (p : Paxos) : serverReceiveAlive fr dst moved m e p =
    if dst ≠ p.pMyId then ⟨.ok (), p.woken fr moved, []⟩ else recvAlive fr m e (p.woken fr moved) := by
  have hmyid := (woken_subject fr moved m e p).1
  have hwhen : (when (moved = true) (modify (Paxos.setServer fr fun s => { s with sActive := true }))
      : PaxosM Unit) p = ⟨.ok (), p.woken fr moved, []⟩ := by
    cases moved with
    | false => rfl
    | true => rfl
  unfold serverReceiveAlive
  rw [bind_of_ok hwhen, read_bind]
  simp only [List.nil_append]
  rw [hmyid]
  by_cases hdst : dst ≠ p.pMyId
  · rw [if_pos hdst, if_pos hdst]
    rfl
  · rw [if_neg hdst, if_neg hdst]

/-- A packet that is dropped changes no other server. -/
theorem serverReceiveAlive_dropped (h : ¬ AliveTaken p fr dst moved) :
    serverReceiveAlive fr dst moved m e p = ⟨.ok (), p.woken fr moved, []⟩ := by
  rw [serverReceiveAlive_run]
  by_cases hdst : dst ≠ p.pMyId
  · rw [if_pos hdst]
  · rw [if_neg hdst]
    have hinactive : ((p.woken fr moved).pServer fr).sActive = false := by
      rw [(woken_facts fr moved p).2, Bool.eq_false_iff]
      intro hor
      exact h ⟨not_not.mp hdst, Bool.or_eq_true_iff.mp hor⟩
    unfold recvAlive
    rw [read_bind]
    simp only []
    rw [if_pos hinactive]
    rfl

theorem serverReceiveAlive_taken (h : AliveTaken p fr dst moved) :
    serverReceiveAlive fr dst moved m e p = recvAlive fr m e (p.woken fr moved) ∧
      ((p.woken fr moved).pServer fr).sActive = true := by
  rw [serverReceiveAlive_run, if_neg (not_not.mpr h.1), (woken_facts fr moved p).2]
  exact ⟨rfl, Bool.or_eq_true_iff.mpr h.2⟩

/-- An echoed time with which the connection of a server would change. -/
def flipToken (p : Paxos) (j : ℕ) (e : Env) : ℤ :=
  if (p.pServer j).sConnected then e.now - p.dtCon * 1000 else e.now - p.dtCon * 1000 + 1

theorem flipToken_flips (p : Paxos) (j : ℕ) (e : Env) :
    decide (e.now < addUsec (flipToken p j e) p.dtCon) ≠ (p.status j).2 := by
  unfold flipToken addUsec Paxos.status
  cases (p.pServer j).sConnected with
  | false =>
      have hnow : e.now < e.now - p.dtCon * 1000 + 1 + p.dtCon * 1000 := by omega
      simpa using hnow
  | true => simp

/-- A heartbeat is about its sender alone exactly when it is dropped or the
subject after the flow control is the sender. -/
theorem serverReceiveAlive_local_iff (p : Paxos) (fr dst : ℕ) (moved : Bool) (m : MsgAlive)
    (e : Env) : AliveLocal p fr dst moved m e ↔
      (AliveTaken p fr dst moved → aliveSubject p fr = fr) := by
  constructor
  · intro hlocal htaken
    by_contra hne
    -- the subject has echoed a time with which its connection changes
    let q := p.withTokens fr fun j => flipToken p j e
    obtain ⟨hrun, hactive⟩ :=
      serverReceiveAlive_taken (p := q) (m := m) (e := e) (show AliveTaken q fr dst moved by
        simpa [AliveTaken, q, Paxos.withTokens] using htaken)
    obtain ⟨-, hsub, hscans⟩ := woken_subject fr moved m e q
    have hsubq : aliveSubject q fr = aliveSubject p fr := rfl
    have htok : aliveToken q fr m (aliveSubject p fr) = flipToken p (aliveSubject p fr) e := by
      simp [aliveToken, q, Paxos.withTokens, hne]
    have hstatus : q.status (aliveSubject p fr) = p.status (aliveSubject p fr) := by
      simp [Paxos.status, q, Paxos.withTokens, hne]
    have hflip := flipToken_flips p (aliveSubject p fr) e
    have hscan : ¬ ScansCores q fr m e := by
      intro hscan
      have h₁ := hscan.1
      have h₂ := hscan.2.1
      rw [hsubq, htok] at h₁
      refine hflip ?_
      rw [← hstatus, decide_eq_true (show e.now < addUsec _ p.dtCon from h₁)]
      exact h₂.symm
    have hkept := (hlocal fun j => flipToken p j e).1 hscan (aliveSubject p fr) hne
    obtain ⟨-, hconn⟩ := (recvAlive_subject (m := m) (e := e) hactive).1 (mt hscans.mp hscan)
    rw [← hrun, hsub, hsubq] at hconn
    have htok' : aliveToken (q.woken fr moved) fr m (aliveSubject p fr) =
        flipToken p (aliveSubject p fr) e := by
      rw [← htok]
      unfold aliveToken
      rw [((woken_facts fr moved q).1 _).2.1]
    have hcon : (q.woken fr moved).dtCon = p.dtCon := by
      unfold Paxos.woken
      split <;> rfl
    rw [htok', hcon] at hconn
    exact hflip (hconn.symm.trans (congrArg Prod.snd hkept))
  · intro hsubject tok
    have hother : ∀ j ≠ fr, (p.withTokens fr tok).status j = p.status j := by
      intro j hj
      simp [Paxos.status, Paxos.withTokens, hj]
    by_cases htaken : AliveTaken (p.withTokens fr tok) fr dst moved
    · obtain ⟨hrun, hactive⟩ := serverReceiveAlive_taken (m := m) (e := e) htaken
      obtain ⟨-, hsub, hscans⟩ :=
        woken_subject fr moved m e (p.withTokens fr tok)
      obtain ⟨hkept, hout⟩ := recvAlive_subject (m := m) (e := e) hactive
      have hfr : aliveSubject ((p.withTokens fr tok).woken fr moved) fr = fr := by
        rw [hsub]
        refine hsubject ?_
        simpa [AliveTaken, Paxos.withTokens] using htaken
      rw [hfr] at hkept hout
      rw [hrun]
      refine ⟨?_, ?_⟩
      · intro hscan j hj
        rw [(hkept (mt hscans.mp hscan)).1 j hj, ((woken_facts fr moved _).1 j).2.2 hj, hother j hj]
      · intro d c hmem
        exact hout _ hmem d c rfl
    · rw [serverReceiveAlive_dropped htaken]
      refine ⟨?_, by simp⟩
      intro _ j hj
      rw [((woken_facts fr moved _).1 j).2.2 hj, hother j hj]

/-- Server 1 is heard while server 2, which was heard long ago, is the last of
the table: under page suppression server 2 is disconnected. -/
theorem alive_not_local : ¬ ∀ (p : Paxos) (fr dst : ℕ) (moved : Bool) (m : MsgAlive) (e : Env),
    AliveLocal p fr dst moved m e := by
  intro h
  have hlocal := (h { pMyId := 0, pMax := 3, pMaximum := 3, pGaps := Hash.init 11 UInt32.toNat,
                      pbPageSuppress := true, pElection := { eLeader := -1 }
                      pServer := fun _ => { sActive := true, sConnected := true } }
    1 0 false ⟨10, -1, 0, 1000, 1000, false, 0, 0⟩ { now := 1000 } fun _ => 0).1 ?_ 2 (by decide)
  · exact absurd hlocal (by decide)
  · intro hscan
    exact absurd hscan.2.2.1 (by decide)

end Handler

end PaxosSolutions
