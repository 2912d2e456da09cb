import PaxosSolutions.Lib.Frame
import PaxosSolutions.Lib.Run
import PaxosSolutions.Paxos.Run

/-!
# The requests of a catch-up

A firing begins with a request for the next decision and goes on, one request
at a time, where the one before ended, until the target is reached or the time
is over. The target may move forward under way.
-/
namespace PaxosSolutions
open NWGadget Lib Lib.Handler

/-- The part of `PaxosDetector` that ends a firing whose time is over. -/
def expireCatchup (e : Env) : PaxosM Unit := do
  let p ← read
  when (p.pIssuedLast ≠ 0 ∧ p.pIssuedLast < e.time) do
    modify fun p =>
      { p with
        pIssuedLast := 0
        pServer := fun j =>
          if j < p.pMax then { p.pServer j with sIssuedTime := 0 } else p.pServer j }

/-- What else a server does may end the firing, as the heartbeats, an execution
and a collect do, but does not move it. A peer is connected by a heartbeat of
it, which made it active, and stays active. -/
structure Meanwhile (p q : Paxos) : Prop where
  issued : q.pIssuedLast = 0 ∨
    q.pIssuedLast = p.pIssuedLast ∧ q.pCatchupNextDecide = p.pCatchupNextDecide
  seq : q.pIssuedSeq = p.pIssuedSeq
  server : q.pCatchupServer = p.pCatchupServer
  active : ∀ j, (p.pServer j).sActive = true → (q.pServer j).sActive = true
  connected : (∀ j, (p.pServer j).sConnected = true → (p.pServer j).sActive = true) →
    ∀ j, (q.pServer j).sConnected = true → (q.pServer j).sActive = true

/-- A change of the server elsewhere. -/
structure Elsewhere where
  change : Paxos → Paxos
  keeps : ∀ p, Meanwhile p (change p)

inductive CatchupOp where
  | request (j : ℕ) (nextDecide : UInt32)
  | reply (fr : ℕ) (m : MsgCatchupRpl)
  | expire
  | elsewhere (x : Elsewhere)

/-- A request that was sent, with the target at that moment. -/
structure Issue where
  req : MsgCatchupReq
  target : UInt32

/-- The requests from `p_IssuedLast` becoming nonzero until it becomes zero,
and `NextDecide` at the beginning. -/
structure Firing where
  start : UInt32
  issues : List Issue

/-- A server with the firings so far, the newest first. -/
structure CatchupRun where
  paxos : Paxos
  firings : List Firing := []

def Out.catchupReq? : Out → Option MsgCatchupReq
  | .send _ (.catchupReq r) => some r
  | _ => none

/-- What was sent begins a firing or goes on with the newest. -/
def record (begins : Bool) (start : UInt32) (issues : List Issue) : List Firing → List Firing
  | [] => if issues = [] then [] else [⟨start, issues⟩]
  | f :: fs =>
      if issues = [] then f :: fs
      else if begins then ⟨start, issues⟩ :: f :: fs
      else { f with issues := f.issues ++ issues } :: fs

/-- The server after a handler, with what it sent put into the record. -/
def CatchupRun.after (s : CatchupRun) (begins : Bool) (x : PaxosM Unit) : Except Fault CatchupRun :=
  (x s.paxos).val.map fun _ =>
    { paxos := (x s.paxos).st
      firings := record begins s.paxos.pNextDecide
        (((x s.paxos).out.filterMap Out.catchupReq?).map
          fun r => ⟨r, (x s.paxos).st.pCatchupNextDecide⟩) s.firings }

/-- `p_IssuedLast` is zero, or a late one is reset by `CatchupRequest`. -/
def idle (p : Paxos) (e : Env) : Bool := p.pIssuedLast = 0 ∨ p.pIssuedLast < e.time

def CatchupRun.step (s : CatchupRun) : CatchupOp × Env → Except Fault CatchupRun
  | (.request j nd, e) => s.after (idle s.paxos e) (catchupRequest j nd e)
  | (.reply fr m, e) => s.after (s.paxos.pIssuedLast = 0) (recvCatchupRpl fr m e)
  | (.expire, e) => s.after (s.paxos.pIssuedLast = 0) (expireCatchup e)
  | (.elsewhere x, _) => .ok { s with paxos := x.change s.paxos }

/-- The numbers that a request asks for. -/
def MsgCatchupReq.numbers (r : MsgCatchupReq) : List UInt32 :=
  (List.range ((r.cSeqTo - r.cSeqFrom).toNat + 1)).map fun n => r.cSeqFrom + n.toUInt32

/-- A request is for some numbers in a row, not too many, before the target. -/
structure Issue.Sound (i : Issue) : Prop where
  le : 0 ≤ cmp32 i.req.cSeqTo i.req.cSeqFrom
  few : (i.req.numbers.length : ℤ) ≤ paxosFireMax
  below : cmp32 i.req.cSeqTo i.target < 0

/-- All numbers that a firing asks for, in the order of the requests. -/
def Firing.numbers (f : Firing) : List UInt32 := f.issues.flatMap fun i => i.req.numbers

/-- The requests ask for the numbers in a row from the start, each once. -/
structure Firing.Sound (f : Firing) : Prop where
  issue : ∀ i ∈ f.issues, i.Sound
  row : f.numbers = (List.range f.numbers.length).map fun n => f.start + n.toUInt32

/-- Where a request would start is not half the range before its target. -/
def CatchupRun.Apart (s : CatchupRun) : CatchupOp × Env → Prop
  | (.request j nd, e) =>
      s.paxos.pCatchupStop = false → (s.paxos.pServer j).sConnected = true →
        if idle s.paxos e then nd - s.paxos.pNextDecide ≠ 0x80000000
        else 0 < cmp32 nd s.paxos.pCatchupNextDecide → (s.paxos.pServer j).sIssuedTime = 0 →
          nd - (s.paxos.pIssuedSeq + 1) ≠ 0x80000000
  | (.reply _ m, _) =>
      s.paxos.pIssuedLast ≠ 0 → m.cSeq = s.paxos.pIssuedSeq →
        s.paxos.pCatchupNextDecide - (s.paxos.pIssuedSeq + 1) ≠ 0x80000000
  | _ => True

/-! ### One request -/

theorem toUInt32_add (m n : ℕ) : (m + n).toUInt32 = m.toUInt32 + n.toUInt32 := UInt32.ofNat_add m n

theorem ofInt_natCast (n : ℕ) : UInt32.ofInt n = n.toUInt32 := by
  apply UInt32.toNat.inj
  change ((n : ℤ) % 2 ^ 32).toNat % 2 ^ 32 = n % 2 ^ 32
  omega

section Request
variable {seq target : UInt32}

/-- A start before the target, and not half the range, is less than half the
range before it. -/
theorem distance_lt (h : cmp32 seq target < 0) (hne : target - seq ≠ 0x80000000) :
    0 < (target - seq).toNat ∧ (target - seq).toNat < 2 ^ 31 := by
  have hsum : (seq - target).toNat = (2 ^ 32 - (target - seq).toNat) % 2 ^ 32 := by
    have hneg : seq - target = -(target - seq) := by grind
    rw [hneg, UInt32.toNat_neg]
    rfl
  have hlt := (target - seq).toNat_lt
  have hne' : (target - seq).toNat ≠ 2 ^ 31 := fun h => hne (UInt32.toNat.inj h)
  unfold cmp32 at h
  rw [BitVec.toInt_eq_toNat_cond] at h
  simp only [UInt32.toNat_toBitVec] at h
  split at h
  · omega
  · omega

/-- The request from `seq` for as many numbers as there are before the target,
up to the limit. -/
theorem issue_sound (h : cmp32 seq target < 0) (hne : target - seq ≠ 0x80000000) {r : MsgCatchupReq}
    (hfrom : r.cSeqFrom = seq)
    (hto : r.cSeqTo = seq + UInt32.ofInt (min (cmp32 target seq) paxosFireMax) - 1) :
    Issue.Sound ⟨r, target⟩ ∧ r.cSeqTo + 1 = seq + r.numbers.length.toUInt32 := by
  obtain ⟨hpos, hlt⟩ := distance_lt h hne
  have hself : (seq - seq).toNat = 0 := by simp
  have hselfLt : (seq - seq).toNat < 2 ^ 31 := by omega
  have hcmp : cmp32 target seq = (target - seq).toNat := by
    rw [cmp32_eq_sub_base hlt hselfLt, hself]
    simp
  obtain ⟨c, hc⟩ : ∃ c : ℕ, c = min (target - seq).toNat 20 := ⟨_, rfl⟩
  have hofInt : UInt32.ofInt (min (cmp32 target seq) paxosFireMax) = c.toUInt32 := by
    rw [hcmp, hc, ← ofInt_natCast]
    congr 1
    simp
  rw [hofInt] at hto
  have hone : c.toUInt32 = (c - 1).toUInt32 + 1 := by
    have hsucc := toUInt32_add (c - 1) 1
    rw [Nat.sub_add_cancel (by omega)] at hsucc
    exact hsucc
  have hdiff : r.cSeqTo - seq = (c - 1).toUInt32 := by
    rw [hto, hone]
    grind
  have hnat : (r.cSeqTo - seq).toNat = c - 1 := by
    rw [hdiff]
    exact Nat.mod_eq_of_lt (by omega)
  have hnatLt : (r.cSeqTo - seq).toNat < 2 ^ 31 := by omega
  have hlen : r.numbers.length = c := by
    unfold MsgCatchupReq.numbers
    rw [List.length_map, List.length_range, hfrom, hnat]
    omega
  refine ⟨⟨?_, ?_, ?_⟩, ?_⟩
  · change 0 ≤ cmp32 r.cSeqTo r.cSeqFrom
    rw [hfrom, cmp32_eq_sub_base hnatLt hselfLt, hself]
    omega
  · rw [hlen]
    change (c : ℤ) ≤ 20
    omega
  · change cmp32 r.cSeqTo target < 0
    rw [cmp32_eq_sub_base hnatLt hlt]
    omega
  · rw [hlen, hto]
    grind

end Request

/-! ### What the handlers send -/

/-- No request of a catch-up. -/
def Out.Unasked (o : Out) : Prop := o.catchupReq? = none

/-- What a firing depends on. -/
def firingView (p : Paxos) : ℤ × UInt32 × UInt32 × ℕ × (ℕ → Bool × Bool) :=
  (p.pIssuedLast, p.pIssuedSeq, p.pCatchupNextDecide, p.pCatchupServer,
    fun j => ((p.pServer j).sActive, (p.pServer j).sConnected))

section Handlers
variable {e : Env} {p q u t : Paxos} {o : List Out}

theorem Meanwhile.trans (h : Meanwhile p q) (h' : Meanwhile q u) : Meanwhile p u := by
  refine ⟨?_, h'.seq.trans h.seq, h'.server.trans h.server, fun j hj => h'.active j (h.active j hj),
    fun hp => h'.connected (h.connected hp)⟩
  rcases h'.issued with hzero | ⟨hissued, hnext⟩
  · exact .inl hzero
  · rw [hissued, hnext]
    exact h.issued

theorem Meanwhile.of_view (h : firingView q = firingView p) : Meanwhile p q := by
  obtain ⟨hissued, hrest⟩ := Prod.mk.inj h
  obtain ⟨hseq, hrest⟩ := Prod.mk.inj hrest
  obtain ⟨hnext, hrest⟩ := Prod.mk.inj hrest
  obtain ⟨hserver, hstatus⟩ := Prod.mk.inj hrest
  have hat : ∀ j, (q.pServer j).sActive = (p.pServer j).sActive ∧
      (q.pServer j).sConnected = (p.pServer j).sConnected :=
    fun j => Prod.mk.inj (congrFun hstatus j)
  refine ⟨.inr ⟨hissued, hnext⟩, hseq, hserver, ?_, ?_⟩
  · intro j hj
    rw [(hat j).1]
    exact hj
  · intro hp j hj
    rw [(hat j).2] at hj
    rw [(hat j).1]
    exact hp j hj

theorem paxosSend_unasked {j : ℕ} {m : Msg} (hm : (Out.send j m).Unasked) :
    Frames firingView Out.Unasked (paxosSend j m) :=
  Frames.read fun _ => Frames.when (Frames.emit hm)

theorem paxosValidate_unasked {mode : NotifyMode} {seq : UInt32} {v : Value} {c : MetaCmd} :
    Frames firingView Out.Unasked (paxosValidate mode seq v c e) :=
  Frames.read fun _ => Frames.ite (Frames.pure _) (Frames.ite (Frames.pure _)
    (Frames.bind (Frames.emit rfl) fun _ => Frames.pure _))

theorem execute_unasked {seq : UInt32} {d : Value} {c : MetaCmd} :
    Frames firingView Out.Unasked (execute seq d c) :=
  Frames.read fun _ => Frames.bind (Frames.emit rfl) fun _ =>
    Frames.ite (Frames.emit rfl) (Frames.emit rfl)

theorem execGaps_unasked (n : ℕ) : Frames firingView Out.Unasked (execGaps n) := by
  induction n with
  | zero => exact Frames.pure _
  | succ n ih =>
      refine Frames.read fun p => ?_
      split
      · exact Frames.pure _
      · exact Frames.bind execute_unasked fun _ => Frames.bind (Frames.modify fun _ => rfl) fun _ => ih

theorem execUp_unasked {k : K} : Frames firingView Out.Unasked (execUp k) := by
  refine Frames.bind (Frames.modify fun _ => rfl) fun _ => Frames.read fun p => ?_
  refine Frames.ite (Frames.pure _) (Frames.bind (Frames.when (Frames.emit rfl)) fun _ => ?_)
  refine Frames.bind (Frames.ite ?_ (Frames.modify fun _ => rfl)) fun _ =>
    Frames.bind (Frames.modify fun _ => rfl) fun _ => Frames.pure _
  exact Frames.read fun _ => Frames.bind (Frames.modify fun _ => rfl) fun _ =>
    Frames.bind execute_unasked fun _ => execGaps_unasked _

theorem autonomicScan_status (n : ℤ) (js : List ℕ) (sv : ℕ → Server) (j : ℕ) :
    ((autonomicScan n js sv).2 j).sActive = (sv j).sActive ∧
      ((autonomicScan n js sv).2 j).sConnected = (sv j).sConnected := by
  induction js generalizing sv with
  | nil => exact ⟨rfl, rfl⟩
  | cons i js ih =>
      unfold autonomicScan
      split
      · by_cases hj : j = i
        · rw [(ih _).1, (ih _).2, hj]
          simp
        · rw [(ih _).1, (ih _).2, Function.update_of_ne hj]
          exact ⟨rfl, rfl⟩
      · exact ⟨rfl, rfl⟩

theorem updatePage_unasked : Frames firingView Out.Unasked (updatePage e) := by
  refine Frames.read fun p => Frames.ite (Frames.pure _) (Frames.bind (Frames.modify ?_) fun _ =>
    Frames.modify fun _ => rfl)
  intro s
  have hstatus : (fun j => (((putPage e s).pServer j).sActive, ((putPage e s).pServer j).sConnected)) =
      fun j => ((s.pServer j).sActive, (s.pServer j).sConnected) := by
    have hserver : (putPage e s).pServer =
        (autonomicScan e.time (others s.toReplica s.pMaximum) s.pServer).2 := by
      unfold putPage
      simp only []
      split <;> rfl
    rw [hserver]
    funext j
    obtain ⟨hactive, hconn⟩ := autonomicScan_status e.time (others s.toReplica s.pMaximum) s.pServer j
    exact Prod.ext hactive hconn
  have hview := congrArg (fun f => (s.pIssuedLast, s.pIssuedSeq, s.pCatchupNextDecide,
    s.pCatchupServer, f)) hstatus
  rw [← show firingView s = (s.pIssuedLast, s.pIssuedSeq, s.pCatchupNextDecide, s.pCatchupServer,
    fun j => ((s.pServer j).sActive, (s.pServer j).sConnected)) from rfl] at hview
  rw [← hview]
  unfold putPage firingView
  simp only []
  split <;> rfl

/-- A handler neither asks nor moves the firing. -/
def Asides {α : Type} (x : PaxosM α) : Prop :=
  ∀ p a q o, x p = ⟨.ok a, q, o⟩ → Meanwhile p q ∧ ∀ y ∈ o, y.Unasked

theorem Asides.of_frames {α : Type} {x : PaxosM α} (h : Frames firingView Out.Unasked x) :
    Asides x := by
  intro p a q o hx
  have hp := h p
  rw [hx] at hp
  exact ⟨.of_view hp.1, hp.2⟩

theorem Asides.bind {α β : Type} {x : PaxosM α} {f : α → PaxosM β} (hx : Asides x)
    (hf : ∀ a, Asides (f a)) : Asides (x >>= f) := by
  intro p b t o h
  obtain ⟨a, u, o₁, o₂, h₁, h₂, rfl⟩ := bind_ok h
  obtain ⟨hm₁, ho₁⟩ := hx p a u o₁ h₁
  obtain ⟨hm₂, ho₂⟩ := hf a u b t o₂ h₂
  refine ⟨hm₁.trans hm₂, ?_⟩
  intro y hy
  rcases List.mem_append.mp hy with hy | hy
  · exact ho₁ y hy
  · exact ho₂ y hy

theorem Asides.read {β : Type} {f : Paxos → PaxosM β} (h : ∀ s, Asides (f s)) :
    Asides (Handler.read >>= f) := fun p => h p p

theorem Asides.ite {α : Type} {c : Prop} [Decidable c] {x y : PaxosM α} (hx : Asides x)
    (hy : Asides y) : Asides (if c then x else y) := by
  split
  · exact hx
  · exact hy

theorem Asides.modify {g : Paxos → Paxos} (h : ∀ p, Meanwhile p (g p)) :
    Asides (Handler.modify g) := by
  intro p a q o hx
  cases hx
  exact ⟨h p, by simp⟩

/-- An execution may end the firing. -/
theorem exec_asides {k : K} : Asides (exec k e) := by
  refine Asides.read fun p => Asides.bind (Asides.of_frames ?_) fun _ =>
    Asides.bind (Asides.ite (Asides.modify ?_) (.of_frames (Frames.pure _))) fun _ =>
      .of_frames (Frames.bind execUp_unasked fun _ => Frames.when updatePage_unasked)
  · exact Frames.ite (Frames.pure _) (Frames.fail _)
  · intro q
    exact ⟨.inl rfl, rfl, rfl, fun _ h => h, fun h => h⟩

theorem learnCatchupRpl_asides {m : MsgCatchupRpl} : Asides (learnCatchupRpl m e) := by
  refine Asides.read fun p => Asides.ite ?_ (.of_frames (Frames.pure _))
  refine Asides.bind (.of_frames paxosValidate_unasked) fun b => Asides.ite
    (.of_frames (Frames.pure _)) ?_
  exact Asides.bind (.of_frames (Frames.modify fun _ => rfl)) fun _ =>
    Asides.bind exec_asides fun _ => .of_frames (Frames.pure _)

theorem catchupFinish_asides : Asides catchupFinish := by
  refine Asides.bind (Asides.modify fun p => ?_) fun _ => .of_frames ?_
  · exact ⟨.inl rfl, rfl, rfl, fun _ h => h, fun h => h⟩
  · refine Frames.read fun _ => Frames.each fun j => Frames.read fun _ =>
      Frames.ite (Frames.pure _) (Frames.bind (Frames.modify ?_) fun _ => paxosSend_unasked rfl)
    intro p
    unfold firingView Paxos.setServer
    congr 4
    funext i
    by_cases hi : i = j
    · simp [hi]
    · simp [Function.update_of_ne hi]

theorem paxosSend_active {j : ℕ} {m : Msg} (h : (p.pServer j).sActive = true) :
    paxosSend j m p = ⟨.ok (), p, [.send j m]⟩ := by
  unfold paxosSend Handler.when
  rw [read_bind, if_pos h]
  rfl

/-- `CatchupFire` ends the firing, or sends one request to an active server and
the firing is up to its end. -/
theorem catchupFire_run (hactive : (p.pServer p.pCatchupServer).sActive = true)
    (hconn : ∀ j, (p.pServer j).sConnected = true → (p.pServer j).sActive = true)
    {seq : UInt32} (hseq : seq = if p.pIssuedLast ≠ 0 then p.pIssuedSeq + 1 else p.pNextDecide) :
    (∃ t, catchupFire e p = ⟨.ok (), t, []⟩ ∧ Meanwhile p t ∧ t.pIssuedLast = 0) ∨
    cmp32 seq p.pCatchupNextDecide < 0 ∧ ∃ t dst r, catchupFire e p =
        ⟨.ok (), t, [.send dst (.catchupReq r)]⟩ ∧ r.cSeqFrom = seq ∧
      r.cSeqTo = seq + UInt32.ofInt (min (cmp32 p.pCatchupNextDecide seq) paxosFireMax) - 1 ∧
      t.pIssuedSeq = r.cSeqTo ∧ t.pCatchupNextDecide = p.pCatchupNextDecide ∧
      (t.pServer t.pCatchupServer).sActive = true ∧
      ∀ j, (t.pServer j).sConnected = true → (t.pServer j).sActive = true := by
  unfold catchupFire
  rw [read_bind]
  simp only []
  rw [← hseq]
  by_cases hdone : 0 ≤ cmp32 seq p.pCatchupNextDecide
  · rw [if_pos hdone]
    exact .inl ⟨_, rfl, ⟨.inl rfl, rfl, rfl, fun _ h => h, fun h => h⟩, rfl⟩
  rw [if_neg hdone, modify_bind]
  have hsame : ∀ (f : Server → Server) (j : ℕ), (∀ s, (f s).sActive = s.sActive ∧
      (f s).sConnected = s.sConnected) →
      ((p.setServer p.pCatchupServer f).pServer j).sActive = (p.pServer j).sActive ∧
      ((p.setServer p.pCatchupServer f).pServer j).sConnected = (p.pServer j).sConnected := by
    intro f j hf
    unfold Paxos.setServer
    by_cases hj : j = p.pCatchupServer
    · simp [hj, hf]
    · simp [Function.update_of_ne hj]
  have hat := fun j => hsame (fun s => { s with sIssuedTime := e.now }) j fun _ => ⟨rfl, rfl⟩
  refine .inr ⟨not_le.mp hdone, _, p.pCatchupServer, _, paxosSend_active ?_, rfl, rfl, rfl, rfl, ?_, ?_⟩
  · exact (hat _).1.trans hactive
  · exact (hat _).1.trans hactive
  · intro j hj
    exact (hat j).1.trans (hconn j ((hat j).2.symm.trans hj))

end Handlers

/-! ### What the steps keep -/

/-- The firings are in rows, and one under way has got to `p_IssuedSeq` and asks
an active server. -/
structure CatchupRun.Inv (s : CatchupRun) : Prop where
  sound : ∀ f ∈ s.firings, f.Sound
  connected : ∀ j, (s.paxos.pServer j).sConnected = true → (s.paxos.pServer j).sActive = true
  under : s.paxos.pIssuedLast ≠ 0 → (s.paxos.pServer s.paxos.pCatchupServer).sActive = true ∧
    ∃ f fs, s.firings = f :: fs ∧ s.paxos.pIssuedSeq + 1 = f.start + f.numbers.length.toUInt32

section Keep
variable {s : CatchupRun} {e : Env} {q : Paxos}

theorem CatchupRun.Inv.meanwhile (hs : s.Inv) (h : Meanwhile s.paxos q) :
    CatchupRun.Inv { s with paxos := q } := by
  refine ⟨hs.sound, h.connected hs.connected, ?_⟩
  intro hissued
  change q.pIssuedLast ≠ 0 at hissued
  rcases h.issued with hzero | ⟨hsame, -⟩
  · exact absurd hzero hissued
  · rw [hsame] at hissued
    obtain ⟨hactive, hfiring⟩ := hs.under hissued
    change (q.pServer q.pCatchupServer).sActive = true ∧ ∃ f fs, _ ∧ q.pIssuedSeq + 1 = _
    rw [h.server, h.seq]
    exact ⟨h.active _ hactive, hfiring⟩

theorem record_nil (b : Bool) (start : UInt32) (fs : List Firing) : record b start [] fs = fs := by
  cases fs with
  | nil => rfl
  | cons f fs => rfl

theorem record_begin (start : UInt32) (i : Issue) (fs : List Firing) :
    record true start [i] fs = ⟨start, [i]⟩ :: fs := by
  cases fs with
  | nil => rfl
  | cons f fs => rfl

theorem record_more (start : UInt32) (i : Issue) (f : Firing) (fs : List Firing) :
    record false start [i] (f :: fs) = { f with issues := f.issues ++ [i] } :: fs := rfl

theorem filterMap_unasked {o : List Out} (h : ∀ x ∈ o, x.Unasked) :
    o.filterMap Out.catchupReq? = [] := by
  rw [List.filterMap_eq_nil_iff]
  exact h

/-- A firing of one request. -/
theorem firing_single {i : Issue} {start : UInt32} (hi : i.Sound) (hfrom : i.req.cSeqFrom = start) :
    Firing.Sound ⟨start, [i]⟩ := by
  have hnum : Firing.numbers ⟨start, [i]⟩ = i.req.numbers := List.append_nil _
  refine ⟨?_, ?_⟩
  · intro j hj
    rw [List.mem_singleton.mp hj]
    exact hi
  · rw [hnum]
    unfold MsgCatchupReq.numbers
    rw [List.length_map, List.length_range, hfrom]

/-- A request that starts where the firing ended. -/
theorem firing_append {f : Firing} {i : Issue} (hf : f.Sound) (hi : i.Sound)
    (hfrom : i.req.cSeqFrom = f.start + f.numbers.length.toUInt32) :
    Firing.Sound { f with issues := f.issues ++ [i] } := by
  have hnum : Firing.numbers { f with issues := f.issues ++ [i] } = f.numbers ++ i.req.numbers := by
    unfold Firing.numbers
    rw [List.flatMap_append, List.flatMap_singleton]
  refine ⟨?_, ?_⟩
  · intro j hj
    rcases List.mem_append.mp hj with hj | hj
    · exact hf.issue j hj
    · rw [List.mem_singleton.mp hj]
      exact hi
  · rw [hnum, List.length_append, List.range_add, List.map_append, ← hf.row, List.map_map]
    congr 1
    unfold MsgCatchupReq.numbers
    rw [List.length_map, List.length_range, hfrom]
    refine List.map_congr_left fun n _ => ?_
    change _ + n.toUInt32 = f.start + (_ + n).toUInt32
    rw [toUInt32_add, UInt32.add_assoc]

/-- `CatchupFire` in the middle of a handler that has not asked before. -/
theorem CatchupRun.Inv.fire (hs : s.Inv) {u t : Paxos} {o₁ o₂ : List Out} {begins : Bool}
    (ho₁ : ∀ x ∈ o₁, x.Unasked) (hrun : catchupFire e u = ⟨.ok (), t, o₂⟩)
    (hactive : (u.pServer u.pCatchupServer).sActive = true)
    (hconn : ∀ j, (u.pServer j).sConnected = true → (u.pServer j).sActive = true)
    {seq : UInt32} (hseq : seq = if u.pIssuedLast ≠ 0 then u.pIssuedSeq + 1 else u.pNextDecide)
    (hbegin : if begins then u.pIssuedLast = 0 ∧ u.pNextDecide = s.paxos.pNextDecide
      else u.pIssuedLast ≠ 0 ∧ s.paxos.pIssuedLast ≠ 0 ∧ u.pIssuedSeq = s.paxos.pIssuedSeq)
    (hapart : u.pCatchupNextDecide - seq ≠ 0x80000000) :
    CatchupRun.Inv ⟨t, record begins s.paxos.pNextDecide
      (((o₁ ++ o₂).filterMap Out.catchupReq?).map fun r => ⟨r, t.pCatchupNextDecide⟩) s.firings⟩ := by
  rw [List.filterMap_append, filterMap_unasked ho₁, List.nil_append]
  rcases catchupFire_run (e := e) hactive hconn hseq with ⟨t', ht, hm, hzero⟩ |
    ⟨hlt, t', dst, r, ht, hfrom, hto, hissued, htarget, hact, hcon⟩
  · cases hrun.symm.trans ht
    change CatchupRun.Inv ⟨t, record begins s.paxos.pNextDecide [] s.firings⟩
    rw [record_nil]
    refine ⟨hs.sound, hm.connected hconn, ?_⟩
    intro hne
    exact absurd hzero hne
  · cases hrun.symm.trans ht
    obtain ⟨hsound, hend⟩ := issue_sound hlt hapart hfrom hto
    rw [← htarget] at hsound
    rw [← hissued] at hend
    change CatchupRun.Inv ⟨t, record begins s.paxos.pNextDecide [⟨r, t.pCatchupNextDecide⟩] s.firings⟩
    cases begins with
    | true =>
        obtain ⟨hzero, hnext⟩ := hbegin
        rw [if_neg (not_not.mpr hzero), hnext] at hseq
        rw [record_begin]
        refine ⟨?_, hcon, fun _ => ⟨hact, _, _, rfl, ?_⟩⟩
        · intro f hf
          rcases List.mem_cons.mp hf with hf | hf
          · rw [hf]
            exact firing_single hsound (hfrom.trans hseq)
          · exact hs.sound f hf
        · rw [← hseq]
          exact hend.trans (by simp [Firing.numbers])
    | false =>
        obtain ⟨hne, hissued', hsame⟩ := hbegin
        obtain ⟨-, f, fs, hfirings, hlast⟩ := hs.under hissued'
        rw [if_pos hne, hsame, hlast] at hseq
        rw [hfirings, record_more]
        refine ⟨?_, hcon, fun _ => ⟨hact, _, _, rfl, ?_⟩⟩
        · intro g hg
          rcases List.mem_cons.mp hg with hg | hg
          · rw [hg]
            exact firing_append (hs.sound f (by simp [hfirings])) hsound (hfrom.trans hseq)
          · exact hs.sound g (by simp [hfirings, hg])
        · change t.pIssuedSeq + 1 = f.start + _
          rw [hend, hseq, UInt32.add_assoc, ← toUInt32_add]
          simp [Firing.numbers]

theorem CatchupRun.after_ok {begins : Bool} {x : PaxosM Unit} {t : CatchupRun}
    (h : s.after begins x = .ok t) : ∃ q o, x s.paxos = ⟨.ok (), q, o⟩ ∧
      t = ⟨q, record begins s.paxos.pNextDecide
        ((o.filterMap Out.catchupReq?).map fun r => ⟨r, q.pCatchupNextDecide⟩) s.firings⟩ := by
  unfold CatchupRun.after at h
  cases hx : x s.paxos with
  | mk val q o =>
      rw [hx] at h
      cases val with
      | error f => cases h
      | ok a =>
          cases h
          exact ⟨q, o, rfl, rfl⟩

theorem CatchupRun.Inv.aside (hs : s.Inv) {begins : Bool} {x : PaxosM Unit} (hx : Asides x)
    {t : CatchupRun} (ht : s.after begins x = .ok t) : t.Inv := by
  obtain ⟨q, o, hrun, rfl⟩ := CatchupRun.after_ok ht
  obtain ⟨hm, ho⟩ := hx _ _ _ _ hrun
  rw [filterMap_unasked ho, List.map_nil, record_nil]
  exact hs.meanwhile hm

theorem expireCatchup_asides : Asides (expireCatchup e) := by
  refine Asides.read fun p => Asides.ite (Asides.modify fun q => ?_) (.of_frames (Frames.pure _))
  have hat : ∀ j, (if j < q.pMax then { q.pServer j with sIssuedTime := 0 } else q.pServer j).sActive =
      (q.pServer j).sActive ∧
      (if j < q.pMax then { q.pServer j with sIssuedTime := 0 } else q.pServer j).sConnected =
        (q.pServer j).sConnected := by
    intro j
    split <;> exact ⟨rfl, rfl⟩
  refine ⟨.inl rfl, rfl, rfl, ?_, ?_⟩
  · intro j hj
    exact (hat j).1.trans hj
  · intro hq j hj
    exact (hat j).1.trans (hq j ((hat j).2.symm.trans hj))

theorem CatchupRun.Inv.request (hs : s.Inv) {j : ℕ} {nd : UInt32}
    (hc : s.Apart (.request j nd, e)) {t : CatchupRun}
    (ht : s.step (.request j nd, e) = .ok t) : t.Inv := by
  obtain ⟨q, o, hrun, rfl⟩ := CatchupRun.after_ok ht
  have hkeep : CatchupRun.Inv ⟨s.paxos, record (idle s.paxos e) s.paxos.pNextDecide
      ((([] : List Out).filterMap Out.catchupReq?).map
        fun r => ⟨r, s.paxos.pCatchupNextDecide⟩) s.firings⟩ := by
    rw [List.filterMap_nil, List.map_nil, record_nil]
    exact hs
  unfold catchupRequest at hrun
  rw [read_bind] at hrun
  by_cases hstop : s.paxos.pCatchupStop = true
  · rw [if_pos hstop] at hrun
    cases hrun
    exact hkeep
  rw [if_neg hstop] at hrun
  by_cases hconn : (s.paxos.pServer j).sConnected = false
  · rw [if_pos hconn] at hrun
    cases hrun
    exact hkeep
  rw [if_neg hconn] at hrun
  have hc := hc (Bool.eq_false_iff.mpr hstop) (Bool.not_eq_false _ ▸ hconn)
  have hactive := hs.connected j (Bool.not_eq_false _ ▸ hconn)
  have hnil : ∀ x ∈ ([] : List Out), x.Unasked := by simp
  by_cases hissued : s.paxos.pIssuedLast ≠ 0
  swap
  · -- no firing is under way
    rw [if_neg hissued, modify_bind] at hrun
    have hidle : idle s.paxos e = true := decide_eq_true (.inl (not_not.mp hissued))
    rw [if_pos hidle] at hc
    rw [hidle]
    exact hs.fire hnil hrun hactive hs.connected (if_neg hissued).symm
      ⟨not_not.mp hissued, rfl⟩ hc
  rw [if_pos hissued] at hrun
  by_cases hlate : s.paxos.pIssuedLast < e.time
  · rw [if_pos hlate, modify_bind] at hrun
    have hidle : idle s.paxos e = true := decide_eq_true (.inr hlate)
    rw [if_pos hidle] at hc
    rw [hidle]
    exact hs.fire hnil hrun hactive hs.connected (if_neg (not_not.mpr rfl)).symm ⟨rfl, rfl⟩ hc
  rw [if_neg hlate] at hrun
  have hidle : idle s.paxos e = false := decide_eq_false (not_or.mpr ⟨hissued, hlate⟩)
  rw [if_neg (by rw [hidle]; decide)] at hc
  by_cases hnd : 0 < cmp32 nd s.paxos.pCatchupNextDecide
  swap
  · rw [if_neg hnd] at hrun
    cases hrun
    exact hkeep
  rw [if_pos hnd, modify_bind] at hrun
  unfold Handler.when at hrun
  by_cases htime : (s.paxos.pServer j).sIssuedTime = 0
  · rw [if_pos htime] at hrun
    rw [hidle]
    exact hs.fire hnil hrun hactive hs.connected (if_pos hissued).symm ⟨hissued, hissued, rfl⟩
      (hc hnd htime)
  · -- the target alone moves
    rw [if_neg htime] at hrun
    cases hrun
    rw [List.filterMap_nil, List.map_nil, record_nil]
    exact ⟨hs.sound, hs.connected, fun _ => ⟨hactive, (hs.under hissued).2⟩⟩

/-- Where a reply goes on with the firing, nothing has moved it. -/
theorem takeCatchupRpl_run {m : MsgCatchupRpl} {p t : Paxos} {o : List Out}
    (h : takeCatchupRpl m e p = ⟨.ok (), t, o⟩) :
    (Meanwhile p t ∧ ∀ x ∈ o, x.Unasked) ∨
    ∃ u o₁ o₂, Meanwhile p u ∧ (∀ x ∈ o₁, x.Unasked) ∧ u.pIssuedLast ≠ 0 ∧ m.cSeq = u.pIssuedSeq ∧
      catchupFire e u = ⟨.ok (), t, o₂⟩ ∧ o = o₁ ++ o₂ := by
  obtain ⟨b, u, o₁, o₂, hlearn, hrest, rfl⟩ := bind_ok h
  obtain ⟨hm, ho₁⟩ := learnCatchupRpl_asides _ _ _ _ hlearn
  have haside : ∀ x : PaxosM Unit, Asides x → x u = ⟨.ok (), t, o₂⟩ →
      Meanwhile p t ∧ ∀ y ∈ o₁ ++ o₂, y.Unasked := by
    intro x hx hrun
    obtain ⟨hm', ho₂⟩ := hx _ _ _ _ hrun
    refine ⟨hm.trans hm', ?_⟩
    intro y hy
    rcases List.mem_append.mp hy with hy | hy
    · exact ho₁ y hy
    · exact ho₂ y hy
  cases b with
  | true => exact .inl (haside _ (.of_frames (Frames.pure ())) hrest)
  | false =>
      change (if 0 ≤ cmp32 m.cSeq (u.pCatchupNextDecide - 1) then catchupFinish else
        when (u.pIssuedLast ≠ 0 ∧ cmp32 m.cSeq u.pIssuedSeq = 0) (catchupFire e)) u = _ at hrest
      by_cases hend : 0 ≤ cmp32 m.cSeq (u.pCatchupNextDecide - 1)
      · rw [if_pos hend] at hrest
        exact .inl (haside _ catchupFinish_asides hrest)
      rw [if_neg hend] at hrest
      unfold Handler.when at hrest
      by_cases hgo : u.pIssuedLast ≠ 0 ∧ cmp32 m.cSeq u.pIssuedSeq = 0
      · rw [if_pos hgo] at hrest
        exact .inr ⟨u, o₁, o₂, hm, ho₁, hgo.1, cmp32_eq_zero_iff.mp hgo.2, hrest, rfl⟩
      · rw [if_neg hgo] at hrest
        exact .inl (haside _ (.of_frames (Frames.pure ())) hrest)

theorem CatchupRun.Inv.reply (hs : s.Inv) {fr : ℕ} {m : MsgCatchupRpl}
    (hc : s.Apart (.reply fr m, e)) {t : CatchupRun}
    (ht : s.step (.reply fr m, e) = .ok t) : t.Inv := by
  have htake : ∀ {t}, s.after (s.paxos.pIssuedLast = 0) (takeCatchupRpl m e) = .ok t → t.Inv := by
    intro t ht
    obtain ⟨q, o, hrun, rfl⟩ := CatchupRun.after_ok ht
    rcases takeCatchupRpl_run hrun with ⟨hm, ho⟩ | ⟨u, o₁, o₂, hm, ho₁, hissued, hseq, hfire, rfl⟩
    · rw [filterMap_unasked ho, List.map_nil, record_nil]
      exact hs.meanwhile hm
    · rcases hm.issued with hzero | ⟨hsame, htarget⟩
      · exact absurd hzero hissued
      have hissued' : s.paxos.pIssuedLast ≠ 0 := hsame ▸ hissued
      rw [decide_eq_false hissued']
      refine hs.fire ho₁ hfire ?_ (hm.connected hs.connected) (if_pos hissued).symm
        ⟨hissued, hissued', hm.seq⟩ ?_
      · rw [hm.server]
        exact hm.active _ (hs.under hissued').1
      · rw [htarget, hm.seq]
        exact hc hissued' (hseq.trans hm.seq)
  have hpure : ∀ {t}, s.after (s.paxos.pIssuedLast = 0) (pure ()) = .ok t → t.Inv :=
    hs.aside (.of_frames (Frames.pure _))
  have hstep : s.step (.reply fr m, e) =
      s.after (s.paxos.pIssuedLast = 0) (recvCatchupRpl fr m e) := rfl
  rw [hstep] at ht
  unfold CatchupRun.after recvCatchupRpl at ht
  rw [read_bind] at ht
  by_cases htrue : m.cTrue = true
  · rw [if_pos htrue] at ht
    exact htake ht
  rw [if_neg htrue] at ht
  by_cases hother : ∃ j ∈ List.range s.paxos.pMaximum, j ≠ fr ∧ (s.paxos.pServer j).sIssuedTime ≠ 0
  · rw [if_pos hother] at ht
    exact hpure ht
  rw [if_neg hother] at ht
  by_cases hgone : cmp32 s.paxos.pNextDecide m.cSeq ≤ 0
  · rw [if_pos hgone] at ht
    cases ht
  · rw [if_neg hgone] at ht
    exact htake ht

theorem catchupStep_inv {i : CatchupOp × Env} {t : CatchupRun} (hs : s.Inv) (hc : s.Apart i)
    (ht : s.step i = .ok t) : t.Inv := by
  obtain ⟨op, e⟩ := i
  cases op with
  | request j nd => exact hs.request hc ht
  | reply fr m => exact hs.reply hc ht
  | expire => exact hs.aside expireCatchup_asides ht
  | elsewhere x =>
      cases ht
      exact hs.meanwhile (x.keeps _)

end Keep

/-- A server that is not asking and is connected to active peers only. -/
structure Paxos.AtRest (p : Paxos) : Prop where
  issued : p.pIssuedLast = 0
  connected : ∀ j, (p.pServer j).sConnected = true → (p.pServer j).sActive = true

/-- In every run the firings ask for numbers in a row from the next decision at
their beginning, a request for at most `PAXOS_FIRE_MAX` of them, all before the
target. -/
theorem catchup_firings_sound {p : Paxos} (hp : p.AtRest) (ops : List (CatchupOp × Env))
    (hops : Along CatchupRun.step CatchupRun.Apart { paxos := p } ops) {s : CatchupRun}
    (hs : run CatchupRun.step { paxos := p } ops = .ok s) : ∀ f ∈ s.firings, f.Sound := by
  have hstart : CatchupRun.Inv { paxos := p } :=
    ⟨by simp, hp.connected, fun h => absurd hp.issued h⟩
  have hinv : s.Inv := run_invariant (fun _ _ _ => catchupStep_inv) hstart hops hs
  exact hinv.sound

/-- A server with one connected peer. -/
def onePeer : Paxos where
  pMyId := 0
  pMax := 3
  pMaximum := 3
  pServer := fun j => if j = 1 then { sActive := true, sConnected := true } else {}
  pGaps := Hash.init 11 UInt32.toNat

theorem onePeer_atRest : onePeer.AtRest := by
  refine ⟨rfl, ?_⟩
  intro j hj
  by_cases h1 : j = 1
  · rw [h1]
    rfl
  · simp [onePeer, h1] at hj

/-- A catch-up of 25 numbers in two requests. -/
theorem catchup_firings_sound_two :
    ∃ s, run CatchupRun.step { paxos := onePeer }
        [(.request 1 25, { now := 10 ^ 11 }), (.reply 1 { cTrue := true, cSeq := 19 }, { now := 10 ^ 11 })]
        = .ok s ∧ s.firings.map (fun f => f.issues.length) = [2] ∧ ∀ f ∈ s.firings, f.Sound := by
  have hops : Along CatchupRun.step CatchupRun.Apart { paxos := onePeer }
      [(.request 1 25, { now := 10 ^ 11 }),
        (.reply 1 { cTrue := true, cSeq := 19 }, { now := 10 ^ 11 })] := by
    refine ⟨?_, fun s hs => ⟨?_, fun _ _ => trivial⟩⟩
    · intro _ _
      decide
    · cases hs
      intro _ _
      decide
  exact ⟨_, rfl, rfl, catchup_firings_sound onePeer_atRest _ hops rfl⟩

theorem numbers_length (r : MsgCatchupReq) :
    r.numbers.length = (r.cSeqTo - r.cSeqFrom).toNat + 1 := by
  unfold MsgCatchupReq.numbers
  rw [List.length_map, List.length_range]

/-- A peer that is half the range ahead is asked for all of it at once. -/
theorem catchup_firing_unbounded : ¬ ∀ (p : Paxos) (_ : p.AtRest) (ops : List (CatchupOp × Env))
    (s : CatchupRun), run CatchupRun.step { paxos := p } ops = .ok s → ∀ f ∈ s.firings, f.Sound := by
  intro h
  have hsound := h onePeer onePeer_atRest [(.request 1 0x80000000, { now := 10 ^ 11 })] _ rfl _
    (List.mem_singleton.mpr rfl)
  have hfew := (hsound.issue _ (List.mem_singleton.mpr rfl)).few
  rw [numbers_length] at hfew
  exact absurd hfew (by decide)

end PaxosSolutions
