import PaxosSolutions.Session.Snapshot

/-!
# What a snapshot brings back

The reader finds what the writer wrote as long as the counts of an accept
object are those of its lists. The reset before a reuse clears the counts and
leaves the lists.
-/
namespace PaxosSolutions
open Lib NWGadget

/-- The counts that the reader goes by are those of the lists the writer goes along. -/
structure PaxosAccept.Counted (a : PaxosAccept) : Prop where
  replies : a.aRpls.rCnt = a.aRpls.rMsg.length
  events : 0 ≤ a.aEvents.eCnt
  raised : 0 < a.aEvents.eCnt ↔ a.aEvents.ePRaised.isSome

/-- A message as it is read: its pieces are in the reader's memory. -/
def msgRestored (m : NWGadget.Msg) : NWGadget.Msg :=
  m.mAVec.foldl (fun m v => m.add { v with mine := true }) { mSize := m.mSize }

/-- An accept object as it is read. -/
def PaxosAccept.restored (a : PaxosAccept) : PaxosAccept :=
  a.image.restore (a.aRpls.rMsg.map msgRestored) (a.aEvents.ePRaised.map msgRestored)

theorem foldl_add (vs : List MsgVec) (m : NWGadget.Msg) :
    (vs.foldl (fun m v => m.add { v with mine := true }) m).mAVec =
      m.mAVec ++ vs.map fun v => { v with mine := true } := by
  induction vs generalizing m with
  | nil => simp
  | cons v vs ih =>
      rw [List.foldl_cons, ih]
      simp [NWGadget.Msg.add]

theorem msgRestored_mAVec (m : NWGadget.Msg) :
    (msgRestored m).mAVec = m.mAVec.map fun v => { v with mine := true } := by
  unfold msgRestored
  rw [foldl_add]
  rfl

/-! ### Reading what was written -/

theorem vecsUnmarshal_marshal (vs : List MsgVec) (m : NWGadget.Msg) (fs : List Frame) :
    vecsUnmarshal vs.length m (vs.flatMap vecMarshal ++ fs) =
      .ok (vs.foldl (fun m v => m.add { v with mine := true }) m, fs) := by
  induction vs generalizing m with
  | nil => rfl
  | cons v vs ih =>
      rw [List.length_cons, List.flatMap_cons, List.append_assoc]
      change (if v.vVoid.length = v.vVoid.length then _ else _) = _
      rw [if_pos rfl]
      exact ih _

theorem msgUnmarshal_marshal (m : NWGadget.Msg) (fs : List Frame) :
    msgUnmarshal (msgMarshal m ++ fs) = .ok (msgRestored m, fs) :=
  vecsUnmarshal_marshal m.mAVec { mSize := m.mSize } fs

theorem msgsUnmarshal_marshal (ms : List NWGadget.Msg) (fs : List Frame) :
    msgsUnmarshal ms.length (ms.flatMap msgMarshal ++ fs) = .ok (ms.map msgRestored, fs) := by
  induction ms with
  | nil => rfl
  | cons m ms ih =>
      rw [List.length_cons, List.flatMap_cons, List.append_assoc]
      unfold msgsUnmarshal
      rw [msgUnmarshal_marshal]
      simp only [bind, Except.bind]
      rw [ih]
      rfl

theorem raisedUnmarshal_marshal {a : PaxosAccept} (h : a.Counted) (fs : List Frame) :
    raisedUnmarshal a.image (a.aEvents.ePRaised.elim [] msgMarshal ++ fs) =
      .ok (a.aEvents.ePRaised.map msgRestored, fs) := by
  have hcnt : a.image.eCnt = a.aEvents.eCnt := rfl
  have hraised : a.image.raised = a.aEvents.ePRaised.isSome := rfl
  unfold raisedUnmarshal
  rw [hcnt, hraised]
  cases hp : a.aEvents.ePRaised with
  | none =>
      have hzero : ¬ 0 < a.aEvents.eCnt := by
        intro hpos
        have hsome := h.raised.mp hpos
        rw [hp] at hsome
        cases hsome
      rw [if_neg hzero]
      rfl
  | some m =>
      have hpos : 0 < a.aEvents.eCnt := h.raised.mpr (by rw [hp]; rfl)
      rw [if_pos hpos]
      change (msgUnmarshal (msgMarshal m ++ fs)).map _ = _
      rw [msgUnmarshal_marshal]
      rfl

section Accepts
variable {τ : Type} {adaptorMarshal : τ → List Frame}
  {adaptorUnmarshal : List Frame → Except SnapFault (τ × List Frame)}
  (hinverse : ∀ t fs, adaptorUnmarshal (adaptorMarshal t ++ fs) = .ok (t, fs))
include hinverse

/-- What the reader has after one more object. -/
def Unmarshalled.put (u : Unmarshalled τ) (t : τ) (a : PaxosAccept) : Unmarshalled τ where
  cAccept := { u.cAccept with
    geLnk := u.cAccept.geLnk ++ [⟨a.aId.toSessionId, 1, a.restored⟩] }
  tags := u.tags ++ if a.aOpened = .binded then [] else [(a.aId.toSessionId, t)]

theorem acceptUnmarshal_marshal {u : Unmarshalled τ} {a : PaxosAccept} (t : τ) (h : a.Counted)
    (hnew : u.cAccept.find a.aId.toSessionId = none)
    (hroom : u.cAccept.geLnk.length < u.cAccept.geMaxCnt) (fs : List Frame) :
    ∃ gs, acceptMarshal adaptorMarshal t a ++ fs = .tag snapAccept :: gs ∧
      acceptUnmarshal adaptorUnmarshal u gs = .ok (u.put t a, fs) := by
  refine ⟨.accept a.image :: (a.aRpls.rMsg.flatMap msgMarshal ++
    (a.aEvents.ePRaised.elim [] msgMarshal ++
      ((if a.aOpened = .binded then [] else adaptorMarshal t) ++ fs))), by simp [acceptMarshal], ?_⟩
  have hget : paxosAcceptGet a.image.aId true u.cAccept = .ok { u.cAccept with
      geLnk := u.cAccept.geLnk ++ [⟨a.aId.toSessionId, 1, { aId := a.aId }⟩] } :=
    GElmCtrl.get_new hnew hroom
  have hput := GElmCtrl.change_new (n := 1) (v := ({ aId := a.aId } : PaxosAccept))
    (g := fun _ => a.restored) u.cAccept (GElmCtrl.notMem_of_find hnew)
  have hcnt : a.image.rCnt.toNat = a.aRpls.rMsg.length := by
    change a.aRpls.rCnt.toNat = _
    rw [h.replies]
    rfl
  unfold acceptUnmarshal
  simp only
  rw [hget]
  simp only [bind, Except.bind]
  rw [hcnt, msgsUnmarshal_marshal]
  simp only
  rw [raisedUnmarshal_marshal h]
  simp only
  change (if a.aOpened = .binded then _ else _) = _
  by_cases hopen : a.aOpened = .binded
  · rw [if_pos hopen, if_pos hopen]
    unfold Unmarshalled.put
    rw [if_pos hopen, List.append_nil]
    exact congrArg (fun c => Except.ok ((⟨c, u.tags⟩ : Unmarshalled τ), fs)) hput
  · rw [if_neg hopen, if_neg hopen, hinverse]
    unfold Unmarshalled.put
    rw [if_neg hopen]
    exact congrArg (fun c => Except.ok ((⟨c, u.tags ++ [(a.aId.toSessionId, t)]⟩ :
      Unmarshalled τ), fs)) hput

/-- What the reader has after a row of objects. -/
def Unmarshalled.putAll (tags : SessionId → τ) (es : List (GElm SessionId PaxosAccept))
    (u : Unmarshalled τ) : Unmarshalled τ :=
  es.foldl (fun u e => u.put (tags e.eKey) e.val) u

theorem acceptorUnmarshal_marshal (tags : SessionId → τ) (es : List (GElm SessionId PaxosAccept))
    {n : ℕ} {u : Unmarshalled τ} (hn : es.length ≤ n)
    (hkey : ∀ e ∈ es, e.val.aId.toSessionId = e.eKey) (hcount : ∀ e ∈ es, e.val.Counted)
    (hnodup : (es.map (·.eKey)).Nodup) (hnew : ∀ e ∈ es, u.cAccept.find e.eKey = none)
    (hroom : u.cAccept.geLnk.length + es.length ≤ u.cAccept.geMaxCnt) (fs : List Frame) :
    acceptorUnmarshal adaptorUnmarshal n u
      ((es.flatMap fun e => acceptMarshal adaptorMarshal (tags e.eKey) e.val) ++ .stop :: fs) =
      .ok (u.putAll tags es, .stop :: fs) := by
  induction es generalizing n u with
  | nil =>
      unfold acceptorUnmarshal
      rfl
  | cons e es ih =>
      obtain ⟨he, hnodup⟩ := List.nodup_cons.mp hnodup
      have hid := hkey e List.mem_cons_self
      cases n with
      | zero => simp at hn
      | succ n =>
          simp only [List.length_cons] at hn hroom
          obtain ⟨gs, hgs, hread⟩ := acceptUnmarshal_marshal hinverse (tags e.eKey)
            (hcount e List.mem_cons_self) (hid ▸ hnew e List.mem_cons_self) (by omega)
            ((es.flatMap fun e => acceptMarshal adaptorMarshal (tags e.eKey) e.val) ++ .stop :: fs)
          rw [List.flatMap_cons, List.append_assoc, hgs]
          unfold acceptorUnmarshal
          rw [if_pos rfl, hread]
          apply ih (by omega) (fun d hd => hkey d (List.mem_cons_of_mem _ hd))
            (fun d hd => hcount d (List.mem_cons_of_mem _ hd)) hnodup
          · intro d hd
            have hne : d.eKey ≠ e.eKey := by
              intro h
              exact he (List.mem_map.mpr ⟨d, hd, h⟩)
            have hfind := hnew d (List.mem_cons_of_mem _ hd)
            unfold GElmCtrl.find at hfind ⊢
            change (u.cAccept.geLnk ++ _).find? _ = none
            rw [List.find?_append, hfind]
            simp [hid, hne.symm]
          · change (u.cAccept.geLnk ++ [_]).length + es.length ≤ u.cAccept.geMaxCnt
            rw [List.length_append, List.length_singleton]
            omega

omit hinverse in
theorem putAll_geLnk (tags : SessionId → τ) (es : List (GElm SessionId PaxosAccept))
    (hkey : ∀ e ∈ es, e.val.aId.toSessionId = e.eKey) (u : Unmarshalled τ) :
    (u.putAll tags es).cAccept.geLnk =
      u.cAccept.geLnk ++ es.map fun e => ⟨e.eKey, 1, e.val.restored⟩ := by
  induction es generalizing u with
  | nil => simp [Unmarshalled.putAll]
  | cons e es ih =>
      have hput : u.putAll tags (e :: es) = (u.put (tags e.eKey) e.val).putAll tags es := rfl
      rw [hput, ih fun d hd => hkey d (List.mem_cons_of_mem _ hd)]
      simp [Unmarshalled.put, hkey e List.mem_cons_self]

end Accepts

/-- The same numbers, pending replies and raised events. The pieces of the
messages are in the reader's memory. -/
structure Restores (a b : PaxosAccept) : Prop where
  opened : b.aOpened = a.aOpened
  accepted : b.aAccepted = a.aAccepted
  counts : b.aRpls.rCnt = a.aRpls.rCnt ∧ b.aRpls.rHold = a.aRpls.rHold
  replies : b.aRpls.rMsg.map (·.mAVec) =
    a.aRpls.rMsg.map fun m => m.mAVec.map fun v => { v with mine := true }
  events : b.aEvents.eCnt = a.aEvents.eCnt ∧ b.aEvents.eOmitted = a.aEvents.eOmitted ∧
    b.aEvents.eSend = a.aEvents.eSend
  raised : b.aEvents.ePRaised.map (·.mAVec) =
    a.aEvents.ePRaised.map fun m => m.mAVec.map fun v => { v with mine := true }

theorem restored_restores (a : PaxosAccept) : Restores a a.restored := by
  have hmsg : (fun m => (msgRestored m).mAVec) =
      fun m => m.mAVec.map fun v => { v with mine := true } := by
    funext m
    exact msgRestored_mAVec m
  refine ⟨rfl, rfl, ⟨rfl, rfl⟩, ?_, ⟨rfl, rfl, rfl⟩, ?_⟩
  · change (a.aRpls.rMsg.map msgRestored).map (·.mAVec) = _
    rw [List.map_map, ← hmsg]
    rfl
  · change (a.aEvents.ePRaised.map msgRestored).map (·.mAVec) = _
    rw [Option.map_map, ← hmsg]
    rfl

/-- Every snapshot of `c` is read to its end, and brings back every session
that is written. -/
def RoundTrips {τ : Type} (adaptorMarshal : τ → List Frame)
    (adaptorUnmarshal : List Frame → Except SnapFault (τ × List Frame)) (c : AcceptCtrl) : Prop :=
  ∀ (tags : SessionId → τ) (fs : List Frame), ∀ n ≥ (marshalled c).length,
    ∃ u, acceptorUnmarshal adaptorUnmarshal n {}
        (acceptorMarshal adaptorMarshal tags c ++ .stop :: fs) = .ok (u, .stop :: fs) ∧
      ∀ e ∈ marshalled c, ∃ b, u.cAccept.val e.eKey = some b ∧ Restores e.val b

/-- What the accept objects have to be for that. -/
structure Snapshotable (c : AcceptCtrl) : Prop where
  nodup : c.Nodup
  room : c.geLnk.length ≤ 20000 ∧ c.geMaxCnt = 20000
  keyed : ∀ s a, c.val s = some a → a.aId.toSessionId = s
  counted : ∀ s a, c.val s = some a → a.Counted

theorem Snapshotable.roundTrips {τ : Type} {adaptorMarshal : τ → List Frame}
    {adaptorUnmarshal : List Frame → Except SnapFault (τ × List Frame)}
    (hinverse : ∀ t fs, adaptorUnmarshal (adaptorMarshal t ++ fs) = .ok (t, fs)) {c : AcceptCtrl}
    (hc : Snapshotable c) : RoundTrips adaptorMarshal adaptorUnmarshal c := by
  intro tags fs n hn
  have hval : ∀ e ∈ marshalled c, c.val e.eKey = some e.val := by
    intro e he
    unfold GElmCtrl.val
    rw [GElmCtrl.find_eq_some hc.nodup (List.mem_filter.mp he).1 rfl]
    rfl
  have hkey : ∀ e ∈ marshalled c, e.val.aId.toSessionId = e.eKey := fun e he =>
    hc.keyed _ _ (hval e he)
  have hnodup : ((marshalled c).map (·.eKey)).Nodup :=
    hc.nodup.sublist (List.filter_sublist.map _)
  have hroom : (marshalled c).length ≤ 20000 :=
    (List.length_filter_le _ _).trans hc.room.1
  refine ⟨({} : Unmarshalled τ).putAll tags (marshalled c), ?_, ?_⟩
  · apply acceptorUnmarshal_marshal hinverse tags (marshalled c) hn hkey _ hnodup
    · simp [GElmCtrl.find]
    · simpa using hroom
    · intro e he
      exact hc.counted _ _ (hval e he)
  · intro e he
    have hlnk := putAll_geLnk tags (marshalled c) hkey {}
    refine ⟨e.val.restored, ?_, restored_restores _⟩
    have hmem : (⟨e.eKey, 1, e.val.restored⟩ : GElm SessionId PaxosAccept) ∈
        (({} : Unmarshalled τ).putAll tags (marshalled c)).cAccept.geLnk := by
      rw [hlnk]
      exact List.mem_append_right _ (List.mem_map.mpr ⟨e, he, rfl⟩)
    unfold GElmCtrl.val
    rw [GElmCtrl.find_eq_some _ hmem rfl]
    · rfl
    · unfold GElmCtrl.Nodup
      rw [hlnk]
      simpa [Function.comp_def] using hnodup

/-! ### What happens to the accept objects -/

inductive AcceptorFault where
  | elm (e : GElmFault)
  | accept (e : AcceptFault)
deriving DecidableEq, Repr

/-- What workers, the executor and the application do. `request` is a worker's
duplicate test, `execOpen` the execution of an `OPEN` that the application
accepts with the reply that follows. -/
inductive AcceptorOp where
  | get (i : PaxosClientId) (bCreate : Bool)
  | put (s : SessionId)
  | request (h : PaxosSessionHead)
  | execOpen (h : PaxosSessionHead) (m : NWGadget.Msg)
  | acceptedStart (h : PaxosSessionHead)
  | acceptedEnd (i : PaxosClientId)
  | opened (s : SessionId) (o : PaxosAcceptOpen)
  | bind (s : SessionId) (fd : Option Fd)
  | hold (s : SessionId)
  | release (s : SessionId)
  | reply (s : SessionId) (aMaster : Bool) (m : NWGadget.Msg)
  | raise (s : SessionId) (bytes : List UInt8)
  | eventGet (s : SessionId)

/-- A thread that waits for an open session tries again later. -/
def PaxosAccept.request (h : PaxosSessionHead) (a : PaxosAccept) : Except AcceptFault PaxosAccept :=
  if a.reuses h ∧ a.aOpened ≠ .binded then .ok a else (a.isAccepted h).map (·.1)

/-- `ThreadExecute` with an `OPEN`, from the duplicate test to `PaxosAcceptedEnd`. -/
def PaxosAccept.execOpen (h : PaxosSessionHead) (m : NWGadget.Msg) (a : PaxosAccept) :
    Except AcceptFault PaxosAccept :=
  if a.reuses h ∧ a.aOpened ≠ .binded then .ok a
  else do
    let (a, n) ← a.isAccepted h
    if n ≠ 0 then .ok a
    else ({ a.acceptedSeq h with aOpened := .opened }.reply true m).acceptedEnd h.hId

/-- `f` is done to the accept object of a session, if there is one. -/
def atAccept (s : SessionId) (f : PaxosAccept → Except AcceptFault PaxosAccept) (c : AcceptCtrl) :
    Except AcceptorFault AcceptCtrl :=
  match c.val s with
  | none => .ok c
  | some a =>
      match f a with
      | .error e => .error (.accept e)
      | .ok b => .ok (c.change s fun _ => b)

def acceptorStep (head : PaxosAccept.EventHead) (c : AcceptCtrl) :
    AcceptorOp → Except AcceptorFault AcceptCtrl
  | .get i bCreate => (paxosAcceptGet i bCreate c).mapError .elm
  | .put s => (paxosAcceptPut s c).mapError .elm
  | .request h => atAccept h.hId.toSessionId (PaxosAccept.request h) c
  | .execOpen h m => atAccept h.hId.toSessionId (PaxosAccept.execOpen h m) c
  | .acceptedStart h => atAccept h.hId.toSessionId (fun a => .ok (a.acceptedSeq h)) c
  | .acceptedEnd i => atAccept i.toSessionId (PaxosAccept.acceptedEnd i) c
  | .opened s o => atAccept s (fun a => .ok { a with aOpened := o }) c
  | .bind s fd => atAccept s (fun a => .ok { a with aPFd := fd }) c
  | .hold s => atAccept s (fun a => .ok a.hold) c
  | .release s => atAccept s (fun a => .ok a.release) c
  | .reply s aMaster m => atAccept s (fun a => .ok (a.reply aMaster m)) c
  | .raise s bytes => atAccept s (PaxosAccept.eventRaise head bytes) c
  | .eventGet s => atAccept s (fun a => .ok (a.eventGet head)) c

/-- A reset finds nothing in the lists whose counts it clears, but for the
replies that the reply to an `OPEN` puts away; and an object that is taken over
for another session has no counts left. -/
def Clears (c : AcceptCtrl) : AcceptorOp → Prop
  | .get i bCreate => bCreate = true → c.find i.toSessionId = none → 20000 ≤ c.geLnk.length →
      ∀ s a, c.val s = some a → c.cnt s = 0 → a.aRpls.rCnt = 0 ∧ a.aEvents.eCnt = 0
  | .request h => ∀ a, c.val h.hId.toSessionId = some a → a.reuses h = true →
      a.aOpened = .binded → a.aRpls.rMsg = [] ∧ a.aEvents.ePRaised = none
  | .execOpen h _ => ∀ a, c.val h.hId.toSessionId = some a → a.reuses h = true →
      a.aOpened = .binded → a.aEvents.ePRaised = none ∧
        (a.aRpls.rMsg = [] ∨ PaxosAccept.isReplied h a.reuse = .ok 0)
  | _ => True

/-! ### Keeping the counts -/

section Counted
variable {a b : PaxosAccept} {h : PaxosSessionHead} {head : PaxosAccept.EventHead}

theorem PaxosAccept.Counted.congr (ha : a.Counted) (hr : b.aRpls.rCnt = a.aRpls.rCnt)
    (hm : b.aRpls.rMsg = a.aRpls.rMsg) (he : b.aEvents = a.aEvents) : b.Counted := by
  refine ⟨?_, ?_, ?_⟩
  · rw [hr, hm]
    exact ha.replies
  · rw [he]
    exact ha.events
  · rw [he]
    exact ha.raised

theorem PaxosAccept.Counted.freeReply (ha : a.Counted) : a.freeReply.Counted :=
  ⟨rfl, ha.events, ha.raised⟩

theorem PaxosAccept.Counted.replyByMsg (ha : a.Counted) (m : NWGadget.Msg) :
    (a.replyByMsg m).Counted := by
  refine ⟨?_, ha.events, ha.raised⟩
  unfold PaxosAccept.replyByMsg
  cases hh : a.aRpls.rHold with
  | true =>
      simp only [if_true, List.length_append, List.length_singleton]
      rw [ha.replies]
      rfl
  | false => rfl

theorem PaxosAccept.Counted.eventRaise (ha : a.Counted) {bytes : List UInt8}
    (h : a.eventRaise head bytes = .ok b) : b.Counted := by
  unfold PaxosAccept.eventRaise at h
  simp only at h
  split_ifs at h with hsend hmax hcnt
  · cases h
    refine ⟨ha.replies, ?_, ?_⟩
    · have := ha.events
      change 0 ≤ a.aEvents.eCnt + 1
      omega
    · have := ha.events
      change 0 < a.aEvents.eCnt + 1 ↔ _
      simp only [Option.isSome_some, iff_true]
      omega
  · cases h
    refine ⟨ha.replies, ha.events, ?_⟩
    change 0 < a.aEvents.eCnt ↔ _
    simp only [Option.isSome_some, iff_true]
    unfold PaxosAccept.eventMax at hmax
    omega
  · cases h
    have hzero : a.aEvents.eCnt = 0 := by simpa using hcnt
    refine ⟨(ha.replyByMsg _).replies, ha.events, ?_⟩
    change 0 < a.aEvents.eCnt ↔ _
    simp [hzero]

theorem PaxosAccept.eventRaise_aId {bytes : List UInt8} (h : a.eventRaise head bytes = .ok b) :
    b.aId = a.aId := by
  unfold PaxosAccept.eventRaise at h
  simp only at h
  split_ifs at h <;> cases h <;> rfl

theorem PaxosAccept.eventGet_aId : (a.eventGet head).aId = a.aId := by
  unfold PaxosAccept.eventGet
  split_ifs <;> rfl

theorem PaxosAccept.Counted.eventGet (ha : a.Counted) : (a.eventGet head).Counted := by
  unfold PaxosAccept.eventGet
  split_ifs with hcnt
  · refine ⟨(ha.replyByMsg _).replies, le_rfl, ?_⟩
    change (0 : ℤ) < 0 ↔ _
    simp
  · exact ⟨ha.replies, ha.events, ha.raised⟩

/-- The reset leaves the counts right where it finds the lists empty. -/
theorem PaxosAccept.Counted.reuse (hm : a.aRpls.rMsg = []) (he : a.aEvents.ePRaised = none) :
    a.reuse.Counted := by
  refine ⟨?_, le_rfl, ?_⟩
  · change (0 : ℤ) = (a.aRpls.rMsg.length : ℤ)
    rw [hm]
    rfl
  · change (0 : ℤ) < 0 ↔ a.aEvents.ePRaised.isSome = true
    rw [he]
    simp

theorem PaxosAccept.Counted.request (ha : a.Counted)
    (hclear : a.reuses h = true → a.aOpened = .binded →
      a.aRpls.rMsg = [] ∧ a.aEvents.ePRaised = none)
    (hb : a.request h = .ok b) : b.Counted ∧ b.aId = a.aId := by
  unfold PaxosAccept.request PaxosAccept.isAccepted at hb
  by_cases hr : a.reuses h = true
  · by_cases ho : a.aOpened = .binded
    · obtain ⟨hm, he⟩ := hclear hr ho
      rw [if_neg (by simp [ho]), if_pos hr, if_neg (by simp [ho])] at hb
      cases hn : PaxosAccept.isReplied h a.reuse with
      | error e =>
          rw [hn] at hb
          cases hb
      | ok n =>
          rw [hn] at hb
          cases hb
          exact ⟨.reuse hm he, rfl⟩
    · rw [if_pos ⟨hr, ho⟩] at hb
      cases hb
      exact ⟨ha, rfl⟩
  · rw [if_neg (by simp [hr]), if_neg hr] at hb
    cases hn : PaxosAccept.isReplied h a with
    | error e =>
        rw [hn] at hb
        cases hb
    | ok n =>
        rw [hn] at hb
        cases hb
        exact ⟨ha, rfl⟩

/-- The reply to an executed `OPEN` puts away what the reset left. -/
theorem PaxosAccept.Counted.reply_reuse {m : NWGadget.Msg} {i : PaxosClientId}
    (he : a.aEvents.ePRaised = none)
    (hb : ({ a.reuse.acceptedSeq h with aOpened := .opened }.reply true m).acceptedEnd i = .ok b) :
    b.Counted := by
  unfold PaxosAccept.acceptedEnd at hb
  split_ifs at hb
  cases hb
  refine ⟨rfl, le_rfl, ?_⟩
  change (0 : ℤ) < 0 ↔ a.aEvents.ePRaised.isSome = true
  rw [he]
  simp

theorem PaxosAccept.acceptedEnd_keeps {i : PaxosClientId} (hb : a.acceptedEnd i = .ok b) :
    b.aId = a.aId ∧ b.aRpls = a.aRpls ∧ b.aEvents = a.aEvents := by
  unfold PaxosAccept.acceptedEnd at hb
  split_ifs at hb
  cases hb
  exact ⟨rfl, rfl, rfl⟩

theorem PaxosAccept.Counted.execOpen {m : NWGadget.Msg} (ha : a.Counted)
    (hclear : a.reuses h = true → a.aOpened = .binded → a.aEvents.ePRaised = none ∧
      (a.aRpls.rMsg = [] ∨ PaxosAccept.isReplied h a.reuse = .ok 0))
    (hb : a.execOpen h m = .ok b) : b.Counted ∧ b.aId.toSessionId = a.aId.toSessionId := by
  have hopened : ∀ c : PaxosAccept, c.aId = a.aId →
      ({ c.acceptedSeq h with aOpened := .opened }.reply true m).acceptedEnd h.hId = .ok b →
      b.aId.toSessionId = a.aId.toSessionId := by
    intro c hc hb
    rw [(PaxosAccept.acceptedEnd_keeps hb).1, ← hc]
    rfl
  unfold PaxosAccept.execOpen PaxosAccept.isAccepted at hb
  by_cases hr : a.reuses h = true
  · by_cases ho : a.aOpened = .binded
    · obtain ⟨he, hm⟩ := hclear hr ho
      rw [if_neg (by simp [ho]), if_pos hr, if_neg (by simp [ho])] at hb
      cases hn : PaxosAccept.isReplied h a.reuse with
      | error e =>
          rw [hn] at hb
          cases hb
      | ok n =>
          rw [hn] at hb
          simp only [Except.map, bind, Except.bind] at hb
          split_ifs at hb with hzero
          · cases hb
            refine ⟨.reuse (hm.resolve_right ?_) he, rfl⟩
            rw [hn]
            intro h0
            cases h0
            exact hzero rfl
          · exact ⟨.reply_reuse he hb, hopened a.reuse rfl hb⟩
    · rw [if_pos ⟨hr, ho⟩] at hb
      cases hb
      exact ⟨ha, rfl⟩
  · rw [if_neg (by simp [hr]), if_neg hr] at hb
    cases hn : PaxosAccept.isReplied h a with
    | error e =>
        rw [hn] at hb
        cases hb
    | ok n =>
        rw [hn] at hb
        simp only [Except.map, bind, Except.bind] at hb
        split_ifs at hb with hzero
        · cases hb
          exact ⟨ha, rfl⟩
        · obtain ⟨-, hrpls, hevents⟩ := PaxosAccept.acceptedEnd_keeps hb
          have hreply : ({ a.acceptedSeq h with aOpened := .opened }.reply true m).Counted := by
            apply PaxosAccept.Counted.replyByMsg
            exact ⟨ha.replies, ha.events, ha.raised⟩
          exact ⟨hreply.congr (by rw [hrpls]) (by rw [hrpls]) hevents, hopened a rfl hb⟩

end Counted

section Steps
variable {c d : AcceptCtrl} {s : SessionId} {head : PaxosAccept.EventHead}

theorem atAccept_snapshotable {f : PaxosAccept → Except AcceptFault PaxosAccept}
    (hc : Snapshotable c)
    (hf : ∀ a b, c.val s = some a → a.Counted → f a = .ok b →
      b.Counted ∧ b.aId.toSessionId = a.aId.toSessionId)
    (h : atAccept s f c = .ok d) : Snapshotable d := by
  unfold atAccept at h
  cases hv : c.val s with
  | none =>
      rw [hv] at h
      cases h
      exact hc
  | some a =>
      rw [hv] at h
      cases hfa : f a with
      | error e =>
          simp only [hfa] at h
          cases h
      | ok b =>
          simp only [hfa] at h
          cases h
          obtain ⟨hb, hid⟩ := hf a b hv (hc.counted s a hv) hfa
          have hval : ∀ j v, (c.change s fun _ => b).val j = some v →
              j = s ∧ v = b ∨ c.val j = some v := by
            intro j v hj
            rw [GElmCtrl.val_change] at hj
            split_ifs at hj with hjs
            · rw [hjs, hv] at hj
              cases hj
              exact .inl ⟨hjs, rfl⟩
            · exact .inr hj
          constructor
          · exact GElmCtrl.nodup_modify (fun _ => rfl) hc.nodup
          · unfold GElmCtrl.change GElmCtrl.modify
            simpa using hc.room
          · intro j v hj
            rcases hval j v hj with ⟨rfl, rfl⟩ | hj
            · exact hid.trans (hc.keyed j a hv)
            · exact hc.keyed j v hj
          · intro j v hj
            rcases hval j v hj with ⟨rfl, rfl⟩ | hj
            · exact hb
            · exact hc.counted j v hj

theorem get_snapshotable {i : PaxosClientId} {bCreate : Bool} (hc : Snapshotable c)
    (hop : Clears c (.get i bCreate)) (h : paxosAcceptGet i bCreate c = .ok d) :
    Snapshotable d := by
  have hlen := GElmCtrl.get_length (by rw [hc.room.2]; decide)
    (by rw [hc.room.2]; exact hc.room.1) h
  -- what is not there already is new, or an object without counts is taken over
  have hval : ∀ s v, d.val s = some v →
      c.val s = some v ∨ v.aId.toSessionId = s ∧ v.Counted := by
    intro s v hv
    rcases GElmCtrl.get_val hc.nodup h hv with hv |
      ⟨rfl, rfl | ⟨hf, ⟨hb, hfull⟩, j, w, hcnt, hw, hu⟩⟩
    · exact .inl hv
    · exact .inr ⟨rfl, rfl, le_rfl, by simp [acceptFn]⟩
    · right
      obtain ⟨hr, he⟩ := hop hb hf (hc.room.2 ▸ hfull) j w hw hcnt
      obtain ⟨u, hunset, rfl⟩ := Option.map_eq_some_iff.mp hu
      unfold acceptUnset at hunset
      split_ifs at hunset
      cases hunset
      exact ⟨rfl, hr, he.ge, by simp [he]⟩
  constructor
  · exact (GElmCtrl.get_ok hc.nodup h).1
  · exact ⟨hlen.1.trans (by rw [hlen.2, hc.room.2]), hlen.2.trans hc.room.2⟩
  · intro s v hv
    rcases hval s v hv with hv | hv
    · exact hc.keyed s v hv
    · exact hv.1
  · intro s v hv
    rcases hval s v hv with hv | hv
    · exact hc.counted s v hv
    · exact hv.2

theorem put_snapshotable (hc : Snapshotable c) (h : paxosAcceptPut s c = .ok d) :
    Snapshotable d := by
  have hlen := GElmCtrl.put_length h
  constructor
  · exact (GElmCtrl.put_ok hc.nodup h).1
  · exact ⟨hlen.1.trans hc.room.1, hlen.2.trans hc.room.2⟩
  · intro j v hv
    exact hc.keyed j v (GElmCtrl.put_val hc.nodup h hv)
  · intro j v hv
    exact hc.counted j v (GElmCtrl.put_val hc.nodup h hv)

/-- What is done to the accept objects keeps them fit for a snapshot, if the
resets clear. -/
theorem acceptorStep_snapshotable {op : AcceptorOp} (hc : Snapshotable c) (hop : Clears c op)
    (h : acceptorStep head c op = .ok d) : Snapshotable d := by
  cases op with
  | get i bCreate =>
      change (paxosAcceptGet i bCreate c).mapError AcceptorFault.elm = .ok d at h
      cases hg : paxosAcceptGet i bCreate c with
      | error e =>
          rw [hg] at h
          cases h
      | ok d' =>
          rw [hg] at h
          cases h
          exact get_snapshotable hc hop hg
  | put s =>
      change (paxosAcceptPut s c).mapError AcceptorFault.elm = .ok d at h
      cases hg : paxosAcceptPut s c with
      | error e =>
          rw [hg] at h
          cases h
      | ok d' =>
          rw [hg] at h
          cases h
          exact put_snapshotable hc hg
  | request i =>
      simp only [acceptorStep] at h
      apply atAccept_snapshotable hc _ h
      intro a b ha hcount hb
      obtain ⟨hcount, hid⟩ := hcount.request (hop a ha) hb
      exact ⟨hcount, by rw [hid]⟩
  | execOpen i m =>
      simp only [acceptorStep] at h
      apply atAccept_snapshotable hc _ h
      intro a b ha hcount hb
      exact hcount.execOpen (hop a ha) hb
  | acceptedStart i =>
      simp only [acceptorStep] at h
      apply atAccept_snapshotable hc _ h
      intro a b ha hcount hb
      cases hb
      exact ⟨hcount.congr rfl rfl rfl, rfl⟩
  | acceptedEnd i =>
      simp only [acceptorStep] at h
      apply atAccept_snapshotable hc _ h
      intro a b ha hcount hb
      obtain ⟨hid, hr, he⟩ := PaxosAccept.acceptedEnd_keeps hb
      exact ⟨hcount.congr (by rw [hr]) (by rw [hr]) he, by rw [hid]⟩
  | opened s o =>
      simp only [acceptorStep] at h
      apply atAccept_snapshotable hc _ h
      intro a b ha hcount hb
      cases hb
      exact ⟨hcount.congr rfl rfl rfl, rfl⟩
  | bind s fd =>
      simp only [acceptorStep] at h
      apply atAccept_snapshotable hc _ h
      intro a b ha hcount hb
      cases hb
      exact ⟨hcount.congr rfl rfl rfl, rfl⟩
  | hold s =>
      simp only [acceptorStep] at h
      apply atAccept_snapshotable hc _ h
      intro a b ha hcount hb
      cases hb
      exact ⟨hcount.freeReply.congr rfl rfl rfl, rfl⟩
  | release s =>
      simp only [acceptorStep] at h
      apply atAccept_snapshotable hc _ h
      intro a b ha hcount hb
      cases hb
      exact ⟨hcount.congr rfl rfl rfl, rfl⟩
  | reply s aMaster m =>
      simp only [acceptorStep] at h
      apply atAccept_snapshotable hc _ h
      intro a b ha hcount hb
      cases hb
      have hmaster : ({ a with aAccepted := { a.aAccepted with aMaster := aMaster } } :
          PaxosAccept).Counted := hcount.congr rfl rfl rfl
      exact ⟨hmaster.replyByMsg m, rfl⟩
  | raise s bytes =>
      simp only [acceptorStep] at h
      apply atAccept_snapshotable hc _ h
      intro a b ha hcount hb
      exact ⟨hcount.eventRaise hb, by rw [PaxosAccept.eventRaise_aId hb]⟩
  | eventGet s =>
      simp only [acceptorStep] at h
      apply atAccept_snapshotable hc _ h
      intro a b ha hcount hb
      cases hb
      exact ⟨hcount.eventGet, by rw [PaxosAccept.eventGet_aId]⟩

end Steps

/-- Along resets that clear, every snapshot is read to its end and brings back
the sessions that are written. -/
theorem snapshot_roundTrips {τ : Type} (adaptorMarshal : τ → List Frame)
    (adaptorUnmarshal : List Frame → Except SnapFault (τ × List Frame))
    (hinverse : ∀ t fs, adaptorUnmarshal (adaptorMarshal t ++ fs) = .ok (t, fs))
    (head : PaxosAccept.EventHead) (ops : List AcceptorOp)
    (hops : Along (acceptorStep head) Clears { geMaxCnt := 20000 } ops) :
    ∀ c, run (acceptorStep head) { geMaxCnt := 20000 } ops = .ok c →
      RoundTrips adaptorMarshal adaptorUnmarshal c := by
  intro c hrun
  have hstart : Snapshotable { geMaxCnt := 20000 } :=
    ⟨List.nodup_nil, ⟨Nat.zero_le _, rfl⟩, by simp [GElmCtrl.val, GElmCtrl.find],
      by simp [GElmCtrl.val, GElmCtrl.find]⟩
  exact (run_invariant (fun _ _ _ => acceptorStep_snapshotable) hstart hops hrun).roundTrips
    hinverse

/-- An application whose adaptors have nothing to keep. -/
def nothingMarshal (_ : Unit) : List Frame := [.bytes []]

def nothingUnmarshal : List Frame → Except SnapFault (Unit × List Frame)
  | .bytes _ :: fs => .ok ((), fs)
  | _ => .error .stream

/-- A request of session 1, and a reply of one piece. -/
def requestOf (hCmd : PaxosCmd) (iSeq : UInt32) : PaxosSessionHead :=
  { hCmd := hCmd, hId := { iPid := 1, iSeq := iSeq } }

def replyOf (n : UInt8) : NWGadget.Msg := { mSize := 1, mAVec := [PaxosAccept.mine [n]] }

/-- A client binds, opens its session, and an event is raised. -/
def raised : List AcceptorOp :=
  [.get { iPid := 1 } true, .execOpen (requestOf .sessionOpen 1) (replyOf 0),
    .raise { iPid := 1 } [7]]

theorem snapshot_roundTrips_raised :
    Along (acceptorStep fun _ _ _ => []) Clears { geMaxCnt := 20000 } raised ∧
      ∀ c, run (acceptorStep fun _ _ _ => []) { geMaxCnt := 20000 } raised = .ok c →
        RoundTrips nothingMarshal nothingUnmarshal c := by
  have hops : Along (acceptorStep fun _ _ _ => []) Clears { geMaxCnt := 20000 } raised := by
    refine ⟨?_, fun c hc => ⟨?_, fun _ _ => ⟨trivial, fun _ _ => trivial⟩⟩⟩
    · intro _ _ hfull
      exact absurd hfull (by decide)
    · intro a ha hr
      cases hc
      cases ha
      cases hr
  exact ⟨hops, snapshot_roundTrips nothingMarshal nothingUnmarshal (fun _ _ => rfl) _ _ hops⟩

/-- The client closes its session, stays bound, and a copy of its `OPEN` comes
late: the reply to the close is left in the list. -/
def reused : List AcceptorOp :=
  [.get { iPid := 1 } true, .execOpen (requestOf .sessionOpen 1) (replyOf 0),
    .acceptedStart (requestOf .sessionClose 2), .reply { iPid := 1 } true (replyOf 1),
    .opened { iPid := 1 } .binded, .request (requestOf .sessionOpen 1)]

/-- The reader takes the reply that was left for a tag, and aborts. -/
theorem snapshot_not_roundTrips :
    ¬ ∀ ops c, run (acceptorStep fun _ _ _ => []) { geMaxCnt := 20000 } ops = .ok c →
      RoundTrips nothingMarshal nothingUnmarshal c := by
  intro h
  obtain ⟨u, hu, -⟩ := h reused _ rfl (fun _ => ()) [] 1 (le_of_eq rfl)
  cases hu

end PaxosSolutions
