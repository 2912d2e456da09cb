import PaxosSolutions.Lib.Run
import PaxosSolutions.Session.RoundTrip

/-!
# Events of a session

Events that are raised while the client does not ask are kept in a message until
it does, up to a limit. An accept object that is used again has its counts
cleared and not the message, so its events reach the client in order, each once,
as long as none are raised on top of what was left there before.
-/
namespace PaxosSolutions
open Lib NWGadget

/-- The events of a row that were not dropped. -/
def keptEvents (es : List (List UInt8 × Bool)) : List (List UInt8) :=
  (es.filter fun e => !e.2).map (·.1)

def lostEvents (es : List (List UInt8 × Bool)) : ℕ := es.countP (·.2)

/-- The reply that brings a row of events, of which some were dropped. -/
def eventReply (head : PaxosAccept.EventHead) (es : List (List UInt8 × Bool)) : List MsgVec :=
  PaxosAccept.mine (head (keptEvents es).length (lostEvents es)
    (headSize + ((keptEvents es).map (·.length)).sum)) :: (keptEvents es).map PaxosAccept.mine

/-- An accept object, with the events that were raised since it was made or
reset, each with whether it was dropped, and the replies that brought events. -/
structure EventLog where
  accept : PaxosAccept := {}
  raised : List (List UInt8 × Bool) := []
  sent : List NWGadget.Msg := []

/-- What is done to one accept object. `takeOver` gives it to another client, as
`GElmGet` does at the limit. -/
inductive EventOp where
  | raise (bytes : List UInt8)
  | get
  | request (h : PaxosSessionHead)
  | execOpen (h : PaxosSessionHead) (m : NWGadget.Msg)
  | takeOver (i : PaxosClientId)
  | acceptedStart (h : PaxosSessionHead)
  | acceptedEnd (i : PaxosClientId)
  | opened (o : PaxosAcceptOpen)
  | bind (fd : Option Fd)
  | hold
  | release
  | reply (aMaster : Bool) (m : NWGadget.Msg)

namespace EventLog

/-- The object after a command, which begins a new row of events if it reset the
object. -/
def after (h : PaxosSessionHead) (s : EventLog) (a : PaxosAccept) : EventLog :=
  if s.accept.reuses h ∧ s.accept.aOpened = .binded then { accept := a } else { s with accept := a }

/-- The reply that was added last. -/
def lastReply (a : PaxosAccept) : List NWGadget.Msg := a.aRpls.rMsg.getLast?.toList

def step (head : PaxosAccept.EventHead) (s : EventLog) : EventOp → Except AcceptFault EventLog
  | .raise bytes => do
      let a ← s.accept.eventRaise head bytes
      let e := s.accept.aEvents
      .ok {
        accept := a
        raised := s.raised ++ [(bytes, !e.eSend && !decide (e.eCnt < PaxosAccept.eventMax))]
        sent := if e.eSend then s.sent ++ lastReply a else s.sent }
  | .get =>
      let a := s.accept.eventGet head
      .ok { s with
        accept := a
        sent := if 0 < s.accept.aEvents.eCnt then s.sent ++ lastReply a else s.sent }
  | .request h => do
      let a ← s.accept.request h
      .ok (s.after h a)
  | .execOpen h m => do
      let a ← s.accept.execOpen h m
      .ok (s.after h a)
  | .takeOver i =>
      match acceptUnset s.accept with
      | none => .ok s
      | some a => .ok { accept := { a with aId := i } }
  | .acceptedStart h => .ok { s with accept := s.accept.acceptedSeq h }
  | .acceptedEnd i => do
      let a ← s.accept.acceptedEnd i
      .ok { s with accept := a }
  | .opened o => .ok { s with accept := { s.accept with aOpened := o } }
  | .bind fd => .ok { s with accept := { s.accept with aPFd := fd } }
  | .hold => .ok { s with accept := s.accept.hold }
  | .release => .ok { s with accept := s.accept.release }
  | .reply aMaster m => .ok { s with accept := s.accept.reply aMaster m }

end EventLog

/-- The events of a row wait in the object: what was not dropped is in the
message and counted, and events are dropped only when the message is full. -/
structure Events.Holds (e : Events) (es : List (List UInt8 × Bool)) : Prop where
  cnt : e.eCnt = (keptEvents es).length
  omitted : e.eOmitted = lostEvents es
  raised : (e.ePRaised.elim [] fun m => m.mAVec) = (keptEvents es).map PaxosAccept.mine
  full : lostEvents es ≠ 0 → e.eCnt = PaxosAccept.eventMax

/-- The raised events came in the order of the replies, a row a reply, each with
as many events as its head says and as many omitted; and the rest, if any were
raised, wait. -/
def EventLog.Delivered (head : PaxosAccept.EventHead) (s : EventLog) : Prop :=
  ∃ (rows : List (List (List UInt8 × Bool))) (rest : List (List UInt8 × Bool)),
    s.raised = rows.flatten ++ rest ∧
    s.sent.map (·.mAVec) = rows.map (eventReply head) ∧ (∀ es ∈ rows, keptEvents es ≠ []) ∧
    (s.raised ≠ [] → s.accept.aEvents.Holds rest)

/-- Events are raised, and fetched, only where the message is one of the events
that are counted. -/
def EventLog.Fetchable (s : EventLog) : EventOp → Prop
  | .raise _ => 0 < s.accept.aEvents.eCnt ↔ s.accept.aEvents.ePRaised.isSome
  | .get => 0 < s.accept.aEvents.eCnt → s.accept.aEvents.ePRaised.isSome
  | _ => True

/-! ### Rows of events -/

section Rows
variable {es fs : List (List UInt8 × Bool)} {bytes : List UInt8}

theorem keptEvents_append : keptEvents (es ++ fs) = keptEvents es ++ keptEvents fs := by
  unfold keptEvents
  rw [List.filter_append, List.map_append]

theorem lostEvents_append : lostEvents (es ++ fs) = lostEvents es + lostEvents fs :=
  List.countP_append

@[simp] theorem keptEvents_nil : keptEvents [] = [] := rfl

@[simp] theorem lostEvents_nil : lostEvents [] = 0 := rfl

@[simp] theorem keptEvents_kept : keptEvents [(bytes, false)] = [bytes] := rfl

@[simp] theorem lostEvents_kept : lostEvents [(bytes, false)] = 0 := rfl

@[simp] theorem keptEvents_lost : keptEvents [(bytes, true)] = [] := rfl

@[simp] theorem lostEvents_lost : lostEvents [(bytes, true)] = 1 := rfl

theorem totalLen_of_mine {m : NWGadget.Msg} {bs : List (List UInt8)}
    (hm : m.mAVec = bs.map PaxosAccept.mine) : m.totalLen = (bs.map (·.length)).sum := by
  have hfold : ∀ n, (bs.map PaxosAccept.mine).foldl
      (fun n v => if v.disabled then n else n + v.vLen) n = n + (bs.map (·.length)).sum := by
    induction bs generalizing m with
    | nil => simp
    | cons b bs ih =>
        intro n
        rw [List.map_cons, List.foldl_cons, ih (m := ⟨2, bs.map PaxosAccept.mine⟩) rfl,
          List.map_cons, List.sum_cons, ← Nat.add_assoc]
        rfl
  unfold NWGadget.Msg.totalLen
  rw [hm, hfold, Nat.zero_add]

end Rows

/-! ### What each step keeps -/

/-- The events are delivered so far. The counts fit together, and a row begins
without counted events or without a message. -/
structure EventLog.Sound (head : PaxosAccept.EventHead) (s : EventLog) : Prop where
  delivered : s.Delivered head
  nonneg : 0 ≤ s.accept.aEvents.eCnt
  le : s.accept.aEvents.eCnt ≤ PaxosAccept.eventMax
  send : s.accept.aEvents.eSend = true → s.accept.aEvents.eCnt = 0
  full : s.accept.aEvents.eOmitted ≠ 0 → s.accept.aEvents.eCnt = PaxosAccept.eventMax
  fresh : s.raised = [] → s.accept.aEvents.eCnt = 0 ∨ s.accept.aEvents.ePRaised = none

section Keep
variable {head : PaxosAccept.EventHead} {s t : EventLog} {a b : PaxosAccept}
  {h : PaxosSessionHead} {rows : List (List (List UInt8 × Bool))}
  {rest : List (List UInt8 × Bool)} {bytes : List UInt8}

theorem Events.holds_nil {e : Events} (hcnt : e.eCnt = 0) (hom : e.eOmitted = 0)
    (hp : e.ePRaised = none) : e.Holds [] := by
  refine ⟨hcnt, hom, ?_, ?_⟩
  · rw [hp]
    rfl
  · exact fun h => absurd rfl h

/-- Only the events of the object matter. -/
theorem EventLog.Sound.congr (hs : s.Sound head) (ha : a.aEvents = s.accept.aEvents) :
    ({ s with accept := a } : EventLog).Sound head := by
  constructor
  · obtain ⟨rows, rest, hr, hsent, hne, hholds⟩ := hs.delivered
    refine ⟨rows, rest, hr, hsent, hne, ?_⟩
    intro hraised
    change a.aEvents.Holds rest
    rw [ha]
    exact hholds hraised
  · change 0 ≤ a.aEvents.eCnt
    rw [ha]
    exact hs.nonneg
  · change a.aEvents.eCnt ≤ _
    rw [ha]
    exact hs.le
  · change a.aEvents.eSend = true → a.aEvents.eCnt = 0
    rw [ha]
    exact hs.send
  · change a.aEvents.eOmitted ≠ 0 → a.aEvents.eCnt = _
    rw [ha]
    exact hs.full
  · change s.raised = [] → a.aEvents.eCnt = 0 ∨ a.aEvents.ePRaised = none
    rw [ha]
    exact hs.fresh

/-- A row begins with an object without counts, or without a message. -/
theorem EventLog.Sound.begin (hnonneg : 0 ≤ a.aEvents.eCnt)
    (hle : a.aEvents.eCnt ≤ PaxosAccept.eventMax)
    (hsend : a.aEvents.eSend = true → a.aEvents.eCnt = 0)
    (hfull : a.aEvents.eOmitted ≠ 0 → a.aEvents.eCnt = PaxosAccept.eventMax)
    (hfresh : a.aEvents.eCnt = 0 ∨ a.aEvents.ePRaised = none) :
    ({ accept := a } : EventLog).Sound head :=
  ⟨⟨[], [], rfl, rfl, by simp, fun h => absurd rfl h⟩, hnonneg, hle, hsend, hfull, fun _ => hfresh⟩

/-- Where the message is one of the counted events, it has the rest of the row. -/
theorem EventLog.Sound.holds (hs : s.Sound head)
    (hc : 0 < s.accept.aEvents.eCnt ↔ s.accept.aEvents.ePRaised.isSome) :
    ∃ (rows : List (List (List UInt8 × Bool))) (rest : List (List UInt8 × Bool)),
      s.raised = rows.flatten ++ rest ∧ s.sent.map (·.mAVec) = rows.map (eventReply head) ∧
        (∀ es ∈ rows, keptEvents es ≠ []) ∧ s.accept.aEvents.Holds rest := by
  obtain ⟨rows, rest, hr, hsent, hne, hholds⟩ := hs.delivered
  refine ⟨rows, rest, hr, hsent, hne, ?_⟩
  by_cases hraised : s.raised = []
  · have hrest : rest = [] := by
      rw [hraised] at hr
      exact (List.append_eq_nil_iff.mp hr.symm).2
    have hzero : s.accept.aEvents.eCnt = 0 ∧ s.accept.aEvents.ePRaised = none := by
      rcases hs.fresh hraised with h | h
      · refine ⟨h, ?_⟩
        rw [← Option.not_isSome_iff_eq_none, ← hc, h]
        exact lt_irrefl _
      · refine ⟨?_, h⟩
        have hnot : ¬ 0 < s.accept.aEvents.eCnt := by
          rw [hc, h]
          simp
        have := hs.nonneg
        omega
    rw [hrest]
    refine Events.holds_nil hzero.1 ?_ hzero.2
    by_contra hom
    have := hs.full hom
    rw [hzero.1] at this
    exact absurd this (by decide)
  · exact hholds hraised

theorem lastReply_replyByMsg (m : NWGadget.Msg) (e : Events) :
    EventLog.lastReply { a.replyByMsg m with aEvents := e } = [m] := by
  unfold EventLog.lastReply PaxosAccept.replyByMsg
  simp

/-- A reply brings the rest of the row. -/
theorem delivered_reply (hsent : s.sent.map (·.mAVec) = rows.map (eventReply head))
    (hne : ∀ es ∈ rows, keptEvents es ≠ []) {raised : List (List UInt8 × Bool)}
    (es : List (List UInt8 × Bool))
    (hr : raised = rows.flatten ++ es) (hes : keptEvents es ≠ []) {m : NWGadget.Msg}
    (hm : m.mAVec = eventReply head es) (ha : a.aEvents.Holds []) :
    EventLog.Delivered head ⟨a, raised, s.sent ++ [m]⟩ := by
  refine ⟨rows ++ [es], [], ?_, ?_, ?_, fun _ => ha⟩
  · rw [hr]
    simp
  · rw [List.map_append, hsent, List.map_append, List.map_singleton, List.map_singleton, hm]
  · intro fs hfs
    rcases List.mem_append.mp hfs with hfs | hfs
    · exact hne fs hfs
    · rw [List.mem_singleton.mp hfs]
      exact hes

/-- The pieces of the message, or none. -/
theorem raised_pieces (e : Events) :
    (e.ePRaised.getD { mSize := 2 }).mAVec = e.ePRaised.elim [] fun m => m.mAVec := by
  cases e.ePRaised with
  | none => rfl
  | some m => rfl

theorem eventRaise_sound (hs : s.Sound head) (hc : s.Fetchable (.raise bytes)) :
    ∃ t, s.step head (.raise bytes) = .ok t ∧ t.Sound head := by
  obtain ⟨rows, rest, hr, hsent, hne, hholds⟩ := hs.holds hc
  have hpieces := (raised_pieces s.accept.aEvents).trans hholds.raised
  unfold EventLog.step PaxosAccept.eventRaise
  simp only [bind, Except.bind]
  cases hsend : s.accept.aEvents.eSend with
  | false =>
      by_cases hmax : s.accept.aEvents.eCnt < PaxosAccept.eventMax
      · -- the event joins the message
        simp only [if_true, if_pos hmax]
        refine ⟨_, rfl, ?_, ?_, ?_, ?_, ?_, ?_⟩
        · refine ⟨rows, rest ++ [(bytes, false)], ?_, hsent, hne, fun _ => ⟨?_, ?_, ?_, ?_⟩⟩
          · simp [hr, hmax]
          · change s.accept.aEvents.eCnt + 1 = _
            rw [hholds.cnt, keptEvents_append]
            simp
          · change s.accept.aEvents.eOmitted = _
            rw [hholds.omitted, lostEvents_append]
            simp
          · change (NWGadget.Msg.add _ _).mAVec = _
            rw [keptEvents_append, List.map_append, ← hpieces]
            rfl
          · intro hlost
            rw [lostEvents_append] at hlost
            exact absurd (hholds.full (by simpa using hlost)) hmax.ne
        · change 0 ≤ s.accept.aEvents.eCnt + 1
          have := hs.nonneg
          omega
        · change s.accept.aEvents.eCnt + 1 ≤ _
          omega
        · intro h
          cases h
        · intro hom
          exact absurd (hs.full hom) hmax.ne
        · exact fun h => absurd h (by simp)
      · -- the message is full
        have hcnt : s.accept.aEvents.eCnt = PaxosAccept.eventMax := by
          have := hs.le
          omega
        simp only [if_true, if_neg hmax]
        refine ⟨_, rfl, ?_, hs.nonneg, hs.le, ?_, fun _ => hcnt, ?_⟩
        · refine ⟨rows, rest ++ [(bytes, true)], ?_, hsent, hne, fun _ => ⟨?_, ?_, ?_, fun _ => hcnt⟩⟩
          · simp [hr, hmax]
          · change s.accept.aEvents.eCnt = _
            rw [hholds.cnt, keptEvents_append]
            simp
          · change s.accept.aEvents.eOmitted + 1 = _
            rw [hholds.omitted, lostEvents_append]
            simp
          · change NWGadget.Msg.mAVec (Option.getD _ _) = _
            rw [hpieces, keptEvents_append]
            simp
        · intro h
          cases h
        · exact fun h => absurd h (by simp)
  | true =>
      -- the client asks, and nothing waits
      have hzero := hs.send hsend
      have hkept : keptEvents rest = [] := by
        have hlen := hholds.cnt
        rw [hzero] at hlen
        apply List.eq_nil_of_length_eq_zero
        omega
      have hlost : lostEvents rest = 0 := by
        by_contra hlost
        have := hholds.full hlost
        rw [hzero] at this
        exact absurd this (by decide)
      have hom : s.accept.aEvents.eOmitted = 0 := by
        rw [hholds.omitted, hlost]
        rfl
      simp only [Bool.true_eq_false, if_false, hzero, ne_eq, not_true]
      refine ⟨_, rfl, ?_, ?_, ?_, ?_, ?_, ?_⟩
      · simp only [if_true, lastReply_replyByMsg, Bool.not_true, Bool.false_and]
        refine delivered_reply hsent hne (rest ++ [(bytes, false)]) ?_ ?_ ?_
          (Events.holds_nil rfl hom rfl)
        · rw [hr, List.append_assoc]
        · rw [keptEvents_append]
          simp
        · change (_ ++ [_]) ++ [_] = _
          rw [hpieces, hkept, hom]
          unfold eventReply
          rw [keptEvents_append, lostEvents_append, hkept, hlost]
          simp
      · exact le_rfl
      · change (0 : ℤ) ≤ _
        decide
      · exact fun _ => rfl
      · exact fun h => absurd hom h
      · exact fun _ => .inl rfl

theorem eventGet_sound (hs : s.Sound head) (hc : s.Fetchable .get) :
    ∃ t, s.step head .get = .ok t ∧ t.Sound head := by
  refine ⟨_, rfl, ?_⟩
  by_cases hpos : 0 < s.accept.aEvents.eCnt
  · have hsome := hc hpos
    obtain ⟨rows, rest, hr, hsent, hne, hholds⟩ := hs.holds ⟨fun _ => hsome, fun _ => hpos⟩
    have hpieces := (raised_pieces s.accept.aEvents).trans hholds.raised
    have hkept : keptEvents rest ≠ [] := by
      intro hnil
      have hlen := hholds.cnt
      rw [hnil] at hlen
      exact hpos.ne' hlen
    unfold PaxosAccept.eventGet
    simp only [if_pos hpos, lastReply_replyByMsg]
    constructor
    · refine delivered_reply hsent hne rest hr hkept ?_ (Events.holds_nil rfl rfl rfl)
      change _ :: _ = _
      rw [hpieces, totalLen_of_mine hpieces, hholds.cnt, hholds.omitted]
      rfl
    · exact le_rfl
    · change (0 : ℤ) ≤ _
      decide
    · exact fun _ => rfl
    · exact fun h => absurd rfl h
    · exact fun _ => .inl rfl
  · have hzero : s.accept.aEvents.eCnt = 0 := by
      have := hs.nonneg
      omega
    unfold PaxosAccept.eventGet
    simp only [if_neg hpos]
    obtain ⟨rows, rest, hr, hsent, hne, hholds⟩ := hs.delivered
    refine ⟨⟨rows, rest, hr, hsent, hne, fun h => ?_⟩, hs.nonneg, hs.le, fun _ => hzero, hs.full,
      hs.fresh⟩
    obtain ⟨h1, h2, h3, h4⟩ := hholds h
    exact ⟨h1, h2, h3, h4⟩

/-- A command resets the counts of the events, or leaves the events. -/
theorem isAccepted_events {n : ℤ} (hb : a.isAccepted h = .ok (b, n)) :
    b.aEvents = if a.reuses h ∧ a.aOpened = .binded then a.reuse.aEvents else a.aEvents := by
  unfold PaxosAccept.isAccepted at hb
  by_cases hr : a.reuses h = true
  · rw [if_pos hr] at hb
    by_cases ho : a.aOpened = .binded
    · rw [if_neg (not_not.mpr ho)] at hb
      obtain ⟨m, -, heq⟩ := except_map_ok hb
      cases heq
      rw [if_pos ⟨hr, ho⟩]
    · rw [if_pos ho] at hb
      cases hb
  · rw [if_neg hr] at hb
    obtain ⟨m, -, heq⟩ := except_map_ok hb
    cases heq
    rw [if_neg fun hc => hr hc.1]

theorem request_events (hb : a.request h = .ok b) :
    b.aEvents = if a.reuses h ∧ a.aOpened = .binded then a.reuse.aEvents else a.aEvents := by
  unfold PaxosAccept.request at hb
  by_cases hw : a.reuses h ∧ a.aOpened ≠ .binded
  · rw [if_pos hw] at hb
    cases hb
    rw [if_neg fun hc => hw.2 hc.2]
  · rw [if_neg hw] at hb
    obtain ⟨⟨c, n⟩, hc, heq⟩ := except_map_ok hb
    cases heq
    exact isAccepted_events hc

theorem acceptedEnd_events {i : PaxosClientId} (hb : a.acceptedEnd i = .ok b) :
    b.aEvents = a.aEvents := by
  unfold PaxosAccept.acceptedEnd at hb
  split_ifs at hb
  cases hb
  rfl

theorem execOpen_events {m : NWGadget.Msg} (hb : a.execOpen h m = .ok b) :
    b.aEvents = if a.reuses h ∧ a.aOpened = .binded then a.reuse.aEvents else a.aEvents := by
  unfold PaxosAccept.execOpen at hb
  by_cases hw : a.reuses h ∧ a.aOpened ≠ .binded
  · rw [if_pos hw] at hb
    cases hb
    rw [if_neg fun hc => hw.2 hc.2]
  · rw [if_neg hw] at hb
    obtain ⟨⟨c, n⟩, hc, hb⟩ := except_bind_ok hb
    rw [← isAccepted_events hc]
    simp only at hb
    split_ifs at hb
    · cases hb
      rfl
    · exact (acceptedEnd_events hb).trans rfl

theorem EventLog.Sound.after (hs : s.Sound head)
    (hb : b.aEvents = if s.accept.reuses h ∧ s.accept.aOpened = .binded then s.accept.reuse.aEvents
      else s.accept.aEvents) : (s.after h b).Sound head := by
  unfold EventLog.after
  split_ifs at hb ⊢ with hreset
  · apply EventLog.Sound.begin
    · rw [hb]
      exact le_rfl
    · rw [hb]
      change (0 : ℤ) ≤ _
      decide
    · rw [hb]
      exact fun _ => rfl
    · rw [hb]
      exact fun h => absurd rfl h
    · rw [hb]
      exact .inl rfl
  · exact hs.congr hb

/-- Nothing that is done to the object loses an event or brings one twice. -/
theorem eventStep_sound {op : EventOp} (hs : s.Sound head) (hc : s.Fetchable op)
    (ht : s.step head op = .ok t) : t.Sound head := by
  cases op with
  | raise bytes =>
      obtain ⟨u, hu, hsound⟩ := eventRaise_sound hs hc
      cases hu.symm.trans ht
      exact hsound
  | get =>
      obtain ⟨u, hu, hsound⟩ := eventGet_sound hs hc
      cases hu.symm.trans ht
      exact hsound
  | request h =>
      obtain ⟨b, hb, heq⟩ := except_bind_ok ht
      cases heq
      exact hs.after (request_events hb)
  | execOpen h m =>
      obtain ⟨b, hb, heq⟩ := except_bind_ok ht
      cases heq
      exact hs.after (execOpen_events hb)
  | takeOver i =>
      cases hu : acceptUnset s.accept with
      | none =>
          simp only [EventLog.step, hu] at ht
          cases ht
          exact hs
      | some a =>
          simp only [EventLog.step, hu] at ht
          cases ht
          unfold acceptUnset at hu
          split_ifs at hu
          cases hu
          exact .begin hs.nonneg hs.le hs.send hs.full (.inr rfl)
  | acceptedEnd i =>
      obtain ⟨b, hb, heq⟩ := except_bind_ok ht
      cases heq
      exact hs.congr (acceptedEnd_events hb)
  | acceptedStart | opened | bind | hold | release | reply =>
      cases ht
      exact hs.congr rfl

end Keep

theorem newLog_sound (head : PaxosAccept.EventHead) : ({} : EventLog).Sound head :=
  .begin le_rfl (by decide) (fun _ => rfl) (fun h => absurd rfl h) (.inl rfl)

/-- As long as events are raised and fetched only where the message is one of
the counted events, what the client is sent since the object was made or reset
is every event in order, once, but those that the reply says were omitted, and
an event can be raised in every state. -/
theorem events_delivered (head : PaxosAccept.EventHead) (ops : List EventOp)
    (hops : Along (EventLog.step head) EventLog.Fetchable {} ops) {s : EventLog}
    (hs : run (EventLog.step head) {} ops = .ok s) :
    s.Delivered head ∧ ∀ bytes, s.Fetchable (.raise bytes) →
      ∃ t, s.step head (.raise bytes) = .ok t := by
  have hsound : s.Sound head :=
    run_invariant (fun _ _ _ => eventStep_sound) (newLog_sound head) hops hs
  refine ⟨hsound.delivered, ?_⟩
  intro bytes hc
  obtain ⟨t, ht, -⟩ := eventRaise_sound hsound hc
  exact ⟨t, ht⟩

/-- An event that is raised, fetched, and one that is waited for. -/
theorem events_delivered_fetched :
    ∃ s, run (EventLog.step fun _ _ _ => [0]) {} [.raise [1], .get, .get, .raise [2]] = .ok s ∧
      s.Delivered fun _ _ _ => [0] := by
  have hops : Along (EventLog.step fun _ _ _ => [0]) EventLog.Fetchable {}
      [.raise [1], .get, .get, .raise [2]] := by
    refine ⟨?_, fun s hs => ?_⟩
    · constructor
      · intro h
        exact absurd h (lt_irrefl _)
      · intro h
        cases h
    · cases hs
      refine ⟨fun _ => rfl, fun s hs => ?_⟩
      cases hs
      refine ⟨?_, fun s hs => ?_⟩
      · intro h
        exact absurd h (lt_irrefl _)
      · cases hs
        refine ⟨?_, fun _ _ => trivial⟩
        constructor
        · intro h
          exact absurd h (lt_irrefl _)
        · intro h
          cases h
  exact ⟨_, rfl, (events_delivered _ _ hops rfl).1⟩

/-- The client closes with an event raised, opens again and fetches an event: it
is brought both, with a count of one. -/
theorem events_not_delivered :
    ¬ ∀ (head : PaxosAccept.EventHead) (ops : List EventOp) (s : EventLog),
      run (EventLog.step head) {} ops = .ok s → s.Delivered head := by
  intro h
  obtain ⟨rows, rest, hr, hsent, -, -⟩ := h (fun _ _ _ => [0])
    [.acceptedStart ⟨.sessionOpen, { iSeq := 1 }, headSize⟩, .opened .opened, .raise [1],
      .acceptedStart ⟨.sessionClose, { iSeq := 2 }, headSize⟩, .opened .binded,
      .request ⟨.sessionOpen, { iSeq := 1 }, headSize⟩, .raise [2], .get] _ rfl
  -- the one reply has two events, and one was raised
  have hrows := congrArg (List.map List.length) hsent
  have hraised := congrArg (fun es => (keptEvents es).length) hr
  change [3] = _ at hrows
  change 1 = _ at hraised
  cases rows with
  | nil => cases hrows
  | cons es rows =>
      have hlen : 3 = (keptEvents es).length + 1 := by
        have hhead := (List.cons.inj hrows).1
        unfold eventReply at hhead
        simpa using hhead
      rw [List.flatten_cons, List.append_assoc, keptEvents_append, List.length_append] at hraised
      omega

end PaxosSolutions
