import PaxosSolutions.PFS.QueueDelivery

/-!
# Stored messages

No request but a post puts a message into a queue. A post to a queue that is not full
puts its message at the end, and the sender is told so.
-/
namespace PaxosSolutions
open Lib NWGadget
variable {M : Type} {P : M → Prop} {bad : M → Bool} {s t : PFSQueues M} {q : PFSQueue M}
  {who eqId : SessionId} {name : String} {m : M}

/-- Every message of every queue is `P`. -/
def PFSQueues.Stored (P : M → Prop) (s : PFSQueues M) : Prop := ∀ n, ∀ m ∈ s.msgs n, P m

def QueueOp.isPost : QueueOp M → Bool
  | .post _ _ _ => true
  | _ => false

/-- A request leaves only such messages, if it does not fail. -/
abbrev StoredBy (P : M → Prop) : Except QueueFault (PFSQueues M) → Prop :=
  Result (fun _ => True) (PFSQueues.Stored P)

namespace PFSQueues

theorem msgs_setQueue (n : String) :
    (s.setQueue name q).msgs n = if n = name then q.qMsg else s.msgs n := by
  unfold msgs PFSQueues.setQueue
  dsimp only
  by_cases hn : n = name
  · rw [if_pos hn, hn, Function.update_self]
    rfl
  · rw [if_neg hn, Function.update_of_ne hn]

theorem msgs_queue (hq : s.queue name = some q) : s.msgs name = q.qMsg := by
  unfold msgs
  rw [hq]
  rfl

theorem Stored.setQueue (hs : s.Stored P) (hq : ∀ m ∈ q.qMsg, P m) :
    (s.setQueue name q).Stored P := by
  intro n m hm
  rw [msgs_setQueue] at hm
  split_ifs at hm with hn
  · exact hq m hm
  · exact hs n m hm

theorem Stored.queueAt (hs : s.Stored P) (name : String) :
    Result (fun _ => True) (fun q => ∀ m ∈ q.qMsg, P m) (s.queueAt name) := by
  unfold PFSQueues.queueAt
  cases hq : s.queue name with
  | none => trivial
  | some q => exact fun m hm => hs name m (msgs_queue hq ▸ hm)

theorem Stored.queueAlloc (hs : s.Stored P) (name : String) : (s.queueAlloc name).Stored P := by
  unfold PFSQueues.queueAlloc
  cases hq : s.queue name with
  | none => exact hs.setQueue fun m hm => nomatch hm
  | some q => exact hs

theorem msgs_queueAlloc (name n : String) : (s.queueAlloc name).msgs n = s.msgs n := by
  unfold PFSQueues.queueAlloc
  cases hq : s.queue name with
  | none =>
      by_cases hn : n = name
      · rw [msgs_setQueue, if_pos hn, hn, msgs, hq]
        rfl
      · rw [msgs_setQueue, if_neg hn]
  | some q => rfl

/-- The queue is freed or left as it is. -/
theorem Stored.queueGarbage (hs : s.Stored P) (name : String) :
    StoredBy P (queueGarbage name s) := by
  apply (hs.queueAt name).bind
  intro q hq
  split_ifs with hfree
  · intro n m hm
    have hn : n ≠ name := by
      rintro rfl
      simp [msgs] at hm
    simp only [msgs, Function.update_of_ne hn] at hm
    exact hs n m hm
  · exact hs

theorem Stored.peekReply (hs : s.Stored P) : StoredBy P (pfsPeekReply bad who name s) := by
  apply (hs.queueAt name).bind
  intro q hq
  cases hmsg : q.qMsg with
  | nil => trivial
  | cons m ms =>
      rw [hmsg] at hq
      dsimp only
      split_ifs with hb
      · trivial
      · exact hs.setQueue (q := { q with
          qPeek := true
          qMsg := m :: ms }) hq

theorem Stored.queueNotify (hs : s.Stored P) (b : Bool) :
    StoredBy P (pfsQueueNotify who name b s) := by
  apply (hs.queueAt name).bind
  intro q hq
  exact hs.setQueue (q := { q with qEventSeq := seqInc q.qEventSeq }) hq

theorem Stored.peek (hs : s.Stored P) : StoredBy P (pfsPeekS bad who name s) := by
  have hjoin : Stored P { s.queueAlloc name with
      waits := (s.queueAlloc name).waits ++ [⟨who, name⟩] } := hs.queueAlloc name
  have hend (u : PFSQueues M) (hu : u.Stored P) :
      StoredBy P (pfsQueueNotify who name true u >>= PaxosSolutions.queueGarbage name) :=
    (hu.queueNotify true).bind fun v hv => hv.queueGarbage name
  unfold pfsPeekS
  split_ifs with hopen hwait
  · trivial
  · apply (hjoin.queueAt name).bind
    intro q hq
    dsimp only
    split_ifs with hfirst
    · exact hjoin.peekReply.bind hend
    · exact hend _ hjoin
  · trivial

theorem Stored.peekRemove (hs : s.Stored P) (b : Bool) :
    StoredBy P (pfsPeekRemove who name b s) := by
  apply (hs.queueAt name).bind
  intro q hq
  cases b with
  | false => exact hs
  | true =>
      cases hmsg : q.qMsg with
      | nil => trivial
      | cons m ms =>
          apply hs.setQueue (q := { q with qMsg := ms, qCntMsg := q.qCntMsg - 1 })
          exact fun k hk => hq k (hmsg ▸ List.mem_cons_of_mem m hk)

theorem Stored.peekKick (hs : s.Stored P) : StoredBy P (pfsPeekKick bad name s) := by
  apply (hs.queueAt name).bind
  intro q hq
  cases hmsg : q.qMsg with
  | nil => exact hs.queueGarbage name
  | cons m ms =>
      cases hw : s.waiting name with
      | nil => exact hs.queueGarbage name
      | cons w ws => exact hs.peekReply

theorem Stored.peekAck (hs : s.Stored P) (b : Bool) : StoredBy P (pfsPeekAck bad who b s) := by
  unfold pfsPeekAck
  cases hw : s.waits.find? fun w => w.session = who with
  | none => trivial
  | some w =>
      have hleft : Stored P { s with waits := s.waits.filter fun v => v.session ≠ who } := hs
      apply (hleft.peekRemove b).bind
      intro u hu
      apply (hu.queueAt w.qName).bind
      intro q hq
      split_ifs with hpeek
      · trivial
      · exact Stored.peekKick (hu.setQueue (q := { q with qPeek := false }) hq)

theorem Stored.peekAckS (hs : s.Stored P) : StoredBy P (pfsPeekAckS bad who name s) := by
  unfold pfsPeekAckS
  cases hq : s.queue name with
  | none => exact hs
  | some q =>
      dsimp only
      split_ifs with hopen
      · exact (hs.peekAck true).bind fun u hu => hu
      · trivial

theorem Stored.eventFree (hs : s.Stored P) (j : QueueJoint) :
    StoredBy P (pfsQueueEventFree j s) :=
  Stored.queueGarbage (s := { s with joints := s.joints.erase j }) hs j.qName

theorem Stored.eventFreeAll (hs : s.Stored P) (js : List QueueJoint) :
    StoredBy P (pfsQueueEventFreeAll js s) := by
  induction js generalizing s with
  | nil => exact hs
  | cons j js ih => exact (hs.eventFree j).bind fun u hu => ih hu

theorem Stored.eventQueue (hs : s.Stored P) (eqSet bBound : Bool) :
    StoredBy P (pfsEventQueueS who eqId name eqSet bBound s) := by
  unfold pfsEventQueueS
  split_ifs with hopen hset hj hbound
  · exact hs.queueAlloc name
  · cases hq : s.queue name with
    | none => trivial
    | some q => exact (hs.eventFree ⟨eqId, name⟩).bind fun u hu => hu
  · cases hq : s.queue name with
    | none => trivial
    | some q => exact hs
  · trivial
  · exact hs

theorem Stored.close (hs : s.Stored P) : StoredBy P (pfsQueueClose bad who s) := by
  have hsent : Stored P (s.send (.closed who)) := hs
  have hend (u : PFSQueues M) (hu : u.Stored P) (js : List QueueJoint) : StoredBy P (do
      let v ← pfsQueueEventFreeAll js u
      .ok { v with adaptors := v.adaptors.erase who }) :=
    (hu.eventFreeAll js).bind fun v hv => hv
  unfold pfsQueueClose
  split_ifs with hopen
  · dsimp only
    split_ifs with hwait
    · exact (hsent.peekAck false).bind fun u hu => hend u hu _
    · exact hend _ hsent _
  · exact hs

/-- A request that is not a post -/
theorem Stored.queueStep {op : QueueOp M} (bad : M → Bool) (hs : s.Stored P) (hop : op.isPost = false) :
    StoredBy P (queueStep bad s op) := by
  cases op with
  | «open» who =>
      have hopen : Stored P (if who ∈ s.adaptors then s
          else { s with adaptors := who :: s.adaptors }) := by
        split_ifs with h
        · exact hs
        · exact hs
      exact hopen
  | post who name m => cases hop
  | peek who name => exact hs.peek
  | peekAck who name => exact hs.peekAckS
  | eventQueue who eqId name eqSet bBound => exact hs.eventQueue eqSet bBound
  | close who => exact hs.close

end PFSQueues
open PFSQueues

/-! ### A post -/

/-- What the service answered to a post of `who`. -/
def postRpl (who : SessionId) (out : List (QueueOut M)) : Option ℤ :=
  out.findSome? fun o =>
    match o with
    | .postRpl w hError => if w = who then some hError else none
    | _ => none

/-- How many messages `q_CntMsg` says are in the queue. -/
def PFSQueues.cnt (name : String) (s : PFSQueues M) : ℤ := (s.queue name).elim 0 (·.qCntMsg)

theorem cnt_queueAlloc (hq : (s.queueAlloc name).queue name = some q) : q.qCntMsg = s.cnt name := by
  unfold PFSQueues.queueAlloc at hq
  unfold PFSQueues.cnt
  cases hs : s.queue name with
  | none =>
      rw [hs] at hq
      simp only [PFSQueues.setQueue, Function.update_self, Option.some.injEq] at hq
      rw [← hq]
      rfl
  | some p =>
      rw [hs] at hq
      cases hs.symm.trans hq
      rfl

theorem queueAlloc_queue (name : String) (s : PFSQueues M) :
    ∃ q, (s.queueAlloc name).queue name = some q := by
  unfold PFSQueues.queueAlloc
  cases hq : s.queue name with
  | none => exact ⟨{}, Function.update_self _ _ _⟩
  | some q => exact ⟨q, hq⟩

theorem queueAlloc_out (name : String) : (s.queueAlloc name).out = s.out := by
  unfold PFSQueues.queueAlloc
  cases s.queue name with
  | none => rfl
  | some q => rfl

/-- The first answer that is sent is the one. -/
theorem postRpl_eq {o₁ o₂ : List (QueueOut M)} (h : postRpl who o₁ = none) (hError : ℤ) :
    postRpl who (o₁ ++ .postRpl who hError :: o₂) = some hError := by
  unfold postRpl at h ⊢
  rw [List.findSome?_append, h, List.findSome?_cons]
  simp

theorem queueNotify_msgs (hq : s.queue name = some q) (who : SessionId) (b : Bool) :
    ∃ t o, pfsQueueNotify who name b s = .ok t ∧ (∀ n, t.msgs n = s.msgs n) ∧
      t.cnt name = q.qCntMsg ∧ t.out = s.out ++ o := by
  unfold pfsQueueNotify
  rw [queueAt_ok hq]
  refine ⟨_, _, rfl, ?_, ?_, rfl⟩
  · intro n
    apply (msgs_setQueue n).trans
    split_ifs with hn
    · rw [hn, msgs_queue hq]
    · rfl
  · simp [PFSQueues.cnt, PFSQueues.setQueue]

/-- A full queue takes nothing, and the sender is told. -/
theorem post_full (hfull : QUEUE_POST_MAX < s.cnt name) :
    pfsPostS bad who name m s = .ok ((s.queueAlloc name).send (.postRpl who EPIPE)) := by
  obtain ⟨q, hq⟩ := queueAlloc_queue name s
  rw [← cnt_queueAlloc hq] at hfull
  unfold pfsPostS
  simp only [bind, Except.bind]
  rw [queueAt_ok hq]
  exact if_pos hfull

/-- What a post to a queue with room leaves. -/
structure Posted (who : SessionId) (name : String) (m : M) (s t : PFSQueues M) : Prop where
  msgs : t.msgs name = s.msgs name ++ [m]
  others : ∀ n, n ≠ name → t.msgs n = s.msgs n
  count : t.cnt name = s.cnt name + 1
  answer : ∃ o, t.out = s.out ++ o ∧ postRpl who o = some 0

/-- The end of a post: the answer, and the events. -/
theorem Posted.notify {u : PFSQueues M} {o : List (QueueOut M)} (hq : u.queue name = some q)
    (hmsgs : u.msgs name = s.msgs name ++ [m]) (hothers : ∀ n, n ≠ name → u.msgs n = s.msgs n)
    (hcnt : q.qCntMsg = s.cnt name + 1) (hout : u.out = s.out ++ o) (ho : postRpl who o = none) :
    ∃ t, pfsQueueNotify who name false (u.send (.postRpl who 0)) = .ok t ∧
      Posted who name m s t := by
  obtain ⟨t, o', ht, hmt, hct, hot⟩ :=
    queueNotify_msgs (s := u.send (.postRpl who 0)) hq who false
  refine ⟨t, ht, ?_, ?_, hct.trans hcnt, o ++ .postRpl who 0 :: o', ?_, postRpl_eq ho 0⟩
  · exact (hmt name).trans hmsgs
  · exact fun n hn => (hmt n).trans (hothers n hn)
  · rw [hot]
    simp [PFSQueues.send, hout]

theorem post_stored (who : SessionId) (hs : s.Stored fun k => bad k = false) (hm : bad m = false)
    (hroom : ¬ QUEUE_POST_MAX < s.cnt name) :
    ∃ t, pfsPostS bad who name m s = .ok t ∧ Posted who name m s t := by
  obtain ⟨q, hq⟩ := queueAlloc_queue name s
  have hcnt : q.qCntMsg = s.cnt name := cnt_queueAlloc hq
  rw [← hcnt] at hroom
  have hqs : q.qMsg = s.msgs name := (msgs_queue hq).symm.trans (msgs_queueAlloc name name)
  unfold pfsPostS
  simp only [bind, Except.bind]
  rw [queueAt_ok hq]
  simp only
  rw [if_neg hroom]
  obtain ⟨u, hu⟩ : ∃ u, u = ((s.queueAlloc name).setQueue name { q with
      qMsg := q.qMsg ++ [m], qCntMsg := q.qCntMsg + 1 }).send (.linked name m) := ⟨_, rfl⟩
  rw [← hu]
  have huq : u.queue name = some { q with
      qMsg := q.qMsg ++ [m], qCntMsg := q.qCntMsg + 1 } := by
    rw [hu]
    exact Function.update_self _ _ _
  have humsgs : u.msgs name = s.msgs name ++ [m] := by rw [msgs_queue huq, hqs]
  have hothers (n : String) (hn : n ≠ name) : u.msgs n = s.msgs n := by
    rw [hu]
    exact (msgs_setQueue n).trans ((if_neg hn).trans (msgs_queueAlloc name n))
  have hout : u.out = s.out ++ [.linked name m] := by
    rw [hu]
    exact congrArg (· ++ [.linked name m]) (queueAlloc_out name)
  cases hpeek : q.qPeek with
  | true => exact Posted.notify huq humsgs hothers (congrArg (· + 1) hcnt) hout rfl
  | false =>
      cases hw : u.waiting name with
      | nil => exact Posted.notify huq humsgs hothers (congrArg (· + 1) hcnt) hout rfl
      | cons w ws =>
          obtain ⟨k, ks, hk⟩ := List.exists_cons_of_ne_nil
            (List.append_ne_nil_of_right_ne_nil q.qMsg (List.cons_ne_nil m []))
          have hgood : bad k = false := by
            have hmem : k ∈ q.qMsg ++ [m] := hk ▸ List.mem_cons_self
            rcases List.mem_append.mp hmem with hold | hnew
            · exact hs name k (hqs ▸ hold)
            · exact (List.mem_singleton.mp hnew) ▸ hm
          -- the first that waits is handed the first message
          have hreply : pfsPeekReply bad w.session name u = .ok ((u.setQueue name { q with
              qPeek := true, qMsg := q.qMsg ++ [m], qCntMsg := q.qCntMsg + 1 }).send
                (.peekRpl w.session name k)) := by
            unfold pfsPeekReply
            rw [queueAt_ok huq]
            simp only [bind, Except.bind, hk, hgood]
            rfl
          simp only [hreply]
          apply Posted.notify (o := [.linked name m, .peekRpl w.session name k])
          · exact Function.update_self _ _ _
          · exact (msgs_setQueue name).trans ((if_pos rfl).trans (by rw [hqs]))
          · exact fun n hn => (msgs_setQueue n).trans ((if_neg hn).trans (hothers n hn))
          · exact congrArg (· + 1) hcnt
          · simp [PFSQueues.send, PFSQueues.setQueue, hout]
          · rfl

theorem Posted.stored (h : Posted who name m s t) (hs : s.Stored P) (hm : P m) : t.Stored P := by
  intro n k hk
  by_cases hn : n = name
  · rw [hn, h.msgs] at hk
    rcases List.mem_append.mp hk with hold | hnew
    · exact hs name k hold
    · exact (List.mem_singleton.mp hnew) ▸ hm
  · exact hs n k (h.others n hn ▸ hk)

end PaxosSolutions
