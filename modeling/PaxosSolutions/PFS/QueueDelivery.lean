import PaxosSolutions.Lib.Log
import PaxosSolutions.PFS.Queue

/-!
# Delivery of messages

What a session was handed and has not given back is the first message of the
queue it waits in first, and messages are taken off in the order they were
posted, each by the session it was handed to.
-/
namespace PaxosSolutions
open Lib NWGadget
variable {M : Type}

/-- What `who` was handed, after one more thing is done. -/
def handedStep (who : SessionId) (h : Option (String × M)) : QueueOut M → Option (String × M)
  | .peekRpl s name m => if s = who then some (name, m) else h
  | .destroyed s _ _ => if s = who then none else h
  | .closed s => if s = who then none else h
  | _ => h

/-- The message `who` was sent last, unless it is taken off or `who` has closed. -/
def inHand (who : SessionId) (out : List (QueueOut M)) : Option (String × M) :=
  out.foldl (handedStep who) none

namespace QueueOut

/-- The message that is linked to the queue -/
def linkedTo (name : String) : QueueOut M → Option M
  | .linked n m => if n = name then some m else none
  | _ => none

/-- The message that is taken off the queue -/
def destroyedOf (name : String) : QueueOut M → Option M
  | .destroyed _ n m => if n = name then some m else none
  | _ => none

/-- A reply or an event that hands nothing out -/
def silent : QueueOut M → Bool
  | .postRpl _ _ | .peekAckRpl _ _ | .eventQueueRpl _ _ | .event _ _ _ _ _ => true
  | _ => false

end QueueOut
open QueueOut

namespace PFSQueues

def msgs (name : String) (s : PFSQueues M) : List M := (s.queue name).elim [] (·.qMsg)

/-- The first message of the queue is with `who`. -/
def Holds (s : PFSQueues M) (who : SessionId) (name : String) (m : M) : Prop :=
  ∃ q w ws ms, s.queue name = some q ∧ q.qPeek = true ∧ s.waiting name = w :: ws ∧
    w.session = who ∧ q.qMsg = m :: ms

/-- A message goes only to the session it was handed to. -/
def Removed (out : List (QueueOut M)) : Prop :=
  Each (fun pre o => ∀ who name m, o = .destroyed who name m → inHand who pre = some (name, m)) out

/-- A queue with the sessions `ws` that wait in it. With `idle` its first
message is handed out if a session waits. -/
structure QueueFair (bad : M → Bool) (idle : Bool) (q : PFSQueue M) (ws : List QueueWait) :
    Prop where
  count : q.qCntMsg = q.qMsg.length
  good : ∀ m ∈ q.qMsg, bad m = false
  peek : q.qPeek = true → q.qMsg ≠ [] ∧ ws ≠ []
  idle : idle = true → q.qPeek = false → q.qMsg = [] ∨ ws = []

/-- The queues, of which `x` may have a message that is not handed out yet. -/
structure Fair (bad : M → Bool) (x : Option String) (s : PFSQueues M) : Prop where
  once : (s.waits.map (·.session)).Nodup
  wopen : ∀ w ∈ s.waits, w.session ∈ s.adaptors
  wqueue : ∀ w ∈ s.waits, ∃ q, s.queue w.qName = some q
  jqueue : ∀ j ∈ s.joints, ∃ q, s.queue j.qName = some q
  queues : ∀ n q, s.queue n = some q → QueueFair bad (x ≠ some n) q (s.waiting n)
  handed : ∀ who n m, inHand who s.out = some (n, m) ↔ s.Holds who n m
  removed : Removed s.out
  order : ∀ n, s.out.filterMap (linkedTo n) = s.out.filterMap (destroyedOf n) ++ s.msgs n

end PFSQueues
open PFSQueues

section Changes
variable {bad : M → Bool} {x : Option String} {s t : PFSQueues M} {name n : String}
  {q : PFSQueue M} {who : SessionId} {w : QueueWait} {m : M}

theorem mem_waiting_queue : w ∈ s.waiting name ↔ w ∈ s.waits ∧ w.qName = name := by
  unfold PFSQueues.waiting
  rw [List.mem_filter]
  simp

theorem mem_queueEvents {j : QueueJoint} : j ∈ s.events name ↔ j ∈ s.joints ∧ j.qName = name := by
  unfold PFSQueues.events
  rw [List.mem_filter]
  simp

theorem inHand_append (out o : List (QueueOut M)) :
    inHand who (out ++ o) = o.foldl (handedStep who) (inHand who out) := List.foldl_append

theorem PFSQueues.Holds.waits (h : s.Holds who name m) :
    ∃ w ∈ s.waits, w.session = who ∧ w.qName = name := by
  obtain ⟨q, w, ws, ms, -, -, hw, hwho, -⟩ := h
  have hmem : w ∈ s.waiting name := hw ▸ List.mem_cons_self
  obtain ⟨hws, hn⟩ := mem_waiting_queue.mp hmem
  exact ⟨w, hws, hwho, hn⟩

/-- A session that waits in one queue has nothing of another. -/
theorem PFSQueues.Fair.holds_name (hs : s.Fair bad x) (hw : w ∈ s.waits)
    (h : s.Holds w.session n m) : n = w.qName := by
  obtain ⟨v, hv, hvw, hvn⟩ := h.waits
  rw [List.inj_on_of_nodup_map hs.once hv hw hvw] at hvn
  exact hvn.symm

/-- Only the queue `name` changes. -/
theorem PFSQueues.Fair.local (hs : s.Fair bad x) (y : Option String) (name : String)
    (hy : ∀ n, n ≠ name → x = some n → y = some n)
    (honce : (t.waits.map (·.session)).Nodup) (hopen : ∀ w ∈ t.waits, w.session ∈ t.adaptors)
    (hwname : ∀ w ∈ t.waits, w.qName = name → ∃ q, t.queue name = some q)
    (hjname : ∀ j ∈ t.joints, j.qName = name → ∃ q, t.queue name = some q)
    (hwaits : ∀ w ∈ t.waits, w.qName ≠ name → w ∈ s.waits)
    (hjoints : ∀ j ∈ t.joints, j.qName ≠ name → j ∈ s.joints)
    (hqueue : ∀ n, n ≠ name → t.queue n = s.queue n)
    (hwaiting : ∀ n, n ≠ name → t.waiting n = s.waiting n)
    (hq : ∀ q, t.queue name = some q → QueueFair bad (y ≠ some name) q (t.waiting name))
    (hhanded : ∀ who m, inHand who t.out = some (name, m) ↔ t.Holds who name m)
    (hothers : ∀ who n m, n ≠ name → (inHand who t.out = some (n, m) ↔
      inHand who s.out = some (n, m)))
    (hremoved : Removed t.out)
    (hkept : ∀ n, n ≠ name → t.out.filterMap (linkedTo n) = s.out.filterMap (linkedTo n) ∧
      t.out.filterMap (destroyedOf n) = s.out.filterMap (destroyedOf n))
    (horder : t.out.filterMap (linkedTo name) =
      t.out.filterMap (destroyedOf name) ++ t.msgs name) : t.Fair bad y := by
  constructor
  · exact honce
  · exact hopen
  · intro w hw
    by_cases hn : w.qName = name
    · rw [hn]
      exact hwname w hw hn
    · rw [hqueue _ hn]
      exact hs.wqueue w (hwaits w hw hn)
  · intro j hj
    by_cases hn : j.qName = name
    · rw [hn]
      exact hjname j hj hn
    · rw [hqueue _ hn]
      exact hs.jqueue j (hjoints j hj hn)
  · intro n q hnq
    by_cases hn : n = name
    · subst hn
      exact hq q hnq
    · rw [hqueue n hn] at hnq
      rw [hwaiting n hn]
      obtain ⟨h1, h2, h3, h4⟩ := hs.queues n q hnq
      refine ⟨h1, h2, h3, ?_⟩
      intro hyn
      apply h4
      simp only [ne_eq, decide_not, Bool.not_eq_true', decide_eq_false_iff_not] at hyn ⊢
      exact fun hx => hyn (hy n hn hx)
  · intro who n m
    by_cases hn : n = name
    · subst hn
      exact hhanded who m
    · rw [hothers who n m hn, hs.handed who n m]
      unfold Holds
      rw [hqueue n hn, hwaiting n hn]
  · exact hremoved
  · intro n
    by_cases hn : n = name
    · subst hn
      exact horder
    · obtain ⟨h1, h2⟩ := hkept n hn
      rw [h1, h2, hs.order n]
      unfold msgs
      rw [hqueue n hn]

theorem handedStep_silent {o : QueueOut M} (h : o.silent = true) (r : Option (String × M)) :
    handedStep who r o = r := by
  cases o <;> first | rfl | cases h

theorem foldl_silent {o : List (QueueOut M)} (h : ∀ y ∈ o, y.silent = true)
    (r : Option (String × M)) : o.foldl (handedStep who) r = r := by
  induction o with
  | nil => rfl
  | cons y o ih =>
      rw [List.foldl_cons, handedStep_silent (h y List.mem_cons_self)]
      exact ih fun z hz => h z (List.mem_cons_of_mem _ hz)

theorem filterMap_silent {o : List (QueueOut M)} (h : ∀ y ∈ o, y.silent = true) (n : String) :
    o.filterMap (linkedTo n) = [] ∧ o.filterMap (destroyedOf n) = [] := by
  constructor <;>
  · rw [List.filterMap_eq_nil_iff]
    intro y hy
    have hs := h y hy
    cases y <;> first | rfl | cases hs

theorem removed_silent {out o : List (QueueOut M)} (hr : Removed out)
    (h : ∀ y ∈ o, y.silent = true) : Removed (out ++ o) := by
  apply Each.append hr
  rintro y hy pre who n m rfl
  cases h _ hy

/-- Nothing is handed out, and of a queue at most the number of its events changes. -/
theorem PFSQueues.Fair.requeue (hs : s.Fair bad x) (q' : PFSQueue M) {o : List (QueueOut M)}
    (hq : s.queue name = some q) (hpeek : q'.qPeek = q.qPeek) (hcnt : q'.qCntMsg = q.qCntMsg)
    (hmsg : q'.qMsg = q.qMsg) (ho : ∀ y ∈ o, y.silent = true) :
    ({ s.setQueue name q' with out := s.out ++ o } : PFSQueues M).Fair bad x := by
  have hself : (s.setQueue name q').queue name = some q' := Function.update_self _ _ _
  obtain ⟨h1, h2, h3, h4⟩ := hs.queues name q hq
  apply hs.local x name (fun _ _ h => h)
  · exact hs.once
  · exact hs.wopen
  · exact fun _ _ _ => ⟨q', hself⟩
  · exact fun _ _ _ => ⟨q', hself⟩
  · exact fun _ hw _ => hw
  · exact fun _ hj _ => hj
  · exact fun n hn => Function.update_of_ne hn _ _
  · exact fun _ _ => rfl
  · intro p hp
    cases hself.symm.trans hp
    refine ⟨?_, ?_, ?_, ?_⟩
    · rw [hcnt, hmsg]
      exact h1
    · rw [hmsg]
      exact h2
    · rw [hpeek, hmsg]
      exact h3
    · rw [hpeek, hmsg]
      exact h4
  · intro who m
    have hsame : inHand who (s.out ++ o) = inHand who s.out := by
      rw [inHand_append, foldl_silent ho]
    change inHand who (s.out ++ o) = _ ↔ _
    rw [hsame, hs.handed]
    constructor
    · rintro ⟨p, w, ws, ms, hp, hpp, hw, hwho, hpm⟩
      cases hq.symm.trans hp
      exact ⟨q', w, ws, ms, hself, hpeek.trans hpp, hw, hwho, hmsg.trans hpm⟩
    · rintro ⟨p, w, ws, ms, hp, hpp, hw, hwho, hpm⟩
      cases hself.symm.trans hp
      exact ⟨q, w, ws, ms, hq, hpeek.symm.trans hpp, hw, hwho, hmsg.symm.trans hpm⟩
  · intro who n m _
    change inHand who (s.out ++ o) = _ ↔ _
    rw [inHand_append, foldl_silent ho]
  · exact removed_silent hs.removed ho
  · intro n _
    obtain ⟨h5, h6⟩ := filterMap_silent ho n
    rw [List.filterMap_append, List.filterMap_append, h5, h6, List.append_nil, List.append_nil]
    exact ⟨rfl, rfl⟩
  · obtain ⟨h5, h6⟩ := filterMap_silent ho name
    have hmsgs : PFSQueues.msgs name { s.setQueue name q' with out := s.out ++ o } =
        s.msgs name := by
      unfold PFSQueues.msgs
      rw [hself, hq]
      exact hmsg
    rw [hmsgs, List.filterMap_append, List.filterMap_append, h5, h6, List.append_nil,
      List.append_nil]
    exact hs.order name

theorem PFSQueues.Fair.send (hs : s.Fair bad x) {o : QueueOut M} (ho : o.silent = true) :
    (s.send o).Fair bad x := by
  have hall : ∀ y ∈ [o], y.silent = true := by simpa using ho
  constructor
  · exact hs.once
  · exact hs.wopen
  · exact hs.wqueue
  · exact hs.jqueue
  · exact hs.queues
  · intro who n m
    change inHand who (s.out ++ [o]) = _ ↔ _
    rw [inHand_append, foldl_silent hall]
    exact hs.handed who n m
  · exact removed_silent hs.removed hall
  · intro n
    obtain ⟨h1, h2⟩ := filterMap_silent hall n
    change (s.out ++ [o]).filterMap _ = (s.out ++ [o]).filterMap _ ++ _
    rw [List.filterMap_append, List.filterMap_append, h1, h2, List.append_nil, List.append_nil]
    exact hs.order n

theorem queueAt_ok (h : s.queue name = some q) : s.queueAt name = .ok q := by
  unfold PFSQueues.queueAt
  rw [h]

/-- The events are raised. -/
theorem queueNotify_ok (hs : s.Fair bad x) (hq : s.queue name = some q) (b : Bool) :
    ∃ t, pfsQueueNotify who name b s = .ok t ∧ t.Fair bad x ∧ t.waits = s.waits ∧
      t.joints = s.joints ∧ t.adaptors = s.adaptors ∧ ∃ q', t.queue name = some q' := by
  let q' : PFSQueue M := { q with qEventSeq := seqInc q.qEventSeq }
  let o : List (QueueOut M) := ((s.events name).filter fun j =>
    j.jAdaptor.process ≠ who.process).map
      fun j => .event j.jAdaptor name b who (seqInc q.qEventSeq)
  refine ⟨{ s.setQueue name q' with out := s.out ++ o }, ?_, ?_, rfl, rfl, rfl, q',
    Function.update_self _ _ _⟩
  · unfold pfsQueueNotify
    rw [queueAt_ok hq]
    rfl
  · apply hs.requeue q' hq rfl rfl rfl
    intro y hy
    obtain ⟨j, -, rfl⟩ := List.mem_map.mp hy
    rfl

/-- `c_Queue` after `QUEUE_ALLOC`, or as it was. -/
theorem queueAlloc_ok (hs : s.Fair bad none) (name : String) :
    ∃ q, (s.queueAlloc name).queue name = some q ∧ (s.queueAlloc name).Fair bad none ∧
      (s.queueAlloc name).waits = s.waits ∧ (s.queueAlloc name).joints = s.joints ∧
      (s.queueAlloc name).adaptors = s.adaptors := by
  unfold PFSQueues.queueAlloc
  cases hq : s.queue name with
  | some q => exact ⟨q, hq, hs, rfl, rfl, rfl⟩
  | none =>
      have hself : (s.setQueue name {}).queue name = some {} := Function.update_self _ _ _
      have hwaiting : s.waiting name = [] := by
        rw [List.eq_nil_iff_forall_not_mem]
        intro w hw
        obtain ⟨hws, rfl⟩ := mem_waiting_queue.mp hw
        obtain ⟨q, hwq⟩ := hs.wqueue w hws
        rw [hq] at hwq
        cases hwq
      refine ⟨{}, hself, ?_, rfl, rfl, rfl⟩
      change (s.setQueue name {}).Fair bad none
      apply hs.local none name (fun _ _ h => h)
      · exact hs.once
      · exact hs.wopen
      · exact fun _ _ _ => ⟨{}, hself⟩
      · exact fun _ _ _ => ⟨{}, hself⟩
      · exact fun _ hw _ => hw
      · exact fun _ hj _ => hj
      · exact fun n hn => Function.update_of_ne hn _ _
      · exact fun _ _ => rfl
      · intro p hp
        cases hself.symm.trans hp
        exact ⟨rfl, by simp, by simp, fun _ _ => .inl rfl⟩
      · intro who m
        change inHand who s.out = _ ↔ _
        rw [hs.handed]
        constructor
        · rintro ⟨p, w, ws, ms, hp, -⟩
          rw [hq] at hp
          cases hp
        · rintro ⟨p, w, ws, ms, hp, hpp, -⟩
          cases hself.symm.trans hp
          cases hpp
      · exact fun _ _ _ _ => Iff.rfl
      · exact hs.removed
      · exact fun _ _ => ⟨rfl, rfl⟩
      · have hnone : s.msgs name = [] := by
          unfold PFSQueues.msgs
          rw [hq]
          rfl
        have hnew : (s.setQueue name {}).msgs name = [] := by
          unfold PFSQueues.msgs
          rw [hself]
          rfl
        rw [hnew, ← hnone]
        exact hs.order name

/-- The first message is handed out, or nobody waits for one. -/
theorem PFSQueues.Fair.settle (hs : s.Fair bad (some name))
    (h : ∀ q, s.queue name = some q → q.qPeek = false → q.qMsg = [] ∨ s.waiting name = []) :
    s.Fair bad none := by
  refine ⟨hs.once, hs.wopen, hs.wqueue, hs.jqueue, ?_, hs.handed, hs.removed, hs.order⟩
  intro n q hq
  obtain ⟨h1, h2, h3, h4⟩ := hs.queues n q hq
  refine ⟨h1, h2, h3, ?_⟩
  intro _ hpeek
  by_cases hn : n = name
  · subst hn
    exact h q hq hpeek
  · exact h4 (by simpa using Ne.symm hn) hpeek

/-- The first message is sent to the first that waits. -/
theorem peekReply_ok {ws : List QueueWait} {ms : List M} (hs : s.Fair bad (some name))
    (hq : s.queue name = some q) (hpeek : q.qPeek = false) (hmsg : q.qMsg = m :: ms)
    (hw : s.waiting name = w :: ws) :
    ∃ t, pfsPeekReply bad w.session name s = .ok t ∧ t.Fair bad none ∧ t.waits = s.waits ∧
      t.joints = s.joints ∧ t.adaptors = s.adaptors ∧ ∃ q', t.queue name = some q' := by
  obtain ⟨hcount, hgood, -, -⟩ := hs.queues name q hq
  have hbad : bad m = false := hgood m (hmsg ▸ List.mem_cons_self)
  let q' : PFSQueue M := { q with qPeek := true }
  have hself : (s.setQueue name q').queue name = some q' := Function.update_self _ _ _
  have hfirst : w ∈ s.waits ∧ w.qName = name := mem_waiting_queue.mp (hw ▸ List.mem_cons_self)
  have hnone : inHand w.session s.out = none := by
    cases h : inHand w.session s.out with
    | none => rfl
    | some r =>
        obtain ⟨n, k⟩ := r
        have hold := (hs.handed _ n k).mp h
        have hn := hs.holds_name hfirst.1 hold
        obtain ⟨p, -, -, -, hp, hpp, -⟩ := hold
        rw [hn, hfirst.2] at hp
        cases hq.symm.trans hp
        rw [hpeek] at hpp
        cases hpp
  have hstep : ∀ who, inHand who (s.out ++ [.peekRpl w.session name m]) =
      if w.session = who then some (name, m) else inHand who s.out := by
    intro who
    rw [inHand_append]
    rfl
  refine ⟨(s.setQueue name q').send (.peekRpl w.session name m), ?_, ?_, rfl, rfl, rfl, q', hself⟩
  · unfold pfsPeekReply
    rw [queueAt_ok hq]
    simp [bind, Except.bind, hmsg, hbad, q']
  · apply hs.local none name
    · intro n hn h
      exact absurd (Option.some.inj h).symm hn
    · exact hs.once
    · exact hs.wopen
    · exact fun _ _ _ => ⟨q', hself⟩
    · exact fun _ _ _ => ⟨q', hself⟩
    · exact fun _ hw _ => hw
    · exact fun _ hj _ => hj
    · exact fun n hn => Function.update_of_ne hn _ _
    · exact fun _ _ => rfl
    · intro p hp
      cases hself.symm.trans hp
      refine ⟨hcount, hgood, ?_, ?_⟩
      · intro _
        change q.qMsg ≠ [] ∧ s.waiting name ≠ []
        rw [hmsg, hw]
        simp
      · intro _ h
        cases h
    · intro who k
      change inHand who (s.out ++ [.peekRpl w.session name m]) = _ ↔ _
      rw [hstep]
      constructor
      · intro h
        by_cases hwho : w.session = who
        · rw [if_pos hwho] at h
          cases h
          exact ⟨q', w, ws, ms, hself, rfl, hw, hwho, hmsg⟩
        · rw [if_neg hwho, hs.handed] at h
          obtain ⟨p, -, -, -, hp, hpp, -⟩ := h
          cases hq.symm.trans hp
          rw [hpeek] at hpp
          cases hpp
      · rintro ⟨p, v, vs, ks, hp, -, hv, hvw, hk⟩
        cases hself.symm.trans hp
        cases hw.symm.trans hv
        cases hmsg.symm.trans hk
        rw [if_pos hvw]
    · intro who n k hn
      change inHand who (s.out ++ [.peekRpl w.session name m]) = _ ↔ _
      rw [hstep]
      by_cases hwho : w.session = who
      · rw [if_pos hwho, ← hwho, hnone]
        constructor
        · intro h
          cases h
          exact absurd rfl hn
        · intro h
          cases h
      · rw [if_neg hwho]
    · apply Each.concat hs.removed
      intro who n k h
      cases h
    · intro n _
      change (s.out ++ [_]).filterMap _ = _ ∧ (s.out ++ [_]).filterMap _ = _
      rw [List.filterMap_append, List.filterMap_append]
      exact ⟨List.append_nil _, List.append_nil _⟩
    · have hmsgs : PFSQueues.msgs name ((s.setQueue name q').send (.peekRpl w.session name m)) =
          s.msgs name := by
        unfold PFSQueues.msgs
        rw [hq]
        change ((s.setQueue name q').queue name).elim [] _ = _
        rw [hself]
        rfl
      rw [hmsgs]
      change (s.out ++ [_]).filterMap _ = (s.out ++ [_]).filterMap _ ++ _
      rw [List.filterMap_append, List.filterMap_append]
      change _ ++ [] = (_ ++ []) ++ _
      rw [List.append_nil, List.append_nil]
      exact hs.order name

/-- `queueGarbage` frees a queue that nothing is linked to. -/
theorem queueGarbage_ok (hs : s.Fair bad none) (hq : s.queue name = some q) :
    ∃ t, queueGarbage name s = .ok t ∧ t.Fair bad none ∧ t.waits = s.waits ∧
      t.joints = s.joints ∧ t.adaptors = s.adaptors := by
  by_cases htie : q.qMsg = [] ∧ s.waiting name = [] ∧ s.events name = []
  · obtain ⟨hmsg, hw, he⟩ := htie
    refine ⟨{ s with queue := Function.update s.queue name none }, ?_, ?_, rfl, rfl, rfl⟩
    · unfold queueGarbage
      rw [queueAt_ok hq]
      simp only [bind, Except.bind]
      rw [if_pos ⟨hmsg, hw, he⟩]
    · apply hs.local none name (fun _ _ h => h)
      · exact hs.once
      · exact hs.wopen
      · intro w hws hn
        have hmem : w ∈ s.waiting name := mem_waiting_queue.mpr ⟨hws, hn⟩
        rw [hw] at hmem
        cases hmem
      · intro j hj hn
        have hmem : j ∈ s.events name := mem_queueEvents.mpr ⟨hj, hn⟩
        rw [he] at hmem
        cases hmem
      · exact fun _ hw _ => hw
      · exact fun _ hj _ => hj
      · exact fun n hn => Function.update_of_ne hn _ _
      · exact fun _ _ => rfl
      · intro p hp
        change Function.update s.queue name none name = some p at hp
        rw [Function.update_self] at hp
        cases hp
      · intro who k
        change inHand who s.out = _ ↔ _
        rw [hs.handed]
        constructor
        · rintro ⟨p, v, vs, ks, -, -, hv, -⟩
          rw [hw] at hv
          cases hv
        · rintro ⟨p, v, vs, ks, -, -, hv, -⟩
          change s.waiting name = v :: vs at hv
          rw [hw] at hv
          cases hv
      · exact fun _ _ _ _ => Iff.rfl
      · exact hs.removed
      · exact fun _ _ => ⟨rfl, rfl⟩
      · have h := hs.order name
        unfold PFSQueues.msgs at h ⊢
        rw [hq] at h
        change _ = _ ++ (Function.update s.queue name none name).elim [] _
        rw [Function.update_self]
        change _ = _ ++ q.qMsg at h
        rw [hmsg] at h
        exact h
  · refine ⟨s, ?_, hs, rfl, rfl, rfl⟩
    unfold queueGarbage
    rw [queueAt_ok hq]
    simp only [bind, Except.bind]
    rw [if_neg htie]

/-- A message is posted. -/
theorem link_fair (hs : s.Fair bad none) (hq : s.queue name = some q) (hm : bad m = false) :
    ((s.setQueue name { q with
      qMsg := q.qMsg ++ [m]
      qCntMsg := q.qCntMsg + 1 }).send (.linked name m)).Fair bad (some name) := by
  let q' : PFSQueue M := { q with qMsg := q.qMsg ++ [m], qCntMsg := q.qCntMsg + 1 }
  have hself : (s.setQueue name q').queue name = some q' := Function.update_self _ _ _
  obtain ⟨hcount, hgood, hpk, hidle⟩ := hs.queues name q hq
  have hstep : ∀ who, inHand who (s.out ++ [.linked name m]) = inHand who s.out := by
    intro who
    rw [inHand_append]
    rfl
  apply hs.local (some name) name
  · intro n _ h
    cases h
  · exact hs.once
  · exact hs.wopen
  · exact fun _ _ _ => ⟨q', hself⟩
  · exact fun _ _ _ => ⟨q', hself⟩
  · exact fun _ hw _ => hw
  · exact fun _ hj _ => hj
  · exact fun n hn => Function.update_of_ne hn _ _
  · exact fun _ _ => rfl
  · intro p hp
    cases hself.symm.trans hp
    refine ⟨?_, ?_, ?_, ?_⟩
    · change q.qCntMsg + 1 = ((q.qMsg ++ [m]).length : ℤ)
      rw [hcount, List.length_append]
      simp
    · intro k hk
      rcases List.mem_append.mp hk with hk | hk
      · exact hgood k hk
      · rwa [List.mem_singleton.mp hk]
    · intro hp
      exact ⟨by simp [q'], (hpk hp).2⟩
    · intro h
      simp at h
  · intro who k
    change inHand who (s.out ++ [.linked name m]) = _ ↔ _
    rw [hstep, hs.handed]
    constructor
    · rintro ⟨p, v, vs, ks, hp, hpp, hv, hvw, hk⟩
      cases hq.symm.trans hp
      exact ⟨q', v, vs, ks ++ [m], hself, hpp, hv, hvw, by simp [q', hk]⟩
    · rintro ⟨p, v, vs, ks, hp, hpp, hv, hvw, hk⟩
      cases hself.symm.trans hp
      obtain ⟨hne, -⟩ := hpk hpp
      obtain ⟨k', ks', hks⟩ := List.exists_cons_of_ne_nil hne
      have hk : q.qMsg ++ [m] = k :: ks := hk
      rw [hks, List.cons_append] at hk
      cases hk
      exact ⟨q, v, vs, ks', hq, hpp, hv, hvw, hks⟩
  · intro who n k _
    change inHand who (s.out ++ [.linked name m]) = _ ↔ _
    rw [hstep]
  · apply Each.concat hs.removed
    intro who n k h
    cases h
  · intro n hn
    change (s.out ++ [_]).filterMap _ = _ ∧ (s.out ++ [_]).filterMap _ = _
    rw [List.filterMap_append, List.filterMap_append]
    refine ⟨?_, List.append_nil _⟩
    simp [linkedTo, Ne.symm hn]
  · have hmsgs : PFSQueues.msgs name ((s.setQueue name q').send (.linked name m)) =
        s.msgs name ++ [m] := by
      unfold PFSQueues.msgs
      rw [hq]
      change ((s.setQueue name q').queue name).elim [] _ = _
      rw [hself]
      rfl
    rw [hmsgs]
    change (s.out ++ [_]).filterMap _ = (s.out ++ [_]).filterMap _ ++ _
    rw [List.filterMap_append, List.filterMap_append, hs.order name]
    simp [linkedTo, destroyedOf]

/-- A session comes to wait. -/
theorem join_fair (hs : s.Fair bad none) (hq : s.queue name = some q) (hwho : who ∈ s.adaptors)
    (hnot : ∀ w ∈ s.waits, w.session ≠ who) :
    ({ s with waits := s.waits ++ [⟨who, name⟩] } : PFSQueues M).Fair bad (some name) := by
  obtain ⟨hcount, hgood, hpk, hidle⟩ := hs.queues name q hq
  have hwaiting : ∀ n, PFSQueues.waiting n { s with waits := s.waits ++ [⟨who, name⟩] } =
      if n = name then s.waiting n ++ [⟨who, name⟩] else s.waiting n := by
    intro n
    unfold PFSQueues.waiting
    rw [List.filter_append]
    by_cases hn : n = name
    · simp [hn]
    · simp [hn, Ne.symm hn]
  apply hs.local (some name) name
  · intro n _ h
    cases h
  · rw [List.map_append, List.nodup_append]
    refine ⟨hs.once, by simp, ?_⟩
    intro x hx y hy
    obtain ⟨w, hw, rfl⟩ := List.mem_map.mp hx
    have hy : y = who := by simpa using hy
    rw [hy]
    exact hnot w hw
  · intro w hw
    rcases List.mem_append.mp hw with hw | hw
    · exact hs.wopen w hw
    · rw [List.mem_singleton.mp hw]
      exact hwho
  · exact fun _ _ _ => ⟨q, hq⟩
  · exact fun _ _ _ => ⟨q, hq⟩
  · intro w hw hn
    rcases List.mem_append.mp hw with hw | hw
    · exact hw
    · rw [List.mem_singleton.mp hw] at hn
      exact absurd rfl hn
  · exact fun _ hj _ => hj
  · exact fun _ _ => rfl
  · intro n hn
    rw [hwaiting, if_neg hn]
  · intro p hp
    cases hq.symm.trans hp
    refine ⟨hcount, hgood, ?_, ?_⟩
    · intro hp
      rw [hwaiting, if_pos rfl]
      exact ⟨(hpk hp).1, by simp⟩
    · intro h
      simp at h
  · intro v k
    change inHand v s.out = _ ↔ _
    rw [hs.handed]
    constructor
    · rintro ⟨p, w, ws, ks, hp, hpp, hw, hwv, hk⟩
      refine ⟨p, w, ws ++ [⟨who, name⟩], ks, hp, hpp, ?_, hwv, hk⟩
      rw [hwaiting, if_pos rfl, hw]
      rfl
    · rintro ⟨p, w, ws, ks, hp, hpp, hw, hwv, hk⟩
      cases hq.symm.trans hp
      rw [hwaiting, if_pos rfl] at hw
      obtain ⟨w', ws', hws⟩ := List.exists_cons_of_ne_nil (hpk hpp).2
      rw [hws, List.cons_append] at hw
      cases hw
      exact ⟨q, _, ws', ks, hq, hpp, hws, hwv, hk⟩
  · exact fun _ _ _ _ => Iff.rfl
  · exact hs.removed
  · exact fun _ _ => ⟨rfl, rfl⟩
  · exact hs.order name

/-- The session that has the first message gives it back, or has closed. -/
theorem unhand_fair {ws : List QueueWait} {o : QueueOut M} (q' : PFSQueue M)
    (hs : s.Fair bad none) (hq : s.queue name = some q) (hw : s.waiting name = w :: ws)
    (hpeek' : q'.qPeek = false)
    (hcount : q'.qCntMsg = q'.qMsg.length)
    (hmsg : q.qMsg = (destroyedOf name o).toList ++ q'.qMsg)
    (hstep : ∀ v r, handedStep v r o = if v = w.session then none else r)
    (hlinked : ∀ n, linkedTo n o = none) (hdest : ∀ n, n ≠ name → destroyedOf n o = none)
    (hrem : ∀ v n k, o = .destroyed v n k → inHand v s.out = some (n, k)) :
    ({ s.setQueue name q' with
      waits := s.waits.filter fun v => v.session ≠ w.session
      out := s.out ++ [o] } : PFSQueues M).Fair bad (some name) := by
  have hself : (s.setQueue name q').queue name = some q' := Function.update_self _ _ _
  obtain ⟨hws, hwn⟩ := mem_waiting_queue.mp (hw ▸ List.mem_cons_self : w ∈ s.waiting name)
  have hout : ∀ v, inHand v (s.out ++ [o]) = if v = w.session then none else inHand v s.out := by
    intro v
    rw [inHand_append]
    exact hstep v _
  have hgood : ∀ k ∈ q'.qMsg, bad k = false := by
    intro k hk
    apply (hs.queues name q hq).good
    rw [hmsg]
    exact List.mem_append_right _ hk
  apply hs.local (some name) name
  · intro n _ h
    cases h
  · exact hs.once.sublist (List.filter_sublist.map _)
  · intro v hv
    exact hs.wopen v (List.mem_filter.mp hv).1
  · exact fun _ _ _ => ⟨q', hself⟩
  · exact fun _ _ _ => ⟨q', hself⟩
  · intro v hv _
    exact (List.mem_filter.mp hv).1
  · exact fun _ hj _ => hj
  · exact fun n hn => Function.update_of_ne hn _ _
  · intro n hn
    unfold PFSQueues.waiting
    rw [List.filter_filter]
    apply List.filter_congr
    intro v hv
    have hne : v.qName = n → v.session ≠ w.session := by
      intro hvn hvw
      rw [List.inj_on_of_nodup_map hs.once hv hws hvw, hwn] at hvn
      exact hn hvn.symm
    by_cases hvn : v.qName = n
    · simp [hvn, hne hvn]
    · simp [hvn]
  · intro p hp
    cases hself.symm.trans hp
    refine ⟨hcount, hgood, ?_, ?_⟩
    · intro h
      rw [hpeek'] at h
      cases h
    · intro h
      simp at h
  · intro v k
    change inHand v (s.out ++ [o]) = _ ↔ _
    rw [hout]
    constructor
    · intro h
      by_cases hv : v = w.session
      · rw [if_pos hv] at h
        cases h
      · rw [if_neg hv, hs.handed] at h
        obtain ⟨p, x, xs, ks, hp, -, hx, hxv, -⟩ := h
        cases hw.symm.trans hx
        exact absurd hxv.symm hv
    · rintro ⟨p, x, xs, ks, hp, hpp, -⟩
      cases hself.symm.trans hp
      rw [hpeek'] at hpp
      cases hpp
  · intro v n k hn
    change inHand v (s.out ++ [o]) = _ ↔ _
    rw [hout]
    by_cases hv : v = w.session
    · rw [if_pos hv]
      constructor
      · intro h
        cases h
      · intro h
        rw [hs.handed, hv] at h
        exact absurd ((hs.holds_name hws h).trans hwn) hn
    · rw [if_neg hv]
  · exact Each.concat hs.removed hrem
  · intro n hn
    change (s.out ++ [_]).filterMap _ = _ ∧ (s.out ++ [_]).filterMap _ = _
    rw [List.filterMap_append, List.filterMap_append]
    simp [hlinked, hdest n hn]
  · have hmsgs : PFSQueues.msgs name { s.setQueue name q' with
        waits := s.waits.filter fun v => v.session ≠ w.session
        out := s.out ++ [o] } = q'.qMsg := by
      unfold PFSQueues.msgs
      rw [hself]
      rfl
    have hold : s.msgs name = (destroyedOf name o).toList ++ q'.qMsg := by
      unfold PFSQueues.msgs
      rw [hq]
      exact hmsg
    rw [hmsgs]
    change (s.out ++ [_]).filterMap _ = (s.out ++ [_]).filterMap _ ++ _
    rw [List.filterMap_append, List.filterMap_append, hs.order name, hold]
    cases hd : destroyedOf name o <;> simp [hlinked, hd]

/-- The next one has the next message. -/
theorem peekKick_ok (hs : s.Fair bad (some name)) (hq : s.queue name = some q)
    (hpeek : q.qPeek = false) :
    ∃ t, pfsPeekKick bad name s = .ok t ∧ t.Fair bad none ∧ t.waits = s.waits ∧
      t.joints = s.joints ∧ t.adaptors = s.adaptors := by
  have hidle (h : q.qMsg = [] ∨ s.waiting name = []) : s.Fair bad none := by
    apply hs.settle
    intro p hp _
    cases hq.symm.trans hp
    exact h
  unfold pfsPeekKick
  rw [queueAt_ok hq]
  simp only [bind, Except.bind]
  cases hmsg : q.qMsg with
  | nil => exact queueGarbage_ok (hidle (.inl hmsg)) hq
  | cons m ms =>
      cases hw : s.waiting name with
      | nil => exact queueGarbage_ok (hidle (.inr hw)) hq
      | cons w ws =>
          obtain ⟨t, ht, hf, hwt, hj, ha, -⟩ := peekReply_ok hs hq hpeek hmsg hw
          exact ⟨t, ht, hf, hwt, hj, ha⟩

end Changes

/-! ### Requests -/

section Requests
variable {bad : M → Bool} {s : PFSQueues M} {name : String} {who eqId : SessionId} {m : M}

theorem post_ok (hs : s.Fair bad none) (hm : bad m = false) :
    ∃ t, pfsPostS bad who name m s = .ok t ∧ t.Fair bad none := by
  obtain ⟨q, hq, hf, -⟩ := queueAlloc_ok hs name
  unfold pfsPostS
  simp only [bind, Except.bind]
  rw [queueAt_ok hq]
  simp only
  by_cases hmax : QUEUE_POST_MAX < q.qCntMsg
  · rw [if_pos hmax]
    exact ⟨_, rfl, hf.send rfl⟩
  · rw [if_neg hmax]
    have hlink := link_fair hf hq hm
    obtain ⟨u, hu⟩ : ∃ u, u = ((s.queueAlloc name).setQueue name { q with
        qMsg := q.qMsg ++ [m], qCntMsg := q.qCntMsg + 1 }).send (.linked name m) := ⟨_, rfl⟩
    rw [← hu] at hlink ⊢
    have huq : u.queue name = some { q with
        qMsg := q.qMsg ++ [m], qCntMsg := q.qCntMsg + 1 } := by
      rw [hu]
      exact Function.update_self _ _ _
    have hend : ∀ v : PFSQueues M, v.Fair bad none → (∃ p, v.queue name = some p) →
        ∃ t, pfsQueueNotify who name false (v.send (.postRpl who 0)) = .ok t ∧ t.Fair bad none := by
      rintro v hv ⟨p, hp⟩
      obtain ⟨t, ht, hft, -⟩ := queueNotify_ok (hv.send (o := .postRpl who 0) rfl) hp false
      exact ⟨t, ht, hft⟩
    cases hpeek : q.qPeek with
    | true =>
        apply hend u _ ⟨_, huq⟩
        apply hlink.settle
        intro p hp hpp
        cases huq.symm.trans hp
        rw [hpeek] at hpp
        cases hpp
    | false =>
        cases hw : u.waiting name with
        | nil => exact hend u (hlink.settle fun _ _ _ => .inr hw) ⟨_, huq⟩
        | cons w ws =>
            obtain ⟨k, ks, hk⟩ := List.exists_cons_of_ne_nil
              (List.append_ne_nil_of_right_ne_nil q.qMsg (List.cons_ne_nil m []))
            obtain ⟨v, hv, hfv, -, -, -, hvq⟩ := peekReply_ok hlink huq hpeek hk hw
            simp only [hv]
            exact hend v hfv hvq

theorem peek_ok (hs : s.Fair bad none) (hwho : who ∈ s.adaptors)
    (hnot : ∀ w ∈ s.waits, w.session ≠ who) :
    ∃ t, pfsPeekS bad who name s = .ok t ∧ t.Fair bad none := by
  obtain ⟨q, hq, hf, hwaits, -, hopen⟩ := queueAlloc_ok hs name
  rw [← hopen] at hwho
  have hjoin := join_fair hf hq hwho (hwaits ▸ hnot)
  unfold pfsPeekS
  rw [if_neg (not_not.mpr (hopen ▸ hwho)), if_neg (by simpa using hnot)]
  simp only [bind, Except.bind]
  obtain ⟨u, hu⟩ : ∃ u : PFSQueues M, u = { s.queueAlloc name with
      waits := (s.queueAlloc name).waits ++ [⟨who, name⟩] } := ⟨_, rfl⟩
  have huq : u.queue name = some q := by
    rw [hu]
    exact hq
  rw [← hu] at hjoin ⊢
  rw [queueAt_ok huq]
  simp only
  have hend : ∀ v : PFSQueues M, v.Fair bad none → (∃ p, v.queue name = some p) →
      ∃ t, (pfsQueueNotify who name true v).bind (fun v => queueGarbage name v) = .ok t ∧
        t.Fair bad none := by
    rintro v hv ⟨p, hp⟩
    obtain ⟨x, hx, hfx, -, -, -, r, hr⟩ := queueNotify_ok hv hp true
    obtain ⟨t, ht, hft, -⟩ := queueGarbage_ok hfx hr
    rw [hx]
    exact ⟨t, ht, hft⟩
  obtain ⟨hcount, -, -, -⟩ := hjoin.queues name q huq
  by_cases hgive : q.qPeek = false ∧ 0 < q.qCntMsg
  · rw [if_pos hgive]
    obtain ⟨hpeek, hpos⟩ := hgive
    have hne : q.qMsg ≠ [] := by
      intro hnil
      rw [hcount, hnil] at hpos
      exact absurd hpos (lt_irrefl _)
    obtain ⟨k, ks, hk⟩ := List.exists_cons_of_ne_nil hne
    -- nobody waited before
    have hfirst : u.waiting name = [⟨who, name⟩] := by
      have hnone := ((hf.queues name q hq).idle (by simp) hpeek).resolve_left hne
      rw [hu]
      unfold PFSQueues.waiting at hnone ⊢
      rw [List.filter_append, hnone]
      simp
    obtain ⟨v, hv, hfv, -, -, -, hvq⟩ := peekReply_ok hjoin huq hpeek hk hfirst
    simp only [hv]
    exact hend v hfv hvq
  · rw [if_neg hgive]
    apply hend u _ ⟨q, huq⟩
    apply hjoin.settle
    intro p hp hpeek
    cases huq.symm.trans hp
    left
    by_contra hne
    apply hgive
    refine ⟨hpeek, ?_⟩
    rw [hcount]
    exact_mod_cast List.length_pos_of_ne_nil hne

/-- What the session that was handed a message waits with. -/
theorem find_waiting (hs : s.Fair bad none) {w : QueueWait} (hw : w ∈ s.waits) :
    (s.waits.find? fun v => v.session = w.session) = some w := by
  cases hf : s.waits.find? fun v => v.session = w.session with
  | none =>
      simp only [List.find?_eq_none, decide_eq_true_eq] at hf
      exact absurd rfl (hf w hw)
  | some v =>
      have hv : v.session = w.session := by simpa using List.find?_some hf
      rw [List.inj_on_of_nodup_map hs.once (List.mem_of_find?_eq_some hf) hw hv]

theorem peekAck_ok (hs : s.Fair bad none) (h : s.Holds who name m) :
    ∃ t, pfsPeekAck bad who true s = .ok t ∧ t.Fair bad none := by
  have hhand := (hs.handed who name m).mpr h
  obtain ⟨q, w, ws, ms, hq, hpeek, hw, rfl, hmsg⟩ := h
  obtain ⟨hws, rfl⟩ := mem_waiting_queue.mp (hw ▸ List.mem_cons_self : w ∈ s.waiting name)
  obtain ⟨hcount, -, -, -⟩ := hs.queues _ q hq
  let q' : PFSQueue M := { q with qPeek := false, qMsg := ms, qCntMsg := q.qCntMsg - 1 }
  have hfair := unhand_fair (o := .destroyed w.session w.qName m) q' hs hq hw rfl
    (by
      change q.qCntMsg - 1 = ms.length
      rw [hcount, hmsg]
      simp)
    (by simp [destroyedOf, hmsg, q'])
    (by
      intro v r
      simp [handedStep, eq_comm])
    (fun _ => rfl)
    (by
      intro n hn
      simp [destroyedOf, Ne.symm hn])
    (by
      intro v n k hd
      cases hd
      exact hhand)
  obtain ⟨t, ht, hft, -⟩ := peekKick_ok hfair (Function.update_self _ _ _) rfl
  refine ⟨t, ?_, hft⟩
  rw [← ht]
  have hrem : pfsPeekRemove w.session w.qName true
      { s with waits := s.waits.filter fun v => v.session ≠ w.session } =
        .ok (({ s with waits := s.waits.filter fun v => v.session ≠ w.session }.setQueue w.qName
          { q with qMsg := ms, qCntMsg := q.qCntMsg - 1 }).send
            (.destroyed w.session w.qName m)) := by
    unfold pfsPeekRemove
    simp only [PFSQueues.queueAt, hq, bind, Except.bind, hmsg]
  unfold pfsPeekAck
  rw [find_waiting hs hws]
  simp only [bind, Except.bind]
  rw [hrem]
  simp only
  rw [queueAt_ok (q := { q with qMsg := ms, qCntMsg := q.qCntMsg - 1 })
    (Function.update_self _ _ _)]
  simp only
  rw [if_neg (by simp [hpeek])]
  congr 1
  unfold PFSQueues.setQueue PFSQueues.send
  simp only [Function.update_idem]
  rfl

/-- A session that was handed a message closes, and the next one is handed it. -/
theorem peekAck_closing (hs : s.Fair bad none) (h : s.Holds who name m) :
    ∃ t, pfsPeekAck bad who false (s.send (.closed who)) = .ok t ∧ t.Fair bad none ∧
      t.waits = (s.waits.filter fun v => v.session ≠ who) ∧ t.joints = s.joints ∧
      t.adaptors = s.adaptors := by
  obtain ⟨q, w, ws, ms, hq, hpeek, hw, rfl, hmsg⟩ := h
  obtain ⟨hws, rfl⟩ := mem_waiting_queue.mp (hw ▸ List.mem_cons_self : w ∈ s.waiting name)
  obtain ⟨hcount, -, -, -⟩ := hs.queues _ q hq
  let q' : PFSQueue M := { q with qPeek := false }
  have hfair := unhand_fair (o := .closed w.session) q' hs hq hw rfl hcount rfl
    (by
      intro v r
      simp [handedStep, eq_comm])
    (fun _ => rfl) (fun _ _ => rfl)
    (by
      intro v n k hd
      cases hd)
  obtain ⟨t, ht, hft, hwt, hj, ha⟩ := peekKick_ok hfair (Function.update_self _ _ _) rfl
  refine ⟨t, ?_, hft, hwt, hj, ha⟩
  rw [← ht]
  have hrem : pfsPeekRemove w.session w.qName false
      { s.send (.closed w.session) with
        waits := s.waits.filter fun v => v.session ≠ w.session } =
        .ok { s.send (.closed w.session) with
          waits := s.waits.filter fun v => v.session ≠ w.session } := by
    unfold pfsPeekRemove
    simp only [PFSQueues.queueAt, PFSQueues.send, hq, bind, Except.bind]
  unfold pfsPeekAck
  rw [show (s.send (.closed w.session)).waits = s.waits from rfl, find_waiting hs hws]
  simp only [bind, Except.bind]
  rw [hrem]
  simp only [PFSQueues.queueAt, PFSQueues.send, hq]
  rw [if_neg (by simp [hpeek])]
  rfl

/-- Other events are asked for, of queues that are there. -/
theorem PFSQueues.Fair.joints (hs : s.Fair bad none) {js : List QueueJoint}
    (h : ∀ j ∈ js, ∃ q, s.queue j.qName = some q) :
    ({ s with joints := js } : PFSQueues M).Fair bad none :=
  ⟨hs.once, hs.wopen, hs.wqueue, h, hs.queues, hs.handed, hs.removed, hs.order⟩

theorem queueEventFree_ok {j : QueueJoint} (hs : s.Fair bad none) (hj : j ∈ s.joints) :
    ∃ t, pfsQueueEventFree j s = .ok t ∧ t.Fair bad none ∧ t.waits = s.waits ∧
      t.joints = s.joints.erase j ∧ t.adaptors = s.adaptors := by
  obtain ⟨q, hq⟩ := hs.jqueue j hj
  exact queueGarbage_ok (hs.joints fun k hk => hs.jqueue k (List.mem_of_mem_erase hk)) hq

theorem queueEventFreeAll_ok (js : List QueueJoint) (hs : s.Fair bad none)
    (hjs : js.Subperm s.joints) :
    ∃ t, pfsQueueEventFreeAll js s = .ok t ∧ t.Fair bad none ∧ t.waits = s.waits ∧
      t.adaptors = s.adaptors := by
  induction js generalizing s with
  | nil => exact ⟨s, rfl, hs, rfl, rfl⟩
  | cons j js ih =>
      obtain ⟨u, hu, hfu, hwu, hju, hau⟩ := queueEventFree_ok hs (hjs.subset List.mem_cons_self)
      obtain ⟨t, ht, hft, hwt, hat⟩ := ih hfu (by
        rw [hju]
        have h := hjs.erase j
        rwa [List.erase_cons_head] at h)
      refine ⟨t, ?_, hft, hwt.trans hwu, hat.trans hau⟩
      unfold pfsQueueEventFreeAll
      rw [hu]
      exact ht

theorem eventQueue_ok {eqSet bBound : Bool} (hs : s.Fair bad none)
    (hset : eqId ∈ s.adaptors → eqSet = false → s.queue name ≠ none)
    (hbound : eqId ∉ s.adaptors → bBound = false) :
    ∃ t, pfsEventQueueS who eqId name eqSet bBound s = .ok t ∧ t.Fair bad none := by
  unfold pfsEventQueueS
  by_cases hid : eqId ∈ s.adaptors
  · rw [if_neg (not_not.mpr hid)]
    cases eqSet with
    | true =>
        obtain ⟨q, hq, hf, -, hj, -⟩ := queueAlloc_ok hs name
        refine ⟨_, rfl, Fair.send (Fair.joints hf ?_) rfl⟩
        intro j hj
        rcases List.mem_cons.mp hj with rfl | hj
        · exact ⟨q, hq⟩
        · exact hf.jqueue j hj
    | false =>
        obtain ⟨q, hq⟩ := Option.ne_none_iff_exists'.mp (hset hid rfl)
        simp only [Bool.false_eq_true, if_false, hq]
        by_cases hj : ⟨eqId, name⟩ ∈ s.joints
        · rw [if_pos hj]
          obtain ⟨t, ht, hft, -⟩ := queueEventFree_ok hs hj
          simp only [bind, Except.bind]
          rw [ht]
          exact ⟨_, rfl, hft.send rfl⟩
        · rw [if_neg hj]
          exact ⟨_, rfl, hs.send rfl⟩
  · rw [if_pos hid, hbound hid]
    exact ⟨_, rfl, hs.send rfl⟩

/-- A session closes that was handed nothing. -/
theorem closed_fair (hs : s.Fair bad none) (hnot : ∀ w ∈ s.waits, w.session ≠ who) :
    (s.send (.closed who)).Fair bad none := by
  have hstep : ∀ v, inHand v (s.out ++ [.closed who]) = inHand v s.out := by
    intro v
    rw [inHand_append]
    change (if who = v then none else inHand v s.out) = _
    by_cases hv : who = v
    · rw [if_pos hv]
      cases h : inHand v s.out with
      | none => rfl
      | some r =>
          obtain ⟨w, hw, hwv, -⟩ := ((hs.handed v r.1 r.2).mp h).waits
          exact absurd (hwv.trans hv.symm) (hnot w hw)
    · rw [if_neg hv]
  refine ⟨hs.once, hs.wopen, hs.wqueue, hs.jqueue, hs.queues, ?_, ?_, ?_⟩
  · intro v n k
    change inHand v (s.out ++ [.closed who]) = _ ↔ _
    rw [hstep]
    exact hs.handed v n k
  · apply Each.concat hs.removed
    intro v n k h
    cases h
  · intro n
    change (s.out ++ [_]).filterMap _ = (s.out ++ [_]).filterMap _ ++ _
    rw [List.filterMap_append, List.filterMap_append]
    change _ ++ [] = (_ ++ []) ++ _
    rw [List.append_nil, List.append_nil]
    exact hs.order n

theorem queueClose_ok (hs : s.Fair bad none)
    (h : (∀ w ∈ s.waits, w.session ≠ who) ∨ ∃ n m, s.Holds who n m) :
    ∃ t, pfsQueueClose bad who s = .ok t ∧ t.Fair bad none ∧
      t.waits = s.waits.filter fun w => w.session ≠ who := by
  unfold pfsQueueClose
  by_cases hopen : who ∈ s.adaptors
  · rw [if_neg (not_not.mpr hopen)]
    obtain ⟨u, hu, hfu, hwu, hju, hau⟩ : ∃ u,
        (if s.waits.any fun w => w.session = who then
          pfsPeekAck bad who false (s.send (.closed who)) else .ok (s.send (.closed who))) = .ok u ∧
        u.Fair bad none ∧ u.waits = (s.waits.filter fun w => w.session ≠ who) ∧
        u.joints = s.joints ∧ u.adaptors = s.adaptors := by
      rcases h with hnot | ⟨n, m, hold⟩
      · have hall : s.waits.filter (fun w => w.session ≠ who) = s.waits := by
          rw [List.filter_eq_self]
          intro w hw
          simpa using hnot w hw
        refine ⟨_, if_neg (by simpa using hnot), closed_fair hs hnot, hall.symm, rfl, rfl⟩
      · obtain ⟨w, hw, hwho, -⟩ := hold.waits
        rw [if_pos (by simpa using ⟨w, hw, hwho⟩)]
        exact peekAck_closing hs hold
    obtain ⟨t, ht, hft, hwt, hat⟩ := queueEventFreeAll_ok
      (u.joints.filter fun j => j.jAdaptor = who) hfu List.filter_sublist.subperm
    have hleft : t.waits = s.waits.filter fun w => w.session ≠ who := hwt.trans hwu
    refine ⟨{ t with adaptors := t.adaptors.erase who }, ?_, ?_, hleft⟩
    · have hsame : (s.send (.closed who)).waits = s.waits := rfl
      simp only [bind, Except.bind, hsame]
      by_cases hc : (s.waits.any fun w => w.session = who) = true
      · rw [if_pos hc] at hu ⊢
        rw [hu]
        simp only
        rw [ht]
      · rw [if_neg hc] at hu ⊢
        cases hu
        rw [ht]
    · refine ⟨hft.once, ?_, hft.wqueue, hft.jqueue, hft.queues, hft.handed, hft.removed,
        hft.order⟩
      intro w hw
      have hne : w.session ≠ who := by
        change w ∈ t.waits at hw
        rw [hleft] at hw
        simpa using (List.mem_filter.mp hw).2
      exact (List.mem_erase_of_ne hne).mpr (hft.wopen w hw)
  · rw [if_pos hopen]
    refine ⟨s, rfl, hs, ?_⟩
    symm
    rw [List.filter_eq_self]
    intro w hw
    simpa using ne_of_mem_of_not_mem (hs.wopen w hw) hopen

end Requests

/-- Requests that find their queue as they suppose it to be: a session peeks
that waits nowhere, and gives back what it was handed. -/
def Deliverable (bad : M → Bool) (s : PFSQueues M) : QueueOp M → Prop
  | .open _ => True
  | .post _ _ m => bad m = false
  | .peek who _ => who ∈ s.adaptors ∧ ∀ w ∈ s.waits, w.session ≠ who
  | .peekAck who name => s.queue name = none ∨ ∃ n m, s.Holds who n m
  | .eventQueue _ eqId name eqSet bBound =>
      (eqId ∈ s.adaptors → eqSet = false → s.queue name ≠ none) ∧
        (eqId ∉ s.adaptors → bBound = false)
  | .close who => (∀ w ∈ s.waits, w.session ≠ who) ∨ ∃ n m, s.Holds who n m

section Runs
variable {bad : M → Bool} {s t : PFSQueues M} {op : QueueOp M}

theorem queueStep_ok (hs : s.Fair bad none) (hop : Deliverable bad s op) :
    ∃ t, queueStep bad s op = .ok t ∧ t.Fair bad none := by
  cases op with
  | «open» who =>
      refine ⟨_, rfl, ?_⟩
      split_ifs with h
      · exact hs
      · refine ⟨hs.once, ?_, hs.wqueue, hs.jqueue, hs.queues, hs.handed, hs.removed, hs.order⟩
        intro w hw
        exact List.mem_cons_of_mem _ (hs.wopen w hw)
  | post who name m => exact post_ok hs hop
  | peek who name => exact peek_ok hs hop.1 hop.2
  | peekAck who name =>
      cases hq : s.queue name with
      | none =>
          refine ⟨_, ?_, hs.send (o := .peekAckRpl who ENOENT) rfl⟩
          change pfsPeekAckS bad who name s = _
          unfold pfsPeekAckS
          rw [hq]
      | some q =>
          obtain ⟨n, m, hold⟩ := hop.resolve_left (by simp [hq])
          obtain ⟨w, hw, hwho, -⟩ := hold.waits
          obtain ⟨t, ht, hft⟩ := peekAck_ok hs hold
          refine ⟨_, ?_, hft.send (o := .peekAckRpl who 0) rfl⟩
          change pfsPeekAckS bad who name s = _
          unfold pfsPeekAckS
          simp only [bind, Except.bind, hq]
          rw [if_neg (not_not.mpr (hwho ▸ hs.wopen w hw)), ht]
  | eventQueue who eqId name eqSet bBound => exact eventQueue_ok hs hop.1 hop.2
  | close who =>
      obtain ⟨t, ht, hft, -⟩ := queueClose_ok hs hop
      exact ⟨t, ht, hft⟩

theorem empty_fair : ({} : PFSQueues M).Fair bad none := by
  refine ⟨List.nodup_nil, by simp, by simp, by simp, ?_, ?_, each_nil, fun _ => rfl⟩
  · intro n q hq
    cases hq
  · intro who n m
    constructor
    · intro h
      cases h
    · rintro ⟨q, w, ws, ms, hq, -⟩
      cases hq

end Runs

/-- What the queues promise: the counts are right, `q_Peek` is set if and only
if a session has the first message, that session is the first that waits and no
other has it, a message is taken off by who has it, in the order of posting, and
a message that is there goes to who waits. -/
structure PFSQueues.Delivers (s : PFSQueues M) : Prop where
  count : ∀ n q, s.queue n = some q → q.qCntMsg = q.qMsg.length
  peek : ∀ n q, s.queue n = some q →
    (q.qPeek = true ↔ ∃ who m, inHand who s.out = some (n, m))
  first : ∀ who n m, inHand who s.out = some (n, m) ↔ s.Holds who n m
  alone : ∀ v w n k l, inHand v s.out = some (n, k) → inHand w s.out = some (n, l) → v = w
  removed : Removed s.out
  order : ∀ n, s.out.filterMap (linkedTo n) = s.out.filterMap (destroyedOf n) ++ s.msgs n
  served : ∀ n q, s.queue n = some q → q.qPeek = false → q.qMsg = [] ∨ s.waiting n = []

theorem PFSQueues.Fair.delivers {bad : M → Bool} {s : PFSQueues M} (hs : s.Fair bad none) :
    s.Delivers := by
  constructor
  · exact fun n q hq => (hs.queues n q hq).count
  · intro n q hq
    constructor
    · intro hpeek
      obtain ⟨hmsg, hw⟩ := (hs.queues n q hq).peek hpeek
      obtain ⟨m, ms, hm⟩ := List.exists_cons_of_ne_nil hmsg
      obtain ⟨w, ws, hw⟩ := List.exists_cons_of_ne_nil hw
      exact ⟨w.session, m, (hs.handed _ n m).mpr ⟨q, w, ws, ms, hq, hpeek, hw, rfl, hm⟩⟩
    · rintro ⟨who, m, h⟩
      obtain ⟨p, w, ws, ms, hp, hpeek, -⟩ := (hs.handed who n m).mp h
      cases hq.symm.trans hp
      exact hpeek
  · exact hs.handed
  · intro v w n k l hv hw
    obtain ⟨-, x, xs, -, -, -, hx, hxv, -⟩ := (hs.handed v n k).mp hv
    obtain ⟨-, y, ys, -, -, -, hy, hyw, -⟩ := (hs.handed w n l).mp hw
    cases hx.symm.trans hy
    exact hxv.symm.trans hyw
  · exact hs.removed
  · exact hs.order
  · exact fun n q hq => (hs.queues n q hq).idle (by simp)

/-- Where sessions peek that wait nowhere, give back what they were handed, and
close only if they wait nowhere or were handed a message, the queues deliver
each message to one session at a time and in order, and nothing fails. -/
theorem queue_delivers (bad : M → Bool) (ops : List (QueueOp M))
    (hops : Along (queueStep bad) (Deliverable bad) {} ops) :
    ∃ t, run (queueStep bad) {} ops = .ok t ∧ t.Delivers ∧
      ∀ who, Deliverable bad t (.close who) → ∃ u, queueStep bad t (.close who) = .ok u ∧
        u.Delivers ∧ u.waits = t.waits.filter fun w => w.session ≠ who := by
  have hstep : ∀ s op t, PFSQueues.Fair bad none s → Deliverable bad s op →
      queueStep bad s op = .ok t → t.Fair bad none := by
    intro s op t hs hop h
    obtain ⟨u, hu, hfu⟩ := queueStep_ok hs hop
    cases hu.symm.trans h
    exact hfu
  have herr : ∀ s op e, PFSQueues.Fair bad none s → Deliverable bad s op →
      queueStep bad s op = .error e → False := by
    intro s op e hs hop h
    obtain ⟨u, hu, -⟩ := queueStep_ok hs hop
    cases hu.symm.trans h
  cases ht : run (queueStep bad) {} ops with
  | error e => exact (run_error hstep herr empty_fair hops ht).elim
  | ok t =>
      have hft : t.Fair bad none := run_invariant hstep empty_fair hops ht
      refine ⟨t, rfl, hft.delivers, ?_⟩
      intro who hop
      obtain ⟨u, hu, hfu, hwu⟩ := queueClose_ok hft hop
      exact ⟨u, hu, hfu.delivers, hwu⟩

/-- A message is posted to a session that waits, which gives it back and closes. -/
theorem queue_delivers_first :
    ∃ t, run (queueStep fun _ => false) {} [.open (sessionOf 1 1), .open (sessionOf 2 1),
        .peek (sessionOf 1 1) "q", .post (sessionOf 2 1) "q" "m", .peekAck (sessionOf 1 1) "q",
        .close (sessionOf 1 1)] = .ok t ∧ t.Delivers := by
  have hops : Along (queueStep fun _ => false) (Deliverable fun _ => false) {}
      [.open (sessionOf 1 1), .open (sessionOf 2 1), .peek (sessionOf 1 1) "q",
        .post (sessionOf 2 1) "q" "m", .peekAck (sessionOf 1 1) "q", .close (sessionOf 1 1)] := by
    refine ⟨trivial, fun s hs => ?_⟩
    cases hs
    refine ⟨trivial, fun s hs => ?_⟩
    cases hs
    refine ⟨⟨List.mem_cons_of_mem _ List.mem_cons_self, fun w hw => (by cases hw)⟩, fun s hs => ?_⟩
    cases hs
    refine ⟨rfl, fun s hs => ?_⟩
    cases hs
    refine ⟨.inr ⟨"q", "m", _, ⟨sessionOf 1 1, "q"⟩, [], [], rfl, rfl, rfl, rfl, rfl⟩,
      fun s hs => ?_⟩
    cases hs
    exact ⟨.inl (fun w hw => (by cases hw)), fun _ _ => trivial⟩
  obtain ⟨t, ht, hd, -⟩ := queue_delivers (fun _ => false) _ hops
  exact ⟨t, ht, hd⟩

/-- The peeking session was handed nothing that it has not given back. -/
def Acked (s : PFSQueues M) : QueueOp M → Prop
  | .peek who _ => inHand who s.out = none
  | _ => True

/-- A session that only waits takes off what another was handed. Its closing
hands the message out again, and fails if there is none. -/
theorem queue_not_delivers :
    (¬ ∀ (ops : List (QueueOp String)), Along (queueStep fun _ => false) Acked {} ops →
      ∀ t, run (queueStep fun _ => false) {} ops = .ok t → t.Delivers) ∧
    (¬ ∀ (ops : List (QueueOp String)), Along (queueStep fun _ => false) Acked {} ops →
      ∀ t u who, run (queueStep fun _ => false) {} ops = .ok t → inHand who t.out = none →
        queueStep (fun _ => false) t (.close who) = .ok u → u.out = t.out ++ [.closed who]) ∧
    ¬ ∀ (ops : List (QueueOp String)), Along (queueStep fun _ => false) Acked {} ops →
      run (queueStep fun _ => false) {} ops ≠ .error .assertPeek := by
  let waits : List (QueueOp String) := [.open (sessionOf 1 1), .open (sessionOf 2 1),
    .peek (sessionOf 1 1) "q", .peek (sessionOf 2 1) "q", .post (sessionOf 2 1) "q" "m"]
  have hwaits : ∀ ops : List (QueueOp String), (∀ s, Along (queueStep fun _ => false) Acked s ops) →
      Along (queueStep fun _ => false) Acked {} (waits ++ ops) := by
    intro ops hops
    refine ⟨trivial, fun s hs => ?_⟩
    cases hs
    refine ⟨trivial, fun s hs => ?_⟩
    cases hs
    refine ⟨rfl, fun s hs => ?_⟩
    cases hs
    refine ⟨rfl, fun s hs => ?_⟩
    cases hs
    exact ⟨trivial, fun s _ => hops s⟩
  refine ⟨?_, ?_, ?_⟩
  · intro h
    have hd := h _ (hwaits [.peekAck (sessionOf 2 1) "q"] fun _ => ⟨trivial, fun _ _ => trivial⟩)
      _ rfl
    have hm := hd.removed [.linked "q" "m", .peekRpl (sessionOf 1 1) "q" "m",
      .postRpl (sessionOf 2 1) 0] (.destroyed (sessionOf 2 1) "q" "m") _ rfl _ _ _ rfl
    cases hm
  · intro h
    have hc := h _ (hwaits [] fun _ => trivial) _ _ (sessionOf 2 1) rfl rfl rfl
    cases hc
  · intro h
    apply h [.open (sessionOf 1 1), .peek (sessionOf 1 1) "q", .close (sessionOf 1 1)]
    · refine ⟨trivial, fun s hs => ?_⟩
      cases hs
      exact ⟨rfl, fun s _ => ⟨trivial, fun _ _ => trivial⟩⟩
    · rfl

end PaxosSolutions
