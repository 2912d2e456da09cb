import PaxosSolutions.Lib.Run
import PaxosSolutions.Session.Data

/-!
# Connections and the accept objects they are bound to

`BIND` ties a connection to its session's accept object and keeps the
reference it got; workers and the executor get one for as long as they use the
object. The disconnect of a connection acts on the accept object, whichever
connection is bound to it by then.
-/
namespace PaxosSolutions
open Lib NWGadget

/-- An acceptor's accept objects and who refers to them: the connections bound
through `e_pAccept`, the latest last, and the users in progress. `aborts` are
the commands that were proposed for sessions it gave up. -/
structure Binding where
  cAccept : AcceptCtrl := { geMaxCnt := 20000 }
  ePAccept : List (Fd × SessionId) := []
  users : List SessionId := []
  master : Bool := false
  aborts : List PaxosSessionHead := []

namespace Binding

/-- The references to the accept object of a session. -/
def holders (b : Binding) (s : SessionId) : ℕ :=
  (b.ePAccept.map (·.2)).count s + b.users.count s

/-- The session's connection that was bound last. -/
def newest (b : Binding) (s : SessionId) : Option Fd :=
  ((b.ePAccept.filter fun p => p.2 = s).getLast?).map (·.1)

end Binding

/-- The command of `_SessionAbortSend`: the next number of the session. -/
def sessionAbort (a : PaxosAccept) : PaxosSessionHead :=
  { hCmd := .sessionAbort, hId := { a.aId with iSeq := a.aId.iSeq + 1 } }

/-- `_SessionAbortSend` where the accept object meets `p`. -/
def abortSend (p : PaxosAccept → Bool) (s : SessionId) (b : Binding) : Binding :=
  match b.cAccept.val s with
  | none => b
  | some a => if b.master = true ∧ p a = true then { b with aborts := b.aborts ++ [sessionAbort a] } else b

/-- `PaxosDisconnectAccept`. `errno` is cleared on its entry, so the branch that
puts the abort off is not taken. -/
def paxosDisconnectAccept (s : SessionId) (b : Binding) : Binding :=
  abortSend (fun a => a.aOpened ≠ .binded ∧ a.aOpened ≠ .closing) s
    { b with cAccept := b.cAccept.change s fun a => { a with aPFd := none } }

inductive BindingOp where
  | get (i : PaxosClientId) (bCreate : Bool)
  | put (s : SessionId)
  | bind (fd : Fd) (s : SessionId)
  | opened (s : SessionId) (o : PaxosAcceptOpen)
  | acceptedSeq (s : SessionId) (seq : UInt32)
  | disconnect (fd : Fd)
  | garbage (s : SessionId)
  | elect (master : Bool)

/-- What happens to the accept objects under their locks. A `bind` or a change
is by a user that got the object; the worker that handles a disconnect is its
user until it puts it. -/
def bindingStep (b : Binding) : BindingOp → Except GElmFault Binding
  | .get i bCreate =>
      (paxosAcceptGet i bCreate b.cAccept).map fun c =>
        { b with
          cAccept := c
          users := if (c.find i.toSessionId).isSome then i.toSessionId :: b.users else b.users }
  | .put s =>
      if s ∈ b.users then
        (paxosAcceptPut s b.cAccept).map fun c => { b with cAccept := c, users := b.users.erase s }
      else .ok b
  | .bind fd s =>
      if s ∈ b.users then
        .ok { b with
          cAccept := b.cAccept.change s fun a => { a with aPFd := some fd }
          ePAccept := (b.ePAccept.filter fun p => p.1 ≠ fd) ++ [(fd, s)]
          users := b.users.erase s }
      else .ok b
  | .opened s o =>
      if s ∈ b.users then
        .ok { b with cAccept := b.cAccept.change s fun a => { a with aOpened := o } }
      else .ok b
  | .acceptedSeq s seq =>
      if s ∈ b.users then
        .ok { b with cAccept :=
          b.cAccept.change s fun a => { a with aId := { a.aId with iSeq := seq } } }
      else .ok b
  | .disconnect fd =>
      match b.ePAccept.find? fun p => p.1 = fd with
      | none => .ok b
      | some p =>
          .ok (paxosDisconnectAccept p.2 { b with
            ePAccept := b.ePAccept.filter fun p => p.1 ≠ fd, users := p.2 :: b.users })
  | .garbage s => .ok (abortSend (fun a => a.aPFd = none) s b)
  | .elect master => .ok { b with master := master }

/-- A connection is bound once, as the client does it. -/
def BindsOnce (b : Binding) : BindingOp → Prop
  | .bind fd _ => fd ∉ b.ePAccept.map (·.1)
  | _ => True

instance decidableBindsOnce (b : Binding) : (op : BindingOp) → Decidable (BindsOnce b op)
  | .bind fd _ => inferInstanceAs (Decidable (fd ∉ b.ePAccept.map (·.1)))
  | .get _ _ | .put _ | .opened _ _ | .acceptedSeq _ _ | .disconnect _ | .garbage _ | .elect _ =>
      .isTrue trivial

/-- A disconnect leaves a session to the newer connection that is bound to it. -/
def LeavesNewer (b : Binding) : BindingOp → Prop
  | .disconnect fd => ∀ s newer, (fd, s) ∈ b.ePAccept → b.newest s = some newer → newer ≠ fd →
      ∀ t, bindingStep b (.disconnect fd) = .ok t →
        (t.cAccept.val s).bind (·.aPFd) = some newer ∧ t.aborts = b.aborts
  | _ => True

/-- No connection is lost while a newer one is bound to its session. -/
def NoneNewer (b : Binding) : BindingOp → Prop
  | .disconnect fd => ∀ s, (fd, s) ∈ b.ePAccept → b.newest s = some fd
  | _ => True

/-! ### Who refers to an accept object -/

/-- The counts are right, a connection is bound to one session, and replies go
to the connection that was bound last. -/
structure Binding.Sound (b : Binding) : Prop where
  held : b.cAccept.Held b.holders
  fds : (b.ePAccept.map (·.1)).Nodup
  latest : ∀ s a fd, b.cAccept.val s = some a → a.aPFd = some fd → b.newest s = some fd

section Steps
variable {b t : Binding} {s : SessionId} {fd : Fd}

theorem newest_mem (h : b.newest s = some fd) : (fd, s) ∈ b.ePAccept := by
  unfold Binding.newest at h
  obtain ⟨p, hp, rfl⟩ := Option.map_eq_some_iff.mp h
  have hp := List.mem_of_getLast? hp
  obtain ⟨hp, hs⟩ := List.mem_filter.mp hp
  rw [← of_decide_eq_true hs]
  exact hp

theorem newest_of_mem (h : (fd, s) ∈ b.ePAccept) : ∃ newer, b.newest s = some newer := by
  have hne : (b.ePAccept.filter fun p => p.2 = s) ≠ [] := by
    apply List.ne_nil_of_mem
    exact List.mem_filter.mpr ⟨h, by simp⟩
  unfold Binding.newest
  rw [List.getLast?_eq_some_getLast hne]
  exact ⟨_, rfl⟩

theorem holders_of_mem (h : (fd, s) ∈ b.ePAccept) : b.holders s ≠ 0 := by
  have hpos : 0 < (b.ePAccept.map (·.2)).count s :=
    List.count_pos_iff.mpr (List.mem_map.mpr ⟨(fd, s), h, rfl⟩)
  unfold Binding.holders
  omega

theorem count_erase_fd {l : List (Fd × SessionId)} (hn : (l.map (·.1)).Nodup) (h : (fd, s) ∈ l)
    (r : SessionId) :
    ((l.filter fun p => p.1 ≠ fd).map (·.2)).count r + (if r = s then 1 else 0) =
      (l.map (·.2)).count r := by
  induction l with
  | nil => cases h
  | cons p l ih =>
      obtain ⟨hp, hn⟩ := List.nodup_cons.mp hn
      rcases List.mem_cons.mp h with rfl | h
      · have hl : (l.filter fun q => q.1 ≠ fd) = l := by
          rw [List.filter_eq_self]
          intro q hq
          have hne : q.1 ≠ fd := by
            intro hqf
            exact hp (List.mem_map.mpr ⟨q, hq, hqf⟩)
          simpa using hne
        rw [List.filter_cons_of_neg (by simp), hl, List.map_cons, List.count_cons]
        congr 1
        rcases eq_or_ne r s with rfl | hr
        · rw [if_pos rfl, if_pos (beq_self_eq_true r)]
        · rw [if_neg hr, if_neg (by simpa using hr.symm)]
      · have hne : p.1 ≠ fd := by
          intro hpf
          exact hp (List.mem_map.mpr ⟨(fd, s), h, hpf.symm⟩)
        rw [List.filter_cons_of_pos (by simpa using hne), List.map_cons, List.map_cons,
          List.count_cons, List.count_cons, ← ih hn h]
        omega

theorem change_sound {g : PaxosAccept → PaxosAccept} (hb : b.Sound)
    (hg : ∀ a, (g a).aPFd = a.aPFd) : ({ b with cAccept := b.cAccept.change s g } : Binding).Sound := by
  refine ⟨hb.held.change, hb.fds, ?_⟩
  intro r a fd ha hfd
  change (b.cAccept.change s g).val r = some a at ha
  rw [GElmCtrl.val_change] at ha
  split_ifs at ha
  · obtain ⟨a', ha', rfl⟩ := Option.map_eq_some_iff.mp ha
    rw [hg] at hfd
    exact hb.latest r a' fd ha' hfd
  · exact hb.latest r a fd ha hfd

theorem abortSend_sound {p : PaxosAccept → Bool} (hb : b.Sound) : (abortSend p s b).Sound := by
  unfold abortSend
  split
  · exact hb
  · split_ifs
    · exact ⟨hb.held, hb.fds, hb.latest⟩
    · exact hb

theorem get_sound {i : PaxosClientId} {bCreate : Bool} (hb : b.Sound)
    (h : bindingStep b (.get i bCreate) = .ok t) : t.Sound := by
  unfold bindingStep paxosAcceptGet at h
  cases hget : b.cAccept.get (acceptFn i) i.toSessionId bCreate with
  | error e =>
      simp only [hget] at h
      cases h
  | ok c =>
      simp only [hget] at h
      cases h
      refine ⟨?_, hb.fds, ?_⟩
      · apply (GElmCtrl.get_held hb.held hget).congr
        intro r
        dsimp only [Binding.holders]
        split_ifs with hsome
        · rw [Function.update_apply, List.count_cons]
          rcases eq_or_ne r i.toSessionId with rfl | hr
          · simp [Nat.add_assoc]
          · simp [Binding.holders, hr, Ne.symm hr]
        · rfl
      · intro r a fd ha hfd
        rcases GElmCtrl.get_val hb.held.nodup hget ha with ha |
          ⟨rfl, rfl | ⟨-, -, j, w, hcnt, hw, hu⟩⟩
        · exact hb.latest r a fd ha hfd
        · cases hfd
        · -- the unused element had no connection
          have hwfd : w.aPFd = some fd := by
            simp only [acceptFn, acceptUnset, Option.map_eq_some_iff] at hu
            obtain ⟨u, hu, rfl⟩ := hu
            split_ifs at hu
            cases hu
            exact hfd
          have hmem := newest_mem (hb.latest j w fd hw hwfd)
          exact absurd ((hb.held.cnt j).symm.trans hcnt) (holders_of_mem hmem)

theorem put_sound (hb : b.Sound) (h : bindingStep b (.put s) = .ok t) : t.Sound := by
  unfold bindingStep paxosAcceptPut at h
  simp only at h
  split_ifs at h with hs
  · cases hput : b.cAccept.put (acceptFn {}) s with
    | error e =>
        simp only [hput] at h
        cases h
    | ok c =>
        simp only [hput] at h
        cases h
        refine ⟨?_, hb.fds, ?_⟩
        · apply (GElmCtrl.put_held hb.held hput).1.congr
          intro r
          have hpos : 0 < b.users.count s := List.count_pos_iff.mpr hs
          dsimp only [Binding.holders]
          rw [Function.update_apply]
          split_ifs with hr
          · subst hr
            rw [List.count_erase_self]
            omega
          · rw [List.count_erase_of_ne hr]
            rfl
        · intro r a fd ha hfd
          exact hb.latest r a fd (GElmCtrl.put_val hb.held.nodup hput ha) hfd
  · cases h
    exact hb

theorem bind_sound (hb : b.Sound) (hop : BindsOnce b (.bind fd s))
    (h : bindingStep b (.bind fd s) = .ok t) : t.Sound := by
  unfold bindingStep at h
  simp only at h
  split_ifs at h with hs
  · cases h
    have hl : (b.ePAccept.filter fun p => p.1 ≠ fd) = b.ePAccept := by
      rw [List.filter_eq_self]
      intro p hp
      have hne : p.1 ≠ fd := by
        intro hpf
        exact hop (List.mem_map.mpr ⟨p, hp, hpf⟩)
      simpa using hne
    have hpos : 0 < b.users.count s := List.count_pos_iff.mpr hs
    rw [hl]
    constructor
    · have hheld := hb.held.change (k := s) (g := fun a => { a with aPFd := some fd })
      apply hheld.congr
      intro r
      dsimp only [Binding.holders]
      rw [List.map_append, List.count_append]
      rcases eq_or_ne r s with rfl | hr
      · simp only [List.map_cons, List.map_nil, List.count_singleton_self, List.count_erase_self]
        omega
      · rw [List.count_erase_of_ne hr]
        simp [hr.symm]
    · dsimp only
      rw [List.map_append, List.nodup_append]
      refine ⟨hb.fds, by simp, ?_⟩
      intro d hd e he
      obtain ⟨p, hp, rfl⟩ := List.mem_map.mp hd
      have he : e = fd := by simpa using he
      rw [he]
      intro hpf
      exact hop (List.mem_map.mpr ⟨p, hp, hpf⟩)
    · intro r a d ha hd
      dsimp only at ha
      rw [GElmCtrl.val_change] at ha
      dsimp only [Binding.newest]
      rw [List.filter_append]
      split_ifs at ha with hr
      · subst hr
        obtain ⟨a', ha', rfl⟩ := Option.map_eq_some_iff.mp ha
        cases hd
        simp
      · rw [List.filter_cons_of_neg (by simpa using Ne.symm hr), List.filter_nil, List.append_nil]
        exact hb.latest r a d ha hd
  · cases h
    exact hb

theorem disconnect_ok {p : Fd × SessionId} (hp : b.ePAccept.find? (fun p => p.1 = fd) = some p)
    (h : bindingStep b (.disconnect fd) = .ok t) :
    t = paxosDisconnectAccept p.2 { b with
      ePAccept := b.ePAccept.filter fun p => p.1 ≠ fd, users := p.2 :: b.users } := by
  unfold bindingStep at h
  simp only [hp] at h
  cases h
  rfl

theorem disconnect_sound (hb : b.Sound) (h : bindingStep b (.disconnect fd) = .ok t) :
    t.Sound := by
  cases hp : b.ePAccept.find? (fun p => p.1 = fd) with
  | none =>
      unfold bindingStep at h
      simp only [hp] at h
      cases h
      exact hb
  | some p =>
      have hpm := List.mem_of_find?_eq_some hp
      have hpf : p.1 = fd := by simpa using List.find?_some hp
      rw [disconnect_ok hp h]
      apply abortSend_sound
      constructor
      · have hheld := hb.held.change (k := p.2) (g := fun a => { a with aPFd := none })
        apply hheld.congr
        intro r
        dsimp only [Binding.holders]
        have hin : (fd, p.2) ∈ b.ePAccept := hpf ▸ hpm
        have hcount := count_erase_fd hb.fds hin r
        rw [List.count_cons]
        rcases eq_or_ne r p.2 with rfl | hr
        · simp only [if_true, beq_self_eq_true] at hcount ⊢
          omega
        · rw [if_neg hr] at hcount
          rw [if_neg (by simpa using hr.symm)]
          omega
      · exact hb.fds.sublist (List.filter_sublist.map _)
      · intro r a d ha hd
        dsimp only at ha
        rw [GElmCtrl.val_change] at ha
        split_ifs at ha with hr
        · obtain ⟨a', -, rfl⟩ := Option.map_eq_some_iff.mp ha
          cases hd
        · have hnew := hb.latest r a d ha hd
          -- the lost connection was bound to another session
          have hl : ((b.ePAccept.filter fun p => p.1 ≠ fd).filter fun p => p.2 = r) =
              b.ePAccept.filter fun p => p.2 = r := by
            rw [List.filter_filter]
            apply List.filter_congr
            intro q hq
            by_cases hqr : q.2 = r
            · have hqf : q.1 ≠ fd := by
                intro hqf
                apply hr
                rw [← hqr, List.inj_on_of_nodup_map hb.fds hq hpm (hqf.trans hpf.symm)]
              simp [hqf, hqr]
            · simp [hqr]
          unfold Binding.newest
          dsimp only
          rw [hl]
          exact hnew

theorem step_sound {op : BindingOp} (hb : b.Sound) (hop : BindsOnce b op)
    (h : bindingStep b op = .ok t) : t.Sound := by
  cases op with
  | get i bCreate => exact get_sound hb h
  | put s => exact put_sound hb h
  | bind fd s => exact bind_sound hb hop h
  | opened s o =>
      unfold bindingStep at h
      simp only at h
      split_ifs at h
      · cases h
        exact change_sound hb fun _ => rfl
      · cases h
        exact hb
  | acceptedSeq s seq =>
      unfold bindingStep at h
      simp only at h
      split_ifs at h
      · cases h
        exact change_sound hb fun _ => rfl
      · cases h
        exact hb
  | disconnect fd => exact disconnect_sound hb h
  | garbage s =>
      cases h
      exact abortSend_sound hb
  | elect master =>
      cases h
      exact ⟨hb.held, hb.fds, hb.latest⟩

theorem abortSend_cAccept {p : PaxosAccept → Bool} : (abortSend p s b).cAccept = b.cAccept := by
  unfold abortSend
  split
  · rfl
  · split_ifs <;> rfl

/-- A disconnect leaves no connection to its session, a newer one or not. -/
theorem disconnect_clears (hb : b.Sound) (hs : (fd, s) ∈ b.ePAccept)
    (h : bindingStep b (.disconnect fd) = .ok t) : (t.cAccept.val s).bind (·.aPFd) = none := by
  have hfind : b.ePAccept.find? (fun p => p.1 = fd) = some (fd, s) := by
    cases hp : b.ePAccept.find? (fun p => p.1 = fd) with
    | none =>
        simp only [List.find?_eq_none, decide_eq_true_eq] at hp
        exact absurd rfl (hp (fd, s) hs)
    | some p =>
        have hpf : p.1 = fd := by simpa using List.find?_some hp
        rw [List.inj_on_of_nodup_map hb.fds (List.mem_of_find?_eq_some hp) hs hpf]
  rw [disconnect_ok hfind h]
  unfold paxosDisconnectAccept
  rw [abortSend_cAccept]
  dsimp only
  rw [GElmCtrl.val_change, if_pos rfl]
  cases b.cAccept.val s <;> rfl

theorem leavesNewer_iff {op : BindingOp} (hb : b.Sound) : LeavesNewer b op ↔ NoneNewer b op := by
  cases op with
  | disconnect fd =>
      constructor
      · intro h s hs
        obtain ⟨newer, hnew⟩ := newest_of_mem hs
        by_cases hne : newer = fd
        · rw [← hne]
          exact hnew
        · have ht : ∃ t, bindingStep b (.disconnect fd) = .ok t := by
            unfold bindingStep
            simp only
            split <;> exact ⟨_, rfl⟩
          obtain ⟨t, ht⟩ := ht
          have hleft := (h s newer hs hnew hne t ht).1
          rw [disconnect_clears hb hs ht] at hleft
          cases hleft
      · intro h s newer hs hnew hne
        rw [h s hs] at hnew
        exact absurd (Option.some.inj hnew).symm hne
  | _ => exact Iff.rfl

end Steps

/-- What an acceptor starts with. -/
def Binding.start (master : Bool) : Binding := { master := master }

theorem start_sound {master : Bool} : (Binding.start master).Sound := by
  constructor
  · exact ⟨List.nodup_nil, fun _ => rfl⟩
  · exact List.nodup_nil
  · intro s a fd ha
    cases ha

theorem along_iff {ops : List BindingOp} {b : Binding} (hb : b.Sound)
    (hops : Along bindingStep BindsOnce b ops) :
    Along bindingStep LeavesNewer b ops ↔ Along bindingStep NoneNewer b ops := by
  induction ops generalizing b with
  | nil => exact Iff.rfl
  | cons op ops ih =>
      have hrest : ∀ t, bindingStep b op = .ok t →
          (Along bindingStep LeavesNewer t ops ↔ Along bindingStep NoneNewer t ops) := by
        intro t ht
        exact ih (step_sound hb hops.1 ht) (hops.2 t ht)
      constructor
      · intro h
        exact ⟨(leavesNewer_iff hb).mp h.1, fun t ht => (hrest t ht).mp (h.2 t ht)⟩
      · intro h
        exact ⟨(leavesNewer_iff hb).mpr h.1, fun t ht => (hrest t ht).mpr (h.2 t ht)⟩

/-- The counts are the references and replies go to the connection that was
bound last, in every run. The disconnects of a run leave sessions to their
newer connections if and only if none of them meets one. -/
theorem binding_reconnect (master : Bool) (ops : List BindingOp)
    (hops : Along bindingStep BindsOnce (.start master) ops) :
    (∀ t, run bindingStep (.start master) ops = .ok t → t.cAccept.Held t.holders ∧
      ∀ s a fd, t.cAccept.val s = some a → a.aPFd = some fd → t.newest s = some fd) ∧
      (Along bindingStep LeavesNewer (.start master) ops ↔
        Along bindingStep NoneNewer (.start master) ops) := by
  constructor
  · intro t ht
    have hsound : t.Sound := run_invariant (fun _ _ _ => step_sound) start_sound hops ht
    exact ⟨hsound.held, hsound.latest⟩
  · exact along_iff start_sound hops

/-- A client binds connection 1, opens its session, and binds connection 2. -/
def reconnects : List BindingOp :=
  [.get {} true, .bind 1 {}, .get {} true, .opened {} .opened, .put {}, .get {} true, .bind 2 {}]

theorem reconnects_reconnect :
    Along bindingStep BindsOnce (.start true) (reconnects ++ [.disconnect 2]) ∧
      (Along bindingStep LeavesNewer (.start true) (reconnects ++ [.disconnect 2]) ↔
        Along bindingStep NoneNewer (.start true) (reconnects ++ [.disconnect 2])) := by
  have hops : Along bindingStep BindsOnce (.start true) (reconnects ++ [.disconnect 2]) := by
    decide
  exact ⟨hops, (binding_reconnect true _ hops).2⟩

/-- Connection 1 goes while connection 2 is bound: the master forgets connection
2 and gives the session up. -/
theorem reconnects_not_left :
    ¬ ∀ (master : Bool) (ops : List BindingOp),
      Along bindingStep BindsOnce (.start master) ops →
        Along bindingStep LeavesNewer (.start master) ops := by
  intro h
  have hrun : ∃ t u, run bindingStep (.start true) reconnects = .ok t ∧ (1, {}) ∈ t.ePAccept ∧
      t.newest {} = some 2 ∧ bindingStep t (.disconnect 1) = .ok u ∧
      u.aborts.length = 1 ∧ t.aborts.length = 0 :=
    ⟨_, _, rfl, List.mem_cons_self, rfl, rfl, rfl, rfl⟩
  obtain ⟨t, u, ht, hmem, hnew, hu, hone, hnone⟩ := hrun
  have hleft := (h true (reconnects ++ [.disconnect 1]) (by decide)).last ht
  have haborts := (hleft {} 2 hmem hnew (by decide) u hu).2
  rw [haborts, hnone] at hone
  cases hone

end PaxosSolutions
