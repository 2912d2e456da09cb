import PaxosSolutions.Lib.Ring

/-!
# Waiting for a record

A user that waits for a locked record is in a ring of users through `u_rwait`. The
ring has no head of its own: `r_wait` is the first user of it. When the lock is
released, the users are taken out one after another and each gets its reply.
-/
namespace PaxosSolutions.XjPing
open Lib Function

/-- `r_usr_t` as it waits: `R_USR_RWAIT` of `u_stat`, `u_index` and `u_cursor`. -/
structure RUsrWait where
  uRwait : Bool
  uIndex : ℕ
  uCursor : ℤ
deriving DecidableEq, Repr

/-- `r_tbl_t` as its records are waited for: `R_LOCK` of `r_stat`, and `r_wait`.
The users are given with it, and those `p_reply` was called for. -/
structure WaitTbl where
  tRecNum : ℕ
  rLock : ℕ → Bool
  rWait : ℕ → Option ℕ
  usr : ℕ → RUsrWait
  uRwait : Links
  replies : List ℕ := []

inductive EventErr where
  | inval
  | reply (errno : ℕ)
deriving DecidableEq, Repr

/-- `_dl_head` -/
def dlHead (l : Links) (ep : ℕ) : Option ℕ := if l.next ep = ep then none else some (l.next ep)

/-- `R_USR_RWAIT` is cleared. -/
def WaitTbl.noWait (ud : ℕ) (td : WaitTbl) : WaitTbl :=
  { td with usr := update td.usr ud { td.usr ud with uRwait := false } }

/-- `index` of a request, which is -1 for the record at the cursor. -/
def WaitTbl.index (ud : ℕ) (index : ℤ) (td : WaitTbl) : ℤ :=
  if index = -1 then (td.usr ud).uCursor else index

/-- The user at the end of the ring of a record. -/
def WaitTbl.enter (ud i : ℕ) (td : WaitTbl) : WaitTbl :=
  let td := match td.rWait i with
    | some first => { td with uRwait := td.uRwait.insertBefore ud first }
    | none => { td with rWait := update td.rWait i (some ud) }
  { td with usr := update td.usr ud { td.usr ud with uRwait := true, uIndex := i } }

/-- `svc_rec_wait`, and what `p_reply` answers if it is called: nothing, or `neo_errno`. -/
def svcRecWait (ud : ℕ) (index : ℤ) (sent : Option ℕ) (td : WaitTbl) : Option EventErr × WaitTbl :=
  let index := td.index ud index
  if index < 0 ∨ td.tRecNum ≤ index then (some .inval, td)
  else if td.rLock index.toNat = false then
    (sent.map .reply, { td with replies := td.replies ++ [ud] })
  else (none, td.enter ud index.toNat)

/-- A turn of `svc_rec_post`, up to the reply. -/
def WaitTbl.postOne (i ud : ℕ) (td : WaitTbl) : WaitTbl :=
  let dp := dlHead td.uRwait ud
  let td := ({ td with uRwait := td.uRwait.unlink ud }).noWait ud
  { td with
    rWait := update td.rWait i dp
    replies := td.replies ++ [ud] }

/-- `svc_rec_post`, or nothing if it takes more turns. `reply` is what `p_reply`
answers for a user. -/
def svcRecPost (reply : ℕ → Option ℕ) (i : ℕ) : ℕ → WaitTbl → Option (Option EventErr × WaitTbl)
  | 0, _ => none
  | turns + 1, td =>
      match td.rWait i with
      | none => some (none, td)
      | some ud =>
          match reply ud with
          | some errno => some (some (.reply errno), td.postOne i ud)
          | none => svcRecPost reply i turns (td.postOne i ud)

/-- `svc_cancel_rwait` -/
def svcCancelRwait (ud i : ℕ) (td : WaitTbl) : WaitTbl :=
  if (td.usr ud).uRwait then
    let head := dlHead td.uRwait ud
    let td := if td.rWait i = some ud then { td with rWait := update td.rWait i head } else td
    let td := if head.isSome then { td with uRwait := td.uRwait.unlink ud } else td
    td.noWait ud
  else td

/-- `svc_event_cancel`, where the user has the table open. -/
def svcEventCancel (ud : ℕ) (i : ℤ) (td : WaitTbl) : Option EventErr × WaitTbl :=
  let i := td.index ud i
  if i < 0 ∨ td.tRecNum ≤ i then (some .inval, td)
  else (none, svcCancelRwait ud i.toNat td)

/-- `close_user` as far as it waits. -/
def closeUser (ud : ℕ) (td : WaitTbl) : WaitTbl :=
  if (td.usr ud).uRwait then svcCancelRwait ud (td.usr ud).uIndex td else td

/-- What happens to the waiters of a table. A record is locked and released by other
requests, which also move the cursor. -/
inductive WaitAct where
  | wait (ud : ℕ) (index : ℤ) (sent : Option ℕ)
  | cancel (ud : ℕ) (i : ℤ)
  | close (ud : ℕ)
  | seek (ud : ℕ) (cursor : ℤ)
  | lock (i : ℕ)
  | unlock (i : ℕ) (reply : ℕ → Option ℕ) (turns : ℕ)

/-- More turns than a loop is followed for. -/
inductive MoreTurns where
  | turns
deriving DecidableEq, Repr

def waitStep (td : WaitTbl) : WaitAct → Except MoreTurns WaitTbl
  | .wait ud index sent => .ok (svcRecWait ud index sent td).2
  | .cancel ud i => .ok (svcEventCancel ud i td).2
  | .close ud => .ok (closeUser ud td)
  | .seek ud cursor =>
      .ok { td with usr := update td.usr ud { td.usr ud with uCursor := cursor } }
  | .lock i => .ok { td with rLock := update td.rLock i true }
  | .unlock i reply turns =>
      match svcRecPost reply i turns { td with rLock := update td.rLock i false } with
      | some r => .ok r.2
      | none => .error .turns

/-- `_r_usr_alloc` of all users, and no one waits. -/
structure WaitTbl.Fresh (td : WaitTbl) : Prop where
  rWait : ∀ i, td.rWait i = none
  usr : ∀ ud, (td.usr ud).uRwait = false
  links : ∀ ud, td.uRwait.next ud = ud ∧ td.uRwait.prev ud = ud

/-- A user that `r_wait` leads to. -/
def WaitTbl.Leads (td : WaitTbl) (i ud : ℕ) : Prop :=
  ∃ first, td.rWait i = some first ∧ ∃ n, td.uRwait.next^[n] first = ud

/-- A user that waits for the record. -/
def WaitTbl.Waits (td : WaitTbl) (i ud : ℕ) : Prop :=
  (td.usr ud).uRwait = true ∧ (td.usr ud).uIndex = i

/-- The waiters get a reply each, and no one waits after it. -/
def WaitTbl.Notifies (td : WaitTbl) (i : ℕ) (reply : ℕ → Option ℕ) : Prop :=
  ∃ turns r us, svcRecPost reply i turns td = some r ∧ r.2.rWait i = none ∧
    r.2.replies = td.replies ++ us ∧ us.Nodup ∧ (∀ ud, ud ∈ us ↔ td.Waits i ud) ∧
    ∀ ud, ¬ r.2.Waits i ud

/-- No reply fails but that of the last waiter. -/
def WaitTbl.RepliesFit (td : WaitTbl) (i : ℕ) (reply : ℕ → Option ℕ) : Prop :=
  ∀ ud first, td.Waits i ud → td.rWait i = some first → reply ud ≠ none →
    td.uRwait.prev first = ud

/-- A user waits for one record at a time, a cancel of the first waiter names the
record it waits for, and replies are sent. -/
def WaitFits (td : WaitTbl) : WaitAct → Prop
  | .wait ud index _ =>
      (td.usr ud).uRwait = true → td.index ud index < 0 ∨ td.tRecNum ≤ td.index ud index ∨
        td.rLock (td.index ud index).toNat = false ∨
        (td.index ud index = (td.usr ud).uIndex ∧ td.uRwait.next ud = ud)
  | .cancel ud i =>
      (td.usr ud).uRwait = true → td.rWait (td.usr ud).uIndex = some ud →
        td.index ud i < 0 ∨ td.tRecNum ≤ td.index ud i ∨ td.index ud i = (td.usr ud).uIndex
  | .unlock i reply _ => td.RepliesFit i reply
  | _ => True

/-! ### The rings as queues -/

/-- The users that wait for each record, the first in front. -/
abbrev WaitQueues := ℕ → List ℕ

structure WaitTbl.Rep (td : WaitTbl) (q : WaitQueues) : Prop where
  rWait : ∀ i, td.rWait i = (q i).head?
  ring : ∀ i first us, q i = first :: us → td.uRwait.Ring first us
  alone : ∀ ud, (td.usr ud).uRwait = false → td.uRwait.next ud = ud ∧ td.uRwait.prev ud = ud
  waits : ∀ i ud, ud ∈ q i ↔ td.Waits i ud

variable {td td' : WaitTbl} {q : WaitQueues} {i ud : ℕ}

theorem WaitTbl.Fresh.rep (h : td.Fresh) : td.Rep fun _ => [] where
  rWait := h.rWait
  ring := by
    intro i first us he
    cases he
  alone ud _ := h.links ud
  waits := by
    intro i ud
    refine ⟨fun hm => absurd hm List.not_mem_nil, fun hw => ?_⟩
    have hno := hw.1
    rw [h.usr] at hno
    cases hno

theorem WaitTbl.Rep.leads (h : td.Rep q) (i ud : ℕ) : td.Leads i ud ↔ td.Waits i ud := by
  rw [← h.waits]
  unfold WaitTbl.Leads
  rw [h.rWait]
  cases hq : q i with
  | nil => simp
  | cons first us =>
      rw [(h.ring i first us hq).mem_iff]
      simp

/-- No user is in two queues. -/
theorem WaitTbl.Rep.apart (h : td.Rep q) {j : ℕ} (hi : ud ∈ q i) (hj : ud ∈ q j) : i = j :=
  ((h.waits i ud).mp hi).2.symm.trans ((h.waits j ud).mp hj).2

theorem WaitTbl.Rep.nodup (h : td.Rep q) (i : ℕ) : (q i).Nodup := by
  cases hq : q i with
  | nil => exact List.nodup_nil
  | cons first us => exact (h.ring i first us hq).nodup

/-- The user behind the first one. -/
theorem WaitTbl.Rep.dlHead (h : td.Rep q) {us : List ℕ} (hq : q i = ud :: us) :
    XjPing.dlHead td.uRwait ud = us.head? := by
  have hring := h.ring i ud us hq
  unfold XjPing.dlHead
  rw [hring.path.first]
  cases us with
  | nil => exact if_pos rfl
  | cons u us =>
      have hne : u ≠ ud := fun he => (List.nodup_cons.mp hring.nodup).1 (he ▸ List.mem_cons_self)
      exact if_neg hne

/-- A link alone is taken out of nothing. -/
theorem unlink_alone {l : Links} {e : ℕ} (hn : l.next e = e) (hp : l.prev e = e) :
    l.unlink e = l := by
  unfold Links.unlink
  rw [hn, hp]
  have hnext : update (update l.next e e) e e = l.next := by
    rw [update_idem, update_eq_self_iff, hn]
  have hprev : update (update l.prev e e) e e = l.prev := by
    rw [update_idem, update_eq_self_iff, hp]
  rw [hnext, hprev]

/-- A user goes out of its queue: its link, its status, and `r_wait` if it is the first. -/
def WaitTbl.leave (i ud : ℕ) (td : WaitTbl) : WaitTbl :=
  { td.noWait ud with
    uRwait := td.uRwait.unlink ud
    rWait := if td.rWait i = some ud then update td.rWait i (XjPing.dlHead td.uRwait ud)
      else td.rWait }

theorem noWait_waits {j x : ℕ} : (td.noWait ud).Waits j x ↔ td.Waits j x ∧ x ≠ ud := by
  unfold WaitTbl.Waits WaitTbl.noWait
  dsimp only
  by_cases hx : x = ud
  · rw [hx, update_self]
    simp
  · rw [update_of_ne hx]
    simp [hx]

/-- Links of other users and the ring a user goes out of. -/
theorem WaitTbl.Rep.other (h : td.Rep q) (hi : ud ∈ q i) {x : ℕ} (hx : x ∉ q i) :
    (td.uRwait.unlink ud).next x = td.uRwait.next x ∧
      (td.uRwait.unlink ud).prev x = td.uRwait.prev x := by
  cases hq : q i with
  | nil =>
      rw [hq] at hi
      cases hi
  | cons first us =>
      rw [hq] at hi hx
      exact (h.ring i first us hq).unlink_other hi hx

theorem WaitTbl.Rep.leave (h : td.Rep q) {as bs : List ℕ} (hq : q i = as ++ ud :: bs) :
    (td.leave i ud).Rep (update q i (as ++ bs)) := by
  have hmem : ud ∈ q i := hq ▸ List.mem_append_right _ List.mem_cons_self
  have hnd : (as ++ ud :: bs).Nodup := hq ▸ h.nodup i
  have hout : ud ∉ as ++ bs :=
    (List.nodup_cons.mp (List.perm_middle.nodup_iff.mp hnd)).1
  constructor
  · intro j
    unfold WaitTbl.leave
    dsimp only
    cases as with
    | nil =>
        have hfirst : td.rWait i = some ud := by rw [h.rWait, hq]; rfl
        rw [if_pos hfirst, h.dlHead hq]
        by_cases hj : j = i
        · rw [hj, update_self, update_self, List.nil_append]
        · rw [update_of_ne hj, update_of_ne hj, h.rWait]
    | cons a as =>
        have hne : td.rWait i ≠ some ud := by
          rw [h.rWait, hq]
          exact fun he => hout (Option.some.inj he ▸ List.mem_cons_self)
        rw [if_neg hne]
        by_cases hj : j = i
        · rw [hj, update_self, h.rWait, hq]
          rfl
        · rw [update_of_ne hj, h.rWait]
  · intro j first us hj
    change (td.uRwait.unlink ud).Ring first us
    by_cases hji : j = i
    · rw [hji, update_self] at hj
      cases as with
      | nil =>
          rw [List.nil_append] at hj
          rw [hj] at hq
          have hring := (h.ring i ud (first :: us) hq).rotate
          rw [← List.append_nil us]
          exact hring.unlink
      | cons a as =>
          obtain ⟨rfl, rfl⟩ := List.cons.inj hj
          exact (h.ring i a (as ++ ud :: bs) hq).unlink
    · rw [update_of_ne hji] at hj
      apply (h.ring j first us hj).congr
      intro x hx
      exact h.other hmem fun hxi => hji (h.apart (hj ▸ hx) hxi)
  · intro x hx
    change (td.uRwait.unlink ud).next x = x ∧ (td.uRwait.unlink ud).prev x = x
    by_cases hxu : x = ud
    · rw [hxu]
      exact Links.unlink_self td.uRwait ud
    · change ((td.noWait ud).usr x).uRwait = false at hx
      have hno : (td.usr x).uRwait = false := by
        unfold WaitTbl.noWait at hx
        dsimp only at hx
        rwa [update_of_ne hxu] at hx
      have hxi : x ∉ q i := fun hm => by
        have hwait := ((h.waits i x).mp hm).1
        rw [hno] at hwait
        cases hwait
      rw [(h.other hmem hxi).1, (h.other hmem hxi).2]
      exact h.alone x hno
  · intro j x
    change x ∈ update q i (as ++ bs) j ↔ (td.noWait ud).Waits j x
    rw [noWait_waits, ← h.waits]
    by_cases hj : j = i
    · rw [hj, update_self, hq, List.mem_append, List.mem_append, List.mem_cons]
      constructor
      · intro hm
        have hne : x ≠ ud := fun he => hout (he ▸ List.mem_append.mpr hm)
        exact ⟨hm.imp_right .inr, hne⟩
      · rintro ⟨hm, hne⟩
        exact hm.imp_right fun hm => hm.resolve_left hne
    · rw [update_of_ne hj]
      exact ⟨fun hm => ⟨hm, fun he => hj (h.apart hm (he ▸ hmem))⟩, fun hm => hm.1⟩

/-- Only the rings, and who waits for what, matter. -/
theorem WaitTbl.Rep.of_eq (h : td.Rep q) (hwait : td'.rWait = td.rWait)
    (hlinks : td'.uRwait = td.uRwait)
    (husr : ∀ ud, (td'.usr ud).uRwait = (td.usr ud).uRwait ∧
      (td'.usr ud).uIndex = (td.usr ud).uIndex) : td'.Rep q where
  rWait i := by rw [hwait, h.rWait]
  ring := by
    rw [hlinks]
    exact h.ring
  alone ud hno := by
    rw [hlinks]
    exact h.alone ud ((husr ud).1 ▸ hno)
  waits i ud := by
    rw [h.waits]
    unfold WaitTbl.Waits
    rw [(husr ud).1, (husr ud).2]

theorem WaitTbl.Rep.free (h : td.Rep q) (hno : (td.usr ud).uRwait = false) (j : ℕ) : ud ∉ q j := by
  intro hm
  have hwait := ((h.waits j ud).mp hm).1
  rw [hno] at hwait
  cases hwait

theorem enter_waits {j x : ℕ} (hno : (td.usr ud).uRwait = false) :
    (td.enter ud i).Waits j x ↔ td.Waits j x ∨ x = ud ∧ j = i := by
  have husr : (td.enter ud i).usr =
      update td.usr ud { td.usr ud with uRwait := true, uIndex := i } := by
    unfold WaitTbl.enter
    cases td.rWait i with
    | none => rfl
    | some first => rfl
  unfold WaitTbl.Waits
  rw [husr]
  by_cases hx : x = ud
  · rw [hx, update_self]
    simp [hno, eq_comm]
  · rw [update_of_ne hx]
    simp [hx]

theorem WaitTbl.Rep.enter (h : td.Rep q) (hno : (td.usr ud).uRwait = false) :
    (td.enter ud i).Rep (update q i (q i ++ [ud])) := by
  have hwaits : ∀ j x, x ∈ update q i (q i ++ [ud]) j ↔ (td.enter ud i).Waits j x := by
    intro j x
    rw [enter_waits hno, ← h.waits]
    by_cases hj : j = i
    · rw [hj, update_self]
      simp
    · rw [update_of_ne hj]
      simp [hj]
  have hfree := h.free hno
  have halone : ∀ x, ((td.enter ud i).usr x).uRwait = false →
      x ≠ ud ∧ (td.usr x).uRwait = false := by
    intro x hx
    unfold WaitTbl.enter at hx
    dsimp only at hx
    by_cases hxu : x = ud
    · rw [hxu, update_self] at hx
      cases hx
    · rw [update_of_ne hxu] at hx
      refine ⟨hxu, ?_⟩
      revert hx
      cases td.rWait i with
      | none => exact id
      | some first => exact id
  cases hq : q i with
  | nil =>
      have hwait : td.rWait i = none := by rw [h.rWait, hq]; rfl
      have henter : (td.enter ud i).uRwait = td.uRwait ∧
          (td.enter ud i).rWait = update td.rWait i (some ud) := by
        unfold WaitTbl.enter
        rw [hwait]
        exact ⟨rfl, rfl⟩
      rw [hq] at hwaits
      refine ⟨fun j => ?_, fun j first us hj => ?_, fun x hx => ?_, hwaits⟩
      · rw [henter.2]
        by_cases hji : j = i
        · rw [hji, update_self, update_self]
          rfl
        · rw [update_of_ne hji, update_of_ne hji, h.rWait]
      · rw [henter.1]
        by_cases hji : j = i
        · rw [hji, update_self] at hj
          obtain ⟨rfl, rfl⟩ := List.cons.inj hj
          exact Links.Ring.single (h.alone ud hno).1 (h.alone ud hno).2
        · rw [update_of_ne hji] at hj
          exact h.ring j first us hj
      · rw [henter.1]
        exact h.alone x (halone x hx).2
  | cons head tail =>
      have hwait : td.rWait i = some head := by rw [h.rWait, hq]; rfl
      have henter : (td.enter ud i).uRwait = td.uRwait.insertBefore ud head ∧
          (td.enter ud i).rWait = td.rWait := by
        unfold WaitTbl.enter
        rw [hwait]
        exact ⟨rfl, rfl⟩
      have hring := h.ring i head tail hq
      have hnew : ud ∉ head :: tail := hq ▸ hfree i
      rw [hq] at hwaits
      refine ⟨fun j => ?_, fun j first us hj => ?_, fun x hx => ?_, hwaits⟩
      · rw [henter.2, h.rWait]
        by_cases hji : j = i
        · rw [hji, update_self, hq]
          rfl
        · rw [update_of_ne hji]
      · rw [henter.1]
        by_cases hji : j = i
        · rw [hji, update_self] at hj
          obtain ⟨rfl, rfl⟩ := List.cons.inj hj
          exact hring.insertBefore hnew
        · rw [update_of_ne hji] at hj
          apply (h.ring j first us hj).congr
          intro x hx
          have hxj : x ∈ q j := hj ▸ hx
          apply hring.insertBefore_other hnew
          · exact fun hm => hji (h.apart hxj (hq ▸ hm))
          · exact fun he => hfree j (he ▸ hxj)
      · obtain ⟨hxu, hx⟩ := halone x hx
        rw [henter.1]
        obtain ⟨hn, hp⟩ := hring.insertBefore_other hnew (hq ▸ h.free hx i) hxu
        rw [hn, hp]
        exact h.alone x hx

/-- A user whose link leads to itself waits alone. -/
theorem WaitTbl.Rep.next_self (h : td.Rep q) (hm : ud ∈ q i) (hn : td.uRwait.next ud = ud) :
    q i = [ud] := by
  obtain ⟨as, bs, hq⟩ := List.append_of_mem hm
  have hnd := h.nodup i
  rw [hq] at hnd
  have hout : ud ∉ as ++ bs := (List.nodup_cons.mp (List.perm_middle.nodup_iff.mp hnd)).1
  cases as with
  | nil =>
      have hfirst := (h.ring i ud bs hq).path.first
      rw [hn] at hfirst
      cases bs with
      | nil => exact hq
      | cons b bs => exact absurd (hfirst ▸ List.mem_cons_self) hout
  | cons a as =>
      have hnext := (h.ring i a (as ++ ud :: bs) hq).next
      rw [hn] at hnext
      cases bs with
      | nil => exact absurd (hnext ▸ List.mem_cons_self) hout
      | cons b bs =>
          exact absurd (hnext ▸ List.mem_append_right _ List.mem_cons_self) hout

/-- A user that waits alone and waits again. -/
theorem WaitTbl.Rep.enter_again (h : td.Rep q) (hw : td.Waits i ud)
    (hn : td.uRwait.next ud = ud) : (td.enter ud i).Rep q := by
  have hq := h.next_self ((h.waits i ud).mpr hw) hn
  have hring := h.ring i ud [] hq
  have hwait : td.rWait i = some ud := by rw [h.rWait, hq]; rfl
  have hp : td.uRwait.prev ud = ud := hring.path.2
  have hprev : update td.uRwait.prev ud ud = td.uRwait.prev := update_eq_self_iff.mpr hp.symm
  have hnext : update td.uRwait.next ud ud = td.uRwait.next := update_eq_self_iff.mpr hn.symm
  have hlinks : td.uRwait.insertBefore ud ud = td.uRwait := by
    unfold Links.insertBefore
    dsimp only
    rw [hp, hprev, hp, hnext, hnext, hprev]
  have hself : td.enter ud i =
      { td with usr := update td.usr ud { td.usr ud with uRwait := true, uIndex := i } } := by
    unfold WaitTbl.enter
    rw [hwait]
    dsimp only
    rw [hlinks]
  rw [hself]
  refine h.of_eq rfl rfl fun x => ?_
  dsimp only
  by_cases hx : x = ud
  · rw [hx, update_self]
    exact ⟨hw.1.symm, hw.2.symm⟩
  · rw [update_of_ne hx]
    exact ⟨rfl, rfl⟩

/-! ### Requests -/

/-- The loop goes through the queue, where no reply fails but the last. -/
theorem WaitTbl.Rep.post (h : td.Rep q) {us : List ℕ} (hq : q i = us) {reply : ℕ → Option ℕ}
    {turns : ℕ} (hturns : us.length < turns)
    (hreply : ∀ u ∈ us, reply u ≠ none → us.getLast? = some u) :
    ∃ r, svcRecPost reply i turns td = some r ∧ r.2.Rep (update q i []) ∧
      r.2.replies = td.replies ++ us := by
  induction us generalizing td q turns with
  | nil =>
      obtain ⟨turns, rfl⟩ := Nat.exists_eq_add_one_of_ne_zero (Nat.ne_of_gt hturns)
      have hwait : td.rWait i = none := by rw [h.rWait, hq]; rfl
      refine ⟨(none, td), ?_, ?_, (List.append_nil _).symm⟩
      · unfold svcRecPost
        rw [hwait]
      · rw [← hq, update_eq_self]
        exact h
  | cons u us ih =>
      obtain ⟨turns, rfl⟩ := Nat.exists_eq_add_one_of_ne_zero (Nat.ne_of_gt (Nat.zero_lt_of_lt hturns))
      have hwait : td.rWait i = some u := by rw [h.rWait, hq]; rfl
      have hone : (td.postOne i u).Rep (update q i us) := by
        have hq' : q i = [] ++ u :: us := hq
        refine (h.leave hq').of_eq ?_ rfl fun _ => ⟨rfl, rfl⟩
        unfold WaitTbl.leave WaitTbl.postOne
        dsimp only
        rw [if_pos hwait]
        rfl
      have hnd : (u :: us).Nodup := hq ▸ h.nodup i
      unfold svcRecPost
      rw [hwait]
      dsimp only
      cases hr : reply u with
      | some errno =>
          have hlast := hreply u List.mem_cons_self (by rw [hr]; exact Option.some_ne_none errno)
          have hus : us = [] := by
            cases us with
            | nil => rfl
            | cons b us =>
                rw [List.getLast?_cons_cons] at hlast
                exact absurd (List.mem_of_getLast? hlast) (List.nodup_cons.mp hnd).1
          rw [hus] at hone ⊢
          exact ⟨_, rfl, hone, rfl⟩
      | none =>
          rw [List.length_cons] at hturns
          have hrest : ∀ x ∈ us, reply x ≠ none → us.getLast? = some x := by
            intro x hx hfail
            have hlast := hreply x (List.mem_cons_of_mem u hx) hfail
            cases us with
            | nil => cases hx
            | cons b us => rwa [List.getLast?_cons_cons] at hlast
          obtain ⟨r, hr, hrep, hreplies⟩ := ih hone (update_self ..)
            (Nat.lt_of_succ_lt_succ hturns) hrest
          rw [update_idem] at hrep
          refine ⟨r, hr, hrep, ?_⟩
          rw [hreplies]
          exact List.append_assoc td.replies [u] us

/-- A loop that has ended takes no more turns. -/
theorem svcRecPost_more {reply : ℕ → Option ℕ} {turns : ℕ} {r : Option EventErr × WaitTbl}
    (h : svcRecPost reply i turns td = some r) (more : ℕ) :
    svcRecPost reply i (turns + more) td = some r := by
  induction turns generalizing td with
  | zero => cases h
  | succ turns ih =>
      rw [Nat.succ_add]
      unfold svcRecPost at h ⊢
      cases hw : td.rWait i with
      | none =>
          rw [hw] at h
          exact h
      | some u =>
          rw [hw] at h
          dsimp only at h ⊢
          cases hr : reply u with
          | some errno =>
              rw [hr] at h
              exact h
          | none =>
              rw [hr] at h
              exact ih h

theorem WaitTbl.Rep.fit (h : td.Rep q) {reply : ℕ → Option ℕ} (hfit : td.RepliesFit i reply) :
    ∀ u ∈ q i, reply u ≠ none → (q i).getLast? = some u := by
  intro u hu hfail
  cases hq : q i with
  | nil =>
      rw [hq] at hu
      cases hu
  | cons first us =>
      have hwait : td.rWait i = some first := by rw [h.rWait, hq]; rfl
      rw [(h.ring i first us hq).path.prev_eq, hfit u first ((h.waits i u).mp hu) hwait hfail]

theorem WaitTbl.Rep.notifies (h : td.Rep q) {reply : ℕ → Option ℕ}
    (hfit : td.RepliesFit i reply) : td.Notifies i reply := by
  obtain ⟨r, hr, hrep, hreplies⟩ := h.post rfl (Nat.lt_succ_self _) (h.fit hfit)
  refine ⟨_, r, q i, hr, ?_, hreplies, h.nodup i, h.waits i, fun ud hw => ?_⟩
  · rw [hrep.rWait, update_self]
    rfl
  · have hm := (hrep.waits i ud).mpr hw
    rw [update_self] at hm
    cases hm

/-- A cancel that does not leave `r_wait` of another record at its user. -/
theorem WaitTbl.Rep.cancel (h : td.Rep q) {j : ℕ} (hw : td.Waits j ud)
    (hfirst : td.rWait j = some ud → i = j) : svcCancelRwait ud i td = td.leave j ud := by
  have hm := (h.waits j ud).mpr hw
  have hnamed : td.rWait i = some ud ↔ td.rWait j = some ud := by
    constructor
    · intro hi
      rw [h.rWait] at hi
      rwa [← h.apart (List.mem_of_mem_head? hi) hm, h.rWait]
    · intro hj
      rwa [hfirst hj]
  have hlinks : (if (XjPing.dlHead td.uRwait ud).isSome then td.uRwait.unlink ud
      else td.uRwait) = td.uRwait.unlink ud := by
    split_ifs with hs
    · rfl
    · have hn : td.uRwait.next ud = ud := by
        by_contra hn
        unfold XjPing.dlHead at hs
        rw [if_neg hn] at hs
        exact hs rfl
      have hp := (h.ring j ud [] (h.next_self hm hn)).path.2
      exact (unlink_alone hn hp).symm
  unfold svcCancelRwait WaitTbl.leave
  rw [if_pos hw.1]
  dsimp only
  rw [← hlinks]
  by_cases hj : td.rWait j = some ud
  · rw [hfirst hj, if_pos hj]
    split_ifs
    · rfl
    · rfl
  · rw [if_neg hj, if_neg fun hi => hj (hnamed.mp hi)]
    split_ifs
    · rfl
    · rfl

/-- Each user is in the queue it waits in, whichever it is. -/
def WaitTbl.Queued (td : WaitTbl) : Prop := ∃ q, td.Rep q

theorem WaitTbl.Queued.cancel (h : td.Queued)
    (hfirst : (td.usr ud).uRwait = true → td.rWait (td.usr ud).uIndex = some ud →
      i = (td.usr ud).uIndex) : (svcCancelRwait ud i td).Queued := by
  obtain ⟨q, h⟩ := h
  by_cases hw : (td.usr ud).uRwait = true
  · have hm := (h.waits _ ud).mpr ⟨hw, rfl⟩
    obtain ⟨as, bs, hq⟩ := List.append_of_mem hm
    rw [h.cancel ⟨hw, rfl⟩ (hfirst hw)]
    exact ⟨_, h.leave hq⟩
  · unfold svcCancelRwait
    rw [if_neg hw]
    exact ⟨q, h⟩

theorem WaitTbl.Queued.wait (h : td.Queued) {index : ℤ} {sent : Option ℕ}
    (hfit : WaitFits td (.wait ud index sent)) : (svcRecWait ud index sent td).2.Queued := by
  obtain ⟨q, h⟩ := h
  unfold svcRecWait
  dsimp only
  split_ifs with hrange hlock
  · exact ⟨q, h⟩
  · exact ⟨q, h.of_eq rfl rfl fun _ => ⟨rfl, rfl⟩⟩
  · obtain ⟨hlo, hhi⟩ := not_or.mp hrange
    by_cases hw : (td.usr ud).uRwait = true
    · rcases hfit hw with hneg | hbig | hopen | ⟨hsame, hn⟩
      · exact absurd hneg hlo
      · exact absurd hbig hhi
      · exact absurd hopen hlock
      · have hindex : (td.usr ud).uIndex = (td.index ud index).toNat := by
          rw [hsame]
          rfl
        exact ⟨q, h.enter_again ⟨hw, hindex⟩ hn⟩
    · exact ⟨_, h.enter (eq_false_of_ne_true hw)⟩

theorem waitStep_queued (td : WaitTbl) (act : WaitAct) (td' : WaitTbl) (h : td.Queued)
    (hfit : WaitFits td act) (hstep : waitStep td act = .ok td') : td'.Queued := by
  cases act with
  | wait ud index sent =>
      cases hstep
      exact h.wait hfit
  | cancel ud i =>
      cases hstep
      unfold svcEventCancel
      dsimp only
      split_ifs with hrange
      · exact h
      · obtain ⟨hlo, hhi⟩ := not_or.mp hrange
        apply h.cancel
        intro hw hfirst
        rcases hfit hw hfirst with hneg | hbig | hsame
        · exact absurd hneg hlo
        · exact absurd hbig hhi
        · rw [hsame]
          rfl
  | close ud =>
      cases hstep
      unfold closeUser
      split_ifs with hw
      · exact h.cancel fun _ _ => rfl
      · exact h
  | seek ud cursor =>
      cases hstep
      obtain ⟨q, h⟩ := h
      refine ⟨q, h.of_eq rfl rfl fun x => ?_⟩
      dsimp only
      by_cases hx : x = ud
      · rw [hx, update_self]
        exact ⟨rfl, rfl⟩
      · rw [update_of_ne hx]
        exact ⟨rfl, rfl⟩
  | lock i =>
      cases hstep
      obtain ⟨q, h⟩ := h
      exact ⟨q, h.of_eq rfl rfl fun _ => ⟨rfl, rfl⟩⟩
  | unlock i reply turns =>
      obtain ⟨q, h⟩ := h
      have hopen : ({ td with rLock := update td.rLock i false } : WaitTbl).Rep q :=
        h.of_eq rfl rfl fun _ => ⟨rfl, rfl⟩
      obtain ⟨r, hr, hrep, -⟩ := hopen.post rfl (Nat.lt_succ_self _) (h.fit hfit)
      unfold waitStep at hstep
      dsimp only at hstep
      cases hp : svcRecPost reply i turns { td with rLock := update td.rLock i false } with
      | none =>
          rw [hp] at hstep
          cases hstep
      | some r' =>
          rw [hp] at hstep
          cases hstep
          have hmore := svcRecPost_more hp ((q i).length + 1)
          rw [Nat.add_comm, svcRecPost_more hr] at hmore
          cases hmore
          exact ⟨_, hrep⟩

/-- Where users wait for one record at a time, cancels name the record and replies
are sent, the waiters of each record are those `r_wait` leads to, and a post
replies to each of them once. -/
theorem waiters_notified (td td' : WaitTbl) (acts : List WaitAct) (hfresh : td.Fresh)
    (hfit : Along waitStep WaitFits td acts) (hrun : run waitStep td acts = .ok td') :
    (∀ i ud, td'.Leads i ud ↔ td'.Waits i ud) ∧
      ∀ i reply, td'.RepliesFit i reply → td'.Notifies i reply := by
  obtain ⟨q, h⟩ : td'.Queued := run_invariant waitStep_queued ⟨_, hfresh.rep⟩ hfit hrun
  exact ⟨h.leads, fun i reply hfit => h.notifies hfit⟩

/-- A table of two records that no user waits for. -/
def twoRecords : WaitTbl where
  tRecNum := 2
  rLock _ := false
  rWait _ := none
  usr _ := ⟨false, 0, 0⟩
  uRwait := ⟨id, id⟩

/-- The first record is locked, and two users wait for it. -/
def twoWait : List WaitAct := [.lock 0, .wait 1 0 none, .wait 2 0 none]

/-- The connection of the first of two users is down. -/
def firstDown (ud : ℕ) : Option ℕ := if ud = 1 then some 5 else none

/-- Both get a reply where both are connected. -/
theorem waiters_notified_two :
    twoRecords.Fresh ∧ Along waitStep WaitFits twoRecords twoWait ∧
      ∃ td, run waitStep twoRecords twoWait = .ok td ∧ td.Notifies 0 fun _ => none := by
  have hfresh : twoRecords.Fresh :=
    ⟨fun _ => rfl, fun _ => rfl, fun _ => ⟨rfl, rfl⟩⟩
  have hfit : Along waitStep WaitFits twoRecords twoWait := by
    refine ⟨trivial, fun t ht => ⟨?_, fun u hu => ⟨?_, fun _ _ => trivial⟩⟩⟩
    · cases ht
      intro h
      cases h
    · cases ht
      cases hu
      intro h
      cases h
  refine ⟨hfresh, hfit, _, rfl, ?_⟩
  exact (waiters_notified twoRecords _ twoWait hfresh hfit rfl).2 0 _
    fun _ _ _ _ hfail => absurd rfl hfail

/-- The second of two users is not told when the first is gone. -/
theorem waiters_notified_down :
    ¬ ∀ (td td' : WaitTbl) (acts : List WaitAct), td.Fresh → run waitStep td acts = .ok td' →
      (∀ i ud, td'.Leads i ud ↔ td'.Waits i ud) ∧ ∀ i reply, td'.Notifies i reply := by
  intro hall
  obtain ⟨turns, r, us, hr, hnone, -⟩ := (hall twoRecords _ twoWait
    ⟨fun _ => rfl, fun _ => rfl, fun _ => ⟨rfl, rfl⟩⟩ rfl).2 0 firstDown
  cases turns with
  | zero => cases hr
  | succ turns =>
      cases hr
      cases hnone

end PaxosSolutions.XjPing
