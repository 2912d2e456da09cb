import PaxosSolutions.Lib.Buckets
import PaxosSolutions.PFS.Lock
import Mathlib.Data.List.Nodup

/-!
# The lock table

What every request keeps, as long as it does not use a lock or a joint that is
freed: one lock a name, each in the table, and a count that is the number of
read holds, or -1 with one write hold.
-/
namespace PaxosSolutions
open Lib NWGadget

/-- `l_Cnt` against the holds. -/
def Counted (n : ℤ) (hs : List PFSJoint) : Prop :=
  (n = hs.length ∧ ∀ j ∈ hs, j.jType = .lockReadHold) ∨
    (n = -1 ∧ ∃ j, hs = [j] ∧ j.jType = .lockWriteHold)

/-- The lock table and what is linked to its locks. -/
structure PFS.Sound (s : PFS) : Prop where
  fresh : ∀ a l, s.lock a = some l → a < s.next
  table : ∀ n a, s.cLock n = some a ↔ ∃ l, s.lock a = some l ∧ l.lName = n
  jids : (s.joints.map (·.jId)).Nodup
  jfresh : ∀ j ∈ s.joints, j.jId < s.next
  jlive : ∀ j ∈ s.joints, ∃ l, s.lock j.jPArg = some l
  wlive : ∀ w ∈ s.waits, ∃ l, s.lock w.aPLockWait = some l
  wopen : ∀ w ∈ s.waits, w.session ∈ s.adaptors
  count : ∀ a l, s.lock a = some l → Counted l.lCnt (s.holds a)
  hash : ∀ a l, s.lock a = some l → ∀ e ∈ l.lHoldHash, e.2 < s.next ∧
    ∀ j ∈ s.joints, j.jId = e.2 → j.hold = true ∧ j.jPArg = a

/-- The keys in the index of the lock at `a` are there to be compared. -/
def PFS.KeysLive (s : PFS) (a : ℕ) : Prop :=
  ∀ l, s.lock a = some l → ∀ e ∈ l.lHoldHash, e.1 ∈ s.adaptors

namespace Counted
variable {n : ℤ} {hs : List PFSJoint} {j : PFSJoint}

theorem nil (h : Counted n []) : n = 0 := by
  rcases h with ⟨h, -⟩ | ⟨-, j, h, -⟩
  · simpa using h
  · cases h

theorem eq_nil (h : Counted 0 hs) : hs = [] := by
  rcases h with ⟨h, -⟩ | ⟨h, -⟩
  · apply List.eq_nil_of_length_eq_zero
    omega
  · cases h

theorem ne_zero (h : Counted n hs) (hj : j ∈ hs) : n ≠ 0 := by
  intro h0
  rw [h0] at h
  rw [h.eq_nil] at hj
  cases hj

/-- A hold is added as `PFSLockS` and the wake-up add it. -/
theorem add (h : Counted n hs) {bRead : Bool} (hg : bRead = true ∧ 0 ≤ n ∨ bRead = false ∧ n = 0)
    (hj : j.jType = if bRead then .lockReadHold else .lockWriteHold) :
    Counted (if bRead then n + 1 else n - 1) (j :: hs) := by
  rcases hg with ⟨rfl, hn⟩ | ⟨rfl, rfl⟩
  · rcases h with ⟨h, hr⟩ | ⟨h, -⟩
    · left
      constructor
      · simp [h]
      · intro k hk
        rcases List.mem_cons.mp hk with rfl | hk
        · exact hj
        · exact hr k hk
    · omega
  · right
    rw [h.eq_nil]
    exact ⟨rfl, j, rfl, hj⟩

/-- A hold is taken away as `pfsUnlock` takes it. -/
theorem remove (h : Counted n hs) {hs' : List PFSJoint} (hp : hs.Perm (j :: hs')) :
    Counted (if 0 < n then n - 1 else n + 1) hs' := by
  rcases h with ⟨h, hr⟩ | ⟨h, k, hk, -⟩
  · left
    have hl := hp.length_eq
    simp only [List.length_cons] at hl
    constructor
    · rw [if_pos (by omega)]
      omega
    · intro k hk
      exact hr k (hp.mem_iff.mpr (List.mem_cons_of_mem _ hk))
  · left
    have hl := hp.length_eq
    rw [hk] at hl
    have hnil : hs' = [] := by
      apply List.eq_nil_of_length_eq_zero
      simpa using hl.symm
    rw [hnil, h]
    exact ⟨rfl, by simp⟩

end Counted

/-! ### Looking up the index -/

theorem holdHashGet_ok {adaptors : List SessionId} {p : Process} {es : List (SessionId × ℕ)}
    (h : ∀ e ∈ es, e.1 ∈ adaptors) :
    ∃ r, holdHashGet adaptors p es = .ok r ∧ ∀ e, r = some e → e ∈ es ∧ e.1.process = p := by
  induction es with
  | nil => exact ⟨none, rfl, by simp⟩
  | cons e es ih =>
      obtain ⟨r, hr, hmem⟩ := ih fun d hd => h d (List.mem_cons_of_mem _ hd)
      have hpass : ∀ d, r = some d → d ∈ e :: es ∧ d.1.process = p := by
        intro d hd
        exact ⟨List.mem_cons_of_mem _ (hmem d hd).1, (hmem d hd).2⟩
      have ho : ¬ e.1 ∉ adaptors := not_not.mpr (h e List.mem_cons_self)
      unfold holdHashGet
      rw [if_neg ho]
      split_ifs with hc hp
      · exact ⟨r, hr, hpass⟩
      · refine ⟨some e, rfl, ?_⟩
        intro d hd
        cases hd
        exact ⟨List.mem_cons_self, hp⟩
      · exact ⟨r, hr, hpass⟩

/-! ### Changes of the state -/

section Changes
variable {s t : PFS} {a b i : ℕ} {l m : PFSLock} {j : PFSJoint} {w : LockWait} {who : SessionId}

theorem lockAt_ok (h : s.lock a = some l) : s.lockAt a = .ok l := by
  unfold PFS.lockAt
  rw [h]

theorem joint_ok (hs : s.Sound) (hj : j ∈ s.joints) : s.joint j.jId = .ok j := by
  unfold PFS.joint
  cases hf : s.joints.find? fun k => k.jId = j.jId with
  | none =>
      simp only [List.find?_eq_none, decide_eq_true_eq] at hf
      exact absurd rfl (hf j hj)
  | some k =>
      have hk : k.jId = j.jId := by simpa using List.find?_some hf
      rw [List.inj_on_of_nodup_map hs.jids (List.mem_of_find?_eq_some hf) hj hk]

theorem mem_holds : j ∈ s.holds a ↔ j ∈ s.joints ∧ j.hold = true ∧ j.jPArg = a := by
  unfold PFS.holds
  rw [List.mem_filter]
  simp

theorem mem_events : j ∈ s.events a ↔ j ∈ s.joints ∧ j.hold = false ∧ j.jPArg = a := by
  unfold PFS.events
  rw [List.mem_filter]
  simp

theorem mem_waiting : w ∈ s.waiting a ↔ w ∈ s.waits ∧ w.aPLockWait = a := by
  unfold PFS.waiting
  rw [List.mem_filter]
  simp

/-- One lock a name. -/
theorem PFS.Sound.unique (hs : s.Sound) (ha : s.lock a = some l) (hb : s.lock b = some m)
    (h : l.lName = m.lName) : a = b := by
  have hca := (hs.table l.lName a).mpr ⟨l, ha, rfl⟩
  have hcb := (hs.table l.lName b).mpr ⟨m, hb, h.symm⟩
  exact Option.some.inj (hca.symm.trans hcb)

theorem PFS.Sound.out (hs : s.Sound) (o : List PFSOut) : ({ s with out := o } : PFS).Sound :=
  ⟨hs.fresh, hs.table, hs.jids, hs.jfresh, hs.jlive, hs.wlive, hs.wopen, hs.count, hs.hash⟩

/-- Fewer sessions wait. -/
theorem PFS.Sound.unwait (hs : s.Sound) (p : LockWait → Bool) :
    ({ s with waits := s.waits.filter p } : PFS).Sound := by
  refine ⟨hs.fresh, hs.table, hs.jids, hs.jfresh, hs.jlive, ?_, ?_, hs.count, hs.hash⟩
  · intro w hw
    exact hs.wlive w (List.mem_filter.mp hw).1
  · intro w hw
    exact hs.wopen w (List.mem_filter.mp hw).1

/-- The lock at `a` changes, not its name, and its count and index fit. -/
theorem PFS.Sound.setLock (hs : s.Sound) (ha : s.lock a = some l) (hname : m.lName = l.lName)
    (hcount : Counted m.lCnt (s.holds a))
    (hhash : ∀ e ∈ m.lHoldHash, e.2 < s.next ∧
      ∀ j ∈ s.joints, j.jId = e.2 → j.hold = true ∧ j.jPArg = a) : (s.setLock a m).Sound := by
  have hlock : ∀ b k, (s.setLock a m).lock b = some k → b = a ∧ k = m ∨ b ≠ a ∧ s.lock b = some k := by
    intro b k hk
    simp only [PFS.setLock, Function.update_apply] at hk
    split_ifs at hk with hb
    · cases hk
      exact .inl ⟨hb, rfl⟩
    · exact .inr ⟨hb, hk⟩
  have hlive : ∀ b, (∃ k, s.lock b = some k) → ∃ k, (s.setLock a m).lock b = some k := by
    intro b hb
    simp only [PFS.setLock, Function.update_apply]
    split_ifs
    · exact ⟨m, rfl⟩
    · exact hb
  constructor
  · intro b k hk
    rcases hlock b k hk with ⟨rfl, rfl⟩ | ⟨-, hk⟩
    · exact hs.fresh b l ha
    · exact hs.fresh b k hk
  · intro n b
    change s.cLock n = some b ↔ _
    rw [hs.table]
    constructor
    · rintro ⟨k, hk, hn⟩
      by_cases hb : b = a
      · subst hb
        cases ha.symm.trans hk
        exact ⟨m, by simp [PFS.setLock], hname.trans hn⟩
      · exact ⟨k, by simpa [PFS.setLock, hb] using hk, hn⟩
    · rintro ⟨k, hk, hn⟩
      rcases hlock b k hk with ⟨rfl, rfl⟩ | ⟨-, hk⟩
      · exact ⟨l, ha, hname.symm.trans hn⟩
      · exact ⟨k, hk, hn⟩
  · exact hs.jids
  · exact hs.jfresh
  · intro j hj
    exact hlive _ (hs.jlive j hj)
  · intro w hw
    exact hlive _ (hs.wlive w hw)
  · exact hs.wopen
  · intro b k hk
    rcases hlock b k hk with ⟨rfl, rfl⟩ | ⟨-, hk⟩
    · exact hcount
    · exact hs.count b k hk
  · intro b k hk
    rcases hlock b k hk with ⟨rfl, rfl⟩ | ⟨-, hk⟩
    · exact hhash
    · exact hs.hash b k hk

/-- `c_Lock` after `LOCK_ALLOC`, or as it was. -/
theorem lockAlloc_sound (hs : s.Sound) (name : String) :
    (s.lockAlloc name).2.Sound ∧
      (∃ l, (s.lockAlloc name).2.lock (s.lockAlloc name).1 = some l ∧ l.lName = name ∧
        (s.cLock name = none → l.lHoldHash = [])) ∧
      (∀ b k, s.lock b = some k → (s.lockAlloc name).2.lock b = some k) ∧
      (s.lockAlloc name).2.joints = s.joints ∧ (s.lockAlloc name).2.waits = s.waits ∧
      (s.lockAlloc name).2.adaptors = s.adaptors := by
  unfold PFS.lockAlloc
  cases hc : s.cLock name with
  | some a =>
      obtain ⟨l, hl, hn⟩ := (hs.table name a).mp hc
      exact ⟨hs, ⟨l, hl, hn, by simp⟩, fun _ _ h => h, rfl, rfl, rfl⟩
  | none =>
      have hnew : s.lock s.next = none := by
        cases h : s.lock s.next with
        | none => rfl
        | some l => exact absurd (hs.fresh _ l h) (lt_irrefl _)
      have hold : ∀ b k, s.lock b = some k →
          Function.update s.lock s.next (some { lName := name }) b = some k := by
        intro b k hk
        have hb := hs.fresh b k hk
        rw [Function.update_of_ne (by omega)]
        exact hk
      have hlock : ∀ b k, Function.update s.lock s.next (some { lName := name }) b = some k →
          b = s.next ∧ k = { lName := name } ∨ s.lock b = some k := by
        intro b k hk
        rw [Function.update_apply] at hk
        split_ifs at hk with hb
        · cases hk
          exact .inl ⟨hb, rfl⟩
        · exact .inr hk
      have hnone : s.holds s.next = [] := by
        apply List.eq_nil_iff_forall_not_mem.mpr
        intro j hj
        obtain ⟨hj, -, ha⟩ := mem_holds.mp hj
        obtain ⟨l, hl⟩ := hs.jlive j hj
        rw [ha, hnew] at hl
        cases hl
      refine ⟨?_, ⟨{ lName := name }, Function.update_self _ _ _, rfl, fun _ => rfl⟩, hold, rfl, rfl,
        rfl⟩
      constructor
      · intro b k hk
        rcases hlock b k hk with ⟨rfl, -⟩ | hk
        · exact Nat.lt_succ_self _
        · exact Nat.lt_succ_of_lt (hs.fresh b k hk)
      · intro n b
        change Function.update s.cLock name (some s.next) n = some b ↔ _
        rw [Function.update_apply]
        split_ifs with hn
        · constructor
          · intro h
            cases h
            exact ⟨{ lName := name }, Function.update_self _ _ _, hn.symm⟩
          · rintro ⟨k, hk, hkn⟩
            rcases hlock b k hk with ⟨rfl, -⟩ | hk
            · rfl
            · have hc' := (hs.table n b).mpr ⟨k, hk, hkn⟩
              rw [hn, hc] at hc'
              cases hc'
        · rw [hs.table]
          constructor
          · rintro ⟨k, hk, hkn⟩
            exact ⟨k, hold b k hk, hkn⟩
          · rintro ⟨k, hk, hkn⟩
            rcases hlock b k hk with ⟨-, rfl⟩ | hk
            · exact absurd hkn.symm hn
            · exact ⟨k, hk, hkn⟩
      · exact hs.jids
      · intro j hj
        exact Nat.lt_succ_of_lt (hs.jfresh j hj)
      · intro j hj
        obtain ⟨l, hl⟩ := hs.jlive j hj
        exact ⟨l, hold _ l hl⟩
      · intro w hw
        obtain ⟨l, hl⟩ := hs.wlive w hw
        exact ⟨l, hold _ l hl⟩
      · exact hs.wopen
      · intro b k hk
        rcases hlock b k hk with ⟨rfl, rfl⟩ | hk
        · change Counted 0 (s.holds s.next)
          rw [hnone]
          exact .inl ⟨rfl, by simp⟩
        · exact hs.count b k hk
      · intro b k hk e he
        rcases hlock b k hk with ⟨rfl, rfl⟩ | hk
        · cases he
        · exact ⟨Nat.lt_succ_of_lt (hs.hash b k hk e he).1, (hs.hash b k hk e he).2⟩

/-- A joint is new. -/
theorem PFS.Sound.addJoint (hs : s.Sound) (ha : s.lock a = some l) (ty : PFSJointType)
    (who : SessionId)
    (hhold : PFSJoint.hold ⟨s.next, ty, who, a⟩ = false) :
    ({ s with joints := ⟨s.next, ty, who, a⟩ :: s.joints, next := s.next + 1 } : PFS).Sound := by
  have hnew : ∀ j ∈ s.joints, j.jId ≠ s.next := fun j hj => (hs.jfresh j hj).ne
  have hholds : ∀ b, ({ s with joints := ⟨s.next, ty, who, a⟩ :: s.joints, next := s.next + 1 } :
      PFS).holds b = s.holds b := by
    intro b
    unfold PFS.holds
    rw [List.filter_cons_of_neg (by simp [hhold])]
  constructor
  · intro b k hk
    exact Nat.lt_succ_of_lt (hs.fresh b k hk)
  · exact hs.table
  · rw [List.map_cons, List.nodup_cons]
    refine ⟨?_, hs.jids⟩
    intro h
    obtain ⟨j, hj, hji⟩ := List.mem_map.mp h
    exact hnew j hj hji
  · intro j hj
    rcases List.mem_cons.mp hj with rfl | hj
    · exact Nat.lt_succ_self _
    · exact Nat.lt_succ_of_lt (hs.jfresh j hj)
  · intro j hj
    rcases List.mem_cons.mp hj with rfl | hj
    · exact ⟨l, ha⟩
    · exact hs.jlive j hj
  · exact hs.wlive
  · exact hs.wopen
  · intro b k hk
    rw [hholds]
    exact hs.count b k hk
  · intro b k hk e he
    obtain ⟨hlt, hj⟩ := hs.hash b k hk e he
    refine ⟨Nat.lt_succ_of_lt hlt, ?_⟩
    intro j hj' hje
    rcases List.mem_cons.mp hj' with rfl | hj'
    · exact absurd hje hlt.ne'
    · exact hj j hj' hje

/-- When a request or a wake-up may take the lock with the count `n`. -/
def Grants (bRead : Bool) (n : ℤ) : Prop := bRead = true ∧ 0 ≤ n ∨ bRead = false ∧ n = 0

theorem reply_lock (who : SessionId) (bRead : Bool) (a : ℕ) (l : PFSLock) (s : PFS) :
    ∃ m, (pfsLockReply who bRead a l s).lock = Function.update s.lock a (some m) ∧
      m.lName = l.lName ∧ m.lCnt = (if bRead then l.lCnt + 1 else l.lCnt - 1) ∧
      m.lHoldHash = l.lHoldHash ++ [(who, s.next)] := ⟨_, rfl, rfl, rfl, rfl⟩

/-- A hold is new. -/
theorem reply_sound (hs : s.Sound) (ha : s.lock a = some l) {bRead : Bool}
    (hg : Grants bRead l.lCnt) : (pfsLockReply who bRead a l s).Sound := by
  obtain ⟨m, hm, hname, hcnt, hhash⟩ := reply_lock who bRead a l s
  obtain ⟨j, hj, hid, harg, hhold, hty⟩ : ∃ j : PFSJoint, (pfsLockReply who bRead a l s).joints =
      j :: s.joints ∧ j.jId = s.next ∧ j.jPArg = a ∧ j.hold = true ∧
      j.jType = (if bRead then .lockReadHold else .lockWriteHold) := by
    refine ⟨_, rfl, rfl, rfl, ?_, rfl⟩
    cases bRead <;> rfl
  have hlock : ∀ b k, (pfsLockReply who bRead a l s).lock b = some k →
      b = a ∧ k = m ∨ b ≠ a ∧ s.lock b = some k := by
    intro b k hk
    rw [hm, Function.update_apply] at hk
    split_ifs at hk with hb
    · cases hk
      exact .inl ⟨hb, rfl⟩
    · exact .inr ⟨hb, hk⟩
  have hlive : ∀ b, (∃ k, s.lock b = some k) →
      ∃ k, (pfsLockReply who bRead a l s).lock b = some k := by
    intro b hb
    rw [hm, Function.update_apply]
    split_ifs
    · exact ⟨m, rfl⟩
    · exact hb
  constructor
  · intro b k hk
    rcases hlock b k hk with ⟨rfl, rfl⟩ | ⟨-, hk⟩
    · exact Nat.lt_succ_of_lt (hs.fresh b l ha)
    · exact Nat.lt_succ_of_lt (hs.fresh b k hk)
  · intro n b
    change s.cLock n = some b ↔ _
    rw [hs.table]
    constructor
    · rintro ⟨k, hk, hn⟩
      by_cases hb : b = a
      · subst hb
        cases ha.symm.trans hk
        exact ⟨m, by rw [hm, Function.update_self], hname.trans hn⟩
      · exact ⟨k, by rw [hm, Function.update_of_ne hb]; exact hk, hn⟩
    · rintro ⟨k, hk, hn⟩
      rcases hlock b k hk with ⟨rfl, rfl⟩ | ⟨-, hk⟩
      · exact ⟨l, ha, hname.symm.trans hn⟩
      · exact ⟨k, hk, hn⟩
  · rw [hj, List.map_cons, List.nodup_cons]
    refine ⟨?_, hs.jids⟩
    intro h
    obtain ⟨i, hi, hij⟩ := List.mem_map.mp h
    exact (hs.jfresh i hi).ne (hij.trans hid)
  · intro i hi
    rw [hj] at hi
    rcases List.mem_cons.mp hi with rfl | hi
    · rw [hid]
      exact Nat.lt_succ_self _
    · exact Nat.lt_succ_of_lt (hs.jfresh i hi)
  · intro i hi
    rw [hj] at hi
    rcases List.mem_cons.mp hi with rfl | hi
    · exact hlive _ ⟨l, harg ▸ ha⟩
    · exact hlive _ (hs.jlive i hi)
  · intro w hw
    exact hlive _ (hs.wlive w hw)
  · exact hs.wopen
  · intro b k hk
    have hholds : (pfsLockReply who bRead a l s).holds b =
        if b = a then j :: s.holds b else s.holds b := by
      unfold PFS.holds
      rcases eq_or_ne b a with rfl | hb
      · rw [hj, if_pos rfl, List.filter_cons_of_pos (by simp [hhold, harg])]
      · rw [hj, if_neg hb, List.filter_cons_of_neg (by simp [harg, hb.symm])]
    rw [hholds]
    rcases hlock b k hk with ⟨rfl, rfl⟩ | ⟨hb, hk⟩
    · rw [if_pos rfl, hcnt]
      exact (hs.count b l ha).add hg hty
    · rw [if_neg hb]
      exact hs.count b k hk
  · intro b k hk e he
    have hold : ∀ c m', s.lock c = some m' → ∀ e ∈ m'.lHoldHash, e.2 < s.next + 1 ∧
        ∀ i ∈ (pfsLockReply who bRead a l s).joints, i.jId = e.2 → i.hold = true ∧ i.jPArg = c := by
      intro c m' hc e he
      obtain ⟨hlt, hmem⟩ := hs.hash c m' hc e he
      refine ⟨Nat.lt_succ_of_lt hlt, ?_⟩
      intro i hi hie
      rw [hj] at hi
      rcases List.mem_cons.mp hi with rfl | hi
      · omega
      · exact hmem i hi hie
    rcases hlock b k hk with ⟨rfl, rfl⟩ | ⟨-, hk⟩
    · rw [hhash] at he
      rcases List.mem_append.mp he with he | he
      · exact hold b l ha e he
      · rw [List.mem_singleton.mp he]
        refine ⟨Nat.lt_succ_self _, ?_⟩
        intro i hi hie
        rw [hj] at hi
        rcases List.mem_cons.mp hi with rfl | hi
        · exact ⟨hhold, harg⟩
        · exact absurd hie (hs.jfresh i hi).ne
    · exact hold b k hk e he

theorem filter_ne_of_notMem {js : List PFSJoint} (h : ∀ k ∈ js, k.jId ≠ i) :
    (js.filter fun k => k.jId ≠ i) = js := by
  rw [List.filter_eq_self]
  intro k hk
  simpa using h k hk

theorem holds_filter (b : ℕ) : ({ s with joints := s.joints.filter fun k => k.jId ≠ i } :
    PFS).holds b = (s.holds b).filter fun k => k.jId ≠ i := by
  unfold PFS.holds
  rw [List.filter_filter, List.filter_filter]
  apply List.filter_congr
  intro k _
  exact Bool.and_comm _ _

/-- A joint is gone. If it was a hold, its lock `l` is `m` now. -/
theorem removeJoint_sound (hs : s.Sound) (hj : j ∈ s.joints) (ha : s.lock j.jPArg = some l)
    (hname : m.lName = l.lName)
    (hcnt : m.lCnt = if j.hold then if 0 < l.lCnt then l.lCnt - 1 else l.lCnt + 1 else l.lCnt)
    (hhash : ∀ e ∈ m.lHoldHash, e ∈ l.lHoldHash) :
    ({ s.setLock j.jPArg m with joints := s.joints.filter fun k => k.jId ≠ j.jId } : PFS).Sound := by
  have hlock : ∀ b k, (s.setLock j.jPArg m).lock b = some k →
      b = j.jPArg ∧ k = m ∨ b ≠ j.jPArg ∧ s.lock b = some k := by
    intro b k hk
    simp only [PFS.setLock, Function.update_apply] at hk
    split_ifs at hk with hb
    · cases hk
      exact .inl ⟨hb, rfl⟩
    · exact .inr ⟨hb, hk⟩
  have hlive : ∀ b, (∃ k, s.lock b = some k) → ∃ k, (s.setLock j.jPArg m).lock b = some k := by
    intro b hb
    simp only [PFS.setLock, Function.update_apply]
    split_ifs
    · exact ⟨m, rfl⟩
    · exact hb
  have hnd : ∀ b, ((s.holds b).map (·.jId)).Nodup := fun b =>
    hs.jids.sublist (List.filter_sublist.map _)
  constructor
  · intro b k hk
    rcases hlock b k hk with ⟨rfl, rfl⟩ | ⟨-, hk⟩
    · exact hs.fresh _ l ha
    · exact hs.fresh b k hk
  · intro n b
    change s.cLock n = some b ↔ _
    rw [hs.table]
    constructor
    · rintro ⟨k, hk, hn⟩
      by_cases hb : b = j.jPArg
      · subst hb
        cases ha.symm.trans hk
        exact ⟨m, by simp [PFS.setLock], hname.trans hn⟩
      · exact ⟨k, by simpa [PFS.setLock, hb] using hk, hn⟩
    · rintro ⟨k, hk, hn⟩
      rcases hlock b k hk with ⟨rfl, rfl⟩ | ⟨-, hk⟩
      · exact ⟨l, ha, hname.symm.trans hn⟩
      · exact ⟨k, hk, hn⟩
  · exact hs.jids.sublist (List.filter_sublist.map _)
  · intro k hk
    exact hs.jfresh k (List.mem_filter.mp hk).1
  · intro k hk
    exact hlive _ (hs.jlive k (List.mem_filter.mp hk).1)
  · intro w hw
    exact hlive _ (hs.wlive w hw)
  · exact hs.wopen
  · intro b k hk
    change Counted k.lCnt (({ s with joints := s.joints.filter fun k => k.jId ≠ j.jId } :
      PFS).holds b)
    rw [holds_filter]
    rcases hlock b k hk with ⟨rfl, rfl⟩ | ⟨hb, hk⟩
    · rw [hcnt]
      split_ifs with hh hpos
      · have hrem := (hs.count _ l ha).remove
          (perm_cons_filter (hnd _) (mem_holds.mpr ⟨hj, hh, rfl⟩))
        rwa [if_pos hpos] at hrem
      · have hrem := (hs.count _ l ha).remove
          (perm_cons_filter (hnd _) (mem_holds.mpr ⟨hj, hh, rfl⟩))
        rwa [if_neg hpos] at hrem
      · rw [filter_ne_of_notMem]
        · exact hs.count _ l ha
        · intro i hi hij
          obtain ⟨hi, hih, -⟩ := mem_holds.mp hi
          rw [List.inj_on_of_nodup_map hs.jids hi hj hij] at hih
          exact hh hih
    · rw [filter_ne_of_notMem]
      · exact hs.count b k hk
      · intro i hi hij
        obtain ⟨hi, -, hib⟩ := mem_holds.mp hi
        rw [List.inj_on_of_nodup_map hs.jids hi hj hij] at hib
        exact hb hib.symm
  · intro b k hk e he
    have hold : ∀ c m', s.lock c = some m' → ∀ e ∈ m'.lHoldHash, e.2 < s.next ∧
        ∀ i ∈ s.joints.filter fun k => k.jId ≠ j.jId, i.jId = e.2 → i.hold = true ∧ i.jPArg = c := by
      intro c m' hc e he
      obtain ⟨hlt, hmem⟩ := hs.hash c m' hc e he
      exact ⟨hlt, fun i hi => hmem i (List.mem_filter.mp hi).1⟩
    rcases hlock b k hk with ⟨rfl, rfl⟩ | ⟨-, hk⟩
    · exact hold _ l ha e (hhash e he)
    · exact hold b k hk e he

/-- A lock that nothing is linked to is gone. -/
theorem removeLock_sound (hs : s.Sound) (ha : s.lock a = some l)
    (htie : s.waiting a = [] ∧ s.holds a = [] ∧ s.events a = []) :
    ({ s with
      lock := Function.update s.lock a none
      cLock := Function.update s.cLock l.lName none } : PFS).Sound := by
  obtain ⟨hw, hh, he⟩ := htie
  have hlock : ∀ b k, Function.update s.lock a none b = some k → b ≠ a ∧ s.lock b = some k := by
    intro b k hk
    rw [Function.update_apply] at hk
    split_ifs at hk with hb
    exact ⟨hb, hk⟩
  have hlive : ∀ b, b ≠ a → (∃ k, s.lock b = some k) →
      ∃ k, Function.update s.lock a none b = some k := by
    intro b hb h
    rwa [Function.update_of_ne hb]
  constructor
  · intro b k hk
    exact hs.fresh b k (hlock b k hk).2
  · intro n b
    change Function.update s.cLock l.lName none n = some b ↔ _
    rw [Function.update_apply]
    split_ifs with hn
    · constructor
      · intro h
        cases h
      · rintro ⟨k, hk, hkn⟩
        obtain ⟨hb, hk⟩ := hlock b k hk
        exact absurd (hs.unique hk ha (hkn.trans hn)) hb
    · rw [hs.table]
      constructor
      · rintro ⟨k, hk, hkn⟩
        have hb : b ≠ a := by
          intro hb
          rw [hb] at hk
          cases ha.symm.trans hk
          exact hn hkn.symm
        exact ⟨k, (Function.update_of_ne hb _ _).trans hk, hkn⟩
      · rintro ⟨k, hk, hkn⟩
        exact ⟨k, (hlock b k hk).2, hkn⟩
  · exact hs.jids
  · exact hs.jfresh
  · intro j hj
    apply hlive _ _ (hs.jlive j hj)
    intro hja
    cases hhold : j.hold with
    | true => exact List.ne_nil_of_mem (mem_holds.mpr ⟨hj, hhold, hja⟩) hh
    | false => exact List.ne_nil_of_mem (mem_events.mpr ⟨hj, hhold, hja⟩) he
  · intro w hww
    apply hlive _ _ (hs.wlive w hww)
    intro hwa
    exact List.ne_nil_of_mem (mem_waiting.mpr ⟨hww, hwa⟩) hw
  · exact hs.wopen
  · intro b k hk
    exact hs.count b k (hlock b k hk).2
  · intro b k hk
    exact hs.hash b k (hlock b k hk).2

/-- `pfsLockGarbage` finds a lock without holds at count 0, and frees it if
nothing is linked to it. -/
theorem garbage_ok (hs : s.Sound) (ha : s.lock a = some l) :
    pfsLockGarbage a s = .ok (false, s) ∨
      (s.waiting a = [] ∧ s.holds a = [] ∧ s.events a = []) ∧
        pfsLockGarbage a s = .ok (true, { s with
          lock := Function.update s.lock a none
          cLock := Function.update s.cLock l.lName none }) := by
  have heq : pfsLockGarbage a s =
      if s.waiting a = [] ∧ s.holds a = [] ∧ s.events a = [] then
        if l.lCnt ≠ 0 then .error .assertCnt
        else
          .ok (true, { s with
            lock := Function.update s.lock a none
            cLock := Function.update s.cLock l.lName none })
      else .ok (false, s) := by
    unfold pfsLockGarbage
    rw [lockAt_ok ha]
    rfl
  rw [heq]
  split_ifs with htie hcnt
  · have hc := hs.count a l ha
    rw [htie.2.1] at hc
    exact absurd hc.nil hcnt
  · exact .inr ⟨htie, rfl⟩
  · exact .inl rfl

/-! ### Notifying and waking -/

theorem lockEvents_ok {adaptors : List SessionId} (js : List PFSJoint) (hcnt : l.lCnt ≠ 0)
    (hkeys : ∀ e ∈ l.lHoldHash, e.1 ∈ adaptors) :
    ∃ out, pfsLockEvents adaptors who l js = .ok out := by
  induction js with
  | nil => exact ⟨[], rfl⟩
  | cons j js ih =>
      obtain ⟨out, hout⟩ := ih
      obtain ⟨r, hr, -⟩ := holdHashGet_ok (p := j.jAdaptor.process) hkeys
      unfold pfsLockEvents
      rw [if_neg hcnt]
      split_ifs with hp hty
      · exact ⟨out, hout⟩
      · rw [hr, hout]
        simp only [bind, Except.bind]
        split <;> exact ⟨_, rfl⟩
      · rw [hout]
        exact ⟨_, rfl⟩

/-- A notification changes the number of the lock's events. -/
theorem notify_ok (who : SessionId) (ha : s.lock a = some l) (hcnt : l.lCnt ≠ 0)
    (hkeys : s.KeysLive a) :
    ∃ out, pfsLockNotify who a s =
      .ok { s.setLock a { l with lEventSeq := seqInc l.lEventSeq } with out := s.out ++ out } := by
  obtain ⟨out, hout⟩ : ∃ out, pfsLockEvents s.adaptors who
      { l with lEventSeq := seqInc l.lEventSeq } (s.events a) = .ok out :=
    lockEvents_ok (s.events a) hcnt (hkeys l ha)
  refine ⟨out, ?_⟩
  unfold pfsLockNotify
  rw [lockAt_ok ha]
  simp only [bind, Except.bind]
  rw [hout]

end Changes

/-- What becomes of the state when the joints in `gone` are released: it is
sound, and what is not released stays. -/
structure Keeps (gone : List ℕ) (s t : PFS) : Prop where
  sound : t.Sound
  adaptors : t.adaptors = s.adaptors
  keys : ∀ b, s.KeysLive b → t.KeysLive b
  waits : ∀ w ∈ t.waits, w ∈ s.waits
  stays : ∀ j ∈ s.joints, j.jId ∉ gone → j ∈ t.joints

theorem Keeps.trans {g : List ℕ} {s t u : PFS} (h : Keeps g s t) (h' : Keeps g t u) :
    Keeps g s u := by
  constructor
  · exact h'.sound
  · exact h'.adaptors.trans h.adaptors
  · intro b hb
    exact h'.keys b (h.keys b hb)
  · intro w hw
    exact h.waits w (h'.waits w hw)
  · intro j hj hg
    exact h'.stays j (h.stays j hj hg) hg

theorem Keeps.mono {g g' : List ℕ} {s t : PFS} (h : Keeps g s t) (hg : ∀ i ∈ g, i ∈ g') :
    Keeps g' s t :=
  ⟨h.sound, h.adaptors, h.keys, h.waits, fun j hj hn => h.stays j hj fun hi => hn (hg _ hi)⟩

section Unlock
variable {s t : PFS} {a b i : ℕ} {l m : PFSLock} {j : PFSJoint} {who : SessionId}

/-- A waiting session is given the lock. -/
theorem reply_keeps (hs : s.Sound) (ha : s.lock a = some l) {bRead : Bool}
    (hg : Grants bRead l.lCnt) (hwho : who ∈ s.adaptors) (p : LockWait → Bool) :
    Keeps [] s (pfsLockReply who bRead a l { s with waits := s.waits.filter p }) := by
  constructor
  · exact reply_sound (hs.unwait p) ha hg
  · rfl
  · intro b hb k hk e he
    obtain ⟨m, hm, -, -, hhash⟩ :=
      reply_lock who bRead a l { s with waits := s.waits.filter p }
    rw [hm] at hk
    by_cases hba : b = a
    · rw [hba, Function.update_self] at hk
      cases hk
      rw [hhash] at he
      rcases List.mem_append.mp he with he | he
      · exact hb l (hba ▸ ha) e he
      · rw [List.mem_singleton.mp he]
        exact hwho
    · rw [Function.update_of_ne hba] at hk
      exact hb k hk e he
  · intro w hw
    exact (List.mem_filter.mp hw).1
  · intro j hj _
    exact List.mem_cons_of_mem _ hj

/-- The wake-up gives the lock to waiting sessions, to the first one at least. -/
theorem wake_ok (ws : List LockWait) (hs : s.Sound) (ha : s.lock a = some l) (hcnt : 0 ≤ l.lCnt)
    (hws : ∀ w ∈ ws, w.session ∈ s.adaptors) :
    ∃ t m, pfsWake a ws s = .ok t ∧ Keeps [] s t ∧ t.lock a = some m ∧
      (l.lCnt ≠ 0 ∨ ws ≠ [] → m.lCnt ≠ 0) := by
  induction ws generalizing s l with
  | nil =>
      refine ⟨s, l, rfl, ⟨hs, rfl, fun _ h => h, fun _ h => h, fun _ h _ => h⟩, ha, ?_⟩
      simp
  | cons w ws ih =>
      have htail : ∀ v ∈ ws, v.session ∈ s.adaptors := fun v hv =>
        hws v (List.mem_cons_of_mem _ hv)
      have hwho := hws w List.mem_cons_self
      have heq : pfsWake a (w :: ws) s =
          if w.aLockRead = false ∧ l.lCnt ≠ 0 then pfsWake a ws s
          else
            let s := pfsLockReply w.session w.aLockRead a l
              { s with waits := s.waits.filter fun v => v.session ≠ w.session }
            if w.aLockRead = false then .ok s else pfsWake a ws s := by
        rw [pfsWake, lockAt_ok ha]
        rfl
      rw [heq]
      split_ifs with hskip hwrite
      · obtain ⟨t, m, ht, hk, hm, hne⟩ := ih hs ha hcnt htail
        exact ⟨t, m, ht, hk, hm, fun _ => hne (.inl hskip.2)⟩
      · have hzero : l.lCnt = 0 := by
          by_contra h
          exact hskip ⟨hwrite, h⟩
        obtain ⟨m, hm, -, hmcnt, -⟩ := reply_lock w.session w.aLockRead a l
          { s with waits := s.waits.filter fun v => v.session ≠ w.session }
        refine ⟨_, m, rfl, reply_keeps hs ha (.inr ⟨hwrite, hzero⟩) hwho _, ?_, ?_⟩
        · rw [hm, Function.update_self]
        · intro _
          rw [hmcnt, hwrite, hzero]
          decide
      · have hread : w.aLockRead = true := by simpa using hwrite
        have hkeep := reply_keeps hs ha (.inl ⟨hread, hcnt⟩) hwho
          fun v => v.session ≠ w.session
        obtain ⟨k, hk, -, hkcnt, -⟩ := reply_lock w.session w.aLockRead a l
          { s with waits := s.waits.filter fun v => v.session ≠ w.session }
        rw [hread, if_pos rfl] at hkcnt
        obtain ⟨t, m, ht, htk, hm, hne⟩ := ih (l := k) hkeep.sound
          (by rw [hk, Function.update_self]) (by omega) htail
        exact ⟨t, m, ht, hkeep.trans htk, hm, fun _ => hne (.inl (by omega))⟩

/-- A notification changes what no invariant is about. -/
theorem notify_keeps (hs : s.Sound) (ha : s.lock a = some l) (o : List PFSOut) :
    Keeps [] s { s.setLock a { l with lEventSeq := seqInc l.lEventSeq } with out := o } := by
  have hsound : (s.setLock a { l with lEventSeq := seqInc l.lEventSeq }).Sound :=
    hs.setLock ha rfl (hs.count a l ha) (hs.hash a l ha)
  constructor
  · exact hsound.out _
  · rfl
  · intro b hb k hk e he
    change Function.update s.lock a _ b = some k at hk
    rw [Function.update_apply] at hk
    split_ifs at hk with hba
    · cases hk
      exact hb l (hba ▸ ha) e he
    · exact hb k hk e he
  · exact fun _ h => h
  · exact fun _ h _ => h

/-- What `pfsUnlock` does once the joint is freed. -/
theorem unlocked_ok (hs : s.Sound) (ha : s.lock a = some l) (hkeys : s.KeysLive a) :
    ∃ t m, pfsUnlocked a s = .ok t ∧ Keeps [] s t ∧ t.lock a = some m := by
  rw [pfsUnlocked, lockAt_ok ha]
  simp only [bind, Except.bind]
  by_cases hcnt : l.lCnt ≠ 0
  · rw [if_pos hcnt]
    exact ⟨s, l, rfl, ⟨hs, rfl, fun _ h => h, fun _ h => h, fun _ h _ => h⟩, ha⟩
  · rw [if_neg hcnt]
    have hzero : l.lCnt = 0 := by simpa using hcnt
    obtain ⟨u, m, hu, hk, hm, hne⟩ := wake_ok (s.waiting a) hs ha hzero.ge fun w hw =>
      hs.wopen w (mem_waiting.mp hw).1
    rw [hu]
    simp only
    cases hw : u.waiting a with
    | nil => exact ⟨u, m, rfl, hk, hm⟩
    | cons w ws =>
        -- who still waits waited before, so somebody was woken
        have hmne : m.lCnt ≠ 0 := by
          apply hne
          right
          have hwu : w ∈ u.waiting a := hw ▸ List.mem_cons_self
          obtain ⟨hwu, hwa⟩ := mem_waiting.mp hwu
          exact List.ne_nil_of_mem (mem_waiting.mpr ⟨hk.waits w hwu, hwa⟩)
        obtain ⟨out, hout⟩ := notify_ok w.session hm hmne (hk.keys a hkeys)
        exact ⟨_, _, hout, hk.trans (notify_keeps hk.sound hm _), Function.update_self _ _ _⟩

/-- A hold is off, and its lock `l` is `m` now. -/
theorem release_keeps (hs : s.Sound) (hj : j ∈ s.joints) (hhold : j.hold = true)
    (hl : s.lock j.jPArg = some l) (hname : m.lName = l.lName)
    (hcnt : m.lCnt = if 0 < l.lCnt then l.lCnt - 1 else l.lCnt + 1)
    (hhash : ∀ e ∈ m.lHoldHash, e ∈ l.lHoldHash) (o : List PFSOut) :
    Keeps [j.jId] s { s.setLock j.jPArg m with
      joints := s.joints.filter fun k => k.jId ≠ j.jId, out := o } := by
  have hrem : ({ s.setLock j.jPArg m with
      joints := s.joints.filter fun k => k.jId ≠ j.jId } : PFS).Sound := by
    apply removeJoint_sound hs hj hl hname _ hhash
    rw [hhold]
    exact hcnt
  constructor
  · exact hrem.out o
  · rfl
  · intro b hb k hk e he
    change Function.update s.lock j.jPArg (some m) b = some k at hk
    by_cases hba : b = j.jPArg
    · rw [hba, Function.update_self] at hk
      cases hk
      exact hb l (hba ▸ hl) e (hhash e he)
    · rw [Function.update_of_ne hba] at hk
      exact hb k hk e he
  · exact fun _ h => h
  · intro k hk hne
    exact List.mem_filter.mpr ⟨hk, by simpa using hne⟩

theorem removeLock_keeps (hs : s.Sound) (ha : s.lock a = some l)
    (htie : s.waiting a = [] ∧ s.holds a = [] ∧ s.events a = []) :
    Keeps [] s { s with
      lock := Function.update s.lock a none
      cLock := Function.update s.cLock l.lName none } := by
  constructor
  · exact removeLock_sound hs ha htie
  · rfl
  · intro b hb k hk e he
    change Function.update s.lock a none b = some k at hk
    by_cases hba : b = a
    · rw [hba, Function.update_self] at hk
      cases hk
    · rw [Function.update_of_ne hba] at hk
      exact hb k hk e he
  · exact fun _ h => h
  · exact fun _ h _ => h

/-- `pfsUnlock` of a hold does not touch what is freed. The lock is there
afterwards if something else is linked to it. -/
theorem unlock_ok (p : Process) (bAbort : Bool) (hs : s.Sound) (hj : j ∈ s.joints)
    (hhold : j.hold = true) (hkeys : s.KeysLive j.jPArg) :
    ∃ t, pfsUnlock p j.jId bAbort s = .ok t ∧ Keeps [j.jId] s t ∧
      ((∃ k ∈ s.joints, k.jPArg = j.jPArg ∧ k.jId ≠ j.jId) ∨ s.waiting j.jPArg ≠ [] →
        ∃ m, t.lock j.jPArg = some m) := by
  obtain ⟨l, hl⟩ := hs.jlive j hj
  obtain ⟨e, he, hemem⟩ := holdHashGet_ok (p := p) (hkeys l hl)
  have hcnt : l.lCnt ≠ 0 := (hs.count _ l hl).ne_zero (mem_holds.mpr ⟨hj, hhold, rfl⟩)
  -- the lock and the joints once the hold is off
  let m : PFSLock := { l with
    lCnt := if 0 < l.lCnt then l.lCnt - 1 else l.lCnt + 1
    lHoldHash := e.elim l.lHoldHash l.lHoldHash.erase }
  obtain ⟨o, ho⟩ : ∃ o, pfsUnlock p j.jId bAbort s =
      (pfsLockGarbage j.jPArg { s.setLock j.jPArg m with
        joints := s.joints.filter fun k => k.jId ≠ j.jId, out := o }).bind fun r =>
          if r.1 then .ok r.2 else pfsUnlocked j.jPArg r.2 := by
    unfold pfsUnlock
    rw [joint_ok hs hj]
    simp only [bind, Except.bind]
    rw [lockAt_ok hl]
    simp only [hcnt, if_false, he]
    by_cases hdel : bAbort = true ∧ l.lCnt < 0
    · rw [if_pos hdel]
      exact ⟨_, rfl⟩
    · rw [if_neg hdel]
      exact ⟨_, rfl⟩
  have hhash : ∀ d ∈ m.lHoldHash, d ∈ l.lHoldHash := by
    intro d hd
    cases e with
    | none => exact hd
    | some e => exact List.mem_of_mem_erase hd
  have hm : Function.update s.lock j.jPArg (some m) j.jPArg = some m := Function.update_self _ _ _
  set u : PFS := { s.setLock j.jPArg m with
    joints := s.joints.filter fun k => k.jId ≠ j.jId, out := o } with hu
  have hkeep : Keeps [j.jId] s u := release_keeps (m := m) hs hj hhold hl rfl rfl hhash o
  rw [ho]
  rcases garbage_ok hkeep.sound hm with hg | ⟨⟨hw, hh, hev⟩, hg⟩
  · rw [hg]
    obtain ⟨t, k, ht, htk, htm⟩ := unlocked_ok hkeep.sound hm (hkeep.keys _ hkeys)
    exact ⟨t, ht, hkeep.trans (htk.mono (by simp)), fun _ => ⟨k, htm⟩⟩
  · rw [hg]
    refine ⟨_, rfl, ?_, ?_⟩
    · exact hkeep.trans ((removeLock_keeps hkeep.sound hm ⟨hw, hh, hev⟩).mono (by simp))
    · -- nothing else was linked to the lock
      intro htie
      exfalso
      rcases htie with ⟨k, hk, hka, hkj⟩ | hwait
      · have hku : k ∈ u.joints := List.mem_filter.mpr ⟨hk, by simpa using hkj⟩
        cases hkh : k.hold with
        | true => exact List.ne_nil_of_mem (mem_holds.mpr ⟨hku, hkh, hka⟩) hh
        | false => exact List.ne_nil_of_mem (mem_events.mpr ⟨hku, hkh, hka⟩) hev
      · exact hwait hw

/-- `JOINT_FREE` of an event's joint -/
theorem eventFree_ok (hs : s.Sound) (hj : j ∈ s.joints) (hhold : j.hold = false) :
    ∃ t, pfsEventFree j.jId s = .ok t ∧ Keeps [j.jId] s t := by
  obtain ⟨l, hl⟩ := hs.jlive j hj
  have hself : s.setLock j.jPArg l = s := by
    unfold PFS.setLock
    rw [← hl, Function.update_eq_self]
  have hsound : ({ s with joints := s.joints.filter fun k => k.jId ≠ j.jId } : PFS).Sound := by
    have h := removeJoint_sound hs hj hl (m := l) rfl (by simp [hhold]) fun _ h => h
    rwa [hself] at h
  have heq : pfsEventFree j.jId s =
      (pfsLockGarbage j.jPArg { s with joints := s.joints.filter fun k => k.jId ≠ j.jId }).bind
        fun r => .ok r.2 := by
    unfold pfsEventFree
    rw [joint_ok hs hj]
    rfl
  have hstays : ∀ k ∈ s.joints, k.jId ∉ [j.jId] →
      k ∈ s.joints.filter fun k => k.jId ≠ j.jId := by
    intro k hk hne
    exact List.mem_filter.mpr ⟨hk, by simpa using hne⟩
  rw [heq]
  rcases garbage_ok (a := j.jPArg) hsound hl with hg | ⟨htie, hg⟩
  · rw [hg]
    exact ⟨_, rfl, hsound, rfl, fun _ h => h, fun _ h => h, hstays⟩
  · rw [hg]
    have hkeep := removeLock_keeps hsound hl htie
    exact ⟨_, rfl, hkeep.sound, rfl, hkeep.keys, fun _ h => h, hstays⟩

theorem unlockAll_ok (p : Process) (bAbort : Bool) (is : List ℕ) (hs : s.Sound) (hn : is.Nodup)
    (his : ∀ i ∈ is, ∃ j ∈ s.joints, j.jId = i ∧ j.hold = true ∧ s.KeysLive j.jPArg) :
    ∃ t, pfsUnlockAll p bAbort is s = .ok t ∧ Keeps is s t := by
  induction is generalizing s with
  | nil => exact ⟨s, rfl, hs, rfl, fun _ h => h, fun _ h => h, fun _ h _ => h⟩
  | cons i is ih =>
      obtain ⟨hi, hnd⟩ := List.nodup_cons.mp hn
      obtain ⟨j, hj, rfl, hhold, hkeys⟩ := his i List.mem_cons_self
      obtain ⟨u, hu, hk, -⟩ := unlock_ok p bAbort hs hj hhold hkeys
      obtain ⟨t, ht, hkt⟩ := ih hk.sound hnd (by
        intro k hki
        obtain ⟨d, hd, rfl, hdh, hdk⟩ := his k (List.mem_cons_of_mem _ hki)
        have hne : d.jId ∉ [j.jId] := by
          intro h
          exact hi (List.mem_singleton.mp h ▸ hki)
        exact ⟨d, hk.stays d hd hne, rfl, hdh, hk.keys _ hdk⟩)
      refine ⟨t, ?_, (hk.mono (by simp)).trans (hkt.mono fun _ h => List.mem_cons_of_mem _ h)⟩
      unfold pfsUnlockAll
      rw [hu]
      exact ht

theorem eventFreeAll_ok (is : List ℕ) (hs : s.Sound) (hn : is.Nodup)
    (his : ∀ i ∈ is, ∃ j ∈ s.joints, j.jId = i ∧ j.hold = false) :
    ∃ t, pfsEventFreeAll is s = .ok t ∧ Keeps is s t := by
  induction is generalizing s with
  | nil => exact ⟨s, rfl, hs, rfl, fun _ h => h, fun _ h => h, fun _ h _ => h⟩
  | cons i is ih =>
      obtain ⟨hi, hnd⟩ := List.nodup_cons.mp hn
      obtain ⟨j, hj, rfl, hhold⟩ := his i List.mem_cons_self
      obtain ⟨u, hu, hk⟩ := eventFree_ok hs hj hhold
      obtain ⟨t, ht, hkt⟩ := ih hk.sound hnd (by
        intro k hki
        obtain ⟨d, hd, rfl, hdh⟩ := his k (List.mem_cons_of_mem _ hki)
        have hne : d.jId ∉ [j.jId] := by
          intro h
          exact hi (List.mem_singleton.mp h ▸ hki)
        exact ⟨d, hk.stays d hd hne, rfl, hdh⟩)
      refine ⟨t, ?_, (hk.mono (by simp)).trans (hkt.mono fun _ h => List.mem_cons_of_mem _ h)⟩
      unfold pfsEventFreeAll
      rw [hu]
      exact ht

/-- A session waits for a lock that is held. -/
theorem lockWait_ok {bRead bEmptyWait : Bool} (hs : s.Sound) (ha : s.lock a = some l)
    (hwho : who ∈ s.adaptors) (hcnt : bEmptyWait = true → l.lCnt ≠ 0) (hkeys : s.KeysLive a) :
    ∃ t, pfsLockWait who bRead bEmptyWait a s = .ok t ∧ t.Sound := by
  have hadd : ({ s with waits := s.waits ++ [⟨who, a, bRead⟩] } : PFS).Sound := by
    refine ⟨hs.fresh, hs.table, hs.jids, hs.jfresh, hs.jlive, ?_, ?_, hs.count, hs.hash⟩
    · intro w hw
      rcases List.mem_append.mp hw with hw | hw
      · exact hs.wlive w hw
      · rw [List.mem_singleton.mp hw]
        exact ⟨l, ha⟩
    · intro w hw
      rcases List.mem_append.mp hw with hw | hw
      · exact hs.wopen w hw
      · rw [List.mem_singleton.mp hw]
        exact hwho
  unfold pfsLockWait
  split_ifs with hwaits hempty
  · exact ⟨s, rfl, hs⟩
  · obtain ⟨out, hout⟩ := notify_ok (s := { s with waits := s.waits ++ [⟨who, a, bRead⟩] })
      who ha (hcnt hempty) hkeys
    refine ⟨_, hout, ?_⟩
    have hset := hadd.setLock (m := { l with lEventSeq := seqInc l.lEventSeq }) ha rfl
      (hadd.count a l ha) (hadd.hash a l ha)
    exact hset.out _
  · exact ⟨_, rfl, hadd⟩

end Unlock

end PaxosSolutions
