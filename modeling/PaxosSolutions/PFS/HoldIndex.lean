import PaxosSolutions.PFS.LockRequests

/-!
# The index of the holders

An index is keyed by process, and a removal takes the first item of the
process. As long as the hold that is released is the first of its process, the
index of every lock has exactly its holds, in the order they were taken.
-/
namespace PaxosSolutions
open Lib NWGadget

/-- The item of `l_HoldHash` that a hold is put in with. -/
def PFSJoint.item (j : PFSJoint) : SessionId × ℕ := (j.jAdaptor, j.jId)

/-- The items of a lock's index are its holds. -/
structure PFS.Indexed (s : PFS) : Prop where
  order : s.joints.Pairwise fun j k => k.jId < j.jId
  jfresh : ∀ j ∈ s.joints, j.jId < s.next ∧ j.jPArg < s.next
  tfresh : ∀ n a, s.cLock n = some a → a < s.next
  index : ∀ a l, s.lock a = some l → l.lHoldHash = ((s.holds a).map PFSJoint.item).reverse

/-- The joint is the first hold by its process of its lock. -/
def PFS.First (s : PFS) (p : Process) (j : PFSJoint) : Prop :=
  j.hold = true ∧ j.jAdaptor.process = p ∧
    ∀ k ∈ s.holds j.jPArg, k.jAdaptor.process = p → j.jId ≤ k.jId

/-! ### Looking up and removing -/

theorem holdHashGet_some {adaptors : List SessionId} {p : Process} {es : List (SessionId × ℕ)}
    {e : SessionId × ℕ} (h : holdHashGet adaptors p es = .ok (some e)) :
    ∃ pre post, es = pre ++ e :: post ∧ e.1.process = p ∧ ∀ d ∈ pre, d.1.process ≠ p := by
  induction es with
  | nil => cases h
  | cons d es ih =>
      have hskip : holdHashGet adaptors p es = .ok (some e) → d.1.process ≠ p →
          ∃ pre post, d :: es = pre ++ e :: post ∧ e.1.process = p ∧
            ∀ c ∈ pre, c.1.process ≠ p := by
        intro h hd
        obtain ⟨pre, post, hes, he, hpre⟩ := ih h
        refine ⟨d :: pre, post, by rw [hes]; rfl, he, ?_⟩
        intro c hc
        rcases List.mem_cons.mp hc with rfl | hc
        · exact hd
        · exact hpre c hc
      unfold holdHashGet at h
      split_ifs at h with hcode hopen hp
      · apply hskip h
        intro hdp
        exact hcode (by rw [hdp])
      · cases h
        exact ⟨[], es, rfl, hp, by simp⟩
      · exact hskip h hp

theorem holdHashGet_none {adaptors : List SessionId} {p : Process} {es : List (SessionId × ℕ)}
    (h : holdHashGet adaptors p es = .ok none) : ∀ d ∈ es, d.1.process ≠ p := by
  induction es with
  | nil => simp
  | cons d es ih =>
      intro c hc
      unfold holdHashGet at h
      split_ifs at h with hcode hopen hp
      · rcases List.mem_cons.mp hc with rfl | hc
        · intro hcp
          exact hcode (by rw [hcp])
        · exact ih h c hc
      · cases h
      · rcases List.mem_cons.mp hc with rfl | hc
        · exact hp
        · exact ih h c hc

section Index
variable {s t : PFS} {a i : ℕ} {l m : PFSLock} {j : PFSJoint} {who : SessionId} {p : Process}

theorem lock_of_lockAt (h : s.lockAt a = .ok l) : s.lock a = some l := by
  unfold PFS.lockAt at h
  cases hl : s.lock a with
  | none =>
      rw [hl] at h
      cases h
  | some m =>
      rw [hl] at h
      cases h
      rfl

theorem mem_of_joint (h : s.joint i = .ok j) : j ∈ s.joints ∧ j.jId = i := by
  unfold PFS.joint at h
  cases hf : s.joints.find? fun j => j.jId = i with
  | none =>
      rw [hf] at h
      cases h
  | some k =>
      rw [hf] at h
      cases h
      exact ⟨List.mem_of_find?_eq_some hf, by simpa using List.find?_some hf⟩

theorem PFS.Indexed.eq_of_id (hs : s.Indexed) {k : PFSJoint} (hj : j ∈ s.joints)
    (hk : k ∈ s.joints) (h : j.jId = k.jId) : j = k := by
  have hn : (s.joints.map (·.jId)).Nodup := by
    rw [List.nodup_iff_pairwise_ne, List.pairwise_map]
    exact hs.order.imp fun h => h.ne'
  exact List.inj_on_of_nodup_map hn hj hk h

/-- What is found under a process is its first hold of the lock. -/
theorem first_of_get (hs : s.Indexed) (ha : s.lock a = some l) {e : SessionId × ℕ}
    (h : holdHashGet s.adaptors p l.lHoldHash = .ok (some e)) :
    ∃ j ∈ s.holds a, j.item = e ∧ s.First p j := by
  obtain ⟨pre, post, hes, hp, hpre⟩ := holdHashGet_some h
  rw [hs.index a l ha] at hes
  have hmem : e ∈ ((s.holds a).map PFSJoint.item).reverse := by
    rw [hes]
    simp
  obtain ⟨j, hj, rfl⟩ := List.mem_map.mp (List.mem_reverse.mp hmem)
  obtain ⟨hjs, hhold, rfl⟩ := mem_holds.mp hj
  refine ⟨j, hj, rfl, hhold, hp, ?_⟩
  intro k hk hkp
  have hord : (((s.holds j.jPArg).map PFSJoint.item).reverse).Pairwise fun d e => d.2 < e.2 := by
    rw [List.pairwise_reverse, List.pairwise_map]
    exact hs.order.sublist List.filter_sublist
  have hkm : k.item ∈ ((s.holds j.jPArg).map PFSJoint.item).reverse :=
    List.mem_reverse.mpr (List.mem_map_of_mem hk)
  rw [hes] at hord hkm
  rcases List.mem_append.mp hkm with hkm | hkm
  · exact absurd hkp (hpre _ hkm)
  · rcases List.mem_cons.mp hkm with hkm | hkm
    · have hid : k.jId = j.jId := congrArg Prod.snd hkm
      exact hid.ge
    · exact ((List.pairwise_cons.mp (List.pairwise_append.mp hord).2.1).1 _ hkm).le

/-- The first hold of a process is what is found under it. -/
theorem get_of_first (hs : s.Indexed) (hj : j ∈ s.joints) (ha : s.lock j.jPArg = some l)
    (hfirst : s.First p j) {r : Option (SessionId × ℕ)}
    (h : holdHashGet s.adaptors p l.lHoldHash = .ok r) : r = some j.item := by
  obtain ⟨hhold, hp, hle⟩ := hfirst
  have hjh : j ∈ s.holds j.jPArg := mem_holds.mpr ⟨hj, hhold, rfl⟩
  cases r with
  | none =>
      refine absurd hp (holdHashGet_none h j.item ?_)
      rw [hs.index _ l ha]
      exact List.mem_reverse.mpr (List.mem_map_of_mem hjh)
  | some e =>
      obtain ⟨k, hk, rfl, -, hkp, hkle⟩ := first_of_get hs ha h
      obtain ⟨hks, -, hka⟩ := mem_holds.mp hk
      rw [hka] at hkle
      have hid : k.jId = j.jId := le_antisymm (hkle j hjh hp) (hle k hk hkp)
      rw [hs.eq_of_id hks hj hid]

/-- Taking the item of a hold out of an index takes the hold out. -/
theorem erase_item {js : List PFSJoint} (hn : (js.map (·.jId)).Nodup) (hj : j ∈ js) :
    ((js.map PFSJoint.item).reverse).erase j.item =
      ((js.filter fun k => k.jId ≠ j.jId).map PFSJoint.item).reverse := by
  have hni : (js.map PFSJoint.item).Nodup := by
    apply List.Nodup.of_map Prod.snd
    rw [List.map_map]
    exact hn
  rw [(List.nodup_reverse.mpr hni).erase_eq_filter, List.filter_reverse, List.filter_map]
  congr 2
  apply List.filter_congr
  intro k hk
  have hitem : (k.item == j.item) = decide (k.jId = j.jId) := by
    rw [Bool.eq_iff_iff, beq_iff_eq, decide_eq_true_iff]
    constructor
    · intro h
      exact congrArg Prod.snd h
    · intro h
      rw [List.inj_on_of_nodup_map hn hk hj h]
  simp [bne, hitem]

/-! ### Changes of the state -/

theorem PFS.Indexed.out (hs : s.Indexed) (o : List PFSOut) : ({ s with out := o } : PFS).Indexed :=
  ⟨hs.order, hs.jfresh, hs.tfresh, hs.index⟩

theorem PFS.Indexed.waits (hs : s.Indexed) (ws : List LockWait) :
    ({ s with waits := ws } : PFS).Indexed :=
  ⟨hs.order, hs.jfresh, hs.tfresh, hs.index⟩

theorem PFS.Indexed.setLock (hs : s.Indexed) (ha : s.lock a = some l)
    (hhash : m.lHoldHash = l.lHoldHash) : (s.setLock a m).Indexed := by
  refine ⟨hs.order, hs.jfresh, hs.tfresh, ?_⟩
  intro b k hk
  change Function.update s.lock a (some m) b = some k at hk
  rw [Function.update_apply] at hk
  split_ifs at hk with hb
  · cases hk
    rw [hhash, hb]
    exact hs.index a l ha
  · exact hs.index b k hk

theorem lockAlloc_indexed (hs : s.Indexed) (name : String) :
    (s.lockAlloc name).2.Indexed ∧ (s.lockAlloc name).1 < (s.lockAlloc name).2.next := by
  unfold PFS.lockAlloc
  cases hc : s.cLock name with
  | some a => exact ⟨hs, hs.tfresh name a hc⟩
  | none =>
      have hnone : s.holds s.next = [] := by
        apply List.eq_nil_iff_forall_not_mem.mpr
        intro j hj
        obtain ⟨hj, -, ha⟩ := mem_holds.mp hj
        exact absurd ha (hs.jfresh j hj).2.ne
      refine ⟨⟨hs.order, ?_, ?_, ?_⟩, Nat.lt_succ_self _⟩
      · intro j hj
        exact ⟨Nat.lt_succ_of_lt (hs.jfresh j hj).1, Nat.lt_succ_of_lt (hs.jfresh j hj).2⟩
      · intro n b hb
        change Function.update s.cLock name (some s.next) n = some b at hb
        rw [Function.update_apply] at hb
        split_ifs at hb with hn
        · cases hb
          exact Nat.lt_succ_self _
        · exact Nat.lt_succ_of_lt (hs.tfresh n b hb)
      · intro b k hk
        change Function.update s.lock s.next (some { lName := name }) b = some k at hk
        rw [Function.update_apply] at hk
        split_ifs at hk with hb
        · cases hk
          change [] = ((s.holds b).map PFSJoint.item).reverse
          rw [hb, hnone]
          rfl
        · exact hs.index b k hk

/-- A joint is new. -/
theorem addJoint_indexed (hs : s.Indexed) (hlt : a < s.next) (hj : t.joints = j :: s.joints)
    (hid : j.jId = s.next) (harg : j.jPArg = a) (hnext : t.next = s.next + 1)
    (htable : t.cLock = s.cLock)
    (hindex : ∀ b k, t.lock b = some k → k.lHoldHash =
      (((j :: s.joints).filter fun j => j.hold ∧ j.jPArg = b).map PFSJoint.item).reverse) :
    t.Indexed := by
  constructor
  · rw [hj]
    apply List.pairwise_cons.mpr
    refine ⟨?_, hs.order⟩
    intro k hk
    rw [hid]
    exact (hs.jfresh k hk).1
  · rw [hj, hnext]
    intro k hk
    rcases List.mem_cons.mp hk with rfl | hk
    · rw [hid, harg]
      exact ⟨Nat.lt_succ_self _, Nat.lt_succ_of_lt hlt⟩
    · exact ⟨Nat.lt_succ_of_lt (hs.jfresh k hk).1, Nat.lt_succ_of_lt (hs.jfresh k hk).2⟩
  · rw [htable, hnext]
    intro n b hb
    exact Nat.lt_succ_of_lt (hs.tfresh n b hb)
  · unfold PFS.holds
    rw [hj]
    exact hindex

/-- An event's joint is new. -/
theorem addEvent_indexed (hs : s.Indexed) (hlt : a < s.next) (ty : PFSJointType) (who : SessionId)
    (hhold : PFSJoint.hold ⟨s.next, ty, who, a⟩ = false) :
    ({ s with joints := ⟨s.next, ty, who, a⟩ :: s.joints, next := s.next + 1 } : PFS).Indexed := by
  refine addJoint_indexed (j := ⟨s.next, ty, who, a⟩) hs hlt ?_ rfl rfl ?_ ?_ ?_
  · rfl
  · rfl
  · rfl
  intro b k hk
  rw [List.filter_cons_of_neg (by simp [hhold])]
  exact hs.index b k hk

/-- A hold is new. -/
theorem reply_indexed (hs : s.Indexed) (ha : s.lock a = some l) (hlt : a < s.next)
    (who : SessionId) (bRead : Bool) : (pfsLockReply who bRead a l s).Indexed := by
  obtain ⟨m, hm, -, -, hhash⟩ := reply_lock who bRead a l s
  obtain ⟨j, hj, hitem, harg, hhold⟩ : ∃ j : PFSJoint, (pfsLockReply who bRead a l s).joints =
      j :: s.joints ∧ j.item = (who, s.next) ∧ j.jPArg = a ∧ j.hold = true := by
    refine ⟨_, rfl, rfl, rfl, ?_⟩
    cases bRead <;> rfl
  apply addJoint_indexed hs hlt hj (congrArg Prod.snd hitem) harg rfl rfl
  intro b k hk
  rw [hm] at hk
  by_cases hb : b = a
  · rw [hb, Function.update_self] at hk
    cases hk
    rw [List.filter_cons_of_pos (by simp [hhold, harg, hb]), List.map_cons, List.reverse_cons,
      hhash, hs.index a l ha, hitem, hb]
    rfl
  · rw [Function.update_of_ne hb] at hk
    rw [List.filter_cons_of_neg (by simp [harg, Ne.symm hb])]
    exact hs.index b k hk

/-- An event's joint is gone. -/
theorem removeEvent_indexed (hs : s.Indexed)
    (hhold : ∀ j ∈ s.joints, j.jId = i → j.hold = false) :
    ({ s with joints := s.joints.filter fun k => k.jId ≠ i } : PFS).Indexed := by
  refine ⟨hs.order.sublist List.filter_sublist, ?_, hs.tfresh, ?_⟩
  · intro k hk
    exact hs.jfresh k (List.mem_filter.mp hk).1
  · intro b k hk
    rw [holds_filter, filter_ne_of_notMem]
    · exact hs.index b k hk
    · intro j hj hji
      obtain ⟨hj, hh, -⟩ := mem_holds.mp hj
      rw [hhold j hj hji] at hh
      cases hh

/-- A hold is gone, and its item. -/
theorem removeJoint_indexed (hs : s.Indexed) (hj : j ∈ s.joints) (ha : s.lock j.jPArg = some l)
    (hhold : j.hold = true) (hhash : m.lHoldHash = l.lHoldHash.erase j.item) (o : List PFSOut) :
    ({ s.setLock j.jPArg m with
      joints := s.joints.filter fun k => k.jId ≠ j.jId, out := o } : PFS).Indexed := by
  constructor
  · exact hs.order.sublist List.filter_sublist
  · intro k hk
    exact hs.jfresh k (List.mem_filter.mp hk).1
  · exact hs.tfresh
  · intro b k hk
    change Function.update s.lock j.jPArg (some m) b = some k at hk
    change k.lHoldHash = (((({ s with joints := s.joints.filter fun k => k.jId ≠ j.jId } :
      PFS).holds b).map PFSJoint.item).reverse)
    rw [holds_filter]
    rw [Function.update_apply] at hk
    split_ifs at hk with hb
    · cases hk
      have hord : (s.holds j.jPArg).Pairwise fun j k => k.jId < j.jId :=
        hs.order.sublist List.filter_sublist
      rw [hhash, hs.index _ l ha, hb]
      apply erase_item
      · rw [List.nodup_iff_pairwise_ne, List.pairwise_map]
        exact hord.imp fun h => h.ne'
      · exact mem_holds.mpr ⟨hj, hhold, rfl⟩
    · rw [filter_ne_of_notMem]
      · exact hs.index b k hk
      · intro i hi hij
        obtain ⟨hi, -, hib⟩ := mem_holds.mp hi
        rw [hs.eq_of_id hi hj hij] at hib
        exact hb hib.symm

theorem garbage_indexed {freed : Bool} (hs : s.Indexed) (h : pfsLockGarbage a s = .ok (freed, t)) :
    t.Indexed ∧ t.joints = s.joints ∧ t.waits = s.waits ∧ t.next = s.next := by
  unfold pfsLockGarbage at h
  obtain ⟨l, -, h⟩ := except_bind_ok h
  split_ifs at h with htie hcnt
  · cases h
    refine ⟨⟨hs.order, hs.jfresh, ?_, ?_⟩, rfl, rfl, rfl⟩
    · intro n b hb
      change Function.update s.cLock l.lName none n = some b at hb
      rw [Function.update_apply] at hb
      split_ifs at hb
      exact hs.tfresh n b hb
    · intro b k hk
      change Function.update s.lock a none b = some k at hk
      rw [Function.update_apply] at hk
      split_ifs at hk
      exact hs.index b k hk
  · cases h
    exact ⟨hs, rfl, rfl, rfl⟩

end Index

/-! ### Unlocking -/

/-- What an unlocking or a wake-up makes of an indexed state: the joints in
`gone` are off, and the new ones are of sessions in `P`. -/
structure Wakes (P : SessionId → Prop) (gone : List ℕ) (s t : PFS) : Prop where
  indexed : t.Indexed
  next : s.next ≤ t.next
  waits : ∀ w ∈ t.waits, w ∈ s.waits
  joints : ∀ j ∈ t.joints, j ∈ s.joints ∧ j.jId ∉ gone ∨ s.next ≤ j.jId ∧ P j.jAdaptor

section Wakes
variable {P : SessionId → Prop} {g : List ℕ} {s t u : PFS} {a i : ℕ} {l m : PFSLock}
  {j : PFSJoint} {p : Process} {bAbort : Bool}

theorem Wakes.refl (hs : s.Indexed) : Wakes P [] s s :=
  ⟨hs, le_rfl, fun _ h => h, fun _ h => .inl ⟨h, List.not_mem_nil⟩⟩

theorem Wakes.trans (h : Wakes P g s t) (h' : Wakes P [] t u) : Wakes P g s u := by
  constructor
  · exact h'.indexed
  · exact h.next.trans h'.next
  · intro w hw
    exact h.waits w (h'.waits w hw)
  · intro j hj
    rcases h'.joints j hj with ⟨hj, -⟩ | ⟨hle, hP⟩
    · exact h.joints j hj
    · exact .inr ⟨h.next.trans hle, hP⟩

theorem notify_wakes {who : SessionId} (hs : s.Indexed) (h : pfsLockNotify who a s = .ok t) :
    Wakes P [] s t := by
  unfold pfsLockNotify at h
  obtain ⟨l, hl, h⟩ := except_bind_ok h
  obtain ⟨out, -, h⟩ := except_bind_ok h
  cases h
  have hset : (s.setLock a { l with lEventSeq := seqInc l.lEventSeq }).Indexed :=
    hs.setLock (lock_of_lockAt hl) rfl
  exact ⟨hset.out _, le_rfl, fun _ h => h, fun _ h => .inl ⟨h, List.not_mem_nil⟩⟩

theorem wake_wakes (ws : List LockWait) (hs : s.Indexed) (hlt : a < s.next)
    (hws : ∀ w ∈ ws, P w.session) (h : pfsWake a ws s = .ok t) : Wakes P [] s t := by
  induction ws generalizing s with
  | nil =>
      cases h
      exact .refl hs
  | cons w ws ih =>
      unfold pfsWake at h
      obtain ⟨l, hl, h⟩ := except_bind_ok h
      have hl : s.lock a = some l := lock_of_lockAt hl
      have htail : ∀ v ∈ ws, P v.session := fun v hv => hws v (List.mem_cons_of_mem _ hv)
      have hreply : Wakes P [] s (pfsLockReply w.session w.aLockRead a l
          { s with waits := s.waits.filter fun v => v.session ≠ w.session }) := by
        constructor
        · have hw := hs.waits (s.waits.filter fun v => v.session ≠ w.session)
          exact reply_indexed hw hl hlt _ _
        · exact Nat.le_succ _
        · intro v hv
          exact (List.mem_filter.mp hv).1
        · intro j hj
          rcases List.mem_cons.mp hj with rfl | hj
          · exact .inr ⟨le_rfl, hws w List.mem_cons_self⟩
          · exact .inl ⟨hj, List.not_mem_nil⟩
      split_ifs at h with hskip hwrite
      · exact ih hs hlt htail h
      · cases h
        exact hreply
      · exact hreply.trans (ih hreply.indexed (hlt.trans_le hreply.next) htail h)

theorem unlocked_wakes (hs : s.Indexed) (hlt : a < s.next) (hP : ∀ w ∈ s.waits, P w.session)
    (h : pfsUnlocked a s = .ok t) : Wakes P [] s t := by
  unfold pfsUnlocked at h
  obtain ⟨l, -, h⟩ := except_bind_ok h
  split_ifs at h with hcnt
  · cases h
    exact .refl hs
  · obtain ⟨u, hu, h⟩ := except_bind_ok h
    have hwake : Wakes P [] s u := by
      apply wake_wakes _ hs hlt _ hu
      intro w hw
      exact hP w (mem_waiting.mp hw).1
    cases hw : u.waiting a with
    | nil =>
        rw [hw] at h
        cases h
        exact hwake
    | cons w ws =>
        rw [hw] at h
        exact hwake.trans (notify_wakes hwake.indexed h)

/-- `pfsUnlock` of a hold that is the first of its process keeps the indexes. -/
theorem unlock_wakes (hs : s.Indexed) (hP : ∀ w ∈ s.waits, P w.session)
    (hfirst : ∀ j ∈ s.joints, j.jId = i → s.First p j)
    (h : pfsUnlock p i bAbort s = .ok t) : Wakes P [i] s t := by
  unfold pfsUnlock at h
  obtain ⟨j, hjoint, h⟩ := except_bind_ok h
  obtain ⟨hj, rfl⟩ := mem_of_joint hjoint
  obtain ⟨l, hl, h⟩ := except_bind_ok h
  have hl : s.lock j.jPArg = some l := lock_of_lockAt hl
  have hf := hfirst j hj rfl
  by_cases hcnt : l.lCnt = 0
  · rw [if_pos hcnt] at h
    cases h
  · rw [if_neg hcnt] at h
    obtain ⟨e, he, h⟩ := except_bind_ok h
    have he : e = some j.item := get_of_first hs hj hl hf he
    obtain ⟨⟨freed, u⟩, hg, h⟩ := except_bind_ok h
    have hrem : ∀ o, ({ s.setLock j.jPArg { l with
        lCnt := if 0 < l.lCnt then l.lCnt - 1 else l.lCnt + 1
        lHoldHash := e.elim l.lHoldHash l.lHoldHash.erase } with
        joints := s.joints.filter fun k => k.jId ≠ j.jId, out := o } : PFS).Indexed := by
      intro o
      apply removeJoint_indexed hs hj hl hf.1
      rw [he]
      rfl
    have hu : Wakes P [j.jId] s u := by
      have hu : u.Indexed ∧ u.joints = s.joints.filter (fun k => k.jId ≠ j.jId) ∧
          u.waits = s.waits ∧ u.next = s.next := by
        by_cases hdel : bAbort = true ∧ l.lCnt < 0
        · rw [if_pos hdel] at hg
          exact garbage_indexed (hrem _) hg
        · rw [if_neg hdel] at hg
          exact garbage_indexed (hrem _) hg
      obtain ⟨hui, hujoints, huwaits, hunext⟩ := hu
      constructor
      · exact hui
      · exact hunext.ge
      · rw [huwaits]
        exact fun _ h => h
      · rw [hujoints]
        intro k hk
        obtain ⟨hk, hne⟩ := List.mem_filter.mp hk
        exact .inl ⟨hk, by simpa using hne⟩
    cases freed with
    | true =>
        cases h
        exact hu
    | false =>
        apply hu.trans
        apply unlocked_wakes hu.indexed _ _ h
        · exact (hs.jfresh j hj).2.trans_le hu.next
        · intro w hw
          exact hP w (hu.waits w hw)

theorem eventFree_wakes (hs : s.Indexed) (hhold : ∀ j ∈ s.joints, j.jId = i → j.hold = false)
    (h : pfsEventFree i s = .ok t) : Wakes P [i] s t := by
  unfold pfsEventFree at h
  obtain ⟨j, -, h⟩ := except_bind_ok h
  obtain ⟨⟨freed, u⟩, hg, h⟩ := except_bind_ok h
  cases h
  obtain ⟨hu, hujoints, huwaits, hunext⟩ := garbage_indexed (removeEvent_indexed hs hhold) hg
  constructor
  · exact hu
  · exact hunext.ge
  · rw [huwaits]
    exact fun _ h => h
  · rw [hujoints]
    intro k hk
    obtain ⟨hk, hne⟩ := List.mem_filter.mp hk
    exact .inl ⟨hk, by simpa using hne⟩

/-- The closing session `who` has `is` still to unlock, and took each of them
before any other session of its process did. -/
structure Closing (who : SessionId) (is : List ℕ) (s : PFS) : Prop where
  indexed : s.Indexed
  waits : ∀ w ∈ s.waits, w.session ≠ who
  order : is.Pairwise (· < ·)
  fresh : ∀ i ∈ is, i < s.next
  own : ∀ j ∈ s.joints, j.jId ∈ is → j.hold = true ∧ j.jAdaptor = who
  all : ∀ j ∈ s.joints, j.hold = true → j.jAdaptor = who → j.jId ∈ is
  first : ∀ j ∈ s.joints, j.hold = true → j.jAdaptor = who → ∀ k ∈ s.holds j.jPArg,
    k.jAdaptor.process = who.process → k.jAdaptor ≠ who → j.jId < k.jId

/-- The oldest of the closing session's holds is the first of its process. -/
theorem Closing.head {who : SessionId} {is : List ℕ} (h : Closing who (i :: is) s) :
    ∀ j ∈ s.joints, j.jId = i → s.First who.process j := by
  rintro j hj rfl
  obtain ⟨hhold, hwho⟩ := h.own j hj List.mem_cons_self
  refine ⟨hhold, by rw [hwho], ?_⟩
  intro k hk hkp
  obtain ⟨hks, hkh, -⟩ := mem_holds.mp hk
  by_cases hkw : k.jAdaptor = who
  · rcases List.mem_cons.mp (h.all k hks hkh hkw) with hki | hki
    · exact hki.ge
    · exact ((List.pairwise_cons.mp h.order).1 _ hki).le
  · exact (h.first j hj hhold hwho k hk hkp hkw).le

theorem Closing.unlocked {who : SessionId} {is : List ℕ} (h : Closing who (i :: is) s)
    (hw : Wakes (· ≠ who) [i] s t) : Closing who is t := by
  have hold : ∀ j ∈ t.joints, j.jAdaptor = who → j ∈ s.joints ∧ j.jId ≠ i := by
    intro j hj hjw
    rcases hw.joints j hj with ⟨hj, hne⟩ | ⟨-, hne⟩
    · exact ⟨hj, by simpa using hne⟩
    · exact absurd hjw hne
  constructor
  · exact hw.indexed
  · intro w hwt
    exact h.waits w (hw.waits w hwt)
  · exact (List.pairwise_cons.mp h.order).2
  · intro k hk
    exact (h.fresh k (List.mem_cons_of_mem _ hk)).trans_le hw.next
  · intro j hj hji
    rcases hw.joints j hj with ⟨hj, -⟩ | ⟨hle, -⟩
    · exact h.own j hj (List.mem_cons_of_mem _ hji)
    · have hlt := h.fresh j.jId (List.mem_cons_of_mem _ hji)
      omega
  · intro j hj hhold hjw
    obtain ⟨hjs, hne⟩ := hold j hj hjw
    rcases List.mem_cons.mp (h.all j hjs hhold hjw) with hji | hji
    · exact absurd hji hne
    · exact hji
  · intro j hj hhold hjw k hk hkp hkw
    obtain ⟨hjs, -⟩ := hold j hj hjw
    obtain ⟨hkt, hkh, hka⟩ := mem_holds.mp hk
    rcases hw.joints k hkt with ⟨hks, -⟩ | ⟨hle, -⟩
    · exact h.first j hjs hhold hjw k (mem_holds.mpr ⟨hks, hkh, hka⟩) hkp hkw
    · exact (h.indexed.jfresh j hjs).1.trans_le hle

theorem unlockAll_closing {who : SessionId} (is : List ℕ) (hs : Closing who is s)
    (h : pfsUnlockAll who.process bAbort is s = .ok t) : Closing who [] t := by
  induction is generalizing s with
  | nil =>
      cases h
      exact hs
  | cons i is ih =>
      unfold pfsUnlockAll at h
      obtain ⟨u, hu, h⟩ := except_bind_ok h
      exact ih (hs.unlocked (unlock_wakes hs.indexed hs.waits hs.head hu)) h

theorem eventFreeAll_indexed (is : List ℕ) (hs : s.Indexed) (hlt : ∀ i ∈ is, i < s.next)
    (hhold : ∀ j ∈ s.joints, j.jId ∈ is → j.hold = false)
    (h : pfsEventFreeAll is s = .ok t) : t.Indexed := by
  induction is generalizing s with
  | nil =>
      cases h
      exact hs
  | cons i is ih =>
      unfold pfsEventFreeAll at h
      obtain ⟨u, hu, h⟩ := except_bind_ok h
      have hi : ∀ j ∈ s.joints, j.jId = i → j.hold = false := by
        intro j hj hji
        exact hhold j hj (hji ▸ List.mem_cons_self)
      have hw : Wakes (fun _ => True) [i] s u := eventFree_wakes hs hi hu
      apply ih hw.indexed _ _ h
      · intro k hk
        exact (hlt k (List.mem_cons_of_mem _ hk)).trans_le hw.next
      · intro j hj hji
        rcases hw.joints j hj with ⟨hj, -⟩ | ⟨hle, -⟩
        · exact hhold j hj (List.mem_cons_of_mem _ hji)
        · have := hlt j.jId (List.mem_cons_of_mem _ hji)
          omega

end Wakes

/-! ### Requests -/

/-- What is unlocked was taken before any other hold of the lock by the process. -/
def Indexable (s : PFS) : PFSOp → Prop
  | .unlock who name =>
      ∀ a, s.cLock name = some a → ∀ j ∈ s.holds a, j.jAdaptor = who →
        ∀ k ∈ s.holds a, k.jAdaptor.process = who.process → j.jId ≤ k.jId
  | .close who _ =>
      ∀ j ∈ s.joints, j.hold = true → j.jAdaptor = who → ∀ k ∈ s.holds j.jPArg,
        k.jAdaptor.process = who.process → k.jAdaptor ≠ who → j.jId < k.jId
  | _ => True

section Requests
variable {s t : PFS} {a : ℕ} {l : PFSLock} {who elId lId : SessionId} {name : String}
  {bRead bTry bAbort : Bool}

/-- The joint that is found under a process is unlocked. -/
theorem unlock_found_indexed {p : Process} {e : SessionId × ℕ} (hs : s.Indexed)
    (ha : s.lock a = some l) (he : holdHashGet s.adaptors p l.lHoldHash = .ok (some e))
    (h : pfsUnlock p e.2 bAbort s = .ok t) : t.Indexed ∧ s.next ≤ t.next := by
  obtain ⟨j, hj, rfl, hfirst⟩ := first_of_get hs ha he
  have hw : Wakes (fun _ => True) [j.jId] s t := by
    apply unlock_wakes hs (fun _ _ => trivial) _ h
    intro k hk hkj
    rwa [hs.eq_of_id hk (mem_holds.mp hj).1 hkj]
  exact ⟨hw.indexed, hw.next⟩

theorem lockWait_indexed {bEmptyWait : Bool} (hs : s.Indexed)
    (h : pfsLockWait who bRead bEmptyWait a s = .ok t) : t.Indexed := by
  unfold pfsLockWait at h
  split_ifs at h with hwaits hempty
  · cases h
    exact hs
  · have hn : Wakes (fun _ => True) [] _ t := notify_wakes (hs.waits _) h
    exact hn.indexed
  · cases h
    exact hs.waits _

theorem lockS_indexed (hs : s.Indexed) (h : pfsLockS who name bRead s = .ok t) : t.Indexed := by
  by_cases hwho : who ∈ s.adaptors
  · obtain ⟨hu, hlt⟩ := lockAlloc_indexed hs name
    unfold pfsLockS at h
    rw [if_neg (not_not.mpr hwho)] at h
    rcases hau : s.lockAlloc name with ⟨a, u⟩
    rw [hau] at hu hlt h
    obtain ⟨l, hl, h⟩ := except_bind_ok h
    have hl : u.lock a = some l := lock_of_lockAt hl
    by_cases hreply : u.holds a = [] ∨ ((u.waiting a).isEmpty ∧ bRead ∧ 0 < l.lCnt)
    · rw [if_pos hreply] at h
      cases h
      exact reply_indexed hu hl hlt _ _
    · rw [if_neg hreply] at h
      obtain ⟨e, he, h⟩ := except_bind_ok h
      cases e with
      | none => exact lockWait_indexed hu h
      | some e =>
          obtain ⟨v, hv, h⟩ := except_bind_ok h
          obtain ⟨m, hm, h⟩ := except_bind_ok h
          obtain ⟨hvi, hle⟩ := unlock_found_indexed hu hl he hv
          split_ifs at h with hg
          · cases h
            exact reply_indexed hvi (lock_of_lockAt hm) (hlt.trans_le hle) _ _
          · exact lockWait_indexed hvi h
  · unfold pfsLockS at h
    rw [if_pos hwho] at h
    cases h

theorem unlockS_indexed (hs : s.Indexed) (hop : Indexable s (.unlock who name))
    (h : pfsUnlockS who name s = .ok t) : t.Indexed := by
  by_cases hwho : who ∈ s.adaptors
  · unfold pfsUnlockS at h
    rw [if_neg (not_not.mpr hwho)] at h
    cases hf : (s.cLock name).bind fun a => (s.holds a).find? fun j => j.jAdaptor = who with
    | none =>
        rw [hf] at h
        cases h
        exact hs.out _
    | some j =>
        rw [hf] at h
        obtain ⟨u, hu, h⟩ := except_bind_ok h
        cases h
        obtain ⟨a, ha, hfind⟩ := Option.bind_eq_some_iff.mp hf
        have hjh := List.mem_of_find?_eq_some hfind
        have hjw : j.jAdaptor = who := by simpa using List.find?_some hfind
        obtain ⟨hj, hhold, rfl⟩ := mem_holds.mp hjh
        have hw : Wakes (fun _ => True) [j.jId] s u := by
          apply unlock_wakes hs (fun _ _ => trivial) _ hu
          intro k hk hkj
          rw [hs.eq_of_id hk hj hkj]
          exact ⟨hhold, by rw [hjw], hop _ ha j hjh hjw⟩
        exact hw.indexed.out _
  · unfold pfsUnlockS at h
    rw [if_pos hwho] at h
    cases h

theorem unlockSuperS_indexed (hs : s.Indexed) (h : pfsUnlockSuperS who name lId s = .ok t) :
    t.Indexed := by
  unfold pfsUnlockSuperS at h
  cases hc : s.cLock name with
  | none =>
      rw [hc] at h
      cases h
      exact hs.out _
  | some a =>
      rw [hc] at h
      obtain ⟨l, hl, h⟩ := except_bind_ok h
      obtain ⟨e, he, h⟩ := except_bind_ok h
      cases e with
      | none =>
          cases h
          exact hs.out _
      | some e =>
          obtain ⟨u, hu, h⟩ := except_bind_ok h
          cases h
          exact (unlock_found_indexed hs (lock_of_lockAt hl) he hu).1.out _

theorem eventLockS_indexed {elSet elBRecall bBound : Bool} (hs : s.Indexed)
    (h : pfsEventLockS who elId name elSet elBRecall bBound s = .ok t) : t.Indexed := by
  unfold pfsEventLockS at h
  by_cases hid : elId ∈ s.adaptors
  · rw [if_neg (not_not.mpr hid)] at h
    cases elSet with
    | true =>
        obtain ⟨hu, hlt⟩ := lockAlloc_indexed hs name
        cases h
        have hadd := addEvent_indexed hu hlt (if elBRecall then .eventLockRecall else .eventLock)
          elId (by cases elBRecall <;> rfl)
        exact hadd.out _
    | false =>
        cases hc : s.cLock name with
        | none =>
            rw [hc] at h
            cases h
        | some a =>
            rw [hc] at h
            simp only [Bool.false_eq_true, if_false] at h
            cases hf : (s.events a).find? fun j => j.jAdaptor = elId with
            | none =>
                rw [hf] at h
                cases h
                exact hs.out _
            | some j =>
                rw [hf] at h
                obtain ⟨u, hu, h⟩ := except_bind_ok h
                cases h
                obtain ⟨hj, hhold, -⟩ := mem_events.mp (List.mem_of_find?_eq_some hf)
                have hw : Wakes (fun _ => True) [j.jId] s u := by
                  apply eventFree_wakes hs _ hu
                  intro k hk hkj
                  rwa [hs.eq_of_id hk hj hkj]
                exact hw.indexed.out _
  · rw [if_pos hid] at h
    split_ifs at h
    cases h
    exact hs.out _

theorem adaptorClose_indexed (hs : s.Indexed) (hop : Indexable s (.close who bAbort))
    (h : pfsAdaptorClose who bAbort s = .ok t) : t.Indexed := by
  by_cases hwho : who ∈ s.adaptors
  · unfold pfsAdaptorClose at h
    rw [if_neg (not_not.mpr hwho)] at h
    obtain ⟨u, hu, h⟩ := except_bind_ok h
    obtain ⟨v, hv, h⟩ := except_bind_ok h
    cases h
    have hmem : ∀ j, j ∈ s.joints.filter (fun j => j.hold ∧ j.jAdaptor = who) ↔
        j ∈ s.joints ∧ j.hold = true ∧ j.jAdaptor = who := by
      intro j
      rw [List.mem_filter]
      simp
    have hclosing : Closing who
        ((s.joints.filter fun j => j.hold ∧ j.jAdaptor = who).reverse.map (·.jId))
        { s with waits := s.waits.filter fun w => w.session ≠ who } := by
      constructor
      · exact hs.waits _
      · intro w hw
        simpa using (List.mem_filter.mp hw).2
      · rw [List.map_reverse, List.pairwise_reverse, List.pairwise_map]
        exact hs.order.sublist List.filter_sublist
      · intro i hi
        obtain ⟨j, hj, rfl⟩ := List.mem_map.mp hi
        exact (hs.jfresh j ((hmem j).mp (List.mem_reverse.mp hj)).1).1
      · intro j hj hji
        obtain ⟨k, hk, hkj⟩ := List.mem_map.mp hji
        obtain ⟨hks, hkh, hkw⟩ := (hmem k).mp (List.mem_reverse.mp hk)
        rw [hs.eq_of_id hj hks hkj.symm]
        exact ⟨hkh, hkw⟩
      · intro j hj hhold hjw
        exact List.mem_map_of_mem (List.mem_reverse.mpr ((hmem j).mpr ⟨hj, hhold, hjw⟩))
      · exact hop
    have hu := unlockAll_closing _ hclosing hu
    have hv : v.Indexed := by
      apply eventFreeAll_indexed _ hu.indexed _ _ hv
      · intro i hi
        obtain ⟨j, hj, rfl⟩ := List.mem_map.mp hi
        exact (hu.indexed.jfresh j (List.mem_filter.mp hj).1).1
      · intro j hj hji
        obtain ⟨k, hk, hkj⟩ := List.mem_map.mp hji
        obtain ⟨hku, hk⟩ := List.mem_filter.mp hk
        rw [hu.indexed.eq_of_id hj hku hkj.symm]
        have hk : k.hold = false ∧ k.jAdaptor = who := by simpa using hk
        exact hk.1
    exact ⟨hv.order, hv.jfresh, hv.tfresh, hv.index⟩
  · unfold pfsAdaptorClose at h
    rw [if_pos hwho] at h
    cases h
    exact hs

/-- A request keeps the indexes if what it unlocks was taken first. -/
theorem step_indexed {op : PFSOp} (hs : s.Indexed) (hop : Indexable s op)
    (h : pfsStep s op = .ok t) : t.Indexed := by
  cases op with
  | «open» who =>
      cases h
      unfold pfsAdaptorOpen
      split_ifs
      · exact hs
      · exact ⟨hs.order, hs.jfresh, hs.tfresh, hs.index⟩
  | lock who name bRead bTry =>
      unfold pfsStep pfsTryLockS at h
      cases bTry with
      | false => exact lockS_indexed hs h
      | true =>
          cases hc : s.cLock name with
          | none =>
              simp only [hc] at h
              exact lockS_indexed hs h
          | some a =>
              simp only [hc] at h
              obtain ⟨l, -, h⟩ := except_bind_ok h
              split_ifs at h
              · exact lockS_indexed hs h
              · cases h
                exact hs.out _
  | unlock who name => exact unlockS_indexed hs hop h
  | unlockSuper who name lId => exact unlockSuperS_indexed hs h
  | eventLock who elId name elSet elBRecall bBound => exact eventLockS_indexed hs h
  | close who bAbort => exact adaptorClose_indexed hs hop h

end Requests

/-- `l_HoldHash` has the joints of `l_AdaptorHold`, each once under its holder. -/
def PFS.IndexAgrees (s : PFS) : Prop :=
  ∀ a l, s.lock a = some l →
    l.lHoldHash.Perm ((s.holds a).map PFSJoint.item) ∧ l.lHoldHash.Nodup

theorem PFS.Indexed.agrees {s : PFS} (hs : s.Indexed) : s.IndexAgrees := by
  intro a l ha
  have hord : (s.holds a).Pairwise fun j k => k.jId < j.jId :=
    hs.order.sublist List.filter_sublist
  rw [hs.index a l ha]
  refine ⟨List.reverse_perm _, List.nodup_reverse.mpr ?_⟩
  apply List.Nodup.of_map Prod.snd
  rw [List.map_map, List.nodup_iff_pairwise_ne, List.pairwise_map]
  exact hord.imp fun h => h.ne'

/-- Requests that unlock the first hold of a process keep every index. -/
theorem holdIndex_agrees (ops : List PFSOp) (hops : Along pfsStep Indexable {} ops) :
    ∀ t, run pfsStep {} ops = .ok t → t.IndexAgrees := by
  intro t ht
  have hstart : ({} : PFS).Indexed := by
    constructor
    · exact List.Pairwise.nil
    · simp
    · intro n a h
      cases h
    · intro a l h
      cases h
  exact (run_invariant (fun _ _ _ => step_indexed) hstart hops ht).agrees

/-- Two sessions of one process share a lock. -/
def sharing : List PFSOp :=
  [.open (sessionOf 1 1), .open (sessionOf 1 2), .lock (sessionOf 1 1) "a" true false,
    .lock (sessionOf 1 2) "a" true false]

theorem holdIndex_agrees_sharing :
    Along pfsStep Indexable {} (sharing ++ [.unlock (sessionOf 1 1) "a"]) ∧
      ∀ t, run pfsStep {} (sharing ++ [.unlock (sessionOf 1 1) "a"]) = .ok t → t.IndexAgrees := by
  have hops : Along pfsStep Indexable {} (sharing ++ [.unlock (sessionOf 1 1) "a"]) := by
    refine ⟨trivial, fun s hs => ?_⟩
    cases hs
    refine ⟨trivial, fun s hs => ?_⟩
    cases hs
    refine ⟨trivial, fun s hs => ?_⟩
    cases hs
    refine ⟨trivial, fun s hs => ?_⟩
    cases hs
    refine ⟨?_, fun _ _ => trivial⟩
    intro a ha
    cases ha
    decide
  exact ⟨hops, holdIndex_agrees _ hops⟩

/-- When the second session unlocks, the item of the first is removed. -/
theorem holdIndex_not_agrees :
    ¬ ∀ ops t, run pfsStep {} ops = .ok t → t.IndexAgrees := by
  intro h
  have hperm := (h (sharing ++ [.unlock (sessionOf 1 2) "a"]) _ rfl 0 _ rfl).1
  have hmem := hperm.mem_iff (a := (sessionOf 1 2, 2))
  revert hmem
  decide

end PaxosSolutions
