import PaxosSolutions.NWGadget.GElmShare

/-!
# Flushing elements that threads share

`GElmFlush` goes over `ge_Lnk` with the element it is at and the one after it,
and waits as long as its element is in use. Both are looked at again when it
returns from `CndWait`, whatever has become of them. The list and the hash are
in step, and no element in use goes, as long as both are still there, and as
long as who waits in `GElmGet` finds the list not empty and its key not set.
-/
namespace PaxosSolutions.NWGadget
open Lib

/-- A thread in the `CndWait` of `GElmFlush`: its element, and the one after it or the head. -/
structure GElmFlusher where
  thread : ℕ
  cur : ℕ
  after : Option ℕ
deriving DecidableEq

structure GElmFlushed (κ : Type) where
  ctl : GElmShared κ
  flushers : List GElmFlusher := []

/-- Every call of the cache. `find` is `GElmGet` without `bAlloc`. `loop` tells which
elements `ge_fLoop` lets pass, `unset` which ones the callback of the user gives up. -/
inductive GElmCall (κ : Type) where
  | shared (op : GElmOp κ)
  | find (t : ℕ) (k : κ)
  | flush (t : ℕ) (loop unset : ℕ → Bool)
  | resume (t : ℕ) (loop unset : ℕ → Bool)

namespace GElmFlushed
variable {κ : Type}

/-- `q_next` of the element at `a` -/
def nextOf (a : ℕ) : List (GElm κ ℕ) → Option ℕ
  | [] => none
  | e :: es => if e.val = a then es.head?.map (·.val) else nextOf a es

variable [DecidableEq κ]

/-- `GElmGet` without `bAlloc` -/
def find (t : ℕ) (k : κ) (c : GElmShared κ) : Except GElmTrap (GElmShared κ) :=
  match c.geHash.getItem k with
  | some i => c.hold t k i.2
  | none => .ok c

/-- `GElmFlush` from the element at `a` on, to its end or to its wait. Each round takes an
element off the list, so there are as many as elements. -/
def flushFrom (t : ℕ) (loop unset : ℕ → Bool) : ℕ → ℕ → Option ℕ → GElmShared κ →
    Except GElmTrap (GElmShared κ × Option GElmFlusher)
  | 0, _, _, _ => .error .freed
  | n + 1, a, after, c =>
      match c.geLnk.find? fun e => e.val = a with
      | none => .error .freed
      | some e =>
          if e.eCnt ≠ 0 then .ok (c, some ⟨t, a, after⟩)
          else if loop a = false then .ok (c, none)
          else
            match c.unset e (unset a) with
            | none => .ok (c, none)
            | some c =>
                let c := { c with geCnt := c.geCnt - 1 }
                match after with
                | none => .ok (c, none)
                | some b => flushFrom t loop unset n b (nextOf b c.geLnk) c

/-- `GElmFlush` of `ge_Lnk` -/
def flush (t : ℕ) (loop unset : ℕ → Bool) (c : GElmShared κ) :
    Except GElmTrap (GElmShared κ × Option GElmFlusher) :=
  match c.geLnk with
  | [] => .ok (c, none)
  | e :: _ => flushFrom t loop unset c.geLnk.length e.val (nextOf e.val c.geLnk) c

/-- `CndWait` returns in `GElmFlush`. -/
def resume (t : ℕ) (loop unset : ℕ → Bool) (s : GElmFlushed κ) :
    Except GElmTrap (GElmFlushed κ) :=
  match s.flushers.find? fun f => f.thread = t with
  | none => .error .notWaiting
  | some f =>
      (flushFrom t loop unset s.ctl.geLnk.length f.cur f.after s.ctl).map fun r =>
        { ctl := r.1
          flushers := s.flushers.erase f ++ r.2.toList }

def step (s : GElmFlushed κ) : GElmCall κ → Except GElmTrap (GElmFlushed κ)
  | .shared op => (s.ctl.step op).map fun c => { s with ctl := c }
  | .find t k => (find t k s.ctl).map fun c => { s with ctl := c }
  | .flush t loop unset => (flush t loop unset s.ctl).map fun r =>
      { ctl := r.1
        flushers := s.flushers ++ r.2.toList }
  | .resume t loop unset => s.resume t loop unset

def init (hashSize : ℕ) (fHashCode : κ → ℕ) (maxCnt : ℕ) : GElmFlushed κ :=
  { ctl := GElmShared.init hashSize fHashCode maxCnt }

/-- The capacity of a cache, and what its users can rely on -/
structure Right (s : GElmFlushed κ) : Prop where
  cnt : s.ctl.geCnt = s.ctl.geLnk.length
  room : s.ctl.geCnt ≤ s.ctl.geMaxCnt
  same : ∀ k, s.ctl.geHash.valuesAt k = (s.ctl.geLnk.filter (·.eKey = k)).map (·.val)
  users : ∀ e ∈ s.ctl.geLnk, e.eCnt = s.ctl.holds.countP fun h => h.addr = e.val
  held : ∀ h ∈ s.ctl.holds, ∃ e ∈ s.ctl.geLnk, e.val = h.addr ∧ e.eKey = h.key ∧ 0 < e.eCnt

/-- Who returns from `CndWait` in `GElmGet` meets an element, and a key that is not set if it
takes that over; who returns in `GElmFlush` meets both of its elements. -/
def Resumable (s : GElmFlushed κ) : GElmCall κ → Prop
  | .shared op => s.ctl.Resumable op
  | .resume t _ _ => ∀ f, s.flushers.find? (fun f => f.thread = t) = some f →
      f.cur ∈ s.ctl.geLnk.map (·.val) ∧ ∀ b, f.after = some b → b ∈ s.ctl.geLnk.map (·.val)
  | _ => True

section
variable {t n a maxCnt : ℕ} {k : κ} {c c' : GElmShared κ} {s s' : GElmFlushed κ}
variable {bUnset bSet bFree : Bool} {loop unset : ℕ → Bool}

omit [DecidableEq κ] in
/-- The next element is another one of the list. -/
theorem nextOf_mem {l : List (GElm κ ℕ)} {b : ℕ} (hl : (l.map (·.val)).Nodup)
    (h : nextOf a l = some b) : b ∈ l.map (·.val) ∧ b ≠ a := by
  induction l with
  | nil => cases h
  | cons e es ih =>
      rw [List.map_cons, List.nodup_cons] at hl
      rw [nextOf] at h
      split_ifs at h with he
      · obtain ⟨d, hd, rfl⟩ := Option.map_eq_some_iff.mp h
        have hmem : d.val ∈ es.map (·.val) := List.mem_map_of_mem (List.mem_of_mem_head? hd)
        refine ⟨List.mem_cons_of_mem _ hmem, ?_⟩
        rintro rfl
        exact hl.1 (he ▸ hmem)
      · exact (ih hl.2 h).imp_left (List.mem_cons_of_mem _)

/-- An element that is off the list is freed. -/
theorem freed_kept (hc : GElmShared.Kept 1 c) :
    GElmShared.Kept 0 { c with geCnt := c.geCnt - 1 } := by
  refine ⟨hc.keys, hc.addrs, hc.fresh, hc.found, hc.missing, ?_, hc.used, hc.held⟩
  change c.geCnt - 1 = c.geLnk.length + 0
  rw [hc.cnt]
  rfl

/-- No more elements are allocated than before. -/
def NoMore (c c' : GElmShared κ) : Prop := c'.geMaxCnt = c.geMaxCnt ∧ c'.geCnt ≤ c.geCnt

omit [DecidableEq κ] in
theorem hold_noMore (h : c.hold t k a = .ok c') : NoMore c c' := by
  unfold GElmShared.hold at h
  split at h
  · cases h
  · cases h
    exact ⟨rfl, le_rfl⟩

omit [DecidableEq κ] in
theorem set_noMore (h : c.set t k a bSet = .ok c') : NoMore c c' := by
  unfold GElmShared.set at h
  split_ifs at h
  · have hheld := hold_noMore h
    exact hheld
  · cases h
    exact ⟨rfl, Nat.sub_le _ _⟩

theorem unset_eq {e : GElm κ ℕ} (h : c.unset e bUnset = some c') : NoMore c c' ∧
    c'.holds = c.holds := by
  unfold GElmShared.unset at h
  split_ifs at h
  cases h
  exact ⟨⟨rfl, le_rfl⟩, rfl⟩

omit [DecidableEq κ] in
theorem NoMore.trans {c'' : GElmShared κ} (h : NoMore c c') (h' : NoMore c' c'') : NoMore c c'' :=
  ⟨h'.1.trans h.1, h'.2.trans h.2⟩

theorem takeFirst_noMore (h : c.takeFirst t k bUnset bSet = .ok c') : NoMore c c' := by
  unfold GElmShared.takeFirst at h
  split at h
  · cases h
  · split_ifs at h
    · cases h
      exact ⟨rfl, le_rfl⟩
    · split at h
      · cases h
        exact ⟨rfl, le_rfl⟩
      · next hu => exact (unset_eq hu).1.trans (set_noMore h)

theorem put_noMore (h : c.put t a bFree bUnset = .ok c') : NoMore c c' := by
  unfold GElmShared.put at h
  split at h
  · cases h
  · split at h
    · cases h
    · split_ifs at h
      · split at h
        · cases h
          exact ⟨rfl, le_rfl⟩
        · next hu =>
            cases h
            obtain ⟨hmax, hcnt⟩ := (unset_eq hu).1
            exact ⟨hmax, (Nat.sub_le _ _).trans hcnt⟩
      · cases h
        exact ⟨rfl, le_rfl⟩

/-- An element is allocated only if there is room. -/
theorem step_room {op : GElmOp κ} (h : c.step op = .ok c') (hmax : c.geMaxCnt ≠ 0)
    (hroom : c.geCnt ≤ c.geMaxCnt) : c'.geMaxCnt = c.geMaxCnt ∧ c'.geCnt ≤ c'.geMaxCnt := by
  have hle : ∀ {d : GElmShared κ}, NoMore c d → d.geMaxCnt = c.geMaxCnt ∧ d.geCnt ≤ d.geMaxCnt :=
    fun hd => ⟨hd.1, hd.1 ▸ hd.2.trans hroom⟩
  cases op with
  | get t k bUnset bSet =>
      change c.get t k bUnset bSet = .ok c' at h
      unfold GElmShared.get at h
      split at h
      · exact hle (hold_noMore h)
      · split_ifs at h with hfree
        · have hnew := set_noMore h
          have hlt : c.geCnt < c.geMaxCnt := hfree.resolve_left hmax
          exact ⟨hnew.1, hnew.1 ▸ hnew.2.trans hlt⟩
        · exact hle (takeFirst_noMore h)
  | wake t bUnset bSet =>
      change c.wake t bUnset bSet = .ok c' at h
      unfold GElmShared.wake at h
      split at h
      · cases h
      · have htaken := takeFirst_noMore h
        exact hle htaken
  | put t a bFree bUnset => exact hle (put_noMore h)

/-- A flush takes off elements that nobody has, and waits with two that are there. -/
theorem flushFrom_kept {after : Option ℕ} (hc : GElmShared.Kept 0 c) (hn : c.geLnk.length = n)
    (ha : a ∈ c.geLnk.map (·.val))
    (hafter : ∀ b, after = some b → b ∈ c.geLnk.map (·.val) ∧ b ≠ a) :
    ∃ r, flushFrom t loop unset n a after c = .ok r ∧ GElmShared.Kept 0 r.1 ∧ NoMore c r.1 ∧
      ∀ f, r.2 = some f → f.after ≠ some f.cur := by
  induction n generalizing c a after with
  | zero =>
      rw [List.length_eq_zero_iff.mp hn] at ha
      cases ha
  | succ n ih =>
      obtain ⟨e, he, rfl⟩ := List.mem_map.mp ha
      rw [flushFrom, hc.find he]
      dsimp only
      by_cases hcnt : e.eCnt ≠ 0
      · rw [if_pos hcnt]
        refine ⟨_, rfl, hc, ⟨rfl, le_rfl⟩, fun f hf => ?_⟩
        cases hf
        exact fun h => (hafter _ h).2 rfl
      · rw [if_neg hcnt]
        have hcnt : e.eCnt = 0 := not_not.mp hcnt
        have hstay : ∃ r : GElmShared κ × Option GElmFlusher,
            Except.ok (ε := GElmTrap) (c, none) = .ok r ∧ GElmShared.Kept 0 r.1 ∧ NoMore c r.1 ∧
              ∀ f, r.2 = some f → f.after ≠ some f.cur :=
          ⟨_, rfl, hc, ⟨rfl, le_rfl⟩, fun f hf => by cases hf⟩
        split_ifs
        · exact hstay
        · cases hu : c.unset e (unset e.val) with
          | none => exact hstay
          | some u =>
              obtain ⟨hku, hlnk, -⟩ := GElmShared.unset_kept hc he hcnt hu
              have hfreed := freed_kept hku
              have hmore := (unset_eq hu).1
              have hmore' : NoMore c { u with geCnt := u.geCnt - 1 } :=
                ⟨hmore.1, (Nat.sub_le _ _).trans hmore.2⟩
              cases after with
              | none => exact ⟨_, rfl, hfreed, hmore', fun f hf => by cases hf⟩
              | some b =>
                  obtain ⟨hb, hne⟩ := hafter b rfl
                  obtain ⟨d, hd, rfl⟩ := List.mem_map.mp hb
                  have hd' : d ∈ u.geLnk := by
                    rw [hlnk]
                    exact List.mem_filter.mpr ⟨hd, by simpa using hne⟩
                  have hlen : u.geLnk.length = n := by
                    have hperm := (hc.perm he).length_eq
                    rw [List.length_append, ← hlnk, hn] at hperm
                    exact (Nat.succ.inj hperm).symm
                  obtain ⟨r, hr, hkept, hless, hwait⟩ := ih hfreed hlen (List.mem_map_of_mem hd')
                    fun b hb => nextOf_mem hku.addrs hb
                  exact ⟨r, hr, hkept, hmore'.trans hless, hwait⟩

/-- What holds after every call -/
structure FlushKept (maxCnt : ℕ) (s : GElmFlushed κ) : Prop where
  kept : GElmShared.Kept 0 s.ctl
  max : s.ctl.geMaxCnt = maxCnt
  room : s.ctl.geCnt ≤ maxCnt
  apart : ∀ f ∈ s.flushers, f.after ≠ some f.cur

theorem FlushKept.right (h : FlushKept maxCnt s) : Right s where
  cnt := h.kept.cnt
  room := h.max ▸ h.room
  same k := by
    by_cases hex : ∃ e ∈ s.ctl.geLnk, e.eKey = k
    · obtain ⟨e, he, rfl⟩ := hex
      rw [h.kept.found e he, filter_name h.kept.keys he]
      rfl
    · push Not at hex
      rw [h.kept.missing k hex, List.filter_eq_nil_iff.mpr]
      · rfl
      · intro e he
        simpa using hex e he
  users := h.kept.used
  held x hx := by
    obtain ⟨e, he, ha, hk⟩ := h.kept.held x hx
    refine ⟨e, he, ha, hk, ?_⟩
    rw [h.kept.used e he]
    exact List.countP_pos_iff.mpr ⟨x, hx, by simpa using ha.symm⟩

theorem find_kept (hc : GElmShared.Kept 0 c) :
    ∃ c', find t k c = .ok c' ∧ GElmShared.Kept 0 c' ∧ NoMore c c' := by
  unfold find
  cases hi : c.geHash.getItem k with
  | none => exact ⟨c, rfl, hc, rfl, le_rfl⟩
  | some i =>
      obtain ⟨e, he, hek, hev⟩ := hc.getItem_some hi
      obtain ⟨c', hc', hkept⟩ := GElmShared.hold_kept (t := t) hc he hek
      rw [hev] at hc'
      exact ⟨c', hc', hkept, hold_noMore hc'⟩

/-- A flush begins with the first element and the one after it. -/
theorem flush_kept (hc : GElmShared.Kept 0 c) :
    ∃ r, flush t loop unset c = .ok r ∧ GElmShared.Kept 0 r.1 ∧ NoMore c r.1 ∧
      ∀ f, r.2 = some f → f.after ≠ some f.cur := by
  unfold flush
  split
  · exact ⟨_, rfl, hc, ⟨rfl, le_rfl⟩, fun f hf => by cases hf⟩
  · next e es hes =>
      have he : e ∈ c.geLnk := hes ▸ List.mem_cons_self
      exact flushFrom_kept hc rfl (List.mem_map_of_mem he) fun b hb => nextOf_mem hc.addrs hb

/-- A flush keeps what holds, whichever wait it ends in. -/
theorem FlushKept.flushed (hs : FlushKept maxCnt s) {r : GElmShared κ × Option GElmFlusher}
    {fs : List GElmFlusher} (hfs : fs ⊆ s.flushers) (hkept : GElmShared.Kept 0 r.1)
    (hless : NoMore s.ctl r.1) (hwait : ∀ f, r.2 = some f → f.after ≠ some f.cur) :
    FlushKept maxCnt { ctl := r.1, flushers := fs ++ r.2.toList } where
  kept := hkept
  max := hless.1.trans hs.max
  room := hless.2.trans hs.room
  apart f hf := by
    rcases List.mem_append.mp hf with hf | hf
    · exact hs.apart f (hfs hf)
    · exact hwait f (Option.mem_toList.mp hf)

theorem resume_kept (hs : FlushKept maxCnt s) (hop : s.Resumable (.resume t loop unset)) :
    s.resume t loop unset = .error .notWaiting ∨
      ∃ s', s.resume t loop unset = .ok s' ∧ FlushKept maxCnt s' := by
  unfold resume
  cases hf : s.flushers.find? fun f => f.thread = t with
  | none => exact .inl rfl
  | some f =>
      right
      obtain ⟨hcur, hafter⟩ := hop f hf
      have hapart := hs.apart f (List.mem_of_find?_eq_some hf)
      have hafter : ∀ b, f.after = some b → b ∈ s.ctl.geLnk.map (·.val) ∧ b ≠ f.cur := by
        refine fun b hb => ⟨hafter b hb, ?_⟩
        rintro rfl
        exact hapart hb
      obtain ⟨r, hr, hkept, hless, hwait⟩ : ∃ r, flushFrom t loop unset s.ctl.geLnk.length f.cur
          f.after s.ctl = .ok r ∧ _ := flushFrom_kept hs.kept rfl hcur hafter
      simp only [hr]
      exact ⟨_, rfl, hs.flushed List.erase_subset hkept hless hwait⟩

/-- One call or return keeps the list, the hash and the counts in step. -/
theorem step_kept {call : GElmCall κ} (hmax : 1 ≤ maxCnt) (hs : FlushKept maxCnt s)
    (hop : s.Resumable call) :
    s.step call = .error .notHeld ∨ s.step call = .error .notWaiting ∨
      ∃ s', s.step call = .ok s' ∧ FlushKept maxCnt s' := by
  cases call with
  | shared op =>
      change (s.ctl.step op).map _ = _ ∨ (s.ctl.step op).map _ = _ ∨
        ∃ s', (s.ctl.step op).map _ = .ok s' ∧ _
      rcases GElmShared.step_kept hs.kept hop with h | h | ⟨c', hc', hkept⟩
      · rw [h]
        exact .inl rfl
      · rw [h]
        exact .inr (.inl rfl)
      · rw [hc']
        have hpos : s.ctl.geMaxCnt ≠ 0 := by
          rw [hs.max]
          exact Nat.ne_of_gt hmax
        obtain ⟨hsame, hroom⟩ := step_room hc' hpos (hs.max ▸ hs.room)
        have hmax' : c'.geMaxCnt = maxCnt := hsame.trans hs.max
        exact .inr (.inr ⟨_, rfl, hkept, hmax', hmax' ▸ hroom, hs.apart⟩)
  | find t k =>
      obtain ⟨c', hc', hkept, hless⟩ := find_kept (t := t) (k := k) hs.kept
      refine .inr (.inr ⟨{ s with ctl := c' }, ?_, ?_⟩)
      · change (find t k s.ctl).map _ = _
        rw [hc']
        rfl
      · exact ⟨hkept, hless.1.trans hs.max, hless.2.trans hs.room, hs.apart⟩
  | flush t loop unset =>
      obtain ⟨r, hr, hkept, hless, hwait⟩ : ∃ r, flush t loop unset s.ctl = .ok r ∧ _ :=
        flush_kept hs.kept
      refine .inr (.inr ⟨{ ctl := r.1, flushers := s.flushers ++ r.2.toList }, ?_, ?_⟩)
      · change (flush t loop unset s.ctl).map _ = _
        rw [hr]
        rfl
      · exact hs.flushed (List.Subset.refl _) hkept hless hwait
  | resume t loop unset => exact .inr (resume_kept hs hop)

theorem kept_of_step (hmax : 1 ≤ maxCnt) (call : GElmCall κ) (hs : FlushKept maxCnt s)
    (hop : s.Resumable call) (h : s.step call = .ok s') : FlushKept maxCnt s' := by
  rcases step_kept hmax hs hop with he | he | ⟨u, hu, hk⟩
  · rw [he] at h
    cases h
  · rw [he] at h
    cases h
  · cases hu.symm.trans h
    exact hk

theorem init_kept (hashSize : ℕ) (fHashCode : κ → ℕ) (maxCnt : ℕ) :
    FlushKept maxCnt (init hashSize fHashCode maxCnt) where
  kept := GElmShared.init_kept hashSize fHashCode maxCnt
  max := rfl
  room := Nat.zero_le _
  apart f hf := by cases hf

/-- Who returns from `CndWait` waits again, gives up, or gets the first element, which
nobody has. -/
def TakesUnused (t : ℕ) (s s' : GElmFlushed κ) : Prop :=
  s'.ctl.holds = s.ctl.holds ∨
    ∃ e k, s.ctl.geLnk.head? = some e ∧ e.eCnt = 0 ∧
      s'.ctl.holds = ⟨t, k, e.val⟩ :: s.ctl.holds

omit [DecidableEq κ] in
theorem set_holds (h : c.set t k a bSet = .ok c') :
    c'.holds = c.holds ∨ c'.holds = ⟨t, k, a⟩ :: c.holds := by
  unfold GElmShared.set at h
  split_ifs at h
  · unfold GElmShared.hold at h
    split at h
    · cases h
    · cases h
      exact .inr rfl
  · cases h
    exact .inl rfl

theorem wake_takes (h : s.step (.shared (.wake t bUnset bSet)) = .ok s') :
    TakesUnused t s s' := by
  obtain ⟨c', hc', rfl⟩ := except_map_ok h
  change s.ctl.wake t bUnset bSet = .ok c' at hc'
  unfold GElmShared.wake at hc'
  split at hc'
  · cases hc'
  · next w _ =>
      unfold GElmShared.takeFirst at hc'
      split at hc'
      · cases hc'
      · next e es hes =>
          split_ifs at hc' with hcnt
          · cases hc'
            exact .inl rfl
          · split at hc'
            · cases hc'
              exact .inl rfl
            · next u hu =>
                have hholds := (unset_eq hu).2
                rcases set_holds hc' with hsame | hmore
                · exact .inl (hsame.trans hholds)
                · refine .inr ⟨e, w.2, ?_, not_not.mp hcnt, ?_⟩
                  · have hhead : s.ctl.geLnk = e :: es := hes
                    rw [hhead]
                    rfl
                  · rw [hholds] at hmore
                    exact hmore

/-- As long as who returns from `CndWait` meets what it waited for, the cache is right in
every state, no element is used that is gone, and who returns in `GElmGet` takes over
what nobody has. -/
theorem gElm_right (hashSize : ℕ) (fHashCode : κ → ℕ) (calls : List (GElmCall κ))
    (hmax : 1 ≤ maxCnt) (hcalls : Along step Resumable (init hashSize fHashCode maxCnt) calls) :
    (∀ s, run step (init hashSize fHashCode maxCnt) calls = .ok s → s.Right ∧
      ∀ t bUnset bSet s', s.step (.shared (.wake t bUnset bSet)) = .ok s' → TakesUnused t s s') ∧
      ∀ e, run step (init hashSize fHashCode maxCnt) calls = .error e →
        e = .notHeld ∨ e = .notWaiting := by
  constructor
  · intro s hs
    have hk : FlushKept maxCnt s :=
      run_invariant (fun _ call _ => kept_of_step hmax call) (init_kept _ _ _) hcalls hs
    exact ⟨hk.right, fun _ _ _ _ => wake_takes⟩
  · intro e he
    refine run_error (E := fun e => e = .notHeld ∨ e = .notWaiting)
      (fun _ call _ => kept_of_step hmax call) ?_ (init_kept _ _ _) hcalls he
    intro s call e hs hop he
    rcases step_kept hmax hs hop with h | h | ⟨s', hs', -⟩
    · rw [h] at he
      exact .inl (Except.error.inj he).symm
    · rw [h] at he
      exact .inr (Except.error.inj he).symm
    · rw [hs'] at he
      cases he

end

/-- A flush waits for the only element, and goes on when it is put. -/
def flushedOnce : List (GElmCall ℕ) :=
  [.shared (.get 1 7 true true), .flush 2 (fun _ => true) (fun _ => true),
    .shared (.put 1 0 false true), .resume 2 (fun _ => true) (fun _ => true)]

theorem gElm_right_flushedOnce :
    ∃ s, run step (init 5 id 1) flushedOnce = .ok s ∧ s.Right ∧ s.ctl.geCnt = 0 := by
  have hcalls : Along step Resumable (init 5 id 1) flushedOnce := by
    refine ⟨trivial, fun s hs => ?_⟩
    cases hs
    refine ⟨trivial, fun s hs => ?_⟩
    cases hs
    refine ⟨trivial, fun s hs => ?_⟩
    cases hs
    refine ⟨?_, fun _ _ => trivial⟩
    intro f hf
    cases hf
    exact ⟨by decide, fun b hb => by cases hb⟩
  have h := (gElm_right 5 id flushedOnce (le_refl 1) hcalls).1 _ rfl
  exact ⟨_, rfl, h.1, rfl⟩

/-- The only element is freed while a thread waits for it, which then uses the first
element of an empty list. -/
theorem gElm_not_right :
    ¬ ∀ (hashSize maxCnt : ℕ) (fHashCode : ℕ → ℕ) (calls : List (GElmCall ℕ)) (e : GElmTrap),
      1 ≤ maxCnt → run step (init hashSize fHashCode maxCnt) calls = .error e →
        e = .notHeld ∨ e = .notWaiting := by
  intro h
  have htrap := h 5 1 id [.shared (.get 1 7 true true), .shared (.get 2 8 true true),
    .shared (.put 1 0 true true), .shared (.wake 2 true true)] .noElement (le_refl 1) rfl
  rcases htrap with he | he
  · cases he
  · cases he

end GElmFlushed

end PaxosSolutions.NWGadget
