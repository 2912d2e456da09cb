import PaxosSolutions.Lib.Buckets
import PaxosSolutions.Lib.Run
import PaxosSolutions.NWGadget.GElm
import PaxosSolutions.NWGadget.Hash

/-!
# Elements shared by threads

`GElmGet` and `GElmPut` of many threads, each atomic up to the wait. A thread
that finds neither an element under its key nor room for one waits as long as
the element that was got longest ago is in use, and takes that one over then.
It does not look for its key again, so each key has one element only as long as
nobody sets one for a key that is waited with.
-/
namespace PaxosSolutions.NWGadget
open Lib

/-- A caller of `GElmGet` that has not put back what it got. -/
structure GElmHold (κ : Type) where
  thread : ℕ
  key : κ
  addr : ℕ
deriving DecidableEq

/-- `GElmCtrl_t` and its callers. The `val` of an element is its address, and no
address is used twice. `waits` are the threads in `CndWait`, with their keys. -/
structure GElmShared (κ : Type) where
  geLnk : List (GElm κ ℕ) := []
  geHash : Hash κ ℕ
  geMaxCnt : ℕ
  geCnt : ℕ := 0
  waits : List (ℕ × κ) := []
  holds : List (GElmHold κ) := []
  next : ℕ := 0

/-- The first element of an empty list is used, an element that is freed is
used, or `e_Cnt` is not to go below zero. The others are no fault of the cache:
who does not hold does not put, and who does not wait does not wake. -/
inductive GElmTrap where
  | noElement | freed | assertCnt | notHeld | notWaiting
deriving DecidableEq, Repr

/-- A call, or the return from `CndWait`. `unset` and `set` tell whether the
callbacks of the user do what they are asked, if they are. -/
inductive GElmOp (κ : Type) where
  | get (t : ℕ) (k : κ) (unset set : Bool)
  | wake (t : ℕ) (unset set : Bool)
  | put (t addr : ℕ) (bFree unset : Bool)

namespace GElmShared
variable {κ : Type} [DecidableEq κ]

/-- `GElmCtrlInit` -/
def init (hashSize : ℕ) (fHashCode : κ → ℕ) (maxCnt : ℕ) : GElmShared κ :=
  { geHash := Hash.init hashSize fHashCode, geMaxCnt := maxCnt }

/-- The end of `GElmGet`: one user more, and the last in the list. -/
def hold (t : ℕ) (k : κ) (a : ℕ) (c : GElmShared κ) : Except GElmTrap (GElmShared κ) :=
  match c.geLnk.find? fun e => e.val = a with
  | none => .error .freed
  | some e =>
      .ok { c with
        geLnk := (c.geLnk.filter fun d => d.val ≠ a) ++ [{ e with eCnt := e.eCnt + 1 }]
        holds := ⟨t, k, a⟩ :: c.holds }

/-- `GElmGet` from `_GElmSet` on, for the element at `a`. -/
def set (t : ℕ) (k : κ) (a : ℕ) (bSet : Bool) (c : GElmShared κ) :
    Except GElmTrap (GElmShared κ) :=
  if bSet then hold t k a { c with geLnk := c.geLnk ++ [⟨k, 0, a⟩], geHash := c.geHash.put k a }
  else .ok { c with geCnt := c.geCnt - 1 }

/-- `_GElmUnset`, if it returns 0. -/
def unset (e : GElm κ ℕ) (bUnset : Bool) (c : GElmShared κ) : Option (GElmShared κ) :=
  if bUnset = false ∨ c.geHash.getItem e.eKey = none then none
  else
    some { c with
      geHash := c.geHash.removeItem e.eKey
      geLnk := c.geLnk.filter fun d => d.val ≠ e.val }

/-- `GElmGet` from `loop_wait` on. -/
def takeFirst (t : ℕ) (k : κ) (bUnset bSet : Bool) (c : GElmShared κ) :
    Except GElmTrap (GElmShared κ) :=
  match c.geLnk with
  | [] => .error .noElement
  | e :: _ =>
      if e.eCnt ≠ 0 then .ok { c with waits := c.waits ++ [(t, k)] }
      else
        match c.unset e bUnset with
        | none => .ok c
        | some c => c.set t k e.val bSet

/-- `GElmGet` with `bAlloc` -/
def get (t : ℕ) (k : κ) (bUnset bSet : Bool) (c : GElmShared κ) :
    Except GElmTrap (GElmShared κ) :=
  match c.geHash.getItem k with
  | some i => c.hold t k i.2
  | none =>
      if c.geMaxCnt = 0 ∨ c.geCnt < c.geMaxCnt then
        set t k c.next bSet { c with geCnt := c.geCnt + 1, next := c.next + 1 }
      else c.takeFirst t k bUnset bSet

/-- `CndWait` returns. -/
def wake (t : ℕ) (bUnset bSet : Bool) (c : GElmShared κ) : Except GElmTrap (GElmShared κ) :=
  match c.waits.find? fun w => w.1 = t with
  | none => .error .notWaiting
  | some w => takeFirst t w.2 bUnset bSet { c with waits := c.waits.erase w }

/-- `--pElm->e_Cnt` of the element at `a` -/
def release (h : GElmHold κ) (c : GElmShared κ) : GElmShared κ :=
  { c with
    geLnk := c.geLnk.map fun d => if d.val = h.addr then { d with eCnt := d.eCnt - 1 } else d
    holds := c.holds.erase h }

/-- `GElmPut` of the element at `a`, which the thread `t` got. -/
def put (t a : ℕ) (bFree bUnset : Bool) (c : GElmShared κ) : Except GElmTrap (GElmShared κ) :=
  match c.holds.find? fun h => h.thread = t ∧ h.addr = a with
  | none => .error .notHeld
  | some h =>
      match c.geLnk.find? fun e => e.val = a with
      | none => .error .freed
      | some e =>
          if e.eCnt = 0 then .error .assertCnt
          else if e.eCnt = 1 ∧ bFree then
            match (c.release h).unset { e with eCnt := 0 } bUnset with
            | none => .ok (c.release h)
            | some c => .ok { c with geCnt := c.geCnt - 1 }
          else .ok (c.release h)

def step (c : GElmShared κ) : GElmOp κ → Except GElmTrap (GElmShared κ)
  | .get t k bUnset bSet => c.get t k bUnset bSet
  | .wake t bUnset bSet => c.wake t bUnset bSet
  | .put t a bFree bUnset => c.put t a bFree bUnset

/-- One element a key, and the same one for all callers with the key. -/
structure OneEach (c : GElmShared κ) : Prop where
  one : (c.geLnk.map (·.eKey)).Nodup
  same : ∀ h ∈ c.holds, ∀ h' ∈ c.holds, h.key = h'.key → h.addr = h'.addr

/-- Who returns from `CndWait` meets an element, and takes it over only if no
other element is set for its key. -/
def Resumable (c : GElmShared κ) : GElmOp κ → Prop
  | .wake t bUnset bSet =>
      ∀ w, c.waits.find? (fun w => w.1 = t) = some w → c.geLnk ≠ [] ∧
        ∀ e es, c.geLnk = e :: es → e.eCnt = 0 → bUnset = true → bSet = true →
          ∀ d ∈ es, d.eKey ≠ w.2
  | _ => True

/-- What the list, the hash and the counts have to do with each other. `n`
elements are allocated and not in the list. -/
structure Kept (n : ℕ) (c : GElmShared κ) : Prop where
  keys : (c.geLnk.map (·.eKey)).Nodup
  addrs : (c.geLnk.map (·.val)).Nodup
  fresh : ∀ e ∈ c.geLnk, e.val < c.next
  found : ∀ e ∈ c.geLnk, c.geHash.valuesAt e.eKey = [e.val]
  missing : ∀ k, (∀ e ∈ c.geLnk, e.eKey ≠ k) → c.geHash.valuesAt k = []
  cnt : c.geCnt = c.geLnk.length + n
  used : ∀ e ∈ c.geLnk, e.eCnt = c.holds.countP fun h => h.addr = e.val
  held : ∀ h ∈ c.holds, ∃ e ∈ c.geLnk, e.val = h.addr ∧ e.eKey = h.key

section Kept
variable {n t a : ℕ} {c c' : GElmShared κ} {e : GElm κ ℕ} {k : κ} {bUnset bSet bFree : Bool}

theorem Kept.oneEach (hc : Kept n c) : c.OneEach := by
  refine ⟨hc.keys, ?_⟩
  intro h hh h' hh' hkey
  obtain ⟨e, he, hea, hek⟩ := hc.held h hh
  obtain ⟨e', he', hea', hek'⟩ := hc.held h' hh'
  have hee : e = e' := by
    apply List.inj_on_of_nodup_map hc.keys he he'
    exact hek.trans (hkey.trans hek'.symm)
  rw [← hea, ← hea', hee]

theorem Kept.find (hc : Kept n c) (he : e ∈ c.geLnk) :
    c.geLnk.find? (fun d => d.val = e.val) = some e := by
  cases h : c.geLnk.find? fun d => d.val = e.val with
  | none =>
      simp only [List.find?_eq_none, decide_eq_true_eq] at h
      exact absurd rfl (h e he)
  | some d =>
      have hd : d.val = e.val := by simpa using List.find?_some h
      rw [List.inj_on_of_nodup_map hc.addrs (List.mem_of_find?_eq_some h) he hd]

theorem Kept.getItem_none (hc : Kept n c) (h : c.geHash.getItem k = none) :
    ∀ e ∈ c.geLnk, e.eKey ≠ k := by
  rintro e he rfl
  have hv := c.geHash.getItem_value e.eKey
  rw [h, hc.found e he] at hv
  cases hv

theorem Kept.getItem_some (hc : Kept n c) {i : κ × ℕ} (h : c.geHash.getItem k = some i) :
    ∃ e ∈ c.geLnk, e.eKey = k ∧ e.val = i.2 := by
  have hv := c.geHash.getItem_value k
  rw [h] at hv
  by_cases hex : ∃ e ∈ c.geLnk, e.eKey = k
  · obtain ⟨e, he, rfl⟩ := hex
    rw [hc.found e he] at hv
    exact ⟨e, he, rfl, (Option.some.inj hv).symm⟩
  · push Not at hex
    rw [hc.missing k hex] at hv
    cases hv

/-- The elements but one, and that one with another count at the end, are the
same elements. -/
theorem Kept.perm (hc : Kept n c) (he : e ∈ c.geLnk) :
    c.geLnk.Perm ((c.geLnk.filter fun d => d.val ≠ e.val) ++ [e]) :=
  (perm_cons_filter hc.addrs he).trans (List.perm_append_singleton _ _).symm

/-- A caller more, and the element is the last in the list. -/
theorem hold_kept (hc : Kept n c) (he : e ∈ c.geLnk) (hk : e.eKey = k) :
    ∃ c', c.hold t k e.val = .ok c' ∧ Kept n c' := by
  unfold hold
  rw [hc.find he]
  refine ⟨_, rfl, ?_⟩
  have hperm := hc.perm he
  have hmem : ∀ d ∈ (c.geLnk.filter fun d => d.val ≠ e.val) ++ [{ e with eCnt := e.eCnt + 1 }],
      ∃ d' ∈ c.geLnk, d'.eKey = d.eKey ∧ d'.val = d.val ∧
        d.eCnt = d'.eCnt + if d.val = e.val then 1 else 0 := by
    intro d hd
    rcases List.mem_append.mp hd with hd | hd
    · obtain ⟨hd, hne⟩ := List.mem_filter.mp hd
      exact ⟨d, hd, rfl, rfl, by simpa using hne⟩
    · rw [List.mem_singleton.mp hd]
      exact ⟨e, he, rfl, rfl, by simp⟩
  have hmem' : ∀ d ∈ c.geLnk, ∃ d' ∈ (c.geLnk.filter fun d => d.val ≠ e.val) ++
      [{ e with eCnt := e.eCnt + 1 }], d'.eKey = d.eKey ∧ d'.val = d.val := by
    intro d hd
    rcases List.mem_append.mp (hperm.mem_iff.mp hd) with hd | hd
    · exact ⟨d, List.mem_append_left _ hd, rfl, rfl⟩
    · rw [List.mem_singleton.mp hd]
      exact ⟨_, List.mem_append_right _ (List.mem_singleton_self _), rfl, rfl⟩
  constructor
  · have h := (hperm.map (·.eKey)).nodup_iff.mp hc.keys
    simpa using h
  · have h := (hperm.map (·.val)).nodup_iff.mp hc.addrs
    simpa using h
  · intro d hd
    obtain ⟨d', hd', -, hval, -⟩ := hmem d hd
    exact hval ▸ hc.fresh d' hd'
  · intro d hd
    obtain ⟨d', hd', hkey, hval, -⟩ := hmem d hd
    rw [← hkey, ← hval]
    exact hc.found d' hd'
  · intro j hj
    apply hc.missing
    intro d hd
    obtain ⟨d', hd', hkey, -⟩ := hmem' d hd
    rw [← hkey]
    exact hj d' hd'
  · have h := hperm.length_eq
    rw [List.length_append] at h ⊢
    rw [hc.cnt, h]
    rfl
  · intro d hd
    obtain ⟨d', hd', -, hval, hcnt⟩ := hmem d hd
    rw [List.countP_cons, hcnt, hc.used d' hd', hval]
    simp [eq_comm]
  · intro h hh
    rcases List.mem_cons.mp hh with rfl | hh
    · exact ⟨_, List.mem_append_right _ (List.mem_singleton_self _), rfl, hk⟩
    · obtain ⟨d, hd, hda, hdk⟩ := hc.held h hh
      obtain ⟨d', hd', hkey, hval⟩ := hmem' d hd
      exact ⟨d', hd', hval.trans hda, hkey.trans hdk⟩

/-- An element that is allocated is set, under a key that has none, or is freed. -/
theorem set_kept (hc : Kept 1 c) (ha : a < c.next) (hnew : ∀ e ∈ c.geLnk, e.val ≠ a)
    (hk : ∀ e ∈ c.geLnk, e.eKey ≠ k) : ∃ c', c.set t k a bSet = .ok c' ∧ Kept 0 c' := by
  unfold set
  cases bSet with
  | false =>
      refine ⟨_, rfl, hc.keys, hc.addrs, hc.fresh, hc.found, hc.missing, ?_, hc.used, hc.held⟩
      change c.geCnt - 1 = c.geLnk.length + 0
      rw [hc.cnt]
      rfl
  | true =>
      rw [if_pos rfl]
      have hlast : (⟨k, 0, a⟩ : GElm κ ℕ) ∈ c.geLnk ++ [⟨k, 0, a⟩] := by simp
      refine hold_kept (e := ⟨k, 0, a⟩) ?_ hlast rfl
      constructor
      · rw [List.map_append, List.nodup_append]
        refine ⟨hc.keys, List.nodup_singleton _, ?_⟩
        intro i hi j hj hij
        obtain ⟨d, hd, rfl⟩ := List.mem_map.mp hi
        rw [List.mem_singleton.mp hj] at hij
        exact hk d hd hij
      · rw [List.map_append, List.nodup_append]
        refine ⟨hc.addrs, List.nodup_singleton _, ?_⟩
        intro i hi j hj hij
        obtain ⟨d, hd, rfl⟩ := List.mem_map.mp hi
        rw [List.mem_singleton.mp hj] at hij
        exact hnew d hd hij
      · intro d hd
        rcases List.mem_append.mp hd with hd | hd
        · exact hc.fresh d hd
        · rw [List.mem_singleton.mp hd]
          exact ha
      · intro d hd
        rw [Hash.valuesAt_put]
        rcases List.mem_append.mp hd with hd | hd
        · rw [hc.found d hd, if_neg (hk d hd), List.append_nil]
        · rw [List.mem_singleton.mp hd, if_pos rfl, hc.missing k hk, List.nil_append]
      · intro j hj
        have hjk : j ≠ k := fun h => hj _ hlast h.symm
        rw [Hash.valuesAt_put, if_neg hjk, List.append_nil]
        exact hc.missing j fun d hd => hj d (List.mem_append_left _ hd)
      · change c.geCnt = (c.geLnk ++ [_]).length + 0
        rw [hc.cnt, List.length_append]
        rfl
      · intro d hd
        rcases List.mem_append.mp hd with hd | hd
        · exact hc.used d hd
        · rw [List.mem_singleton.mp hd]
          symm
          rw [List.countP_eq_zero]
          intro h hh
          obtain ⟨d, hd, hda, -⟩ := hc.held h hh
          simpa [hda] using hnew d hd
      · intro h hh
        obtain ⟨d, hd, hda⟩ := hc.held h hh
        exact ⟨d, List.mem_append_left _ hd, hda⟩

/-- An element that nobody has is taken off. -/
theorem unset_kept (hc : Kept 0 c) (he : e ∈ c.geLnk) (hcnt : e.eCnt = 0)
    (h : c.unset e bUnset = some c') :
    Kept 1 c' ∧ c'.geLnk = (c.geLnk.filter fun d => d.val ≠ e.val) ∧ c'.next = c.next := by
  unfold unset at h
  split_ifs at h
  cases h
  refine ⟨?_, rfl, rfl⟩
  have hkey : ∀ d ∈ c.geLnk, d.val ≠ e.val → d.eKey ≠ e.eKey := by
    intro d hd hne hk
    exact hne (congrArg GElm.val (List.inj_on_of_nodup_map hc.keys hd he hk))
  have hmem : ∀ d ∈ c.geLnk.filter (fun d => d.val ≠ e.val), d ∈ c.geLnk ∧ d.val ≠ e.val := by
    intro d hd
    obtain ⟨hd, hne⟩ := List.mem_filter.mp hd
    exact ⟨hd, by simpa using hne⟩
  constructor
  · exact hc.keys.sublist (List.filter_sublist.map _)
  · exact hc.addrs.sublist (List.filter_sublist.map _)
  · exact fun d hd => hc.fresh d (hmem d hd).1
  · intro d hd
    obtain ⟨hd, hne⟩ := hmem d hd
    rw [Hash.valuesAt_removeItem, if_neg (hkey d hd hne)]
    exact hc.found d hd
  · intro j hj
    rw [Hash.valuesAt_removeItem]
    split_ifs with hje
    · rw [hc.found e he]
      rfl
    · apply hc.missing
      intro d hd hdj
      refine hj d (List.mem_filter.mpr ⟨hd, ?_⟩) hdj
      have hne : d.val ≠ e.val := by
        intro hv
        rw [List.inj_on_of_nodup_map hc.addrs hd he hv] at hdj
        exact hje hdj.symm
      simpa using hne
  · have hlen := (hc.perm he).length_eq
    rw [List.length_append] at hlen
    change c.geCnt = (c.geLnk.filter _).length + 1
    rw [hc.cnt]
    exact hlen
  · exact fun d hd => hc.used d (hmem d hd).1
  · intro x hx
    obtain ⟨d, hd, hda, hdk⟩ := hc.held x hx
    refine ⟨d, List.mem_filter.mpr ⟨hd, ?_⟩, hda, hdk⟩
    -- an element with a caller has a count
    have hne : d.val ≠ e.val := by
      intro hv
      rw [List.inj_on_of_nodup_map hc.addrs hd he hv] at hda
      have hpos : 0 < c.holds.countP fun h => h.addr = e.val :=
        List.countP_pos_iff.mpr ⟨x, hx, by simpa using hda.symm⟩
      rw [← hc.used e he, hcnt] at hpos
      exact lt_irrefl _ hpos
    simpa using hne

theorem Kept.unset_eq (hc : Kept n c) (he : e ∈ c.geLnk) :
    c.unset e true = some { c with
      geHash := c.geHash.removeItem e.eKey
      geLnk := c.geLnk.filter fun d => d.val ≠ e.val } := by
  unfold unset
  rw [if_neg]
  rintro (h | h)
  · cases h
  · exact hc.getItem_none h e he rfl

theorem Kept.waits (hc : Kept n c) (ws : List (ℕ × κ)) : Kept n { c with waits := ws } :=
  ⟨hc.keys, hc.addrs, hc.fresh, hc.found, hc.missing, hc.cnt, hc.used, hc.held⟩

/-- A caller less -/
theorem release_kept {h : GElmHold κ} (hc : Kept n c) (hh : h ∈ c.holds) :
    Kept n (c.release h) := by
  have hmem : ∀ d ∈ (c.release h).geLnk, ∃ d' ∈ c.geLnk, d'.eKey = d.eKey ∧ d'.val = d.val ∧
      d.eCnt = d'.eCnt - if d.val = h.addr then 1 else 0 := by
    intro d hd
    obtain ⟨d', hd', rfl⟩ := List.mem_map.mp hd
    refine ⟨d', hd', ?_⟩
    split_ifs with ha
    · exact ⟨rfl, rfl, rfl⟩
    · simp
  have hmem' : ∀ d ∈ c.geLnk, ∃ d' ∈ (c.release h).geLnk, d'.eKey = d.eKey ∧ d'.val = d.val := by
    intro d hd
    refine ⟨_, List.mem_map_of_mem hd, ?_⟩
    split_ifs
    · exact ⟨rfl, rfl⟩
    · exact ⟨rfl, rfl⟩
  have hkeys : (c.release h).geLnk.map (·.eKey) = c.geLnk.map (·.eKey) := by
    unfold release
    rw [List.map_map]
    apply List.map_congr_left
    intro d _
    simp only [Function.comp_apply]
    split_ifs
    · rfl
    · rfl
  have hvals : (c.release h).geLnk.map (·.val) = c.geLnk.map (·.val) := by
    unfold release
    rw [List.map_map]
    apply List.map_congr_left
    intro d _
    simp only [Function.comp_apply]
    split_ifs
    · rfl
    · rfl
  constructor
  · rw [hkeys]
    exact hc.keys
  · rw [hvals]
    exact hc.addrs
  · intro d hd
    obtain ⟨d', hd', -, hval, -⟩ := hmem d hd
    exact hval ▸ hc.fresh d' hd'
  · intro d hd
    obtain ⟨d', hd', hkey, hval, -⟩ := hmem d hd
    rw [← hkey, ← hval]
    exact hc.found d' hd'
  · intro j hj
    apply hc.missing
    intro d hd
    obtain ⟨d', hd', hkey, -⟩ := hmem' d hd
    rw [← hkey]
    exact hj d' hd'
  · change c.geCnt = (c.geLnk.map _).length + n
    rw [List.length_map]
    exact hc.cnt
  · intro d hd
    obtain ⟨d', hd', -, hval, hcnt⟩ := hmem d hd
    have hperm := List.perm_cons_erase hh
    have hcount := hperm.countP_eq fun x => x.addr = d.val
    rw [List.countP_cons] at hcount
    have hused := hc.used d' hd'
    rw [hval] at hused
    change d.eCnt = (c.holds.erase h).countP _
    simp only [decide_eq_true_eq, eq_comm (a := h.addr)] at hcount
    split_ifs at hcnt hcount
    · omega
    · omega
  · intro x hx
    obtain ⟨d, hd, hda, hdk⟩ := hc.held x (List.mem_of_mem_erase hx)
    obtain ⟨d', hd', hkey, hval⟩ := hmem' d hd
    exact ⟨d', hd', hval.trans hda, hkey.trans hdk⟩

theorem takeFirst_eq {es : List (GElm κ ℕ)} (hes : c.geLnk = e :: es) :
    c.takeFirst t k bUnset bSet =
      if e.eCnt ≠ 0 then .ok { c with waits := c.waits ++ [(t, k)] }
      else
        match c.unset e bUnset with
        | none => .ok c
        | some c => c.set t k e.val bSet := by
  unfold takeFirst
  split
  · next h =>
      rw [hes] at h
      cases h
  · next h =>
      rw [hes] at h
      cases h
      rfl

/-- Who takes over the first element leaves one for each key, if no other is
set for the key it has in mind. -/
theorem takeFirst_kept (hc : Kept 0 c) (hne : c.geLnk ≠ [])
    (hk : ∀ e es, c.geLnk = e :: es → e.eCnt = 0 → bUnset = true → bSet = true →
      ∀ d ∈ es, d.eKey ≠ k) :
    ∃ c', c.takeFirst t k bUnset bSet = .ok c' ∧ Kept 0 c' := by
  obtain ⟨e, es, hes⟩ := List.exists_cons_of_ne_nil hne
  have he : e ∈ c.geLnk := hes ▸ List.mem_cons_self
  rw [takeFirst_eq hes]
  by_cases hcnt : e.eCnt ≠ 0
  · rw [if_pos hcnt]
    exact ⟨_, rfl, hc.waits _⟩
  · rw [if_neg hcnt]
    have hcnt : e.eCnt = 0 := not_not.mp hcnt
    cases hu : c.unset e bUnset with
    | none => exact ⟨c, rfl, hc⟩
    | some u =>
        obtain ⟨hku, hlnk, hnext⟩ := unset_kept hc he hcnt hu
        have hunset : bUnset = true := by
          by_contra hfalse
          unfold unset at hu
          rw [if_pos (.inl (by simpa using hfalse))] at hu
          cases hu
        cases bSet with
        | false =>
            refine ⟨_, rfl, hku.keys, hku.addrs, hku.fresh, hku.found, hku.missing, ?_, hku.used,
              hku.held⟩
            change u.geCnt - 1 = u.geLnk.length + 0
            rw [hku.cnt]
            rfl
        | true =>
            apply set_kept hku
            · rw [hnext]
              exact hc.fresh e he
            · intro d hd
              rw [hlnk] at hd
              simpa using (List.mem_filter.mp hd).2
            · intro d hd
              rw [hlnk, hes, List.filter_cons_of_neg (by simp)] at hd
              exact hk e es hes hcnt hunset rfl d (List.mem_filter.mp hd).1

theorem get_kept (hc : Kept 0 c) : ∃ c', c.get t k bUnset bSet = .ok c' ∧ Kept 0 c' := by
  unfold get
  cases hi : c.geHash.getItem k with
  | some i =>
      obtain ⟨e, he, hek, hev⟩ := hc.getItem_some hi
      simp only
      rw [← hev]
      exact hold_kept hc he hek
  | none =>
      have hnone := hc.getItem_none hi
      simp only
      by_cases hroom : c.geMaxCnt = 0 ∨ c.geCnt < c.geMaxCnt
      · rw [if_pos hroom]
        refine set_kept ⟨hc.keys, hc.addrs, ?_, hc.found, hc.missing, ?_, hc.used, hc.held⟩ ?_ ?_
          hnone
        · exact fun e he => Nat.lt_succ_of_lt (hc.fresh e he)
        · change c.geCnt + 1 = c.geLnk.length + 1
          rw [hc.cnt, Nat.add_zero]
        · exact Nat.lt_succ_self _
        · exact fun e he => (hc.fresh e he).ne
      · -- there is no room, so there are elements
        rw [if_neg hroom]
        apply takeFirst_kept hc
        · intro hnil
          have hlen := hc.cnt
          rw [hnil] at hlen
          apply hroom
          change c.geCnt = 0 at hlen
          omega
        · intro e es hes _ _ _ d hd
          exact hnone d (hes ▸ List.mem_cons_of_mem _ hd)

theorem put_kept (hc : Kept 0 c) :
    c.put t a bFree bUnset = .error .notHeld ∨
      ∃ c', c.put t a bFree bUnset = .ok c' ∧ Kept 0 c' := by
  unfold put
  cases hf : c.holds.find? fun h => h.thread = t ∧ h.addr = a with
  | none => exact .inl rfl
  | some h =>
      right
      have hh := List.mem_of_find?_eq_some hf
      have hha : h.addr = a := by
        have hp := List.find?_some hf
        simp only [decide_eq_true_eq] at hp
        exact hp.2
      obtain ⟨e, he, hea, -⟩ := hc.held h hh
      rw [← hha, ← hea, hc.find he]
      have hpos : e.eCnt ≠ 0 := by
        rw [hc.used e he]
        exact (List.countP_pos_iff.mpr ⟨h, hh, by simpa using hea.symm⟩).ne'
      have hrel := release_kept hc hh
      simp only
      rw [if_neg hpos]
      by_cases hlast : e.eCnt = 1 ∧ bFree = true
      · rw [if_pos hlast]
        have hmem : { e with eCnt := 0 } ∈ (c.release h).geLnk := by
          refine List.mem_map.mpr ⟨e, he, ?_⟩
          rw [if_pos hea, hlast.1]
        cases hu : (c.release h).unset { e with eCnt := 0 } bUnset with
        | none => exact ⟨_, rfl, hrel⟩
        | some u =>
            obtain ⟨hku, -⟩ := unset_kept hrel hmem rfl hu
            refine ⟨_, rfl, hku.keys, hku.addrs, hku.fresh, hku.found, hku.missing, ?_, hku.used,
              hku.held⟩
            change u.geCnt - 1 = u.geLnk.length + 0
            rw [hku.cnt]
            rfl
      · rw [if_neg hlast]
        exact ⟨_, rfl, hrel⟩

theorem wake_kept (hc : Kept 0 c) (hop : c.Resumable (.wake t bUnset bSet)) :
    c.wake t bUnset bSet = .error .notWaiting ∨
      ∃ c', c.wake t bUnset bSet = .ok c' ∧ Kept 0 c' := by
  unfold wake
  cases hf : c.waits.find? fun w => w.1 = t with
  | none => exact .inl rfl
  | some w =>
      obtain ⟨hne, hk⟩ := hop w hf
      exact .inr (takeFirst_kept (hc.waits _) hne hk)

/-- One call or return keeps the elements apart. -/
theorem step_kept {op : GElmOp κ} (hc : Kept 0 c) (hop : c.Resumable op) :
    c.step op = .error .notHeld ∨ c.step op = .error .notWaiting ∨
      ∃ c', c.step op = .ok c' ∧ Kept 0 c' := by
  cases op with
  | get t k bUnset bSet => exact .inr (.inr (get_kept hc))
  | wake t bUnset bSet => exact .inr (wake_kept hc hop)
  | put t a bFree bUnset =>
      rcases put_kept hc with h | h
      · exact .inl h
      · exact .inr (.inr h)

theorem init_kept (hashSize : ℕ) (fHashCode : κ → ℕ) (maxCnt : ℕ) :
    Kept 0 (init hashSize fHashCode maxCnt) := by
  constructor
  · exact List.nodup_nil
  · exact List.nodup_nil
  · simp [init]
  · simp [init]
  · intro k _
    exact Hash.valuesAt_init _ _ k
  · rfl
  · simp [init]
  · simp [init]

omit [DecidableEq κ] in
/-- An element is set where no other has its address. -/
theorem set_lnk (hnew : ∀ e ∈ c.geLnk, e.val ≠ a) :
    ∃ c', c.set t k a true = .ok c' ∧ c'.geLnk = c.geLnk ++ [⟨k, 1, a⟩] := by
  have hnone : c.geLnk.find? (fun e => e.val = a) = none := by simpa using hnew
  have hkeep : (c.geLnk.filter fun e => e.val ≠ a) = c.geLnk := by simpa using hnew
  unfold set hold
  rw [if_pos rfl]
  simp only
  rw [List.find?_append, hnone, List.filter_append, hkeep]
  simp

/-- Who takes over the first element although another is set for its key makes
a second one. -/
theorem not_oneEach_of_wake (hc : Kept 0 c) (hop : ¬ c.Resumable (.wake t bUnset bSet)) :
    c.wake t bUnset bSet = .error .noElement ∨
      ∃ c', c.wake t bUnset bSet = .ok c' ∧ ¬ c'.OneEach := by
  unfold Resumable at hop
  push Not at hop
  obtain ⟨w, hw, hbad⟩ := hop
  unfold wake
  rw [hw]
  simp only
  by_cases hnil : c.geLnk = []
  · left
    unfold takeFirst
    simp only [hnil]
  · right
    obtain ⟨e, es, hes, hcnt, rfl, rfl, d, hd, hdk⟩ := hbad hnil
    have he : e ∈ c.geLnk := hes ▸ List.mem_cons_self
    have hu := (hc.waits (c.waits.erase w)).unset_eq he
    rw [takeFirst_eq (c := { c with waits := c.waits.erase w }) hes, if_neg (not_not.mpr hcnt), hu]
    obtain ⟨c', hc', hlnk⟩ := set_lnk (t := t) (k := w.2) (a := e.val) (c := { c with
      geHash := c.geHash.removeItem e.eKey
      geLnk := c.geLnk.filter fun d => d.val ≠ e.val
      waits := c.waits.erase w }) fun x hx => by simpa using (List.mem_filter.mp hx).2
    refine ⟨c', hc', ?_⟩
    intro hone
    have hn := hone.one
    rw [hlnk, List.map_append, List.nodup_append] at hn
    have hdc : d ∈ c.geLnk := hes ▸ List.mem_cons_of_mem _ hd
    have hde : d.val ≠ e.val := by
      have hadd := hc.addrs
      rw [hes, List.map_cons, List.nodup_cons] at hadd
      intro h
      exact hadd.1 (List.mem_map.mpr ⟨d, hd, h⟩)
    have hkey : d.eKey ∈ (c.geLnk.filter fun d => d.val ≠ e.val).map (·.eKey) :=
      List.mem_map_of_mem (List.mem_filter.mpr ⟨hdc, by simpa using hde⟩)
    exact hn.2.2 d.eKey hkey w.2 (by simp) hdk

end Kept

variable {hashSize maxCnt : ℕ} {fHashCode : κ → ℕ} {ops : List (GElmOp κ)}

theorem kept_of_step {c c' : GElmShared κ} (op : GElmOp κ) (hc : Kept 0 c) (hop : c.Resumable op)
    (h : c.step op = .ok c') : Kept 0 c' := by
  rcases step_kept hc hop with he | he | ⟨u, hu, hk⟩
  · rw [he] at h
    cases h
  · rw [he] at h
    cases h
  · cases hu.symm.trans h
    exact hk

/-- As long as who returns from `CndWait` meets an element, and takes it over
only if no other is set for its key, each key has one element for all its
callers, and none that is gone is used. Where somebody does otherwise, there are
two elements for a key at once, or the head of the list is taken for one. -/
theorem gElm_oneEach (ops : List (GElmOp κ))
    (hops : Along step Resumable (init hashSize fHashCode maxCnt) ops) :
    (∀ c, run step (init hashSize fHashCode maxCnt) ops = .ok c → c.OneEach ∧
      ∀ op, ¬ c.Resumable op →
        c.step op = .error .noElement ∨ ∃ c', c.step op = .ok c' ∧ ¬ c'.OneEach) ∧
      ∀ e, run step (init hashSize fHashCode maxCnt) ops = .error e →
        e = .notHeld ∨ e = .notWaiting := by
  constructor
  · intro c hc
    have hk : Kept 0 c := run_invariant (fun _ op _ => kept_of_step op) (init_kept _ _ _) hops hc
    refine ⟨hk.oneEach, ?_⟩
    intro op hop
    cases op with
    | wake t bUnset bSet => exact not_oneEach_of_wake hk hop
    | get t k bUnset bSet => exact absurd trivial hop
    | put t a bFree bUnset => exact absurd trivial hop
  · intro e he
    refine run_error (E := fun e => e = .notHeld ∨ e = .notWaiting)
      (fun _ op _ => kept_of_step op) ?_ (init_kept _ _ _) hops he
    intro s op e hs hop he
    rcases step_kept hs hop with h | h | ⟨c', hc', -⟩
    · rw [h] at he
      exact .inl (Except.error.inj he).symm
    · rw [h] at he
      exact .inr (Except.error.inj he).symm
    · rw [hc'] at he
      cases he

/-- One element, and a second thread that waits for it. -/
def handedOver : List (GElmOp ℕ) :=
  [.get 1 7 true true, .get 2 8 true true, .put 1 0 false true, .wake 2 true true]

theorem gElm_oneEach_handedOver :
    ∃ c, run step (init 5 id 1) handedOver = .ok c ∧ c.OneEach ∧ c.holds = [⟨2, 8, 0⟩] := by
  have hops : Along step Resumable (init 5 id 1) handedOver := by
    refine ⟨trivial, fun c hc => ?_⟩
    cases hc
    refine ⟨trivial, fun c hc => ?_⟩
    cases hc
    refine ⟨trivial, fun c hc => ?_⟩
    cases hc
    refine ⟨?_, fun _ _ => trivial⟩
    intro w hw
    cases hw
    refine ⟨by decide, ?_⟩
    intro e es hes _ _ _ d hd
    cases hes
    cases hd
  have h := (gElm_oneEach handedOver hops).1 _ rfl
  exact ⟨_, rfl, h.1, rfl⟩

/-- Two threads wait with one key, and each takes over an element for it. -/
theorem gElm_not_oneEach :
    ¬ ∀ (hashSize maxCnt : ℕ) (fHashCode : ℕ → ℕ) (ops : List (GElmOp ℕ)) (c : GElmShared ℕ),
      1 ≤ maxCnt → run step (init hashSize fHashCode maxCnt) ops = .ok c → c.OneEach := by
  intro h
  have hone := h 5 2 id [.get 1 6 true true, .get 1 7 true true, .get 2 8 true true,
    .get 3 8 true true, .put 1 0 false true, .put 1 1 false true, .wake 2 true true,
    .wake 3 true true] _ (by decide) rfl
  have hsame := hone.same ⟨3, 8, 1⟩ List.mem_cons_self ⟨2, 8, 0⟩
    (List.mem_cons_of_mem _ List.mem_cons_self) rfl
  cases hsame

end GElmShared

end PaxosSolutions.NWGadget
