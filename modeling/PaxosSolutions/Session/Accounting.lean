import PaxosSolutions.Lib.Buckets
import PaxosSolutions.Session.OutOfBand
import Mathlib.Algebra.BigOperators.Group.List.Lemmas
import Mathlib.Algebra.BigOperators.Group.List.Basic
import Mathlib.Logic.Relation
import Mathlib.Data.List.Nodup
import Mathlib.Tactic.Linarith

/-!
# The memory account of the out-of-band data

`o_MemUsed` against the entries that are in memory. Making room moves entries
to files one by one, which takes as much from the account as from memory, so
their difference stays through the loop and is the entry that asked for room.
-/
namespace PaxosSolutions
open Lib NWGadget

/-- The bytes the entry has in memory. -/
def OutOfBand.mem (x : OutOfBand) : ℤ := x.oPData.elim 0 fun h => h.hLen

def OutOfBandCtrl.memory (c : OutOfBandCtrl) : ℤ := (c.oLnk.map OutOfBand.mem).sum

/-- What is not in memory is in a file. -/
def OutOfBandCtrl.Saved (c : OutOfBandCtrl) : Prop :=
  ∀ x ∈ c.oLnk, x.oPData = none → x.oBSaved = true

/-- The account is right, below the limit, and nothing is lost. -/
structure OutOfBandCtrl.Accounted (c : OutOfBandCtrl) : Prop where
  used : c.oMemUsed = c.memory
  below : c.oMemUsed < c.oMemLimit
  saved : c.Saved

/-- Ids are unique, and every message here or in a file fits into memory. -/
structure OutOfBandCtrl.Fits (c : OutOfBandCtrl) : Prop where
  nodup : (c.oLnk.map (·.oId)).Nodup
  data : ∀ x ∈ c.oLnk, ∀ h ∈ x.oPData, (h.hLen : ℤ) < c.oMemLimit
  file : ∀ i, ∀ h ∈ c.files i, (h.hLen : ℤ) < c.oMemLimit
  head : (headSize : ℤ) < c.oMemLimit

/-! ### One entry of a list with unique ids -/

theorem eq_of_oId_eq {l : List OutOfBand} (hn : (l.map (·.oId)).Nodup) {x y : OutOfBand}
    (hx : x ∈ l) (hy : y ∈ l) (h : x.oId = y.oId) : x = y :=
  List.inj_on_of_nodup_map hn hx hy h

theorem sum_map_set {l : List OutOfBand} (hn : (l.map (·.oId)).Nodup) {x : OutOfBand} (hx : x ∈ l)
    (f : OutOfBand → OutOfBand) :
    ((l.map fun y => if y.oId = x.oId then f y else y).map OutOfBand.mem).sum =
      (l.map OutOfBand.mem).sum - x.mem + (f x).mem := by
  induction l with
  | nil => cases hx
  | cons z l ih =>
      simp only [List.map_cons, List.nodup_cons, List.sum_cons] at hn ⊢
      rcases List.mem_cons.mp hx with hz | hx
      · subst hz
        have hl : (l.map fun y => if y.oId = x.oId then f y else y) = l := by
          apply List.map_congr_left (g := id) _ |>.trans (List.map_id l)
          intro y hy
          have hne : y.oId ≠ x.oId := by
            intro h
            exact hn.1 (List.mem_map.mpr ⟨y, hy, h⟩)
          simp [hne]
        rw [hl, if_pos rfl]
        omega
      · have hne : z.oId ≠ x.oId := by
          intro h
          exact hn.1 (List.mem_map.mpr ⟨x, hx, h.symm⟩)
        rw [ih hn.2 hx, if_neg hne]
        omega

namespace OutOfBandCtrl
variable {c c' : OutOfBandCtrl} {i : OutOfBandId} {x : OutOfBand} {f : OutOfBand → OutOfBand}

@[simp] theorem mem_get : c.get i = some x → x ∈ c.oLnk ∧ x.oId = i := by
  intro h
  unfold get at h
  exact ⟨List.mem_of_find?_eq_some h, by simpa using List.find?_some h⟩

theorem notMem_of_get (h : c.get i = none) : ∀ x ∈ c.oLnk, x.oId ≠ i := by
  simpa [get] using h

theorem set_oId (hf : ∀ y, (f y).oId = y.oId) :
    (c.set i f).oLnk.map (·.oId) = c.oLnk.map (·.oId) := by
  unfold set
  rw [List.map_map]
  apply List.map_congr_left
  intro y _
  simp only [Function.comp_apply]
  split
  · exact hf y
  · rfl

theorem mem_set {y : OutOfBand} :
    y ∈ (c.set i f).oLnk ↔ ∃ z ∈ c.oLnk, (if z.oId = i then f z else z) = y := by
  unfold set
  exact List.mem_map

/-- Two changes of one entry are one. -/
theorem set_set {g : OutOfBand → OutOfBand} (hf : ∀ y, (f y).oId = y.oId) :
    (c.set i f).set i g = c.set i fun y => g (f y) := by
  unfold set
  rw [List.map_map]
  congr 1
  apply List.map_congr_left
  intro y _
  simp only [Function.comp_apply]
  split
  · next hy => exact if_pos ((hf y).trans hy)
  · rfl

theorem memory_set (hn : (c.oLnk.map (·.oId)).Nodup) (hx : x ∈ c.oLnk) :
    (c.set x.oId f).memory = c.memory - x.mem + (f x).mem := sum_map_set hn hx f

end OutOfBandCtrl

/-! ### Making room -/

/-- One entry other than `i` leaves memory. -/
def Evicts (i : OutOfBandId) (c c' : OutOfBandCtrl) : Prop :=
  ∃ x h, x ∈ c.oLnk ∧ x.oId ≠ i ∧ x.oPData = some h ∧ c' = c.evict x h

/-- An entry once it has left memory. -/
def OutOfBand.out (x : OutOfBand) : OutOfBand := { x with oBSaved := true, oPData := none }

section Evict
variable {c c' : OutOfBandCtrl} {i : OutOfBandId} {x : OutOfBand} {h : PaxosSessionHead}

theorem evict_oLnk : (c.evict x h).oLnk = (c.set x.oId OutOfBand.out).oLnk := by
  unfold OutOfBandCtrl.evict
  split <;> rfl

@[simp] theorem evict_memUsed : (c.evict x h).oMemUsed = c.oMemUsed - h.hLen := by
  unfold OutOfBandCtrl.evict
  split <;> rfl

@[simp] theorem evict_memLimit : (c.evict x h).oMemLimit = c.oMemLimit := by
  unfold OutOfBandCtrl.evict
  split <;> rfl

theorem evict_files {j : OutOfBandId} {m : PaxosSessionHead} (hm : (c.evict x h).files j = some m) :
    c.files j = some m ∨ m = h := by
  unfold OutOfBandCtrl.evict at hm
  split at hm
  · exact .inl hm
  · simp only [OutOfBandCtrl.saveFile, OutOfBandCtrl.set, Function.update_apply] at hm
    split at hm
    · exact .inr (Option.some.inj hm).symm
    · exact .inl hm

theorem mem_evict {y : OutOfBand} :
    y ∈ (c.evict x h).oLnk ↔ ∃ z ∈ c.oLnk, (if z.oId = x.oId then z.out else z) = y := by
  rw [evict_oLnk]
  exact OutOfBandCtrl.mem_set

theorem Evicts.oId (he : Evicts i c c') : c'.oLnk.map (·.oId) = c.oLnk.map (·.oId) := by
  obtain ⟨x, h, -, -, -, rfl⟩ := he
  rw [evict_oLnk]
  exact OutOfBandCtrl.set_oId fun _ => rfl

/-- The account loses what memory loses. -/
theorem Evicts.memory (hn : (c.oLnk.map (·.oId)).Nodup) (he : Evicts i c c') :
    c'.memory - c'.oMemUsed = c.memory - c.oMemUsed := by
  obtain ⟨x, h, hx, -, hd, rfl⟩ := he
  have hset : (c.evict x h).memory = c.memory - x.mem + x.out.mem := by
    unfold OutOfBandCtrl.memory
    rw [evict_oLnk]
    exact OutOfBandCtrl.memory_set hn hx
  have hx : x.mem = h.hLen := by simp [OutOfBand.mem, hd]
  have ho : x.out.mem = 0 := rfl
  rw [hset, evict_memUsed, hx, ho]
  omega

theorem Evicts.memLimit (he : Evicts i c c') : c'.oMemLimit = c.oMemLimit := by
  obtain ⟨x, h, -, -, -, rfl⟩ := he
  exact evict_memLimit

theorem Evicts.fits (hc : c.Fits) (he : Evicts i c c') : c'.Fits := by
  have hn := he.oId
  obtain ⟨x, h, hx, -, hd, rfl⟩ := he
  constructor
  · rw [hn]
    exact hc.nodup
  · intro y hy m hm
    obtain ⟨z, hz, rfl⟩ := mem_evict.mp hy
    rw [evict_memLimit]
    split at hm
    · cases hm
    · exact hc.data z hz m hm
  · intro j m hm
    rw [evict_memLimit]
    rcases evict_files hm with hm | rfl
    · exact hc.file j m hm
    · exact hc.data x hx m hd
  · rw [evict_memLimit]
    exact hc.head

theorem Evicts.saved (hc : c.Saved) (he : Evicts i c c') : c'.Saved := by
  obtain ⟨x, h, -, -, -, rfl⟩ := he
  intro y hy hd
  obtain ⟨z, hz, rfl⟩ := mem_evict.mp hy
  split at hd
  · next hzx => rw [if_pos hzx]; rfl
  · next hzx =>
      rw [if_neg hzx]
      exact hc z hz hd

/-- The entry that asked for room stays. -/
theorem Evicts.stays (he : Evicts i c c') (hx : x ∈ c.oLnk) (hi : x.oId = i) : x ∈ c'.oLnk := by
  obtain ⟨y, h, -, hy, -, rfl⟩ := he
  have hne : x.oId ≠ y.oId := by
    intro h
    exact hy (h.symm.trans hi)
  exact mem_evict.mpr ⟨x, hx, if_neg hne⟩

end Evict

/-- The loop evicts until there is room, or until only `i` is in memory. -/
theorem makeRoom_evicts (len : ℤ) (i : OutOfBandId) {xs : List OutOfBand} {c : OutOfBandCtrl}
    (hn : (xs.map (·.oId)).Nodup) (hxs : ∀ x ∈ xs, x ∈ c.oLnk)
    (hrest : ∀ y ∈ c.oLnk, y.oId ≠ i → y.oPData ≠ none → y ∈ xs) :
    Relation.ReflTransGen (Evicts i) c (outOfBandMakeRoom len i xs c) ∧
      ((outOfBandMakeRoom len i xs c).oMemUsed + len < c.oMemLimit ∨
        ∀ y ∈ (outOfBandMakeRoom len i xs c).oLnk, y.oId ≠ i → y.oPData = none) := by
  induction xs generalizing c with
  | nil =>
      constructor
      · exact .refl
      · right
        intro y hy hi
        by_contra hd
        exact absurd (hrest y hy hi hd) (by simp)
  | cons x xs ih =>
      obtain ⟨hx, hn⟩ := List.nodup_cons.mp hn
      have htail : ∀ y ∈ xs, y ∈ c.oLnk := by
        intro y hy
        exact hxs y (List.mem_cons_of_mem _ hy)
      -- an entry that keeps its data is still ahead unless it is `x`
      have hnext (hx' : x.oId = i ∨ x.oPData = none) :
          ∀ y ∈ c.oLnk, y.oId ≠ i → y.oPData ≠ none → y ∈ xs := by
        intro y hy hi hd
        rcases List.mem_cons.mp (hrest y hy hi hd) with rfl | hy
        · rcases hx' with hx' | hx'
          · exact absurd hx' hi
          · exact absurd hx' hd
        · exact hy
      unfold outOfBandMakeRoom
      split_ifs with hroom hi
      · exact ⟨.refl, .inl hroom⟩
      · exact ih hn htail (hnext (.inl hi))
      · split
        · next hd => exact ih hn htail (hnext (.inr hd))
        · next h hd =>
            have he : Evicts i c (c.evict x h) := ⟨x, h, hxs x (by simp), hi, hd, rfl⟩
            have hne : ∀ y ∈ xs, y.oId ≠ x.oId := by
              intro y hy hyx
              exact hx (List.mem_map.mpr ⟨y, hy, hyx⟩)
            have hnext' : ∀ y ∈ (c.evict x h).oLnk, y.oId ≠ i → y.oPData ≠ none → y ∈ xs := by
              intro y hy hyi hyd
              obtain ⟨z, hz, rfl⟩ := mem_evict.mp hy
              split at hyd
              · exact absurd rfl hyd
              · next hzx =>
                  rw [if_neg hzx] at hyi ⊢
                  rcases List.mem_cons.mp (hrest z hz hyi hyd) with rfl | hz
                  · exact absurd rfl hzx
                  · exact hz
            obtain ⟨hrun, hend⟩ := ih hn
              (fun y hy => mem_evict.mpr ⟨y, htail y hy, if_neg (hne y hy)⟩) hnext'
            rw [evict_memLimit] at hend
            exact ⟨.head he hrun, hend⟩

/-! ### Caching an entry -/

/-- What every eviction keeps, a row of them keeps. -/
theorem Evicts.row {i : OutOfBandId} {c c' : OutOfBandCtrl} (hc : c.Fits) (hs : c.Saved)
    (h : Relation.ReflTransGen (Evicts i) c c') :
    c'.Fits ∧ c'.Saved ∧ c'.memory - c'.oMemUsed = c.memory - c.oMemUsed ∧
      c'.oMemLimit = c.oMemLimit ∧ ∀ x ∈ c.oLnk, x.oId = i → x ∈ c'.oLnk := by
  induction h with
  | refl => exact ⟨hc, hs, rfl, rfl, fun _ hx _ => hx⟩
  | tail _ he ih =>
      obtain ⟨hc, hs, hm, hl, hi⟩ := ih
      refine ⟨he.fits hc, he.saved hs, (he.memory hc.nodup).trans hm, he.memLimit.trans hl, ?_⟩
      intro x hx hxi
      exact he.stays (hi x hx hxi) hxi

theorem memory_of_alone {c : OutOfBandCtrl} {x : OutOfBand} (hn : (c.oLnk.map (·.oId)).Nodup)
    (hx : x ∈ c.oLnk) (h : ∀ y ∈ c.oLnk, y.oId ≠ x.oId → y.oPData = none) :
    c.memory = x.mem := by
  have hset : (c.set x.oId OutOfBand.out).memory = 0 := by
    apply List.sum_eq_zero
    intro n hn
    obtain ⟨y, hy, rfl⟩ := List.mem_map.mp hn
    obtain ⟨z, hz, rfl⟩ := OutOfBandCtrl.mem_set.mp hy
    split
    · rfl
    · next hzx => simp [OutOfBand.mem, h z hz hzx]
  rw [OutOfBandCtrl.memory_set hn hx] at hset
  have ho : x.out.mem = 0 := rfl
  omega

/-- An entry whose message the account misses is accounted for by
`_AcceptorOutOfBandCache`, and there is room for it. -/
theorem cache_accounted {i : OutOfBandId} {h : PaxosSessionHead} {c : OutOfBandCtrl}
    {x : OutOfBand} (hc : c.Fits) (hs : c.Saved) (hm : c.memory - c.oMemUsed = h.hLen)
    (hx : x ∈ c.oLnk) (hi : x.oId = i) (hd : x.oPData = some h) :
    ∃ c', outOfBandCache i h c = .ok c' ∧ c'.Accounted ∧ c'.Fits ∧
      c'.oMemLimit = c.oMemLimit := by
  subst hi
  obtain ⟨hrow, hend⟩ := makeRoom_evicts h.hLen x.oId hc.nodup
    (fun _ hx => hx) fun y hy _ _ => hy
  obtain ⟨hc', hs', hm', hl, hstay⟩ := Evicts.row hc hs hrow
  have hlen := hc.data x hx h hd
  have hroom : (outOfBandMakeRoom h.hLen x.oId c.oLnk c).oMemUsed + h.hLen < c.oMemLimit := by
    rcases hend with hend | hend
    · exact hend
    · have hmem := memory_of_alone hc'.nodup (hstay x hx rfl) hend
      have hxm : x.mem = h.hLen := by simp [OutOfBand.mem, hd]
      omega
  unfold outOfBandCache
  generalize outOfBandMakeRoom (h.hLen : ℤ) x.oId c.oLnk c = d at *
  have hcache : (if d.oMemUsed + h.hLen < d.oMemLimit
      then Except.ok { d with oMemUsed := d.oMemUsed + h.hLen }
      else Except.error OutOfBandFault.assertMem) =
        .ok { d with oMemUsed := d.oMemUsed + h.hLen } := by
    rw [hl]
    exact if_pos hroom
  refine ⟨{ d with oMemUsed := d.oMemUsed + h.hLen }, hcache, ?_, ?_, hl⟩
  · constructor
    · change d.oMemUsed + h.hLen = d.memory
      omega
    · change d.oMemUsed + h.hLen < d.oMemLimit
      rw [hl]
      exact hroom
    · exact hs'
  · exact ⟨hc'.nodup, hc'.data, hc'.file, hc'.head⟩

/-- The entry `i`, out of memory, gets the message `h` and is accounted for. -/
theorem cache_set_accounted {i : OutOfBandId} {h : PaxosSessionHead} {c : OutOfBandCtrl}
    {x : OutOfBand} {f : OutOfBand → OutOfBand} (hc : c.Fits) (hu : c.oMemUsed = c.memory)
    (hs : ∀ y ∈ c.oLnk, y.oId ≠ i → y.oPData = none → y.oBSaved = true)
    (hx : x ∈ c.oLnk) (hi : x.oId = i) (hd : x.oPData = none) (hf : ∀ y, (f y).oId = y.oId)
    (hfd : ∀ y, (f y).oPData = some h) (hlen : (h.hLen : ℤ) < c.oMemLimit) :
    ∃ c', outOfBandCache i h (c.set i f) = .ok c' ∧ c'.Accounted ∧ c'.Fits ∧
      c'.oMemLimit = c.oMemLimit := by
  subst hi
  have hfits : (c.set x.oId f).Fits := by
    constructor
    · rw [OutOfBandCtrl.set_oId hf]
      exact hc.nodup
    · intro y hy m hm
      obtain ⟨z, hz, rfl⟩ := OutOfBandCtrl.mem_set.mp hy
      split at hm
      · rw [hfd] at hm
        cases hm
        exact hlen
      · exact hc.data z hz m hm
    · exact hc.file
    · exact hc.head
  have hsaved : (c.set x.oId f).Saved := by
    intro y hy hyd
    obtain ⟨z, hz, rfl⟩ := OutOfBandCtrl.mem_set.mp hy
    split at hyd
    · rw [hfd] at hyd
      cases hyd
    · next hzx =>
        rw [if_neg hzx]
        exact hs z hz hzx hyd
  have hmem : (c.set x.oId f).memory - (c.set x.oId f).oMemUsed = h.hLen := by
    rw [OutOfBandCtrl.memory_set hc.nodup hx]
    have hxm : x.mem = 0 := by simp [OutOfBand.mem, hd]
    have hfm : (f x).mem = h.hLen := by simp [OutOfBand.mem, hfd]
    have hus : (c.set x.oId f).oMemUsed = c.oMemUsed := rfl
    omega
  have hin : f x ∈ (c.set x.oId f).oLnk := OutOfBandCtrl.mem_set.mpr ⟨x, hx, if_pos rfl⟩
  exact cache_accounted hfits hsaved hmem hin (hf x) (hfd x)

/-! ### The operations -/

section Operations
variable {c c' : OutOfBandCtrl} {i : OutOfBandId} {x : OutOfBand}

theorem alloc_fits (hc : c.Fits) (hi : c.get i = none) : (c.alloc i).Fits := by
  have hne := OutOfBandCtrl.notMem_of_get hi
  constructor
  · have hids : (c.alloc i).oLnk.map (·.oId) = c.oLnk.map (·.oId) ++ [i] := by
      simp [OutOfBandCtrl.alloc]
    rw [hids, List.nodup_append]
    refine ⟨hc.nodup, by simp, ?_⟩
    intro j hj k hk
    obtain ⟨y, hy, rfl⟩ := List.mem_map.mp hj
    rw [List.mem_singleton.mp hk]
    exact hne y hy
  · intro y hy h hh
    rcases List.mem_append.mp hy with hy | hy
    · exact hc.data y hy h hh
    · rw [List.mem_singleton.mp hy] at hh
      cases hh
  · exact hc.file
  · exact hc.head

theorem alloc_memory : (c.alloc i).memory = c.memory := by
  simp [OutOfBandCtrl.memory, OutOfBandCtrl.alloc, OutOfBand.mem]

theorem alloc_saved (hs : c.Saved) :
    ∀ y ∈ (c.alloc i).oLnk, y.oId ≠ i → y.oPData = none → y.oBSaved = true := by
  intro y hy hyi
  rcases List.mem_append.mp hy with hy | hy
  · exact hs y hy
  · rw [List.mem_singleton.mp hy] at hyi
    exact absurd rfl hyi

theorem mem_alloc : ({ oId := i } : OutOfBand) ∈ (c.alloc i).oLnk :=
  List.mem_append_right _ (List.mem_singleton_self _)

/-- A file that goes away leaves what is in memory alone. -/
theorem Fits.saveFile_none (hc : c.Fits) : (c.saveFile i none).Fits := by
  constructor
  · exact hc.nodup
  · exact hc.data
  · intro j h hh
    simp only [OutOfBandCtrl.saveFile, Function.update_apply] at hh
    split at hh
    · cases hh
    · exact hc.file j h hh
  · exact hc.head

theorem fit_lt {m : PaxosSessionHead} {limit : ℤ} (h : (headSize : ℤ) < limit) :
    ((m.fit limit).hLen : ℤ) < limit := by
  unfold PaxosSessionHead.fit
  split_ifs with hl
  · exact h
  · omega

@[simp] theorem fit_hId {m : PaxosSessionHead} {limit : ℤ} : (m.fit limit).hId = m.hId := by
  unfold PaxosSessionHead.fit
  split_ifs <;> rfl

/-- A push for an id that has no message in memory is accounted for. -/
theorem push_accounted {m : PaxosSessionHead} (now : ℤ) (ha : c.Accounted) (hc : c.Fits)
    (hi : ∀ x, c.get m.hId.outOfBand = some x → x.oPData = none) :
    ∃ c', outOfBandPush m now c = .ok c' ∧ c'.Accounted ∧ c'.Fits ∧
      c'.oMemLimit = c.oMemLimit := by
  unfold outOfBandPush
  simp only [fit_hId]
  cases hg : c.get m.hId.outOfBand with
  | none =>
      exact cache_set_accounted (alloc_fits hc hg) (ha.used.trans alloc_memory.symm)
        (alloc_saved ha.saved) mem_alloc rfl rfl (fun _ => rfl) (fun _ => rfl) (fit_lt hc.head)
  | some x =>
      obtain ⟨hx, hxi⟩ := OutOfBandCtrl.mem_get hg
      have hd := hi x hg
      by_cases hb : x.oBSaved = true
      · -- its file is removed, and the entry is not marked as saved when it is filled
        simp only [hb, if_true]
        rw [OutOfBandCtrl.set_set (f := fun x => { x with oBSaved := false }) fun _ => rfl]
        exact cache_set_accounted (Fits.saveFile_none hc) ha.used
          (fun y hy _ => ha.saved y hy) hx hxi hd (fun _ => rfl) (fun _ => rfl) (fit_lt hc.head)
      · simp only [hb]
        exact cache_set_accounted hc ha.used (fun y hy _ => ha.saved y hy) hx hxi hd
          (fun _ => rfl) (fun _ => rfl) (fit_lt hc.head)

theorem get_accounted (ha : c.Accounted) (hc : c.Fits) :
    ∃ c', outOfBandGet i c = .ok c' ∧ c'.Accounted ∧ c'.Fits ∧ c'.oMemLimit = c.oMemLimit := by
  unfold outOfBandGet
  cases hg : c.get i with
  | none =>
      cases hfile : c.files i.path with
      | none => exact ⟨c, rfl, ha, hc, rfl⟩
      | some h =>
          exact cache_set_accounted (alloc_fits hc hg) (ha.used.trans alloc_memory.symm)
            (alloc_saved ha.saved) mem_alloc rfl rfl (fun _ => rfl) (fun _ => rfl)
            (hc.file _ h hfile)
  | some x =>
      obtain ⟨hx, hxi⟩ := OutOfBandCtrl.mem_get hg
      cases hd : x.oPData with
      | some h => exact ⟨c, by simp [hd], ha, hc, rfl⟩
      | none =>
          cases hfile : c.files i.path with
          | none => exact ⟨c, by simp [hd], ha, hc, rfl⟩
          | some h =>
              simp only [hd]
              exact cache_set_accounted (f := fun x => { x with oPData := some h }) hc ha.used
                (fun y hy _ => ha.saved y hy) hx hxi hd (fun _ => rfl) (fun _ => rfl)
                (hc.file _ h hfile)

@[simp] theorem remove_oLnk :
    (outOfBandRemove x c).oLnk = c.oLnk.filter fun y => y.oId ≠ x.oId := by
  unfold outOfBandRemove
  simp only
  split <;> rfl

@[simp] theorem remove_memUsed : (outOfBandRemove x c).oMemUsed = c.oMemUsed - x.mem := by
  unfold outOfBandRemove OutOfBand.mem
  simp only
  split <;> rfl

@[simp] theorem remove_memLimit : (outOfBandRemove x c).oMemLimit = c.oMemLimit := by
  unfold outOfBandRemove
  simp only
  split <;> rfl

theorem mem_remove {y : OutOfBand} (hy : y ∈ (outOfBandRemove x c).oLnk) : y ∈ c.oLnk := by
  rw [remove_oLnk] at hy
  exact (List.mem_filter.mp hy).1

theorem remove_fits (hc : c.Fits) : (outOfBandRemove x c).Fits := by
  constructor
  · rw [remove_oLnk]
    exact (hc.nodup.sublist (List.filter_sublist.map _))
  · intro y hy
    rw [remove_memLimit]
    exact hc.data y (mem_remove hy)
  · intro j h hh
    rw [remove_memLimit]
    unfold outOfBandRemove at hh
    simp only at hh
    split at hh
    · exact (Fits.saveFile_none hc).file j h hh
    · exact hc.file j h hh
  · rw [remove_memLimit]
    exact hc.head

/-- `_OutOfBandRemove` takes the entry from the account with it. -/
theorem remove_accounted (ha : c.Accounted) (hc : c.Fits) (hx : x ∈ c.oLnk) :
    (outOfBandRemove x c).Accounted := by
  have hmem : c.memory = x.mem + (outOfBandRemove x c).memory := by
    have h := ((perm_cons_filter hc.nodup hx).map OutOfBand.mem).sum_eq
    rw [List.map_cons, List.sum_cons] at h
    unfold OutOfBandCtrl.memory
    rw [remove_oLnk]
    exact h
  have hnn : 0 ≤ x.mem := by
    unfold OutOfBand.mem
    cases x.oPData <;> simp
  have hu := ha.used
  have hb := ha.below
  constructor
  · rw [remove_memUsed]
    omega
  · rw [remove_memUsed, remove_memLimit]
    omega
  · intro y hy
    exact ha.saved y (mem_remove hy)

/-- One entry that meets `C` is removed. -/
def Removes (C : OutOfBand → Prop) (c c' : OutOfBandCtrl) : Prop :=
  ∃ x ∈ c.oLnk, C x ∧ c' = outOfBandRemove x c

theorem mem_remove_of_ne {y : OutOfBand} (hy : y ∈ c.oLnk) (h : y.oId ≠ x.oId) :
    y ∈ (outOfBandRemove x c).oLnk := by
  rw [remove_oLnk]
  exact List.mem_filter.mpr ⟨hy, by simpa using h⟩

theorem collect_removes (now : ℤ) (backSeq : UInt32) {xs : List OutOfBand}
    (hn : (xs.map (·.oId)).Nodup) (hxs : ∀ x ∈ xs, x ∈ c.oLnk) :
    Relation.ReflTransGen (Removes fun x => x.oBValidate = true ∧ cmp32 x.oSeq backSeq < 0) c
      (outOfBandCollect now backSeq xs c) := by
  induction xs generalizing c with
  | nil => exact .refl
  | cons x xs ih =>
      obtain ⟨hx, hn⟩ := List.nodup_cons.mp hn
      have htail : ∀ y ∈ xs, y ∈ c.oLnk := by
        intro y hy
        exact hxs y (List.mem_cons_of_mem _ hy)
      unfold outOfBandCollect
      split_ifs with hlast hval hseq
      · exact .refl
      · exact ih hn htail
      · exact .refl
      · apply Relation.ReflTransGen.head ⟨x, hxs x (by simp), by simpa [hval] using hseq, rfl⟩
        apply ih hn
        intro y hy
        apply mem_remove_of_ne (htail y hy)
        intro h
        exact hx (List.mem_map.mpr ⟨y, hy, h⟩)

theorem purge_removes {s : SessionId} {xs : List OutOfBand} (hn : (xs.map (·.oId)).Nodup)
    (hxs : ∀ x ∈ xs, x ∈ c.oLnk) :
    Relation.ReflTransGen (Removes fun x => x.oBValidate = false ∧ s = x.oId.toSessionId) c
      (outOfBandPurge s xs c) := by
  induction xs generalizing c with
  | nil => exact .refl
  | cons x xs ih =>
      obtain ⟨hx, hn⟩ := List.nodup_cons.mp hn
      have htail : ∀ y ∈ xs, y ∈ c.oLnk := by
        intro y hy
        exact hxs y (List.mem_cons_of_mem _ hy)
      unfold outOfBandPurge
      split_ifs with h
      · apply Relation.ReflTransGen.head ⟨x, hxs x (by simp), h, rfl⟩
        apply ih hn
        intro y hy
        apply mem_remove_of_ne (htail y hy)
        intro h
        exact hx (List.mem_map.mpr ⟨y, hy, h⟩)
      · exact ih hn htail

theorem removes_accounted {C : OutOfBand → Prop} (ha : c.Accounted) (hc : c.Fits)
    (h : Relation.ReflTransGen (Removes C) c c') : c'.Accounted ∧ c'.Fits := by
  induction h with
  | refl => exact ⟨ha, hc⟩
  | tail _ hr ih =>
      obtain ⟨x, hx, -, rfl⟩ := hr
      exact ⟨remove_accounted ih.1 ih.2 hx, remove_fits ih.2⟩

theorem place_perm {cnt : ℕ} {ps l : List OutOfBand} (h : outOfBandPlace x cnt ps = .ok l) :
    l.Perm (x :: ps) := by
  induction ps generalizing cnt l with
  | nil =>
      unfold outOfBandPlace at h
      split at h
      · cases h
      · cases h
        exact .refl _
  | cons p ps ih =>
      -- the entries that are passed over stay where they are
      have hpass {n : ℕ} (h : (outOfBandPlace x n ps).map (p :: ·) = .ok l) :
          l.Perm (x :: p :: ps) := by
        cases hr : outOfBandPlace x n ps with
        | error e =>
            rw [hr] at h
            cases h
        | ok r =>
            rw [hr] at h
            cases h
            exact ((ih hr).cons p).trans (List.Perm.swap x p ps)
      unfold outOfBandPlace at h
      split_ifs at h
      · exact hpass h
      · cases h
        exact .refl _
      · exact hpass h

/-- Moving an entry to its place changes nothing that is accounted for. -/
theorem move_accounted {seq : UInt32} (ha : c.Accounted) (hc : c.Fits) (hx : x ∈ c.oLnk)
    (h : outOfBandMove seq x c = .ok c') :
    c'.Accounted ∧ c'.Fits ∧ c'.oMemLimit = c.oMemLimit := by
  unfold outOfBandMove at h
  split_ifs at h
  · cases h
    exact ⟨ha, hc, rfl⟩
  · simp only at h
    cases hp : outOfBandPlace { x with oBValidate := true, oSeq := seq } 0
        (c.oLnk.filter fun y => y.oId ≠ x.oId).reverse with
    | error e =>
        rw [hp] at h
        cases h
    | ok l =>
        rw [hp] at h
        cases h
        have hperm : l.reverse.Perm ({ x with oBValidate := true, oSeq := seq } ::
            c.oLnk.filter fun y => y.oId ≠ x.oId) :=
          (l.reverse_perm.trans (place_perm hp)).trans ((List.reverse_perm _).cons _)
        have hold := perm_cons_filter hc.nodup hx
        have hids : (l.reverse.map (·.oId)).Perm (c.oLnk.map (·.oId)) :=
          (hperm.map (·.oId)).trans (hold.map (·.oId)).symm
        have hmem : (l.reverse.map OutOfBand.mem).sum = c.memory :=
          (hperm.map _).sum_eq.trans (hold.map OutOfBand.mem).sum_eq.symm
        have hin : ∀ y ∈ l.reverse, ∃ z ∈ c.oLnk, y.oPData = z.oPData ∧ y.oBSaved = z.oBSaved := by
          intro y hy
          rcases List.mem_cons.mp (hperm.mem_iff.mp hy) with rfl | hy
          · exact ⟨x, hx, rfl, rfl⟩
          · exact ⟨y, (List.mem_filter.mp hy).1, rfl, rfl⟩
        refine ⟨⟨ha.used.trans hmem.symm, ha.below, ?_⟩, ⟨hids.nodup_iff.mpr hc.nodup, ?_,
          hc.file, hc.head⟩, rfl⟩
        · intro y hy hd
          obtain ⟨z, hz, hzd, hzs⟩ := hin y hy
          rw [hzs]
          exact ha.saved z hz (hzd.symm.trans hd)
        · intro y hy h hh
          obtain ⟨z, hz, hzd, -⟩ := hin y hy
          rw [hzd] at hh
          exact hc.data z hz h hh

/-- A move stops on the `ABORT` of the search only. -/
theorem move_fault {seq : UInt32} {e : OutOfBandFault} (h : outOfBandMove seq x c = .error e) :
    e = .abortValidate := by
  have hplace : ∀ (y : OutOfBand) (ps : List OutOfBand) (n : ℕ),
      outOfBandPlace y n ps = .error e → e = .abortValidate := by
    intro y ps
    induction ps with
    | nil =>
        intro n h
        unfold outOfBandPlace at h
        split at h
        · cases h
          rfl
        · cases h
    | cons p ps ih =>
        have hpass {n : ℕ} (h : (outOfBandPlace y n ps).map (p :: ·) = .error e) :
            e = .abortValidate := by
          cases hr : outOfBandPlace y n ps with
          | error d =>
              rw [hr] at h
              cases h
              exact ih n hr
          | ok r =>
              rw [hr] at h
              cases h
        intro n h
        unfold outOfBandPlace at h
        split_ifs at h
        · exact hpass h
        · cases h
          rfl
        · exact hpass h
  unfold outOfBandMove at h
  split_ifs at h
  simp only at h
  cases hp : outOfBandPlace { x with oBValidate := true, oSeq := seq } 0
      (c.oLnk.filter fun y => y.oId ≠ x.oId).reverse with
  | error d =>
      rw [hp] at h
      cases h
      exact hplace _ _ _ hp
  | ok l =>
      rw [hp] at h
      cases h

end Operations

/-! ### Runs -/

/-- A message is pushed only for an id that has none in memory. -/
def NoReplace (c : OutOfBandCtrl) : OutOfBandOp → Prop
  | .push m _ | .pulled _ m _ => ∀ x, c.get m.hId.outOfBand = some x → x.oPData = none
  | _ => True

/-- What one operation does to the account under `NoReplace`. -/
theorem step_accounted {c : OutOfBandCtrl} {op : OutOfBandOp} (ha : c.Accounted) (hc : c.Fits)
    (hop : NoReplace c op) :
    (∃ c', outOfBandStep c op = .ok c' ∧ c'.Accounted ∧ c'.Fits) ∨
      outOfBandStep c op = .error .abortValidate := by
  have hvalidate {seq : UInt32} {i : OutOfBandId} {c : OutOfBandCtrl} (ha : c.Accounted)
      (hc : c.Fits) :
      (∃ c', outOfBandValidate seq i c = .ok c' ∧ c'.Accounted ∧ c'.Fits) ∨
        outOfBandValidate seq i c = .error .abortValidate := by
    unfold outOfBandValidate
    cases hg : c.get i with
    | none => exact .inl ⟨c, rfl, ha, hc⟩
    | some x =>
        simp only
        cases hm : outOfBandMove seq x c with
        | ok c' =>
            have h := move_accounted ha hc (OutOfBandCtrl.mem_get hg).1 hm
            exact .inl ⟨c', rfl, h.1, h.2.1⟩
        | error e =>
            rw [move_fault hm]
            exact .inr rfl
  cases op with
  | push m now =>
      obtain ⟨c', h, ha, hc, -⟩ := push_accounted now ha hc hop
      exact .inl ⟨c', h, ha, hc⟩
  | get i =>
      obtain ⟨c', h, ha, hc, -⟩ := get_accounted (i := i) ha hc
      exact .inl ⟨c', h, ha, hc⟩
  | validate seq i => exact hvalidate ha hc
  | pulled seq m now =>
      obtain ⟨d, hd, had, hcd, -⟩ := push_accounted now ha hc hop
      unfold outOfBandStep outOfBandPulled
      simp only [hd]
      exact hvalidate had hcd
  | collect now backSeq =>
      have h := removes_accounted ha hc (collect_removes now backSeq hc.nodup
        fun _ hx => hx)
      exact .inl ⟨_, rfl, h.1, h.2⟩
  | purge s =>
      have h := removes_accounted ha hc (purge_removes (s := s) hc.nodup fun _ hx => hx)
      exact .inl ⟨_, rfl, h.1, h.2⟩

/-- What an acceptor starts with: no entries, and the files an earlier one left. -/
def OutOfBandCtrl.start (limit retain : ℤ) (files : OutOfBandId → Option PaxosSessionHead) :
    OutOfBandCtrl :=
  { oMemLimit := limit, retain := retain, files := files }

/-- A message of `len` bytes that client `n` pushes as number 1. -/
def pushed (n len : ℕ) : OutOfBandOp :=
  .push { hCmd := .app 0, hId := { iPid := n, iSeq := 1 }, hLen := len } 0

end PaxosSolutions
