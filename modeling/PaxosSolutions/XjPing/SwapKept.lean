import PaxosSolutions.XjPing.SwapTables

/-!
# Swapping is transparent

Each slot of a table is in memory with the record that is wanted, or its buffer is under a
live handle of the swap file with all the records that are wanted of it. A buffer that goes
out and one that comes back keep this, and the loops over the buffers do as well.
-/
namespace PaxosSolutions.XjPing
open Lib

/-! ### The swap file -/

section SwapFile
variable {s : SwapState} {cs : List Cell} {addrp d : List UInt8} {hp : ℕ}

/-- No two live handles are the same. -/
theorem SwapInv.keys (h : SwapInv s cs) : s.live.Pairwise fun a b => a.1 ≠ b.1 := by
  obtain ⟨hs, -, -, -, -, hapart, -⟩ := h.integrity
  refine hapart.imp ?_
  intro a b hab heq
  omega

theorem lookup_of_mem {live : List (ℕ × List UInt8)} (hk : live.Pairwise fun a b => a.1 ≠ b.1)
    (hm : (hp, d) ∈ live) : live.lookup hp = some d := by
  induction live with
  | nil => cases hm
  | cons p live ih =>
      obtain ⟨hp', hk⟩ := List.pairwise_cons.mp hk
      rcases List.mem_cons.mp hm with rfl | hm
      · rw [List.lookup_cons, beq_self_eq_true]
      · rw [List.lookup_cons, beq_eq_false_iff_ne.mpr (hp' _ hm).symm]
        exact ih hk hm

/-- The swap file after a buffer went out -/
def SwapState.afterOut (s : SwapState) (addrp : List UInt8) (r : ℕ × File) : SwapState :=
  { s with fd := r.2, live := (r.1, addrp) :: s.live }

/-- The swap file after a buffer came back -/
def SwapState.afterIn (s : SwapState) (hp : ℕ) (d : List UInt8) (fd : File) : SwapState where
  fd := fd
  live := s.live.filter (·.1 ≠ hp)
  got := ((s.live.lookup hp).getD [], d, (d.length : ℤ)) :: s.got

theorem xjSwapOut_kept (h : SwapInv s cs) (hcall : SwapCall s (.swapOut addrp))
    (hsafe : SwapSafe s (.swapOut addrp)) : ∃ r cs', xjSwapOut s.fd addrp = .ok r ∧
      swapStep s (.swapOut addrp) = .ok (s.afterOut addrp r) ∧ SwapInv (s.afterOut addrp r) cs' ∧
      ∀ p ∈ s.live, r.1 ≠ p.1 := by
  obtain ⟨u, cs', hstep, hinv⟩ := swapOut_inv h hcall hsafe
  have hstep' := hstep
  rw [swapStep] at hstep'
  obtain ⟨r, hr, hu⟩ := except_map_ok hstep'
  change s.afterOut addrp r = u at hu
  subst hu
  exact ⟨r, cs', hr, hstep, hinv, (List.pairwise_cons.mp hinv.keys).1⟩

theorem xjSwapIn_kept (h : SwapInv s cs) (hm : (hp, d) ∈ s.live) (hsafe : SwapSafe s (.swapIn hp)) :
    ∃ fd cs', xjSwapIn s.fd hp = .ok ((d, (d.length : ℤ)), fd) ∧
      swapStep s (.swapIn hp) = .ok (s.afterIn hp d fd) ∧ SwapInv (s.afterIn hp d fd) cs' := by
  have hlookup := lookup_of_mem h.keys hm
  have hcall : SwapCall s (.swapIn hp) := by
    change (s.live.lookup hp).isSome = true
    rw [hlookup]
    rfl
  obtain ⟨u, cs', hstep, hinv⟩ := swapIn_inv h hcall hsafe
  have hstep' := hstep
  rw [swapStep, hlookup] at hstep'
  obtain ⟨⟨got, fd⟩, hr, hu⟩ := except_map_ok hstep'
  have hgot : got = (d, (d.length : ℤ)) := by
    refine hinv.got (d, got) ?_
    rw [← hu]
    exact List.mem_cons_self
  have hafter : u = s.afterIn hp d fd := by
    unfold SwapState.afterIn
    rw [hlookup, ← hu, hgot]
    rfl
  rw [hafter] at hstep hinv
  rw [hgot] at hr
  exact ⟨fd, cs', hr, hstep, hinv⟩

end SwapFile

/-! ### The buffers of a table -/

section Groups
variable {td td' : SwapTbl} {s i k e : ℕ}

theorem xjSwapFindFree_some (h : xjSwapFindFree td s = some i) :
    s ≤ i ∧ i < td.tRecNum ∧ (td.tRec i).recFree = true ∧
      ∀ k, s ≤ k → k < i → (td.tRec k).recFree = false := by
  obtain ⟨hfree, hmem, hbefore⟩ := List.find?_range'_eq_some.mp h
  obtain ⟨hle, hlt⟩ := List.mem_range'_1.mp hmem
  refine ⟨hle, by omega, hfree, ?_⟩
  intro k hk hki
  have hnot := hbefore k hk hki
  rw [Bool.not_eq_true'] at hnot
  exact hnot

theorem xjSwapFindFree_none (h : xjSwapFindFree td s = none) (hle : s ≤ k) (hlt : k < td.tRecNum) :
    (td.tRec k).recFree = false := by
  have hnot := List.find?_range'_eq_none.mp h k hle (by omega)
  rw [Bool.not_eq_true'] at hnot
  exact hnot

theorem xjSwapFindFree_congr (hnum : td'.tRecNum = td.tRecNum)
    (hfree : ∀ i, s ≤ i → (td'.tRec i).recFree = (td.tRec i).recFree) :
    xjSwapFindFree td' s = xjSwapFindFree td s := by
  unfold xjSwapFindFree
  rw [hnum]
  rw [← List.head?_filter, ← List.head?_filter]
  refine congrArg _ (List.filter_congr ?_)
  intro i hi
  exact hfree i (List.mem_range'_1.mp hi).1

/-- Between the first slot of a buffer and its end no other begins. -/
theorem SwapTbl.groupEnd_spec (hs : s < td.tRecNum) : s < td.groupEnd s ∧ td.groupEnd s ≤ td.tRecNum ∧
    (∀ k, s < k → k < td.groupEnd s → (td.tRec k).recFree = false) ∧
      (td.groupEnd s < td.tRecNum → (td.tRec (td.groupEnd s)).recFree = true) := by
  unfold SwapTbl.groupEnd
  cases hfind : xjSwapFindFree td (s + 1) with
  | none =>
      refine ⟨hs, Nat.le_refl _, ?_, fun h => absurd h (Nat.lt_irrefl _)⟩
      intro k hk hlt
      exact xjSwapFindFree_none hfind hk hlt
  | some e =>
      obtain ⟨hle, hlt, hfree, hbetween⟩ := xjSwapFindFree_some hfind
      exact ⟨hle, Nat.le_of_lt hlt, fun k hk hke => hbetween k hk hke, fun _ => hfree⟩

theorem SwapTbl.groupEnd_congr (hnum : td'.tRecNum = td.tRecNum)
    (hfree : ∀ i, (td'.tRec i).recFree = (td.tRec i).recFree) : td'.groupEnd s = td.groupEnd s := by
  unfold SwapTbl.groupEnd
  rw [xjSwapFindFree_congr hnum fun i _ => hfree i, hnum]

/-- The first slot of the buffer that a slot is in -/
theorem SwapTbl.freeBack_some (hfirst : (td.tRec 0).recFree = true) (s : ℕ) :
    ∃ b, td.freeBack s = some b ∧ b ≤ s ∧ (td.tRec b).recFree = true ∧
      ∀ k, b < k → k ≤ s → (td.tRec k).recFree = false := by
  induction s with
  | zero =>
      refine ⟨0, ?_, Nat.le_refl 0, hfirst, fun k hk hle => by omega⟩
      rw [SwapTbl.freeBack, if_pos hfirst]
  | succ s ih =>
      rw [SwapTbl.freeBack]
      by_cases hfree : (td.tRec (s + 1)).recFree = true
      · rw [if_pos hfree]
        exact ⟨s + 1, rfl, Nat.le_refl _, hfree, fun k hk hle => by omega⟩
      · obtain ⟨b, hb, hle, hfreeb, hbetween⟩ := ih
        rw [if_neg hfree]
        refine ⟨b, hb, by omega, hfreeb, ?_⟩
        intro k hk hks
        by_cases hlast : k = s + 1
        · rw [hlast]
          exact Bool.eq_false_iff.mpr hfree
        · exact hbetween k hk (by omega)

/-- Record `j` of a row of records -/
theorem SwapTbl.part_flatMap {f : ℕ → List UInt8} {n j : ℕ}
    (hf : ∀ k, s ≤ k → k < s + n → (f k).length = td.tRecSize) (hj : j < n) :
    td.part ((List.range' s n).flatMap f) j = f (s + j) := by
  unfold SwapTbl.part
  induction n generalizing s j with
  | zero => omega
  | succ n ih =>
      have hlen := hf s (Nat.le_refl s) (by omega)
      rw [List.range'_succ, List.flatMap_cons]
      cases j with
      | zero =>
          rw [Nat.zero_mul, List.drop_zero, ← hlen, List.take_left, Nat.add_zero]
      | succ j =>
          have hskip : (j + 1) * td.tRecSize = (f s).length + j * td.tRecSize := by
            rw [hlen, Nat.succ_mul, Nat.add_comm]
          rw [hskip, List.drop_length_add_append, ih (fun k hk hlt => hf k (by omega) (by omega)) (by omega),
            Nat.add_right_comm, Nat.add_assoc]

theorem flatMap_range'_length {f : ℕ → List UInt8} {n size : ℕ}
    (hf : ∀ k, s ≤ k → k < s + n → (f k).length = size) :
    ((List.range' s n).flatMap f).length = n * size := by
  induction n generalizing s with
  | zero => rw [Nat.zero_mul]; rfl
  | succ n ih =>
      rw [List.range'_succ, List.flatMap_cons, List.length_append, hf s (Nat.le_refl s) (by omega),
        ih fun k hk hlt => hf k (by omega) (by omega), Nat.succ_mul, Nat.add_comm]

end Groups

/-! ### The invariant -/

/-- The records that are wanted of the buffer that begins at slot `i` -/
def SwapTbl.wanted (z : SwapTbl) (i : ℕ) : List UInt8 :=
  (List.range' i (z.groupEnd i - i)).flatMap fun k => (z.want k).bytes

/-- A slot of a buffer in memory -/
structure SlotHere (z : SwapTbl) (i : ℕ) (r : SwapRec) : Prop where
  swap : r.rStat.swap = false
  there : r.rHead.there = true
  length : r.rHead.data.length = z.tRecSize
  loaded : r.rStat.cache = true → r.view = z.want i
  never : r.rStat.cache = false → z.want i = z.fileView i
  outs : r.outs = 0

/-- A slot of a buffer that is swapped out -/
structure SlotOut (z : SwapTbl) (i : ℕ) (r : SwapRec) : Prop where
  swap : r.rStat.swap = true
  used : r.rStat.used = (z.want i).used
  dirty : r.rStat.dirty = (z.want i).dirty
  length : (z.want i).bytes.length = z.tRecSize
  cksum : (z.want i).used = true → cksumOk (z.want i).bytes = true
  outs : r.outs = 1

/-- A table, and how it was at the start -/
structure TblKept (z td : SwapTbl) (live : List (ℕ × List UInt8)) : Prop where
  num : td.tRecNum = z.tRecNum
  size : td.tRecSize = z.tRecSize
  recs : td.recs = z.recs
  free : ∀ i, (td.tRec i).recFree = (z.tRec i).recFree
  slot : ∀ i < td.tRecNum, SlotHere z i (td.tRec i) ∨ SlotOut z i (td.tRec i)
  same : ∀ i, i + 1 < td.tRecNum → (td.tRec (i + 1)).recFree = false →
    (td.tRec (i + 1)).rStat.swap = (td.tRec i).rStat.swap
  handle : ∀ i < td.tRecNum, (td.tRec i).rStat.swap = true → (td.tRec i).recFree = true →
    ∃ hp, (td.tRec i).rHead = .handle hp ∧ (hp, z.wanted i) ∈ live
  gone : ∀ i < td.tRecNum, (td.tRec i).rStat.swap = true → (td.tRec i).recFree = false →
    (td.tRec i).rHead = .gone
  all : ∀ i < td.tRecNum, (td.tRec i).rStat.swap = true → ∀ j < td.tRecNum,
    (td.tRec j).rStat.cache = true ∨ (td.tRec j).rStat.swap = true

/-- The tables and the swap file, and how the tables were at the start -/
structure SvcKept (z svc : SwapSvc) : Prop where
  tbls : ∀ t, TblKept (z.tbls t) (svc.tbls t) svc.swap.live
  apart : ∀ t t' i i' hp, i < (svc.tbls t).tRecNum → i' < (svc.tbls t').tRecNum →
    ((svc.tbls t).tRec i).rHead = .handle hp → ((svc.tbls t').tRec i').rHead = .handle hp →
    t = t' ∧ i = i'
  file : ∃ cs, SwapInv svc.swap cs
  seen : ∀ x ∈ svc.seen, x.2 = (z.tbls x.1.1).want x.1.2

section Kept
variable {z td td' : SwapTbl} {live live' : List (ℕ × List UInt8)} {i k s e hp : ℕ} {r : SwapRec}

theorem TblKept.here (h : TblKept z td live) (hi : i < td.tRecNum) (hswap : (td.tRec i).rStat.swap = false) :
    SlotHere z i (td.tRec i) := by
  rcases h.slot i hi with hhere | hout
  · exact hhere
  · rw [hout.swap] at hswap
    cases hswap

theorem TblKept.out (h : TblKept z td live) (hi : i < td.tRecNum) (hswap : (td.tRec i).rStat.swap = true) :
    SlotOut z i (td.tRec i) := by
  rcases h.slot i hi with hhere | hout
  · rw [hhere.swap] at hswap
    cases hswap
  · exact hout

/-- A slot with a handle is the first of a buffer that is swapped out, and the handle is live. -/
theorem TblKept.held (h : TblKept z td live) (hi : i < td.tRecNum) (hhp : (td.tRec i).rHead = .handle hp) :
    (td.tRec i).rStat.swap = true ∧ (td.tRec i).recFree = true ∧ (hp, z.wanted i) ∈ live := by
  rcases h.slot i hi with hhere | hout
  · have hthere := hhere.there
    rw [hhp] at hthere
    cases hthere
  · cases hfree : (td.tRec i).recFree with
    | false =>
        have hgone := h.gone i hi hout.swap hfree
        rw [hhp] at hgone
        cases hgone
    | true =>
        obtain ⟨hp', hhp', hmem⟩ := h.handle i hi hout.swap hfree
        rw [hhp] at hhp'
        cases hhp'
        exact ⟨hout.swap, rfl, hmem⟩

/-- Handles that stay live -/
theorem TblKept.keep (h : TblKept z td live)
    (hlive : ∀ i < td.tRecNum, ∀ hp, (td.tRec i).rHead = .handle hp → ∀ d, (hp, d) ∈ live → (hp, d) ∈ live') :
    TblKept z td live' :=
  { h with
    handle := by
      intro i hi hswap hfree
      obtain ⟨hp, hhp, hmem⟩ := h.handle i hi hswap hfree
      exact ⟨hp, hhp, hlive i hi hp hhp _ hmem⟩ }

theorem TblKept.groupEnd (h : TblKept z td live) (s : ℕ) : td.groupEnd s = z.groupEnd s :=
  SwapTbl.groupEnd_congr h.num h.free

/-- The slots of a buffer are swapped out together. -/
theorem TblKept.group (h : TblKept z td live) (hs : s < td.tRecNum) (hle : s ≤ k) (hlt : k < td.groupEnd s) :
    (td.tRec k).rStat.swap = (td.tRec s).rStat.swap := by
  obtain ⟨-, hnum, hbetween, -⟩ := SwapTbl.groupEnd_spec hs
  induction k with
  | zero => rw [Nat.le_zero.mp hle]
  | succ k ih =>
      by_cases heq : s = k + 1
      · rw [heq]
      · rw [h.same k (by omega) (hbetween (k + 1) (by omega) hlt)]
        exact ih (by omega) (by omega)

end Kept

section Change
variable {z svc svc' : SwapSvc} {t s e h : ℕ} {td' : SwapTbl}

/-- One table changes. Its handles are those it had, but for one that is new. -/
theorem SvcKept.change (hk : SvcKept z svc) (htbls : svc'.tbls = Function.update svc.tbls t td')
    (htd : TblKept (z.tbls t) td' svc'.swap.live)
    (hhandle : ∀ i < td'.tRecNum, ∀ hp, (td'.tRec i).rHead = .handle hp →
      ((svc.tbls t).tRec i).rHead = .handle hp ∨ (i = s ∧ ∀ p ∈ svc.swap.live, hp ≠ p.1))
    (hlive : ∀ t', t' ≠ t → ∀ i < (svc.tbls t').tRecNum, ∀ hp, ((svc.tbls t').tRec i).rHead = .handle hp →
      ∀ d, (hp, d) ∈ svc.swap.live → (hp, d) ∈ svc'.swap.live)
    (hfile : ∃ cs, SwapInv svc'.swap cs) (hseen : svc'.seen = svc.seen) : SvcKept z svc' := by
  have hself : svc'.tbls t = td' := by rw [htbls, Function.update_self]
  have hother : ∀ t', t' ≠ t → svc'.tbls t' = svc.tbls t' := by
    intro t' ht
    rw [htbls, Function.update_of_ne ht]
  have hnum : td'.tRecNum = (svc.tbls t).tRecNum := htd.num.trans (hk.tbls t).num.symm
  -- a handle is where it was, or it is new
  have hold : ∀ t' i hp, i < (svc'.tbls t').tRecNum → ((svc'.tbls t').tRec i).rHead = .handle hp →
      (i < (svc.tbls t').tRecNum ∧ ((svc.tbls t').tRec i).rHead = .handle hp ∧ ∃ p ∈ svc.swap.live, hp = p.1) ∨
        (t' = t ∧ i = s ∧ ∀ p ∈ svc.swap.live, hp ≠ p.1) := by
    intro t' i hp hi hhp
    by_cases ht : t' = t
    · subst ht
      rw [hself] at hi hhp
      rcases hhandle i hi hp hhp with hhp' | ⟨his, hnew⟩
      · rw [hnum] at hi
        exact .inl ⟨hi, hhp', _, ((hk.tbls t').held hi hhp').2.2, rfl⟩
      · exact .inr ⟨rfl, his, hnew⟩
    · rw [hother t' ht] at hi hhp
      exact .inl ⟨hi, hhp, _, ((hk.tbls t').held hi hhp).2.2, rfl⟩
  refine ⟨?_, ?_, hfile, ?_⟩
  · intro t'
    by_cases ht : t' = t
    · subst ht
      rw [hself]
      exact htd
    · rw [hother t' ht]
      exact (hk.tbls t').keep (hlive t' ht)
  · intro t₁ t₂ i₁ i₂ hp hi₁ hi₂ h₁ h₂
    rcases hold t₁ i₁ hp hi₁ h₁ with ⟨hi₁, h₁, p₁, hp₁, heq₁⟩ | ⟨ht₁, hs₁, hnew₁⟩
    · rcases hold t₂ i₂ hp hi₂ h₂ with ⟨hi₂, h₂, -⟩ | ⟨-, -, hnew₂⟩
      · exact hk.apart t₁ t₂ i₁ i₂ hp hi₁ hi₂ h₁ h₂
      · exact absurd heq₁ (hnew₂ p₁ hp₁)
    · rcases hold t₂ i₂ hp hi₂ h₂ with ⟨-, -, p₂, hp₂, heq₂⟩ | ⟨ht₂, hs₂, -⟩
      · exact absurd heq₂ (hnew₁ p₂ hp₂)
      · exact ⟨ht₁.trans ht₂.symm, hs₁.trans hs₂.symm⟩
  · rw [hseen]
    exact hk.seen

/-- The buffer of records in memory that were all loaded -/
theorem TblKept.buffer {z td : SwapTbl} {live : List (ℕ × List UInt8)} (h : TblKept z td live)
    (hs : s < td.tRecNum) (hgroup : ∀ i, s ≤ i → i < td.groupEnd s →
      (td.tRec i).rStat.cache = true ∧ (td.tRec i).rStat.swap = false) :
    td.buffer s (td.groupEnd s) = some (z.wanted s) := by
  obtain ⟨-, hnum, -⟩ := SwapTbl.groupEnd_spec hs
  have hhere : ∀ i ∈ List.range' s (td.groupEnd s - s), SlotHere z i (td.tRec i) ∧
      (td.tRec i).rStat.cache = true := by
    intro i hi
    obtain ⟨hle, hlt⟩ := List.mem_range'_1.mp hi
    obtain ⟨hcache, hswap⟩ := hgroup i hle (by omega)
    exact ⟨h.here (by omega) hswap, hcache⟩
  unfold SwapTbl.buffer
  rw [if_pos (List.all_eq_true.mpr fun i hi => (hhere i hi).1.there), SwapTbl.wanted, ← h.groupEnd]
  refine congrArg some (List.flatMap_congr ?_)
  intro i hi
  obtain ⟨hslot, hcache⟩ := hhere i hi
  exact congrArg RecView.bytes (hslot.loaded hcache)

section OutGroup
variable {td : SwapTbl} {i hp : ℕ}

theorem outGroup_in (hle : s ≤ i) (hlt : i < e) :
    (td.outGroup s e hp).tRec i = (td.tRec i).swapOut (i == s) hp := if_pos ⟨hle, hlt⟩

theorem outGroup_out (hi : ¬(s ≤ i ∧ i < e)) : (td.outGroup s e hp).tRec i = td.tRec i := if_neg hi

theorem outGroup_free : ((td.outGroup s e hp).tRec i).recFree = (td.tRec i).recFree := by
  by_cases hi : s ≤ i ∧ i < e
  · rw [outGroup_in hi.1 hi.2]
    rfl
  · rw [outGroup_out hi]

theorem swapOut_first {r : SwapRec} : (r.swapOut true hp).rHead = .handle hp := rfl

theorem swapOut_behind {r : SwapRec} : (r.swapOut false hp).rHead = .gone := rfl

/-- A table of which the buffer from slot `s` on goes out -/
theorem TblKept.outGroup {z : SwapTbl} {live : List (ℕ × List UInt8)} (ht : TblKept z td live)
    (hs : s < td.tRecNum) (hfree : (td.tRec s).recFree = true)
    (hall : ∀ j < td.tRecNum, (td.tRec j).rStat.cache = true ∨ (td.tRec j).rStat.swap = true)
    (hgroup : ∀ i, s ≤ i → i < td.groupEnd s → (td.tRec i).rStat.cache = true ∧
      (td.tRec i).rStat.swap = false ∧
      ((td.tRec i).rStat.used = true → cksumOk (td.tRec i).rHead.data = true)) :
    TblKept z (td.outGroup s (td.groupEnd s) hp) ((hp, z.wanted s) :: live) := by
  obtain ⟨-, -, hbetween, hend⟩ := SwapTbl.groupEnd_spec hs
  refine ⟨ht.num, ht.size, ht.recs, fun i => outGroup_free.trans (ht.free i), ?_, ?_, ?_, ?_, ?_⟩
  · intro i hi
    by_cases hg : s ≤ i ∧ i < td.groupEnd s
    · obtain ⟨hcache, hswap, hcksum⟩ := hgroup i hg.1 hg.2
      have hhere := ht.here hi hswap
      have hview := hhere.loaded hcache
      rw [outGroup_in hg.1 hg.2]
      refine .inr ⟨rfl, congrArg RecView.used hview, congrArg RecView.dirty hview, ?_, ?_, ?_⟩
      · rw [← hview]
        exact hhere.length
      · rw [← hview]
        exact hcksum
      · exact congrArg (· + 1) hhere.outs
    · rw [outGroup_out hg]
      exact ht.slot i hi
  · intro i hi hnot
    rw [outGroup_free] at hnot
    have hi' : i + 1 < td.tRecNum := hi
    have hbegin : i + 1 ≠ s := by
      intro heq
      rw [heq, hfree] at hnot
      cases hnot
    have hstop : i + 1 ≠ td.groupEnd s := by
      intro heq
      have hfirst := hend (by omega)
      rw [← heq, hnot] at hfirst
      cases hfirst
    by_cases hg : s ≤ i + 1 ∧ i + 1 < td.groupEnd s
    · rw [outGroup_in hg.1 hg.2, outGroup_in (by omega) (by omega)]
      rfl
    · rw [outGroup_out hg, outGroup_out (by omega)]
      exact ht.same i hi' hnot
  · intro i hi hswap hfirst
    rw [outGroup_free] at hfirst
    by_cases hg : s ≤ i ∧ i < td.groupEnd s
    · have his : i = s := by
        by_contra hne
        have hnot := hbetween i (by omega) hg.2
        rw [hfirst] at hnot
        cases hnot
      rw [outGroup_in hg.1 hg.2, his, beq_self_eq_true]
      exact ⟨hp, swapOut_first, List.mem_cons_self⟩
    · rw [outGroup_out hg] at hswap ⊢
      obtain ⟨hp', hhp, hmem⟩ := ht.handle i hi hswap hfirst
      exact ⟨hp', hhp, List.mem_cons_of_mem _ hmem⟩
  · intro i hi hswap hnot
    rw [outGroup_free] at hnot
    by_cases hg : s ≤ i ∧ i < td.groupEnd s
    · have his : i ≠ s := by
        intro heq
        rw [heq, hfree] at hnot
        cases hnot
      rw [outGroup_in hg.1 hg.2, beq_eq_false_iff_ne.mpr his]
      exact swapOut_behind
    · rw [outGroup_out hg] at hswap ⊢
      exact ht.gone i hi hswap hnot
  · intro _ _ _ j hj
    by_cases hg : s ≤ j ∧ j < td.groupEnd s
    · rw [outGroup_in hg.1 hg.2]
      exact .inr rfl
    · rw [outGroup_out hg]
      exact hall j hj

end OutGroup

theorem swapOutGroup_ok {addrp : List UInt8} {r : ℕ × File}
    (hbuffer : (svc.tbls t).buffer s e = some addrp) (hout : xjSwapOut svc.swap.fd addrp = .ok r) :
    swapOutGroup t s e svc = .ok { svc.setTd t ((svc.tbls t).outGroup s e r.1) with
      swap := svc.swap.afterOut addrp r } := by
  rw [swapOutGroup, hbuffer]
  dsimp only
  rw [hout]
  rfl

theorem swapOutGroup_kept (hk : SvcKept z svc) (hs : s < (svc.tbls t).tRecNum)
    (hfree : ((svc.tbls t).tRec s).recFree = true)
    (hall : ∀ j < (svc.tbls t).tRecNum, ((svc.tbls t).tRec j).rStat.cache = true ∨
      ((svc.tbls t).tRec j).rStat.swap = true)
    (hgroup : ∀ i, s ≤ i → i < (svc.tbls t).groupEnd s → ((svc.tbls t).tRec i).rStat.cache = true ∧
      ((svc.tbls t).tRec i).rStat.swap = false ∧
      (((svc.tbls t).tRec i).rStat.used = true → cksumOk ((svc.tbls t).tRec i).rHead.data = true))
    (hcall : SwapCall svc.swap (.swapOut (((svc.tbls t).buffer s ((svc.tbls t).groupEnd s)).getD [])))
    (hsafe : SwapSafe svc.swap (.swapOut (((svc.tbls t).buffer s ((svc.tbls t).groupEnd s)).getD []))) :
    ∃ h svc', swapOutGroup t s ((svc.tbls t).groupEnd s) svc = .ok svc' ∧ SvcKept z svc' ∧
      svc'.tbls = Function.update svc.tbls t ((svc.tbls t).outGroup s ((svc.tbls t).groupEnd s) h) ∧
      swapStep svc.swap (.swapOut (((svc.tbls t).buffer s ((svc.tbls t).groupEnd s)).getD [])) =
        .ok svc'.swap := by
  have ht := hk.tbls t
  have hbuffer := ht.buffer hs fun i hle hlt => ⟨(hgroup i hle hlt).1, (hgroup i hle hlt).2.1⟩
  rw [hbuffer, Option.getD_some] at hcall hsafe ⊢
  obtain ⟨cs, hcs⟩ := hk.file
  obtain ⟨⟨hp, fd⟩, cs', hout, hstep, hinv, hnew⟩ := xjSwapOut_kept hcs hcall hsafe
  refine ⟨hp, _, swapOutGroup_ok hbuffer hout, ?_, rfl, hstep⟩
  refine hk.change (s := s) rfl (ht.outGroup hs hfree hall hgroup) ?_ ?_ ⟨cs', hinv⟩ rfl
  · intro i hi hp' hhp
    by_cases hg : s ≤ i ∧ i < (svc.tbls t).groupEnd s
    · rw [outGroup_in hg.1 hg.2] at hhp
      by_cases his : i = s
      · rw [beq_iff_eq.mpr his, swapOut_first] at hhp
        cases hhp
        exact .inr ⟨his, hnew⟩
      · rw [beq_eq_false_iff_ne.mpr his, swapOut_behind] at hhp
        cases hhp
    · rw [outGroup_out hg] at hhp
      exact .inl hhp
  · intro t' _ i _ hp _ d hmem
    exact List.mem_cons_of_mem _ hmem

/-! ### A table goes out -/

theorem buffer_congr {td td' : SwapTbl} (htail : ∀ i, s ≤ i → td'.tRec i = td.tRec i) :
    td'.buffer s e = td.buffer s e := by
  have hrows : ∀ i ∈ List.range' s (e - s), td'.tRec i = td.tRec i :=
    fun i hi => htail i (List.mem_range'_1.mp hi).1
  have hthere : ((List.range' s (e - s)).all fun i => (td'.tRec i).rHead.there) =
      (List.range' s (e - s)).all fun i => (td.tRec i).rHead.there := by
    rw [Bool.eq_iff_iff, List.all_eq_true, List.all_eq_true]
    refine forall₂_congr ?_
    intro i hi
    rw [hrows i hi]
  unfold SwapTbl.buffer
  rw [hthere, List.flatMap_congr fun i hi => by rw [hrows i hi]]

/-- What goes out from a slot on does not depend on the slots before it. -/
theorem outCalls_congr {td td' : SwapTbl} (hnum : td'.tRecNum = td.tRecNum) (fuel : ℕ)
    (htail : ∀ i, s ≤ i → td'.tRec i = td.tRec i) : td'.outCalls fuel s = td.outCalls fuel s := by
  induction fuel generalizing s with
  | zero => rfl
  | succ fuel ih =>
      have hfind : xjSwapFindFree td' (s + 1) = xjSwapFindFree td (s + 1) :=
        xjSwapFindFree_congr hnum fun i hi => by rw [htail i (by omega)]
      have hend : td'.groupEnd s = td.groupEnd s := by
        unfold SwapTbl.groupEnd
        rw [hfind, hnum]
      rw [SwapTbl.outCalls, SwapTbl.outCalls, hfind, hend, buffer_congr htail]
      cases hnext : xjSwapFindFree td (s + 1) with
      | none => rfl
      | some e =>
          obtain ⟨hle, -⟩ := xjSwapFindFree_some hnext
          exact congrArg _ (ih fun i hi => htail i (by omega))

/-- A table of which the slots from `s` on are in memory and were all loaded -/
structure Ready (td : SwapTbl) (s : ℕ) : Prop where
  lt : s < td.tRecNum
  free : (td.tRec s).recFree = true
  all : ∀ j < td.tRecNum, (td.tRec j).rStat.cache = true ∨ (td.tRec j).rStat.swap = true
  here : ∀ i, s ≤ i → i < td.tRecNum → (td.tRec i).rStat.cache = true ∧ (td.tRec i).rStat.swap = false ∧
    ((td.tRec i).rStat.used = true → cksumOk (td.tRec i).rHead.data = true)

theorem scheduleTd_last {fuel : ℕ} (hfind : xjSwapFindFree (svc.tbls t) (s + 1) = none)
    (hout : swapOutGroup t s ((svc.tbls t).groupEnd s) svc = .ok svc') :
    scheduleTd t (fuel + 1) s svc = .ok svc' := by
  unfold SwapTbl.groupEnd at hout
  rw [hfind] at hout
  rw [scheduleTd, hfind, hout]
  rfl

theorem scheduleTd_next {fuel : ℕ} (hfind : xjSwapFindFree (svc.tbls t) (s + 1) = some e)
    (hout : swapOutGroup t s ((svc.tbls t).groupEnd s) svc = .ok svc') :
    scheduleTd t (fuel + 1) s svc = scheduleTd t fuel e svc' := by
  unfold SwapTbl.groupEnd at hout
  rw [hfind] at hout
  rw [scheduleTd, hfind, hout]
  rfl

theorem scheduleTd_kept {rest : List SwapOp} (fuel : ℕ) (hk : SvcKept z svc) (hr : Ready (svc.tbls t) s)
    (hfuel : (svc.tbls t).tRecNum < fuel + s)
    (huse : SwapUsable svc.swap ((svc.tbls t).outCalls fuel s ++ rest)) :
    ∃ svc', scheduleTd t fuel s svc = .ok svc' ∧ SvcKept z svc' ∧
      (∀ t', t' ≠ t → svc'.tbls t' = svc.tbls t') ∧ SwapUsable svc'.swap rest := by
  induction fuel generalizing s svc with
  | zero =>
      have hlt := hr.lt
      omega
  | succ fuel ih =>
      obtain ⟨hlt, hnum, -, hend⟩ := SwapTbl.groupEnd_spec hr.lt
      rw [SwapTbl.outCalls, List.cons_append] at huse
      obtain ⟨⟨hcall, hsafe⟩, hnext⟩ := huse
      obtain ⟨h, svc₁, hrun, hk₁, htbls, hstep⟩ := swapOutGroup_kept hk hr.lt hr.free hr.all
        (fun i hle hi => hr.here i hle (by omega)) hcall hsafe
      have huse₁ := hnext _ hstep
      have hself : svc₁.tbls t = (svc.tbls t).outGroup s ((svc.tbls t).groupEnd s) h := by
        rw [htbls, Function.update_self]
      have hother : ∀ t', t' ≠ t → svc₁.tbls t' = svc.tbls t' := by
        intro t' ht
        rw [htbls, Function.update_of_ne ht]
      cases hfind : xjSwapFindFree (svc.tbls t) (s + 1) with
      | none =>
          rw [hfind] at huse₁
          exact ⟨svc₁, scheduleTd_last hfind hrun, hk₁, hother, huse₁⟩
      | some e =>
          rw [hfind] at huse₁
          obtain ⟨hle, hlt', hfree, -⟩ := xjSwapFindFree_some hfind
          have hge : (svc.tbls t).groupEnd s = e := by
            unfold SwapTbl.groupEnd
            rw [hfind]
            rfl
          have htail : ∀ i, e ≤ i → (svc₁.tbls t).tRec i = (svc.tbls t).tRec i := by
            intro i hi
            rw [hself, outGroup_out (by omega)]
          have hnum₁ : (svc₁.tbls t).tRecNum = (svc.tbls t).tRecNum := by
            rw [hself]
            rfl
          have hr₁ : Ready (svc₁.tbls t) e := by
            refine ⟨by rwa [hnum₁], by rwa [htail e (Nat.le_refl e)], ?_, ?_⟩
            · intro j hj
              rw [hnum₁] at hj
              rw [hself]
              by_cases hg : s ≤ j ∧ j < (svc.tbls t).groupEnd s
              · rw [outGroup_in hg.1 hg.2]
                exact .inr rfl
              · rw [outGroup_out hg]
                exact hr.all j hj
            · intro i hi hin
              rw [hnum₁] at hin
              rw [htail i hi]
              exact hr.here i (by omega) hin
          have hcalls : (svc₁.tbls t).outCalls fuel e = (svc.tbls t).outCalls fuel e :=
            outCalls_congr hnum₁ fuel htail
          obtain ⟨svc', hrest, hk', hother', huse'⟩ := ih hk₁ hr₁ (by rw [hnum₁]; omega)
            (by rw [hcalls]; exact huse₁)
          refine ⟨svc', (scheduleTd_next hfind hrun).trans hrest, hk', ?_, huse'⟩
          intro t' ht
          rw [hother' t' ht, hother t' ht]

theorem scheduleTds_kept (ts : List ℕ) (hk : SvcKept z svc) (hnodup : ts.Nodup)
    (hready : ∀ t ∈ ts, ∀ i < (svc.tbls t).tRecNum, ((svc.tbls t).tRec i).rStat.cache = true ∧
      ((svc.tbls t).tRec i).rStat.swap = false ∧
      (((svc.tbls t).tRec i).rStat.used = true → cksumOk ((svc.tbls t).tRec i).rHead.data = true))
    (huse : SwapUsable svc.swap (svc.outCalls ts)) :
    ∃ svc', scheduleTds ts svc = .ok svc' ∧ SvcKept z svc' := by
  induction ts generalizing svc with
  | nil => exact ⟨svc, rfl, hk⟩
  | cons t ts ih =>
      obtain ⟨hnot, hnodup⟩ := List.nodup_cons.mp hnodup
      unfold SwapSvc.outCalls at huse
      rw [List.flatMap_cons] at huse
      rw [scheduleTds]
      cases hfind : xjSwapFindFree (svc.tbls t) 0 with
      | none =>
          rw [hfind] at huse
          exact ih hk hnodup (fun t' ht' => hready t' (List.mem_cons_of_mem t ht')) huse
      | some s =>
          rw [hfind] at huse
          obtain ⟨-, hlt, hfree, -⟩ := xjSwapFindFree_some hfind
          have hall := hready t List.mem_cons_self
          have hr : Ready (svc.tbls t) s :=
            ⟨hlt, hfree, fun j hj => .inl (hall j hj).1, fun i _ hi => hall i hi⟩
          obtain ⟨svc₁, hrun, hk₁, hother, huse₁⟩ := scheduleTd_kept _ hk hr (by omega) huse
          have hsame : ∀ t' ∈ ts, svc₁.tbls t' = svc.tbls t' := by
            intro t' ht'
            refine hother t' ?_
            intro heq
            exact hnot (heq ▸ ht')
          have hcalls : svc₁.outCalls ts = svc.outCalls ts := by
            unfold SwapSvc.outCalls
            refine List.flatMap_congr ?_
            intro t' ht'
            rw [hsame t' ht']
          obtain ⟨svc', hrest, hk'⟩ := ih hk₁ hnodup (by
            intro t' ht'
            rw [hsame t' ht']
            exact hready t' (List.mem_cons_of_mem t ht')) (by rw [hcalls]; exact huse₁)
          refine ⟨svc', ?_, hk'⟩
          change (scheduleTd t ((svc.tbls t).tRecNum + 1) s svc).bind (scheduleTds ts) = _
          rw [hrun]
          exact hrest

end Change

end PaxosSolutions.XjPing
