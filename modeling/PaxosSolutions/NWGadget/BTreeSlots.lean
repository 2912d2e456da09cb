import PaxosSolutions.NWGadget.BTree
import Mathlib.Data.Set.Insert

/-!
# What the macros of a B-tree write

An entry of a page is an item with the child after it; the first child has an
entry without an item. Every macro that writes a child also tells the child where
it is. A row of writes that puts into every slot what is to be there in the end,
no child twice, is described by the slots it writes alone.
-/
namespace PaxosSolutions.NWGadget
open Lib BTHeap

variable {α : Type}

namespace BTHeap

/-- Where a page says that it is. -/
def link (h : BTHeap α) (c : BTAddr) : Option BTAddr × ℕ := ((h c).pParent, (h c).pParentIndex)

section Macros
variable {h : BTHeap α} {p q c : BTAddr} {i r n m : ℕ} {item : α} {d : Option BTAddr}

theorem set_self (f : BTPage α → BTPage α) : h.set p f p = f (h p) := Function.update_self ..

theorem set_of_ne (hq : q ≠ p) (f : BTPage α → BTPage α) : h.set p f q = h q :=
  Function.update_of_ne hq ..

theorem btSetN_some : h.btSetN p n (some c) = (h.setPage p n (some c)).set c fun a =>
    { a with pParent := some p, pParentIndex := n } := rfl

theorem link_setItem : (h.setItem p i item).link c = h.link c := by
  unfold link setItem
  by_cases hc : c = p
  · rw [hc, set_self]
  · rw [set_of_ne hc]

theorem link_setPage : (h.setPage p i d).link c = h.link c := by
  unfold link setPage
  by_cases hc : c = p
  · rw [hc, set_self]
  · rw [set_of_ne hc]

theorem link_setM : (h.setM p m).link c = h.link c := by
  unfold link setM
  by_cases hc : c = p
  · rw [hc, set_self]
  · rw [set_of_ne hc]

theorem m_setItem : (h.setItem p i item q).pM = (h q).pM := by
  unfold setItem
  by_cases hq : q = p
  · rw [hq, set_self]
  · rw [set_of_ne hq]

theorem m_setPage : (h.setPage p i d q).pM = (h q).pM := by
  unfold setPage
  by_cases hq : q = p
  · rw [hq, set_self]
  · rw [set_of_ne hq]

theorem m_setM : (h.setM p m q).pM = if q = p then m else (h q).pM := by
  unfold setM
  by_cases hq : q = p
  · rw [hq, set_self, if_pos rfl]
  · rw [set_of_ne hq, if_neg hq]

theorem link_btSetN : (h.btSetN p n d).link c = if d = some c then (some p, n) else h.link c := by
  cases d with
  | none => exact link_setPage
  | some x =>
      rw [btSetN_some]
      by_cases hc : x = c
      · rw [hc, if_pos rfl]
        unfold link
        simp only [set_self]
      · rw [if_neg (by simpa using hc)]
        have hsame := set_of_ne (h := h.setPage p n (some x)) (Ne.symm hc)
          fun a => { a with pParent := some p, pParentIndex := n }
        refine Eq.trans ?_ (link_setPage (p := p) (i := n) (d := some x))
        unfold link
        rw [hsame]

theorem m_btSetN : (h.btSetN p n d q).pM = (h q).pM := by
  cases d with
  | none => exact m_setPage
  | some c =>
      rw [btSetN_some]
      by_cases hq : q = c
      · rw [hq, set_self]
        exact m_setPage
      · rw [set_of_ne hq]
        exact m_setPage

theorem link_btSet : (h.btSet p i item d).link c = if d = some c then (some p, i) else h.link c := by
  unfold btSet
  rw [link_btSetN, link_setItem]

theorem m_btSet : (h.btSet p i item d q).pM = (h q).pM := by
  unfold btSet
  rw [m_btSetN, m_setItem]

end Macros

variable [Inhabited α]

/-- Entry `r` of a page: the item before child `r`, and the child. -/
def ent (h : BTHeap α) (p : BTAddr) (r : ℕ) : α × Option BTAddr :=
  (if r = 0 then default else (h p).pItems (r - 1), (h p).pPages r)

section Entries
variable {h : BTHeap α} {p q c : BTAddr} {i r n m : ℕ} {item : α} {d : Option BTAddr}

theorem ent_setItem (hr : r = i + 1) : (h.setItem p i item).ent q r =
    if q = p then (item, (h.ent p r).2) else h.ent q r := by
  unfold ent setItem
  by_cases hq : q = p
  · simp [hq, hr, set_self]
  · rw [set_of_ne hq, if_neg hq]

theorem ent_setItem_of_ne (hr : r ≠ i + 1) : (h.setItem p i item).ent q r = h.ent q r := by
  unfold ent setItem
  by_cases hq : q = p
  · rw [hq, set_self]
    by_cases h0 : r = 0
    · simp [h0]
    · have hne : r - 1 ≠ i := by omega
      simp [h0, hne]
  · rw [set_of_ne hq]

theorem ent_setPage : (h.setPage p i d).ent q r =
    if q = p ∧ r = i then ((h.ent p r).1, d) else h.ent q r := by
  unfold ent setPage
  by_cases hq : q = p
  · rw [hq, set_self]
    by_cases hr : r = i
    · simp [hr]
    · simp [hr]
  · rw [set_of_ne hq, if_neg (mt And.left hq)]

theorem ent_setM : (h.setM p m).ent q r = h.ent q r := by
  unfold ent setM
  by_cases hq : q = p
  · rw [hq, set_self]
  · rw [set_of_ne hq]

theorem ent_btSetN : (h.btSetN p n d).ent q r =
    if q = p ∧ r = n then ((h.ent p r).1, d) else h.ent q r := by
  rw [← ent_setPage]
  cases d with
  | none => rfl
  | some c =>
      rw [btSetN_some]
      unfold ent
      by_cases hq : q = c
      · rw [hq, set_self]
      · rw [set_of_ne hq]

theorem ent_btSet (hr : 1 ≤ i) : (h.btSet p i item d).ent q r =
    if q = p ∧ r = i then (item, d) else h.ent q r := by
  unfold btSet
  rw [ent_btSetN]
  by_cases hri : r = i
  · have hr' : r = i - 1 + 1 := by omega
    rw [ent_setItem hr', ent_setItem hr']
    by_cases hq : q = p
    · simp [hq, hri]
    · simp [hq]
  · have hr' : r ≠ i - 1 + 1 := by omega
    rw [if_neg (mt And.right hri), if_neg (mt And.right hri), ent_setItem_of_ne hr']

theorem btMove_eq (hi : 1 ≤ i) : h.btMove p r q i = h.btSet p r (h.ent q i).1 (h.ent q i).2 := by
  unfold btMove ent
  rw [if_neg (by omega)]

end Entries

/-- From `h` to `h'` the slots of `W` were written, with `F`, and no others. -/
structure Wrote (F : BTAddr → ℕ → α × Option BTAddr) (W : Set (BTAddr × ℕ)) (h h' : BTHeap α) :
    Prop where
  done : ∀ p r, (p, r) ∈ W → h'.ent p r = F p r
  kept : ∀ p r, (p, r) ∉ W → h'.ent p r = h.ent p r
  link : ∀ p r c, (p, r) ∈ W → (F p r).2 = some c → h'.link c = (some p, r)
  free : ∀ c, (∀ p r, (p, r) ∈ W → (F p r).2 ≠ some c) → h'.link c = h.link c
  count : ∀ p, (h' p).pM = (h p).pM

section Wrote
variable {F : BTAddr → ℕ → α × Option BTAddr} {W V : Set (BTAddr × ℕ)} {h h' h'' : BTHeap α}
  {p q : BTAddr} {r n : ℕ}

/-- No child is to be in two slots. -/
def Once (F : BTAddr → ℕ → α × Option BTAddr) : Prop :=
  ∀ p r q s c, (F p r).2 = some c → (F q s).2 = some c → p = q ∧ r = s

theorem Wrote.refl (h : BTHeap α) : Wrote F ∅ h h :=
  ⟨fun _ _ h => h.elim, fun _ _ _ => rfl, fun _ _ _ h => h.elim, fun _ _ => rfl, fun _ => rfl⟩

/-- Two rows of writes; an item that the first one put into a slot may be written
again by the second. -/
theorem Wrote.over {E : BTAddr → ℕ → α × Option BTAddr} (hF : Once F) (h₁ : Wrote E W h h')
    (h₂ : Wrote F V h' h'') (hsame : ∀ p r, (p, r) ∈ W → (p, r) ∉ V → E p r = F p r)
    (hchild : ∀ p r, (p, r) ∈ W → (E p r).2 = (F p r).2) : Wrote F (W ∪ V) h h'' := by
  refine ⟨?_, ?_, ?_, ?_, fun p => (h₂.count p).trans (h₁.count p)⟩
  · intro p r hmem
    by_cases hV : (p, r) ∈ V
    · exact h₂.done p r hV
    · have hW := hmem.resolve_right hV
      rw [h₂.kept p r hV, h₁.done p r hW, hsame p r hW hV]
  · intro p r hmem
    rw [h₂.kept p r (mt .inr hmem), h₁.kept p r (mt .inl hmem)]
  · intro p r c hmem hc
    by_cases hV : (p, r) ∈ V
    · exact h₂.link p r c hV hc
    · have hW := hmem.resolve_right hV
      rw [h₂.free c ?_]
      · exact h₁.link p r c hW ((hchild p r hW).trans hc)
      · intro q s hqs hc'
        obtain ⟨rfl, rfl⟩ := hF p r q s c hc hc'
        exact hV hqs
  · intro c hc
    rw [h₂.free c fun p r h => hc p r (.inr h), h₁.free c ?_]
    intro p r hmem
    rw [hchild p r hmem]
    exact hc p r (.inl hmem)

theorem Wrote.congr {E : BTAddr → ℕ → α × Option BTAddr} (hw : Wrote F W h h')
    (hsame : ∀ p r, (p, r) ∈ W → E p r = F p r) : Wrote E W h h' := by
  refine ⟨?_, hw.kept, ?_, ?_, hw.count⟩
  · intro p r hmem
    rw [hsame p r hmem]
    exact hw.done p r hmem
  · intro p r c hmem hc
    rw [hsame p r hmem] at hc
    exact hw.link p r c hmem hc
  · intro c hc
    refine hw.free c ?_
    intro p r hmem
    rw [← hsame p r hmem]
    exact hc p r hmem

theorem Wrote.trans (hF : Once F) (h₁ : Wrote F W h h') (h₂ : Wrote F V h' h'') :
    Wrote F (W ∪ V) h h'' :=
  h₁.over hF h₂ (fun _ _ _ _ => rfl) fun _ _ _ => rfl

/-- A slot that was not written has what it is to have already. -/
theorem Wrote.table (hw : Wrote F W h h') (hold : (p, r) ∉ W → h.ent p r = F p r) :
    h'.ent p r = F p r := by
  by_cases hmem : (p, r) ∈ W
  · exact hw.done p r hmem
  · rw [hw.kept p r hmem, hold hmem]

theorem Wrote.placed (hF : Once F) (hw : Wrote F W h h') {c : BTAddr} (hc : (F p r).2 = some c)
    (hold : (p, r) ∉ W → h.link c = (some p, r)) : h'.link c = (some p, r) := by
  by_cases hmem : (p, r) ∈ W
  · exact hw.link p r c hmem hc
  · rw [hw.free c ?_, hold hmem]
    intro q s hqs hc'
    obtain ⟨rfl, rfl⟩ := hF p r q s c hc hc'
    exact hmem hqs

theorem Wrote.setN {d : Option BTAddr} (hF : F p n = ((h.ent p n).1, d)) :
    Wrote F {(p, n)} h (h.btSetN p n d) := by
  refine ⟨?_, ?_, ?_, ?_, fun _ => m_btSetN⟩
  · rintro q r hmem
    obtain ⟨rfl, rfl⟩ := Prod.mk.inj hmem
    rw [ent_btSetN, if_pos ⟨rfl, rfl⟩, hF]
  · intro q r hmem
    rw [ent_btSetN, if_neg]
    intro h
    exact hmem (Prod.ext h.1 h.2)
  · intro q r c hmem hc
    obtain ⟨rfl, rfl⟩ := Prod.mk.inj hmem
    rw [hF] at hc
    rw [link_btSetN, if_pos hc]
  · intro c hc
    rw [link_btSetN, if_neg]
    have := hc p n rfl
    rwa [hF] at this

theorem Wrote.set {d : Option BTAddr} {item : α} (hr : 1 ≤ r) (hF : F p r = (item, d)) :
    Wrote F {(p, r)} h (h.btSet p r item d) := by
  refine ⟨?_, ?_, ?_, ?_, fun _ => m_btSet⟩
  · rintro q s hmem
    obtain ⟨rfl, rfl⟩ := Prod.mk.inj hmem
    rw [ent_btSet hr, if_pos ⟨rfl, rfl⟩, hF]
  · intro q s hmem
    rw [ent_btSet hr, if_neg]
    intro h
    exact hmem (Prod.ext h.1 h.2)
  · intro q s c hmem hc
    obtain ⟨rfl, rfl⟩ := Prod.mk.inj hmem
    rw [hF] at hc
    rw [link_btSet, if_pos hc]
  · intro c hc
    rw [link_btSet, if_neg]
    have := hc p r rfl
    rwa [hF] at this

/-- An item alone is written where its child already says that it is there. -/
theorem Wrote.item {item : α} (hr : 1 ≤ r) (hF : F p r = (item, (h.ent p r).2))
    (hlink : ∀ c, (h.ent p r).2 = some c → h.link c = (some p, r)) :
    Wrote F {(p, r)} h (h.setItem p (r - 1) item) := by
  have hr' : r = r - 1 + 1 := by omega
  refine ⟨?_, ?_, ?_, fun _ _ => link_setItem, fun _ => m_setItem⟩
  · rintro q s hmem
    obtain ⟨rfl, rfl⟩ := Prod.mk.inj hmem
    rw [ent_setItem hr', if_pos rfl, hF]
  · intro q s hmem
    by_cases hs : s = r
    · rw [hs, ent_setItem hr', if_neg fun h => hmem (Prod.ext h hs)]
    · exact ent_setItem_of_ne fun h => hs (h.trans hr'.symm)
  · intro q s c hmem hc
    obtain ⟨rfl, rfl⟩ := Prod.mk.inj hmem
    rw [hF] at hc
    rw [link_setItem, hlink c hc]

theorem Wrote.move {i : ℕ} (hr : 1 ≤ r) (hi : 1 ≤ i) (hF : F p r = h.ent q i) :
    Wrote F {(p, r)} h (h.btMove p r q i) := by
  rw [btMove_eq hi]
  exact Wrote.set hr hF

/-- The slots of one page that a loop writes. -/
def slots (p : BTAddr) (lo hi : ℕ) : Set (BTAddr × ℕ) := {x | x.1 = p ∧ lo ≤ x.2 ∧ x.2 < hi}

theorem mem_slots {lo hi : ℕ} : (q, r) ∈ slots p lo hi ↔ q = p ∧ lo ≤ r ∧ r < hi := Iff.rfl

/-- A loop upwards, which has not written what it reads. -/
theorem Wrote.up (hF : Once F) {lo hi : ℕ} {f g : ℕ → ℕ} {dst : ℕ} (hle : lo ≤ hi + 1)
    (hf : ∀ i, lo ≤ i → i ≤ hi → f i = dst + (i - lo)) (hdst : 1 ≤ dst)
    (hg : ∀ i, lo ≤ i → i ≤ hi → 1 ≤ g i)
    (hval : ∀ i, lo ≤ i → i ≤ hi → F p (f i) = h.ent q (g i))
    (hread : ∀ i j, lo ≤ i → i < j → j ≤ hi → q = p → g j ≠ f i) :
    Wrote F (slots p dst (dst + (hi + 1 - lo))) h (forUp lo hi (fun i => btMove p (f i) q (g i)) h) := by
  refine forUp_rule (I := fun i t => Wrote F (slots p dst (dst + (i - lo))) h t) hle ?_ ?_
  · have hempty : slots p dst (dst + (lo - lo)) = ∅ := by
      ext ⟨q, r⟩
      simp [slots]
    rw [hempty]
    exact .refl h
  · intro i t hlo hhi ht
    have hnot : (q, g i) ∉ slots p dst (dst + (i - lo)) := by
      rintro ⟨hq, h₁, h₂⟩
      refine hread (g i - dst + lo) i (by omega) (by omega) hhi hq ?_
      rw [hf _ (by omega) (by omega)]
      simp only at h₁
      omega
    have hmove : Wrote F {(p, f i)} t (t.btMove p (f i) q (g i)) := by
      refine Wrote.move ?_ (hg i hlo hhi) ?_
      · rw [hf i hlo hhi]
        omega
      · rw [hval i hlo hhi, ht.kept _ _ hnot]
    have hunion : slots p dst (dst + (i + 1 - lo)) =
        slots p dst (dst + (i - lo)) ∪ {(p, f i)} := by
      ext ⟨x, s⟩
      rw [hf i hlo hhi]
      simp only [mem_slots, Set.mem_union, Set.mem_singleton_iff, Prod.mk.injEq]
      constructor
      · rintro ⟨hx, h₁, h₂⟩
        by_cases hs : s = dst + (i - lo)
        · exact .inr ⟨hx, hs⟩
        · exact .inl ⟨hx, h₁, by omega⟩
      · rintro (⟨hx, h₁, h₂⟩ | ⟨hx, hs⟩)
        · exact ⟨hx, h₁, by omega⟩
        · exact ⟨hx, by omega, by omega⟩
    rw [hunion]
    exact ht.trans hF hmove

/-- A loop downwards, which has not written what it reads. -/
theorem Wrote.down (hF : Once F) {lo hi : ℕ} {f g : ℕ → ℕ} {dst : ℕ} (hle : lo ≤ hi + 1)
    (hf : ∀ i, lo ≤ i → i ≤ hi → f i = dst + (i - lo)) (hdst : 1 ≤ dst)
    (hg : ∀ i, lo ≤ i → i ≤ hi → 1 ≤ g i)
    (hval : ∀ i, lo ≤ i → i ≤ hi → F p (f i) = h.ent q (g i))
    (hread : ∀ i j, lo ≤ i → i < j → j ≤ hi → q = p → g i ≠ f j) :
    Wrote F (slots p dst (dst + (hi + 1 - lo))) h
      (forDown hi lo (fun i => btMove p (f i) q (g i)) h) := by
  have hrule : Wrote F (slots p (dst + (lo - lo)) (dst + (hi + 1 - lo))) h
      (forDown hi lo (fun i => btMove p (f i) q (g i)) h) := by
    refine forDown_rule (I := fun i t => Wrote F (slots p (dst + (i - lo)) (dst + (hi + 1 - lo))) h t)
      hle ?_ ?_
    · have hempty : slots p (dst + (hi + 1 - lo)) (dst + (hi + 1 - lo)) = ∅ := by
        ext ⟨q, r⟩
        simp [slots]
      rw [hempty]
      exact .refl h
    · intro i t hlo hhi ht
      have hnot : (q, g i) ∉ slots p (dst + (i + 1 - lo)) (dst + (hi + 1 - lo)) := by
        rintro ⟨hq, h₁, h₂⟩
        simp only at h₁ h₂
        refine hread i (g i - dst + lo) hlo (by omega) (by omega) hq ?_
        rw [hf _ (by omega) (by omega)]
        omega
      have hmove : Wrote F {(p, f i)} t (t.btMove p (f i) q (g i)) := by
        refine Wrote.move ?_ (hg i hlo hhi) ?_
        · rw [hf i hlo hhi]
          omega
        · rw [hval i hlo hhi, ht.kept _ _ hnot]
      have hunion : slots p (dst + (i - lo)) (dst + (hi + 1 - lo)) =
          slots p (dst + (i + 1 - lo)) (dst + (hi + 1 - lo)) ∪ {(p, f i)} := by
        ext ⟨x, s⟩
        rw [hf i hlo hhi]
        simp only [mem_slots, Set.mem_union, Set.mem_singleton_iff, Prod.mk.injEq]
        constructor
        · rintro ⟨hx, h₁, h₂⟩
          by_cases hs : s = dst + (i - lo)
          · exact .inr ⟨hx, hs⟩
          · exact .inl ⟨hx, by omega, h₂⟩
        · rintro (⟨hx, h₁, h₂⟩ | ⟨hx, hs⟩)
          · exact ⟨hx, by omega, h₂⟩
          · exact ⟨hx, by omega, by omega⟩
      rw [hunion]
      exact ht.trans hF hmove
  rw [Nat.sub_self, Nat.add_zero] at hrule
  exact hrule

end Wrote

end BTHeap

end PaxosSolutions.NWGadget
