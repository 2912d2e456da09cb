import PaxosSolutions.NWGadget.BTreeShape

/-!
# Insertion into a B-tree

While an insertion goes up, the tree is seen as if the page it stands at had taken
the new entry already, with one item too many perhaps. The key is in that tree
from the leaf on; to split the page and to go to its parent leaves the keys and
the shape, and in the end a page has room or the tree gets a new root.
-/
namespace PaxosSolutions.NWGadget
open Lib BTHeap

variable {α : Type} [Inhabited α]

section Split
variable {h h' : BTHeap α} {lv : BTAddr → Option ℕ} {root a b g p q c : BTAddr} {top k j n r R : ℕ}
  {full : ℕ → α × Option BTAddr} {V : α} {P : BTAddr → Prop}

/-- A page and a new one have the halves of the row that the page had. -/
structure Halved (h h' : BTHeap α) (lv : BTAddr → Option ℕ) (a b : BTAddr) (k n : ℕ)
    (full : ℕ → α × Option BTAddr) : Prop where
  level : lv a = some k
  fresh : lv b = none
  whole : Holds h a (2 * n + 1) full
  left : Holds h' a n full
  right : Holds h' b n (rowAfter full (n + 1))
  same : ∀ p, p ≠ a → p ≠ b → SamePage h h' p
  link : ∀ c, c ≠ b → (∀ r ≤ 2 * n + 1, (full r).2 ≠ some c) → h'.link c = h.link c

theorem Halved.child (hx : Halved h h' lv a b k n full) (hr : r ≤ 2 * n + 1)
    (hc : (full r).2 = some c) : ChildOf h lv a k r c := by
  refine ⟨hx.level, ?_, ?_⟩
  · rw [hx.whole.count]
    exact hr
  · rw [hx.whole.ent r hr]
    exact hc

theorem Halved.below (hx : Halved h h' lv a b k n full) (hs : Shape h lv root top)
    (hr : r ≤ 2 * n + 1) : Below lv k (full r).2 := by
  have hb := (hs.page a k hx.level).below r (by rw [hx.whole.count]; exact hr)
  rw [hx.whole.ent r hr] at hb
  exact hb

theorem Halved.ne (hx : Halved h h' lv a b k n full) : b ≠ a := by
  rintro rfl
  exact absurd (hx.fresh.symm.trans hx.level) (by simp)

theorem ChildOf.used (hc : ChildOf h lv q k r c) (hs : Shape h lv root top) (hb : lv b = none) :
    c ≠ b := by
  rintro rfl
  obtain ⟨j, -, hlv⟩ := hc.levelDown hs
  exact absurd (hb.symm.trans hlv) (by simp)

/-- A child of another page stays where it is. -/
theorem Halved.link_other (hx : Halved h h' lv a b k n full) (hs : Shape h lv root top)
    (hc : ChildOf h lv q j r c) (hq : q ≠ a) : h'.link c = h.link c := by
  refine hx.link c (hc.used hs hx.fresh) ?_
  intro s hsle hcs
  exact hq (hc.unique hs (hx.child hsle hcs)).1

/-- The page itself stays where it is. -/
theorem Halved.link_self (hx : Halved h h' lv a b k n full) (hs : Shape h lv root top) :
    h'.link a = h.link a := by
  refine hx.link a hx.ne.symm ?_
  intro s hsle hcs
  obtain ⟨j, hj, hlv⟩ := (hx.child hsle hcs).levelDown hs
  have := Option.some.inj (hx.level.symm.trans hlv)
  omega

/-- A page that nobody wrote holds what it held. -/
theorem Holds.kept {m : ℕ} {e : ℕ → α × Option BTAddr} (hh : Holds h p m e) (hp : SamePage h h' p)
    (hlink : ∀ r ≤ m, ∀ c, (e r).2 = some c → h'.link c = h.link c) : Holds h' p m e := by
  refine ⟨hp.count.trans hh.count, ?_, ?_⟩
  · intro r hr
    rw [hp.ent, hh.ent r hr]
  · intro r hr c hc
    rw [hlink r hr c hc, hh.link r hr c hc]

/-- The keys of the halves and the item between them are those of the whole. -/
theorem halves_keys (hl : Holds h' a n full) (hr : Holds h' b n (rowAfter full (n + 1)))
    (hw : Holds h a (2 * n + 1) full)
    (hkeys : ∀ r ≤ 2 * n + 1, h'.keys k (full r).2 = h.keys k (full r).2) :
    h'.keys (k + 1) (some a) ++ (full (n + 1)).1 :: h'.keys (k + 1) (some b) =
      h.keys (k + 1) (some a) := by
  have hsplit := rowKeys_split (K := h'.keys k) (e := full) (show n < 2 * n + 1 by omega)
  rw [show 2 * n + 1 - n - 1 = n by omega] at hsplit
  rw [hl.keys, hr.keys, ← hsplit, hw.keys]
  exact rowKeys_congr hkeys fun _ _ _ => rfl

theorem Halved.parent (hx : Halved h h' lv a b k n full) (hs : Shape h lv root top)
    (hq : ChildOf h lv q (k + 1) R a) : Holds h' q (h q).pM (h.ent q) := by
  have hqa : q ≠ a := by
    rintro rfl
    have := Option.some.inj (hx.level.symm.trans hq.level)
    omega
  have hqb : q ≠ b := by
    rintro rfl
    exact absurd (hx.fresh.symm.trans hq.level) (by simp)
  refine ((hs.page q (k + 1) hq.level).holds).kept (hx.same q hqa hqb) ?_
  intro r hr c hc
  exact hx.link_other hs ⟨hq.level, hr, hc⟩ hqa

theorem Halved.unplaced (hx : Halved h h' lv a b k n full) (hs : Shape h lv root top)
    (hq : ChildOf h lv q (k + 1) R a) :
    ∀ c, some b = some c → ∀ r ≤ (h q).pM, (h.ent q r).2 ≠ some c := by
  intro c hb r hr hc
  exact ChildOf.used ⟨hq.level, hr, hc⟩ hs hx.fresh (Option.some.inj hb).symm

/-- What the parent writes when it takes the new page. -/
structure Taken (h h' : BTHeap α) (lv : BTAddr → Option ℕ) (q a b : BTAddr) (k n R : ℕ)
    (full : ℕ → α × Option BTAddr) : Prop where
  parent : Holds h' q ((h q).pM + 1) (widened (h.ent q) R ((full (n + 1)).1, some b))
  left : Holds h' a n full
  right : Holds h' b n (rowAfter full (n + 1))
  same : ∀ p, ¬ (p = a ∨ p = b ∨ p = q) → SamePage h h' p
  link : ∀ c, c ≠ b → (∀ j r, ¬ ChildOf h lv a j r c) → (∀ j r, ¬ ChildOf h lv q j r c) →
    h'.link c = h.link c

theorem Halved.taken (hx : Halved h h' lv a b k n full) (hs : Shape h lv root top)
    (hq : ChildOf h lv q (k + 1) R a) :
    Taken h (BTree.insertAt q R (full (n + 1)).1 (some b) h') lv q a b k n R full := by
  have hqa : q ≠ a := by
    rintro rfl
    have := Option.some.inj (hx.level.symm.trans hq.level)
    omega
  have hqb : q ≠ b := by
    rintro rfl
    exact absurd (hx.fresh.symm.trans hq.level) (by simp)
  obtain ⟨hparent, hbeside⟩ := insertAt_holds (V := (full (n + 1)).1) (hx.parent hs hq) hq.le
    (hx.unplaced hs hq)
  have hsame : ∀ p, p ≠ q →
      SamePage h' (BTree.insertAt q R (full (n + 1)).1 (some b) h') p := fun p hp =>
    ⟨hbeside.ent p hp, hbeside.count p hp⟩
  -- who is not the new page and does not hang below this one keeps its place
  have hlink : ∀ c, c ≠ b → (∀ j r, ¬ ChildOf h lv q j r c) →
      (BTree.insertAt q R (full (n + 1)).1 (some b) h').link c = h'.link c := by
    intro c hcb hc
    refine hbeside.link c ?_
    rintro ⟨r, hr, hcr⟩
    unfold widened at hcr
    split_ifs at hcr with h₁ h₂
    · exact hc (k + 1) r ⟨hq.level, by have := hq.le; omega, hcr⟩
    · exact hcb (Option.some.inj hcr).symm
    · exact hc (k + 1) (r - 1) ⟨hq.level, by omega, hcr⟩
  have hlinka : ∀ r c, ChildOf h lv a k r c →
      (BTree.insertAt q R (full (n + 1)).1 (some b) h').link c = h'.link c := by
    intro r c hc
    refine hlink c (hc.used hs hx.fresh) ?_
    intro j s hcs
    exact hqa (hcs.unique hs hc).1
  refine ⟨hparent, hx.left.kept (hsame a hqa.symm) ?_, hx.right.kept (hsame b hqb.symm) ?_, ?_, ?_⟩
  · intro r hr c hc
    exact hlinka r c (hx.child (by omega) hc)
  · intro r hr c hc
    rw [rowAfter_child] at hc
    exact hlinka _ c (hx.child (by omega) hc)
  · intro p hp
    have hpa : p ≠ a := fun h => hp (.inl h)
    have hpb : p ≠ b := fun h => hp (.inr (.inl h))
    have hpq : p ≠ q := fun h => hp (.inr (.inr h))
    exact ⟨fun r => (hbeside.ent p hpq r).trans ((hx.same p hpa hpb).ent r),
      (hbeside.count p hpq).trans (hx.same p hpa hpb).count⟩
  · intro c hcb hca hcq
    refine (hlink c hcb hcq).trans (hx.link c hcb ?_)
    intro r hr hc
    exact hca k r (hx.child hr hc)

omit [Inhabited α] in
theorem used_ne {d : Option ℕ} (hb : lv b = none) (hc : lv c = some j) :
    c ≠ b ∧ Function.update lv b d c = some j := by
  have hne : c ≠ b := by
    rintro rfl
    exact absurd (hb.symm.trans hc) (by simp)
  exact ⟨hne, (Function.update_of_ne hne ..).trans hc⟩

theorem PageAt.below_new (hp : PageAt h lv p k) (hb : lv b = none) {d : Option ℕ} (hr : r ≤ (h p).pM) :
    Below (Function.update lv b d) k (h.ent p r).2 := by
  refine (hp.below r hr).congr ?_
  intro c hc
  obtain ⟨j, -, hlv⟩ := (hp.below r hr).child hc
  rw [(used_ne hb hlv).2, hlv]

theorem ChildOf.below (hq : ChildOf h lv q (k + 1) r c) (hs : Shape h lv root top) : lv c = some k := by
  obtain ⟨j, hj, hlv⟩ := hq.levelDown hs
  cases hj
  exact hlv

omit [Inhabited α] in
theorem level_ne (hp : lv p = some k) (hq : lv q = some j) (hkj : k ≠ j) : p ≠ q := by
  rintro rfl
  exact hkj (Option.some.inj (hp.symm.trans hq))

omit [Inhabited α] in
/-- What was in a row is in it with a new entry. -/
theorem widened_old {e : ℕ → α × Option BTAddr} {x : α × Option BTAddr} {m : ℕ} (hr : r ≤ m) :
    ∃ s ≤ m + 1, widened e R x s = e r := by
  by_cases hrR : r ≤ R
  · exact ⟨r, by omega, if_pos hrR⟩
  · refine ⟨r + 1, by omega, ?_⟩
    unfold widened
    rw [if_neg (by omega), if_neg (by omega), Nat.add_sub_cancel]

/-- What was in a row is in one of its halves. -/
theorem Halved.half (hl : Holds h' a n full) (hr : Holds h' b n (rowAfter full (n + 1)))
    (hle : r ≤ 2 * n + 1) (hc : (full r).2 = some c) :
    (∃ s ≤ n, (h'.ent a s).2 = some c) ∨ ∃ s ≤ n, (h'.ent b s).2 = some c := by
  by_cases hrn : r ≤ n
  · refine .inl ⟨r, hrn, ?_⟩
    rw [hl.ent r hrn]
    exact hc
  · refine .inr ⟨r - (n + 1), by omega, ?_⟩
    rw [hr.ent _ (by omega), rowAfter_child, show n + 1 + (r - (n + 1)) = r by omega]
    exact hc

section Taken
variable (ht : Taken h h' lv q a b k n R full) (hs : Shape h lv root top)
  (hw : Holds h a (2 * n + 1) full) (hb : lv b = none) (hq : ChildOf h lv q (k + 1) R a)
include ht hs hw hb hq

/-- The tree is a tree with the new page. -/
theorem Taken.shape : Shape h' (Function.update lv b (some k)) root top := by
  have hla := hq.below hs
  have hRle := hq.le
  have hwbelow : ∀ r ≤ 2 * n + 1, Below (Function.update lv b (some k)) k (full r).2 := by
    intro r hr
    have hle : r ≤ (h a).pM := by rw [hw.count]; exact hr
    rw [← hw.ent r hr]
    exact (hs.page a k hla).below_new hb hle
  refine hs.change (P := fun p => p = a ∨ p = b ∨ p = q) ht.same ?_ ?_ ?_ (used_ne hb hs.atTop).2 ?_ ?_ ?_
  · intro p hp
    exact Function.update_of_ne (fun h => hp (.inr (.inl h))) ..
  · intro p i r c hp hc
    obtain ⟨j, -, hlv⟩ := hc.levelDown hs
    refine ⟨ht.link c (used_ne (d := none) hb hlv).1 ?_ ?_, ?_⟩
    · intro j' s hca
      exact hp (.inl (hc.unique hs hca).1)
    · intro j' s hcq
      exact hp (.inr (.inr (hc.unique hs hcq).1))
    · rw [(used_ne hb hlv).2, hlv]
  · rintro p i (rfl | rfl | rfl) hp
    · rw [(used_ne hb hla).2] at hp
      cases hp
      exact ht.left.pageAt fun r hr => hwbelow r (by omega)
    · rw [Function.update_self] at hp
      cases hp
      refine ht.right.pageAt ?_
      intro r hr
      rw [rowAfter_child]
      exact hwbelow _ (by omega)
    · rw [(used_ne hb hq.level).2] at hp
      cases hp
      refine ht.parent.pageAt ?_
      intro r hr
      unfold widened
      split_ifs with h₁ h₂
      · exact (hs.page p (k + 1) hq.level).below_new hb (by omega)
      · exact ⟨b, rfl, Function.update_self ..⟩
      · exact (hs.page p (k + 1) hq.level).below_new hb (by omega)
  · have hlink := ht.link root (used_ne (d := none) hb hs.atTop).1 (fun j r hc => hc.ne_root hs rfl)
      fun j r hc => hc.ne_root hs rfl
    exact (Prod.mk.inj hlink).1.trans hs.orphan
  · intro c i hc hroot
    by_cases hcb : c = b
    · -- the new page
      rw [hcb, Function.update_self] at hc
      cases hc
      refine .inr ⟨q, R + 1, .inr (.inr rfl), (used_ne hb hq.level).2, ?_, ?_⟩
      · rw [ht.parent.count]
        omega
      · rw [ht.parent.ent (R + 1) (by omega), hcb]
        unfold widened
        rw [if_neg (by omega), if_pos rfl]
    · rw [Function.update_of_ne hcb] at hc
      obtain ⟨p, r, hp⟩ := hs.up c i hc hroot
      by_cases hpa : p = a
      · rw [hpa] at hp
        have hr := hp.le
        rw [hw.count] at hr
        have hcr := hp.child
        rw [hw.ent r hr] at hcr
        have hi := Option.some.inj (hla.symm.trans hp.level)
        rcases Halved.half ht.left ht.right hr hcr with ⟨s, hsn, hcs⟩ | ⟨s, hsn, hcs⟩
        · exact .inr ⟨a, s, .inl rfl, (used_ne hb hp.level).2, by rw [ht.left.count]; exact hsn, hcs⟩
        · refine .inr ⟨b, s, .inr (.inl rfl), ?_, by rw [ht.right.count]; exact hsn, hcs⟩
          rw [Function.update_self, hi]
      by_cases hpq : p = q
      · rw [hpq] at hp
        obtain ⟨s, hsle, heq⟩ := widened_old (e := h.ent q) (R := R)
          (x := ((full (n + 1)).1, some b)) hp.le
        refine .inr ⟨q, s, .inr (.inr rfl), (used_ne hb hp.level).2, ?_, ?_⟩
        · rw [ht.parent.count]
          exact hsle
        · rw [ht.parent.ent s hsle, heq]
          exact hp.child
      · refine .inl ⟨p, r, ?_, hp⟩
        rintro (h | h | h)
        · exact hpa h
        · exact (used_ne (d := none) hb hp.level).1 h
        · exact hpq h
  · intro p i hp
    by_cases hpb : p = b
    · rw [hpb, Function.update_self] at hp
      cases hp
      exact hs.bound a k hla
    · rw [Function.update_of_ne hpb] at hp
      exact hs.bound p i hp

/-- And it has the keys that it had. -/
theorem Taken.keys : h'.keys (top + 1) (some root) = h.keys (top + 1) (some root) := by
  have hla := hq.below hs
  have hRle := hq.le
  have haround : Around h lv q (k + 1) fun p => p = a ∨ p = b ∨ p = q := by
    rintro p i (rfl | rfl | rfl) hp
    · exact .inr ⟨R, hq⟩
    · exact absurd (hb.symm.trans hp) (by simp)
    · exact .inl rfl
  refine hs.keys_kept hq.level haround ht.same ?_
  -- the other children of the two pages have the keys that they had
  have hkids : ∀ c i, lv c = some i → i ≤ k → c ≠ a →
      h'.keys (i + 1) (some c) = h.keys (i + 1) (some c) := by
    intro c i hc hi hca
    have hcq : c ≠ q := level_ne hc hq.level (by omega)
    refine hs.keys_untouched hq.level haround ht.same hc (by omega) hcq ?_
    rintro (h | h | h)
    · exact hca h
    · exact (used_ne (d := none) hb hc).1 h
    · exact hcq h
  have hhalves := halves_keys ht.left ht.right hw (k := k) ?_
  · have hqkids : ∀ s ≤ (h q).pM, s ≠ R →
        h'.keys (k + 1) (h.ent q s).2 = h.keys (k + 1) (h.ent q s).2 := by
      intro s hsle hsR
      obtain ⟨c, hc, hlv⟩ := (hs.page q (k + 1) hq.level).below s hsle
      rw [hc]
      refine hkids c k hlv (Nat.le_refl k) ?_
      rintro rfl
      exact hsR (ChildOf.unique hs ⟨hq.level, hsle, hc⟩ hq).2
    have hbefore : rowBefore (h'.keys (k + 1)) (h.ent q) R = rowBefore (h.keys (k + 1)) (h.ent q) R :=
      rowBefore_congr (fun s hlt => hqkids s (by omega) (by omega)) fun _ _ _ => rfl
    have hbehind : rowBehind (h'.keys (k + 1)) (h.ent q) R (h q).pM =
        rowBehind (h.keys (k + 1)) (h.ent q) R (h q).pM :=
      rowBehind_congr (fun s hlt hle => hqkids s hle (by omega)) fun _ _ _ => rfl
    rw [(hs.page q (k + 1) hq.level).holds.keys, rowKeys_at hRle, hq.child, ht.parent.keys,
      rowKeys_widened hRle, hq.child, hhalves, hbefore, hbehind]
  · intro r hr
    have hbelow := (hs.page a k hla).below r (by rw [hw.count]; exact hr)
    rw [hw.ent r hr] at hbelow
    cases k with
    | zero =>
        rw [Below] at hbelow
        rw [hbelow, keys_none, keys_none]
    | succ k =>
        obtain ⟨c, hc, hlv⟩ := hbelow
        rw [hc]
        exact hkids c k hlv (by omega) (level_ne hlv hla (by omega))

end Taken

/-- What `BTInsert` puts above the pages. -/
def newRoot (g : BTAddr) (pP : Option BTAddr) (V : α) (pNewPage : Option BTAddr) (h : BTHeap α) :
    BTHeap α :=
  (((h.set g fun _ => clearedPage).btSetN g 0 pP).btSet g 1 V pNewPage).setM g 1

def rootRow (pP : Option BTAddr) (V : α) (pNewPage : Option BTAddr) (r : ℕ) : α × Option BTAddr :=
  if r = 0 then (default, pP) else (V, pNewPage)

theorem newRoot_ent {pP d : Option BTAddr} : (newRoot g pP V d h).ent p r =
    if p = g then (if r = 0 then (default, pP) else if r = 1 then (V, d)
      else (default, none)) else h.ent p r := by
  unfold newRoot
  rw [ent_setM, ent_btSet (Nat.le_refl 1), ent_btSetN]
  have hclear : (h.set g fun _ => clearedPage).ent p r = if p = g then (default, none) else h.ent p r := by
    unfold ent
    by_cases hp : p = g
    · rw [hp, set_self, if_pos rfl]
      unfold clearedPage
      simp
    · rw [set_of_ne hp, if_neg hp]
  by_cases hp : p = g
  · by_cases h0 : r = 0
    · simp [hp, h0, ent]
    · by_cases h1 : r = 1
      · simp [hp, h1]
      · rw [if_pos hp] at hclear
        rw [if_neg (mt And.right h1), if_neg (mt And.right h0), hclear]
        simp [hp, h0, h1]
  · simp [hp, hclear]

theorem newRoot_link {pP d : Option BTAddr} (hc : c ≠ g) : (newRoot g pP V d h).link c =
    if d = some c then (some g, 1) else if pP = some c then (some g, 0) else h.link c := by
  unfold newRoot
  rw [link_setM, link_btSet, link_btSetN]
  have hclear : (h.set g fun _ => clearedPage).link c = h.link c := by
    unfold link
    rw [set_of_ne hc]
  rw [hclear]

theorem newRoot_count {pP d : Option BTAddr} :
    (newRoot g pP V d h p).pM = if p = g then 1 else (h p).pM := by
  unfold newRoot
  rw [m_setM, m_btSet, m_btSetN]
  by_cases hp : p = g
  · rw [if_pos hp, if_pos hp]
  · rw [if_neg hp, if_neg hp, set_of_ne hp]

theorem newRoot_orphan {pP d : Option BTAddr} (hP : pP ≠ some g) (hd : d ≠ some g) :
    (newRoot g pP V d h g).pParent = none := by
  have hlink : (newRoot g pP V d h).link g = (none, 0) := by
    unfold newRoot
    rw [link_setM, link_btSet, if_neg hd, link_btSetN, if_neg hP]
    unfold link
    rw [set_self]
    rfl
  exact (Prod.mk.inj hlink).1

theorem newRoot_holds {pP d : Option BTAddr} (hP : ∀ c, pP = some c → c ≠ g ∧ d ≠ some c)
    (hd : d ≠ some g) : Holds (newRoot g pP V d h) g 1 (rootRow pP V d) := by
  refine ⟨?_, ?_, ?_⟩
  · rw [newRoot_count, if_pos rfl]
  · intro r hr
    rw [newRoot_ent, if_pos rfl]
    unfold rootRow
    by_cases h0 : r = 0
    · rw [if_pos h0, if_pos h0]
    · rw [if_neg h0, if_neg h0, if_pos (by omega)]
  · intro r hr c hc
    unfold rootRow at hc
    by_cases h0 : r = 0
    · rw [if_pos h0] at hc
      obtain ⟨hcg, hcd⟩ := hP c hc
      rw [newRoot_link hcg, if_neg hcd, if_pos hc, h0]
    · rw [if_neg h0] at hc
      have hcg : c ≠ g := by
        rintro rfl
        exact hd hc
      rw [newRoot_link hcg, if_pos hc, show r = 1 by omega]

theorem newRoot_same {pP d : Option BTAddr} (hp : p ≠ g) : SamePage h (newRoot g pP V d h) p := by
  refine ⟨?_, ?_⟩
  · intro r
    rw [newRoot_ent, if_neg hp]
  · rw [newRoot_count, if_neg hp]

/-- The halves of the root come under a new one. -/
theorem Halved.grow (hx : Halved h h' lv root b top n full) (hs : Shape h lv root top)
    (hg : lv g = none) (hgb : g ≠ b) {h'' : BTHeap α}
    (hroot : h'' = newRoot g (some root) (full (n + 1)).1 (some b) h') :
    Shape h'' (Function.update (Function.update lv b (some top)) g (some (top + 1))) g (top + 1) ∧
      h''.keys (top + 2) (some g) = h.keys (top + 1) (some root) ∧
      Holds h'' root n full ∧ Holds h'' b n (rowAfter full (n + 1)) ∧
      Holds h'' g 1 (rootRow (some root) (full (n + 1)).1 (some b)) ∧
      ∀ p, ¬ (p = root ∨ p = b ∨ p = g) → SamePage h h'' p := by
  have hgroot : g ≠ root := by
    rintro rfl
    exact absurd (hg.symm.trans hx.level) (by simp)
  have hold : ∀ c i, lv c = some i →
      Function.update (Function.update lv b (some top)) g (some (top + 1)) c = some i := by
    intro c i hc
    rw [Function.update_of_ne (used_ne (d := none) hg hc).1]
    exact (used_ne hx.fresh hc).2
  have hlevb : Function.update (Function.update lv b (some top)) g (some (top + 1)) b = some top := by
    rw [Function.update_of_ne hgb.symm, Function.update_self]
  have hlink : ∀ c, c ≠ g → c ≠ root → c ≠ b → h''.link c = h'.link c := by
    intro c hcg hcr hcb
    rw [hroot, newRoot_link hcg, if_neg fun h => hcb (Option.some.inj h).symm,
      if_neg fun h => hcr (Option.some.inj h).symm]
  have hkid : ∀ {q j r c}, ChildOf h lv q j r c → h''.link c = h'.link c := by
    intro q j r c hc
    exact hlink c (hc.used hs hg) (hc.ne_root hs) (hc.used hs hx.fresh)
  have hsame : ∀ p, ¬ (p = root ∨ p = b ∨ p = g) → SamePage h h'' p := by
    intro p hp
    have h₁ := hx.same p (fun h => hp (.inl h)) fun h => hp (.inr (.inl h))
    have h₂ : SamePage h' (newRoot g (some root) (full (n + 1)).1 (some b) h') p :=
      newRoot_same fun h => hp (.inr (.inr h))
    rw [← hroot] at h₂
    exact ⟨fun r => (h₂.ent r).trans (h₁.ent r), h₂.count.trans h₁.count⟩
  have hleft : Holds h'' root n full := by
    refine hx.left.kept (hroot ▸ newRoot_same hgroot.symm) ?_
    intro r hr c hc
    exact hkid (hx.child (by omega) hc)
  have hright : Holds h'' b n (rowAfter full (n + 1)) := by
    refine hx.right.kept (hroot ▸ newRoot_same hgb.symm) ?_
    intro r hr c hc
    rw [rowAfter_child] at hc
    exact hkid (hx.child (by omega) hc)
  have hnew : Holds h'' g 1 (rootRow (some root) (full (n + 1)).1 (some b)) := by
    rw [hroot]
    refine newRoot_holds ?_ ?_
    · intro c hc
      rw [← Option.some.inj hc]
      exact ⟨hgroot.symm, fun h => hx.ne (Option.some.inj h)⟩
    · intro h
      exact hgb (Option.some.inj h).symm
  have hbelow : ∀ r ≤ 2 * n + 1,
      Below (Function.update (Function.update lv b (some top)) g (some (top + 1))) top (full r).2 := by
    intro r hr
    refine (hx.below hs hr).congr ?_
    intro c hc
    obtain ⟨j, -, hlv⟩ := (hx.below hs hr).child hc
    rw [hold c j hlv, hlv]
  refine ⟨?_, ?_, hleft, hright, hnew, hsame⟩
  · refine hs.change hsame ?_ ?_ ?_ (Function.update_self ..) ?_ ?_ ?_
    · intro p hp
      rw [Function.update_of_ne fun h => hp (.inr (.inr h)),
        Function.update_of_ne fun h => hp (.inr (.inl h))]
    · intro q i r c hq hc
      obtain ⟨j, -, hlv⟩ := hc.levelDown hs
      refine ⟨(hkid hc).trans (hx.link_other hs hc fun h => hq (.inl h)), ?_⟩
      rw [hold c j hlv, hlv]
    · rintro p i (rfl | rfl | rfl) hp
      · rw [hold p top hx.level] at hp
        cases hp
        exact hleft.pageAt fun r hr => hbelow r (by omega)
      · rw [hlevb] at hp
        cases hp
        refine hright.pageAt ?_
        intro r hr
        rw [rowAfter_child]
        exact hbelow _ (by omega)
      · rw [Function.update_self] at hp
        cases hp
        refine hnew.pageAt ?_
        intro r _
        unfold rootRow
        by_cases h0 : r = 0
        · rw [if_pos h0]
          exact ⟨root, rfl, hold root top hx.level⟩
        · rw [if_neg h0]
          exact ⟨b, rfl, hlevb⟩
    · rw [hroot]
      exact newRoot_orphan (fun h => hgroot (Option.some.inj h).symm)
        fun h => hgb (Option.some.inj h).symm
    · intro c i hc hcg
      by_cases hcb : c = b
      · rw [hcb, hlevb] at hc
        cases hc
        refine .inr ⟨g, 1, .inr (.inr rfl), Function.update_self .., ?_, ?_⟩
        · rw [hnew.count]
        · rw [hnew.ent 1 (Nat.le_refl 1), hcb]
          rfl
      rw [Function.update_of_ne hcg, Function.update_of_ne hcb] at hc
      by_cases hcr : c = root
      · rw [hcr, hx.level] at hc
        cases hc
        refine .inr ⟨g, 0, .inr (.inr rfl), Function.update_self .., Nat.zero_le _, ?_⟩
        rw [hnew.ent 0 (Nat.zero_le 1), hcr]
        rfl
      obtain ⟨p, r, hp⟩ := hs.up c i hc hcr
      by_cases hpr : p = root
      · rw [hpr] at hp
        have hr := hp.le
        rw [hx.whole.count] at hr
        have hchild := hp.child
        rw [hx.whole.ent r hr] at hchild
        have hi := Option.some.inj (hx.level.symm.trans hp.level)
        rcases Halved.half hleft hright hr hchild with ⟨s, hsn, hcs⟩ | ⟨s, hsn, hcs⟩
        · refine .inr ⟨root, s, .inl rfl, hold root _ hp.level, ?_, hcs⟩
          rw [hleft.count]
          exact hsn
        · refine .inr ⟨b, s, .inr (.inl rfl), hi ▸ hlevb, ?_, hcs⟩
          rw [hright.count]
          exact hsn
      · refine .inl ⟨p, r, ?_, hp⟩
        rintro (h | h | h)
        · exact hpr h
        · exact (used_ne (d := none) hx.fresh hp.level).1 h
        · exact (used_ne (d := none) hg hp.level).1 h
    · intro p i hp
      by_cases hpg : p = g
      · rw [hpg, Function.update_self] at hp
        cases hp
        exact Nat.le_refl _
      rw [Function.update_of_ne hpg] at hp
      by_cases hpb : p = b
      · rw [hpb, Function.update_self] at hp
        cases hp
        omega
      · rw [Function.update_of_ne hpb] at hp
        have := hs.bound p i hp
        omega
  · have haround : Around h lv root top fun p => p = root ∨ p = b ∨ p = g := by
      rintro p i (rfl | rfl | rfl) hp
      · exact .inl rfl
      · exact absurd (hx.fresh.symm.trans hp) (by simp)
      · exact absurd (hg.symm.trans hp) (by simp)
    have hhalves := halves_keys hleft hright hx.whole (k := top) ?_
    · rw [hnew.keys, ← hhalves]
      unfold rowKeys rootRow
      simp
    · intro r hr
      have hb := hx.below hs hr
      cases top with
      | zero =>
          rw [Below] at hb
          rw [hb, keys_none, keys_none]
      | succ k =>
          obtain ⟨c, hc, hlv⟩ := hb
          rw [hc]
          have hcr : c ≠ root := level_ne hlv hx.level (by omega)
          refine hs.keys_untouched hx.level haround hsame hlv (by omega) hcr ?_
          rintro (h | h | h)
          · exact hcr h
          · exact (used_ne (d := none) hx.fresh hlv).1 h
          · exact (used_ne (d := none) hg hlv).1 h

end Split

/-! ### The loop -/

/-- How many items a page may have. -/
def Enough (n : ℕ) (root p : BTAddr) (m : ℕ) : Prop := (if p = root then 1 else n) ≤ m ∧ m ≤ 2 * n

/-- A tree that has keys. -/
structure Grown (t : BTree α) (root : BTAddr) (lv : BTAddr → Option ℕ) (top : ℕ) (keys : List α) :
    Prop where
  order : 1 ≤ t.bN
  bRoot : t.bRoot = some root
  shape : Shape t.heap lv root top
  unused : ∀ p, t.bNext ≤ p → lv p = none
  filled : ∀ p k, lv p = some k → Enough t.bN root p (t.heap p).pM
  keys : t.heap.keys (top + 1) (some root) = keys

/-- The tree would have the keys if page `a` took the entry. -/
structure Raised (t : BTree α) (a : BTAddr) (R : ℕ) (V : α) (pNewPage : Option BTAddr)
    (root : BTAddr) (lv : BTAddr → Option ℕ) (top k : ℕ) (keys : List α) : Prop where
  order : 1 ≤ t.bN
  bRoot : t.bRoot = some root
  holds : Holds t.heap a (t.heap a).pM (t.heap.ent a)
  le : R ≤ (t.heap a).pM
  apart : ∀ c, pNewPage = some c → ∀ r ≤ (t.heap a).pM, (t.heap.ent a r).2 ≠ some c
  level : lv a = some k
  shape : Shape (BTree.insertAt a R V pNewPage t.heap) lv root top
  unused : ∀ p, t.bNext ≤ p → lv p = none
  filled : ∀ p j, lv p = some j → p ≠ a →
    Enough t.bN root p (BTree.insertAt a R V pNewPage t.heap p).pM
  some_items : a ≠ root → t.bN ≤ (t.heap a).pM
  few_items : (t.heap a).pM ≤ 2 * t.bN
  keys : (BTree.insertAt a R V pNewPage t.heap).keys (top + 1) (some root) = keys

section Loop
variable {t : BTree α} {a b q root : BTAddr} {R R' k top : ℕ} {V : α} {pNewPage : Option BTAddr}
  {lv : BTAddr → Option ℕ} {keys : List α} {s : BTSplit α}

theorem Holds.own {h : BTHeap α} {p : BTAddr} {m : ℕ} {e : ℕ → α × Option BTAddr}
    (hh : Holds h p m e) : Holds h p (h p).pM (h.ent p) := by
  refine ⟨rfl, fun _ _ => rfl, ?_⟩
  intro r hr c hc
  rw [hh.count] at hr
  rw [hh.ent r hr] at hc
  exact hh.link r hr c hc

/-- A page that has room takes the entry. -/
theorem Raised.take (hx : Raised t a R V pNewPage root lv top k keys)
    (hroom : (t.heap a).pM ≠ 2 * t.bN) :
    Grown { t with heap := BTree.insertAt a R V pNewPage t.heap } root lv top keys := by
  obtain ⟨htaken, -⟩ := insertAt_holds (V := V) hx.holds hx.le hx.apart
  have hfew := hx.few_items
  refine ⟨hx.order, hx.bRoot, hx.shape, hx.unused, ?_, hx.keys⟩
  intro p j hp
  by_cases hpa : p = a
  · rw [hpa]
    change Enough t.bN root a _
    rw [htaken.count]
    refine ⟨?_, by omega⟩
    by_cases har : a = root
    · rw [if_pos har]
      omega
    · rw [if_neg har]
      have := hx.some_items har
      omega
  · exact hx.filled p j hp hpa

/-- A full page is split with the entry that it would have taken. -/
theorem Raised.halved (hx : Raised t a R V pNewPage root lv top k keys)
    (hfull : (t.heap a).pM = 2 * t.bN) (hs : s = btSplit t.bN a t.bNext R V pNewPage
      (t.heap.ent a R).2 (t.heap.set t.bNext fun _ => clearedPage)) :
    s.up = (widened (t.heap.ent a) R (V, pNewPage) (t.bN + 1)).1 ∧
      Halved (BTree.insertAt a R V pNewPage t.heap) s.heap lv a t.bNext k t.bN
        (widened (t.heap.ent a) R (V, pNewPage)) := by
  have hfresh := hx.unused t.bNext (Nat.le_refl _)
  obtain ⟨htaken, hbeside⟩ := insertAt_holds (V := V) hx.holds hx.le hx.apart
  rw [hfull] at htaken hbeside
  have hab : t.bNext ≠ a := by
    intro h
    rw [h] at hfresh
    exact absurd (hfresh.symm.trans hx.level) (by simp)
  have hcleared : ∀ p, p ≠ t.bNext →
      (t.heap.set t.bNext fun _ => clearedPage) p = t.heap p := fun p hp => set_of_ne hp _
  have hsame : ∀ p, p ≠ t.bNext → SamePage t.heap (t.heap.set t.bNext fun _ => clearedPage) p := by
    intro p hp
    refine ⟨?_, ?_⟩
    · intro r
      unfold ent
      rw [hcleared p hp]
    · rw [hcleared p hp]
  have hlink : ∀ c, c ≠ t.bNext →
      (t.heap.set t.bNext fun _ => clearedPage).link c = t.heap.link c := by
    intro c hc
    unfold link
    rw [hcleared c hc]
  -- the children of the page are pages in use
  have hused : ∀ r ≤ 2 * t.bN + 1, ∀ c,
      (widened (t.heap.ent a) R (V, pNewPage) r).2 = some c → c ≠ t.bNext := by
    intro r hr c hc
    have hchild : ChildOf (BTree.insertAt a R V pNewPage t.heap) lv a k r c := by
      refine ⟨hx.level, ?_, ?_⟩
      · rw [htaken.count]
        exact hr
      · rw [htaken.ent r hr]
        exact hc
    exact hchild.used hx.shape hfresh
  have hpage : Holds (t.heap.set t.bNext fun _ => clearedPage) a (2 * t.bN) (t.heap.ent a) := by
    have hown := hx.holds
    rw [hfull] at hown
    refine hown.kept (hsame a hab.symm) ?_
    intro r hr c hc
    refine hlink c ?_
    obtain ⟨i, hi, heq⟩ := widened_old (e := t.heap.ent a) (R := R) (x := (V, pNewPage)) hr
    exact hused i hi c (heq ▸ hc)
  have hR := hx.le
  have hapart := hx.apart
  rw [hfull] at hR hapart
  obtain ⟨hup, hleft, hright, hrest⟩ := btSplit_holds hpage hab hR hapart rfl hs
  refine ⟨hup, hx.level, hfresh, htaken, hleft, hright, ?_, ?_⟩
  · intro p hpa hpb
    have hp : ¬ (p = a ∨ p = t.bNext) := fun h => h.elim hpa hpb
    refine ⟨?_, ?_⟩
    · intro r
      rw [hrest.ent p hp, (hsame p hpb).ent, hbeside.ent p hpa]
    · rw [hrest.count p hp, (hsame p hpb).count, hbeside.count p hpa]
  · intro c hcb hc
    have hnot : ¬ ∃ r ≤ 2 * t.bN + 1, (widened (t.heap.ent a) R (V, pNewPage) r).2 = some c := by
      rintro ⟨r, hr, hcr⟩
      exact hc r hr hcr
    rw [hrest.link c hnot, hlink c hcb, hbeside.link c hnot]

/-- The entry that goes up is to be taken by the parent. -/
theorem Raised.up (hx : Raised t a R V pNewPage root lv top k keys)
    (hfull : (t.heap a).pM = 2 * t.bN) (hs : s = btSplit t.bN a t.bNext R V pNewPage
      (t.heap.ent a R).2 (t.heap.set t.bNext fun _ => clearedPage))
    (hq : ChildOf (BTree.insertAt a R V pNewPage t.heap) lv q (k + 1) R' a) :
    (s.heap.ent q R').2 = some a ∧
      Raised { t with heap := s.heap, bNext := t.bNext + 1 } q R' s.up (some t.bNext) root
        (Function.update lv t.bNext (some k)) top (k + 1) keys := by
  obtain ⟨hup, hhalved⟩ := hx.halved hfull hs
  have hqa : q ≠ a := level_ne hq.level hx.level (by omega)
  have hqb : q ≠ t.bNext := (used_ne (d := none) hhalved.fresh hq.level).1
  have hsame := hhalved.same q hqa hqb
  have htaken := hhalved.taken hx.shape hq
  have har : a ≠ root := hq.ne_root hx.shape
  have hbr : t.bNext ≠ root := (used_ne (d := none) hhalved.fresh hx.shape.atTop).1.symm
  have hqfill := hx.filled q (k + 1) hq.level hqa
  refine ⟨?_, hx.order, hx.bRoot, (hhalved.parent hx.shape hq).own, ?_, ?_,
    (used_ne hhalved.fresh hq.level).2, ?_, ?_, ?_, ?_, ?_, ?_⟩
  · rw [hsame.ent]
    exact hq.child
  · change R' ≤ (s.heap q).pM
    rw [hsame.count]
    exact hq.le
  · intro c hc r hr
    change r ≤ (s.heap q).pM at hr
    rw [hsame.count] at hr
    change (s.heap.ent q r).2 ≠ some c
    rw [hsame.ent]
    exact hhalved.unplaced hx.shape hq c hc r hr
  · rw [hup]
    exact htaken.shape hx.shape hhalved.whole hhalved.fresh hq
  · intro p hp
    change t.bNext + 1 ≤ p at hp
    rw [Function.update_of_ne (Nat.ne_of_gt hp)]
    exact hx.unused p (Nat.le_of_succ_le hp)
  · intro p j hp hpq
    have hn := hx.order
    rw [hup]
    by_cases hpb : p = t.bNext
    · rw [hpb]
      change Enough t.bN root t.bNext _
      rw [htaken.right.count]
      exact ⟨by rw [if_neg hbr], by omega⟩
    rw [Function.update_of_ne hpb] at hp
    by_cases hpa : p = a
    · rw [hpa]
      change Enough t.bN root a _
      rw [htaken.left.count]
      exact ⟨by rw [if_neg har], by omega⟩
    · rw [(htaken.same p fun h => h.elim hpa fun h => h.elim hpb hpq).count]
      exact hx.filled p j hp hpa
  · intro hqr
    change t.bN ≤ (s.heap q).pM
    rw [hsame.count]
    have := hqfill.1
    rwa [if_neg hqr] at this
  · change (s.heap q).pM ≤ 2 * t.bN
    rw [hsame.count]
    exact hqfill.2
  · rw [hup]
    exact (htaken.keys hx.shape hhalved.whole hhalved.fresh hq).trans hx.keys

/-- Over the root that was split there is a new one. -/
theorem Raised.grow (hx : Raised t root R V pNewPage root lv top top keys)
    (hfull : (t.heap root).pM = 2 * t.bN) (hs : s = btSplit t.bN root t.bNext R V pNewPage
      (t.heap.ent root R).2 (t.heap.set t.bNext fun _ => clearedPage)) :
    Grown { t with
        heap := newRoot (t.bNext + 1) (some root) s.up (some t.bNext) s.heap
        bRoot := some (t.bNext + 1)
        bNext := t.bNext + 1 + 1 } (t.bNext + 1)
      (Function.update (Function.update lv t.bNext (some top)) (t.bNext + 1) (some (top + 1)))
      (top + 1) keys := by
  obtain ⟨hup, hhalved⟩ := hx.halved hfull hs
  have hn := hx.order
  have hg : lv (t.bNext + 1) = none := hx.unused _ (Nat.le_succ _)
  have hgb : t.bNext + 1 ≠ t.bNext := Nat.succ_ne_self _
  obtain ⟨hshape, hkeys, hleft, hright, hnew, hsame⟩ := hhalved.grow hx.shape hg hgb rfl
  rw [← hup] at hshape hkeys hleft hright hnew hsame
  have hrg : root ≠ t.bNext + 1 := (used_ne (d := none) hg hx.level).1
  refine ⟨hn, rfl, hshape, ?_, ?_, hkeys.trans hx.keys⟩
  · intro p hp
    change t.bNext + 1 + 1 ≤ p at hp
    rw [Function.update_of_ne (Nat.ne_of_gt hp),
      Function.update_of_ne (Nat.ne_of_gt (Nat.le_of_succ_le hp))]
    exact hx.unused p (Nat.le_of_succ_le (Nat.le_of_succ_le hp))
  · intro p j hp
    by_cases hpg : p = t.bNext + 1
    · rw [hpg]
      change Enough t.bN (t.bNext + 1) (t.bNext + 1) _
      rw [hnew.count]
      exact ⟨by rw [if_pos rfl], by omega⟩
    by_cases hpb : p = t.bNext
    · rw [hpb]
      change Enough t.bN (t.bNext + 1) t.bNext _
      rw [hright.count]
      exact ⟨by rw [if_neg hgb.symm], by omega⟩
    by_cases hpr : p = root
    · rw [hpr]
      change Enough t.bN (t.bNext + 1) root _
      rw [hleft.count]
      exact ⟨by rw [if_neg hrg], by omega⟩
    rw [Function.update_of_ne hpg, Function.update_of_ne hpb] at hp
    have hfill := hx.filled p j hp hpr
    change Enough t.bN (t.bNext + 1) p _
    rw [(hsame p fun h => h.elim hpr fun h => h.elim hpb hpg).count]
    refine ⟨?_, hfill.2⟩
    have hlow := hfill.1
    rw [if_neg hpr] at hlow
    rw [if_neg hpg]
    exact hlow

/-- The loop of `BTInsert` ends with the tree that has the keys. -/
theorem insertUp_grown {fuel : ℕ} (hx : Raised t a R V pNewPage root lv top k keys)
    (hfuel : top + 2 ≤ fuel + k) : ∃ t' root' lv' top',
      t.insertUp fuel (some a) R V pNewPage (t.heap.ent a R).2 = some t' ∧
        Grown t' root' lv' top' keys ∧ t'.bN = t.bN ∧ t'.bCompare = t.bCompare ∧ t'.bCnt = t.bCnt := by
  induction fuel generalizing t a R V pNewPage lv k with
  | zero =>
      have := hx.shape.bound a k hx.level
      omega
  | succ fuel ih =>
      rw [BTree.insertUp]
      by_cases hfull : (t.heap a).pM = 2 * t.bN
      · simp only [if_pos hfull]
        obtain ⟨s, hs⟩ : ∃ s, s = btSplit t.bN a t.bNext R V pNewPage (t.heap.ent a R).2
          (t.heap.set t.bNext fun _ => clearedPage) := ⟨_, rfl⟩
        rw [← hs]
        obtain ⟨-, hhalved⟩ := hx.halved hfull hs
        have hlink := hhalved.link_self hx.shape
        by_cases har : a = root
        · -- there is no page above
          subst har
          have hk : k = top := Option.some.inj (hx.level.symm.trans hx.shape.atTop)
          subst hk
          have hnone : (s.heap a).pParent = none :=
            (Prod.mk.inj hlink).1.trans hx.shape.orphan
          rw [hnone]
          obtain ⟨fuel, rfl⟩ : ∃ f, fuel = f + 1 := ⟨fuel - 1, by omega⟩
          exact ⟨_, _, _, _, rfl, hx.grow hfull hs, rfl, rfl, rfl⟩
        · obtain ⟨q, R', hq⟩ := hx.shape.up a k hx.level har
          obtain ⟨hchild, hup⟩ := hx.up hfull hs hq
          have hpl := hlink.trans (hq.link hx.shape)
          have hparent : (s.heap a).pParent = some q := (Prod.mk.inj hpl).1
          have hindex : (s.heap a).pParentIndex = R' := (Prod.mk.inj hpl).2
          rw [hparent, hindex, ← hchild]
          exact ih hup (by omega)
      · simp only [if_neg hfull]
        exact ⟨_, _, _, _, rfl, hx.take hfull, rfl, rfl, rfl⟩

end Loop

end PaxosSolutions.NWGadget
