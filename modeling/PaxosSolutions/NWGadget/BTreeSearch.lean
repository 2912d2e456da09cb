import PaxosSolutions.NWGadget.BTreeInsert

/-!
# Where a key is put

The comparator cuts the keys in order in those below the new key and the others.
The search finds the place of the cut in a leaf, page after page, and so the new
key comes before the keys that are equal to it.
-/
namespace PaxosSolutions.NWGadget
open Lib BTHeap

variable {α : Type}

/-- A comparator that is a total preorder. -/
structure Preorders (cmp : α → α → ℤ) : Prop where
  swap : ∀ a b, cmp a b < 0 ↔ 0 < cmp b a
  trans : ∀ a b c, cmp a b ≤ 0 → cmp b c ≤ 0 → cmp a c ≤ 0

/-- The difference of two numbers -/
theorem preorders_sub : Preorders fun a b : ℤ => a - b := by
  refine ⟨?_, ?_⟩
  · intro a b
    omega
  · intro a b c hab hbc
    omega

/-- The keys are in the order of the comparator. -/
def Ordered (cmp : α → α → ℤ) (keys : List α) : Prop := keys.Pairwise fun a b => cmp a b ≤ 0

/-- What is below comes first. -/
def Cut (below : α → Bool) (keys : List α) : Prop :=
  keys.Pairwise fun a b => below b = true → below a = true

section Cuts
variable {cmp : α → α → ℤ} {below : α → Bool} {keys l l' : List α} {x y : α}

theorem Preorders.lt_of_le (hc : Preorders cmp) {a b c : α} (hab : cmp a b ≤ 0) (hbc : cmp b c < 0) :
    cmp a c < 0 := by
  by_contra hac
  have hca : cmp c a ≤ 0 := by
    by_contra h
    exact hac ((hc.swap a c).mpr (by omega))
  have hcb := hc.trans c a b hca hab
  have := (hc.swap b c).mp hbc
  omega

theorem Ordered.cut (hc : Preorders cmp) (ho : Ordered cmp keys) (pKey : α) :
    Cut (fun x => decide (cmp x pKey < 0)) keys := by
  refine ho.imp ?_
  intro a b hab hb
  exact decide_eq_true (hc.lt_of_le hab (of_decide_eq_true hb))

theorem Cut.left (hc : Cut below (l ++ l')) : Cut below l := (List.pairwise_append.mp hc).1

theorem Cut.right (hc : Cut below (l ++ l')) : Cut below l' := (List.pairwise_append.mp hc).2.1

theorem Cut.last (hc : Cut below (l ++ [x])) (hx : below x = true) : ∀ y ∈ l, below y = true := by
  intro y hy
  exact (List.pairwise_append.mp hc).2.2 y hy x (List.mem_singleton_self x) hx

theorem Cut.head (hc : Cut below (x :: l)) (hx : below x = false) : ∀ y ∈ l, below y = false := by
  intro y hy
  by_contra hb
  have := (List.pairwise_cons.mp hc).1 y hy (by simpa using hb)
  rw [hx] at this
  cases this

/-- A key at the cut leaves the keys in order. -/
theorem Ordered.insert (hc : Preorders cmp) (ho : Ordered cmp (l ++ l'))
    (hl : ∀ y ∈ l, cmp y x < 0) (hr : ∀ y ∈ l', ¬ cmp y x < 0) : Ordered cmp (l ++ x :: l') := by
  obtain ⟨hol, hor, hlr⟩ := List.pairwise_append.mp ho
  refine List.pairwise_append.mpr ⟨hol, List.pairwise_cons.mpr ⟨?_, hor⟩, ?_⟩
  · intro y hy
    by_contra h
    exact hr y hy ((hc.swap y x).mpr (by omega))
  · intro y hy z hz
    rcases List.mem_cons.mp hz with rfl | hz
    · exact Int.le_of_lt (hl y hy)
    · exact hlr y hy z hz

end Cuts

section Search
variable {below : α → Bool} {page : BTPage α} {K : Option BTAddr → List α}
  {e : ℕ → α × Option BTAddr} {i j m R : ℕ}

/-- The search within a page, between what is known on both sides. -/
theorem btInd_go {fuel L R : ℕ} (hL : 1 ≤ L) (hLR : L ≤ R) (hR : R ≤ page.pM + 1) (hfuel : R ≤ L + fuel)
    (hcut : ∀ i j, i < j → j < page.pM → below (page.pItems j) = true → below (page.pItems i) = true)
    (hlow : ∀ i, i + 1 < L → below (page.pItems i) = true)
    (hhigh : ∀ i, R ≤ i + 1 → i < page.pM → below (page.pItems i) = false) :
    1 ≤ btInd.go below page fuel L R ∧ btInd.go below page fuel L R ≤ page.pM + 1 ∧
      (∀ i, i + 1 < btInd.go below page fuel L R → below (page.pItems i) = true) ∧
      ∀ i, btInd.go below page fuel L R ≤ i + 1 → i < page.pM → below (page.pItems i) = false := by
  induction fuel generalizing L R with
  | zero =>
      have hLR' : L = R := by omega
      rw [btInd.go]
      exact ⟨by omega, hR, hLR' ▸ hlow, hhigh⟩
  | succ fuel ih =>
      rw [btInd.go]
      by_cases hlt : L < R
      · rw [if_pos hlt]
        by_cases hb : below (page.pItems ((L + R) / 2 - 1)) = true
        · simp only [if_pos hb]
          refine ih (by omega) (by omega) hR (by omega) ?_ hhigh
          intro i hi
          by_cases hi' : i = (L + R) / 2 - 1
          · rw [hi']
            exact hb
          · exact hcut i ((L + R) / 2 - 1) (by omega) (by omega) hb
        · simp only [if_neg hb]
          refine ih hL (by omega) (by omega) (by omega) hlow ?_
          intro i hi hm
          by_contra hbi
          refine hb ?_
          by_cases hi' : i = (L + R) / 2 - 1
          · rw [← hi']
            simpa using hbi
          · exact hcut _ i (by omega) hm (by simpa using hbi)
      · have hLR' : L = R := by omega
        rw [if_neg hlt]
        exact ⟨by omega, hR, hLR' ▸ hlow, hhigh⟩

theorem btInd_spec (below : α → Bool) (page : BTPage α)
    (hcut : ∀ i j, i < j → j < page.pM → below (page.pItems j) = true → below (page.pItems i) = true) :
    btInd below page ≤ page.pM ∧ (∀ i < btInd below page, below (page.pItems i) = true) ∧
      ∀ i, btInd below page ≤ i → i < page.pM → below (page.pItems i) = false := by
  obtain ⟨h₁, h₂, h₃, h₄⟩ := @btInd_go α below page page.pM 1 (page.pM + 1) (by omega) (by omega) (by omega) (by omega) hcut (by omega) (by omega)
  unfold btInd
  refine ⟨by omega, ?_, ?_⟩
  · intro i hi
    exact h₃ i (by omega)
  · intro i hi hm
    exact h₄ i (by omega) hm

theorem mem_rowBefore (hij : i < j) : (e (i + 1)).1 ∈ rowBefore K e j := by
  refine List.mem_flatMap.mpr ⟨i, List.mem_range.mpr hij, ?_⟩
  exact List.mem_append.mpr (.inr (List.mem_singleton_self _))

/-- The items of a row are cut as the keys are. -/
theorem Cut.items (hc : Cut below (rowKeys K e m)) (hij : i < j) (hj : j < m)
    (hb : below (e (j + 1)).1 = true) : below (e (i + 1)).1 = true := by
  rw [rowKeys_pair hj] at hc
  refine (List.pairwise_append.mp hc).2.2 _ (mem_rowBefore hij) _ ?_ hb
  exact List.mem_append.mpr (.inl (List.mem_append.mpr (.inr (List.mem_cons_self ..))))

theorem Cut.rowBefore (hc : Cut below (rowKeys K e m)) (hR : R ≤ m)
    (hb : ∀ i < R, below (e (i + 1)).1 = true) : ∀ x ∈ rowBefore K e R, below x = true := by
  rw [rowKeys_at hR] at hc
  have hcut := hc.left
  cases R with
  | zero =>
      intro x hx
      cases hx
  | succ R =>
      rw [rowBefore_succ, ← List.append_assoc] at hcut ⊢
      intro x hx
      rcases List.mem_append.mp hx with hx | hx
      · exact hcut.last (hb R (Nat.lt_succ_self R)) x hx
      · rw [List.mem_singleton.mp hx]
        exact hb R (Nat.lt_succ_self R)

theorem Cut.rowBehind (hc : Cut below (rowKeys K e m)) (hR : R ≤ m)
    (hb : ∀ i, R ≤ i → i < m → below (e (i + 1)).1 = false) :
    ∀ x ∈ rowBehind K e R m, below x = false := by
  rw [rowKeys_at hR] at hc
  have hcut := hc.right.right
  intro x hx
  by_cases hlt : R < m
  · rw [rowBehind_cons hlt] at hcut hx
    rcases List.mem_cons.mp hx with rfl | hx
    · exact hb R (Nat.le_refl R) hlt
    · exact hcut.head (hb R (Nat.le_refl R) hlt) x hx
  · rw [show R = m by omega, rowBehind_self] at hx
    cases hx

end Search

section Descent
variable [Inhabited α] {t : BTree α} {root p : BTAddr} {lv : BTAddr → Option ℕ} {top k fuel : ℕ}
  {X Y : List α} {pKey : α}

/-- A leaf and a place in it, with the keys before it and behind it. -/
structure Spot (t : BTree α) (root : BTAddr) (lv : BTAddr → Option ℕ) (top : ℕ) (below : α → Bool)
    (a : BTAddr) (R : ℕ) (X Y : List α) : Prop where
  le : R ≤ (t.heap a).pM
  context : Context t.heap lv root top a 0 X Y
  before : ∀ x ∈ X ++ rowBefore (t.heap.keys 0) (t.heap.ent a) R, below x = true
  behind : ∀ y ∈ rowBehind (t.heap.keys 0) (t.heap.ent a) R (t.heap a).pM ++ Y, below y = false

/-- The search within a page finds the child at which the keys are cut. -/
theorem Context.cut {below : α → Bool} (hx : Context t.heap lv root top p k X Y)
    (hcut : Cut below (t.heap.keys (top + 1) (some root))) (hX : ∀ x ∈ X, below x = true)
    (hY : ∀ y ∈ Y, below y = false) {R : ℕ} (hR : R = btInd below (t.heap p)) :
    R ≤ (t.heap p).pM ∧
      (∀ x ∈ X ++ rowBefore (t.heap.keys k) (t.heap.ent p) R, below x = true) ∧
      ∀ y ∈ rowBehind (t.heap.keys k) (t.heap.ent p) R (t.heap p).pM ++ Y, below y = false := by
  rw [hx.here] at hcut
  have hkeys : Cut below (rowKeys (t.heap.keys k) (t.heap.ent p) (t.heap p).pM) := hcut.right.left
  obtain ⟨hle, hlow, hhigh⟩ := btInd_spec below (t.heap p)
    fun i j hij hj hb => by
      rw [pItems_eq] at hb ⊢
      exact hkeys.items hij hj hb
  rw [← hR] at hle hlow hhigh
  refine ⟨hle, ?_, ?_⟩
  · intro x hmem
    rcases List.mem_append.mp hmem with hmem | hmem
    · exact hX x hmem
    · refine hkeys.rowBefore hle ?_ x hmem
      intro i hi
      rw [← pItems_eq]
      exact hlow i hi
  · intro y hmem
    rcases List.mem_append.mp hmem with hmem | hmem
    · refine hkeys.rowBehind hle ?_ y hmem
      intro i hi hm
      rw [← pItems_eq]
      exact hhigh i hi hm
    · exact hY y hmem

/-- The search from a page on. -/
theorem findLeaf_spot (hs : Shape t.heap lv root top) (hx : Context t.heap lv root top p k X Y)
    (hcut : Cut (fun x => decide (t.bCompare x pKey < 0)) (t.heap.keys (top + 1) (some root)))
    (hX : ∀ x ∈ X, decide (t.bCompare x pKey < 0) = true)
    (hY : ∀ y ∈ Y, decide (t.bCompare y pKey < 0) = false) (hfuel : k < fuel) :
    ∃ a R X' Y', t.findLeaf pKey fuel p = some (a, R) ∧
      Spot t root lv top (fun x => decide (t.bCompare x pKey < 0)) a R X' Y' := by
  induction k generalizing p X Y fuel with
  | zero =>
      obtain ⟨fuel, rfl⟩ : ∃ f, fuel = f + 1 := ⟨fuel - 1, by omega⟩
      obtain ⟨hle, hbefore, hbehind⟩ := hx.cut hcut hX hY rfl
      have hleaf : (t.heap p).pPages
          (btInd (fun x => decide (t.bCompare x pKey < 0)) (t.heap p)) = none :=
        (hs.page p 0 hx.level).below _ hle
      rw [BTree.findLeaf]
      simp only [hleaf]
      exact ⟨p, _, X, Y, rfl, hle, hx, hbefore, hbehind⟩
  | succ k ih =>
      obtain ⟨fuel, rfl⟩ : ∃ f, fuel = f + 1 := ⟨fuel - 1, by omega⟩
      obtain ⟨hle, hbefore, hbehind⟩ := hx.cut hcut hX hY rfl
      obtain ⟨c, hc, -⟩ := (hs.page p (k + 1) hx.level).below _ hle
      have hchild : ChildOf t.heap lv p (k + 1)
          (btInd (fun x => decide (t.bCompare x pKey < 0)) (t.heap p)) c := ⟨hx.level, hle, hc⟩
      rw [← pPages_eq] at hc
      rw [BTree.findLeaf]
      simp only [hc]
      exact ih (hx.child hs hchild) hbefore hbehind (by omega)

/-! ### The insertion -/

omit [Inhabited α] in
theorem rowKeys_none {K : Option BTAddr → List α} (hK : K none = []) {e : ℕ → α × Option BTAddr}
    {R m : ℕ} {V : α} (hR : R ≤ m) (hnone : (e R).2 = none) :
    rowKeys K (widened e R (V, none)) (m + 1) = rowBefore K e R ++ V :: rowBehind K e R m := by
  rw [rowKeys_widened hR, hnone, hK]
  simp only [List.nil_append, List.cons_append]

/-- The leaf takes the key. -/
theorem Grown.raised {a : BTAddr} {R : ℕ} {below : α → Bool} {keys : List α}
    (hg : Grown t root lv top keys) (hx : Spot t root lv top below a R X Y) (V : α) :
    (t.heap.ent a R).2 = none ∧ Raised t a R V none root lv top 0
      ((X ++ rowBefore (t.heap.keys 0) (t.heap.ent a) R) ++
        V :: (rowBehind (t.heap.keys 0) (t.heap.ent a) R (t.heap a).pM ++ Y)) := by
  have hlevel := hx.context.level
  have hpage := hg.shape.page a 0 hlevel
  have hleaf : ∀ r ≤ (t.heap a).pM, (t.heap.ent a r).2 = none := fun r hr => hpage.below r hr
  have hapart : ∀ c, (none : Option BTAddr) = some c →
      ∀ r ≤ (t.heap a).pM, (t.heap.ent a r).2 ≠ some c := fun c hc => absurd hc (by simp)
  obtain ⟨htaken, hbeside⟩ := insertAt_holds (V := V) hpage.holds hx.le hapart
  have hnone : ∀ r ≤ (t.heap a).pM + 1, (widened (t.heap.ent a) R (V, none) r).2 = none := by
    intro r hr
    unfold widened
    split_ifs with h₁ h₂
    · exact hleaf r (by have := hx.le; omega)
    · rfl
    · exact hleaf (r - 1) (by omega)
  have hlink : ∀ c, (BTree.insertAt a R V none t.heap).link c = t.heap.link c := by
    intro c
    refine hbeside.link c ?_
    rintro ⟨r, hr, hc⟩
    rw [hnone r hr] at hc
    cases hc
  have hsame : ∀ p, ¬ p = a → SamePage t.heap (BTree.insertAt a R V none t.heap) p := fun p hp =>
    ⟨hbeside.ent p hp, hbeside.count p hp⟩
  have hfill := hg.filled a 0 hlevel
  refine ⟨hleaf R hx.le, hg.order, hg.bRoot, hpage.holds, hx.le, hapart,
    hlevel, ?_, hg.unused, ?_, ?_, hfill.2, ?_⟩
  · refine hg.shape.change (P := fun p => p = a) hsame (fun _ _ => rfl) (fun _ _ _ c _ _ =>
      ⟨hlink c, rfl⟩) ?_ hg.shape.atTop ?_ ?_ hg.shape.bound
    · rintro p k rfl hp
      cases hp.symm.trans hlevel
      exact htaken.pageAt hnone
    · exact (Prod.mk.inj (hlink root)).1.trans hg.shape.orphan
    · intro c k hc hroot
      obtain ⟨q, r, hq⟩ := hg.shape.up c k hc hroot
      refine .inl ⟨q, r, ?_, hq⟩
      rintro rfl
      have := Option.some.inj (hq.level.symm.trans hlevel)
      omega
  · intro p j hp hpa
    rw [(hsame p hpa).count]
    exact hg.filled p j hp
  · intro har
    have := hfill.1
    rwa [if_neg har] at this
  · have haround : Around t.heap lv a 0 fun p => p = a := fun p j hp _ => .inl hp
    rw [hx.context.replaced hg.shape haround hsame, htaken.keys,
      rowKeys_none keys_none hx.le (hleaf R hx.le)]
    have hzero : (BTree.insertAt a R V none t.heap).keys 0 = t.heap.keys 0 := rfl
    rw [hzero]
    simp only [List.append_assoc, List.cons_append]

theorem Grown.spot_keys {a : BTAddr} {R : ℕ} {below : α → Bool} {keys : List α}
    (hg : Grown t root lv top keys) (hx : Spot t root lv top below a R X Y) :
    keys = (X ++ rowBefore (t.heap.keys 0) (t.heap.ent a) R) ++
      (rowBehind (t.heap.keys 0) (t.heap.ent a) R (t.heap a).pM ++ Y) := by
  have hnone : (t.heap.ent a R).2 = none := (hg.shape.page a 0 hx.context.level).below R hx.le
  rw [← hg.keys, hx.context.here, keys_some, rowKeys_at hx.le, hnone, keys_none]
  simp only [List.append_assoc, List.nil_append]

/-- The tree has the keys, or there is none. -/
def BTree.Has (t : BTree α) (keys : List α) : Prop :=
  1 ≤ t.bN ∧ ((t.bRoot = none ∧ keys = []) ∨ ∃ root lv top, Grown t root lv top keys)

theorem Grown.counted {keys : List α} (hg : Grown t root lv top keys) (cnt : UInt64) :
    Grown { t with bCnt := cnt } root lv top keys :=
  ⟨hg.order, hg.bRoot, hg.shape, hg.unused, hg.filled, hg.keys⟩

/-- The first key gets a root. -/
theorem newRoot_grown (hn : 1 ≤ t.bN) (pKey : α) :
    Grown { t with
        heap := newRoot t.bNext none pKey none t.heap
        bRoot := some t.bNext
        bNext := t.bNext + 1 } t.bNext (Function.update (fun _ => none) t.bNext (some 0)) 0 [pKey] := by
  have hnew : Holds (newRoot t.bNext none pKey none t.heap) t.bNext 1 (rootRow none pKey none) :=
    newRoot_holds (fun c hc => absurd hc (by simp)) (by simp)
  have honly : ∀ p k, Function.update (fun _ => none) t.bNext (some 0) p = some k →
      p = t.bNext ∧ k = 0 := by
    intro p k hp
    by_cases hpb : p = t.bNext
    · rw [hpb, Function.update_self] at hp
      exact ⟨hpb, (Option.some.inj hp).symm⟩
    · rw [Function.update_of_ne hpb] at hp
      cases hp
  refine ⟨hn, rfl, ⟨Function.update_self .., newRoot_orphan (by simp) (by simp), ?_, ?_, ?_⟩, ?_, ?_, ?_⟩
  · intro p k hp
    obtain ⟨rfl, rfl⟩ := honly p k hp
    refine hnew.pageAt ?_
    intro r _
    unfold rootRow
    split_ifs <;> rfl
  · intro p k hp hne
    exact absurd (honly p k hp).1 hne
  · intro p k hp
    rw [(honly p k hp).2]
  · intro p hp
    change t.bNext + 1 ≤ p at hp
    rw [Function.update_of_ne (Nat.ne_of_gt hp)]
  · intro p k hp
    rw [(honly p k hp).1]
    change Enough t.bN t.bNext t.bNext _
    rw [hnew.count]
    exact ⟨by rw [if_pos rfl], by omega⟩
  · rw [hnew.keys]
    rfl

theorem BTInsert_some {r a : BTAddr} {R : ℕ} (hroot : t.bRoot = some r)
    (hfind : BTree.findLeaf { t with bCnt := t.bCnt + 1 } pKey t.bNext r = some (a, R)) :
    BTInsert pKey t =
      BTree.insertUp (t.bNext + 1) { t with bCnt := t.bCnt + 1 } (some a) R pKey none none := by
  obtain ⟨n, cmp, r', cnt, h, next⟩ := t
  obtain rfl : r' = some r := hroot
  change (BTree.findLeaf _ pKey next r).bind _ = _
  rw [hfind]
  rfl

/-- `BTInsert` puts the key before the keys that are not below it. -/
theorem btInsert_has {keys : List α} (hc : Preorders t.bCompare) (ht : t.Has keys)
    (ho : Ordered t.bCompare keys) (pKey : α) : ∃ t' l l', BTInsert pKey t = some t' ∧
      keys = l ++ l' ∧ t'.Has (l ++ pKey :: l') ∧ (∀ x ∈ l, t.bCompare x pKey < 0) ∧
      (∀ y ∈ l', ¬ t.bCompare y pKey < 0) ∧ t'.bN = t.bN ∧ t'.bCompare = t.bCompare ∧
      t'.bCnt = t.bCnt + 1 := by
  obtain ⟨hn, ⟨hroot, rfl⟩ | ⟨root, lv, top, hg⟩⟩ := ht
  · unfold BTInsert
    simp only [hroot]
    refine ⟨_, [], [], rfl, rfl, ⟨hn, .inr ⟨_, _, _, newRoot_grown (t := { t with bCnt := t.bCnt + 1 })
      hn pKey⟩⟩, ?_, ?_, rfl, rfl, rfl⟩
    · intro x hx
      cases hx
    · intro y hy
      cases hy
  · have hg' := hg.counted (t.bCnt + 1)
    have hcut := ho.cut hc pKey
    rw [← hg.keys] at hcut
    have hfuel := hg.shape.top_lt hg.unused
    obtain ⟨a, R, X, Y, hfind, hspot⟩ := findLeaf_spot (t := { t with bCnt := t.bCnt + 1 })
      hg'.shape hg'.shape.context_root hcut (fun x hx => absurd hx (by simp))
      (fun y hy => absurd hy (by simp)) hfuel
    have hkeys := hg'.spot_keys hspot
    obtain ⟨hnone, hraised⟩ := hg'.raised hspot pKey
    have hloop : top + 2 ≤ t.bNext + 1 + 0 := Nat.succ_le_succ hfuel
    obtain ⟨t', root', lv', top', hrun, hgrown, hN, hcmp, hcnt⟩ := insertUp_grown hraised hloop
    rw [hnone] at hrun
    refine ⟨t', _, _, ?_, hkeys, ⟨hN ▸ hn, .inr ⟨root', lv', top', hgrown⟩⟩, ?_, ?_, hN, hcmp, hcnt⟩
    · exact (BTInsert_some hg.bRoot hfind).trans hrun
    · intro x hx
      exact of_decide_eq_true (hspot.before x hx)
    · intro y hy
      exact of_decide_eq_false (hspot.behind y hy)

end Descent

end PaxosSolutions.NWGadget
