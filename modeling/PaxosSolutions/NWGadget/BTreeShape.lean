import PaxosSolutions.NWGadget.BTreeOrder
import Mathlib.Data.Finset.Card

/-!
# The shape of a B-tree

Every page that is in use has a level, leaves the level 0, and what the pages of a
level say of their children and of where they are makes them a tree with one
depth. An operation that writes a few pages has to account for those alone; what
hangs below other pages keeps its keys, and the keys of the whole tree are those
around a page and those below it.
-/
namespace PaxosSolutions.NWGadget
open Lib BTHeap

variable {α : Type} [Inhabited α]

/-- The child of a page at level `k`. -/
def Below (lv : BTAddr → Option ℕ) : ℕ → Option BTAddr → Prop
  | 0, d => d = none
  | k + 1, d => ∃ c, d = some c ∧ lv c = some k

/-- A page at level `k` has its children one level lower, and they know where they are. -/
structure PageAt (h : BTHeap α) (lv : BTAddr → Option ℕ) (p : BTAddr) (k : ℕ) : Prop where
  below : ∀ r ≤ (h p).pM, Below lv k (h.ent p r).2
  link : ∀ r ≤ (h p).pM, ∀ c, (h.ent p r).2 = some c → h.link c = (some p, r)

/-- Page `c` is child `r` of page `q` at level `k`. -/
structure ChildOf (h : BTHeap α) (lv : BTAddr → Option ℕ) (q : BTAddr) (k r : ℕ) (c : BTAddr) :
    Prop where
  level : lv q = some k
  le : r ≤ (h q).pM
  child : (h.ent q r).2 = some c

structure Shape (h : BTHeap α) (lv : BTAddr → Option ℕ) (root : BTAddr) (top : ℕ) : Prop where
  atTop : lv root = some top
  orphan : (h root).pParent = none
  page : ∀ p k, lv p = some k → PageAt h lv p k
  up : ∀ p k, lv p = some k → p ≠ root → ∃ q r, ChildOf h lv q (k + 1) r p
  bound : ∀ p k, lv p = some k → k ≤ top

/-- The page itself is as before. -/
structure SamePage (h h' : BTHeap α) (p : BTAddr) : Prop where
  ent : ∀ r, h'.ent p r = h.ent p r
  count : (h' p).pM = (h p).pM

section Levels
variable {h h' : BTHeap α} {lv lv' : BTAddr → Option ℕ} {root root' p q c a : BTAddr}
  {top top' k j r fuel : ℕ}

omit [Inhabited α] in
theorem Below.child {d : Option BTAddr} (hd : Below lv k d) (hc : d = some c) :
    ∃ j, k = j + 1 ∧ lv c = some j := by
  cases k with
  | zero =>
      rw [Below, hc] at hd
      cases hd
  | succ j =>
      obtain ⟨c', hc', hlv⟩ := hd
      rw [hc] at hc'
      exact ⟨j, rfl, Option.some.inj hc' ▸ hlv⟩

omit [Inhabited α] in
theorem Below.congr {d : Option BTAddr} (hd : Below lv k d) (hsame : ∀ c, d = some c → lv' c = lv c) :
    Below lv' k d := by
  cases k with
  | zero => exact hd
  | succ k =>
      obtain ⟨c, hc, hlv⟩ := hd
      exact ⟨c, hc, (hsame c hc).trans hlv⟩

theorem PageAt.holds (hp : PageAt h lv p k) : Holds h p (h p).pM (h.ent p) :=
  ⟨rfl, fun _ _ => rfl, hp.link⟩

theorem Holds.pageAt {m : ℕ} {e : ℕ → α × Option BTAddr} (hh : Holds h p m e)
    (hbelow : ∀ r ≤ m, Below lv k (e r).2) : PageAt h lv p k := by
  refine ⟨?_, ?_⟩
  · intro r hr
    rw [hh.count] at hr
    rw [hh.ent r hr]
    exact hbelow r hr
  · intro r hr c hc
    rw [hh.count] at hr
    rw [hh.ent r hr] at hc
    exact hh.link r hr c hc

theorem Holds.keys {m : ℕ} {e : ℕ → α × Option BTAddr} (hh : Holds h p m e) :
    h.keys (k + 1) (some p) = rowKeys (h.keys k) e m := by
  rw [keys_some, hh.count]
  refine rowKeys_congr ?_ ?_
  · intro r hr
    rw [hh.ent r hr]
  · intro r _ hr
    rw [hh.ent r hr]

theorem ChildOf.levelDown (hs : Shape h lv root top) (hc : ChildOf h lv q k r c) :
    ∃ j, k = j + 1 ∧ lv c = some j :=
  ((hs.page q k hc.level).below r hc.le).child hc.child

theorem ChildOf.link (hs : Shape h lv root top) (hc : ChildOf h lv q k r c) :
    h.link c = (some q, r) := (hs.page q k hc.level).link r hc.le c hc.child

theorem ChildOf.ne_root (hs : Shape h lv root top) (hc : ChildOf h lv q k r c) : c ≠ root := by
  intro hroot
  have hlink := (Prod.mk.inj (hc.link hs)).1
  rw [hroot] at hlink
  exact absurd (hs.orphan.symm.trans hlink) (by simp)

theorem ChildOf.unique (hs : Shape h lv root top) (hc : ChildOf h lv q k r c)
    (hc' : ChildOf h lv p j a c) : q = p ∧ r = a := by
  have hlink := (hc.link hs).symm.trans (hc'.link hs)
  exact ⟨Option.some.inj (Prod.mk.inj hlink).1, (Prod.mk.inj hlink).2⟩

theorem Shape.parent_none (hs : Shape h lv root top) (hp : lv p = some k) :
    (h p).pParent = none ↔ p = root := by
  constructor
  · intro hnone
    by_contra hne
    obtain ⟨q, r, hc⟩ := hs.up p k hp hne
    exact absurd (hnone.symm.trans (Prod.mk.inj (hc.link hs)).1) (by simp)
  · intro hroot
    rw [hroot]
    exact hs.orphan

theorem Shape.lt_top (hs : Shape h lv root top) (hp : lv p = some k) (hne : p ≠ root) : k < top := by
  obtain ⟨q, r, hc⟩ := hs.up p k hp hne
  have := hs.bound q (k + 1) hc.level
  omega

theorem Shape.top_root (hs : Shape h lv root top) (hp : lv p = some top) : p = root := by
  by_contra hne
  exact Nat.lt_irrefl _ (hs.lt_top hp hne)

/-- A tree is a tree again when the pages that were written account for their
children and for the pages that are new. -/
theorem Shape.change (hs : Shape h lv root top) {P : BTAddr → Prop}
    (hsame : ∀ p, ¬ P p → SamePage h h' p) (hlv : ∀ p, ¬ P p → lv' p = lv p)
    (hkeep : ∀ q k r c, ¬ P q → ChildOf h lv q k r c → h'.link c = h.link c ∧ lv' c = lv c)
    (hpage : ∀ p k, P p → lv' p = some k → PageAt h' lv' p k)
    (hroot : lv' root' = some top') (horphan : (h' root').pParent = none)
    (hup : ∀ c k, lv' c = some k → c ≠ root' → (∃ q r, ¬ P q ∧ ChildOf h lv q (k + 1) r c) ∨
      ∃ q r, P q ∧ ChildOf h' lv' q (k + 1) r c)
    (hbound : ∀ p k, lv' p = some k → k ≤ top') : Shape h' lv' root' top' := by
  refine ⟨hroot, horphan, ?_, ?_, hbound⟩
  · intro p k hp
    by_cases hP : P p
    · exact hpage p k hP hp
    · rw [hlv p hP] at hp
      have hold := hs.page p k hp
      have hsp := hsame p hP
      refine ⟨?_, ?_⟩
      · intro r hr
        rw [hsp.count] at hr
        rw [hsp.ent]
        have hb := hold.below r hr
        cases k with
        | zero => exact hb
        | succ k =>
            obtain ⟨c, hc, hlvc⟩ := hb
            exact ⟨c, hc, (hkeep p (k + 1) r c hP ⟨hp, hr, hc⟩).2.trans hlvc⟩
      · intro r hr c hc
        rw [hsp.count] at hr
        rw [hsp.ent] at hc
        rw [(hkeep p k r c hP ⟨hp, hr, hc⟩).1]
        exact hold.link r hr c hc
  · intro c k hc hne
    rcases hup c k hc hne with ⟨q, r, hP, hq⟩ | ⟨q, r, -, hq⟩
    · refine ⟨q, r, (hlv q hP).trans hq.level, ?_, ?_⟩
      · rw [(hsame q hP).count]
        exact hq.le
      · rw [(hsame q hP).ent]
        exact hq.child
    · exact ⟨q, r, hq⟩

/-! ### The keys -/

/-- Fuel for the levels below a page is enough. -/
theorem Shape.keys_fuel (hs : Shape h lv root top) (hp : lv p = some k) (hfuel : k + 1 ≤ fuel) :
    h.keys fuel (some p) = h.keys (k + 1) (some p) := by
  induction k generalizing p fuel with
  | zero =>
      obtain ⟨f, rfl⟩ : ∃ f, fuel = f + 1 := ⟨fuel - 1, by omega⟩
      rw [keys_some, keys_some]
      refine rowKeys_congr ?_ fun _ _ _ => rfl
      intro r hr
      have hnone : (h.ent p r).2 = none := (hs.page p 0 hp).below r hr
      rw [hnone, keys_none, keys_none]
  | succ k ih =>
      obtain ⟨f, rfl⟩ : ∃ f, fuel = f + 1 := ⟨fuel - 1, by omega⟩
      rw [keys_some, keys_some]
      refine rowKeys_congr ?_ fun _ _ _ => rfl
      intro r hr
      obtain ⟨c, hc, hlvc⟩ := (hs.page p (k + 1) hp).below r hr
      rw [hc]
      exact ih hlvc (by omega)

/-- The keys of the tree around those below a page, whatever becomes of the page. -/
structure Context (h : BTHeap α) (lv : BTAddr → Option ℕ) (root : BTAddr) (top : ℕ) (p : BTAddr)
    (k : ℕ) (X Y : List α) : Prop where
  level : lv p = some k
  moved : ∀ h' : BTHeap α,
    (∀ q, lv q = some k → q ≠ p → h'.keys (k + 1) (some q) = h.keys (k + 1) (some q)) →
    (∀ q j, lv q = some j → k < j → SamePage h h' q) →
    h'.keys (top + 1) (some root) = X ++ (h'.keys (k + 1) (some p) ++ Y)

theorem Context.here {X Y : List α} (hc : Context h lv root top p k X Y) :
    h.keys (top + 1) (some root) = X ++ (h.keys (k + 1) (some p) ++ Y) :=
  hc.moved h (fun _ _ _ => rfl) fun _ _ _ _ => ⟨fun _ => rfl, rfl⟩

theorem Shape.context_root (hs : Shape h lv root top) : Context h lv root top root top [] [] := by
  refine ⟨hs.atTop, ?_⟩
  intro h' _ _
  rw [List.nil_append, List.append_nil]

/-- One level down. -/
theorem Context.child {X Y : List α} (hx : Context h lv root top q (k + 1) X Y)
    (hs : Shape h lv root top) (hc : ChildOf h lv q (k + 1) r c) :
    Context h lv root top c k (X ++ rowBefore (h.keys (k + 1)) (h.ent q) r)
      (rowBehind (h.keys (k + 1)) (h.ent q) r (h q).pM ++ Y) := by
  obtain ⟨j, hj, hlvc⟩ := hc.levelDown hs
  cases hj
  refine ⟨hlvc, ?_⟩
  intro h' hbeside habove
  -- a page of the level above other than `q` has other children
  have hchild : ∀ p s, ChildOf h lv p (k + 1) s c → p = q ∧ s = r := fun p s hp => hp.unique hs hc
  have hkeys : ∀ p, lv p = some (k + 1) → ∀ s ≤ (h p).pM, (p ≠ q ∨ s ≠ r) →
      h'.keys (k + 1) (h.ent p s).2 = h.keys (k + 1) (h.ent p s).2 := by
    intro p hp s hsr hne
    obtain ⟨d, hd, hlvd⟩ := (hs.page p (k + 1) hp).below s hsr
    rw [hd]
    refine hbeside d hlvd ?_
    rintro rfl
    obtain ⟨hpq, hsr'⟩ := hchild p s ⟨hp, hsr, hd⟩
    rcases hne with hne | hne
    · exact hne hpq
    · exact hne hsr'
  have hover := hx.moved h' ?_ ?_
  · have hsq := habove q (k + 1) hx.level (by omega)
    rw [hover, keys_some, hsq.count, rowKeys_at hc.le, hsq.ent r, hc.child]
    have hbefore : rowBefore (h'.keys (k + 1)) (h'.ent q) r = rowBefore (h.keys (k + 1)) (h.ent q) r := by
      refine rowBefore_congr ?_ ?_
      · intro s hlt
        rw [hsq.ent s]
        exact hkeys q hx.level s (by have := hc.le; omega) (.inr (by omega))
      · intro s _ _
        rw [hsq.ent s]
    have hbehind : rowBehind (h'.keys (k + 1)) (h'.ent q) r (h q).pM =
        rowBehind (h.keys (k + 1)) (h.ent q) r (h q).pM := by
      refine rowBehind_congr ?_ ?_
      · intro s hlt hle
        rw [hsq.ent s]
        exact hkeys q hx.level s hle (.inr (by omega))
      · intro s _ _
        rw [hsq.ent s]
    rw [hbefore, hbehind]
    simp only [List.append_assoc]
  · intro p hp hne
    have hsp := habove p (k + 1) hp (by omega)
    rw [keys_some, keys_some, hsp.count]
    refine rowKeys_congr ?_ ?_
    · intro s hsr
      rw [hsp.ent s]
      exact hkeys p hp s hsr (.inl hne)
    · intro s _ _
      rw [hsp.ent s]
  · intro p j hp hlt
    exact habove p j hp (by omega)

/-- Every page has a place in the tree. -/
theorem Shape.context (hs : Shape h lv root top) (hp : lv p = some k) :
    ∃ X Y, Context h lv root top p k X Y := by
  induction hn : top - k generalizing p k with
  | zero =>
      have hle := hs.bound p k hp
      have hk : k = top := by omega
      subst hk
      rw [hs.top_root hp]
      exact ⟨[], [], hs.context_root⟩
  | succ n ih =>
      have hne : p ≠ root := by
        rintro rfl
        have := hp.symm.trans hs.atTop
        have := Option.some.inj this
        omega
      obtain ⟨q, r, hc⟩ := hs.up p k hp hne
      obtain ⟨X, Y, hx⟩ := ih hc.level (by omega)
      exact ⟨_, _, hx.child hs hc⟩

/-- The pages that are written are `p` and children of `p`, or were not in use. -/
def Around (h : BTHeap α) (lv : BTAddr → Option ℕ) (p : BTAddr) (k : ℕ) (P : BTAddr → Prop) : Prop :=
  ∀ q j, P q → lv q = some j → q = p ∨ ∃ r, ChildOf h lv p k r q

/-- Below a page beside them the keys are as before. -/
theorem Shape.keys_untouched (hs : Shape h lv root top) {P : BTAddr → Prop} (hp : lv p = some k)
    (hP : Around h lv p k P) (hsame : ∀ q, ¬ P q → SamePage h h' q) (hq : lv q = some j) (hj : j ≤ k)
    (hne : q ≠ p) (hnot : ¬ P q) : h'.keys (j + 1) (some q) = h.keys (j + 1) (some q) := by
  induction j generalizing q with
  | zero =>
      have hsp := hsame q hnot
      rw [keys_some, keys_some, hsp.count]
      refine rowKeys_congr ?_ ?_
      · intro r _
        rfl
      · intro r _ _
        rw [hsp.ent]
  | succ j ih =>
      have hsp := hsame q hnot
      rw [keys_some, keys_some, hsp.count]
      refine rowKeys_congr ?_ ?_
      · intro r hr
        obtain ⟨c, hc, hlvc⟩ := (hs.page q (j + 1) hq).below r hr
        rw [hsp.ent, hc]
        have hcp : c ≠ p := by
          rintro rfl
          have := Option.some.inj (hp.symm.trans hlvc)
          omega
        refine ih hlvc (by omega) hcp ?_
        intro hPc
        rcases hP c j hPc hlvc with hcp' | ⟨s, hcs⟩
        · exact hcp hcp'
        · exact hne (ChildOf.unique hs ⟨hq, hr, hc⟩ hcs).1
      · intro r _ _
        rw [hsp.ent]

/-- What an operation on a page and its children leaves of the keys around it. -/
theorem Context.replaced {P : BTAddr → Prop} {X Y : List α} (hx : Context h lv root top p k X Y)
    (hs : Shape h lv root top) (hP : Around h lv p k P) (hsame : ∀ q, ¬ P q → SamePage h h' q) :
    h'.keys (top + 1) (some root) = X ++ (h'.keys (k + 1) (some p) ++ Y) := by
  have hbeside : ∀ q j, lv q = some j → q ≠ p → k ≤ j → ¬ P q := by
    intro q j hq hne hle hPq
    rcases hP q j hPq hq with hqp | ⟨r, hc⟩
    · exact hne hqp
    · obtain ⟨i, hi, hlvq⟩ := hc.levelDown hs
      have := Option.some.inj (hq.symm.trans hlvq)
      omega
  refine hx.moved h' ?_ ?_
  · intro q hq hne
    exact hs.keys_untouched hx.level hP hsame hq (Nat.le_refl k) hne
      (hbeside q k hq hne (Nat.le_refl k))
  · intro q j hq hlt
    have hne : q ≠ p := by
      rintro rfl
      have := Option.some.inj (hx.level.symm.trans hq)
      omega
    exact hsame q (hbeside q j hq hne (by omega))

/-- The keys stay when those below the page do. -/
theorem Shape.keys_kept (hs : Shape h lv root top) {P : BTAddr → Prop} (hp : lv p = some k)
    (hP : Around h lv p k P) (hsame : ∀ q, ¬ P q → SamePage h h' q)
    (hkeys : h'.keys (k + 1) (some p) = h.keys (k + 1) (some p)) :
    h'.keys (top + 1) (some root) = h.keys (top + 1) (some root) := by
  obtain ⟨X, Y, hx⟩ := hs.context hp
  rw [hx.replaced hs hP hsame, hx.here, hkeys]

/-- There are pages at every level. -/
theorem Shape.level_some (hs : Shape h lv root top) (hk : k ≤ top) : ∃ p, lv p = some k := by
  induction hn : top - k generalizing k with
  | zero =>
      have hkt : k = top := by omega
      exact ⟨root, hkt ▸ hs.atTop⟩
  | succ n ih =>
      obtain ⟨p, hp⟩ := ih (k := k + 1) (by omega) (by omega)
      obtain ⟨c, -, hc⟩ := (hs.page p (k + 1) hp).below 0 (Nat.zero_le _)
      exact ⟨c, hc⟩

/-- So there are not more levels than pages. -/
theorem Shape.top_lt (hs : Shape h lv root top) {next : ℕ} (hnew : ∀ p, next ≤ p → lv p = none) :
    top < next := by
  have hex : ∀ k, ∃ p, k ≤ top → lv p = some k := by
    intro k
    by_cases hk : k ≤ top
    · obtain ⟨p, hp⟩ := hs.level_some hk
      exact ⟨p, fun _ => hp⟩
    · exact ⟨0, fun h => absurd h hk⟩
  choose f hf using hex
  have hmaps : ∀ k ∈ Finset.range (top + 1), f k ∈ Finset.range next := by
    intro k hk
    have hle := Finset.mem_range.mp hk
    rw [Finset.mem_range]
    by_contra hlt
    have := hf k (by omega)
    rw [hnew (f k) (by omega)] at this
    cases this
  have hinj : Set.InjOn f (Finset.range (top + 1)) := by
    intro k hk j hj hkj
    have hk' := Finset.mem_range.mp hk
    have hj' := Finset.mem_range.mp hj
    have h₁ := hf k (by omega)
    rw [hkj, hf j (by omega)] at h₁
    exact (Option.some.inj h₁).symm
  have hcard := Finset.card_le_card_of_injOn f hmaps hinj
  rw [Finset.card_range, Finset.card_range] at hcard
  omega

end Levels

end PaxosSolutions.NWGadget
