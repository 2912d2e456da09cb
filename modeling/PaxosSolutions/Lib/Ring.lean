import PaxosSolutions.Lib.Run
import Mathlib.Data.Int.Order.Basic
import Mathlib.Logic.Function.Basic
import Mathlib.Logic.Function.Iterate

/-!
# Rings of links

Links are in what they link, and lead both ways. A ring goes from its head through
the links of its elements and back. A loop that reads the next link before it passes
the current one on goes through the elements one after another, also where what it
calls takes the current one out of the ring.
-/
namespace PaxosSolutions.Lib

/-- What the links at all addresses hold. -/
structure Links where
  next : ℕ → ℕ
  prev : ℕ → ℕ

namespace Links

/-- From `a` through the links `es` to `z`. -/
def Path (l : Links) : ℕ → List ℕ → ℕ → Prop
  | a, [], z => l.next a = z ∧ l.prev z = a
  | a, e :: es, z => l.next a = e ∧ l.prev e = a ∧ l.Path e es z

structure Ring (l : Links) (head : ℕ) (es : List ℕ) : Prop where
  path : l.Path head es head
  nodup : (head :: es).Nodup

/-- The link is taken out, and leads to itself. -/
def unlink (e : ℕ) (l : Links) : Links where
  next := Function.update (Function.update l.next (l.prev e) (l.next e)) e e
  prev := Function.update (Function.update l.prev (l.next e) (l.prev e)) e e

variable {l l' : Links} {head a e z : ℕ} {as bs es : List ℕ}

theorem Path.first (h : l.Path a es z) : l.next a = es.headD z := by
  cases es with
  | nil => exact h.1
  | cons e es => exact h.1

theorem Path.append (h : l.Path a (as ++ e :: bs) z) : l.Path a as e ∧ l.Path e bs z := by
  induction as generalizing a with
  | nil => exact ⟨⟨h.1, h.2.1⟩, h.2.2⟩
  | cons b as ih =>
      obtain ⟨hn, hp, h⟩ := h
      exact ⟨⟨hn, hp, (ih h).1⟩, (ih h).2⟩

theorem Path.congr (h : l.Path a es z) (hn : ∀ x ∈ a :: es, l'.next x = l.next x)
    (hp : ∀ x, x ∈ es ∨ x = z → l'.prev x = l.prev x) : l'.Path a es z := by
  induction es generalizing a with
  | nil => exact ⟨(hn a List.mem_cons_self).trans h.1, (hp z (.inr rfl)).trans h.2⟩
  | cons e es ih =>
      obtain ⟨hnext, hprev, h⟩ := h
      refine ⟨(hn a List.mem_cons_self).trans hnext, (hp e (.inl List.mem_cons_self)).trans hprev,
        ih h (fun x hx => hn x (List.mem_cons_of_mem a hx)) fun x hx => hp x ?_⟩
      exact hx.imp_left (List.mem_cons_of_mem e)

/-- The last link of a path. -/
theorem Path.last (h : l.Path a es z) : l.prev z ∈ a :: es := by
  induction es generalizing a with
  | nil => exact List.mem_cons.mpr (.inl h.2)
  | cons e es ih => exact List.mem_cons_of_mem a (ih h.2.2)

theorem Path.prev_eq (h : l.Path a es z) : (a :: es).getLast? = some (l.prev z) := by
  induction es generalizing a with
  | nil => rw [h.2, List.getLast?_singleton]
  | cons e es ih => rw [List.getLast?_cons_cons, ih h.2.2]

/-- The path is closed where a link is taken out of it. -/
theorem Path.unlink (ha : l.Path a as e) (hb : l.Path e bs z) (hza : z ∉ as) (hze : z ≠ e)
    (hnd : (as ++ e :: bs).Nodup) (hna : a ∉ as ++ e :: bs) (hzb : z ∉ bs) :
    (l.unlink e).Path a (as ++ bs) z := by
  induction as generalizing a with
  | nil =>
      obtain ⟨hn, hp⟩ := ha
      have hae : a ≠ e := fun h => hna (h ▸ List.mem_cons_self)
      have hnext : (l.unlink e).next a = l.next e := by
        unfold Links.unlink
        dsimp only
        rw [Function.update_of_ne hae, hp, Function.update_self]
      have hprev (hx : l.next e ≠ e) : (l.unlink e).prev (l.next e) = a := by
        unfold Links.unlink
        dsimp only
        rw [Function.update_of_ne hx, Function.update_self, hp]
      cases bs with
      | nil =>
          obtain ⟨hn', hp'⟩ := hb
          refine ⟨hnext.trans hn', ?_⟩
          rw [← hn']
          exact hprev (hn' ▸ hze)
      | cons b bs =>
          obtain ⟨hn', hp', hb⟩ := hb
          obtain ⟨hne, hnd⟩ := List.nodup_cons.mp hnd
          have hbe : b ≠ e := fun h => hne (h ▸ List.mem_cons_self)
          refine ⟨hnext.trans hn', ?_, hb.congr (fun x hx => ?_) fun x hx => ?_⟩
          · rw [← hn']
            exact hprev (hn' ▸ hbe)
          · have hxe : x ≠ e := fun h => hne (h ▸ hx)
            have hxa : x ≠ l.prev e := fun h => hna (hp ▸ h ▸ List.mem_cons_of_mem e hx)
            unfold Links.unlink
            dsimp only
            rw [Function.update_of_ne hxe, Function.update_of_ne hxa]
          · have hxe : x ≠ e := by
              rcases hx with hx | rfl
              · exact fun h => hne (h ▸ List.mem_cons_of_mem b hx)
              · exact hze
            have hxb : x ≠ l.next e := by
              rw [hn']
              rcases hx with hx | rfl
              · exact fun h => (List.nodup_cons.mp hnd).1 (h ▸ hx)
              · exact fun h => hzb (h ▸ List.mem_cons_self)
            unfold Links.unlink
            dsimp only
            rw [Function.update_of_ne hxe, Function.update_of_ne hxb]
  | cons a' as ih =>
      obtain ⟨hn, hp, ha⟩ := ha
      obtain ⟨hne, hnd'⟩ := List.nodup_cons.mp hnd
      have hae : a ≠ e := fun h => hna (h ▸ List.mem_append_right _ List.mem_cons_self)
      have hae' : a' ≠ e := fun h => hne (h ▸ List.mem_append_right _ List.mem_cons_self)
      have hlast : a ≠ l.prev e := fun h =>
        hna (List.mem_append_left _ (h ▸ ha.last))
      have hfirst : a' ≠ l.next e := by
        rw [hb.first]
        cases bs with
        | nil => exact fun h => hza (h ▸ List.mem_cons_self)
        | cons b bs =>
            exact fun h => hne (List.mem_append_right _ (h ▸ List.mem_cons_of_mem e List.mem_cons_self))
      refine ⟨?_, ?_, ih ha (fun h => hza (List.mem_cons_of_mem a' h)) hnd' hne⟩
      · unfold Links.unlink
        dsimp only
        rw [Function.update_of_ne hae, Function.update_of_ne hlast, hn]
      · unfold Links.unlink
        dsimp only
        rw [Function.update_of_ne hae', Function.update_of_ne hfirst, hp]

theorem Ring.unlink (h : l.Ring head (as ++ e :: bs)) : (l.unlink e).Ring head (as ++ bs) := by
  obtain ⟨hpath, hnd⟩ := h
  obtain ⟨ha, hb⟩ := hpath.append
  obtain ⟨hno, hnd⟩ := List.nodup_cons.mp hnd
  refine ⟨ha.unlink hb (fun h => hno (List.mem_append_left _ h))
    (fun h => hno (h ▸ List.mem_append_right _ List.mem_cons_self)) hnd hno
    (fun h => hno (List.mem_append_right _ (List.mem_cons_of_mem e h))), ?_⟩
  have hsub : (as ++ bs).Sublist (as ++ e :: bs) :=
    (List.Sublist.refl as).append (List.sublist_cons_self e bs)
  exact List.nodup_cons.mpr ⟨fun h => hno (hsub.subset h), hnd.sublist hsub⟩

/-- What comes behind an element. -/
theorem Ring.next (h : l.Ring head (as ++ e :: bs)) : l.next e = bs.headD head :=
  h.path.append.2.first

theorem Path.concat (ha : l.Path a as e) (hb : l.Path e bs z) : l.Path a (as ++ e :: bs) z := by
  induction as generalizing a with
  | nil => exact ⟨ha.1, ha.2, hb⟩
  | cons b as ih => exact ⟨ha.1, ha.2.1, ih ha.2.2⟩

/-- A ring may be gone through from any of its links. -/
theorem Ring.rotate (h : l.Ring head (e :: es)) : l.Ring e (es ++ [head]) := by
  obtain ⟨⟨hn, hp, hpath⟩, hnd⟩ := h
  refine ⟨hpath.concat ⟨hn, hp⟩, ?_⟩
  exact (List.perm_append_singleton head (e :: es)).nodup_iff.mpr hnd

/-- The link is put before another one. -/
def insertBefore (p before : ℕ) (l : Links) : Links :=
  let prev := Function.update l.prev p (l.prev before)
  let next := Function.update l.next p before
  { next := Function.update next (prev before) p
    prev := Function.update prev before p }

variable {p : ℕ}

/-- A link that is put before the end of a path is its last one. -/
theorem Path.insertBefore (h : l.Path a es z) (hpa : p ∉ a :: es) (hpz : p ≠ z)
    (hnd : (a :: es).Nodup) (hz : z ∉ es) : (l.insertBefore p z).Path a (es ++ [p]) z := by
  induction es generalizing a with
  | nil =>
      have hap : a ≠ p := fun h => hpa (h ▸ List.mem_cons_self)
      have hlast : Function.update l.prev p (l.prev z) z = a := by
        rw [Function.update_of_ne (Ne.symm hpz), h.2]
      refine ⟨?_, ?_, ?_, ?_⟩
      · unfold Links.insertBefore
        dsimp only
        rw [hlast, Function.update_self]
      · unfold Links.insertBefore
        dsimp only
        rw [Function.update_of_ne hpz, Function.update_self, h.2]
      · unfold Links.insertBefore
        dsimp only
        rw [hlast, Function.update_of_ne (Ne.symm hap), Function.update_self]
      · unfold Links.insertBefore
        dsimp only
        rw [Function.update_self]
  | cons e es ih =>
      obtain ⟨hn, hp, h⟩ := h
      obtain ⟨hne, hnd⟩ := List.nodup_cons.mp hnd
      have hap : a ≠ p := fun h => hpa (h ▸ List.mem_cons_self)
      have hep : e ≠ p := fun h => hpa (h ▸ List.mem_cons_of_mem a List.mem_cons_self)
      have hez : e ≠ z := fun h => hz (h ▸ List.mem_cons_self)
      have hlast : a ≠ Function.update l.prev p (l.prev z) z := by
        rw [Function.update_of_ne (Ne.symm hpz)]
        exact fun ha => hne (ha ▸ h.last)
      refine ⟨?_, ?_, ih h (fun h => hpa (List.mem_cons_of_mem a h)) hnd
        fun h => hz (List.mem_cons_of_mem e h)⟩
      · unfold Links.insertBefore
        dsimp only
        rw [Function.update_of_ne hlast, Function.update_of_ne hap, hn]
      · unfold Links.insertBefore
        dsimp only
        rw [Function.update_of_ne hez, Function.update_of_ne hep, hp]

/-- What is put before the head is the last of a ring. -/
theorem Ring.insertBefore (h : l.Ring head es) (hp : p ∉ head :: es) :
    (l.insertBefore p head).Ring head (es ++ [p]) := by
  obtain ⟨hpath, hnd⟩ := h
  refine ⟨hpath.insertBefore hp (fun h => hp (h ▸ List.mem_cons_self)) hnd
    (List.nodup_cons.mp hnd).1, ?_⟩
  have hperm : (head :: (es ++ [p])).Perm (p :: head :: es) :=
    List.perm_append_singleton p (head :: es)
  exact hperm.nodup_iff.mpr (List.nodup_cons.mpr ⟨hp, hnd⟩)

/-- The links of a ring lead to links of it. -/
theorem Ring.closed (h : l.Ring head es) {x : ℕ} (hx : x ∈ head :: es) :
    l.next x ∈ head :: es ∧ l.prev x ∈ head :: es := by
  rcases List.mem_cons.mp hx with rfl | hx
  · refine ⟨?_, h.path.last⟩
    rw [h.path.first]
    cases es with
    | nil => exact List.mem_cons_self
    | cons e es => exact List.mem_cons_of_mem _ List.mem_cons_self
  · obtain ⟨as, bs, rfl⟩ := List.append_of_mem hx
    obtain ⟨ha, hb⟩ := h.path.append
    refine ⟨?_, ?_⟩
    · rw [hb.first]
      cases bs with
      | nil => exact List.mem_cons_self
      | cons b bs =>
          exact List.mem_cons_of_mem _ (List.mem_append_right _
            (List.mem_cons_of_mem _ List.mem_cons_self))
    · rcases List.mem_cons.mp ha.last with hp | hp
      · exact hp ▸ List.mem_cons_self
      · exact List.mem_cons_of_mem _ (List.mem_append_left _ hp)

/-- Links outside a ring stay where one of it is taken out. -/
theorem Ring.unlink_other (h : l.Ring head es) (he : e ∈ head :: es) {x : ℕ}
    (hx : x ∉ head :: es) : (l.unlink e).next x = l.next x ∧ (l.unlink e).prev x = l.prev x := by
  obtain ⟨hn, hp⟩ := h.closed he
  have hxe : x ≠ e := fun h => hx (h ▸ he)
  have hxn : x ≠ l.next e := fun h => hx (h ▸ hn)
  have hxp : x ≠ l.prev e := fun h => hx (h ▸ hp)
  unfold Links.unlink
  dsimp only
  rw [Function.update_of_ne hxe, Function.update_of_ne hxp, Function.update_of_ne hxe,
    Function.update_of_ne hxn]
  exact ⟨rfl, rfl⟩

theorem unlink_self (l : Links) (e : ℕ) : (l.unlink e).next e = e ∧ (l.unlink e).prev e = e :=
  ⟨Function.update_self .., Function.update_self ..⟩

/-- Links outside a ring stay where one is put before its head. -/
theorem Ring.insertBefore_other (h : l.Ring head es) (hp : p ∉ head :: es) {x : ℕ}
    (hx : x ∉ head :: es) (hxp : x ≠ p) :
    (l.insertBefore p head).next x = l.next x ∧ (l.insertBefore p head).prev x = l.prev x := by
  have hph : head ≠ p := fun h => hp (h ▸ List.mem_cons_self)
  have hxh : x ≠ head := fun h => hx (h ▸ List.mem_cons_self)
  have hlast : x ≠ Function.update l.prev p (l.prev head) head := by
    rw [Function.update_of_ne hph]
    exact fun h' => hx (h' ▸ h.path.last)
  unfold Links.insertBefore
  dsimp only
  rw [Function.update_of_ne hlast, Function.update_of_ne hxp, Function.update_of_ne hxh,
    Function.update_of_ne hxp]
  exact ⟨rfl, rfl⟩

theorem Ring.congr (h : l.Ring head es)
    (hx : ∀ x ∈ head :: es, l'.next x = l.next x ∧ l'.prev x = l.prev x) : l'.Ring head es := by
  refine ⟨h.path.congr (fun x hm => (hx x hm).1) (fun x hm => (hx x ?_).2), h.nodup⟩
  rcases hm with hm | rfl
  · exact List.mem_cons_of_mem _ hm
  · exact List.mem_cons_self

/-- A link alone is a ring. -/
theorem Ring.single (hn : l.next a = a) (hp : l.prev a = a) : l.Ring a [] :=
  ⟨⟨hn, hp⟩, List.nodup_cons.mpr ⟨List.not_mem_nil, List.nodup_nil⟩⟩

/-- The links of a ring are those its head leads to. -/
theorem Ring.mem_iff (h : l.Ring head es) {x : ℕ} :
    x ∈ head :: es ↔ ∃ n, l.next^[n] head = x := by
  have hpath : ∀ {a es}, l.Path a es head → ∀ x ∈ a :: es, ∃ n, l.next^[n] a = x := by
    intro a es h
    induction es generalizing a with
    | nil =>
        intro x hx
        exact ⟨0, (List.mem_singleton.mp hx).symm⟩
    | cons e es ih =>
        intro x hx
        rcases List.mem_cons.mp hx with rfl | hx
        · exact ⟨0, rfl⟩
        · obtain ⟨n, hn⟩ := ih h.2.2 x hx
          refine ⟨n + 1, ?_⟩
          rw [Function.iterate_succ_apply, h.1]
          exact hn
  constructor
  · exact hpath h.path x
  · rintro ⟨n, rfl⟩
    induction n with
    | zero => exact List.mem_cons_self
    | succ n ih =>
        rw [Function.iterate_succ_apply']
        exact (h.closed ih).1

end Links

/-! ### The loop -/

section
variable {σ ε : Type} (links : σ → Links) (f : ℕ → σ → Except ε (ℤ × σ)) (head : ℕ)

/-- `list_for_each_safe` with what is called, and left when that does not return 0.
`none` if there are more turns than that. -/
def forEachSafe : ℕ → ℕ → ℕ → ℤ → σ → Option (Except ε (ℤ × σ))
  | 0, _, _, _, _ => none
  | fuel + 1, pos, n, ret, s =>
      if pos = head then some (.ok (ret, s))
      else
        match f pos s with
        | .error e => some (.error e)
        | .ok (ret, s) =>
            if ret ≠ 0 then some (.ok (ret, s))
            else forEachSafe fuel n ((links s).next n) ret s

/-- What is called returns 0 and takes out no other element than its own. -/
def OwnLink : Prop :=
  ∀ as e bs s, (links s).Ring head (as ++ e :: bs) →
    Result (fun _ => True)
      (fun r => r.1 = 0 ∧
        ((links r.2).Ring head (as ++ e :: bs) ∨ (links r.2).Ring head (as ++ bs))) (f e s)

variable {links f head}

/-- The elements are passed on one after another. -/
theorem forEachSafe_eq (hf : OwnLink links f head) (as : List ℕ) {es : List ℕ} {s : σ} {fuel : ℕ}
    (h : (links s).Ring head (as ++ es)) (hfuel : es.length < fuel) :
    forEachSafe links f head fuel (es.headD head) ((links s).next (es.headD head)) 0 s =
      some ((run (fun s e => (f e s).map Prod.snd) s es).map fun s => (0, s)) := by
  induction es generalizing as s fuel with
  | nil =>
      obtain ⟨fuel, rfl⟩ := Nat.exists_eq_add_one_of_ne_zero (Nat.ne_of_gt hfuel)
      unfold forEachSafe
      rw [if_pos (by rfl)]
      rfl
  | cons e es ih =>
      obtain ⟨fuel, rfl⟩ := Nat.exists_eq_add_one_of_ne_zero (Nat.ne_of_gt (Nat.zero_lt_of_lt hfuel))
      have hne : e ≠ head := fun he =>
        (List.nodup_cons.mp h.nodup).1 (List.mem_append_right _ (he ▸ List.mem_cons_self))
      have hown := hf as e es s h
      unfold forEachSafe run
      rw [List.headD_cons, if_neg hne, h.next]
      cases hr : f e s with
      | error x => rfl
      | ok r =>
          obtain ⟨ret, t⟩ := r
          rw [hr] at hown
          obtain ⟨hret, hring⟩ := hown
          dsimp only at hret hring ⊢
          rw [if_neg (not_not.mpr hret), hret]
          rw [List.length_cons] at hfuel
          rcases hring with hring | hring
          · rw [← List.singleton_append, ← List.append_assoc] at hring
            exact ih _ hring (by omega)
          · exact ih _ hring (by omega)

end

end PaxosSolutions.Lib
