import PaxosSolutions.NWGadget.BTreeDrain

/-!
# Items that change in their place

The item that a cursor is at may be written to, and a tree stays as it is around it. Where
the new item compares as the old one did, the tree is in order afterwards as well.
-/
namespace PaxosSolutions.NWGadget
open Lib BTHeap

variable {α : Type} [Inhabited α]

/-- The item at the place of the cursor becomes `x`. -/
def BTCursor.put (cur : BTCursor α) (x : α) (t : BTree α) : BTree α :=
  match cur.cPage with
  | none => t
  | some p => { t with heap := t.heap.setItem p cur.cZIndex x }

section Change
variable {t : BTree α} {root : BTAddr} {lv : BTAddr → Option ℕ} {top r n : ℕ} {keys : List α} {x y : α}
  {cur : BTCursor α} {cmp : α → α → ℤ} {I D : Multiset α}

/-- Each item but one is what it was. -/
theorem keys_setItem (h : BTHeap α) (p : BTAddr) (z : ℕ) (y : α) (fuel : ℕ) (d : Option BTAddr) :
    (h.setItem p z y).keys fuel d =
      (h.tag.keys fuel d).map fun a => if a.2 = (p, z) then y else a.1 := by
  induction fuel generalizing d with
  | zero => rfl
  | succ fuel ih =>
      cases d with
      | none => rfl
      | some q =>
          rw [keys_some, keys_some, m_setItem]
          change rowKeys ((h.setItem p z y).keys fuel) ((h.setItem p z y).ent q) (h q).pM =
            (rowKeys (h.tag.keys fuel) (h.tag.ent q) (h q).pM).map _
          unfold rowKeys
          rw [List.map_append, ← ih, List.map_flatMap, ent_setItem_child]
          refine congrArg₂ _ rfl (List.flatMap_congr ?_)
          intro i _
          rw [List.map_cons, ← ih, ent_setItem_child]
          refine congrArg₂ _ ?_ rfl
          change ((h.setItem p z y).ent q (i + 1)).1 = if (q, i) = (p, z) then y else (h.ent q (i + 1)).1
          by_cases hi : i = z
          · rw [ent_setItem (by rw [hi])]
            by_cases hq : q = p
            · rw [if_pos hq, if_pos (by rw [hq, hi])]
            · rw [if_neg hq, if_neg (fun h => hq (Prod.mk.inj h).1)]
          · rw [ent_setItem_of_ne (by omega), if_neg (fun h => hi (Prod.mk.inj h).2)]

/-- The keys with the new item -/
theorem Grown.put (hg : Grown t root lv top keys) (hcur : cur.IsAt t r x) (y : α) :
    Grown (cur.put y t) root lv top (keys.take r ++ y :: keys.drop (r + 1)) := by
  obtain ⟨p, hp, hr⟩ := hcur
  have hput : cur.put y t = { t with heap := t.heap.setItem p cur.cZIndex y } := by
    unfold BTCursor.put
    rw [hp]
  have hplaces : t.places = t.places.take r ++ (x, p, cur.cZIndex) :: t.places.drop (r + 1) := by
    obtain ⟨hlt, hx⟩ := List.getElem?_eq_some_iff.mp hr
    rw [← hx, ← List.drop_eq_getElem_cons hlt, List.take_append_drop]
  have hother : ∀ i a, t.places[i]? = some a → i ≠ r →
      (if a.2 = (p, cur.cZIndex) then y else a.1) = a.1 := by
    intro i a ha hne
    refine if_neg ?_
    intro hplace
    have hi : t.places[i]? = some (a.1, p, cur.cZIndex) := by rw [ha, ← hplace]
    exact hne (hg.place_once hi hr)
  have hkeys : (t.heap.setItem p cur.cZIndex y).keys (top + 1) (some root) =
      keys.take r ++ y :: keys.drop (r + 1) := by
    rw [keys_setItem, ← hg.places, ← hg.map_places, ← List.map_take, ← List.map_drop]
    conv_lhs => rw [hplaces]
    rw [List.map_append, List.map_cons, if_pos rfl]
    refine congrArg₂ _ (List.map_congr_left ?_) (congrArg _ (List.map_congr_left ?_))
    · intro a ha
      obtain ⟨i, hi, hget⟩ := List.mem_take_iff_getElem.mp ha
      refine hother i a ?_ (by omega)
      rw [← hget]
      exact List.getElem?_eq_getElem _
    · intro a ha
      obtain ⟨i, hi, hget⟩ := List.mem_drop_iff_getElem.mp ha
      refine hother (r + 1 + i) a ?_ (by omega)
      rw [← hget]
      exact List.getElem?_eq_getElem _
  rw [hput, ← hkeys]
  exact hg.setItem

omit [Inhabited α] in
theorem Ordered.put {l l' : List α} (ho : Ordered cmp (l ++ x :: l'))
    (hsame : ∀ z, cmp z y = cmp z x ∧ cmp y z = cmp x z) : Ordered cmp (l ++ y :: l') := by
  obtain ⟨hl, hl', hcross⟩ := List.pairwise_append.mp ho
  obtain ⟨hx, hl'⟩ := List.pairwise_cons.mp hl'
  refine List.pairwise_append.mpr ⟨hl, List.pairwise_cons.mpr ⟨?_, hl'⟩, ?_⟩
  · intro z hz
    rw [(hsame z).2]
    exact hx z hz
  · intro a ha b hb
    rcases List.mem_cons.mp hb with rfl | hb
    · rw [(hsame a).1]
      exact hcross a ha x List.mem_cons_self
    · exact hcross a ha b (List.mem_cons_of_mem x hb)

/-- What a tree holds is what was inserted, if one does not look back. -/
theorem Followed.now (hf : Followed n cmp t I D keys) : Followed n cmp t keys 0 keys :=
  ⟨hf.order, hf.compare, hf.has, hf.ordered, Multiset.add_zero _, hf.count⟩

/-- The keys around a cursor -/
theorem Followed.around (hf : Followed n cmp t I D keys) (hcur : cur.IsAt t r x) :
    keys = keys.take r ++ x :: keys.drop (r + 1) := by
  have haround := hcur.around
  rw [hf.has.inOrder] at haround
  exact haround

/-- The item that a cursor is at is changed. -/
theorem Followed.put (hf : Followed n cmp t I D keys) (hcur : cur.IsAt t r x)
    (hsame : ∀ z, cmp z y = cmp z x ∧ cmp y z = cmp x z) :
    Followed n cmp (cur.put y t) (keys.take r ++ y :: keys.drop (r + 1) : List α) 0
      (keys.take r ++ y :: keys.drop (r + 1)) := by
  have haround := hf.around hcur
  obtain ⟨root, lv, top, hg⟩ := hcur.grown hf.has
  obtain ⟨p, hp, -⟩ := id hcur
  have hput : cur.put y t = { t with heap := t.heap.setItem p cur.cZIndex y } := by
    unfold BTCursor.put
    rw [hp]
  have hgrown := hg.put hcur y
  have ho := hf.ordered
  rw [haround] at ho
  have hlen : (keys.take r ++ y :: keys.drop (r + 1)).length = keys.length := by
    conv_rhs => rw [haround]
    rw [List.length_append, List.length_append, List.length_cons, List.length_cons]
  refine ⟨?_, ?_, ⟨?_, .inr ⟨root, lv, top, hgrown⟩⟩, ho.put hsame, Multiset.add_zero _, ?_⟩
  · rw [hput]
    exact hf.order
  · rw [hput]
    exact hf.compare
  · rw [hput]
    exact hf.has.1
  · rw [hlen, hput]
    exact hf.count

/-- `BTDelete` of the item that a cursor is at takes out that one, if the ones before it are
below. -/
theorem Followed.deleteKey (hf : Followed n cmp t I D keys) (hc : Preorders cmp) (hcur : cur.IsAt t r x)
    (hbefore : ∀ y ∈ keys.take r, cmp y x < 0) : ∃ t', BTDelete t x = some (t', true) ∧
      Followed n cmp t' (keys.take r ++ keys.drop (r + 1) : List α) 0 (keys.take r ++ keys.drop (r + 1)) := by
  obtain ⟨hn, hcmp, hhas, ho, -, hcnt⟩ := hf
  subst hcmp
  have hin := hhas.inOrder
  have hself : t.bCompare x x = 0 := by
    have := hc.swap x x
    omega
  have hkey := hcur.key
  obtain ⟨cur', found, hfind, ⟨rfl, -, r', x', hstands, hzero, hbelow⟩ | ⟨hne, -⟩⟩ :=
    btcFind_cases hc hhas ho x BTCursorOpen
  swap
  · exact absurd hself (hne x (List.mem_of_getElem? hkey))
  -- the first item that is equal to it is the item itself
  have hrank : r' = r := by
    have hkey' := hstands.isAt.key
    rcases Nat.lt_trichotomy r' r with hlt | heq | hlt
    · have hneg := hbefore x' (List.mem_of_getElem? ((List.getElem?_take_of_lt hlt).trans (hin ▸ hkey')))
      omega
    · exact heq
    · have hneg := hbelow x (List.mem_of_getElem? ((List.getElem?_take_of_lt hlt).trans hkey))
      omega
  subst hrank
  obtain ⟨t', hdelete, hhas', hN, hcmp', hcnt'⟩ := BTDelete_found hhas hfind hstands
  obtain ⟨hlt, -⟩ := List.getElem?_eq_some_iff.mp (hin ▸ hkey)
  refine ⟨t', hdelete, hN.trans hn, hcmp', hhas', ho.sublist ?_, Multiset.add_zero _, ?_⟩
  · have hsub : (keys.drop (r' + 1)).Sublist (keys.drop r') := by
      rw [← List.drop_drop]
      exact List.drop_sublist 1 _
    have happ := List.Sublist.append_left hsub (keys.take r')
    rw [List.take_append_drop] at happ
    exact happ
  · have hlen : keys.length = (keys.take r' ++ keys.drop (r' + 1)).length + 1 := by
      rw [List.length_append, List.length_take, List.length_drop]
      omega
    rw [hcnt', hcnt, hlen, UInt64.ofNat_add]
    exact UInt64.add_sub_cancel _ _

end Change

end PaxosSolutions.NWGadget
