import PaxosSolutions.XjPing.SqlExpr

/-!
# Serialisation of expression trees

A tree is written from its root, each structure as it is in memory, with the text of
a string or the item of an item leaf behind it. A child is read back where the
pointer to it that was written is not null.
-/
namespace PaxosSolutions.XjPing
open NWGadget

/-- Where a tree is in memory: its nodes, and the strings and items of its leaves, by
the way down to them. -/
structure TreeAddrs where
  node : List Bool → ℕ
  data : List Bool → ℕ
  node_pos : ∀ way, 0 < node way
  node_lt : ∀ way, node way < 0x10000000000000000

/-- Where a child is. -/
def TreeAddrs.child (a : TreeAddrs) (right : Bool) : TreeAddrs where
  node way := a.node (right :: way)
  data way := a.data (right :: way)
  node_pos way := a.node_pos (right :: way)
  node_lt way := a.node_lt (right :: way)

/-- The pointer to a tree -/
def TreeAddrs.pointer (a : TreeAddrs) : RExpr → ℕ
  | .null => 0
  | _ => a.node []

def RValue.vType : RValue → ℕ
  | inline t _ => t.code
  | str alloc _ => if alloc then VSTRING_ALLOC else VSTRING
  | item alloc _ => if alloc then VITEM_ALLOC else VITEM

def zeros (k : ℕ) : List UInt8 := List.replicate k 0

/-- `v_value`, 16 bytes -/
def RValue.union (data : ℕ) : RValue → List UInt8
  | inline _ v => leBytes 8 v.toNat ++ zeros 8
  | str _ text => leBytes 4 text.sLen ++ zeros 4 ++ leBytes 8 data
  | item _ _ => leBytes 8 data ++ zeros 8

/-- `sizeof(r_expr_t)` -/
def R_EXPR_SIZE : ℕ := 32

/-- An `r_expr_t` as it is in memory -/
def exprBytes (a : TreeAddrs) : RExpr → List UInt8
  | .null => []
  | .leaf v =>
      leBytes 4 TLEAF ++ (zeros 4 ++ (leBytes 4 v.vType ++ (zeros 4 ++ v.union (a.data []))))
  | .node op l r =>
      leBytes 4 op.code ++ (zeros 4 ++ (leBytes 8 ((a.child false).pointer l) ++
        (leBytes 8 ((a.child true).pointer r) ++ zeros 8)))

/-- What is written behind a leaf -/
def RValue.behind : RValue → List UInt8
  | inline _ _ => []
  | str _ text => text.sStr
  | item _ vItem => vItem.bytes

/-- `sql_write_tree`. `s_len + 1` bytes are written of a string. -/
def sqlWriteTree (a : TreeAddrs) : RExpr → List UInt8
  | .null => []
  | .leaf v => exprBytes a (.leaf v) ++ v.behind
  | .node op l r =>
      exprBytes a (.node op l r) ++
        (sqlWriteTree (a.child false) l ++ sqlWriteTree (a.child true) r)

/-- A field of a structure in memory -/
def field (off len : ℕ) (bs : List UInt8) : ℕ :=
  Nat.ofDigits 256 (((bs.drop off).take len).map UInt8.toNat)

/-- More levels than a tree is followed for; no memory for a string of negative
length; a string or an item that the file ends in. -/
inductive ReadFault where
  | levels | noMem | short
deriving DecidableEq, Repr

theorem field_lt (off : ℕ) (bs : List UInt8) : field off 4 bs < 0x100000000 := by
  have hdigits : ∀ d ∈ ((bs.drop off).take 4).map UInt8.toNat, d < 256 := by
    intro d hd
    obtain ⟨b, -, rfl⟩ := List.mem_map.mp hd
    exact b.toNat_lt
  have hlen : (((bs.drop off).take 4).map UInt8.toNat).length ≤ 4 := by
    rw [List.length_map]
    exact List.length_take_le 4 _
  calc field off 4 bs < 256 ^ (((bs.drop off).take 4).map UInt8.toNat).length :=
        Nat.ofDigits_lt_base_pow_length (by decide) hdigits
    _ ≤ 256 ^ 4 := Nat.pow_le_pow_right (by decide) hlen

/-- A string of `s_len + 1` bytes, read into memory of its own -/
def readText (sLen : ℕ) (rest : List UInt8) : Except ReadFault (RText × List UInt8) :=
  if small : sLen + 1 < 0x80000000 then
    if long : sLen + 1 ≤ rest.length then
      .ok (⟨sLen, rest.take (sLen + 1), List.length_take_of_le long, small⟩, rest.drop (sLen + 1))
    else .error .short
  else .error .noMem

/-- An item, read into memory of its own -/
def readItem (rest : List UInt8) : Except ReadFault (RItemBytes × List UInt8) :=
  if long : R_ITEM_SIZE ≤ rest.length then
    .ok (⟨rest.take R_ITEM_SIZE, List.length_take_of_le long⟩, rest.drop R_ITEM_SIZE)
  else .error .short

/-- A leaf by its `v_type` -/
def readLeaf (ep rest : List UInt8) : Except ReadFault (RExpr × List UInt8) :=
  if inl : field 8 4 ep ∉ [VITEM, VITEM_ALLOC, VSTRING, VSTRING_ALLOC] then
    .ok (.leaf (.inline ⟨field 8 4 ep, field_lt 8 ep, inl⟩ (BitVec.ofNat 64 (field 16 8 ep))), rest)
  else if field 8 4 ep = VSTRING ∨ field 8 4 ep = VSTRING_ALLOC then
    (readText (field 16 4 ep) rest).map fun r => (.leaf (.str true r.1), r.2)
  else (readItem rest).map fun r => (.leaf (.item true r.1), r.2)

/-- A child where the pointer to it is not null. -/
def readChild (read : List UInt8 → Except ReadFault (RExpr × List UInt8)) (pointer : ℕ)
    (rest : List UInt8) : Except ReadFault (RExpr × List UInt8) :=
  if pointer = 0 then .ok (.null, rest) else read rest

/-- What follows a structure, read by what it is. -/
def readRest (read : List UInt8 → Except ReadFault (RExpr × List UInt8)) (ep rest : List UInt8) :
    Except ReadFault (RExpr × List UInt8) :=
  if inner : field 0 4 ep = TLEAF then readLeaf ep rest
  else do
    let (l, rest) ← readChild read (field 8 8 ep) rest
    let (r, rest) ← readChild read (field 16 8 ep) rest
    .ok (.node ⟨field 0 4 ep, field_lt 0 ep, inner⟩ l r, rest)

/-- `sql_read_tree` on the rest of a file. Where the file ends in a structure, what is
left of it is zero. -/
def sqlReadTree : ℕ → List UInt8 → Except ReadFault (RExpr × List UInt8)
  | 0, _ => .error .levels
  | levels + 1, input =>
      readRest (sqlReadTree levels) (input.take R_EXPR_SIZE ++ zeros (R_EXPR_SIZE - input.length))
        (input.drop R_EXPR_SIZE)

/-- A tree whose strings and items are its own. -/
def RExpr.owned (t : RExpr) : RExpr :=
  t.map fun v => match v with
    | .inline t v => .inline t v
    | .str _ text => .str true text
    | .item _ vItem => .item true vItem

/-- The levels of a tree -/
def RTree.levels {α : Type} : RTree α → ℕ
  | null => 0
  | leaf _ => 1
  | node _ l r => max l.levels r.levels + 1

/-! ### What was written -/

theorem field_at {off len n : ℕ} {pre post : List UInt8} (hpre : pre.length = off)
    (hn : n < 256 ^ len) : field off len (pre ++ (leBytes len n ++ post)) = n := by
  have hdrop : (pre ++ (leBytes len n ++ post)).drop off = leBytes len n ++ post :=
    List.drop_left' hpre
  have htake : (leBytes len n ++ post).take len = leBytes len n := List.take_left' leBytes_length
  rw [field, hdrop, htake, ofDigits_leBytes, Nat.mod_eq_of_lt hn]

theorem field_first {len n : ℕ} {post : List UInt8} (hn : n < 256 ^ len) :
    field 0 len (leBytes len n ++ post) = n := by
  have hfirst : field 0 len ([] ++ (leBytes len n ++ post)) = n := field_at rfl hn
  exact hfirst

theorem zeros_length (k : ℕ) : (zeros k).length = k := List.length_replicate

theorem RValue.union_length (data : ℕ) (v : RValue) : (v.union data).length = 16 := by
  cases v <;> simp [union, leBytes_length, zeros_length]

theorem RValue.vType_lt (v : RValue) : v.vType < 256 ^ 4 := by
  cases v with
  | inline t v => exact t.lt
  | str alloc text =>
      have hcode : ∀ b : Bool, (if b then VSTRING_ALLOC else VSTRING) < 256 ^ 4 := by decide
      exact hcode alloc
  | item alloc vItem =>
      have hcode : ∀ b : Bool, (if b then VITEM_ALLOC else VITEM) < 256 ^ 4 := by decide
      exact hcode alloc

theorem exprBytes_length (a : TreeAddrs) {t : RExpr} (ht : t ≠ .null) :
    (exprBytes a t).length = R_EXPR_SIZE := by
  cases t with
  | null => exact absurd rfl ht
  | leaf v => simp [exprBytes, leBytes_length, zeros_length, v.union_length, R_EXPR_SIZE]
  | node op l r => simp [exprBytes, leBytes_length, zeros_length, R_EXPR_SIZE]

theorem TreeAddrs.pointer_lt (a : TreeAddrs) (t : RExpr) : a.pointer t < 256 ^ 8 := by
  cases t with
  | null => exact Nat.pow_pos (by decide)
  | leaf v => exact a.node_lt []
  | node op l r => exact a.node_lt []

theorem TreeAddrs.pointer_eq_zero (a : TreeAddrs) {t : RExpr} (ht : t ≠ .null) :
    a.pointer t ≠ 0 := by
  have hpos := Nat.ne_of_gt (a.node_pos [])
  cases t with
  | null => exact absurd rfl ht
  | leaf v => exact hpos
  | node op l r => exact hpos

/-- The structure of a tree, and what is behind it. -/
theorem struct_read (a : TreeAddrs) {t : RExpr} (ht : t ≠ .null) (rest : List UInt8) :
    (exprBytes a t ++ rest).take R_EXPR_SIZE ++
        zeros (R_EXPR_SIZE - (exprBytes a t ++ rest).length) = exprBytes a t ∧
      (exprBytes a t ++ rest).drop R_EXPR_SIZE = rest := by
  have hlen := exprBytes_length a ht
  rw [List.take_left' hlen, List.drop_left' hlen, List.length_append, hlen,
    Nat.sub_eq_zero_of_le (Nat.le_add_right ..)]
  exact ⟨List.append_nil _, rfl⟩

theorem field_leaf_op (a : TreeAddrs) (v : RValue) : field 0 4 (exprBytes a (.leaf v)) = TLEAF := by
  have hlt : TLEAF < 256 ^ 4 := by decide
  exact field_first hlt

theorem field_leaf_vType (a : TreeAddrs) (v : RValue) :
    field 8 4 (exprBytes a (.leaf v)) = v.vType := by
  have hsplit : exprBytes a (.leaf v) = (leBytes 4 TLEAF ++ zeros 4) ++
      (leBytes 4 v.vType ++ (zeros 4 ++ v.union (a.data []))) := by
    rw [exprBytes, List.append_assoc]
  rw [hsplit]
  exact field_at (by rfl) v.vType_lt

/-- A field at the front of `v_value` -/
theorem field_leaf_union (a : TreeAddrs) (v : RValue) {len n : ℕ} {post : List UInt8}
    (hv : v.union (a.data []) = leBytes len n ++ post) (hn : n < 256 ^ len) :
    field 16 len (exprBytes a (.leaf v)) = n := by
  have hsplit : exprBytes a (.leaf v) =
      (leBytes 4 TLEAF ++ (zeros 4 ++ (leBytes 4 v.vType ++ zeros 4))) ++
        (leBytes len n ++ post) := by
    rw [exprBytes, hv]
    simp only [List.append_assoc]
  rw [hsplit]
  exact field_at (by simp [leBytes_length, zeros_length]) hn

theorem field_node (a : TreeAddrs) (op : SqlOp) (l r : RExpr) :
    field 0 4 (exprBytes a (.node op l r)) = op.code ∧
      field 8 8 (exprBytes a (.node op l r)) = (a.child false).pointer l ∧
      field 16 8 (exprBytes a (.node op l r)) = (a.child true).pointer r := by
  have hlt : op.code < 256 ^ 4 := op.lt
  refine ⟨field_first hlt, ?_, ?_⟩
  · have hsplit : exprBytes a (.node op l r) = (leBytes 4 op.code ++ zeros 4) ++
        (leBytes 8 ((a.child false).pointer l) ++
          (leBytes 8 ((a.child true).pointer r) ++ zeros 8)) := by
      rw [exprBytes, List.append_assoc]
    rw [hsplit]
    exact field_at (by simp [leBytes_length, zeros_length]) ((a.child false).pointer_lt l)
  · have hsplit : exprBytes a (.node op l r) =
        (leBytes 4 op.code ++ (zeros 4 ++ leBytes 8 ((a.child false).pointer l))) ++
          (leBytes 8 ((a.child true).pointer r) ++ zeros 8) := by
      rw [exprBytes]
      simp only [List.append_assoc]
    rw [hsplit]
    exact field_at (by simp [leBytes_length, zeros_length]) ((a.child true).pointer_lt r)

theorem readText_write (text : RText) (rest : List UInt8) :
    readText text.sLen (text.sStr ++ rest) = .ok (text, rest) := by
  have hlong : text.sLen + 1 ≤ (text.sStr ++ rest).length := by
    rw [List.length_append, text.length]
    exact Nat.le_add_right ..
  have htext : (⟨text.sLen, (text.sStr ++ rest).take (text.sLen + 1),
      List.length_take_of_le hlong, text.small⟩ : RText) = text :=
    RText.ext rfl (List.take_left' text.length)
  rw [readText, dif_pos text.small, dif_pos hlong, htext, List.drop_left' text.length]

theorem readItem_write (vItem : RItemBytes) (rest : List UInt8) :
    readItem (vItem.bytes ++ rest) = .ok (vItem, rest) := by
  have hlong : R_ITEM_SIZE ≤ (vItem.bytes ++ rest).length := by
    rw [List.length_append, vItem.length]
    exact Nat.le_add_right ..
  have hitem : (⟨(vItem.bytes ++ rest).take R_ITEM_SIZE,
      List.length_take_of_le hlong⟩ : RItemBytes) = vItem :=
    RItemBytes.ext (List.take_left' vItem.length)
  rw [readItem, dif_pos hlong, hitem, List.drop_left' vItem.length]

theorem readLeaf_write (a : TreeAddrs) (v : RValue) (rest : List UInt8) :
    readLeaf (exprBytes a (.leaf v)) (v.behind ++ rest) =
      .ok (RExpr.owned (.leaf v), rest) := by
  have hcode := field_leaf_vType a v
  unfold readLeaf
  cases v with
  | inline t v =>
      have hword : field 16 8 (exprBytes a (.leaf (.inline t v))) = v.toNat :=
        field_leaf_union a _ rfl v.isLt
      have hinl : field 8 4 (exprBytes a (.leaf (.inline t v))) ∉
          [VITEM, VITEM_ALLOC, VSTRING, VSTRING_ALLOC] := by
        rw [hcode]
        exact t.inl
      have htype : (⟨_, field_lt 8 _, hinl⟩ : InlineType) = t := InlineType.ext hcode
      rw [dif_pos hinl, htype, hword, BitVec.ofNat_toNat, BitVec.setWidth_eq]
      rfl
  | str alloc text =>
      have hlen : field 16 4 (exprBytes a (.leaf (.str alloc text))) = text.sLen := by
        apply field_leaf_union a (.str alloc text) (List.append_assoc ..)
        have hsmall := text.small
        omega
      have hstr : field 8 4 (exprBytes a (.leaf (.str alloc text))) = VSTRING ∨
          field 8 4 (exprBytes a (.leaf (.str alloc text))) = VSTRING_ALLOC := by
        rw [hcode]
        cases alloc with
        | false => exact .inl rfl
        | true => exact .inr rfl
      have hmem : ¬ field 8 4 (exprBytes a (.leaf (.str alloc text))) ∉
          [VITEM, VITEM_ALLOC, VSTRING, VSTRING_ALLOC] := by
        rcases hstr with h | h <;> rw [h] <;> decide
      rw [dif_neg hmem, if_pos hstr, hlen]
      change (readText text.sLen (text.sStr ++ rest)).map _ = _
      rw [readText_write]
      rfl
  | item alloc vItem =>
      have hitem : field 8 4 (exprBytes a (.leaf (.item alloc vItem))) = VITEM ∨
          field 8 4 (exprBytes a (.leaf (.item alloc vItem))) = VITEM_ALLOC := by
        rw [hcode]
        cases alloc with
        | false => exact .inl rfl
        | true => exact .inr rfl
      have hmem : ¬ field 8 4 (exprBytes a (.leaf (.item alloc vItem))) ∉
          [VITEM, VITEM_ALLOC, VSTRING, VSTRING_ALLOC] := by
        rcases hitem with h | h <;> rw [h] <;> decide
      have hstr : ¬ (field 8 4 (exprBytes a (.leaf (.item alloc vItem))) = VSTRING ∨
          field 8 4 (exprBytes a (.leaf (.item alloc vItem))) = VSTRING_ALLOC) := by
        rcases hitem with h | h <;> rw [h] <;> decide
      rw [dif_neg hmem, if_neg hstr]
      change (readItem (vItem.bytes ++ rest)).map _ = _
      rw [readItem_write]
      rfl

/-- A tree is read back from what was written of it, and no more is read. -/
theorem sqlReadTree_write {t : RExpr} (ht : t ≠ .null) (a : TreeAddrs) {levels : ℕ}
    (hlevels : t.levels ≤ levels) (rest : List UInt8) :
    sqlReadTree levels (sqlWriteTree a t ++ rest) = .ok (t.owned, rest) := by
  induction t generalizing a levels rest with
  | null => exact absurd rfl ht
  | leaf v =>
      obtain ⟨levels, rfl⟩ := Nat.exists_eq_add_one_of_ne_zero (Nat.ne_of_gt hlevels)
      obtain ⟨hep, hrest⟩ := struct_read a ht (v.behind ++ rest)
      rw [sqlWriteTree, List.append_assoc, sqlReadTree, hep, hrest, readRest,
        dif_pos (field_leaf_op a v)]
      exact readLeaf_write a v rest
  | node op l r hl hr =>
      obtain ⟨levels, rfl⟩ := Nat.exists_eq_add_one_of_ne_zero
        (Nat.ne_of_gt (Nat.lt_of_lt_of_le (Nat.succ_pos _) hlevels))
      have hsub := Nat.le_of_succ_le_succ hlevels
      obtain ⟨hop, hpl, hpr⟩ := field_node a op l r
      have hchild : ∀ {t : RExpr} (b : TreeAddrs) (rest : List UInt8),
          (t ≠ .null → sqlReadTree levels (sqlWriteTree b t ++ rest) = .ok (t.owned, rest)) →
          readChild (sqlReadTree levels) (b.pointer t) (sqlWriteTree b t ++ rest) =
            .ok (t.owned, rest) := by
        intro t b rest hread
        by_cases hnull : t = .null
        · rw [hnull]
          rfl
        · rw [readChild, if_neg (b.pointer_eq_zero hnull), hread hnull]
      have hinner : field 0 4 (exprBytes a (.node op l r)) ≠ TLEAF := by
        rw [hop]
        exact op.inner
      have hcode : (⟨_, field_lt 0 _, hinner⟩ : SqlOp) = op := SqlOp.ext hop
      obtain ⟨hep, hrest⟩ := struct_read a ht (sqlWriteTree (a.child false) l ++
        (sqlWriteTree (a.child true) r ++ rest))
      have hleft := hchild (a.child false) (sqlWriteTree (a.child true) r ++ rest)
        fun hnull => hl hnull _ (le_trans (le_max_left ..) hsub) _
      have hright := hchild (a.child true) rest
        fun hnull => hr hnull _ (le_trans (le_max_right ..) hsub) _
      rw [sqlWriteTree, List.append_assoc, List.append_assoc, sqlReadTree, hep, hrest, readRest,
        dif_neg hinner, hcode, hpl, hpr, hleft]
      change (readChild (sqlReadTree levels) _ (sqlWriteTree (a.child true) r ++ rest)).bind _ = _
      rw [hright]
      rfl

/-- A value without the mark of who owns its string or item. -/
def RValue.unmark : RValue → RValue
  | inline t v => inline t v
  | str _ text => str false text
  | item _ vItem => item false vItem

theorem RExpr.owned_unmark (t : RExpr) : t.owned.map RValue.unmark = RTree.map RValue.unmark t := by
  induction t with
  | null => rfl
  | leaf v => cases v <;> rfl
  | node op l r hl hr => exact congrArg₂ (RTree.node op) hl hr

/-- A tree that is written is read back from those bytes, with strings and items of
its own. -/
theorem sqlTree_roundTrip (t : RExpr) (ht : t ≠ .null) (a : TreeAddrs) (rest : List UInt8) :
    (∃ levels, ∀ more, levels ≤ more →
      sqlReadTree more (sqlWriteTree a t ++ rest) = .ok (t.owned, rest)) ∧
      t.owned.map RValue.unmark = RTree.map RValue.unmark t :=
  ⟨⟨t.levels, fun _ hmore => sqlReadTree_write ht a hmore rest⟩, t.owned_unmark⟩

/-- A tree in memory, wherever -/
def anyAddrs : TreeAddrs := ⟨fun _ => 4096, fun _ => 8192, fun _ => by decide, fun _ => by decide⟩

/-- The name `a` in the text `a,` -/
def nameA : RText := ⟨2, [97, 0, 44], rfl, by decide⟩

theorem sqlTree_roundTrip_drop :
    ∃ levels, sqlReadTree levels (sqlWriteTree anyAddrs (SqlStatement.dropView nameA).tree.expr) =
      .ok (.node .sdropView (.leaf (.str true nameA)) .null, []) := by
  have hnull := (SqlStatement.dropView nameA).expr_ne_null
  obtain ⟨levels, h⟩ := (sqlTree_roundTrip _ hnull anyAddrs []).1
  have hread := h levels (le_refl levels)
  rw [List.append_nil] at hread
  exact ⟨levels, hread⟩

/-- A name of a statement is not its own string, and comes back as one. -/
theorem sqlTree_roundTrip_marked :
    ¬ ∀ (t : RExpr) (a : TreeAddrs) (rest : List UInt8), t ≠ .null →
      ∃ levels, sqlReadTree levels (sqlWriteTree a t ++ rest) = .ok (t, rest) := by
  intro hall
  obtain ⟨levels, h⟩ := hall (sqlSname nameA).expr anyAddrs [] (by decide)
  cases levels with
  | zero => cases h
  | succ levels =>
      have hown : sqlReadTree (levels + 1) (sqlWriteTree anyAddrs (sqlSname nameA).expr ++ []) =
          .ok ((sqlSname nameA).expr.owned, []) :=
        sqlReadTree_write (by decide) anyAddrs (Nat.succ_le_succ (Nat.zero_le levels)) []
      rw [hown] at h
      exact absurd (congrArg Prod.fst (Except.ok.inj h)) (by decide)

end PaxosSolutions.XjPing
