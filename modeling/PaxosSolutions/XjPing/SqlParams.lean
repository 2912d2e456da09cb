import PaxosSolutions.XjPing.SqlGetnode
import Mathlib.Data.List.GetD

/-!
# Parameters of prepared statements

The parameters that are bound to a statement are sent behind its text. The server
walks over the leaves of the tree it parses, and each placeholder takes the next
parameter.
-/
namespace PaxosSolutions.XjPing
open NWGadget

def R_INT : ℕ := 2
def R_UINT : ℕ := 3
def R_FLOAT : ℕ := 4
def R_STR : ℕ := 5
def R_LONG : ℕ := 6
def R_ULONG : ℕ := 7

/-- A string that `sql_bind_str` was given, up to its end. -/
structure BoundStr where
  str : List UInt8
  noEnd : 0 ∉ str
  small : str.length + 1 < 0x80000000
deriving DecidableEq, Repr

/-- A parameter of `st_params` -/
inductive SqlParam where
  | int (v : BitVec 32)
  | uint (v : BitVec 32)
  | long (v : BitVec 64)
  | ulong (v : BitVec 64)
  | float (v : BitVec 32)
  | str (s : BoundStr)
deriving DecidableEq, Repr

namespace SqlParam

def spType : SqlParam → ℕ
  | int _ => R_INT
  | uint _ => R_UINT
  | long _ => R_LONG
  | ulong _ => R_ULONG
  | float _ => R_FLOAT
  | str _ => R_STR

/-- `sp_data` -/
def spData : SqlParam → List UInt8
  | int v => leBytes 4 v.toNat
  | uint v => leBytes 4 v.toNat
  | long v => leBytes 8 v.toNat
  | ulong v => leBytes 8 v.toNat
  | float v => leBytes 4 v.toNat
  | str s => s.str ++ [0]

/-- `sp_size` -/
def spSize : SqlParam → ℕ
  | int _ => 4
  | uint _ => 4
  | long _ => 8
  | ulong _ => 8
  | float _ => 4
  | str s => s.str.length + 1

/-- `r_sql_param_t` with its data -/
def bytes (p : SqlParam) : List UInt8 := leBytes 4 p.spType ++ (leBytes 4 p.spSize ++ p.spData)

/-- What a parameter is as a value of an expression. -/
def value : SqlParam → RValue
  | int v => .inline .vint (v.setWidth 64)
  | uint v => .inline .vuint (v.setWidth 64)
  | long v => .inline .vlong v
  | ulong v => .inline .vulong v
  | float v => .inline .vfloat (v.setWidth 64)
  | str s => .str true ⟨s.str.length, s.str ++ [0], List.length_append, s.small⟩

end SqlParam

/-- `sql_calc_params_size`: a parameter is counted with an `int` and a `size_t`. -/
def sqlCalcParamsSize (ps : List SqlParam) : ℕ := (ps.map fun p => 4 + 8 + p.spSize).sum

/-- `sql_copy_params` -/
def sqlCopyParams (ps : List SqlParam) : List UInt8 := ps.flatMap SqlParam.bytes

/-! ### The walk over a tree -/

namespace RTree
variable {α : Type}

/-- The leaves by their number, where the nodes are numbered from the root on and from
left to right. A number stands for the address of a node. -/
def numbered : ℕ → RTree α → List (ℕ × α)
  | _, null => []
  | k, leaf v => [(k, v)]
  | k, node _ l r => l.numbered (k + 1) ++ r.numbered (k + 1 + l.size)

/-- A leaf is given a value. -/
def setLeaf (c : ℕ) (v : α) : ℕ → RTree α → RTree α
  | _, null => null
  | k, leaf w => if k = c then leaf v else leaf w
  | k, node op l r => node op (l.setLeaf c v (k + 1)) (r.setLeaf c v (k + 1 + l.size))

end RTree

/-! ### Binding -/

/-- Bytes of the request, by where they are from its first parameter on. -/
def memBytes (mem : ℕ → UInt8) (off len : ℕ) : List UInt8 :=
  (List.range len).map fun i => mem (off + i)

def memWord (mem : ℕ → UInt8) (off len : ℕ) : ℕ :=
  Nat.ofDigits 256 ((memBytes mem off len).map UInt8.toNat)

/-- The string that `strncpy` takes, up to its end. -/
def memStr (mem : ℕ → UInt8) (off len : ℕ) : List UInt8 :=
  (memBytes mem off len).takeWhile fun b => b != 0

/-- `strncpy`, which fills up with zeros. -/
def strncpyMem (mem : ℕ → UInt8) (off len : ℕ) : List UInt8 :=
  memStr mem off len ++ zeros (len - (memStr mem off len).length)

theorem memBytes_length (mem : ℕ → UInt8) (off len : ℕ) : (memBytes mem off len).length = len := by
  rw [memBytes, List.length_map, List.length_range]

theorem memStr_length_le (mem : ℕ → UInt8) (off len : ℕ) : (memStr mem off len).length ≤ len :=
  le_of_le_of_eq (List.takeWhile_sublist _).length_le (memBytes_length mem off len)

theorem strncpyMem_length (mem : ℕ → UInt8) (off len : ℕ) :
    (strncpyMem mem off len).length = len := by
  rw [strncpyMem, List.length_append, zeros_length,
    Nat.add_sub_cancel' (memStr_length_le mem off len)]

/-- A string parameter of `sp_size` bytes. One without any, or of 2^31 and more, is no
string of an expression. -/
def bindText (mem : ℕ → UInt8) (off spSize : ℕ) : Option RText :=
  if h : 0 < spSize ∧ spSize < 0x80000000 then
    some
      { sLen := spSize - 1
        sStr := strncpyMem mem off spSize
        length := (strncpyMem_length mem off spSize).trans (Nat.sub_add_cancel h.1).symm
        small := lt_of_eq_of_lt (Nat.sub_add_cancel h.1) h.2 }
  else none

/-- The parameter at an address, by `sp_type`: the value that a leaf is given, if it is
one, and where the last byte of it ends that is read. -/
def bindParam (mem : ℕ → UInt8) (ptr : ℕ) : Option (Option RValue × ℕ) :=
  let spType := memWord mem ptr 4
  let spSize := memWord mem (ptr + 4) 4
  let int := (BitVec.ofNat 32 (memWord mem (ptr + 8) 4)).setWidth 64
  let long := BitVec.ofNat 64 (memWord mem (ptr + 8) 8)
  if spType = R_INT then some (some (.inline .vint int), ptr + 12)
  else if spType = R_UINT then some (some (.inline .vuint int), ptr + 12)
  else if spType = R_LONG then some (some (.inline .vlong long), ptr + 16)
  else if spType = R_ULONG then some (some (.inline .vulong long), ptr + 16)
  else if spType = R_FLOAT then some (some (.inline .vfloat int), ptr + 12)
  else if spType = R_STR then
    some ((bindText mem (ptr + 8) spSize).map (.str true),
      ptr + 8 + min spSize ((memStr mem (ptr + 8) spSize).length + 1))
  else none

/-- The tree, `ptr` and `pos` of `prc_sql_bind_params`, and the end of what it has read. -/
structure BindState where
  tree : RExpr
  ptr : ℕ := 0
  pos : ℕ := 0
  reached : ℕ := 0
deriving DecidableEq, Repr

/-- A placeholder of the loop, and the answer if it ends there. -/
def bindLeaf (mem : ℕ → UInt8) (sqlNumParams sp : ℕ) (s : BindState) : Option ℤ × BindState :=
  match bindParam mem s.ptr with
  | none => (some (-1), { s with reached := max s.reached (s.ptr + 4) })
  | some (val, readEnd) =>
      let s :=
        { tree := val.elim s.tree fun v => s.tree.setLeaf sp v 0
          ptr := s.ptr + 8 + memWord mem (s.ptr + 4) 4
          pos := s.pos + 1
          reached := max s.reached readEnd }
      (if s.pos > sqlNumParams then some (-1) else none, s)

/-- The loop of `prc_sql_bind_params`, or nothing if it takes more turns. -/
def bindLoop (mem : ℕ → UInt8) (sqlNumParams : ℕ) :
    ℕ → Option ℕ → BindState → Option (ℤ × BindState)
  | 0, _, _ => none
  | turns + 1, sp, s =>
      match sqlGetnode s.tree sp TLEAF with
      | none => some (if s.pos < sqlNumParams then -1 else 0, s)
      | some sp =>
          match (s.tree.numbered 0).lookup sp with
          | some (.inline t _) =>
              if t = .vparam then
                match bindLeaf mem sqlNumParams sp s with
                | (some ret, s) => some (ret, s)
                | (none, s) => bindLoop mem sqlNumParams turns (some sp) s
              else bindLoop mem sqlNumParams turns (some sp) s
          | _ => bindLoop mem sqlNumParams turns (some sp) s

/-- `prc_sql_bind_params` -/
def prcSqlBindParams (mem : ℕ → UInt8) (sqlNumParams turns : ℕ) (statement : RExpr) :
    Option (ℤ × BindState) :=
  bindLoop mem sqlNumParams turns none { tree := statement }

/-- The request from its first parameter on, with whatever is behind the last. -/
def paramMem (ps : List SqlParam) (beyond : ℕ → UInt8) (i : ℕ) : UInt8 :=
  (sqlCopyParams ps).getD i (beyond i)

/-! ### Leaves by their numbers -/

namespace RTree
variable {α : Type} {c k : ℕ} {v : α} {t u : RTree α}

theorem numbered_bounds {p : ℕ × α} (h : p ∈ t.numbered k) : k ≤ p.1 ∧ p.1 < k + t.size := by
  induction t generalizing k with
  | null => cases h
  | leaf v =>
      cases List.mem_singleton.mp h
      exact ⟨le_refl k, Nat.lt_succ_self k⟩
  | node op l r hl hr =>
      unfold size
      rcases List.mem_append.mp h with h | h
      · have hb := hl h
        omega
      · have hb := hr h
        omega

theorem numbered_pairwise (k : ℕ) (t : RTree α) :
    (t.numbered k).Pairwise fun p q => p.1 < q.1 := by
  induction t generalizing k with
  | null => exact List.Pairwise.nil
  | leaf v => exact List.pairwise_singleton ..
  | node op l r hl hr =>
      refine List.pairwise_append.mpr ⟨hl _, hr _, fun p hp q hq => ?_⟩
      have hb := numbered_bounds hp
      have hb' := numbered_bounds hq
      omega

theorem numbered_snd (k : ℕ) (t : RTree α) : (t.numbered k).map Prod.snd = t.leaves := by
  induction t generalizing k with
  | null => rfl
  | leaf v => rfl
  | node op l r hl hr => rw [numbered, List.map_append, hl, hr, leaves]

theorem size_setLeaf (c : ℕ) (v : α) (k : ℕ) (t : RTree α) : (t.setLeaf c v k).size = t.size := by
  induction t generalizing k with
  | null => rfl
  | leaf w =>
      unfold setLeaf
      split_ifs <;> rfl
  | node op l r hl hr => rw [setLeaf, size, hl, hr, size]

theorem numbered_setLeaf (c : ℕ) (v : α) (k : ℕ) (t : RTree α) :
    (t.setLeaf c v k).numbered k = (t.numbered k).map fun p => if p.1 = c then (p.1, v) else p := by
  induction t generalizing k with
  | null => rfl
  | leaf w =>
      unfold setLeaf numbered
      split_ifs with h
      · simp [h]
      · simp [h]
  | node op l r hl hr =>
      rw [setLeaf, numbered, size_setLeaf, hl, hr, numbered, List.map_append]

/-- Only the leaf of the number changes. -/
theorem numbered_setLeaf_split {D T : List (ℕ × α)} {w : α} (h : t.numbered k = D ++ (c, w) :: T)
    (v : α) : (t.setLeaf c v k).numbered k = D ++ (c, v) :: T := by
  have hpair := numbered_pairwise k t
  rw [h, List.pairwise_append, List.pairwise_cons] at hpair
  obtain ⟨-, ⟨hT, -⟩, hD⟩ := hpair
  have hsame : ∀ L : List (ℕ × α), (∀ p ∈ L, p.1 ≠ c) →
      (L.map fun p => if p.1 = c then (p.1, v) else p) = L := by
    intro L hL
    have hid : (L.map fun p => if p.1 = c then (p.1, v) else p) = L.map id :=
      List.map_congr_left fun p hp => if_neg (hL p hp)
    rw [hid, List.map_id]
  rw [numbered_setLeaf, h, List.map_append, List.map_cons, if_pos rfl,
    hsame D fun p hp => Nat.ne_of_lt (hD p hp _ List.mem_cons_self),
    hsame T fun p hp => Nat.ne_of_gt (hT p hp)]

/-- The nodes of a tree -/
def shape (t : RTree α) : RTree Unit := t.map fun _ => ()

theorem shape_setLeaf (c : ℕ) (v : α) (k : ℕ) (t : RTree α) : (t.setLeaf c v k).shape = t.shape := by
  induction t generalizing k with
  | null => rfl
  | leaf w =>
      unfold setLeaf
      split_ifs <;> rfl
  | node op l r hl hr => exact congrArg₂ (node op) (hl _) (hr _)

theorem length_leaves (t : RTree α) : t.shape.leaves.length = t.leaves.length := by
  rw [shape, leaves_map, List.length_map]

/-- A tree is its nodes and its leaves. -/
theorem eq_of_leaves (hshape : t.shape = u.shape) (hleaves : t.leaves = u.leaves) : t = u := by
  induction t generalizing u with
  | null =>
      cases u with
      | null => rfl
      | leaf w => cases hshape
      | node op l r => cases hshape
  | leaf v =>
      cases u with
      | null => cases hshape
      | leaf w => rw [List.singleton_inj.mp hleaves]
      | node op l r => cases hshape
  | node op l r hl hr =>
      cases u with
      | null => cases hshape
      | leaf w => cases hshape
      | node op' l' r' =>
          obtain ⟨rfl, hsl, hsr⟩ := RTree.node.inj hshape
          have hlen : l.leaves.length = l'.leaves.length := by
            rw [← length_leaves l, ← length_leaves l']
            exact congrArg (fun t => t.leaves.length) hsl
          obtain ⟨hll, hlr⟩ := List.append_inj hleaves hlen
          rw [hl hsl hll, hr hsr hlr]

end RTree

/-! ### The next leaf -/

/-- The leaves are the nodes with `TLEAF`. -/
theorem nodesOf_leaves (k : ℕ) (t : RExpr) :
    (nodesOf TLEAF k t).map Prod.fst = (t.numbered k).map Prod.fst := by
  unfold nodesOf
  induction t generalizing k with
  | null => rfl
  | leaf v => rfl
  | node op l r hl hr =>
      have hop : ¬ (op.code == TLEAF) = true := fun h => op.inner (eq_of_beq h)
      rw [treeNodes, List.filter_cons, if_neg hop, List.filter_append, List.map_append, hl, hr,
        RTree.numbered, List.map_append]

/-- The leaves are found one after another. -/
theorem sqlGetnode_next {t : RExpr} {D T : List (ℕ × RValue)} (h : t.numbered 0 = D ++ T) :
    sqlGetnode t ((D.map Prod.fst).getLast?) TLEAF = (T.map Prod.fst).head? := by
  have hnums : (nodesOf TLEAF 0 t).map Prod.fst = D.map Prod.fst ++ T.map Prod.fst := by
    rw [nodesOf_leaves, h, List.map_append]
  have hlen : D.length ≤ (nodesOf TLEAF 0 t).length := by
    have hlength := congrArg List.length hnums
    rw [List.length_map, List.length_append, List.length_map] at hlength
    exact hlength ▸ Nat.le_add_right _ _
  have hcursor : (D.map Prod.fst).getLast? = cursor TLEAF t D.length := by
    rcases List.eq_nil_or_concat D with rfl | ⟨E, p, rfl⟩
    · rfl
    · have hlast : E.length < ((E.concat p).map Prod.fst).length := by simp
      rw [List.length_concat, cursor, ← List.getElem?_map, hnums, List.getElem?_append_left hlast,
        List.getLast?_eq_getElem?, List.length_map, List.length_concat]
      rfl
  rw [hcursor]
  unfold sqlGetnode
  rw [sqlFindnode_cursor hlen, ← List.getElem?_map, hnums,
    List.getElem?_append_right (List.length_map _).le, List.length_map, Nat.sub_self,
    List.head?_eq_getElem?]

/-! ### Parameters in memory -/

section
variable {mem : ℕ → UInt8} {off ptr n v : ℕ} {bs cs : List UInt8}

/-- Bytes that are in memory. -/
def Holds (mem : ℕ → UInt8) (off : ℕ) (bs : List UInt8) : Prop := memBytes mem off bs.length = bs

theorem memBytes_add (mem : ℕ → UInt8) (off m n : ℕ) :
    memBytes mem off (m + n) = memBytes mem off m ++ memBytes mem (off + m) n := by
  unfold memBytes
  rw [List.range_add, List.map_append, List.map_map]
  congr 1
  apply List.map_congr_left
  intro i _
  exact congrArg mem (Nat.add_assoc off m i).symm

theorem Holds.append (h : Holds mem off (bs ++ cs)) :
    Holds mem off bs ∧ Holds mem (off + bs.length) cs := by
  unfold Holds at h
  rw [List.length_append, memBytes_add] at h
  exact List.append_inj h (memBytes_length ..)

theorem Holds.word (h : Holds mem off (leBytes n v)) (hv : v < 256 ^ n) : memWord mem off n = v := by
  unfold Holds at h
  rw [leBytes_length] at h
  rw [memWord, h, ofDigits_leBytes, Nat.mod_eq_of_lt hv]

theorem holds_paramMem (ps : List SqlParam) (beyond : ℕ → UInt8) :
    Holds (paramMem ps beyond) 0 (sqlCopyParams ps) := by
  unfold Holds memBytes
  apply List.ext_getElem
  · rw [List.length_map, List.length_range]
  · intro i hi hi'
    rw [List.getElem_map, List.getElem_range, Nat.zero_add, paramMem]
    exact List.getD_eq_getElem _ _ hi'

theorem SqlParam.spData_length (q : SqlParam) : q.spData.length = q.spSize := by
  cases q with
  | str s => exact List.length_append
  | _ => exact leBytes_length

theorem SqlParam.bytes_length (q : SqlParam) : q.bytes.length = 8 + q.spSize := by
  rw [bytes, List.length_append, List.length_append, leBytes_length, leBytes_length,
    q.spData_length, ← Nat.add_assoc]

theorem SqlParam.spSize_lt (q : SqlParam) : q.spSize < 256 ^ 4 := by
  cases q with
  | str s => exact Nat.lt_trans s.small (by decide)
  | _ => simp [spSize]

/-- The head of a parameter, and its data behind it. -/
theorem SqlParam.holds {q : SqlParam} (h : Holds mem ptr q.bytes) :
    memWord mem ptr 4 = q.spType ∧ memWord mem (ptr + 4) 4 = q.spSize ∧
      Holds mem (ptr + 8) q.spData := by
  obtain ⟨htype, h⟩ := h.append
  obtain ⟨hsize, hdata⟩ := h.append
  rw [leBytes_length] at hsize hdata
  rw [leBytes_length] at hdata
  have hlt : q.spType < 256 ^ 4 := by
    cases q <;> simp only [spType] <;> decide
  exact ⟨htype.word hlt, hsize.word q.spSize_lt, hdata⟩

theorem Holds.bits {w : ℕ} (v : BitVec w) (h : Holds mem off (leBytes n v.toNat))
    (hw : 2 ^ w = 256 ^ n) : BitVec.ofNat w (memWord mem off n) = v := by
  rw [h.word (hw ▸ v.isLt), BitVec.ofNat_toNat, BitVec.setWidth_eq]

/-- A string is taken up to its end. -/
theorem BoundStr.memStr (s : BoundStr) (h : Holds mem off (s.str ++ [0])) :
    XjPing.memStr mem off (s.str.length + 1) = s.str := by
  have hall : ∀ b ∈ s.str, (b != 0) = true := fun b hb =>
    bne_iff_ne.mpr fun he => s.noEnd (he ▸ hb)
  unfold Holds at h
  rw [List.length_append, List.length_singleton] at h
  rw [XjPing.memStr, h, List.takeWhile_append_of_pos hall]
  exact List.append_nil _

theorem BoundStr.bindText (s : BoundStr) (h : Holds mem off (s.str ++ [0])) :
    XjPing.bindText mem off (s.str.length + 1) =
      some ⟨s.str.length, s.str ++ [0], List.length_append, s.small⟩ := by
  have hpos : 0 < s.str.length + 1 ∧ s.str.length + 1 < 0x80000000 := ⟨Nat.succ_pos _, s.small⟩
  rw [XjPing.bindText, dif_pos hpos]
  congr 1
  apply RText.ext
  · rfl
  · change strncpyMem mem off (s.str.length + 1) = s.str ++ [0]
    rw [strncpyMem, s.memStr h, Nat.add_sub_cancel_left]
    rfl

/-- A parameter is read as it was sent, up to its end. -/
theorem bindParam_holds {q : SqlParam} (h : Holds mem ptr q.bytes) :
    bindParam mem ptr = some (some q.value, ptr + q.bytes.length) := by
  obtain ⟨htype, hsize, hdata⟩ := SqlParam.holds h
  rw [q.bytes_length]
  unfold bindParam
  dsimp only
  rw [htype, hsize]
  cases q with
  | int v =>
      rw [Holds.bits v hdata (by norm_num)]
      rfl
  | uint v =>
      rw [Holds.bits v hdata (by norm_num)]
      rfl
  | long v =>
      rw [Holds.bits v hdata (by norm_num)]
      rfl
  | ulong v =>
      rw [Holds.bits v hdata (by norm_num)]
      rfl
  | float v =>
      rw [Holds.bits v hdata (by norm_num)]
      rfl
  | str s =>
      change some ((XjPing.bindText mem (ptr + 8) (s.str.length + 1)).map (RValue.str true),
        ptr + 8 + min (s.str.length + 1)
          ((XjPing.memStr mem (ptr + 8) (s.str.length + 1)).length + 1)) = _
      rw [s.bindText hdata, s.memStr hdata, Nat.min_self, Nat.add_assoc]
      rfl

end

/-! ### The loop -/

def RValue.isParam : RValue → Bool
  | inline t _ => decide (t = .vparam)
  | _ => false

/-- Placeholders are given values, one after another. -/
def fillValues : List RValue → List RValue → List RValue
  | [], _ => []
  | v :: vs, [] => v :: vs
  | v :: vs, p :: ps =>
      if v.isParam then p :: fillValues vs ps else v :: fillValues vs (p :: ps)

section
variable {mem : ℕ → UInt8} {num turns c : ℕ} {s : BindState} {D T : List (ℕ × RValue)} {v : RValue}

theorem lookup_split (hout : ∀ p ∈ D, p.1 ≠ c) : (D ++ (c, v) :: T).lookup c = some v := by
  induction D with
  | nil => exact List.lookup_cons_self
  | cons p D ih =>
      have hne : (c == p.1) = false :=
        beq_eq_false_iff_ne.mpr (Ne.symm (hout p List.mem_cons_self))
      rw [List.cons_append, List.lookup_cons, hne]
      exact ih fun q hq => hout q (List.mem_cons_of_mem p hq)

/-- A turn of the loop -/
theorem bindLoop_cons (h : s.tree.numbered 0 = D ++ (c, v) :: T) :
    bindLoop mem num (turns + 1) ((D.map Prod.fst).getLast?) s =
      if v.isParam then
        match bindLeaf mem num c s with
        | (some ret, s) => some (ret, s)
        | (none, s) => bindLoop mem num turns (some c) s
      else bindLoop mem num turns (some c) s := by
  have hout : ∀ p ∈ D, p.1 ≠ c := by
    intro p hp
    have hpair := RTree.numbered_pairwise 0 s.tree
    rw [h, List.pairwise_append] at hpair
    exact Nat.ne_of_lt (hpair.2.2 p hp _ List.mem_cons_self)
  have hlook : (s.tree.numbered 0).lookup c = some v := by rw [h, lookup_split hout]
  have hnext : sqlGetnode s.tree ((D.map Prod.fst).getLast?) TLEAF = some c := by
    rw [sqlGetnode_next h]
    rfl
  rw [bindLoop, hnext]
  dsimp only
  rw [hlook]
  cases v with
  | inline t w => by_cases ht : t = .vparam <;> simp [RValue.isParam, ht]
  | str alloc text => rfl
  | item alloc vItem => rfl

theorem bindLoop_nil (h : s.tree.numbered 0 = D) :
    bindLoop mem num (turns + 1) ((D.map Prod.fst).getLast?) s =
      some (if s.pos < num then -1 else 0, s) := by
  have hnext : sqlGetnode s.tree ((D.map Prod.fst).getLast?) TLEAF = none :=
    sqlGetnode_next (h.trans (List.append_nil D).symm)
  rw [bindLoop, hnext]

/-- A placeholder behind the last parameter: more is read, and the answer is -1. -/
theorem bindLeaf_beyond (h : s.pos = num) :
    (bindLeaf mem num c s).1 = some (-1) ∧ s.ptr < (bindLeaf mem num c s).2.reached := by
  unfold bindLeaf
  cases hb : bindParam mem s.ptr with
  | none => exact ⟨rfl, lt_max_of_lt_right (Nat.lt_add_of_pos_right (by decide))⟩
  | some r =>
      obtain ⟨val, readEnd⟩ := r
      have hread : s.ptr < readEnd := by
        unfold bindParam at hb
        dsimp only at hb
        split_ifs at hb <;> cases hb <;> omega
      refine ⟨?_, lt_max_of_lt_right hread⟩
      dsimp only
      rw [if_pos (h ▸ Nat.lt_succ_self s.pos)]

/-- A placeholder with its parameter -/
theorem bindLeaf_holds {q : SqlParam} (h : Holds mem s.ptr q.bytes) (hpos : s.pos < num) :
    bindLeaf mem num c s =
      (none,
        { tree := s.tree.setLeaf c q.value 0
          ptr := s.ptr + q.bytes.length
          pos := s.pos + 1
          reached := max s.reached (s.ptr + q.bytes.length) }) := by
  have hsize := (SqlParam.holds h).2.1
  unfold bindLeaf
  rw [bindParam_holds h]
  dsimp only
  rw [hsize, if_neg (Nat.not_lt.mpr hpos), q.bytes_length, Nat.add_assoc]
  rfl

theorem bindLeaf_shape : (bindLeaf mem num c s).2.tree.shape = s.tree.shape := by
  unfold bindLeaf
  cases bindParam mem s.ptr with
  | none => rfl
  | some r =>
      obtain ⟨val, readEnd⟩ := r
      cases val with
      | none => rfl
      | some v => exact RTree.shape_setLeaf c v 0 s.tree

/-- What the loop comes to from a state, with leaves behind it and before it, and
parameters. -/
structure BindEnds (s : BindState) (front rest : List RValue) (qs : List SqlParam) (ret : ℤ)
    (s' : BindState) : Prop where
  shape : s'.tree.shape = s.tree.shape
  equal : rest.countP RValue.isParam = qs.length →
    ret = 0 ∧ s'.tree.leaves = front ++ fillValues rest (qs.map SqlParam.value)
  other : rest.countP RValue.isParam ≠ qs.length → ret = -1
  within : rest.countP RValue.isParam ≤ qs.length →
    s'.reached ≤ max s.reached (s.ptr + (sqlCopyParams qs).length)
  beyond : qs.length < rest.countP RValue.isParam →
    s.ptr + (sqlCopyParams qs).length < s'.reached

/-- The loop over the leaves that are left, with the parameters that are left. -/
theorem bindLoop_ends {qs : List SqlParam} (hT : s.tree.numbered 0 = D ++ T)
    (hmem : Holds mem s.ptr (sqlCopyParams qs)) (hpos : s.pos + qs.length = num)
    (hturns : T.length < turns) :
    ∃ ret s', bindLoop mem num turns ((D.map Prod.fst).getLast?) s = some (ret, s') ∧
      BindEnds s (D.map Prod.snd) (T.map Prod.snd) qs ret s' := by
  induction T generalizing D s qs turns with
  | nil =>
      obtain ⟨turns, rfl⟩ := Nat.exists_eq_add_one_of_ne_zero (Nat.ne_of_gt hturns)
      have hleaves : s.tree.leaves = D.map Prod.snd := by
        rw [← RTree.numbered_snd 0, hT, List.append_nil]
      refine ⟨_, s, bindLoop_nil (hT.trans (List.append_nil D)), rfl, fun hn => ⟨?_, ?_⟩,
        fun hn => ?_, fun _ => le_max_left .., fun hn => absurd hn (Nat.not_lt_zero _)⟩
      · rw [List.map_nil, List.countP_nil] at hn
        exact if_neg (by omega)
      · rw [hleaves]
        exact (List.append_nil _).symm
      · rw [List.map_nil, List.countP_nil] at hn
        exact if_pos (by omega)
  | cons p T ih =>
      obtain ⟨c, v⟩ := p
      obtain ⟨turns, rfl⟩ := Nat.exists_eq_add_one_of_ne_zero
        (Nat.ne_of_gt (Nat.zero_lt_of_lt hturns))
      have hturns' := Nat.lt_of_succ_lt_succ hturns
      have hlast : ∀ w : RValue, ((D ++ [(c, w)]).map Prod.fst).getLast? = some c := by
        intro w
        rw [List.map_append, List.map_singleton, List.getLast?_append_cons]
        rfl
      have hfront : ∀ w : RValue, (D ++ [(c, w)]).map Prod.snd = D.map Prod.snd ++ [w] := by
        intro w
        rw [List.map_append, List.map_singleton]
      rw [bindLoop_cons hT, List.map_cons]
      by_cases hv : v.isParam = true
      · rw [if_pos hv]
        cases qs with
        | nil =>
            have hleaf : (bindLeaf mem num c s).1 = some (-1) ∧
                s.ptr < (bindLeaf mem num c s).2.reached := bindLeaf_beyond hpos
            have hshape : (bindLeaf mem num c s).2.tree.shape = s.tree.shape := bindLeaf_shape
            generalize bindLeaf mem num c s = r at hleaf hshape
            obtain ⟨ret, s'⟩ := r
            obtain ⟨rfl, hreach⟩ := hleaf
            have hmore : 0 < (v :: T.map Prod.snd).countP RValue.isParam := by
              rw [List.countP_cons_of_pos hv]
              exact Nat.succ_pos _
            refine ⟨-1, s', rfl, hshape, fun hn => ?_, fun _ => rfl, fun hn => ?_, fun _ => hreach⟩
            · exact absurd hn (Nat.ne_of_gt hmore)
            · exact absurd hn (Nat.not_le.mpr hmore)
        | cons q qs =>
            have hbytes : sqlCopyParams (q :: qs) = q.bytes ++ sqlCopyParams qs := rfl
            rw [hbytes] at hmem
            obtain ⟨hq, hqs⟩ := hmem.append
            rw [List.length_cons] at hpos
            rw [bindLeaf_holds hq (by omega)]
            dsimp only
            have hset := RTree.numbered_setLeaf_split hT q.value
            rw [← List.singleton_append, ← List.append_assoc] at hset
            rw [← hlast q.value]
            have hpos' : s.pos + 1 + qs.length = num := by omega
            obtain ⟨ret, s', hloop, hends⟩ := ih (s := ⟨_, _, _, _⟩) hset hqs hpos' hturns'
            refine ⟨ret, s', hloop, hends.shape.trans (RTree.shape_setLeaf ..), ?_, ?_, ?_, ?_⟩
            · intro hn
              rw [List.countP_cons_of_pos hv, List.length_cons] at hn
              obtain ⟨hret, hleaves⟩ := hends.equal (Nat.succ.inj hn)
              refine ⟨hret, ?_⟩
              rw [hleaves, hfront, List.append_assoc, List.map_cons, fillValues, if_pos hv]
              rfl
            · intro hn
              rw [List.countP_cons_of_pos hv, List.length_cons] at hn
              exact hends.other fun h => hn (congrArg Nat.succ h)
            · intro hn
              rw [List.countP_cons_of_pos hv, List.length_cons] at hn
              have hle := hends.within (Nat.le_of_succ_le_succ hn)
              dsimp only at hle
              rw [hbytes, List.length_append]
              omega
            · intro hn
              rw [List.countP_cons_of_pos hv, List.length_cons] at hn
              have hlt := hends.beyond (Nat.lt_of_succ_lt_succ hn)
              dsimp only at hlt
              rw [hbytes, List.length_append]
              omega
      · have hT' : s.tree.numbered 0 = (D ++ [(c, v)]) ++ T := by
          rw [hT, List.append_assoc]
          rfl
        rw [if_neg hv, ← hlast v]
        obtain ⟨ret, s', hloop, hends⟩ := ih hT' hmem hpos hturns'
        have hcount : (v :: T.map Prod.snd).countP RValue.isParam =
            (T.map Prod.snd).countP RValue.isParam := List.countP_cons_of_neg hv
        refine ⟨ret, s', hloop, hends.shape, fun hn => ?_, fun hn => hends.other (hcount ▸ hn),
          fun hn => hends.within (hcount ▸ hn), fun hn => hends.beyond (hcount ▸ hn)⟩
        obtain ⟨hret, hleaves⟩ := hends.equal (hcount ▸ hn)
        refine ⟨hret, ?_⟩
        rw [hleaves, hfront, List.append_assoc]
        cases qs with
        | nil =>
            have hnil : ∀ vs, fillValues vs [] = vs := fun vs => by cases vs <;> rfl
            rw [List.map_nil, hnil, hnil]
            rfl
        | cons q qs =>
            rw [List.map_cons, fillValues, if_neg hv]
            rfl

end

/-! ### Statements and their parameters -/

theorem fillValues_nil (vs : List RValue) : fillValues vs [] = vs := by
  cases vs with
  | nil => rfl
  | cons v vs => rfl

/-- The leaves of the parser that are placeholders -/
theorem isParam_value (x : SqlLeaf) :
    (x.value fun _ => vparam).isParam = x.mark.isSome := by
  cases x <;> rfl

theorem countP_isParam (ls : List SqlLeaf) :
    (ls.map (SqlLeaf.value fun _ => vparam)).countP RValue.isParam =
      (ls.filterMap SqlLeaf.mark).length := by
  induction ls with
  | nil => rfl
  | cons x ls ih =>
      have hx := isParam_value x
      rw [List.map_cons, List.countP_cons, ih, hx, List.filterMap_cons]
      cases x.mark <;> rfl

/-- Placeholders that are numbered in their order are given the values of their numbers. -/
theorem fillValues_numbered (vs : ℕ → RValue) {ls : List SqlLeaf} {vals : List RValue} {j : ℕ}
    (hmarks : ls.filterMap SqlLeaf.mark = List.range' j vals.length)
    (hvals : ∀ i (h : i < vals.length), vs (j + i) = vals[i]) :
    fillValues (ls.map (SqlLeaf.value fun _ => vparam)) vals = ls.map (SqlLeaf.value vs) := by
  induction ls generalizing vals j with
  | nil => rfl
  | cons x ls ih =>
      have hskip (hx : x.mark = none) : fillValues
          ((x :: ls).map (SqlLeaf.value fun _ => vparam)) vals =
            (x :: ls).map (SqlLeaf.value vs) := by
        rw [List.filterMap_cons_none hx] at hmarks
        have hrest := ih hmarks hvals
        have hvalue : (x.value fun _ => vparam) = x.value vs := by
          cases x with
          | param k => cases hx
          | _ => rfl
        have hno : ¬ (x.value fun _ => vparam).isParam = true := by
          rw [isParam_value, hx]
          exact Bool.false_ne_true
        rw [List.map_cons, List.map_cons]
        cases vals with
        | nil =>
            rw [fillValues_nil] at hrest ⊢
            rw [hrest, hvalue]
        | cons p ps => rw [fillValues, if_neg hno, hrest, hvalue]
      cases x with
      | sname s => exact hskip rfl
      | bin v => exact hskip rfl
      | long v => exact hskip rfl
      | float f => exact hskip rfl
      | param k =>
          rw [List.filterMap_cons_some (by rfl : SqlLeaf.mark (.param k) = some k)] at hmarks
          cases vals with
          | nil => cases hmarks
          | cons p ps =>
              rw [List.length_cons, List.range'_succ] at hmarks
              obtain ⟨rfl, hmarks⟩ := List.cons.inj hmarks
              have hp : vs k = p := hvals 0 (Nat.succ_pos _)
              have hps : ∀ i (h : i < ps.length), vs (k + 1 + i) = ps[i] := by
                intro i h
                have hi := hvals (i + 1) (Nat.succ_lt_succ h)
                rw [List.getElem_cons_succ] at hi
                rw [← hi]
                congr 1
                omega
              rw [List.map_cons, List.map_cons]
              change p :: fillValues _ ps = vs k :: _
              rw [ih hmarks hps, hp]

/-- The placeholders are numbered in the order of the text. -/
def SqlStatement.Numbered (s : SqlStatement) : Prop :=
  textMarks s.text = List.range (textMarks s.text).length

/-- The values of parameters by their number -/
def paramValue (ps : List SqlParam) (k : ℕ) : RValue := (ps[k]?.map SqlParam.value).getD vparam

/-- `prc_sql_bind_params` for a statement and the parameters sent with it, with a turn
for each leaf of the statement and one that finds none. -/
def bindRun (s : SqlStatement) (ps : List SqlParam) (beyond : ℕ → UInt8) :
    Option (ℤ × BindState) :=
  prcSqlBindParams (paramMem ps beyond) ps.length (s.tree.leaves.length + 1) s.tree.expr

/-- The size is that of what is copied. Where there are as many parameters as
placeholders, each placeholder is given its own, else the answer is -1 and nothing is
read behind the parameters. -/
structure ParamsKept (s : SqlStatement) (ps : List SqlParam) (beyond : ℕ → UInt8) : Prop where
  size : sqlCalcParamsSize ps = (sqlCopyParams ps).length
  bind : ∃ ret t, bindRun s ps beyond = some (ret, t) ∧
    ((textMarks s.text).length = ps.length →
      ret = 0 ∧ t.tree = s.tree.bound (paramValue ps)) ∧
    ((textMarks s.text).length ≠ ps.length →
      ret = -1 ∧ t.reached ≤ (sqlCopyParams ps).length)

/-- A parameter is counted with 4 bytes more than it is copied with. -/
theorem sqlCalcParamsSize_eq (ps : List SqlParam) :
    sqlCalcParamsSize ps = (sqlCopyParams ps).length + 4 * ps.length := by
  induction ps with
  | nil => rfl
  | cons p ps ih =>
      unfold sqlCalcParamsSize sqlCopyParams at ih ⊢
      rw [List.map_cons, List.sum_cons, ih, List.flatMap_cons, List.length_append,
        p.bytes_length, List.length_cons]
      omega

theorem bindRun_ends (s : SqlStatement) (hs : s.Numbered) (ps : List SqlParam)
    (beyond : ℕ → UInt8) :
    ∃ ret t, bindRun s ps beyond = some (ret, t) ∧
      ((textMarks s.text).length = ps.length →
        ret = 0 ∧ t.tree = s.tree.bound (paramValue ps)) ∧
      ((textMarks s.text).length ≠ ps.length → ret = -1) ∧
      (t.reached ≤ (sqlCopyParams ps).length ↔ (textMarks s.text).length ≤ ps.length) := by
  have hleaves : (s.tree.expr.numbered 0).map Prod.snd =
      s.tree.leaves.map (SqlLeaf.value fun _ => vparam) := by
    rw [RTree.numbered_snd]
    exact RTree.leaves_map _ _
  have hlen : (s.tree.expr.numbered 0).length < s.tree.leaves.length + 1 := by
    rw [← List.length_map Prod.snd, hleaves, List.length_map]
    exact Nat.lt_succ_self _
  have hcount : ((s.tree.expr.numbered 0).map Prod.snd).countP RValue.isParam =
      (textMarks s.text).length := by
    rw [hleaves, countP_isParam, ← s.marks]
    rfl
  obtain ⟨ret, t, hrun, hends⟩ := bindLoop_ends (D := []) (s := { tree := s.tree.expr }) rfl
    (holds_paramMem ps beyond) (Nat.zero_add _) hlen
  refine ⟨ret, t, hrun, fun hn => ?_, fun hn => hends.other (hcount ▸ hn), ?_⟩
  · obtain ⟨hret, htree⟩ := hends.equal (hcount.trans hn)
    refine ⟨hret, RTree.eq_of_leaves ?_ ?_⟩
    · rw [hends.shape]
      unfold SqlTree.expr SqlTree.bound RTree.shape
      generalize s.tree = u
      induction u with
      | null => rfl
      | leaf v => rfl
      | node op l r hl hr => exact congrArg₂ (RTree.node op) hl hr
    · have hmarks : s.tree.leaves.filterMap SqlLeaf.mark =
          List.range' 0 (ps.map SqlParam.value).length := by
        rw [List.length_map, ← hn, ← List.range_eq_range', ← hs, ← s.marks]
        rfl
      rw [htree, List.map_nil, List.nil_append, hleaves]
      unfold SqlTree.bound
      rw [RTree.leaves_map]
      apply fillValues_numbered (paramValue ps) hmarks
      intro i hi
      rw [List.length_map] at hi
      rw [List.getElem_map, Nat.zero_add, paramValue, List.getElem?_eq_getElem hi]
      rfl
  · have hzero : max 0 (0 + (sqlCopyParams ps).length) = (sqlCopyParams ps).length := by
      rw [Nat.zero_add, Nat.zero_max]
    constructor
    · intro hle
      by_contra hn
      have hlt := hends.beyond (hcount ▸ Nat.not_le.mp hn)
      dsimp only at hlt
      omega
    · intro hn
      have hle := hends.within (hcount ▸ hn)
      dsimp only at hle
      rwa [hzero] at hle

/-- The size is right where there are no parameters, and no more is read than was sent
where no placeholder is without a parameter. Placeholders get their parameters and
another number of them is an error in any case. -/
theorem paramsKept_iff (s : SqlStatement) (hs : s.Numbered) (ps : List SqlParam)
    (beyond : ℕ → UInt8) :
    (ParamsKept s ps beyond ↔ ps = [] ∧ (textMarks s.text).length ≤ ps.length) ∧
    (sqlCalcParamsSize ps = (sqlCopyParams ps).length ↔ ps = []) ∧
    ∃ ret t, bindRun s ps beyond = some (ret, t) ∧
      ((textMarks s.text).length = ps.length →
        ret = 0 ∧ t.tree = s.tree.bound (paramValue ps)) ∧
      ((textMarks s.text).length ≠ ps.length → ret = -1) ∧
      (t.reached ≤ (sqlCopyParams ps).length ↔ (textMarks s.text).length ≤ ps.length) := by
  obtain ⟨ret, t, hrun, hequal, hother, hreach⟩ := bindRun_ends s hs ps beyond
  have hsize : sqlCalcParamsSize ps = (sqlCopyParams ps).length ↔ ps = [] := by
    rw [sqlCalcParamsSize_eq, ← List.length_eq_zero_iff]
    omega
  refine ⟨⟨fun h => ⟨hsize.mp h.size, ?_⟩, fun h => ⟨hsize.mpr h.1, ret, t, hrun, hequal,
    fun hn => ⟨hother hn, hreach.mpr h.2⟩⟩⟩, hsize, ret, t, hrun, hequal, hother, hreach⟩
  obtain ⟨ret', t', hrun', -, hother'⟩ := h.bind
  rw [hrun] at hrun'
  cases hrun'
  by_cases hn : (textMarks s.text).length = ps.length
  · exact le_of_eq hn
  · exact hreach.mp (hother' hn).2

/-- `INSERT INTO a VALUES (?, ?)` -/
def insertTwo : SqlStatement := .insert nameA (.snoc (.one (.param 0)) (.param 1))

/-- An integer, and the string `x` -/
def intAndX : List SqlParam := [.int 7, .str ⟨[120], by decide, by decide⟩]

theorem paramsKept_iff_two :
    ∃ t, bindRun insertTwo intAndX (fun _ => 0) = some (0, t) ∧
      t.tree.leaves = [.str false nameA, .inline .vint 7,
        .str true ⟨1, [120, 0], rfl, by decide⟩] := by
  obtain ⟨ret, t, hrun, hequal, -⟩ := (paramsKept_iff insertTwo rfl intAndX fun _ => 0).2.2
  obtain ⟨rfl, htree⟩ := hequal rfl
  refine ⟨t, hrun, ?_⟩
  rw [htree]
  rfl

/-- A parameter is counted with 16 bytes and copied with 12. -/
theorem paramsKept_not :
    ¬ ∀ (s : SqlStatement) (ps : List SqlParam) (beyond : ℕ → UInt8), s.Numbered →
      ParamsKept s ps beyond := by
  intro hall
  have hsize := (hall (.insert nameA (.one (.param 0))) [.int 7] (fun _ => 0) rfl).size
  exact absurd hsize (by decide)

end PaxosSolutions.XjPing
