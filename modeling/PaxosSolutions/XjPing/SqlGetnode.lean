import PaxosSolutions.Lib.Resume
import PaxosSolutions.XjPing.SqlTree

/-!
# Going over the nodes of a tree

`sql_getnode` finds the nodes with an operation one after the other. It keeps
nothing but the node found last: each call begins at the root and skips what
comes before that node, with a flag that is global. Each call clears the flag
before it begins, so loops may take turns.
-/
namespace PaxosSolutions.XjPing
open Lib

/-- The nodes of a tree. Those of a tree are numbered from the root on and from left to
right. A number stands for the address of a node. -/
def RTree.size {α : Type} : RTree α → ℕ
  | null => 0
  | leaf _ => 1
  | node _ l r => 1 + l.size + r.size

/-- `sql_findnode`, with `getnode_flag` -/
def sqlFindnode (current : Option ℕ) (op : ℕ) : ℕ → RExpr → Bool → Option ℕ × Bool
  | _, .null, flag => (none, flag)
  | k, .leaf _, flag =>
      if (current.isNone || flag) && TLEAF == op then (some k, flag)
      else (none, flag || current == some k)
  | k, .node o l r, flag =>
      if (current.isNone || flag) && o.code == op then (some k, flag)
      else
        match sqlFindnode current op (k + 1) l (flag || current == some k) with
        | (some p, flag) => (some p, flag)
        | (none, flag) => sqlFindnode current op (k + 1 + l.size) r flag

/-- `sql_getnode` -/
def sqlGetnode (ep : RExpr) (current : Option ℕ) (op : ℕ) : Option ℕ :=
  (sqlFindnode current op 0 ep false).1

/-! ### The nodes in pre-order -/

/-- The nodes from the number `k` on, each with its `e_op` -/
def treeNodes : ℕ → RExpr → List (ℕ × ℕ)
  | _, .null => []
  | k, .leaf _ => [(k, TLEAF)]
  | k, .node o l r => (k, o.code) :: (treeNodes (k + 1) l ++ treeNodes (k + 1 + l.size) r)

/-- The nodes with an operation -/
def nodesOf (op k : ℕ) (t : RExpr) : List (ℕ × ℕ) := (treeNodes k t).filter fun x => x.2 == op

theorem treeNodes_numbers (k : ℕ) (t : RExpr) :
    (treeNodes k t).map Prod.fst = List.range' k t.size := by
  induction t generalizing k with
  | null => rfl
  | leaf v => rfl
  | node o l r hl hr =>
      rw [treeNodes, List.map_cons, List.map_append, hl, hr, RTree.size, Nat.add_assoc 1,
        Nat.add_comm 1, List.range'_succ, ← List.range'_append_1]

theorem treeNodes_nodup (k : ℕ) (t : RExpr) : ((treeNodes k t).map Prod.fst).Nodup := by
  rw [treeNodes_numbers]
  exact List.nodup_range'

/-- Where a loop is after `n` calls -/
def cursor (op : ℕ) (t : RExpr) : ℕ → Option ℕ
  | 0 => none
  | m + 1 => (nodesOf op 0 t)[m]?.map Prod.fst

section
variable {t : RExpr} {current : Option ℕ} {op n : ℕ} {flag : Bool}

/-- The recursion over the tree is the search of its nodes in pre-order. -/
theorem sqlFindnode_eq (k : ℕ) : sqlFindnode current op k t flag =
    ((resume Prod.fst (fun x => x.2 == op) current (treeNodes k t) flag).1.map Prod.fst,
      (resume Prod.fst (fun x => x.2 == op) current (treeNodes k t) flag).2) := by
  induction t generalizing k flag with
  | null => rfl
  | leaf v =>
      rw [sqlFindnode, treeNodes, resume]
      split_ifs
      · rfl
      · rfl
  | node o l r hl hr =>
      rw [sqlFindnode, treeNodes, resume]
      split_ifs
      · rfl
      · rw [hl, resume_append]
        rcases resume Prod.fst (fun x => x.2 == op) current (treeNodes (k + 1) l)
          (flag || current == some k) with ⟨_ | x, flag'⟩
        · exact hr _
        · rfl

/-- A call finds the node after the one found last. -/
theorem sqlFindnode_cursor (hn : n ≤ (nodesOf op 0 t).length) :
    (sqlFindnode (cursor op t n) op 0 t false).1 = (nodesOf op 0 t)[n]?.map Prod.fst := by
  rw [sqlFindnode_eq]
  cases n with
  | zero => exact congrArg (Option.map Prod.fst) resume_first
  | succ m =>
      obtain ⟨x, hx⟩ : ∃ x, (nodesOf op 0 t)[m]? = some x := ⟨_, List.getElem?_eq_getElem hn⟩
      rw [cursor, hx]
      exact congrArg (Option.map Prod.fst) (resume_next (treeNodes_nodup 0 t) hx)

end

/-! ### Loops -/

/-- A loop `while( (current = sql_getnode( root, current, op )) )`, with what it has visited -/
structure NodeLoop where
  root : RExpr
  op : ℕ
  current : Option ℕ := none
  visited : List ℕ := []
  done : Bool := false

/-- Loops that take turns, and the flag they share -/
structure NodeLoops (ι : Type) where
  getnodeFlag : Bool
  loop : ι → NodeLoop

/-- `getnode_flag = 0`, and `sql_findnode` with what it leaves in the flag -/
def NodeLoop.call (w : NodeLoop) (_getnodeFlag : Bool) : Option ℕ × Bool :=
  sqlFindnode w.current w.op 0 w.root false

/-- What a loop does with the node it gets -/
def NodeLoop.goOn (w : NodeLoop) : Option ℕ → NodeLoop
  | none => { w with current := none, done := true }
  | some ep => { w with current := some ep, visited := w.visited ++ [ep] }

/-- The loop `i` makes its next call, unless it has come to its end. -/
def NodeLoops.step {ι : Type} [DecidableEq ι] (s : NodeLoops ι) (i : ι) : NodeLoops ι :=
  let w := s.loop i
  if w.done then s
  else
    let r := w.call s.getnodeFlag
    { getnodeFlag := r.2
      loop := Function.update s.loop i (w.goOn r.1) }

/-- A loop after `n` calls -/
structure Visiting (op : ℕ) (t : RExpr) (n : ℕ) (w : NodeLoop) : Prop where
  root : w.root = t
  for' : w.op = op
  current : w.current = cursor op t n
  visited : w.visited = ((nodesOf op 0 t).take n).map Prod.fst
  done : w.done = true ↔ (nodesOf op 0 t).length < n

section
variable {t : RExpr} {op n : ℕ} {w : NodeLoop}

/-- A call that finds a node visits it, and one that does not ends the loop. -/
theorem Visiting.goOn (h : Visiting op t n w) :
    Visiting op t (n + 1) (w.goOn ((nodesOf op 0 t)[n]?.map Prod.fst)) := by
  cases hx : (nodesOf op 0 t)[n]? with
  | none =>
      have hlen := List.getElem?_eq_none_iff.mp hx
      refine ⟨h.root, h.for', ?_, ?_, iff_of_true rfl (Nat.lt_succ_of_le hlen)⟩
      · rw [cursor, hx]
        rfl
      · change w.visited = _
        rw [h.visited, List.take_of_length_le hlen, List.take_of_length_le (Nat.le_succ_of_le hlen)]
  | some x =>
      have hlt := (List.getElem?_eq_some_iff.mp hx).1
      refine ⟨h.root, h.for', ?_, ?_, ?_⟩
      · rw [cursor, hx]
        rfl
      · change w.visited ++ [x.1] = _
        rw [h.visited, List.take_add_one, hx, List.map_append]
        rfl
      · change w.done = true ↔ _
        rw [h.done]
        omega

/-- A loop that is done stays as it is. -/
theorem Visiting.stay (h : Visiting op t n w) (hn : (nodesOf op 0 t).length < n) :
    Visiting op t (n + 1) w := by
  refine ⟨h.root, h.for', ?_, ?_, iff_of_true (h.done.mpr hn) (Nat.lt_succ_of_lt hn)⟩
  · obtain ⟨m, rfl⟩ := Nat.exists_eq_add_one_of_ne_zero (Nat.ne_of_gt (Nat.zero_lt_of_lt hn))
    rw [h.current, cursor, cursor, List.getElem?_eq_none (Nat.le_of_lt_succ hn),
      List.getElem?_eq_none (Nat.le_of_lt hn)]
  · rw [h.visited, List.take_of_length_le (Nat.le_of_lt hn),
      List.take_of_length_le (Nat.le_of_lt (Nat.lt_succ_of_lt hn))]

variable {ι : Type} [DecidableEq ι] {s : NodeLoops ι} {i j : ι}

/-- The turn of a loop is its next call, whatever the flag is. -/
theorem step_visiting (h : Visiting op t n (s.loop i)) : Visiting op t (n + 1) ((s.step i).loop i) := by
  unfold NodeLoops.step
  by_cases hdone : (s.loop i).done = true
  · rw [if_pos hdone]
    exact h.stay (h.done.mp hdone)
  · rw [if_neg hdone]
    have hn : n ≤ (nodesOf op 0 t).length := not_lt.mp fun hlt => hdone (h.done.mpr hlt)
    change Visiting op t (n + 1) (Function.update s.loop i _ i)
    rw [Function.update_self, NodeLoop.call, h.root, h.for', h.current, sqlFindnode_cursor hn]
    exact h.goOn

/-- The turn of a loop leaves the others alone. -/
theorem step_other (hij : i ≠ j) : (s.step j).loop i = s.loop i := by
  unfold NodeLoops.step
  dsimp only
  split_ifs
  · rfl
  · exact Function.update_of_ne hij _ _

/-- After any turns of any loops, a loop has made as many calls as it had turns. -/
theorem turns_visiting {turns : List ι} (h : Visiting op t n (s.loop i)) :
    Visiting op t (n + turns.count i) ((turns.foldl NodeLoops.step s).loop i) := by
  induction turns generalizing s n with
  | nil => exact h
  | cons j turns ih =>
      rw [List.foldl_cons]
      by_cases hij : j = i
      · have hrest := ih (step_visiting h)
        rwa [hij, List.count_cons_self, Nat.add_comm _ 1, ← Nat.add_assoc]
      · rw [← step_other (j := j) (Ne.symm hij)] at h
        rw [List.count_cons_of_ne hij]
        exact ih h

end

/-- However loops over trees take turns, a loop has visited the first nodes with its
operation, in pre-order and each once, as many as it had turns, and it has come to its end
if and only if it had more turns than there are such nodes. -/
theorem sqlGetnode_visits {ι : Type} [DecidableEq ι] (s : NodeLoops ι) (i : ι) (t : RExpr) (op : ℕ)
    (hstart : s.loop i = { root := t, op := op }) (turns : List ι) :
    ((turns.foldl NodeLoops.step s).loop i).visited =
        ((nodesOf op 0 t).take (turns.count i)).map Prod.fst ∧
      ((turns.foldl NodeLoops.step s).loop i).visited.Nodup ∧
      (((turns.foldl NodeLoops.step s).loop i).done = true ↔
        (nodesOf op 0 t).length < turns.count i) := by
  have hbegin : Visiting op t 0 (s.loop i) := by
    rw [hstart]
    exact ⟨rfl, rfl, rfl, rfl, iff_of_false Bool.false_ne_true (Nat.not_lt_zero _)⟩
  have h : Visiting op t (0 + turns.count i) ((turns.foldl NodeLoops.step s).loop i) :=
    turns_visiting hbegin
  rw [Nat.zero_add] at h
  refine ⟨h.visited, ?_, h.done⟩
  rw [h.visited]
  have hsub : ((nodesOf op 0 t).take (turns.count i)).Sublist (treeNodes 0 t) :=
    (List.take_sublist _ _).trans List.filter_sublist
  exact (treeNodes_nodup 0 t).sublist (hsub.map _)

/-- Two comparisons with `SAND` -/
def bothEqual : RExpr :=
  let one : RExpr := .leaf (.inline .vint 1)
  .node .sand (.node .seq one one) (.node .seq one one)

/-- Two loops over one tree, for its comparisons -/
def twoLoops : NodeLoops Bool where
  getnodeFlag := true
  loop _ := { root := bothEqual, op := SqlOp.seq.code }

theorem sqlGetnode_visits_twoLoops :
    (([true, false, true, false, true].foldl NodeLoops.step twoLoops).loop true).visited = [1, 4] ∧
      (([true, false, true, false, true].foldl NodeLoops.step twoLoops).loop true).done = true := by
  obtain ⟨hvisited, -, hdone⟩ := sqlGetnode_visits twoLoops true bothEqual SqlOp.seq.code rfl
    [true, false, true, false, true]
  exact ⟨hvisited, hdone.mpr (by decide)⟩

end PaxosSolutions.XjPing
