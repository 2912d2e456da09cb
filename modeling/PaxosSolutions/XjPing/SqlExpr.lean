import PaxosSolutions.NWGadget.CksumMsg

/-!
# Expression trees of SQL statements

The parser makes a tree of each statement: its leaves are names and values, its nodes
have one or two children. The grammar is given by what a statement is made of, with
its tokens and the tree that its actions build. A placeholder is known by its number
in the text.
-/
namespace PaxosSolutions.XjPing

def TLEAF : ℕ := 258
def VITEM : ℕ := 259
def VITEM_ALLOC : ℕ := 260
def VSTRING : ℕ := 261
def VSTRING_ALLOC : ℕ := 262

/-- A value of `e_op` that is not `TLEAF`. -/
@[ext]
structure SqlOp where
  code : ℕ
  lt : code < 0x100000000
  inner : code ≠ TLEAF
deriving DecidableEq, Repr

namespace SqlOp

def sor : SqlOp := ⟨275, by decide, by decide⟩
def sand : SqlOp := ⟨276, by decide, by decide⟩
def slt : SqlOp := ⟨277, by decide, by decide⟩
def sgt : SqlOp := ⟨278, by decide, by decide⟩
def sle : SqlOp := ⟨279, by decide, by decide⟩
def sge : SqlOp := ⟨280, by decide, by decide⟩
def seq : SqlOp := ⟨281, by decide, by decide⟩
def sne : SqlOp := ⟨282, by decide, by decide⟩
def sview : SqlOp := ⟨292, by decide, by decide⟩
def sas : SqlOp := ⟨293, by decide, by decide⟩
def sselect : SqlOp := ⟨294, by decide, by decide⟩
def sfrom : SqlOp := ⟨295, by decide, by decide⟩
def swhere : SqlOp := ⟨296, by decide, by decide⟩
def sdelete : SqlOp := ⟨297, by decide, by decide⟩
def sinsert : SqlOp := ⟨298, by decide, by decide⟩
def svalues : SqlOp := ⟨300, by decide, by decide⟩
def supdate : SqlOp := ⟨301, by decide, by decide⟩
def sset : SqlOp := ⟨302, by decide, by decide⟩
def snode : SqlOp := ⟨303, by decide, by decide⟩
def sdropTable : SqlOp := ⟨304, by decide, by decide⟩
def sdropView : SqlOp := ⟨305, by decide, by decide⟩
def screateTable : SqlOp := ⟨306, by decide, by decide⟩
def screateView : SqlOp := ⟨307, by decide, by decide⟩
def sbegin : SqlOp := ⟨309, by decide, by decide⟩
def scommit : SqlOp := ⟨310, by decide, by decide⟩
def srollback : SqlOp := ⟨311, by decide, by decide⟩
def sorder : SqlOp := ⟨312, by decide, by decide⟩
def sunion : SqlOp := ⟨318, by decide, by decide⟩
def slike : SqlOp := ⟨320, by decide, by decide⟩
def snotlike : SqlOp := ⟨322, by decide, by decide⟩
def sescape : SqlOp := ⟨323, by decide, by decide⟩
/-- A character as an operation: `'T'`, `'E'`, `'O'`, `'.'`, `'*'`, `'+'`, `'-'`, `'/'`. -/
def tableOp : SqlOp := ⟨84, by decide, by decide⟩
def elementOp : SqlOp := ⟨69, by decide, by decide⟩
def orderOp : SqlOp := ⟨79, by decide, by decide⟩
def dot : SqlOp := ⟨46, by decide, by decide⟩
def star : SqlOp := ⟨42, by decide, by decide⟩
def plus : SqlOp := ⟨43, by decide, by decide⟩
def minus : SqlOp := ⟨45, by decide, by decide⟩
def slash : SqlOp := ⟨47, by decide, by decide⟩

end SqlOp

/-- A `v_type` whose value is in the structure itself. -/
@[ext]
structure InlineType where
  code : ℕ
  lt : code < 0x100000000
  inl : code ∉ [VITEM, VITEM_ALLOC, VSTRING, VSTRING_ALLOC]
deriving DecidableEq, Repr

namespace InlineType

def vbin : InlineType := ⟨263, by decide, by decide⟩
def vint : InlineType := ⟨264, by decide, by decide⟩
def vuint : InlineType := ⟨265, by decide, by decide⟩
def vlong : InlineType := ⟨266, by decide, by decide⟩
def vulong : InlineType := ⟨267, by decide, by decide⟩
def vfloat : InlineType := ⟨268, by decide, by decide⟩
def vparam : InlineType := ⟨270, by decide, by decide⟩

end InlineType

/-- `s_len`, and the bytes from `s_str` on that are written with it. -/
@[ext]
structure RText where
  sLen : ℕ
  sStr : List UInt8
  length : sStr.length = sLen + 1
  small : sLen + 1 < 0x80000000
deriving DecidableEq, Repr

def R_ITEM_SIZE : ℕ := 184

/-- The bytes of an `r_item_t`. -/
@[ext]
structure RItemBytes where
  bytes : List UInt8
  length : bytes.length = R_ITEM_SIZE
deriving DecidableEq, Repr

/-- `r_value_t`. A value in the structure is the word of the union; strings and items
are given with what the pointer leads to, and whether they are the leaf's own. -/
inductive RValue where
  | inline (vType : InlineType) (v : BitVec 64)
  | str (alloc : Bool) (text : RText)
  | item (alloc : Bool) (vItem : RItemBytes)
deriving DecidableEq, Repr

/-- `r_expr_t` by what is at the leaves, `null` for a child that is not there. -/
inductive RTree (α : Type) where
  | null
  | leaf (v : α)
  | node (op : SqlOp) (l r : RTree α)
deriving DecidableEq, Repr

abbrev RExpr := RTree RValue

namespace RTree
variable {α β : Type}

def map (f : α → β) : RTree α → RTree β
  | null => null
  | leaf v => leaf (f v)
  | node op l r => node op (l.map f) (r.map f)

/-- The leaves from left to right, as `sql_findnode` finds them. -/
def leaves : RTree α → List α
  | null => []
  | leaf v => [v]
  | node _ l r => l.leaves ++ r.leaves

theorem leaves_map (f : α → β) (t : RTree α) : (t.map f).leaves = t.leaves.map f := by
  induction t with
  | null => rfl
  | leaf v => rfl
  | node op l r hl hr =>
      rw [map, leaves, leaves, List.map_append, hl, hr]

end RTree

/-! ### Leaves of the parser -/

/-- A leaf of a statement. A placeholder has its number in the text. -/
inductive SqlLeaf where
  | sname (s : RText)
  | bin (v : BitVec 32)
  | long (v : BitVec 64)
  | float (f : BitVec 32)
  | param (k : ℕ)
deriving DecidableEq, Repr

abbrev SqlTree := RTree SqlLeaf

/-- `sql_sname`, where `s_len` is the length of the name and 1. -/
def sqlSname (sname : RText) : SqlTree := .leaf (.sname sname)

/-- `sql_bin` -/
def sqlBin (v : BitVec 32) : SqlTree := .leaf (.bin v)

/-- `sql_long` -/
def sqlLong (v : BitVec 64) : SqlTree := .leaf (.long v)

/-- `sql_float` -/
def sqlFloat (f : BitVec 32) : SqlTree := .leaf (.float f)

/-- `sql_param` -/
def sqlParam (k : ℕ) : SqlTree := .leaf (.param k)

/-- `sql_minus`, which changes the sign bit of a float and leaves strings and
placeholders as they are. -/
def sqlMinus : SqlTree → SqlTree
  | .leaf (.float f) => .leaf (.float (f ^^^ 0x80000000))
  | .leaf (.long v) => .leaf (.long (-v))
  | .leaf (.bin v) => .leaf (.bin (-v))
  | t => t

/-- `sql_tree` -/
def sqlTree (left : SqlTree) (op : SqlOp) (right : SqlTree) : SqlTree := .node op left right

/-- The value of a leaf, with values for the placeholders. -/
def SqlLeaf.value (vs : ℕ → RValue) : SqlLeaf → RValue
  | sname s => .str false s
  | bin v => .inline .vbin (v.setWidth 64)
  | long v => .inline .vlong v
  | float f => .inline .vfloat (f.setWidth 64)
  | param k => vs k

/-- A placeholder as `sql_param` makes it. -/
def vparam : RValue := .inline .vparam 0

/-- The tree of the parser -/
def SqlTree.expr (t : SqlTree) : RExpr := t.map (SqlLeaf.value fun _ => vparam)

/-- The tree with values for the placeholders. -/
def SqlTree.bound (vs : ℕ → RValue) (t : SqlTree) : RExpr := t.map (SqlLeaf.value vs)

/-! ### The grammar -/

/-- A token, a placeholder with its number. -/
inductive SqlToken where
  | word (w : String)
  | sname (s : RText)
  | num (n : BitVec 64)
  | float (f : BitVec 32)
  | param (k : ℕ)
deriving DecidableEq, Repr

/-- A list with commas between its elements. -/
inductive CommaList (α : Type) where
  | one (a : α)
  | snoc (l : CommaList α) (a : α)
deriving DecidableEq, Repr

namespace CommaList
variable {α : Type}

def text (f : α → List SqlToken) : CommaList α → List SqlToken
  | one a => f a
  | snoc l a => l.text f ++ .word "," :: f a

def tree (f : α → SqlTree) : CommaList α → SqlTree
  | one a => f a
  | snoc l a => sqlTree (l.tree f) .snode (f a)

end CommaList

/-- `value` -/
inductive SqlValue where
  | num (n : BitVec 64)
  | string (s : RText)
  | float (f : BitVec 32)
  | minus (v : SqlValue)
  | param (k : ℕ)
deriving DecidableEq, Repr

def SqlValue.text : SqlValue → List SqlToken
  | num n => [.num n]
  | string s => [.sname s]
  | float f => [.float f]
  | minus v => .word "-" :: v.text
  | param k => [.param k]

def SqlValue.tree : SqlValue → SqlTree
  | num n => sqlLong n
  | string s => sqlSname s
  | float f => sqlFloat f
  | minus v => sqlMinus v.tree
  | param k => sqlParam k

/-- `column_name` -/
inductive ColumnName where
  | column (s : RText)
  | dotted (s t : RText)
deriving DecidableEq, Repr

def ColumnName.text : ColumnName → List SqlToken
  | column s => [.sname s]
  | dotted s t => [.sname s, .word ".", .sname t]

def ColumnName.tree : ColumnName → SqlTree
  | column s => sqlTree .null .dot (sqlSname s)
  | dotted s t => sqlTree (sqlSname s) .dot (sqlSname t)

/-- The name at the right of the `'.'` node -/
def ColumnName.last : ColumnName → RText
  | column s => s
  | dotted _ t => t

/-- `arith_expr` -/
inductive ArithExpr where
  | paren (a : ArithExpr)
  | plus (a b : ArithExpr)
  | minus (a b : ArithExpr)
  | times (a b : ArithExpr)
  | divide (a b : ArithExpr)
  | neg (a : ArithExpr)
  | value (v : SqlValue)
  | column (c : ColumnName)
deriving DecidableEq, Repr

def ArithExpr.text : ArithExpr → List SqlToken
  | paren a => .word "(" :: (a.text ++ [.word ")"])
  | plus a b => a.text ++ .word "+" :: b.text
  | minus a b => a.text ++ .word "-" :: b.text
  | times a b => a.text ++ .word "*" :: b.text
  | divide a b => a.text ++ .word "/" :: b.text
  | neg a => .word "-" :: a.text
  | value v => v.text
  | column c => c.text

def ArithExpr.tree : ArithExpr → SqlTree
  | paren a => a.tree
  | plus a b => sqlTree a.tree .plus b.tree
  | minus a b => sqlTree a.tree .minus b.tree
  | times a b => sqlTree a.tree .star b.tree
  | divide a b => sqlTree a.tree .slash b.tree
  | neg a => sqlTree .null .minus a.tree
  | value v => v.tree
  | column c => c.tree

/-- `relop`, where `=` is `==` -/
inductive Relop where
  | seq | sgt | slt | sge | sle | sne | equals
deriving DecidableEq, Repr

def Relop.word : Relop → String
  | seq => "=="
  | sgt => ">"
  | slt => "<"
  | sge => ">="
  | sle => "<="
  | sne => "!="
  | equals => "="

def Relop.op : Relop → SqlOp
  | seq => .seq
  | sgt => .sgt
  | slt => .slt
  | sge => .sge
  | sle => .sle
  | sne => .sne
  | equals => .seq

/-- A side of a comparison -/
inductive SqlSide where
  | column (c : ColumnName)
  | value (v : SqlValue)
deriving DecidableEq, Repr

def SqlSide.text : SqlSide → List SqlToken
  | column c => c.text
  | value v => v.text

def SqlSide.tree : SqlSide → SqlTree
  | column c => c.tree
  | value v => v.tree

/-- `expr` -/
inductive SearchExpr where
  | paren (e : SearchExpr)
  | or (a b : SearchExpr)
  | and (a b : SearchExpr)
  | compare (l : SqlSide) (op : Relop) (r : SqlSide)
  | like (not : Bool) (c : ColumnName) (pattern : RText) (escape : Option RText)
deriving DecidableEq, Repr

/-- The text of what may be left out -/
def optText {α : Type} (f : α → List SqlToken) (a : Option α) : List SqlToken := a.elim [] f

def SearchExpr.text : SearchExpr → List SqlToken
  | paren e => .word "(" :: (e.text ++ [.word ")"])
  | or a b => a.text ++ .word "OR" :: b.text
  | and a b => a.text ++ .word "AND" :: b.text
  | compare l op r => l.text ++ .word op.word :: r.text
  | like not c pattern escape =>
      c.text ++ (if not then [.word "NOT"] else []) ++ [.word "LIKE", .sname pattern] ++
        optText (fun e => [.word "ESCAPE", .sname e]) escape

def SearchExpr.tree : SearchExpr → SqlTree
  | paren e => e.tree
  | or a b => sqlTree a.tree .sor b.tree
  | and a b => sqlTree a.tree .sand b.tree
  | compare l op r => sqlTree l.tree op.op r.tree
  | like not c pattern escape =>
      sqlTree c.tree (if not then .snotlike else .slike)
        (sqlTree (sqlSname pattern) .sescape (escape.elim .null sqlSname))

/-- `sname '=' arith_expr` -/
structure SetColumn where
  column : RText
  value : ArithExpr
deriving DecidableEq, Repr

def SetColumn.text (c : SetColumn) : List SqlToken := .sname c.column :: .word "=" :: c.value.text

def SetColumn.tree (c : SetColumn) : SqlTree := sqlTree (sqlSname c.column) .sset c.value.tree

/-- `select_sublist` -/
inductive SelectColumn where
  | plain (c : ColumnName)
  | as (c : ColumnName) (s : RText)
  | named (c : ColumnName) (s : RText)
deriving DecidableEq, Repr

def SelectColumn.text : SelectColumn → List SqlToken
  | plain c => c.text
  | as c s => c.text ++ [.word "AS", .sname s]
  | named c s => c.text ++ [.sname s]

def SelectColumn.tree : SelectColumn → SqlTree
  | plain c => sqlTree c.tree .sas (sqlSname c.last)
  | as c s => sqlTree c.tree .sas (sqlSname s)
  | named c s => sqlTree c.tree .sas (sqlSname s)

/-- `table` -/
structure FromTable where
  table : RText
  named : Option RText
deriving DecidableEq, Repr

def FromTable.text (t : FromTable) : List SqlToken :=
  .sname t.table :: optText (fun s => [.sname s]) t.named

def FromTable.tree (t : FromTable) : SqlTree :=
  sqlTree (sqlSname t.table) .tableOp (t.named.elim .null sqlSname)

/-- `order_column`. The order is ascending where none is given. -/
structure OrderColumn where
  column : ColumnName
  desc : Option Bool
deriving DecidableEq, Repr

def OrderColumn.text (c : OrderColumn) : List SqlToken :=
  c.column.text ++ optText (fun d => [.word (if d then "DESC" else "ASC")]) c.desc

def OrderColumn.tree (c : OrderColumn) : SqlTree :=
  sqlTree c.column.tree .orderOp (sqlBin (if c.desc = some true then 315 else 314))

/-- `query_expr`, with no columns for `*` -/
structure QueryExpr where
  select : Option (CommaList SelectColumn)
  from' : CommaList FromTable
  where' : Option SearchExpr
  order : Option (CommaList OrderColumn)
deriving DecidableEq, Repr

/-- `where_clause` -/
def whereText (e : SearchExpr) : List SqlToken := .word "WHERE" :: e.text

def whereTree (e : SearchExpr) : SqlTree := sqlTree e.tree .swhere .null

/-- `order_by_clause` -/
def orderText (l : CommaList OrderColumn) : List SqlToken :=
  .word "ORDER" :: .word "BY" :: l.text OrderColumn.text

def orderTree (l : CommaList OrderColumn) : SqlTree :=
  sqlTree (l.tree OrderColumn.tree) .sorder .null

def QueryExpr.text (q : QueryExpr) : List SqlToken :=
  .word "SELECT" :: (q.select.elim [.word "*"] (CommaList.text SelectColumn.text) ++
    .word "FROM" :: q.from'.text FromTable.text ++
    optText whereText q.where' ++ optText orderText q.order)

def QueryExpr.tree (q : QueryExpr) : SqlTree :=
  let list := sqlTree (q.select.elim .null (CommaList.tree SelectColumn.tree)) .star .null
  let from' := sqlTree (q.from'.tree FromTable.tree) .sfrom .null
  let clauses := match q.where', q.order with
    | none, none => from'
    | some e, none => sqlTree from' .snode (whereTree e)
    | none, some l => sqlTree from' .snode (orderTree l)
    | some e, some l => sqlTree from' .snode (sqlTree (whereTree e) .snode (orderTree l))
  sqlTree list .sselect clauses

/-- `union` -/
inductive UnionList where
  | one (q : QueryExpr)
  | snoc (u : UnionList) (q : QueryExpr)
deriving DecidableEq, Repr

def UnionList.text : UnionList → List SqlToken
  | one q => .word "UNION" :: .word "ALL" :: q.text
  | snoc u q => u.text ++ .word "UNION" :: .word "ALL" :: q.text

def UnionList.tree : UnionList → SqlTree
  | one q => q.tree
  | snoc u q => sqlTree u.tree .sunion q.tree

/-- `table_element`: its size has a second number that the tree does not. -/
structure TableElement where
  column : RText
  type : RText
  size : Option (BitVec 64 × Option (BitVec 64))
  primaryKey : Bool
deriving DecidableEq, Repr

def TableElement.text (e : TableElement) : List SqlToken :=
  [.sname e.column, .sname e.type] ++
    optText (fun n => .word "(" :: .num n.1 ::
      (optText (fun m => [.word ",", .num m]) n.2 ++ [.word ")"])) e.size ++
    (if e.primaryKey then [.word "PRIMARY", .word "KEY"] else [])

def TableElement.tree (e : TableElement) : SqlTree :=
  sqlTree (sqlSname e.column) .elementOp
    (sqlTree (sqlSname e.type) .tableOp (e.size.elim .null fun n => sqlBin (n.1.setWidth 32)))

/-- A statement: `transaction_statement`, `schema_statement` or `data_statement` -/
inductive SqlStatement where
  | beginWork
  | commit
  | rollback
  | createTable (table : RText) (elements : CommaList TableElement)
  | createView (view : RText) (q : QueryExpr) (unions : Option UnionList)
  | dropTable (table : RText)
  | dropView (view : RText)
  | delete (table : RText) (where' : Option SearchExpr)
  | insert (table : RText) (values : CommaList SqlValue)
  | insertNames (table : RText) (columns : CommaList RText) (values : CommaList SqlValue)
  | update (table : RText) (sets : CommaList SetColumn) (where' : Option SearchExpr)
  | query (q : QueryExpr)
deriving DecidableEq, Repr

def SqlStatement.text : SqlStatement → List SqlToken
  | beginWork => [.word "BEGIN"]
  | commit => [.word "COMMIT"]
  | rollback => [.word "ROLLBACK"]
  | createTable table elements =>
      [.word "CREATE", .word "TABLE", .sname table, .word "("] ++
        elements.text TableElement.text ++ [.word ")"]
  | createView view q unions =>
      [.word "CREATE", .word "VIEW", .sname view, .word "AS"] ++ q.text ++
        optText UnionList.text unions
  | dropTable table => [.word "DROP", .word "TABLE", .sname table]
  | dropView view => [.word "DROP", .word "VIEW", .sname view]
  | delete table where' =>
      [.word "DELETE", .word "FROM", .sname table] ++ optText whereText where'
  | insert table values =>
      [.word "INSERT", .word "INTO", .sname table, .word "VALUES", .word "("] ++
        values.text SqlValue.text ++ [.word ")"]
  | insertNames table columns values =>
      [.word "INSERT", .word "INTO", .sname table, .word "("] ++
        columns.text (fun s => [.sname s]) ++ [.word ")", .word "VALUES", .word "("] ++
        values.text SqlValue.text ++ [.word ")"]
  | update table sets where' =>
      [.word "UPDATE", .sname table, .word "SET"] ++ sets.text SetColumn.text ++
        optText whereText where'
  | query q => q.text

def SqlStatement.tree : SqlStatement → SqlTree
  | beginWork => sqlTree .null .sbegin .null
  | commit => sqlTree .null .scommit .null
  | rollback => sqlTree .null .srollback .null
  | createTable table elements =>
      sqlTree (sqlSname table) .screateTable (elements.tree TableElement.tree)
  | createView view q unions =>
      sqlTree (sqlTree (sqlSname view) .sview .null) .screateView
        (unions.elim q.tree fun u => sqlTree q.tree .sunion u.tree)
  | dropTable table => sqlTree (sqlSname table) .sdropTable .null
  | dropView view => sqlTree (sqlSname view) .sdropView .null
  | delete table where' => sqlTree (sqlSname table) .sdelete (where'.elim .null whereTree)
  | insert table values => sqlTree (sqlSname table) .sinsert (values.tree SqlValue.tree)
  | insertNames table columns values =>
      sqlTree (sqlSname table) .sinsert
        (sqlTree (columns.tree sqlSname) .svalues (values.tree SqlValue.tree))
  | update table sets where' =>
      sqlTree (sqlSname table) .supdate
        (where'.elim (sets.tree SetColumn.tree) fun e =>
          sqlTree (sets.tree SetColumn.tree) .snode (whereTree e))
  | query q => q.tree

/-- A statement has a tree. -/
theorem SqlStatement.expr_ne_null (s : SqlStatement) : s.tree.expr ≠ .null := by
  intro h
  cases s <;> cases h

/-! ### Placeholders -/

/-- The number of a placeholder -/
def SqlToken.mark : SqlToken → Option ℕ
  | param k => some k
  | _ => none

/-- The placeholders of a text, in its order. -/
def textMarks (ts : List SqlToken) : List ℕ := ts.filterMap SqlToken.mark

def SqlLeaf.mark : SqlLeaf → Option ℕ
  | param k => some k
  | _ => none

/-- The placeholders of a tree, from left to right. -/
def SqlTree.marks (t : SqlTree) : List ℕ := t.leaves.filterMap SqlLeaf.mark

section
variable {α : Type} {ts us : List SqlToken}

@[simp] theorem textMarks_nil : textMarks [] = [] := rfl

@[simp] theorem textMarks_word (w : String) : textMarks (.word w :: ts) = textMarks ts := rfl

@[simp] theorem textMarks_sname (s : RText) : textMarks (.sname s :: ts) = textMarks ts := rfl

@[simp] theorem textMarks_num (n : BitVec 64) : textMarks (.num n :: ts) = textMarks ts := rfl

@[simp] theorem textMarks_append : textMarks (ts ++ us) = textMarks ts ++ textMarks us :=
  List.filterMap_append

@[simp] theorem textMarks_optText (f : α → List SqlToken) (a : Option α) :
    textMarks (optText f a) = a.elim [] fun a => textMarks (f a) := by
  cases a with
  | none => rfl
  | some a => rfl

@[simp] theorem elim_nil {β : Type} (a : Option α) : (a.elim [] fun _ => ([] : List β)) = [] := by
  cases a with
  | none => rfl
  | some a => rfl

@[simp] theorem marks_null : SqlTree.marks .null = [] := rfl

@[simp] theorem marks_sqlSname (s : RText) : (sqlSname s).marks = [] := rfl

@[simp] theorem marks_sqlBin (v : BitVec 32) : (sqlBin v).marks = [] := rfl

@[simp] theorem marks_sqlTree (l r : SqlTree) (op : SqlOp) :
    (sqlTree l op r).marks = l.marks ++ r.marks := List.filterMap_append

@[simp] theorem marks_sqlMinus (t : SqlTree) : (sqlMinus t).marks = t.marks := by
  cases t with
  | null => rfl
  | leaf v => cases v <;> rfl
  | node op l r => rfl

theorem marks_elim (f : α → SqlTree) (t : SqlTree) (a : Option α) :
    (a.elim t f).marks = a.elim t.marks fun a => (f a).marks := by
  cases a with
  | none => rfl
  | some a => rfl

theorem CommaList.marks {f : α → SqlTree} {g : α → List SqlToken}
    (h : ∀ a, (f a).marks = textMarks (g a)) (l : CommaList α) :
    (l.tree f).marks = textMarks (l.text g) := by
  induction l with
  | one a => exact h a
  | snoc l a ih => simp [tree, text, ih, h]

theorem SqlValue.marks (v : SqlValue) : v.tree.marks = textMarks v.text := by
  induction v with
  | num n => rfl
  | string s => rfl
  | float f => rfl
  | minus v ih => rw [tree, marks_sqlMinus, ih, text, textMarks_word]
  | param k => rfl

theorem ColumnName.marks (c : ColumnName) : c.tree.marks = textMarks c.text := by
  cases c with
  | column s => rfl
  | dotted s t => rfl

theorem ArithExpr.marks (a : ArithExpr) : a.tree.marks = textMarks a.text := by
  induction a with
  | paren a ih => simp [tree, text, ih]
  | plus a b iha ihb => simp [tree, text, iha, ihb]
  | minus a b iha ihb => simp [tree, text, iha, ihb]
  | times a b iha ihb => simp [tree, text, iha, ihb]
  | divide a b iha ihb => simp [tree, text, iha, ihb]
  | neg a ih => simp [tree, text, ih]
  | value v => exact v.marks
  | column c => exact c.marks

theorem SqlSide.marks (s : SqlSide) : s.tree.marks = textMarks s.text := by
  cases s with
  | column c => exact c.marks
  | value v => exact v.marks

theorem SearchExpr.marks (e : SearchExpr) : e.tree.marks = textMarks e.text := by
  induction e with
  | paren e ih => simp [tree, text, ih]
  | or a b iha ihb => simp [tree, text, iha, ihb]
  | and a b iha ihb => simp [tree, text, iha, ihb]
  | compare l op r => simp [tree, text, l.marks, r.marks]
  | like not c pattern escape =>
      cases not <;> simp [tree, text, c.marks, marks_elim]

theorem SetColumn.marks (c : SetColumn) : c.tree.marks = textMarks c.text := by
  simp [tree, text, c.value.marks]

theorem SelectColumn.marks (c : SelectColumn) : c.tree.marks = textMarks c.text := by
  cases c with
  | plain c => simp [tree, text, c.marks]
  | as c s => simp [tree, text, c.marks]
  | named c s => simp [tree, text, c.marks]

theorem FromTable.marks (t : FromTable) : t.tree.marks = textMarks t.text := by
  simp [tree, text, marks_elim]

theorem OrderColumn.marks (c : OrderColumn) : c.tree.marks = textMarks c.text := by
  simp [tree, text, c.column.marks]

theorem marks_where (e : SearchExpr) : (whereTree e).marks = textMarks (whereText e) := by
  simp [whereTree, whereText, e.marks]

theorem marks_order (l : CommaList OrderColumn) : (orderTree l).marks = textMarks (orderText l) := by
  simp [orderTree, orderText, CommaList.marks OrderColumn.marks]

theorem QueryExpr.marks (q : QueryExpr) : q.tree.marks = textMarks q.text := by
  obtain ⟨select, from', where', order⟩ := q
  have hselect := CommaList.marks SelectColumn.marks
  have hfrom := CommaList.marks FromTable.marks from'
  cases select <;> cases where' <;> cases order <;>
    simp [tree, text, optText, hselect, hfrom, marks_where, marks_order]

theorem UnionList.marks (u : UnionList) : u.tree.marks = textMarks u.text := by
  induction u with
  | one q => simp [tree, text, q.marks]
  | snoc u q ih => simp [tree, text, ih, q.marks]

theorem TableElement.marks (e : TableElement) : e.tree.marks = textMarks e.text := by
  obtain ⟨column, type, size, primaryKey⟩ := e
  cases primaryKey <;> simp [tree, text, marks_elim]

/-- The actions of the grammar keep the placeholders in the order of the text. -/
theorem SqlStatement.marks (s : SqlStatement) : s.tree.marks = textMarks s.text := by
  have hvalues := CommaList.marks SqlValue.marks
  have hnames : ∀ l : CommaList RText,
      (l.tree sqlSname).marks = textMarks (l.text fun s => [.sname s]) :=
    CommaList.marks fun s => rfl
  cases s with
  | beginWork => rfl
  | commit => rfl
  | rollback => rfl
  | createTable table elements => simp [tree, text, CommaList.marks TableElement.marks]
  | createView view q unions =>
      cases unions <;> simp [tree, text, optText, q.marks, UnionList.marks]
  | dropTable table => rfl
  | dropView view => rfl
  | delete table where' => simp [tree, text, marks_elim, marks_where]
  | insert table values => simp [tree, text, hvalues]
  | insertNames table columns values => simp [tree, text, hvalues, hnames]
  | update table sets where' =>
      cases where' <;>
        simp [tree, text, optText, CommaList.marks SetColumn.marks, marks_where]
  | query q => exact q.marks

end

end PaxosSolutions.XjPing
