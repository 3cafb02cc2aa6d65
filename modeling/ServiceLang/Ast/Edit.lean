import ServiceLang.Ast.Node

/-!
Editing lists of statements.

Programs, blocks and database blocks hold lists of statements.  Statements are taken
out of these lists by their number and put to their end; what else a node holds stays
as it is, positions included.
-/

namespace ServiceLang

namespace Stmt

/-- The statements that a block or database statement holds. -/
def items? : Stmt → Option (List Stmt)
  | .block b => some b.statements
  | .database _ _ declarations => some declarations
  | _ => none

/-- The statement with other statements in it. -/
def withItems (items : List Stmt) : Stmt → Stmt
  | .block b => .block (.mk b.pos items)
  | .database pos engine _ => .database pos engine items
  | s => s

theorem items?_withItems {s : Stmt} {old : List Stmt} (h : s.items? = some old)
    (items : List Stmt) : (s.withItems items).items? = some items := by
  cases s <;> simp_all [items?, withItems, Block.statements]

end Stmt

namespace Node

/-- The statements that a node holds. -/
def items? : Node → Option (List Stmt)
  | .program p => some p.statements
  | .block b => some b.statements
  | .stmt s => s.items?
  | .expr _ => none

/-- The node with other statements in it. -/
def withItems (items : List Stmt) : Node → Node
  | .program p => .program { p with statements := items }
  | .block b => .block (.mk b.pos items)
  | .stmt s => .stmt (s.withItems items)
  | .expr e => .expr e

theorem items?_withItems {n : Node} {old : List Stmt} (h : n.items? = some old)
    (items : List Stmt) : (n.withItems items).items? = some items := by
  cases n with
  | stmt s => exact Stmt.items?_withItems h items
  | expr e => simp [items?] at h
  | _ => simp [items?, withItems, Block.statements]

/-- A statement of a node by its number, and the node without it. -/
def remove? (n : Node) (index : Nat) : Option (Stmt × Node) := do
  let items ← n.items?
  let removed ← items[index]?
  return (removed, n.withItems (items.eraseIdx index))

/-- The node with more statements at its end, if it holds any. -/
def append? (n : Node) (more : List Stmt) : Option Node :=
  n.items?.map fun items => n.withItems (items ++ more)

/-- The node with more statements at the end of one of its statements. -/
def appendAt? (n : Node) (index : Nat) (more : List Stmt) : Option Node := do
  let items ← n.items?
  let s ← items[index]?
  let inner ← s.items?
  return n.withItems (items.set index (s.withItems (inner ++ more)))

end Node

end ServiceLang
