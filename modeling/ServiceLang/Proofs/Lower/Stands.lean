import Mathlib.Tactic.Choose
import ServiceLang.Lower.Program
import ServiceLang.Proofs.Ast.Walk
import ServiceLang.Proofs.Grammar.Program
import ServiceLang.Proofs.Peg.Node
import ServiceLang.Proofs.Source.Chars

/-!
Nodes that point at their own text.

`Node.BeginsWith` says which texts a node may begin with: the first token of its kind.
A node begins at a cursor if it is positioned there and such a text is ahead
(`BeginsAt`), and it stands there if all nodes below it stand behind the cursor, none
of them before its parent (`Stands`).
-/

namespace ServiceLang

open Peg

/-! ## First tokens -/

/-- The first tokens of an expression.  An operation on two operands begins with the
left one, or with a parenthesis before it. -/
def Expr.BeginsWith : Expr → List Char → Prop
  | .string _ _, w => w = ['"']
  | .number _ _, w => ∃ x, w = [x] ∧ (x.isDigit ∨ x = '-')
  | .bool _ value, w => w = (boolText value).toList
  | .ident _ name, w => w = name.toList
  | .array _ _, w => w = ['[']
  | .call _ name _, w => w = name.toList
  | .binary pos left _ _, w => w = ['('] ∨ left.pos = pos ∧ left.BeginsWith w
  | .unary _ op _, w => UnaryOp.ofSymbol? (String.ofList w) = some op

/-- A block begins with its brace; one that an `else if` makes holds nothing but that
`if` and begins where it does. -/
def Block.BeginsWith (b : Block) (w : List Char) : Prop :=
  w = ['{'] ∨ w = "if".toList ∧ ∃ c t e, b = .mk b.pos [.ifStmt b.pos c t e]

/-- The first tokens of a statement. -/
def Stmt.BeginsWith : Stmt → List Char → Prop
  | .varDecl _ _ _, w => w = "var".toList
  | .assignment _ name _, w => w = name.toList
  | .exprStmt pos e, w => e.pos = pos ∧ e.BeginsWith w
  | .ifStmt _ _ _ _, w => w = "if".toList
  | .forLoop _ _ _ _, w => w = "for".toList
  | .function _ _ _ _, w => w = "function".toList
  | .exec _ _, w => w = "exec".toList
  | .block _, w => w = ['{']
  | .returnStmt _ _, w => w = "return".toList
  | .config _, w => w = "config".toList
  | .database _ _ _, w => w = "database".toList
  | .model _, w => w = "model".toList
  | .collection _, w => w = "collection".toList
  | .auth _, w => w = "auth".toList
  | .role _, w => w = "role".toList
  | .middleware _, w => w = "middleware".toList
  | .event _, w => w = "event".toList
  | .eventHandler _, w => w = "on".toList
  | .integration _, w => w = "integration".toList
  | .webhook _, w => w = "webhook".toList
  | .endpoint _, w => w = "endpoint".toList
  | .workflow _, w => w = "workflow".toList
  | .job _, w => w = "job".toList

namespace Node

/-- The first tokens of a node. -/
def BeginsWith : Node → List Char → Prop
  | program _, _ => False
  | stmt s, w => s.BeginsWith w
  | block b, w => b.BeginsWith w
  | expr e, w => e.BeginsWith w

/-- The blocks of a statement that are not what an `else` makes. -/
def bodies : Node → List Block
  | stmt (.ifStmt _ _ body _) | stmt (.forLoop _ _ _ body) | stmt (.function _ _ _ body) => [body]
  | _ => []

end Node

/-- A token: characters without a blank. -/
def IsToken (w : List Char) : Prop := w ≠ [] ∧ ∀ x ∈ w, isBlank x = false

instance (w : List Char) : Decidable (IsToken w) := inferInstanceAs (Decidable (_ ∧ _))

theorem isToken_of_word {w : List Char} (hne : w ≠ []) (hw : ∀ x ∈ w, isWordChar x) : IsToken w :=
  ⟨hne, fun x hx => isBlank_eq_false_of_isWordChar x (hw x hx)⟩

/-! ## Standing at a cursor -/

/-- The node is positioned at the cursor and its first token is ahead, and its bodies
have their braces where they are positioned. -/
structure BeginsAt (place : Nat → Position) (c : Cursor) (n : Node) : Prop where
  pos_eq : n.pos = place c.offset
  token : ∃ w, IsToken w ∧ n.BeginsWith w ∧ w <+: c.rest
  bodies : ∀ b ∈ n.bodies, ∃ e, c.Reaches e ∧ b.pos = place e.offset ∧ ['{'] <+: e.rest

/-- The node begins at the cursor, and the nodes below it stand behind it. -/
inductive Stands (place : Nat → Position) : Cursor → Node → Prop
  | intro {c : Cursor} {n : Node} (cursor : Node → Cursor) : BeginsAt place c n →
      (∀ m ∈ n.children, c.Reaches (cursor m)) → (∀ m ∈ n.children, Stands place (cursor m) m) →
      Stands place c n

/-- The node stands somewhere behind the cursor. -/
def Behind (place : Nat → Position) (c : Cursor) (n : Node) : Prop :=
  ∃ d, c.Reaches d ∧ Stands place d n

theorem Behind.of_reaches {place : Nat → Position} {c d : Cursor} {n : Node} (h : Behind place d n)
    (hc : c.Reaches d) : Behind place c n := by
  obtain ⟨e, he, hstands⟩ := h
  exact ⟨e, hc.trans he, hstands⟩

namespace Stands

variable {place : Nat → Position} {c : Cursor} {n : Node}

theorem behind (h : Stands place c n) : Behind place c n := ⟨c, .refl c, h⟩

theorem beginsAt (h : Stands place c n) : BeginsAt place c n := by
  cases h with
  | intro _ h _ _ => exact h

theorem of_children (h : BeginsAt place c n)
    (hc : ∀ m ∈ n.children, Behind place c m) : Stands place c n := by
  have : Nonempty Cursor := ⟨c⟩
  choose! cursor hreach hstands using hc
  exact .intro cursor h hreach hstands

theorem exists_child (h : Stands place c n) {m : Node} (hm : m ∈ n.children) :
    Behind place c m := by
  cases h with
  | intro cursor _ hreach hstands => exact ⟨cursor m, hreach m hm, hstands m hm⟩

/-- All nodes below a node stand behind it. -/
theorem of_mem_preorder (h : Stands place c n) {m : Node} (hm : m ∈ n.preorder) :
    Behind place c m := by
  induction h with
  | @intro c n cursor hbegins hreach hstands ih =>
    rcases (n.mem_preorder_iff m).1 hm with rfl | ⟨k, hk, hm⟩
    · exact ⟨c, .refl c, .intro cursor hbegins hreach hstands⟩
    · obtain ⟨d, hd, hstands⟩ := ih k hk hm
      exact ⟨d, (hreach k hk).trans hd, hstands⟩

/-- A block statement stands as the body of another statement does. -/
theorem block {b : Block} (h : Stands place c (.stmt (.block b))) :
    Stands place c (.block b) ∧ b.pos = place c.offset ∧ ['{'] <+: c.rest := by
  obtain ⟨w, hw, hbegins, hprefix⟩ := h.beginsAt.token
  obtain rfl : w = ['{'] := hbegins
  refine ⟨.of_children ⟨h.beginsAt.pos_eq, ⟨['{'], hw, .inl rfl, hprefix⟩, by simp [Node.bodies]⟩
    fun m hm => h.exists_child hm, h.beginsAt.pos_eq, hprefix⟩

/-- The block that an `else if` makes stands where the `if` does. -/
theorem elseIf {pos : Position} {condition : Expr} {body : Block}
    {elseBlock : Option Block} (h : Stands place c (.stmt (.ifStmt pos condition body elseBlock))) :
    Stands place c (.block (.mk pos [.ifStmt pos condition body elseBlock])) := by
  obtain ⟨w, hw, hbegins, hprefix⟩ := h.beginsAt.token
  refine .of_children ⟨h.beginsAt.pos_eq, ⟨w, hw, .inr ⟨hbegins, _, _, _, rfl⟩, hprefix⟩,
    by simp [Node.bodies]⟩ fun m hm => ?_
  rw [List.mem_singleton.1 hm]
  exact h.behind

/-- A statement that a word introduces stands where its node starts. -/
theorem of_keyword {R : Type} {g : Grammar R} {t : ParseTree R} {s : Stmt} (w : List Char)
    (h : IsLeft g t) (hpos : s.pos = place t.start.offset) (hw : IsToken w) (hs : s.BeginsWith w)
    (hb : g.begins w 2 t.rule)
    (hbodies : ∀ b ∈ (Node.stmt s).bodies,
      ∃ d, t.start.Reaches d ∧ b.pos = place d.offset ∧ ['{'] <+: d.rest)
    (hc : ∀ m ∈ s.children, Behind place t.start m) : Stands place t.start (.stmt s) :=
  .of_children ⟨hpos, ⟨w, hw, hs, h.begins w 2 hb⟩, hbodies⟩ hc

/-- An expression without parts stands where it begins. -/
theorem leaf {e : Expr} {w : List Char} (hpos : e.pos = place c.offset) (hw : IsToken w)
    (hbegins : e.BeginsWith w) (hahead : w <+: c.rest) (hchildren : e.children = []) :
    Stands place c (.expr e) := by
  refine .of_children ⟨hpos, ⟨w, hw, hbegins, hahead⟩, nofun⟩ ?_
  intro m hm
  have hm : m ∈ e.children := hm
  rw [hchildren] at hm
  cases hm

end Stands

/-- The values of the properties stand behind the cursor. -/
def ValuesBehind (place : Nat → Position) (c : Cursor) (properties : List Property) : Prop :=
  ∀ p ∈ properties, Behind place c (.expr p.value)

theorem ValuesBehind.nodes {place : Nat → Position} {c : Cursor} {properties : List Property}
    (h : ValuesBehind place c properties) : ∀ m ∈ Property.nodes properties, Behind place c m := by
  intro m hm
  obtain ⟨p, hp, rfl⟩ := List.mem_map.1 hm
  exact h p hp

end ServiceLang
