import ServiceLang.Lower.Expr
import ServiceLang.Proofs.Ast.Display

/-!
Operands through the levels of precedence.

`Yields` says that a pattern reads an expression where its text stands: it matches,
and what it leaves is lowered to the expression, up to positions.  Operators stand
between blanks, in one of their spellings, and behind an operand stands one of them or
nothing that the expression goes on with (`Ends`).  A level reads its operators with
their right operands one by one (`Begun.apply`) and groups them to the left
(`Begun.finish`); one that has no operator passes its only operand on (`Yields.pass`).
So two operands with an operator between them are read as an expression, at whichever
level the operator is (`Yields.binary`).
-/

namespace ServiceLang

open Peg

/-! ## Operators as they are written -/

/-- An operator in the text: as it is printed, or the other spelling of a logical one. -/
inductive Spelling where
  | printed (op : BinaryOp)
  | ampersands
  | bars
deriving DecidableEq

namespace Spelling

def op : Spelling → BinaryOp
  | printed op => op
  | ampersands => .and
  | bars => .or

def text : Spelling → String
  | printed op => op.symbol
  | ampersands => "&&"
  | bars => "||"

theorem ofSymbol?_text (s : Spelling) : BinaryOp.ofSymbol? s.text = some s.op := by
  cases s with
  | printed op => exact op.ofSymbol?_symbol
  | ampersands => rfl
  | bars => rfl

theorem text_ne_nil (s : Spelling) : s.text.toList ≠ [] := by
  cases s with
  | printed op => cases op <;> decide
  | ampersands | bars => decide

end Spelling

namespace MainGrammar

/-! ## Levels of precedence -/

/-- The levels of binary operators, from the loosest to the tightest. -/
inductive Level where
  | or
  | and
  | cmp
  | add
  | mul
deriving DecidableEq

namespace Level

def rule : Level → Rule
  | or => .orExpr
  | and => .andExpr
  | cmp => .cmpExpr
  | add => .addExpr
  | mul => .mulExpr

def operator : Level → Rule
  | or => .orOp
  | and => .andOp
  | cmp => .cmpOp
  | add => .addOp
  | mul => .mulOp

def operand : Level → Rule
  | or => .andExpr
  | and => .cmpExpr
  | cmp => .addExpr
  | add => .mulExpr
  | mul => .unaryExpr

/-- How many levels are inside the operands. -/
def inside : Level → Nat
  | or => 4
  | and => 3
  | cmp => 2
  | add => 1
  | mul => 0

def of : BinaryOp → Level
  | .or => or
  | .and => and
  | .eq | .ne | .lt | .le | .gt | .ge => cmp
  | .add | .sub => add
  | .mul | .div | .mod => mul

theorem eq_of_inside_eq {l m : Level} (h : l.inside = m.inside) : l = m := by
  revert h
  cases l <;> cases m <;> decide

theorem of_eq_cmp_iff (op : BinaryOp) : Level.of op = .cmp ↔ op.isComparison := by
  cases op <;> decide

theorem isLogical_iff (op : BinaryOp) : op.isLogical ↔ Level.cmp.inside < (Level.of op).inside := by
  cases op <;> decide

/-- An operator and its right operand. -/
def application (l : Level) : Pattern Rule := .andThen (.rule l.operator) (.rule l.operand)

/-- What may follow the first operand: at most one application, or any number. -/
def more : Level → Pattern Rule
  | cmp => .optional cmp.application
  | l => .many l.application

theorem definition_eq (l : Level) :
    definition l.rule = ⟨.spaced, .andThen (.rule l.operand) l.more⟩ := by
  cases l <;> rfl

end Level

/-! ## What stands behind an operand -/

/-- The text ends or a bracket or comma closes the operand. -/
def Closes (rest : List Char) : Prop := ∀ x, rest.head? = some x → x ∈ [')', ']', ',']

/-- The operand is closed, or an operator with blanks around it follows. -/
def Ends (rest : List Char) : Prop :=
  Closes rest ∨ ∃ (s : Spelling) (xs : List Char), rest = ' ' :: (s.text.toList ++ ' ' :: xs)

theorem skipTrivia_of_closes {c : Cursor} (h : Closes c.rest) : skipTrivia c = c := by
  cases hr : c.rest with
  | nil =>
    obtain ⟨offset, rest⟩ := c
    cases hr
    rfl
  | cons x xs =>
    have hx := h x (by rw [hr]; rfl)
    have plain : ∀ y ∈ [')', ']', ','], isBlank y = false ∧ y ≠ '/' := by decide
    exact skipTrivia_solid (by rw [hr]; rfl) (plain x hx).1 (plain x hx).2

/-- No operator with a blank behind it begins a comment. -/
theorem skipTrivia_of_operator {c : Cursor} (s : Spelling) {xs : List Char}
    (hc : c.rest = s.text.toList ++ ' ' :: xs) : skipTrivia c = c := by
  obtain ⟨offset, rest⟩ := c
  cases hc
  cases s with
  | printed op => cases op <;> rfl
  | ampersands => rfl
  | bars => rfl

/-- The operators of other levels begin with other characters. -/
theorem misses_operator_of_ne {fuel : Nat} {s : Spelling} {l : Level} (hl : l ≠ .of s.op)
    {c : Cursor} {xs : List Char} (hc : c.rest = s.text.toList ++ ' ' :: xs) :
    Misses (matchRule grammar fuel) true (.rule l.operator) ⟨.none, .free⟩ c := by
  refine misses_of_avoids (s.text.toList.take 1) 2 ?_ ?_
  · show grammar.avoids _ 2 l.operator = true
    cases s with
    | printed op => cases op <;> cases l <;> first | rfl | exact absurd rfl hl
    | ampersands | bars => cases l <;> first | rfl | exact absurd rfl hl
  · intro x hx
    rw [hc] at hx
    cases s with
    | printed op => cases op <;> cases hx <;> decide
    | ampersands | bars => cases hx; decide

/-- No operator stands where an operand is closed. -/
theorem misses_operator_of_closes {fuel : Nat} (l : Level) {c : Cursor} (hc : Closes c.rest) :
    Misses (matchRule grammar fuel) true (.rule l.operator) ⟨.none, .free⟩ c :=
  misses_of_avoids [')', ']', ','] 2 (by cases l <;> rfl) hc

/-- No binary operator stands here. -/
def NoOperator (c : Cursor) : Prop :=
  ∀ (l : Level) (fuel : Nat), Misses (matchRule grammar fuel) true (.rule l.operator) ⟨.none, .free⟩ c

theorem noOperator_of_closes {c : Cursor} (hc : Closes c.rest) : NoOperator c :=
  fun l _ => misses_operator_of_closes l hc

theorem matches_operator {fuel : Nat} {s : Spelling} {c d : Cursor} {xs : List Char}
    (h : c.Passes s.text.toList d) (hd : d.rest = ' ' :: xs) :
    Matches (matchRule grammar (fuel + 1)) true (.rule (Level.of s.op).operator) ⟨.none, .free⟩ c
      [.node (Level.of s.op).operator c d.offset []] d := by
  obtain ⟨offset, rest⟩ := c
  obtain ⟨offset', rest'⟩ := d
  obtain ⟨hr, ho⟩ := h
  dsimp only at hd hr ho
  subst hd hr ho
  cases s with
  | printed op => cases op <;> exact fun log => ⟨_, rfl⟩
  | ampersands | bars => exact fun log => ⟨_, rfl⟩

/-! ## Lowering, node by node -/

section Lowering

variable {place : Nat → Position} {rule : Rule} {start : Cursor} {stop : Nat}
  {t : ParseTree Rule} {ts : List (ParseTree Rule)} {e : Expr} {parts : List ExprPart}

theorem lowerExpr_of_leaf (h : leafExpr? (place start.offset) (.node rule start stop ts) = some e) :
    lowerExpr place (.node rule start stop ts) = .ok e := by
  rw [lowerExpr, h]

theorem lowerExpr_of_parts (hleaf : leafExpr? (place start.offset) (.node rule start stop ts) = none)
    (hparts : lowerExprParts place ts = .ok parts)
    (h : assembleExpr (place start.offset) rule parts = some e) :
    lowerExpr place (.node rule start stop ts) = .ok e := by
  rw [lowerExpr, hleaf]
  dsimp only
  rw [hparts]
  dsimp only
  rw [h]

theorem lowerExprParts_operand (ht : isOperator t.rule = false) (h : lowerExpr place t = .ok e)
    (hts : lowerExprParts place ts = .ok parts) :
    lowerExprParts place (t :: ts) = .ok (.operand e :: parts) := by
  rw [lowerExprParts, ht, h, hts]
  rfl

theorem lowerExprParts_operator (ht : isOperator t.rule) (hts : lowerExprParts place ts = .ok parts) :
    lowerExprParts place (t :: ts) = .ok (.operator t.string :: parts) := by
  rw [lowerExprParts, if_pos ht, hts]
  rfl

end Lowering

/-! ## Operands -/

/-- The pattern matches here and leaves a tree that is lowered to the expression, up to
positions; trivia behind it ends at the second cursor. -/
def Yields (fuel : Nat) (p : Pattern Rule) (e : Expr) (c d : Cursor) : Prop :=
  ∃ tree f, Matches (matchRule grammar fuel) true p ⟨.none, .free⟩ c [tree] f ∧
    skipTrivia f = d ∧ isOperator tree.rule = false ∧
    ∀ place, ∃ e', lowerExpr place tree = .ok e' ∧ e'.same e

/-- A spaced rule matches as its pattern does, and leaves a node. -/
theorem matches_spaced {fuel : Nat} {r : Rule} {c d : Cursor} {nodes : List (ParseTree Rule)}
    {p : Pattern Rule} (hr : definition r = ⟨.spaced, p⟩)
    (h : Matches (matchRule grammar fuel) true p ⟨.none, .free⟩ c nodes d) :
    Matches (matchRule grammar (fuel + 1)) true (.rule r) ⟨.none, .free⟩ c
      [.node r c d.offset nodes] d := by
  have hrule : Matches (matchRule grammar (fuel + 1)) true (.rule r) ⟨.none, .free⟩ c
      (keepNodes (definition r).kind r ⟨.none, .free⟩ c d.offset nodes) d := by
    refine .rule ?_
    show Matches _ (definition r).kind.separates (definition r).pattern
      ⟨.none, (definition r).kind.inner .free⟩ c nodes d
    rw [hr]
    exact h
  rwa [hr] at hrule

/-- The node of a level is lowered to what its operators make of its operands. -/
theorem yields_level {fuel : Nat} {l : Level} {e : Expr} {c d f : Cursor} {tree : ParseTree Rule}
    {trees : List (ParseTree Rule)} (hop : isOperator tree.rule = false)
    (hfirst : Matches (matchRule grammar fuel) true (.rule l.operand) ⟨.none, .free⟩ c [tree] d)
    (hmore : Matches (matchRule grammar fuel) true l.more ⟨.none, .free⟩ (skipTrivia d) trees f)
    (hlower : ∀ place, ∃ e₀ parts e', lowerExpr place tree = .ok e₀ ∧
      lowerExprParts place trees = .ok parts ∧ groupLeft (place c.offset) e₀ parts = some e' ∧
      e'.same e) : Yields (fuel + 1) (.rule l.rule) e c (skipTrivia f) := by
  refine ⟨_, f, matches_spaced l.definition_eq (hfirst.andThen hmore), rfl, ?_, fun place => ?_⟩
  · cases l <;> rfl
  · obtain ⟨e₀, parts, e', hlower, hparts, hgroup, hsame⟩ := hlower place
    refine ⟨e', lowerExpr_of_parts ?_ (lowerExprParts_operand hop hlower hparts) ?_, hsame⟩
    · cases l <;> rfl
    · cases l <;> exact hgroup

/-- A level without an operator is its only operand. -/
theorem Yields.pass {fuel : Nat} {e : Expr} {c d : Cursor} (l : Level)
    (h : Yields fuel (.rule l.operand) e c d)
    (hd : Misses (matchRule grammar fuel) true (.rule l.operator) ⟨.none, .free⟩ d) :
    Yields (fuel + 1) (.rule l.rule) e c d := by
  obtain ⟨tree, f, hmatch, rfl, hop, hlower⟩ := h
  have nothing : Matches (matchRule grammar fuel) true l.more ⟨.none, .free⟩ (skipTrivia f) []
      (skipTrivia f) := by
    have application : Misses (matchRule grammar fuel) true l.application ⟨.none, .free⟩
        (skipTrivia f) := .left hd
    cases l <;> first | exact .none application | exact .without application
  have level : Yields (fuel + 1) (.rule l.rule) e c (skipTrivia (skipTrivia f)) := by
    refine yields_level hop hmatch nothing fun place => ?_
    obtain ⟨e', hlower, hsame⟩ := hlower place
    exact ⟨e', [], e', hlower, rfl, rfl, hsame⟩
  rwa [skipTrivia_skipTrivia] at level

/-- The level has read an operand and any number of operators with their right operands,
and has made the expression of them so far. -/
def Begun (fuel : Nat) (l : Level) (e : Expr) (c d : Cursor) : Prop :=
  ∃ tree trees f f', Matches (matchRule grammar fuel) true (.rule l.operand) ⟨.none, .free⟩ c [tree] f ∧
    (∀ more g, Rounds (matchRule grammar fuel) true l.application ⟨.none, .free⟩ f' more g →
      Rounds (matchRule grammar fuel) true l.application ⟨.none, .free⟩ f (trees ++ more) g) ∧
    skipTrivia f' = d ∧ isOperator tree.rule = false ∧
    ∀ place, ∃ e₀ parts e', lowerExpr place tree = .ok e₀ ∧
      (∀ ts more, lowerExprParts place ts = .ok more →
        lowerExprParts place (trees ++ ts) = .ok (parts ++ more)) ∧
      (∀ more, groupLeft (place c.offset) e₀ (parts ++ more) = groupLeft (place c.offset) e' more) ∧
      e'.same e

/-- At first there is the left operand. -/
theorem Yields.begun {fuel : Nat} {l : Level} {e : Expr} {c d : Cursor}
    (h : Yields fuel (.rule l.operand) e c d) : Begun fuel l e c d := by
  obtain ⟨tree, f, hmatch, hf, hop, hlower⟩ := h
  refine ⟨tree, [], f, f, hmatch, fun _ _ h => h, hf, hop, fun place => ?_⟩
  obtain ⟨e', hlower, hsame⟩ := hlower place
  exact ⟨e', [], e', hlower, fun _ _ h => h, fun _ => rfl, hsame⟩

/-- An operator and its right operand, lowered. -/
theorem lowerExprParts_application {place : Nat → Position} {l : Level} {e : Expr}
    {opNode tree : ParseTree Rule} {ts : List (ParseTree Rule)} {more : List ExprPart}
    (hnode : opNode.rule = l.operator) (hop : isOperator tree.rule = false)
    (hlower : lowerExpr place tree = .ok e) (hts : lowerExprParts place ts = .ok more) :
    lowerExprParts place (opNode :: tree :: ts) =
      .ok (.operator opNode.string :: .operand e :: more) := by
  have hoperator : isOperator opNode.rule = true := by
    rw [hnode]
    cases l <;> rfl
  exact lowerExprParts_operator hoperator (lowerExprParts_operand hop hlower hts)

/-- An operator takes what is before it as its left operand. -/
theorem groupLeft_application {pos : Position} {s : Spelling} {e₁ e₂ : Expr} {symbol : String}
    (h : symbol = s.text) (more : List ExprPart) :
    groupLeft pos e₁ (.operator symbol :: .operand e₂ :: more) =
      groupLeft pos (.binary pos e₁ s.op e₂) more := by
  rw [h, groupLeft, s.ofSymbol?_text]

section Application

variable {fuel : Nat} {l : Level} {e₁ e₂ : Expr} {c d f g : Cursor} {s : Spelling}
  {opNode : ParseTree Rule}
  (hop : Matches (matchRule grammar fuel) true (.rule l.operator) ⟨.none, .free⟩ d [opNode] f)
  (hnode : opNode.rule = l.operator) (htext : opNode.string = s.text)
  (h₂ : Yields fuel (.rule l.operand) e₂ (skipTrivia f) g)
include hop hnode htext h₂

/-- A further operator of the level takes all before it as its left operand. -/
theorem Begun.apply (pos : Position) (h₁ : Begun fuel l e₁ c d) (hf : f.rest.length < d.rest.length) :
    Begun fuel l (.binary pos e₁ s.op e₂) c g := by
  obtain ⟨tree₁, trees, k, f₁, hmatch₁, hrounds, rfl, hop₁, hlower₁⟩ := h₁
  obtain ⟨tree₂, f₂, hmatch₂, rfl, hop₂, hlower₂⟩ := h₂
  have application : Matches (matchRule grammar fuel) true l.application ⟨.none, .free⟩
      (skipTrivia f₁) [opNode, tree₂] f₂ := hop.andThen hmatch₂
  have shorter : f₂.rest.length < f₁.rest.length := by
    have := hmatch₂.derives.reaches.length_le
    have := (reaches_skipTrivia f).length_le
    have := (reaches_skipTrivia f₁).length_le
    omega
  refine ⟨tree₁, trees ++ [opNode, tree₂], k, f₂, hmatch₁, fun more g hmore => ?_, rfl, hop₁,
    fun place => ?_⟩
  · rw [List.append_assoc]
    exact hrounds _ _ (.round application shorter hmore)
  · obtain ⟨e₀, parts, e₁', hfirst, hparts, hgroup, hsame₁⟩ := hlower₁ place
    obtain ⟨e₂', hlower₂, hsame₂⟩ := hlower₂ place
    refine ⟨e₀, parts ++ [.operator opNode.string, .operand e₂'],
      .binary (place c.offset) e₁' s.op e₂', hfirst, fun ts more hts => ?_, fun more => ?_,
      by simp [Expr.same, hsame₁, hsame₂]⟩
    · rw [List.append_assoc, List.append_assoc]
      exact hparts _ _ (lowerExprParts_application hnode hop₂ hlower₂ hts)
    · rw [List.append_assoc, hgroup]
      exact groupLeft_application htext more

/-- At most one comparison stands between two operands. -/
theorem Yields.compare (pos : Position) (hl : l = .cmp) (h₁ : Yields fuel (.rule l.operand) e₁ c d) :
    Yields (fuel + 1) (.rule l.rule) (.binary pos e₁ s.op e₂) c g := by
  obtain ⟨tree₁, f₁, hmatch₁, rfl, hop₁, hlower₁⟩ := h₁
  obtain ⟨tree₂, f₂, hmatch₂, rfl, hop₂, hlower₂⟩ := h₂
  have application : Matches (matchRule grammar fuel) true l.application ⟨.none, .free⟩
      (skipTrivia f₁) [opNode, tree₂] f₂ := hop.andThen hmatch₂
  have once : Matches (matchRule grammar fuel) true l.more ⟨.none, .free⟩ (skipTrivia f₁)
      [opNode, tree₂] f₂ := by
    rw [hl] at application ⊢
    exact .with application
  refine yields_level hop₁ hmatch₁ once fun place => ?_
  obtain ⟨e₁', hlower₁, hsame₁⟩ := hlower₁ place
  obtain ⟨e₂', hlower₂, hsame₂⟩ := hlower₂ place
  exact ⟨e₁', _, .binary (place c.offset) e₁' s.op e₂', hlower₁,
    lowerExprParts_application hnode hop₂ hlower₂ rfl, groupLeft_application htext [],
    by simp [Expr.same, hsame₁, hsame₂]⟩

end Application

/-- The other levels go on as long as there is an operator. -/
theorem Begun.finish {fuel : Nat} {l : Level} {e : Expr} {c d : Cursor} (hl : l ≠ .cmp)
    (h : Begun fuel l e c d)
    (hd : Misses (matchRule grammar fuel) true (.rule l.operator) ⟨.none, .free⟩ d) :
    Yields (fuel + 1) (.rule l.rule) e c d := by
  obtain ⟨tree, trees, f, f', hmatch, hrounds, rfl, hop, hlower⟩ := h
  have rounds := hrounds [] f' (.done (.left hd))
  rw [List.append_nil] at rounds
  obtain ⟨g, hmany, hg⟩ : ∃ g, Matches (matchRule grammar fuel) true (.many l.application)
      ⟨.none, .free⟩ (skipTrivia f) trees g ∧ skipTrivia g = skipTrivia f' := by
    cases rounds with
    | done h => exact ⟨skipTrivia f, .none h, skipTrivia_skipTrivia f⟩
    | round h _ hrest => exact ⟨f', .many h hrest, rfl⟩
  have more : Matches (matchRule grammar fuel) true l.more ⟨.none, .free⟩ (skipTrivia f) trees g := by
    cases l <;> first | exact hmany | exact absurd rfl hl
  rw [← hg]
  refine yields_level hop hmatch more fun place => ?_
  obtain ⟨e₀, parts, e', hfirst, hparts, hgroup, hsame⟩ := hlower place
  have hparts := hparts [] [] rfl
  have hgroup := hgroup []
  rw [List.append_nil] at hparts
  rw [List.append_nil] at hparts hgroup
  exact ⟨e₀, parts, e', hfirst, hparts, hgroup, hsame⟩

/-- A level with one operator is the operation. -/
theorem Yields.apply {fuel : Nat} {e₁ e₂ : Expr} (pos : Position) {c d g f : Cursor} {s : Spelling}
    {xs : List Char} (h₁ : Yields (fuel + 1) (.rule (Level.of s.op).operand) e₁ c d)
    (hop : d.Passes s.text.toList f) (hf : f.rest = ' ' :: xs)
    (h₂ : Yields (fuel + 1) (.rule (Level.of s.op).operand) e₂ (skipTrivia f) g)
    (hg : Level.of s.op ≠ .cmp →
      Misses (matchRule grammar (fuel + 1)) true (.rule (Level.of s.op).operator) ⟨.none, .free⟩ g) :
    Yields (fuel + 2) (.rule (Level.of s.op).rule) (.binary pos e₁ s.op e₂) c g := by
  have hmatch : Matches (matchRule grammar (fuel + 1)) true (.rule (Level.of s.op).operator)
      ⟨.none, .free⟩ d _ f := matches_operator hop hf
  have htext : (ParseTree.node (Level.of s.op).operator d f.offset []).string = s.text := by
    rw [ParseTree.string, text_node hop, String.ofList_toList]
  by_cases hl : Level.of s.op = .cmp
  · exact Yields.compare hmatch rfl htext h₂ pos hl h₁
  · refine (Begun.apply hmatch rfl htext h₂ pos h₁.begun ?_).finish hl (hg hl)
    exact hop.length_lt s.text_ne_nil

/-- Levels inside of one pass an operand on to it. -/
theorem Yields.inward {fuel : Nat} {e : Expr} {c d : Cursor} (l : Level)
    (h : Yields fuel (.rule .unaryExpr) e c d)
    (hd : ∀ m : Level, m.inside < l.inside → ∀ fuel,
      Misses (matchRule grammar fuel) true (.rule m.operator) ⟨.none, .free⟩ d) :
    Yields (fuel + l.inside) (.rule l.operand) e c d := by
  have add (hl : 0 < l.inside) := h.pass .mul (hd .mul hl _)
  have cmp (hl : 1 < l.inside) := (add (by omega)).pass .add (hd .add hl _)
  have and (hl : 2 < l.inside) := (cmp (by omega)).pass .cmp (hd .cmp hl _)
  have or (hl : 3 < l.inside) := (and (by omega)).pass .and (hd .and hl _)
  cases l with
  | mul => exact h
  | add => exact add (by decide)
  | cmp => exact cmp (by decide)
  | and => exact and (by decide)
  | or => exact or (by decide)

/-- The loosest level is the whole expression. -/
theorem Yields.expr {fuel : Nat} {e : Expr} {c d : Cursor} (h : Yields fuel (.rule .orExpr) e c d) :
    Yields (fuel + 1) (.rule .expr) e c d := by
  obtain ⟨tree, f, hmatch, hf, hop, hlower⟩ := h
  refine ⟨_, f, matches_spaced rfl hmatch, hf, rfl, fun place => ?_⟩
  obtain ⟨e', hlower, hsame⟩ := hlower place
  exact ⟨e', lowerExpr_of_parts rfl (lowerExprParts_operand hop hlower rfl) rfl, hsame⟩

/-- Levels outside of one pass its operation on to the whole expression. -/
theorem Yields.outward {fuel : Nat} {e : Expr} {c d : Cursor} (l : Level)
    (h : Yields (fuel + l.inside + 1) (.rule l.rule) e c d)
    (hd : ∀ m : Level, l.inside < m.inside → ∀ fuel,
      Misses (matchRule grammar fuel) true (.rule m.operator) ⟨.none, .free⟩ d) :
    Yields (fuel + 6) (.rule .expr) e c d := by
  have and (hl : l.inside < 4) (h : Yields (fuel + 4) (.rule .andExpr) e c d) :=
    (h.pass .or (hd .or hl _)).expr
  have cmp (hl : l.inside < 3) (h : Yields (fuel + 3) (.rule .cmpExpr) e c d) :=
    and (by omega) (h.pass .and (hd .and hl _))
  have add (hl : l.inside < 2) (h : Yields (fuel + 2) (.rule .addExpr) e c d) :=
    cmp (by omega) (h.pass .cmp (hd .cmp hl _))
  have mul (hl : l.inside < 1) (h : Yields (fuel + 1) (.rule .mulExpr) e c d) :=
    add (by omega) (h.pass .add (hd .add hl _))
  cases l with
  | mul => exact mul (by decide) h
  | add => exact add (by decide) h
  | cmp => exact cmp (by decide) h
  | and => exact and (by decide) h
  | or => exact h.expr

/-- An operand without an operator behind it is an expression. -/
theorem Yields.whole {fuel : Nat} {e : Expr} {c d : Cursor} (h : Yields fuel (.rule .unaryExpr) e c d)
    (hd : NoOperator d) : Yields (fuel + 6) (.rule .expr) e c d :=
  Yields.outward .mul (h.pass .mul (hd .mul _)) fun m _ _ => hd m _

theorem Yields.closed {fuel : Nat} {e : Expr} {c d : Cursor}
    (h : Yields fuel (.rule .unaryExpr) e c d) (hd : Closes d.rest) :
    Yields (fuel + 6) (.rule .expr) e c d :=
  h.whole (noOperator_of_closes hd)

/-- Two operands with an operator between them, and none behind the second, are an expression. -/
theorem Yields.binary {fuel : Nat} {e₁ e₂ : Expr} (pos : Position) {s : Spelling}
    {c d f g : Cursor} {xs : List Char} (h₁ : Yields (fuel + 1) (.rule .unaryExpr) e₁ c d)
    (hop : d.Passes s.text.toList f) (hf : f.rest = ' ' :: xs)
    (h₂ : Yields (fuel + 1) (.rule .unaryExpr) e₂ (skipTrivia f) g) (hg : NoOperator g) :
    Yields (fuel + 7) (.rule .expr) (.binary pos e₁ s.op e₂) c g := by
  have hd : d.rest = s.text.toList ++ ' ' :: xs := by rw [hop.1, hf]
  have left := h₁.inward (.of s.op) fun m hm fuel =>
    misses_operator_of_ne (fun hl => Nat.lt_irrefl _ (hl ▸ hm)) hd
  have right := h₂.inward (.of s.op) fun m _ _ => hg m _
  rw [Nat.add_right_comm] at left right
  have whole := left.apply pos hop hf right fun _ => hg _ _
  have enough : fuel + (Level.of s.op).inside + 2 = fuel + 1 + (Level.of s.op).inside + 1 := by omega
  rw [enough] at whole
  exact whole.outward (.of s.op) fun m _ _ => hg m _

end MainGrammar

end ServiceLang
