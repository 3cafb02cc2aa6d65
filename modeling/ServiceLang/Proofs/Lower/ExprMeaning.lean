import Mathlib.Data.List.Forall2
import ServiceLang.Proofs.Ast.Shaped
import ServiceLang.Proofs.Grammar.Identifier
import ServiceLang.Proofs.Peg.Shape
import ServiceLang.Lower.Expr

/-!
Every node of an expression has a meaning.

The nodes inside a level of precedence are operands with operators between them, the texts of
operators are those that have a meaning, and what stands elsewhere in an expression is an
operand.  Each form of an expression is assembled of the parts that this gives
(`assemblesExpr_of_isLevel`).  So lowering never comes upon a node that it does not expect
(`exists_lowerExpr`), and what it makes is shaped if the identifiers of the tree are names.
-/

namespace ServiceLang.MainGrammar

open Peg

/-! ## Rules inside expressions -/

/-- The levels of precedence, calls and arrays. -/
def isLevel : Rule → Bool
  | .expr | .orExpr | .andExpr | .cmpExpr | .addExpr | .mulExpr | .unaryExpr | .call | .arrayLit => true
  | _ => false

def isLeaf : Rule → Bool
  | .lexeme .boolLit | .lexeme .number | .lexeme .string | .lexeme .ident => true
  | _ => false

/-- Rules whose nodes are operands. -/
def isOperand (r : Rule) : Bool := isLevel r || isLeaf r

theorem not_isOperator_of_isOperand {r : Rule} (h : isOperand r) : isOperator r = false := by
  cases r <;> first | rfl | cases h

/-- Operators between two operands. -/
def isBinary : Rule → Bool
  | .orOp | .andOp | .cmpOp | .addOp | .mulOp => true
  | _ => false

theorem spaced_of_isLevel {r : Rule} (h : isLevel r) : (grammar.definition r).kind = .spaced := by
  cases r <;> first | rfl | cases h

/-- Nothing stands in a level but operands and operators. -/
theorem children_of_isLevel {t : ParseTree Rule} (h : IsLeft grammar t) (hr : isLevel t.rule) :
    ∀ u ∈ t.children, isOperand u.rule || isOperator u.rule := by
  have levels : ∀ r, isLevel r → (grammar.definition r).kind ≠ .token ∧
      (grammar.definition r).pattern.leavesOnly
        (grammar.leavesOnly (fun r => isOperand r || isOperator r) 0) := by
    intro r hr
    cases r <;> first | decide | cases hr
  obtain ⟨hk, hp⟩ := levels t.rule hr
  exact h.forall_children hk _ 0 hp

/-- A binary operator is written in a way that has a meaning. -/
theorem ofSymbol?_of_isBinary {t : ParseTree Rule} (h : IsLeft grammar t) (hr : isBinary t.rule) :
    (BinaryOp.ofSymbol? t.string).isSome := by
  have symbols : ∀ r, isBinary r → ∃ ws, (grammar.definition r).kind = .token ∧
      (grammar.definition r).pattern.texts? = some ws ∧
      ws.all fun w => (BinaryOp.ofSymbol? (String.ofList w)).isSome := by
    intro r hr
    cases r <;> first | exact ⟨_, rfl, rfl, by decide⟩ | cases hr
  obtain ⟨ws, hk, hp, hall⟩ := symbols t.rule hr
  exact List.all_eq_true.1 hall t.text (h.text_mem hk hp)

/-- The operator in front of an operand is written in a way that has a meaning. -/
theorem ofSymbol?_of_unaryOp {t : ParseTree Rule} (h : IsLeft grammar t) (hr : t.rule = .unaryOp) :
    (UnaryOp.ofSymbol? t.string).isSome := by
  have symbols : ∃ ws, (grammar.definition .unaryOp).pattern.texts? = some ws ∧
      ws.all fun w => (UnaryOp.ofSymbol? (String.ofList w)).isSome := ⟨_, rfl, by decide⟩
  obtain ⟨ws, hp, hall⟩ := symbols
  exact List.all_eq_true.1 hall t.text (h.text_mem (by rw [hr]; rfl) (by rw [hr]; exact hp))

/-! ## Operands in turn with operators -/

/-- Operators, each with an operand behind it. -/
def alternates : List Rule → Bool
  | [] => true
  | op :: operand :: rest => isBinary op && isOperand operand && alternates rest
  | [_] => false

theorem alternates_flatten {op operand : Rule} (hop : isBinary op) (hoperand : isOperand operand)
    (rounds : List (List Rule)) (h : ∀ round ∈ rounds, round = [op, operand]) :
    alternates rounds.flatten := by
  induction rounds with
  | nil => rfl
  | cons round rounds ih =>
    rw [List.flatten_cons, h round List.mem_cons_self]
    show isBinary op && isOperand operand && alternates rounds.flatten
    rw [hop, hoperand, ih fun r hr => h r (List.mem_cons_of_mem round hr)]
    rfl

theorem exists_alternates_of_chain {operand op : Rule} {rs : List Rule}
    (h : (chain operand op).Leaves (grammar.Leaves 0) rs) (hop : isBinary op)
    (hoperand : isOperand operand) : ∃ rest, rs = operand :: rest ∧ alternates rest := by
  have loud {r : Rule} (hr : isBinary r ∨ isOperand r) : (grammar.definition r).kind ≠ .silent := by
    intro hk
    cases r with
    | lexeme l => cases l <;> cases hk
    | statement | shellText => rcases hr with hr | hr <;> cases hr
    | _ => cases hk
  obtain ⟨before, behind, rfl, hbefore, rounds, rfl, hrounds⟩ := h
  rw [hbefore (loud (.inr hoperand))]
  refine ⟨rounds.flatten, rfl, alternates_flatten hop hoperand rounds fun round hround => ?_⟩
  obtain ⟨left, right, rfl, hleft, hright⟩ := hrounds round hround
  rw [hleft (loud (.inl hop)), hright (loud (.inr hoperand))]
  rfl

def isChain : Rule → Bool
  | .orExpr | .andExpr | .cmpExpr | .addExpr | .mulExpr => true
  | _ => false

/-- A binary level holds an operand, and then operators and operands in turn. -/
theorem exists_alternates {t : ParseTree Rule} (h : IsLeft grammar t) (hr : isChain t.rule) :
    ∃ u us, t.children = u :: us ∧ isOperand u.rule ∧ alternates (us.map ParseTree.rule) := by
  have hchain : ∃ first rest, t.children.map ParseTree.rule = first :: rest ∧ isOperand first ∧
      alternates rest := by
    have hk : (grammar.definition t.rule).kind ≠ .token := by
      cases hrule : t.rule <;> first | decide | (rw [hrule] at hr; cases hr)
    have hleaves := h.leaves hk 0
    cases hrule : t.rule with
    | orExpr =>
      rw [hrule] at hleaves
      obtain ⟨rest, hrs, hrest⟩ := exists_alternates_of_chain hleaves rfl rfl
      exact ⟨_, rest, hrs, rfl, hrest⟩
    | andExpr =>
      rw [hrule] at hleaves
      obtain ⟨rest, hrs, hrest⟩ := exists_alternates_of_chain hleaves rfl rfl
      exact ⟨_, rest, hrs, rfl, hrest⟩
    | addExpr =>
      rw [hrule] at hleaves
      obtain ⟨rest, hrs, hrest⟩ := exists_alternates_of_chain hleaves rfl rfl
      exact ⟨_, rest, hrs, rfl, hrest⟩
    | mulExpr =>
      rw [hrule] at hleaves
      obtain ⟨rest, hrs, hrest⟩ := exists_alternates_of_chain hleaves rfl rfl
      exact ⟨_, rest, hrs, rfl, hrest⟩
    | cmpExpr =>
      -- at most one operator
      rw [hrule] at hleaves
      obtain ⟨before, behind, hrs, hbefore, hbehind⟩ := hleaves
      rw [hbefore (by decide)] at hrs
      rcases hbehind with rfl | ⟨op, right, rfl, hop, hright⟩
      · exact ⟨_, [], hrs, rfl, rfl⟩
      · rw [hop (by decide), hright (by decide)] at hrs
        exact ⟨_, _, hrs, rfl, rfl⟩
    | _ =>
      rw [hrule] at hr
      cases hr
  obtain ⟨first, rest, hrules, hfirst, hrest⟩ := hchain
  obtain ⟨u, us, hchildren, rfl, rfl⟩ := List.map_eq_cons_iff.1 hrules
  exact ⟨u, us, hchildren, hfirst, hrest⟩

/-- A unary level holds an operator and an operand, or an operand alone. -/
theorem exists_operand_of_unaryExpr {t : ParseTree Rule} (h : IsLeft grammar t)
    (hr : t.rule = .unaryExpr) :
    (∃ op u, t.children = [op, u] ∧ op.rule = .unaryOp ∧ isOperand u.rule) ∨
      ∃ u, t.children = [u] ∧ isOperand u.rule := by
  have one {r : Rule} (hrs : t.children.map ParseTree.rule = [r]) (hop : isOperand r) :
      ∃ u, t.children = [u] ∧ isOperand u.rule := by
    obtain ⟨u, hchildren, rfl⟩ := List.map_eq_singleton_iff.1 hrs
    exact ⟨u, hchildren, hop⟩
  have hleaves := h.leaves (by rw [hr]; decide) 0
  rw [hr] at hleaves
  rcases hleaves with ⟨left, right, hrs, hleft, hright⟩ | hleaves
  · rw [hleft (by decide), hright (by decide)] at hrs
    obtain ⟨op, us, hchildren, hop, hrest⟩ := List.map_eq_cons_iff.1 hrs
    obtain ⟨u, rfl, hu⟩ := List.map_eq_singleton_iff.1 hrest
    exact .inl ⟨op, u, hchildren, hop, by rw [hu]; rfl⟩
  · right
    rcases hleaves with h | h | h | h | h | h | ⟨before, behind, hrs, hbefore, h⟩
    · exact one (h (by decide)) rfl
    · exact one (h (by decide)) rfl
    · exact one (h (by decide)) rfl
    · exact one (h (by decide)) rfl
    · exact one (h (by decide)) rfl
    · exact one (h (by decide)) rfl
    · -- the parentheses leave nothing
      obtain ⟨inner, close, rfl, hinner, hclose⟩ := h
      cases hbefore
      cases hclose
      rw [hinner (by decide)] at hrs
      exact one hrs rfl

/-! ## Parts -/

/-- The part is what the node makes: a shaped operand, or an operator with a meaning. -/
inductive Makes (t : ParseTree Rule) : ExprPart → Prop
  | operand {e : Expr} : isOperand t.rule → Shaped (.expr e) →
      (t.rule = .lexeme .ident → ∃ pos name, e = .ident pos name) → Makes t (.operand e)
  | operator : isOperator t.rule → (isBinary t.rule → (BinaryOp.ofSymbol? t.string).isSome) →
      (t.rule = .unaryOp → (UnaryOp.ofSymbol? t.string).isSome) → Makes t (.operator t.string)

theorem Makes.of_isOperand {t : ParseTree Rule} {part : ExprPart} (h : Makes t part)
    (ht : isOperand t.rule) : ∃ e, part = .operand e ∧ Shaped (.expr e) ∧
      (t.rule = .lexeme .ident → ∃ pos name, e = .ident pos name) := by
  cases h with
  | operand _ hshaped hident => exact ⟨_, rfl, hshaped, hident⟩
  | operator hop =>
    rw [not_isOperator_of_isOperand ht] at hop
    cases hop

theorem Makes.of_isOperator {t : ParseTree Rule} {part : ExprPart} (h : Makes t part)
    (ht : isOperator t.rule) : part = .operator t.string := by
  cases h with
  | operand hoperand =>
    rw [not_isOperator_of_isOperand hoperand] at ht
    cases ht
  | operator => rfl

theorem isOperator_of_isBinary {r : Rule} (h : isBinary r) : isOperator r := by
  cases r <;> first | rfl | cases h

/-- Operands in turn with operators are grouped. -/
theorem exists_groupLeft (pos : Position) : (ts : List (ParseTree Rule)) → (parts : List ExprPart) →
    List.Forall₂ Makes ts parts → alternates (ts.map ParseTree.rule) → (left : Expr) →
    Shaped (.expr left) → ∃ e, groupLeft pos left parts = some e ∧ Shaped (.expr e)
  | [], _, .nil, _, left, hleft => ⟨left, rfl, hleft⟩
  | [_], _, _, halt, _, _ => by cases halt
  | op :: operand :: ts, _, .cons hop (.cons hoperand hparts), halt, left, hleft => by
    obtain ⟨halt, hrest⟩ := Bool.and_eq_true_iff.1 halt
    obtain ⟨hbinary, hright⟩ := Bool.and_eq_true_iff.1 halt
    obtain ⟨right, rfl, hshaped, -⟩ := hoperand.of_isOperand hright
    obtain rfl := hop.of_isOperator (isOperator_of_isBinary hbinary)
    cases hop with
    | operator _ hsymbol _ =>
    obtain ⟨o, ho⟩ := Option.isSome_iff_exists.1 (hsymbol hbinary)
    have hbinaryExpr : Shaped (.expr (.binary pos left o right)) := by
      refine .expr nofun fun m hm => ?_
      rcases List.mem_cons.1 hm with rfl | hm
      · exact hleft
      · rw [List.mem_singleton.1 hm]
        exact hshaped
    rw [groupLeft, ho]
    exact exists_groupLeft pos ts _ hparts hrest _ hbinaryExpr

theorem operands_of_makes {ts : List (ParseTree Rule)} {parts : List ExprPart}
    (h : List.Forall₂ Makes ts parts) (ht : ∀ t ∈ ts, isOperand t.rule) :
    parts.all ExprPart.isOperand ∧ ∀ e ∈ ExprPart.operands parts, Shaped (.expr e) := by
  induction h with
  | nil => exact ⟨rfl, fun e he => by cases he⟩
  | @cons t part ts parts hpart _ ih =>
    obtain ⟨hall, hshaped⟩ := ih fun u hu => ht u (List.mem_cons_of_mem t hu)
    obtain ⟨e, rfl, he, -⟩ := hpart.of_isOperand (ht t List.mem_cons_self)
    refine ⟨hall, fun e' he' => ?_⟩
    rcases List.mem_cons.1 he' with rfl | he'
    · exact he
    · exact hshaped e' he'

/-! ## Levels -/

/-- The expression is shaped, a call if the node is one, and an identifier if the node is. -/
structure Meaning (t : ParseTree Rule) (e : Expr) : Prop where
  shaped : Shaped (.expr e)
  call : t.rule = .call → e.kind = .functionCall
  ident : t.rule = .lexeme .ident → ∃ pos name, e = .ident pos name

/-- The parts are assembled to an expression that the node may mean. -/
def AssemblesExpr (t : ParseTree Rule) (pos : Position) (parts : List ExprPart) : Prop :=
  ∃ e, assembleExpr pos t.rule parts = some e ∧ Meaning t e

section Forms

variable {t : ParseTree Rule} {parts : List ExprPart} (pos : Position) (h : IsLeft grammar t)
  (hparts : List.Forall₂ Makes t.children parts)

include hparts in
/-- A node with one operand makes what the operand does. -/
theorem exists_single {u : ParseTree Rule} (hchildren : t.children = [u]) (hu : isOperand u.rule) :
    ∃ e, parts = [.operand e] ∧ Shaped (.expr e) := by
  rw [hchildren] at hparts
  cases hparts with
  | cons hpart hnil =>
  cases hnil
  obtain ⟨e, rfl, hshaped, -⟩ := hpart.of_isOperand hu
  exact ⟨e, rfl, hshaped⟩

include h hparts

theorem assemblesExpr_expr (hr : t.rule = .expr) : AssemblesExpr t pos parts := by
  have hleaves := h.leaves (by rw [hr]; decide) 0
  rw [hr] at hleaves
  obtain ⟨u, hchildren, hu⟩ := List.map_eq_singleton_iff.1 (hleaves (by decide))
  obtain ⟨e, rfl, hshaped⟩ := exists_single hparts hchildren (by rw [hu]; rfl)
  unfold AssemblesExpr
  rw [hr]
  exact ⟨e, rfl, hshaped, by simp [hr], by simp [hr]⟩

theorem assemblesExpr_unaryExpr (hr : t.rule = .unaryExpr) : AssemblesExpr t pos parts := by
  unfold AssemblesExpr
  rcases exists_operand_of_unaryExpr h hr with ⟨op, u, hchildren, hop, hu⟩ | ⟨u, hchildren, hu⟩
  · rw [hchildren] at hparts
    cases hparts with
    | cons hpart hrest =>
    cases hrest with
    | cons hright hnil =>
    cases hnil
    obtain ⟨e, rfl, hshaped, -⟩ := hright.of_isOperand hu
    obtain rfl := hpart.of_isOperator (by rw [hop]; rfl)
    cases hpart with
    | operator _ _ hsymbol =>
    obtain ⟨o, ho⟩ := Option.isSome_iff_exists.1 (hsymbol hop)
    refine ⟨.unary pos o e, by rw [hr, assembleExpr, ho]; rfl, ?_, by simp [hr], by simp [hr]⟩
    refine .expr nofun fun m hm => ?_
    rw [List.mem_singleton.1 hm]
    exact hshaped
  · obtain ⟨e, rfl, hshaped⟩ := exists_single hparts hchildren hu
    rw [hr]
    exact ⟨e, rfl, hshaped, by simp [hr], by simp [hr]⟩

theorem assemblesExpr_call (hr : t.rule = .call) : AssemblesExpr t pos parts := by
  obtain ⟨u, us, hchildren, hu, -⟩ := h.exists_first (by rw [hr]; rfl) (by rw [hr]; rfl) (by decide)
  have hall := h.forall_children (by rw [hr]; decide) isOperand 0 (by rw [hr]; decide)
  rw [hchildren] at hparts hall
  cases hparts with
  | cons hpart hrest =>
  obtain ⟨e, rfl, hshaped, hident⟩ := hpart.of_isOperand (by rw [hu]; rfl)
  obtain ⟨at', name, rfl⟩ := hident hu
  obtain ⟨-, hargs⟩ := operands_of_makes hrest fun v hv => hall v (List.mem_cons_of_mem u hv)
  unfold AssemblesExpr
  rw [hr]
  refine ⟨.call pos name (ExprPart.operands _), rfl, ?_, fun _ => rfl, by simp [hr]⟩
  refine .expr (fun n hn => ?_) fun m hm => ?_
  · cases hshaped with
    | intro hconforms _ => exact hconforms.named n hn
  · obtain ⟨e, he, rfl⟩ := List.mem_map.1 hm
    exact hargs e he

theorem assemblesExpr_arrayLit (hr : t.rule = .arrayLit) : AssemblesExpr t pos parts := by
  obtain ⟨hall, hshaped⟩ := operands_of_makes hparts
    (h.forall_children (by rw [hr]; decide) isOperand 0 (by rw [hr]; decide))
  unfold AssemblesExpr
  rw [hr]
  refine ⟨.array pos (ExprPart.operands parts), if_pos hall, ?_, by simp [hr], by simp [hr]⟩
  refine .expr nofun fun m hm => ?_
  obtain ⟨e, he, rfl⟩ := List.mem_map.1 hm
  exact hshaped e he

/-- The levels of binary operators group what they hold to the left. -/
theorem assemblesExpr_of_isChain (hr : isChain t.rule) : AssemblesExpr t pos parts := by
  obtain ⟨u, us, hchildren, hu, halt⟩ := exists_alternates h hr
  rw [hchildren] at hparts
  cases hparts with
  | cons hpart hrest =>
  obtain ⟨left, rfl, hshaped, -⟩ := hpart.of_isOperand hu
  obtain ⟨e, he, hmeans⟩ := exists_groupLeft pos us _ hrest halt left hshaped
  unfold AssemblesExpr
  cases hrule : t.rule with
  | orExpr | andExpr | cmpExpr | addExpr | mulExpr =>
    exact ⟨e, he, hmeans, by simp [hrule], by simp [hrule]⟩
  | _ =>
    rw [hrule] at hr
    cases hr

theorem assemblesExpr_of_isLevel (hlevel : isLevel t.rule) : AssemblesExpr t pos parts := by
  cases hr : t.rule with
  | expr => exact assemblesExpr_expr pos h hparts hr
  | unaryExpr => exact assemblesExpr_unaryExpr pos h hparts hr
  | call => exact assemblesExpr_call pos h hparts hr
  | arrayLit => exact assemblesExpr_arrayLit pos h hparts hr
  | orExpr | andExpr | cmpExpr | addExpr | mulExpr =>
    exact assemblesExpr_of_isChain pos h hparts (by rw [hr]; rfl)
  | _ =>
    rw [hr] at hlevel
    cases hlevel

end Forms

theorem exists_leafExpr {t : ParseTree Rule} (pos : Position) (hr : isLeaf t.rule) (hn : Named (.lexeme .ident) t) :
    ∃ e, leafExpr? pos t = some e ∧ Meaning t e := by
  have literal {e : Expr} (he : e.children = []) (hnames : (Node.expr e).names = []) :
      Shaped (.expr e) := .expr (by rw [hnames]; nofun) (by rw [he]; nofun)
  have hident := hn.isName
  unfold leafExpr?
  generalize hrule : t.rule = r at hr hident
  unfold isLeaf at hr
  split at hr
  · exact ⟨_, rfl, literal rfl rfl, by simp [hrule], by simp [hrule]⟩
  · exact ⟨_, rfl, literal rfl rfl, by simp [hrule], by simp [hrule]⟩
  · exact ⟨_, rfl, literal rfl rfl, by simp [hrule], by simp [hrule]⟩
  · refine ⟨_, rfl, .expr (fun name hname => ?_) nofun, by simp [hrule], fun _ => ⟨_, _, rfl⟩⟩
    rw [List.mem_singleton.1 hname]
    exact hident rfl
  · cases hr

theorem leafExpr?_of_isLevel {t : ParseTree Rule} (pos : Position) (hr : isLevel t.rule) :
    leafExpr? pos t = none := by
  unfold leafExpr?
  split <;> first | rfl | (next hrule => rw [hrule] at hr; cases hr)

/-! ## Lowered expressions -/

mutual

/-- Every node of an expression is lowered to an expression. -/
theorem exists_lowerExpr (place : Nat → Position) : (t : ParseTree Rule) → IsLeft grammar t → Named (.lexeme .ident) t → isOperand t.rule →
    ∃ e, lowerExpr place t = .ok e ∧ Meaning t e
  | .node rule start stop children, h, hn, hr => by
    rw [lowerExpr]
    rcases Bool.or_eq_true_iff.1 hr with hlevel | hleaf
    · obtain ⟨parts, hparts, hmakes⟩ := exists_lowerExprParts place children
        (fun u hu => (h.child (spaced_of_isLevel hlevel) hu).1) (fun u hu => hn.child hu)
        (children_of_isLevel h hlevel)
      obtain ⟨e, he, hmeaning⟩ := assemblesExpr_of_isLevel (place start.offset) h hmakes hlevel
      rw [leafExpr?_of_isLevel _ hlevel]
      dsimp only
      rw [hparts]
      dsimp only
      rw [show assembleExpr (place start.offset) rule parts = some e from he]
      exact ⟨e, rfl, hmeaning⟩
    · obtain ⟨e, he, hmeaning⟩ := exists_leafExpr (place start.offset) hleaf hn
      rw [he]
      exact ⟨e, rfl, hmeaning⟩

/-- The nodes inside a level are lowered to parts, one each. -/
theorem exists_lowerExprParts (place : Nat → Position) : (ts : List (ParseTree Rule)) → (∀ t ∈ ts, IsLeft grammar t) →
    (∀ t ∈ ts, Named (.lexeme .ident) t) → (∀ t ∈ ts, isOperand t.rule || isOperator t.rule) →
    ∃ parts, lowerExprParts place ts = .ok parts ∧ List.Forall₂ Makes ts parts
  | [], _, _, _ => ⟨[], rfl, .nil⟩
  | t :: ts, h, hn, hr => by
    obtain ⟨parts, hparts, hmakes⟩ := exists_lowerExprParts place ts
      (fun u hu => h u (List.mem_cons_of_mem t hu)) (fun u hu => hn u (List.mem_cons_of_mem t hu))
      (fun u hu => hr u (List.mem_cons_of_mem t hu))
    have ht := h t List.mem_cons_self
    rw [lowerExprParts]
    rcases Bool.or_eq_true_iff.1 (hr t List.mem_cons_self) with hoperand | hoperator
    · obtain ⟨e, he, hmeaning⟩ := exists_lowerExpr place t ht (hn t List.mem_cons_self) hoperand
      rw [not_isOperator_of_isOperand hoperand, he, hparts]
      exact ⟨_, rfl, .cons (.operand hoperand hmeaning.shaped hmeaning.ident) hmakes⟩
    · rw [if_pos hoperator, hparts]
      exact ⟨_, rfl, .cons (.operator hoperator (ofSymbol?_of_isBinary ht)
        (ofSymbol?_of_unaryOp ht)) hmakes⟩

end

end ServiceLang.MainGrammar
