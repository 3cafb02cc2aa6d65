import ServiceLang.Ast.Display
import ServiceLang.Decimal.Read
import ServiceLang.Proofs.Grammar.Lexeme

/-!
The texts of printed expressions.

Which expressions can be read back is decided by their leaves: names have to be
identifiers, numbers unsigned and read back one by one, and strings free of characters
that are written by their code points (`Expr.isPrintable`).  The equations give each
form's text as a list of characters, and every text begins with a character that is no
blank and begins no comment.
-/

namespace ServiceLang

/-- A finite number without a sign, whose text is read as the same number. -/
def isReadableNumber (x : Float) : Bool :=
  Decimal.isUnsigned x && Decimal.ofLiteral (Decimal.plain x).toList == x

mutual

/-- The leaves of an expression are written in a way that can be read. -/
def Expr.isPrintable : Expr → Bool
  | .string _ value => value.toList.all Text.isQuotable
  | .number _ value => isReadableNumber value
  | .bool _ _ => true
  | .ident _ name => isName name
  | .array _ elements => Expr.arePrintable elements
  | .call _ name args => isName name && Expr.arePrintable args
  | .binary _ left _ right => left.isPrintable && right.isPrintable
  | .unary _ _ operand => operand.isPrintable

/-- The leaves of all expressions are written in a way that can be read. -/
def Expr.arePrintable : List Expr → Bool
  | [] => true
  | e :: es => e.isPrintable && Expr.arePrintable es

end

/-- The operator of an operation on one value, with the blank behind it. -/
def UnaryOp.prefixText : UnaryOp → List Char
  | .not => ['n', 'o', 't', ' ']
  | .neg => ['-']

namespace Expr

theorem arePrintable_iff (es : List Expr) : arePrintable es ↔ ∀ e ∈ es, e.isPrintable := by
  induction es with
  | nil => simp [arePrintable]
  | cons e es ih => simp [arePrintable, ih]

/-- The texts of expressions behind a first one, each with its comma. -/
def commaTexts (es : List Expr) : List Char :=
  es.flatMap fun e => ',' :: ' ' :: e.display.toList

theorem toList_commaList_cons (e : Expr) (es : List Expr) :
    (commaList (displayAll (e :: es))).toList = e.display.toList ++ commaTexts es := by
  have parts (t : List Char) (ts : List (List Char)) :
      [',', ' '].intercalate (t :: ts) = t ++ ts.flatMap (fun u => ',' :: ' ' :: u) := by
    induction ts generalizing t with
    | nil => simp
    | cons u us ih => rw [List.intercalate_cons_cons, ih]; simp
  have chars : ", ".toList = [',', ' '] := rfl
  rw [commaList, String.toList_intercalate, displayAll_eq_map, chars, List.map_cons, List.map_cons,
    parts, commaTexts, List.map_map, List.flatMap_map]
  rfl

theorem toList_display_array (pos : Position) (es : List Expr) :
    (array pos es).display.toList = '[' :: ((commaList (displayAll es)).toList ++ [']']) := by
  simp [display]

theorem toList_display_call (pos : Position) (name : String) (args : List Expr) :
    (call pos name args).display.toList =
      name.toList ++ '(' :: ((commaList (displayAll args)).toList ++ [')']) := by
  simp [display]

theorem toList_display_binary (pos : Position) (left right : Expr) (op : BinaryOp) :
    (binary pos left op right).display.toList =
      '(' :: (left.display.toList ++ ' ' :: (op.symbol.toList ++ ' ' ::
        (right.display.toList ++ [')']))) := by
  simp [display]

theorem toList_display_unary (pos : Position) (op : UnaryOp) (operand : Expr) :
    (unary pos op operand).display.toList =
      '(' :: (op.prefixText ++ (operand.display.toList ++ [')'])) := by
  cases op <;> simp [display, UnaryOp.prefixText]

/-- A printed expression begins with a character that is no blank and begins no comment. -/
theorem exists_head_display (e : Expr) (h : e.isPrintable) :
    ∃ x xs, e.display.toList = x :: xs ∧ isBlank x = false ∧ x ≠ '/' := by
  have word (x : Char) (xs : List Char) (hx : isWordChar x) :
      ∃ y ys, x :: xs = y :: ys ∧ isBlank y = false ∧ y ≠ '/' :=
    ⟨x, xs, rfl, isBlank_eq_false_of_isWordChar x hx, ne_of_isWordChar x '/' hx rfl⟩
  have name (n : String) (hn : isName n) (rest : List Char) :
      ∃ y ys, n.toList ++ rest = y :: ys ∧ isBlank y = false ∧ y ≠ '/' := by
    have hname := (isName_iff n).1 hn
    cases hl : n.toList with
    | nil =>
      have := hname.start
      rw [hl] at this
      cases this
    | cons x xs => exact word x _ (hname.chars x (by rw [hl]; exact List.mem_cons_self))
  have digits (ds rest : List Char) (hds : Decimal.IsDigits ds) :
      ∃ y ys, ds ++ rest = y :: ys ∧ isBlank y = false ∧ y ≠ '/' := by
    obtain ⟨x, xs, rfl⟩ := List.exists_cons_of_ne_nil hds.1
    have hx : x.isDigit = true := hds.2 x List.mem_cons_self
    exact word x _ (by simp [isWordChar, Char.isAlphanum, hx])
  cases e with
  | string pos value => exact ⟨'"', _, by rw [display, Text.toList_quoted], rfl, by decide⟩
  | number pos value =>
    have hnumber : isReadableNumber value := h
    simp only [isReadableNumber, Bool.and_eq_true] at hnumber
    have hnumeral := Decimal.numeral_plain hnumber.1
    rw [display]
    generalize (Decimal.plain value).toList = k at hnumeral
    cases hnumeral with
    | whole hds => simpa using digits _ [] hds
    | fraction hds _ => exact digits _ _ hds
  | bool pos value =>
    cases value with
    | true => exact ⟨'t', "rue".toList, by rw [display]; rfl, rfl, by decide⟩
    | false => exact ⟨'f', "alse".toList, by rw [display]; rfl, rfl, by decide⟩
  | ident pos n => simpa [display] using name n h []
  | array pos es => exact ⟨'[', _, toList_display_array pos es, rfl, by decide⟩
  | call pos n args =>
    have hn : isName n := (Bool.and_eq_true_iff.1 h).1
    rw [toList_display_call]
    exact name n hn _
  | binary pos left op right =>
    exact ⟨'(', _, toList_display_binary pos left right op, rfl, by decide⟩
  | unary pos op operand => exact ⟨'(', _, toList_display_unary pos op operand, rfl, by decide⟩

end Expr

end ServiceLang
