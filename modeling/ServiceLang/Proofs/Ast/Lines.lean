import ServiceLang.Proofs.Ast.Equal
import ServiceLang.Proofs.Format.Name
import ServiceLang.Proofs.Text.Distinct

/-!
The dump of an expression determines it.

Each expression has one line, its heading (`Expr.heading`): the name of its kind, and what else is its
own, such as a name, an operator or a literal.  The lines of its parts stand below, one level deeper
(`Expr.dump_eq`).  So three things can be recovered in turn:

* the lines with their depths from the text of a dump, as no heading holds a newline or begins with a
  space (`Dump.render_inj`);
* what is an expression's own from its heading (`Expr.same_of_heading_eq`);
* where the lines of an expression end, since those that follow are no deeper than it is
  (`Expr.same_of_dump_append`), which is an induction on the parts of expressions.

`Expr.same_of_print_eq` puts them together.
-/

namespace ServiceLang

open Text

/-! ## Rendered lines -/

namespace Dump

/-- The text of the line cannot be taken for its indentation or its end. -/
structure IsClean (l : DumpLine) : Prop where
  noNewline : '\n' ∉ l.text.toList
  noIndentation : ∀ c ∈ l.text.toList.head?, c ≠ ' '

theorem toList_renderLine (l : DumpLine) : (renderLine l).toList =
    List.replicate (2 * l.depth) ' ' ++ l.text.toList ++ ['\n'] := by
  simp [renderLine]

theorem toList_render_cons (l : DumpLine) (lines : List DumpLine) :
    (render (l :: lines)).toList =
      (List.replicate (2 * l.depth) ' ' ++ l.text.toList) ++ '\n' :: (render lines).toList := by
  simp [render, String.join_eq, toList_renderLine]

/-- Indentation and text tell the depth of a line. -/
theorem indented_inj {l l' : DumpLine} (h : IsClean l) (h' : IsClean l')
    (heq : List.replicate (2 * l.depth) ' ' ++ l.text.toList =
      List.replicate (2 * l'.depth) ' ' ++ l'.text.toList) : l = l' := by
  have hspaces (n : Nat) : ∀ c ∈ List.replicate n ' ', decide (c = ' ') = true := by
    intro c hc
    simpa using List.eq_of_mem_replicate hc
  obtain ⟨hdepth, htext⟩ := run_append_inj (hspaces _) (hspaces _)
    (fun c hc => decide_eq_false (h.noIndentation c hc)) (fun c hc => decide_eq_false (h'.noIndentation c hc)) heq
  have hlength := congrArg List.length hdepth
  rw [List.length_replicate, List.length_replicate] at hlength
  obtain ⟨depth, text⟩ := l
  obtain ⟨depth', text'⟩ := l'
  rw [DumpLine.mk.injEq]
  exact ⟨by dsimp only at hlength; omega, String.toList_inj.1 htext⟩

/-- The lines can be read off the text. -/
theorem render_inj {lines lines' : List DumpLine} (h : ∀ l ∈ lines, IsClean l) (h' : ∀ l ∈ lines', IsClean l)
    (heq : render lines = render lines') : lines = lines' := by
  induction lines generalizing lines' with
  | nil =>
    cases lines' with
    | nil => rfl
    | cons l' lines' =>
      have := congrArg String.toList heq
      rw [toList_render_cons] at this
      simp [render] at this
  | cons l lines ih =>
    cases lines' with
    | nil =>
      have := congrArg String.toList heq
      rw [toList_render_cons] at this
      simp [render] at this
    | cons l' lines' =>
      have hline {l : DumpLine} (h : IsClean l) : ∀ c ∈ List.replicate (2 * l.depth) ' ' ++ l.text.toList,
          decide (c ≠ '\n') = true := by
        intro c hc
        rw [decide_eq_true_eq]
        rintro rfl
        rcases List.mem_append.1 hc with hc | hc
        · cases List.eq_of_mem_replicate hc
        · exact h.noNewline hc
      have hend (cs : List Char) : ∀ c ∈ ('\n' :: cs).head?, decide (c ≠ '\n') = false := by simp
      have hclean := h l List.mem_cons_self
      have hclean' := h' l' List.mem_cons_self
      have hchars := congrArg String.toList heq
      rw [toList_render_cons, toList_render_cons] at hchars
      obtain ⟨hfirst, hrest⟩ := run_append_inj (hline hclean) (hline hclean') (hend _) (hend _) hchars
      rw [indented_inj hclean hclean' hfirst, ih (fun l hl => h l (List.mem_cons_of_mem _ hl))
        (fun l hl => h' l (List.mem_cons_of_mem _ hl)) (String.toList_inj.1 (List.cons.inj hrest).2)]

end Dump

/-! ## Headings and parts -/

namespace Expr

/-- The expressions right below an expression. -/
def parts : Expr → List Expr
  | .string _ _ | .number _ _ | .bool _ _ | .ident _ _ => []
  | .array _ elements => elements
  | .call _ _ args => args
  | .binary _ left _ right => [left, right]
  | .unary _ _ operand => [operand]

/-- What the line of an expression shows besides its kind. -/
def detail? : Expr → Option String
  | .string _ value => some (quoted value)
  | .number _ value => some (Decimal.plain value)
  | .bool _ value => some (boolText value)
  | .ident _ name | .call _ name _ => some name
  | .array _ _ => none
  | .binary _ _ op _ => some op.symbol
  | .unary _ op _ => some op.symbol

def heading (e : Expr) : String :=
  match e.detail? with
  | none => e.kind.name
  | some detail => e.kind.name ++ " " ++ detail

/-- What is true of an expression whenever it is true of its parts is true of all expressions. -/
theorem parts_induction {motive : Expr → Prop} (step : ∀ e, (∀ x ∈ e.parts, motive x) → motive e) :
    ∀ e, motive e :=
  go
where
  go : ∀ e, motive e
    | .string pos value => step (.string pos value) nofun
    | .number pos value => step (.number pos value) nofun
    | .bool pos value => step (.bool pos value) nofun
    | .ident pos name => step (.ident pos name) nofun
    | .array pos elements => step (.array pos elements) (goAll elements)
    | .call pos name args => step (.call pos name args) (goAll args)
    | .binary pos left op right => step (.binary pos left op right)
        (List.forall_mem_cons.2 ⟨go left, List.forall_mem_singleton.2 (go right)⟩)
    | .unary pos op operand => step (.unary pos op operand) (List.forall_mem_singleton.2 (go operand))
  goAll : ∀ es : List Expr, ∀ x ∈ es, motive x
    | [] => nofun
    | e :: es => List.forall_mem_cons.2 ⟨go e, goAll es⟩

theorem children_eq (e : Expr) : e.children = e.parts.map .expr := by cases e <;> rfl

theorem mem_preorder_of_part {e x : Expr} (hx : x ∈ e.parts) {n : Node} (hn : n ∈ x.preorder) :
    n ∈ e.preorder := by
  rw [preorder_eq, children_eq]
  exact List.mem_cons_of_mem _ (List.mem_flatMap.2 ⟨.expr x, List.mem_map_of_mem hx, hn⟩)

theorem self_mem_preorder (e : Expr) : .expr e ∈ e.preorder := by
  rw [preorder_eq]
  exact List.mem_cons_self

theorem dumpAll_eq_flatMap (depth : Nat) (es : List Expr) : dumpAll depth es = es.flatMap (dump depth) := by
  induction es with
  | nil => rfl
  | cons e es ih => rw [dumpAll, ih, List.flatMap_cons]

/-- The line of an expression, and the lines of its parts below. -/
theorem dump_eq (depth : Nat) (e : Expr) :
    e.dump depth = ⟨depth, e.heading⟩ :: dumpAll (depth + 1) e.parts := by
  cases e <;> simp [dump, parts, dumpAll, heading, detail?, kind, NodeKind.name, Dump.line]

/-- All lines of a dump are headings of expressions below. -/
theorem exists_of_mem_dump (e : Expr) : ∀ depth, ∀ l ∈ e.dump depth,
    ∃ x, .expr x ∈ e.preorder ∧ l.text = x.heading := by
  induction e using parts_induction with
  | _ e ih =>
    intro depth l hl
    rw [dump_eq, dumpAll_eq_flatMap] at hl
    rcases List.mem_cons.1 hl with rfl | hl
    · exact ⟨e, e.self_mem_preorder, rfl⟩
    · obtain ⟨part, hpart, hl⟩ := List.mem_flatMap.1 hl
      obtain ⟨x, hx, htext⟩ := ih part hpart _ l hl
      exact ⟨x, mem_preorder_of_part hpart hx, htext⟩

end Expr

/-! ## What a heading shows -/

/-- The name that an identifier or a call has. -/
def Node.ownNames : Node → List String
  | .expr (.ident _ name) | .expr (.call _ name _) => [name]
  | _ => []

namespace Expr

/-- The names of the identifiers and calls in an expression. -/
def names (e : Expr) : List String := e.preorder.flatMap Node.ownNames

def numbers (e : Expr) : List Float := e.preorder.flatMap Node.ownNumbers

/-- The detail of a heading, behind a space. -/
def tail (e : Expr) : List Char :=
  match e.detail? with
  | none => []
  | some detail => ' ' :: detail.toList

theorem toList_heading (e : Expr) : e.heading.toList = e.kind.name.toList ++ e.tail := by
  unfold heading tail
  cases e.detail? <;> simp

def kinds : List NodeKind :=
  [.stringLiteral, .numberLiteral, .boolLiteral, .identifier, .arrayLiteral, .functionCall, .binaryExpr, .unaryExpr]

theorem kind_mem_kinds (e : Expr) : e.kind ∈ kinds := by cases e <;> simp [kind, kinds]

theorem isAlpha_of_mem_name : ∀ k ∈ kinds, k.name.toList ≠ [] ∧ ∀ c ∈ k.name.toList, c.isAlpha := by decide

theorem kind_eq_of_name_eq : ∀ k ∈ kinds, ∀ k' ∈ kinds, k.name.toList = k'.name.toList → k = k' := by decide

/-- Headings of expressions with identifiers for names fit on a line. -/
theorem isClean_heading {e : Expr} (h : ∀ name ∈ (Node.expr e).ownNames, isIdentifier name) (depth : Nat) :
    Dump.IsClean ⟨depth, e.heading⟩ := by
  obtain ⟨hne, hkind⟩ := isAlpha_of_mem_name e.kind e.kind_mem_kinds
  have hbool : ∀ value, '\n' ∉ (boolText value).toList := by decide
  have hbinary (op : BinaryOp) : '\n' ∉ op.symbol.toList := by cases op <;> decide
  have hunary (op : UnaryOp) : '\n' ∉ op.symbol.toList := by cases op <;> decide
  have hname {name : String} (h : isIdentifier name) : '\n' ∉ name.toList :=
    ((isIdentifier_iff name).1 h).not_mem (by decide) (by decide)
  have hdetail : '\n' ∉ e.tail := by
    cases e with
    | string _ value => simp [tail, detail?, newline_notMem_quoted]
    | number _ value => simp [tail, detail?, Decimal.newline_notMem_plain]
    | bool _ value => simp [tail, detail?, hbool]
    | ident _ name => simpa [tail, detail?] using hname (h name List.mem_cons_self)
    | array _ _ => simp [tail, detail?]
    | call _ name _ => simpa [tail, detail?] using hname (h name List.mem_cons_self)
    | binary _ _ op _ => simp [tail, detail?, hbinary]
    | unary _ op _ => simp [tail, detail?, hunary]
  constructor
  · rw [toList_heading, List.mem_append, not_or]
    exact ⟨fun hmem => absurd (hkind _ hmem) (by decide), hdetail⟩
  · intro c hc
    rw [toList_heading, List.head?_append_of_ne_nil _ hne] at hc
    rintro rfl
    exact absurd (hkind _ (List.mem_of_mem_head? hc)) (by decide)

/-- Kind and detail can be read off a heading. -/
theorem kind_eq_of_heading_eq {a b : Expr} (h : a.heading = b.heading) : a.kind = b.kind ∧ a.tail = b.tail := by
  have hname (e : Expr) : ∀ c ∈ e.kind.name.toList, c.isAlpha = true :=
    (isAlpha_of_mem_name e.kind e.kind_mem_kinds).2
  have htail (e : Expr) : ∀ c ∈ e.tail.head?, c.isAlpha = false := by
    unfold tail
    cases e.detail? <;> simp
  have hchars := congrArg String.toList h
  rw [toList_heading, toList_heading] at hchars
  obtain ⟨hkind, hdetail⟩ := run_append_inj (hname a) (hname b) (htail a) (htail b) hchars
  exact ⟨kind_eq_of_name_eq _ a.kind_mem_kinds _ b.kind_mem_kinds hkind, hdetail⟩

/-- Expressions with one heading are equal up to positions when their parts are, provided that their
numbers are told apart by their texts. -/
theorem same_of_heading_eq {a b : Expr} (h : a.heading = b.heading)
    (hnumbers : ∀ x ∈ (Node.expr a).ownNumbers, ∀ y ∈ (Node.expr b).ownNumbers,
      Decimal.plain x = Decimal.plain y → (x == y) = true) :
    a.same b = sameAll a.parts b.parts := by
  obtain ⟨hkind, htail⟩ := kind_eq_of_heading_eq h
  have hdetail {s t : String} (h : ' ' :: s.toList = ' ' :: t.toList) : s = t :=
    String.toList_inj.1 (List.cons.inj h).2
  cases a with
  | string _ v =>
    cases b with
    | string _ v' => simp [same, parts, sameAll, quoted_inj (hdetail htail)]
    | _ => cases hkind
  | number _ x =>
    cases b with
    | number _ y =>
      have := hnumbers x List.mem_cons_self y List.mem_cons_self (hdetail htail)
      simpa [same, parts, sameAll] using this
    | _ => cases hkind
  | bool _ v =>
    cases b with
    | bool _ v' =>
      have hvalue : v = v' := by
        have := hdetail htail
        revert this
        cases v <;> cases v' <;> decide
      simp [same, parts, sameAll, hvalue]
    | _ => cases hkind
  | ident _ n =>
    cases b with
    | ident _ n' => simp [same, parts, sameAll, hdetail htail]
    | _ => cases hkind
  | array _ es =>
    cases b with
    | array _ es' => simp [same, parts]
    | _ => cases hkind
  | call _ n es =>
    cases b with
    | call _ n' es' => simp [same, parts, hdetail htail]
    | _ => cases hkind
  | binary _ l op r =>
    cases b with
    | binary _ l' op' r' =>
      have hop := congrArg BinaryOp.ofSymbol? (hdetail htail)
      rw [BinaryOp.ofSymbol?_symbol, BinaryOp.ofSymbol?_symbol] at hop
      simp [same, parts, sameAll, Option.some.inj hop]
    | _ => cases hkind
  | unary _ op e =>
    cases b with
    | unary _ op' e' =>
      have hop := congrArg UnaryOp.ofSymbol? (hdetail htail)
      rw [UnaryOp.ofSymbol?_symbol, UnaryOp.ofSymbol?_symbol] at hop
      simp [same, parts, sameAll, Option.some.inj hop]
    | _ => cases hkind

end Expr

/-! ## Where a dump ends -/

/-- The lines go on less deep, or they are at an end. -/
def Dump.Leaves (depth : Nat) (lines : List DumpLine) : Prop := ∀ l ∈ lines.head?, l.depth < depth

namespace Expr

/-- The lines of an expression end before the first one that is no deeper than it is. -/
theorem leaves_dumpAll_append {depth : Nat} {es : List Expr} {lines : List DumpLine}
    (h : Dump.Leaves depth lines) : Dump.Leaves (depth + 1) (dumpAll depth es ++ lines) := by
  cases es with
  | nil => exact fun l hl => Nat.lt_succ_of_lt (h l hl)
  | cons e es =>
    intro l hl
    rw [dumpAll, dump_eq] at hl
    cases hl
    exact Nat.lt_succ_self depth

section

variable {xs ys : List Float}

/-- The expression and the lines behind its dump can be recovered, if all its numbers are among `xs` and
those of the other expression among `ys`. -/
def Recovered (xs ys : List Float) (a : Expr) : Prop :=
  ∀ depth b r s, a.numbers ⊆ xs → b.numbers ⊆ ys → Dump.Leaves (depth + 1) r → Dump.Leaves (depth + 1) s →
    a.dump depth ++ r = b.dump depth ++ s → a.same b = true ∧ r = s

/-- The same for expressions one after another. -/
theorem sameAll_of_dumpAll_append {as : List Expr} (h : ∀ a ∈ as, Recovered xs ys a) {depth : Nat}
    {bs : List Expr} {r s : List DumpLine} (hxs : ∀ a ∈ as, a.numbers ⊆ xs) (hys : ∀ b ∈ bs, b.numbers ⊆ ys)
    (hr : Dump.Leaves depth r) (hs : Dump.Leaves depth s) (heq : dumpAll depth as ++ r = dumpAll depth bs ++ s) :
    sameAll as bs = true ∧ r = s := by
  -- a line of this depth cannot be among the lines behind
  have stays {b : Expr} {bs : List Expr} {r s : List DumpLine} (hr : Dump.Leaves depth r) :
      r ≠ dumpAll depth (b :: bs) ++ s := by
    rintro rfl
    rw [dumpAll, dump_eq] at hr
    exact Nat.lt_irrefl depth (hr _ rfl)
  induction as generalizing bs with
  | nil =>
    cases bs with
    | nil => exact ⟨rfl, heq⟩
    | cons b bs => exact absurd heq (stays hr)
  | cons a as ih =>
    cases bs with
    | nil => exact absurd heq.symm (stays hs)
    | cons b bs =>
      obtain ⟨ha, has⟩ := List.forall_mem_cons.1 hxs
      obtain ⟨hb, hbs⟩ := List.forall_mem_cons.1 hys
      rw [dumpAll, dumpAll, List.append_assoc, List.append_assoc] at heq
      obtain ⟨hsame, hrest⟩ := h a List.mem_cons_self depth b _ _ ha hb (leaves_dumpAll_append hr)
        (leaves_dumpAll_append hs) heq
      obtain ⟨hall, hlines⟩ := ih (fun a ha => h a (List.mem_cons_of_mem _ ha)) has hbs hrest
      exact ⟨by rw [sameAll, hsame, hall]; rfl, hlines⟩

theorem numbers_subset_of_part {e x : Expr} (hx : x ∈ e.parts) : x.numbers ⊆ e.numbers := by
  intro n hn
  obtain ⟨m, hm, hn⟩ := List.mem_flatMap.1 hn
  exact List.mem_flatMap.2 ⟨m, mem_preorder_of_part hx hm, hn⟩

theorem ownNumbers_subset (e : Expr) : (Node.expr e).ownNumbers ⊆ e.numbers :=
  fun _ hx => List.mem_flatMap.2 ⟨_, e.self_mem_preorder, hx⟩

/-- Every expression can be recovered from its lines. -/
theorem same_of_dump_append
    (hnumbers : ∀ x ∈ xs, ∀ y ∈ ys, Decimal.plain x = Decimal.plain y → (x == y) = true) (a : Expr) :
    Recovered xs ys a := by
  induction a using parts_induction with
  | _ a ih =>
    intro depth b r s hxs hys hr hs heq
    rw [dump_eq, dump_eq, List.cons_append, List.cons_append] at heq
    obtain ⟨hline, hlines⟩ := List.cons.inj heq
    obtain ⟨hall, hrest⟩ := sameAll_of_dumpAll_append ih
      (fun x hx => List.Subset.trans (numbers_subset_of_part hx) hxs)
      (fun y hy => List.Subset.trans (numbers_subset_of_part hy) hys) hr hs hlines
    refine ⟨?_, hrest⟩
    rw [same_of_heading_eq (DumpLine.mk.inj hline).2 fun x hx y hy =>
      hnumbers x (hxs (a.ownNumbers_subset hx)) y (hys (b.ownNumbers_subset hy))]
    exact hall

end

theorem isClean_of_mem_dump {e : Expr} (h : ∀ name ∈ e.names, isIdentifier name) {depth : Nat} :
    ∀ l ∈ e.dump depth, Dump.IsClean l := by
  intro l hl
  obtain ⟨x, hx, htext⟩ := e.exists_of_mem_dump depth l hl
  obtain ⟨d, text⟩ := l
  obtain rfl : text = x.heading := htext
  exact isClean_heading (fun name hname => h name (List.mem_flatMap.2 ⟨_, hx, hname⟩)) d

/-- Expressions with the same dump are equal, if their names are identifiers and the texts of numbers tell
apart the numbers that occur. -/
theorem same_of_print_eq (a b : Expr) (ha : ∀ name ∈ a.names, isIdentifier name)
    (hb : ∀ name ∈ b.names, isIdentifier name)
    (hnumbers : ∀ x ∈ a.numbers, ∀ y ∈ b.numbers, Decimal.plain x = Decimal.plain y → (x == y) = true)
    (hprint : (Node.expr a).print = (Node.expr b).print) : (Node.expr a).same (.expr b) = true := by
  have hlines : a.dump 0 = b.dump 0 :=
    Dump.render_inj (isClean_of_mem_dump ha) (isClean_of_mem_dump hb) hprint
  have hnone : Dump.Leaves 1 [] := nofun
  exact (same_of_dump_append hnumbers a 0 b [] [] (List.Subset.refl _) (List.Subset.refl _) hnone hnone
    (by rw [hlines])).1

/-- Empty calls and arrays beside others, a quoted newline and a number, written at different places. -/
theorem same_of_print_eq_nested :
    let tree (p : Position) : Expr :=
      .array p [.call p "f" [], .array p [], .call p "g" [.unary p .neg (.number p 1.5), .array p []],
        .binary p (.string p "a\n  Identifier b") .and (.ident p "b")]
    let a := tree ⟨"a.cdt", 1, 1, 0⟩
    let b := tree .unknown
    (∀ name ∈ a.names, isIdentifier name) ∧ (∀ name ∈ b.names, isIdentifier name) ∧
      (∀ x ∈ a.numbers, ∀ y ∈ b.numbers, Decimal.plain x = Decimal.plain y → (x == y) = true) ∧
      (Node.expr a).print = (Node.expr b).print ∧ (Node.expr a).same (.expr b) = true := by
  intro tree a b
  have ha : ∀ name ∈ a.names, isIdentifier name := by decide
  have hb : ∀ name ∈ b.names, isIdentifier name := by decide
  have hnumbers : ∀ x ∈ a.numbers, ∀ y ∈ b.numbers, Decimal.plain x = Decimal.plain y → (x == y) = true := by
    decide
  exact ⟨ha, hb, hnumbers, rfl, same_of_print_eq a b ha hb hnumbers rfl⟩

end Expr

end ServiceLang
