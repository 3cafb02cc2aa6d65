import ServiceLang.Grammar.Endpoint
import ServiceLang.Proofs.Grammar.Braces
import ServiceLang.Proofs.Grammar.Identifier
import ServiceLang.Proofs.Peg.Shape
import ServiceLang.Proofs.Region.Annotated

/-!
A text that is one endpoint.

The grammar of endpoints lets blanks stand behind the mark of an annotation, and it takes every
word for a name.  The scanner looks for the name right behind the mark, and in front of the
keyword it looks for words that bind names.  So a text that the grammar accepts is one region if
and only if its head fits the scanner (`HeadFits`, `find_iff_of_parse`).
-/

namespace ServiceLang.EndpointGrammar

open Peg Region

/-! ## Braces -/

/-- The rules that close the braces that they open; the text of a string is left to the string. -/
def closes (r : Rule) : Bool := r ≠ .lexeme .stringInner

theorem closes_cases (r : Rule) (h : closes r) :
    r = .lexeme .string ∨ (grammar.definition r).pattern.bracesAfter closes 0 = some 0 := by
  have all : ∀ r ∈ Rule.all, closes r →
      r = .lexeme .string ∨ (grammar.definition r).pattern.bracesAfter closes 0 = some 0 := by
    decide
  exact all r r.mem_all h

/-- No comment begins behind what is derived where none does. -/
theorem bare_of_derives {p : Pattern Rule} {c d : Cursor} {nodes : List (ParseTree Rule)}
    (h : Derives grammar true p ⟨.none, .free⟩ c nodes d) (hc : c.Bare)
    (hp : p.bracesAfter closes 0 = some 0) : d.Bare :=
  (Derives.braces (fun _ => rfl) closes_cases h hc hp).2

/-! ## Heads -/

/-- The name of an annotation stands right behind its mark. -/
def IsTight (a : ParseTree Rule) : Prop := a.text.tail.head?.any isWordStart

instance (a : ParseTree Rule) : Decidable (IsTight a) := inferInstanceAs (Decidable (_ = true))

/-- The scanner comes to the keyword of an endpoint with all of its annotations, and before
the keyword it finds no word that binds names. -/
structure HeadFits (text : List Char) (decl : ParseTree Rule) : Prop where
  names : ∀ a ∈ decl.childrenOf .annotationSpec, IsTight a
  keyword : ∀ w ∈ decl.childrenOf (.word .endpoint),
    followsBindingWord (takeBytes w.offset text).reverse = false

instance (text : List Char) (decl : ParseTree Rule) : Decidable (HeadFits text decl) :=
  decidable_of_iff ((∀ a ∈ decl.childrenOf .annotationSpec, IsTight a) ∧
    ∀ w ∈ decl.childrenOf (.word .endpoint), followsBindingWord (takeBytes w.offset text).reverse = false)
    ⟨fun h => ⟨h.1, h.2⟩, fun h => ⟨h.names, h.keyword⟩⟩

/-- What may stand behind an annotation: neither arguments nor a brace, and nothing that makes
its name the keyword of an endpoint. -/
structure EndsAnnotation (ys : List Char) : Prop where
  arguments : nextIs '(' ys = false
  brace : nextIs '{' ys = false
  path : followedByMethodAndPath ys = false

theorem endsAnnotation_mark (ys : List Char) : EndsAnnotation ('@' :: ys) := ⟨rfl, rfl, rfl⟩

theorem EndsAnnotation.append_blanks {bs ys : List Char} (h : EndsAnnotation ys)
    (hbs : ∀ x ∈ bs, isBlank x) : EndsAnnotation (bs ++ ys) where
  arguments := by rw [nextIs_append_blanks hbs, h.arguments]
  brace := by rw [nextIs_append_blanks hbs, h.brace]
  path := by rw [followedByMethodAndPath_append_blanks hbs, h.path]

/-- What the scanner makes of annotations up to a place: if all are tight, it comes there with
the whole head, and one loose annotation is enough to lose the start of it. -/
structure HeadRead (text : List Char) (annotations : List (ParseTree Rule)) (e : Cursor) : Prop where
  tight : (∀ a ∈ annotations, IsTight a) → ∃ u, InHead text u (skipTrivia e).rest
  loose : ∀ a ∈ annotations, ¬IsTight a → ∀ n, find text ≠ .ok [⟨.endpoint, 0, n⟩]

/-! ## Annotations -/

section

variable {c d e : Cursor} {nodes : List (ParseTree Rule)} {text : List Char} {s : Scan}

/-- The value of an annotation's argument. -/
theorem argsTail_of_value (h : Derives grammar true stringOrWord ⟨.none, .free⟩ c nodes d) (hc : c.Bare) :
    ∃ k, c.Passes k d ∧ (∀ args, ArgsTail args → ArgsTail (k ++ args)) ∧ d.Bare := by
  cases h with
  | first h =>
    obtain ⟨k, -, -, hk, hquoted, -⟩ := quotedTail_of_string (fun _ => rfl) h
    exact ⟨_, hk, fun args ha => .quoted hquoted ha, hc.quoted hk hquoted⟩
  | second h =>
    obtain ⟨inner, hword, -⟩ := h.of_rule
    obtain ⟨-, k, hk, hchars⟩ := hword.reads (fun cls => cls ≠ .any) (fun x => x ≠ '"' && x ≠ ')')
      (fun cls x hcls hx => by
        have hx := isWordChar_of_contains cls (of_decide_eq_true hcls) hx
        simp [ne_of_isWordChar x '"' hx rfl, ne_of_isWordChar x ')' hx rfl]) (by decide) 0
      (by decide)
    have hne : ∀ x ∈ k, x ≠ '"' ∧ x ≠ ')' := fun x hx => by simpa using hchars x hx
    exact ⟨k, hk, fun args ha => ha.append_of_ne hne, hc.passes hk fun x hx => (hne x hx).1⟩

/-- The arguments of an annotation, from their parenthesis on. -/
theorem argsTail_of_arguments (h : Derives grammar true
    (.all [.literal "(", .optional stringOrWord, .literal ")"]) ⟨.none, .free⟩ c nodes d) (hc : c.Bare) :
    ∃ args, c.Passes ('(' :: args) d ∧ ArgsTail args ∧ d.Bare := by
  have blanks {bs args : List Char} (hbs : ∀ x ∈ bs, isBlank x) (ha : ArgsTail args) :
      ArgsTail (bs ++ args) := by
    refine ha.append_of_ne fun x hx => ?_
    rcases (isBlank_iff x).1 (hbs x hx) with rfl | rfl | rfl | rfl <;> decide
  obtain ⟨_, a, _, -, hopen, h⟩ := h.of_andThen
  obtain ⟨_, b, _, -, hvalue, hclose⟩ := h.of_andThen
  cases hopen with
  | literal hopen =>
  cases hclose with
  | literal hclose =>
  have hopen : c.Passes ['('] a := Cursor.passes_of_strip? hopen
  have hclose : Cursor.Passes (skipTrivia b) [')'] d := Cursor.passes_of_strip? hclose
  obtain ⟨bs, hbs, hblank, -, ha⟩ := (hc.passes hopen (by decide)).exists_blanks
  obtain ⟨k, hk, hargs, hb⟩ : ∃ k, (skipTrivia a).Passes k b ∧
      (∀ args, ArgsTail args → ArgsTail (k ++ args)) ∧ b.Bare := by
    cases hvalue with
    | without => exact ⟨[], .nil _, fun _ h => h, ha⟩
    | «with» hvalue => exact argsTail_of_value hvalue ha
  obtain ⟨bs', hbs', hblank', -, hend⟩ := hb.exists_blanks
  exact ⟨bs ++ (k ++ (bs' ++ [')'])), hopen.append (hbs.append (hk.append (hbs'.append hclose))),
    blanks hblank (hargs _ (blanks hblank' .close)), hend.passes hclose (by decide)⟩

theorem isTight_iff {r : Rule} {bs name : List Char} (h : c.Passes ('@' :: (bs ++ name)) d)
    (hr : d.Reaches e) (hbs : ∀ x ∈ bs, isBlank x) (hname : name.head?.any isWordStart) :
    IsTight (.node r c e.offset nodes) ↔ bs = [] := by
  obtain ⟨k, hk⟩ := hr
  unfold IsTight
  rw [ParseTree.text_of_passes (h.append hk)]
  cases bs with
  | nil =>
    cases name with
    | nil => cases hname
    | cons x name => exact iff_of_true hname rfl
  | cons b bs =>
    refine iff_of_false (fun hb => ?_) (List.cons_ne_nil b bs)
    rcases (isBlank_iff b).1 (hbs b List.mem_cons_self) with rfl | rfl | rfl | rfl <;> cases hb

/-- With blanks before its name an annotation is lost, whatever stands behind it. -/
theorem find_ne_of_loose {bs name ys : List Char} {n : Nat} (hs : InHead text s ('@' :: (bs ++ (name ++ ys))))
    (hbs : ∀ x ∈ bs, isBlank x) (hloose : bs ≠ []) (hne : name ≠ []) (hname : ∀ x ∈ name, isWordChar x)
    (hend : ys.head?.any isWordChar = false) (hbrace : nextIs '{' ys = false)
    (hpath : followedByMethodAndPath ys = false) : find text ≠ .ok [⟨.endpoint, 0, n⟩] := by
  obtain ⟨b, bs, rfl⟩ := List.exists_cons_of_ne_nil hloose
  exact hs.find_ne_of_blank (hbs b List.mem_cons_self) (fun x hx => hbs x (List.mem_cons_of_mem b hx))
    hne hname hend hbrace hpath

/-- What the scanner makes of an annotation, with arguments and without. -/
theorem reads_arguments {bs name : List Char} (hs : InHead text s c.rest)
    (hhead : c.Passes ('@' :: (bs ++ name)) d) (hd : d.Bare) (hblank : ∀ x ∈ bs, isBlank x)
    (hne : name ≠ []) (hword : ∀ x ∈ name, isWordChar x) (hend : d.rest.head?.any isWordChar = false)
    (hargs : Derives grammar true (.optional (.all [.literal "(", .optional stringOrWord, .literal ")"]))
      ⟨.none, .free⟩ (skipTrivia d) nodes e)
    (hends : EndsAnnotation (skipTrivia e).rest) :
    (bs = [] → ∃ u, InHead text u (skipTrivia e).rest) ∧
      (bs ≠ [] → ∀ n, find text ≠ .ok [⟨.endpoint, 0, n⟩]) := by
  obtain ⟨bs', hbs', hblank', -, hbehind⟩ := hd.exists_blanks
  cases hargs with
  | without =>
    rw [skipTrivia_skipTrivia] at hends ⊢
    have htext : c.rest = '@' :: (bs ++ (name ++ (bs' ++ (skipTrivia d).rest))) := by
      simpa using (hhead.append hbs').1
    rw [htext] at hs
    rw [hbs'.1] at hend
    have hends' := hends.append_blanks hblank'
    refine ⟨fun htight => ?_, fun hloose n => ?_⟩
    · rw [htight, List.nil_append] at hs
      exact hs.withoutArguments hne hword hblank' hend hends.arguments
    · exact find_ne_of_loose hs hblank hloose hne hword hend hends'.brace hends'.path
  | «with» hargs =>
    obtain ⟨args, hopen, hargs, he⟩ := argsTail_of_arguments hargs hbehind
    obtain ⟨bs'', hbs'', hblank'', -, -⟩ := he.exists_blanks
    have htext : c.rest = '@' :: (bs ++ (name ++ (bs' ++ '(' :: (args ++ (bs'' ++ (skipTrivia e).rest))))) := by
      simpa using (hhead.append (hbs'.append (hopen.append hbs''))).1
    have hrest : d.rest = bs' ++ '(' :: (args ++ (bs'' ++ (skipTrivia e).rest)) := by
      simpa using (hbs'.append (hopen.append hbs'')).1
    rw [htext] at hs
    rw [hrest] at hend
    refine ⟨fun htight => ?_, fun hloose n => ?_⟩
    · rw [htight, List.nil_append] at hs
      exact hs.withArguments hword hblank' hargs hblank''
    · refine find_ne_of_loose hs hblank hloose hne hword hend ?_ ?_
      · rw [nextIs_append_blanks hblank']
        rfl
      · rw [followedByMethodAndPath_append_blanks hblank']
        rfl

theorem headRead_of_annotation
    (h : Derives grammar true (.rule .annotationSpec) ⟨.none, .free⟩ c nodes e) (hc : c.Bare)
    (hnames : ∀ t ∈ nodes, ∀ u ∈ t.nodes, u.rule = .annotationName → u.behind.head?.any isWordChar = false)
    (hends : EndsAnnotation (skipTrivia e).rest) (hs : InHead text s c.rest) :
    HeadRead text nodes e := by
  obtain ⟨inner, hspec, rfl⟩ := h.of_rule
  have hnode : keepNodes (grammar.definition .annotationSpec).kind .annotationSpec ⟨.none, .free⟩ c e.offset
      inner = [.node .annotationSpec c e.offset inner] := rfl
  rw [hnode] at hnames ⊢
  -- mark, blanks, name
  have hspec : Derives grammar true (grammar.definition .annotationSpec).pattern ⟨.none, .free⟩ c inner e :=
    hspec
  obtain ⟨_, a, behind, rfl, hmark, htail⟩ := hspec.of_andThen
  obtain ⟨_, b, more, rfl, hrule, hargs⟩ := htail.of_andThen
  obtain ⟨inside, hname, rfl⟩ := hrule.of_rule
  cases hmark with
  | literal hmark =>
  have hmark : c.Passes ['@'] a := Cursor.passes_of_strip? hmark
  obtain ⟨bs, hbs, hblank, -, ha⟩ := (hc.passes hmark (by decide)).exists_blanks
  have hname : Derives grammar false .name ⟨.none, .sealed⟩ (skipTrivia a) inside b := hname
  obtain ⟨name, hpass, hstart, hword⟩ := hname.of_name (by decide)
  have hne : name ≠ [] := fun hnil => by
    rw [hnil] at hstart
    cases hstart
  have hend : b.rest.head?.any isWordChar = false := by
    rw [← ParseTree.behind_of_passes (r := .annotationName) (l := inside) hpass]
    refine hnames _ (List.mem_singleton_self _) _ (ParseTree.nodes_child ?_ (ParseTree.mem_nodes_self _)) rfl
    exact List.mem_append_right _ (List.mem_append_left _ (List.mem_singleton_self _))
  have hhead : c.Passes ('@' :: (bs ++ name)) b := hmark.append (hbs.append hpass)
  have hb : b.Bare := ha.passes hpass fun x hx => ne_of_isWordChar x _ (hword x hx) rfl
  have hreach : b.Reaches e := (reaches_gap true _ b).trans hargs.reaches
  have hread := reads_arguments hs hhead hb hblank hne hword hend hargs hends
  have htight (inner : List (ParseTree Rule)) :
      IsTight (.node .annotationSpec c e.offset inner) ↔ bs = [] := isTight_iff hhead hreach hblank hstart
  refine ⟨fun h => hread.1 ((htight _).1 (h _ (List.mem_singleton_self _))), fun a ha hnot => ?_⟩
  rw [List.mem_singleton.1 ha, htight] at hnot
  exact hread.2 hnot

theorem headRead_of_annotations
    (h : Derives grammar true (.many (.rule .annotationSpec)) ⟨.none, .free⟩ c nodes e) (hc : c.Bare)
    (hsolid : skipTrivia c = c)
    (hnames : ∀ t ∈ nodes, ∀ u ∈ t.nodes, u.rule = .annotationName → u.behind.head?.any isWordChar = false)
    (hends : EndsAnnotation (skipTrivia e).rest) (hs : InHead text s c.rest) :
    HeadRead text nodes e := by
  generalize hp : Pattern.many (.rule Rule.annotationSpec) = p at h
  generalize hm : (⟨.none, .free⟩ : Mode) = mode at h
  generalize hsep : true = sep at h
  induction h generalizing s with
  | none => exact ⟨fun _ => ⟨s, by rwa [hsolid]⟩, fun _ ha => absurd ha List.not_mem_nil⟩
  | once h _ =>
    cases hp
    subst hm hsep
    exact headRead_of_annotation h hc hnames hends hs
  | @again sep p mode c d e nodes more h1 h2 ih1 _ =>
    cases hp
    subst hm hsep
    -- behind the annotations before the last one stands its mark
    have hmark : EndsAnnotation (skipTrivia d).rest := by
      obtain ⟨ys, hys⟩ := h2.begins ['@'] 1 (by decide)
      rw [show (skipTrivia d).rest = '@' :: ys from hys.symm]
      exact endsAnnotation_mark ys
    have before := ih1 hc hsolid (fun t ht => hnames t (List.mem_append_left more ht)) hmark hs rfl rfl rfl
    obtain ⟨-, -, -, -, hbare⟩ := (bare_of_derives h1 hc (by decide)).exists_blanks
    have last (htight : ∀ a ∈ nodes, IsTight a) : HeadRead text more e := by
      obtain ⟨u, hu⟩ := before.tight htight
      exact headRead_of_annotation h2 hbare (fun t ht => hnames t (List.mem_append_right nodes ht)) hends hu
    refine ⟨fun htight => ?_, fun a ha hloose => ?_⟩
    · exact (last fun a ha => htight a (List.mem_append_left more ha)).tight fun a ha =>
        htight a (List.mem_append_right nodes ha)
    · by_cases hnodes : ∀ a ∈ nodes, IsTight a
      · have ha : a ∈ more := (List.mem_append.1 ha).resolve_left fun ha => hloose (hnodes a ha)
        exact (last hnodes).loose a ha hloose
      · simp only [not_forall] at hnodes
        obtain ⟨b, hb, hnot⟩ := hnodes
        exact before.loose b hb hnot
  | _ => cases hp

/-! ## Declarations -/

theorem exists_letters (h : Derives grammar true (.rule .httpMethod) ⟨.none, .free⟩ c nodes d) :
    ∃ k, c.Passes k d ∧ k ≠ [] ∧ ∀ x ∈ k, x.isAlpha := by
  obtain ⟨inner, hmethod, -⟩ := h.of_rule
  obtain ⟨-, k, hk, hletters⟩ := hmethod.reads (fun cls => cls = .letter) Char.isAlpha
    (fun cls x hcls hx => by rwa [show cls = .letter from of_decide_eq_true hcls] at hx) (by decide) 0 rfl
  refine ⟨k, hk, fun hnil => ?_, hletters⟩
  subst hnil
  obtain ⟨-, -, -, -, hlt⟩ := h.exists_first [] 2 rfl
  rw [hk.eq_of_nil] at hlt
  exact Nat.lt_irrefl _ hlt

/-- Behind the keyword stand a method and a path, and then a body with its braces. -/
theorem exists_method_and_path {body : Pattern Rule} (h : Derives grammar true
    (.all [.rule .httpMethod, lex .string, braces body]) ⟨.none, .free⟩ (skipTrivia c) nodes e)
    (hc : c.Bare) (hbody : body.bracesAfter closes 0 = some 0) :
    ∃ k, c.Passes k e ∧ followedByMethodAndPath k ∧ BracesTo 0 k := by
  have blank {bs tail : List Char} (hbs : ∀ x ∈ bs, isBlank x) (ht : BracesTo 0 tail) :
      BracesTo 0 (bs ++ tail) := .marks (fun x hx => isMark_of_isBlank (hbs x hx)) ht
  obtain ⟨_, a, _, -, hmethod, h⟩ := h.of_andThen
  obtain ⟨_, b, _, -, hpath, hbody⟩ := h.of_andThen
  obtain ⟨bs, hbs, hblank, -, hc⟩ := hc.exists_blanks
  obtain ⟨method, hpass, hne, hletters⟩ := exists_letters hmethod
  have hword : ∀ x ∈ method, isWordChar x := fun x hx => isWordChar_of_isAlpha x (hletters x hx)
  have ha : a.Bare := hc.passes hpass fun x hx => ne_of_isWordChar x _ (hword x hx) rfl
  obtain ⟨bs', hbs', hblank', -, ha⟩ := ha.exists_blanks
  obtain ⟨path, -, -, hquote, hquoted, -⟩ := quotedTail_of_string (fun _ => rfl) hpath
  obtain ⟨bs'', hbs'', hblank'', -, hb⟩ := (ha.quoted hquote hquoted).exists_blanks
  obtain ⟨k, hk, hbraces, -⟩ := Derives.exists_bracesTo (fun _ => rfl) closes_cases hbody hb ‹_›
  refine ⟨bs ++ (method ++ (bs' ++ ('"' :: path ++ (bs'' ++ '{' :: k)))), ?_, ?_, ?_⟩
  · exact hbs.append (hpass.append (hbs'.append (hquote.append (hbs''.append hk))))
  · exact followedByMethodAndPath_of_method hblank hne hletters hblank' _
  · refine blank hblank (.marks (fun x hx => isMark_of_isWordChar (hword x hx)) ?_)
    exact blank hblank' (.skip (.quoted hquoted) (blank hblank'' hbraces))

/-- The keyword and what stands behind it end the annotations. -/
theorem endsAnnotation_keyword {after : List Char} (hend : after.head?.any isWordChar = false)
    (hpath : followedByMethodAndPath after) : EndsAnnotation ("endpoint".toList ++ after) where
  arguments := rfl
  brace := rfl
  path := by
    have hletters : ∀ x ∈ "endpoint".toList, x.isAlpha := by decide
    have hdrop : ("endpoint".toList ++ after).dropWhile Char.isAlpha = after := by
      rw [List.dropWhile_append_of_pos hletters]
      cases after with
      | nil => rfl
      | cons x after =>
        refine List.dropWhile_cons_of_neg fun hx => ?_
        rw [List.head?_cons, Option.any_some, isWordChar_of_isAlpha x hx] at hend
        cases hend
    have hskip : skipBlanks ("endpoint".toList ++ after) = "endpoint".toList ++ after := rfl
    have hquote : nextIs '"' after = false := by
      rw [followedByMethodAndPath, Bool.and_eq_true] at hpath
      refine decide_eq_false fun hquote => ?_
      rw [hquote] at hpath
      cases hpath.1
    unfold followedByMethodAndPath
    dsimp only
    rw [hskip, hdrop, hquote, Bool.and_false]

/-- The annotations of an endpoint and its keyword are the nodes of its head. -/
theorem childrenOf_head (start : Cursor) (stop : Nat) {annotations keyword behind : List (ParseTree Rule)}
    {c₁ c₂ c₃ d₁ d₂ d₃ : Cursor} {q : Pattern Rule}
    (hmany : Derives grammar true (.many (.rule .annotationSpec)) ⟨.none, .free⟩ c₁ annotations d₁)
    (hkeyword : Derives grammar true (kw .endpoint) ⟨.none, .free⟩ c₂ keyword d₂)
    (hrest : Derives grammar true q ⟨.none, .free⟩ c₃ behind d₃)
    (hannotations : q.leavesOnly (grammar.leavesOnly (· ≠ .annotationSpec) 1))
    (hwords : q.leavesOnly (grammar.leavesOnly (· ≠ .word .endpoint) 1)) :
    (ParseTree.node .endpointDecl start stop (annotations ++ (keyword ++ behind))).childrenOf .annotationSpec =
        annotations ∧
      (ParseTree.node .endpointDecl start stop (annotations ++ (keyword ++ behind))).childrenOf
        (.word .endpoint) = keyword := by
  have keeps : Mode.Keeps ⟨.none, .free⟩ := ⟨rfl, by decide⟩
  unfold ParseTree.childrenOf
  rw [ParseTree.children, List.filter_append, List.filter_append, List.filter_append, List.filter_append]
  constructor
  · rw [hmany.filter_rule keeps 1 (by decide), hkeyword.filter_other keeps 1 (by decide),
      hrest.filter_other keeps 1 hannotations, List.append_nil, List.append_nil]
  · rw [hmany.filter_other keeps 1 (by decide), hkeyword.filter_rule keeps 1 (by decide),
      hrest.filter_other keeps 1 hwords, List.append_nil, List.nil_append]

/-- The scanner in a head has read what stands before the cursor. -/
theorem takeBytes_of_inHead (hs : InHead text s c.rest) (hc : (Cursor.start text).Reaches c) :
    takeBytes c.offset text = s.before.reverse := by
  obtain ⟨htext, -⟩ := hs.reads.before_start
  obtain ⟨k, hk, hoffset⟩ := hc
  have hbefore : k = s.before.reverse := List.append_cancel_right (hk.symm.trans htext)
  have hlength : c.offset = byteLength k := by simpa [Cursor.start] using hoffset
  rw [hlength, show text = k ++ c.rest from hk, takeBytes_append, hbefore]

/-- An endpoint that the grammar derives is one region if and only if its head fits. -/
theorem find_iff_of_declaration {text : List Char}
    (h : Derives grammar true (grammar.definition .endpointDecl).pattern ⟨.none, .free⟩ (.start text) nodes e)
    (hfree : commentFree .code text) (hfirst : ∀ x, text.head? = some x → isBlank x = false)
    (he : e.rest = [])
    (hnames : ∀ t ∈ nodes, ∀ u ∈ t.nodes, u.rule = .annotationName → u.behind.head?.any isWordChar = false) :
    find text = .ok [⟨.endpoint, 0, byteLength text⟩] ↔
      HeadFits text (.node .endpointDecl (.start text) e.offset nodes) := by
  have hbare : (Cursor.start text).Bare := hfree
  have hsolid : skipTrivia (.start text) = .start text := hbare.skipTrivia_eq hfirst
  obtain ⟨annotations, d, _, rfl, hmany, hdecl⟩ := h.of_andThen
  obtain ⟨keyword, f, behind, rfl, hkeyword, hrest⟩ := hdecl.of_andThen
  obtain ⟨hannotations, hwords⟩ := childrenOf_head (.start text) e.offset hmany hkeyword
    hrest (by decide) (by decide)
  obtain ⟨inside, hword, rfl⟩ := hkeyword.of_rule
  have hword : Derives grammar false (Pattern.word "endpoint") ⟨.none, .sealed⟩ (skipTrivia d) inside f := hword
  obtain ⟨hword, hstop⟩ := hword.of_word (by decide)
  -- the text ahead of the keyword
  obtain ⟨-, -, -, -, hd⟩ := (bare_of_derives hmany hbare (by decide)).exists_blanks
  have hf : f.Bare := hd.passes hword (by decide)
  obtain ⟨after, hafter, hpath, hbraces⟩ := exists_method_and_path hrest hf (by decide)
  have hfrest : f.rest = after := by rw [hafter.1, he, List.append_nil]
  have hahead : (skipTrivia d).rest = "endpoint".toList ++ after := by rw [hword.1, hfrest]
  have hend : after.head?.any isWordChar = false := hfrest ▸ hstop.head?_any
  have hread : HeadRead text annotations d := by
    refine headRead_of_annotations hmany hbare hsolid (fun t ht => hnames t (List.mem_append_left _ ht)) ?_
      (.start text)
    rw [hahead]
    exact endsAnnotation_keyword hend hpath
  have hkey {u : Scan} (hu : InHead text u (skipTrivia d).rest) :
      find text = .ok [⟨.endpoint, 0, byteLength text⟩] ↔
        followsBindingWord (takeBytes (skipTrivia d).offset text).reverse = false := by
    rw [takeBytes_of_inHead hu (hmany.reaches.trans (reaches_skipTrivia d)), List.reverse_reverse]
    rw [hahead] at hu
    have hmarks : ∀ x ∈ "ndpoint".toList, isMark x := by decide
    exact InHead.find_iff_of_keyword (c := 'e') hu rfl hend hpath (.marks hmarks hbraces)
  constructor
  · intro hfind
    have htight : ∀ a ∈ annotations, IsTight a := by
      intro a ha
      by_contra hloose
      exact hread.loose a ha hloose _ hfind
    obtain ⟨u, hu⟩ := hread.tight htight
    refine ⟨by rwa [hannotations], fun w hw => ?_⟩
    rw [hwords] at hw
    rw [List.mem_singleton.1 hw]
    exact (hkey hu).1 hfind
  · rintro ⟨htight, hbinding⟩
    rw [hannotations] at htight
    rw [hwords] at hbinding
    obtain ⟨u, hu⟩ := hread.tight htight
    have hkeyword := hbinding _ (List.mem_singleton_self _)
    exact (hkey hu).2 hkeyword

end

/-- A text without comments that is an endpoint with its annotations is one region if and only
if its head fits. -/
theorem find_iff_of_parse {text : List Char} {trees : List (ParseTree Rule)}
    (h : grammar.parse .endpointFile text = .ok trees) (hfree : commentFree .code text)
    (hfirst : ∀ x, text.head? = some x → isBlank x = false) (hlast : text.getLast? = some '}') :
    find text = .ok [⟨.endpoint, 0, byteLength text⟩] ↔
      ∀ t ∈ trees, ∀ decl ∈ t.childrenOf .endpointDecl, HeadFits text decl := by
  have hnames : ∀ t ∈ trees, ∀ u ∈ t.nodes, u.rule = .annotationName →
      u.behind.head?.any isWordChar = false := behind_of_parse rfl h
  have hbare : (Cursor.start text).Bare := hfree
  have keeps : Mode.Keeps ⟨.none, .free⟩ := ⟨rfl, by decide⟩
  obtain ⟨d, hd⟩ := derives_of_parse .endpointFile text trees h
  obtain ⟨inner, hfile, rfl⟩ := hd.of_rule
  have hfile : Derives grammar true (grammar.definition .endpointFile).pattern ⟨.none, .free⟩
      (.start text) inner d := hfile
  obtain ⟨_, a, rest, rfl, hstart, hfile⟩ := hfile.of_andThen
  obtain ⟨decls, e, last, rfl, hdecl, hend⟩ := hfile.of_andThen
  cases hstart with
  | textStart =>
  have hgap : gap true ⟨.none, .free⟩ (Cursor.start text) = .start text := hbare.skipTrivia_eq hfirst
  rw [hgap] at hdecl
  have hchildren : (ParseTree.node Rule.endpointFile (.start text) d.offset
      ([] ++ (decls ++ last))).childrenOf .endpointDecl = decls := by
    unfold ParseTree.childrenOf
    rw [ParseTree.children, List.nil_append, List.filter_append, hdecl.filter_rule keeps 1 (by decide),
      hend.filter_other keeps 1 (by decide), List.append_nil]
  have hnil : e.rest = [] := Derives.rest_eq_nil (fun _ => rfl) hend
    (bare_of_derives hdecl hbare (by decide)) hdecl.reaches hlast (by decide)
  obtain ⟨nodes, hpattern, rfl⟩ := hdecl.of_rule
  have hinside : ∀ t ∈ nodes, ∀ u ∈ t.nodes, u.rule = .annotationName →
      u.behind.head?.any isWordChar = false := by
    intro t ht u hu
    have hdeclNode : t ∈ (ParseTree.node Rule.endpointDecl (.start text) e.offset nodes).children := ht
    refine hnames _ (List.mem_singleton_self _) u (ParseTree.nodes_child ?_ (ParseTree.nodes_child hdeclNode hu))
    exact List.mem_append_right _ (List.mem_append_left _ (List.mem_singleton_self _))
  have hone : (ParseTree.node Rule.endpointFile (.start text) d.offset
      ([.node .endpointDecl (.start text) e.offset nodes] ++ last)).childrenOf .endpointDecl =
        [.node .endpointDecl (.start text) e.offset nodes] := hchildren
  rw [find_iff_of_declaration hpattern hfree hfirst hnil hinside]
  refine ⟨fun hfits t ht decl hdecl => ?_, fun hall => hall _ (List.mem_singleton_self _) _ ?_⟩
  · obtain rfl := List.mem_singleton.1 ht
    have hdecl : decl ∈ [ParseTree.node Rule.endpointDecl (.start text) e.offset nodes] := hone ▸ hdecl
    rw [List.mem_singleton.1 hdecl]
    exact hfits
  · exact hone ▸ List.mem_singleton_self _

end ServiceLang.EndpointGrammar
