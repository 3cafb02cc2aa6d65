import ServiceLang.Lower.Endpoint
import ServiceLang.Lower.Flow
import ServiceLang.Proofs.Grammar.Lexeme
import ServiceLang.Proofs.Lower.Place
import ServiceLang.Proofs.Region.Declared

/-!
Declarations around a string literal.

An endpoint with a literal for its path, and a workflow with a literal for the input of a
step, are each one region for the scanner, whatever the literal holds.  The grammars of
endpoints and flows read them, and lowering gives the value of the literal
(`EndpointGrammar.exists_parse_endpointText`, `FlowGrammar.exists_parse_inputText`).
-/

namespace ServiceLang

open Peg Region

namespace EndpointGrammar

/-! ## The path of an endpoint -/

def endpointText (path : List Char) : List Char := "endpoint GET ".toList ++ (path ++ " \x7b\x7d".toList)

section

variable {k : List Char} (hk : QuotedTail false k)
include hk

theorem find_endpointText :
    find (endpointText ('"' :: k)) = .ok [⟨.endpoint, 0, byteLength (endpointText ('"' :: k))⟩] := by
  have opens : OpensRegion .start 'e' ("ndpoint GET ".toList ++ ('"' :: k ++ " \x7b\x7d".toList)) .endpoint :=
    ⟨rfl, rfl, rfl, rfl⟩
  have braces : BracesTo 0 ("ndpoint GET ".toList ++ ('"' :: k ++ " \x7b\x7d".toList)) :=
    .marks (by decide) (.skip (.quoted hk) (.char (isPlain_of_isBlank _ _ rfl) (.brace .last)))
  exact find_of_opensRegion (.done .start _) rfl rfl opens braces

/-- The grammar reads the endpoint, with the value of the literal for its path. -/
theorem exists_parse_endpointText :
    ∃ trees, grammar.parse .endpointFile (endpointText ('"' :: k)) = .ok trees ∧
      ∀ place, ∃ e, lowerRegion place trees = .ok e ∧ e.path = Text.literalValue ('"' :: k) := by
  have hsplit : endpointText ('"' :: k) = "endpoint".toList ++
      (' ' :: ("GET".toList ++ (' ' :: ('"' :: k ++ [' ', '\x7b', '\x7d'])))) := rfl
  generalize endpointText ('"' :: k) = text at hsplit ⊢
  obtain ⟨fuel, hfuel⟩ := grammar.exists_fuel (n := 4) (by decide) text.length
  have hstart : skipTrivia (.start text) = .start text :=
    skipTrivia_solid (x := 'e') (by rw [hsplit]; rfl) rfl (by decide)
  have hc := Cursor.start_passes hsplit
  generalize hend : Cursor.mk (byteLength text) [] = f at hc
  have hf : f.rest = [] := hend ▸ rfl
  obtain ⟨c₁, hword, hc⟩ := hc.exists_append
  obtain ⟨c₂, hblank₁, hc⟩ := hc.exists_cons
  obtain ⟨c₃, hmethod, hc⟩ := hc.exists_append
  obtain ⟨c₄, hblank₂, hc⟩ := hc.exists_cons
  obtain ⟨c₅, hpath, hc⟩ := hc.exists_append
  obtain ⟨c₆, hblank₃, hc⟩ := hc.exists_cons
  obtain ⟨c₇, hopen, hclose⟩ := hc.exists_cons
  have annotations : Matches (matchRule grammar (fuel + 2)) true (.many (.rule .annotationSpec))
      ⟨.none, .free⟩ (.start text) [] (.start text) :=
    .none (misses_of_head ['e'] 3 (by rw [hsplit]; rfl) List.mem_cons_self (by decide))
  have keyword : Matches (matchRule grammar (fuel + 2)) true (kw .endpoint) ⟨.none, .free⟩ (.start text)
      [.node (.word .endpoint) (.start text) c₁.offset []] c₁ :=
    matches_wordRule rfl hword (by rw [hblank₁.1]; rfl)
  have method : Matches (matchRule grammar (fuel + 2)) true (.rule .httpMethod) ⟨.none, .free⟩ c₂
      [.node .httpMethod c₂ c₃.offset []] c₃ := by
    exact .token rfl ((ReadsOne.oneOf .letter).some nofun hmethod (by decide) (by decide)
      (.of_rest hblank₂.1 rfl))
  obtain ⟨inner, path⟩ : ∃ inner, Matches (matchRule grammar (fuel + 2)) true (lex .string) ⟨.none, .free⟩ c₄
      [.node (.lexeme .string) c₄ c₅.offset inner] c₅ := matches_string (fun _ => rfl) hk hpath
  have hbrace : c₇.rest.head? = some '\x7d' := by rw [hclose.1]; rfl
  have behind : skipTrivia c₇ = c₇ := skipTrivia_solid hbrace rfl (by decide)
  have body : Matches (matchRule grammar (fuel + 2)) true (braces (.many (.choice ([.descriptionProp,
      .handlerProp, .middlewareProp, .roleProp, .requestProp, .responseProp, .logicBlock].map .rule))))
      ⟨.none, .free⟩ c₆ [] f :=
    Matches.gapped (a := []) (.literal hopen) behind (Matches.gapped (a := [])
      (.none (misses_of_head ['\x7d'] 3 hbrace List.mem_cons_self (by decide))) behind
      (.literal hclose))
  have declaration := Matches.spaced (g := grammar) (r := .endpointDecl) rfl
    (annotations.gapped hstart (keyword.gapped (skipTrivia_blank hblank₁ hmethod rfl (by decide))
      (method.gapped (skipTrivia_blank hblank₂ hpath rfl (by decide))
        (path.gapped (skipTrivia_blank hblank₃ hopen rfl (by decide)) body))))
  have ending : Matches (matchRule grammar (fuel + 3)) true (lex .endOfInput) ⟨.none, .free⟩ f
      [.node (.lexeme .endOfInput) f f.offset []] f := .spaced rfl (.textEnd hf)
  have file := Matches.spaced (g := grammar) (r := .endpointFile) rfl
    (Matches.gapped (a := []) (.textStart rfl) hstart (declaration.gapped (skipTrivia_of_nil hf) ending))
  rw [← hfuel] at file
  refine ⟨_, file.parse_eq, fun place => ⟨_, rfl, ?_⟩⟩
  exact congrArg Text.literalValue (text_node hpath)

end

theorem path_of_addPart {place : Nat → Position} {e e' : Endpoint} {t : ParseTree Rule}
    (h : addPart place e t = .ok e') :
    e'.path = if t.rule = .lexeme .string then Text.literalValue t.text else e.path := by
  by_cases hstring : t.rule = .lexeme .string
  · unfold addPart at h
    rw [hstring] at h
    cases h
    rw [if_pos hstring]
  · rw [if_neg hstring]
    unfold addPart at h
    split at h
    all_goals first
      | (cases h; rfl)
      | (obtain ⟨r, -, rfl⟩ := map_eq_ok h; rfl)
      | exact absurd ‹_› hstring

/-- The path of an endpoint is the value of its last literal. -/
theorem path_of_parts {place : Nat → Position} (ts : List (ParseTree Rule)) {e e' : Endpoint}
    (h : ts.foldlM (addPart place) e = .ok e') :
    e'.path = ((ts.filter (·.rule = .lexeme .string)).getLast?.map
      fun u => Text.literalValue u.text).getD e.path := by
  induction ts generalizing e with
  | nil =>
    cases h
    rfl
  | cons t ts ih =>
    rw [List.foldlM_cons] at h
    obtain ⟨e₁, hpart, hrest⟩ := Lowered.bind_eq_ok h
    rw [ih hrest, path_of_addPart hpart]
    by_cases hstring : t.rule = .lexeme .string
    · rw [List.filter_cons_of_pos (by simpa using hstring), if_pos hstring, List.getLast?_cons]
      cases (ts.filter (·.rule = .lexeme .string)).getLast? <;> rfl
    · rw [List.filter_cons_of_neg (by simpa using hstring), if_neg hstring]

theorem path_of_lowerEndpoint {place : Nat → Position} {t u : ParseTree Rule} {e : Endpoint}
    (hu : t.childrenOf (.lexeme .string) = [u]) (h : lowerEndpoint place t = .ok e) :
    e.path = Text.literalValue u.text := by
  have hlast : t.children.filter (·.rule = .lexeme .string) = [u] := hu
  rw [path_of_parts _ h, hlast]
  rfl

end EndpointGrammar

namespace FlowGrammar

/-! ## An input of a workflow -/

/-- A workflow with one step that has this input. -/
def inputText (value : List Char) : List Char :=
  "workflow w \x7b step s \x7b input \x7b k: ".toList ++ (value ++ " \x7d \x7d \x7d".toList)

def inputBlockText (value : List Char) : List Char :=
  "input".toList ++ (" \x7b k: ".toList ++ (value ++ " \x7d".toList))

def stepText (value : List Char) : List Char :=
  ("step".toList ++ [' ', 's', ' ']) ++ (['\x7b', ' '] ++ (inputBlockText value ++ [' ', '\x7d']))

theorem inputText_eq (value : List Char) : inputText value =
    ("workflow".toList ++ [' ', 'w', ' ']) ++ (['\x7b', ' '] ++ (stepText value ++ [' ', '\x7d'])) := by
  unfold stepText inputBlockText
  simp only [List.append_assoc]
  rfl

theorem find_inputText {k : List Char} (hk : QuotedTail false k) :
    find (inputText ('"' :: k)) = .ok [⟨.flow, 0, byteLength (inputText ('"' :: k))⟩] := by
  have opens : OpensRegion .start 'w' ("orkflow w \x7b step s \x7b input \x7b k: ".toList ++
      ('"' :: k ++ " \x7d \x7d \x7d".toList)) .flow := ⟨rfl, rfl, rfl, rfl⟩
  have blank {d : Nat} {cs : List Char} (h : BracesTo d cs) : BracesTo d (' ' :: cs) :=
    .char (isPlain_of_isBlank _ _ rfl) h
  have closes : BracesTo 3 " \x7d \x7d \x7d".toList := blank (.close (blank (.close (blank .last))))
  have braces : BracesTo 0 ("orkflow w \x7b step s \x7b input \x7b k: ".toList ++
      ('"' :: k ++ " \x7d \x7d \x7d".toList)) :=
    BracesTo.marks (k := "orkflow w ".toList) (by decide)
      (.brace (.marks (k := " step s ".toList) (by decide)
        (.brace (.marks (k := " input ".toList) (by decide)
          (.brace (.marks (k := " k: ".toList) (by decide) (.skip (.quoted hk) closes)))))))
  exact find_of_opensRegion (.done .start _) rfl rfl opens braces

section

variable (fuel : Nat) {p : Pattern Rule} {c e f g : Cursor} {nodes : List (ParseTree Rule)}

/-- A body in braces with one member, blanks around it. -/
theorem matches_body (hp : p.avoids (grammar.avoids ['\x7d'] 3) ['\x7d'] true)
    (hopen : c.Passes ['\x7b', ' '] e) (he : skipTrivia e = e)
    (h : Matches (matchRule grammar fuel) true p ⟨.none, .free⟩ e nodes f)
    (hclose : (skipTrivia f).Passes ['\x7d'] g) :
    Matches (matchRule grammar fuel) true (braces (.many p)) ⟨.none, .free⟩ c nodes g := by
  obtain ⟨d, hopen, hblank⟩ := hopen.exists_cons
  have hmiss : Misses (matchRule grammar fuel) true p ⟨.none, .free⟩ (skipTrivia f) :=
    misses_of_head ['\x7d'] 3 (by rw [hclose.1]; rfl) List.mem_cons_self hp
  have whole : Matches (matchRule grammar fuel) true (braces (.many p)) ⟨.none, .free⟩ c
      ([] ++ ((nodes ++ []) ++ [])) g :=
    Matches.gapped (.literal hopen) ((skipTrivia_of_blank hblank).trans he)
      (Matches.gapped (.many h (.done hmiss)) rfl (.literal hclose))
  rwa [List.nil_append, List.append_nil, List.append_nil] at whole

/-- A keyword, a name of one letter and a body with one member. -/
theorem matches_named {P : ParseTree Rule → Prop} {w : Word} {x y : Char} {k : List Char}
    (hp : p.avoids (grammar.avoids ['\x7d'] 3) ['\x7d'] true) (hx : x = 'w' ∨ x = 's')
    (hy : isBlank y = false ∧ y ≠ '/')
    (hc : c.Passes ((w.text.toList ++ [' ', x, ' ']) ++ (['\x7b', ' '] ++ ((y :: k) ++ [' ', '\x7d']))) g)
    (h : ∀ e f, e.Passes (y :: k) f →
      ∃ node, Matches (matchRule grammar (fuel + 2)) true p ⟨.none, .free⟩ e [node] f ∧ P node) :
    ∃ keyword name node, Matches (matchRule grammar (fuel + 2)) true
      (.all [kw w, lex .ident, braces (.many p)]) ⟨.none, .free⟩ c [keyword, name, node] g ∧
        keyword.rule = .word w ∧ name.rule = .lexeme .ident ∧ P node := by
  obtain ⟨c₃, hhead, hc⟩ := hc.exists_append
  obtain ⟨c₁, hword, hhead⟩ := hhead.exists_append
  obtain ⟨c₂, hblank, hhead⟩ := hhead.exists_cons
  obtain ⟨d, hname, hblank'⟩ := hhead.exists_cons
  obtain ⟨e, hopen, hc⟩ := hc.exists_append
  obtain ⟨f, hmember, hclose⟩ := hc.exists_append
  obtain ⟨f', hblank'', hclose⟩ := hclose.exists_cons
  obtain ⟨node, member, hnode⟩ := h e f hmember
  have letter : isBlank x = false ∧ x ≠ '/' ∧ IsName [x] := by
    rcases hx with rfl | rfl <;> exact ⟨rfl, by decide, rfl, by decide, by decide⟩
  have body := matches_body _ hp hopen (skipTrivia_solid (x := y) (by rw [hmember.1]; rfl) hy.1 hy.2) member
    (by rw [skipTrivia_blank hblank'' hclose rfl (by decide)]; exact hclose)
  have keyword : Matches (matchRule grammar (fuel + 2)) true (kw w) ⟨.none, .free⟩ c
      [.node (.word w) c c₁.offset []] c₁ := matches_wordRule rfl hword (by rw [hblank.1]; rfl)
  have name : Matches (matchRule grammar (fuel + 2)) true (lex .ident) ⟨.none, .free⟩ c₂
      [.node (.lexeme .ident) c₂ d.offset []] d := by
    exact matches_ident (fun _ => rfl) letter.2.2 hname (.of_rest hblank'.1 rfl)
  exact ⟨_, _, _, keyword.gapped (skipTrivia_blank hblank hname letter.1 letter.2.1)
    (name.gapped (skipTrivia_blank hblank' hopen rfl (by decide)) body), rfl, rfl, hnode⟩

/-- The keyword of a declaration adds nothing to what its name and its member make. -/
theorem foldlM_named {α : Type} {f : α → ParseTree Rule → Lowered α} {a b c : α}
    {keyword name node : ParseTree Rule} (hkeyword : f a keyword = .ok a) (hname : f a name = .ok b)
    (hnode : f b node = .ok c) : [keyword, name, node].foldlM f a = .ok c := by
  rw [List.foldlM_cons, hkeyword]
  show List.foldlM f a [name, node] = _
  rw [List.foldlM_cons, hname]
  show List.foldlM f b [node] = _
  rw [List.foldlM_cons, hnode]
  rfl

theorem matches_inputBlock {k : List Char} (hk : QuotedTail false k)
    (hc : c.Passes (inputBlockText ('"' :: k)) g) :
    ∃ node, Matches (matchRule grammar (fuel + 5)) true (.rule .inputBlock) ⟨.none, .free⟩ c [node] g ∧
      node.rule = .inputBlock ∧ ∀ place, ∃ pos pos', (node.childrenOf .inputEntry).mapM (lowerInput place) =
        .ok [⟨pos, "k", .string pos' (Text.literalValue ('"' :: k))⟩] := by
  obtain ⟨c₁, hword, hc⟩ := hc.exists_append
  obtain ⟨c₂, hblank, hc⟩ := hc.exists_cons (x := ' ')
    (k := ['\x7b', ' '] ++ ('k' :: ':' :: ' ' :: ('"' :: k ++ [' ', '\x7d'])))
  obtain ⟨c₃, hopen, hc⟩ := hc.exists_append
  obtain ⟨c₄, hkey, hc⟩ := hc.exists_cons
  obtain ⟨c₅, hcolon, hc⟩ := hc.exists_cons
  obtain ⟨c₆, hblank', hc⟩ := hc.exists_cons
  obtain ⟨c₇, hvalue, hclose⟩ := hc.exists_append
  obtain ⟨c₈, hblank'', hclose⟩ := hclose.exists_cons
  have key : Matches (matchRule grammar (fuel + 3)) true (lex .ident) ⟨.none, .free⟩ c₃
      [.node (.lexeme .ident) c₃ c₄.offset []] c₄ := by
    exact matches_ident (fun _ => rfl) ⟨rfl, by decide, by decide⟩ hkey (.of_rest hcolon.1 rfl)
  obtain ⟨inner, literal⟩ : ∃ inner, Matches (matchRule grammar (fuel + 2)) true (lex .string) ⟨.none, .free⟩ c₆
      [.node (.lexeme .string) c₆ c₇.offset inner] c₇ := matches_string (fun _ => rfl) hk hvalue
  have value : Matches (matchRule grammar (fuel + 3)) true (.rule .value) ⟨.none, .free⟩ c₆
      [.node (.lexeme .string) c₆ c₇.offset inner] c₇ :=
    .silent rfl (.first literal)
  have entry := Matches.spaced (g := grammar) (r := .inputEntry) rfl
    (key.gapped (skipTrivia_solid (x := ':') (by rw [hcolon.1]; rfl) rfl (by decide))
      (Matches.gapped (a := []) (.literal hcolon) (skipTrivia_blank hblank' hvalue rfl (by decide)) value))
  have comma : Matches (matchRule grammar (fuel + 4)) true (.optional (.literal ",")) ⟨.none, .free⟩ c₈ [] c₈ :=
    .without (misses_character rfl hclose (by decide))
  have body := matches_body _ (by decide) hopen
    (skipTrivia_solid (x := 'k') (by rw [hkey.1]; rfl) rfl (by decide))
    (entry.gapped (skipTrivia_blank hblank'' hclose rfl (by decide)) comma)
    (by rw [skipTrivia_solid (x := '\x7d') (by rw [hclose.1]; rfl) rfl (by decide)]; exact hclose)
  have word : Matches (matchRule grammar (fuel + 4)) true (kw .input) ⟨.none, .free⟩ c
      [.node (.word .input) c c₁.offset []] c₁ := matches_wordRule rfl hword (by rw [hblank.1]; rfl)
  have block := Matches.spaced (g := grammar) (r := .inputBlock) rfl
    (word.gapped (skipTrivia_blank hblank hopen rfl (by decide)) body)
  refine ⟨_, block, rfl, fun place => ⟨place c₃.offset, place c₆.offset, ?_⟩⟩
  have lowered : lowerInput place (.node .inputEntry c₃ c₇.offset [.node (.lexeme .ident) c₃ c₄.offset [],
      .node (.lexeme .string) c₆ c₇.offset inner]) =
        .ok ⟨place c₃.offset, "k", .string (place c₆.offset) (Text.literalValue ('"' :: k))⟩ := by
    show Except.ok (Property.mk _ (ParseTree.string _) (Expr.string _ (Text.literalValue (ParseTree.text _)))) = _
    rw [text_node hvalue, ParseTree.string, text_node hkey]
    rfl
  show List.mapM (lowerInput place) [.node .inputEntry c₃ c₇.offset [.node (.lexeme .ident) c₃ c₄.offset [],
      .node (.lexeme .string) c₆ c₇.offset inner]] = _
  rw [List.mapM_cons, lowered]
  rfl

/-- The node is lowered to an activity step that has the literal for its one input. -/
def IsStepWith (k : List Char) (node : ParseTree Rule) : Prop :=
  node.rule = .stepDecl ∧ ∀ place, ∃ step pos pos', lowerStep place node = .ok step ∧
    step.kind = .activity ∧ step.branches = [] ∧
    step.input = [⟨pos, "k", .string pos' (Text.literalValue ('"' :: k))⟩]

theorem matches_stepDecl {k : List Char} (hk : QuotedTail false k) (hc : c.Passes (stepText ('"' :: k)) g) :
    ∃ node, Matches (matchRule grammar (fuel + 7)) true (.rule .stepDecl) ⟨.none, .free⟩ c [node] g ∧
      IsStepWith k node := by
  obtain ⟨keyword, name, node, whole, hkeyword, hname, hnode, hlower⟩ := matches_named (fuel + 4)
    (P := fun node => node.rule = .inputBlock ∧ ∀ place, ∃ pos pos',
      (node.childrenOf .inputEntry).mapM (lowerInput place) =
        .ok [⟨pos, "k", .string pos' (Text.literalValue ('"' :: k))⟩])
    (p := .choice ([.descriptionProp, .activityProp, .inputBlock, .timeoutProp, .retryBlock,
      .dependsProp].map .rule)) (w := .step) (by decide) (.inr rfl) (y := 'i')
    (by decide) hc (fun e f he => by
      obtain ⟨node, inputs, hnode⟩ := matches_inputBlock (fuel + 1) hk he
      have others : ∀ q ∈ [Rule.descriptionProp, .activityProp].map Pattern.rule,
          Misses (matchRule grammar (fuel + 6)) true q ⟨.none, .free⟩ e :=
        misses_all_of_head ['i'] 3 (by rw [he.1]; rfl) List.mem_cons_self (by decide)
      exact ⟨node, .choice_of_getElem? 2 rfl others inputs, hnode⟩)
  have declaration := Matches.spaced (g := grammar) (r := .stepDecl) rfl whole
  refine ⟨_, declaration, rfl, fun place => ?_⟩
  obtain ⟨pos, pos', hlower⟩ := hlower place
  have first (s : Step) : addStepPart place s keyword = .ok s := by
    unfold addStepPart
    rw [hkeyword]
  have second (s : Step) : addStepPart place s name = .ok { s with name := name.string } := by
    unfold addStepPart
    rw [hname]
  have third (s : Step) : addStepPart place s node =
      .ok { s with input := s.input ++ [⟨pos, "k", .string pos' (Text.literalValue ('"' :: k))⟩] } := by
    unfold addStepPart
    rw [hnode]
    dsimp only
    rw [hlower]
    rfl
  exact ⟨_, pos, pos', foldlM_named (first _) (second _) (third _), rfl, rfl, rfl⟩

/-- A step is nothing else that may stand in a workflow. -/
theorem matches_flowMember {k : List Char} (hk : QuotedTail false k)
    (hc : c.Passes (stepText ('"' :: k)) g) :
    ∃ node, Matches (matchRule grammar (fuel + 7)) true (.choice ([.descriptionProp, .triggerProp,
        .scheduleProp, .timeoutProp, .concurrencyProp, .retryBlock, .parallelStep, .stepDecl].map .rule))
        ⟨.none, .free⟩ c [node] g ∧ IsStepWith k node := by
  obtain ⟨node, step, hnode⟩ := matches_stepDecl fuel hk hc
  -- only the word tells a schedule from a step
  have schedule : Misses (matchRule grammar (fuel + 7)) true (.rule .scheduleProp) ⟨.none, .free⟩ c := by
    refine .rule (.left (.rule (.left (.literal fun d hd => ?_))))
    have heads := hc.1.symm.trans hd.1
    cases heads
  have others : ∀ q ∈ [Rule.descriptionProp, .triggerProp, .timeoutProp, .concurrencyProp, .retryBlock,
      .parallelStep].map Pattern.rule, Misses (matchRule grammar (fuel + 7)) true q ⟨.none, .free⟩ c :=
    misses_all_of_head ['s'] 3 (by rw [hc.1]; rfl) List.mem_cons_self (by decide)
  refine ⟨node, .choice_of_getElem? 7 rfl (fun q hq => ?_) step, hnode⟩
  rcases List.mem_append.1 (show q ∈ [Rule.descriptionProp, .triggerProp].map Pattern.rule ++
    (.rule .scheduleProp :: [Rule.timeoutProp, .concurrencyProp, .retryBlock, .parallelStep].map
      Pattern.rule) from hq) with hq | hq
  · exact others q (List.mem_append_left _ hq)
  rcases List.mem_cons.1 hq with rfl | hq
  · exact schedule
  · exact others q (List.mem_append_right ([Rule.descriptionProp, .triggerProp].map Pattern.rule) hq)

end

/-- The grammar reads the workflow, with the value of the literal for the input. -/
theorem exists_parse_inputText {k : List Char} (hk : QuotedTail false k) :
    ∃ trees, grammar.parse .workflowFile (inputText ('"' :: k)) = .ok trees ∧
      ∀ place, ∃ flow step pos pos', lowerRegion place trees = .ok (.workflow flow) ∧
        flow.steps = [step] ∧ step.kind = .activity ∧ step.branches = [] ∧
        step.input = [⟨pos, "k", .string pos' (Text.literalValue ('"' :: k))⟩] := by
  have hsplit := inputText_eq ('"' :: k)
  generalize inputText ('"' :: k) = text at hsplit ⊢
  obtain ⟨fuel, hfuel⟩ := grammar.exists_fuel (n := 9) (by decide) text.length
  have hstart : skipTrivia (.start text) = .start text :=
    skipTrivia_solid (x := 'w') (by rw [hsplit]; rfl) rfl (by decide)
  have hc := Cursor.start_passes hsplit
  generalize hend : Cursor.mk (byteLength text) [] = f at hc
  have hf : f.rest = [] := hend ▸ rfl
  obtain ⟨keyword, name, node, whole, hkeyword, hname, hnode, hlower⟩ := matches_named (fuel + 5)
    (P := IsStepWith k) (p := .choice ([.descriptionProp, .triggerProp, .scheduleProp, .timeoutProp,
      .concurrencyProp, .retryBlock, .parallelStep, .stepDecl].map .rule)) (w := .workflow) (by decide) (.inl rfl)
    (y := 's') (by decide) hc fun e f he => matches_flowMember fuel hk he
  have declaration := Matches.spaced (g := grammar) (r := .workflowDecl) rfl whole
  have ending : Matches (matchRule grammar (fuel + 8)) true (lex .endOfInput) ⟨.none, .free⟩ f
      [.node (.lexeme .endOfInput) f f.offset []] f := .spaced rfl (.textEnd hf)
  have file := Matches.spaced (g := grammar) (r := .workflowFile) rfl
    (Matches.gapped (a := []) (.textStart rfl) hstart
      ((Matches.first declaration).gapped (skipTrivia_of_nil hf) ending))
  rw [← hfuel] at file
  refine ⟨_, file.parse_eq, fun place => ?_⟩
  obtain ⟨s, pos, pos', hstep, hfields⟩ := hlower place
  have first (j : Job) : addFlowPart place false j keyword = .ok j := by
    unfold addFlowPart
    rw [hkeyword]
  have second (j : Job) : addFlowPart place false j name = .ok j := by
    unfold addFlowPart
    rw [hname]
  have third (j : Job) : addFlowPart place false j node =
      .ok { j with flow := { j.flow with steps := j.flow.steps ++ [s] } } := by
    unfold addFlowPart
    rw [hnode]
    dsimp only
    rw [hstep]
    rfl
  exact ⟨_, s, pos, pos', congrArg (Except.map fun j : Job => Stmt.workflow j.flow)
    (foldlM_named (first _) (second _) (third ⟨⟨place (Cursor.start text).offset,
      identIn (.node .workflowDecl (.start text) f.offset (keyword :: name :: [node])), none, none, [], none,
      none⟩, none⟩)), rfl, hfields⟩

end FlowGrammar

end ServiceLang
