import ServiceLang.Proofs.Check.LexicalScope
import ServiceLang.Proofs.Check.Relocated

/-!
Declarations in the order in which the checks come upon them.

A finding that cites a position says that something was declared there before.  `Problem.earlier?`
reads the cited declaration off a problem, `Program.introduced` lists all declarations of a program,
pass by pass, and `Reported` asks of a finding that the cited declaration stands in that list in
front of the reported one.  It also asks that `f` leaves both positions in place, so that a suitable
`f` tells where they come from.

For the pass over names and types an invariant of lexical scoping is needed: the symbols of the
innermost frame are built-in functions, which have no valid position, or were introduced before
(`Frames.KnownIn`).  A name that is taken by a built-in function is reported without a position, so
what is cited was introduced (`Program.reported_scopeFindings`).
-/

namespace ServiceLang

/-! ## Declarations -/

/-- What a declaration declares, where a second declaration can be reported.  Symbols of one name are
told apart by no scope here. -/
inductive Subject where
  | name (kind : DeclaredKind) (name : String)
  | symbol (name : String)
  | config
  | schema (name : String)
  | route (route : Route)
  | step (flow : FlowRef) (name : String)
deriving DecidableEq, Repr

/-- A declaration that a check comes upon. -/
structure Introduction where
  subject : Subject
  pos : Position
deriving DecidableEq, Repr

def Symbol.introduction (s : Symbol) : Introduction := ⟨.symbol s.name, s.pos⟩

mutual

/-- The symbols that a statement declares, those in its bodies included. -/
def Stmt.introduced : Stmt → List Introduction
  | .varDecl pos name _ => [⟨.symbol name, pos⟩]
  | .ifStmt _ _ thenBlock none => thenBlock.introduced
  | .ifStmt _ _ thenBlock (some elseBlock) => thenBlock.introduced ++ elseBlock.introduced
  | .forLoop pos loopVar _ body => ⟨.symbol loopVar, pos⟩ :: body.introduced
  | .function pos name params body =>
    ⟨.symbol name, pos⟩ :: ((paramSymbols pos params).map Symbol.introduction ++ body.introduced)
  | .block b => b.introduced
  | _ => []

/-- The symbols that statements declare. -/
def Stmt.introducedAll : List Stmt → List Introduction
  | [] => []
  | s :: ss => s.introduced ++ Stmt.introducedAll ss

/-- The symbols that the statements of a block declare. -/
def Block.introduced : Block → List Introduction
  | .mk _ ss => Stmt.introducedAll ss

end

def Declared.introduction (d : Declared) : Introduction := ⟨.name d.kind d.name, d.pos⟩

def Config.introduction (c : Config) : Introduction := ⟨.config, c.pos⟩

/-- The schema of a declaration in a database block as an introduction. -/
def Placed.introduction? (p : Placed) : Option Introduction :=
  p.schema?.map fun x => ⟨.schema x.2.name, x.2.pos⟩

def Endpoint.introduction (e : Endpoint) : Introduction := ⟨.route e.route, e.pos⟩

def StepName.introduction (flow : FlowRef) (s : StepName) : Introduction := ⟨.step flow s.name, s.pos⟩

/-- The steps and branches of a flow of some kind. -/
def Flow.introduced (kind : FlowKind) (f : Flow) : List Introduction :=
  f.stepNames.map (StepName.introduction ⟨kind, f.name⟩)

namespace Program

/-- The configurations and schemas of a program. -/
def introducedSchemas (p : Program) : List Introduction :=
  p.configs.map Config.introduction ++ p.placed.filterMap Placed.introduction?

/-- The steps of the workflows and then of the jobs in a program. -/
def introducedSteps (p : Program) : List Introduction :=
  p.workflows.flatMap (Flow.introduced .workflow) ++ p.jobs.flatMap fun j => j.flow.introduced .job

/-- All declarations of a program in the order in which the passes process them. -/
def introduced (p : Program) : List Introduction :=
  p.declared.map Declared.introduction ++ Stmt.introducedAll p.statements ++ p.introducedSchemas ++
    p.endpoints.map Endpoint.introduction ++ p.introducedSteps

end Program

namespace Problem

/-- The earlier declaration that a problem cites. -/
def earlier? : Problem → Option Introduction
  | .duplicateName ⟨kind, name, first⟩ => some ⟨.name kind name, first⟩
  | .scope (.redeclared name first) => some ⟨.symbol name, first⟩
  | .schema (.secondConfig first) => some ⟨.config, first⟩
  | .schema (.duplicateSchema ref first) => some ⟨.schema ref.name, first⟩
  | .endpoint (.duplicateRoute route first) => some ⟨.route route, first⟩
  | .flow (.duplicateStep step ref first) => some ⟨.step ref step, first⟩
  | _ => none

/-- The message cites the position of the earlier declaration, and no other one. -/
theorem map_pos_earlier? (problem : Problem) :
    problem.earlier?.map (·.pos) = problem.cited?.map (·.2.1) := by
  cases problem with
  | duplicateName | wiring => rfl
  | scope problem | schema problem | endpoint problem | flow problem => cases problem <;> rfl

end Problem

/-- The finding is at a position that `f` leaves in place, and so is the earlier declaration that it
cites, which stands among the declarations in front of the reported one. -/
structure Reported (f : Position → Position) (ds : List Introduction) (x : Finding Problem) : Prop where
  pos_eq : f x.pos = x.pos
  earlier : ∀ d, x.problem.earlier? = some d →
    f d.pos = d.pos ∧ [d, ⟨d.subject, x.pos⟩].Sublist ds

namespace Reported

variable {f : Position → Position} {ds ds' : List Introduction} {x : Finding Problem}

theorem mono (h : Reported f ds x) (hds : ds.Sublist ds') : Reported f ds' x :=
  ⟨h.pos_eq, fun d hd => ⟨(h.earlier d hd).1, (h.earlier d hd).2.trans hds⟩⟩

theorem append_right (h : Reported f ds x) (more : List Introduction) : Reported f (ds ++ more) x :=
  h.mono (List.sublist_append_left ds more)

theorem append_left (h : Reported f ds x) (more : List Introduction) : Reported f (more ++ ds) x :=
  h.mono (List.sublist_append_right more ds)

/-- A finding that cites nothing. -/
theorem of_uncited (hpos : f x.pos = x.pos) (h : x.problem.earlier? = none) : Reported f ds x :=
  ⟨hpos, fun d hd => by rw [h] at hd; cases hd⟩

end Reported

/-! ## Names and types -/

/-- All findings of the pass over names and types are reported as they should be. -/
abbrev AllReported (f : Position → Position) (ds : List Introduction) (xs : ScopeFindings) : Prop :=
  ∀ x ∈ xs, Reported f ds (x.map .scope)

namespace AllReported

variable {f : Position → Position} {ds : List Introduction} {xs ys : ScopeFindings} {pos : Position}
  {problem : ScopeProblem}

theorem nil : AllReported f ds [] := fun _ hx => absurd hx List.not_mem_nil

theorem append (hx : AllReported f ds xs) (hy : AllReported f ds ys) : AllReported f ds (xs ++ ys) :=
  List.forall_mem_append.2 ⟨hx, hy⟩

theorem singleton (hpos : f pos = pos) (h : (Problem.scope problem).earlier? = none) :
    AllReported f ds [⟨pos, problem⟩] := by
  intro x hx
  rw [List.mem_singleton.1 hx]
  exact .of_uncited hpos h

theorem demand (holds : Bool) (hpos : f pos = pos) (h : (Problem.scope problem).earlier? = none) :
    AllReported f ds (demand holds pos problem) := by
  cases holds with
  | true => exact .nil
  | false => exact .singleton hpos h

theorem append_right (h : AllReported f ds xs) (more : List Introduction) :
    AllReported f (ds ++ more) xs :=
  fun x hx => (h x hx).append_right more

end AllReported

namespace Frames

variable {f : Position → Position} {ds : List Introduction} {frames : Frames}

/-- The symbols of the innermost frame that are declared anywhere were introduced, where `f` leaves
their positions in place. -/
def KnownIn (f : Position → Position) (ds : List Introduction) (frames : Frames) : Prop :=
  ∀ symbol ∈ frames.own, symbol.pos.isValid → f symbol.pos = symbol.pos ∧ symbol.introduction ∈ ds

/-- Built-in functions are declared nowhere. -/
theorem knownIn_global : global.KnownIn f [] := by
  intro symbol hsymbol hvalid
  obtain ⟨⟨name, arity, returns⟩, -, rfl⟩ := List.mem_map.1 hsymbol
  cases hvalid

theorem knownIn_enter (frames : Frames) : frames.enter.KnownIn f ds :=
  fun _ hsymbol => absurd hsymbol List.not_mem_nil

theorem KnownIn.append_right (h : frames.KnownIn f ds) (more : List Introduction) :
    frames.KnownIn f (ds ++ more) := by
  intro symbol hsymbol hvalid
  obtain ⟨hpos, hmem⟩ := h symbol hsymbol hvalid
  exact ⟨hpos, List.mem_append_left more hmem⟩

theorem KnownIn.declare (h : frames.KnownIn f ds) (symbol : Symbol) (hpos : f symbol.pos = symbol.pos) :
    (frames.declare symbol).KnownIn f (ds ++ [symbol.introduction]) := by
  unfold Frames.declare
  cases frames.ownSymbol? symbol.name with
  | some first => exact h.append_right _
  | none =>
    intro other hother hvalid
    rcases List.mem_append.1 hother with hother | hother
    · exact h.append_right _ other hother hvalid
    · rw [List.mem_singleton.1 hother]
      exact ⟨hpos, by simp⟩

/-- A name that is taken by an introduced symbol is reported behind it. -/
theorem KnownIn.reported_clash (h : frames.KnownIn f ds) (symbol : Symbol)
    (hpos : f symbol.pos = symbol.pos) :
    AllReported f (ds ++ [symbol.introduction]) (frames.clash symbol) := by
  unfold clash
  cases hfirst : frames.ownSymbol? symbol.name with
  | none => exact .nil
  | some first =>
    dsimp only
    split
    · next hvalid =>
      intro x hx
      rw [List.mem_singleton.1 hx]
      refine ⟨hpos, fun d hd => ?_⟩
      obtain rfl := Option.some.inj hd
      obtain ⟨hsame, hmem⟩ := h first (List.mem_of_find?_eq_some hfirst) hvalid
      have hname : first.name = symbol.name := by simpa using List.find?_some hfirst
      refine ⟨hsame, ?_⟩
      unfold Symbol.introduction at hmem
      rw [hname] at hmem
      exact (List.singleton_sublist.2 hmem).append (.refl [symbol.introduction])
    · exact .singleton hpos rfl

theorem KnownIn.declareAll (h : frames.KnownIn f ds) {symbols : List Symbol}
    (hpos : ∀ symbol ∈ symbols, f symbol.pos = symbol.pos) :
    (frames.declareAll symbols).KnownIn f (ds ++ symbols.map Symbol.introduction) := by
  induction symbols generalizing frames ds with
  | nil => simpa [Frames.declareAll] using h
  | cons symbol symbols ih =>
    obtain ⟨hsymbol, hsymbols⟩ := List.forall_mem_cons.1 hpos
    have hrest := ih (h.declare symbol hsymbol) hsymbols
    rwa [List.append_assoc] at hrest

theorem KnownIn.reported_clashes (h : frames.KnownIn f ds) {symbols : List Symbol}
    (hpos : ∀ symbol ∈ symbols, f symbol.pos = symbol.pos) :
    AllReported f (ds ++ symbols.map Symbol.introduction) (frames.clashes symbols) := by
  induction symbols generalizing frames ds with
  | nil => exact .nil
  | cons symbol symbols ih =>
    obtain ⟨hsymbol, hsymbols⟩ := List.forall_mem_cons.1 hpos
    have hfirst := (h.reported_clash symbol hsymbol).append_right (symbols.map Symbol.introduction)
    have hrest := ih (h.declare symbol hsymbol) hsymbols
    rw [List.append_assoc] at hfirst hrest
    exact hfirst.append hrest

end Frames

section Pass

variable {f : Position → Position} {ds : List Introduction} {frames : Frames}

theorem Frames.reported_miscall {pos : Position} (hpos : f pos = pos) (name : String) (count : Nat) :
    AllReported f ds (frames.miscall pos name count) := by
  unfold miscall
  split
  · exact .singleton hpos rfl
  · split
    · exact .nil
    · exact .singleton hpos rfl
  · exact .singleton hpos rfl

mutual

theorem Expr.reported_misuses : ∀ e : Expr, e.relocate f = e → AllReported f ds (e.misuses frames)
  | .string _ _, _ | .number _ _, _ | .bool _ _, _ => .nil
  | .ident pos name, h => by
    obtain ⟨hpos, -⟩ := Expr.ident.inj h
    unfold Expr.misuses
    split
    · exact .nil
    · exact .singleton hpos rfl
  | .array _ es, h => Expr.reported_misusesAll es (Expr.array.inj h).2
  | .call pos name args, h => by
    obtain ⟨hpos, -, hargs⟩ := Expr.call.inj h
    exact .append (Expr.reported_misusesAll args hargs) (Frames.reported_miscall hpos name _)
  | .binary _ l op r, h => by
    obtain ⟨-, hl, -, hr⟩ := Expr.binary.inj h
    exact .append (l.reported_misuses hl) (r.reported_misuses hr)
  | .unary _ op e, h => e.reported_misuses (Expr.unary.inj h).2.2

theorem Expr.reported_misusesAll : ∀ es : List Expr, Expr.relocateAll f es = es →
    AllReported f ds (Expr.misusesAll frames es)
  | [], _ => .nil
  | e :: es, h => by
    obtain ⟨he, hes⟩ := List.cons.inj h
    exact .append (e.reported_misuses he) (Expr.reported_misusesAll es hes)

end

theorem Expr.reported_misuses_option {value : Option Expr} (h : value.map (Expr.relocate f) = value) :
    AllReported f ds (Expr.misusesAll frames value.toList) := by
  cases value with
  | none => exact .nil
  | some e => exact .append (e.reported_misuses (Option.some.inj h)) .nil

theorem reported_assignmentFindings {pos : Position} (hpos : f pos = pos) (name : String)
    (symbol : Option Symbol) : AllReported f ds (assignmentFindings pos name symbol) := by
  unfold assignmentFindings
  split
  · exact .singleton hpos rfl
  · split
    · exact .singleton hpos rfl
    · exact .nil

/-- What stands behind a statement knows what the statement introduces. -/
theorem Frames.KnownIn.framesAfter (h : frames.KnownIn f ds) (s : Stmt) (hs : s.relocate f = s) :
    (s.framesAfter frames).KnownIn f (ds ++ s.introduced) := by
  cases s with
  | varDecl pos name value => exact h.declare _ (Stmt.varDecl.inj hs).1
  | function pos name params body =>
    have hdeclared := h.declare (functionSymbol pos name params) (Stmt.function.inj hs).1
    have hall := hdeclared.append_right ((paramSymbols pos params).map Symbol.introduction ++
      body.introduced)
    rwa [List.append_assoc] at hall
  | _ => exact h.append_right _

/-- The body of a function sees its parameters, which are introduced behind the function itself. -/
theorem Frames.reported_function {pos : Position} (hpos : f pos = pos) (h : frames.KnownIn f ds)
    (name : String) (params : List String) {more : List Introduction} {found : Frames → ScopeFindings}
    (hbody : ∀ {ds frames}, frames.KnownIn f ds → AllReported f (ds ++ more) (found frames)) :
    AllReported f
      (ds ++ (⟨.symbol name, pos⟩ :: ((paramSymbols pos params).map Symbol.introduction ++ more)))
      (frames.clash (functionSymbol pos name params) ++
        ((frames.declare (functionSymbol pos name params)).enterFunction.clashes
            (paramSymbols pos params) ++
          found ((frames.declare (functionSymbol pos name params)).enterFunction.declareAll
            (paramSymbols pos params)))) := by
  have hinside : ((frames.declare (functionSymbol pos name params)).enterFunction).KnownIn f
      (ds ++ [⟨.symbol name, pos⟩]) := knownIn_enter (frames.declare (functionSymbol pos name params))
  have hparams : ∀ symbol ∈ paramSymbols pos params, f symbol.pos = symbol.pos := by
    intro symbol hsymbol
    obtain ⟨param, -, rfl⟩ := List.mem_map.1 hsymbol
    exact hpos
  have hname : AllReported f (ds ++ [⟨.symbol name, pos⟩])
      (frames.clash (functionSymbol pos name params)) :=
    h.reported_clash (functionSymbol pos name params) hpos
  have hname := hname.append_right ((paramSymbols pos params).map Symbol.introduction ++ more)
  have hclashes := (hinside.reported_clashes hparams).append_right more
  have hfound := hbody (hinside.declareAll hparams)
  rw [List.append_assoc] at hname
  rw [List.append_assoc, List.append_assoc] at hclashes hfound
  exact hname.append (hclashes.append hfound)

mutual

/-- What a statement is told is reported among what was introduced before and what it introduces. -/
theorem Stmt.reported_lexical {ds : List Introduction} {frames : Frames} (h : frames.KnownIn f ds) :
    ∀ s : Stmt, s.relocate f = s → AllReported f (ds ++ s.introduced) (s.lexical frames)
  | .varDecl pos name value, hs => by
    obtain ⟨hpos, -, hvalue⟩ := Stmt.varDecl.inj hs
    exact .append (Expr.reported_misuses_option hvalue)
      (h.reported_clash (frames.variable pos name value) hpos)
  | .assignment pos name value, hs => by
    obtain ⟨hpos, -, hvalue⟩ := Stmt.assignment.inj hs
    exact .append (reported_assignmentFindings hpos name _) (value.reported_misuses hvalue)
  | .exprStmt _ e, hs => e.reported_misuses (Stmt.exprStmt.inj hs).2
  | .ifStmt _ condition body none, hs => by
    obtain ⟨-, hcondition, hbody, -⟩ := Stmt.ifStmt.inj hs
    exact .append (condition.reported_misuses hcondition)
      (Block.reported_lexical (Frames.knownIn_enter _) body hbody)
  | .ifStmt _ condition body (some other), hs => by
    obtain ⟨-, hcondition, hbody, hother⟩ := Stmt.ifStmt.inj hs
    have hthen : AllReported f (ds ++ body.introduced) (body.lexical frames.enter) :=
      Block.reported_lexical (Frames.knownIn_enter _) body hbody
    have helse : AllReported f (ds ++ body.introduced ++ other.introduced)
        (other.lexical frames.enter) :=
      Block.reported_lexical (Frames.knownIn_enter _) other (Option.some.inj hother)
    have hboth := (hthen.append_right other.introduced).append helse
    rw [List.append_assoc] at hboth
    exact .append (condition.reported_misuses hcondition) hboth
  | .forLoop pos loopVar iterable body, hs => by
    obtain ⟨hpos, -, hiterable, hbody⟩ := Stmt.forLoop.inj hs
    have hiterpos : f iterable.pos = iterable.pos := by
      rw [← iterable.pos_relocate f, hiterable]
    have hinside : (frames.enter.declare ⟨loopVar, .var, .unknown, pos⟩).KnownIn f
        (ds ++ [⟨.symbol loopVar, pos⟩]) := (Frames.knownIn_enter frames).declare _ hpos
    have hfound := Block.reported_lexical hinside body hbody
    rw [List.append_assoc] at hfound
    exact .append (.append (iterable.reported_misuses hiterable) (.demand _ hiterpos rfl)) hfound
  | .function pos name params body, hs => by
    obtain ⟨hpos, -, -, hbody⟩ := Stmt.function.inj hs
    exact Frames.reported_function hpos h name params
      fun hinside => Block.reported_lexical hinside body hbody
  | .exec _ _, _ => .nil
  | .block b, hs => Block.reported_lexical (Frames.knownIn_enter _) b (Stmt.block.inj hs)
  | .returnStmt pos value, hs => by
    obtain ⟨hpos, hvalue⟩ := Stmt.returnStmt.inj hs
    exact .append (.demand _ hpos rfl) (Expr.reported_misuses_option hvalue)
  | .config _, hs | .database _ _ _, hs | .model _, hs | .collection _, hs | .auth _, hs
  | .role _, hs | .middleware _, hs | .event _, hs | .eventHandler _, hs | .integration _, hs
  | .webhook _, hs | .endpoint _, hs | .workflow _, hs | .job _, hs => by
    have hpos := Stmt.pos_relocate f _ ▸ congrArg Stmt.pos hs
    exact .demand _ hpos rfl

theorem Stmt.reported_lexicalAll {ds : List Introduction} {frames : Frames}
    (h : frames.KnownIn f ds) : ∀ ss : List Stmt, Stmt.relocateAll f ss = ss →
      AllReported f (ds ++ Stmt.introducedAll ss) (Stmt.lexicalAll frames ss)
  | [], _ => .nil
  | s :: ss, hss => by
    obtain ⟨hs, hss⟩ := List.cons.inj hss
    have hfirst := (Stmt.reported_lexical h s hs).append_right (Stmt.introducedAll ss)
    have hrest := Stmt.reported_lexicalAll (h.framesAfter s hs) ss hss
    rw [List.append_assoc] at hfirst hrest
    exact hfirst.append hrest

theorem Block.reported_lexical {ds : List Introduction} {frames : Frames}
    (h : frames.KnownIn f ds) : ∀ b : Block, b.relocate f = b →
      AllReported f (ds ++ b.introduced) (b.lexical frames)
  | .mk _ ss, hb => Stmt.reported_lexicalAll h ss (Block.mk.inj hb).2

end

/-- The pass over names and types reports at positions of the program, and cites symbols that it
came upon before. -/
theorem Program.reported_scopeFindings {p : Program} (hp : ∀ s ∈ p.statements, s.relocate f = s) :
    AllReported f (Stmt.introducedAll p.statements) p.scopeFindings := by
  have hall : Stmt.relocateAll f p.statements = p.statements := by
    rw [Stmt.relocateAll_eq_map]
    exact (List.map_congr_left hp).trans (List.map_id _)
  rw [Program.scopeFindings_eq_lexical]
  exact Stmt.reported_lexicalAll Frames.knownIn_global p.statements hall

end Pass

end ServiceLang
