import ServiceLang.Check.Scope

/-! The scope pass is lexical scoping.

`Check.Scope` keeps every scope it ever opened in one arena, moves the number of
the current one about, and counts functions and bodies up and down.  This module
states what names mean without any of that: a place of a program sees an immutable
stack of frames (`Frames`), which a statement passes down to its bodies and, with at
most one symbol more, on to the next statement (`Stmt.framesAfter`).  What a body
declares is never seen behind it, because nothing comes back from a body.

* `Represents`: the arena and counters stand for a stack of frames.
* `Follows`: a part of the pass finds what a report on frames says, and restores
  the current scope and the counters.
* `Program.scopeFindings_eq_lexical`: both give the same findings for every program. -/

namespace ServiceLang

/-! ## Lexical scoping -/

/-- What a place sees: the symbols of its own frame and those of the frames around it,
innermost first, each in the order of declaration; and whether it is inside a function. -/
structure Frames where
  own : List Symbol
  outer : List (List Symbol)
  inFunction : Bool

namespace Frames

/-- Around the whole program there is nothing but the built-in functions. -/
def global : Frames := ⟨builtins.map builtinSymbol, [], false⟩

def enter (f : Frames) : Frames := { f with own := [], outer := f.own :: f.outer }

def enterFunction (f : Frames) : Frames := { f.enter with inFunction := true }

def isTop (f : Frames) : Bool := f.outer.isEmpty

/-- The symbol of the frame itself with this name. -/
def ownSymbol? (f : Frames) (name : String) : Option Symbol := f.own.find? (·.name == name)

/-- The innermost symbol with this name. -/
def lookup (f : Frames) (name : String) : Option Symbol :=
  (f.own :: f.outer).findSome? (·.find? (·.name == name))

/-- With a symbol more in its own frame, unless its name is taken there. -/
def declare (f : Frames) (symbol : Symbol) : Frames :=
  match f.ownSymbol? symbol.name with
  | some _ => f
  | none => { f with own := f.own ++ [symbol] }

/-- What is wrong with declaring a symbol: its name is taken in the frame itself. -/
def clash (f : Frames) (symbol : Symbol) : ScopeFindings :=
  match f.ownSymbol? symbol.name with
  | none => []
  | some first =>
    if first.pos.isValid then [⟨symbol.pos, .redeclared symbol.name first.pos⟩]
    else [⟨symbol.pos, .redeclaredBuiltin symbol.name⟩]

/-- With symbols declared one after another. -/
def declareAll (f : Frames) : List Symbol → Frames
  | [] => f
  | symbol :: symbols => (f.declare symbol).declareAll symbols

def clashes (f : Frames) : List Symbol → ScopeFindings
  | [] => []
  | symbol :: symbols => f.clash symbol ++ (f.declare symbol).clashes symbols

end Frames

/-- The type of an expression where it stands. -/
def Expr.typeIn (f : Frames) : Expr → ValueType
  | .string _ _ => .string
  | .number _ _ => .number
  | .bool _ _ => .bool
  | .array _ _ => .array
  | .ident _ name =>
    match f.lookup name with
    | some symbol => symbol.valueType
    | none => .unknown
  | .call _ name _ =>
    match f.lookup name with
    | some ⟨_, .func _ returns, _, _⟩ => returns
    | _ => .unknown
  | .binary _ left op right => op.resultType (left.typeIn f) (right.typeIn f)
  | .unary _ op _ => op.resultType

def Frames.miscall (f : Frames) (pos : Position) (name : String) (count : Nat) : ScopeFindings :=
  match f.lookup name with
  | none => [⟨pos, .undefinedFunction name⟩]
  | some ⟨_, .func arity _, _, _⟩ =>
    if arity = count then [] else [⟨pos, .argumentCount name arity count⟩]
  | some _ => [⟨pos, .notFunction name⟩]

mutual

/-- The names that an expression does not use rightly where it stands, arguments and
operands before what they are given to. -/
def Expr.misuses (f : Frames) : Expr → ScopeFindings
  | .string _ _ | .number _ _ | .bool _ _ => []
  | .ident pos name => if (f.lookup name).isSome then [] else [⟨pos, .undefinedVariable name⟩]
  | .array _ elements => Expr.misusesAll f elements
  | .call pos name args => Expr.misusesAll f args ++ f.miscall pos name args.length
  | .binary _ left _ right => left.misuses f ++ right.misuses f
  | .unary _ _ operand => operand.misuses f

/-- The names that expressions do not use rightly. -/
def Expr.misusesAll (f : Frames) : List Expr → ScopeFindings
  | [] => []
  | e :: es => e.misuses f ++ Expr.misusesAll f es

end

/-- The variable of a declaration has the type of its initial value. -/
def Frames.variable (f : Frames) (pos : Position) (name : String) (value : Option Expr) :
    Symbol :=
  ⟨name, .var, (value.map (Expr.typeIn f)).getD .unknown, pos⟩

def functionSymbol (pos : Position) (name : String) (params : List String) : Symbol :=
  ⟨name, .func params.length .unknown, .function, pos⟩

/-- The parameters of a function as symbols. -/
def paramSymbols (pos : Position) (params : List String) : List Symbol :=
  params.map fun param => ⟨param, .param, .unknown, pos⟩

/-- What the statement behind this one sees. -/
def Stmt.framesAfter (f : Frames) : Stmt → Frames
  | .varDecl pos name value => f.declare (f.variable pos name value)
  | .function pos name params _ => f.declare (functionSymbol pos name params)
  | _ => f

mutual

/-- What is wrong with the names and types of a statement that sees these frames. -/
def Stmt.lexical (f : Frames) (s : Stmt) : ScopeFindings :=
  match s with
  | .varDecl pos name value =>
    Expr.misusesAll f value.toList ++ f.clash (f.variable pos name value)
  | .assignment pos name value => assignmentFindings pos name (f.lookup name) ++ value.misuses f
  | .exprStmt _ expr => expr.misuses f
  | .ifStmt _ condition thenBlock none => condition.misuses f ++ thenBlock.lexical f.enter
  | .ifStmt _ condition thenBlock (some elseBlock) =>
    condition.misuses f ++ (thenBlock.lexical f.enter ++ elseBlock.lexical f.enter)
  | .forLoop pos loopVar iterable body =>
    iterable.misuses f ++ iterableFindings iterable.pos (iterable.typeIn f) ++
      body.lexical (f.enter.declare ⟨loopVar, .var, .unknown, pos⟩)
  | .function pos name params body =>
    let inside := (f.declare (functionSymbol pos name params)).enterFunction
    let params' := paramSymbols pos params
    f.clash (functionSymbol pos name params) ++
      (inside.clashes params' ++ body.lexical (inside.declareAll params'))
  | .exec _ _ => []
  | .block b => b.lexical f.enter
  | .returnStmt pos value =>
    demand f.inFunction pos .returnOutside ++ Expr.misusesAll f value.toList
  | .config _ | .database _ _ _ | .model _ | .collection _ | .auth _ | .role _ | .middleware _
  | .event _ | .eventHandler _ | .integration _ | .webhook _ | .endpoint _ | .workflow _ | .job _ =>
    demand f.isTop s.pos (.notTopLevel s.kind)

def Stmt.lexicalAll (f : Frames) : List Stmt → ScopeFindings
  | [] => []
  | s :: ss => s.lexical f ++ Stmt.lexicalAll (s.framesAfter f) ss

def Block.lexical (f : Frames) : Block → ScopeFindings
  | .mk _ statements => Stmt.lexicalAll f statements

end

/-- What the statements behind these see. -/
def Stmt.framesAfterAll (f : Frames) : List Stmt → Frames
  | [] => f
  | s :: ss => Stmt.framesAfterAll (s.framesAfter f) ss

/-- The problems of names and types in a program by lexical scoping. -/
def Program.lexicalFindings (p : Program) : ScopeFindings := Stmt.lexicalAll .global p.statements

/-! ## Scopes of the arena as frames -/

/-- From this scope outwards, the arena holds these frames.  Each scope lies behind the
one around it. -/
inductive Chain (scopes : Array Scope) : Nat → List Symbol → List (List Symbol) → Prop
  | outermost {id own} (here : scopes[id]? = some ⟨none, own⟩) : Chain scopes id own []
  | within {id parent own own' outer} (here : scopes[id]? = some ⟨some parent, own⟩)
      (behind : parent < id) (rest : Chain scopes parent own' outer) :
      Chain scopes id own (own' :: outer)

namespace Chain

variable {scopes scopes' : Array Scope} {id : Nat} {own : List Symbol}
  {outer : List (List Symbol)}

theorem exists_here (h : Chain scopes id own outer) :
    ∃ parent, scopes[id]? = some ⟨parent, own⟩ := by
  cases h with
  | outermost here => exact ⟨none, here⟩
  | within here _ _ => exact ⟨_, here⟩

theorem lt_size (h : Chain scopes id own outer) : id < scopes.size := by
  obtain ⟨parent, here⟩ := h.exists_here
  exact (Array.getElem?_eq_some_iff.mp here).1

/-- The frames stay when the scopes up to this one do. -/
theorem congr (h : Chain scopes id own outer) (same : ∀ i ≤ id, scopes'[i]? = scopes[i]?) :
    Chain scopes' id own outer := by
  induction h with
  | outermost here => exact .outermost ((same _ (Nat.le_refl _)).trans here)
  | within here behind _ ih =>
    exact .within ((same _ (Nat.le_refl _)).trans here) behind (ih fun i hi => same i (by omega))

/-- The frames when only the symbols of the innermost scope change. -/
theorem replace {own' : List Symbol} (h : Chain scopes id own outer)
    (here : ∀ parent, scopes[id]? = some ⟨parent, own⟩ → scopes'[id]? = some ⟨parent, own'⟩)
    (same : ∀ i < id, scopes'[i]? = scopes[i]?) : Chain scopes' id own' outer := by
  cases h with
  | outermost old => exact .outermost (here _ old)
  | within old behind rest =>
    exact .within (here _ old) behind (rest.congr fun i hi => same i (by omega))

/-- Looking outwards in the arena is looking through the frames. -/
theorem lookupFrom_eq (h : Chain scopes id own outer) (name : String) {steps : Nat}
    (enough : id < steps) :
    SymbolTable.lookupFrom scopes name steps id =
      (own :: outer).findSome? (·.find? (·.name == name)) := by
  induction h generalizing steps with
  | @outermost id own here =>
    obtain ⟨steps, rfl⟩ := Nat.exists_eq_add_one.mpr (Nat.zero_lt_of_lt enough)
    rw [List.findSome?_cons]
    simp only [SymbolTable.lookupFrom, here, Scope.find?]
    cases own.find? (·.name == name) <;> rfl
  | @within id parent own own' outer here behind rest ih =>
    obtain ⟨steps, rfl⟩ := Nat.exists_eq_add_one.mpr (Nat.zero_lt_of_lt enough)
    rw [List.findSome?_cons]
    simp only [SymbolTable.lookupFrom, here, Scope.find?]
    cases own.find? (·.name == name) with
    | some symbol => rfl
    | none => exact ih (by omega)

section

variable {t t' : SymbolTable} {symbol : Symbol}

theorem find?_top (h : Chain t.scopes t.current own outer) (name : String) :
    t.top.find? name = own.find? (·.name == name) := by
  obtain ⟨parent, here⟩ := h.exists_here
  simp [SymbolTable.top, Array.getD_eq_getD_getElem?, here, Scope.find?]

/-- The scope that is opened in the current one lies behind all others. -/
theorem push (h : Chain t.scopes t.current own outer) :
    Chain t.push.scopes t.push.current [] (own :: outer) := by
  have inside := h.lt_size
  refine .within (by simp [SymbolTable.push]) inside (h.congr fun i hi => ?_)
  have hi : i ≠ t.scopes.size := by omega
  simp [SymbolTable.push, Array.getElem?_push, hi]

/-- A symbol that can be declared is the last one of the current scope. -/
theorem declare (h : Chain t.scopes t.current own outer) (declared : t.declare symbol = .ok t') :
    Chain t'.scopes t'.current (own ++ [symbol]) outer := by
  unfold SymbolTable.declare at declared
  split at declared
  · cases declared
  · cases declared
    refine h.replace (fun parent here => ?_) fun i hi => ?_
    · simp [Array.getElem?_modify, here]
    · rw [Array.getElem?_modify, if_neg (by omega)]

end

end Chain

/-- The place that the pass has reached sees these frames, and the counters tell how
deep it is. -/
structure Represents (r : Resolver) (f : Frames) : Prop where
  chain : Chain r.table.scopes r.table.current f.own f.outer
  nesting : r.nesting = f.outer.length
  depth : f.inFunction = decide (r.functionDepth ≠ 0)

namespace Represents

variable {r : Resolver} {f : Frames}

theorem start : Represents .start .global := ⟨.outermost rfl, rfl, rfl⟩

theorem lookup_eq (h : Represents r f) (name : String) : r.table.lookup name = f.lookup name :=
  h.chain.lookupFrom_eq name h.chain.lt_size

theorem find?_top (h : Represents r f) (name : String) :
    r.table.top.find? name = f.ownSymbol? name :=
  h.chain.find?_top name

theorem nesting_eq_zero (h : Represents r f) : decide (r.nesting = 0) = f.isTop := by
  rw [h.nesting, Frames.isTop]
  cases f.outer <;> simp

end Represents

/-! ## Expressions -/

theorem Expr.inferAll_eq_misusesAll {t : SymbolTable} {f : Frames} {es : List Expr}
    (h : ∀ e ∈ es, e.infer t = (e.typeIn f, e.misuses f)) :
    Expr.inferAll t es = Expr.misusesAll f es := by
  induction es with
  | nil => simp [Expr.inferAll, Expr.misusesAll]
  | cons e es ih =>
    simp only [Expr.inferAll, Expr.misusesAll, h e List.mem_cons_self]
    rw [ih fun e he => h e (List.mem_cons_of_mem _ he)]

/-- One pass from the leaves up gives the type and the names that are not used rightly. -/
theorem Expr.infer_eq {t : SymbolTable} {f : Frames} (same : ∀ name, t.lookup name = f.lookup name)
    (e : Expr) : e.infer t = (e.typeIn f, e.misuses f) := by
  cases e with
  | string | number | bool => simp [Expr.infer, Expr.typeIn, Expr.misuses]
  | ident pos name =>
    simp only [Expr.infer, Expr.typeIn, Expr.misuses, same]
    cases f.lookup name <;> simp
  | array pos elements =>
    simp only [Expr.infer, Expr.typeIn, Expr.misuses]
    rw [Expr.inferAll_eq_misusesAll fun e _ => Expr.infer_eq same e]
  | call pos name args =>
    simp only [Expr.infer, Expr.typeIn, Expr.misuses, same, Frames.miscall]
    rw [Expr.inferAll_eq_misusesAll fun e _ => Expr.infer_eq same e]
    rcases f.lookup name with _ | ⟨_, _ | _ | ⟨arity, returns⟩, _, _⟩ <;> simp [callType, demand]
  | binary pos left op right =>
    simp only [Expr.infer, Expr.typeIn, Expr.misuses, Expr.infer_eq same left,
      Expr.infer_eq same right]
  | unary pos op operand =>
    simp only [Expr.infer, Expr.typeIn, Expr.misuses, Expr.infer_eq same operand]

theorem Expr.inferOption_eq {t : SymbolTable} {f : Frames}
    (same : ∀ name, t.lookup name = f.lookup name) (value : Option Expr) :
    Expr.inferOption t value =
      ((value.map (Expr.typeIn f)).getD .unknown, Expr.misusesAll f value.toList) := by
  cases value with
  | none => rfl
  | some e => simp [Expr.inferOption, Expr.infer_eq same, Expr.misusesAll]

/-! ## What a part of the pass keeps -/

/-- The pass is back in the scope and at the depths where it was, and what lies further
out is untouched. -/
structure Keeps (r r' : Resolver) : Prop where
  current : r'.table.current = r.table.current
  parent : r'.table.top.parent = r.table.top.parent
  outside : ∀ i < r.table.current, r'.table.scopes[i]? = r.table.scopes[i]?
  depth : r'.functionDepth = r.functionDepth
  nesting : r'.nesting = r.nesting

theorem Keeps.refl (r : Resolver) : Keeps r r := ⟨rfl, rfl, fun _ _ => rfl, rfl, rfl⟩

theorem Keeps.trans {r r' r'' : Resolver} (h : Keeps r r') (h' : Keeps r' r'') : Keeps r r'' where
  current := h'.current.trans h.current
  parent := h'.parent.trans h.parent
  outside i hi := (h'.outside i (h.current ▸ hi)).trans (h.outside i hi)
  depth := h'.depth.trans h.depth
  nesting := h'.nesting.trans h.nesting

/-- From a place that sees some frames, a part of the pass finds what the report says of
them, and comes to a place in the same body that sees the frames behind it. -/
def Follows (part : Resolve) (report : Frames → ScopeFindings) (after : Frames → Frames) : Prop :=
  ∀ r f, Represents r f →
    (part r).2 = report f ∧ Represents (part r).1 (after f) ∧ Keeps r (part r).1

namespace Follows

variable {part first second : Resolve} {report report' : Frames → ScopeFindings}
  {after after' : Frames → Frames}

theorem done : Follows .done (fun _ => []) id := fun r _ h => ⟨rfl, h, .refl r⟩

theorem andThen (h : Follows first report after) (h' : Follows second report' after') :
    Follows (first.andThen second) (fun f => report f ++ report' (after f)) (after' ∘ after) := by
  intro r f hr
  obtain ⟨found, represents, keeps⟩ := h r f hr
  obtain ⟨found', represents', keeps'⟩ := h' _ _ represents
  have both : (first.andThen second r).2 = (first r).2 ++ (second (first r).1).2 := rfl
  exact ⟨by rw [both, found, found'], represents', keeps.trans keeps'⟩

theorem find {findings : Resolver → ScopeFindings}
    (h : ∀ r f, Represents r f → findings r = report f) :
    Follows (.find findings) report id :=
  fun r f hr => ⟨h r f hr, hr, .refl r⟩

/-- A declaration adds to the current scope, and leaves it as it is if the name is
taken. -/
theorem declare (symbol : Symbol) :
    Follows (.declare symbol) (·.clash symbol) (·.declare symbol) := by
  intro r f hr
  have taken := hr.find?_top symbol.name
  cases own : f.ownSymbol? symbol.name with
  | some existing =>
    have refused : r.table.declare symbol = .error existing := by
      simp [SymbolTable.declare, taken, own]
    have stays : f.declare symbol = f := by simp [Frames.declare, own]
    simp only [Resolve.declare, refused, Frames.clash, own, stays]
    split <;> exact ⟨rfl, hr, .refl r⟩
  | none =>
    have declared : r.table.declare symbol = .ok { r.table with
        scopes := r.table.scopes.modify r.table.current fun s =>
          { s with symbols := s.symbols ++ [symbol] } } := by
      simp [SymbolTable.declare, taken, own]
    have grows : f.declare symbol = { f with own := f.own ++ [symbol] } := by
      simp [Frames.declare, own]
    simp only [Resolve.declare, declared, Frames.clash, own, grows]
    have outside : ∀ i < r.table.current, (r.table.scopes.modify r.table.current fun s =>
        { s with symbols := s.symbols ++ [symbol] })[i]? = r.table.scopes[i]? := by
      intro i hi
      rw [Array.getElem?_modify, if_neg (by omega)]
    refine ⟨trivial, ⟨hr.chain.declare declared, hr.nesting, hr.depth⟩, rfl, ?_, outside, rfl, rfl⟩
    obtain ⟨parent, here⟩ := hr.chain.exists_here
    simp [SymbolTable.top, Array.getD_eq_getD_getElem?, Array.getElem?_modify, here]

theorem declareEach (symbols : List Symbol) :
    Follows (.each .declare symbols) (·.clashes symbols) (·.declareAll symbols) := by
  induction symbols with
  | nil => exact done
  | cons symbol symbols ih => exact (declare symbol).andThen ih

/-- Whatever a body declares, the place behind it sees the frames from before it. -/
theorem inScope (h : Follows part report after) :
    Follows part.inScope (fun f => report f.enter) id := by
  intro r f hr
  let inner : Resolver := { r with table := r.table.push, nesting := r.nesting + 1 }
  have inside := hr.chain.lt_size
  have older : ∀ i < r.table.scopes.size, inner.table.scopes[i]? = r.table.scopes[i]? := by
    intro i hi
    simp [inner, SymbolTable.push, Array.getElem?_push, Nat.ne_of_lt hi]
  have entered : Represents inner f.enter := ⟨hr.chain.push, congrArg (· + 1) hr.nesting, hr.depth⟩
  obtain ⟨found, -, keeps⟩ := h inner f.enter entered
  generalize hrun : part inner = run at found keeps
  have parent : run.1.table.top.parent = some r.table.current := by
    rw [keeps.parent]
    simp [inner, SymbolTable.push, SymbolTable.top, Array.getD_eq_getD_getElem?]
  have left : part.inScope r = (⟨⟨run.1.table.scopes, r.table.current⟩, run.1.functionDepth,
      run.1.nesting - 1⟩, run.2) := by
    simp [Resolve.inScope, inner, hrun, SymbolTable.pop, parent]
  have same : ∀ i ≤ r.table.current, run.1.table.scopes[i]? = r.table.scopes[i]? := by
    intro i hi
    exact (keeps.outside i (by simp [inner, SymbolTable.push]; omega)).trans (older i (by omega))
  have nesting : run.1.nesting - 1 = r.nesting := by simp [keeps.nesting, inner]
  have top : run.1.table.scopes.getD r.table.current ⟨none, []⟩ = r.table.top := by
    simp [SymbolTable.top, Array.getD_eq_getD_getElem?, same]
  rw [left]
  exact ⟨found, ⟨hr.chain.congr same, nesting ▸ hr.nesting, keeps.depth ▸ hr.depth⟩,
    rfl, congrArg Scope.parent top, fun i hi => same i (by omega), keeps.depth, nesting⟩

theorem inFunction (h : Follows part report id) :
    Follows part.inFunction (fun f => report { f with inFunction := true }) id := by
  intro r f hr
  obtain ⟨found, represents, keeps⟩ := h { r with functionDepth := r.functionDepth + 1 }
    { f with inFunction := true } ⟨hr.chain, hr.nesting, by simp⟩
  have depth : (part.inFunction r).1.functionDepth = r.functionDepth := by
    simp [Resolve.inFunction, keeps.depth]
  exact ⟨found, ⟨represents.chain, represents.nesting, depth ▸ hr.depth⟩,
    keeps.current, keeps.parent, keeps.outside, depth, keeps.nesting⟩

end Follows

/-! ## Statements -/

/-- Expressions have findings and change nothing. -/
theorem Follows.misuses (e : Expr) :
    Follows (.find fun r => (e.infer r.table).2) (fun f => e.misuses f) id :=
  .find fun _ _ hr => by rw [Expr.infer_eq hr.lookup_eq]

theorem Follows.varDecl (pos : Position) (name : String) (value : Option Expr) :
    Follows (Stmt.resolve (.varDecl pos name value)) (Stmt.lexical · (.varDecl pos name value))
      (Stmt.framesAfter · (.varDecl pos name value)) := by
  intro r f hr
  obtain ⟨found, represents, keeps⟩ := Follows.declare (f.variable pos name value) r f hr
  simp only [Stmt.resolve, Expr.inferOption_eq hr.lookup_eq, Stmt.lexical, Stmt.framesAfter]
  exact ⟨congrArg _ found, represents, keeps⟩

/-- The variable of a loop is the first symbol of the scope of the body. -/
theorem Follows.loopBody {body : Resolve} {report : Frames → ScopeFindings}
    {after : Frames → Frames} (h : Follows body report after) (symbol : Symbol) :
    Follows (Resolve.inScope (.andThen (.declare symbol) body))
      (fun f => report (f.enter.declare symbol)) id :=
  -- in an empty frame no name is taken, so the declaration itself finds nothing
  ((Follows.declare symbol).andThen h).inScope

theorem Follows.functionBody {body : Resolve} {report : Frames → ScopeFindings}
    {after : Frames → Frames} (h : Follows body report after) (pos : Position)
    (params : List String) :
    Follows (Resolve.inFunction (Resolve.inScope (.andThen
        (Resolve.each (fun param => .declare ⟨param, .param, .unknown, pos⟩) params) body)))
      (fun f => f.enterFunction.clashes (paramSymbols pos params) ++
        report (f.enterFunction.declareAll (paramSymbols pos params))) id := by
  have each : Resolve.each (fun param => .declare ⟨param, .param, .unknown, pos⟩) params =
      Resolve.each .declare (paramSymbols pos params) := by
    induction params with
    | nil => rfl
    | cons param params ih =>
      simp only [paramSymbols, List.map_cons, Resolve.each] at ih ⊢
      rw [ih]
  rw [each]
  exact ((Follows.declareEach _).andThen h).inScope.inFunction

mutual

/-- Every statement finds what lexical scoping says, and hands on the frames behind it. -/
theorem Stmt.follows (s : Stmt) : Follows s.resolve (s.lexical ·) (s.framesAfter ·) := by
  cases s with
  | varDecl pos name value => exact Follows.varDecl pos name value
  | assignment pos name value =>
    simp only [Stmt.resolve, Stmt.lexical, Stmt.framesAfter]
    exact .find fun r f hr => by rw [hr.lookup_eq, Expr.infer_eq hr.lookup_eq]
  | exprStmt pos expr => exact Follows.misuses expr
  | ifStmt pos condition thenBlock elseBlock =>
    cases elseBlock with
    | none => exact (Follows.misuses condition).andThen thenBlock.follows.inScope
    | some elseBlock =>
      exact (Follows.misuses condition).andThen
        (thenBlock.follows.inScope.andThen elseBlock.follows.inScope)
  | forLoop pos loopVar iterable body =>
    refine Follows.andThen (.find fun r f hr => ?_) (body.follows.loopBody _)
    rw [Expr.infer_eq hr.lookup_eq]
  | function pos name params body =>
    exact (Follows.declare _).andThen (body.follows.functionBody pos params)
  | exec pos command => exact .done
  | block b => exact b.follows.inScope
  | returnStmt pos value =>
    refine .find fun r f hr => ?_
    rw [← hr.depth, Expr.inferOption_eq hr.lookup_eq]
    rfl
  | _ =>
    refine .find fun r f hr => ?_
    rw [hr.nesting_eq_zero]
    rfl

theorem Stmt.follows_all (ss : List Stmt) :
    Follows (Stmt.resolveAll ss) (Stmt.lexicalAll · ss) (Stmt.framesAfterAll · ss) := by
  cases ss with
  | nil => exact .done
  | cons s ss => exact s.follows.andThen (Stmt.follows_all ss)

theorem Block.follows (b : Block) :
    Follows b.resolve (b.lexical ·) (Stmt.framesAfterAll · b.statements) := by
  cases b with
  | mk pos statements => exact Stmt.follows_all statements

end

/-- The pass over the arena of scopes has the findings of lexical scoping, in its order and
with its positions. -/
theorem Program.scopeFindings_eq_lexical (p : Program) : p.scopeFindings = p.lexicalFindings :=
  (Stmt.follows_all p.statements .start .global .start).1

end ServiceLang
