import ServiceLang.Check.Declared
import ServiceLang.Check.Scope
import ServiceLang.Proofs.Ast.Relocated

/-!
Names and types of relocated programs.

The index of declared names commutes with `relocate`, and so do the checks for repeated names.
The pass over names and types looks at a position, to tell a built-in function from a declared
name, so it commutes as long as nothing invalid is moved to a valid position (`KeepsInvalid`).
-/

namespace ServiceLang

/-! ## Findings -/

/-- The finding with its position and those inside its problem replaced. -/
def Finding.relocate {α : Type} (f : Position → Position) (inner : α → α) (x : Finding α) :
    Finding α :=
  ⟨f x.pos, inner x.problem⟩

@[simp] theorem demand_relocate {α : Type} (f : Position → Position) (inner : α → α) (holds : Bool)
    (pos : Position) (problem : α) :
    (demand holds pos problem).map (Finding.relocate f inner) = demand holds (f pos) (inner problem) := by
  cases holds <;> rfl

/-- Checks that look back commute with a map if each of them does. -/
theorem eachAfter_map {α β γ δ : Type} {check : List α → α → List β} {check' : List γ → γ → List δ}
    {m : α → γ} {n : β → δ} (h : ∀ earlier a, check' (earlier.map m) (m a) = (check earlier a).map n)
    (earlier as : List α) :
    eachAfter check' (earlier.map m) (as.map m) = (eachAfter check earlier as).map n := by
  induction as generalizing earlier with
  | nil => rfl
  | cons a as ih =>
    have hrest := ih (earlier ++ [a])
    rw [List.map_append] at hrest
    rw [List.map_cons, eachAfter, eachAfter, h, List.map_append]
    exact congrArg _ hrest

/-- Checks of the same items commute with a map if each of them does. -/
theorem eachAfter_congr_map {α β δ : Type} {check : List α → α → List β}
    {check' : List α → α → List δ} {n : β → δ}
    (h : ∀ earlier a, check' earlier a = (check earlier a).map n) (as : List α) :
    eachAfter check' [] as = (eachAfter check [] as).map n := by
  have hid (earlier : List α) (a : α) :
      check' (earlier.map id) (id a) = (check earlier a).map n := by
    rw [List.map_id]
    exact h earlier a
  have hsame := eachAfter_map hid [] as
  rwa [List.map_id, List.map_id] at hsame

variable (f : Position → Position)

/-! ## Repeated names -/

def Declared.relocate (d : Declared) : Declared := { d with pos := f d.pos }

def Declarations.relocate (ds : Declarations) : Declarations := ⟨ds.entries.map (Declared.relocate f)⟩

def DuplicateName.relocate (d : DuplicateName) : DuplicateName := { d with first := f d.first }

theorem Stmt.declared?_relocate (s : Stmt) :
    (s.relocate f).declared? = s.declared?.map (Declared.relocate f) := by
  cases s with
  | ifStmt _ _ _ other => cases other <;> rfl
  | _ => rfl

theorem Program.declared_relocate (p : Program) :
    (p.relocate f).declared = p.declared.map (Declared.relocate f) :=
  p.filterMap_relocate (Stmt.declared?_relocate f)

namespace Declarations

variable (ds : Declarations) (kind : DeclaredKind) (name : String)

theorem find?_relocate :
    (ds.relocate f).find? kind name = (ds.find? kind name).map (Declared.relocate f) := by
  unfold find? relocate
  rw [List.find?_map]
  rfl

@[simp] theorem has_relocate : (ds.relocate f).has kind name = ds.has kind name := by
  unfold has
  rw [find?_relocate, Option.isSome_map]

@[simp] theorem hasAny_relocate : (ds.relocate f).hasAny kind = ds.hasAny kind := by
  unfold hasAny relocate
  rw [List.any_map]
  rfl

theorem add_relocate (d : Declared) :
    (ds.relocate f).add (d.relocate f) = (ds.add d).relocate f := by
  have hhas : (ds.relocate f).has (d.relocate f).kind (d.relocate f).name = ds.has d.kind d.name :=
    ds.has_relocate f d.kind d.name
  unfold add
  rw [hhas]
  split
  · rfl
  · simp [relocate]

end Declarations

theorem Program.declarations_relocate (p : Program) :
    (p.relocate f).declarations = p.declarations.relocate f := by
  have fold (xs : List Declared) : ∀ ds : Declarations,
      (xs.map (Declared.relocate f)).foldl .add (ds.relocate f) = (xs.foldl .add ds).relocate f := by
    induction xs with
    | nil => exact fun _ => rfl
    | cons d xs ih =>
      intro ds
      rw [List.map_cons, List.foldl_cons, List.foldl_cons, Declarations.add_relocate, ih]
  unfold Program.declarations
  rw [Program.declared_relocate]
  exact fold p.declared .empty

theorem Program.duplicateNames_relocate (p : Program) :
    (p.relocate f).duplicateNames =
      p.duplicateNames.map (Finding.relocate f (DuplicateName.relocate f)) := by
  unfold Program.duplicateNames
  rw [Program.declared_relocate]
  refine eachAfter_map (fun earlier d => ?_) [] p.declared
  have hfind := Declarations.find?_relocate f ⟨earlier⟩ d.kind d.name
  unfold Declarations.relocate at hfind
  dsimp only [Declared.relocate] at hfind ⊢
  rw [hfind]
  cases (Declarations.mk earlier).find? d.kind d.name <;> rfl

/-! ## Names and types -/

/-- Nothing invalid is moved to a valid position, and the unknown position stays. -/
structure KeepsInvalid : Prop where
  unknown : f .unknown = .unknown
  invalid : ∀ x : Position, x.isValid = false → (f x).isValid = false

/-- The problem with its position replaced.  A name that is declared nowhere is a built-in. -/
def ScopeProblem.relocate : ScopeProblem → ScopeProblem
  | .redeclared name first =>
    if (f first).isValid then .redeclared name (f first) else .redeclaredBuiltin name
  | problem => problem

def ScopeFindings.relocate (xs : ScopeFindings) : ScopeFindings :=
  xs.map (Finding.relocate f (ScopeProblem.relocate f))

@[simp] theorem ScopeFindings.relocate_append (xs ys : ScopeFindings) :
    ScopeFindings.relocate f (xs ++ ys) = ScopeFindings.relocate f xs ++ ScopeFindings.relocate f ys :=
  List.map_append

@[simp] theorem ScopeFindings.relocate_demand (holds : Bool) (pos : Position) (problem : ScopeProblem) :
    ScopeFindings.relocate f (demand holds pos problem) =
      demand holds (f pos) (ScopeProblem.relocate f problem) :=
  demand_relocate f _ holds pos problem

def Symbol.relocate (s : Symbol) : Symbol := { s with pos := f s.pos }

def Scope.relocate (s : Scope) : Scope := { s with symbols := s.symbols.map (Symbol.relocate f) }

def SymbolTable.relocate (t : SymbolTable) : SymbolTable :=
  { t with scopes := t.scopes.map (Scope.relocate f) }

theorem Scope.find?_relocate (s : Scope) (name : String) :
    (s.relocate f).find? name = (s.find? name).map (Symbol.relocate f) := by
  unfold find? relocate
  rw [List.find?_map]
  rfl

namespace SymbolTable

theorem initial_relocate (hf : KeepsInvalid f) : initial.relocate f = initial := by
  have hbuiltin : Symbol.relocate f ∘ builtinSymbol = builtinSymbol := by
    funext b
    obtain ⟨name, arity, returns⟩ := b
    simp [Symbol.relocate, builtinSymbol, hf.unknown]
  simp [relocate, initial, Scope.relocate, hbuiltin]

theorem top_relocate (t : SymbolTable) : (t.relocate f).top = t.top.relocate f := by
  unfold top relocate
  rw [Array.getD_eq_getD_getElem?, Array.getD_eq_getD_getElem?, Array.getElem?_map]
  cases t.scopes[t.current]? <;> rfl

theorem push_relocate (t : SymbolTable) : (t.relocate f).push = t.push.relocate f := by
  simp [push, relocate, Scope.relocate]

theorem pop_relocate (t : SymbolTable) : (t.relocate f).pop = t.pop.relocate f := by
  have hparent : (t.relocate f).top.parent = t.top.parent := by
    rw [top_relocate]
    rfl
  unfold pop
  rw [hparent]
  cases t.top.parent <;> rfl

theorem lookupFrom_relocate (scopes : Array Scope) (name : String) (steps id : Nat) :
    lookupFrom (scopes.map (Scope.relocate f)) name steps id =
      (lookupFrom scopes name steps id).map (Symbol.relocate f) := by
  induction steps generalizing id with
  | zero => rfl
  | succ steps ih =>
    rw [lookupFrom, lookupFrom, Array.getElem?_map]
    cases scopes[id]? with
    | none => rfl
    | some s =>
      simp only [Option.map_some, Scope.find?_relocate]
      cases s.find? name with
      | some symbol => rfl
      | none =>
        show s.parent.bind _ = Option.map _ (s.parent.bind _)
        cases s.parent with
        | none => rfl
        | some outer => exact ih outer

theorem lookup_relocate (t : SymbolTable) (name : String) :
    (t.relocate f).lookup name = (t.lookup name).map (Symbol.relocate f) := by
  unfold lookup
  rw [← lookupFrom_relocate, relocate, Array.size_map]

/-- A symbol is declared in the relocated table as in the table itself. -/
theorem declare_relocate (t : SymbolTable) (symbol : Symbol) :
    (t.relocate f).declare (symbol.relocate f) =
      match t.declare symbol with
      | .error existing => .error (existing.relocate f)
      | .ok t' => .ok (t'.relocate f) := by
  unfold declare
  have hname : (symbol.relocate f).name = symbol.name := rfl
  rw [top_relocate, Scope.find?_relocate, hname]
  cases t.top.find? symbol.name with
  | some existing => rfl
  | none =>
    have hmodify : (t.scopes.map (Scope.relocate f)).modify t.current
          (fun s => { s with symbols := s.symbols ++ [symbol.relocate f] }) =
        (t.scopes.modify t.current
          fun s => { s with symbols := s.symbols ++ [symbol] }).map (Scope.relocate f) := by
      refine Array.ext (by simp) fun i h₁ h₂ => ?_
      simp only [Array.getElem_modify, Array.getElem_map]
      split <;> simp [Scope.relocate]
    exact congrArg (fun scopes => Except.ok (SymbolTable.mk scopes t.current)) hmodify

end SymbolTable

theorem callType_relocate (pos : Position) (name : String) (count : Nat) (kind : Option SymbolKind) :
    callType (f pos) name count kind =
      ((callType pos name count kind).1, ScopeFindings.relocate f (callType pos name count kind).2) := by
  cases kind with
  | none => rfl
  | some kind =>
    cases kind with
    | func arity returns => simp [callType, ScopeFindings.relocate, ScopeProblem.relocate]
    | _ => rfl

mutual

/-- The type of a relocated expression is the same, and its findings are relocated. -/
theorem Expr.infer_relocate (t : SymbolTable) : ∀ e : Expr,
    (e.relocate f).infer (t.relocate f) = ((e.infer t).1, ScopeFindings.relocate f (e.infer t).2)
  | .string _ _ | .number _ _ | .bool _ _ => rfl
  | .ident pos name => by
    rw [Expr.relocate, Expr.infer, Expr.infer, SymbolTable.lookup_relocate]
    cases t.lookup name <;> rfl
  | .array _ es => by
    rw [Expr.relocate, Expr.infer, Expr.infer, Expr.inferAll_relocate t es]
  | .call pos name args => by
    have hlength : (Expr.relocateAll f args).length = args.length := by
      rw [Expr.relocateAll_eq_map, List.length_map]
    have hkind : ((t.lookup name).map (Symbol.relocate f)).map (·.kind) =
        (t.lookup name).map (·.kind) := by
      cases t.lookup name <;> rfl
    simp only [Expr.relocate, Expr.infer, SymbolTable.lookup_relocate, hlength, hkind,
      callType_relocate, Expr.inferAll_relocate t args, ScopeFindings.relocate_append]
  | .binary _ l op r => by
    simp only [Expr.relocate, Expr.infer, l.infer_relocate, r.infer_relocate,
      ScopeFindings.relocate_append]
  | .unary _ op e => by
    simp only [Expr.relocate, Expr.infer, e.infer_relocate]

theorem Expr.inferAll_relocate (t : SymbolTable) : ∀ es : List Expr,
    Expr.inferAll (t.relocate f) (Expr.relocateAll f es) = ScopeFindings.relocate f (Expr.inferAll t es)
  | [] => rfl
  | e :: es => by
    rw [Expr.relocateAll, Expr.inferAll, Expr.inferAll, e.infer_relocate, Expr.inferAll_relocate t es,
      ScopeFindings.relocate_append]

end

theorem Expr.inferOption_relocate (t : SymbolTable) (e : Option Expr) :
    Expr.inferOption (t.relocate f) (e.map (Expr.relocate f)) =
      ((Expr.inferOption t e).1, ScopeFindings.relocate f (Expr.inferOption t e).2) := by
  cases e with
  | none => rfl
  | some e => exact e.infer_relocate f t

theorem assignmentFindings_relocate (pos : Position) (name : String) (symbol : Option Symbol) :
    assignmentFindings (f pos) name (symbol.map (Symbol.relocate f)) =
      ScopeFindings.relocate f (assignmentFindings pos name symbol) := by
  cases symbol with
  | none => rfl
  | some symbol =>
    obtain ⟨name, kind, type, pos⟩ := symbol
    cases kind <;> rfl

def Resolver.relocate (r : Resolver) : Resolver := { r with table := r.table.relocate f }

/-- From relocated places on, the second part of the pass does what the first does, relocated. -/
def Resolve.Relocates (part part' : Resolve) : Prop :=
  ∀ r, part' (r.relocate f) = ((part r).1.relocate f, ScopeFindings.relocate f (part r).2)

namespace Resolve.Relocates

variable {f} {part part' next next' : Resolve}

theorem done : Relocates f .done .done := fun _ => rfl

theorem andThen (h : Relocates f part part') (hn : Relocates f next next') :
    Relocates f (part.andThen next) (part'.andThen next') := by
  intro r
  unfold Resolve.andThen
  rw [h r]
  dsimp only
  rw [hn, ScopeFindings.relocate_append]

theorem inScope (h : Relocates f part part') : Relocates f part.inScope part'.inScope := by
  intro r
  have hbody := h { r with table := r.table.push, nesting := r.nesting + 1 }
  unfold Resolver.relocate at hbody
  unfold Resolve.inScope Resolver.relocate
  rw [SymbolTable.push_relocate, hbody]
  dsimp only
  rw [SymbolTable.pop_relocate]

theorem inFunction (h : Relocates f part part') : Relocates f part.inFunction part'.inFunction := by
  intro r
  have hbody := h { r with functionDepth := r.functionDepth + 1 }
  unfold Resolver.relocate at hbody
  unfold Resolve.inFunction Resolver.relocate
  rw [hbody]

theorem find {findings findings' : Resolver → ScopeFindings}
    (h : ∀ r, findings' (r.relocate f) = ScopeFindings.relocate f (findings r)) :
    Relocates f (.find findings) (.find findings') :=
  fun r => congrArg (r.relocate f, ·) (h r)

theorem each {α : Type} {part part' : α → Resolve} (h : ∀ a, Relocates f (part a) (part' a))
    (as : List α) : Relocates f (.each part as) (.each part' as) := by
  induction as with
  | nil => exact done
  | cons a as ih => exact (h a).andThen ih

/-- Where a name is taken by a symbol that is declared nowhere, so it is after relocating. -/
theorem declare (hf : KeepsInvalid f) (symbol : Symbol) :
    Relocates f (.declare symbol) (.declare (symbol.relocate f)) := by
  intro r
  unfold Resolve.declare
  have htable : (r.relocate f).table = r.table.relocate f := rfl
  rw [htable, SymbolTable.declare_relocate]
  cases r.table.declare symbol with
  | ok t => rfl
  | error existing =>
    have hpos : (existing.relocate f).pos = f existing.pos := rfl
    dsimp only
    rw [hpos]
    cases hv : existing.pos.isValid with
    | true =>
      rw [if_pos rfl]
      cases hv' : (f existing.pos).isValid <;>
        simp [ScopeFindings.relocate, Finding.relocate, ScopeProblem.relocate, Symbol.relocate, hv']
    | false =>
      rw [if_neg Bool.false_ne_true, if_neg (by simp [hf.invalid existing.pos hv])]
      rfl

end Resolve.Relocates

section Statements

variable {f}

mutual

/-- The pass over a relocated statement is the relocated pass. -/
theorem Stmt.resolve_relocate (hf : KeepsInvalid f) :
    ∀ s : Stmt, Resolve.Relocates f s.resolve (s.relocate f).resolve
  | .varDecl pos name value => by
    intro r
    rw [Stmt.relocate, Stmt.resolve, Stmt.resolve]
    dsimp only [Resolver.relocate]
    rw [Expr.inferOption_relocate]
    have hdeclare := Resolve.Relocates.declare hf
      ⟨name, .var, (Expr.inferOption r.table value).1, pos⟩ r
    unfold Symbol.relocate Resolver.relocate at hdeclare
    dsimp only at hdeclare ⊢
    rw [hdeclare, ScopeFindings.relocate_append]
  | .assignment pos name value => by
    rw [Stmt.relocate, Stmt.resolve, Stmt.resolve]
    refine .find fun r => ?_
    show assignmentFindings _ _ ((r.table.relocate f).lookup name) ++
      ((value.relocate f).infer (r.table.relocate f)).2 = _
    rw [SymbolTable.lookup_relocate, assignmentFindings_relocate, Expr.infer_relocate,
      ScopeFindings.relocate_append]
  | .exprStmt _ e => by
    rw [Stmt.relocate, Stmt.resolve, Stmt.resolve]
    exact .find fun r => congrArg Prod.snd (e.infer_relocate f r.table)
  | .ifStmt _ condition body none => by
    rw [Stmt.relocate, Stmt.resolve, Stmt.resolve]
    exact .andThen (.find fun r => congrArg Prod.snd (condition.infer_relocate f r.table))
      (.inScope (Block.resolve_relocate hf body))
  | .ifStmt _ condition body (some other) => by
    rw [Stmt.relocate, Stmt.resolve, Stmt.resolve]
    exact .andThen (.find fun r => congrArg Prod.snd (condition.infer_relocate f r.table))
      (.andThen (.inScope (Block.resolve_relocate hf body)) (.inScope (Block.resolve_relocate hf other)))
  | .forLoop pos loopVar iterable body => by
    rw [Stmt.relocate, Stmt.resolve, Stmt.resolve]
    refine .andThen (.find fun r => ?_)
      (.inScope (.andThen (.declare hf _) (Block.resolve_relocate hf body)))
    show ((iterable.relocate f).infer (r.table.relocate f)).2 ++
      iterableFindings _ ((iterable.relocate f).infer (r.table.relocate f)).1 = _
    rw [Expr.infer_relocate, Expr.pos_relocate, ScopeFindings.relocate_append]
    unfold iterableFindings
    rw [ScopeFindings.relocate_demand]
    rfl
  | .function pos name params body => by
    rw [Stmt.relocate, Stmt.resolve, Stmt.resolve]
    exact .andThen (.declare hf _) (.inFunction (.inScope
      (.andThen (.each (fun _ => .declare hf _) params) (Block.resolve_relocate hf body))))
  | .exec _ _ => .done
  | .block b => by
    rw [Stmt.relocate, Stmt.resolve, Stmt.resolve]
    exact .inScope (Block.resolve_relocate hf b)
  | .returnStmt pos value => by
    rw [Stmt.relocate, Stmt.resolve, Stmt.resolve]
    refine .find fun r => ?_
    show demand (r.functionDepth ≠ 0) _ _ ++
      (Expr.inferOption (r.table.relocate f) (value.map (Expr.relocate f))).2 = _
    rw [Expr.inferOption_relocate, ScopeFindings.relocate_append, ScopeFindings.relocate_demand]
    rfl
  | .config _ | .database _ _ _ | .model _ | .collection _ | .auth _ | .role _ | .middleware _
  | .event _ | .eventHandler _ | .integration _ | .webhook _ | .endpoint _ | .workflow _ | .job _ => by
    rw [Stmt.relocate, Stmt.resolve, Stmt.resolve]
    refine .find fun r => ?_
    rw [ScopeFindings.relocate_demand]
    rfl

theorem Stmt.resolveAll_relocate (hf : KeepsInvalid f) : ∀ ss : List Stmt,
    Resolve.Relocates f (Stmt.resolveAll ss) (Stmt.resolveAll (Stmt.relocateAll f ss))
  | [] => .done
  | s :: ss => by
    rw [Stmt.relocateAll, Stmt.resolveAll, Stmt.resolveAll]
    exact .andThen (Stmt.resolve_relocate hf s) (Stmt.resolveAll_relocate hf ss)

theorem Block.resolve_relocate (hf : KeepsInvalid f) :
    ∀ b : Block, Resolve.Relocates f b.resolve (b.relocate f).resolve
  | .mk _ ss => by
    rw [Block.relocate, Block.resolve, Block.resolve]
    exact Stmt.resolveAll_relocate hf ss

end

theorem Program.scopeFindings_relocate (hf : KeepsInvalid f) (p : Program) :
    (p.relocate f).scopeFindings = ScopeFindings.relocate f p.scopeFindings := by
  have hstart : Resolver.start.relocate f = .start :=
    congrArg (Resolver.mk · 0 0) (SymbolTable.initial_relocate f hf)
  have hpass := Stmt.resolveAll_relocate hf p.statements .start
  rw [hstart, Stmt.relocateAll_eq_map] at hpass
  exact congrArg Prod.snd hpass

end Statements

end ServiceLang
