import ServiceLang.Ast.Endpoint
import ServiceLang.Ast.Flow

/-!
Statements, blocks and programs.

A program is a list of statements; endpoints come last when it is parsed.
Statements and blocks are mutually recursive.  A database block holds statements
too, of which only models and collections are well formed.
-/

namespace ServiceLang

mutual

inductive Stmt where
  | varDecl (pos : Position) (name : String) (value : Option Expr)
  | assignment (pos : Position) (name : String) (value : Expr)
  | exprStmt (pos : Position) (expr : Expr)
  | ifStmt (pos : Position) (condition : Expr) (thenBlock : Block) (elseBlock : Option Block)
  | forLoop (pos : Position) (loopVar : String) (iterable : Expr) (body : Block)
  | function (pos : Position) (name : String) (params : List String) (body : Block)
  | exec (pos : Position) (command : String)
  | block (b : Block)
  | returnStmt (pos : Position) (value : Option Expr)
  | config (c : Config)
  | database (pos : Position) (engine : Engine) (declarations : List Stmt)
  | model (m : Model)
  | collection (m : Model)
  | auth (a : Auth)
  | role (r : PropertyBlock)
  | middleware (m : PropertyBlock)
  | event (e : Event)
  | eventHandler (h : EventHandler)
  | integration (i : Integration)
  | webhook (w : Webhook)
  | endpoint (e : Endpoint)
  | workflow (f : Flow)
  | job (j : Job)

inductive Block where
  | mk (pos : Position) (statements : List Stmt)

end

namespace Block

def pos : Block → Position
  | mk p _ => p

def statements : Block → List Stmt
  | mk _ ss => ss

end Block

namespace Stmt

def pos : Stmt → Position
  | varDecl p _ _ | assignment p _ _ | exprStmt p _ | ifStmt p _ _ _ | forLoop p _ _ _
  | function p _ _ _ | exec p _ | returnStmt p _ | database p _ _ => p
  | block b => b.pos
  | config c => c.pos
  | model m | collection m => m.pos
  | auth a => a.pos
  | role r | middleware r => r.pos
  | event e => e.pos
  | eventHandler h => h.pos
  | integration i => i.pos
  | webhook w => w.pos
  | endpoint e => e.pos
  | workflow f => f.pos
  | job j => j.flow.pos

end Stmt

/-- A program. -/
structure Program where
  pos : Position
  statements : List Stmt

namespace Program

/-- The endpoints of a program, in the order of its statements. -/
def endpoints (p : Program) : List Endpoint :=
  p.statements.filterMap fun
    | .endpoint e => some e
    | _ => none

/-- The workflows of a program, in the order of its statements. -/
def workflows (p : Program) : List Flow :=
  p.statements.filterMap fun
    | .workflow f => some f
    | _ => none

/-- The jobs of a program, in the order of its statements. -/
def jobs (p : Program) : List Job :=
  p.statements.filterMap fun
    | .job j => some j
    | _ => none

theorem mem_endpoints_iff (p : Program) (e : Endpoint) :
    e ∈ p.endpoints ↔ .endpoint e ∈ p.statements := by
  unfold endpoints
  rw [List.mem_filterMap]
  constructor
  · rintro ⟨s, hs, he⟩
    split at he
    · cases he
      exact hs
    · cases he
  · intro h
    exact ⟨_, h, rfl⟩

theorem mem_workflows_iff (p : Program) (f : Flow) :
    f ∈ p.workflows ↔ .workflow f ∈ p.statements := by
  unfold workflows
  rw [List.mem_filterMap]
  constructor
  · rintro ⟨s, hs, hf⟩
    split at hf
    · cases hf
      exact hs
    · cases hf
  · intro h
    exact ⟨_, h, rfl⟩

theorem mem_jobs_iff (p : Program) (j : Job) : j ∈ p.jobs ↔ .job j ∈ p.statements := by
  unfold jobs
  rw [List.mem_filterMap]
  constructor
  · rintro ⟨s, hs, hj⟩
    split at hj
    · cases hj
      exact hs
    · cases hj
  · intro h
    exact ⟨_, h, rfl⟩

end Program

/-! ## Equality up to positions -/

mutual

def Stmt.same : Stmt → Stmt → Bool
  | .varDecl _ n v, .varDecl _ n' v' => n == n' && sameOption Expr.same v v'
  | .assignment _ n v, .assignment _ n' v' => n == n' && v.same v'
  | .exprStmt _ e, .exprStmt _ e' => e.same e'
  | .ifStmt _ c t none, .ifStmt _ c' t' none => c.same c' && t.same t'
  | .ifStmt _ c t (some e), .ifStmt _ c' t' (some e') => c.same c' && t.same t' && e.same e'
  | .forLoop _ v i b, .forLoop _ v' i' b' => v == v' && i.same i' && b.same b'
  | .function _ n ps b, .function _ n' ps' b' => n == n' && ps == ps' && b.same b'
  | .exec _ c, .exec _ c' => c == c'
  | .block b, .block b' => b.same b'
  | .returnStmt _ v, .returnStmt _ v' => sameOption Expr.same v v'
  | .config c, .config c' => c.same c'
  | .database _ e ds, .database _ e' ds' => e == e' && Stmt.sameAll ds ds'
  | .model m, .model m' => m.same m'
  | .collection m, .collection m' => m.same m'
  | .auth a, .auth a' => a.same a'
  | .role r, .role r' => r.same r'
  | .middleware m, .middleware m' => m.same m'
  | .event e, .event e' => e.same e'
  | .eventHandler h, .eventHandler h' => h.same h'
  | .integration i, .integration i' => i.same i'
  | .webhook w, .webhook w' => w.same w'
  | .endpoint e, .endpoint e' => e.same e'
  | .workflow f, .workflow f' => f.same f'
  | .job j, .job j' => j.same j'
  | _, _ => false

def Stmt.sameAll : List Stmt → List Stmt → Bool
  | [], [] => true
  | a :: as, b :: bs => a.same b && Stmt.sameAll as bs
  | _, _ => false

def Block.same : Block → Block → Bool
  | .mk _ ss, .mk _ ss' => Stmt.sameAll ss ss'

end

/-- Equality up to positions. -/
def Program.same (a b : Program) : Bool := Stmt.sameAll a.statements b.statements

end ServiceLang
