import Mathlib.Logic.Function.Basic
import ServiceLang.Proofs.Check.LexicalScope

/-!
A symbol table behaves like a stack of maps.

The arena of a table only grows: scopes that were left stay in it, with the symbols that they had.  What
can still be seen is the chain of scopes around the current one.  `MapStack` keeps just that: one map
from names to symbols for each scope of the chain, innermost first, and the number of scopes that were
ever opened.  The two are run on the same actions.

* `SymbolTable.WellFormed`: the current scope exists, each scope but the global one stands behind the one
  around it, and the global scope has the built-in functions.  Every action keeps this.
* `SymbolTable.Looks`: looking outwards scope by scope, without a bound on the steps.
* `StandsFor`: the chain of a table holds the maps of a stack.  Every action keeps this, and both answer
  the same (`StandsFor.step`).
* `SymbolTable.run_simulates`: what follows for all runs from the table that a check starts with.
-/

namespace ServiceLang

/-! ## Actions -/

/-- What can be done with a symbol table. -/
inductive TableAction where
  | push
  | pop
  | declare (symbol : Symbol)
  | lookup (name : String)

/-- What an action answers: the number of the scope that it opened, the symbol that has the name
already, or the symbol that was looked up. -/
inductive TableReply where
  | opened (id : Nat)
  | done
  | taken (first : Symbol)
  | found (symbol : Option Symbol)
deriving DecidableEq

/-- The number of the scope that was opened. -/
def TableReply.opened? : TableReply → Option Nat
  | .opened id => some id
  | _ => none

/-- Actions that close the scopes which they open, and no others. -/
inductive Balanced : List TableAction → Prop
  | nil : Balanced []
  | declare {actions} (symbol : Symbol) (rest : Balanced actions) : Balanced (.declare symbol :: actions)
  | lookup {actions} (name : String) (rest : Balanced actions) : Balanced (.lookup name :: actions)
  | scope {inner actions} (inside : Balanced inner) (rest : Balanced actions) :
      Balanced (.push :: (inner ++ .pop :: actions))

/-- Does actions one after another.  The answers are in the order of the actions. -/
def runActions {σ : Type} (step : σ → TableAction → TableReply × σ) (s : σ) :
    List TableAction → List TableReply × σ
  | [] => ([], s)
  | action :: actions =>
    let rest := runActions step (step s action).2 actions
    ((step s action).1 :: rest.1, rest.2)

theorem runActions_append {σ : Type} (step : σ → TableAction → TableReply × σ) (s : σ)
    (first second : List TableAction) :
    (runActions step s (first ++ second)).2 = (runActions step (runActions step s first).2 second).2 := by
  induction first generalizing s with
  | nil => rfl
  | cons action first ih => exact ih _

namespace SymbolTable

/-- Does one action.  A symbol whose name is taken changes nothing. -/
def step (t : SymbolTable) : TableAction → TableReply × SymbolTable
  | .push => (.opened t.push.current, t.push)
  | .pop => (.done, t.pop)
  | .declare symbol =>
    match t.declare symbol with
    | .ok t' => (.done, t')
    | .error first => (.taken first, t)
  | .lookup name => (.found (t.lookup name), t)

/-- The table that a check starts with is the one in which all built-in functions were declared. -/
theorem declare_builtins :
    (builtins.map builtinSymbol).foldlM declare ⟨#[⟨none, []⟩], 0⟩ = .ok initial := by
  rfl

def run (t : SymbolTable) (actions : List TableAction) : List TableReply × SymbolTable :=
  runActions step t actions

end SymbolTable

/-! ## The stack of maps -/

/-- The map of the current scope, those of the scopes around it, and how many scopes were opened in
the global one so far. -/
structure MapStack where
  top : String → Option Symbol
  below : List (String → Option Symbol)
  opened : Nat

namespace MapStack

/-- The global map knows the built-in functions. -/
def initial : MapStack :=
  ⟨fun name => (builtins.lookup name).map fun (arity, returns) => builtinSymbol (name, arity, returns), [], 0⟩

/-- An empty map on top. -/
def push (m : MapStack) : MapStack := ⟨fun _ => none, m.top :: m.below, m.opened + 1⟩

/-- The map below is on top again; the global map stays. -/
def pop (m : MapStack) : MapStack :=
  match m.below with
  | [] => m
  | outer :: below => ⟨outer, below, m.opened⟩

theorem pop_eq {m : MapStack} {outer : String → Option Symbol} {below : List (String → Option Symbol)}
    (h : m.below = outer :: below) : m.pop = ⟨outer, below, m.opened⟩ := by
  unfold pop
  rw [h]

/-- The symbol that the innermost map which knows the name has for it. -/
def lookup (m : MapStack) (name : String) : Option Symbol := (m.top :: m.below).findSome? (· name)

def step (m : MapStack) : TableAction → TableReply × MapStack
  | .push => (.opened m.push.opened, m.push)
  | .pop => (.done, m.pop)
  | .declare symbol =>
    match m.top symbol.name with
    | some first => (.taken first, m)
    | none => (.done, { m with top := Function.update m.top symbol.name (some symbol) })
  | .lookup name => (.found (m.lookup name), m)

def run (m : MapStack) (actions : List TableAction) : List TableReply × MapStack :=
  runActions step m actions

end MapStack

/-! ## Well-formed tables -/

namespace SymbolTable

/-- The current scope exists, every scope but the global one stands behind the one around it, and the
global scope has the built-in functions. -/
structure WellFormed (t : SymbolTable) : Prop where
  current_lt : t.current < t.scopes.size
  parent_lt : ∀ id s, t.scopes[id]? = some s → id ≠ 0 → ∃ outer < id, s.parent = some outer
  global : ∃ s, t.scopes[0]? = some s ∧ s.parent = none ∧
    ∀ b ∈ builtins, s.find? b.1 = some (builtinSymbol b)

/-- Looking for a name outwards, from a scope or from nowhere: this is found. -/
inductive Looks (scopes : Array Scope) (name : String) : Option Nat → Option Symbol → Prop
  | nowhere : Looks scopes name none none
  | here {id s symbol} (here : scopes[id]? = some s) (found : s.find? name = some symbol) :
      Looks scopes name (some id) (some symbol)
  | outwards {id s result} (here : scopes[id]? = some s) (missing : s.find? name = none)
      (rest : Looks scopes name s.parent result) : Looks scopes name (some id) result

variable {t t' : SymbolTable} {symbol : Symbol}

theorem step_declare_ok (h : t.declare symbol = .ok t') : t.step (.declare symbol) = (.done, t') := by
  simp [step, h]

theorem step_declare_error {first : Symbol} (h : t.declare symbol = .error first) :
    t.step (.declare symbol) = (.taken first, t) := by
  simp [step, h]

/-- A scope behind a declaration is the scope from before, up to the symbol at its end. -/
theorem exists_of_declare (h : t.declare symbol = .ok t') {id : Nat} {s' : Scope}
    (hs : t'.scopes[id]? = some s') : ∃ s more, t.scopes[id]? = some s ∧ s' = ⟨s.parent, s.symbols ++ more⟩ := by
  unfold declare at h
  split at h
  · cases h
  · cases h
    rw [Array.getElem?_modify] at hs
    split at hs
    · obtain ⟨s, hid, rfl⟩ := Option.map_eq_some_iff.1 hs
      exact ⟨s, [symbol], hid, rfl⟩
    · exact ⟨s', [], hs, by simp⟩

theorem declare_current (h : t.declare symbol = .ok t') : t'.current = t.current := by
  unfold declare at h
  split at h <;> cases h
  rfl

theorem declare_size (h : t.declare symbol = .ok t') : t'.scopes.size = t.scopes.size := by
  unfold declare at h
  split at h <;> cases h
  exact Array.size_modify

namespace WellFormed

theorem initial : SymbolTable.initial.WellFormed where
  current_lt := Nat.zero_lt_one
  parent_lt id s hs hid := by
    have : id < 1 := (Array.getElem?_eq_some_iff.1 hs).1
    omega
  global := ⟨_, rfl, rfl, by decide⟩

theorem push (h : t.WellFormed) : t.push.WellFormed where
  current_lt := by simp [SymbolTable.push]
  parent_lt id s hs hid := by
    unfold SymbolTable.push at hs
    rw [Array.getElem?_push] at hs
    split at hs
    · next hsize =>
      cases hs
      exact ⟨t.current, hsize ▸ h.current_lt, rfl⟩
    · exact h.parent_lt id s hs hid
  global := by
    obtain ⟨s, hs, hparent, hfind⟩ := h.global
    have hsize : 0 < t.scopes.size := Nat.zero_lt_of_lt h.current_lt
    refine ⟨s, ?_, hparent, hfind⟩
    unfold SymbolTable.push
    rw [Array.getElem?_push, if_neg (by omega), hs]

theorem exists_top (h : t.WellFormed) : t.scopes[t.current]? = some t.top := by
  simp [top, Array.getD_eq_getD_getElem?, h.current_lt]

theorem pop (h : t.WellFormed) : t.pop.WellFormed := by
  unfold SymbolTable.pop
  split
  · exact h
  · next outer houter =>
    refine ⟨?_, h.parent_lt, h.global⟩
    have hcurrent : t.current ≠ 0 := by
      intro hzero
      obtain ⟨s, hs, hparent, -⟩ := h.global
      have htop := h.exists_top
      rw [hzero, hs] at htop
      rw [← Option.some.inj htop, hparent] at houter
      cases houter
    obtain ⟨outer', hlt, houter'⟩ := h.parent_lt _ _ h.exists_top hcurrent
    obtain rfl : outer = outer' := Option.some.inj (houter.symm.trans houter')
    exact Nat.lt_trans hlt h.current_lt

theorem declare (h : t.WellFormed) (declared : t.declare symbol = .ok t') : t'.WellFormed where
  current_lt := by
    rw [declare_current declared, declare_size declared]
    exact h.current_lt
  parent_lt id s' hs' hid := by
    obtain ⟨s, more, hs, rfl⟩ := exists_of_declare declared hs'
    exact h.parent_lt id s hs hid
  global := by
    obtain ⟨s, hs, hparent, hfind⟩ := h.global
    have hsize : 0 < t'.scopes.size := by
      rw [declare_size declared]
      exact Nat.zero_lt_of_lt h.current_lt
    have hs' := Array.getElem?_eq_getElem hsize
    obtain ⟨s₀, more, hs₀, heq⟩ := exists_of_declare declared hs'
    obtain rfl : s = s₀ := Option.some.inj (hs.symm.trans hs₀)
    refine ⟨_, hs', by rw [heq]; exact hparent, fun b hb => ?_⟩
    have := hfind b hb
    unfold Scope.find? at this ⊢
    rw [heq, List.find?_append, this]
    rfl

end WellFormed

/-- In the global scope there is nothing to leave. -/
theorem WellFormed.pop_global (h : t.WellFormed) (hcurrent : t.current = 0) : t.pop = t := by
  obtain ⟨s, hs, hparent, -⟩ := h.global
  have htop := h.exists_top
  rw [hcurrent, hs] at htop
  unfold SymbolTable.pop
  rw [← Option.some.inj htop, hparent]

/-- Looking outwards along a chain ends, with the first symbol that the frames have. -/
theorem Looks.of_chain {scopes : Array Scope} {id : Nat} {own : List Symbol} {outer : List (List Symbol)}
    (h : Chain scopes id own outer) (name : String) :
    Looks scopes name (some id) ((own :: outer).findSome? (·.find? (·.name == name))) := by
  induction h with
  | @outermost id own here =>
    cases hfind : own.find? (·.name == name) with
    | some symbol => simpa [hfind] using Looks.here here hfind
    | none => simpa [hfind] using Looks.outwards here hfind .nowhere
  | @within id parent own own' outer here behind rest ih =>
    rw [List.findSome?_cons]
    cases hfind : own.find? (·.name == name) with
    | some symbol => exact .here here hfind
    | none => exact .outwards here hfind ih

end SymbolTable

/-! ## The maps of a table -/

def symbolMap (symbols : List Symbol) : String → Option Symbol := fun name => symbols.find? (·.name == name)

theorem symbolMap_concat {symbols : List Symbol} {symbol : Symbol} (h : symbolMap symbols symbol.name = none) :
    symbolMap (symbols ++ [symbol]) = Function.update (symbolMap symbols) symbol.name (some symbol) := by
  funext name
  unfold symbolMap at h ⊢
  rw [List.find?_append]
  by_cases hname : name = symbol.name
  · subst hname
    simp [h]
  · have hne : (symbol.name == name) = false := by simpa using Ne.symm hname
    simp [hname, hne]

theorem symbolMap_builtins : symbolMap (builtins.map builtinSymbol) = MapStack.initial.top := by
  have find (l : List (String × Nat × ValueType)) (name : String) :
      (l.map builtinSymbol).find? (·.name == name) =
        (l.lookup name).map fun (arity, returns) => builtinSymbol (name, arity, returns) := by
    induction l with
    | nil => rfl
    | cons b l ih =>
      obtain ⟨own, arity, returns⟩ := b
      rw [List.map_cons, List.find?_cons, List.lookup_cons]
      by_cases h : own = name
      · subst h
        simp [builtinSymbol]
      · have hne : (own == name) = false := by simpa using h
        have hne' : (name == own) = false := by simpa using Ne.symm h
        simp [builtinSymbol, hne, hne', ih]
  funext name
  exact find builtins name

/-- The scopes from the current one outwards hold the maps of the stack. -/
structure StandsFor (t : SymbolTable) (m : MapStack) : Prop where
  wellFormed : t.WellFormed
  chain : ∃ own outer, Chain t.scopes t.current own outer ∧ m.top = symbolMap own ∧
    m.below = outer.map symbolMap
  opened : t.scopes.size = m.opened + 1

namespace StandsFor

variable {t : SymbolTable} {m : MapStack}

theorem initial : StandsFor .initial .initial where
  wellFormed := .initial
  chain := ⟨_, _, .outermost rfl, symbolMap_builtins.symm, rfl⟩
  opened := rfl

theorem find?_top (h : StandsFor t m) (name : String) : t.top.find? name = m.top name := by
  obtain ⟨own, outer, hchain, htop, -⟩ := h.chain
  rw [hchain.find?_top, htop]
  rfl

theorem lookup_eq (h : StandsFor t m) (name : String) : t.lookup name = m.lookup name := by
  obtain ⟨own, outer, hchain, htop, hbelow⟩ := h.chain
  unfold SymbolTable.lookup MapStack.lookup
  rw [hchain.lookupFrom_eq name hchain.lt_size, htop, hbelow, ← List.map_cons, List.findSome?_map]
  rfl

theorem looks (h : StandsFor t m) (name : String) :
    SymbolTable.Looks t.scopes name (some t.current) (t.lookup name) := by
  obtain ⟨own, outer, hchain, -, -⟩ := h.chain
  have := SymbolTable.Looks.of_chain hchain name
  rwa [← hchain.lookupFrom_eq name hchain.lt_size] at this

/-- A declaration fails just if the current map knows the name. -/
theorem declare_eq_error_iff (h : StandsFor t m) (symbol first : Symbol) :
    t.declare symbol = .error first ↔ m.top symbol.name = some first := by
  rw [← h.find?_top]
  unfold SymbolTable.declare
  cases t.top.find? symbol.name <;> simp

theorem push (h : StandsFor t m) : StandsFor t.push m.push := by
  obtain ⟨own, outer, hchain, htop, hbelow⟩ := h.chain
  refine ⟨h.wellFormed.push, ⟨[], own :: outer, hchain.push, rfl, ?_⟩, ?_⟩
  · rw [MapStack.push, htop, hbelow, List.map_cons]
  · simp [SymbolTable.push, MapStack.push, h.opened]

theorem pop (h : StandsFor t m) : StandsFor t.pop m.pop := by
  obtain ⟨own, outer, hchain, htop, hbelow⟩ := h.chain
  have hcurrent := h.wellFormed.exists_top
  cases hchain with
  | outermost here =>
    have ht : t.pop = t := by
      rw [here] at hcurrent
      simp [SymbolTable.pop, ← Option.some.inj hcurrent]
    have hm : m.pop = m := by simp [MapStack.pop, hbelow]
    rw [ht, hm]
    exact h
  | @within _ parent _ own' outer here behind rest =>
    have ht : t.pop = { t with current := parent } := by
      rw [here] at hcurrent
      simp [SymbolTable.pop, ← Option.some.inj hcurrent]
    have hm : m.pop = ⟨symbolMap own', outer.map symbolMap, m.opened⟩ := MapStack.pop_eq hbelow
    refine ⟨h.wellFormed.pop, ?_, ?_⟩
    · rw [ht, hm]
      exact ⟨own', outer, rest, rfl, rfl⟩
    · rw [ht, hm]
      exact h.opened

theorem declare (h : StandsFor t m) {symbol : Symbol} {t' : SymbolTable} (declared : t.declare symbol = .ok t') :
    StandsFor t' { m with top := Function.update m.top symbol.name (some symbol) } := by
  obtain ⟨own, outer, hchain, htop, hbelow⟩ := h.chain
  have hfree : symbolMap own symbol.name = none := by
    rw [← htop, Option.eq_none_iff_forall_ne_some]
    intro first hfirst
    rw [(h.declare_eq_error_iff symbol first).2 hfirst] at declared
    cases declared
  refine ⟨h.wellFormed.declare declared, ⟨_, outer, hchain.declare declared, ?_, hbelow⟩, ?_⟩
  · rw [symbolMap_concat hfree, htop]
  · rw [SymbolTable.declare_size declared]
    exact h.opened

/-- Both answer the same, and stand for each other again. -/
theorem step (h : StandsFor t m) (action : TableAction) :
    (t.step action).1 = (m.step action).1 ∧ StandsFor (t.step action).2 (m.step action).2 := by
  cases action with
  | push => exact ⟨congrArg TableReply.opened h.opened, h.push⟩
  | pop => exact ⟨rfl, h.pop⟩
  | declare symbol =>
    cases declared : t.declare symbol with
    | ok t' =>
      have hfree : m.top symbol.name = none := by
        rw [Option.eq_none_iff_forall_ne_some]
        intro first hfirst
        rw [(h.declare_eq_error_iff symbol first).2 hfirst] at declared
        cases declared
      have hm : m.step (.declare symbol) =
          (.done, { m with top := Function.update m.top symbol.name (some symbol) }) := by
        simp [MapStack.step, hfree]
      rw [SymbolTable.step_declare_ok declared, hm]
      exact ⟨rfl, h.declare declared⟩
    | error first =>
      have hm : m.step (.declare symbol) = (.taken first, m) := by
        simp [MapStack.step, (h.declare_eq_error_iff symbol first).1 declared]
      rw [SymbolTable.step_declare_error declared, hm]
      exact ⟨rfl, h⟩
  | lookup name => exact ⟨congrArg TableReply.found (h.lookup_eq name), h⟩

theorem run (h : StandsFor t m) (actions : List TableAction) :
    (t.run actions).1 = (m.run actions).1 ∧ StandsFor (t.run actions).2 (m.run actions).2 := by
  induction actions generalizing t m with
  | nil => exact ⟨rfl, h⟩
  | cons action actions ih =>
    obtain ⟨hreply, hstep⟩ := h.step action
    obtain ⟨hreplies, hrun⟩ := ih hstep
    exact ⟨congrArg₂ List.cons hreply hreplies, hrun⟩

end StandsFor

/-! ## What runs of the stack show -/

namespace MapStack

/-- Scopes are numbered in the order in which they are opened. -/
theorem pairwise_opened (m : MapStack) (actions : List TableAction) :
    ((m.run actions).1.filterMap TableReply.opened?).Pairwise (· < ·) ∧
      ∀ id ∈ (m.run actions).1.filterMap TableReply.opened?, m.opened < id := by
  induction actions generalizing m with
  | nil => exact ⟨.nil, nofun⟩
  | cons action actions ih =>
    obtain ⟨hpairwise, hlt⟩ := ih (m.step action).2
    have hrun : (m.run (action :: actions)).1 = (m.step action).1 :: ((m.step action).2.run actions).1 := rfl
    rw [hrun, List.filterMap_cons]
    cases action with
    | push =>
      refine ⟨.cons hlt hpairwise, fun id hid => ?_⟩
      rcases List.mem_cons.1 hid with rfl | hid
      · exact Nat.lt_succ_self _
      · exact Nat.lt_of_succ_lt (hlt id hid)
    | pop =>
      have hopened : m.pop.opened = m.opened := by
        unfold pop
        split <;> rfl
      exact ⟨hpairwise, fun id hid => hopened ▸ hlt id hid⟩
    | declare symbol =>
      have hstep : (m.step (.declare symbol)).1.opened? = none ∧
          (m.step (.declare symbol)).2.opened = m.opened := by
        unfold step
        dsimp only
        split <;> exact ⟨rfl, rfl⟩
      rw [hstep.1]
      exact ⟨hpairwise, fun id hid => hstep.2 ▸ hlt id hid⟩
    | lookup name => exact ⟨hpairwise, hlt⟩

/-- Balanced actions leave the maps below alone. -/
theorem below_run {actions : List TableAction} (h : Balanced actions) (m : MapStack) :
    (m.run actions).2.below = m.below := by
  induction h generalizing m with
  | nil => rfl
  | declare symbol _ ih =>
    refine (ih _).trans ?_
    unfold step
    dsimp only
    split <;> rfl
  | lookup name _ ih => exact ih m
  | @scope inner actions _ _ ihInner ih =>
    have hpop : (m.push.run inner).2.pop.below = m.below := by rw [pop_eq (ihInner m.push)]
    calc (m.run (.push :: (inner ++ .pop :: actions))).2.below
        = ((m.push.run inner).2.pop.run actions).2.below :=
          congrArg below (runActions_append step m.push inner (.pop :: actions))
      _ = m.below := (ih _).trans hpop

/-- Behind a scope that was opened and closed every name has the symbol from before it. -/
theorem lookup_run_scope {inner : List TableAction} (h : Balanced inner) (m : MapStack) (name : String) :
    (m.run (.push :: (inner ++ [.pop]))).2.lookup name = m.lookup name := by
  have hrun : (m.run (.push :: (inner ++ [.pop]))).2 = (m.push.run inner).2.pop :=
    runActions_append step m.push inner [.pop]
  rw [hrun, pop_eq (below_run h m.push)]
  rfl

end MapStack

/-- A table that is used in any way from the start on is well-formed, so looking up ends; scopes are
numbered upwards and no number is given twice; the global scope is never left; the table answers what a
stack of maps answers, where a name is taken just if the innermost map has it, and then nothing changes;
and behind a scope that was opened and closed every name has the symbol from before it. -/
theorem SymbolTable.run_simulates (actions : List TableAction) :
    let t := (initial.run actions).2
    let m := (MapStack.initial.run actions).2
    let ids := (initial.run actions).1.filterMap TableReply.opened?
    t.WellFormed ∧ (∀ name, Looks t.scopes name (some t.current) (t.lookup name)) ∧
      (ids.Pairwise (· < ·) ∧ ∀ id ∈ ids, 0 < id) ∧
      (t.current = 0 → t.pop = t) ∧
      ((initial.run actions).1 = (MapStack.initial.run actions).1 ∧ ∀ name, t.lookup name = m.lookup name) ∧
      (∀ symbol first, t.declare symbol = .error first ↔ m.top symbol.name = some first) ∧
      (∀ symbol first, t.declare symbol = .error first → t.step (.declare symbol) = (.taken first, t)) ∧
      ∀ inner, Balanced inner → ∀ name,
        (t.run (.push :: (inner ++ [.pop]))).2.lookup name = t.lookup name := by
  intro t m ids
  obtain ⟨hreplies, h⟩ := StandsFor.initial.run actions
  have hids : ids = (MapStack.initial.run actions).1.filterMap TableReply.opened? := by rw [← hreplies]
  refine ⟨h.wellFormed, h.looks, ?_, h.wellFormed.pop_global, ⟨hreplies, h.lookup_eq⟩, h.declare_eq_error_iff,
    fun _ _ => step_declare_error, fun inner hinner name => ?_⟩
  · rw [hids]
    exact MapStack.initial.pairwise_opened actions
  · rw [(h.run _).2.lookup_eq, MapStack.lookup_run_scope hinner, h.lookup_eq]

/-- A name declared twice in a scope and once more inside of it: the second declaration is refused, the
inner one is seen in its scope only, and scopes are closed once more than they were opened. -/
theorem SymbolTable.run_simulates_shadowed :
    let outer : Symbol := ⟨"x", .var, .number, ⟨"a.cdt", 1, 5, 4⟩⟩
    let again : Symbol := ⟨"x", .var, .string, ⟨"a.cdt", 2, 5, 14⟩⟩
    let inner : Symbol := ⟨"x", .param, .unknown, ⟨"a.cdt", 3, 5, 24⟩⟩
    let t := (initial.run [.pop, .push, .declare outer, .declare again]).2
    let body : List TableAction := [.declare inner, .push, .lookup "x", .pop, .lookup "print"]
    (t.run (.push :: body)).1 = [.opened 2, .done, .opened 3, .found (some inner), .done,
        .found (some (builtinSymbol ("print", 1, .unknown)))] ∧
      t.step (.declare again) = (.taken outer, t) ∧ Balanced body ∧
      (t.run (.push :: (body ++ [.pop]))).2.lookup "x" = some outer := by
  intro outer again inner t body
  obtain ⟨-, -, -, -, ⟨-, hlookup⟩, hdeclare, htaken, hbalanced⟩ :=
    run_simulates [.pop, .push, .declare outer, .declare again]
  have hbody : Balanced body := .declare inner (.scope (.lookup "x" .nil) (.lookup "print" .nil))
  exact ⟨by decide +kernel, htaken again outer ((hdeclare again outer).2 rfl), hbody,
    (hbalanced body hbody "x").trans ((hlookup "x").trans rfl)⟩

end ServiceLang
