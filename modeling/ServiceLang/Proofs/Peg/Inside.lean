import ServiceLang.Grammar.Endpoint
import ServiceLang.Grammar.Flow
import ServiceLang.Proofs.Peg.Depth
import ServiceLang.Proofs.Peg.Fuel

/-!
Nodes that start before the end of the text.

A node can be empty, and the node of the end of input is: it starts where the text ends.  No node of
a declaration does, since what can be empty has something read behind it.  `Pattern.encloses` decides
that from the definitions, `Derives.offset_lt_of_encloses` says it of derivations, and
`offset_lt_of_parse` of the trees of a text: all nodes but the root and the end of input start at a
byte of the text.
-/

namespace ServiceLang.Peg

variable {R : Type} {g : Grammar R}

/-- Every node that the pattern leaves starts before the end of what the pattern matches; `ok` says
it of rules, and `eats` which rules read a character. -/
def Pattern.encloses (eats ok : R → Bool) : Pattern R → Bool
  | literal _ | oneOf _ | notHere _ | textStart | textEnd => true
  | rule r => ok r
  | andThen p q => (p.encloses eats ok || q.consumes eats) && q.encloses eats ok
  | orElse p q => p.encloses eats ok && q.encloses eats ok
  | many p | optional p => p.encloses eats ok

/-- The same of a rule: it leaves no node of its own or reads a character, with `n` rules inside
each other unfolded, and its pattern encloses what it leaves. -/
def Grammar.encloses (g : Grammar R) (n : Nat) (ok : R → Bool) (r : R) : Bool :=
  ((g.definition r).kind = .silent || g.consumes n r) &&
    (g.definition r).pattern.encloses (g.consumes n) ok

/-! ## Derivations -/

/-- The nodes of a rule are its own node and those of its pattern. -/
theorem mem_nodesAll_keepNodes {kind : Kind} {r : R} {mode : Mode} {c : Cursor} {stop : Nat}
    {inner : List (ParseTree R)} {u : ParseTree R}
    (hu : u ∈ ParseTree.nodesAll (keepNodes kind r mode c stop inner)) :
    kind ≠ .silent ∧ u = .node r c stop inner ∨ u ∈ ParseTree.nodesAll inner := by
  unfold keepNodes nodesOf at hu
  split at hu
  · exact .inr hu
  next hk =>
  split at hu
  · obtain ⟨t, ht, hu⟩ := (ParseTree.mem_nodesAll_iff _ u).1 hu
    rw [List.mem_singleton.1 ht] at hu
    exact (List.mem_cons.1 hu).imp (fun h => ⟨hk, h⟩) id
  · exact .inr hu

theorem mem_nodesAll_append {ts us : List (ParseTree R)} {u : ParseTree R} :
    u ∈ ParseTree.nodesAll (ts ++ us) ↔
      u ∈ ParseTree.nodesAll ts ∨ u ∈ ParseTree.nodesAll us := by
  simp only [ParseTree.mem_nodesAll_iff, List.mem_append, or_and_right, exists_or]

namespace Derives

variable {sep : Bool} {p : Pattern R} {mode : Mode} {c d : Cursor} {nodes : List (ParseTree R)}

theorem offset_lt (h : Derives g sep p mode c nodes d) (n : Nat) (hp : p.consumes (g.consumes n)) :
    c.offset < d.offset := by
  have hlt := h.length_lt n hp
  obtain ⟨k, hk⟩ := h.reaches
  cases k with
  | nil =>
    rw [hk.eq_of_nil] at hlt
    exact absurd hlt (Nat.lt_irrefl _)
  | cons x k => exact hk.offset_lt

/-- No node starts behind the end. -/
theorem offset_le_of_mem_nodesAll (h : Derives g sep p mode c nodes d) :
    ∀ u ∈ ParseTree.nodesAll nodes, u.offset ≤ d.offset := by
  induction h with
  | @rule sep r mode c d nodes h ih =>
    intro u hu
    rcases mem_nodesAll_keepNodes hu with ⟨-, rfl⟩ | hu
    · exact h.reaches.offset_le
    · exact ih u hu
  | andThen _ h2 ih1 ih2 | again _ h2 ih1 ih2 =>
    intro u hu
    rcases mem_nodesAll_append.1 hu with hu | hu
    · exact Nat.le_trans (ih1 u hu) ((reaches_gap _ _ _).trans h2.reaches).offset_le
    · exact ih2 u hu
  | first _ ih | second _ ih | once _ ih | «with» _ ih => exact ih
  | literal | oneOf | none | without | notHere | textStart | textEnd => exact fun u hu => by cases hu

/-- Every node that an enclosing pattern leaves starts before the end. -/
theorem offset_lt_of_encloses {n : Nat} {ok : R → Bool} (hok : ∀ r, ok r → g.encloses n ok r)
    (h : Derives g sep p mode c nodes d) (hp : p.encloses (g.consumes n) ok) :
    ∀ u ∈ ParseTree.nodesAll nodes, u.offset < d.offset := by
  induction h with
  | @rule sep r mode c d nodes h ih =>
    obtain ⟨hown, hinner⟩ := Bool.and_eq_true_iff.1 (hok r hp)
    intro u hu
    rcases mem_nodesAll_keepNodes hu with ⟨hk, rfl⟩ | hu
    · rcases Bool.or_eq_true_iff.1 hown with hsilent | heats
      · exact absurd (of_decide_eq_true hsilent) hk
      · have hrule : Derives g sep (.rule r) mode c _ d := .rule h
        exact hrule.offset_lt n heats
    · exact ih hinner u hu
  | @andThen sep p q mode c d e nodes more h1 h2 ih1 ih2 =>
    obtain ⟨hp, hq⟩ := Bool.and_eq_true_iff.1 hp
    have hgap := (reaches_gap sep mode d).offset_le
    intro u hu
    rcases mem_nodesAll_append.1 hu with hu | hu
    · rcases Bool.or_eq_true_iff.1 hp with hp | heats
      · have := ih1 hp u hu
        have := h2.reaches.offset_le
        omega
      · -- whatever the first part leaves, the second part reads a character behind it
        have := h1.offset_le_of_mem_nodesAll u hu
        have := h2.offset_lt n heats
        omega
    · exact ih2 hq u hu
  | first _ ih => exact ih (Bool.and_eq_true_iff.1 hp).1
  | second _ ih => exact ih (Bool.and_eq_true_iff.1 hp).2
  | once _ ih | «with» _ ih => exact ih hp
  | again _ h2 ih1 ih2 =>
    intro u hu
    rcases mem_nodesAll_append.1 hu with hu | hu
    · exact Nat.lt_of_lt_of_le (ih1 hp u hu) ((reaches_gap _ _ _).trans h2.reaches).offset_le
    · exact ih2 hp u hu
  | literal | oneOf | none | without | notHere | textStart | textEnd => exact fun u hu => by cases hu

end Derives

/-! ## Texts -/

/-- In a whole text, every node inside the root starts at a byte of the text, the end of input
apart. -/
theorem offset_lt_of_parse [DecidableEq R] {n : Nat} {ok : R → Bool} {root last : R}
    {body : Pattern R} (hroot : g.definition root = ⟨.spaced, .all [.textStart, body, .rule last]⟩)
    (hlast : (g.definition last).kind = .spaced) (hok : ∀ r, ok r → g.encloses n ok r)
    (hbody : body.encloses (g.consumes n) ok) {text : List Char} {trees : List (ParseTree R)}
    (h : g.parse root text = .ok trees) {t u v : ParseTree R} (ht : t ∈ trees) (hu : u ∈ t.children)
    (hrule : u.rule ≠ last) (hv : v ∈ u.nodes) : v.offset < byteLength text := by
  obtain ⟨d, hd⟩ := derives_of_parse _ _ _ h
  obtain ⟨inner, rfl, hinner⟩ := hd.of_spaced (congrArg Definition.kind hroot)
  rw [List.mem_singleton.1 ht] at hu
  rw [congrArg Definition.pattern hroot] at hinner
  obtain ⟨start, b, rest, rfl, hstart, hrest⟩ := hinner.of_andThen
  obtain ⟨before, e, behind, rfl, hbefore, hbehind⟩ := hrest.of_andThen
  obtain ⟨ending, rfl, -⟩ := hbehind.of_spaced hlast
  cases hstart
  have hmem : u ∈ before := by
    rcases List.mem_append.1 (show u ∈ before ++ [_] from hu) with hu | hu
    · exact hu
    · exact absurd (congrArg ParseTree.rule (List.mem_singleton.1 hu)) hrule
  have hlt := hbefore.offset_lt_of_encloses hok hbody v
    ((ParseTree.mem_nodesAll_iff before v).2 ⟨u, hmem, hv⟩)
  have hle := ((reaches_gap _ _ e).trans hbehind.reaches).offset_le
  exact Nat.lt_of_lt_of_le hlt (Nat.le_trans hle hd.offset_le_byteLength)

end ServiceLang.Peg

namespace ServiceLang

open Peg

namespace MainGrammar

/-- The rules of main text whose nodes, and all nodes in them, start before the end. -/
def isInside (r : Rule) : Bool :=
  r ∉ [.program, .lexeme .endOfInput, .lexeme .stringInner, .shellBody]

theorem offset_lt_byteLength {text : List Char} {trees : List (ParseTree Rule)}
    (h : grammar.parse .program text = .ok trees) {t u v : ParseTree Rule} (ht : t ∈ trees)
    (hu : u ∈ t.children) (hrule : u.rule ≠ .lexeme .endOfInput) (hv : v ∈ u.nodes) :
    v.offset < byteLength text := by
  have hok : ∀ r ∈ Rule.all, isInside r → grammar.encloses 12 isInside r := by decide +kernel
  exact offset_lt_of_parse rfl rfl (fun r => hok r r.mem_all) (by decide) h ht hu hrule hv

end MainGrammar

namespace EndpointGrammar

/-- The rules of endpoints whose nodes, and all nodes in them, start before the end. -/
def isInside (r : Rule) : Bool :=
  r ∉ [.endpointFile, .lexeme .endOfInput, .lexeme .stringInner]

theorem offset_lt_byteLength {text : List Char} {trees : List (ParseTree Rule)}
    (h : grammar.parse .endpointFile text = .ok trees) {t u v : ParseTree Rule} (ht : t ∈ trees)
    (hu : u ∈ t.children) (hrule : u.rule ≠ .lexeme .endOfInput) (hv : v ∈ u.nodes) :
    v.offset < byteLength text := by
  have hok : ∀ r ∈ Rule.all, isInside r → grammar.encloses 12 isInside r := by decide +kernel
  exact offset_lt_of_parse rfl rfl (fun r => hok r r.mem_all) (by decide) h ht hu hrule hv

end EndpointGrammar

namespace FlowGrammar

/-- The rules of flows whose nodes, and all nodes in them, start before the end. -/
def isInside (r : Rule) : Bool :=
  r ∉ [.workflowFile, .lexeme .endOfInput, .lexeme .stringInner]

theorem offset_lt_byteLength {text : List Char} {trees : List (ParseTree Rule)}
    (h : grammar.parse .workflowFile text = .ok trees) {t u v : ParseTree Rule} (ht : t ∈ trees)
    (hu : u ∈ t.children) (hrule : u.rule ≠ .lexeme .endOfInput) (hv : v ∈ u.nodes) :
    v.offset < byteLength text := by
  have hok : ∀ r ∈ Rule.all, isInside r → grammar.encloses 12 isInside r := by decide +kernel
  exact offset_lt_of_parse rfl rfl (fun r => hok r r.mem_all) (by decide) h ht hu hrule hv

end FlowGrammar

end ServiceLang
