import Mathlib.Data.List.Induction
import ServiceLang.Proofs.Decimal.Literal
import ServiceLang.Proofs.Grammar.Level

/-!
Chains of operands and operators, and the trees that they stand for.

A chain is written without parentheses, with single spaces around its operators.  Its
tree is split at the last operator of the loosest level that occurs in it
(`OperatorChain.tree`), so operators of one level group to the left.  Comparisons do not chain:
a stretch without a logical operator has at most one (`OperatorChain.ComparesOnce`).  A chain
that breaks this has a longest beginning that does not, and a second comparison behind it
(`OperatorChain.exists_second_comparison`).
-/

namespace ServiceLang

open MainGrammar

/-- An operand of a chain: a name that is not reserved, or a number without a sign. -/
inductive Atom where
  | name (text : String) (valid : isName text)
  | number (text : List Char) (valid : Decimal.Numeral text)

namespace Atom

def text : Atom → List Char
  | name text _ => text.toList
  | number text _ => text

def expr (pos : Position) : Atom → Expr
  | name text _ => .ident pos text
  | number text _ => .number pos (Decimal.ofLiteral text)

/-- An operand begins with a character of a word. -/
theorem exists_head_text (a : Atom) : ∃ x xs, a.text = x :: xs ∧ isWordChar x := by
  have digits {ds : List Char} (hds : Decimal.IsDigits ds) (rest : List Char) :
      ∃ x xs, ds ++ rest = x :: xs ∧ isWordChar x := by
    obtain ⟨x, xs, rfl⟩ := List.exists_cons_of_ne_nil hds.1
    have hx : x.isDigit = true := hds.2 x List.mem_cons_self
    exact ⟨x, xs ++ rest, rfl, by simp [isWordChar, Char.isAlphanum, hx]⟩
  cases a with
  | name text valid =>
    have hname := (isName_iff text).1 valid
    cases hl : text.toList with
    | nil =>
      have := hname.start
      rw [hl] at this
      cases this
    | cons x xs => exact ⟨x, xs, hl, hname.chars x (by rw [hl]; exact List.mem_cons_self)⟩
  | number text valid =>
    show ∃ x xs, text = x :: xs ∧ isWordChar x
    cases valid with
    | whole hds => simpa using digits hds []
    | fraction hds _ => exact digits hds _

end Atom

/-- Operands with operators between them. -/
structure OperatorChain where
  first : Atom
  rest : List (Spelling × Atom)

namespace OperatorChain

/-- The operators in the order in which they stand. -/
def operators (c : OperatorChain) : List Spelling := c.rest.map Prod.fst

/-- The operators with their right operands, each between spaces. -/
def restText (rest : List (Spelling × Atom)) : List Char :=
  rest.flatMap fun (s, a) => ' ' :: (s.text.toList ++ ' ' :: a.text)

def text (c : OperatorChain) : List Char := c.first.text ++ restText c.rest

/-- Two chains with an operator between them. -/
def join (left : OperatorChain) (s : Spelling) (right : OperatorChain) : OperatorChain :=
  ⟨left.first, left.rest ++ (s, right.first) :: right.rest⟩

theorem operators_join (left : OperatorChain) (s : Spelling) (right : OperatorChain) :
    (left.join s right).operators = left.operators ++ s :: right.operators := by
  simp [operators, join]

theorem text_join (left : OperatorChain) (s : Spelling) (right : OperatorChain) :
    (left.join s right).text = left.text ++ ' ' :: (s.text.toList ++ ' ' :: right.text) := by
  simp [text, restText, join]

/-! ## The tree of a chain -/

/-- The last operator of the level, with the chains on its two sides. -/
def splitLast? (l : Level) (first : Atom) :
    List (Spelling × Atom) → Option (OperatorChain × Spelling × OperatorChain)
  | [] => none
  | (s, a) :: rest =>
    match splitLast? l a rest with
    | some (left, t, right) => some (⟨first, (s, left.first) :: left.rest⟩, t, right)
    | none => if Level.of s.op = l then some (⟨first, []⟩, s, ⟨a, rest⟩) else none

/-- The last operator of the loosest level that occurs: the last `or`, or else the last
`and`, or else a comparison, and so on. -/
def split? (c : OperatorChain) : Option (OperatorChain × Spelling × OperatorChain) :=
  [Level.or, .and, .cmp, .add, .mul].findSome? fun l => splitLast? l c.first c.rest

theorem splitLast?_eq_none_iff (l : Level) (first : Atom) (rest : List (Spelling × Atom)) :
    splitLast? l first rest = none ↔ ∀ s ∈ rest.map Prod.fst, Level.of s.op ≠ l := by
  induction rest generalizing first with
  | nil => simp [splitLast?]
  | cons p rest ih =>
    obtain ⟨s, a⟩ := p
    rw [splitLast?, List.map_cons, List.forall_mem_cons, ← ih a]
    cases splitLast? l a rest with
    | some split => simp
    | none => simp

theorem splitLast?_eq_some {l : Level} {first : Atom} {rest : List (Spelling × Atom)}
    {left right : OperatorChain} {s : Spelling} (h : splitLast? l first rest = some (left, s, right)) :
    ⟨first, rest⟩ = left.join s right ∧ Level.of s.op = l ∧
      ∀ t ∈ right.operators, Level.of t.op ≠ l := by
  induction rest generalizing first left with
  | nil => cases h
  | cons p rest ih =>
    obtain ⟨t, a⟩ := p
    rw [splitLast?] at h
    cases hrest : splitLast? l a rest with
    | some split =>
      obtain ⟨left', t', right'⟩ := split
      rw [hrest] at h
      cases h
      obtain ⟨hjoin, hlevel, hright⟩ := ih hrest
      obtain ⟨rfl, htail⟩ := OperatorChain.mk.inj hjoin
      exact ⟨by rw [htail]; rfl, hlevel, hright⟩
    | none =>
      rw [hrest] at h
      dsimp only at h
      split at h
      · rename_i hlevel
        cases h
        exact ⟨rfl, hlevel, (splitLast?_eq_none_iff l a rest).1 hrest⟩
      · cases h

theorem split?_eq_some {c left right : OperatorChain} {s : Spelling} (h : c.split? = some (left, s, right)) :
    c = left.join s right := by
  obtain ⟨l, -, hl⟩ := List.exists_of_findSome?_eq_some h
  exact (splitLast?_eq_some hl).1

/-- A chain without operators looser than those of the level is split at the last of them. -/
theorem split?_eq_splitLast? {c : OperatorChain} {l : Level} {x : OperatorChain × Spelling × OperatorChain}
    (hc : ∀ s ∈ c.operators, (Level.of s.op).inside ≤ l.inside)
    (h : splitLast? l c.first c.rest = some x) : c.split? = some x := by
  have looser (m : Level) (hm : l.inside < m.inside) : splitLast? m c.first c.rest = none := by
    refine (splitLast?_eq_none_iff m c.first c.rest).2 fun s hs hs' => ?_
    have := hc s hs
    rw [hs'] at this
    omega
  unfold split?
  cases l with
  | or => simp [h]
  | and => simp [h, looser .or (by decide)]
  | cmp => simp [h, looser .or (by decide), looser .and (by decide)]
  | add => simp [h, looser .or (by decide), looser .and (by decide), looser .cmp (by decide)]
  | mul =>
    simp [h, looser .or (by decide), looser .and (by decide), looser .cmp (by decide),
      looser .add (by decide)]

/-- The tree that a chain stands for; all its positions are the same one. -/
def tree (pos : Position) (c : OperatorChain) : Expr :=
  match _h : c.split? with
  | some (left, s, right) => .binary pos (left.tree pos) s.op (right.tree pos)
  | none => c.first.expr pos
termination_by c.rest.length
decreasing_by
  all_goals
    rw [split?_eq_some _h]
    simp only [join, List.length_append, List.length_cons]
    omega

theorem tree_of_split {c left right : OperatorChain} {s : Spelling} (pos : Position)
    (h : c.split? = some (left, s, right)) :
    c.tree pos = .binary pos (left.tree pos) s.op (right.tree pos) := by
  rw [tree]
  split
  · rename_i h'
    rw [h] at h'
    cases h'
    rfl
  · rename_i h'
    rw [h] at h'
    cases h'

theorem tree_of_nil (pos : Position) (a : Atom) : (⟨a, []⟩ : OperatorChain).tree pos = a.expr pos := by
  rw [tree]
  rfl

/-- A chain without looser operators has only tighter ones than those of the level, or its
tree is split at the last operator of the level. -/
theorem split_cases {c : OperatorChain} {l : Level} (hc : ∀ s ∈ c.operators, (Level.of s.op).inside ≤ l.inside) :
    (∀ s ∈ c.operators, (Level.of s.op).inside < l.inside) ∨
      ∃ left s right, c = join left s right ∧ Level.of s.op = l ∧
        (∀ t ∈ left.operators, (Level.of t.op).inside ≤ l.inside) ∧
        (∀ t ∈ right.operators, (Level.of t.op).inside < l.inside) ∧
        ∀ pos, c.tree pos = .binary pos (left.tree pos) s.op (right.tree pos) := by
  cases hsplit : splitLast? l c.first c.rest with
  | none =>
    have other := (splitLast?_eq_none_iff l _ _).1 hsplit
    exact .inl fun s hs =>
      Nat.lt_of_le_of_ne (hc s hs) fun heq => other s hs (Level.eq_of_inside_eq heq)
  | some split =>
    obtain ⟨left, s, right⟩ := split
    obtain ⟨hjoin, hs, hright⟩ := splitLast?_eq_some hsplit
    have hjoin : c = left.join s right := hjoin
    have hops := hc
    rw [hjoin, operators_join] at hops
    refine .inr ⟨left, s, right, hjoin, hs, fun t ht => hops t (List.mem_append_left _ ht),
      fun t ht => ?_, fun pos => tree_of_split pos (split?_eq_splitLast? hc hsplit)⟩
    exact Nat.lt_of_le_of_ne (hops t (List.mem_append_right _ (List.mem_cons_of_mem s ht)))
      fun heq => hright t ht (Level.eq_of_inside_eq heq)

/-! ## Comparisons -/

/-- Operators without a logical one among them. -/
def IsStretch (operators : List Spelling) : Prop := ∀ s ∈ operators, s.op.isLogical = false

/-- No stretch of the chain has two comparisons. -/
def ComparesOnce (c : OperatorChain) : Prop :=
  ∀ stretch, stretch <:+: c.operators → IsStretch stretch →
    stretch.countP (·.op.isComparison) ≤ 1

/-- The last stretch of the chain has a comparison. -/
def EndsCompared (c : OperatorChain) : Prop :=
  ∃ stretch, stretch <:+ c.operators ∧ IsStretch stretch ∧ ∃ s ∈ stretch, s.op.isComparison

theorem ComparesOnce.left {left right : OperatorChain} {s : Spelling} (h : (left.join s right).ComparesOnce) :
    left.ComparesOnce := by
  intro stretch hs
  refine h stretch (hs.trans ?_)
  rw [operators_join]
  exact (List.prefix_append _ _).isInfix

theorem ComparesOnce.right {left right : OperatorChain} {s : Spelling}
    (h : (left.join s right).ComparesOnce) : right.ComparesOnce := by
  intro stretch hs
  refine h stretch (hs.trans ?_)
  rw [operators_join]
  exact ((List.suffix_cons s _).trans (List.suffix_append _ _)).isInfix

/-- The stretch that a chain ends with is behind each of its logical operators. -/
theorem EndsCompared.right {left right : OperatorChain} {s : Spelling} (hs : s.op.isLogical)
    (h : (left.join s right).EndsCompared) : right.EndsCompared := by
  obtain ⟨stretch, hsuffix, hstretch, hcompares⟩ := h
  rw [operators_join] at hsuffix
  refine ⟨stretch, ?_, hstretch, hcompares⟩
  have whole : right.operators <:+ left.operators ++ s :: right.operators :=
    (List.suffix_cons s _).trans (List.suffix_append _ _)
  rcases List.suffix_or_suffix_of_suffix hsuffix whole with h | h
  · exact h
  obtain ⟨before, rfl⟩ := h
  -- what the stretch has besides would begin right before the chain, with the operator
  obtain ⟨first, hfirst⟩ := hsuffix
  rw [← List.append_assoc] at hfirst
  have hbefore : first ++ before = left.operators ++ [s] := by
    have heq : first ++ before ++ right.operators = left.operators ++ [s] ++ right.operators := by
      simpa using hfirst
    exact List.append_cancel_right heq
  rcases List.eq_nil_or_concat before with rfl | ⟨front, t, rfl⟩
  · exact List.suffix_refl _
  · have ht : t = s := by
      have := congrArg List.getLast? hbefore
      simpa [List.concat_eq_append] using this
    have := hstretch t (by simp)
    rw [ht, hs] at this
    cases this

/-- A chain of comparing operators and tighter ones has one comparison at most. -/
theorem ComparesOnce.left_of_comparison {left right : OperatorChain} {s : Spelling}
    (h : (left.join s right).ComparesOnce) (hstretch : IsStretch (left.join s right).operators)
    (hs : s.op.isComparison) : ∀ t ∈ left.operators, t.op.isComparison = false := by
  have hcount := h _ (List.infix_refl _) hstretch
  rw [operators_join, List.countP_append] at hcount
  have one : 0 < (s :: right.operators).countP (·.op.isComparison) :=
    List.countP_pos_iff.2 ⟨s, List.mem_cons_self, hs⟩
  have none : left.operators.countP (·.op.isComparison) = 0 := by omega
  intro t ht
  simpa using List.countP_eq_zero.1 none t ht

/-- A chain with two comparisons in a stretch goes on with a comparison behind a beginning
that has one in its last stretch. -/
theorem exists_second_comparison {c : OperatorChain} (h : ¬c.ComparesOnce) :
    ∃ left s right, c = join left s right ∧ left.ComparesOnce ∧ left.EndsCompared ∧
      s.op.isComparison := by
  obtain ⟨first, rest⟩ := c
  induction rest using List.reverseRecOn with
  | nil =>
    refine absurd (fun stretch hs _ => ?_) h
    rw [List.infix_nil.1 hs]
    exact Nat.zero_le 1
  | append_singleton rest p ih =>
    obtain ⟨s, a⟩ := p
    have hlast : (⟨first, rest ++ [(s, a)]⟩ : OperatorChain) = join ⟨first, rest⟩ s ⟨a, []⟩ := rfl
    by_cases hrest : (⟨first, rest⟩ : OperatorChain).ComparesOnce
    · refine ⟨⟨first, rest⟩, s, ⟨a, []⟩, hlast, hrest, ?_⟩
      rw [hlast, ComparesOnce] at h
      push Not at h
      obtain ⟨stretch, hinfix, hstretch, hcount⟩ := h
      -- the two comparisons are not both in the beginning, so the last operator is one of them
      rw [operators_join] at hinfix
      rcases List.infix_concat_iff.1 hinfix with hsuffix | hinfix
      · rcases List.suffix_concat_iff.1 hsuffix with rfl | ⟨front, rfl, hfront⟩
        · simp at hcount
        · have hstretch' : IsStretch front := fun t ht => hstretch t (List.mem_append_left _ ht)
          have hfew := hrest front hfront.isInfix hstretch'
          rw [List.countP_append, List.countP_singleton] at hcount
          have hcompares : s.op.isComparison := by
            by_contra hs
            rw [if_neg hs] at hcount
            omega
          have hone : 0 < front.countP (·.op.isComparison) := by
            rw [if_pos hcompares] at hcount
            omega
          exact ⟨⟨front, hfront, hstretch', List.countP_pos_iff.1 hone⟩, hcompares⟩
      · have := hrest stretch hinfix hstretch
        omega
    · obtain ⟨left, t, right, hsplit, hleft⟩ := ih hrest
      refine ⟨left, t, right.join s ⟨a, []⟩, ?_, hleft⟩
      rw [hlast, hsplit]
      simp [join]

end OperatorChain

end ServiceLang
