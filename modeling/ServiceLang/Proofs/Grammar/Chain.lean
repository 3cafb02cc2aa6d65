import ServiceLang.Proofs.Grammar.Precedence
import ServiceLang.Proofs.Grammar.Printed

/-!
The grammar reads chains as their trees.

A level reads a chain that has only its own operators and tighter ones, if what follows
does not go on at this level (`OperatorChain.Halts`): the text ends, a looser operator follows,
or a comparison behind a stretch that has one already.  Given that the tighter levels
read the chains between its operators, a level reads all of the chain
(`ReadsChains.level`); and so the levels from the tightest to the loosest read every
chain (`OperatorChain.yields`).
-/

namespace ServiceLang

open Peg

namespace MainGrammar

/-! ## Where a chain halts -/

/-- The text ends behind the chain, or an operator follows that none of the so many
tightest levels goes on with. -/
def Halts (n : Nat) (c : OperatorChain) (rest : List Char) : Prop :=
  rest = [] ∨ ∃ (s : Spelling) (xs : List Char), rest = ' ' :: (s.text.toList ++ ' ' :: xs) ∧
    (n ≤ (Level.of s.op).inside ∨ s.op.isComparison ∧ c.EndsCompared)

section

variable {n : Nat} {c : OperatorChain} {s : Spelling} {rest : List Char} {f : Cursor}

theorem Halts.ends (h : Halts n c rest) : Ends rest := by
  rcases h with rfl | ⟨s, xs, hrest, -⟩
  · exact .inl fun x hx => by cases hx
  · exact .inr ⟨s, xs, hrest⟩

theorem Halts.mono {m : Nat} (hm : m ≤ n) (h : Halts n c rest) : Halts m c rest :=
  h.imp id fun ⟨s, xs, hrest, hs⟩ => ⟨s, xs, hrest, hs.imp (Nat.le_trans hm) id⟩

/-- A chain halts before an operator that is not as tight. -/
theorem halts_of_le (c : OperatorChain) {xs : List Char} (hn : n ≤ (Level.of s.op).inside)
    (hrest : rest = ' ' :: (s.text.toList ++ ' ' :: xs)) : Halts n c rest :=
  .inr ⟨s, xs, hrest, .inl hn⟩

/-- Where a chain halts, so does the chain behind an operator of it, for the levels that
are tighter than the operator. -/
theorem Halts.behind {m : Nat} {left right : OperatorChain} (hn : n ≤ (Level.of s.op).inside) (hm : n ≤ m)
    (h : Halts m (left.join s right) rest) : Halts n right rest := by
  refine (h.mono hm).imp id fun ⟨t, xs, hrest, ht⟩ => ⟨t, xs, hrest, ?_⟩
  rcases ht with ht | ⟨hcompares, hends⟩
  · exact .inl ht
  by_cases hs : s.op.isLogical
  · exact .inr ⟨hcompares, hends.right hs⟩
  · rw [Level.isLogical_iff] at hs
    rw [(Level.of_eq_cmp_iff t.op).2 hcompares]
    exact .inl (by omega)

theorem not_endsCompared (h : ∀ s ∈ c.operators, Level.of s.op ≠ .cmp) : ¬c.EndsCompared := by
  rintro ⟨stretch, hsuffix, -, s, hs, hcompares⟩
  exact h s (hsuffix.subset hs) ((Level.of_eq_cmp_iff s.op).2 hcompares)

/-- Where a chain halts for a level there is no operator of the level. -/
theorem Halts.misses {l : Level} {fuel : Nat} (h : Halts (l.inside + 1) c f.rest)
    (hl : l = .cmp → ¬c.EndsCompared) :
    Misses (matchRule grammar fuel) true (.rule l.operator) ⟨.none, .free⟩ (skipTrivia f) := by
  rcases h with hrest | ⟨s, xs, hrest, hs⟩
  · have closes : Closes f.rest := by
      rw [hrest]
      exact fun x hx => by cases hx
    rw [skipTrivia_of_closes closes]
    exact misses_operator_of_closes l closes
  · have hblank : f.Passes [' '] ⟨f.offset + 1, s.text.toList ++ ' ' :: xs⟩ := ⟨hrest, rfl⟩
    rw [skipTrivia_of_blank hblank, skipTrivia_of_operator s rfl]
    refine misses_operator_of_ne ?_ rfl
    rintro rfl
    rcases hs with hs | ⟨hcompares, hends⟩
    · omega
    · exact hl ((Level.of_eq_cmp_iff s.op).2 hcompares) hends

end

/-! ## Reading -/

/-- An operand of a chain is read as an operand. -/
theorem yields_atom {fuel : Nat} (pos : Position) (a : Atom) {c f : Cursor} (h : c.Passes a.text f)
    (hf : Ends f.rest) : Yields (fuel + 3) (.rule .unaryExpr) (a.expr pos) c (skipTrivia f) := by
  cases a with
  | name text valid => exact yields_ident pos valid h hf
  | number text valid => exact yields_numeral pos valid (Decimal.ofLiteral_beq_self text) h (hf.stopsAt (by decide))

theorem exists_cursors_of_join {left right : OperatorChain} {s : Spelling} {c f : Cursor}
    (h : c.Passes (left.join s right).text f) :
    ∃ d e g, c.Passes left.text d ∧ d.rest = ' ' :: (s.text.toList ++ ' ' :: g.rest) ∧
      (skipTrivia d).Passes s.text.toList e ∧ e.rest = ' ' :: g.rest ∧ skipTrivia e = g ∧
      g.Passes right.text f := by
  rw [OperatorChain.text_join] at h
  obtain ⟨d, hleft, h⟩ := h.exists_append
  obtain ⟨d', hblank, h⟩ := h.exists_cons
  obtain ⟨e, hop, h⟩ := h.exists_append
  obtain ⟨g, hblank', hright⟩ := h.exists_cons
  have hd' : d'.rest = s.text.toList ++ ' ' :: g.rest := by rw [hop.1, hblank'.1]; rfl
  obtain ⟨x, xs, hx, hword⟩ := right.first.exists_head_text
  have hg : g.rest.head? = some x := by
    rw [hright.1, OperatorChain.text, hx]
    rfl
  refine ⟨d, e, g, hleft, by rw [hblank.1, hd']; rfl, ?_, hblank'.1, ?_, hright⟩
  · rwa [skipTrivia_of_blank hblank, skipTrivia_of_operator s hd']
  · rw [skipTrivia_of_blank hblank',
      skipTrivia_solid hg (isBlank_eq_false_of_isWordChar x hword) (ne_of_isWordChar x '/' hword rfl)]

/-- The pattern reads chains of operators of the so many tightest levels as their trees. -/
def ReadsChains (fuel : Nat) (p : Pattern Rule) (n : Nat) : Prop :=
  ∀ (pos : Position) (chain : OperatorChain) (c f : Cursor),
    (∀ s ∈ chain.operators, (Level.of s.op).inside < n) → chain.ComparesOnce →
    Halts n chain f.rest → c.Passes chain.text f → Yields fuel p (chain.tree pos) c (skipTrivia f)

theorem readsChains_atom (fuel : Nat) : ReadsChains (fuel + 3) (.rule .unaryExpr) 0 := by
  intro pos chain c f hops _ hhalts h
  obtain ⟨first, rest⟩ := chain
  cases rest with
  | cons p rest => exact absurd (hops p.1 List.mem_cons_self) (Nat.not_lt_zero _)
  | nil =>
    rw [OperatorChain.tree_of_nil]
    refine yields_atom pos first ?_ hhalts.ends
    rwa [OperatorChain.text, OperatorChain.restText, List.flatMap_nil, List.append_nil] at h

section Level

variable {fuel : Nat} {l : Level} (h : ReadsChains (fuel + 1) (.rule l.operand) l.inside)
include h

/-- At an operator of the level, the operator is read and the chain of tighter ones behind it. -/
theorem ReadsChains.exists_application {m : Nat} (pos : Position) {left right : OperatorChain} {s : Spelling}
    {c f : Cursor} (hs : Level.of s.op = l) (hm : l.inside ≤ m)
    (hright : ∀ t ∈ right.operators, (Level.of t.op).inside < l.inside)
    (honce : (left.join s right).ComparesOnce) (hhalts : Halts m (left.join s right) f.rest)
    (hc : c.Passes (left.join s right).text f) :
    ∃ d opNode e, c.Passes left.text d ∧ Halts l.inside left d.rest ∧
      Matches (matchRule grammar (fuel + 1)) true (.rule l.operator) ⟨.none, .free⟩ (skipTrivia d)
        [opNode] e ∧ opNode.rule = l.operator ∧ opNode.string = s.text ∧
      e.rest.length < (skipTrivia d).rest.length ∧
      Yields (fuel + 1) (.rule l.operand) (right.tree pos) (skipTrivia e) (skipTrivia f) := by
  subst hs
  obtain ⟨d, e, g, hleft, hd, hop, he, hg, hc⟩ := exists_cursors_of_join hc
  refine ⟨d, _, e, hleft, halts_of_le left (Nat.le_refl _) hd, matches_operator hop he, rfl, ?_,
    hop.length_lt s.text_ne_nil, ?_⟩
  · rw [ParseTree.string, text_node hop, String.ofList_toList]
  · rw [hg]
    exact h pos right g f hright honce.right (hhalts.behind (Nat.le_refl _) hm) hc

/-- A level has read a chain where no tighter level goes on. -/
theorem ReadsChains.begun (pos : Position) (chain : OperatorChain) {c f : Cursor}
    (hops : ∀ s ∈ chain.operators, (Level.of s.op).inside ≤ l.inside) (honce : chain.ComparesOnce)
    (hhalts : Halts l.inside chain f.rest) (hc : c.Passes chain.text f) :
    Begun (fuel + 1) l (chain.tree pos) c (skipTrivia f) := by
  -- the recursion is that of the tree: all operators of the level but the last are on the left
  induction hlen : chain.rest.length using Nat.strongRecOn generalizing chain c f with
  | ind len ih =>
  rcases OperatorChain.split_cases hops with tighter | ⟨left, s, right, rfl, hs, hleft, hright, htree⟩
  · exact (h pos chain c f tighter honce hhalts hc).begun
  · obtain ⟨d, opNode, e, hc, hd, hop, hnode, htext, hlt, hyields⟩ :=
      h.exists_application pos hs (Nat.le_refl _) hright honce hhalts hc
    have shorter : left.rest.length < len := by
      rw [← hlen]
      simp only [OperatorChain.join, List.length_append, List.length_cons]
      omega
    rw [htree]
    exact Begun.apply hop hnode htext hyields pos (ih _ shorter left hleft honce.left hd hc rfl) hlt

/-- The level of comparisons reads an operand, or one comparison of two. -/
theorem ReadsChains.compared (hl : l = .cmp) : ReadsChains (fuel + 2) (.rule l.rule) (l.inside + 1) := by
  intro pos chain c f hops honce hhalts hc
  rcases OperatorChain.split_cases fun s hs => Nat.le_of_lt_succ (hops s hs) with
    tighter | ⟨left, s, right, rfl, hs, hleft, hright, htree⟩
  · refine (h pos chain c f tighter honce (hhalts.mono (Nat.le_succ _)) hc).pass l
      (hhalts.misses fun hl => not_endsCompared fun s hs heq => ?_)
    have := tighter s hs
    rw [heq, hl] at this
    exact Nat.lt_irrefl _ this
  · obtain ⟨d, opNode, e, hc, hd, hop, hnode, htext, hlt, hyields⟩ :=
      h.exists_application pos hs (Nat.le_succ _) hright honce hhalts hc
    have stretch : OperatorChain.IsStretch (left.join s right).operators := fun t ht => by
      have := hops t ht
      rw [hl] at this
      exact Bool.eq_false_iff.2 fun hlogical =>
        Nat.lt_irrefl _ (Nat.lt_of_lt_of_le ((Level.isLogical_iff t.op).1 hlogical) (Nat.le_of_lt_succ this))
    have single := honce.left_of_comparison stretch ((Level.of_eq_cmp_iff s.op).1 (hs.trans hl))
    have tighter : ∀ t ∈ left.operators, (Level.of t.op).inside < l.inside := fun t ht => by
      refine Nat.lt_of_le_of_ne (hleft t ht) fun heq => ?_
      have := (Level.of_eq_cmp_iff t.op).1 ((Level.eq_of_inside_eq heq).trans hl)
      rw [single t ht] at this
      cases this
    rw [htree]
    exact Yields.compare hop hnode htext hyields pos hl (h pos left c d tighter honce.left hd hc)

/-- A level reads the chains of its operators and tighter ones. -/
theorem ReadsChains.level : ReadsChains (fuel + 2) (.rule l.rule) (l.inside + 1) := by
  by_cases hl : l = .cmp
  · exact h.compared hl
  · intro pos chain c f hops honce hhalts hc
    exact (h.begun pos chain (fun s hs => Nat.le_of_lt_succ (hops s hs)) honce
      (hhalts.mono (Nat.le_succ _)) hc).finish hl (hhalts.misses fun heq => absurd heq hl)

end Level

/-- Every chain with at most one comparison in a stretch is read as its tree. -/
theorem yields_chain {fuel : Nat} (pos : Position) (chain : OperatorChain) {c f : Cursor}
    (honce : chain.ComparesOnce) (hhalts : Halts 5 chain f.rest) (hc : c.Passes chain.text f) :
    Yields (fuel + 9) (.rule .expr) (chain.tree pos) c (skipTrivia f) := by
  have mul : ReadsChains (fuel + 4) (.rule .mulExpr) 1 :=
    ReadsChains.level (l := .mul) (readsChains_atom fuel)
  have add : ReadsChains (fuel + 5) (.rule .addExpr) 2 := ReadsChains.level (l := .add) mul
  have cmp : ReadsChains (fuel + 6) (.rule .cmpExpr) 3 := ReadsChains.level (l := .cmp) add
  have and : ReadsChains (fuel + 7) (.rule .andExpr) 4 := ReadsChains.level (l := .and) cmp
  have or : ReadsChains (fuel + 8) (.rule .orExpr) 5 := ReadsChains.level (l := .or) and
  have inside : ∀ l : Level, l.inside < 5 := fun l => by cases l <;> decide
  exact (or pos chain c f (fun s _ => inside (.of s.op)) honce hhalts hc).expr

end MainGrammar

end ServiceLang
