import ServiceLang.Grammar.Flow
import ServiceLang.Proofs.Grammar.Lexeme
import ServiceLang.Proofs.Peg.Fuel

/-!
Identifiers of parse trees are names.

A derivation does not say that the word at an identifier is read to its end and is not
reserved, so this is shown of matches: where a word is reserved the rule of identifiers fails
(`isName_of_matchRule`).  It does so only with fuel left for the reserved words, and a parse
never runs out of fuel: each rule that it calls is called with the fuel that the rule and the
text ahead need (`named_of_matchRule`).
-/

namespace ServiceLang

open Peg

variable {R : Type} {g : Grammar R}

/-- All identifiers of the tree are names; `ident` is the rule of identifiers. -/
def Named (ident : R) (t : ParseTree R) : Prop := ∀ u ∈ t.nodes, u.rule = ident → isName u.string

namespace Named

variable {ident : R} {t u : ParseTree R}

theorem child (h : Named ident t) (hu : u ∈ t.children) : Named ident u :=
  fun v hv => h v (ParseTree.nodes_child hu hv)

theorem isName (h : Named ident t) (hr : t.rule = ident) : ServiceLang.isName t.string :=
  h t t.mem_nodes_self hr

theorem node {r : R} {start : Cursor} {stop : Nat} {children : List (ParseTree R)}
    (hr : r = ident → ServiceLang.isName (ParseTree.node r start stop children).string)
    (hchildren : ∀ u ∈ children, Named ident u) : Named ident (.node r start stop children) := by
  intro v hv hrule
  rcases List.mem_cons.1 hv with rfl | hv
  · exact hr hrule
  · obtain ⟨u, hu, hv⟩ := (ParseTree.mem_nodesAll_iff children v).1 hv
    exact hchildren u hu v hv hrule

end Named

/-! ## Whole words -/

/-- Where a name is derived, there is a whole word. -/
theorem exists_word_of_name {sep : Bool} {mode : Mode} {c d : Cursor} {nodes : List (ParseTree R)}
    (h : Derives g sep .name mode c nodes d) (hm : mode.spacing ≠ .free) :
    ∃ k e, c.Passes k e ∧ k.head?.any isWordStart ∧ (∀ x ∈ k, isWordChar x) ∧ StopsAt isWordChar e := by
  obtain ⟨k, e, hpass, hchars, hstop⟩ := exists_run isWordChar c
  refine ⟨k, e, hpass, ?_, hchars, hstop⟩
  obtain ⟨_, _, _, -, hstart, -⟩ := h.of_tight hm
  obtain ⟨x, hx, hletter⟩ := hstart.head_of_wordStart
  rw [hpass.1] at hx
  cases k with
  | nil =>
    have hend := hstop x hx
    rw [isWordChar_of_isWordStart x hletter] at hend
    cases hend
  | cons y k =>
    obtain rfl := Option.some.inj hx
    exact hletter

/-- A match of a name goes to the end of the word. -/
theorem stopsAt_of_matchPattern_name {fuel : Nat} {sep : Bool} {mode : Mode} {c d : Cursor}
    {nodes : List (ParseTree R)} {log log' : Attempts R} (hm : mode.spacing ≠ .free)
    (h : matchPattern (matchRule g fuel) sep .name mode c log = .matched nodes d log') :
    StopsAt isWordChar d := by
  have hderives : Derives g sep .name mode c nodes d :=
    derives_of_matchPattern _ (fun sep => derives_of_matchRule fuel sep) _ _ _ _ _ _ _ _ h
  obtain ⟨k, e, hpass, hstart, hchars, hstop⟩ := exists_word_of_name hderives hm
  have hmatches : Matches (matchRule g fuel) sep .name mode c [] e :=
    matches_name hm hpass hstart hchars hstop
  obtain ⟨log2, h2⟩ := hmatches log
  rw [h] at h2
  cases h2
  exact hstop

/-! ## Reserved words -/

section

variable {call : R → Mode → Cursor → Attempts R → Peg.Outcome R} {sep : Bool} {mode : Mode} {c d : Cursor}

/-- Where a word stands no other begins. -/
theorem misses_literal_of_word {v w : String} (hne : v ≠ w) (hbegins : v.toList <+: w.toList → v = w)
    (hv : ∀ x ∈ v.toList, isWordChar x) (h : c.Passes w.toList d) (hd : StopsAt isWordChar d) :
    Misses call sep (.literal v) mode c := by
  refine .literal fun e he => ?_
  have hvc : v.toList <+: c.rest := ⟨e.rest, he.1.symm⟩
  have hwc : w.toList <+: c.rest := ⟨d.rest, h.1.symm⟩
  rcases List.prefix_or_prefix_of_prefix hvc hwc with hvw | ⟨more, hmore⟩
  · exact hne (hbegins hvw)
  cases more with
  | nil => exact hne (String.toList_inj.1 (by rw [← hmore, List.append_nil]))
  | cons x more =>
    -- the longer word goes on where the text does not
    have hrest : d.rest = x :: more ++ e.rest := by
      have hboth : w.toList ++ d.rest = w.toList ++ (x :: more ++ e.rest) := by
        rw [← h.1, he.1, ← hmore, List.append_assoc]
      exact List.append_cancel_left hboth
    have hx := hv x (by rw [← hmore]; simp)
    rw [hd x (by rw [hrest]; rfl)] at hx
    cases hx

/-- Of words of which none begins another, the one that stands at a place matches there. -/
theorem matches_choice_of_word {w : String} (texts : List String) (hw : w ∈ texts)
    (hbegins : ∀ v ∈ texts, v.toList <+: w.toList → v = w)
    (hwords : ∀ v ∈ texts, ∀ x ∈ v.toList, isWordChar x) (h : c.Passes w.toList d)
    (hd : StopsAt isWordChar d) : Matches call sep (.choice (texts.map .literal)) mode c [] d := by
  induction texts with
  | nil => cases hw
  | cons v texts ih =>
    have rest (hw : w ∈ texts) := ih hw (fun u hu => hbegins u (List.mem_cons_of_mem v hu))
      (fun u hu => hwords u (List.mem_cons_of_mem v hu))
    by_cases hv : v = w
    · subst hv
      cases texts with
      | nil => exact .literal h
      | cons u texts => exact .first (.literal h)
    · have hmem : w ∈ texts := (List.mem_cons.1 hw).resolve_left (Ne.symm hv)
      cases texts with
      | nil => cases hmem
      | cons u texts =>
        exact .second (misses_literal_of_word hv (hbegins v List.mem_cons_self)
          (hwords v List.mem_cons_self) h hd) (rest hmem)

end

section

variable {lexeme : Lexeme → R} (hg : ∀ l, g.definition (lexeme l) = l.definition lexeme)
include hg

/-- A reserved word matches as such, as long as there is fuel for a rule. -/
theorem matches_keyword {fuel : Nat} {sep : Bool} {mode : Mode} {c d : Cursor} {w : String}
    (hw : w ∈ reservedWords) (h : c.Passes w.toList d) (hd : StopsAt isWordChar d) :
    ∃ nodes, Matches (matchRule g (fuel + 1)) sep (.rule (lexeme .keyword)) mode c nodes d := by
  have begins : ∀ w ∈ reservedWords, ∀ v ∈ reservedWords, v.toList <+: w.toList → v = w := by decide
  have words : ∀ v ∈ reservedWords, ∀ x ∈ v.toList, isWordChar x := by decide
  have sealed : Spacing.sealed ≠ .free := by decide
  have hmatches : Matches (matchRule g fuel) false (Lexeme.keyword.definition lexeme).pattern
      { mode with spacing := .sealed } c [] d :=
    Matches.tight sealed (matches_choice_of_word reservedWords hw (begins w hw) words h hd)
      (.notHere (ReadsOne.wordChar.stop hd))
  refine ⟨_, .rule (a := []) ?_⟩
  rw [hg]
  exact hmatches

/-- With fuel for the reserved words, what matches as an identifier is a name. -/
theorem isName_of_matchPattern {fuel : Nat} {mode : Mode} {c d : Cursor} {nodes : List (ParseTree R)}
    {log log' : Attempts R} (hm : mode.spacing ≠ .free)
    (h : matchPattern (matchRule g (fuel + 1)) false (Lexeme.ident.definition lexeme).pattern mode c log =
      .matched nodes d log') : nodes = [] ∧ ∃ k, c.Passes k d ∧ IsName k := by
  have hderives : Derives g false (Lexeme.ident.definition lexeme).pattern mode c nodes d :=
    derives_of_matchPattern _ (fun sep => derives_of_matchRule (fuel + 1) sep) _ _ _ _ _ _ _ _ h
  obtain ⟨_, f, _, -, hnot, hname⟩ := hderives.of_tight hm
  cases hnot with
  | notHere =>
  obtain ⟨k, e, hpass, hstart, hchars, hstop⟩ := exists_word_of_name hname hm
  by_cases hreserved : String.ofList k ∈ reservedWords
  · have hkeyword : ∃ inner, Matches (matchRule g (fuel + 1)) false (.rule (lexeme .keyword))
        { mode with look := mode.look.flip } c inner e :=
      matches_keyword hg hreserved (by rwa [String.toList_ofList]) hstop
    obtain ⟨inner, hkeyword⟩ := hkeyword
    have hmisses : Misses (matchRule g (fuel + 1)) false (Lexeme.ident.definition lexeme).pattern mode c :=
      .left (.notHere hkeyword)
    obtain ⟨log2, h2⟩ := hmisses log
    rw [h] at h2
    cases h2
  · have hname : IsName k := ⟨hstart, hchars, hreserved⟩
    have hmatches : Matches (matchRule g (fuel + 1)) false (Lexeme.ident.definition lexeme).pattern mode
        c [] e := matches_identPattern hg hm hname hpass hstop
    obtain ⟨log2, h2⟩ := hmatches log
    rw [h] at h2
    cases h2
    exact ⟨rfl, k, hpass, hname⟩

end

/-! ## Parse trees -/

/-- What all nodes that rules leave satisfy, the nodes that a pattern leaves satisfy. -/
theorem forall_nodes_of_matchPattern {call : R → Mode → Cursor → Attempts R → Peg.Outcome R}
    {P : ParseTree R → Prop}
    (hcall : ∀ r mode c log nodes d log', call r mode c log = .matched nodes d log' → ∀ t ∈ nodes, P t)
    {sep : Bool} {p : Pattern R} {mode : Mode} {c d : Cursor} {log log' : Attempts R}
    {nodes : List (ParseTree R)} (h : matchPattern call sep p mode c log = .matched nodes d log') :
    ∀ t ∈ nodes, P t := by
  induction p generalizing mode c log nodes d log' with
  | literal text =>
    obtain ⟨rfl, -⟩ := ofCursor_eq_matched h
    nofun
  | oneOf cls =>
    obtain ⟨rfl, -⟩ := ofCursor_eq_matched h
    nofun
  | rule r => exact hcall r mode c log nodes d log' h
  | andThen p q ihp ihq =>
    unfold matchPattern at h
    split at h
    · cases h
    next n1 e log1 h1 =>
    split at h
    · cases h
    next n2 e2 log2 h2 =>
    cases h
    intro t ht
    rcases List.mem_append.1 ht with ht | ht
    · exact ihp h1 t ht
    · exact ihq h2 t ht
  | orElse p q ihp ihq =>
    unfold matchPattern at h
    split at h
    · next h1 => cases h; exact ihp h1
    · exact ihq h
  | many p ih =>
    have rounds (n : Nat) : ∀ (c : Cursor) (log : Attempts R), ∀ t ∈ (repeatStep
        (fun c log => matchPattern call sep p mode (gap sep mode c) log) n c log).1, P t := by
      induction n with
      | zero => exact fun c log t ht => by cases ht
      | succ n ihn =>
        intro c log
        unfold repeatStep
        split
        · nofun
        · next more e log1 h1 =>
          intro t ht
          rcases List.mem_append.1 ht with ht | ht
          · exact ih h1 t ht
          · exact ihn e log1 t ht
    unfold matchPattern at h
    split at h
    · cases h
      nofun
    · next n1 e log1 h1 =>
      cases h
      intro t ht
      rcases List.mem_append.1 ht with ht | ht
      · exact ih h1 t ht
      · exact rounds (e.rest.length + 1) e log1 t ht
  | optional p ih =>
    unfold matchPattern at h
    split at h
    · cases h
      nofun
    · next h1 => cases h; exact ih h1
  | notHere p _ =>
    unfold matchPattern at h
    split at h
    · cases h
      nofun
    · cases h
  | textStart | textEnd =>
    unfold matchPattern at h
    split at h
    · cases h
      nofun
    · cases h

/-- What every node that the match of a pattern leaves satisfies, all nodes of a match satisfy. -/
theorem forall_nodes_of_matchRule {P : ParseTree R → Prop}
    (hnode : ∀ fuel r (mode : Mode) c log nodes d log', matchPattern (matchRule g fuel)
      (g.definition r).kind.separates (g.definition r).pattern
      { mode with spacing := (g.definition r).kind.inner mode.spacing } c log = .matched nodes d log' →
        P (.node r c d.offset nodes))
    (fuel : Nat) (r : R) (mode : Mode) (c : Cursor) (log : Attempts R) (nodes : List (ParseTree R))
    (d : Cursor) (log' : Attempts R) (h : matchRule g fuel r mode c log = .matched nodes d log') :
    ∀ t ∈ nodes, ∀ u ∈ t.nodes, P u := by
  induction fuel generalizing r mode c log nodes d log' with
  | zero => cases h
  | succ fuel ih =>
    unfold matchRule at h
    dsimp only at h
    split at h
    · exact forall_nodes_of_matchPattern ih h
    split at h
    · next inner _ _ hmatched =>
      cases h
      have inside := forall_nodes_of_matchPattern ih hmatched
      unfold nodesOf
      split
      · intro t ht u hu
        rw [List.mem_singleton.1 ht] at hu
        rcases List.mem_cons.1 hu with rfl | hu
        · exact hnode fuel r mode c log inner _ _ hmatched
        · obtain ⟨t, ht, hu⟩ := (ParseTree.mem_nodesAll_iff inner u).1 hu
          exact inside t ht u hu
      · exact inside
    · cases h

/-- In a parsed text, the nodes of a token that is a name go to the end of their word. -/
theorem behind_of_parse [DecidableEq R] {name r : R} {text : List Char} {trees : List (ParseTree R)}
    (hname : g.definition name = ⟨.token, .name⟩) (h : g.parse r text = .ok trees) :
    ∀ t ∈ trees, ∀ u ∈ t.nodes, u.rule = name → u.behind.head?.any isWordChar = false := by
  unfold Grammar.parse at h
  split at h
  · next d log hrun =>
    cases h
    refine forall_nodes_of_matchRule (fun fuel r mode c log nodes d log' h hr => ?_) _ _ _ _ _ _ _ _ hrun
    obtain rfl : r = name := hr
    rw [hname] at h
    have sealed : Spacing.sealed ≠ .free := by decide
    have hstop := stopsAt_of_matchPattern_name sealed h
    have hderives : Derives g false .name _ c nodes d :=
      derives_of_matchPattern _ (fun sep => derives_of_matchRule fuel sep) _ _ _ _ _ _ _ _ h
    obtain ⟨k, hk⟩ := hderives.reaches
    rw [ParseTree.behind_of_passes hk]
    exact hstop.head?_any
  · cases h

section

variable {lexeme : Lexeme → R} (hg : ∀ l, g.definition (lexeme l) = l.definition lexeme)
include hg

/-- Where there is fuel for a rule, the text of an identifier is a name. -/
theorem isName_of_ident {m n fuel : Nat} {mode : Mode} {c d : Cursor} {log log' : Attempts R}
    {nodes : List (ParseTree R)} (hsettles : g.settles m (n + 1) (lexeme .ident)) (hfuel : n ≤ fuel)
    (h : matchPattern (matchRule g fuel) (g.definition (lexeme .ident)).kind.separates
      (g.definition (lexeme .ident)).pattern
      { mode with spacing := (g.definition (lexeme .ident)).kind.inner mode.spacing } c log =
        .matched nodes d log') :
    isName (ParseTree.node (lexeme .ident) c d.offset nodes).string := by
  cases fuel with
  | zero =>
    -- the reserved words are looked for first, and that takes fuel
    obtain rfl : n = 0 := Nat.le_zero.1 hfuel
    unfold Grammar.settles at hsettles
    rw [hg] at hsettles
    cases hsettles
  | succ fuel =>
    rw [hg] at h
    obtain ⟨-, k, hpass, hname⟩ := isName_of_matchPattern hg (show Spacing.sealed ≠ .free by decide) h
    rw [isName_iff]
    unfold ParseTree.string
    rw [ParseTree.text_of_passes hpass, String.toList_ofList]
    exact hname

open Classical in
/-- Where the fuel suffices, the identifiers of the trees that a rule leaves are names. -/
theorem named_of_matchRule {m k : Nat} (hk : ∀ r, g.settles m k r) {fuel n : Nat} {r : R} {c d : Cursor}
    {mode : Mode} {log log' : Attempts R} {nodes : List (ParseTree R)} (hr : g.settles m n r)
    (hfuel : c.rest.length * k + n ≤ fuel) (h : matchRule g fuel r mode c log = .matched nodes d log') :
    ∀ t ∈ nodes, Named (lexeme .ident) t := by
  induction fuel generalizing n r mode c d log log' nodes with
  | zero => cases h
  | succ fuel ih =>
    cases n with
    | zero => cases hr
    | succ n =>
    -- the rules inside are called with the fuel that they need
    let call : R → Mode → Cursor → Attempts R → Peg.Outcome R := fun r mode d log =>
      if ∃ n, g.settles m n r ∧ d.rest.length * k + n ≤ fuel then matchRule g fuel r mode d log
      else .failed log
    have hcall : ∀ r mode c log nodes d log', call r mode c log = .matched nodes d log' →
        ∀ t ∈ nodes, Named (lexeme .ident) t := by
      intro r mode c log nodes d log' h
      by_cases henough : ∃ n, g.settles m n r ∧ c.rest.length * k + n ≤ fuel
      · obtain ⟨n, hn, hle⟩ := henough
        exact ih hn hle (by rwa [show call r mode c log = _ from if_pos ⟨n, hn, hle⟩] at h)
      · rw [show call r mode c log = _ from if_neg henough] at h
        cases h
    have inside {mode : Mode} {log log' : Attempts R} {nodes : List (ParseTree R)} {d : Cursor}
        {sep : Bool} (h : matchPattern (matchRule g fuel) sep (g.definition r).pattern mode c log =
          .matched nodes d log') : ∀ t ∈ nodes, Named (lexeme .ident) t := by
      have hcongr : matchPattern (matchRule g fuel) sep (g.definition r).pattern mode c log =
          matchPattern call sep (g.definition r).pattern mode c log := by
        refine matchPattern_congr (n := c.rest.length) (m := m) (f := g.settles m n) ?_ ?_ _ _ _ _
          (.inr ⟨Nat.le_refl _, hr⟩)
        · exact fun sep => derives_of_matchRule fuel sep
        · rintro r mode d log (hd | ⟨hd, hr⟩)
          · have : (d.rest.length + 1) * k ≤ c.rest.length * k := Nat.mul_le_mul_right k hd
            rw [Nat.succ_mul] at this
            exact (if_pos ⟨k, hk r, by omega⟩).symm
          · have : d.rest.length * k ≤ c.rest.length * k := Nat.mul_le_mul_right k hd
            exact (if_pos ⟨n, hr, by omega⟩).symm
      rw [hcongr] at h
      exact forall_nodes_of_matchPattern hcall h
    unfold matchRule at h
    dsimp only at h
    split at h
    · exact inside h
    split at h
    · next inner next after hmatched =>
      cases h
      unfold nodesOf
      split
      · intro t ht
        rw [List.mem_singleton.1 ht]
        refine .node (fun hident => ?_) (inside hmatched)
        subst hident
        exact isName_of_ident hg hr (by omega) hmatched
      · exact inside hmatched
    · cases h

/-- All identifiers of a parsed text are names. -/
theorem named_of_parse [DecidableEq R] {m : Nat} (hk : ∀ r, g.settles m (g.rules.length + 1) r) {r : R}
    {text : List Char} {trees : List (ParseTree R)} (h : g.parse r text = .ok trees) :
    ∀ t ∈ trees, Named (lexeme .ident) t := by
  unfold Grammar.parse at h
  split at h
  · next d log hrun =>
    cases h
    refine named_of_matchRule hg hk (hk r) ?_ hrun
    rw [Grammar.fuel, Nat.succ_mul]
    exact Nat.le_refl _
  · cases h

end

theorem MainGrammar.named_of_parse {r : Rule} {text : List Char} {trees : List (ParseTree Rule)}
    (h : grammar.parse r text = .ok trees) : ∀ t ∈ trees, Named (.lexeme .ident) t :=
  ServiceLang.named_of_parse (fun _ => rfl) settles_rules h

namespace FlowGrammar

/-- The grammar of flow regions is not left recursive. -/
theorem settles_rules (r : Rule) : grammar.settles 12 (grammar.rules.length + 1) r := by
  have all : ∀ r ∈ Rule.all, grammar.settles 12 (grammar.rules.length + 1) r := by decide
  exact all r r.mem_all

theorem named_of_parse {r : Rule} {text : List Char} {trees : List (ParseTree Rule)}
    (h : grammar.parse r text = .ok trees) : ∀ t ∈ trees, Named (.lexeme .ident) t :=
  ServiceLang.named_of_parse (fun _ => rfl) settles_rules h

end FlowGrammar

end ServiceLang
