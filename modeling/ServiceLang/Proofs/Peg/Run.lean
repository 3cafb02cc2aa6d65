import ServiceLang.Proofs.Peg.Derive

/-!
How a match comes about.

`Matches call sep p mode c nodes d` says that the pattern matches from `c` to `d`
and leaves `nodes`, and `Misses call sep p mode c` that it does not match at `c`,
whatever the log is.  Each pattern has a rule for either outcome, with the
alternatives that an ordered choice tries in vain and the round that a repetition
ends with, which derivations leave open.  What cannot be derived is missed
(`misses_of_not_derives`), so most failures follow from the first character
(`misses_of_avoids`, and `misses_of_head` where it is known).
-/

namespace ServiceLang.Peg

variable {R : Type} {g : Grammar R}

section

variable (call : R → Mode → Cursor → Attempts R → Outcome R) (sep : Bool)

/-- The pattern matches from one cursor to another and leaves these nodes. -/
def Matches (p : Pattern R) (mode : Mode) (c : Cursor) (a : List (ParseTree R)) (d : Cursor) :
    Prop :=
  ∀ log, ∃ log', matchPattern call sep p mode c log = .matched a d log'

/-- The pattern does not match here. -/
def Misses (p : Pattern R) (mode : Mode) (c : Cursor) : Prop :=
  ∀ log, ∃ log', matchPattern call sep p mode c log = .failed log'

/-- Rounds of a repetition behind one that has ended at the first cursor; each reads a
character, and no further one matches behind them. -/
inductive Rounds (p : Pattern R) (mode : Mode) :
    Cursor → List (ParseTree R) → Cursor → Prop
  | done {c} : Misses call sep p mode (gap sep mode c) → Rounds p mode c [] c
  | round {c d e a b} : Matches call sep p mode (gap sep mode c) a d →
      d.rest.length < c.rest.length → Rounds p mode d b e →
      Rounds p mode c (a ++ b) e

end

variable {call : R → Mode → Cursor → Attempts R → Outcome R} {sep : Bool} {p q : Pattern R}
  {mode : Mode} {c d e : Cursor} {a b : List (ParseTree R)}

/-! ## One rule for each outcome -/

namespace Matches

theorem literal {text : String} (h : c.Passes text.toList d) :
    Matches call sep (.literal text) mode c [] d := by
  intro log
  rw [← Cursor.strip?_eq_some_iff] at h
  exact ⟨log, by unfold matchPattern; rw [h]; rfl⟩

theorem oneOf {cls : CharClass} {x : Char} {rest : List Char} (hc : c.rest = x :: rest)
    (hx : cls.contains x) :
    Matches call sep (.oneOf cls) mode c [] ⟨c.offset + x.utf8Size, rest⟩ := by
  intro log
  have h := (Cursor.next?_eq_some_iff cls.contains c ⟨c.offset + x.utf8Size, rest⟩).2
    ⟨x, hc, hx, rfl⟩
  exact ⟨log, by unfold matchPattern; rw [h]; rfl⟩

theorem andThen (h : Matches call sep p mode c a d)
    (h2 : Matches call sep q mode (gap sep mode d) b e) :
    Matches call sep (.andThen p q) mode c (a ++ b) e := by
  intro log
  obtain ⟨log1, h1⟩ := h log
  obtain ⟨log2, h2⟩ := h2 log1
  exact ⟨log2, by unfold matchPattern; rw [h1]; dsimp only; rw [h2]⟩

theorem first (h : Matches call sep p mode c a d) :
    Matches call sep (.orElse p q) mode c a d := by
  intro log
  obtain ⟨log1, h1⟩ := h log
  exact ⟨log1, by unfold matchPattern; rw [h1]⟩

theorem second (h : Misses call sep p mode c) (h2 : Matches call sep q mode c a d) :
    Matches call sep (.orElse p q) mode c a d := by
  intro log
  obtain ⟨log1, h1⟩ := h log
  obtain ⟨log2, h2⟩ := h2 log1
  exact ⟨log2, by unfold matchPattern; rw [h1]; exact h2⟩

theorem without (h : Misses call sep p mode c) : Matches call sep (.optional p) mode c [] c := by
  intro log
  obtain ⟨log1, h1⟩ := h log
  exact ⟨log1, by unfold matchPattern; rw [h1]⟩

theorem «with» (h : Matches call sep p mode c a d) :
    Matches call sep (.optional p) mode c a d := by
  intro log
  obtain ⟨log1, h1⟩ := h log
  exact ⟨log1, by unfold matchPattern; rw [h1]⟩

theorem none (h : Misses call sep p mode c) : Matches call sep (.many p) mode c [] c := by
  intro log
  obtain ⟨log1, h1⟩ := h log
  exact ⟨log1, by unfold matchPattern; rw [h1]⟩

theorem notHere (h : Misses call sep p { mode with look := mode.look.flip } c) :
    Matches call sep (.notHere p) mode c [] c := by
  intro log
  obtain ⟨log1, h1⟩ := h log
  exact ⟨log1, by unfold matchPattern; rw [h1]⟩

theorem textStart (h : c.offset = 0) : Matches call sep .textStart mode c [] c := by
  intro log
  exact ⟨log, by unfold matchPattern; rw [if_pos h]⟩

theorem textEnd (h : c.rest = []) : Matches call sep .textEnd mode c [] c := by
  intro log
  exact ⟨log, by unfold matchPattern; rw [h]; rfl⟩

end Matches

/-- Rounds that read a character each are not more than there are characters. -/
theorem Rounds.repeatStep_eq (h : Rounds call sep p mode c a d) (n : Nat)
    (hn : c.rest.length < n) (log : Attempts R) :
    ∃ log', repeatStep (fun c log => matchPattern call sep p mode (gap sep mode c) log) n c log =
      (a, d, log') := by
  induction h generalizing n log with
  | done h =>
    obtain ⟨n, rfl⟩ := Nat.exists_eq_add_one.mpr (Nat.zero_lt_of_lt hn)
    obtain ⟨log1, h1⟩ := h log
    exact ⟨log1, by rw [repeatStep, h1]⟩
  | round h hlt _ ih =>
    obtain ⟨n, rfl⟩ := Nat.exists_eq_add_one.mpr (Nat.zero_lt_of_lt hn)
    obtain ⟨log1, h1⟩ := h log
    obtain ⟨log2, h2⟩ := ih n (by omega) log1
    exact ⟨log2, by rw [repeatStep, h1]; dsimp only; rw [h2]⟩

theorem Matches.many (h : Matches call sep p mode c a d)
    (h2 : Rounds call sep p mode d b e) :
    Matches call sep (.many p) mode c (a ++ b) e := by
  intro log
  obtain ⟨log1, h1⟩ := h log
  obtain ⟨log2, h2⟩ := h2.repeatStep_eq (d.rest.length + 1) (Nat.lt_succ_self _) log1
  exact ⟨log2, by unfold matchPattern; rw [h1]; dsimp only; rw [h2]⟩

/-- Rounds from where no trivia stands are a repetition. -/
theorem Rounds.matches_many (h : Rounds call sep p mode c a d) (hc : gap sep mode c = c) :
    Matches call sep (.many p) mode c a d := by
  cases h with
  | done h => exact .none (hc ▸ h)
  | round h _ hrest => exact .many (hc ▸ h) hrest

namespace Misses

theorem literal {text : String} (h : ∀ d, ¬c.Passes text.toList d) :
    Misses call sep (.literal text) mode c := by
  intro log
  have hnone : c.strip? text.toList = Option.none := by
    rw [Option.eq_none_iff_forall_ne_some]
    exact fun d hd => h d (Cursor.passes_of_strip? hd)
  exact ⟨log, by unfold matchPattern; rw [hnone]; rfl⟩

theorem oneOf {cls : CharClass} (h : ∀ x, c.rest.head? = some x → cls.contains x = false) :
    Misses call sep (.oneOf cls) mode c := by
  intro log
  have hnone : c.next? cls.contains = Option.none := by
    rw [Option.eq_none_iff_forall_ne_some]
    intro d hd
    obtain ⟨x, hx, hp, -⟩ := (Cursor.next?_eq_some_iff _ c d).1 hd
    rw [h x (by rw [hx]; rfl)] at hp
    cases hp
  exact ⟨log, by unfold matchPattern; rw [hnone]; rfl⟩

theorem left (h : Misses call sep p mode c) : Misses call sep (.andThen p q) mode c := by
  intro log
  obtain ⟨log1, h1⟩ := h log
  exact ⟨log1, by unfold matchPattern; rw [h1]⟩

theorem right (h : Matches call sep p mode c a d)
    (h2 : Misses call sep q mode (gap sep mode d)) : Misses call sep (.andThen p q) mode c := by
  intro log
  obtain ⟨log1, h1⟩ := h log
  obtain ⟨log2, h2⟩ := h2 log1
  exact ⟨log2, by unfold matchPattern; rw [h1]; dsimp only; rw [h2]⟩

theorem orElse (h : Misses call sep p mode c) (h2 : Misses call sep q mode c) :
    Misses call sep (.orElse p q) mode c := by
  intro log
  obtain ⟨log1, h1⟩ := h log
  obtain ⟨log2, h2⟩ := h2 log1
  exact ⟨log2, by unfold matchPattern; rw [h1]; exact h2⟩

theorem notHere (h : Matches call sep p { mode with look := mode.look.flip } c a d) :
    Misses call sep (.notHere p) mode c := by
  intro log
  obtain ⟨log1, h1⟩ := h log
  exact ⟨log1, by unfold matchPattern; rw [h1]⟩

end Misses

/-- A choice matches as the first of its patterns that does. -/
theorem Matches.choice {before after : List (Pattern R)}
    (hbefore : ∀ q ∈ before, Misses call sep q mode c) (h : Matches call sep p mode c a d) :
    Matches call sep (.choice (before ++ p :: after)) mode c a d := by
  induction before with
  | nil =>
    cases after with
    | nil => exact h
    | cons q after => exact .first h
  | cons q before ih =>
    have rest := ih fun r hr => hbefore r (List.mem_cons_of_mem q hr)
    obtain ⟨r, rs, hrs⟩ := List.exists_cons_of_ne_nil
      (List.append_ne_nil_of_right_ne_nil before (List.cons_ne_nil p after))
    rw [List.cons_append, hrs]
    rw [hrs] at rest
    exact .second (hbefore q List.mem_cons_self) rest

/-- A choice matches as its pattern at this place does, if those before it do not. -/
theorem Matches.choice_of_getElem? {l : List (Pattern R)} (i : Nat) (hi : l[i]? = some p)
    (hbefore : ∀ q ∈ l.take i, Misses call sep q mode c) (h : Matches call sep p mode c a d) :
    Matches call sep (.choice l) mode c a d := by
  obtain ⟨hlt, rfl⟩ := List.getElem?_eq_some_iff.1 hi
  have hsplit : l = l.take i ++ l[i] :: l.drop (i + 1) := by
    rw [← List.drop_eq_getElem_cons hlt, List.take_append_drop]
  rw [hsplit]
  exact .choice hbefore h

/-! ## Rules -/

/-- A rule matches what its pattern matches, and leaves its node. -/
theorem Matches.rule {r : R} {fuel : Nat}
    (h : Matches (matchRule g fuel) (g.definition r).kind.separates (g.definition r).pattern
      { mode with spacing := (g.definition r).kind.inner mode.spacing } c a d) :
    Matches (matchRule g (fuel + 1)) sep (.rule r) mode c
      (keepNodes (g.definition r).kind r mode c d.offset a) d := by
  intro log
  obtain ⟨log1, h1⟩ := h log
  unfold matchPattern; rw [matchRule]
  dsimp only
  rw [h1]
  unfold keepNodes
  split
  · exact ⟨log1, rfl⟩
  · exact ⟨_, rfl⟩

/-- A silent rule matches what its pattern matches. -/
theorem Matches.silent {r : R} {fuel : Nat} (hk : (g.definition r).kind = .silent)
    (h : Matches (matchRule g fuel) true (g.definition r).pattern mode c a d) :
    Matches (matchRule g (fuel + 1)) sep (.rule r) mode c a d := by
  have hrule : Matches (matchRule g (fuel + 1)) sep (.rule r) mode c
      (keepNodes (g.definition r).kind r mode c d.offset a) d := by
    refine .rule ?_
    rw [hk]
    exact h
  rwa [hk] at hrule

/-- An unspaced rule matches what its pattern matches without trivia, and leaves its node. -/
theorem Matches.unspaced {r : R} {fuel : Nat} {s : Spacing} (hk : (g.definition r).kind = .unspaced)
    (h : Matches (matchRule g fuel) false (g.definition r).pattern ⟨.none, .tight⟩ c a d) :
    Matches (matchRule g (fuel + 1)) sep (.rule r) ⟨.none, s⟩ c [.node r c d.offset a] d := by
  have hrule : Matches (matchRule g (fuel + 1)) sep (.rule r) ⟨.none, s⟩ c
      (keepNodes (g.definition r).kind r ⟨.none, s⟩ c d.offset a) d := by
    refine .rule ?_
    rw [hk]
    exact h
  rwa [hk] at hrule

theorem Misses.rule {r : R} {fuel : Nat}
    (h : Misses (matchRule g fuel) (g.definition r).kind.separates (g.definition r).pattern
      { mode with spacing := (g.definition r).kind.inner mode.spacing } c) :
    Misses (matchRule g (fuel + 1)) sep (.rule r) mode c := by
  intro log
  obtain ⟨log1, h1⟩ := h log
  unfold matchPattern; rw [matchRule]
  dsimp only
  rw [h1]
  split
  · exact ⟨log1, rfl⟩
  · exact ⟨_, rfl⟩

theorem misses_of_not_derives {fuel : Nat} (h : ∀ a d, ¬Derives g sep p mode c a d) :
    Misses (matchRule g fuel) sep p mode c := by
  intro log
  cases hp : matchPattern (matchRule g fuel) sep p mode c log with
  | failed log' => exact ⟨log', rfl⟩
  | matched a d log' =>
    refine absurd (derives_of_matchPattern _ ?_ sep p mode c log a d log' hp) (h a d)
    intro sep r mode c log a d log'
    exact derives_of_matchRule fuel sep r mode c log a d log'

/-- What begins with other characters is missed. -/
theorem misses_of_avoids {fuel : Nat} (cs : List Char) (n : Nat)
    (ha : p.avoids (g.avoids cs n) cs sep) (hc : ∀ x, c.rest.head? = some x → x ∈ cs) :
    Misses (matchRule g fuel) sep p mode c := by
  refine misses_of_not_derives fun a d hd => ?_
  obtain ⟨x, xs, hx, hn, -⟩ := hd.exists_first cs n ha
  exact hn (hc x (by rw [hx]; rfl))

/-- Where the text ends, a pattern that begins with a character is missed. -/
theorem misses_of_nil {fuel : Nat} (n : Nat) (hc : c.rest = [])
    (ha : p.avoids (g.avoids [] n) [] sep) : Misses (matchRule g fuel) sep p mode c :=
  misses_of_avoids [] n ha fun x hx => by rw [hc] at hx; cases hx

/-- A pattern that does not begin with the next character is missed. -/
theorem misses_of_head {fuel : Nat} (cs : List Char) (n : Nat) {x : Char} (hx : c.rest.head? = some x)
    (hcs : x ∈ cs) (ha : p.avoids (g.avoids cs n) cs sep) : Misses (matchRule g fuel) sep p mode c := by
  refine misses_of_avoids cs n ha fun y hy => ?_
  rw [hx] at hy
  exact Option.some.inj hy ▸ hcs

/-- Patterns that do not begin with the next character are missed. -/
theorem misses_all_of_head {fuel : Nat} {l : List (Pattern R)} (cs : List Char) (n : Nat) {x : Char}
    (hx : c.rest.head? = some x) (hcs : x ∈ cs) (hl : l.all (·.avoids (g.avoids cs n) cs sep)) :
    ∀ q ∈ l, Misses (matchRule g fuel) sep q mode c :=
  fun q hq => misses_of_head cs n hx hcs (List.all_eq_true.1 hl q hq)

theorem Matches.derives {fuel : Nat} (h : Matches (matchRule g fuel) sep p mode c a d) :
    Derives g sep p mode c a d := by
  obtain ⟨log', h⟩ := h .empty
  refine derives_of_matchPattern _ ?_ sep p mode c .empty a d log' h
  intro sep r mode c log a d log'
  exact derives_of_matchRule fuel sep r mode c log a d log'

/-- There is fuel for so many rules inside each other, if the grammar has as many. -/
theorem Grammar.exists_fuel (g : Grammar R) {n : Nat} (h : n ≤ g.rules.length + 1) (length : Nat) :
    ∃ fuel, g.fuel length = fuel + n :=
  Nat.exists_eq_add_of_le' (Nat.le_trans h (Nat.le_mul_of_pos_left _ (Nat.succ_pos length)))

theorem Matches.parse_eq [DecidableEq R] {r : R} {text : List Char}
    (h : Matches (matchRule g (g.fuel text.length)) true (.rule r) ⟨.none, .free⟩ (.start text)
      a d) : g.parse r text = .ok a := by
  obtain ⟨log', h⟩ := h .empty
  have hrun : g.run r text = .matched a d log' := h
  rw [Grammar.parse, hrun]

end ServiceLang.Peg
