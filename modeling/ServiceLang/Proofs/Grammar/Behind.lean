import ServiceLang.Proofs.Grammar.Indented
import ServiceLang.Proofs.Grammar.Program

/-!
The end of a main text as a main text of its own.

A repetition that has come to one of its rounds goes on from there as if it had begun there
(`exists_many_of_mem`).  So what a main text leaves from one of its statements on, it leaves
wherever this statement stands first (`Remains`).  If the first statement behind a place of
the text is the first thing that is no trivia there, the text behind the place is accepted by
itself and leaves the nodes of these statements (`exists_parse_behind`).
-/

namespace ServiceLang

namespace Peg

variable {R : Type}

/-- Rounds that go forward are repeated alike by all numbers that are large enough. -/
theorem repeatStep_eq_of_lt {step : Cursor → Attempts R → Outcome R}
    (hlt : ∀ d log nodes e log', step d log = .matched nodes e log' → e.rest.length < d.rest.length)
    {n m : Nat} {c : Cursor} (hn : c.rest.length < n) (hm : c.rest.length < m) (log : Attempts R) :
    repeatStep step n c log = repeatStep step m c log := by
  induction n generalizing m c log with
  | zero => cases hn
  | succ n ih =>
    obtain ⟨m, rfl⟩ := Nat.exists_eq_add_one.2 (Nat.zero_lt_of_lt hm)
    unfold repeatStep
    cases hs : step c log with
    | failed => rfl
    | matched nodes d log' =>
      have := hlt _ _ _ _ _ hs
      dsimp only
      rw [ih (m := m) (by omega) (by omega)]

section

variable {call : R → Mode → Cursor → Attempts R → Outcome R} {sep : Bool} {p : Pattern R}
  {mode : Mode} {c d : Cursor} {log log' : Attempts R} {a : List (ParseTree R)}

/-- The repetition is on its way to `d` when it comes to a round that leaves the node. -/
def ComesTo (call : R → Mode → Cursor → Attempts R → Outcome R) (sep : Bool) (p : Pattern R)
    (mode : Mode) (t : ParseTree R) (a : List (ParseTree R)) (d : Cursor) (log' : Attempts R) : Prop :=
  ∃ front nodes more e e' l l', a = front ++ (nodes ++ more) ∧ t ∈ nodes ∧
    matchPattern call sep p mode e l = .matched nodes e' l' ∧
    matchPattern call sep (.many p) mode e l = .matched (nodes ++ more) d log'

theorem comesTo_of_repeatStep (hlt : ∀ d log nodes e log',
      matchPattern call sep p mode d log = .matched nodes e log' → e.rest.length < d.rest.length)
    {n : Nat} (hn : c.rest.length < n) (log : Attempts R) {t : ParseTree R}
    {r : List (ParseTree R) × Cursor × Attempts R}
    (hr : repeatStep (fun c log => matchPattern call sep p mode (gap sep mode c) log) n c log = r)
    (ht : t ∈ r.1) : ComesTo call sep p mode t r.1 r.2.1 r.2.2 := by
  have hstep (d : Cursor) (log : Attempts R) (nodes : List (ParseTree R)) (e : Cursor)
      (log' : Attempts R) (h : matchPattern call sep p mode (gap sep mode d) log = .matched nodes e log') :
      e.rest.length < d.rest.length :=
    Nat.lt_of_lt_of_le (hlt _ _ _ _ _ h) (reaches_gap sep mode d).length_le
  induction n generalizing c log r with
  | zero => cases hn
  | succ n ih =>
    unfold repeatStep at hr
    cases hs : matchPattern call sep p mode (gap sep mode c) log with
    | failed =>
      rw [hs] at hr
      subst hr
      cases ht
    | matched nodes e l =>
      rw [hs] at hr
      subst hr
      have hle := hstep _ _ _ _ _ hs
      rcases List.mem_append.1 ht with ht | ht
      · refine ⟨[], nodes, _, gap sep mode c, e, log, l, rfl, ht, hs, ?_⟩
        rw [matchPattern, hs]
        dsimp only
        rw [repeatStep_eq_of_lt hstep (Nat.lt_succ_self _) (by omega : e.rest.length < n)]
      · obtain ⟨front, nodes', more, e₁, e₂, l₁, l₂, hmore, ht, hs, hm⟩ := ih (by omega) l rfl ht
        refine ⟨nodes ++ front, nodes', more, e₁, e₂, l₁, l₂, ?_, ht, hs, hm⟩
        rw [List.append_assoc, ← hmore]

/-- From each of its rounds on, a repetition is the repetition that begins there. -/
theorem exists_many_of_mem (hlt : ∀ d log nodes e log',
      matchPattern call sep p mode d log = .matched nodes e log' → e.rest.length < d.rest.length)
    {t : ParseTree R} (h : matchPattern call sep (.many p) mode c log = .matched a d log')
    (ht : t ∈ a) : ComesTo call sep p mode t a d log' := by
  have hwhole := h
  rw [matchPattern] at h
  cases hs : matchPattern call sep p mode c log with
  | failed =>
    rw [hs] at h
    obtain ⟨rfl, -, -⟩ := Outcome.matched.inj h
    cases ht
  | matched nodes e l =>
    rw [hs] at h
    dsimp only at h
    generalize hr : repeatStep _ (e.rest.length + 1) e l = r at h
    obtain ⟨rfl, rfl, rfl⟩ := Outcome.matched.inj h
    rcases List.mem_append.1 ht with ht | ht
    · exact ⟨[], nodes, _, c, e, log, l, rfl, ht, hs, hwhole⟩
    · obtain ⟨front, nodes', more, e₁, e₂, l₁, l₂, hmore, ht, hs, hm⟩ :=
        comesTo_of_repeatStep hlt (Nat.lt_succ_self _) l hr ht
      refine ⟨nodes ++ front, nodes', more, e₁, e₂, l₁, l₂, ?_, ht, hs, hm⟩
      rw [List.append_assoc, ← hmore]

end

/-- At one offset behind a cursor stands one cursor. -/
theorem Cursor.Reaches.unique {c d e : Cursor} (hd : c.Reaches d) (he : c.Reaches e)
    (ho : d.offset = e.offset) : d = e := by
  have rest {f : Cursor} (hf : c.Reaches f) : f.rest = dropBytes (f.offset - c.offset) c.rest := by
    obtain ⟨k, hrest, hoffset⟩ := hf
    rw [hrest, hoffset, Nat.add_sub_cancel_left, dropBytes_append]
  obtain ⟨offset, cs⟩ := d
  obtain ⟨offset', cs'⟩ := e
  obtain rfl : offset = offset' := ho
  rw [Cursor.mk.injEq]
  exact ⟨rfl, (rest hd).trans (rest he).symm⟩

/-- Trivia behind a place is trivia at the start of the text there. -/
theorem skipTrivia_behind (n : Nat) (cs : List Char) :
    skipTrivia ⟨n, cs⟩ = (skipTrivia (.start cs)).shift n := by
  rw [← Cursor.skipTrivia_shift]
  simp [Cursor.shift, Cursor.start]

end Peg

namespace MainGrammar

open Peg

variable {fuel : Nat} {c : Cursor} {log : Attempts Rule} {text : List Char}
  {nodes trees : List (ParseTree Rule)}

/-- A statement leaves its node where it starts. -/
theorem exists_start_of_statement {d : Cursor}
    (h : Derives grammar true (.rule .statement) ⟨.none, .free⟩ c nodes d) :
    ∃ t, nodes = [t] ∧ t.start = c := by
  obtain ⟨t, rfl, ho, -⟩ := exists_of_statement h
  exact ⟨t, rfl, (h.isLeft List.mem_cons_self).2.unique (.refl c) (t.offset_eq.symm.trans ho)⟩

/-- From the cursor on, the main text leaves these statements, and then it ends. -/
def Remains (fuel : Nat) (c : Cursor) (log : Attempts Rule) (nodes : List (ParseTree Rule)) : Prop :=
  ∃ d log', matchPattern (matchRule grammar fuel) true (.many (.rule .statement)) ⟨.none, .free⟩ c log =
    .matched nodes d log' ∧ (skipTrivia d).rest = []

theorem program_pattern : (definition .program).pattern =
    .andThen .textStart (.andThen (.many (.rule .statement)) (lex .endOfInput)) := rfl

theorem gap_free (c : Cursor) : gap true ⟨.none, .free⟩ c = skipTrivia c := rfl

/-- A main text that is accepted leaves its statements behind the trivia at its start. -/
theorem remains_of_parse (h : grammar.parse .program text = .ok trees)
    (hfuel : grammar.fuel text.length ≤ fuel + 1) :
    Remains fuel (skipTrivia (.start text)) .empty (statementNodes trees) := by
  unfold Grammar.parse at h
  rw [run_eq_of_le settles_rules text (fuel + 1) hfuel, matchRule_program, program_pattern,
    matchPattern, matchPattern, if_pos (show (Cursor.start text).offset = 0 from rfl)] at h
  dsimp only at h
  rw [matchPattern, gap_free] at h
  cases hm : matchPattern (matchRule grammar fuel) true (.many (.rule .statement)) ⟨.none, .free⟩
      (skipTrivia (.start text)) .empty with
  | failed => rw [hm] at h; cases h
  | matched nodes d log' =>
  rw [hm] at h
  dsimp only at h
  rw [gap_free] at h
  cases he : matchPattern (matchRule grammar fuel) true (lex .endOfInput) ⟨.none, .free⟩
      (skipTrivia d) log' with
  | failed => rw [he] at h; cases h
  | matched more e log'' =>
  rw [he] at h
  obtain rfl := Except.ok.inj h
  have derives {p c a d log log'} := derives_of_matchPattern (matchRule grammar fuel)
    (fun sep => derives_of_matchRule fuel sep) true p ⟨.none, .free⟩ c log a d log'
  obtain ⟨hnodes, hrest⟩ := statementNodes_program (.start text) e.offset (derives hm) (derives he)
  rw [List.nil_append, hnodes]
  exact ⟨d, log', hm, hrest⟩

/-- If statements are left behind the trivia at its start, and then a text ends, it is accepted. -/
theorem parse_of_remains (h : Remains (fuel + 1) (skipTrivia (.start text)) .empty nodes)
    (hfuel : grammar.fuel text.length ≤ fuel + 2) :
    ∃ trees, grammar.parse .program text = .ok trees ∧ statementNodes trees = nodes := by
  obtain ⟨d, log', hm, hrest⟩ := h
  let eoi : ParseTree Rule := .node (.lexeme .endOfInput) (skipTrivia d) (skipTrivia d).offset []
  have hend : Matches (matchRule grammar (fuel + 1)) true (lex .endOfInput) ⟨.none, .free⟩
      (skipTrivia d) [eoi] (skipTrivia d) := .rule (.textEnd hrest)
  obtain ⟨log'', he⟩ := hend log'
  have hrun : grammar.run .program text =
      .matched [.node .program (.start text) (skipTrivia d).offset (nodes ++ [eoi])] (skipTrivia d) log'' := by
    rw [run_eq_of_le settles_rules text (fuel + 2) hfuel, matchRule_program, program_pattern,
      matchPattern, matchPattern, if_pos (show (Cursor.start text).offset = 0 from rfl)]
    dsimp only
    rw [matchPattern, gap_free, hm]
    dsimp only
    rw [gap_free, he]
    rfl
  have derives {p c a d log log'} := derives_of_matchPattern (matchRule grammar (fuel + 1))
    (fun sep => derives_of_matchRule (fuel + 1) sep) true p ⟨.none, .free⟩ c log a d log'
  exact ⟨_, by rw [Grammar.parse, hrun],
    (statementNodes_program (.start text) _ (derives hm) (derives he)).1⟩

namespace Remains

/-- Nothing is left where the text ends, or there is a statement to begin with. -/
theorem nil_or_cons (h : Remains fuel c log nodes) :
    nodes = [] ∧ (skipTrivia c).rest = [] ∨ ∃ t ts, nodes = t :: ts ∧ t.start = c := by
  obtain ⟨d, log', hm, hrest⟩ := h
  rw [matchPattern] at hm
  cases hs : matchPattern (matchRule grammar fuel) true (.rule .statement) ⟨.none, .free⟩ c log with
  | failed =>
    rw [hs] at hm
    obtain ⟨rfl, rfl, -⟩ := Outcome.matched.inj hm
    exact .inl ⟨rfl, hrest⟩
  | matched round e l =>
    rw [hs] at hm
    dsimp only at hm
    generalize repeatStep _ (e.rest.length + 1) e l = r at hm
    obtain ⟨rfl, -, -⟩ := Outcome.matched.inj hm
    obtain ⟨t, rfl, hstart⟩ := exists_start_of_statement (derives_of_matchPattern (matchRule grammar fuel)
      (fun sep => derives_of_matchRule fuel sep) _ _ _ _ _ _ _ _ hs)
    exact .inr ⟨t, r.1, rfl, hstart⟩

/-- From each of its statements on, a main text leaves that statement and those behind it. -/
theorem exists_of_mem (h : Remains fuel c log nodes) {t : ParseTree Rule} (ht : t ∈ nodes) :
    ∃ front behind log', nodes = front ++ t :: behind ∧ c.Reaches t.start ∧
      Remains fuel t.start log' (t :: behind) := by
  obtain ⟨d, log', hm, hrest⟩ := h
  have derives {p c a d log log'} := derives_of_matchPattern (matchRule grammar fuel)
    (fun sep => derives_of_matchRule fuel sep) true p ⟨.none, .free⟩ c log a d log'
  obtain ⟨front, round, more, e, e', l, l', rfl, ht, hround, hmany⟩ :=
    exists_many_of_mem (length_lt_of_consumes 6 (by decide)) hm ht
  obtain ⟨u, rfl, rfl⟩ := exists_start_of_statement (derives hround)
  obtain rfl := List.mem_singleton.1 ht
  exact ⟨front, more, l, rfl, ((derives hm).isLeft (by simp)).2, d, log', hmany, hrest⟩

/-- Where a text ends, no statement is left. -/
theorem of_nil (hc : c.rest = []) (log : Attempts Rule) : Remains fuel c log [] := by
  have hmiss : Misses (matchRule grammar fuel) true (.rule .statement) ⟨.none, .free⟩ c :=
    misses_of_nil 4 hc (by decide)
  obtain ⟨log', hm⟩ := Matches.none hmiss log
  exact ⟨c, log', hm, by rw [skipTrivia_of_nil hc, hc]⟩

/-- What a text leaves from a cursor on, it leaves wherever the cursor stands. -/
theorem of_shift {k : Nat} (h : Remains fuel (c.shift k) log nodes) (log' : Attempts Rule) :
    ∃ nodes', Remains fuel c log' nodes' ∧ List.Forall₂ (ShiftedTrees grammar k) nodes' nodes := by
  obtain ⟨d, l, hm, hrest⟩ := h
  have halike : MatchesAlike (matchRule grammar fuel) true (ShiftedTrees grammar k) (Shifted k)
      (.many (.rule .statement)) ⟨.none, .free⟩ c (c.shift k) :=
    .of_floats (fun r (hr : decide (r ≠ .program)) => floats_definition (of_decide_eq_true hr))
      fuel true (by decide) _ _
  have h := halike log' log
  rw [hm] at h
  generalize hm' : matchPattern _ true _ _ c log' = o at h
  cases h with
  | @matched nodes' _ d' _ l' _ hall hd =>
    obtain rfl : d = d'.shift k := hd
    rw [Cursor.skipTrivia_shift] at hrest
    exact ⟨nodes', ⟨d', l', hm', hrest⟩, hall⟩

end Remains

/-- The first statement that begins behind the cursor begins at the first token there, and if
there is a token, there is such a statement. -/
def BeginsBehind (c : Cursor) (trees : List (ParseTree Rule)) : Prop :=
  (∀ t ∈ (statementNodes trees).find? (c.offset ≤ ·.offset), t.offset = (skipTrivia c).offset) ∧
    ((skipTrivia c).rest ≠ [] → ∃ t ∈ statementNodes trees, c.offset ≤ t.offset)

instance (c : Cursor) (trees : List (ParseTree Rule)) : Decidable (BeginsBehind c trees) :=
  inferInstanceAs (Decidable (_ ∧ _))

/-- The first statement of a text begins at the first token, and if there is a token, there is a
statement. -/
theorem nil_or_cons_statementNodes (h : grammar.parse .program text = .ok trees) :
    statementNodes trees = [] ∧ (skipTrivia (.start text)).rest = [] ∨
      ∃ t ts, statementNodes trees = t :: ts ∧ t.start = skipTrivia (.start text) := by
  have h : Remains (grammar.fuel text.length) (skipTrivia (.start text)) .empty (statementNodes trees) :=
    remains_of_parse h (by omega)
  simpa only [skipTrivia_skipTrivia] using h.nil_or_cons

/-- If a statement begins behind a place of a main text, or nothing is there, then the text
behind it is accepted by itself, and it leaves the nodes of the statements there. -/
theorem exists_parse_behind {pre back : List Char} (h : grammar.parse .program (pre ++ back) = .ok trees)
    (hb : BeginsBehind ⟨byteLength pre, back⟩ trees) :
    ∃ trees' front behind, grammar.parse .program back = .ok trees' ∧
      statementNodes trees = front ++ behind ∧ (∀ t ∈ front, t.offset < byteLength pre) ∧
      (∀ t ∈ behind, byteLength pre ≤ t.offset) ∧
      List.Forall₂ (ShiftedTrees grammar (byteLength pre)) (statementNodes trees') behind := by
  let fuel := max (grammar.fuel (pre ++ back).length) (grammar.fuel back.length)
  have hremains : Remains (fuel + 1) (skipTrivia (.start (pre ++ back))) .empty (statementNodes trees) :=
    remains_of_parse h (by omega)
  have parse {l : Attempts Rule} {behind : List (ParseTree Rule)}
      (h : Remains (fuel + 1) (skipTrivia ⟨byteLength pre, back⟩) l behind) :
      ∃ trees', grammar.parse .program back = .ok trees' ∧
        List.Forall₂ (ShiftedTrees grammar (byteLength pre)) (statementNodes trees') behind := by
    rw [skipTrivia_behind] at h
    obtain ⟨nodes', hnodes', hall⟩ := h.of_shift .empty
    obtain ⟨trees', htrees', rfl⟩ := parse_of_remains hnodes' (by omega)
    exact ⟨trees', htrees', hall⟩
  obtain ⟨hfirst, hsome⟩ := hb
  cases hfind : (statementNodes trees).find? (byteLength pre ≤ ·.offset) with
  | none =>
    have hnone := List.find?_eq_none.1 hfind
    have hnil : (skipTrivia ⟨byteLength pre, back⟩).rest = [] := by
      by_contra hne
      obtain ⟨t, ht, hle⟩ := hsome hne
      exact hnone t ht (decide_eq_true hle)
    obtain ⟨trees', htrees', hall⟩ := parse (.of_nil hnil .empty)
    refine ⟨trees', statementNodes trees, [], htrees', by simp, fun t ht => ?_, nofun, hall⟩
    simpa using hnone t ht
  | some t =>
    have ht : t ∈ statementNodes trees := List.mem_of_find?_eq_some hfind
    have hle : byteLength pre ≤ t.offset := by simpa using List.find?_some hfind
    obtain ⟨front, behind, l, hnodes, hreach, hrest⟩ := hremains.exists_of_mem ht
    have hplace : (Cursor.start (pre ++ back)).Reaches ⟨byteLength pre, back⟩ :=
      ⟨pre, rfl, by simp [Cursor.start]⟩
    have hstart : t.start = skipTrivia ⟨byteLength pre, back⟩ :=
      ((reaches_skipTrivia _).trans hreach).unique (hplace.trans (reaches_skipTrivia _))
        (t.offset_eq.symm.trans (hfirst t hfind))
    rw [hstart] at hrest
    obtain ⟨trees', htrees', hall⟩ := parse hrest
    have hpair := (pairwise_statementNodes h).1
    rw [hnodes] at hpair hfind
    obtain ⟨-, hbehind, hfront⟩ := List.pairwise_append.1 hpair
    refine ⟨trees', front, t :: behind, htrees', hnodes, fun u hu => ?_, fun u hu => ?_, hall⟩
    · -- the first one behind `pre` would stand in front of `t`
      by_contra hu'
      obtain ⟨v, hv⟩ : ∃ v, front.find? (byteLength pre ≤ ·.offset) = some v := by
        refine Option.isSome_iff_exists.1 (List.find?_isSome.2 ⟨u, hu, ?_⟩)
        simpa using hu'
      rw [List.find?_append, hv] at hfind
      obtain rfl : v = t := Option.some.inj hfind
      exact Nat.lt_irrefl _ (hfront v (List.mem_of_find?_eq_some hv) v List.mem_cons_self)
    · rcases List.mem_cons.1 hu with rfl | hu
      · exact hle
      · exact Nat.le_trans hle (Nat.le_of_lt ((List.pairwise_cons.1 hbehind).1 u hu))

end MainGrammar

end ServiceLang
