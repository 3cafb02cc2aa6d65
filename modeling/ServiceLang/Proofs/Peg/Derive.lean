import ServiceLang.Peg.Match
import ServiceLang.Proofs.Peg.Cursor

/-!
What a match is, without fuel and without the log.

`Derives g sep p mode c nodes d` says that the pattern `p` may match from the
cursor `c` to the cursor `d` and leave `nodes`.  A derivation does not say why the
alternatives before the one taken have failed, except below `notHere`, so there
may be more derivations than matches.  Every match is a derivation
(`derives_of_matchRule`), and what holds of all derivations is shown by induction
on them.
-/

namespace ServiceLang.Peg

variable {R : Type} {g : Grammar R}

/-- Some attempt at the pattern fails here. -/
def Fails (separates : Bool) (p : Pattern R) (c : Cursor) : Prop :=
  ∃ call mode log log', matchPattern call separates p mode c log = .failed log'

/-- The nodes that a rule of this kind leaves, from those of its pattern. -/
def keepNodes (kind : Kind) (r : R) (mode : Mode) (start : Cursor) (stop : Nat)
    (inner : List (ParseTree R)) : List (ParseTree R) :=
  if kind = .silent then inner
  else nodesOf r { mode with spacing := kind.outer mode.spacing } start stop inner

/-- A pattern may match from one cursor to another and leave these nodes. -/
inductive Derives (g : Grammar R) :
    Bool → Pattern R → Mode → Cursor → List (ParseTree R) → Cursor → Prop
  | literal {sep : Bool} {text : String} {mode : Mode} {c d : Cursor} :
      c.strip? text.toList = some d → Derives g sep (.literal text) mode c [] d
  | oneOf {sep : Bool} {cls : CharClass} {mode : Mode} {c d : Cursor} :
      c.next? cls.contains = some d → Derives g sep (.oneOf cls) mode c [] d
  | rule {sep : Bool} {r : R} {mode : Mode} {c d : Cursor} {nodes : List (ParseTree R)} :
      Derives g (g.definition r).kind.separates (g.definition r).pattern
        { mode with spacing := (g.definition r).kind.inner mode.spacing } c nodes d →
      Derives g sep (.rule r) mode c (keepNodes (g.definition r).kind r mode c d.offset nodes) d
  | andThen {sep : Bool} {p q : Pattern R} {mode : Mode} {c d e : Cursor}
      {nodes more : List (ParseTree R)} : Derives g sep p mode c nodes d →
      Derives g sep q mode (gap sep mode d) more e →
      Derives g sep (.andThen p q) mode c (nodes ++ more) e
  | first {sep : Bool} {p q : Pattern R} {mode : Mode} {c d : Cursor}
      {nodes : List (ParseTree R)} : Derives g sep p mode c nodes d →
      Derives g sep (.orElse p q) mode c nodes d
  | second {sep : Bool} {p q : Pattern R} {mode : Mode} {c d : Cursor}
      {nodes : List (ParseTree R)} : Derives g sep q mode c nodes d →
      Derives g sep (.orElse p q) mode c nodes d
  | none {sep : Bool} {p : Pattern R} {mode : Mode} {c : Cursor} :
      Derives g sep (.many p) mode c [] c
  | once {sep : Bool} {p : Pattern R} {mode : Mode} {c d : Cursor} {nodes : List (ParseTree R)} :
      Derives g sep p mode c nodes d → Derives g sep (.many p) mode c nodes d
  | again {sep : Bool} {p : Pattern R} {mode : Mode} {c d e : Cursor}
      {nodes more : List (ParseTree R)} : Derives g sep (.many p) mode c nodes d →
      Derives g sep p mode (gap sep mode d) more e →
      Derives g sep (.many p) mode c (nodes ++ more) e
  | without {sep : Bool} {p : Pattern R} {mode : Mode} {c : Cursor} :
      Derives g sep (.optional p) mode c [] c
  | with {sep : Bool} {p : Pattern R} {mode : Mode} {c d : Cursor} {nodes : List (ParseTree R)} :
      Derives g sep p mode c nodes d → Derives g sep (.optional p) mode c nodes d
  | notHere {sep : Bool} {p : Pattern R} {mode : Mode} {c : Cursor} :
      Fails sep p c → Derives g sep (.notHere p) mode c [] c
  | textStart {sep : Bool} {mode : Mode} {c : Cursor} :
      c.offset = 0 → Derives g sep .textStart mode c [] c
  | textEnd {sep : Bool} {mode : Mode} {c : Cursor} :
      c.rest = [] → Derives g sep .textEnd mode c [] c

/-! ## Matches are derivations -/

theorem ofCursor_eq_matched {next? : Option Cursor} {log log' : Attempts R}
    {nodes : List (ParseTree R)} {d : Cursor}
    (h : Outcome.ofCursor next? log = .matched nodes d log') : nodes = [] ∧ next? = some d := by
  cases next? with
  | none => cases h
  | some e => cases h; exact ⟨rfl, rfl⟩

/-- Repetitions of derivations behind a derivation. -/
theorem derives_of_repeatStep (sep : Bool) (p : Pattern R) (mode : Mode)
    (step : Cursor → Attempts R → Outcome R)
    (hstep : ∀ c log nodes d log', step c log = .matched nodes d log' →
      Derives g sep p mode (gap sep mode c) nodes d)
    (n : Nat) (c d : Cursor) (log : Attempts R) (nodes : List (ParseTree R))
    (h : Derives g sep (.many p) mode c nodes d) :
    Derives g sep (.many p) mode c (nodes ++ (repeatStep step n d log).1)
      (repeatStep step n d log).2.1 := by
  induction n generalizing d log nodes with
  | zero => simpa [repeatStep] using h
  | succ n ih =>
    unfold repeatStep
    split
    · simpa using h
    · next more e log' hs =>
      have := ih e log' (nodes ++ more) (h.again (hstep d log more e log' hs))
      simpa [List.append_assoc] using this

/-- If the matches of rules are derivations, so are those of patterns. -/
theorem derives_of_matchPattern (call : R → Mode → Cursor → Attempts R → Outcome R)
    (hcall : ∀ sep r mode c log nodes d log', call r mode c log = .matched nodes d log' →
      Derives g sep (.rule r) mode c nodes d)
    (sep : Bool) (p : Pattern R) (mode : Mode) (c : Cursor) (log : Attempts R)
    (nodes : List (ParseTree R)) (d : Cursor) (log' : Attempts R)
    (h : matchPattern call sep p mode c log = .matched nodes d log') :
    Derives g sep p mode c nodes d := by
  induction p generalizing mode c log nodes d log' with
  | literal text =>
    obtain ⟨rfl, hd⟩ := ofCursor_eq_matched h
    exact .literal hd
  | oneOf cls =>
    obtain ⟨rfl, hd⟩ := ofCursor_eq_matched h
    exact .oneOf hd
  | rule r => exact hcall sep r mode c log nodes d log' h
  | andThen p q ihp ihq =>
    unfold matchPattern at h
    split at h
    · cases h
    next n1 e log1 h1 =>
    split at h
    · cases h
    next n2 e2 log2 h2 =>
    cases h
    exact .andThen (ihp _ _ _ _ _ _ h1) (ihq _ _ _ _ _ _ h2)
  | orElse p q ihp ihq =>
    unfold matchPattern at h
    split at h
    · next h1 => cases h; exact .first (ihp _ _ _ _ _ _ h1)
    · exact .second (ihq _ _ _ _ _ _ h)
  | many p ih =>
    unfold matchPattern at h
    split at h
    · cases h; exact .none
    · next n1 e log1 h1 =>
      cases h
      have hstep : ∀ c log nodes d log',
          matchPattern call sep p mode (gap sep mode c) log = .matched nodes d log' →
          Derives g sep p mode (gap sep mode c) nodes d := fun c log n d log' h => ih _ _ _ _ _ _ h
      exact derives_of_repeatStep sep p mode _ hstep (e.rest.length + 1) c e log1 n1
        (.once (ih _ _ _ _ _ _ h1))
  | optional p ih =>
    unfold matchPattern at h
    split at h
    · cases h; exact .without
    · next h1 => cases h; exact .with (ih _ _ _ _ _ _ h1)
  | notHere p ih =>
    unfold matchPattern at h
    split at h
    · next h1 => cases h; exact .notHere ⟨_, _, _, _, h1⟩
    · cases h
  | textStart =>
    unfold matchPattern at h
    split at h
    · next h1 => cases h; exact .textStart h1
    · cases h
  | textEnd =>
    unfold matchPattern at h
    split at h
    · next h1 => cases h; exact .textEnd (List.isEmpty_iff.1 h1)
    · cases h

theorem derives_of_matchRule (fuel : Nat) (sep : Bool) (r : R) (mode : Mode) (c : Cursor)
    (log : Attempts R) (nodes : List (ParseTree R)) (d : Cursor) (log' : Attempts R)
    (h : matchRule g fuel r mode c log = .matched nodes d log') :
    Derives g sep (.rule r) mode c nodes d := by
  induction fuel generalizing sep r mode c log nodes d log' with
  | zero => cases h
  | succ fuel ih =>
    have inner : ∀ ns e l, matchPattern (matchRule g fuel) (g.definition r).kind.separates
        (g.definition r).pattern { mode with spacing := (g.definition r).kind.inner mode.spacing }
        c log = .matched ns e l → Derives g sep (.rule r) mode c
          (keepNodes (g.definition r).kind r mode c e.offset ns) e :=
      fun ns e l h2 => .rule (derives_of_matchPattern (matchRule g fuel) (fun sep => ih sep) _ _ _ _
        _ _ _ _ h2)
    unfold matchRule at h
    dsimp only at h
    split at h
    · next hk =>
      have := inner nodes d log' h
      rwa [keepNodes, if_pos hk] at this
    · next hk =>
      split at h
      · next ns e l h2 =>
        cases h
        have := inner ns d l h2
        rwa [keepNodes, if_neg hk] at this
      · cases h

/-- The trees of a text are derived from its root. -/
theorem derives_of_parse [DecidableEq R] (r : R) (text : List Char) (trees : List (ParseTree R))
    (h : g.parse r text = .ok trees) :
    ∃ d, Derives g false (.rule r) ⟨.none, .free⟩ (.start text) trees d := by
  unfold Grammar.parse at h
  split at h
  · next d log hr =>
    cases h
    exact ⟨d, derives_of_matchRule _ _ _ _ _ _ _ _ _ hr⟩
  · cases h

/-! ## Moving forward -/

theorem reaches_gap (sep : Bool) (mode : Mode) (c : Cursor) : c.Reaches (gap sep mode c) := by
  unfold gap
  split
  · exact reaches_skipTrivia c
  · exact .refl c

/-- A derivation goes forward over text that it reads. -/
theorem Derives.reaches {sep : Bool} {p : Pattern R} {mode : Mode} {c d : Cursor}
    {nodes : List (ParseTree R)} (h : Derives g sep p mode c nodes d) : c.Reaches d := by
  induction h with
  | literal h => exact (Cursor.passes_of_strip? h).reaches
  | oneOf h => exact Cursor.reaches_of_next? h
  | rule _ ih => exact ih
  | andThen _ _ ih1 ih2 => exact (ih1.trans (reaches_gap _ _ _)).trans ih2
  | first _ ih => exact ih
  | second _ ih => exact ih
  | none => exact .refl _
  | once _ ih => exact ih
  | again _ _ ih1 ih2 => exact (ih1.trans (reaches_gap _ _ _)).trans ih2
  | without => exact .refl _
  | «with» _ ih => exact ih
  | notHere => exact .refl _
  | textStart => exact .refl _
  | textEnd => exact .refl _

/-! ## First characters -/

namespace Pattern

/-- The pattern only looks ahead. -/
def isNotHere : Pattern R → Bool
  | notHere _ => true
  | _ => false

/-- The pattern reads a character, and the first one read is none of `cs`; `call` says
it of rules. -/
def avoids (call : R → Bool) (cs : List Char) (sep : Bool) : Pattern R → Bool
  | literal text => text.toList.head?.any (!cs.contains ·)
  | oneOf cls => cs.all (!cls.contains ·)
  | rule r => call r
  | andThen p q => p.avoids call cs sep || p.isNotHere && !sep && q.avoids call cs sep
  | orElse p q => p.avoids call cs sep && q.avoids call cs sep
  | _ => false

end Pattern

/-- The same for a rule, as far as rules inside each other are unfolded so often. -/
def Grammar.avoids (g : Grammar R) (cs : List Char) : Nat → R → Bool
  | 0, _ => false
  | n + 1, r =>
    (g.definition r).pattern.avoids (g.avoids cs n) cs (g.definition r).kind.separates

/-- The first character that a derivation reads. -/
theorem Derives.exists_first {sep : Bool} {p : Pattern R} {mode : Mode} {c d : Cursor}
    {nodes : List (ParseTree R)} (h : Derives g sep p mode c nodes d) (cs : List Char) (n : Nat)
    (ha : p.avoids (g.avoids cs n) cs sep) :
    ∃ x xs, c.rest = x :: xs ∧ x ∉ cs ∧ c.offset < d.offset := by
  induction h generalizing n with
  | @literal sep text mode c d h =>
    obtain ⟨hr, ho⟩ := (Cursor.strip?_eq_some_iff _ c d).1 h
    unfold Pattern.avoids at ha
    cases ht : text.toList with
    | nil => rw [ht] at ha; cases ha
    | cons x xs =>
      rw [ht] at ha hr ho
      have := x.utf8Size_pos
      refine ⟨x, xs ++ d.rest, hr, ?_, ?_⟩
      · simpa using ha
      · rw [ho, byteLength_cons]; omega
  | @oneOf sep cls mode c d h =>
    obtain ⟨x, hx, hc, ho⟩ := (Cursor.next?_eq_some_iff _ c d).1 h
    have := x.utf8Size_pos
    refine ⟨x, d.rest, hx, ?_, by omega⟩
    intro hm
    have := List.all_eq_true.1 ha x hm
    rw [hc] at this
    cases this
  | @rule sep r mode c d nodes h ih =>
    cases n with
    | zero => cases ha
    | succ n => exact ih n ha
  | @andThen sep p q mode c d e nodes more h1 h2 ih1 ih2 =>
    have hde := (reaches_gap sep mode d).offset_le
    unfold Pattern.avoids at ha
    rcases Bool.or_eq_true_iff.1 ha with hp | hq
    · obtain ⟨x, xs, hx, hn, hlt⟩ := ih1 n hp
      have := h2.reaches.offset_le
      exact ⟨x, xs, hx, hn, by omega⟩
    · -- nothing is read by the first pattern, and no trivia stands behind it
      simp only [Bool.and_eq_true, Bool.not_eq_true'] at hq
      obtain ⟨⟨hn, rfl⟩, hq⟩ := hq
      cases h1 with
      | notHere => exact ih2 n hq
      | _ => cases hn
  | first _ ih =>
    unfold Pattern.avoids at ha
    exact ih n (Bool.and_eq_true_iff.1 ha).1
  | second _ ih =>
    unfold Pattern.avoids at ha
    exact ih n (Bool.and_eq_true_iff.1 ha).2
  | _ => cases ha

/-! ## Nodes -/

theorem Derives.of_choice {sep : Bool} {ps : List (Pattern R)} {mode : Mode} {c d : Cursor}
    {nodes : List (ParseTree R)} (h : Derives g sep (.choice ps) mode c nodes d) (hps : ps ≠ []) :
    ∃ p ∈ ps, Derives g sep p mode c nodes d := by
  induction ps with
  | nil => exact absurd rfl hps
  | cons p ps ih =>
    cases ps with
    | nil => exact ⟨p, List.mem_cons_self, h⟩
    | cons q ps =>
      cases h with
      | first h => exact ⟨p, List.mem_cons_self, h⟩
      | second h =>
        obtain ⟨q, hq, h2⟩ := ih h (by simp)
        exact ⟨q, List.mem_cons_of_mem p hq, h2⟩

/-- A choice between rules derives what one of them derives. -/
theorem Derives.exists_of_choice {sep : Bool} {rules : List R} {mode : Mode} {c d : Cursor}
    {nodes : List (ParseTree R)}
    (h : Derives g sep (.choice (rules.map .rule)) mode c nodes d) (hr : rules ≠ []) :
    ∃ r ∈ rules, Derives g sep (.rule r) mode c nodes d := by
  obtain ⟨p, hp, h⟩ := h.of_choice (by simpa using hr)
  obtain ⟨r, hr, rfl⟩ := List.mem_map.1 hp
  exact ⟨r, hr, h⟩

/-- The parts of a sequence derive one behind the other. -/
theorem Derives.of_andThen {sep : Bool} {p q : Pattern R} {mode : Mode} {c e : Cursor}
    {nodes : List (ParseTree R)} (h : Derives g sep (.andThen p q) mode c nodes e) :
    ∃ before d behind, nodes = before ++ behind ∧ Derives g sep p mode c before d ∧
      Derives g sep q mode (gap sep mode d) behind e := by
  cases h with
  | andThen h1 h2 => exact ⟨_, _, _, rfl, h1, h2⟩

theorem Derives.of_rule {sep : Bool} {r : R} {mode : Mode} {c d : Cursor}
    {nodes : List (ParseTree R)} (h : Derives g sep (.rule r) mode c nodes d) :
    ∃ inner, Derives g (g.definition r).kind.separates (g.definition r).pattern
      { mode with spacing := (g.definition r).kind.inner mode.spacing } c inner d ∧
      nodes = keepNodes (g.definition r).kind r mode c d.offset inner := by
  cases h with
  | rule h => exact ⟨_, h, rfl⟩

/-- The node of a rule that leaves one. -/
theorem keepNodes_free (kind : Kind) (r : R) (start : Cursor) (stop : Nat)
    (inner : List (ParseTree R)) (h : kind ≠ .silent) :
    keepNodes kind r ⟨.none, .free⟩ start stop inner = [.node r start stop inner] := by
  unfold keepNodes nodesOf
  rw [if_neg h]
  cases kind <;> rfl

/-- A spaced rule among spaced rules leaves a node. -/
theorem Derives.of_spaced {sep : Bool} {r : R} {c d : Cursor} {nodes : List (ParseTree R)}
    (h : Derives g sep (.rule r) ⟨.none, .free⟩ c nodes d) (hk : (g.definition r).kind = .spaced) :
    ∃ inner, nodes = [.node r c d.offset inner] ∧
      Derives g true (g.definition r).pattern ⟨.none, .free⟩ c inner d := by
  obtain ⟨inner, hd, rfl⟩ := h.of_rule
  rw [hk] at hd ⊢
  exact ⟨inner, keepNodes_free .spaced r c d.offset inner (by decide), hd⟩

/-- A silent rule among spaced rules leaves what its pattern leaves. -/
theorem Derives.of_silent {sep : Bool} {r : R} {c d : Cursor} {nodes : List (ParseTree R)}
    (h : Derives g sep (.rule r) ⟨.none, .free⟩ c nodes d) (hk : (g.definition r).kind = .silent) :
    Derives g true (g.definition r).pattern ⟨.none, .free⟩ c nodes d := by
  obtain ⟨inner, hd, rfl⟩ := h.of_rule
  rw [hk] at hd ⊢
  exact hd

/-- A node was left by a derivation of its rule, somewhere between the ends. -/
theorem Derives.exists_of_mem {sep : Bool} {p : Pattern R} {mode : Mode} {c d : Cursor}
    {nodes : List (ParseTree R)} (h : Derives g sep p mode c nodes d) {t : ParseTree R}
    (ht : t ∈ nodes) : ∃ (mode : Mode) (e f : Cursor), t = .node t.rule e f.offset t.children ∧
      Derives g (g.definition t.rule).kind.separates (g.definition t.rule).pattern
        { mode with spacing := (g.definition t.rule).kind.inner mode.spacing } e t.children f ∧
      c.Reaches e ∧ f.Reaches d := by
  induction h with
  | @rule sep r mode c d nodes h ih =>
    unfold keepNodes nodesOf at ht
    split at ht
    · exact ih ht
    split at ht
    · rw [List.mem_singleton.1 ht]
      exact ⟨_, c, d, rfl, h, .refl c, .refl d⟩
    · exact ih ht
  | @andThen sep p q mode c d e nodes more h1 h2 ih1 ih2 =>
    rcases List.mem_append.1 ht with ht | ht
    · obtain ⟨m, a, b, heq, hab, hca, hbd⟩ := ih1 ht
      exact ⟨m, a, b, heq, hab, hca, (hbd.trans (reaches_gap _ _ _)).trans h2.reaches⟩
    · obtain ⟨m, a, b, heq, hab, hca, hbd⟩ := ih2 ht
      exact ⟨m, a, b, heq, hab, (h1.reaches.trans (reaches_gap _ _ _)).trans hca, hbd⟩
  | first _ ih => exact ih ht
  | second _ ih => exact ih ht
  | once _ ih => exact ih ht
  | @again sep p mode c d e nodes more h1 h2 ih1 ih2 =>
    rcases List.mem_append.1 ht with ht | ht
    · obtain ⟨m, a, b, heq, hab, hca, hbd⟩ := ih1 ht
      exact ⟨m, a, b, heq, hab, hca, (hbd.trans (reaches_gap _ _ _)).trans h2.reaches⟩
    · obtain ⟨m, a, b, heq, hab, hca, hbd⟩ := ih2 ht
      exact ⟨m, a, b, heq, hab, (h1.reaches.trans (reaches_gap _ _ _)).trans hca, hbd⟩
  | «with» _ ih => exact ih ht
  | _ => cases ht

/-- A node whose rule reads a character starts before the end. -/
theorem Derives.offset_lt_of_mem {sep : Bool} {p : Pattern R} {mode : Mode} {c d : Cursor}
    {nodes : List (ParseTree R)} (h : Derives g sep p mode c nodes d) {t : ParseTree R}
    (ht : t ∈ nodes) (n : Nat) (ha : g.avoids [] n t.rule) : t.offset < d.offset := by
  obtain ⟨m, e, f, heq, hef, -, hfd⟩ := h.exists_of_mem ht
  cases n with
  | zero => cases ha
  | succ n =>
    obtain ⟨x, xs, -, -, hlt⟩ := hef.exists_first [] n ha
    have := hfd.offset_le
    rw [heq]
    show e.offset < d.offset
    omega

/-- No derivation goes beyond the end of the text. -/
theorem Derives.offset_le_byteLength {sep : Bool} {p : Pattern R} {mode : Mode} {d : Cursor}
    {nodes : List (ParseTree R)} {text : List Char}
    (h : Derives g sep p mode (.start text) nodes d) : d.offset ≤ byteLength text := by
  obtain ⟨b, hb, ho⟩ := h.reaches.exists_before
  rw [hb, byteLength_append]
  omega

end ServiceLang.Peg
