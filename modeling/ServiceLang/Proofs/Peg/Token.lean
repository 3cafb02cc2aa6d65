import ServiceLang.Proofs.Peg.Derive

/-!
What is read where no trivia stands.

Inside a token rules leave no nodes, and the characters read follow one another.
`Derives.reads` finds the characters of a token in its definition.  What a
repetition reads is found by induction on its rounds (`Derives.many_induction`),
and a pattern that has been looked for in vain is not ahead
(`Fails.ne_of_literal`).
-/

namespace ServiceLang.Peg

variable {R : Type} {g : Grammar R}

/-! ## Patterns that fail -/

theorem Fails.of_orElse {sep : Bool} {p q : Pattern R} {c : Cursor} (h : Fails sep (.orElse p q) c) :
    Fails sep p c ∧ Fails sep q c := by
  obtain ⟨call, mode, log, log', h⟩ := h
  unfold matchPattern at h
  split at h
  · cases h
  · next log1 h1 => exact ⟨⟨_, _, _, _, h1⟩, ⟨_, _, _, _, h⟩⟩

/-- A character that has been looked for in vain is not the next one. -/
theorem Fails.ne_of_literal {sep : Bool} {text : String} {c : Cursor} {x y : Char} {rest : List Char}
    (h : Fails (R := R) sep (.literal text) c) (ht : text.toList = [y]) (hc : c.rest = x :: rest) :
    x ≠ y := by
  rintro rfl
  obtain ⟨call, mode, log, log', h⟩ := h
  have hs : c.strip? text.toList = some ⟨c.offset + x.utf8Size, rest⟩ := by
    refine (Cursor.strip?_eq_some_iff _ _ _).2 ⟨?_, ?_⟩
    · rw [ht, hc]; rfl
    · rw [ht]; simp
  unfold matchPattern at h
  rw [hs] at h
  cases h

/-! ## Without trivia -/

/-- Under a mode that is not free, a sequence goes on where its part has ended. -/
theorem gap_of_not_free (sep : Bool) (mode : Mode) (c : Cursor) (h : mode.spacing ≠ .free) :
    gap sep mode c = c := by
  unfold gap
  rw [if_neg]
  simp [h]

/-- Without trivia, the parts of a sequence derive one directly behind the other. -/
theorem Derives.of_tight {sep : Bool} {p q : Pattern R} {mode : Mode} {c e : Cursor}
    {nodes : List (ParseTree R)} (h : Derives g sep (.andThen p q) mode c nodes e)
    (hm : mode.spacing ≠ .free) :
    ∃ before d behind, nodes = before ++ behind ∧ Derives g sep p mode c before d ∧
      Derives g sep q mode d behind e := by
  obtain ⟨before, d, behind, hnodes, h1, h2⟩ := h.of_andThen
  rw [gap_of_not_free sep mode d hm] at h2
  exact ⟨before, d, behind, hnodes, h1, h2⟩

/-- What holds before a repetition without trivia, and behind each round whenever it
holds before the round, holds behind the repetition. -/
theorem Derives.many_induction {P : Cursor → Prop} {sep : Bool} {p : Pattern R} {mode : Mode}
    {c d : Cursor} {nodes : List (ParseTree R)} (h : Derives g sep (.many p) mode c nodes d)
    (hm : mode.spacing ≠ .free) (h0 : P c)
    (hstep : ∀ e f more, P e → Derives g sep p mode e more f → P f) : P d := by
  generalize hq : Pattern.many p = q at h
  induction h with
  | none => exact h0
  | once h _ =>
    cases hq
    exact hstep _ _ _ h0 h
  | @again sep p mode c d e nodes more _ h2 ih1 _ =>
    cases hq
    rw [gap_of_not_free sep mode d hm] at h2
    exact hstep _ _ _ (ih1 hm h0 hstep rfl) h2
  | _ => cases hq

/-! ## Characters of tokens -/

/-- The pattern reads characters of these classes, and in its literals such characters
only; `call` says it of rules. -/
def Pattern.reads (call : R → Bool) (classes : CharClass → Bool) (ok : Char → Bool) : Pattern R → Bool
  | literal text => text.toList.all ok
  | oneOf cls => classes cls
  | rule r => call r
  | andThen p q | orElse p q => p.reads call classes ok && q.reads call classes ok
  | many p | optional p => p.reads call classes ok
  | notHere _ | textStart | textEnd => true

/-- The same for a token, as far as tokens inside each other are unfolded so often. -/
def Grammar.reads (g : Grammar R) (classes : CharClass → Bool) (ok : Char → Bool) : Nat → R → Bool
  | 0, _ => false
  | n + 1, r =>
    decide ((g.definition r).kind = .token) &&
      (g.definition r).pattern.reads (g.reads classes ok n) classes ok

/-- Without trivia, what is read has the characters of the definition, and inside a
token no nodes are left. -/
theorem Derives.reads (classes : CharClass → Bool) (ok : Char → Bool)
    (hok : ∀ cls x, classes cls → cls.contains x → ok x) {sep : Bool} {p : Pattern R} {mode : Mode}
    {c d : Cursor} {nodes : List (ParseTree R)} (h : Derives g sep p mode c nodes d)
    (hm : mode.spacing ≠ .free) (n : Nat) (hp : p.reads (g.reads classes ok n) classes ok) :
    (mode.spacing = .sealed → nodes = []) ∧ ∃ k, c.Passes k d ∧ ∀ x ∈ k, ok x := by
  have stay : ∀ c : Cursor, ∃ k, c.Passes k c ∧ ∀ x ∈ k, ok x := fun c => ⟨[], .nil c, nofun⟩
  have join : ∀ {c d e : Cursor}, (∃ k, c.Passes k d ∧ ∀ x ∈ k, ok x) →
      (∃ k, d.Passes k e ∧ ∀ x ∈ k, ok x) → ∃ k, c.Passes k e ∧ ∀ x ∈ k, ok x := by
    rintro c d e ⟨k, hk, hkok⟩ ⟨l, hl, hlok⟩
    refine ⟨k ++ l, hk.append hl, fun x hx => ?_⟩
    rcases List.mem_append.1 hx with hx | hx
    · exact hkok x hx
    · exact hlok x hx
  induction h generalizing n with
  | @literal sep text mode c d h =>
    exact ⟨fun _ => rfl, text.toList, Cursor.passes_of_strip? h, List.all_eq_true.1 hp⟩
  | @oneOf sep cls mode c d h =>
    obtain ⟨x, hx, hc, ho⟩ := (Cursor.next?_eq_some_iff _ c d).1 h
    refine ⟨fun _ => rfl, [x], ⟨hx, by simpa using ho⟩, ?_⟩
    intro y hy
    rw [List.mem_singleton.1 hy]
    exact hok cls x hp hc
  | @rule sep r mode c d nodes h ih =>
    cases n with
    | zero => cases hp
    | succ n =>
      unfold Pattern.reads Grammar.reads at hp
      obtain ⟨hk, hp⟩ := Bool.and_eq_true_iff.1 hp
      have hk := of_decide_eq_true hk
      rw [hk] at ih ⊢
      obtain ⟨hnodes, hread⟩ := ih nofun n hp
      refine ⟨fun hs => ?_, hread⟩
      rw [hnodes rfl]
      unfold keepNodes nodesOf Kind.outer
      simp [hs]
  | @andThen sep p q mode c d e nodes more _ h2 ih1 ih2 =>
    unfold Pattern.reads at hp
    obtain ⟨hp, hq⟩ := Bool.and_eq_true_iff.1 hp
    obtain ⟨hnodes, hk⟩ := ih1 hm n hp
    obtain ⟨hmore, hl⟩ := ih2 hm n hq
    rw [gap_of_not_free sep mode d hm] at hl
    exact ⟨fun hs => by rw [hnodes hs, hmore hs]; rfl, join hk hl⟩
  | first _ ih =>
    unfold Pattern.reads at hp
    exact ih hm n (Bool.and_eq_true_iff.1 hp).1
  | second _ ih =>
    unfold Pattern.reads at hp
    exact ih hm n (Bool.and_eq_true_iff.1 hp).2
  | none => exact ⟨fun _ => rfl, stay _⟩
  | once _ ih => exact ih hm n hp
  | @again sep p mode c d e nodes more _ h2 ih1 ih2 =>
    obtain ⟨hnodes, hk⟩ := ih1 hm n hp
    obtain ⟨hmore, hl⟩ := ih2 hm n hp
    rw [gap_of_not_free sep mode d hm] at hl
    exact ⟨fun hs => by rw [hnodes hs, hmore hs]; rfl, join hk hl⟩
  | without => exact ⟨fun _ => rfl, stay _⟩
  | «with» _ ih => exact ih hm n hp
  | notHere => exact ⟨fun _ => rfl, stay _⟩
  | textStart => exact ⟨fun _ => rfl, stay _⟩
  | textEnd => exact ⟨fun _ => rfl, stay _⟩

end ServiceLang.Peg
