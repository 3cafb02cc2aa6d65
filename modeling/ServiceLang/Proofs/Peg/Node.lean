import ServiceLang.Proofs.Peg.Token

/-!
Nodes and where they start.

A node that spaced rules leave was left by a derivation of its rule that starts where
the node does (`IsLeft`), and so were the nodes inside it, if its rule is spaced
(`IsLeft.child`).  What a rule begins with is found in its definition
(`Derives.begins`), so the text at the start of a node begins with the first token of
its rule.
-/

namespace ServiceLang.Peg

variable {R : Type} {g : Grammar R}

def ParseTree.start : ParseTree R → Cursor
  | .node _ c _ _ => c

theorem ParseTree.offset_eq (t : ParseTree R) : t.offset = t.start.offset := by
  cases t
  rfl

/-- The text of a node is what lies between its ends. -/
theorem ParseTree.text_of_passes {r : R} {c d : Cursor} {k : List Char} {cs : List (ParseTree R)}
    (h : c.Passes k d) : (ParseTree.node r c d.offset cs).text = k := by
  show takeBytes (d.offset - c.offset) c.rest = k
  rw [h.1, h.2, Nat.add_sub_cancel_left, takeBytes_append]

namespace ParseTree

def behind : ParseTree R → List Char
  | .node _ c stop _ => dropBytes (stop - c.offset) c.rest

theorem behind_of_passes {r : R} {c d : Cursor} {k : List Char} {l : List (ParseTree R)}
    (h : c.Passes k d) : (ParseTree.node r c d.offset l).behind = d.rest := by
  show dropBytes (d.offset - c.offset) c.rest = d.rest
  rw [h.1, h.2, Nat.add_sub_cancel_left, dropBytes_append]

mutual

/-- All nodes of a tree, its own first. -/
def nodes : ParseTree R → List (ParseTree R)
  | .node rule start stop children => .node rule start stop children :: nodesAll children

def nodesAll : List (ParseTree R) → List (ParseTree R)
  | [] => []
  | t :: ts => t.nodes ++ nodesAll ts

end

theorem mem_nodes_self (t : ParseTree R) : t ∈ t.nodes := by
  cases t
  exact List.mem_cons_self

theorem mem_nodesAll_iff (ts : List (ParseTree R)) (u : ParseTree R) :
    u ∈ nodesAll ts ↔ ∃ t ∈ ts, u ∈ t.nodes := by
  induction ts with
  | nil => simp [nodesAll]
  | cons t ts ih => simp [nodesAll, ih]

theorem of_firstOf? [DecidableEq R] {t u : ParseTree R} {r : R} (h : t.firstOf? r = some u) :
    u ∈ t.children ∧ u.rule = r := by
  have hr := List.find?_some (p := fun v : ParseTree R => decide (v.rule = r)) h
  exact ⟨List.mem_of_find?_eq_some h, of_decide_eq_true hr⟩

theorem exists_firstOf? [DecidableEq R] {t u : ParseTree R} (hu : u ∈ t.children) :
    ∃ v, t.firstOf? u.rule = some v :=
  Option.isSome_iff_exists.1 (List.find?_isSome.2 ⟨u, hu, decide_eq_true rfl⟩)

theorem nodes_child {t u v : ParseTree R} (hu : u ∈ t.children) (hv : v ∈ u.nodes) : v ∈ t.nodes := by
  cases t
  exact List.mem_cons_of_mem _ ((mem_nodesAll_iff _ v).2 ⟨u, hu, hv⟩)

end ParseTree

/-- The node was left by a derivation of its rule where trivia may stand. -/
def IsLeft (g : Grammar R) (t : ParseTree R) : Prop :=
  ∃ f, t = .node t.rule t.start f.offset t.children ∧
    Derives g (g.definition t.rule).kind.separates (g.definition t.rule).pattern
      ⟨.none, (g.definition t.rule).kind.inner .free⟩ t.start t.children f

/-- What is left among spaced rules was left by a derivation, behind the start. -/
theorem Derives.isLeft {sep : Bool} {p : Pattern R} {c d : Cursor} {nodes : List (ParseTree R)}
    (h : Derives g sep p ⟨.none, .free⟩ c nodes d) {t : ParseTree R} (ht : t ∈ nodes) :
    IsLeft g t ∧ c.Reaches t.start := by
  generalize hm : (⟨.none, .free⟩ : Mode) = mode at h
  induction h with
  | @rule sep r mode c d nodes h ih =>
    subst hm
    by_cases hk : (g.definition r).kind = .silent
    · rw [keepNodes, if_pos hk] at ht
      exact ih ht (by rw [hk]; rfl)
    · rw [keepNodes_free _ _ _ _ _ hk] at ht
      rw [List.mem_singleton.1 ht]
      exact ⟨⟨d, rfl, h⟩, .refl c⟩
  | @andThen sep p q mode c d e nodes more h1 h2 ih1 ih2 =>
    rcases List.mem_append.1 ht with ht | ht
    · exact ih1 ht hm
    · obtain ⟨hleft, hreach⟩ := ih2 ht hm
      exact ⟨hleft, (h1.reaches.trans (reaches_gap _ _ _)).trans hreach⟩
  | first _ ih => exact ih ht hm
  | second _ ih => exact ih ht hm
  | once _ ih => exact ih ht hm
  | @again sep p mode c d e nodes more h1 h2 ih1 ih2 =>
    rcases List.mem_append.1 ht with ht | ht
    · exact ih1 ht hm
    · obtain ⟨hleft, hreach⟩ := ih2 ht hm
      exact ⟨hleft, (h1.reaches.trans (reaches_gap _ _ _)).trans hreach⟩
  | «with» _ ih => exact ih ht hm
  | _ => cases ht

namespace IsLeft

variable {t u : ParseTree R}

/-- The nodes inside a node are left behind its start. -/
theorem child (h : IsLeft g t) (hk : (g.definition t.rule).kind = .spaced) (hu : u ∈ t.children) :
    IsLeft g u ∧ t.start.Reaches u.start := by
  obtain ⟨f, -, h⟩ := h
  rw [hk] at h
  exact h.isLeft hu

/-- The nodes of a rule inside a node are left behind its start. -/
theorem of_mem_childrenOf [DecidableEq R] {r : R} (h : IsLeft g t)
    (hk : (g.definition t.rule).kind = .spaced) (hu : u ∈ t.childrenOf r) :
    IsLeft g u ∧ t.start.Reaches u.start ∧ u.rule = r := by
  obtain ⟨hmem, hr⟩ := List.mem_filter.1 hu
  obtain ⟨hleft, hreach⟩ := h.child hk hmem
  exact ⟨hleft, hreach, of_decide_eq_true hr⟩

/-- The pattern of a spaced rule derives what is inside its node. -/
theorem spaced (h : IsLeft g t) (hk : (g.definition t.rule).kind = .spaced) :
    ∃ f, Derives g true (g.definition t.rule).pattern ⟨.none, .free⟩ t.start t.children f := by
  obtain ⟨f, -, h⟩ := h
  rw [hk] at h
  exact ⟨f, h⟩

/-- The text of a node is what its derivation goes over. -/
theorem exists_passes (h : IsLeft g t) : ∃ f, t.start.Passes t.text f ∧
    Derives g (g.definition t.rule).kind.separates (g.definition t.rule).pattern
      ⟨.none, (g.definition t.rule).kind.inner .free⟩ t.start t.children f := by
  obtain ⟨f, ht, h⟩ := h
  obtain ⟨k, hk⟩ := h.reaches
  have htext : t.text = k := by
    rw [ht]
    exact ParseTree.text_of_passes hk
  exact ⟨f, htext ▸ hk, h⟩

theorem text_prefix (h : IsLeft g t) : t.text <+: t.start.rest := by
  obtain ⟨f, hf, -⟩ := h.exists_passes
  exact ⟨f.rest, hf.1.symm⟩

/-- A node whose rule reads a character has a text. -/
theorem text_ne_nil (h : IsLeft g t) (n : Nat) (ha : g.avoids [] n t.rule) : t.text ≠ [] := by
  intro hnil
  obtain ⟨f, hf, hd⟩ := h.exists_passes
  rw [hnil] at hf
  cases n with
  | zero => cases ha
  | succ n =>
    obtain ⟨-, -, -, -, hlt⟩ := hd.exists_first [] n ha
    rw [hf.eq_of_nil] at hlt
    exact Nat.lt_irrefl _ hlt

/-- The text of a token has the characters of its definition. -/
theorem forall_text (h : IsLeft g t) (classes : CharClass → Bool) (ok : Char → Bool)
    (hok : ∀ cls x, classes cls → cls.contains x → ok x) (n : Nat)
    (hr : g.reads classes ok n t.rule) : ∀ x ∈ t.text, ok x := by
  obtain ⟨f, hf, hd⟩ := h.exists_passes
  cases n with
  | zero => cases hr
  | succ n =>
    obtain ⟨hk, hp⟩ := Bool.and_eq_true_iff.1 hr
    rw [of_decide_eq_true hk] at hd
    obtain ⟨-, k, hpass, hall⟩ := hd.reads classes ok hok (by decide) n hp
    rw [List.append_cancel_right (hf.1.symm.trans hpass.1)]
    exact hall

end IsLeft

/-! ## First tokens -/

/-- Whatever the pattern derives begins with this text; `call` says it of rules. -/
def Pattern.begins (call : R → Bool) (w : List Char) : Pattern R → Bool
  | literal text => text.toList = w
  | rule r => call r
  | andThen p _ => p.begins call w
  | orElse p q => p.begins call w && q.begins call w
  | _ => false

/-- The same for a rule, as far as rules inside each other are unfolded so often. -/
def Grammar.begins (g : Grammar R) (w : List Char) : Nat → R → Bool
  | 0, _ => false
  | n + 1, r => (g.definition r).pattern.begins (g.begins w n) w

theorem Derives.begins {sep : Bool} {p : Pattern R} {mode : Mode} {c d : Cursor}
    {nodes : List (ParseTree R)} (h : Derives g sep p mode c nodes d) (w : List Char) (n : Nat)
    (hb : p.begins (g.begins w n) w) : w <+: c.rest := by
  induction h generalizing n with
  | @literal sep text mode c d h =>
    obtain ⟨hr, -⟩ := Cursor.passes_of_strip? h
    have hw : text.toList = w := of_decide_eq_true hb
    exact ⟨d.rest, by rw [hr, hw]⟩
  | rule _ ih =>
    cases n with
    | zero => cases hb
    | succ n => exact ih n hb
  | andThen _ _ ih _ => exact ih n hb
  | first _ ih => exact ih n (Bool.and_eq_true_iff.1 hb).1
  | second _ ih => exact ih n (Bool.and_eq_true_iff.1 hb).2
  | _ => cases hb

theorem IsLeft.begins {t : ParseTree R} (h : IsLeft g t) (w : List Char) (n : Nat)
    (hb : g.begins w n t.rule) : w <+: t.start.rest := by
  obtain ⟨f, -, h⟩ := h
  cases n with
  | zero => cases hb
  | succ n => exact h.begins w n hb

/-- The rule that a sequence begins with. -/
def Pattern.firstRule? : Pattern R → Option R
  | rule r => .some r
  | andThen p _ => p.firstRule?
  | _ => .none

/-- A rule at the start of a sequence leaves the first node there. -/
theorem Derives.exists_first_node {sep : Bool} {p : Pattern R} {r : R} {c d : Cursor}
    {nodes : List (ParseTree R)} (h : Derives g sep p ⟨.none, .free⟩ c nodes d)
    (hp : p.firstRule? = some r) (hk : (g.definition r).kind ≠ .silent) :
    ∃ t more, nodes = t :: more ∧ t.rule = r ∧ t.start = c := by
  generalize hm : (⟨.none, .free⟩ : Mode) = mode at h
  induction h with
  | @rule sep r' mode c d nodes h _ =>
    subst hm
    obtain rfl := Option.some.inj hp
    rw [keepNodes_free _ _ _ _ _ hk]
    exact ⟨_, [], rfl, rfl, rfl⟩
  | andThen _ _ ih _ =>
    obtain ⟨t, more, rfl, hr, ht⟩ := ih hp hm
    exact ⟨t, _, rfl, hr, ht⟩
  | _ => cases hp

/-- The node of a rule that begins with another has that rule's node first. -/
theorem IsLeft.exists_first {t : ParseTree R} {r : R} (h : IsLeft g t)
    (hk : (g.definition t.rule).kind = .spaced)
    (hp : (g.definition t.rule).pattern.firstRule? = some r)
    (hr : (g.definition r).kind ≠ .silent) :
    ∃ u more, t.children = u :: more ∧ u.rule = r ∧ u.start = t.start := by
  obtain ⟨f, hd⟩ := h.spaced hk
  exact hd.exists_first_node hp hr

end ServiceLang.Peg
