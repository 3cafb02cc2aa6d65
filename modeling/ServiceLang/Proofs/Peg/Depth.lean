import ServiceLang.Proofs.Peg.Shape

/-!
Nodes at all depths of a tree.

Every node of a parse tree was left by a derivation of its rule (`isDerived_of_parse`),
in whichever mode.  So if the rules of some kind are defined by rules of that kind only,
there are no others below a node of one of them (`IsDerived.forall_nodes`).
-/

namespace ServiceLang.Peg

variable {R : Type} {g : Grammar R}

/-- The node was left by a derivation of its rule, wherever it stands. -/
def IsDerived (g : Grammar R) (t : ParseTree R) : Prop :=
  ∃ (mode : Mode) (e f : Cursor), t = .node t.rule e f.offset t.children ∧
    Derives g (g.definition t.rule).kind.separates (g.definition t.rule).pattern
      { mode with spacing := (g.definition t.rule).kind.inner mode.spacing } e t.children f

theorem IsLeft.isDerived {t : ParseTree R} (h : IsLeft g t) : IsDerived g t := by
  obtain ⟨f, heq, hderives⟩ := h
  exact ⟨⟨.none, .free⟩, t.start, f, heq, hderives⟩

namespace IsDerived

variable {t u : ParseTree R}

theorem of_derives {sep : Bool} {p : Pattern R} {mode : Mode} {c d : Cursor} {nodes : List (ParseTree R)}
    (h : Derives g sep p mode c nodes d) (ht : t ∈ nodes) : IsDerived g t := by
  obtain ⟨m, e, f, heq, hderives, -, -⟩ := h.exists_of_mem ht
  exact ⟨m, e, f, heq, hderives⟩

theorem child (h : IsDerived g t) (hu : u ∈ t.children) : IsDerived g u := by
  obtain ⟨mode, e, f, -, hderives⟩ := h
  exact of_derives hderives hu

mutual

theorem of_mem_nodes : (t : ParseTree R) → IsDerived g t → ∀ u ∈ t.nodes, IsDerived g u
  | .node rule start stop children, h, u, hu => by
    rcases List.mem_cons.1 hu with rfl | hu
    · exact h
    · exact of_mem_nodesAll children (fun v hv => h.child hv) u hu

theorem of_mem_nodesAll : (ts : List (ParseTree R)) → (∀ t ∈ ts, IsDerived g t) →
    ∀ u ∈ ParseTree.nodesAll ts, IsDerived g u
  | [], _, u, hu => by cases hu
  | t :: ts, h, u, hu => by
    rcases List.mem_append.1 hu with hu | hu
    · exact of_mem_nodes t (h t List.mem_cons_self) u hu
    · exact of_mem_nodesAll ts (fun v hv => h v (List.mem_cons_of_mem t hv)) u hu

end

end IsDerived

theorem isDerived_of_parse [DecidableEq R] {r : R} {text : List Char} {trees : List (ParseTree R)}
    (h : g.parse r text = .ok trees) : ∀ u ∈ ParseTree.nodesAll trees, IsDerived g u := by
  obtain ⟨d, hderives⟩ := derives_of_parse _ _ _ h
  exact IsDerived.of_mem_nodesAll trees fun t ht => .of_derives hderives ht

/-! ## Closed kinds of rules -/

/-- What is derived from rules of a closed kind are nodes of that kind. -/
theorem Derives.forall_rule_of_closed {ok : R → Bool}
    (hok : ∀ r, ok r → (g.definition r).pattern.leavesOnly ok) {sep : Bool} {p : Pattern R}
    {mode : Mode} {c d : Cursor} {nodes : List (ParseTree R)} (h : Derives g sep p mode c nodes d)
    (hp : p.leavesOnly ok) : ∀ t ∈ nodes, ok t.rule := by
  induction h with
  | @rule sep r mode c d nodes _ ih =>
    intro t ht
    unfold keepNodes nodesOf at ht
    split at ht
    · exact ih (hok r hp) t ht
    split at ht
    · rw [List.mem_singleton.1 ht]
      exact hp
    · exact ih (hok r hp) t ht
  | andThen _ _ ih ih2 =>
    obtain ⟨hp, hq⟩ := Bool.and_eq_true_iff.1 hp
    exact List.forall_mem_append.2 ⟨ih hp, ih2 hq⟩
  | first _ ih => exact ih (Bool.and_eq_true_iff.1 hp).1
  | second _ ih => exact ih (Bool.and_eq_true_iff.1 hp).2
  | again _ _ ih ih2 => exact List.forall_mem_append.2 ⟨ih hp, ih2 hp⟩
  | once _ ih | «with» _ ih => exact ih hp
  | literal | oneOf | none | without | notHere | textStart | textEnd => exact fun t ht => by cases ht

mutual

/-- Below a node of a closed kind all nodes are of that kind. -/
theorem IsDerived.forall_nodes {ok : R → Bool}
    (hok : ∀ r, ok r → (g.definition r).pattern.leavesOnly ok) : (t : ParseTree R) → IsDerived g t →
    ok t.rule → ∀ u ∈ t.nodes, ok u.rule
  | .node rule start stop children, h, ht, u, hu => by
    rcases List.mem_cons.1 hu with rfl | hu
    · exact ht
    · obtain ⟨mode, e, f, -, hderives⟩ := id h
      exact forall_nodesAll hok children (fun v hv => h.child hv)
        (hderives.forall_rule_of_closed hok (hok _ ht)) u hu

theorem IsDerived.forall_nodesAll {ok : R → Bool}
    (hok : ∀ r, ok r → (g.definition r).pattern.leavesOnly ok) : (ts : List (ParseTree R)) →
    (∀ t ∈ ts, IsDerived g t) → (∀ t ∈ ts, ok t.rule) → ∀ u ∈ ParseTree.nodesAll ts, ok u.rule
  | [], _, _, u, hu => by cases hu
  | t :: ts, h, ht, u, hu => by
    rcases List.mem_append.1 hu with hu | hu
    · exact forall_nodes hok t (h t List.mem_cons_self) (ht t List.mem_cons_self) u hu
    · exact forall_nodesAll hok ts (fun v hv => h v (List.mem_cons_of_mem t hv))
        (fun v hv => ht v (List.mem_cons_of_mem t hv)) u hu

end

end ServiceLang.Peg
