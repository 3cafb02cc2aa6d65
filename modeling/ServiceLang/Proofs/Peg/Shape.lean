import ServiceLang.Proofs.Peg.Node

/-!
Which nodes a pattern leaves.

`Pattern.Leaves` reads off a pattern the lists of rules whose nodes it can leave, and
`IsLeft.leaves` says that the nodes inside a node are such a list.  Two questions about these
lists are computed: whether all rules in them are of some kind (`Pattern.leavesOnly`), and
whether one of them is (`Pattern.leavesSome`).  A pattern of literals reads one of finitely
many texts (`Pattern.texts?`), so the text of an operator is one of those in its definition.
-/

namespace ServiceLang.Peg

variable {R : Type} {g : Grammar R}

/-! ## Lists of rules -/

/-- The pattern can leave nodes of these rules; `call` says it of a rule. -/
def Pattern.Leaves (call : R → List R → Prop) : Pattern R → List R → Prop
  | rule r, rs => call r rs
  | andThen p q, rs => ∃ before behind, rs = before ++ behind ∧ p.Leaves call before ∧
      q.Leaves call behind
  | orElse p q, rs => p.Leaves call rs ∨ q.Leaves call rs
  | many p, rs => ∃ rounds : List (List R), rs = rounds.flatten ∧ ∀ round ∈ rounds, p.Leaves call round
  | optional p, rs => rs = [] ∨ p.Leaves call rs
  | _, rs => rs = []

/-- A rule leaves one node of its own, or if it is silent, what its pattern leaves, as far as
silent rules inside each other are unfolded so often. -/
def Grammar.Leaves (g : Grammar R) : Nat → R → List R → Prop
  | 0, r, rs => (g.definition r).kind ≠ .silent → rs = [r]
  | n + 1, r, rs =>
    ((g.definition r).kind ≠ .silent → rs = [r]) ∧
      ((g.definition r).kind = .silent → (g.definition r).pattern.Leaves (g.Leaves n) rs)

/-- Nodes are left in this mode. -/
def Mode.Keeps (mode : Mode) : Prop := mode.look = .none ∧ mode.spacing ≠ .sealed

theorem Mode.Keeps.nodesOf_eq {mode : Mode} (hm : mode.Keeps) {kind : Kind} (hk : kind ≠ .silent)
    (r : R) (start : Cursor) (stop : Nat) (inner : List (ParseTree R)) :
    keepNodes kind r mode start stop inner = [.node r start stop inner] := by
  obtain ⟨hlook, hspacing⟩ := hm
  have houter : kind.outer mode.spacing ≠ .sealed := by
    cases kind <;> first | exact hspacing | nofun
  unfold keepNodes nodesOf
  rw [if_neg hk, if_pos (by simp [hlook, houter])]

theorem Derives.leaves {sep : Bool} {p : Pattern R} {mode : Mode} {c d : Cursor}
    {nodes : List (ParseTree R)} (h : Derives g sep p mode c nodes d) (hm : mode.Keeps) (n : Nat) :
    p.Leaves (g.Leaves n) (nodes.map ParseTree.rule) := by
  induction h generalizing n with
  | @rule sep r mode c d nodes _ ih =>
    have loud (hk : (g.definition r).kind ≠ .silent) :
        (keepNodes (g.definition r).kind r mode c d.offset nodes).map ParseTree.rule = [r] := by
      rw [hm.nodesOf_eq hk]
      rfl
    cases n with
    | zero => exact loud
    | succ n =>
      refine ⟨loud, fun hk => ?_⟩
      rw [hk] at ih
      rw [hk, keepNodes, if_pos rfl]
      exact ih hm n
  | andThen _ _ ih1 ih2 => exact ⟨_, _, List.map_append, ih1 hm n, ih2 hm n⟩
  | first _ ih => exact .inl (ih hm n)
  | second _ ih => exact .inr (ih hm n)
  | none => exact ⟨[], rfl, fun _ hr => absurd hr List.not_mem_nil⟩
  | @once sep p mode c d nodes _ ih =>
    refine ⟨[nodes.map ParseTree.rule], by simp, fun round hr => ?_⟩
    rw [List.mem_singleton.1 hr]
    exact ih hm n
  | @again sep p mode c d e nodes more _ _ ih1 ih2 =>
    obtain ⟨rounds, hrounds, hall⟩ := ih1 hm n
    refine ⟨rounds ++ [more.map ParseTree.rule], by simp [hrounds], fun round hr => ?_⟩
    rcases List.mem_append.1 hr with hr | hr
    · exact hall round hr
    · rw [List.mem_singleton.1 hr]
      exact ih2 hm n
  | without => exact .inl rfl
  | «with» _ ih => exact .inr (ih hm n)
  | _ => rfl

/-- The nodes inside a node are what the pattern of its rule leaves. -/
theorem IsLeft.leaves {t : ParseTree R} (h : IsLeft g t) (hk : (g.definition t.rule).kind ≠ .token)
    (n : Nat) : (g.definition t.rule).pattern.Leaves (g.Leaves n) (t.children.map ParseTree.rule) := by
  obtain ⟨f, -, hd⟩ := h
  refine hd.leaves ⟨rfl, ?_⟩ n
  cases hkind : (g.definition t.rule).kind with
  | token => exact absurd hkind hk
  | _ => nofun

/-! ## Computed answers -/

/-- Whatever nodes the pattern leaves are of these rules. -/
def Pattern.leavesOnly (call : R → Bool) : Pattern R → Bool
  | rule r => call r
  | andThen p q | orElse p q => p.leavesOnly call && q.leavesOnly call
  | many p | optional p => p.leavesOnly call
  | _ => true

/-- The same for a rule, with silent rules unfolded. -/
def Grammar.leavesOnly (g : Grammar R) (ok : R → Bool) : Nat → R → Bool
  | 0, r => decide ((g.definition r).kind ≠ .silent) && ok r
  | n + 1, r =>
    if (g.definition r).kind = .silent then (g.definition r).pattern.leavesOnly (g.leavesOnly ok n)
    else ok r

/-- Whatever nodes the pattern leaves, one of them is of these rules. -/
def Pattern.leavesSome (call : R → Bool) : Pattern R → Bool
  | rule r => call r
  | andThen p q => p.leavesSome call || q.leavesSome call
  | orElse p q => p.leavesSome call && q.leavesSome call
  | _ => false

/-- The same for a rule, with silent rules unfolded. -/
def Grammar.leavesSome (g : Grammar R) (ok : R → Bool) : Nat → R → Bool
  | 0, r => decide ((g.definition r).kind ≠ .silent) && ok r
  | n + 1, r =>
    if (g.definition r).kind = .silent then (g.definition r).pattern.leavesSome (g.leavesSome ok n)
    else ok r

section

variable {call : R → List R → Prop} {f : R → Bool}

theorem Pattern.Leaves.forall_mem {p : Pattern R} {rs : List R} {ok : R → Bool} (h : p.Leaves call rs)
    (hcall : ∀ r rs, call r rs → f r → ∀ x ∈ rs, ok x) (hp : p.leavesOnly f) : ∀ x ∈ rs, ok x := by
  induction p generalizing rs with
  | rule r => exact hcall r rs h hp
  | andThen p q ihp ihq =>
    obtain ⟨before, behind, rfl, h1, h2⟩ := h
    obtain ⟨hp, hq⟩ := Bool.and_eq_true_iff.1 hp
    intro x hx
    rcases List.mem_append.1 hx with hx | hx
    · exact ihp h1 hp x hx
    · exact ihq h2 hq x hx
  | orElse p q ihp ihq =>
    obtain ⟨hp, hq⟩ := Bool.and_eq_true_iff.1 hp
    rcases h with h | h
    · exact ihp h hp
    · exact ihq h hq
  | many p ih =>
    obtain ⟨rounds, rfl, h⟩ := h
    intro x hx
    obtain ⟨round, hround, hx⟩ := List.mem_flatten.1 hx
    exact ih (h round hround) hp x hx
  | optional p ih =>
    rcases h with rfl | h
    · nofun
    · exact ih h hp
  | _ =>
    cases h
    nofun

theorem Pattern.Leaves.exists_mem {p : Pattern R} {rs : List R} {ok : R → Bool} (h : p.Leaves call rs)
    (hcall : ∀ r rs, call r rs → f r → ∃ x ∈ rs, ok x) (hp : p.leavesSome f) : ∃ x ∈ rs, ok x := by
  induction p generalizing rs with
  | rule r => exact hcall r rs h hp
  | andThen p q ihp ihq =>
    obtain ⟨before, behind, rfl, h1, h2⟩ := h
    rcases Bool.or_eq_true_iff.1 hp with hp | hq
    · obtain ⟨x, hx, hok⟩ := ihp h1 hp
      exact ⟨x, List.mem_append_left _ hx, hok⟩
    · obtain ⟨x, hx, hok⟩ := ihq h2 hq
      exact ⟨x, List.mem_append_right _ hx, hok⟩
  | orElse p q ihp ihq =>
    obtain ⟨hp, hq⟩ := Bool.and_eq_true_iff.1 hp
    rcases h with h | h
    · exact ihp h hp
    · exact ihq h hq
  | _ => cases hp

end

theorem Grammar.Leaves.forall_mem {ok : R → Bool} {n : Nat} {r : R} {rs : List R}
    (h : g.Leaves n r rs) (hr : g.leavesOnly ok n r) : ∀ x ∈ rs, ok x := by
  induction n generalizing r rs with
  | zero =>
    obtain ⟨hk, hok⟩ := Bool.and_eq_true_iff.1 hr
    rw [h (of_decide_eq_true hk)]
    exact fun x hx => List.mem_singleton.1 hx ▸ hok
  | succ n ih =>
    unfold Grammar.leavesOnly at hr
    split at hr
    · next hk => exact (h.2 hk).forall_mem (fun r rs => ih) hr
    · next hk =>
      rw [h.1 hk]
      exact fun x hx => List.mem_singleton.1 hx ▸ hr

theorem Grammar.Leaves.exists_mem {ok : R → Bool} {n : Nat} {r : R} {rs : List R}
    (h : g.Leaves n r rs) (hr : g.leavesSome ok n r) : ∃ x ∈ rs, ok x := by
  induction n generalizing r rs with
  | zero =>
    obtain ⟨hk, hok⟩ := Bool.and_eq_true_iff.1 hr
    rw [h (of_decide_eq_true hk)]
    exact ⟨r, List.mem_singleton_self r, hok⟩
  | succ n ih =>
    unfold Grammar.leavesSome at hr
    split at hr
    · next hk => exact (h.2 hk).exists_mem (fun r rs => ih) hr
    · next hk =>
      rw [h.1 hk]
      exact ⟨r, List.mem_singleton_self r, hr⟩

theorem Pattern.Leaves.forall_rule {p : Pattern R} {nodes : List (ParseTree R)} {ok : R → Bool} {n : Nat}
    (h : p.Leaves (g.Leaves n) (nodes.map ParseTree.rule)) (hp : p.leavesOnly (g.leavesOnly ok n)) :
    ∀ t ∈ nodes, ok t.rule := by
  have hall : ∀ r ∈ nodes.map ParseTree.rule, ok r :=
    h.forall_mem (fun _ _ h hr => h.forall_mem hr) hp
  exact fun t ht => hall t.rule (List.mem_map_of_mem ht)

/-- The nodes of a rule, from a part that leaves only such. -/
theorem Derives.filter_rule [DecidableEq R] {sep : Bool} {p : Pattern R} {mode : Mode} {c d : Cursor}
    {nodes : List (ParseTree R)} (h : Derives g sep p mode c nodes d) (hm : mode.Keeps) {r : R} (n : Nat)
    (hp : p.leavesOnly (g.leavesOnly (· = r) n)) : nodes.filter (·.rule = r) = nodes :=
  List.filter_eq_self.2 ((h.leaves hm n).forall_rule hp)

/-- The nodes of a rule, from a part that leaves none of them. -/
theorem Derives.filter_other [DecidableEq R] {sep : Bool} {p : Pattern R} {mode : Mode} {c d : Cursor}
    {nodes : List (ParseTree R)} (h : Derives g sep p mode c nodes d) (hm : mode.Keeps) {r : R} (n : Nat)
    (hp : p.leavesOnly (g.leavesOnly (· ≠ r) n)) : nodes.filter (·.rule = r) = [] :=
  List.filter_eq_nil_iff.2 fun t ht => by simpa using (h.leaves hm n).forall_rule hp t ht

namespace IsLeft

variable {t : ParseTree R}

/-- All nodes inside a node are of the rules that its pattern leaves. -/
theorem forall_children (h : IsLeft g t) (hk : (g.definition t.rule).kind ≠ .token) (ok : R → Bool)
    (n : Nat) (hp : (g.definition t.rule).pattern.leavesOnly (g.leavesOnly ok n)) :
    ∀ u ∈ t.children, ok u.rule :=
  (h.leaves hk n).forall_rule hp

/-- Inside a node there is a node of a rule that its pattern always leaves. -/
theorem exists_child (h : IsLeft g t) (hk : (g.definition t.rule).kind ≠ .token) (ok : R → Bool)
    (n : Nat) (hp : (g.definition t.rule).pattern.leavesSome (g.leavesSome ok n)) :
    ∃ u ∈ t.children, ok u.rule := by
  obtain ⟨r, hr, hok⟩ : ∃ r ∈ t.children.map ParseTree.rule, ok r :=
    (h.leaves hk n).exists_mem (fun _ _ h hr => h.exists_mem hr) hp
  obtain ⟨u, hu, rfl⟩ := List.mem_map.1 hr
  exact ⟨u, hu, hok⟩

end IsLeft

/-! ## Finitely many texts -/

/-- The texts that the pattern can read, if they are listed in it. -/
def Pattern.texts? : Pattern R → Option (List (List Char))
  | literal text => Option.some [text.toList]
  | notHere _ => Option.some [[]]
  | andThen p q => do
    let ps ← p.texts?
    let qs ← q.texts?
    return ps.flatMap fun x => qs.map (x ++ ·)
  | orElse p q => do return (← p.texts?) ++ (← q.texts?)
  | _ => Option.none

theorem Derives.exists_mem_texts {sep : Bool} {p : Pattern R} {mode : Mode} {c d : Cursor}
    {nodes : List (ParseTree R)} (h : Derives g sep p mode c nodes d) (hm : mode.spacing ≠ .free)
    {ws : List (List Char)} (hp : p.texts? = some ws) : ∃ w ∈ ws, c.Passes w d := by
  induction h generalizing ws with
  | @literal sep text mode c d h =>
    obtain rfl := Option.some.inj hp
    exact ⟨text.toList, List.mem_singleton_self _, Cursor.passes_of_strip? h⟩
  | @andThen sep p q mode c d e nodes more _ _ ih1 ih2 =>
    obtain ⟨ps, hps, hp⟩ := Option.bind_eq_some_iff.1 hp
    obtain ⟨qs, hqs, hp⟩ := Option.bind_eq_some_iff.1 hp
    obtain rfl := Option.some.inj hp
    obtain ⟨v, hv, hpass⟩ := ih1 hm hps
    obtain ⟨w, hw, hpass2⟩ := ih2 hm hqs
    rw [gap_of_not_free sep mode d hm] at hpass2
    exact ⟨v ++ w, List.mem_flatMap.2 ⟨v, hv, List.mem_map_of_mem hw⟩, hpass.append hpass2⟩
  | first _ ih =>
    obtain ⟨ps, hps, hp⟩ := Option.bind_eq_some_iff.1 hp
    obtain ⟨qs, -, hp⟩ := Option.bind_eq_some_iff.1 hp
    obtain rfl := Option.some.inj hp
    obtain ⟨w, hw, hpass⟩ := ih hm hps
    exact ⟨w, List.mem_append_left _ hw, hpass⟩
  | second _ ih =>
    obtain ⟨ps, -, hp⟩ := Option.bind_eq_some_iff.1 hp
    obtain ⟨qs, hqs, hp⟩ := Option.bind_eq_some_iff.1 hp
    obtain rfl := Option.some.inj hp
    obtain ⟨w, hw, hpass⟩ := ih hm hqs
    exact ⟨w, List.mem_append_right _ hw, hpass⟩
  | @notHere sep p mode c _ =>
    obtain rfl := Option.some.inj hp
    exact ⟨[], List.mem_singleton_self _, .nil c⟩
  | _ => cases hp

/-- The text of a token is one of those that its definition lists. -/
theorem IsLeft.text_mem {t : ParseTree R} (h : IsLeft g t) (hk : (g.definition t.rule).kind = .token)
    {ws : List (List Char)} (hp : (g.definition t.rule).pattern.texts? = some ws) : t.text ∈ ws := by
  obtain ⟨f, hpass, hd⟩ := h.exists_passes
  rw [hk] at hd
  obtain ⟨w, hw, hpass2⟩ := hd.exists_mem_texts nofun hp
  rwa [List.append_cancel_right (hpass.1.symm.trans hpass2.1)]

end ServiceLang.Peg
