import ServiceLang.Grammar.Endpoint
import ServiceLang.Proofs.Grammar.Lexeme
import ServiceLang.Proofs.Peg.Depth

/-!
How the steps of endpoint logic are written.

A step is unspaced: behind its action at most a target, arguments and options follow, in this
order and with spaces and tabs between them (`exists_onLine`).  Trivia may stand only inside
the parentheses and braces and between steps, which follow one another (`pairwise_of_steps`).
-/

namespace ServiceLang

open Peg

namespace Peg

variable {R : Type} {g : Grammar R}

def isInlineSpace (x : Char) : Bool := x = ' ' || x = '\t'

/-- From `c` to `d` there is nothing but the text of the nodes, with spaces and tabs in front
of each. -/
inductive OnLine : Cursor → List (ParseTree R) → Cursor → Prop
  | nil (c : Cursor) : OnLine c [] c
  | cons {c d e : Cursor} {spaces : List Char} {t : ParseTree R} {ts : List (ParseTree R)} :
      c.Passes spaces t.start → (∀ x ∈ spaces, isInlineSpace x) → t.start.Passes t.text d →
      OnLine d ts e → OnLine c (t :: ts) e

theorem OnLine.append {c d e : Cursor} {ts us : List (ParseTree R)} (h : OnLine c ts d)
    (h2 : OnLine d us e) : OnLine c (ts ++ us) e := by
  induction h with
  | nil => exact h2
  | cons hspaces hinline htext _ ih => exact .cons hspaces hinline htext (ih h2)

/-- A node that is left without trivia around it is passed whole. -/
theorem Derives.onLine_of_rule {sep : Bool} {r : R} {c d : Cursor} {nodes : List (ParseTree R)}
    (h : Derives g sep (.rule r) ⟨.none, .tight⟩ c nodes d) (hk : (g.definition r).kind ≠ .silent) :
    ∃ t, nodes = [t] ∧ t.rule = r ∧ t.start = c ∧ c.Passes t.text d := by
  obtain ⟨inner, hd, rfl⟩ := h.of_rule
  obtain ⟨k, hk'⟩ := hd.reaches
  have hkeeps : Mode.Keeps ⟨.none, .tight⟩ := ⟨rfl, Spacing.noConfusion⟩
  rw [hkeeps.nodesOf_eq hk]
  exact ⟨_, rfl, rfl, rfl, by rw [ParseTree.text_of_passes hk']; exact hk'⟩

/-- The nodes of an optional part: one of the rule, whose text begins as that of the rule does,
or none. -/
structure IsPart (g : Grammar R) (r : R) (nodes : List (ParseTree R)) : Prop where
  rule : ∀ t ∈ nodes, t.rule = r
  length_le : nodes.length ≤ 1
  begins : ∀ w n, g.begins w n r → ∀ t ∈ nodes, w <+: t.start.rest

theorem IsPart.eq_singleton {r : R} {nodes : List (ParseTree R)} {t : ParseTree R} (h : IsPart g r nodes)
    (ht : t ∈ nodes) : nodes = [t] := by
  obtain ⟨u, rfl⟩ := List.length_eq_one_iff.1 (Nat.le_antisymm h.length_le (List.length_pos_of_mem ht))
  rw [List.mem_singleton.1 ht]

/-- A rule behind spaces and tabs, or nothing. -/
theorem Derives.onLine_of_optional {sep : Bool} {q : Pattern R} {r : R} {c d : Cursor}
    {nodes : List (ParseTree R)}
    (h : Derives g sep (.optional (.andThen q (.rule r))) ⟨.none, .tight⟩ c nodes d)
    (hk : (g.definition r).kind ≠ .silent)
    (hreads : q.reads (fun _ => false) (fun _ => false) isInlineSpace)
    (hleaves : q.leavesOnly fun _ => false) : OnLine c nodes d ∧ IsPart g r nodes := by
  cases h with
  | without => exact ⟨.nil c, nofun, Nat.zero_le 1, nofun⟩
  | «with» h =>
    obtain ⟨before, e, behind, rfl, hspaces, hrule⟩ := h.of_tight nofun
    have hbefore : before = [] := by
      have hnone : ∀ t ∈ before, false = true := hspaces.forall_rule_of_closed nofun hleaves
      exact List.eq_nil_iff_forall_not_mem.2 fun t ht => Bool.false_ne_true (hnone t ht)
    obtain ⟨-, spaces, hpass, hinline⟩ := hspaces.reads (fun _ => false) isInlineSpace nofun nofun 0 hreads
    have hbegins (w : List Char) (n : Nat) (hw : g.begins w n r) := hrule.begins w n hw
    obtain ⟨t, rfl, hr, rfl, htext⟩ := hrule.onLine_of_rule hk
    rw [hbefore, List.nil_append]
    refine ⟨.cons hpass hinline htext (.nil d), ?_, Nat.le_refl 1, fun w n hw => ?_⟩
    · exact List.forall_mem_singleton.2 hr
    · exact List.forall_mem_singleton.2 (hbegins w n hw)

section

variable [DecidableEq R] {r : R} {nodes : List (ParseTree R)}

theorem IsPart.filter_eq (h : IsPart g r nodes) : nodes.filter (·.rule = r) = nodes :=
  List.filter_eq_self.2 fun t ht => decide_eq_true (h.rule t ht)

theorem IsPart.filter_other (h : IsPart g r nodes) {r' : R} (hne : r ≠ r') :
    nodes.filter (·.rule = r') = [] :=
  List.filter_eq_nil_iff.2 fun t ht hr => hne ((h.rule t ht).symm.trans (of_decide_eq_true hr))

end

end Peg

namespace EndpointGrammar

/-! ## Steps -/

/-- A step is its action, and on the line behind that at most one target, one list of arguments
and one of options, which begin with a parenthesis and a brace. -/
structure IsStep (t : ParseTree Rule) : Prop where
  target : IsPart grammar .stepTarget (t.childrenOf .stepTarget)
  args : IsPart grammar .stepArgs (t.childrenOf .stepArgs)
  options : IsPart grammar .stepOptions (t.childrenOf .stepOptions)
  exists_action : ∃ action parts d e, t.children = action :: parts ∧
    parts = t.childrenOf .stepTarget ++ (t.childrenOf .stepArgs ++ t.childrenOf .stepOptions) ∧
    action.rule = .stepWord ∧ action.start = t.start ∧ '\n' ∉ action.text ∧
    t.start.Passes action.text d ∧ OnLine d parts e ∧ t.start.Passes t.text e

def isStepWordChar (x : Char) : Bool := isWordChar x || x = '-' || x = '.' || x = '$'

theorem isStepWordChar_of_contains (cls : CharClass) (x : Char) (h : cls ≠ .any) (hx : cls.contains x) :
    isStepWordChar x := by
  have hword := isWordChar_of_contains cls h hx
  simp [isStepWordChar, hword]

/-- The parts of a step are told apart by their rules. -/
theorem childrenOf_parts {t action : ParseTree Rule} {target args options : List (ParseTree Rule)}
    (h : t.children = action :: (target ++ (args ++ options))) (haction : action.rule = .stepWord)
    (htarget : IsPart grammar .stepTarget target) (hargs : IsPart grammar .stepArgs args)
    (hoptions : IsPart grammar .stepOptions options) : t.childrenOf .stepTarget = target ∧
      t.childrenOf .stepArgs = args ∧ t.childrenOf .stepOptions = options := by
  have hchildren (r : Rule) (hne : action.rule ≠ r) : t.childrenOf r =
      target.filter (·.rule = r) ++ (args.filter (·.rule = r) ++ options.filter (·.rule = r)) := by
    unfold ParseTree.childrenOf
    rw [h, List.filter_cons_of_neg (by simpa using hne), List.filter_append, List.filter_append]
  rw [haction] at hchildren
  refine ⟨?_, ?_, ?_⟩
  · rw [hchildren _ (by decide), htarget.filter_eq, hargs.filter_other (by decide),
      hoptions.filter_other (by decide), List.append_nil, List.append_nil]
  · rw [hchildren _ (by decide), htarget.filter_other (by decide), hargs.filter_eq,
      hoptions.filter_other (by decide), List.append_nil, List.nil_append]
  · rw [hchildren _ (by decide), htarget.filter_other (by decide), hargs.filter_other (by decide),
      hoptions.filter_eq, List.nil_append, List.nil_append]

theorem isStep_of_isLeft {t : ParseTree Rule} (h : IsLeft grammar t) (hr : t.rule = .logicStep) :
    IsStep t := by
  obtain ⟨f, hpass, hd⟩ := h.exists_passes
  rw [hr] at hd
  have htight : Spacing.tight ≠ .free := nofun
  obtain ⟨_, a, _, hnodes, hword, hd⟩ := hd.of_tight htight
  obtain ⟨target, b, _, rfl, htarget, hd⟩ := hd.of_tight htight
  obtain ⟨args, c, options, rfl, hargs, hoptions⟩ := hd.of_tight htight
  obtain ⟨hline₁, htarget⟩ := htarget.onLine_of_optional (by decide) rfl rfl
  obtain ⟨hline₂, hargs⟩ := hargs.onLine_of_optional (by decide) rfl rfl
  obtain ⟨hline₃, hoptions⟩ := hoptions.onLine_of_optional (by decide) rfl rfl
  obtain ⟨-, k, hk, hchars⟩ := hword.reads (fun cls => cls ≠ .any) isStepWordChar
    (fun cls x hcls => isStepWordChar_of_contains cls x (of_decide_eq_true hcls)) nofun 1 rfl
  obtain ⟨action, rfl, haction, hstart, htext⟩ := hword.onLine_of_rule (by decide)
  have hnewline : '\n' ∉ action.text := by
    rw [List.append_cancel_right (htext.1.symm.trans hk.1)]
    exact fun hm => by cases hchars _ hm
  have hnodes : t.children = action :: (target ++ (args ++ options)) := hnodes
  obtain ⟨htargets, hargss, hoptionss⟩ := childrenOf_parts hnodes haction htarget hargs hoptions
  refine ⟨by rwa [htargets], by rwa [hargss], by rwa [hoptionss], action, _, a, f, hnodes, ?_, haction,
    hstart, hnewline, htext, hline₁.append (hline₂.append hline₃), hpass⟩
  rw [htargets, hargss, hoptionss]

/-! ## Steps in order -/

/-- Steps leave their nodes one behind another. -/
theorem pairwise_of_steps {sep : Bool} {c d : Cursor} {nodes : List (ParseTree Rule)}
    (h : Derives grammar sep (.many (.rule .logicStep)) ⟨.none, .free⟩ c nodes d) :
    nodes.Pairwise (fun t u => t.offset + byteLength t.text ≤ u.offset) ∧
      ∀ t ∈ nodes, t.offset + byteLength t.text ≤ d.offset := by
  have single {sep : Bool} {c d : Cursor} {nodes : List (ParseTree Rule)}
      (h : Derives grammar sep (.rule .logicStep) ⟨.none, .free⟩ c nodes d) :
      ∃ t, nodes = [t] ∧ t.offset = c.offset ∧ t.offset + byteLength t.text = d.offset := by
    obtain ⟨inner, hd, rfl⟩ := h.of_rule
    obtain ⟨k, hk⟩ := hd.reaches
    refine ⟨_, rfl, rfl, ?_⟩
    rw [ParseTree.text_of_passes hk]
    exact hk.2.symm
  generalize hp : Pattern.many (.rule Rule.logicStep) = p at h
  generalize hm : (⟨.none, .free⟩ : Mode) = mode at h
  induction h with
  | none => exact ⟨.nil, nofun⟩
  | once h _ =>
    cases hp
    subst hm
    obtain ⟨t, rfl, -, hend⟩ := single h
    exact ⟨List.pairwise_singleton _ t, List.forall_mem_singleton.2 (Nat.le_of_eq hend)⟩
  | @again sep p mode c d e nodes more h1 h2 ih1 _ =>
    cases hp
    obtain ⟨hpair, hall⟩ := ih1 rfl hm
    subst hm
    obtain ⟨t, rfl, hstart, hend⟩ := single h2
    have hgap := (reaches_gap sep ⟨.none, .free⟩ d).offset_le
    refine ⟨List.pairwise_append.2 ⟨hpair, List.pairwise_singleton _ t, fun a ha => ?_⟩, ?_⟩
    · have := hall a ha
      exact List.forall_mem_singleton.2 (by omega)
    · refine List.forall_mem_append.2 ⟨fun a ha => ?_, List.forall_mem_singleton.2 (Nat.le_of_eq hend)⟩
      have := hall a ha
      omega
  | _ => cases hp

theorem pairwise_of_logicBlock {t : ParseTree Rule} (h : IsLeft grammar t) (hr : t.rule = .logicBlock) :
    (t.childrenOf .logicStep).Pairwise fun u v => u.offset + byteLength u.text ≤ v.offset := by
  obtain ⟨f, hd⟩ := h.spaced (by rw [hr]; rfl)
  rw [hr] at hd
  obtain ⟨word, a, _, hchildren, hword, hd⟩ := hd.of_andThen
  obtain ⟨_, b, _, rfl, hopen, hd⟩ := hd.of_andThen
  obtain ⟨steps, c, _, rfl, hsteps, hclose⟩ := hd.of_andThen
  cases hopen with
  | literal =>
  cases hclose with
  | literal =>
  have hkeeps : Mode.Keeps ⟨.none, .free⟩ := ⟨rfl, Spacing.noConfusion⟩
  have hchildren : t.childrenOf .logicStep = steps := by
    unfold ParseTree.childrenOf
    rw [hchildren, List.filter_append, hword.filter_other hkeeps 0 rfl]
    simpa using hsteps.filter_rule hkeeps 0 rfl
  rw [hchildren]
  exact (pairwise_of_steps hsteps).1

end EndpointGrammar

end ServiceLang
