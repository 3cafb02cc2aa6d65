import ServiceLang.Proofs.Check.Cited
import ServiceLang.Proofs.Parse.Accepted
import ServiceLang.Proofs.Parse.Indented
import ServiceLang.Proofs.Peg.Inside

/-!
Every diagnostic of a parsed program is anchored in its source.

A tree is alike to itself, so what is lowered from it is moved as its nodes are placed.  All nodes
of statements start at a byte of their text, which is the main text or a region, and so at a byte of
the source.  A function that leaves the positions of these bytes in place therefore leaves a parsed
program as it is (`Source.relocate_of_parse`), and with it the positions of its findings and what
they cite (`Program.reported_findings`).  One such function moves every other position, so the
positions that diagnostics show are positions of bytes of the source, and a cited one is that of a
declaration which the checks process before the reported one (`Source.diagnostics_anchored`).
-/

namespace ServiceLang

open Peg

variable {f : Position → Position} {place place' : Nat → Position}

namespace MainGrammar

/-- A tree is alike to itself where its nodes are placed anew. -/
theorem alike_self {t : ParseTree Rule} (ht : ∀ u ∈ t.nodes, IsDerived grammar u)
    (hplaced : PlacedBy f place place' t) : AlikeTrees f place place' t t := by
  have hclosed : ∀ r, decide (r = Rule.lexeme .ident) →
      (grammar.definition r).pattern.leavesOnly (fun r => r = .lexeme .ident) := by
    intro r hr
    rw [of_decide_eq_true hr]
    decide
  refine ParseTree.related_self t fun u hu => ⟨rfl, fun _ => rfl, rfl, fun hr v hv => ?_, hplaced u hu⟩
  obtain ⟨mode, c, d, -, hderives⟩ := ht u hu
  rw [hr] at hderives
  exact of_decide_eq_true (hderives.forall_rule_of_closed hclosed (by decide) v hv)

end MainGrammar

namespace Source

variable {s : Source}

/-- A function that leaves the positions of a main text in place leaves its statements as they are. -/
theorem relocate_of_parseMain {text : List Char} {main : List Stmt} (h : s.parseMain text = .ok main)
    (hf : ∀ k < ServiceLang.byteLength text, f (s.position k) = s.position k) :
    ∀ x ∈ main, x.relocate f = x := by
  intro x hx
  obtain ⟨trees, ht, hl⟩ := parsePart_eq_ok h
  obtain ⟨u, hu, hux⟩ := exists_partner (forall₂_of_mapM (f := MainGrammar.lowerStmt _) hl) hx
  obtain ⟨t, htm, hu⟩ := List.mem_flatMap.1 hu
  obtain ⟨hchild, hrule⟩ := List.mem_filter.1 hu
  have hderived : ∀ v ∈ u.nodes, IsDerived MainGrammar.grammar v := fun v hv =>
    isDerived_of_parse ht v ((ParseTree.mem_nodesAll_iff trees v).2
      ⟨t, htm, ParseTree.nodes_child hchild hv⟩)
  have hplaced : PlacedBy f (fun offset => s.position (0 + offset))
      (fun offset => s.position (0 + offset)) u := by
    intro v hv
    have hlt := MainGrammar.offset_lt_byteLength ht htm hchild (of_decide_eq_true hrule) hv
    dsimp only
    rw [Nat.zero_add, hf v.offset hlt]
  have hcarries := MainGrammar.lowerStmt_carries (MainGrammar.alike_self hderived hplaced)
  rw [hux] at hcarries
  exact (Except.ok.inj hcarries.eq_of_ok).symm

/-- A function that leaves the positions of a region in place leaves its statement as it is. -/
theorem relocate_of_parseRegion {r : Region} {x : Stmt} (h : s.parseRegion r = .ok x)
    (hf : ∀ k < ServiceLang.byteLength (r.text s.text),
      f (s.position (r.start + k)) = s.position (r.start + k)) : x.relocate f = x := by
  unfold parseRegion at h
  split at h
  · obtain ⟨e, he, rfl⟩ := map_eq_ok h
    obtain ⟨trees, ht, hl⟩ := parsePart_eq_ok he
    have hcarries : Carries (Endpoint.relocate f) (fun _ => True)
        (EndpointGrammar.lowerRegion (fun offset => s.position (r.start + offset)) trees)
        (EndpointGrammar.lowerRegion (fun offset => s.position (r.start + offset)) trees) :=
      EndpointGrammar.lowerRegion_carries fun t htm u hu hrule v hv =>
        (hf v.offset (EndpointGrammar.offset_lt_byteLength ht htm hu hrule hv)).symm
    rw [hl] at hcarries
    exact congrArg Stmt.endpoint (Except.ok.inj hcarries.eq_of_ok).symm
  · obtain ⟨trees, ht, hl⟩ := parsePart_eq_ok h
    have hcarries : Carries (Stmt.relocate f) (fun x => x.same x = true)
        (FlowGrammar.lowerRegion (fun offset => s.position (r.start + offset)) trees)
        (FlowGrammar.lowerRegion (fun offset => s.position (r.start + offset)) trees) :=
      FlowGrammar.lowerRegion_carries fun t htm u hu hrule v hv =>
        (hf v.offset (FlowGrammar.offset_lt_byteLength ht htm hu hrule hv)).symm
    rw [hl] at hcarries
    exact (Except.ok.inj hcarries.eq_of_ok).symm

/-- The position is that of a byte of the source: it is valid and lies before the end of the text,
and its line and column are those of its offset. -/
structure Anchors (s : Source) (x : Position) : Prop where
  isValid : x.isValid
  inside : x.offset < s.byteLength
  pos_eq : x = s.position x.offset

theorem anchors_position {k : Nat} (hk : k < s.byteLength) : s.Anchors (s.position k) := by
  have hoffset : (s.position k).offset = k := s.offset_position k (Nat.le_of_lt hk)
  have hline := s.line_position k
  refine ⟨?_, ?_, ?_⟩
  · unfold Position.isValid
    rw [hline]
    exact decide_eq_true (by omega)
  · rwa [hoffset]
  · rw [hoffset]

/-- A parsed program has anchored positions only: a function that leaves these in place leaves all
statements as they are. -/
theorem relocate_of_parse {p : Program} (h : s.parse = .ok p) (hf : ∀ x, s.Anchors x → f x = x) :
    ∀ x ∈ p.statements, x.relocate f = x := by
  intro x hx
  obtain ⟨c, main, declared, hcut, hmain, hdeclared, rfl⟩ := parse_eq_ok h
  obtain ⟨hfind, hover⟩ := Region.cut_eq_ok hcut
  rcases mem_mergeStatements hx with hx | hx
  · refine relocate_of_parseMain hmain (fun k hk => hf _ (anchors_position ?_)) x hx
    rwa [hover, Region.byteLength_overwrite] at hk
  · obtain ⟨r, hr, hrx⟩ := exists_partner (forall₂_of_mapM hdeclared) hx
    have hplaced := (Region.placed_of_find hfind).1 r hr
    have hnonempty := hplaced.nonempty
    have htext := hplaced.byteLength_text
    have hstop : r.stop ≤ s.byteLength := hplaced.stop_isBoundary.le
    exact relocate_of_parseRegion hrx fun k hk => hf _ (anchors_position (by omega))

/-! ## Diagnostics -/

/-- The positions that a diagnostic shows are anchored in the source. -/
structure AnchorsFinding (s : Source) (p : Program) (x : Finding Problem) : Prop where
  /-- It is reported at a byte of the source. -/
  pos : s.Anchors x.diagnostic.pos
  /-- What its message cites is a declaration of the same at a byte of the source, and the checks
  come upon that one first. -/
  cited : ∀ d, x.problem.earlier? = some d → s.Anchors d.pos ∧
    [d, ⟨d.subject, x.pos⟩].Sublist p.introduced ∧
    ∃ before after, x.problem.cited? = some (before, d.pos, after) ∧
      x.diagnostic.message = before ++ d.pos.display ++ after
  /-- If it cites no declaration, nothing in it is a position. -/
  uncited : x.problem.earlier? = none → ∀ f, x.problem.relocate f = x.problem

/-- Leaves what the source anchors in place, and moves everything else. -/
noncomputable def pin (s : Source) (x : Position) : Position :=
  open Classical in if s.Anchors x then x else { x with offset := x.offset + 1 }

theorem pin_eq_self_iff (s : Source) (x : Position) : s.pin x = x ↔ s.Anchors x := by
  unfold pin
  split
  · next h => exact iff_of_true rfl h
  · next h =>
    refine iff_of_false (fun heq => ?_) h
    exact absurd (congrArg Position.offset heq) (Nat.succ_ne_self x.offset)

theorem anchorsFinding_of_parse {p : Program} (h : s.parse = .ok p) {registry : Registry}
    {x : Finding Problem} (hx : x ∈ p.findings registry) : s.AnchorsFinding p x := by
  have hfixed := relocate_of_parse h fun y hy => (s.pin_eq_self_iff y).2 hy
  have hreported := Program.reported_findings hfixed registry x hx
  refine ⟨(s.pin_eq_self_iff _).1 hreported.pos_eq, fun d hd => ?_, fun hnone f => ?_⟩
  · obtain ⟨hpos, hbefore⟩ := hreported.earlier d hd
    refine ⟨(s.pin_eq_self_iff _).1 hpos, hbefore, ?_⟩
    have hcited := x.problem.map_pos_earlier?
    rw [hd, Option.map_some] at hcited
    obtain ⟨⟨before, first, after⟩, hc, rfl⟩ := Option.map_eq_some_iff.1 hcited.symm
    exact ⟨before, after, hc, Problem.message_of_cited? hc⟩
  · have hcited := x.problem.map_pos_earlier?
    rw [hnone, Option.map_none] at hcited
    exact Problem.relocate_of_cited?_eq_none (Option.map_eq_none_iff.1 hcited.symm)

/-- Every diagnostic of a parsed program stands at a byte of the source, and so does every
declaration that a message cites; the checks process it before the one that is reported.  The
position of built-in functions is never shown. -/
theorem diagnostics_anchored (s : Source) (p : Program) (h : s.parse = .ok p) (registry : Registry) :
    (∀ d ∈ p.diagnostics registry, s.Anchors d.pos) ∧
      (∀ x ∈ p.findings registry, s.AnchorsFinding p x) ∧ ¬s.Anchors .unknown := by
  refine ⟨fun d hd => ?_, fun x hx => anchorsFinding_of_parse h hx, fun hunknown => ?_⟩
  · obtain ⟨x, hx, rfl⟩ := List.mem_map.1 hd
    exact (anchorsFinding_of_parse h hx).pos
  · exact Bool.false_ne_true hunknown.isValid

/-- A name declared twice, the second time in another line than the first, and a variable with the name
of a built-in function, of which no position is cited. -/
theorem diagnostics_anchored_redeclared :
    let s : Source := ⟨"m", "/* é */ var a\nvar a = 1 var print".toList⟩
    ∃ p, s.parse = .ok p ∧ (p.diagnostics .unrestricted).map Diagnostic.text =
        ["m:2:1: [scope] duplicate declaration of 'a' (previously declared at m:1:9)",
          "m:2:11: [scope] duplicate declaration of 'print' shadows a built-in in the same scope"] ∧
      (∀ d ∈ p.diagnostics .unrestricted, s.Anchors d.pos) ∧
      (∀ x ∈ p.findings .unrestricted, s.AnchorsFinding p x) ∧ ¬s.Anchors .unknown := by
  intro s
  have hfind : Region.find s.text = .ok [] := rfl
  have hparse := s.parse_of_cut ((cut_eq_main_iff _).2 hfind)
  have htexts : ((s.parseMain s.text).map fun main =>
      ((⟨s.position 0, main⟩ : Program).diagnostics .unrestricted).map Diagnostic.text).toOption = some
        ["m:2:1: [scope] duplicate declaration of 'a' (previously declared at m:1:9)",
          "m:2:11: [scope] duplicate declaration of 'print' shadows a built-in in the same scope"] := by
    decide +kernel
  cases hmain : s.parseMain s.text with
  | error e =>
    rw [hmain] at htexts
    cases htexts
  | ok main =>
    rw [hmain] at hparse htexts
    exact ⟨_, hparse, Option.some.inj htexts, diagnostics_anchored s _ hparse .unrestricted⟩

end Source

end ServiceLang
