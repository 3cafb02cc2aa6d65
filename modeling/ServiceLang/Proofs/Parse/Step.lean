import ServiceLang.Proofs.Grammar.Step
import ServiceLang.Proofs.Parse.Merge

/-!
The lines on which the parts of logic steps stand.

Between the parts of a step there are only spaces and tabs, so a part stands on the line on
which the part before it ends.  An action holds no newline, so targets stand on the line of
their action; a parenthesis stands on a later one only if the target before it is a string with
newlines, and a brace only if that or the list of arguments has newlines
(`Source.step_lines`).
-/

namespace ServiceLang

open Peg

/-! ## Lines -/

namespace Source

/-- Text that stands in the source takes the line further by its newlines. -/
theorem line_position_append (s : Source) {b k a : List Char} (h : s.text = b ++ k ++ a) :
    (s.position (ServiceLang.byteLength b + ServiceLang.byteLength k)).line =
      (s.position (ServiceLang.byteLength b)).line + k.count '\n' := by
  have hbefore : (utf8 s.text).take (ServiceLang.byteLength b) = utf8 b := by
    rw [h, utf8_append, utf8_append, ← length_utf8, List.append_assoc, List.take_left]
  have hbehind : (utf8 s.text).take (ServiceLang.byteLength b + ServiceLang.byteLength k) =
      utf8 b ++ utf8 k := by
    rw [h, utf8_append, ← byteLength_append, ← length_utf8, List.take_left, utf8_append]
  rw [line_position, line_position, hbefore, hbehind, List.count_append, count_newline_utf8 k,
    Nat.add_assoc]

variable {s : Source} {base : Nat} {text b a : List Char}

/-- The same for a part of the source that is read from `c` to `d`. -/
theorem line_of_passes (h : s.text = b ++ text ++ a) (hb : ServiceLang.byteLength b = base)
    {c d : Cursor} {k : List Char} (hc : (Cursor.start text).Reaches c) (hk : c.Passes k d) :
    (s.position (base + d.offset)).line = (s.position (base + c.offset)).line + k.count '\n' := by
  obtain ⟨before, htext, hoffset⟩ := hc.exists_before
  have hs : s.text = (b ++ before) ++ k ++ (d.rest ++ a) := by
    rw [h, htext, hk.1]
    simp
  have := s.line_position_append hs
  rwa [byteLength_append, hb, ← hoffset, Nat.add_assoc, ← hk.2] at this

/-- A node on a line stands below its start by the newlines inside the nodes before it. -/
theorem line_of_onLine {R : Type} (h : s.text = b ++ text ++ a) (hb : ServiceLang.byteLength b = base)
    {c d : Cursor} {ts : List (ParseTree R)} (hc : (Cursor.start text).Reaches c) (hts : OnLine c ts d)
    {before after : List (ParseTree R)} {u : ParseTree R} (hu : ts = before ++ u :: after) :
    (s.position (base + u.offset)).line =
      (s.position (base + c.offset)).line + (before.flatMap ParseTree.text).count '\n' := by
  induction hts generalizing before with
  | nil => exact absurd hu (by simp)
  | @cons c d e spaces t ts hspaces hinline htext _ ih =>
    have hnone : spaces.count '\n' = 0 := by
      refine List.count_eq_zero.2 fun hm => ?_
      cases hinline _ hm
    have hstart := line_of_passes h hb hc hspaces
    rw [hnone, ← t.offset_eq] at hstart
    cases before with
    | nil =>
      obtain ⟨rfl, -⟩ := List.cons.inj hu
      exact hstart
    | cons v before =>
      obtain ⟨rfl, hrest⟩ := List.cons.inj hu
      have hreach := hc.trans hspaces.reaches
      have hend := line_of_passes h hb hreach htext
      rw [ih (hreach.trans htext.reaches) hrest, hend, ← t.offset_eq, hstart, List.flatMap_cons,
        List.count_append]
      omega

/-! ## Steps -/

open EndpointGrammar

/-- A step that stands in the source, `base` bytes behind its offset: its target stands on the
line of its action, and its parenthesis and its brace below that by the newlines inside the
parts between. -/
structure StepLines (s : Source) (base : Nat) (t : ParseTree Rule) : Prop extends IsStep t where
  text : t.text <+: dropBytes (base + t.offset) s.text
  target_line : ∀ u ∈ t.childrenOf .stepTarget,
    (s.position (base + u.offset)).line = (s.position (base + t.offset)).line
  args_line : ∀ u ∈ t.childrenOf .stepArgs, ['('] <+: u.start.rest ∧
    (s.position (base + u.offset)).line = (s.position (base + t.offset)).line +
      ((t.childrenOf .stepTarget).flatMap ParseTree.text).count '\n'
  options_line : ∀ u ∈ t.childrenOf .stepOptions, ['\x7b'] <+: u.start.rest ∧
    (s.position (base + u.offset)).line = (s.position (base + t.offset)).line +
      ((t.childrenOf .stepTarget ++ t.childrenOf .stepArgs).flatMap ParseTree.text).count '\n'

theorem stepLines_of_isLeft (h : s.text = b ++ text ++ a) (hb : ServiceLang.byteLength b = base)
    {t : ParseTree Rule} (hleft : IsLeft grammar t) (hr : t.rule = .logicStep)
    (hreach : (Cursor.start text).Reaches t.start) : s.StepLines base t := by
  have hstep := isStep_of_isLeft hleft hr
  obtain ⟨action, parts, d, e, hchildren, hparts, -, hstart, hnewline, haction, hline, -⟩ :=
    hstep.exists_action
  have hend : (s.position (base + d.offset)).line = (s.position (base + t.offset)).line := by
    rw [line_of_passes h hb hreach haction, List.count_eq_zero.2 hnewline, t.offset_eq]
    rfl
  have below {before after : List (ParseTree Rule)} {u : ParseTree Rule}
      (hu : parts = before ++ u :: after) : (s.position (base + u.offset)).line =
        (s.position (base + t.offset)).line + (before.flatMap ParseTree.text).count '\n' := by
    rw [← hend]
    exact line_of_onLine h hb (hreach.trans haction.reaches) hline hu
  refine ⟨hstep, ?_, fun u hu => ?_, fun u hu => ⟨?_, ?_⟩, fun u hu => ⟨?_, ?_⟩⟩
  · obtain ⟨before, htext, hoffset⟩ := hreach.exists_before
    have hs : s.text = (b ++ before) ++ (t.start.rest ++ a) := by
      rw [h, htext]
      simp
    rw [hs, ← hb, t.offset_eq, hoffset, ← byteLength_append, dropBytes_append]
    exact hleft.text_prefix.trans (List.prefix_append _ _)
  · rw [hstep.target.eq_singleton hu] at hparts
    have hfirst : parts = [] ++ u :: _ := hparts
    simpa using below hfirst
  · exact hstep.args.begins _ 1 rfl u hu
  · rw [hstep.args.eq_singleton hu] at hparts
    exact below hparts
  · exact hstep.options.begins _ 1 rfl u hu
  · rw [hstep.options.eq_singleton hu, ← List.append_assoc] at hparts
    exact below hparts

end Source

namespace EndpointGrammar

variable {place : Nat → Position} {text : List Char}

/-- The logic of the endpoint is lowered from these nodes, steps that stand in the text in
order. -/
structure LoweredSteps (place : Nat → Position) (text : List Char) (e : Endpoint)
    (steps : List (ParseTree Rule)) : Prop where
  logic_eq : e.logic = steps.map (lowerLogicStep place)
  ordered : steps.Pairwise fun t u => t.offset + byteLength t.text ≤ u.offset
  isLeft : ∀ t ∈ steps, IsLeft grammar t ∧ t.rule = .logicStep ∧ (Cursor.start text).Reaches t.start

/-- Only a logic block changes the logic of an endpoint. -/
theorem logic_addPart {e f : Endpoint} {t : ParseTree Rule} (hr : t.rule ≠ .logicBlock)
    (h : addPart place e t = .ok f) : f.logic = e.logic := by
  unfold addPart at h
  split at h
  case h_11 hblock => exact absurd hblock hr
  case h_9 | h_10 =>
    obtain ⟨r, -, rfl⟩ := map_eq_ok h
    rfl
  all_goals
    cases h
    rfl

theorem loweredSteps_of_lowerEndpoint {t : ParseTree Rule} {e : Endpoint} (hleft : IsLeft grammar t)
    (hr : t.rule = .endpointDecl) (hreach : (Cursor.start text).Reaches t.start)
    (h : lowerEndpoint place t = .ok e) : ∃ steps, LoweredSteps place text e steps := by
  have hk : (grammar.definition t.rule).kind = .spaced := by rw [hr]; rfl
  refine Lowered.foldlM_keeps (fun e => ∃ steps, LoweredSteps place text e steps) _ _ _ e
    (fun e part hpart f hf hkeeps => ?_) h ⟨[], rfl, .nil, nofun⟩
  by_cases hblock : part.rule = .logicBlock
  · obtain ⟨hpart, hpreach⟩ := hleft.child hk hpart
    unfold addPart at hf
    rw [hblock] at hf
    cases hf
    refine ⟨_, rfl, pairwise_of_logicBlock hpart hblock, fun v hv => ?_⟩
    obtain ⟨hv, hvreach, hvr⟩ := hpart.of_mem_childrenOf (by rw [hblock]; rfl) hv
    exact ⟨hv, hvr, (hreach.trans hpreach).trans hvreach⟩
  · obtain ⟨steps, hlogic, hordered, hall⟩ := hkeeps
    exact ⟨steps, (logic_addPart hblock hf).trans hlogic, hordered, hall⟩

/-- The logic of the endpoint of a region is lowered from steps in its text. -/
theorem exists_loweredSteps {trees : List (ParseTree Rule)} {e : Endpoint}
    (h : grammar.parse .endpointFile text = .ok trees) (he : lowerRegion place trees = .ok e) :
    ∃ steps, LoweredSteps place text e steps := by
  obtain ⟨d, hd⟩ := derives_of_parse .endpointFile text trees h
  obtain ⟨inner, rfl, -⟩ := hd.of_spaced rfl
  unfold lowerRegion at he
  split at he
  · next t ht =>
    obtain ⟨u, hu, hut⟩ := List.exists_of_findSome?_eq_some ht
    rw [List.mem_singleton.1 hu] at hut
    obtain ⟨htmem, htr⟩ := ParseTree.of_firstOf? hut
    obtain ⟨hleft, hreach⟩ := hd.isLeft (List.mem_singleton_self _)
    obtain ⟨hleft, hreach'⟩ := hleft.child rfl htmem
    exact loweredSteps_of_lowerEndpoint hleft htr (hreach.trans hreach') he
  · cases he

end EndpointGrammar

namespace Source

open EndpointGrammar

/-- The steps of every endpoint of a program are read from its region, one behind another, and
their parts stand on the lines that `StepLines` says. -/
theorem step_lines {s : Source} {p : Program} (h : s.parse = .ok p) {e : Endpoint}
    (he : .endpoint e ∈ p.statements) :
    ∃ c r steps, Region.cut s.text = .ok c ∧ r ∈ c.regions ∧ r.kind = .endpoint ∧
      LoweredSteps (fun offset => s.position (r.start + offset)) (r.text s.text) e steps ∧
      ∀ t ∈ steps, s.StepLines r.start t := by
  obtain ⟨c, main, declared, hcut, hmain, hdeclared, rfl⟩ := parse_eq_ok h
  obtain ⟨hfind, hover⟩ := Region.cut_eq_ok hcut
  -- the main text leaves no endpoint
  have he : .endpoint e ∈ declared := (mem_mergeStatements he).resolve_left fun he => by
    cases ((parseMain_sound (hover ▸ hmain)).2 _ he).2
  obtain ⟨r, hr, hparsed⟩ := exists_partner (forall₂_of_mapM hdeclared) he
  obtain ⟨placed, -⟩ := Region.placed_of_find hfind
  have hkind : r.kind = .endpoint :=
    of_decide_eq_true (loweredFrom_of_parseRegion (placed r hr) hparsed).isEndpoint_eq.symm
  unfold parseRegion at hparsed
  rw [hkind] at hparsed
  obtain ⟨e', hparsed, heq⟩ := map_eq_ok hparsed
  cases heq
  obtain ⟨trees, htrees, he⟩ := parsePart_eq_ok hparsed
  obtain ⟨steps, hsteps⟩ := exists_loweredSteps htrees he
  obtain ⟨b, inside, a, hs, hstart, hstop, -⟩ := (Region.find_sound s.text c.regions hfind).1 r hr
  refine ⟨c, r, steps, hcut, hr, hkind, hsteps, fun t ht => ?_⟩
  have htext : r.text s.text = inside := by
    rw [hs]
    exact Region.text_append hstart hstop
  obtain ⟨hleft, hrule, hreach⟩ := hsteps.isLeft t ht
  rw [htext] at hreach
  exact stepLines_of_isLeft hs hstart hleft hrule hreach

theorem step_lines_cached :
    let s : Source := ⟨"", ("@auth endpoint GET \"/\" \x7b logic \x7b\n  validate request\n" ++
      "  fetch \"a user\" (id, 7) \x7b cache: \"60s\" \x7d\n\x7d \x7d").toList⟩
    ∃ p e, s.parse = .ok p ∧ .endpoint e ∈ p.statements ∧ ∃ c r, ∃ steps : List (ParseTree Rule),
      Region.cut s.text = .ok c ∧ r ∈ c.regions ∧ steps.length = 2 ∧ ∀ t ∈ steps, s.StepLines r.start t := by
  intro s
  obtain ⟨p, hp, hendpoints⟩ := exists_ok_of_any (x := s.parse)
    (f := fun p => p.endpoints.any fun e => e.logic.length = 2) (by decide +kernel)
  obtain ⟨e, he, hlength⟩ := List.any_eq_true.1 hendpoints
  have hx := (p.mem_endpoints_iff e).1 he
  obtain ⟨c, r, steps, hcut, hr, -, hlowered, hlines⟩ := step_lines hp hx
  have hsteps : steps.length = 2 := by
    have := congrArg List.length hlowered.logic_eq
    rw [List.length_map] at this
    exact this.symm.trans (of_decide_eq_true hlength)
  exact ⟨p, e, hp, hx, c, r, steps, hcut, hr, hsteps, hlines⟩

/-- A newline in a list of arguments puts the options below the action, and words behind a target
are the next step on the same line. -/
theorem lines_of_steps_differ :
    (let s : Source := ⟨"", ("endpoint GET \"/\" \x7b logic \x7b fetch (id,\nname) \x7b cache: x \x7d \x7d \x7d").toList⟩
      ∃ p c r trees, s.parse = .ok p ∧ Region.cut s.text = .ok c ∧ r ∈ c.regions ∧
        grammar.parse .endpointFile (r.text s.text) = .ok trees ∧
        ∃ t ∈ ParseTree.nodesAll trees, t.rule = .logicStep ∧ ∃ u ∈ t.childrenOf .stepOptions,
          (s.position (r.start + t.offset)).line < (s.position (r.start + u.offset)).line) ∧
    (let s : Source := ⟨"", "endpoint GET \"/\" \x7b logic \x7b validate request extra \x7d \x7d".toList⟩
      ∃ p e, s.parse = .ok p ∧ .endpoint e ∈ p.statements ∧
        e.logic.map (fun step => (step.pos.line, step.action)) = [(1, "validate"), (1, "extra")]) := by
  constructor
  · intro s
    obtain ⟨p, hp, -⟩ := exists_ok_of_any (x := s.parse) (f := fun _ => true) (by decide +kernel)
    obtain ⟨c, hc, hregions⟩ := exists_ok_of_any (x := Region.cut s.text)
      (f := fun c => c.regions.any fun r =>
        (grammar.parse .endpointFile (r.text s.text)).toOption.any fun trees =>
          (ParseTree.nodesAll trees).any fun t => t.rule = .logicStep &&
            (t.childrenOf .stepOptions).any fun u =>
              (s.position (r.start + t.offset)).line < (s.position (r.start + u.offset)).line)
      (by decide +kernel)
    obtain ⟨r, hr, htrees⟩ := List.any_eq_true.1 hregions
    obtain ⟨trees, htrees, hnodes⟩ := exists_ok_of_any htrees
    obtain ⟨t, ht, hstep⟩ := List.any_eq_true.1 hnodes
    obtain ⟨hrule, hoptions⟩ := Bool.and_eq_true_iff.1 hstep
    obtain ⟨u, hu, hlines⟩ := List.any_eq_true.1 hoptions
    exact ⟨p, c, r, trees, hp, hc, hr, htrees, t, ht, of_decide_eq_true hrule, u, hu,
      of_decide_eq_true hlines⟩
  · intro s
    obtain ⟨p, hp, hendpoints⟩ := exists_ok_of_any (x := s.parse)
      (f := fun p => p.endpoints.any fun e =>
        e.logic.map (fun step => (step.pos.line, step.action)) = [(1, "validate"), (1, "extra")])
      (by decide +kernel)
    obtain ⟨e, he, hlogic⟩ := List.any_eq_true.1 hendpoints
    exact ⟨p, e, hp, (p.mem_endpoints_iff e).1 he, of_decide_eq_true hlogic⟩

end Source

end ServiceLang
