import ServiceLang.Proofs.Parse.InStep
import ServiceLang.Proofs.Parse.Merge

/-!
Texts that the main grammar accepts.

A text that is a program of the main grammar as it stands has no regions, so it
should come out of cutting as it went in (`ReadsAsMainText`).  It does so just if
its words fit (`readsAsMainText_iff`): the only thing on which the scanner and the
grammar can disagree is what a word is, for the scanner decides that from a few
characters around the word.  They can disagree, since the words that introduce
regions are names for the grammar (`cut_ne_of_accepted`).
-/

namespace ServiceLang

open Peg Region MainGrammar

/-! ## Scans that find nothing -/

theorem overwrite_nil (offset : Nat) (text : List Char) : overwrite [] offset text = text := by
  induction text generalizing offset with
  | nil => rfl
  | cons c cs ih =>
    rw [overwrite, ih]
    rfl

/-- A text comes out of cutting as it went in if nothing is found. -/
theorem cut_eq_main_iff (text : List Char) : cut text = .ok ⟨text, []⟩ ↔ find text = .ok [] := by
  unfold cut
  constructor
  · intro h
    split at h
    · cases h
    · next regions hf =>
      have hnone : regions = [] := congrArg Cut.regions (Except.ok.inj h)
      rw [hf, hnone]
  · intro h
    rw [h]
    show Except.ok (⟨overwrite [] 0 text, []⟩ : Cut) = _
    rw [overwrite_nil]

theorem Region.Reads.eq_of_offset_eq {text xs ys : List Char} {s t : Scan}
    (h : Reads .start text s xs) (h2 : Reads .start text t ys) (ho : s.offset = t.offset) :
    s = t ∧ xs = ys := by
  obtain ⟨htext, hs⟩ := h.before_start
  obtain ⟨htext2, ht⟩ := h2.before_start
  have hxs : dropBytes s.offset text = xs := by
    rw [hs, htext, dropBytes_append]
  have hys : dropBytes t.offset text = ys := by
    rw [ht, htext2, dropBytes_append]
  obtain rfl : xs = ys := by rw [← hxs, ← hys, ho]
  exact ⟨h.unique h2, rfl⟩

/-! ## Programs -/

/-- Nothing is cut out of the text, and the shell blocks that are read are those given. -/
structure ReadsAsMainText (text : List Char) (blocks : List Nat) : Prop where
  cut_eq : cut text = .ok ⟨text, []⟩
  shells : ∀ offset, OpensShell text offset ↔ offset ∈ blocks

/-- If the words of an accepted text fit, the scanner comes to its end with the grammar. -/
theorem follows_of_parse {text : List Char} {trees : List (ParseTree Rule)}
    (h : grammar.parse .program text = .ok trees) (hw : WordsFit text (blockStarts trees)) :
    ∃ d, d.rest = [] ∧ MainGrammar.Follows text trees d 0 := by
  obtain ⟨d, hd⟩ := derives_of_parse .program text trees h
  obtain ⟨inner, rfl, hp⟩ := hd.of_spaced rfl
  have hblocks : blockStarts [.node .program (.start text) d.offset inner] = blockStarts inner := by
    simp [blockStarts, blockStartsOf]
  rw [hblocks] at hw
  cases hp with
  | @andThen _ _ _ _ _ _ _ none more h1 h2 =>
  cases h1 with
  | textStart =>
  have hstart : InStep text .start (.start text) 0 := ⟨.done _ _, rfl, rfl, .inl rfl⟩
  obtain ⟨s, hs⟩ := hstart.trivia
  have hdepth : depthAfter (.all [.many (.rule .statement), lex .endOfInput]) 0 = some 0 := by
    decide +kernel
  have hfollows : MainGrammar.Follows text more d (0 + 0) := InStep.derives hw h2 rfl rfl (comment?_skipTrivia _)
    (fun _ _ _ => Iff.rfl) hdepth hs
  refine ⟨d, ?_, hfollows.1, ?_⟩
  · cases h2 with
    | andThen _ hend =>
    obtain ⟨_, -, hend⟩ := hend.of_spaced rfl
    cases hend with
    | textEnd hr => exact hr
  · rw [hblocks]
    exact hfollows.2

/-- What the scanner decides at the words of a text that it takes for main text fits. -/
theorem ReadsAsMainText.wordsFit {text : List Char} {blocks : List Nat}
    (h : ReadsAsMainText text blocks) : WordsFit text blocks := by
  obtain ⟨e, he, hcl, hfound⟩ := (find_eq_ok_iff text []).1 ((cut_eq_main_iff text).1 h.cut_eq)
  have hfound : e.found = [] := List.reverse_eq_nil_iff.1 hfound.symm
  intro s ahead hr
  constructor
  · rintro hd ⟨hw, hi⟩
    cases ahead with
    | nil => cases hw
    | cons c rest =>
    have hs := hr.stack_of_mainDepth? hd
    by_cases hx : execAt (c :: rest) = true
    · exact headAt_of_execAt _ _ hx
    · rcases found_of_headAt hs hw hi (by simpa using hx) (he.rest hr) hcl with
        ⟨hnone, -⟩ | ⟨kind, more, stop, -, hf⟩
      · exact hnone
      · -- a region would have been found
        rw [hfound] at hf
        simp at hf
  · intro hd
    constructor
    · intro hx
      exact (h.shells _).1 (opensShell_of_opensExec hr hx)
    · intro hb
      obtain ⟨t, ys, ht, ho, hx⟩ := (opensShell_iff text s.offset).1 ((h.shells _).2 hb)
      obtain ⟨rfl, rfl⟩ := ht.eq_of_offset_eq hr ho
      exact hx

/-- An accepted text is read as main text just if its words fit. -/
theorem readsAsMainText_iff {text : List Char} {trees : List (ParseTree Rule)}
    (h : grammar.parse .program text = .ok trees) :
    ReadsAsMainText text (blockStarts trees) ↔ WordsFit text (blockStarts trees) := by
  constructor
  · exact fun hr => hr.wordsFit
  · intro hw
    obtain ⟨d, hd, ⟨t, ht⟩, hopens⟩ := follows_of_parse h hw
    have hreads := ht.reads
    rw [hd] at hreads
    refine ⟨(cut_eq_main_iff text).2 ((find_eq_ok_iff text []).2 ⟨t, hreads, ?_, ?_⟩), ?_⟩
    · rcases ht.place with hs | ⟨-, hs⟩
      · rw [hs]
        intro f hf
        rw [List.mem_singleton.1 hf]
        rfl
      · exact hs
    · rw [ht.found_eq]
      rfl
    · intro offset
      constructor
      · intro ho
        obtain ⟨s, ahead, hr, rfl, hx⟩ := (opensShell_iff text offset).1 ho
        exact ((hw s ahead hr).2 hx.1).1 hx
      · exact hopens offset

/-! ## Sources without regions -/

/-- A source without regions is parsed as its main text. -/
theorem Source.parse_of_cut (s : Source) (h : cut s.text = .ok ⟨s.text, []⟩) :
    s.parse = (s.parseMain s.text).map fun main => ⟨s.position 0, main⟩ := by
  unfold Source.parse
  rw [h]
  dsimp only
  cases hmain : s.parseMain s.text with
  | error e => rfl
  | ok main =>
    have hover : s.parseMain (overwrite [] 0 s.text) = .ok main := by rw [overwrite_nil, hmain]
    obtain ⟨hpair, -⟩ := parseMain_sound hover
    have hsorted : main.mergeSort (fun a b => a.pos.offset ≤ b.pos.offset) = main := by
      refine List.mergeSort_of_pairwise (hpair.imp ?_)
      intro a b hab
      simpa using Nat.le_of_lt hab
    show Except.ok (⟨s.position 0, mergeStatements main []⟩ : Program) = _
    unfold mergeStatements
    rw [List.filter_nil, List.append_nil, hsorted, List.filter_nil, List.append_nil]
    rfl

/-- Of a source that the main grammar accepts nothing is cut out, and its shell blocks
are its `exec` blocks, just if its words fit; then it is parsed as main text. -/
theorem Source.accepted_iff_wordsFit (s : Source) (trees : List (ParseTree Rule))
    (h : grammar.parse .program s.text = .ok trees) :
    (ReadsAsMainText s.text (blockStarts trees) ↔ WordsFit s.text (blockStarts trees)) ∧
      (WordsFit s.text (blockStarts trees) →
        s.parse = (s.parseMain s.text).map fun main => ⟨s.position 0, main⟩) := by
  refine ⟨readsAsMainText_iff h, fun hw => ?_⟩
  exact s.parse_of_cut ((readsAsMainText_iff h).2 hw).cut_eq

/-- A role and an event may be called as regions begin. -/
theorem Source.parse_role_workflow :
    let s : Source := ⟨"", "role workflow\nevent job\nreturn\nexec \x7b ls \x7d".toList⟩
    s.parse = (s.parseMain s.text).map fun main => ⟨s.position 0, main⟩ := by
  intro s
  have hblocks : (grammar.parse .program s.text).toOption.map blockStarts = some [31] := by
    decide +kernel
  cases hp : grammar.parse .program s.text with
  | error e =>
    rw [hp] at hblocks
    cases hblocks
  | ok trees =>
    rw [hp] at hblocks
    have hblocks : blockStarts trees = [31] := Option.some.inj hblocks
    refine (s.accepted_iff_wordsFit trees hp).2 ?_
    rw [hblocks]
    decide

/-- Not every text that the grammar accepts is left as it is: a role that is called
`workflow` takes the configuration behind it for its body. -/
theorem cut_ne_of_accepted :
    ¬ ∀ text trees, grammar.parse .program text = .ok trees → cut text = .ok ⟨text, []⟩ := by
  intro h
  have accepted : (grammar.parse .program "role workflow\nconfig \x7b\x7d".toList).toOption.isSome = true := by
    decide
  have found : find "role workflow\nconfig \x7b\x7d".toList = .ok [⟨.flow, 5, 23⟩] := rfl
  cases hp : grammar.parse .program "role workflow\nconfig \x7b\x7d".toList with
  | error e =>
    rw [hp] at accepted
    cases accepted
  | ok trees =>
    have hcut := (cut_eq_main_iff _).1 (h _ trees hp)
    rw [found] at hcut
    cases hcut

end ServiceLang
