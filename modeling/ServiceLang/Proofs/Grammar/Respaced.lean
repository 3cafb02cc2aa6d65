import ServiceLang.Proofs.Peg.Alike

/-!
Main text parses alike whatever blanks stand at one place.

All rules of main text but four look for no blank and for no character at all, so they match
twin texts alike (`steady_of_mem`).  The others are the insides of strings, which are read
character by character, and `exec` blocks with their text.  Hence a main text is accepted
with other blanks at one place if it is accepted at all, and its trees are twins
(`parse_twins`).
-/

namespace ServiceLang.MainGrammar

open Peg

/-- The rules that read characters of any kind, or blanks. -/
def readsBlanks : Rule → Bool
  | .lexeme .stringInner | .shellText | .shellBody | .execBlock => true
  | _ => false

/-- Every other rule looks for no blanks. -/
theorem steady_definition {r : Rule} (h : readsBlanks r = false) :
    (definition r).pattern.steady (· ≠ .shellText) (grammar.consumes 12) := by
  have all : ∀ r ∈ Rule.all, readsBlanks r = false →
      (definition r).pattern.steady (· ≠ .shellText) (grammar.consumes 12) := by decide +kernel
  exact all r r.mem_all h

section

variable {front x y back : List Char} {c c' : Cursor} {fuel : Nat} {sep : Bool} {mode : Mode}

/-- At a blank, a pattern that begins with something else is missed. -/
theorem misses_of_blank {p : Pattern Rule} (hp : p.avoids (grammar.avoids blanks 0) blanks sep)
    {b : Char} (hb : isBlank b) (o : Nat) (r : List Char) :
    Misses (matchRule grammar fuel) sep p mode ⟨o, b :: r⟩ :=
  misses_of_head blanks 0 rfl ((mem_blanks_iff b).2 hb) hp

theorem stringInner_alike (hr : Respaced front x y) (h : Twin front x y back c c') :
    MatchesAlike (matchRule grammar fuel) false (TwinTrees grammar front x y back)
      (Twin front x y back) (definition (.lexeme .stringInner)).pattern mode c c' := by
  refine .many_of_blanks hr h (fun c => rfl) ?_ ?_ (length_lt_of_consumes 0 (by decide))
  · intro b o r hb
    refine .second (.left (misses_of_blank (by decide) hb o r)) ?_
    exact .andThen (a := []) (.notHere (misses_of_blank (by decide) hb o r)) (.oneOf rfl rfl)
  · intro d d' hd _
    refine .orElse (.andThen (.literal hr hd (by decide)) fun e e' he => .any hr he) ?_
    refine .andThen (.notHere (S := Twin front x y back) (.orElse ?_ ?_) hd) fun e e' he => .any hr he
    · exact .literal hr hd (by decide)
    · exact .literal hr hd (by decide)

theorem shellText_alike (hr : Respaced front x y) (h : Twin front x y back c c')
    (hm : mode.spacing ≠ .free)
    (hcall : ∀ sep d d', Twin front x y back d d' → MatchesAlike (matchRule grammar fuel) sep
      (TwinTrees grammar front x y back) (Twin front x y back) (.rule .shellText) mode d d') :
    MatchesAlike (matchRule grammar fuel) true (TwinTrees grammar front x y back)
      (Twin front x y back) (definition .shellText).pattern mode c c' := by
  have hgap (c : Cursor) : gap true mode c = c := gap_of_not_free true mode c hm
  refine .many_of_blanks hr h hgap ?_ ?_ (length_lt_of_consumes 0 (by decide))
  · intro b o r hb
    refine .second (misses_of_blank (by decide) hb o r) ?_
    refine .andThen (a := []) (.notHere (misses_of_blank (by decide) hb o r)) ?_
    rw [hgap]
    exact .oneOf rfl rfl
  · intro d d' hd _
    refine .orElse (.mono (T := Twin front x y back) ?_ fun _ _ => .twin) ?_
    · refine .andThen (.literal hr hd (by decide)) fun e e' he => ?_
      rw [hgap, hgap]
      refine .andThen (hcall _ e e' he) fun e e' he => ?_
      rw [hgap, hgap]
      exact .literal hr he (by decide)
    · refine .andThen (.notHere (S := Twin front x y back) (.orElse ?_ ?_) hd) fun e e' he => ?_
      · exact .literal hr hd (by decide)
      · exact .literal hr hd (by decide)
      · rw [hgap, hgap]
        exact .any hr he

theorem execBlock_alike (hr : Respaced front x y) (h : Twin front x y back c c')
    (hcall : ∀ sep r d d', r ≠ .shellText → Twin front x y back d d' →
      MatchesAlike (matchRule grammar fuel) sep (TwinTrees grammar front x y back) (Twin front x y back)
        (.rule r) mode d d') :
    MatchesAlike (matchRule grammar fuel) false (TwinTrees grammar front x y back)
      (Twin front x y back) (definition .execBlock).pattern mode c c' := by
  have hgap (c : Cursor) : gap false mode c = c := rfl
  refine .andThen (hcall _ _ c c' (by decide) h) fun d d' hd => ?_
  refine .andThen (S := Twin front x y back) ?_ fun d d' hd => ?_
  · refine .many_of_blanks hr hd hgap ?_ ?_ (length_lt_of_consumes 0 (by decide))
    · intro b o r hb
      rcases (isBlank_iff b).1 hb with rfl | rfl | rfl | rfl <;> exact fun log => ⟨log, rfl⟩
    · intro e e' he hsolid
      have miss {e : Cursor} (hsolid : ∀ b ∈ e.rest.head?, isBlank b = false) : Misses
          (matchRule grammar fuel) false (.choice [.literal " ", .literal "\t", .literal "\r",
            .literal "\n"]) mode e := by
        have literal {text : String} {b : Char} (ht : text.toList = [b]) (hb : isBlank b) :
            Misses (matchRule grammar fuel) false (.literal text) mode e := by
          refine .literal fun f hf => ?_
          have := hsolid b (by rw [hf.1, ht]; rfl)
          rw [hb] at this
          cases this
        exact .orElse (literal rfl rfl) (.orElse (literal rfl rfl)
          (.orElse (literal rfl rfl) (literal rfl rfl)))
      exact .of_misses (miss hsolid) (miss (he.solid hr hsolid))
  refine .andThen (.literal hr hd (by decide)) fun d d' hd => ?_
  refine .andThen (hcall _ _ d d' (by decide) hd) fun d d' hd => ?_
  exact .literal hr hd (by decide)

/-- Every rule matches twin texts alike, shell text where no trivia stands. -/
theorem rule_alike (hr : Respaced front x y) (fuel : Nat) (sep : Bool) (r : Rule) (mode : Mode)
    (c c' : Cursor) (hm : r = .shellText → mode.spacing ≠ .free) (h : Twin front x y back c c') :
    MatchesAlike (matchRule grammar fuel) sep (TwinTrees grammar front x y back) (Twin front x y back)
      (.rule r) mode c c' := by
  induction fuel generalizing sep r mode c c' with
  | zero => exact fun _ _ => .failed
  | succ fuel ih =>
    refine .rule h ?_
    cases hb : readsBlanks r with
    | false =>
      exact .of_steady hr (fun sep r mode c c' hok => ih sep r mode c c' fun hs =>
        absurd hs (of_decide_eq_true hok)) (steady_definition hb) h
    | true =>
      unfold readsBlanks at hb
      split at hb
      · exact stringInner_alike hr h
      · exact shellText_alike hr h (hm rfl) fun sep d d' => ih sep _ _ d d' fun _ => hm rfl
      · exact ih _ _ _ c c' (fun _ => nofun) h
      · exact execBlock_alike hr h fun sep r d d' hr => ih sep r _ d d' fun h => absurd h hr
      · cases hb

end

/-- A main text is accepted with other blanks at one place, and leaves twins. -/
theorem parse_twins {front x y back : List Char} (hr : Respaced front x y)
    {trees : List (ParseTree Rule)}
    (h : grammar.parse .program (front ++ (x ++ back)) = .ok trees) :
    ∃ trees', grammar.parse .program (front ++ (y ++ back)) = .ok trees' ∧
      List.Forall₂ (TwinTrees grammar front x y back) trees trees' := by
  let fuel := max (grammar.fuel (front ++ (x ++ back)).length) (grammar.fuel (front ++ (y ++ back)).length)
  have hrun := run_eq_of_le settles_rules (front ++ (x ++ back)) fuel
    (Nat.le_max_left _ _) .program
  have hrun' := run_eq_of_le settles_rules (front ++ (y ++ back)) fuel
    (Nat.le_max_right _ _) .program
  have hs := rule_alike hr fuel false .program ⟨.none, .free⟩ _ _ nofun
    (.start : Twin front x y back _ _) .empty .empty
  rw [matchPattern, matchPattern, ← hrun, ← hrun'] at hs
  unfold Grammar.parse at h ⊢
  generalize grammar.run .program (front ++ (x ++ back)) = o at h hs
  generalize grammar.run .program (front ++ (y ++ back)) = o' at hs
  cases hs with
  | failed => cases h
  | matched hall _ =>
    cases h
    exact ⟨_, rfl, hall⟩

end ServiceLang.MainGrammar
