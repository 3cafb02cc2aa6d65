import ServiceLang.Grammar.Main
import ServiceLang.Proofs.Peg.Derive

/-!
The fuel of a parse suffices.

Only a rule inside a rule spends fuel.  Rules that are called behind a character that has
been read are counted with that character, so what is left to bound is how deep rules nest
at one place of the text.  `Grammar.settles` computes that bound from the definitions, and
fails for a grammar that is left recursive.  Where it succeeds, all fuel from there on gives
the same outcome (`matchRule_eq`), and so `Grammar.run` has the outcome of every larger fuel
(`run_eq_of_le`): no failure of a parse is one of fuel.
-/

namespace ServiceLang.Peg

variable {R : Type} {g : Grammar R}

/-! ## Patterns that read a character -/

/-- Whatever the pattern matches has a character; `call` says it of rules. -/
def Pattern.consumes (call : R → Bool) : Pattern R → Bool
  | literal text => !text.toList.isEmpty
  | oneOf _ => true
  | rule r => call r
  | andThen p q => p.consumes call || q.consumes call
  | orElse p q => p.consumes call && q.consumes call
  | _ => false

/-- The same for a rule, as far as rules inside each other are unfolded so often. -/
def Grammar.consumes (g : Grammar R) : Nat → R → Bool
  | 0, _ => false
  | n + 1, r => (g.definition r).pattern.consumes (g.consumes n)

theorem Derives.length_lt {sep : Bool} {p : Pattern R} {mode : Mode} {c d : Cursor}
    {nodes : List (ParseTree R)} (h : Derives g sep p mode c nodes d) (n : Nat)
    (hp : p.consumes (g.consumes n)) : d.rest.length < c.rest.length := by
  induction h generalizing n with
  | @literal sep text mode c d h =>
    refine (Cursor.passes_of_strip? h).length_lt ?_
    rintro hnil
    unfold Pattern.consumes at hp
    rw [hnil] at hp
    cases hp
  | @oneOf sep cls mode c d h =>
    obtain ⟨x, hx, -, -⟩ := (Cursor.next?_eq_some_iff _ c d).1 h
    rw [hx, List.length_cons]
    omega
  | rule _ ih =>
    cases n with
    | zero => cases hp
    | succ n => exact ih n hp
  | @andThen sep p q mode c d e nodes more h1 h2 ih1 ih2 =>
    have hle := h1.reaches.length_le
    have hgap := (reaches_gap sep mode d).length_le
    rcases Bool.or_eq_true_iff.1 hp with hp | hq
    · have hlt := ih1 n hp
      have := h2.reaches.length_le
      omega
    · have := ih2 n hq
      omega
  | first _ ih => exact ih n (Bool.and_eq_true_iff.1 hp).1
  | second _ ih => exact ih n (Bool.and_eq_true_iff.1 hp).2
  | _ => cases hp

/-! ## How deep rules nest at one place -/

/-- Every rule that the pattern calls before it has read a character satisfies `call`;
`eats` says which rules read one. -/
def Pattern.callsFirst (eats call : R → Bool) : Pattern R → Bool
  | literal _ | oneOf _ | textStart | textEnd => true
  | rule r => call r
  | andThen p q => p.callsFirst eats call && (p.consumes eats || q.callsFirst eats call)
  | orElse p q => p.callsFirst eats call && q.callsFirst eats call
  | many p | optional p | notHere p => p.callsFirst eats call

/-- At one place of the text, the rules inside the rule nest less than so deep.  For
consumption, `m` rules inside each other are unfolded. -/
def Grammar.settles (g : Grammar R) (m : Nat) : Nat → R → Bool
  | 0, _ => false
  | n + 1, r => (g.definition r).pattern.callsFirst (g.consumes m) (g.settles m n)

/-! ## More fuel -/

section

variable {call call' : R → Mode → Cursor → Attempts R → Outcome R} {sep : Bool} {mode : Mode}

/-- A step that goes forward repeats like another that agrees with it from there on. -/
theorem repeatStep_congr {step : Cursor → Attempts R → Outcome R}
    (step' : Cursor → Attempts R → Outcome R) {n : Nat} {c : Cursor}
    (log : Attempts R)
    (hstep : ∀ d log, d.rest.length ≤ c.rest.length → step d log = step' d log)
    (hforward : ∀ d log nodes e log', step d log = .matched nodes e log' →
      e.rest.length ≤ d.rest.length) :
    repeatStep step n c log = repeatStep step' n c log := by
  induction n generalizing c log with
  | zero => rfl
  | succ n ih =>
    unfold repeatStep
    rw [← hstep c log (Nat.le_refl _)]
    cases hs : step c log with
    | failed log' => rfl
    | matched nodes d log' =>
      have hle := hforward c log nodes d log' hs
      dsimp only
      rw [ih log' fun e log he => hstep e log (by omega)]

/-- Two ways to match rules that agree behind `n` characters of the rest, and before on the
rules that are called first, agree on the pattern. -/
theorem matchPattern_congr {n m : Nat} {f : R → Bool}
    (hderives : ∀ sep r mode c log nodes d log', call r mode c log = .matched nodes d log' →
      Derives g sep (.rule r) mode c nodes d)
    (hcall : ∀ r mode c log, c.rest.length < n ∨ c.rest.length ≤ n ∧ f r →
      call r mode c log = call' r mode c log)
    (p : Pattern R) (mode : Mode) (c : Cursor) (log : Attempts R)
    (hc : c.rest.length < n ∨ c.rest.length ≤ n ∧ p.callsFirst (g.consumes m) f) :
    matchPattern call sep p mode c log = matchPattern call' sep p mode c log := by
  have derives (p : Pattern R) {mode c log nodes d log'}
      (h : matchPattern call sep p mode c log = .matched nodes d log') :
      Derives g sep p mode c nodes d :=
    derives_of_matchPattern call hderives sep p mode c log nodes d log' h
  induction p generalizing mode c log with
  | literal | oneOf | textStart | textEnd => rfl
  | rule r => exact hcall r mode c log hc
  | andThen p q ihp ihq =>
    have hp : c.rest.length < n ∨ c.rest.length ≤ n ∧ p.callsFirst (g.consumes m) f :=
      hc.imp id fun h => ⟨h.1, (Bool.and_eq_true_iff.1 h.2).1⟩
    unfold matchPattern
    rw [← ihp mode c log hp]
    cases hm : matchPattern call sep p mode c log with
    | failed log' => rfl
    | matched nodes d log' =>
      have hd := derives p hm
      have hle := hd.reaches.length_le
      have hgap := (reaches_gap sep mode d).length_le
      dsimp only
      rw [ihq mode (gap sep mode d) log']
      rcases hc with hc | ⟨hc, hfirst⟩
      · exact .inl (by omega)
      rcases Bool.or_eq_true_iff.1 (Bool.and_eq_true_iff.1 hfirst).2 with heats | hq
      · have := hd.length_lt m heats
        exact .inl (by omega)
      · exact .inr ⟨by omega, hq⟩
  | orElse p q ihp ihq =>
    have hp := hc.imp id fun h => And.intro h.1 (Bool.and_eq_true_iff.1 h.2).1
    have hq := hc.imp id fun h => And.intro h.1 (Bool.and_eq_true_iff.1 h.2).2
    unfold matchPattern
    rw [← ihp mode c log hp]
    cases matchPattern call sep p mode c log with
    | failed log' => exact ihq mode c log' hq
    | matched nodes d log' => rfl
  | many p ih =>
    unfold matchPattern
    rw [← ih mode c log hc]
    cases hm : matchPattern call sep p mode c log with
    | failed log' => rfl
    | matched nodes d log' =>
      have hle := (derives p hm).reaches.length_le
      dsimp only
      rw [repeatStep_congr (fun c log => matchPattern call' sep p mode (gap sep mode c) log)
        log' ?_ ?_]
      · intro e log he
        have hgap := (reaches_gap sep mode e).length_le
        exact ih mode _ log (hc.imp (by omega) fun h => ⟨by omega, h.2⟩)
      · intro e log more f log'' hs
        exact ((reaches_gap sep mode e).trans (derives p hs).reaches).length_le
  | optional p ih =>
    unfold matchPattern
    rw [ih mode c log hc]
  | notHere p ih =>
    unfold matchPattern
    rw [ih _ c log hc]

end

/-- Where rules nest less than `k` deep at one place, this much fuel suffices. -/
theorem matchRule_eq {m k : Nat} (hk : ∀ r, g.settles m k r) {fuel fuel' n : Nat} {r : R} {c : Cursor}
    (hr : g.settles m n r) (hfuel : c.rest.length * k + n ≤ fuel)
    (hfuel' : c.rest.length * k + n ≤ fuel') (mode : Mode) (log : Attempts R) :
    matchRule g fuel r mode c log = matchRule g fuel' r mode c log := by
  induction fuel generalizing fuel' n r c mode log with
  | zero =>
    obtain rfl : n = 0 := by omega
    cases hr
  | succ fuel ih =>
    cases n with
    | zero => cases hr
    | succ n =>
    obtain ⟨fuel', rfl⟩ : ∃ f, fuel' = f + 1 := ⟨fuel' - 1, by omega⟩
    have inside (sep : Bool) (mode : Mode) : matchPattern (matchRule g fuel) sep
        (g.definition r).pattern mode c log =
          matchPattern (matchRule g fuel') sep (g.definition r).pattern mode c log := by
      refine matchPattern_congr (n := c.rest.length) (m := m) (f := g.settles m n) ?_ ?_ _ _ _ _
        (.inr ⟨Nat.le_refl _, hr⟩)
      · exact fun sep => derives_of_matchRule fuel sep
      · rintro r mode d log (hd | ⟨hd, hr⟩)
        · -- behind a character there is fuel for all rules
          have : (d.rest.length + 1) * k ≤ c.rest.length * k := Nat.mul_le_mul_right k hd
          rw [Nat.succ_mul] at this
          exact ih (hk r) (by omega) (by omega) mode log
        · have : d.rest.length * k ≤ c.rest.length * k := Nat.mul_le_mul_right k hd
          exact ih hr (by omega) (by omega) mode log
    unfold matchRule
    dsimp only
    rw [inside]

/-- More fuel than `Grammar.run` provides has the same outcome. -/
theorem run_eq_of_le {m : Nat} (hk : ∀ r, g.settles m (g.rules.length + 1) r) (text : List Char)
    (fuel : Nat) (hfuel : g.fuel text.length ≤ fuel) (r : R) :
    g.run r text = matchRule g fuel r ⟨.none, .free⟩ (.start text) .empty := by
  have hle : text.length * (g.rules.length + 1) + (g.rules.length + 1) ≤ g.fuel text.length := by
    exact Nat.le_of_eq (by rw [Grammar.fuel, Nat.succ_mul])
  exact matchRule_eq hk (hk r) hle (Nat.le_trans hle hfuel) _ _

end ServiceLang.Peg

namespace ServiceLang.MainGrammar

/-- The grammar of main text is not left recursive. -/
theorem settles_rules (r : Rule) : grammar.settles 12 (grammar.rules.length + 1) r := by
  have all : ∀ r ∈ Rule.all, grammar.settles 12 (grammar.rules.length + 1) r := by decide +kernel
  exact all r r.mem_all

end ServiceLang.MainGrammar
