import Mathlib.Data.List.Forall2
import ServiceLang.Proofs.Peg.Fuel
import ServiceLang.Proofs.Peg.Node
import ServiceLang.Proofs.Peg.Respaced
import ServiceLang.Proofs.Peg.Run
import ServiceLang.Proofs.Source.Bytes

/-!
Two texts that differ in blanks match alike.

At twin cursors a pattern matches both texts or neither, to twin cursors again, and leaves
nodes that are twins (`MatchesAlike`).  There is a rule for each kind of pattern; what a
pattern needs for it is that its literals hold no blanks and that it looks for no character
at all (`Pattern.steady`).  A repetition that reads any character may end a round among the
blanks (`Near`), where the two texts differ; it is enough that it then reads the rest of
the blanks one by one (`MatchesAlike.many_of_blanks`).
-/

namespace ServiceLang.Peg

variable {R : Type} {g : Grammar R} {front x y back : List Char} {c c' d d' : Cursor}

/-! ## Trees side by side -/

/-- The trees have the same shape, and the relation holds between nodes at the same place. -/
inductive ParseTree.Related (P : ParseTree R → ParseTree R → Prop) : ParseTree R → ParseTree R → Prop
  | node {t t' : ParseTree R} : P t t' → List.Forall₂ (Related P) t.children t'.children →
      Related P t t'

namespace ParseTree

variable {P Q : ParseTree R → ParseTree R → Prop}

theorem Related.rel {t t' : ParseTree R} (h : Related P t t') : P t t' := by
  cases h with
  | node h _ => exact h

theorem Related.children {t t' : ParseTree R} (h : Related P t t') :
    List.Forall₂ (Related P) t.children t'.children := by
  cases h with
  | node _ h => exact h

mutual

/-- What follows from a relation at each node follows along the trees. -/
theorem Related.imp {t t' : ParseTree R} (h : Related P t t')
    (hq : ∀ u ∈ t.nodes, ∀ u', P u u' → Q u u') : Related Q t t' := by
  obtain ⟨rule, start, stop, cs⟩ := t
  exact .node (hq _ List.mem_cons_self _ h.rel)
    (related_imp h.children fun u hu => hq u (List.mem_cons_of_mem _ hu))

theorem related_imp {ts ts' : List (ParseTree R)} (h : List.Forall₂ (Related P) ts ts')
    (hq : ∀ u ∈ nodesAll ts, ∀ u', P u u' → Q u u') : List.Forall₂ (Related Q) ts ts' := by
  cases h with
  | nil => exact .nil
  | cons h hs =>
    exact .cons (h.imp fun u hu => hq u (List.mem_append_left _ hu))
      (related_imp hs fun u hu => hq u (List.mem_append_right _ hu))

end

mutual

/-- What holds between each node and itself holds along the tree. -/
theorem related_self : ∀ t : ParseTree R, (∀ u ∈ t.nodes, P u u) → Related P t t
  | .node _ _ _ cs, h =>
    .node (h _ List.mem_cons_self)
      (forall₂_related_self cs fun u hu => h u (List.mem_cons_of_mem _ hu))

theorem forall₂_related_self : ∀ ts : List (ParseTree R), (∀ u ∈ nodesAll ts, P u u) →
    List.Forall₂ (Related P) ts ts
  | [], _ => .nil
  | t :: ts, h =>
    .cons (related_self t fun u hu => h u (List.mem_append_left _ hu))
      (forall₂_related_self ts fun u hu => h u (List.mem_append_right _ hu))

end

end ParseTree

/-- The nodes were left by derivations of one rule between related cursors. -/
inductive IsTwin (g : Grammar R) (T : Cursor → Cursor → Prop) : ParseTree R → ParseTree R → Prop
  | node {r : R} {mode : Mode} {c c' d d' : Cursor} {cs cs' : List (ParseTree R)} :
      mode.look = .none → (g.definition r).kind.outer mode.spacing ≠ .sealed →
      T c c' → T d d' →
      Derives g (g.definition r).kind.separates (g.definition r).pattern
        { mode with spacing := (g.definition r).kind.inner mode.spacing } c cs d →
      Derives g (g.definition r).kind.separates (g.definition r).pattern
        { mode with spacing := (g.definition r).kind.inner mode.spacing } c' cs' d' →
      IsTwin g T (.node r c d.offset cs) (.node r c' d'.offset cs')

theorem IsTwin.rule_eq {T : Cursor → Cursor → Prop} {t t' : ParseTree R} (h : IsTwin g T t t') :
    t.rule = t'.rule := by
  cases h
  rfl

/-- Both have failed, or both have matched up to related cursors and left related nodes. -/
inductive Outcome.Alike (N : ParseTree R → ParseTree R → Prop) (T : Cursor → Cursor → Prop) :
    Outcome R → Outcome R → Prop
  | matched {a a' : List (ParseTree R)} {d d' : Cursor} {log log' : Attempts R} :
      List.Forall₂ N a a' → T d d' → Alike N T (.matched a d log) (.matched a' d' log')
  | failed {log log' : Attempts R} : Alike N T (.failed log) (.failed log')

/-- The pattern matches at both cursors or at neither, whatever the logs are. -/
def MatchesAlike (call : R → Mode → Cursor → Attempts R → Outcome R) (sep : Bool)
    (N : ParseTree R → ParseTree R → Prop) (T : Cursor → Cursor → Prop) (p : Pattern R) (mode : Mode)
    (c c' : Cursor) : Prop :=
  ∀ log log', Outcome.Alike N T (matchPattern call sep p mode c log)
    (matchPattern call sep p mode c' log')

/-! ## One rule for each pattern -/

namespace MatchesAlike

variable {call : R → Mode → Cursor → Attempts R → Outcome R} {sep : Bool}
  {N : ParseTree R → ParseTree R → Prop} {T : Cursor → Cursor → Prop} {p q : Pattern R} {mode : Mode}

theorem literal {text : String} (hr : Respaced front x y) (h : Twin front x y back c c')
    (ht : ∀ b ∈ text.toList, isBlank b = false) :
    MatchesAlike call sep N (Twin front x y back) (.literal text) mode c c' := by
  intro log log'
  have hs := h.strip? hr ht
  unfold matchPattern
  cases hd : c.strip? text.toList <;> cases hd' : c'.strip? text.toList <;> rw [hd, hd'] at hs <;> cases hs
  · exact .failed
  · next hs => exact .matched .nil hs

theorem oneOf {cls : CharClass} (hr : Respaced front x y) (h : Twin front x y back c c')
    (hcls : ∀ b, isBlank b → cls.contains b = false) :
    MatchesAlike call sep N (Twin front x y back) (.oneOf cls) mode c c' := by
  intro log log'
  have hs := h.next? hr hcls
  unfold matchPattern
  cases hd : c.next? cls.contains <;> cases hd' : c'.next? cls.contains <;> rw [hd, hd'] at hs <;>
    cases hs
  · exact .failed
  · next hs => exact .matched .nil hs

theorem andThen {S : Cursor → Cursor → Prop} (hp : MatchesAlike call sep N S p mode c c')
    (hq : ∀ d d', S d d' → MatchesAlike call sep N T q mode (gap sep mode d) (gap sep mode d')) :
    MatchesAlike call sep N T (.andThen p q) mode c c' := by
  intro log log'
  have h := hp log log'
  unfold matchPattern
  generalize matchPattern call sep p mode c log = o at h
  generalize matchPattern call sep p mode c' log' = o' at h
  cases h with
  | failed => exact .failed
  | @matched a a' d d' l l' ha hd =>
    have h := hq d d' hd l l'
    dsimp only
    generalize matchPattern call sep q mode (gap sep mode d) l = o at h
    generalize matchPattern call sep q mode (gap sep mode d') l' = o' at h
    cases h with
    | failed => exact .failed
    | matched hb he => exact .matched (List.rel_append ha hb) he

theorem orElse (hp : MatchesAlike call sep N T p mode c c') (hq : MatchesAlike call sep N T q mode c c') :
    MatchesAlike call sep N T (.orElse p q) mode c c' := by
  intro log log'
  have h := hp log log'
  unfold matchPattern
  generalize matchPattern call sep p mode c log = o at h
  generalize matchPattern call sep p mode c' log' = o' at h
  cases h with
  | failed => exact hq _ _
  | matched ha hd => exact .matched ha hd

theorem optional (hp : MatchesAlike call sep N T p mode c c') (h : T c c') :
    MatchesAlike call sep N T (.optional p) mode c c' := by
  intro log log'
  have hp := hp log log'
  unfold matchPattern
  generalize matchPattern call sep p mode c log = o at hp
  generalize matchPattern call sep p mode c' log' = o' at hp
  cases hp with
  | failed => exact .matched .nil h
  | matched ha hd => exact .matched ha hd

theorem notHere {S : Cursor → Cursor → Prop}
    (hp : MatchesAlike call sep N S p { mode with look := mode.look.flip } c c') (h : T c c') :
    MatchesAlike call sep N T (.notHere p) mode c c' := by
  intro log log'
  have hp := hp log log'
  unfold matchPattern
  generalize matchPattern call sep p { mode with look := mode.look.flip } c log = o at hp
  generalize matchPattern call sep p { mode with look := mode.look.flip } c' log' = o' at hp
  cases hp with
  | failed => exact .matched .nil h
  | matched => exact .failed

theorem textStart (hr : Respaced front x y) (h : Twin front x y back c c') :
    MatchesAlike call sep N (Twin front x y back) .textStart mode c c' := by
  intro log log'
  have hzero : c.offset = 0 ↔ c'.offset = 0 := by
    cases h with
    | before => rfl
    | behind =>
      have positive {z : List Char} (hz : z ≠ []) : byteLength z ≠ 0 :=
        fun h => hz (eq_nil_of_byteLength_eq_zero h)
      have := positive hr.ne_nil
      have := positive hr.ne_nil'
      simp
      omega
  unfold matchPattern
  by_cases h0 : c.offset = 0
  · rw [if_pos h0, if_pos (hzero.1 h0)]
    exact .matched .nil h
  · rw [if_neg h0, if_neg fun h => h0 (hzero.2 h)]
    exact .failed

theorem textEnd (hr : Respaced front x y) (h : Twin front x y back c c') :
    MatchesAlike call sep N (Twin front x y back) .textEnd mode c c' := by
  intro log log'
  have hempty : c.rest.isEmpty = c'.rest.isEmpty := by
    cases h with
    | behind => rfl
    | @before p w h =>
      have nonempty {z : List Char} (hz : z ≠ []) : (w ++ (z ++ back)).isEmpty = false :=
        List.isEmpty_eq_false_iff.2 (by simp [hz])
      exact (nonempty hr.ne_nil).trans (nonempty hr.ne_nil').symm
  unfold matchPattern
  rw [hempty]
  cases c'.rest.isEmpty with
  | true => exact .matched .nil h
  | false => exact .failed

end MatchesAlike

/-! ## Repetitions -/

/-- From one cursor on the step is repeated as from the other, nodes included. -/
def RepeatsFrom (step : Cursor → Attempts R → Outcome R) (c d : Cursor) : Prop :=
  ∀ n log, c.rest.length < n → ∃ m log', d.rest.length < m ∧
    (repeatStep step n c log).1 = (repeatStep step m d log').1 ∧
    (repeatStep step n c log).2.1 = (repeatStep step m d log').2.1

theorem RepeatsFrom.refl (step : Cursor → Attempts R → Outcome R) (c : Cursor) :
    RepeatsFrom step c c :=
  fun n log hn => ⟨n, log, hn, rfl, rfl⟩

/-- A round that reads on and leaves no node may be left out. -/
theorem RepeatsFrom.round {step : Cursor → Attempts R → Outcome R} {c d e : Cursor}
    (hstep : ∀ log, ∃ log', step c log = .matched [] d log') (hlt : d.rest.length < c.rest.length)
    (h : RepeatsFrom step d e) : RepeatsFrom step c e := by
  intro n log hn
  obtain ⟨n, rfl⟩ := Nat.exists_eq_add_one.mpr (Nat.zero_lt_of_lt hn)
  obtain ⟨log', hm⟩ := hstep log
  obtain ⟨m, log'', hlen, hnodes, hcur⟩ := h n log' (by omega)
  have hskip : repeatStep step (n + 1) c log = repeatStep step n d log' := by
    rw [repeatStep, hm]
    rfl
  exact ⟨m, log'', hlen, by rw [hskip, hnodes], by rw [hskip, hcur]⟩

theorem RepeatsFrom.blanks {step : Cursor → Attempts R → Outcome R} {z : List Char}
    (hblank : ∀ b o r, isBlank b → ∀ log, ∃ log',
      step ⟨o, b :: r⟩ log = .matched [] ⟨o + b.utf8Size, r⟩ log')
    (hz : ∀ b ∈ z, isBlank b) (o : Nat) (w : List Char) :
    RepeatsFrom step ⟨o, z ++ w⟩ ⟨o + byteLength z, w⟩ := by
  induction z generalizing o with
  | nil => exact .refl _ _
  | cons b z ih =>
    rw [byteLength_cons, ← Nat.add_assoc]
    exact .round (hblank b o (z ++ w) (hz b List.mem_cons_self)) (Nat.lt_succ_self _)
      (ih (fun d hd => hz d (List.mem_cons_of_mem b hd)) (o + b.utf8Size))

theorem repeatStep_alike (step : Cursor → Attempts R → Outcome R) {N : ParseTree R → ParseTree R → Prop}
    {T : Cursor → Cursor → Prop}
    (hstep : ∀ d d' log log', Twin front x y back d d' →
      Outcome.Alike N T (step d log) (step d' log'))
    (hlt : ∀ d log nodes e log', step d log = .matched nodes e log' → e.rest.length < d.rest.length)
    (hclose : ∀ d d', T d d' → ∃ e e', Twin front x y back e e' ∧ e.rest.length ≤ d.rest.length ∧
      RepeatsFrom step d e ∧ RepeatsFrom step d' e')
    {n n' : Nat} (hn : c.rest.length < n) (hn' : c'.rest.length < n') (log log' : Attempts R)
    (h : Twin front x y back c c') :
    List.Forall₂ N (repeatStep step n c log).1 (repeatStep step n' c' log').1 ∧
      Twin front x y back (repeatStep step n c log).2.1 (repeatStep step n' c' log').2.1 := by
  induction hlen : c.rest.length using Nat.strongRecOn generalizing c c' n n' log log' with
  | ind len ih =>
  obtain ⟨n, rfl⟩ := Nat.exists_eq_add_one.mpr (Nat.zero_lt_of_lt hn)
  obtain ⟨n', rfl⟩ := Nat.exists_eq_add_one.mpr (Nat.zero_lt_of_lt hn')
  have hs := hstep c c' log log' h
  unfold repeatStep
  cases hm : step c log with
  | failed l =>
    cases hm' : step c' log' with
    | failed l' => exact ⟨.nil, h⟩
    | matched => rw [hm, hm'] at hs; cases hs
  | matched a d l =>
    cases hm' : step c' log' with
    | failed => rw [hm, hm'] at hs; cases hs
    | matched a' d' l' =>
      rw [hm, hm'] at hs
      cases hs with
      | matched ha hd =>
      have hlt₁ := hlt _ _ _ _ _ hm
      have hlt₁' := hlt _ _ _ _ _ hm'
      obtain ⟨e, e', he, hle, hr, hr'⟩ := hclose d d' hd
      obtain ⟨m, k, hmk, hnodes, hcur⟩ := hr n l (by omega)
      obtain ⟨m', k', hmk', hnodes', hcur'⟩ := hr' n' l' (by omega)
      obtain ⟨hall, htwin⟩ := ih _ (by omega) hmk hmk' k k' he rfl
      dsimp only
      rw [hnodes, hnodes', hcur, hcur']
      exact ⟨List.rel_append ha hall, htwin⟩

/-- The cursors are twins, or both stand among the blanks. -/
inductive Near (front x y back : List Char) : Cursor → Cursor → Prop
  | twin {c c' : Cursor} : Twin front x y back c c' → Near front x y back c c'
  | among {u v u' v' : List Char} : x = u ++ v → y = u' ++ v' →
      Near front x y back ⟨byteLength (front ++ u), v ++ back⟩ ⟨byteLength (front ++ u'), v' ++ back⟩

namespace MatchesAlike

variable {call : R → Mode → Cursor → Attempts R → Outcome R} {sep : Bool}
  {N : ParseTree R → ParseTree R → Prop} {T : Cursor → Cursor → Prop} {p : Pattern R} {mode : Mode}

theorem mono {S : Cursor → Cursor → Prop} (h : MatchesAlike call sep N T p mode c c')
    (hs : ∀ d d', T d d' → S d d') : MatchesAlike call sep N S p mode c c' := by
  intro log log'
  have h := h log log'
  generalize matchPattern call sep p mode c log = o at h ⊢
  generalize matchPattern call sep p mode c' log' = o' at h ⊢
  cases h with
  | failed => exact .failed
  | matched ha hd => exact .matched ha (hs _ _ hd)

/-- Where neither matches, they match alike. -/
theorem of_misses (h : Misses call sep p mode c) (h' : Misses call sep p mode c') :
    MatchesAlike call sep N T p mode c c' := by
  intro log log'
  obtain ⟨l, hm⟩ := h log
  obtain ⟨l', hm'⟩ := h' log'
  rw [hm, hm']
  exact .failed

/-- Where both match up to related cursors and leave no nodes, they match alike. -/
theorem of_matches (h : Matches call sep p mode c [] d) (h' : Matches call sep p mode c' [] d')
    (hd : T d d') : MatchesAlike call sep N T p mode c c' := by
  intro log log'
  obtain ⟨l, hm⟩ := h log
  obtain ⟨l', hm'⟩ := h' log'
  rw [hm, hm']
  exact .matched .nil hd

/-- Where the next character is one that the pattern reads, as it reads every blank, a
character is read in both texts. -/
theorem of_reads (hr : Respaced front x y) (h : Twin front x y back c c') {reads : Char → Prop}
    (hreads : ∀ b o r, reads b → Matches call sep p mode ⟨o, b :: r⟩ [] ⟨o + b.utf8Size, r⟩)
    (hblank : ∀ b, isBlank b → reads b) (hnext : ∃ b ∈ c.rest.head?, reads b) :
    MatchesAlike call sep N (Near front x y back) p mode c c' := by
  have both {b b' : Char} {o o' : Nat} {r r' : List Char} (hb : reads b) (hb' : reads b')
      (hnear : Near front x y back ⟨o + b.utf8Size, r⟩ ⟨o' + b'.utf8Size, r'⟩) :
      MatchesAlike call sep N (Near front x y back) p mode ⟨o, b :: r⟩ ⟨o', b' :: r'⟩ :=
    .of_matches (hreads b o r hb) (hreads b' o' r' hb') hnear
  obtain ⟨b₀, hmem, hb₀⟩ := hnext
  cases h with
  | @before q w hq =>
    cases w with
    | cons b w =>
      obtain rfl := Option.some.inj hmem
      have : Twin front x y back _ _ := Twin.of_passes' (k := [b]) hq
      exact both hb₀ hb₀ (.twin (by simpa using this))
    | nil =>
      -- in front of the blanks each text has a first blank of its own
      obtain ⟨b, z, rfl⟩ := List.exists_cons_of_ne_nil hr.ne_nil
      obtain ⟨b', z', rfl⟩ := List.exists_cons_of_ne_nil hr.ne_nil'
      have : Near front (b :: z) (b' :: z') back _ _ :=
        .among (show b :: z = [b] ++ z from rfl) (show b' :: z' = [b'] ++ z' from rfl)
      rw [byteLength_append, byteLength_append] at this
      rw [List.append_nil] at hq
      rw [← hq]
      exact both (hblank b (hr.blank b List.mem_cons_self)) (hblank b' (hr.blank' b' List.mem_cons_self))
        this
  | @behind q w hq =>
    cases w with
    | nil => cases hmem
    | cons b w =>
      obtain rfl := Option.some.inj hmem
      have : Twin front x y back _ _ := Twin.of_passes hq (k := [b]) rfl
      exact both hb₀ hb₀ (.twin (by simpa using this))

/-- The next character is read in both texts, if there is one. -/
theorem any (hr : Respaced front x y) (h : Twin front x y back c c') :
    MatchesAlike call sep N (Near front x y back) (.oneOf .any) mode c c' := by
  have next (he : c.rest ≠ []) : MatchesAlike call sep N (Near front x y back) (.oneOf .any) mode c c' :=
    .of_reads hr h (fun _ _ _ (_ : True) => .oneOf rfl rfl) (fun _ _ => trivial)
      ⟨c.rest.head he, List.head_mem_head? he, trivial⟩
  cases h with
  | before => exact next (by simp [hr.ne_nil])
  | @behind q w hq =>
    cases w with
    | nil => exact .of_misses (.oneOf nofun) (.oneOf nofun)
    | cons => exact next nofun

/-- A repetition whose rounds match alike and read a character each.  `hclose` leads back
from where a round may end to twin cursors. -/
theorem many_of_close (hr : Respaced front x y) (h : Twin front x y back c c')
    (hp : ∀ d d', Twin front x y back d d' → MatchesAlike call sep N T p mode d d')
    (hlt : ∀ d log nodes e log', matchPattern call sep p mode d log = .matched nodes e log' →
      e.rest.length < d.rest.length)
    (hclose : ∀ d d', T d d' → ∃ e e', Twin front x y back e e' ∧ e.rest.length ≤ d.rest.length ∧
      RepeatsFrom (fun c log => matchPattern call sep p mode (gap sep mode c) log) d e ∧
      RepeatsFrom (fun c log => matchPattern call sep p mode (gap sep mode c) log) d' e') :
    MatchesAlike call sep N (Twin front x y back) (.many p) mode c c' := by
  have hgap {d d' : Cursor} (h : Twin front x y back d d') :
      Twin front x y back (gap sep mode d) (gap sep mode d') := by
    unfold gap
    split
    · exact h.skipTrivia hr
    · exact h
  intro log log'
  have hs := hp c c' h log log'
  unfold matchPattern
  generalize matchPattern call sep p mode c log = o at hs
  generalize matchPattern call sep p mode c' log' = o' at hs
  cases hs with
  | failed => exact .matched .nil h
  | @matched a a' d d' l l' ha hd =>
    obtain ⟨e, e', he, -, hr, hr'⟩ := hclose d d' hd
    obtain ⟨m, k, hmk, hnodes, hcur⟩ := hr (d.rest.length + 1) l (Nat.lt_succ_self _)
    obtain ⟨m', k', hmk', hnodes', hcur'⟩ := hr' (d'.rest.length + 1) l' (Nat.lt_succ_self _)
    obtain ⟨hall, htwin⟩ := repeatStep_alike (N := N) (T := T)
      (fun c log => matchPattern call sep p mode (gap sep mode c) log)
      (fun d d' log log' h => hp _ _ (hgap h) log log')
      (fun d log nodes e log' h => Nat.lt_of_lt_of_le (hlt _ log nodes e log' h)
        (reaches_gap sep mode d).length_le)
      hclose hmk hmk' k k' he
    dsimp only
    rw [hnodes, hnodes', hcur, hcur']
    exact .matched (List.rel_append ha hall) htwin

theorem many (hr : Respaced front x y) (h : Twin front x y back c c')
    (hp : ∀ d d', Twin front x y back d d' →
      MatchesAlike call sep N (Twin front x y back) p mode d d')
    (hlt : ∀ d log nodes e log', matchPattern call sep p mode d log = .matched nodes e log' →
      e.rest.length < d.rest.length) :
    MatchesAlike call sep N (Twin front x y back) (.many p) mode c c' :=
  many_of_close hr h hp hlt fun d d' h => ⟨d, d', h, Nat.le_refl _, .refl _ d, .refl _ d'⟩

/-- A repetition may end a round among the blanks if each round reads a blank where one is
next. -/
theorem many_of_blanks (hr : Respaced front x y) (h : Twin front x y back c c')
    (hgap : ∀ c, gap sep mode c = c)
    (hblank : ∀ b o r, isBlank b → Matches call sep p mode ⟨o, b :: r⟩ [] ⟨o + b.utf8Size, r⟩)
    (hp : ∀ d d', Twin front x y back d d' → (∀ b ∈ d.rest.head?, isBlank b = false) →
      MatchesAlike call sep N (Near front x y back) p mode d d')
    (hlt : ∀ d log nodes e log', matchPattern call sep p mode d log = .matched nodes e log' →
      e.rest.length < d.rest.length) :
    MatchesAlike call sep N (Twin front x y back) (.many p) mode c c' := by
  have hround : ∀ b o r, isBlank b → ∀ log, ∃ log',
      matchPattern call sep p mode (gap sep mode ⟨o, b :: r⟩) log =
        .matched [] ⟨o + b.utf8Size, r⟩ log' := by
    intro b o r hb log
    rw [hgap]
    exact hblank b o r hb log
  refine many_of_close hr h (T := Near front x y back) (fun d d' hd => ?_) hlt fun d d' hd => ?_
  · by_cases hsolid : ∀ b ∈ d.rest.head?, isBlank b = false
    · exact hp d d' hd hsolid
    · exact .of_reads hr hd hblank (fun _ hb => hb) (by simpa using hsolid)
  · cases hd with
    | twin h => exact ⟨d, d', h, Nat.le_refl _, .refl _ d, .refl _ d'⟩
    | @among u v u' v' hx hy =>
      -- where blanks are left, they are read one by one
      subst hx hy
      have htwin : Twin front (u ++ v) (u' ++ v') back _ _ := .behind (p := []) rfl
      rw [List.append_nil, List.append_nil, ← List.append_assoc, ← List.append_assoc,
        byteLength_append (front ++ u), byteLength_append (front ++ u')] at htwin
      exact ⟨_, _, htwin, by simp,
        .blanks hround (fun b hb => hr.blank b (List.mem_append_right u hb)) _ _,
        .blanks hround (fun b hb => hr.blank' b (List.mem_append_right u' hb)) _ _⟩

end MatchesAlike

/-! ## Rules -/

/-- The trees have the same shape, with twins at the same places. -/
def TwinTrees (g : Grammar R) (front x y back : List Char) : ParseTree R → ParseTree R → Prop :=
  ParseTree.Related (IsTwin g (Twin front x y back))

/-- The pattern looks for no blanks, and for characters of a class only; `ok` says it of
rules, and `eats` which rules read a character. -/
def Pattern.steady (ok eats : R → Bool) : Pattern R → Bool
  | literal text => text.toList.all (!isBlank ·)
  | oneOf cls => cls ≠ .any
  | rule r => ok r
  | andThen p q | orElse p q => p.steady ok eats && q.steady ok eats
  | many p => p.steady ok eats && p.consumes eats
  | optional p | notHere p => p.steady ok eats
  | textStart | textEnd => true

theorem contains_eq_false_of_isBlank {cls : CharClass} (hcls : cls ≠ .any) {b : Char} (hb : isBlank b) :
    cls.contains b = false := by
  rcases (isBlank_iff b).1 hb with rfl | rfl | rfl | rfl <;> cases cls <;> first | rfl | exact absurd rfl hcls

section

variable {fuel : Nat} {sep : Bool} {p : Pattern R} {mode : Mode}

/-- A pattern that consumes goes forward. -/
theorem length_lt_of_consumes (n : Nat) (hp : p.consumes (g.consumes n)) (d : Cursor) (log : Attempts R)
    (nodes : List (ParseTree R)) (e : Cursor) (log' : Attempts R)
    (h : matchPattern (matchRule g fuel) sep p mode d log = .matched nodes e log') :
    e.rest.length < d.rest.length :=
  (derives_of_matchPattern _ (fun sep => derives_of_matchRule fuel sep) _ _ _ _ _ _ _ _ h).length_lt n hp

theorem MatchesAlike.of_steady (hr : Respaced front x y) {ok : R → Bool}
    (hrule : ∀ sep r mode c c', ok r → Twin front x y back c c' →
      MatchesAlike (matchRule g fuel) sep (TwinTrees g front x y back) (Twin front x y back) (.rule r)
        mode c c')
    {n : Nat} (hp : p.steady ok (g.consumes n)) (h : Twin front x y back c c') :
    MatchesAlike (matchRule g fuel) sep (TwinTrees g front x y back) (Twin front x y back) p mode c c' := by
  induction p generalizing mode c c' with
  | literal text => exact .literal hr h fun b hb => by simpa using List.all_eq_true.1 hp b hb
  | oneOf cls => exact .oneOf hr h fun b hb => contains_eq_false_of_isBlank (of_decide_eq_true hp) hb
  | rule r => exact hrule sep r mode c c' hp h
  | andThen p q ihp ihq =>
    obtain ⟨hp, hq⟩ := Bool.and_eq_true_iff.1 hp
    refine .andThen (ihp hp h) fun d d' hd => ihq hq ?_
    unfold gap
    split
    · exact hd.skipTrivia hr
    · exact hd
  | orElse p q ihp ihq =>
    obtain ⟨hp, hq⟩ := Bool.and_eq_true_iff.1 hp
    exact .orElse (ihp hp h) (ihq hq h)
  | many p ih =>
    obtain ⟨hp, heats⟩ := Bool.and_eq_true_iff.1 hp
    exact .many hr h (fun d d' hd => ih hp hd) (length_lt_of_consumes n heats)
  | optional p ih => exact .optional (ih hp h) h
  | notHere p ih => exact .notHere (ih hp h) h
  | textStart => exact .textStart hr h
  | textEnd => exact .textEnd hr h

/-- A rule matches alike where its pattern does. -/
theorem MatchesAlike.rule {T : Cursor → Cursor → Prop} {r : R} (h : T c c')
    (hp : MatchesAlike (matchRule g fuel) (g.definition r).kind.separates
      (ParseTree.Related (IsTwin g T)) T (g.definition r).pattern
      { mode with spacing := (g.definition r).kind.inner mode.spacing } c c') :
    MatchesAlike (matchRule g (fuel + 1)) sep (ParseTree.Related (IsTwin g T)) T (.rule r) mode c c' := by
  intro log log'
  have hs := hp log log'
  have derives {c nodes d log log'} := derives_of_matchPattern (g := g) (matchRule g fuel)
    (fun sep => derives_of_matchRule fuel sep) (g.definition r).kind.separates (g.definition r).pattern
    { mode with spacing := (g.definition r).kind.inner mode.spacing } c log nodes d log'
  unfold matchPattern matchRule
  dsimp only
  cases hm : matchPattern (matchRule g fuel) (g.definition r).kind.separates (g.definition r).pattern
      { mode with spacing := (g.definition r).kind.inner mode.spacing } c log <;>
    cases hm' : matchPattern (matchRule g fuel) (g.definition r).kind.separates (g.definition r).pattern
      { mode with spacing := (g.definition r).kind.inner mode.spacing } c' log' <;>
    rw [hm, hm'] at hs <;> cases hs
  · next ha hd =>
    split
    · exact .matched ha hd
    · refine .matched ?_ hd
      unfold nodesOf
      split
      · next hkept =>
        obtain ⟨hlook, hspacing⟩ := Bool.and_eq_true_iff.1 hkept
        have hlook : mode.look = .none := of_decide_eq_true hlook
        have houter : (g.definition r).kind.outer mode.spacing ≠ .sealed := of_decide_eq_true hspacing
        exact .cons (.node (.node hlook houter h hd (derives hm) (derives hm'))
          ha) .nil
      · exact ha
  · split <;> exact .failed

end

/-! ## The texts of twins -/

theorem Respaced.length_pos (hr : Respaced front x y) : 0 < byteLength x :=
  Nat.pos_of_ne_zero fun h => hr.ne_nil (eq_nil_of_byteLength_eq_zero h)

/-- Twins have the same text, or texts that run over the blanks. -/
theorem IsTwin.text_cases {t t' : ParseTree R} (hr : Respaced front x y)
    (h : IsTwin g (Twin front x y back) t t') :
    t.text = t'.text ∨ ∃ w p, t.text = w ++ x ++ p ∧ t'.text = w ++ y ++ p ∧
      t.offset ≤ byteLength front ∧ byteLength front < t.offset + byteLength t.text := by
  cases h with
  | @node r mode c c' d d' cs cs' _ _ hc hd hder hder' =>
  obtain ⟨k, hk⟩ := hder.reaches
  obtain ⟨k', hk'⟩ := hder'.reaches
  rw [ParseTree.text_of_passes hk, ParseTree.text_of_passes hk']
  obtain ⟨hrest, hoffset⟩ := hk
  obtain ⟨hrest', -⟩ := hk'
  have hpos := hr.length_pos
  cases hc with
  | @before p w hp =>
    cases hd with
    | @before q v hq =>
      -- what is passed is what is left before the blanks
      have passed {z k : List Char} (h : w ++ (z ++ back) = k ++ (v ++ (z ++ back))) : w = k ++ v := by
        rw [← List.append_assoc k] at h
        exact List.append_cancel_right h
      exact .inl (List.append_cancel_right ((passed hrest).symm.trans (passed hrest')))
    | @behind q v hq =>
      subst hq
      have split (z : List Char) : w ++ (z ++ (q ++ v)) = w ++ z ++ q ++ v := by simp
      dsimp only at hrest hrest'
      rw [split] at hrest hrest'
      obtain rfl := List.append_cancel_right hrest
      obtain rfl := List.append_cancel_right hrest'
      refine .inr ⟨w, q, rfl, rfl, ?_, ?_⟩
      · simp [ParseTree.offset, hp]
      · simp [ParseTree.offset, hp]
        omega
  | behind hp =>
    cases hd with
    | before hq =>
      have := congrArg byteLength hq
      simp at hoffset this
      omega
    | behind => exact .inl (List.append_cancel_right (hrest.symm.trans hrest'))

end ServiceLang.Peg
