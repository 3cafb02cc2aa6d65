import ServiceLang.Lower.Program
import ServiceLang.Proofs.Grammar.Braces
import ServiceLang.Proofs.Grammar.Level
import ServiceLang.Proofs.Grammar.Piece
import ServiceLang.Proofs.Peg.Shape

/-!
Shell text closes the braces that it opens.

Braces match in a text (`BracesMatch`) if no beginning of it closes more than it opens, and
all of it as many as it opens.  The scanner counts braces and the grammar nests them, and both
come to this: the rest of a shell block is a text with matching braces and one brace more
(`shellTail_append_iff`), the grammar reads shell text up to the brace that closes a block
(`exists_rounds_of_shellTail`), and the command of a block is what stands between its braces
(`exists_command_of_execBlock`).
-/

namespace ServiceLang

open Peg Region

/-! ## Matching braces -/

/-- No beginning of the text closes more braces than it opens, and the whole text closes
all of them. -/
structure BracesMatch (text : List Char) : Prop where
  prefixes : ∀ p, p <+: text → p.count '}' ≤ p.count '{'
  total : text.count '{' = text.count '}'

theorem shellTail_open_iff (d : Nat) (k : List Char) :
    ShellTail (d + 1) ('{' :: k) ↔ ShellTail (d + 2) k := by
  constructor
  · intro h
    cases h with
    | brace h => exact h
    | char h => exact absurd rfl h
  · exact .brace

theorem shellTail_close_iff (d : Nat) (k : List Char) :
    ShellTail (d + 1) ('}' :: k) ↔ d = 0 ∧ k = [] ∨ 0 < d ∧ ShellTail d k := by
  constructor
  · intro h
    cases h with
    | last hd => exact .inl ⟨by omega, rfl⟩
    | @close d _ h => exact .inr ⟨Nat.succ_pos d, h⟩
    | char _ h => exact absurd rfl h
  · rintro (⟨rfl, rfl⟩ | ⟨hd, h⟩)
    · exact .last (Nat.le_refl 1)
    · obtain ⟨d, rfl⟩ := Nat.exists_eq_succ_of_ne_zero hd.ne'
      exact .close h

theorem shellTail_char_iff {c : Char} (hopen : c ≠ '{') (hclose : c ≠ '}') (d : Nat) (k : List Char) :
    ShellTail (d + 1) (c :: k) ↔ ShellTail (d + 1) k := by
  constructor
  · intro h
    cases h with
    | char _ _ h => exact h
    | brace => exact absurd rfl hopen
    | close => exact absurd rfl hclose
    | last => exact absurd rfl hclose
  · exact .char hopen hclose

/-- The rest of a shell block in which `d` braces are open besides its own: no beginning
closes more than these, and all of it closes them. -/
theorem shellTail_append_iff (d : Nat) (text : List Char) :
    ShellTail (d + 1) (text ++ ['}']) ↔
      (∀ p, p <+: text → p.count '}' ≤ d + p.count '{') ∧
        text.count '}' = d + text.count '{' := by
  induction text generalizing d with
  | nil =>
    rw [List.nil_append, shellTail_close_iff]
    constructor
    · rintro (⟨rfl, -⟩ | ⟨-, h⟩)
      · exact ⟨fun p hp => by rw [List.prefix_nil.1 hp]; exact Nat.le_refl 0, rfl⟩
      · cases h
    · rintro ⟨-, htotal⟩
      exact .inl ⟨by simpa using htotal.symm, rfl⟩
  | cons c text ih =>
    have prefixes : (∀ p, p <+: c :: text → p.count '}' ≤ d + p.count '{') ↔
        ∀ p, p <+: text → (c :: p).count '}' ≤ d + (c :: p).count '{' := by
      constructor
      · exact fun h p hp => h _ (List.prefix_cons_iff.2 (.inr ⟨p, rfl, hp⟩))
      · intro h p hp
        rcases List.prefix_cons_iff.1 hp with rfl | ⟨q, rfl, hq⟩
        · exact Nat.zero_le _
        · exact h q hq
    rw [prefixes, List.cons_append]
    by_cases hopen : c = '{'
    · subst hopen
      have count (p : List Char) : ('{' :: p).count '{' = p.count '{' + 1 ∧
          ('{' :: p).count '}' = p.count '}' := by simp
      rw [shellTail_open_iff, ih]
      simp only [count, Nat.add_assoc, Nat.add_comm 1]
    by_cases hclose : c = '}'
    · subst hclose
      have count (p : List Char) : ('}' :: p).count '{' = p.count '{' ∧
          ('}' :: p).count '}' = p.count '}' + 1 := by simp
      simp only [count, shellTail_close_iff]
      cases d with
      | zero =>
        constructor
        · rintro (⟨-, h⟩ | ⟨h, -⟩)
          · simp at h
          · exact absurd h (Nat.lt_irrefl 0)
        · rintro ⟨h, -⟩
          exact absurd (h [] List.nil_prefix) (by decide)
      | succ d =>
        have total : text.count '}' + 1 = d + 1 + text.count '{' ↔
            text.count '}' = d + text.count '{' := by omega
        have bound (p : List Char) : p.count '}' + 1 ≤ d + 1 + p.count '{' ↔
            p.count '}' ≤ d + p.count '{' := by omega
        simp only [ih, total, bound, Nat.succ_ne_zero, false_and, false_or, Nat.succ_pos, true_and]
    · have count (p : List Char) : (c :: p).count '{' = p.count '{' ∧ (c :: p).count '}' = p.count '}' := by
        simp [hopen, hclose]
      rw [shellTail_char_iff hopen hclose, ih]
      simp only [count]

theorem bracesMatch_iff (text : List Char) : ShellTail 1 (text ++ ['}']) ↔ BracesMatch text := by
  rw [shellTail_append_iff 0]
  constructor
  · rintro ⟨hp, ht⟩
    exact ⟨fun p h => by simpa using hp p h, by simpa using ht.symm⟩
  · rintro ⟨hp, ht⟩
    exact ⟨fun p h => by simpa using hp p h, by simpa using ht.symm⟩

namespace MainGrammar

/-! ## Reading shell text -/

/-- One round of shell text: shell text in braces, or a character that is no brace. -/
def shellRound : Pattern Rule :=
  .orElse (braces (.rule .shellText))
    (.andThen (.notHere (.orElse (.literal "\x7b") (.literal "\x7d"))) (.oneOf .any))

section

variable {fuel : Nat} {c d e g : Cursor} {k : List Char}

theorem misses_shellRound (hc : c.Passes ('}' :: k) g) :
    Misses (matchRule grammar fuel) true shellRound ⟨.none, .sealed⟩ c := by
  obtain ⟨e, hclose, -⟩ := hc.exists_cons
  exact .orElse (.left (misses_character rfl hc (by decide)))
    (.left (.notHere (.second (misses_character rfl hc (by decide)) (.literal hclose))))

theorem matches_shellRound_char {x : Char} (hopen : x ≠ '{') (hclose : x ≠ '}') (hc : c.Passes [x] e) :
    Matches (matchRule grammar fuel) true shellRound ⟨.none, .sealed⟩ c [] e :=
  .second (.left (misses_character rfl hc hopen))
    (.tight nofun (.notHere (.orElse (misses_character rfl hc hopen) (misses_character rfl hc hclose)))
      (matches_oneOf_passes hc rfl))

theorem matches_shellRound_braces (hopen : c.Passes ['{'] d)
    (h : Matches (matchRule grammar fuel) true (.rule .shellText) ⟨.none, .sealed⟩ d [] e)
    (hclose : e.Passes ['}'] g) :
    Matches (matchRule grammar fuel) true shellRound ⟨.none, .sealed⟩ c [] g :=
  .first (.tight nofun (.literal hopen) (.tight nofun h (.literal hclose)))

theorem matches_shellText (h : Rounds (matchRule grammar fuel) true shellRound ⟨.none, .sealed⟩ c [] e) :
    Matches (matchRule grammar (fuel + 1)) true (.rule .shellText) ⟨.none, .sealed⟩ c [] e :=
  .silent rfl (h.matches_many rfl)

end

/-- Shell text is read up to the brace that closes it.  The induction is on the text ahead:
a brace in it takes the text up to the brace that closes it, and more rounds follow. -/
theorem exists_rounds_of_shellTail (n : Nat) {k : List Char} (hn : k.length ≤ n) (fuel : Nat) (hf : n ≤ fuel)
    {d : Nat} (hk : ShellTail (d + 1) k) {c g : Cursor} (hc : c.Passes k g) :
    ∃ k₁ k₂ e, k = k₁ ++ '}' :: k₂ ∧ c.Passes k₁ e ∧ e.Passes ('}' :: k₂) g ∧
      Rounds (matchRule grammar fuel) true shellRound ⟨.none, .sealed⟩ c [] e ∧
      (d = 0 ∧ k₂ = [] ∨ 0 < d ∧ ShellTail d k₂) := by
  induction n using Nat.strongRecOn generalizing k fuel d c with
  | ind n ih =>
  cases hk with
  | last hd =>
    exact ⟨[], [], c, rfl, .nil c, hc, .done (misses_shellRound hc), .inl ⟨by omega, rfl⟩⟩
  | @close d k hk =>
    exact ⟨[], k, c, rfl, .nil c, hc, .done (misses_shellRound hc), .inr ⟨Nat.succ_pos d, hk⟩⟩
  | @char _ x k hopen hclose hk =>
    obtain ⟨e, hx, hc⟩ := hc.exists_cons
    have hlt : k.length < n := hn
    obtain ⟨k₁, k₂, f, rfl, hf₁, hf₂, hrounds, hrest⟩ :=
      ih k.length hlt (Nat.le_refl _) fuel (Nat.le_of_lt (Nat.lt_of_lt_of_le hlt hf)) hk hc
    exact ⟨x :: k₁, k₂, f, rfl, hx.append hf₁, hf₂,
      .round (matches_shellRound_char hopen hclose hx) (hx.length_lt (List.cons_ne_nil _ _)) hrounds, hrest⟩
  | @brace _ k hk =>
    obtain ⟨e, hx, hc⟩ := hc.exists_cons
    have hlt : k.length < n := hn
    obtain ⟨m, rfl⟩ : ∃ m, fuel = m + 1 := ⟨fuel - 1, by omega⟩
    obtain ⟨k₁, k₂, f, rfl, hf₁, hf₂, hinner, hrest⟩ :=
      ih k.length hlt (Nat.le_refl _) m (by omega) hk hc
    obtain ⟨a, hclose, hf₂⟩ := hf₂.exists_cons
    have hk₂ : ShellTail (d + 1) k₂ := by
      rcases hrest with ⟨hd, -⟩ | ⟨-, h⟩
      · cases hd
      · exact h
    have hlt₂ : k₂.length < n := by simp at hlt; omega
    obtain ⟨l₁, l₂, b, rfl, hb₁, hb₂, hmore, hrest⟩ :=
      ih k₂.length hlt₂ (Nat.le_refl _) (m + 1) (by omega) hk₂ hf₂
    have hround := matches_shellRound_braces hx (matches_shellText hinner) hclose
    have htext := hx.append (hf₁.append hclose)
    refine ⟨'{' :: (k₁ ++ '}' :: l₁), l₂, b, by simp, ?_, hb₂,
      .round hround (htext.length_lt (List.cons_ne_nil _ _)) hmore, hrest⟩
    simpa using htext.append hb₁

/-! ## Blocks -/

def execPattern : Pattern Rule :=
  .andThen (kw .execWord) (.andThen
    (.many (.choice [.literal " ", .literal "\t", .literal "\r", .literal "\n"]))
    (.andThen (.literal "\x7b") (.andThen (.rule .shellBody) (.literal "\x7d"))))

/-- A word with a blank, and shell text in braces, is matched as a block. -/
theorem matches_execBlock (fuel : Nat) {body : List Char} (hbody : BracesMatch body)
    (hf : body.length < fuel) {c g : Cursor} (hc : c.Passes ("exec \x7b".toList ++ (body ++ ['}'])) g) :
    ∃ inner, Matches (matchRule grammar (fuel + 3)) true (.rule .execBlock) ⟨.none, .free⟩ c
      [.node .execBlock c g.offset inner] g := by
  obtain ⟨c₁, hword, hc⟩ := hc.exists_append (k := "exec".toList) (l := ' ' :: '{' :: (body ++ ['}']))
  obtain ⟨c₂, hblank, hc⟩ := hc.exists_cons
  obtain ⟨c₃, hopen, hc⟩ := hc.exists_cons
  have tail : ShellTail 1 (body ++ ['}']) := (bracesMatch_iff body).2 hbody
  obtain ⟨k₁, k₂, c₄, htext, hbody, hclose, hrounds, hrest⟩ :=
    exists_rounds_of_shellTail _ (Nat.le_refl _) fuel (by rw [List.length_append]; exact hf) tail hc
  obtain rfl : k₂ = [] := by simpa using hrest
  have word : Matches (matchRule grammar (fuel + 2)) false (kw .execWord) ⟨.none, .tight⟩ c _ c₁ :=
    .tightToken rfl (matches_word nofun hword (.of_rest hblank.1 rfl))
  have blank : Matches (matchRule grammar (fuel + 2)) false
      (.many (.choice [.literal " ", .literal "\t", .literal "\r", .literal "\n"])) ⟨.none, .tight⟩
      c₁ ([] ++ []) c₂ := by
    refine .many (.first (.literal hblank)) (.done ?_)
    exact .orElse (misses_character rfl hopen (by decide)) (.orElse (misses_character rfl hopen (by decide))
      (.orElse (misses_character rfl hopen (by decide)) (misses_character rfl hopen (by decide))))
  have shell : Matches (matchRule grammar (fuel + 2)) false (.rule .shellBody) ⟨.none, .tight⟩ c₃ _ c₄ :=
    .tightToken rfl (matches_shellText hrounds)
  have whole : Matches (matchRule grammar (fuel + 2)) false execPattern ⟨.none, .tight⟩ c _ g :=
    .andThen word (.andThen blank (.andThen (.literal hopen) (.andThen shell (.literal hclose))))
  exact ⟨_, .unspaced rfl whole⟩

/-- What an `exec` block is read from, and the command that it is lowered to. -/
theorem exists_command_of_execBlock {sep : Bool} {c d : Cursor} {nodes : List (ParseTree Rule)}
    (h : Derives grammar sep (.rule .execBlock) ⟨.none, .free⟩ c nodes d) :
    ∃ bs body inner, c.Passes ("exec".toList ++ (bs ++ '{' :: (body ++ ['}']))) d ∧
      (∀ x ∈ bs, isBlank x) ∧ BracesMatch body ∧ nodes = [.node .execBlock c d.offset inner] ∧
      ∀ place, lowerStmt place (.node .execBlock c d.offset inner) =
        .ok (.exec (place c.offset) (String.ofList (Text.trim body))) := by
  obtain ⟨inner, hp, rfl⟩ := h.of_rule
  have htight : Spacing.tight ≠ .free := by decide
  obtain ⟨wordNodes, a, _, rfl, hword, hp⟩ := hp.of_tight htight
  obtain ⟨blankNodes, b, _, rfl, hblanks, hp⟩ := hp.of_tight htight
  obtain ⟨openNodes, e, _, rfl, hopen, hp⟩ := hp.of_tight htight
  obtain ⟨bodyNodes, f, closeNodes, rfl, hbody, hclose⟩ := hp.of_tight htight
  have noBlankNodes : blankNodes = [] := by
    refine List.eq_nil_iff_forall_not_mem.2 fun t ht => ?_
    have left := hblanks.leaves ⟨rfl, nofun⟩ 0
    exact Bool.false_ne_true
      (left.forall_rule (show Pattern.leavesOnly (grammar.leavesOnly (fun _ => false) 0) _ from rfl) t ht)
  obtain ⟨wordInner, hspelled, rfl⟩ := hword.of_rule
  obtain ⟨bodyInner, hshell, rfl⟩ := hbody.of_rule
  obtain ⟨hword, -⟩ := hspelled.of_word nofun
  cases hopen with
  | literal hopen =>
  cases hclose with
  | literal hclose =>
  subst noBlankNodes
  have hopen : b.Passes ['{'] e := Cursor.passes_of_strip? hopen
  have hclose : f.Passes ['}'] d := Cursor.passes_of_strip? hclose
  obtain ⟨-, bs, hbs, hblank⟩ := hblanks.reads (fun _ => false) isBlank nofun htight 0 rfl
  obtain ⟨body, hbody, htail⟩ := isShellText_of_shellText _ hshell nofun (Nat.le_refl _)
  refine ⟨bs, body, _, hword.append (hbs.append (hopen.append (hbody.append hclose))), hblank,
    (bracesMatch_iff body).1 (htail 0 _ (.last (Nat.le_refl 1))), rfl, fun place => ?_⟩
  have parts : lowerStmtParts place [.node (.word .execWord) c a.offset wordInner,
      .node .shellBody e f.offset bodyInner] =
        .ok [.token (.word .execWord) "exec".toList, .token .shellBody body] := by
    rw [lowerStmtParts, lowerStmtParts, lowerStmtParts, text_node hword, text_node hbody]
    rfl
  show lowerStmt place (.node .execBlock c d.offset [.node (.word .execWord) c a.offset wordInner,
      .node .shellBody e f.offset bodyInner]) = _
  rw [lowerStmt, parts]
  rfl

end MainGrammar

end ServiceLang
