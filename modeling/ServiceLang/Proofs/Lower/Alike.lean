import Mathlib.Data.List.TakeWhile
import ServiceLang.Proofs.Grammar.Respaced
import ServiceLang.Proofs.Peg.Shape
import ServiceLang.Proofs.Peg.Shifted
import ServiceLang.Text.Blank

/-!
Trees that are lowered alike.

Of a tree, lowering reads the rules, the texts of tokens and string literals, whether an
event ends in a brace, and where the nodes are placed.  Trees that agree on these at every
node, where the second is placed as a function `f` of positions says, are `AlikeTrees`.  The
trees of two texts that differ in blanks at one place are alike, if no string literal and no
shell text runs over the place (`alike_of_twins`): all other tokens hold no blanks, and the
character that a text ends in, white space apart, is no blank either.
-/

namespace ServiceLang.MainGrammar

open Peg

/-- The rules whose text is lowered. -/
def isRead (r : Rule) : Bool :=
  r = .lexeme .string || ((definition r).kind = .token && r ≠ .lexeme .stringInner)

/-- The nodes agree on what lowering reads of them, and the second is placed where `f` puts
the position of the first. -/
structure ReadsAlike (f : Position → Position) (place place' : Nat → Position)
    (t t' : ParseTree Rule) : Prop where
  rule_eq : t.rule = t'.rule
  text_eq : isRead t.rule → t.text = t'.text
  last_eq : (Text.trimEnd t.text).getLast? = (Text.trimEnd t'.text).getLast?
  params : t.rule = .paramList → ∀ u ∈ t.children, u.rule = .lexeme .ident
  place_eq : place' t'.offset = f (place t.offset)

/-- The trees agree on what lowering reads of them, up to `f` in positions. -/
def AlikeTrees (f : Position → Position) (place place' : Nat → Position) :
    ParseTree Rule → ParseTree Rule → Prop := ParseTree.Related (ReadsAlike f place place')

/-- No string literal and no shell text of the trees runs over the byte. -/
def LiteralsAvoid (offset : Nat) (trees : List (ParseTree Rule)) : Prop :=
  ∀ t ∈ ParseTree.nodesAll trees, t.rule = .lexeme .string ∨ t.rule = .shellBody →
    ¬(t.offset ≤ offset ∧ offset < t.offset + byteLength t.text)

instance (offset : Nat) (trees : List (ParseTree Rule)) : Decidable (LiteralsAvoid offset trees) :=
  inferInstanceAs (Decidable (∀ t ∈ ParseTree.nodesAll trees, _))

/-! ## Twins are alike -/

theorem isWhiteSpace_of_isBlank {c : Char} (hc : isBlank c) : Text.isWhiteSpace c := by
  rcases (isBlank_iff c).1 hc with rfl | rfl | rfl | rfl <;> decide

/-- The last character of a text, white space apart, is not among blanks. -/
theorem getLast?_trimEnd_blanks {x y : List Char} (w p : List Char) (hx : ∀ c ∈ x, isBlank c)
    (hy : ∀ c ∈ y, isBlank c) : (Text.trimEnd (w ++ x ++ p)).getLast? =
      (Text.trimEnd (w ++ y ++ p)).getLast? := by
  have drop {z : List Char} (hz : ∀ c ∈ z, isBlank c) :
      (z.reverse ++ w.reverse).dropWhile Text.isWhiteSpace = w.reverse.dropWhile Text.isWhiteSpace :=
    List.dropWhile_append_of_pos fun c hc => isWhiteSpace_of_isBlank (hz c (List.mem_reverse.1 hc))
  unfold Text.trimEnd
  simp only [List.getLast?_reverse, List.reverse_append]
  rcases all_or_first Text.isWhiteSpace p.reverse with hp | ⟨u, b, v, hp, hu, hb⟩
  · rw [List.dropWhile_append_of_pos hp, List.dropWhile_append_of_pos hp, drop hx, drop hy]
  · rw [hp, List.append_assoc, List.append_assoc, List.dropWhile_append_of_pos hu,
      List.dropWhile_append_of_pos hu, List.cons_append, List.cons_append, List.dropWhile_cons,
      List.dropWhile_cons, if_neg (by simp [hb]), if_neg (by simp [hb])]
    rfl

/-- A token that is read holds no blanks, strings and shell text apart. -/
theorem reads_of_isRead {r : Rule} (h : isRead r) (hs : r ≠ .lexeme .string) (hb : r ≠ .shellBody) :
    grammar.reads (· ≠ .any) (!isBlank ·) 3 r := by
  have all : ∀ r ∈ Rule.all, isRead r → r ≠ .lexeme .string → r ≠ .shellBody →
      grammar.reads (· ≠ .any) (!isBlank ·) 3 r := by decide +kernel
  exact all r r.mem_all h hs hb

/-- Inside a list of parameters there are names only. -/
theorem params_of_derives {sep : Bool} {mode : Mode} {c d : Cursor} {nodes : List (ParseTree Rule)}
    (h : Derives grammar sep (grammar.definition .paramList).pattern mode c nodes d)
    (hm : mode.Keeps) : ∀ t ∈ nodes, t.rule = .lexeme .ident := by
  have hnames : (grammar.definition .paramList).pattern.leavesOnly
      (grammar.leavesOnly (fun r => r = .lexeme .ident) 0) := by decide
  exact fun t ht => of_decide_eq_true ((h.leaves hm 0).forall_rule hnames t ht)

theorem params_of_isTwin {T : Cursor → Cursor → Prop} {t t' : ParseTree Rule}
    (h : IsTwin grammar T t t') (hr : t.rule = .paramList) :
    ∀ u ∈ t.children, u.rule = .lexeme .ident := by
  cases h with
  | node hlook hspacing _ _ hder _ =>
    obtain rfl := hr
    exact params_of_derives hder ⟨hlook, hspacing⟩

variable {front x y back : List Char} {f : Position → Position} {place place' : Nat → Position}

theorem readsAlike_of_isTwin (hr : Respaced front x y) {t t' : ParseTree Rule}
    (h : IsTwin grammar (Twin front x y back) t t')
    (hplace : ∀ c c', Twin front x y back c c' → place' c'.offset = f (place c.offset))
    (havoid : t.rule = .lexeme .string ∨ t.rule = .shellBody →
      ¬(t.offset ≤ byteLength front ∧ byteLength front < t.offset + byteLength t.text)) :
    ReadsAlike f place place' t t' := by
  have hrule := h.rule_eq
  have hplace : place' t'.offset = f (place t.offset) := by
    cases h with
    | node _ _ hc => exact hplace _ _ hc
  have hparams := params_of_isTwin h
  rcases h.text_cases hr with heq | ⟨w, p, ht, ht', hover⟩
  · exact ⟨hrule, fun _ => heq, by rw [heq], hparams, hplace⟩
  refine ⟨hrule, fun hread => ?_, ?_, hparams, hplace⟩
  case refine_2 =>
    rw [ht, ht']
    exact getLast?_trimEnd_blanks w p hr.blank hr.blank'
  by_cases hs : t.rule = .lexeme .string
  · exact absurd hover (havoid (.inl hs))
  by_cases hb : t.rule = .shellBody
  · exact absurd hover (havoid (.inr hb))
  -- any other token holds no blanks
  have hreads := reads_of_isRead hread hs hb
  cases h with
  | @node r mode c c' d d' cs cs' _ _ _ _ hder _ =>
  obtain ⟨hk, hp⟩ := Bool.and_eq_true_iff.1 hreads
  have hk : (grammar.definition r).kind = .token := of_decide_eq_true hk
  obtain ⟨-, k, hpass, hsolid⟩ := hder.reads (· ≠ .any) (!isBlank ·) (fun cls z hcls hz => by
    rw [Bool.not_eq_true']
    refine Bool.eq_false_iff.2 fun hblank => ?_
    rw [contains_eq_false_of_isBlank (of_decide_eq_true hcls) hblank] at hz
    cases hz) (by rw [hk]; nofun) 2 hp
  rw [ParseTree.text_of_passes hpass] at ht
  obtain ⟨b, z, hx⟩ := List.exists_cons_of_ne_nil hr.ne_nil
  have := hsolid b (by rw [ht, hx]; simp)
  rw [hr.blank b (hx ▸ List.mem_cons_self)] at this
  cases this

/-- Twins are alike unless a literal runs over the blanks. -/
theorem alike_of_twins (hr : Respaced front x y) {trees trees' : List (ParseTree Rule)}
    (h : List.Forall₂ (TwinTrees grammar front x y back) trees trees')
    (hplace : ∀ c c', Twin front x y back c c' → place' c'.offset = f (place c.offset))
    (havoid : LiteralsAvoid (byteLength front) trees) :
    List.Forall₂ (AlikeTrees f place place') trees trees' :=
  ParseTree.related_imp h fun t ht _ htwin => readsAlike_of_isTwin hr htwin hplace (havoid t ht)

/-! ## Nodes further on are alike -/

/-- Nodes further on are alike if places are moved as they are. -/
theorem alike_of_shifted {k : Nat} {t t' : ParseTree Rule} (h : ShiftedTrees grammar k t t')
    (hplace : ∀ offset, place' (offset + k) = f (place offset)) : AlikeTrees f place place' t t' := by
  refine h.imp fun u _ u' hu => ?_
  have hparams := params_of_isTwin hu
  cases hu with
  | @node r mode c c' d d' cs cs' _ _ hc hd _ _ =>
  obtain rfl : c' = c.shift k := hc
  obtain rfl : d' = d.shift k := hd
  have htext : (ParseTree.node r c d.offset cs).text =
      (ParseTree.node r (c.shift k) (d.shift k).offset cs').text := by
    unfold ParseTree.text Cursor.shift
    dsimp only
    rw [Nat.add_sub_add_right]
  exact ⟨rfl, fun _ => htext, by rw [htext], hparams, hplace c.offset⟩

/-! ## What is inside alike trees -/

namespace AlikeTrees

variable {t t' : ParseTree Rule} {f : Position → Position} {place place' : Nat → Position}

theorem rule_eq (h : AlikeTrees f place place' t t') : t.rule = t'.rule := h.rel.rule_eq

theorem text_eq (h : AlikeTrees f place place' t t') (hr : isRead t.rule) : t.text = t'.text := h.rel.text_eq hr

theorem place_eq (h : AlikeTrees f place place' t t') : place' t'.offset = f (place t.offset) :=
  h.rel.place_eq

theorem string_eq (h : AlikeTrees f place place' t t') (hr : isRead t.rule) : t.string = t'.string := by
  rw [ParseTree.string, ParseTree.string, h.text_eq hr]

theorem childrenOf (h : AlikeTrees f place place' t t') (r : Rule) :
    List.Forall₂ (fun u u' => u.rule = r ∧ AlikeTrees f place place' u u') (t.childrenOf r) (t'.childrenOf r) := by
  unfold ParseTree.childrenOf
  refine (List.forall₂_and_left _ _).2 ⟨?_, List.rel_filter (fun u u' hu => ?_) h.children⟩
  · exact fun u hu => of_decide_eq_true (List.mem_filter.1 hu).2
  · have hrule : u.rule = u'.rule := AlikeTrees.rule_eq hu
    simp [hrule]

theorem find? (h : AlikeTrees f place place' t t') (p : Rule → Bool) :
    Option.Rel (fun u u' => p u.rule ∧ AlikeTrees f place place' u u')
      (t.children.find? fun u => p u.rule) (t'.children.find? fun u => p u.rule) := by
  have hcs := h.children
  generalize t.children = ts at hcs
  generalize t'.children = ts' at hcs
  induction hcs with
  | nil => exact .none
  | @cons u u' ts ts' hu _ ih =>
    have hrule : u.rule = u'.rule := AlikeTrees.rule_eq hu
    rw [List.find?_cons, List.find?_cons, ← hrule]
    split
    · next hr => exact .some ⟨hr, hu⟩
    · exact ih

theorem firstOf? (h : AlikeTrees f place place' t t') (r : Rule) :
    Option.Rel (fun u u' => u.rule = r ∧ AlikeTrees f place place' u u') (t.firstOf? r)
      (t'.firstOf? r) := by
  have hfirst := h.find? fun r' => r' = r
  unfold ParseTree.firstOf?
  generalize t.children.find? _ = o at hfirst ⊢
  generalize t'.children.find? _ = o' at hfirst ⊢
  cases hfirst with
  | none => exact .none
  | some hu => exact .some ⟨of_decide_eq_true hu.1, hu.2⟩

theorem has_eq (h : AlikeTrees f place place' t t') (r : Rule) : t.has r = t'.has r := by
  have hcs := h.children
  unfold ParseTree.has
  generalize t.children = ts at hcs
  generalize t'.children = ts' at hcs
  induction hcs with
  | nil => rfl
  | @cons u u' ts ts' hu _ ih =>
    have hrule : u.rule = u'.rule := AlikeTrees.rule_eq hu
    rw [List.any_cons, List.any_cons, ih, hrule]

theorem textOf_eq (h : AlikeTrees f place place' t t') {r : Rule} (hr : isRead r) : t.textOf r = t'.textOf r := by
  have hfirst := h.firstOf? r
  unfold ParseTree.textOf
  generalize t.firstOf? r = o at hfirst
  generalize t'.firstOf? r = o' at hfirst
  cases hfirst with
  | none => rfl
  | some hu => exact hu.2.string_eq (hu.1 ▸ hr)

/-- What is made of each node of a rule is made of the other tree's nodes, elsewhere. -/
theorem map_childrenOf {α : Type} {k k' : ParseTree Rule → α} {g : α → α}
    (h : AlikeTrees f place place' t t') (r : Rule)
    (hk : ∀ u u', u.rule = r → AlikeTrees f place place' u u' → k' u' = g (k u)) :
    (t'.childrenOf r).map k' = ((t.childrenOf r).map k).map g := by
  have hcs := h.childrenOf r
  generalize t.childrenOf r = ts at hcs
  generalize t'.childrenOf r = ts' at hcs
  induction hcs with
  | nil => rfl
  | cons hu _ ih => rw [List.map_cons, List.map_cons, List.map_cons, ih, hk _ _ hu.1 hu.2]

theorem textsOf_eq (h : AlikeTrees f place place' t t') {r : Rule} (hr : isRead r) :
    t'.textsOf r = t.textsOf r :=
  (h.map_childrenOf r fun _ _ hu hut => (hut.string_eq (hu ▸ hr)).symm).trans (List.map_id _)

/-- The names in a list of parameters are the same. -/
theorem map_string_children (h : AlikeTrees f place place' t t') (hr : t.rule = .paramList) :
    t'.children.map ParseTree.string = t.children.map ParseTree.string := by
  have hcs := h.children
  have hrules := h.rel.params hr
  generalize t.children = ts at hcs hrules
  generalize t'.children = ts' at hcs
  induction hcs with
  | nil => rfl
  | @cons u u' ts ts' hu _ ih =>
    obtain ⟨hrule, hrules⟩ := List.forall_mem_cons.1 hrules
    have hstring : u.string = u'.string := AlikeTrees.string_eq hu (hrule ▸ by decide)
    rw [List.map_cons, List.map_cons, ih hrules, hstring]

end AlikeTrees

end ServiceLang.MainGrammar
