import Mathlib.Data.List.TakeWhile
import ServiceLang.Proofs.Region.Piece

/-!
Every region that a scan finds is a declaration.

A declaration is a keyword with the text behind it up to the brace that matches
its first one; annotations may stand in front of an endpoint.  `Scanned` is the
invariant of a scanner that stands outside all regions: the regions found are
declarations of the text read, one behind the other, and if annotations wait,
everything since the first of them may stand before an endpoint.  `Outside` adds
that the scanner reads main text.  `Outside.item` passes from one item of the
text to the next, `Outside.sound` from there to the end, and `find_sound` is what
follows for a whole text.
-/

namespace ServiceLang.Region

/-! ## Declarations -/

/-- An annotation, with the arguments that it may have. -/
inductive Annotation : List Char → Prop
  | name {name : List Char} : (∀ c ∈ name, isWordChar c) → Annotation ('@' :: name)
  | withArguments {name gap args : List Char} : (∀ c ∈ name, isWordChar c) →
      (∀ c ∈ gap, isBlank c) → ArgsTail args → Annotation ('@' :: (name ++ gap ++ '(' :: args))

/-- What may stand in front of an endpoint and belong to it: annotations, and
between them blanks, comments and closing braces that match nothing. -/
inductive Lead : List Char → Prop
  | first {a : List Char} : Annotation a → Lead a
  | next {l a : List Char} : Lead l → Annotation a → Lead (l ++ a)
  | blank {l : List Char} {c : Char} : Lead l → isBlank c → Lead (l ++ [c])
  | comment {l k : List Char} : Lead l → Comment k → Lead (l ++ k)
  | brace {l : List Char} : Lead l → Lead (l ++ ['}'])

/-- The words that begin declarations of a kind. -/
def Kind.keywords : Kind → List String
  | .endpoint => ["endpoint"]
  | .flow => ["workflow", "job"]

/-- A declaration: perhaps annotations, a keyword, and text up to the brace that
matches its first one. -/
def IsDeclaration (kind : Kind) (text : List Char) : Prop :=
  ∃ lead word body, text = lead ++ word.toList ++ body ∧
    (lead = [] ∨ kind = .endpoint ∧ Lead lead) ∧ insideWord true lead.reverse = false ∧
    word ∈ kind.keywords ∧ (∀ c, body.head? = some c → isWordChar c = false) ∧ BracesTo 0 body

/-- The region lies in the text and holds a declaration. -/
def Holds (text : List Char) (r : Region) : Prop :=
  ∃ b inside a, text = b ++ inside ++ a ∧ byteLength b = r.start ∧
    byteLength (b ++ inside) = r.stop ∧ IsDeclaration r.kind inside

theorem Annotation.head? {a : List Char} (h : Annotation a) : a.head? = some '@' := by
  cases h <;> rfl

theorem Lead.head? {l : List Char} (h : Lead l) : l.head? = some '@' := by
  induction h with
  | first h => exact h.head?
  | next _ _ ih => rw [List.head?_append, ih]; rfl
  | blank _ _ ih => rw [List.head?_append, ih]; rfl
  | comment _ _ ih => rw [List.head?_append, ih]; rfl
  | brace _ ih => rw [List.head?_append, ih]; rfl

/-! ## Words and blanks -/

theorem Reads.wordTail {s : Scan} {top : Frame} {below : List Frame} {w : List Char}
    (hs : s.stack = top :: below) (ht : top.IsCode) (hi : insideWord top.isTopLevel s.before)
    (hw : ∀ c ∈ w, isWordChar c) (ys : List Char) : Reads s (w ++ ys) (s.after w) ys := by
  induction w generalizing s with
  | nil => simpa using Reads.done s ys
  | cons c w ih =>
    have hc := hw c List.mem_cons_self
    refine (Reads.code hs ht (.insideWord hc hi)).trans ?_
    rw [Scan.after_cons]
    exact ih (s := s.advance c) hs (by simp [insideWord, hc])
      (fun x hx => hw x (List.mem_cons_of_mem c hx))

theorem BracesTo.tail_of_isWordChar {d : Nat} {x : Char} {k : List Char}
    (h : BracesTo d (x :: k)) (hx : isWordChar x) : BracesTo d k := by
  generalize hl : x :: k = l at h
  cases h with
  | last => cases hl; cases hx
  | close => cases hl; cases hx
  | stray => cases hl; cases hx
  | brace => cases hl; cases hx
  | skip hk _ =>
    cases hk with
    | comment hk => cases hk <;> (cases hl; cases hx)
    | quoted => cases hl; cases hx
  | char _ h => cases hl; exact h

/-- A word at the start of text that closes braces is a part of it. -/
theorem BracesTo.exists_word_append {d : Nat} {k w ys zs : List Char} (h : BracesTo d k)
    (hw : ∀ c ∈ w, isWordChar c) (he : k ++ ys = w ++ zs) : ∃ k2, k = w ++ k2 ∧ BracesTo d k2 := by
  induction w generalizing k with
  | nil => exact ⟨k, rfl, h⟩
  | cons x w ih =>
    obtain ⟨y, k, rfl⟩ := List.exists_cons_of_ne_nil h.ne_nil
    obtain ⟨rfl, he2⟩ : y = x ∧ k ++ ys = w ++ zs := by simpa using he
    have hx := hw y List.mem_cons_self
    obtain ⟨k2, rfl, hk⟩ := ih (h.tail_of_isWordChar hx)
      (fun c hc => hw c (List.mem_cons_of_mem y hc)) he2
    exact ⟨k2, rfl, hk⟩

theorem ArgsTail.tail_of_ne {x : Char} {k : List Char} (h : ArgsTail (x :: k)) (hq : x ≠ '"')
    (hp : x ≠ ')') : ArgsTail k := by
  generalize hl : x :: k = l at h
  cases h with
  | close => cases hl; exact absurd rfl hp
  | quoted => cases hl; exact absurd rfl hq
  | char _ _ h => cases hl; exact h

theorem ArgsTail.ne_nil {k : List Char} (h : ArgsTail k) : k ≠ [] := by
  cases h <;> simp

/-- Text without quotes and parentheses at the start of arguments is a part of them. -/
theorem ArgsTail.exists_append {k w ys zs : List Char} (h : ArgsTail k)
    (hw : ∀ c ∈ w, c ≠ '"' ∧ c ≠ ')') (he : k ++ ys = w ++ zs) :
    ∃ k2, k = w ++ k2 ∧ ArgsTail k2 := by
  induction w generalizing k with
  | nil => exact ⟨k, rfl, h⟩
  | cons x w ih =>
    obtain ⟨y, k, rfl⟩ := List.exists_cons_of_ne_nil h.ne_nil
    obtain ⟨rfl, he2⟩ : y = x ∧ k ++ ys = w ++ zs := by simpa using he
    have hx := hw y List.mem_cons_self
    obtain ⟨k2, rfl, hk⟩ := ih (h.tail_of_ne hx.1 hx.2)
      (fun c hc => hw c (List.mem_cons_of_mem y hc)) he2
    exact ⟨k2, rfl, hk⟩

theorem nextIs_iff (c : Char) (cs : List Char) (hc : isBlank c = false) :
    nextIs c cs ↔ ∃ gap rest, cs = gap ++ c :: rest ∧ ∀ x ∈ gap, isBlank x := by
  unfold nextIs skipBlanks
  rw [decide_eq_true_eq]
  constructor
  · intro h
    obtain ⟨rest, hr⟩ := List.head?_eq_some_iff.1 h
    refine ⟨cs.takeWhile isBlank, rest, ?_, fun x hx => List.mem_takeWhile_imp hx⟩
    rw [← hr, List.takeWhile_append_dropWhile]
  · rintro ⟨gap, rest, rfl, hg⟩
    rw [List.dropWhile_append_of_pos hg, List.dropWhile_cons_of_neg (by simp [hc])]
    rfl

/-- What lies ahead of an annotation's name if it has arguments. -/
theorem exists_arguments (rest : List Char) (gap : Nat) (h : argumentsAhead? rest = some gap) :
    ∃ name blanks more, rest = name ++ blanks ++ '(' :: more ∧ (∀ c ∈ name, isWordChar c) ∧
      ∀ c ∈ blanks, isBlank c := by
  unfold argumentsAhead? at h
  simp only [] at h
  split at h
  · next hn =>
    obtain ⟨blanks, more, hb, hall⟩ := (nextIs_iff '(' _ rfl).1 hn
    refine ⟨rest.takeWhile isWordChar, blanks, more, ?_, fun x hx => List.mem_takeWhile_imp hx, hall⟩
    rw [List.append_assoc, ← hb, List.takeWhile_append_dropWhile]
  · cases h

theorem annotation_of_arguments (rest k ys : List Char) (gap : Nat)
    (h : argumentsAhead? rest = some gap) (hr : rest = k ++ ys) (hk : ArgsTail k) :
    Annotation ('@' :: k) := by
  obtain ⟨name, blanks, more, hrest, hname, hblanks⟩ := exists_arguments rest gap h
  have hw : ∀ c ∈ name ++ blanks ++ ['('], c ≠ '"' ∧ c ≠ ')' := by
    intro c hc
    rcases List.mem_append.1 hc with hc | hc
    · rcases List.mem_append.1 hc with hc | hc
      · have hc := hname c hc
        exact ⟨ne_of_isWordChar c _ hc rfl, ne_of_isWordChar c _ hc rfl⟩
      · rcases (isBlank_iff c).1 (hblanks c hc) with rfl | rfl | rfl | rfl <;> decide
    · rw [List.mem_singleton.1 hc]; decide
  have he : k ++ ys = name ++ blanks ++ ['('] ++ more := by rw [← hr, hrest]; simp
  obtain ⟨args, rfl, ha⟩ := hk.exists_append hw he
  have := Annotation.withArguments hname hblanks ha
  simpa using this

theorem mem_keywords_of_declares? (before after : List Char) (word : String) (kind : Kind)
    (h : declares? before word after = some kind) : word ∈ kind.keywords := by
  unfold declares? at h
  split at h
  · cases h
  split at h
  · next hw =>
    split at h
    · cases h; simp [Kind.keywords, hw]
    · cases h
  split at h
  · next hw =>
    split at h
    · cases h
      simpa [Kind.keywords] using hw
    · cases h
  · cases h

/-! ## The invariant between items -/

/-- Annotations that wait since `p` may stand in front of an endpoint that comes next. -/
def Waiting (s : Scan) (p : Nat) (rest : List Char) : Prop :=
  (∃ b l, s.before.reverse = b ++ l ∧ byteLength b = p ∧ Lead l) ∧ (∀ r ∈ s.found, r.stop ≤ p) ∧
    (∀ c, rest.head? = some c → isWordChar c → insideWord true s.before = false)

/-- What holds of a scanner of `text` that stands outside all regions, strings and
comments, with `rest` ahead. -/
structure Scanned (text : List Char) (s : Scan) (rest : List Char) : Prop where
  text_eq : text = s.before.reverse ++ rest
  offset_eq : s.offset = byteLength s.before.reverse
  holds : ∀ r ∈ s.found, Holds text r
  ordered : s.found.Pairwise (fun a b => b.stop ≤ a.start)
  passed : ∀ r ∈ s.found, r.stop ≤ s.offset
  waiting : ∀ p, s.pending = some p → Waiting s p rest

namespace Scanned

variable {text : List Char} {s u : Scan} {k ys : List Char}

theorem start (text : List Char) : Scanned text .start text where
  text_eq := rfl
  offset_eq := rfl
  holds := by intro r hr; cases hr
  ordered := .nil
  passed := by intro r hr; cases hr
  waiting := by intro p hp; cases hp

/-- A piece outside all regions was read. -/
theorem pass (h : Scanned text s (k ++ ys)) (hb : u.before = k.reverse ++ s.before)
    (ho : u.offset = s.offset + byteLength k) (hf : u.found = s.found)
    (hw : ∀ p, u.pending = some p → Waiting u p ys) : Scanned text u ys where
  text_eq := by rw [hb, h.text_eq]; simp
  offset_eq := by rw [hb, ho, h.offset_eq]; simp
  holds := by rw [hf]; exact h.holds
  ordered := by rw [hf]; exact h.ordered
  passed := by
    intro r hr
    rw [hf] at hr
    have := h.passed r hr
    omega
  waiting := hw

/-- A piece was read that may follow annotations. -/
theorem passLead (h : Scanned text s (k ++ ys)) (hk : ∀ l, Lead l → Lead (l ++ k))
    (hi : insideWord true (k.reverse ++ s.before) = false) : Scanned text (s.after k) ys := by
  refine h.pass rfl rfl rfl ?_
  intro p hp
  obtain ⟨⟨b, l, hbl, hbp, hl⟩, hf, -⟩ := h.waiting p hp
  refine ⟨⟨b, l ++ k, ?_, hbp, hk l hl⟩, hf, fun _ _ _ => hi⟩
  simp [hbl]

/-- Where the region of a declaration starts whose keyword comes next. -/
def regionStart (s : Scan) : Kind → Nat
  | .endpoint => s.pending.getD s.offset
  | .flow => s.offset

/-- The text from the start of a region to its keyword. -/
theorem exists_lead {rest : List Char} (h : Scanned text s rest) (kind : Kind) :
    ∃ b lead, s.before.reverse = b ++ lead ∧ byteLength b = regionStart s kind ∧
      (lead = [] ∨ kind = .endpoint ∧ Lead lead) ∧ (∀ r ∈ s.found, r.stop ≤ regionStart s kind) := by
  have here : regionStart s kind = s.offset → ∃ b lead, s.before.reverse = b ++ lead ∧
      byteLength b = regionStart s kind ∧ (lead = [] ∨ kind = .endpoint ∧ Lead lead) ∧
      (∀ r ∈ s.found, r.stop ≤ regionStart s kind) := by
    intro hs
    refine ⟨s.before.reverse, [], by simp, ?_, .inl rfl, ?_⟩
    · rw [hs, h.offset_eq]
    · rw [hs]; exact h.passed
  cases kind with
  | flow => exact here rfl
  | endpoint =>
    cases hp : s.pending with
    | none => exact here (by simp [regionStart, hp])
    | some p =>
      obtain ⟨⟨b, l, hbl, hbp, hl⟩, hf, -⟩ := h.waiting p hp
      refine ⟨b, l, hbl, ?_, .inr ⟨rfl, hl⟩, ?_⟩
      · simp [regionStart, hp, hbp]
      · simpa [regionStart, hp] using hf

theorem insideWord_lead (b lead before : List Char) (h : before.reverse = b ++ lead)
    (hi : insideWord true before = false) : insideWord true lead.reverse = false := by
  have hb : before = lead.reverse ++ b.reverse := by
    have := congrArg List.reverse h
    simpa using this
  cases hl : lead.reverse with
  | nil => rfl
  | cons x xs =>
    rw [hb, hl] at hi
    exact hi

/-- A keyword and text that closes its braces make a declaration. -/
theorem isDeclaration_of_declares? (kind : Kind) (before lead : List Char) (c : Char)
    (k ys : List Char) (hl : lead = [] ∨ kind = .endpoint ∧ Lead lead)
    (hi : insideWord true lead.reverse = false)
    (hd : declares? before (String.ofList ((c :: (k ++ ys)).takeWhile isWordChar))
      ((c :: (k ++ ys)).dropWhile isWordChar) = some kind) (hc : isWordChar c)
    (hk : BracesTo 0 k) : IsDeclaration kind (lead ++ c :: k) := by
  have hw := mem_keywords_of_declares? _ _ _ _ hd
  simp only [List.takeWhile_cons, hc, if_true] at hw
  obtain ⟨k2, hk2, hb⟩ := hk.exists_word_append (w := (k ++ ys).takeWhile isWordChar)
    (fun x hx => List.mem_takeWhile_imp hx) List.takeWhile_append_dropWhile.symm
  refine ⟨lead, _, k2, ?_, hl, hi, hw, ?_, hb⟩
  · rw [String.toList_ofList, List.append_assoc, List.cons_append, ← hk2]
  · intro x hx
    have hd2 : (k ++ ys).dropWhile isWordChar = k2 ++ ys := by
      have h1 : (k ++ ys).takeWhile isWordChar ++ (k ++ ys).dropWhile isWordChar = k ++ ys :=
        List.takeWhile_append_dropWhile
      conv at h1 => rhs; rw [hk2]
      rw [List.append_assoc] at h1
      exact List.append_cancel_left h1
    have hh : ((k ++ ys).dropWhile isWordChar).head? = some x := by
      rw [hd2, List.head?_append, hx]; rfl
    have hn := List.head?_dropWhile_not isWordChar (k ++ ys)
    rw [hh] at hn
    exact hn

/-- The declaration that a keyword begins becomes a region. -/
theorem region {c : Char} (h : Scanned text s (c :: (k ++ ys))) (kind : Kind) (below : List Frame)
    (hi : insideWord true s.before = false) (hc : isWordChar c)
    (hd : declares? s.before (String.ofList ((c :: (k ++ ys)).takeWhile isWordChar))
      ((c :: (k ++ ys)).dropWhile isWordChar) = some kind) (hk : BracesTo 0 k) :
    Scanned text (((s.advance c).dropPendingIf true).closeRegion kind (regionStart s kind) below k)
      ys := by
  obtain ⟨b, lead, hb, hbs, hl, hf⟩ := h.exists_lead kind
  have htext : text = b ++ (lead ++ c :: k) ++ ys := by
    rw [h.text_eq, hb]; simp
  have hoff : s.offset = byteLength b + byteLength lead := by
    rw [h.offset_eq, hb]; simp
  have hstop : s.offset + c.utf8Size + byteLength k = byteLength (b ++ (lead ++ c :: k)) := by
    simp; omega
  refine ⟨?_, ?_, ?_, ?_, ?_, ?_⟩
  · rw [h.text_eq]; simp [Scan.closeRegion]
  · simp only [Scan.closeRegion, Scan.offset_after, Scan.offset_dropPendingIf, Scan.offset_advance,
      Scan.before_after, Scan.before_dropPendingIf, Scan.before_advance, List.reverse_append,
      List.reverse_cons, List.reverse_reverse, hb]
    simp; omega
  · intro r hr
    simp only [Scan.closeRegion, List.mem_cons, Scan.offset_dropPendingIf, Scan.offset_advance,
      Scan.found_dropPendingIf, Scan.found_advance] at hr
    rcases hr with rfl | hr
    · refine ⟨b, lead ++ c :: k, ys, htext, hbs, hstop.symm, ?_⟩
      exact isDeclaration_of_declares? kind s.before lead c k ys hl
        (insideWord_lead b lead s.before hb hi) hd hc hk
    · exact h.holds r hr
  · simp only [Scan.closeRegion, List.pairwise_cons, Scan.found_dropPendingIf, Scan.found_advance]
    exact ⟨hf, h.ordered⟩
  · intro r hr
    simp only [Scan.closeRegion, List.mem_cons, Scan.offset_dropPendingIf, Scan.offset_advance,
      Scan.found_dropPendingIf, Scan.found_advance] at hr
    rcases hr with rfl | hr
    · simp [Scan.closeRegion]
    · have := h.passed r hr
      simp [Scan.closeRegion]; omega
  · intro p hp
    cases hp

/-- An annotation was read. -/
theorem annotated {a : List Char} (h : Scanned text s (a ++ ys)) (ha : Annotation a)
    (hb : u.before = a.reverse ++ s.before) (ho : u.offset = s.offset + byteLength a)
    (hf : u.found = s.found) (hp : u.pending = some (s.pending.getD s.offset))
    (hy : ∀ c, ys.head? = some c → isWordChar c → insideWord true u.before = false) :
    Scanned text u ys := by
  refine h.pass hb ho hf ?_
  intro p hu
  rw [hp] at hu
  obtain rfl : s.pending.getD s.offset = p := Option.some.inj hu
  cases hq : s.pending with
  | none =>
    refine ⟨⟨s.before.reverse, a, ?_, h.offset_eq.symm, .first ha⟩, ?_, hy⟩
    · simp [hb]
    · rw [hf]; exact h.passed
  | some q =>
    obtain ⟨⟨b, l, hbl, hbq, hl⟩, hf2, -⟩ := h.waiting q hq
    refine ⟨⟨b, l ++ a, ?_, hbq, .next hl ha⟩, ?_, hy⟩
    · simp [hb, hbl]
    · rw [hf]; exact hf2

end Scanned

/-! ## From item to item -/

theorem LineTail.getLast? {k : List Char} (h : LineTail k) : k.getLast? = some '\n' := by
  induction h with
  | close => rfl
  | @char c cs _ _ ih => rw [List.getLast?_cons, ih]; rfl

theorem BlockTail.getLast? {star : Bool} {k : List Char} (h : BlockTail star k) :
    k.getLast? = some '/' := by
  induction h with
  | close => rfl
  | @char star c cs _ _ ih => rw [List.getLast?_cons, ih]; rfl

theorem ArgsTail.getLast? {k : List Char} (h : ArgsTail k) : k.getLast? = some ')' := by
  induction h with
  | close => rfl
  | quoted _ _ ih => rw [List.getLast?_append, ih]; rfl
  | char _ _ _ ih => rw [List.getLast?_cons, ih]; rfl

theorem Comment.ne_nil {k : List Char} (h : Comment k) : k ≠ [] := by
  cases h <;> simp

/-- No word runs on from text that ends with neither a word nor an annotation's mark. -/
theorem insideWord_append_eq_false (atTop : Bool) (k before : List Char) (c : Char)
    (h : k.getLast? = some c) (hc : isWordChar c = false) (ha : c ≠ '@') :
    insideWord atTop (k.reverse ++ before) = false := by
  unfold insideWord
  rw [List.head?_append, List.head?_reverse, h]
  simp [hc, ha]

theorem Comment.insideWord_eq_false {k : List Char} (h : Comment k) (atTop : Bool)
    (before : List Char) : insideWord atTop (k.reverse ++ before) = false := by
  cases h with
  | line h =>
    refine insideWord_append_eq_false atTop _ before '\n' ?_ rfl (by decide)
    rw [List.getLast?_cons, List.getLast?_cons, h.getLast?]
    rfl
  | block h =>
    refine insideWord_append_eq_false atTop _ before '/' ?_ rfl (by decide)
    rw [List.getLast?_cons, List.getLast?_cons, h.getLast?]
    rfl

/-- The scanner stands in main text inside `d` braces, and `Scanned` holds. -/
structure Outside (text : List Char) (d : Nat) (s : Scan) (rest : List Char) : Prop where
  scanned : Scanned text s rest
  stack_eq : s.stack = [.main d]
  pending_eq : d ≠ 0 → s.pending = none

/-- The scanner passes an item of the text and is outside again. -/
def Passes (text : List Char) (s : Scan) (xs : List Char) : Prop :=
  ∃ k ys u e, xs = k ++ ys ∧ k ≠ [] ∧ Reads s xs u ys ∧ Outside text e u ys

namespace Outside

variable {text : List Char} {s t : Scan} {d : Nat} {c : Char} {k ys rest : List Char}

/-- A piece was read, and no annotation waits behind it. -/
theorem forget {u : Scan} {e : Nat} (h : Outside text d s (k ++ ys))
    (hb : u.before = k.reverse ++ s.before) (ho : u.offset = s.offset + byteLength k)
    (hf : u.found = s.found) (hp : u.pending = none) (hs : u.stack = [.main e]) :
    Outside text e u ys := by
  refine ⟨h.scanned.pass hb ho hf ?_, hs, fun _ => hp⟩
  intro p hq
  rw [hp] at hq
  cases hq

/-- What drops the waiting annotations at the top level leaves none waiting anywhere. -/
theorem pending_drop (h : Outside text d s rest) {u : Scan} (hu : u.pending = s.pending) :
    (u.dropPendingIf (decide (d = 0))).pending = none := by
  by_cases hd : d = 0
  · simp [hd]
  · simp [hd, hu, h.pending_eq hd]

/-- A piece was read behind which no annotation waits. -/
theorem passDrop (h : Outside text d s (k ++ ys)) :
    Outside text d ((s.dropPendingIf (decide (d = 0))).after k) ys :=
  h.forget (by simp) (by simp) (by simp) (by simpa using h.pending_drop rfl)
    (by simpa using h.stack_eq)

/-- A piece was read that may follow annotations. -/
theorem passLead (h : Outside text d s (k ++ ys)) (hk : ∀ l, Lead l → Lead (l ++ k))
    (hi : insideWord true (k.reverse ++ s.before) = false) : Outside text d (s.after k) ys :=
  ⟨h.scanned.passLead hk hi, h.stack_eq, h.pending_eq⟩

theorem blank (h : Outside text d s (c :: rest)) (hb : isBlank c) :
    Outside text d (s.advance c) rest := by
  refine h.passLead (k := [c]) (fun l hl => .blank hl hb) ?_
  rcases (isBlank_iff c).1 hb with rfl | rfl | rfl | rfl <;> rfl

/-- While annotations wait, no word runs on. -/
theorem insideWord (h : Outside text d s (c :: rest)) (hw : isWordChar c)
    (hi : insideWord (Frame.main d).isTopLevel s.before) : Outside text d (s.advance c) rest := by
  have hp : s.pending = none := by
    by_cases hd : d = 0
    · subst hd
      cases hq : s.pending with
      | none => rfl
      | some p =>
        obtain ⟨-, -, hn⟩ := h.scanned.waiting p hq
        have := hn c rfl hw
        have hi : ServiceLang.Region.insideWord true s.before = true := hi
        rw [this] at hi
        cases hi
    · exact h.pending_eq hd
  exact h.forget (k := [c]) rfl rfl rfl hp h.stack_eq

theorem openBrace (h : Outside text d s ('{' :: rest)) :
    Outside text (d + 1) (openBrace ((s.advance '{').dropPendingIf (decide (d = 0))) (.main d) [])
      rest := by
  refine h.forget (k := ['{']) ?_ ?_ ?_ ?_ rfl
  · simp [Region.openBrace]
  · simp [Region.openBrace]
  · simp [Region.openBrace]
  · exact h.pending_drop (u := s.advance '{') rfl

theorem closeBrace (h : Outside text d s ('}' :: rest)) :
    Outside text (d - 1) (closeBrace (s.advance '}') (.main d) []) rest := by
  have h2 : Outside text d (s.after ['}']) rest := h.passLead (fun l hl => .brace hl) rfl
  refine ⟨⟨h2.scanned.text_eq, h2.scanned.offset_eq, h2.scanned.holds, h2.scanned.ordered,
    h2.scanned.passed, h2.scanned.waiting⟩, rfl, ?_⟩
  intro hd
  exact h.pending_eq (by omega)

/-- A comment is passed, or it is the end of the text. -/
theorem comment (h : Outside text d s ('/' :: c :: rest)) (hc : c = '/' ∨ c = '*')
    (hr : Reads s ('/' :: c :: rest) t []) (ht : Closed t.stack) :
    t.found = s.found ∨ Passes text s ('/' :: c :: rest) := by
  rcases exists_comment s t _ _ c rest h.stack_eq trivial hc hr ht with
    ⟨k, ys, hxs, hk⟩ | ⟨-, -, -, hf⟩
  · right
    refine ⟨k, ys, s.after k, d, hxs, hk.ne_nil, ?_, ?_⟩
    · rw [hxs]; exact Reads.comment h.stack_eq trivial hk ys
    · rw [hxs] at h
      exact h.passLead (fun l hl => .comment hl hk) (hk.insideWord_eq_false true s.before)
  · exact .inl hf

theorem quoted (h : Outside text d s ('"' :: rest)) (hr : Reads s ('"' :: rest) t [])
    (ht : Closed t.stack) : Passes text s ('"' :: rest) := by
  obtain ⟨k, ys, rfl, hk⟩ := exists_quoted s t _ _ rest h.stack_eq trivial hr ht
  refine ⟨'"' :: k, ys, _, d, rfl, by simp, Reads.quoted h.stack_eq trivial hk ys, ?_⟩
  rw [isTopLevel_main]
  exact h.passDrop (k := '"' :: k)

/-- An annotation is passed, with the arguments that it may have. -/
theorem annotated (h : Outside text 0 s ('@' :: rest)) (hr : Reads s ('@' :: rest) t [])
    (ht : Closed t.stack) : Passes text s ('@' :: rest) := by
  cases ha : argumentsAhead? rest with
  | some gap =>
    have h1 := Reads.code h.stack_eq trivial (.withArguments rfl ha)
    obtain ⟨k, ys, hrest, hk⟩ := exists_argsTail _ t _ _ rest rfl (hr.rest h1) ht
    have hann := annotation_of_arguments rest k ys gap ha hrest hk
    subst hrest
    refine ⟨'@' :: k, ys, _, 0, rfl, by simp, h1.trans (reads_annotationArgs k hk _ _ _ ys rfl), ?_⟩
    refine ⟨h.scanned.annotated (a := '@' :: k) hann ?_ ?_ rfl rfl ?_, h.stack_eq, nofun⟩
    · simp [Scan.push]
    · simp [Scan.push, Nat.add_assoc]
    · intro c _ _
      have hl : ('@' :: k).getLast? = some ')' := by rw [List.getLast?_cons, hk.getLast?]; rfl
      simpa [Scan.push] using insideWord_append_eq_false true _ s.before ')' hl rfl (by decide)
  | none =>
    have h1 := Reads.code h.stack_eq trivial (.withoutArguments rfl ha)
    have hw : ∀ c ∈ rest.takeWhile isWordChar, isWordChar c := fun c hc => List.mem_takeWhile_imp hc
    have h2 := Reads.wordTail (s := { s.advance '@' with pending := some (s.pending.getD s.offset) })
      h.stack_eq trivial (by rfl) hw (rest.dropWhile isWordChar)
    rw [List.takeWhile_append_dropWhile] at h2
    have hsplit : '@' :: rest = ('@' :: rest.takeWhile isWordChar) ++ rest.dropWhile isWordChar := by
      rw [List.cons_append, List.takeWhile_append_dropWhile]
    rw [hsplit] at h
    refine ⟨_, _, _, 0, hsplit, by simp, h1.trans h2, ?_⟩
    refine ⟨h.scanned.annotated (.name hw) ?_ ?_ rfl rfl ?_, h.stack_eq, nofun⟩
    · simp
    · simp [Nat.add_assoc]
    · intro c hc hcw
      have hn := List.head?_dropWhile_not isWordChar rest
      rw [hc] at hn
      have hn : isWordChar c = false := hn
      rw [hcw] at hn
      cases hn

theorem exec (h : Outside text d s (c :: rest)) {u : Scan}
    (hu : u = ((s.advance c).dropPendingIf true).push (.shell s.offset 1 false))
    (h1 : Reads s (c :: rest) u rest) (hr : Reads s (c :: rest) t []) (ht : Closed t.stack) :
    Passes text s (c :: rest) := by
  have hs : u.stack = shellFrame s.offset 0 :: s.stack := by
    rw [hu]; simp [Scan.push, shellFrame]
  obtain ⟨k, ys, rfl, hk⟩ := exists_shellTail u t s.offset 0 s.stack rest hs (hr.rest h1) ht
  refine ⟨c :: k, ys, _, d, rfl, by simp, h1.trans (reads_shell 0 k hk u _ _ ys hs), ?_⟩
  refine h.forget (k := c :: k) ?_ ?_ ?_ ?_ h.stack_eq
  · simp [hu, Scan.push]
  · simp [hu, Scan.push, Nat.add_assoc]
  · simp [hu, Scan.push]
  · simp [hu, Scan.push]

/-- A declaration is passed and becomes a region. -/
theorem declaration (h : Outside text 0 s (c :: rest)) {u : Scan} (kind : Kind)
    (hc : isWordChar c) (hi : Region.insideWord true s.before = false)
    (hd : declares? s.before (String.ofList ((c :: rest).takeWhile isWordChar))
      ((c :: rest).dropWhile isWordChar) = some kind)
    (hu : u = ((s.advance c).dropPendingIf true).push
      (.region kind (Scanned.regionStart s kind) 0 false))
    (h1 : Reads s (c :: rest) u rest) (hr : Reads s (c :: rest) t []) (ht : Closed t.stack) :
    Passes text s (c :: rest) := by
  have hs : u.stack = .region kind (Scanned.regionStart s kind) 0 (0 < 0) :: s.stack := by
    rw [hu]; simp [Scan.push]
  obtain ⟨k, ys, rfl, hk⟩ := exists_bracesTo kind _ s.stack 0 u t rest hs (hr.rest h1) ht
  refine ⟨c :: k, ys, _, 0, rfl, by simp, h1.trans (Reads.region kind _ _ hk u hs ys), ?_⟩
  rw [hu]
  exact ⟨h.scanned.region kind _ hi hc hd hk, h.stack_eq, absurd rfl⟩

theorem word (h : Outside text d s (c :: rest)) (hc : isWordChar c)
    (hi : Region.insideWord (Frame.main d).isTopLevel s.before = false)
    (hr : Reads s (c :: rest) t []) (ht : Closed t.stack) : Passes text s (c :: rest) := by
  have h1 : Reads s (c :: rest) (stepWord s (.main d) c rest) rest :=
    Reads.code h.stack_eq trivial (.word hc hi)
  unfold stepWord at h1
  simp only [] at h1
  split at h1
  · exact h.exec rfl h1 hr ht
  split at h1
  · next hd =>
    refine ⟨[c], rest, _, d, rfl, by simp, h1, h.forget (k := [c]) rfl rfl rfl ?_ h.stack_eq⟩
    exact h.pending_eq hd
  next hd =>
  obtain rfl : d = 0 := by omega
  split at h1
  · exact ⟨[c], rest, _, 0, rfl, by simp, h1, h.forget (k := [c]) rfl rfl rfl rfl h.stack_eq⟩
  · next hk => exact h.declaration .endpoint hc hi hk rfl h1 hr ht
  · next hk => exact h.declaration .flow hc hi hk rfl h1 hr ht

/-- The scanner passes the next item, or nothing is found any more. -/
theorem item (h : Outside text d s (c :: rest)) (hr : Reads s (c :: rest) t [])
    (ht : Closed t.stack) : t.found = s.found ∨ Passes text s (c :: rest) := by
  have pass : ∀ u, CodeStep s (.main d) [] c rest u → ∀ e, Outside text e u rest →
      Passes text s (c :: rest) := by
    intro u hu e ho
    exact ⟨[c], rest, u, e, rfl, by simp, Reads.code h.stack_eq trivial hu, ho⟩
  cases hr with
  | @step _ u _ _ _ _ hst hr =>
  have hr2 : Reads s (c :: rest) t [] := .step hst hr
  have hstep := (step_code_iff s u _ _ c rest h.stack_eq trivial).1 hst
  cases (step_code_iff s u _ _ c rest h.stack_eq trivial).1 hst with
  | blank hb => exact .inr (pass _ hstep d (h.blank hb))
  | lineComment => exact h.comment (.inl rfl) hr2 ht
  | blockComment => exact h.comment (.inr rfl) hr2 ht
  | quote => exact .inr (h.quoted hr2 ht)
  | openBrace =>
    rw [isTopLevel_main] at hstep
    exact .inr (pass _ hstep (d + 1) h.openBrace)
  | closeBrace => exact .inr (pass _ hstep (d - 1) h.closeBrace)
  | withArguments htop _ =>
    obtain rfl : d = 0 := by simpa [isTopLevel_main] using htop
    exact .inr (h.annotated hr2 ht)
  | withoutArguments htop _ =>
    obtain rfl : d = 0 := by simpa [isTopLevel_main] using htop
    exact .inr (h.annotated hr2 ht)
  | insideWord hw hi => exact .inr (pass _ hstep d (h.insideWord hw hi))
  | word hw hi => exact .inr (h.word hw hi hr2 ht)
  | other =>
    rw [isTopLevel_main] at hstep
    refine .inr (pass _ hstep d ?_)
    exact h.forget (k := [c]) (by simp) (by simp) (by simp) (h.pending_drop rfl)
      (by simpa using h.stack_eq)

/-- From outside all regions to the end of the text, every region found is a
declaration, and each stands before the next. -/
theorem sound (h : Outside text d s rest) (hr : Reads s rest t []) (ht : Closed t.stack) :
    (∀ r ∈ t.found, Holds text r) ∧ t.found.Pairwise (fun a b => b.stop ≤ a.start) := by
  induction hn : rest.length using Nat.strongRecOn generalizing rest s d with
  | ind n ih =>
  subst hn
  cases rest with
  | nil =>
    cases hr
    exact ⟨h.scanned.holds, h.scanned.ordered⟩
  | cons c rest =>
    rcases h.item hr ht with hf | ⟨k, ys, u, e, hxs, hk, hu, ho⟩
    · rw [hf]
      exact ⟨h.scanned.holds, h.scanned.ordered⟩
    · refine ih ys.length ?_ ho (hr.rest hu) rfl
      have := List.length_pos_iff.2 hk
      rw [hxs, List.length_append]
      omega

end Outside

/-- The regions of a text are declarations, each before the next. -/
theorem find_sound (text : List Char) (regions : List Region) (h : find text = .ok regions) :
    (∀ r ∈ regions, Holds text r) ∧ regions.Pairwise (fun a b => a.stop ≤ b.start) := by
  obtain ⟨t, hr, ht, rfl⟩ := (find_eq_ok_iff text regions).1 h
  have hs : Outside text 0 .start text := ⟨Scanned.start text, rfl, nofun⟩
  obtain ⟨hh, hp⟩ := hs.sound hr ht
  refine ⟨fun r hr => hh r (List.mem_reverse.1 hr), ?_⟩
  rw [List.pairwise_reverse]
  exact hp

end ServiceLang.Region
