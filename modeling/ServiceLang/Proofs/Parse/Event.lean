import ServiceLang.Proofs.Lower.Event
import ServiceLang.Proofs.Parse.Written

/-!
The schemas of the events of an accepted source.

An event that is written with entries in braces has these as its schema, and no other event has
a schema but one whose name is followed by a comment with a brace at its end
(`Source.event_schema`): that brace is taken for the end of a body (`Source.schema_of_comment`).
-/

namespace ServiceLang

open Peg

namespace MainGrammar

theorem eq_event {place : Nat → Position} {t : ParseTree Rule} {x : Stmt} (ht : t.rule = .eventDecl)
    (h : lowerStmt place t = .ok x) : x = .event (lowerEvent place t) := by
  obtain ⟨rule, start, stop, children⟩ := t
  obtain rfl : rule = .eventDecl := ht
  rw [lowerStmt] at h
  exact (Except.ok.inj h).symm

end MainGrammar

namespace Source

open MainGrammar

/-- Every event of the main text stands in the program.  If a body is written, its entries are
the schema, in order, and those that are marked are not required.  If none is written, there is
no schema, unless the trivia behind the name ends in a comment with a brace at its end. -/
theorem event_schema {s : Source} {p : Program} (h : s.parse = .ok p) {t : ParseTree Rule}
    (ht : t ∈ s.mainNodes) (hr : t.rule = .eventDecl) :
    ∃ e c trivia body entries, .stmt (.event e) ∈ (Node.program p).preorder ∧
      e.pos = s.position t.offset ∧ EventText t c trivia body entries ∧
      (body ≠ [] → ∃ fields, e.schema = some fields ∧
        List.Forall₂ (EntryText s.position) entries fields) ∧
      (body = [] → ¬EndsInBraceComment trivia → e.schema = none) ∧
      (body = [] → EndsInBraceComment trivia → e.schema = some []) := by
  have hleft := isLeft_of_mem_mainNodes ht (by rw [hr]; rfl)
  obtain ⟨c, trivia, body, entries, htext⟩ := exists_eventText hleft hr
  obtain ⟨x, hx, hmem⟩ := exists_of_mem_mainNodes h ht (by rw [hr]; rfl) (by rw [hr]; decide)
  obtain rfl := eq_event hr hx
  exact ⟨_, c, trivia, body, entries, hmem, rfl, htext, htext.schema_lowerEvent hleft hr⟩

theorem event_schema_marked :
    let s : Source := ⟨"", "event paid \x7b id: int, note: string? \x7d".toList⟩
    ∃ p t, s.parse = .ok p ∧ t ∈ s.mainNodes ∧ t.rule = .eventDecl ∧
      ∃ e entries fields, .stmt (.event e) ∈ (Node.program p).preorder ∧ entries.length = 2 ∧
        e.schema = some fields ∧ List.Forall₂ (EntryText s.position) entries fields := by
  intro s
  obtain ⟨p, hp⟩ := exists_ok_of_isSome (x := s.parse) (by decide +kernel)
  have hnode : s.mainNodes.any fun t =>
      t.rule = .eventDecl && (t.childrenOf .schemaField).length = 2 := by decide +kernel
  obtain ⟨t, ht, hnode⟩ := List.any_eq_true.1 hnode
  obtain ⟨hr, hlength⟩ := Bool.and_eq_true_iff.1 hnode
  obtain ⟨e, c, trivia, body, entries, hmem, -, htext, hfields, -⟩ :=
    event_schema hp ht (of_decide_eq_true hr)
  have hlength : entries.length = 2 := htext.childrenOf_eq ▸ of_decide_eq_true hlength
  have hbody : body ≠ [] := by
    rintro rfl
    rw [htext.entries_eq_nil] at hlength
    cases hlength
  obtain ⟨fields, hschema, hall⟩ := hfields hbody
  exact ⟨p, t, hp, ht, of_decide_eq_true hr, e, entries, fields, hmem, hlength, hschema, hall⟩

/-- An event without a body that is followed by a brace in a comment has a schema. -/
theorem schema_of_comment :
    let s : Source := ⟨"", "event a // \x7d".toList⟩
    ∃ p, s.parse = .ok p ∧ ∃ t ∈ s.mainNodes, t.rule = .eventDecl ∧ ∃ e c trivia,
      .stmt (.event e) ∈ (Node.program p).preorder ∧ EventText t c trivia [] [] ∧
      e.schema = some [] := by
  intro s
  obtain ⟨p, hp⟩ := exists_ok_of_isSome (x := s.parse) (by decide +kernel)
  have hnode : s.mainNodes.any fun t => t.rule = .eventDecl && !t.text.contains '\x7b' &&
      (lowerEvent s.position t).schema.any List.isEmpty := by decide +kernel
  obtain ⟨t, ht, hnode⟩ := List.any_eq_true.1 hnode
  obtain ⟨hnode, hschema⟩ := Bool.and_eq_true_iff.1 hnode
  obtain ⟨hr, hbrace⟩ := Bool.and_eq_true_iff.1 hnode
  have hr : t.rule = .eventDecl := of_decide_eq_true hr
  obtain ⟨x, hx, hmem⟩ := exists_of_mem_mainNodes hp ht (by rw [hr]; rfl) (by rw [hr]; decide)
  obtain rfl := eq_event hr hx
  obtain ⟨c, trivia, body, entries, htext⟩ :=
    exists_eventText (isLeft_of_mem_mainNodes ht (by rw [hr]; rfl)) hr
  obtain rfl : body = [] := htext.eq_nil_of_not_mem (by simpa using hbrace)
  obtain rfl := htext.entries_eq_nil
  refine ⟨p, hp, t, ht, hr, _, c, trivia, hmem, htext, ?_⟩
  cases hfields : (lowerEvent s.position t).schema with
  | none => rw [hfields] at hschema; cases hschema
  | some fields =>
    rw [hfields] at hschema
    rw [List.isEmpty_iff.1 hschema]

end Source

end ServiceLang
