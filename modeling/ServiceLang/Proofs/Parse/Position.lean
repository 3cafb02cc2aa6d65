import ServiceLang.Proofs.Lower.Flow
import ServiceLang.Proofs.Lower.Statement
import ServiceLang.Proofs.Parse.Merge

/-!
Every node of a parsed program points at its own text.

A node stands in the text that was parsed (`Stands`), which is the main text or a
region.  The tokens of either text are tokens of the source, so many bytes further on
(`Embeds`): overwriting keeps what is no blank at its offset, and a region is a part of
the source.  So what stands in either text points at its first token in the source
(`Embeds.points`), and `parse_points` says it of all nodes that a walk visits.
-/

namespace ServiceLang.Source

open Peg Region

/-- The node is positioned at its own text: at a character inside the source, with the
line and the column of that offset, where a first token of the node begins.  Its bodies
are positioned at their braces. -/
structure PointsAt (s : Source) (n : Node) : Prop where
  isBoundary : IsBoundary s.text n.pos.offset
  inside : n.pos.offset < s.byteLength
  pos_eq : n.pos = s.position n.pos.offset
  token : ∃ w, IsToken w ∧ n.BeginsWith w ∧ w <+: dropBytes n.pos.offset s.text
  bodies : ∀ b ∈ n.bodies, ['{'] <+: dropBytes b.pos.offset s.text

/-- No node directly below this one is positioned before it. -/
def PrecedesChildren (n : Node) : Prop := ∀ m ∈ n.children, n.pos.offset ≤ m.pos.offset

/-! ## Tokens of a part of the source -/

/-- The tokens of the text stand in the source, so many bytes further on. -/
def Embeds (s : Source) (base : Nat) (text : List Char) : Prop :=
  ∀ before w after, text = before ++ w ++ after → IsToken w →
    ∃ b a, s.text = b ++ w ++ a ∧ ServiceLang.byteLength b = base + ServiceLang.byteLength before

/-- Overwriting regions keeps the tokens that it leaves. -/
theorem embeds_overwrite (s : Source) (regions : List Region) :
    s.Embeds 0 (overwrite regions 0 s.text) := by
  have keep (w : List Char) : ∀ (offset : Nat) (cs before after : List Char),
      overwrite regions offset cs = before ++ w ++ after → IsToken w →
      ∃ b a, cs = b ++ w ++ a ∧ ServiceLang.byteLength b = ServiceLang.byteLength before := by
    induction w with
    | nil => intro _ _ _ _ _ hw; exact absurd rfl hw.1
    | cons x w ih =>
      rintro offset cs before after h ⟨-, hw⟩
      obtain ⟨hx, hw⟩ := List.forall_mem_cons.1 hw
      obtain ⟨-, k, a, rfl, hk, ha⟩ :=
        exists_of_overwrite regions offset cs before x (w ++ after) (by simpa using h) hx
      by_cases hnil : w = []
      · subst hnil
        exact ⟨k, a, by simp, hk⟩
      · -- the rest of the token follows at once
        obtain ⟨b, a', rfl, hb⟩ := ih _ a [] after (by simpa using ha) ⟨hnil, hw⟩
        obtain rfl : b = [] := eq_nil_of_byteLength_eq_zero hb
        exact ⟨k, a', by simp, hk⟩
  intro before w after h hw
  rw [Nat.zero_add]
  exact keep w 0 s.text before after h hw

theorem embeds_region {s : Source} {r : Region} (h : Holds s.text r) :
    s.Embeds r.start (r.text s.text) := by
  obtain ⟨b, inside, a, hs, hstart, hstop, -⟩ := h
  intro before w after htext _
  rw [hs, text_append hstart hstop] at htext
  refine ⟨b ++ before, after ++ a, by rw [hs, htext]; simp, ?_⟩
  rw [byteLength_append, hstart]

variable {s : Source} {base : Nat} {text w : List Char} {c : Cursor} {n : Node}

/-- A token that is ahead in the text is ahead in the source. -/
theorem Embeds.ahead (h : s.Embeds base text) (hc : (Cursor.start text).Reaches c)
    (hw : IsToken w) (hahead : w <+: c.rest) :
    IsBoundary s.text (base + c.offset) ∧ base + c.offset < s.byteLength ∧
      (s.position (base + c.offset)).offset = base + c.offset ∧
      w <+: dropBytes (base + c.offset) s.text := by
  obtain ⟨before, htext, hoffset⟩ := hc.exists_before
  obtain ⟨after, hrest⟩ := hahead
  obtain ⟨b, a, hs, hb⟩ := h before w after (by rw [htext, ← hrest, List.append_assoc]) hw
  rw [← hoffset] at hb
  rw [List.append_assoc] at hs
  have hlt : base + c.offset < s.byteLength := by
    obtain ⟨x, w, rfl⟩ := List.exists_cons_of_ne_nil hw.1
    have := x.utf8Size_pos
    unfold Source.byteLength
    rw [hs, byteLength_append, byteLength_append, byteLength_cons]
    omega
  refine ⟨⟨b, w ++ a, hs, hb⟩, hlt, s.offset_position _ hlt.le, a, ?_⟩
  rw [hs, ← hb, dropBytes_append]

/-- What stands at a place of the text is positioned at that place of the source. -/
theorem Embeds.offset_eq (h : s.Embeds base text) (hc : (Cursor.start text).Reaches c)
    (hn : Stands (fun offset => s.position (base + offset)) c n) : n.pos.offset = base + c.offset := by
  obtain ⟨w, hw, -, hprefix⟩ := hn.beginsAt.token
  rw [hn.beginsAt.pos_eq]
  exact (h.ahead hc hw hprefix).2.2.1

/-- What stands in the text points at its own text, and is positioned before its
children. -/
theorem Embeds.points (h : s.Embeds base text) (hc : (Cursor.start text).Reaches c)
    (hn : Stands (fun offset => s.position (base + offset)) c n) :
    s.PointsAt n ∧ PrecedesChildren n := by
  obtain ⟨hpos, ⟨w, hw, hbegins, hprefix⟩, hbodies⟩ := hn.beginsAt
  have hoffset := h.offset_eq hc hn
  obtain ⟨hboundary, hlt, -, hahead⟩ := h.ahead hc hw hprefix
  refine ⟨⟨?_, ?_, ?_, ⟨w, hw, hbegins, ?_⟩, ?_⟩, ?_⟩
  · rwa [hoffset]
  · rwa [hoffset]
  · rw [hoffset, hpos]
  · rwa [hoffset]
  · intro b hb
    obtain ⟨e, he, hbpos, hbrace⟩ := hbodies b hb
    obtain ⟨-, -, heq, hahead⟩ := h.ahead (hc.trans he) (by decide) hbrace
    rwa [hbpos, heq]
  · intro m hm
    obtain ⟨e, he, hm⟩ := hn.exists_child hm
    rw [hoffset, h.offset_eq (hc.trans he) hm]
    exact Nat.add_le_add_left he.offset_le base

/-! ## Programs -/

/-- A statement of the main text stands in it. -/
theorem behind_of_parseMain {main : List Stmt} {x : Stmt} (h : s.parseMain text = .ok main)
    (hx : x ∈ main) : Behind (fun offset => s.position (0 + offset)) (.start text) (.stmt x) := by
  obtain ⟨trees, ht, hl⟩ := parsePart_eq_ok h
  obtain ⟨t, htm, htx⟩ := exists_partner (forall₂_of_mapM (f := MainGrammar.lowerStmt _) hl) hx
  obtain ⟨d, hd, -⟩ := MainGrammar.exists_of_program ht
  obtain ⟨hleft, hreach⟩ := hd.isLeft htm
  exact ⟨t.start, (reaches_skipTrivia _).trans hreach, MainGrammar.stands_of_lowerStmt t hleft htx⟩

theorem behind_of_parseRegion {r : Region} {x : Stmt} (h : s.parseRegion r = .ok x) :
    Behind (fun offset => s.position (r.start + offset)) (.start (r.text s.text)) (.stmt x) := by
  unfold parseRegion at h
  split at h
  · obtain ⟨e, he, rfl⟩ := map_eq_ok h
    obtain ⟨trees, ht, hl⟩ := parsePart_eq_ok he
    exact EndpointGrammar.behind_of_lowerRegion ht hl
  · obtain ⟨trees, ht, hl⟩ := parsePart_eq_ok h
    exact FlowGrammar.behind_of_lowerRegion ht hl

/-- Every statement of a program stands in the main text or in a region. -/
theorem exists_behind_of_parse {p : Program} {x : Stmt} (h : s.parse = .ok p)
    (hx : x ∈ p.statements) : ∃ base text, s.Embeds base text ∧
      Behind (fun offset => s.position (base + offset)) (.start text) (.stmt x) := by
  obtain ⟨c, main, declared, hcut, hmain, hdeclared, rfl⟩ := parse_eq_ok h
  obtain ⟨hfind, hover⟩ := cut_eq_ok hcut
  have hmem : x ∈ main ∨ x ∈ declared := by
    have hx : x ∈ mergeStatements main declared := hx
    simp only [mergeStatements, List.mem_append, List.mem_mergeSort, List.mem_filter] at hx
    tauto
  rcases hmem with hx | hx
  · exact ⟨0, c.main, hover ▸ s.embeds_overwrite c.regions, behind_of_parseMain hmain hx⟩
  · obtain ⟨r, hr, hrx⟩ := exists_partner (forall₂_of_mapM hdeclared) hx
    exact ⟨r.start, r.text s.text, embeds_region ((find_sound s.text c.regions hfind).1 r hr),
      behind_of_parseRegion hrx⟩

/-- Every node that a walk of a parsed program visits, the program itself apart, points
at its own text in the source, and no node is positioned before its parent. -/
theorem parse_points (s : Source) (p : Program) (h : s.parse = .ok p) :
    (∀ n ∈ (Node.program p).visited.tail, s.PointsAt n) ∧
      ∀ n ∈ (Node.program p).visited, PrecedesChildren n := by
  rw [Node.visited_eq, Node.preorder_eq, List.tail_cons]
  have below : ∀ n ∈ (Node.program p).children.flatMap Node.preorder,
      s.PointsAt n ∧ PrecedesChildren n := by
    intro n hn
    obtain ⟨m, hm, hn⟩ := List.mem_flatMap.1 hn
    obtain ⟨x, hx, rfl⟩ := List.mem_map.1 hm
    obtain ⟨base, text, hembeds, c, hc, hstands⟩ := exists_behind_of_parse h hx
    obtain ⟨d, hd, hstands⟩ := hstands.of_mem_preorder hn
    exact hembeds.points (hc.trans hd) hstands
  refine ⟨fun n hn => (below n hn).1, fun n hn => ?_⟩
  rcases List.mem_cons.1 hn with rfl | hn
  · -- the program is positioned at the start of the source
    obtain ⟨c, main, declared, -, -, -, rfl⟩ := parse_eq_ok h
    intro m _
    have hpos : (s.position 0).offset = 0 := s.offset_position 0 (Nat.zero_le _)
    exact (Nat.le_of_eq hpos).trans (Nat.zero_le _)
  · exact (below n hn).2

/-- An `else if`, an operation that begins with a parenthesis, an annotated endpoint
behind a character of two bytes, and values in a workflow. -/
theorem parse_points_mixed :
    let s : Source := ⟨"", ("if (a) + not b \x7b f(1) \x7d else if c \x7b\x7d else \x7b\x7d // é\n" ++
      "@auth\nendpoint GET \"/\" \x7b\x7d\nworkflow w \x7b step s \x7b input \x7b k: [-1] \x7d \x7d \x7d").toList⟩
    ∃ p, s.parse = .ok p ∧ (∀ n ∈ (Node.program p).visited.tail, s.PointsAt n) ∧
      ∀ n ∈ (Node.program p).visited, PrecedesChildren n := by
  intro s
  obtain ⟨p, hp⟩ := exists_ok_of_isSome (x := s.parse) (by decide +kernel)
  exact ⟨p, hp, parse_points s p hp⟩

end ServiceLang.Source
