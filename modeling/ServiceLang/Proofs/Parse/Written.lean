import ServiceLang.Proofs.Grammar.Program
import ServiceLang.Proofs.Lower.Nested
import ServiceLang.Proofs.Lower.Written
import ServiceLang.Proofs.Parse.Merge
import ServiceLang.Check.Program

/-!
What is written in the webhooks and integrations of a checked program.

Whatever the depth at which a webhook or an integration is written, there is a statement of
the program for it (`Source.exists_of_mem_mainNodes`).  The checks at the top level ask for
an address and for a timeout, so values that are no strings are found there; they do not
ask for a secret, and such a value of it is lost (`Source.secret_lost`).  With that said, all
properties with distinct keys can be found in the program (`Source.written_properties`).
-/

namespace ServiceLang

open Peg MainGrammar

/-! ## What checks find -/

theorem Webhook.fits_of_findings {w : Webhook} (hvalid : w.findings = []) {written : List Property}
    (hdistinct : (written.map Property.key).Nodup) {start : Webhook}
    (hw : w = written.foldl addWebhookProperty start) :
    Fits ["url", "secret"] written ↔ Fits ["secret"] written := by
  refine forall₂_congr fun p hp => and_congr_left fun _ => ?_
  have hurl (hkey : p.key = "url") : p.value.string?.isSome := by
    have hfield : w.url = p.value.string? :=
      hw ▸ foldl_field url_add_of_ne hdistinct hp hkey (fun w => url_add w p hkey) start
    rw [← hfield]
    have hfound := (List.append_eq_nil_iff.1 hvalid).1
    unfold urlFindings at hfound
    cases hnone : w.url with
    | none => rw [hnone] at hfound; cases hfound
    | some url => rfl
  rw [List.mem_cons, or_imp]
  exact and_iff_right hurl

theorem CircuitBreaker.fits_of_findings {b : CircuitBreaker} {integration : String}
    (hvalid : b.findings integration = []) {written : List Property}
    (hdistinct : (written.map Property.key).Nodup) {start : CircuitBreaker}
    (hb : b = written.foldl set start) : Fits ["timeout"] written ↔ Fits [] written := by
  refine forall₂_congr fun p hp => and_congr_right fun _ => ?_
  refine ⟨nofun, fun _ hkey => ?_⟩
  have hkey := List.mem_singleton.1 hkey
  have hfield : b.timeout = p.value.string?.getD "" :=
    hb ▸ foldl_field timeout_set_of_ne hdistinct hp hkey (fun b => by simp [set, hkey]) start
  have hfound := (List.append_eq_nil_iff.1 hvalid).2
  cases hvalue : p.value.string? with
  | some text => rfl
  | none =>
    rw [hvalue] at hfield
    rw [if_pos (show b.timeout = "" from hfield)] at hfound
    cases hfound

/-- Nothing is found in the statements of a program without diagnostics. -/
theorem Program.wiringFindings_eq_nil {p : Program} {registry : Registry}
    (hvalid : p.diagnostics registry = []) {x : Stmt} (hx : x ∈ p.statements) :
    x.wiringFindings p.declarations = [] := by
  have hfound := (List.append_eq_nil_iff.1 (List.map_eq_nil_iff.1 hvalid)).2
  exact List.flatMap_eq_nil_iff.1 (List.map_eq_nil_iff.1 hfound) x hx

/-! ## Nodes of the main text -/

namespace MainGrammar

variable {place : Nat → Position}

/-- Below a program, all nodes for statements but blocks are lowered. -/
theorem exists_of_lowerProgram {text : List Char} {trees : List (ParseTree Rule)} {main : List Stmt}
    (h : grammar.parse .program text = .ok trees) (hmain : lowerProgram place trees = .ok main)
    {u : ParseTree Rule} (hu : u ∈ ParseTree.nodesAll trees) (hstatement : isStatement u.rule)
    (hblock : u.rule ≠ .block) :
    ∃ x, lowerStmt place u = .ok x ∧ ∃ y ∈ main, .stmt x ∈ y.preorder := by
  obtain ⟨d, hderives⟩ := derives_of_parse _ _ _ h
  obtain ⟨t, rfl, hr⟩ : ∃ t, trees = [t] ∧ t.rule = .program :=
    List.map_eq_singleton_iff.1 (hderives.leaves ⟨rfl, nofun⟩ 0 (by decide))
  have hleft := (hderives.isLeft (List.mem_singleton_self t)).1
  obtain ⟨v, hv, hu⟩ := (ParseTree.mem_nodesAll_iff _ u).1 hu
  rw [List.mem_singleton.1 hv] at hu
  obtain ⟨rule, start, stop, children⟩ := t
  rcases List.mem_cons.1 hu with rfl | hu
  · obtain rfl : rule = .program := hr
    cases hstatement
  obtain ⟨v, hv, huv⟩ := (ParseTree.mem_nodesAll_iff children u).1 hu
  have hchild := hleft.forall_children (by rw [hr]; decide)
    (fun r => isStatement r || r = .lexeme .endOfInput) 1 (by rw [hr]; decide) v hv
  rcases Bool.or_eq_true_iff.1 hchild with hvs | hend
  · have hnode : v ∈ statementNodes [.node rule start stop children] := by
      refine List.mem_flatMap.2 ⟨_, List.mem_singleton_self _, List.mem_filter.2 ⟨hv, ?_⟩⟩
      refine decide_eq_true fun hend => ?_
      rw [hend] at hvs
      cases hvs
    obtain ⟨y, hy, hlower⟩ := exists_partner (forall₂_of_mapM hmain).flip hnode
    obtain ⟨x, hx, hmem⟩ := exists_of_mem_nodes v (hleft.child (by rw [hr]; rfl) hv).1 hvs hlower u huv
      hstatement hblock
    exact ⟨x, hx, y, hy, hmem⟩
  · have hinner := isInner_of_mem_nodes (hleft.isDerived.child hv) (by rw [of_decide_eq_true hend]; rfl) huv
    rw [hinner] at hstatement
    cases hstatement

theorem exists_webhook {t : ParseTree Rule} {x : Stmt} (ht : t.rule = .webhookDecl)
    (h : lowerStmt place t = .ok x) : ∃ w, lowerWebhook place t = .ok w ∧ x = .webhook w := by
  obtain ⟨rule, start, stop, children⟩ := t
  obtain rfl : rule = .webhookDecl := ht
  rw [lowerStmt] at h
  obtain ⟨w, hw, rfl⟩ := map_eq_ok h
  exact ⟨w, hw, rfl⟩

/-- An integration node is lowered as an integration. -/
theorem exists_integration {t : ParseTree Rule} {x : Stmt} (ht : t.rule = .integrationDecl)
    (h : lowerStmt place t = .ok x) : ∃ i, lowerIntegration place t = .ok i ∧ x = .integration i := by
  obtain ⟨rule, start, stop, children⟩ := t
  obtain rfl : rule = .integrationDecl := ht
  rw [lowerStmt] at h
  obtain ⟨i, hi, rfl⟩ := map_eq_ok h
  exact ⟨i, hi, rfl⟩

end MainGrammar

namespace Source

def mainNodes (s : Source) : List (ParseTree Rule) :=
  match Region.cut s.text with
  | .error _ => []
  | .ok c =>
    match grammar.parse .program c.main with
    | .error _ => []
    | .ok trees => ParseTree.nodesAll trees

/-- A statement of the main text is left among spaced rules. -/
theorem isLeft_of_mem_mainNodes {s : Source} {u : ParseTree Rule} (hu : u ∈ s.mainNodes)
    (hstatement : isStatement u.rule) : IsLeft grammar u := by
  unfold mainNodes at hu
  split at hu
  · cases hu
  split at hu
  · cases hu
  next trees htrees =>
  obtain ⟨d, hderives⟩ := derives_of_parse _ _ _ htrees
  obtain ⟨t, ht, hu⟩ := (ParseTree.mem_nodesAll_iff trees u).1 hu
  exact isLeft_of_mem_nodes t (hderives.isLeft ht).1 u hu hstatement

/-- A declaration of the main text is lowered to a statement that stands in the program. -/
theorem exists_of_mem_mainNodes {s : Source} {p : Program} (h : s.parse = .ok p) {u : ParseTree Rule}
    (hu : u ∈ s.mainNodes) (hstatement : isStatement u.rule) (hblock : u.rule ≠ .block) :
    ∃ x, lowerStmt s.position u = .ok x ∧ .stmt x ∈ (Node.program p).preorder := by
  obtain ⟨c, main, declared, hcut, hmain, -, rfl⟩ := parse_eq_ok h
  obtain ⟨trees, htrees, hlower⟩ := parsePart_eq_ok hmain
  unfold mainNodes at hu
  rw [hcut] at hu
  simp only [htrees] at hu
  have hplace : (fun offset => s.position (0 + offset)) = s.position := by
    funext offset
    rw [Nat.zero_add]
  rw [hplace] at hlower
  obtain ⟨x, hx, y, hy, hmem⟩ := exists_of_lowerProgram htrees hlower hu hstatement hblock
  refine ⟨x, hx, ?_⟩
  rw [Node.preorder, Stmt.preorderAll_eq]
  refine List.mem_cons_of_mem _ (List.mem_flatMap.2 ⟨.stmt y, List.mem_map_of_mem ?_, hmem⟩)
  exact List.mem_append_left _ (List.mem_mergeSort.2 (List.mem_append_left _ hy))

/-- A source that is found to be accepted and to have no diagnostics is parsed to a program
without any. -/
theorem exists_checked {s : Source} {registry : Registry}
    (h : s.parse.toOption.any fun p => (p.diagnostics registry).isEmpty) :
    ∃ p, s.parse = .ok p ∧ p.diagnostics registry = [] := by
  obtain ⟨p, hp, h⟩ := exists_ok_of_any h
  exact ⟨p, hp, List.isEmpty_iff.1 h⟩

/-- In a program without diagnostics every webhook keeps what is written in it under distinct
keys, if its secret is a string and its events are a list; below the top level, where nothing
is checked, the address has to be a string as well.  Every circuit breaker that is the last of
its integration reflects all that is written in it under distinct keys if these are its
settings, and below the top level if the timeout is a string as well.  All these conditions
are necessary. -/
theorem written_properties {s : Source} {p : Program} (h : s.parse = .ok p) {registry : Registry}
    (hvalid : p.diagnostics registry = []) :
    (∀ t ∈ s.mainNodes, t.rule = .webhookDecl → ∃ w written,
      lowerWebhook s.position t = .ok w ∧ .stmt (.webhook w) ∈ (Node.program p).preorder ∧
      propertiesIn s.position t = .ok written ∧
      ((written.map Property.key).Nodup →
        (w.Keeps written ↔ Webhook.Fits ["url", "secret"] written) ∧
        (.webhook w ∈ p.statements → (w.Keeps written ↔ Webhook.Fits ["secret"] written)))) ∧
    ∀ t ∈ s.mainNodes, t.rule = .integrationDecl → ∃ i,
      lowerIntegration s.position t = .ok i ∧ .stmt (.integration i) ∈ (Node.program p).preorder ∧
      ∀ u, (t.childrenOf .circuitBreaker).getLast? = some u → ∃ b written,
        i.circuitBreaker = some b ∧ propertiesIn s.position u = .ok written ∧
        ((written.map Property.key).Nodup →
          ((∀ q ∈ written, b.Reflects q) ↔ CircuitBreaker.Fits ["timeout"] written) ∧
          (.integration i ∈ p.statements →
            ((∀ q ∈ written, b.Reflects q) ↔ CircuitBreaker.Fits [] written))) := by
  constructor
  · intro t ht hr
    obtain ⟨x, hx, hmem⟩ := exists_of_mem_mainNodes h ht (by rw [hr]; rfl) (by rw [hr]; decide)
    obtain ⟨w, hw, rfl⟩ := exists_webhook hr hx
    obtain ⟨written, hwritten, heq⟩ := exists_of_lowerWebhook hw
    refine ⟨w, written, hw, hmem, hwritten, fun hdistinct => ?_⟩
    have hkeeps : w.Keeps written ↔ Webhook.Fits ["url", "secret"] written :=
      heq ▸ Webhook.keeps_iff hdistinct rfl
    refine ⟨hkeeps, fun htop => hkeeps.trans ?_⟩
    exact Webhook.fits_of_findings (Program.wiringFindings_eq_nil hvalid htop) hdistinct heq
  · intro t ht hr
    obtain ⟨x, hx, hmem⟩ := exists_of_mem_mainNodes h ht (by rw [hr]; rfl) (by rw [hr]; decide)
    obtain ⟨i, hi, rfl⟩ := exists_integration hr hx
    refine ⟨i, hi, hmem, fun u hu => ?_⟩
    obtain ⟨b, hb, hib⟩ := exists_of_lowerIntegration hi hu
    obtain ⟨written, hwritten, heq, hlimits⟩ := exists_of_lowerCircuitBreaker hb
    refine ⟨b, written, hib, hwritten, fun hdistinct => ?_⟩
    have hreflects : (∀ q ∈ written, b.Reflects q) ↔ CircuitBreaker.Fits ["timeout"] written :=
      heq ▸ CircuitBreaker.reflects_iff hdistinct hlimits _
    refine ⟨hreflects, fun htop => hreflects.trans ?_⟩
    have hfound := (List.append_eq_nil_iff.1 (Program.wiringFindings_eq_nil hvalid htop)).2
    rw [hib] at hfound
    exact CircuitBreaker.fits_of_findings hfound hdistinct heq

theorem written_properties_checked :
    let s : Source := ⟨"", ("webhook w \x7b url: \"https://a.example/\", retries: now, " ++
      "secret: \"k\", events: [\"user.created\"] \x7d").toList⟩
    ∃ p, s.parse = .ok p ∧ p.diagnostics .unrestricted = [] ∧
      ∃ t ∈ s.mainNodes, t.rule = .webhookDecl ∧ ∃ w written,
        lowerWebhook s.position t = .ok w ∧ propertiesIn s.position t = .ok written ∧
        (w.Keeps written ↔ Webhook.Fits ["url", "secret"] written) := by
  intro s
  obtain ⟨p, hp, hvalid⟩ : ∃ p, s.parse = .ok p ∧ p.diagnostics .unrestricted = [] :=
    exists_checked (by decide +kernel)
  have hnode : s.mainNodes.any fun t => t.rule = .webhookDecl &&
      (propertiesIn s.position t).toOption.any fun written =>
        written.map Property.key = ["url", "retries", "secret", "events"] := by
    decide +kernel
  obtain ⟨t, ht, hnode⟩ := List.any_eq_true.1 hnode
  obtain ⟨hr, hkeys⟩ := Bool.and_eq_true_iff.1 hnode
  obtain ⟨w, written, hw, -, hwritten, hkeeps⟩ :=
    (written_properties hp hvalid).1 t ht (of_decide_eq_true hr)
  rw [hwritten] at hkeys
  have hkeys : written.map Property.key = _ := of_decide_eq_true hkeys
  exact ⟨p, hp, hvalid, t, ht, of_decide_eq_true hr, w, written, hw, hwritten,
    (hkeeps (by rw [hkeys]; decide)).1⟩

/-- A secret that is a name is found nowhere in the program. -/
theorem secret_lost :
    let s : Source := ⟨"", "webhook w \x7b url: \"https://a.example/\", secret: key \x7d".toList⟩
    ∃ p, s.parse = .ok p ∧ p.diagnostics .unrestricted = [] ∧
      ∃ t ∈ s.mainNodes, t.rule = .webhookDecl ∧ ∃ w written,
        lowerWebhook s.position t = .ok w ∧ .stmt (.webhook w) ∈ (Node.program p).preorder ∧
        propertiesIn s.position t = .ok written ∧ written.map Property.key = ["url", "secret"] ∧
        w.secret = none ∧ w.properties = [] := by
  intro s
  obtain ⟨p, hp, hvalid⟩ : ∃ p, s.parse = .ok p ∧ p.diagnostics .unrestricted = [] :=
    exists_checked (by decide +kernel)
  have hnode : s.mainNodes.any fun t => t.rule = .webhookDecl &&
      ((propertiesIn s.position t).toOption.any (·.map Property.key = ["url", "secret"]) &&
        (lowerWebhook s.position t).toOption.any fun w => w.secret = none && w.properties.isEmpty) := by
    decide +kernel
  obtain ⟨t, ht, hnode⟩ := List.any_eq_true.1 hnode
  obtain ⟨hr, hnode⟩ := Bool.and_eq_true_iff.1 hnode
  obtain ⟨hkeys, hlost⟩ := Bool.and_eq_true_iff.1 hnode
  have hr : t.rule = .webhookDecl := of_decide_eq_true hr
  obtain ⟨x, hx, hmem⟩ := exists_of_mem_mainNodes hp ht (by rw [hr]; rfl) (by rw [hr]; decide)
  obtain ⟨w, hw, rfl⟩ := exists_webhook hr hx
  obtain ⟨written, hwritten, -⟩ := exists_of_lowerWebhook hw
  rw [hwritten] at hkeys
  rw [hw] at hlost
  obtain ⟨hsecret, hproperties⟩ := Bool.and_eq_true_iff.1 hlost
  exact ⟨p, hp, hvalid, t, ht, hr, w, written, hw, hmem, hwritten, of_decide_eq_true hkeys,
    of_decide_eq_true hsecret, List.isEmpty_iff.1 hproperties⟩

end Source

end ServiceLang
